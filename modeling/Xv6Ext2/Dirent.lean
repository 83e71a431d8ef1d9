import Xv6Ext2.Fs
import Xv6Ext2.Lib.CString

/-!
# Directory records

A directory is a file whose bytes are read in two ways.  `dirlookup` walks records
of variable length, `struct ext2_dirent`, each of which says how long it is.
`dirlink`, the test for an empty directory and `sys_unlink` use slots of 16 bytes,
`struct dirent`.  This file describes both on the bytes `c` of a directory.

`dirlookup` copies a name into an array that it does not clear between records, and
compares the wanted name also with the second byte of that array on.  What a lookup
finds therefore depends on the array it starts with, but only through one bit: does
the wanted name stand at its second byte.

## Main definitions

* `Ext2Dirent`, `dirent c q` — a record, and the one at offset `q`.
* `Tiles c q` — **well-formed directories**: from `q` on the bytes are a sequence of
  records.
* `Finds c name st q r` — a lookup that has come to the record at `q` stops at the
  record at `r`; `st` is the bit that the array stands for.
* `slotBytes name inum` — the slot that `dirlink` writes.

## Main results

* `Finds.not_tiles` — clearing the record that a lookup stops at breaks the sequence.
-/

namespace Xv6Ext2

open Bytes CString

/-- The longest name of a `struct dirent`. -/
abbrev DIRSIZ : ℕ := 14

/-- The longest name of a `struct ext2_dirent`. -/
abbrev EXT2_NAME_LEN : ℕ := 255

/-- `namecmp(s, t)` -/
def namecmp (s t : ℕ → UInt8) : ℤ := strncmp s t DIRSIZ 0

/-! ### Records -/

/-- `struct ext2_dirent`, as far as it is used. -/
structure Ext2Dirent where
  inode : UInt32
  recLen : UInt16
  nameLen : UInt8
  name : ℕ → UInt8

/-- `sizeof(struct ext2_dirent)`: 8 bytes, the name, and one byte of padding. -/
abbrev ext2DirentSize : ℕ := 264

namespace Ext2Dirent

/-- The record at offset `q` of a memory. -/
def decode (f : ℕ → UInt8) (q : ℕ) : Ext2Dirent where
  inode := le32 f q
  recLen := le16 f (q + 4)
  nameLen := f (q + 6)
  name i := if i < EXT2_NAME_LEN then f (q + 8 + i) else 0

/-- The array `file_name` after the name of a record has been copied to it. -/
def fileName (de : Ext2Dirent) (old : ℕ → UInt8) : ℕ → UInt8 :=
  Function.update (strncpy old de.name de.nameLen.toNat) de.nameLen.toNat 0

/-- The test of `dirlookup`: the name is that of the record, or that of the record
after an underscore. -/
def Matches (name fileName : ℕ → UInt8) (de : Ext2Dirent) : Prop :=
  (namecmp name (fun i => fileName (i + 1)) = 0 ∧ de.name 0 = 95) ∨ namecmp name fileName = 0

instance (name fileName : ℕ → UInt8) (de : Ext2Dirent) : Decidable (de.Matches name fileName) :=
  inferInstanceAs (Decidable (_ ∨ _))

/-- The name stands at the second byte of the array. -/
def stands (name fileName : ℕ → UInt8) : Bool :=
  decide (namecmp name (fun i => fileName (i + 1)) = 0)

/-- The array after a record, as far as it matters. -/
def next (name : ℕ → UInt8) (de : Ext2Dirent) (st : Bool) : Bool :=
  if de.nameLen = 0 then st else stands name (de.fileName fun _ => 0)

/-- The test of `dirlookup` in terms of the bit. -/
def hits (name : ℕ → UInt8) (de : Ext2Dirent) (st : Bool) : Bool :=
  (de.next name st && decide (de.name 0 = 95)) ||
    (decide (de.nameLen ≠ 0) && decide (namecmp name (de.fileName fun _ => 0) = 0))

variable {name old : ℕ → UInt8} {de : Ext2Dirent}

theorem fileName_eq_zero : de.fileName old de.nameLen.toNat = 0 := by
  rw [fileName, Function.update_self]

/-- Up to its end the copied name does not depend on what the array held. -/
theorem fileName_congr {i : ℕ} (hi : i ≤ de.nameLen.toNat) :
    de.fileName old i = de.fileName (fun _ => 0) i := by
  unfold fileName
  by_cases h : i = de.nameLen.toNat
  · rw [h, Function.update_self, Function.update_self]
  · rw [Function.update_of_ne h, Function.update_of_ne h]
    exact strncpy_of_lt _ (by omega)

theorem stands_fileName : stands name (de.fileName old) = de.next name (stands name old) := by
  unfold next
  by_cases h0 : de.nameLen = 0
  · rw [if_pos h0]
    unfold stands
    congr 3
    funext i
    rw [fileName, h0, Function.update_of_ne (by simp)]
    exact strncpy_of_le (by simp)
  · have hpos : 0 < de.nameLen.toNat :=
      Nat.pos_of_ne_zero fun h => h0 (UInt8.toNat_inj.mp h)
    rw [if_neg h0]
    unfold stands namecmp
    rw [strncmp_congr (e := de.nameLen.toNat - 1) _ _ _ _ (Nat.zero_le _)]
    · intro i hi
      exact fileName_congr (by omega)
    · rw [Nat.sub_add_cancel hpos]
      exact fileName_eq_zero

/-- The test of `dirlookup` depends on the array through one bit. -/
theorem matches_iff (hname : name 0 ≠ 0) :
    de.Matches name (de.fileName old) ↔ de.hits name (stands name old) = true := by
  have hcmp : namecmp name (de.fileName old) = 0 ↔
      de.nameLen ≠ 0 ∧ namecmp name (de.fileName fun _ => 0) = 0 := by
    have hcongr : namecmp name (de.fileName old) = namecmp name (de.fileName fun _ => 0) :=
      strncmp_congr (fun i hi => fileName_congr hi) fileName_eq_zero _ _ (Nat.zero_le _)
    rw [hcongr]
    constructor
    · intro h
      refine ⟨fun h0 => ?_, h⟩
      refine strncmp_ne_zero hname ?_ h
      have hend : de.fileName (fun _ => 0) de.nameLen.toNat = 0 := fileName_eq_zero
      rwa [h0] at hend
    · exact And.right
  unfold Matches hits
  rw [hcmp, ← stands_fileName]
  simp [stands]

end Ext2Dirent

/-- The record at offset `q` of a directory. -/
def dirent (c : List UInt8) (q : ℕ) : Ext2Dirent := Ext2Dirent.decode (cstr c) q

/-- **A well-formed directory**, from offset `q` on: records with room for their
names, of lengths that are multiples of four, up to the end. -/
inductive Tiles (c : List UInt8) : ℕ → Prop
  | done : Tiles c c.length
  | record {q : ℕ} : q < c.length →
      8 + (dirent c q).nameLen.toNat ≤ (dirent c q).recLen.toNat →
      (dirent c q).recLen.toNat % 4 = 0 → Tiles c (q + (dirent c q).recLen.toNat) → Tiles c q

theorem Tiles.le {c : List UInt8} {q : ℕ} (h : Tiles c q) : q ≤ c.length := by
  cases h with
  | done => exact le_refl _
  | record hq _ _ _ => exact hq.le

/-- The record at an offset before the end. -/
theorem Tiles.of_lt {c : List UInt8} {q : ℕ} (h : Tiles c q) (hq : q < c.length) :
    8 + (dirent c q).nameLen.toNat ≤ (dirent c q).recLen.toNat ∧
      (dirent c q).recLen.toNat % 4 = 0 ∧ Tiles c (q + (dirent c q).recLen.toNat) := by
  cases h with
  | done => omega
  | record _ hlen hmod hrest => exact ⟨hlen, hmod, hrest⟩

/-- Well-formedness, evaluated over at most `n` records. -/
def tilesBool (c : List UInt8) : ℕ → ℕ → Bool
  | 0, q => q == c.length
  | n + 1, q => q == c.length ||
    (decide (q < c.length) &&
      decide (8 + (dirent c q).nameLen.toNat ≤ (dirent c q).recLen.toNat) &&
      decide ((dirent c q).recLen.toNat % 4 = 0) &&
      tilesBool c n (q + (dirent c q).recLen.toNat))

theorem Tiles.of_bool {c : List UInt8} : ∀ {n q : ℕ}, tilesBool c n q = true → Tiles c q := by
  intro n
  induction n with
  | zero =>
    intro q h
    rw [tilesBool, beq_iff_eq] at h
    rw [h]
    exact .done
  | succ n ih =>
    intro q h
    rw [tilesBool, Bool.or_eq_true, beq_iff_eq] at h
    rcases h with rfl | h
    · exact .done
    · simp only [Bool.and_eq_true, decide_eq_true_eq] at h
      obtain ⟨⟨⟨hq, hroom⟩, hmod⟩, hrest⟩ := h
      exact .record hq hroom hmod (ih hrest)

/-- A lookup of `name` that has come to offset `q` with the bit `st` stops at the
record at `r`. -/
inductive Finds (c : List UInt8) (name : ℕ → UInt8) : Bool → ℕ → ℕ → Prop
  | here {st : Bool} {q : ℕ} : q < c.length → (dirent c q).inode ≠ 0 →
      (dirent c q).hits name st = true → Finds c name st q q
  | unused {st : Bool} {q r : ℕ} : q < c.length → (dirent c q).inode = 0 →
      Finds c name st (q + (dirent c q).recLen.toNat) r → Finds c name st q r
  | other {st : Bool} {q r : ℕ} : q < c.length → (dirent c q).inode ≠ 0 →
      (dirent c q).hits name st = false →
      Finds c name ((dirent c q).next name st) (q + (dirent c q).recLen.toNat) r →
      Finds c name st q r

section Finds

variable {c c' : List UInt8} {name : ℕ → UInt8} {st : Bool} {q r : ℕ}

theorem Finds.le (h : Finds c name st q r) : q ≤ r := by
  induction h with
  | here => exact le_refl _
  | unused _ _ _ ih => omega
  | other _ _ _ _ ih => omega

theorem Finds.stop_lt (h : Finds c name st q r) : r < c.length := by
  induction h with
  | here hq _ _ => exact hq
  | unused _ _ _ ih => exact ih
  | other _ _ _ _ ih => exact ih

/-- **Clearing the record that a lookup stops at** breaks the sequence: the record has
no length any more. -/
theorem Finds.not_tiles (h : Finds c name st q r) (ht : Tiles c q)
    (hlen : c.length ≤ c'.length) (hbytes : ∀ i < r, cstr c' i = cstr c i)
    (hclear : (dirent c' r).recLen = 0) : ¬Tiles c' q := by
  have hstep : ∀ q, q < c.length → Tiles c q → Tiles c' q →
      q + (dirent c q).recLen.toNat ≤ r →
      Tiles c (q + (dirent c q).recLen.toNat) ∧ Tiles c' (q + (dirent c q).recLen.toNat) := by
    intro q hq ht ht' hle
    obtain ⟨hroom, -, hrest⟩ := ht.of_lt hq
    have hrec : (dirent c' q).recLen = (dirent c q).recLen :=
      le16_congr fun k _ => hbytes _ (by omega)
    have hrest' := (ht'.of_lt (by omega)).2.2
    rw [hrec] at hrest'
    exact ⟨hrest, hrest'⟩
  intro ht'
  induction h with
  | here hq _ _ =>
    have hroom := (ht'.of_lt (by omega)).1
    rw [hclear] at hroom
    simp at hroom
  | unused hq _ hrest ih =>
    obtain ⟨h₁, h₂⟩ := hstep _ hq ht ht' hrest.le
    exact ih h₁ hbytes hclear hstep h₂
  | other hq _ _ hrest ih =>
    obtain ⟨h₁, h₂⟩ := hstep _ hq ht ht' hrest.le
    exact ih h₁ hbytes hclear hstep h₂

end Finds

/-! ### Slots -/

/-- The slot that `dirlink` writes, a `struct dirent`: the number in two bytes, and
the name in fourteen. -/
def slotBytes (name : ℕ → UInt8) (inum : UInt32) (i : ℕ) : UInt8 :=
  if i < 2 then byteOf inum.toNat i else strncpy (fun _ => 0) name DIRSIZ (i - 2)

end Xv6Ext2
