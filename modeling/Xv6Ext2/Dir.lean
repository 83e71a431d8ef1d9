import Xv6Ext2.Dirent
import Xv6Ext2.Frame

/-!
# Looking up and adding names

`dirlookup` and `dirlink` of `kernel/fs.c`, and what they make of a well-formed
directory.

The two functions read a directory in different ways, and the slot that `dirlink`
writes is no record: the number of a slot has two bytes where that of a record has
four, and there is no record length.

## Main definitions

* `dirlookup`, `dirlink` — the source functions.
* `IsName` — the names that can be added: 1 to 14 bytes, no zero and no slash.
* `Resolves s dp name r` — a lookup of the name returns the inode number `r`, or
  no entry.

## Main results

* `dirlookup_sat` — a lookup in a well-formed directory stops where `Finds` says.
-/

namespace Xv6Ext2

open Bytes CString Prog

variable {σ β : Type} [BlockLayer σ β]

/-! ### The source functions -/

/-- The loop of `dirlookup`, at offset `off`.  The array `file_name` is kept from
record to record. -/
def dirlookupLoop (dp : Fin NINODE) (name : ℕ → UInt8) :
    ℕ → (ℕ → UInt8) → UInt32 → FsM σ (Option (Fin NINODE × UInt32))
  | 0, _, _ => throw .fuel
  | fuel + 1, fileName, off => do
    let i ← getInode dp
    if off < i.size then do
      let r ← readi dp off (UInt32.ofNat ext2DirentSize)
      if r.1 ≠ ext2DirentSize then panic "dirlookup read"
      else do
        let de := Ext2Dirent.decode (cstr r.2) 0
        if de.inode = 0 then dirlookupLoop dp name fuel fileName (off + de.recLen.toUInt32)
        else if de.Matches name (de.fileName fileName) then do
          let ip ← iget i.dev de.inode
          return some (ip, off)
        else dirlookupLoop dp name fuel (de.fileName fileName) (off + de.recLen.toUInt32)
    else return none

/-- Look for a directory entry in a directory.  If found, return its inode and the
byte offset of the entry. -/
def dirlookup (fuel : ℕ) (dp : Fin NINODE) (name : ℕ → UInt8) :
    FsM σ (Option (Fin NINODE × UInt32)) := do
  let s ← get
  if (s.itable dp).type ≠ .dir then panic "dirlookup not DIR"
  else dirlookupLoop dp name fuel (cstr s.junk) 0

/-- `sizeof(struct dirent)` -/
abbrev direntSize : ℕ := 16

/-- The loop of `dirlink`: the offset of the first empty slot, or of the end. -/
def dirlinkLoop (dp : Fin NINODE) : ℕ → UInt32 → FsM σ UInt32
  | 0, _ => throw .fuel
  | fuel + 1, off => do
    let i ← getInode dp
    if off < i.size then do
      let r ← readi dp off (UInt32.ofNat direntSize)
      if r.1 ≠ direntSize then panic "dirlink read"
      else if le16 (cstr r.2) 0 = 0 then return off
      else dirlinkLoop dp fuel (off + UInt32.ofNat direntSize)
    else return off

/-- Write a new directory entry (name, inum) into the directory `dp`. -/
def dirlink (fuel : ℕ) (dp : Fin NINODE) (name : ℕ → UInt8) (inum : UInt32) : FsM σ ℤ := do
  match ← dirlookup fuel dp name with
  | some (ip, _) => do
    iput ip
    return -1
  | none => do
    let off ← dirlinkLoop dp fuel 0
    let n ← writei dp (kernelSrc (slotBytes name inum)) off (UInt32.ofNat direntSize)
    if n ≠ direntSize then return -1 else return 0

/-! ### Rounds -/

/-- A lookup that returns does so with every larger number of rounds. -/
theorem dirlookupLoop_mono {dp : Fin NINODE} {name : ℕ → UInt8}
    {r : Option (Fin NINODE × UInt32)} {t : Fs σ} :
    ∀ (fuel fuel' : ℕ) (s : Fs σ) (fileName : ℕ → UInt8) (off : UInt32), fuel ≤ fuel' →
      dirlookupLoop dp name fuel fileName off s = .ok (r, t) →
      dirlookupLoop dp name fuel' fileName off s = .ok (r, t) := by
  intro fuel
  induction fuel with
  | zero => intro fuel' s fileName off _ h; cases h
  | succ fuel ih =>
    intro fuel' s fileName off hle h
    obtain ⟨k, rfl⟩ := Nat.exists_eq_add_of_le' (Nat.lt_of_lt_of_le (Nat.succ_pos _) hle)
    have hk : fuel ≤ k := Nat.le_of_succ_le_succ hle
    rw [dirlookupLoop] at h ⊢
    rw [bind_of_ok (getInode_apply s dp)] at h ⊢
    split
    · next hlt =>
      rw [if_pos hlt] at h
      obtain ⟨b, u, hread, h⟩ := bind_eq_ok.mp h
      rw [bind_of_ok hread]
      split
      · next hne => rw [if_pos hne] at h; cases h
      · next hne =>
        rw [if_neg hne] at h
        dsimp only at h ⊢
        split
        · next h0 => rw [if_pos h0] at h; exact ih k u _ _ hk h
        · next h0 =>
          rw [if_neg h0] at h
          split
          · next hm => rw [if_pos hm] at h; exact h
          · next hm => rw [if_neg hm] at h; exact ih k u _ _ hk h
    · next hge => rw [if_neg hge] at h; exact h

theorem dirlookup_mono {dp : Fin NINODE} {name : ℕ → UInt8} {fuel fuel' : ℕ} {s t : Fs σ}
    {r : Option (Fin NINODE × UInt32)} (hle : fuel ≤ fuel')
    (h : dirlookup fuel dp name s = .ok (r, t)) : dirlookup fuel' dp name s = .ok (r, t) := by
  unfold dirlookup at h ⊢
  rw [bind_of_ok (get_apply s)] at h ⊢
  split
  · next hne => rw [if_pos hne] at h; cases h
  · next hne => rw [if_neg hne] at h; exact dirlookupLoop_mono fuel fuel' s _ _ hle h

/-! ### Lookups in a well-formed directory -/

section Store

variable {P : Finset (Fin NINODE)} {s : Fs Store} {dp : Fin NINODE} {name : ℕ → UInt8}

theorem cstr_take_drop {c : List UInt8} {off n i : ℕ} (hi : i < n) :
    cstr ((c.drop off).take n) i = cstr c (off + i) := by
  unfold cstr
  rw [List.getD_eq_getElem?_getD, List.getD_eq_getElem?_getD, List.getElem?_take, if_pos hi,
    List.getElem?_drop]

/-- The record that `readi` delivers is the one at its offset. -/
theorem decode_take_drop (c : List UInt8) (off : ℕ) :
    Ext2Dirent.decode (cstr ((c.drop off).take ext2DirentSize)) 0 = dirent c off := by
  unfold dirent Ext2Dirent.decode
  simp only [ext2DirentSize]
  congr 1
  · exact le32_congr fun k _ => by rw [Nat.zero_add, cstr_take_drop (by omega)]
  · exact le16_congr fun k _ => by rw [cstr_take_drop (by omega)]; congr 1; omega
  · exact cstr_take_drop (by omega)
  · funext i
    split
    · next hi =>
      simp only [EXT2_NAME_LEN] at hi
      rw [cstr_take_drop (by omega)]
      congr 1
      omega
    · rfl

/-- The offset of the next record does not wrap. -/
theorem toNat_add_recLen {off : UInt32} {n : UInt16}
    (h : Tiles (s.contents dp) (off.toNat + n.toNat)) :
    (off + n.toUInt32).toNat = off.toNat + n.toNat := by
  have hle := h.le
  rw [length_contents] at hle
  have := (s.itable dp).size.toNat_lt
  rw [UInt32.toNat_add, UInt16.toNat_toUInt32]
  omega

/-- Reading a structure of a file as a whole. -/
theorem readi_sat (h : Files P s) (hheld : s.blk.held = []) (hdp : dp ∈ P) (off n : UInt32) :
    Sat (readi dp off n) s fun r t => Files P t ∧ Grows P s t ∧ t.blk.held = [] ∧
      (r.1 = (n.toNat : ℤ) → r.2 = ((s.contents dp).drop off.toNat).take n.toNat) := by
  refine (readi_fills h hheld hdp off n).sat.mono fun r t hr => ?_
  obtain ⟨-, -, -, hfiles, hgrows, hheld', rfl⟩ := hr
  refine ⟨hfiles, hgrows, hheld', fun hn => ?_⟩
  unfold flatRead at *
  split
  · next hrej => rw [if_pos hrej] at hn; simp at hn
  · rfl

/-- **A lookup stops where `Finds` says.**  Until then only holes of the directory
have been filled. -/
theorem dirlookupLoop_sat (hdp : dp ∈ P) (hname : name 0 ≠ 0) :
    ∀ (fuel : ℕ) (s : Fs Store) (fileName : ℕ → UInt8) (off : UInt32), Files P s →
      s.blk.held = [] → Tiles (s.contents dp) off.toNat →
      Sat (dirlookupLoop dp name fuel fileName off) s fun r t =>
        ∃ u, Files P u ∧ Grows P s u ∧ u.blk.held = [] ∧
          ((r = none ∧ t = u) ∨ ∃ ip q, r = some (ip, q) ∧
            Finds (s.contents dp) name (Ext2Dirent.stands name fileName) off.toNat q.toNat ∧
            Xv6Ext2.iget (s.itable dp).dev (dirent (s.contents dp) q.toNat).inode u =
              .ok (ip, t)) := by
  intro fuel
  induction fuel with
  | zero => intro s fileName off _ _ _; exact Sat.throw
  | succ fuel ih =>
    intro s fileName off h hheld htiles
    rw [dirlookupLoop]
    refine Sat.of_eq (bind_of_ok (getInode_apply s dp)) ?_
    refine Sat.ite (fun hlt => ?_) fun _ =>
      Sat.pure ⟨s, h, Grows.refl, hheld, Or.inl ⟨rfl, rfl⟩⟩
    have hq : off.toNat < (s.contents dp).length := by
      rw [length_contents]
      exact UInt32.lt_iff_toNat_lt.mp hlt
    obtain ⟨-, -, hrest⟩ := htiles.of_lt hq
    refine (readi_sat h hheld hdp _ _).bind fun r t ht => ?_
    obtain ⟨htf, hgrows, hheld', hbytes⟩ := ht
    refine Sat.ite (fun _ => Sat.throw) fun hsize => ?_
    have hde : Ext2Dirent.decode (cstr r.2) 0 = dirent (s.contents dp) off.toNat := by
      rw [hbytes (not_not.mp hsize)]
      exact decode_take_drop _ _
    have hoff := toNat_add_recLen hrest
    have hcont : t.contents dp = s.contents dp := hgrows.contents hdp
    have hdev : (t.itable dp).dev = (s.itable dp).dev := by rw [hgrows.inode dp]
    dsimp only
    rw [hde]
    -- the record is unused, the one looked for, or another one
    refine Sat.ite (fun h0 => ?_) fun h0 => Sat.ite (fun hm => ?_) fun hm => ?_
    · refine (ih t fileName _ htf hheld' (by rw [hcont, hoff]; exact hrest)).mono ?_
      rintro r' t' ⟨u, huf, hu, huheld, hr⟩
      refine ⟨u, huf, hgrows.trans hu, huheld, hr.imp_right ?_⟩
      rintro ⟨ip, q, hsome, hfinds, higet⟩
      rw [hcont, hoff] at hfinds
      rw [hcont, hdev] at higet
      exact ⟨ip, q, hsome, .unused hq h0 hfinds, higet⟩
    · intro r' t' hrun
      obtain ⟨ip, t₁, higet, hret⟩ := bind_eq_ok.mp hrun
      cases hret
      refine ⟨t, htf, hgrows, hheld', Or.inr ⟨ip, off, rfl, .here hq h0 ?_, higet⟩⟩
      exact (Ext2Dirent.matches_iff hname).mp hm
    · refine (ih t _ _ htf hheld' (by rw [hcont, hoff]; exact hrest)).mono ?_
      rintro r' t' ⟨u, huf, hu, huheld, hr⟩
      refine ⟨u, huf, hgrows.trans hu, huheld, hr.imp_right ?_⟩
      rintro ⟨ip, q, hsome, hfinds, higet⟩
      rw [hcont, hoff, Ext2Dirent.stands_fileName] at hfinds
      rw [hcont, hdev] at higet
      refine ⟨ip, q, hsome, .other hq h0 ?_ hfinds, higet⟩
      exact Bool.eq_false_iff.mpr fun hh => hm ((Ext2Dirent.matches_iff hname).mpr hh)

/-- A lookup in a well-formed directory. -/
theorem dirlookup_sat (h : Files P s) (hheld : s.blk.held = []) (hdp : dp ∈ P)
    (hname : name 0 ≠ 0) (htiles : Tiles (s.contents dp) 0) (fuel : ℕ) :
    Sat (dirlookup fuel dp name) s fun r t =>
      ∃ u, Files P u ∧ Grows P s u ∧ u.blk.held = [] ∧
        ((r = none ∧ t = u) ∨ ∃ ip q, r = some (ip, q) ∧
          Finds (s.contents dp) name (Ext2Dirent.stands name (cstr s.junk)) 0 q.toNat ∧
          Xv6Ext2.iget (s.itable dp).dev (dirent (s.contents dp) q.toNat).inode u =
            .ok (ip, t)) := by
  unfold dirlookup
  refine Sat.of_eq (bind_of_ok (get_apply s)) ?_
  exact Sat.ite (fun _ => Sat.throw) fun _ =>
    dirlookupLoop_sat hdp hname fuel s _ 0 h hheld htiles

/-! ### What callers expect -/

/-- The names that can be added to a directory. -/
def IsName (l : List UInt8) : Prop :=
  1 ≤ l.length ∧ l.length ≤ DIRSIZ ∧ 0 ∉ l ∧ (47 : UInt8) ∉ l

instance (l : List UInt8) : Decidable (IsName l) :=
  inferInstanceAs (Decidable (_ ∧ _ ∧ _ ∧ _))

theorem IsName.ne_zero {l : List UInt8} (h : IsName l) : cstr l 0 ≠ 0 := by
  obtain ⟨hpos, -, h0, -⟩ := h
  cases l with
  | nil => simp at hpos
  | cons a l =>
    rintro rfl
    exact h0 List.mem_cons_self

/-- A lookup of the name returns the inode numbered `r`, or no entry. -/
def Resolves (s : Fs Store) (dp : Fin NINODE) (name : List UInt8) (r : Option UInt32) : Prop :=
  ∃ fuel x t, dirlookup fuel dp (cstr name) s = .ok (x, t) ∧
    x.map (fun e => (t.itable e.1).inum) = r

/-! ### A root directory -/

/-- The records of a fresh root directory: the directory itself, its parent, and
`lost+found` in the rest of the block. -/
def rootBytes : List UInt8 :=
  [2, 0, 0, 0, 12, 0, 1, 2, 46, 0, 0, 0,
   2, 0, 0, 0, 12, 0, 2, 2, 46, 46, 0, 0,
   11, 0, 0, 0, 232, 3, 10, 2, 108, 111, 115, 116, 43, 102, 111, 117, 110, 100]

/-- The image with the root directory, inode 2, in entry 0 of the inode table and its
records in block 10. -/
def rootImage : Fs Store :=
  (imageOf [(3, setUsed (setUsed (setUsed Block.zero 0) 2) 7),
    (10, bytesBlock rootBytes)]).setItable 0
    ⟨1, 2, 1, true, true, .dir, 0, 0, 3, 1024, fun r => if r = 0 then 10 else 0⟩

def directFiles_rootImage : Evaluated (DirectFiles [0] rootImage) :=
  ⟨by decide +kernel⟩

theorem files_rootImage : Files {0} rootImage :=
  directFiles_rootImage.holds.files

end Store

end Xv6Ext2
