import Xv6Ext2.Lookup
import Xv6Ext2.Sysfile

/-!
# Listing a directory

The lines that `print_root_files` and `print_cwd_files` print.  The name of a record is passed to
`printf` as a string, and in a directory it is not one: after the last byte of a name there is a
zero only where the record has room to spare.  The number goes through `%u`, which takes
an `int` and widens it with its sign.

## Main definitions

* `lineOf stack bytes` — the line printed for a `struct ext2_dirent`.
* `printLoop` — the loop of both functions, over what is printed for a record.
* `ListingOk` — the lines are those of the records in use, with their names and numbers.
* `PrintsWell` — the name of the record is followed by a zero and its number is small.

## Main results

* `printFilesLoop_eq` — the loop, seen as the records that it prints.
* `printLoop_eq` — the loop on a well-formed directory.
* `listingOk_iff` — **the listing is right exactly if all records are whole and print well.**
-/

namespace Xv6Ext2

open Bytes CString Prog

/-! ### Lines -/

/-- A line of the listing: the name and the number. -/
structure FileLine where
  name : List UInt8
  number : ℕ
  deriving DecidableEq

/-- The number that `%u` prints: `printint(va_arg(ap, int), 10, 0)` widens an `int` to 64 bits. -/
def printedNumber (x : UInt32) : ℕ :=
  if x.toNat < 2 ^ 31 then x.toNat else x.toNat + (2 ^ 64 - 2 ^ 32)

/-- `printf("%s | %u\n", de.name, de.inode)`.  The name is printed up to the first zero, in the
structure or in the bytes of the stack above it. -/
def lineOf (stack bytes : List UInt8) : FileLine where
  name := (bytes.drop 8 ++ stack).takeWhile (· ≠ 0)
  number := printedNumber (le32 (cstr bytes) 0)

section Source

variable {σ β α : Type} [BlockLayer σ β]

/-- The loop of `print_root_files` and `print_cwd_files`; `emit` is what is printed for the bytes
of a record. -/
def printLoop (emit : List UInt8 → α) (dp : Fin NINODE) : ℕ → UInt32 → FsM σ (List α)
  | 0, _ => throw .fuel
  | fuel + 1, off => do
    let i ← getInode dp
    if off < i.size then do
      let r ← readi dp off (UInt32.ofNat ext2DirentSize)
      if r.1 ≠ ext2DirentSize then panic "dirlookup read"
      else do
        let de := Ext2Dirent.decode (cstr r.2) 0
        let rest ← printLoop emit dp fuel (off + de.recLen.toUInt32)
        if de.inode = 0 then return rest else return emit r.2 :: rest
    else return []

end Source

/-- A string of `n` bytes: none of them is zero, and the next one is. -/
theorem takeWhile_ne_zero_eq_take_iff : ∀ (l : List UInt8) (n : ℕ), n ≤ l.length →
    (l.takeWhile (· ≠ 0) = l.take n ↔ (∀ i < n, cstr l i ≠ 0) ∧ cstr l n = 0) := by
  intro l
  induction l with
  | nil =>
    intro n hn
    obtain rfl : n = 0 := by simpa using hn
    simp [cstr]
  | cons a l ih =>
    intro n hn
    rcases n with _ | n
    · by_cases ha : a = 0 <;> simp [cstr, ha]
    · rw [List.length_cons] at hn
      have hrest := ih n (by omega)
      by_cases ha : a = 0
      · simp [ha]
        intro h
        exact absurd rfl (h 0 (by omega))
      · rw [List.takeWhile_cons_of_pos (by simpa using ha), List.take_succ_cons,
          List.cons_inj_right, hrest]
        refine and_congr ⟨fun h i hi => ?_, fun h i hi => h (i + 1) (by omega)⟩ Iff.rfl
        rcases i with _ | i
        · exact ha
        · exact h i (by omega)

theorem printedNumber_eq_iff {x : UInt32} : printedNumber x = x.toNat ↔ x.toNat < 2 ^ 31 := by
  unfold printedNumber
  split <;> omega

/-! ### The loop on a well-formed directory -/

/-- The record at `q` prints well: its name has no zero, a zero follows it, and its number is not
negative as an `int`. -/
def PrintsWell (c : List UInt8) (q : ℕ) : Prop :=
  (∀ i < (dirent c q).nameLen.toNat, cstr c (q + 8 + i) ≠ 0) ∧
    cstr c (q + 8 + (dirent c q).nameLen.toNat) = 0 ∧ (dirent c q).inode.toNat < 2 ^ 31

instance (c : List UInt8) (q : ℕ) : Decidable (PrintsWell c q) :=
  @instDecidableAnd _ _ (Nat.decidableBallLT _ _) inferInstance

/-- The line for the record at `q`: the `name_len` bytes of its name, and its number. -/
def recordLine (c : List UInt8) (q : ℕ) : FileLine where
  name := (c.drop (q + 8)).take (dirent c q).nameLen.toNat
  number := (dirent c q).inode.toNat

/-- The line printed for a record is its line exactly if it prints well. -/
theorem lineOf_eq_iff {c : List UInt8} {q : ℕ} (hq : q + ext2DirentSize ≤ c.length)
    (stack : List UInt8) :
    lineOf stack ((c.drop q).take ext2DirentSize) = recordLine c q ↔ PrintsWell c q := by
  have hlen := (dirent c q).nameLen.toNat_lt
  generalize hn : (dirent c q).nameLen.toNat = n at hlen
  -- the bytes from the name on: 255 of the name and one of padding
  have hdrop : ((c.drop q).take ext2DirentSize).drop 8 = (c.drop (q + 8)).take 256 := by
    rw [List.drop_take, List.drop_drop]
    rfl
  generalize hb : (c.drop (q + 8)).take 256 = b at hdrop
  have hblen : b.length = 256 := by
    rw [← hb, List.length_take, List.length_drop]
    simp only [ext2DirentSize] at hq
    omega
  have hbyte : ∀ i < 256, cstr (b ++ stack) i = cstr c (q + 8 + i) := fun i hi => by
    rw [cstr, List.getD_eq_getElem?_getD, List.getElem?_append_left (by omega), ← hb,
      ← List.getD_eq_getElem?_getD]
    exact cstr_take_drop hi
  have hname : (b ++ stack).take n = (c.drop (q + 8)).take n := by
    rw [List.take_append_of_le_length (by omega), ← hb, List.take_take, Nat.min_eq_left (by omega)]
  have hnum : le32 (cstr ((c.drop q).take ext2DirentSize)) 0 = (dirent c q).inode :=
    congrArg Ext2Dirent.inode (decode_take_drop c q)
  unfold lineOf recordLine PrintsWell
  rw [FileLine.mk.injEq, hdrop, hn, ← hname, hnum, printedNumber_eq_iff,
    takeWhile_ne_zero_eq_take_iff _ n (by rw [List.length_append]; omega), hbyte n (by omega),
    and_assoc]
  exact and_congr_left fun _ =>
    forall_congr' fun i => imp_congr_right fun hi => by rw [hbyte i (by omega)]

section Store

variable {P : Finset (Fin NINODE)} {s : Fs Store} {dp : Fin NINODE} {α : Type}

/-- The records of `l` that are in use. -/
def entries (c : List UInt8) (l : List ℕ) : List ℕ := l.filter fun q => (dirent c q).inode ≠ 0

theorem entries_cons (c : List UInt8) (q : ℕ) (l : List ℕ) :
    entries c (q :: l) = if (dirent c q).inode = 0 then entries c l else q :: entries c l := by
  unfold entries
  rw [List.filter_cons]
  by_cases h0 : (dirent c q).inode = 0 <;> simp [h0]

/-- How the listing of the records `l` ends. -/
def listEnd (s : Fs Store) (dp : Fin NINODE) (emit : List UInt8 → α) (l : List ℕ) :
    Except Err (List α × Fs Store) :=
  if (l.all fun q => q + ext2DirentSize ≤ (s.contents dp).length) = true then
    .ok ((entries (s.contents dp) l).map fun q =>
      emit (((s.contents dp).drop q).take ext2DirentSize), s)
  else .error (.panic "dirlookup read")

/-- **The loop on a well-formed directory** has rounds left to do, or has printed the records in
use, or has come to one that is not whole. -/
theorem printLoop_eq (hw : WellFormed (s.contents dp)) (h : Files P s) (hheld : s.blk.held = [])
    (hdp : dp ∈ P) (emit : List UInt8 → α) {q : ℕ} {l : List ℕ}
    (hwalk : Walk (s.contents dp) q l) : ∀ (fuel : ℕ) (off : UInt32), off.toNat = q →
      (printLoop emit dp fuel off s = .error .fuel ∧ fuel ≤ l.length) ∨
        printLoop emit dp fuel off s = listEnd s dp emit l := by
  induction hwalk with
  | done =>
    intro fuel off hoff
    rcases fuel with _ | fuel
    · exact Or.inl ⟨rfl, Nat.zero_le _⟩
    refine Or.inr ?_
    rw [printLoop, bind_of_ok (getInode_apply s dp), if_neg]
    · rfl
    · rw [UInt32.lt_iff_toNat_lt, hoff, length_contents]
      exact Nat.lt_irrefl _
  | @record q l hq hroom _ hrest ih =>
    intro fuel off hoff
    rcases fuel with _ | fuel
    · exact Or.inl ⟨rfl, Nat.zero_le _⟩
    subst hoff
    have hlt : off < (s.itable dp).size := by
      rw [length_contents] at hq
      exact UInt32.lt_iff_toNat_lt.mpr hq
    obtain ⟨r, hread, hall, hbytes⟩ :=
      hw.filled.readi_struct h hheld hdp (n := ext2DirentSize) (by decide) hq
    rw [printLoop, bind_of_ok (getInode_apply s dp), if_pos hlt, bind_of_ok hread]
    by_cases hfits : off.toNat + ext2DirentSize ≤ (s.contents dp).length
    · rw [if_neg (not_not.mpr (hall.mpr hfits)), hbytes hfits, decode_take_drop]
      rcases ih fuel _ hrest.toNat_add_recLen with ⟨herr, hfuel⟩ | hend
      · exact Or.inl ⟨bind_of_error herr, Nat.succ_le_succ hfuel⟩
      refine Or.inr ?_
      unfold listEnd at hend ⊢
      rw [List.all_cons, decide_eq_true hfits, Bool.true_and]
      by_cases hwhole : (l.all fun q => q + ext2DirentSize ≤ (s.contents dp).length) = true
      · rw [if_pos hwhole] at hend ⊢
        rw [bind_of_ok hend, entries_cons]
        split <;> rfl
      · rw [if_neg hwhole] at hend ⊢
        exact bind_of_error hend
    · refine Or.inr ?_
      rw [if_pos fun hr => hfits (hall.mp hr), listEnd, List.all_cons, decide_eq_false hfits,
        Bool.false_and, if_neg (by decide)]
      rfl

/-- The listing prints the name and the number of each record in use, in order, and nothing
else. -/
def ListingOk (s : Fs Store) (dp : Fin NINODE) (stack : List UInt8) : Prop :=
  ∃ fuel t, printLoop (lineOf stack) dp fuel 0 s =
    .ok ((entries (s.contents dp) (records (s.contents dp))).map (recordLine (s.contents dp)), t)

/-- **The listing is right exactly if all records are whole and print well**, whatever the stack
holds. -/
theorem listingOk_iff (hw : WellFormed (s.contents dp)) (h : Files P s) (hheld : s.blk.held = [])
    (hdp : dp ∈ P) (stack : List UInt8) :
    ListingOk s dp stack ↔ ∀ q ∈ records (s.contents dp),
      q + ext2DirentSize ≤ (s.contents dp).length ∧
        ((dirent (s.contents dp) q).inode ≠ 0 → PrintsWell (s.contents dp) q) := by
  have hloop := fun fuel => printLoop_eq hw h hheld hdp (lineOf stack) hw.walk fuel 0 rfl
  unfold listEnd at hloop
  have hmem : ∀ q, q ∈ entries (s.contents dp) (records (s.contents dp)) ↔
      q ∈ records (s.contents dp) ∧ (dirent (s.contents dp) q).inode ≠ 0 := fun q => by
    rw [entries, List.mem_filter, decide_eq_true_eq]
  constructor
  · rintro ⟨fuel, t, hrun⟩
    rcases hloop fuel with ⟨herr, -⟩ | hend
    · rw [herr] at hrun
      cases hrun
    rw [hrun] at hend
    split at hend
    · next hwhole =>
      rw [List.all_eq_true] at hwhole
      have hlines := congrArg Prod.fst (Except.ok.inj hend)
      rw [List.map_inj_left] at hlines
      intro q hq
      have hfits := of_decide_eq_true (hwhole q hq)
      refine ⟨hfits, fun h0 => (lineOf_eq_iff hfits stack).mp ?_⟩
      exact (hlines q ((hmem q).mpr ⟨hq, h0⟩)).symm
    · cases hend
  · intro hgood
    rcases hloop ((records (s.contents dp)).length + 1) with ⟨-, hfuel⟩ | hend
    · omega
    rw [if_pos (List.all_eq_true.mpr fun q hq => decide_eq_true (hgood q hq).1)] at hend
    refine ⟨_, s, hend.trans ?_⟩
    rw [List.map_congr_left fun q hq => ?_]
    obtain ⟨hq, h0⟩ := (hmem q).mp hq
    exact (lineOf_eq_iff (hgood q hq).1 stack).mpr ((hgood q hq).2 h0)

/-- A fresh root directory is listed as it is. -/
theorem listingOk_rootImage : ListingOk rootImage 0 [] := by
  refine (listingOk_iff rootDirectory.wellFormed rootDirectory.files rfl
    (Finset.mem_singleton_self 0) []).mpr ?_
  exact @of_decide_eq_true _ (List.decidableBAll _ _) (by decide +kernel)

/-- A root directory with the files `abcd` and `e`, whose records follow each other. -/
def packedImage : Fs Store :=
  (imageOf [(3, setUsed (setUsed (setUsed Block.zero 0) 2) 7),
    (10, bytesBlock [2, 0, 0, 0, 12, 0, 1, 2, 46, 0, 0, 0,
      2, 0, 0, 0, 12, 0, 2, 2, 46, 46, 0, 0,
      12, 0, 0, 0, 12, 0, 4, 1, 97, 98, 99, 100,
      13, 0, 0, 0, 220, 3, 1, 1, 101])]).setItable 0
    ⟨1, 2, 1, true, true, .dir, 0, 0, 3, 1024, fun r => if r = 0 then 10 else 0⟩

/-- The directory of `packedImage`. -/
def packedDirectory : Directory packedImage where
  count := 5
  direct := by decide +kernel
  tiles := by decide +kernel
  block := by decide +kernel
  whole := by decide

/-- **A name that is printed with a byte too many**: the number of the next record follows
`abcd` at once. -/
theorem listing_prints_header :
    (∃ t, printLoop (lineOf []) 0 5 0 packedImage = .ok
      ([⟨[46], 2⟩, ⟨[46, 46], 2⟩, ⟨[97, 98, 99, 100, 13], 12⟩, ⟨[101], 13⟩], t)) ∧
      ¬ListingOk packedImage 0 [] := by
  have hend : (listEnd packedImage 0 (lineOf []) (records (packedImage.contents 0))).map Prod.fst =
      .ok [⟨[46], 2⟩, ⟨[46, 46], 2⟩, ⟨[97, 98, 99, 100, 13], 12⟩, ⟨[101], 13⟩] := by decide +kernel
  have hwant : (entries (packedImage.contents 0) (records (packedImage.contents 0))).map
      (recordLine (packedImage.contents 0)) =
      [⟨[46], 2⟩, ⟨[46, 46], 2⟩, ⟨[97, 98, 99, 100], 12⟩, ⟨[101], 13⟩] := by decide +kernel
  refine ⟨exists_of_map_fst (by decide +kernel), ?_⟩
  rintro ⟨fuel, t, hrun⟩
  rcases printLoop_eq packedDirectory.wellFormed packedDirectory.files rfl
    (Finset.mem_singleton_self 0) (lineOf []) packedDirectory.wellFormed.walk fuel 0 rfl with
    ⟨herr, -⟩ | hloop
  · rw [herr] at hrun
    cases hrun
  · rw [← hloop, hrun, hwant] at hend
    have hsame := Except.ok.inj hend
    dsimp only at hsame
    exact absurd hsame (by decide)

end Store

end Xv6Ext2
