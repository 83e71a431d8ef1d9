import Xv6Ext2.Dir
import Xv6Ext2.ReadWrite

/-!
# The records of a well-formed directory

A directory of ext2 is a sequence of records that fill each of its blocks.  So every block
starts with a record, which is never all zeros, and the file has no holes.  Reading
such a directory changes nothing, and what the loops of the kernel do with it is a matter of
its bytes.

## Main definitions

* `records c` — the offsets of the records.
* `WellFormed c` — **the directories of ext2**: records with room for their names, of lengths that
  are multiples of four, that fill the blocks one by one.
* `Walk c q l` — the records from `q` on are those at the offsets `l`.

## Main results

* `WellFormed.walk` — the records of a well-formed directory, as a walk.
* `WellFormed.filled`, `Filled.readi` — **reading a well-formed directory changes nothing.**
-/

namespace Xv6Ext2

open Bytes CString

/-! ### Walks -/

/-- The offsets of the records from `q` on, up to `n` of them. -/
def recordsFrom (c : List UInt8) : ℕ → ℕ → List ℕ
  | 0, _ => []
  | n + 1, q =>
    if q < c.length then q :: recordsFrom c n (q + (dirent c q).recLen.toNat) else []

/-- The offsets of the records of a directory. -/
def records (c : List UInt8) : List ℕ := recordsFrom c c.length 0

/-- The records from `q` on are those at the offsets `l`. -/
inductive Walk (c : List UInt8) : ℕ → List ℕ → Prop
  | done : Walk c c.length []
  | record {q : ℕ} {l : List ℕ} : q < c.length →
      8 + (dirent c q).nameLen.toNat ≤ (dirent c q).recLen.toNat →
      (dirent c q).recLen.toNat % 4 = 0 → Walk c (q + (dirent c q).recLen.toNat) l →
      Walk c q (q :: l)

section Walk

variable {c : List UInt8} {q : ℕ} {l : List ℕ}

theorem Tiles.walk (h : Tiles c q) : ∃ l, Walk c q l := by
  induction h with
  | done => exact ⟨[], .done⟩
  | record hq hroom hmod _ ih =>
    obtain ⟨l, hl⟩ := ih
    exact ⟨_, .record hq hroom hmod hl⟩

/-- Every record has at least 8 bytes, so there are enough rounds. -/
theorem Walk.eq_recordsFrom (h : Walk c q l) : ∀ n, c.length ≤ q + n → recordsFrom c n q = l := by
  induction h with
  | done =>
    intro n _
    cases n with
    | zero => rfl
    | succ n => rw [recordsFrom, if_neg (Nat.lt_irrefl _)]
  | record hq hroom _ _ ih =>
    intro n hn
    cases n with
    | zero => omega
    | succ n => rw [recordsFrom, if_pos hq, ih n (by omega)]

theorem Walk.length_le (h : Walk c q l) : l.length + q ≤ c.length := by
  induction h with
  | done => simp
  | record _ hroom _ _ ih =>
    rw [List.length_cons]
    omega

theorem Walk.le (h : Walk c q l) : ∀ r ∈ l, q ≤ r := by
  induction h with
  | done => intro r hr; cases hr
  | record _ _ _ _ ih =>
    intro r hr
    rcases List.mem_cons.mp hr with rfl | hr
    · exact le_rfl
    · exact le_trans (Nat.le_add_right _ _) (ih r hr)

/-- What holds at an offset of a walk. -/
theorem Walk.of_mem (h : Walk c q l) : ∀ r ∈ l, r < c.length ∧
    8 + (dirent c r).nameLen.toNat ≤ (dirent c r).recLen.toNat := by
  induction h with
  | done => intro r hr; cases hr
  | record hq hroom _ _ ih =>
    intro r hr
    rcases List.mem_cons.mp hr with rfl | hr
    · exact ⟨hq, hroom⟩
    · exact ih r hr

theorem Tiles.walk_records (h : Tiles c 0) : Walk c 0 (records c) := by
  obtain ⟨l, hl⟩ := h.walk
  rwa [records, hl.eq_recordsFrom c.length (by omega)]

/-- If no record crosses a block boundary, there is a record at each of them. -/
theorem Walk.mem_of_boundary (h : Walk c q l)
    (hblk : ∀ r ∈ l, r % BSIZE + (dirent c r).recLen.toNat ≤ BSIZE) {p : ℕ} (hp : p % BSIZE = 0)
    (hq : q ≤ p) (hlt : p < c.length) : p ∈ l := by
  induction h with
  | done => omega
  | @record q l _ hroom _ _ ih =>
    have hfit := hblk q List.mem_cons_self
    rcases Nat.eq_or_lt_of_le hq with rfl | hq
    · exact List.mem_cons_self
    · refine List.mem_cons_of_mem _ (ih (fun r hr => hblk r (List.mem_cons_of_mem _ hr)) ?_)
      simp only [BSIZE] at *
      omega

end Walk

/-- **A directory of ext2**: a sequence of records with room for their names, of lengths that
are multiples of four, that fill each block. -/
structure WellFormed (c : List UInt8) : Prop where
  tiles : Tiles c 0
  block : ∀ q ∈ records c, q % BSIZE + (dirent c q).recLen.toNat ≤ BSIZE
  whole : c.length % BSIZE = 0

namespace WellFormed

variable {c : List UInt8}

theorem walk (h : WellFormed c) : Walk c 0 (records c) := h.tiles.walk_records

/-- A well-formed directory has a byte that is not zero in each of its blocks. -/
theorem exists_byte (h : WellFormed c) {o : ℕ} (ho : o < c.length) :
    ∃ p < c.length, p / BSIZE = o / BSIZE ∧ cstr c p ≠ 0 := by
  have hwhole := h.whole
  have hmem := h.walk.mem_of_boundary h.block (p := o / BSIZE * BSIZE)
    (by simp only [BSIZE]; omega) (Nat.zero_le _) (by simp only [BSIZE]; omega)
  obtain ⟨-, hroom⟩ := h.walk.of_mem _ hmem
  generalize hq : o / BSIZE * BSIZE = q at hroom
  by_contra hzero
  push Not at hzero
  -- otherwise the length of the first record of the block would be zero
  have hbyte : ∀ k < 8, cstr c (q + k) = 0 := fun k hk =>
    hzero (q + k) (by simp only [BSIZE] at *; omega) (by simp only [BSIZE] at *; omega)
  have hrec : (dirent c q).recLen = 0 := by
    show le16 (cstr c) (q + 4) = 0
    rw [le16, hbyte 4 (by omega), show q + 4 + 1 = q + 5 by omega, hbyte 5 (by omega)]
    rfl
  rw [hrec] at hroom
  simp at hroom

end WellFormed

/-! ### Reading a well-formed directory -/

section Store

variable {P : Finset (Fin NINODE)} {s : Fs Store} {dp : Fin NINODE}

/-- Above a place that is there all places are. -/
theorem node_ne_zero_of_append {q : Fin NINODE × Fin 15} : ∀ (js l : List (Fin NINDIRECT)),
    s.node (q, l ++ js) ≠ 0 → s.node (q, l) ≠ 0 ∧ ∀ κ ∈ tailKeys q l js, s.node κ ≠ 0 := by
  intro js
  induction js with
  | nil =>
    intro l h
    rw [List.append_nil] at h
    exact ⟨h, fun κ hκ => absurd hκ (Finset.notMem_empty κ)⟩
  | cons j js ih =>
    intro l h
    obtain ⟨hj, hrest⟩ := ih (l ++ [j]) (by rwa [List.append_assoc])
    refine ⟨Forest.node_ne_null_of_snoc hj, fun κ hκ => ?_⟩
    rw [tailKeys, Finset.mem_union, Finset.mem_singleton] at hκ
    rcases hκ with rfl | hκ
    · exact hj
    · exact hrest κ hκ

theorem pathKeys_there {bn : ℕ} (h : s.node (dataKey dp bn) ≠ 0) :
    ∀ κ ∈ pathKeys dp bn, s.node κ ≠ 0 := by
  intro κ hκ
  obtain ⟨hroot, htail⟩ := node_ne_zero_of_append (s := s) (blockPath bn).2 [] h
  rw [pathKeys, Finset.mem_union, Finset.mem_singleton] at hκ
  rcases hκ with rfl | hκ
  · exact hroot
  · exact htail κ hκ

theorem cstr_contents {o : ℕ} (ho : o < (s.contents dp).length) :
    cstr (s.contents dp) o = s.fileByte dp o := by
  rw [length_contents] at ho
  rw [cstr, List.getD_eq_getElem?_getD, getElem?_contents, if_pos ho]
  rfl

/-- The offset of the next record of a walk does not wrap. -/
theorem Walk.toNat_add_recLen {off : UInt32} {n : UInt16} {l : List ℕ}
    (h : Walk (s.contents dp) (off.toNat + n.toNat) l) :
    (off + n.toUInt32).toNat = off.toNat + n.toNat := by
  have hle := h.length_le
  rw [length_contents] at hle
  have := (s.itable dp).size.toNat_lt
  rw [UInt32.toNat_add, UInt16.toNat_toUInt32]
  omega

/-- A directory without holes. -/
def Filled (s : Fs Store) (dp : Fin NINODE) : Prop :=
  ∀ x < (s.contents dp).length, s.node (dataKey dp (x / BSIZE)) ≠ 0

/-- A well-formed directory has no holes. -/
theorem WellFormed.filled (h : WellFormed (s.contents dp)) : Filled s dp := by
  intro x hx hzero
  obtain ⟨p, hp, hsame, hne⟩ := h.exists_byte hx
  refine hne ?_
  rw [cstr_contents hp, Fs.fileByte, hsame, Fs.leafBlock, if_pos hzero, Block.byte_zero]

namespace Filled

/-- **Reading a directory without holes changes nothing.** -/
theorem readi (hf : Filled s dp) (h : Files P s) (hheld : s.blk.held = []) (hdp : dp ∈ P)
    (off n : UInt32) : Xv6Ext2.readi dp off n s = .ok (flatRead (s.contents dp) off n, s) := by
  have hthere : ∀ κ ∈ readTouched (s.contents dp) dp off n, s.node κ ≠ 0 := by
    unfold readTouched
    split
    · exact fun κ hκ => absurd hκ (Finset.notMem_empty κ)
    · intro κ hκ
      obtain ⟨x, hx, hκ⟩ := Finset.mem_biUnion.mp hκ
      rw [Finset.mem_range] at hx
      exact pathKeys_there (hf _ (by omega)) κ hκ
  obtain ⟨r, hrun⟩ := readi_there h hheld hdp hthere
  obtain ⟨-, -, -, -, -, -, rfl⟩ := (readi_fills h hheld hdp off n).sat r s hrun
  exact hrun

/-- Reading a structure of `n` bytes: all of it, or less than `n` bytes. -/
theorem readi_struct (hf : Filled s dp) (h : Files P s) (hheld : s.blk.held = []) (hdp : dp ∈ P)
    {off : UInt32} {n : ℕ} (hn : n < 2 ^ 32) (hoff : off.toNat < (s.contents dp).length) :
    ∃ r, Xv6Ext2.readi dp off (UInt32.ofNat n) s = .ok (r, s) ∧
      (r.1 = n ↔ off.toNat + n ≤ (s.contents dp).length) ∧
      (off.toNat + n ≤ (s.contents dp).length →
        r.2 = ((s.contents dp).drop off.toNat).take n) := by
  have hsize := (s.itable dp).size.toNat_lt
  rw [length_contents] at hoff ⊢
  have hofNat : (UInt32.ofNat n).toNat = n := UInt32.toNat_ofNat_of_lt' hn
  refine ⟨_, hf.readi h hheld hdp off _, ?_⟩
  rw [flatRead, hofNat, length_contents]
  split
  · exact ⟨by dsimp only; omega, by omega⟩
  · exact ⟨by dsimp only; omega, fun _ => rfl⟩

end Filled

end Store

end Xv6Ext2
