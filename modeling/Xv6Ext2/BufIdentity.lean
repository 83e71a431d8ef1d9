import Xv6Ext2.Bio

/-!
# Buffers and the blocks they hold

Any number of processes read, release, pin and unpin buffers.  `bget` and `brelse` let go
of the cache while they wait for a buffer or hand it over, so each has a part that runs
with the cache locked, and these parts come in any order.  At boot all buffers carry the
block 0 of the device 0, which no one asks for.

## Main definitions

* `Bcache.bgetLookup`, `Bcache.brelseDrop` — the parts of `bget` and `brelse` that run with
  the cache locked.
* `Bcache.bpin`, `Bcache.bunpin` — the source functions.
* `BufStep`, `BufRuns` — runs with a list of the references that are outstanding.
* `Bcache.Whole c H` — the list of buffers, their blocks and their counts.

## Main results

* `Bcache.bread_split`, `Bcache.brelse_split` — the functions consist of these parts and
  of work that does not touch the list.
* `Bcache.Whole.step` — what each step keeps.
* `buffer_identity_of_runs` — list, blocks and counts in every run.
-/

namespace Xv6Ext2

open LinkedRing

namespace Bcache

/-! ### What runs with the cache locked -/

/-- `bget` up to its call of `acquiresleep`. -/
def bgetLookup (c : Bcache) (dev blockno : UInt32) : Except Err (Fin NBUF × Bcache) :=
  match scan c.links.next (fun i => (c.buf i).dev = dev ∧ (c.buf i).blockno = blockno)
      (NBUF + 1) (c.links.next none) with
  | none => .error .fuel
  | some (some i) => .ok (i, c.setBuf i fun b => { b with refcnt := b.refcnt + 1 })
  | some none =>
    match scan c.links.prev (fun i => (c.buf i).refcnt = 0) (NBUF + 1) (c.links.prev none) with
    | none => .error .fuel
    | some none => .error (.panic "bget: no buffers")
    | some (some i) => .ok (i, c.setBuf i fun b =>
        { b with dev := dev, blockno := blockno, valid := false, refcnt := 1 })

/-- `brelse` after its call of `releasesleep`. -/
def brelseDrop (c : Bcache) (i : Fin NBUF) : Bcache :=
  let c := c.setBuf i fun b => { b with refcnt := b.refcnt - 1 }
  if (c.buf i).refcnt = 0 then { c with links := (c.links.unlink i).pushFront i } else c

/-- Keep a buffer in the cache. -/
def bpin (c : Bcache) (i : Fin NBUF) : Bcache :=
  c.setBuf i fun b => { b with refcnt := b.refcnt + 1 }

/-- Undo a `bpin`. -/
def bunpin (c : Bcache) (i : Fin NBUF) : Bcache :=
  c.setBuf i fun b => { b with refcnt := b.refcnt - 1 }

/-- The list, the counts and the blocks are as they were.  Sleep locks, contents and the
disk may have changed. -/
structure SameList (c c' : Bcache) : Prop where
  links : c'.links = c.links
  refcnt : ∀ i, (c'.buf i).refcnt = (c.buf i).refcnt
  dev : ∀ i, (c'.buf i).dev = (c.buf i).dev
  blockno : ∀ i, (c'.buf i).blockno = (c.buf i).blockno

variable {c c' c₁ : Bcache} {i : Fin NBUF} {dev b : UInt32} {H H' : List (Fin NBUF)}

/-- Changes of other fields of a buffer. -/
theorem sameList_setBuf {f : Buf → Buf} (href : ∀ x, (f x).refcnt = x.refcnt)
    (hdev : ∀ x, (f x).dev = x.dev) (hno : ∀ x, (f x).blockno = x.blockno) :
    SameList c (c.setBuf i f) := by
  have hbuf : ∀ j, ((c.setBuf i f).buf j).refcnt = (c.buf j).refcnt ∧
      ((c.setBuf i f).buf j).dev = (c.buf j).dev ∧
      ((c.setBuf i f).buf j).blockno = (c.buf j).blockno := by
    intro j
    by_cases hj : j = i
    · subst hj
      simp [setBuf, href, hdev, hno]
    · simp [setBuf, hj]
  exact ⟨rfl, fun j => (hbuf j).1, fun j => (hbuf j).2.1, fun j => (hbuf j).2.2⟩

theorem SameList.trans (h : SameList c c₁) (h' : SameList c₁ c') : SameList c c' :=
  ⟨h'.links.trans h.links, fun i => (h'.refcnt i).trans (h.refcnt i),
    fun i => (h'.dev i).trans (h.dev i), fun i => (h'.blockno i).trans (h.blockno i)⟩

theorem bget_eq : c.bget dev b = (do
    let (i, c) ← c.bgetLookup dev b
    let c ← c.acquiresleep i
    return (i, c)) := by
  unfold bget bgetLookup
  rcases scan c.links.next (fun i => (c.buf i).dev = dev ∧ (c.buf i).blockno = b) (NBUF + 1)
    (c.links.next none) with _ | _ | i
  · rfl
  · rcases scan c.links.prev (fun i => (c.buf i).refcnt = 0) (NBUF + 1) (c.links.prev none)
      with _ | _ | i <;> rfl
  · rfl

/-- **`bread` looks the block up**, and then only waits for the buffer and fills it. -/
theorem bread_split (hrun : c.bread dev b = .ok (i, c')) :
    ∃ c₁, c.bgetLookup dev b = .ok (i, c₁) ∧ SameList c₁ c' := by
  unfold bread at hrun
  rw [bget_eq] at hrun
  cases hl : c.bgetLookup dev b with
  | error e => rw [hl] at hrun; cases hrun
  | ok r =>
    obtain ⟨k, c₁⟩ := r
    rw [hl] at hrun
    cases ha : c₁.acquiresleep k with
    | error e =>
      simp only [bind, Except.bind, ha] at hrun
      cases hrun
    | ok c₂ =>
      simp only [bind, Except.bind, ha, pure, Except.pure] at hrun
      obtain ⟨-, rfl⟩ := acquiresleep_ok ha
      have hlock : SameList c₁ (c₁.setBuf k fun b => { b with locked := true }) :=
        sameList_setBuf (fun _ => rfl) (fun _ => rfl) fun _ => rfl
      split at hrun
      · cases hrun
        exact ⟨c₁, rfl, hlock⟩
      · cases hrun
        have hread : ∀ c₂ : Bcache, SameList c₂ (c₂.diskRead i) := fun _ =>
          sameList_setBuf (fun _ => rfl) (fun _ => rfl) fun _ => rfl
        exact ⟨c₁, rfl, hlock.trans ((hread _).trans
          (sameList_setBuf (fun _ => rfl) (fun _ => rfl) fun _ => rfl))⟩

/-- `brelse` hands the buffer over and then drops the reference. -/
theorem brelse_split (hrun : c.brelse i = .ok c') :
    ∃ c₁, SameList c c₁ ∧ c' = c₁.brelseDrop i := by
  refine ⟨c.setBuf i fun b => { b with locked := false },
    sameList_setBuf (fun _ => rfl) (fun _ => rfl) fun _ => rfl, ?_⟩
  unfold brelse at hrun
  split at hrun
  · have hset : (c.setBuf i fun b => { b with locked := false, refcnt := b.refcnt - 1 }) =
        (c.setBuf i fun b => { b with locked := false }).setBuf i
          fun b => { b with refcnt := b.refcnt - 1 } := by
      simp [setBuf]
    simp only [hset] at hrun
    unfold brelseDrop
    split at hrun
    · next h0 =>
      cases hrun
      exact (if_pos h0).symm
    · next h0 =>
      cases hrun
      exact (if_neg h0).symm
  · cases hrun

end Bcache

/-! ### Runs -/

open Bcache

/-- What can happen to the cache and to the outstanding references, where the cache is
not locked in between. -/
inductive BufStep : Bcache → List (Fin NBUF) → Bcache → List (Fin NBUF) → Prop
  | bget {c c' : Bcache} {H : List (Fin NBUF)} {dev b : UInt32} {i : Fin NBUF} (hdev : dev ≠ 0)
      (hrun : c.bgetLookup dev b = .ok (i, c')) : BufStep c H c' (i :: H)
  | bread {c c' : Bcache} {H : List (Fin NBUF)} {dev b : UInt32} {i : Fin NBUF} (hdev : dev ≠ 0)
      (hrun : c.bread dev b = .ok (i, c')) : BufStep c H c' (i :: H)
  | brelseDrop {c : Bcache} {H : List (Fin NBUF)} {i : Fin NBUF} (hmem : i ∈ H) :
      BufStep c H (c.brelseDrop i) (H.erase i)
  | brelse {c c' : Bcache} {H : List (Fin NBUF)} {i : Fin NBUF} (hmem : i ∈ H)
      (hrun : c.brelse i = .ok c') : BufStep c H c' (H.erase i)
  | bpin {c : Bcache} {H : List (Fin NBUF)} {i : Fin NBUF} (hmem : i ∈ H) :
      BufStep c H (c.bpin i) (i :: H)
  | bunpin {c : Bcache} {H : List (Fin NBUF)} {i : Fin NBUF} (hmem : i ∈ H) :
      BufStep c H (c.bunpin i) (H.erase i)
  /-- Sleep locks are taken and given up, and buffers are read, changed and written. -/
  | other {c c' : Bcache} {H : List (Fin NBUF)} (hsame : SameList c c') : BufStep c H c' H

/-- Runs from an empty cache. -/
inductive BufRuns : Bcache → List (Fin NBUF) → Prop
  | boot (disk : UInt32 → Block) : BufRuns (binit disk) []
  | step {c c' : Bcache} {H H' : List (Fin NBUF)} (h : BufRuns c H) (hstep : BufStep c H c' H') :
      BufRuns c' H'

namespace Bcache

/-- The cache while the references `H` are outstanding. -/
structure Whole (c : Bcache) (H : List (Fin NBUF)) : Prop where
  ring : ∃ l, c.links.IsRing l ∧ ∀ i, i ∈ l
  /-- Counts are numbers of references, as far as 32 bits go. -/
  refcnt : ∀ i, (c.buf i).refcnt = UInt32.ofNat (H.count i)
  unique : ∀ i j, (c.buf i).dev ≠ 0 → (c.buf i).dev = (c.buf j).dev →
    (c.buf i).blockno = (c.buf j).blockno → i = j

variable {c c' c₁ : Bcache} {i : Fin NBUF} {dev b : UInt32} {H H' : List (Fin NBUF)}

theorem whole_binit {disk : UInt32 → Block} : Whole (binit disk) [] where
  ring := (sync_binit (by decide : (1 : UInt32) ≠ 0)).ring
  refcnt _ := rfl
  unique i j hne := absurd rfl hne

theorem Whole.same (h : Whole c H) (hsame : SameList c c') : Whole c' H where
  ring := by rw [hsame.links]; exact h.ring
  refcnt i := by rw [hsame.refcnt, h.refcnt]
  unique i j := by
    rw [hsame.dev i, hsame.dev j, hsame.blockno i, hsame.blockno j]
    exact h.unique i j

/-- Counting a reference up. -/
theorem ofNat_count_cons (j : Fin NBUF) : UInt32.ofNat ((i :: H).count j) =
    if j = i then UInt32.ofNat (H.count j) + 1 else UInt32.ofNat (H.count j) := by
  by_cases hj : j = i
  · rw [if_pos hj, hj, List.count_cons_self, UInt32.ofNat_add]
    rfl
  · rw [if_neg hj, List.count_cons_of_ne (Ne.symm hj)]

/-- Counting a reference down. -/
theorem ofNat_count_erase (hmem : i ∈ H) (j : Fin NBUF) : UInt32.ofNat ((H.erase i).count j) =
    if j = i then UInt32.ofNat (H.count j) - 1 else UInt32.ofNat (H.count j) := by
  by_cases hj : j = i
  · have hpos : 0 < H.count i := List.count_pos_iff.mpr hmem
    rw [if_pos hj, hj, List.count_erase_self]
    obtain ⟨n, hn⟩ := Nat.exists_eq_succ_of_ne_zero hpos.ne'
    rw [hn, Nat.succ_sub_one, Nat.succ_eq_add_one, UInt32.ofNat_add]
    exact (UInt32.add_sub_cancel _ _).symm
  · rw [if_neg hj, List.count_erase_of_ne hj]

/-- What `bgetLookup` does: it counts up the buffer of the block, or gives a buffer
without references to a block that no buffer has. -/
theorem Whole.bgetLookup_cases (h : Whole c H) (hrun : c.bgetLookup dev b = .ok (i, c')) :
    ((c.buf i).dev = dev ∧ (c.buf i).blockno = b ∧ c' = c.bpin i) ∨
      ((c.buf i).refcnt = 0 ∧ (∀ j, (c.buf j).dev = dev → (c.buf j).blockno ≠ b) ∧
        c' = c.setBuf i fun x =>
          { x with dev := dev, blockno := b, valid := false, refcnt := 1 }) := by
  obtain ⟨l, hring, hall⟩ := h.ring
  have hlen : l.length < NBUF + 1 := by
    have := hring.nodup.length_le_card
    rw [Fintype.card_fin] at this
    exact Nat.lt_succ_of_le this
  unfold bgetLookup at hrun
  rw [hring.scan_next hlen, hring.scan_prev hlen] at hrun
  cases hf : l.find? fun i => (c.buf i).dev = dev ∧ (c.buf i).blockno = b with
  | some k =>
    simp only [hf] at hrun
    cases hrun
    have hk : (c.buf i).dev = dev ∧ (c.buf i).blockno = b := by simpa using List.find?_some hf
    exact Or.inl ⟨hk.1, hk.2, rfl⟩
  | none =>
    simp only [hf] at hrun
    cases hg : l.reverse.find? fun i => (c.buf i).refcnt = 0 with
    | none => simp only [hg] at hrun; cases hrun
    | some k =>
      simp only [hg] at hrun
      cases hrun
      have hk : (c.buf i).refcnt = 0 := by simpa using List.find?_some hg
      refine Or.inr ⟨hk, fun j hdev hno => ?_, rfl⟩
      exact List.find?_eq_none.mp hf j (hall j) (decide_eq_true ⟨hdev, hno⟩)

/-- `bpin` leaves the blocks alone. -/
theorem block_bpin (j : Fin NBUF) : ((c.bpin i).buf j).dev = (c.buf j).dev ∧
    ((c.bpin i).buf j).blockno = (c.buf j).blockno := by
  by_cases hj : j = i <;> simp [Bcache.bpin, setBuf, hj]

/-- `bunpin` leaves the blocks alone. -/
theorem block_bunpin (j : Fin NBUF) : ((c.bunpin i).buf j).dev = (c.buf j).dev ∧
    ((c.bunpin i).buf j).blockno = (c.buf j).blockno := by
  by_cases hj : j = i <;> simp [Bcache.bunpin, setBuf, hj]

/-- `brelseDrop` is `bunpin` but for the order of the list. -/
theorem buf_brelseDrop : (c.brelseDrop i).buf = (c.bunpin i).buf := by
  show (if ((c.bunpin i).buf i).refcnt = 0 then _ else c.bunpin i : Bcache).buf = _
  split <;> rfl

/-- One more reference to a buffer. -/
theorem Whole.bpin (h : Whole c H) : Whole (c.bpin i) (i :: H) where
  ring := h.ring
  refcnt j := by
    rw [ofNat_count_cons, ← h.refcnt]
    by_cases hj : j = i
    · subst hj
      simp [Bcache.bpin, setBuf]
    · simp [Bcache.bpin, setBuf, hj]
  unique j k := by
    rw [(block_bpin j).1, (block_bpin k).1, (block_bpin j).2, (block_bpin k).2]
    exact h.unique j k

/-- A buffer without references is given to a block that no buffer has. -/
theorem Whole.recycle (h : Whole c H) (href : (c.buf i).refcnt = 0)
    (hno : ∀ j, (c.buf j).dev = dev → (c.buf j).blockno ≠ b) :
    Whole (c.setBuf i fun x => { x with dev := dev, blockno := b, valid := false, refcnt := 1 })
      (i :: H) where
  ring := h.ring
  refcnt j := by
    rw [ofNat_count_cons, ← h.refcnt]
    by_cases hj : j = i
    · subst hj
      simp [setBuf, href]
    · simp [setBuf, hj]
  unique j k := by
    by_cases hj : j = i <;> by_cases hk : k = i
    · exact fun _ _ _ => hj.trans hk.symm
    · subst hj
      simpa [setBuf, hk] using fun _ hd hb => absurd hb.symm (hno k hd.symm)
    · subst hk
      simpa [setBuf, hj] using fun _ hd hb => absurd hb (hno j hd)
    · simpa [setBuf, hj, hk] using h.unique j k

/-- One reference less. -/
theorem Whole.bunpin (h : Whole c H) (hmem : i ∈ H) : Whole (c.bunpin i) (H.erase i) where
  ring := h.ring
  refcnt j := by
    rw [ofNat_count_erase hmem, ← h.refcnt]
    by_cases hj : j = i
    · subst hj
      simp [Bcache.bunpin, setBuf]
    · simp [Bcache.bunpin, setBuf, hj]
  unique j k := by
    rw [(block_bunpin j).1, (block_bunpin k).1, (block_bunpin j).2, (block_bunpin k).2]
    exact h.unique j k

/-- Moving a buffer to the front of the list. -/
theorem Whole.moveToFront (h : Whole c H) (i : Fin NBUF) :
    Whole { c with links := (c.links.unlink i).pushFront i } H where
  ring := by
    obtain ⟨l, hring, hall⟩ := h.ring
    refine ⟨i :: l.erase i, hring.moveToFront (hall i), fun j => ?_⟩
    by_cases hj : j = i
    · exact hj ▸ List.mem_cons_self
    · exact List.mem_cons_of_mem i ((List.mem_erase_of_ne hj).mpr (hall j))
  refcnt := h.refcnt
  unique := h.unique

theorem Whole.brelseDrop (h : Whole c H) (hmem : i ∈ H) : Whole (c.brelseDrop i) (H.erase i) := by
  have hdrop : Whole (c.bunpin i) (H.erase i) := h.bunpin hmem
  show Whole (if ((c.bunpin i).buf i).refcnt = 0 then _ else c.bunpin i) (H.erase i)
  split
  · exact hdrop.moveToFront i
  · exact hdrop

theorem Whole.bgetLookup (h : Whole c H) (hrun : c.bgetLookup dev b = .ok (i, c')) :
    Whole c' (i :: H) := by
  rcases h.bgetLookup_cases hrun with ⟨-, -, rfl⟩ | ⟨href, hno, rfl⟩
  · exact h.bpin
  · exact h.recycle href hno

/-- **Every step keeps the cache whole.** -/
theorem Whole.step (h : Whole c H) (hstep : BufStep c H c' H') : Whole c' H' := by
  cases hstep with
  | bget hdev hrun => exact h.bgetLookup hrun
  | bread hdev hrun =>
    obtain ⟨c₁, hlookup, hsame⟩ := bread_split hrun
    exact (h.bgetLookup hlookup).same hsame
  | brelseDrop hmem => exact h.brelseDrop hmem
  | brelse hmem hrun =>
    obtain ⟨c₁, hsame, rfl⟩ := brelse_split hrun
    exact (h.same hsame).brelseDrop hmem
  | bpin hmem => exact h.bpin
  | bunpin hmem => exact h.bunpin hmem
  | other hsame => exact h.same hsame

/-- **A buffer that is in use keeps its block**, whatever the step. -/
theorem Whole.block_kept (h : Whole c H) (hstep : BufStep c H c' H') {j : Fin NBUF}
    (hj : (c.buf j).refcnt ≠ 0) :
    (c'.buf j).dev = (c.buf j).dev ∧ (c'.buf j).blockno = (c.buf j).blockno := by
  -- a lookup only recycles a buffer that is not in use
  have hlookup : ∀ {dev b : UInt32} {i : Fin NBUF} {c₁ : Bcache},
      c.bgetLookup dev b = .ok (i, c₁) →
        (c₁.buf j).dev = (c.buf j).dev ∧ (c₁.buf j).blockno = (c.buf j).blockno := by
    intro dev b i c₁ hrun
    rcases h.bgetLookup_cases hrun with ⟨-, -, rfl⟩ | ⟨href, -, rfl⟩
    · exact block_bpin j
    · have hne : j ≠ i := by
        rintro rfl
        exact hj href
      simp [setBuf, hne]
  cases hstep with
  | bget hdev hrun => exact hlookup hrun
  | bread hdev hrun =>
    obtain ⟨c₁, hrun, hsame⟩ := bread_split hrun
    rw [hsame.dev, hsame.blockno]
    exact hlookup hrun
  | brelseDrop hmem =>
    rw [buf_brelseDrop]
    exact block_bunpin j
  | brelse hmem hrun =>
    obtain ⟨c₁, hsame, rfl⟩ := brelse_split hrun
    rw [buf_brelseDrop, (block_bunpin j).1, (block_bunpin j).2]
    exact ⟨hsame.dev j, hsame.blockno j⟩
  | bpin hmem => exact block_bpin j
  | bunpin hmem => exact block_bunpin j
  | other hsame => exact ⟨hsame.dev j, hsame.blockno j⟩

end Bcache

variable {c : Bcache} {H : List (Fin NBUF)}

theorem BufRuns.whole (hr : BufRuns c H) : c.Whole H := by
  induction hr with
  | boot disk => exact whole_binit
  | step _ hstep ih => exact ih.step hstep

/-- **Buffers have one identity.**  In every run of `bread`, `brelse`, `bpin` and `bunpin`
with nonzero devices and any number of references outstanding: the list is a ring through
the head of all buffers whose two pointers undo each other, no block of a device is in
two buffers, counts are numbers of references, and no step gives a buffer that is in use
to another block. -/
theorem buffer_identity_of_runs (hr : BufRuns c H) :
    (∃ l : List (Fin NBUF), c.links.IsRing l ∧ l.length = NBUF ∧ ∀ i, i ∈ l) ∧
    (∀ a, c.links.prev (c.links.next a) = a ∧ c.links.next (c.links.prev a) = a) ∧
    (∀ i j, (c.buf i).dev ≠ 0 → (c.buf i).dev = (c.buf j).dev →
      (c.buf i).blockno = (c.buf j).blockno → i = j) ∧
    (∀ i, (c.buf i).refcnt = UInt32.ofNat (H.count i)) ∧
    ∀ c' H', BufStep c H c' H' → ∀ i, 0 < (c.buf i).refcnt →
      (c'.buf i).dev = (c.buf i).dev ∧ (c'.buf i).blockno = (c.buf i).blockno := by
  have hw := hr.whole
  obtain ⟨l, hring, hall⟩ := hw.ring
  have hlen : l.length = NBUF := by
    have hcard : l.toFinset = Finset.univ := by
      ext i
      simp [hall i]
    rw [← List.toFinset_card_of_nodup hring.nodup, hcard, Finset.card_univ, Fintype.card_fin]
  refine ⟨⟨l, hring, hlen, hall⟩, hring.inverse hall, hw.unique, hw.refcnt, ?_⟩
  intro c' H' hstep i hpos
  exact hw.block_kept hstep (UInt32.pos_iff_ne_zero.mp hpos)

/-- Two processes look up the same block, and one of them pins the buffer. -/
theorem buffer_identity_readTwice : ∃ c, BufRuns c [0, 0, 0] ∧ (c.buf 0).refcnt = 3 := by
  have hboot := BufRuns.boot fun _ => Block.zero
  have hrun := ((hboot.step (.bget (by decide) (show bgetLookup _ 1 7 = .ok (0, _) from rfl))).step
    (.bget (by decide) (show bgetLookup _ 1 7 = .ok (0, _) from rfl))).step
    (.bpin (List.mem_cons_self (a := 0)))
  obtain ⟨-, -, -, href, -⟩ := buffer_identity_of_runs hrun
  exact ⟨_, hrun, href 0⟩

end Xv6Ext2
