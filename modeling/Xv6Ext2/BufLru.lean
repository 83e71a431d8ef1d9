import Xv6Ext2.BufIdentity

/-!
# Which buffer is recycled

The list of buffers changes only when the last reference to a buffer is released, and
then the buffer moves to its front.  So the list is in the order of these releases also
where buffers are in use again, and the walk from its end finds, among the buffers that
are not in use, the one that was released first.

## Main definitions

* `LruRuns c H log` — runs of `bread` and `brelse` with the references `H` outstanding;
  `log` has the buffers whose last reference was released, the last release first.

## Main results

* `LruRuns.recent` — the list is in the order of the releases.
* `recycles_oldest_of_runs` — what `bget` recycles, and when it panics.
-/

namespace Xv6Ext2

open Bcache

/-- Runs of `bread` and `brelse` from an empty cache, with what each does while the cache is
locked as one step. -/
inductive LruRuns : Bcache → List (Fin NBUF) → List (Fin NBUF) → Prop
  | boot (disk : UInt32 → Block) : LruRuns (binit disk) [] []
  | bget {c c' : Bcache} {H log : List (Fin NBUF)} {dev b : UInt32} {i : Fin NBUF}
      (before : LruRuns c H log) (hrun : c.bgetLookup dev b = .ok (i, c')) :
      LruRuns c' (i :: H) log
  | brelseDrop {c : Bcache} {H log : List (Fin NBUF)} {i : Fin NBUF} (before : LruRuns c H log)
      (hmem : i ∈ H) : LruRuns (c.brelseDrop i) (H.erase i)
        (if ((c.brelseDrop i).buf i).refcnt = 0 then i :: log else log)
  /-- Sleep locks are taken and given up, and buffers are read, changed and written. -/
  | other {c c' : Bcache} {H log : List (Fin NBUF)} (before : LruRuns c H log)
      (hsame : SameList c c') : LruRuns c' H log

variable {c c' : Bcache} {H log : List (Fin NBUF)} {dev b : UInt32} {i : Fin NBUF}

theorem LruRuns.bread (h : LruRuns c H log) (hrun : c.bread dev b = .ok (i, c')) :
    LruRuns c' (i :: H) log := by
  obtain ⟨c₁, hlookup, hsame⟩ := bread_split hrun
  exact (h.bget hlookup).other hsame

theorem LruRuns.brelse (h : LruRuns c H log) (hmem : i ∈ H) (hrun : c.brelse i = .ok c') :
    LruRuns c' (H.erase i) (if (c'.buf i).refcnt = 0 then i :: log else log) := by
  obtain ⟨c₁, hsame, rfl⟩ := brelse_split hrun
  exact (h.other hsame).brelseDrop hmem

theorem LruRuns.whole (h : LruRuns c H log) : c.Whole H := by
  induction h with
  | boot disk => exact whole_binit
  | bget _ hrun ih => exact ih.bgetLookup hrun
  | brelseDrop _ hmem ih => exact ih.brelseDrop hmem
  | other _ hsame ih => exact ih.same hsame

/-- The list of buffers is in the order of their last releases.  A buffer that is not in
`log` has its length as index, and comes last. -/
def Bcache.Recent (c : Bcache) (log : List (Fin NBUF)) : Prop :=
  ∃ l, c.links.IsRing l ∧ (∀ i, i ∈ l) ∧ l.Pairwise fun i j => log.idxOf i ≤ log.idxOf j

theorem Bcache.Recent.moveToFront (h : c.Recent log) (i : Fin NBUF) :
    Recent { c with links := (c.links.unlink i).pushFront i } (i :: log) := by
  obtain ⟨l, hring, hall, horder⟩ := h
  refine ⟨i :: l.erase i, hring.moveToFront (hall i), fun j => ?_, ?_⟩
  · by_cases hj : j = i
    · simp [hj]
    · simp [hj, hall j]
  · refine List.pairwise_cons.mpr ⟨fun j _ => by simp, ?_⟩
    -- the other buffers are in the order that they had
    refine (horder.sublist List.erase_sublist).imp_of_mem fun {j k} hj hk hjk => ?_
    have hne : ∀ {a}, a ∈ l.erase i → i ≠ a := by
      rintro a ha rfl
      exact hring.nodup.not_mem_erase ha
    rw [List.idxOf_cons_ne _ (hne hj), List.idxOf_cons_ne _ (hne hk)]
    omega

theorem LruRuns.recent (h : LruRuns c H log) : c.Recent log := by
  induction h with
  | boot disk =>
    obtain ⟨l, hring, hall⟩ := (@whole_binit disk).ring
    exact ⟨l, hring, hall, List.pairwise_of_forall fun _ _ => le_rfl⟩
  | bget before hrun ih =>
    rcases before.whole.bgetLookup_cases hrun with ⟨-, -, rfl⟩ | ⟨-, -, rfl⟩ <;> exact ih
  | @brelseDrop c H log i before hmem ih =>
    rw [buf_brelseDrop]
    show Recent (if ((c.bunpin i).buf i).refcnt = 0 then _ else c.bunpin i) _
    split
    · exact Recent.moveToFront (c := c.bunpin i) ih i
    · exact ih
  | other _ hsame ih => rwa [Recent, hsame.links]

/-- **The buffer that was released first is recycled.**  If no buffer has the block, `bget`
takes a buffer with the count 0, and every other one was released after it; otherwise it
takes the buffer of the block.  It panics only if all buffers are referenced, and does not
fail in another way. -/
theorem recycles_oldest_of_runs (hr : LruRuns c H log) (dev b : UInt32) :
    (∀ i c', c.bgetLookup dev b = .ok (i, c') →
      ((c.buf i).dev = dev ∧ (c.buf i).blockno = b ∧ c' = c.bpin i) ∨
        (∀ j, (c.buf j).dev = dev → (c.buf j).blockno ≠ b) ∧ (c.buf i).refcnt = 0 ∧
          (∀ j, (c.buf j).refcnt = 0 → log.idxOf j ≤ log.idxOf i) ∧
          c' = c.setBuf i fun x =>
            { x with dev := dev, blockno := b, valid := false, refcnt := 1 }) ∧
    ∀ e, c.bgetLookup dev b = .error e → e = .panic "bget: no buffers" ∧ ∀ i, i ∈ H := by
  obtain ⟨l, hring, hall, horder⟩ := hr.recent
  have hlen : l.length < NBUF + 1 := by
    have := hring.nodup.length_le_card
    rw [Fintype.card_fin] at this
    exact Nat.lt_succ_of_le this
  have hnext := hring.scan_next (p := fun i => (c.buf i).dev = dev ∧ (c.buf i).blockno = b) hlen
  have hprev := hring.scan_prev (p := fun i => (c.buf i).refcnt = 0) hlen
  refine ⟨fun i c' hrun => ?_, fun e hrun => ?_⟩
  · rcases hr.whole.bgetLookup_cases hrun with hhit | ⟨href, hmiss, rfl⟩
    · exact Or.inl hhit
    refine Or.inr ⟨hmiss, href, fun j hj => ?_, rfl⟩
    have hnone : l.find? (fun i => (c.buf i).dev = dev ∧ (c.buf i).blockno = b) = none := by
      simpa using fun k _ => hmiss k
    rw [bgetLookup, hnext, hnone, hprev] at hrun
    cases hlast : l.reverse.find? fun i => (c.buf i).refcnt = 0 with
    | none => rw [hlast] at hrun; cases hrun
    | some k =>
      rw [hlast] at hrun
      obtain rfl : k = i := congrArg Prod.fst (Except.ok.inj hrun)
      -- the list after the buffer that is found has no other one
      obtain ⟨-, after, before, hl, hafter⟩ := List.find?_eq_some_iff_append.mp hlast
      rw [← List.reverse_inj, List.reverse_reverse, List.reverse_append, List.reverse_cons] at hl
      have hjl := hall j
      rw [hl] at hjl horder
      simp only [List.mem_append, List.mem_reverse, List.mem_singleton] at hjl
      rcases hjl with (hjl | rfl) | hjl
      · have hleft := (List.pairwise_append.mp horder).1
        exact (List.pairwise_append.mp hleft).2.2 j (List.mem_reverse.mpr hjl) k (by simp)
      · exact le_rfl
      · simpa [hj] using hafter j hjl
  · rw [bgetLookup, hnext, hprev] at hrun
    cases hfind : l.find? fun i => (c.buf i).dev = dev ∧ (c.buf i).blockno = b with
    | some k => rw [hfind] at hrun; cases hrun
    | none =>
      cases hlast : l.reverse.find? fun i => (c.buf i).refcnt = 0 with
      | some k => rw [hfind, hlast] at hrun; cases hrun
      | none =>
        rw [hfind, hlast] at hrun
        refine ⟨(Except.error.inj hrun).symm, fun i => List.count_pos_iff.mp ?_⟩
        have href := List.find?_eq_none.mp hlast i (by simpa using hall i)
        rw [hr.whole.refcnt i] at href
        exact Nat.pos_of_ne_zero fun h0 => href (by simp [h0])

set_option maxRecDepth 4000 in
/-- A block is read and released, and another one is read: its buffer was never used. -/
theorem recycles_oldest_readTwice : ∃ c c', (LruRuns c [] [0] ∧
    c.bgetLookup 1 6 = .ok (1, c')) ∧ [(0 : Fin NBUF)].idxOf 0 ≤ [(0 : Fin NBUF)].idxOf 1 := by
  have hread := (LruRuns.boot fun _ => Block.zero).bget
    (show bgetLookup _ 1 5 = .ok (0, _) from rfl)
  have hrun : LruRuns _ [] [0] := hread.brelseDrop (i := 0) List.mem_cons_self
  rcases (recycles_oldest_of_runs hrun 1 6).1 1 _ rfl with ⟨hdev, -⟩ | ⟨-, -, hold, -⟩
  · cases hdev
  · exact ⟨_, _, ⟨hrun, rfl⟩, hold 0 rfl⟩

end Xv6Ext2
