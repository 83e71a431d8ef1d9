import Mathlib.Data.Fintype.Card
import Xv6Ext2.Fs
import Xv6Ext2.Lib.LinkedRing

/-!
# The buffer cache

`kernel/bio.c` over a disk.  The buffers are linked into a ring in the order of their
last use; `bget` looks for the block from one end and for a buffer to recycle from the
other.  What is lost is what a recycled buffer held and the disk does not.

## Main definitions

* `Buf`, `Bcache` — buffers, and the cache with the disk below it.
* `Bcache.binit`, `bget`, `bread`, `bwrite`, `brelse` — the functions of `bio.c`.
* `Bcache.Ok dev H` — the state of the cache while the buffers `H` are held.
* `Bcache.Sync dev H D` — in addition, only the buffers `D` differ from the disk.

## Main results

* `Bcache.sync_binit` — the cache is empty at boot.
* `Sync.bread`, `Sync.store`, `Sync.bwrite`, `Sync.brelse` — what the functions do.
-/

namespace Xv6Ext2

open LinkedRing

/-- The number of buffers. -/
abbrev NBUF : ℕ := 30

/-- `struct buf`.  `locked` says whether the sleep lock is taken. -/
structure Buf where
  valid : Bool
  dev : UInt32
  blockno : UInt32
  locked : Bool
  refcnt : UInt32
  data : Block

/-- The buffer cache, with its list of buffers, and the disk. -/
structure Bcache where
  buf : Fin NBUF → Buf
  links : Links (Fin NBUF)
  disk : UInt32 → Block

namespace Bcache

/-! ### The source functions -/

/-- Change the fields of a buffer. -/
def setBuf (c : Bcache) (i : Fin NBUF) (f : Buf → Buf) : Bcache :=
  { c with buf := Function.update c.buf i (f (c.buf i)) }

/-- Create the linked list of buffers. -/
def binit (disk : UInt32 → Block) : Bcache where
  buf _ := ⟨false, 0, 0, false, 0, Block.zero⟩
  links := (List.finRange NBUF).foldl Links.pushFront ⟨fun _ => none, fun _ => none⟩
  disk := disk

/-- `acquiresleep(&b->lock)` -/
def acquiresleep (c : Bcache) (i : Fin NBUF) : Except Err Bcache :=
  if (c.buf i).locked then .error .deadlock else .ok (c.setBuf i fun b => { b with locked := true })

/-- Look through the buffer cache for a block on a device.  If it is not found, recycle
the least recently used buffer that is not in use. -/
def bget (c : Bcache) (dev blockno : UInt32) : Except Err (Fin NBUF × Bcache) :=
  match scan c.links.next (fun i => (c.buf i).dev = dev ∧ (c.buf i).blockno = blockno)
      (NBUF + 1) (c.links.next none) with
  | none => .error .fuel
  | some (some i) => do
    let c ← (c.setBuf i fun b => { b with refcnt := b.refcnt + 1 }).acquiresleep i
    return (i, c)
  | some none =>
    match scan c.links.prev (fun i => (c.buf i).refcnt = 0) (NBUF + 1) (c.links.prev none) with
    | none => .error .fuel
    | some none => .error (.panic "bget: no buffers")
    | some (some i) => do
      let c ← (c.setBuf i fun b =>
        { b with dev := dev, blockno := blockno, valid := false, refcnt := 1 }).acquiresleep i
      return (i, c)

/-- `virtio_disk_rw(b, 0)` -/
def diskRead (c : Bcache) (i : Fin NBUF) : Bcache :=
  c.setBuf i fun b => { b with data := c.disk b.blockno }

/-- `virtio_disk_rw(b, 1)` -/
def diskWrite (c : Bcache) (i : Fin NBUF) : Bcache :=
  { c with disk := Function.update c.disk (c.buf i).blockno (c.buf i).data }

/-- Return a locked buffer with the contents of the indicated block. -/
def bread (c : Bcache) (dev blockno : UInt32) : Except Err (Fin NBUF × Bcache) := do
  let (i, c) ← c.bget dev blockno
  if (c.buf i).valid then return (i, c)
  else return (i, (c.diskRead i).setBuf i fun b => { b with valid := true })

/-- Write a buffer's contents to disk.  It must be locked. -/
def bwrite (c : Bcache) (i : Fin NBUF) : Except Err Bcache :=
  if (c.buf i).locked then .ok (c.diskWrite i) else .error (.panic "bwrite")

/-- Release a locked buffer, and move it to the head of the list when it is not in use
any more. -/
def brelse (c : Bcache) (i : Fin NBUF) : Except Err Bcache :=
  if (c.buf i).locked then
    let c := c.setBuf i fun b => { b with locked := false, refcnt := b.refcnt - 1 }
    if (c.buf i).refcnt = 0 then .ok { c with links := (c.links.unlink i).pushFront i }
    else .ok c
  else .error (.panic "brelse")

end Bcache

/-- The buffer cache as a block layer. -/
instance : BlockLayer Bcache (Fin NBUF) where
  bread dev b c := c.bread dev b
  data c i := (c.buf i).data
  store i d c := c.setBuf i fun b => { b with data := d }
  bwrite i c := c.bwrite i
  brelse i c := c.brelse i

/-! ### Invariants -/

namespace Bcache

/-- The cache while the buffers `H` are held: the list has all buffers, a buffer is in
use exactly while it is held, and blocks of the device are in one buffer at most. -/
structure Ok (dev : UInt32) (H : Finset (Fin NBUF)) (c : Bcache) : Prop where
  ring : ∃ l, c.links.IsRing l ∧ ∀ i, i ∈ l
  locked : ∀ i, (c.buf i).locked = true ↔ i ∈ H
  refcnt : ∀ i, (c.buf i).refcnt = if i ∈ H then 1 else 0
  root : ∀ i, (c.buf i).valid = true → (c.buf i).dev = dev
  held : ∀ i ∈ H, (c.buf i).valid = true
  unique : ∀ i j, (c.buf i).dev = dev → (c.buf j).dev = dev →
    (c.buf i).blockno = (c.buf j).blockno → i = j

/-- The cache while the buffers `H` are held and only those of `D` differ from the
disk. -/
structure Sync (dev : UInt32) (H D : Finset (Fin NBUF)) (c : Bcache) : Prop extends
    Ok dev H c where
  sub : D ⊆ H
  data : ∀ i, (c.buf i).valid = true → i ∉ D → (c.buf i).data = c.disk (c.buf i).blockno

variable {dev b : UInt32} {H D : Finset (Fin NBUF)} {c c' : Bcache} {i : Fin NBUF}

/-! ### The cache at boot -/

/-- Linking buffers into a ring, one after the other. -/
theorem isRing_foldl : ∀ (l l' : List (Fin NBUF)) (r : Links (Fin NBUF)), (l ++ l').Nodup →
    r.IsRing l' → (l.foldl Links.pushFront r).IsRing (l.reverse ++ l') := by
  intro l
  induction l with
  | nil => intro l' r _ h; exact h
  | cons x l ih =>
    intro l' r hnd h
    rw [List.foldl_cons, List.reverse_cons, List.append_assoc]
    have hx := List.nodup_cons.mp hnd
    apply ih (x :: l') (r.pushFront x)
    · exact List.nodup_middle.mpr hnd
    · exact h.pushFront fun hmem => hx.1 (List.mem_append_right l hmem)

/-- **The cache is empty at boot.** -/
theorem sync_binit {disk : UInt32 → Block} (hdev : dev ≠ 0) : Sync dev ∅ ∅ (binit disk) where
  ring := by
    refine ⟨(List.finRange NBUF).reverse ++ [], ?_, fun i => by simp⟩
    apply isRing_foldl
    · rw [List.append_nil]
      exact List.nodup_finRange NBUF
    · exact ⟨⟨rfl, rfl⟩, List.nodup_nil⟩
  locked i := by simp [binit]
  refcnt i := by simp [binit]
  root i h := by cases h
  held i h := by cases h
  unique i j h := absurd h.symm hdev
  sub := Finset.empty_subset ∅
  data i h := by cases h

/-! ### Reading a block -/

theorem acquiresleep_ok (h : c.acquiresleep i = .ok c') : (c.buf i).locked = false ∧
    c' = c.setBuf i fun b => { b with locked := true } := by
  unfold acquiresleep at h
  split at h
  · cases h
  · next hl =>
    cases h
    exact ⟨Bool.eq_false_iff.mpr hl, rfl⟩

/-- `bget` finds the buffer of the block, or recycles one when there is none. -/
theorem Ok.bget (h : Ok dev H c) (hrun : c.bget dev b = .ok (i, c')) :
    i ∉ H ∧ (∀ j, (c.buf j).dev = dev → (c.buf j).blockno = b → j = i) ∧
      ∃ old : Buf, c' = c.setBuf i (fun _ => ⟨old.valid, dev, b, true, 1, old.data⟩) ∧
        (old.valid = true → old = c.buf i ∧ old.blockno = b) := by
  obtain ⟨l, hring, hall⟩ := h.ring
  have hlen : l.length < NBUF + 1 := by
    have := hring.nodup.length_le_card
    rw [Fintype.card_fin] at this
    exact Nat.lt_succ_of_le this
  have hfree : ∀ j, (c.buf j).locked = false → j ∉ H := fun j hj hjH => by
    rw [(h.locked j).mpr hjH] at hj
    cases hj
  unfold Bcache.bget at hrun
  rw [hring.scan_next hlen, hring.scan_prev hlen] at hrun
  cases hf : l.find? fun i => (c.buf i).dev = dev ∧ (c.buf i).blockno = b with
  | some k =>
    simp only [hf] at hrun
    have hk : (c.buf k).dev = dev ∧ (c.buf k).blockno = b := by
      simpa using List.find?_some hf
    cases ha : (c.setBuf k fun b => { b with refcnt := b.refcnt + 1 }).acquiresleep k with
    | error e => rw [ha] at hrun; cases hrun
    | ok c₁ =>
      rw [ha] at hrun
      cases hrun
      obtain ⟨hl, rfl⟩ := acquiresleep_ok ha
      have hl : (c.buf i).locked = false := by simpa [setBuf] using hl
      have hi := hfree i hl
      refine ⟨hi, fun j hd hb => h.unique j i hd hk.1 (hb.trans hk.2.symm), c.buf i, ?_, ?_⟩
      · have href := h.refcnt i
        rw [if_neg hi] at href
        simp [setBuf, href, hk]
      · exact fun _ => ⟨rfl, hk.2⟩
  | none =>
    simp only [hf] at hrun
    have hno : ∀ j, (c.buf j).dev = dev → (c.buf j).blockno ≠ b := fun j hd hb => by
      have := List.find?_eq_none.mp hf j (hall j)
      exact this (decide_eq_true ⟨hd, hb⟩)
    cases hg : l.reverse.find? fun i => (c.buf i).refcnt = 0 with
    | none => simp only [hg] at hrun; cases hrun
    | some k =>
      simp only [hg] at hrun
      cases ha : (c.setBuf k fun x =>
          { x with dev := dev, blockno := b, valid := false, refcnt := 1 }).acquiresleep k with
      | error e => rw [ha] at hrun; cases hrun
      | ok c₁ =>
        rw [ha] at hrun
        cases hrun
        obtain ⟨hl, rfl⟩ := acquiresleep_ok ha
        have hl : (c.buf i).locked = false := by simpa [setBuf] using hl
        refine ⟨hfree i hl, fun j hd hb => absurd hb (hno j hd), { c.buf i with valid := false },
          ?_, fun hv => by cases hv⟩
        simp [setBuf]

/-- **`bread` returns what is on disk**, in a buffer that was not held. -/
theorem Sync.bread (h : Sync dev H D c) (hrun : c.bread dev b = .ok (i, c')) :
    i ∉ H ∧ (∀ j, (c.buf j).dev = dev → (c.buf j).blockno = b → j = i) ∧
      c' = c.setBuf i fun _ => ⟨true, dev, b, true, 1, c.disk b⟩ := by
  unfold Bcache.bread at hrun
  cases hg : c.bget dev b with
  | error e => rw [hg] at hrun; cases hrun
  | ok r =>
    obtain ⟨k, c₁⟩ := r
    rw [hg] at hrun
    obtain ⟨hk, huniq, old, rfl, hold⟩ := h.toOk.bget hg
    have hD : k ∉ D := fun hkD => hk (h.sub hkD)
    simp only [bind, Except.bind, pure, Except.pure] at hrun
    split at hrun
    · next hv =>
      have hv : old.valid = true := by simpa [setBuf] using hv
      obtain ⟨rfl, hb⟩ := hold hv
      cases hrun
      refine ⟨hk, huniq, ?_⟩
      rw [hv, h.data i hv hD, hb]
    · cases hrun
      refine ⟨hk, huniq, ?_⟩
      simp [diskRead, setBuf]

/-! ### Holding buffers -/

/-- A buffer that was read is held. -/
theorem Sync.hold (h : Sync dev H D c) (hi : i ∉ H)
    (huniq : ∀ j, (c.buf j).dev = dev → (c.buf j).blockno = b → j = i) :
    Sync dev (insert i H) D (c.setBuf i fun _ => ⟨true, dev, b, true, 1, c.disk b⟩) where
  ring := h.ring
  locked j := by
    by_cases hj : j = i
    · subst hj
      simp [setBuf]
    · simp [setBuf, hj, h.locked j]
  refcnt j := by
    by_cases hj : j = i
    · subst hj
      simp [setBuf]
    · simp [setBuf, hj, h.refcnt j]
  root j := by
    by_cases hj : j = i
    · subst hj
      simp [setBuf]
    · simpa [setBuf, hj] using h.root j
  held j := by
    by_cases hj : j = i
    · subst hj
      simp [setBuf]
    · simpa [setBuf, hj] using h.held j
  unique j k := by
    by_cases hj : j = i
    · by_cases hk : k = i
      · exact fun _ _ _ => hj.trans hk.symm
      · subst hj
        simpa [setBuf, hk] using fun hd hb => (huniq k hd hb.symm).symm
    · by_cases hk : k = i
      · subst hk
        simpa [setBuf, hj] using huniq j
      · simpa [setBuf, hj, hk] using h.unique j k
  sub := h.sub.trans (Finset.subset_insert i H)
  data j := by
    by_cases hj : j = i
    · subst hj
      simp [setBuf]
    · simpa [setBuf, hj] using h.data j

/-- `Ok` says nothing about the data. -/
theorem Ok.congr (h : Ok dev H c) (hl : c'.links = c.links)
    (hb : ∀ j, ∃ d, c'.buf j = { c.buf j with data := d }) : Ok dev H c' := by
  choose d hd using hb
  constructor
  · rw [hl]
    exact h.ring
  · exact fun j => by rw [hd]; exact h.locked j
  · exact fun j => by rw [hd]; exact h.refcnt j
  · exact fun j => by rw [hd]; exact h.root j
  · exact fun j => by rw [hd]; exact h.held j
  · exact fun j k => by rw [hd, hd]; exact h.unique j k

/-- Storing in a held buffer makes it differ from the disk. -/
theorem Sync.store (h : Sync dev H D c) (hi : i ∈ H) (d : Block) :
    Sync dev H (insert i D) (c.setBuf i fun x => { x with data := d }) where
  toOk := by
    refine h.toOk.congr rfl fun j => ?_
    by_cases hj : j = i
    · subst hj
      exact ⟨d, by simp [setBuf]⟩
    · exact ⟨(c.buf j).data, by simp [setBuf, hj]⟩
  sub := Finset.insert_subset hi h.sub
  data j := by
    by_cases hj : j = i
    · subst hj
      simp
    · simpa [setBuf, hj] using h.data j

/-- Storing what a buffer holds already changes nothing. -/
theorem setBuf_data : (c.setBuf i fun x => { x with data := (c.buf i).data }) = c := by
  simp [setBuf]

/-- **`bwrite` brings the disk up to date.** -/
theorem Sync.bwrite (h : Sync dev H D c) (hi : i ∈ H) (hrun : c.bwrite i = .ok c') :
    Sync dev H (D.erase i) c' ∧ c'.buf = c.buf ∧
      c'.disk = Function.update c.disk (c.buf i).blockno (c.buf i).data := by
  unfold Bcache.bwrite at hrun
  split at hrun
  · cases hrun
    refine ⟨⟨h.toOk.congr rfl fun j => ⟨(c.buf j).data, rfl⟩,
      (Finset.erase_subset i D).trans h.sub, fun j hv hj => ?_⟩, rfl, rfl⟩
    show (c.buf j).data = Function.update c.disk (c.buf i).blockno (c.buf i).data (c.buf j).blockno
    by_cases hij : j = i
    · subst hij
      rw [Function.update_self]
    · -- another buffer holds another block
      have hne : (c.buf j).blockno ≠ (c.buf i).blockno := fun he =>
        hij (h.unique j i (h.root j hv) (h.root i (h.held i hi)) he)
      rw [Function.update_of_ne hne]
      exact h.data j hv fun hD => hj (Finset.mem_erase.mpr ⟨hij, hD⟩)
  · cases hrun

/-- A buffer can be released once it agrees with the disk. -/
theorem Sync.brelse (h : Sync dev H D c) (hi : i ∈ H) (hD : i ∉ D) (hrun : c.brelse i = .ok c') :
    Sync dev (H.erase i) D c' ∧ (∀ j, j ≠ i → c'.buf j = c.buf j) ∧ c'.disk = c.disk := by
  have href : (c.buf i).refcnt = 1 := (h.refcnt i).trans (if_pos hi)
  obtain ⟨l, hring, hall⟩ := h.ring
  -- what the function leaves
  have hself : c'.buf i = { c.buf i with locked := false, refcnt := 0 } ∧
      (∀ j, j ≠ i → c'.buf j = c.buf j) ∧ c'.links = (c.links.unlink i).pushFront i ∧
      c'.disk = c.disk := by
    unfold Bcache.brelse at hrun
    rw [if_pos ((h.locked i).mpr hi), if_pos (by simp [setBuf, href])] at hrun
    cases hrun
    refine ⟨by simp [setBuf, href], fun j hj => by simp [setBuf, hj], rfl, rfl⟩
  obtain ⟨hself, hother, hlinks, hdisk⟩ := hself
  have hframe : ∀ j, (c'.buf j).valid = (c.buf j).valid ∧ (c'.buf j).dev = (c.buf j).dev ∧
      (c'.buf j).blockno = (c.buf j).blockno ∧ (c'.buf j).data = (c.buf j).data := by
    intro j
    by_cases hj : j = i
    · subst hj
      rw [hself]
      exact ⟨rfl, rfl, rfl, rfl⟩
    · rw [hother j hj]
      exact ⟨rfl, rfl, rfl, rfl⟩
  refine ⟨⟨⟨⟨i :: l.erase i, ?_, fun j => ?_⟩, fun j => ?_, fun j => ?_, fun j => ?_,
    fun j hj => ?_, fun j k => ?_⟩, fun j hj => ?_, fun j hv hj => ?_⟩, hother, hdisk⟩
  · rw [hlinks]
    exact hring.moveToFront (hall i)
  · by_cases hj : j = i
    · exact hj ▸ List.mem_cons_self
    · exact List.mem_cons_of_mem i ((List.mem_erase_of_ne hj).mpr (hall j))
  · by_cases hj : j = i
    · subst hj
      simp [hself]
    · simp [hother j hj, hj, h.locked j]
  · by_cases hj : j = i
    · subst hj
      simp [hself]
    · simp [hother j hj, hj, h.refcnt j]
  · rw [(hframe j).1, (hframe j).2.1]
    exact h.root j
  · rw [(hframe j).1]
    exact h.held j (Finset.mem_of_mem_erase hj)
  · rw [(hframe j).2.1, (hframe k).2.1, (hframe j).2.2.1, (hframe k).2.2.1]
    exact h.unique j k
  · exact Finset.mem_erase.mpr ⟨fun hji => hD (hji ▸ hj), h.sub hj⟩
  · rw [(hframe j).1] at hv
    rw [(hframe j).2.2.2, (hframe j).2.2.1, hdisk]
    exact h.data j hv hj

end Bcache

end Xv6Ext2
