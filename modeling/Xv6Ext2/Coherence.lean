import Xv6Ext2.Bio
import Xv6Ext2.Path

/-!
# Cache and disk

Which functions of `fs.c` leave the buffer cache in agreement with the disk.  A buffer
that is not in use may be recycled at any time, and what it held is lost unless it has
been written.  `balloc`, `bfree`, `ialloc` and `iupdate` write what they change;
`writei`, the slots of index blocks that `bmap` fills, and those that `itrunc` clears are
only changed in the cache.

## Main definitions

* `Quiet dev R m` — `m` leaves the held buffers alone and the cache in agreement with the
  disk, which it changes as `R` says.
* `FsOp`, `FsOp.Written` — the operations, and when they write all they change.
* `CacheRuns` — runs of operations from an empty cache.
* `Coherent` — buffers that are not in use agree with the disk.

## Main results

* `quiet_balloc`, `quiet_bfree`, `quiet_ialloc`, `quiet_iupdate` — the functions that write
  what they change.
* `bmap_filled` — `bmap` only reads when the block is there.
* `coherent_of_runs` — **the cache agrees with the disk** along a run of operations that
  write what they change.
-/

namespace Xv6Ext2

open Prog Bcache

variable {dev b : UInt32} {H D : Finset (Fin NBUF)} {s t : Fs Bcache} {i : Fin NBUF} {α γ : Type}

/-! ### Operations on buffers -/

theorem sat_bread (h : s.blk.Sync dev H D) : Sat (bread dev b) s fun i t =>
    (i ∉ H ∧ t.blk.Sync dev (insert i H) D) ∧
      t.blk.buf i = ⟨true, dev, b, true, 1, s.blk.disk b⟩ ∧
      (∀ j ∈ H, t.blk.buf j = s.blk.buf j) ∧ t.blk.disk = s.blk.disk := by
  intro i t hrun
  unfold bread FsM.onBlk at hrun
  cases hb : BlockLayer.bread dev b s.blk with
  | error e => simp only [hb] at hrun; cases hrun
  | ok r =>
    simp only [hb] at hrun
    cases hrun
    obtain ⟨hi, huniq, heq⟩ := h.bread hb
    refine ⟨⟨hi, ?_⟩, ?_, fun j hj => ?_, ?_⟩
    · rw [heq]
      exact h.hold hi huniq
    · simp [heq, setBuf]
    · have hne : j ≠ r.1 := fun hji => hi (hji ▸ hj)
      simp [heq, setBuf, hne]
    · simp [heq, setBuf]

theorem sat_bdata : Sat (bdata i) s fun d t => d = (s.blk.buf i).data ∧ s = t := by
  intro d t hrun
  cases hrun
  exact ⟨rfl, rfl⟩

theorem sat_ofExcept {x : Except Err α} : Sat (FsM.ofExcept x) s fun _ t => s = t := by
  intro a t hrun
  cases x with
  | error e => cases hrun
  | ok a => cases hrun; rfl

theorem sat_bstore (h : s.blk.Sync dev H D) (hi : i ∈ H) (d : Block) :
    Sat (bstore i d) s fun _ t => t.blk.Sync dev H (insert i D) ∧
      t.blk.buf i = { s.blk.buf i with data := d } ∧ (∀ j, j ≠ i → t.blk.buf j = s.blk.buf j) ∧
      t.blk.disk = s.blk.disk := by
  intro _ t hrun
  cases hrun
  refine ⟨h.store hi d, ?_, fun j hj => ?_, rfl⟩
  · simp [BlockLayer.store, setBuf]
  · simp [BlockLayer.store, setBuf, hj]

theorem sat_bwrite (h : s.blk.Sync dev H D) (hi : i ∈ H) : Sat (bwrite i) s fun _ t =>
    t.blk.Sync dev H (D.erase i) ∧ t.blk.buf = s.blk.buf ∧
      t.blk.disk = Function.update s.blk.disk (s.blk.buf i).blockno (s.blk.buf i).data := by
  intro _ t hrun
  unfold bwrite FsM.onBlk at hrun
  cases hb : BlockLayer.bwrite i s.blk with
  | error e => simp only [hb, Except.map] at hrun; cases hrun
  | ok c =>
    simp only [hb, Except.map] at hrun
    cases hrun
    exact h.bwrite hi hb

theorem sat_brelse (h : s.blk.Sync dev H D) (hi : i ∈ H) (hD : i ∉ D) : Sat (brelse i) s fun _ t =>
    t.blk.Sync dev (H.erase i) D ∧ (∀ j, j ≠ i → t.blk.buf j = s.blk.buf j) ∧
      t.blk.disk = s.blk.disk := by
  intro _ t hrun
  unfold brelse FsM.onBlk at hrun
  cases hb : BlockLayer.brelse i s.blk with
  | error e => simp only [hb, Except.map] at hrun; cases hrun
  | ok c =>
    simp only [hb, Except.map] at hrun
    cases hrun
    exact h.brelse hi hD hb

/-! ### Functions that write what they change -/

/-- How a function may change the disk. -/
abbrev DiskRel := (UInt32 → Block) → (UInt32 → Block) → Prop

/-- The cache agrees with the disk but for the buffers `D`, the buffers `H` are held and
as they were, and the disk has changed as `R` says. -/
structure Settles (dev : UInt32) (H D : Finset (Fin NBUF)) (R : DiskRel) (s t : Fs Bcache) :
    Prop where
  sync : t.blk.Sync dev H D
  same : ∀ j ∈ H, t.blk.buf j = s.blk.buf j
  disk : R s.blk.disk t.blk.disk

/-- The function leaves the held buffers alone and the cache in agreement with the
disk. -/
def Quiet (dev : UInt32) (R : DiskRel) (m : FsM Bcache α) : Prop :=
  ∀ H D s, s.blk.Sync dev H D → Sat m s fun _ t => Settles dev H D R s t

/-- The disk may change in any way. -/
def AnyDisk : DiskRel := fun _ _ => True

/-- Bytes that are 0 stay 0. -/
def Clears : DiskRel := fun d d' => ∀ b x, (d b).byte x = 0 → (d' b).byte x = 0

instance : Std.Refl AnyDisk := ⟨fun _ => trivial⟩

instance : IsTrans _ AnyDisk := ⟨fun _ _ _ _ _ => trivial⟩

instance : Std.Refl Clears := ⟨fun _ _ _ h => h⟩

instance : IsTrans _ Clears := ⟨fun _ _ _ h h' b x hx => h' b x (h b x hx)⟩

section Rules

variable {R : DiskRel}

theorem Settles.trans [IsTrans _ R] {u : Fs Bcache} (h : Settles dev H D R s t)
    (h' : Settles dev H D R t u) : Settles dev H D R s u :=
  ⟨h'.sync, fun j hj => (h'.same j hj).trans (h.same j hj), IsTrans.trans _ _ _ h.disk h'.disk⟩

theorem Quiet.bind [IsTrans _ R] {m : FsM Bcache α} {f : α → FsM Bcache γ} (hm : Quiet dev R m)
    (hf : ∀ a, Quiet dev R (f a)) : Quiet dev R (m >>= f) := by
  intro H D s h
  refine (hm H D s h).bind fun a t ht => ?_
  exact (hf a H D t ht.sync).mono fun _ u hu => ht.trans hu

theorem Quiet.any {m : FsM Bcache α} (h : Quiet dev R m) : Quiet dev AnyDisk m :=
  fun H D s hs => (h H D s hs).mono fun _ _ ht => ⟨ht.sync, ht.same, trivial⟩

/-- **Working on a block**: the buffer is held meanwhile. -/
theorem Quiet.hold [IsTrans _ R] [Std.Refl R] {f : Fin NBUF → FsM Bcache α}
    (h : ∀ i H D s, i ∉ H → D ⊆ H → s.blk.Sync dev (insert i H) D →
      s.blk.buf i = ⟨true, dev, b, true, 1, s.blk.disk b⟩ →
      Sat (f i) s fun _ t => Settles dev H D R s t) : Quiet dev R (bread dev b >>= f) := by
  intro H D s hs
  refine (sat_bread hs).bind fun i t ht => ?_
  obtain ⟨⟨hi, hsync⟩, hbuf, hsame, hdisk⟩ := ht
  refine (h i H D t hi hs.sub hsync (by rw [hbuf, hdisk])).mono fun _ u hu => ?_
  exact ⟨hu.sync, fun j hj => (hu.same j hj).trans (hsame j hj), hdisk ▸ hu.disk⟩

/-- Storing in a held buffer and writing it. -/
theorem sat_save {f : FsM Bcache α} {Q : α → Fs Bcache → Prop} (hs : s.blk.Sync dev H D)
    (hi : i ∈ H) (hD : i ∉ D) (d : Block)
    (hf : ∀ t, t.blk.Sync dev H D → (∀ j, j ≠ i → t.blk.buf j = s.blk.buf j) →
      t.blk.disk = Function.update s.blk.disk (s.blk.buf i).blockno d → Sat f t Q) :
    Sat (bstore i d >>= fun _ => bwrite i >>= fun _ => f) s Q := by
  refine (sat_bstore hs hi d).bind fun _ t ht => ?_
  refine (sat_bwrite ht.1 hi).bind fun _ u hu => ?_
  obtain ⟨-, hbuf, hsame, hdisk⟩ := ht
  apply hf u
  · rw [← Finset.erase_insert hD]
    exact hu.1
  · intro j hj
    rw [hu.2.1]
    exact hsame j hj
  · rw [hu.2.2, hbuf, hdisk]

/-- Releasing the buffer that was read. -/
theorem sat_drop (s₀ : Fs Bcache) (hs : s.blk.Sync dev (insert i H) D) (hi : i ∉ H) (hD : D ⊆ H)
    (hsame : ∀ j ∈ H, s.blk.buf j = s₀.blk.buf j) (hR : R s₀.blk.disk s.blk.disk) :
    Sat (brelse i) s fun _ t => Settles dev H D R s₀ t := by
  refine (sat_brelse hs (Finset.mem_insert_self i H) fun h => hi (hD h)).mono fun _ t ht => ?_
  rw [Finset.erase_insert hi] at ht
  refine ⟨ht.1, fun j hj => ?_, ht.2.2 ▸ hR⟩
  exact (ht.2.1 j (ne_of_mem_of_not_mem hj hi)).trans (hsame j hj)

end Rules

theorem quiet_readGroupDesc : Quiet dev Eq (readGroupDesc dev) := by
  refine Quiet.hold fun i H D s hi hD hs _ => ?_
  refine sat_bdata.bind fun d t ht => ?_
  obtain ⟨-, rfl⟩ := ht
  refine (sat_drop _ hs hi hD (fun _ _ => rfl) rfl).bind fun _ t ht => ?_
  exact Sat.pure ht

theorem quiet_bzero : Quiet dev AnyDisk (bzero dev b) := by
  refine Quiet.hold fun i H D s hi hD hs _ => ?_
  refine sat_save hs (Finset.mem_insert_self i H) (fun h => hi (hD h)) _ fun t ht hsame _ => ?_
  exact sat_drop _ ht hi hD (fun j hj => hsame j (ne_of_mem_of_not_mem hj hi)) trivial

/-- **`balloc` writes** the bitmap and the block it returns. -/
theorem quiet_balloc : Quiet dev AnyDisk (balloc dev) := by
  apply Quiet.bind quiet_readGroupDesc.any
  intro gdesc
  refine Quiet.hold fun i H D s hi hD hs _ => ?_
  refine sat_bdata.bind fun bitmap t ht => ?_
  obtain ⟨-, rfl⟩ := ht
  refine Sat.get.bind fun s' t ht => ?_
  obtain ⟨rfl, rfl⟩ := ht
  refine sat_ofExcept.bind fun r t ht => ?_
  subst ht
  cases r with
  | none =>
    refine (sat_drop (R := AnyDisk) _ hs hi hD (fun _ _ => rfl) trivial).bind fun _ _ _ => ?_
    exact Sat.throw
  | some r =>
    refine sat_save hs (Finset.mem_insert_self i H) (fun h => hi (hD h)) _ fun t ht hsame _ => ?_
    -- the buffer of the bitmap is held while the block is zeroed
    refine (quiet_bzero _ _ t ht).bind fun _ u hu => ?_
    have hsame' : ∀ j ∈ H, u.blk.buf j = s.blk.buf j := fun j hj =>
      (hu.same j (Finset.mem_insert_of_mem hj)).trans (hsame j (ne_of_mem_of_not_mem hj hi))
    refine (sat_drop (R := AnyDisk) _ hu.sync hi hD hsame' trivial).bind fun _ v hv => ?_
    exact Sat.pure hv

/-- **`bfree` writes** the bitmap, where it clears a bit. -/
theorem quiet_bfree (y : UInt32) : Quiet dev Clears (bfree dev y) := by
  refine Quiet.hold fun i H D s hi hD hs _ => ?_
  refine sat_bdata.bind fun g t ht => ?_
  obtain ⟨-, rfl⟩ := ht
  refine (sat_bread hs).bind fun k t ht => ?_
  obtain ⟨⟨hk, ht⟩, hbuf, hsame, hdisk⟩ := ht
  refine sat_bdata.bind fun bitmap u hu => ?_
  obtain ⟨rfl, rfl⟩ := hu
  refine Sat.ite (fun _ => Sat.throw) fun _ => Sat.ite (fun _ => Sat.throw) fun _ => ?_
  have hkD : k ∉ D := fun h => hk (Finset.mem_insert_of_mem (hD h))
  refine sat_save ht (Finset.mem_insert_self k _) hkD _ fun u hu hsame' hdisk' => ?_
  have hclears : Clears s.blk.disk u.blk.disk := by
    intro b x hx
    rw [hdisk', hdisk, hbuf]
    by_cases hb : b = (GroupDesc.decode g).blockBitmap
    · subst hb
      rw [Function.update_self, Block.byte_put _ _ (by omega)]
      split
      · next hrange =>
        obtain rfl : x = (y - (GroupDesc.decode g).blockBitmap).toNat / 8 := by omega
        rw [hx, UInt8.zero_and]
      · exact hx
    · rw [Function.update_of_ne hb]
      exact hx
  refine (sat_drop (R := Clears) s hu hk (hD.trans (Finset.subset_insert i H)) (fun j hj => ?_)
    hclears).bind fun _ v hv => ?_
  · exact (hsame' j (ne_of_mem_of_not_mem hj hk)).trans (hsame j hj)
  · exact sat_drop _ hv.sync hi hD (fun j hj => hv.same j (Finset.mem_insert_of_mem hj)) hv.disk

/-- **`iupdate` writes** the record. -/
theorem quiet_iupdate {ip : Fin NINODE} (H D : Finset (Fin NBUF)) (s : Fs Bcache)
    (hs : s.blk.Sync dev H D) (hdev : (s.itable ip).dev = dev) :
    Sat (iupdate ip) s fun _ t => Settles dev H D AnyDisk s t := by
  unfold iupdate
  refine Sat.of_eq (bind_of_ok (getInode_apply s ip)) ?_
  rw [hdev]
  refine Quiet.bind quiet_readGroupDesc.any (fun gdes => ?_) H D s hs
  refine Quiet.hold fun i H D s hi hD hs _ => ?_
  refine sat_bdata.bind fun d t ht => ?_
  obtain ⟨-, rfl⟩ := ht
  refine sat_save hs (Finset.mem_insert_self i H) (fun h => hi (hD h)) _ fun t ht hsame _ => ?_
  exact sat_drop _ ht hi hD (fun j hj => hsame j (ne_of_mem_of_not_mem hj hi)) trivial

theorem sat_iget {inum : UInt32} : Sat (iget dev inum) s fun _ t => t.blk = s.blk := by
  intro ip t h
  rcases iget_cases h with ⟨-, -, -, rfl⟩ | ⟨-, rfl⟩
  · rfl
  · rfl

/-- **`ialloc` writes** the bitmap and the record. -/
theorem quiet_ialloc (type : InodeType) : Quiet dev AnyDisk (ialloc dev type) := by
  apply Quiet.bind quiet_readGroupDesc.any
  intro gdesc
  refine Quiet.hold fun i H D s hi hD hs _ => ?_
  have hiD : i ∉ D := fun h => hi (hD h)
  refine sat_bdata.bind fun bitmap t ht => ?_
  obtain ⟨-, rfl⟩ := ht
  refine Sat.get.bind fun s' t ht => ?_
  obtain ⟨rfl, rfl⟩ := ht
  refine sat_ofExcept.bind fun r t ht => ?_
  subst ht
  cases r with
  | none =>
    refine (sat_drop (R := AnyDisk) _ hs hi hD (fun _ _ => rfl) trivial).bind fun _ _ _ => ?_
    exact Sat.throw
  | some r =>
    -- the bitmap differs from the disk while the record is written
    refine (sat_bstore hs (Finset.mem_insert_self i H) _).bind fun _ t₁ h₁ => ?_
    refine (sat_bread h₁.1).bind fun k t₂ h₂ => ?_
    obtain ⟨⟨hk, h₂⟩, -, hsame₂, -⟩ := h₂
    refine sat_bdata.bind fun d t ht => ?_
    obtain ⟨-, rfl⟩ := ht
    have hkD : k ∉ insert i D := fun h => hk (Finset.insert_subset_insert i hD h)
    refine sat_save h₂ (Finset.mem_insert_self k _) hkD _ fun t₃ h₃ hsame₃ _ => ?_
    refine (sat_bwrite h₃ (Finset.mem_insert_of_mem (Finset.mem_insert_self i H))).bind
      fun _ t₄ h₄ => ?_
    rw [Finset.erase_insert hiD] at h₄
    have hsame₄ : ∀ j ∈ H, t₄.blk.buf j = s.blk.buf j := fun j hj => by
      have hjk : j ≠ k := fun h => hk (h ▸ Finset.mem_insert_of_mem hj)
      rw [h₄.2.1, hsame₃ j hjk, hsame₂ j (Finset.mem_insert_of_mem hj)]
      exact h₁.2.2.1 j (ne_of_mem_of_not_mem hj hi)
    refine (sat_drop (R := AnyDisk) t₄ h₄.1 hk (hD.trans (Finset.subset_insert i H))
      (fun _ _ => rfl) trivial).bind fun _ t₅ h₅ => ?_
    refine (sat_drop (R := AnyDisk) s h₅.sync hi hD (fun j hj => ?_) trivial).bind
      fun _ t₆ h₆ => ?_
    · exact (h₅.same j (Finset.mem_insert_of_mem hj)).trans (hsame₄ j hj)
    · refine sat_iget.mono fun _ u hu => ?_
      exact ⟨hu ▸ h₆.sync, fun j hj => by rw [hu]; exact h₆.same j hj, trivial⟩

/-! ### Reading through the index blocks -/

/-- The contents of the disk. -/
def Fs.onDisk (s : Fs Bcache) : Fs Store := { s with blk := ⟨s.blk.disk, []⟩ }

theorem sat_forM_brelse : ∀ (bps : List (Fin NBUF)) (s : Fs Bcache), bps.Nodup →
    s.blk.Sync dev bps.toFinset ∅ → Sat (forM bps brelse) s fun _ t =>
      t.blk.Sync dev ∅ ∅ ∧ t.blk.disk = s.blk.disk := by
  intro bps
  induction bps with
  | nil => intro s _ hs; exact Sat.pure ⟨hs, rfl⟩
  | cons i bps ih =>
    intro s hnd hs
    obtain ⟨hi, hnd⟩ := List.nodup_cons.mp hnd
    rw [List.forM_cons]
    rw [List.toFinset_cons] at hs
    have hi : i ∉ bps.toFinset := fun h => hi (List.mem_toFinset.mp h)
    refine (sat_drop (R := Eq) s hs hi (Finset.empty_subset _) (fun _ _ => rfl) rfl).bind
      fun _ t ht => ?_
    exact (ih t hnd ht.sync).mono fun _ u hu => ⟨hu.1, hu.2.trans ht.disk.symm⟩

/-- Going down a path on which all blocks are there. -/
theorem indexWalk_filled {s₀ : Fs Bcache} :
    ∀ (js : List (Fin NINDIRECT)) (a : UInt32) (bps : List (Fin NBUF)) (s : Fs Bcache), bps.Nodup →
      s.blk.Sync dev bps.toFinset ∅ → s.blk.disk = s₀.blk.disk →
      Forest.follow 0 s₀.onDisk.slot a js ≠ 0 →
      Sat (indexWalk balloc dev bps a (js.map Fin.val)) s fun r t =>
        r = Forest.follow 0 s₀.onDisk.slot a js ∧ t.blk.Sync dev ∅ ∅ ∧
          t.blk.disk = s₀.blk.disk := by
  intro js
  induction js with
  | nil =>
    intro a bps s hnd hs hdisk _
    refine (sat_forM_brelse bps s hnd hs).bind fun _ t ht => ?_
    exact Sat.pure ⟨rfl, ht.1, ht.2.trans hdisk⟩
  | cons j js ih =>
    intro a bps s hnd hs hdisk hne
    have ha : a ≠ 0 := fun ha => hne (by rw [ha, Forest.follow_null])
    rw [Forest.follow, if_neg ha] at hne ⊢
    refine (sat_bread hs).bind fun i t ht => ?_
    obtain ⟨⟨hi, ht⟩, hbuf, -, hdisk'⟩ := ht
    -- the slot is not 0, so nothing is stored in it
    have hword : (s.blk.disk a).word j = s₀.onDisk.slot a j := by
      rw [hdisk]
      rfl
    have hslot : Sat (indexSlot balloc dev i j) t fun r u => r = s₀.onDisk.slot a j ∧ t = u := by
      refine sat_bdata.bind fun d u hu => ?_
      obtain ⟨rfl, rfl⟩ := hu
      rw [hbuf, hword]
      refine Sat.ite (fun h0 => absurd ?_ hne) fun _ => Sat.pure ⟨rfl, rfl⟩
      rw [h0, Forest.follow_null]
    refine hslot.bind fun r u hu => ?_
    obtain ⟨rfl, rfl⟩ := hu
    refine ih _ (bps ++ [i]) t ?_ ?_ (hdisk'.trans hdisk) hne
    · refine hnd.append (List.nodup_singleton i) fun k hk hki => ?_
      rw [List.mem_singleton.mp hki] at hk
      exact hi (List.mem_toFinset.mpr hk)
    · rw [List.toFinset_append, List.toFinset_cons, List.toFinset_nil, Finset.union_insert,
        Finset.union_empty]
      exact ht

/-- What the functions that only read keep. -/
structure Unchanged (dev : UInt32) (s t : Fs Bcache) : Prop where
  sync : t.blk.Sync dev ∅ ∅
  disk : t.blk.disk = s.blk.disk
  itable : t.itable = s.itable

theorem Unchanged.trans {u : Fs Bcache} (h : Unchanged dev s t) (h' : Unchanged dev t u) :
    Unchanged dev s u :=
  ⟨h'.sync, h'.disk.trans h.disk, h'.itable.trans h.itable⟩

/-- Looking at a block. -/
theorem sat_look {f : Block → FsM Bcache α} {Q : α → Fs Bcache → Prop} (hs : s.blk.Sync dev ∅ ∅)
    (hf : ∀ t, Unchanged dev s t → Sat (f (s.blk.disk b)) t Q) :
    Sat (bread dev b >>= fun bp => bdata bp >>= fun d => brelse bp >>= fun _ => f d) s Q := by
  intro a v hrun
  obtain ⟨i, t, hread, hrun⟩ := bind_eq_ok.mp hrun
  obtain ⟨d, _, ⟨⟩, hrun⟩ := bind_eq_ok.mp hrun
  obtain ⟨_, u, hrelse, hrun⟩ := bind_eq_ok.mp hrun
  obtain ⟨⟨hi, ht⟩, hbuf, -, hdisk⟩ := sat_bread hs i t hread
  have hu := sat_drop (R := Eq) t ht hi (Finset.empty_subset _) (fun _ _ => rfl) rfl _ u hrelse
  refine hf u ⟨hu.sync, hu.disk.symm.trans hdisk, ?_⟩ a v ?_
  · exact (keeps_brelse i t _ u hrelse).trans (keeps_bread dev b s i t hread)
  · have hd : BlockLayer.data t.blk i = s.blk.disk b := congrArg Buf.data hbuf
    rw [← hd]
    exact hrun

/-- **`bmap` only reads** when the block is there. -/
theorem bmap_filled {ip : Fin NINODE} {bn : ℕ} (hs : s.blk.Sync dev ∅ ∅)
    (hdev : (s.itable ip).dev = dev) (hne : s.onDisk.node (dataKey ip bn) ≠ 0) :
    Sat (bmap ip bn) s fun a t => a = s.onDisk.node (dataKey ip bn) ∧ Unchanged dev s t := by
  by_cases hbn : bn < maxBlocks
  · refine Sat.of_eq (bmap_eq hbn) ?_
    have hroot : (s.itable ip).addrs (blockPath bn).1 ≠ 0 := fun h0 => hne (by
      show Forest.follow 0 s.onDisk.slot ((s.itable ip).addrs (blockPath bn).1) _ = 0
      rw [h0, Forest.follow_null])
    have hslot : Sat (addrSlot balloc ip (blockPath bn).1) s fun a t =>
        a = (s.itable ip).addrs (blockPath bn).1 ∧ s = t := by
      refine Sat.of_eq (bind_of_ok (getInode_apply s ip)) ?_
      rw [if_neg hroot]
      exact Sat.pure ⟨rfl, rfl⟩
    have hwalk : Sat (indexWalk balloc dev [] ((s.itable ip).addrs (blockPath bn).1)
        ((blockPath bn).2.map Fin.val)) s fun r t => r = s.onDisk.node (dataKey ip bn) ∧
          t.blk.Sync dev ∅ ∅ ∧ t.blk.disk = s.blk.disk :=
      indexWalk_filled _ _ [] s List.nodup_nil hs rfl hne
    refine hslot.bind fun a t ht => ?_
    obtain ⟨rfl, rfl⟩ := ht
    rw [hdev]
    intro r t hrun
    obtain ⟨hr, hsync, hdisk⟩ := hwalk r t hrun
    exact ⟨hr, hsync, hdisk, keeps_indexWalk dev _ [] _ s r t hrun⟩
  · -- the block number is out of range
    refine Sat.of_eq (bind_of_ok (getInode_apply s ip)) ?_
    have hout : NDIRECT + NINDIRECT + NDINDIRECT + NTINDIRECT ≤ bn := Nat.le_of_not_lt hbn
    rw [if_neg (by omega), if_neg (by omega), if_neg (by omega), if_neg (by omega)]
    exact Sat.throw

/-- A direct block is allocated without touching other buffers. -/
theorem bmap_direct {ip : Fin NINODE} {bn : ℕ} (hs : s.blk.Sync dev ∅ ∅)
    (hdev : (s.itable ip).dev = dev) (hbn : bn < NDIRECT) :
    Sat (bmap ip bn) s fun _ t => t.blk.Sync dev ∅ ∅ ∧ (t.itable ip).dev = dev ∧
      (t.itable ip).size = (s.itable ip).size := by
  refine Sat.of_eq (bind_of_ok (getInode_apply s ip)) ?_
  rw [if_pos hbn]
  refine Sat.of_eq (bind_of_ok (getInode_apply s ip)) ?_
  rw [hdev]
  refine Sat.ite (fun _ => ?_) fun _ => Sat.pure ⟨hs, hdev, rfl⟩
  intro a t hrun
  obtain ⟨addr, u, hballoc, hrun⟩ := bind_eq_ok.mp hrun
  obtain ⟨_, _, ⟨⟩, hrun⟩ := bind_eq_ok.mp hrun
  cases hrun
  have htable : u.itable = s.itable := keeps_balloc dev s a u hballoc
  refine ⟨(quiet_balloc ∅ ∅ s hs a u hballoc).sync, ?_, ?_⟩
  · simp [htable, hdev]
  · simp [htable]

/-! ### Reading files -/

/-- `bmap` changes nothing but direct blocks for the bytes from `lo` to `hi` of a file: all
of them are in direct blocks, or all of them have blocks. -/
def Fs.Mapped (s : Fs Bcache) (ip : Fin NINODE) (lo hi : ℕ) : Prop :=
  (∀ o, lo ≤ o → o < hi → o / BSIZE < NDIRECT) ∨
    ∀ o, lo ≤ o → o < hi → s.onDisk.node (dataKey ip (o / BSIZE)) ≠ 0

/-- What is kept while the bytes from `lo` to `hi` of a file are read. -/
structure Reading (dev : UInt32) (ip : Fin NINODE) (size : UInt32) (lo hi : ℕ)
    (I : Fs Bcache → Prop) : Prop where
  sync : ∀ s, I s → s.blk.Sync dev ∅ ∅ ∧ (s.itable ip).dev = dev ∧ (s.itable ip).size = size
  look : ∀ s t, I s → Unchanged dev s t → I t
  bmap : ∀ o s, lo ≤ o → o < hi → I s → Sat (bmap ip (o / BSIZE)) s fun _ t => I t

/-- Either way of being mapped is kept. -/
theorem Fs.Mapped.reading {ip : Fin NINODE} {lo hi : ℕ} (hmap : s.Mapped ip lo hi)
    (hs : s.blk.Sync dev ∅ ∅) (hdev : (s.itable ip).dev = dev) :
    ∃ I, I s ∧ Reading dev ip (s.itable ip).size lo hi I := by
  rcases hmap with hdirect | hfilled
  · refine ⟨fun t => t.blk.Sync dev ∅ ∅ ∧ (t.itable ip).dev = dev ∧
      (t.itable ip).size = (s.itable ip).size, ⟨hs, hdev, rfl⟩, fun t ht => ht, ?_, ?_⟩
    · intro t u ht hu
      rw [hu.itable]
      exact ⟨hu.sync, ht.2⟩
    · intro o t hlo hhi ht
      refine (bmap_direct ht.1 ht.2.1 (hdirect o hlo hhi)).mono fun _ u hu => ?_
      exact ⟨hu.1, hu.2.1, hu.2.2.trans ht.2.2⟩
  · refine ⟨Unchanged dev s, ⟨hs, rfl, rfl⟩, fun t ht => ?_, fun t u ht hu => ht.trans hu, ?_⟩
    · rw [ht.itable]
      exact ⟨ht.sync, hdev, rfl⟩
    · intro o t hlo hhi ht
      have hdisk : t.onDisk.node (dataKey ip (o / BSIZE)) =
          s.onDisk.node (dataKey ip (o / BSIZE)) := by
        unfold Fs.node Fs.slot Fs.onDisk
        rw [ht.itable, ht.disk]
      refine (bmap_filled ht.sync (by rw [ht.itable, hdev]) ?_).mono fun _ u hu => ht.trans hu.2
      rw [hdisk]
      exact hfilled o hlo hhi

section Reading

variable {ip : Fin NINODE} {size : UInt32} {lo hi : ℕ} {I : Fs Bcache → Prop}

/-- The loop of `readi` keeps what `bmap` keeps. -/
theorem Reading.readiLoop (hI : Reading dev ip size lo hi I) :
    ∀ (fuel off n : ℕ) (s : Fs Bcache), lo ≤ off → off + n ≤ hi → I s →
      Sat (readiLoop ip fuel off n) s fun _ t => I t := by
  intro fuel
  induction fuel with
  | zero =>
    intro off n s _ _ hs
    cases n with
    | zero => exact Sat.pure hs
    | succ n => exact Sat.throw
  | succ fuel ih =>
    intro off n s hlo hhi hs
    cases n with
    | zero => exact Sat.pure hs
    | succ n =>
      refine Sat.of_eq (bind_of_ok (getInode_apply s ip)) ?_
      rw [(hI.sync s hs).2.1]
      refine (hI.bmap off s hlo (by omega) hs).bind fun addr t ht => ?_
      refine sat_look (hI.sync t ht).1 fun u hu => ?_
      refine (ih _ _ u (by omega) (by omega) (hI.look t u ht hu)).bind fun rest v hv => ?_
      exact Sat.pure hv

/-- **`readi` keeps the cache in agreement with the disk** when `bmap` does on the way. -/
theorem Reading.readi (hI : Reading dev ip size lo hi I) {off n : UInt32} (hs : I s)
    (hlo : lo ≤ off.toNat) (hhi : min (off.toNat + n.toNat) size.toNat ≤ hi) :
    Sat (readi ip off n) s fun _ t => I t := by
  refine Sat.of_eq (bind_of_ok (getInode_apply s ip)) ?_
  rw [(hI.sync s hs).2.2]
  refine Sat.ite (fun _ => Sat.pure hs) fun hok => ?_
  have hrange : off.toNat + (if size < off + n then size - off else n).toNat ≤ hi := by
    simp only [not_or, UInt32.lt_iff_toNat_lt, UInt32.toNat_add, not_lt] at hok
    obtain ⟨hsize, hwrap⟩ := hok
    have hnowrap : (off.toNat + n.toNat) % 2 ^ 32 = off.toNat + n.toNat := by
      have := off.toNat_lt
      have := n.toNat_lt
      omega
    split
    · next hlt =>
      rw [UInt32.lt_iff_toNat_lt, UInt32.toNat_add, hnowrap] at hlt
      rw [UInt32.toNat_sub_of_le _ _ (UInt32.le_iff_toNat_le.mpr hsize)]
      omega
    · next hlt =>
      rw [UInt32.lt_iff_toNat_lt, UInt32.toNat_add, hnowrap] at hlt
      omega
  refine (hI.readiLoop _ _ _ s hlo hrange hs).bind fun bytes t ht => ?_
  exact Sat.pure ht

/-- The loop of `dirlookup` reads the directory.  The inode found is one that `iput` does
not truncate: it has another reference, or it has not been read. -/
theorem Reading.dirlookupLoop {name : ℕ → UInt8} (hI : Reading dev ip size 0 size.toNat I) :
    ∀ (fuel : ℕ) (fileName : ℕ → UInt8) (off : UInt32) (s : Fs Bcache), I s →
      Sat (dirlookupLoop ip name fuel fileName off) s fun r t => t.blk.Sync dev ∅ ∅ ∧
        ∀ e ∈ r, ¬((t.itable e.1).ref = 1 ∧ (t.itable e.1).valid = true) := by
  intro fuel
  induction fuel with
  | zero => intro fileName off s _; exact Sat.throw
  | succ fuel ih =>
    intro fileName off s hs
    refine Sat.of_eq (bind_of_ok (getInode_apply s ip)) ?_
    refine Sat.ite (fun hlt => ?_) fun _ => Sat.pure ⟨(hI.sync s hs).1, fun e he => by cases he⟩
    refine (hI.readi hs (Nat.zero_le _) (min_le_right _ _)).bind fun r t ht => ?_
    refine Sat.ite (fun _ => Sat.throw) fun _ => ?_
    refine Sat.ite (fun _ => ih _ _ t ht) fun _ => Sat.ite (fun _ => ?_) fun _ => ih _ _ t ht
    rw [(hI.sync s hs).2.1]
    intro r' u hrun
    obtain ⟨jp, v, higet, hrun⟩ := bind_eq_ok.mp hrun
    cases hrun
    refine ⟨sat_iget jp u higet ▸ (hI.sync t ht).1, fun e he => ?_⟩
    cases he
    rcases iget_cases higet with ⟨hpos, -, -, rfl⟩ | ⟨-, rfl⟩
    · rintro ⟨hone, -⟩
      simp only [Fs.itable_setItable, Function.update_self] at hone
      omega
    · rintro ⟨-, hvalid⟩
      simp at hvalid

end Reading

/-- **`dirlink` only reads** when the name is there. -/
theorem dirlink_found {fuel : ℕ} {dp : Fin NINODE} {name : ℕ → UInt8} {inum : UInt32}
    (hs : s.blk.Sync dev ∅ ∅) (hdev : (s.itable dp).dev = dev)
    (hmap : s.Mapped dp 0 (s.itable dp).size.toNat)
    (hfound : ∀ t, dirlookup fuel dp name s ≠ .ok (none, t)) :
    Sat (dirlink fuel dp name inum) s fun _ t => t.blk.Sync dev ∅ ∅ := by
  obtain ⟨I, hIs, hI⟩ := hmap.reading hs hdev
  have hlook : Sat (dirlookup fuel dp name) s fun r t => t.blk.Sync dev ∅ ∅ ∧
      ∀ e ∈ r, ¬((t.itable e.1).ref = 1 ∧ (t.itable e.1).valid = true) := by
    refine Sat.get.bind fun s' t ht => ?_
    obtain ⟨rfl, rfl⟩ := ht
    exact Sat.ite (fun _ => Sat.throw) fun _ => hI.dirlookupLoop fuel _ 0 s hIs
  intro n t hrun
  obtain ⟨r, u, hdir, hrun⟩ := bind_eq_ok.mp hrun
  obtain ⟨hu, hput⟩ := hlook r u hdir
  cases r with
  | none => exact absurd hdir (hfound u)
  | some e =>
    obtain ⟨_, v, hiput, hrun⟩ := bind_eq_ok.mp hrun
    cases hrun
    unfold iput at hiput
    rw [bind_of_ok (getInode_apply u e.1)] at hiput
    rw [if_neg fun h => hput e rfl ⟨h.1, h.2.1⟩] at hiput
    cases hiput
    exact hu

/-! ### Writing what is there -/

/-- The bytes of a file from `off` on have blocks and are already those at the source. -/
def Fs.Holds (s : Fs Bcache) (ip : Fin NINODE) (mem : ℕ → UInt8) (off n : ℕ) : Prop :=
  ∀ x < n, s.onDisk.node (dataKey ip ((off + x) / BSIZE)) ≠ 0 ∧
    s.onDisk.fileByte ip (off + x) = mem x

theorem Block.put_self {d : Block} {o n : ℕ} {f : ℕ → UInt8} (hon : o + n ≤ BSIZE)
    (h : ∀ x < n, f x = d.byte (o + x)) : d.put o n f = d := by
  refine Block.ext fun i _ => ?_
  rw [Block.byte_put d f hon]
  split
  · next hi =>
    rw [h (i - o) (by omega), Nat.add_sub_of_le hi.1]
  · rfl

/-- A position in the same block. -/
theorem add_div_mod {o x : ℕ} (h : o % BSIZE + x < BSIZE) :
    (o + x) / BSIZE = o / BSIZE ∧ (o + x) % BSIZE = o % BSIZE + x := by
  simp only [BSIZE] at *
  omega

/-- Storing what is there. -/
theorem sat_bstore_self {d : Block} (h : d = (s.blk.buf i).data) :
    Sat (bstore i d) s fun _ t => s = t := by
  intro _ t hrun
  subst h
  cases hrun
  have hblk : BlockLayer.store i (s.blk.buf i).data s.blk = s.blk := setBuf_data
  rw [hblk]

/-- The loop of `writei` changes nothing when the bytes are there. -/
theorem writeiLoop_holds {ip : Fin NINODE} {src : CopySrc} {s₀ : Fs Bcache}
    (hdev : (s₀.itable ip).dev = dev) :
    ∀ (fuel tot off n : ℕ) (s : Fs Bcache), Unchanged dev s₀ s →
      s₀.Holds ip (fun x => src.mem (tot + x)) off n →
      Sat (writeiLoop ip src fuel tot off n) s fun _ t => Unchanged dev s₀ t := by
  intro fuel
  induction fuel with
  | zero =>
    intro tot off n s hs _
    cases n with
    | zero => exact Sat.pure hs
    | succ n => exact Sat.throw
  | succ fuel ih =>
    intro tot off n s hs hholds
    cases n with
    | zero => exact Sat.pure hs
    | succ n =>
      have hsame : s.onDisk.node = s₀.onDisk.node := by
        unfold Fs.node Fs.slot Fs.onDisk
        rw [hs.itable, hs.disk]
      have hnode := (hholds 0 n.succ_pos).1
      rw [Nat.add_zero, ← hsame] at hnode
      refine Sat.of_eq (bind_of_ok (getInode_apply s ip)) ?_
      have hdev' : (s.itable ip).dev = dev := by rw [hs.itable, hdev]
      rw [hdev']
      refine (bmap_filled hs.sync hdev' hnode).bind fun addr t ht => ?_
      obtain ⟨rfl, ht⟩ := ht
      have ht := hs.trans ht
      rw [if_neg hnode]
      intro r w hrun
      obtain ⟨k, u, hread, hrun⟩ := bind_eq_ok.mp hrun
      obtain ⟨⟨hk, hu⟩, hbuf, -, hdisk⟩ := sat_bread ht.sync k u hread
      obtain ⟨d, _, ⟨⟩, hrun⟩ := bind_eq_ok.mp hrun
      -- the bytes copied are the ones the block has
      have hdata : BlockLayer.data u.blk k = s₀.blk.disk
        (s.onDisk.node (dataKey ip (off / BSIZE))) :=
        (congrArg Buf.data hbuf).trans (by rw [ht.disk])
      have hput : ∀ c ≤ min (n + 1) (BSIZE - off % BSIZE), (BlockLayer.data u.blk k).put
          (off % BSIZE) c (fun x => src.mem (tot + x)) = (u.blk.buf k).data := by
        intro c hc
        have hmod : off % BSIZE < BSIZE := Nat.mod_lt _ (by decide)
        refine Block.put_self (by omega) fun x hx => ?_
        obtain ⟨hne, hbyte⟩ := hholds x (by omega)
        have hdiv := add_div_mod (show off % BSIZE + x < BSIZE by omega)
        rw [hdiv.1] at hne
        refine hbyte.symm.trans ?_
        rw [Fs.fileByte, Fs.leafBlock, hdiv.1, hdiv.2, if_neg hne, hdata, hsame]
        rfl
      -- so the buffer can be released
      have hdrop : ∀ c ≤ min (n + 1) (BSIZE - off % BSIZE), ∀ (f : FsM Bcache ℕ) r w,
          (bstore k ((BlockLayer.data u.blk k).put (off % BSIZE) c fun x => src.mem (tot + x)) >>=
            fun _ => brelse k >>= fun _ => f) u = .ok (r, w) →
          ∃ v, Unchanged dev s₀ v ∧ f v = .ok (r, w) := by
        intro c hc f r w hrun
        obtain ⟨_, v, hstore, hrun⟩ := bind_eq_ok.mp hrun
        obtain rfl := sat_bstore_self (hput c hc) _ v hstore
        obtain ⟨_, v, hrelse, hrun⟩ := bind_eq_ok.mp hrun
        have hv := sat_drop (R := Eq) u hu hk (Finset.empty_subset _)
          (fun _ _ => rfl) rfl _ v hrelse
        have htable : v.itable = t.itable :=
          (keeps_brelse k u _ v hrelse).trans (keeps_bread dev _ t k u hread)
        exact ⟨v, ht.trans ⟨hv.sync, hv.disk.symm.trans hdisk, htable⟩, hrun⟩
      cases hfails : src.fails tot (min (n + 1) (BSIZE - off % BSIZE)) with
      | some c =>
        simp only [hfails] at hrun
        obtain ⟨v, hv, hrun⟩ := hdrop _ (min_le_right c _) _ r w hrun
        cases hrun
        exact hv
      | none =>
        simp only [hfails] at hrun
        obtain ⟨v, hv, hrun⟩ := hdrop _ le_rfl _ r w hrun
        refine ih _ _ _ v hv (fun x hx => ?_) r w hrun
        have hx := hholds (min (n + 1) (BSIZE - off % BSIZE) + x) (by omega)
        rw [← Nat.add_assoc] at hx
        exact ⟨hx.1, hx.2.trans (congrArg src.mem (Nat.add_assoc tot _ x).symm)⟩

/-- **`writei` leaves the cache in agreement with the disk** when it is refused, and when
the bytes are there already. -/
theorem writei_holds {ip : Fin NINODE} {src : CopySrc} {off n : UInt32}
    (hs : s.blk.Sync dev ∅ ∅) (hdev : (s.itable ip).dev = dev)
    (h : ((s.itable ip).size < off ∨ off + n < off) ∨ MAXFILE * BSIZE < (off + n).toNat ∨
      s.Holds ip src.mem off.toNat n.toNat) :
    Sat (writei ip src off n) s fun _ t => t.blk.Sync dev ∅ ∅ := by
  refine Sat.of_eq (bind_of_ok (getInode_apply s ip)) ?_
  refine Sat.ite (fun _ => Sat.pure hs) fun hok => ?_
  refine Sat.ite (fun _ => Sat.pure hs) fun hbig => ?_
  have hholds := (h.resolve_left hok).resolve_left hbig
  have hloop : Sat (writeiLoop ip src n.toNat 0 off.toNat n.toNat) s fun _ t => Unchanged dev s t :=
    writeiLoop_holds hdev _ 0 _ _ s ⟨hs, rfl, rfl⟩ (by simpa using hholds)
  refine hloop.bind fun tot t ht => ?_
  intro r w hrun
  obtain ⟨_, u, hset, hrun⟩ := bind_eq_ok.mp hrun
  have hu : u.blk.Sync dev ∅ ∅ ∧ (u.itable ip).dev = dev := by
    cases hset
    exact ⟨ht.sync, by simp [ht.itable, hdev]⟩
  obtain ⟨_, v, hupdate, hrun⟩ := bind_eq_ok.mp hrun
  cases hrun
  exact (quiet_iupdate ∅ ∅ u hu.1 hu.2 _ w hupdate).sync

/-! ### Truncating -/

/-- There are no blocks below the index blocks of an inode. -/
def Fs.NoIndexed (s : Fs Bcache) (ip : Fin NINODE) : Prop :=
  ∀ k : Fin 15, NDIRECT ≤ k.val → (s.itable ip).addrs k = 0 ∨
    s.blk.disk ((s.itable ip).addrs k) = Block.zero

theorem Clears.zero {d d' : UInt32 → Block} (h : Clears d d') {b : UInt32}
    (hb : d b = Block.zero) : d' b = Block.zero := by
  refine Block.ext fun x _ => ?_
  rw [h b x (by rw [hb, Block.byte_zero]), Block.byte_zero]

/-- An index block without entries is read and freed. -/
theorem freeTree_zero {depth : ℕ} (hs : s.blk.Sync dev ∅ ∅)
    (hb : depth ≠ 0 → s.blk.disk b = Block.zero) :
    Sat (freeTree bfree dev depth b) s fun _ t => Settles dev ∅ ∅ Clears s t := by
  cases depth with
  | zero => exact quiet_bfree b ∅ ∅ s hs
  | succ depth =>
    have hb := hb (Nat.succ_ne_zero depth)
    refine (sat_bread hs).bind fun i t ht => ?_
    obtain ⟨⟨hi, ht⟩, hbuf, -, hdisk⟩ := ht
    have hdata : (t.blk.buf i).data = Block.zero := by rw [hbuf]; exact hb
    refine Sat.bind (Sat.forM (I := fun u => t = u) _ t rfl fun j _ u hu => ?_) fun _ u hu => ?_
    · subst hu
      refine sat_bdata.bind fun a v hv => ?_
      obtain ⟨rfl, rfl⟩ := hv
      rw [hdata, if_pos (Block.word_zero j)]
      exact Sat.pure rfl
    · subst hu
      refine (sat_drop (R := Eq) t ht hi (Finset.empty_subset _) (fun _ _ => rfl) rfl).bind
        fun _ u hu => ?_
      refine (quiet_bfree b ∅ ∅ u hu.sync).mono fun _ v hv => ?_
      exact ⟨hv.sync, fun j hj => absurd hj (Finset.notMem_empty j), hdisk ▸ hu.disk ▸ hv.disk⟩

/-- **`itrunc` leaves the cache in agreement with the disk** when there are no blocks below
the index blocks. -/
theorem itrunc_noIndexed {ip : Fin NINODE} (hs : s.blk.Sync dev ∅ ∅)
    (hdev : (s.itable ip).dev = dev) (hno : s.NoIndexed ip) :
    Sat (itrunc ip) s fun _ t => t.blk.Sync dev ∅ ∅ := by
  have hloop : Sat (forM (List.finRange 15) (truncAddr bfree ip)) s fun _ t =>
      t.blk.Sync dev ∅ ∅ ∧ (t.itable ip).dev = dev ∧ t.NoIndexed ip := by
    refine Sat.forM (I := fun t => t.blk.Sync dev ∅ ∅ ∧ (t.itable ip).dev = dev ∧
      t.NoIndexed ip) _ s
      ⟨hs, hdev, hno⟩ fun k _ t ht => ?_
    obtain ⟨ht, hdev, hno⟩ := ht
    refine Sat.of_eq (bind_of_ok (getInode_apply t ip)) ?_
    refine Sat.ite (fun _ => Sat.pure ⟨ht, hdev, hno⟩) fun hne => ?_
    rw [hdev]
    intro _ v hrun
    obtain ⟨_, u, hfree, hrun⟩ := bind_eq_ok.mp hrun
    cases hrun
    have htable : u.itable = t.itable := keeps_freeTree dev _ _ t _ u hfree
    have hu := freeTree_zero ht (fun hk => (hno k (by
      unfold indexDepth at hk
      simp only [NDIRECT]
      omega)).resolve_left hne) _ u hfree
    refine ⟨hu.sync, ?_, fun j hj => ?_⟩
    · simp [htable, hdev]
    · by_cases hjk : j = k
      · subst hjk
        simp
      · rcases hno j hj with h0 | hz
        · exact Or.inl (by simp [hjk, htable, h0])
        · exact Or.inr (by simpa [hjk, htable] using hu.disk.zero hz)
  refine hloop.bind fun _ t ht => ?_
  intro _ v hrun
  obtain ⟨_, u, hset, hrun⟩ := bind_eq_ok.mp hrun
  have hu : u.blk.Sync dev ∅ ∅ ∧ (u.itable ip).dev = dev := by
    cases hset
    exact ⟨ht.1, by simp [ht.2.1]⟩
  exact (quiet_iupdate ∅ ∅ u hu.1 hu.2 _ v hrun).sync

/-! ### Runs of operations -/

/-- The operations of the file system. -/
inductive FsOp
  | readi (ip : Fin NINODE) (off n : UInt32)
  | writei (ip : Fin NINODE) (src : CopySrc) (off n : UInt32)
  | bmap (ip : Fin NINODE) (bn : ℕ)
  | itrunc (ip : Fin NINODE)
  | balloc
  | bfree (b : UInt32)
  | ialloc (type : InodeType)
  | iupdate (ip : Fin NINODE)
  | dirlink (fuel : ℕ) (dp : Fin NINODE) (name : ℕ → UInt8) (inum : UInt32)

namespace FsOp

/-- Run an operation and forget the result. -/
def run : FsOp → FsM Bcache Unit
  | readi ip off n => do let _ ← Xv6Ext2.readi ip off n; return ()
  | writei ip src off n => do let _ ← Xv6Ext2.writei ip src off n; return ()
  | bmap ip bn => do let _ ← Xv6Ext2.bmap ip bn; return ()
  | itrunc ip => Xv6Ext2.itrunc ip
  | balloc => do let _ ← Xv6Ext2.balloc ROOTDEV; return ()
  | bfree b => Xv6Ext2.bfree ROOTDEV b
  | ialloc type => do let _ ← Xv6Ext2.ialloc ROOTDEV type; return ()
  | iupdate ip => Xv6Ext2.iupdate ip
  | dirlink fuel dp name inum => do let _ ← Xv6Ext2.dirlink fuel dp name inum; return ()

/-- The inode is one of the root device, the only one there is. -/
def OnRoot (s : Fs Bcache) : FsOp → Prop
  | readi ip _ _ | writei ip _ _ _ | bmap ip _ | itrunc ip | iupdate ip | dirlink _ ip _ _ =>
    (s.itable ip).dev = ROOTDEV
  | balloc | bfree _ | ialloc _ => True

/-- The operation writes all it changes to disk. -/
def Written (s : Fs Bcache) : FsOp → Prop
  | readi ip off n =>
    off + n < off ∨ s.Mapped ip off.toNat (min (off.toNat + n.toNat) (s.itable ip).size.toNat)
  | writei ip src off n =>
    ((s.itable ip).size < off ∨ off + n < off) ∨ MAXFILE * BSIZE < (off + n).toNat ∨
      s.Holds ip src.mem off.toNat n.toNat
  | bmap ip bn => bn < NDIRECT ∨ s.onDisk.node (dataKey ip bn) ≠ 0
  | itrunc ip => s.NoIndexed ip
  | dirlink fuel dp name _ => s.Mapped dp 0 (s.itable dp).size.toNat ∧
    ∀ t, dirlookup fuel dp name s ≠ .ok (none, t)
  | balloc | bfree _ | ialloc _ | iupdate _ => True

/-- Forgetting the result. -/
theorem sat_forget {m : FsM Bcache α} {Q : Fs Bcache → Prop} (h : Sat m s fun _ t => Q t) :
    Sat (do let _ ← m; return ()) s fun _ t => Q t :=
  h.bind fun _ _ ht => Sat.pure ht

/-- **An operation that writes all it changes** leaves the cache in agreement with the
disk. -/
theorem sync_run {o : FsOp} (hs : s.blk.Sync ROOTDEV ∅ ∅) (hroot : o.OnRoot s)
    (hw : o.Written s) : Sat o.run s fun _ t => t.blk.Sync ROOTDEV ∅ ∅ := by
  cases o with
  | readi ip off n =>
    apply sat_forget
    rcases hw with hwrap | hmap
    · refine Sat.of_eq (bind_of_ok (getInode_apply s ip)) ?_
      rw [if_pos (Or.inr hwrap)]
      exact Sat.pure hs
    · obtain ⟨I, hIs, hI⟩ := hmap.reading hs hroot
      exact (hI.readi hIs le_rfl le_rfl).mono fun _ t ht => (hI.sync t ht).1
  | writei ip src off n => exact sat_forget (writei_holds hs hroot hw)
  | bmap ip bn =>
    apply sat_forget
    rcases hw with hbn | hne
    · exact (bmap_direct hs hroot hbn).mono fun _ _ ht => ht.1
    · exact (bmap_filled hs hroot hne).mono fun _ _ ht => ht.2.sync
  | itrunc ip => exact itrunc_noIndexed hs hroot hw
  | balloc => exact sat_forget ((quiet_balloc ∅ ∅ s hs).mono fun _ _ ht => ht.sync)
  | bfree b => exact (quiet_bfree b ∅ ∅ s hs).mono fun _ _ ht => ht.sync
  | ialloc type => exact sat_forget ((quiet_ialloc type ∅ ∅ s hs).mono fun _ _ ht => ht.sync)
  | iupdate ip => exact (quiet_iupdate ∅ ∅ s hs hroot).mono fun _ _ ht => ht.sync
  | dirlink fuel dp name inum => exact sat_forget (dirlink_found hs hroot hw.1 hw.2)

end FsOp

/-- Runs of operations from an empty cache.  Between the operations the rest of the kernel
may do as it likes with the inode table. -/
inductive CacheRuns (disk : UInt32 → Block) (Allowed : Fs Bcache → FsOp → Prop) : Fs Bcache → Prop
  | boot (sb : Superblock) (itable : Fin NINODE → Inode) (junk : List UInt8) :
    CacheRuns disk Allowed ⟨sb, itable, binit disk, junk⟩
  | kernel {s : Fs Bcache} (sb : Superblock) (itable : Fin NINODE → Inode) (junk : List UInt8) :
    CacheRuns disk Allowed s → CacheRuns disk Allowed ⟨sb, itable, s.blk, junk⟩
  | op {s t : Fs Bcache} (hruns : CacheRuns disk Allowed s) (o : FsOp) (hroot : o.OnRoot s)
    (hallowed : Allowed s o) (hrun : o.run s = .ok ((), t)) : CacheRuns disk Allowed t

/-- Every buffer that is valid and not in use holds the bytes of its block. -/
def Bcache.Coherent (c : Bcache) : Prop :=
  ∀ i, (c.buf i).valid = true → (c.buf i).refcnt = 0 → (c.buf i).data = c.disk (c.buf i).blockno

theorem CacheRuns.sync {disk : UInt32 → Block}
    (h : CacheRuns disk (fun s o => o.Written s) s) : s.blk.Sync ROOTDEV ∅ ∅ := by
  induction h with
  | boot sb itable junk => exact sync_binit (by decide)
  | kernel sb itable junk _ ih => exact ih
  | op _ o hroot hw hrun ih => exact FsOp.sync_run ih hroot hw () _ hrun

/-- **The cache agrees with the disk** after every run of operations that write all they
change, and reading a block returns what is on disk. -/
theorem coherent_of_runs {disk : UInt32 → Block}
    (h : CacheRuns disk (fun s o => o.Written s) s) : s.blk.Coherent ∧
      ∀ b i t, bread ROOTDEV b s = .ok (i, t) → (t.blk.buf i).data = s.blk.disk b := by
  have hs := h.sync
  refine ⟨fun i hv _ => hs.data i hv (Finset.notMem_empty i), fun b i t hrun => ?_⟩
  exact congrArg Buf.data (sat_bread hs i t hrun).2.1

/-- A block store behind an empty cache. -/
def cached (fs : Fs Store) : Fs Bcache := ⟨fs.sb, fs.itable, binit fs.blk.content, fs.junk⟩

theorem CacheRuns.cached {Allowed : Fs Bcache → FsOp → Prop} (fs : Fs Store) :
    CacheRuns fs.blk.content Allowed (cached fs) :=
  CacheRuns.boot fs.sb fs.itable fs.junk

/-- A file of one block is read and an inode is allocated. -/
theorem coherent_openImage : ∃ s,
    (CacheRuns (openImage [9]).blk.content (fun s o => o.Written s) s ∧
      ∃ i, (s.blk.buf i).valid = true ∧ (s.blk.buf i).blockno = 9) ∧ s.blk.Coherent := by
  have hrun : ((do
      (FsOp.readi 0 0 100).run
      (FsOp.ialloc .file).run
      let s ← get
      return decide (∃ i, (s.blk.buf i).valid = true ∧ (s.blk.buf i).blockno = 9) :
        FsM Bcache Bool) (cached (openImage [9]))).map Prod.fst = .ok true := by decide +kernel
  obtain ⟨v, hrun⟩ := exists_of_map_fst hrun
  obtain ⟨_, s, hread, hrun⟩ := bind_eq_ok.mp hrun
  obtain ⟨_, t, halloc, hrun⟩ := bind_eq_ok.mp hrun
  obtain ⟨_, _, ⟨⟩, hrun⟩ := bind_eq_ok.mp hrun
  injection hrun with hrun
  have hmap : (FsOp.readi 0 0 100).Written (cached (openImage [9])) := by
    refine Or.inr (Or.inl fun o _ hhi => ?_)
    have hsize : ((cached (openImage [9])).itable 0).size.toNat = 100 := rfl
    rw [hsize] at hhi
    simp only [BSIZE, NDIRECT]
    omega
  have hruns := (CacheRuns.cached (openImage [9])).op (.readi 0 0 100) rfl hmap hread
  have hruns := hruns.op (.ialloc .file) trivial trivial halloc
  exact ⟨t, ⟨hruns, of_decide_eq_true (congrArg Prod.fst hrun)⟩, (coherent_of_runs hruns).1⟩

/-- **A byte written to a file** is in the cache and not on disk when the operation is
over. -/
theorem write_not_coherent : ∃ s, CacheRuns (openImage [9]).blk.content (fun _ _ => True) s ∧
    ¬s.blk.Coherent := by
  have hrun : ((do
      (FsOp.writei 0 (kernelSrc fun _ => 1) 0 1).run
      let s ← get
      return decide (∃ i, (s.blk.buf i).valid = true ∧ (s.blk.buf i).refcnt = 0 ∧
        (s.blk.buf i).data.byte 0 ≠ (s.blk.disk (s.blk.buf i).blockno).byte 0) :
        FsM Bcache Bool) (cached (openImage [9]))).map Prod.fst = .ok true := by decide +kernel
  obtain ⟨v, hrun⟩ := exists_of_map_fst hrun
  obtain ⟨_, s, hwrite, hrun⟩ := bind_eq_ok.mp hrun
  obtain ⟨_, _, ⟨⟩, hrun⟩ := bind_eq_ok.mp hrun
  injection hrun with hrun
  obtain ⟨i, hv, hfree, hne⟩ := of_decide_eq_true (congrArg Prod.fst hrun)
  have hruns : CacheRuns (openImage [9]).blk.content (fun _ _ => True) s :=
    (CacheRuns.cached (openImage [9])).op (.writei 0 (kernelSrc fun _ => 1) 0 1) rfl trivial hwrite
  refine ⟨s, hruns, fun hco => hne ?_⟩
  rw [hco i hv hfree]

end Xv6Ext2
