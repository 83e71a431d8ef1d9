import Xv6Ext2.Itrunc

/-!
# What the functions do to the inode table

The functions that move bytes between a file and its blocks change the table of
in-memory inodes at one entry at most, and there neither the number of references
nor the identity of the inode.  Moving data changes no more than the size and the
addresses.  `iput` drops a reference.  These frame conditions hold over every block
layer.

## Main definitions

* `SameTable` — the inode table is as it was.
* `Within ip` — the table is as it was but for the contents of the entry `ip`.
* `SameHead ip` — the table is as it was but for the size and the addresses of `ip`.
* `AllowsData ip R` — the frame condition `R` allows what moving data changes.

## Main results

* `keeps_balloc`, `keeps_bfree`, `keeps_iupdate`, `keeps_freeTree` — functions that
  do not touch the table.
* `AllowsData.bmap`, `AllowsData.readi`, `AllowsData.writeiLoop` — moving data keeps every
  such condition.
* `head_readi`, `head_writei`, `head_itrunc` — functions that change the size as well.
* `within_ilock`, `within_iunlock`, `within_rootilock` — functions that stay within one
  entry.
* `iput_cases`, `iput_frame` — what `iput` does to the table.
-/

namespace Xv6Ext2

open Function Prog

variable {σ β : Type} [BlockLayer σ β] {α : Type}

/-! ### Functions that do not touch the table -/

/-- The inode table is as it was. -/
def SameTable (s t : Fs σ) : Prop := t.itable = s.itable

instance : Std.Refl (@SameTable σ) := ⟨fun _ => rfl⟩

instance : IsTrans (Fs σ) SameTable := ⟨fun _ _ _ h h' => h'.trans h⟩

theorem keeps_onBlk (f : σ → Except Err (α × σ)) : Keeps SameTable (FsM.onBlk f) := by
  intro s a t h
  unfold FsM.onBlk at h
  split at h
  · cases h
    rfl
  · cases h

theorem keeps_ofExcept (x : Except Err α) : Keeps SameTable (FsM.ofExcept x : FsM σ α) := by
  intro s a t h
  unfold FsM.ofExcept at h
  split at h
  · cases h
    rfl
  · cases h

theorem keeps_bread (dev b : UInt32) : Keeps SameTable (bread dev b : FsM σ β) := keeps_onBlk _

theorem keeps_bdata (bp : β) : Keeps SameTable (bdata bp : FsM σ Block) := by
  intro s a t h
  cases h
  rfl

theorem keeps_bstore (bp : β) (d : Block) : Keeps SameTable (bstore bp d : FsM σ Unit) := by
  intro s a t h
  cases h
  rfl

theorem keeps_bwrite (bp : β) : Keeps SameTable (bwrite bp : FsM σ Unit) := keeps_onBlk _

theorem keeps_brelse (bp : β) : Keeps SameTable (brelse bp : FsM σ Unit) := keeps_onBlk _

theorem keeps_getInode (ip : Fin NINODE) : Keeps SameTable (getInode ip : FsM σ Inode) := by
  intro s a t h
  cases h
  rfl

theorem keeps_readGroupDesc (dev : UInt32) :
    Keeps SameTable (readGroupDesc dev : FsM σ GroupDesc) :=
  (keeps_bread dev 2).bind fun bp => (keeps_bdata bp).bind fun _ =>
    (keeps_brelse bp).bind fun _ => Keeps.pure _

theorem keeps_bzero (dev b : UInt32) : Keeps SameTable (bzero dev b : FsM σ Unit) :=
  (keeps_bread dev b).bind fun bp => (keeps_bstore bp _).bind fun _ =>
    (keeps_bwrite bp).bind fun _ => keeps_brelse bp

theorem keeps_balloc (dev : UInt32) : Keeps SameTable (balloc dev : FsM σ UInt32) := by
  refine (keeps_readGroupDesc dev).bind fun gdesc => ?_
  refine (keeps_bread dev _).bind fun bp => (keeps_bdata bp).bind fun bitmap => ?_
  refine Keeps.get.bind fun s => (keeps_ofExcept _).bind fun r => ?_
  cases r with
  | none => exact (keeps_brelse bp).bind fun _ => Keeps.throw _
  | some r =>
    refine (keeps_bstore bp _).bind fun _ => (keeps_bwrite bp).bind fun _ => ?_
    exact (keeps_bzero dev _).bind fun _ => (keeps_brelse bp).bind fun _ => Keeps.pure _

theorem keeps_bfree (dev b : UInt32) : Keeps SameTable (bfree dev b : FsM σ Unit) := by
  refine (keeps_bread dev 2).bind fun bp₁ => (keeps_bdata bp₁).bind fun d => ?_
  refine (keeps_bread dev _).bind fun bp₂ => (keeps_bdata bp₂).bind fun bitmap => ?_
  refine Keeps.ite (Keeps.throw _) (Keeps.ite (Keeps.throw _) ?_)
  refine (keeps_bstore bp₂ _).bind fun _ => (keeps_bwrite bp₂).bind fun _ => ?_
  exact (keeps_brelse bp₂).bind fun _ => keeps_brelse bp₁

theorem keeps_iupdate (ip : Fin NINODE) : Keeps SameTable (iupdate ip : FsM σ Unit) := by
  refine (keeps_getInode ip).bind fun i => (keeps_readGroupDesc _).bind fun gdes => ?_
  refine (keeps_bread _ _).bind fun bp => (keeps_bdata bp).bind fun d => ?_
  exact (keeps_bstore bp _).bind fun _ => (keeps_bwrite bp).bind fun _ => keeps_brelse bp

theorem keeps_freeTree (dev : UInt32) :
    ∀ (depth : ℕ) (b : UInt32), Keeps SameTable (freeTree bfree dev depth b : FsM σ Unit) := by
  intro depth
  induction depth with
  | zero => intro b; exact keeps_bfree dev b
  | succ depth ih =>
    intro b
    refine (keeps_bread dev b).bind fun bp => Keeps.bind (Keeps.forM _ fun i _ => ?_) fun _ =>
      (keeps_brelse bp).bind fun _ => keeps_bfree dev b
    refine (keeps_bdata bp).bind fun a => Keeps.ite (Keeps.pure _) ?_
    exact (ih _).bind fun _ => (keeps_bdata bp).bind fun _ => keeps_bstore bp _

/-! ### Functions that stay within one entry -/

/-- The inode table is as it was but for the entry `ip`, which is still the same
inode with as many references. -/
structure Within (ip : Fin NINODE) (s t : Fs σ) : Prop where
  other : ∀ ip', ip' ≠ ip → t.itable ip' = s.itable ip'
  ref : (t.itable ip).ref = (s.itable ip).ref
  inum : (t.itable ip).inum = (s.itable ip).inum
  dev : (t.itable ip).dev = (s.itable ip).dev

instance (ip : Fin NINODE) : Std.Refl (@Within σ ip) :=
  ⟨fun _ => ⟨fun _ _ => rfl, rfl, rfl, rfl⟩⟩

instance (ip : Fin NINODE) : IsTrans (Fs σ) (Within ip) :=
  ⟨fun _ _ _ h h' => ⟨fun ip' hne => (h'.other ip' hne).trans (h.other ip' hne),
    h'.ref.trans h.ref, h'.inum.trans h.inum, h'.dev.trans h.dev⟩⟩

variable {ip : Fin NINODE}

theorem Within.of_same {m : FsM σ α} (h : Keeps SameTable m) : Keeps (Within ip) m := by
  intro s a t hm
  have hsame : t.itable = s.itable := h s a t hm
  exact ⟨fun _ _ => by rw [hsame], by rw [hsame], by rw [hsame], by rw [hsame]⟩

theorem within_setInode {f : Inode → Inode} (href : ∀ i, (f i).ref = i.ref)
    (hinum : ∀ i, (f i).inum = i.inum) (hdev : ∀ i, (f i).dev = i.dev) :
    Keeps (Within ip) (setInode ip f : FsM σ Unit) := by
  intro s a t h
  cases h
  refine ⟨fun ip' hne => ?_, ?_, ?_, ?_⟩ <;> rw [Fs.itable_setItable]
  · rw [update_of_ne hne]
  · rw [update_self]
    exact href _
  · rw [update_self]
    exact hinum _
  · rw [update_self]
    exact hdev _

/-! ### Functions that move data -/

/-- An inode without the fields that say where its data is. -/
def Inode.head (i : Inode) : Inode := { i with size := 0, addrs := fun _ => 0 }

/-- The inode table is as it was but for the size and the addresses of the entry `ip`. -/
structure SameHead (ip : Fin NINODE) (s t : Fs σ) : Prop where
  other : ∀ ip', ip' ≠ ip → t.itable ip' = s.itable ip'
  head : (t.itable ip).head = (s.itable ip).head

instance (ip : Fin NINODE) : Std.Refl (@SameHead σ ip) := ⟨fun _ => ⟨fun _ _ => rfl, rfl⟩⟩

instance (ip : Fin NINODE) : IsTrans (Fs σ) (SameHead ip) :=
  ⟨fun _ _ _ h h' => ⟨fun ip' hne => (h'.other ip' hne).trans (h.other ip' hne),
    h'.head.trans h.head⟩⟩

theorem Within.of_head {m : FsM σ α} (h : Keeps (SameHead ip) m) : Keeps (Within ip) m := by
  intro s a t hm
  have hhead := (h s a t hm).head
  exact ⟨(h s a t hm).other, (congrArg Inode.ref hhead :), (congrArg Inode.inum hhead :),
    (congrArg Inode.dev hhead :)⟩

theorem head_setInode {f : Inode → Inode} (hf : ∀ i, (f i).head = i.head) :
    Keeps (SameHead ip) (setInode ip f : FsM σ Unit) := by
  intro s a t h
  cases h
  refine ⟨fun ip' hne => ?_, ?_⟩ <;> rw [Fs.itable_setItable]
  · rw [update_of_ne hne]
  · rw [update_self]
    exact hf _

/-- The size of the entry `ip` is as it was. -/
def SameSize (ip : Fin NINODE) (s t : Fs σ) : Prop := (t.itable ip).size = (s.itable ip).size

instance (ip : Fin NINODE) : Std.Refl (@SameSize σ ip) := ⟨fun _ => rfl⟩

instance (ip : Fin NINODE) : IsTrans (Fs σ) (SameSize ip) := ⟨fun _ _ _ h h' => h'.trans h⟩

/-- A frame condition that allows changes of blocks and of the addresses of `ip`. -/
structure AllowsData (ip : Fin NINODE) (R : Fs σ → Fs σ → Prop) : Prop where
  same : ∀ s t, t.itable = s.itable → R s t
  addrs : ∀ (s : Fs σ) a, R s (s.setItable ip { s.itable ip with addrs := a })

theorem allowsData_head : AllowsData ip (@SameHead σ ip) where
  same s t h := ⟨fun _ _ => by rw [h], by rw [h]⟩
  addrs s a := by
    refine ⟨fun ip' hne => ?_, ?_⟩ <;> rw [Fs.itable_setItable]
    · rw [update_of_ne hne]
    · rw [update_self]
      rfl

theorem allowsData_size : AllowsData ip (@SameSize σ ip) where
  same s t h := by rw [SameSize, h]
  addrs s a := by rw [SameSize, Fs.itable_setItable, update_self]

theorem keeps_indexSlot (dev : UInt32) (bp : β) (j : ℕ) :
    Keeps SameTable (indexSlot balloc dev bp j : FsM σ UInt32) := by
  refine (keeps_bdata bp).bind fun a => Keeps.ite ?_ (Keeps.pure _)
  exact (keeps_balloc dev).bind fun _ => (keeps_bdata bp).bind fun _ =>
    (keeps_bstore bp _).bind fun _ => Keeps.pure _

theorem keeps_indexWalk (dev : UInt32) : ∀ (js : List ℕ) (bps : List β) (addr : UInt32),
    Keeps SameTable (indexWalk balloc dev bps addr js : FsM σ UInt32) := by
  intro js
  induction js with
  | nil =>
    intro bps addr
    exact Keeps.bind (Keeps.forM _ fun bp _ => keeps_brelse bp) fun _ => Keeps.pure _
  | cons j js ih =>
    intro bps addr
    exact (keeps_bread dev addr).bind fun bp => (keeps_indexSlot dev bp j).bind fun next =>
      ih (bps ++ [bp]) next

namespace AllowsData

variable {R : Fs σ → Fs σ → Prop}

theorem of_same (h : AllowsData ip R) {m : FsM σ α} (hm : Keeps SameTable m) : Keeps R m :=
  fun s a t hrun => h.same s t (hm s a t hrun)

variable [Std.Refl R] [IsTrans (Fs σ) R]

theorem addrSlot (h : AllowsData ip R) (k : Fin 15) :
    Keeps R (addrSlot balloc ip k : FsM σ UInt32) := by
  refine (h.of_same (keeps_getInode ip)).bind fun i => Keeps.ite ?_ (Keeps.pure _)
  refine (h.of_same (keeps_balloc _)).bind fun addr => ?_
  refine Keeps.bind (m := setInode ip _) (fun s _ t hset => ?_) fun _ => Keeps.pure _
  cases hset
  exact h.addrs s _

theorem bmap (h : AllowsData ip R) (bn : ℕ) : Keeps R (bmap ip bn : FsM σ UInt32) := by
  have hwalk : ∀ (k : Fin 15) (dev : UInt32) (js : List ℕ), Keeps R
      ((Xv6Ext2.addrSlot balloc ip k : FsM σ UInt32) >>= fun addr =>
        indexWalk balloc dev [] addr js) :=
    fun k dev js => (h.addrSlot k).bind fun addr => h.of_same (keeps_indexWalk dev js [] addr)
  refine (h.of_same (keeps_getInode ip)).bind fun i => ?_
  exact Keeps.ite (h.addrSlot _) (Keeps.ite (hwalk _ _ _)
    (Keeps.ite (hwalk _ _ _) (Keeps.ite (hwalk _ _ _) (Keeps.throw _))))

theorem readiLoop (h : AllowsData ip R) : ∀ (fuel off n : ℕ),
    Keeps R (readiLoop ip fuel off n : FsM σ (List UInt8)) := by
  intro fuel
  induction fuel with
  | zero =>
    intro off n
    cases n with
    | zero => exact Keeps.pure _
    | succ n => exact Keeps.throw _
  | succ fuel ih =>
    intro off n
    cases n with
    | zero => exact Keeps.pure _
    | succ n =>
      refine (h.of_same (keeps_getInode ip)).bind fun i => ?_
      refine (h.bmap _).bind fun addr => ?_
      refine (h.of_same (keeps_bread _ addr)).bind fun bp => ?_
      refine (h.of_same (keeps_bdata bp)).bind fun d => ?_
      refine (h.of_same (keeps_brelse bp)).bind fun _ => ?_
      exact (ih _ _).bind fun rest => Keeps.pure _

theorem readi (h : AllowsData ip R) (off n : UInt32) :
    Keeps R (readi ip off n : FsM σ (ℤ × List UInt8)) := by
  refine (h.of_same (keeps_getInode ip)).bind fun i => Keeps.ite (Keeps.pure _) ?_
  exact (h.readiLoop _ _ _).bind fun bytes => Keeps.pure _

theorem writeiLoop (h : AllowsData ip R) (src : CopySrc) : ∀ (fuel tot off n : ℕ),
    Keeps R (writeiLoop ip src fuel tot off n : FsM σ ℕ) := by
  intro fuel
  induction fuel with
  | zero =>
    intro tot off n
    cases n with
    | zero => exact Keeps.pure _
    | succ n => exact Keeps.throw _
  | succ fuel ih =>
    intro tot off n
    cases n with
    | zero => exact Keeps.pure _
    | succ n =>
      refine (h.of_same (keeps_getInode ip)).bind fun i => ?_
      refine (h.bmap _).bind fun addr => Keeps.ite (Keeps.pure _) ?_
      refine (h.of_same (keeps_bread _ addr)).bind fun bp => ?_
      refine (h.of_same (keeps_bdata bp)).bind fun d => ?_
      have hstore : ∀ d', Keeps R (bstore bp d' : FsM σ Unit) := fun d' =>
        h.of_same (keeps_bstore bp d')
      have hrelse : Keeps R (brelse bp : FsM σ Unit) := h.of_same (keeps_brelse bp)
      cases src.fails tot (min (n + 1) (BSIZE - off % BSIZE)) with
      | some c => exact (hstore _).bind fun _ => hrelse.bind fun _ => Keeps.pure _
      | none => exact (hstore _).bind fun _ => hrelse.bind fun _ => ih _ _ _

end AllowsData

theorem head_readi (off n : UInt32) :
    Keeps (SameHead ip) (readi ip off n : FsM σ (ℤ × List UInt8)) :=
  allowsData_head.readi off n

theorem head_writei (src : CopySrc) (off n : UInt32) :
    Keeps (SameHead ip) (writei ip src off n : FsM σ ℤ) := by
  have h : AllowsData ip (@SameHead σ ip) := allowsData_head
  refine (h.of_same (keeps_getInode ip)).bind fun i => Keeps.ite (Keeps.pure _) ?_
  refine Keeps.ite (Keeps.pure _) ((h.writeiLoop src _ _ _ _).bind fun tot => ?_)
  refine Keeps.bind (head_setInode fun _ => rfl) fun _ => ?_
  exact (h.of_same (keeps_iupdate ip)).bind fun _ => Keeps.pure _

theorem head_itrunc : Keeps (SameHead ip) (itrunc ip : FsM σ Unit) := by
  have h : AllowsData ip (@SameHead σ ip) := allowsData_head
  refine Keeps.bind (Keeps.forM _ fun k _ => ?_) fun _ => ?_
  · refine (h.of_same (keeps_getInode ip)).bind fun i => Keeps.ite (Keeps.pure _) ?_
    exact (h.of_same (keeps_freeTree _ _ _)).bind fun _ => head_setInode fun _ => rfl
  · exact Keeps.bind (head_setInode fun _ => rfl) fun _ => h.of_same (keeps_iupdate ip)

/-! ### Locks and references -/

/-- **`ilock` locks an inode that is not locked**, and fills it from its record if it has
not been read in. -/
theorem ilock_cases (s : Fs σ) : Sat (ilock ip) s fun _ t =>
    (s.itable ip).locked = false ∧ 1 ≤ (s.itable ip).ref ∧
      ((s.itable ip).valid = true ∧ t = s.setItable ip { s.itable ip with locked := true } ∨
        (s.itable ip).valid = false ∧ ∃ din, t.itable = update s.itable ip
          (fillInode din { s.itable ip with locked := true })) := by
  refine Sat.of_eq (bind_of_ok (getInode_apply s ip)) ?_
  refine Sat.ite (fun _ => Sat.throw) fun href => Sat.ite (fun _ => Sat.throw) fun hlock => ?_
  have hlock' : (s.itable ip).locked = false := by simpa using hlock
  refine Sat.of_eq (bind_of_ok (setInode_apply s ip _)) ?_
  refine Sat.ite (fun hv => Sat.pure ⟨hlock', by omega, Or.inl ⟨hv, rfl⟩⟩) fun hv => ?_
  refine (keeps_readGroupDesc _ _).bind fun group t₁ h₁ => ?_
  refine (keeps_bread _ _ t₁).bind fun bp t₂ h₂ => ?_
  refine (keeps_bdata bp t₂).bind fun d t₃ h₃ => Sat.ite (fun _ => Sat.throw) fun _ => ?_
  refine (keeps_brelse bp t₃).bind fun _ t₄ h₄ => ?_
  have htable : t₄.itable = update s.itable ip { s.itable ip with locked := true } :=
    (Eq.trans h₄ h₃).trans (Eq.trans h₂ h₁)
  intro _ t₅ hrun
  cases hrun
  let o := ((cInt ((s.itable ip).inum - 1)).tmod (BSIZE / INODESIZE)).toNat * INODESIZE
  have hfill : update t₄.itable ip (fillInode (Ext2Dinode.decode fun x => d.byte (o + x))
      (t₄.itable ip)) = update s.itable ip (fillInode
        (Ext2Dinode.decode fun x => d.byte (o + x)) { s.itable ip with locked := true }) := by
    rw [htable, update_self, update_idem]
  exact ⟨hlock', by omega, Or.inr ⟨by simpa using hv, _, hfill⟩⟩

/-- A locked inode has been read in, and was not locked before. -/
theorem ilock_sat (s : Fs σ) : Sat (ilock ip) s fun _ t =>
    (t.itable ip).valid = true ∧ (t.itable ip).locked = true ∧ 1 ≤ (t.itable ip).ref ∧
      (s.itable ip).locked = false ∧ ((s.itable ip).valid = true →
        t = s.setItable ip { s.itable ip with locked := true }) := by
  refine (ilock_cases s).mono fun _ t h => ?_
  rcases h with ⟨hlock, href, ⟨hv, rfl⟩ | ⟨hv, din, ht⟩⟩
  · rw [Fs.itable_setItable, update_self]
    exact ⟨hv, rfl, href, hlock, fun _ => rfl⟩
  · rw [ht, update_self]
    exact ⟨rfl, rfl, href, hlock, fun hv' => by rw [hv] at hv'; cases hv'⟩

theorem within_ilock : Keeps (Within ip) (ilock ip : FsM σ Unit) := by
  intro s
  refine (ilock_cases s).mono fun _ t h => ?_
  have hset : ∃ i, t.itable = update s.itable ip i ∧ i.ref = (s.itable ip).ref ∧
      i.inum = (s.itable ip).inum ∧ i.dev = (s.itable ip).dev := by
    rcases h with ⟨-, -, ⟨-, rfl⟩ | ⟨-, din, ht⟩⟩
    · exact ⟨_, rfl, rfl, rfl, rfl⟩
    · exact ⟨_, ht, rfl, rfl, rfl⟩
  obtain ⟨i, ht, href, hinum, hdev⟩ := hset
  refine ⟨fun ip' hne => ?_, ?_, ?_, ?_⟩ <;> rw [ht]
  · rw [update_of_ne hne]
  · rw [update_self, href]
  · rw [update_self, hinum]
  · rw [update_self, hdev]

/-- `rootilock` fills an inode that has not been read in. -/
theorem rootilock_cases (s : Fs σ) : Sat (rootilock ip) s fun _ t =>
    t = s ∨ (s.itable ip).valid = false ∧
      ∃ din, t.itable = update s.itable ip (fillInode din (s.itable ip)) := by
  refine Sat.of_eq (bind_of_ok (getInode_apply s ip)) ?_
  refine Sat.ite (fun _ => Sat.throw) fun _ => Sat.ite (fun _ => Sat.pure (Or.inl rfl)) fun hv => ?_
  refine (keeps_readGroupDesc _ _).bind fun group t₁ h₁ => ?_
  refine (keeps_bread _ _ t₁).bind fun bp t₂ h₂ => (keeps_bdata bp t₂).bind fun d t₃ h₃ => ?_
  refine (keeps_brelse bp t₃).bind fun _ t₄ h₄ => ?_
  have htable : t₄.itable = s.itable := (Eq.trans h₄ h₃).trans (Eq.trans h₂ h₁)
  intro _ t₅ hrun
  cases hrun
  have hfill : update t₄.itable ip (fillInode
      (Ext2Dinode.decode fun x => d.byte (INODESIZE + x)) (t₄.itable ip)) =
        update s.itable ip (fillInode
          (Ext2Dinode.decode fun x => d.byte (INODESIZE + x)) (s.itable ip)) := by
    rw [htable]
  exact Or.inr ⟨by simpa using hv, _, hfill⟩

theorem within_rootilock : Keeps (Within ip) (rootilock ip : FsM σ Unit) := by
  intro s
  refine (rootilock_cases s).mono fun _ t h => ?_
  rcases h with rfl | ⟨-, din, ht⟩
  · exact Std.Refl.refl t
  · refine ⟨fun ip' hne => ?_, ?_, ?_, ?_⟩ <;> rw [ht]
    · rw [update_of_ne hne]
    all_goals rw [update_self]; rfl

theorem iunlock_sat (s : Fs σ) : Sat (iunlock ip) s fun _ t =>
    t = s.setItable ip { s.itable ip with locked := false } := by
  refine Sat.of_eq (bind_of_ok (getInode_apply s ip)) (Sat.ite (fun _ => Sat.throw) fun _ => ?_)
  intro _ t hrun
  cases hrun
  rfl

theorem within_iunlock : Keeps (Within ip) (iunlock ip : FsM σ Unit) := by
  refine (Within.of_same (keeps_getInode ip)).bind fun i => Keeps.ite (Keeps.throw _) ?_
  exact within_setInode (fun _ => rfl) (fun _ => rfl) fun _ => rfl

theorem iunlock_of_locked {s : Fs σ} (href : 1 ≤ (s.itable ip).ref)
    (hlocked : (s.itable ip).locked = true) :
    iunlock ip s = .ok ((), s.setItable ip { s.itable ip with locked := false }) := by
  unfold iunlock
  rw [bind_of_ok (getInode_apply s ip), hlocked, if_neg (by simp; omega)]
  rfl

/-- Locking an inode stores in no block. -/
theorem ilock_blk (s : Fs Store) : Sat (ilock ip) s fun _ t => t.blk = s.blk := by
  refine Sat.of_eq (bind_of_ok (getInode_apply s ip)) ?_
  refine Sat.ite (fun _ => Sat.throw) fun _ => Sat.ite (fun _ => Sat.throw) fun _ => ?_
  refine Sat.of_eq (bind_of_ok (setInode_apply s ip _)) ?_
  refine Sat.ite (fun _ => Sat.pure rfl) fun _ => readGroupDesc_sat.bind ?_
  rintro group t ⟨rfl, rfl⟩
  refine bread_sat.bind ?_
  rintro bp t ⟨rfl, rfl⟩
  refine Sat.of_eq (bind_of_ok bdata_apply) (Sat.ite (fun _ => Sat.throw) fun _ => ?_)
  refine brelse_sat.bind ?_
  rintro - t rfl
  intro _ t hrun
  cases hrun
  rw [Fs.release_hold]
  rfl

/-- The state after a reference to `ip` has been dropped and nothing else done. -/
def Fs.unref (s : Fs σ) (ip : Fin NINODE) : Fs σ :=
  s.setItable ip { s.itable ip with ref := (s.itable ip).ref - 1 }

/-- What is left of an inode that `iput` frees, apart from where its data is. -/
def Inode.freed (i : Inode) : Inode :=
  { i.head with ref := i.ref - 1, locked := false, valid := false, type := .none }

/-- **`iput` drops a reference.**  It does nothing else, unless this is the last one to an
inode without links, which it frees. -/
theorem iput_cases (s : Fs σ) : Sat (iput ip) s fun _ t =>
    t = s.unref ip ∨ (s.itable ip).ref = 1 ∧ (s.itable ip).locked = false ∧
      (s.itable ip).nlink = 0 ∧ (∀ ip', ip' ≠ ip → t.itable ip' = s.itable ip') ∧
        (t.itable ip).head = (s.itable ip).freed := by
  refine Sat.of_eq (bind_of_ok (getInode_apply s ip)) ?_
  refine Sat.ite (fun hlast => Sat.ite (fun _ => Sat.throw) fun hlock => ?_) fun _ => ?_
  · refine Sat.of_eq (bind_of_ok (setInode_apply s ip _)) ?_
    refine (head_itrunc _).bind fun _ t₂ h₂ => ?_
    refine Sat.of_eq (bind_of_ok (setInode_apply t₂ ip _)) ?_
    refine (keeps_iupdate ip _).bind fun _ t₃ h₃ => ?_
    intro _ t₄ hrun
    cases hrun
    have htable : t₃.itable = update t₂.itable ip { t₂.itable ip with type := .none } := h₃
    have hhead := h₂.head
    rw [Fs.itable_setItable, update_self] at hhead
    refine Or.inr ⟨hlast.1, by simpa using hlock, hlast.2.2, fun ip' hne => ?_, ?_⟩
    · rw [Fs.itable_setItable, update_of_ne hne, Fs.itable_setItable,
        update_of_ne hne, htable, update_of_ne hne, h₂.other ip' hne,
        Fs.itable_setItable, update_of_ne hne]
    · simp only [Fs.itable_setItable, update_self, htable]
      exact congrArg (fun i : Inode =>
        { i with ref := i.ref - 1, locked := false, valid := false, type := .none }) hhead
  · intro _ t hrun
    cases hrun
    exact Or.inl rfl

/-- What `iput` does to the entry and to the others. -/
theorem iput_frame (s : Fs σ) : Sat (iput ip) s fun _ t =>
    (∀ ip', ip' ≠ ip → t.itable ip' = s.itable ip') ∧
      (t.itable ip).ref = (s.itable ip).ref - 1 ∧
        (t = s.unref ip ∨ (t.itable ip).type = .none) := by
  refine (iput_cases s).mono fun _ t h => ?_
  rcases h with rfl | ⟨-, -, -, hother, hhead⟩
  · refine ⟨fun ip' hne => ?_, ?_, Or.inl rfl⟩ <;> rw [Fs.unref, Fs.itable_setItable]
    · rw [update_of_ne hne]
    · rw [update_self]
  · exact ⟨hother, (congrArg Inode.ref hhead :), Or.inr (congrArg Inode.type hhead :)⟩

/-- `iunlockput` drops a reference. -/
theorem iunlockput_frame (s : Fs σ) : Sat (iunlockput ip) s fun _ t =>
    (∀ ip', ip' ≠ ip → t.itable ip' = s.itable ip') ∧
      (t.itable ip).ref = (s.itable ip).ref - 1 := by
  refine (within_iunlock s).bind fun _ t ht => ?_
  refine (iput_frame t).mono fun _ u hu => ⟨fun ip' hne => ?_, ?_⟩
  · rw [hu.1 ip' hne, ht.other ip' hne]
  · rw [hu.2.1, ht.ref]

end Xv6Ext2
