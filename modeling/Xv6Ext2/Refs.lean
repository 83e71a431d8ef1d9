import Mathlib.Algebra.Module.BigOperators
import Xv6Ext2.Lib.RefCount
import Xv6Ext2.Sysfile

/-!
# References to inodes

How the functions on the file system change the numbers of references in the inode
table.  A function that returns an inode has added a reference to it, `iput` takes one
away, and every other reference that a function takes on its way it drops again.  This
holds over every block layer, on every branch that returns.

The two listing functions that do not pair their calls are the exceptions: their
amounts say what they leave behind.

## Main definitions

* `Fs.refs` — the numbers of references.

## Main results

* `dirlookup_refs`, `namex_refs`, `create_refs`, `openInode_refs`, `chdirInode_refs` —
  functions that return an inode add the reference to it.
* `dirlink_refs`, `sysLink_refs`, `sysUnlink_refs`, `sysMkdir_refs`, `execImage_refs`,
  `printRootFiles_refs` — functions that add nothing.
* `printCwdFiles_refs`, `printCatFile_refs` — functions that drop a reference which is
  not theirs, or keep one.
-/

namespace Xv6Ext2

open CString Prog RefCount

variable {σ β : Type} [BlockLayer σ β] {α : Type} {ip : Fin NINODE} {fuel : ℕ}
  {cwd : Option (Fin NINODE)} {s : Fs σ}

/-- The numbers of references in the inode table. -/
def Fs.refs (s : Fs σ) (ip : Fin NINODE) : ℤ := (s.itable ip).ref

/-! ### Taking and dropping references -/

/-- A function that stays within an entry adds no reference. -/
theorem Within.refs {m : FsM σ α} (h : Keeps (Within ip) m) : Adds Fs.refs m s fun _ => 0 := by
  intro a t hm
  rw [add_zero]
  funext ip'
  by_cases hip : ip' = ip
  · rw [hip]
    exact (h s a t hm).ref
  · exact congrArg Inode.ref ((h s a t hm).other ip' hip)

theorem SameTable.refs {m : FsM σ α} (h : Keeps SameTable m) : Adds Fs.refs m s fun _ => 0 :=
  Within.refs (Within.of_same h : Keeps (Within 0) m)

/-- A change of the references to one inode. -/
theorem refs_eq_add {t : Fs σ} {n : ℤ} (hother : ∀ ip', ip' ≠ ip → t.itable ip' = s.itable ip')
    (hself : (t.itable ip).ref = (s.itable ip).ref + n) :
    t.refs = s.refs + n • point (some ip) :=
  eq_add_smul_point (fun ip' hip => congrArg Inode.ref (hother ip' hip)) hself

theorem iget_refs {dev inum : UInt32} :
    Adds Fs.refs (iget dev inum : FsM σ (Fin NINODE)) s fun ip => point (some ip) := by
  intro ip t h
  obtain ⟨hother, -, href⟩ := iget_frame h
  rw [refs_eq_add hother href, one_smul]

theorem idup_refs : Adds Fs.refs (idup ip : FsM σ (Fin NINODE)) s fun ip => point (some ip) := by
  intro ip' t h
  cases h
  show _ = s.refs + point (some ip)
  rw [← one_smul ℤ (point (some ip))]
  refine refs_eq_add (fun i hi => Function.update_of_ne hi _ _) ?_
  rw [Fs.itable_setItable, Function.update_self]

theorem iput_refs : Adds Fs.refs (iput ip : FsM σ Unit) s fun _ => -point (some ip) := by
  intro _ t h
  obtain ⟨hother, href, -⟩ := iput_frame s _ t h
  rw [refs_eq_add (n := -1) hother (by rw [href]; ring), neg_one_smul]

theorem iunlockput_refs :
    Adds Fs.refs (iunlockput ip : FsM σ Unit) s fun _ => -point (some ip) := by
  intro _ t h
  obtain ⟨hother, href⟩ := iunlockput_frame s _ t h
  rw [refs_eq_add (n := -1) hother (by rw [href]; ring), neg_one_smul]

/-- The reference is put back, and nothing is returned in its place. -/
theorem iunlockput_pure {α : Type} {a : α} {D : α → Fin NINODE → ℤ} (h : D a = -point (some ip)) :
    Adds Fs.refs (do iunlockput ip; return a : FsM σ α) s D := by
  apply Adds.bind iunlockput_refs
  intro _ t _
  exact Adds.pure (by rw [h, sub_self])

theorem ilock_refs : Adds Fs.refs (ilock ip : FsM σ Unit) s fun _ => 0 := Within.refs within_ilock

theorem iunlock_refs : Adds Fs.refs (iunlock ip : FsM σ Unit) s fun _ => 0 :=
  Within.refs within_iunlock

theorem iupdate_refs : Adds Fs.refs (iupdate ip : FsM σ Unit) s fun _ => 0 :=
  SameTable.refs (keeps_iupdate ip)

theorem getInode_refs : Adds Fs.refs (getInode ip : FsM σ Inode) s fun _ => 0 :=
  SameTable.refs (keeps_getInode ip)

theorem readi_refs {off n : UInt32} :
    Adds Fs.refs (readi ip off n : FsM σ (ℤ × List UInt8)) s fun _ => 0 :=
  Within.refs (Within.of_head (head_readi off n))

theorem setInode_refs {f : Inode → Inode} (hf : ∀ i, (f i).ref = i.ref) :
    Adds Fs.refs (setInode ip f : FsM σ Unit) s fun _ => 0 := by
  intro _ t h
  cases h
  rw [← zero_smul ℤ (point (some ip))]
  refine refs_eq_add (fun i hi => Function.update_of_ne hi _ _) ?_
  rw [Fs.itable_setItable, Function.update_self, hf, add_zero]

theorem dropLink_refs : Adds Fs.refs (dropLink ip : FsM σ Unit) s fun _ => 0 := by
  unfold dropLink
  exact Adds.skip (setInode_refs fun _ => rfl) fun _ _ _ => iupdate_refs

theorem addLink_refs : Adds Fs.refs (addLink ip : FsM σ Unit) s fun _ => 0 := by
  unfold addLink
  exact Adds.skip (setInode_refs fun _ => rfl) fun _ _ _ => iupdate_refs

/-! ### Directories -/

theorem dirlookupLoop_refs {dp : Fin NINODE} {name : ℕ → UInt8} :
    ∀ (fuel : ℕ) (fileName : ℕ → UInt8) (off : UInt32) (s : Fs σ),
      Adds Fs.refs (dirlookupLoop dp name fuel fileName off) s fun r =>
        point (r.map Prod.fst) := by
  intro fuel
  induction fuel with
  | zero => intro fileName off s; exact Adds.throw
  | succ fuel ih =>
    intro fileName off s
    rw [dirlookupLoop]
    apply Adds.skip getInode_refs
    intro i t _
    apply Adds.ite
    · intro _
      apply Adds.skip readi_refs
      intro r t _
      apply Adds.ite (fun _ => Adds.throw)
      intro _
      apply Adds.ite (fun _ => ih _ _ t)
      intro _
      apply Adds.ite
      · intro _
        apply Adds.bind iget_refs
        intro ip t _
        exact Adds.pure (sub_self _)
      · exact fun _ => ih _ _ t
    · exact fun _ => Adds.pure point_none

/-- **A lookup returns a reference.** -/
theorem dirlookup_refs {dp : Fin NINODE} {name : ℕ → UInt8} :
    Adds Fs.refs (dirlookup fuel dp name : FsM σ _) s fun r => point (r.map Prod.fst) := by
  unfold dirlookup
  apply Adds.skip (SameTable.refs Keeps.get)
  intro s' t _
  exact Adds.ite (fun _ => Adds.throw) fun _ => dirlookupLoop_refs fuel _ _ t

theorem dirlinkLoop_refs {dp : Fin NINODE} : ∀ (fuel : ℕ) (off : UInt32) (s : Fs σ),
    Adds Fs.refs (dirlinkLoop dp fuel off) s fun _ => 0 := by
  intro fuel
  induction fuel with
  | zero => intro off s; exact Adds.throw
  | succ fuel ih =>
    intro off s
    rw [dirlinkLoop]
    apply Adds.skip getInode_refs
    intro i t _
    refine Adds.ite ?_ fun _ => Adds.pure rfl
    intro _
    apply Adds.skip readi_refs
    intro r t _
    exact Adds.ite (fun _ => Adds.throw) fun _ => Adds.ite (fun _ => Adds.pure rfl) fun _ =>
      ih _ t

theorem dirlink_refs {dp : Fin NINODE} {name : ℕ → UInt8} {inum : UInt32} :
    Adds Fs.refs (dirlink fuel dp name inum : FsM σ ℤ) s fun _ => 0 := by
  unfold dirlink
  apply Adds.bind dirlookup_refs
  intro r t _
  cases r with
  | some e =>
    -- the name is there already: the reference is put back
    apply Adds.bind iput_refs
    intro _ t _
    apply Adds.pure
    show 0 - point (some e.1) - -point (some e.1) = 0
    rw [sub_neg_eq_add, sub_add_cancel]
  | none =>
    simp only [Option.map_none, point_none, sub_zero]
    apply Adds.skip (dirlinkLoop_refs fuel 0 t)
    intro off t _
    apply Adds.skip (Within.refs (Within.of_head (head_writei _ _ _)))
    intro n t _
    exact Adds.ite (fun _ => Adds.pure rfl) fun _ => Adds.pure rfl

theorem isdirempty_refs {dp : Fin NINODE} : ∀ (fuel : ℕ) (off : UInt32) (s : Fs σ),
    Adds Fs.refs (isdiremptyLoop dp fuel off) s fun _ => 0 := by
  intro fuel
  induction fuel with
  | zero => intro off s; exact Adds.throw
  | succ fuel ih =>
    intro off s
    rw [isdiremptyLoop]
    apply Adds.skip getInode_refs
    intro i t _
    refine Adds.ite ?_ fun _ => Adds.pure rfl
    intro _
    apply Adds.skip readi_refs
    intro r t _
    exact Adds.ite (fun _ => Adds.throw) fun _ => Adds.ite (fun _ => Adds.pure rfl) fun _ =>
      ih _ t

/-! ### Paths -/

theorem startInode_refs {path : List UInt8} :
    Adds Fs.refs (startInode cwd path : FsM σ _) s fun ip => point (some ip) := by
  unfold startInode
  apply Adds.ite (fun _ => iget_refs)
  intro _
  cases cwd with
  | some ip => exact idup_refs
  | none => exact Adds.throw

theorem namexLoop_refs {parent : Bool} : ∀ (n : ℕ) (path : List UInt8) (ip : Fin NINODE)
    (s : Fs σ), Adds Fs.refs (namexLoop fuel parent n path ip) s fun r =>
      point (r.map Prod.fst) - point (some ip) := by
  intro n
  induction n with
  | zero => intro path ip s; exact Adds.throw
  | succ n ih =>
    intro path ip s
    -- where the walk ends without a result, its reference is dropped
    have hdrop : ∀ t : Fs σ, Adds Fs.refs (do iunlockput ip; return none) t
        fun r : Option (Fin NINODE × List UInt8) => point (r.map Prod.fst) - point (some ip) := by
      intro t
      exact iunlockput_pure (by simp)
    rw [namexLoop]
    split
    · apply Adds.ite
      · intro _
        apply Adds.bind iput_refs
        intro _ t _
        exact Adds.pure (by simp)
      · exact fun _ => Adds.pure (sub_self _)
    · next name rest _ =>
      apply Adds.skip ilock_refs
      intro _ t _
      apply Adds.skip getInode_refs
      intro i t _
      apply Adds.ite (fun _ => hdrop t)
      intro _
      apply Adds.ite
      · intro _
        apply Adds.skip iunlock_refs
        intro _ t _
        exact Adds.pure (sub_self _)
      · intro _
        apply Adds.bind dirlookup_refs
        intro r t _
        cases r with
        | none =>
          refine (hdrop t).last fun r => ?_
          simp
        | some e =>
          -- the reference to the directory is exchanged for the one to the next inode
          apply Adds.bind iunlockput_refs
          intro _ t _
          refine (ih rest e.1 t).last fun r => ?_
          simp only [Option.map_some]
          ring

/-- **A walk returns a reference** to the inode it ends at. -/
theorem namex_refs {path : List UInt8} {parent : Bool} :
    Adds Fs.refs (namex fuel cwd path parent : FsM σ _) s fun r => point (r.map Prod.fst) := by
  unfold namex
  apply Adds.bind startInode_refs
  intro ip t _
  have hroot : Adds Fs.refs (rootRead path ip : FsM σ Unit) t fun _ => 0 := by
    unfold rootRead
    apply Adds.skip (SameTable.refs Keeps.get)
    intro _ t _
    exact Adds.ite (fun _ => Within.refs within_rootilock) fun _ => Adds.pure rfl
  apply Adds.skip hroot
  intro _ t _
  exact namexLoop_refs _ path ip t

theorem namei_refs {path : List UInt8} :
    Adds Fs.refs (namei fuel cwd path : FsM σ _) s fun r => point r := by
  unfold namei
  apply Adds.bind namex_refs
  intro r t _
  exact Adds.pure (sub_self _)

theorem nameiparent_refs {path : List UInt8} :
    Adds Fs.refs (nameiparent fuel cwd path : FsM σ _) s fun r => point (r.map Prod.fst) :=
  namex_refs

/-! ### System calls on paths -/

theorem ialloc_refs {dev : UInt32} {type : InodeType} :
    Adds Fs.refs (ialloc dev type : FsM σ _) s fun ip => point (some ip) := by
  unfold ialloc
  apply Adds.skip (SameTable.refs (keeps_readGroupDesc dev))
  intro gdesc t _
  apply Adds.skip (SameTable.refs (keeps_bread dev _))
  intro bp t _
  apply Adds.skip (SameTable.refs (keeps_bdata bp))
  intro bitmap t _
  apply Adds.skip (SameTable.refs Keeps.get)
  intro s' t _
  apply Adds.skip (SameTable.refs (keeps_ofExcept _))
  intro r t _
  cases r with
  | none => exact (SameTable.refs (keeps_brelse bp)).skip fun _ _ _ => Adds.throw
  | some r =>
    apply Adds.skip (SameTable.refs (keeps_bstore bp _))
    intro _ t _
    apply Adds.skip (SameTable.refs (keeps_bread dev _))
    intro bp' t _
    apply Adds.skip (SameTable.refs (keeps_bdata bp'))
    intro d t _
    apply Adds.skip (SameTable.refs (keeps_bstore bp' _))
    intro _ t _
    apply Adds.skip (SameTable.refs (keeps_bwrite bp'))
    intro _ t _
    apply Adds.skip (SameTable.refs (keeps_bwrite bp))
    intro _ t _
    apply Adds.skip (SameTable.refs (keeps_brelse bp'))
    intro _ t _
    apply Adds.skip (SameTable.refs (keeps_brelse bp))
    intro _ t _
    exact iget_refs

theorem createLinks_refs {dp : Fin NINODE} {name : List UInt8} {type : InodeType} :
    Adds Fs.refs (createLinks fuel dp ip name type : FsM σ Bool) s fun _ => 0 := by
  have henter : ∀ t : Fs σ, Adds Fs.refs (do
      let i ← getInode ip
      let r ← dirlink fuel dp (cstr name) i.inum
      return decide (0 ≤ r)) t fun _ => 0 := by
    intro t
    apply Adds.skip getInode_refs
    intro i t _
    apply Adds.skip dirlink_refs
    intro r t _
    exact Adds.pure rfl
  have hdots : Adds Fs.refs (dotLinks fuel dp ip : FsM σ Bool) s fun _ => 0 := by
    unfold dotLinks
    apply Adds.skip getInode_refs
    intro i t _
    apply Adds.skip dirlink_refs
    intro r t _
    refine Adds.ite (fun _ => Adds.pure rfl) ?_
    intro _
    apply Adds.skip getInode_refs
    intro d t _
    apply Adds.skip dirlink_refs
    intro r t _
    exact Adds.pure rfl
  unfold createLinks
  apply Adds.ite
  · intro _
    apply Adds.skip hdots
    intro r t _
    exact Adds.ite (fun _ => Adds.pure rfl) fun _ => henter t
  · exact fun _ => henter s

theorem addParent_refs {dp : Fin NINODE} {type : InodeType} :
    Adds Fs.refs (addParent dp type : FsM σ Unit) s fun _ => 0 :=
  Adds.ite (fun _ => addLink_refs) fun _ => Adds.pure rfl

/-- **`create` returns a reference**, and leaves none behind when it fails. -/
theorem create_refs {path : List UInt8} {type : InodeType} {major minor : Int16} :
    Adds Fs.refs (create fuel cwd path type major minor : FsM σ _) s fun r => point r := by
  unfold create
  apply Adds.bind nameiparent_refs
  intro r t _
  cases r with
  | none => exact Adds.pure (by simp)
  | some e =>
    obtain ⟨dp, name⟩ := e
    apply Adds.skip ilock_refs
    intro _ t _
    apply Adds.bind dirlookup_refs
    intro r t _
    cases r with
    | some e =>
      -- the name is there: the directory is dropped, and the inode kept or dropped
      apply Adds.bind iunlockput_refs
      intro _ t _
      apply Adds.skip ilock_refs
      intro _ t _
      apply Adds.skip getInode_refs
      intro i t _
      refine Adds.ite (fun _ => Adds.pure ?_) fun _ => ?_
      · dsimp only [Option.map_some]
        ring
      · apply Adds.bind iunlockput_refs
        intro _ t _
        refine Adds.pure ?_
        simp only [Option.map_some, point_none]
        ring
    | none =>
      apply Adds.skip getInode_refs
      intro d t _
      apply Adds.bind ialloc_refs
      intro ip t _
      apply Adds.skip ilock_refs
      intro _ t _
      refine Adds.skip (setInode_refs fun _ => rfl) ?_
      intro _ t _
      apply Adds.skip iupdate_refs
      intro _ t _
      apply Adds.skip createLinks_refs
      intro r t _
      apply Adds.ite
      · intro _
        apply Adds.skip addParent_refs
        intro _ t _
        apply Adds.bind iunlockput_refs
        intro _ t _
        refine Adds.pure ?_
        simp only [Option.map_some, Option.map_none, point_none]
        ring
      · intro _
        refine Adds.skip (setInode_refs fun _ => rfl) ?_
        intro _ t _
        apply Adds.skip iupdate_refs
        intro _ t _
        apply Adds.bind iunlockput_refs
        intro _ t _
        apply Adds.bind iunlockput_refs
        intro _ t _
        refine Adds.pure ?_
        simp only [Option.map_some, Option.map_none, point_none]
        ring

theorem linkBad_refs : Adds Fs.refs (linkBad ip : FsM σ ℤ) s fun _ => -point (some ip) := by
  unfold linkBad
  apply Adds.skip ilock_refs
  intro _ t _
  apply Adds.skip dropLink_refs
  intro _ t _
  apply Adds.bind iunlockput_refs
  intro _ t _
  exact Adds.pure (sub_self _)

theorem sysLink_refs {old new : List UInt8} :
    Adds Fs.refs (sysLink fuel cwd old new : FsM σ ℤ) s fun _ => 0 := by
  unfold sysLink
  apply Adds.bind namei_refs
  intro r t _
  cases r with
  | none => exact Adds.pure (by simp)
  | some ip =>
    -- both failures put the directory and then the inode back
    have hbad : ∀ (dp : Fin NINODE) (t : Fs σ), Adds Fs.refs (do iunlockput dp; linkBad ip) t
        fun _ => -point (some dp) - point (some ip) := by
      intro dp t
      apply Adds.bind iunlockput_refs
      intro _ t _
      exact linkBad_refs.last fun _ => by ring
    apply Adds.skip ilock_refs
    intro _ t _
    apply Adds.skip getInode_refs
    intro i t _
    apply Adds.ite
    · intro _
      exact iunlockput_pure (by simp)
    · intro _
      apply Adds.skip addLink_refs
      intro _ t _
      apply Adds.skip iunlock_refs
      intro _ t _
      apply Adds.bind nameiparent_refs
      intro r t _
      cases r with
      | none => exact linkBad_refs.last fun _ => by simp
      | some e =>
        apply Adds.skip ilock_refs
        intro _ t _
        apply Adds.skip getInode_refs
        intro d t _
        apply Adds.skip getInode_refs
        intro i t _
        apply Adds.ite
        · intro _
          refine (hbad e.1 t).last fun _ => ?_
          simp only [Option.map_some]
          ring
        · intro _
          apply Adds.skip dirlink_refs
          intro r t _
          apply Adds.ite
          · intro _
            refine (hbad e.1 t).last fun _ => ?_
            simp only [Option.map_some]
            ring
          · intro _
            apply Adds.bind iunlockput_refs
            intro _ t _
            apply Adds.bind iput_refs
            intro _ t _
            refine Adds.pure ?_
            simp only [Option.map_some]
            ring

theorem removeEntry_refs {dp : Fin NINODE} {off : UInt32} :
    Adds Fs.refs (removeEntry dp ip off : FsM σ ℤ) s fun _ => -point (some dp) - point
      (some ip) := by
  unfold removeEntry
  apply Adds.skip (Within.refs (Within.of_head (head_writei _ _ _)))
  intro n t _
  apply Adds.ite (fun _ => Adds.throw)
  intro _
  apply Adds.skip getInode_refs
  intro i t _
  have hparent : Adds Fs.refs (dropParent dp i.type : FsM σ Unit) t fun _ => 0 :=
    Adds.ite (fun _ => dropLink_refs) fun _ => Adds.pure rfl
  apply Adds.skip hparent
  intro _ t _
  apply Adds.bind iunlockput_refs
  intro _ t _
  apply Adds.skip dropLink_refs
  intro _ t _
  apply Adds.bind iunlockput_refs
  intro _ t _
  exact Adds.pure (by ring)

theorem sysUnlink_refs {path : List UInt8} :
    Adds Fs.refs (sysUnlink fuel cwd path : FsM σ ℤ) s fun _ => 0 := by
  unfold sysUnlink
  apply Adds.bind nameiparent_refs
  intro r t _
  cases r with
  | none => exact Adds.pure (by simp)
  | some e =>
    obtain ⟨dp, name⟩ := e
    show Adds _ (unlinkIn fuel dp name) t _
    unfold unlinkIn
    apply Adds.skip ilock_refs
    intro _ t _
    apply Adds.ite
    · intro _
      exact iunlockput_pure (by simp)
    · intro _
      apply Adds.bind dirlookup_refs
      intro r t _
      cases r with
      | none =>
        exact iunlockput_pure (by simp)
      | some e =>
        apply Adds.skip ilock_refs
        intro _ t _
        apply Adds.skip getInode_refs
        intro i t _
        apply Adds.ite (fun _ => Adds.throw)
        intro _
        have hempty : Adds Fs.refs (removable fuel e.1 i.type : FsM σ Bool) t fun _ => 0 :=
          Adds.ite (fun _ => isdirempty_refs fuel _ t) fun _ => Adds.pure rfl
        apply Adds.skip hempty
        intro r t _
        apply Adds.ite
        · intro _
          apply Adds.bind iunlockput_refs
          intro _ t _
          exact iunlockput_pure (by simp)
        · intro _
          exact removeEntry_refs.last fun _ => by simp

theorem sysMkdir_refs {path : List UInt8} :
    Adds Fs.refs (sysMkdir fuel cwd path : FsM σ ℤ) s fun _ => 0 := by
  unfold sysMkdir
  apply Adds.bind create_refs
  intro r t _
  cases r with
  | none => exact Adds.pure (by simp)
  | some ip =>
    exact iunlockput_pure (by simp)

theorem openPath_refs {path : List UInt8} {omode : UInt32} :
    Adds Fs.refs (openPath fuel cwd path omode : FsM σ _) s fun r => point r := by
  unfold openPath
  apply Adds.ite (fun _ => create_refs)
  intro _
  apply Adds.bind namei_refs
  intro r t _
  cases r with
  | none => exact Adds.pure (by simp)
  | some ip =>
    apply Adds.skip ilock_refs
    intro _ t _
    apply Adds.skip getInode_refs
    intro i t _
    apply Adds.ite
    · intro _
      exact iunlockput_pure (by simp)
    · exact fun _ => Adds.pure (sub_self _)

theorem openInode_refs {path : List UInt8} {omode : UInt32} :
    Adds Fs.refs (openInode fuel cwd path omode : FsM σ _) s fun r => point r := by
  unfold openInode
  apply Adds.bind openPath_refs
  intro r t _
  cases r with
  | none => exact Adds.pure (by simp)
  | some ip =>
    apply Adds.skip getInode_refs
    intro i t _
    apply Adds.ite
    · intro _
      exact iunlockput_pure (by simp)
    · exact fun _ => Adds.pure (sub_self _)

theorem chdirInode_refs {path : List UInt8} :
    Adds Fs.refs (chdirInode fuel cwd path : FsM σ _) s fun r => point r := by
  unfold chdirInode
  apply Adds.bind namei_refs
  intro r t _
  cases r with
  | none => exact Adds.pure (by simp)
  | some ip =>
    apply Adds.skip ilock_refs
    intro _ t _
    apply Adds.skip getInode_refs
    intro i t _
    apply Adds.ite
    · intro _
      exact iunlockput_pure (by simp)
    · intro _
      apply Adds.skip iunlock_refs
      intro _ t _
      exact Adds.pure (sub_self _)

/-! ### Executables and listings -/

theorem within_loadsegLoop {mapped : ℕ → Bool} {offset sz : UInt32} : ∀ (fuel : ℕ) (i : UInt32),
    Keeps (Within ip) (loadsegLoop ip mapped offset sz fuel i : FsM σ Bool) := by
  intro fuel
  induction fuel with
  | zero => intro i; exact Keeps.throw _
  | succ fuel ih =>
    intro i
    refine Keeps.ite (Keeps.ite (Keeps.throw _) ?_) (Keeps.pure _)
    exact (Within.of_head (head_readi _ _)).bind fun r => Keeps.ite (Keeps.pure _) (ih _)

theorem within_execLoop {mem : ExecMem} : ∀ (n i : ℕ) (off : UInt32),
    Keeps (Within ip) (execLoop fuel ip mem n i off : FsM σ Bool) := by
  intro n
  induction n with
  | zero => intro i off; exact Keeps.pure _
  | succ n ih =>
    intro i off
    refine (Within.of_head (head_readi _ _)).bind fun r => Keeps.ite (Keeps.pure _) ?_
    refine Keeps.ite (ih _ _) (Keeps.ite (Keeps.pure _) ?_)
    exact (within_loadsegLoop _ _).bind fun r => Keeps.ite (ih _ _) (Keeps.pure _)

theorem execImage_refs {path : List UInt8} {mem : ExecMem} :
    Adds Fs.refs (execImage fuel cwd path mem : FsM σ Bool) s fun _ => 0 := by
  unfold execImage
  apply Adds.bind namei_refs
  intro r t _
  cases r with
  | none => exact Adds.pure (by simp)
  | some ip =>
    apply Adds.skip ilock_refs
    intro _ t _
    have hread : Keeps (Within ip) (execRead fuel ip mem : FsM σ Bool) :=
      (Within.of_head (head_readi _ _)).bind fun r => Keeps.ite (Keeps.pure _)
        (Keeps.ite (Keeps.pure _) (within_execLoop _ _ _))
    apply Adds.skip (Within.refs hread)
    intro r t _
    exact iunlockput_pure (by simp)

theorem within_printFilesLoop : ∀ (fuel : ℕ) (off : UInt32),
    Keeps (Within ip) (printFilesLoop ip fuel off : FsM σ (List Ext2Dirent)) := by
  intro fuel
  induction fuel with
  | zero => intro off; exact Keeps.throw _
  | succ fuel ih =>
    intro off
    refine (Within.of_same (keeps_getInode ip)).bind fun i => Keeps.ite ?_ (Keeps.pure _)
    refine (Within.of_head (head_readi _ _)).bind fun r => Keeps.ite (Keeps.throw _) ?_
    exact (ih _).bind fun rest => Keeps.ite (Keeps.pure _) (Keeps.pure _)

theorem printRootFiles_refs :
    Adds Fs.refs (printRootFiles fuel : FsM σ (List Ext2Dirent)) s fun _ => 0 := by
  unfold printRootFiles
  apply Adds.bind iget_refs
  intro dp t _
  apply Adds.skip ilock_refs
  intro _ t _
  apply Adds.skip (Within.refs (within_printFilesLoop fuel 0))
  intro lines t _
  exact iunlockput_pure (by simp)

/-- Listing the current directory drops a reference to it. -/
theorem printCwdFiles_refs :
    Adds Fs.refs (printCwdFiles fuel cwd : FsM σ (List Ext2Dirent)) s fun _ => -point cwd := by
  unfold printCwdFiles
  cases cwd with
  | none => exact Adds.throw
  | some dp =>
    apply Adds.skip ilock_refs
    intro _ t _
    apply Adds.skip (Within.refs (within_printFilesLoop fuel 0))
    intro lines t _
    apply Adds.bind iunlockput_refs
    intro _ t _
    exact Adds.pure (sub_self _)

/-- Printing a file keeps a reference to it. -/
theorem printCatFile_refs {name : Option (ℕ → UInt8)} :
    Sat (printCatFile fuel cwd name) s fun _ t => ∃ fi, t.refs = s.refs + point (some fi) := by
  unfold printCatFile
  split
  · intro bytes t hrun
    obtain ⟨r, u, hlook, hrun⟩ := bind_eq_ok.mp hrun
    have hu := dirlookup_refs r u hlook
    cases r with
    | none => cases hrun
    | some e =>
      obtain ⟨i, v, hget, hrun⟩ := bind_eq_ok.mp hrun
      cases hget
      obtain ⟨b, w, hread, hret⟩ := bind_eq_ok.mp hrun
      cases hret
      refine ⟨e.1, ?_⟩
      rw [readi_refs b t hread, add_zero, hu]
      rfl
  · exact Sat.throw

end Xv6Ext2
