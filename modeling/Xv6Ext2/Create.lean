import Xv6Ext2.OpenFiles

/-!
# Making files and directories by their paths

`create` of `kernel/sysfile.c` makes an inode, and for a directory it then enters the names
`.` and `..` before it enters the new name in its parent.  A new directory never gets
that far.  The record that `ialloc` writes is in its place only for the first inode of a
table block.  For any other one `ilock` reads the type of a file, and `dirlookup` panics on
an inode that is no directory.  For the first one the directory is empty, so that the slot
for `.` makes it 16 bytes long, and the lookup before `..` panics when it cannot read a
whole record.

## Main definitions

* `createTo`, `createIn` — `create` up to its call of `ialloc`, and from there on.
* `LeadsTo` — a path leads to an inode number.
* `CreateOk` — what callers expect of `create`.

## Main results

* `create_eq` — `create` consists of its two parts, with `ialloc` in between.
* `createTo_le` — more rounds do not change where a path leads.
* `dotLinks_false`, `createIn_dir` — a new directory does not get its two entries.
* `create_never_ok` — **`create` does not do what callers expect** for any path.
* `create_dir_panics` — a directory that is made in a fresh root directory.
-/

namespace Xv6Ext2

open CString Prog

/-! ### The call of `ialloc` in `create` -/

section Create

variable {σ β : Type} [BlockLayer σ β]

/-- `create` up to its call of `ialloc`: the result where it does not come to that, or else
the directory, the name and the device. -/
def createTo (fuel : ℕ) (cwd : Option (Fin NINODE)) (path : List UInt8) (type : InodeType) :
    FsM σ (Option (Fin NINODE) ⊕ Fin NINODE × List UInt8 × UInt32) := do
  match ← nameiparent fuel cwd path with
  | none => return .inl none
  | some (dp, name) => do
    ilock dp
    match ← dirlookup fuel dp (cstr name) with
    | some (ip, _) => do
      iunlockput dp
      ilock ip
      let i ← getInode ip
      if type = .file ∧ (i.type = .file ∨ i.type = .device) then return .inl (some ip)
      else do
        iunlockput ip
        return .inl none
    | none => do
      let d ← getInode dp
      return .inr (dp, name, d.dev)

/-- `create` after its call of `ialloc`. -/
def createIn (fuel : ℕ) (dp ip : Fin NINODE) (name : List UInt8) (type : InodeType)
    (major minor : Int16) : FsM σ (Option (Fin NINODE)) := do
  ilock ip
  setInode ip fun i => { i with major := major, minor := minor, nlink := 1 }
  iupdate ip
  if (← createLinks fuel dp ip name type) = true then do
    addParent dp type
    iunlockput dp
    return some ip
  else do
    setInode ip fun i => { i with nlink := 0 }
    iupdate ip
    iunlockput ip
    iunlockput dp
    return none

/-- **`create` calls `ialloc` once, between its two parts**, or not at all. -/
theorem create_eq (fuel : ℕ) (cwd : Option (Fin NINODE)) (path : List UInt8) (type : InodeType)
    (major minor : Int16) : (create fuel cwd path type major minor : FsM σ _) = (do
      match ← createTo fuel cwd path type with
      | .inl r => return r
      | .inr (dp, name, dev) => do
        let ip ← ialloc dev type
        createIn fuel dp ip name type major minor) := by
  unfold create createTo
  rw [bind_assoc]
  congr 1
  funext r
  rcases r with _ | ⟨dp, name⟩
  · rfl
  · simp only [bind_assoc]
    congr 1
    funext _
    congr 1
    funext x
    rcases x with _ | ⟨ip, off⟩
    · simp only [bind_assoc, pure_bind]
      rfl
    · simp only [bind_assoc]
      congr 1
      funext _
      congr 1
      funext _
      congr 1
      funext i
      split
      · rfl
      · simp only [bind_assoc, pure_bind]

end Create

/-! ### More rounds -/

section Rounds

variable {σ β : Type} [BlockLayer σ β] {fuel fuel' : ℕ}

theorem dirlookup_le (hle : fuel ≤ fuel') (dp : Fin NINODE) (name : ℕ → UInt8) :
    Le (dirlookup fuel dp name : FsM σ _) (dirlookup fuel' dp name) :=
  fun _ _ _ h => dirlookup_mono hle h

theorem namexLoop_le (hle : fuel ≤ fuel') {parent : Bool} :
    ∀ (n : ℕ) (path : List UInt8) (ip : Fin NINODE),
      Le (namexLoop fuel parent n path ip : FsM σ _) (namexLoop fuel' parent n path ip) := by
  intro n
  induction n with
  | zero => intro path ip; exact Le.refl _
  | succ n ih =>
    intro path ip
    rw [namexLoop, namexLoop]
    split
    · exact Le.refl _
    · refine (Le.refl _).bind fun _ => (Le.refl _).bind fun i => ?_
      refine Le.ite (Le.refl _) (Le.ite (Le.refl _) ?_)
      refine (dirlookup_le hle ip _).bind fun r => ?_
      cases r with
      | none => exact Le.refl _
      | some e => exact (Le.refl _).bind fun _ => ih _ e.1

/-- **More rounds do not change where a path leads.** -/
theorem createTo_le (hle : fuel ≤ fuel') {cwd : Option (Fin NINODE)} {path : List UInt8}
    {type : InodeType} :
    Le (createTo fuel cwd path type : FsM σ _) (createTo fuel' cwd path type) := by
  have hpar : Le (nameiparent fuel cwd path : FsM σ _) (nameiparent fuel' cwd path) :=
    (Le.refl _).bind fun ip => (Le.refl _).bind fun _ => namexLoop_le hle _ path ip
  unfold createTo
  refine hpar.bind fun r => ?_
  cases r with
  | none => exact Le.refl _
  | some e =>
    refine (Le.refl _).bind fun _ => (dirlookup_le hle e.1 _).bind fun r => ?_
    cases r with
    | none => exact Le.refl _
    | some x => exact Le.refl _

end Rounds

/-! ### A directory without entries -/

section Dots

variable {σ β : Type} [BlockLayer σ β] {ip dp : Fin NINODE} {s : Fs σ} {fuel : ℕ} {inum : UInt32}
  {name : ℕ → UInt8}

/-- Reading more than there is. -/
theorem readi_short {n : UInt32} (h : (s.itable ip).size.toNat < n.toNat)
    (hn : n.toNat < 2 ^ 31) :
    Sat (readi ip 0 n) s fun r _ => r.1 < (n.toNat : ℤ) := by
  unfold readi
  refine Sat.of_eq (bind_of_ok (getInode_apply s ip)) ?_
  refine Sat.ite (fun _ => Sat.pure (by simp only; omega)) fun _ => ?_
  refine Sat.bind (R := fun _ _ => True) (fun _ _ _ => trivial) fun bytes t _ => Sat.pure ?_
  have hlt : (s.itable ip).size < 0 + n := by
    rw [UInt32.zero_add]
    exact UInt32.lt_iff_toNat_lt.mpr h
  rw [if_pos hlt, UInt32.sub_zero]
  unfold cInt
  rw [if_pos (by omega)]
  omega

/-- **A lookup panics on a directory shorter than a record.** -/
theorem dirlookup_short (hpos : 0 < (s.itable ip).size.toNat)
    (hlt : (s.itable ip).size.toNat < ext2DirentSize) :
    Sat (dirlookup fuel ip name) s fun _ _ => False := by
  unfold dirlookup
  refine Sat.of_eq (bind_of_ok (get_apply s)) (Sat.ite (fun _ => Sat.throw) fun _ => ?_)
  cases fuel with
  | zero => exact Sat.throw
  | succ fuel =>
    rw [dirlookupLoop]
    refine Sat.of_eq (bind_of_ok (getInode_apply s ip)) ?_
    have hpos' : (0 : UInt32) < (s.itable ip).size := UInt32.lt_iff_toNat_lt.mpr hpos
    rw [if_pos hpos']
    have hsize : (UInt32.ofNat ext2DirentSize).toNat = ext2DirentSize := by decide
    refine (readi_short (by rw [hsize]; exact hlt) (by decide)).bind fun r t hr => ?_
    rw [hsize] at hr
    rw [if_pos (ne_of_lt hr)]
    exact Sat.throw

/-- Writing at the start of an empty file makes it as long as what has been written. -/
theorem writei_size {src : CopySrc} {n : UInt32} (hsize : (s.itable ip).size = 0) :
    Sat (writei ip src 0 n) s fun r t =>
      ∀ m : ℕ, r = (m : ℤ) → (t.itable ip).size = UInt32.ofNat m := by
  unfold writei
  refine Sat.of_eq (bind_of_ok (getInode_apply s ip)) ?_
  refine Sat.ite (fun _ => Sat.pure fun m hm => by omega) fun _ => ?_
  refine Sat.ite (fun _ => Sat.pure fun m hm => by omega) fun _ => ?_
  refine (allowsData_size.writeiLoop src _ _ _ _ s).bind fun tot t ht => ?_
  refine Sat.of_eq (bind_of_ok (setInode_apply t ip _)) ?_
  refine (keeps_iupdate ip _).bind fun _ u hu => Sat.pure fun m hm => ?_
  have hsize' : (t.itable ip).size = 0 := ht.trans hsize
  obtain rfl : tot = m := Int.ofNat_inj.mp hm
  rw [hu, Fs.itable_setItable, Function.update_self, hsize', UInt32.zero_add]
  dsimp only
  split
  · rfl
  · next hle =>
    have hzero : ¬0 < (UInt32.ofNat tot).toNat := fun h => hle (UInt32.lt_iff_toNat_lt.mpr h)
    apply UInt32.toNat_inj.mp
    show (0 : ℕ) = _
    omega

/-- The first entry of an empty directory makes it 16 bytes long. -/
theorem dirlink_empty (hsize : (s.itable ip).size = 0) :
    Sat (dirlink fuel ip name inum) s fun r t => r < 0 ∨
      (t.itable ip).size.toNat = direntSize := by
  have hzero : ¬(0 : UInt32) < (s.itable ip).size := by
    rw [hsize]
    decide
  unfold dirlink dirlookup
  cases fuel with
  | zero =>
    intro r t hrun
    obtain ⟨_, _, hrun, -⟩ := bind_eq_ok.mp hrun
    rw [bind_of_ok (get_apply s)] at hrun
    split at hrun <;> cases hrun
  | succ fuel =>
    -- nothing is found, and the slot is the first one
    have hlook : Sat (do
        let s ← get
        if (s.itable ip).type ≠ .dir then panic "dirlookup not DIR"
        else dirlookupLoop ip name (fuel + 1) (cstr s.junk) 0) s fun r t => r = none ∧ t = s := by
      refine Sat.of_eq (bind_of_ok (get_apply s)) (Sat.ite (fun _ => Sat.throw) fun _ => ?_)
      rw [dirlookupLoop]
      refine Sat.of_eq (bind_of_ok (getInode_apply s ip)) ?_
      rw [if_neg hzero]
      exact Sat.pure ⟨rfl, rfl⟩
    refine hlook.bind ?_
    rintro _ t ⟨rfl, rfl⟩
    have hslot : dirlinkLoop ip (fuel + 1) 0 t = .ok (0, t) := by
      rw [dirlinkLoop, bind_of_ok (getInode_apply t ip), if_neg hzero]
      rfl
    refine Sat.of_eq (bind_of_ok hslot) ((writei_size hsize).bind fun n u hu => ?_)
    refine Sat.ite (fun _ => Sat.pure (Or.inl (by decide))) fun hn => Sat.pure (Or.inr ?_)
    rw [hu direntSize (not_not.mp hn)]
    rfl

/-- **The two entries of a new directory are not made.** -/
theorem dotLinks_false (h : (s.itable ip).type ≠ .dir ∨ (s.itable ip).size = 0) :
    Sat (dotLinks fuel dp ip) s fun r _ => r = false := by
  unfold dotLinks
  refine Sat.of_eq (bind_of_ok (getInode_apply s ip)) ?_
  rcases h with htype | hsize
  · -- the lookup before the first entry panics
    refine Sat.bind (R := fun _ _ => False) ?_ fun _ _ h => h.elim
    unfold dirlink dirlookup
    refine Sat.bind (R := fun _ _ => False) ?_ fun _ _ h => h.elim
    refine Sat.of_eq (bind_of_ok (get_apply s)) ?_
    rw [if_pos htype]
    exact Sat.throw
  · refine (dirlink_empty hsize).bind fun r t ht => ?_
    refine Sat.ite (fun _ => Sat.pure rfl) fun hr => ?_
    refine Sat.of_eq (bind_of_ok (getInode_apply t dp)) ?_
    -- the lookup before the second entry panics
    have hsize' : (t.itable ip).size.toNat = direntSize := ht.resolve_left hr
    refine Sat.bind (R := fun _ _ => False) ?_ fun _ _ h => h.elim
    unfold dirlink
    refine Sat.bind (dirlookup_short ?_ ?_) fun _ _ h => h.elim <;> rw [hsize'] <;> decide

/-- So the call of `create` for a directory comes to nothing. -/
theorem createIn_dir {name : List UInt8} {major minor : Int16}
    (h : Sat (ilock ip) s fun _ t => (t.itable ip).type ≠ .dir ∨ (t.itable ip).size = 0) :
    Sat (createIn fuel dp ip name .dir major minor) s fun r _ => r = none := by
  unfold createIn
  refine h.bind fun _ t ht => ?_
  refine Sat.of_eq (bind_of_ok (setInode_apply t ip _)) ?_
  refine (keeps_iupdate ip _).bind fun _ u hu => ?_
  have hdots : Sat (createLinks fuel dp ip name .dir) u fun r _ => r = false := by
    unfold createLinks
    rw [if_pos rfl]
    refine (dotLinks_false ?_).bind fun r v hr => ?_
    · rw [hu, Fs.itable_setItable, Function.update_self]
      exact ht
    · rw [if_pos hr]
      exact Sat.pure rfl
  refine hdots.bind fun r v hr => ?_
  rw [if_neg (by rw [hr]; exact Bool.false_ne_true)]
  refine Sat.bind (R := fun _ _ => True) (fun _ _ _ => trivial) fun _ _ _ => ?_
  refine Sat.bind (R := fun _ _ => True) (fun _ _ _ => trivial) fun _ _ _ => ?_
  refine Sat.bind (R := fun _ _ => True) (fun _ _ _ => trivial) fun _ _ _ => ?_
  exact Sat.bind (R := fun _ _ => True) (fun _ _ _ => trivial) fun _ _ _ => Sat.pure rfl

end Dots

/-! ### What callers expect -/

section Store

variable {s u v : Fs Store} {cwd : Option (Fin NINODE)} {path : List UInt8} {fuel : ℕ}
  {dp ip : Fin NINODE} {name : List UInt8} {dev : UInt32}

/-- The path leads to the inode with number `n`. -/
def LeadsTo (s : Fs Store) (cwd : Option (Fin NINODE)) (path : List UInt8) (n : UInt32) : Prop :=
  ∃ fuel ip t, namei fuel cwd path s = .ok (some ip, t) ∧ (t.itable ip).inum = n

/-- What callers expect of `create` where the path leads into the directory `dp`: it returns
an inode of the type that was asked for.  When that is unlocked, the path leads to it,
a new directory has itself and `dp` for its two entries, and all other paths lead to where
they led before. -/
def CreateOk (s : Fs Store) (cwd : Option (Fin NINODE)) (path : List UInt8) (type : InodeType)
    (dp : Fin NINODE) : Prop :=
  ∃ fuel ip t t', create fuel cwd path type 0 0 s = .ok (some ip, t) ∧
    iunlock ip t = .ok ((), t') ∧ (t.itable ip).type = type ∧
    LeadsTo t' cwd path (t.itable ip).inum ∧
    (type = .dir → Resolves t' ip [46] (some (t.itable ip).inum) ∧
      Resolves t' ip [46, 46] (some (t.itable dp).inum)) ∧
    ∀ path' n, LeadsTo s cwd path' n → LeadsTo t' cwd path' n

/-- **What `ilock` makes of a new directory**: a file, or a directory of size 0. -/
theorem ilock_newDir (hheld : u.blk.held = []) (hapart : u.TableApart)
    (hfresh : ∀ ip, 0 < (u.itable ip).ref → u.Marked (u.itable ip).inum)
    (h : ialloc dev .dir u = .ok (ip, v)) :
    Sat (ilock ip) v fun _ t => (t.itable ip).type ≠ .dir ∨ (t.itable ip).size = 0 := by
  obtain ⟨k, hk, hget⟩ := ialloc_cases hheld hapart h
  obtain ⟨hblk, -, hinum, -⟩ := iget_spec hget
  -- a free number is that of no inode in memory, so the entry is a new one
  have hnew : (v.itable ip).valid = false := by
    rcases iget_cases hget with ⟨href, -, hnum, -⟩ | ⟨-, rfl⟩
    · have hmarked : usedBit u.inodeBitmap ((u.itable ip).inum - 1).toNat = true := hfresh ip href
      rw [show (u.itable ip).inum = UInt32.ofNat (k + 1) from hnum, toNat_inum hk.lt,
        hk.2.1] at hmarked
      cases hmarked
    · rw [Fs.itable_setItable, Function.update_self]
  have hvalid : ValidInum (v.itable ip).inum := by
    have hlt := hk.lt
    rw [hinum]
    unfold ValidInum
    rw [toNat_inum hlt]
    simp only [BSIZE] at hlt
    omega
  have hheld' : v.blk.held = [] := by
    rw [hblk]
    exact hheld
  have hdinode : v.dinode (v.itable ip).inum =
      (u.withFresh .dir k).dinode (UInt32.ofNat (k + 1)) := by
    unfold Fs.dinode Fs.record Fs.recBlock Fs.gdesc
    rw [hblk, hinum]
  obtain ⟨hmode, -, hsize, -⟩ := dinode_withFresh .dir hapart hk.lt
  intro x t hrun
  obtain ⟨hlock, href, -⟩ := ilock_cases v x t hrun
  rw [ilock_ok hheld' href hlock hnew hvalid] at hrun
  cases hrun
  rw [Fs.itable_setItable, Function.update_self, hdinode]
  exact Or.inr hsize

/-- **`create` does not return a directory.** -/
theorem create_dir_none (hto : createTo fuel cwd path .dir s = .ok (.inr (dp, name, dev), u))
    (hheld : u.blk.held = []) (hapart : u.TableApart)
    (hfresh : ∀ ip, 0 < (u.itable ip).ref → u.Marked (u.itable ip).inum) (fuel' : ℕ) :
    Sat (create fuel' cwd path .dir 0 0) s fun r _ => r = none := by
  intro r t hrun
  rw [create_eq] at hrun
  obtain ⟨x, w, hto', hrun⟩ := bind_eq_ok.mp hrun
  -- the path leads to the same place with the rounds of either call
  have hsame : x = .inr (dp, name, dev) ∧ w = u := by
    have h₁ := createTo_le (Nat.le_max_left fuel fuel') _ _ _ hto
    have h₂ := createTo_le (Nat.le_max_right fuel fuel') _ _ _ hto'
    cases h₁.symm.trans h₂
    exact ⟨rfl, rfl⟩
  obtain ⟨rfl, rfl⟩ := hsame
  obtain ⟨ip, v, halloc, hrun⟩ := bind_eq_ok.mp hrun
  exact createIn_dir (ilock_newDir hheld hapart hfresh halloc) r t hrun

/-- **`create` does not do what callers expect**, for any path into a directory that lacks
the name: it does not return a directory. -/
theorem create_never_ok (hto : createTo fuel cwd path .dir s = .ok (.inr (dp, name, dev), u))
    (hheld : u.blk.held = []) (hapart : u.TableApart)
    (hfresh : ∀ ip, 0 < (u.itable ip).ref → u.Marked (u.itable ip).inum) :
    (∀ fuel' ip t, create fuel' cwd path .dir 0 0 s ≠ .ok (some ip, t)) ∧
      ¬(CreateOk s cwd path .file dp ∧ CreateOk s cwd path .dir dp) := by
  have hnever : ∀ fuel' ip t, create fuel' cwd path .dir 0 0 s ≠ .ok (some ip, t) := by
    intro fuel' ip t hrun
    cases create_dir_none hto hheld hapart hfresh fuel' _ _ hrun
  refine ⟨hnever, fun hok => ?_⟩
  obtain ⟨fuel', ip, t, -, hrun, -⟩ := hok.2
  exact hnever fuel' ip t hrun

/-! ### A fresh root directory -/

/-- The image with a fresh root directory, which is the current one of a process; the inode
numbers 1 and 2 are marked used. -/
def freshRootImage : Fs Store :=
  (imageOf [(3, setUsed (setUsed (setUsed Block.zero 0) 2) 7),
    (4, setUsed (setUsed Block.zero 0) 1),
    (10, bytesBlock rootBytes)]).setItable 0
    ⟨1, 2, 1, false, true, .dir, 0, 0, 3, 1024, fun r => if r = 0 then 10 else 0⟩

/-- The path `d` leads into the root directory, which lacks the name. -/
theorem createTo_freshRootImage : ∃ u,
    createTo 5 (some 0) [100] .dir freshRootImage = .ok (.inr (0, [100], 1), u) ∧
      u.blk.held = [] ∧ u.TableApart ∧
        ∀ ip, 0 < (u.itable ip).ref → u.Marked (u.itable ip).inum := by
  obtain ⟨t, hrun⟩ := exists_of_map_fst (a := (.inr (0, [100], 1), true)) (m := do
    let x ← createTo 5 (some 0) [100] .dir
    let u : Fs Store ← get
    return (x, decide (u.blk.held = []) && decide (u.gdesc = ⟨3, 4, 5⟩) &&
      @decide (∀ ip : Fin NINODE, 0 < (u.itable ip).ref →
        usedBit u.inodeBitmap ((u.itable ip).inum - 1).toNat = true)
          (Nat.decidableForallFin _))) (s := freshRootImage) (by decide +kernel)
  obtain ⟨x, u, hto, hrun⟩ := bind_eq_ok.mp hrun
  rw [bind_of_ok (get_apply u)] at hrun
  simp only [pure_apply, Except.ok.injEq, Prod.mk.injEq, Bool.and_eq_true, decide_eq_true_eq]
    at hrun
  obtain ⟨⟨rfl, ⟨hheld, hdesc⟩, hfresh⟩, -⟩ := hrun
  refine ⟨u, hto, hheld, .of_lt ?_ ?_ ?_ ?_, hfresh⟩ <;> rw [hdesc] <;> decide

/-- No directory is made in the fresh root directory. -/
theorem create_never_ok_freshRootImage :
    (∃ u, createTo 5 (some 0) [100] .dir freshRootImage = .ok (.inr (0, [100], 1), u)) ∧
      ∀ fuel ip t, create fuel (some 0) [100] .dir 0 0 freshRootImage ≠ .ok (some ip, t) := by
  obtain ⟨u, hto, hheld, hapart, hfresh⟩ := createTo_freshRootImage
  exact ⟨⟨u, hto⟩, (create_never_ok hto hheld hapart hfresh).1⟩

/-- **A directory in a fresh root directory**: the number is the third of its table block,
`ilock` reads a file, and the lookup before the first entry panics. -/
theorem create_dir_panics :
    (∃ u, createTo 5 (some 0) [100] .dir freshRootImage = .ok (.inr (0, [100], 1), u)) ∧
      create 5 (some 0) [100] .dir 0 0 freshRootImage = .error (.panic "dirlookup not DIR") ∧
        ¬(CreateOk freshRootImage (some 0) [100] .file 0 ∧
          CreateOk freshRootImage (some 0) [100] .dir 0) := by
  obtain ⟨u, hto, hheld, hapart, hfresh⟩ := createTo_freshRootImage
  refine ⟨⟨u, hto⟩, error_of_map_fst (by decide +kernel), fun hok => ?_⟩
  obtain ⟨fuel', ip, t, -, hrun, -⟩ := hok.2
  cases create_dir_none hto hheld hapart hfresh fuel' _ _ hrun

end Store

end Xv6Ext2
