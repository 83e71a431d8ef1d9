import Xv6Ext2.Path

/-!
# Removing names

`sys_unlink` of `kernel/sysfile.c`.  It removes a name by clearing 16 bytes, a slot,
at the start of the record of the name.  That clears the length of the record too,
so the records after it are out of reach: a lookup that comes to the cleared record
stays there for ever.

## Main definitions

* `isdirempty`, `sysUnlink` — the source functions; `unlinkIn` is what `sys_unlink`
  does once it has the parent directory, and `removeEntry` what it does once it has
  decided to remove the entry.
* `UnlinkOk` — what a caller expects: the name is gone, other names resolve as
  before, and the directory is well formed.
* `TargetApart` — the file that the name stands for shares no blocks with the
  directory.

## Main results

* `unlinkIn_sat` — a removal leaves the directory with a cleared record, or without a
  type if that was its last reference.
* `sysUnlink_ok_iff` — the expectations hold only when nothing is removed.
-/

namespace Xv6Ext2

open Bytes CString Prog

variable {σ β : Type} [BlockLayer σ β]

/-! ### The source functions -/

/-- The loop of `isdirempty`. -/
def isdiremptyLoop (dp : Fin NINODE) : ℕ → UInt32 → FsM σ Bool
  | 0, _ => throw .fuel
  | fuel + 1, off => do
    let i ← getInode dp
    if off < i.size then do
      let r ← readi dp off (UInt32.ofNat direntSize)
      if r.1 ≠ direntSize then panic "isdirempty: readi"
      else if le16 (cstr r.2) 0 ≠ 0 then return false
      else isdiremptyLoop dp fuel (off + UInt32.ofNat direntSize)
    else return true

/-- Is the directory empty except for "." and ".." ? -/
def isdirempty (fuel : ℕ) (dp : Fin NINODE) : FsM σ Bool :=
  isdiremptyLoop dp fuel (UInt32.ofNat (2 * direntSize))

/-- `ip->type == T_DIR && !isdirempty(ip)`, negated. -/
def removable (fuel : ℕ) (ip : Fin NINODE) (type : InodeType) : FsM σ Bool :=
  if type = .dir then isdirempty fuel ip else return true

/-- `ip->nlink--; iupdate(ip);` -/
def dropLink (ip : Fin NINODE) : FsM σ Unit := do
  setInode ip fun i => { i with nlink := i.nlink - 1 }
  iupdate ip

/-- `if(ip->type == T_DIR){ dp->nlink--; iupdate(dp); }` -/
def dropParent (dp : Fin NINODE) (type : InodeType) : FsM σ Unit :=
  if type = .dir then dropLink dp else return ()

/-- Clear the entry at `off` of `dp`, and drop the link to `ip`. -/
def removeEntry (dp ip : Fin NINODE) (off : UInt32) : FsM σ ℤ := do
  let n ← writei dp (kernelSrc fun _ => 0) off (UInt32.ofNat direntSize)
  if n ≠ direntSize then panic "unlink: writei"
  else do
    let i ← getInode ip
    dropParent dp i.type
    iunlockput dp
    dropLink ip
    iunlockput ip
    return 0

/-- `sys_unlink` from where it has the parent directory and the name. -/
def unlinkIn (fuel : ℕ) (dp : Fin NINODE) (name : List UInt8) : FsM σ ℤ := do
  ilock dp
  -- cannot unlink "." or ".."
  if namecmp (cstr name) (cstr [46]) = 0 ∨ namecmp (cstr name) (cstr [46, 46]) = 0 then do
    iunlockput dp
    return -1
  else do
    match ← dirlookup fuel dp (cstr name) with
    | none => do
      iunlockput dp
      return -1
    | some (ip, off) => do
      ilock ip
      let i ← getInode ip
      if i.nlink < 1 then panic "unlink: nlink < 1"
      else do
        if (← removable fuel ip i.type) = false then do
          iunlockput ip
          iunlockput dp
          return -1
        else removeEntry dp ip off

/-- `sys_unlink` -/
def sysUnlink (fuel : ℕ) (cwd : Option (Fin NINODE)) (path : List UInt8) : FsM σ ℤ := do
  match ← nameiparent fuel cwd path with
  | none => return -1
  | some (dp, name) => unlinkIn fuel dp name

/-! ### Changes that a file does not see -/

section Store

variable {P : Finset (Fin NINODE)} {dp ip : Fin NINODE} {s t : Fs Store}

/-- `iupdate` keeps the invariant and the contents of the file. -/
theorem Files.iupdate_sat (h : Files P s) (hdp : dp ∈ P) :
    Sat (Xv6Ext2.iupdate dp) s fun _ t => Files P t ∧ t.contents dp = s.contents dp := by
  refine Xv6Ext2.iupdate_sat.mono ?_
  rintro - t ⟨d, hcont, hit⟩
  obtain ⟨h2, hbb⟩ := h.record dp hdp
  have hsame := SamePlaces.write (P := P) (d := d) h2 hbb fun q l j hok hne heq =>
    h.apart (q, l) (prefixClosed_ok P q l j hok) hne (Or.inr (Or.inr (Or.inr ⟨dp, hdp, heq⟩)))
  have hnode : ∀ κ, t.node κ = (s.write (s.recBlock (s.itable dp).inum) d).node κ := by
    intro κ
    unfold Fs.node Fs.slot
    rw [hit, hcont]
    rfl
  have hg : t.gdesc = s.gdesc := by
    unfold Fs.gdesc
    rw [hcont, Function.update_of_ne h2.symm]
  refine ⟨h.of_node hg ?_ (fun ip _ => by rw [hit]) fun κ hκ => (hnode κ).trans (hsame.node κ hκ),
    ?_⟩
  · rw [blockBitmap_of_gdesc hg, hcont, Function.update_of_ne hbb.symm]
    rfl
  · refine contents_congr (by rw [hit]) (by rw [hit]) fun κ hκ hne => ?_
    rw [hcont, Function.update_of_ne]
    intro heq
    exact h.apart κ (hκ.mono (by simpa using hdp)) hne (Or.inr (Or.inr (Or.inr ⟨dp, hdp, heq⟩)))

/-! ### A removal -/

theorem dropLink_files (h : Files P s) (hdp : dp ∈ P) :
    Sat (dropLink dp) s fun _ t => Files P t ∧ t.contents dp = s.contents dp := by
  refine Sat.of_eq (bind_of_ok (setInode_apply s dp _)) ?_
  refine Sat.mono (Files.iupdate_sat (h.setItable rfl rfl) hdp) fun _ t ht => ⟨ht.1, ?_⟩
  rw [ht.2]
  exact contents_setItable rfl rfl

/-- Dropping the reference to the directory leaves its contents, or leaves it without a
type. -/
theorem iunlockput_files (h : Files P s) :
    Sat (iunlockput dp) s fun _ t => (t.itable dp).type = .none ∨
      (Files P t ∧ t.contents dp = s.contents dp) := by
  refine (iunlock_sat s).bind ?_
  rintro - u rfl
  refine (iput_frame _).mono ?_
  rintro - t ⟨-, -, rfl | htype⟩
  · right
    have hu : Files P (s.setItable dp { s.itable dp with locked := false }) :=
      h.setItable rfl rfl
    refine ⟨?_, Eq.trans (contents_setItable ?_ ?_) (contents_setItable ?_ ?_)⟩
    · exact hu.setItable rfl rfl
    all_goals rfl
  · exact Or.inl htype

/-- Dropping the link and the reference to the removed file, which may truncate it,
does not touch the directory. -/
theorem dropTarget_sat (hne : dp ≠ ip) :
    Sat (do dropLink ip; iunlockput ip) s fun _ t => t.itable dp = s.itable dp ∧
      (Files P s → dp ∈ P → ip ∈ P → t.contents dp = s.contents dp) := by
  intro a t hrun
  obtain ⟨_, u, hdrop, hput⟩ := bind_eq_ok.mp hrun
  refine ⟨?_, fun h hdp hip => ?_⟩
  · obtain ⟨_, v, hset, hupd⟩ := bind_eq_ok.mp hdrop
    have hu : u.itable = v.itable := keeps_iupdate ip v _ u hupd
    rw [(iunlockput_frame u _ t hput).1 dp hne, hu]
    cases hset
    rw [Fs.itable_setItable, Function.update_of_ne hne]
  · have htrunc : Trunc ip s t := by
      have hu : Trunc ip s u := by
        obtain ⟨_, v, hset, hupd⟩ := bind_eq_ok.mp hdrop
        cases hset
        refine Trunc.iupdate ?_ h hip _ u hupd
        exact Trunc.refl.of_inode rfl fun _ => Or.inr rfl
      obtain ⟨_, v, hunlock, hput⟩ := bind_eq_ok.mp hput
      obtain rfl := iunlock_sat u _ v hunlock
      refine iput_trunc h hip ?_ _ t hput
      exact hu.of_inode rfl fun _ => Or.inr rfl
    exact htrunc.contents h hip hdp hne

/-- The contents of a directory with the slot at `off` cleared. -/
def withoutSlot (c : List UInt8) (off : ℕ) : List UInt8 :=
  splice c off ((List.range direntSize).map fun _ => 0)

/-- **A removal** leaves the directory with a cleared slot, or without a type. -/
theorem removeEntry_sat (h : Files P s) (hheld : s.blk.held = []) (hdp : dp ∈ P) (hip : ip ∈ P)
    (hne : dp ≠ ip) (off : UInt32) : Sat (removeEntry dp ip off) s fun _ t =>
      (t.itable dp).type = .none ∨ t.contents dp = withoutSlot (s.contents dp) off.toNat := by
  unfold removeEntry
  refine (writei_fills h hheld hdp _ off _).sat.bind fun n u hu => ?_
  obtain ⟨-, -, -, hfiles, -, hn, hcont, -⟩ := hu
  refine Sat.ite (fun _ => Sat.throw) fun hn16 => ?_
  have hwritten : u.contents dp = withoutSlot (s.contents dp) off.toNat := by
    rw [not_not.mp hn16] at hn
    unfold flatWrite at hn hcont
    split at hcont
    · next hrej => rw [if_pos hrej] at hn; cases hn
    · exact hcont
  refine Sat.of_eq (bind_of_ok (getInode_apply u ip)) ?_
  refine Sat.bind (R := fun _ v => Files P v ∧ v.contents dp = u.contents dp) ?_ fun _ v hv => ?_
  · exact Sat.ite (fun _ => dropLink_files hfiles hdp) fun _ => Sat.pure ⟨hfiles, rfl⟩
  refine (iunlockput_files hv.1).bind fun _ w hw => ?_
  intro r t hrun
  obtain ⟨_, x, hdrop, hrun⟩ := bind_eq_ok.mp hrun
  obtain ⟨_, y, hput, hret⟩ := bind_eq_ok.mp hrun
  cases hret
  obtain ⟨hit, hkeep⟩ := dropTarget_sat (P := P) hne () t (bind_eq_ok.mpr ⟨(), x, hdrop, hput⟩)
  rcases hw with htype | ⟨hw, hwc⟩
  · exact Or.inl (by rw [hit]; exact htype)
  · right
    rw [hkeep hw hdp hip, hwc, hv.2, hwritten]

theorem isdiremptyLoop_sat (hip : ip ∈ P) : ∀ (fuel : ℕ) (off : UInt32) (s : Fs Store),
    Files P s → s.blk.held = [] → Sat (isdiremptyLoop ip fuel off) s fun _ t =>
      Files P t ∧ Grows P s t ∧ t.blk.held = [] := by
  intro fuel
  induction fuel with
  | zero => intro off s _ _; exact Sat.throw
  | succ fuel ih =>
    intro off s h hheld
    rw [isdiremptyLoop]
    refine Sat.of_eq (bind_of_ok (getInode_apply s ip)) ?_
    refine Sat.ite (fun _ => ?_) fun _ => Sat.pure ⟨h, Grows.refl, hheld⟩
    refine (readi_sat h hheld hip _ _).bind fun r t ht => ?_
    obtain ⟨htf, hgrows, hheld', -⟩ := ht
    refine Sat.ite (fun _ => Sat.throw) fun _ =>
      Sat.ite (fun _ => Sat.pure ⟨htf, hgrows, hheld'⟩) fun _ => ?_
    exact (ih _ t htf hheld').mono fun _ u hu => ⟨hu.1, hgrows.trans hu.2.1, hu.2.2⟩

theorem removable_sat (hip : ip ∈ P) (h : Files P s) (hheld : s.blk.held = []) (fuel : ℕ)
    (type : InodeType) : Sat (removable fuel ip type) s fun _ t =>
      Files P t ∧ Grows P s t ∧ t.blk.held = [] :=
  Sat.ite (fun _ => isdiremptyLoop_sat hip fuel _ s h hheld) fun _ =>
    Sat.pure ⟨h, Grows.refl, hheld⟩

/-- A cleared slot at the start of a record that a lookup stops at. -/
theorem not_tiles_withoutSlot {c : List UInt8} {name : ℕ → UInt8} {st : Bool} {r : ℕ}
    (ht : Tiles c 0) (hf : Finds c name st 0 r) : ¬Tiles (withoutSlot c r) 0 := by
  have hle : r ≤ c.length := hf.stop_lt.le
  have hbyte : ∀ i, cstr (withoutSlot c r) i =
      if r ≤ i ∧ i < r + direntSize then 0 else cstr c i := by
    intro i
    unfold cstr withoutSlot
    rw [List.getD_eq_getElem?_getD, getElem?_splice hle, List.length_map, List.length_range]
    split
    · next hi =>
      rw [List.getElem?_map, List.getElem?_range (by omega)]
      rfl
    · rw [List.getD_eq_getElem?_getD]
  refine hf.not_tiles ht ?_ (fun i hi => ?_) (le16_zero fun k _ => ?_)
  · unfold withoutSlot
    rw [length_splice _ hle]
    exact le_max_left _ _
  · rw [hbyte, if_neg (by omega)]
  · rw [hbyte, if_pos (by simp only [direntSize]; omega)]

/-- The file that the name stands for, once it has been looked up and read in, and the
directory are well formed together. -/
def TargetApart (fuel : ℕ) (dp : Fin NINODE) (name : List UInt8) (s : Fs Store) : Prop :=
  ∀ u ip off t t', ilock dp s = .ok ((), u) →
    dirlookup fuel dp (cstr name) u = .ok (some (ip, off), t) → ilock ip t = .ok ((), t') →
    Files {dp, ip} t'

/-- **A successful removal breaks the directory**: its records do not tile it any more,
or it has been freed itself. -/
theorem unlinkIn_sat {fuel : ℕ} {name : List UInt8} (h : Files {dp} s) (hheld : s.blk.held = [])
    (hvalid : (s.itable dp).valid = true) (hname : IsName name) (htiles : Tiles (s.contents dp) 0)
    (htarget : TargetApart fuel dp name s) : Sat (unlinkIn fuel dp name) s fun r t => r = 0 →
      (t.itable dp).type = .none ∨ ¬Tiles (t.contents dp) 0 := by
  have hfail : ∀ (m : FsM Store Unit) (u : Fs Store), Sat (do m; return (-1 : ℤ)) u fun r t =>
      r = 0 → (t.itable dp).type = .none ∨ ¬Tiles (t.contents dp) 0 := by
    intro m u
    refine Sat.bind (R := fun _ _ => True) (fun _ _ _ => trivial) fun _ v _ => Sat.pure ?_
    intro h0
    cases h0
  intro r t hrun
  obtain ⟨_, u, hlock, hrun⟩ := bind_eq_ok.mp hrun
  obtain ⟨-, -, -, -, hu⟩ := ilock_sat s _ u hlock
  replace hu := hu hvalid
  have huf : Files {dp} u := by
    rw [hu]
    exact h.setItable rfl rfl
  have huc : u.contents dp = s.contents dp := by
    rw [hu]
    exact contents_setItable rfl rfl
  have huheld : u.blk.held = [] := by
    rw [hu]
    exact hheld
  have hulock : (u.itable dp).locked = true := by
    rw [hu, Fs.itable_setItable, Function.update_self]
  split at hrun
  · exact hfail _ u r t hrun
  obtain ⟨x, v, hlook, hrun⟩ := bind_eq_ok.mp hrun
  obtain ⟨w, hwf, hgrows, hwheld, hx⟩ := dirlookup_sat huf huheld (Finset.mem_singleton_self dp)
    hname.ne_zero (by rw [huc]; exact htiles) fuel x v hlook
  rcases hx with ⟨rfl, rfl⟩ | ⟨ip, off, rfl, hfinds, higet⟩
  · exact hfail _ v r t hrun
  obtain ⟨_, z, hlock', hrun⟩ := bind_eq_ok.mp hrun
  -- the inode found is not the directory, whose lock is taken
  obtain ⟨hother, hsame, -⟩ := iget_frame higet
  have hne : dp ≠ ip := by
    rintro rfl
    have hfree := (ilock_sat v _ z hlock').2.2.2.1
    rw [hsame, hgrows.inode dp] at hfree
    exact absurd (hfree.symm.trans hulock) (by decide)
  have hzf : Files {dp, ip} z := htarget u ip off v z hlock hlook hlock'
  have hzblk : z.blk = w.blk := (ilock_blk v _ z hlock').trans (iget_spec higet).1
  have hzdp : z.itable dp = w.itable dp := by
    rw [(within_ilock v _ z hlock').other dp hne, hother dp hne]
  have hzc : z.contents dp = u.contents dp := by
    rw [← hgrows.contents (Finset.mem_singleton_self dp)]
    exact contents_congr (by rw [hzdp]) (by rw [hzdp]) fun _ _ _ => by rw [hzblk]
  rw [bind_of_ok (getInode_apply z ip)] at hrun
  split at hrun
  · cases hrun
  obtain ⟨empty, y, hempty, hrun⟩ := bind_eq_ok.mp hrun
  obtain ⟨hyf, hgrows', hyheld⟩ := removable_sat (by simp) hzf (by rw [hzblk]; exact hwheld)
    fuel _ empty y hempty
  split at hrun
  · obtain ⟨_, y', -, hrun⟩ := bind_eq_ok.mp hrun
    exact hfail _ y' r t hrun
  intro _
  rcases removeEntry_sat hyf hyheld (by simp) (by simp) hne off r t hrun with htype | hcont
  · exact Or.inl htype
  · right
    rw [hcont, hgrows'.contents (by simp), hzc]
    refine not_tiles_withoutSlot ?_ hfinds
    rw [huc]
    exact htiles

/-! ### What callers expect -/

/-- What a caller expects of `sys_unlink` of `name` in the directory `dp`, where `u` is
the state in which the directory has been found. -/
structure UnlinkOk (u s' : Fs Store) (dp : Fin NINODE) (name : List UInt8) : Prop where
  gone : Resolves s' dp name none
  others : ∀ name', IsName name' → name' ≠ name →
    ∀ r, Resolves s' dp name' r ↔ Resolves u dp name' r
  tiles : Tiles (s'.contents dp) 0

/-- A lookup returns in a directory only. -/
theorem Resolves.type_eq {name : List UInt8} {r : Option UInt32} (h : Resolves s dp name r) :
    (s.itable dp).type = .dir := by
  obtain ⟨fuel, x, t, hrun, -⟩ := h
  unfold dirlookup at hrun
  rw [bind_of_ok (get_apply s)] at hrun
  split at hrun
  · cases hrun
  · next hdir => exact not_not.mp hdir

/-- **A name is removed as callers expect only where none is removed at all.**  For a
directory that is well formed when it is found, the expectations hold exactly when
`sys_unlink` does not return 0. -/
theorem sysUnlink_ok_iff {fuel : ℕ} {cwd : Option (Fin NINODE)} {path name : List UInt8}
    {u : Fs Store}
    (h0 : 0 ∉ path) (hpar : nameiparent fuel cwd path s = .ok (some (dp, name), u))
    (h : Files {dp} u) (hheld : u.blk.held = []) (htiles : Tiles (u.contents dp) 0)
    (htarget : TargetApart fuel dp name u) :
    (∀ s', sysUnlink fuel cwd path s = .ok (0, s') → UnlinkOk u s' dp name) ↔
      ∀ s', sysUnlink fuel cwd path s ≠ .ok (0, s') := by
  constructor
  · intro hok s' hrun
    obtain ⟨hname, hvalid, -⟩ := nameiparent_sat h0 s _ u hpar dp name rfl
    have hin : unlinkIn fuel dp name u = .ok (0, s') := by
      rw [← hrun, sysUnlink, bind_of_ok hpar]
    rcases unlinkIn_sat h hheld hvalid hname htiles htarget 0 s' hin rfl with htype | hbroken
    · have hdir := (hok s' hrun).gone.type_eq
      rw [htype] at hdir
      cases hdir
    · exact hbroken (hok s' hrun).tiles
  · intro hnever s' hrun
    exact absurd hrun (hnever s')

/-- The root directory of `rootImage` with a further name `a`, for the empty file with
inode number 12. -/
def fileRootBytes : List UInt8 :=
  [2, 0, 0, 0, 12, 0, 1, 2, 46, 0, 0, 0,
   2, 0, 0, 0, 12, 0, 2, 2, 46, 46, 0, 0,
   12, 0, 0, 0, 12, 0, 1, 1, 97, 0, 0, 0,
   11, 0, 0, 0, 220, 3, 10, 2, 108, 111, 115, 116, 43, 102, 111, 117, 110, 100]

/-- The image with that directory, which is the current one of a process. -/
def fileRootImage : Fs Store :=
  (imageOf [(3, setUsed (setUsed (setUsed (setUsed Block.zero 0) 2) 3) 7),
    (6, Block.zero.put (3 * INODESIZE) sizeofDinode
      { Ext2Dinode.zero with iMode := ext2TFile, iLinksCount := 1 }.encode),
    (10, bytesBlock fileRootBytes)]).setItable 0
    ⟨1, 2, 1, false, true, .dir, 0, 0, 3, 1024, fun r => if r = 0 then 10 else 0⟩

def unlinksA : Evaluated (((do
    let x ← nameiparent 5 (some 0) [97]
    let u ← get
    ilock 0
    match ← dirlookup 5 0 (cstr [97]) with
    | none => return (x, decide (DirectFiles [0] u ∧ u.blk.held = [] ∧
        tilesBool (u.contents 0) 4 0 = true), none)
    | some (ip, _) => do
      ilock ip
      let t ← get
      return (x, decide (DirectFiles [0] u ∧ u.blk.held = [] ∧
        tilesBool (u.contents 0) 4 0 = true), some (decide (DirectFiles [0, ip] t))) :
      FsM Store (Option (Fin NINODE × List UInt8) × Bool × Option Bool)) fileRootImage).map
        Prod.fst = .ok (some (0, [97]), true, some true)) :=
  ⟨by decide +kernel⟩

/-- The directory is found and well formed, and so is the file that the name `a` stands
for. -/
theorem nameiparent_fileRootImage : ∃ u,
    nameiparent 5 (some 0) [97] fileRootImage = .ok (some (0, [97]), u) ∧ Files {0} u ∧
      u.blk.held = [] ∧ Tiles (u.contents 0) 0 ∧ TargetApart 5 0 [97] u := by
  obtain ⟨t, hrun⟩ := exists_of_map_fst unlinksA.holds
  obtain ⟨x, u, hpar, hrun⟩ := bind_eq_ok.mp hrun
  rw [bind_of_ok (get_apply u)] at hrun
  obtain ⟨_, u₁, hlock, hrun⟩ := bind_eq_ok.mp hrun
  obtain ⟨y, v, hlook, hrun⟩ := bind_eq_ok.mp hrun
  cases y with
  | none => simp at hrun
  | some e =>
    obtain ⟨_, w, hlock', hrun⟩ := bind_eq_ok.mp hrun
    rw [bind_of_ok (get_apply w)] at hrun
    simp only [pure_apply, Except.ok.injEq, Prod.mk.injEq, decide_eq_true_eq,
      Option.some.injEq] at hrun
    obtain ⟨⟨rfl, ⟨hfiles, hheld, htiles⟩, htarget⟩, -⟩ := hrun
    refine ⟨u, hpar, hfiles.files, hheld, .of_bool htiles, ?_⟩
    intro u' ip off t t' h₁ h₂ h₃
    cases hlock.symm.trans h₁
    cases hlook.symm.trans h₂
    cases hlock'.symm.trans h₃
    simpa using htarget.files

/-- The name `a` is removed. -/
theorem sysUnlink_fileRootImage : ∃ s', sysUnlink 5 (some 0) [97] fileRootImage = .ok (0, s') :=
  exists_of_map_fst (by decide +kernel)

/-- Removing the name does not meet the expectations. -/
theorem sysUnlink_ok_iff_fileRootImage : ∃ u,
    nameiparent 5 (some 0) [97] fileRootImage = .ok (some (0, [97]), u) ∧
      ¬∀ s', sysUnlink 5 (some 0) [97] fileRootImage = .ok (0, s') → UnlinkOk u s' 0 [97] := by
  obtain ⟨u, hpar, hfiles, hheld, htiles, htarget⟩ := nameiparent_fileRootImage
  obtain ⟨s', hrun⟩ := sysUnlink_fileRootImage
  refine ⟨u, hpar, fun hok => ?_⟩
  exact (sysUnlink_ok_iff (by decide) hpar hfiles hheld htiles htarget).mp hok s' hrun

/-- **A name that is removed with the ones after it.**  The records of the directory do
not tile it any more. -/
theorem sysUnlink_breaks : ∃ u s', nameiparent 5 (some 0) [97] fileRootImage = .ok
    (some (0, [97]), u) ∧
    Tiles (u.contents 0) 0 ∧ sysUnlink 5 (some 0) [97] fileRootImage = .ok (0, s') ∧
    (s'.itable 0).type = .dir ∧ ¬Tiles (s'.contents 0) 0 ∧ ¬UnlinkOk u s' 0 [97] := by
  obtain ⟨u, hpar, hfiles, hheld, htiles, htarget⟩ := nameiparent_fileRootImage
  obtain ⟨t, hrun⟩ := exists_of_map_fst (a := ((0 : ℤ), InodeType.dir)) (m := do
    let r ← sysUnlink 5 (some 0) [97]
    let s ← get
    return (r, (s.itable 0).type)) (s := fileRootImage) (by decide +kernel)
  obtain ⟨r, s', hunlink, hrun⟩ := bind_eq_ok.mp hrun
  rw [bind_of_ok (get_apply s')] at hrun
  simp only [pure_apply, Except.ok.injEq, Prod.mk.injEq] at hrun
  obtain ⟨⟨rfl, hdir⟩, -⟩ := hrun
  obtain ⟨hname, hvalid, -⟩ := nameiparent_sat (by decide) fileRootImage _ u hpar 0 [97] rfl
  have hin : unlinkIn 5 0 [97] u = .ok (0, s') := by
    rw [← hunlink, sysUnlink, bind_of_ok hpar]
  have hbroken : ¬Tiles (s'.contents 0) 0 := by
    rcases unlinkIn_sat hfiles hheld hvalid hname htiles htarget 0 s' hin rfl with htype | hbroken
    · rw [hdir] at htype
      cases htype
    · exact hbroken
  exact ⟨u, s', hpar, htiles, hunlink, hdir, hbroken, fun hok => hbroken hok.tiles⟩

end Store

end Xv6Ext2
