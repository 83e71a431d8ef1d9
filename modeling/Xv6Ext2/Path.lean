import Mathlib.Data.List.TakeWhile
import Xv6Ext2.Dir

/-!
# Path names

`skipelem`, `namex`, `namei` and `nameiparent` of `kernel/fs.c`.  A path is the list
of its bytes up to the terminating zero.  An element is cut after 14 bytes.

## Main definitions

* `skipelem` — the next element of a path and what follows it.
* `namex`, `namei`, `nameiparent` — walk down a path; `nameiparent` stops before the
  last element and returns it.

## Main results

* `skipelem_isName` — the elements of a path are names.
* `nameiparent_sat` — what `nameiparent` returns: a directory that has been read in
  and is not locked, and a name.
-/

namespace Xv6Ext2

open CString Prog

variable {σ β : Type} [BlockLayer σ β]

/-! ### The source functions -/

/-- The device of the root file system. -/
abbrev ROOTDEV : UInt32 := 1

/-- The inode number of the root directory. -/
abbrev EXT2_ROOTINO : UInt32 := 2

/-- Copy the next path element, and return it with the path that follows it, which has
no leading slashes. -/
def skipelem (path : List UInt8) : Option (List UInt8 × List UInt8) :=
  match path.dropWhile (· = 47) with
  | [] => none
  | c :: path =>
    some (((c :: path).takeWhile (· ≠ 47)).take DIRSIZ,
      ((c :: path).dropWhile (· ≠ 47)).dropWhile (· = 47))

/-- The loop of `namex`, with the number of rounds left. -/
def namexLoop (fuel : ℕ) (parent : Bool) :
    ℕ → List UInt8 → Fin NINODE → FsM σ (Option (Fin NINODE × List UInt8))
  | 0, _, _ => throw .fuel
  | n + 1, path, ip =>
    match skipelem path with
    | none =>
      if parent then do
        iput ip
        return none
      else return some (ip, [])
    | some (name, path) => do
      ilock ip
      let i ← getInode ip
      if i.type ≠ .dir then do
        iunlockput ip
        return none
      else if parent = true ∧ path = [] then do
        iunlock ip
        return some (ip, name)
      else do
        match ← dirlookup fuel ip (cstr name) with
        | none => do
          iunlockput ip
          return none
        | some (next, _) => do
          iunlockput ip
          namexLoop fuel parent n path next

/-- `if (*(path+1)) { if (!ip->valid && ip->inum == EXT2_ROOTINO) rootilock(ip); }`,
which for the empty path reads past its end. -/
def rootRead (path : List UInt8) (ip : Fin NINODE) : FsM σ Unit := do
  let s ← get
  if cstr (path ++ 0 :: s.junk) 1 ≠ 0 ∧ (s.itable ip).valid = false ∧
      (s.itable ip).inum = EXT2_ROOTINO then rootilock ip
  else return ()

/-- Where a walk starts: the root directory or the current one of the process. -/
def startInode (cwd : Option (Fin NINODE)) (path : List UInt8) : FsM σ (Fin NINODE) :=
  if path.head? = some 47 then iget ROOTDEV EXT2_ROOTINO
  else match cwd with
    | some ip => idup ip
    | none => throw .fault

/-- Look up the inode of a path name; with `parent`, that of its parent, and the final
path element. -/
def namex (fuel : ℕ) (cwd : Option (Fin NINODE)) (path : List UInt8) (parent : Bool) :
    FsM σ (Option (Fin NINODE × List UInt8)) := do
  let ip ← startInode cwd path
  rootRead path ip
  namexLoop fuel parent (path.length + 1) path ip

/-- `namei(path)` -/
def namei (fuel : ℕ) (cwd : Option (Fin NINODE)) (path : List UInt8) :
    FsM σ (Option (Fin NINODE)) := do
  let r ← namex fuel cwd path false
  return r.map Prod.fst

/-- `nameiparent(path, name)` -/
def nameiparent (fuel : ℕ) (cwd : Option (Fin NINODE)) (path : List UInt8) :
    FsM σ (Option (Fin NINODE × List UInt8)) :=
  namex fuel cwd path true

/-! ### Names -/

theorem mem_dropWhile {α : Type} {p : α → Bool} {l : List α} {a : α} (h : a ∈ l.dropWhile p) :
    a ∈ l :=
  (List.dropWhile_suffix p).mem h

/-- **The elements of a path are names**, and what follows is again a path. -/
theorem skipelem_isName {path name rest : List UInt8} (h0 : 0 ∉ path)
    (h : skipelem path = some (name, rest)) : IsName name ∧ 0 ∉ rest := by
  unfold skipelem at h
  split at h
  · cases h
  · next c l hl =>
    have hc : c ≠ 47 := by
      have := List.head?_dropWhile_not (· = (47 : UInt8)) path
      rw [hl] at this
      simpa using this
    have hmem : ∀ a ∈ c :: l, a ∈ path := fun a ha => mem_dropWhile (hl ▸ ha)
    cases h
    refine ⟨⟨?_, ?_, fun h => h0 ?_, fun h => ?_⟩, fun h => h0 ?_⟩
    · rw [List.takeWhile_cons_of_pos (by simpa using hc)]
      simp [DIRSIZ]
    · exact List.length_take_le _ _
    · exact hmem 0 (List.takeWhile_subset _ (List.mem_of_mem_take h))
    · have := List.mem_takeWhile_imp (List.mem_of_mem_take h)
      simp at this
    · exact hmem 0 (mem_dropWhile (mem_dropWhile h))

/-- What `nameiparent` returns. -/
theorem namexLoop_parent {fuel : ℕ} : ∀ (n : ℕ) (path : List UInt8) (ip : Fin NINODE) (s : Fs σ),
    Sat (namexLoop fuel true n path ip) s fun r t => ∀ dp name, r = some (dp, name) →
      (0 ∉ path → IsName name) ∧ (t.itable dp).valid = true ∧ (t.itable dp).type = .dir := by
  intro n
  induction n with
  | zero => intro path ip s; exact Sat.throw
  | succ n ih =>
    intro path ip s
    rw [namexLoop]
    split
    · refine Sat.bind (R := fun _ _ => True) (fun _ _ _ => trivial) fun _ t _ => ?_
      exact Sat.pure fun dp name h => by cases h
    · next name rest hskip =>
      refine (ilock_sat s).bind fun _ t ht => ?_
      refine Sat.of_eq (bind_of_ok (getInode_apply t ip)) ?_
      refine Sat.ite (fun _ => ?_) fun hdir => Sat.ite (fun _ => ?_) fun _ => ?_
      · refine Sat.bind (R := fun _ _ => True) (fun _ _ _ => trivial) fun _ t _ => ?_
        exact Sat.pure fun dp name h => by cases h
      · -- the last element: the directory is unlocked and returned
        refine (iunlock_sat t).bind fun _ u hu => Sat.pure ?_
        intro dp name' heq
        cases heq
        rw [hu, Fs.itable_setItable, Function.update_self]
        exact ⟨fun h0 => (skipelem_isName h0 hskip).1, ht.1, not_not.mp hdir⟩
      · refine Sat.bind (R := fun _ _ => True) (fun _ _ _ => trivial) fun r u _ => ?_
        cases r with
        | none =>
          refine Sat.bind (R := fun _ _ => True) (fun _ _ _ => trivial) fun _ t _ => ?_
          exact Sat.pure fun dp name h => by cases h
        | some e =>
          refine Sat.bind (R := fun _ _ => True) (fun _ _ _ => trivial) fun _ t _ => ?_
          refine (ih rest e.1 t).mono fun r u h dp name' heq => ?_
          obtain ⟨hname, hvalid, hdir⟩ := h dp name' heq
          exact ⟨fun h0 => hname (skipelem_isName h0 hskip).2, hvalid, hdir⟩

/-- The directory that `nameiparent` returns has been read in. -/
theorem nameiparent_dir {fuel : ℕ} {cwd : Option (Fin NINODE)} {path : List UInt8} (s : Fs σ) :
    Sat (nameiparent fuel cwd path) s fun r t => ∀ dp name, r = some (dp, name) →
      (0 ∉ path → IsName name) ∧ (t.itable dp).valid = true ∧ (t.itable dp).type = .dir := by
  refine Sat.bind (R := fun _ _ => True) (fun _ _ _ => trivial) fun ip t _ => ?_
  refine Sat.bind (R := fun _ _ => True) (fun _ _ _ => trivial) fun _ u _ => ?_
  exact namexLoop_parent _ path ip u

theorem nameiparent_sat {fuel : ℕ} {cwd : Option (Fin NINODE)} {path : List UInt8} (h0 : 0 ∉ path)
    (s : Fs σ) : Sat (nameiparent fuel cwd path) s fun r t => ∀ dp name, r = some (dp, name) →
      IsName name ∧ (t.itable dp).valid = true ∧ (t.itable dp).type = .dir := by
  refine (nameiparent_dir s).mono fun r t h dp name heq => ?_
  obtain ⟨hname, hdir⟩ := h dp name heq
  exact ⟨hname h0, hdir⟩

end Xv6Ext2
