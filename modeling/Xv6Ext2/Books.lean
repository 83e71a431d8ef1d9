import Mathlib.Data.Fintype.Prod
import Mathlib.Tactic.Abel
import Xv6Ext2.Kernel
import Xv6Ext2.Refs

/-!
# The books of the kernel

Two kinds of references are counted in the kernel: those to entries of the file table,
held by file descriptors, and those to entries of the inode table, held by current
directories and by open files.  The *books* of a state are what the counts say less
what is held, for the entries of both tables.  They balance when all of it is 0.

Each function of the kernel adds a known amount to the books, given that the tables are
*tidy*: what is not in use holds nothing.

## Main definitions

* `Kernel.owed`, `Kernel.due` — count less holders, for files and for inodes.
* `Kernel.books`, `fileRef`, `inodeRef` — both, and what one reference is worth.
* `Tidy` — processes that have gone hold nothing, and free files have no type.
* `Works` — the same in the middle of a call, with the files it has taken so far.

## Main results

* `setFile_books`, `setProc_books`, `setOfile_books` — what one assignment adds.
* `filealloc_books`, `filedup_books`, `fileclose_books`, `fdalloc_books` — what the
  functions on files and descriptors add.
* `filealloc_works`, `fileclose_works`, `fdalloc_works` — they leave the tables tidy.
-/

namespace Xv6Ext2

open Function Prog RefCount

variable {σ β : Type} [BlockLayer σ β] {α : Type} {k : Kernel σ} {p : Fin NPROC}
  {f : Fin NFILE}

/-! ### Counts and holders -/

/-- The inode that a file holds: `ip` means something for `FD_INODE` and `FD_DEVICE`. -/
def File.inode (x : File) : Option (Fin NINODE) :=
  match x.type with
  | .inode | .device => x.ip
  | .none | .pipe => none

/-- The file descriptors of all processes. -/
def Kernel.slots (k : Kernel σ) (i : Fin NPROC × Fin NOFILE) : Option (Fin NFILE) :=
  (k.proc i.1).ofile i.2

/-- The count of a file less the descriptors that point to it. -/
def Kernel.owed (k : Kernel σ) : Fin NFILE → ℤ :=
  (fun f => (k.ftable f).ref) - pointers k.slots

/-- The count of an inode less the current directories and files that hold it. -/
def Kernel.due (k : Kernel σ) : Fin NINODE → ℤ :=
  k.fs.refs - pointers (Proc.cwd ∘ k.proc) - pointers (File.inode ∘ k.ftable)

/-- Amounts of references to files and to inodes. -/
abbrev Books := (Fin NFILE → ℤ) × (Fin NINODE → ℤ)

/-- What the counts say less what is held. -/
def Kernel.books (k : Kernel σ) : Books := (k.owed, k.due)

/-- One reference to a file. -/
def fileRef (o : Option (Fin NFILE)) : Books := (point o, 0)

/-- One reference to an inode. -/
def inodeRef (o : Option (Fin NINODE)) : Books := (0, point o)

@[simp] theorem fileRef_none : fileRef none = 0 := by
  rw [fileRef, point_none]
  rfl

@[simp] theorem inodeRef_none : inodeRef none = 0 := by
  rw [inodeRef, point_none]
  rfl

/-! ### Changes of one entry -/

/-- A run of a program of the file system. -/
theorem onFs_sat {m : FsM σ α} {Q : α → Fs σ → Prop} (h : Sat m k.fs Q) :
    Sat (onFs m) k fun a k' => Q a k'.fs ∧ k' = { k with fs := k'.fs } := by
  intro a k' hrun
  unfold onFs at hrun
  rcases hm : m k.fs with e | ⟨b, fs⟩
  · rw [hm] at hrun
    cases hrun
  · rw [hm] at hrun
    cases hrun
    exact ⟨h _ _ hm, rfl⟩

theorem onFs_frame {m : FsM σ α} {k' : Kernel σ} {a : α} (h : onFs m k = .ok (a, k')) :
    k' = { k with fs := k'.fs } :=
  (onFs_sat (Q := fun _ _ => True) (fun _ _ _ => trivial) a k' h).2

theorem onFs_proc {m : FsM σ α} {k' : Kernel σ} {a : α} (h : onFs m k = .ok (a, k')) :
    k'.proc = k.proc := by
  rw [onFs_frame h]

/-- References taken in the file system are not yet held by anyone. -/
theorem Kernel.books_withFs {fs : Fs σ} {d : Fin NINODE → ℤ} (h : fs.refs = k.fs.refs + d) :
    Kernel.books { k with fs := fs } = k.books + (0, d) := by
  refine Prod.ext (add_zero _).symm ?_
  show fs.refs - pointers (Proc.cwd ∘ k.proc) - pointers (File.inode ∘ k.ftable) =
    k.fs.refs - pointers (Proc.cwd ∘ k.proc) - pointers (File.inode ∘ k.ftable) + d
  rw [h]
  abel

theorem onFs_books {m : FsM σ α} {d : α → Fin NINODE → ℤ} (h : Adds Fs.refs m k.fs d) :
    Adds Kernel.books (onFs m) k fun a => (0, d a) := by
  intro a k' hrun
  obtain ⟨hrefs, hk'⟩ := onFs_sat h a k' hrun
  rw [hk']
  exact Kernel.books_withFs hrefs

theorem onFs_books_none {m : FsM σ α} (h : Adds Fs.refs m k.fs fun _ => 0) :
    Adds Kernel.books (onFs m) k fun _ => 0 :=
  onFs_books h

theorem iput_books {ip : Fin NINODE} :
    Adds Kernel.books (onFs (iput ip)) k fun _ => -inodeRef (some ip) :=
  (onFs_books iput_refs).last fun _ => Prod.ext neg_zero.symm rfl

theorem iunlockput_books {ip : Fin NINODE} :
    Adds Kernel.books (onFs (iunlockput ip)) k fun _ => -inodeRef (some ip) :=
  (onFs_books iunlockput_refs).last fun _ => Prod.ext neg_zero.symm rfl

/-- A change that leaves the tables alone. -/
theorem modify_books {g : Kernel σ → Kernel σ} (h : (g k).books = k.books) :
    Adds Kernel.books (modify g : KM σ PUnit) k fun _ => 0 := by
  intro _ k' hrun
  cases hrun
  rw [h, add_zero]

theorem get_books : Adds Kernel.books (get : KM σ (Kernel σ)) k fun _ => 0 := by
  intro _ k' hrun
  cases hrun
  rw [add_zero]

/-- Replacing a file changes its count and what it holds. -/
theorem setFile_books {g : File → File} :
    Adds Kernel.books (setFile f g) k fun _ =>
      ((g (k.ftable f)).ref - (k.ftable f).ref) • fileRef (some f) +
        (inodeRef (k.ftable f).inode - inodeRef (g (k.ftable f)).inode) := by
  intro _ k' hrun
  cases hrun
  refine Prod.ext ?_ ?_
  · funext f'
    show (update k.ftable f (g (k.ftable f)) f').ref - pointers k.slots f' =
      (k.ftable f').ref - pointers k.slots f' +
        (((g (k.ftable f)).ref - (k.ftable f).ref) * point (some f) f' + (0 - 0))
    by_cases hf : f' = f
    · subst hf
      rw [update_self, point_some_self]
      ring
    · rw [update_of_ne hf, point, if_neg fun h => hf (Option.some.inj h).symm]
      ring
  · show k.fs.refs - pointers (Proc.cwd ∘ k.proc) -
        pointers (File.inode ∘ update k.ftable f (g (k.ftable f))) = _
    rw [comp_update, pointers_update]
    show _ = k.fs.refs - pointers (Proc.cwd ∘ k.proc) - pointers (File.inode ∘ k.ftable) +
      (((g (k.ftable f)).ref - (k.ftable f).ref) • (0 : Fin NINODE → ℤ) +
        (point (k.ftable f).inode - point (g (k.ftable f)).inode))
    rw [smul_zero]
    simp only [Function.comp_apply]
    abel

/-- A change of a process apart from its descriptors. -/
theorem setProc_books {g : Proc → Proc} (h : (g (k.proc p)).ofile = (k.proc p).ofile) :
    Adds Kernel.books (setProc p g) k fun _ =>
      inodeRef (k.proc p).cwd - inodeRef (g (k.proc p)).cwd := by
  intro _ k' hrun
  cases hrun
  have hslots : Kernel.slots { k with proc := update k.proc p (g (k.proc p)) } =
      k.slots := by
    funext i
    show (update k.proc p (g (k.proc p)) i.1).ofile i.2 = (k.proc i.1).ofile i.2
    by_cases hi : i.1 = p
    · rw [hi, update_self, h]
    · rw [update_of_ne hi]
  refine Prod.ext ?_ ?_
  · show (fun f => (k.ftable f).ref) - pointers (Kernel.slots _) = _
    rw [hslots]
    exact ((congrArg (k.owed + ·) (sub_self (0 : Fin NFILE → ℤ))).trans (add_zero _)).symm
  · show k.fs.refs - pointers (Proc.cwd ∘ update k.proc p (g (k.proc p))) -
        pointers (File.inode ∘ k.ftable) = _
    rw [comp_update, pointers_update]
    show _ = k.fs.refs - pointers (Proc.cwd ∘ k.proc) - pointers (File.inode ∘ k.ftable) +
      (point (k.proc p).cwd - point (g (k.proc p)).cwd)
    simp only [Function.comp_apply]
    abel

theorem setOfile_books {fd : Fin NOFILE} {o : Option (Fin NFILE)} :
    Adds Kernel.books (setOfile p fd o) k fun _ =>
      fileRef ((k.proc p).ofile fd) - fileRef o := by
  intro _ k' hrun
  cases hrun
  set x := k.proc p with hx
  set y : Proc := { x with ofile := update x.ofile fd o } with hy
  have hslots : Kernel.slots { k with proc := update k.proc p y } =
      update k.slots (p, fd) o := by
    funext i
    show (update k.proc p y i.1).ofile i.2 = update k.slots (p, fd) o i
    by_cases hi : i.1 = p
    · rw [hi, update_self]
      show update x.ofile fd o i.2 = _
      by_cases hfd : i.2 = fd
      · rw [hfd, update_self, show i = (p, fd) from Prod.ext hi hfd,
          update_self]
      · rw [update_of_ne hfd, update_of_ne fun h => hfd (congrArg Prod.snd h),
          Kernel.slots, hi]
    · rw [update_of_ne hi, update_of_ne fun h => hi (congrArg Prod.fst h)]
      rfl
  refine Prod.ext ?_ ?_
  · show (fun f => (k.ftable f).ref) - pointers (Kernel.slots _) = _
    rw [hslots, pointers_update]
    show _ = (fun f => (k.ftable f).ref) - pointers k.slots + (point (x.ofile fd) - point o)
    show _ - (pointers k.slots - point (x.ofile fd) + point o) = _
    abel
  · show k.fs.refs - pointers (Proc.cwd ∘ update k.proc p y) - _ = _
    rw [comp_update, pointers_update]
    show _ = k.fs.refs - pointers (Proc.cwd ∘ k.proc) - pointers (File.inode ∘ k.ftable) + (0 - 0)
    show k.fs.refs - (pointers (Proc.cwd ∘ k.proc) - point x.cwd + point x.cwd) - _ = _
    abel

/-! ### Files -/

theorem ref_of_freeFile (h : freeFile k = some f) : (k.ftable f).ref = 0 := by
  simpa using List.find?_some h

theorem ofile_of_freeFd {x : Proc} {fd : Fin NOFILE} (h : freeFd x = some fd) :
    x.ofile fd = none := by
  simpa using List.find?_some h

/-- A free entry, taken. -/
def Kernel.takeFile (k : Kernel σ) (f : Fin NFILE) : Kernel σ :=
  let x := k.ftable f
  { k with ftable := update k.ftable f { x with ref := 1 } }

/-- A descriptor, assigned. -/
def Kernel.setSlot (k : Kernel σ) (p : Fin NPROC) (fd : Fin NOFILE) (o : Option (Fin NFILE)) :
    Kernel σ :=
  let x := k.proc p
  { k with proc := update k.proc p { x with ofile := update x.ofile fd o } }

theorem filealloc_sat : Sat filealloc k fun r k' => r = freeFile k ∧
    k' = r.elim k k.takeFile := by
  intro r k' h
  obtain ⟨_, _, ⟨⟩, h⟩ := bind_eq_ok.mp h
  cases hf : freeFile k with
  | none =>
    simp only [hf] at h
    cases h
    exact ⟨rfl, rfl⟩
  | some i =>
    simp only [hf] at h
    obtain ⟨_, _, ⟨⟩, h⟩ := bind_eq_ok.mp h
    cases h
    exact ⟨rfl, rfl⟩

theorem fdalloc_sat : Sat (fdalloc p f) k fun r k' => r = freeFd (k.proc p) ∧
    k' = r.elim k fun fd => k.setSlot p fd (some f) := by
  intro r k' h
  obtain ⟨_, _, ⟨⟩, h⟩ := bind_eq_ok.mp h
  cases hf : freeFd (k.proc p) with
  | none =>
    simp only [hf] at h
    cases h
    exact ⟨rfl, rfl⟩
  | some i =>
    simp only [hf] at h
    obtain ⟨_, _, ⟨⟩, h⟩ := bind_eq_ok.mp h
    cases h
    exact ⟨rfl, rfl⟩

theorem argfd_sat {fd : ℤ} : Sat (argfd p fd) k fun r k' => r = argFile (k.proc p) fd ∧ k' = k := by
  intro r k' h
  cases h
  exact ⟨rfl, rfl⟩

theorem ofile_of_argFile {x : Proc} {fd : ℤ} {i : Fin NOFILE} (h : argFile x fd = some (i, f)) :
    x.ofile i = some f := by
  unfold argFile at h
  split at h
  · obtain ⟨f', hf', heq⟩ := Option.map_eq_some_iff.mp h
    cases heq
    exact hf'
  · cases h

theorem filealloc_books : Adds Kernel.books (filealloc : KM σ _) k fun r => fileRef r := by
  unfold filealloc
  apply Adds.skip get_books
  rintro _ _ ⟨⟩
  split
  · exact Adds.pure fileRef_none
  · next f hf =>
    apply Adds.bind setFile_books
    intro _ k' _
    apply Adds.pure
    have hinode : ({ k.ftable f with ref := 1 } : File).inode = (k.ftable f).inode := rfl
    rw [ref_of_freeFile hf, hinode, sub_self, add_zero, sub_zero, one_smul, sub_self]

theorem filedup_books : Adds Kernel.books (filedup f : KM σ Unit) k fun _ => fileRef (some f) := by
  unfold filedup
  apply Adds.skip get_books
  rintro _ _ ⟨⟩
  apply Adds.ite (fun _ => Adds.throw)
  intro _
  apply setFile_books.last
  intro _
  have hinode : ({ k.ftable f with ref := (k.ftable f).ref + 1 } : File).inode =
    (k.ftable f).inode := rfl
  rw [hinode, add_sub_cancel_left, one_smul, sub_self, add_zero]

theorem fileRelease_books {x : File} :
    Adds Kernel.books (fileRelease x : KM σ Unit) k fun _ => -inodeRef x.inode := by
  unfold fileRelease File.inode
  cases x.type with
  | none => exact Adds.pure (by rw [inodeRef_none, neg_zero])
  | pipe =>
    show Adds Kernel.books (pipeclose x.pipe x.writable) k fun _ => -inodeRef none
    rw [inodeRef_none, neg_zero]
    unfold pipeclose
    cases x.pipe with
    | none => exact Adds.throw
    | some i => exact modify_books rfl
  | inode =>
    cases x.ip with
    | none => exact Adds.throw
    | some ip => exact iput_books
  | device =>
    cases x.ip with
    | none => exact Adds.throw
    | some ip => exact iput_books

/-- **`fileclose` drops one reference to the file**, and the file's own to its inode when
it releases the entry. -/
theorem fileclose_books :
    Adds Kernel.books (fileclose f : KM σ Unit) k fun _ => -fileRef (some f) := by
  unfold fileclose
  apply Adds.skip get_books
  rintro _ _ ⟨⟩
  apply Adds.ite (fun _ => Adds.throw)
  intro hge
  apply Adds.ite
  · intro _
    apply setFile_books.last
    intro _
    have hinode : ({ k.ftable f with ref := (k.ftable f).ref - 1 } : File).inode =
      (k.ftable f).inode := rfl
    rw [hinode, sub_sub_cancel_left, neg_one_smul, sub_self, add_zero]
  · intro hle
    apply Adds.bind setFile_books
    intro _ k' _
    apply fileRelease_books.last
    intro _
    have href : (k.ftable f).ref = 1 := by omega
    have hinode : ({ k.ftable f with ref := 0, type := .none } : File).inode = none := rfl
    rw [href, hinode, inodeRef_none, zero_sub, neg_one_smul]
    abel

theorem fdalloc_books :
    Adds Kernel.books (fdalloc p f : KM σ _) k fun r => -fileRef (r.map fun _ => f) := by
  unfold fdalloc
  apply Adds.skip get_books
  rintro _ _ ⟨⟩
  split
  · exact Adds.pure (by rw [Option.map_none, fileRef_none, neg_zero])
  · next fd hfd =>
    apply Adds.bind setOfile_books
    intro _ k' _
    apply Adds.pure
    rw [ofile_of_freeFd hfd, fileRef_none, Option.map_some]
    abel

/-! ### Tidy tables -/

/-- The process is not there, or has exited. -/
def Proc.Gone (x : Proc) : Prop := x.state = .unused ∨ x.state = .zombie

/-- The process holds no references. -/
def Proc.Bare (x : Proc) : Prop := (∀ fd, x.ofile fd = none) ∧ x.cwd = none

/-- What is not in use holds nothing. -/
structure Tidy (k : Kernel σ) : Prop where
  gone : ∀ p, (k.proc p).Gone → (k.proc p).Bare
  free : ∀ f, (k.ftable f).ref = 0 → (k.ftable f).type = .none

/-- Process `p` is in a system call, in which it has taken the files `L` and not yet given
them a type, and the tables are tidy. -/
structure Works (p : Fin NPROC) (L : List (Fin NFILE)) (k : Kernel σ) : Prop extends Tidy k where
  runnable : (k.proc p).state = .runnable
  nodup : L.Nodup
  taken : ∀ f ∈ L, (k.ftable f).ref ≠ 0 ∧ (k.ftable f).type = .none

variable {L : List (Fin NFILE)}

theorem Tidy.congr {k' : Kernel σ} (h : Tidy k) (hproc : k'.proc = k.proc)
    (hftable : k'.ftable = k.ftable) : Tidy k' where
  gone := by rw [hproc]; exact h.gone
  free := by rw [hftable]; exact h.free

theorem Works.congr {k' : Kernel σ} (h : Works p L k) (hproc : k'.proc = k.proc)
    (hftable : k'.ftable = k.ftable) : Works p L k' where
  toTidy := h.toTidy.congr hproc hftable
  runnable := by rw [hproc]; exact h.runnable
  nodup := h.nodup
  taken := by rw [hftable]; exact h.taken

theorem Works.forget (h : Works p L k) : Works p [] k :=
  { h with nodup := List.nodup_nil, taken := fun _ hf => absurd hf List.not_mem_nil }

/-- The file taken last holds nothing yet. -/
theorem Works.inode_eq (h : Works p L k) (hf : f ∈ L) : (k.ftable f).inode = none := by
  rw [File.inode, (h.taken f hf).2]

theorem onFs_works {m : FsM σ α} (h : Works p L k) : Sat (onFs m) k fun _ k' => Works p L k' := by
  intro a k' hrun
  rw [onFs_frame hrun]
  exact h.congr rfl rfl

theorem modify_works {g : Kernel σ → Kernel σ} (h : Works p L k) (hproc : (g k).proc = k.proc)
    (hftable : (g k).ftable = k.ftable) :
    Sat (modify g : KM σ PUnit) k fun _ k' => Works p L k' := by
  rintro _ k' ⟨⟩
  exact h.congr hproc hftable

/-- Replacing a file that is not, or no longer, among those taken. -/
theorem Works.setFile {x : File} (h : Works p L k) (hx : x.ref = 0 → x.type = .none) :
    Works p (L.erase f) { k with ftable := update k.ftable f x } where
  gone := h.gone
  free f' hf' := by
    revert hf'
    by_cases hf : f' = f
    · subst hf
      simpa only [update_self] using hx
    · simpa only [update_of_ne hf] using h.free f'
  runnable := h.runnable
  nodup := h.nodup.erase f
  taken f' hf' := by
    obtain ⟨hf, hf'⟩ := h.nodup.mem_erase_iff.mp hf'
    simpa only [update_of_ne hf] using h.taken f' hf'

/-- Taking a file. -/
theorem Works.take (h : Works p L k) (hf : f ∉ L) (href : (k.ftable f).ref ≠ 0)
    (htype : (k.ftable f).type = .none) : Works p (f :: L) k :=
  { h with
    nodup := List.nodup_cons.mpr ⟨hf, h.nodup⟩
    taken := by
      intro f' hf'
      rcases List.mem_cons.mp hf' with rfl | hf'
      · exact ⟨href, htype⟩
      · exact h.taken f' hf' }

theorem filealloc_works (h : Works p L k) :
    Sat filealloc k fun r k' => Works p (r.toList ++ L) k' := by
  rintro r k' hrun
  obtain ⟨hr, rfl⟩ := filealloc_sat r k' hrun
  cases r with
  | none => exact h
  | some f =>
    have href := ref_of_freeFile hr.symm
    have hf : f ∉ L := fun hf => (h.taken f hf).1 href
    have hset : Works p (L.erase f) (k.takeFile f) := h.setFile fun h => absurd h one_ne_zero
    rw [List.erase_of_not_mem hf] at hset
    have hself : (k.takeFile f).ftable f = { k.ftable f with ref := 1 } := update_self ..
    refine hset.take hf ?_ ?_
    · rw [hself]
      exact one_ne_zero
    · rw [hself]
      exact h.free f href

/-- Giving a type to a file that has been taken. -/
theorem setFile_works {g : File → File} (h : Works p L k) (hf : f ∈ L)
    (hg : ∀ x, (g x).ref = x.ref) : Sat (setFile f g) k fun _ k' => Works p (L.erase f) k' := by
  rintro _ k' ⟨⟩
  apply h.setFile
  rw [hg]
  exact fun href => absurd href (h.taken f hf).1

theorem filedup_works (h : Works p [] k) : Sat (filedup f) k fun _ k' => Works p [] k' := by
  unfold filedup
  rintro _ k' hrun
  obtain ⟨_, _, ⟨⟩, hrun⟩ := bind_eq_ok.mp hrun
  split at hrun
  · cases hrun
  · next hge =>
    cases hrun
    apply h.setFile
    show (k.ftable f).ref + 1 = 0 → _
    omega

/-- Releasing a file changes the file system or the pipes. -/
theorem fileRelease_sat {x : File} {I : Kernel σ → Prop} (h : I k)
    (hfs : ∀ fs, I { k with fs := fs }) (hpipes : ∀ pipes, I { k with pipes := pipes }) :
    Sat (fileRelease x) k fun _ k' => I k' := by
  have hip : ∀ ip, Sat (onFs (iput ip)) k fun _ k' => I k' := by
    intro ip _ k' hrun
    rw [onFs_frame hrun]
    exact hfs _
  unfold fileRelease
  cases x.type with
  | none => exact Sat.pure h
  | pipe =>
    show Sat (pipeclose x.pipe x.writable) k _
    unfold pipeclose
    cases x.pipe with
    | none => exact Sat.throw
    | some i =>
      rintro _ _ ⟨⟩
      exact hpipes _
  | inode =>
    cases x.ip with
    | none => exact Sat.throw
    | some ip => exact hip ip
  | device =>
    cases x.ip with
    | none => exact Sat.throw
    | some ip => exact hip ip

theorem fileclose_works (h : Works p L k) :
    Sat (fileclose f) k fun _ k' => Works p (L.erase f) k' := by
  unfold fileclose
  rintro _ k' hrun
  obtain ⟨_, _, ⟨⟩, hrun⟩ := bind_eq_ok.mp hrun
  split at hrun
  · cases hrun
  split at hrun
  · next hpos =>
    cases hrun
    exact h.setFile fun h => absurd h (ne_of_gt hpos)
  · obtain ⟨_, _, ⟨⟩, hrun⟩ := bind_eq_ok.mp hrun
    have hset := h.setFile (f := f) (x := { k.ftable f with ref := 0, type := .none }) fun _ => rfl
    exact fileRelease_sat (I := Works p (L.erase f)) hset (fun _ => hset.congr rfl rfl)
      (fun _ => hset.congr rfl rfl) _ _ hrun

theorem Tidy.setProc {q : Fin NPROC} {x : Proc} (h : Tidy k) (hx : x.Gone → x.Bare) :
    Tidy { k with proc := update k.proc q x } where
  gone p' := by
    by_cases hq : p' = q
    · subst hq
      simpa only [update_self] using hx
    · simpa only [update_of_ne hq] using h.gone p'
  free := h.free

/-- Changing a process that goes on, or that has gone and holds nothing. -/
theorem setProc_works {q : Fin NPROC} {g : Proc → Proc} (h : Works p L k)
    (hgone : (g (k.proc q)).Gone → (g (k.proc q)).Bare)
    (hp : p = q → (g (k.proc q)).state = .runnable) :
    Sat (setProc q g) k fun _ k' => Works p L k' := by
  rintro _ k' ⟨⟩
  refine { h with toTidy := h.toTidy.setProc hgone, runnable := ?_ }
  show (update k.proc q (g (k.proc q)) p).state = .runnable
  by_cases hq : p = q
  · rw [hq, update_self]
    exact hp hq
  · rw [update_of_ne hq]
    exact h.runnable

theorem not_gone_of_runnable {x : Proc} (h : x.state = .runnable) : ¬x.Gone := by
  rintro (hx | hx) <;> rw [h] at hx <;> cases hx

theorem setOfile_works {fd : Fin NOFILE} {o : Option (Fin NFILE)} (h : Works p L k) :
    Sat (setOfile p fd o) k fun _ k' => Works p L k' :=
  setProc_works h (fun hgone => absurd hgone (not_gone_of_runnable h.runnable)) fun _ => h.runnable

theorem fdalloc_works (h : Works p L k) : Sat (fdalloc p f) k fun _ k' => Works p L k' := by
  unfold fdalloc
  rintro r k' hrun
  obtain ⟨_, _, ⟨⟩, hrun⟩ := bind_eq_ok.mp hrun
  cases hfd : freeFd (k.proc p) with
  | none =>
    simp only [hfd] at hrun
    cases hrun
    exact h
  | some fd =>
    simp only [hfd] at hrun
    obtain ⟨_, k₁, hset, hrun⟩ := bind_eq_ok.mp hrun
    cases hrun
    exact setOfile_works h _ _ hset

end Xv6Ext2
