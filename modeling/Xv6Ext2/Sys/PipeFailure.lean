import Xv6Ext2.OpenFiles
import Xv6Ext2.Sys.Calls

/-!
# A pipe that cannot be made leaves no trace

`sys_pipe` takes two files, a page and two descriptors, one after the other, and each of the five
may be missing; then the two descriptors are copied out, and either copy may fail.  On the way back
the descriptors are cleared and the files are closed, and closing the second end of the pipe frees
its page.

Closing depends on what the entries of the file table say.  An entry that is not in use has no type,
so that an entry which has just been taken is closed without further effect.

## Main definitions

* `Piped` — what `pipealloc` has left behind when it succeeds.
* `Restored` — the entries of the file table and the free pages are what they were.

## Main results

* `pipeFail_returns` — the two files of a pipe are closed.
* `sysPipe_restores` — **a failed `sys_pipe` leaves no trace.**
-/

namespace Xv6Ext2.Sys

open Function Prog Vm

variable {σ β : Type} [BlockLayer σ β] {k : Kernel σ} {s t u : State σ} {p : Fin NPROC}
  {f f₀ f₁ rf wf : Fin NFILE} {i page : ℕ}

/-! ### The functions of the kernel -/

theorem filealloc_eq (k : Kernel σ) :
    filealloc k = .ok (freeFile k, (freeFile k).elim k k.takeFile) := by
  unfold filealloc
  rw [bind_of_ok (get_apply k)]
  cases freeFile k <;> rfl

theorem fdalloc_eq (p : Fin NPROC) (f : Fin NFILE) (k : Kernel σ) : fdalloc p f k =
    .ok (freeFd (k.proc p), (freeFd (k.proc p)).elim k fun fd => k.setSlot p fd (some f)) := by
  unfold fdalloc
  rw [bind_of_ok (get_apply k)]
  cases freeFd (k.proc p) <;> rfl

theorem ref_of_freeFile (h : freeFile k = some f) : (k.ftable f).ref = 0 := by
  simpa using List.find?_some h

theorem ofile_of_freeFd {x : Proc} {fd : Fin NOFILE} (h : freeFd x = some fd) :
    x.ofile fd = none := by
  simpa using List.find?_some h

/-- **What `filealloc` does**: a free entry of the file table is taken. -/
theorem filealloc_yields {E : Stop → Prop} (s : State σ) :
    Yields E (onKern filealloc) s fun o t => o = none ∧ t = s ∨ ∃ f,
      (s.kern.ftable f).ref = 0 ∧ o = some f ∧ t = { s with kern := s.kern.takeFile f } := by
  refine Yields.of_ok (onKern_of_ok (filealloc_eq s.kern)) ?_
  cases hf : freeFile s.kern with
  | none => exact Or.inl ⟨rfl, rfl⟩
  | some f => exact Or.inr ⟨f, ref_of_freeFile hf, rfl, rfl⟩

theorem takeFile_self : (k.takeFile f).ftable f = { k.ftable f with ref := 1 } :=
  update_self ..

theorem takeFile_of_ne {g : Fin NFILE} (h : g ≠ f) : (k.takeFile f).ftable g = k.ftable g :=
  update_of_ne h ..

/-- **What `fdalloc` does**: a free descriptor is assigned. -/
theorem fdalloc_yields {E : Stop → Prop} (p : Fin NPROC) (f : Fin NFILE) (s : State σ) :
    Yields E (onKern (fdalloc p f)) s fun o t => o = none ∧ t = s ∨ ∃ fd,
      (s.kern.proc p).ofile fd = none ∧ o = some fd ∧
        t = { s with kern := s.kern.setSlot p fd (some f) } := by
  refine Yields.of_ok (onKern_of_ok (fdalloc_eq p f s.kern)) ?_
  cases hfd : freeFd (s.kern.proc p) with
  | none => exact Or.inl ⟨rfl, rfl⟩
  | some fd => exact Or.inr ⟨fd, ofile_of_freeFd hfd, rfl, rfl⟩

/-- An entry of the file table that is released. -/
def dropFile (k : Kernel σ) (f : Fin NFILE) : Kernel σ :=
  let x := k.ftable f
  { k with ftable := update k.ftable f { x with ref := 0, type := .none } }

theorem dropFile_self : (dropFile k f).ftable f =
    { k.ftable f with ref := 0, type := .none } := update_self ..

theorem dropFile_of_ne {g : Fin NFILE} (h : g ≠ f) :
    (dropFile k f).ftable g = k.ftable g := update_of_ne h ..

/-- A new pipe, with the files of its two ends. -/
def withEnds (k : Kernel σ) (f₀ f₁ : Fin NFILE) : Kernel σ :=
  { k with
    pipes := k.pipes ++ [⟨true, true⟩]
    ftable := update (update k.ftable f₀
      (pipeEnd k.pipes.length false (k.ftable f₀))) f₁ (pipeEnd k.pipes.length true (k.ftable f₁)) }

theorem pipeEnds_eq (h : f₀ ≠ f₁) (k : Kernel σ) :
    Xv6Ext2.pipeEnds f₀ f₁ k = .ok ((), withEnds k f₀ f₁) := by
  have hf₁ : update k.ftable f₀ (pipeEnd k.pipes.length false (k.ftable f₀)) f₁ =
      k.ftable f₁ := update_of_ne h.symm ..
  unfold withEnds
  rw [← hf₁]
  rfl

theorem withEnds_read (h : f₀ ≠ f₁) : (withEnds k f₀ f₁).ftable f₀ =
    pipeEnd k.pipes.length false (k.ftable f₀) :=
  (update_of_ne h ..).trans (update_self ..)

theorem withEnds_write : (withEnds k f₀ f₁).ftable f₁ =
    pipeEnd k.pipes.length true (k.ftable f₁) := update_self ..

theorem withEnds_of_ne {g : Fin NFILE} (h₀ : g ≠ f₀) (h₁ : g ≠ f₁) :
    (withEnds k f₀ f₁).ftable g = k.ftable g :=
  (update_of_ne h₁ ..).trans (update_of_ne h₀ ..)

theorem withEnds_pipe : (withEnds k f₀ f₁).pipes[k.pipes.length]? = some ⟨true, true⟩ := by
  show (k.pipes ++ [_])[k.pipes.length]? = _
  rw [List.getElem?_append_right le_rfl, Nat.sub_self]
  rfl

/-- One end of a pipe is closed. -/
def closeEnd (writable : Bool) (x : Pipe) : Pipe :=
  if writable then { x with writeopen := false } else { x with readopen := false }

theorem kernel_fileclose_last (href : (k.ftable f).ref = 1) :
    Xv6Ext2.fileclose f k = fileRelease (k.ftable f) (dropFile k f) := by
  unfold Xv6Ext2.fileclose
  rw [bind_of_ok (get_apply k), if_neg (by omega), if_neg (by omega)]
  rfl

/-- Closing a file that has not been given a type. -/
theorem fileclose_untyped (href : (s.kern.ftable f).ref = 1)
    (htype : (s.kern.ftable f).type = .none) :
    fileclose f s = .ok ((), { s with kern := dropFile s.kern f }) := by
  have hkern : Xv6Ext2.fileclose f s.kern = .ok ((), dropFile s.kern f) := by
    rw [kernel_fileclose_last href, fileRelease, htype]
    rfl
  unfold fileclose
  rw [bind_of_ok (get_apply s), bind_of_ok (onKern_of_ok hkern),
    if_neg (by rw [htype]; exact fun h => nomatch h.2)]
  rfl

/-- The state after the file of an end of the pipe `i` has been closed, but for the page. -/
def State.endClosed (s : State σ) (f : Fin NFILE) (i : ℕ) : State σ :=
  { s with
    kern := { dropFile s.kern f with
      pipes := s.kern.pipes.modify i (closeEnd (s.kern.ftable f).writable) } }

theorem endClosed_self : (s.endClosed f i).kern.ftable f =
    { s.kern.ftable f with ref := 0, type := .none } := update_self ..

theorem endClosed_of_ne {g : Fin NFILE} (h : g ≠ f) :
    (s.endClosed f i).kern.ftable g = s.kern.ftable g := update_of_ne h ..

/-- Closing an end of a pipe. -/
theorem fileclose_end (href : (s.kern.ftable f).ref = 1)
    (htype : (s.kern.ftable f).type = .pipe) (hpipe : (s.kern.ftable f).pipe = some i) :
    fileclose f s = pipeFree i (s.endClosed f i) := by
  have hkern : Xv6Ext2.fileclose f s.kern = .ok ((), (s.endClosed f i).kern) := by
    rw [kernel_fileclose_last href, fileRelease, htype, hpipe]
    rfl
  unfold fileclose
  rw [bind_of_ok (get_apply s), bind_of_ok (onKern_of_ok hkern), if_pos ⟨href, htype⟩, hpipe]
  rfl

theorem pipeFree_open {x : Pipe} (hx : s.kern.pipes[i]? = some x)
    (hopen : ¬(x.readopen = false ∧ x.writeopen = false)) : pipeFree i s = .ok ((), s) := by
  unfold pipeFree
  rw [bind_of_ok (get_apply s), hx]
  exact congrFun (if_neg hopen) s

theorem pipeFree_closed {x : Pipe} (hx : s.kern.pipes[i]? = some x)
    (hclosed : x.readopen = false ∧ x.writeopen = false) :
    pipeFree i s = onMem (kfree (s.pipeAt i)) s := by
  unfold pipeFree
  rw [bind_of_ok (get_apply s), hx]
  exact congrFun (if_pos hclosed) s

/-! ### The way back -/

/-- The entries of the file table and the free pages are what they were. -/
structure Restored (s t : State σ) : Prop where
  ref : ∀ f, (t.kern.ftable f).ref = (s.kern.ftable f).ref
  type : ∀ f, (t.kern.ftable f).type = (s.kern.ftable f).type
  free : ∀ a, a ∈ t.phys.freelist ↔ a ∈ s.phys.freelist

/-- The file is an end of the pipe `i`. -/
structure EndOf (x : File) (i : ℕ) (writable : Bool) : Prop where
  type : x.type = .pipe
  pipe : x.pipe = some i
  writable : x.writable = writable

/-- The file is an end of the pipe `i`, and there is one reference to it. -/
structure IsEnd (x : File) (i : ℕ) (writable : Bool) : Prop extends EndOf x i writable where
  ref : x.ref = 1

/-- Since `s`, a pipe has been made in `page`, with the files `rf` and `wf`. -/
structure Piped (page i : ℕ) (rf wf : Fin NFILE) (s t : State σ) : Prop where
  ne : rf ≠ wf
  unused : ∀ f, f = rf ∨ f = wf → (s.kern.ftable f).ref = 0 ∧ (s.kern.ftable f).type = .none
  others : ∀ f, f ≠ rf → f ≠ wf → (t.kern.ftable f).ref = (s.kern.ftable f).ref ∧
    (t.kern.ftable f).type = (s.kern.ftable f).type
  read : IsEnd (t.kern.ftable rf) i false
  write : IsEnd (t.kern.ftable wf) i true
  pipe : t.kern.pipes[i]? = some ⟨true, true⟩
  pipeAt : t.pipeAt i = page
  taken : s.phys.freelist = page :: t.phys.freelist
  frame : t.phys.IsFrame page

/-- Assigning descriptors and writing to memory does not matter. -/
theorem Piped.congr (h : Piped page i rf wf s t) (hftable : u.kern.ftable = t.kern.ftable)
    (hpipes : u.kern.pipes = t.kern.pipes) (hat : u.pipeAt = t.pipeAt)
    (hfree : u.phys.freelist = t.phys.freelist) (hsize : u.phys.ksize = t.phys.ksize) :
    Piped page i rf wf s u where
  ne := h.ne
  unused := h.unused
  others f hr hw := by rw [hftable]; exact h.others f hr hw
  read := hftable ▸ h.read
  write := hftable ▸ h.write
  pipe := hpipes ▸ h.pipe
  pipeAt := hat ▸ h.pipeAt
  taken := hfree ▸ h.taken
  frame := h.frame.congr hsize

/-- **The two files of a pipe are closed**, and its page is freed with the second. -/
theorem pipeFail_returns (h : Piped page i rf wf s t) : Returns (pipeFail rf wf) t fun r u =>
    r = -1 ∧ Restored s u ∧ u.kern.proc = t.kern.proc := by
  -- the read end is closed; the write end stays open
  have hpipe₁ : (t.endClosed rf i).kern.pipes[i]? = some ⟨false, true⟩ := by
    show (t.kern.pipes.modify i (closeEnd (t.kern.ftable rf).writable))[i]? = _
    rw [List.getElem?_modify_eq, h.pipe, h.read.writable]
    rfl
  have hread : fileclose rf t = .ok ((), t.endClosed rf i) := by
    rw [fileclose_end h.read.ref h.read.type h.read.pipe, pipeFree_open hpipe₁ (by simp)]
  -- then the write end
  have hwf : (t.endClosed rf i).kern.ftable wf = t.kern.ftable wf := endClosed_of_ne h.ne.symm
  have hpipe₂ : ((t.endClosed rf i).endClosed wf i).kern.pipes[i]? = some ⟨false, false⟩ := by
    show ((t.endClosed rf i).kern.pipes.modify i
      (closeEnd ((t.endClosed rf i).kern.ftable wf).writable))[i]? = _
    rw [List.getElem?_modify_eq, hpipe₁, hwf, h.write.writable]
    rfl
  have hwrite : fileclose wf (t.endClosed rf i) =
      onMem (kfree page) ((t.endClosed rf i).endClosed wf i) := by
    rw [fileclose_end (hwf ▸ h.write.ref) (hwf ▸ h.write.type) (hwf ▸ h.write.pipe),
      pipeFree_closed hpipe₂ ⟨rfl, rfl⟩]
    exact congrArg (fun a => onMem (kfree a) _) h.pipeAt
  -- what the file table says at the end
  have hfile : ∀ g, (((t.endClosed rf i).endClosed wf i).kern.ftable g).ref =
        (s.kern.ftable g).ref ∧
      (((t.endClosed rf i).endClosed wf i).kern.ftable g).type = (s.kern.ftable g).type := by
    intro g
    by_cases hgw : g = wf
    · rw [hgw, endClosed_self, (h.unused wf (Or.inr rfl)).1, (h.unused wf (Or.inr rfl)).2]
      exact ⟨rfl, rfl⟩
    rw [endClosed_of_ne hgw]
    by_cases hgr : g = rf
    · rw [hgr, endClosed_self, (h.unused rf (Or.inl rfl)).1, (h.unused rf (Or.inl rfl)).2]
      exact ⟨rfl, rfl⟩
    · rw [endClosed_of_ne hgr]
      exact h.others g hgr hgw
  unfold pipeFail
  refine Yields.of_eq (bind_of_ok hread) (Yields.of_eq (bind_of_ok
    (hwrite.trans (onMem_of_ok (kfree_eq (h.frame.congr rfl))))) (Yields.of_ok rfl
      ⟨rfl, ⟨fun g => (hfile g).1, fun g => (hfile g).2, fun a => ?_⟩, rfl⟩))
  rw [h.taken]
  rfl

/-! ### The way there -/

/-- Since `s`, the files `L` have been taken, and nothing else has happened. -/
structure Taken (L : List (Fin NFILE)) (s t : State σ) : Prop where
  nodup : L.Nodup
  unused : ∀ f ∈ L, (s.kern.ftable f).ref = 0 ∧ (s.kern.ftable f).type = .none
  taken : ∀ f ∈ L, (t.kern.ftable f).ref = 1 ∧ (t.kern.ftable f).type = .none
  others : ∀ f ∉ L, (t.kern.ftable f).ref = (s.kern.ftable f).ref ∧
    (t.kern.ftable f).type = (s.kern.ftable f).type
  proc : t.kern.proc = s.kern.proc
  freelist : t.phys.freelist = s.phys.freelist
  ksize : t.phys.ksize = s.phys.ksize

theorem Taken.refl (s : State σ) : Taken [] s s :=
  ⟨List.nodup_nil, nofun, nofun, fun _ _ => ⟨rfl, rfl⟩, rfl, rfl, rfl⟩

theorem Taken.restored (h : Taken [] s t) : Restored s t :=
  ⟨fun f => (h.others f List.not_mem_nil).1, fun f => (h.others f List.not_mem_nil).2,
    fun a => by rw [h.freelist]⟩

theorem Taken.perm {L L' : List (Fin NFILE)} (h : Taken L s t) (hL : L.Perm L') : Taken L' s t where
  nodup := hL.nodup_iff.mp h.nodup
  unused f hf := h.unused f (hL.mem_iff.mpr hf)
  taken f hf := h.taken f (hL.mem_iff.mpr hf)
  others f hf := h.others f fun hin => hf (hL.mem_iff.mp hin)
  proc := h.proc
  freelist := h.freelist
  ksize := h.ksize

/-- One more file is taken. -/
theorem Taken.filealloc {L : List (Fin NFILE)} (h : Taken L s t)
    (htidy : ∀ f, (s.kern.ftable f).ref = 0 → (s.kern.ftable f).type = .none) :
    Returns (onKern filealloc) t fun o u =>
      o = none ∧ Taken L s u ∨ ∃ f, o = some f ∧ Taken (f :: L) s u := by
  refine (filealloc_yields t).mono fun o u hu => ?_
  rcases hu with ⟨rfl, rfl⟩ | ⟨f, href, rfl, rfl⟩
  · exact Or.inl ⟨rfl, h⟩
  have hL : f ∉ L := fun hfL => by
    rw [(h.taken f hfL).1] at href
    exact one_ne_zero href
  have hunused : (s.kern.ftable f).ref = 0 := (h.others f hL).1.symm.trans href
  refine Or.inr ⟨f, rfl, List.nodup_cons.mpr ⟨hL, h.nodup⟩, fun g hg => ?_, fun g hg => ?_,
    fun g hg => ?_, h.proc, h.freelist, h.ksize⟩
  · rcases List.mem_cons.mp hg with rfl | hg
    · exact ⟨hunused, htidy g hunused⟩
    · exact h.unused g hg
  · dsimp only
    by_cases hgf : g = f
    · rw [hgf, takeFile_self]
      exact ⟨rfl, (h.others f hL).2.trans (htidy f hunused)⟩
    · rw [takeFile_of_ne hgf]
      exact h.taken g ((List.mem_cons.mp hg).resolve_left hgf)
  · dsimp only
    rw [takeFile_of_ne (show g ≠ f from fun hgf => hg (hgf ▸ List.mem_cons_self))]
    exact h.others g fun hgL => hg (List.mem_cons_of_mem f hgL)

/-- A file that has been taken is closed. -/
theorem Taken.fileclose {L : List (Fin NFILE)} (h : Taken (f :: L) s t) :
    Returns (fileclose f) t fun _ u => Taken L s u := by
  obtain ⟨href, htype⟩ := h.taken f List.mem_cons_self
  obtain ⟨hf, hL⟩ := List.nodup_cons.mp h.nodup
  refine Yields.of_ok (fileclose_untyped href htype) ⟨hL,
    fun g hg => h.unused g (List.mem_cons_of_mem f hg), fun g hg => ?_, fun g hg => ?_, h.proc,
    h.freelist, h.ksize⟩
  · dsimp only
    rw [dropFile_of_ne (show g ≠ f from fun hgf => hf (hgf ▸ hg))]
    exact h.taken g (List.mem_cons_of_mem f hg)
  · dsimp only
    by_cases hgf : g = f
    · obtain ⟨hunused, hnone⟩ := h.unused f List.mem_cons_self
      rw [hgf, dropFile_self, hunused, hnone]
      exact ⟨rfl, rfl⟩
    · rw [dropFile_of_ne hgf]
      exact h.others g fun hin => (List.mem_cons.mp hin).elim hgf hg

/-- The two files that have been taken become the ends of a pipe. -/
theorem Taken.piped (h : Taken [f₁, f₀] s t) {fl : List ℕ}
    (hkern : u.kern = withEnds t.kern f₀ f₁) (hat : u.pipeAt t.kern.pipes.length = page)
    (hfl : t.phys.freelist = page :: fl) (hfree : u.phys.freelist = fl)
    (hframe : u.phys.IsFrame page) : Piped page t.kern.pipes.length f₀ f₁ s u := by
  have hne : f₀ ≠ f₁ := fun heq => (List.nodup_cons.mp h.nodup).1 (heq ▸ List.mem_cons_self)
  have h₁ := (h.taken f₁ List.mem_cons_self).1
  have h₀ := (h.taken f₀ (List.mem_cons_of_mem f₁ List.mem_cons_self)).1
  refine ⟨hne, fun g hg => h.unused g ?_, fun g hr hw => ?_, ?_, ?_, ?_, hat, ?_, hframe⟩
  · rcases hg with rfl | rfl
    · exact List.mem_cons_of_mem f₁ List.mem_cons_self
    · exact List.mem_cons_self
  · rw [hkern, withEnds_of_ne hr hw]
    refine h.others g fun hg => ?_
    rcases List.mem_cons.mp hg with rfl | hg
    · exact hw rfl
    · exact hr (List.mem_singleton.mp hg)
  · rw [hkern, withEnds_read hne]
    exact ⟨⟨rfl, rfl, rfl⟩, h₀⟩
  · rw [hkern, withEnds_write]
    exact ⟨⟨rfl, rfl, rfl⟩, h₁⟩
  · rw [hkern]
    exact withEnds_pipe
  · rw [← h.freelist, hfl, hfree]

/-- **What `pipealloc` does**: nothing, or a pipe with two files. -/
theorem pipealloc_returns
    (htidy : ∀ f, (s.kern.ftable f).ref = 0 → (s.kern.ftable f).type = .none)
    (hfree : ∀ a ∈ s.phys.freelist, s.phys.IsFrame a) :
    Returns pipealloc s fun o t => t.kern.proc = s.kern.proc ∧
      (o = none ∧ Restored s t ∨
        ∃ page i rf wf, o = some (rf, wf) ∧ Piped page i rf wf s t) := by
  unfold pipealloc
  refine ((Taken.refl s).filealloc htidy).bind fun o t ht => ?_
  rcases ht with ⟨rfl, ht⟩ | ⟨f₀, rfl, ht⟩
  · exact Yields.of_ok rfl ⟨ht.proc, Or.inl ⟨rfl, ht.restored⟩⟩
  dsimp only
  refine (ht.filealloc htidy).bind fun o t ht => ?_
  rcases ht with ⟨rfl, ht⟩ | ⟨f₁, rfl, ht⟩
  · dsimp only [pipeBad, filecloseIf]
    exact ht.fileclose.bind fun _ u hu => Yields.of_ok rfl ⟨hu.proc, Or.inl ⟨rfl, hu.restored⟩⟩
  dsimp only
  refine (onMem_yields (kalloc_returns t.phys)).bind fun page u hu => ?_
  obtain ⟨φ, hφ, rfl⟩ := hu
  rcases hφ with ⟨rfl, rfl⟩ | ⟨fl, hfl, rfl⟩
  · have ht' : Taken [f₀, f₁] s { t with phys := { t.phys with denied := t.phys.denied.tail } } :=
      Taken.perm ⟨ht.nodup, ht.unused, ht.taken, ht.others, ht.proc, ht.freelist, ht.ksize⟩
        (List.Perm.swap f₀ f₁ [])
    rw [if_pos rfl]
    dsimp only [pipeBad, filecloseIf]
    exact ht'.fileclose.bind fun _ v hv => hv.fileclose.bind fun _ w hw =>
      Yields.of_ok rfl ⟨hw.proc, Or.inl ⟨rfl, hw.restored⟩⟩
  · have hframe : s.phys.IsFrame page :=
      hfree page (by rw [← ht.freelist, hfl]; exact List.mem_cons_self)
    have hne : f₀ ≠ f₁ := fun heq => (List.nodup_cons.mp ht.nodup).1 (heq ▸ List.mem_cons_self)
    rw [if_neg hframe.ne_zero]
    unfold pipeEnds
    refine Yields.of_eq (bind_of_ok ((bind_of_ok (modify_apply _ _)).trans
      (onKern_of_ok (pipeEnds_eq hne _)))) (Yields.of_ok rfl ⟨ht.proc, Or.inr
        ⟨page, t.kern.pipes.length, f₀, f₁, rfl, ?_⟩⟩)
    exact ht.piped rfl (update_self ..) hfl rfl (hframe.congr ht.ksize)

/-! ### `sys_pipe` -/

/-- A descriptor that was free is cleared again. -/
theorem setSlot_undo {fd : Fin NOFILE} {o : Option (Fin NFILE)} (h : (k.proc p).ofile fd = none) :
    ((k.setSlot p fd o).setSlot p fd none).proc = k.proc := by
  unfold Kernel.setSlot
  dsimp only
  rw [update_self, update_idem, update_idem, ← h,
    update_eq_self, update_eq_self]

/-- Two descriptors that were free are cleared again. -/
theorem setSlot_undo_two {fd₀ fd₁ : Fin NOFILE} {o₀ o₁ : Option (Fin NFILE)} (hne : fd₀ ≠ fd₁)
    (h₀ : (k.proc p).ofile fd₀ = none) (h₁ : (k.proc p).ofile fd₁ = none) :
    ((((k.setSlot p fd₀ o₀).setSlot p fd₁ o₁).setSlot p fd₀ none).setSlot p fd₁ none).proc =
      k.proc := by
  have hswap : ((k.setSlot p fd₀ o₀).setSlot p fd₁ o₁).setSlot p fd₀ none =
      ((k.setSlot p fd₀ o₀).setSlot p fd₀ none).setSlot p fd₁ o₁ := by
    unfold Kernel.setSlot
    dsimp only
    simp only [update_self, update_idem]
    rw [update_comm hne.symm, update_idem]
  have hproc := setSlot_undo (o := o₀) h₀
  rw [hswap, setSlot_undo (by rw [hproc]; exact h₁), hproc]

theorem copyFds_returns (r fdarray : ℕ) (fd₀ fd₁ : Fin NOFILE) (s : Phys) :
    Returns (copyFds r fdarray fd₀ fd₁) s fun _ t => ∃ mem', t = { s with mem := mem' } := by
  unfold copyFds
  refine (copyout_mem r fdarray (intBytes fd₀) s).bind fun ok t ht => ?_
  obtain ⟨mem₁, rfl⟩ := ht
  cases ok with
  | false => exact Yields.of_ok rfl ⟨mem₁, rfl⟩
  | true =>
    refine (copyout_mem r _ (intBytes fd₁) _).mono fun _ t ht => ?_
    obtain ⟨mem₂, rfl⟩ := ht
    exact ⟨mem₂, rfl⟩

/-- **A failed `sys_pipe` leaves no trace**: the descriptors of all processes, the entries of the
file table and the free pages are what they were. -/
theorem sysPipe_restores {fs : Fs σ} {Allowed : Kernel σ → Fin NPROC → Xv6Ext2.Call → Prop}
    (hruns : Xv6Ext2.Runs fs Allowed s.kern) (hfree : ∀ a ∈ s.phys.freelist, s.phys.IsFrame a)
    (p : Fin NPROC) (fdarray : ℕ) :
    Returns (sysPipe p fdarray) s fun r t => r = -1 →
      (∀ q, (t.kern.proc q).ofile = (s.kern.proc q).ofile) ∧
      (∀ f, (t.kern.ftable f).ref = (s.kern.ftable f).ref ∧
        (t.kern.ftable f).type = (s.kern.ftable f).type) ∧
      ∀ a, a ∈ t.phys.freelist ↔ a ∈ s.phys.freelist := by
  have hdone : ∀ {t : State σ}, Restored s t → t.kern.proc = s.kern.proc →
      (∀ q, (t.kern.proc q).ofile = (s.kern.proc q).ofile) ∧
      (∀ f, (t.kern.ftable f).ref = (s.kern.ftable f).ref ∧
        (t.kern.ftable f).type = (s.kern.ftable f).type) ∧
      ∀ a, a ∈ t.phys.freelist ↔ a ∈ s.phys.freelist := fun h hproc =>
    ⟨fun q => by rw [hproc], fun f => ⟨h.ref f, h.type f⟩, h.free⟩
  unfold sysPipe
  refine (pipealloc_returns hruns.tidy.free hfree).bind fun o t ht => ?_
  obtain ⟨hproc, ⟨rfl, ht⟩ | ⟨page, i, rf, wf, rfl, ht⟩⟩ := ht
  · exact Yields.of_ok rfl fun _ => hdone ht hproc
  dsimp only
  -- a failure after which the descriptors are what they were
  have hfail : ∀ {u : State σ}, Piped page i rf wf s u → u.kern.proc = s.kern.proc →
      Returns (pipeFail rf wf) u fun r t => r = -1 →
        (∀ q, (t.kern.proc q).ofile = (s.kern.proc q).ofile) ∧
        (∀ f, (t.kern.ftable f).ref = (s.kern.ftable f).ref ∧
          (t.kern.ftable f).type = (s.kern.ftable f).type) ∧
        ∀ a, a ∈ t.phys.freelist ↔ a ∈ s.phys.freelist := fun hu hproc' =>
    (pipeFail_returns hu).mono fun _ w hw _ => hdone hw.2.1 (hw.2.2.trans hproc')
  refine (fdalloc_yields p rf t).bind fun o u hu => ?_
  rcases hu with ⟨rfl, rfl⟩ | ⟨fd₀, hfd₀, rfl, rfl⟩
  · exact hfail ht hproc
  dsimp only
  refine (fdalloc_yields p wf _).bind fun o u hu => ?_
  rcases hu with ⟨rfl, rfl⟩ | ⟨fd₁, hfd₁, rfl, rfl⟩
  · exact Yields.of_eq (bind_of_ok (onKern_of_ok rfl))
      (hfail (ht.congr rfl rfl rfl rfl rfl) ((setSlot_undo hfd₀).trans hproc))
  have hofile : ((t.kern.setSlot p fd₀ (some rf)).proc p).ofile =
      update (t.kern.proc p).ofile fd₀ (some rf) := by
    unfold Kernel.setSlot
    dsimp only
    rw [update_self]
  have hne : fd₀ ≠ fd₁ := fun heq => by
    rw [← heq, hofile, update_self] at hfd₁
    cases hfd₁
  rw [hofile, update_of_ne hne.symm] at hfd₁
  refine Yields.of_eq (bind_of_ok (get_apply _))
    ((onMem_yields (copyFds_returns _ fdarray fd₀ fd₁ _)).bind fun ok u hu => ?_)
  obtain ⟨φ, ⟨mem', rfl⟩, rfl⟩ := hu
  cases ok with
  | true => exact Yields.of_ok rfl fun hbad => absurd hbad (by decide)
  | false =>
    exact Yields.of_eq (bind_of_ok (onKern_of_ok rfl)) (Yields.of_eq (bind_of_ok (onKern_of_ok rfl))
      (hfail (ht.congr rfl rfl rfl rfl rfl) ((setSlot_undo_two hne hfd₀ hfd₁).trans hproc)))

/-- A kernel with one free page, whose processes have no memory of their own. -/
def onePage (k : Kernel Store) : State Store :=
  ⟨k, lastPages 1, fun _ => noMem, fun _ => none, fun _ => 0, []⟩

/-- A process has made a pipe and closed one of its ends.  It makes another one, in the entry of the
file table that has become free, and there is nowhere to copy the descriptors to. -/
def pipesAgain : Script bootImage (fun _ _ _ => True)
    (fun k => (k.ftable 0).ref = 0 ∧ (k.ftable 1).ref = 1 ∧
      ((sysPipe 0 0 (onePage k)).map Prod.fst).toOption = some (-1)) where
  fuel := 1
  calls := [(0, .pipe true true), (0, .close 0)]
  evaluates := by decide +kernel

theorem sysPipe_restores_pipesAgain : ∃ s t : State Store,
    Xv6Ext2.Runs bootImage (fun _ _ _ => True) s.kern ∧ (s.kern.ftable 0).ref = 0 ∧
      (s.kern.ftable 1).ref = 1 ∧ (∀ a ∈ s.phys.freelist, s.phys.IsFrame a) ∧
        s.phys.freelist ≠ [] ∧ sysPipe 0 0 s = .ok (-1, t) ∧
          (∀ q, (t.kern.proc q).ofile = (s.kern.proc q).ofile) ∧
          ∀ a, a ∈ t.phys.freelist ↔ a ∈ s.phys.freelist := by
  obtain ⟨k, hruns, hunused, hused, hfail⟩ := pipesAgain.runs
  have hframes : ∀ a ∈ (onePage k).phys.freelist, (onePage k).phys.IsFrame a := fun a ha =>
    ((pool_lastPages (by decide)).all a).mpr (Or.inl ha)
  obtain ⟨r, t, ht, hrestored⟩ := (sysPipe_restores (s := onePage k) hruns hframes 0 0).exists
  rw [ht] at hfail
  obtain rfl : r = -1 := Option.some.inj hfail
  obtain ⟨hofile, -, hfree⟩ := hrestored rfl
  exact ⟨onePage k, t, hruns, hunused, hused, hframes, nofun, ht, hofile, hfree⟩

end Xv6Ext2.Sys
