import Xv6Ext2.Books

/-!
# What system calls add to the books

Each system call is followed along all its branches, with what it takes, passes on and
drops.  All of them balance, apart from opening and closing the console and from two of
the listing functions; for those the amount is given exactly.

## Main definitions

* `unclosed` — the file that `sys_close` forgets without closing it.
* `consoleSlip` — what opening the console adds.
* `Call.slip`, `Call.Lists` — what a call adds, and the listing calls that add more.
* `Forks` — the state while `fork` copies the descriptors.

## Main results

* `sysDup_books`, `sysPipe_books`, `sysChdir_books`, `fork_books`, `exit_books`,
  `wait_books`, `onPath_books` — these calls add nothing.
* `sysClose_books`, `sysOpen_books`, `sysPrintinfo_books` — what these add.
* `call_books`, `call_tidy` — what any call adds, and that it leaves the tables tidy.
* `userinit_books`, `userinit_tidy` — the same for the first process.
-/

namespace Xv6Ext2

open Function Prog RefCount

variable {σ β : Type} [BlockLayer σ β] {α : Type} {k : Kernel σ} {p : Fin NPROC}
  {f : Fin NFILE} {fuel : ℕ} {L : List (Fin NFILE)}

/-! ### Descriptors -/

theorem argfd_books {fd : ℤ} : Adds Kernel.books (argfd p fd : KM σ _) k fun _ => 0 := by
  rintro r k' ⟨⟩
  rw [add_zero]

theorem sysDup_books {fd : ℤ} : Adds Kernel.books (sysDup p fd : KM σ ℤ) k fun _ => 0 := by
  unfold sysDup
  apply Adds.skip argfd_books
  intro r k₁ _
  cases r with
  | none => exact Adds.pure rfl
  | some x =>
    apply Adds.bind fdalloc_books
    intro r k₂ _
    cases r with
    | none => exact Adds.pure (by simp)
    | some fd =>
      apply Adds.bind filedup_books
      intro _ k₃ _
      exact Adds.pure (by simp)

theorem sysDup_works {fd : ℤ} (h : Works p [] k) :
    Sat (sysDup p fd) k fun _ k' => Works p [] k' := by
  unfold sysDup
  refine Sat.bind argfd_sat fun r k₁ hr => ?_
  cases hr.2
  cases r with
  | none => exact Sat.pure h
  | some x =>
    refine Sat.bind (fdalloc_works h) fun r k₂ h₂ => ?_
    cases r with
    | none => exact Sat.pure h₂
    | some fd => exact Sat.bind (filedup_works h₂) fun _ k₃ h₃ => Sat.pure h₃

/-- The file that `sys_close` forgets without closing it. -/
def unclosed (k : Kernel σ) (p : Fin NPROC) (fd : ℤ) : Option (Fin NFILE) :=
  (argFile (k.proc p) fd).bind fun x =>
    if (k.ftable x.2).major = CONSOLE then some x.2 else none

/-- **`sys_close` keeps the reference** of a file whose major number is that of the
console. -/
theorem sysClose_books {fd : ℤ} :
    Adds Kernel.books (sysClose p fd : KM σ ℤ) k fun _ => fileRef (unclosed k p fd) := by
  unfold sysClose
  apply Adds.skip argfd_books
  intro r k₁ hrun
  obtain ⟨hr, rfl⟩ := argfd_sat r k₁ hrun
  cases r with
  | none => exact Adds.pure (by rw [unclosed, ← hr, Option.bind_none, fileRef_none])
  | some x =>
    obtain ⟨i, f⟩ := x
    apply Adds.bind setOfile_books
    rintro _ _ ⟨⟩
    apply Adds.skip get_books
    rintro _ _ ⟨⟩
    rw [ofile_of_argFile hr.symm, fileRef_none, sub_zero, unclosed, ← hr, Option.bind_some]
    apply Adds.ite
    · intro hmajor
      apply Adds.bind fileclose_books
      intro _ k₂ _
      exact Adds.pure (by rw [if_neg hmajor, fileRef_none]; abel)
    · intro hmajor
      rw [if_pos (not_not.mp hmajor), sub_self]
      exact Adds.pure rfl

theorem sysClose_works {fd : ℤ} (h : Works p [] k) :
    Sat (sysClose p fd) k fun _ k' => Works p [] k' := by
  unfold sysClose
  refine Sat.bind argfd_sat fun r k₁ hr => ?_
  cases hr.2
  cases r with
  | none => exact Sat.pure h
  | some x =>
    refine Sat.bind (setOfile_works h) fun _ k₁ h₁ => ?_
    refine Sat.bind Sat.get fun _ _ hk => ?_
    obtain ⟨rfl, rfl⟩ := hk
    apply Sat.ite
    · intro _
      exact Sat.bind (fileclose_works h₁) fun _ k₃ h₃ => Sat.pure h₃
    · intro _
      exact Sat.pure h₁

/-! ### Pipes -/

theorem filecloseIf_books {o : Option (Fin NFILE)} :
    Adds Kernel.books (filecloseIf o : KM σ Unit) k fun _ => -fileRef o := by
  cases o with
  | none => exact Adds.pure (by simp)
  | some f => exact fileclose_books

theorem filecloseIf_works {o : Option (Fin NFILE)} (h : Works p L k) :
    Sat (filecloseIf o) k fun _ k' => Works p [] k' := by
  cases o with
  | none => exact Sat.pure h.forget
  | some f => exact (fileclose_works h).mono fun _ _ h' => h'.forget

theorem pipeBad_books {f₀ f₁ : Option (Fin NFILE)} :
    Adds Kernel.books (pipeBad f₀ f₁ : KM σ _) k fun r =>
      fileRef (r.map Prod.fst) + fileRef (r.map Prod.snd) - fileRef f₀ - fileRef f₁ := by
  unfold pipeBad
  apply Adds.bind filecloseIf_books
  intro _ k₁ _
  apply Adds.bind filecloseIf_books
  intro _ k₂ _
  exact Adds.pure (by simp only [Option.map_none, fileRef_none]; abel)

theorem pipeBad_works {f₀ f₁ : Option (Fin NFILE)} (h : Works p L k) :
    Sat (pipeBad f₀ f₁) k fun _ k' => Works p [] k' := by
  unfold pipeBad
  refine Sat.bind (filecloseIf_works h) fun _ k₁ h₁ => ?_
  refine Sat.bind (filecloseIf_works h₁) fun _ k₂ h₂ => ?_
  exact Sat.pure h₂

/-- Typing a taken file that is not to hold an inode changes nothing. -/
theorem setFile_books_none {g : File → File} (h : Works p L k) (hf : f ∈ L)
    (href : (g (k.ftable f)).ref = (k.ftable f).ref) (hg : (g (k.ftable f)).inode = none) :
    Adds Kernel.books (setFile f g) k fun _ => 0 := by
  apply setFile_books.last
  intro _
  rw [href, hg, h.inode_eq hf, sub_self, sub_self, zero_smul, add_zero]

theorem pipeEnds_books {f₀ f₁ : Fin NFILE} (h : Works p [f₁, f₀] k) :
    Adds Kernel.books (pipeEnds f₀ f₁ : KM σ Unit) k fun _ => 0 := by
  unfold pipeEnds
  apply Adds.skip get_books
  rintro _ _ ⟨⟩
  apply Adds.skip (modify_books rfl)
  rintro _ k₁ ⟨⟩
  set k₁ : Kernel σ := { k with pipes := k.pipes ++ [⟨true, true⟩] }
  have h₁ : Works p [f₁, f₀] k₁ := h.congr rfl rfl
  apply Adds.skip (setFile_books_none h₁ (by simp) rfl rfl)
  intro _ k₂ hrun
  have h₂ := setFile_works (g := pipeEnd k.pipes.length false) h₁ (by simp) (fun _ => rfl) _ _ hrun
  have hf₁ : f₁ ∈ [f₁, f₀].erase f₀ := h.nodup.mem_erase_iff.mpr ⟨by simpa using h.nodup, by simp⟩
  exact setFile_books_none h₂ hf₁ rfl rfl

theorem pipeEnds_works {f₀ f₁ : Fin NFILE} (h : Works p [f₁, f₀] k) :
    Sat (pipeEnds f₀ f₁) k fun _ k' => Works p [] k' := by
  unfold pipeEnds
  refine Sat.bind Sat.get fun _ _ hk => ?_
  obtain ⟨rfl, rfl⟩ := hk
  refine Sat.bind (modify_works h rfl rfl) fun _ k₁ h₁ => ?_
  refine Sat.bind (setFile_works h₁ (by simp) fun _ => rfl) fun _ k₂ h₂ => ?_
  have hf₁ : f₁ ∈ [f₁, f₀].erase f₀ := h.nodup.mem_erase_iff.mpr ⟨by simpa using h.nodup, by simp⟩
  exact Sat.mono (setFile_works h₂ hf₁ fun _ => rfl) fun _ _ h' => h'.forget

theorem pipealloc_books {page : Bool} (h : Works p [] k) :
    Adds Kernel.books (pipealloc page : KM σ _) k fun r =>
      fileRef (r.map Prod.fst) + fileRef (r.map Prod.snd) := by
  unfold pipealloc
  apply Adds.bind filealloc_books
  intro r k₁ hrun₁
  have h₁ := filealloc_works h r k₁ hrun₁
  cases r with
  | none => exact pipeBad_books.last fun _ => by simp only [fileRef_none]; abel
  | some f₀ =>
    apply Adds.bind filealloc_books
    intro r k₂ hrun₂
    have h₂ := filealloc_works h₁ r k₂ hrun₂
    cases r with
    | none => exact pipeBad_books.last fun _ => by simp only [fileRef_none]
    | some f₁ =>
      apply Adds.ite
      · intro _
        exact pipeBad_books.last fun _ => rfl
      · intro _
        apply Adds.skip (pipeEnds_books h₂)
        intro _ k₃ _
        exact Adds.pure (by simp)

theorem pipealloc_works {page : Bool} (h : Works p [] k) :
    Sat (pipealloc page) k fun _ k' => Works p [] k' := by
  unfold pipealloc
  refine Sat.bind (filealloc_works h) fun r k₁ h₁ => ?_
  cases r with
  | none => exact pipeBad_works h₁
  | some f₀ =>
    refine Sat.bind (filealloc_works h₁) fun r k₂ h₂ => ?_
    cases r with
    | none => exact pipeBad_works h₂
    | some f₁ =>
      apply Sat.ite
      · intro _
        exact pipeBad_works h₂
      · intro _
        exact Sat.bind (pipeEnds_works h₂) fun _ k₃ h₃ => Sat.pure h₃

theorem pipeFail_books {rf wf : Fin NFILE} :
    Adds Kernel.books (pipeFail rf wf : KM σ ℤ) k fun _ =>
      -fileRef (some rf) - fileRef (some wf) := by
  unfold pipeFail
  apply Adds.bind fileclose_books
  intro _ k₁ _
  apply Adds.bind fileclose_books
  intro _ k₂ _
  exact Adds.pure (by abel)

theorem pipeFail_works {rf wf : Fin NFILE} (h : Works p [] k) :
    Sat (pipeFail rf wf) k fun _ k' => Works p [] k' := by
  unfold pipeFail
  refine Sat.bind (fileclose_works h) fun _ k₁ h₁ => ?_
  exact Sat.bind (fileclose_works h₁) fun _ k₂ h₂ => Sat.pure h₂

theorem ofile_setSlot {fd : Fin NOFILE} {o : Option (Fin NFILE)} :
    ((k.setSlot p fd o).proc p).ofile = update (k.proc p).ofile fd o := by
  simp only [Kernel.setSlot, update_self]

/-- **`sys_pipe` balances**: each end is closed, or there is a descriptor for it. -/
theorem sysPipe_books {page copy : Bool} (h : Works p [] k) :
    Adds Kernel.books (sysPipe p page copy : KM σ ℤ) k fun _ => 0 := by
  unfold sysPipe
  apply Adds.bind (pipealloc_books h)
  intro r k₁ _
  cases r with
  | none => exact Adds.pure (by simp)
  | some x =>
    obtain ⟨rf, wf⟩ := x
    simp only [Option.map_some, zero_sub]
    apply Adds.bind fdalloc_books
    intro r k₂ hrun₂
    obtain ⟨hfd₀, hk₂⟩ := fdalloc_sat r k₂ hrun₂
    cases r with
    | none => exact pipeFail_books.last fun _ => by simp only [Option.map_none, fileRef_none]; abel
    | some fd₀ =>
      have hslot : (k₂.proc p).ofile fd₀ = some rf := by
        rw [hk₂]
        exact (congrFun ofile_setSlot fd₀).trans (update_self ..)
      apply Adds.bind fdalloc_books
      intro r k₃ hrun₃
      obtain ⟨hfd₁, hk₃⟩ := fdalloc_sat r k₃ hrun₃
      cases r with
      | none =>
        obtain rfl : k₃ = k₂ := hk₃
        apply Adds.bind setOfile_books
        intro _ k₄ _
        refine pipeFail_books.last fun _ => ?_
        simp only [hslot, Option.map_some, Option.map_none, fileRef_none]
        abel
      | some fd₁ =>
        -- the second descriptor is free when the first one is taken
        have hne : fd₀ ≠ fd₁ := by
          rintro rfl
          rw [ofile_of_freeFd hfd₁.symm] at hslot
          cases hslot
        have hproc : (k₃.proc p).ofile = update (k₂.proc p).ofile fd₁ (some wf) := by
          rw [hk₃]
          exact ofile_setSlot
        apply Adds.ite
        · intro _
          apply Adds.bind setOfile_books
          rintro _ k₄ ⟨⟩
          apply Adds.bind setOfile_books
          intro _ k₅ _
          refine pipeFail_books.last fun _ => ?_
          have h₁ : (k₃.proc p).ofile fd₀ = some rf := by
            rw [hproc, update_of_ne hne, hslot]
          have h₂ : (k₃.proc p).ofile fd₁ = some wf := by rw [hproc, update_self]
          simp only [update_self, update_of_ne hne.symm, h₁, h₂,
            Option.map_some, fileRef_none]
          abel
        · intro _
          exact Adds.pure (by simp only [Option.map_some]; abel)

theorem sysPipe_works {page copy : Bool} (h : Works p [] k) :
    Sat (sysPipe p page copy) k fun _ k' => Works p [] k' := by
  unfold sysPipe
  refine Sat.bind (pipealloc_works h) fun r k₁ h₁ => ?_
  cases r with
  | none => exact Sat.pure h₁
  | some x =>
    refine Sat.bind (fdalloc_works h₁) fun r k₂ h₂ => ?_
    cases r with
    | none => exact pipeFail_works h₂
    | some fd₀ =>
      refine Sat.bind (fdalloc_works h₂) fun r k₃ h₃ => ?_
      cases r with
      | none => exact Sat.bind (setOfile_works h₃) fun _ k₄ h₄ => pipeFail_works h₄
      | some fd₁ =>
        apply Sat.ite
        · intro _
          refine Sat.bind (setOfile_works h₃) fun _ k₄ h₄ => ?_
          exact Sat.bind (setOfile_works h₄) fun _ k₅ h₅ => pipeFail_works h₅
        · intro _
          exact Sat.pure h₃

/-! ### Opening files -/

/-- What opening the console adds to the books: the second open takes a descriptor and no
reference, and the first one may use a file in which an inode is still noted. -/
def consoleSlip (k : Kernel σ) (p : Fin NPROC) : Books :=
  match k.consoleF with
  | some f => -fileRef ((freeFd (k.proc p)).map fun _ => f)
  | none =>
    match freeFile k with
    | none => 0
    | some f => fileRef (if freeFd (k.proc p) = none then some f else none) -
        inodeRef (k.ftable f).ip

theorem openConsole_books (h : Works p [] k) :
    Adds Kernel.books (openConsole p : KM σ ℤ) k fun _ => consoleSlip k p := by
  unfold openConsole consoleSlip
  apply Adds.skip get_books
  rintro _ _ ⟨⟩
  cases k.consoleF with
  | some f =>
    apply Adds.bind fdalloc_books
    intro r k₁ hrun
    rw [(fdalloc_sat r k₁ hrun).1]
    exact Adds.pure (sub_self _)
  | none =>
    apply Adds.bind filealloc_books
    intro r k₁ hrun₁
    have h₁ := filealloc_works h r k₁ hrun₁
    obtain ⟨hr, hk₁⟩ := filealloc_sat r k₁ hrun₁
    rw [← hr]
    cases r with
    | none => exact Adds.throw
    | some f =>
      have hip : (k₁.ftable f).ip = (k.ftable f).ip := by
        rw [hk₁]
        show (update k.ftable f _ f).ip = _
        rw [update_self]
      have hproc : k₁.proc = k.proc := by
        rw [hk₁]
        rfl
      apply Adds.skip (modify_books rfl)
      rintro _ _ ⟨⟩
      apply Adds.bind setFile_books
      rintro _ _ ⟨⟩
      apply Adds.bind fdalloc_books
      intro r k₂ hrun₂
      have hr₂ : r = freeFd (k.proc p) := by
        rw [← hproc]
        exact (fdalloc_sat r k₂ hrun₂).1
      have hinode : (k₁.ftable f).inode = none := h₁.inode_eq (by simp)
      have hcons : (consoleFile (k₁.ftable f)).inode = (k.ftable f).ip := hip
      have href : (consoleFile (k₁.ftable f)).ref = (k₁.ftable f).ref := rfl
      apply Adds.pure
      simp only [hinode, hcons, href, ← hr₂, inodeRef_none, sub_self, zero_smul]
      cases r with
      | none =>
        simp only [Option.map_none, fileRef_none, if_pos]
        abel
      | some fd =>
        simp only [Option.map_some, reduceCtorEq, if_false, fileRef_none]
        abel

/-- The first open of the console returns only if a file is free. -/
theorem openConsole_found : Sat (openConsole p) k fun _ _ =>
    k.consoleF = none → ∃ f, freeFile k = some f := by
  unfold openConsole
  refine Sat.bind Sat.get fun _ _ hk => ?_
  obtain ⟨rfl, rfl⟩ := hk
  split
  · next f hcons =>
    intro _ _ _ hnone
    rw [hcons] at hnone
    cases hnone
  · refine Sat.bind filealloc_sat fun r k₁ hr => ?_
    cases r with
    | none => exact Sat.throw
    | some f => exact fun _ _ _ _ => ⟨f, hr.1.symm⟩

theorem openConsole_works (h : Works p [] k) :
    Sat (openConsole p) k fun _ k' => Works p [] k' := by
  unfold openConsole
  refine Sat.bind Sat.get fun _ _ hk => ?_
  obtain ⟨rfl, rfl⟩ := hk
  split
  · exact Sat.bind (fdalloc_works h) fun _ k₁ h₁ => Sat.pure h₁
  · refine Sat.bind (filealloc_works h) fun r k₁ h₁ => ?_
    cases r with
    | none => exact Sat.throw
    | some f =>
      refine Sat.bind (modify_works h₁ rfl rfl) fun _ k₂ h₂ => ?_
      refine Sat.bind (setFile_works h₂ (by simp) fun _ => rfl) fun _ k₃ h₃ => ?_
      exact Sat.bind (fdalloc_works h₃.forget) fun _ k₄ h₄ => Sat.pure h₄

theorem ref_openedFile (i : Inode) (ip : Fin NINODE) (omode : UInt32) (x : File) :
    (openedFile i ip omode x).ref = x.ref := by
  unfold openedFile
  split <;> rfl

theorem inode_openedFile (i : Inode) (ip : Fin NINODE) (omode : UInt32) (x : File) :
    (openedFile i ip omode x).inode = some ip := by
  unfold openedFile
  split <;> rfl

theorem openTrunc_refs {s : Fs σ} {i : Inode} {ip : Fin NINODE} {omode : UInt32} :
    Adds Fs.refs (openTrunc i ip omode : FsM σ Unit) s fun _ => 0 :=
  Adds.ite (fun _ => Within.refs (Within.of_head head_itrunc)) fun _ => Adds.pure rfl

/-- **The reference to the inode passes to the file**, or is dropped. -/
theorem openFile_books {ip : Fin NINODE} {omode : UInt32} (h : Works p [] k) :
    Adds Kernel.books (openFile p ip omode : KM σ ℤ) k fun _ => -inodeRef (some ip) := by
  unfold openFile
  apply Adds.bind filealloc_books
  intro r k₁ hrun₁
  have h₁ := filealloc_works h r k₁ hrun₁
  cases r with
  | none =>
    apply Adds.bind iunlockput_books
    intro _ k₂ _
    exact Adds.pure (by simp)
  | some f =>
    apply Adds.bind fdalloc_books
    intro r k₂ hrun₂
    have h₂ := fdalloc_works h₁ r k₂ hrun₂
    cases r with
    | none =>
      apply Adds.bind fileclose_books
      intro _ k₃ _
      apply Adds.bind iunlockput_books
      intro _ k₄ _
      exact Adds.pure (by simp)
    | some fd =>
      apply Adds.skip (onFs_books_none getInode_refs)
      intro i k₃ hrun₃
      have h₃ := onFs_works h₂ i k₃ hrun₃
      apply Adds.bind setFile_books
      intro _ k₄ _
      apply Adds.skip (onFs_books_none openTrunc_refs)
      intro _ k₅ _
      apply Adds.skip (onFs_books_none iunlock_refs)
      intro _ k₆ _
      apply Adds.pure
      rw [ref_openedFile, inode_openedFile, h₃.inode_eq (by simp), Option.map_some, inodeRef_none,
        sub_self, zero_smul]
      abel

theorem openFile_works {ip : Fin NINODE} {omode : UInt32} (h : Works p [] k) :
    Sat (openFile p ip omode) k fun _ k' => Works p [] k' := by
  unfold openFile
  refine Sat.bind (filealloc_works h) fun r k₁ h₁ => ?_
  cases r with
  | none => exact Sat.bind (onFs_works h₁) fun _ k₂ h₂ => Sat.pure h₂
  | some f =>
    refine Sat.bind (fdalloc_works h₁) fun r k₂ h₂ => ?_
    cases r with
    | none =>
      refine Sat.bind (fileclose_works h₂) fun _ k₃ h₃ => ?_
      exact Sat.bind (onFs_works h₃) fun _ k₄ h₄ => Sat.pure h₄.forget
    | some fd =>
      refine Sat.bind (onFs_works h₂) fun i k₃ h₃ => ?_
      refine Sat.bind (setFile_works h₃ (by simp) (ref_openedFile i ip omode)) fun _ k₄ h₄ => ?_
      refine Sat.bind (onFs_works h₄.forget) fun _ k₅ h₅ => ?_
      exact Sat.bind (onFs_works h₅) fun _ k₆ h₆ => Sat.pure h₆

theorem sysOpen_books {path : List UInt8} {omode : UInt32} (h : Works p [] k) :
    Adds Kernel.books (sysOpen fuel p path omode : KM σ ℤ) k fun _ =>
      if isConsole path = true then consoleSlip k p else 0 := by
  unfold sysOpen
  apply Adds.ite
  · intro hcons
    rw [if_pos hcons]
    exact openConsole_books h
  · intro hcons
    rw [if_neg hcons]
    apply Adds.skip get_books
    rintro _ _ ⟨⟩
    apply Adds.bind (onFs_books openInode_refs)
    intro r k₁ hrun₁
    have h₁ := onFs_works h r k₁ hrun₁
    cases r with
    | none => exact Adds.pure (by rw [point_none]; exact sub_self 0)
    | some ip => exact (openFile_books h₁).last fun _ => (zero_sub _).symm

theorem sysOpen_works {path : List UInt8} {omode : UInt32} (h : Works p [] k) :
    Sat (sysOpen fuel p path omode) k fun _ k' => Works p [] k' := by
  unfold sysOpen
  apply Sat.ite
  · intro _
    exact openConsole_works h
  · intro _
    refine Sat.bind Sat.get fun _ _ hk => ?_
    obtain ⟨rfl, rfl⟩ := hk
    refine Sat.bind (onFs_works h) fun r k₁ h₁ => ?_
    cases r with
    | none => exact Sat.pure h₁
    | some ip => exact openFile_works h₁

/-! ### Processes -/

/-- **`sys_chdir` balances**: the old directory is put, and the reference to the new one
passes to the process. -/
theorem sysChdir_books {path : List UInt8} :
    Adds Kernel.books (sysChdir fuel p path : KM σ ℤ) k fun _ => 0 := by
  unfold sysChdir
  apply Adds.skip get_books
  rintro _ _ ⟨⟩
  apply Adds.bind (onFs_books chdirInode_refs)
  intro r k₁ hrun₁
  cases r with
  | none => exact Adds.pure (by rw [point_none]; exact sub_self 0)
  | some ip =>
    cases hcwd : (k.proc p).cwd with
    | none => exact Adds.throw
    | some cwd =>
      apply Adds.bind iput_books
      intro _ k₂ hrun₂
      have hproc : k₂.proc = k.proc := (onFs_proc hrun₂).trans (onFs_proc hrun₁)
      apply Adds.bind (setProc_books rfl)
      intro _ k₃ _
      apply Adds.pure
      show 0 - inodeRef (some ip) - _ - _ = 0
      simp only [hproc, hcwd]
      abel

theorem sysChdir_works {path : List UInt8} (h : Works p [] k) :
    Sat (sysChdir fuel p path) k fun _ k' => Works p [] k' := by
  unfold sysChdir
  refine Sat.bind Sat.get fun _ _ hk => ?_
  obtain ⟨rfl, rfl⟩ := hk
  refine Sat.bind (onFs_works h) fun r k₁ h₁ => ?_
  cases r with
  | none => exact Sat.pure h₁
  | some ip =>
    cases (k.proc p).cwd with
    | none => exact Sat.throw
    | some cwd =>
      refine Sat.bind (onFs_works h₁) fun _ k₂ h₂ => ?_
      refine Sat.bind (setProc_works h₂ ?_ fun _ => h₂.runnable) fun _ k₃ h₃ => Sat.pure h₃
      exact fun hgone => absurd hgone (not_gone_of_runnable h₂.runnable)

theorem state_of_unusedProc {np : Fin NPROC} (h : unusedProc k = some np) :
    (k.proc np).state = .unused := by
  simpa using List.find?_some h

/-- An unused entry, allocated. -/
def Kernel.takeProc (k : Kernel σ) (np : Fin NPROC) : Kernel σ :=
  let x := k.proc np
  { k with
    nextpid := k.nextpid + 1
    proc := update k.proc np { x with state := .used, pid := k.nextpid } }

theorem allocproc_sat : Sat allocproc k fun r k' => r = unusedProc k ∧
    k' = r.elim k k.takeProc := by
  intro r k' h
  obtain ⟨_, _, ⟨⟩, h⟩ := bind_eq_ok.mp h
  cases hf : unusedProc k with
  | none =>
    simp only [hf] at h
    cases h
    exact ⟨rfl, rfl⟩
  | some i =>
    simp only [hf] at h
    obtain ⟨_, _, ⟨⟩, h⟩ := bind_eq_ok.mp h
    obtain ⟨_, _, ⟨⟩, h⟩ := bind_eq_ok.mp h
    cases h
    exact ⟨rfl, rfl⟩

theorem allocproc_books : Adds Kernel.books (allocproc : KM σ _) k fun _ => 0 := by
  unfold allocproc
  apply Adds.skip get_books
  rintro _ _ ⟨⟩
  cases unusedProc k with
  | none => exact Adds.pure rfl
  | some np =>
    apply Adds.skip (modify_books rfl)
    rintro _ _ ⟨⟩
    apply Adds.bind (setProc_books rfl)
    intro _ k₁ _
    exact Adds.pure (by simp)

theorem freeproc_books {np : Fin NPROC} :
    Adds Kernel.books (freeproc np : KM σ Unit) k fun _ => 0 :=
  (setProc_books rfl).last fun _ => sub_self _

/-- Process `np` is being made by process `p`, and its descriptors in `l` are null. -/
structure Forks (p np : Fin NPROC) (l : List (Fin NOFILE)) (k : Kernel σ) : Prop extends
    Works p [] k where
  used : (k.proc np).state = .used
  empty : ∀ fd ∈ l, (k.proc np).ofile fd = none
  cwd : (k.proc np).cwd = none

variable {np : Fin NPROC}

theorem Forks.ne {l : List (Fin NOFILE)} (h : Forks p np l k) : p ≠ np := by
  rintro rfl
  have := h.used
  rw [h.runnable] at this
  cases this

/-- **A new process holds nothing**: its entry was left bare. -/
theorem Works.takeProc (h : Works p [] k) (hnp : unusedProc k = some np) :
    Forks p np (List.finRange NOFILE) (k.takeProc np) := by
  have hstate := state_of_unusedProc hnp
  have hbare := h.gone np (Or.inl hstate)
  have hne : p ≠ np := by
    rintro rfl
    rw [h.runnable] at hstate
    cases hstate
  have hself : (k.takeProc np).proc np = { k.proc np with state := .used, pid := k.nextpid } :=
    update_self ..
  refine ⟨⟨⟨fun q hq => ?_, h.free⟩, ?_, h.nodup, h.taken⟩, ?_, ?_, ?_⟩
  · by_cases hqn : q = np
    · rw [hqn, hself] at hq
      rcases hq with hq | hq <;> cases hq
    · have hother : (k.takeProc np).proc q = k.proc q := update_of_ne hqn ..
      rw [hother] at hq ⊢
      exact h.gone q hq
  · have hother : (k.takeProc np).proc p = k.proc p := update_of_ne hne ..
    rw [hother]
    exact h.runnable
  · rw [hself]
  · intro fd _
    rw [hself]
    exact hbare.1 fd
  · rw [hself]
    exact hbare.2

theorem filedup_proc {k' : Kernel σ} {u : Unit} (h : filedup f k = .ok (u, k')) :
    k'.proc = k.proc := by
  obtain ⟨_, _, ⟨⟩, h⟩ := bind_eq_ok.mp h
  split at h
  · cases h
  · cases h
    rfl

theorem forkFile_books {fd : Fin NOFILE} {l : List (Fin NOFILE)} (h : Forks p np (fd :: l) k) :
    Adds Kernel.books (forkFile p np fd : KM σ Unit) k fun _ => 0 := by
  unfold forkFile
  apply Adds.skip get_books
  rintro _ _ ⟨⟩
  cases (k.proc p).ofile fd with
  | none => exact Adds.pure rfl
  | some f =>
    apply Adds.bind filedup_books
    intro _ k₁ hrun
    apply setOfile_books.last
    intro _
    rw [filedup_proc hrun, h.empty fd List.mem_cons_self, fileRef_none]

theorem forkFile_forks {fd : Fin NOFILE} {l : List (Fin NOFILE)} (h : Forks p np (fd :: l) k)
    (hfd : fd ∉ l) : Sat (forkFile p np fd) k fun _ k' => Forks p np l k' := by
  have hempty : ∀ i ∈ l, (k.proc np).ofile i = none := fun i hi =>
    h.empty i (List.mem_cons_of_mem fd hi)
  unfold forkFile
  refine Sat.bind Sat.get fun _ _ hk => ?_
  obtain ⟨rfl, rfl⟩ := hk
  cases (k.proc p).ofile fd with
  | none => exact Sat.pure { h with empty := hempty }
  | some f =>
    intro _ k' hrun
    obtain ⟨_, k₁, hdup, hset⟩ := bind_eq_ok.mp hrun
    have hproc := filedup_proc hdup
    have hused : (k₁.proc np).state = .used := by rw [hproc]; exact h.used
    have hw : Works p [] k' := by
      refine setProc_works (filedup_works h.toWorks _ _ hdup) ?_ (fun hp => absurd hp h.ne) _ _ hset
      rintro (hx | hx) <;> rw [hused] at hx <;> cases hx
    cases hset
    have hself : (k₁.setSlot np fd (some f)).proc np =
        { k₁.proc np with ofile := update (k₁.proc np).ofile fd (some f) } :=
      update_self ..
    refine ⟨hw, ?_, fun i hi => ?_, ?_⟩
    · exact (congrArg Proc.state hself).trans hused
    · have hne : i ≠ fd := fun hi' => hfd (hi' ▸ hi)
      refine (congrArg (Proc.ofile · i) hself).trans ?_
      show update (k₁.proc np).ofile fd (some f) i = none
      rw [update_of_ne hne, hproc, hempty i hi]
    · refine (congrArg Proc.cwd hself).trans ?_
      rw [hproc]
      exact h.cwd

/-- The loop of `fork`: every reference it takes is held by the new process. -/
theorem forkFiles_books : ∀ (l : List (Fin NOFILE)) (k : Kernel σ), l.Nodup → Forks p np l k →
    Adds Kernel.books (forM l (forkFile p np)) k fun _ => 0 := by
  intro l
  induction l with
  | nil => intro k _ _; exact Adds.pure rfl
  | cons fd l ih =>
    intro k hl h
    obtain ⟨hfd, hl⟩ := List.nodup_cons.mp hl
    rw [List.forM_cons]
    apply Adds.skip (forkFile_books h)
    intro _ k₁ hrun
    exact ih k₁ hl (forkFile_forks h hfd _ _ hrun)

theorem forkFiles_forks : ∀ (l : List (Fin NOFILE)) (k : Kernel σ), l.Nodup → Forks p np l k →
    Sat (forM l (forkFile p np)) k fun _ k' => Forks p np [] k' := by
  intro l
  induction l with
  | nil => intro k _ h; exact Sat.pure h
  | cons fd l ih =>
    intro k hl h
    obtain ⟨hfd, hl⟩ := List.nodup_cons.mp hl
    rw [List.forM_cons]
    exact Sat.bind (forkFile_forks h hfd) fun _ k₁ h₁ => ih k₁ hl h₁

/-- **`fork` balances**: every reference it takes is held by the new process. -/
theorem fork_books {mem : Bool} (h : Works p [] k) :
    Adds Kernel.books (fork p mem : KM σ ℤ) k fun _ => 0 := by
  unfold fork
  apply Adds.skip allocproc_books
  intro r k₁ hrun₁
  obtain ⟨hr, hk₁⟩ := allocproc_sat r k₁ hrun₁
  cases r with
  | none => exact Adds.pure rfl
  | some np =>
    apply Adds.ite
    · intro _
      apply Adds.skip freeproc_books
      intro _ k₂ _
      exact Adds.pure rfl
    · intro _
      have h₁ : Forks p np (List.finRange NOFILE) k₁ := hk₁ ▸ h.takeProc hr.symm
      apply Adds.skip (forkFiles_books _ k₁ (List.nodup_finRange _) h₁)
      intro _ k₂ hrun₂
      have h₂ := forkFiles_forks _ k₁ (List.nodup_finRange _) h₁ _ _ hrun₂
      apply Adds.skip get_books
      rintro _ _ ⟨⟩
      cases (k₂.proc p).cwd with
      | none => exact Adds.throw
      | some ip =>
        apply Adds.bind (onFs_books idup_refs)
        intro ip' k₃ hrun₃
        apply Adds.bind (setProc_books rfl)
        intro _ k₄ _
        apply Adds.skip ((setProc_books rfl).last fun _ => sub_self _)
        intro _ k₅ _
        apply Adds.skip ((setProc_books rfl).last fun _ => sub_self _)
        intro _ k₆ _
        apply Adds.pure
        show 0 - inodeRef (some ip') - (inodeRef (k₃.proc np).cwd - inodeRef (some ip')) = 0
        rw [onFs_proc hrun₃, h₂.cwd, inodeRef_none]
        abel

/-- A process that is being made is not gone. -/
theorem setProc_used {g : Proc → Proc} (h : Works p [] k) (hne : p ≠ np)
    (hused : (k.proc np).state = .used) (hg : ∀ x, (g x).state = x.state) :
    Sat (setProc np g) k fun _ k' => Works p [] k' ∧ (k'.proc np).state = .used := by
  rintro _ _ ⟨⟩
  have hself : update k.proc np (g (k.proc np)) np = g (k.proc np) :=
    update_self ..
  refine ⟨setProc_works h ?_ (fun h => absurd h hne) _ _ rfl, ?_⟩
  · rintro (hx | hx) <;> rw [hg, hused] at hx <;> cases hx
  · exact (congrArg Proc.state hself).trans ((hg _).trans hused)

theorem onFs_used {m : FsM σ α} (h : Works p [] k) (hused : (k.proc np).state = .used) :
    Sat (onFs m) k fun _ k' => Works p [] k' ∧ (k'.proc np).state = .used := by
  intro a k' hrun
  refine ⟨onFs_works h a k' hrun, ?_⟩
  rw [onFs_proc hrun]
  exact hused

theorem fork_works {mem : Bool} (h : Works p [] k) :
    Sat (fork p mem) k fun _ k' => Works p [] k' := by
  unfold fork
  refine Sat.bind allocproc_sat fun r k₁ hr => ?_
  obtain ⟨hr, hk₁⟩ := hr
  cases r with
  | none =>
    cases hk₁
    exact Sat.pure h
  | some np =>
    have h₁ : Forks p np (List.finRange NOFILE) k₁ := hk₁ ▸ h.takeProc hr.symm
    have hp : p = np → ∀ {P : Prop}, P := fun hp => absurd hp h₁.ne
    apply Sat.ite
    · intro _
      refine Sat.bind (setProc_works h₁.toWorks ?_ fun h => hp h) fun _ k₂ h₂ => Sat.pure h₂
      exact fun _ => ⟨fun fd => h₁.empty fd (List.mem_finRange fd), h₁.cwd⟩
    · intro _
      refine Sat.bind (forkFiles_forks _ k₁ (List.nodup_finRange _) h₁) fun _ k₂ h₂ => ?_
      refine Sat.bind Sat.get fun _ _ hk => ?_
      obtain ⟨rfl, rfl⟩ := hk
      cases (k₂.proc p).cwd with
      | none => exact Sat.throw
      | some ip =>
        refine Sat.bind (onFs_used h₂.toWorks h₂.used) fun ip' k₃ h₃ => ?_
        refine Sat.bind (setProc_used h₃.1 h₁.ne h₃.2 fun _ => rfl) fun _ k₄ h₄ => ?_
        refine Sat.bind (setProc_used h₄.1 h₁.ne h₄.2 fun _ => rfl) fun _ k₅ h₅ => ?_
        refine Sat.bind (setProc_works h₅.1 ?_ fun h => hp h) fun _ k₆ h₆ => Sat.pure h₆
        rintro (hx | hx) <;> cases hx

theorem fileclose_proc {k' : Kernel σ} {u : Unit} (h : fileclose f k = .ok (u, k')) :
    k'.proc = k.proc := by
  obtain ⟨_, _, ⟨⟩, h⟩ := bind_eq_ok.mp h
  split at h
  · cases h
  split at h
  · cases h
    rfl
  · obtain ⟨_, _, ⟨⟩, h⟩ := bind_eq_ok.mp h
    refine fileRelease_sat (I := fun k' => k'.proc = k.proc) ?_ ?_ ?_ _ _ h
    · rfl
    · exact fun _ => rfl
    · exact fun _ => rfl

theorem exitFile_books {fd : Fin NOFILE} :
    Adds Kernel.books (exitFile p fd : KM σ Unit) k fun _ => 0 := by
  unfold exitFile
  apply Adds.skip get_books
  rintro _ _ ⟨⟩
  cases hfd : (k.proc p).ofile fd with
  | none => exact Adds.pure rfl
  | some f =>
    apply Adds.bind fileclose_books
    intro _ k₁ hrun
    apply setOfile_books.last
    intro _
    rw [fileclose_proc hrun, hfd, fileRef_none]
    abel

theorem exitFile_works {fd : Fin NOFILE} (h : Works p [] k) :
    Sat (exitFile p fd) k fun _ k' => Works p [] k' ∧ (k'.proc p).ofile fd = none ∧
      ∀ i, (k.proc p).ofile i = none → (k'.proc p).ofile i = none := by
  unfold exitFile
  refine Sat.bind Sat.get fun _ _ hk => ?_
  obtain ⟨rfl, rfl⟩ := hk
  cases hfd : (k.proc p).ofile fd with
  | none => exact Sat.pure ⟨h, hfd, fun _ hi => hi⟩
  | some f =>
    intro _ k' hrun
    obtain ⟨_, k₁, hclose, hset⟩ := bind_eq_ok.mp hrun
    have hw : Works p [] k' := setOfile_works (fileclose_works h _ _ hclose) _ _ hset
    cases hset
    have hself : ((k₁.setSlot p fd none).proc p).ofile =
        update (k₁.proc p).ofile fd none := ofile_setSlot
    refine ⟨hw, (congrFun hself fd).trans (update_self ..), fun i hi => ?_⟩
    refine (congrFun hself i).trans ?_
    by_cases hif : i = fd
    · rw [hif, update_self]
    · rw [update_of_ne hif, fileclose_proc hclose, hi]

theorem exitFiles_books : ∀ (l : List (Fin NOFILE)) (k : Kernel σ),
    Adds Kernel.books (forM l (exitFile p)) k fun _ => 0 := by
  intro l
  induction l with
  | nil => intro k; exact Adds.pure rfl
  | cons fd l ih =>
    intro k
    rw [List.forM_cons]
    apply Adds.skip exitFile_books
    intro _ k₁ _
    exact ih k₁

/-- The loop of `exit` leaves the process without descriptors. -/
theorem exitFiles_works (h : Works p [] k) :
    Sat (forM (List.finRange NOFILE) (exitFile p)) k fun _ k' =>
      Works p [] k' ∧ ∀ fd, (k'.proc p).ofile fd = none := by
  have hloop := Sat.forM_each (I := Works p []) (P := fun fd k => (k.proc p).ofile fd = none)
    (List.finRange NOFILE) k h fun fd _ k' h' => exitFile_works h'
  exact hloop.mono fun _ k' h' => ⟨h'.1, fun fd => h'.2.1 fd (List.mem_finRange fd)⟩

theorem reparent_books : Adds Kernel.books (reparent p : KM σ Unit) k fun _ => 0 := by
  apply modify_books
  have hslots : Kernel.slots { k with proc := fun pp => if (k.proc pp).parent = some p then
      { k.proc pp with parent := k.initproc } else k.proc pp } = k.slots := by
    funext i
    simp only [Kernel.slots]
    split <;> rfl
  have hcwd : (Proc.cwd ∘ fun pp => if (k.proc pp).parent = some p then
      { k.proc pp with parent := k.initproc } else k.proc pp) = Proc.cwd ∘ k.proc := by
    funext pp
    simp only [Function.comp_apply]
    split <;> rfl
  simp only [Kernel.books, Kernel.owed, Kernel.due, hslots, hcwd]

/-- **`exit` balances**: it drops the references that the process holds. -/
theorem exit_books {status : ℤ} : Adds Kernel.books (exit p status : KM σ Unit) k fun _ => 0 := by
  unfold exit
  apply Adds.skip get_books
  rintro _ _ ⟨⟩
  apply Adds.ite (fun _ => Adds.throw)
  intro _
  apply Adds.skip (exitFiles_books _ k)
  intro _ k₁ _
  apply Adds.skip get_books
  rintro _ _ ⟨⟩
  cases hcwd : (k₁.proc p).cwd with
  | none => exact Adds.throw
  | some ip =>
    apply Adds.bind iput_books
    intro _ k₂ hrun₂
    apply Adds.bind (setProc_books rfl)
    intro _ k₃ _
    apply Adds.bind reparent_books
    intro _ k₄ _
    refine (setProc_books rfl).last fun _ => ?_
    show inodeRef (k₄.proc p).cwd - inodeRef (k₄.proc p).cwd =
      0 - -inodeRef (some ip) - (inodeRef (k₂.proc p).cwd - inodeRef none) - 0
    rw [onFs_proc hrun₂, hcwd, inodeRef_none]
    abel

theorem reparent_tidy (h : Tidy k) (hbare : (k.proc p).Bare) :
    Sat (reparent p) k fun _ k' => Tidy k' ∧ (k'.proc p).Bare := by
  rintro _ _ ⟨⟩
  have hgone : ∀ q, (if (k.proc q).parent = some p then
      { k.proc q with parent := k.initproc } else k.proc q).Gone → (k.proc q).Gone := by
    intro q hq
    split at hq <;> exact hq
  have hholds : ∀ q, (k.proc q).Bare → (if (k.proc q).parent = some p then
      { k.proc q with parent := k.initproc } else k.proc q).Bare := by
    intro q hq
    split <;> exact hq
  exact ⟨⟨fun q hq => hholds q (h.gone q (hgone q hq)), h.free⟩, hholds p hbare⟩

/-- **A process that exits leaves its entry bare.** -/
theorem exit_tidy {status : ℤ} (h : Works p [] k) :
    Sat (exit p status) k fun _ k' => Tidy k' := by
  unfold exit
  refine Sat.bind Sat.get fun _ _ hk => ?_
  obtain ⟨rfl, rfl⟩ := hk
  refine Sat.ite (fun _ => Sat.throw) fun _ => ?_
  refine Sat.bind (exitFiles_works h) fun _ k₁ h₁ => ?_
  refine Sat.bind Sat.get fun _ _ hk => ?_
  obtain ⟨rfl, rfl⟩ := hk
  cases (k₁.proc p).cwd with
  | none => exact Sat.throw
  | some ip =>
    intro _ k' hrun
    obtain ⟨_, k₂, hrun₂, hrun⟩ := bind_eq_ok.mp hrun
    have h₂ := onFs_works h₁.1 _ k₂ hrun₂
    obtain ⟨_, k₃, hrun₃, hrun⟩ := bind_eq_ok.mp hrun
    have hrunnable : (k₂.proc p).state = .runnable := h₂.runnable
    have h₃ : Tidy k₃ ∧ (k₃.proc p).Bare := by
      cases hrun₃
      refine ⟨h₂.setProc fun hgone => absurd hgone (not_gone_of_runnable hrunnable), ?_⟩
      simp only [update_self]
      refine ⟨fun fd => ?_, rfl⟩
      rw [onFs_proc hrun₂]
      exact h₁.2 fd
    obtain ⟨_, k₄, hrun₄, hrun⟩ := bind_eq_ok.mp hrun
    have h₄ := reparent_tidy h₃.1 h₃.2 _ _ hrun₄
    cases hrun
    exact h₄.1.setProc fun _ => h₄.2

/-! ### All calls -/

theorem wait_books {copy killed : Bool} :
    Adds Kernel.books (wait p copy killed : KM σ (Option ℤ)) k fun _ => 0 := by
  unfold wait
  apply Adds.skip get_books
  rintro _ _ ⟨⟩
  split
  · apply Adds.ite
    · exact fun _ => Adds.pure rfl
    · intro _
      apply Adds.skip freeproc_books
      intro _ k₁ _
      exact Adds.pure rfl
  · apply Adds.ite
    · exact fun _ => Adds.pure rfl
    · exact fun _ => Adds.pure rfl

theorem wait_tidy {copy killed : Bool} (h : Tidy k) :
    Sat (wait p copy killed) k fun _ k' => Tidy k' := by
  unfold wait
  refine Sat.bind Sat.get fun _ _ hk => ?_
  obtain ⟨rfl, rfl⟩ := hk
  split
  · next pp hpp =>
    refine Sat.ite (fun _ => Sat.pure h) fun _ => ?_
    have hzombie : (k.proc pp).state = .zombie := by
      have := List.find?_some hpp
      simp only [decide_eq_true_eq] at this
      exact this.2
    refine Sat.bind (R := fun _ k' => Tidy k') ?_ fun _ k₁ h₁ => Sat.pure h₁
    rintro _ _ ⟨⟩
    exact h.setProc fun _ => h.gone pp (Or.inr hzombie)
  · exact Sat.ite (fun _ => Sat.pure h) fun _ => Sat.pure h

/-- A call of the file system balances if its references do. -/
theorem onPath_books {path : Option (List UInt8)} {m : Option (Fin NINODE) → List UInt8 → FsM σ ℤ}
    (h : ∀ cwd path, Adds Fs.refs (m cwd path) k.fs fun _ => 0) :
    Adds Kernel.books (onPath p path m) k fun _ => 0 := by
  unfold onPath
  cases path with
  | none => exact Adds.pure rfl
  | some path =>
    apply Adds.skip get_books
    rintro _ _ ⟨⟩
    apply Adds.skip (onFs_books_none (h _ _))
    intro _ k₁ _
    exact Adds.pure rfl

theorem onPath_works {path : Option (List UInt8)} {m : Option (Fin NINODE) → List UInt8 → FsM σ ℤ}
    (h : Works p L k) : Sat (onPath p path m) k fun _ k' => Works p L k' := by
  unfold onPath
  cases path with
  | none => exact Sat.pure h
  | some path =>
    refine Sat.bind Sat.get fun _ _ hk => ?_
    obtain ⟨rfl, rfl⟩ := hk
    exact Sat.bind (onFs_works h) fun _ k₁ h₁ => Sat.pure h₁

/-- **The listing functions**: that of the current directory puts it once too often, and
that of a file keeps a reference to it. -/
theorem sysPrintinfo_books {code : ℤ} {name : Option (ℕ → UInt8)} :
    Sat (sysPrintinfo fuel p code name) k fun _ k' =>
      (code = 1 → ∃ ip, k'.books = k.books - inodeRef (some ip)) ∧
      (code = 2 → ∃ fi, k'.books = k.books + inodeRef (some fi)) ∧
      (code ≠ 1 → code ≠ 2 → k'.books = k.books) := by
  unfold sysPrintinfo
  refine Sat.bind Sat.get fun _ _ hk => ?_
  obtain ⟨rfl, rfl⟩ := hk
  -- what the listing adds to the books, `exit` leaves there
  have hexit : ∀ {α : Type} {m : FsM σ α} {Q : Books → Prop},
      Sat (onFs m) k (fun _ k₁ => Q k₁.books) →
      Sat (do let _ ← onFs m; exit p 0; return none : KM σ (Option ℤ)) k fun _ k' =>
        Q k'.books := by
    intro α m Q hm
    refine Sat.bind hm fun _ k₁ h₁ => ?_
    refine Sat.bind exit_books fun _ k₂ h₂ => Sat.pure ?_
    rw [h₂, add_zero]
    exact h₁
  refine Sat.ite (fun hcode => ?_) fun _ => Sat.ite (fun hcode => ?_) fun hcode₁ =>
    Sat.ite (fun hcode => ?_) fun hcode₂ => ?_
  · refine (hexit (Q := fun b => b = k.books) ?_).mono fun _ k' h' =>
      ⟨fun h => by omega, fun h => by omega, fun _ _ => h'⟩
    exact (onFs_books_none printRootFiles_refs).mono fun _ k₁ h₁ => by rw [h₁, add_zero]
  · refine (hexit (Q := fun b => ∃ ip, b = k.books - inodeRef (some ip)) ?_).mono fun _ k' h' =>
      ⟨fun _ => h', fun h => by omega, fun h => by omega⟩
    cases hcwd : (k.proc p).cwd with
    | none =>
      intro _ k₁ hrun
      cases hrun
    | some ip =>
      refine (onFs_books printCwdFiles_refs).mono fun _ k₁ h₁ => ⟨ip, ?_⟩
      rw [h₁, sub_eq_add_neg]
      exact congrArg (k.books + ·) (Prod.ext neg_zero.symm rfl)
  · refine (hexit (Q := fun b => ∃ fi, b = k.books + inodeRef (some fi)) ?_).mono fun _ k' h' =>
      ⟨fun h => by omega, fun _ => h', fun _ h => by omega⟩
    intro _ k₁ hrun
    obtain ⟨⟨fi, hfi⟩, hk₁⟩ := onFs_sat printCatFile_refs _ k₁ hrun
    rw [hk₁]
    exact ⟨fi, Kernel.books_withFs hfi⟩
  · exact Sat.pure ⟨fun h => absurd h hcode₁, fun h => absurd h hcode₂, fun _ _ => rfl⟩

theorem sysPrintinfo_tidy {code : ℤ} {name : Option (ℕ → UInt8)} (h : Works p [] k) :
    Sat (sysPrintinfo fuel p code name) k fun _ k' => Tidy k' := by
  unfold sysPrintinfo
  refine Sat.bind Sat.get fun _ _ hk => ?_
  obtain ⟨rfl, rfl⟩ := hk
  have hexit : ∀ {α : Type} {m : FsM σ α},
      Sat (do let _ ← onFs m; exit p 0; return none : KM σ (Option ℤ)) k fun _ k' => Tidy k' := by
    intro α m
    refine Sat.bind (onFs_works h) fun _ k₁ h₁ => ?_
    exact Sat.bind (exit_tidy h₁) fun _ k₂ h₂ => Sat.pure h₂
  exact Sat.ite (fun _ => hexit) fun _ => Sat.ite (fun _ => hexit) fun _ =>
    Sat.ite (fun _ => hexit) fun _ => Sat.pure h.toTidy

/-- **System calls leave the tables tidy.** -/
theorem call_tidy {c : Call} (h : Tidy k) (hp : (k.proc p).state = .runnable) :
    Sat (c.run fuel p) k fun _ k' => Tidy k' := by
  have hw : Works p [] k := ⟨h, hp, List.nodup_nil, fun _ hf => absurd hf List.not_mem_nil⟩
  have hmap : ∀ {m : KM σ ℤ}, Sat m k (fun _ k' => Works p [] k') →
      Sat (some <$> m) k fun _ k' => Tidy k' := fun hm => Sat.map (hm.mono fun _ _ h' => h'.toTidy)
  have hpath : ∀ path (m : Option (Fin NINODE) → List UInt8 → FsM σ ℤ),
      Sat (onPath p path m) k fun _ k' => Tidy k' := fun _ _ =>
    (onPath_works hw).mono fun _ _ h' => h'.toTidy
  cases c with
  | openPath path omode =>
    cases path with
    | none => exact Sat.pure h
    | some path => exact hmap (sysOpen_works hw)
  | dup fd => exact hmap (sysDup_works hw)
  | close fd => exact hmap (sysClose_works hw)
  | pipe page copy => exact hmap (sysPipe_works hw)
  | chdir path =>
    cases path with
    | none => exact Sat.pure h
    | some path => exact hmap (sysChdir_works hw)
  | link old new =>
    cases old with
    | none => exact Sat.pure h
    | some old => exact hpath new fun cwd new => sysLink fuel cwd old new
  | unlink path => exact hpath _ _
  | mkdir path => exact hpath _ _
  | exec path mem => exact hpath path (execCall fuel mem)
  | printinfo code name => exact sysPrintinfo_tidy hw
  | fork mem => exact hmap (fork_works hw)
  | exit status => exact Sat.bind (exit_tidy hw) fun _ k₁ h₁ => Sat.pure h₁
  | wait copy killed => exact wait_tidy h

/-- The calls that list the current directory or a file in it. -/
def Call.Lists : Call → Prop
  | printinfo code _ => code = 1 ∨ code = 2
  | _ => False

/-- What the other calls add to the books. -/
def Call.slip (k : Kernel σ) (p : Fin NPROC) : Call → Books
  | openPath (some path) _ => if isConsole path = true then consoleSlip k p else 0
  | close fd => fileRef (unclosed k p fd)
  | _ => 0

theorem execCall_refs {mem : ExecMem} {s : Fs σ} {cwd : Option (Fin NINODE)} {path : List UInt8} :
    Adds Fs.refs (execCall fuel mem cwd path : FsM σ ℤ) s fun _ => 0 := by
  unfold execCall
  apply Adds.skip execImage_refs
  intro loaded t _
  exact Adds.pure rfl

/-- **What a call adds to the books**: its slip and, if it lists a directory or a file,
some references to inodes. -/
theorem call_books {c : Call} (h : Tidy k) (hp : (k.proc p).state = .runnable) :
    Sat (c.run fuel p) k fun _ k' => ∃ d : Fin NINODE → ℤ,
      k'.books = k.books + c.slip k p + (0, d) ∧ (d = 0 ↔ ¬c.Lists) := by
  have hw : Works p [] k := ⟨h, hp, List.nodup_nil, fun _ hf => absurd hf List.not_mem_nil⟩
  -- a call with a known amount, that lists nothing
  have hadds : ∀ {α : Type} {m : KM σ α} (D : Books), Adds Kernel.books m k (fun _ => D) →
      Sat m k fun _ k' => ∃ d : Fin NINODE → ℤ, k'.books = k.books + D + (0, d) ∧
        (d = 0 ↔ ¬False) := by
    intro α m D hm
    refine Sat.mono hm fun _ k' h' => ⟨0, ?_, fun _ h => h, fun _ => rfl⟩
    rw [h']
    exact (add_zero _).symm
  cases c with
  | openPath path omode =>
    cases path with
    | none => exact hadds 0 (Adds.pure rfl)
    | some path =>
      exact Sat.map (hadds (Call.slip k p (.openPath (some path) omode)) (sysOpen_books hw))
  | dup fd => exact Sat.map (hadds 0 sysDup_books)
  | close fd => exact Sat.map (hadds (fileRef (unclosed k p fd)) sysClose_books)
  | pipe page copy => exact Sat.map (hadds 0 (sysPipe_books hw))
  | chdir path =>
    cases path with
    | none => exact hadds 0 (Adds.pure rfl)
    | some path => exact Sat.map (hadds 0 sysChdir_books)
  | link old new =>
    cases old with
    | none => exact hadds 0 (Adds.pure rfl)
    | some old =>
      exact hadds 0 (onPath_books (m := fun cwd new => sysLink fuel cwd old new)
        fun _ _ => sysLink_refs)
  | unlink path => exact hadds 0 (onPath_books (m := sysUnlink fuel) fun _ _ => sysUnlink_refs)
  | mkdir path => exact hadds 0 (onPath_books (m := sysMkdir fuel) fun _ _ => sysMkdir_refs)
  | exec path mem => exact hadds 0 (onPath_books (m := execCall fuel mem) fun _ _ => execCall_refs)
  | printinfo code name =>
    have hpoint : ∀ ip : Fin NINODE, point (some ip) ≠ 0 := fun ip h0 =>
      Option.some_ne_none ip (point_eq_zero.mp h0)
    refine Sat.mono sysPrintinfo_books fun _ k' h' => ?_
    obtain ⟨hcwd, hcat, hnone⟩ := h'
    show ∃ d, k'.books = k.books + 0 + (0, d) ∧ (d = 0 ↔ ¬(code = 1 ∨ code = 2))
    rw [add_zero]
    by_cases h₁ : code = 1
    · obtain ⟨ip, hip⟩ := hcwd h₁
      refine ⟨-point (some ip), ?_, fun h0 => absurd (neg_eq_zero.mp h0) (hpoint ip), fun h0 => ?_⟩
      · rw [hip, sub_eq_add_neg]
        exact congrArg (k.books + ·) (Prod.ext neg_zero rfl)
      · exact absurd (Or.inl h₁) h0
    · by_cases h₂ : code = 2
      · obtain ⟨fi, hfi⟩ := hcat h₂
        exact ⟨point (some fi), hfi, fun h0 => absurd h0 (hpoint fi),
          fun h0 => absurd (Or.inr h₂) h0⟩
      · refine ⟨0, ?_, fun _ => not_or.mpr ⟨h₁, h₂⟩, fun _ => rfl⟩
        rw [hnone h₁ h₂]
        exact (add_zero _).symm
  | fork mem => exact Sat.map (hadds 0 (fork_books hw))
  | exit status =>
    exact Sat.bind (hadds 0 exit_books) fun _ k₁ h₁ => Sat.pure h₁
  | wait copy killed => exact hadds 0 wait_books

/-! ### The first process -/

theorem Kernel.boot_owed (fs : Fs σ) : (Kernel.boot fs).owed = 0 := by
  funext f
  simp [Kernel.owed, pointers, Kernel.slots, Kernel.boot, Proc.unused, File.unused]

theorem Kernel.boot_due (fs : Fs σ) : (Kernel.boot fs).due = fs.refs := by
  funext ip
  simp [Kernel.due, pointers, Kernel.boot, Proc.unused, File.unused, File.inode, Function.comp_def]

theorem Kernel.boot_tidy (fs : Fs σ) : Tidy (Kernel.boot fs) :=
  ⟨fun _ _ => ⟨fun _ => rfl, rfl⟩, fun _ _ => rfl⟩

/-- The reference that `namei` returns is held by the first process. -/
theorem userinit_books {fs : Fs σ} :
    Adds Kernel.books (userinit fuel) (Kernel.boot fs) fun _ => 0 := by
  unfold userinit
  apply Adds.skip allocproc_books
  intro r k₁ hrun₁
  obtain ⟨hr, hk₁⟩ := allocproc_sat r k₁ hrun₁
  cases r with
  | none => exact Adds.throw
  | some p =>
    have hcwd : (k₁.proc p).cwd = none := by
      rw [hk₁]
      simp only [Option.elim_some, Kernel.takeProc, update_self]
      rfl
    apply Adds.skip (modify_books rfl)
    rintro _ _ ⟨⟩
    apply Adds.bind (onFs_books namei_refs)
    intro ip k₂ hrun₂
    apply Adds.bind (setProc_books rfl)
    intro _ k₃ _
    refine (setProc_books rfl).last fun _ => ?_
    show inodeRef (k₃.proc p).cwd - inodeRef (k₃.proc p).cwd =
      0 - inodeRef ip - (inodeRef (k₂.proc p).cwd - inodeRef ip)
    rw [onFs_proc hrun₂]
    show _ = 0 - inodeRef ip - (inodeRef (k₁.proc p).cwd - inodeRef ip)
    rw [hcwd, inodeRef_none]
    abel

theorem userinit_tidy {fs : Fs σ} :
    Sat (userinit fuel) (Kernel.boot fs) fun _ k' => Tidy k' := by
  unfold userinit
  intro _ k' hrun
  obtain ⟨r, k₁, hrun₁, hrun⟩ := bind_eq_ok.mp hrun
  obtain ⟨hr, hk₁⟩ := allocproc_sat r k₁ hrun₁
  cases r with
  | none => cases hrun
  | some p =>
    have hused : (k₁.proc p).state = .used := by
      rw [hk₁]
      simp only [Option.elim_some, Kernel.takeProc, update_self]
    have h₁ : Tidy k₁ := by
      rw [hk₁]
      refine Tidy.congr ((Kernel.boot_tidy fs).setProc ?_) rfl rfl
      rintro (hx | hx) <;> cases hx
    obtain ⟨_, _, ⟨⟩, hrun⟩ := bind_eq_ok.mp hrun
    obtain ⟨ip, k₂, hrun₂, hrun⟩ := bind_eq_ok.mp hrun
    have hproc₂ : k₂.proc = k₁.proc := (onFs_proc hrun₂).trans rfl
    have h₂ : Tidy k₂ := h₁.congr hproc₂ (by rw [onFs_frame hrun₂])
    obtain ⟨_, _, ⟨⟩, hrun⟩ := bind_eq_ok.mp hrun
    cases hrun
    refine Tidy.setProc (h₂.setProc ?_) ?_
    · rintro (hx | hx) <;> rw [hproc₂, hused] at hx <;> cases hx
    · rintro (hx | hx) <;> cases hx

theorem Runs.tidy {fs : Fs σ} {Allowed : Kernel σ → Fin NPROC → Call → Prop}
    (h : Runs fs Allowed k) : Tidy k := by
  induction h with
  | boot h => exact userinit_tidy _ _ h
  | call _ hp _ h ih => exact call_tidy ih hp _ _ h

end Xv6Ext2
