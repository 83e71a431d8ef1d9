import Xv6Ext2.Kernel
import Xv6Ext2.Vm.CopyString
import Xv6Ext2.Vm.Exec
import Xv6Ext2.Vm.Fork

/-!
# System calls and physical memory

`Kernel` has the tables of the kernel and takes it as given whether an allocation succeeds; the
modules on virtual memory have the allocator and one address space.  Here the two are put together:
the kernel with its tables, physical memory, and the memory of every process.  The functions of
`kernel/pipe.c`, `kernel/file.c` and `kernel/sysfile.c` that allocate and free the pages of pipes
are the ones of `Kernel` with the calls of `kalloc` and `kfree` in their places.

## Main definitions

* `State`, `SM` — the state, and programs over it.
* `pipealloc`, `pipeFree`, `fileclose`, `sysPipe` — pipes.
-/

namespace Xv6Ext2.Sys

open Bytes Prog Vm

variable {σ β : Type} [BlockLayer σ β] {α : Type}

/-! ### The state -/

/-- The kernel with its memory.  The page of a pipe is given by its place in the list of pipes, and
`cleared` is the page of a process that `uvmclear` has taken from the user, which the kernel itself
does not keep.  The pages `boot` have been allocated before the first process. -/
structure State (σ : Type) where
  kern : Kernel σ
  phys : Phys
  mem : Fin NPROC → ProcMem
  cleared : Fin NPROC → Option ℕ
  pipeAt : ℕ → ℕ
  boot : List ℕ

/-- The memory of an unused entry of the process table. -/
def noMem : ProcMem := ⟨0, 0, 0⟩

/-- Programs over the state: an error is one of the memory or one of the rest of the kernel. -/
abbrev SM (σ α : Type) := Prog (State σ) Stop α

/-- Run a program over physical memory. -/
def onMem (m : PM α) : SM σ α := fun s =>
  match m s.phys with
  | .ok (a, t) => .ok (a, { s with phys := t })
  | .error e => .error (.memory e)

/-- Run a program of the kernel. -/
def onKern (m : KM σ α) : SM σ α := fun s =>
  match m s.kern with
  | .ok (a, k) => .ok (a, { s with kern := k })
  | .error e => .error (.files e)

theorem onMem_of_ok {m : PM α} {s : State σ} {a : α} {φ : Phys} (h : m s.phys = .ok (a, φ)) :
    onMem m s = .ok (a, { s with phys := φ }) := by
  unfold onMem
  rw [h]

theorem onKern_of_ok {m : KM σ α} {s : State σ} {a : α} {k : Kernel σ}
    (h : m s.kern = .ok (a, k)) : onKern m s = .ok (a, { s with kern := k }) := by
  unfold onKern
  rw [h]

theorem onMem_yields {m : PM α} {s : State σ} {E : Stop → Prop} {Q : α → Phys → Prop}
    (h : Returns m s.phys Q) :
    Yields E (onMem m) s fun a t => ∃ φ, Q a φ ∧ t = { s with phys := φ } := by
  obtain ⟨a, φ, hm, hQ⟩ := h.exists
  exact Yields.of_ok (onMem_of_ok hm) ⟨φ, hQ, rfl⟩

/-- The bytes of an `int`. -/
def intBytes (n : ℤ) : List UInt8 := (List.range 4).map (byteOf (n % 2 ^ 32).toNat)

/-! ### Pipes -/

/-- The end of `pipeclose`: the page of a pipe is freed when both of its ends are closed. -/
def pipeFree (i : ℕ) : SM σ Unit := do
  let s ← get
  match s.kern.pipes[i]? with
  | some x =>
    if x.readopen = false ∧ x.writeopen = false then onMem (kfree (s.pipeAt i)) else return ()
  | none => throw (.files .fault)

/-- Close a file. -/
def fileclose (f : Fin NFILE) : SM σ Unit := do
  let s ← get
  onKern (Xv6Ext2.fileclose f)
  if (s.kern.ftable f).ref = 1 ∧ (s.kern.ftable f).type = .pipe then
    match (s.kern.ftable f).pipe with
    | some i => pipeFree i
    | none => throw (.files .fault)
  else return ()

/-- `if(f) fileclose(f);` -/
def filecloseIf (f : Option (Fin NFILE)) : SM σ Unit :=
  match f with
  | some f => fileclose f
  | none => return ()

/-- The end of `pipealloc` when it fails; there is no page then. -/
def pipeBad (f₀ f₁ : Option (Fin NFILE)) : SM σ (Option (Fin NFILE × Fin NFILE)) := do
  filecloseIf f₀
  filecloseIf f₁
  return none

/-- Make a pipe in a page, and make the two files its ends. -/
def pipeEnds (page : ℕ) (f₀ f₁ : Fin NFILE) : SM σ Unit := do
  modify fun s => { s with pipeAt := Function.update s.pipeAt s.kern.pipes.length page }
  onKern (Xv6Ext2.pipeEnds f₀ f₁)

/-- Allocate a pipe and the files of its two ends. -/
def pipealloc : SM σ (Option (Fin NFILE × Fin NFILE)) := do
  match ← onKern filealloc with
  | none => pipeBad none none
  | some f₀ => do
    match ← onKern filealloc with
    | none => pipeBad (some f₀) none
    | some f₁ => do
      let page ← onMem kalloc
      if page = 0 then pipeBad (some f₀) (some f₁)
      else do
        pipeEnds page f₀ f₁
        return some (f₀, f₁)

/-- The end of `sys_pipe` when it fails. -/
def pipeFail (rf wf : Fin NFILE) : SM σ ℤ := do
  fileclose rf
  fileclose wf
  return -1

/-- Copy the two descriptors of a pipe out; the second is tried only after the first. -/
def copyFds (pagetable fdarray : ℕ) (fd₀ fd₁ : Fin NOFILE) : PM Bool := do
  if ← Vm.copyout pagetable fdarray (intBytes fd₀) then
    Vm.copyout pagetable ((fdarray + 4) % 2 ^ 64) (intBytes fd₁)
  else return false

/-- `sys_pipe` -/
def sysPipe (p : Fin NPROC) (fdarray : ℕ) : SM σ ℤ := do
  match ← pipealloc with
  | none => return -1
  | some (rf, wf) => do
    match ← onKern (fdalloc p rf) with
    | none => pipeFail rf wf
    | some fd₀ => do
      match ← onKern (fdalloc p wf) with
      | none => do
        onKern (setOfile p fd₀ none)
        pipeFail rf wf
      | some fd₁ => do
        let s ← get
        if ← onMem (copyFds (s.mem p).pagetable fdarray fd₀ fd₁) then return 0
        else do
          onKern (setOfile p fd₀ none)
          onKern (setOfile p fd₁ none)
          pipeFail rf wf

end Xv6Ext2.Sys
