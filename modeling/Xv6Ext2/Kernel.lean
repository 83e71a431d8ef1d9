import Xv6Ext2.Sysfile

/-!
# Open files, processes and system calls

The file table of `kernel/file.c`, pipes as far as opening and closing them goes,
the process table of `kernel/proc.c`, and the system calls of `kernel/sysfile.c`.

A system call runs without another one in between, so a run of the kernel is a
sequence of calls, each by some process that is alive, in any order.  What a call learns from memory
(does an allocation succeed, can a result be copied out) is an argument of the call.

## Main definitions

* `File`, `Proc`, `Pipe`, `Kernel`, `KM` — the tables, the state, and programs over it.
* `filealloc`, `filedup`, `fileclose`, `argfd`, `fdalloc`, `pipealloc`, `pipeclose`.
* `sysOpen`, `sysDup`, `sysClose`, `sysPipe`, `sysChdir`, `sysPrintinfo`.
* `fork`, `exit`, `wait`, `userinit`.
* `Call`, `Call.run`, `Runs` — system calls, and the states of all runs.
-/

namespace Xv6Ext2

open CString

/-- The size of the process table. -/
abbrev NPROC : ℕ := 64

/-- The number of open files of a process. -/
abbrev NOFILE : ℕ := 16

/-- The size of the file table. -/
abbrev NFILE : ℕ := 100

-- processes, descriptors and files are written as numerals
instance (priority := 2000) neZero_NPROC : NeZero NPROC := ⟨by decide⟩

instance (priority := 2000) neZero_NOFILE : NeZero NOFILE := ⟨by decide⟩

instance (priority := 2000) neZero_NFILE : NeZero NFILE := ⟨by decide⟩

/-! ### The state -/

/-- The `type` of a file: `FD_NONE`, `FD_PIPE`, `FD_INODE` and `FD_DEVICE`. -/
inductive FileType
  | none
  | pipe
  | inode
  | device
  deriving DecidableEq, Repr

/-- `struct file`.  A pipe is named by its place in the list of pipes. -/
structure File where
  type : FileType
  ref : ℤ
  readable : Bool
  writable : Bool
  pipe : Option ℕ
  ip : Option (Fin NINODE)
  off : UInt32
  major : Int16

/-- An entry of the file table at boot. -/
def File.unused : File := ⟨.none, 0, false, false, none, none, 0, 0⟩

/-- `struct pipe`, as far as it says which ends are open. -/
structure Pipe where
  readopen : Bool
  writeopen : Bool

/-- The `state` of a process.  A process that sleeps or runs counts as runnable. -/
inductive ProcState
  | unused
  | used
  | runnable
  | zombie
  deriving DecidableEq, Repr

/-- `struct proc`, without its memory. -/
structure Proc where
  state : ProcState
  pid : ℕ
  parent : Option (Fin NPROC)
  xstate : ℤ
  ofile : Fin NOFILE → Option (Fin NFILE)
  cwd : Option (Fin NINODE)

/-- An entry of the process table at boot. -/
def Proc.unused : Proc := ⟨.unused, 0, none, 0, fun _ => none, none⟩

/-- The state of the kernel. -/
structure Kernel (σ : Type) where
  fs : Fs σ
  ftable : Fin NFILE → File
  proc : Fin NPROC → Proc
  consoleF : Option (Fin NFILE)
  initproc : Option (Fin NPROC)
  pipes : List Pipe
  nextpid : ℕ

/-- The kernel at boot, over a file system. -/
def Kernel.boot {σ : Type} (fs : Fs σ) : Kernel σ :=
  ⟨fs, fun _ => File.unused, fun _ => Proc.unused, none, none, [], 1⟩

/-- Programs of the kernel. -/
abbrev KM (σ α : Type) := Prog (Kernel σ) Err α

variable {σ β : Type} [BlockLayer σ β] {α : Type}

/-- Run a program of the file system. -/
def onFs (m : FsM σ α) : KM σ α := fun k =>
  match m k.fs with
  | .ok (a, fs) => .ok (a, { k with fs := fs })
  | .error e => .error e

theorem onFs_of_ok {m : FsM σ α} {k : Kernel σ} {a : α} {t : Fs σ} (h : m k.fs = .ok (a, t)) :
    onFs m k = .ok (a, { k with fs := t }) := by
  unfold onFs
  rw [h]

/-- Change an entry of the file table. -/
def setFile (f : Fin NFILE) (g : File → File) : KM σ Unit := fun k =>
  .ok ((), { k with ftable := Function.update k.ftable f (g (k.ftable f)) })

/-- Change an entry of the process table. -/
def setProc (p : Fin NPROC) (g : Proc → Proc) : KM σ Unit := fun k =>
  .ok ((), { k with proc := Function.update k.proc p (g (k.proc p)) })

/-- `p->ofile[fd] = f` -/
def setOfile (p : Fin NPROC) (fd : Fin NOFILE) (f : Option (Fin NFILE)) : KM σ Unit :=
  setProc p fun x => { x with ofile := Function.update x.ofile fd f }

/-! ### Files -/

/-- The first free entry of the file table. -/
def freeFile (k : Kernel σ) : Option (Fin NFILE) :=
  (List.finRange NFILE).find? fun f => (k.ftable f).ref = 0

/-- Allocate a file structure. -/
def filealloc : KM σ (Option (Fin NFILE)) := do
  let k ← get
  match freeFile k with
  | none => return none
  | some f => do
    setFile f fun x => { x with ref := 1 }
    return some f

/-- Increment the reference count of a file. -/
def filedup (f : Fin NFILE) : KM σ Unit := do
  let k ← get
  if (k.ftable f).ref < 1 then throw (.panic "filedup")
  else setFile f fun x => { x with ref := x.ref + 1 }

/-- Close one end of a pipe. -/
def pipeclose (pi : Option ℕ) (writable : Bool) : KM σ Unit :=
  match pi with
  | none => throw .fault
  | some i => modify fun k => { k with
      pipes := k.pipes.modify i fun x =>
        if writable then { x with writeopen := false } else { x with readopen := false } }

/-- What `fileclose` does with the copy it has made of the entry. -/
def fileRelease (ff : File) : KM σ Unit :=
  match ff.type with
  | .pipe => pipeclose ff.pipe ff.writable
  | .inode | .device =>
    match ff.ip with
    | some ip => onFs (iput ip)
    | none => throw .fault
  | .none => return ()

/-- Close a file: decrement the reference count, and release the entry when it
reaches 0. -/
def fileclose (f : Fin NFILE) : KM σ Unit := do
  let k ← get
  if (k.ftable f).ref < 1 then throw (.panic "fileclose")
  else if 0 < (k.ftable f).ref - 1 then setFile f fun x => { x with ref := x.ref - 1 }
  else do
    setFile f fun x => { x with ref := 0, type := .none }
    fileRelease (k.ftable f)

/-- The descriptor and the file that an argument stands for in a process. -/
def argFile (x : Proc) (fd : ℤ) : Option (Fin NOFILE × Fin NFILE) :=
  if h : 0 ≤ fd ∧ fd < NOFILE then
    (x.ofile ⟨fd.toNat, by omega⟩).map fun f => (⟨fd.toNat, by omega⟩, f)
  else none

/-- Fetch a system call argument as a file descriptor. -/
def argfd (p : Fin NPROC) (fd : ℤ) : KM σ (Option (Fin NOFILE × Fin NFILE)) := do
  let k ← get
  return argFile (k.proc p) fd

/-- The first free descriptor of a process. -/
def freeFd (x : Proc) : Option (Fin NOFILE) :=
  (List.finRange NOFILE).find? fun fd => x.ofile fd = none

/-- Allocate a file descriptor for the given file. -/
def fdalloc (p : Fin NPROC) (f : Fin NFILE) : KM σ (Option (Fin NOFILE)) := do
  let k ← get
  match freeFd (k.proc p) with
  | none => return none
  | some fd => do
    setOfile p fd (some f)
    return some fd

/-! ### Pipes -/

/-- `if(f) fileclose(f);` -/
def filecloseIf (f : Option (Fin NFILE)) : KM σ Unit :=
  match f with
  | some f => fileclose f
  | none => return ()

/-- The end of `pipealloc` when it fails. -/
def pipeBad (f₀ f₁ : Option (Fin NFILE)) : KM σ (Option (Fin NFILE × Fin NFILE)) := do
  filecloseIf f₀
  filecloseIf f₁
  return none

/-- The fields that `pipealloc` assigns in the file of one end. -/
def pipeEnd (pi : ℕ) (writable : Bool) (x : File) : File :=
  { x with type := .pipe, readable := !writable, writable := writable, pipe := some pi }

/-- Make a pipe, and make the two files its ends. -/
def pipeEnds (f₀ f₁ : Fin NFILE) : KM σ Unit := do
  let k ← get
  modify fun k => { k with pipes := k.pipes ++ [⟨true, true⟩] }
  setFile f₀ (pipeEnd k.pipes.length false)
  setFile f₁ (pipeEnd k.pipes.length true)

/-- Allocate a pipe and the files of its two ends; `page` says whether there is memory
for it. -/
def pipealloc (page : Bool) : KM σ (Option (Fin NFILE × Fin NFILE)) := do
  match ← filealloc with
  | none => pipeBad none none
  | some f₀ => do
    match ← filealloc with
    | none => pipeBad (some f₀) none
    | some f₁ =>
      if page = false then pipeBad (some f₀) (some f₁)
      else do
        pipeEnds f₀ f₁
        return some (f₀, f₁)

/-! ### System calls on descriptors -/

/-- `sys_dup` -/
def sysDup (p : Fin NPROC) (fd : ℤ) : KM σ ℤ := do
  match ← argfd p fd with
  | none => return -1
  | some (_, f) => do
    match ← fdalloc p f with
    | none => return -1
    | some fd => do
      filedup f
      return fd.val

/-- The major number of the console. -/
abbrev CONSOLE : Int16 := 1

/-- `sys_close` -/
def sysClose (p : Fin NPROC) (fd : ℤ) : KM σ ℤ := do
  match ← argfd p fd with
  | none => return -1
  | some (fd, f) => do
    setOfile p fd none
    let k ← get
    if (k.ftable f).major ≠ CONSOLE then do
      fileclose f
      return 0
    else return 0

/-- The test of `sys_open` for the console: `strncmp(path, "console", 10) == 0`. -/
def isConsole (path : List UInt8) : Bool :=
  strncmp (cstr path) (cstr [99, 111, 110, 115, 111, 108, 101]) 10 0 == 0

/-- The value that a call returns for a descriptor. -/
def fdValue : Option (Fin NOFILE) → ℤ
  | some fd => fd.val
  | none => -1

/-- The fields that `sys_open` assigns in the file of the console. -/
def consoleFile (x : File) : File :=
  { x with type := .device, major := CONSOLE, readable := true, writable := true }

/-- `sys_open` of the console. -/
def openConsole (p : Fin NPROC) : KM σ ℤ := do
  let k ← get
  match k.consoleF with
  | some f => do
    let fd ← fdalloc p f
    return fdValue fd
  | none => do
    match ← filealloc with
    -- `console_f` stays null, and its fields are assigned
    | none => throw .fault
    | some f => do
      modify fun k => { k with consoleF := some f }
      setFile f consoleFile
      let fd ← fdalloc p f
      return fdValue fd

/-- The fields that `sys_open` assigns in a new file. -/
def openedFile (i : Inode) (ip : Fin NINODE) (omode : UInt32) (x : File) : File :=
  let x := if i.type = .device then { x with type := .device, major := i.major }
    else { x with type := .inode, off := 0 }
  { x with
    ip := some ip, readable := !hasFlag omode O_WRONLY,
    writable := hasFlag omode O_WRONLY || hasFlag omode O_RDWR }

/-- `if((omode & O_TRUNC) && ip->type == T_FILE) itrunc(ip);` -/
def openTrunc (i : Inode) (ip : Fin NINODE) (omode : UInt32) : FsM σ Unit :=
  if hasFlag omode O_TRUNC = true ∧ i.type = .file then itrunc ip else return ()

/-- `sys_open` from where it has an inode, locked. -/
def openFile (p : Fin NPROC) (ip : Fin NINODE) (omode : UInt32) : KM σ ℤ := do
  match ← filealloc with
  | none => do
    onFs (iunlockput ip)
    return -1
  | some f => do
    match ← fdalloc p f with
    | none => do
      fileclose f
      onFs (iunlockput ip)
      return -1
    | some fd => do
      let i ← onFs (getInode ip)
      setFile f (openedFile i ip omode)
      onFs (openTrunc i ip omode)
      onFs (iunlock ip)
      return fd.val

/-- `sys_open` -/
def sysOpen (fuel : ℕ) (p : Fin NPROC) (path : List UInt8) (omode : UInt32) : KM σ ℤ :=
  if isConsole path then openConsole p
  else do
    let k ← get
    match ← onFs (openInode fuel (k.proc p).cwd path omode) with
    | none => return -1
    | some ip => openFile p ip omode

/-- The end of `sys_pipe` when it fails. -/
def pipeFail (rf wf : Fin NFILE) : KM σ ℤ := do
  fileclose rf
  fileclose wf
  return -1

/-- `sys_pipe`; `copy` says whether the two descriptors can be copied out. -/
def sysPipe (p : Fin NPROC) (page copy : Bool) : KM σ ℤ := do
  match ← pipealloc page with
  | none => return -1
  | some (rf, wf) => do
    match ← fdalloc p rf with
    | none => pipeFail rf wf
    | some fd₀ => do
      match ← fdalloc p wf with
      | none => do
        setOfile p fd₀ none
        pipeFail rf wf
      | some fd₁ =>
        if copy = false then do
          setOfile p fd₀ none
          setOfile p fd₁ none
          pipeFail rf wf
        else return 0

/-- `sys_chdir` -/
def sysChdir (fuel : ℕ) (p : Fin NPROC) (path : List UInt8) : KM σ ℤ := do
  let k ← get
  match ← onFs (chdirInode fuel (k.proc p).cwd path) with
  | none => return -1
  | some ip =>
    match (k.proc p).cwd with
    | none => throw .fault
    | some cwd => do
      onFs (iput cwd)
      setProc p fun x => { x with cwd := some ip }
      return 0

/-! ### Processes -/

/-- The first unused entry of the process table. -/
def unusedProc (k : Kernel σ) : Option (Fin NPROC) :=
  (List.finRange NPROC).find? fun p => (k.proc p).state = .unused

/-- `allocproc` up to its memory allocations. -/
def allocproc : KM σ (Option (Fin NPROC)) := do
  let k ← get
  match unusedProc k with
  | none => return none
  | some p => do
    modify fun k => { k with nextpid := k.nextpid + 1 }
    setProc p fun x => { x with state := .used, pid := k.nextpid }
    return some p

/-- Free a process structure. -/
def freeproc (p : Fin NPROC) : KM σ Unit :=
  setProc p fun x => { x with state := .unused, pid := 0, parent := none, xstate := 0 }

/-- Set up the first user process. -/
def userinit (fuel : ℕ) : KM σ Unit := do
  match ← allocproc with
  | none => throw .fault
  | some p => do
    modify fun k => { k with initproc := some p }
    let ip ← onFs (namei fuel none [47])
    setProc p fun x => { x with cwd := ip }
    setProc p fun x => { x with state := .runnable }

/-- Copy one open file to the child. -/
def forkFile (p np : Fin NPROC) (fd : Fin NOFILE) : KM σ Unit := do
  let k ← get
  match (k.proc p).ofile fd with
  | none => return ()
  | some f => do
    filedup f
    setOfile np fd (some f)

/-- Create a new process, copying the parent; `mem` says whether there is memory for the
copy. -/
def fork (p : Fin NPROC) (mem : Bool) : KM σ ℤ := do
  match ← allocproc with
  | none => return -1
  | some np =>
    if mem = false then do
      freeproc np
      return -1
    else do
      forM (List.finRange NOFILE) (forkFile p np)
      let k ← get
      match (k.proc p).cwd with
      | none => throw .fault
      | some ip => do
        let ip ← onFs (idup ip)
        setProc np fun x => { x with cwd := some ip }
        setProc np fun x => { x with parent := some p }
        setProc np fun x => { x with state := .runnable }
        return (k.proc np).pid

/-- Close one open file of a process that exits. -/
def exitFile (p : Fin NPROC) (fd : Fin NOFILE) : KM σ Unit := do
  let k ← get
  match (k.proc p).ofile fd with
  | none => return ()
  | some f => do
    fileclose f
    setOfile p fd none

/-- Pass abandoned children to init. -/
def reparent (p : Fin NPROC) : KM σ Unit :=
  modify fun k => { k with proc := fun pp =>
    if (k.proc pp).parent = some p then { k.proc pp with parent := k.initproc } else k.proc pp }

/-- Exit the current process. -/
def exit (p : Fin NPROC) (status : ℤ) : KM σ Unit := do
  let k ← get
  if k.initproc = some p then throw (.panic "init exiting")
  else do
    forM (List.finRange NOFILE) (exitFile p)
    let k ← get
    match (k.proc p).cwd with
    | none => throw .fault
    | some ip => do
      onFs (iput ip)
      setProc p fun x => { x with cwd := none }
      reparent p
      setProc p fun x => { x with xstate := status, state := .zombie }

/-- Wait for a child process to exit; `copy` says whether its status can be copied out
and `killed` whether the process has been killed.  The result is `none` where the
process goes to sleep. -/
def wait (p : Fin NPROC) (copy killed : Bool) : KM σ (Option ℤ) := do
  let k ← get
  match (List.finRange NPROC).find? fun pp =>
      (k.proc pp).parent = some p ∧ (k.proc pp).state = .zombie with
  | some pp =>
    if copy = false then return some (-1)
    else do
      freeproc pp
      return some (k.proc pp).pid
  | none =>
    if (∀ pp, (k.proc pp).parent ≠ some p) ∨ killed = true then return some (-1)
    else return none

/-- `sys_printinfo`, with `exit(0)` after each of the listing functions. -/
def sysPrintinfo (fuel : ℕ) (p : Fin NPROC) (code : ℤ) (name : Option (ℕ → UInt8)) :
    KM σ (Option ℤ) := do
  let k ← get
  if code = 0 then do
    let _ ← onFs (printRootFiles fuel)
    exit p 0
    return none
  else if code = 1 then do
    let _ ← onFs (printCwdFiles fuel (k.proc p).cwd)
    exit p 0
    return none
  else if code = 2 then do
    let _ ← onFs (printCatFile fuel (k.proc p).cwd name)
    exit p 0
    return none
  else return some 0

/-! ### Runs -/

/-- System calls.  A path is `none` where `argstr` fails. -/
inductive Call
  | openPath (path : Option (List UInt8)) (omode : UInt32)
  | dup (fd : ℤ)
  | close (fd : ℤ)
  | pipe (page copy : Bool)
  | chdir (path : Option (List UInt8))
  | link (old new : Option (List UInt8))
  | unlink (path : Option (List UInt8))
  | mkdir (path : Option (List UInt8))
  | exec (path : Option (List UInt8)) (mem : ExecMem)
  | printinfo (code : ℤ) (name : Option (ℕ → UInt8))
  | fork (mem : Bool)
  | exit (status : ℤ)
  | wait (copy killed : Bool)

/-- A call of the file system that takes a path, from the current directory. -/
def onPath (p : Fin NPROC) (path : Option (List UInt8))
    (m : Option (Fin NINODE) → List UInt8 → FsM σ ℤ) : KM σ (Option ℤ) := do
  match path with
  | none => return some (-1)
  | some path => do
    let k ← get
    let r ← onFs (m (k.proc p).cwd path)
    return some r

/-- `exec`: a program that could be loaded replaces the memory of the process. -/
def execCall (fuel : ℕ) (mem : ExecMem) (cwd : Option (Fin NINODE)) (path : List UInt8) :
    FsM σ ℤ := do
  let loaded ← execImage fuel cwd path mem
  return if loaded then mem.args else -1

/-- A system call by process `p`: the value it returns, or `none` where it does not
return to the process. -/
def Call.run (fuel : ℕ) (p : Fin NPROC) : Call → KM σ (Option ℤ)
  | openPath none _ => return some (-1)
  | openPath (some path) omode => some <$> sysOpen fuel p path omode
  | dup fd => some <$> sysDup p fd
  | close fd => some <$> sysClose p fd
  | pipe page copy => some <$> sysPipe p page copy
  | chdir none => return some (-1)
  | chdir (some path) => some <$> sysChdir fuel p path
  | link none _ => return some (-1)
  | link (some old) new => onPath p new fun cwd new => sysLink fuel cwd old new
  | unlink path => onPath p path (sysUnlink fuel)
  | mkdir path => onPath p path (sysMkdir fuel)
  | exec path mem => onPath p path (execCall fuel mem)
  | printinfo code name => sysPrintinfo fuel p code name
  | fork mem => some <$> Xv6Ext2.fork p mem
  | exit status => do
    Xv6Ext2.exit p status
    return none
  | wait copy killed => Xv6Ext2.wait p copy killed

/-- The states between system calls in runs from a file system `fs` at boot, where
`Allowed` holds of every call in the state it is made in. -/
inductive Runs (fs : Fs σ) (Allowed : Kernel σ → Fin NPROC → Call → Prop) : Kernel σ → Prop
  | boot {fuel : ℕ} {k : Kernel σ} (h : userinit fuel (Kernel.boot fs) = .ok ((), k)) :
      Runs fs Allowed k
  | call {fuel : ℕ} {k k' : Kernel σ} {p : Fin NPROC} {c : Call} {r : Option ℤ}
      (hk : Runs fs Allowed k) (hp : (k.proc p).state = .runnable) (hc : Allowed k p c)
      (h : c.run fuel p k = .ok (r, k')) : Runs fs Allowed k'

/-- Make the calls of a list one after the other: were they all allowed, and by processes
that are alive? -/
def runCalls (Allowed : Kernel σ → Fin NPROC → Call → Prop) [∀ k p c, Decidable (Allowed k p c)]
    (fuel : ℕ) : List (Fin NPROC × Call) → KM σ Bool
  | [] => return true
  | (p, c) :: l => do
    let k ← get
    if (k.proc p).state = .runnable ∧ Allowed k p c then do
      let _ ← c.run fuel p
      runCalls Allowed fuel l
    else return false

theorem Runs.runCalls {fs : Fs σ} {Allowed : Kernel σ → Fin NPROC → Call → Prop}
    [∀ k p c, Decidable (Allowed k p c)] {fuel : ℕ} : ∀ (l : List (Fin NPROC × Call))
    {k k' : Kernel σ}, Runs fs Allowed k → runCalls Allowed fuel l k = .ok (true, k') →
      Runs fs Allowed k' := by
  intro l
  induction l with
  | nil =>
    intro k k' hk hrun
    cases hrun
    exact hk
  | cons x l ih =>
    intro k k' hk hrun
    obtain ⟨_, _, ⟨⟩, hrun⟩ := Prog.bind_eq_ok.mp hrun
    split at hrun
    · next hc =>
      obtain ⟨r, k₁, hcall, hrun⟩ := Prog.bind_eq_ok.mp hrun
      exact ih (hk.call hc.1 hc.2 hcall) hrun
    · cases hrun

/-- A list of calls that has been evaluated: they are allowed, and `Q` holds of the state at
the end. -/
structure Script (fs : Fs σ) (Allowed : Kernel σ → Fin NPROC → Call → Prop)
    [∀ k p c, Decidable (Allowed k p c)] (Q : Kernel σ → Prop) [DecidablePred Q] where
  fuel : ℕ
  calls : List (Fin NPROC × Call)
  evaluates : ((do
    userinit fuel
    let done ← runCalls Allowed fuel calls
    let k ← get
    return done && decide (Q k) : KM σ Bool) (Kernel.boot fs)).map Prod.fst = .ok true

/-- The run of a script. -/
theorem Script.runs {fs : Fs σ} {Allowed : Kernel σ → Fin NPROC → Call → Prop}
    [∀ k p c, Decidable (Allowed k p c)] {Q : Kernel σ → Prop} [DecidablePred Q]
    (c : Script fs Allowed Q) : ∃ k, Runs fs Allowed k ∧ Q k := by
  obtain ⟨k, hrun⟩ := Prog.exists_of_map_fst c.evaluates
  obtain ⟨_, k₁, hinit, hrun⟩ := Prog.bind_eq_ok.mp hrun
  obtain ⟨done, k₂, hcalls, hrun⟩ := Prog.bind_eq_ok.mp hrun
  obtain ⟨_, _, ⟨⟩, hrun⟩ := Prog.bind_eq_ok.mp hrun
  injection hrun with hrun
  obtain ⟨hdone, hQ⟩ := Bool.and_eq_true_iff.mp (congrArg Prod.fst hrun)
  subst hdone
  exact ⟨k₂, Runs.runCalls c.calls (.boot hinit) hcalls, of_decide_eq_true hQ⟩

end Xv6Ext2
