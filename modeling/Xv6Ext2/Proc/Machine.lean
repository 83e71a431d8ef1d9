import Mathlib.Data.List.FinRange

/-!
# Processes on several CPUs

The part of `kernel/proc.c` that creates, switches, stops and wakes processes, on any number
of CPUs and for a process table of any size.  Kernel code is a tree of atomic steps: the
acquisition or release of a spin lock, a look at shared data, an assignment, a context
switch.  A CPU executes the code of the context it has loaded; `swtch` saves it and loads
another one.  Between two steps of a CPU any other CPU may take steps, and a CPU that holds
no lock may be interrupted.

The rest of the kernel is a sequence of `Call`s that a process makes in any order: it takes
and releases locks, sleeps and wakes sleepers under the lock of their channel, and makes the
system calls of `proc.c`.

## Main definitions

* `Code` — kernel code; `Context` — a saved context.
* `sched`, `yield`, `sleep`, `wakeup`, `kill`, `fork`, `exit`, `wait`, `scheduler` — the
  functions of the source as code.
* `Machine` — the state, with a record of the calls of `wakeup` and of the times at which
  locks were held.
* `Machine.step`, `Runs` — the steps, and the states that they lead to.
-/

namespace Xv6Ext2.Smp

open Function

variable {m n : ℕ}

/-! ### Data -/

/-- `enum procstate` -/
inductive State
  | unused | used | sleeping | runnable | running | zombie
deriving DecidableEq, Repr

/-- The spin locks other than `p->lock`: `wait_lock`, `pid_lock`, and the locks of the rest
of the kernel. -/
inductive Spin
  | wait | pid | other (k : ℕ)
deriving DecidableEq, Repr

/-- Spin locks. -/
inductive Lock (n : ℕ)
  | proc (p : Fin n) | spin (g : Spin)
deriving DecidableEq, Repr

/-- Sleep channels: 0, the address of a process, and addresses of what the lock `k` of the
rest of the kernel protects. -/
inductive Chan (n : ℕ)
  | null | proc (p : Fin n) | other (k i : ℕ)
deriving DecidableEq, Repr

/-- The condition lock of a channel, which sleepers pass to `sleep`. -/
def Chan.lock : Chan n → Spin
  | .other k _ => .other k
  | _ => .wait

/-- `struct proc`, as far as processes look at each other. -/
structure Proc (n : ℕ) where
  state : State
  chan : Chan n
  killed : Bool
  xstate : ℤ
  pid : ℕ
  parent : Option (Fin n)
deriving DecidableEq, Repr

/-- What the functions that create, end and kill processes have done, noted at the moment
that decides what they return. -/
inductive Note (n : ℕ)
  /-- `allocproc` takes the slot `q` and gives it `pid`. -/
  | allocated (q : Fin n) (pid : ℕ)
  /-- `exit` makes `p` a ZOMBIE. -/
  | exited (p : Fin n) (pid : ℕ) (xstate : ℤ)
  /-- `wait`, called by `p`, frees `q` and returns `pid`; `xstate` is what it copies out. -/
  | reaped (p q : Fin n) (pid : ℕ) (xstate : ℤ)
  /-- `kill(pid)` finds `q`, which is `r`, and returns 0. -/
  | killed (pid : ℤ) (q : Fin n) (r : Proc n)
deriving DecidableEq, Repr

/-- Shared data.  `lock` is `lk->locked` with `lk->cpu`, `noff` and `cproc` are fields of
`struct cpu`.  `log` is not in the source; it has the notes, with the last one first. -/
structure Data (m n : ℕ) where
  lock : Lock n → Option (Fin m)
  noff : Fin m → ℕ
  cproc : Fin m → Option (Fin n)
  proc : Fin n → Proc n
  nextpid : ℕ
  log : List (Note n)

namespace Data

/-- Replace `proc[q]`. -/
def set (d : Data m n) (q : Fin n) (r : Proc n) : Data m n :=
  { d with proc := update d.proc q r }

/-- Note what has happened. -/
def note (d : Data m n) (x : Note n) : Data m n := { d with log := x :: d.log }

/-- Lock `l` is taken by CPU `c`. -/
def acquire (d : Data m n) (c : Fin m) (l : Lock n) : Data m n :=
  { d with
    lock := update d.lock l (some c)
    noff := update d.noff c (d.noff c + 1) }

/-- CPU `c` releases lock `l`. -/
def release (d : Data m n) (c : Fin m) (l : Lock n) : Data m n :=
  { d with
    lock := update d.lock l none
    noff := update d.noff c (d.noff c - 1) }

/-- `c->proc = x` -/
def setCproc (d : Data m n) (c : Fin m) (x : Option (Fin n)) : Data m n :=
  { d with cproc := update d.cproc c x }

end Data

/-- What has a kernel stack and a context: the scheduler of a CPU, and a process. -/
inductive Slot (m n : ℕ)
  | cpu (c : Fin m) | proc (p : Fin n)
deriving DecidableEq, Repr

/-! ### Code -/

/-- Kernel code.  `done` is a return to the caller, which is not modelled; `look` reads, with
the CPU that executes it; `swtch old new` is `swtch(&old->context, &new->context)`, where
`new` may be the context of this CPU.  `wakeupBegin` and `wakeupEnd` do nothing but note the
time of a call of `wakeup`. -/
inductive Code (m n : ℕ)
  | done
  | panic (msg : String)
  | acquire (l : Lock n) (k : Code m n)
  | release (l : Lock n) (k : Code m n)
  | look (f : Fin m → Data m n → Code m n)
  | assign (g : Fin m → Data m n → Data m n) (k : Code m n)
  | setContext (q : Fin n) (start k : Code m n)
  | swtch (old : Slot m n) (new : Fin m → Slot m n) (k : Code m n)
  | wakeupBegin (ch : Chan n) (k : Code m n)
  | wakeupEnd (ch : Chan n) (k : Code m n)

/-- `struct context`: a stack, and what is executed on it. -/
structure Context (m n : ℕ) where
  stack : Slot m n
  code : Code m n

/-- Read `proc[q]`. -/
def read (q : Fin n) (f : Proc n → Code m n) : Code m n := .look fun _ d => f (d.proc q)

/-- Write `proc[q]`. -/
def write (q : Fin n) (g : Proc n → Proc n) (k : Code m n) : Code m n :=
  .assign (fun _ d => d.set q (g (d.proc q))) k

/-- Write `proc[q]`, and note it. -/
def writeNote (q : Fin n) (g : Proc n → Proc n) (x : Proc n → Note n) (k : Code m n) : Code m n :=
  .assign (fun _ d => (d.set q (g (d.proc q))).note (x (d.proc q))) k

/-- `struct proc *p = myproc();`, where `p` is used. -/
def withProc (f : Fin n → Code m n) : Code m n :=
  .look fun c d => match d.cproc c with
    | some p => f p
    | none => .panic "kerneltrap"

/-! ### Switching -/

/-- Switch to scheduler. -/
def sched (k : Code m n) : Code m n :=
  .look fun c d => match d.cproc c with
    | none => .panic "kerneltrap"
    | some p =>
      if d.lock (.proc p) ≠ some c then .panic "sched p->lock"
      else if d.noff c ≠ 1 then .panic "sched locks"
      else if (d.proc p).state = .running then .panic "sched running"
      else .swtch (.proc p) .cpu k

/-- Give up the CPU for one scheduling round. -/
def yield (k : Code m n) : Code m n :=
  withProc fun p =>
    .acquire (.proc p) <|
    write p (fun r => { r with state := .runnable }) <|
    sched <|
    .release (.proc p) k

/-- A fork child's very first scheduling by scheduler() will swtch to forkret. -/
def forkret : Code m n := withProc fun p => .release (.proc p) .done

/-- The loop of `scheduler` over the process table. -/
def schedulerLoop (c : Fin m) : List (Fin n) → Code m n
  | [] => .done
  | q :: qs =>
    .acquire (.proc q) <|
    read q fun r =>
      if r.state = .runnable then
        write q (fun r => { r with state := .running }) <|
        .assign (fun _ d => d.setCproc c (some q)) <|
        .swtch (.cpu c) (fun _ => .proc q) <|
        .assign (fun _ d => d.setCproc c none) <|
        .release (.proc q) <|
        schedulerLoop c qs
      else .release (.proc q) <| schedulerLoop c qs

/-- A round of `for(;;)` in `scheduler`. -/
def scheduler (c : Fin m) : Code m n := schedulerLoop c (List.finRange n)

/-! ### Sleeping and waking -/

/-- Atomically release lock and sleep on chan. -/
def sleep (chan : Chan n) (lk : Spin) (k : Code m n) : Code m n :=
  withProc fun p =>
    .acquire (.proc p) <|
    .release (.spin lk) <|
    write p (fun r => { r with chan := chan }) <|
    write p (fun r => { r with state := .sleeping }) <|
    sched <|
    write p (fun r => { r with chan := .null }) <|
    .release (.proc p) <|
    .acquire (.spin lk) k

/-- `if(p->state == SLEEPING && p->chan == chan) p->state = RUNNABLE;` -/
def Proc.wake (chan : Chan n) (r : Proc n) : Proc n :=
  if r.state = .sleeping ∧ r.chan = chan then { r with state := .runnable } else r

/-- The loop of `wakeup` over the process table. -/
def wakeupLoop (chan : Chan n) (k : Code m n) : List (Fin n) → Code m n
  | [] => k
  | q :: qs =>
    .look fun c d =>
      if d.cproc c = some q then wakeupLoop chan k qs
      else
        .acquire (.proc q) <|
        write q (Proc.wake chan) <|
        .release (.proc q) <|
        wakeupLoop chan k qs

/-- Wake up all processes sleeping on chan. -/
def wakeup (chan : Chan n) (k : Code m n) : Code m n :=
  .wakeupBegin chan <| wakeupLoop chan (.wakeupEnd chan k) (List.finRange n)

/-- `p->killed = 1; if(p->state == SLEEPING) p->state = RUNNABLE;` -/
def Proc.kill (r : Proc n) : Proc n :=
  { r with killed := true, state := if r.state = .sleeping then .runnable else r.state }

/-- The loop of `kill` over the process table. -/
def killLoop (pid : ℤ) : List (Fin n) → Code m n
  | [] => .done
  | q :: qs =>
    .acquire (.proc q) <|
    read q fun r =>
      if r.pid = pid then writeNote q Proc.kill (.killed pid q) <| .release (.proc q) .done
      else .release (.proc q) <| killLoop pid qs

/-- Kill the process with the given pid. -/
def kill (pid : ℤ) : Code m n := killLoop pid (List.finRange n)

/-- `setkilled(p)` -/
def setkilled (p : Fin n) : Code m n :=
  .acquire (.proc p) <| write p (fun r => { r with killed := true }) <| .release (.proc p) .done

/-- `killed(p)` -/
def killed (p : Fin n) (f : Bool → Code m n) : Code m n :=
  .acquire (.proc p) <| read p fun r => .release (.proc p) (f r.killed)

/-! ### Creating and ending processes -/

/-- `allocpid()` -/
def allocpid (f : ℕ → Code m n) : Code m n :=
  .acquire (.spin .pid) <|
  .look fun _ d =>
    .assign (fun _ d => { d with nextpid := d.nextpid + 1 }) <|
    .release (.spin .pid) <|
    f d.nextpid

/-- Free a proc structure. -/
def Proc.free (r : Proc n) : Proc n :=
  { r with pid := 0, parent := none, chan := .null, killed := false, xstate := 0, state := .unused }

/-- `freeproc(q)` -/
def freeproc (q : Fin n) (k : Code m n) : Code m n := write q Proc.free k

/-- What the memory allocator lets a `fork` do, and the locks that `filedup` and `idup` take. -/
structure ForkEnv where
  trapframe : Bool
  pagetable : Bool
  uvmcopy : Bool
  dups : List ℕ

/-- `allocproc` after the label `found`. -/
def allocFound (e : ForkEnv) (q : Fin n) (fail k : Code m n) : Code m n :=
  allocpid fun pid =>
    writeNote q (fun r => { r with pid := pid, state := .used }) (fun _ => .allocated q pid) <|
    if e.trapframe = false then freeproc q <| .release (.proc q) fail
    else if e.pagetable = false then freeproc q <| .release (.proc q) fail
    else .setContext q forkret k

/-- Look in the process table for an UNUSED proc. -/
def allocproc (e : ForkEnv) (fail : Code m n) (k : Fin n → Code m n) : List (Fin n) → Code m n
  | [] => fail
  | q :: qs =>
    .acquire (.proc q) <|
    read q fun r =>
      if r.state = .unused then allocFound e q fail (k q)
      else .release (.proc q) <| allocproc e fail k qs

/-- `filedup` and `idup`: each takes a lock and releases it. -/
def dups (k : Code m n) : List ℕ → Code m n
  | [] => k
  | l :: ls => .acquire (.spin (.other l)) <| .release (.spin (.other l)) <| dups k ls

/-- Create a new process, copying the parent. -/
def fork (e : ForkEnv) : Code m n :=
  withProc fun p =>
    allocproc e .done (fun np =>
      if e.uvmcopy = false then freeproc np <| .release (.proc np) .done
      else
        dups (
          .release (.proc np) <|
          .acquire (.spin .wait) <|
          write np (fun r => { r with parent := some p }) <|
          .release (.spin .wait) <|
          .acquire (.proc np) <|
          write np (fun r => { r with state := .runnable }) <|
          .release (.proc np) .done) e.dups)
      (List.finRange n)

/-- Pass p's abandoned children to init. -/
def reparent (init p : Fin n) (k : Code m n) : List (Fin n) → Code m n
  | [] => k
  | pp :: qs =>
    read pp fun r =>
      if r.parent = some p then
        write pp (fun r => { r with parent := some init }) <|
        wakeup (.proc init) <|
        reparent init p k qs
      else reparent init p k qs

/-- A pointer to a process as a sleep channel. -/
def Chan.ofProc : Option (Fin n) → Chan n
  | some p => .proc p
  | none => .null

/-- Exit the current process.  The files are closed before, by other calls. -/
def exit (init : Fin n) (status : ℤ) : Code m n :=
  withProc fun p =>
    if p = init then .panic "init exiting"
    else
      .acquire (.spin .wait) <|
      reparent init p (
        read p fun r =>
          wakeup (.ofProc r.parent) <|
          .acquire (.proc p) <|
          writeNote p (fun r => { r with xstate := status, state := .zombie })
            (fun r => .exited p r.pid status) <|
          .release (.spin .wait) <|
          sched <|
          .panic "zombie exit") (List.finRange n)

/-- The scan of `wait` through the table, looking for exited children; `next` is told whether
there are any children. -/
def waitScan (p : Fin n) (copyout : Bool) (next : Bool → Code m n) : List (Fin n) → Bool → Code m n
  | [], havekids => next havekids
  | pp :: qs, havekids =>
    read pp fun r =>
      if r.parent = some p then
        .acquire (.proc pp) <|
        read pp fun r =>
          if r.state = .zombie then
            if copyout = false then .release (.proc pp) <| .release (.spin .wait) .done
            else
              -- `freeproc(pp)`, after `pid = pp->pid` and the `copyout` of `pp->xstate`
              writeNote pp Proc.free (fun r => .reaped p pp r.pid r.xstate) <|
              .release (.proc pp) <|
              .release (.spin .wait) .done
          else .release (.proc pp) <| waitScan p copyout next qs true
      else waitScan p copyout next qs havekids

/-- The first `rounds` rounds of `for(;;)` in `wait`. -/
def waitRounds (p : Fin n) (copyout : Bool) : ℕ → Code m n
  | 0 => .panic "out of rounds"
  | rounds + 1 =>
    waitScan p copyout (fun havekids =>
      if havekids = false then .release (.spin .wait) .done
      else killed p fun dead =>
        if dead then .release (.spin .wait) .done
        else sleep (.proc p) .wait (waitRounds p copyout rounds)) (List.finRange n) false

/-- Wait for a child process to exit. -/
def wait (rounds : ℕ) (copyout : Bool) : Code m n :=
  withProc fun p => .acquire (.spin .wait) <| waitRounds p copyout rounds

/-! ### The rest of the kernel -/

/-- What a process does next. -/
inductive Call (n : ℕ)
  | acquire (k : ℕ)
  | release (k : ℕ)
  | sleep (k i : ℕ)
  | wakeup (k i : ℕ)
  | yield
  | kill (pid : ℤ)
  | setkilled (q : Fin n)
  | fork (e : ForkEnv)
  | exit (status : ℤ)
  | wait (rounds : ℕ) (copyout : Bool)

/-- The code of a call. -/
def Call.code (init : Fin n) : Call n → Code m n
  | .acquire k => .acquire (.spin (.other k)) .done
  | .release k => .release (.spin (.other k)) .done
  | .sleep k i => Smp.sleep (.other k i) (.other k) .done
  | .wakeup k i => Smp.wakeup (.other k i) .done
  | .yield => Smp.yield .done
  | .kill pid => Smp.kill pid
  | .setkilled q => Smp.setkilled q
  | .fork e => Smp.fork e
  | .exit status => Smp.exit init status
  | .wait rounds copyout => Smp.wait rounds copyout

/-- What callers keep to: they hold the condition lock around `sleep` and `wakeup`, and no
lock around system calls. -/
def Call.Allowed (d : Data m n) (c : Fin m) : Call n → Prop
  | .sleep k _ => d.lock (.spin (.other k)) = some c
  | .wakeup k _ => d.lock (.spin (.other k)) = some c
  | .kill _ | .fork _ | .exit _ | .wait _ _ => d.noff c = 0
  | _ => True

instance (d : Data m n) (c : Fin m) (x : Call n) : Decidable (x.Allowed d c) :=
  match x with
  | .sleep k _ | .wakeup k _ => decEq (d.lock (.spin (.other k))) (some c)
  | .kill _ | .fork _ | .exit _ | .wait _ _ => decEq (d.noff c) 0
  | .acquire _ | .release _ | .yield | .setkilled _ => isTrue trivial

/-- Interrupts: the timer, and a device that wakes sleepers. -/
inductive Intr
  | timer
  | device (k i : ℕ)
deriving DecidableEq, Repr

/-- `kerneltrap`, in front of the code that is interrupted. -/
def Intr.code : Intr → Code m n → Code m n
  | .timer, k => .look fun c d => match d.cproc c with
    | none => k
    | some _ => Smp.yield k
  | .device l i, k =>
    .acquire (.spin (.other l)) <| Smp.wakeup (.other l i) <| .release (.spin (.other l)) k

/-! ### The machine -/

/-- A call of `wakeup` that has returned. -/
structure WakeupCall (n : ℕ) where
  chan : Chan n
  start : ℕ
  finish : ℕ
deriving DecidableEq, Repr

/-- CPUs, saved contexts and data, and what has happened: the time, when each process last
held each lock (as far as it has released it), when each CPU last began a call of `wakeup`,
and the calls that have returned. -/
structure Machine (m n : ℕ) where
  data : Data m n
  cur : Fin m → Context m n
  context : Slot m n → Context m n
  clock : ℕ
  heldAt : Fin n → Spin → ℕ
  begun : Fin m → ℕ
  calls : List (WakeupCall n)

namespace Machine

/-- The stack that a CPU uses. -/
def stack (s : Machine m n) (c : Fin m) : Slot m n := (s.cur c).stack

/-- CPU `c` goes on with `k`. -/
def goto (s : Machine m n) (c : Fin m) (k : Code m n) : Machine m n :=
  { s with cur := update s.cur c ⟨s.stack c, k⟩, clock := s.clock + 1 }

/-- `heldAt` after a release. -/
def noteRelease (s : Machine m n) (c : Fin m) : Lock n → Fin n → Spin → ℕ
  | .spin g => match s.stack c with
    | .proc p => update s.heldAt p (update (s.heldAt p) g s.clock)
    | .cpu _ => s.heldAt
  | .proc _ => s.heldAt

/-- A step of CPU `c`; none if it spins, has panicked or waits for a call. -/
def exec (s : Machine m n) (c : Fin m) : Option (Machine m n) :=
  match (s.cur c).code with
  | .done => match s.stack c with
    | .cpu _ => some (s.goto c (scheduler c))
    | .proc _ => none
  | .panic _ => none
  | .acquire l k =>
    -- a CPU that holds the lock already panics, and does not go on either
    if s.data.lock l = none then some { s.goto c k with data := s.data.acquire c l } else none
  | .release l k =>
    if s.data.lock l = some c then
      some { s.goto c k with data := s.data.release c l, heldAt := s.noteRelease c l }
    else none
  | .look f => some (s.goto c (f c s.data))
  | .assign g k => some { s.goto c k with data := g c s.data }
  | .setContext q start k =>
    some { s.goto c k with context := update s.context (.proc q) ⟨.proc q, start⟩ }
  | .swtch old new k =>
    let saved := update s.context old ⟨s.stack c, k⟩
    some { s with
      context := saved
      cur := update s.cur c (saved (new c))
      clock := s.clock + 1 }
  | .wakeupBegin _ k => some { s.goto c k with begun := update s.begun c s.clock }
  | .wakeupEnd ch k => some { s.goto c k with calls := ⟨ch, s.begun c, s.clock⟩ :: s.calls }

end Machine

/-- What happens next: a CPU executes a step, the process on it makes a call, or it is
interrupted. -/
inductive Event (m n : ℕ)
  | exec (c : Fin m)
  | call (c : Fin m) (x : Call n)
  | intr (c : Fin m) (i : Intr)

/-- A step of the machine. -/
def Machine.step (init : Fin n) (s : Machine m n) : Event m n → Option (Machine m n)
  | .exec c => s.exec c
  | .call c x => match s.stack c, (s.cur c).code with
    | .proc _, .done => if x.Allowed s.data c then some (s.goto c (x.code init)) else none
    | _, _ => none
  | .intr c i =>
    if s.data.noff c = 0 then some (s.goto c (i.code (s.cur c).code)) else none

/-- An unused `struct proc`. -/
def Proc.unused : Proc n := ⟨.unused, .null, false, 0, 0, none⟩

/-- The machine after `userinit`, with every CPU in its scheduler. -/
def Machine.boot (init : Fin n) : Machine m n where
  data :=
    { lock := fun _ => none
      noff := fun _ => 0
      cproc := fun _ => none
      proc := update (fun _ => .unused) init { Proc.unused with state := .runnable, pid := 1 }
      nextpid := 2
      log := [] }
  cur c := ⟨.cpu c, .done⟩
  context σ := ⟨σ, forkret⟩
  clock := 1
  heldAt _ _ := 0
  begun _ := 0
  calls := []

/-- The states that are reached from the start. -/
inductive Runs (init : Fin n) : Machine m n → Prop
  | boot : Runs init (.boot init)
  | step {s s' : Machine m n} (e : Event m n) (h : Runs init s) (hstep : s.step init e = some s') :
    Runs init s'

/-- The state after some events, if they can happen. -/
def Machine.after (init : Fin n) (s : Machine m n) : List (Event m n) → Option (Machine m n)
  | [] => some s
  | e :: es => (s.step init e).bind fun s' => s'.after init es

theorem Runs.after {init : Fin n} {s s' : Machine m n} {es : List (Event m n)} (h : Runs init s)
    (hes : s.after init es = some s') : Runs init s' := by
  induction es generalizing s with
  | nil => exact Option.some.inj hes ▸ h
  | cons e es ih =>
    obtain ⟨s₁, hstep, hes⟩ := Option.bind_eq_some_iff.mp hes
    exact ih (h.step e hstep) hes

/-- Find a state with property `P` by executing events. -/
theorem exists_runs_of_after (init : Fin n) (es : List (Event m n)) {P : Machine m n → Prop}
    [DecidablePred P] (h : ((Machine.boot init).after init es).any (fun s => decide (P s)) = true) :
    ∃ s, Runs init s ∧ P s := by
  cases hes : (Machine.boot init).after init es with
  | none => simp [hes] at h
  | some s => exact ⟨s, Runs.boot.after hes, by simpa [hes] using h⟩

end Xv6Ext2.Smp
