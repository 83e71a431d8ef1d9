import Xv6Ext2.Lib.RingBuffer

/-!
# Pipes

`pipewrite`, `piperead` and `pipeclose` of `kernel/pipe.c` by any number of processes, with
`sleep`, `wakeup` and `kill`.  The code that runs under the lock of the pipe is cut into the
rounds of its loops; between two rounds another CPU may kill any process.

## Main definitions

* `PipeState` — `struct pipe`, a ring buffer with free-running 32-bit counters.
* `Task` — where a process is in `pipewrite` or `piperead`.
* `Pipes`, `Event`, `Pipes.step` — the pipe with its processes, and what can happen.
* `PipeRuns` — runs from a new pipe.
* `Pipes.NoneStranded` — a sleeping reader has nothing to read, a sleeping writer no room.

## Main results

* `fifo_of_runs` — **a pipe is a queue**, also after the counters have wrapped around.
* `noneStranded_of_runs` — **no sleeper is stranded** as long as no writer is killed between
  storing a byte and its next round while a reader sleeps.
* `reader_stranded` — what happens otherwise.
-/

namespace Xv6Ext2

open Function RingBuffer

/-! ### The source functions -/

/-- The bytes a pipe holds. -/
abbrev PIPESIZE : ℕ := 512

/-- `struct pipe`, without its lock. -/
structure PipeState where
  data : Fin PIPESIZE → UInt8
  nread : UInt32
  nwrite : UInt32
  readopen : Bool
  writeopen : Bool

namespace PipeState

/-- `pi->nread == pi->nwrite` -/
def Empty (pi : PipeState) : Prop := pi.nread = pi.nwrite

/-- `pi->nwrite == pi->nread + PIPESIZE` -/
def Full (pi : PipeState) : Prop := pi.nwrite = pi.nread + UInt32.ofNat PIPESIZE

instance (pi : PipeState) : Decidable pi.Empty := inferInstanceAs (Decidable (_ = _))

instance (pi : PipeState) : Decidable pi.Full := inferInstanceAs (Decidable (_ = _))

/-- `pi->data[pi->nwrite++ % PIPESIZE] = ch` -/
def store (pi : PipeState) (ch : UInt8) : PipeState :=
  { pi with
    data := update pi.data (Fin.ofNat PIPESIZE pi.nwrite.toNat) ch
    nwrite := pi.nwrite + 1 }

/-- `ch = pi->data[pi->nread++ % PIPESIZE]` -/
def fetch (pi : PipeState) : UInt8 × PipeState :=
  (pi.data (Fin.ofNat PIPESIZE pi.nread.toNat), { pi with nread := pi.nread + 1 })

end PipeState

/-- What a process sleeps on: `&pi->nread` or `&pi->nwrite`. -/
inductive PipeChan
  | nread
  | nwrite
  deriving DecidableEq

/-- Where a process is with respect to the lock: about to take it, holding it, or asleep
until it is woken and takes it again. -/
inductive Place
  | enter
  | body
  | asleep
  deriving DecidableEq

/-- The variables of `pipewrite`: the bytes at `addr`, `n` and `i`.  `stored` counts the
bytes stored since the lock was taken. -/
structure WriteCall where
  src : ℕ → UInt8
  n : ℤ
  i : ℕ
  stored : ℕ

/-- What a process does: something else, `pipewrite`, the first loop of `piperead`, or the
second one, which is only left with the lock released. -/
inductive Task
  | out
  | write (w : WriteCall) (place : Place)
  | read (n : ℤ) (place : Place)
  | copy (n : ℤ) (i : ℕ)

/-- The channel a process sleeps on. -/
def Task.chan : Task → Option PipeChan
  | write _ .asleep => some .nwrite
  | read _ .asleep => some .nread
  | _ => none

/-- Make a sleeping process runnable. -/
def Task.wake : Task → Task
  | write w .asleep => write w .enter
  | read n .asleep => read n .enter
  | t => t

/-- The pipe, the holder of its lock, the processes, and what the writers have put into it
and the readers got out of it so far. -/
structure Pipes (P : Type) where
  pi : PipeState
  lock : Option P
  task : P → Task
  killed : P → Bool
  accepted : List UInt8
  delivered : List UInt8

namespace Pipes

variable {P : Type} [DecidableEq P]

/-- `wakeup(chan)` -/
def wakeup (s : Pipes P) (c : PipeChan) : Pipes P :=
  { s with task := fun p => if (s.task p).chan = some c then (s.task p).wake else s.task p }

/-- What process `p` does next. -/
def setTask (s : Pipes P) (p : P) (t : Task) : Pipes P :=
  { s with task := update s.task p t }

/-- `release(&pi->lock)`, going on with `t`. -/
def release (s : Pipes P) (p : P) (t : Task) : Pipes P :=
  { s.setTask p t with lock := none }

/-- A round of the loop of `pipewrite`, and what follows the last one.  `copied` says whether
`copyin` succeeds. -/
def pipewriteRound (s : Pipes P) (p : P) (w : WriteCall) (copied : Bool) : Pipes P :=
  if w.i < w.n then
    if s.pi.readopen = false ∨ s.killed p = true then s.release p .out
    else if s.pi.Full then (s.wakeup .nread).release p (.write w .asleep)
    else if copied then
      { s.setTask p (.write { w with i := w.i + 1, stored := w.stored + 1 } .body) with
        pi := s.pi.store (w.src w.i)
        accepted := s.accepted ++ [w.src w.i] }
    else (s.wakeup .nread).release p .out
  else (s.wakeup .nread).release p .out

/-- A round of the first loop of `piperead`. -/
def pipereadWait (s : Pipes P) (p : P) (n : ℤ) : Pipes P :=
  if s.pi.Empty ∧ s.pi.writeopen = true then
    if s.killed p = true then s.release p .out else s.release p (.read n .asleep)
  else s.setTask p (.copy n 0)

/-- A round of the second loop of `piperead`, and what follows the last one.  `copied` says
whether `copyout` succeeds. -/
def pipereadCopy (s : Pipes P) (p : P) (n : ℤ) (i : ℕ) (copied : Bool) : Pipes P :=
  if i < n ∧ ¬s.pi.Empty then
    let (ch, pi) := s.pi.fetch
    if copied then
      { s.setTask p (.copy n (i + 1)) with pi := pi, delivered := s.delivered ++ [ch] }
    else ({ s with pi := pi }.wakeup .nwrite).release p .out
  else (s.wakeup .nwrite).release p .out

/-- `pipeclose(pi, writable)` -/
def pipeclose (s : Pipes P) (writable : Bool) : Pipes P :=
  if writable then { s with pi := { s.pi with writeopen := false } }.wakeup .nread
  else { s with pi := { s.pi with readopen := false } }.wakeup .nwrite

/-- `kill` of process `p`. -/
def kill (s : Pipes P) (p : P) : Pipes P :=
  { s.setTask p (s.task p).wake with killed := update s.killed p true }

end Pipes

/-! ### Runs -/

/-- What can happen: a call, taking the lock, a round of a loop under the lock, closing an
end, and killing a process. -/
inductive Event (P : Type)
  | pipewrite (p : P) (src : ℕ → UInt8) (n : ℤ)
  | piperead (p : P) (n : ℤ)
  | acquire (p : P)
  | round (p : P) (copied : Bool)
  | pipeclose (writable : Bool)
  | kill (p : P)

variable {P : Type} [DecidableEq P]

/-- Taking the lock. -/
def Task.entered : Task → Option Task
  | write w .enter => some (write { w with stored := 0 } .body)
  | read n .enter => some (read n .body)
  | _ => none

/-- The state after an event, if it can happen. -/
def Pipes.step (s : Pipes P) : Event P → Option (Pipes P)
  | .pipewrite p src n =>
    match s.task p with
    | .out => some (s.setTask p (.write ⟨src, n, 0, 0⟩ .enter))
    | _ => none
  | .piperead p n =>
    match s.task p with
    | .out => some (s.setTask p (.read n .enter))
    | _ => none
  | .acquire p =>
    if s.lock = none then (s.task p).entered.map fun t => { s.setTask p t with lock := some p }
    else none
  | .round p copied =>
    if s.lock = some p then
      match s.task p with
      | .write w .body => some (s.pipewriteRound p w copied)
      | .read n .body => some (s.pipereadWait p n)
      | .copy n i => some (s.pipereadCopy p n i copied)
      | _ => none
    else none
  | .pipeclose writable => if s.lock = none then some (s.pipeclose writable) else none
  | .kill p => some (s.kill p)

/-- The same as a relation, with a case for each part of the code. -/
inductive Pipes.Steps (s : Pipes P) : Event P → Pipes P → Prop
  | pipewrite {p : P} (src : ℕ → UInt8) (n : ℤ) (hout : s.task p = .out) :
    Steps s (.pipewrite p src n) (s.setTask p (.write ⟨src, n, 0, 0⟩ .enter))
  | piperead {p : P} (n : ℤ) (hout : s.task p = .out) :
    Steps s (.piperead p n) (s.setTask p (.read n .enter))
  | acquire {p : P} {t : Task} (hfree : s.lock = none) (hentered : (s.task p).entered = some t) :
    Steps s (.acquire p) { s.setTask p t with lock := some p }
  | writeRound {p : P} {w : WriteCall} (copied : Bool) (hlock : s.lock = some p)
    (htask : s.task p = .write w .body) : Steps s (.round p copied) (s.pipewriteRound p w copied)
  | readWait {p : P} {n : ℤ} (copied : Bool) (hlock : s.lock = some p)
    (htask : s.task p = .read n .body) : Steps s (.round p copied) (s.pipereadWait p n)
  | readCopy {p : P} {n : ℤ} {i : ℕ} (copied : Bool) (hlock : s.lock = some p)
    (htask : s.task p = .copy n i) : Steps s (.round p copied) (s.pipereadCopy p n i copied)
  | pipeclose (writable : Bool) (hfree : s.lock = none) :
    Steps s (.pipeclose writable) (s.pipeclose writable)
  | kill (p : P) : Steps s (.kill p) (s.kill p)

theorem Pipes.steps_of_step {s t : Pipes P} {e : Event P} (h : s.step e = some t) :
    s.Steps e t := by
  cases e with
  | pipewrite p src n =>
    simp only [Pipes.step] at h
    split at h
    · next hout =>
      cases h
      exact .pipewrite src n hout
    · cases h
  | piperead p n =>
    simp only [Pipes.step] at h
    split at h
    · next hout =>
      cases h
      exact .piperead n hout
    · cases h
  | acquire p =>
    simp only [Pipes.step] at h
    split at h
    · next hfree =>
      obtain ⟨u, hu, rfl⟩ := Option.map_eq_some_iff.mp h
      exact .acquire hfree hu
    · cases h
  | round p copied =>
    simp only [Pipes.step] at h
    split at h
    · next hlock =>
      split at h
      · next w htask => cases h; exact .writeRound copied hlock htask
      · next n htask => cases h; exact .readWait copied hlock htask
      · next n i htask => cases h; exact .readCopy copied hlock htask
      · cases h
    · cases h
  | pipeclose writable =>
    simp only [Pipes.step] at h
    split at h
    · next hfree =>
      cases h
      exact .pipeclose writable hfree
    · cases h
  | kill p =>
    cases h
    exact .kill p

/-- A pipe as `pipealloc` leaves it, with processes that do not use it yet. -/
def Pipes.new (data : Fin PIPESIZE → UInt8) (killed : P → Bool) : Pipes P where
  pi := ⟨data, 0, 0, true, true⟩
  lock := none
  task _ := .out
  killed := killed
  accepted := []
  delivered := []

/-- Runs from a new pipe in which all events are allowed ones. -/
inductive PipeRuns (Allowed : Pipes P → Event P → Prop) : Pipes P → Prop
  | new (data : Fin PIPESIZE → UInt8) (killed : P → Bool) : PipeRuns Allowed (Pipes.new data killed)
  | step {s t : Pipes P} (hruns : PipeRuns Allowed s) (e : Event P) (hallowed : Allowed s e)
    (hstep : s.step e = some t) : PipeRuns Allowed t

/-- A list of events, one after the other. -/
def Pipes.steps (s : Pipes P) : List (Event P) → Option (Pipes P)
  | [] => some s
  | e :: es => (s.step e).bind fun t => t.steps es

theorem PipeRuns.steps {Allowed : Pipes P → Event P → Prop} : ∀ (es : List (Event P))
    {s t : Pipes P}, PipeRuns Allowed s → (∀ e ∈ es, ∀ s, Allowed s e) → s.steps es = some t →
    PipeRuns Allowed t := by
  intro es
  induction es with
  | nil =>
    intro s t h _ hsteps
    cases hsteps
    exact h
  | cons e es ih =>
    intro s t h hallowed hsteps
    obtain ⟨u, hu, hsteps⟩ := Option.bind_eq_some_iff.mp hsteps
    exact ih (h.step e (hallowed e List.mem_cons_self s) hu)
      (fun e' he' => hallowed e' (List.mem_cons_of_mem e he')) hsteps

/-! ### A queue -/

namespace PipeState

variable {pi : PipeState}

/-- The bytes in the pipe. -/
def count (pi : PipeState) : ℕ := (pi.nwrite - pi.nread).toNat

/-- The bytes in the pipe, the oldest first. -/
def contents (pi : PipeState) : List UInt8 := RingBuffer.contents pi.data pi.nread.toNat pi.count

theorem toNat_nwrite (pi : PipeState) :
    pi.nwrite.toNat = (pi.nread.toNat + pi.count) % 2 ^ 32 := by
  have h : pi.nread + (pi.nwrite - pi.nread) = pi.nwrite := by
    rw [UInt32.add_comm, UInt32.sub_add_cancel]
  rw [count, ← UInt32.toNat_add, h]

theorem full_iff : pi.Full ↔ pi.count = PIPESIZE := by
  unfold Full count
  constructor
  · intro h
    rw [h, UInt32.add_comm, UInt32.add_sub_cancel]
    rfl
  · intro h
    have hsub : pi.nwrite - pi.nread = UInt32.ofNat PIPESIZE := UInt32.toNat_inj.mp h
    rw [← hsub, UInt32.add_comm, UInt32.sub_add_cancel]

theorem empty_iff : pi.Empty ↔ pi.count = 0 := by
  unfold Empty count
  constructor
  · intro h
    rw [h, UInt32.sub_self]
    rfl
  · intro h
    have hsub : pi.nwrite - pi.nread = 0 := UInt32.toNat_inj.mp h
    rw [← UInt32.sub_add_cancel pi.nwrite pi.nread, hsub, UInt32.zero_add]

theorem count_store (h : pi.count < PIPESIZE) (ch : UInt8) :
    (pi.store ch).count = pi.count + 1 := by
  have hsub : pi.nwrite + 1 - pi.nread = pi.nwrite - pi.nread + 1 := by grind
  show (pi.nwrite + 1 - pi.nread).toNat = _
  unfold count at *
  rw [hsub, UInt32.toNat_add, UInt32.toNat_one]
  simp only [PIPESIZE] at h
  omega

theorem count_fetch (h : pi.count ≠ 0) : pi.fetch.2.count + 1 = pi.count := by
  have hsub : pi.nwrite - (pi.nread + 1) + 1 = pi.nwrite - pi.nread := by grind
  show (pi.nwrite - (pi.nread + 1)).toNat + 1 = _
  unfold count at *
  rw [← hsub, UInt32.toNat_add, UInt32.toNat_one] at h ⊢
  have := (pi.nwrite - (pi.nread + 1)).toNat_lt
  omega

/-- Storing appends to the contents. -/
theorem contents_store (h : pi.count < PIPESIZE) (ch : UInt8) :
    (pi.store ch).contents = pi.contents ++ [ch] := by
  have hcell : Fin.ofNat PIPESIZE pi.nwrite.toNat = Fin.ofNat PIPESIZE
    (pi.nread.toNat + pi.count) := by
    rw [toNat_nwrite, ofNat_mod (by decide)]
  rw [contents, count_store h, contents, ← contents_push _ _ h]
  show RingBuffer.contents (update _ _ _) _ _ = _
  rw [hcell]
  rfl

/-- Fetching takes the first byte off the contents. -/
theorem contents_fetch (h : pi.count ≠ 0) : pi.contents = pi.fetch.1 :: pi.fetch.2.contents := by
  rw [contents, ← count_fetch h, contents_pop, contents]
  show _ = _ :: RingBuffer.contents pi.data (pi.nread + 1).toNat _
  rw [UInt32.toNat_add, contents_mod (by decide)]
  rfl

end PipeState

/-- The user buffers are valid. -/
def Event.Valid : Event P → Prop
  | round _ copied => copied = true
  | _ => True

/-- The pipe is a queue: what was delivered and what is left is what was accepted. -/
structure Pipes.Fifo (s : Pipes P) : Prop where
  bound : s.pi.count ≤ PIPESIZE
  queue : s.delivered ++ s.pi.contents = s.accepted

namespace Pipes

variable {s t : Pipes P} {p : P}

omit [DecidableEq P] in
/-- What keeps the bytes keeps the queue. -/
theorem Fifo.congr (h : s.Fifo) (hdata : t.pi.data = s.pi.data) (hread : t.pi.nread = s.pi.nread)
    (hwrite : t.pi.nwrite = s.pi.nwrite) (hacc : t.accepted = s.accepted)
    (hdel : t.delivered = s.delivered) : t.Fifo := by
  have hcount : t.pi.count = s.pi.count := by unfold PipeState.count; rw [hread, hwrite]
  have hcontents : t.pi.contents = s.pi.contents := by
    unfold PipeState.contents
    rw [hdata, hread, hcount]
  exact ⟨hcount ▸ h.bound, by rw [hdel, hcontents, hacc]; exact h.queue⟩

theorem Fifo.pipewriteRound (h : s.Fifo) (w : WriteCall) (copied : Bool) :
    (s.pipewriteRound p w copied).Fifo := by
  unfold Pipes.pipewriteRound
  split
  · split
    · exact h.congr rfl rfl rfl rfl rfl
    · split
      · exact h.congr rfl rfl rfl rfl rfl
      · next hfull =>
        split
        · -- a byte is stored, and there is room for it
          have hlt : s.pi.count < PIPESIZE :=
            lt_of_le_of_ne h.bound fun hc => hfull (PipeState.full_iff.mpr hc)
          constructor
          · show (s.pi.store _).count ≤ PIPESIZE
            rw [PipeState.count_store hlt]
            exact hlt
          · show s.delivered ++ (s.pi.store _).contents = s.accepted ++ _
            rw [PipeState.contents_store hlt, ← List.append_assoc, h.queue]
        · exact h.congr rfl rfl rfl rfl rfl
  · exact h.congr rfl rfl rfl rfl rfl

theorem Fifo.pipereadWait (h : s.Fifo) (n : ℤ) : (s.pipereadWait p n).Fifo := by
  unfold Pipes.pipereadWait
  split
  · split <;> exact h.congr rfl rfl rfl rfl rfl
  · exact h.congr rfl rfl rfl rfl rfl

theorem Fifo.pipereadCopy (h : s.Fifo) (n : ℤ) (i : ℕ) : (s.pipereadCopy p n i true).Fifo := by
  unfold Pipes.pipereadCopy
  split
  · next hlt =>
    -- a byte is fetched, and there is one
    have hpos : s.pi.count ≠ 0 := fun hc => hlt.2 (PipeState.empty_iff.mpr hc)
    have hcount := PipeState.count_fetch hpos
    constructor
    · show s.pi.fetch.2.count ≤ PIPESIZE
      have := h.bound
      omega
    · show s.delivered ++ [s.pi.fetch.1] ++ s.pi.fetch.2.contents = s.accepted
      rw [List.append_assoc, List.singleton_append, ← PipeState.contents_fetch hpos]
      exact h.queue
  · exact h.congr rfl rfl rfl rfl rfl

/-- Every event with valid buffers keeps the queue. -/
theorem Fifo.step (h : s.Fifo) {e : Event P} (he : e.Valid) (hstep : s.step e = some t) :
    t.Fifo := by
  cases steps_of_step hstep with
  | pipewrite src n hout => exact h.congr rfl rfl rfl rfl rfl
  | piperead n hout => exact h.congr rfl rfl rfl rfl rfl
  | acquire hfree hentered => exact h.congr rfl rfl rfl rfl rfl
  | writeRound copied hlock htask => exact h.pipewriteRound _ _
  | readWait copied hlock htask => exact h.pipereadWait _
  | readCopy copied hlock htask =>
    obtain rfl : copied = true := he
    exact h.pipereadCopy _ _
  | pipeclose writable hfree =>
    unfold Pipes.pipeclose
    split <;> exact h.congr rfl rfl rfl rfl rfl
  | kill p => exact h.congr rfl rfl rfl rfl rfl

end Pipes

/-- **A pipe is a queue**: along every run of readers and writers with valid buffers, the
counters are at most `PIPESIZE` apart modulo `2 ^ 32`, and the bytes delivered to the readers,
followed by those in the ring, are the bytes accepted from the writers. -/
theorem fifo_of_runs {s : Pipes P} (h : PipeRuns (fun _ e => e.Valid) s) :
    (s.pi.nwrite - s.pi.nread).toNat ≤ PIPESIZE ∧
      s.delivered ++ RingBuffer.contents s.pi.data s.pi.nread.toNat
        (s.pi.nwrite - s.pi.nread).toNat = s.accepted := by
  have hfifo : s.Fifo := by
    induction h with
    | new data killed =>
      constructor <;> simp [Pipes.new, PipeState.contents, PipeState.count]
    | step _ e he hstep ih => exact ih.step he hstep
  exact ⟨hfifo.bound, hfifo.queue⟩

/-- The pipe of the runs below. -/
def newPipe : Pipes (Fin 2) := Pipes.new (fun _ => 0) fun _ => false

/-- One process writes two bytes, and another one reads the first of them. -/
theorem fifo_newPipe : ∃ s : Pipes (Fin 2), (PipeRuns (fun _ e => e.Valid) s ∧
    s.delivered = [7] ∧ s.accepted = [7, 8]) ∧ s.delivered ++ RingBuffer.contents s.pi.data
      s.pi.nread.toNat (s.pi.nwrite - s.pi.nread).toNat = s.accepted := by
  let es : List (Event (Fin 2)) := [.pipewrite 0 (fun i => UInt8.ofNat (7 + i)) 2, .acquire 0,
    .round 0 true, .round 0 true, .round 0 true, .piperead 1 1, .acquire 1, .round 1 true,
    .round 1 true, .round 1 true]
  have hrun : (newPipe.steps es).map (fun s => (s.delivered, s.accepted)) =
    some ([7], [7, 8]) := by decide
  obtain ⟨s, hs, hlists⟩ := Option.map_eq_some_iff.mp hrun
  have hvalid : ∀ e ∈ es, e.Valid := by simp [es, Event.Valid]
  have hruns : PipeRuns (fun _ e => e.Valid) s :=
    PipeRuns.steps es (PipeRuns.new _ _) (fun e he _ => hvalid e he) hs
  exact ⟨s, ⟨hruns, congrArg Prod.fst hlists, congrArg Prod.snd hlists⟩, (fifo_of_runs hruns).2⟩

/-! ### Sleepers -/

namespace Pipes

/-- Some process sleeps on the channel. -/
def Asleep (s : Pipes P) (c : PipeChan) : Prop := ∃ p, (s.task p).chan = some c

/-- A reader sleeps only while there is nothing to read and a writer may come. -/
def ReadersOk (s : Pipes P) : Prop := s.Asleep .nread → s.pi.Empty ∧ s.pi.writeopen = true

/-- A writer sleeps only while there is no room and a reader may come. -/
def WritersOk (s : Pipes P) : Prop := s.Asleep .nwrite → s.pi.Full ∧ s.pi.readopen = true

/-- **No sleeper is stranded** while the lock is free. -/
def NoneStranded (s : Pipes P) : Prop := s.lock = none → s.ReadersOk ∧ s.WritersOk

/-- A writer that has stored bytes and is to go on is not killed while a reader sleeps. -/
def KillSafe (s : Pipes P) : Event P → Prop
  | .kill p => ∀ w, s.lock = some p → s.task p = .write w .body → 0 < w.stored → w.i < w.n →
    ¬s.Asleep .nread
  | _ => True

/-- What holds of the state while process `p` has the lock.  A writer owes the readers a
wakeup once it has stored a byte, and a reader owes the writers one. -/
def Held (s : Pipes P) (p : P) : Prop :=
  match s.task p with
  | .write w .body => s.WritersOk ∧ (w.stored = 0 → s.ReadersOk) ∧
    (0 < w.stored → s.pi.readopen = true ∧ (s.killed p = true → w.i < w.n → ¬s.Asleep .nread))
  | .read _ .body => s.ReadersOk ∧ s.WritersOk
  | .copy _ _ => s.ReadersOk
  | _ => False

/-- The invariant. -/
structure Inv (s : Pipes P) : Prop where
  free : s.NoneStranded
  held : ∀ p, s.lock = some p → s.Held p

section Sleepers

variable {s t : Pipes P} {p : P} {c c' : PipeChan}

omit [DecidableEq P]

theorem chan_wake (u : Task) : u.wake.chan = none := by
  rcases u with _ | ⟨w, _ | _ | _⟩ | ⟨n, _ | _ | _⟩ | ⟨n, i⟩ <;> rfl

/-- A wakeup leaves the sleepers on the other channel. -/
theorem asleep_wakeup : (s.wakeup c).Asleep c' ↔ s.Asleep c' ∧ c' ≠ c := by
  constructor
  · rintro ⟨p, hp⟩
    simp only [wakeup] at hp
    split at hp
    · rw [chan_wake] at hp
      cases hp
    · next hne => exact ⟨⟨p, hp⟩, fun h => hne (h ▸ hp)⟩
  · rintro ⟨⟨p, hp⟩, hne⟩
    exact ⟨p, by simp only [wakeup, hp, Option.some.injEq, if_neg hne]⟩

/-- The conditions on sleepers only get weaker with fewer of them. -/
theorem ReadersOk.mono (h : s.ReadersOk) (hpi : t.pi = s.pi)
    (hsub : t.Asleep .nread → s.Asleep .nread) : t.ReadersOk := by
  intro ht
  rw [hpi]
  exact h (hsub ht)

theorem WritersOk.mono (h : s.WritersOk) (hpi : t.pi = s.pi)
    (hsub : t.Asleep .nwrite → s.Asleep .nwrite) : t.WritersOk := by
  intro ht
  rw [hpi]
  exact h (hsub ht)

/-- The holder of the lock is not affected by what leaves the pipe alone. -/
theorem Held.mono {q : P} (h : s.Held q) (htask : t.task q = s.task q) (hpi : t.pi = s.pi)
    (hsub : ∀ c, t.Asleep c → s.Asleep c)
    (hkilled : ∀ w, s.task q = .write w .body → 0 < w.stored → w.i < w.n → t.killed q = true →
      s.killed q = true ∨ ¬s.Asleep .nread) : t.Held q := by
  unfold Held at h ⊢
  rw [htask]
  split at h
  · next w hw =>
    obtain ⟨hwriters, hreaders, hstored⟩ := h
    refine ⟨hwriters.mono hpi (hsub _), fun h0 => (hreaders h0).mono hpi (hsub _), fun hpos => ?_⟩
    refine ⟨hpi ▸ (hstored hpos).1, fun hk hi ha => ?_⟩
    rcases hkilled w hw hpos hi hk with hk | hnone
    · exact (hstored hpos).2 hk hi (hsub _ ha)
    · exact hnone (hsub _ ha)
  · exact ⟨h.1.mono hpi (hsub _), h.2.mono hpi (hsub _)⟩
  · exact h.mono hpi (hsub _)
  · exact h

/-- A state whose lock is free. -/
theorem Inv.of_free (hlock : s.lock = none) (hread : s.ReadersOk) (hwrite : s.WritersOk) :
    s.Inv :=
  ⟨fun _ => ⟨hread, hwrite⟩, fun p hp => by rw [hlock] at hp; cases hp⟩

/-- A state in which process `p` has the lock. -/
theorem Inv.of_held (hlock : s.lock = some p) (hheld : s.Held p) : s.Inv := by
  constructor
  · intro hfree
    rw [hlock] at hfree
    cases hfree
  · intro q hq
    rw [hlock] at hq
    cases hq
    exact hheld

theorem Inv.pipeclose (h : s.Inv) (hfree : s.lock = none) (writable : Bool) :
    (s.pipeclose writable).Inv := by
  obtain ⟨hreaders, hwriters⟩ := h.free hfree
  unfold Pipes.pipeclose
  split
  · apply Inv.of_free
    · exact hfree
    · exact fun ha => absurd rfl (asleep_wakeup.mp ha).2
    · exact fun ha => hwriters (asleep_wakeup.mp ha).1
  · apply Inv.of_free
    · exact hfree
    · exact fun ha => hreaders (asleep_wakeup.mp ha).1
    · exact fun ha => absurd rfl (asleep_wakeup.mp ha).2

end Sleepers

variable {s t : Pipes P} {p : P} {c c' : PipeChan}

/-- A process that goes on without sleeping adds no sleeper. -/
theorem asleep_of_setTask {u : Task} (hu : u.chan = none) (h : (s.setTask p u).Asleep c) :
    s.Asleep c := by
  obtain ⟨q, hq⟩ := h
  by_cases hqp : q = p
  · subst hqp
    simp [setTask, hu] at hq
  · exact ⟨q, by simpa [setTask, hqp] using hq⟩

/-- A process that goes to sleep is the only new sleeper. -/
theorem asleep_of_sleep {u : Task} (hu : u.chan = some c') (h : (s.setTask p u).Asleep c) :
    s.Asleep c ∨ c = c' := by
  obtain ⟨q, hq⟩ := h
  by_cases hqp : q = p
  · subst hqp
    simp only [setTask, update_self, hu] at hq
    exact Or.inr (Option.some.inj hq).symm
  · exact Or.inl ⟨q, by simpa [setTask, hqp] using hq⟩

theorem Inv.pipewriteRound (h : s.Inv) {w : WriteCall} (copied : Bool) (hlock : s.lock = some p)
    (htask : s.task p = .write w .body) : (s.pipewriteRound p w copied).Inv := by
  have hheld := h.held p hlock
  simp only [Held, htask] at hheld
  obtain ⟨hwriters, hreaders, hstored⟩ := hheld
  -- leaving after `wakeup(&pi->nread)`
  have hleave : ((s.wakeup .nread).release p .out).Inv := by
    apply Inv.of_free rfl
    · intro ha
      exact absurd rfl (asleep_wakeup.mp (asleep_of_setTask rfl ha)).2
    · exact hwriters.mono rfl fun ha => (asleep_wakeup.mp (asleep_of_setTask rfl ha)).1
  unfold Pipes.pipewriteRound
  split
  · next hi =>
    split
    · next hstop =>
      -- the early return, without a wakeup
      apply Inv.of_free rfl
      · intro ha
        have ha : s.Asleep .nread := asleep_of_setTask rfl ha
        rcases Nat.eq_zero_or_pos w.stored with h0 | hpos
        · exact hreaders h0 ha
        · rcases hstop with hclosed | hkilled
          · rw [(hstored hpos).1] at hclosed
            cases hclosed
          · exact absurd ha ((hstored hpos).2 hkilled hi)
      · exact hwriters.mono rfl (asleep_of_setTask rfl)
    · next hgo =>
      split
      · next hfull =>
        apply Inv.of_free rfl
        · intro ha
          rcases asleep_of_sleep rfl ha with ha | hc
          · exact absurd rfl (asleep_wakeup.mp ha).2
          · cases hc
        · intro _
          have hopen : s.pi.readopen = true := by simpa using fun hr => hgo (Or.inl hr)
          exact ⟨hfull, hopen⟩
      · next hfull =>
        split
        · -- a byte is stored; there was room, so no writer sleeps
          have hopen : s.pi.readopen = true := by simpa using fun hr => hgo (Or.inl hr)
          apply Inv.of_held (p := p)
          · exact hlock
          · simp only [Held, setTask, update_self]
            refine ⟨fun ha => ?_, fun h0 => ?_, fun _ => ⟨hopen, fun hk => ?_⟩⟩
            · exact absurd (hwriters (asleep_of_setTask rfl ha)).1 hfull
            · cases h0
            · exact absurd (Or.inr hk) hgo
        · exact hleave
  · exact hleave

theorem Inv.pipereadWait (h : s.Inv) {n : ℤ} (hlock : s.lock = some p)
    (htask : s.task p = .read n .body) : (s.pipereadWait p n).Inv := by
  have hheld := h.held p hlock
  simp only [Held, htask] at hheld
  obtain ⟨hreaders, hwriters⟩ := hheld
  unfold Pipes.pipereadWait
  split
  · next hwait =>
    split
    · exact Inv.of_free rfl (hreaders.mono rfl (asleep_of_setTask rfl))
        (hwriters.mono rfl (asleep_of_setTask rfl))
    · -- the process goes to sleep on an empty pipe
      apply Inv.of_free rfl
      · exact fun _ => hwait
      · intro ha
        rcases asleep_of_sleep rfl ha with ha | hc
        · exact hwriters ha
        · cases hc
  · apply Inv.of_held (p := p)
    · exact hlock
    · simp only [Held, setTask, update_self]
      exact hreaders.mono rfl (asleep_of_setTask rfl)

theorem Inv.pipereadCopy (h : s.Inv) {n : ℤ} {i : ℕ} (copied : Bool) (hlock : s.lock = some p)
    (htask : s.task p = .copy n i) : (s.pipereadCopy p n i copied).Inv := by
  have hreaders := h.held p hlock
  simp only [Held, htask] at hreaders
  unfold Pipes.pipereadCopy
  split
  · next hlt =>
    -- there was something to read, so no reader sleeps
    have hnone : ¬s.Asleep .nread := fun ha => hlt.2 (hreaders ha).1
    dsimp only
    split
    · apply Inv.of_held (p := p)
      · exact hlock
      · simp only [Held, setTask, update_self]
        exact fun ha => absurd (asleep_of_setTask rfl ha) hnone
    · apply Inv.of_free rfl
      · exact fun ha => absurd (asleep_wakeup.mp (asleep_of_setTask rfl ha)).1 hnone
      · exact fun ha => absurd rfl (asleep_wakeup.mp (asleep_of_setTask rfl ha)).2
  · apply Inv.of_free rfl
    · exact hreaders.mono rfl fun ha => (asleep_wakeup.mp (asleep_of_setTask rfl ha)).1
    · exact fun ha => absurd rfl (asleep_wakeup.mp (asleep_of_setTask rfl ha)).2

theorem Inv.kill (h : s.Inv) (hsafe : s.KillSafe (.kill p)) : (s.kill p).Inv := by
  -- at most `p` stops sleeping
  have hsub : ∀ c, (s.kill p).Asleep c → s.Asleep c := fun c => asleep_of_setTask (chan_wake _)
  constructor
  · intro hfree
    obtain ⟨hreaders, hwriters⟩ := h.free hfree
    exact ⟨hreaders.mono rfl (hsub _), hwriters.mono rfl (hsub _)⟩
  · intro q hq
    have hheld := h.held q hq
    -- the holder of the lock does not sleep, so it goes on where it was
    have htask : (s.kill p).task q = s.task q := by
      by_cases hqp : q = p
      · subst hqp
        simp only [Pipes.kill, setTask, update_self]
        unfold Held at hheld
        rcases hu : s.task q with _ | ⟨w, _ | _ | _⟩ | ⟨n, _ | _ | _⟩ | ⟨n, i⟩ <;>
          simp [hu, Task.wake] at hheld ⊢
      · simp [Pipes.kill, setTask, hqp]
    refine hheld.mono htask rfl hsub fun w hw hpos hi hk => ?_
    by_cases hqp : q = p
    · subst hqp
      exact Or.inr (hsafe w hq hw hpos hi)
    · exact Or.inl (by simpa [Pipes.kill, hqp] using hk)

/-- Taking the lock does not change who sleeps, and no wakeup is owed yet. -/
theorem Inv.acquire (h : s.Inv) {u : Task} (hfree : s.lock = none)
    (hentered : (s.task p).entered = some u) : Inv { s.setTask p u with lock := some p } := by
  obtain ⟨hreaders, hwriters⟩ := h.free hfree
  apply Inv.of_held (p := p) rfl
  simp only [Held, setTask, update_self]
  rcases ht : s.task p with _ | ⟨w, _ | _ | _⟩ | ⟨n, _ | _ | _⟩ | ⟨n, i⟩ <;>
    simp only [ht, Task.entered, reduceCtorEq, Option.some.injEq] at hentered
  · subst hentered
    refine ⟨hwriters.mono rfl (asleep_of_setTask rfl), fun _ => ?_, fun h0 => by cases h0⟩
    exact hreaders.mono rfl (asleep_of_setTask rfl)
  · subst hentered
    exact ⟨hreaders.mono rfl (asleep_of_setTask rfl), hwriters.mono rfl (asleep_of_setTask rfl)⟩

/-- A call does not touch the pipe. -/
theorem Inv.call (h : s.Inv) {u : Task} (hout : s.task p = .out) (hu : u.chan = none) :
    (s.setTask p u).Inv := by
  have hsub : ∀ c, (s.setTask p u).Asleep c → s.Asleep c := fun c => asleep_of_setTask hu
  constructor
  · intro hfree
    obtain ⟨hreaders, hwriters⟩ := h.free hfree
    exact ⟨hreaders.mono rfl (hsub _), hwriters.mono rfl (hsub _)⟩
  · intro q hq
    have hheld := h.held q hq
    have hqp : q ≠ p := by
      rintro rfl
      simp [Held, hout] at hheld
    have htask : (s.setTask p u).task q = s.task q := by simp [setTask, hqp]
    exact hheld.mono htask rfl hsub fun _ _ _ _ hk => Or.inl hk

theorem Inv.step (h : s.Inv) {e : Event P} (hsafe : s.KillSafe e) (hstep : s.step e = some t) :
    t.Inv := by
  cases steps_of_step hstep with
  | pipewrite src n hout => exact h.call hout rfl
  | piperead n hout => exact h.call hout rfl
  | acquire hfree hentered => exact h.acquire hfree hentered
  | writeRound copied hlock htask => exact h.pipewriteRound copied hlock htask
  | readWait copied hlock htask => exact h.pipereadWait hlock htask
  | readCopy copied hlock htask => exact h.pipereadCopy copied hlock htask
  | pipeclose writable hfree => exact h.pipeclose hfree writable
  | kill p => exact h.kill hsafe

end Pipes

/-- **No sleeper is stranded** in a run in which no writer that has stored bytes is killed
before its next round while a reader sleeps. -/
theorem noneStranded_of_runs {s : Pipes P} (h : PipeRuns Pipes.KillSafe s) : s.NoneStranded := by
  have hinv : s.Inv := by
    induction h with
    | new data killed =>
      apply Pipes.Inv.of_free rfl
      · rintro ⟨p, hp⟩
        cases hp
      · rintro ⟨p, hp⟩
        cases hp
    | step _ e hsafe hstep ih => exact ih.step hsafe hstep
  exact hinv.free

/-- A reader sleeps until a writer has written two bytes, and is woken. -/
theorem noneStranded_newPipe : ∃ s : Pipes (Fin 2), (PipeRuns Pipes.KillSafe s ∧
    s.pi.count = 2 ∧ s.lock = none) ∧ s.NoneStranded := by
  let es : List (Event (Fin 2)) := [.piperead 0 1, .acquire 0, .round 0 true,
    .pipewrite 1 (fun _ => 7) 2, .acquire 1, .round 1 true, .round 1 true, .round 1 true]
  have hrun : (newPipe.steps es).map (fun s => (s.pi.count, s.lock)) = some (2, none) := by decide
  obtain ⟨s, hs, hfields⟩ := Option.map_eq_some_iff.mp hrun
  have hsafe : ∀ e ∈ es, ∀ s : Pipes (Fin 2), s.KillSafe e := by simp [es, Pipes.KillSafe]
  have hruns := PipeRuns.steps es (PipeRuns.new _ _) hsafe hs
  exact ⟨s, ⟨hruns, congrArg Prod.fst hfields, congrArg Prod.snd hfields⟩,
    noneStranded_of_runs hruns⟩

/-- **A stranded reader**: it sleeps, the writer stores one of two bytes and is killed, and
returns without a wakeup. -/
theorem reader_stranded : ∃ s : Pipes (Fin 2), PipeRuns (fun _ _ => True) s ∧ s.lock = none ∧
    (s.task 0).chan = some .nread ∧ ¬s.pi.Empty ∧ ¬s.NoneStranded := by
  let es : List (Event (Fin 2)) := [.piperead 0 1, .acquire 0, .round 0 true,
    .pipewrite 1 (fun _ => 7) 2, .acquire 1, .round 1 true, .kill 1, .round 1 true]
  have hrun : (newPipe.steps es).map (fun s => (s.lock, (s.task 0).chan, decide s.pi.Empty)) =
    some (none, some .nread, false) := by decide
  obtain ⟨s, hs, hfields⟩ := Option.map_eq_some_iff.mp hrun
  injection hfields with hlock hfields
  injection hfields with hchan hempty
  have hempty : ¬s.pi.Empty := of_decide_eq_false hempty
  exact ⟨s, PipeRuns.steps es (PipeRuns.new _ _) (fun _ _ _ => trivial) hs, hlock, hchan, hempty,
    fun hns => hempty ((hns hlock).1 ⟨0, hchan⟩).1⟩

end Xv6Ext2
