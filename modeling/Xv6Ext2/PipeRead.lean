import Xv6Ext2.Pipe
import Xv6Ext2.UserMem

/-!
# Reading from a pipe

`piperead` of `kernel/pipe.c` as one call, with the memory of the process that reads.  A
byte is taken out of the ring before it is copied out, so a byte that cannot be copied out is
gone: the call returns the number of bytes before it.

## Main definitions

* `pipereadLoop`, `piperead` — the source function, from where it has the lock.
* `ConsumesReturned` — the call has taken out as many bytes as it returns.

## Main results

* `pipereadLoop_steps` — the loop is a sequence of rounds of the pipe with its processes.
* `consumesReturned_iff` — **a read takes out what it returns** exactly if all it can
  read may be stored.
* `piperead_loses_byte` — a byte that no reader receives.
-/

namespace Xv6Ext2

/-! ### The source function -/

/-- What the loop of `piperead` works on, and `i`. -/
structure PipeReader where
  i : ℕ
  pi : PipeState
  mem : UserMem

/-- The second loop of `piperead`, with so many rounds left before `n`. -/
def pipereadLoop (addr : ℕ) : ℕ → PipeReader → PipeReader
  | 0, s => s
  | k + 1, s =>
    if s.pi.Empty then s
    else
      let (ch, pi) := s.pi.fetch
      let (mem, copied) := copyout 1 s.mem ((addr + s.i) % 2 ^ 64) [ch]
      if copied then pipereadLoop addr k ⟨s.i + 1, pi, mem⟩ else ⟨s.i, pi, mem⟩

/-- `piperead` from where it has the lock: what it returns, and the pipe and the memory then, or
`none` where it goes to sleep. -/
def piperead (killed : Bool) (addr : ℕ) (n : ℤ) (pi : PipeState) (mem : UserMem) :
    Option (ℤ × PipeState × UserMem) :=
  if pi.Empty ∧ pi.writeopen = true then
    if killed then some (-1, pi, mem) else none
  else
    let r := pipereadLoop addr n.toNat ⟨0, pi, mem⟩
    some (r.i, r.pi, r.mem)

/-! ### Rounds -/

variable {addr n k : ℕ} {pi : PipeState} {mem : UserMem} {s : PipeReader}

theorem copyout_one {a : ℕ} {ch : UInt8} : (copyout 1 mem a [ch]).2 = mem.writable a := by
  rw [Bool.eq_iff_iff, copyout_snd 1 mem a [ch] le_rfl]
  simp

theorem pipereadLoop_empty (h : s.pi.count = 0) : pipereadLoop addr k s = s := by
  cases k with
  | zero => rfl
  | succ k => rw [pipereadLoop, if_pos (PipeState.empty_iff.mpr h)]

/-- A round that finds a byte. -/
theorem pipereadLoop_succ (h : s.pi.count ≠ 0) : pipereadLoop addr (k + 1) s =
    if s.mem.writable ((addr + s.i) % 2 ^ 64) = true then
      pipereadLoop addr k ⟨s.i + 1, s.pi.fetch.2,
        (copyout 1 s.mem ((addr + s.i) % 2 ^ 64) [s.pi.fetch.1]).1⟩
    else ⟨s.i, s.pi.fetch.2, (copyout 1 s.mem ((addr + s.i) % 2 ^ 64) [s.pi.fetch.1]).1⟩ := by
  rw [pipereadLoop, if_neg fun he => h (PipeState.empty_iff.mp he)]
  simp only [copyout_one]

/-- **The loop takes out what it counts** exactly if every byte it comes to may be stored. -/
theorem pipereadLoop_iff (addr : ℕ) : ∀ (k : ℕ) (s : PipeReader),
    (pipereadLoop addr k s).pi.nread + UInt32.ofNat s.i =
        s.pi.nread + UInt32.ofNat (pipereadLoop addr k s).i ↔
      ∀ j < min k s.pi.count, s.mem.writable ((addr + s.i + j) % 2 ^ 64) = true := by
  intro k
  induction k with
  | zero =>
    intro s
    simp [pipereadLoop]
  | succ k ih =>
    intro s
    by_cases hcount : s.pi.count = 0
    · rw [pipereadLoop_empty hcount, hcount]
      simp
    · have hfetch := PipeState.count_fetch hcount
      have hread : s.pi.fetch.2.nread = s.pi.nread + 1 := rfl
      rw [pipereadLoop_succ hcount]
      split
      · next hw =>
        have hloop := ih ⟨s.i + 1, s.pi.fetch.2,
          (copyout 1 s.mem ((addr + s.i) % 2 ^ 64) [s.pi.fetch.1]).1⟩
        generalize pipereadLoop addr k _ = r at hloop ⊢
        simp only [writable_copyout] at hloop
        have hone : UInt32.ofNat (s.i + 1) = UInt32.ofNat s.i + 1 := by
          rw [UInt32.ofNat_add]
          rfl
        have hshift : r.pi.nread + UInt32.ofNat s.i = s.pi.nread + UInt32.ofNat r.i ↔
            r.pi.nread + UInt32.ofNat (s.i + 1) = s.pi.fetch.2.nread + UInt32.ofNat r.i := by
          rw [hone, hread]
          constructor <;> intro h <;> grind
        rw [hshift, hloop]
        constructor
        · intro h j hj
          rcases j with _ | j
          · exact hw
          · have := h j (by omega)
            rwa [show addr + (s.i + 1) + j = addr + s.i + (j + 1) by omega] at this
        · intro h j hj
          have := h (j + 1) (by omega)
          rwa [show addr + s.i + (j + 1) = addr + (s.i + 1) + j by omega] at this
      · next hw =>
        -- the byte has been taken out and is not counted
        constructor
        · intro h
          rw [hread] at h
          exfalso
          have : (1 : UInt32) = 0 := by grind
          exact absurd this (by decide)
        · intro h
          exact absurd (h 0 (by omega)) hw

section Machine

open Function

variable {P : Type} [DecidableEq P] {p : P} {n : ℤ}

/-- The next round of a process that copies. -/
theorem steps_round {s : Pipes P} {i : ℕ} (hlock : s.lock = some p) (htask : s.task p = .copy n i)
    (copied : Bool) (rounds : List Bool) : s.steps ((copied :: rounds).map (Event.round p)) =
      (s.pipereadCopy p n i copied).steps (rounds.map (Event.round p)) := by
  simp [Pipes.steps, Pipes.step, hlock, htask]

/-- **The loop is a sequence of rounds** of a process that holds the lock of the pipe: it leaves
the same pipe, and counts the bytes that are delivered. -/
theorem pipereadLoop_steps (r : PipeReader) (s : Pipes P) :
    ∃ (rounds : List Bool) (t : Pipes P),
      ({ s with pi := r.pi, lock := some p }.setTask p (.copy n r.i)).steps
          (rounds.map (Event.round p)) = some t ∧
        t.pi = (pipereadLoop addr (n - r.i).toNat r).pi ∧
        t.delivered.length + r.i = s.delivered.length + (pipereadLoop addr (n - r.i).toNat r).i ∧
        t.lock = none ∧ t.task p = .out := by
  generalize hk : (n - r.i).toNat = k
  induction k generalizing r s with
  | zero =>
    -- the round that finds `i` equal to `n`
    refine ⟨[true], _, steps_round rfl (update_self ..) true [], ?_⟩
    rw [Pipes.pipereadCopy, if_neg fun h => by omega]
    exact ⟨rfl, rfl, rfl, update_self ..⟩
  | succ k ih =>
    by_cases hcount : r.pi.count = 0
    · rw [pipereadLoop_empty hcount]
      refine ⟨[true], _, steps_round rfl (update_self ..) true [], ?_⟩
      rw [Pipes.pipereadCopy, if_neg fun h => h.2 (PipeState.empty_iff.mpr hcount)]
      exact ⟨rfl, rfl, rfl, update_self ..⟩
    · have hround : (r.i : ℤ) < n ∧ ¬r.pi.Empty :=
        ⟨by omega, fun he => hcount (PipeState.empty_iff.mp he)⟩
      rw [pipereadLoop_succ hcount]
      split
      · -- a byte is delivered
        obtain ⟨rounds, t, hsteps, hpi, hlen, ht⟩ := ih ⟨r.i + 1, r.pi.fetch.2, _⟩
          { s with delivered := s.delivered ++ [r.pi.fetch.1] } (by push_cast; omega)
        refine ⟨true :: rounds, t, ?_, hpi, ?_, ht⟩
        · rw [steps_round rfl (update_self ..), Pipes.pipereadCopy, if_pos (by exact hround)]
          simpa [Pipes.setTask] using hsteps
        · simp only [List.length_append, List.length_singleton] at hlen
          omega
      · -- a byte is taken out and not delivered
        refine ⟨[false], _, steps_round rfl (update_self ..) false [], ?_⟩
        rw [Pipes.pipereadCopy, if_pos (by exact hround)]
        exact ⟨rfl, rfl, rfl, update_self ..⟩

end Machine

/-! ### What is taken out and what is returned -/

/-- If the call returns a number of bytes, it has taken as many out of the pipe. -/
def ConsumesReturned (killed : Bool) (addr : ℕ) (n : ℤ) (pi : PipeState) (mem : UserMem) : Prop :=
  ∀ i pi' mem', piperead killed addr n pi mem = some (i, pi', mem') → 0 ≤ i →
    pi'.nread = pi.nread + UInt32.ofNat i.toNat

/-- **A read takes out what it returns** exactly if the bytes that it can read, as many as
are asked for or as there are, may all be stored. -/
theorem consumesReturned_iff (killed : Bool) (addr : ℕ) (n : ℤ) (pi : PipeState) (mem : UserMem) :
    ConsumesReturned killed addr n pi mem ↔
      ∀ j < min n.toNat pi.count, mem.writable ((addr + j) % 2 ^ 64) = true := by
  have hloop := pipereadLoop_iff addr n.toNat ⟨0, pi, mem⟩
  simp only [Nat.add_zero] at hloop
  unfold ConsumesReturned piperead
  split
  · next hwait =>
    have hcount := PipeState.empty_iff.mp hwait.1
    refine ⟨fun _ j hj => by omega, fun _ i pi' mem' h hi => ?_⟩
    split at h
    · cases h
      omega
    · cases h
  · rw [← hloop]
    generalize pipereadLoop addr n.toNat _ = r
    constructor
    · intro h
      have := h r.i r.pi r.mem rfl (Int.natCast_nonneg _)
      simpa using this
    · intro h i pi' mem' hret hi
      cases hret
      simpa using h

/-- A pipe with the byte 1 in it. -/
def oneByte : PipeState := ⟨fun _ => 1, 0, 1, true, true⟩

/-- **A byte is lost**: a read of one byte to an address that is not mapped returns 0, and
the pipe is empty then. -/
theorem piperead_loses_byte : ¬ConsumesReturned false 0 1 oneByte fun _ => none := by
  intro h
  have := h 0 { oneByte with nread := 1 } (fun _ => none) rfl le_rfl
  exact absurd this (by decide)

end Xv6Ext2
