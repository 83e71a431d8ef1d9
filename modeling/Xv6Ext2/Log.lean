import Mathlib.Algebra.Order.BigOperators.Group.Finset
import Xv6Ext2.Fs

/-!
# Space in the log

`begin_op`, `log_write` and `end_op` of `kernel/log.c`, by any number of processes.  A
system call reserves room for `MAXOPBLOCKS` blocks when it begins; the blocks of all the
calls that overlap are committed together when the last one ends.

## Main definitions

* `Log` — `struct log`, with `Log.beginOp`, `Log.logWrite`, `Log.endOp`.
* `LogOps`, `LogEvent`, `LogOps.step` — the log with its processes, and what can happen.
* `LogRuns` — runs from an empty log.

## Main results

* `log_sufficient_of_runs` — **the log is large enough** for calls that log fewer than
  `MAXOPBLOCKS` blocks each, and a commit runs alone.
* `log_overflow` — three calls with `MAXOPBLOCKS` blocks each are too much.
-/

namespace Xv6Ext2

/-- The blocks a system call may write. -/
abbrev MAXOPBLOCKS : ℕ := 10

/-- The data blocks in the log on disk. -/
abbrev LOGSIZE : ℕ := MAXOPBLOCKS * 3

/-! ### The source functions -/

/-- `struct log`, without its lock.  `lh` holds the first `lh.n` entries of `lh.block`, the
only ones that are looked at. -/
structure Log where
  start : UInt32
  size : ℤ
  outstanding : ℤ
  committing : Bool
  lh : List UInt32

namespace Log

/-- A round of the loop of `begin_op`; `none` when the process has to sleep. -/
def beginOp (l : Log) : Option Log :=
  if l.committing then none
  else if LOGSIZE < l.lh.length + (l.outstanding + 1) * MAXOPBLOCKS then none
  else some { l with outstanding := l.outstanding + 1 }

/-- `log_write`, and whether the block is a new one, which is pinned. -/
def logWrite (l : Log) (b : UInt32) : Except Err (Log × Bool) :=
  if LOGSIZE ≤ l.lh.length ∨ l.size - 1 ≤ l.lh.length then .error (.panic "too big a transaction")
  else if l.outstanding < 1 then .error (.panic "log_write outside of trans")
  else if b ∈ l.lh then .ok (l, false)
  else .ok ({ l with lh := l.lh ++ [b] }, true)

/-- The first part of `end_op`, and whether the process has to commit. -/
def endOp (l : Log) : Except Err (Log × Bool) :=
  let l := { l with outstanding := l.outstanding - 1 }
  if l.committing then .error (.panic "log.committing")
  else if l.outstanding = 0 then .ok ({ l with committing := true }, true)
  else .ok (l, false)

end Log

/-! ### Processes -/

/-- Where a process is: outside, in `begin_op` about to look at the log or asleep, between
`begin_op` and `end_op` with the blocks it has logged, in `commit`, or after it. -/
inductive OpState
  | idle
  | begin
  | asleep
  | active (blocks : Finset UInt32)
  | commit
  | committed

/-- The blocks a process has logged when it logs one more. -/
def OpState.logged (b : UInt32) : OpState → Finset UInt32
  | active bs => insert b bs
  | _ => ∅

/-- The log and the processes. -/
structure LogOps (P : Type) where
  log : Log
  op : P → OpState

/-- What can happen. -/
inductive LogEvent (P : Type)
  | call (p : P)
  | beginOp (p : P)
  | logWrite (p : P) (b : UInt32)
  | endOp (p : P)
  | commit (p : P)
  | finish (p : P)

variable {P : Type} [DecidableEq P]

namespace LogOps

/-- The log and the place of one process change. -/
def set (s : LogOps P) (l : Log) (p : P) (o : OpState) : LogOps P :=
  ⟨l, Function.update s.op p o⟩

/-- `wakeup(&log)` -/
def wakeup (s : LogOps P) : LogOps P :=
  { s with op := fun p => match s.op p with
    | .asleep => .begin
    | o => o }

/-- The outcome of an event, if it can happen. -/
def step (s : LogOps P) : LogEvent P → Option (Except Err (LogOps P))
  | .call p =>
    match s.op p with
    | .idle => some (.ok (s.set s.log p .begin))
    | _ => none
  | .beginOp p =>
    match s.op p with
    | .begin =>
      match s.log.beginOp with
      | none => some (.ok (s.set s.log p .asleep))
      | some l => some (.ok (s.set l p (.active ∅)))
    | _ => none
  | .logWrite p b =>
    match s.op p with
    | .active bs => some ((s.log.logWrite b).map fun r => s.set r.1 p (.active (insert b bs)))
    | _ => none
  | .endOp p =>
    match s.op p with
    | .active _ => some (s.log.endOp.map fun r =>
      if r.2 then s.set r.1 p .commit else (s.set r.1 p .idle).wakeup)
    | _ => none
  | .commit p =>
    -- `commit()` runs without the lock, and ends with `log.lh.n = 0`
    match s.op p with
    | .commit => some (.ok (s.set { s.log with lh := [] } p .committed))
    | _ => none
  | .finish p =>
    match s.op p with
    | .committed => some (.ok (s.set { s.log with committing := false } p .idle).wakeup)
    | _ => none

/-- The log after `initlog`, with `log.size = n`. -/
def init (start : UInt32) (n : ℤ) : LogOps P := ⟨⟨start, n, 0, false, []⟩, fun _ => .idle⟩

/-- A system call logs at most `n` distinct blocks. -/
def Within (n : ℕ) (s : LogOps P) : LogEvent P → Prop
  | .logWrite p b => ((s.op p).logged b).card ≤ n
  | _ => True

end LogOps

/-- Runs from an empty log of `LOGSIZE` blocks in which all events are allowed ones. -/
inductive LogRuns (Allowed : LogOps P → LogEvent P → Prop) : LogOps P → Prop
  | init (start : UInt32) : LogRuns Allowed (LogOps.init start LOGSIZE)
  | step {s t : LogOps P} (hruns : LogRuns Allowed s) (e : LogEvent P) (hallowed : Allowed s e)
    (hstep : s.step e = some (.ok t)) : LogRuns Allowed t

/-! ### The invariant -/

namespace LogOps

/-- What is known of a process from where it is, when `A` are the processes between
`begin_op` and `end_op`. -/
def Place (l : Log) (A : Finset P) (p : P) : OpState → Prop
  | .active bs => p ∈ A ∧ bs ⊆ l.lh.toFinset ∧ bs.card < MAXOPBLOCKS
  | .commit => p ∉ A ∧ l.committing = true
  | .committed => p ∉ A ∧ l.committing = true ∧ l.lh = []
  | _ => p ∉ A

/-- In `commit`, or after it. -/
def Commits : OpState → Prop
  | .commit | .committed => True
  | _ => False

/-- What a process may still log. -/
def left : OpState → ℕ
  | .active bs => MAXOPBLOCKS - 1 - bs.card
  | _ => 0

/-- The invariant.  With two calls or more there is room for two blocks that are never
used. -/
structure Inv (s : LogOps P) (A : Finset P) : Prop where
  place : ∀ p, Place s.log A p (s.op p)
  outstanding : s.log.outstanding = A.card
  size : s.log.size = LOGSIZE
  room : s.log.lh.length + ∑ p ∈ A, left (s.op p) ≤ LOGSIZE - 2
  alone : ∀ p q, Commits (s.op p) → Commits (s.op q) → p = q
  quiet : s.log.committing = true → A = ∅
  empty : s.log.committing = false → A = ∅ → s.log.lh = []

variable {s t : LogOps P} {A : Finset P} {p : P}

theorem set_op_self (l : Log) (o : OpState) : (s.set l p o).op p = o := Function.update_self ..

theorem set_op_of_ne (l : Log) (o : OpState) {q : P} (hq : q ≠ p) : (s.set l p o).op q = s.op q :=
  Function.update_of_ne hq ..

omit [DecidableEq P] in
theorem Inv.mem_of_active (h : s.Inv A) {bs : Finset UInt32} (hp : s.op p = .active bs) :
    p ∈ A ∧ bs ⊆ s.log.lh.toFinset ∧ bs.card < MAXOPBLOCKS := by
  have hplace := h.place p
  rw [hp] at hplace
  exact hplace

omit [DecidableEq P] in
theorem Inv.not_committing (h : s.Inv A) (hp : p ∈ A) : s.log.committing = false := by
  rw [Bool.eq_false_iff]
  intro hc
  rw [h.quiet hc] at hp
  exact absurd hp (Finset.notMem_empty p)

omit [DecidableEq P] in
/-- Somebody in `commit` has set `committing`. -/
theorem Inv.committing_of_commits (h : s.Inv A) (hp : Commits (s.op p)) :
    s.log.committing = true := by
  have hplace := h.place p
  rcases ho : s.op p with _ | _ | _ | _ | _ | _ <;> rw [ho] at hp hplace
  case commit => exact hplace.2
  case committed => exact hplace.2.1
  all_goals cases hp

omit [DecidableEq P] in
/-- While a call is outstanding, nobody is in `commit`. -/
theorem Inv.not_commits (h : s.Inv A) (hc : s.log.committing = false) (p : P) :
    ¬Commits (s.op p) := fun hp =>
  absurd (hc.symm.trans (h.committing_of_commits hp)) (by decide)

omit [DecidableEq P] in
theorem Inv.wakeup (h : s.Inv A) : s.wakeup.Inv A := by
  have hop : ∀ p, s.wakeup.op p = s.op p ∨ s.wakeup.op p = .begin ∧ s.op p = .asleep := by
    intro p
    simp only [LogOps.wakeup]
    split
    · next hp => exact Or.inr ⟨rfl, hp⟩
    · exact Or.inl rfl
  have hcommits : ∀ p, Commits (s.wakeup.op p) → Commits (s.op p) := by
    intro p hp
    rcases hop p with heq | ⟨heq, -⟩
    · rwa [heq] at hp
    · rw [heq] at hp
      cases hp
  constructor
  · intro p
    have hplace := h.place p
    rcases hop p with heq | ⟨heq, hs⟩
    · rw [heq]
      exact hplace
    · rw [heq]
      rw [hs] at hplace
      exact hplace
  · exact h.outstanding
  · exact h.size
  · have hleft : ∀ p, left (s.wakeup.op p) = left (s.op p) := by
      intro p
      rcases hop p with heq | ⟨heq, hs⟩
      · rw [heq]
      · rw [heq, hs]
        rfl
    simp only [hleft]
    exact h.room
  · exact fun p q hp hq => h.alone p q (hcommits p hp) (hcommits q hq)
  · exact h.quiet
  · exact h.empty

/-- **A process moves on.**  The others stay where they are; what has to be checked is the
new place, that the others' places are still right, and the space. -/
theorem Inv.set (h : s.Inv A) {l : Log} {o : OpState} {A' : Finset P} (hp : Place l A' p o)
    (hA : ∀ q, q ≠ p → (q ∈ A' ↔ q ∈ A)) (hlh : ∀ q ∈ A', q ≠ p → s.log.lh ⊆ l.lh)
    (hout : l.outstanding = A'.card) (hsize : l.size = LOGSIZE)
    (hroom : l.lh.length + ∑ q ∈ A', left ((s.set l p o).op q) ≤ LOGSIZE - 2)
    (hcommits : Commits o → ∀ q, Commits (s.op q) → q = p)
    (hcommitting : ∀ q, q ≠ p → Commits (s.op q) → l.committing = true ∧
      (s.log.lh = [] → l.lh = []))
    (hquiet : l.committing = true → A' = ∅) (hempty : l.committing = false → A' = ∅ → l.lh = []) :
    (s.set l p o).Inv A' := by
  constructor
  · intro q
    by_cases hq : q = p
    · subst hq
      rw [set_op_self]
      exact hp
    · have hplace := h.place q
      rw [set_op_of_ne l o hq]
      show Place l A' q (s.op q)
      rcases ho : s.op q with _ | _ | _ | bs | _ | _ <;> rw [ho] at hplace
      case active =>
        have hmem := (hA q hq).mpr hplace.1
        refine ⟨hmem, fun b hb => ?_, hplace.2.2⟩
        exact List.mem_toFinset.mpr (hlh q hmem hq (List.mem_toFinset.mp (hplace.2.1 hb)))
      case commit =>
        have hc := hcommitting q hq (by rw [ho]; trivial)
        exact ⟨fun hmem => hplace.1 ((hA q hq).mp hmem), hc.1⟩
      case committed =>
        have hc := hcommitting q hq (by rw [ho]; trivial)
        exact ⟨fun hmem => hplace.1 ((hA q hq).mp hmem), hc.1, hc.2 hplace.2.2⟩
      all_goals exact fun hmem => hplace ((hA q hq).mp hmem)
  · exact hout
  · exact hsize
  · exact hroom
  · intro q r hq hr
    by_cases hqp : q = p
    · by_cases hrp : r = p
      · exact hqp.trans hrp.symm
      · subst hqp
        rw [set_op_self] at hq
        rw [set_op_of_ne l o hrp] at hr
        exact (hcommits hq r hr).symm
    · rw [set_op_of_ne l o hqp] at hq
      by_cases hrp : r = p
      · subst hrp
        rw [set_op_self] at hr
        exact hcommits hr q hq
      · rw [set_op_of_ne l o hrp] at hr
        exact h.alone q r hq hr
  · exact hquiet
  · exact hempty

/-- The other processes may log what they could before. -/
theorem sum_left_set (l : Log) (o : OpState) {A : Finset P} (hp : p ∉ A) :
    ∑ q ∈ A, left ((s.set l p o).op q) = ∑ q ∈ A, left (s.op q) :=
  Finset.sum_congr rfl fun q hq => by rw [set_op_of_ne l o (ne_of_mem_of_not_mem hq hp)]

/-- A process that stays outside of a system call. -/
theorem Inv.move (h : s.Inv A) (hp : p ∉ A) {o : OpState} (ho : o = .begin ∨ o = .asleep) :
    (s.set s.log p o).Inv A := by
  have hnot : ¬Commits o := by rcases ho with rfl | rfl <;> exact id
  have hplace : Place s.log A p o := by rcases ho with rfl | rfl <;> exact hp
  apply h.set hplace (fun _ _ => Iff.rfl) (fun _ _ _ => List.Subset.refl _) h.outstanding h.size
  · rw [sum_left_set _ _ hp]
    exact h.room
  · exact fun hc => absurd hc hnot
  · exact fun q _ hq => ⟨h.committing_of_commits hq, id⟩
  · exact h.quiet
  · exact h.empty

/-- **Reserving space.**  The first call has all of the log to itself; with more calls, each
of them has a block more than it may use. -/
theorem Inv.beginOp (h : s.Inv A) (hp : s.op p = .begin) {l : Log} (hl : s.log.beginOp = some l) :
    (s.set l p (.active ∅)).Inv (insert p A) := by
  have hpA : p ∉ A := by
    have hplace := h.place p
    rw [hp] at hplace
    exact hplace
  unfold Log.beginOp at hl
  split at hl
  · cases hl
  · next hcommitting =>
    split at hl
    · cases hl
    · next hroom =>
      cases hl
      have hcommitting : s.log.committing = false := Bool.eq_false_iff.mpr hcommitting
      rw [h.outstanding] at hroom
      refine h.set ⟨Finset.mem_insert_self p A, Finset.empty_subset _, by decide⟩ (fun q hq => ?_)
        (fun _ _ _ => List.Subset.refl _) ?_ h.size ?_ (fun hc => by cases hc)
        (fun q _ hq => absurd hq (h.not_commits hcommitting q)) (fun hc => ?_)
        fun _ hA => absurd hA (Finset.insert_ne_empty p A)
      · rw [Finset.mem_insert, or_iff_right hq]
      · show s.log.outstanding + 1 = _
        rw [Finset.card_insert_of_notMem hpA, h.outstanding]
        rfl
      · rw [Finset.sum_insert hpA, sum_left_set _ _ hpA, set_op_self]
        show s.log.lh.length + (MAXOPBLOCKS - 1 + _) ≤ _
        have hsum : ∑ q ∈ A, left (s.op q) ≤ A.card * (MAXOPBLOCKS - 1) := by
          refine Finset.sum_le_card_nsmul A _ _ fun q _ => ?_
          unfold left
          split
          · exact Nat.sub_le _ _
          · exact Nat.zero_le _
        rcases Finset.eq_empty_or_nonempty A with hA | hA
        · rw [h.empty hcommitting hA, hA]
          show 0 + (MAXOPBLOCKS - 1 + 0) ≤ LOGSIZE - 2
          decide
        · have hpos := hA.card_pos
          simp only [LOGSIZE, MAXOPBLOCKS] at *
          omega
      · exact absurd (hcommitting.symm.trans hc) (by decide)

omit [DecidableEq P] in
/-- There is room in the log for every block that may be logged. -/
theorem Inv.logWrite_ok (h : s.Inv A) (hp : p ∈ A) (b : UInt32) :
    s.log.logWrite b =
      .ok (if b ∈ s.log.lh then (s.log, false)
        else ({ s.log with lh := s.log.lh ++ [b] }, true)) := by
  have hroom := h.room
  have hpos : 0 < A.card := Finset.card_pos.mpr ⟨p, hp⟩
  unfold Log.logWrite
  rw [if_neg, if_neg]
  · split <;> rfl
  · rw [h.outstanding]
    omega
  · rw [h.size]
    simp only [LOGSIZE, MAXOPBLOCKS] at *
    omega

theorem Inv.logWrite (h : s.Inv A) {bs : Finset UInt32} (hp : s.op p = .active bs) (b : UInt32)
    (hb : (insert b bs).card < MAXOPBLOCKS) {r : Log × Bool} (hr : s.log.logWrite b = .ok r) :
    (s.set r.1 p (.active (insert b bs))).Inv A := by
  obtain ⟨hpA, hsub, hcard⟩ := h.mem_of_active hp
  have hc := h.not_committing hpA
  rw [h.logWrite_ok hpA] at hr
  cases hr
  have hroom : s.log.lh.length + (MAXOPBLOCKS - 1 - bs.card + ∑ q ∈ A.erase p, left (s.op q)) ≤
      LOGSIZE - 2 := by
    have hroom := h.room
    rw [← Finset.add_sum_erase A _ hpA, hp] at hroom
    exact hroom
  have hne : ∀ B : Finset P, p ∈ B → B ≠ ∅ := fun B hB h0 => absurd hB (h0 ▸ Finset.notMem_empty p)
  -- the other calls may log what they could before
  have hsum : ∀ l, ∑ q ∈ A, left ((s.set l p (.active (insert b bs))).op q) =
      MAXOPBLOCKS - 1 - (insert b bs).card + ∑ q ∈ A.erase p, left (s.op q) := by
    intro l
    rw [← Finset.add_sum_erase A _ hpA, set_op_self, sum_left_set _ _ (Finset.notMem_erase p A)]
    rfl
  split
  · next hmem =>
    -- absorbed by a block that is in the log
    refine h.set ⟨hpA, Finset.insert_subset (List.mem_toFinset.mpr hmem) hsub, hb⟩
      (fun _ _ => Iff.rfl) (fun _ _ _ => List.Subset.refl _) h.outstanding h.size ?_
      (fun hc => by cases hc) (fun q _ hq => absurd hq (h.not_commits hc q)) h.quiet h.empty
    rw [hsum]
    have hle := Finset.card_le_card (Finset.subset_insert b bs)
    dsimp only
    omega
  · next hmem =>
    have hnew : b ∉ bs := fun hbs => hmem (List.mem_toFinset.mp (hsub hbs))
    refine h.set ⟨hpA, Finset.insert_subset (by simp) fun x hx => ?_, hb⟩
      (fun _ _ => Iff.rfl) (fun _ _ _ => List.subset_append_left _ _) h.outstanding h.size ?_
      (fun hc => by cases hc) (fun q _ hq => absurd hq (h.not_commits hc q)) h.quiet
      fun _ hA => absurd hA (hne A hpA)
    · rw [List.mem_toFinset, List.mem_append]
      exact Or.inl (List.mem_toFinset.mp (hsub hx))
    · rw [hsum]
      rw [Finset.card_insert_of_notMem hnew] at hb ⊢
      rw [List.length_append, List.length_singleton]
      omega

/-- The last call to end commits. -/
theorem Inv.endOp (h : s.Inv A) {bs : Finset UInt32} (hp : s.op p = .active bs) :
    ∃ r, s.log.endOp = .ok r ∧
      (if r.2 then s.set r.1 p .commit else (s.set r.1 p .idle).wakeup).Inv (A.erase p) := by
  obtain ⟨hpA, -, -⟩ := h.mem_of_active hp
  have hc := h.not_committing hpA
  have hcard : ((A.erase p).card : ℤ) = s.log.outstanding - 1 := by
    rw [h.outstanding, ← Finset.card_erase_add_one hpA]
    push_cast
    ring
  have hroom : s.log.lh.length + ∑ q ∈ A.erase p, left (s.op q) ≤ LOGSIZE - 2 := by
    have hroom := h.room
    rw [← Finset.add_sum_erase A _ hpA] at hroom
    omega
  have hmem : ∀ q, q ≠ p → (q ∈ A.erase p ↔ q ∈ A) := fun q hq => by
    rw [Finset.mem_erase, and_iff_right hq]
  unfold Log.endOp
  simp only [hc, Bool.false_eq_true, if_false]
  split
  · next h0 =>
    refine ⟨_, rfl, ?_⟩
    have hA : A.erase p = ∅ := by
      rw [← Finset.card_eq_zero]
      exact_mod_cast hcard.trans h0
    refine h.set ⟨Finset.notMem_erase p A, rfl⟩ hmem (fun _ _ _ => List.Subset.refl _) hcard.symm
      h.size ?_ (fun _ q hq => absurd hq (h.not_commits hc q))
      (fun q _ hq => absurd hq (h.not_commits hc q)) (fun _ => hA) fun hf => by cases hf
    rw [sum_left_set _ _ (Finset.notMem_erase p A)]
    exact hroom
  · next h0 =>
    refine ⟨_, rfl, Inv.wakeup ?_⟩
    refine h.set (Finset.notMem_erase p A) hmem (fun _ _ _ => List.Subset.refl _) hcard.symm
      h.size ?_ (fun hc => by cases hc) (fun q _ hq => absurd hq (h.not_commits hc q))
      (fun hf => by cases hf) fun _ hA => ?_
    · rw [sum_left_set _ _ (Finset.notMem_erase p A)]
      exact hroom
    · rw [hA] at hcard
      exact absurd hcard.symm h0

theorem Inv.commit (h : s.Inv A) (hp : s.op p = .commit) :
    (s.set { s.log with lh := [] } p .committed).Inv A := by
  have hplace := h.place p
  rw [hp] at hplace
  have hA := h.quiet hplace.2
  refine h.set ⟨hplace.1, hplace.2, rfl⟩ (fun _ _ => Iff.rfl) (fun q hq => ?_) h.outstanding h.size
    ?_ (fun _ q hq => h.alone q p hq (by rw [hp]; trivial)) (fun _ _ _ => ⟨hplace.2, fun _ => rfl⟩)
    h.quiet fun _ _ => rfl
  · rw [hA] at hq
    exact absurd hq (Finset.notMem_empty q)
  · rw [hA]
    exact Nat.zero_le _

theorem Inv.finish (h : s.Inv A) (hp : s.op p = .committed) :
    (s.set { s.log with committing := false } p .idle).wakeup.Inv A := by
  have hplace := h.place p
  rw [hp] at hplace
  apply Inv.wakeup
  refine h.set hplace.1 (fun _ _ => Iff.rfl) (fun _ _ _ => List.Subset.refl _) h.outstanding h.size
    ?_ (fun hc => by cases hc) (fun q hq hcq => ?_) (fun hf => by cases hf) fun _ _ => hplace.2.2
  · rw [sum_left_set _ _ hplace.1]
    exact h.room
  · exact absurd (h.alone q p hcq (by rw [hp]; trivial)) hq

/-- **No event panics**, and all of them keep the invariant. -/
theorem Inv.step (h : s.Inv A) {e : LogEvent P} (he : s.Within (MAXOPBLOCKS - 1) e)
    {r : Except Err (LogOps P)} (hr : s.step e = some r) : ∃ t B, r = .ok t ∧ t.Inv B := by
  cases e with
  | call p =>
    simp only [LogOps.step] at hr
    split at hr
    · next hp =>
      cases hr
      have hplace := h.place p
      rw [hp] at hplace
      exact ⟨_, A, rfl, h.move hplace (Or.inl rfl)⟩
    · cases hr
  | beginOp p =>
    simp only [LogOps.step] at hr
    split at hr
    · next hp =>
      split at hr
      · cases hr
        have hplace := h.place p
        rw [hp] at hplace
        exact ⟨_, A, rfl, h.move hplace (Or.inr rfl)⟩
      · next l hl =>
        cases hr
        exact ⟨_, _, rfl, h.beginOp hp hl⟩
    · cases hr
  | logWrite p b =>
    simp only [LogOps.step] at hr
    split at hr
    · next bs hp =>
      cases hr
      have hlog := h.logWrite_ok (h.mem_of_active hp).1 b
      have hcard : (insert b bs).card < MAXOPBLOCKS := by
        simp only [Within, hp, OpState.logged] at he
        exact Nat.lt_of_le_sub_one (by decide) he
      rw [hlog]
      exact ⟨_, A, rfl, h.logWrite hp b hcard hlog⟩
    · cases hr
  | endOp p =>
    simp only [LogOps.step] at hr
    split at hr
    · next bs hp =>
      cases hr
      obtain ⟨r, hr, hinv⟩ := h.endOp hp
      rw [hr]
      exact ⟨_, _, rfl, hinv⟩
    · cases hr
  | commit p =>
    simp only [LogOps.step] at hr
    split at hr
    · next hp =>
      cases hr
      exact ⟨_, A, rfl, h.commit hp⟩
    · cases hr
  | finish p =>
    simp only [LogOps.step] at hr
    split at hr
    · next hp =>
      cases hr
      exact ⟨_, A, rfl, h.finish hp⟩
    · cases hr

end LogOps

/-! ### Runs -/

/-- **The log is large enough** for calls that log fewer than `MAXOPBLOCKS` blocks: in every
state of every run of them no event panics, and a commit runs alone. -/
theorem log_sufficient_of_runs {s : LogOps P} (h : LogRuns (LogOps.Within (MAXOPBLOCKS - 1)) s) :
    (∀ e, s.Within (MAXOPBLOCKS - 1) e → ∀ err, s.step e ≠ some (.error err)) ∧
      ∀ p, s.op p = .commit → s.log.outstanding = 0 ∧ ∀ q bs, s.op q ≠ .active bs := by
  have hinv : ∃ A, s.Inv A := by
    induction h with
    | init start =>
      refine ⟨∅, fun p => Finset.notMem_empty p, rfl, rfl, Nat.zero_le _, fun p q hp => ?_, ?_, ?_⟩
      · cases hp
      · exact fun _ => rfl
      · exact fun _ _ => rfl
    | step _ e he hstep ih =>
      obtain ⟨A, hA⟩ := ih
      obtain ⟨t, B, ht, hB⟩ := hA.step he hstep
      cases ht
      exact ⟨B, hB⟩
  obtain ⟨A, hA⟩ := hinv
  constructor
  · intro e he err herr
    obtain ⟨t, B, ht, -⟩ := hA.step he herr
    cases ht
  · intro p hp
    have hempty := hA.quiet
      (hA.committing_of_commits (by rw [hp]; trivial : LogOps.Commits (s.op p)))
    refine ⟨by rw [hA.outstanding, hempty]; rfl, fun q bs hq => ?_⟩
    have hmem := (hA.mem_of_active hq).1
    rw [hempty] at hmem
    exact Finset.notMem_empty q hmem

instance (n : ℕ) (s : LogOps P) : ∀ e, Decidable (s.Within n e)
  | .logWrite p b => inferInstanceAs (Decidable (((s.op p).logged b).card ≤ n))
  | .call _ | .beginOp _ | .endOp _ | .commit _ | .finish _ => inferInstanceAs (Decidable True)

/-- A list of events, in which calls log at most `n` blocks. -/
def LogOps.steps (n : ℕ) (s : LogOps P) : List (LogEvent P) → Option (LogOps P)
  | [] => some s
  | e :: es =>
    if s.Within n e then
      match s.step e with
      | some (.ok t) => t.steps n es
      | _ => none
    else none

theorem LogRuns.steps {n : ℕ} : ∀ (es : List (LogEvent P)) {s t : LogOps P},
    LogRuns (LogOps.Within n) s → s.steps n es = some t → LogRuns (LogOps.Within n) t := by
  intro es
  induction es with
  | nil =>
    intro s t h hsteps
    cases hsteps
    exact h
  | cons e es ih =>
    intro s t h hsteps
    simp only [LogOps.steps] at hsteps
    split at hsteps
    · next he =>
      split at hsteps
      · next u hu => exact ih (h.step e he hu) hsteps
      · cases hsteps
    · cases hsteps

/-- Three processes begin, and each logs `n` blocks of its own. -/
def threeCalls (n : ℕ) : List (LogEvent (Fin 3)) :=
  [.call 0, .call 1, .call 2, .beginOp 0, .beginOp 1, .beginOp 2] ++
    (List.finRange 3).flatMap fun p =>
      (List.range n).map fun i => .logWrite p (UInt32.ofNat (100 * p + i))

/-- Three calls log 9 blocks each, and end. -/
theorem log_sufficient_threeCalls : ∃ s : LogOps (Fin 3),
    (LogRuns (LogOps.Within (MAXOPBLOCKS - 1)) s ∧ s.log.lh.length = 27 ∧ s.op 2 = .commit) ∧
      s.log.outstanding = 0 := by
  have hrun : ((LogOps.init 2 LOGSIZE).steps (MAXOPBLOCKS - 1)
      (threeCalls 9 ++ [.endOp 0, .endOp 1, .endOp 2])).map
        (fun s => (s.log.lh.length, match s.op 2 with | .commit => true | _ => false)) =
      some (27, true) := by decide +kernel
  obtain ⟨s, hs, hfields⟩ := Option.map_eq_some_iff.mp hrun
  injection hfields with hlen hop
  have hop : s.op 2 = .commit := by
    split at hop
    · assumption
    · cases hop
  have hruns := LogRuns.steps _ (LogRuns.init 2) hs
  exact ⟨s, ⟨hruns, hlen, hop⟩, ((log_sufficient_of_runs hruns).2 2 hop).1⟩

/-- **Three calls that log 10 blocks each** do not fit: the last block of the last one makes
`log_write` panic. -/
theorem log_overflow : ∃ s : LogOps (Fin 3), LogRuns (LogOps.Within MAXOPBLOCKS) s ∧
    s.Within MAXOPBLOCKS (.logWrite 2 209) ∧
      s.step (.logWrite 2 209) = some (.error (.panic "too big a transaction")) := by
  have hrun : ((LogOps.init 2 LOGSIZE).steps MAXOPBLOCKS (threeCalls 10).dropLast).map
      (fun s => (s.log.lh.length, s.log.size, match s.op 2 with
        | .active bs => (insert 209 bs).card
        | _ => 0)) = some (29, 30, 10) := by decide +kernel
  obtain ⟨s, hs, hfields⟩ := Option.map_eq_some_iff.mp hrun
  injection hfields with hlen hfields
  injection hfields with hsize hop
  split at hop
  · next bs hbs =>
    refine ⟨s, LogRuns.steps _ (LogRuns.init 2) hs, ?_, ?_⟩
    · simp only [LogOps.Within, hbs, OpState.logged]
      exact hop.le
    · have hfull : s.log.logWrite 209 = .error (.panic "too big a transaction") :=
        if_pos (Or.inr (by rw [hlen, hsize]; decide))
      simp only [LogOps.step, hbs, hfull]
      rfl
  · cases hop

end Xv6Ext2
