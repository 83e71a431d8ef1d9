import Xv6Ext2.Proc.Reap

/-!
# Killing

`kill` looks for a process by its `pid` and does not ask whether the slot is in use.  A slot
that is UNUSED has `pid` 0, and `allocproc` does not clear `p->killed`, so `kill(0)` returns 0
and marks a process that does not exist yet.  With any other `pid` it finds only processes that
are in use.

## Main definitions

* `killedSince` — the `pid` with which a process has been killed since it was allocated.
* `Call.Named` — calls other than `kill(0)` and `setkilled`, which only `usertrap` makes.
* `RunsBy` — runs with such calls only.
* `KillsLive` — the invariant.

## Main results

* `KillsLive.legal` — every transition keeps it, if kills name a process.
* `kill_reaches_live_of_runs` — **a kill reaches only a live process** in runs without `kill(0)`.
* `kill_zero_marks_unused` — `kill(0)`, and a child that starts out killed.
-/

namespace Xv6Ext2.Smp

open Function

variable {m n : ℕ} {init : Fin n}

/-- The `pid` with which `q` has been killed since it was last allocated. -/
def killedSince : List (Note n) → Fin n → Option ℤ
  | [], _ => none
  | .killed pid p _ :: l, q => if q = p then some pid else killedSince l q
  | .allocated p _ :: l, q => if q = p then none else killedSince l q
  | .exited _ _ _ :: l, q => killedSince l q
  | .reaped _ _ _ _ :: l, q => killedSince l q

/-- A slot that is UNUSED is not killed, `kill` has found processes that were in use and had
the `pid` it was given, and a process that is killed has been named since it was allocated. -/
structure KillsLive (d : Data m n) : Prop where
  unused : ∀ q, (d.proc q).state = .unused → (d.proc q).pid = 0 ∧ (d.proc q).killed = false
  found : ∀ pid q r, .killed pid q r ∈ d.log → r.state ≠ .unused ∧ r.pid = pid
  named : ∀ q, (d.proc q).killed = true → killedSince d.log q = some ((d.proc q).pid : ℤ)

/-! ### Transitions -/

/-- What code without `kill(0)` and `setkilled` may do to the marks. -/
structure Marks (d d' : Data m n) : Prop where
  pid : ∀ pid q r, d'.log = .killed pid q r :: d.log → pid ≠ 0
  flag : d'.log = d.log → ∀ q, (d'.proc q).killed = true → (d.proc q).killed = true

section Legal

variable {σ : Slot m n} {c : Fin m} {d d' : Data m n} {v v' : View n}

namespace KillsLive

/-- An assignment that does not mark the process and does not free it. -/
theorem set (h : KillsLive d) {q : Fin n} {r : Proc n} (hpid : r.pid = (d.proc q).pid)
    (hkilled : r.killed = (d.proc q).killed) (hstate : r.state = .unused → (d.proc q).state =
      .unused) :
    KillsLive (d.set q r) where
  unused x hx := by
    by_cases hxq : x = q
    · subst hxq
      simp only [Data.proc_set, update_self] at hx ⊢
      rw [hpid, hkilled]
      exact h.unused x (hstate hx)
    · simp only [Data.proc_set, update_of_ne hxq] at hx ⊢
      exact h.unused x hx
  found := h.found
  named x hx := by
    by_cases hxq : x = q
    · subst hxq
      simp only [Data.proc_set, update_self] at hx ⊢
      rw [hpid]
      exact h.named x (hkilled ▸ hx)
    · simp only [Data.proc_set, update_of_ne hxq] at hx ⊢
      exact h.named x hx

/-- `freeproc` -/
theorem free (h : KillsLive d) (q : Fin n) : KillsLive (d.set q (d.proc q).free) where
  unused x hx := by
    by_cases hxq : x = q
    · subst hxq
      simp [Proc.free]
    · simp only [Data.proc_set, update_of_ne hxq] at hx ⊢
      exact h.unused x hx
  found := h.found
  named x hx := by
    by_cases hxq : x = q
    · subst hxq
      simp [Proc.free] at hx
    · simp only [Data.proc_set, update_of_ne hxq] at hx ⊢
      exact h.named x hx

/-- Notes about exits. -/
theorem note (h : KillsLive d) {x : Note n} (hx : ∀ pid q r, x ≠ .killed pid q r)
    (hsince : ∀ q, killedSince (x :: d.log) q = killedSince d.log q) : KillsLive (d.note x) where
  unused := h.unused
  found pid q r hmem := by
    rcases List.mem_cons.mp hmem with rfl | hmem
    · exact absurd rfl (hx pid q r)
    · exact h.found pid q r hmem
  named q hq := (hsince q).trans (h.named q hq)

/-- `allocproc` takes a slot that is not marked. -/
theorem alloc (h : KillsLive d) {q : Fin n} (hq : (d.proc q).state = .unused) (pid : ℕ) :
    KillsLive ((d.set q { d.proc q with pid := pid, state := .used }).note (.allocated q pid)) where
  unused x hx := by
    by_cases hxq : x = q
    · subst hxq
      simp at hx
    · simp only [Data.proc_note, Data.proc_set, update_of_ne hxq] at hx ⊢
      exact h.unused x hx
  found pid q r hmem := by
    rcases List.mem_cons.mp hmem with heq | hmem
    · cases heq
    · exact h.found pid q r hmem
  named x hx := by
    show (if x = q then none else killedSince d.log x) = _
    by_cases hxq : x = q
    · subst hxq
      simp [(h.unused x hq).2] at hx
    · simp only [Data.proc_note, Data.proc_set, update_of_ne hxq] at hx ⊢
      rw [if_neg hxq]
      exact h.named x hx

/-- **A kill with a `pid` other than 0 finds a process in use.** -/
theorem kill (h : KillsLive d) {q : Fin n} {pid : ℤ} (hpid : (d.proc q).pid = pid) (hne : pid ≠ 0) :
    KillsLive ((d.set q (d.proc q).kill).note (.killed pid q (d.proc q))) := by
  have hlive : (d.proc q).state ≠ .unused := by
    intro hu
    rw [(h.unused q hu).1] at hpid
    exact hne hpid.symm
  refine ⟨fun x hx => ?_, fun pid' q' r hmem => ?_, fun x hx => ?_⟩
  · by_cases hxq : x = q
    · subst hxq
      simp only [Data.proc_note, Data.proc_set, update_self] at hx
      rcases (d.proc x).kill_cases with hsame | ⟨-, hnew⟩
      · exact absurd (hsame.symm.trans hx) hlive
      · rw [hx] at hnew
        cases hnew
    · simp only [Data.proc_note, Data.proc_set, update_of_ne hxq] at hx ⊢
      exact h.unused x hx
  · rcases List.mem_cons.mp hmem with heq | hmem
    · cases heq
      exact ⟨hlive, hpid⟩
    · exact h.found pid' q' r hmem
  · show (if x = q then some pid else killedSince d.log x) = _
    by_cases hxq : x = q
    · subst hxq
      rw [if_pos rfl, ← hpid]
      simp [Proc.kill]
    · simp only [Data.proc_note, Data.proc_set, update_of_ne hxq] at hx ⊢
      rw [if_neg hxq]
      exact h.named x hx

/-- **Every transition keeps it**, if kills name a process. -/
theorem legal (h : KillsLive d) (hl : Legal init σ c d v d' v') (hk : v.Knows σ c d)
    (hm : Marks d d') : KillsLive d' := by
  cases hl with
  | pid k => exact ⟨h.unused, h.found, h.named⟩
  | @setkilled q hlock =>
    -- the mark was there already
    have hold : (d.proc q).killed = true := hm.flag rfl q (by simp)
    exact h.set rfl hold.symm id
  | kill pid _ _ hpid => exact h.kill hpid (hm.pid pid _ _ rfl)
  | @visit q _ _ ch _ _ =>
    refine h.set ?_ ?_ fun hu => ?_
    · unfold Proc.wake
      split <;> rfl
    · unfold Proc.wake
      split <;> rfl
    · rcases (Proc.wake_cases ch (d.proc q)).1 with hsame | ⟨-, hnew⟩
      · exact hsame ▸ hu
      · rw [hu] at hnew
        cases hnew
  | alloc pid _ hmode _ => exact h.alloc (hk.locked _ _ hmode) pid
  | unalloc _ _ _ => exact h.free _
  | reap _ _ _ => exact (h.free _).note (fun _ _ _ heq => by cases heq) fun _ => rfl
  | publish _ _ _ => exact h.set rfl rfl fun hu => by cases hu
  | adopt _ _ _ _ _ => exact h.set rfl rfl id
  | reparent _ _ _ _ _ _ => exact h.set rfl rfl id
  | chan _ _ _ _ _ _ => exact h.set rfl rfl id
  | sleep _ _ _ _ => exact h.set rfl rfl fun hu => by cases hu
  | yield _ _ _ => exact h.set rfl rfl fun hu => by cases hu
  | @exit p status _ _ _ _ _ _ =>
    have hset : KillsLive (d.set p { d.proc p with xstate := status, state := .zombie }) :=
      h.set rfl rfl fun hu => by cases hu
    exact hset.note (fun _ _ _ heq => by cases heq) fun _ => rfl
  | run _ _ => exact h.set rfl rfl fun hu => by cases hu
  | enter _ _ => exact ⟨h.unused, h.found, h.named⟩
  | leave _ _ => exact ⟨h.unused, h.found, h.named⟩

end KillsLive

end Legal

/-! ### Code -/

/-- Calls other than `kill(0)` and `setkilled`. -/
def Call.Named : Call n → Prop
  | .kill pid => pid ≠ 0
  | .setkilled _ => False
  | _ => True

/-- An assignment that keeps to `Marks`. -/
def Assign.Named (g : Assign m n) : Prop := ∀ c d, Marks d (g c d)

section Named

variable {k : Code m n} {p : Fin n}

theorem named_of_log {g : Assign m n} (hlog : ∀ c d, (g c d).log = d.log)
    (hflag : ∀ c d q, ((g c d).proc q).killed = true → (d.proc q).killed = true) : g.Named := by
  refine fun c d => ⟨fun pid q r heq => ?_, fun _ => hflag c d⟩
  rw [hlog] at heq
  exact absurd heq (List.cons_ne_self _ _).symm

/-- A write that does not set the mark. -/
theorem named_proc (q : Fin n) {g : Proc n → Proc n}
    (hg : ∀ r, (g r).killed = true → r.killed = true) :
    (.proc q g : Assign m n).Named := by
  refine named_of_log (fun _ _ => rfl) fun c d x hx => ?_
  by_cases hxq : x = q
  · subst hxq
    exact hg _ (by simpa [Assign.proc] using hx)
  · simpa [Assign.proc, hxq] using hx

theorem named_write {q : Fin n} {g : Proc n → Proc n}
    (hg : ∀ r, (g r).killed = true → r.killed = true)
    (h : k.All Assign.Named) : (write q g k).All Assign.Named :=
  ⟨named_proc q hg, h⟩

/-- A write with a note that does not tell of `kill(0)`. -/
theorem named_writeNote {q : Fin n} {g : Proc n → Proc n} {x : Proc n → Note n}
    (hx : ∀ r pid q r', x r = .killed pid q r' → pid ≠ 0) (h : k.All Assign.Named) :
    (writeNote q g x k).All Assign.Named := by
  refine ⟨fun c d => ⟨fun pid q r heq => hx _ pid q r (List.cons.inj heq).1, fun heq => ?_⟩, h⟩
  exact absurd heq (List.cons_ne_self _ _)

theorem named_yield (h : k.All Assign.Named) : (yield k).All Assign.Named :=
  all_withProc fun _ => all_acquire (named_write (fun _ => id) (all_sched (all_release h)))

theorem named_forkret : (forkret : Code m n).All Assign.Named := all_withProc fun _ => trivial

theorem named_schedulerLoop (c : Fin m) (qs : List (Fin n)) :
    (schedulerLoop c qs).All Assign.Named := by
  have hcproc : ∀ x : Option (Fin n), Assign.Named fun (_ : Fin m) d => d.setCproc c x := fun _ =>
    named_of_log (fun _ _ => rfl) fun _ _ _ => id
  induction qs with
  | nil => trivial
  | cons q qs ih =>
    intro c' d
    dsimp only
    split
    · exact named_write (fun _ => id) ⟨hcproc _, hcproc _, ih⟩
    · exact ih

theorem named_wakeup {ch : Chan n} (h : k.All Assign.Named) : (wakeup ch k).All Assign.Named := by
  show (wakeupLoop ch (.wakeupEnd ch k) (List.finRange n)).All Assign.Named
  generalize List.finRange n = qs
  induction qs with
  | nil => exact h
  | cons q qs ih =>
    intro c d
    dsimp only
    split
    · exact ih
    · refine all_acquire (named_write (fun r hr => ?_) ih)
      unfold Proc.wake at hr
      split at hr <;> exact hr

theorem named_kill {pid : ℤ} (hpid : pid ≠ 0) : (kill pid : Code m n).All Assign.Named := by
  show (killLoop pid (List.finRange n) : Code m n).All Assign.Named
  generalize List.finRange n = qs
  induction qs with
  | nil => trivial
  | cons q qs ih =>
    intro c d
    dsimp only
    split
    · refine named_writeNote (fun r pid' q' r' heq => ?_) trivial
      cases heq
      exact hpid
    · exact ih

theorem named_fork (e : ForkEnv) : (fork e : Code m n).All Assign.Named := by
  have hfree : ∀ q : Fin n, (freeproc q <| .release (.proc q) .done : Code m n).All Assign.Named :=
    fun q => named_write (fun _ hr => by cases hr) trivial
  have hdups : ∀ {k : Code m n} (ls : List ℕ), k.All Assign.Named →
    (dups k ls).All Assign.Named := by
    intro k ls h
    induction ls with
    | nil => exact h
    | cons l ls ih => exact ih
  refine all_withProc fun p => ?_
  generalize List.finRange n = qs
  induction qs with
  | nil => trivial
  | cons q qs ih =>
    intro c d
    dsimp only
    split
    · intro c d
      refine ⟨named_of_log (fun _ _ => rfl) fun _ _ _ => id, all_release ?_⟩
      refine named_writeNote (fun r pid q r' heq => (by cases heq)) ?_
      split
      · exact hfree q
      · split
        · exact hfree q
        · refine ⟨named_forkret, ?_⟩
          split
          · exact hfree q
          · exact hdups _ (all_release (all_acquire (named_write (fun _ => id) (all_release
              (all_acquire (named_write (fun _ => id) trivial))))))
    · exact ih

theorem named_exit (status : ℤ) : (exit init status : Code m n).All Assign.Named := by
  have hrep : ∀ {k : Code m n} (p : Fin n) (qs : List (Fin n)), k.All Assign.Named →
      (reparent init p k qs).All Assign.Named := by
    intro k p qs h
    induction qs with
    | nil => exact h
    | cons pp qs ih =>
      intro c d
      dsimp only
      split
      · exact named_write (fun _ => id) (named_wakeup ih)
      · exact ih
  refine all_withProc fun p => ?_
  split
  · trivial
  · refine all_acquire (hrep p _ fun c d => named_wakeup (all_acquire ?_))
    exact named_writeNote (fun r pid q r' heq => (by cases heq)) (all_release (all_sched trivial))

theorem named_chan (p : Fin n) (ch : Chan n) :
    (.proc p fun r => { r with chan := ch } : Assign m n).Named := by
  apply named_proc
  exact fun _ => id

theorem named_sleeping (p : Fin n) :
    (.proc p fun r => { r with state := .sleeping } : Assign m n).Named := by
  apply named_proc
  exact fun _ => id

theorem named_wait (rounds : ℕ) (copyout : Bool) :
    (wait rounds copyout : Code m n).All Assign.Named := by
  refine all_wait named_chan named_sleeping (fun _ p q => ?_) rounds
  exact (named_writeNote (k := .done) (g := Proc.free)
    (x := fun r => .reaped p q r.pid r.xstate) (fun r pid q r' heq => (by cases heq)) trivial).1

theorem named_call {x : Call n} (hx : x.Named) : (x.code init : Code m n).All Assign.Named := by
  cases x with
  | acquire k => trivial
  | release k => trivial
  | sleep k i => exact all_sleep named_chan named_sleeping trivial
  | wakeup k i => exact named_wakeup trivial
  | yield => exact named_yield trivial
  | kill pid => exact named_kill hx
  | setkilled q => exact hx.elim
  | fork e => exact named_fork e
  | exit status => exact named_exit status
  | wait rounds copyout => exact named_wait rounds copyout

theorem named_intr (h : k.All Assign.Named) (i : Intr) : (i.code k).All Assign.Named := by
  cases i with
  | timer =>
    intro c d
    dsimp only
    split
    · exact h
    · exact named_yield h
  | device l i => exact named_wakeup h

end Named

/-! ### Runs -/

/-- All code that is executed, or saved, keeps to `Marks`. -/
structure Machine.Named (s : Machine m n) : Prop where
  cur : ∀ c, (s.cur c).code.All Assign.Named
  context : ∀ σ, (s.context σ).code.All Assign.Named

/-- Runs in which every event has property `ok`. -/
inductive RunsBy (ok : Event m n → Prop) (init : Fin n) : Machine m n → Prop
  | boot : RunsBy ok init (.boot init)
  | step {s s' : Machine m n} (e : Event m n) (h : RunsBy ok init s) (hok : ok e)
    (hstep : s.step init e = some s') : RunsBy ok init s'

/-- Events other than calls of `kill(0)` and `setkilled`. -/
def Event.Named : Event m n → Prop
  | .call _ x => x.Named
  | _ => True

section Runs

variable {s s' : Machine m n}

theorem marks_of_eq {d d' : Data m n} (hproc : d'.proc = d.proc) (hlog : d'.log = d.log) :
    Marks d d' := by
  refine ⟨fun pid q r heq => ?_, fun _ q hq => hproc ▸ hq⟩
  rw [hlog] at heq
  exact absurd heq (List.cons_ne_self _ _).symm

/-- CPU `c` goes on with other code. -/
theorem Machine.Named.goto (h : s.Named) (c : Fin m) {k : Code m n} (hk : k.All Assign.Named)
    (hcur : s'.cur = (s.goto c k).cur) (hctx : s'.context = s.context) : s'.Named := by
  refine ⟨fun c' => ?_, fun σ => by rw [hctx]; exact h.context σ⟩
  rw [hcur]
  by_cases hc : c' = c
  · subst hc
    simpa [Machine.goto] using hk
  · simpa [Machine.goto, hc] using h.cur c'

/-- A step of a CPU. -/
theorem Machine.Named.exec (h : s.Named) {c : Fin m} (hstep : s.exec c = some s') :
    s'.Named ∧ Marks s.data s'.data := by
  have hall := h.cur c
  unfold Machine.exec at hstep
  cases hcode : (s.cur c).code with
  | done =>
    cases hσ : s.stack c with
    | proc p => simp [hcode, hσ] at hstep
    | cpu c' =>
      simp only [hcode, hσ, Option.some.injEq] at hstep
      subst hstep
      exact ⟨h.goto c (named_schedulerLoop c _) rfl rfl, marks_of_eq rfl rfl⟩
  | panic msg => simp [hcode] at hstep
  | acquire l k =>
    rw [hcode] at hall
    change k.All Assign.Named at hall
    simp only [hcode, Option.ite_none_right_eq_some, Option.some.injEq] at hstep
    obtain ⟨-, rfl⟩ := hstep
    exact ⟨h.goto c hall rfl rfl, marks_of_eq rfl rfl⟩
  | release l k =>
    rw [hcode] at hall
    change k.All Assign.Named at hall
    simp only [hcode, Option.ite_none_right_eq_some, Option.some.injEq] at hstep
    obtain ⟨-, rfl⟩ := hstep
    exact ⟨h.goto c hall rfl rfl, marks_of_eq rfl rfl⟩
  | look f =>
    rw [hcode] at hall
    simp only [hcode, Option.some.injEq] at hstep
    subst hstep
    exact ⟨h.goto c (hall c s.data) rfl rfl, marks_of_eq rfl rfl⟩
  | assign g k =>
    rw [hcode] at hall
    simp only [hcode, Option.some.injEq] at hstep
    subst hstep
    exact ⟨h.goto c hall.2 rfl rfl, hall.1 c s.data⟩
  | setContext q start k =>
    rw [hcode] at hall
    simp only [hcode, Option.some.injEq] at hstep
    subst hstep
    refine ⟨⟨(h.goto c hall.2 rfl rfl : (s.goto c k).Named).cur, fun σ => ?_⟩, marks_of_eq rfl rfl⟩
    by_cases hσ : σ = .proc q
    · subst hσ
      simpa using hall.1
    · simpa [hσ] using h.context σ
  | swtch old new k =>
    rw [hcode] at hall
    change k.All Assign.Named at hall
    simp only [hcode, Option.some.injEq] at hstep
    subst hstep
    -- the code after the switch is saved, and what was saved is executed
    have hsaved : ∀ σ, (update s.context old ⟨s.stack c, k⟩ σ).code.All Assign.Named := by
      intro σ
      by_cases hσ : σ = old
      · subst hσ
        simpa using hall
      · simpa [hσ] using h.context σ
    refine ⟨⟨fun c' => ?_, hsaved⟩, marks_of_eq rfl rfl⟩
    by_cases hc : c' = c
    · subst hc
      simpa using hsaved _
    · simpa [hc] using h.cur c'
  | wakeupBegin ch k =>
    rw [hcode] at hall
    change k.All Assign.Named at hall
    simp only [hcode, Option.some.injEq] at hstep
    subst hstep
    exact ⟨h.goto c hall rfl rfl, marks_of_eq rfl rfl⟩
  | wakeupEnd ch k =>
    rw [hcode] at hall
    change k.All Assign.Named at hall
    simp only [hcode, Option.some.injEq] at hstep
    subst hstep
    exact ⟨h.goto c hall rfl rfl, marks_of_eq rfl rfl⟩

/-- **Every step keeps to `Marks`.** -/
theorem Machine.Named.step (h : s.Named) {e : Event m n} (he : e.Named)
    (hstep : s.step init e = some s') : s'.Named ∧ Marks s.data s'.data := by
  cases e with
  | exec c => exact h.exec hstep
  | call c x =>
    cases hσ : s.stack c with
    | cpu c' => simp [Machine.step, hσ] at hstep
    | proc p =>
      cases hcode : (s.cur c).code with
      | done =>
        simp only [Machine.step, hσ, hcode, Option.ite_none_right_eq_some,
          Option.some.injEq] at hstep
        obtain ⟨-, rfl⟩ := hstep
        exact ⟨h.goto c (named_call he) rfl rfl, marks_of_eq rfl rfl⟩
      | _ => simp [Machine.step, hσ, hcode] at hstep
  | intr c i =>
    simp only [Machine.step, Option.ite_none_right_eq_some, Option.some.injEq] at hstep
    obtain ⟨-, rfl⟩ := hstep
    exact ⟨h.goto c (named_intr (h.cur c) i) rfl rfl, marks_of_eq rfl rfl⟩

theorem RunsBy.runs {ok : Event m n → Prop} (h : RunsBy ok init s) : Runs init s := by
  induction h with
  | boot => exact .boot
  | step e _ _ hstep ih => exact ih.step e hstep

theorem KillsLive.boot (init : Fin n) : KillsLive (Machine.boot init : Machine m n).data := by
  have hkilled : ∀ q, ((Machine.boot init : Machine m n).data.proc q).killed = false := by
    intro q
    by_cases hq : q = init
    · simp [Machine.boot, hq, Proc.unused]
    · simp [Machine.boot, hq, Proc.unused]
  refine ⟨fun q hq => ⟨?_, hkilled q⟩, fun pid q r hmem => (by cases hmem), fun q hq => ?_⟩
  · by_cases hqi : q = init
    · simp [Machine.boot, hqi] at hq
    · simp [Machine.boot, hqi, Proc.unused]
  · rw [hkilled q] at hq
    cases hq

/-- **Marks in every state that is reached** without `kill(0)` and `setkilled`. -/
theorem RunsBy.killsLive (h : RunsBy Event.Named init s) : s.Named ∧ KillsLive s.data := by
  induction h with
  | boot =>
    exact ⟨⟨fun c => trivial, fun σ => named_forkret⟩, KillsLive.boot init⟩
  | @step s s' e hs he hstep ih =>
    obtain ⟨hnamed, hmarks⟩ := ih.1.step he hstep
    refine ⟨hnamed, ?_⟩
    obtain ⟨view, hruns⟩ := hs.runs.annotate
    obtain ⟨view', hastep⟩ := hruns.inv.aStep hstep
    cases hastep with
    | assign hlegal _ => exact ih.2.legal hlegal (hruns.inv.knows _) hmarks
    | _ => exact ⟨ih.2.unused, ih.2.found, ih.2.named⟩

/-- **A kill reaches only a live process.**  In every state that is reached without a call of
`kill(0)`: UNUSED slots are not marked as killed; whenever `kill(pid)` returned 0, the process
that it had found was in use and had that `pid`; and a process that is marked has been found by
a `kill` of its own `pid` since it was allocated. -/
theorem kill_reaches_live_of_runs (h : RunsBy Event.Named init s) :
    (∀ q, (s.data.proc q).state = .unused → (s.data.proc q).killed = false) ∧
    (∀ pid q r, .killed pid q r ∈ s.data.log → r.state ≠ .unused ∧ r.pid = pid) ∧
    ∀ q, (s.data.proc q).killed = true →
      killedSince s.data.log q = some ((s.data.proc q).pid : ℤ) := by
  obtain ⟨-, hlive⟩ := h.killsLive
  exact ⟨fun q hq => (hlive.unused q hq).2, hlive.found, hlive.named⟩

theorem RunsBy.after {ok : Event m n → Prop} {es : List (Event m n)} (h : RunsBy ok init s)
    (hok : ∀ e ∈ es, ok e) (hes : s.after init es = some s') : RunsBy ok init s' := by
  induction es generalizing s with
  | nil => exact Option.some.inj hes ▸ h
  | cons e es ih =>
    obtain ⟨s₁, hstep, hes⟩ := Option.bind_eq_some_iff.mp hes
    exact ih (h.step e (hok e List.mem_cons_self) hstep)
      (fun e he => hok e (List.mem_cons_of_mem _ he)) hes

/-- Find a state with property `P` by executing events with property `ok`. -/
theorem exists_runsBy_of_after (ok : Event m n → Prop) (init : Fin n) (es : List (Event m n))
    {P : Machine m n → Prop} [DecidablePred P] (hok : ∀ e ∈ es, ok e)
    (h : ((Machine.boot init).after init es).any (fun s => decide (P s)) = true) :
    ∃ s, RunsBy ok init s ∧ P s := by
  cases hes : (Machine.boot init).after init es with
  | none => simp [hes] at h
  | some s => exact ⟨s, RunsBy.boot.after hok hes, by simpa [hes] using h⟩

end Runs

instance (x : Call n) : Decidable x.Named :=
  match x with
  | .kill pid => @instDecidableNot _ (Int.instDecidableEq pid 0)
  | .setkilled _ => isFalse id
  | .acquire _ | .release _ | .sleep _ _ | .wakeup _ _ | .yield | .fork _ | .exit _ | .wait _ _ =>
    isTrue trivial

instance (e : Event m n) : Decidable e.Named :=
  match e with
  | .call _ x => inferInstanceAs (Decidable x.Named)
  | .exec _ | .intr _ _ => isTrue trivial

/-- The first process, on CPU `c`, forks and kills `pid`, in this order or the other way
round. -/
def forksAndKills (c : Fin m) (pid : ℤ) (first : Bool) : List (Event m n) :=
  let fork : List (Event m n) :=
    [.call c (.fork ⟨true, true, true, [0]⟩)] ++ .replicate 21 (.exec c)
  let kill : List (Event m n) := [.call c (.kill pid)] ++ .replicate 7 (.exec c)
  .replicate 8 (.exec c) ++ if first then kill ++ fork else fork ++ kill

theorem kill_reaches_live_forksAndKills : ∃ s : Machine 1 2, RunsBy Event.Named 0 s ∧
    (s.data.proc 1).killed = true ∧ killedSince s.data.log 1 = some 2 := by
  obtain ⟨s, hs, hkilled, hpid⟩ := exists_runsBy_of_after Event.Named 0 (forksAndKills 0 2 false)
    (P := fun s : Machine 1 2 => (s.data.proc 1).killed = true ∧ (s.data.proc 1).pid = 2)
    (by decide +kernel) (by decide +kernel)
  obtain ⟨-, -, hnamed⟩ := kill_reaches_live_of_runs hs
  exact ⟨s, hs, hkilled, (hnamed 1 hkilled).trans (by rw [hpid]; rfl)⟩

/-- **`kill(0)` marks a slot that is not in use**, and returns 0.  The next `fork` takes the slot,
and its child starts out killed, although nobody has named its `pid`. -/
theorem kill_zero_marks_unused : ∃ s : Machine 1 2, Runs 0 s ∧
    s.data.log = [.allocated 1 2, .killed 0 1 Proc.unused] ∧
    (s.data.proc 1).state = .runnable ∧ (s.data.proc 1).pid = 2 ∧
    (s.data.proc 1).killed = true ∧ killedSince s.data.log 1 = none :=
  exists_runs_of_after 0 (forksAndKills 0 0 true) (by decide +kernel)

end Xv6Ext2.Smp
