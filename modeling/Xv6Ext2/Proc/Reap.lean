import Xv6Ext2.Proc.Sched

/-!
# Exits and waits

A process that exits becomes a ZOMBIE and stays one until its parent, or `init` after the
parent has exited, finds it in `wait`.  The slot, its parent and its exit status are protected
by different locks, and several processes exit and wait at once.  Seen from outside there is a
pool of exits that have not been waited for: `exit` adds to it and `wait` takes from it.

## Main definitions

* `unreaped`, `ReapedOnce` — the pool, and the logs in which every `wait` takes from it.
* `Pooled`, `Reaping` — the pool has the ZOMBIEs, and processes that sleep in `wait` have
  children.
* `Code.All`, `Code.FreesNothing` — code all of whose assignments have a property, and code
  that does not free a process.

## Main results

* `Reaping.legal` — every transition keeps the invariant.
* `exits_reaped_once_of_runs` — **every exit is reaped at most once**, by the parent.
-/

namespace Xv6Ext2.Smp

variable {m n : ℕ} {init : Fin n}

/-! ### The pool of exits -/

/-- The exit of `q`, with its `pid` and status, that no `wait` has returned yet. -/
def unreaped : List (Note n) → Fin n → Option (ℕ × ℤ)
  | [], _ => none
  | .exited p pid x :: l, q => if q = p then some (pid, x) else unreaped l q
  | .reaped _ p _ _ :: l, q => if q = p then none else unreaped l q
  | .allocated _ _ :: l, q => unreaped l q
  | .killed _ _ _ :: l, q => unreaped l q

/-- Every `wait` returns an exit that is in the pool, with its `pid` and status. -/
def ReapedOnce : List (Note n) → Prop
  | [] => True
  | .exited p _ _ :: l => unreaped l p = none ∧ ReapedOnce l
  | .reaped _ q pid x :: l => unreaped l q = some (pid, x) ∧ ReapedOnce l
  | .allocated _ _ :: l => ReapedOnce l
  | .killed _ _ _ :: l => ReapedOnce l

/-- What a process that is a ZOMBIE has in the pool. -/
def Proc.exit? (r : Proc n) : Option (ℕ × ℤ) :=
  if r.state = .zombie then some (r.pid, r.xstate) else none

theorem Proc.exit?_eq_none {r : Proc n} (h : r.state ≠ .zombie) : r.exit? = none := if_neg h

/-- The pool has the exits of the ZOMBIEs. -/
structure Pooled (d : Data m n) : Prop where
  once : ReapedOnce d.log
  pool : ∀ q, unreaped d.log q = (d.proc q).exit?

/-- In addition, a process that sleeps in `wait` has a child. -/
structure Reaping (d : Data m n) : Prop extends Pooled d where
  sleeper : ∀ p, (d.proc p).state = .sleeping → (d.proc p).chan = .proc p →
    ∃ q, (d.proc q).parent = some p

/-! ### Transitions -/

section Legal

variable {σ : Slot m n} {c : Fin m} {d d' : Data m n} {v v' : View n}

namespace Pooled

/-- An assignment that does not touch ZOMBIEs. -/
theorem set (h : Pooled d) {q : Fin n} {r : Proc n} (hr : r.exit? = (d.proc q).exit?) :
    Pooled (d.set q r) where
  once := h.once
  pool x := by
    by_cases hx : x = q
    · subst hx
      simpa [hr] using h.pool x
    · simpa [hx] using h.pool x

/-- Notes about other things. -/
theorem allocated (h : Pooled d) (q : Fin n) (pid : ℕ) : Pooled (d.note (.allocated q pid)) :=
  ⟨h.once, h.pool⟩

theorem killed (h : Pooled d) (pid : ℤ) (q : Fin n) (r : Proc n) :
    Pooled (d.note (.killed pid q r)) :=
  ⟨h.once, h.pool⟩

/-- `exit` adds to the pool. -/
theorem exited (h : Pooled d) {p : Fin n} (hp : (d.proc p).state ≠ .zombie) (status : ℤ) :
    Pooled ((d.set p { d.proc p with xstate := status, state := .zombie }).note
      (.exited p (d.proc p).pid status)) where
  once := ⟨(h.pool p).trans (Proc.exit?_eq_none hp), h.once⟩
  pool x := by
    show (if x = p then some ((d.proc p).pid, status) else unreaped d.log x) = _
    by_cases hx : x = p
    · subst hx
      simp [Proc.exit?]
    · simpa [hx] using h.pool x

/-- `wait` takes from the pool. -/
theorem reaped (h : Pooled d) {p q : Fin n} (hq : (d.proc q).state = .zombie) :
    Pooled ((d.set q (d.proc q).free).note
      (.reaped p q (d.proc q).pid (d.proc q).xstate)) where
  once := ⟨(h.pool q).trans (if_pos hq), h.once⟩
  pool x := by
    show (if x = q then none else unreaped d.log x) = _
    by_cases hx : x = q
    · subst hx
      simp [Proc.exit?, Proc.free]
    · simpa [hx] using h.pool x

theorem legal (h : Pooled d) (hl : Legal init σ c d v d' v') (hk : v.Knows σ c d) : Pooled d' := by
  have hnew : ∀ {q : Fin n} {r : Proc n}, (d.proc q).state ≠ .zombie → r.state ≠ .zombie →
      Pooled (d.set q r) := fun hold hr =>
    h.set ((Proc.exit?_eq_none hr).trans (Proc.exit?_eq_none hold).symm)
  have hrun : ∀ {p : Fin n}, σ = .proc p → v.mode = .own → (d.proc p).state = .running :=
    fun hp hmode => hk.running _ hp (by rw [hmode]; simp)
  cases hl with
  | pid k => exact ⟨h.once, h.pool⟩
  | setkilled _ => exact h.set rfl
  | @kill q pid _ _ _ =>
    refine killed (h.set ?_) pid q _
    rcases (d.proc q).kill_cases with hsame | ⟨hold, hnew⟩
    · simp only [Proc.exit?, hsame]
      rfl
    · simp [Proc.exit?, hold, hnew]
  | @visit q _ _ ch _ _ =>
    refine h.set ?_
    unfold Proc.wake
    split
    · next hs => simp [Proc.exit?, hs.1]
    · rfl
  | @alloc _ q pid _ hmode _ =>
    refine allocated (hnew ?_ (by simp)) q pid
    rw [hk.locked _ _ hmode]
    simp
  | unalloc hp _ hchild =>
    refine hnew ?_ (by simp [Proc.free])
    rw [(hk.child _ _ hchild hp).1]
    simp
  | reap _ hmode _ => exact h.reaped (hk.locked _ _ hmode)
  | publish hp _ hchild =>
    refine hnew ?_ (by simp)
    rw [(hk.child _ _ hchild hp).1]
    simp
  | adopt _ _ _ _ _ => exact h.set rfl
  | reparent _ _ _ _ _ _ => exact h.set rfl
  | chan _ _ _ _ _ _ => exact h.set rfl
  | sleep hp hmode _ _ => exact hnew (by rw [hrun hp hmode]; simp) (by simp)
  | yield hp hmode _ => exact hnew (by rw [hrun hp hmode]; simp) (by simp)
  | exit status hp _ hmode _ _ _ => exact h.exited (by rw [hrun hp hmode]; simp) status
  | run _ hmode => exact hnew (by rw [hk.locked _ _ hmode]; simp) (by simp)
  | enter _ _ => exact ⟨h.once, h.pool⟩
  | leave _ _ => exact ⟨h.once, h.pool⟩

end Pooled

/-- A child of a process that does not run stays its child. -/
theorem Legal.child_of_sleeper (h : Legal init σ c d v d' v') (hk : v.Knows σ c d) {p q : Fin n}
    (hp : (d.proc p).state = .sleeping) (hq : (d.proc q).parent = some p) :
    (d'.proc q).parent = some p := by
  have hthread : ∀ {x : Child n}, v.child = some x → ∃ p, σ = .proc p := by
    intro x hx
    cases σ with
    | proc p => exact ⟨p, rfl⟩
    | cpu c₀ => exact absurd (hx.symm.trans (hk.wf.scheduler c₀ rfl).2.2.1) (by simp)
  -- a process with children in `wait` or in `exit` is running
  have hown : ∀ {p' : Fin n}, σ = .proc p' → v.mode ≠ .leaving → v.kid = some q → False := by
    intro p' hp' hmode hkid
    have hparent := hk.kid p' q hp' hkid
    rw [hq] at hparent
    cases hparent
    exact absurd ((hk.running p hp' hmode).symm.trans hp) (by simp)
  rcases h.rewires q with hsame | hrew
  · rw [hsame, hq]
  · generalize (d'.proc q).parent = y at hrew ⊢
    cases hrew with
    | freed hchild _ =>
      obtain ⟨p', hp'⟩ := hthread hchild
      have hnone := (hk.child _ p' hchild hp').2
      rw [hq] at hnone
      cases hnone
    | reaped hp' hmode hkid _ _ => exact (hown hp' (by rw [hmode]; simp) hkid).elim
    | adopted hp' _ _ _ hchild _ =>
      have hnone := (hk.child _ _ hchild hp').2
      rw [hq] at hnone
      cases hnone
    | handed hp' _ hmode _ hkid _ => exact (hown hp' (by rw [hmode]; simp) hkid).elim

/-- **Every transition keeps the pool and the children of sleepers.** -/
theorem Reaping.legal (h : Reaping d) (hl : Legal init σ c d v d' v') (hk : v.Knows σ c d) :
    Reaping d' where
  toPooled := h.toPooled.legal hl hk
  sleeper p hp hchan := by
    rcases hl.sleeping hk hp with ⟨hold, hsame⟩ | ⟨-, -, hkids⟩
    · obtain ⟨q, hq⟩ := h.sleeper p hold (hsame ▸ hchan)
      exact ⟨q, hl.child_of_sleeper hk hold hq⟩
    · exact hkids hchan

/-- Who notes that a process has been reaped. -/
theorem Legal.reaped (h : Legal init σ c d v d' v') (hk : v.Knows σ c d) {p q : Fin n} {pid : ℕ}
    {x : ℤ} (hlog : d'.log = .reaped p q pid x :: d.log) :
    σ = .proc p ∧ (d.proc q).state = .zombie ∧ (d.proc q).parent = some p ∧
      (d.proc q).pid = pid ∧ (d.proc q).xstate = x := by
  cases h with
  | @reap p' q' hp hmode hkid =>
    obtain ⟨hnote, -⟩ := List.cons.inj hlog
    cases hnote
    exact ⟨hp, hk.locked _ _ hmode, hk.kid _ _ hp hkid, rfl, rfl⟩
  | kill _ _ _ _ => exact absurd (List.cons.inj hlog).1 (by simp)
  | alloc _ _ _ _ => exact absurd (List.cons.inj hlog).1 (by simp)
  | exit _ _ _ _ _ _ _ => exact absurd (List.cons.inj hlog).1 (by simp)
  | _ => exact absurd hlog (List.cons_ne_self _ _).symm

end Legal

/-! ### Runs -/

theorem Reaping.boot (init : Fin n) : Reaping (Machine.boot init : Machine m n).data := by
  have hstate : ∀ p, ((Machine.boot init : Machine m n).data.proc p).state ≠ .zombie ∧
      ((Machine.boot init : Machine m n).data.proc p).state ≠ .sleeping := by
    intro p
    by_cases hp : p = init
    · simp [Machine.boot, hp]
    · simp [Machine.boot, hp, Proc.unused]
  exact ⟨⟨trivial, fun q => (Proc.exit?_eq_none (hstate q).1).symm⟩,
    fun p hp => absurd hp (hstate p).2⟩

theorem ARuns.reaping {s : Machine m n} {view : Slot m n → View n} (h : ARuns init s view) :
    Reaping s.data := by
  induction h with
  | boot => exact Reaping.boot init
  | step h hstep ih =>
    cases hstep with
    | assign hlegal _ => exact ih.legal hlegal (h.inv.knows _)
    | _ => exact ⟨⟨ih.once, ih.pool⟩, ih.sleeper⟩

/-- A step that notes that a process has been reaped. -/
theorem AStep.reaped {s s' : Machine m n} {view view' : Slot m n → View n}
    (h : AStep init s view s' view') (hinv : Inv init s view) {p q : Fin n} {pid : ℕ} {x : ℤ}
    (hlog : s'.data.log = .reaped p q pid x :: s.data.log) :
    (∃ c, s.stack c = .proc p) ∧ (s.data.proc q).state = .zombie ∧
      (s.data.proc q).parent = some p ∧ (s.data.proc q).pid = pid ∧ (s.data.proc q).xstate = x := by
  cases h with
  | @assign c _ _ _ hlegal _ =>
    obtain ⟨hp, hrest⟩ := hlegal.reaped (hinv.knows c) hlog
    exact ⟨⟨c, hp⟩, hrest⟩
  | _ => exact absurd hlog (List.cons_ne_self _ _).symm

/-! ### A `wait` that fails -/

/-- An assignment. -/
abbrev Assign (m n : ℕ) := Fin m → Data m n → Data m n

/-- Every assignment that the code makes, whatever it reads, has property `A`. -/
def Code.All (A : Assign m n → Prop) : Code m n → Prop
  | .done | .panic _ => True
  | .acquire _ k | .release _ k | .wakeupBegin _ k | .wakeupEnd _ k | .swtch _ _ k => k.All A
  | .look f => ∀ c d, (f c d).All A
  | .assign g k => A g ∧ k.All A
  | .setContext _ start k => start.All A ∧ k.All A

/-- The assignment `proc[q] = g(proc[q])`. -/
def Assign.proc (q : Fin n) (g : Proc n → Proc n) : Assign m n := fun _ d => d.set q (g (d.proc q))

/-- Code that makes no process UNUSED and notes nothing. -/
def Code.FreesNothing (k : Code m n) : Prop :=
  k.All fun g => ∀ c d, (g c d).log = d.log ∧
    ∀ q, ((g c d).proc q).state = .unused → (d.proc q).state = .unused

section All

variable {A : Assign m n → Prop} {k : Code m n} {p : Fin n}

theorem all_acquire {l : Lock n} (h : k.All A) : (.acquire l k : Code m n).All A := h

theorem all_release {l : Lock n} (h : k.All A) : (.release l k : Code m n).All A := h

theorem all_withProc {f : Fin n → Code m n} (h : ∀ p, (f p).All A) : (withProc f).All A := by
  intro c d
  dsimp only
  split
  · exact h _
  · trivial

theorem all_sched (h : k.All A) : (sched k).All A := by
  intro c d
  dsimp only
  split
  · trivial
  · split
    · trivial
    · split
      · trivial
      · split
        · trivial
        · exact h

theorem all_sleep {ch : Chan n} {lk : Spin}
    (hchan : ∀ p ch, A (.proc p fun r => { r with chan := ch }))
    (hstate : ∀ p, A (.proc p fun r => { r with state := .sleeping })) (h : k.All A) :
    (sleep ch lk k).All A :=
  all_withProc fun p => ⟨hchan p ch, hstate p, all_sched ⟨hchan p .null, h⟩⟩

/-- The scan of `wait`; `hreap` is about the `freeproc` in it. -/
theorem all_waitScan {copyout : Bool} {next : Bool → Code m n}
    (hreap : copyout = true → ∀ q, A fun _ d => (d.set q (d.proc q).free).note
      (.reaped p q (d.proc q).pid (d.proc q).xstate))
    (h : ∀ b, (next b).All A) (qs : List (Fin n)) :
    ∀ havekids, (waitScan p copyout next qs havekids).All A := by
  induction qs with
  | nil => exact h
  | cons pp qs ih =>
    intro havekids c d
    dsimp only
    split
    · intro c d
      dsimp only
      split
      · split
        · trivial
        · next hcopy => exact ⟨hreap (by simpa using hcopy) pp, trivial⟩
      · exact ih true
    · exact ih havekids

theorem all_wait {copyout : Bool} (hchan : ∀ p ch, A (.proc p fun r => { r with chan := ch }))
    (hstate : ∀ p, A (.proc p fun r => { r with state := .sleeping }))
    (hreap : copyout = true → ∀ p q, A fun _ d => (d.set q (d.proc q).free).note
      (.reaped p q (d.proc q).pid (d.proc q).xstate)) (rounds : ℕ) :
    (wait rounds copyout : Code m n).All A := by
  refine all_withProc fun p => ?_
  show (waitRounds p copyout rounds : Code m n).All A
  induction rounds with
  | zero => trivial
  | succ rounds ih =>
    refine all_waitScan (fun hcopy => hreap hcopy p) (fun havekids => ?_) _ false
    split
    · trivial
    · intro c d
      show (if (d.proc p).killed = true then _ else _ : Code m n).All A
      split
      · trivial
      · exact all_sleep hchan hstate ih

/-- **A `wait` whose `copyout` fails frees nothing.** -/
theorem freesNothing_wait (rounds : ℕ) : (wait rounds false : Code m n).FreesNothing := by
  have hset : ∀ (q : Fin n) (g : Proc n → Proc n),
    (∀ r, (g r).state = .unused → r.state = .unused) →
      ∀ (c : Fin m) (d : Data m n), (Assign.proc q g c d).log = d.log ∧
        ∀ x, ((Assign.proc q g c d).proc x).state = .unused → (d.proc x).state = .unused := by
    intro q g hg c d
    refine ⟨rfl, fun x hx => ?_⟩
    by_cases hxq : x = q
    · subst hxq
      exact hg _ (by simpa [Assign.proc] using hx)
    · simpa [Assign.proc, hxq] using hx
  refine all_wait (fun p ch => ?_) (fun p => ?_) (fun hcopy => by cases hcopy) rounds
  · exact hset p (fun r => { r with chan := ch }) fun _ => id
  · exact hset p (fun r => { r with state := .sleeping }) fun _ hr => by cases hr

end All

/-- **Every exit is reaped once.**  In every state that is reached, each `wait` has returned
the `pid` and the status of an exit that no other `wait` had returned, and the exits that are
left are those of the ZOMBIEs.  A step of `wait` that returns a process is one of its parent, and
finds it a ZOMBIE.  A `wait` whose `copyout` fails frees nothing, and a process that sleeps in
`wait` has a child.  Code has no return values here: a `wait` that returns -1 is one that ends
without a note in the log. -/
theorem exits_reaped_once_of_runs {s : Machine m n} (h : Runs init s) :
    ReapedOnce s.data.log ∧
    (∀ q, unreaped s.data.log q =
      if (s.data.proc q).state = .zombie then some ((s.data.proc q).pid, (s.data.proc q).xstate)
      else none) ∧
    (∀ e s' p q pid x, s.step init e = some s' → s'.data.log = .reaped p q pid x :: s.data.log →
      (∃ c, s.stack c = .proc p) ∧ (s.data.proc q).state = .zombie ∧
        (s.data.proc q).parent = some p ∧ (s.data.proc q).pid = pid ∧ (s.data.proc q).xstate = x) ∧
    (∀ rounds, (wait rounds false : Code m n).FreesNothing) ∧
    ∀ p, (s.data.proc p).state = .sleeping → (s.data.proc p).chan = .proc p →
      ∃ q, (s.data.proc q).parent = some p := by
  obtain ⟨view, hruns⟩ := h.annotate
  have hr := hruns.reaping
  refine ⟨hr.once, hr.pool, fun e s' p q pid x hstep hlog => ?_, freesNothing_wait, hr.sleeper⟩
  obtain ⟨view', hastep⟩ := hruns.inv.aStep hstep
  exact hastep.reaped hruns.inv hlog

/-- The first process, on CPU `c`, forks and waits; its child exits with status 7. -/
def waitsForChild (c : Fin m) : List (Event m n) :=
  .replicate 8 (.exec c) ++ [.call c (.fork ⟨true, true, true, [0]⟩)] ++ .replicate 21 (.exec c) ++
    [.call c (.wait 2 true)] ++ .replicate 26 (.exec c) ++ [.call c (.exit 7)] ++
    .replicate 35 (.exec c)

theorem exits_reaped_once_waitsForChild : ∃ s : Machine 1 2, Runs 0 s ∧
    s.data.log = [.reaped 0 1 2 7, .exited 1 2 7, .allocated 1 2] ∧ ReapedOnce s.data.log ∧
    unreaped s.data.log 1 = none := by
  obtain ⟨s, hs, hlog, hunused⟩ := exists_runs_of_after 0 (waitsForChild 0)
    (P := fun s : Machine 1 2 => s.data.log = [.reaped 0 1 2 7, .exited 1 2 7, .allocated 1 2] ∧
      (s.data.proc 1).state = .unused) (by decide +kernel)
  obtain ⟨honce, hpool, -⟩ := exits_reaped_once_of_runs hs
  exact ⟨s, hs, hlog, honce, (hpool 1).trans (if_neg (by rw [hunused]; simp))⟩

end Xv6Ext2.Smp
