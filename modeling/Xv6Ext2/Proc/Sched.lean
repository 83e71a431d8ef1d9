import Xv6Ext2.Proc.Transition

/-!
# Context switches

Where the contexts of the processes are while CPUs switch between them.  `p->lock` is taken
by one context and released by the one that it switches to, so the invariant says who answers
for a process at each point: the CPU that runs it, a scheduler that has just chosen it or got
it back, or nobody, and then its saved context can be resumed by whoever finds it RUNNABLE.

## Main definitions

* `Inv` — the invariant, with a view for every context.
* `AStep` — a step together with what becomes of the views.

## Main results

* `Inv.aStep`, `AStep.inv` — **every step keeps the invariant.**
* `one_cpu_of_runs` — a process runs on at most one CPU, and only from a saved context.
-/

namespace Xv6Ext2.Smp

open Function

variable {m n : ℕ} {init : Fin n}

/-! ### The invariant -/

namespace Machine

/-- No CPU uses the stack of `p`. -/
def Off (s : Machine m n) (p : Fin n) : Prop := ∀ c, s.stack c ≠ .proc p

/-- The saved context of `σ` can be resumed. -/
structure Resumes (init : Fin n) (s : Machine m n) (view : Slot m n → View n) (σ : Slot m n) :
    Prop where
  stack : (s.context σ).stack = σ
  ok : Ok init (s.context σ).code σ (view σ)

end Machine

/-- The states of a process that will run, or runs. -/
def State.Alive (st : State) : Prop := st = .sleeping ∨ st = .runnable ∨ st = .running

/-- The invariant of the machine. -/
structure Inv (init : Fin n) (s : Machine m n) (view : Slot m n → View n) : Prop where
  inj : ∀ c c', s.stack c = s.stack c' → c = c'
  knows : ∀ c, (view (s.stack c)).Knows (s.stack c) c s.data
  ok : ∀ c, Ok init (s.cur c).code (s.stack c) (view (s.stack c))
  saved : ∀ c p, s.stack c = .proc p → s.Resumes init view (.cpu c) ∧ view (.cpu c) = .back p
  off : ∀ p, s.Off p → (s.data.proc p).state.Alive →
    s.Resumes init view (.proc p) ∧ view (.proc p) = .resumed (view (.proc p)).child
  entering : ∀ c p b, s.stack c = .cpu c → (view (.cpu c)).mode = .entering p b →
    (s.data.proc p).state = .running ∧ s.Off p
  left : ∀ c p, s.stack c = .cpu c → (view (.cpu c)).mode = .left p → s.Off p
  child : ∀ p x, (view (.proc p)).child = some x → (s.data.proc x.slot).state = .used ∧
    (s.data.proc x.slot).parent = if x.parented then some p else none
  childInj : ∀ p p' x x', (view (.proc p)).child = some x → (view (.proc p')).child = some x' →
    x.slot = x'.slot → p = p'
  ready : ∀ p x, (view (.proc p)).child = some x → x.ready = true →
    s.Resumes init view (.proc x.slot) ∧ view (.proc x.slot) = .resumed none
  unused : ∀ q, (s.data.proc q).state = .unused → (s.data.proc q).parent = none
  busy : ∀ c p, s.stack c = .proc p →
    (s.data.proc p).state ≠ .used ∧ (s.data.proc p).state ≠ .unused

/-! ### Steps with views -/

/-- A step of the machine, and the views after it. -/
inductive AStep (init : Fin n) (s : Machine m n) (view : Slot m n → View n) :
    Machine m n → (Slot m n → View n) → Prop
  | look {c : Fin m} {k : Code m n} {v' : View n}
    (hlearn : Learn (s.stack c) s.data (view (s.stack c)) v') (hok : Ok init k (s.stack c) v') :
    AStep init s view (s.goto c k) (update view (s.stack c) v')
  | acquireProc {c : Fin m} {q : Fin n} {k : Code m n} (hfree : s.data.lock (.proc q) = none)
    (hmode : (view (s.stack c)).mode = .free)
    (hok : Ok init k (s.stack c) ((view (s.stack c)).take (s.stack c) q)) :
    AStep init s view { s.goto c k with data := s.data.acquire c (.proc q) }
      (update view (s.stack c) ((view (s.stack c)).take (s.stack c) q))
  | acquireSpin {c : Fin m} {g : Spin} {k : Code m n} (hfree : s.data.lock (.spin g) = none)
    (hok : Ok init k (s.stack c)
      { view (s.stack c) with others := g :: (view (s.stack c)).others }) :
    AStep init s view { s.goto c k with data := s.data.acquire c (.spin g) }
      (update view (s.stack c)
        { view (s.stack c) with others := g :: (view (s.stack c)).others })
  | releaseProc {c : Fin m} {q : Fin n} {k : Code m n} (hheld : s.data.lock (.proc q) = some c)
    (hmode : s.stack c = .proc q ∧ (view (s.stack c)).mode = .own ∧
      (view (s.stack c)).pledge = none ∨ ∃ st, (view (s.stack c)).mode = .locked q st)
    (hok : Ok init k (s.stack c) { view (s.stack c) with mode := .free, seen := none }) :
    AStep init s view { s.goto c k with
        data := s.data.release c (.proc q), heldAt := s.noteRelease c (.proc q) }
      (update view (s.stack c) { view (s.stack c) with mode := .free, seen := none })
  | releaseSpin {c : Fin m} {g : Spin} {k : Code m n} {pl : Option (Chan n × Bool)}
    (hheld : s.data.lock (.spin g) = some c)
    (hwake : ∀ ch qs, (view (s.stack c)).wake = some (ch, qs) → ch.lock ≠ g)
    (hpl : pl = (view (s.stack c)).pledge ∨ ∃ ch : Chan n, ch.lock = g ∧
      (view (s.stack c)).mode = .own ∧ (view (s.stack c)).wake = none ∧ pl = some (ch, false))
    (hok : Ok init k (s.stack c) ((view (s.stack c)).drop g pl)) :
    AStep init s view { s.goto c k with
        data := s.data.release c (.spin g), heldAt := s.noteRelease c (.spin g) }
      (update view (s.stack c) ((view (s.stack c)).drop g pl))
  | assign {c : Fin m} {k : Code m n} {d' : Data m n} {v' : View n}
    (hlegal : Legal init (s.stack c) c s.data (view (s.stack c)) d' v')
    (hok : Ok init k (s.stack c) v') :
    AStep init s view { s.goto c k with data := d' } (update view (s.stack c) v')
  | setContext {c : Fin m} {p q : Fin n} {start k : Code m n} {st : Option State} {ready : Bool}
    (hp : s.stack c = .proc p) (hmode : (view (.proc p)).mode = .locked q st)
    (hchild : (view (.proc p)).child = some ⟨q, ready, false⟩)
    (hstart : Ok init start (.proc q) (.resumed none))
    (hok : Ok init k (.proc p) { view (.proc p) with child := some ⟨q, true, false⟩ }) :
    AStep init s view { s.goto c k with
        context := update s.context (.proc q) ⟨.proc q, start⟩ }
      (update (update view (.proc p)
        { view (.proc p) with child := some ⟨q, true, false⟩ }) (.proc q) (.resumed none))
  | swtchOut {c : Fin m} {p : Fin n} {k : Code m n} {child : Option (Child n)}
    (hp : s.stack c = .proc p)
    (hview : view (.proc p) = { View.resumed child with mode := .leaving })
    (hok : Ok init k (.proc p) (.resumed child)) :
    AStep init s view { s with
        context := update s.context (.proc p) ⟨.proc p, k⟩
        cur := update s.cur c (s.context (.cpu c))
        clock := s.clock + 1 }
      (update view (.proc p) (.resumed child))
  | swtchIn {c : Fin m} {q : Fin n} {k : Code m n} (hc : s.stack c = .cpu c)
    (hview : view (.cpu c) = { View.back q with mode := .entering q true })
    (hok : Ok init k (.cpu c) (.back q)) :
    AStep init s view { s with
        context := update s.context (.cpu c) ⟨.cpu c, k⟩
        cur := update s.cur c (s.context (.proc q))
        clock := s.clock + 1 }
      (update view (.cpu c) (.back q))
  | wakeupBegin {c : Fin m} {ch : Chan n} {k : Code m n} (hwake : (view (s.stack c)).wake = none)
    (hlock : ch.lock ∈ (view (s.stack c)).others)
    (hok : Ok init k (s.stack c) { view (s.stack c) with wake := some (ch, List.finRange n) }) :
    AStep init s view { s.goto c k with begun := update s.begun c s.clock }
      (update view (s.stack c) { view (s.stack c) with wake := some (ch, List.finRange n) })
  | wakeupEnd {c : Fin m} {ch : Chan n} {k : Code m n}
    (hwake : (view (s.stack c)).wake = some (ch, []))
    (hok : Ok init k (s.stack c) { view (s.stack c) with wake := none }) :
    AStep init s view { s.goto c k with calls := ⟨ch, s.begun c, s.clock⟩ :: s.calls }
      (update view (s.stack c) { view (s.stack c) with wake := none })

variable {s s' : Machine m n} {view view' : Slot m n → View n}

/-- A step of a CPU. -/
theorem Inv.aStep_exec (h : Inv init s view) {c : Fin m} (hstep : s.exec c = some s') :
    ∃ view', AStep init s view s' view' := by
  have hok := h.ok c
  have hk := h.knows c
  unfold Machine.exec at hstep
  cases hcode : (s.cur c).code with
  | done =>
    rw [hcode] at hok hstep
    cases hσ : s.stack c with
    | proc p => simp [hσ] at hstep
    | cpu c' =>
      simp only [hσ, Option.some.injEq] at hstep
      subst hstep
      rw [hσ] at hok hk
      have hc : c' = c := hk.home c' rfl
      subst hc
      refine ⟨_, .look (c := c') .same ?_⟩
      rw [hσ, show view (.cpu c') = .idle [] from hok]
      exact ok_scheduler c'
  | panic msg => simp [hcode] at hstep
  | acquire l k =>
    rw [hcode] at hok
    simp only [hcode, Option.ite_none_right_eq_some, Option.some.injEq] at hstep
    obtain ⟨hfree, rfl⟩ := hstep
    cases l with
    | proc q => exact ⟨_, .acquireProc hfree hok.1 hok.2⟩
    | spin g =>
      have hg : g ∉ (view (s.stack c)).others := by
        rw [← hk.lockSpin, hfree]
        simp
      exact ⟨_, .acquireSpin hfree (hok hg)⟩
  | release l k =>
    rw [hcode] at hok
    simp only [hcode, Option.ite_none_right_eq_some, Option.some.injEq] at hstep
    obtain ⟨hheld, rfl⟩ := hstep
    cases l with
    | proc q => exact ⟨_, .releaseProc hheld hok.1 hok.2⟩
    | spin g =>
      obtain ⟨hwake, pl, hpl, hok⟩ := hok ((hk.lockSpin g).mp hheld)
      exact ⟨_, .releaseSpin hheld hwake hpl hok⟩
  | look f =>
    rw [hcode] at hok
    simp only [hcode, Option.some.injEq] at hstep
    subst hstep
    obtain ⟨v', hlearn, hok⟩ := hok c s.data hk
    exact ⟨_, .look hlearn hok⟩
  | assign g k =>
    rw [hcode] at hok
    simp only [hcode, Option.some.injEq] at hstep
    subst hstep
    obtain ⟨v', hlegal, hok⟩ := hok c s.data hk
    exact ⟨_, .assign hlegal hok⟩
  | setContext q start k =>
    rw [hcode] at hok
    simp only [hcode, Option.some.injEq] at hstep
    subst hstep
    obtain ⟨⟨p, hp⟩, st, hmode, ready, hchild, hstart, hok⟩ := hok
    rw [hp] at hmode hchild hok
    exact ⟨_, .setContext hp hmode hchild hstart hok⟩
  | swtch old new k =>
    rw [hcode] at hok
    simp only [hcode, Option.some.injEq] at hstep
    subst hstep
    rcases hok with ⟨p, hp, rfl, rfl, hview, hok⟩ | ⟨c', q, hc, rfl, rfl, hview, hok⟩
    · rw [hp] at hview hok ⊢
      refine ⟨update view (.proc p) (.resumed (view (.proc p)).child), ?_⟩
      simpa using AStep.swtchOut hp hview hok
    · rw [hc] at hk
      have hcc := hk.home c' rfl
      subst hcc
      rw [hc] at hview hok ⊢
      refine ⟨update view (.cpu c') (.back q), ?_⟩
      simpa using AStep.swtchIn hc hview hok
  | wakeupBegin ch k =>
    rw [hcode] at hok
    simp only [hcode, Option.some.injEq] at hstep
    subst hstep
    exact ⟨_, .wakeupBegin hok.1 hok.2.1 hok.2.2⟩
  | wakeupEnd ch k =>
    rw [hcode] at hok
    simp only [hcode, Option.some.injEq] at hstep
    subst hstep
    exact ⟨_, .wakeupEnd hok.1 hok.2⟩

/-- **Every step is one of these.** -/
theorem Inv.aStep (h : Inv init s view) {e : Event m n} (hstep : s.step init e = some s') :
    ∃ view', AStep init s view s' view' := by
  cases e with
  | exec c => exact h.aStep_exec hstep
  | call c x =>
    have hok := h.ok c
    have hk := h.knows c
    cases hσ : s.stack c with
    | cpu c' => simp [Machine.step, hσ] at hstep
    | proc p =>
      cases hcode : (s.cur c).code with
      | done =>
        simp only [Machine.step, hσ, hcode, Option.ite_none_right_eq_some,
          Option.some.injEq] at hstep
        obtain ⟨hallowed, rfl⟩ := hstep
        rw [hcode, hσ] at hok
        rw [hσ] at hk
        refine ⟨_, .look (c := c) .same ?_⟩
        have hidle : view (.proc p) = .idle (view (.proc p)).others := hok
        rw [hσ, hidle]
        rw [hidle] at hk
        exact ok_call hk hallowed
      | _ => simp [Machine.step, hσ, hcode] at hstep
  | intr c i =>
    simp only [Machine.step, Option.ite_none_right_eq_some, Option.some.injEq] at hstep
    obtain ⟨hnoff, rfl⟩ := hstep
    exact ⟨_, .look (c := c) .same (ok_intr (h.knows c) hnoff (h.ok c) i)⟩

/-! ### Steps that do not assign to processes -/

theorem Machine.stack_of_cur {c : Fin m} {k : Code m n}
    (hcur : s'.cur = update s.cur c ⟨s.stack c, k⟩) : s'.stack = s.stack := by
  funext c'
  by_cases hc : c' = c
  · subst hc
    simp [Machine.stack, hcur]
  · simp [Machine.stack, hcur, hc]

namespace Inv

/-- Two CPUs have different contexts. -/
theorem stack_ne (h : Inv init s view) {c c' : Fin m} (hc : c' ≠ c) : s.stack c' ≠ s.stack c :=
  fun heq => hc (h.inj c' c heq)

/-- The scheduler of a CPU is not in use on another. -/
theorem cpu_ne (h : Inv init s view) {c c' : Fin m} (hc : c' ≠ c) : .cpu c' ≠ s.stack c :=
  fun heq => hc ((h.knows c).home c' heq.symm)

/-- A process that is being created does not run. -/
theorem child_ne (h : Inv init s view) {p : Fin n} {x : Child n}
    (hx : (view (.proc p)).child = some x) (c : Fin m) : .proc x.slot ≠ s.stack c :=
  fun heq => (h.busy c x.slot heq.symm).1 (h.child p x hx).1

/-- **A step of CPU `c`** that keeps to its context, from what it does to the processes. -/
theorem onStack (h : Inv init s view) {c : Fin m} {k : Code m n} {v' : View n}
    (hcur : s'.cur = update s.cur c ⟨s.stack c, k⟩) (hctx : s'.context = s.context)
    (hok : Ok init k (s.stack c) v') (hknows : v'.Knows (s.stack c) c s'.data)
    (hframe : ∀ c', c' ≠ c → (view (s.stack c')).Knows (s.stack c') c' s'.data)
    (hoff : ∀ p, s.Off p → (s'.data.proc p).state.Alive →
      s.Resumes init view (.proc p) ∧ view (.proc p) = .resumed (view (.proc p)).child)
    (hentering : ∀ p b, v'.mode = .entering p b → (s'.data.proc p).state = .running ∧ s.Off p)
    (hentering' : ∀ c' p b, c' ≠ c → s.stack c' = .cpu c' → (view (.cpu c')).mode = .entering p b →
      (s'.data.proc p).state = .running)
    (hleft : ∀ p, v'.mode = .left p → s.Off p)
    (hchild : ∀ p x, (update view (s.stack c) v' (.proc p)).child = some x →
      (s'.data.proc x.slot).state = .used ∧
        (s'.data.proc x.slot).parent = if x.parented then some p else none)
    (hchildInj : ∀ p p' x x', (update view (s.stack c) v' (.proc p)).child = some x →
      (update view (s.stack c) v' (.proc p')).child = some x' → x.slot = x'.slot → p = p')
    (hready : ∀ p x, (update view (s.stack c) v' (.proc p)).child = some x →
      x.ready = true → s.Resumes init view (.proc x.slot) ∧ view (.proc x.slot) = .resumed none)
    (hunused : ∀ q, (s'.data.proc q).state = .unused → (s'.data.proc q).parent = none)
    (hbusy : ∀ c p, s.stack c = .proc p →
      (s'.data.proc p).state ≠ .used ∧ (s'.data.proc p).state ≠ .unused) :
    Inv init s' (update view (s.stack c) v') := by
  have hstack := Machine.stack_of_cur hcur
  have hview : ∀ {τ}, τ ≠ s.stack c → update view (s.stack c) v' τ = view τ :=
    fun hτ => update_of_ne hτ ..
  have hself : update view (s.stack c) v' (s.stack c) = v' := update_self ..
  have hresumes : ∀ {τ}, τ ≠ s.stack c → s.Resumes init view τ →
      s'.Resumes init (update view (s.stack c) v') τ := by
    intro τ hτ hr
    refine ⟨by rw [hctx]; exact hr.stack, ?_⟩
    rw [hctx, hview hτ]
    exact hr.ok
  have hoffs : ∀ p, s'.Off p ↔ s.Off p := fun p => by rw [Machine.Off, hstack]; rfl
  refine ⟨fun c₁ c₂ heq => ?_, fun c' => ?_, fun c' => ?_, fun c' p hp => ?_, fun p hp halive => ?_,
    fun c' p b hc' hmode => ?_, fun c' p hc' hmode => ?_, hchild, hchildInj,
    fun p x hx hr => ?_, hunused, by rw [hstack]; exact hbusy⟩
  · rw [hstack] at heq
    exact h.inj c₁ c₂ heq
  · rw [hstack]
    by_cases hc : c' = c
    · rw [hc, hself]
      exact hknows
    · rw [hview (h.stack_ne hc)]
      exact hframe c' hc
  · rw [hstack, hcur]
    by_cases hc : c' = c
    · rw [hc, hself, update_self]
      exact hok
    · rw [hview (h.stack_ne hc), update_of_ne hc]
      exact h.ok c'
  · rw [hstack] at hp
    have hne : .cpu c' ≠ s.stack c := by
      intro heq
      have := (h.knows c).home c' heq.symm
      rw [← this, hp] at heq
      cases heq
    obtain ⟨hr, hback⟩ := h.saved c' p hp
    exact ⟨hresumes hne hr, by rw [hview hne, hback]⟩
  · rw [hoffs] at hp
    have hne : .proc p ≠ s.stack c := fun heq => hp c heq.symm
    obtain ⟨hr, hres⟩ := hoff p hp halive
    exact ⟨hresumes hne hr, by rw [hview hne]; exact hres⟩
  · rw [hstack] at hc'
    rw [hoffs]
    by_cases hc : c' = c
    · subst hc
      rw [← hc', hself] at hmode
      exact hentering p b hmode
    · rw [hview (h.cpu_ne hc)] at hmode
      exact ⟨hentering' c' p b hc hc' hmode, (h.entering c' p b hc' hmode).2⟩
  · rw [hstack] at hc'
    rw [hoffs]
    by_cases hc : c' = c
    · subst hc
      rw [← hc', hself] at hmode
      exact hleft p hmode
    · rw [hview (h.cpu_ne hc)] at hmode
      exact h.left c' p hc' hmode
  · -- the process that is being created is on no stack
    have hne : .proc x.slot ≠ s.stack c := fun heq => (hbusy c x.slot heq.symm).1 (hchild p x hx).1
    obtain ⟨hr', hres⟩ := hready p x hx hr
    exact ⟨hresumes hne hr', by rw [hview hne, hres]⟩

/-- Only a scheduler is about to switch to a process, or has just come back from one. -/
theorem stack_of_mode (h : Inv init s view) {c : Fin m} {p : Fin n}
    (hmode : (∃ b, (view (s.stack c)).mode = .entering p b) ∨ (view (s.stack c)).mode = .left p) :
    s.stack c = .cpu c := by
  have hk := h.knows c
  cases hσ : s.stack c with
  | cpu c' => rw [hk.home c' hσ]
  | proc q =>
    obtain ⟨hent, hleft, -⟩ := hk.wf.thread q hσ
    rcases hmode with ⟨b, hmode⟩ | hmode
    · exact (hent p b hmode).elim
    · exact (hleft p hmode).elim

theorem entering_of_mode (h : Inv init s view) {c : Fin m} {p : Fin n} {b : Bool}
    (hmode : (view (s.stack c)).mode = .entering p b) :
    (s.data.proc p).state = .running ∧ s.Off p := by
  have hσ := h.stack_of_mode (Or.inl ⟨b, hmode⟩)
  rw [hσ] at hmode
  exact h.entering c p b hσ hmode

theorem left_of_mode (h : Inv init s view) {c : Fin m} {p : Fin n}
    (hmode : (view (s.stack c)).mode = .left p) : s.Off p := by
  have hσ := h.stack_of_mode (Or.inr hmode)
  rw [hσ] at hmode
  exact h.left c p hσ hmode

/-- A step that does not assign to processes. -/
theorem calm (h : Inv init s view) {c : Fin m} {k : Code m n} {v' : View n}
    (hcur : s'.cur = update s.cur c ⟨s.stack c, k⟩) (hctx : s'.context = s.context)
    (hok : Ok init k (s.stack c) v') (hknows : v'.Knows (s.stack c) c s'.data)
    (hframe : ∀ c', c' ≠ c → (view (s.stack c')).Knows (s.stack c') c' s'.data)
    (hproc : s'.data.proc = s.data.proc) (hchild : v'.child = (view (s.stack c)).child)
    (hmode : v'.mode = (view (s.stack c)).mode ∨
      (∀ p b, v'.mode ≠ .entering p b) ∧ ∀ p, v'.mode ≠ .left p) :
    Inv init s' (update view (s.stack c) v') := by
  have hchildren : ∀ p, (update view (s.stack c) v' (.proc p)).child =
      (view (.proc p)).child := by
    intro p
    by_cases hp : .proc p = s.stack c
    · rw [hp, update_self, hchild]
    · rw [update_of_ne hp]
  refine h.onStack hcur hctx hok hknows hframe ?_ ?_ ?_ ?_ ?_ ?_ ?_ ?_ ?_
  · rw [hproc]
    exact h.off
  · intro p b hp
    rw [hproc]
    rcases hmode with hmode | ⟨hmode, -⟩
    · exact h.entering_of_mode (hmode ▸ hp)
    · exact (hmode p b hp).elim
  · intro c' p b _ hc' hp
    rw [hproc]
    exact (h.entering c' p b hc' hp).1
  · intro p hp
    rcases hmode with hmode | ⟨-, hmode⟩
    · exact h.left_of_mode (hmode ▸ hp)
    · exact (hmode p hp).elim
  · intro p x hx
    rw [hchildren] at hx
    rw [hproc]
    exact h.child p x hx
  · intro p p' x x' hx hx'
    rw [hchildren] at hx hx'
    exact h.childInj p p' x x' hx hx'
  · intro p x hx
    rw [hchildren] at hx
    exact h.ready p x hx
  · rw [hproc]
    exact h.unused
  · rw [hproc]
    exact h.busy

/-! ### Assignments -/

/-- A process on a stack whose state may be changed is RUNNING. -/
theorem running_of_holds (h : Inv init s view) {c c' : Fin m} {p : Fin n}
    (hp : s.stack c' = .proc p)
    (hholds : Holds (s.stack c) (view (s.stack c)) p) : (s.data.proc p).state = .running := by
  have hk := h.knows c'
  rw [hp] at hk
  apply hk.running p rfl
  intro hleave
  -- a process that is leaving holds its own lock
  have h₁ : s.data.lock (.proc p) = some c' := (hk.lockProc p).mpr (by rw [hleave]; rfl)
  have h₂ : s.data.lock (.proc p) = some c := ((h.knows c).lockProc p).mpr hholds.1
  have hc : c' = c := Option.some.inj (h₁.symm.trans h₂)
  subst hc
  rw [hp] at hholds
  exact hholds.2 hleave

/-- A process on a stack changes its state only itself, to leave. -/
theorem state_on_stack (h : Inv init s view) {c c' : Fin m} {p : Fin n} {d' : Data m n}
    {v' : View n}
    (hlegal : Legal init (s.stack c) c s.data (view (s.stack c)) d' v')
      (hp : s.stack c' = .proc p) :
    (d'.proc p).state = (s.data.proc p).state ∨ (d'.proc p).state = .sleeping ∨
      (d'.proc p).state = .runnable ∨ (d'.proc p).state = .zombie := by
  rcases hlegal.moves (h.knows c) p with hsame | ⟨hholds, hmoves⟩
  · exact Or.inl hsame
  · rw [h.running_of_holds hp hholds] at hmoves
    cases hmoves with
    | leave _ _ hst => exact Or.inr (hst.imp_right (Or.imp_right And.left))

/-- Two processes do not create the same one. -/
theorem child_disjoint (h : Inv init s view) {c : Fin m} {p : Fin n} {x y : Child n}
    (hp : s.stack c ≠ .proc p) (hx : (view (s.stack c)).child = some x)
    (hy : (view (.proc p)).child = some y) : x.slot ≠ y.slot := by
  intro heq
  cases hσ : s.stack c with
  | cpu c' =>
    have := ((h.knows c).wf.scheduler c' hσ).2.2.1
    rw [hx] at this
    cases this
  | proc p' =>
    rw [hσ] at hx hp
    exact hp (congrArg Slot.proc (h.childInj p' p x y hx hy heq))

/-- **An assignment keeps the invariant.** -/
theorem assign (h : Inv init s view) {c : Fin m} {k : Code m n} {v' : View n}
    (hcur : s'.cur = update s.cur c ⟨s.stack c, k⟩) (hctx : s'.context = s.context)
    (hlegal : Legal init (s.stack c) c s.data (view (s.stack c)) s'.data v')
    (hok : Ok init k (s.stack c) v') : Inv init s' (update view (s.stack c) v') := by
  have hk := h.knows c
  -- the children of other processes
  have hother : ∀ {p x}, (.proc p : Slot m n) ≠ s.stack c →
      (update view (s.stack c) v' (.proc p)).child = some x →
      (view (.proc p)).child = some x := by
    intro p x hp hx
    rwa [update_of_ne hp] at hx
  refine h.onStack hcur hctx hok (hlegal.knows hk h.unused) ?_ ?_ ?_ ?_ ?_ ?_ ?_ ?_ ?_ ?_
  · intro c' hc
    refine hlegal.frame hk (h.knows c') hc (h.stack_ne hc) fun x y hx hy => ?_
    cases hσ : s.stack c' with
    | cpu c'' =>
      have := ((h.knows c').wf.scheduler c'' hσ).2.2.1
      rw [hy] at this
      cases this
    | proc p =>
      rw [hσ] at hy
      exact h.child_disjoint (hσ ▸ (h.stack_ne hc).symm) hx hy
  · intro p hp halive
    rcases hlegal.moves hk p with hsame | ⟨-, hmoves⟩
    · exact h.off p hp (hsame ▸ halive)
    · generalize hold : (s.data.proc p).state = st at hmoves
      generalize (s'.data.proc p).state = st' at hmoves halive
      cases hmoves with
      | wake => exact h.off p hp (Or.inl hold)
      | alloc => simp [State.Alive] at halive
      | unalloc _ => simp [State.Alive] at halive
      | reap => simp [State.Alive] at halive
      | publish hchild =>
        -- the child of a `fork` has its context already
        cases hσ : s.stack c with
        | cpu c' =>
          have := (hk.wf.scheduler c' hσ).2.2.1
          rw [hchild] at this
          cases this
        | proc p' =>
          rw [hσ] at hchild
          obtain ⟨hr, hres⟩ := h.ready p' _ hchild rfl
          exact ⟨hr, by rw [hres]; rfl⟩
      | leave hq _ _ => exact absurd hq (hp c)
      | run => exact h.off p hp (Or.inr (Or.inl hold))
  · intro p b hmode
    rcases hlegal.entering hmode with ⟨b', hold⟩ | ⟨hlocked, hrun⟩
    · obtain ⟨hrun, hoff⟩ := h.entering_of_mode hold
      refine ⟨?_, hoff⟩
      rcases hlegal.moves hk p with hsame | ⟨-, hmoves⟩
      · rw [hsame, hrun]
      · rw [hrun] at hmoves
        cases hmoves with
        | leave hq _ _ => exact absurd hq (hoff c)
    · refine ⟨hrun, fun c' hc' => ?_⟩
      have hstate := hk.locked _ _ hlocked
      have := h.running_of_holds hc' ⟨by rw [hlocked]; rfl, by rw [hlocked]; simp⟩
      rw [hstate] at this
      cases this
  · intro c' p b _ hc' hmode
    obtain ⟨hrun, hoff⟩ := h.entering c' p b hc' hmode
    rcases hlegal.moves hk p with hsame | ⟨-, hmoves⟩
    · rw [hsame, hrun]
    · rw [hrun] at hmoves
      cases hmoves with
      | leave hq _ _ => exact absurd hq (hoff c)
  · exact fun p hmode => h.left_of_mode (hlegal.left hmode)
  · intro p x hx
    by_cases hp : .proc p = s.stack c
    · rw [hp, update_self] at hx
      exact hlegal.child hk h.unused hx hp.symm
    · obtain ⟨hstate, hparent⟩ := h.child p x (hother hp hx)
      exact hlegal.frame_child hk (Ne.symm hp) hstate hparent fun y hy =>
        h.child_disjoint (Ne.symm hp) hy (hother hp hx)
  · -- a new child was UNUSED before, and no other process's child
    have hmixed : ∀ {p p' x x'}, .proc p = s.stack c → .proc p' ≠ s.stack c → v'.child = some x →
        (view (.proc p')).child = some x' → x.slot ≠ x'.slot := by
      intro p p' x x' hp hp' hx hx'
      rcases hlegal.child_slot hk hx with ⟨y, hy, hslot, -⟩ | ⟨hunused, -⟩
      · rw [← hslot]
        exact h.child_disjoint (Ne.symm hp') hy hx'
      · intro heq
        rw [heq, (h.child p' x' hx').1] at hunused
        cases hunused
    intro p p' x x' hx hx' heq
    by_cases hp : .proc p = s.stack c
    · by_cases hp' : .proc p' = s.stack c
      · exact Slot.proc.inj (hp.trans hp'.symm)
      · rw [hp, update_self] at hx
        exact (hmixed hp hp' hx (hother hp' hx') heq).elim
    · by_cases hp' : .proc p' = s.stack c
      · rw [hp', update_self] at hx'
        exact (hmixed hp' hp hx' (hother hp hx) heq.symm).elim
      · exact h.childInj p p' x x' (hother hp hx) (hother hp' hx') heq
  · intro p x hx hready
    by_cases hp : .proc p = s.stack c
    · rw [hp, update_self] at hx
      rcases hlegal.child_slot hk hx with ⟨y, hy, hslot, hr⟩ | ⟨-, hnot⟩
      · rw [← hp] at hy
        rw [← hslot]
        exact h.ready p y hy (hr.trans hready)
      · rw [hready] at hnot
        cases hnot
    · exact h.ready p x (hother hp hx) hready
  · exact hlegal.unused hk h.unused
  · intro c' p hp
    rcases h.state_on_stack hlegal hp with hsame | hst | hst | hst
    · rw [hsame]
      exact h.busy c' p hp
    · simp [hst]
    · simp [hst]
    · simp [hst]

/-! ### Contexts -/

/-- **The context of a new process.** -/
theorem setContext (h : Inv init s view) {c : Fin m} {p q : Fin n} {start k : Code m n}
    {st : Option State} {ready : Bool} (hp : s.stack c = .proc p)
    (hmode : (view (.proc p)).mode = .locked q st)
    (hchild : (view (.proc p)).child = some ⟨q, ready, false⟩)
    (hstart : Ok init start (.proc q) (.resumed none))
    (hok : Ok init k (.proc p) { view (.proc p) with child := some ⟨q, true, false⟩ })
    (hcur : s'.cur = update s.cur c ⟨s.stack c, k⟩) (hdata : s'.data = s.data)
    (hctx : s'.context = update s.context (.proc q) ⟨.proc q, start⟩) :
    Inv init s' (update (update view (.proc p)
        { view (.proc p) with child := some ⟨q, true, false⟩ }) (.proc q) (.resumed none)) := by
  have hstack := Machine.stack_of_cur hcur
  have hoffs : ∀ p, s'.Off p ↔ s.Off p := fun p => by rw [Machine.Off, hstack]; rfl
  have hk := h.knows c
  rw [hp] at hk
  have hpq : (.proc p : Slot m n) ≠ .proc q := by
    intro heq
    cases heq
    exact (hk.wf.thread p rfl).2.2 st hmode
  have hq : ∀ c', s.stack c' ≠ .proc q := fun c' => (h.child_ne hchild c').symm
  set view' := update (update view (.proc p)
        { view (.proc p) with child := some ⟨q, true, false⟩ }) (.proc q)
          (.resumed none) with hview'
  have hviewp : view' (.proc p) = { view (.proc p) with child := some ⟨q, true, false⟩ } := by
    rw [hview', update_of_ne hpq, update_self]
  have hviewq : view' (.proc q) = .resumed none := update_self ..
  have hview : ∀ {τ}, τ ≠ .proc p → τ ≠ .proc q → view' τ = view τ := by
    intro τ hτp hτq
    rw [hview', update_of_ne hτq, update_of_ne hτp]
  have hresumes : ∀ {τ}, τ ≠ .proc p → τ ≠ .proc q → s.Resumes init view τ →
      s'.Resumes init view' τ := by
    intro τ hτp hτq hr
    refine ⟨by rw [hctx, update_of_ne hτq]; exact hr.stack, ?_⟩
    rw [hctx, update_of_ne hτq, hview hτp hτq]
    exact hr.ok
  -- children are those of before
  have hchildren : ∀ {p' x}, (view' (.proc p')).child = some x →
      p' = p ∧ x = ⟨q, true, false⟩ ∨ p' ≠ p ∧ p' ≠ q ∧ (view (.proc p')).child = some x := by
    intro p' x hx
    by_cases hp' : p' = p
    · subst hp'
      rw [hviewp] at hx
      exact Or.inl ⟨rfl, (Option.some.inj hx).symm⟩
    · right
      by_cases hq' : p' = q
      · rw [hq', hviewq] at hx
        cases hx
      · rw [hview (fun heq => hp' (Slot.proc.inj heq)) fun heq => hq' (Slot.proc.inj heq)] at hx
        exact ⟨hp', hq', hx⟩
  refine ⟨fun c₁ c₂ heq => ?_, fun c' => ?_, fun c' => ?_, fun c' p' hp' => ?_,
    fun p' hoff halive => ?_, fun c' p' b hc' hm => ?_, fun c' p' hc' hm => ?_, fun p' x hx =>
      ?_, fun p₁ p₂ x₁ x₂ hx₁ hx₂ heq => ?_,
    fun p' x hx hr => ?_, by rw [hdata]; exact h.unused, by rw [hstack, hdata]; exact h.busy⟩
  · rw [hstack] at heq
    exact h.inj c₁ c₂ heq
  · rw [hstack, hdata]
    by_cases hc : c' = c
    · subst hc
      rw [hp, hviewp]
      refine { hk with wf := ⟨hk.wf.thread, fun _ h => (by cases h), hk.wf.orphaned, hk.wf.kid,
        hk.wf.wake, hk.wf.pledge, hk.wf.nodup, hk.wf.seen⟩, child := fun x p' hx hp' => ?_ }
      cases hx
      have := hk.child _ p' hchild hp'
      exact this
    · rw [hview (hp ▸ h.stack_ne hc) (hq c')]
      exact h.knows c'
  · rw [hstack, hcur]
    by_cases hc : c' = c
    · subst hc
      rw [update_self, hp, hviewp]
      exact hok
    · rw [update_of_ne hc, hview (hp ▸ h.stack_ne hc) (hq c')]
      exact h.ok c'
  · rw [hstack] at hp'
    obtain ⟨hr, hback⟩ := h.saved c' p' hp'
    exact ⟨hresumes (by simp) (by simp) hr, by rw [hview (by simp) (by simp), hback]⟩
  · rw [hoffs] at hoff
    rw [hdata] at halive
    have hp' : (.proc p' : Slot m n) ≠ .proc p := fun heq => hoff c (hp.trans heq.symm)
    have hq' : (.proc p' : Slot m n) ≠ .proc q := by
      intro heq
      cases heq
      rw [(h.child p _ hchild).1] at halive
      simp [State.Alive] at halive
    obtain ⟨hr, hres⟩ := h.off p' hoff halive
    exact ⟨hresumes hp' hq' hr, by rw [hview hp' hq']; exact hres⟩
  · rw [hstack] at hc'
    rw [hview (by simp) (by simp)] at hm
    rw [hoffs, hdata]
    exact h.entering c' p' b hc' hm
  · rw [hstack] at hc'
    rw [hview (by simp) (by simp)] at hm
    rw [hoffs]
    exact h.left c' p' hc' hm
  · rw [hdata]
    rcases hchildren hx with ⟨rfl, rfl⟩ | ⟨-, -, hx'⟩
    · have := h.child p' _ hchild
      exact this
    · exact h.child p' x hx'
  · rcases hchildren hx₁ with ⟨rfl, rfl⟩ | ⟨-, -, hx₁'⟩
    · rcases hchildren hx₂ with ⟨rfl, rfl⟩ | ⟨-, -, hx₂'⟩
      · rfl
      · exact h.childInj _ _ _ _ hchild hx₂' heq
    · rcases hchildren hx₂ with ⟨rfl, rfl⟩ | ⟨-, -, hx₂'⟩
      · exact h.childInj _ _ _ _ hx₁' hchild heq
      · exact h.childInj _ _ _ _ hx₁' hx₂' heq
  · rcases hchildren hx with ⟨rfl, rfl⟩ | ⟨hne, -, hx⟩
    · refine ⟨⟨?_, ?_⟩, hviewq⟩
      · rw [hctx, update_self]
      · rw [hctx, update_self, hviewq]
        exact hstart
    · obtain ⟨hr', hres⟩ := h.ready p' x hx hr
      have hxp : (.proc x.slot : Slot m n) ≠ .proc p := hp ▸ h.child_ne hx c
      have hxq : (.proc x.slot : Slot m n) ≠ .proc q := by
        intro heq
        exact hne (h.childInj p' p x _ hx hchild (Slot.proc.inj heq))
      exact ⟨hresumes hxp hxq hr', by rw [hview hxp hxq, hres]⟩

/-- The stacks after a switch. -/
theorem stack_swtch {c : Fin m} {x : Context m n} (hcur : s'.cur = update s.cur c x)
    (c' : Fin m) : s'.stack c' = if c' = c then x.stack else s.stack c' := by
  by_cases hc : c' = c
  · subst hc
    simp [Machine.stack, hcur]
  · simp [Machine.stack, hcur, hc]

/-- The CPU `c` leaves the stack `τ`, which is seen as `w` while it waits, for the stack `σ`. -/
structure Switched (init : Fin n) (s s' : Machine m n) (view : Slot m n → View n) (c : Fin m)
    (τ σ : Slot m n) (w : View n) : Prop where
  self : s'.stack c = σ
  other : ∀ {c'}, c' ≠ c → s'.stack c' = s.stack c'
  waits : s'.Resumes init (update view τ w) τ
  resumes : ∀ {ρ}, ρ ≠ τ → s.Resumes init view ρ → s'.Resumes init (update view τ w) ρ
  inj : (∀ {c'}, c' ≠ c → s.stack c' ≠ σ) → ∀ c₁ c₂, s'.stack c₁ = s'.stack c₂ → c₁ = c₂
  ok : ∀ c', Ok init (s'.cur c').code (s'.stack c') (update view τ w (s'.stack c'))
  knows : s'.data = s.data → (view σ).Knows σ c s.data →
    ∀ c', (update view τ w (s'.stack c')).Knows (s'.stack c') c' s'.data

/-- What both directions of a switch have in common. -/
theorem switched (h : Inv init s view) {c : Fin m} {τ σ : Slot m n} {k : Code m n} {w : View n}
    (hτ : s.stack c = τ) (hστ : σ ≠ τ) (hsaved : s.Resumes init view σ) (hok : Ok init k τ w)
    (hcur : s'.cur = update s.cur c (s.context σ))
    (hctx : s'.context = update s.context τ ⟨τ, k⟩) : Switched init s s' view c τ σ w := by
  have hself : s'.stack c = σ := by rw [stack_swtch hcur, if_pos rfl, hsaved.stack]
  have hother : ∀ {c'}, c' ≠ c → s'.stack c' = s.stack c' := fun hc => by
    rw [stack_swtch hcur, if_neg hc]
  have hviews : ∀ {ρ}, ρ ≠ τ → update view τ w ρ = view ρ := fun hρ => update_of_ne hρ ..
  have hne : ∀ {c'}, c' ≠ c → s.stack c' ≠ τ := fun hc => hτ ▸ h.stack_ne hc
  refine ⟨hself, hother, ⟨by rw [hctx, update_self], ?_⟩, fun {ρ} hρ hr => ?_,
    fun hnew c₁ c₂ heq => ?_, fun c' => ?_, fun hdata hk c' => ?_⟩
  · rw [hctx, update_self, update_self]
    exact hok
  · refine ⟨by rw [hctx, update_of_ne hρ]; exact hr.stack, ?_⟩
    rw [hctx, update_of_ne hρ, hviews hρ]
    exact hr.ok
  · by_cases hc₁ : c₁ = c
    · by_cases hc₂ : c₂ = c
      · rw [hc₁, hc₂]
      · rw [hc₁, hself, hother hc₂] at heq
        exact absurd heq.symm (hnew hc₂)
    · by_cases hc₂ : c₂ = c
      · rw [hc₂, hself, hother hc₁] at heq
        exact absurd heq (hnew hc₁)
      · rw [hother hc₁, hother hc₂] at heq
        exact h.inj c₁ c₂ heq
  · by_cases hc : c' = c
    · rw [hc, hself, hviews hστ, hcur, update_self]
      exact hsaved.ok
    · rw [hother hc, hviews (hne hc), hcur, update_of_ne hc]
      exact h.ok c'
  · rw [hdata]
    by_cases hc : c' = c
    · rw [hc, hself, hviews hστ]
      exact hk
    · rw [hother hc, hviews (hne hc)]
      exact h.knows c'

/-- **A process switches to the scheduler**, which answers for its lock from now on. -/
theorem swtchOut (h : Inv init s view) {c : Fin m} {p : Fin n} {k : Code m n}
    {child : Option (Child n)} (hp : s.stack c = .proc p)
    (hview : view (.proc p) = { View.resumed child with mode := .leaving })
    (hok : Ok init k (.proc p) (.resumed child))
    (hcur : s'.cur = update s.cur c (s.context (.cpu c))) (hdata : s'.data = s.data)
    (hctx : s'.context = update s.context (.proc p) ⟨.proc p, k⟩) :
    Inv init s' (update view (.proc p) (.resumed child)) := by
  have hk := h.knows c
  rw [hp, hview] at hk
  obtain ⟨hsaved, hback⟩ := h.saved c p hp
  have hsw := h.switched hp (by simp) hsaved hok hcur hctx
  have hviews : ∀ {τ}, τ ≠ .proc p → update view (.proc p) (.resumed child) τ = view τ :=
    fun hτ => update_of_ne hτ ..
  have hchildren : ∀ p', (update view (.proc p) (.resumed child) (.proc p')).child =
      (view (.proc p')).child := by
    intro p'
    by_cases hp' : (.proc p' : Slot m n) = .proc p
    · rw [hp', update_self, hview]
    · rw [hviews hp']
  have hoff : ∀ p', s.Off p' → s'.Off p' := by
    intro p' hoff c'
    by_cases hc : c' = c
    · rw [hc, hsw.self]
      simp
    · rw [hsw.other hc]
      exact hoff c'
  have hne : ∀ {c'}, c' ≠ c → s.stack c' ≠ .proc p := fun hc => hp ▸ h.stack_ne hc
  refine ⟨hsw.inj fun hc heq => hc ((h.knows _).home c heq).symm, hsw.knows hdata ?_, hsw.ok,
    fun c' p' hp' => ?_, fun p' hp' halive => ?_, fun c' p' b hc' hm => ?_,
    fun c' p' hc' hm => ?_, fun p' x hx => ?_, fun p₁ p₂ x₁ x₂ hx₁ hx₂ heq => ?_,
    fun p' x hx hr => ?_, by rw [hdata]; exact h.unused, fun c' p' hp' => ?_⟩
  · -- the lock of `p` passes to the scheduler
    rw [hback]
    refine ⟨fun c'' hc'' => (by cases hc''; rfl), ?_, hk.lockProc, hk.lockSpin, hk.noff, hk.cproc,
      ?_, ?_, ?_, ?_, ?_, ?_, ?_⟩
    · exact ⟨fun _ h => (by cases h), fun _ _ => ⟨by simp [View.back], by simp [View.back], rfl,
        rfl, rfl, rfl⟩, by simp [View.back], by simp [View.back], by simp [View.back],
        by simp [View.back], List.nodup_nil, by simp [View.back]⟩
    · intro p' hp'
      cases hp'
    · intro q st hm
      cases hm
    · intro x p' hx
      cases hx
    · intro p' hp'
      cases hp'
    · intro p' q hp'
      cases hp'
    · intro p' ch hp'
      cases hp'
    · intro q pid _ hseen
      cases hseen
  · have hc : c' ≠ c := by
      rintro rfl
      rw [hsw.self] at hp'
      cases hp'
    rw [hsw.other hc] at hp'
    obtain ⟨hr, hb⟩ := h.saved c' p' hp'
    exact ⟨hsw.resumes (by simp) hr, by rw [hviews (by simp), hb]⟩
  · by_cases hpp : p' = p
    · subst hpp
      rw [update_self]
      exact ⟨hsw.waits, rfl⟩
    · have hpp' : (.proc p' : Slot m n) ≠ .proc p := fun heq => hpp (Slot.proc.inj heq)
      have hold : s.Off p' := by
        intro c'
        by_cases hc : c' = c
        · rw [hc, hp]
          exact hpp'.symm
        · rw [← hsw.other hc]
          exact hp' c'
      rw [hdata] at halive
      obtain ⟨hr, hres⟩ := h.off p' hold halive
      exact ⟨hsw.resumes hpp' hr, by rw [hviews hpp']; exact hres⟩
  · rw [hviews (by simp)] at hm
    by_cases hc : c' = c
    · rw [hc, hback] at hm
      cases hm
    · rw [hsw.other hc] at hc'
      obtain ⟨hrun, hoff'⟩ := h.entering c' p' b hc' hm
      exact ⟨by rw [hdata]; exact hrun, hoff p' hoff'⟩
  · rw [hviews (by simp)] at hm
    by_cases hc : c' = c
    · rw [hc, hback] at hm
      cases hm
      intro c''
      by_cases hc'' : c'' = c
      · rw [hc'', hsw.self]
        simp
      · rw [hsw.other hc'']
        exact hne hc''
    · rw [hsw.other hc] at hc'
      exact hoff p' (h.left c' p' hc' hm)
  · rw [hchildren] at hx
    rw [hdata]
    exact h.child p' x hx
  · rw [hchildren] at hx₁ hx₂
    exact h.childInj p₁ p₂ x₁ x₂ hx₁ hx₂ heq
  · rw [hchildren] at hx
    obtain ⟨hr', hres⟩ := h.ready p' x hx hr
    have hxp : (.proc x.slot : Slot m n) ≠ .proc p := hp ▸ h.child_ne hx c
    exact ⟨hsw.resumes hxp hr', by rw [hviews hxp, hres]⟩
  · have hc : c' ≠ c := by
      rintro rfl
      rw [hsw.self] at hp'
      cases hp'
    rw [hsw.other hc] at hp'
    rw [hdata]
    exact h.busy c' p' hp'

/-- **A scheduler switches to a process**, which answers for its lock from now on. -/
theorem swtchIn (h : Inv init s view) {c : Fin m} {q : Fin n} {k : Code m n}
    (hc : s.stack c = .cpu c) (hview : view (.cpu c) =
      { View.back q with mode := .entering q true })
    (hok : Ok init k (.cpu c) (.back q))
    (hcur : s'.cur = update s.cur c (s.context (.proc q))) (hdata : s'.data = s.data)
    (hctx : s'.context = update s.context (.cpu c) ⟨.cpu c, k⟩) :
    Inv init s' (update view (.cpu c) (.back q)) := by
  have hk := h.knows c
  rw [hc, hview] at hk
  obtain ⟨hrun, hoffq⟩ := h.entering c q true hc (by rw [hview])
  obtain ⟨hsaved, hres⟩ := h.off q hoffq (Or.inr (Or.inr hrun))
  have hsw := h.switched hc (by simp) hsaved hok hcur hctx
  have hviews : ∀ {τ}, τ ≠ .cpu c → update view (.cpu c) (.back q) τ = view τ :=
    fun hτ => update_of_ne hτ ..
  -- another scheduler holds the lock of another process
  have hlock : ∀ {c' p'}, c' ≠ c → (view (s.stack c')).mode.lock
    (s.stack c') = some p' → p' ≠ q := by
    rintro c' p' hc' hl rfl
    have h₁ := ((h.knows c').lockProc p').mpr hl
    have h₂ := (hk.lockProc p').mpr rfl
    exact hc' (Option.some.inj (h₁.symm.trans h₂))
  have hoff : ∀ {p'}, p' ≠ q → s.Off p' → s'.Off p' := by
    intro p' hpq hoff c'
    by_cases hc' : c' = c
    · rw [hc', hsw.self]
      exact fun heq => hpq (Slot.proc.inj heq).symm
    · rw [hsw.other hc']
      exact hoff c'
  refine ⟨hsw.inj fun _ => hoffq _, hsw.knows hdata ?_, hsw.ok,
    fun c' p' hp' => ?_, fun p' hp' halive => ?_, fun c' p' b hc' hm => ?_,
    fun c' p' hc' hm => ?_, fun p' x hx => ?_, fun p₁ p₂ x₁ x₂ hx₁ hx₂ heq => ?_,
    fun p' x hx hr => ?_, by rw [hdata]; exact h.unused, fun c' p' hp' => ?_⟩
  · -- the lock of `q` passes to the process
    rw [hres]
    refine ⟨fun c'' hc'' => (by cases hc''), ?_, hk.lockProc, hk.lockSpin, hk.noff, hk.cproc, ?_,
      ?_, ?_, ?_, ?_, ?_, ?_⟩
    · exact ⟨fun _ _ => by simp [View.resumed], fun _ h => (by cases h), by simp [View.resumed],
        by simp [View.resumed], by simp [View.resumed], by simp [View.resumed], List.nodup_nil,
        by simp [View.resumed]⟩
    · intro p' hp' _
      cases hp'
      exact hrun
    · intro x st hm
      cases hm
    · intro x p' hx hp'
      cases hp'
      exact h.child q x hx
    · intro p' hp' x hx
      cases hx
    · intro p' x hp' hx
      cases hx
    · intro p' ch hp' hpl
      cases hpl
    · intro q pid _ hseen
      cases hseen
  · by_cases hc' : c' = c
    · subst hc'
      rw [hsw.self] at hp'
      cases hp'
      rw [update_self]
      exact ⟨hsw.waits, rfl⟩
    · rw [hsw.other hc'] at hp'
      obtain ⟨hr, hb⟩ := h.saved c' p' hp'
      have hcc : (.cpu c' : Slot m n) ≠ .cpu c := fun heq => hc' (Slot.cpu.inj heq)
      exact ⟨hsw.resumes hcc hr, by rw [hviews hcc, hb]⟩
  · have hold : s.Off p' := by
      intro c'
      by_cases hc' : c' = c
      · rw [hc', hc]
        simp
      · rw [← hsw.other hc']
        exact hp' c'
    rw [hdata] at halive
    obtain ⟨hr, hres'⟩ := h.off p' hold halive
    exact ⟨hsw.resumes (by simp) hr, by rw [hviews (by simp)]; exact hres'⟩
  · have hcc : c' ≠ c := by
      rintro rfl
      rw [hsw.self] at hc'
      cases hc'
    rw [hsw.other hcc] at hc'
    rw [hviews fun heq => hcc (Slot.cpu.inj heq)] at hm
    obtain ⟨hrun', hoff'⟩ := h.entering c' p' b hc' hm
    refine ⟨by rw [hdata]; exact hrun', hoff (hlock hcc ?_) hoff'⟩
    rw [hc', hm]
    rfl
  · have hcc : c' ≠ c := by
      rintro rfl
      rw [hsw.self] at hc'
      cases hc'
    rw [hsw.other hcc] at hc'
    rw [hviews fun heq => hcc (Slot.cpu.inj heq)] at hm
    refine hoff (hlock hcc ?_) (h.left c' p' hc' hm)
    rw [hc', hm]
    rfl
  · rw [hviews (by simp)] at hx
    rw [hdata]
    exact h.child p' x hx
  · rw [hviews (by simp)] at hx₁ hx₂
    exact h.childInj p₁ p₂ x₁ x₂ hx₁ hx₂ heq
  · rw [hviews (by simp)] at hx
    obtain ⟨hr', hres'⟩ := h.ready p' x hx hr
    exact ⟨hsw.resumes (by simp) hr', by rw [hviews (by simp), hres']⟩
  · rw [hdata]
    by_cases hc' : c' = c
    · subst hc'
      rw [hsw.self] at hp'
      cases hp'
      simp [hrun]
    · rw [hsw.other hc'] at hp'
      exact h.busy c' p' hp'

end Inv

/-! ### Runs -/

/-- **Every step keeps the invariant.** -/
theorem AStep.inv (hstep : AStep init s view s' view') (h : Inv init s view) :
    Inv init s' view' := by
  cases hstep with
  | @look c k v' hlearn hok =>
    refine h.calm rfl rfl hok (hlearn.knows (h.knows c)) (fun c' _ => h.knows c') rfl ?_ ?_
    · cases hlearn <;> rfl
    · cases hlearn with
      | state _ => exact Or.inr (by simp)
      | _ => exact Or.inl rfl
  | @acquireProc c q k hfree hmode hok =>
    refine h.calm rfl rfl hok ((h.knows c).acquireProc hfree hmode)
      (fun c' hc => (h.knows c').frame_acquire hc hfree) rfl rfl (Or.inr ?_)
    by_cases hq : s.stack c = .proc q
    · simp [View.take, hq]
    · simp [View.take, hq]
  | @acquireSpin c g k hfree hok =>
    exact h.calm rfl rfl hok ((h.knows c).acquireSpin hfree)
      (fun c' hc => (h.knows c').frame_acquire hc hfree) rfl rfl (Or.inl rfl)
  | @releaseProc c q k hheld hmode hok =>
    exact h.calm rfl rfl hok ((h.knows c).releaseProc hmode)
      (fun c' hc => (h.knows c').frame_release hc hheld) rfl rfl (Or.inr (by simp))
  | @releaseSpin c g k pl hheld hwake hpl hok =>
    exact h.calm rfl rfl hok
      ((h.knows c).releaseSpin (((h.knows c).lockSpin g).mp hheld) hwake hpl)
      (fun c' hc => (h.knows c').frame_release hc hheld) rfl rfl (Or.inl rfl)
  | assign hlegal hok => exact h.assign rfl rfl hlegal hok
  | setContext hp hmode hchild hstart hok =>
    exact h.setContext hp hmode hchild hstart hok rfl rfl rfl
  | swtchOut hp hview hok => exact h.swtchOut hp hview hok rfl rfl rfl
  | swtchIn hc hview hok => exact h.swtchIn hc hview hok rfl rfl rfl
  | @wakeupBegin c ch k hwake hlock hok =>
    refine h.calm rfl rfl hok ?_ (fun c' _ => h.knows c') rfl rfl (Or.inl rfl)
    have hk := h.knows c
    refine { hk with wf := { hk.wf with wake := fun ch' qs hw => ?_ } }
    cases hw
    exact hlock
  | @wakeupEnd c ch k hwake hok =>
    refine h.calm rfl rfl hok ?_ (fun c' _ => h.knows c') rfl rfl (Or.inl rfl)
    have hk := h.knows c
    refine { hk with wf := { hk.wf with wake := fun ch' qs hw => ?_ } }
    cases hw

/-- The views at the start. -/
def bootView : Slot m n → View n
  | .cpu _ => .idle []
  | .proc _ => .resumed none

theorem inv_boot (init : Fin n) : Inv (m := m) init (.boot init) bootView := by
  have hproc : ∀ p, ((Machine.boot init : Machine m n).data.proc p).parent = none := by
    intro p
    by_cases hp : p = init
    · simp [Machine.boot, hp, Proc.unused]
    · simp [Machine.boot, hp, Proc.unused]
  refine ⟨fun c c' h => Slot.cpu.inj h, fun c => ?_, fun c => rfl, fun c p h => (by cases h),
    fun p _ _ => ⟨⟨rfl, ok_forkret⟩, rfl⟩, fun c p b _ h => (by cases h), fun c p _ h =>
      (by cases h),
    fun p x h => (by cases h), fun p p' x x' h => (by cases h), fun p x h => (by cases h),
    fun q _ => hproc q, fun c p h => (by cases h)⟩
  refine ⟨fun c' h => (Slot.cpu.inj h).symm, ?_, fun q => ?_, fun g => ?_, rfl, rfl,
    fun p h => (by cases h), fun q st h => (by cases h), fun x p h => (by cases h),
    fun p h => (by cases h), fun p q h => (by cases h), fun p ch h => (by cases h),
    fun q pid _ h => (by cases h)⟩
  · exact ⟨fun p h => (by cases h), fun _ _ => ⟨by simp [bootView, View.idle, Machine.boot,
      Machine.stack],
      by simp [bootView, View.idle, Machine.boot, Machine.stack], rfl, rfl, rfl, rfl⟩,
      fun h => absurd rfl h, fun h => absurd rfl h, fun ch qs h =>
        (by cases h), fun h => absurd rfl h,
      List.nodup_nil, fun h => absurd rfl h⟩
  · exact ⟨fun h => (by cases h), fun h => (by cases h)⟩
  · exact ⟨fun h => (by cases h), fun h => (by cases h)⟩

/-- The states that are reached, with views. -/
inductive ARuns (init : Fin n) : Machine m n → (Slot m n → View n) → Prop
  | boot : ARuns init (.boot init) bootView
  | step {s s' : Machine m n} {view view' : Slot m n → View n} (h : ARuns init s view)
    (hstep : AStep init s view s' view') : ARuns init s' view'

theorem ARuns.inv (h : ARuns init s view) : Inv init s view := by
  induction h with
  | boot => exact inv_boot init
  | step _ hstep ih => exact hstep.inv ih

theorem Runs.annotate (h : Runs init s) : ∃ view, ARuns init s view := by
  induction h with
  | boot => exact ⟨_, .boot⟩
  | step e _ hstep ih =>
    obtain ⟨view, ih⟩ := ih
    obtain ⟨view', hstep'⟩ := ih.inv.aStep hstep
    exact ⟨view', .step ih hstep'⟩

/-- **A process runs on at most one CPU, and only from a saved context**: in every state that
is reached, no process is `c->proc` of two CPUs, and no CPU uses the stack of a process that is
RUNNABLE with its lock free. -/
theorem one_cpu_of_runs (h : Runs init s) :
    (∀ c c' p, s.data.cproc c = some p → s.data.cproc c' = some p → c = c') ∧
      ∀ p, (s.data.proc p).state = .runnable → s.data.lock (.proc p) = none → s.Off p := by
  obtain ⟨view, hruns⟩ := h.annotate
  have hinv := hruns.inv
  -- a CPU with `c->proc = p` uses the stack of `p`, or holds its lock while `p` is on no stack
  have hcproc : ∀ {c p}, s.data.cproc c = some p →
      s.stack c = .proc p ∨ s.data.lock (.proc p) = some c ∧ s.Off p := by
    intro c p hp
    have hk := hinv.knows c
    have hview : (view (s.stack c)).cproc (s.stack c) = some p := hk.cproc.symm.trans hp
    cases hσ : s.stack c with
    | proc p' =>
      rw [hσ] at hview
      exact Or.inl (congrArg Slot.proc (Option.some.inj hview))
    | cpu c' =>
      right
      rw [hk.lockProc]
      rw [hσ] at hview
      cases hmode : (view (s.stack c)).mode with
      | entering q b =>
        cases b with
        | true =>
          have hq : q = p := by simpa [View.cproc, ← hσ, hmode] using hview
          subst hq
          exact ⟨rfl, (hinv.entering_of_mode hmode).2⟩
        | false => simp [View.cproc, ← hσ, hmode] at hview
      | left q =>
        have hq : q = p := by simpa [View.cproc, ← hσ, hmode] using hview
        subst hq
        exact ⟨rfl, hinv.left_of_mode hmode⟩
      | _ => simp [View.cproc, ← hσ, hmode] at hview
  refine ⟨fun c c' p hc hc' => ?_, fun p hrun hfree c hc => ?_⟩
  · rcases hcproc hc with hc | ⟨hl, hoff⟩
    · rcases hcproc hc' with hc' | ⟨-, hoff⟩
      · exact hinv.inj c c' (hc.trans hc'.symm)
      · exact (hoff c hc).elim
    · rcases hcproc hc' with hc' | ⟨hl', -⟩
      · exact (hoff c' hc').elim
      · exact Option.some.inj (hl.symm.trans hl')
  · have hk := hinv.knows c
    rw [hc] at hk
    by_cases hleave : (view (.proc p)).mode = .leaving
    · have := (hk.lockProc p).mpr (by rw [hleave]; rfl)
      rw [hfree] at this
      cases this
    · have := hk.running p rfl hleave
      rw [hrun] at this
      cases this

/-- The timer interrupts the first process on CPU `c`, which switches back to its scheduler. -/
def yieldsToTimer (c : Fin m) : List (Event m n) :=
  .replicate 8 (.exec c) ++ [.intr c .timer] ++ .replicate 8 (.exec c)

theorem one_cpu_yieldsToTimer : ∃ s : Machine 2 1, Runs 0 s ∧
    ((s.data.proc 0).state = .runnable ∧ s.data.lock (.proc 0) = none) ∧
    (∀ c c' p, s.data.cproc c = some p → s.data.cproc c' = some p → c = c') ∧
      ∀ p, (s.data.proc p).state = .runnable → s.data.lock (.proc p) = none → s.Off p := by
  obtain ⟨s, hs, hfacts⟩ := exists_runs_of_after 0 (yieldsToTimer 0)
    (P := fun s : Machine 2 1 => (s.data.proc 0).state = .runnable ∧ s.data.lock (.proc 0) = none)
    (by decide +kernel)
  exact ⟨s, hs, hfacts, one_cpu_of_runs hs⟩

end Xv6Ext2.Smp
