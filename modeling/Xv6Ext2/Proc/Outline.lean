import Xv6Ext2.Proc.Machine

/-!
# What kernel code may assume

A proof outline for the code of `kernel/proc.c`.  At each point of its code a context has a
`View`: the locks that its CPU holds, and facts about shared data that no other CPU can
change meanwhile.  `Ok` says that from a view on, every step of a piece of code is one of a
short list of transitions (`Legal`), whatever it reads.

## Main definitions

* `View`, `View.Knows` — what a context may assume, and that it is true of the data.
* `Learn`, `Legal` — what can be learnt from a look, and what an assignment may do.
* `Ok` — code that keeps to this.

## Main results

* `ok_scheduler`, `ok_call`, `ok_intr` — **all code of the machine keeps to it.**
-/

namespace Xv6Ext2.Smp

variable {m n : ℕ}

/-! ### Views -/

/-- Which process lock is held.  `locked q st`: that of another process, whose state is `st`
if that is known; `own`: the process's own, while it is RUNNING; `leaving`: the process's own,
with another state, on the way to `swtch`.  In the scheduler: `entering q`, where `q` is
RUNNING but does not run yet, and `c->proc` may be set; `left q` after `q` has come back. -/
inductive Mode (n : ℕ)
  | free
  | locked (q : Fin n) (st : Option State)
  | own
  | leaving
  | entering (q : Fin n) (set : Bool)
  | left (q : Fin n)
deriving DecidableEq

/-- A process that `fork` is about to create: whether its context is set up, and whether it
has its parent. -/
structure Child (n : ℕ) where
  slot : Fin n
  ready : Bool
  parented : Bool

/-- What a context may assume.  `others` are the locks it holds besides that of `mode`;
`orphaned` are processes that are not children of this one, and `kid` is one that is; `wake`
says which processes a call of `wakeup` still has to visit; `pledge` is a channel on which the
process is about to sleep, having released its lock, and whether `p->chan` is set; `seen` is
the `pid` of the process whose lock is held, if it has been read. -/
structure View (n : ℕ) where
  others : List Spin
  mode : Mode n
  child : Option (Child n)
  orphaned : List (Fin n)
  kid : Option (Fin n)
  wake : Option (Chan n × List (Fin n))
  pledge : Option (Chan n × Bool)
  seen : Option ℕ

/-- The process lock that is held. -/
def Mode.lock (σ : Slot m n) : Mode n → Option (Fin n)
  | .free => none
  | .locked q _ => some q
  | .own | .leaving => match σ with
    | .proc p => some p
    | .cpu _ => none
  | .entering q _ => some q
  | .left q => some q

namespace View

/-- `c->proc` -/
def cproc (σ : Slot m n) (v : View n) : Option (Fin n) :=
  match σ with
  | .proc p => some p
  | .cpu _ => match v.mode with
    | .entering q true => some q
    | .left q => some q
    | _ => none

/-- `c->noff` -/
def noff (σ : Slot m n) (v : View n) : ℕ := (v.mode.lock σ).elim 0 (fun _ => 1) + v.others.length

/-- Between calls. -/
def idle (others : List Spin) : View n := ⟨others, .free, none, [], none, none, none, none⟩

/-- When a process comes back from `swtch`. -/
def resumed (child : Option (Child n)) : View n := ⟨[], .own, child, [], none, none, none, none⟩

/-- When a scheduler comes back from `swtch`. -/
def back (q : Fin n) : View n := ⟨[], .left q, none, [], none, none, none, none⟩

/-- The parts of a view fit together. -/
structure WF (σ : Slot m n) (v : View n) : Prop where
  thread : ∀ p, σ = .proc p → (∀ q b, v.mode ≠ .entering q b) ∧ (∀ q, v.mode ≠ .left q) ∧
    ∀ st, v.mode ≠ .locked p st
  scheduler : ∀ c, σ = .cpu c → v.mode ≠ .own ∧ v.mode ≠ .leaving ∧ v.child = none ∧
    v.orphaned = [] ∧ v.kid = none ∧ v.pledge = none
  orphaned : v.orphaned ≠ [] → .wait ∈ v.others
  kid : v.kid ≠ none → .wait ∈ v.others ∨ v.pledge ≠ none
  wake : ∀ ch qs, v.wake = some (ch, qs) → ch.lock ∈ v.others
  pledge : v.pledge ≠ none → v.mode = .own
  nodup : v.others.Nodup
  seen : v.seen ≠ none → v.mode.lock σ ≠ none

/-- What the view says is true of the data, on CPU `c`. -/
structure Knows (σ : Slot m n) (v : View n) (c : Fin m) (d : Data m n) : Prop where
  home : ∀ c', σ = .cpu c' → c' = c
  wf : v.WF σ
  lockProc : ∀ q, d.lock (.proc q) = some c ↔ v.mode.lock σ = some q
  lockSpin : ∀ g, d.lock (.spin g) = some c ↔ g ∈ v.others
  noff : d.noff c = v.noff σ
  cproc : d.cproc c = v.cproc σ
  running : ∀ p, σ = .proc p → v.mode ≠ .leaving → (d.proc p).state = .running
  locked : ∀ q st, v.mode = .locked q (some st) → (d.proc q).state = st
  child : ∀ x p, v.child = some x → σ = .proc p →
    (d.proc x.slot).state = .used ∧ (d.proc x.slot).parent = if x.parented then some p else none
  orphaned : ∀ p, σ = .proc p → ∀ q ∈ v.orphaned, (d.proc q).parent ≠ some p
  kid : ∀ p q, σ = .proc p → v.kid = some q → (d.proc q).parent = some p
  pledge : ∀ p ch, σ = .proc p → v.pledge = some (ch, true) → (d.proc p).chan = ch
  seen : ∀ q pid, v.mode.lock σ = some q → v.seen = some pid → (d.proc q).pid = pid

end View

/-! ### Transitions -/

/-- What can be learnt by looking at the data. -/
inductive Learn (σ : Slot m n) (d : Data m n) (v : View n) : View n → Prop
  | same : Learn σ d v v
  | state {q : Fin n} (hmode : v.mode = .locked q none) :
    Learn σ d v { v with mode := .locked q (some (d.proc q).state) }
  | orphan {p q : Fin n} (hp : σ = .proc p) (hwait : .wait ∈ v.others)
    (hparent : (d.proc q).parent ≠ some p) : Learn σ d v { v with orphaned := q :: v.orphaned }
  | kid {p q : Fin n} (hp : σ = .proc p) (hwait : .wait ∈ v.others)
    (hparent : (d.proc q).parent = some p) : Learn σ d v { v with kid := some q }
  | skip {ch : Chan n} {q : Fin n} {qs : List (Fin n)} (hq : σ = .proc q) (hmode : v.mode = .free)
    (hwake : v.wake = some (ch, q :: qs)) : Learn σ d v { v with wake := some (ch, qs) }
  | pid {q : Fin n} (hlock : v.mode.lock σ = some q) :
    Learn σ d v { v with seen := some (d.proc q).pid }

/-- What is left of what is known about the state of a locked process after it has changed. -/
def Mode.forget : Mode n → Mode n
  | .locked q _ => .locked q none
  | mode => mode

/-- What an assignment may do. -/
inductive Legal (init : Fin n) (σ : Slot m n) (c : Fin m) (d : Data m n) (v : View n) :
    Data m n → View n → Prop
  /-- `nextpid` -/
  | pid (k : ℕ) : Legal init σ c d v { d with nextpid := k } v
  /-- `killed` -/
  | setkilled {q : Fin n} (hlock : v.mode.lock σ = some q) :
    Legal init σ c d v (d.set q { d.proc q with killed := true }) v
  /-- `killed`, and waking a sleeper. -/
  | kill {q : Fin n} (pid : ℤ) (hlock : v.mode.lock σ = some q) (hmode : v.mode ≠ .leaving)
    (hpid : (d.proc q).pid = pid) :
    Legal init σ c d v ((d.set q (d.proc q).kill).note (.killed pid q (d.proc q)))
      { v with mode := v.mode.forget }
  /-- Visiting a process in `wakeup`. -/
  | visit {q : Fin n} {qs : List (Fin n)} {st : Option State} {ch : Chan n}
    (hmode : v.mode = .locked q st) (hwake : v.wake = some (ch, q :: qs)) :
    Legal init σ c d v (d.set q ((d.proc q).wake ch))
      { v with mode := .locked q none, wake := some (ch, qs) }
  /-- UNUSED to USED -/
  | alloc {p q : Fin n} (pid : ℕ) (hp : σ = .proc p) (hmode : v.mode = .locked q (some .unused))
    (hchild : v.child = none) :
    Legal init σ c d v
      ((d.set q { d.proc q with pid := pid, state := .used }).note (.allocated q pid))
      { v with mode := .locked q none, child := some ⟨q, false, false⟩, seen := none }
  /-- USED to UNUSED -/
  | unalloc {p q : Fin n} {st : Option State} {ready : Bool} (hp : σ = .proc p)
    (hmode : v.mode = .locked q st) (hchild : v.child = some ⟨q, ready, false⟩) :
    Legal init σ c d v (d.set q (d.proc q).free)
      { v with mode := .locked q none, child := none, seen := none }
  /-- ZOMBIE to UNUSED -/
  | reap {p q : Fin n} (hp : σ = .proc p) (hmode : v.mode = .locked q (some .zombie))
    (hkid : v.kid = some q) :
    Legal init σ c d v
      ((d.set q (d.proc q).free).note (.reaped p q (d.proc q).pid (d.proc q).xstate))
      { v with mode := .locked q none, kid := none, seen := none }
  /-- USED to RUNNABLE -/
  | publish {p q : Fin n} {st : Option State} (hp : σ = .proc p)
    (hmode : v.mode = .locked q st) (hchild : v.child = some ⟨q, true, true⟩) :
    Legal init σ c d v (d.set q { d.proc q with state := .runnable })
      { v with mode := .locked q none, child := none }
  /-- `np->parent = p` -/
  | adopt {p q : Fin n} {ready : Bool} (hp : σ = .proc p) (hmode : v.mode = .free)
    (hwait : .wait ∈ v.others) (horph : v.orphaned = [])
    (hchild : v.child = some ⟨q, ready, false⟩) :
    Legal init σ c d v (d.set q { d.proc q with parent := some p })
      { v with child := some ⟨q, ready, true⟩ }
  /-- `pp->parent = initproc` -/
  | reparent {p q : Fin n} (hp : σ = .proc p) (hinit : p ≠ init) (hmode : v.mode = .free)
    (hchild : v.child = none) (hwait : .wait ∈ v.others) (hkid : v.kid = some q) :
    Legal init σ c d v (d.set q { d.proc q with parent := some init })
      { v with kid := none, orphaned := q :: v.orphaned }
  /-- `p->chan` -/
  | chan {p : Fin n} (ch : Chan n) (pl : Option (Chan n × Bool)) (hp : σ = .proc p)
    (hmode : v.mode = .own)
    (hpledge : ∀ ch' b, pl = some (ch', b) → (∃ b', v.pledge = some (ch', b')) ∧ ch = ch')
    (hkid : pl = none → v.kid = none) :
    Legal init σ c d v (d.set p { d.proc p with chan := ch }) { v with pledge := pl }
  /-- RUNNING to SLEEPING.  A process that sleeps in `wait` has a child. -/
  | sleep {p : Fin n} {ch : Chan n} (hp : σ = .proc p) (hmode : v.mode = .own)
    (hpledge : v.pledge = some (ch, true)) (hkid : ch = .proc p → v.kid ≠ none) :
    Legal init σ c d v (d.set p { d.proc p with state := .sleeping })
      { v with mode := .leaving, pledge := none, kid := none }
  /-- RUNNING to RUNNABLE -/
  | yield {p : Fin n} (hp : σ = .proc p) (hmode : v.mode = .own) (hpledge : v.pledge = none) :
    Legal init σ c d v (d.set p { d.proc p with state := .runnable }) { v with mode := .leaving }
  /-- RUNNING to ZOMBIE -/
  | exit {p : Fin n} (status : ℤ) (hp : σ = .proc p) (hinit : p ≠ init) (hmode : v.mode = .own)
    (hpledge : v.pledge = none) (hchild : v.child = none) (horph : ∀ q, q ∈ v.orphaned) :
    Legal init σ c d v
      ((d.set p { d.proc p with xstate := status, state := .zombie }).note
        (.exited p (d.proc p).pid status))
      { v with mode := .leaving }
  /-- RUNNABLE to RUNNING -/
  | run {q : Fin n} (hc : σ = .cpu c) (hmode : v.mode = .locked q (some .runnable)) :
    Legal init σ c d v (d.set q { d.proc q with state := .running })
      { v with mode := .entering q false }
  /-- `c->proc = p` -/
  | enter {q : Fin n} (hc : σ = .cpu c) (hmode : v.mode = .entering q false) :
    Legal init σ c d v (d.setCproc c (some q)) { v with mode := .entering q true }
  /-- `c->proc = 0` -/
  | leave {q : Fin n} (hc : σ = .cpu c) (hmode : v.mode = .left q) :
    Legal init σ c d v (d.setCproc c none) { v with mode := .locked q none }

/-- The view after the release of a spin lock; `pl` may be a new pledge.  A process that is
about to sleep in `wait` still has its child, since nobody else frees it or hands it on. -/
def View.drop (v : View n) (g : Spin) (pl : Option (Chan n × Bool)) : View n :=
  { v with
    others := v.others.erase g
    orphaned := if g = .wait then [] else v.orphaned
    kid := if g = .wait ∧ pl = none then none else v.kid
    pledge := pl }

/-- Code that keeps to the transitions, from a view on. -/
def Ok (init : Fin n) : Code m n → Slot m n → View n → Prop
  | .done, .proc _, v => v = .idle v.others
  | .done, .cpu _, v => v = .idle []
  | .panic _, _, _ => True
  | .acquire (.proc q) k, σ, v => v.mode = .free ∧
    Ok init k σ { v with mode := if σ = .proc q then .own else .locked q none }
  | .acquire (.spin g) k, σ, v => g ∉ v.others → Ok init k σ { v with others := g :: v.others }
  | .release (.proc q) k, σ, v =>
    (σ = .proc q ∧ v.mode = .own ∧ v.pledge = none ∨ ∃ st, v.mode = .locked q st) ∧
      Ok init k σ { v with mode := .free, seen := none }
  | .release (.spin g) k, σ, v => g ∈ v.others →
    (∀ ch qs, v.wake = some (ch, qs) → ch.lock ≠ g) ∧
      ∃ pl, (pl = v.pledge ∨ ∃ ch : Chan n, ch.lock = g ∧ v.mode = .own ∧
        v.wake = none ∧ pl = some (ch, false)) ∧
        Ok init k σ (v.drop g pl)
  | .look f, σ, v => ∀ c d, v.Knows σ c d → ∃ v', Learn σ d v v' ∧ Ok init (f c d) σ v'
  | .assign g k, σ, v => ∀ c d, v.Knows σ c d →
    ∃ v', Legal init σ c d v (g c d) v' ∧ Ok init k σ v'
  | .setContext q start k, σ, v =>
    (∃ p, σ = .proc p) ∧ ∃ st, v.mode = .locked q st ∧
      ∃ ready, v.child = some ⟨q, ready, false⟩ ∧
        Ok init start (.proc q) (.resumed none) ∧
        Ok init k σ { v with child := some ⟨q, true, false⟩ }
  | .swtch old new k, σ, v =>
    (∃ p, σ = .proc p ∧ old = .proc p ∧ new = .cpu ∧
      v = { View.resumed v.child with mode := .leaving } ∧ Ok init k σ (.resumed v.child)) ∨
    ∃ c q, σ = .cpu c ∧ old = .cpu c ∧ new = (fun _ => .proc q) ∧
      v = { View.back q with mode := .entering q true } ∧ Ok init k σ (.back q)
  | .wakeupBegin ch k, σ, v => v.wake = none ∧ ch.lock ∈ v.others ∧
    Ok init k σ { v with wake := some (ch, List.finRange n) }
  | .wakeupEnd ch k, σ, v => v.wake = some (ch, []) ∧ Ok init k σ { v with wake := none }

/-! ### The functions of the source -/

section Routines

variable {init p : Fin n} {σ : Slot m n} {v : View n} {k : Code m n}

/-- Code that looks at data without learning anything. -/
theorem ok_look {f : Fin m → Data m n → Code m n}
    (h : ∀ c d, v.Knows σ c d → Ok init (f c d) σ v) : Ok init (.look f) σ v :=
  fun c d hk => ⟨v, .same, h c d hk⟩

theorem ok_withProc {f : Fin n → Code m n} (h : Ok init (f p) (.proc p) v) :
    Ok init (withProc f) (.proc p) v := by
  apply ok_look
  intro c d hk
  rw [hk.cproc]
  exact h

theorem ok_read {q : Fin n} {f : Proc n → Code m n} (h : ∀ r, Ok init (f r) σ v) :
    Ok init (read q f) σ v :=
  ok_look fun _ d _ => h (d.proc q)

/-- A read under the lock of the process. -/
theorem ok_read_locked {q : Fin n} {f : Proc n → Code m n} (hmode : v.mode = .locked q none)
    (h : ∀ r, Ok init (f r) σ { v with mode := .locked q (some r.state) }) :
    Ok init (read q f) σ v :=
  fun _ d _ => ⟨_, .state hmode, h (d.proc q)⟩

/-- The view of a context that has just taken the lock of `q`. -/
def View.take (σ : Slot m n) (q : Fin n) (v : View n) : View n :=
  { v with mode := if σ = .proc q then .own else .locked q none }

theorem ok_acquire {q : Fin n} (hmode : v.mode = .free) (h : Ok init k σ (v.take σ q)) :
    Ok init (.acquire (.proc q) k) σ v := ⟨hmode, h⟩

theorem take_lock (q : Fin n) : (v.take σ q).mode.lock σ = some q := by
  by_cases hq : σ = .proc q
  · simp [View.take, hq, Mode.lock]
  · simp [View.take, hq, Mode.lock]

theorem ok_release_take {q : Fin n} {x : Option ℕ} (hmode : v.mode = .free)
    (hpledge : v.pledge = none) (hseen : v.seen = none) (h : Ok init k σ v) :
    Ok init (.release (.proc q) k) σ { v.take σ q with seen := x } := by
  have hv : { v.take σ q with mode := .free, seen := none } = v := by
    rw [← hmode, ← hseen]
    rfl
  refine ⟨?_, ?_⟩
  · by_cases hq : σ = .proc q
    · exact Or.inl ⟨hq, if_pos hq, hpledge⟩
    · exact Or.inr ⟨none, if_neg hq⟩
  · rw [hv]
    exact h

/-- Taking a process lock, looking at the process, and releasing the lock. -/
theorem ok_peek {q : Fin n} {f : Proc n → Code m n} (hmode : v.mode = .free)
    (hpledge : v.pledge = none) (hseen : v.seen = none) (h : ∀ r, Ok init (f r) σ v) :
    Ok init (.acquire (.proc q) <| read q fun r => .release (.proc q) (f r)) σ v :=
  ok_acquire hmode (ok_read fun r => ok_release_take hmode hpledge hseen (h r))

/-! #### Switching -/

/-- Code between `swtch`es, without a process lock. -/
def View.calm (others : List Spin) (child : Option (Child n)) : View n :=
  ⟨others, .free, child, [], none, none, none, none⟩

theorem ok_sched {others : List Spin} {child : Option (Child n)}
    (h : Ok init k (.proc p) (.resumed child)) :
    Ok init (sched k) (.proc p) ⟨others, .leaving, child, [], none, none, none, none⟩ := by
  apply ok_look
  intro c d hk
  have hcproc : d.cproc c = some p := hk.cproc
  have hnoff : d.noff c = 1 + others.length := hk.noff
  simp only [hcproc]
  by_cases hlock : d.lock (.proc p) ≠ some c
  · rw [if_pos hlock]
    trivial
  · rw [if_neg hlock]
    by_cases hone : d.noff c ≠ 1
    · rw [if_pos hone]
      trivial
    · rw [if_neg hone]
      -- no other lock is held
      have hnil : others = [] := List.eq_nil_of_length_eq_zero (by omega)
      subst hnil
      split
      · trivial
      · exact Or.inl ⟨p, rfl, rfl, rfl, rfl, h⟩

theorem ok_yield {others : List Spin} {child : Option (Child n)}
    (h : Ok init k (.proc p) (.calm [] child)) :
    Ok init (yield k) (.proc p) (.calm others child) := by
  apply ok_withProc
  refine ok_acquire rfl fun c d hk => ?_
  have hmode : ((View.calm others child).take (.proc p) p : View n).mode = (.own : Mode n) :=
    if_pos (show (Slot.proc p : Slot m n) = .proc p from rfl)
  refine ⟨_, .yield rfl hmode rfl, ok_sched ?_⟩
  exact ⟨Or.inl ⟨rfl, rfl, rfl⟩, h⟩

theorem ok_forkret : Ok init (forkret : Code m n) (.proc p) (.resumed none) := by
  apply ok_withProc
  exact ⟨Or.inl ⟨rfl, rfl, rfl⟩, rfl⟩

theorem ok_schedulerLoop {c : Fin m} (qs : List (Fin n)) :
    Ok init (schedulerLoop c qs) (.cpu c) (.idle []) := by
  induction qs with
  | nil => rfl
  | cons q qs ih =>
    have htake : (View.idle [] : View n).take (.cpu c : Slot m n) q =
        { View.idle [] with mode := .locked q none } := rfl
    apply ok_acquire rfl
    rw [htake]
    apply ok_read_locked rfl
    intro r
    split
    · next hrun =>
      intro c' d hk
      have hc' : c = c' := hk.home c rfl
      subst hc'
      refine ⟨_, .run rfl (by rw [hrun]), fun c' d hk => ?_⟩
      have hc' : c = c' := hk.home c rfl
      subst hc'
      refine ⟨_, .enter rfl rfl, Or.inr ⟨c, q, rfl, rfl, rfl, rfl, fun c' d hk => ?_⟩⟩
      have hc' : c = c' := hk.home c rfl
      subst hc'
      exact ⟨_, .leave rfl rfl, Or.inr ⟨none, rfl⟩, ih⟩
    · exact ⟨Or.inr ⟨_, rfl⟩, ih⟩

theorem ok_scheduler (c : Fin m) : Ok init (scheduler c) (.cpu c) (.idle []) :=
  ok_schedulerLoop _

/-! #### Sleeping and waking -/

/-- A process that sleeps in `wait` has a child. -/
theorem ok_sleep {others : List Spin} {child : Option (Child n)} {kid : Option (Fin n)}
    {ch : Chan n}
    {lk : Spin} (hlk : ch.lock = lk) (hkid : ch = .proc p → kid ≠ none)
    (h : Ok init k (.proc p) (.calm [lk] child)) :
    Ok init (sleep ch lk k) (.proc p) { View.calm others child with kid := kid } := by
  apply ok_withProc
  apply ok_acquire rfl
  intro hmem
  refine ⟨fun _ _ hw => (by cases hw), some (ch, false), Or.inr ⟨ch, hlk, if_pos rfl, rfl, rfl⟩, ?_⟩
  -- the lock is released, and the process is bound to sleep
  have hdrop : View.drop (({ View.calm others child with kid := kid } : View n).take
      (.proc p : Slot m n) p) lk (some (ch, false)) =
      ⟨others.erase lk, .own, child, [], kid, none, some (ch, false), none⟩ := by
    simp [View.drop, View.take, View.calm]
  rw [hdrop]
  intro c d hk
  refine ⟨_, .chan ch (some (ch, true)) rfl rfl ?_ (fun hpl => by cases hpl), fun c d hk => ?_⟩
  · rintro ch' b ⟨⟩
    exact ⟨⟨false, rfl⟩, rfl⟩
  · refine ⟨_, .sleep rfl rfl rfl hkid, ok_sched fun c d hk => ?_⟩
    refine ⟨_, .chan .null none rfl rfl (fun _ _ hpl => by cases hpl) (fun _ => rfl), ?_⟩
    exact ⟨Or.inl ⟨rfl, rfl, rfl⟩, fun _ => h⟩

/-- What `wakeup` does to a process. -/
theorem Proc.wake_cases (ch : Chan n) (r : Proc n) :
    ((r.wake ch).state = r.state ∨ r.state = .sleeping ∧ (r.wake ch).state = .runnable) ∧
      (r.wake ch).chan = r.chan ∧ (r.wake ch).parent = r.parent ∧
      ¬((r.wake ch).state = .sleeping ∧ (r.wake ch).chan = ch) := by
  unfold Proc.wake
  split
  · next h => exact ⟨Or.inr ⟨h.1, rfl⟩, rfl, rfl, fun h' => by cases h'.1⟩
  · next h => exact ⟨Or.inl rfl, rfl, rfl, h⟩

/-- What `kill` does to a process. -/
theorem Proc.kill_cases (r : Proc n) : r.kill.state = r.state ∨
    r.state = .sleeping ∧ r.kill.state = .runnable := by
  by_cases h : r.state = .sleeping
  · exact Or.inr ⟨h, if_pos h⟩
  · exact Or.inl (if_neg h)

theorem ok_wakeupLoop {ch : Chan n} (hmode : v.mode = .free) (hseen : v.seen = none)
    (h : Ok init k σ { v with wake := some (ch, []) }) (qs : List (Fin n)) :
    Ok init (wakeupLoop ch k qs) σ { v with wake := some (ch, qs) } := by
  induction qs with
  | nil => exact h
  | cons q qs ih =>
    intro c d hk
    have hcproc := hk.cproc
    by_cases hq : d.cproc c = some q
    · -- this process itself is skipped
      have hσ : σ = .proc q := by
        rw [hcproc] at hq
        cases σ with
        | proc p => exact congrArg Slot.proc (Option.some.inj hq)
        | cpu c' => simp [View.cproc, hmode] at hq
      refine ⟨_, .skip hσ hmode rfl, ?_⟩
      simp only [hq, if_true]
      exact ih
    · have hσ : σ ≠ .proc q := by
        rintro rfl
        exact hq hcproc
      refine ⟨_, .same, ?_⟩
      simp only [if_neg hq]
      refine ok_acquire hmode fun c d hk => ?_
      refine ⟨_, .visit (if_neg hσ : _ = Mode.locked q none) rfl, Or.inr ⟨none, rfl⟩, ?_⟩
      have hv : { v with wake := some (ch, qs) } =
          { v with mode := .free, wake := some (ch, qs), seen := none } := by
        rw [← hmode, ← hseen]
      rw [hv] at ih
      exact ih

theorem ok_wakeup {ch : Chan n} (hmem : ch.lock ∈ v.others) (hmode : v.mode = .free)
    (hwake : v.wake = none) (hseen : v.seen = none) (h : Ok init k σ v) :
    Ok init (wakeup ch k) σ v := by
  have hv : { v with wake := none } = v := by rw [← hwake]
  have hend : Ok init (.wakeupEnd ch k) σ { v with wake := some (ch, []) } := by
    refine ⟨rfl, ?_⟩
    rw [hv]
    exact h
  exact ⟨hwake, hmem, ok_wakeupLoop hmode hseen hend _⟩

/-- Releasing the lock that was taken last. -/
theorem ok_release_spin {g : Spin} (hg : g ≠ .wait) (hwake : v.wake = none) (h : Ok init k σ v) :
    Ok init (.release (.spin g) k) σ { v with others := g :: v.others } := by
  intro _
  refine ⟨fun _ _ hw => ?_, v.pledge, Or.inl rfl, ?_⟩
  · rw [hwake] at hw
    cases hw
  · simpa [View.drop, hg] using h

theorem ok_release_wait {others : List Spin} (hothers : v.others = .wait :: others)
    (hwake : v.wake = none) (hpledge : v.pledge = none)
    (h : Ok init k σ { v with others := others, orphaned := [], kid := none }) :
    Ok init (.release (.spin .wait) k) σ v := by
  intro _
  refine ⟨fun _ _ hw => ?_, v.pledge, Or.inl rfl, ?_⟩
  · rw [hwake] at hw
    cases hw
  · simpa [View.drop, hothers, hpledge] using h

/-! #### Killing -/

theorem ok_setkilled {others : List Spin} {q : Fin n} :
    Ok init (setkilled q : Code m n) (.proc p) (.idle others) := by
  refine ok_acquire rfl fun _ _ _ => ⟨_, .setkilled (take_lock q), ?_⟩
  have hdone : Ok init (.done : Code m n) (.proc p) (.idle others) := rfl
  exact ok_release_take rfl rfl rfl hdone

/-- Another process's state is no better known than before. -/
theorem forget_take (q : Fin n) :
    (v.take σ q).mode.forget = (v.take σ q).mode ∧ (v.take σ q).mode ≠ .leaving := by
  by_cases hq : σ = .proc q
  · simp [View.take, hq, Mode.forget]
  · simp [View.take, hq, Mode.forget]

theorem ok_killLoop {others : List Spin} {pid : ℤ} (qs : List (Fin n)) :
    Ok init (killLoop pid qs : Code m n) (.proc p) (.idle others) := by
  induction qs with
  | nil => rfl
  | cons q qs ih =>
    refine ok_acquire rfl fun c d hk => ⟨_, .pid (take_lock q), ?_⟩
    dsimp only
    split
    · next hpid =>
      intro c' d' hk'
      have hlock : ((View.idle others).take (.proc p : Slot m n) q).mode.lock (.proc p) = some q :=
        take_lock q
      obtain ⟨hforget, hmode⟩ : ((View.idle others).take (.proc p : Slot m n) q).mode.forget =
          ((View.idle others).take (.proc p : Slot m n) q).mode ∧
          ((View.idle others).take (.proc p : Slot m n) q).mode ≠ .leaving := forget_take q
      have hseen : (d'.proc q).pid = (d.proc q).pid := hk'.seen q _ hlock rfl
      have hdone : Ok init (.done : Code m n) (.proc p) (.idle others) := rfl
      refine ⟨_, .kill pid hlock hmode (by rw [hseen, hpid]), ?_⟩
      dsimp only
      rw [hforget]
      exact ok_release_take rfl rfl rfl hdone
    · exact ok_release_take rfl rfl rfl ih

theorem ok_kill {others : List Spin} {pid : ℤ} :
    Ok init (kill pid : Code m n) (.proc p) (.idle others) := ok_killLoop _

/-! #### Creating processes -/

/-- The view of `fork` with its child. -/
def View.forking (mode : Mode n) (child : Option (Child n)) : View n :=
  ⟨[], mode, child, [], none, none, none, none⟩

theorem ok_dups {q : Fin n} {child : Option (Child n)}
    (h : Ok init k σ (.forking (.locked q none) child))
    (ls : List ℕ) : Ok init (dups k ls) σ (.forking (.locked q none) child) := by
  induction ls with
  | nil => exact h
  | cons l ls ih =>
    intro _
    exact ok_release_spin (by simp) rfl ih

theorem ok_allocFound {e : ForkEnv} {q : Fin n} (hk : Ok init k (.proc p)
      (.forking (.locked q none) (some ⟨q, true, false⟩))) :
    Ok init (allocFound e q .done k) (.proc p) (.forking (.locked q (some .unused)) none) := by
  intro _
  refine ok_look fun c d _ => fun c d _ => ⟨_, .pid _, ok_release_spin (by simp) rfl ?_⟩
  intro c d _
  refine ⟨_, .alloc _ rfl rfl rfl, ?_⟩
  -- both failures free the process again
  have hfree : Ok init (freeproc q <| .release (.proc q) .done : Code m n) (.proc p)
      (.forking (.locked q none) (some ⟨q, false, false⟩)) :=
    fun c d _ => ⟨_, .unalloc rfl rfl rfl, ⟨Or.inr ⟨none, rfl⟩, rfl⟩⟩
  split
  · exact hfree
  · split
    · exact hfree
    · exact ⟨⟨p, rfl⟩, none, rfl, false, rfl, ok_forkret, hk⟩

theorem ok_allocproc {e : ForkEnv} {f : Fin n → Code m n} (hk : ∀ q, q ≠ p → Ok init (f q) (.proc p)
      (.forking (.locked q none) (some ⟨q, true, false⟩))) (qs : List (Fin n)) :
    Ok init (allocproc e .done f qs) (.proc p) (.idle []) := by
  induction qs with
  | nil => rfl
  | cons q qs ih =>
    apply ok_acquire rfl
    by_cases hq : q = p
    · -- this process is not UNUSED
      subst hq
      apply ok_look
      intro c d hk
      have hrun := hk.running q rfl (by simp [View.take])
      simp only [hrun]
      exact ok_release_take rfl rfl rfl ih
    · have htake : (View.idle []).take (.proc p : Slot m n) q =
          (.forking (.locked q none) none : View n) := by
        simp [View.take, View.idle, View.forking, Ne.symm hq]
      rw [htake]
      apply ok_read_locked rfl
      intro r
      split
      · next hunused =>
        rw [hunused]
        exact ok_allocFound (hk q hq)
      · exact ⟨Or.inr ⟨_, rfl⟩, ih⟩

theorem ok_fork (e : ForkEnv) : Ok init (fork e : Code m n) (.proc p) (.idle []) := by
  apply ok_withProc
  apply ok_allocproc
  intro np hne
  split
  · exact fun c d _ => ⟨_, .unalloc rfl rfl rfl, ⟨Or.inr ⟨none, rfl⟩, rfl⟩⟩
  · apply ok_dups
    refine ⟨Or.inr ⟨none, rfl⟩, fun _ c d _ => ?_⟩
    refine ⟨_, .adopt rfl rfl List.mem_cons_self rfl rfl, ok_release_wait rfl rfl rfl ?_⟩
    have htake : (View.forking .free (some ⟨np, true, true⟩)).take (.proc p : Slot m n) np =
        View.forking (.locked np none) (some ⟨np, true, true⟩) := by
      simp [View.take, View.forking, Ne.symm hne]
    refine ok_acquire rfl ?_
    show Ok init _ _ ((View.forking .free (some ⟨np, true, true⟩)).take (.proc p) np)
    rw [htake]
    exact fun c d _ => ⟨_, .publish rfl rfl rfl, ⟨Or.inr ⟨none, rfl⟩, rfl⟩⟩

/-! #### Ending processes -/

/-- The view of `exit` under `wait_lock`. -/
def View.exiting (orphaned : List (Fin n)) : View n :=
  ⟨[.wait], .free, none, orphaned, none, none, none, none⟩

/-- **The loop of `reparent`**: a process that has been visited is not a child of `p`. -/
theorem ok_reparent (hinit : p ≠ init) (h : ∀ orph : List (Fin n), (∀ q, q ∈ orph) →
      Ok init k (.proc p) (.exiting orph)) (qs : List (Fin n)) :
    ∀ orph : List (Fin n), (∀ q, q ∈ orph ∨ q ∈ qs) →
      Ok init (reparent init p k qs) (.proc p) (.exiting orph) := by
  induction qs with
  | nil => exact fun orph hall => h orph fun q => (hall q).resolve_right List.not_mem_nil
  | cons pp qs ih =>
    intro orph hall
    have hall' : ∀ q, q ∈ pp :: orph ∨ q ∈ qs := by
      intro q
      rcases hall q with hq | hq
      · exact Or.inl (List.mem_cons_of_mem pp hq)
      · rcases List.mem_cons.mp hq with rfl | hq
        · exact Or.inl List.mem_cons_self
        · exact Or.inr hq
    intro c d _
    by_cases hkid : (d.proc pp).parent = some p
    · refine ⟨_, .kid rfl List.mem_cons_self hkid, ?_⟩
      simp only [hkid, if_true]
      intro c d _
      refine ⟨_, .reparent rfl hinit rfl rfl List.mem_cons_self rfl, ?_⟩
      exact ok_wakeup List.mem_cons_self rfl rfl rfl (ih (pp :: orph) hall')
    · refine ⟨_, .orphan rfl List.mem_cons_self hkid, ?_⟩
      simp only [if_neg hkid]
      exact ih (pp :: orph) hall'

theorem lock_ofProc (x : Option (Fin n)) : (Chan.ofProc x).lock = .wait := by
  cases x <;> rfl

theorem ok_exit (status : ℤ) : Ok init (exit init status : Code m n) (.proc p) (.idle []) := by
  apply ok_withProc
  split
  · trivial
  · next hinit =>
    intro _
    refine ok_reparent hinit (fun orph horph => ?_) _ [] fun q => Or.inr (List.mem_finRange q)
    apply ok_read
    intro r
    refine ok_wakeup ?_ rfl rfl rfl ?_
    · rw [lock_ofProc]
      exact List.mem_cons_self
    · refine ok_acquire rfl fun c d _ => ?_
      refine ⟨_, .exit _ rfl hinit (if_pos rfl) rfl rfl horph, ok_release_wait rfl rfl rfl ?_⟩
      exact ok_sched trivial

/-- The view of `wait` under `wait_lock`, where `kid` is a child that it has seen. -/
def View.waiting (kid : Option (Fin n)) : View n := { View.calm [.wait] none with kid := kid }

/-- **The scan of `wait`**: if it reports children there is one. -/
theorem ok_waitScan {copyout : Bool} {next : Bool → Code m n}
    (h : ∀ b kid, (b = true → kid ≠ none) → Ok init (next b) (.proc p) (.waiting kid))
    (qs : List (Fin n)) : ∀ havekids kid, (havekids = true → kid ≠ none) →
      Ok init (waitScan p copyout next qs havekids) (.proc p) (.waiting kid) := by
  induction qs with
  | nil => exact h
  | cons pp qs ih =>
    intro havekids kid hkids c d _
    by_cases hparent : (d.proc pp).parent = some p
    · refine ⟨_, .kid rfl List.mem_cons_self hparent, ?_⟩
      simp only [hparent, if_true]
      show Ok init _ (.proc p) (.waiting (some pp))
      have hnext := ih true (some pp) (by simp)
      apply ok_acquire rfl
      by_cases hpp : pp = p
      · -- this process is not a ZOMBIE
        subst hpp
        apply ok_look
        intro c d hk
        have hrun := hk.running pp rfl (by simp [View.take])
        simp only [hrun]
        exact ok_release_take rfl rfl rfl hnext
      · have htake : (View.waiting (some pp)).take (.proc p : Slot m n) pp =
            { View.waiting (some pp) with mode := .locked pp none } := by
          simp [View.take, Ne.symm hpp]
        rw [htake]
        apply ok_read_locked rfl
        intro r
        split
        · next hz =>
          split
          · exact ⟨Or.inr ⟨_, rfl⟩, ok_release_wait rfl rfl rfl rfl⟩
          · intro c d _
            refine ⟨_, .reap rfl (by rw [hz]) rfl, ?_⟩
            exact ⟨Or.inr ⟨none, rfl⟩, ok_release_wait rfl rfl rfl rfl⟩
        · exact ⟨Or.inr ⟨_, rfl⟩, hnext⟩
    · refine ⟨_, .same, ?_⟩
      simp only [if_neg hparent]
      exact ih havekids kid hkids

theorem ok_waitRounds {copyout : Bool} (rounds : ℕ) :
    Ok init (waitRounds p copyout rounds : Code m n) (.proc p) (.waiting none) := by
  induction rounds with
  | zero => trivial
  | succ rounds ih =>
    refine ok_waitScan (fun havekids kid hkids => ?_) _ false none (by simp)
    split
    · exact ok_release_wait rfl rfl rfl rfl
    · next hhave =>
      refine ok_peek rfl rfl rfl fun r => ?_
      dsimp only
      split
      · exact ok_release_wait rfl rfl rfl rfl
      · exact ok_sleep rfl (fun _ => hkids (by simpa using hhave)) ih

theorem ok_wait {rounds : ℕ} {copyout : Bool} :
    Ok init (wait rounds copyout : Code m n) (.proc p) (.idle []) :=
  ok_withProc fun _ => ok_waitRounds rounds

/-! #### Calls and interrupts -/

/-- A context that holds no lock. -/
theorem View.Knows.eq_calm {c : Fin m} {d : Data m n} (h : v.Knows σ c d) (hnoff : d.noff c = 0) :
    v = .calm [] v.child := by
  have hsum := h.noff.symm.trans hnoff
  unfold View.noff at hsum
  have hothers : v.others = [] := List.eq_nil_of_length_eq_zero (by omega)
  have hlock : v.mode.lock σ = none := by
    cases hl : v.mode.lock σ with
    | none => rfl
    | some q =>
      rw [hl] at hsum
      simp at hsum
  obtain ⟨others, mode, child, orphaned, kid, wake, pledge, seen⟩ := v
  subst hothers
  have hwf := h.wf
  have hmode : mode = .free := by
    cases mode with
    | free => rfl
    | locked q st => cases hlock
    | own =>
      cases σ with
      | proc p => cases hlock
      | cpu c => exact absurd rfl (hwf.scheduler c rfl).1
    | leaving =>
      cases σ with
      | proc p => cases hlock
      | cpu c => exact absurd rfl (hwf.scheduler c rfl).2.1
    | entering q b => cases hlock
    | left q => cases hlock
  subst hmode
  have horph : orphaned = [] := by
    by_contra hne
    exact absurd (hwf.orphaned hne) List.not_mem_nil
  have hwake : wake = none := by
    cases wake with
    | none => rfl
    | some w => exact absurd (hwf.wake w.1 w.2 rfl) List.not_mem_nil
  have hpledge : pledge = none := by
    by_contra hne
    cases hwf.pledge hne
  have hkid : kid = none := by
    by_contra hne
    exact (hwf.kid hne).elim List.not_mem_nil fun hpl => hpl hpledge
  have hseen : seen = none := by
    by_contra hne
    exact hwf.seen hne rfl
  rw [horph, hkid, hwake, hpledge, hseen]
  rfl

/-- **Every call keeps to the transitions**, where callers keep to the rules. -/
theorem ok_call {others : List Spin} {c : Fin m} {d : Data m n} {x : Call n}
    (hk : (View.idle others : View n).Knows (.proc p) c d) (hx : x.Allowed d c) :
    Ok init (x.code init : Code m n) (.proc p) (.idle others) := by
  have hnil : d.noff c = 0 → others = [] := by
    intro h0
    have := hk.eq_calm h0
    exact congrArg View.others this
  cases x with
  | acquire k => exact fun _ => rfl
  | release k =>
    intro _
    refine ⟨fun _ _ hw => (by cases hw), none, Or.inl rfl, ?_⟩
    show View.drop _ _ _ = _
    simp [View.drop, View.idle]
  | sleep k i =>
    have hsleep : Ok init (Smp.sleep (.other k i) (.other k) .done : Code m n) (.proc p)
        { View.calm others none with kid := none } := ok_sleep rfl (fun h => by cases h) rfl
    exact hsleep
  | wakeup k i => exact ok_wakeup ((hk.lockSpin _).mp hx) rfl rfl rfl rfl
  | yield => exact ok_yield rfl
  | kill pid => exact ok_kill
  | setkilled q => exact ok_setkilled
  | fork e =>
    rw [hnil hx]
    exact ok_fork e
  | exit status =>
    rw [hnil hx]
    exact ok_exit status
  | wait rounds copyout =>
    rw [hnil hx]
    exact ok_wait

/-- **So does every interrupt**, in front of code that does. -/
theorem ok_intr {c : Fin m} {d : Data m n} (hk : v.Knows σ c d) (hnoff : d.noff c = 0)
    (h : Ok init k σ v) (i : Intr) : Ok init (i.code k) σ v := by
  have hv := hk.eq_calm hnoff
  rw [hv] at h ⊢
  cases i with
  | timer =>
    apply ok_look
    intro c d hk'
    have hcproc := hk'.cproc
    cases σ with
    | cpu c' =>
      have : d.cproc c = none := hcproc
      simp only [this]
      exact h
    | proc p =>
      have : d.cproc c = some p := hcproc
      simp only [this]
      exact ok_yield h
  | device l i =>
    intro _
    exact ok_wakeup List.mem_cons_self rfl rfl rfl (ok_release_spin (by simp) rfl h)

end Routines

end Xv6Ext2.Smp
