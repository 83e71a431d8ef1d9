import Xv6Ext2.Proc.Outline

/-!
# What the transitions change

Each assignment of `kernel/proc.c` is one of the transitions of `Legal`.  This module says
once what they do to the data: which states a process goes through, who may change what, and
that the view of the context that makes a transition stays true.

## Main definitions

* `Moves` — how the state of a process may change.

## Main results

* `Legal.moves` — **a state changes only under the lock of its process**, and in one of a few
  ways.
* `Legal.parent` — a parent changes only under `wait_lock`, or when a process is freed.
* `Legal.knows`, `Learn.knows` — what a context knows stays true through its own steps.
-/

namespace Xv6Ext2.Smp

open Function

variable {m n : ℕ} {init : Fin n} {σ : Slot m n} {c : Fin m} {d d' : Data m n} {v v' : View n}

namespace Data

@[simp] theorem cproc_set (q : Fin n) (r : Proc n) : (d.set q r).cproc = d.cproc := rfl

@[simp] theorem proc_set (q : Fin n) (r : Proc n) :
    (d.set q r).proc = update d.proc q r := rfl

@[simp] theorem log_set (q : Fin n) (r : Proc n) : (d.set q r).log = d.log := rfl

@[simp] theorem cproc_note (x : Note n) : (d.note x).cproc = d.cproc := rfl

@[simp] theorem proc_note (x : Note n) : (d.note x).proc = d.proc := rfl

@[simp] theorem cproc_setCproc (x : Option (Fin n)) :
    (d.setCproc c x).cproc = update d.cproc c x := rfl

end Data

/-! ### States -/

/-- The lock of process `x` is held by a context that may change its state. -/
def Holds (σ : Slot m n) (v : View n) (x : Fin n) : Prop :=
  v.mode.lock σ = some x ∧ v.mode ≠ .leaving

/-- How the state of process `q` may change. -/
inductive Moves (init : Fin n) (σ : Slot m n) (v v' : View n) (q : Fin n) : State → State → Prop
  | wake : Moves init σ v v' q .sleeping .runnable
  | alloc : Moves init σ v v' q .unused .used
  | unalloc {ready : Bool} (hchild : v.child = some ⟨q, ready, false⟩) :
    Moves init σ v v' q .used .unused
  | reap : Moves init σ v v' q .zombie .unused
  | publish (hchild : v.child = some ⟨q, true, true⟩) : Moves init σ v v' q .used .runnable
  | leave {st : State} (hq : σ = .proc q) (hmode : v'.mode = .leaving)
    (hst : st = .sleeping ∨ st = .runnable ∨
      st = .zombie ∧ q ≠ init ∧ ∀ x, x ∈ v.orphaned) : Moves init σ v v' q .running st
  | run : Moves init σ v v' q .runnable .running

/-- How the parent of process `q` may change: it is freed, and UNUSED from then on, `fork`
sets the parent of its child, or `exit` hands a child to `init`. -/
inductive Rewires (init : Fin n) (σ : Slot m n) (v v' : View n) (q : Fin n) (st : State) :
    Option (Fin n) → Prop
  | freed {ready : Bool} (hchild : v.child = some ⟨q, ready, false⟩) (hst : st = .unused) :
    Rewires init σ v v' q st none
  | reaped {p : Fin n} (hp : σ = .proc p) (hmode : v.mode = .locked q (some .zombie))
    (hkid : v.kid = some q) (hkid' : v'.kid = none) (hst : st = .unused) :
    Rewires init σ v v' q st none
  | adopted {p : Fin n} {ready : Bool} (hp : σ = .proc p) (hmode : v.mode = .free)
    (hwait : .wait ∈ v.others) (horph : v'.orphaned = [])
      (hchild : v.child = some ⟨q, ready, false⟩)
    (hchild' : v'.child = some ⟨q, ready, true⟩) : Rewires init σ v v' q st (some p)
  | handed {p : Fin n} (hp : σ = .proc p) (hinit : p ≠ init) (hmode : v.mode = .free)
    (hwait : .wait ∈ v.others) (hkid : v.kid = some q)
      (hkid' : v'.kid = none) : Rewires init σ v v' q st (some init)

namespace Legal

theorem lock (h : Legal init σ c d v d' v') : d'.lock = d.lock := by cases h <;> rfl

theorem noff (h : Legal init σ c d v d' v') : d'.noff = d.noff := by cases h <;> rfl

theorem others (h : Legal init σ c d v d' v') : v'.others = v.others := by cases h <;> rfl

theorem cproc_of_ne (h : Legal init σ c d v d' v') {c' : Fin m} (hc : c' ≠ c) :
    d'.cproc c' = d.cproc c' := by
  cases h <;> simp [hc]

theorem mode_lock (h : Legal init σ c d v d' v') : v'.mode.lock σ = v.mode.lock σ := by
  cases h with
  | kill pid hlock hmode hpid => cases v.mode <;> rfl
  | _ => simp [Mode.lock, *]

theorem cproc (h : Legal init σ c d v d' v') (hk : d.cproc c = v.cproc σ) :
    d'.cproc c = v'.cproc σ := by
  cases σ with
  | proc p => cases h <;> simp_all [View.cproc]
  | cpu c' =>
    cases h with
    | kill pid hlock hmode hpid =>
      rw [Data.cproc_note, Data.cproc_set, hk]
      cases hv : v.mode <;> simp [View.cproc, hv, Mode.forget]
    | _ => simp_all [View.cproc]

/-- **How states change.**  The lock of the process is held. -/
theorem moves (h : Legal init σ c d v d' v') (hk : v.Knows σ c d) (x : Fin n) :
    (d'.proc x).state = (d.proc x).state ∨
      Holds σ v x ∧ Moves init σ v v' x (d.proc x).state (d'.proc x).state := by
  -- a transition that sets `q`
  have hset : ∀ {q : Fin n} {r : Proc n},
      (r.state = (d.proc q).state ∨ Holds σ v q ∧ Moves init σ v v' q (d.proc q).state r.state) →
      ((d.set q r).proc x).state = (d.proc x).state ∨ Holds σ v x ∧
        Moves init σ v v' x (d.proc x).state ((d.set q r).proc x).state := by
    intro q r hq
    by_cases hx : x = q
    · subst hx
      simpa using hq
    · left
      simp [hx]
  have hlocked : ∀ {q : Fin n} {st : Option State}, v.mode = .locked q st → Holds σ v q :=
    fun hmode => by simp [Holds, hmode, Mode.lock]
  have hown : ∀ {p : Fin n}, σ = .proc p → v.mode = .own → Holds σ v p :=
    fun hp hmode => by simp [Holds, hmode, hp, Mode.lock]
  have hrun : ∀ {p : Fin n}, σ = .proc p → v.mode = .own → (d.proc p).state = .running :=
    fun hp hmode => hk.running _ hp (by rw [hmode]; simp)
  cases h with
  | pid k => exact Or.inl rfl
  | setkilled _ => exact hset (Or.inl rfl)
  | @kill q pid hlock hmode _ =>
    refine hset (r := (d.proc q).kill) ?_
    rcases Proc.kill_cases (d.proc q) with hsame | ⟨hold, hnew⟩
    · exact Or.inl hsame
    · refine Or.inr ⟨⟨hlock, hmode⟩, ?_⟩
      rw [hold, hnew]
      exact .wake
  | @visit q qs st ch hmode _ =>
    apply hset
    rcases (Proc.wake_cases ch (d.proc q)).1 with hsame | ⟨hold, hnew⟩
    · exact Or.inl hsame
    · refine Or.inr ⟨hlocked hmode, ?_⟩
      rw [hold, hnew]
      exact .wake
  | alloc pid _ hmode _ =>
    refine hset (Or.inr ⟨hlocked hmode, ?_⟩)
    rw [hk.locked _ _ hmode]
    exact .alloc
  | unalloc hp hmode hchild =>
    refine hset (Or.inr ⟨hlocked hmode, ?_⟩)
    rw [(hk.child _ _ hchild hp).1]
    exact .unalloc hchild
  | reap _ hmode _ =>
    refine hset (Or.inr ⟨hlocked hmode, ?_⟩)
    rw [hk.locked _ _ hmode]
    exact .reap
  | publish hp hmode hchild =>
    refine hset (Or.inr ⟨hlocked hmode, ?_⟩)
    rw [(hk.child _ _ hchild hp).1]
    exact .publish hchild
  | adopt _ _ _ _ _ => exact hset (Or.inl rfl)
  | reparent _ _ _ _ _ _ => exact hset (Or.inl rfl)
  | chan ch pl _ _ _ _ => exact hset (Or.inl rfl)
  | sleep hp hmode _ _ =>
    refine hset (Or.inr ⟨hown hp hmode, ?_⟩)
    rw [hrun hp hmode]
    exact .leave hp rfl (Or.inl rfl)
  | yield hp hmode _ =>
    refine hset (Or.inr ⟨hown hp hmode, ?_⟩)
    rw [hrun hp hmode]
    exact .leave hp rfl (Or.inr (Or.inl rfl))
  | exit status hp hinit hmode _ _ horph =>
    refine hset (Or.inr ⟨hown hp hmode, ?_⟩)
    rw [hrun hp hmode]
    exact .leave hp rfl (Or.inr (Or.inr ⟨rfl, hinit, horph⟩))
  | run _ hmode =>
    refine hset (Or.inr ⟨hlocked hmode, ?_⟩)
    rw [hk.locked _ _ hmode]
    exact .run
  | enter _ _ => exact Or.inl rfl
  | leave _ _ => exact Or.inl rfl

/-- What is said of a process under its lock does not change without it. -/
theorem chan_of_unlocked (h : Legal init σ c d v d' v') {x : Fin n} (hx : v.mode.lock σ ≠ some x) :
    (d'.proc x).chan = (d.proc x).chan := by
  have hset : ∀ {q : Fin n} {r : Proc n}, (r.chan = (d.proc q).chan ∨ v.mode.lock σ = some q) →
      ((d.set q r).proc x).chan = (d.proc x).chan := by
    intro q r hq
    by_cases hxq : x = q
    · subst hxq
      simpa using hq.resolve_right hx
    · simp [hxq]
  cases h with
  | pid k => rfl
  | setkilled _ => exact hset (Or.inl rfl)
  | @kill q _ _ _ _ => exact hset (r := (d.proc q).kill) (Or.inl rfl)
  | @visit q _ _ ch _ _ => exact hset (Or.inl (Proc.wake_cases ch (d.proc q)).2.1)
  | adopt _ _ _ _ _ => exact hset (Or.inl rfl)
  | reparent _ _ _ _ _ _ => exact hset (Or.inl rfl)
  | alloc pid _ hmode _ => exact hset (Or.inr (by rw [hmode]; rfl))
  | unalloc _ hmode _ => exact hset (Or.inr (by rw [hmode]; rfl))
  | reap _ hmode _ => exact hset (Or.inr (by rw [hmode]; rfl))
  | publish _ hmode _ => exact hset (Or.inr (by rw [hmode]; rfl))
  | run _ hmode => exact hset (Or.inr (by rw [hmode]; rfl))
  | chan ch pl hp hmode _ _ => exact hset (Or.inr (by rw [hmode, hp]; rfl))
  | sleep hp hmode _ _ => exact hset (Or.inr (by rw [hmode, hp]; rfl))
  | yield hp hmode _ => exact hset (Or.inr (by rw [hmode, hp]; rfl))
  | exit _ hp _ hmode _ _ _ => exact hset (Or.inr (by rw [hmode, hp]; rfl))
  | enter _ _ => rfl
  | leave _ _ => rfl

/-- The `pid` of a process changes only under its lock, and then it is not known any more. -/
theorem pid_of_lock (h : Legal init σ c d v d' v') (x : Fin n) :
    (d'.proc x).pid = (d.proc x).pid ∨ v.mode.lock σ = some x ∧ v'.seen = none := by
  have hset : ∀ {q : Fin n} {r : Proc n},
      (r.pid = (d.proc q).pid ∨ v.mode.lock σ = some q ∧ v'.seen = none) →
      ((d.set q r).proc x).pid = (d.proc x).pid ∨ v.mode.lock σ = some x ∧ v'.seen = none := by
    intro q r hq
    by_cases hx : x = q
    · subst hx
      simpa using hq
    · simp [hx]
  cases h with
  | pid k => exact Or.inl rfl
  | @kill q _ _ _ _ => exact hset (r := (d.proc q).kill) (Or.inl rfl)
  | @visit q _ _ ch _ _ =>
    refine hset (Or.inl ?_)
    unfold Proc.wake
    split <;> rfl
  | alloc pid _ hmode _ => exact hset (Or.inr ⟨by rw [hmode]; rfl, rfl⟩)
  | unalloc _ hmode _ => exact hset (Or.inr ⟨by rw [hmode]; rfl, rfl⟩)
  | reap _ hmode _ => exact hset (Or.inr ⟨by rw [hmode]; rfl, rfl⟩)
  | enter _ _ => exact Or.inl rfl
  | leave _ _ => exact Or.inl rfl
  | _ => exact hset (Or.inl rfl)

/-- **How parents change**: at most one does. -/
theorem parents (h : Legal init σ c d v d' v') :
    (∀ x, (d'.proc x).parent = (d.proc x).parent) ∨
      ∃ q y, Rewires init σ v v' q (d'.proc q).state y ∧
        ∀ x, (d'.proc x).parent = if x = q then y else (d.proc x).parent := by
  have hsame : ∀ {q : Fin n} {r : Proc n}, r.parent = (d.proc q).parent →
      ∀ x, ((d.set q r).proc x).parent = (d.proc x).parent := by
    intro q r hr x
    by_cases hx : x = q
    · subst hx
      simpa using hr
    · simp [hx]
  have hset : ∀ {q : Fin n} {r : Proc n}, ∀ x, ((d.set q r).proc x).parent =
      if x = q then r.parent else (d.proc x).parent := by
    intro q r x
    by_cases hx : x = q
    · simp [hx]
    · simp [hx]
  cases h with
  | pid k => exact Or.inl fun x => rfl
  | @visit q _ _ ch _ _ => exact Or.inl (hsame (Proc.wake_cases ch (d.proc q)).2.2.1)
  | @unalloc _ q _ _ _ _ hchild =>
    exact Or.inr ⟨q, _, .freed hchild (by simp [Proc.free]), hset⟩
  | @reap _ q hp hmode hkid =>
    exact Or.inr ⟨q, _, .reaped hp hmode hkid rfl (by simp [Proc.free]), hset⟩
  | @adopt _ q _ hp hmode hwait horph hchild =>
    exact Or.inr ⟨q, _, .adopted hp hmode hwait horph hchild rfl, hset⟩
  | @reparent _ q hp hinit hmode _ hwait hkid =>
    exact Or.inr ⟨q, _, .handed hp hinit hmode hwait hkid rfl, hset⟩
  | enter _ _ => exact Or.inl fun x => rfl
  | leave _ _ => exact Or.inl fun x => rfl
  | @kill q _ _ _ _ => exact Or.inl (hsame (r := (d.proc q).kill) rfl)
  | _ => exact Or.inl (hsame rfl)

theorem rewires (h : Legal init σ c d v d' v') (x : Fin n) :
    (d'.proc x).parent = (d.proc x).parent ∨
      Rewires init σ v v' x (d'.proc x).state (d'.proc x).parent := by
  rcases h.parents with hsame | ⟨q, y, hrew, hset⟩
  · exact Or.inl (hsame x)
  · by_cases hx : x = q
    · subst hx
      rw [hset x, if_pos rfl]
      exact Or.inr hrew
    · rw [hset x, if_neg hx]
      exact Or.inl rfl

/-! ### The context that makes the transition -/

end Legal

/-- Another process is still locked. -/
theorem View.WF.locked (hv : v.WF σ) {q : Fin n} {st : Option State} (hmode : v.mode = .locked q st)
    (st' : Option State) (child : Option (Child n)) (wake : Option (Chan n × List (Fin n)))
    (kid : Option (Fin n)) (seen : Option ℕ) (hchild : ∀ c, σ = .cpu c → child = none)
    (hwake : ∀ ch qs, wake = some (ch, qs) → ch.lock ∈ v.others) (hkid : kid ≠ none → kid = v.kid) :
    View.WF σ
      { v with mode := .locked q st', child := child, wake := wake, kid := kid, seen := seen } := by
  refine ⟨fun p hp => ⟨by simp, by simp, fun st hst => ?_⟩, fun c hc => ?_, hv.orphaned,
    fun hne => hv.kid (hkid hne ▸ hne), hwake, fun hne => ?_, hv.nodup, fun _ =>
      by simp [Mode.lock]⟩
  · injection hst with hq
    subst hq
    exact (hv.thread _ hp).2.2 _ hmode
  · obtain ⟨-, -, -, horph, hnone, hpledge⟩ := hv.scheduler c hc
    refine ⟨by simp, by simp, hchild c hc, horph, ?_, hpledge⟩
    by_contra hne
    exact hne ((hkid hne).trans hnone)
  · have := hv.pledge hne
    rw [hmode] at this
    cases this

/-- A process lets go of its CPU. -/
theorem View.WF.leaving (hv : v.WF σ) {p : Fin n} (hp : σ = .proc p) (kid : Option (Fin n))
    (hkid : kid ≠ none → kid = v.kid ∧ v.pledge = none) :
    View.WF σ { v with mode := .leaving, pledge := none, kid := kid } := by
  refine ⟨fun _ _ => by simp, fun c hc => ?_, hv.orphaned, fun hne => ?_, hv.wake, by simp,
    hv.nodup, fun _ => by simp [Mode.lock, hp]⟩
  · rw [hp] at hc
    cases hc
  · obtain ⟨hsame, hpledge⟩ := hkid hne
    exact Or.inl ((hv.kid (hsame ▸ hne)).resolve_right fun h => h hpledge)

/-- A scheduler goes on. -/
theorem View.WF.schedule (hv : v.WF σ) (hc : σ = .cpu c) {mode : Mode n} (hown : mode ≠ .own)
    (hleave : mode ≠ .leaving) (hlock : mode.lock σ = v.mode.lock σ) :
    View.WF σ { v with mode := mode } := by
  obtain ⟨-, -, hchild, horph, hkid, hpledge⟩ := hv.scheduler c hc
  refine ⟨fun p hp => ?_, fun _ _ => ⟨hown, hleave, hchild, horph, hkid, hpledge⟩, hv.orphaned,
    hv.kid, hv.wake, fun hne => absurd hpledge hne, hv.nodup, fun hne => hlock ▸ hv.seen hne⟩
  rw [hp] at hc
  cases hc

/-- Less is known about the process that is locked. -/
theorem View.WF.forget (hv : v.WF σ) : View.WF σ { v with mode := v.mode.forget } := by
  have hsame : ∀ {mode : Mode n}, v.mode = mode → mode.forget = mode →
      View.WF σ { v with mode := v.mode.forget } := by
    intro mode hmode hforget
    rw [hmode, hforget, ← hmode]
    exact hv
  cases hmode : v.mode with
  | locked q st =>
    exact hv.locked hmode none v.child v.wake v.kid v.seen (fun c hc => (hv.scheduler c hc).2.2.1)
      hv.wake fun _ => rfl
  | free => rw [← hmode]; exact hsame hmode rfl
  | own => rw [← hmode]; exact hsame hmode rfl
  | leaving => rw [← hmode]; exact hsame hmode rfl
  | entering q b => rw [← hmode]; exact hsame hmode rfl
  | left q => rw [← hmode]; exact hsame hmode rfl

namespace Legal

theorem wf (h : Legal init σ c d v d' v') (hv : v.WF σ) : v'.WF σ := by
  have hsched : ∀ c, σ = .cpu c → v.child = none := fun c hc => (hv.scheduler c hc).2.2.1
  have hthread : ∀ {p c}, σ = .proc p → σ ≠ .cpu c := fun hp hc => by rw [hp] at hc; cases hc
  have hsame : v.kid ≠ none → v.kid = v.kid := fun _ => rfl
  have hnone : (none : Option (Fin n)) ≠ none → none = v.kid := fun h => absurd rfl h
  cases h with
  | pid k => exact hv
  | setkilled _ => exact hv
  | kill pid _ _ _ => exact hv.forget
  | visit hmode hwake =>
    refine hv.locked hmode _ _ _ _ _ hsched (fun ch qs hw => ?_) hsame
    cases hw
    exact hv.wake _ _ hwake
  | alloc pid hp hmode _ =>
    exact hv.locked hmode _ _ _ _ _ (fun c hc => absurd hc (hthread hp)) hv.wake hsame
  | unalloc hp hmode _ => exact hv.locked hmode _ _ _ _ _ (fun c hc => rfl) hv.wake hsame
  | reap _ hmode _ => exact hv.locked hmode _ _ _ _ _ hsched hv.wake hnone
  | publish hp hmode _ => exact hv.locked hmode _ _ _ _ _ (fun c hc => rfl) hv.wake hsame
  | adopt hp _ _ _ _ =>
    exact ⟨hv.thread, fun c hc => absurd hc (hthread hp), hv.orphaned, hv.kid, hv.wake, hv.pledge,
      hv.nodup, hv.seen⟩
  | reparent hp _ _ _ hwait _ =>
    exact ⟨hv.thread, fun c hc => absurd hc (hthread hp), fun _ => hwait, fun h => absurd rfl h,
      hv.wake, hv.pledge, hv.nodup, hv.seen⟩
  | chan ch pl hp hmode hpl hkid =>
    refine ⟨hv.thread, fun c hc => absurd hc (hthread hp), hv.orphaned, fun hne => Or.inr ?_,
      hv.wake, fun _ => hmode, hv.nodup, hv.seen⟩
    exact fun h => hne (hkid h)
  | sleep hp _ _ _ => exact hv.leaving hp none fun h => absurd rfl h
  | yield hp _ hpledge =>
    have := hv.leaving hp v.kid fun _ => ⟨rfl, hpledge⟩
    rwa [← hpledge] at this
  | exit _ hp _ _ hpledge _ _ =>
    have := hv.leaving hp v.kid fun _ => ⟨rfl, hpledge⟩
    rwa [← hpledge] at this
  | run hc hmode => exact hv.schedule hc (by simp) (by simp) (by rw [hmode]; rfl)
  | enter hc hmode => exact hv.schedule hc (by simp) (by simp) (by rw [hmode]; rfl)
  | leave hc hmode => exact hv.schedule hc (by simp) (by simp) (by rw [hmode]; rfl)

/-- What is known under the lock of another process stays known. -/
theorem locked (h : Legal init σ c d v d' v') (hk : v.Knows σ c d) {q : Fin n} {st : State}
    (hmode : v'.mode = .locked q (some st)) : (d'.proc q).state = st := by
  have hsame : ∀ {x : Fin n} {r : Proc n}, r.state = (d.proc x).state → v.mode = .locked q
    (some st) →
      ((d.set x r).proc q).state = st := by
    intro x r hr hold
    by_cases hx : q = x
    · subst hx
      simpa [hr] using hk.locked q st hold
    · simpa [hx] using hk.locked q st hold
  cases h with
  | pid k => exact hk.locked q st hmode
  | setkilled _ => exact hsame rfl hmode
  | kill pid _ _ _ =>
    have hforget : v.mode.forget = .locked q (some st) := hmode
    cases hv : v.mode <;> simp [hv, Mode.forget] at hforget
  | adopt _ _ _ _ _ => exact hsame rfl hmode
  | reparent _ _ _ _ _ _ => exact hsame rfl hmode
  | chan _ _ _ _ _ _ => exact hsame rfl hmode
  | _ => cases hmode

/-- What `fork` knows about its child stays true. -/
theorem child (h : Legal init σ c d v d' v') (hk : v.Knows σ c d)
    (hunused : ∀ q, (d.proc q).state = .unused → (d.proc q).parent = none) {x : Child n} {p : Fin n}
    (hchild : v'.child = some x) (hp : σ = .proc p) : (d'.proc x.slot).state = .used ∧
      (d'.proc x.slot).parent = if x.parented then some p else none := by
  -- a transition that leaves the child alone
  have hset : ∀ {q : Fin n} {r : Proc n}, v.child = some x →
      (q = x.slot → r.state = .used ∧ r.parent = (d.proc q).parent) →
      ((d.set q r).proc x.slot).state = .used ∧
        ((d.set q r).proc x.slot).parent = if x.parented then some p else none := by
    intro q r hold hq
    obtain ⟨hstate, hparent⟩ := hk.child x p hold hp
    by_cases hx : x.slot = q
    · obtain ⟨hs, hr⟩ := hq hx.symm
      rw [← hparent, hx]
      simpa using ⟨hs, hr⟩
    · simpa [hx] using ⟨hstate, hparent⟩
  -- a process that is in another state is not the child
  have hne : ∀ {q : Fin n} {st : State}, v.child = some x → (d.proc q).state = st → st ≠ .used →
      q ≠ x.slot := by
    rintro q st hold hst hne rfl
    exact hne (hst.symm.trans (hk.child x p hold hp).1)
  have hrun : v.mode = .own → (d.proc p).state = .running :=
    fun hmode => hk.running p hp (by rw [hmode]; simp)
  cases h with
  | pid k => exact hk.child x p hchild hp
  | setkilled _ =>
    refine hset hchild ?_
    rintro rfl
    exact ⟨(hk.child x p hchild hp).1, rfl⟩
  | kill pid _ _ _ =>
    refine hset (r := Proc.kill _) hchild ?_
    rintro rfl
    have hused := (hk.child x p hchild hp).1
    rcases Proc.kill_cases (d.proc x.slot) with hsame | ⟨hold, -⟩
    · exact ⟨hsame.trans hused, rfl⟩
    · rw [hused] at hold
      cases hold
  | @visit q _ _ ch _ _ =>
    refine hset hchild ?_
    rintro rfl
    obtain ⟨hstate, -, hparent, -⟩ := Proc.wake_cases ch (d.proc x.slot)
    rw [(hk.child x p hchild hp).1] at hstate
    exact ⟨hstate.resolve_right (by simp), hparent⟩
  | alloc pid _ hmode _ =>
    cases hchild
    simpa using hunused _ (hk.locked _ _ hmode)
  | unalloc _ _ _ => cases hchild
  | reap _ hmode _ =>
    exact hset hchild fun hq => absurd hq (hne hchild (hk.locked _ _ hmode) (by simp))
  | publish _ _ _ => cases hchild
  | adopt hp' _ _ _ hold =>
    cases hchild
    have hused := (hk.child _ p hold hp).1
    rw [hp] at hp'
    cases hp'
    simpa using hused
  | reparent _ _ _ hnone _ _ =>
    rw [hnone] at hchild
    cases hchild
  | chan _ _ hp' hmode _ _ =>
    rw [hp] at hp'
    cases hp'
    exact hset hchild fun hq => absurd hq (hne hchild (hrun hmode) (by simp))
  | sleep hp' hmode _ _ =>
    rw [hp] at hp'
    cases hp'
    exact hset hchild fun hq => absurd hq (hne hchild (hrun hmode) (by simp))
  | yield hp' hmode _ =>
    rw [hp] at hp'
    cases hp'
    exact hset hchild fun hq => absurd hq (hne hchild (hrun hmode) (by simp))
  | exit _ hp' _ hmode _ _ _ =>
    rw [hp] at hp'
    cases hp'
    exact hset hchild fun hq => absurd hq (hne hchild (hrun hmode) (by simp))
  | run hc _ =>
    rw [hp] at hc
    cases hc
  | enter hc _ => exact hk.child x p hchild hp
  | leave hc _ => exact hk.child x p hchild hp

/-- The pledge of a process that is about to sleep. -/
theorem pledge (h : Legal init σ c d v d' v') (hk : v.Knows σ c d) {p : Fin n} {ch : Chan n}
    (hp : σ = .proc p) (hpledge : v'.pledge = some (ch, true)) : (d'.proc p).chan = ch := by
  have hset : ∀ {q : Fin n} {r : Proc n}, v.pledge = some (ch, true) → r.chan = (d.proc q).chan →
      ((d.set q r).proc p).chan = ch := by
    intro q r hold hchan
    have hp := hk.pledge p ch hp hold
    by_cases hq : p = q
    · subst hq
      simpa [hchan] using hp
    · simpa [hq] using hp
  -- a process that is about to sleep holds no other process's lock
  have hlocked : ∀ {q : Fin n} {st : Option State}, v.mode = .locked q st →
      v.pledge ≠ some (ch, true) := by
    intro q st hmode hpl
    have := hk.wf.pledge (by rw [hpl]; simp)
    rw [hmode] at this
    cases this
  cases h with
  | pid k => exact hk.pledge p ch hp hpledge
  | setkilled _ => exact hset hpledge rfl
  | kill pid _ _ _ => exact hset (r := Proc.kill _) hpledge rfl
  | visit hmode _ => exact absurd hpledge (hlocked hmode)
  | alloc pid _ hmode _ => exact absurd hpledge (hlocked hmode)
  | unalloc _ hmode _ => exact absurd hpledge (hlocked hmode)
  | reap _ hmode _ => exact absurd hpledge (hlocked hmode)
  | publish _ hmode _ => exact absurd hpledge (hlocked hmode)
  | run _ hmode => exact absurd hpledge (hlocked hmode)
  | adopt _ _ _ _ _ => exact hset hpledge rfl
  | reparent _ _ _ _ _ _ => exact hset hpledge rfl
  | chan ch' pl hp' _ hpl _ =>
    rw [hp] at hp'
    cases hp'
    simpa using (hpl ch true hpledge).2
  | sleep _ _ _ _ => cases hpledge
  | yield _ _ hnone => exact absurd (hnone.symm.trans hpledge) (by simp)
  | exit _ _ _ _ hnone _ _ => exact absurd (hnone.symm.trans hpledge) (by simp)
  | enter _ _ => exact hk.pledge p ch hp hpledge
  | leave _ _ => exact hk.pledge p ch hp hpledge

theorem mode_ne_leaving (h : Legal init σ c d v d' v') (hmode : v'.mode ≠ .leaving) :
    v.mode ≠ .leaving := by
  cases h with
  | pid k => exact hmode
  | setkilled _ => exact hmode
  | kill pid _ hne _ => exact hne
  | reparent _ _ _ _ _ _ => exact hmode
  | adopt _ _ _ _ _ => exact hmode
  | chan _ _ _ _ _ _ => exact hmode
  | sleep _ _ _ _ => exact absurd rfl hmode
  | yield _ _ _ => exact absurd rfl hmode
  | exit _ _ _ _ _ _ _ => exact absurd rfl hmode
  | _ => simp_all

theorem mem_orphaned (h : Legal init σ c d v d' v') {q : Fin n} (hq : q ∈ v'.orphaned) :
    q ∈ v.orphaned ∨ ∃ p, σ = .proc p ∧ p ≠ init ∧ (d'.proc q).parent = some init := by
  cases h with
  | reparent hp hinit _ _ _ _ =>
    rcases List.mem_cons.mp hq with rfl | hq
    · exact Or.inr ⟨_, hp, hinit, by simp⟩
    · exact Or.inl hq
  | _ => exact Or.inl hq

theorem kid_of_kid (h : Legal init σ c d v d' v') {q : Fin n} (hq : v'.kid = some q) :
    v.kid = some q := by
  cases h with
  | reap _ _ _ => cases hq
  | reparent _ _ _ _ _ _ => cases hq
  | sleep _ _ _ _ => cases hq
  | _ => exact hq

theorem seen_of_seen (h : Legal init σ c d v d' v') {pid : ℕ} (hseen : v'.seen = some pid) :
    v.seen = some pid := by
  cases h with
  | alloc _ _ _ _ => cases hseen
  | unalloc _ _ _ => cases hseen
  | reap _ _ _ => cases hseen
  | _ => exact hseen

/-- A scheduler that is about to switch to a process has chosen it. -/
theorem entering (h : Legal init σ c d v d' v') {p : Fin n} {b : Bool}
    (hmode : v'.mode = .entering p b) : (∃ b', v.mode = .entering p b') ∨
      v.mode = .locked p (some .runnable) ∧ (d'.proc p).state = .running := by
  cases h with
  | run _ hlocked =>
    cases hmode
    exact Or.inr ⟨hlocked, by simp⟩
  | enter _ hold =>
    cases hmode
    exact Or.inl ⟨false, hold⟩
  | pid k => exact Or.inl ⟨b, hmode⟩
  | setkilled _ => exact Or.inl ⟨b, hmode⟩
  | kill pid _ _ _ =>
    have hforget : v.mode.forget = .entering p b := hmode
    cases hv : v.mode <;> simp_all [Mode.forget]
  | adopt _ _ _ _ _ => exact Or.inl ⟨b, hmode⟩
  | reparent _ _ _ _ _ _ => exact Or.inl ⟨b, hmode⟩
  | chan _ _ _ _ _ _ => exact Or.inl ⟨b, hmode⟩
  | _ => cases hmode

theorem left (h : Legal init σ c d v d' v') {p : Fin n} (hmode : v'.mode = .left p) :
    v.mode = .left p := by
  cases h with
  | pid k => exact hmode
  | setkilled _ => exact hmode
  | kill pid _ _ _ =>
    have hforget : v.mode.forget = .left p := hmode
    cases hv : v.mode <;> simp_all [Mode.forget]
  | adopt _ _ _ _ _ => exact hmode
  | reparent _ _ _ _ _ _ => exact hmode
  | chan _ _ _ _ _ _ => exact hmode
  | _ => cases hmode

/-- Where a child comes from. -/
theorem child_slot (h : Legal init σ c d v d' v') (hk : v.Knows σ c d) {x : Child n}
    (hchild : v'.child = some x) :
    (∃ y, v.child = some y ∧ y.slot = x.slot ∧ y.ready = x.ready) ∨
      (d.proc x.slot).state = .unused ∧ x.ready = false := by
  cases h with
  | alloc pid _ hmode _ =>
    cases hchild
    exact Or.inr ⟨hk.locked _ _ hmode, rfl⟩
  | adopt _ _ _ _ hold =>
    cases hchild
    exact Or.inl ⟨_, hold, rfl, rfl⟩
  | unalloc _ _ _ => cases hchild
  | publish _ _ _ => cases hchild
  | _ => exact Or.inl ⟨x, hchild, rfl, rfl⟩

/-- UNUSED processes have no parent. -/
theorem unused (h : Legal init σ c d v d' v') (hk : v.Knows σ c d)
    (hunused : ∀ q, (d.proc q).state = .unused → (d.proc q).parent = none) (x : Fin n)
    (hx : (d'.proc x).state = .unused) : (d'.proc x).parent = none := by
  have hset : ∀ {q : Fin n} {r : Proc n}, ((d.set q r).proc x).state = .unused →
      (r.state = .unused → r.parent = none) → ((d.set q r).proc x).parent = none := by
    intro q r hstate hr
    by_cases hq : x = q
    · subst hq
      simp only [Data.proc_set, update_self] at hstate ⊢
      exact hr hstate
    · simp only [Data.proc_set, update_of_ne hq] at hstate ⊢
      exact hunused x hstate
  cases h with
  | pid k => exact hunused x hx
  | setkilled _ => exact hset hx fun hr => hunused _ hr
  | kill pid _ _ _ =>
    refine hset (r := Proc.kill _) hx fun hr => hunused _ ?_
    rcases Proc.kill_cases _ with hsame | ⟨-, hnew⟩
    · exact hsame ▸ hr
    · rw [hr] at hnew
      cases hnew
  | @visit q _ _ ch _ _ =>
    refine hset hx fun hr => ?_
    obtain ⟨hstate, -, hparent, -⟩ := Proc.wake_cases ch (d.proc q)
    rcases hstate with hstate | ⟨-, hnew⟩
    · exact hparent ▸ hunused _ (hstate ▸ hr)
    · rw [hr] at hnew
      cases hnew
  | unalloc _ _ _ => exact hset hx fun _ => rfl
  | reap _ _ _ => exact hset hx fun _ => rfl
  | adopt hp _ _ _ hchild =>
    refine hset hx fun hr => ?_
    rw [(hk.child _ _ hchild hp).1] at hr
    cases hr
  | reparent hp _ _ _ _ hkid =>
    refine hset hx fun hr => ?_
    have := hunused _ hr
    rw [hk.kid _ _ hp hkid] at this
    cases this
  | chan _ _ _ _ _ _ => exact hset hx fun hr => hunused _ hr
  | alloc pid _ _ _ => exact hset hx fun hr => by cases hr
  | publish _ _ _ => exact hset hx fun hr => by cases hr
  | sleep _ _ _ _ => exact hset hx fun hr => by cases hr
  | yield _ _ _ => exact hset hx fun hr => by cases hr
  | exit _ _ _ _ _ _ _ => exact hset hx fun hr => by cases hr
  | run _ _ => exact hset hx fun hr => by cases hr
  | enter _ _ => exact hunused x hx
  | leave _ _ => exact hunused x hx

/-- A sleeper slept before on the same channel, or was bound to.  In `wait` it has a child. -/
theorem sleeping (h : Legal init σ c d v d' v') (hk : v.Knows σ c d) {p : Fin n}
    (hp : (d'.proc p).state = .sleeping) :
    (d.proc p).state = .sleeping ∧ (d'.proc p).chan = (d.proc p).chan ∨
      σ = .proc p ∧ (∃ b, v.pledge = some ((d'.proc p).chan, b)) ∧
        ((d'.proc p).chan = .proc p → ∃ q, (d'.proc q).parent = some p) := by
  -- a transition that sets `q`
  have hset : ∀ {q : Fin n} {r : Proc n}, ((d.set q r).proc p).state = .sleeping →
      (r.state = .sleeping → (d.proc q).state = .sleeping ∧ r.chan = (d.proc q).chan ∨
        σ = .proc q ∧ (∃ b, v.pledge = some (r.chan, b)) ∧
          (r.chan = .proc q → ∃ x, ((d.set q r).proc x).parent = some q)) →
      (d.proc p).state = .sleeping ∧ ((d.set q r).proc p).chan = (d.proc p).chan ∨
        σ = .proc p ∧ (∃ b, v.pledge = some (((d.set q r).proc p).chan, b)) ∧
          (((d.set q r).proc p).chan = .proc p → ∃ x, ((d.set q r).proc x).parent = some p) := by
    intro q r hstate hr
    by_cases hq : p = q
    · subst hq
      simp only [Data.proc_set, update_self] at hstate ⊢
      exact hr hstate
    · simp only [Data.proc_set, update_of_ne hq] at hstate ⊢
      exact Or.inl ⟨hstate, trivial⟩
  have hnew : ∀ {r : Proc n} {st : State} {P : Prop}, r.state = st → st ≠ .sleeping →
      r.state = .sleeping → P := fun hr hne hs => absurd (hr.symm.trans hs) hne
  cases h with
  | pid k => exact Or.inl ⟨hp, rfl⟩
  | setkilled _ => exact hset hp fun hr => Or.inl ⟨hr, rfl⟩
  | @kill q _ _ _ _ =>
    refine hset (r := (d.proc q).kill) hp fun hr => ?_
    rcases Proc.kill_cases (d.proc q) with hstate | ⟨-, hrun⟩
    · exact Or.inl ⟨hstate.symm.trans hr, rfl⟩
    · rw [hrun] at hr
      cases hr
  | @visit q _ _ ch _ _ =>
    refine hset hp fun hr => ?_
    obtain ⟨hstate, hchan, -⟩ := Proc.wake_cases ch (d.proc q)
    rcases hstate with hstate | ⟨-, hrun⟩
    · exact Or.inl ⟨hstate.symm.trans hr, hchan⟩
    · rw [hrun] at hr
      cases hr
  | alloc pid _ _ _ => exact hset hp (hnew rfl (by simp))
  | unalloc _ _ _ => exact hset hp (hnew rfl (by simp [Proc.free]))
  | reap _ _ _ => exact hset hp (hnew rfl (by simp [Proc.free]))
  | publish _ _ _ => exact hset hp (hnew rfl (by simp))
  | adopt _ _ _ _ _ => exact hset hp fun hr => Or.inl ⟨hr, rfl⟩
  | reparent _ _ _ _ _ _ => exact hset hp fun hr => Or.inl ⟨hr, rfl⟩
  | chan ch pl hσ hmode _ _ =>
    exact hset hp (hnew (hk.running _ hσ (by rw [hmode]; simp)) (by simp))
  | @sleep q ch hσ hmode hpledge hkid =>
    have hchan := hk.pledge q ch hσ hpledge
    refine hset hp fun _ => Or.inr ⟨hσ, ⟨true, hchan ▸ hpledge⟩, fun hself => ?_⟩
    obtain ⟨x, hx⟩ := Option.ne_none_iff_exists'.mp (hkid (hchan.symm.trans hself))
    refine ⟨x, ?_⟩
    have hparent := hk.kid q x hσ hx
    by_cases hxq : x = q
    · subst hxq
      simpa using hparent
    · simpa [hxq] using hparent
  | yield _ _ _ => exact hset hp (hnew rfl (by simp))
  | exit _ _ _ _ _ _ _ => exact hset hp (hnew rfl (by simp))
  | run _ _ => exact hset hp (hnew rfl (by simp))
  | enter _ _ => exact Or.inl ⟨hp, rfl⟩
  | leave _ _ => exact Or.inl ⟨hp, rfl⟩

/-- **A context knows after its transition what its new view says.** -/
theorem knows (h : Legal init σ c d v d' v') (hk : v.Knows σ c d)
    (hunused : ∀ q, (d.proc q).state = .unused → (d.proc q).parent = none) : v'.Knows σ c d' where
  home := hk.home
  wf := h.wf hk.wf
  lockProc q := by
    rw [h.lock, h.mode_lock]
    exact hk.lockProc q
  lockSpin g := by
    rw [h.lock, h.others]
    exact hk.lockSpin g
  noff := by
    rw [h.noff, hk.noff, View.noff, View.noff, h.mode_lock, h.others]
  cproc := h.cproc hk.cproc
  running p hp hmode := by
    have hold := hk.running p hp (h.mode_ne_leaving hmode)
    rcases h.moves hk p with hsame | ⟨-, hmoves⟩
    · rw [hsame, hold]
    · rw [hold] at hmoves
      cases hmoves with
      | leave _ hleave _ => exact absurd hleave hmode
  locked q st hmode := h.locked hk hmode
  child x p hchild hp := h.child hk hunused hchild hp
  orphaned p hp q hq := by
    rcases h.mem_orphaned hq with hq' | ⟨p', hp', hinit, hparent⟩
    · have hold := hk.orphaned p hp q hq'
      rcases h.rewires q with hsame | hrew
      · rw [hsame]
        exact hold
      · intro heq
        rw [heq] at hrew
        cases hrew with
        | adopted _ _ _ horph _ _ =>
          rw [horph] at hq
          cases hq
        | handed hp' hinit _ _ _ _ =>
          rw [hp] at hp'
          cases hp'
          exact hinit rfl
    · rw [hp] at hp'
      cases hp'
      rw [hparent]
      exact fun heq => hinit (Option.some.inj heq).symm
  kid p q hp hkid := by
    have hold := hk.kid p q hp (h.kid_of_kid hkid)
    rcases h.rewires q with hsame | hrew
    · rw [hsame, hold]
    · generalize hx : (d'.proc q).parent = x at hrew ⊢
      cases hrew with
      | freed hchild _ =>
        have hnone := (hk.child _ p hchild hp).2
        rw [hold] at hnone
        cases hnone
      | reaped _ _ _ hnone _ => exact absurd (hnone.symm.trans hkid) (by simp)
      | adopted hp' _ _ _ _ _ =>
        rw [hp] at hp'
        cases hp'
        rfl
      | handed _ _ _ _ _ hnone => exact absurd (hnone.symm.trans hkid) (by simp)
  pledge p ch hp hpledge := h.pledge hk hp hpledge
  seen q pid hlock hseen := by
    rw [h.mode_lock] at hlock
    rcases h.pid_of_lock q with hsame | ⟨-, hnone⟩
    · rw [hsame]
      exact hk.seen q pid hlock (h.seen_of_seen hseen)
    · exact absurd (hnone.symm.trans hseen) (by simp)

end Legal

/-- Steps that do not assign to processes, and the locks that another CPU holds. -/
theorem View.Knows.congr (hk : v.Knows σ c d) (hlock : ∀ l, d'.lock l = some c ↔ d.lock l = some c)
    (hnoff : d'.noff c = d.noff c) (hcproc : d'.cproc c = d.cproc c) (hproc : d'.proc = d.proc) :
    v.Knows σ c d' where
  home := hk.home
  wf := hk.wf
  lockProc q := (hlock _).trans (hk.lockProc q)
  lockSpin g := (hlock _).trans (hk.lockSpin g)
  noff := hnoff.trans hk.noff
  cproc := hcproc.trans hk.cproc
  running := hproc ▸ hk.running
  locked := hproc ▸ hk.locked
  child := hproc ▸ hk.child
  orphaned := hproc ▸ hk.orphaned
  kid := hproc ▸ hk.kid
  pledge := hproc ▸ hk.pledge
  seen := hproc ▸ hk.seen

/-! ### The other contexts -/

/-- Only the context that creates a process changes it. -/
theorem Legal.frame_child (h : Legal init σ c d v d' v') (hk : v.Knows σ c d) {p : Fin n}
    {x : Child n} (hp : σ ≠ .proc p) (hstate : (d.proc x.slot).state = .used)
    (hparent : (d.proc x.slot).parent = if x.parented then some p else none)
    (hchild : ∀ y, v.child = some y → y.slot ≠ x.slot) : (d'.proc x.slot).state = .used ∧
      (d'.proc x.slot).parent = if x.parented then some p else none := by
  refine ⟨?_, ?_⟩
  · rcases h.moves hk x.slot with hsame | ⟨-, hmoves⟩
    · rw [hsame, hstate]
    · rw [hstate] at hmoves
      generalize (d'.proc x.slot).state = st at hmoves ⊢
      cases hmoves with
      | unalloc hv => exact (hchild _ hv rfl).elim
      | publish hv => exact (hchild _ hv rfl).elim
  · rcases h.rewires x.slot with hsame | hrew
    · rw [hsame, hparent]
    · generalize (d'.proc x.slot).parent = y at hrew ⊢
      cases hrew with
      | freed hv _ => exact (hchild _ hv rfl).elim
      | reaped _ hmode _ _ _ =>
        have := hk.locked _ _ hmode
        rw [hstate] at this
        cases this
      | adopted _ _ _ _ hv _ => exact (hchild _ hv rfl).elim
      | handed hp' _ _ _ hkid _ =>
        have hmine := hk.kid _ _ hp' hkid
        rw [hparent] at hmine
        split at hmine
        · cases hmine
          exact absurd hp' hp
        · cases hmine

/-- **What another CPU's context knows stays true.** -/
theorem Legal.frame (h : Legal init σ c d v d' v') (hk : v.Knows σ c d) {σ' : Slot m n} {c' : Fin m}
    {w : View n} (hw : w.Knows σ' c' d) (hc : c' ≠ c) (hσ : σ' ≠ σ)
    (hchild : ∀ x y, v.child = some x → w.child = some y → x.slot ≠ y.slot) : w.Knows σ' c' d' := by
  -- a lock has one holder
  have hproc : ∀ {q : Fin n}, w.mode.lock σ' = some q → v.mode.lock σ ≠ some q := by
    intro q hq hq'
    have h₁ := (hw.lockProc q).mpr hq
    have h₂ := (hk.lockProc q).mpr hq'
    exact hc (Option.some.inj (h₁.symm.trans h₂))
  have hwait : .wait ∈ w.others → .wait ∉ v.others := by
    intro hq hq'
    have h₁ := (hw.lockSpin _).mpr hq
    have h₂ := (hk.lockSpin _).mpr hq'
    exact hc (Option.some.inj (h₁.symm.trans h₂))
  have hthread : ∀ {x : Child n}, v.child = some x → ∃ p, σ = .proc p := by
    intro x hx
    cases σ with
    | proc p => exact ⟨p, rfl⟩
    | cpu c₀ => exact absurd (hx.symm.trans (hk.wf.scheduler c₀ rfl).2.2.1) (by simp)
  refine ⟨hw.home, hw.wf, fun q => ?_, fun g => ?_, ?_, ?_, fun p hp hmode => ?_,
    fun q st hmode => ?_,
    fun x p hx hp => h.frame_child hk (hp ▸ hσ.symm) (hw.child x p hx hp).1 (hw.child x p hx hp).2
      fun y hy => hchild y x hy hx, fun p hp q hq => ?_, fun p q hp hq => ?_, fun p ch hp hpl => ?_,
    fun q pid hlock hseen => ?_⟩
  · rw [h.lock]
    exact hw.lockProc q
  · rw [h.lock]
    exact hw.lockSpin g
  · rw [h.noff]
    exact hw.noff
  · rw [h.cproc_of_ne hc]
    exact hw.cproc
  · -- only the process itself stops running
    have hold := hw.running p hp hmode
    rcases h.moves hk p with hsame | ⟨-, hmoves⟩
    · rw [hsame, hold]
    · rw [hold] at hmoves
      cases hmoves with
      | leave hq _ _ => exact absurd (hp.trans hq.symm) hσ
  · rcases h.moves hk q with hsame | ⟨hlock, -⟩
    · rw [hsame]
      exact hw.locked q st hmode
    · exact absurd hlock.1 (hproc (by rw [hmode]; rfl))
  · have hmem := hw.wf.orphaned (List.ne_nil_of_mem hq)
    rcases h.rewires q with hsame | hrew
    · rw [hsame]
      exact hw.orphaned p hp q hq
    · generalize (d'.proc q).parent = y at hrew ⊢
      cases hrew with
      | freed _ _ => simp
      | reaped _ _ _ _ _ => simp
      | adopted _ _ hmem' _ _ _ => exact absurd hmem' (hwait hmem)
      | handed _ _ _ hmem' _ _ => exact absurd hmem' (hwait hmem)
  · -- only a process itself frees its children or hands them on
    have hold := hw.kid p q hp hq
    have hother : ∀ {p' : Fin n}, σ = .proc p' → (d.proc q).parent ≠ some p' := by
      intro p' hp' hparent
      rw [hold] at hparent
      cases hparent
      exact hσ (hp.trans hp'.symm)
    rcases h.rewires q with hsame | hrew
    · rw [hsame, hold]
    · generalize (d'.proc q).parent = y at hrew ⊢
      cases hrew with
      | freed hv _ =>
        obtain ⟨p', hp'⟩ := hthread hv
        have hnone := (hk.child _ p' hv hp').2
        rw [hold] at hnone
        cases hnone
      | reaped hp' _ hkid _ _ => exact absurd (hk.kid _ q hp' hkid) (hother hp')
      | adopted hp' _ _ _ hv _ =>
        have hnone := (hk.child _ _ hv hp').2
        rw [hold] at hnone
        cases hnone
      | handed hp' _ _ _ hkid _ => exact absurd (hk.kid _ q hp' hkid) (hother hp')
  · have hown := hw.wf.pledge (by rw [hpl]; simp)
    rw [h.chan_of_unlocked (hproc (by rw [hown, hp]; rfl))]
    exact hw.pledge p ch hp hpl
  · rcases h.pid_of_lock q with hsame | ⟨hlock', -⟩
    · rw [hsame]
      exact hw.seen q pid hlock hseen
    · exact absurd hlock' (hproc hlock)

/-! ### Looks and locks -/

theorem Learn.knows (h : Learn σ d v v') (hk : v.Knows σ c d) : v'.Knows σ c d := by
  cases h with
  | same => exact hk
  | @state q hmode =>
    have hlock : ∀ st, (Mode.locked q st).lock σ = v.mode.lock σ := by
      intro st
      rw [hmode]
      rfl
    refine ⟨hk.home, hk.wf.locked hmode _ _ _ _ _ (fun c hc => (hk.wf.scheduler c hc).2.2.1)
      hk.wf.wake fun _ => rfl, fun q => ?_, hk.lockSpin, ?_, ?_, fun p hp _ => ?_, fun q st hst =>
        ?_,
      hk.child, hk.orphaned, hk.kid, hk.pledge, fun q pid hq => ?_⟩
    · rw [hlock]
      exact hk.lockProc q
    · rw [View.noff, hlock]
      exact hk.noff
    · rw [hk.cproc]
      cases σ with
      | proc p => rfl
      | cpu c => simp [View.cproc, hmode]
    · exact hk.running p hp (by rw [hmode]; simp)
    · cases hst
      rfl
    · rw [hlock] at hq
      exact hk.seen q pid hq
  | orphan hp hwait hparent =>
    refine ⟨hk.home, ⟨hk.wf.thread, fun c hc => ?_, fun _ => hwait, hk.wf.kid, hk.wf.wake,
      hk.wf.pledge, hk.wf.nodup, hk.wf.seen⟩, hk.lockProc, hk.lockSpin, hk.noff, hk.cproc,
      hk.running, hk.locked, hk.child, fun p' hp' q hq => ?_, hk.kid, hk.pledge, hk.seen⟩
    · rw [hp] at hc
      cases hc
    · rcases List.mem_cons.mp hq with rfl | hq
      · rw [hp] at hp'
        cases hp'
        exact hparent
      · exact hk.orphaned p' hp' q hq
  | kid hp hwait hparent =>
    refine ⟨hk.home, ⟨hk.wf.thread, fun c hc => ?_, hk.wf.orphaned, fun _ => Or.inl hwait,
      hk.wf.wake,
      hk.wf.pledge, hk.wf.nodup, hk.wf.seen⟩, hk.lockProc, hk.lockSpin, hk.noff, hk.cproc,
      hk.running, hk.locked, hk.child, hk.orphaned, fun p' q hp' hq => ?_, hk.pledge, hk.seen⟩
    · rw [hp] at hc
      cases hc
    · cases hq
      rw [hp] at hp'
      cases hp'
      exact hparent
  | skip hq hmode hwake =>
    refine ⟨hk.home, ⟨hk.wf.thread, hk.wf.scheduler, hk.wf.orphaned, hk.wf.kid, fun ch qs hw => ?_,
      hk.wf.pledge, hk.wf.nodup, hk.wf.seen⟩, hk.lockProc, hk.lockSpin, hk.noff, hk.cproc,
      hk.running, hk.locked, hk.child, hk.orphaned, hk.kid, hk.pledge, hk.seen⟩
    cases hw
    exact hk.wf.wake _ _ hwake
  | @pid q hlock =>
    refine ⟨hk.home, ⟨hk.wf.thread, hk.wf.scheduler, hk.wf.orphaned, hk.wf.kid, hk.wf.wake,
      hk.wf.pledge, hk.wf.nodup, fun _ => by simp [hlock]⟩, hk.lockProc, hk.lockSpin, hk.noff,
      hk.cproc, hk.running, hk.locked, hk.child, hk.orphaned, hk.kid, hk.pledge,
      fun x pid hx hseen => ?_⟩
    have hxq : some x = some q := hx.symm.trans hlock
    cases hxq
    cases hseen
    rfl

namespace View.Knows

/-- A process lock is taken. -/
theorem acquireProc (hk : v.Knows σ c d) {q : Fin n} (hfree : d.lock (.proc q) = none)
    (hmode : v.mode = .free) : (v.take σ q).Knows σ c (d.acquire c (.proc q)) := by
  have hnone : v.mode.lock σ = none := by
    rw [hmode]
    rfl
  have hlock : (v.take σ q).mode.lock σ = some q := take_lock q
  have hpledge : v.pledge = none := by
    by_contra hne
    have := hk.wf.pledge hne
    rw [hmode] at this
    cases this
  have hseen : v.seen = none := by
    by_contra hne
    exact hk.wf.seen hne hnone
  have hwf : (v.take σ q).WF σ := by
    refine ⟨fun p hp => ?_, fun c hc => ?_, hk.wf.orphaned, hk.wf.kid, hk.wf.wake,
      fun hne => absurd hpledge hne, hk.wf.nodup, fun hne => absurd hseen hne⟩
    · subst hp
      by_cases hq : p = q
      · simp [View.take, hq]
      · simp [View.take, hq, Ne.symm hq]
    · subst hc
      obtain ⟨-, -, hrest⟩ := hk.wf.scheduler c rfl
      exact ⟨by simp [View.take], by simp [View.take], hrest⟩
  refine ⟨hk.home, hwf, fun x => ?_, fun g => ?_, ?_, ?_, fun p hp _ => ?_, fun x st hst => ?_,
    hk.child,
    hk.orphaned, hk.kid, hk.pledge, fun x pid _ hpid => absurd (hseen.symm.trans hpid) (by simp)⟩
  · rw [hlock]
    by_cases hx : x = q
    · subst hx
      simp [Data.acquire]
    · have hold : ¬d.lock (.proc x) = some c := by
        rw [hk.lockProc, hnone]
        simp
      simp [Data.acquire, hx, Ne.symm hx, hold]
  · simpa [Data.acquire, View.take] using hk.lockSpin g
  · have hold := hk.noff
    simp only [View.noff, hnone, Option.elim] at hold
    simp only [View.noff, hlock, Option.elim, Data.acquire, update_self, hold]
    simp only [View.take]
    omega
  · rw [show (d.acquire c (.proc q)).cproc c = d.cproc c from rfl, hk.cproc]
    cases σ with
    | proc p => rfl
    | cpu c' => simp [View.cproc, View.take, hmode]
  · exact hk.running p hp (by rw [hmode]; simp)
  · by_cases hq : σ = .proc q
    · simp [View.take, hq] at hst
    · simp [View.take, hq] at hst

/-- Another lock is taken. -/
theorem acquireSpin (hk : v.Knows σ c d) {g : Spin} (hfree : d.lock (.spin g) = none) :
    View.Knows σ { v with others := g :: v.others } c (d.acquire c (.spin g)) := by
  have hg : g ∉ v.others := by
    intro hg
    have := (hk.lockSpin g).mpr hg
    rw [hfree] at this
    cases this
  refine ⟨hk.home, ⟨hk.wf.thread, hk.wf.scheduler,
    fun h => List.mem_cons_of_mem g (hk.wf.orphaned h),
    fun h => (hk.wf.kid h).imp_left (List.mem_cons_of_mem g),
    fun ch qs h => List.mem_cons_of_mem g (hk.wf.wake ch qs h), hk.wf.pledge,
    List.nodup_cons.mpr ⟨hg, hk.wf.nodup⟩, hk.wf.seen⟩, fun x => ?_, fun x => ?_, ?_, hk.cproc,
    hk.running, hk.locked, hk.child, hk.orphaned, hk.kid, hk.pledge, hk.seen⟩
  · simpa [Data.acquire] using hk.lockProc x
  · by_cases hx : x = g
    · subst hx
      simp [Data.acquire]
    · simpa [Data.acquire, hx] using hk.lockSpin x
  · have hold := hk.noff
    simp only [View.noff, Data.acquire, update_self, List.length_cons, hold]
    omega

/-- A process lock is released. -/
theorem releaseProc (hk : v.Knows σ c d) {q : Fin n}
    (hmode : σ = .proc q ∧ v.mode = .own ∧ v.pledge = none ∨ ∃ st, v.mode = .locked q st) :
    View.Knows σ { v with mode := .free, seen := none } c (d.release c (.proc q)) := by
  have hlock : v.mode.lock σ = some q := by
    rcases hmode with ⟨rfl, hmode, -⟩ | ⟨st, hmode⟩
    · rw [hmode]
      rfl
    · rw [hmode]
      rfl
  have hpledge : v.pledge = none := by
    rcases hmode with ⟨-, -, hpledge⟩ | ⟨st, hmode⟩
    · exact hpledge
    · by_contra hne
      have := hk.wf.pledge hne
      rw [hmode] at this
      cases this
  refine ⟨hk.home, ⟨fun _ _ => by simp, fun c hc => ?_, hk.wf.orphaned, hk.wf.kid, hk.wf.wake,
    fun hne => absurd hpledge hne, hk.wf.nodup, fun h => absurd rfl h⟩, fun x => ?_, fun g =>
      ?_, ?_, ?_,
    fun p hp _ => ?_, fun x st hst => ?_, hk.child, hk.orphaned, hk.kid, hk.pledge,
    fun _ _ hlock => by cases hlock⟩
  · obtain ⟨-, -, hrest⟩ := hk.wf.scheduler c hc
    exact ⟨by simp, by simp, hrest⟩
  · have hold := hk.lockProc x
    rw [hlock] at hold
    by_cases hx : x = q
    · subst hx
      simp [Data.release, Mode.lock]
    · simpa [Data.release, hx, Mode.lock, Ne.symm hx] using hold
  · simpa [Data.release] using hk.lockSpin g
  · have hold := hk.noff
    simp only [View.noff, hlock, Option.elim] at hold
    simp only [View.noff, Mode.lock, Option.elim, Data.release, update_self, hold]
    omega
  · rw [show (d.release c (.proc q)).cproc c = d.cproc c from rfl, hk.cproc]
    cases σ with
    | proc p => rfl
    | cpu c' =>
      rcases hmode with ⟨h, -, -⟩ | ⟨st, hmode⟩
      · cases h
      · simp [View.cproc, hmode]
  · apply hk.running p hp
    rcases hmode with ⟨-, hmode, -⟩ | ⟨st, hmode⟩
    · rw [hmode]
      simp
    · rw [hmode]
      simp
  · cases hst

/-- Another lock is released, and the process may be bound to sleep. -/
theorem releaseSpin (hk : v.Knows σ c d) {g : Spin} (hg : g ∈ v.others)
    (hwake : ∀ ch qs, v.wake = some (ch, qs) → ch.lock ≠ g) {pl : Option (Chan n × Bool)}
    (hpl : pl = v.pledge ∨ ∃ ch : Chan n, ch.lock = g ∧ v.mode = .own ∧ v.wake = none ∧
      pl = some (ch, false)) : (v.drop g pl).Knows σ c (d.release c (.spin g)) := by
  have hmem : ∀ {x}, x ≠ g → x ∈ v.others → x ∈ v.others.erase g := fun hne hx =>
    (List.mem_erase_of_ne hne).mpr hx
  refine ⟨hk.home, ⟨hk.wf.thread, fun c hc => ?_, fun hne => ?_, fun hne => ?_, fun ch qs hw => ?_,
    fun hne => ?_, hk.wf.nodup.erase g, hk.wf.seen⟩, fun x => ?_, fun x =>
      ?_, ?_, hk.cproc, hk.running,
    hk.locked, hk.child, fun p hp q hq => ?_, fun p q hp hq => ?_, fun p ch hp hpl' => ?_, hk.seen⟩
  · obtain ⟨hown, hleave, hchild, horph, hkid, hpledge⟩ := hk.wf.scheduler c hc
    refine ⟨hown, hleave, hchild, ?_, ?_, ?_⟩
    · simp [View.drop, horph]
    · simp [View.drop, hkid]
    · rcases hpl with rfl | ⟨_, _, hmode, _⟩
      · exact hpledge
      · exact absurd hmode hown
  · by_cases hgw : g = .wait
    · simp [View.drop, hgw] at hne
    · simp only [View.drop, if_neg hgw] at hne ⊢
      exact hmem (Ne.symm hgw) (hk.wf.orphaned hne)
  · by_cases hnone : pl = none
    · -- a process that is not about to sleep forgets its child with the lock
      have hold : v.pledge = none := by
        rcases hpl with rfl | ⟨_, _, _, _, rfl⟩
        · exact hnone
        · cases hnone
      by_cases hgw : g = .wait
      · simp [View.drop, hgw, hnone] at hne
      · simp only [View.drop, hgw, false_and, if_false] at hne
        exact Or.inl (hmem (Ne.symm hgw) ((hk.wf.kid hne).resolve_right fun h => h hold))
    · exact Or.inr hnone
  · exact hmem (hwake ch qs hw) (hk.wf.wake ch qs hw)
  · rcases hpl with rfl | ⟨_, _, hmode, _⟩
    · exact hk.wf.pledge hne
    · exact hmode
  · simpa [Data.release, View.drop] using hk.lockProc x
  · by_cases hx : x = g
    · subst hx
      simp [Data.release, View.drop, hk.wf.nodup.not_mem_erase]
    · simpa [Data.release, View.drop, hx, List.mem_erase_of_ne hx] using hk.lockSpin x
  · have hold := hk.noff
    have hpos := List.length_pos_of_mem hg
    simp only [View.noff, View.drop, Data.release, update_self, List.length_erase_of_mem hg,
      hold]
    omega
  · by_cases hgw : g = .wait
    · simp [View.drop, hgw] at hq
    · simp only [View.drop, if_neg hgw] at hq
      exact hk.orphaned p hp q hq
  · by_cases hcase : g = .wait ∧ pl = none
    · simp [View.drop, hcase] at hq
    · simp only [View.drop, if_neg hcase] at hq
      exact hk.kid p q hp hq
  · rcases hpl with rfl | ⟨ch', _, _, _, rfl⟩
    · exact hk.pledge p ch hp hpl'
    · cases hpl'

/-- What another CPU holds is not touched by taking a lock that is free. -/
theorem frame_acquire (hk : v.Knows σ c d) {c' : Fin m} (hc : c ≠ c') {l : Lock n}
    (hfree : d.lock l = none) : v.Knows σ c (d.acquire c' l) := by
  refine hk.congr (fun x => ?_) ?_ rfl rfl
  · by_cases hx : x = l
    · subst hx
      simp [Data.acquire, hfree, Ne.symm hc]
    · simp [Data.acquire, hx]
  · simp [Data.acquire, hc]

theorem frame_release (hk : v.Knows σ c d) {c' : Fin m} (hc : c ≠ c') {l : Lock n}
    (hheld : d.lock l = some c') : v.Knows σ c (d.release c' l) := by
  refine hk.congr (fun x => ?_) ?_ rfl rfl
  · by_cases hx : x = l
    · subst hx
      simp [Data.release, hheld, Ne.symm hc]
    · simp [Data.release, hx]
  · simp [Data.release, hc]

end View.Knows

end Xv6Ext2.Smp
