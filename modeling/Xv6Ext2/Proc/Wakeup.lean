import Xv6Ext2.Proc.Sched

/-!
# No wakeup is lost

A process that goes to sleep gives up the condition lock before it is SLEEPING, so a call of
`wakeup` may come in between.  It is not lost: the sleeper takes its own lock before it
releases the condition lock, and a call that begins after that has to wait for it.

A process that has released the lock of its channel, and one that sleeps on it, is *fresh*: no
call of `wakeup` that began since has returned, and those under way still have to visit it.

## Main definitions

* `Fresh` — no call of `wakeup` has been missed.
* `WakeInv` — sleepers, and processes about to sleep, are fresh.

## Main results

* `AStep.wakeInv` — every step keeps this.
* `no_lost_wakeup_of_runs` — **no wakeup is lost.**
-/

namespace Xv6Ext2.Smp

open Function

variable {m n : ℕ} {init : Fin n}

/-- No call of `wakeup` on `ch` that began since `p` last held the lock of `ch` has returned,
and the calls that are under way and began since will visit `p`. -/
structure Fresh (s : Machine m n) (view : Slot m n → View n) (p : Fin n) (ch : Chan n) : Prop where
  calls : ∀ x ∈ s.calls, x.chan = ch → x.start < s.heldAt p ch.lock
  visits : ∀ c qs, (view (s.stack c)).wake = some (ch, qs) → s.heldAt p ch.lock ≤ s.begun c →
    p ∈ qs

/-- Sleepers and processes about to sleep are fresh, and times lie in the past. -/
structure WakeInv (s : Machine m n) (view : Slot m n → View n) : Prop where
  begun : ∀ c, s.begun c < s.clock
  heldAt : ∀ p g, s.heldAt p g < s.clock
  calls : ∀ x ∈ s.calls, x.start < s.clock
  sleeping : ∀ p, (s.data.proc p).state = .sleeping → Fresh s view p (s.data.proc p).chan
  pledged : ∀ c p ch b, s.stack c = .proc p → (view (.proc p)).pledge = some (ch, b) →
    Fresh s view p ch

variable {s s' : Machine m n} {view view' : Slot m n → View n}

/-! ### What transitions do to sleepers -/

section Legal

variable {σ : Slot m n} {c : Fin m} {d d' : Data m n} {v v' : View n}

theorem Legal.pledged (h : Legal init σ c d v d' v') {ch : Chan n} {b : Bool}
    (hpledge : v'.pledge = some (ch, b)) : ∃ b', v.pledge = some (ch, b') := by
  cases h with
  | chan _ pl _ _ hpl _ => exact (hpl ch b hpledge).1
  | sleep _ _ _ _ => cases hpledge
  | _ => exact ⟨b, hpledge⟩

/-- A process is struck off the list of those to be woken only when it has been looked at. -/
theorem Legal.wake_eq (h : Legal init σ c d v d' v') : v'.wake = v.wake ∨
    ∃ ch q qs st, v.wake = some (ch, q :: qs) ∧ v'.wake = some (ch, qs) ∧ v.mode = .locked q st ∧
      ¬((d'.proc q).state = .sleeping ∧ (d'.proc q).chan = ch) := by
  cases h with
  | @visit q qs st ch hmode hwake =>
    exact Or.inr ⟨ch, q, qs, st, hwake, rfl, hmode,
      by simpa using (Proc.wake_cases ch (d.proc q)).2.2.2⟩
  | _ => exact Or.inl rfl

end Legal

/-! ### Steps -/

/-- A step that begins and ends no call of `wakeup` keeps a process fresh, if it is not struck
off a list. -/
theorem Fresh.step {p : Fin n} {ch : Chan n} (h : Fresh s view p ch) (hcalls : s'.calls = s.calls)
    (hbegun : s'.begun = s.begun) (hheld : s.heldAt p ch.lock ≤ s'.heldAt p ch.lock)
    (hwake : ∀ c qs, (view' (s'.stack c)).wake = some (ch, qs) →
      ∃ qs', (view (s.stack c)).wake = some (ch, qs') ∧
        (p ∈ qs' → p ∈ qs)) : Fresh s' view' p ch := by
  refine ⟨fun x hx hch => ?_, fun c qs hw hle => ?_⟩
  · rw [hcalls] at hx
    exact (h.calls x hx hch).trans_le hheld
  · obtain ⟨qs', hw', hsub⟩ := hwake c qs hw
    rw [hbegun] at hle
    exact hsub (h.visits c qs' hw' (hheld.trans hle))

/-- **A step of CPU `c` on its stack** that begins and ends no call. -/
theorem WakeInv.onStack (h : WakeInv s view) (hinv : Inv init s view) {c : Fin m} {v' : View n}
    (hstack : s'.stack = s.stack) (hcalls : s'.calls = s.calls) (hbegun : s'.begun = s.begun)
    (hclock : s'.clock = s.clock + 1) (hheld : ∀ p g, s.heldAt p g ≤ s'.heldAt p g)
    (hheld' : ∀ p g, s'.heldAt p g < s'.clock)
    (hwake : v'.wake = (view (s.stack c)).wake ∨ ∃ ch q qs,
      (view (s.stack c)).wake = some (ch, q :: qs) ∧ v'.wake = some (ch, qs) ∧
        ¬((s'.data.proc q).state = .sleeping ∧ (s'.data.proc q).chan = ch) ∧
        ∀ c', s.stack c' = .proc q → (view (.proc q)).pledge = none)
    (hsleep : ∀ p, (s'.data.proc p).state = .sleeping → Fresh s view p (s'.data.proc p).chan)
    (hpledge : ∀ p ch b, s.stack c = .proc p → v'.pledge = some (ch, b) →
      (∃ b', (view (.proc p)).pledge = some (ch, b')) ∨
        Fresh s' (update view (s.stack c) v') p ch) :
    WakeInv s' (update view (s.stack c) v') := by
  -- a process that is not struck off stays fresh
  have hstep : ∀ {p ch}, Fresh s view p ch →
      (∀ qs, (view (s.stack c)).wake = some (ch, p :: qs) → v'.wake ≠ some (ch, qs)) →
      Fresh s' (update view (s.stack c) v') p ch := by
    intro p ch hfresh hnot
    refine hfresh.step hcalls hbegun (hheld p _) fun c' qs hw => ?_
    rw [hstack] at hw
    by_cases hc : c' = c
    · subst hc
      rw [update_self] at hw
      rcases hwake with hsame | ⟨ch', q, qs', hold, hnew, -, -⟩
      · rw [hsame] at hw
        exact ⟨qs, hw, id⟩
      · rw [hnew] at hw
        cases hw
        refine ⟨q :: qs, hold, fun hp => ?_⟩
        rcases List.mem_cons.mp hp with rfl | hp
        · exact (hnot qs hold hnew).elim
        · exact hp
    · rw [update_of_ne (hinv.stack_ne hc)] at hw
      exact ⟨qs, hw, id⟩
  have hpledged : ∀ {c' p ch b}, s.stack c' = .proc p → (view (.proc p)).pledge = some (ch, b) →
      Fresh s' (update view (s.stack c) v') p ch := by
    intro c' p ch b hp hpl
    refine hstep (h.pledged c' p ch b hp hpl) fun qs hold hnew => ?_
    rcases hwake with hsame | ⟨ch', q, qs', hold', -, -, hnone⟩
    · rw [hsame, hold] at hnew
      simp at hnew
    · rw [hold] at hold'
      cases hold'
      rw [hnone c' hp] at hpl
      cases hpl
  refine ⟨fun c' => ?_, hheld', fun x hx => ?_, fun p hp => ?_, fun c' p ch b hp hpl => ?_⟩
  · rw [hbegun, hclock]
    exact (h.begun c').trans (Nat.lt_succ_self _)
  · rw [hcalls] at hx
    rw [hclock]
    exact (h.calls x hx).trans (Nat.lt_succ_self _)
  · refine hstep (hsleep p hp) fun qs hold hnew => ?_
    rcases hwake with hsame | ⟨ch', q, qs', hold', -, hawake, -⟩
    · rw [hsame, hold] at hnew
      simp at hnew
    · rw [hold] at hold'
      cases hold'
      exact hawake ⟨hp, rfl⟩
  · rw [hstack] at hp
    by_cases hc : c' = c
    · subst hc
      rw [← hp, update_self] at hpl
      rcases hpledge p ch b hp hpl with ⟨b', hold⟩ | hfresh
      · exact hpledged hp hold
      · exact hfresh
    · rw [← hp, update_of_ne (hinv.stack_ne hc), hp] at hpl
      exact hpledged hp hpl

/-- A process that a step on its stack does not change. -/
theorem WakeInv.sleeping_of_eq (h : WakeInv s view) (hproc : s'.data.proc = s.data.proc) (p : Fin n)
    (hp : (s'.data.proc p).state = .sleeping) : Fresh s view p (s'.data.proc p).chan := by
  rw [hproc] at hp ⊢
  exact h.sleeping p hp

theorem heldAt_lt (h : WakeInv s view) (p : Fin n) (g : Spin) : s.heldAt p g < s.clock + 1 :=
  (h.heldAt p g).trans (Nat.lt_succ_self _)

/-- `heldAt` after a release. -/
theorem noteRelease_spin {c : Fin m} {g : Spin} (p : Fin n) (g' : Spin) :
    s.noteRelease c (.spin g) p g' =
      if s.stack c = .proc p ∧ g' = g then s.clock else s.heldAt p g' := by
  unfold Machine.noteRelease
  cases hσ : s.stack c with
  | cpu c' => simp
  | proc q =>
    by_cases hq : p = q
    · subst hq
      by_cases hg : g' = g
      · subst hg
        simp
      · simp [hg]
    · simp [hq, Ne.symm hq]

/-- Pledges after a step that makes none. -/
theorem Inv.pledge_of_update (hinv : Inv init s view) {c c' : Fin m} {p : Fin n} {v' : View n}
    {pl : Option (Chan n × Bool)} (hp : s.stack c' = .proc p)
    (hpl : (update view (s.stack c) v' (.proc p)).pledge = pl)
    (hv' : v'.pledge = (view (s.stack c)).pledge) :
    (view (.proc p)).pledge = pl := by
  by_cases hc : c' = c
  · subst hc
    rw [← hp, update_self, hv'] at hpl
    rw [← hp, hpl]
  · rwa [← hp, update_of_ne (hinv.stack_ne hc), hp] at hpl

/-- Only the views of contexts that run matter. -/
theorem WakeInv.congr (h : WakeInv s view) (hview : ∀ c, view' (s.stack c) = view (s.stack c)) :
    WakeInv s view' := by
  have hfresh : ∀ {p ch}, Fresh s view p ch → Fresh s view' p ch := by
    refine fun hf => ⟨hf.calls, fun c qs hw => hf.visits c qs ?_⟩
    rwa [hview] at hw
  refine ⟨h.begun, h.heldAt, h.calls, fun p hp => hfresh (h.sleeping p hp),
    fun c p ch b hp hpl => ?_⟩
  rw [← hp, hview, hp] at hpl
  exact hfresh (h.pledged c p ch b hp hpl)

/-- A context switch on CPU `c`. -/
theorem WakeInv.swtch (h : WakeInv s view) {c : Fin m} (hdata : s'.data = s.data)
    (hcalls : s'.calls = s.calls) (hbegun : s'.begun = s.begun) (hheld : s'.heldAt = s.heldAt)
    (hclock : s'.clock = s.clock + 1) (hstack : ∀ c', c' ≠ c → s'.stack c' = s.stack c')
    (hview : ∀ c', c' ≠ c → view' (s.stack c') = view (s.stack c'))
    (hwake : (view' (s'.stack c)).wake = none) (hpledge : (view' (s'.stack c)).pledge = none) :
    WakeInv s' view' := by
  have hfresh : ∀ {p ch}, Fresh s view p ch → Fresh s' view' p ch := by
    intro p ch hf
    refine hf.step hcalls hbegun (by rw [hheld]) fun c' qs hw => ?_
    by_cases hc : c' = c
    · subst hc
      rw [hwake] at hw
      cases hw
    · rw [hstack c' hc, hview c' hc] at hw
      exact ⟨qs, hw, id⟩
  refine ⟨fun c' => ?_, fun p g => ?_, fun x hx => ?_, fun p hp => ?_, fun c' p ch b hp hpl => ?_⟩
  · rw [hbegun, hclock]
    exact (h.begun c').trans (Nat.lt_succ_self _)
  · rw [hheld, hclock]
    exact heldAt_lt h p g
  · rw [hcalls] at hx
    rw [hclock]
    exact (h.calls x hx).trans (Nat.lt_succ_self _)
  · exact hfresh (h.sleeping_of_eq (by rw [hdata]) p hp)
  · by_cases hc : c' = c
    · subst hc
      rw [← hp, hpledge] at hpl
      cases hpl
    · rw [hstack c' hc] at hp
      rw [← hp, hview c' hc, hp] at hpl
      exact hfresh (h.pledged c' p ch b hp hpl)

/-- **Every step keeps sleepers fresh.** -/
theorem AStep.wakeInv (hstep : AStep init s view s' view') (hinv : Inv init s view)
    (h : WakeInv s view) : WakeInv s' view' := by
  cases hstep with
  | @look c k v' hlearn hok =>
    have hk := hinv.knows c
    refine h.onStack hinv (Machine.stack_of_cur rfl) rfl rfl rfl (fun _ _ => le_rfl)
      (heldAt_lt h) ?_
      (h.sleeping_of_eq rfl) fun p ch b hp hpl => Or.inl ⟨b, ?_⟩
    · cases hlearn with
      | @skip ch q qs hq hmode hwake =>
        -- the process that calls `wakeup` does not sleep, and is not about to
        refine Or.inr ⟨ch, q, qs, hwake, rfl, fun hs => ?_, fun c' hc' => ?_⟩
        · have hrun := hk.running q hq (by rw [hmode]; simp)
          exact absurd (hrun.symm.trans hs.1) (by simp)
        · by_contra hne
          rw [hq] at hmode hk
          have := hk.wf.pledge hne
          rw [hmode] at this
          cases this
      | _ => exact Or.inl rfl
    · rw [← hp]
      cases hlearn <;> exact hpl
  | @acquireProc c q k hfree hmode hok =>
    refine h.onStack hinv (Machine.stack_of_cur rfl) rfl rfl rfl (fun _ _ => le_rfl) (heldAt_lt h)
      (Or.inl rfl) (h.sleeping_of_eq rfl) fun p ch b hp hpl => Or.inl ⟨b, ?_⟩
    rw [← hp]
    exact hpl
  | @acquireSpin c g k hfree hok =>
    refine h.onStack hinv (Machine.stack_of_cur rfl) rfl rfl rfl (fun _ _ => le_rfl) (heldAt_lt h)
      (Or.inl rfl) (h.sleeping_of_eq rfl) fun p ch b hp hpl => Or.inl ⟨b, ?_⟩
    rw [← hp]
    exact hpl
  | @releaseProc c q k hheld hmode hok =>
    refine h.onStack hinv (Machine.stack_of_cur rfl) rfl rfl rfl (fun _ _ => le_rfl) (heldAt_lt h)
      (Or.inl rfl) (h.sleeping_of_eq rfl) fun p ch b hp hpl => Or.inl ⟨b, ?_⟩
    rw [← hp]
    exact hpl
  | @releaseSpin c g k pl hheld hwake hpl hok =>
    refine h.onStack hinv (Machine.stack_of_cur rfl) rfl rfl rfl (fun p g' => ?_) (fun p g' => ?_)
      (Or.inl rfl) (h.sleeping_of_eq rfl) fun p ch b hp hpl' => ?_
    · show _ ≤ s.noteRelease c (.spin g) p g'
      rw [noteRelease_spin]
      split
      · exact (h.heldAt p g').le
      · exact le_rfl
    · show s.noteRelease c (.spin g) p g' < s.clock + 1
      rw [noteRelease_spin]
      split
      · exact Nat.lt_succ_self _
      · exact heldAt_lt h p g'
    · have hnew : pl = some (ch, b) := hpl'
      rcases hpl with rfl | ⟨ch', rfl, -, hnone, rfl⟩
      · rw [hp] at hnew
        exact Or.inl ⟨b, hnew⟩
      · -- the process gives up the lock: no call is under way that does not hold it
        cases hnew
        have hnote : s.noteRelease c (.spin ch.lock) p ch.lock = s.clock := by
          rw [noteRelease_spin, if_pos ⟨hp, rfl⟩]
        right
        refine ⟨fun x hx _ => ?_, fun c' qs hw => ?_⟩
        · show x.start < s.noteRelease c (.spin ch.lock) p ch.lock
          rw [hnote]
          exact h.calls x hx
        · have hstack : (s.goto c k).stack = s.stack := Machine.stack_of_cur rfl
          have hw : (update view (s.stack c) _ ((s.goto c k).stack c')).wake =
              some (ch, qs) := hw
          rw [hstack] at hw
          by_cases hc : c' = c
          · subst hc
            rw [update_self] at hw
            exact absurd (hnone.symm.trans hw) (by simp)
          · rw [update_of_ne (hinv.stack_ne hc)] at hw
            have hk := hinv.knows c'
            have hlock := (hk.lockSpin _).mpr (hk.wf.wake ch qs hw)
            exact absurd (Option.some.inj (hlock.symm.trans hheld)) hc
  | @assign c k d' v' hlegal hok =>
    have hk := hinv.knows c
    refine h.onStack hinv (Machine.stack_of_cur rfl) rfl rfl rfl (fun _ _ => le_rfl)
      (heldAt_lt h) ?_ ?_
      fun p ch b hp hpl => Or.inl ?_
    · rcases hlegal.wake_eq with hsame | ⟨ch, q, qs, st, hold, hnew, hmode, hawake⟩
      · exact Or.inl hsame
      · refine Or.inr ⟨ch, q, qs, hold, hnew, hawake, fun c' hc' => ?_⟩
        -- a process about to sleep holds its own lock
        by_contra hne
        have hk' := hinv.knows c'
        rw [hc'] at hk'
        have h₁ := (hk'.lockProc q).mpr (by rw [hk'.wf.pledge hne]; rfl)
        have h₂ := (hk.lockProc q).mpr (by rw [hmode]; rfl)
        have hcc : c' = c := Option.some.inj (h₁.symm.trans h₂)
        subst hcc
        exact (hk.wf.thread q hc').2.2 st hmode
    · intro p hp
      rcases hlegal.sleeping hk hp with ⟨hs, hchan⟩ | ⟨hσ, ⟨b, hpl⟩, -⟩
      · rw [hchan]
        exact h.sleeping p hs
      · rw [hσ] at hpl
        exact h.pledged c p _ b hσ hpl
    · rw [← hp]
      exact hlegal.pledged hpl
  | @setContext c p q start k st ready hp hmode hchild hstart hok =>
    have hq : ∀ c', s.stack c' ≠ .proc q := fun c' => (hinv.child_ne hchild c').symm
    have hstack : Machine.stack { s.goto c k with
        context := update s.context (.proc q) ⟨.proc q, start⟩ } = s.stack :=
      Machine.stack_of_cur rfl
    have hstep : WakeInv { s.goto c k with
        context := update s.context (.proc q) ⟨.proc q, start⟩ }
        (update view (s.stack c)
          { view (.proc p) with child := some ⟨q, true, false⟩ }) := by
      refine h.onStack hinv hstack rfl rfl rfl (fun _ _ => le_rfl) (heldAt_lt h)
        (Or.inl (by rw [hp])) (h.sleeping_of_eq rfl) fun p' ch b hp' hpl => Or.inl ⟨b, ?_⟩
      rw [hp] at hp'
      cases hp'
      exact hpl
    refine hstep.congr fun c' => ?_
    rw [hstack, update_of_ne (hq c'), hp]
  | @swtchOut c p k child hp hview hok =>
    obtain ⟨hsaved, hback⟩ := hinv.saved c p hp
    have hself : (update s.cur c (s.context (.cpu c)) c).stack = .cpu c := by
      rw [update_self]
      exact hsaved.stack
    refine h.swtch (c := c) rfl rfl rfl rfl rfl (fun c' hc => ?_) (fun c' hc => ?_) ?_ ?_
    · simp [Machine.stack, hc]
    · exact update_of_ne (hp ▸ hinv.stack_ne hc) ..
    · rw [Machine.stack, hself, update_of_ne (by simp), hback]
      rfl
    · rw [Machine.stack, hself, update_of_ne (by simp), hback]
      rfl
  | @swtchIn c q k hc hview hok =>
    obtain ⟨hrun, hoff⟩ := hinv.entering c q true hc (by rw [hview])
    obtain ⟨hsaved, hres⟩ := hinv.off q hoff (Or.inr (Or.inr hrun))
    have hself : (update s.cur c (s.context (.proc q)) c).stack = .proc q := by
      rw [update_self]
      exact hsaved.stack
    refine h.swtch (c := c) rfl rfl rfl rfl rfl (fun c' hc => ?_) (fun c' hc' => ?_) ?_ ?_
    · simp [Machine.stack, hc]
    · exact update_of_ne (hc ▸ hinv.stack_ne hc') ..
    · rw [Machine.stack, hself, update_of_ne (by simp), hres]
      rfl
    · rw [Machine.stack, hself, update_of_ne (by simp), hres]
      rfl
  | @wakeupBegin c ch k hwake hlock hok =>
    have hstack : Machine.stack { s.goto c k with
        begun := update s.begun c s.clock } = s.stack := Machine.stack_of_cur rfl
    -- the call that begins has every process before it
    have hfresh : ∀ {p ch'}, Fresh s view p ch' →
        Fresh { s.goto c k with begun := update s.begun c s.clock }
          (update view (s.stack c)
            { view (s.stack c) with wake := some (ch, List.finRange n) }) p ch' := by
      intro p ch' hf
      refine ⟨hf.calls, fun c' qs hw hle => ?_⟩
      rw [hstack] at hw
      by_cases hc : c' = c
      · subst hc
        rw [update_self] at hw
        cases hw
        exact List.mem_finRange p
      · rw [update_of_ne (hinv.stack_ne hc)] at hw
        simp only [update_of_ne hc] at hle
        exact hf.visits c' qs hw hle
    refine ⟨fun c' => ?_, heldAt_lt h, fun x hx => (h.calls x hx).trans (Nat.lt_succ_self _),
      fun p hp => hfresh (h.sleeping p hp), fun c' p ch' b hp hpl => ?_⟩
    · show update s.begun c s.clock c' < s.clock + 1
      by_cases hc : c' = c
      · subst hc
        simp
      · rw [update_of_ne hc]
        exact (h.begun c').trans (Nat.lt_succ_self _)
    · rw [hstack] at hp
      exact hfresh (h.pledged c' p ch' b hp (hinv.pledge_of_update hp hpl rfl))
  | @wakeupEnd c ch k hwake hok =>
    have hstack : Machine.stack { s.goto c k with
        calls := ⟨ch, s.begun c, s.clock⟩ :: s.calls } = s.stack := Machine.stack_of_cur rfl
    -- the call that ends has visited every process
    have hfresh : ∀ {p ch'}, Fresh s view p ch' →
        Fresh { s.goto c k with calls := ⟨ch, s.begun c, s.clock⟩ :: s.calls }
          (update view (s.stack c) { view (s.stack c) with wake := none }) p ch' := by
      intro p ch' hf
      refine ⟨fun x hx hch => ?_, fun c' qs hw hle => ?_⟩
      · rcases List.mem_cons.mp hx with rfl | hx
        · subst hch
          by_contra hle
          exact absurd (hf.visits c [] hwake (not_lt.mp hle)) (by simp)
        · exact hf.calls x hx hch
      · rw [hstack] at hw
        by_cases hc : c' = c
        · subst hc
          rw [update_self] at hw
          cases hw
        · rw [update_of_ne (hinv.stack_ne hc)] at hw
          exact hf.visits c' qs hw hle
    refine ⟨fun c' => (h.begun c').trans (Nat.lt_succ_self _), heldAt_lt h, fun x hx => ?_,
      fun p hp => hfresh (h.sleeping p hp), fun c' p ch' b hp hpl => ?_⟩
    · rcases List.mem_cons.mp hx with rfl | hx
      · exact (h.begun c).trans (Nat.lt_succ_self _)
      · exact (h.calls x hx).trans (Nat.lt_succ_self _)
    · rw [hstack] at hp
      exact hfresh (h.pledged c' p ch' b hp (hinv.pledge_of_update hp hpl rfl))

/-! ### Runs -/

theorem wakeInv_boot (init : Fin n) : WakeInv (m := m) (.boot init) bootView := by
  refine ⟨fun _ => Nat.one_pos, fun _ _ => Nat.one_pos, fun x hx => (by cases hx), fun p hp => ?_,
    fun c p ch b hp => (by cases hp)⟩
  by_cases h : p = init
  · simp [Machine.boot, h] at hp
  · simp [Machine.boot, h, Proc.unused] at hp

theorem ARuns.wakeInv (h : ARuns init s view) : WakeInv s view := by
  induction h with
  | boot => exact wakeInv_boot init
  | step hruns hstep ih => exact hstep.wakeInv hruns.inv ih

/-- **No wakeup is lost**: in every state that is reached, every call of `wakeup` that has
returned began before each process that sleeps on its channel last held the condition lock.
This holds whether or not `p->lock` is free. -/
theorem no_lost_wakeup_of_runs (h : Runs init s) (p : Fin n)
    (hp : (s.data.proc p).state = .sleeping) :
    ∀ x ∈ s.calls, x.chan = (s.data.proc p).chan → x.start < s.heldAt p
      (s.data.proc p).chan.lock := by
  obtain ⟨view, hruns⟩ := h.annotate
  exact (hruns.wakeInv.sleeping p hp).calls

/-- The first process, on CPU `c`, calls `wakeup` and then goes to sleep on the same channel. -/
def sleepsAfterWakeup (c : Fin m) : List (Event m n) :=
  .replicate 8 (.exec c) ++ [.call c (.acquire 0), .exec c, .call c (.wakeup 0 0)] ++
    .replicate 7 (.exec c) ++ [.call c (.sleep 0 0)] ++ .replicate 9 (.exec c)

theorem no_lost_wakeup_sleepsAfterWakeup : ∃ s : Machine 1 2, Runs 0 s ∧
    ((s.data.proc 0).state = .sleeping ∧ s.data.lock (.proc 0) = none ∧
      ∃ x ∈ s.calls, x.chan = (s.data.proc 0).chan) ∧
    ∀ x ∈ s.calls, x.chan = (s.data.proc 0).chan → x.start < s.heldAt 0
      (s.data.proc 0).chan.lock := by
  obtain ⟨s, hs, hfacts⟩ := exists_runs_of_after 0 (sleepsAfterWakeup 0)
    (P := fun s : Machine 1 2 => (s.data.proc 0).state = .sleeping ∧ s.data.lock (.proc 0) = none ∧
      ∃ x ∈ s.calls, x.chan = (s.data.proc 0).chan) (by decide +kernel)
  exact ⟨s, hs, hfacts, no_lost_wakeup_of_runs hs 0 hfacts.1⟩

end Xv6Ext2.Smp
