import Xv6Ext2.Lib.ParentLinks
import Xv6Ext2.Proc.Sched

/-!
# The process tree

Processes come and go, their slots are used again, and children are handed to `init` while
others fork and exit.  What `fork`, `exit` and `wait` do to the parents of processes keeps them
a tree with root `init`, at every step and not only while `wait_lock` is free.

## Main definitions

* `Tree` — the invariant of the process tree.

## Main results

* `Tree.legal` — every transition keeps it.
* `tree_of_runs` — **the process tree** in every state that is reached.
-/

namespace Xv6Ext2.Smp

open ParentLinks

variable {m n : ℕ} {init : Fin n}

/-- `p->parent` for every process. -/
def parentOf (proc : Fin n → Proc n) (p : Fin n) : Option (Fin n) := (proc p).parent

/-- The process tree. -/
structure Tree (init : Fin n) (proc : Fin n → Proc n) : Prop where
  root : (proc init).parent = none
  rootAlive : (proc init).state.Alive
  parent : ∀ p, p ≠ init → (proc p).state.Alive ∨ (proc p).state = .zombie →
    ∃ q, (proc p).parent = some q
  alive : ∀ p q, (proc p).parent = some q → (proc q).state.Alive
  acyclic : Acyclic (parentOf proc)

variable {σ : Slot m n} {c : Fin m} {d d' : Data m n} {v v' : View n}

/-- What becomes of a process that was alive. -/
theorem Legal.alive (h : Legal init σ c d v d' v') (hk : v.Knows σ c d) {q : Fin n}
    (hq : (d.proc q).state.Alive) : (d'.proc q).state.Alive ∨
      (d'.proc q).state = .zombie ∧ σ = .proc q ∧ q ≠ init ∧ ∀ x, x ∈ v.orphaned := by
  rcases h.moves hk q with hsame | ⟨-, hmoves⟩
  · rw [hsame]
    exact Or.inl hq
  · generalize (d.proc q).state = st at hmoves hq
    generalize (d'.proc q).state = st' at hmoves ⊢
    cases hmoves with
    | wake => exact Or.inl (Or.inr (Or.inl rfl))
    | alloc => simp [State.Alive] at hq
    | unalloc _ => simp [State.Alive] at hq
    | reap => simp [State.Alive] at hq
    | publish _ => exact Or.inl (Or.inr (Or.inl rfl))
    | leave hσ _ hst =>
      rcases hst with rfl | rfl | ⟨rfl, hinit, horph⟩
      · exact Or.inl (Or.inl rfl)
      · exact Or.inl (Or.inr (Or.inl rfl))
      · exact Or.inr ⟨rfl, hσ, hinit, horph⟩
    | run => exact Or.inl (Or.inr (Or.inr rfl))

namespace Tree

theorem not_used (ht : Tree init d.proc) {p q : Fin n} (hq : (d.proc q).state = .used) :
    (d.proc p).parent ≠ some q := by
  intro hp
  have := ht.alive p q hp
  rw [hq] at this
  simp [State.Alive] at this

/-- **Every transition keeps the tree.** -/
theorem legal (ht : Tree init d.proc) (h : Legal init σ c d v d' v') (hk : v.Knows σ c d) :
    Tree init d'.proc := by
  have hthread : ∀ {x : Child n}, v.child = some x → ∃ p, σ = .proc p := by
    intro x hx
    cases σ with
    | proc p => exact ⟨p, rfl⟩
    | cpu c₀ => exact absurd (hx.symm.trans (hk.wf.scheduler c₀ rfl).2.2.1) (by simp)
  have hinit : (d'.proc init).state.Alive := by
    rcases h.alive hk ht.rootAlive with halive | ⟨-, -, hne, -⟩
    · exact halive
    · exact absurd rfl hne
  refine ⟨?_, hinit, fun p hp hst => ?_, fun p q hpq => ?_, ?_⟩
  · rcases h.rewires init with hsame | hrew
    · rw [hsame]
      exact ht.root
    · generalize (d'.proc init).parent = y at hrew ⊢
      cases hrew with
      | freed _ _ => rfl
      | reaped _ _ _ _ _ => rfl
      | adopted hp _ _ _ hchild _ =>
        have halive := ht.rootAlive
        rw [(hk.child _ _ hchild hp).1] at halive
        simp [State.Alive] at halive
      | handed hp _ _ _ hkid _ =>
        have := hk.kid _ _ hp hkid
        rw [ht.root] at this
        cases this
  · rcases h.rewires p with hsame | hrew
    · rw [hsame]
      rcases h.moves hk p with hstate | ⟨-, hmoves⟩
      · exact ht.parent p hp (hstate ▸ hst)
      · generalize hold : (d.proc p).state = st at hmoves
        generalize (d'.proc p).state = st' at hmoves hst
        cases hmoves with
        | wake => exact ht.parent p hp (Or.inl (Or.inl hold))
        | alloc => simp [State.Alive] at hst
        | unalloc _ => simp [State.Alive] at hst
        | reap => simp [State.Alive] at hst
        | publish hchild =>
          obtain ⟨p', hp'⟩ := hthread hchild
          exact ⟨p', (hk.child _ p' hchild hp').2⟩
        | leave _ _ _ => exact ht.parent p hp (Or.inl (Or.inr (Or.inr hold)))
        | run => exact ht.parent p hp (Or.inl (Or.inr (Or.inl hold)))
    · generalize (d'.proc p).parent = y at hrew ⊢
      cases hrew with
      | freed _ hunused => simp [State.Alive, hunused] at hst
      | reaped _ _ _ _ hunused => simp [State.Alive, hunused] at hst
      | adopted _ _ _ _ _ _ => exact ⟨_, rfl⟩
      | handed _ _ _ _ _ _ => exact ⟨_, rfl⟩
  · rcases h.rewires p with hsame | hrew
    · rw [hsame] at hpq
      rcases h.alive hk (ht.alive p q hpq) with halive | ⟨-, hq, -, horph⟩
      · exact halive
      · exact (hk.orphaned q hq p (horph p) hpq).elim
    · rw [hpq] at hrew
      cases hrew with
      | adopted hp hmode _ _ _ _ =>
        -- the parent is in `fork`, and runs
        have hrun := hk.running q hp (by rw [hmode]; simp)
        rcases h.moves hk q with hsame | ⟨hholds, -⟩
        · rw [hsame, hrun]
          exact Or.inr (Or.inr rfl)
        · have := hholds.1
          rw [hmode] at this
          cases this
      | handed _ _ _ _ _ _ => exact hinit
  · rcases h.parents with hsame | ⟨q, y, hrew, hset⟩
    · exact ht.acyclic.mono fun a b hab => (hsame a).symm.trans hab
    · have hrel : ∀ {b}, y = some b → Relinks (parentOf d.proc) (parentOf d'.proc) q b := by
        rintro b rfl x z hxz
        have hx : (d'.proc x).parent = some z := hxz
        rw [hset x] at hx
        split at hx
        · next hxq => exact Or.inr ⟨hxq, (Option.some.inj hx).symm⟩
        · next hxq => exact Or.inl ⟨hxq, hx⟩
      have hnone : y = none → Acyclic (parentOf d'.proc) := by
        rintro rfl
        refine ht.acyclic.mono fun a b hab => ?_
        have ha : (d'.proc a).parent = some b := hab
        rw [hset a] at ha
        split at ha
        · cases ha
        · exact ha
      cases hrew with
      | freed _ _ => exact hnone rfl
      | reaped _ _ _ _ _ => exact hnone rfl
      | @adopted p _ hp hmode _ _ hchild _ =>
        -- a process that is being created has no children
        have hused := (hk.child _ p hchild hp).1
        have hrun := hk.running p hp (by rw [hmode]; simp)
        refine ht.acyclic.link (hrel rfl) (not_descends_of_childless (fun x =>
          ht.not_used hused) ?_)
        rintro rfl
        rw [hused] at hrun
        cases hrun
      | @handed p hp _ _ _ hkid _ =>
        refine ht.acyclic.link (hrel rfl) (not_descends_of_root ht.root ?_)
        rintro rfl
        have := hk.kid _ _ hp hkid
        rw [ht.root] at this
        cases this

theorem boot (init : Fin n) : Tree init (Machine.boot init : Machine m n).data.proc := by
  have hparent : ∀ p, ((Machine.boot init : Machine m n).data.proc p).parent = none := by
    intro p
    by_cases hp : p = init
    · simp [Machine.boot, hp, Proc.unused]
    · simp [Machine.boot, hp, Proc.unused]
  refine ⟨hparent init, ?_, fun p hp hst => ?_, fun p q hpq => ?_, acyclic_of_none hparent⟩
  · simp [Machine.boot, State.Alive]
  · simp [Machine.boot, hp, Proc.unused, State.Alive] at hst
  · rw [hparent] at hpq
    cases hpq

end Tree

/-- The tree in every state that is reached. -/
theorem ARuns.tree {s : Machine m n} {view : Slot m n → View n} (h : ARuns init s view) :
    Tree init s.data.proc := by
  induction h with
  | boot => exact Tree.boot init
  | step h hstep ih =>
    cases hstep with
    | assign hlegal _ => exact ih.legal hlegal (h.inv.knows _)
    | _ => exact ih

/-- **The process tree.**  In every state that is reached, every process other than `init`
that is not UNUSED or USED has a parent that is neither UNUSED nor ZOMBIE; no process is its own
ancestor; and UNUSED slots have no parent and are nobody's parent.  This holds whether or not
`wait_lock` is free. -/
theorem tree_of_runs {s : Machine m n} (h : Runs init s) :
    (∀ p, p ≠ init → (s.data.proc p).state ≠ .unused → (s.data.proc p).state ≠ .used →
      ∃ q, (s.data.proc p).parent = some q ∧ (s.data.proc q).state ≠ .unused ∧
        (s.data.proc q).state ≠ .zombie) ∧
      Acyclic (parentOf s.data.proc) ∧
      ∀ p, (s.data.proc p).state = .unused →
        (s.data.proc p).parent = none ∧ ∀ q, (s.data.proc q).parent ≠ some p := by
  obtain ⟨view, hruns⟩ := h.annotate
  have ht := hruns.tree
  refine ⟨fun p hp hunused hused => ?_, ht.acyclic,
    fun p hp => ⟨hruns.inv.unused p hp, fun q hq => ?_⟩⟩
  · have hst : (s.data.proc p).state.Alive ∨ (s.data.proc p).state = .zombie := by
      unfold State.Alive
      cases hs : (s.data.proc p).state <;> simp_all
    obtain ⟨q, hq⟩ := ht.parent p hp hst
    have halive := ht.alive p q hq
    refine ⟨q, hq, ?_, ?_⟩
    · intro hu
      rw [hu] at halive
      simp [State.Alive] at halive
    · intro hz
      rw [hz] at halive
      simp [State.Alive] at halive
  · have halive := ht.alive q p hq
    rw [hp] at halive
    simp [State.Alive] at halive

/-- The first process, on CPU `c`, forks. -/
def forksOnce (c : Fin m) : List (Event m n) :=
  .replicate 8 (.exec c) ++ [.call c (.fork ⟨true, true, true, [0]⟩)] ++ .replicate 21 (.exec c)

theorem tree_forksOnce : ∃ s : Machine 1 3, Runs 0 s ∧
    ((s.data.proc 1).state = .runnable ∧ (s.data.proc 2).state = .unused ∧
      s.data.lock (.spin .wait) = none) ∧
    (∀ p, p ≠ 0 → (s.data.proc p).state ≠ .unused → (s.data.proc p).state ≠ .used →
      ∃ q, (s.data.proc p).parent = some q ∧ (s.data.proc q).state ≠ .unused ∧
        (s.data.proc q).state ≠ .zombie) ∧
      Acyclic (parentOf s.data.proc) ∧
      ∀ p, (s.data.proc p).state = .unused →
        (s.data.proc p).parent = none ∧ ∀ q, (s.data.proc q).parent ≠ some p := by
  obtain ⟨s, hs, hfacts⟩ := exists_runs_of_after 0 (forksOnce 0)
    (P := fun s : Machine 1 3 => (s.data.proc 1).state = .runnable ∧
      (s.data.proc 2).state = .unused ∧
      s.data.lock (.spin .wait) = none) (by decide +kernel)
  exact ⟨s, hs, hfacts, tree_of_runs hs⟩

end Xv6Ext2.Smp
