import Mathlib.Data.Nat.Basic

/-!
# Programs over a state that may fail

A stateful program that can fail is a function from a state to either an error
or a result and the next state.  This file collects the rules by which such
programs are reasoned about, over an arbitrary state type `S` and error type `ε`.

Six judgments are used, each with a rule for sequencing.

## Main definitions

* `Prog S ε α` — programs, as the state-over-exception monad.
* `Sat m s Q` — **partial correctness**: if `m` returns from `s`, then `Q` holds
  of the result and the next state.
* `Keeps R m` — every returning run of `m` relates its two states by `R`; meant
  for preorders `R`, the frame conditions.
* `Le m n` — whatever `m` returns, `n` returns too; meant for programs that are given
  more and more rounds.
* `Avoids e m` — no run of `m` fails with `e`.
* `Yields E m s Q` — **total correctness up to errors**: `m` returns and `Q` holds, or it fails
  with one of the errors `E`; `Returns m s Q` is the case without errors.
* `Costs μ m s n Q` — **total correctness on a budget**: `m` uses up exactly `n`
  units of the resource `μ`, returning with `Q` when there are that many and
  failing when there are not.

## Main results

* `bind_eq_ok` — a sequence returns exactly when both halves do.
* `Sat.bind`, `Keeps.bind`, `Le.bind`, `Avoids.bind`, `Yields.bind`, `Costs.bind` — sequencing
  for the six judgments.
* `Yields.forM` — a loop over a list, with an invariant about the part that is done.
* `Keeps.forM` — a loop over a list keeps what its body keeps.
-/

/-- A program over states `S` that returns an `α` or fails with an `ε`. -/
abbrev Prog (S ε α : Type) := StateT S (Except ε) α

namespace Prog

variable {S ε α β : Type}

/-! ### Running the monad operations -/

/-- Running a sequence: run the first program, and the second from where the
first one stopped. -/
theorem bind_apply (m : Prog S ε α) (f : α → Prog S ε β) (s : S) :
    (m >>= f) s = match m s with
      | .ok (a, t) => f a t
      | .error e => .error e := by
  show StateT.bind m f s = _
  unfold StateT.bind
  rcases h : m s with e | ⟨a, t⟩ <;> rfl

@[simp] theorem pure_apply (a : α) (s : S) : (pure a : Prog S ε α) s = .ok (a, s) := rfl

@[simp] theorem get_apply (s : S) : (get : Prog S ε S) s = .ok (s, s) := rfl

@[simp] theorem modify_apply (f : S → S) (s : S) :
    (modify f : Prog S ε PUnit) s = .ok (⟨⟩, f s) := rfl

@[simp] theorem throw_apply (e : ε) (s : S) : (throw e : Prog S ε α) s = .error e := rfl

/-- A first program that returns hands its result to the second. -/
theorem bind_of_ok {m : Prog S ε α} {f : α → Prog S ε β} {s t : S} {a : α}
    (h : m s = .ok (a, t)) : (m >>= f) s = f a t := by
  rw [bind_apply, h]

/-- A first program that fails makes the sequence fail. -/
theorem bind_of_error {m : Prog S ε α} {f : α → Prog S ε β} {s : S} {e : ε}
    (h : m s = .error e) : (m >>= f) s = .error e := by
  rw [bind_apply, h]

/-- Two sequences that go on alike wherever their first program returns. -/
theorem bind_congr_of_ok {m : Prog S ε α} {f g : α → Prog S ε β} {s : S}
    (h : ∀ a t, m s = .ok (a, t) → f a t = g a t) : (m >>= f) s = (m >>= g) s := by
  rw [bind_apply, bind_apply]
  rcases hm : m s with e | ⟨a, t⟩
  · rfl
  · exact h a t hm

/-- **A sequence returns exactly when both halves do.** -/
theorem bind_eq_ok {m : Prog S ε α} {f : α → Prog S ε β} {s u : S} {b : β} :
    (m >>= f) s = .ok (b, u) ↔ ∃ a t, m s = .ok (a, t) ∧ f a t = .ok (b, u) := by
  rw [bind_apply]
  constructor
  · intro h
    rcases hm : m s with e | ⟨a, t⟩
    · rw [hm] at h; simp at h
    · rw [hm] at h
      exact ⟨a, t, rfl, h⟩
  · rintro ⟨a, t, hm, hf⟩
    rw [hm]
    exact hf

/-- A closed fact that is established by evaluation, kept as data so that it is evaluated
once, where it is stated. -/
structure Evaluated (p : Prop) : Type where
  holds : p

/-- A run of which only the result is known. -/
theorem exists_of_map_fst {m : Prog S ε α} {s : S} {a : α}
    (h : (m s).map Prod.fst = .ok a) : ∃ t, m s = .ok (a, t) := by
  rcases hm : m s with e | ⟨b, t⟩
  · rw [hm] at h
    cases h
  · rw [hm] at h
    cases h
    exact ⟨t, rfl⟩

theorem error_of_map_fst {m : Prog S ε α} {s : S} {e : ε}
    (h : (m s).map Prod.fst = .error e) : m s = .error e := by
  cases hm : m s with
  | error e' =>
    rw [hm] at h
    cases h
    rfl
  | ok r =>
    rw [hm] at h
    cases h

/-! ### Partial correctness -/

/-- If `m` returns from `s`, then `Q` holds of the result and the next state. -/
def Sat (m : Prog S ε α) (s : S) (Q : α → S → Prop) : Prop :=
  ∀ a t, m s = .ok (a, t) → Q a t

theorem Sat.mono {m : Prog S ε α} {s : S} {Q R : α → S → Prop} (h : Sat m s Q)
    (hQR : ∀ a t, Q a t → R a t) : Sat m s R :=
  fun a t hm => hQR a t (h a t hm)

theorem Sat.and {m : Prog S ε α} {s : S} {Q R : α → S → Prop} (hQ : Sat m s Q) (hR : Sat m s R) :
    Sat m s fun a t => Q a t ∧ R a t :=
  fun a t hm => ⟨hQ a t hm, hR a t hm⟩

/-- Running first a part whose outcome is known. -/
theorem Sat.of_eq {m w : Prog S ε α} {s u : S} {Q : α → S → Prop} (h : m s = w u)
    (hw : Sat w u Q) : Sat m s Q :=
  fun a t hm => hw a t (h.symm.trans hm)

theorem Sat.bind {m : Prog S ε α} {f : α → Prog S ε β} {s : S} {R : α → S → Prop}
    {Q : β → S → Prop} (hm : Sat m s R) (hf : ∀ a t, R a t → Sat (f a) t Q) :
    Sat (m >>= f) s Q := by
  intro b u h
  obtain ⟨a, t, h₁, h₂⟩ := bind_eq_ok.mp h
  exact hf a t (hm a t h₁) b u h₂

/-- A first program about which nothing is known. -/
theorem Sat.skip {m : Prog S ε α} {f : α → Prog S ε β} {s : S} {Q : β → S → Prop}
    (hf : ∀ a t, Sat (f a) t Q) : Sat (m >>= f) s Q :=
  Sat.bind (R := fun _ _ => True) (fun _ _ _ => trivial) fun a t _ => hf a t

theorem Sat.map {m : Prog S ε α} {f : α → β} {s : S} {Q : β → S → Prop}
    (h : Sat m s fun a t => Q (f a) t) : Sat (f <$> m) s Q := by
  rw [← bind_pure_comp]
  intro b u hrun
  obtain ⟨a, t, hm, hpure⟩ := bind_eq_ok.mp hrun
  cases hpure
  exact h a u hm

theorem Sat.pure {a : α} {s : S} {Q : α → S → Prop} (h : Q a s) :
    Sat (pure a : Prog S ε α) s Q := by
  intro b t hb
  rw [pure_apply] at hb
  cases hb
  exact h

theorem Sat.get {s : S} : Sat (get : Prog S ε S) s fun a t => s = a ∧ s = t := by
  intro a t h
  cases h
  exact ⟨rfl, rfl⟩

theorem Sat.throw {e : ε} {s : S} {Q : α → S → Prop} : Sat (throw e : Prog S ε α) s Q := by
  intro b t hb
  cases hb

theorem Sat.ite {c : Prop} [Decidable c] {m n : Prog S ε α} {s : S} {Q : α → S → Prop}
    (hm : c → Sat m s Q) (hn : ¬c → Sat n s Q) : Sat (if c then m else n) s Q := by
  split
  · exact hm ‹_›
  · exact hn ‹_›

/-- A loop over a list keeps an invariant that its body keeps. -/
theorem Sat.forM {I : S → Prop} {γ : Type} {f : γ → Prog S ε PUnit} :
    ∀ (l : List γ) (s : S), I s → (∀ x ∈ l, ∀ t, I t → Sat (f x) t fun _ u => I u) →
      Sat (forM l f) s fun _ t => I t := by
  intro l
  induction l with
  | nil => intro s hs _; exact Sat.pure hs
  | cons x l ih =>
    intro s hs h
    rw [List.forM_cons]
    refine (h x List.mem_cons_self s hs).bind fun _ t ht => ?_
    exact ih t ht fun y hy => h y (List.mem_cons_of_mem _ hy)

/-- A loop over a list establishes what each of its rounds establishes, if the other
rounds keep it. -/
theorem Sat.forM_each {I : S → Prop} {γ : Type} {P : γ → S → Prop} {f : γ → Prog S ε PUnit} :
    ∀ (l : List γ) (s : S), I s →
      (∀ x ∈ l, ∀ t, I t → Sat (f x) t fun _ u => I u ∧ P x u ∧ ∀ y, P y t → P y u) →
      Sat (ForM.forM l f) s fun _ t => I t ∧ (∀ x ∈ l, P x t) ∧ ∀ y, P y s → P y t := by
  intro l
  induction l with
  | nil =>
    intro s hs _
    exact Sat.pure ⟨hs, fun x hx => absurd hx List.not_mem_nil, fun y hy => hy⟩
  | cons x l ih =>
    intro s hs h
    rw [List.forM_cons]
    refine (h x List.mem_cons_self s hs).bind fun _ t ht => ?_
    refine (ih t ht.1 fun y hy => h y (List.mem_cons_of_mem _ hy)).mono fun _ u hu => ?_
    refine ⟨hu.1, fun y hy => ?_, fun y hy => hu.2.2 y (ht.2.2 y hy)⟩
    rcases List.mem_cons.mp hy with rfl | hy
    · exact hu.2.2 y ht.2.1
    · exact hu.2.1 y hy

/-! ### Frame conditions -/

/-- Every returning run of `m` relates the state it starts in to the state it
ends in by `R`. -/
def Keeps (R : S → S → Prop) (m : Prog S ε α) : Prop :=
  ∀ s, Sat m s fun _ t => R s t

section Preorder

variable {R : S → S → Prop}

theorem Keeps.pure [Std.Refl R] (a : α) : Keeps R (pure a : Prog S ε α) :=
  fun s => Sat.pure (Std.Refl.refl s)

theorem Keeps.get [Std.Refl R] : Keeps R (get : Prog S ε S) := by
  intro s a t h
  rw [get_apply] at h
  cases h
  exact Std.Refl.refl s

theorem Keeps.throw (e : ε) : Keeps R (throw e : Prog S ε α) := fun _ => Sat.throw

theorem Keeps.bind [IsTrans S R] {m : Prog S ε α} {f : α → Prog S ε β}
    (hm : Keeps R m) (hf : ∀ a, Keeps R (f a)) : Keeps R (m >>= f) := by
  intro s
  refine (hm s).bind fun a t hst => ?_
  exact (hf a t).mono fun b u htu => IsTrans.trans _ _ _ hst htu

theorem Keeps.ite {c : Prop} [Decidable c] {m n : Prog S ε α} (hm : Keeps R m)
    (hn : Keeps R n) : Keeps R (if c then m else n) := by
  split
  · exact hm
  · exact hn

/-- A loop over a list keeps what its body keeps. -/
theorem Keeps.forM [Std.Refl R] [IsTrans S R] {γ : Type} {f : γ → Prog S ε PUnit} :
    ∀ (l : List γ), (∀ x ∈ l, Keeps R (f x)) → Keeps R (forM l f) := by
  intro l
  induction l with
  | nil => intro _; exact Keeps.pure _
  | cons x l ih =>
    intro h
    rw [List.forM_cons]
    exact (h x List.mem_cons_self).bind fun _ =>
      ih fun y hy => h y (List.mem_cons_of_mem _ hy)

end Preorder

/-! ### Programs that return more often -/

/-- Whatever `m` returns, `n` returns too. -/
def Le (m n : Prog S ε α) : Prop := ∀ s a t, m s = .ok (a, t) → n s = .ok (a, t)

theorem Le.refl (m : Prog S ε α) : Le m m := fun _ _ _ h => h

theorem Le.bind {m n : Prog S ε α} {f g : α → Prog S ε β} (hm : Le m n) (hf : ∀ a, Le (f a) (g a)) :
    Le (m >>= f) (n >>= g) := by
  intro s b u h
  obtain ⟨a, t, h₁, h₂⟩ := bind_eq_ok.mp h
  rw [bind_of_ok (hm s a t h₁)]
  exact hf a t b u h₂

theorem Le.ite {c : Prop} [Decidable c] {m n m' n' : Prog S ε α} (hm : Le m m') (hn : Le n n') :
    Le (if c then m else n) (if c then m' else n') := by
  split
  · exact hm
  · exact hn

/-! ### Errors that do not occur -/

/-- No run of `m` fails with `e`. -/
def Avoids (e : ε) (m : Prog S ε α) : Prop := ∀ s, m s ≠ .error e

variable {e : ε}

theorem Avoids.pure (a : α) : Avoids e (pure a : Prog S ε α) := fun _ h => by cases h

theorem Avoids.throw {e' : ε} (h : e' ≠ e) : Avoids e (throw e' : Prog S ε α) := fun _ he =>
  h (Except.error.inj he)

theorem Avoids.bind {m : Prog S ε α} {f : α → Prog S ε β} (hm : Avoids e m)
    (hf : ∀ a, Avoids e (f a)) : Avoids e (m >>= f) := by
  intro s h
  rcases hrun : m s with e' | ⟨a, t⟩
  · rw [bind_of_error hrun] at h
    cases h
    exact hm s hrun
  · rw [bind_of_ok hrun] at h
    exact hf a t h

/-- What follows does not matter to an error that it avoids. -/
theorem bind_eq_error_iff {m : Prog S ε α} {f : α → Prog S ε β} (hf : ∀ a, Avoids e (f a)) {s : S} :
    (m >>= f) s = .error e ↔ m s = .error e := by
  rcases hrun : m s with e' | ⟨a, t⟩
  · rw [bind_of_error hrun]
    exact ⟨fun h => by cases h; rfl, fun h => by cases h; rfl⟩
  · rw [bind_of_ok hrun]
    exact ⟨fun h => absurd h (hf a t), fun h => by cases h⟩

theorem Avoids.ite {c : Prop} [Decidable c] {m n : Prog S ε α} (hm : c → Avoids e m)
    (hn : ¬c → Avoids e n) : Avoids e (if c then m else n) := by
  split
  · next h => exact hm h
  · next h => exact hn h

theorem Avoids.forM {f : α → Prog S ε PUnit} (hf : ∀ a, Avoids e (f a)) :
    ∀ l : List α, Avoids e (forM l f) := by
  intro l
  induction l with
  | nil => exact Avoids.pure _
  | cons a l ih =>
    rw [List.forM_cons]
    exact (hf a).bind fun _ => ih

/-! ### Running up to errors -/

/-- `m` returns from `s` and `Q` holds, or it fails with one of the errors `E`. -/
def Yields (E : ε → Prop) (m : Prog S ε α) (s : S) (Q : α → S → Prop) : Prop :=
  (∃ a t, m s = .ok (a, t) ∧ Q a t) ∨ ∃ e, m s = .error e ∧ E e

section Yields

variable {E : ε → Prop} {m : Prog S ε α} {s : S} {Q : α → S → Prop}

theorem Yields.of_ok {a : α} {t : S} (hm : m s = .ok (a, t)) (h : Q a t) : Yields E m s Q :=
  Or.inl ⟨a, t, hm, h⟩

/-- Running first a part that is known to return. -/
theorem Yields.of_eq {w : Prog S ε α} {u : S} (hm : m s = w u) (h : Yields E w u Q) :
    Yields E m s Q := by
  unfold Yields at *
  rwa [hm]

theorem Yields.mono {R : α → S → Prop} (h : Yields E m s Q) (hQR : ∀ a t, Q a t → R a t) :
    Yields E m s R := by
  rcases h with ⟨a, t, hm, hQ⟩ | h
  · exact Or.inl ⟨a, t, hm, hQR a t hQ⟩
  · exact Or.inr h

theorem Yields.errors {E' : ε → Prop} (h : Yields E m s Q) (hE : ∀ e, E e → E' e) :
    Yields E' m s Q :=
  h.imp_right fun ⟨e, hm, he⟩ => ⟨e, hm, hE e he⟩

theorem Yields.bind {f : α → Prog S ε β} {R : β → S → Prop} (hm : Yields E m s Q)
    (hf : ∀ a t, Q a t → Yields E (f a) t R) : Yields E (m >>= f) s R := by
  rcases hm with ⟨a, t, hm, hQ⟩ | ⟨e, hm, he⟩
  · exact (hf a t hQ).of_eq (bind_of_ok hm)
  · exact Or.inr ⟨e, bind_of_error hm, he⟩

/-- What is known of a run, and the run. -/
theorem Yields.run (h : Yields E m s Q) : Yields E m s fun a t => m s = .ok (a, t) ∧ Q a t := by
  rcases h with ⟨a, t, hm, hQ⟩ | h
  · exact Or.inl ⟨a, t, hm, hm, hQ⟩
  · exact Or.inr h

/-- A loop over a list, with an invariant about the part that is done. -/
theorem Yields.forM {γ : Type} {f : γ → Prog S ε PUnit} {I : List γ → S → Prop} {l : List γ}
    (hstart : I [] s) (hstep : ∀ pre x suf t, l = pre ++ x :: suf → I pre t →
      Yields E (f x) t fun _ u => I (pre ++ [x]) u) :
    Yields E (ForM.forM l f) s fun _ t => I l t := by
  have hloop : ∀ (suf pre : List γ) (s : S), l = pre ++ suf → I pre s →
      Yields E (ForM.forM suf f) s fun _ t => I l t := by
    intro suf
    induction suf with
    | nil =>
      intro pre s hl hI
      rw [List.append_nil] at hl
      exact Yields.of_ok rfl (hl ▸ hI)
    | cons x suf ih =>
      intro pre s hl hI
      rw [List.forM_cons]
      refine (hstep pre x suf s hl hI).bind fun _ t hI => ih (pre ++ [x]) t ?_ hI
      rw [hl, List.append_assoc]
      rfl
  exact hloop l [] s rfl hstart

end Yields

/-- **Total correctness**: `m` returns from `s`, and `Q` holds. -/
abbrev Returns (m : Prog S ε α) (s : S) (Q : α → S → Prop) : Prop := Yields (fun _ => False) m s Q

theorem Yields.sat {m : Prog S ε α} {s : S} {E : ε → Prop} {Q : α → S → Prop}
    (h : Yields E m s Q) : Sat m s Q := by
  intro a t hm
  rcases h with ⟨a', t', hm', hQ⟩ | ⟨e, he, -⟩
  · cases hm.symm.trans hm'
    exact hQ
  · cases hm.symm.trans he

theorem Sat.yields {m : Prog S ε α} {s : S} {Q : α → S → Prop} (h : Sat m s Q) :
    Yields (fun _ => True) m s Q := by
  cases hm : m s with
  | error e => exact Or.inr ⟨e, hm, trivial⟩
  | ok r => exact Or.inl ⟨r.1, r.2, hm, h r.1 r.2 hm⟩

theorem Returns.exists {m : Prog S ε α} {s : S} {Q : α → S → Prop} (h : Returns m s Q) :
    ∃ a t, m s = .ok (a, t) ∧ Q a t := by
  rcases h with h | ⟨e, -, he⟩
  · exact h
  · exact he.elim

/-! ### Running on a budget -/

/-- `m` uses up exactly `n` units of the resource `μ`: with that many units left
in `s` it returns and `Q` holds, with fewer it fails. -/
def Costs (μ : S → ℕ) (m : Prog S ε α) (s : S) (n : ℕ) (Q : α → S → Prop) : Prop :=
  (∃ a t, m s = .ok (a, t) ∧ μ t + n = μ s ∧ Q a t) ∨ (μ s < n ∧ ∃ e, m s = .error e)

/-- A program known to return without touching the resource costs nothing. -/
theorem Costs.of_ok {μ : S → ℕ} {m : Prog S ε α} {s t : S} {a : α} {Q : α → S → Prop}
    (hm : m s = .ok (a, t)) (hμ : μ t = μ s) (h : Q a t) : Costs μ m s 0 Q :=
  Or.inl ⟨a, t, hm, by rw [Nat.add_zero, hμ], h⟩

theorem Costs.mono {μ : S → ℕ} {m : Prog S ε α} {s : S} {n : ℕ} {Q R : α → S → Prop}
    (h : Costs μ m s n Q) (hQR : ∀ a t, m s = .ok (a, t) → Q a t → R a t) :
    Costs μ m s n R := by
  rcases h with ⟨a, t, hm, hμ, hQ⟩ | h
  · exact Or.inl ⟨a, t, hm, hμ, hQR a t hm hQ⟩
  · exact Or.inr h

/-- With enough of the resource a program on a budget returns. -/
theorem Costs.returns {μ : S → ℕ} {m : Prog S ε α} {s : S} {n : ℕ} {Q : α → S → Prop}
    (h : Costs μ m s n Q) (hn : n ≤ μ s) : ∃ a t, m s = .ok (a, t) ∧ Q a t := by
  rcases h with ⟨a, t, hm, -, hQ⟩ | ⟨hlt, -⟩
  · exact ⟨a, t, hm, hQ⟩
  · omega

/-- A program on a budget is partially correct. -/
theorem Costs.sat {μ : S → ℕ} {m : Prog S ε α} {s : S} {n : ℕ} {Q : α → S → Prop}
    (h : Costs μ m s n Q) : Sat m s fun a t => n ≤ μ s ∧ μ t + n = μ s ∧ Q a t := by
  intro b u hb
  rcases h with ⟨a, t, hm, hμ, hQ⟩ | ⟨-, e, he⟩
  · rw [hm] at hb
    cases hb
    exact ⟨by omega, hμ, hQ⟩
  · rw [he] at hb
    cases hb

end Prog
