import Mathlib.Data.Finset.Card
import Xv6Ext2.Lib.StateExcept

/-!
# Programs that create what is missing

Some programs ask for a set of items and create those that are not there yet, one
unit of a resource for each.  What such a program uses up is therefore the number
of items it asks for that are missing where it starts, and this number adds up
along a sequence: an item created by the first half is not missing for the second.

## Main definitions

* `missing there s T` — how many items of `T` are not there in `s`.
* `Fills μ there m s T Q` — `m` creates the missing items of `T`, uses up one unit
  of `μ` for each, and `Q` holds when it returns.

## Main results

* `Fills.bind` — asking for `T` and then for `T'` is asking for `T ∪ T'`.
-/

namespace Prog

variable {S ε α β K : Type} [DecidableEq K]

/-- How many items of `T` are not there. -/
def missing (there : S → K → Bool) (s : S) (T : Finset K) : ℕ :=
  (T.filter fun κ => there s κ = false).card

/-- `m` creates the missing items of `T` and no others, each for one unit of `μ`. -/
def Fills (μ : S → ℕ) (there : S → K → Bool) (m : Prog S ε α) (s : S) (T : Finset K)
    (Q : α → S → Prop) : Prop :=
  Costs μ m s (missing there s T) fun a t =>
    (∀ κ, there t κ = (there s κ || decide (κ ∈ T))) ∧ Q a t

variable {μ : S → ℕ} {there : S → K → Bool}

/-- After `T` has been filled, what is missing of `T'` is what was missing of it
outside of `T`. -/
theorem missing_add {s t : S} {T : Finset K} (T' : Finset K)
    (h : ∀ κ, there t κ = (there s κ || decide (κ ∈ T))) :
    missing there s T + missing there t T' = missing there s (T ∪ T') := by
  have hdisj : Disjoint (T.filter fun κ => there s κ = false)
      (T'.filter fun κ => there t κ = false) := by
    rw [Finset.disjoint_left]
    intro κ hκ hκ'
    rw [Finset.mem_filter] at hκ hκ'
    rw [h κ] at hκ'
    simp [hκ.1] at hκ'
  unfold missing
  rw [← Finset.card_union_of_disjoint hdisj]
  congr 1
  ext κ
  simp only [Finset.mem_union, Finset.mem_filter, h κ, Bool.or_eq_false_iff,
    decide_eq_false_iff_not]
  by_cases hκ : κ ∈ T
  · simp [hκ]
  · simp [hκ]

theorem Fills.mono {m : Prog S ε α} {s : S} {T : Finset K} {Q R : α → S → Prop}
    (h : Fills μ there m s T Q) (hQR : ∀ a t, Q a t → R a t) : Fills μ there m s T R :=
  Costs.mono h fun a t _ hQ => ⟨hQ.1, hQR a t hQ.2⟩

/-- Running first a part that does not touch the items. -/
theorem Fills.of_eq {m w : Prog S ε α} {s u : S} {T : Finset K} {Q : α → S → Prop}
    (hm : m s = w u) (hμ : μ u = μ s) (hthere : there u = there s)
    (h : Fills μ there w u T Q) : Fills μ there m s T Q := by
  unfold Fills Costs missing at *
  rw [hthere, hμ] at h
  rw [hm]
  exact h

/-- A program that returns without touching the items asks for none. -/
theorem Fills.of_ok {m : Prog S ε α} {s t : S} {a : α} {Q : α → S → Prop}
    (hm : m s = .ok (a, t)) (hμ : μ t = μ s) (hthere : ∀ κ, there t κ = there s κ)
    (h : Q a t) : Fills μ there m s ∅ Q :=
  Costs.of_ok hm hμ ⟨fun κ => by simp [hthere κ], h⟩

/-- **Asking for `T` and then for `T'` is asking for `T ∪ T'`.** -/
theorem Fills.bind {m : Prog S ε α} {f : α → Prog S ε β} {s : S} {T T' : Finset K}
    {R : α → S → Prop} {Q : β → S → Prop} (hm : Fills μ there m s T R)
    (hf : ∀ a t, (∀ κ, there t κ = (there s κ || decide (κ ∈ T))) → R a t →
      Fills μ there (f a) t T' Q) :
    Fills μ there (m >>= f) s (T ∪ T') Q := by
  unfold Fills Costs
  rcases hm with ⟨a, t, hm, hμ, hT, hR⟩ | ⟨hlt, e, he⟩
  · have hadd := missing_add T' hT
    rcases hf a t hT hR with ⟨b, u, hf, hμ', hT', hQ⟩ | ⟨hlt, e, he⟩
    · refine Or.inl ⟨b, u, (bind_of_ok hm).trans hf, by omega, fun κ => ?_, hQ⟩
      rw [hT' κ, hT κ, Bool.or_assoc]
      simp [Finset.mem_union]
    · exact Or.inr ⟨by omega, e, (bind_of_ok hm).trans he⟩
  · have hle : missing there s T ≤ missing there s (T ∪ T') :=
      Finset.card_le_card (Finset.filter_subset_filter _ Finset.subset_union_left)
    exact Or.inr ⟨by omega, e, bind_of_error he⟩

/-- A program followed by a function of its result. -/
theorem Fills.map {m : Prog S ε α} {f : α → β} {s : S} {T : Finset K} {R : α → S → Prop}
    {Q : β → S → Prop} (hm : Fills μ there m s T R)
    (hf : ∀ a t, (∀ κ, there t κ = (there s κ || decide (κ ∈ T))) → R a t → Q (f a) t) :
    Fills μ there (m >>= fun a => Pure.pure (f a)) s T Q := by
  rw [← Finset.union_empty T]
  refine Fills.bind hm fun a t hT hR => ?_
  exact Fills.of_ok rfl rfl (fun _ => rfl) (hf a t hT hR)

/-- With enough for `T'` a program that asks for part of it returns, and there is still enough
for `T'`. -/
theorem Fills.returns_of_subset {m : Prog S ε α} {s : S} {T T' : Finset K} {Q : α → S → Prop}
    (h : Fills μ there m s T Q) (hsub : T ⊆ T') (henough : missing there s T' ≤ μ s) :
    ∃ a t, m s = .ok (a, t) ∧ missing there t T' ≤ μ t ∧ Q a t := by
  have hle : missing there s T ≤ missing there s T' :=
    Finset.card_le_card (Finset.filter_subset_filter _ hsub)
  rcases h with ⟨a, t, hm, hμ, hT, hQ⟩ | ⟨hlt, -⟩
  · have hadd := missing_add T' hT
    rw [Finset.union_eq_right.mpr hsub] at hadd
    exact ⟨a, t, hm, by omega, hQ⟩
  · omega

end Prog
