import Mathlib.Data.List.Basic

/-!
# Sequences of writes

A store is a function from addresses to values, and a sequence of writes is applied to it
from left to right.  Cutting a sequence short is what a crash does.

## Main definitions

* `Writes.apply ws d` — the store `d` after the writes `ws`.
* `Writes.Cut ws d` — the stores that `d` becomes when the writes `ws` are cut off.

## Main results

* `apply_append` — one sequence after another.
* `apply_of_notMem` — what is not written keeps its value.
* `apply_of_forall` — what is written has the value of its writes, if they agree.
* `Cut.append` — one sequence after another is cut off in the first or in the second.
-/

namespace Writes

open Function

variable {A V : Type} [DecidableEq A]

/-- The store after the writes. -/
def apply : List (A × V) → (A → V) → A → V
  | [], d => d
  | w :: ws, d => apply ws (update d w.1 w.2)

@[simp] theorem apply_nil (d : A → V) : apply [] d = d := rfl

@[simp] theorem apply_cons (w : A × V) (ws : List (A × V)) (d : A → V) :
    apply (w :: ws) d = apply ws (update d w.1 w.2) := rfl

theorem apply_append (ws vs : List (A × V)) (d : A → V) :
    apply (ws ++ vs) d = apply vs (apply ws d) := by
  induction ws generalizing d with
  | nil => rfl
  | cons w ws ih => exact ih _

/-- **What is not written keeps its value.** -/
theorem apply_of_notMem {ws : List (A × V)} {a : A} (h : ∀ w ∈ ws, w.1 ≠ a) (d : A → V) :
    apply ws d a = d a := by
  induction ws generalizing d with
  | nil => rfl
  | cons w ws ih =>
    rw [apply_cons, ih fun w' hw' => h w' (List.mem_cons_of_mem w hw')]
    exact update_of_ne (h w List.mem_cons_self).symm ..

/-- Writes that all agree with `f` lead to a value of `f` where `d` has one already, and
where there is a write. -/
theorem apply_of_forall {ws : List (A × V)} {f : A → V} (h : ∀ w ∈ ws, w.2 = f w.1) {a : A}
    {d : A → V} (ha : (∃ w ∈ ws, w.1 = a) ∨ d a = f a) : apply ws d a = f a := by
  induction ws generalizing d with
  | nil =>
    rcases ha with ⟨w, hw, -⟩ | ha
    · cases hw
    · exact ha
  | cons w ws ih =>
    rw [apply_cons]
    apply ih fun w' hw' => h w' (List.mem_cons_of_mem w hw')
    by_cases hwa : w.1 = a
    · right
      rw [← hwa, update_self]
      exact h w List.mem_cons_self
    · rcases ha with ⟨w', hw', hwa'⟩ | ha
      · rcases List.mem_cons.mp hw' with rfl | hw'
        · exact absurd hwa' hwa
        · exact Or.inl ⟨w', hw', hwa'⟩
      · right
        rw [update_of_ne (Ne.symm hwa)]
        exact ha

/-- Stores that agree at an address, or that are written there, agree there after the writes. -/
theorem apply_congr {ws : List (A × V)} {d d' : A → V} {a : A}
    (h : (∃ w ∈ ws, w.1 = a) ∨ d a = d' a) : apply ws d a = apply ws d' a := by
  induction ws generalizing d d' with
  | nil =>
    rcases h with ⟨w, hw, -⟩ | ha
    · cases hw
    · exact ha
  | cons w ws ih =>
    rw [apply_cons, apply_cons]
    apply ih
    by_cases hwa : a = w.1
    · right
      rw [hwa, update_self, update_self]
    · rw [update_of_ne hwa, update_of_ne hwa]
      rcases h with ⟨w', hw', rfl⟩ | ha
      · rcases List.mem_cons.mp hw' with rfl | hw'
        · exact absurd rfl hwa
        · exact Or.inl ⟨w', hw', rfl⟩
      · exact Or.inr ha

/-- The stores that the writes `ws` lead to when they are cut off. -/
def Cut (ws : List (A × V)) (d d' : A → V) : Prop := ∃ k, d' = apply (ws.take k) d

namespace Cut

variable {ws vs : List (A × V)} {d d' : A → V}

/-- All the writes are made. -/
theorem all (ws : List (A × V)) (d : A → V) : Cut ws d (apply ws d) :=
  ⟨ws.length, by rw [List.take_length]⟩

/-- Two sequences are cut off in the first or in the second. -/
theorem append (h : Cut (ws ++ vs) d d') : Cut ws d d' ∨ Cut vs (apply ws d) d' := by
  obtain ⟨k, rfl⟩ := h
  rw [List.take_append, apply_append]
  by_cases hk : k ≤ ws.length
  · left
    refine ⟨k, ?_⟩
    rw [Nat.sub_eq_zero_of_le hk, List.take_zero]
    rfl
  · right
    have hws : ws.take k = ws := List.take_of_length_le (by omega)
    exact ⟨k - ws.length, by rw [hws]⟩

theorem singleton {a : A} {x : V} (h : Cut [(a, x)] d d') :
    d' = d ∨ d' = update d a x := by
  obtain ⟨k, rfl⟩ := h
  cases k with
  | zero => exact Or.inl rfl
  | succ k => exact Or.inr (by rw [List.take_succ_cons, List.take_nil]; rfl)

/-- What is not written keeps its value. -/
theorem of_notMem {a : A} (h : Cut ws d d') (ha : ∀ w ∈ ws, w.1 ≠ a) : d' a = d a := by
  obtain ⟨k, rfl⟩ := h
  exact apply_of_notMem (fun w hw => ha w (List.mem_of_mem_take hw)) d

end Cut

end Writes
