import Mathlib.Algebra.BigOperators.Ring.Finset
import Mathlib.Tactic.Ring
import Xv6Ext2.Lib.StateExcept

/-!
# Reference counts

Entries of a table carry a count, and other tables hold pointers to the entries.  The
count is right when it is the number of pointers.  This file has the two things that
an argument about such counts needs: how the number of pointers changes when one of
them does, and a judgment for programs that add a known amount to a quantity, so that
the changes along a program sum up.

## Main definitions

* `point o a` — 1 if the pointer `o` points to `a`, and 0 otherwise.
* `pointers g a` — the number of pointers to `a` in the table `g`.
* `Prog.Adds obs m s d` — if `m` returns `a` from `s`, it has added `d a` to the
  quantity `obs`.

## Main results

* `pointers_update` — replacing one pointer.
* `pointers_eq_card`, `pointers_eq_zero` — `pointers` counts.
* `eq_add_smul_point` — a quantity that changes at one entry.
* `Prog.Adds.bind`, `Prog.Adds.skip` — amounts add up along a sequence.
-/

namespace RefCount

variable {ι α : Type} [DecidableEq α]

/-- Does the pointer `o` point to `a`? -/
def point (o : Option α) (a : α) : ℤ := if o = some a then 1 else 0

@[simp] theorem point_none : point (none : Option α) = 0 := by
  funext a
  simp [point]

theorem point_some_self (a : α) : point (some a) a = 1 := if_pos rfl

/-- Two quantities that differ at one place. -/
theorem eq_add_smul_point {g h : α → ℤ} {a : α} {n : ℤ} (hother : ∀ b, b ≠ a → h b = g b)
    (hself : h a = g a + n) : h = g + n • point (some a) := by
  funext b
  show h b = g b + n * point (some a) b
  by_cases hb : b = a
  · rw [hb, point_some_self, mul_one, hself]
  · rw [hother b hb, point, if_neg fun h => hb (Option.some.inj h).symm, mul_zero, add_zero]

theorem point_eq_zero {o : Option α} : point o = 0 ↔ o = none := by
  constructor
  · intro h
    cases o with
    | none => rfl
    | some a => exact absurd ((point_some_self a).symm.trans (congrFun h a)) one_ne_zero
  · rintro rfl
    exact point_none

theorem point_inj {o o' : Option α} : point o = point o' ↔ o = o' := by
  refine ⟨fun h => ?_, congrArg point⟩
  cases o with
  | none => rw [point_none] at h; exact (point_eq_zero.mp h.symm).symm
  | some a =>
    by_contra hne
    have hself := congrFun h a
    rw [point_some_self, point, if_neg (Ne.symm hne)] at hself
    cases hself

/-- The number of pointers to `a` in a table. -/
def pointers [Fintype ι] (g : ι → Option α) (a : α) : ℤ := ∑ i, point (g i) a

variable [Fintype ι]

theorem pointers_eq_card (g : ι → Option α) (a : α) :
    pointers g a = (Finset.univ.filter fun i => g i = some a).card := by
  unfold pointers point
  rw [Finset.sum_boole]

theorem pointers_nonneg (g : ι → Option α) : 0 ≤ pointers g := by
  intro a
  rw [pointers_eq_card]
  exact Int.natCast_nonneg _

theorem pointers_eq_zero {g : ι → Option α} {a : α} :
    pointers g a = 0 ↔ ∀ i, g i ≠ some a := by
  rw [pointers_eq_card, Int.natCast_eq_zero, Finset.card_eq_zero, Finset.filter_eq_empty_iff]
  exact ⟨fun h i => h (Finset.mem_univ i), fun h i _ => h i⟩

theorem pointers_pos {g : ι → Option α} {a : α} {i : ι} (h : g i = some a) :
    0 < pointers g a := by
  exact lt_of_le_of_ne (pointers_nonneg g a) fun h0 => pointers_eq_zero.mp h0.symm i h

theorem one_lt_pointers {g : ι → Option α} {a : α} {i j : ι} (hij : i ≠ j) (hi : g i = some a)
    (hj : g j = some a) : 1 < pointers g a := by
  rw [pointers_eq_card]
  have hlt : 1 < (Finset.univ.filter fun i => g i = some a).card :=
    Finset.one_lt_card.mpr ⟨i, Finset.mem_filter.mpr ⟨Finset.mem_univ i, hi⟩, j,
      Finset.mem_filter.mpr ⟨Finset.mem_univ j, hj⟩, hij⟩
  exact Int.ofNat_lt.mpr hlt

/-- Replacing one pointer of a table. -/
theorem pointers_update [DecidableEq ι] (g : ι → Option α) (i : ι) (o : Option α) :
    pointers (Function.update g i o) = pointers g - point (g i) + point o := by
  funext a
  have hsum : ∀ h : ι → Option α, pointers h a =
      point (h i) a + ∑ j ∈ Finset.univ.erase i, point (h j) a := fun h =>
    (Finset.add_sum_erase _ _ (Finset.mem_univ i)).symm
  have hrest : ∑ j ∈ Finset.univ.erase i, point (Function.update g i o j) a =
      ∑ j ∈ Finset.univ.erase i, point (g j) a := by
    refine Finset.sum_congr rfl fun j hj => ?_
    rw [Function.update_of_ne (Finset.ne_of_mem_erase hj)]
  rw [hsum, hrest, Function.update_self]
  show _ = pointers g a - point (g i) a + point o a
  rw [hsum g]
  ring

end RefCount

namespace Prog

variable {S ε α β G : Type} [AddCommGroup G] {obs : S → G}

/-- If `m` returns `a` from `s`, it has added `d a` to the quantity `obs`. -/
def Adds (obs : S → G) (m : Prog S ε α) (s : S) (d : α → G) : Prop :=
  Sat m s fun a t => obs t = obs s + d a

theorem Adds.pure {a : α} {s : S} {d : α → G} (h : d a = 0) :
    Adds obs (pure a : Prog S ε α) s d :=
  Sat.pure (by rw [h, add_zero])

theorem Adds.throw {e : ε} {s : S} {d : α → G} : Adds obs (throw e : Prog S ε α) s d :=
  Sat.throw

theorem Adds.ite {c : Prop} [Decidable c] {m n : Prog S ε α} {s : S} {d : α → G}
    (hm : c → Adds obs m s d) (hn : ¬c → Adds obs n s d) : Adds obs (if c then m else n) s d :=
  Sat.ite hm hn

/-- The last program of a sequence, up to the form of the amount. -/
theorem Adds.last {m : Prog S ε α} {s : S} {d d' : α → G} (h : Adds obs m s d)
    (hd : ∀ a, d a = d' a) : Adds obs m s d' :=
  Sat.mono h fun a _ ht => by rw [ht, hd a]

/-- **Amounts add up**: what the first program has added, the rest need not add. -/
theorem Adds.bind {m : Prog S ε α} {f : α → Prog S ε β} {s : S} {d : α → G} {D : β → G}
    (hm : Adds obs m s d)
    (hf : ∀ a t, m s = .ok (a, t) → Adds obs (f a) t fun b => D b - d a) :
    Adds obs (m >>= f) s D := by
  intro b u h
  obtain ⟨a, t, h₁, h₂⟩ := bind_eq_ok.mp h
  rw [hf a t h₁ b u h₂, hm a t h₁, add_add_sub_cancel]

/-- A first program that adds nothing. -/
theorem Adds.skip {m : Prog S ε α} {f : α → Prog S ε β} {s : S} {D : β → G}
    (hm : Adds obs m s fun _ => 0) (hf : ∀ a t, m s = .ok (a, t) → Adds obs (f a) t D) :
    Adds obs (m >>= f) s D := by
  refine hm.bind fun a t h => (hf a t h).last fun b => ?_
  rw [sub_zero]

end Prog
