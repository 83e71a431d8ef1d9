import Mathlib.Data.List.Induction

/-!
# Pointer forests

A *pointer forest* is given by a root pointer for each `r : R` and, for each node
`a`, a child pointer in each slot `j : J`.  One pointer is null, and nothing lies
behind it.  A place in the forest is named by a key, a root with the list of
slots to follow from it, and `node` gives the pointer found there.

Only the places in a set `Ok` of keys are looked at, and the slots of a node are
meaningful only where `Ok` has a key below it.  So a node at the end of every key
may hold anything.

## Main definitions

* `follow`, `node` — the pointer at a place.
* `PrefixClosed` — a set of keys closed under going up.
* `Distinct` — no pointer but the null one is found at two places.

## Main results

* `node_congr` — the places are as they were when the roots and the slots on the
  way are.
* `node_fresh` — **hanging a fresh node into an empty place** changes what is
  found at this place and nowhere else.
-/

namespace Forest

variable {A R J : Type} [DecidableEq A]

/-- The pointer reached from `a` through the slots `l`. -/
def follow (null : A) (child : A → J → A) : A → List J → A
  | a, [] => a
  | a, j :: l => if a = null then null else follow null child (child a j) l

/-- The pointer at the place `κ`. -/
def node (null : A) (root : R → A) (child : A → J → A) (κ : R × List J) : A :=
  follow null child (root κ.1) κ.2

variable {null : A} {root root' : R → A} {child child' : A → J → A}

@[simp] theorem follow_null (l : List J) : follow null child null l = null := by
  cases l with
  | nil => rfl
  | cons j l => rw [follow, if_pos rfl]

theorem follow_snoc (a : A) (l : List J) (j : J) :
    follow null child a (l ++ [j]) =
      if follow null child a l = null then null else child (follow null child a l) j := by
  induction l generalizing a with
  | nil => rfl
  | cons i l ih =>
    rw [List.cons_append, follow, follow]
    split
    · simp
    · exact ih _

/-- One slot further down. -/
theorem node_snoc (r : R) (l : List J) (j : J) :
    node null root child (r, l ++ [j]) =
      if node null root child (r, l) = null then null
      else child (node null root child (r, l)) j :=
  follow_snoc _ l j

/-- A place above an occupied one is occupied. -/
theorem node_ne_null_of_snoc {r : R} {l : List J} {j : J}
    (h : node null root child (r, l ++ [j]) ≠ null) : node null root child (r, l) ≠ null := by
  intro hl
  rw [node_snoc, if_pos hl] at h
  exact h rfl

theorem node_ne_null_of_append {r : R} {l : List J} (l' : List J)
    (h : node null root child (r, l ++ l') ≠ null) : node null root child (r, l) ≠ null := by
  induction l' using List.reverseRecOn with
  | nil => rwa [List.append_nil] at h
  | append_singleton l' j ih =>
    rw [← List.append_assoc] at h
    exact ih (node_ne_null_of_snoc h)

/-- A set of keys closed under going up. -/
def PrefixClosed (Ok : R × List J → Prop) : Prop :=
  ∀ r l j, Ok (r, l ++ [j]) → Ok (r, l)

/-- No pointer but the null one is found at two of the places. -/
def Distinct (null : A) (Ok : R × List J → Prop) (at_ : R × List J → A) : Prop :=
  ∀ κ κ', Ok κ → Ok κ' → at_ κ ≠ null → at_ κ = at_ κ' → κ = κ'

omit [DecidableEq A] in
/-- A pointer that is new stands at one place only. -/
theorem Distinct.hang {Ok : R × List J → Prop} {f g : R × List J → A} (h : Distinct null Ok f)
    (κ₀ : R × List J) (hnew : ∀ κ, Ok κ → f κ ≠ null → f κ ≠ g κ₀)
    (hother : ∀ κ, Ok κ → κ ≠ κ₀ → g κ = f κ) : Distinct null Ok g := by
  intro κ κ' hκ hκ' hne heq
  by_cases hκ₀ : κ = κ₀ <;> by_cases hκ₀' : κ' = κ₀
  · rw [hκ₀, hκ₀']
  · rw [hκ₀] at hne heq
    rw [hother κ' hκ' hκ₀'] at heq
    exact absurd heq.symm (hnew κ' hκ' (heq ▸ hne))
  · rw [hκ₀', hother κ hκ hκ₀] at heq
    rw [hother κ hκ hκ₀] at hne
    exact absurd heq (hnew κ hκ hne)
  · rw [hother κ hκ hκ₀] at hne heq
    rw [hother κ' hκ' hκ₀'] at heq
    exact h κ κ' hκ hκ' hne heq

/-- The places are as they were when the roots and the slots on the way are. -/
theorem node_congr {Ok : R × List J → Prop} (hOk : PrefixClosed Ok)
    (hroot : ∀ r, Ok (r, []) → root' r = root r)
    (hchild : ∀ r l j, Ok (r, l ++ [j]) → node null root child (r, l) ≠ null →
      child' (node null root child (r, l)) j = child (node null root child (r, l)) j)
    (r : R) (l : List J) (h : Ok (r, l)) :
    node null root' child' (r, l) = node null root child (r, l) := by
  induction l using List.reverseRecOn with
  | nil => exact hroot r h
  | append_singleton l j ih =>
    rw [node_snoc, node_snoc, ih (hOk r l j h)]
    split
    · rfl
    · exact hchild r l j h ‹_›

/-- **Hanging a fresh node into an empty place.**  The node `z` has only null
slots, and the pointer to it is the one change to the roots and the slots. -/
theorem node_fresh {Ok : R × List J → Prop} (hOk : PrefixClosed Ok) {κ₀ : R × List J} {z : A}
    (hempty : node null root child κ₀ = null) (hz : ∀ j, child' z j = null)
    (hparent : ∀ r l j, κ₀ = (r, l ++ [j]) → node null root child (r, l) ≠ null)
    (hroot : ∀ r, Ok (r, []) → (κ₀ = (r, []) → root' r = z) ∧
      (κ₀ ≠ (r, []) → root' r = root r))
    (hchild : ∀ r l j, Ok (r, l ++ [j]) → node null root child (r, l) ≠ null →
      (κ₀ = (r, l ++ [j]) → child' (node null root child (r, l)) j = z) ∧
      (κ₀ ≠ (r, l ++ [j]) → child' (node null root child (r, l)) j =
        child (node null root child (r, l)) j))
    (r : R) (l : List J) (h : Ok (r, l)) :
    (κ₀ = (r, l) → node null root' child' (r, l) = z) ∧
      (κ₀ ≠ (r, l) → node null root' child' (r, l) = node null root child (r, l)) := by
  induction l using List.reverseRecOn with
  | nil => exact hroot r h
  | append_singleton l j ih =>
    obtain ⟨ihz, ihne⟩ := ih (hOk r l j h)
    rw [node_snoc, node_snoc]
    by_cases hκ : κ₀ = (r, l)
    · -- the place lies right below the fresh node, whose slots are null
      have hne : κ₀ ≠ (r, l ++ [j]) := by
        rw [hκ]
        intro heq
        have := congrArg List.length (congrArg Prod.snd heq)
        simp at this
      refine ⟨fun heq => absurd heq hne, fun _ => ?_⟩
      rw [ihz hκ, hz j, ite_self, if_pos (by rw [← hκ]; exact hempty)]
    · rw [ihne hκ]
      by_cases hnull : node null root child (r, l) = null
      · refine ⟨fun heq => absurd hnull (hparent r l j heq), fun _ => ?_⟩
        rw [if_pos hnull, if_pos hnull]
      · rw [if_neg hnull, if_neg hnull]
        exact hchild r l j h hnull

end Forest
