import Mathlib.Logic.Relation

/-!
# Parent pointers

Every element points to its parent, or to nothing.  The pointers are *acyclic* if no element
is its own ancestor, and one pointer can be changed without closing a cycle if its new target
does not descend from the element: because the element has no children, or because the target
has no parent.

## Main definitions

* `Link par` — the relation of pointers.
* `Acyclic par` — no element is its own ancestor.

## Main results

* `Acyclic.mono` — taking pointers away.
* `Acyclic.link` — **changing a pointer**.
-/

namespace ParentLinks

variable {A : Type}

/-- `a` points to `b`. -/
def Link (par : A → Option A) (a b : A) : Prop := par a = some b

/-- No element is its own ancestor. -/
def Acyclic (par : A → Option A) : Prop := ∀ a, ¬Relation.TransGen (Link par) a a

variable {par par' : A → Option A} {a b : A}

theorem acyclic_of_none (h : ∀ a, par a = none) : Acyclic par := by
  intro a hcycle
  obtain ⟨b, hab, -⟩ := Relation.TransGen.head'_iff.mp hcycle
  rw [Link, h a] at hab
  cases hab

/-- Taking pointers away closes no cycle. -/
theorem Acyclic.mono (h : Acyclic par) (hsub : ∀ a b, par' a = some b → par a = some b) :
    Acyclic par' :=
  fun a hcycle => h a (Relation.TransGen.mono hsub _ _ hcycle)

/-- The only new pointer is from `a` to `b`. -/
def Relinks (par par' : A → Option A) (a b : A) : Prop :=
  ∀ x y, par' x = some y → x ≠ a ∧ par x = some y ∨ x = a ∧ y = b

/-- A path to `a` uses no pointer of `a`. -/
theorem Relinks.path_to (h : Relinks par par' a b) {x : A}
    (hpath : Relation.ReflTransGen (Link par') x a) : Relation.ReflTransGen (Link par) x a := by
  induction hpath using Relation.ReflTransGen.head_induction_on with
  | refl => exact .refl
  | head hxy _ ih =>
    rcases h _ _ hxy with ⟨-, hold⟩ | ⟨rfl, -⟩
    · exact .head hold ih
    · exact .refl

/-- A path uses the new pointer or does not. -/
theorem Relinks.path_split (h : Relinks par par' a b) {x y : A}
    (hpath : Relation.TransGen (Link par') x y) :
    Relation.TransGen (Link par) x y ∨
      Relation.ReflTransGen (Link par') x a ∧ Relation.ReflTransGen (Link par') b y := by
  induction hpath with
  | single hxy =>
    rcases h _ _ hxy with ⟨-, hold⟩ | ⟨rfl, rfl⟩
    · exact Or.inl (.single hold)
    · exact Or.inr ⟨.refl, .refl⟩
  | tail hxy hyz ih =>
    rcases ih with ih | ⟨hxa, hby⟩
    · rcases h _ _ hyz with ⟨-, hold⟩ | ⟨rfl, rfl⟩
      · exact Or.inl (.tail ih hold)
      · exact Or.inr ⟨hxy.to_reflTransGen, .refl⟩
    · exact Or.inr ⟨hxa, .tail hby hyz⟩

/-- **Changing the pointer of `a` to `b`**, which does not descend from `a`. -/
theorem Acyclic.link (h : Acyclic par) (hrel : Relinks par par' a b)
    (hba : ¬Relation.ReflTransGen (Link par) b a) : Acyclic par' := by
  intro x hcycle
  rcases hrel.path_split hcycle with hold | ⟨hxa, hbx⟩
  · exact h x hold
  · exact hba (hrel.path_to (hbx.trans hxa))

/-- An element without children has no descendants. -/
theorem not_descends_of_childless (hchildless : ∀ x, par x ≠ some a) (hne : b ≠ a) :
    ¬Relation.ReflTransGen (Link par) b a := by
  intro hpath
  rcases hpath.cases_tail with heq | ⟨x, -, hxa⟩
  · exact hne heq.symm
  · exact hchildless x hxa

/-- An element without a parent is not a descendant. -/
theorem not_descends_of_root (hroot : par b = none) (hne : b ≠ a) :
    ¬Relation.ReflTransGen (Link par) b a := by
  intro hpath
  rcases hpath.cases_head with heq | ⟨x, hbx, -⟩
  · exact hne heq
  · rw [Link, hroot] at hbx
    cases hbx

end ParentLinks
