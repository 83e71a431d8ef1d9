import Mathlib.Data.List.Induction

/-!
# Doubly linked rings with a head

The members of a type `ι` are linked into a ring through a head, by a pointer to the
next and one to the previous node.  `none` stands for the head.  The ring represents
the list of its members in the order of the `next` pointers.

## Main definitions

* `Links` — the pointers, with the assignments of one of them.
* `Links.Joins r a l z` — the pointers lead from `a` through `l` to `z`, and back.
* `Links.IsRing r l` — the ring of the members of `l`.
* `Links.unlink`, `Links.pushFront` — take a member out, put it right after the head.
* `scan step p n a` — walk from `a` to the head, at most `n` nodes, up to the first
  member with `p`.

## Main results

* `IsRing.unlink`, `IsRing.pushFront` — what the two do to the list.
* `IsRing.inverse` — the pointers of a ring of all members undo each other.
* `IsRing.scan_next`, `IsRing.scan_prev` — walks find the first, or the last, member.
-/

namespace LinkedRing

open Function

variable {ι : Type}

/-- The pointers of a ring.  The head is `none`. -/
structure Links (ι : Type) where
  next : Option ι → Option ι
  prev : Option ι → Option ι

namespace Links

section Update

variable [DecidableEq ι]

/-- `a->next = b` -/
def setNext (r : Links ι) (a b : Option ι) : Links ι :=
  { r with next := update r.next a b }

/-- `a->prev = b` -/
def setPrev (r : Links ι) (a b : Option ι) : Links ι :=
  { r with prev := update r.prev a b }

/-- `b->next->prev = b->prev; b->prev->next = b->next;` -/
def unlink (r : Links ι) (b : ι) : Links ι :=
  let r := r.setPrev (r.next (some b)) (r.prev (some b))
  r.setNext (r.prev (some b)) (r.next (some b))

/-- `b->next = head.next; b->prev = &head; head.next->prev = b; head.next = b;` -/
def pushFront (r : Links ι) (b : ι) : Links ι :=
  let r := r.setNext (some b) (r.next none)
  let r := r.setPrev (some b) none
  let r := r.setPrev (r.next none) (some b)
  r.setNext none (some b)

end Update

/-! ### Pieces of a ring -/

/-- The pointers lead from `a` through the members `l` to `z`, and back. -/
def Joins (r : Links ι) : Option ι → List ι → Option ι → Prop
  | a, [], z => r.next a = z ∧ r.prev z = a
  | a, x :: l, z => r.next a = some x ∧ r.prev (some x) = a ∧ r.Joins (some x) l z

variable {r r' : Links ι} {a z : Option ι} {l : List ι} {x : ι}

theorem joins_append {l₁ l₂ : List ι} : r.Joins a (l₁ ++ x :: l₂) z ↔
    r.Joins a l₁ (some x) ∧ r.Joins (some x) l₂ z := by
  induction l₁ generalizing a with
  | nil => exact and_assoc.symm
  | cons y l₁ ih =>
    rw [List.cons_append, Joins, Joins, ih]
    simp only [and_assoc]

/-- Where a piece ends, the way back starts. -/
theorem Joins.prev_mem (h : r.Joins a l z) : r.prev z = a ∨ ∃ y ∈ l, r.prev z = some y := by
  induction l generalizing a with
  | nil => exact Or.inl h.2
  | cons y l ih =>
    rcases ih h.2.2 with hp | ⟨w, hw, hp⟩
    · exact Or.inr ⟨y, List.mem_cons_self, hp⟩
    · exact Or.inr ⟨w, List.mem_cons_of_mem y hw, hp⟩

/-- Only the pointers on a piece matter for it. -/
theorem Joins.congr (h : r.Joins a l z) (hnext : ∀ u, u = a ∨ (∃ y ∈ l, u = some y) →
      r'.next u = r.next u)
    (hprev : ∀ u, u = z ∨ (∃ y ∈ l, u = some y) → r'.prev u = r.prev u) : r'.Joins a l z := by
  induction l generalizing a with
  | nil => exact ⟨(hnext a (Or.inl rfl)).trans h.1, (hprev z (Or.inl rfl)).trans h.2⟩
  | cons y l ih =>
    have hmem : ∀ u, u = z ∨ (∃ w ∈ l, u = some w) → u = z ∨ ∃ w ∈ y :: l, u = some w :=
      fun u hu => hu.imp_right fun ⟨w, hw, hu⟩ => ⟨w, List.mem_cons_of_mem y hw, hu⟩
    refine ⟨(hnext a (Or.inl rfl)).trans h.1, ?_, ih h.2.2 ?_ fun u hu => hprev u (hmem u hu)⟩
    · exact (hprev _ (Or.inr ⟨y, List.mem_cons_self, rfl⟩)).trans h.2.1
    · rintro u (rfl | ⟨w, hw, rfl⟩)
      · exact hnext _ (Or.inr ⟨y, List.mem_cons_self, rfl⟩)
      · exact hnext _ (Or.inr ⟨w, List.mem_cons_of_mem y hw, rfl⟩)

/-- Going around a member: the two ends that pointed to it point to each other. -/
theorem Joins.skip {l₁ l₂ : List ι} (h₁ : r.Joins a l₁ (some x)) (h₂ : r.Joins (some x) l₂ z)
    (hnodup : (l₁ ++ l₂).Nodup) (ha : ∀ y ∈ l₁ ++ l₂, a ≠ some y) (hz : ∀ y ∈ l₁ ++ l₂, z ≠ some y)
    (hnext : r'.next (r.prev (some x)) = r.next (some x))
    (hprev : r'.prev (r.next (some x)) = r.prev (some x))
    (hnext' : ∀ u, u ≠ r.prev (some x) → r'.next u = r.next u)
    (hprev' : ∀ u, u ≠ r.next (some x) → r'.prev u = r.prev u) : r'.Joins a (l₁ ++ l₂) z := by
  induction l₁ generalizing a with
  | nil =>
    rw [h₁.2] at hnext hprev hnext'
    cases l₂ with
    | nil =>
      rw [h₂.1] at hnext hprev
      exact ⟨hnext, hprev⟩
    | cons y l₂ =>
      rw [h₂.1] at hnext hprev hprev'
      refine ⟨hnext, hprev, h₂.2.2.congr ?_ ?_⟩
      · -- what follows does not point on from where the piece starts
        rintro u (rfl | ⟨w, hw, rfl⟩)
        · exact hnext' _ (ha y List.mem_cons_self).symm
        · exact hnext' _ (ha w (List.mem_cons_of_mem y hw)).symm
      · rintro u (rfl | ⟨w, hw, rfl⟩)
        · exact hprev' _ (hz y List.mem_cons_self)
        · refine hprev' _ fun hwy => ?_
          cases hwy
          exact (List.nodup_cons.mp hnodup).1 hw
  | cons y l₁ ih =>
    obtain ⟨hay, hya, h₁⟩ := h₁
    obtain ⟨hy, hnodup⟩ := List.nodup_cons.mp hnodup
    have hp : a ≠ r.prev (some x) := by
      rcases h₁.prev_mem with hp | ⟨w, hw, hp⟩
      · rw [hp]
        exact ha y List.mem_cons_self
      · rw [hp]
        exact ha w (List.mem_cons_of_mem y (List.mem_append_left _ hw))
    have hn : some y ≠ r.next (some x) := by
      cases l₂ with
      | nil =>
        rw [h₂.1]
        exact (hz y List.mem_cons_self).symm
      | cons w l₂ =>
        rw [h₂.1]
        intro hyw
        cases hyw
        exact hy (List.mem_append_right _ List.mem_cons_self)
    refine ⟨(hnext' a hp).trans hay, (hprev' _ hn).trans hya, ?_⟩
    exact ih h₁ hnodup (fun w hw hyw => hy (Option.some.inj hyw ▸ hw))
      fun w hw => hz w (List.mem_cons_of_mem y hw)

/-- Where a piece starts, the way on starts. -/
theorem Joins.next_eq (h : r.Joins a l z) : r.next a = (l.head?.map some).getD z := by
  cases l with
  | nil => exact h.1
  | cons y l => exact h.1

/-- Going on from a node of a piece and back again. -/
theorem Joins.prev_next (h : r.Joins a l z) :
    ∀ u, u = a ∨ (∃ y ∈ l, u = some y) → r.prev (r.next u) = u := by
  induction l generalizing a with
  | nil =>
    rintro u (rfl | ⟨y, hy, -⟩)
    · rw [h.1, h.2]
    · cases hy
  | cons x l ih =>
    obtain ⟨hnext, hprev, hjoins⟩ := h
    rintro u (rfl | ⟨y, hy, rfl⟩)
    · rw [hnext, hprev]
    · rcases List.mem_cons.mp hy with rfl | hy
      · exact ih hjoins (some y) (Or.inl rfl)
      · exact ih hjoins (some y) (Or.inr ⟨y, hy, rfl⟩)

/-- Going back from a node of a piece and on again. -/
theorem Joins.next_prev (h : r.Joins a l z) :
    ∀ u, u = z ∨ (∃ y ∈ l, u = some y) → r.next (r.prev u) = u := by
  induction l generalizing a with
  | nil =>
    rintro u (rfl | ⟨y, hy, -⟩)
    · rw [h.2, h.1]
    · cases hy
  | cons x l ih =>
    obtain ⟨hnext, hprev, hjoins⟩ := h
    rintro u (rfl | ⟨y, hy, rfl⟩)
    · exact ih hjoins u (Or.inl rfl)
    · rcases List.mem_cons.mp hy with rfl | hy
      · rw [hprev, hnext]
      · exact ih hjoins (some y) (Or.inr ⟨y, hy, rfl⟩)

/-! ### Rings -/

/-- The ring of the members of `l`, in this order. -/
structure IsRing (r : Links ι) (l : List ι) : Prop where
  joins : r.Joins none l none
  nodup : l.Nodup

/-- In a ring of all members the two pointers undo each other. -/
theorem IsRing.inverse (h : r.IsRing l) (hall : ∀ x, x ∈ l) (a : Option ι) :
    r.prev (r.next a) = a ∧ r.next (r.prev a) = a := by
  have ha : a = none ∨ ∃ y ∈ l, a = some y := by
    cases a with
    | none => exact Or.inl rfl
    | some y => exact Or.inr ⟨y, hall y, rfl⟩
  exact ⟨h.joins.prev_next a ha, h.joins.next_prev a ha⟩

section Update

variable [DecidableEq ι]

/-- Taking a member out of its ring. -/
theorem IsRing.unlink {l₁ l₂ : List ι} (h : r.IsRing (l₁ ++ x :: l₂)) :
    (r.unlink x).IsRing (l₁ ++ l₂) := by
  obtain ⟨h₁, h₂⟩ := joins_append.mp h.joins
  have hsub : (l₁ ++ l₂).Sublist (l₁ ++ x :: l₂) :=
    (List.Sublist.refl l₁).append (List.sublist_cons_self x l₂)
  -- the first assignment leaves the pointers of `x` alone
  have hself : some x ≠ r.next (some x) := by
    rw [h₂.next_eq]
    cases l₂ with
    | nil => exact Option.some_ne_none x
    | cons y l₂ =>
      intro hxy
      cases hxy
      exact (List.nodup_cons.mp (List.nodup_append.mp h.nodup).2.1).1 List.mem_cons_self
  have hprev : (r.setPrev (r.next (some x)) (r.prev (some x))).prev (some x) = r.prev (some x) :=
    update_of_ne hself ..
  have hunlink : r.unlink x = (r.setPrev (r.next (some x)) (r.prev (some x))).setNext
      (r.prev (some x)) (r.next (some x)) := by
    rw [Links.unlink, hprev]
    rfl
  rw [hunlink]
  have hnone : ∀ y ∈ l₁ ++ l₂, (none : Option ι) ≠ some y := fun y _ => (Option.some_ne_none y).symm
  refine ⟨h₁.skip h₂ (h.nodup.sublist hsub) hnone hnone ?_ ?_ ?_ ?_, h.nodup.sublist hsub⟩
  · exact update_self ..
  · exact update_self ..
  · exact fun u hu => update_of_ne hu ..
  · exact fun u hu => update_of_ne hu ..

/-- Putting a member right after the head. -/
theorem IsRing.pushFront (h : r.IsRing l) (hx : x ∉ l) : (r.pushFront x).IsRing (x :: l) := by
  have hhead : r.next none ≠ some x := by
    rw [h.joins.next_eq]
    cases l with
    | nil => exact (Option.some_ne_none x).symm
    | cons y l =>
      intro hyx
      cases hyx
      exact hx List.mem_cons_self
  have hnext : (r.pushFront x).next = update (update r.next (some x) (r.next none))
      none (some x) := rfl
  have hprev : (r.pushFront x).prev =
      update (update r.prev (some x) none) (r.next none) (some x) := by
    show update _ (update r.next (some x) (r.next none) none) _ = _
    rw [update_of_ne (Option.some_ne_none x).symm]
    rfl
  have hnextx : (r.pushFront x).next (some x) = r.next none := by
    rw [hnext, update_of_ne (Option.some_ne_none x), update_self]
  have hprevh : (r.pushFront x).prev (r.next none) = some x := by rw [hprev, update_self]
  refine ⟨⟨?_, ?_, ?_⟩, List.nodup_cons.mpr ⟨hx, h.nodup⟩⟩
  · rw [hnext, update_self]
  · rw [hprev, update_of_ne hhead.symm, update_self]
  · have hjoins := h.joins
    cases l with
    | nil =>
      rw [hjoins.1] at hnextx hprevh
      exact ⟨hnextx, hprevh⟩
    | cons y l =>
      rw [hjoins.1] at hnextx hprevh hprev
      obtain ⟨hy, -⟩ := List.nodup_cons.mp h.nodup
      refine ⟨hnextx, hprevh, hjoins.2.2.congr ?_ ?_⟩
      · have hne : ∀ w ∈ y :: l, (r.pushFront x).next (some w) = r.next (some w) := by
          intro w hw
          have hwx : some w ≠ some x := fun hwx => hx (Option.some.inj hwx ▸ hw)
          rw [hnext, update_of_ne (Option.some_ne_none w), update_of_ne hwx]
        rintro u (rfl | ⟨w, hw, rfl⟩)
        · exact hne y List.mem_cons_self
        · exact hne w (List.mem_cons_of_mem y hw)
      · rintro u (rfl | ⟨w, hw, rfl⟩)
        · rw [hprev, update_of_ne (Option.some_ne_none y).symm,
            update_of_ne (Option.some_ne_none x).symm]
        · have hwy : some w ≠ some y := fun hwy => hy (Option.some.inj hwy ▸ hw)
          have hwx : some w ≠ some x := fun hwx =>
            hx (Option.some.inj hwx ▸ List.mem_cons_of_mem y hw)
          rw [hprev, update_of_ne hwy, update_of_ne hwx]

/-- Moving a member to the front. -/
theorem IsRing.moveToFront (h : r.IsRing l) (hx : x ∈ l) :
    ((r.unlink x).pushFront x).IsRing (x :: l.erase x) := by
  obtain ⟨l₁, l₂, rfl⟩ := List.append_of_mem hx
  have hx₁ : x ∉ l₁ := by
    have := h.nodup
    simp only [List.nodup_append, List.nodup_cons] at this
    exact fun hx => this.2.2 x hx x List.mem_cons_self rfl
  rw [List.erase_append_right _ hx₁, List.erase_cons_head]
  refine h.unlink.pushFront fun hx => ?_
  rcases List.mem_append.mp hx with hx | hx
  · exact hx₁ hx
  · have := h.nodup
    simp only [List.nodup_append, List.nodup_cons] at this
    exact this.2.1.1 hx

end Update

end Links

/-! ### Walking around -/

/-- Walk from `a` until the head, or the first member with `p`; `none` if that takes
more than `n` nodes. -/
def scan (step : Option ι → Option ι) (p : ι → Bool) : ℕ → Option ι → Option (Option ι)
  | 0, _ => none
  | _ + 1, none => some none
  | n + 1, some i => if p i then some (some i) else scan step p n (step (some i))

namespace Links

variable {r : Links ι} {p : ι → Bool} {n : ℕ}

theorem Joins.scan_next {a : Option ι} {l : List ι} (h : r.Joins a l none) (hn : l.length < n) :
    scan r.next p n (r.next a) = some (l.find? p) := by
  induction l generalizing a n with
  | nil =>
    cases n with
    | zero => exact absurd hn (Nat.not_lt_zero _)
    | succ n =>
      rw [h.1]
      rfl
  | cons x l ih =>
    cases n with
    | zero => exact absurd hn (Nat.not_lt_zero _)
    | succ n =>
      rw [h.1, scan, List.find?_cons]
      cases p x with
      | true => rfl
      | false => exact ih h.2.2 (Nat.lt_of_succ_lt_succ hn)

theorem Joins.scan_prev {z : Option ι} {l : List ι} (h : r.Joins none l z) (hn : l.length < n) :
    scan r.prev p n (r.prev z) = some (l.reverse.find? p) := by
  induction l using List.reverseRecOn generalizing z n with
  | nil =>
    cases n with
    | zero => exact absurd hn (Nat.not_lt_zero _)
    | succ n =>
      rw [h.2]
      rfl
  | append_singleton l x ih =>
    obtain ⟨h, hz⟩ := joins_append.mp h
    cases n with
    | zero => exact absurd hn (Nat.not_lt_zero _)
    | succ n =>
      rw [hz.2, scan, List.reverse_append, List.reverse_singleton, List.singleton_append,
        List.find?_cons]
      cases p x with
      | true => rfl
      | false =>
        refine ih h ?_
        rw [List.length_append] at hn
        exact Nat.lt_of_succ_lt_succ hn

/-- **A walk along `next`** finds the first member with `p`. -/
theorem IsRing.scan_next {l : List ι} (h : r.IsRing l) (hn : l.length < n) :
    scan r.next p n (r.next none) = some (l.find? p) :=
  h.joins.scan_next hn

/-- **A walk along `prev`** finds the last member with `p`. -/
theorem IsRing.scan_prev {l : List ι} (h : r.IsRing l) (hn : l.length < n) :
    scan r.prev p n (r.prev none) = some (l.reverse.find? p) :=
  h.joins.scan_prev hn

end Links

end LinkedRing
