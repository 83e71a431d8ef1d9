import Mathlib.Algebra.Order.BigOperators.Group.List
import Mathlib.Algebra.Ring.Nat

/-!
# Blocks of memory, and rings of pointers

A block is an address and a number of bytes.  How often a byte is in one of the blocks of a
list is a number, and splitting, joining and moving blocks does not change the sum of these
numbers: so no byte is ever in two blocks if the memory was handed out once.

A ring is a walk along one pointer that comes back to where it started.

## Main definitions

* `occ b x`, `cover L x` — how often the byte `x` is in a block, or in the blocks of a list.
* `Path next a l z` — the pointers lead from `a` through `l` to `z`.

## Main results

* `occ_join` — a block is its two parts.
* `pairwise_of_cover` — blocks do not overlap if no byte is in two of them.
* `Path.rotate`, `Path.split` — a ring from another node, and what follows a node.
* `Path.relink` — the path to a node whose pointer has changed, and on from there.
-/

namespace Blocks

variable {b : ℕ × ℕ} {L L' : List (ℕ × ℕ)} {x : ℕ}

/-- Whether the byte `x` is in a block, as a number. -/
def occ (b : ℕ × ℕ) (x : ℕ) : ℕ := if b.1 ≤ x ∧ x < b.1 + b.2 then 1 else 0

/-- In how many blocks of the list the byte `x` is. -/
def cover (L : List (ℕ × ℕ)) (x : ℕ) : ℕ := (L.map fun b => occ b x).sum

@[simp] theorem cover_nil : cover [] x = 0 := rfl

@[simp] theorem cover_cons : cover (b :: L) x = occ b x + cover L x := rfl

@[simp] theorem cover_append : cover (L ++ L') x = cover L x + cover L' x := by
  simp [cover]

/-- A block is its two parts. -/
theorem occ_join (a n m x : ℕ) : occ (a, n + m) x = occ (a, n) x + occ (a + n, m) x := by
  unfold occ
  dsimp only
  split_ifs <;> omega

theorem occ_of_mem (h : b.1 ≤ x ∧ x < b.1 + b.2) : occ b x = 1 := if_pos h

theorem cover_perm (h : L.Perm L') : cover L x = cover L' x := (h.map _).sum_eq

theorem occ_le_cover (h : b ∈ L) : occ b x ≤ cover L x := by
  rw [cover_perm (List.perm_cons_erase h), cover_cons]
  exact Nat.le_add_right _ _

theorem cover_pos_iff : 0 < cover L x ↔ ∃ b ∈ L, b.1 ≤ x ∧ x < b.1 + b.2 := by
  induction L with
  | nil => simp
  | cons b L ih =>
    rw [cover_cons, List.exists_mem_cons_iff, ← ih]
    unfold occ
    split_ifs with h
    · exact iff_of_true (by omega) (Or.inl h)
    · simp [h]

/-- **Blocks do not overlap** if no byte is in two of them. -/
theorem pairwise_of_cover (hpos : ∀ b ∈ L, 0 < b.2) (h : ∀ x, cover L x ≤ 1) :
    L.Pairwise fun b c => b.1 + b.2 ≤ c.1 ∨ c.1 + c.2 ≤ b.1 := by
  induction L with
  | nil => exact List.Pairwise.nil
  | cons b L ih =>
    simp only [List.mem_cons, forall_eq_or_imp] at hpos
    refine List.pairwise_cons.mpr ⟨fun c hc => ?_, ih hpos.2 fun x => ?_⟩
    · by_contra hne
      have hc' := hpos.2 c hc
      -- the byte where the later block starts is in both
      have hx := h (max b.1 c.1)
      have hin := occ_le_cover (x := max b.1 c.1) hc
      rw [cover_cons, occ_of_mem (by omega)] at hx
      rw [occ_of_mem (by omega)] at hin
      omega
    · have hx := h x
      rw [cover_cons] at hx
      omega

/-! ### Paths -/

/-- The pointers lead from `a` through `l` to `z`. -/
def Path (next : ℕ → ℕ) : ℕ → List ℕ → ℕ → Prop
  | a, [], z => next a = z
  | a, b :: l, z => next a = b ∧ Path next b l z

variable {next next' : ℕ → ℕ} {a c z : ℕ} {l l' : List ℕ}

theorem path_append : Path next a (l ++ c :: l') z ↔ Path next a l c ∧ Path next c l' z := by
  induction l generalizing a with
  | nil => rfl
  | cons b l ih => simp [Path, ih, and_assoc]

/-- A ring from another one of its nodes. -/
theorem Path.rotate (h : Path next a l a) (hc : c ∈ a :: l) :
    ∃ l', Path next c l' c ∧ (c :: l').Perm (a :: l) := by
  rcases List.mem_cons.mp hc with rfl | hc
  · exact ⟨l, h, List.Perm.refl _⟩
  · obtain ⟨l₁, l₂, rfl⟩ := List.append_of_mem hc
    obtain ⟨h₁, h₂⟩ := path_append.mp h
    refine ⟨l₂ ++ a :: l₁, path_append.mpr ⟨h₂, h₁⟩, ?_⟩
    exact @List.perm_append_comm _ (c :: l₂) (a :: l₁)

/-- What comes before a node of a path and what comes after it. -/
theorem Path.split (h : Path next a l z) (hc : c ∈ a :: l) :
    ∃ l₁ l₂, l = l₁ ++ l₂ ∧ c = (a :: l₁).getLast (by simp) ∧ Path next c l₂ z := by
  induction l generalizing a with
  | nil => exact ⟨[], [], rfl, by simpa using hc, by simpa using List.mem_singleton.mp hc ▸ h⟩
  | cons b l ih =>
    rcases List.mem_cons.mp hc with rfl | hc
    · exact ⟨[], b :: l, rfl, rfl, h⟩
    · obtain ⟨l₁, l₂, rfl, rfl, h'⟩ := ih h.2 hc
      exact ⟨b :: l₁, l₂, rfl, by simp, h'⟩

theorem Path.next_mem (h : Path next a l z) (hc : c ∈ a :: l) : next c ∈ l ++ [z] := by
  obtain ⟨l₁, l₂, rfl, -, h'⟩ := h.split hc
  cases l₂ with
  | nil => simp [show next c = z from h']
  | cons b l₂ => simp [h'.1]

theorem Path.congr (h : Path next a l z) (hnext : ∀ x ∈ a :: l, next' x = next x) :
    Path next' a l z := by
  induction l generalizing a with
  | nil => exact (hnext a (by simp)).trans h
  | cons b l ih =>
    refine ⟨(hnext a (by simp)).trans h.1, ih h.2 fun x hx => hnext x ?_⟩
    exact List.mem_cons_of_mem a hx

/-- A path that starts from another node. -/
theorem path_relabel (h : Path next a l z) (hc : next' c = next a)
    (hnext : ∀ x ∈ l, next' x = next x) : Path next' c l z := by
  cases l with
  | nil => exact hc.trans h
  | cons b l => exact ⟨hc.trans h.1, h.2.congr hnext⟩

/-- **The pointer of the last node of a path has changed**, and the path goes on from there. -/
theorem Path.relink (h : Path next a l z) (hnodup : (a :: l).Nodup) {l₂ : List ℕ} {z' : ℕ}
    (hc : c = (a :: l).getLast (by simp)) (hnext : ∀ x ∈ a :: l, x ≠ c → next' x = next x)
    (h₂ : Path next' c l₂ z') : Path next' a (l ++ l₂) z' := by
  induction l generalizing a with
  | nil => exact (show c = a by simpa using hc) ▸ h₂
  | cons b l ih =>
    rw [List.getLast_cons (by simp)] at hc
    obtain ⟨ha, hnodup⟩ := List.nodup_cons.mp hnodup
    refine ⟨(hnext a (by simp) fun hac => ?_).trans h.1, ih h.2 hnodup hc fun x hx => hnext x ?_⟩
    · exact ha (hac ▸ hc ▸ List.getLast_mem _)
    · exact List.mem_cons_of_mem a hx

end Blocks
