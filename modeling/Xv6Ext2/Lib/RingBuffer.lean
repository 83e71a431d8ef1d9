import Mathlib.Data.Int.ModEq

/-!
# Ring buffers

An array of `N` cells used as a queue.  The position of the oldest element only ever
grows; positions are reduced modulo `N` to find their cells, and may be kept modulo any
multiple of `N`.

## Main definitions

* `RingBuffer.contents` — the elements of the queue, the oldest first.

## Main results

* `contents_push`, `contents_pop` — appending at one end and taking off at the other.
* `contents_append`, `contents_succ` — cutting the queue in two, and its last element.
* `contents_mod` — positions may wrap around at a multiple of `N`.
-/

namespace RingBuffer

variable {α : Type} {N : ℕ} [NeZero N]

/-- The `n` elements from position `r` on. -/
def contents (cells : Fin N → α) (r n : ℕ) : List α :=
  (List.range n).map fun k => cells (Fin.ofNat N (r + k))

@[simp] theorem contents_zero (cells : Fin N → α) (r : ℕ) : contents cells r 0 = [] := rfl

/-- The queue in two parts. -/
theorem contents_append (cells : Fin N → α) (r m n : ℕ) :
    contents cells r (m + n) = contents cells r m ++ contents cells (r + m) n := by
  unfold contents
  rw [List.range_add, List.map_append, List.map_map]
  congr 1
  apply List.map_congr_left
  intro k _
  simp only [Function.comp_apply, Nat.add_assoc]

/-- The last element of the queue. -/
theorem contents_succ (cells : Fin N → α) (r n : ℕ) :
    contents cells r (n + 1) = contents cells r n ++ [cells (Fin.ofNat N (r + n))] :=
  contents_append cells r n 1

/-- The cell behind the last element is free as long as there is room. -/
theorem contents_update (cells : Fin N → α) (r : ℕ) {n : ℕ} (hn : n < N) (x : α) :
    contents (Function.update cells (Fin.ofNat N (r + n)) x) r n = contents cells r n := by
  unfold contents
  apply List.map_congr_left
  intro k hk
  rw [List.mem_range] at hk
  -- two positions less than `N` apart have different cells
  have hne : Fin.ofNat N (r + k) ≠ Fin.ofNat N (r + n) := by
    intro h
    have hmod : (r + k) % N = (r + n) % N := congrArg Fin.val h
    have hdvd : N ∣ (r + n) - (r + k) := (Nat.modEq_iff_dvd' (by omega)).mp hmod
    have hle := Nat.le_of_dvd (by omega) hdvd
    omega
  rw [Function.update_of_ne hne]

/-- **Appending** to a queue that is not full. -/
theorem contents_push (cells : Fin N → α) (r : ℕ) {n : ℕ} (hn : n < N) (x : α) :
    contents (Function.update cells (Fin.ofNat N (r + n)) x) r (n + 1) =
      contents cells r n ++ [x] := by
  rw [contents_succ, contents_update cells r hn x, Function.update_self]

/-- **Taking off** the oldest element. -/
theorem contents_pop (cells : Fin N → α) (r n : ℕ) :
    contents cells r (n + 1) = cells (Fin.ofNat N r) :: contents cells (r + 1) n := by
  unfold contents
  rw [List.range_succ_eq_map, List.map_cons, List.map_map]
  congr 1
  apply List.map_congr_left
  intro k _
  simp only [Function.comp_apply, Nat.succ_eq_add_one]
  congr 2
  omega

/-- **Wrapping around**: a position counts modulo any multiple of `N`. -/
theorem ofNat_mod {M : ℕ} (h : N ∣ M) (r : ℕ) : Fin.ofNat N (r % M) = Fin.ofNat N r :=
  Fin.ext (Nat.mod_mod_of_dvd r h)

theorem contents_mod {M : ℕ} (h : N ∣ M) (cells : Fin N → α) (r n : ℕ) :
    contents cells (r % M) n = contents cells r n := by
  unfold contents
  apply List.map_congr_left
  intro k _
  have hmod : (r % M + k) % M = (r + k) % M := Nat.mod_add_mod r M k
  rw [← ofNat_mod h (r % M + k), hmod, ofNat_mod h]

end RingBuffer
