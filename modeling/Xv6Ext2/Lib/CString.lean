import Mathlib.Data.Int.Basic

/-!
# C strings in memory

Strings that end at the first zero byte, read from a memory `ℕ → UInt8`, with the
functions of the C library that directory code and user programs use.

## Main definitions

* `cstr l` — the memory that holds the bytes `l` and then zeros.
* `strncmp p q n i`, `strncpy dst src n` — the library functions; the comparison
  starts at index `i` and has `n` bytes left.
* `Stores mem p l` — the bytes of `l` are at `p`.
* `strchr`, `stringAt` — look for a byte of a string, and the string at an address.

## Main results

* `strncmp_congr` — the comparison does not look past the end of its second string.
* `strncmp_ne_zero` — a nonempty string differs from an empty one.
* `Stores.strchr_none`, `Stores.strchr_some`, `Stores.stringAt` — strings that are stored.
-/

namespace CString

/-- The memory that holds the bytes `l` and then zeros. -/
def cstr (l : List UInt8) (i : ℕ) : UInt8 := l.getD i 0

/-- Compare at most `n` bytes of two strings, from index `i` on. -/
def strncmp (p q : ℕ → UInt8) : ℕ → ℕ → ℤ
  | 0, _ => 0
  | n + 1, i =>
    if p i ≠ 0 ∧ p i = q i then strncmp p q n (i + 1) else (p i).toNat - (q i).toNat

/-- Copy at most `n` bytes of a string, and zeros after its end. -/
def strncpy (dst src : ℕ → UInt8) (n i : ℕ) : UInt8 :=
  if i < n then if ∀ j < i, src j ≠ 0 then src i else 0 else dst i

theorem strncpy_of_le {dst src : ℕ → UInt8} {n i : ℕ} (h : n ≤ i) :
    strncpy dst src n i = dst i :=
  if_neg (Nat.not_lt.mpr h)

/-- The bytes copied do not depend on the destination. -/
theorem strncpy_of_lt {dst src : ℕ → UInt8} (dst' : ℕ → UInt8) {n i : ℕ} (h : i < n) :
    strncpy dst src n i = strncpy dst' src n i := by
  rw [strncpy, strncpy, if_pos h, if_pos h]

/-- The comparison does not look past the end of its second string. -/
theorem strncmp_congr {p q q' : ℕ → UInt8} {e : ℕ} (h : ∀ i ≤ e, q i = q' i) (he : q e = 0) :
    ∀ n i, i ≤ e → strncmp p q n i = strncmp p q' n i := by
  intro n
  induction n with
  | zero => intro i _; rfl
  | succ n ih =>
    intro i hi
    rw [strncmp, strncmp, ← h i hi]
    split
    · next hc =>
      have hne : i ≠ e := by
        rintro rfl
        rw [he] at hc
        exact hc.1 hc.2
      exact ih (i + 1) (by omega)
    · rfl

/-- A nonempty string differs from an empty one. -/
theorem strncmp_ne_zero {p q : ℕ → UInt8} {n i : ℕ} (hp : p i ≠ 0) (hq : q i = 0) :
    strncmp p q (n + 1) i ≠ 0 := by
  rw [strncmp, if_neg (by rw [hq]; exact fun h => h.1 h.2), hq]
  intro h0
  have : (p i).toNat = 0 := by simpa using h0
  exact hp (UInt8.toNat_inj.mp this)

/-! ### Strings at an address -/

/-- The bytes of `l` are at `p`. -/
def Stores (mem : ℕ → UInt8) : ℕ → List UInt8 → Prop
  | _, [] => True
  | p, x :: l => mem p = x ∧ Stores mem (p + 1) l

/-- `strchr(s, c)`, for a string with fewer than `n` bytes. -/
def strchr (mem : ℕ → UInt8) (c : UInt8) : ℕ → ℕ → Option ℕ
  | 0, _ => none
  | n + 1, s => if mem s = 0 then none else if mem s = c then some s else strchr mem c n (s + 1)

/-- The string at `s`, if it has fewer than `n` bytes. -/
def stringAt (mem : ℕ → UInt8) : ℕ → ℕ → List UInt8
  | 0, _ => []
  | n + 1, s => if mem s = 0 then [] else mem s :: stringAt mem n (s + 1)

variable {mem mem' : ℕ → UInt8} {p : ℕ} {l l' : List UInt8}

theorem stores_iff : Stores mem p l ↔ ∀ i, (h : i < l.length) → mem (p + i) = l[i] := by
  induction l generalizing p with
  | nil => simp [Stores]
  | cons x l ih =>
    rw [Stores, ih]
    constructor
    · rintro ⟨hx, hl⟩ (_ | i) hi
      · exact hx
      · simpa [Nat.add_assoc, Nat.add_comm 1] using hl i (by simpa using hi)
    · intro h
      refine ⟨h 0 (by simp), fun i hi => ?_⟩
      rw [Nat.add_assoc, Nat.add_comm 1]
      exact h (i + 1) (by simpa using hi)

theorem stores_append : Stores mem p (l ++ l') ↔ Stores mem p l ∧ Stores mem (p + l.length) l' := by
  induction l generalizing p with
  | nil => simp [Stores]
  | cons x l ih => simp [Stores, ih, and_assoc, Nat.add_assoc, Nat.add_comm 1]

theorem Stores.congr (h : Stores mem p l)
    (hmem : ∀ i, p ≤ i → i < p + l.length → mem' i = mem i) : Stores mem' p l := by
  rw [stores_iff] at h ⊢
  intro i hi
  rw [hmem (p + i) (by omega) (by omega), h i hi]

theorem Stores.map_range (h : Stores mem p l) :
    (List.range l.length).map (fun i => mem (p + i)) = l := by
  refine List.ext_getElem (by simp) fun i hi hi' => ?_
  simpa using stores_iff.mp h i hi'

/-- A string without the byte. -/
theorem Stores.strchr_none (h : Stores mem p (l ++ [0])) {c : UInt8} (hc : c ∉ l) (n : ℕ) :
    strchr mem c n p = none := by
  induction l generalizing p n with
  | nil => cases n <;> simp [strchr, h.1]
  | cons x l ih =>
    simp only [List.mem_cons, not_or] at hc
    cases n with
    | zero => rfl
    | succ n => simp [strchr, h.1, Ne.symm hc.1, ih h.2 hc.2]

/-- A string with the byte after the bytes of `l`. -/
theorem Stores.strchr_some (h : Stores mem p l) {c : UInt8} (hc : c ∉ l) (h0 : 0 ∉ l)
    (hend : mem (p + l.length) = c) (hne : c ≠ 0) {n : ℕ} (hn : l.length < n) :
    strchr mem c n p = some (p + l.length) := by
  induction l generalizing p n with
  | nil =>
    obtain ⟨n, rfl⟩ := Nat.exists_eq_add_of_lt hn
    simp_all [strchr]
  | cons x l ih =>
    obtain ⟨n, rfl⟩ := Nat.exists_eq_succ_of_ne_zero (Nat.ne_zero_of_lt hn)
    simp only [List.mem_cons, not_or, List.length_cons] at hc h0 hn hend ⊢
    have hend' : mem (p + 1 + l.length) = c := by rw [Nat.add_assoc, Nat.add_comm 1, hend]
    rw [strchr, h.1, if_neg (Ne.symm h0.1), if_neg (Ne.symm hc.1),
      ih h.2 hc.2 h0.2 hend' (by omega), Nat.add_assoc, Nat.add_comm 1]

theorem Stores.stringAt (h : Stores mem p (l ++ [0])) (h0 : 0 ∉ l) {n : ℕ} (hn : l.length ≤ n) :
    stringAt mem n p = l := by
  induction l generalizing p n with
  | nil => cases n <;> simp [CString.stringAt, h.1]
  | cons x l ih =>
    obtain ⟨n, rfl⟩ := Nat.exists_eq_succ_of_ne_zero (Nat.ne_zero_of_lt hn)
    simp only [List.mem_cons, not_or, List.length_cons] at h0 hn
    rw [CString.stringAt, h.1, if_neg (Ne.symm h0.1), ih h.2 h0.2 (by omega)]

end CString
