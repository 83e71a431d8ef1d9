import Mathlib.Data.Nat.Bitwise
import Mathlib.Tactic.Ring

/-!
# Bytes, little-endian words and single bits

Byte-level facts that on-disk formats rest on.  A piece of memory is read as a
function from offsets to bytes, so that a structure at offset `o` is described
by where its fields lie rather than by how a list is cut up.

## Main definitions

* `byteOf n k` — byte `k` of the little-endian form of `n`.
* `leWords ws` — the bytes of an array of 64-bit words.
* `le16 f o`, `le32 f o` — the little-endian words at offset `o` of the memory `f`.
* `bitMask j`, `testBit b j` — the mask of bit `j` of a byte, and its value.
* `splice l o d` — the list `l` with the bytes `d` written over it from offset `o`.

## Main results

* `le16_eq`, `le32_eq` — a word is read back from the bytes it was stored as.
* `testBit_or_bitMask`, `testBit_and_not_bitMask` — setting or clearing a bit
  changes that bit and no other.
* `getElem?_splice` — the bytes of a spliced list.
-/

namespace Bytes

/-! ### Little-endian words -/

/-- Byte `k` of the little-endian form of `n`. -/
def byteOf (n k : ℕ) : UInt8 := UInt8.ofNat (n / 256 ^ k)

theorem toNat_byteOf (n k : ℕ) : (byteOf n k).toNat = n / 256 ^ k % 256 := by
  simp [byteOf]

/-- The 16-bit word stored at offset `o`. -/
def le16 (f : ℕ → UInt8) (o : ℕ) : UInt16 :=
  UInt16.ofNat ((f o).toNat + 256 * (f (o + 1)).toNat)

/-- The 32-bit word stored at offset `o`. -/
def le32 (f : ℕ → UInt8) (o : ℕ) : UInt32 :=
  UInt32.ofNat ((f o).toNat + 256 * (f (o + 1)).toNat + 65536 * (f (o + 2)).toNat +
    16777216 * (f (o + 3)).toNat)

theorem le16_congr {f g : ℕ → UInt8} {o p : ℕ} (h : ∀ k < 2, f (o + k) = g (p + k)) :
    le16 f o = le16 g p := by
  have h0 := h 0 (by omega)
  have h1 := h 1 (by omega)
  simp only [Nat.add_zero] at h0
  rw [le16, le16, h0, h1]

theorem le32_congr {f g : ℕ → UInt8} {o p : ℕ} (h : ∀ k < 4, f (o + k) = g (p + k)) :
    le32 f o = le32 g p := by
  have h0 := h 0 (by omega)
  have h1 := h 1 (by omega)
  have h2 := h 2 (by omega)
  have h3 := h 3 (by omega)
  simp only [Nat.add_zero] at h0
  rw [le32, le32, h0, h1, h2, h3]

/-- A stored 16-bit word reads back. -/
theorem le16_eq {f : ℕ → UInt8} {o : ℕ} {w : UInt16}
    (h : ∀ k < 2, f (o + k) = byteOf w.toNat k) : le16 f o = w := by
  have h0 := h 0 (by omega)
  have h1 := h 1 (by omega)
  simp only [Nat.add_zero] at h0
  apply UInt16.toNat_inj.mp
  rw [le16, h0, h1]
  simp only [toNat_byteOf, UInt16.toNat_ofNat']
  have := w.toNat_lt
  omega

/-- A stored 32-bit word reads back. -/
theorem le32_eq {f : ℕ → UInt8} {o : ℕ} {w : UInt32}
    (h : ∀ k < 4, f (o + k) = byteOf w.toNat k) : le32 f o = w := by
  have h0 := h 0 (by omega)
  have h1 := h 1 (by omega)
  have h2 := h 2 (by omega)
  have h3 := h 3 (by omega)
  simp only [Nat.add_zero] at h0
  apply UInt32.toNat_inj.mp
  rw [le32, h0, h1, h2, h3]
  simp only [toNat_byteOf, UInt32.toNat_ofNat']
  have := w.toNat_lt
  omega

/-- A memory of zero bytes holds zero words. -/
theorem le32_zero {f : ℕ → UInt8} {o : ℕ} (h : ∀ k < 4, f (o + k) = 0) : le32 f o = 0 :=
  le32_eq fun k hk => by rw [h k hk]; simp [byteOf]

theorem le16_zero {f : ℕ → UInt8} {o : ℕ} (h : ∀ k < 2, f (o + k) = 0) : le16 f o = 0 :=
  le16_eq fun k hk => by rw [h k hk]; simp [byteOf]

/-- The bytes of an array of 64-bit words. -/
def leWords : List ℕ → List UInt8
  | [] => []
  | w :: ws => (List.range 8).map (byteOf w) ++ leWords ws

theorem length_leWords : ∀ ws : List ℕ, (leWords ws).length = 8 * ws.length
  | [] => rfl
  | w :: ws => by
    rw [leWords, List.length_append, List.length_map, List.length_range, length_leWords ws,
      List.length_cons]
    omega

/-- A byte of a word of the array. -/
theorem getD_leWords {k : ℕ} (hk : k < 8) : ∀ (ws : List ℕ) (i : ℕ), i < ws.length →
    (leWords ws).getD (8 * i + k) 0 = byteOf (ws.getD i 0) k := by
  intro ws
  induction ws with
  | nil => intro i hi; exact absurd hi (Nat.not_lt_zero i)
  | cons w ws ih =>
    intro i hi
    have hlen : ((List.range 8).map (byteOf w)).length = 8 := by simp
    rw [leWords]
    cases i with
    | zero =>
      rw [List.getD_append _ _ _ _ (by omega), Nat.mul_zero, Nat.zero_add, List.getD_cons_zero]
      simp [List.getD_eq_getElem?_getD, hk]
    | succ i =>
      rw [List.getD_append_right _ _ _ _ (by omega), hlen,
        show 8 * (i + 1) + k - 8 = 8 * i + k by omega, List.getD_cons_succ]
      exact ih i (by simpa using hi)

/-! ### Single bits -/

/-- The mask `1 << j` within a byte. -/
def bitMask (j : ℕ) : UInt8 := UInt8.ofNat (2 ^ j)

/-- Bit `j` of a byte, counted from the least significant one. -/
def testBit (b : UInt8) (j : ℕ) : Bool := b.toNat.testBit j

theorem toNat_bitMask {j : ℕ} (hj : j < 8) : (bitMask j).toNat = 2 ^ j := by
  have : 2 ^ j < 2 ^ 8 := Nat.pow_lt_pow_right (by omega) hj
  rw [bitMask, UInt8.toNat_ofNat']
  exact Nat.mod_eq_of_lt this

/-- Masking a byte gives zero exactly when the bit is clear. -/
theorem and_bitMask_eq_zero {b : UInt8} {j : ℕ} (hj : j < 8) :
    b &&& bitMask j = 0 ↔ testBit b j = false := by
  rw [← UInt8.toNat_inj, UInt8.toNat_and, toNat_bitMask hj, Nat.and_two_pow, testBit]
  cases b.toNat.testBit j <;> simp

theorem testBit_or_bitMask (b : UInt8) {j : ℕ} (hj : j < 8) (k : ℕ) :
    testBit (b ||| bitMask j) k = (testBit b k || decide (k = j)) := by
  rw [testBit, UInt8.toNat_or, toNat_bitMask hj, Nat.testBit_or, Nat.testBit_two_pow, testBit]
  simp [eq_comm]

theorem testBit_and_not_bitMask (b : UInt8) {j k : ℕ} (hj : j < 8) (hk : k < 8) :
    testBit (b &&& ~~~bitMask j) k = (testBit b k && !decide (k = j)) := by
  have hlt : 2 ^ j < 2 ^ 8 := Nat.pow_lt_pow_right (by omega) hj
  have hsub : UInt8.size - 1 - 2 ^ j = 2 ^ 8 - (2 ^ j + 1) := by
    simp only [UInt8.size]
    omega
  rw [testBit, UInt8.toNat_and, UInt8.toNat_not, toNat_bitMask hj, Nat.testBit_and, hsub,
    Nat.testBit_two_pow_sub_succ hlt, Nat.testBit_two_pow, testBit]
  simp [hk, eq_comm]

/-! ### Writing over part of a list -/

/-- The list `l` with `d` written over it from offset `o` on, extended when `d`
reaches past its end. -/
def splice {α : Type*} (l : List α) (o : ℕ) (d : List α) : List α :=
  l.take o ++ d ++ l.drop (o + d.length)

@[simp] theorem splice_nil {α : Type*} (l : List α) (o : ℕ) : splice l o [] = l := by
  simp [splice]

theorem length_splice {α : Type*} {l : List α} {o : ℕ} (d : List α) (ho : o ≤ l.length) :
    (splice l o d).length = max l.length (o + d.length) := by
  simp only [splice, List.length_append, List.length_take, List.length_drop]
  omega

/-- The entries of a spliced list: those written, and the old ones elsewhere. -/
theorem getElem?_splice {α : Type*} {l : List α} {o : ℕ} {d : List α} (ho : o ≤ l.length)
    (k : ℕ) : (splice l o d)[k]? =
      if o ≤ k ∧ k < o + d.length then d[k - o]? else l[k]? := by
  have hlen : (l.take o).length = o := by rw [List.length_take]; omega
  unfold splice
  split
  · next h =>
    rw [List.append_assoc, List.getElem?_append_right (by omega), hlen,
      List.getElem?_append_left (by omega)]
  · next h =>
    rcases Nat.lt_or_ge k o with hk | hk
    · rw [List.append_assoc, List.getElem?_append_left (by omega), List.getElem?_take_of_lt hk]
    · have hk' : o + d.length ≤ k := by
        by_contra hlt
        exact h ⟨hk, by omega⟩
      rw [List.getElem?_append_right (by rw [List.length_append, hlen]; omega),
        List.getElem?_drop, List.length_append, hlen]
      congr 1
      omega

/-- Reading what has been written. -/
theorem take_drop_splice {α : Type*} {l : List α} {o : ℕ} (d : List α) (ho : o ≤ l.length) :
    ((splice l o d).drop o).take d.length = d := by
  have hlen : (l.take o).length = o := by rw [List.length_take]; omega
  rw [splice, List.append_assoc, List.drop_left' hlen, List.take_left']
  rfl

/-- Writing at the end of a list appends to it. -/
theorem splice_length {α : Type*} (l d : List α) : splice l l.length d = l ++ d := by
  simp [splice]

/-- Writing two pieces one after the other is writing them at once. -/
theorem splice_splice {α : Type*} {l : List α} {o : ℕ} (d d' : List α) (ho : o ≤ l.length) :
    splice (splice l o d) (o + d.length) d' = splice l o (d ++ d') := by
  have hlen := length_splice d ho
  refine List.ext_getElem? fun k => ?_
  rw [getElem?_splice (by omega), getElem?_splice ho, getElem?_splice ho, List.length_append]
  by_cases hk : o ≤ k ∧ k < o + d.length
  · rw [if_neg (by omega), if_pos hk, if_pos (by omega), List.getElem?_append_left (by omega)]
  · rw [if_neg hk]
    by_cases hk' : o + d.length ≤ k ∧ k < o + d.length + d'.length
    · rw [if_pos hk', if_pos (by omega), List.getElem?_append_right (by omega), Nat.sub_add_eq]
    · rw [if_neg hk', if_neg (by omega)]

end Bytes
