import Xv6Ext2.Lib.Bytes

/-!
# Byte-addressed memory

A memory is a function from addresses to bytes.  This file has the accesses that kernel
code makes to it: words of several bytes, the lowest byte first, and ranges of bytes that are
filled or written over.

What an access does to another one depends only on whether their ranges overlap, so each
operation comes with one lemma for a byte that it covers and one for a byte that it does not,
and loads are compared byte by byte.

## Main definitions

* `load mem a n` — the number in the `n` bytes at `a`.
* `store mem a n w` — the memory with the `n` lowest bytes of `w` at `a`.
* `fill mem a n c` — the memory with `n` times the byte `c` at `a`.
* `put mem a bytes` — the memory with `bytes` at `a`.
* `blit mem p dst n buf` — the memory `buf` with `n` bytes of `mem` in it.

## Main results

* `load_congr` — a load depends on the bytes that it covers.
* `load_store`, `load_store_of_apart` — loads of what has been stored, and of anything else.
-/

namespace Memory

open Bytes

variable {mem mem' : ℕ → UInt8} {a b n m w x : ℕ} {c : UInt8} {bytes : List UInt8}

/-- The number in the `n` bytes at `a`. -/
def load (mem : ℕ → UInt8) (a : ℕ) : ℕ → ℕ
  | 0 => 0
  | n + 1 => load mem a n + 256 ^ n * (mem (a + n)).toNat

/-- The memory with the `n` lowest bytes of `w` at `a`. -/
def store (mem : ℕ → UInt8) (a n w : ℕ) : ℕ → UInt8 := fun x =>
  if a ≤ x ∧ x < a + n then byteOf w (x - a) else mem x

/-- The memory with `n` times the byte `c` at `a`: `memset(a, c, n)`. -/
def fill (mem : ℕ → UInt8) (a n : ℕ) (c : UInt8) : ℕ → UInt8 := fun x =>
  if a ≤ x ∧ x < a + n then c else mem x

/-- The memory with `bytes` at `a`: `memmove` from a buffer elsewhere. -/
def put (mem : ℕ → UInt8) (a : ℕ) (bytes : List UInt8) : ℕ → UInt8 := fun x =>
  if a ≤ x ∧ x < a + bytes.length then bytes.getD (x - a) 0 else mem x

/-- The buffer `buf` with `n` bytes of `mem` from `p` on at the place `dst`: `memmove`. -/
def blit (mem : ℕ → UInt8) (p dst n : ℕ) (buf : ℕ → UInt8) : ℕ → UInt8 := fun i =>
  if dst ≤ i ∧ i < dst + n then mem (p + (i - dst)) else buf i

/-- The ranges of `n` bytes at `a` and of `m` bytes at `b` do not overlap. -/
def Apart (a n b m : ℕ) : Prop := a + n ≤ b ∨ b + m ≤ a

/-! ### Single bytes -/

theorem store_of_not_mem (h : ¬(a ≤ x ∧ x < a + n)) : store mem a n w x = mem x := if_neg h

theorem fill_of_mem (h : a ≤ x ∧ x < a + n) : fill mem a n c x = c := if_pos h

theorem fill_of_not_mem (h : ¬(a ≤ x ∧ x < a + n)) : fill mem a n c x = mem x := if_neg h

theorem put_of_mem (h : a ≤ x ∧ x < a + bytes.length) :
    put mem a bytes x = bytes.getD (x - a) 0 := if_pos h

theorem put_of_not_mem (h : ¬(a ≤ x ∧ x < a + bytes.length)) : put mem a bytes x = mem x :=
  if_neg h

theorem blit_of_not_mem {buf : ℕ → UInt8} {p dst : ℕ} (h : ¬(dst ≤ x ∧ x < dst + n)) :
    blit mem p dst n buf x = buf x := if_neg h

theorem blit_add {buf : ℕ → UInt8} {p dst k : ℕ} (hk : k < n) :
    blit mem p dst n buf (dst + k) = mem (p + k) := by
  rw [blit, if_pos (by omega), Nat.add_sub_cancel_left]

@[simp] theorem blit_zero (mem : ℕ → UInt8) (p dst : ℕ) (buf : ℕ → UInt8) :
    blit mem p dst 0 buf = buf := funext fun _ => if_neg (by omega)

/-! ### Loads -/

theorem load_lt : ∀ n, load mem a n < 256 ^ n := by
  intro n
  induction n with
  | zero => exact Nat.one_pos
  | succ n ih =>
    have hbyte := (mem (a + n)).toNat_lt
    calc load mem a (n + 1)
        = load mem a n + 256 ^ n * (mem (a + n)).toNat := rfl
      _ < 256 ^ n + 256 ^ n * (mem (a + n)).toNat := by omega
      _ = 256 ^ n * ((mem (a + n)).toNat + 1) := by ring
      _ ≤ 256 ^ n * 256 := Nat.mul_le_mul_left _ (by omega)
      _ = 256 ^ (n + 1) := by ring

/-- **A load depends on the bytes that it covers.** -/
theorem load_congr : ∀ {n : ℕ}, (∀ k < n, mem' (b + k) = mem (a + k)) →
    load mem' b n = load mem a n := by
  intro n
  induction n with
  | zero => intro _; rfl
  | succ n ih =>
    intro h
    rw [load, load, ih fun k hk => h k (by omega), h n (Nat.lt_succ_self n)]

/-- A load of what has been stored. -/
theorem load_store : ∀ {n : ℕ}, n ≤ m → load (store mem a m w) a n = w % 256 ^ n := by
  intro n
  induction n with
  | zero => intro _; rw [load, pow_zero, Nat.mod_one]
  | succ n ih =>
    intro hn
    have hbyte : (store mem a m w (a + n)).toNat = w / 256 ^ n % 256 := by
      rw [store, if_pos (by omega), Nat.add_sub_cancel_left, toNat_byteOf]
    rw [load, ih (by omega), hbyte, pow_succ, Nat.mod_mul]

/-- A load of anything else. -/
theorem load_store_of_apart (h : Apart a n b m) :
    load (store mem b m w) a n = load mem a n := by
  refine load_congr fun k hk => store_of_not_mem ?_
  unfold Apart at h
  omega

/-- A load from zeros. -/
theorem load_zero : ∀ {n : ℕ}, (∀ k < n, mem (a + k) = 0) → load mem a n = 0 := by
  intro n
  induction n with
  | zero => intro _; rfl
  | succ n ih =>
    intro h
    rw [load, ih fun k hk => h k (by omega), h n (Nat.lt_succ_self n)]
    rfl

end Memory
