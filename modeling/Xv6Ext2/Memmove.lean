import Mathlib.Algebra.Ring.Nat
import Mathlib.Order.Basic

/-!
# `memmove`, twice

`kernel/string.c` and `user/ulib.c` each have a `memmove`.  Both copy byte by byte, from the
front or from the back, and they choose the direction by different tests: the kernel goes from
the back only where the end of the source reaches into the destination, the library wherever the
source is not behind the destination.

## Main definitions

* `copyUp`, `copyDown` — the two loops.
* `KernelString.memmove`, `Ulib.memmove` — the functions of the source.
* `Snapshot` — the destination holds the source as it was, and nothing else has changed.

## Main results

* `copyUp_snapshot`, `copyDown_snapshot` — where each direction is right.
* `memmove_snapshot` — **both functions copy a snapshot** of the source.
-/

namespace Xv6Ext2

open Function

/-- The memory that a pointer points into. -/
abbrev Bytewise := UInt64 → UInt8

/-- `while(n-- > 0) *d++ = *s++;` -/
def copyUp : ℕ → Bytewise → UInt64 → UInt64 → Bytewise
  | 0, mem, _, _ => mem
  | n + 1, mem, d, s => copyUp n (update mem d (mem s)) (d + 1) (s + 1)

/-- `while(n-- > 0) *--d = *--s;` -/
def copyDown : ℕ → Bytewise → UInt64 → UInt64 → Bytewise
  | 0, mem, _, _ => mem
  | n + 1, mem, d, s => copyDown n (update mem (d - 1) (mem (s - 1))) (d - 1) (s - 1)

/-- `memmove(dst, src, n)` of the kernel: the result, and memory. -/
def KernelString.memmove (mem : Bytewise) (dst src : UInt64) (n : UInt32) : UInt64 × Bytewise :=
  if n = 0 then (dst, mem)
  else if src < dst ∧ dst < src + n.toUInt64 then
    (dst, copyDown n.toNat mem (dst + n.toUInt64) (src + n.toUInt64))
  else (dst, copyUp n.toNat mem dst src)

/-- `memmove(vdst, vsrc, n)` of the user library: the result, and memory. -/
def Ulib.memmove (mem : Bytewise) (vdst vsrc : UInt64) (n : Int32) : UInt64 × Bytewise :=
  if vdst < vsrc then (vdst, copyUp n.toInt.toNat mem vdst vsrc)
  else
    (vdst, copyDown n.toInt.toNat mem (vdst + n.toInt64.toUInt64) (vsrc + n.toInt64.toUInt64))

/-! ### Snapshots -/

/-- The `n` bytes at `dst` are those that were at `src`, and all others are as they were. -/
structure Snapshot (mem mem' : Bytewise) (dst src : UInt64) (n : ℕ) : Prop where
  copied : ∀ i < n, mem' (dst + UInt64.ofNat i) = mem (src + UInt64.ofNat i)
  rest : ∀ a : UInt64, a.toNat < dst.toNat ∨ dst.toNat + n ≤ a.toNat → mem' a = mem a

/-- No pointer into the range wraps, nor the one past its end, which the code computes. -/
def NoWrap (p : UInt64) (n : ℕ) : Prop := p.toNat + n < 2 ^ 64

variable {mem : Bytewise} {d s p : UInt64} {n i : ℕ}

theorem NoWrap.toNat_add (h : NoWrap p n) (hi : i ≤ n) :
    (p + UInt64.ofNat i).toNat = p.toNat + i := by
  unfold NoWrap at h
  rw [UInt64.toNat_add, UInt64.toNat_ofNat', Nat.mod_eq_of_lt (show i < 2 ^ 64 by omega),
    Nat.mod_eq_of_lt (show p.toNat + i < 2 ^ 64 by omega)]

theorem add_ofNat_succ (p : UInt64) (i : ℕ) :
    p + UInt64.ofNat (i + 1) = p + 1 + UInt64.ofNat i := by
  rw [UInt64.ofNat_add, UInt64.add_comm (UInt64.ofNat i), ← UInt64.add_assoc]
  rfl

theorem Snapshot.zero (mem : Bytewise) (d s : UInt64) : Snapshot mem mem d s 0 :=
  ⟨fun i hi => absurd hi (Nat.not_lt_zero i), fun _ _ => rfl⟩

/-- **Copying from the front** is right if the source is not in front of the destination, or ends
before it. -/
theorem copyUp_snapshot : ∀ (n : ℕ) (mem : Bytewise) (d s : UInt64), NoWrap d n → NoWrap s n →
    d.toNat ≤ s.toNat ∨ s.toNat + n ≤ d.toNat → Snapshot mem (copyUp n mem d s) d s n := by
  intro n
  induction n with
  | zero => intro mem d s _ _ _; exact Snapshot.zero mem d s
  | succ n ih =>
    intro mem d s hd hs hap
    have hd1 : (d + 1).toNat = d.toNat + 1 := hd.toNat_add (i := 1) (by omega)
    have hs1 : (s + 1).toNat = s.toNat + 1 := hs.toNat_add (i := 1) (by omega)
    unfold NoWrap at hd hs
    obtain ⟨hcopied, hrest⟩ := ih (update mem d (mem s)) (d + 1) (s + 1)
      (by unfold NoWrap; omega) (by unfold NoWrap; omega) (by omega)
    refine ⟨fun i hi => ?_, fun a ha => ?_⟩
    · cases i with
      | zero =>
        have hfirst := hrest d (Or.inl (by omega))
        rw [update_self] at hfirst
        rw [copyUp]
        simpa using hfirst
      | succ i =>
        -- the byte that has been written is not one that is still to be read
        have hi1 : (s + 1 + UInt64.ofNat i).toNat = s.toNat + 1 + i := by
          rw [NoWrap.toNat_add (n := n) (by unfold NoWrap; omega) (by omega), hs1]
        have hne : s + 1 + UInt64.ofNat i ≠ d := by
          intro heq
          rw [heq] at hi1
          omega
        rw [add_ofNat_succ, add_ofNat_succ, copyUp, hcopied i (by omega),
          update_of_ne hne]
    · have hne : a ≠ d := by
        rintro rfl
        omega
      rw [copyUp, hrest a (by omega), update_of_ne hne]

/-- **Copying from the back** is right if the source is not behind the destination, or begins
after it. -/
theorem copyDown_snapshot : ∀ (n : ℕ) (mem : Bytewise) (d s : UInt64), NoWrap d n → NoWrap s n →
    s.toNat ≤ d.toNat ∨ d.toNat + n ≤ s.toNat →
      Snapshot mem (copyDown n mem (d + UInt64.ofNat n) (s + UInt64.ofNat n)) d s n := by
  intro n
  induction n with
  | zero => intro mem d s _ _ _; exact Snapshot.zero mem d s
  | succ n ih =>
    intro mem d s hd hs hap
    have hlast : ∀ p : UInt64, p + UInt64.ofNat (n + 1) - 1 = p + UInt64.ofNat n := by
      intro p
      rw [UInt64.ofNat_add, ← UInt64.add_assoc]
      exact UInt64.add_sub_cancel _ _
    have hdn := hd.toNat_add (i := n) (by omega)
    have hsn : ∀ i ≤ n, (s + UInt64.ofNat i).toNat = s.toNat + i := fun i hi =>
      hs.toNat_add (by omega)
    unfold NoWrap at hd hs
    rw [copyDown, hlast, hlast]
    obtain ⟨hcopied, hrest⟩ := ih (update mem (d + UInt64.ofNat n)
      (mem (s + UInt64.ofNat n))) d s (by unfold NoWrap; omega) (by unfold NoWrap; omega) (by omega)
    refine ⟨fun i hi => ?_, fun a ha => ?_⟩
    · rcases Nat.lt_succ_iff_lt_or_eq.mp hi with hi | rfl
      · -- the byte that has been written is not one that is still to be read
        have hne : s + UInt64.ofNat i ≠ d + UInt64.ofNat n := by
          intro heq
          have := hsn i (Nat.le_of_lt hi)
          rw [heq] at this
          omega
        rw [hcopied i hi, update_of_ne hne]
      · rw [hrest _ (Or.inr (by omega)), update_self]
    · have hne : a ≠ d + UInt64.ofNat n := by
        rintro rfl
        omega
      rw [hrest a (by omega), update_of_ne hne]

/-- **Both functions copy a snapshot** of the source, whatever the overlap, and return the
destination. -/
theorem memmove_snapshot (mem : Bytewise) (dst src : UInt64) :
    (∀ n : UInt32, NoWrap dst n.toNat → NoWrap src n.toNat →
      ∃ mem', KernelString.memmove mem dst src n = (dst, mem') ∧
        Snapshot mem mem' dst src n.toNat) ∧
    ∀ n : Int32, 0 ≤ n → NoWrap dst n.toInt.toNat → NoWrap src n.toInt.toNat →
      ∃ mem', Ulib.memmove mem dst src n = (dst, mem') ∧
        Snapshot mem mem' dst src n.toInt.toNat := by
  constructor
  · intro n hdst hsrc
    have hlen : n.toUInt64 = UInt64.ofNat n.toNat := by simp
    have hend := hsrc.toNat_add (Nat.le_refl _)
    unfold KernelString.memmove
    by_cases hzero : n = 0
    · refine ⟨mem, if_pos hzero, ?_⟩
      rw [hzero]
      exact Snapshot.zero mem dst src
    rw [if_neg hzero, hlen]
    by_cases hover : src < dst ∧ dst < src + UInt64.ofNat n.toNat
    · refine ⟨_, if_pos hover, copyDown_snapshot _ mem dst src hdst hsrc (Or.inl ?_)⟩
      have := UInt64.lt_iff_toNat_lt.mp hover.1
      omega
    · refine ⟨_, if_neg hover, copyUp_snapshot _ mem dst src hdst hsrc ?_⟩
      rw [UInt64.lt_iff_toNat_lt, UInt64.lt_iff_toNat_lt, hend] at hover
      omega
  · intro n hn hdst hsrc
    have hlen : n.toInt64.toUInt64 = UInt64.ofNat n.toInt.toNat := by
      have hwide : n.toInt64.toBitVec.toInt = n.toInt := Int32.toInt_toInt64 n
      have hcond := n.toInt64.toBitVec.toInt_eq_toNat_cond
      have hnat : n.toInt64.toUInt64.toNat = n.toInt64.toBitVec.toNat := rfl
      rw [Int32.le_iff_toInt_le, Int32.toInt_zero] at hn
      rw [← UInt64.toNat_inj, UInt64.toNat_ofNat']
      omega
    unfold Ulib.memmove
    rw [hlen]
    by_cases hbehind : dst < src
    · refine ⟨_, if_pos hbehind, copyUp_snapshot _ mem dst src hdst hsrc (Or.inl ?_)⟩
      have := UInt64.lt_iff_toNat_lt.mp hbehind
      omega
    · refine ⟨_, if_neg hbehind, copyDown_snapshot _ mem dst src hdst hsrc (Or.inl ?_)⟩
      rw [UInt64.lt_iff_toNat_lt] at hbehind
      omega

/-- Three bytes, moved by one. -/
theorem memmove_snapshot_overlap :
    (∃ mem', KernelString.memmove UInt64.toUInt8 1 0 3 = (1, mem') ∧
      Snapshot UInt64.toUInt8 mem' 1 0 3) ∧
    ∃ mem', Ulib.memmove UInt64.toUInt8 1 0 3 = (1, mem') ∧
      Snapshot UInt64.toUInt8 mem' 1 0 3 := by
  have hdst : NoWrap 1 3 := by unfold NoWrap; decide
  have hsrc : NoWrap 0 3 := by unfold NoWrap; decide
  obtain ⟨hkernel, huser⟩ := memmove_snapshot UInt64.toUInt8 1 0
  exact ⟨hkernel 3 hdst hsrc, huser 3 (by decide) hdst hsrc⟩

end Xv6Ext2
