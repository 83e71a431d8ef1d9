import Xv6Ext2.Umalloc
import Xv6Ext2.Vm.Exec

/-!
# Growing and shrinking a program

`growproc` of `kernel/proc.c` and `sys_sbrk` of `kernel/sysproc.c`, on physical memory.  The
allocator of user programs sees the sizes only, and it is modelled over those
(`Umalloc.Heap.sbrk`), for a machine that gives a program at most its 128 MB.  Here this is
derived: pages of a program are different pages of the machine.

## Main definitions

* `growproc`, `sysSbrk` — the source functions.

## Main results

* `Space.sz_le` — a program is not larger than the memory of the machine.
* `sysSbrk_returns` — **`sbrk` is what the allocator takes it for**, and leaves an address space.
-/

namespace Xv6Ext2.Vm

open Prog

/-- Grow or shrink the memory of a process by `n` bytes: 0 or -1, and the memory of the process.
The sum `sz + n` wraps. -/
def growproc (x : ProcMem) (n : ℤ) : PM (ℤ × ProcMem) := do
  if n > 0 then do
    let sz ← uvmalloc x.pagetable x.sz ((x.sz + n) % 2 ^ 64).toNat PTE_W
    if sz = 0 then return (-1, x) else return (0, { x with sz := sz })
  else if n < 0 then do
    let sz ← uvmdealloc x.pagetable x.sz ((x.sz + n) % 2 ^ 64).toNat
    return (0, { x with sz := sz })
  else return (0, x)

/-- `sbrk(n)`: where the memory of the process ended, or `none` for -1. -/
def sysSbrk (x : ProcMem) (n : ℤ) : PM (Option ℕ × ProcMem) := do
  let addr := x.sz
  let o ← growproc x n
  if o.1 < 0 then return (none, o.2) else return (some addr, o.2)

variable {s t : Phys} {r sz : ℕ} {top : ℕ → ℕ} {rest : Set ℕ} {x : ProcMem} {n : ℤ}

theorem Space.sz_le (h : Space s r (pages sz) top rest) : sz ≤ 2 ^ 27 := by
  have hle := h.le
  unfold pages at hle
  simp only [PGSIZE, PHYSTOP, KERNBASE] at hle
  omega

/-- The sizes are those of `Umalloc.growproc`, on a machine that keeps to its memory. -/
def Sized (x : ProcMem) (n : ℤ) (top : ℕ → ℕ) (rest : Set ℕ) (o : ℤ × ProcMem) (t : Phys) :
    Prop :=
  o.2.pagetable = x.pagetable ∧ Space t x.pagetable (pages o.2.sz) top rest ∧
    ∃ alloc, Umalloc.InMemory alloc ∧
      (o = (-1, x) ∧ Umalloc.growproc alloc x.sz n = none ∨
        o.1 = 0 ∧ Umalloc.growproc alloc x.sz n = some o.2.sz)

theorem growproc_returns (h : Space s x.pagetable (pages x.sz) top rest) (hn : n < 2 ^ 31) :
    Returns (growproc x n) s (Sized x n top rest) := by
  have hsz := h.sz_le
  have hnone : Umalloc.InMemory fun _ _ => false := fun _ _ hfalse => nomatch hfalse
  unfold growproc
  by_cases hpos : n > 0
  · rw [if_pos hpos]
    -- the sum does not wrap, as the size is at most 128 MB
    have hsum : ((x.sz + n) % 2 ^ 64).toNat = x.sz + n.toNat := by omega
    rw [hsum]
    refine (uvmalloc_returns (by decide) h _).bind fun sz t ht => ?_
    rcases ht with ⟨rfl, ht⟩ | ⟨rfl, ht⟩
    · exact Yields.of_ok rfl ⟨rfl, ht.space, _, hnone, Or.inl ⟨rfl, by
        rw [Umalloc.growproc, if_pos hpos]; rfl⟩⟩
    · rw [Nat.max_eq_right (by omega)] at ht ⊢
      rw [if_neg (by omega)]
      have hle := ht.space.sz_le
      refine Yields.of_ok rfl ⟨rfl, ht.space, fun sz k => decide (sz + k = x.sz + n.toNat),
        fun sz k hk => (of_decide_eq_true hk).trans_le hle, Or.inr ⟨rfl, ?_⟩⟩
      rw [Umalloc.growproc, if_pos hpos, if_pos (decide_eq_true rfl)]
  · rw [if_neg hpos]
    by_cases hneg : n < 0
    · rw [if_pos hneg]
      refine (uvmdealloc_returns h _).bind fun sz t ht => ?_
      obtain ⟨rfl, ht⟩ := ht
      refine Yields.of_ok rfl ⟨rfl, ht.space, _, hnone, Or.inr ⟨rfl, ?_⟩⟩
      rw [Umalloc.growproc, if_neg hpos, if_pos hneg, Umalloc.uvmdealloc]
      exact congrArg some (Nat.min_def ..).symm
    · rw [if_neg hneg]
      exact Yields.of_ok rfl ⟨rfl, h, _, hnone, Or.inr ⟨rfl, by
        rw [Umalloc.growproc, if_neg hpos, if_neg hneg]⟩⟩

/-- **`sbrk` is what the allocator takes it for**: it answers with where the memory of the
process ended, or with -1, never gives more than the machine has, and leaves an address space of
the new size. -/
theorem sysSbrk_returns (h : Space s x.pagetable (pages x.sz) top rest) (hn : n < 2 ^ 31) :
    Returns (sysSbrk x n) s fun o t =>
      o.2.pagetable = x.pagetable ∧ Space t x.pagetable (pages o.2.sz) top rest ∧
        o.2.sz ≤ 2 ^ 27 ∧ ∃ alloc, Umalloc.InMemory alloc ∧ ∀ w : Umalloc.Heap, w.sz = x.sz →
          w.sbrk alloc n = (o.1, { w with sz := o.2.sz, log := (n, o.1) :: w.log }) := by
  refine (growproc_returns h hn).bind fun o t ht => ?_
  obtain ⟨hroot, hspace, alloc, halloc, ⟨rfl, hgrow⟩ | ⟨hzero, hgrow⟩⟩ := ht
  · refine Yields.of_ok rfl ⟨rfl, hspace, hspace.sz_le, alloc, halloc, fun w hw => ?_⟩
    rw [Umalloc.Heap.sbrk, hw, hgrow, ← hw]
  · rw [if_neg (by omega)]
    refine Yields.of_ok rfl ⟨hroot, hspace, hspace.sz_le, alloc, halloc, fun w hw => ?_⟩
    rw [Umalloc.Heap.sbrk, hw, hgrow]

end Xv6Ext2.Vm
