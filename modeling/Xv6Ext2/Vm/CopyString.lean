import Xv6Ext2.Vm.Copy

/-!
# Strings from user memory

`copyinstr` of `kernel/vm.c` and `fetchstr` of `kernel/syscall.c`.  The loop over the pages and the
loop over the bytes of a page share the count of bytes that may still be copied.  The buffer is a
function, so that what is not written can be seen to stay.

`walkaddr` returns 0 for an address that is not mapped, so a page at the physical address 0 would
count as not mapped; there is no memory there.

## Main definitions

* `copyinstr`, `fetchstr` — the source functions.
* `NulAt mem r va k` — the string at the user address `va` ends after `k` bytes, and all of it can
  be read.

## Main results

* `copyinstr_exact` — **strings are copied exactly, and never past the limit**; `fetchstr` returns
  the length of the string, or −1.
-/

namespace Xv6Ext2.Vm

open Memory Prog

variable {s t : Phys} {mem buf : ℕ → UInt8} {r n k va dst max p : ℕ}

/-! ### The source functions -/

/-- The inner loop of `copyinstr`, with `n` bytes of the page left: the buffer, the place in it,
the count of bytes that may still be copied, and whether the end of the string has been found. -/
def copyinstrPage (mem : ℕ → UInt8) :
    ℕ → ℕ → ℕ → ℕ → (ℕ → UInt8) → (ℕ → UInt8) × ℕ × ℕ × Bool
  | 0, _, dst, max, buf => (buf, dst, max, false)
  | n + 1, p, dst, max, buf =>
    if mem p = 0 then (Function.update buf dst 0, dst, max, true)
    else copyinstrPage mem n (p + 1) (dst + 1) (max - 1) (Function.update buf dst (mem p))

/-- The outer loop of `copyinstr`, with so many rounds left. -/
def copyinstrLoop (pagetable : ℕ) : ℕ → ℕ → ℕ → ℕ → (ℕ → UInt8) → PM ((ℕ → UInt8) × Bool)
  | _, _, _, 0, buf => return (buf, false)
  | 0, _, _, _ + 1, _ => throw .fuel
  | rounds + 1, srcva, dst, max + 1, buf => do
    let va0 := pgrounddown srcva
    let pa0 ← walkaddr pagetable va0
    if pa0 = 0 then return (buf, false)
    else do
      let n := min (PGSIZE - (srcva - va0)) (max + 1)
      let s ← get
      let o := copyinstrPage s.mem n (pa0 + (srcva - va0)) dst (max + 1) buf
      if o.2.2.2 then return (o.1, true)
      else copyinstrLoop pagetable rounds ((va0 + PGSIZE) % 2 ^ 64) o.2.1 o.2.2.1 o.1

/-- Copy a string from a user address into a buffer, up to its end or `max` bytes: the buffer,
and whether the end has been copied. -/
def copyinstr (pagetable : ℕ) (dst : ℕ → UInt8) (srcva max : ℕ) : PM ((ℕ → UInt8) × Bool) :=
  copyinstrLoop pagetable max srcva 0 max dst

/-- `strlen` from the place `n` of a buffer on, with so many bytes of the buffer left. -/
def strlenLoop (s : ℕ → UInt8) : ℕ → ℕ → PM ℕ
  | 0, _ => throw .fault
  | left + 1, n => if s n = 0 then return n else strlenLoop s left (n + 1)

/-- Fetch the string at a user address: the buffer, and the length of the string or −1. -/
def fetchstr (pagetable addr : ℕ) (buf : ℕ → UInt8) (max : ℕ) : PM ((ℕ → UInt8) × ℤ) := do
  let o ← copyinstr pagetable buf addr max
  if o.2 = false then return (o.1, -1)
  else do
    let n ← strlenLoop o.1 max 0
    return (o.1, n)

/-! ### Within a page -/

theorem blit_cons (mem : ℕ → UInt8) (p dst n : ℕ) (buf : ℕ → UInt8) :
    blit mem (p + 1) (dst + 1) n (Function.update buf dst (mem p)) =
      blit mem p dst (n + 1) buf := by
  funext i
  unfold blit
  by_cases hi : i = dst
  · rw [if_neg (by omega), if_pos (by omega), hi, Function.update_self, Nat.sub_self, Nat.add_zero]
  · rw [Function.update_of_ne hi]
    by_cases hin : dst + 1 ≤ i ∧ i < dst + 1 + n
    · rw [if_pos hin, if_pos (by omega), show p + 1 + (i - (dst + 1)) = p + (i - dst) by omega]
    · rw [if_neg hin, if_neg (by omega)]

/-- The string ends in the page. -/
theorem copyinstrPage_of_end : ∀ (n k p dst max : ℕ) (buf : ℕ → UInt8), k < n → mem (p + k) = 0 →
    (∀ j < k, mem (p + j) ≠ 0) →
      copyinstrPage mem n p dst max buf = (blit mem p dst (k + 1) buf, dst + k, max - k, true) := by
  intro n
  induction n with
  | zero => intro k p dst max buf hk; omega
  | succ n ih =>
    intro k p dst max buf hk hend hbefore
    rw [copyinstrPage]
    rcases k with _ | k
    · rw [Nat.add_zero] at hend
      rw [if_pos hend, ← blit_cons, blit_zero, hend]
      rfl
    · have hfirst : mem p ≠ 0 := hbefore 0 (Nat.succ_pos k)
      rw [if_neg hfirst, ih k (p + 1) (dst + 1) (max - 1) _ (by omega)
        (by rwa [Nat.add_assoc, Nat.add_comm 1 k]) fun j hj => by
          rw [Nat.add_assoc, Nat.add_comm 1 j]; exact hbefore (j + 1) (by omega), blit_cons]
      refine Prod.ext rfl (Prod.ext ?_ (Prod.ext ?_ rfl))
      · exact Nat.add_right_comm dst 1 k
      · show max - 1 - k = max - (k + 1)
        omega

/-- The string does not end in the page. -/
theorem copyinstrPage_of_no_end : ∀ (n p dst max : ℕ) (buf : ℕ → UInt8),
    (∀ j < n, mem (p + j) ≠ 0) →
      copyinstrPage mem n p dst max buf = (blit mem p dst n buf, dst + n, max - n, false) := by
  intro n
  induction n with
  | zero =>
    intro p dst max buf _
    rw [blit_zero]
    rfl
  | succ n ih =>
    intro p dst max buf hbefore
    have hfirst : mem p ≠ 0 := hbefore 0 (Nat.succ_pos n)
    have hrest : ∀ j < n, mem (p + 1 + j) ≠ 0 := fun j hj => by
      rw [Nat.add_assoc, Nat.add_comm 1 j]
      exact hbefore (j + 1) (by omega)
    rw [copyinstrPage, if_neg hfirst, ih (p + 1) (dst + 1) (max - 1) _ hrest, blit_cons]
    refine Prod.ext rfl (Prod.ext ?_ (Prod.ext ?_ rfl))
    · exact Nat.add_right_comm dst 1 n
    · show max - 1 - n = max - (n + 1)
      omega

/-! ### Over the pages -/

/-- The user address `va` can be read. -/
def Readable (mem : ℕ → UInt8) (r va : ℕ) : Prop :=
  UserPte mem r (va / PGSIZE) ∧ frameOf mem r (va / PGSIZE) ≠ 0

/-- The string at the user address `va` ends after `k` bytes, and all of it can be read. -/
structure NulAt (mem : ℕ → UInt8) (r va k : ℕ) : Prop where
  readable : ∀ j ≤ k, Readable mem r (va + j)
  last : mem (paddr mem r (va + k)) = 0
  before : ∀ j < k, mem (paddr mem r (va + j)) ≠ 0

theorem NulAt.unique {k' : ℕ} (h : NulAt mem r va k) (h' : NulAt mem r va k') : k = k' := by
  rcases Nat.lt_trichotomy k k' with hlt | heq | hlt
  · exact absurd h.last (h'.before k hlt)
  · exact heq
  · exact absurd h'.last (h.before k' hlt)

/-- A string that does not end in its first `n` bytes. -/
theorem nulAt_add (hread : ∀ j < n, Readable mem r (va + j))
    (hbefore : ∀ j < n, mem (paddr mem r (va + j)) ≠ 0) :
    NulAt mem r va (n + k) ↔ NulAt mem r (va + n) k := by
  constructor
  · intro h
    refine ⟨fun j hj => ?_, ?_, fun j hj => ?_⟩
    · rw [Nat.add_assoc]
      exact h.readable (n + j) (by omega)
    · rw [Nat.add_assoc]
      exact h.last
    · rw [Nat.add_assoc]
      exact h.before (n + j) (by omega)
  · intro h
    have hsum : ∀ j, n ≤ j → va + j = va + n + (j - n) := fun j hj => by omega
    refine ⟨fun j hj => ?_, ?_, fun j hj => ?_⟩
    · rcases Nat.lt_or_ge j n with hlt | hge
      · exact hread j hlt
      · rw [hsum j hge]
        exact h.readable (j - n) (by omega)
    · rw [← Nat.add_assoc]
      exact h.last
    · rcases Nat.lt_or_ge j n with hlt | hge
      · exact hbefore j hlt
      · rw [hsum j hge]
        exact h.before (j - n) (by omega)

/-- What copying a string of less than `max` bytes into the buffer does. -/
structure CopiedStr (mem : ℕ → UInt8) (r va dst max : ℕ) (buf : ℕ → UInt8)
    (o : (ℕ → UInt8) × Bool) : Prop where
  ok : o.2 = true ↔ ∃ k < max, NulAt mem r va k
  exact : ∀ k < max, NulAt mem r va k → ∀ i, o.1 i =
    if dst ≤ i ∧ i ≤ dst + k then mem (paddr mem r (va + (i - dst))) else buf i
  outside : ∀ i, ¬(dst ≤ i ∧ i < dst + max) → o.1 i = buf i

/-- The addresses of one page. -/
theorem paddr_add (mem : ℕ → UInt8) (r : ℕ) {j : ℕ} (hj : va - va / PGSIZE * PGSIZE + j < PGSIZE) :
    (va + j) / PGSIZE = va / PGSIZE ∧
      paddr mem r (va + j) = frameOf mem r (va / PGSIZE) + (va - va / PGSIZE * PGSIZE) + j := by
  have hpage : (va + j) / PGSIZE = va / PGSIZE ∧
      (va + j) % PGSIZE = va - va / PGSIZE * PGSIZE + j := by
    simp only [PGSIZE] at *
    omega
  exact ⟨hpage.1, by rw [paddr, hpage.1, hpage.2, Nat.add_assoc]⟩

/-- The copy ends in a page whose bytes are at `p`. -/
theorem CopiedStr.of_end (hread : ∀ j < n, Readable mem r (va + j))
    (hpage : ∀ j < n, paddr mem r (va + j) = p + j) (hk : k < n) (hn : n ≤ max)
    (hend : mem (p + k) = 0) (hbefore : ∀ j < k, mem (p + j) ≠ 0) :
    CopiedStr mem r va dst max buf (blit mem p dst (k + 1) buf, true) := by
  have hnul : NulAt mem r va k := by
    refine ⟨fun j hj => hread j (by omega), by rwa [hpage k hk], fun j hj => ?_⟩
    rw [hpage j (by omega)]
    exact hbefore j hj
  refine ⟨iff_of_true rfl ⟨k, by omega, hnul⟩, fun k' _ hnul' i => ?_,
    fun i hi => if_neg (by omega)⟩
  obtain rfl := hnul.unique hnul'
  dsimp only [blit]
  by_cases hi : dst ≤ i ∧ i ≤ dst + k
  · rw [if_pos (by omega), if_pos hi, hpage (i - dst) (by omega)]
  · rw [if_neg (by omega), if_neg hi]

/-- The copy goes on after the `n` bytes of a page. -/
theorem CopiedStr.of_rest {va' : ℕ} {o : (ℕ → UInt8) × Bool}
    (hread : ∀ j < n, Readable mem r (va + j))
    (hpage : ∀ j < n, paddr mem r (va + j) = p + j) (hn : n ≤ max)
    (hbefore : ∀ j < n, mem (p + j) ≠ 0) (hnext : va' = va + n ∨ n = max)
    (h : CopiedStr mem r va' (dst + n) (max - n) (blit mem p dst n buf) o) :
    CopiedStr mem r va dst max buf o := by
  have hbytes : ∀ j < n, mem (paddr mem r (va + j)) ≠ 0 := fun j hj => by
    rw [hpage j hj]
    exact hbefore j hj
  have hlong : ∀ k, NulAt mem r va k → n ≤ k := fun k hk => by
    by_contra hlt
    exact hbytes k (by omega) hk.last
  have hshift : ∀ k < max, NulAt mem r va k ↔ n ≤ k ∧ NulAt mem r va' (k - n) := fun k hk => by
    rcases hnext with rfl | rfl
    · constructor
      · intro hnul
        have hle := hlong k hnul
        refine ⟨hle, (nulAt_add hread hbytes).mp ?_⟩
        rwa [Nat.add_sub_of_le hle]
      · intro hnul
        have := (nulAt_add hread hbytes).mpr hnul.2
        rwa [Nat.add_sub_of_le hnul.1] at this
    · exact iff_of_false (fun hnul => by have := hlong k hnul; omega) fun hnul => by omega
  refine ⟨h.ok.trans ⟨fun ⟨k, hk, hnul⟩ => ?_, fun ⟨k, hk, hnul⟩ => ?_⟩, fun k hk hnul i => ?_,
    fun i hi => ?_⟩
  · refine ⟨n + k, by omega, (hshift _ (by omega)).mpr ⟨by omega, ?_⟩⟩
    rwa [Nat.add_sub_cancel_left]
  · have hnul' := (hshift k hk).mp hnul
    exact ⟨k - n, by omega, hnul'.2⟩
  · have hnul' := (hshift k hk).mp hnul
    have hva' : va' = va + n := hnext.resolve_right (by omega)
    rw [h.exact (k - n) (by omega) hnul'.2 i]
    unfold blit
    by_cases hlow : dst ≤ i ∧ i < dst + n
    · rw [if_neg (by omega), if_pos hlow, if_pos (by omega), hpage (i - dst) (by omega)]
    · rw [if_neg hlow]
      by_cases hhigh : dst + n ≤ i ∧ i ≤ dst + n + (k - n)
      · have haddr : va + n + (i - (dst + n)) = va + (i - dst) := by omega
        rw [if_pos hhigh, if_pos (by omega), hva', haddr]
      · rw [if_neg hhigh, if_neg (by omega)]
  · rw [h.outside i (by omega)]
    exact if_neg (by omega)

theorem copyinstrLoop_returns (s : Phys) : ∀ (rounds va dst max : ℕ) (buf : ℕ → UInt8),
    max ≤ rounds → Returns (copyinstrLoop r rounds va dst max buf) s fun o t =>
      t = s ∧ CopiedStr s.mem r va dst max buf o := by
  intro rounds
  induction rounds with
  | zero =>
    intro va dst max buf hmax
    obtain rfl : max = 0 := by omega
    exact Yields.of_ok rfl ⟨rfl, by simp, fun k hk => absurd hk (Nat.not_lt_zero k), fun _ _ => rfl⟩
  | succ rounds ih =>
    intro va dst max buf hmax
    rcases max with _ | max
    · exact Yields.of_ok rfl
        ⟨rfl, by simp, fun k hk => absurd hk (Nat.not_lt_zero k), fun _ _ => rfl⟩
    rw [copyinstrLoop]
    dsimp only
    refine Yields.of_eq (bind_of_ok (walkaddr_eq _ s)) ?_
    rw [pgrounddown_div]
    by_cases hread : Readable s.mem r va
    · rw [if_pos hread.1, if_neg hread.2, hread.1.next]
      refine Yields.of_eq (bind_of_ok (get_apply s)) ?_
      generalize hn : min (PGSIZE - (va - pgrounddown va)) (max + 1) = n
      have hle : ∀ j < n, va - va / PGSIZE * PGSIZE + j < PGSIZE := fun j hj => by
        unfold pgrounddown at hn
        omega
      have hreads : ∀ j < n, Readable s.mem r (va + j) := fun j hj => by
        unfold Readable
        rwa [(paddr_add s.mem r (hle j hj)).1]
      have hpage := fun j (hj : j < n) => (paddr_add s.mem r (hle j hj)).2
      have hnext : va / PGSIZE * PGSIZE + PGSIZE = va + n ∨ n = max + 1 := by
        unfold pgrounddown at hn
        simp only [PGSIZE] at *
        omega
      by_cases hend : ∃ k < n, s.mem (frameOf s.mem r (va / PGSIZE) + (va - pgrounddown va) + k) = 0
      · have hfirst := Nat.find_spec hend
        have hbefore : ∀ j < Nat.find hend,
            s.mem (frameOf s.mem r (va / PGSIZE) + (va - pgrounddown va) + j) ≠ 0 :=
          fun j hj hzero => Nat.find_min hend hj ⟨by omega, hzero⟩
        rw [copyinstrPage_of_end n (Nat.find hend) _ dst (max + 1) buf hfirst.1 hfirst.2 hbefore]
        exact Yields.of_ok rfl
          ⟨rfl, CopiedStr.of_end hreads hpage hfirst.1 (by omega) hfirst.2 hbefore⟩
      · have hno : ∀ j < n, s.mem (frameOf s.mem r (va / PGSIZE) + (va - pgrounddown va) + j) ≠ 0 :=
          fun j hj hzero => hend ⟨j, hj, hzero⟩
        rw [copyinstrPage_of_no_end n _ dst (max + 1) buf hno]
        refine (ih _ _ _ _ (by unfold pgrounddown at hn; simp only [PGSIZE] at *; omega)).mono
          fun o t ho => ⟨ho.1, ho.2.of_rest hreads hpage (by omega) hno hnext⟩
    · have hzero :
          (if UserPte s.mem r (va / PGSIZE) then frameOf s.mem r (va / PGSIZE) else 0) = 0 := by
        by_contra hne
        split at hne
        · next hpte => exact hread ⟨hpte, hne⟩
        · exact hne rfl
      have hnone : ∀ k, ¬NulAt s.mem r va k := fun k h => hread (h.readable 0 (Nat.zero_le k))
      rw [if_pos hzero]
      exact Yields.of_ok rfl ⟨rfl, by simp [hnone], fun k _ h => absurd h (hnone k), fun _ _ => rfl⟩

theorem copyinstr_returns (r : ℕ) (buf : ℕ → UInt8) (va max : ℕ) (s : Phys) :
    Returns (copyinstr r buf va max) s fun o t => t = s ∧ CopiedStr s.mem r va 0 max buf o :=
  copyinstrLoop_returns s max va 0 max buf le_rfl

/-! ### Lengths -/

theorem strlenLoop_eq (s : Phys) : ∀ left n k : ℕ, k < left → buf (n + k) = 0 →
    (∀ j < k, buf (n + j) ≠ 0) → strlenLoop buf left n s = .ok (n + k, s) := by
  intro left
  induction left with
  | zero => intro n k hk; omega
  | succ left ih =>
    intro n k hk hend hbefore
    rw [strlenLoop]
    rcases k with _ | k
    · rw [Nat.add_zero] at hend
      rw [if_pos hend]
      rfl
    · have hfirst : buf n ≠ 0 := hbefore 0 (Nat.succ_pos k)
      rw [if_neg hfirst, ih (n + 1) k (by omega) (by rwa [Nat.add_assoc, Nat.add_comm 1 k])
        fun j hj => by rw [Nat.add_assoc, Nat.add_comm 1 j]; exact hbefore (j + 1) (by omega),
        Nat.add_assoc, Nat.add_comm 1 k]

theorem fetchstr_returns (r va : ℕ) (buf : ℕ → UInt8) (max : ℕ) (s : Phys) :
    Returns (fetchstr r va buf max) s fun o t => t = s ∧
      ((∃ k < max, NulAt s.mem r va k ∧ o.2 = k ∧ o.1 k = 0 ∧
          ∀ j < k, o.1 j ≠ 0 ∧ o.1 j = s.mem (paddr s.mem r (va + j))) ∨
        o.2 = -1 ∧ ∀ k < max, ¬NulAt s.mem r va k) := by
  refine (copyinstr_returns r buf va max s).bind fun o t ht => ?_
  obtain ⟨rfl, hcopied⟩ := ht
  cases hok : o.2 with
  | false =>
    rw [if_pos rfl]
    refine Yields.of_ok rfl ⟨rfl, Or.inr ⟨rfl, fun k hk hnul => ?_⟩⟩
    rw [hcopied.ok.mpr ⟨k, hk, hnul⟩] at hok
    cases hok
  | true =>
    rw [if_neg (by decide)]
    obtain ⟨k, hk, hnul⟩ := hcopied.ok.mp hok
    have hbuf : ∀ j ≤ k, o.1 j = t.mem (paddr t.mem r (va + j)) := fun j hj => by
      rw [hcopied.exact k hk hnul j, if_pos (by omega), Nat.sub_zero]
    have hend : o.1 (0 + k) = 0 := by
      rw [Nat.zero_add, hbuf k le_rfl]
      exact hnul.last
    have hbefore : ∀ j < k, o.1 (0 + j) ≠ 0 := fun j hj => by
      rw [Nat.zero_add, hbuf j hj.le]
      exact hnul.before j hj
    refine Yields.of_eq (bind_of_ok (strlenLoop_eq t max 0 k hk hend hbefore)) ?_
    rw [Nat.zero_add] at hend ⊢
    refine Yields.of_ok rfl ⟨rfl, Or.inl ⟨k, hk, hnul, rfl, hend, fun j hj => ⟨?_, hbuf j hj.le⟩⟩⟩
    have := hbefore j hj
    rwa [Nat.zero_add] at this

/-- **Strings are copied exactly, and never past the limit.**  `fetchstr` returns the length of the
string, which then ends in the buffer, or −1. -/
theorem copyinstr_exact (r va : ℕ) (buf : ℕ → UInt8) (max : ℕ) (s : Phys) :
    (Returns (copyinstr r buf va max) s fun o t => t = s ∧
      (o.2 = true ↔ ∃ k < max, NulAt s.mem r va k) ∧
      (∀ k < max, NulAt s.mem r va k → ∀ i, o.1 i =
        if i ≤ k then s.mem (paddr s.mem r (va + i)) else buf i) ∧
      ∀ i, max ≤ i → o.1 i = buf i) ∧
    Returns (fetchstr r va buf max) s fun o t => t = s ∧
      ((∃ k < max, NulAt s.mem r va k ∧ o.2 = k ∧ o.1 k = 0 ∧
          ∀ j < k, o.1 j ≠ 0 ∧ o.1 j = s.mem (paddr s.mem r (va + j))) ∨
        o.2 = -1 ∧ ∀ k < max, ¬NulAt s.mem r va k) := by
  refine ⟨(copyinstr_returns r buf va max s).mono fun o t ht => ?_, fetchstr_returns r va buf max s⟩
  refine ⟨ht.1, ht.2.ok, fun k hk hnul i => ?_, fun i hi => ht.2.outside i (by omega)⟩
  rw [ht.2.exact k hk hnul i, Nat.sub_zero, Nat.zero_add]
  exact if_congr (and_iff_right (Nat.zero_le i)) rfl rfl

end Xv6Ext2.Vm
