import Xv6Ext2.Vm.Copy

/-!
# Address spaces

`uvmalloc` and `uvmdealloc` of `kernel/vm.c`, which grow and shrink the memory of a process.

The memory of a process is a range of virtual pages from 0 on.  Each of them is mapped to a page
of its own, so there are never more of them than there are pages of memory, and growing stops far
below the pages at the top.

## Main definitions

* `uvmdealloc`, `uvmalloc` — the source functions.
* `Space s r n top rest` — **the shape of an address space**: the page table at `r` maps the first
  `n` pages to pages of their own; `top` are the entries above them, and the pages `rest` belong
  to others.

## Main results

* `Space.round` — a round of a loop that adds pages.
* `uvmalloc_returns`, `uvmdealloc_returns` — the memory of a process grows and shrinks.
* `Space.move` — **an address space survives what happens elsewhere.**
-/

namespace Xv6Ext2.Vm

open Memory Prog

/-! ### The source functions -/

/-- An `int` where a `uint64` is wanted. -/
def signExtend (n : ℕ) : ℕ :=
  if n % 2 ^ 32 < 2 ^ 31 then n % 2 ^ 32 else 2 ^ 64 - 2 ^ 32 + n % 2 ^ 32

/-- Deallocate user pages to bring the size of a process from `oldsz` to `newsz`: the new size. -/
def uvmdealloc (pagetable oldsz newsz : ℕ) : PM ℕ :=
  if oldsz ≤ newsz then return oldsz
  else do
    if pgroundup newsz < pgroundup oldsz then
      uvmunmap pagetable (pgroundup newsz)
        (signExtend ((pgroundup oldsz - pgroundup newsz) / PGSIZE)) true
    return newsz

/-- The loop of `uvmalloc`, with so many rounds left; `oldsz` is rounded up. -/
def uvmallocLoop (pagetable oldsz newsz xperm : ℕ) : ℕ → ℕ → PM ℕ
  | 0, a => if a < newsz then throw .fuel else return newsz
  | rounds + 1, a =>
    if a < newsz then do
      let mem ← kalloc
      if mem = 0 then do
        let _ ← uvmdealloc pagetable a oldsz
        return 0
      else do
        memset mem 0 PGSIZE
        if ← mappages pagetable a PGSIZE mem (PTE_R ||| PTE_U ||| xperm) then
          uvmallocLoop pagetable oldsz newsz xperm rounds ((a + PGSIZE) % 2 ^ 64)
        else do
          kfree mem
          let _ ← uvmdealloc pagetable a oldsz
          return 0
    else return newsz

/-- Allocate pages to grow a process from `oldsz` to `newsz`: the new size, or 0. -/
def uvmalloc (pagetable oldsz newsz xperm : ℕ) : PM ℕ :=
  if newsz < oldsz then return oldsz
  else uvmallocLoop pagetable (pgroundup oldsz) newsz xperm ((newsz - oldsz) / PGSIZE + 1)
    (pgroundup oldsz)

variable {s t u : Phys} {r n m c v perm : ℕ} {top : ℕ → ℕ} {rest : Set ℕ}

/-! ### The shape of an address space -/

/-- The pages that the first `n` virtual pages are mapped to. -/
def owned (mem : ℕ → UInt8) (r n : ℕ) : Set ℕ := { a | ∃ v < n, frameOf mem r v = a }

/-- **The shape of an address space**: the first `n` pages are mapped to pages of their own, and
nothing below the two pages at the top is mapped besides. -/
structure Space (s : Phys) (r n : ℕ) (top : ℕ → ℕ) (rest : Set ℕ) : Prop where
  table : Table s r (owned s.mem r n ∪ rest)
  valid : ∀ v < n, pteOf s.mem r v &&& PTE_V ≠ 0
  read : ∀ v < n, pteOf s.mem r v &&& PTE_R ≠ 0
  inj : ∀ v < n, ∀ w < n, frameOf s.mem r v = frameOf s.mem r w → v = w
  apart : ∀ v < n, frameOf s.mem r v ∉ rest
  above : ∀ v, n ≤ v → v < VPAGES → pteOf s.mem r v = top v
  low : ∀ v < TRAPFRAME / PGSIZE, top v = 0
  kernel : ∀ v, top v &&& PTE_U = 0

theorem owned_frames {mem mem' : ℕ → UInt8} (h : ∀ v < n, frameOf mem' r v = frameOf mem r v) :
    owned mem' r n = owned mem r n := by
  ext a
  exact exists_congr fun v => and_congr_right fun hv => by rw [h v hv]

theorem owned_congr {mem mem' : ℕ → UInt8} (h : ∀ v < n, pteOf mem' r v = pteOf mem r v) :
    owned mem' r n = owned mem r n :=
  owned_frames fun v hv => by rw [frameOf, h v hv]

theorem owned_zero (mem : ℕ → UInt8) (r : ℕ) : owned mem r 0 = ∅ :=
  Set.eq_empty_of_forall_notMem fun _ ⟨v, hv, _⟩ => Nat.not_lt_zero v hv

theorem owned_mono {mem : ℕ → UInt8} (h : m ≤ n) : owned mem r m ⊆ owned mem r n :=
  fun _ ⟨v, hv, ha⟩ => ⟨v, by omega, ha⟩

theorem owned_succ (mem : ℕ → UInt8) (r n : ℕ) :
    owned mem r (n + 1) = insert (frameOf mem r n) (owned mem r n) := by
  ext a
  constructor
  · intro ha
    obtain ⟨v, hv, rfl⟩ := ha
    rcases Nat.lt_succ_iff_lt_or_eq.mp hv with hlt | rfl
    · exact Or.inr ⟨v, hlt, rfl⟩
    · exact Or.inl rfl
  · intro ha
    rcases ha with rfl | ⟨v, hv, rfl⟩
    · exact ⟨n, Nat.lt_succ_self n, rfl⟩
    · exact ⟨v, by omega, rfl⟩

namespace Space

/-- A page table that maps nothing. -/
theorem empty {others : Set ℕ} (h : Table s r others) (hpte : ∀ v, pteOf s.mem r v = 0) :
    Space s r 0 (fun _ => 0) others where
  table := by rwa [owned_zero, Set.empty_union]
  valid v hv := absurd hv (Nat.not_lt_zero v)
  read v hv := absurd hv (Nat.not_lt_zero v)
  inj v hv := absurd hv (Nat.not_lt_zero v)
  apart v hv := absurd hv (Nat.not_lt_zero v)
  above v _ _ := hpte v
  low _ _ := rfl
  kernel _ := rfl

theorem frame (h : Space s r n top rest) (hv : v < n) : s.IsFrame (frameOf s.mem r v) :=
  h.table.frame_other (Or.inl ⟨v, hv, rfl⟩)

/-- **There are no more pages than there is memory.** -/
theorem le (h : Space s r n top rest) : n ≤ (PHYSTOP - KERNBASE) / PGSIZE := by
  have hbounds : ∀ v < n, frameOf s.mem r v % PGSIZE = 0 ∧ KERNBASE ≤ frameOf s.mem r v ∧
      frameOf s.mem r v + PGSIZE ≤ PHYSTOP := fun v hv =>
    have hframe := h.frame hv
    ⟨hframe.1, (Nat.le_add_right _ _).trans hframe.2.1, hframe.2.2⟩
  have hcard : (Finset.range n).card ≤ (Finset.range ((PHYSTOP - KERNBASE) / PGSIZE)).card := by
    refine Finset.card_le_card_of_injOn (fun v => (frameOf s.mem r v - KERNBASE) / PGSIZE)
      (fun v hv => ?_) fun v hv w hw heq => ?_
    · have := hbounds v (Finset.mem_range.mp hv)
      rw [Finset.coe_range, Set.mem_Iio]
      simp only [PHYSTOP, KERNBASE, PGSIZE] at *
      omega
    · have hv' := hbounds v (Finset.mem_range.mp hv)
      have hw' := hbounds w (Finset.mem_range.mp hw)
      refine h.inj v (Finset.mem_range.mp hv) w (Finset.mem_range.mp hw) ?_
      simp only [PHYSTOP, KERNBASE, PGSIZE] at *
      omega
  rwa [Finset.card_range, Finset.card_range] at hcard

/-- The pages of a process are far below the two pages at the top. -/
theorem room (h : Space s r n top rest) : (n + 1) * PGSIZE ≤ TRAPFRAME := by
  have := h.le
  simp only [PHYSTOP, KERNBASE, PGSIZE, TRAPFRAME, TRAMPOLINE, MAXVA] at *
  omega

theorem below (h : Space s r n top rest) : (n + 1) * PGSIZE ≤ MAXVA := h.room.trans (by decide)

theorem vpages (h : Space s r n top rest) : n < VPAGES := by
  have := h.room
  simp only [PGSIZE, TRAPFRAME, TRAMPOLINE, MAXVA, VPAGES] at *
  omega

theorem unmapped (h : Space s r n top rest) : pteOf s.mem r n = 0 := by
  rw [h.above n le_rfl h.vpages, h.low]
  have := h.room
  simp only [PGSIZE, TRAPFRAME, TRAMPOLINE, MAXVA] at *
  omega

/-- A leaf is more than valid. -/
theorem leaf (h : Space s r n top rest) (hv : v < n) : pteFlags (pteOf s.mem r v) ≠ PTE_V := by
  intro hflags
  refine h.read v hv ?_
  rw [← pteFlags_and rfl, hflags]
  rfl

/-- The user may access pages of the process only. -/
theorem lt_of_userPte (h : Space s r n top rest) (hv : UserPte s.mem r v) : v < n := by
  by_contra hge
  have hlt : v < VPAGES := hv.1.trans (by decide)
  refine hv.2.2 ?_
  rw [h.above v (Nat.not_lt.mp hge) hlt]
  exact h.kernel v

/-- An address space can be copied to and from. -/
theorem leaves (h : Space s r n top rest) : Leaves s.mem r where
  root := h.table.aligned
  nonzero _ hv := (h.frame (h.lt_of_userPte hv)).ne_zero
  inj v w hv hw := h.inj v (h.lt_of_userPte hv) w (h.lt_of_userPte hw)
  apart v hv hnode := h.table.apart _ hnode (Or.inl ⟨v, h.lt_of_userPte hv, rfl⟩)

/-- **One more page.** -/
theorem push (h : Space s r n top rest) (hframe : s.IsFrame c) (hc : c ∉ owned s.mem r n ∪ rest)
    (hacts : Acts r (owned s.mem r n ∪ rest) (insert c (owned s.mem r n ∪ rest)) s t)
    (hperm : perm < 1024) (hread : perm &&& PTE_R ≠ 0)
    (hpte : ∀ v < VPAGES, pteOf t.mem r v = if v = n then mapEntry c perm 0 else pteOf s.mem r v) :
    Space t r (n + 1) top rest := by
  have hn := h.vpages
  have hold : ∀ v < n, pteOf t.mem r v = pteOf s.mem r v := fun v hv => by
    rw [hpte v (by omega), if_neg (by omega)]
  have hnew : pteOf t.mem r n = mapEntry c perm 0 := by rw [hpte n hn, if_pos rfl]
  obtain ⟨hvalid, hframeOf, hflags⟩ := mapEntry_spec (i := 0) hperm hframe.1 hframe.lt
  have hframeNew : frameOf t.mem r n = c := by
    rw [frameOf, hnew, hframeOf, Nat.zero_mul, Nat.add_zero]
  have hframeOld : ∀ v < n, frameOf t.mem r v = frameOf s.mem r v := fun v hv => by
    rw [frameOf, hold v hv]
  have hcown : ∀ v < n, frameOf s.mem r v ≠ c := fun v hv hvc => hc (Or.inl ⟨v, hv, hvc⟩)
  refine ⟨?_, fun v hv => ?_, fun v hv => ?_, fun v hv w hw hvw => ?_, fun v hv => ?_,
    fun v hv hlt => ?_, h.low, h.kernel⟩
  · rw [owned_succ, hframeNew, owned_congr hold, Set.insert_union]
    exact hacts.table
  · rcases Nat.lt_succ_iff_lt_or_eq.mp hv with hlt | rfl
    · rw [hold v hlt]
      exact h.valid v hlt
    · rw [hnew]
      exact hvalid
  · rcases Nat.lt_succ_iff_lt_or_eq.mp hv with hlt | rfl
    · rw [hold v hlt]
      exact h.read v hlt
    · rw [hnew, ← pteFlags_and rfl, hflags, Nat.and_or_distrib_right]
      simpa using hread
  · rcases Nat.lt_succ_iff_lt_or_eq.mp hv with hlt | rfl <;>
      rcases Nat.lt_succ_iff_lt_or_eq.mp hw with hlt' | rfl
    · rw [hframeOld v hlt, hframeOld w hlt'] at hvw
      exact h.inj v hlt w hlt' hvw
    · rw [hframeOld v hlt, hframeNew] at hvw
      exact absurd hvw (hcown v hlt)
    · rw [hframeOld w hlt', hframeNew] at hvw
      exact absurd hvw.symm (hcown w hlt')
    · rfl
  · rcases Nat.lt_succ_iff_lt_or_eq.mp hv with hlt | rfl
    · rw [hframeOld v hlt]
      exact h.apart v hlt
    · rw [hframeNew]
      exact fun hrest => hc (Or.inr hrest)
  · rw [hpte v hlt, if_neg (by omega)]
    exact h.above v (by omega) hlt

/-- The last pages can be unmapped. -/
theorem removable (h : Space s r n top rest) (hn : v + m = n) :
    Removable true (owned s.mem r n ∪ rest) s r v m where
  valid i hi := h.valid (v + i) (by omega)
  leaf i hi := h.leaf (by omega)
  mem _ i hi := Or.inl ⟨v + i, by omega, rfl⟩
  inj _ i hi j hj hij := by
    have := h.inj (v + i) (by omega) (v + j) (by omega) hij
    omega

/-- An operation that leaves the pages of the process where they are. -/
theorem update {top' : ℕ → ℕ} (h : Space s r n top rest)
    (hacts : Acts r (owned s.mem r n ∪ rest) (owned s.mem r n ∪ rest) s t)
    (hframe : ∀ v < n, frameOf t.mem r v = frameOf s.mem r v)
    (hvalid : ∀ v < n, pteOf t.mem r v &&& PTE_V ≠ 0)
    (hread : ∀ v < n, pteOf t.mem r v &&& PTE_R ≠ 0)
    (habove : ∀ v, n ≤ v → v < VPAGES → pteOf t.mem r v = top' v)
    (hlow : ∀ v < TRAPFRAME / PGSIZE, top' v = 0) (hkernel : ∀ v, top' v &&& PTE_U = 0) :
    Space t r n top' rest := by
  refine ⟨?_, hvalid, hread, fun v hv w hw hvw => ?_, fun v hv => ?_, habove, hlow, hkernel⟩
  · rw [owned_frames hframe]
    exact hacts.table
  · rw [hframe v hv, hframe w hw] at hvw
    exact h.inj v hv w hw hvw
  · rw [hframe v hv]
    exact h.apart v hv

/-- An operation that changes no entry. -/
theorem congr (h : Space s r n top rest)
    (hacts : Acts r (owned s.mem r n ∪ rest) (owned s.mem r n ∪ rest) s t)
    (hpte : ∀ v < VPAGES, pteOf t.mem r v = pteOf s.mem r v) : Space t r n top rest := by
  have hn := h.vpages
  have hold : ∀ v < n, pteOf t.mem r v = pteOf s.mem r v := fun v hv => hpte v (by omega)
  refine h.update hacts (fun v hv => by rw [frameOf, hold v hv]) (fun v hv => ?_) (fun v hv => ?_)
    (fun v hv hlt => ?_) h.low h.kernel
  · rw [hold v hv]
    exact h.valid v hv
  · rw [hold v hv]
    exact h.read v hv
  · rw [hpte v hlt]
    exact h.above v hv hlt

end Space

/-- The pages of an address space: the nodes of the page table and the pages of the process. -/
def claimed (mem : ℕ → UInt8) (r n : ℕ) : Set ℕ := { a | IsNode mem r a ∨ a ∈ owned mem r n }

theorem Table.pool {others : Set ℕ} (h : Table s r others) :
    Pool s ({ a | IsNode s.mem r a } ∪ others) :=
  ⟨h.all, h.nodup, fun a ha hin => hin.elim (h.free a ha).1 (h.free a ha).2⟩

theorem Space.pool (h : Space s r n top rest) : Pool s (claimed s.mem r n ∪ rest) := by
  have hpool := h.table.pool
  rwa [← Set.union_assoc] at hpool

theorem Space.not_mem_rest {a : ℕ} (h : Space s r n top rest) (ha : a ∈ claimed s.mem r n) :
    a ∉ rest := by
  rcases ha with hnode | ⟨v, hv, rfl⟩
  · exact fun hrest => h.table.apart a hnode (Or.inr hrest)
  · exact h.apart v hv

/-- The page table at `r` and the first `n` pages of the process are as they were. -/
structure Unchanged (r n : ℕ) (s t : Phys) : Prop where
  node : ∀ p : List (Fin 512), p.length ≤ 2 → nodeAt t.mem r p = nodeAt s.mem r p
  pte : ∀ v, pteOf t.mem r v = pteOf s.mem r v
  entry : ∀ p a, p.length ≤ 2 → nodeAt s.mem r p = some a → ∀ i : Fin 512,
    load t.mem (a + 8 * i) 8 = load s.mem (a + 8 * i) 8
  content : ∀ v < n, ∀ k < PGSIZE, t.mem (frameOf s.mem r v + k) = s.mem (frameOf s.mem r v + k)

theorem Unchanged.isNode (h : Unchanged r n s t) (a : ℕ) : IsNode t.mem r a ↔ IsNode s.mem r a :=
  exists_congr fun p => and_congr_right fun hp => by rw [h.node p hp]

theorem Space.unchanged {kept : Set ℕ} (h : Space s r n top rest)
    (hsub : claimed s.mem r n ⊆ kept) (hkept : Kept kept s t) :
    Unchanged r n s t := by
  have hsame : ∀ x, IsNode s.mem r (pgrounddown x) → t.mem x = s.mem x := fun x hx =>
    hkept.mem x (hsub (Or.inl hx))
  obtain ⟨hnode, hpte, hload⟩ := entries_congr h.table.aligned hsame
  refine ⟨hnode, hpte, hload, fun v hv k hk => hkept.mem _ (hsub (Or.inr ⟨v, hv, ?_⟩))⟩
  exact (pgrounddown_eq (frameOf_aligned s.mem r v) (by omega)).symm

theorem Unchanged.claimed (h : Unchanged r n s t) : claimed t.mem r n = claimed s.mem r n := by
  ext a
  exact or_congr (h.isNode a) (by rw [owned_congr fun v _ => h.pte v])

/-- **An address space survives what happens elsewhere**: it depends on the nodes of its page table,
and the other pages are divided anew between the list of free pages and others. -/
theorem Space.move {rest' : Set ℕ} (h : Space s r n top rest) (hsize : t.ksize = s.ksize)
    (hnode : ∀ x, IsNode s.mem r (pgrounddown x) → t.mem x = s.mem x)
    (hpool : Pool t (claimed s.mem r n ∪ rest')) (hdisj : ∀ a ∈ claimed s.mem r n, a ∉ rest') :
    Space t r n top rest' := by
  have hpte := (entries_congr h.table.aligned hnode).2.1
  have hown : owned t.mem r n = owned s.mem r n := owned_congr fun v _ => hpte v
  have hframe : ∀ v, frameOf t.mem r v = frameOf s.mem r v := fun v => by rw [frameOf, hpte]
  -- both before and after, these are the pages that are not nodes
  have hall : ∀ a, a ∈ t.freelist ∨ a ∈ owned s.mem r n ∪ rest' ↔
      a ∈ s.freelist ∨ a ∈ owned s.mem r n ∪ rest := fun a => by
    have hs := h.table.all a
    have ht := hpool.all a
    rw [Phys.isFrame_congr hsize, hs] at ht
    by_cases hn : IsNode s.mem r a
    · refine iff_of_false ?_ ?_
      · rintro (hf | ho | hr)
        · exact hpool.free a hf (Or.inl (Or.inl hn))
        · exact h.table.apart a hn (Or.inl ho)
        · exact hdisj a (Or.inl hn) hr
      · exact fun ha => ha.elim (fun hf => (h.table.free a hf).1 hn) (h.table.apart a hn)
    · simp only [claimed, Set.mem_union, Set.mem_ofPred_eq, hn, false_or] at ht ⊢
      exact ht.symm
  refine ⟨?_, fun v hv => ?_, fun v hv => ?_, fun v hv w hw hvw => ?_, fun v hv => ?_,
    fun v hv hlt => ?_, h.low, h.kernel⟩
  · rw [hown]
    refine h.table.elsewhere hsize hnode hall hpool.nodup fun a ha => ?_
    exact fun hin => hpool.free a ha (hin.imp Or.inr id)
  · rw [hpte]
    exact h.valid v hv
  · rw [hpte]
    exact h.read v hv
  · rw [hframe, hframe] at hvw
    exact h.inj v hv w hw hvw
  · rw [hframe]
    exact hdisj _ (Or.inr ⟨v, hv, rfl⟩)
  · rw [hpte]
    exact h.above v hv hlt

/-- Pages that are kept have not been touched. -/
theorem Space.keep {rest' kept : Set ℕ} (h : Space s r n top rest) (hkept : Kept kept s t)
    (hsub : claimed s.mem r n ⊆ kept) (hpool : Pool t (claimed s.mem r n ∪ rest'))
    (hdisj : ∀ a ∈ claimed s.mem r n, a ∉ rest') : Space t r n top rest' :=
  h.move hkept.ksize (fun x hx => hkept.mem x (hsub (Or.inl hx))) hpool hdisj

/-- Bytes of pages that are not nodes are written over. -/
theorem Space.write {mem' : ℕ → UInt8} (h : Space s r n top rest) (ht : t = { s with mem := mem' })
    (hnode : ∀ x, IsNode s.mem r (pgrounddown x) → mem' x = s.mem x) : Space t r n top rest := by
  subst ht
  exact h.move rfl hnode ⟨h.pool.all, h.pool.nodup, h.pool.free⟩ fun a ha => h.not_mem_rest ha

/-- A copy to user memory. -/
theorem Space.wrote {va len : ℕ} (h : Space s r n top rest) (hwrote : Wrote r va len s t) :
    Space t r n top rest ∧ Kept rest s t := by
  have hpage : ∀ x, t.mem x ≠ s.mem x → ∃ v < n, pgrounddown x = frameOf s.mem r v := fun x hx =>
    let ⟨v, hv, hxv⟩ := hwrote.touches x hx
    ⟨v, h.lt_of_userPte hv, hxv⟩
  refine ⟨h.write hwrote.rest fun x hx => ?_, by rw [hwrote.rest], fun x hx => ?_⟩
  · by_contra hne
    obtain ⟨v, hv, hxv⟩ := hpage x hne
    exact h.table.apart _ hx (Or.inl ⟨v, hv, hxv.symm⟩)
  · by_contra hne
    obtain ⟨v, hv, hxv⟩ := hpage x hne
    exact h.apart v hv (hxv ▸ hx)

/-! ### One page more or less -/

/-- The first `n` pages of an address space are as they were, and there are no others. -/
structure Resized (r n : ℕ) (top : ℕ → ℕ) (rest : Set ℕ) (s t : Phys) : Prop where
  space : Space t r n top rest
  pte : ∀ v < n, pteOf t.mem r v = pteOf s.mem r v
  kept : Kept (owned s.mem r n ∪ rest) s t

/-- **Fewer pages.** -/
theorem Space.pop (h : Space s r n top rest) (hn : v + m = n)
    (ht : Unmapped true r (owned s.mem r n ∪ rest) v m s t) : Resized r v top rest s t := by
  have hvp := h.vpages
  have hold : ∀ w < v, pteOf t.mem r w = pteOf s.mem r w := fun w hw => by
    rw [ht.pte w (by omega), if_neg (by omega)]
  have hframeOld : ∀ w < v, frameOf t.mem r w = frameOf s.mem r w := fun w hw => by
    rw [frameOf, hold w hw]
  have hset : (owned s.mem r n ∪ rest) \ freed true s.mem r v m = owned s.mem r v ∪ rest := by
    ext a
    constructor
    · intro ha
      rcases ha.1 with ⟨w, hw, rfl⟩ | hrest
      · refine Or.inl ⟨w, ?_, rfl⟩
        by_contra hge
        exact ha.2 ⟨rfl, w - v, by omega, by rw [Nat.add_sub_of_le (by omega)]⟩
      · exact Or.inr hrest
    · intro ha
      rcases ha with ⟨w, hw, rfl⟩ | hrest
      · refine ⟨Or.inl ⟨w, by omega, rfl⟩, fun hfreed => ?_⟩
        obtain ⟨-, i, hi, heq⟩ := hfreed
        have := h.inj (v + i) (by omega) w (by omega) heq
        omega
      · refine ⟨Or.inr hrest, fun hfreed => ?_⟩
        obtain ⟨-, i, hi, rfl⟩ := hfreed
        exact h.apart (v + i) (by omega) hrest
  have hacts := hset ▸ ht.acts
  have hsub : owned s.mem r v ∪ rest ⊆ owned s.mem r n ∪ rest :=
    Set.union_subset_union_left rest (owned_mono (by omega))
  refine ⟨⟨owned_congr hold ▸ hacts.table, fun w hw => ?_, fun w hw => ?_,
    fun w hw w' hw' hww => ?_, fun w hw => ?_, fun w hw hlt => ?_, h.low, h.kernel⟩, hold,
    hacts.kept hsub subset_rfl⟩
  · rw [hold w hw]
    exact h.valid w (by omega)
  · rw [hold w hw]
    exact h.read w (by omega)
  · rw [hframeOld w hw, hframeOld w' hw'] at hww
    exact h.inj w (by omega) w' (by omega) hww
  · rw [hframeOld w hw]
    exact h.apart w (by omega)
  · rw [ht.pte w hlt]
    by_cases hin : v ≤ w ∧ w < v + m
    · rw [if_pos hin, h.low]
      have := h.room
      simp only [PGSIZE, TRAPFRAME, TRAMPOLINE, MAXVA] at *
      omega
    · rw [if_neg hin]
      exact h.above w (by omega) hlt

/-- All pages are unmapped and freed. -/
theorem Space.clear (h : Space s r v top rest) :
    Returns (uvmunmap r 0 v true) s fun _ t => Space t r 0 top rest ∧ Kept rest s t := by
  have hva : (0 + v) * PGSIZE ≤ MAXVA := by
    rw [Nat.zero_add]
    exact (Nat.mul_le_mul_right _ (Nat.le_succ _)).trans h.below
  have hsum : 0 + v = v := Nat.zero_add v
  have hunmap := uvmunmap_returns h.table hva (h.removable hsum)
  rw [Nat.zero_mul] at hunmap
  refine hunmap.mono fun _ t ht => ?_
  have hpop := h.pop hsum ht
  exact ⟨hpop.space, hpop.kept.mono Set.subset_union_right⟩

/-- A page that has been taken is filled. -/
theorem Steady.fill {others : Set ℕ} {mem' : ℕ → UInt8}
    (h : Steady r others (insert c others) s t) (hc : c ∉ others)
    (hmem : ∀ x, ¬(c ≤ x ∧ x < c + PGSIZE) → mem' x = t.mem x) :
    Steady r others (insert c others) s { t with mem := mem' } := by
  have hcin : c ∈ insert c others := Set.mem_insert c others
  have hframe := h.table.frame_other hcin
  have hpage : ∀ x, pgrounddown x ≠ c → mem' x = t.mem x := fun x hx =>
    hmem x fun hp => hx (pgrounddown_eq hframe.1 hp)
  have hnode : ∀ x, IsNode t.mem r (pgrounddown x) → mem' x = t.mem x := fun x hx =>
    hpage x fun hxc => h.table.apart c (hxc ▸ hx) hcin
  obtain ⟨hnodeAt, hpte, -⟩ := entries_congr h.table.aligned hnode
  refine ⟨⟨h.table.elsewhere rfl hnode (fun _ => Iff.rfl) h.table.nodup
    fun a ha => (h.table.free a ha).2, h.ksize, fun p a hp ha => ?_, fun x hx hx' => ?_⟩,
    fun v => (hpte v).trans (h.pte v)⟩
  · exact (hnodeAt p hp).trans (h.node p a hp ha)
  · exact (hpage x fun hxc => hc (hxc ▸ hx)).trans (h.mem x hx hx')

/-- A page that has been taken and filled is mapped. -/
theorem Space.mapPage (h : Space s r n top rest) (hperm : perm < 1024) (hframe : s.IsFrame c)
    (hfill : Steady r (owned s.mem r n ∪ rest) (insert c (owned s.mem r n ∪ rest)) s t) :
    Returns (mappages r (n * PGSIZE) PGSIZE c perm) t fun ok u =>
      Acts r (insert c (owned s.mem r n ∪ rest)) (insert c (owned s.mem r n ∪ rest)) t u ∧
        ∀ v < VPAGES, pteOf u.mem r v =
          if ok = true ∧ v = n then mapEntry c perm 0 else pteOf s.mem r v := by
  have hmap := mappages_returns (v := n) (n := 1) hperm hfill.table hframe.lt Nat.one_pos
    h.below fun i hi => by
      rw [hfill.pte, show n + i = n by omega, h.unmapped]
      rfl
  rw [Nat.one_mul] at hmap
  refine hmap.mono fun ok u hu => ?_
  obtain ⟨k, hk, hok, hacts, hpte⟩ := hu
  refine ⟨hacts, fun v hv => ?_⟩
  rw [hpte v hv, hfill.pte]
  by_cases hvn : ok = true ∧ v = n
  · obtain ⟨htrue, rfl⟩ := hvn
    have hone := hok.mp htrue
    rw [if_pos (by omega), if_pos ⟨htrue, rfl⟩, Nat.sub_self]
  · rw [if_neg fun hin => hvn ⟨hok.mpr (by omega), by omega⟩, if_neg hvn]

/-- **A round of a loop that adds pages**: a page is allocated, filled and mapped; if that fails,
the page is given back. -/
theorem Space.round {α : Type} {Q : α → Phys → Prop} {g : ℕ → PM Unit} {fail next : PM α}
    {f : ℕ → UInt8} (h : Space s r n top rest) (hperm : perm < 1024) (hread : perm &&& PTE_R ≠ 0)
    (hprep : ∀ c t, Kept (owned s.mem r n ∪ rest) s t → ∃ mem',
      g c t = .ok ((), { t with mem := mem' }) ∧ (∀ k < PGSIZE, mem' (c + k) = f k) ∧
        ∀ x, ¬(c ≤ x ∧ x < c + PGSIZE) → mem' x = t.mem x)
    (hfail : ∀ t, Space t r n top rest → (∀ v < VPAGES, pteOf t.mem r v = pteOf s.mem r v) →
      Kept (owned s.mem r n ∪ rest) s t → Returns fail t Q)
    (hnext : ∀ t, Space t r (n + 1) top rest → (∀ v < n, pteOf t.mem r v = pteOf s.mem r v) →
      pteFlags (pteOf t.mem r n) = perm ||| PTE_V →
      (∀ k < PGSIZE, t.mem (frameOf t.mem r n + k) = f k) →
      Kept (owned s.mem r n ∪ rest) s t → Returns next t Q) :
    Returns (do
      let mem ← kalloc
      if mem = 0 then fail
      else do
        g mem
        if ← mappages r (n * PGSIZE) PGSIZE mem perm then next
        else do
          kfree mem
          fail) s Q := by
  have hn := h.vpages
  refine (kalloc_steady h.table).bind fun c t ht => ?_
  rcases ht with ⟨rfl, ht⟩ | ⟨hne, hframe, hc, ht⟩
  · rw [if_pos rfl]
    exact hfail t (h.congr ht.toActs fun v _ => ht.pte v) (fun v _ => ht.pte v)
      (ht.kept subset_rfl subset_rfl)
  rw [if_neg hne]
  have hsub := Set.subset_insert c (owned s.mem r n ∪ rest)
  obtain ⟨mem', hrun, hcontent, hmem⟩ := hprep c t (ht.kept subset_rfl hsub)
  refine Yields.of_eq (bind_of_ok hrun) ?_
  have hfill := ht.fill hc hmem
  refine (h.mapPage hperm hframe hfill).bind fun ok u hu => ?_
  obtain ⟨hacts, hpte⟩ := hu
  have hall := hfill.toActs.trans hacts fun _ _ ha => ha
  cases ok with
  | true =>
    rw [if_pos rfl]
    have hpte' : ∀ v < VPAGES, pteOf u.mem r v =
        if v = n then mapEntry c perm 0 else pteOf s.mem r v := fun v hv => by
      rw [hpte v hv]
      simp only [true_and]
    have hspec := mapEntry_spec (i := 0) hperm hframe.1 hframe.lt
    have hentry : pteOf u.mem r n = mapEntry c perm 0 := by rw [hpte' n hn, if_pos rfl]
    refine hnext u (h.push hframe hc hall hperm hread hpte') (fun v hv => ?_) ?_ (fun j hj => ?_)
      (hall.kept subset_rfl hsub)
    · rw [hpte' v (by omega), if_neg (by omega)]
    · rw [hentry]
      exact hspec.2.2
    · have hpage : pgrounddown (c + j) = c := pgrounddown_eq hframe.1 (by omega)
      have hin : pgrounddown (c + j) ∈ insert c (owned s.mem r n ∪ rest) := Or.inl hpage
      rw [frameOf, hentry, hspec.2.1, Nat.zero_mul, Nat.add_zero, hacts.mem _ hin hin]
      exact hcontent j hj
  | false =>
    rw [if_neg (by decide)]
    refine (kfree_steady hacts.table (Set.mem_insert c _)).bind fun _ w hw => ?_
    rw [Set.insert_sdiff_self_of_notMem hc] at hw
    have hpte' : ∀ v < VPAGES, pteOf w.mem r v = pteOf s.mem r v := fun v hv => by
      rw [hw.pte, hpte v hv, if_neg (fun hboth => Bool.false_ne_true hboth.1)]
    have hall' := hall.trans hw.toActs fun _ _ ha => hsub ha
    exact hfail w (h.congr hall' hpte') hpte' (hall'.kept subset_rfl subset_rfl)

/-! ### Growing and shrinking -/

/-- The number of pages that `sz` bytes take. -/
def pages (sz : ℕ) : ℕ := (sz + (PGSIZE - 1)) / PGSIZE

theorem pages_mul (n : ℕ) : pages (n * PGSIZE) = n := by
  unfold pages
  simp only [PGSIZE]
  omega

theorem pages_zero : pages 0 = 0 := Nat.zero_mul PGSIZE ▸ pages_mul 0

theorem pages_mono {a b : ℕ} (h : a ≤ b) : pages a ≤ pages b :=
  Nat.div_le_div_right (Nat.add_le_add_right h _)

theorem pages_eq {a : ℕ} (hlow : n * PGSIZE < a + PGSIZE) (hhigh : a ≤ n * PGSIZE) :
    pages a = n := by
  unfold pages
  simp only [PGSIZE] at *
  omega

theorem pgroundup_eq {a : ℕ} (h : pages a ≤ (PHYSTOP - KERNBASE) / PGSIZE) :
    pgroundup a = pages a * PGSIZE := by
  unfold pgroundup pages at *
  simp only [PHYSTOP, KERNBASE, PGSIZE] at *
  omega

theorem signExtend_eq {a : ℕ} (h : a ≤ (PHYSTOP - KERNBASE) / PGSIZE) : signExtend a = a := by
  unfold signExtend
  simp only [PHYSTOP, KERNBASE, PGSIZE] at *
  rw [if_pos (by omega), Nat.mod_eq_of_lt (by omega)]

/-- **What `uvmdealloc` does.** -/
theorem uvmdealloc_returns {oldsz : ℕ} (h : Space s r (pages oldsz) top rest) (newsz : ℕ) :
    Returns (uvmdealloc r oldsz newsz) s fun o t =>
      o = min oldsz newsz ∧ Resized r (pages (min oldsz newsz)) top rest s t := by
  have hle := h.le
  unfold uvmdealloc
  by_cases hsz : oldsz ≤ newsz
  · rw [if_pos hsz, Nat.min_eq_left hsz]
    exact Yields.of_ok rfl ⟨rfl, h, fun _ _ => rfl, Kept.refl _ s⟩
  · rw [if_neg hsz, Nat.min_eq_right (by omega)]
    have hmono : pages newsz ≤ pages oldsz := pages_mono (by omega)
    have hround : pgroundup newsz = pages newsz * PGSIZE := pgroundup_eq (hmono.trans hle)
    rw [pgroundup_eq hle, hround, ← Nat.sub_mul, Nat.mul_div_cancel _ (by decide),
      signExtend_eq ((Nat.sub_le _ _).trans hle)]
    by_cases hlt : pages newsz * PGSIZE < pages oldsz * PGSIZE
    · rw [if_pos hlt]
      have hsum : pages newsz + (pages oldsz - pages newsz) = pages oldsz := by omega
      have hva : (pages newsz + (pages oldsz - pages newsz)) * PGSIZE ≤ MAXVA := by
        rw [hsum]
        exact (Nat.mul_le_mul_right _ (Nat.le_succ _)).trans h.below
      exact (uvmunmap_returns h.table hva (h.removable hsum)).bind fun _ t ht =>
        Yields.of_ok rfl ⟨rfl, h.pop hsum ht⟩
    · rw [if_neg hlt]
      have heq : pages newsz = pages oldsz := by simp only [PGSIZE] at hlt; omega
      exact Yields.of_ok rfl ⟨rfl, heq ▸ h, fun _ _ => rfl, Kept.refl _ s⟩

/-- An address space has grown from `n` to `m` pages: the new ones are full of zeros. -/
structure Enlarged (r n m perm : ℕ) (top : ℕ → ℕ) (rest : Set ℕ) (s t : Phys) : Prop where
  space : Space t r m top rest
  old : ∀ v < n, pteOf t.mem r v = pteOf s.mem r v
  flags : ∀ v, n ≤ v → v < m → pteFlags (pteOf t.mem r v) = perm ||| PTE_V
  zero : ∀ v, n ≤ v → v < m → ∀ k < PGSIZE, t.mem (frameOf t.mem r v + k) = 0
  kept : Kept (owned s.mem r n ∪ rest) s t

theorem Enlarged.refl (h : Space s r n top rest) (perm : ℕ) : Enlarged r n n perm top rest s s :=
  ⟨h, fun _ _ => rfl, fun v hv hlt => by omega, fun v hv hlt => by omega, Kept.refl _ s⟩

/-- A page of an address space that is kept. -/
theorem Kept.frame {kept : Set ℕ} {mem : ℕ → UInt8} {k : ℕ} (h : Kept (owned mem r n ∪ kept) s t)
    (hv : v < n) (hk : k < PGSIZE) :
    t.mem (frameOf mem r v + k) = s.mem (frameOf mem r v + k) := by
  refine h.mem _ (Or.inl ⟨v, hv, ?_⟩)
  exact (pgrounddown_eq (frameOf_aligned mem r v) (by omega)).symm

theorem Enlarged.push (h : Enlarged r n m perm top rest s t) (hle : n ≤ m)
    (hspace : Space u r (m + 1) top rest) (hold : ∀ v < m, pteOf u.mem r v = pteOf t.mem r v)
    (hflags : pteFlags (pteOf u.mem r m) = perm ||| PTE_V)
    (hzero : ∀ k < PGSIZE, u.mem (frameOf u.mem r m + k) = 0)
    (hkept : Kept (owned t.mem r m ∪ rest) t u) : Enlarged r n (m + 1) perm top rest s u := by
  refine ⟨hspace, fun v hv => ?_, fun v hv hlt => ?_, fun v hv hlt k hk => ?_, h.kept.trans ?_⟩
  · rw [hold v (by omega), h.old v hv]
  · rcases Nat.lt_succ_iff_lt_or_eq.mp hlt with hlt | rfl
    · rw [hold v hlt]
      exact h.flags v hv hlt
    · exact hflags
  · rcases Nat.lt_succ_iff_lt_or_eq.mp hlt with hlt | rfl
    · rw [frameOf, hold v hlt, hkept.frame hlt hk]
      exact h.zero v hv hlt k hk
    · exact hzero k hk
  · rw [← owned_congr h.old]
    exact hkept.mono (Set.union_subset_union_left rest (owned_mono hle))

/-- The way back when a page cannot be added. -/
theorem Enlarged.undo (h : Enlarged r n m perm top rest s t) (hle : n ≤ m)
    (hspace : Space u r m top rest) (hold : ∀ v < VPAGES, pteOf u.mem r v = pteOf t.mem r v)
    (hkept : Kept (owned t.mem r m ∪ rest) t u) :
    Returns (uvmdealloc r (m * PGSIZE) (n * PGSIZE)) u fun _ w => Resized r n top rest s w := by
  rw [← pages_mul m] at hspace
  refine (uvmdealloc_returns hspace (n * PGSIZE)).mono fun o w hw => ?_
  have hmin : pages (min (m * PGSIZE) (n * PGSIZE)) = n := by
    rw [Nat.min_eq_right (Nat.mul_le_mul_right _ hle), pages_mul]
  obtain ⟨hspace', hpte, hkept'⟩ := hmin ▸ hw.2
  have hn := hspace'.vpages
  have hold' : ∀ v < n, pteOf u.mem r v = pteOf s.mem r v := fun v hv => by
    rw [hold v (by omega), h.old v hv]
  refine ⟨hspace', fun v hv => by rw [hpte v hv, hold' v hv], ?_⟩
  have hback : Kept (owned s.mem r n ∪ rest) t u := by
    rw [← owned_congr h.old]
    exact hkept.mono (Set.union_subset_union_left rest (owned_mono hle))
  rw [owned_congr hold'] at hkept'
  exact (h.kept.trans hback).trans hkept'

theorem uvmallocLoop_returns {newsz xperm : ℕ} (hperm : xperm < 1024) :
    ∀ (rounds v : ℕ) (t : Phys), n ≤ v →
      Enlarged r n v (PTE_R ||| PTE_U ||| xperm) top rest s t → newsz ≤ (v + rounds) * PGSIZE →
        v * PGSIZE < newsz + PGSIZE →
          Returns (uvmallocLoop r (n * PGSIZE) newsz xperm rounds (v * PGSIZE)) t fun o u =>
            o = 0 ∧ Resized r n top rest s u ∨
              o = newsz ∧ Enlarged r n (pages newsz) (PTE_R ||| PTE_U ||| xperm) top rest s u := by
  intro rounds
  induction rounds with
  | zero =>
    intro v t hv h hnew hlow
    rw [uvmallocLoop, if_neg (by simp only [PGSIZE] at *; omega)]
    rw [pages_eq hlow (by simpa using hnew)]
    exact Yields.of_ok rfl (Or.inr ⟨rfl, h⟩)
  | succ rounds ih =>
    intro v t hv h hnew hlow
    rw [uvmallocLoop]
    by_cases hlt : v * PGSIZE < newsz
    · rw [if_pos hlt]
      have hbits : PTE_R ||| PTE_U ||| xperm < 1024 := Nat.or_lt_two_pow (n := 10) (by decide) hperm
      refine h.space.round (g := fun mem => memset mem 0 PGSIZE) (f := fun _ => 0) hbits ?_
        (fun c t' _ => ⟨_, rfl, fun k hk => fill_of_mem (by omega), fun x hx => fill_of_not_mem hx⟩)
        (fun t' hspace hpte hkept => ?_) fun t' hspace hpte hflags hzero hkept => ?_
      · exact or_and_ne_zero (by decide) xperm
      · refine (h.undo hv hspace hpte hkept).bind fun _ u hu => ?_
        exact Yields.of_ok rfl (Or.inl ⟨rfl, hu⟩)
      · have haddr : (v * PGSIZE + PGSIZE) % 2 ^ 64 = (v + 1) * PGSIZE := by
          have := h.space.below
          simp only [PGSIZE, MAXVA] at *
          omega
        rw [haddr]
        refine ih (v + 1) t' (by omega) (h.push hv hspace hpte hflags hzero hkept) ?_ ?_
        · rw [show v + 1 + rounds = v + (rounds + 1) by omega]
          exact hnew
        · rw [Nat.add_one_mul]
          exact Nat.add_lt_add_right hlt _
    · rw [if_neg hlt, pages_eq hlow (Nat.not_lt.mp hlt)]
      exact Yields.of_ok rfl (Or.inr ⟨rfl, h⟩)

/-- **What `uvmalloc` does**: the process grows, or it is as before. -/
theorem uvmalloc_returns {oldsz xperm : ℕ} (hperm : xperm < 1024)
    (h : Space s r (pages oldsz) top rest) (newsz : ℕ) :
    Returns (uvmalloc r oldsz newsz xperm) s fun o t =>
      o = 0 ∧ Resized r (pages oldsz) top rest s t ∨
        o = max oldsz newsz ∧ Enlarged r (pages oldsz) (pages (max oldsz newsz))
          (PTE_R ||| PTE_U ||| xperm) top rest s t := by
  unfold uvmalloc
  by_cases hsz : newsz < oldsz
  · rw [if_pos hsz, Nat.max_eq_left hsz.le]
    exact Yields.of_ok rfl (Or.inr ⟨rfl, Enlarged.refl h _⟩)
  · rw [if_neg hsz, Nat.max_eq_right (Nat.not_lt.mp hsz), pgroundup_eq h.le]
    refine uvmallocLoop_returns hperm _ _ s le_rfl (Enlarged.refl h _) ?_ ?_
    · unfold pages
      simp only [PGSIZE] at *
      omega
    · unfold pages
      simp only [PGSIZE] at *
      omega

end Xv6Ext2.Vm
