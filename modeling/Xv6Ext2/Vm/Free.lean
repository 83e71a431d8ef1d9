import Xv6Ext2.Vm.AddressSpace

/-!
# Making and freeing page tables

`freewalk` and `uvmfree` of `kernel/vm.c`, and `proc_pagetable` and `proc_freepagetable` of
`kernel/proc.c`.

`freewalk` frees a node after the nodes below it.  While it runs, the page table is half gone, so
its specification speaks of the page table as it was: it puts exactly the nodes below the given one
on the free list, each once, and touches nothing else.

## Main definitions

* `freewalk`, `uvmfree`, `procPagetable`, `procFreepagetable` — the source functions.
* `Below` — the nodes below a node.
* `procTop` — the two pages at the top of an address space.

## Main results

* `freewalk_returns`, `uvmfree_returns`, `procFreepagetable_returns` — **all of the pages are given
  back.**
* `procPagetable_returns` — an address space with no pages, or nothing at all.
-/

namespace Xv6Ext2.Vm

open Memory Prog

/-! ### The source functions -/

/-- Free the pages of a page table, which has so many levels left. -/
def freewalk : ℕ → ℕ → PM Unit
  | 0, _ => throw .fuel
  | levels + 1, pagetable => do
    (List.finRange 512).forM fun i => do
      let pte ← loadPte (pagetable + 8 * i)
      if pte &&& PTE_V ≠ 0 ∧ pte &&& (PTE_R ||| PTE_W ||| PTE_X) = 0 then do
        freewalk levels (pte2pa pte)
        storePte (pagetable + 8 * i) 0
      else if pte &&& PTE_V ≠ 0 then throw (.panic "freewalk: leaf")
      else return ()
    kfree pagetable

/-- Free user memory, and then the pages of the page table. -/
def uvmfree (pagetable sz : ℕ) : PM Unit := do
  if 0 < sz then uvmunmap pagetable 0 (pgroundup sz / PGSIZE) true
  freewalk 3 pagetable

/-- Create a page table for a process with the given trapframe, with no user memory; 0 if there is
no memory.  The code of the trampoline is at `trampoline`. -/
def procPagetable (trampoline trapframe : ℕ) : PM ℕ := do
  let pagetable ← uvmcreate
  if pagetable = 0 then return 0
  else if ← mappages pagetable TRAMPOLINE PGSIZE trampoline (PTE_R ||| PTE_X) then
    if ← mappages pagetable TRAPFRAME PGSIZE trapframe (PTE_R ||| PTE_W) then return pagetable
    else do
      uvmunmap pagetable TRAMPOLINE 1 false
      uvmfree pagetable 0
      return 0
  else do
    uvmfree pagetable 0
    return 0

/-- Free the page table of a process, and the memory it refers to. -/
def procFreepagetable (pagetable sz : ℕ) : PM Unit := do
  uvmunmap pagetable TRAMPOLINE 1 false
  uvmunmap pagetable TRAPFRAME 1 false
  uvmfree pagetable sz

variable {s t u s₀ : Phys} {r a b n v levels : ℕ} {others : Set ℕ} {top : ℕ → ℕ} {rest : Set ℕ}
  {p q : List (Fin 512)}

/-! ### Nodes below a node -/

/-- The page at `b` is the node at the end of `p`, or one below it. -/
def Below (mem : ℕ → UInt8) (r : ℕ) (p : List (Fin 512)) (b : ℕ) : Prop :=
  ∃ q, q.length ≤ 2 ∧ p <+: q ∧ nodeAt mem r q = some b

theorem below_nil (mem : ℕ → UInt8) (r b : ℕ) : Below mem r [] b ↔ IsNode mem r b :=
  exists_congr fun _ => and_congr_right fun _ => and_iff_right List.nil_prefix

theorem Below.isNode {mem : ℕ → UInt8} (h : Below mem r p b) : IsNode mem r b := by
  obtain ⟨q, hq, -, hb⟩ := h
  exact ⟨q, hq, hb⟩

/-- The node itself, and those below its entries. -/
theorem below_iff {mem : ℕ → UInt8} (hp : p.length ≤ 2) (ha : nodeAt mem r p = some a) :
    Below mem r p b ↔ b = a ∨ ∃ i, Below mem r (p ++ [i]) b := by
  constructor
  · intro h
    obtain ⟨q, hq, ⟨l, rfl⟩, hb⟩ := h
    rcases l with _ | ⟨i, l⟩
    · rw [List.append_nil, ha] at hb
      exact Or.inl (Option.some.inj hb).symm
    · refine Or.inr ⟨i, p ++ i :: l, hq, ⟨l, ?_⟩, hb⟩
      rw [List.append_assoc]
      rfl
  · intro h
    rcases h with rfl | ⟨i, q, hq, hpre, hb⟩
    · exact ⟨p, hp, List.prefix_rfl, ha⟩
    · exact ⟨q, hq, (List.prefix_append p [i]).trans hpre, hb⟩

/-- Nothing is below two entries of a node. -/
theorem Table.below_inj (h : Table s r others) {i j : Fin 512} (hi : Below s.mem r (p ++ [i]) b)
    (hj : Below s.mem r (p ++ [j]) b) : i = j := by
  obtain ⟨q, hq, ⟨l, rfl⟩, hb⟩ := hi
  obtain ⟨q', hq', ⟨l', rfl⟩, hb'⟩ := hj
  have heq := h.inj _ _ b hq hq' hb hb'
  rw [List.append_assoc, List.append_assoc] at heq
  have := List.append_cancel_left heq
  simp only [List.cons_append, List.nil_append, List.cons.injEq] at this
  exact this.1

/-- A node is not below one of its entries. -/
theorem Table.not_below_self (h : Table s r others) (hp : p.length ≤ 2)
    (ha : nodeAt s.mem r p = some a) (i : Fin 512) : ¬Below s.mem r (p ++ [i]) a := by
  intro hi
  obtain ⟨q, hq, ⟨l, rfl⟩, hb⟩ := hi
  have hlen := congrArg List.length (h.inj _ _ a hp hq ha hb)
  simp at hlen

/-- Nothing is below an entry that is not valid. -/
theorem not_below_of_none {mem : ℕ → UInt8} {i : Fin 512} (ha : nodeAt mem r p = some a)
    (hnone : child mem a i = none) : ¬Below mem r (p ++ [i]) b := by
  intro hi
  obtain ⟨q, -, ⟨l, rfl⟩, hb⟩ := hi
  rw [nodeAt_append, nodeAt_snoc, ha, Option.bind_some, hnone] at hb
  cases hb

/-- Every entry of a node of the last level is the entry of a virtual page. -/
theorem exists_vpage (hp : p.length = 2) (i : Fin 512) :
    ∃ v < VPAGES, dirPath v = p ∧ index 0 v = i := by
  obtain ⟨j, k, rfl⟩ := List.length_eq_two.mp hp
  refine ⟨j * 512 ^ 2 + k * 512 + i, ?_, ?_, ?_⟩
  · simp only [VPAGES]
    omega
  · simp only [dirPath, down, List.cons.injEq, index, Fin.ext_iff, and_true]
    omega
  · simp only [index, Fin.ext_iff]
    omega

/-! ### Freeing nodes -/

/-- The pages with `B` have been put on the free list, and nothing else has been touched. -/
structure Released (B : ℕ → Prop) (s t : Phys) : Prop where
  ksize : t.ksize = s.ksize
  mem : ∀ x, ¬B (pgrounddown x) → t.mem x = s.mem x
  free : ∃ l, t.freelist = l ++ s.freelist ∧ l.Nodup ∧ ∀ b, b ∈ l ↔ B b

/-- In the loop of `freewalk` at the node at `a`: the nodes below the entries `done` are gone. -/
structure Freeing (s₀ : Phys) (r : ℕ) (p : List (Fin 512)) (a : ℕ) (done : List (Fin 512))
    (s t : Phys) : Prop where
  ksize : t.ksize = s.ksize
  mem : ∀ x, pgrounddown x ≠ a → (∀ i ∈ done, ¬Below s₀.mem r (p ++ [i]) (pgrounddown x)) →
    t.mem x = s.mem x
  free : ∃ l, t.freelist = l ++ s.freelist ∧ l.Nodup ∧
    ∀ b, b ∈ l ↔ ∃ i ∈ done, Below s₀.mem r (p ++ [i]) b
  entry : ∀ j ∉ done, load t.mem (a + 8 * j) 8 = load s₀.mem (a + 8 * j) 8

/-- An entry that is not valid is passed over. -/
theorem Freeing.skip {done : List (Fin 512)} {i : Fin 512} (h : Freeing s₀ r p a done s t)
    (hnone : ∀ b, ¬Below s₀.mem r (p ++ [i]) b) : Freeing s₀ r p a (done ++ [i]) s t := by
  refine ⟨h.ksize, fun x hx hdone => ?_, ?_, fun j hj => ?_⟩
  · exact h.mem x hx fun k hk => hdone k (List.mem_append_left _ hk)
  · obtain ⟨l, hlist, hnodup, hmem⟩ := h.free
    refine ⟨l, hlist, hnodup, fun b =>
      (hmem b).trans ⟨fun ⟨k, hk, hb⟩ => ?_, fun ⟨k, hk, hb⟩ => ?_⟩⟩
    · exact ⟨k, List.mem_append_left _ hk, hb⟩
    · rcases List.mem_append.mp hk with hk | hk
      · exact ⟨k, hk, hb⟩
      · rw [List.mem_singleton.mp hk] at hb
        exact absurd hb (hnone b)
  · exact h.entry j fun hj' => hj (List.mem_append_left _ hj')

/-- The nodes below an entry are freed, and the entry is cleared. -/
theorem Freeing.step {done : List (Fin 512)} {i : Fin 512} (htable : Table s₀ r others)
    (hp : p.length ≤ 2) (ha : nodeAt s₀.mem r p = some a) (hi : i ∉ done)
    (h : Freeing s₀ r p a done s t) (hrel : Released (Below s₀.mem r (p ++ [i])) t u)
    {w : Phys} (hw : w = { u with mem := store u.mem (a + 8 * i) 8 0 }) :
    Freeing s₀ r p a (done ++ [i]) s w := by
  subst hw
  have haligned := (htable.frame_node ⟨p, hp, ha⟩).1
  have hpage : ∀ (j : Fin 512) k, k < 8 → pgrounddown (a + 8 * j + k) = a := fun j k hk =>
    pgrounddown_eq haligned (by simp only [PGSIZE]; omega)
  refine ⟨hrel.ksize.trans h.ksize, fun x hx hdone => ?_, ?_, fun j hj => ?_⟩
  · have hout : ¬(a + 8 * i ≤ x ∧ x < a + 8 * i + 8) := fun hin =>
      hx (pgrounddown_eq haligned (by simp only [PGSIZE]; omega))
    refine (store_of_not_mem hout).trans ?_
    rw [hrel.mem x (hdone i (List.mem_append_right _ (List.mem_singleton_self i)))]
    exact h.mem x hx fun k hk => hdone k (List.mem_append_left _ hk)
  · obtain ⟨l, hlist, hnodup, hmem⟩ := h.free
    obtain ⟨l', hlist', hnodup', hmem'⟩ := hrel.free
    refine ⟨l' ++ l, ?_, List.nodup_append'.mpr ⟨hnodup', hnodup, fun b hb hb' => ?_⟩, fun b => ?_⟩
    · show u.freelist = _
      rw [hlist', hlist, List.append_assoc]
    · obtain ⟨k, hk, hbk⟩ := (hmem b).mp hb'
      exact hi (htable.below_inj ((hmem' b).mp hb) hbk ▸ hk)
    · rw [List.mem_append, hmem', hmem]
      constructor
      · rintro (hb | ⟨k, hk, hb⟩)
        · exact ⟨i, List.mem_append_right _ (List.mem_singleton_self i), hb⟩
        · exact ⟨k, List.mem_append_left _ hk, hb⟩
      · rintro ⟨k, hk, hb⟩
        rcases List.mem_append.mp hk with hk | hk
        · exact Or.inr ⟨k, hk, hb⟩
        · exact Or.inl (List.mem_singleton.mp hk ▸ hb)
  · rw [List.mem_append, List.mem_singleton, not_or] at hj
    have hij : (j : ℕ) ≠ i := fun hji => hj.2 (Fin.ext hji)
    have hstore : load (store u.mem (a + 8 * i) 8 0) (a + 8 * j) 8 = load u.mem (a + 8 * j) 8 := by
      refine load_store_of_apart ?_
      unfold Apart
      omega
    refine hstore.trans ((load_congr fun k hk => hrel.mem _ ?_).trans (h.entry j hj.1))
    rw [hpage j k hk]
    exact htable.not_below_self hp ha i

/-- The end of `freewalk`: the node itself is freed. -/
theorem Freeing.finish (htable : Table s₀ r others) (hp : p.length ≤ 2)
    (ha : nodeAt s₀.mem r p = some a) (hsize : s.ksize = s₀.ksize)
    (h : Freeing s₀ r p a (List.finRange 512) s t) :
    Returns (kfree a) t fun _ u => Released (Below s₀.mem r p) s u := by
  have hframe := htable.frame_node ⟨p, hp, ha⟩
  refine Yields.of_ok (kfree_eq (hframe.congr (h.ksize.trans hsize))) ⟨h.ksize, fun x hx => ?_, ?_⟩
  · rw [below_iff hp ha, not_or, not_exists] at hx
    have hout : ¬(a ≤ x ∧ x < a + PGSIZE) := fun hin => hx.1 (pgrounddown_eq hframe.1 hin)
    exact (fill_of_not_mem hout).trans (h.mem x hx.1 fun i _ => hx.2 i)
  · obtain ⟨l, hlist, hnodup, hmem⟩ := h.free
    refine ⟨a :: l, ?_, List.nodup_cons.mpr ⟨fun hal => ?_, hnodup⟩, fun b => ?_⟩
    · show a :: t.freelist = _
      rw [hlist]
      rfl
    · obtain ⟨i, -, hi⟩ := (hmem a).mp hal
      exact htable.not_below_self hp ha i hi
    · rw [List.mem_cons, hmem, below_iff hp ha]
      exact or_congr_right (exists_congr fun i => and_iff_right (List.mem_finRange i))

/-- **`freewalk` frees a node and all below it.** -/
theorem freewalk_below (htable : Table s₀ r others)
    (hleaf : ∀ v < VPAGES, pteOf s₀.mem r v &&& PTE_V = 0) :
    ∀ (levels : ℕ) (p : List (Fin 512)) (a : ℕ) (s : Phys), p.length + levels = 3 → 0 < levels →
      nodeAt s₀.mem r p = some a → s.ksize = s₀.ksize →
        (∀ x, Below s₀.mem r p (pgrounddown x) → s.mem x = s₀.mem x) →
          Returns (freewalk levels a) s fun _ t => Released (Below s₀.mem r p) s t := by
  intro levels
  induction levels with
  | zero => intro p a s _ hpos; omega
  | succ levels ih =>
    intro p a s hlen _ ha hsize hmem
    have hp : p.length ≤ 2 := by omega
    have haligned := (htable.frame_node ⟨p, hp, ha⟩).1
    have hself : ∀ (j : Fin 512) k, k < 8 → Below s₀.mem r p (pgrounddown (a + 8 * j + k)) :=
      fun j k hk => by
        rw [pgrounddown_eq haligned (by simp only [PGSIZE]; omega), below_iff hp ha]
        exact Or.inl rfl
    rw [freewalk]
    refine (Yields.forM (I := fun done t => Freeing s₀ r p a done s t) ?_ ?_).bind
      fun _ t ht => ht.finish htable hp ha hsize
    · refine ⟨rfl, fun _ _ _ => rfl, ⟨[], rfl, List.nodup_nil, by simp⟩, fun j _ => ?_⟩
      exact load_congr fun k hk => hmem _ (hself j k hk)
    · intro done i suf t hsplit ht
      have hi : i ∉ done := by
        have hnodup := List.nodup_finRange 512
        rw [hsplit] at hnodup
        exact fun hin => (List.nodup_append'.mp hnodup).2.2 hin List.mem_cons_self
      refine Yields.of_eq (bind_of_ok rfl) ?_
      rw [ht.entry i hi]
      by_cases hvalid : load s₀.mem (a + 8 * i) 8 &&& PTE_V ≠ 0
      · have hupper : p.length ≤ 1 := by
          by_contra hlong
          obtain ⟨v, hv, hdir, hindex⟩ := exists_vpage (show p.length = 2 by omega) i
          have hpte := hleaf v hv
          rw [pteOf_of_some (hdir ▸ ha), hindex] at hpte
          exact hvalid hpte
        rw [if_pos ⟨hvalid, htable.dir p a i hupper ha hvalid⟩]
        have hchild : nodeAt s₀.mem r (p ++ [i]) = some (pte2pa (load s₀.mem (a + 8 * i) 8)) := by
          rw [nodeAt_snoc, ha, Option.bind_some, child, if_pos hvalid]
        refine (ih (p ++ [i]) _ t (by rw [List.length_append]; simp; omega) (by omega) hchild
          (ht.ksize.trans hsize) fun x hx => ?_).bind fun _ u hu =>
            Yields.of_ok rfl (ht.step htable hp ha hi hu rfl)
        -- the pages below this entry have not been reached yet
        have hxa : pgrounddown x ≠ a := fun hxa => htable.not_below_self hp ha i (hxa ▸ hx)
        rw [ht.mem x hxa fun j hj hjx => hi (htable.below_inj hx hjx ▸ hj)]
        exact hmem x ((below_iff hp ha).mpr (Or.inr ⟨i, hx⟩))
      · rw [if_neg fun hboth => hvalid hboth.1, if_neg hvalid]
        exact Yields.of_ok rfl (ht.skip fun b => not_below_of_none ha (if_neg hvalid))

/-- What a page table that maps nothing leaves when it is freed. -/
theorem freewalk_returns (h : Table s r others)
    (hleaf : ∀ v < VPAGES, pteOf s.mem r v &&& PTE_V = 0) :
    Returns (freewalk 3 r) s fun _ t => Pool t others ∧ Kept others s t := by
  refine (freewalk_below h hleaf 3 [] r s rfl (by decide) rfl rfl fun _ _ => rfl).mono
    fun _ t ht => ?_
  obtain ⟨l, hlist, hnodup, hmem⟩ := ht.free
  have hnode : ∀ b, b ∈ l ↔ IsNode s.mem r b := fun b => (hmem b).trans (below_nil s.mem r b)
  refine ⟨⟨fun a => ?_, ?_, fun a ha => ?_⟩, ht.ksize, fun x hx => ht.mem x fun hb => ?_⟩
  · rw [Phys.isFrame_congr ht.ksize, h.all a, hlist, List.mem_append, hnode]
    tauto
  · rw [hlist]
    refine List.nodup_append'.mpr ⟨hnodup, h.nodup, fun b hb hb' => ?_⟩
    exact (h.free b hb').1 ((hnode b).mp hb)
  · rw [hlist, List.mem_append, hnode] at ha
    exact ha.elim (h.apart a) fun hf => (h.free a hf).2
  · exact h.apart _ hb.isNode hx

/-- **`uvmfree` gives back all of the pages.** -/
theorem uvmfree_returns {sz : ℕ} (h : Space s r (pages sz) top rest)
    (htop : ∀ v, top v &&& PTE_V = 0) :
    Returns (uvmfree r sz) s fun _ t => Pool t rest ∧ Kept rest s t := by
  -- the rest, once the pages of the process are gone
  have hwalk : ∀ t, Space t r 0 top rest → Kept rest s t →
      Returns (freewalk 3 r) t fun _ u => Pool u rest ∧ Kept rest s u := fun t ht hkept => by
    refine (freewalk_returns ht.table fun v hv => ?_).mono fun _ u hu => ?_
    · rw [ht.above v (Nat.zero_le v) hv]
      exact htop v
    · rw [owned_zero, Set.empty_union] at hu
      exact ⟨hu.1, hkept.trans hu.2⟩
  unfold uvmfree
  by_cases hsz : 0 < sz
  · rw [if_pos hsz, pgroundup_eq h.le, Nat.mul_div_cancel _ (by decide)]
    exact h.clear.bind fun _ t ht => hwalk t ht.1 ht.2
  · obtain rfl : sz = 0 := by omega
    rw [pages_zero] at h
    rw [if_neg hsz]
    exact hwalk s h (Kept.refl rest s)

/-! ### The pages at the top -/

/-- An operation that changes the entry of a page at the top. -/
theorem Space.retop {v₀ w : ℕ} (h : Space s r n top rest) (hv₀ : TRAPFRAME / PGSIZE ≤ v₀)
    (hw : w &&& PTE_U = 0) (hacts : Acts r (owned s.mem r n ∪ rest) (owned s.mem r n ∪ rest) s t)
    (hpte : ∀ v < VPAGES, pteOf t.mem r v = if v = v₀ then w else pteOf s.mem r v) :
    Resized r n (Function.update top v₀ w) rest s t := by
  have hn := h.vpages
  have hroom : n < v₀ := by
    have := h.room
    simp only [PGSIZE, TRAPFRAME, TRAMPOLINE, MAXVA] at *
    omega
  have hold : ∀ v < n, pteOf t.mem r v = pteOf s.mem r v := fun v hv => by
    rw [hpte v (by omega), if_neg (by omega)]
  refine ⟨h.update hacts (fun v hv => by rw [frameOf, hold v hv]) (fun v hv => ?_)
    (fun v hv => ?_) (fun v hv hlt => ?_) (fun v hv => ?_) fun v => ?_, hold,
    hacts.kept subset_rfl subset_rfl⟩
  · rw [hold v hv]
    exact h.valid v hv
  · rw [hold v hv]
    exact h.read v hv
  · rw [hpte v hlt, Function.update_apply, h.above v hv hlt]
  · rw [Function.update_of_ne (by omega)]
    exact h.low v hv
  · rw [Function.update_apply]
    split
    · exact hw
    · exact h.kernel v

theorem mapEntry_flags {pa perm : ℕ} (hperm : perm < 1024) (i : ℕ) :
    pteFlags (mapEntry pa perm i) = perm ||| PTE_V := by
  rw [mapEntry, Nat.lor_assoc]
  exact pteFlags_pte (Nat.or_lt_two_pow (n := 10) hperm (by decide))

/-- A page at the top is mapped. -/
theorem Space.mapTop (h : Space s r n top rest) (v₀ pa perm : ℕ) (hv₀ : TRAPFRAME / PGSIZE ≤ v₀)
    (hlt : (v₀ + 1) * PGSIZE ≤ MAXVA) (hfree : top v₀ = 0) (hpa : pa < 2 ^ 64) (hperm : perm < 1024)
    (huser : (perm ||| PTE_V) &&& PTE_U = 0) :
    Returns (mappages r (v₀ * PGSIZE) PGSIZE pa perm) s fun ok t =>
      ok = true ∧ Resized r n (Function.update top v₀ (mapEntry pa perm 0)) rest s t ∨
        ok = false ∧ Resized r n top rest s t := by
  have hroom : n ≤ v₀ := by
    have := h.room
    simp only [PGSIZE, TRAPFRAME, TRAMPOLINE, MAXVA] at *
    omega
  have hvp : v₀ < VPAGES := vpage_lt (lt_of_lt_of_le (by simp only [PGSIZE]; omega) hlt)
  have hmap := mappages_returns (v := v₀) (n := 1) hperm h.table hpa Nat.one_pos hlt fun i hi => by
    rw [show v₀ + i = v₀ by omega, h.above v₀ hroom hvp, hfree]
    rfl
  rw [Nat.one_mul] at hmap
  refine hmap.mono fun ok t ht => ?_
  obtain ⟨k, hk, hok, hacts, hpte⟩ := ht
  rcases Nat.le_one_iff_eq_zero_or_eq_one.mp hk with rfl | rfl
  · have hfalse : ok = false := by
      rw [← Bool.not_eq_true]
      exact fun htrue => absurd (hok.mp htrue) (by decide)
    have hsame : ∀ v < VPAGES, pteOf t.mem r v = pteOf s.mem r v := fun v hv => by
      rw [hpte v hv, if_neg (by omega)]
    have hn := h.vpages
    exact Or.inr ⟨hfalse, h.congr hacts hsame, fun v hv => hsame v (by omega),
      hacts.kept subset_rfl subset_rfl⟩
  · refine Or.inl ⟨hok.mpr rfl, h.retop hv₀ ?_ hacts fun v hv => ?_⟩
    · rw [← pteFlags_and rfl, mapEntry_flags hperm]
      exact huser
    · rw [hpte v hv]
      by_cases hvv : v = v₀
      · rw [if_pos hvv, if_pos (by omega), hvv, Nat.sub_self]
      · rw [if_neg hvv, if_neg (by omega)]

/-- A page at the top is unmapped. -/
theorem Space.unmapTop (h : Space s r n top rest) (v₀ : ℕ) (hv₀ : TRAPFRAME / PGSIZE ≤ v₀)
    (hlt : (v₀ + 1) * PGSIZE ≤ MAXVA) (hvalid : top v₀ &&& PTE_V ≠ 0)
    (hleaf : pteFlags (top v₀) ≠ PTE_V) :
    Returns (uvmunmap r (v₀ * PGSIZE) 1 false) s fun _ t =>
      Resized r n (Function.update top v₀ 0) rest s t := by
  have hroom : n ≤ v₀ := by
    have := h.room
    simp only [PGSIZE, TRAPFRAME, TRAMPOLINE, MAXVA] at *
    omega
  have hvp : v₀ < VPAGES := vpage_lt (lt_of_lt_of_le (by simp only [PGSIZE]; omega) hlt)
  have hentry : ∀ i < 1, pteOf s.mem r (v₀ + i) = top v₀ := fun i hi => by
    rw [show v₀ + i = v₀ by omega, h.above v₀ hroom hvp]
  have hrem : Removable false (owned s.mem r n ∪ rest) s r v₀ 1 :=
    ⟨fun i hi => by rwa [hentry i hi], fun i hi => by rwa [hentry i hi], nofun, nofun⟩
  refine (uvmunmap_returns h.table hlt hrem).mono fun _ t ht => ?_
  have hacts := ht.acts
  rw [freed_false, Set.sdiff_empty] at hacts
  refine h.retop hv₀ (by decide) hacts fun v hv => ?_
  rw [ht.pte v hv]
  by_cases hvv : v = v₀
  · rw [if_pos hvv, if_pos (by omega)]
  · rw [if_neg hvv, if_neg (by omega)]

/-! ### The page table of a process -/

/-- The trampoline. -/
def trampolineTop (trampoline : ℕ) : ℕ → ℕ :=
  Function.update (fun _ => 0) (TRAMPOLINE / PGSIZE) (mapEntry trampoline (PTE_R ||| PTE_X) 0)

/-- The trampoline and the trapframe. -/
def procTop (trampoline trapframe : ℕ) : ℕ → ℕ :=
  Function.update (trampolineTop trampoline) (TRAPFRAME / PGSIZE)
    (mapEntry trapframe (PTE_R ||| PTE_W) 0)

/-- **What `proc_pagetable` does**: an address space with no pages, or nothing at all. -/
theorem procPagetable_returns {trampoline trapframe : ℕ} (h : Pool s rest)
    (htrampoline : trampoline < 2 ^ 64) (htrapframe : trapframe < 2 ^ 64) :
    Returns (procPagetable trampoline trapframe) s fun o t => Kept rest s t ∧
      (o = 0 ∧ Pool t rest ∨ o ≠ 0 ∧ Space t o 0 (procTop trampoline trapframe) rest) := by
  unfold procPagetable
  refine (uvmcreate_returns h).bind fun r t ht => ?_
  obtain ⟨hkept, ⟨rfl, hpool⟩ | ⟨hne, htable, hpte⟩⟩ := ht
  · rw [if_pos rfl]
    exact Yields.of_ok rfl ⟨hkept, Or.inl ⟨rfl, hpool⟩⟩
  rw [if_neg hne]
  -- on failure the page table is freed
  have hfail : ∀ u, Space u r (pages 0) (fun _ => 0) rest → Kept rest s u →
      Returns (do uvmfree r 0; return 0) u fun o w => Kept rest s w ∧
        (o = 0 ∧ Pool w rest ∨ o ≠ 0 ∧ Space w o 0 (procTop trampoline trapframe) rest) :=
    fun u hspace hkept' => (uvmfree_returns hspace fun _ => rfl).bind fun _ w hw =>
      Yields.of_ok rfl ⟨hkept'.trans hw.2, Or.inl ⟨rfl, hw.1⟩⟩
  refine ((Space.empty htable hpte).mapTop (TRAMPOLINE / PGSIZE) trampoline
    (PTE_R ||| PTE_X) (by decide) (by decide) rfl htrampoline (by decide)
    (by decide)).bind fun ok u hu => ?_
  rcases hu with ⟨rfl, hu⟩ | ⟨rfl, hu⟩
  · rw [if_pos rfl]
    have hkept' := hkept.trans (hu.kept.mono Set.subset_union_right)
    refine (hu.space.mapTop (TRAPFRAME / PGSIZE) trapframe
      (PTE_R ||| PTE_W) (by decide) (by decide) rfl htrapframe (by decide)
      (by decide)).bind fun ok w hw => ?_
    have hkept'' := hkept'.trans (hw.elim (fun hw => hw.2.kept.mono Set.subset_union_right)
      fun hw => hw.2.kept.mono Set.subset_union_right)
    rcases hw with ⟨rfl, hw⟩ | ⟨rfl, hw⟩
    · rw [if_pos rfl]
      exact Yields.of_ok rfl ⟨hkept'', Or.inr ⟨hne, hw.space⟩⟩
    · rw [if_neg (by decide)]
      have hentry : mapEntry trampoline (PTE_R ||| PTE_X) 0 &&& PTE_V ≠ 0 ∧
          pteFlags (mapEntry trampoline (PTE_R ||| PTE_X) 0) ≠ PTE_V := by
        rw [← pteFlags_and rfl, mapEntry_flags (by decide)]
        decide
      refine (hw.space.unmapTop (TRAMPOLINE / PGSIZE) (by decide) (by decide) ?_ ?_).bind
        fun _ x hx => hfail x ?_ (hkept''.trans (hx.kept.mono Set.subset_union_right))
      · rw [Function.update_self]
        exact hentry.1
      · rw [Function.update_self]
        exact hentry.2
      · have hspace := hx.space
        rwa [Function.update_idem, Function.update_eq_self] at hspace
  · rw [if_neg (by decide)]
    exact hfail u hu.space (hkept.trans (hu.kept.mono Set.subset_union_right))

/-- **What `proc_freepagetable` does**: all of the pages are given back. -/
theorem procFreepagetable_returns {trampoline trapframe sz : ℕ}
    (h : Space s r (pages sz) (procTop trampoline trapframe) rest) :
    Returns (procFreepagetable r sz) s fun _ t => Pool t rest ∧ Kept rest s t := by
  have hentry : ∀ {pa perm : ℕ}, perm < 1024 → (perm ||| PTE_V) &&& PTE_V ≠ 0 →
      perm ||| PTE_V ≠ PTE_V → mapEntry pa perm 0 &&& PTE_V ≠ 0 ∧
        pteFlags (mapEntry pa perm 0) ≠ PTE_V := fun hperm hvalid hleaf => by
    rw [← pteFlags_and rfl, mapEntry_flags hperm]
    exact ⟨hvalid, hleaf⟩
  unfold procFreepagetable
  refine (h.unmapTop (TRAMPOLINE / PGSIZE) (by decide) (by decide) ?_ ?_).bind
    fun _ t ht => ?_
  · exact (hentry (by decide) (by decide) (by decide)).1
  · exact (hentry (by decide) (by decide) (by decide)).2
  refine (ht.space.unmapTop (TRAPFRAME / PGSIZE) (by decide) (by decide) ?_ ?_).bind
    fun _ u hu => ?_
  · exact (hentry (by decide) (by decide) (by decide)).1
  · exact (hentry (by decide) (by decide) (by decide)).2
  have hkept := (ht.kept.mono Set.subset_union_right).trans (hu.kept.mono Set.subset_union_right)
  refine (uvmfree_returns hu.space fun v => ?_).mono fun _ w hw => ⟨hw.1, hkept.trans hw.2⟩
  rw [procTop, trampolineTop, Function.update_comm (by decide), Function.update_idem,
    Function.update_comm (by decide), Function.update_idem]
  simp only [Function.update_apply, ite_self]
  rfl

/-- The trapframe and the page table of a process without memory. -/
def newProc : PM (ℕ × ℕ) := do
  let trapframe ← kalloc
  let pagetable ← procPagetable 0 trapframe
  return (trapframe, pagetable)

theorem newProc_space {trapframe : ℕ} (hn : n * PGSIZE ≤ 128 * 1024 * 1024)
    (hrun : newProc (lastPages n) = .ok ((trapframe, r), s)) (htf : trapframe ≠ 0) (hr : r ≠ 0) :
    Space s r (pages 0) (procTop 0 trapframe) {trapframe} := by
  obtain ⟨_, s₁, halloc, hrun⟩ := bind_eq_ok.mp hrun
  obtain ⟨_, _, htable, hrun⟩ := bind_eq_ok.mp hrun
  injection hrun with hrun
  simp only [Prod.mk.injEq] at hrun
  obtain ⟨⟨rfl, rfl⟩, rfl⟩ := hrun
  obtain ⟨-, ⟨hzero, -⟩ | ⟨-, -, hpool⟩⟩ := (kalloc_pool (pool_lastPages hn)).sat _ _ halloc
  · exact absurd hzero htf
  obtain ⟨-, ⟨hzero, -⟩ | ⟨-, hspace⟩⟩ := (procPagetable_returns hpool (Nat.two_pow_pos 64)
    (hpool.frame (Set.mem_insert _ _)).lt).sat _ _ htable
  · exact absurd hzero hr
  · rw [pages_zero]
    rwa [insert_empty_eq] at hspace

end Xv6Ext2.Vm
