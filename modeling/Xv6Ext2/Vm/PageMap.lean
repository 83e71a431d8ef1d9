import Xv6Ext2.Vm.PageTable

/-!
# Page tables are maps

`mappages` and `uvmunmap` of `kernel/vm.c` change the entries of a range of virtual pages and no
others.  The slots of different virtual pages are different words, since a page table has no page
twice, so a page table is a map from virtual pages to entries.

Other parts of the kernel take pages from the allocator, use them and give them back.  None of
this touches a node, and `Table.elsewhere` is the rule for it.

## Main definitions

* `Built r s others` — the page table at `r` has been built by `uvmcreate`, `mappages` and
  `uvmunmap`, with other code acting on pages of its own in between.
* `translate` — the entry that an address is translated by.

## Main results

* `Table.set` — a store to a slot changes the entry of one virtual page.
* `mappages_returns`, `uvmunmap_returns` — the entries after a call.
* `pageTable_isMap` — **page tables are finite maps.**
-/

namespace Xv6Ext2.Vm

open Memory Prog

variable {s t u : Phys} {r a b c v w n pa perm slot : ℕ} {others others' : Set ℕ}

/-! ### Slots -/

theorem IsSlot.load_eq (h : IsSlot s.mem r v slot) : load s.mem slot 8 = pteOf s.mem r v := by
  obtain ⟨b, hb, rfl⟩ := h
  rw [pteOf_of_some hb]

/-- Slots stay where they are. -/
theorem Acts.isSlot (h : Acts r others others' s t) (hslot : IsSlot s.mem r v slot) :
    IsSlot t.mem r v slot := by
  obtain ⟨b, hb, rfl⟩ := hslot
  exact ⟨b, h.node _ b le_rfl hb, rfl⟩

theorem pteOf_lt (mem : ℕ → UInt8) (r v : ℕ) : pteOf mem r v < 2 ^ 64 := by
  unfold pteOf
  split
  · exact load_lt 8
  · exact Nat.two_pow_pos 64

/-- **A store to a slot changes the entry of one virtual page.** -/
theorem Table.set (h : Table s r others) (hv : v < VPAGES) (hslot : IsSlot s.mem r v slot) (w : ℕ)
    (ht : t = { s with mem := store s.mem slot 8 w }) :
    Acts r others others s t ∧
      ∀ v' < VPAGES, pteOf t.mem r v' = if v' = v then w % 2 ^ 64 else pteOf s.mem r v' := by
  obtain ⟨b, hb, rfl⟩ := hslot
  subst ht
  have hbnode : IsNode s.mem r b := ⟨dirPath v, le_rfl, hb⟩
  have hbframe := h.frame_node hbnode
  -- a slot of another node is another word
  have hother : ∀ p a, p.length ≤ 2 → nodeAt s.mem r p = some a → p ≠ dirPath v → ∀ j : Fin 512,
      load (store s.mem (b + 8 * index 0 v) 8 w) (a + 8 * j) 8 = load s.mem (a + 8 * j) 8 := by
    intro p a hp ha hne j
    have hab : a ≠ b := fun hab => hne (h.inj p (dirPath v) a hp le_rfl ha (hab ▸ hb))
    exact load_store_of_apart
      (apart_entries (h.frame_node ⟨p, hp, ha⟩).1 hbframe.1 hab j (index 0 v))
  have hupper : ∀ p : List (Fin 512), p.length ≤ 1 → p ≠ dirPath v := fun p hp hpv => by
    rw [hpv] at hp
    exact Nat.not_succ_le_self 1 hp
  have hnode : ∀ p : List (Fin 512), p.length ≤ 2 →
      nodeAt (store s.mem (b + 8 * index 0 v) 8 w) r p = nodeAt s.mem r p :=
    nodeAt_congr fun p a hp ha => hother p a (by omega) ha (hupper p hp)
  have hisNode : ∀ a, IsNode (store s.mem (b + 8 * index 0 v) 8 w) r a ↔ IsNode s.mem r a :=
    fun a => exists_congr fun p => and_congr_right fun hp => by rw [hnode p hp]
  refine ⟨⟨⟨fun a => ?_, h.nodup, fun a ha => ?_, fun a ha => ?_, fun p q a hp hq ha hb => ?_,
    fun p a i hp ha => ?_⟩, rfl, fun p a hp ha => (hnode p hp).trans ha, fun x hx _ => ?_⟩,
    fun v' hv' => ?_⟩
  · rw [hisNode]
    exact h.all a
  · rw [hisNode]
    exact h.free a ha
  · exact h.apart a ((hisNode a).mp ha)
  · exact h.inj p q a hp hq ((hnode p hp).symm.trans ha) ((hnode q hq).symm.trans hb)
  · rw [hnode p (by omega)] at ha
    rw [hother p a (by omega) ha (hupper p hp)]
    exact h.dir p a i hp ha
  · refine store_of_not_mem fun hentry => h.apart b hbnode ?_
    have hpage : b ≤ x ∧ x < b + PGSIZE := by simp only [PGSIZE]; omega
    exact pgrounddown_eq hbframe.1 hpage ▸ hx
  · by_cases hvv : v' = v
    · rw [if_pos hvv, hvv, pteOf_of_some ((hnode _ le_rfl).trans hb)]
      exact load_store le_rfl
    · rw [if_neg hvv]
      cases hv's : nodeAt s.mem r (dirPath v') with
      | none => rw [pteOf_of_none hv's, pteOf_of_none ((hnode _ le_rfl).trans hv's)]
      | some a =>
        rw [pteOf_of_some hv's, pteOf_of_some ((hnode _ le_rfl).trans hv's)]
        by_cases hdir : dirPath v' = dirPath v
        · obtain rfl : a = b := Option.some.inj (hv's.symm.trans (hdir ▸ hb))
          have hne : (index 0 v' : ℕ) ≠ index 0 v := fun hi =>
            hvv (eq_of_index hv' hv hdir (Fin.ext hi))
          refine load_store_of_apart ?_
          unfold Apart
          omega
        · exact hother (dirPath v') a le_rfl hv's hdir _

/-! ### Other code -/

/-- **Code that has nothing to do with the page table** moves pages between the free list and
the others, and leaves the nodes alone. -/
theorem Table.elsewhere (h : Table s r others) (hsize : t.ksize = s.ksize)
    (hnode : ∀ x, IsNode s.mem r (pgrounddown x) → t.mem x = s.mem x)
    (hall : ∀ a, a ∈ t.freelist ∨ a ∈ others' ↔ a ∈ s.freelist ∨ a ∈ others)
    (hnodup : t.freelist.Nodup) (hfree : ∀ a ∈ t.freelist, a ∉ others') : Table t r others' := by
  obtain ⟨hnodeAt, -, hload⟩ := entries_congr h.aligned hnode
  have hisNode : ∀ a, IsNode t.mem r a ↔ IsNode s.mem r a :=
    fun a => exists_congr fun p => and_congr_right fun hp => by rw [hnodeAt p hp]
  have hold : ∀ a, a ∈ t.freelist ∨ a ∈ others' → ¬IsNode s.mem r a := fun a ha hn =>
    ((hall a).mp ha).elim (fun hf => (h.free a hf).1 hn) (h.apart a hn)
  refine ⟨fun a => ?_, hnodup, fun a ha => ?_, fun a ha ha' => ?_, fun p q a hp hq ha hb => ?_,
    fun p a i hp ha => ?_⟩
  · have := hall a
    rw [Phys.isFrame_congr hsize, h.all a, hisNode]
    tauto
  · exact ⟨fun hn => hold a (Or.inl ha) ((hisNode a).mp hn), hfree a ha⟩
  · exact hold a (Or.inr ha') ((hisNode a).mp ha)
  · exact h.inj p q a hp hq ((hnodeAt p hp).symm.trans ha) ((hnodeAt q hq).symm.trans hb)
  · rw [hnodeAt p (by omega)] at ha
    rw [hload p a (by omega) ha i]
    exact h.dir p a i hp ha

theorem Table.steady (h : Table s r others) (hsize : t.ksize = s.ksize)
    (hnode : ∀ x, IsNode s.mem r (pgrounddown x) → t.mem x = s.mem x)
    (hmem : ∀ x, pgrounddown x ∈ others → pgrounddown x ∈ others' → t.mem x = s.mem x)
    (h' : Table t r others') : Steady r others others' s t :=
  have hnodeAt := entries_congr h.aligned hnode
  ⟨⟨h', hsize, fun p _ hp ha => (hnodeAt.1 p hp).trans ha, hmem⟩, hnodeAt.2.1⟩

/-- A page taken from the allocator belongs to others from now on. -/
theorem Table.take (h : Table s r others) {fl : List ℕ} (hfree : s.freelist = c :: fl)
    (hsize : t.ksize = s.ksize) (hlist : t.freelist = fl)
    (hmem : ∀ x, ¬(c ≤ x ∧ x < c + PGSIZE) → t.mem x = s.mem x) :
    c ∉ others ∧ Steady r others (insert c others) s t := by
  have hc : c ∈ s.freelist := by rw [hfree]; exact List.mem_cons_self
  have hframe := h.frame_free hc
  have hnodup : c ∉ fl ∧ fl.Nodup := List.nodup_cons.mp (hfree ▸ h.nodup)
  have hpage : ∀ x, pgrounddown x ≠ c → t.mem x = s.mem x := fun x hx =>
    hmem x fun hp => hx (pgrounddown_eq hframe.1 hp)
  have hnode : ∀ x, IsNode s.mem r (pgrounddown x) → t.mem x = s.mem x := fun x hx =>
    hpage x fun hxc => (h.free c hc).1 (hxc ▸ hx)
  refine ⟨(h.free c hc).2, h.steady hsize hnode (fun x hx _ => hpage x fun hxc => ?_)
    (h.elsewhere hsize hnode (fun a => ?_) ?_ fun a ha => ?_)⟩
  · exact (h.free c hc).2 (hxc ▸ hx)
  · rw [hlist, hfree, Set.mem_insert_iff, List.mem_cons]
    tauto
  · rw [hlist]
    exact hnodup.2
  · rw [hlist] at ha
    rw [Set.mem_insert_iff]
    rintro (rfl | ha')
    · exact hnodup.1 ha
    · exact (h.free a (by rw [hfree]; exact List.mem_cons_of_mem c ha)).2 ha'

/-- A page that others give back. -/
theorem Table.give (h : Table s r others) (hc : c ∈ others) (hsize : t.ksize = s.ksize)
    (hlist : t.freelist = c :: s.freelist)
    (hmem : ∀ x, ¬(c ≤ x ∧ x < c + PGSIZE) → t.mem x = s.mem x) :
    Steady r others (others \ {c}) s t := by
  have hframe := h.frame_other hc
  have hpage : ∀ x, pgrounddown x ≠ c → t.mem x = s.mem x := fun x hx =>
    hmem x fun hp => hx (pgrounddown_eq hframe.1 hp)
  have hcfree : c ∉ s.freelist := fun hcf => (h.free c hcf).2 hc
  have hnode : ∀ x, IsNode s.mem r (pgrounddown x) → t.mem x = s.mem x := fun x hx =>
    hpage x fun hxc => h.apart c (hxc ▸ hx) hc
  refine h.steady hsize hnode (fun x _ hx => hpage x hx.2)
    (h.elsewhere hsize hnode (fun a => ?_) ?_ fun a ha => ?_)
  · by_cases hac : a = c
    · simp [hlist, hac, hc]
    · simp [hlist, hac]
  · rw [hlist]
    exact List.nodup_cons.mpr ⟨hcfree, h.nodup⟩
  · rw [hlist, List.mem_cons] at ha
    rcases ha with rfl | ha
    · exact fun hd => hd.2 rfl
    · exact fun hd => (h.free a ha).2 hd.1

/-- What `kalloc` gives to others. -/
theorem kalloc_steady (h : Table s r others) : Returns kalloc s fun o t =>
    o = 0 ∧ Steady r others others s t ∨
      o ≠ 0 ∧ s.IsFrame o ∧ o ∉ others ∧ Steady r others (insert o others) s t := by
  refine (kalloc_returns s).mono fun o t ht => ?_
  rcases ht with ⟨rfl, rfl⟩ | ⟨fl, hfree, rfl⟩
  · exact Or.inl ⟨rfl, Steady.of_denied h _⟩
  · have hframe : s.IsFrame o := h.frame_free (by rw [hfree]; exact List.mem_cons_self)
    have htake := h.take (t := { s with
      denied := s.denied.tail, freelist := fl, mem := fill s.mem o PGSIZE 5 }) hfree rfl rfl
      fun x hx => fill_of_not_mem hx
    exact Or.inr ⟨hframe.ne_zero, hframe, htake⟩

theorem kfree_eq (h : s.IsFrame c) : kfree c s =
    .ok ((), { s with mem := fill s.mem c PGSIZE 1, freelist := c :: s.freelist }) := by
  have hguard : ¬(c % PGSIZE ≠ 0 ∨ c < s.kend ∨ PHYSTOP ≤ c) := by
    have := h.2.2
    have := h.2.1
    have := h.1
    simp only [PGSIZE] at *
    omega
  unfold kfree
  refine (bind_of_ok (get_apply s)).trans ?_
  rw [if_neg hguard]
  rfl

/-- What `kfree` takes from them. -/
theorem kfree_steady (h : Table s r others) (hc : c ∈ others) :
    Returns (kfree c) s fun _ t => Steady r others (others \ {c}) s t :=
  Yields.of_ok (kfree_eq (h.frame_other hc)) (h.give hc rfl rfl fun _ hx => fill_of_not_mem hx)

/-! ### mappages -/

/-- The entry that `mappages` makes. -/
abbrev mapEntry (pa perm i : ℕ) : ℕ := pa2pte ((pa + i * PGSIZE) % 2 ^ 64) ||| perm ||| PTE_V

theorem mapEntry_lt (hperm : perm < 1024) (i : ℕ) : mapEntry pa perm i < 2 ^ 64 := by
  rw [mapEntry, Nat.lor_assoc]
  exact pte_lt (Nat.mod_lt _ (Nat.two_pow_pos 64)) (Nat.or_lt_two_pow (n := 10) hperm (by decide))

theorem mapEntry_succ (pa perm i : ℕ) :
    mapEntry ((pa + PGSIZE) % 2 ^ 64) perm i = mapEntry pa perm (i + 1) := by
  rw [mapEntry, mapEntry, Nat.mod_add_mod, Nat.add_one_mul, Nat.add_assoc,
    Nat.add_comm (i * PGSIZE) PGSIZE]

/-- What a call of `mappages` for `n` pages from `v` on does: it makes entries for the first
pages, and succeeds if these are all. -/
def Mapped (r : ℕ) (others : Set ℕ) (v n pa perm : ℕ) (s : Phys) (ok : Bool) (t : Phys) : Prop :=
  ∃ k ≤ n, (ok = true ↔ k = n) ∧ Acts r others others s t ∧ ∀ v' < VPAGES, pteOf t.mem r v' =
    if v ≤ v' ∧ v' < v + k then mapEntry pa perm (v' - v) else pteOf s.mem r v'

theorem vpage_lt (h : v * PGSIZE < MAXVA) : v < VPAGES := by
  simp only [PGSIZE, MAXVA, VPAGES] at *
  omega

/-- A round of the loop of `mappages`, and what it goes on with. -/
theorem mappagesLoop_round {last rounds : ℕ} {Q : Bool → Phys → Prop} (hperm : perm < 1024)
    (h : Table s r others) (hpa : pa < 2 ^ 64) (hva : v * PGSIZE < MAXVA)
    (hunmapped : pteOf s.mem r v &&& PTE_V = 0)
    (hfail : ∀ t, Steady r others others s t → Q false t)
    (hnext : ∀ t, Acts r others others s t → (∀ v' < VPAGES, pteOf t.mem r v' =
        if v' = v then mapEntry pa perm 0 else pteOf s.mem r v') →
      Returns (if v * PGSIZE = last then return true
        else mappagesLoop r last perm rounds ((v * PGSIZE + PGSIZE) % 2 ^ 64)
          ((pa + PGSIZE) % 2 ^ 64)) t Q) :
    Returns (mappagesLoop r last perm (rounds + 1) (v * PGSIZE) pa) s Q := by
  unfold mappagesLoop
  refine (walk_returns h hva).bind fun o t ht => ?_
  cases o with
  | none => exact Yields.of_ok rfl (hfail t ht.steady)
  | some slot =>
    have hslot := ht.slot slot rfl
    rw [Nat.mul_div_cancel v (by decide)] at hslot
    have hload : load t.mem slot 8 = pteOf s.mem r v := hslot.load_eq.trans (ht.steady.pte v)
    refine Yields.of_eq (bind_of_ok rfl) ?_
    rw [hload, if_neg (by rw [hunmapped]; exact fun hne => hne rfl)]
    obtain ⟨hacts, hpte⟩ :=
      ht.steady.table.set (vpage_lt hva) hslot (pa2pte pa ||| perm ||| PTE_V) rfl
    have hacts' := ht.steady.toActs.trans hacts fun _ ha _ => ha
    refine Yields.of_eq (bind_of_ok rfl) (hnext _ hacts' ?_)
    intro v' hv'
    have hword : (pa2pte pa ||| perm ||| PTE_V) % 2 ^ 64 = mapEntry pa perm 0 := by
      have hlt : mapEntry pa perm 0 < 2 ^ 64 := mapEntry_lt hperm 0
      rw [mapEntry, Nat.zero_mul, Nat.add_zero, Nat.mod_eq_of_lt hpa] at hlt ⊢
      exact Nat.mod_eq_of_lt hlt
    rw [hpte v' hv', hword, ht.steady.pte v']

theorem mappagesLoop_returns (hperm : perm < 1024) : ∀ (n v pa : ℕ) (s : Phys), Table s r others →
    pa < 2 ^ 64 → (v + n + 1) * PGSIZE ≤ MAXVA →
      (∀ i ≤ n, pteOf s.mem r (v + i) &&& PTE_V = 0) →
        Returns (mappagesLoop r ((v + n) * PGSIZE) perm (n + 1) (v * PGSIZE) pa) s
          (Mapped r others v (n + 1) pa perm s) := by
  intro n
  induction n with
  | zero =>
    intro v pa s h hpa hva hunmapped
    refine mappagesLoop_round hperm h hpa (by simp only [PGSIZE] at *; omega)
      (hunmapped 0 le_rfl) (fun t ht => ?_) fun t ht hpte => ?_
    · exact ⟨0, Nat.zero_le _, by simp, ht.toActs, fun v' _ => by rw [if_neg (by omega), ht.pte v']⟩
    · rw [if_pos (by rw [Nat.add_zero])]
      refine Yields.of_ok rfl ⟨1, le_rfl, by simp, ht, fun v' hv' => ?_⟩
      rw [hpte v' hv']
      by_cases hvv : v' = v
      · rw [if_pos hvv, if_pos (by omega), hvv, Nat.sub_self]
      · rw [if_neg hvv, if_neg (by omega)]
  | succ n ih =>
    intro v pa s h hpa hva hunmapped
    refine mappagesLoop_round hperm h hpa (by simp only [PGSIZE] at *; omega)
      (hunmapped 0 (Nat.zero_le _)) (fun t ht => ?_) fun t ht hpte => ?_
    · exact ⟨0, Nat.zero_le _, by simp, ht.toActs, fun v' _ => by rw [if_neg (by omega), ht.pte v']⟩
    · rw [if_neg (by simp only [PGSIZE]; omega)]
      have haddr : (v * PGSIZE + PGSIZE) % 2 ^ 64 = (v + 1) * PGSIZE := by
        simp only [PGSIZE, MAXVA] at *
        omega
      rw [haddr, show v + (n + 1) = v + 1 + n by omega]
      refine (ih (v + 1) _ t ht.table (Nat.mod_lt _ (Nat.two_pow_pos 64)) (by
        rw [show v + 1 + n + 1 = v + (n + 1) + 1 by omega]; exact hva) fun i hi => ?_).mono
          fun ok u hu => ?_
      · have hlt : v + 1 + i < VPAGES := vpage_lt (by simp only [PGSIZE] at *; omega)
        rw [hpte _ hlt, if_neg (by omega), show v + 1 + i = v + (i + 1) by omega]
        exact hunmapped (i + 1) (by omega)
      · obtain ⟨k, hk, hok, hacts, hpte'⟩ := hu
        refine ⟨k + 1, by omega, hok.trans (by omega), ht.trans hacts fun _ ha _ => ha,
          fun v' hv' => ?_⟩
        rw [hpte' v' hv', hpte v' hv']
        by_cases hvv : v' = v
        · rw [if_neg (by omega), if_pos hvv, if_pos (by omega), hvv, Nat.sub_self]
        · rw [if_neg hvv]
          by_cases hin : v + 1 ≤ v' ∧ v' < v + 1 + k
          · rw [if_pos hin, if_pos (by omega), show v' - v = v' - (v + 1) + 1 by omega,
              mapEntry_succ]
          · rw [if_neg hin, if_neg (by omega)]

/-- **What `mappages` does.** -/
theorem mappages_returns (hperm : perm < 1024) (h : Table s r others) (hpa : pa < 2 ^ 64)
    (hn : 0 < n) (hva : (v + n) * PGSIZE ≤ MAXVA)
    (hunmapped : ∀ i < n, pteOf s.mem r (v + i) &&& PTE_V = 0) :
    Returns (mappages r (v * PGSIZE) (n * PGSIZE) pa perm) s (Mapped r others v n pa perm s) := by
  obtain ⟨m, rfl⟩ : ∃ m, n = m + 1 := ⟨n - 1, by omega⟩
  have hlast : (v * PGSIZE + (m + 1) * PGSIZE - PGSIZE) % 2 ^ 64 = (v + m) * PGSIZE := by
    simp only [PGSIZE, MAXVA] at *
    omega
  unfold mappages
  rw [if_neg (by simp), if_neg (by simp), if_neg (by simp), hlast, Nat.mul_div_cancel _ (by decide)]
  exact mappagesLoop_returns hperm m v pa s h hpa hva fun i hi => hunmapped i (by omega)

/-! ### uvmunmap -/

/-- The page that the virtual page `v` is mapped to. -/
abbrev frameOf (mem : ℕ → UInt8) (r v : ℕ) : ℕ := pte2pa (pteOf mem r v)

/-- The pages that `uvmunmap` frees. -/
def freed (doFree : Bool) (mem : ℕ → UInt8) (r v n : ℕ) : Set ℕ :=
  { a | doFree = true ∧ ∃ i < n, frameOf mem r (v + i) = a }

/-- What `uvmunmap` wants: pages that are mapped, and to different pages if they are to be
freed. -/
structure Removable (doFree : Bool) (others : Set ℕ) (s : Phys) (r v n : ℕ) : Prop where
  valid : ∀ i < n, pteOf s.mem r (v + i) &&& PTE_V ≠ 0
  leaf : ∀ i < n, pteFlags (pteOf s.mem r (v + i)) ≠ PTE_V
  mem : doFree = true → ∀ i < n, frameOf s.mem r (v + i) ∈ others
  inj : doFree = true → ∀ i < n, ∀ j < n,
    frameOf s.mem r (v + i) = frameOf s.mem r (v + j) → i = j

/-- What a call of `uvmunmap` for `n` pages from `v` on does. -/
structure Unmapped (doFree : Bool) (r : ℕ) (others : Set ℕ) (v n : ℕ) (s t : Phys) : Prop where
  acts : Acts r others (others \ freed doFree s.mem r v n) s t
  pte : ∀ v' < VPAGES, pteOf t.mem r v' = if v ≤ v' ∧ v' < v + n then 0 else pteOf s.mem r v'

theorem freed_false (mem : ℕ → UInt8) (r v n : ℕ) : freed false mem r v n = ∅ :=
  Set.eq_empty_of_forall_notMem fun _ h => (nomatch h.1)

theorem freed_one (mem : ℕ → UInt8) (r v : ℕ) : freed true mem r v 1 = {frameOf mem r v} := by
  ext a
  simp [freed, eq_comm]

/-- The pages that are freed after the first. -/
theorem freed_succ {doFree : Bool} {mem mem' : ℕ → UInt8}
    (hpte : ∀ i < n, pteOf mem' r (v + 1 + i) = pteOf mem r (v + 1 + i)) :
    freed doFree mem r v (n + 1) =
      freed doFree mem r v 1 ∪ freed doFree mem' r (v + 1) n := by
  ext a
  constructor
  · intro ha
    obtain ⟨hfree, i, hi, rfl⟩ := ha
    cases i with
    | zero => exact Or.inl ⟨hfree, 0, Nat.one_pos, rfl⟩
    | succ i =>
      refine Or.inr ⟨hfree, i, by omega, ?_⟩
      rw [frameOf, hpte i (by omega), Nat.add_assoc, Nat.add_comm 1 i]
  · intro ha
    rcases ha with ⟨hfree, i, hi, rfl⟩ | ⟨hfree, i, hi, rfl⟩
    · exact ⟨hfree, i, by omega, rfl⟩
    · refine ⟨hfree, i + 1, by omega, ?_⟩
      rw [frameOf, frameOf, hpte i hi, Nat.add_assoc, Nat.add_comm 1 i]

/-- The end of a round of `uvmunmap`: the entry is cleared. -/
theorem Unmapped.of_steady {doFree : Bool} (hv : v < VPAGES) (hslot : IsSlot s.mem r v slot)
    (h : Steady r others (others \ freed doFree s.mem r v 1) s t)
    (hu : u = { t with mem := store t.mem slot 8 0 }) : Unmapped doFree r others v 1 s u := by
  obtain ⟨hacts, hpte⟩ := h.table.set hv (h.isSlot hslot) 0 hu
  refine ⟨h.toActs.trans hacts fun _ _ ha => ha, fun v' hv' => ?_⟩
  rw [hpte v' hv', h.pte v']
  exact if_congr (by omega) rfl rfl

/-- A round of the loop of `uvmunmap`, and what it goes on with. -/
theorem uvmunmapLoop_round {doFree : Bool} {stop rounds : ℕ} {Q : Unit → Phys → Prop}
    (h : Table s r others) (hva : v * PGSIZE < MAXVA) (hstop : v * PGSIZE < stop)
    (hvalid : pteOf s.mem r v &&& PTE_V ≠ 0) (hleaf : pteFlags (pteOf s.mem r v) ≠ PTE_V)
    (hmem : doFree = true → frameOf s.mem r v ∈ others)
    (hnext : ∀ t, Unmapped doFree r others v 1 s t →
      Returns (uvmunmapLoop r stop doFree rounds ((v * PGSIZE + PGSIZE) % 2 ^ 64)) t Q) :
    Returns (uvmunmapLoop r stop doFree (rounds + 1) (v * PGSIZE)) s Q := by
  unfold uvmunmapLoop
  rw [if_pos hstop]
  refine (walk_returns h hva).bind fun o t ht => ?_
  obtain rfl := ht.same rfl
  cases o with
  | none =>
    have hnone := ht.none rfl rfl
    rw [Nat.mul_div_cancel v (by decide)] at hnone
    rw [pteOf_of_none hnone] at hvalid
    exact absurd rfl hvalid
  | some slot =>
    have hslot := ht.slot slot rfl
    rw [Nat.mul_div_cancel v (by decide)] at hslot
    have hv := vpage_lt hva
    refine Yields.of_eq (bind_of_ok rfl) ?_
    rw [hslot.load_eq, if_neg hvalid, if_neg hleaf]
    cases doFree with
    | false =>
      refine Yields.of_eq (bind_of_ok rfl) (hnext _ (Unmapped.of_steady hv hslot ?_ rfl))
      rw [freed_false, Set.sdiff_empty]
      exact Steady.refl h
    | true =>
      refine (kfree_steady h (hmem rfl)).bind fun _ u hu => ?_
      refine Yields.of_eq (bind_of_ok rfl) (hnext _ (Unmapped.of_steady hv hslot ?_ rfl))
      rw [freed_one]
      exact hu

theorem Unmapped.cons {doFree : Bool} (hva : (v + (n + 1)) * PGSIZE ≤ MAXVA)
    (h : Unmapped doFree r others v 1 s t)
    (h' : Unmapped doFree r (others \ freed doFree s.mem r v 1) (v + 1) n t u) :
    Unmapped doFree r others v (n + 1) s u := by
  have hpte : ∀ i < n, pteOf t.mem r (v + 1 + i) = pteOf s.mem r (v + 1 + i) := fun i hi => by
    rw [h.pte _ (vpage_lt (by simp only [PGSIZE] at *; omega)), if_neg (by omega)]
  refine ⟨?_, fun v' hv' => ?_⟩
  · rw [freed_succ hpte, ← Set.sdiff_sdiff]
    exact h.acts.trans h'.acts fun _ _ ha => ha.1
  · rw [h'.pte v' hv', h.pte v' hv']
    by_cases hvv : v' = v
    · rw [if_neg (by omega), if_pos (by omega), if_pos (by omega)]
    · by_cases hin : v + 1 ≤ v' ∧ v' < v + 1 + n
      · rw [if_pos hin, if_pos (by omega)]
      · rw [if_neg hin, if_neg (by omega), if_neg (by omega)]

/-- What is left to do after the first page. -/
theorem Removable.tail {doFree : Bool} (hva : (v + (n + 1)) * PGSIZE ≤ MAXVA)
    (h : Removable doFree others s r v (n + 1)) (ht : Unmapped doFree r others v 1 s t) :
    Removable doFree (others \ freed doFree s.mem r v 1) t r (v + 1) n := by
  have hpte : ∀ i < n, pteOf t.mem r (v + 1 + i) = pteOf s.mem r (v + (i + 1)) := fun i hi => by
    rw [ht.pte _ (vpage_lt (by simp only [PGSIZE] at *; omega)), if_neg (by omega)]
    congr 1
    omega
  refine ⟨fun i hi => ?_, fun i hi => ?_, fun hfree i hi => ?_, fun hfree i hi j hj hij => ?_⟩
  · rw [hpte i hi]
    exact h.valid (i + 1) (by omega)
  · rw [hpte i hi]
    exact h.leaf (i + 1) (by omega)
  · rw [frameOf, hpte i hi]
    refine ⟨h.mem hfree (i + 1) (by omega), fun hfirst => ?_⟩
    obtain ⟨-, k, hk, hframe⟩ := hfirst
    have := h.inj hfree k (by omega) (i + 1) (by omega) hframe
    omega
  · rw [frameOf, frameOf, hpte i hi, hpte j hj] at hij
    have := h.inj hfree (i + 1) (by omega) (j + 1) (by omega) hij
    omega

theorem uvmunmapLoop_returns {doFree : Bool} : ∀ (n v : ℕ) (others : Set ℕ) (s : Phys),
    Table s r others → (v + n) * PGSIZE ≤ MAXVA → Removable doFree others s r v n →
      Returns (uvmunmapLoop r ((v + n) * PGSIZE) doFree n (v * PGSIZE)) s
        fun _ t => Unmapped doFree r others v n s t := by
  intro n
  induction n with
  | zero =>
    intro v others s h hva _
    unfold uvmunmapLoop
    rw [if_neg (by rw [Nat.add_zero]; exact lt_irrefl _)]
    refine Yields.of_ok rfl ⟨?_, fun v' _ => by rw [if_neg (by omega)]⟩
    rw [show freed doFree s.mem r v 0 = ∅ from
      Set.eq_empty_of_forall_notMem fun a ha => by obtain ⟨-, i, hi, -⟩ := ha; omega,
      Set.sdiff_empty]
    exact Acts.refl h
  | succ n ih =>
    intro v others s h hva hrem
    refine uvmunmapLoop_round h (by simp only [PGSIZE] at *; omega) (by simp only [PGSIZE]; omega)
      (hrem.valid 0 (by omega)) (hrem.leaf 0 (by omega)) (fun hfree => hrem.mem hfree 0 (by omega))
      fun t ht => ?_
    have haddr : (v * PGSIZE + PGSIZE) % 2 ^ 64 = (v + 1) * PGSIZE := by
      simp only [PGSIZE, MAXVA] at *
      omega
    have hsum : v + (n + 1) = v + 1 + n := by omega
    rw [haddr, hsum]
    exact (ih (v + 1) _ t ht.acts.table (hsum ▸ hva) (hrem.tail hva ht)).mono
      fun _ u hu => ht.cons hva hu

/-- **What `uvmunmap` does.** -/
theorem uvmunmap_returns {doFree : Bool} (h : Table s r others) (hva : (v + n) * PGSIZE ≤ MAXVA)
    (hrem : Removable doFree others s r v n) :
    Returns (uvmunmap r (v * PGSIZE) n doFree) s fun _ t => Unmapped doFree r others v n s t := by
  have hstop : (v * PGSIZE + n * PGSIZE) % 2 ^ 64 = (v + n) * PGSIZE := by
    simp only [PGSIZE, MAXVA] at *
    omega
  unfold uvmunmap
  rw [if_neg (by simp), hstop]
  exact uvmunmapLoop_returns n v others s h hva hrem

/-! ### Page tables are maps -/

/-- The pages of memory, between the list of free pages and others. -/
structure Pool (s : Phys) (others : Set ℕ) : Prop where
  all : ∀ a, s.IsFrame a ↔ a ∈ s.freelist ∨ a ∈ others
  nodup : s.freelist.Nodup
  free : ∀ a ∈ s.freelist, a ∉ others

theorem Pool.frame (h : Pool s others) (ha : a ∈ others) : s.IsFrame a := (h.all a).mpr (Or.inr ha)

/-- A page is taken from the allocator. -/
theorem kalloc_pool (h : Pool s others) : Returns kalloc s fun o t => Kept others s t ∧
    (o = 0 ∧ Pool t others ∨ o ≠ 0 ∧ o ∉ others ∧ Pool t (insert o others)) := by
  refine (kalloc_returns s).mono fun o t ht => ?_
  rcases ht with ⟨rfl, rfl⟩ | ⟨fl, hfree, rfl⟩
  · exact ⟨⟨rfl, fun _ _ => rfl⟩, Or.inl ⟨rfl, h.all, h.nodup, h.free⟩⟩
  · have ho : o ∈ s.freelist := by rw [hfree]; exact List.mem_cons_self
    have hframe : s.IsFrame o := (h.all o).mpr (Or.inl ho)
    have hnodup : o ∉ fl ∧ fl.Nodup := List.nodup_cons.mp (hfree ▸ h.nodup)
    refine ⟨⟨rfl, fun x hx => fill_of_not_mem fun hin => ?_⟩,
      Or.inr ⟨hframe.ne_zero, h.free o ho, fun a => ?_, hnodup.2, fun a ha hin => ?_⟩⟩
    · exact h.free o ho (pgrounddown_eq hframe.1 hin ▸ hx)
    · refine (h.all a).trans ?_
      rw [hfree, List.mem_cons, Set.mem_insert_iff]
      tauto
    · rcases Set.mem_insert_iff.mp hin with rfl | hother
      · exact hnodup.1 ha
      · exact h.free a (by rw [hfree]; exact List.mem_cons_of_mem o ha) hother

/-- An empty page table: the pages of zeros that `uvmcreate` makes. -/
theorem Pool.table {fl : List ℕ} (h : Pool s others) (hfree : s.freelist = r :: fl)
    (hsize : t.ksize = s.ksize) (hlist : t.freelist = fl)
    (hzero : ∀ x, r ≤ x ∧ x < r + PGSIZE → t.mem x = 0) :
    Table t r others ∧ ∀ v, pteOf t.mem r v = 0 := by
  have hr : r ∈ s.freelist := by rw [hfree]; exact List.mem_cons_self
  have hnodup : r ∉ fl ∧ fl.Nodup := List.nodup_cons.mp (hfree ▸ h.nodup)
  have hword : ∀ i : Fin 512, load t.mem (r + 8 * i) 8 = 0 := fun i =>
    load_zero fun k hk => hzero _ (by simp only [PGSIZE]; omega)
  have hempty : ∀ i, child t.mem r i = none := fun i => by
    unfold child
    rw [hword, if_neg (by simp)]
  have hnode : ∀ p a, nodeAt t.mem r p = some a → p = [] ∧ a = r := fun p a ha => by
    cases p with
    | nil => exact ⟨rfl, (Option.some.inj ha).symm⟩
    | cons i p => rw [nodeAt, hempty, Option.bind_none] at ha; cases ha
  have hisNode : ∀ a, IsNode t.mem r a ↔ a = r := by
    intro a
    constructor
    · rintro ⟨p, -, ha⟩
      exact (hnode p a ha).2
    · rintro rfl
      exact isNode_root t.mem a
  refine ⟨⟨fun a => ?_, hlist ▸ hnodup.2, fun a ha => ?_, fun a ha => ?_, fun p q a _ _ ha hb => ?_,
    fun p a i _ ha => ?_⟩, fun v => pteOf_of_none ?_⟩
  · rw [Phys.isFrame_congr hsize, h.all a, hisNode, hlist, hfree, List.mem_cons]
    tauto
  · rw [hlist] at ha
    rw [hisNode]
    have ha' : a ∈ s.freelist := by
      rw [hfree]
      exact List.mem_cons_of_mem r ha
    exact ⟨fun har => hnodup.1 (har ▸ ha), h.free a ha'⟩
  · rw [(hisNode a).mp ha]
    exact h.free r hr
  · rw [(hnode p a ha).1, (hnode q a hb).1]
  · rw [(hnode p a ha).2, hword]
    exact isDir_zero
  · rw [dirPath, down, nodeAt, hempty, Option.bind_none]

theorem uvmcreate_returns (h : Pool s others) : Returns uvmcreate s fun o t =>
    Kept others s t ∧
      (o = 0 ∧ Pool t others ∨ o ≠ 0 ∧ Table t o others ∧ ∀ v, pteOf t.mem o v = 0) := by
  refine (kalloc_returns s).bind fun o t ht => ?_
  rcases ht with ⟨rfl, rfl⟩ | ⟨fl, hfree, rfl⟩
  · rw [if_pos rfl]
    exact Yields.of_ok rfl ⟨⟨rfl, fun _ _ => rfl⟩, Or.inl ⟨rfl, h.all, h.nodup, h.free⟩⟩
  · have ho : o ∈ s.freelist := by rw [hfree]; exact List.mem_cons_self
    have hframe : s.IsFrame o := (h.all o).mpr (Or.inl ho)
    rw [if_neg hframe.ne_zero]
    refine Yields.of_ok rfl ⟨⟨rfl, fun x hx => ?_⟩,
      Or.inr ⟨hframe.ne_zero, h.table hfree rfl rfl fun x hx => fill_of_mem hx⟩⟩
    have hout : ¬(o ≤ x ∧ x < o + PGSIZE) := fun hpage =>
      h.free o ho (pgrounddown_eq hframe.1 hpage ▸ hx)
    exact (fill_of_not_mem hout).trans (fill_of_not_mem hout)

/-- **The page table at `r` has been built** by `uvmcreate`, `mappages` and `uvmunmap`.  In
between, other code acts on pages of its own: it takes pages from the allocator and gives pages
back, and touches no node. -/
inductive Built (r : ℕ) : Phys → Set ℕ → Prop
  | create {s t : Phys} {others : Set ℕ} (pool : Pool s others) (run : uvmcreate s = .ok (r, t))
      (created : r ≠ 0) : Built r t others
  | map {s t : Phys} {others : Set ℕ} {v n pa perm : ℕ} {ok : Bool} (built : Built r s others)
      (hperm : perm < 1024) (hpa : pa < 2 ^ 64) (hn : 0 < n) (hva : (v + n) * PGSIZE ≤ MAXVA)
      (unmapped : ∀ i < n, pteOf s.mem r (v + i) &&& PTE_V = 0)
      (run : mappages r (v * PGSIZE) (n * PGSIZE) pa perm s = .ok (ok, t)) : Built r t others
  | unmap {s t : Phys} {others : Set ℕ} {v n : ℕ} {doFree : Bool} (built : Built r s others)
      (hva : (v + n) * PGSIZE ≤ MAXVA) (removable : Removable doFree others s r v n)
      (run : uvmunmap r (v * PGSIZE) n doFree s = .ok ((), t)) :
      Built r t (others \ freed doFree s.mem r v n)
  | elsewhere {s t : Phys} {others others' : Set ℕ} (built : Built r s others)
      (ksize : t.ksize = s.ksize)
      (node : ∀ x, IsNode s.mem r (pgrounddown x) → t.mem x = s.mem x)
      (all : ∀ a, a ∈ t.freelist ∨ a ∈ others' ↔ a ∈ s.freelist ∨ a ∈ others)
      (nodup : t.freelist.Nodup) (free : ∀ a ∈ t.freelist, a ∉ others') : Built r t others'

theorem Built.table (h : Built r s others) : Table s r others := by
  induction h with
  | create pool run created =>
    rcases ((uvmcreate_returns pool).sat _ _ run).2 with ⟨hzero, -⟩ | ⟨-, htable, -⟩
    · exact absurd hzero created
    · exact htable
  | map _ hperm hpa hn hva unmapped run ih =>
    obtain ⟨k, -, -, hacts, -⟩ := (mappages_returns hperm ih hpa hn hva unmapped).sat _ _ run
    exact hacts.table
  | unmap _ hva removable run ih =>
    exact ((uvmunmap_returns ih hva removable).sat _ _ run).acts.table
  | elsewhere _ ksize node all nodup free ih => exact ih.elsewhere ksize node all nodup free

/-- What the address of a virtual page is translated to: a page and its flags. -/
def translate (mem : ℕ → UInt8) (r v : ℕ) : Option (ℕ × ℕ) :=
  if pteOf mem r v &&& PTE_V = 0 then none
  else some (frameOf mem r v, pteFlags (pteOf mem r v))

theorem translate_congr {mem mem' : ℕ → UInt8} (h : pteOf mem' r v = pteOf mem r v) :
    translate mem' r v = translate mem r v := by
  unfold translate frameOf
  rw [h]

theorem translate_unmapped {mem : ℕ → UInt8} (h : pteOf mem r v &&& PTE_V = 0) :
    translate mem r v = none := if_pos h

/-- What an entry that `mappages` has made says. -/
theorem mapEntry_spec {i : ℕ} (hperm : perm < 1024) (hpa : pa % PGSIZE = 0)
    (hlt : pa + i * PGSIZE < 2 ^ 64) :
    mapEntry pa perm i &&& PTE_V ≠ 0 ∧ pte2pa (mapEntry pa perm i) = pa + i * PGSIZE ∧
      pteFlags (mapEntry pa perm i) = perm ||| PTE_V := by
  have hflags : perm ||| PTE_V < 1024 := Nat.or_lt_two_pow (n := 10) hperm (by decide)
  have halign : (pa + i * PGSIZE) % PGSIZE = 0 := by rw [Nat.add_mul_mod_self_right, hpa]
  refine ⟨valid_or _, ?_, ?_⟩
  · rw [mapEntry, Nat.mod_eq_of_lt hlt, Nat.lor_assoc, pte2pa_pte halign hlt hflags]
  · rw [mapEntry, Nat.lor_assoc, pteFlags_pte hflags]

/-- The page table at `r` is a map from virtual pages to entries, and `walk`, `mappages` and
`uvmunmap` treat it as one. -/
structure IsMap (r : ℕ) (others : Set ℕ) (s : Phys) : Prop where
  /-- The entry of a virtual page is the one that `walk` finds. -/
  entry : ∀ va < MAXVA, Returns (walk r va false) s fun o t => t = s ∧
    (∀ pte, o = some pte → load s.mem pte 8 = pteOf s.mem r (va / PGSIZE)) ∧
      (o = none → pteOf s.mem r (va / PGSIZE) = 0)
  /-- Two addresses have one slot if they lie in the same page. -/
  slot : ∀ va < MAXVA, ∀ wa < MAXVA, ∀ (alloc alloc' : Bool) (pte pte' : ℕ) (t u : Phys),
    walk r va alloc s = .ok (some pte, t) → walk r wa alloc' t = .ok (some pte', u) →
      (pte = pte' ↔ va / PGSIZE = wa / PGSIZE)
  /-- A range that has been mapped is translated as asked for, and all the rest as before; when
  it has been unmapped again, everything is. -/
  range : ∀ va size pa perm, va % PGSIZE = 0 → size % PGSIZE = 0 → 0 < size → va + size ≤ MAXVA →
    pa % PGSIZE = 0 → pa + size ≤ 2 ^ 64 → perm < 1024 → perm &&& (PTE_R ||| PTE_W ||| PTE_X) ≠ 0 →
      (∀ i < size / PGSIZE, translate s.mem r (va / PGSIZE + i) = none) →
        Returns (mappages r va size pa perm) s fun ok t => ok = true →
          (∀ i < size / PGSIZE, translate t.mem r (va / PGSIZE + i) =
              some (pa + i * PGSIZE, perm ||| PTE_V)) ∧
            (∀ v < VPAGES, ¬(va / PGSIZE ≤ v ∧ v < va / PGSIZE + size / PGSIZE) →
              pteOf t.mem r v = pteOf s.mem r v) ∧
            ∀ doFree : Bool, (doFree = true → ∀ i < size / PGSIZE, pa + i * PGSIZE ∈ others) →
              Returns (uvmunmap r va (size / PGSIZE) doFree) t fun _ u =>
                ∀ v < VPAGES, translate u.mem r v = translate s.mem r v

theorem Table.walk_entry (h : Table s r others) {va : ℕ} (hva : va < MAXVA) :
    Returns (walk r va false) s fun o t => t = s ∧
      (∀ pte, o = some pte → load s.mem pte 8 = pteOf s.mem r (va / PGSIZE)) ∧
        (o = none → pteOf s.mem r (va / PGSIZE) = 0) := by
  refine (walk_returns h hva).mono fun o t ht => ?_
  obtain rfl := ht.same rfl
  exact ⟨rfl, fun pte ho => (ht.slot pte ho).load_eq, fun ho => pteOf_of_none (ht.none ho rfl)⟩

/-- Slots of different virtual pages are different. -/
theorem Table.slot_inj (h : Table s r others) (hv : v < VPAGES) (hw : w < VPAGES)
    (hslot : IsSlot s.mem r v slot) (hslot' : IsSlot s.mem r w slot) : v = w := by
  obtain ⟨a, ha, rfl⟩ := hslot
  obtain ⟨b, hb, heq⟩ := hslot'
  have haframe := h.frame_node ⟨_, le_rfl, ha⟩
  have hbframe := h.frame_node ⟨_, le_rfl, hb⟩
  by_cases hab : a = b
  · subst hab
    have hdir := h.inj _ _ a le_rfl le_rfl ha hb
    exact eq_of_index hv hw hdir (Fin.ext (by omega))
  · have := apart_entries haframe.1 hbframe.1 hab (index 0 v) (index 0 w)
    unfold Apart at this
    omega

theorem IsSlot.unique (hslot : IsSlot s.mem r v slot) (hslot' : IsSlot s.mem r v w) : slot = w := by
  obtain ⟨a, ha, rfl⟩ := hslot
  obtain ⟨b, hb, rfl⟩ := hslot'
  obtain rfl := Option.some.inj (ha.symm.trans hb)
  rfl

/-- A range that `mappages` has mapped can be unmapped. -/
theorem Mapped.removable {doFree : Bool} (hperm : perm < 1024) (hpa : pa % PGSIZE = 0)
    (hpalt : pa + n * PGSIZE ≤ 2 ^ 64) (hleaf : perm &&& (PTE_R ||| PTE_W ||| PTE_X) ≠ 0)
    (hpte : ∀ i < n, pteOf t.mem r (v + i) = mapEntry pa perm i)
    (hfree : doFree = true → ∀ i < n, pa + i * PGSIZE ∈ others) :
    Removable doFree others t r v n := by
  have hspec : ∀ i < n, pteOf t.mem r (v + i) &&& PTE_V ≠ 0 ∧
      frameOf t.mem r (v + i) = pa + i * PGSIZE ∧
      pteFlags (pteOf t.mem r (v + i)) = perm ||| PTE_V := fun i hi => by
    rw [frameOf, hpte i hi]
    exact mapEntry_spec hperm hpa (by simp only [PGSIZE] at *; omega)
  refine ⟨fun i hi => (hspec i hi).1, fun i hi hflags => hleaf ?_, fun hdo i hi => ?_,
    fun _ i hi j hj hij => ?_⟩
  · -- the bits besides `PTE_V` would be clear
    have hbits := congrArg (· &&& (PTE_R ||| PTE_W ||| PTE_X)) ((hspec i hi).2.2.symm.trans hflags)
    simpa only [Nat.and_or_distrib_right, show PTE_V &&& (PTE_R ||| PTE_W ||| PTE_X) = 0 from rfl,
      Nat.or_zero] using hbits
  · rw [(hspec i hi).2.1]
    exact hfree hdo i hi
  · rw [(hspec i hi).2.1, (hspec j hj).2.1] at hij
    simp only [PGSIZE] at hij
    omega

/-- **Page tables are finite maps.** -/
theorem pageTable_isMap (h : Built r s others) : IsMap r others s := by
  have htable := h.table
  refine ⟨fun va hva => htable.walk_entry hva,
    fun va hva wa hwa alloc alloc' pte pte' t u ht hu => ?_,
    fun va size pa perm hva hsize hpos hlt hpa hpalt hperm hleaf hunmapped => ?_⟩
  · have hwalk := (walk_returns htable hva).sat _ _ ht
    have hwalk' := (walk_returns hwalk.steady.table hwa).sat _ _ hu
    have hslot := hwalk'.steady.isSlot (hwalk.slot pte rfl)
    have hslot' := hwalk'.slot pte' rfl
    constructor
    · rintro rfl
      exact hwalk'.steady.table.slot_inj (vpage_lt ((Nat.div_mul_le_self va _).trans_lt hva))
        (vpage_lt ((Nat.div_mul_le_self wa _).trans_lt hwa)) hslot hslot'
    · intro hpage
      rw [← hpage] at hslot'
      exact hslot.unique hslot'
  · obtain ⟨v, rfl⟩ := Nat.dvd_of_mod_eq_zero hva
    obtain ⟨n, rfl⟩ := Nat.dvd_of_mod_eq_zero hsize
    rw [Nat.mul_comm PGSIZE v, Nat.mul_comm PGSIZE n] at *
    rw [Nat.mul_div_cancel v (by decide), Nat.mul_div_cancel n (by decide)] at *
    have hn : 0 < n := Nat.pos_of_mul_pos_right hpos
    rw [← Nat.add_mul] at hlt
    have hvlt : ∀ i < n, v + i < VPAGES := fun i hi => vpage_lt (by simp only [PGSIZE] at *; omega)
    have hpte : ∀ i < n, pteOf s.mem r (v + i) &&& PTE_V = 0 := fun i hi => by
      have := hunmapped i hi
      unfold translate at this
      split at this
      · assumption
      · cases this
    refine (mappages_returns hperm htable (by simp only [PGSIZE] at *; omega) hn hlt hpte).mono
      fun ok t ht hok => ?_
    obtain ⟨k, -, hk, hacts, hentry⟩ := ht
    obtain rfl := hk.mp hok
    have hin : ∀ i < k, pteOf t.mem r (v + i) = mapEntry pa perm i := fun i hi => by
      rw [hentry _ (hvlt i hi), if_pos (by omega), Nat.add_sub_cancel_left]
    refine ⟨fun i hi => ?_, fun v' hv' hout => ?_, fun doFree hfree => ?_⟩
    · obtain ⟨hvalid, hframe, hflags⟩ := mapEntry_spec (i := i) hperm hpa
        (by simp only [PGSIZE] at *; omega)
      rw [translate, frameOf, hin i hi, if_neg hvalid, hframe, hflags]
    · rw [hentry v' hv', if_neg hout]
    · have hrem := Mapped.removable hperm hpa hpalt hleaf hin hfree
      refine (uvmunmap_returns hacts.table hlt hrem).mono fun _ u hu v' hv' => ?_
      by_cases hrange : v ≤ v' ∧ v' < v + k
      · have hold := hunmapped (v' - v) (by omega)
        rw [show v + (v' - v) = v' by omega] at hold
        rw [hold, translate_unmapped]
        rw [hu.pte v' hv', if_pos hrange]
        rfl
      · refine translate_congr ?_
        rw [hu.pte v' hv', if_neg hrange, hentry v' hv', if_neg hrange]

/-- A machine whose last `n` pages are free. -/
def lastPages (n : ℕ) : Phys where
  ksize := 128 * 1024 * 1024 - n * PGSIZE
  mem _ := 0
  freelist := (List.range n).map fun i => PHYSTOP - (i + 1) * PGSIZE
  denied := []

theorem pool_lastPages (hn : n * PGSIZE ≤ 128 * 1024 * 1024) : Pool (lastPages n) ∅ := by
  refine ⟨fun a => ?_, ?_, fun a _ ha => ha⟩
  · rw [Set.mem_empty_iff_false, or_false]
    simp only [lastPages, List.mem_map, List.mem_range, Phys.IsFrame, Phys.kend, PHYSTOP, KERNBASE,
      PGSIZE] at *
    constructor
    · intro ha
      exact ⟨(2281701376 - a) / 4096 - 1, by omega, by omega⟩
    · rintro ⟨i, hi, rfl⟩
      omega
  · refine (List.nodup_range).map_on fun i hi j hj hij => ?_
    have := List.mem_range.mp hi
    have := List.mem_range.mp hj
    simp only [PHYSTOP, KERNBASE, PGSIZE] at *
    omega

def mapsOnePage : Evaluated (((uvmcreate >>= fun r =>
    mappages r (3 * PGSIZE) (1 * PGSIZE) (7 * PGSIZE) (PTE_R ||| PTE_W)) (lastPages 4)).map
      Prod.fst = .ok true) :=
  ⟨by decide +kernel⟩

/-- A table in which the fourth page is mapped. -/
theorem pageTable_isMap_onePage : ∃ r t, Built r t ∅ ∧
    translate t.mem r 3 = some (7 * PGSIZE, PTE_R ||| PTE_W ||| PTE_V) ∧ IsMap r ∅ t := by
  have hrun := mapsOnePage.holds
  have hpool := pool_lastPages (n := 4) (by decide)
  obtain ⟨r, s, hs, -, hcreated⟩ := (uvmcreate_returns hpool).exists
  rw [bind_of_ok hs] at hrun
  rcases hcreated with ⟨rfl, -⟩ | ⟨hr, -, hpte⟩
  · cases hs
  have hbuilt := Built.create hpool hs hr
  obtain ⟨t, ht⟩ := exists_of_map_fst hrun
  have hmapped := hbuilt.map (by decide) (by decide) (by decide) (by decide)
    (fun i _ => by rw [hpte]; rfl) ht
  have hrange := (pageTable_isMap hbuilt).range (3 * PGSIZE) (1 * PGSIZE) (7 * PGSIZE)
    (PTE_R ||| PTE_W) (by decide) (by decide) (by decide) (by decide) (by decide) (by decide)
    (by decide) (by decide) fun i _ => by rw [translate, hpte]; rfl
  exact ⟨r, t, hmapped, (hrange.sat _ _ ht rfl).1 0 (by decide), pageTable_isMap hmapped⟩

end Xv6Ext2.Vm
