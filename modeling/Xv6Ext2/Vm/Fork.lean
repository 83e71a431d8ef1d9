import Xv6Ext2.Vm.AddressSpace

/-!
# Copying an address space

`uvmcopy` of `kernel/vm.c`, which gives a child a copy of its parent's memory, page by page.  The
parent's pages are among those that belong to others when the child's page table grows, so they
stay as they are, and a page for the child is never one of them.

## Main definitions

* `uvmcopy` — the source function.
* `Isolated` — two page tables share no page of memory.
* `Later` — copies to either process.

## Main results

* `uvmcopy_returns` — what `uvmcopy` does.
* `fork_isolates` — **fork copies memory and isolates it.**
-/

namespace Xv6Ext2.Vm

open Memory Prog

/-- `memmove(dst, src, n)` within memory. -/
def movePage (dst src n : ℕ) : PM Unit :=
  modify fun s => { s with mem := blit s.mem src dst n s.mem }

/-- The loop of `uvmcopy`, with so many rounds left. -/
def uvmcopyLoop (old new sz : ℕ) : ℕ → ℕ → PM Bool
  | 0, i => if i < sz then throw .fuel else return true
  | rounds + 1, i =>
    if i < sz then do
      match ← walk old i false with
      | none => throw (.panic "uvmcopy: pte should exist")
      | some pte => do
        let w ← loadPte pte
        if w &&& PTE_V = 0 then throw (.panic "uvmcopy: page not present")
        else do
          let mem ← kalloc
          if mem = 0 then do
            uvmunmap new 0 (i / PGSIZE) true
            return false
          else do
            movePage mem (pte2pa w) PGSIZE
            if ← mappages new i PGSIZE mem (pteFlags w) then
              uvmcopyLoop old new sz rounds ((i + PGSIZE) % 2 ^ 64)
            else do
              kfree mem
              uvmunmap new 0 (i / PGSIZE) true
              return false
    else return true

/-- Copy the memory of a parent into the page table of its child.  Does it succeed? -/
def uvmcopy (old new sz : ℕ) : PM Bool := uvmcopyLoop old new sz (pages sz) 0

variable {s t u : Phys} {old new r n v sz : ℕ} {top top' : ℕ → ℕ} {rest rest' : Set ℕ}

/-! ### The parent's memory -/

/-- The pages of the parent belong to others from the child's point of view. -/
theorem Space.subset_rest (h : Space s old n top rest) (hnew : Space s new 0 top' rest')
    (hnode : ∀ a, IsNode s.mem new a → a ∈ rest) : claimed s.mem old n ⊆ rest' := by
  intro a ha
  have hpool := h.pool
  rcases (hnew.table.all a).mp ((hpool.all a).mpr (Or.inr (Or.inl ha))) with
    hf | hn | ⟨v, hv, -⟩ | hrest
  · exact absurd (Or.inl ha) (hpool.free a hf)
  · exact absurd (hnode a hn) (h.not_mem_rest ha)
  · exact absurd hv (Nat.not_lt_zero v)
  · exact hrest

/-! ### The copy -/

/-- The first `v` pages have been copied. -/
structure Copied (old new v : ℕ) (top' : ℕ → ℕ) (rest' : Set ℕ) (s t : Phys) : Prop where
  space : Space t new v top' rest'
  flags : ∀ w < v, pteFlags (pteOf t.mem new w) = pteFlags (pteOf s.mem old w)
  content : ∀ w < v, ∀ k < PGSIZE,
    t.mem (frameOf t.mem new w + k) = s.mem (frameOf s.mem old w + k)
  kept : Kept rest' s t

theorem Copied.push (h : Copied old new v top' rest' s t) (hspace : Space u new (v + 1) top' rest')
    (hold : ∀ w < v, pteOf u.mem new w = pteOf t.mem new w)
    (hflags : pteFlags (pteOf u.mem new v) = pteFlags (pteOf s.mem old v))
    (hcontent : ∀ k < PGSIZE, u.mem (frameOf u.mem new v + k) = s.mem (frameOf s.mem old v + k))
    (hkept : Kept (owned t.mem new v ∪ rest') t u) : Copied old new (v + 1) top' rest' s u := by
  refine ⟨hspace, fun w hw => ?_, fun w hw k hk => ?_,
    h.kept.trans (hkept.mono Set.subset_union_right)⟩
  · rcases Nat.lt_succ_iff_lt_or_eq.mp hw with hlt | rfl
    · rw [hold w hlt]
      exact h.flags w hlt
    · exact hflags
  · rcases Nat.lt_succ_iff_lt_or_eq.mp hw with hlt | rfl
    · rw [frameOf, hold w hlt, hkept.frame hlt hk]
      exact h.content w hlt k hk
    · exact hcontent k hk

theorem uvmcopyLoop_returns (h : Space s old (pages sz) top rest)
    (hsub : claimed s.mem old (pages sz) ⊆ rest') :
    ∀ (rounds v : ℕ) (t : Phys), v + rounds = pages sz → Copied old new v top' rest' s t →
      Returns (uvmcopyLoop old new sz rounds (v * PGSIZE)) t fun ok u =>
        ok = true ∧ Copied old new (pages sz) top' rest' s u ∨
          ok = false ∧ Space u new 0 top' rest' ∧ Kept rest' s u := by
  intro rounds
  induction rounds with
  | zero =>
    intro v t hv hcopied
    rw [Nat.add_zero] at hv
    rw [uvmcopyLoop, if_neg (by subst hv; unfold pages; simp only [PGSIZE]; omega)]
    exact Yields.of_ok rfl (Or.inl ⟨rfl, hv ▸ hcopied⟩)
  | succ rounds ih =>
    intro v t hv hcopied
    have hlt : v * PGSIZE < sz := by
      unfold pages at hv
      simp only [PGSIZE] at *
      omega
    have hparent := h.unchanged hsub hcopied.kept
    have hvlt : v < pages sz := by omega
    have hva : v * PGSIZE < MAXVA := by
      refine lt_of_lt_of_le ?_ h.below
      simp only [PGSIZE]
      omega
    rw [uvmcopyLoop, if_pos hlt]
    refine Yields.of_eq (bind_of_ok (walk_false hva t)) ?_
    rw [Nat.mul_div_cancel v (by decide)]
    have hvalid := h.valid v hvlt
    cases hnode : nodeAt t.mem old (dirPath v) with
    | none =>
      rw [← hparent.pte v, pteOf_of_none hnode] at hvalid
      exact absurd rfl hvalid
    | some b =>
      refine Yields.of_eq (bind_of_ok rfl) ?_
      rw [← pteOf_of_some hnode, hparent.pte, if_neg hvalid]
      have hperm : pteFlags (pteOf s.mem old v) < 1024 := by
        rw [pteFlags_eq]
        exact Nat.mod_lt _ (by decide)
      have hread : pteFlags (pteOf s.mem old v) &&& PTE_R ≠ 0 := by
        rw [pteFlags_and rfl]
        exact h.read v hvlt
      refine hcopied.space.round
        (g := fun mem => movePage mem (pte2pa (pteOf s.mem old v)) PGSIZE)
        (f := fun k => s.mem (frameOf s.mem old v + k)) hperm hread (fun c t' hkept => ?_)
        (fun t' hspace _ hkept => ?_) fun t' hspace hpte hflags hcontent hkept => ?_
      · refine ⟨_, rfl, fun k hk => ?_, fun x hx => blit_of_not_mem hx⟩
        have hkept' := hcopied.kept.trans (hkept.mono Set.subset_union_right)
        exact (blit_add hk).trans ((h.unchanged hsub hkept').content v hvlt k hk)
      · refine hspace.clear.bind fun _ u hu => Yields.of_ok rfl (Or.inr ⟨rfl, hu.1, ?_⟩)
        exact (hcopied.kept.trans (hkept.mono Set.subset_union_right)).trans hu.2
      · have haddr : (v * PGSIZE + PGSIZE) % 2 ^ 64 = (v + 1) * PGSIZE := by
          simp only [PGSIZE, MAXVA] at *
          omega
        rw [haddr]
        refine ih (v + 1) t' (by omega) (hcopied.push hspace hpte ?_ hcontent hkept)
        rw [hflags]
        exact or_valid hvalid

/-- **What `uvmcopy` does.** -/
theorem uvmcopy_returns (h : Space s old (pages sz) top rest) (hnew : Space s new 0 top' rest')
    (hnode : ∀ a, IsNode s.mem new a → a ∈ rest) :
    Returns (uvmcopy old new sz) s fun ok t =>
      ok = true ∧ Copied old new (pages sz) top' rest' s t ∨
        ok = false ∧ Space t new 0 top' rest' ∧ Kept rest' s t := by
  have hstart : Copied old new 0 top' rest' s s :=
    ⟨hnew, fun w hw => by omega, fun w hw => by omega, Kept.refl _ s⟩
  have hloop := uvmcopyLoop_returns h (h.subset_rest hnew hnode) (pages sz) 0 s (Nat.zero_add _)
    hstart
  rwa [Nat.zero_mul] at hloop

/-! ### Isolation -/

/-- **Two page tables share no page of memory.** -/
structure Isolated (mem : ℕ → UInt8) (r r' : ℕ) : Prop where
  leaves : Leaves mem r
  leaves' : Leaves mem r'
  frames : ∀ v w, UserPte mem r v → UserPte mem r' w → frameOf mem r v ≠ frameOf mem r' w
  node : ∀ v, UserPte mem r v → ¬IsNode mem r' (frameOf mem r v)
  node' : ∀ w, UserPte mem r' w → ¬IsNode mem r (frameOf mem r' w)

theorem Isolated.symm {mem : ℕ → UInt8} {r' : ℕ} (h : Isolated mem r r') : Isolated mem r' r :=
  ⟨h.leaves', h.leaves, fun v w hv hw heq => h.frames w v hw hv heq.symm, h.node', h.node⟩

/-- A write to the memory of one process is not seen by the other. -/
theorem Isolated.touch {mem mem' : ℕ → UInt8} {r' : ℕ} (h : Isolated mem r r')
    (ht : Touches r mem mem') : Isolated mem' r r' ∧ userMem mem' r' = userMem mem r' := by
  obtain ⟨hnode, hpte⟩ := h.leaves.entries ht
  have hsame : ∀ x, IsNode mem r' (pgrounddown x) → mem' x = mem x := fun x hx => by
    by_contra hne
    obtain ⟨v, hv, hpage⟩ := ht x hne
    exact h.node v hv (hpage ▸ hx)
  obtain ⟨hnode', hpte', -⟩ := entries_congr h.leaves'.root hsame
  have hframe : ∀ v, frameOf mem' r v = frameOf mem r v := fun v => by rw [frameOf, hpte]
  have hframe' : ∀ v, frameOf mem' r' v = frameOf mem r' v := fun v => by rw [frameOf, hpte']
  have huser : ∀ v, UserPte mem' r v ↔ UserPte mem r v := fun v => userPte_congr (hpte v)
  have huser' : ∀ v, UserPte mem' r' v ↔ UserPte mem r' v := fun v => userPte_congr (hpte' v)
  have hisNode : ∀ a, IsNode mem' r a → IsNode mem r a := by
    rintro a ⟨p, hp, ha⟩
    exact ⟨p, hp, (hnode p hp).symm.trans ha⟩
  have hisNode' : ∀ a, IsNode mem' r' a → IsNode mem r' a := by
    rintro a ⟨p, hp, ha⟩
    exact ⟨p, hp, (hnode' p hp).symm.trans ha⟩
  refine ⟨⟨h.leaves.touch ht, h.leaves'.congr hnode' hpte', fun v w hv hw => ?_, fun v hv hn => ?_,
    fun v hv hn => ?_⟩, userMem_congr hpte' fun v hv k hk => ?_⟩
  · rw [hframe, hframe']
    exact h.frames v w ((huser v).mp hv) ((huser' w).mp hw)
  · rw [hframe] at hn
    exact h.node v ((huser v).mp hv) (hisNode' _ hn)
  · rw [hframe'] at hn
    exact h.node' v ((huser' v).mp hv) (hisNode _ hn)
  · by_contra hne
    obtain ⟨w, hw, hpage⟩ := ht _ hne
    rw [pgrounddown_eq (frameOf_aligned mem r' v) (by omega)] at hpage
    exact h.frames w v hw hv hpage.symm

/-- `t` is reached from `s` by copies to the memory of either process. -/
inductive Later (r r' : ℕ) : Phys → Phys → Prop
  | refl {s : Phys} : Later r r' s s
  | left {s t u : Phys} {va : ℕ} {src : List UInt8} {ok : Bool} (before : Later r r' s t)
      (run : copyout r va src t = .ok (ok, u)) : Later r r' s u
  | right {s t u : Phys} {va : ℕ} {src : List UInt8} {ok : Bool} (before : Later r r' s t)
      (run : copyout r' va src t = .ok (ok, u)) : Later r r' s u

theorem Isolated.copyout {r' va : ℕ} {src : List UInt8} {ok : Bool} (h : Isolated s.mem r r')
    (hrun : copyout r va src s = .ok (ok, t)) :
    Isolated t.mem r r' ∧ userMem t.mem r' = userMem s.mem r' :=
  h.touch ((copyout_returns h.leaves va src).sat _ _ hrun).1.touches

theorem Later.isolated {r' : ℕ} (h : Later r r' s t) (hs : Isolated s.mem r r') :
    Isolated t.mem r r' := by
  induction h with
  | refl => exact hs
  | left _ hrun ih => exact (ih.copyout hrun).1
  | right _ hrun ih => exact (ih.symm.copyout hrun).1.symm

/-- A parent and its child share no memory. -/
theorem Copied.isolated (h : Space s old (pages sz) top rest)
    (hsub : claimed s.mem old (pages sz) ⊆ rest')
    (hcopied : Copied old new (pages sz) top' rest' s t) : Isolated t.mem old new := by
  obtain ⟨hnode, hpte, -⟩ := h.unchanged hsub hcopied.kept
  have hframe : ∀ v, frameOf t.mem old v = frameOf s.mem old v := fun v => by rw [frameOf, hpte]
  have hrest : ∀ v, UserPte t.mem old v → frameOf t.mem old v ∈ rest' := fun v hv => by
    have hlt := h.lt_of_userPte ((userPte_congr (hpte v)).mp hv)
    exact hsub (Or.inr ⟨v, hlt, (hframe v).symm⟩)
  have hchild : ∀ w, UserPte t.mem new w → frameOf t.mem new w ∉ rest' := fun w hw =>
    hcopied.space.apart w (hcopied.space.lt_of_userPte hw)
  refine ⟨h.leaves.congr hnode hpte, hcopied.space.leaves, fun v w hv hw heq => ?_,
    fun v hv hn => ?_, fun w hw hn => ?_⟩
  · exact hchild w hw (heq ▸ hrest v hv)
  · exact hcopied.space.table.apart _ hn (Or.inr (hrest v hv))
  · obtain ⟨p, hp, hn⟩ := hn
    exact hchild w hw (hsub (Or.inl ⟨p, hp, (hnode p hp).symm.trans hn⟩))

/-- **Fork copies memory and isolates it.** -/
theorem fork_isolates (h : Space s old (pages sz) top rest) (hnew : Space s new 0 top' rest')
    (hnode : ∀ a, IsNode s.mem new a → a ∈ rest) :
    Returns (uvmcopy old new sz) s fun ok t =>
      -- the parent is as it was
      (∀ v, pteOf t.mem old v = pteOf s.mem old v) ∧ userMem t.mem old = userMem s.mem old ∧
      -- the child has a copy in pages of its own
      (ok = true →
        (∀ v < pages sz, pteFlags (pteOf t.mem new v) = pteFlags (pteOf s.mem old v) ∧
          (∀ k < PGSIZE, t.mem (frameOf t.mem new v + k) = s.mem (frameOf s.mem old v + k)) ∧
          (∀ w < pages sz, frameOf t.mem new v ≠ frameOf t.mem old w) ∧
          ∀ w < pages sz, frameOf t.mem new v = frameOf t.mem new w → v = w) ∧
        ∀ u, Later old new t u → ∀ va src ok' w,
          (copyout old va src u = .ok (ok', w) → userMem w.mem new = userMem u.mem new) ∧
          (copyout new va src u = .ok (ok', w) → userMem w.mem old = userMem u.mem old)) ∧
      -- or it has nothing, and what it had been given is free again
      (ok = false → (∀ v < VPAGES, pteOf t.mem new v = pteOf s.mem new v) ∧
        (∀ v, ¬UserPte t.mem new v) ∧ ∀ a ∈ s.freelist, a ∈ t.freelist ∨ IsNode t.mem new a) := by
  have hsub := h.subset_rest hnew hnode
  refine (uvmcopy_returns h hnew hnode).mono fun ok t ht => ?_
  have hkept : Kept rest' s t := ht.elim (fun h => h.2.kept) fun h => h.2.2
  have hparent := h.unchanged hsub hkept
  refine ⟨hparent.pte, ?_, fun hok => ?_, fun hok => ?_⟩
  · exact userMem_congr hparent.pte fun v hv => hparent.content v (h.lt_of_userPte hv)
  · have hcopied : Copied old new (pages sz) top' rest' s t := by
      rcases ht with ht | ht
      · exact ht.2
      · exact absurd (hok.symm.trans ht.1) (by decide)
    have hisolated := hcopied.isolated h hsub
    refine ⟨fun v hv => ⟨hcopied.flags v hv, hcopied.content v hv, fun w hw heq => ?_,
      fun w hw heq => hcopied.space.inj v hv w hw heq⟩, fun u hu va src ok' w => ?_⟩
    · refine hcopied.space.apart v hv (hsub (Or.inr ⟨w, hw, ?_⟩))
      rw [heq, frameOf, frameOf, hparent.pte]
    · have hlater := hu.isolated hisolated
      exact ⟨fun hrun => (hlater.copyout hrun).2, fun hrun => (hlater.symm.copyout hrun).2⟩
  · have hempty : Space t new 0 top' rest' := by
      rcases ht with ht | ht
      · exact absurd (hok.symm.trans ht.1) (by decide)
      · exact ht.2.1
    refine ⟨fun v hv => ?_, fun v hv => Nat.not_lt_zero v (hempty.lt_of_userPte hv),
      fun a ha => ?_⟩
    · rw [hempty.above v (Nat.zero_le v) hv, hnew.above v (Nat.zero_le v) hv]
    · have hframe := (hnew.table.frame_free ha).congr hkept.ksize
      rcases (hempty.table.all a).mp hframe with hfree | hn | ⟨v, hv, -⟩ | hrest
      · exact Or.inl hfree
      · exact Or.inr hn
      · omega
      · exact absurd (Or.inr hrest) (hnew.table.free a ha).2

/-- A second address space beside the first. -/
theorem Space.create (h : Space s old n top rest) : Returns uvmcreate s fun o t => o ≠ 0 →
    ∃ rest rest', Space t old n top rest ∧ Space t o 0 (fun _ => 0) rest' ∧
      ∀ a, IsNode t.mem o a → a ∈ rest := by
  refine (uvmcreate_returns h.pool).mono fun o t ht hne => ?_
  rcases ht.2 with ⟨hzero, -⟩ | ⟨-, htable, hpte⟩
  · exact absurd hzero hne
  have hsplit : { a | IsNode t.mem o a } ∪ (claimed s.mem old n ∪ rest) =
      claimed s.mem old n ∪ (rest ∪ { a | IsNode t.mem o a }) := by
    rw [Set.union_comm, Set.union_assoc]
  refine ⟨_, _, h.keep ht.1 Set.subset_union_left (hsplit ▸ htable.pool) fun a ha hin => ?_,
    Space.empty htable hpte, fun a ha => Or.inr ha⟩
  exact hin.elim (h.not_mem_rest ha) fun hn => htable.apart a hn (Or.inl ha)

def forksOnce : Evaluated (((uvmcreate >>= fun old => uvmalloc old 0 PGSIZE PTE_W >>= fun _ =>
    copyout old 5 [7] >>= fun _ => uvmcreate >>= fun new => uvmcopy old new PGSIZE >>= fun ok =>
      pure (new, ok)) (lastPages 20)).map
        (fun o => (o.1, o.2.mem (frameOf o.2.mem o.1.1 0 + 5))) =
    .ok ((PHYSTOP - 5 * PGSIZE, true), 7)) :=
  ⟨by decide +kernel⟩

/-- A parent with one page, in which a byte is 7, and a child with none, to which the page can be
copied. -/
theorem exists_twoSpaces : ∃ (s : Phys) (old new : ℕ) (top top' : ℕ → ℕ) (rest rest' : Set ℕ),
    Space s old (pages PGSIZE) top rest ∧ Space s new 0 top' rest' ∧
      (∀ a, IsNode s.mem new a → a ∈ rest) ∧
        (uvmcopy old new PGSIZE s).map (fun o => (o.1, o.2.mem (frameOf o.2.mem new 0 + 5))) =
          .ok (true, 7) := by
  have hrun := forksOnce.holds
  have hpool : Pool (lastPages 20) ∅ := pool_lastPages (by decide)
  obtain ⟨old, s₁, h₁, -, hcreated⟩ := (uvmcreate_returns hpool).exists
  rw [bind_of_ok h₁] at hrun
  rcases hcreated with ⟨rfl, -⟩ | ⟨-, htable, hpte⟩
  · cases h₁
  have hempty : Space s₁ old (pages 0) (fun _ => 0) ∅ := by
    rw [pages_zero]
    exact Space.empty htable hpte
  obtain ⟨sz, s₂, h₂, halloc⟩ := (uvmalloc_returns (show PTE_W < 1024 by decide) hempty
    PGSIZE).exists
  rw [bind_of_ok h₂] at hrun
  rcases halloc with ⟨rfl, -⟩ | ⟨-, hlarge⟩
  · cases h₁
    cases h₂
  obtain ⟨ok, s₃, h₃, hwrote⟩ := (copyout_get hlarge.space.leaves 5 [7]).exists
  rw [bind_of_ok h₃] at hrun
  obtain ⟨new, s₄, h₄, hnew⟩ := (hlarge.space.wrote hwrote.1).1.create.exists
  rw [bind_of_ok h₄] at hrun
  rcases hcopy : uvmcopy old new PGSIZE s₄ with e | ⟨ok, t⟩
  · rw [bind_of_error hcopy] at hrun
    cases hrun
  · rw [bind_of_ok hcopy] at hrun
    obtain ⟨hfst, hbyte⟩ := Prod.mk.inj (Except.ok.inj hrun)
    obtain ⟨rfl, rfl⟩ := Prod.mk.inj hfst
    obtain ⟨rest, rest', hold, hempty, hnode⟩ := hnew (by decide)
    exact ⟨s₄, old, _, _, _, rest, rest', hold, hempty, hnode, by rw [hcopy, ← hbyte]; rfl⟩

/-- The copy succeeds, and the child has the byte in a page of its own. -/
theorem fork_isolates_twoSpaces : ∃ (s t : Phys) (old new : ℕ) (top top' : ℕ → ℕ)
    (rest rest' : Set ℕ), Space s old (pages PGSIZE) top rest ∧ Space s new 0 top' rest' ∧
      (∀ a, IsNode s.mem new a → a ∈ rest) ∧ uvmcopy old new PGSIZE s = .ok (true, t) ∧
        t.mem (frameOf t.mem new 0 + 5) = 7 ∧ s.mem (frameOf s.mem old 0 + 5) = 7 ∧
          frameOf t.mem new 0 ≠ frameOf t.mem old 0 := by
  obtain ⟨s, old, new, top, top', rest, rest', h, hnew, hnode, hrun⟩ := exists_twoSpaces
  obtain ⟨ok, t, hcopy, -, -, hok, -⟩ := (fork_isolates h hnew hnode).exists
  rw [hcopy] at hrun
  obtain ⟨rfl, hbyte⟩ := Prod.mk.inj (Except.ok.inj hrun)
  obtain ⟨-, hsame, hapart, -⟩ := (hok rfl).1 0 (by decide)
  exact ⟨s, t, old, new, top, top', rest, rest', h, hnew, hnode, hcopy, hbyte,
    (hsame 5 (by decide)).symm.trans hbyte, hapart 0 (by decide)⟩

end Xv6Ext2.Vm
