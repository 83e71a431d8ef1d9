import Xv6Ext2.Vm.PageMap

/-!
# Copies between the kernel and user memory

`walkaddr`, `copyout` and `copyin` of `kernel/vm.c`, on physical memory.  The kernel's buffer is
apart from user memory, so it is given by its bytes.

A page table describes the memory of a process: `userMem` reads it off.  As long as the pages of
the process are different pages, and none is a node of the page table, a copy on physical memory
is the copy of `UserMem`, page by page.

## Main definitions

* `walkaddr`, `copyout`, `copyin` — the source functions.
* `userMem` — the memory that a page table describes.
* `Leaves` — what the copies assume of a page table.

## Main results

* `copyoutLoop_eq`, `copyinLoop_eq` — the copies on physical memory are those of `UserMem`.
* `copies_exact` — **user copies are exact, and all of the range is checked.**
-/

namespace Xv6Ext2.Vm

open Memory Prog

variable {s t u : Phys} {mem : ℕ → UInt8} {r a v w n va : ℕ}

/-! ### The source functions -/

/-- The physical address of the page of a user address, or 0 if it is not mapped. -/
def walkaddr (pagetable va : ℕ) : PM ℕ :=
  if MAXVA ≤ va then return 0
  else do
    match ← walk pagetable va false with
    | none => return 0
    | some pte => do
      let w ← loadPte pte
      if w &&& PTE_V = 0 then return 0
      else if w &&& PTE_U = 0 then return 0
      else return pte2pa w

/-- `memmove(dst, src, n)` from a buffer of the kernel. -/
def memmove (dst : ℕ) (src : List UInt8) : PM Unit :=
  modify fun s => { s with mem := put s.mem dst src }

/-- The loop of `copyout`, with so many rounds left. -/
def copyoutLoop (pagetable : ℕ) : ℕ → ℕ → List UInt8 → PM Bool
  | _, _, [] => return true
  | 0, _, _ :: _ => throw .fuel
  | rounds + 1, dstva, c :: src =>
    let va0 := pgrounddown dstva
    if MAXVA ≤ va0 then return false
    else do
      match ← walk pagetable va0 false with
      | none => return false
      | some pte => do
        let w ← loadPte pte
        if w &&& PTE_V = 0 ∨ w &&& PTE_U = 0 ∨ w &&& PTE_W = 0 then return false
        else do
          let n := min (PGSIZE - (dstva - va0)) (c :: src).length
          memmove (pte2pa w + (dstva - va0)) ((c :: src).take n)
          copyoutLoop pagetable rounds ((va0 + PGSIZE) % 2 ^ 64) ((c :: src).drop n)

/-- Copy from the kernel to a user address.  Does it succeed? -/
def copyout (pagetable dstva : ℕ) (src : List UInt8) : PM Bool :=
  copyoutLoop pagetable src.length dstva src

/-- The loop of `copyin`, with so many rounds left. -/
def copyinLoop (pagetable : ℕ) : ℕ → ℕ → ℕ → PM (List UInt8 × Bool)
  | _, _, 0 => return ([], true)
  | 0, _, _ + 1 => throw .fuel
  | rounds + 1, srcva, len + 1 => do
    let va0 := pgrounddown srcva
    let pa0 ← walkaddr pagetable va0
    if pa0 = 0 then return ([], false)
    else do
      let n := min (PGSIZE - (srcva - va0)) (len + 1)
      let s ← get
      let rest ← copyinLoop pagetable rounds ((va0 + PGSIZE) % 2 ^ 64) (len + 1 - n)
      return ((List.range n).map (fun x => s.mem (pa0 + (srcva - va0) + x)) ++ rest.1, rest.2)

/-- Copy `len` bytes from a user address to the kernel: the bytes that have been stored, and
whether all have been. -/
def copyin (pagetable srcva len : ℕ) : PM (List UInt8 × Bool) := copyinLoop pagetable len srcva len

/-! ### The memory that a page table describes -/

/-- The virtual page `v` is mapped for the user. -/
def UserPte (mem : ℕ → UInt8) (r v : ℕ) : Prop :=
  v < MAXVA / PGSIZE ∧ pteOf mem r v &&& PTE_V ≠ 0 ∧ pteOf mem r v &&& PTE_U ≠ 0

instance (mem : ℕ → UInt8) (r v : ℕ) : Decidable (UserPte mem r v) := instDecidableAnd

/-- The memory that a page table describes. -/
def userMem (mem : ℕ → UInt8) (r : ℕ) : UserMem := fun v =>
  if UserPte mem r v then
    some { writable := pteOf mem r v &&& PTE_W ≠ 0
           byte := fun i => if i < PGSIZE then mem (frameOf mem r v + i) else 0 }
  else none

/-- The physical address that a user address is translated to. -/
def paddr (mem : ℕ → UInt8) (r va : ℕ) : ℕ := frameOf mem r (va / PGSIZE) + va % PGSIZE

/-- **What the copies assume of a page table**: the pages of the process are not at 0, are
different pages, and are apart from the nodes. -/
structure Leaves (mem : ℕ → UInt8) (r : ℕ) : Prop where
  root : r % PGSIZE = 0
  nonzero : ∀ v, UserPte mem r v → frameOf mem r v ≠ 0
  inj : ∀ v w, UserPte mem r v → UserPte mem r w → frameOf mem r v = frameOf mem r w → v = w
  apart : ∀ v, UserPte mem r v → ¬IsNode mem r (frameOf mem r v)

theorem frameOf_aligned (mem : ℕ → UInt8) (r v : ℕ) : frameOf mem r v % PGSIZE = 0 :=
  pte2pa_aligned _

theorem page_lt (h : va < MAXVA) : va / PGSIZE < MAXVA / PGSIZE := by
  simp only [PGSIZE, MAXVA] at *
  omega

theorem userMem_of_pte (h : UserPte mem r v) : userMem mem r v =
    some { writable := pteOf mem r v &&& PTE_W ≠ 0
           byte := fun i => if i < PGSIZE then mem (frameOf mem r v + i) else 0 } := if_pos h

theorem userMem_of_not_pte (h : ¬UserPte mem r v) : userMem mem r v = none := if_neg h

theorem not_userPte_of_node (h : nodeAt mem r (dirPath v) = none) : ¬UserPte mem r v := by
  intro hpte
  have hvalid := hpte.2.1
  rw [pteOf_of_none h] at hvalid
  exact hvalid rfl

theorem not_userPte_of_le (h : MAXVA ≤ va) : ¬UserPte mem r (va / PGSIZE) := by
  intro hpte
  have := hpte.1
  simp only [PGSIZE, MAXVA] at *
  omega

/-- What `walkaddr` returns. -/
theorem walkaddr_eq (va : ℕ) (s : Phys) : walkaddr r va s =
    .ok (if UserPte s.mem r (va / PGSIZE) then frameOf s.mem r (va / PGSIZE) else 0, s) := by
  unfold walkaddr
  by_cases hmax : MAXVA ≤ va
  · rw [if_pos hmax, if_neg (not_userPte_of_le hmax)]
    rfl
  · have hva := Nat.not_le.mp hmax
    rw [if_neg hmax, bind_of_ok (walk_false hva s)]
    cases hnode : nodeAt s.mem r (dirPath (va / PGSIZE)) with
    | none =>
      rw [if_neg (not_userPte_of_node hnode)]
      rfl
    | some b =>
      refine (bind_of_ok rfl).trans ?_
      rw [← pteOf_of_some hnode]
      by_cases hvalid : pteOf s.mem r (va / PGSIZE) &&& PTE_V = 0
      · rw [if_pos hvalid, if_neg fun hpte => hpte.2.1 hvalid]
        rfl
      · rw [if_neg hvalid]
        by_cases huser : pteOf s.mem r (va / PGSIZE) &&& PTE_U = 0
        · rw [if_pos huser, if_neg fun hpte => hpte.2.2 huser]
          rfl
        · rw [if_neg huser, if_pos ⟨page_lt hva, hvalid, huser⟩]
          rfl

/-- The abstract page of a user address. -/
theorem walkaddr_userMem (mem : ℕ → UInt8) (r va : ℕ) :
    Xv6Ext2.walkaddr (userMem mem r) va = userMem mem r (va / PGSIZE) := by
  unfold Xv6Ext2.walkaddr
  split
  · next hmax => rw [userMem_of_not_pte (not_userPte_of_le hmax)]
  · rfl

theorem pgrounddown_div (va : ℕ) : pgrounddown va / PGSIZE = va / PGSIZE :=
  Nat.mul_div_cancel _ (by decide)

theorem UserPte.next (h : UserPte mem r (va / PGSIZE)) :
    (pgrounddown va + PGSIZE) % 2 ^ 64 = va / PGSIZE * PGSIZE + PGSIZE := by
  have := h.1
  unfold pgrounddown
  simp only [PGSIZE, MAXVA] at *
  omega

/-- **`copyin` on physical memory** is the copy of `UserMem`. -/
theorem copyinLoop_eq (h : Leaves s.mem r) : ∀ rounds va len : ℕ, len ≤ rounds →
    copyinLoop r rounds va len s = .ok (Xv6Ext2.copyin (userMem s.mem r) rounds va len, s) := by
  intro rounds
  induction rounds with
  | zero =>
    intro va len hlen
    obtain rfl : len = 0 := by omega
    rfl
  | succ rounds ih =>
    intro va len hlen
    rcases len with _ | len
    · rfl
    rw [copyinLoop, Xv6Ext2.copyin]
    dsimp only
    rw [bind_of_ok (walkaddr_eq _ s), walkaddr_userMem, pgrounddown_div,
      show va / PGSIZE * PGSIZE / PGSIZE = va / PGSIZE from Nat.mul_div_cancel _ (by decide)]
    by_cases hpte : UserPte s.mem r (va / PGSIZE)
    · rw [if_pos hpte, if_neg (h.nonzero _ hpte), userMem_of_pte hpte, hpte.next]
      dsimp only
      have hrest : len + 1 - min (PGSIZE - (va - va / PGSIZE * PGSIZE)) (len + 1) ≤ rounds := by
        simp only [PGSIZE]
        omega
      refine (bind_of_ok (get_apply s)).trans ((bind_of_ok (ih _ _ hrest)).trans ?_)
      have hpiece : (List.range (min (PGSIZE - (va - va / PGSIZE * PGSIZE)) (len + 1))).map
            (fun x => s.mem (frameOf s.mem r (va / PGSIZE) + (va - va / PGSIZE * PGSIZE) + x)) =
          (List.range (min (PGSIZE - (va - va / PGSIZE * PGSIZE)) (len + 1))).map
            fun x => if va - va / PGSIZE * PGSIZE + x < PGSIZE then
              s.mem (frameOf s.mem r (va / PGSIZE) + (va - va / PGSIZE * PGSIZE + x)) else 0 := by
        refine List.map_congr_left fun x hx => ?_
        have hx' := List.mem_range.mp hx
        rw [if_pos (by omega), Nat.add_assoc]
      rw [← hpiece]
      rfl
    · rw [if_neg hpte, if_pos rfl, userMem_of_not_pte hpte]
      rfl

/-! ### Writing to user memory -/

/-- The memories differ in pages of the process only. -/
def Touches (r : ℕ) (mem mem' : ℕ → UInt8) : Prop :=
  ∀ x, mem' x ≠ mem x → ∃ v, UserPte mem r v ∧ pgrounddown x = frameOf mem r v

/-- A write to pages of the process does not change the page table. -/
theorem Leaves.entries (h : Leaves mem r) {mem' : ℕ → UInt8} (ht : Touches r mem mem') :
    (∀ p : List (Fin 512), p.length ≤ 2 → nodeAt mem' r p = nodeAt mem r p) ∧
      ∀ v, pteOf mem' r v = pteOf mem r v := by
  have hsame : ∀ x, IsNode mem r (pgrounddown x) → mem' x = mem x := fun x hnode => by
    by_contra hne
    obtain ⟨v, hpte, hpage⟩ := ht x hne
    exact h.apart v hpte (hpage ▸ hnode)
  exact ⟨(entries_congr h.root hsame).1, (entries_congr h.root hsame).2.1⟩

theorem userPte_congr {mem' : ℕ → UInt8} (hpte : pteOf mem' r v = pteOf mem r v) :
    UserPte mem' r v ↔ UserPte mem r v := by
  unfold UserPte
  rw [hpte]

/-- A page of a process depends on its entry and on the page that it is mapped to. -/
theorem userMem_page {mem' : ℕ → UInt8} (hpte : pteOf mem' r v = pteOf mem r v)
    (hmem : UserPte mem r v → ∀ k < PGSIZE,
      mem' (frameOf mem r v + k) = mem (frameOf mem r v + k)) :
    userMem mem' r v = userMem mem r v := by
  have huser := userPte_congr hpte
  by_cases hv : UserPte mem r v
  · rw [userMem_of_pte hv, userMem_of_pte (huser.mpr hv), frameOf, hpte]
    refine congrArg some (congrArg (UserPage.mk _) (funext fun i => ?_))
    by_cases hi : i < PGSIZE
    · rw [if_pos hi, if_pos hi]
      exact hmem hv i hi
    · rw [if_neg hi, if_neg hi]
  · rw [userMem_of_not_pte hv, userMem_of_not_pte fun hv' => hv (huser.mp hv')]

/-- The memory that a page table describes depends on its entries and on the pages of the
process. -/
theorem userMem_congr {mem' : ℕ → UInt8} (hpte : ∀ v, pteOf mem' r v = pteOf mem r v)
    (hmem : ∀ v, UserPte mem r v → ∀ k < PGSIZE,
      mem' (frameOf mem r v + k) = mem (frameOf mem r v + k)) : userMem mem' r = userMem mem r :=
  funext fun v => userMem_page (hpte v) (hmem v)

/-- A byte is a byte of its page. -/
theorem get_userMem_congr {mem' : ℕ → UInt8} {b : ℕ}
    (h : userMem mem' r (b / PGSIZE) = userMem mem r (b / PGSIZE)) :
    (userMem mem' r).get b = (userMem mem r).get b := by
  rw [UserMem.get, UserMem.get, walkaddr_userMem, walkaddr_userMem, h]

theorem Leaves.congr (h : Leaves mem r) {mem' : ℕ → UInt8}
    (hnode : ∀ p : List (Fin 512), p.length ≤ 2 → nodeAt mem' r p = nodeAt mem r p)
    (hpte : ∀ v, pteOf mem' r v = pteOf mem r v) : Leaves mem' r := by
  have hframe : ∀ v, frameOf mem' r v = frameOf mem r v := fun v => by rw [frameOf, frameOf, hpte]
  refine ⟨h.root, fun v hv => ?_, fun v w hv hw hvw => ?_, fun v hv hn => ?_⟩
  · rw [hframe]
    exact h.nonzero v ((userPte_congr (hpte v)).mp hv)
  · rw [hframe, hframe] at hvw
    exact h.inj v w ((userPte_congr (hpte v)).mp hv) ((userPte_congr (hpte w)).mp hw) hvw
  · rw [hframe] at hn
    obtain ⟨p, hp, hn⟩ := hn
    exact h.apart v ((userPte_congr (hpte v)).mp hv) ⟨p, hp, (hnode p hp).symm.trans hn⟩

theorem Leaves.touch (h : Leaves mem r) {mem' : ℕ → UInt8} (ht : Touches r mem mem') :
    Leaves mem' r :=
  h.congr (h.entries ht).1 (h.entries ht).2

section Put

variable {o : ℕ} {bytes : List UInt8}

theorem touches_put (hpte : UserPte mem r v) (hlen : o + bytes.length ≤ PGSIZE) :
    Touches r mem (put mem (frameOf mem r v + o) bytes) := by
  intro x hx
  refine ⟨v, hpte, pgrounddown_eq (pte2pa_aligned _) ?_⟩
  by_contra hout
  exact hx (put_of_not_mem (by omega))

/-- A write to a page of the process is a write to its memory. -/
theorem userMem_put (h : Leaves mem r) (hpte : UserPte mem r v) {page : UserPage}
    (hpage : userMem mem r v = some page) (hlen : o + bytes.length ≤ PGSIZE) :
    userMem (put mem (frameOf mem r v + o) bytes) r = (userMem mem r).put v page o bytes := by
  obtain ⟨-, hentry⟩ := h.entries (touches_put hpte hlen)
  rw [userMem_of_pte hpte] at hpage
  cases hpage
  funext w
  have hframe : frameOf (put mem (frameOf mem r v + o) bytes) r w = frameOf mem r w :=
    congrArg pte2pa (hentry w)
  have hsame : UserPte (put mem (frameOf mem r v + o) bytes) r w ↔ UserPte mem r w :=
    userPte_congr (hentry w)
  unfold UserMem.put
  by_cases hwv : w = v
  · subst hwv
    rw [Function.update_self, userMem_of_pte (hsame.mpr hpte), hframe, hentry]
    refine congrArg some (congrArg (UserPage.mk _) (funext fun i => ?_))
    dsimp only
    by_cases hi : i < PGSIZE
    · rw [if_pos hi, if_pos hi]
      by_cases hin : o ≤ i ∧ i < o + bytes.length
      · rw [if_pos hin, put_of_mem (by omega), Nat.add_sub_add_left]
      · rw [if_neg hin, put_of_not_mem (by omega)]
    · rw [if_neg hi, if_neg hi, if_neg (by omega)]
  · rw [Function.update_of_ne hwv]
    by_cases hw : UserPte mem r w
    · rw [userMem_of_pte (hsame.mpr hw), userMem_of_pte hw, hframe, hentry]
      refine congrArg some (congrArg (UserPage.mk _) (funext fun i => ?_))
      -- another page of the process is another page of memory
      have hne : frameOf mem r w ≠ frameOf mem r v := fun heq => hwv (h.inj w v hw hpte heq)
      have hw0 := frameOf_aligned mem r w
      have hv0 := frameOf_aligned mem r v
      by_cases hi : i < PGSIZE
      · rw [if_pos hi, if_pos hi, put_of_not_mem]
        simp only [PGSIZE] at *
        omega
      · rw [if_neg hi, if_neg hi]
    · rw [userMem_of_not_pte hw, userMem_of_not_pte (fun h => hw (hsame.mp h))]

end Put

/-- What a copy to `len` user addresses from `va` on does to physical memory. -/
structure Wrote (r va len : ℕ) (s t : Phys) : Prop where
  rest : t = { s with mem := t.mem }
  mem : ∀ x, t.mem x ≠ s.mem x →
    ∃ b, va ≤ b ∧ b < va + len ∧ UserPte s.mem r (b / PGSIZE) ∧ x = paddr s.mem r b

theorem Wrote.touches (h : Wrote r va n s t) : Touches r s.mem t.mem := by
  intro x hx
  obtain ⟨b, -, -, hpte, rfl⟩ := h.mem x hx
  refine ⟨b / PGSIZE, hpte, pgrounddown_eq (pte2pa_aligned _) ?_⟩
  have := Nat.mod_lt b (show PGSIZE > 0 by decide)
  unfold paddr
  omega

theorem Wrote.refl (r va len : ℕ) (s : Phys) : Wrote r va len s s :=
  ⟨rfl, fun _ hx => absurd rfl hx⟩

/-- A copy to a part of the range. -/
theorem Wrote.mono {va' n' : ℕ} (h : Wrote r va n s t) (hlow : va' ≤ va)
    (hhigh : va + n ≤ va' + n') : Wrote r va' n' s t :=
  ⟨h.rest, fun x hx =>
    let ⟨b, hb, hb', hpte, heq⟩ := h.mem x hx
    ⟨b, by omega, by omega, hpte, heq⟩⟩

theorem Wrote.trans (hl : Leaves s.mem r) (h : Wrote r va n s t) (h' : Wrote r va n t u) :
    Wrote r va n s u := by
  have hentry := (hl.entries h.touches).2
  refine ⟨by rw [h'.rest, h.rest], fun x hx => ?_⟩
  by_cases hlater : u.mem x = t.mem x
  · exact h.mem x (hlater ▸ hx)
  · obtain ⟨b, hlow, hhigh, hpte, rfl⟩ := h'.mem x hlater
    refine ⟨b, hlow, hhigh, (userPte_congr (hentry _)).mp hpte, ?_⟩
    rw [paddr, paddr, frameOf, hentry]

/-- The bytes that differ after a round and the rest of the copy. -/
theorem Wrote.of_put (h : Leaves s.mem r) (hpte : UserPte s.mem r (va / PGSIZE)) {l : List UInt8}
    (hn : min (PGSIZE - (va - va / PGSIZE * PGSIZE)) l.length = n) {mem' : ℕ → UInt8}
    (hmem : mem' = put s.mem (frameOf s.mem r (va / PGSIZE) + (va - va / PGSIZE * PGSIZE))
      (l.take n))
    (hwrote : Wrote r (va / PGSIZE * PGSIZE + PGSIZE) (l.drop n).length { s with mem := mem' } t) :
    Wrote r va l.length s t := by
  have htake : (l.take n).length = n := by rw [List.length_take]; omega
  have hfits : va - va / PGSIZE * PGSIZE + (l.take n).length ≤ PGSIZE := by
    simp only [PGSIZE] at *
    omega
  obtain ⟨-, hentry⟩ := h.entries (touches_put hpte hfits)
  refine ⟨hwrote.rest, fun x hx => ?_⟩
  by_cases hlater : t.mem x = mem' x
  · -- the byte has been written in this round
    rw [hlater, hmem] at hx
    have hin : frameOf s.mem r (va / PGSIZE) + (va - va / PGSIZE * PGSIZE) ≤ x ∧
        x < frameOf s.mem r (va / PGSIZE) + (va - va / PGSIZE * PGSIZE) + n := by
      by_contra hout
      exact hx (put_of_not_mem (by rwa [htake]))
    obtain ⟨k, rfl⟩ := Nat.exists_eq_add_of_le hin.1
    have hpage : (va + k) / PGSIZE = va / PGSIZE ∧
        (va + k) % PGSIZE = va - va / PGSIZE * PGSIZE + k := by
      simp only [PGSIZE] at *
      omega
    refine ⟨va + k, by omega, by omega, by rwa [hpage.1], ?_⟩
    rw [paddr, hpage.1, hpage.2, Nat.add_assoc]
  · obtain ⟨b, hlow, hhigh, hbpte, hb⟩ := hwrote.mem x hlater
    rw [List.length_drop] at hhigh
    dsimp only at hbpte hb
    rw [hmem] at hbpte hb
    refine ⟨b, by simp only [PGSIZE] at *; omega, by simp only [PGSIZE] at *; omega,
      (userPte_congr (hentry _)).mp hbpte, ?_⟩
    rw [hb, paddr, paddr, frameOf, hentry]

/-- A round of `copyout`. -/
theorem copyoutLoop_round (rounds va : ℕ) {src : List UInt8} (hsrc : src ≠ []) (s : Phys) :
    copyoutLoop r (rounds + 1) va src s =
      if UserPte s.mem r (va / PGSIZE) ∧ pteOf s.mem r (va / PGSIZE) &&& PTE_W ≠ 0 then
        copyoutLoop r rounds (va / PGSIZE * PGSIZE + PGSIZE)
          (src.drop (min (PGSIZE - (va - va / PGSIZE * PGSIZE)) src.length))
          { s with
            mem := put s.mem (frameOf s.mem r (va / PGSIZE) + (va - va / PGSIZE * PGSIZE))
              (src.take (min (PGSIZE - (va - va / PGSIZE * PGSIZE)) src.length)) }
      else .ok (false, s) := by
  obtain ⟨c, src, rfl⟩ := List.exists_cons_of_ne_nil hsrc
  rw [copyoutLoop]
  dsimp only
  have hdiv := pgrounddown_div va
  by_cases hmax : MAXVA ≤ pgrounddown va
  · have hno : ¬UserPte s.mem r (pgrounddown va / PGSIZE) := not_userPte_of_le hmax
    rw [hdiv] at hno
    rw [if_pos hmax, if_neg fun h => hno h.1]
    rfl
  · have hva := Nat.not_le.mp hmax
    rw [if_neg hmax, bind_of_ok (walk_false hva s), hdiv]
    cases hnode : nodeAt s.mem r (dirPath (va / PGSIZE)) with
    | none =>
      rw [if_neg fun h => not_userPte_of_node hnode h.1]
      rfl
    | some b =>
      refine (bind_of_ok rfl).trans ?_
      rw [← pteOf_of_some hnode]
      by_cases hok : UserPte s.mem r (va / PGSIZE) ∧ pteOf s.mem r (va / PGSIZE) &&& PTE_W ≠ 0
      · have hcheck := not_or.mpr ⟨hok.1.2.1, not_or.mpr ⟨hok.1.2.2, hok.2⟩⟩
        rw [if_neg hcheck, if_pos hok, hok.1.next]
        exact bind_of_ok rfl
      · rw [if_neg hok, if_pos]
        · rfl
        · have hlt : va / PGSIZE < MAXVA / PGSIZE := hdiv ▸ page_lt hva
          by_contra hcheck
          rw [not_or, not_or] at hcheck
          exact hok ⟨⟨hlt, hcheck.1, hcheck.2.1⟩, hcheck.2.2⟩

/-- Whatever the page table says, `copyout` returns and changes nothing but bytes of memory. -/
theorem copyoutLoop_mem : ∀ (rounds va : ℕ) (src : List UInt8) (s : Phys), src.length ≤ rounds →
    Returns (copyoutLoop r rounds va src) s fun _ t => ∃ mem', t = { s with mem := mem' } := by
  intro rounds
  induction rounds with
  | zero =>
    intro va src s hlen
    obtain rfl := List.length_eq_zero_iff.mp (Nat.le_zero.mp hlen)
    exact Yields.of_ok rfl ⟨s.mem, rfl⟩
  | succ rounds ih =>
    intro va src s hlen
    rcases eq_or_ne src [] with rfl | hsrc
    · exact Yields.of_ok rfl ⟨s.mem, rfl⟩
    have hpos := List.length_pos_iff.mpr hsrc
    by_cases hpte : UserPte s.mem r (va / PGSIZE) ∧ pteOf s.mem r (va / PGSIZE) &&& PTE_W ≠ 0
    · refine Yields.of_eq ((copyoutLoop_round rounds va hsrc s).trans (if_pos hpte))
        ((ih _ _ _ ?_).mono fun _ t ht => ?_)
      · rw [List.length_drop]
        simp only [PGSIZE]
        omega
      · obtain ⟨mem', rfl⟩ := ht
        exact ⟨mem', rfl⟩
    · exact Yields.of_ok ((copyoutLoop_round rounds va hsrc s).trans (if_neg hpte)) ⟨s.mem, rfl⟩

theorem copyout_mem (r va : ℕ) (src : List UInt8) (s : Phys) :
    Returns (copyout r va src) s fun _ t => ∃ mem', t = { s with mem := mem' } :=
  copyoutLoop_mem _ va src s le_rfl

/-- **`copyout` on physical memory** is the copy of `UserMem`. -/
theorem copyoutLoop_eq : ∀ (rounds va : ℕ) (src : List UInt8) (s : Phys), Leaves s.mem r →
    src.length ≤ rounds → ∃ t,
      copyoutLoop r rounds va src s =
        .ok ((Xv6Ext2.copyout rounds (userMem s.mem r) va src).2, t) ∧
      userMem t.mem r = (Xv6Ext2.copyout rounds (userMem s.mem r) va src).1 ∧
      Wrote r va src.length s t := by
  intro rounds
  induction rounds with
  | zero =>
    intro va src s h hlen
    obtain rfl : src = [] := List.eq_nil_of_length_eq_zero (by omega)
    exact ⟨s, rfl, rfl, rfl, fun x hx => absurd rfl hx⟩
  | succ rounds ih =>
    intro va src s h hlen
    rcases src with _ | ⟨c, src⟩
    · exact ⟨s, rfl, rfl, rfl, fun x hx => absurd rfl hx⟩
    rw [copyoutLoop_round _ _ (List.cons_ne_nil c src), Xv6Ext2.copyout]
    dsimp only
    rw [walkaddr_userMem, show va / PGSIZE * PGSIZE / PGSIZE = va / PGSIZE from
      Nat.mul_div_cancel _ (by decide)]
    generalize c :: src = l at hlen ⊢
    by_cases hpte : UserPte s.mem r (va / PGSIZE)
    · by_cases hwrite : pteOf s.mem r (va / PGSIZE) &&& PTE_W = 0
      · rw [if_neg fun hok => hok.2 hwrite, userMem_of_pte hpte]
        dsimp only
        rw [if_pos (decide_eq_false fun hne => hne hwrite)]
        exact ⟨s, rfl, rfl, rfl, fun x hx => absurd rfl hx⟩
      · rw [if_pos ⟨hpte, hwrite⟩]
        obtain ⟨page, hpage⟩ : ∃ page, userMem s.mem r (va / PGSIZE) = some page :=
          ⟨_, userMem_of_pte hpte⟩
        rw [hpage]
        dsimp only
        have hwritable : ¬page.writable = false := by
          rw [userMem_of_pte hpte] at hpage
          cases hpage
          exact fun hno => of_decide_eq_false hno hwrite
        rw [if_neg hwritable]
        generalize hn : min (PGSIZE - (va - va / PGSIZE * PGSIZE)) l.length = n
        have htake : (l.take n).length = n := by rw [List.length_take]; omega
        have hfits : va - va / PGSIZE * PGSIZE + (l.take n).length ≤ PGSIZE := by
          simp only [PGSIZE] at *
          omega
        have htouch := touches_put hpte hfits
        obtain ⟨t, hrun, hmem, hwrote⟩ := ih (va / PGSIZE * PGSIZE + PGSIZE) (l.drop n)
          { s with
            mem := put s.mem (frameOf s.mem r (va / PGSIZE) + (va - va / PGSIZE * PGSIZE))
              (l.take n) } (h.touch htouch)
          (by rw [List.length_drop]; simp only [PGSIZE] at *; omega)
        rw [userMem_put h hpte hpage hfits] at hrun hmem
        exact ⟨t, hrun, hmem, hwrote.of_put h hpte hn rfl⟩
    · rw [if_neg fun hok => hpte hok.1, userMem_of_not_pte hpte]
      exact ⟨s, rfl, rfl, rfl, fun x hx => absurd rfl hx⟩

/-! ### Copies are exact -/

/-- The virtual page `v` is mapped for writing by the user. -/
def UserWritable (mem : ℕ → UInt8) (r v : ℕ) : Prop :=
  UserPte mem r v ∧ pteOf mem r v &&& PTE_W ≠ 0

theorem isSome_walkaddr (mem : ℕ → UInt8) (r va : ℕ) :
    (Xv6Ext2.walkaddr (userMem mem r) va).isSome = true ↔ UserPte mem r (va / PGSIZE) := by
  rw [walkaddr_userMem]
  by_cases hpte : UserPte mem r (va / PGSIZE)
  · simp [userMem_of_pte hpte, hpte]
  · simp [userMem_of_not_pte hpte, hpte]

theorem writable_userMem (mem : ℕ → UInt8) (r va : ℕ) :
    (userMem mem r).writable va = true ↔ UserWritable mem r (va / PGSIZE) := by
  rw [UserMem.writable, walkaddr_userMem, UserWritable]
  by_cases hpte : UserPte mem r (va / PGSIZE)
  · simp [userMem_of_pte hpte, hpte]
  · simp [userMem_of_not_pte hpte, hpte]

theorem get_userMem (hpte : UserPte mem r (va / PGSIZE)) :
    (userMem mem r).get va = some (mem (paddr mem r va)) := by
  rw [UserMem.get, walkaddr_userMem, userMem_of_pte hpte, Option.map_some]
  dsimp only
  rw [if_pos (Nat.mod_lt va (by decide)), paddr]

/-- Other bytes of the process than those written are as they were. -/
theorem Wrote.get_of_not_mem {b : ℕ} (hl : Leaves s.mem r) (h : Wrote r va n s t)
    (hb : ¬(va ≤ b ∧ b < va + n)) : (userMem t.mem r).get b = (userMem s.mem r).get b := by
  have hentry := (hl.entries h.touches).2
  by_cases hpte : UserPte s.mem r (b / PGSIZE)
  · rw [get_userMem hpte, get_userMem ((userPte_congr (hentry _)).mpr hpte)]
    have hpaddr : paddr t.mem r b = paddr s.mem r b := by rw [paddr, paddr, frameOf, hentry]
    rw [hpaddr]
    by_contra hne
    obtain ⟨b', hlow, hhigh, hpte', heq⟩ := h.mem _ fun hsame => hne (congrArg some hsame)
    -- the page and the offset in it are the same
    have hmod : ∀ c, paddr s.mem r c = frameOf s.mem r (c / PGSIZE) + c % PGSIZE := fun _ => rfl
    have hframe : frameOf s.mem r (b / PGSIZE) = frameOf s.mem r (b' / PGSIZE) ∧
        b % PGSIZE = b' % PGSIZE := by
      have halign := frameOf_aligned s.mem r (b / PGSIZE)
      have halign' := frameOf_aligned s.mem r (b' / PGSIZE)
      rw [hmod, hmod] at heq
      simp only [PGSIZE] at *
      omega
    have hpage := hl.inj _ _ hpte hpte' hframe.1
    have hbb : b = b' := by
      rw [← Nat.div_add_mod b PGSIZE, ← Nat.div_add_mod b' PGSIZE, hpage, hframe.2]
    exact hb (hbb ▸ ⟨hlow, hhigh⟩)
  · refine get_userMem_congr ?_
    have hpte' : ¬UserPte _ r _ := fun h' => hpte ((userPte_congr (hentry _)).mp h')
    rw [userMem_of_not_pte hpte, userMem_of_not_pte hpte']

/-- The user bytes from `va` on have become `src`, and no other byte of memory has changed. -/
structure Overwritten (r va : ℕ) (src : List UInt8) (s t : Phys) : Prop where
  rest : t = { s with mem := t.mem }
  pte : ∀ v, pteOf t.mem r v = pteOf s.mem r v
  written : ∀ i < src.length, t.mem (paddr s.mem r (va + i)) = src.getD i 0
  other : ∀ x, (∀ i < src.length, x ≠ paddr s.mem r (va + i)) → t.mem x = s.mem x

/-- What `copyout` does to the memory of the process. -/
theorem copyout_get (h : Leaves s.mem r) (va : ℕ) (src : List UInt8) :
    Returns (copyout r va src) s fun ok t => Wrote r va src.length s t ∧
      (ok = true ↔ ∀ b, va ≤ b → b < va + src.length → UserWritable s.mem r (b / PGSIZE)) ∧
      (ok = true → ∀ b, (userMem t.mem r).get b =
        if va ≤ b ∧ b < va + src.length then some (src.getD (b - va) 0)
        else (userMem s.mem r).get b) := by
  obtain ⟨t, hrun, hmem, hwrote⟩ := copyoutLoop_eq src.length va src s h le_rfl
  refine Yields.of_ok hrun ⟨hwrote, ?_, fun hok b => ?_⟩
  · rw [copyout_snd _ _ _ _ le_rfl]
    constructor
    · intro hall b hlow hhigh
      have := (writable_userMem _ _ _).mp (hall (b - va) (by omega))
      rwa [show va + (b - va) = b by omega] at this
    · exact fun hall x hx => (writable_userMem _ _ _).mpr (hall _ (by omega) (by omega))
  · have hlead : lead (fun x => (userMem s.mem r).writable (va + x)) src.length = src.length :=
      lead_eq_self.mpr ((copyout_snd _ _ _ _ le_rfl).mp hok)
    rw [hmem, get_copyout (b := b) src.length (userMem s.mem r) va src le_rfl, hlead]

/-- **What `copyout` does.** -/
theorem copyout_returns (h : Leaves s.mem r) (va : ℕ) (src : List UInt8) :
    Returns (copyout r va src) s fun ok t => Wrote r va src.length s t ∧
      (ok = true ↔ ∀ b, va ≤ b → b < va + src.length → UserWritable s.mem r (b / PGSIZE)) ∧
      (ok = true → Overwritten r va src s t) := by
  refine (copyout_get h va src).mono fun ok t ht => ?_
  obtain ⟨hwrote, hall, hget⟩ := ht
  have hentry := (h.entries hwrote.touches).2
  refine ⟨hwrote, hall, fun hok => ⟨hwrote.rest, hentry, fun i hi => ?_, fun x hx => ?_⟩⟩
  · have hwritable := hall.mp hok (va + i) (by omega) (by omega)
    have hbyte := hget hok (va + i)
    rw [if_pos (by omega), get_userMem ((userPte_congr (hentry _)).mpr hwritable.1),
      Nat.add_sub_cancel_left] at hbyte
    rw [← Option.some.inj hbyte, paddr, paddr, frameOf, frameOf, hentry]
  · by_contra hne
    obtain ⟨b, hlow, hhigh, -, hb⟩ := hwrote.mem x hne
    refine hx (b - va) (by omega) ?_
    rwa [show va + (b - va) = b by omega]

/-- **What `copyin` does.** -/
theorem copyin_returns (h : Leaves s.mem r) (va len : ℕ) :
    Returns (copyin r va len) s fun o t => t = s ∧
      (o.2 = true ↔ ∀ b, va ≤ b → b < va + len → UserPte s.mem r (b / PGSIZE)) ∧
      (o.2 = true → o.1 = (List.range len).map fun i => s.mem (paddr s.mem r (va + i))) := by
  refine Yields.of_ok (copyinLoop_eq h len va len le_rfl) ⟨rfl, ?_⟩
  rw [copyin_eq _ _ _ _ le_rfl]
  dsimp only
  rw [decide_eq_true_iff, lead_eq_self]
  have hall : (∀ x < len, (Xv6Ext2.walkaddr (userMem s.mem r) (va + x)).isSome = true) ↔
      ∀ b, va ≤ b → b < va + len → UserPte s.mem r (b / PGSIZE) := by
    constructor
    · intro hall b hlow hhigh
      have := (isSome_walkaddr _ _ _).mp (hall (b - va) (by omega))
      rwa [show va + (b - va) = b by omega] at this
    · exact fun hall x hx => (isSome_walkaddr _ _ _).mpr (hall _ (by omega) (by omega))
  refine ⟨hall, fun hok => ?_⟩
  rw [lead_eq_self.mpr hok]
  refine List.map_congr_left fun i hi => ?_
  rw [get_userMem (hall.mp hok (va + i) (by omega) (by have := List.mem_range.mp hi; omega)),
    Option.getD_some]

/-- **User copies are exact, and all of the range is checked.** -/
theorem copies_exact (h : Leaves s.mem r) (va : ℕ) (src : List UInt8) (len : ℕ) :
    (Returns (copyout r va src) s fun ok t =>
      (ok = true ↔ ∀ b, va ≤ b → b < va + src.length → UserWritable s.mem r (b / PGSIZE)) ∧
      (ok = true → Overwritten r va src s t ∧
        copyin r va src.length t = .ok ((src, true), t))) ∧
    Returns (copyin r va len) s fun o t => t = s ∧
      (o.2 = true ↔ ∀ b, va ≤ b → b < va + len → UserPte s.mem r (b / PGSIZE)) ∧
      (o.2 = true → o.1 = (List.range len).map fun i => s.mem (paddr s.mem r (va + i))) := by
  refine ⟨(copyout_returns h va src).mono fun ok t ht => ⟨ht.2.1, fun hok => ?_⟩,
    copyin_returns h va len⟩
  have hover := ht.2.2 hok
  refine ⟨hover, ?_⟩
  obtain ⟨⟨bytes, ok'⟩, t', hrun, rfl, hsuccess, hbytes⟩ :=
    (copyin_returns (h.touch ht.1.touches) va src.length).exists
  have hok' : ok' = true := hsuccess.mpr fun b hlow hhigh =>
    (userPte_congr (hover.pte _)).mpr (ht.2.1.mp hok b hlow hhigh).1
  have hsrc : bytes = src := by
    have hmap : bytes = _ := hbytes hok'
    rw [hmap]
    refine List.ext_getElem (by simp) fun i hi hi' => ?_
    rw [List.getElem_map, List.getElem_range, paddr, frameOf, hover.pte]
    exact (hover.written i hi').trans (by rw [List.getD_eq_getElem?_getD]; simp [hi'])
  rw [hrun, hsrc, hok']

/-- A machine with three free pages; the last page is in use. -/
def threePages : Phys := { lastPages 4 with freelist := (lastPages 4).freelist.tail }

theorem pool_threePages : Pool threePages {PHYSTOP - PGSIZE} := by
  have hpool := pool_lastPages (n := 4) (by decide)
  have hnodup := List.nodup_cons.mp hpool.nodup
  refine ⟨fun a => (hpool.all a).trans ?_, hnodup.2, fun a ha hlast => ?_⟩
  · rw [Set.mem_empty_iff_false, or_false, Set.mem_singleton_iff, or_comm]
    exact List.mem_cons
  · rw [Set.mem_singleton_iff] at hlast
    subst hlast
    exact hnodup.1 ha

def mapsOne : Evaluated (((uvmcreate >>= fun r => mappages r (0 * PGSIZE) (1 * PGSIZE)
    (PHYSTOP - PGSIZE) (PTE_R ||| PTE_W ||| PTE_U)) threePages).map Prod.fst = .ok true) :=
  ⟨by decide +kernel⟩

/-- An address space of one page. -/
theorem exists_leaves : ∃ (s : Phys) (r : ℕ), Leaves s.mem r ∧ UserWritable s.mem r 0 := by
  have hrun := mapsOne.holds
  obtain ⟨r, s, hs, -, hcreated⟩ := (uvmcreate_returns pool_threePages).exists
  rw [bind_of_ok hs] at hrun
  rcases hcreated with ⟨rfl, -⟩ | ⟨-, htable, hzero⟩
  · cases hs
  have hperm : PTE_R ||| PTE_W ||| PTE_U < 1024 := by decide
  have hpa : PHYSTOP - PGSIZE < 2 ^ 64 := by decide
  obtain ⟨ok, t, ht, k, -, hok, hacts, hpte⟩ := (mappages_returns (v := 0) (n := 1) hperm htable hpa
    Nat.one_pos (by decide) fun i _ => by rw [hzero]; rfl).exists
  rw [ht] at hrun
  obtain rfl := hok.mp (Except.ok.inj hrun)
  have hentry : ∀ v < VPAGES, pteOf t.mem r v =
      if v = 0 then mapEntry (PHYSTOP - PGSIZE) (PTE_R ||| PTE_W ||| PTE_U) 0 else 0 := by
    intro v hv
    rw [hpte v hv, hzero]
    by_cases hv0 : v = 0
    · rw [if_pos hv0, if_pos (by omega), hv0]
    · rw [if_neg hv0, if_neg (by omega)]
  have hfirst : pteOf t.mem r 0 = _ := hentry 0 (by decide)
  have honly : ∀ v, UserPte t.mem r v → v = 0 := by
    intro v hv
    by_contra hne
    have hvalid := hv.2.1
    have hlt := hv.1
    rw [hentry v (by simp only [VPAGES, MAXVA, PGSIZE] at *; omega), if_neg hne] at hvalid
    exact hvalid rfl
  have hframe : frameOf t.mem r 0 = PHYSTOP - PGSIZE := by
    rw [frameOf, hfirst]
    decide +kernel
  refine ⟨t, r, ⟨hacts.table.aligned, fun v hv => ?_, fun v w hv hw _ => ?_, fun v hv hnode => ?_⟩,
    ⟨by decide, ?_, ?_⟩, ?_⟩
  · rw [honly v hv, hframe]
    decide
  · rw [honly v hv, honly w hw]
  · rw [honly v hv, hframe] at hnode
    exact hacts.table.apart _ hnode rfl
  all_goals
    rw [hfirst]
    decide +kernel

theorem copies_exact_onePage : ∃ (s : Phys) (r : ℕ), Leaves s.mem r ∧ UserWritable s.mem r 0 ∧
    Returns (copyout r 0 [1, 2]) s fun ok t =>
      (ok = true ↔ ∀ b, 0 ≤ b → b < 0 + 2 → UserWritable s.mem r (b / PGSIZE)) ∧
      (ok = true → Overwritten r 0 [1, 2] s t ∧ copyin r 0 2 t = .ok (([1, 2], true), t)) := by
  obtain ⟨s, r, h, hwritable⟩ := exists_leaves
  exact ⟨s, r, h, hwritable, (copies_exact h 0 [1, 2] 2).1⟩

end Xv6Ext2.Vm
