import Xv6Ext2.Lib.Memory
import Xv6Ext2.UserMem

/-!
# Physical memory and page tables

The allocator of `kernel/kalloc.c` and the functions of `kernel/vm.c` that read and change a
page table: `walk`, `mappages`, `uvmunmap` and `uvmcreate`.

A page table is a tree of pages.  A *node* is one of its pages, found from the root by the
entries on the way, and an entry of a node of the last level is the entry of a virtual page.
`walk` creates nodes on its way; since a page from `kalloc` is in use nowhere else, a new node
changes no other entry.

## Main definitions

* `Phys`, `PM` — physical memory with the list of free pages, and programs over it.
* `kalloc`, `kfree`, `walk`, `mappages`, `uvmunmap`, `uvmcreate` — the source functions.
* `nodeAt`, `pteOf` — the nodes of a page table, and the entries of virtual pages.
* `Table s r others` — **the invariant**: the free pages, the nodes of the table at `r` and the
  pages `others` are all the pages there are, and none of them is counted twice.
-/

namespace Xv6Ext2.Vm

open Memory Prog

/-! ### The layout of memory -/

abbrev KERNBASE : ℕ := 0x80000000
abbrev PHYSTOP : ℕ := KERNBASE + 128 * 1024 * 1024
abbrev TRAMPOLINE : ℕ := MAXVA - PGSIZE
abbrev TRAPFRAME : ℕ := TRAMPOLINE - PGSIZE

/-- `PGROUNDUP(sz)` -/
def pgroundup (sz : ℕ) : ℕ := (sz + PGSIZE - 1) % 2 ^ 64 / PGSIZE * PGSIZE

/-- `PGROUNDDOWN(a)` -/
def pgrounddown (a : ℕ) : ℕ := a / PGSIZE * PGSIZE

abbrev PTE_V : ℕ := 1
abbrev PTE_R : ℕ := 2
abbrev PTE_W : ℕ := 4
abbrev PTE_X : ℕ := 8
abbrev PTE_U : ℕ := 16

/-- `PA2PTE(pa)` -/
def pa2pte (pa : ℕ) : ℕ := (pa >>> 12) <<< 10

/-- `PTE2PA(pte)` -/
def pte2pa (pte : ℕ) : ℕ := (pte >>> 10) <<< 12 % 2 ^ 64

/-- `PTE_FLAGS(pte)` -/
def pteFlags (pte : ℕ) : ℕ := pte &&& 0x3FF

/-- `PX(level, va)` -/
def px (level va : ℕ) : ℕ := va >>> (12 + 9 * level) &&& 0x1FF

/-! ### The allocator -/

/-- Physical memory.  `ksize` is the size of the kernel itself, from `KERNBASE` to `end`, and
`kmem.freelist` is given as a list.  `denied` says of the coming calls of `kalloc` which of them
fail although there is a page. -/
structure Phys where
  ksize : ℕ
  mem : ℕ → UInt8
  freelist : List ℕ
  denied : List Bool

/-- Programs over physical memory. -/
abbrev PM (α : Type) := Prog Phys Err α

/-- The address `end`. -/
def Phys.kend (s : Phys) : ℕ := KERNBASE + s.ksize

/-- `memset(dst, c, n)` -/
def memset (dst : ℕ) (c : UInt8) (n : ℕ) : PM Unit :=
  modify fun s => { s with mem := fill s.mem dst n c }

/-- `*pte` -/
def loadPte (pte : ℕ) : PM ℕ := fun s => .ok (load s.mem pte 8, s)

/-- `*pte = w` -/
def storePte (pte w : ℕ) : PM Unit := modify fun s => { s with mem := store s.mem pte 8 w }

/-- Allocate a page of physical memory; 0 if there is none. -/
def kalloc : PM ℕ := do
  let s ← get
  modify fun s => { s with denied := s.denied.tail }
  match s.freelist with
  | [] => return 0
  | r :: next =>
    if s.denied.headD false then return 0
    else do
      modify fun s => { s with freelist := next }
      memset r 5 PGSIZE
      return r

/-- Free a page of physical memory. -/
def kfree (pa : ℕ) : PM Unit := do
  let s ← get
  if pa % PGSIZE ≠ 0 ∨ pa < s.kend ∨ PHYSTOP ≤ pa then throw (.panic "kfree")
  else do
    memset pa 1 PGSIZE
    modify fun s => { s with freelist := pa :: s.freelist }

/-! ### Page tables -/

/-- The loop of `walk`, at a node of the given level. -/
def walkLoop (alloc : Bool) (va : ℕ) : ℕ → ℕ → PM (Option ℕ)
  | 0, pagetable => return some (pagetable + 8 * px 0 va)
  | level + 1, pagetable => do
    let pte ← loadPte (pagetable + 8 * px (level + 1) va)
    if pte &&& PTE_V ≠ 0 then walkLoop alloc va level (pte2pa pte)
    else if alloc = false then return none
    else do
      let child ← kalloc
      if child = 0 then return none
      else do
        memset child 0 PGSIZE
        storePte (pagetable + 8 * px (level + 1) va) (pa2pte child ||| PTE_V)
        walkLoop alloc va level child

/-- The address of the entry for the virtual address `va`; with `alloc`, nodes that are missing
are created. -/
def walk (pagetable va : ℕ) (alloc : Bool) : PM (Option ℕ) :=
  if MAXVA ≤ va then throw (.panic "walk") else walkLoop alloc va 2 pagetable

/-- The loop of `mappages`, with so many rounds left. -/
def mappagesLoop (pagetable last perm : ℕ) : ℕ → ℕ → ℕ → PM Bool
  | 0, _, _ => throw .fuel
  | rounds + 1, a, pa => do
    match ← walk pagetable a true with
    | none => return false
    | some pte => do
      if (← loadPte pte) &&& PTE_V ≠ 0 then throw (.panic "mappages: remap")
      else do
        storePte pte (pa2pte pa ||| perm ||| PTE_V)
        if a = last then return true
        else
          mappagesLoop pagetable last perm rounds ((a + PGSIZE) % 2 ^ 64) ((pa + PGSIZE) % 2 ^ 64)

/-- Create entries for the virtual addresses from `va` on that refer to the physical addresses
from `pa` on.  Does it succeed? -/
def mappages (pagetable va size pa perm : ℕ) : PM Bool :=
  if va % PGSIZE ≠ 0 then throw (.panic "mappages: va not aligned")
  else if size % PGSIZE ≠ 0 then throw (.panic "mappages: size not aligned")
  else if size = 0 then throw (.panic "mappages: size")
  else mappagesLoop pagetable ((va + size - PGSIZE) % 2 ^ 64) perm (size / PGSIZE) va pa

/-- The loop of `uvmunmap` up to the address `stop`, with so many rounds left. -/
def uvmunmapLoop (pagetable stop : ℕ) (doFree : Bool) : ℕ → ℕ → PM Unit
  | 0, a => if a < stop then throw .fuel else return ()
  | rounds + 1, a =>
    if a < stop then do
      match ← walk pagetable a false with
      | none => throw (.panic "uvmunmap: walk")
      | some pte => do
        let w ← loadPte pte
        if w &&& PTE_V = 0 then throw (.panic "uvmunmap: not mapped")
        else if pteFlags w = PTE_V then throw (.panic "uvmunmap: not a leaf")
        else do
          if doFree then kfree (pte2pa w)
          storePte pte 0
          uvmunmapLoop pagetable stop doFree rounds ((a + PGSIZE) % 2 ^ 64)
    else return ()

/-- Remove `npages` of mappings from `va` on, and free the pages if asked to. -/
def uvmunmap (pagetable va npages : ℕ) (doFree : Bool) : PM Unit :=
  if va % PGSIZE ≠ 0 then throw (.panic "uvmunmap: not aligned")
  else uvmunmapLoop pagetable ((va + npages * PGSIZE) % 2 ^ 64) doFree npages va

/-- Create an empty page table; 0 if there is no memory. -/
def uvmcreate : PM ℕ := do
  let pagetable ← kalloc
  if pagetable = 0 then return 0
  else do
    memset pagetable 0 PGSIZE
    return pagetable

/-! ### Entries as words -/

variable {s t u : Phys} {r a b c i j v w x pa perm flags : ℕ} {others : Set ℕ}

theorem or_flags (h : flags < 1024) (n : ℕ) : n * 1024 ||| flags = n * 1024 + flags := by
  have hor := Nat.two_pow_add_eq_or_of_lt (i := 10) h n
  rw [Nat.mul_comm] at hor
  exact hor.symm

theorem pa2pte_eq (pa : ℕ) : pa2pte pa = pa / PGSIZE * 1024 := by
  rw [pa2pte, Nat.shiftLeft_eq, Nat.shiftRight_eq_div_pow]

theorem pte2pa_eq (w : ℕ) : pte2pa w = w / 1024 * PGSIZE % 2 ^ 64 := by
  rw [pte2pa, Nat.shiftLeft_eq, Nat.shiftRight_eq_div_pow]

theorem pteFlags_eq (w : ℕ) : pteFlags w = w % 1024 := Nat.and_two_pow_sub_one_eq_mod w 10

/-- The number that an entry for the page at `pa` is. -/
theorem pte_eq (h : perm < 1024) : pa2pte pa ||| perm = pa / PGSIZE * 1024 + perm := by
  rw [pa2pte_eq, or_flags h]

theorem pte2pa_pte (hpa : pa % PGSIZE = 0) (hlt : pa < 2 ^ 64) (h : perm < 1024) :
    pte2pa (pa2pte pa ||| perm) = pa := by
  rw [pte_eq h, pte2pa_eq]
  simp only [PGSIZE] at *
  omega

theorem pteFlags_pte (h : perm < 1024) : pteFlags (pa2pte pa ||| perm) = perm := by
  rw [pte_eq h, pteFlags_eq]
  omega

theorem or_and_ne_zero {f : ℕ} (h : a &&& f ≠ 0) (b : ℕ) : (a ||| b) &&& f ≠ 0 := by
  rw [Nat.and_or_distrib_right]
  exact fun hor => h (Nat.or_eq_zero_iff.mp hor).1

/-- A valid entry. -/
theorem or_valid (h : w &&& PTE_V ≠ 0) : pteFlags w ||| PTE_V = pteFlags w := by
  rw [Nat.and_one_is_mod] at h
  have hodd : pteFlags w % 2 = 1 := by
    rw [pteFlags_eq]
    omega
  have hsplit := Nat.two_pow_add_eq_or_of_lt (i := 1) (b := 1) (by decide) (pteFlags w / 2)
  rw [show 2 ^ 1 * (pteFlags w / 2) + 1 = pteFlags w by omega] at hsplit
  rw [hsplit, Nat.lor_assoc, Nat.or_self]

/-- A flag of an entry. -/
theorem pteFlags_and {f : ℕ} (hf : 0x3FF &&& f = f) (w : ℕ) : pteFlags w &&& f = w &&& f := by
  rw [pteFlags, Nat.and_assoc, hf]

theorem pte_lt (hlt : pa < 2 ^ 64) (h : perm < 1024) : pa2pte pa ||| perm < 2 ^ 64 := by
  rw [pte_eq h]
  simp only [PGSIZE]
  omega

theorem valid_or (w : ℕ) : (w ||| PTE_V) &&& PTE_V ≠ 0 := by
  rw [Nat.and_one_is_mod, Nat.mod_two_eq_one_iff_testBit_zero.mpr (by simp)]
  exact one_ne_zero

/-- The pages that `freerange` hands to `kfree`: those above the kernel. -/
def Phys.IsFrame (s : Phys) (a : ℕ) : Prop :=
  a % PGSIZE = 0 ∧ s.kend ≤ a ∧ a + PGSIZE ≤ PHYSTOP

theorem Phys.IsFrame.ne_zero (h : s.IsFrame a) : a ≠ 0 := by
  have := h.2.1
  unfold Phys.kend at this
  simp only [KERNBASE] at this
  omega

theorem Phys.IsFrame.lt (h : s.IsFrame a) : a < 2 ^ 64 := by
  have := h.2.2
  simp only [PHYSTOP, KERNBASE, PGSIZE] at this
  omega

theorem Phys.isFrame_congr (hsize : t.ksize = s.ksize) (a : ℕ) : t.IsFrame a ↔ s.IsFrame a := by
  unfold Phys.IsFrame Phys.kend
  rw [hsize]

theorem Phys.IsFrame.congr (h : s.IsFrame a) (hsize : t.ksize = s.ksize) : t.IsFrame a :=
  (Phys.isFrame_congr hsize a).mpr h

/-! ### Virtual pages -/

/-- The index of the virtual page `v` in a node of the given level. -/
def index (level v : ℕ) : Fin 512 := ⟨v / 512 ^ level % 512, Nat.mod_lt _ (by decide)⟩

theorem px_eq (level va : ℕ) : px level va = index level (va / PGSIZE) := by
  have hpow : 2 ^ (12 + 9 * level) = PGSIZE * 512 ^ level := by
    rw [pow_add, pow_mul]
    rfl
  rw [px, Nat.shiftRight_eq_div_pow, hpow, ← Nat.div_div_eq_div_mul]
  exact Nat.and_two_pow_sub_one_eq_mod _ 9

/-- The indices on the way to the node that holds the entry of a virtual page, from a node of the
given level. -/
def down (v : ℕ) : ℕ → List (Fin 512)
  | 0 => []
  | level + 1 => index (level + 1) v :: down v level

/-- The indices on the way from the root. -/
def dirPath (v : ℕ) : List (Fin 512) := down v 2

/-- The number of virtual pages that a page table has entries for. -/
abbrev VPAGES : ℕ := 512 * 512 * 512

/-- **The indices determine the virtual page.** -/
theorem eq_of_index (hv : v < VPAGES) (hw : w < VPAGES) (hdir : dirPath v = dirPath w)
    (h0 : index 0 v = index 0 w) : v = w := by
  simp only [dirPath, down, List.cons.injEq, index, Fin.mk.injEq, and_true] at hdir h0
  simp only [VPAGES] at hv hw
  omega

/-! ### Nodes -/

/-- What the entry `i` of the node at `a` points to. -/
def child (mem : ℕ → UInt8) (a : ℕ) (i : Fin 512) : Option ℕ :=
  if load mem (a + 8 * i) 8 &&& PTE_V ≠ 0 then some (pte2pa (load mem (a + 8 * i) 8)) else none

/-- The node at the end of a path of indices from `a`. -/
def nodeAt (mem : ℕ → UInt8) (a : ℕ) : List (Fin 512) → Option ℕ
  | [] => some a
  | i :: p => (child mem a i).bind fun b => nodeAt mem b p

theorem nodeAt_append (mem : ℕ → UInt8) (p q : List (Fin 512)) :
    ∀ a, nodeAt mem a (p ++ q) = (nodeAt mem a p).bind fun b => nodeAt mem b q := by
  induction p with
  | nil => intro a; rfl
  | cons i p ih =>
    intro a
    show (child mem a i).bind _ = ((child mem a i).bind _).bind _
    rw [Option.bind_assoc]
    exact congrArg _ (funext fun b => ih b)

theorem nodeAt_snoc (mem : ℕ → UInt8) (a : ℕ) (p : List (Fin 512)) (i : Fin 512) :
    nodeAt mem a (p ++ [i]) = (nodeAt mem a p).bind fun b => child mem b i := by
  rw [nodeAt_append]
  simp [nodeAt]

/-- The page at `a` is a node of the page table at `r`. -/
def IsNode (mem : ℕ → UInt8) (r a : ℕ) : Prop := ∃ p, p.length ≤ 2 ∧ nodeAt mem r p = some a

theorem isNode_root (mem : ℕ → UInt8) (r : ℕ) : IsNode mem r r := ⟨[], Nat.zero_le _, rfl⟩

/-- The entry of the virtual page `v`, or 0 if there is no node for it. -/
def pteOf (mem : ℕ → UInt8) (r v : ℕ) : ℕ :=
  match nodeAt mem r (dirPath v) with
  | some a => load mem (a + 8 * index 0 v) 8
  | none => 0

theorem pteOf_of_some {mem : ℕ → UInt8} (h : nodeAt mem r (dirPath v) = some a) :
    pteOf mem r v = load mem (a + 8 * index 0 v) 8 := by
  rw [pteOf, h]

theorem pteOf_of_none {mem : ℕ → UInt8} (h : nodeAt mem r (dirPath v) = none) :
    pteOf mem r v = 0 := by
  rw [pteOf, h]

/-- An entry that refers to a node, if it is valid. -/
def IsDir (w : ℕ) : Prop := w &&& PTE_V ≠ 0 → w &&& (PTE_R ||| PTE_W ||| PTE_X) = 0

theorem isDir_zero : IsDir 0 := fun h => absurd rfl h

theorem isDir_pa2pte (pa : ℕ) : IsDir (pa2pte pa ||| PTE_V) := by
  intro _
  rw [← pteFlags_and rfl, pteFlags_pte (by decide)]
  rfl

/-- **A page table, and to whom the pages of memory belong**: to the list of free pages, to the
page table at `r`, or to others. -/
structure Table (s : Phys) (r : ℕ) (others : Set ℕ) : Prop where
  all : ∀ a, s.IsFrame a ↔ a ∈ s.freelist ∨ IsNode s.mem r a ∨ a ∈ others
  nodup : s.freelist.Nodup
  free : ∀ a ∈ s.freelist, ¬IsNode s.mem r a ∧ a ∉ others
  apart : ∀ a, IsNode s.mem r a → a ∉ others
  inj : ∀ p q a, p.length ≤ 2 → q.length ≤ 2 → nodeAt s.mem r p = some a →
    nodeAt s.mem r q = some a → p = q
  dir : ∀ p a (i : Fin 512), p.length ≤ 1 → nodeAt s.mem r p = some a →
    IsDir (load s.mem (a + 8 * i) 8)

namespace Table

theorem frame_node (h : Table s r others) (hnode : IsNode s.mem r a) : s.IsFrame a :=
  (h.all a).mpr (Or.inr (Or.inl hnode))

theorem aligned (h : Table s r others) : r % PGSIZE = 0 := (h.frame_node (isNode_root _ r)).1

theorem frame_free (h : Table s r others) (hfree : a ∈ s.freelist) : s.IsFrame a :=
  (h.all a).mpr (Or.inl hfree)

theorem frame_other (h : Table s r others) (hother : a ∈ others) : s.IsFrame a :=
  (h.all a).mpr (Or.inr (Or.inr hother))

end Table

/-! ### Changes of memory -/

/-- The page of an address. -/
theorem pgrounddown_eq (ha : a % PGSIZE = 0) (h : a ≤ x ∧ x < a + PGSIZE) : pgrounddown x = a := by
  unfold pgrounddown
  simp only [PGSIZE] at *
  omega

theorem apart_entries (ha : a % PGSIZE = 0) (hb : b % PGSIZE = 0) (hne : a ≠ b) (i j : Fin 512) :
    Apart (a + 8 * i) 8 (b + 8 * j) 8 := by
  unfold Apart
  simp only [PGSIZE] at *
  omega

theorem apart_entry_page (ha : a % PGSIZE = 0) (hb : b % PGSIZE = 0) (hne : a ≠ b) (i : Fin 512) :
    Apart (a + 8 * i) 8 b PGSIZE := by
  unfold Apart
  simp only [PGSIZE] at *
  omega

theorem child_congr {mem mem' : ℕ → UInt8} {i : Fin 512}
    (h : load mem' (a + 8 * i) 8 = load mem (a + 8 * i) 8) : child mem' a i = child mem a i := by
  unfold child
  rw [h]

/-- The nodes stay where they are when the entries of the upper levels do. -/
theorem nodeAt_congr {mem mem' : ℕ → UInt8}
    (h : ∀ p a, p.length ≤ 1 → nodeAt mem r p = some a → ∀ i : Fin 512,
      load mem' (a + 8 * i) 8 = load mem (a + 8 * i) 8) :
    ∀ p : List (Fin 512), p.length ≤ 2 → nodeAt mem' r p = nodeAt mem r p := by
  intro p
  induction p using List.reverseRecOn with
  | nil => intro _; rfl
  | append_singleton p i ih =>
    intro hlen
    rw [List.length_append, List.length_singleton] at hlen
    rw [nodeAt_snoc, nodeAt_snoc, ih (by omega)]
    cases hp : nodeAt mem r p with
    | none => rfl
    | some a => exact child_congr (h p a (by omega) hp i)

theorem pte2pa_aligned (w : ℕ) : pte2pa w % PGSIZE = 0 := by
  rw [pte2pa_eq]
  simp only [PGSIZE]
  omega

/-- Nodes are whole pages. -/
theorem nodeAt_aligned {mem : ℕ → UInt8} {p : List (Fin 512)} (hr : r % PGSIZE = 0)
    (ha : nodeAt mem r p = some a) : a % PGSIZE = 0 := by
  induction p using List.reverseRecOn with
  | nil => rwa [← Option.some.inj ha]
  | append_singleton p i =>
    rw [nodeAt_snoc, Option.bind_eq_some_iff] at ha
    obtain ⟨b, -, hchild⟩ := ha
    unfold child at hchild
    split at hchild
    · rw [← Option.some.inj hchild]
      exact pte2pa_aligned _
    · cases hchild

/-- **The nodes and entries of a page table depend on the pages of its nodes.** -/
theorem entries_congr {mem mem' : ℕ → UInt8} (hr : r % PGSIZE = 0)
    (h : ∀ x, IsNode mem r (pgrounddown x) → mem' x = mem x) :
    (∀ p : List (Fin 512), p.length ≤ 2 → nodeAt mem' r p = nodeAt mem r p) ∧
      (∀ v, pteOf mem' r v = pteOf mem r v) ∧
      ∀ p a, p.length ≤ 2 → nodeAt mem r p = some a → ∀ i : Fin 512,
        load mem' (a + 8 * i) 8 = load mem (a + 8 * i) 8 := by
  have hload : ∀ p a, p.length ≤ 2 → nodeAt mem r p = some a → ∀ i : Fin 512,
      load mem' (a + 8 * i) 8 = load mem (a + 8 * i) 8 := by
    intro p a hp ha i
    refine load_congr fun k hk => h _ ?_
    rw [pgrounddown_eq (nodeAt_aligned hr ha) (by simp only [PGSIZE]; omega)]
    exact ⟨p, hp, ha⟩
  have hnode := nodeAt_congr fun p a (hp : p.length ≤ 1) ha => hload p a (by omega) ha
  refine ⟨hnode, fun v => ?_, hload⟩
  cases hv : nodeAt mem r (dirPath v) with
  | none => rw [pteOf_of_none hv, pteOf_of_none ((hnode _ le_rfl).trans hv)]
  | some a =>
    rw [pteOf_of_some hv, pteOf_of_some ((hnode _ le_rfl).trans hv)]
    exact hload _ a le_rfl hv _

/-- A new node below the entry `i` of the node at `a`. -/
theorem nodeAt_hang {mem mem' : ℕ → UInt8} {p : List (Fin 512)} {i : Fin 512}
    (ha : nodeAt mem r p = some a) (hnone : child mem a i = none)
    (hnew : child mem' a i = some c) (hempty : ∀ j, child mem' c j = none)
    (hsame : ∀ q b (j : Fin 512), q.length ≤ 2 → nodeAt mem r q = some b → q ++ [j] ≠ p ++ [i] →
      load mem' (b + 8 * j) 8 = load mem (b + 8 * j) 8) :
    ∀ q : List (Fin 512), q.length ≤ 2 →
      nodeAt mem' r q = if q = p ++ [i] then some c else nodeAt mem r q := by
  intro q
  induction q using List.reverseRecOn with
  | nil =>
    intro _
    rw [if_neg fun h => by simp at h]
    rfl
  | append_singleton q j ih =>
    intro hlen
    rw [List.length_append, List.length_singleton] at hlen
    rw [nodeAt_snoc, ih (by omega)]
    by_cases hq : q = p ++ [i]
    · -- below the new node there is nothing yet, and below its place there was nothing
      have hne : q ++ [j] ≠ p ++ [i] := fun h => by
        have := congrArg List.length h
        rw [hq] at this
        simp at this
      rw [if_pos hq, if_neg hne, hq, Option.bind_some, hempty, nodeAt_snoc, nodeAt_snoc, ha,
        Option.bind_some, hnone, Option.bind_none]
    · rw [if_neg hq]
      by_cases hqj : q ++ [j] = p ++ [i]
      · obtain ⟨rfl, hj⟩ := List.append_inj' hqj rfl
        obtain rfl : j = i := by simpa using hj
        rw [if_pos rfl, ha, Option.bind_some, hnew]
      · rw [if_neg hqj, nodeAt_snoc]
        cases hb : nodeAt mem r q with
        | none => rfl
        | some b => exact child_congr (hsame q b j (by omega) hb hqj)

/-! ### What an operation on a page table does -/

/-- What every operation on the page table at `r` does: the pages `others` become `others'`, and
those that stay are not touched.  A node stays where it is. -/
structure Acts (r : ℕ) (others others' : Set ℕ) (s t : Phys) : Prop where
  table : Table t r others'
  ksize : t.ksize = s.ksize
  node : ∀ p a, p.length ≤ 2 → nodeAt s.mem r p = some a → nodeAt t.mem r p = some a
  mem : ∀ x, pgrounddown x ∈ others → pgrounddown x ∈ others' → t.mem x = s.mem x

/-- An operation that changes no entry of a virtual page. -/
structure Steady (r : ℕ) (others others' : Set ℕ) (s t : Phys) : Prop
    extends Acts r others others' s t where
  pte : ∀ v, pteOf t.mem r v = pteOf s.mem r v

theorem Acts.refl (h : Table s r others) : Acts r others others s s :=
  ⟨h, rfl, fun _ _ _ h => h, fun _ _ _ => rfl⟩

/-- One operation after another.  A page must not be given away in between. -/
theorem Acts.trans {others' others'' : Set ℕ} (h : Acts r others others' s t)
    (h' : Acts r others' others'' t u) (hsub : ∀ a ∈ others, a ∈ others'' → a ∈ others') :
    Acts r others others'' s u where
  table := h'.table
  ksize := h'.ksize.trans h.ksize
  node p a hp hnode := h'.node p a hp (h.node p a hp hnode)
  mem x hx hx'' :=
    have hx' := hsub _ hx hx''
    (h'.mem x hx' hx'').trans (h.mem x hx hx')

theorem Steady.refl (h : Table s r others) : Steady r others others s s :=
  ⟨Acts.refl h, fun _ => rfl⟩

theorem Steady.trans {others' others'' : Set ℕ} (h : Steady r others others' s t)
    (h' : Steady r others' others'' t u) (hsub : ∀ a ∈ others, a ∈ others'' → a ∈ others') :
    Steady r others others'' s u :=
  ⟨h.toActs.trans h'.toActs hsub, fun v => (h'.pte v).trans (h.pte v)⟩

/-- The pages in `kept` have not been touched. -/
structure Kept (kept : Set ℕ) (s t : Phys) : Prop where
  ksize : t.ksize = s.ksize
  mem : ∀ x, pgrounddown x ∈ kept → t.mem x = s.mem x

theorem Kept.refl (kept : Set ℕ) (s : Phys) : Kept kept s s := ⟨rfl, fun _ _ => rfl⟩

theorem Kept.trans {kept : Set ℕ} (h : Kept kept s t) (h' : Kept kept t u) : Kept kept s u :=
  ⟨h'.ksize.trans h.ksize, fun x hx => (h'.mem x hx).trans (h.mem x hx)⟩

theorem Kept.mono {kept kept' : Set ℕ} (h : Kept kept s t) (hsub : kept' ⊆ kept) : Kept kept' s t :=
  ⟨h.ksize, fun x hx => h.mem x (hsub hx)⟩

theorem Acts.kept {others others' kept : Set ℕ} (h : Acts r others others' s t)
    (hsub : kept ⊆ others) (hsub' : kept ⊆ others') : Kept kept s t :=
  ⟨h.ksize, fun x hx => h.mem x (hsub hx) (hsub' hx)⟩

/-- **A free page becomes a node.** -/
theorem Table.hang (h : Table s r others) {p : List (Fin 512)} {i : Fin 512} {fl : List ℕ}
    (hp : p.length ≤ 1) (ha : nodeAt s.mem r p = some a) (hnone : child s.mem a i = none)
    (hfree : s.freelist = c :: fl) (hsize : t.ksize = s.ksize) (hlist : t.freelist = fl)
    (hslot : load t.mem (a + 8 * i) 8 = pa2pte c ||| PTE_V)
    (hzero : ∀ x, c ≤ x ∧ x < c + PGSIZE → t.mem x = 0)
    (hmem : ∀ x, ¬(c ≤ x ∧ x < c + PGSIZE) → ¬(a + 8 * i ≤ x ∧ x < a + 8 * i + 8) →
      t.mem x = s.mem x) :
    Steady r others others s t ∧ nodeAt t.mem r (p ++ [i]) = some c := by
  have hc : c ∈ s.freelist := by rw [hfree]; exact List.mem_cons_self
  have hframe := h.frame_free hc
  have hcnode : ¬IsNode s.mem r c := (h.free c hc).1
  have hanode : IsNode s.mem r a := ⟨p, by omega, ha⟩
  have haframe := h.frame_node hanode
  have hnew : child t.mem a i = some c := by
    unfold child
    rw [hslot, if_pos (valid_or _), pte2pa_pte hframe.1 hframe.lt (by decide)]
  have hword : ∀ j : Fin 512, load t.mem (c + 8 * j) 8 = 0 := fun j => by
    refine load_zero fun k hk => hzero _ ?_
    simp only [PGSIZE]
    omega
  have hempty : ∀ j, child t.mem c j = none := fun j => by
    unfold child
    rw [hword, if_neg (by simp)]
  -- no other entry is touched
  have hsame : ∀ q b (j : Fin 512), q.length ≤ 2 → nodeAt s.mem r q = some b →
      q ++ [j] ≠ p ++ [i] → load t.mem (b + 8 * j) 8 = load s.mem (b + 8 * j) 8 := by
    intro q b j hq hb hne
    have hbnode : IsNode s.mem r b := ⟨q, hq, hb⟩
    have hbframe := h.frame_node hbnode
    have hbc : b ≠ c := fun hbc => hcnode (hbc ▸ hbnode)
    have hpage := apart_entry_page hbframe.1 hframe.1 hbc j
    have hentry : Apart (b + 8 * j) 8 (a + 8 * i) 8 := by
      by_cases hba : b = a
      · subst hba
        have hij : j ≠ i := fun hij => hne (by rw [hij, h.inj q p b hq (by omega) hb ha])
        have hij' : (j : ℕ) ≠ i := fun hij' => hij (Fin.ext hij')
        unfold Apart
        omega
      · exact apart_entries hbframe.1 haframe.1 hba j i
    unfold Apart at hpage hentry
    exact load_congr fun k hk => hmem _ (by omega) (by omega)
  have hnode := nodeAt_hang ha hnone hnew hempty hsame
  have hpi : (p ++ [i]).length ≤ 2 := by
    rw [List.length_append, List.length_singleton]
    omega
  have hold : ∀ q b, q.length ≤ 2 → nodeAt s.mem r q = some b → nodeAt t.mem r q = some b := by
    intro q b hq hb
    rw [hnode q hq, if_neg, hb]
    intro hqp
    rw [hqp, nodeAt_snoc, ha, Option.bind_some, hnone] at hb
    cases hb
  have hisNode : ∀ b, IsNode t.mem r b ↔ IsNode s.mem r b ∨ b = c := by
    intro b
    constructor
    · intro hb
      obtain ⟨q, hq, hb⟩ := hb
      rw [hnode q hq] at hb
      split at hb
      · cases hb
        exact Or.inr rfl
      · exact Or.inl ⟨q, hq, hb⟩
    · intro hb
      rcases hb with ⟨q, hq, hb⟩ | rfl
      · exact ⟨q, hq, hold q b hq hb⟩
      · exact ⟨p ++ [i], hpi, by rw [hnode _ hpi, if_pos rfl]⟩
  have hnodup : c ∉ fl ∧ fl.Nodup := List.nodup_cons.mp (hfree ▸ h.nodup)
  refine ⟨⟨⟨⟨fun b => ?_, ?_, fun b hb => ?_, fun b hb => ?_, fun q q' b hq hq' hb hb' => ?_,
    fun q b j hq hb => ?_⟩, hsize, hold, fun x hx _ => ?_⟩, fun v => ?_⟩, ?_⟩
  · rw [Phys.isFrame_congr hsize, h.all b, hfree, hlist, hisNode, List.mem_cons]
    tauto
  · rw [hlist]
    exact hnodup.2
  · rw [hlist] at hb
    have hb' := h.free b (by rw [hfree]; exact List.mem_cons_of_mem c hb)
    rw [hisNode]
    exact ⟨fun hn => hn.elim hb'.1 fun hbc => hnodup.1 (hbc ▸ hb), hb'.2⟩
  · rcases (hisNode b).mp hb with hb | rfl
    · exact h.apart b hb
    · exact (h.free b hc).2
  · rw [hnode q hq] at hb
    rw [hnode q' hq'] at hb'
    split at hb <;> split at hb'
    · next hq hq' => rw [hq, hq']
    · cases hb
      exact absurd ⟨q', hq', hb'⟩ hcnode
    · cases hb'
      exact absurd ⟨q, hq, hb⟩ hcnode
    · exact h.inj q q' b hq hq' hb hb'
  · rw [hnode q (by omega)] at hb
    split at hb
    · cases hb
      rw [hword]
      exact isDir_zero
    · by_cases hne : q ++ [j] = p ++ [i]
      · obtain ⟨rfl, hj⟩ := List.append_inj' hne rfl
        obtain rfl : j = i := by simpa using hj
        obtain rfl := Option.some.inj (ha.symm.trans hb)
        rw [hslot]
        exact isDir_pa2pte c
      · rw [hsame q b j (by omega) hb hne]
        exact h.dir q b j hq hb
  · -- neither the new node nor the one that it hangs from belongs to others
    refine hmem x (fun hpage => ?_) fun hentry => ?_
    · exact (h.free c hc).2 (pgrounddown_eq hframe.1 hpage ▸ hx)
    · have hpage : a ≤ x ∧ x < a + PGSIZE := by simp only [PGSIZE]; omega
      exact h.apart a hanode (pgrounddown_eq haframe.1 hpage ▸ hx)
  · -- an entry of the new node is 0, and so counted before
    have hdir := hnode (dirPath v) le_rfl
    by_cases hv : dirPath v = p ++ [i]
    · rw [if_pos hv] at hdir
      rw [pteOf_of_some hdir, hword, pteOf_of_none]
      rw [hv, nodeAt_snoc, ha, Option.bind_some, hnone]
    · rw [if_neg hv] at hdir
      cases hs : nodeAt s.mem r (dirPath v) with
      | none => rw [pteOf_of_none hs, pteOf_of_none (hdir.trans hs)]
      | some b =>
        rw [pteOf_of_some hs, pteOf_of_some (hdir.trans hs)]
        refine hsame (dirPath v) b _ le_rfl hs fun heq => ?_
        have hlen := congrArg List.length heq
        rw [List.length_append, List.length_append] at hlen
        have hdirlen : (dirPath v).length = 2 := rfl
        simp only [List.length_singleton] at hlen
        omega
  · rw [hnode _ hpi, if_pos rfl]

/-! ### The allocator and the walk -/

/-- What `kalloc` does: it takes the first free page, or it takes none. -/
theorem kalloc_returns (s : Phys) : Returns kalloc s fun o t =>
    o = 0 ∧ t = { s with denied := s.denied.tail } ∨
      ∃ fl, s.freelist = o :: fl ∧
        t = { s with denied := s.denied.tail, freelist := fl, mem := fill s.mem o PGSIZE 5 } := by
  unfold kalloc
  refine Yields.of_eq (bind_of_ok (get_apply s)) (Yields.of_eq (bind_of_ok (modify_apply _ s)) ?_)
  cases hfree : s.freelist with
  | nil => exact Yields.of_ok rfl (Or.inl ⟨rfl, rfl⟩)
  | cons c fl =>
    dsimp only
    split
    · exact Yields.of_ok rfl (Or.inl ⟨rfl, rfl⟩)
    · exact Yields.of_ok rfl (Or.inr ⟨fl, rfl, rfl⟩)

theorem Table.congr (h : Table s r others) (hsize : t.ksize = s.ksize) (hmem : t.mem = s.mem)
    (hlist : t.freelist = s.freelist) : Table t r others := by
  obtain ⟨ksize, mem, freelist, denied⟩ := t
  cases hsize
  cases hmem
  cases hlist
  exact ⟨h.all, h.nodup, h.free, h.apart, h.inj, h.dir⟩

theorem Steady.of_denied (h : Table s r others) (denied : List Bool) :
    Steady r others others s { s with denied := denied } :=
  ⟨⟨h.congr rfl rfl rfl, rfl, fun _ _ _ h => h, fun _ _ _ => rfl⟩, fun _ => rfl⟩

/-- What `walk` does about a missing node. -/
theorem Table.hang_zeroed (h : Table s r others) {p : List (Fin 512)} {i : Fin 512} {fl : List ℕ}
    (hp : p.length ≤ 1) (ha : nodeAt s.mem r p = some a) (hnone : child s.mem a i = none)
    (hfree : s.freelist = c :: fl) {t : Phys}
    (ht : t = { s with
      denied := s.denied.tail, freelist := fl
      mem := store (fill (fill s.mem c PGSIZE 5) c PGSIZE 0) (a + 8 * i) 8 (pa2pte c ||| PTE_V) }) :
    Steady r others others s t ∧ nodeAt t.mem r (p ++ [i]) = some c := by
  have hc : c ∈ s.freelist := by rw [hfree]; exact List.mem_cons_self
  have hframe := h.frame_free hc
  have hanode : IsNode s.mem r a := ⟨p, by omega, ha⟩
  have hne : a ≠ c := fun hac => (h.free c hc).1 (hac ▸ hanode)
  have hapart := apart_entry_page (h.frame_node hanode).1 hframe.1 hne i
  unfold Apart at hapart
  subst ht
  refine h.hang hp ha hnone hfree rfl rfl ?_ (fun x hx => ?_) fun x hpage hentry => ?_
  · exact (load_store le_rfl).trans (Nat.mod_eq_of_lt (pte_lt hframe.lt (by decide)))
  · exact (store_of_not_mem (by omega)).trans (fill_of_mem hx)
  · exact (store_of_not_mem hentry).trans
      ((fill_of_not_mem hpage).trans (fill_of_not_mem hpage))

/-- The entry of the virtual page `v` is at `slot`. -/
def IsSlot (mem : ℕ → UInt8) (r v slot : ℕ) : Prop :=
  ∃ b, nodeAt mem r (dirPath v) = some b ∧ slot = b + 8 * index 0 v

/-- What a walk to the entry of `va` does. -/
structure Walked (alloc : Bool) (r : ℕ) (others : Set ℕ) (va : ℕ) (s : Phys) (o : Option ℕ)
    (t : Phys) : Prop where
  steady : Steady r others others s t
  slot : ∀ slot, o = some slot → IsSlot t.mem r (va / PGSIZE) slot
  none : o = none → alloc = false → nodeAt t.mem r (dirPath (va / PGSIZE)) = none
  same : alloc = false → t = s

/-- A walk that creates no nodes. -/
theorem walkLoop_false (va : ℕ) : ∀ (level a : ℕ) (s : Phys), walkLoop false va level a s =
    .ok ((nodeAt s.mem a (down (va / PGSIZE) level)).map (· + 8 * index 0 (va / PGSIZE)), s) := by
  intro level
  induction level with
  | zero =>
    intro a s
    rw [walkLoop, px_eq]
    rfl
  | succ level ih =>
    intro a s
    rw [walkLoop, px_eq, down, nodeAt, child]
    refine (bind_of_ok rfl).trans ?_
    split
    · exact ih _ s
    · rfl

theorem walk_false {va : ℕ} (hva : va < MAXVA) (s : Phys) : walk r va false s =
    .ok ((nodeAt s.mem r (dirPath (va / PGSIZE))).map (· + 8 * index 0 (va / PGSIZE)), s) := by
  unfold walk
  rw [if_neg (Nat.not_le.mpr hva)]
  exact walkLoop_false va 2 r s

theorem walkLoop_returns {alloc : Bool} {va : ℕ} : ∀ (level : ℕ) (p : List (Fin 512)) (a : ℕ)
    (s : Phys), Table s r others → p.length + level = 2 → nodeAt s.mem r p = some a →
      p ++ down (va / PGSIZE) level = dirPath (va / PGSIZE) →
        Returns (walkLoop alloc va level a) s (Walked alloc r others va s) := by
  intro level
  induction level with
  | zero =>
    intro p a s h hlen ha hpath
    rw [down, List.append_nil] at hpath
    refine Yields.of_ok rfl
      ⟨Steady.refl h, fun slot hslot => ?_, fun ho => (nomatch ho), fun _ => rfl⟩
    cases hslot
    exact ⟨a, hpath ▸ ha, by rw [px_eq]⟩
  | succ level ih =>
    intro p a s h hlen ha hpath
    generalize hi : index (level + 1) (va / PGSIZE) = i
    rw [down, List.append_cons, hi] at hpath
    have hlen' : (p ++ [i]).length + level = 2 := by
      rw [List.length_append, List.length_singleton]
      omega
    rw [walkLoop, px_eq, hi]
    refine Yields.of_eq (bind_of_ok rfl) ?_
    by_cases hvalid : load s.mem (a + 8 * i) 8 &&& PTE_V ≠ 0
    · rw [if_pos hvalid]
      refine ih (p ++ [i]) _ s h hlen' ?_ hpath
      rw [nodeAt_snoc, ha, Option.bind_some, child, if_pos hvalid]
    · rw [if_neg hvalid]
      have hnone : child s.mem a i = none := if_neg hvalid
      cases alloc with
      | false =>
        rw [if_pos rfl]
        refine Yields.of_ok rfl ⟨Steady.refl h, fun slot hslot => (nomatch hslot), fun _ _ => ?_,
          fun _ => rfl⟩
        rw [← hpath, nodeAt_append, nodeAt_snoc, ha, Option.bind_some, hnone, Option.bind_none]
      | true =>
        rw [if_neg (by decide)]
        refine (kalloc_returns s).bind fun o t ht => ?_
        rcases ht with ⟨rfl, rfl⟩ | ⟨fl, hfree, rfl⟩
        · rw [if_pos rfl]
          exact Yields.of_ok rfl ⟨Steady.of_denied h _, fun slot hslot => (nomatch hslot),
            fun _ hfalse => (nomatch hfalse), fun hfalse => (nomatch hfalse)⟩
        · have hframe : s.IsFrame o := h.frame_free (by rw [hfree]; exact List.mem_cons_self)
          rw [if_neg hframe.ne_zero]
          refine Yields.of_eq ((bind_of_ok rfl).trans (bind_of_ok rfl)) ?_
          have hsteady := h.hang_zeroed (by omega) ha hnone hfree rfl
          refine (ih (p ++ [i]) o _ hsteady.1.table hlen' hsteady.2 hpath).mono fun o' u hu => ?_
          exact ⟨hsteady.1.trans hu.steady fun _ ha _ => ha, hu.slot,
            fun _ hfalse => (nomatch hfalse), fun hfalse => (nomatch hfalse)⟩

/-- **A walk finds the entry**, and changes no entry on its way. -/
theorem walk_returns {alloc : Bool} {va : ℕ} (h : Table s r others) (hva : va < MAXVA) :
    Returns (walk r va alloc) s (Walked alloc r others va s) := by
  unfold walk
  rw [if_neg (Nat.not_le.mpr hva)]
  exact walkLoop_returns 2 [] r s h rfl rfl rfl

end Xv6Ext2.Vm
