import Xv6Ext2.Vm.AddressSpace

/-!
# The user stack of a new program

The part of `exec` in `kernel/exec.c` that allocates the stack and puts the arguments on it, with
`uvmclear` of `kernel/vm.c`.

Each string is put below the one before, at the next address that is a multiple of 16, and the
array of pointers below all of them.  The top of the stack is a multiple of 16, so a string takes
its size rounded up, whatever came before it, and the room that all arguments take is a sum.

## Main definitions

* `uvmclear`, `allocStack`, `pushStrings`, `pushArgs` — the source functions.
* `stackNeed argv` — the room that the arguments take.
* `strAt` — where a string is put.
* `LaidOut` — **the layout of the arguments.**

## Main results

* `uvmclear_returns`, `allocStack_returns` — the pages of the stack and the guard page.
* `pushArgs_returns` — what becomes of the arguments.
* `arguments_laidOut` — **the arguments are laid out, or they do not fit.**
-/

namespace Xv6Ext2.Vm

open Bytes Prog

abbrev MAXARG : ℕ := 32
abbrev USERSTACK : ℕ := 1

/-! ### The source functions -/

/-- Mark an entry invalid for user access. -/
def uvmclear (pagetable va : ℕ) : PM Unit := do
  match ← walk pagetable va false with
  | none => throw (.panic "uvmclear")
  | some pte => do
    let w ← loadPte pte
    storePte pte (w &&& (2 ^ 64 - 1 - PTE_U))

/-- A difference of two `uint64`. -/
def sub64 (a b : ℕ) : ℕ := (a + 2 ^ 64 - b) % 2 ^ 64

/-- Allocate the pages of the stack at the next page boundary, and make the first inaccessible:
does that succeed, and the size of the process. -/
def allocStack (pagetable sz : ℕ) : PM (Bool × ℕ) := do
  let sz1 ← uvmalloc pagetable (pgroundup sz) ((pgroundup sz + (USERSTACK + 1) * PGSIZE) % 2 ^ 64)
    PTE_W
  if sz1 = 0 then return (false, pgroundup sz)
  else do
    uvmclear pagetable (sub64 sz1 ((USERSTACK + 1) * PGSIZE))
    return (true, sz1)

/-- `sp -= n; sp -= sp % 16;` -/
def lower (sp n : ℕ) : ℕ := sub64 sp n - sub64 sp n % 16

/-- Push the argument strings: the stack pointer and `ustack`, or failure. -/
def pushStrings (pagetable stackbase : ℕ) :
    List (List UInt8) → ℕ → List ℕ → PM (Option (ℕ × List ℕ))
  | [], sp, ustack => return some (sp, ustack)
  | arg :: argv, sp, ustack =>
    if MAXARG ≤ ustack.length then return none
    else if lower sp (arg.length + 1) < stackbase then return none
    else do
      if ← copyout pagetable (lower sp (arg.length + 1)) (arg ++ [0]) then
        pushStrings pagetable stackbase argv (lower sp (arg.length + 1))
          (ustack ++ [lower sp (arg.length + 1)])
      else return none

/-- Push the arguments and the array of pointers to them on the stack below `sz`: their number and
the stack pointer, or failure.  A string is given by its bytes before the NUL. -/
def pushArgs (pagetable sz : ℕ) (argv : List (List UInt8)) : PM (Option (ℕ × ℕ)) := do
  let stackbase := sub64 sz (USERSTACK * PGSIZE)
  match ← pushStrings pagetable stackbase argv sz [] with
  | none => return none
  | some (sp, ustack) =>
    let argc := ustack.length
    -- `ustack[argc] = 0`
    if MAXARG ≤ argc then throw .fault
    else if lower sp ((argc + 1) * 8) < stackbase then return none
    else do
      if ← copyout pagetable (lower sp ((argc + 1) * 8)) (leWords (ustack ++ [0])) then
        return some (argc, lower sp ((argc + 1) * 8))
      else return none

variable {s t u : Phys} {r n v w sz va len : ℕ} {top : ℕ → ℕ} {rest : Set ℕ}

/-! ### The guard page -/

theorem pte2pa_clear (h : w < 2 ^ 64) : pte2pa (w &&& (2 ^ 64 - 1 - PTE_U)) = pte2pa w := by
  have hshift : (w &&& (2 ^ 64 - 1 - PTE_U)) >>> 10 = w >>> 10 := by
    rw [Nat.shiftRight_and_distrib, show (2 ^ 64 - 1 - PTE_U) >>> 10 = 2 ^ 54 - 1 from rfl,
      Nat.and_two_pow_sub_one_eq_mod, Nat.shiftRight_eq_div_pow, Nat.mod_eq_of_lt]
    omega
  rw [pte2pa, pte2pa, hshift]

theorem and_clear {flag : ℕ} (hflag : (2 ^ 64 - 1 - PTE_U) &&& flag = flag) (w : ℕ) :
    w &&& (2 ^ 64 - 1 - PTE_U) &&& flag = w &&& flag := by
  rw [Nat.and_assoc, hflag]

/-- The page `v` of an address space is made inaccessible. -/
structure Cleared (r n v : ℕ) (top : ℕ → ℕ) (rest : Set ℕ) (s t : Phys) : Prop where
  space : Space t r n top rest
  pte : ∀ w < VPAGES, w ≠ v → pteOf t.mem r w = pteOf s.mem r w
  user : pteOf t.mem r v &&& PTE_U = 0
  frame : ∀ w < n, frameOf t.mem r w = frameOf s.mem r w
  kept : Kept (owned s.mem r n ∪ rest) s t

/-- The bit of an entry that lets the user in is cleared. -/
theorem Space.clearUser (h : Space s r n top rest) (hv : v < n)
    (hacts : Acts r (owned s.mem r n ∪ rest) (owned s.mem r n ∪ rest) s t)
    (hpte : ∀ w < VPAGES, pteOf t.mem r w =
      if w = v then pteOf s.mem r v &&& (2 ^ 64 - 1 - PTE_U) else pteOf s.mem r w) :
    Cleared r n v top rest s t := by
  have hn := h.vpages
  have hsame : ∀ w < VPAGES, w ≠ v → pteOf t.mem r w = pteOf s.mem r w := fun w hw hne => by
    rw [hpte w hw, if_neg hne]
  have hentry : pteOf t.mem r v = pteOf s.mem r v &&& (2 ^ 64 - 1 - PTE_U) := by
    rw [hpte v (by omega), if_pos rfl]
  have hframe : ∀ w < n, frameOf t.mem r w = frameOf s.mem r w := fun w hw => by
    by_cases hwv : w = v
    · rw [hwv, frameOf, hentry, pte2pa_clear (pteOf_lt s.mem r v)]
    · rw [frameOf, hsame w (by omega) hwv]
  -- the other bits of the entry stay
  have hbits : ∀ flag, (2 ^ 64 - 1 - PTE_U) &&& flag = flag → ∀ w < n,
      pteOf t.mem r w &&& flag = pteOf s.mem r w &&& flag := fun flag hflag w hw => by
    by_cases hwv : w = v
    · rw [hwv, hentry, and_clear hflag]
    · rw [hsame w (by omega) hwv]
  refine ⟨h.update hacts hframe (fun w hw => ?_) (fun w hw => ?_) (fun w hw hlt => ?_) h.low
    h.kernel, hsame, ?_, hframe, hacts.kept subset_rfl subset_rfl⟩
  · rw [hbits PTE_V (by decide) w hw]
    exact h.valid w hw
  · rw [hbits PTE_R (by decide) w hw]
    exact h.read w hw
  · rw [hsame w hlt (by omega)]
    exact h.above w hw hlt
  · rw [hentry, Nat.and_assoc]
    exact Nat.and_zero _

/-- **What `uvmclear` does.** -/
theorem uvmclear_returns (h : Space s r n top rest) (hv : v < n) :
    Returns (uvmclear r (v * PGSIZE)) s fun _ t => Cleared r n v top rest s t := by
  have hva : v * PGSIZE < MAXVA := by
    refine lt_of_lt_of_le ?_ h.below
    simp only [PGSIZE]
    omega
  have hvalid := h.valid v hv
  unfold uvmclear
  refine Yields.of_eq (bind_of_ok (walk_false hva s)) ?_
  rw [Nat.mul_div_cancel v (by decide)]
  cases hnode : nodeAt s.mem r (dirPath v) with
  | none =>
    rw [pteOf_of_none hnode] at hvalid
    exact absurd rfl hvalid
  | some b =>
    refine Yields.of_eq (bind_of_ok rfl) ?_
    rw [← pteOf_of_some hnode]
    have hword : (pteOf s.mem r v &&& (2 ^ 64 - 1 - PTE_U)) % 2 ^ 64 =
        pteOf s.mem r v &&& (2 ^ 64 - 1 - PTE_U) :=
      Nat.mod_eq_of_lt (lt_of_le_of_lt Nat.and_le_left (pteOf_lt s.mem r v))
    obtain ⟨hacts, hpte⟩ := h.table.set (hv.trans h.vpages) ⟨b, hnode, rfl⟩
      (pteOf s.mem r v &&& (2 ^ 64 - 1 - PTE_U)) rfl
    rw [hword] at hpte
    exact Yields.of_ok rfl (h.clearUser hv hacts hpte)

/-- The stack has been allocated above the first `n` pages. -/
structure Stacked (r n : ℕ) (top : ℕ → ℕ) (rest : Set ℕ) (s t : Phys) : Prop where
  space : Space t r (n + (USERSTACK + 1)) top rest
  old : ∀ v < n, pteOf t.mem r v = pteOf s.mem r v
  guard : pteOf t.mem r n &&& PTE_U = 0
  stack : ∀ v, n < v → v < n + (USERSTACK + 1) →
    pteFlags (pteOf t.mem r v) = PTE_R ||| PTE_U ||| PTE_W ||| PTE_V
  kept : Kept (owned s.mem r n ∪ rest) s t

theorem allocStack_returns (h : Space s r (pages sz) top rest) :
    Returns (allocStack r sz) s fun o t =>
      o = (false, pages sz * PGSIZE) ∧ Resized r (pages sz) top rest s t ∨
        o = (true, (pages sz + (USERSTACK + 1)) * PGSIZE) ∧
          Stacked r (pages sz) top rest s t := by
  have hle := h.le
  have hnew : (pages sz * PGSIZE + (USERSTACK + 1) * PGSIZE) % 2 ^ 64 =
      (pages sz + (USERSTACK + 1)) * PGSIZE := by
    simp only [PHYSTOP, KERNBASE, PGSIZE, USERSTACK] at *
    omega
  have hmax : max (pages sz * PGSIZE) ((pages sz + (USERSTACK + 1)) * PGSIZE) =
      (pages sz + (USERSTACK + 1)) * PGSIZE := Nat.max_eq_right (Nat.mul_le_mul_right _ (by omega))
  have hspace : Space s r (pages (pages sz * PGSIZE)) top rest := by rwa [pages_mul]
  unfold allocStack
  rw [pgroundup_eq hle, hnew]
  refine (uvmalloc_returns (by decide) hspace _).bind fun o t ht => ?_
  rw [pages_mul, hmax, pages_mul] at ht
  rcases ht with ⟨rfl, hsame⟩ | ⟨rfl, hlarge⟩
  · rw [if_pos rfl]
    exact Yields.of_ok rfl (Or.inl ⟨rfl, hsame⟩)
  · have hguard : sub64 ((pages sz + (USERSTACK + 1)) * PGSIZE) ((USERSTACK + 1) * PGSIZE) =
        pages sz * PGSIZE := by
      unfold sub64
      simp only [PHYSTOP, KERNBASE, PGSIZE, USERSTACK] at *
      omega
    rw [if_neg (by simp only [PGSIZE]; omega), hguard]
    refine (uvmclear_returns hlarge.space (v := pages sz) (by omega)).bind fun _ u hu =>
      Yields.of_ok rfl (Or.inr ⟨rfl, hu.space, fun v hv => ?_, hu.user, fun v hv hlt => ?_, ?_⟩)
    · have := hlarge.space.vpages
      rw [hu.pte v (by omega) (by omega), hlarge.old v hv]
    · have := hlarge.space.vpages
      rw [hu.pte v (by omega) (by omega), hlarge.flags v (by omega) hlt]
    · refine hlarge.kept.trans (hu.kept.mono ?_)
      rw [← owned_congr hlarge.old]
      exact Set.union_subset_union_left rest (owned_mono (by omega))

/-! ### The room that the arguments take -/

/-- The next multiple of 16. -/
def align16 (n : ℕ) : ℕ := (n + 15) / 16 * 16

/-- The room that strings take. -/
def strNeed (argv : List (List UInt8)) : ℕ := (argv.map fun arg => align16 (arg.length + 1)).sum

/-- The room that the arguments take: the strings, and the array of pointers with a 0 at its
end. -/
def stackNeed (argv : List (List UInt8)) : ℕ := strNeed argv + align16 ((argv.length + 1) * 8)

/-- The address of the string `i`, on a stack that starts at `sz`. -/
def strAt (sz : ℕ) (argv : List (List UInt8)) (i : ℕ) : ℕ := sz - strNeed (argv.take (i + 1))

variable {argv done : List (List UInt8)} {arg : List UInt8} {i j : ℕ}

theorem strNeed_append (l l' : List (List UInt8)) :
    strNeed (l ++ l') = strNeed l + strNeed l' := by
  rw [strNeed, List.map_append, List.sum_append]
  rfl

theorem strNeed_snoc (l : List (List UInt8)) (arg : List UInt8) :
    strNeed (l ++ [arg]) = strNeed l + align16 (arg.length + 1) := by
  rw [strNeed_append, strNeed, strNeed, List.map_singleton, List.sum_singleton]

theorem strNeed_aligned : ∀ argv : List (List UInt8), strNeed argv % 16 = 0 := by
  intro argv
  induction argv with
  | nil => rfl
  | cons arg argv ih =>
    rw [strNeed, List.map_cons, List.sum_cons, ← strNeed, align16]
    omega

theorem strNeed_take_le (argv : List (List UInt8)) (i : ℕ) :
    strNeed (argv.take i) ≤ strNeed argv := by
  have hsplit := strNeed_append (argv.take i) (argv.drop i)
  rw [List.take_append_drop] at hsplit
  omega

theorem strNeed_take_succ (hi : i < argv.length) :
    strNeed (argv.take (i + 1)) =
      strNeed (argv.take i) + align16 ((argv.getD i []).length + 1) := by
  rw [List.take_add_one, List.getElem?_eq_getElem hi, Option.toList_some, strNeed_snoc,
    List.getD_eq_getElem _ _ hi]

theorem strAt_append (hi : i < done.length) : strAt sz (done ++ [arg]) i = strAt sz done i := by
  rw [strAt, strAt, List.take_append_of_le_length (by omega)]

theorem strAt_last : strAt sz (done ++ [arg]) done.length = sz - strNeed (done ++ [arg]) := by
  rw [strAt, List.take_of_length_le (by simp)]

/-- The stack pointer moves by whole multiples of 16. -/
theorem lower_eq {sp : ℕ} (haligned : sp % 16 = 0) (hmax : sp < 2 ^ 64) (hn : align16 n ≤ sp) :
    lower sp n = sp - align16 n := by
  unfold lower sub64 align16 at *
  omega

/-! ### Pushing the strings -/

/-- A stack of `USERSTACK` pages below `sz`, with another page below. -/
structure StackAt (mem : ℕ → UInt8) (r sz : ℕ) : Prop where
  leaves : Leaves mem r
  aligned : sz % PGSIZE = 0
  base : (USERSTACK + 1) * PGSIZE ≤ sz
  max : sz ≤ MAXVA
  writable : ∀ b, sz - USERSTACK * PGSIZE ≤ b → b < sz → UserWritable mem r (b / PGSIZE)

theorem StackAt.wrote (h : StackAt s.mem r sz) (hwrote : Wrote r va len s t) :
    StackAt t.mem r sz := by
  have hentry := (h.leaves.entries hwrote.touches).2
  refine ⟨h.leaves.touch hwrote.touches, h.aligned, h.base, h.max, fun b hlow hhigh => ?_⟩
  obtain ⟨hpte, hw⟩ := h.writable b hlow hhigh
  exact ⟨(userPte_congr (hentry _)).mpr hpte, by rwa [hentry]⟩

/-- The strings `done` have been pushed on the stack below `sz`. -/
structure Pushed (r sz : ℕ) (done : List (List UInt8)) (s t : Phys) : Prop where
  fits : strNeed done ≤ USERSTACK * PGSIZE
  wrote : Wrote r (sz - USERSTACK * PGSIZE) (USERSTACK * PGSIZE) s t
  copy : ∀ i < done.length, ∀ k ≤ (done.getD i []).length,
    (userMem t.mem r).get (strAt sz done i + k) = some ((done.getD i [] ++ [0]).getD k 0)

/-- A copy to the stack below what is there. -/
theorem Pushed.copyout (hstack : StackAt s.mem r sz) (h : Pushed r sz done s t) {need : ℕ}
    {src : List UInt8} (hlow : strNeed done + src.length ≤ need)
    (hhigh : need ≤ USERSTACK * PGSIZE) :
    Returns (copyout r (sz - need) src) t fun ok u => ok = true ∧ Pushed r sz done s u ∧
      ∀ k < src.length, (userMem u.mem r).get (sz - need + k) = some (src.getD k 0) := by
  have hbase := hstack.base
  have hstack' := hstack.wrote h.wrote
  refine (copyout_get hstack'.leaves _ src).mono fun ok u hu => ?_
  obtain ⟨hwrote, hok, hget⟩ := hu
  obtain rfl : ok = true := hok.mpr fun b hb hb' => hstack'.writable b (by omega)
    (by simp only [PGSIZE, USERSTACK] at *; omega)
  refine ⟨rfl, ⟨h.fits, h.wrote.trans hstack.leaves (hwrote.mono (by omega) ?_),
    fun i hi k hk => ?_⟩, fun k hk => ?_⟩
  · simp only [PGSIZE, USERSTACK] at *
    omega
  · have htake := strNeed_take_le done (i + 1)
    rw [hget rfl, if_neg, h.copy i hi k hk]
    unfold strAt
    simp only [PGSIZE, USERSTACK] at *
    omega
  · rw [hget rfl, if_pos (by omega), Nat.add_sub_cancel_left]

theorem Pushed.snoc (h : Pushed r sz done s t)
    (hfits : strNeed (done ++ [arg]) ≤ USERSTACK * PGSIZE)
    (hcopy : ∀ k < (arg ++ [0]).length, (userMem t.mem r).get (sz - strNeed (done ++ [arg]) + k) =
      some ((arg ++ [0]).getD k 0)) : Pushed r sz (done ++ [arg]) s t := by
  refine ⟨hfits, h.wrote, fun i hi k hk => ?_⟩
  rcases Nat.lt_or_ge i done.length with hlt | hge
  · rw [List.getD_append _ _ _ _ hlt] at hk ⊢
    rw [strAt_append hlt]
    exact h.copy i hlt k hk
  · obtain rfl : i = done.length := by
      rw [List.length_append, List.length_singleton] at hi
      omega
    rw [List.getD_append_right _ _ _ _ le_rfl, Nat.sub_self, List.getD_cons_zero] at hk ⊢
    rw [strAt_last]
    exact hcopy k (by rw [List.length_append, List.length_singleton]; omega)

theorem align16_le (h : arg.length < PGSIZE) : align16 (arg.length + 1) ≤ PGSIZE := by
  unfold align16
  simp only [PGSIZE] at *
  omega

theorem pushStrings_returns (hstack : StackAt s.mem r sz) :
    ∀ (argv done : List (List UInt8)) (t : Phys), Pushed r sz done s t →
      (done ++ argv).length < MAXARG → (∀ arg ∈ argv, arg.length < PGSIZE) →
        Returns (pushStrings r (sz - USERSTACK * PGSIZE) argv (sz - strNeed done)
          ((List.range done.length).map (strAt sz done))) t fun o u =>
            Wrote r (sz - USERSTACK * PGSIZE) (USERSTACK * PGSIZE) s u ∧
              (o = none ∧ USERSTACK * PGSIZE < strNeed (done ++ argv) ∨
                o = some (sz - strNeed (done ++ argv),
                  (List.range (done ++ argv).length).map (strAt sz (done ++ argv))) ∧
                Pushed r sz (done ++ argv) s u) := by
  have hbase := hstack.base
  have haligned := hstack.aligned
  have hmax := hstack.max
  intro argv
  induction argv with
  | nil =>
    intro done t h _ _
    rw [List.append_nil, pushStrings]
    exact Yields.of_ok rfl ⟨h.wrote, Or.inr ⟨rfl, h⟩⟩
  | cons arg argv ih =>
    intro done t h hcount hargs
    have hfits := h.fits
    have harg := align16_le (hargs arg List.mem_cons_self)
    have hneed := strNeed_snoc done arg
    have hmod := strNeed_aligned done
    have hlower : lower (sz - strNeed done) (arg.length + 1) = sz - strNeed (done ++ [arg]) := by
      rw [lower_eq, hneed, Nat.sub_sub] <;> simp only [PGSIZE, MAXVA, USERSTACK] at * <;> omega
    have happend : done ++ arg :: argv = done ++ [arg] ++ argv := List.append_cons done arg argv
    rw [pushStrings, if_neg, hlower]
    · by_cases hroom : sz - strNeed (done ++ [arg]) < sz - USERSTACK * PGSIZE
      · rw [if_pos hroom]
        refine Yields.of_ok rfl ⟨h.wrote, Or.inl ⟨rfl, ?_⟩⟩
        rw [happend, strNeed_append]
        omega
      · rw [if_neg hroom]
        have hfits' : strNeed (done ++ [arg]) ≤ USERSTACK * PGSIZE := by
          simp only [PGSIZE, USERSTACK] at *
          omega
        have hsize : strNeed done + (arg ++ [0]).length ≤ strNeed (done ++ [arg]) := by
          rw [hneed, List.length_append, List.length_singleton, align16]
          omega
        refine (h.copyout hstack hsize hfits').bind fun ok u hu => ?_
        obtain ⟨rfl, hpushed, hcopy⟩ := hu
        rw [if_pos rfl, happend]
        have hustack : (List.range done.length).map (strAt sz done) ++
            [sz - strNeed (done ++ [arg])] =
              (List.range (done ++ [arg]).length).map (strAt sz (done ++ [arg])) := by
          rw [List.length_append, List.length_singleton, List.range_succ, List.map_append,
            List.map_singleton, strAt_last]
          congr 1
          exact List.map_congr_left fun i hi => (strAt_append (List.mem_range.mp hi)).symm
        rw [hustack]
        exact ih (done ++ [arg]) u (hpushed.snoc hfits' hcopy) (happend ▸ hcount)
          fun a ha => hargs a (List.mem_cons_of_mem _ ha)
    · rw [List.length_map, List.length_range]
      rw [List.length_append, List.length_cons] at hcount
      omega

/-! ### The layout -/

/-- **The layout of the arguments** on a stack of `USERSTACK` pages below `sz`: the array at `sp`
has the addresses of the strings and a 0, a string is there with its NUL, and nothing overlaps. -/
structure LaidOut (mem : UserMem) (sz sp : ℕ) (argv : List (List UInt8)) (ptr : ℕ → ℕ) : Prop where
  aligned : sp % 16 = 0
  base : sz - USERSTACK * PGSIZE ≤ sp
  pointer : ∀ i < argv.length, ∀ k < 8, mem.get (sp + 8 * i + k) = some (byteOf (ptr i) k)
  null : ∀ k < 8, mem.get (sp + 8 * argv.length + k) = some 0
  copy : ∀ i < argv.length, ∀ k ≤ (argv.getD i []).length,
    mem.get (ptr i + k) = some ((argv.getD i [] ++ [0]).getD k 0)
  array : ∀ i < argv.length, sp + 8 * (argv.length + 1) ≤ ptr i
  inside : ∀ i < argv.length, ptr i + ((argv.getD i []).length + 1) ≤ sz
  disjoint : ∀ i j, i < j → j < argv.length → ptr j + ((argv.getD j []).length + 1) ≤ ptr i

/-- Strings that have been pushed are apart. -/
theorem strAt_add_le (hneed : strNeed argv ≤ sz) (hi : i < argv.length) :
    strAt sz argv i + ((argv.getD i []).length + 1) ≤ sz - strNeed (argv.take i) := by
  have hsucc := strNeed_take_succ hi
  have hle := strNeed_take_le argv (i + 1)
  have halign : (argv.getD i []).length + 1 ≤ align16 ((argv.getD i []).length + 1) := by
    unfold align16
    omega
  unfold strAt
  omega

theorem strNeed_take_mono (argv : List (List UInt8)) (hij : i ≤ j) :
    strNeed (argv.take i) ≤ strNeed (argv.take j) := by
  have htake : argv.take i = (argv.take j).take i := by rw [List.take_take, Nat.min_eq_left hij]
  rw [htake]
  exact strNeed_take_le _ i

theorem byteOf_null (k : ℕ) : byteOf 0 k = 0 := by
  unfold byteOf
  rw [Nat.zero_div]
  rfl

theorem Pushed.laidOut {sp : ℕ} (hstack : StackAt s.mem r sz) (h : Pushed r sz argv s t)
    (hsp : sp = sz - stackNeed argv) (hfits : stackNeed argv ≤ USERSTACK * PGSIZE)
    (harray : ∀ k < (leWords ((List.range argv.length).map (strAt sz argv) ++ [0])).length,
      (userMem t.mem r).get (sp + k) =
        some ((leWords ((List.range argv.length).map (strAt sz argv) ++ [0])).getD k 0)) :
    LaidOut (userMem t.mem r) sz sp argv (strAt sz argv) := by
  have hbase := hstack.base
  have haligned := hstack.aligned
  have hmod := strNeed_aligned argv
  have hneed : strNeed argv + align16 ((argv.length + 1) * 8) = stackNeed argv := rfl
  have halign : (argv.length + 1) * 8 ≤ align16 ((argv.length + 1) * 8) ∧
      align16 ((argv.length + 1) * 8) % 16 = 0 := by
    unfold align16
    omega
  have hlen : (leWords ((List.range argv.length).map (strAt sz argv) ++ [0])).length =
      8 * (argv.length + 1) := by
    rw [length_leWords, List.length_append, List.length_map, List.length_range,
      List.length_singleton]
  -- a word of the array
  have hword : ∀ i ≤ argv.length, ∀ k < 8, (userMem t.mem r).get (sp + 8 * i + k) =
      some (byteOf (((List.range argv.length).map (strAt sz argv) ++ [0]).getD i 0) k) :=
    fun i hi k hk => by
      rw [Nat.add_assoc, harray (8 * i + k) (by omega), getD_leWords hk]
      rw [List.length_append, List.length_map, List.length_range, List.length_singleton]
      omega
  have hroom' : stackNeed argv ≤ sz := by
    simp only [PGSIZE, USERSTACK] at *
    omega
  have hroom : strNeed argv ≤ sz := by omega
  refine ⟨?_, by omega, fun i hi k hk => ?_, fun k hk => ?_, h.copy, fun i hi => ?_,
    fun i hi => ?_, fun i j hij hj => ?_⟩
  · simp only [PGSIZE, USERSTACK] at *
    omega
  · rw [hword i hi.le k hk, List.getD_append _ _ _ _ (by simpa using hi)]
    simp [hi]
  · rw [hword _ le_rfl k hk, List.getD_append_right _ _ _ _ (by simp)]
    simp [byteOf_null]
  · have := strNeed_take_le argv (i + 1)
    unfold strAt
    omega
  · exact (strAt_add_le hroom hi).trans (Nat.sub_le _ _)
  · refine (strAt_add_le hroom hj).trans ?_
    have := strNeed_take_mono argv (show i + 1 ≤ j from hij)
    unfold strAt
    omega

/-- **What becomes of the arguments.** -/
theorem pushArgs_returns (hstack : StackAt s.mem r sz) (hcount : argv.length < MAXARG)
    (hargs : ∀ arg ∈ argv, arg.length < PGSIZE) :
    Returns (pushArgs r sz argv) s fun o t =>
      Wrote r (sz - USERSTACK * PGSIZE) (USERSTACK * PGSIZE) s t ∧
        (o = none ∧ USERSTACK * PGSIZE < stackNeed argv ∨
          o = some (argv.length, sz - stackNeed argv) ∧ stackNeed argv ≤ USERSTACK * PGSIZE ∧
            LaidOut (userMem t.mem r) sz (sz - stackNeed argv) argv (strAt sz argv)) := by
  have hbase := hstack.base
  have haligned := hstack.aligned
  have hmax := hstack.max
  have hstackbase : sub64 sz (USERSTACK * PGSIZE) = sz - USERSTACK * PGSIZE := by
    unfold sub64
    simp only [PGSIZE, MAXVA, USERSTACK] at *
    omega
  have hstart : Pushed r sz [] s s :=
    ⟨Nat.zero_le _, Wrote.refl _ _ _ s, fun i hi => absurd hi (Nat.not_lt_zero i)⟩
  unfold pushArgs
  dsimp only
  rw [hstackbase]
  refine (pushStrings_returns hstack argv [] s hstart hcount hargs).bind fun o t ht => ?_
  rw [List.nil_append] at ht
  obtain ⟨hwrote, ⟨rfl, hlarge⟩ | ⟨rfl, hpushed⟩⟩ := ht
  · exact Yields.of_ok rfl ⟨hwrote, Or.inl ⟨rfl, by unfold stackNeed; omega⟩⟩
  · dsimp only
    rw [List.length_map, List.length_range, if_neg (by omega)]
    have hfits := hpushed.fits
    have hmod := strNeed_aligned argv
    have harray : align16 ((argv.length + 1) * 8) ≤ PGSIZE := by
      unfold align16
      simp only [PGSIZE, MAXARG] at *
      omega
    have hlower : lower (sz - strNeed argv) ((argv.length + 1) * 8) = sz - stackNeed argv := by
      rw [lower_eq, stackNeed, Nat.sub_sub] <;> simp only [PGSIZE, MAXVA, USERSTACK] at * <;> omega
    rw [hlower]
    by_cases hroom : sz - stackNeed argv < sz - USERSTACK * PGSIZE
    · rw [if_pos hroom]
      exact Yields.of_ok rfl ⟨hwrote, Or.inl ⟨rfl, by omega⟩⟩
    · rw [if_neg hroom]
      have hneed : stackNeed argv = strNeed argv + align16 ((argv.length + 1) * 8) := rfl
      have hfits' : stackNeed argv ≤ USERSTACK * PGSIZE := by
        simp only [PGSIZE, USERSTACK] at *
        omega
      refine (hpushed.copyout hstack ?_ hfits').bind fun ok u hu => ?_
      · rw [length_leWords, List.length_append, List.length_map, List.length_range,
          List.length_singleton, hneed, align16]
        omega
      · obtain ⟨rfl, hpushed', hcopy⟩ := hu
        rw [if_pos rfl]
        exact Yields.of_ok rfl ⟨hpushed'.wrote,
          Or.inr ⟨rfl, hfits', hpushed'.laidOut hstack rfl hfits' hcopy⟩⟩

/-- The stack that `exec` allocates. -/
theorem Stacked.stackAt (h : Stacked r n top rest s t) :
    StackAt t.mem r ((n + (USERSTACK + 1)) * PGSIZE) where
  leaves := h.space.leaves
  aligned := Nat.mul_mod_left _ _
  base := Nat.mul_le_mul_right _ (Nat.le_add_left _ _)
  max := (Nat.mul_le_mul_right _ (Nat.le_succ _)).trans h.space.below
  writable b hlow hhigh := by
    have hroom := h.space.room
    have hpage : n < b / PGSIZE ∧ b / PGSIZE < n + (USERSTACK + 1) := by
      simp only [PGSIZE, USERSTACK] at *
      omega
    have hbits : ∀ flag, 0x3FF &&& flag = flag → pteOf t.mem r (b / PGSIZE) &&& flag =
        (PTE_R ||| PTE_U ||| PTE_W ||| PTE_V) &&& flag := fun flag hflag => by
      rw [← pteFlags_and hflag, h.stack _ hpage.1 hpage.2]
    refine ⟨⟨?_, ?_, ?_⟩, ?_⟩
    · simp only [PGSIZE, TRAPFRAME, TRAMPOLINE, MAXVA] at *
      omega
    · rw [hbits PTE_V rfl]
      decide
    · rw [hbits PTE_U rfl]
      decide
    · rw [hbits PTE_W rfl]
      decide

/-- **The arguments are laid out, or they do not fit**: in an address space of any size, for any
list of fewer than `MAXARG` strings that are shorter than a page.  The stack pointer is lowered
modulo 2^64, and it never wraps: arguments that do not fit are refused. -/
theorem arguments_laidOut (h : Space s r (pages sz) top rest) (hcount : argv.length ≤ MAXARG - 1)
    (hargs : ∀ arg ∈ argv, arg.length < PGSIZE) :
    Returns (allocStack r sz) s fun o t => o.1 = true →
      Returns (pushArgs r o.2 argv) t fun p u =>
        (p = none ↔ USERSTACK * PGSIZE < stackNeed argv) ∧
        ∀ argc sp, p = some (argc, sp) → argc = argv.length ∧ sp + stackNeed argv = o.2 ∧
          ∃ ptr, LaidOut (userMem u.mem r) o.2 sp argv ptr := by
  refine (allocStack_returns h).mono fun o t ht ho => ?_
  rcases ht with ⟨rfl, -⟩ | ⟨rfl, hstacked⟩
  · cases ho
  have hstack := hstacked.stackAt
  have hbase := hstack.base
  refine (pushArgs_returns hstack (Nat.lt_of_le_of_lt hcount (by decide)) hargs).mono
    fun p u hu => ?_
  rcases hu.2 with ⟨rfl, hlarge⟩ | ⟨rfl, hfits, hlaid⟩
  · exact ⟨iff_of_true rfl hlarge, fun _ _ hp => nomatch hp⟩
  · refine ⟨iff_of_false (nomatch ·) (Nat.not_lt.mpr hfits), fun argc sp hp => ?_⟩
    cases hp
    refine ⟨rfl, Nat.sub_add_cancel (hfits.trans (le_trans ?_ hbase)), _, hlaid⟩
    exact Nat.mul_le_mul_right _ (Nat.le_succ _)

def allocatesStack : Evaluated (((uvmcreate >>= fun r => allocStack r 0) (lastPages 5)).map
    Prod.fst = .ok (true, 2 * PGSIZE)) :=
  ⟨by decide +kernel⟩

/-- An empty address space that a stack can be allocated in. -/
theorem exists_emptySpace : ∃ (s : Phys) (r : ℕ),
    Space s r (pages 0) (fun _ => 0) ∅ ∧
      (allocStack r 0 s).map Prod.fst = .ok (true, 2 * PGSIZE) := by
  have hrun := allocatesStack.holds
  obtain ⟨r, s, hs, -, hcreated⟩ := (uvmcreate_returns (pool_lastPages (n := 5) (by decide))).exists
  rw [bind_of_ok hs] at hrun
  rcases hcreated with ⟨rfl, -⟩ | ⟨-, htable, hpte⟩
  · cases hs
  · refine ⟨s, r, ?_, hrun⟩
    rw [pages_zero]
    exact Space.empty htable hpte

/-- Two strings on the stack of an address space that was empty. -/
theorem arguments_laidOut_emptySpace : ∃ (s : Phys) (r : ℕ),
    Space s r (pages 0) (fun _ => 0) ∅ ∧
      ∃ t, allocStack r 0 s = .ok ((true, 2 * PGSIZE), t) ∧
        Returns (pushArgs r (2 * PGSIZE) [[108, 115], [97]]) t fun p u =>
          ∃ sp ptr, p = some (2, sp) ∧
            LaidOut (userMem u.mem r) (2 * PGSIZE) sp [[108, 115], [97]] ptr := by
  obtain ⟨s, r, h, hrun⟩ := exists_emptySpace
  obtain ⟨o, t, hs, hargs⟩ := (arguments_laidOut h (by decide)
    (show ∀ arg ∈ [[108, 115], [97]], arg.length < PGSIZE by decide)).exists
  rw [hs] at hrun
  obtain rfl := Except.ok.inj hrun
  refine ⟨s, r, h, t, hs, (hargs rfl).mono fun p u hu => ?_⟩
  cases p with
  | none => exact absurd (hu.1.mp rfl) (by decide)
  | some p =>
    obtain ⟨argc, sp⟩ := p
    obtain ⟨rfl, -, ptr, hlaid⟩ := hu.2 argc sp rfl
    exact ⟨sp, ptr, rfl, hlaid⟩

end Xv6Ext2.Vm
