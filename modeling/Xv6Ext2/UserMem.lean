import Xv6Ext2.Sysfile

/-!
# The memory of a process

`copyin` and `copyout` of `kernel/vm.c`, page by page.  A copy stops at the first page that it
may not use.  Until then it has moved bytes, which nobody counts.

## Main definitions

* `UserMem`, `walkaddr`, `copyin`, `copyout` — the pages of a process, and the source functions.
* `lead p n` — how many of the first `n` numbers have `p`, in a row.

## Main results

* `copyin_eq`, `get_copyout` — **a copy moves the bytes up to the first page it may not use.**
* `copyout_snd` — it succeeds if there is no such page.
-/

namespace Xv6Ext2

/-! ### The first numbers in a row -/

/-- How many of the numbers below `n` have `p`, in a row from 0. -/
def lead (p : ℕ → Bool) (n : ℕ) : ℕ := Nat.findGreatest (fun k => ∀ x < k, p x = true) n

theorem lead_eq_iff {p : ℕ → Bool} {n k : ℕ} :
    lead p n = k ↔ k ≤ n ∧ (∀ x < k, p x = true) ∧ (k < n → p k = false) := by
  unfold lead
  rw [Nat.findGreatest_eq_iff]
  refine and_congr_right fun hk => ⟨fun ⟨hall, hmax⟩ => ?_, fun ⟨hall, hstop⟩ => ?_⟩
  · have hall' : ∀ x < k, p x = true := by
      rcases Nat.eq_zero_or_pos k with rfl | hpos
      · intro x hx
        omega
      · exact hall (by omega)
    refine ⟨hall', fun hlt => Bool.eq_false_iff.mpr fun hp => ?_⟩
    refine hmax (Nat.lt_succ_self k) hlt fun x hx => ?_
    rcases Nat.lt_succ_iff_lt_or_eq.mp hx with hx | rfl
    · exact hall' x hx
    · exact hp
  · refine ⟨fun _ => hall, fun j hj hjn hall' => ?_⟩
    have hk' := hall' k hj
    rw [hstop (by omega)] at hk'
    cases hk'

theorem lead_le (p : ℕ → Bool) (n : ℕ) : lead p n ≤ n := Nat.findGreatest_le n

theorem lead_spec {p : ℕ → Bool} {n x : ℕ} (hx : x < lead p n) : p x = true :=
  (lead_eq_iff.mp rfl).2.1 x hx

theorem lead_stop {p : ℕ → Bool} {n : ℕ} (h : lead p n < n) : p (lead p n) = false :=
  (lead_eq_iff.mp rfl).2.2 h

theorem lead_eq_self {p : ℕ → Bool} {n : ℕ} : lead p n = n ↔ ∀ x < n, p x = true := by
  rw [lead_eq_iff]
  exact ⟨fun h => h.2.1, fun h => ⟨le_rfl, h, fun hlt => absurd hlt (lt_irrefl _)⟩⟩

/-- All of the first `m`, and then some. -/
theorem lead_add {p : ℕ → Bool} {m n : ℕ} (hmn : m ≤ n) (h : lead p m = m) :
    lead p n = m + lead (fun x => p (m + x)) (n - m) := by
  have hle := lead_le (fun x => p (m + x)) (n - m)
  refine lead_eq_iff.mpr ⟨by omega, fun x hx => ?_, fun hlt => ?_⟩
  · rcases Nat.lt_or_ge x m with hxm | hxm
    · exact lead_spec (n := m) (by omega)
    · have := lead_spec (p := fun x => p (m + x)) (n := n - m) (x := x - m) (by omega)
      rwa [show m + (x - m) = x by omega] at this
  · exact lead_stop (p := fun x => p (m + x)) (n := n - m) (by omega)

/-- A row that stops before `m`. -/
theorem lead_of_lt {p : ℕ → Bool} {m n : ℕ} (hmn : m ≤ n) (h : lead p m < m) :
    lead p n = lead p m :=
  lead_eq_iff.mpr ⟨by omega, fun _ hx => lead_spec hx, fun _ => lead_stop h⟩

/-! ### Pages -/

/-- `MAXVA` -/
abbrev MAXVA : ℕ := 2 ^ 38

/-- A page that a process may access: its entry has `PTE_V` and `PTE_U`. -/
structure UserPage where
  writable : Bool
  byte : ℕ → UInt8

/-- The pages of a process, by their numbers. -/
abbrev UserMem := ℕ → Option UserPage

/-- The page of a user address. -/
def walkaddr (mem : UserMem) (va : ℕ) : Option UserPage :=
  if MAXVA ≤ va then none else mem (va / PGSIZE)

/-- The byte at a user address, if there is one. -/
def UserMem.get (mem : UserMem) (va : ℕ) : Option UInt8 :=
  (walkaddr mem va).map fun page => page.byte (va % PGSIZE)

/-- May the process write to the address? -/
def UserMem.writable (mem : UserMem) (va : ℕ) : Bool := (walkaddr mem va).any UserPage.writable

/-- Write bytes to a page. -/
def UserMem.put (mem : UserMem) (p : ℕ) (page : UserPage) (o : ℕ) (bytes : List UInt8) : UserMem :=
  Function.update mem p (some { page with
    byte := fun i => if o ≤ i ∧ i < o + bytes.length then bytes.getD (i - o) 0 else page.byte i })

/-- Copy `len` bytes from a user address: the bytes that have been stored, and whether all have
been.  A round copies up to the end of a page. -/
def copyin (mem : UserMem) : ℕ → ℕ → ℕ → List UInt8 × Bool
  | _, _, 0 => ([], true)
  | 0, _, _ + 1 => ([], false)
  | fuel + 1, srcva, len + 1 =>
    let va0 := srcva / PGSIZE * PGSIZE
    match walkaddr mem va0 with
    | none => ([], false)
    | some page =>
      let n := min (PGSIZE - (srcva - va0)) (len + 1)
      let r := copyin mem fuel (va0 + PGSIZE) (len + 1 - n)
      ((List.range n).map (fun x => page.byte (srcva - va0 + x)) ++ r.1, r.2)

/-- Copy bytes to a user address: the memory, and whether all of them have been copied. -/
def copyout : ℕ → UserMem → ℕ → List UInt8 → UserMem × Bool
  | _, mem, _, [] => (mem, true)
  | 0, mem, _, _ :: _ => (mem, false)
  | fuel + 1, mem, dstva, c :: src =>
    let va0 := dstva / PGSIZE * PGSIZE
    match walkaddr mem va0 with
    | none => (mem, false)
    | some page =>
      if page.writable = false then (mem, false)
      else
        let n := min (PGSIZE - (dstva - va0)) (c :: src).length
        copyout fuel (mem.put (va0 / PGSIZE) page (dstva - va0) ((c :: src).take n)) (va0 + PGSIZE)
          ((c :: src).drop n)

section Pages

variable {mem : UserMem} {a b : ℕ}

/-- Addresses of one page. -/
theorem walkaddr_congr (h : a / PGSIZE = b / PGSIZE) : walkaddr mem a = walkaddr mem b := by
  unfold walkaddr
  rw [h]
  simp only [PGSIZE, MAXVA] at *
  by_cases ha : 2 ^ 38 ≤ a
  · rw [if_pos ha, if_pos (by omega)]
  · rw [if_neg ha, if_neg (by omega)]

theorem lt_of_walkaddr (h : (walkaddr mem a).isSome = true) : a < MAXVA := by
  unfold walkaddr at h
  split at h
  · cases h
  · omega

/-- **`copyin` copies up to the first page that is not there.** -/
theorem copyin_eq (mem : UserMem) : ∀ fuel a len : ℕ, len ≤ fuel →
    copyin mem fuel a len =
      ((List.range (lead (fun x => (walkaddr mem (a + x)).isSome) len)).map
        (fun x => (mem.get (a + x)).getD 0),
        decide (lead (fun x => (walkaddr mem (a + x)).isSome) len = len)) := by
  intro fuel
  induction fuel with
  | zero =>
    intro a len hlen
    obtain rfl : len = 0 := by omega
    rfl
  | succ fuel ih =>
    intro a len hlen
    rcases len with _ | len
    · rfl
    rw [copyin]
    have hpage : walkaddr mem (a / PGSIZE * PGSIZE) = walkaddr mem a :=
      walkaddr_congr (by simp only [PGSIZE]; omega)
    dsimp only
    rw [hpage]
    cases hw : walkaddr mem a with
    | none =>
      have hzero : lead (fun x => (walkaddr mem (a + x)).isSome) (len + 1) = 0 :=
        lead_eq_iff.mpr ⟨Nat.zero_le _, fun x hx => absurd hx (Nat.not_lt_zero _),
          fun _ => by rw [Nat.add_zero, hw]; rfl⟩
      rw [hzero]
      rfl
    | some page =>
      dsimp only
      generalize hn : min (PGSIZE - (a - a / PGSIZE * PGSIZE)) (len + 1) = n
      -- the rest of the page is there
      have hsame : ∀ x < n, walkaddr mem (a + x) = some page := fun x hx => by
        rw [← hw]
        exact walkaddr_congr (by simp only [PGSIZE] at *; omega)
      have hall : lead (fun x => (walkaddr mem (a + x)).isSome) n = n :=
        lead_eq_iff.mpr ⟨le_rfl, fun x hx => by rw [hsame x hx]; rfl, fun hlt => by omega⟩
      have hnext : a / PGSIZE * PGSIZE + PGSIZE = a + n ∨ n = len + 1 := by
        simp only [PGSIZE] at *
        omega
      rw [lead_add (m := n) (by omega) hall]
      have hfirst : (List.range n).map (fun x => page.byte (a - a / PGSIZE * PGSIZE + x)) =
          (List.range n).map fun x => (mem.get (a + x)).getD 0 := by
        refine List.map_congr_left fun x hx => ?_
        have hx' := List.mem_range.mp hx
        rw [UserMem.get, hsame x hx']
        show page.byte _ = page.byte _
        congr 1
        simp only [PGSIZE] at *
        omega
      rw [hfirst]
      rcases hnext with hnext | hlast
      · rw [hnext, ih (a + n) (len + 1 - n) (by simp only [PGSIZE] at *; omega),
          map_range_split _ (Nat.le_add_right n _), Nat.add_sub_cancel_left]
        simp only [Nat.add_assoc]
        refine Prod.ext rfl (decide_eq_decide.mpr ?_)
        omega
      · rw [hlast, Nat.sub_self]
        simp [copyin, lead]

/-! ### Writing to pages -/

theorem walkaddr_put {p o : ℕ} {page : UserPage} {bytes : List UInt8} :
    walkaddr (mem.put p page o bytes) b =
      if b < MAXVA ∧ b / PGSIZE = p then
        some { page with byte := fun i =>
          if o ≤ i ∧ i < o + bytes.length then bytes.getD (i - o) 0 else page.byte i }
      else walkaddr mem b := by
  unfold walkaddr UserMem.put
  by_cases hmax : MAXVA ≤ b
  · rw [if_pos hmax, if_pos hmax, if_neg fun h => absurd h.1 (Nat.not_lt.mpr hmax)]
  · rw [if_neg hmax, if_neg hmax]
    by_cases hp : b / PGSIZE = p
    · rw [if_pos ⟨Nat.not_le.mp hmax, hp⟩, hp, Function.update_self]
    · rw [if_neg fun h => hp h.2, Function.update_of_ne hp]

/-- A write to a page that is there keeps what may be written. -/
theorem writable_put {o : ℕ} {page : UserPage} {bytes : List UInt8}
    (hw : walkaddr mem a = some page) :
    (mem.put (a / PGSIZE) page o bytes).writable b = mem.writable b := by
  unfold UserMem.writable
  rw [walkaddr_put]
  split
  · next h => rw [walkaddr_congr h.2, hw]; rfl
  · rfl

/-- The bytes after a write to a page. -/
theorem get_put {page : UserPage} (bytes : List UInt8) (hw : walkaddr mem a = some page)
    (hlen : a % PGSIZE + bytes.length ≤ PGSIZE) :
    (mem.put (a / PGSIZE) page (a % PGSIZE) bytes).get b =
      if a ≤ b ∧ b < a + bytes.length then some (bytes.getD (b - a) 0) else mem.get b := by
  have hmax : a < MAXVA := lt_of_walkaddr (by rw [hw]; rfl)
  unfold UserMem.get
  rw [walkaddr_put]
  by_cases hin : a ≤ b ∧ b < a + bytes.length
  · have hpage : b < MAXVA ∧ b / PGSIZE = a / PGSIZE := by
      simp only [PGSIZE, MAXVA] at *
      omega
    have hoff : b % PGSIZE - a % PGSIZE = b - a ∧ a % PGSIZE ≤ b % PGSIZE ∧
        b % PGSIZE < a % PGSIZE + bytes.length := by
      simp only [PGSIZE] at *
      omega
    rw [if_pos hpage, if_pos hin, Option.map_some]
    dsimp only
    rw [if_pos hoff.2, hoff.1]
  · rw [if_neg hin]
    split
    · next hpage =>
      rw [walkaddr_congr hpage.2, hw, Option.map_some, Option.map_some]
      dsimp only
      rw [if_neg]
      simp only [PGSIZE] at *
      omega
    · rfl

/-- `copyout` does not change which pages may be written. -/
theorem writable_copyout : ∀ (fuel : ℕ) (mem : UserMem) (a : ℕ) (bytes : List UInt8),
    (copyout fuel mem a bytes).1.writable b = mem.writable b := by
  intro fuel
  induction fuel with
  | zero => intro mem a bytes; cases bytes <;> rfl
  | succ fuel ih =>
    intro mem a bytes
    rcases bytes with _ | ⟨c, bytes⟩
    · rfl
    rw [copyout]
    dsimp only
    cases hw : walkaddr mem (a / PGSIZE * PGSIZE) with
    | none => rfl
    | some page =>
      dsimp only
      split
      · rfl
      · rw [ih, writable_put hw]

/-- **`copyout` succeeds if all of the bytes may be written.** -/
theorem copyout_snd : ∀ (fuel : ℕ) (mem : UserMem) (a : ℕ) (bytes : List UInt8),
    bytes.length ≤ fuel → ((copyout fuel mem a bytes).2 = true ↔
      ∀ x < bytes.length, mem.writable (a + x) = true) := by
  intro fuel
  induction fuel with
  | zero =>
    intro mem a bytes hlen
    obtain rfl : bytes = [] := List.eq_nil_of_length_eq_zero (by omega)
    simp [copyout]
  | succ fuel ih =>
    intro mem a bytes hlen
    rcases bytes with _ | ⟨c, bytes⟩
    · simp [copyout]
    rw [copyout]
    have hpage : walkaddr mem (a / PGSIZE * PGSIZE) = walkaddr mem a :=
      walkaddr_congr (by simp only [PGSIZE]; omega)
    generalize hl : c :: bytes = l at hlen ⊢
    have hpos : 0 < l.length := by rw [← hl]; exact Nat.succ_pos _
    -- a page that may not be written ends the copy
    have hstop : mem.writable a = false →
        (false = true ↔ ∀ x < l.length, mem.writable (a + x) = true) := fun hno => by
      refine ⟨fun h => (nomatch h), fun h => ?_⟩
      have := h 0 hpos
      rw [Nat.add_zero, hno] at this
      exact this
    dsimp only
    rw [hpage]
    cases hw : walkaddr mem a with
    | none => exact hstop (by rw [UserMem.writable, hw]; rfl)
    | some page =>
      dsimp only
      split
      · next hno => exact hstop (by rw [UserMem.writable, hw]; exact hno)
      next hyes =>
      have hva : a / PGSIZE * PGSIZE / PGSIZE = a / PGSIZE := by simp only [PGSIZE]; omega
      rw [hva, ih _ _ _ (by rw [List.length_drop]; simp only [PGSIZE] at *; omega)]
      simp only [writable_put hw, List.length_drop]
      generalize hn : min (PGSIZE - (a - a / PGSIZE * PGSIZE)) l.length = n
      have hsame : ∀ x < n, mem.writable (a + x) = true := fun x hx => by
        unfold UserMem.writable
        rw [walkaddr_congr (b := a) (by simp only [PGSIZE] at *; omega), hw]
        exact Bool.eq_true_of_not_eq_false hyes
      have hnext : a / PGSIZE * PGSIZE + PGSIZE = a + n ∨ n = l.length := by
        simp only [PGSIZE] at *
        omega
      constructor
      · intro h x hx
        rcases Nat.lt_or_ge x n with hxn | hxn
        · exact hsame x hxn
        · rcases hnext with hnext | hlast
          · have := h (x - n) (by omega)
            rwa [hnext, show a + n + (x - n) = a + x by omega] at this
          · omega
      · intro h x hx
        rcases hnext with hnext | hlast
        · rw [hnext, show a + n + x = a + (n + x) by omega]
          exact h (n + x) (by omega)
        · omega

/-- **`copyout` copies up to the first page that may not be written**, and changes no other
byte. -/
theorem get_copyout : ∀ (fuel : ℕ) (mem : UserMem) (a : ℕ) (bytes : List UInt8),
    bytes.length ≤ fuel → (copyout fuel mem a bytes).1.get b =
      if a ≤ b ∧ b < a + lead (fun x => mem.writable (a + x)) bytes.length then
        some (bytes.getD (b - a) 0)
      else mem.get b := by
  intro fuel
  induction fuel with
  | zero =>
    intro mem a bytes hlen
    obtain rfl : bytes = [] := List.eq_nil_of_length_eq_zero (by omega)
    rw [if_neg (by simp [lead])]
    rfl
  | succ fuel ih =>
    intro mem a bytes hlen
    rcases bytes with _ | ⟨c, bytes⟩
    · rw [if_neg (by simp [lead])]
      rfl
    rw [copyout]
    have hpage : walkaddr mem (a / PGSIZE * PGSIZE) = walkaddr mem a :=
      walkaddr_congr (by simp only [PGSIZE]; omega)
    generalize hl : c :: bytes = l at hlen ⊢
    have hpos : 0 < l.length := by rw [← hl]; exact Nat.succ_pos _
    -- a page that may not be written ends the copy
    have hstop : mem.writable a = false → mem.get b =
        if a ≤ b ∧ b < a + lead (fun x => mem.writable (a + x)) l.length then
          some (l.getD (b - a) 0) else mem.get b := fun hno => by
      have hzero : lead (fun x => mem.writable (a + x)) l.length = 0 :=
        lead_eq_iff.mpr ⟨Nat.zero_le _, fun x hx => absurd hx (Nat.not_lt_zero _), fun _ => hno⟩
      rw [hzero, if_neg (by omega)]
    dsimp only
    rw [hpage]
    cases hw : walkaddr mem a with
    | none => exact hstop (by rw [UserMem.writable, hw]; rfl)
    | some page =>
      dsimp only
      split
      · next hno => exact hstop (by rw [UserMem.writable, hw]; exact hno)
      next hyes =>
      have hva : a / PGSIZE * PGSIZE / PGSIZE = a / PGSIZE ∧
          a - a / PGSIZE * PGSIZE = a % PGSIZE := by
        simp only [PGSIZE]
        omega
      rw [hva.1, hva.2]
      generalize hn : min (PGSIZE - a % PGSIZE) l.length = n
      have htake : (l.take n).length = n := by rw [List.length_take]; omega
      have hsame : ∀ x < n, mem.writable (a + x) = true := fun x hx => by
        unfold UserMem.writable
        rw [walkaddr_congr (b := a) (by simp only [PGSIZE] at *; omega), hw]
        exact Bool.eq_true_of_not_eq_false hyes
      have hall : lead (fun x => mem.writable (a + x)) n = n :=
        lead_eq_iff.mpr ⟨le_rfl, hsame, fun hlt => by omega⟩
      have hput := get_put (b := b) (l.take n) hw (by simp only [PGSIZE] at *; omega)
      rw [ih _ _ _ (by rw [List.length_drop]; simp only [PGSIZE] at *; omega), hput, htake,
        lead_add (n := l.length) (by omega) hall, List.length_drop]
      simp only [writable_put hw]
      -- either the copy is over, or the next page starts where this piece ends
      have hnext : a / PGSIZE * PGSIZE + PGSIZE = a + n ∨ n = l.length := by
        simp only [PGSIZE] at *
        omega
      rcases hnext with hnext | hlast
      · rw [hnext]
        simp only [← Nat.add_assoc]
        generalize lead (fun x => mem.writable (a + n + x)) (l.length - n) = k
        by_cases hlow : a ≤ b ∧ b < a + n
        · rw [if_neg (by omega), if_pos hlow, if_pos (by omega), List.getD_eq_getElem?_getD,
            List.getElem?_take, if_pos (by omega), List.getD_eq_getElem?_getD]
        · rw [if_neg hlow]
          by_cases hhigh : a + n ≤ b ∧ b < a + n + k
          · rw [if_pos hhigh, if_pos (by omega), List.getD_eq_getElem?_getD, List.getElem?_drop,
              List.getD_eq_getElem?_getD, show n + (b - (a + n)) = b - a by omega]
          · rw [if_neg hhigh, if_neg (by omega)]
      · rw [hlast, Nat.sub_self, List.take_length, if_neg (by simp [lead])]
        simp [lead]

end Pages

end Xv6Ext2
