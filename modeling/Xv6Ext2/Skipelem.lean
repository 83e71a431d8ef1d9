import Xv6Ext2.Lib.Memory
import Xv6Ext2.Path

/-!
# The elements of a path

`skipelem` of `kernel/fs.c` on memory: three loops move a pointer over the path, and the element
between the first two is copied into a buffer, which gets a zero byte where the element is short.
`Path` has the same function on the bytes of the path, and a call here does to the pointer and to
the buffer what is said there.

## Main definitions

* `skipWhile`, `skipelemAt` — the loops, and the function of the source.
* `skipelems` — calls of it until one returns 0, as in the loop of `namex`.
* `segments` — the parts of a path between its slashes.

## Main results

* `skipelemAt_some`, `skipelemAt_none` — one call.
* `skipelem_segments` — the element and the rest that `skipelem` finds, as segments.
* `skipelems_eq` — **the calls go through the segments**, one after the other.
-/

namespace Xv6Ext2

open CString Memory

/-! ### The source functions -/

/-- `while(p(*path)) path++;`, for a string with fewer than `n` bytes. -/
def skipWhile (p : UInt8 → Bool) (mem : ℕ → UInt8) : ℕ → ℕ → Option ℕ
  | 0, _ => none
  | n + 1, path => if p (mem path) then skipWhile p mem n (path + 1) else some path

/-- Copy the next element of `path` into `name`: the pointer that is returned, where `none` is 0,
and the buffer.  The length of the element is the difference of two pointers into a memory of
128 MiB, which fits an `int`. -/
def skipelemAt (n : ℕ) (mem : ℕ → UInt8) (path : ℕ) (name : ℕ → UInt8) :
    Option (Option ℕ × (ℕ → UInt8)) := do
  let path ← skipWhile (· = 47) mem n path
  if mem path = 0 then return (none, name)
  else do
    let s := path
    let path ← skipWhile (fun c => c ≠ 47 ∧ c ≠ 0) mem n path
    let len := path - s
    let name :=
      if DIRSIZ ≤ len then blit mem s 0 DIRSIZ name
      else Function.update (blit mem s 0 len name) len 0
    let path ← skipWhile (· = 47) mem n path
    return (some path, name)

/-- `while((path = skipelem(path, name)) != 0)`, with so many calls at most: what each of them has
returned, and the buffer after it. -/
def skipelems (n : ℕ) (mem : ℕ → UInt8) :
    ℕ → ℕ → (ℕ → UInt8) → Option (List (ℕ × (ℕ → UInt8)))
  | 0, _, _ => none
  | calls + 1, path, name => do
    match ← skipelemAt n mem path name with
    | (none, _) => return []
    | (some path, name) => return (path, name) :: (← skipelems n mem calls path name)

/-! ### One call -/

variable {mem name name' : ℕ → UInt8} {p n : ℕ} {l elem rest : List UInt8}

/-- A string is empty if its first byte is the zero at its end. -/
theorem eq_zero_iff_of_stores (h : Stores mem p (l ++ [0])) (h0 : 0 ∉ l) : mem p = 0 ↔ l = [] := by
  cases l with
  | nil => simpa [Stores] using h
  | cons c l =>
    rw [h.1]
    simpa using Ne.symm (List.ne_of_not_mem_cons h0)

/-- A loop stops behind the bytes that it is meant for. -/
theorem scan_stores {P : UInt8 → Bool} (h : Stores mem p (l ++ [0])) (h0 : P 0 = false)
    (hn : l.length < n) : skipWhile P mem n p = some (p + (l.takeWhile P).length) ∧
      Stores mem (p + (l.takeWhile P).length) (l.dropWhile P ++ [0]) := by
  induction l generalizing p n with
  | nil =>
    obtain ⟨n, rfl⟩ := Nat.exists_eq_succ_of_ne_zero (Nat.ne_zero_of_lt hn)
    simp only [List.nil_append, Stores, and_true] at h
    simp [skipWhile, h, h0, Stores]
  | cons c l ih =>
    obtain ⟨n, rfl⟩ := Nat.exists_eq_succ_of_ne_zero (Nat.ne_zero_of_lt hn)
    obtain ⟨hc, hl⟩ := h
    rw [skipWhile, hc]
    by_cases hP : P c = true
    · obtain ⟨hscan, hrest⟩ := ih hl (Nat.lt_of_succ_lt_succ hn)
      rw [if_pos hP, hscan, List.takeWhile_cons_of_pos hP, List.dropWhile_cons_of_pos hP]
      simpa [add_assoc, add_comm 1] using hrest
    · rw [if_neg hP, List.takeWhile_cons_of_neg hP, List.dropWhile_cons_of_neg hP]
      exact ⟨rfl, hc, hl⟩

theorem takeWhile_dropWhile_congr {P Q : UInt8 → Bool} (h : ∀ c ∈ l, P c = Q c) :
    l.takeWhile P = l.takeWhile Q ∧ l.dropWhile P = l.dropWhile Q := by
  induction l with
  | nil => exact ⟨rfl, rfl⟩
  | cons c l ih =>
    simp only [List.forall_mem_cons] at h
    obtain ⟨htake, hdrop⟩ := ih h.2
    cases hc : Q c <;> simp [hc, h.1, htake, hdrop]

/-- The buffer holds an element, with a zero byte behind it if it is short; its bytes from the
15th on are those of `name`. -/
structure HoldsElem (name : ℕ → UInt8) (elem : List UInt8) (name' : ℕ → UInt8) : Prop where
  copied : ∀ j, (h : j < elem.length) → name' j = elem[j]
  ended : elem.length < DIRSIZ → name' elem.length = 0
  rest : ∀ j, DIRSIZ ≤ j → name' j = name j

/-- What is copied into the buffer. -/
theorem holdsElem_copy {seg : List UInt8} (h : Stores mem p seg) :
    HoldsElem name (seg.take DIRSIZ) (if DIRSIZ ≤ seg.length then blit mem p 0 DIRSIZ name
      else Function.update (blit mem p 0 seg.length name) seg.length 0) := by
  have hseg := stores_iff.mp h
  by_cases hlen : DIRSIZ ≤ seg.length
  · rw [if_pos hlen]
    refine ⟨fun j hj => ?_, fun hj => ?_, fun j hj => blit_of_not_mem (by omega)⟩
    · rw [List.length_take] at hj
      rw [blit, if_pos (by omega), List.getElem_take]
      exact hseg j (by omega)
    · rw [List.length_take] at hj
      omega
  · rw [if_neg hlen, List.take_of_length_le (by omega)]
    refine ⟨fun j hj => ?_, fun _ => Function.update_self .., fun j hj => ?_⟩
    · rw [Function.update_of_ne (by omega), blit, if_pos (by omega)]
      exact hseg j hj
    · rw [Function.update_of_ne (by omega), blit_of_not_mem (by omega)]

/-- **No element is left.** -/
theorem skipelemAt_none (h : Stores mem p (l ++ [0])) (hn : l.length < n)
    (hskip : skipelem l = none) : skipelemAt n mem p name = some (none, name) := by
  obtain ⟨hscan, hend⟩ := scan_stores (P := (· = 47)) h (by decide) hn
  have hnil : l.dropWhile (· = 47) = [] := by
    unfold skipelem at hskip
    split at hskip
    · assumption
    · cases hskip
  rw [hnil] at hend
  simp [skipelemAt, hscan, hend.1]

/-- **One element**: it is in the buffer, and the pointer is at the rest. -/
theorem skipelemAt_some (h : Stores mem p (l ++ [0])) (h0 : 0 ∉ l) (hn : l.length < n)
    (hskip : skipelem l = some (elem, rest)) : ∃ q name',
      skipelemAt n mem p name = some (some q, name') ∧ HoldsElem name elem name' ∧
        Stores mem q (rest ++ [0]) ∧ 0 ∉ rest ∧ rest.length < n := by
  obtain ⟨hscan, hstart⟩ := scan_stores (P := (· = 47)) h (by decide) hn
  set d := l.dropWhile (· = 47) with hd
  have hle : d.length ≤ l.length := (List.dropWhile_suffix _).length_le
  have hd0 : 0 ∉ d := fun hmem => h0 (mem_dropWhile hmem)
  unfold skipelem at hskip
  rw [← hd] at hskip
  cases hcase : d with
  | nil => simp [hcase] at hskip
  | cons c t =>
    simp only [hcase, Option.some.injEq, Prod.mk.injEq] at hskip
    rw [← hcase] at hskip
    obtain ⟨rfl, rfl⟩ := hskip
    set s := p + (l.takeWhile (· = 47)).length
    have hne : mem s ≠ 0 := by
      rw [hcase] at hstart
      rw [hstart.1]
      rintro rfl
      exact hd0 (by simp [hcase])
    -- the second loop stops at a slash or at the end, and there is no zero byte before that
    obtain ⟨htake, hdrop⟩ := takeWhile_dropWhile_congr (P := fun c => decide (c ≠ 47 ∧ c ≠ 0))
      (Q := (· ≠ 47)) (l := d) (by
        intro c hc
        have hc0 : c ≠ 0 := fun heq => hd0 (heq ▸ hc)
        simp [hc0])
    obtain ⟨hscan', hmid⟩ := scan_stores (P := fun c => decide (c ≠ 47 ∧ c ≠ 0)) hstart
      (by decide) (lt_of_le_of_lt hle hn)
    rw [htake] at hscan' hmid
    rw [hdrop] at hmid
    have hmidlen : (d.dropWhile (· ≠ 47)).length ≤ d.length := (List.dropWhile_suffix _).length_le
    obtain ⟨hscan'', hend⟩ := scan_stores (P := (· = 47)) (n := n) hmid (by decide) (by omega)
    have hseg : Stores mem s (d.takeWhile (· ≠ 47)) := by
      rw [← List.takeWhile_append_dropWhile (p := (· ≠ 47)) (l := d), List.append_assoc,
        stores_append] at hstart
      exact hstart.1
    refine ⟨_, _, ?_, holdsElem_copy hseg, hend, ?_, ?_⟩
    · unfold skipelemAt
      rw [hscan]
      simp only [Option.bind_eq_bind, Option.bind_some, if_neg hne]
      rw [hscan']
      simp only [Option.bind_some, Nat.add_sub_cancel_left]
      rw [hscan'']
      rfl
    · exact fun hmem => hd0 (mem_dropWhile (mem_dropWhile hmem))
    · have := (List.dropWhile_suffix (· = (47 : UInt8)) (l := d.dropWhile (· ≠ 47))).length_le
      omega

/-! ### Segments -/

/-- The nonempty parts of a path between its slashes. -/
def segments (l : List UInt8) : List (List UInt8) := (l.splitOnP (· = 47)).filter (· ≠ [])

theorem segments_slash (l : List UInt8) : segments (47 :: l) = segments l := by
  simp [segments, List.splitOnP_cons_eq_if_modifyHead]

theorem segments_dropWhile (l : List UInt8) : segments (l.dropWhile (· = 47)) = segments l := by
  induction l with
  | nil => rfl
  | cons c l ih =>
    by_cases hc : c = 47
    · rw [List.dropWhile_cons_of_pos (by simpa using hc), ih, hc, segments_slash]
    · rw [List.dropWhile_cons_of_neg (by simpa using hc)]

/-- A first segment, and what is behind it. -/
theorem segments_append {seg : List UInt8} (hseg : ∀ c ∈ seg, c ≠ 47) (hne : seg ≠ [])
    (hl : ∀ c ∈ l.head?, c = 47) : segments (seg ++ l) = seg :: segments l := by
  have hseg' : ∀ c ∈ seg, decide (c = 47) = false := by simpa using hseg
  cases l with
  | nil => simp [segments, List.splitOnP_eq_singleton hseg', hne]
  | cons c l =>
    obtain rfl := hl c rfl
    rw [segments_slash]
    simp [segments, List.splitOnP_append_cons_of_forall_mem hseg', hne]

theorem segments_of_ne {c : UInt8} (hc : c ≠ 47) : segments (c :: l) =
    (c :: l).takeWhile (· ≠ 47) :: segments ((c :: l).dropWhile (· ≠ 47)) := by
  have hslash : ∀ x ∈ (c :: l).takeWhile (· ≠ 47), x ≠ 47 := by
    intro x hx
    simpa using List.mem_takeWhile_imp hx
  have hne : (c :: l).takeWhile (· ≠ 47) ≠ [] := by
    rw [List.takeWhile_cons_of_pos (by simpa using hc)]
    exact List.cons_ne_nil _ _
  have hfirst : ∀ x ∈ ((c :: l).dropWhile (· ≠ 47)).head?, x = 47 := by
    have hnot := List.head?_dropWhile_not (· ≠ (47 : UInt8)) (c :: l)
    intro x hx
    rw [Option.mem_def.mp hx] at hnot
    simpa using hnot
  rw [← segments_append hslash hne hfirst, List.takeWhile_append_dropWhile]

/-- **`skipelem` finds the first segment**, cut after 14 bytes, and what it returns begins with
the next one. -/
theorem skipelem_segments (l : List UInt8) : (skipelem l = none ∧ segments l = []) ∨
    ∃ seg rest, skipelem l = some (seg.take DIRSIZ, rest) ∧ segments l = seg :: segments rest ∧
      (rest = [] ↔ segments rest = []) := by
  rw [← segments_dropWhile l]
  unfold skipelem
  have hhead := List.head?_dropWhile_not (· = (47 : UInt8)) l
  generalize l.dropWhile (· = 47) = d at *
  cases d with
  | nil => exact Or.inl ⟨rfl, rfl⟩
  | cons c t =>
    refine Or.inr ⟨_, _, rfl, ?_, ?_⟩
    · rw [segments_dropWhile, segments_of_ne (by simpa using hhead)]
    · have hnext := List.head?_dropWhile_not (· = (47 : UInt8)) ((c :: t).dropWhile (· ≠ 47))
      generalize ((c :: t).dropWhile (· ≠ 47)).dropWhile (· = 47) = rest at *
      cases rest with
      | nil => simp [segments]
      | cons x rest => simp [segments_of_ne (show x ≠ 47 by simpa using hnext)]

/-! ### All calls -/

/-- What the calls of `skipelem` return on a path with the segments `segs`: one result for each of
them and then 0, where the path that is returned is empty at the last one, and the buffer holds
the segment, cut after 14 bytes. -/
structure GoesThrough (mem name : ℕ → UInt8) (segs : List (List UInt8))
    (results : List (ℕ × (ℕ → UInt8))) : Prop where
  length : results.length = segs.length
  held : ∀ i, (h : i < segs.length) → (h' : i < results.length) →
    HoldsElem name (segs[i].take DIRSIZ) results[i].2
  last : ∀ i, (h : i < results.length) → (mem results[i].1 = 0 ↔ i + 1 = segs.length)

theorem GoesThrough.nil : GoesThrough mem name [] [] where
  length := rfl
  held _ hi := absurd hi (Nat.not_lt_zero _)
  last _ hi := absurd hi (Nat.not_lt_zero _)

/-- A call, and those after it. -/
theorem GoesThrough.cons {segs : List (List UInt8)} {results : List (ℕ × (ℕ → UInt8))}
    {seg : List UInt8} {q : ℕ} (h : GoesThrough mem name' segs results)
    (hname : HoldsElem name (seg.take DIRSIZ) name') (hq : mem q = 0 ↔ segs = []) :
    GoesThrough mem name (seg :: segs) ((q, name') :: results) where
  length := congrArg (· + 1) h.length
  held i hi hi' := by
    cases i with
    | zero => exact hname
    | succ i =>
      have hheld := h.held i (by simpa using hi) (by simpa using hi')
      exact { hheld with rest := fun j hj => (hheld.rest j hj).trans (hname.rest j hj) }
  last i hi := by
    cases i with
    | zero =>
      rw [← List.length_eq_zero_iff] at hq
      simp only [List.getElem_cons_zero, List.length_cons, hq]
      omega
    | succ i => simpa using h.last i (by simpa using hi)

/-- **The calls of `skipelem` go through the segments of the path**, whatever its slashes, and
there is one more call than there are segments. -/
theorem skipelems_eq (h : Stores mem p (l ++ [0])) (h0 : 0 ∉ l) (hn : l.length < n) :
    ∃ results, GoesThrough mem name (segments l) results ∧ ∀ calls,
      skipelems n mem calls p name =
        if (segments l).length + 1 ≤ calls then some results else none := by
  generalize hk : (segments l).length = k
  induction k generalizing l p name with
  | zero =>
    rcases skipelem_segments l with ⟨hnone, hsegs⟩ | ⟨seg, rest, -, hsegs, -⟩
    · refine ⟨[], ?_, fun calls => ?_⟩
      · rw [hsegs]
        exact GoesThrough.nil
      · cases calls with
        | zero => rfl
        | succ calls => simp [skipelems, skipelemAt_none h hn hnone]
    · simp [hsegs] at hk
  | succ k ih =>
    rcases skipelem_segments l with ⟨-, hsegs⟩ | ⟨seg, rest, hsome, hsegs, hlast⟩
    · simp [hsegs] at hk
    · obtain ⟨q, name', hcall, hname, hrest, hrest0, hrestn⟩ :=
        skipelemAt_some h h0 hn hsome
      rw [hsegs, List.length_cons, Nat.succ_inj] at hk
      obtain ⟨results, hgo, hcalls⟩ : ∃ results,
          GoesThrough mem name' (segments rest) results ∧ _ := ih hrest hrest0 hrestn hk
      refine ⟨(q, name') :: results, ?_, fun calls => ?_⟩
      · rw [hsegs]
        exact hgo.cons hname (by rw [← hlast]; exact eq_zero_iff_of_stores hrest hrest0)
      · cases calls with
        | zero => rfl
        | succ calls =>
          simp only [skipelems, hcall, Option.bind_eq_bind, Option.bind_some, hcalls,
            Nat.add_le_add_iff_right]
          split <;> rfl

/-- `/a//bb` -/
theorem skipelems_eq_twoNames : ∃ results,
    GoesThrough (cstr [47, 97, 47, 47, 98, 98]) (fun _ => 1) [[97], [98, 98]] results ∧
      ∀ calls, skipelems 7 (cstr [47, 97, 47, 47, 98, 98]) calls 0 (fun _ => 1) =
        if 3 ≤ calls then some results else none :=
  skipelems_eq (l := [47, 97, 47, 47, 98, 98]) (by simp [Stores, cstr]) (by decide) (by decide)

end Xv6Ext2
