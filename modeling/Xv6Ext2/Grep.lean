import Xv6Ext2.Lib.CString
import Xv6Ext2.Lib.Memory

/-!
# `grep`

The matcher of `user/grep.c` works on the pattern and the text directly.  Its recursion
follows the pattern, and where a pattern starts with a star it tries the rest of the
pattern on the text after any number of characters, so it finds a way to match the text
if there is one.

`grep` reads its input in pieces into a buffer of 1024 bytes, with one byte for the NUL at
the end.  It looks at the lines that end in the buffer and moves what is left to the front.
A line that has no end is never looked at; and when 1023 bytes without an end are in the
buffer, `read` is asked for no bytes and `grep` stops.

## Main definitions

* `matchRe`, `matchhere`, `matchstar` — the matcher, `match` in the source.
* `Item`, `parse`, `Denotes` — patterns as they are meant.
* `grep` — the loop over the input, for any way in which `read` splits it.
* `reported`, `wanted` — the lines that `grep` writes, and the ones that match.

## Main results

* `matchRe_iff` — the matcher does what patterns mean.
* `grep_eq` — `grep` writes the lines of `reported`.
* `grep_wanted_iff` — when these are all the lines that match.
* `grep_misses_line` — a line without an end.
-/

namespace Xv6Ext2.Grep

open CString Function Memory

/-! ### The matcher -/

/-- `matchstar(c, re, text)`, where `here` is `matchhere(re, ·)`. -/
def matchstar (c : UInt8) (here : List UInt8 → Bool) : List UInt8 → Bool
  | [] => here []
  | x :: text => here (x :: text) || ((x = c || c = 46) && matchstar c here text)

/-- `matchhere(re, text)`. -/
def matchhere : List UInt8 → List UInt8 → Bool
  | [], _ => true
  | [c], text =>
    if c = 36 then text.isEmpty
    else match text with
      | [] => false
      | x :: _ => c = 46 || c = x
  | c :: d :: re, text =>
    if d = 42 then matchstar c (matchhere re) text
    else match text with
      | [] => false
      | x :: text => (c = 46 || c = x) && matchhere (d :: re) text

/-- The loop of `match`, which looks at the empty string too. -/
def matchLoop (here : List UInt8 → Bool) : List UInt8 → Bool
  | [] => here []
  | x :: text => here (x :: text) || matchLoop here text

/-- `match(re, text)`. -/
def matchRe (re text : List UInt8) : Bool :=
  if re.head? = some 94 then matchhere re.tail text else matchLoop (matchhere re) text

/-! ### What patterns mean -/

/-- A part of a pattern: a character, a character with a star, or the end of the text. -/
inductive Item
  | one (c : UInt8)
  | star (c : UInt8)
  | eot

/-- The parts of a pattern.  A star after a character belongs to it, and the dollar is
special at the end only. -/
def parse : List UInt8 → List Item
  | [] => []
  | [c] => if c = 36 then [.eot] else [.one c]
  | c :: d :: re => if d = 42 then .star c :: parse re else .one c :: parse (d :: re)

/-- The characters that a character of a pattern stands for. -/
def Fits (c x : UInt8) : Prop := c = 46 ∨ c = x

/-- The strings that a part stands for, where `rest` is the text after the string. -/
def Item.Denotes (s rest : List UInt8) : Item → Prop
  | .one c => ∃ x, s = [x] ∧ Fits c x
  | .star c => ∀ x ∈ s, Fits c x
  | .eot => s = [] ∧ rest = []

/-- The strings that a pattern stands for. -/
def Denotes : List Item → List UInt8 → List UInt8 → Prop
  | [], s, _ => s = []
  | item :: items, s, rest =>
    ∃ s₁ s₂, s = s₁ ++ s₂ ∧ item.Denotes s₁ (s₂ ++ rest) ∧ Denotes items s₂ rest

theorem matchstar_iff {c : UInt8} {here : List UInt8 → Bool} {text : List UInt8} :
    matchstar c here text = true ↔
      ∃ s rest, text = s ++ rest ∧ (∀ x ∈ s, Fits c x) ∧ here rest = true := by
  induction text with
  | nil => simp [matchstar]
  | cons x text ih =>
    simp only [matchstar, Bool.or_eq_true, Bool.and_eq_true, decide_eq_true_eq, ih]
    constructor
    · rintro (h | ⟨hx, s, rest, rfl, hs, h⟩)
      · exact ⟨[], _, rfl, by simp, h⟩
      · refine ⟨x :: s, rest, rfl, ?_, h⟩
        rintro y (_ | hy)
        · exact hx.symm.imp_right Eq.symm
        · exact hs y ‹_›
    · rintro ⟨_ | ⟨y, s⟩, rest, heq, hs, h⟩
      · exact Or.inl (heq ▸ h)
      · obtain ⟨rfl, rfl⟩ := List.cons.inj heq
        simp only [List.mem_cons, forall_eq_or_imp] at hs
        exact Or.inr ⟨by simpa [Fits, eq_comm, or_comm] using hs.1, s, rest, rfl, hs.2, h⟩

theorem matchLoop_iff {here : List UInt8 → Bool} {text : List UInt8} :
    matchLoop here text = true ↔ ∃ before rest, text = before ++ rest ∧ here rest = true := by
  induction text with
  | nil => simp [matchLoop]
  | cons x text ih =>
    simp only [matchLoop, Bool.or_eq_true, ih]
    constructor
    · rintro (h | ⟨before, rest, rfl, h⟩)
      · exact ⟨[], _, rfl, h⟩
      · exact ⟨x :: before, rest, rfl, h⟩
    · rintro ⟨_ | ⟨y, before⟩, rest, heq, h⟩
      · exact Or.inl (heq ▸ h)
      · exact Or.inr ⟨before, rest, (List.cons.inj heq).2, h⟩

/-- **`matchhere` finds a prefix of the text that the pattern stands for**, if there is one. -/
theorem matchhere_iff (re text : List UInt8) : matchhere re text = true ↔
    ∃ s rest, text = s ++ rest ∧ Denotes (parse re) s rest := by
  -- the cases are those of the source: a dollar at the end, a last character, a star, another one
  induction re using parse.induct generalizing text with
  | case1 => exact ⟨fun _ => ⟨[], text, rfl, rfl⟩, fun _ => rfl⟩
  | case2 =>
    simp only [matchhere, parse, Denotes, Item.Denotes, if_true, List.isEmpty_iff]
    constructor
    · rintro rfl
      exact ⟨[], [], rfl, [], [], rfl, ⟨rfl, rfl⟩, rfl⟩
    · rintro ⟨s, rest, rfl, s₁, s₂, rfl, ⟨rfl, h⟩, rfl⟩
      exact h
  | case3 c hc =>
    simp only [matchhere, parse, hc, if_false, Denotes, Item.Denotes]
    cases text with
    | nil => simp
    | cons x text =>
      simp only [Bool.or_eq_true, decide_eq_true_eq]
      constructor
      · exact fun h => ⟨[x], text, rfl, [x], [], rfl, ⟨x, rfl, h⟩, rfl⟩
      · rintro ⟨s, rest, heq, s₁, s₂, rfl, ⟨y, rfl, h⟩, rfl⟩
        cases heq
        exact h
  | case4 c re ih =>
    simp only [matchhere, parse, if_true, Denotes, Item.Denotes, matchstar_iff, ih]
    constructor
    · rintro ⟨s₁, _, rfl, hs, s₂, rest, rfl, h⟩
      exact ⟨s₁ ++ s₂, rest, by simp, s₁, s₂, rfl, hs, h⟩
    · rintro ⟨_, rest, rfl, s₁, s₂, rfl, hs, h⟩
      exact ⟨s₁, s₂ ++ rest, by simp, hs, s₂, rest, rfl, h⟩
  | case5 c d re hd ih =>
    simp only [matchhere, parse, hd, if_false, Denotes, Item.Denotes]
    cases text with
    | nil => simp
    | cons x text =>
      simp only [Bool.and_eq_true, Bool.or_eq_true, decide_eq_true_eq, ih]
      constructor
      · rintro ⟨hx, s, rest, rfl, h⟩
        exact ⟨x :: s, rest, rfl, [x], s, rfl, ⟨x, rfl, hx⟩, h⟩
      · rintro ⟨s, rest, heq, s₁, s₂, rfl, ⟨y, rfl, hy⟩, h⟩
        cases heq
        exact ⟨hy, s₂, rest, rfl, h⟩

/-- **The matcher is correct.**  It finds a string that the pattern stands for anywhere in the
text, or at its beginning if the pattern starts with `^`. -/
theorem matchRe_iff (re text : List UInt8) : matchRe re text = true ↔
    if re.head? = some 94 then ∃ s rest, text = s ++ rest ∧ Denotes (parse re.tail) s rest
    else ∃ before s rest, text = before ++ s ++ rest ∧ Denotes (parse re) s rest := by
  unfold matchRe
  split
  · exact matchhere_iff re.tail text
  · simp only [matchLoop_iff, matchhere_iff]
    constructor
    · rintro ⟨before, _, rfl, s, rest, rfl, h⟩
      exact ⟨before, s, rest, by simp, h⟩
    · rintro ⟨before, s, rest, rfl, h⟩
      exact ⟨before, s ++ rest, by simp, s, rest, rfl, h⟩

/-! ### The loop over the input -/

/-- `sizeof buf`. -/
abbrev BUFSIZE : ℕ := 1024

/-- The inner loop of `grep`, from `p` on: what is written, the buffer, and `p` at the end.
A buffer has fewer lines than bytes. -/
def lineLoop (pattern : List UInt8) : ℕ → (ℕ → UInt8) → ℕ → List (List UInt8) × (ℕ → UInt8) × ℕ
  | 0, buf, p => ([], buf, p)
  | rounds + 1, buf, p =>
    match strchr buf 10 (BUFSIZE - p) p with
    | none => ([], buf, p)
    | some q =>
      let buf := update buf q 0
      if matchRe pattern (stringAt buf (BUFSIZE - p) p) then
        let buf := update buf q 10
        let (writes, rest) := lineLoop pattern rounds buf (q + 1)
        (((List.range (q + 1 - p)).map fun i => buf (p + i)) :: writes, rest)
      else lineLoop pattern rounds buf (q + 1)

/-- The outer loop.  `read` returns some of the bytes that are left, and at least one if there
are any and it is asked for any: `want k` of them at its `k`th call if it can. -/
def grepLoop (pattern : List UInt8) (want : ℕ → ℕ) :
    ℕ → ℕ → List UInt8 → (ℕ → UInt8) → ℕ → List (List UInt8)
  | 0, _, _, _, _ => []
  | rounds + 1, k, input, buf, m =>
    let n := min (BUFSIZE - m - 1) (min (max 1 (want k)) input.length)
    if n = 0 then []
    else
      let buf := put buf m (input.take n)
      let m := m + n
      let buf := update buf m 0
      let (writes, buf, p) := lineLoop pattern BUFSIZE buf 0
      let (m, buf) := if m > 0 then (m - p, blit buf p 0 (m - p) buf) else (m, buf)
      writes ++ grepLoop pattern want rounds (k + 1) (input.drop n) buf m

/-- `grep(pattern, fd)`: what is written, one list for each call of `write`. -/
def grep (pattern : List UInt8) (want : ℕ → ℕ) (input : List UInt8) : List (List UInt8) :=
  grepLoop pattern want (input.length + 1) 0 input (fun _ => 0) 0

/-- The lines that end with a newline. -/
def complete (input : List UInt8) : List (List UInt8) := (input.splitOn 10).dropLast

/-- What comes after the last newline. -/
def unended (input : List UInt8) : List UInt8 := (input.splitOn 10).getLastD []

/-- The complete lines that match, up to the first line that is too long. -/
def reported (pattern input : List UInt8) : List (List UInt8) :=
  (((complete input).takeWhile fun l => l.length ≤ 1022).filter (matchRe pattern)).map (· ++ [10])

/-- All lines that match. -/
def wanted (pattern input : List UInt8) : List (List UInt8) :=
  ((complete input).filter (matchRe pattern)).map (· ++ [10]) ++
    if unended input ≠ [] ∧ matchRe pattern (unended input) = true then [unended input] else []

section Lines

variable {pattern line input : List UInt8}

theorem reported_of_unended (h : 10 ∉ line) : reported pattern line = [] := by
  simp [reported, complete, List.splitOn_eq_singleton h]

theorem reported_line (h : 10 ∉ line) : reported pattern (line ++ 10 :: input) =
    if line.length ≤ 1022 then
      (if matchRe pattern line then [line ++ [10]] else []) ++ reported pattern input
    else [] := by
  unfold reported complete
  rw [List.splitOn_append_cons_self_of_not_mem h, List.dropLast_cons_of_ne_nil (by simp),
    List.takeWhile_cons]
  by_cases hlen : line.length ≤ 1022
  · simp only [hlen, decide_true, if_true, List.filter_cons]
    split <;> simp
  · simp [hlen]

/-- A line with 1023 bytes is too long, whatever follows. -/
theorem reported_of_long (h : 10 ∉ line) (hlen : 1022 < line.length) :
    reported pattern (line ++ input) = [] := by
  by_cases hin : 10 ∈ input
  · obtain ⟨l, rest, rfl, hl⟩ := List.eq_append_cons_of_mem hin
    rw [← List.append_assoc, reported_line (by simp [h, hl]), if_neg (by simp; omega)]
  · exact reported_of_unended (by simp [h, hin])

/-- **What the inner loop does**: it writes the lines of the buffer that match, and what is left
has no newline. -/
theorem lineLoop_spec : ∀ (rounds : ℕ) (buf : ℕ → UInt8) (p : ℕ) (l : List UInt8),
    l.length < rounds → p + l.length < BUFSIZE → 0 ∉ l → Stores buf p (l ++ [0]) →
      ∃ writes buf' p' l', lineLoop pattern rounds buf p = (writes, buf', p') ∧
        p' + l'.length = p + l.length ∧ 10 ∉ l' ∧ 0 ∉ l' ∧ Stores buf' p' l' ∧
          ∀ input, reported pattern (l ++ input) = writes ++ reported pattern (l' ++ input) := by
  have hbufsize : BUFSIZE = 1024 := rfl
  intro rounds
  induction rounds with
  | zero => intro buf p l h; omega
  | succ rounds ih =>
    intro buf p l hrounds hsize h0 hbuf
    by_cases hin : 10 ∈ l
    · obtain ⟨line, rest, rfl, hline⟩ := List.eq_append_cons_of_mem hin
      rw [List.append_assoc, List.cons_append, stores_append, Stores] at hbuf
      obtain ⟨hstore, hnl, hrest⟩ := hbuf
      simp only [List.mem_append, List.mem_cons, not_or, List.length_append,
        List.length_cons] at h0 hsize hrounds
      have hchr := hstore.strchr_some hline h0.1 hnl (by decide) (n := BUFSIZE - p) (by omega)
      generalize hq : p + line.length = q at *
      -- the line is a string while its newline is replaced
      have hcut : Stores (update buf q 0) p (line ++ [0]) := by
        refine stores_append.mpr ⟨hstore.congr fun i _ hi => ?_, ?_⟩
        · exact update_of_ne (by omega) ..
        · exact ⟨by rw [hq, update_self], trivial⟩
      have htext := hcut.stringAt h0.1 (n := BUFSIZE - p) (by omega)
      have hafter : ∀ c, Stores (update buf q c) (q + 1) (rest ++ [0]) := fun c =>
        hrest.congr fun i hi _ => update_of_ne (by omega) ..
      rw [lineLoop, hchr]
      simp only [htext, update_idem]
      by_cases hmatch : matchRe pattern line = true
      · have hwrite : Stores (update buf q 10) p (line ++ [10]) := by
          refine stores_append.mpr ⟨hstore.congr fun i _ hi => ?_, ?_⟩
          · exact update_of_ne (by omega) ..
          · exact ⟨by rw [hq, update_self], trivial⟩
        obtain ⟨writes, buf', p', l', hloop, hp', hnl', h0', hstore', hrep⟩ :=
          ih _ (q + 1) rest (by omega) (by omega) h0.2.2 (hafter 10)
        refine ⟨(line ++ [10]) :: writes, buf', p', l', ?_, by simp; omega, hnl', h0', hstore', ?_⟩
        · have hbytes := hwrite.map_range
          rw [List.length_append, List.length_singleton] at hbytes
          rw [if_pos hmatch, hloop, show q + 1 - p = line.length + 1 by omega, hbytes]
        · intro input
          rw [List.append_assoc, List.cons_append, reported_line hline, if_pos (by omega),
            if_pos hmatch, hrep]
          rfl
      · obtain ⟨writes, buf', p', l', hloop, hp', hnl', h0', hstore', hrep⟩ :=
          ih _ (q + 1) rest (by omega) (by omega) h0.2.2 (hafter 0)
        refine ⟨writes, buf', p', l', ?_, by simp; omega, hnl', h0', hstore', fun input => ?_⟩
        · rw [if_neg hmatch, hloop]
        · rw [List.append_assoc, List.cons_append, reported_line hline, if_pos (by omega),
            if_neg hmatch, hrep, List.nil_append]
    · rw [lineLoop, hbuf.strchr_none hin]
      exact ⟨[], buf, p, l, rfl, rfl, hin, h0, (stores_append.mp hbuf).1, fun input => rfl⟩

/-- What the outer loop does, with the bytes `l` of an unfinished line in the buffer. -/
theorem grepLoop_eq (want : ℕ → ℕ) : ∀ (rounds k : ℕ) (input : List UInt8) (buf : ℕ → UInt8)
    (l : List UInt8), input.length < rounds → l.length < BUFSIZE → 10 ∉ l → 0 ∉ l → 0 ∉ input →
      Stores buf 0 l →
        grepLoop pattern want rounds k input buf l.length = reported pattern (l ++ input) := by
  have hbufsize : BUFSIZE = 1024 := rfl
  intro rounds
  induction rounds with
  | zero => intro k input buf l h; omega
  | succ rounds ih =>
    intro k input buf l hrounds hsize hnl h0 hin hbuf
    rw [grepLoop]
    generalize hn : min (BUFSIZE - l.length - 1) (min (max 1 (want k)) input.length) = n
    by_cases hzero : n = 0
    · rw [if_pos hzero]
      by_cases hempty : input = []
      · rw [hempty, List.append_nil, reported_of_unended hnl]
      · have hpos := List.length_pos_iff.mpr hempty
        rw [hzero, Nat.min_eq_zero_iff, Nat.min_eq_zero_iff] at hn
        exact (reported_of_long hnl (by omega)).symm
    · rw [if_neg hzero]
      -- what was read is in the buffer, after what was there
      have htake : (input.take n).length = n := by rw [List.length_take]; omega
      have hread : Stores (update (put buf l.length (input.take n)) (l.length + n) 0) 0
          ((l ++ input.take n) ++ [0]) := by
        rw [stores_append, stores_append]
        refine ⟨⟨hbuf.congr fun i _ hi => ?_, stores_iff.mpr fun i hi => ?_⟩, ?_⟩
        · rw [update_of_ne (by omega), put_of_not_mem (by omega)]
        · rw [update_of_ne (by omega), put_of_mem (by omega)]
          rw [Nat.zero_add, Nat.add_sub_cancel_left, List.getD_eq_getElem _ _ hi]
        · refine ⟨?_, trivial⟩
          rw [List.length_append, htake, Nat.zero_add, update_self]
      obtain ⟨writes, buf', p', l', hloop, hp', hnl', h0', hstore', hrep⟩ :=
        @lineLoop_spec pattern BUFSIZE _ 0 (l ++ input.take n)
          (by rw [List.length_append, htake]; omega) (by rw [List.length_append, htake]; omega)
          (List.mem_append.not.mpr (not_or.mpr ⟨h0, fun h => hin (List.mem_of_mem_take h)⟩)) hread
      rw [List.length_append, htake] at hp'
      have hmove : Stores (blit buf' p' 0 l'.length buf') 0 l' := by
        rw [stores_iff] at hstore' ⊢
        intro i hi
        rw [blit_add hi, hstore' i hi]
      have hnext := ih (k + 1) (input.drop n) _ l' (by rw [List.length_drop]; omega) (by omega)
        hnl' h0' (fun h => hin (List.mem_of_mem_drop h)) hmove
      simp only [hloop]
      rw [if_pos (by omega), show l.length + n - p' = l'.length by omega]
      simp only [hnext, ← hrep, List.append_assoc, List.take_append_drop]

/-- **What `grep` writes**, however its input is split. -/
theorem grep_eq (want : ℕ → ℕ) (hin : 0 ∉ input) :
    grep pattern want input = reported pattern input :=
  grepLoop_eq want _ 0 input _ [] (Nat.lt_succ_self _) (by decide) (by simp) (by simp) hin trivial

/-- **`grep` writes the lines that match** if none of them is without an end, longer than 1022
bytes, or after a line that is. -/
theorem grep_wanted_iff (want : ℕ → ℕ) (hin : 0 ∉ input) :
    grep pattern want input = wanted pattern input ↔
      (∀ l ∈ (complete input).dropWhile fun l => l.length ≤ 1022, matchRe pattern l = false) ∧
        (unended input = [] ∨ matchRe pattern (unended input) = false) := by
  have hsplit : wanted pattern input = reported pattern input ++
      ((((complete input).dropWhile fun l => l.length ≤ 1022).filter (matchRe pattern)).map
        (· ++ [10]) ++ if unended input ≠ [] ∧ matchRe pattern (unended input) = true
          then [unended input] else []) := by
    rw [wanted, reported, ← List.append_assoc, ← List.map_append, ← List.filter_append,
      List.takeWhile_append_dropWhile]
  rw [grep_eq want hin, hsplit, List.self_eq_append_right]
  simp only [List.append_eq_nil_iff, List.map_eq_nil_iff, List.filter_eq_nil_iff,
    Bool.not_eq_true, ite_eq_right_iff, List.cons_ne_nil, imp_false, not_and_or, not_not]

end Lines

/-- Two lines, of which the second one matches. -/
theorem grep_wanted_twoLines : (0 : UInt8) ∉ [97, 10, 98, 10] ∧ ∀ want,
    grep [98] want [97, 10, 98, 10] = [[98, 10]] := by
  refine ⟨by decide, fun want => ?_⟩
  exact ((grep_wanted_iff want (by decide)).mpr ⟨by decide, by decide⟩).trans (by decide)

/-- **A line without an end is not written**, although it matches. -/
theorem grep_misses_line : (∀ want, grep [97] want [97] = []) ∧ wanted [97] [97] = [[97]] :=
  ⟨fun want => (grep_eq want (by decide)).trans (by decide), by decide⟩

end Xv6Ext2.Grep
