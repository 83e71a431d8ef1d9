import Mathlib.Data.Fintype.Basic
import Mathlib.Data.Nat.Digits.Defs
import Mathlib.Tactic.FinCases
import Mathlib.Tactic.IntervalCases

/-!
# `printf` in the kernel

`printint` collects the digits of a number in a buffer of 16 bytes, the last one first, and
sends them to the console.  It divides until nothing is left and does not look at the size
of the buffer, so it is right for the numbers whose text has at most 16 bytes, and writes
past its end for all others.  `%u` widens a negative `int` to one of them.

## Main definitions

* `printint`, `printptr`, `printf` — the functions of the source.  The result is what is
  sent to the console, and a write past the end of `buf` is an error.
* `text v base` — an integer as it is written by hand.
* `Conv` — the conversions of `printf` that call `printint`.

## Main results

* `printint_eq` — `printint` sends the text of its number if that has 16 bytes or fewer.
* `conversions_fit_iff` — the numbers that each conversion prints.
* `printf_overflows` — `printf("%u", -1)`.
-/

namespace Xv6Ext2.Printf

/-- What goes wrong: a write at an index past the end of `buf`, or an argument that is not
there. -/
inductive PrintErr
  | overflow (i : ℕ)
  | noArgument
  deriving DecidableEq, Repr

/-- The table `digits`. -/
def digits : List UInt8 :=
  [48, 49, 50, 51, 52, 53, 54, 55, 56, 57, 97, 98, 99, 100, 101, 102]

/-- `buf[i++] = c`, where the bytes before `i` are those written so far. -/
def push (buf : List UInt8) (c : UInt8) : Except PrintErr (List UInt8) :=
  if buf.length < 16 then .ok (buf ++ [c]) else .error (.overflow buf.length)

/-- The `do` loop of `printint`.  Each round writes a byte, so a seventeenth one does not
end. -/
def printintLoop (base : UInt64) : ℕ → UInt64 → List UInt8 → Except PrintErr (List UInt8)
  | 0, _, buf => .error (.overflow buf.length)
  | rounds + 1, x, buf => do
    let buf ← push buf (digits.getD (x % base).toNat 0)
    if x / base ≠ 0 then printintLoop base rounds (x / base) buf else return buf

/-- `printint(xx, base, sign)`. -/
def printint (xx : Int64) (base : UInt64) (sign : Bool) : Except PrintErr (List UInt8) := do
  let negative := sign && decide (xx < 0)
  let x := if negative then (-xx).toUInt64 else xx.toUInt64
  let buf ← printintLoop base 17 x []
  let buf ← if negative then push buf 45 else pure buf
  -- the last loop goes through the buffer from its end
  return buf.reverse

/-- `printptr(x)`. -/
def printptr (x : UInt64) : List UInt8 :=
  48 :: 120 :: (List.range 16).map fun i =>
    digits.getD ((x <<< UInt64.ofNat (4 * i)) >>> 60).toNat 0

/-- `va_arg(ap, int)`, from a register of 64 bits. -/
def vaInt (a : UInt64) : Int64 := a.toUInt32.toInt32.toInt64

/-- The loop of `printf`: `str` is what an address of a string stands for, and `fmt` is the
part of the format that is left.  Each round takes a byte of it at least. -/
def printfLoop (str : UInt64 → List UInt8) :
    ℕ → List UInt8 → List UInt64 → Except PrintErr (List UInt8)
  | 0, _, _ => .ok []
  | _, [], _ => .ok []
  | rounds + 1, cx :: fmt, ap =>
    if cx ≠ 37 then (printfLoop str rounds fmt ap).map (cx :: ·)
    else
      let c0 := fmt.getD 0 0
      let c1 := fmt.getD 1 0
      let c2 := fmt.getD 2 0
      -- print the next argument, and go on after `skip` bytes
      let arg (skip : ℕ) (print : UInt64 → Except PrintErr (List UInt8)) :=
        match ap with
        | [] => .error .noArgument
        | a :: ap => do return (← print a) ++ (← printfLoop str rounds (fmt.drop skip) ap)
      if c0 = 100 then arg 1 fun a => printint (vaInt a) 10 true
      else if c0 = 108 ∧ c1 = 100 then arg 2 fun a => printint a.toInt64 10 true
      else if c0 = 108 ∧ c1 = 108 ∧ c2 = 100 then arg 3 fun a => printint a.toInt64 10 true
      else if c0 = 117 then arg 1 fun a => printint (vaInt a) 10 false
      else if c0 = 108 ∧ c1 = 117 then arg 2 fun a => printint a.toInt64 10 false
      else if c0 = 108 ∧ c1 = 108 ∧ c2 = 117 then arg 3 fun a => printint a.toInt64 10 false
      else if c0 = 120 then arg 1 fun a => printint (vaInt a) 16 false
      else if c0 = 108 ∧ c1 = 120 then arg 2 fun a => printint a.toInt64 16 false
      else if c0 = 108 ∧ c1 = 108 ∧ c2 = 120 then arg 3 fun a => printint a.toInt64 16 false
      else if c0 = 112 then arg 1 fun a => .ok (printptr a)
      else if c0 = 115 then
        arg 1 fun a => .ok (if a = 0 then [40, 110, 117, 108, 108, 41] else str a)
      else if c0 = 37 then (printfLoop str rounds (fmt.drop 1) ap).map (37 :: ·)
      else if c0 = 0 then .ok []
      else (printfLoop str rounds (fmt.drop 1) ap).map ([37, c0] ++ ·)

/-- `printf(fmt, …)`. -/
def printf (str : UInt64 → List UInt8) (fmt : List UInt8) (ap : List UInt64) :
    Except PrintErr (List UInt8) :=
  printfLoop str fmt.length fmt ap

/-! ### `printint` -/

/-- The digits of a number, the first one first. -/
def digitText (base n : ℕ) : List UInt8 := (Nat.toDigits base n).map Char.toUInt8

/-- An integer as it is written by hand. -/
def text (v : ℤ) (base : ℕ) : List UInt8 :=
  (if v < 0 then [45] else []) ++ digitText base v.natAbs

/-- The number that `printint` is called with. -/
def value (xx : Int64) (sign : Bool) : ℤ := if sign then xx.toInt else xx.toUInt64.toNat

theorem getD_digits {d : ℕ} (h : d < 16) : digits.getD d 0 = d.digitChar.toUInt8 := by
  interval_cases d <;> rfl

theorem length_digitText {base n k : ℕ} (hbase : 1 < base) (hk : 0 < k) :
    (digitText base n).length ≤ k ↔ n < base ^ k := by
  rw [digitText, List.length_map, Nat.length_toDigits_le_iff hbase hk]

theorem push_eq {buf : List UInt8} (hbuf : buf.length ≤ 16) (c : UInt8) :
    push buf c = if buf.length + 1 ≤ 16 then .ok (buf ++ [c]) else .error (.overflow 16) := by
  unfold push
  split <;> split <;> simp <;> omega

/-- The digits are written as long as there is room for all of them. -/
theorem printintLoop_eq {base : UInt64} (hlow : 1 < base.toNat) (hhigh : base.toNat ≤ 16) :
    ∀ (rounds : ℕ) (x : UInt64) (buf : List UInt8), buf.length ≤ 16 → 16 < rounds + buf.length →
      printintLoop base rounds x buf =
        if buf.length + (digitText base.toNat x.toNat).length ≤ 16 then
          .ok (buf ++ (digitText base.toNat x.toNat).reverse)
        else .error (.overflow 16) := by
  intro rounds
  induction rounds with
  | zero =>
    intro x buf hbuf hrounds
    omega
  | succ rounds ih =>
    intro x buf hbuf hrounds
    have hdigit : digits.getD (x % base).toNat 0 =
        (x.toNat % base.toNat).digitChar.toUInt8 := by
      rw [UInt64.toNat_mod]
      exact getD_digits (lt_of_lt_of_le (Nat.mod_lt _ (by omega)) hhigh)
    have hzero : x / base = 0 ↔ x.toNat < base.toNat := by
      rw [← UInt64.toNat_inj, UInt64.toNat_div, UInt64.toNat_zero, Nat.div_eq_zero_iff]
      omega
    rw [printintLoop, hdigit, push_eq hbuf]
    by_cases hlast : x.toNat < base.toNat
    · simp only [ne_eq, hzero, hlast, not_true, if_false, digitText, Nat.mod_eq_of_lt hlast,
        Nat.toDigits_of_lt_base hlast, List.map_cons, List.map_nil, List.length_singleton,
        List.reverse_singleton]
      by_cases hroom : buf.length + 1 ≤ 16
      · simp only [hroom, if_true]
        rfl
      · simp only [hroom, if_false]
        rfl
    · have hdigits : digitText base.toNat x.toNat = digitText base.toNat (x / base).toNat ++
          [(x.toNat % base.toNat).digitChar.toUInt8] := by
        rw [UInt64.toNat_div, digitText, Nat.toDigits_of_base_le hlow (by omega), List.map_append]
        rfl
      rw [hdigits]
      by_cases hroom : buf.length + 1 ≤ 16
      · simp only [hroom, if_true, ne_eq, hzero, hlast, not_false_eq_true]
        refine (ih _ _ (by simpa using hroom) (by simp; omega)).trans ?_
        simp [add_assoc, add_comm 1]
      · rw [if_neg hroom, if_neg (by simp; omega)]
        rfl

theorem natAbs_value (xx : Int64) (sign : Bool) :
    (if (sign && decide (xx < 0)) = true then (-xx).toUInt64 else xx.toUInt64).toNat =
      (value xx sign).natAbs ∧ ((sign && decide (xx < 0)) = true ↔ value xx sign < 0) := by
  have hint := xx.toBitVec.toInt_eq_toNat_cond
  have hneg := xx.toBitVec.toNat_neg
  have hlt := xx.toBitVec.isLt
  have hcast : xx.toInt = xx.toBitVec.toInt := rfl
  cases sign with
  | false => simp [value]
  | true =>
    have hbits : (-xx).toUInt64.toNat = (-xx.toBitVec).toNat := rfl
    have hbits' : xx.toUInt64.toNat = xx.toBitVec.toNat := rfl
    simp only [Bool.true_and, decide_eq_true_eq, Int64.lt_iff_toInt_lt, value, if_true,
      Int64.toInt_zero, and_true]
    split <;> omega

/-- **What `printint` does.** -/
theorem printint_eq (xx : Int64) {base : UInt64} (sign : Bool) (hlow : 1 < base.toNat)
    (hhigh : base.toNat ≤ 16) : printint xx base sign =
      if (text (value xx sign) base.toNat).length ≤ 16 then .ok (text (value xx sign) base.toNat)
      else .error (.overflow 16) := by
  obtain ⟨habs, hneg⟩ := natAbs_value xx sign
  unfold printint text
  dsimp only
  generalize (if (sign && decide (xx < 0)) = true then (-xx).toUInt64 else xx.toUInt64) = x at *
  generalize (sign && decide (xx < 0)) = negative at *
  rw [printintLoop_eq hlow hhigh 17 x [] (by simp) (by simp), habs, List.length_nil, zero_add]
  generalize digitText base.toNat (value xx sign).natAbs = ds
  by_cases hfit : ds.length ≤ 16
  · cases negative with
    | false =>
      simp [← hneg, hfit, bind, Except.bind, pure, Except.pure]
    | true =>
      have hpush := @push_eq ds.reverse (by simpa using hfit) 45
      rw [if_pos hfit, if_pos (hneg.mp rfl)]
      simp only [bind, Except.bind, if_true, List.nil_append, hpush]
      by_cases hroom : ds.length + 1 ≤ 16 <;> simp [hroom, pure, Except.pure]
  · rw [if_neg hfit, if_neg (by simp; omega)]
    rfl

/-! ### The conversions -/

/-- What a conversion ends with. -/
inductive Kind
  | d | u | x
  deriving DecidableEq, Repr

def Kind.letter : Kind → UInt8
  | .d => 100
  | .u => 117
  | .x => 120

scoped instance (priority := 2000) neZero_longs : NeZero 3 := ⟨by decide⟩

/-- A conversion that prints a number: `%d`, `%u` or `%x`, with none, one or two `l`. -/
structure Conv where
  longs : Fin 3
  kind : Kind

namespace Conv

/-- The conversion in a format. -/
def spelling (c : Conv) : List UInt8 :=
  [37] ++ List.replicate c.longs 108 ++ [c.kind.letter]

/-- The argument that `printint` gets. -/
def widened (c : Conv) (a : UInt64) : Int64 := if c.longs = 0 then vaInt a else a.toInt64

def base (c : Conv) : UInt64 := if c.kind = .x then 16 else 10

def signed (c : Conv) : Bool := c.kind = .d

end Conv

/-- `printf` with one conversion is a call of `printint`. -/
theorem printf_conv (str : UInt64 → List UInt8) (c : Conv) (a : UInt64) :
    printf str c.spelling [a] = printint (c.widened a) c.base c.signed := by
  have hpure : ∀ m : Except PrintErr (List UInt8),
      (do return (← m) ++ (← Except.ok [])) = m := by
    rintro (e | out)
    · rfl
    · exact congrArg Except.ok (List.append_nil out)
  obtain ⟨longs, kind⟩ := c
  fin_cases longs <;> cases kind <;> exact hpure _

/-- **A number is printed, within the buffer, if its text has 16 bytes at most**: so are all
hexadecimal numbers, and decimal ones of 16 digits, or 15 and a sign. -/
theorem conversions_fit_iff (str : UInt64 → List UInt8) (c : Conv) (a : UInt64) :
    printf str c.spelling [a] = printint (c.widened a) c.base c.signed ∧
      (printint (c.widened a) c.base c.signed =
          .ok (text (value (c.widened a) c.signed) c.base.toNat) ↔
        c.kind = .x ∨ -10 ^ 15 < value (c.widened a) c.signed ∧
          value (c.widened a) c.signed < 10 ^ 16) := by
  refine ⟨printf_conv str c a, ?_⟩
  have hbase : 1 < c.base.toNat ∧ c.base.toNat ≤ 16 := by
    unfold Conv.base
    split <;> decide
  rw [printint_eq _ _ hbase.1 hbase.2]
  have hfits : (text (value (c.widened a) c.signed) c.base.toNat).length ≤ 16 ↔
      c.kind = .x ∨ -10 ^ 15 < value (c.widened a) c.signed ∧
        value (c.widened a) c.signed < 10 ^ 16 := by
    by_cases hx : c.kind = .x
    · -- sixteen hexadecimal digits are enough for 64 bits
      have hval : value (c.widened a) c.signed = (c.widened a).toUInt64.toNat := by
        simp [value, Conv.signed, hx]
      have hlt := (c.widened a).toUInt64.toNat_lt
      simp only [hx, true_or, iff_true, hval, text, Conv.base, if_true, Int.natAbs_natCast,
        not_lt.mpr (Int.natCast_nonneg _), if_false, List.nil_append]
      rw [length_digitText (by decide) (by decide)]
      exact hlt
    · generalize value (c.widened a) c.signed = v
      simp only [hx, false_or, text, Conv.base, if_false, UInt64.toNat_ofNat]
      by_cases hneg : v < 0
      · have hlen := @length_digitText 10 v.natAbs 15 (by decide) (by decide)
        simp only [hneg, if_true, List.length_append, List.length_singleton]
        norm_num at hlen ⊢
        omega
      · have hlen := @length_digitText 10 v.natAbs 16 (by decide) (by decide)
        simp only [hneg, if_false, List.nil_append]
        norm_num at hlen ⊢
        omega
  rw [← hfits]
  split <;> simp_all

/-- **`printf("%u", -1)`** widens its argument to 64 bits, and the number has 20 digits. -/
theorem printf_overflows : printf (fun _ => []) [37, 117] [0xffffffff] = .error (.overflow 16) ∧
    printint (vaInt 0xffffffff) 10 false = .error (.overflow 16) := by
  decide

end Xv6Ext2.Printf
