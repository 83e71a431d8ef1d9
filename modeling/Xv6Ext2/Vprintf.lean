import Mathlib.Algebra.Order.BigOperators.Group.List
import Xv6Ext2.Printf

/-!
# `vprintf` in user space

The user library has its own `printf`.  It takes every number as an `int`, where the kernel
takes every number as a `long`, so the two go wrong at different places: the kernel widens
the argument of `%u` and `%x` with its sign, and the user library cuts the argument of the
conversions with `l` to 32 bits.

## Main definitions

* `User.printint`, `User.printptr`, `User.vprintf` — the functions of the user library.
* `Piece` — what a format is built from, with its arguments.
* `Piece.text` — the text that a piece stands for.
* `Conv.Fits` — the arguments that both print as they should.

## Main results

* `readBack_text` — the text of a number can be read back.
* `printfLoop_format`, `vprintfLoop_format` — a format is printed piece by piece.
* `kernel_right`, `user_right` — a format that is printed right tells the numbers taken.
* `prints_agree_iff` — both print a format right if and only if all its pieces fit.
-/

namespace Xv6Ext2.Printf

/-! ### The source functions -/

namespace User

/-- The table `digits`. -/
def digits : List UInt8 :=
  [48, 49, 50, 51, 52, 53, 54, 55, 56, 57, 65, 66, 67, 68, 69, 70]

/-- The `do` loop of `printint`. -/
def printintLoop (base : UInt32) : ℕ → UInt32 → List UInt8 → Except PrintErr (List UInt8)
  | 0, _, buf => .error (.overflow buf.length)
  | rounds + 1, x, buf => do
    let buf ← push buf (digits.getD (x % base).toNat 0)
    if x / base ≠ 0 then printintLoop base rounds (x / base) buf else return buf

/-- `printint(fd, xx, base, sgn)`. -/
def printint (xx : Int32) (base : UInt32) (sgn : Bool) : Except PrintErr (List UInt8) := do
  let neg := sgn && decide (xx < 0)
  let x := if neg then (-xx).toUInt32 else xx.toUInt32
  let buf ← printintLoop base 17 x []
  let buf ← if neg then push buf 45 else pure buf
  return buf.reverse

/-- `printptr(fd, x)`. -/
def printptr (x : UInt64) : List UInt8 :=
  48 :: 120 :: (List.range 16).map fun i =>
    digits.getD ((x <<< UInt64.ofNat (4 * i)) >>> 60).toNat 0

/-- An argument as an `int`: as `va_arg` returns it, or as a `uint64` is passed on. -/
def vaInt (a : UInt64) : Int32 := a.toUInt32.toInt32

/-- The loop of `vprintf`: `percent` says that the state is `'%'`, and `fmt` is the part of
the format that is left. -/
def vprintfLoop (str : UInt64 → List UInt8) :
    ℕ → Bool → List UInt8 → List UInt64 → Except PrintErr (List UInt8)
  | 0, _, _, _ => .ok []
  | _, _, [], _ => .ok []
  | rounds + 1, false, c0 :: fmt, ap =>
    if c0 = 37 then vprintfLoop str rounds true fmt ap
    else (vprintfLoop str rounds false fmt ap).map (c0 :: ·)
  | rounds + 1, true, c0 :: fmt, ap =>
    let c1 := fmt.getD 0 0
    let c2 := if c1 ≠ 0 then fmt.getD 1 0 else 0
    -- print the next argument, and go on after `skip` more bytes
    let arg (skip : ℕ) (print : UInt64 → Except PrintErr (List UInt8)) :=
      match ap with
      | [] => .error .noArgument
      | a :: ap => do return (← print a) ++ (← vprintfLoop str rounds false (fmt.drop skip) ap)
    if c0 = 100 then arg 0 fun a => printint (vaInt a) 10 true
    else if c0 = 108 ∧ c1 = 100 then arg 1 fun a => printint (vaInt a) 10 true
    else if c0 = 108 ∧ c1 = 108 ∧ c2 = 100 then arg 2 fun a => printint (vaInt a) 10 true
    else if c0 = 117 then arg 0 fun a => printint (vaInt a) 10 false
    else if c0 = 108 ∧ c1 = 117 then arg 1 fun a => printint (vaInt a) 10 false
    else if c0 = 108 ∧ c1 = 108 ∧ c2 = 117 then arg 2 fun a => printint (vaInt a) 10 false
    else if c0 = 120 then arg 0 fun a => printint (vaInt a) 16 false
    else if c0 = 108 ∧ c1 = 120 then arg 1 fun a => printint (vaInt a) 16 false
    else if c0 = 108 ∧ c1 = 108 ∧ c2 = 120 then arg 2 fun a => printint (vaInt a) 16 false
    else if c0 = 112 then arg 0 fun a => .ok (printptr a)
    else if c0 = 115 then
      arg 0 fun a => .ok (if a = 0 then [40, 110, 117, 108, 108, 41] else str a)
    else if c0 = 37 then (vprintfLoop str rounds false fmt ap).map (37 :: ·)
    else (vprintfLoop str rounds false fmt ap).map ([37, c0] ++ ·)

/-- `vprintf(fd, fmt, ap)`. -/
def vprintf (str : UInt64 → List UInt8) (fmt : List UInt8) (ap : List UInt64) :
    Except PrintErr (List UInt8) :=
  vprintfLoop str fmt.length false fmt ap

end User

/-! ### Texts of numbers -/

/-- The hexadecimal digit in upper case. -/
def upper (c : UInt8) : UInt8 := if 97 ≤ c ∧ c ≤ 102 then c - 32 else c

/-- The value of a digit, in either case. -/
def digitOf (c : UInt8) : ℕ :=
  if c ≤ 57 then c.toNat - 48 else if c ≤ 70 then c.toNat - 55 else c.toNat - 87

/-- The number that a text stands for. -/
def readBack (base : ℕ) (l : List UInt8) : ℤ :=
  if l.head? = some 45 then -(l.tail.foldl (fun n c => n * base + digitOf c) 0 : ℕ)
  else (l.foldl (fun n c => n * base + digitOf c) 0 : ℕ)

/-- A way to write the digits from which their values can be told. -/
structure Lettering (f : UInt8 → UInt8) : Prop where
  dash : f 45 = 45
  digit : ∀ d < 16, f d.digitChar.toUInt8 ≠ 45 ∧ digitOf (f d.digitChar.toUInt8) = d

theorem lettering_id : Lettering id :=
  ⟨rfl, by decide⟩

theorem lettering_upper : Lettering upper :=
  ⟨rfl, by decide⟩

theorem digitText_of_lt {base n : ℕ} (h : n < base) :
    digitText base n = [n.digitChar.toUInt8] := by
  rw [digitText, Nat.toDigits_of_lt_base h]
  rfl

theorem digitText_of_le {base n : ℕ} (hbase : 1 < base) (h : base ≤ n) :
    digitText base n = digitText base (n / base) ++ [(n % base).digitChar.toUInt8] := by
  rw [digitText, Nat.toDigits_of_base_le hbase h, List.map_append]
  rfl

theorem foldl_digitText {f : UInt8 → UInt8} (hf : Lettering f) {base : ℕ} (hlow : 1 < base)
    (hhigh : base ≤ 16) (n : ℕ) :
    ((digitText base n).map f).foldl (fun n c => n * base + digitOf c) 0 = n ∧
      ∀ c ∈ (digitText base n).map f, c ≠ 45 := by
  induction n using Nat.strong_induction_on with
  | _ n ih =>
    by_cases hlt : n < base
    · have hdigit := hf.digit n (by omega)
      simp [digitText_of_lt hlt, hdigit.1, hdigit.2]
    · have hmod := Nat.mod_lt n (by omega : base > 0)
      have hdigit := hf.digit (n % base) (by omega)
      obtain ⟨hvalue, hdash⟩ := ih (n / base) (Nat.div_lt_self (by omega) hlow)
      rw [digitText_of_le hlow (by omega), List.map_append, List.foldl_append, hvalue]
      refine ⟨?_, fun c hc => ?_⟩
      · simp only [List.map_cons, List.map_nil, List.foldl_cons, List.foldl_nil, hdigit.2]
        exact Nat.div_add_mod' n base
      · rcases List.mem_append.mp hc with hc | hc
        · exact hdash c hc
        · rw [List.mem_singleton.mp hc]
          exact hdigit.1

theorem digitText_map_inj {f : UInt8 → UInt8} (hf : Lettering f) {base : ℕ} (hlow : 1 < base)
    (hhigh : base ≤ 16) {n m : ℕ} (h : (digitText base n).map f = (digitText base m).map f) :
    n = m := by
  rw [← (foldl_digitText hf hlow hhigh n).1, h, (foldl_digitText hf hlow hhigh m).1]

/-- **The text of a number can be read back.** -/
theorem readBack_text {f : UInt8 → UInt8} (hf : Lettering f) {base : ℕ} (hlow : 1 < base)
    (hhigh : base ≤ 16) (v : ℤ) : readBack base ((text v base).map f) = v := by
  obtain ⟨hvalue, hdash⟩ := foldl_digitText hf hlow hhigh v.natAbs
  unfold readBack text
  by_cases hneg : v < 0
  · simp only [hneg, if_true, List.map_cons, hf.dash, List.singleton_append, List.head?_cons,
      List.tail_cons, hvalue]
    omega
  · have hhead : ((digitText base v.natAbs).map f).head? ≠ some 45 := fun h =>
      hdash 45 (List.mem_of_head? h) rfl
    simp only [hneg, if_false, List.nil_append, if_neg hhead, hvalue]
    omega

theorem text_map_inj {f : UInt8 → UInt8} (hf : Lettering f) {base : ℕ} (hlow : 1 < base)
    (hhigh : base ≤ 16) {v w : ℤ} : (text v base).map f = (text w base).map f ↔ v = w := by
  refine ⟨fun h => ?_, fun h => by rw [h]⟩
  rw [← readBack_text hf hlow hhigh v, h, readBack_text hf hlow hhigh]

/-! ### `printint` of the user library -/

theorem getD_userDigits {d : ℕ} (h : d < 16) : User.digits.getD d 0 = upper (digits.getD d 0) := by
  interval_cases d <;> rfl

/-- The loop writes what the kernel's writes, in upper case. -/
theorem userLoop_eq {base : UInt32} (hlow : 0 < base.toNat) (hhigh : base.toNat ≤ 16) :
    ∀ (rounds : ℕ) (x : UInt32) (buf : List UInt8),
      User.printintLoop base rounds x (buf.map upper) =
        (printintLoop base.toUInt64 rounds x.toUInt64 buf).map (List.map upper) := by
  intro rounds
  induction rounds with
  | zero =>
    intro x buf
    simp [User.printintLoop, printintLoop, Except.map]
  | succ rounds ih =>
    intro x buf
    have hmod : (x.toUInt64 % base.toUInt64).toNat = (x % base).toNat := by simp
    have hdiv : x.toUInt64 / base.toUInt64 = (x / base).toUInt64 := by
      rw [← UInt64.toNat_inj]
      simp
    have hzero : (x / base).toUInt64 = 0 ↔ x / base = 0 := by
      rw [← UInt64.toNat_inj, ← UInt32.toNat_inj]
      simp
    have hlt : (x % base).toNat < 16 := by
      rw [UInt32.toNat_mod]
      exact lt_of_lt_of_le (Nat.mod_lt _ hlow) hhigh
    have hpush : push (buf.map upper) (User.digits.getD (x % base).toNat 0) =
        (push buf (digits.getD (x % base).toNat 0)).map (List.map upper) := by
      rw [getD_userDigits hlt, push, push, List.length_map]
      split <;> simp [Except.map]
    rw [User.printintLoop, printintLoop, hpush, hmod, hdiv]
    cases push buf (digits.getD (x % base).toNat 0) with
    | error e => rfl
    | ok buf =>
      show (if x / base ≠ 0 then User.printintLoop base rounds (x / base) (buf.map upper)
          else .ok (buf.map upper)) =
        (if (x / base).toUInt64 ≠ 0 then printintLoop base.toUInt64 rounds (x / base).toUInt64 buf
          else .ok buf).map (List.map upper)
      by_cases h : x / base = 0
      · rw [if_neg (not_not.mpr h), if_neg (not_not.mpr (hzero.mpr h))]
        rfl
      · rw [if_pos h, if_pos fun h0 => h (hzero.mp h0), ih]

/-- The number that the user library's `printint` is called with. -/
def User.value (xx : Int32) (sgn : Bool) : ℤ := if sgn then xx.toInt else xx.toUInt32.toNat

theorem User.natAbs_value (xx : Int32) (sgn : Bool) :
    (if (sgn && decide (xx < 0)) = true then (-xx).toUInt32 else xx.toUInt32).toNat =
      (User.value xx sgn).natAbs ∧ ((sgn && decide (xx < 0)) = true ↔ User.value xx sgn < 0) := by
  have hint := xx.toBitVec.toInt_eq_toNat_cond
  have hneg := xx.toBitVec.toNat_neg
  have hlt := xx.toBitVec.isLt
  have hcast : xx.toInt = xx.toBitVec.toInt := rfl
  cases sgn with
  | false => simp [User.value]
  | true =>
    have hbits : (-xx).toUInt32.toNat = (-xx.toBitVec).toNat := rfl
    have hbits' : xx.toUInt32.toNat = xx.toBitVec.toNat := rfl
    simp only [Bool.true_and, decide_eq_true_eq, Int32.lt_iff_toInt_lt, User.value, if_true,
      Int32.toInt_zero, and_true]
    split <;> omega

/-- **What `printint` of the user library does**: 32 bits always fit the buffer. -/
theorem User.printint_eq (xx : Int32) {base : UInt32} (sgn : Bool) (hlow : 10 ≤ base.toNat)
    (hhigh : base.toNat ≤ 16) :
    User.printint xx base sgn = .ok ((text (User.value xx sgn) base.toNat).map upper) := by
  obtain ⟨habs, hneg⟩ := User.natAbs_value xx sgn
  unfold User.printint text
  dsimp only
  generalize (if (sgn && decide (xx < 0)) = true then (-xx).toUInt32 else xx.toUInt32) = x at *
  generalize (sgn && decide (xx < 0)) = neg at *
  have hbase : base.toUInt64.toNat = base.toNat := by simp
  have hx : x.toUInt64.toNat = x.toNat := by simp
  have hlen : (digitText base.toNat x.toNat).length ≤ 10 := by
    rw [length_digitText (by omega) (by decide)]
    calc x.toNat < 2 ^ 32 := x.toNat_lt
      _ ≤ 10 ^ 10 := by norm_num
      _ ≤ base.toNat ^ 10 := Nat.pow_le_pow_left hlow 10
  have hloop : User.printintLoop base 17 x [] =
      .ok ((digitText base.toNat x.toNat).map upper).reverse := by
    have hsame := userLoop_eq (by omega) hhigh 17 x []
    rw [printintLoop_eq (by omega) (by omega) 17 _ [] (by simp) (by simp), hbase, hx,
      if_pos (by simp; omega)] at hsame
    simpa [Except.map] using hsame
  rw [hloop, ← habs]
  cases neg with
  | false => simp [← hneg, bind, Except.bind, pure, Except.pure]
  | true =>
    have hroom : (digitText base.toNat x.toNat).length < 16 := by omega
    simp [hneg.mp rfl, bind, Except.bind, pure, Except.pure, push, hroom]
    rfl

/-! ### Pieces of formats -/

/-- A piece of a format, with its argument: a byte of literal text, `%%`, a conversion of a
number, `%p` or `%s`. -/
inductive Piece
  | lit (c : UInt8) (h : c ≠ 0 ∧ c ≠ 37)
  | percent
  | conv (c : Conv) (a : UInt64)
  | ptr (a : UInt64)
  | str (a : UInt64)

/-- The number that an argument is, by the rules of C. -/
def Conv.number (c : Conv) (a : UInt64) : ℤ :=
  if c.longs = 0 then (if c.kind = .d then a.toUInt32.toInt32.toInt else a.toUInt32.toNat)
  else if c.kind = .d then a.toInt64.toInt else a.toNat

namespace Piece

variable (s : UInt64 → List UInt8)

def spelling : Piece → List UInt8
  | lit c _ => [c]
  | percent => [37, 37]
  | conv c _ => c.spelling
  | ptr _ => [37, 112]
  | str _ => [37, 115]

def args : Piece → List UInt64
  | lit .. | percent => []
  | conv _ a | ptr a | str a => [a]

/-- The text that a piece stands for, with its hexadecimal digits in the case of `f`. -/
def text (f : UInt8 → UInt8) : Piece → List UInt8
  | lit c _ => [c]
  | percent => [37]
  | conv c a => (Printf.text (c.number a) c.base.toNat).map f
  | ptr a => [48, 120] ++
    ((List.range 16).map fun i => (a.toNat / 16 ^ (15 - i) % 16).digitChar.toUInt8).map f
  | str a => if a = 0 then [40, 110, 117, 108, 108, 41] else s a

/-- What the kernel prints for a piece. -/
def kernel : Piece → Except PrintErr (List UInt8)
  | lit c _ => .ok [c]
  | percent => .ok [37]
  | conv c a => printint (c.widened a) c.base c.signed
  | ptr a => .ok (printptr a)
  | str a => .ok (if a = 0 then [40, 110, 117, 108, 108, 41] else s a)

/-- What the user library prints for a piece. -/
def user : Piece → Except PrintErr (List UInt8)
  | lit c _ => .ok [c]
  | percent => .ok [37]
  | conv c a => User.printint (User.vaInt a) c.base.toUInt32 c.signed
  | ptr a => .ok (User.printptr a)
  | str a => .ok (if a = 0 then [40, 110, 117, 108, 108, 41] else s a)

end Piece

/-- The format built from pieces. -/
def format (ps : List Piece) : List UInt8 := ps.flatMap Piece.spelling

/-- The arguments for the format. -/
def arguments (ps : List Piece) : List UInt64 := ps.flatMap Piece.args

/-- Print one thing after the other. -/
def printAll : List (Except PrintErr (List UInt8)) → Except PrintErr (List UInt8)
  | [] => .ok []
  | m :: ms => do return (← m) ++ (← printAll ms)

theorem printAll_ok_cons (l : List UInt8) (ms : List (Except PrintErr (List UInt8))) :
    printAll (.ok l :: ms) = (printAll ms).map (l ++ ·) := by
  show (do return l ++ (← printAll ms)) = _
  cases printAll ms <;> rfl

variable (str : UInt64 → List UInt8)

/-- **The kernel prints a format piece by piece.** -/
theorem printfLoop_format (ps : List Piece) : ∀ rounds, (format ps).length ≤ rounds →
    printfLoop str rounds (format ps) (arguments ps) = printAll (ps.map (Piece.kernel str)) := by
  induction ps with
  | nil => exact fun rounds _ => by cases rounds <;> rfl
  | cons p ps ih =>
    intro rounds hrounds
    have hcons : format (p :: ps) = p.spelling ++ format ps := rfl
    have hspell : 0 < p.spelling.length := by
      cases p <;> simp [Piece.spelling, Conv.spelling]
    rw [hcons, List.length_append] at hrounds
    obtain ⟨r, rfl⟩ : ∃ r, rounds = r + 1 := ⟨rounds - 1, by omega⟩
    have hrest := ih r (by omega)
    cases p with
    | lit c h =>
      rw [List.map_cons, Piece.kernel, printAll_ok_cons, ← hrest]
      exact if_pos h.2
    | percent =>
      rw [List.map_cons, Piece.kernel, printAll_ok_cons, ← hrest]
      rfl
    | conv c a =>
      rw [List.map_cons, printAll, ← hrest]
      obtain ⟨longs, kind⟩ := c
      fin_cases longs <;> cases kind <;> rfl
    | ptr a =>
      rw [List.map_cons, printAll, ← hrest]
      rfl
    | str a =>
      rw [List.map_cons, printAll, ← hrest]
      rfl

/-- **The user library prints a format piece by piece.** -/
theorem vprintfLoop_format (ps : List Piece) : ∀ rounds, (format ps).length ≤ rounds →
    User.vprintfLoop str rounds false (format ps) (arguments ps) =
      printAll (ps.map (Piece.user str)) := by
  induction ps with
  | nil => exact fun rounds _ => by cases rounds <;> rfl
  | cons p ps ih =>
    intro rounds hrounds
    have hcons : format (p :: ps) = p.spelling ++ format ps := rfl
    rw [hcons, List.length_append] at hrounds
    cases p with
    | lit c h =>
      have hlen : (Piece.lit c h).spelling.length = 1 := rfl
      obtain ⟨r, rfl⟩ : ∃ r, rounds = r + 1 := ⟨rounds - 1, by omega⟩
      rw [List.map_cons, Piece.user, printAll_ok_cons, ← ih r (by omega)]
      exact if_neg h.2
    | percent =>
      have hlen : Piece.percent.spelling.length = 2 := rfl
      obtain ⟨r, rfl⟩ : ∃ r, rounds = r + 2 := ⟨rounds - 2, by omega⟩
      rw [List.map_cons, Piece.user, printAll_ok_cons, ← ih r (by omega)]
      rfl
    | conv c a =>
      have hlen : (Piece.conv c a).spelling.length = c.longs + 2 := by
        simp [Piece.spelling, Conv.spelling]
      obtain ⟨r, rfl⟩ : ∃ r, rounds = r + 2 := ⟨rounds - 2, by omega⟩
      rw [List.map_cons, printAll, ← ih r (by omega)]
      obtain ⟨longs, kind⟩ := c
      fin_cases longs <;> cases kind <;> rfl
    | ptr a =>
      have hlen : (Piece.ptr a).spelling.length = 2 := rfl
      obtain ⟨r, rfl⟩ : ∃ r, rounds = r + 2 := ⟨rounds - 2, by omega⟩
      rw [List.map_cons, printAll, ← ih r (by omega)]
      rfl
    | str a =>
      have hlen : (Piece.str a).spelling.length = 2 := rfl
      obtain ⟨r, rfl⟩ : ∃ r, rounds = r + 2 := ⟨rounds - 2, by omega⟩
      rw [List.map_cons, printAll, ← ih r (by omega)]
      rfl

/-! ### The arguments that fit -/

/-- The arguments that both print as they should: the kernel widens the sign bit of an
`unsigned`, and the user library keeps 32 bits of a `long`. -/
def Conv.Fits (c : Conv) (a : UInt64) : Prop :=
  if c.longs = 0 then c.kind = .d ∨ a.toNat % 2 ^ 32 < 2 ^ 31
  else if c.kind = .d then -2 ^ 31 ≤ a.toInt64.toInt ∧ a.toInt64.toInt < 2 ^ 31
  else a.toNat < 2 ^ 32

def Piece.Fits : Piece → Prop
  | .conv c a => c.Fits a
  | _ => True

/-- A register read as an `int`. -/
theorem toInt_vaInt (a : UInt64) : (User.vaInt a).toInt =
    if a.toNat % 2 ^ 32 < 2 ^ 31 then (a.toNat : ℤ) % 2 ^ 32
    else (a.toNat : ℤ) % 2 ^ 32 - 2 ^ 32 := by
  have hbits : (User.vaInt a).toBitVec.toNat = a.toNat % 2 ^ 32 := by
    simp [User.vaInt]
  have hint := (User.vaInt a).toBitVec.toInt_eq_toNat_cond
  have hcast : (User.vaInt a).toInt = (User.vaInt a).toBitVec.toInt := rfl
  rw [hcast, hint, hbits]
  split <;> split <;> omega

/-- The number that C asks for, and the numbers `v` and `w` that the two take instead. -/
structure Taken (fits : Prop) (n v w : ℤ) : Prop where
  fits_iff : fits ↔ v = n ∧ w = n
  kernel : v = n ∨ 0 ≤ n ∧ n ≤ v
  user : w.natAbs ≤ n.natAbs
  sign : w = -n → n < 0 → w = n

/-- The kernel takes a number that is not below the right one, and the user library one that
is not above it in size. -/
theorem Conv.taken (c : Conv) (a : UInt64) : Taken (c.Fits a) (c.number a)
    (value (c.widened a) c.signed) (User.value (User.vaInt a) c.signed) := by
  have hint := toInt_vaInt a
  have hlow : a.toUInt32.toNat = a.toNat % 2 ^ 32 := by simp
  have huser : (User.vaInt a).toUInt32.toNat = a.toNat % 2 ^ 32 := by
    rw [← hlow]
    rfl
  have hwide : (vaInt a).toInt = (User.vaInt a).toInt := by simp [vaInt, User.vaInt]
  have hcond := (vaInt a).toBitVec.toInt_eq_toNat_cond
  have hcast : (vaInt a).toInt = (vaInt a).toBitVec.toInt := rfl
  have hbits : (vaInt a).toUInt64.toNat = (vaInt a).toBitVec.toNat := rfl
  have hmod : a.toNat % 2 ^ 32 < 2 ^ 32 := Nat.mod_lt _ (by norm_num)
  have hlong : a.toInt64.toUInt64.toNat = a.toNat := rfl
  have hsigned : a.toUInt32.toInt32.toInt = (User.vaInt a).toInt := rfl
  have hcond' := a.toInt64.toBitVec.toInt_eq_toNat_cond
  have hcast' : a.toInt64.toInt = a.toInt64.toBitVec.toInt := rfl
  have hbits' : a.toInt64.toBitVec.toNat = a.toNat := rfl
  have hlt := (vaInt a).toBitVec.isLt
  have hlt' := a.toNat_lt
  obtain ⟨longs, kind⟩ := c
  unfold Conv.Fits Conv.widened Conv.number Conv.signed value User.value
  by_cases h0 : longs = 0 <;> cases kind <;> simp only [h0, if_true, if_false, reduceCtorEq,
    decide_true, decide_false, true_or, false_or, Bool.false_eq_true, eq_self] <;>
    refine ⟨?_, ?_, ?_, ?_⟩ <;> (try simp only [eq_self, true_or, true_iff, true_and]) <;> omega

theorem nibble (a : UInt64) {i : ℕ} (hi : i < 16) :
    ((a <<< UInt64.ofNat (4 * i)) >>> 60).toNat = a.toNat / 16 ^ (15 - i) % 16 := by
  have hlt := a.toNat_lt
  interval_cases i <;>
    simp [UInt64.toNat_shiftLeft, UInt64.toNat_shiftRight, Nat.shiftLeft_eq,
      Nat.shiftRight_eq_div_pow] <;> omega

theorem printptr_eq (a : UInt64) : printptr a = (Piece.ptr a).text str id ∧
    User.printptr a = (Piece.ptr a).text str upper := by
  have hdigit : ∀ i ∈ List.range 16, digits.getD ((a <<< UInt64.ofNat (4 * i)) >>> 60).toNat 0 =
      (a.toNat / 16 ^ (15 - i) % 16).digitChar.toUInt8 := fun i hi => by
    rw [nibble a (List.mem_range.mp hi), getD_digits (Nat.mod_lt _ (by decide))]
  constructor
  · rw [printptr, List.map_congr_left hdigit, Piece.text, List.map_id]
    rfl
  · have hupper : ∀ i ∈ List.range 16,
        User.digits.getD ((a <<< UInt64.ofNat (4 * i)) >>> 60).toNat 0 =
          upper (a.toNat / 16 ^ (15 - i) % 16).digitChar.toUInt8 := fun i hi => by
      have hlt : ((a <<< UInt64.ofNat (4 * i)) >>> 60).toNat < 16 := by
        rw [nibble a (List.mem_range.mp hi)]
        exact Nat.mod_lt _ (by decide)
      rw [getD_userDigits hlt, hdigit i hi]
    rw [User.printptr, List.map_congr_left hupper, Piece.text, List.map_map]
    rfl

/-- Numbers of 32 bits have texts that fit the buffer. -/
theorem length_text_le {v : ℤ} {base : ℕ} (hbase : 10 ≤ base) (h : v.natAbs < 10 ^ 10) :
    (text v base).length ≤ 16 := by
  have hlen : (digitText base v.natAbs).length ≤ 10 := by
    rw [length_digitText (by omega) (by decide)]
    exact lt_of_lt_of_le h (Nat.pow_le_pow_left hbase 10)
  unfold text
  split <;> simp <;> omega

theorem length_digitText_mono {base n m : ℕ} (hbase : 1 < base) (h : n ≤ m) :
    (digitText base n).length ≤ (digitText base m).length := by
  have hpos : 0 < (digitText base m).length := by
    rw [digitText, List.length_map]
    exact Nat.length_toDigits_pos
  rw [length_digitText hbase hpos]
  exact lt_of_le_of_lt h ((length_digitText hbase hpos).mp le_rfl)

/-- The digits of a text, without its sign. -/
theorem filter_text {base : ℕ} (hlow : 1 < base) (hhigh : base ≤ 16) (v : ℤ) :
    ((text v base).map upper).filter (· ≠ 45) = (digitText base v.natAbs).map upper := by
  have hdash := (foldl_digitText lettering_upper hlow hhigh v.natAbs).2
  have hdigits : ((digitText base v.natAbs).map upper).filter (· ≠ 45) =
      (digitText base v.natAbs).map upper :=
    List.filter_eq_self.mpr fun c hc => by simpa using hdash c hc
  rw [text, List.map_append, List.filter_append, hdigits]
  split
  · rfl
  · rfl

theorem Conv.base_bounds (c : Conv) : 10 ≤ c.base.toNat ∧ c.base.toNat ≤ 16 ∧
    c.base.toUInt32.toNat = c.base.toNat := by
  unfold Conv.base
  split <;> decide

theorem Conv.kernel_eq (c : Conv) (a : UInt64) : (Piece.conv c a).kernel str =
    if (text (value (c.widened a) c.signed) c.base.toNat).length ≤ 16 then
      .ok (text (value (c.widened a) c.signed) c.base.toNat)
    else .error (.overflow 16) :=
  printint_eq _ _ (by have := c.base_bounds.1; omega) c.base_bounds.2.1

theorem Conv.user_eq (c : Conv) (a : UInt64) : (Piece.conv c a).user str =
    .ok ((text (User.value (User.vaInt a) c.signed) c.base.toNat).map upper) := by
  obtain ⟨hlow, hhigh, hcut⟩ := c.base_bounds
  rw [← hcut]
  exact User.printint_eq _ _ (by omega) (by omega)

/-! ### Formats -/

/-- Pieces that are not longer, one by one, are the same if they make up the same list. -/
theorem eq_of_flatMap_eq {α β : Type} {g h : α → List β} {l : List α}
    (hle : ∀ x ∈ l, (g x).length ≤ (h x).length) (heq : l.flatMap g = l.flatMap h) :
    ∀ x ∈ l, g x = h x := by
  induction l with
  | nil => exact fun x hx => absurd hx List.not_mem_nil
  | cons y l ih =>
    have hrest : ∀ x ∈ l, (g x).length ≤ (h x).length := fun x hx =>
      hle x (List.mem_cons_of_mem y hx)
    have hsum : (l.flatMap g).length ≤ (l.flatMap h).length := by
      rw [List.length_flatMap, List.length_flatMap]
      exact List.sum_le_sum hrest
    have hy := hle y List.mem_cons_self
    rw [List.flatMap_cons, List.flatMap_cons] at heq
    have hlen := congrArg List.length heq
    rw [List.length_append, List.length_append] at hlen
    obtain ⟨hhead, htail⟩ := List.append_inj heq (by omega)
    intro x hx
    rcases List.mem_cons.mp hx with rfl | hx
    · exact hhead
    · exact ih hrest htail x hx

/-- What is printed. -/
def out : Except PrintErr (List UInt8) → List UInt8
  | .ok l => l
  | .error _ => []

theorem printAll_eq_ok {ms : List (Except PrintErr (List UInt8))} {l : List UInt8}
    (h : printAll ms = .ok l) : (∀ m ∈ ms, m = .ok (out m)) ∧ ms.flatMap out = l := by
  induction ms generalizing l with
  | nil => exact ⟨fun m hm => absurd hm List.not_mem_nil, Except.ok.inj h⟩
  | cons m ms ih =>
    cases m with
    | error e => cases h
    | ok l₁ =>
      rw [printAll_ok_cons] at h
      cases hrest : printAll ms with
      | error e =>
        rw [hrest] at h
        cases h
      | ok l₂ =>
        rw [hrest] at h
        obtain ⟨hall, hout⟩ := ih hrest
        refine ⟨fun m hm => ?_, ?_⟩
        · rcases List.mem_cons.mp hm with rfl | hm
          · rfl
          · exact hall m hm
        · rw [List.flatMap_cons, hout]
          exact Except.ok.inj h

/-- A piece other than a conversion is printed right. -/
theorem Piece.conv_or (p : Piece) : (∃ c a, p = .conv c a) ∨
    p.kernel str = .ok (p.text str id) ∧ p.user str = .ok (p.text str upper) := by
  cases p with
  | conv c a => exact Or.inl ⟨c, a, rfl⟩
  | ptr a =>
    obtain ⟨hkernel, huser⟩ := printptr_eq str a
    rw [Piece.kernel, Piece.user, hkernel, huser]
    exact Or.inr ⟨rfl, rfl⟩
  | lit | percent | str => exact Or.inr ⟨rfl, rfl⟩

theorem out_kernel_conv {c : Conv} {a : UInt64}
    (h : (Piece.conv c a).kernel str = .ok (out ((Piece.conv c a).kernel str))) :
    out ((Piece.conv c a).kernel str) = text (value (c.widened a) c.signed) c.base.toNat := by
  rw [c.kernel_eq str a] at h ⊢
  split at h
  · rw [if_pos ‹_›]
    rfl
  · cases h

/-- **If the kernel prints a format right, it takes the right numbers**: no piece is printed
shorter than its text, so none is printed longer. -/
theorem kernel_right {ps : List Piece}
    (h : printAll (ps.map (Piece.kernel str)) = .ok (ps.flatMap (Piece.text str id)))
    {c : Conv} {a : UInt64} (hp : Piece.conv c a ∈ ps) :
    value (c.widened a) c.signed = c.number a := by
  obtain ⟨hall, hout⟩ := printAll_eq_ok h
  rw [List.flatMap_map] at hout
  have hok : ∀ p ∈ ps, p.kernel str = .ok (out (p.kernel str)) := fun p hp =>
    hall _ (List.mem_map_of_mem hp)
  have hle : ∀ p ∈ ps, (p.text str id).length ≤ (out (p.kernel str)).length := by
    intro p hp
    rcases p.conv_or str with ⟨c, a, rfl⟩ | ⟨hkernel, -⟩
    · rw [out_kernel_conv str (hok _ hp), Piece.text, List.map_id]
      rcases (c.taken a).kernel with hv | ⟨hpos, hle⟩
      · rw [hv]
      · have hbase := c.base_bounds.1
        rw [text, text, if_neg (by omega), if_neg (by omega)]
        exact length_digitText_mono (by omega) (by omega)
    · rw [hkernel]
      exact le_rfl
  have heq := eq_of_flatMap_eq hle hout.symm _ hp
  rw [out_kernel_conv str (hok _ hp), Piece.text, List.map_id] at heq
  obtain ⟨hlow, hhigh, -⟩ := c.base_bounds
  refine (text_map_inj lettering_id (by omega) hhigh).mp ?_
  rw [heq]

/-- **If the user library prints a format right, it takes the right numbers.**  Apart from
signs no piece is printed longer than its text, so the digits are right, and then no sign is
missing, so none is too many. -/
theorem user_right {ps : List Piece}
    (h : printAll (ps.map (Piece.user str)) = .ok (ps.flatMap (Piece.text str upper)))
    {c : Conv} {a : UInt64} (hp : Piece.conv c a ∈ ps) :
    User.value (User.vaInt a) c.signed = c.number a := by
  have hout := (printAll_eq_ok h).2
  rw [List.flatMap_map] at hout
  have hfilter := congrArg (List.filter (· ≠ 45)) hout
  rw [List.filter_flatMap, List.filter_flatMap] at hfilter
  have hconv : ∀ (c : Conv) (a : UInt64), out ((Piece.conv c a).user str) =
      (text (User.value (User.vaInt a) c.signed) c.base.toNat).map upper := fun c a => by
    rw [c.user_eq str a]
    rfl
  have hdigits := eq_of_flatMap_eq (fun p _ => ?_) hfilter
  · have hle : ∀ p ∈ ps, (p.text str upper).length ≤ (out (p.user str)).length := by
      intro p hp
      rcases p.conv_or str with ⟨c, a, rfl⟩ | ⟨-, huser⟩
      · obtain ⟨hlow, hhigh, -⟩ := c.base_bounds
        have hsame := hdigits _ hp
        rw [hconv, Piece.text, filter_text (by omega) hhigh, filter_text (by omega) hhigh] at hsame
        have habs : (User.value (User.vaInt a) c.signed).natAbs = (c.number a).natAbs :=
          digitText_map_inj lettering_upper (by omega) hhigh hsame
        have hsign := (c.taken a).sign
        rw [hconv, Piece.text, List.length_map, List.length_map, text, text, habs]
        split <;> split <;> simp
        omega
      · rw [huser]
        exact le_rfl
    have heq := eq_of_flatMap_eq hle hout.symm _ hp
    obtain ⟨hlow, hhigh, -⟩ := c.base_bounds
    rw [hconv, Piece.text] at heq
    exact ((text_map_inj lettering_upper (by omega) hhigh).mp heq).symm
  · rcases p.conv_or str with ⟨c, a, rfl⟩ | ⟨-, huser⟩
    · obtain ⟨hlow, hhigh, -⟩ := c.base_bounds
      rw [hconv, Piece.text, filter_text (by omega) hhigh, filter_text (by omega) hhigh,
        List.length_map, List.length_map]
      exact length_digitText_mono (by omega) (c.taken a).user
    · rw [huser]
      exact le_rfl

/-- A piece that fits is printed right. -/
theorem prints_of_fits {p : Piece} (h : p.Fits) :
    p.kernel str = .ok (p.text str id) ∧ p.user str = .ok (p.text str upper) := by
  rcases p.conv_or str with ⟨c, a, rfl⟩ | hright
  · obtain ⟨hv, hw⟩ := (c.taken a).fits_iff.mp h
    have hint := toInt_vaInt a
    have hbits := (User.vaInt a).toUInt32.toNat_lt
    -- the user library takes numbers of 32 bits only
    have hsmall : (c.number a).natAbs < 10 ^ 10 := by
      rw [← hw, User.value]
      split at hint <;> split <;> omega
    rw [c.kernel_eq str a, c.user_eq str a, hv, hw,
      if_pos (length_text_le c.base_bounds.1 hsmall), Piece.text, Piece.text, List.map_id]
    exact ⟨rfl, rfl⟩
  · exact hright

/-- **The two implementations of `printf` print a format as C asks for, and so agree, if and
only if all its pieces fit.** -/
theorem prints_agree_iff (ps : List Piece) :
    (printf str (format ps) (arguments ps) = .ok (ps.flatMap (Piece.text str id)) ∧
      User.vprintf str (format ps) (arguments ps) = .ok (ps.flatMap (Piece.text str upper))) ↔
      ∀ p ∈ ps, p.Fits := by
  rw [printf, User.vprintf, printfLoop_format str _ _ le_rfl, vprintfLoop_format str _ _ le_rfl]
  constructor
  · rintro ⟨hkernel, huser⟩ p hp
    cases p with
    | conv c a =>
      exact (c.taken a).fits_iff.mpr ⟨kernel_right str hkernel hp, user_right str huser hp⟩
    | lit | percent | ptr | str => trivial
  · intro h
    induction ps with
    | nil => exact ⟨rfl, rfl⟩
    | cons p ps ih =>
      obtain ⟨hkernel, huser⟩ := prints_of_fits str (h p List.mem_cons_self)
      obtain ⟨ihkernel, ihuser⟩ := ih fun q hq => h q (List.mem_cons_of_mem p hq)
      rw [List.map_cons, List.map_cons, hkernel, huser, printAll_ok_cons, printAll_ok_cons,
        ihkernel, ihuser]
      exact ⟨rfl, rfl⟩

/-- **`%x` and `%ld` are printed in two ways.**  For the argument `0xffffffff` the kernel prints
16 digits, where there are 8, and for the argument `2 ^ 32` the user library prints `0`. -/
theorem prints_differ :
    printf (fun _ => []) [37, 120] [0xffffffff] = .ok (List.replicate 16 102) ∧
    User.vprintf (fun _ => []) [37, 120] [0xffffffff] = .ok (List.replicate 8 70) ∧
    printf (fun _ => []) [37, 108, 100] [0x100000000] =
      .ok [52, 50, 57, 52, 57, 54, 55, 50, 57, 54] ∧
    User.vprintf (fun _ => []) [37, 108, 100] [0x100000000] = .ok [48] := by
  decide

end Xv6Ext2.Printf
