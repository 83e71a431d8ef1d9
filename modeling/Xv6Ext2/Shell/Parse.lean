import Xv6Ext2.Lib.CString
import Xv6Ext2.Lib.StateExcept

/-!
# The parser of the shell

`parsecmd` of `user/sh.c` reads a line in place: six functions that call each other move a
cursor over the bytes, look one character ahead, and build a tree whose words are pointers into
the line.  At the end `nulterminate` writes a zero behind each word of the tree.

The grammar is stated over the tokens of the line, and the cursor is related to the tokens that
are left: `peek` looks at the first of them and `gettoken` takes it.  From there on the proofs
do not look at bytes again.

## Main definitions

* `Word`, `Cmd` — a word, from `q` up to `eq`, and the trees of commands.
* `gettoken`, `peek`, `parseredirs`, `parseline`, `parsepipe`, `parseblock`, `parseexec`,
  `nulterminate`, `parsecmd` — the functions of the source.  Loops and calls have `fuel`, and
  fail with `Stop.rounds` when they run out of it.
* `tokens` — the tokens of a text.
* `Derives` — the grammar, with the tree of each derivation.
* `At` — the tokens that are left at a cursor.

## Main results

* `At.peek`, `At.gettoken` — the cursor and the tokens.
* `parse_yields` — the parser returns, with a derivation of what it has read, or panics.
* `Derives.parses` — the parser finds every derivation.
* `parsecmd_iff_derives` — **the parser accepts exactly its grammar**.
-/

namespace Xv6Ext2.Shell

open CString Prog

/-- `whitespace`: a blank, and the characters `\t\r\n\v`. -/
def whitespace : List UInt8 := [32, 9, 13, 10, 11]

/-- `symbols`: the characters `<|>&;()`. -/
def symbols : List UInt8 := [60, 124, 62, 38, 59, 40, 41]

def MAXARGS : ℕ := 10
def O_RDONLY : ℕ := 0x000
def O_WRONLY : ℕ := 0x001
def O_CREATE : ℕ := 0x200
def O_TRUNC : ℕ := 0x400

/-- A counted string: where it starts and where it ends. -/
structure Word where
  q : ℕ
  eq : ℕ
deriving DecidableEq

/-- The trees of `struct cmd`. -/
inductive Cmd
  | exec (argv : List Word)
  | redir (cmd : Cmd) (file : Word) (mode fd : ℕ)
  | pipe (left right : Cmd)
  | list (left right : Cmd)
  | back (cmd : Cmd)
deriving DecidableEq

/-- Add an argument to the `execcmd` below the redirections. -/
def Cmd.addArg (w : Word) : Cmd → Cmd
  | .exec argv => .exec (argv ++ [w])
  | .redir cmd file mode fd => .redir (cmd.addArg w) file mode fd
  | cmd => cmd

/-- Why there is no tree: `panic` exits, and `parsecmd` may print what it left over before it; or
the model ran out of rounds. -/
inductive Stop
  | panic (leftovers : Option (List UInt8)) (text : String)
  | rounds
deriving DecidableEq

/-- A parser moves the cursor `*ps`. -/
abbrev Parser := Prog ℕ Stop

section

variable (mem : ℕ → UInt8) (es : ℕ)

/-- At most `n` rounds of `while(c) s++`. -/
def skipLoop (c : UInt8 → Bool) : ℕ → ℕ → ℕ
  | 0, s => s
  | n + 1, s => if c (mem s) then skipLoop c n (s + 1) else s

/-- The loop `while(s < es && c) s++`. -/
def skip (c : UInt8 → Bool) (s : ℕ) : ℕ := skipLoop mem c (es - s) s

/-- A byte of a word. -/
def ordinary (c : UInt8) : Bool := c ∉ whitespace ∧ c ∉ symbols

/-- The `switch` of `gettoken` at `q`: the result, and where the token ends. -/
def token (q : ℕ) : UInt8 × ℕ :=
  if mem q = 0 then (0, q)
  else if mem q ∈ [124, 40, 41, 59, 38, 60] then (mem q, q + 1)
  else if mem q = 62 then if mem (q + 1) = 62 then (43, q + 2) else (62, q + 1)
  else (97, skip mem es ordinary q)

/-- `gettoken(ps, es, &q, &eq)`. -/
def gettoken : Parser (UInt8 × Word) := do
  let q := skip mem es (· ∈ whitespace) (← get)
  let (ret, eq) := token mem es q
  set (skip mem es (· ∈ whitespace) eq)
  return (ret, ⟨q, eq⟩)

/-- `peek(ps, es, toks)`. -/
def peek (toks : List UInt8) : Parser Bool := do
  let s := skip mem es (· ∈ whitespace) (← get)
  set s
  return mem s ≠ 0 ∧ mem s ∈ toks

/-- The `redircmd` for a redirection. -/
def redircmd (tok : UInt8) (cmd : Cmd) (file : Word) : Cmd :=
  if tok = 60 then .redir cmd file O_RDONLY 0
  else if tok = 62 then .redir cmd file (O_WRONLY ||| O_CREATE ||| O_TRUNC) 1
  else if tok = 43 then .redir cmd file (O_WRONLY ||| O_CREATE) 1
  else cmd

/-- `parseredirs(cmd, ps, es)`. -/
def parseredirs : ℕ → Cmd → Parser Cmd
  | 0, _ => throw .rounds
  | fuel + 1, cmd => do
    if ← peek mem es [60, 62] then
      let tok ← gettoken mem es
      let file ← gettoken mem es
      if file.1 ≠ 97 then throw (.panic none "missing file for redirection")
      else parseredirs fuel (redircmd tok.1 cmd file.2)
    else return cmd

/-- The loop of `parseexec`, with `argc` arguments so far. -/
def argLoop : ℕ → ℕ → Cmd → Parser Cmd
  | 0, _, _ => throw .rounds
  | fuel + 1, argc, ret => do
    if ← peek mem es [124, 41, 38, 59] then return ret
    else
      let tok ← gettoken mem es
      if tok.1 = 0 then return ret
      else if tok.1 ≠ 97 then throw (.panic none "syntax")
      else if argc + 1 ≥ MAXARGS then throw (.panic none "too many args")
      else
        let ret ← parseredirs mem es fuel (ret.addArg tok.2)
        argLoop fuel (argc + 1) ret

/-- The loop of `parseline`. -/
def backLoop : ℕ → Cmd → Parser Cmd
  | 0, _ => throw .rounds
  | fuel + 1, cmd => do
    if ← peek mem es [38] then
      let _ ← gettoken mem es
      backLoop fuel (.back cmd)
    else return cmd

mutual

/-- `parseline(ps, es)`. -/
def parseline : ℕ → Parser Cmd
  | 0 => throw .rounds
  | fuel + 1 => do
    let cmd ← parsepipe fuel
    let cmd ← backLoop mem es fuel cmd
    if ← peek mem es [59] then
      let _ ← gettoken mem es
      let right ← parseline fuel
      return .list cmd right
    else return cmd

/-- `parsepipe(ps, es)`. -/
def parsepipe : ℕ → Parser Cmd
  | 0 => throw .rounds
  | fuel + 1 => do
    let cmd ← parseexec fuel
    if ← peek mem es [124] then
      let _ ← gettoken mem es
      let right ← parsepipe fuel
      return .pipe cmd right
    else return cmd

/-- `parseblock(ps, es)`. -/
def parseblock : ℕ → Parser Cmd
  | 0 => throw .rounds
  | fuel + 1 => do
    if ← peek mem es [40] then
      let _ ← gettoken mem es
      let cmd ← parseline fuel
      if ← peek mem es [41] then
        let _ ← gettoken mem es
        parseredirs mem es fuel cmd
      else throw (.panic none "syntax - missing )")
    else throw (.panic none "parseblock")

/-- `parseexec(ps, es)`. -/
def parseexec : ℕ → Parser Cmd
  | 0 => throw .rounds
  | fuel + 1 => do
    if ← peek mem es [40] then parseblock fuel
    else
      let ret ← parseredirs mem es fuel (.exec [])
      argLoop mem es fuel 0 ret

end

/-- `strlen(s)`. -/
def strlen : ℕ → ℕ → Except Stop ℕ
  | 0, _ => throw .rounds
  | n + 1, s => if mem s = 0 then return 0 else return (← strlen n (s + 1)) + 1

end

/-- The memory, and the addresses that were written to. -/
structure Buffer where
  mem : ℕ → UInt8
  written : List ℕ

/-- `*p = 0`. -/
def Buffer.clear (b : Buffer) (p : ℕ) : Buffer := ⟨Function.update b.mem p 0, p :: b.written⟩

/-- `nulterminate(cmd)`. -/
def nulterminate : Cmd → Buffer → Buffer
  | .exec argv, b => argv.foldl (fun b w => b.clear w.eq) b
  | .redir cmd file _ _, b => (nulterminate cmd b).clear file.eq
  | .pipe left right, b => nulterminate right (nulterminate left b)
  | .list left right, b => nulterminate right (nulterminate left b)
  | .back cmd, b => nulterminate cmd b

/-- `parsecmd(s)`. -/
def parsecmd (fuel : ℕ) (mem : ℕ → UInt8) (s : ℕ) : Except Stop (Cmd × Buffer) := do
  let es := s + (← strlen mem fuel s)
  let (cmd, s) ← parseline mem es fuel s
  let (_, s) ← peek mem es [] s
  if s ≠ es then throw (.panic (some (stringAt mem fuel s)) "syntax")
  else return (cmd, nulterminate cmd ⟨mem, []⟩)

/-! ### Tokens -/

inductive Token
  | word (w : Word)
  | less | great | append | bar | amp | semi | lpar | rpar
deriving DecidableEq

namespace Token

/-- What `gettoken` returns. -/
def code : Token → UInt8
  | word _ => 97 | less => 60 | great => 62 | append => 43 | bar => 124 | amp => 38 | semi => 59
  | lpar => 40 | rpar => 41

/-- What `peek` sees, if it is not in a word. -/
def first : Token → UInt8
  | append => 62
  | t => t.code

end Token

/-- The token of a symbol. -/
def symbol (c : UInt8) : Option Token :=
  if c = 60 then some .less else if c = 124 then some .bar else if c = 62 then some .great
  else if c = 38 then some .amp else if c = 59 then some .semi else if c = 40 then some .lpar
  else if c = 41 then some .rpar else none

/-- The word that ends at `p`, if one was started. -/
def closed (start : Option ℕ) (p : ℕ) : List Token := (start.map fun q => .word ⟨q, p⟩).toList

/-- The tokens of a text at `p`; `start` is where a word was started. -/
def tokens : Option ℕ → ℕ → List UInt8 → List Token
  | start, p, [] => closed start p
  | start, p, 62 :: 62 :: l => closed start p ++ .append :: tokens none (p + 2) l
  | start, p, c :: l =>
    if ordinary c then tokens (some (start.getD p)) (p + 1) l
    else closed start p ++ (symbol c).toList ++ tokens none (p + 1) l

/-! ### The grammar -/

inductive Dir
  | less | great | append
deriving DecidableEq

namespace Dir

def token : Dir → Token
  | less => .less | great => .great | append => .append

def mode : Dir → ℕ
  | less => O_RDONLY
  | great => O_WRONLY ||| O_CREATE ||| O_TRUNC
  | append => O_WRONLY ||| O_CREATE

def fd : Dir → ℕ
  | less => 0 | great => 1 | append => 1

end Dir

structure Redir where
  dir : Dir
  file : Word

def Redir.tokens (r : Redir) : List Token := [r.dir.token, .word r.file]

/-- A command with redirections; the last one is outermost. -/
def redirect (rs : List Redir) (cmd : Cmd) : Cmd :=
  rs.foldl (fun cmd r => .redir cmd r.file r.dir.mode r.dir.fd) cmd

def back : ℕ → Cmd → Cmd
  | 0, cmd => cmd
  | n + 1, cmd => back n (.back cmd)

inductive Nt
  | line | pipe | exec

/-- **The grammar of the shell**, with the tree of each derivation:
`line := pipe '&'* [';' line]`, `pipe := exec ['|' pipe]`,
`exec := '(' line ')' redir* | redir* (word redir*)*`, `redir := ('<' | '>' | '>>') word`. -/
inductive Derives : Nt → List Token → Cmd → Prop
  | line {ts cmd} (n : ℕ) (hpipe : Derives .pipe ts cmd) :
      Derives .line (ts ++ List.replicate n .amp) (back n cmd)
  | list {ts ts' cmd right} (n : ℕ) (hpipe : Derives .pipe ts cmd)
      (hright : Derives .line ts' right) :
      Derives .line (ts ++ List.replicate n .amp ++ .semi :: ts') (.list (back n cmd) right)
  | exec {ts cmd} (hexec : Derives .exec ts cmd) : Derives .pipe ts cmd
  | pipe {ts ts' cmd right} (hexec : Derives .exec ts cmd) (hright : Derives .pipe ts' right) :
      Derives .pipe (ts ++ .bar :: ts') (.pipe cmd right)
  | block {ts cmd} (rs : List Redir) (hline : Derives .line ts cmd) :
      Derives .exec (.lpar :: ts ++ .rpar :: rs.flatMap Redir.tokens) (redirect rs cmd)
  | simple (rs : List Redir) (args : List (Word × List Redir)) (hargs : args.length ≤ MAXARGS - 1) :
      Derives .exec
        (rs.flatMap Redir.tokens ++ args.flatMap fun a => .word a.1 :: a.2.flatMap Redir.tokens)
        (redirect (rs ++ args.flatMap Prod.snd) (.exec (args.map Prod.fst)))

/-! ### The tokens at the cursor -/

/-- The text that is left at `p`. -/
structure Text (mem : ℕ → UInt8) (es p : ℕ) (l : List UInt8) : Prop where
  stores : Stores mem p (l ++ [0])
  nonzero : 0 ∉ l
  ends : p + l.length = es

variable {mem : ℕ → UInt8} {es p : ℕ} {c : UInt8} {l l' : List UInt8} {t : Token} {ts : List Token}

namespace Text

theorem drop (h : Text mem es p (l ++ l')) : Text mem es (p + l.length) l' where
  stores := by
    have hstores := h.stores
    rw [List.append_assoc, stores_append] at hstores
    exact hstores.2
  nonzero hmem := h.nonzero (List.mem_append_right _ hmem)
  ends := by
    have hends := h.ends
    rw [List.length_append] at hends
    omega

theorem tail (h : Text mem es p (c :: l)) : Text mem es (p + 1) l := drop (l := [c]) h

theorem skip_eq (h : Text mem es p l) (f : UInt8 → Bool) :
    skip mem es f p = p + (l.takeWhile f).length := by
  have hrounds : es - p = l.length := by
    have := h.ends
    omega
  rw [skip, hrounds]
  clear hrounds
  induction l generalizing p with
  | nil => rfl
  | cons c l ih =>
    rw [List.length_cons, skipLoop, h.stores.1, List.takeWhile_cons]
    split
    · rw [ih h.tail, List.length_cons]
      omega
    · rfl

theorem skip (h : Text mem es p l) (f : UInt8 → Bool) :
    Text mem es (skip mem es f p) (l.dropWhile f) := by
  rw [h.skip_eq]
  exact drop (by rwa [List.takeWhile_append_dropWhile])

end Text

theorem ordinary_iff : ordinary c ↔ c ∉ whitespace ∧ c ∉ symbols := by simp [ordinary]

theorem tokens_ordinary {start : Option ℕ} (hc : ordinary c) :
    tokens start p (c :: l) = tokens (some (start.getD p)) (p + 1) l := by
  rw [tokens.eq_3 _ _ _ _ fun _ h _ => by subst h; exact absurd hc (by decide), if_pos hc]

theorem tokens_space (hc : c ∈ whitespace) : tokens none p (c :: l) = tokens none (p + 1) l := by
  simp only [whitespace, List.mem_cons, List.not_mem_nil, or_false] at hc
  rcases hc with rfl | rfl | rfl | rfl | rfl <;> rfl

theorem tokens_spaces (p : ℕ) (l : List UInt8) :
    tokens none (p + (l.takeWhile (· ∈ whitespace)).length) (l.dropWhile (· ∈ whitespace)) =
      tokens none p l := by
  induction l generalizing p with
  | nil => rfl
  | cons c l ih =>
    by_cases hc : c ∈ whitespace
    · rw [tokens_space hc, ← ih (p + 1)]
      simp [hc, Nat.add_assoc, Nat.add_comm 1]
    · simp [hc]

theorem tokens_closed {start : Option ℕ} (hc : ¬ordinary c) :
    tokens start p (c :: l) = closed start p ++ tokens none p (c :: l) := by
  by_cases htwo : ∃ l', c = 62 ∧ l = 62 :: l'
  · obtain ⟨l', rfl, rfl⟩ := htwo
    rfl
  · have hone : ∀ l', c = 62 → l = 62 :: l' → False := fun l' h h' => htwo ⟨l', h, h'⟩
    rw [tokens.eq_3 _ _ _ _ hone, tokens.eq_3 _ _ _ _ hone, if_neg hc, if_neg hc, List.append_assoc]
    rfl

/-- A word ends where its bytes end. -/
theorem tokens_word {start : ℕ} (p : ℕ) (l : List UInt8) :
    tokens (some start) p l =
      .word ⟨start, p + (l.takeWhile ordinary).length⟩ ::
        tokens none (p + (l.takeWhile ordinary).length) (l.dropWhile ordinary) := by
  induction l generalizing p with
  | nil => rfl
  | cons c l ih =>
    by_cases hc : ordinary c
    · rw [tokens_ordinary hc, Option.getD_some, ih]
      simp [hc, Nat.add_assoc, Nat.add_comm 1]
    · rw [tokens_closed hc]
      simp [hc, closed]

/-- `t` is the first token of the text at `p`, which starts with `c`; it ends at `e`. -/
structure First (mem : ℕ → UInt8) (es p : ℕ) (c : UInt8) (l : List UInt8) (t : Token) (e : ℕ)
    (l' : List UInt8) : Prop where
  token : token mem es p = (t.code, e)
  rest : Text mem es e l'
  tokens : tokens none p (c :: l) = t :: tokens none e l'
  word : ∀ w, t = .word w → w = ⟨p, e⟩
  peeked : ∀ toks ⊆ symbols, c ∈ toks ↔ t.first ∈ toks

theorem Text.first_word (h : Text mem es p (c :: l)) (hc : ordinary c) :
    ∃ e l', First mem es p c l (.word ⟨p, e⟩) e l' := by
  obtain ⟨-, hnot⟩ := ordinary_iff.mp hc
  have hend := h.skip_eq ordinary
  have hskip := h.skip ordinary
  simp only [List.takeWhile_cons, List.dropWhile_cons, hc, if_true, List.length_cons] at hskip hend
  refine ⟨_, _, ?_, hskip, ?_, by simp, fun toks htoks => iff_of_false (fun h => hnot (htoks h)) ?_⟩
  · have hzero : c ≠ 0 := fun h0 => h.nonzero (h0 ▸ List.mem_cons_self)
    simp only [symbols, List.mem_cons, List.not_mem_nil, or_false, not_or] at hnot
    simp [Shell.token, h.stores.1, hzero, hnot, Token.code]
  · rw [tokens_ordinary hc, tokens_word, hend, Nat.add_assoc, Nat.add_comm 1]
    rfl
  · exact fun h => absurd (htoks h) (by simp [Token.first, Token.code, symbols])

theorem Text.first_symbol (h : Text mem es p (c :: l)) (hc : c ∈ symbols) :
    ∃ t e l', First mem es p c l t e l' := by
  have hbyte : mem p = c := h.stores.1
  by_cases hgreat : c = 62
  · subst hgreat
    by_cases htwo : ∃ l', l = 62 :: l'
    · obtain ⟨l', rfl⟩ := htwo
      have hnext : mem (p + 1) = 62 := h.tail.stores.1
      exact ⟨.append, p + 2, l', by simp [Shell.token, hbyte, hnext, Token.code], h.tail.tail, rfl,
        by simp, fun _ _ => Iff.rfl⟩
    · have hnext : mem (p + 1) ≠ 62 := by
        rcases l with _ | ⟨d, l'⟩
        · exact fun h0 => absurd (h.tail.stores.1.symm.trans h0) (by decide)
        · exact fun h0 => htwo ⟨l', by rw [← h0, h.tail.stores.1]⟩
      refine ⟨.great, p + 1, l, by simp [Shell.token, hbyte, hnext, Token.code], h.tail, ?_,
        by simp, fun _ _ => Iff.rfl⟩
      rw [tokens.eq_3 _ _ _ _ fun l' _ h' => htwo ⟨l', h'⟩]
      rfl
  · have hone : tokens none p (c :: l) = _ := tokens.eq_3 _ _ _ _ fun _ h0 _ => hgreat h0
    simp only [symbols, List.mem_cons, List.not_mem_nil, or_false, hgreat, false_or] at hc
    obtain ⟨t, ht, rfl⟩ : ∃ t ∈ [Token.less, .bar, .amp, .semi, .lpar, .rpar], t.code = c := by
      rcases hc with rfl | rfl | rfl | rfl | rfl | rfl <;> simp [Token.code]
    refine ⟨t, p + 1, l, ?_, h.tail, hone.trans ?_, ?_, fun _ _ => ?_⟩ <;>
      simp only [List.mem_cons, List.not_mem_nil, or_false] at ht <;>
      rcases ht with rfl | rfl | rfl | rfl | rfl | rfl <;>
      simp_all [Shell.token, Token.code, Token.first, closed, symbol, ordinary, symbols, whitespace]

theorem peek_apply (toks : List UInt8) {q : ℕ} (hq : skip mem es (· ∈ whitespace) p = q) :
    peek mem es toks p = .ok (mem q ≠ 0 ∧ mem q ∈ toks, q) := by
  subst hq
  rfl

theorem gettoken_apply {q e : ℕ} (hq : skip mem es (· ∈ whitespace) p = q)
    (htoken : token mem es q = (c, e)) :
    gettoken mem es p = .ok ((c, ⟨q, e⟩), skip mem es (· ∈ whitespace) e) := by
  have hrun : gettoken mem es p = .ok (((token mem es q).1, ⟨q, (token mem es q).2⟩),
      skip mem es (· ∈ whitespace) (token mem es q).2) := by
    subst hq
    rfl
  rw [hrun, htoken]

/-- The tokens that are left at `p`. -/
def At (mem : ℕ → UInt8) (es p : ℕ) (ts : List Token) : Prop :=
  ∃ l, Text mem es p l ∧ tokens none p l = ts

namespace At

/-- The cursor after the spaces. -/
theorem skip (h : At mem es p ts) : ∃ q, Shell.skip mem es (· ∈ whitespace) p = q ∧
    (ts = [] ∧ q = es ∧ mem q = 0 ∧ Text mem es q [] ∨
      ∃ c l t e l', c ≠ 0 ∧ mem q = c ∧ Text mem es q (c :: l) ∧ First mem es q c l t e l' ∧
        ts = t :: tokens none e l') := by
  obtain ⟨l, htext, rfl⟩ := h
  have hskip := htext.skip (· ∈ whitespace)
  refine ⟨_, rfl, ?_⟩
  rw [← tokens_spaces, ← htext.skip_eq]
  cases hrest : l.dropWhile (· ∈ whitespace) with
  | nil =>
    rw [hrest] at hskip
    exact Or.inl ⟨rfl, hskip.ends, hskip.stores.1, hskip⟩
  | cons c l' =>
    have hc : c ∉ whitespace := by
      have := List.head_dropWhile_not (· ∈ whitespace) (l := l) (by simp [hrest])
      simpa [hrest] using this
    rw [hrest] at hskip
    obtain ⟨t, e, l'', hfirst⟩ : ∃ t e l'', First mem es
      (Shell.skip mem es (· ∈ whitespace) p) c l' t e l'' := by
      by_cases hsym : c ∈ symbols
      · exact hskip.first_symbol hsym
      · obtain ⟨e, l'', hfirst⟩ := hskip.first_word (ordinary_iff.mpr ⟨hc, hsym⟩)
        exact ⟨_, e, l'', hfirst⟩
    exact Or.inr ⟨c, l', t, e, l'', fun h0 => hskip.nonzero (h0 ▸ List.mem_cons_self),
      hskip.stores.1, hskip, hfirst, hfirst.tokens⟩

/-- **`peek` looks at the first token.** -/
theorem peek (h : At mem es p ts) {toks : List UInt8} (htoks : toks ⊆ symbols) :
    ∃ q, peek mem es toks p = .ok (ts.head?.any (·.first ∈ toks), q) ∧ At mem es q ts := by
  obtain ⟨q, hq, ⟨rfl, -, hzero, htext⟩ | ⟨c, l, t, e, l', hc, hbyte, htext, hfirst, rfl⟩⟩ := h.skip
  · refine ⟨q, ?_, [], htext, rfl⟩
    simp [peek_apply toks hq, hzero]
  · refine ⟨q, ?_, c :: l, htext, hfirst.tokens⟩
    simp [peek_apply toks hq, hbyte, hc, hfirst.peeked toks htoks]

/-- **`gettoken` takes the first token.** -/
theorem gettoken (h : At mem es p (t :: ts)) :
    ∃ w q, gettoken mem es p = .ok ((t.code, w), q) ∧ At mem es q ts ∧
      ∀ w', t = .word w' → w' = w := by
  obtain ⟨q, hq, ⟨hnil, -⟩ | ⟨c, l, t', e, l', hc, hbyte, htext, hfirst, heq⟩⟩ := h.skip
  · cases hnil
  · obtain ⟨rfl, rfl⟩ := List.cons.inj heq
    refine ⟨⟨q, e⟩, _, gettoken_apply hq hfirst.token, ⟨_, hfirst.rest.skip (· ∈ whitespace), ?_⟩,
      hfirst.word⟩
    rw [hfirst.rest.skip_eq, tokens_spaces]

theorem gettoken_nil (h : At mem es p []) :
    ∃ w q, Shell.gettoken mem es p = .ok ((0, w), q) ∧ At mem es q [] := by
  obtain ⟨q, hq, ⟨-, -, hzero, htext⟩ | ⟨_, _, _, _, _, _, _, _, _, heq⟩⟩ := h.skip
  · exact ⟨_, _, gettoken_apply hq (if_pos hzero), _, htext.skip _, rfl⟩
  · cases heq

/-- A token that is there. -/
theorem found {α : Type} (h : At mem es p (t :: ts)) {toks : List UInt8} (htoks : toks ⊆ symbols)
    (ht : t.first ∈ toks) (f g : Parser α) : ∃ q,
      (do if ← Shell.peek mem es toks then f else g) p = f q ∧ At mem es q (t :: ts) := by
  obtain ⟨q, hpeek, h⟩ := h.peek htoks
  refine ⟨q, ?_, h⟩
  rw [bind_of_ok hpeek, List.head?_cons, Option.any_some, decide_eq_true ht, if_pos rfl]

/-- A token that is looked for and taken. -/
theorem taken {α : Type} (h : At mem es p (t :: ts)) {toks : List UInt8} (htoks : toks ⊆ symbols)
    (ht : t.first ∈ toks) (f : UInt8 × Word → Parser α) (g : Parser α) : ∃ w q,
      (do if ← Shell.peek mem es toks then (do let r ← Shell.gettoken mem es; f r) else g) p =
        f (t.code, w) q ∧ At mem es q ts := by
  obtain ⟨q, hrun, h⟩ := h.found htoks ht (do let r ← Shell.gettoken mem es; f r) g
  obtain ⟨w, r, hget, h, -⟩ := h.gettoken
  exact ⟨w, r, hrun.trans (bind_of_ok hget), h⟩

/-- A token that is not there. -/
theorem passed {α : Type} (h : At mem es p ts) {toks : List UInt8} (htoks : toks ⊆ symbols)
    (hts : ∀ t ∈ ts.head?, t.first ∉ toks) (f g : Parser α) : ∃ q,
      (do if ← Shell.peek mem es toks then f else g) p = g q ∧ At mem es q ts := by
  obtain ⟨q, hpeek, h⟩ := h.peek htoks
  refine ⟨q, ?_, h⟩
  rw [bind_of_ok hpeek, if_neg]
  cases hhead : ts.head? <;> simp_all

end At

/-! ### What is accepted -/

theorem redircmd_code (d : Dir) (cmd : Cmd) (file : Word) :
    redircmd d.token.code cmd file = .redir cmd file d.mode d.fd := by
  cases d <;> rfl

theorem Dir.exists_of_first (h : t.first ∈ [60, 62]) : ∃ d : Dir, d.token = t := by
  cases t <;> simp [Token.first, Token.code] at h
  exacts [⟨.less, rfl⟩, ⟨.great, rfl⟩, ⟨.append, rfl⟩]

/-- The other tokens are known by their first byte. -/
theorem Token.eq_of_first {t' : Token} (h : t.first ∈ [t'.code])
    (ht' : t' ∈ [bar, amp, semi, lpar, rpar]) : t = t' := by
  simp only [List.mem_cons, List.not_mem_nil, or_false] at ht'
  rcases ht' with rfl | rfl | rfl | rfl | rfl <;> cases t <;> simp [first, code] at h ⊢

theorem Token.exists_word (h : t.code = 97) : ∃ w, t = .word w := by
  cases t <;> simp [code] at h ⊢

theorem exists_head_of_not {toks : List UInt8} (h : ¬∀ t ∈ ts.head?, t.first ∉ toks) :
    ∃ t ts', ts = t :: ts' ∧ t.first ∈ toks := by
  cases ts <;> simp_all

theorem parseredirs_yields : ∀ (fuel : ℕ) {ts : List Token} {p : ℕ} (cmd : Cmd), At mem es p ts →
    ts.length < fuel → Yields (· ≠ .rounds) (parseredirs mem es fuel cmd) p fun cmd' q =>
      ∃ rs rest, ts = rs.flatMap Redir.tokens ++ rest ∧ cmd' = redirect rs cmd ∧
        At mem es q rest := by
  intro fuel
  induction fuel with
  | zero => intro ts p cmd hat hfuel; omega
  | succ fuel ih =>
    intro ts p cmd hat hfuel
    rw [parseredirs]
    by_cases hts : ∀ t ∈ ts.head?, t.first ∉ [60, 62]
    · obtain ⟨q, hrun, hat⟩ := hat.passed (by decide) hts _ _
      exact Yields.of_ok hrun ⟨[], ts, rfl, rfl, hat⟩
    obtain ⟨t, ts, rfl, hfirst⟩ := exists_head_of_not hts
    obtain ⟨d, rfl⟩ := Dir.exists_of_first hfirst
    obtain ⟨w, q, hrun, hat⟩ := hat.taken (by decide) hfirst _ _
    refine Yields.of_eq hrun ?_
    rcases ts with _ | ⟨t, ts⟩
    · obtain ⟨w, r, hget, -⟩ := hat.gettoken_nil
      exact Or.inr ⟨_, bind_of_ok hget, by simp⟩
    obtain ⟨w, r, hget, hrest, hw⟩ := hat.gettoken
    refine Yields.of_eq (bind_of_ok hget) ?_
    by_cases hcode : t.code = 97
    · obtain ⟨file, rfl⟩ := Token.exists_word hcode
      obtain rfl := hw file rfl
      rw [if_neg (not_not.mpr hcode), redircmd_code]
      simp only [List.length_cons] at hfuel
      refine (ih _ hrest (by omega)).mono ?_
      rintro cmd' q ⟨rs, rest, rfl, rfl, hat⟩
      exact ⟨⟨d, file⟩ :: rs, rest, rfl, rfl, hat⟩
    · rw [if_pos hcode]
      exact Or.inr ⟨_, rfl, by simp⟩

theorem redirect_append (rs rs' : List Redir) (cmd : Cmd) :
    redirect (rs ++ rs') cmd = redirect rs' (redirect rs cmd) :=
  List.foldl_append

theorem addArg_redirect (w : Word) (rs : List Redir) (cmd : Cmd) :
    (redirect rs cmd).addArg w = redirect rs (cmd.addArg w) := by
  induction rs generalizing cmd with
  | nil => rfl
  | cons r rs ih => exact ih _

theorem argLoop_yields : ∀ (fuel : ℕ) {ts : List Token} {p : ℕ} (rs : List Redir) (ws : List Word),
    At mem es p ts → ts.length + 1 < fuel → ws.length < MAXARGS →
      Yields (· ≠ .rounds) (argLoop mem es fuel ws.length (redirect rs (.exec ws))) p fun cmd q =>
        ∃ (args : List (Word × List Redir)) (rest : List Token),
          ts = (args.flatMap fun a => .word a.1 :: a.2.flatMap Redir.tokens) ++ rest ∧
            cmd = redirect (rs ++ args.flatMap Prod.snd) (.exec (ws ++ args.map Prod.fst)) ∧
              ws.length + args.length < MAXARGS ∧ At mem es q rest := by
  intro fuel
  induction fuel with
  | zero => intro ts p rs ws hat hfuel; omega
  | succ fuel ih =>
    intro ts p rs ws hat hfuel hlen
    have hdone : ∀ q, At mem es q ts → ∃ (args : List (Word × List Redir)) (rest : List Token),
        ts = (args.flatMap fun a => .word a.1 :: a.2.flatMap Redir.tokens) ++ rest ∧
          redirect rs (.exec ws) =
            redirect (rs ++ args.flatMap Prod.snd) (.exec (ws ++ args.map Prod.fst)) ∧
              ws.length + args.length < MAXARGS ∧ At mem es q rest :=
      fun q hat => ⟨[], ts, rfl, by simp, hlen, hat⟩
    rw [argLoop]
    by_cases hts : ∀ t ∈ ts.head?, t.first ∉ [124, 41, 38, 59]
    · obtain ⟨q, hrun, hat⟩ := hat.passed (by decide) hts _ _
      refine Yields.of_eq hrun ?_
      rcases ts with _ | ⟨t, ts⟩
      · obtain ⟨w, r, hget, hat⟩ := hat.gettoken_nil
        refine Yields.of_eq (bind_of_ok hget) (Yields.of_ok rfl (hdone r hat))
      obtain ⟨w, r, hget, hrest, hw⟩ := hat.gettoken
      refine Yields.of_eq (bind_of_ok hget) ?_
      rw [if_neg (by cases t <;> simp [Token.code])]
      by_cases hcode : t.code = 97
      · obtain ⟨arg, rfl⟩ := Token.exists_word hcode
        obtain rfl := hw arg rfl
        rw [if_neg (not_not.mpr hcode)]
        by_cases hmany : ws.length + 1 ≥ MAXARGS
        · rw [if_pos hmany]
          exact Or.inr ⟨_, rfl, by simp⟩
        · rw [if_neg hmany, addArg_redirect]
          simp only [List.length_cons] at hfuel
          refine (parseredirs_yields fuel _ hrest (by omega)).bind ?_
          rintro cmd q ⟨rs', rest, rfl, rfl, hat⟩
          simp only [List.length_append] at hfuel
          rw [← redirect_append]
          have := ih (rs ++ rs') (ws ++ [arg]) hat (by omega) (by simp; omega)
          rw [List.length_append, List.length_singleton] at this
          refine this.mono ?_
          rintro cmd' q' ⟨args, rest, rfl, rfl, hcount, hat⟩
          refine ⟨(arg, rs') :: args, rest, by simp, by simp, ?_, hat⟩
          simp only [List.length_cons]
          omega
      · rw [if_pos hcode]
        exact Or.inr ⟨_, rfl, by simp⟩
    · obtain ⟨t, ts, rfl, hfirst⟩ := exists_head_of_not hts
      obtain ⟨q, hrun, hat⟩ := hat.found (by decide) hfirst _ _
      exact Yields.of_ok hrun (hdone q hat)

theorem backLoop_yields : ∀ (fuel : ℕ) {ts : List Token} {p : ℕ} (cmd : Cmd), At mem es p ts →
    ts.length < fuel → Yields (· ≠ .rounds) (backLoop mem es fuel cmd) p fun cmd' q =>
      ∃ n rest, ts = List.replicate n .amp ++ rest ∧ cmd' = back n cmd ∧ At mem es q rest := by
  intro fuel
  induction fuel with
  | zero => intro ts p cmd hat hfuel; omega
  | succ fuel ih =>
    intro ts p cmd hat hfuel
    rw [backLoop]
    by_cases hts : ∀ t ∈ ts.head?, t.first ∉ [38]
    · obtain ⟨q, hrun, hat⟩ := hat.passed (by decide) hts _ _
      exact Yields.of_ok hrun ⟨0, ts, rfl, rfl, hat⟩
    obtain ⟨t, ts, rfl, hfirst⟩ := exists_head_of_not hts
    obtain rfl : t = .amp := Token.eq_of_first hfirst (by decide)
    obtain ⟨w, q, hrun, hat⟩ := hat.taken (by decide) hfirst _ _
    simp only [List.length_cons] at hfuel
    refine Yields.of_eq hrun ((ih _ hat (by omega)).mono ?_)
    rintro cmd' q ⟨n, rest, rfl, rfl, hat⟩
    exact ⟨n + 1, rest, rfl, rfl, hat⟩

/-- The function for each part of a line. -/
def parse (mem : ℕ → UInt8) (es : ℕ) : Nt → ℕ → Parser Cmd
  | .line => parseline mem es
  | .pipe => parsepipe mem es
  | .exec => parseexec mem es

/-- The rounds for a call without input. -/
def Nt.rank : Nt → ℕ
  | .line => 6
  | .pipe => 5
  | .exec => 4

/-- **The parser returns**, with a derivation of what it has read, or it panics. -/
theorem parse_yields (fuel : ℕ) : ∀ (nt : Nt) {ts : List Token} {p : ℕ}, At mem es p ts →
    4 * ts.length + nt.rank ≤ fuel →
      Yields (· ≠ .rounds) (parse mem es nt fuel) p fun cmd q =>
        ∃ pre rest, ts = pre ++ rest ∧ Derives nt pre cmd ∧ At mem es q rest := by
  induction fuel using Nat.strong_induction_on with
  | _ fuel ih =>
  intro nt ts p hat hfuel
  cases nt with
  | line =>
    obtain ⟨fuel, rfl⟩ : ∃ f, fuel = f + 1 := ⟨fuel - 1, by simp only [Nt.rank] at hfuel; omega⟩
    simp only [Nt.rank] at hfuel
    rw [parse, parseline]
    refine (ih fuel (by omega) .pipe hat (by simp only [Nt.rank]; omega)).bind ?_
    rintro cmd q ⟨pre, rest, rfl, hpipe, hat⟩
    simp only [List.length_append] at hfuel
    refine (backLoop_yields fuel cmd hat (by omega)).bind ?_
    rintro _ q ⟨n, rest, rfl, rfl, hat⟩
    simp only [List.length_append] at hfuel
    by_cases hts : ∀ t ∈ rest.head?, t.first ∉ [59]
    · obtain ⟨q, hrun, hat⟩ := hat.passed (by decide) hts _ _
      exact Yields.of_ok hrun ⟨_, rest, (List.append_assoc ..).symm, .line n hpipe, hat⟩
    obtain ⟨t, rest, rfl, hfirst⟩ := exists_head_of_not hts
    obtain rfl : t = .semi := Token.eq_of_first hfirst (by decide)
    obtain ⟨w, q, hrun, hat⟩ := hat.taken (by decide) hfirst _ _
    simp only [List.length_cons] at hfuel
    refine Yields.of_eq hrun
      ((ih fuel (by omega) .line hat (by simp only [Nt.rank]; omega)).bind ?_)
    rintro right q ⟨ts', rest, rfl, hright, hat⟩
    exact Yields.of_ok rfl ⟨_, rest, by simp, .list n hpipe hright, hat⟩
  | pipe =>
    obtain ⟨fuel, rfl⟩ : ∃ f, fuel = f + 1 := ⟨fuel - 1, by simp only [Nt.rank] at hfuel; omega⟩
    simp only [Nt.rank] at hfuel
    rw [parse, parsepipe]
    refine (ih fuel (by omega) .exec hat (by simp only [Nt.rank]; omega)).bind ?_
    rintro cmd q ⟨pre, rest, rfl, hexec, hat⟩
    simp only [List.length_append] at hfuel
    by_cases hts : ∀ t ∈ rest.head?, t.first ∉ [124]
    · obtain ⟨q, hrun, hat⟩ := hat.passed (by decide) hts _ _
      exact Yields.of_ok hrun ⟨_, rest, rfl, .exec hexec, hat⟩
    obtain ⟨t, rest, rfl, hfirst⟩ := exists_head_of_not hts
    obtain rfl : t = .bar := Token.eq_of_first hfirst (by decide)
    obtain ⟨w, q, hrun, hat⟩ := hat.taken (by decide) hfirst _ _
    simp only [List.length_cons] at hfuel
    refine Yields.of_eq hrun
      ((ih fuel (by omega) .pipe hat (by simp only [Nt.rank]; omega)).bind ?_)
    rintro right q ⟨ts', rest, rfl, hright, hat⟩
    exact Yields.of_ok rfl ⟨_, rest, by simp, .pipe hexec hright, hat⟩
  | exec =>
    obtain ⟨fuel, rfl⟩ : ∃ f, fuel = f + 2 := ⟨fuel - 2, by simp only [Nt.rank] at hfuel; omega⟩
    simp only [Nt.rank] at hfuel
    rw [parse, parseexec]
    by_cases hts : ∀ t ∈ ts.head?, t.first ∉ [40]
    · obtain ⟨q, hrun, hat⟩ := hat.passed (by decide) hts _ _
      refine Yields.of_eq hrun ((parseredirs_yields (fuel + 1) _ hat (by omega)).bind ?_)
      rintro _ q ⟨rs, rest, rfl, rfl, hat⟩
      simp only [List.length_append] at hfuel
      refine (argLoop_yields (fuel + 1) rs [] hat (by omega) (by decide)).mono ?_
      rintro _ q ⟨args, rest, rfl, rfl, hcount, hat⟩
      refine ⟨_, rest, (List.append_assoc ..).symm, .simple rs args ?_, hat⟩
      simp only [List.length_nil, MAXARGS] at hcount ⊢
      omega
    obtain ⟨t, ts, rfl, hfirst⟩ := exists_head_of_not hts
    obtain rfl : t = .lpar := Token.eq_of_first hfirst (by decide)
    obtain ⟨q, hrun, hat⟩ := hat.found (by decide) hfirst _ _
    refine Yields.of_eq hrun ?_
    rw [parseblock]
    obtain ⟨w, q, hrun, hat⟩ := hat.taken (by decide) hfirst _ _
    simp only [List.length_cons] at hfuel
    refine Yields.of_eq hrun
      ((ih fuel (by omega) .line hat (by simp only [Nt.rank]; omega)).bind ?_)
    rintro cmd q ⟨pre, rest, rfl, hline, hat⟩
    by_cases hts : ∀ t ∈ rest.head?, t.first ∉ [41]
    · obtain ⟨q, hrun, -⟩ := hat.passed (by decide) hts _ _
      exact Or.inr ⟨_, hrun, by simp⟩
    obtain ⟨t, rest, rfl, hfirst⟩ := exists_head_of_not hts
    obtain rfl : t = .rpar := Token.eq_of_first hfirst (by decide)
    obtain ⟨w, q, hrun, hat⟩ := hat.taken (by decide) hfirst _ _
    simp only [List.length_append, List.length_cons] at hfuel
    refine Yields.of_eq hrun ((parseredirs_yields fuel _ hat (by omega)).mono ?_)
    rintro _ q ⟨rs, rest, rfl, rfl, hat⟩
    exact ⟨_, rest, by simp, .block rs hline, hat⟩

/-! ### What is derived -/

/-- What may follow a part of a line. -/
def Nt.follow : Nt → List Token
  | .line => [.rpar]
  | .pipe => [.rpar, .amp, .semi]
  | .exec => [.rpar, .amp, .semi, .bar]

theorem parseredirs_tokens (rs : List Redir) {rest : List Token} (hrest : ∀ t ∈ rest.head?,
    t.first ∉ [60, 62]) : ∀ {p : ℕ} (cmd : Cmd) {fuel : ℕ},
      At mem es p (rs.flatMap Redir.tokens ++ rest) → rs.length < fuel →
        ∃ q, parseredirs mem es fuel cmd p = .ok (redirect rs cmd, q) ∧ At mem es q rest := by
  induction rs with
  | nil =>
    rintro p cmd (_ | fuel) hat hfuel
    · omega
    · rw [parseredirs]
      exact hat.passed (by decide) hrest _ _
  | cons r rs ih =>
    rintro p cmd (_ | fuel) hat hfuel
    · omega
    · obtain ⟨w, q, hrun, hat⟩ := At.taken hat (show [60, 62] ⊆ symbols by decide)
        (by cases r.dir <;> decide) _ _
      obtain ⟨w', q', hget, hat, hw⟩ := hat.gettoken
      obtain rfl := hw r.file rfl
      rw [parseredirs, hrun, bind_of_ok hget, if_neg (by simp [Token.code]), redircmd_code]
      exact ih _ hat (by simpa using hfuel)

theorem Nt.first_of_follow (ht : t ∈ Nt.exec.follow) : t.first ∈ [124, 41, 38, 59] := by
  simp only [follow, List.mem_cons, List.not_mem_nil, or_false] at ht
  rcases ht with rfl | rfl | rfl | rfl <;> decide

/-- What comes after redirections is another argument, or the end of the command. -/
theorem head_args (args : List (Word × List Redir)) {rest : List Token}
    (hrest : ∀ t ∈ rest.head?, t ∈ Nt.exec.follow) {toks : List UInt8}
    (htoks : ∀ c ∈ [97, 124, 41, 38, 59], c ∉ toks) :
    ∀ t ∈ ((args.flatMap fun a => .word a.1 :: a.2.flatMap Redir.tokens) ++ rest).head?,
      t.first ∉ toks := by
  intro t ht
  cases args with
  | nil => exact htoks _ (List.mem_cons_of_mem _ (Nt.first_of_follow (hrest t ht)))
  | cons a args =>
    obtain rfl := Option.some.inj ht
    exact htoks 97 List.mem_cons_self

theorem length_le_tokens (rs : List Redir) : rs.length ≤ (rs.flatMap Redir.tokens).length := by
  induction rs with
  | nil => exact le_rfl
  | cons r rs ih => simp [Redir.tokens] at ih ⊢; omega

theorem argLoop_tokens (args : List (Word × List Redir)) {rest : List Token}
    (hrest : ∀ t ∈ rest.head?,
    t ∈ Nt.exec.follow) : ∀ {p : ℕ} (rs : List Redir) (ws : List Word) {fuel : ℕ},
      At mem es p ((args.flatMap fun a => .word a.1 :: a.2.flatMap Redir.tokens) ++ rest) →
        ws.length + args.length < MAXARGS →
          (args.flatMap fun a => Token.word a.1 :: a.2.flatMap Redir.tokens).length < fuel →
            ∃ q, argLoop mem es fuel ws.length (redirect rs (.exec ws)) p =
                .ok (redirect (rs ++ args.flatMap Prod.snd) (.exec (ws ++ args.map Prod.fst)), q) ∧
              At mem es q rest := by
  induction args with
  | nil =>
    rintro p rs ws (_ | fuel) hat hcount hfuel
    · omega
    · simp only [List.flatMap_nil, List.map_nil, List.append_nil, List.nil_append] at hat ⊢
      rw [argLoop]
      rcases rest with _ | ⟨t, rest⟩
      · obtain ⟨q, hrun, hat⟩ := hat.passed (show [124, 41, 38, 59] ⊆ symbols by decide)
          (by simp) _ _
        obtain ⟨w, q', hget, hat⟩ := hat.gettoken_nil
        exact ⟨q', hrun.trans (bind_of_ok hget), hat⟩
      · exact hat.found (by decide) (Nt.first_of_follow (hrest t rfl)) _ _
  | cons a args ih =>
    rintro p rs ws (_ | fuel) hat hcount hfuel
    · omega
    · simp only [List.flatMap_cons, List.cons_append, List.append_assoc, List.length_cons,
        List.length_append] at hat hcount hfuel
      obtain ⟨q, hrun, hat⟩ := hat.passed (show [124, 41, 38, 59] ⊆ symbols by decide)
        (by simp [Token.first, Token.code]) _ _
      obtain ⟨w, q, hget, hat, hw⟩ := hat.gettoken
      obtain rfl := hw a.1 rfl
      have hlen := length_le_tokens a.2
      obtain ⟨q, hredirs, hat⟩ := parseredirs_tokens a.2 (head_args args hrest (by simp))
        ((redirect rs (.exec ws)).addArg a.1) hat (show _ < fuel by omega)
      have hnext := ih (rs ++ a.2) (ws ++ [a.1]) hat (by simp; omega) (show _ < fuel by omega)
      rw [argLoop, hrun, bind_of_ok hget, if_neg (by simp [Token.code]),
        if_neg (by simp [Token.code]),
        if_neg (by omega), bind_of_ok hredirs, addArg_redirect]
      simpa [redirect_append, Cmd.addArg] using hnext

theorem backLoop_tokens (n : ℕ) {rest : List Token} (hrest : ∀ t ∈ rest.head?, t.first ∉ [38]) :
    ∀ {p : ℕ} (cmd : Cmd) {fuel : ℕ}, At mem es p (List.replicate n .amp ++ rest) → n < fuel →
      ∃ q, backLoop mem es fuel cmd p = .ok (back n cmd, q) ∧ At mem es q rest := by
  induction n with
  | zero =>
    rintro p cmd (_ | fuel) hat hfuel
    · omega
    · rw [backLoop]
      exact hat.passed (by decide) hrest _ _
  | succ n ih =>
    rintro p cmd (_ | fuel) hat hfuel
    · omega
    · obtain ⟨w, q, hrun, hat⟩ := At.taken hat (show [38] ⊆ symbols by decide) (by decide) _ _
      rw [backLoop, hrun]
      exact ih _ hat (by omega)

theorem head_amps (n : ℕ) {rest : List Token} (hrest : ∀ t ∈ rest.head?, t ∈ Nt.pipe.follow) :
    ∀ t ∈ (List.replicate n Token.amp ++ rest).head?, t ∈ Nt.pipe.follow := by
  cases n with
  | zero => exact hrest
  | succ n => simp [Nt.follow, List.replicate_succ]

/-- A pipe and the `&` after it, as `parseline` reads them. -/
theorem parseline_amps {n : ℕ} {rest : List Token} {cmd : Cmd} {fuel q : ℕ}
    (hpipe : parsepipe mem es
    fuel p = .ok (cmd, q)) (hat : At mem es q (List.replicate n .amp ++ rest))
    (hrest : ∀ t ∈ rest.head?, t.first ∉ [38]) (hfuel : n < fuel) :
    ∃ q, parseline mem es (fuel + 1) p = (do
        if ← peek mem es [59] then
          let _ ← gettoken mem es
          let right ← parseline mem es fuel
          return .list (back n cmd) right
        else return back n cmd : Parser Cmd) q ∧ At mem es q rest := by
  obtain ⟨q, hback, hat⟩ := backLoop_tokens n hrest cmd hat hfuel
  refine ⟨q, ?_, hat⟩
  rw [parseline, bind_of_ok hpipe, bind_of_ok hback]

/-- **The parser finds every derivation.** -/
theorem Derives.parses {nt : Nt} {pre : List Token} {cmd : Cmd} (h : Derives nt pre cmd) :
    ∀ {rest : List Token} {p fuel : ℕ}, At mem es p (pre ++ rest) →
      (∀ t ∈ rest.head?, t ∈ nt.follow) → 4 * pre.length + nt.rank ≤ fuel →
        ∃ q, parse mem es nt fuel p = .ok (cmd, q) ∧ At mem es q rest := by
  induction h with
  | line n hpipe ih =>
    rintro rest p (_ | fuel) hat hrest hfuel <;>
      simp only [Nt.rank, List.length_append, List.length_replicate] at hfuel
    · omega
    rw [List.append_assoc] at hat
    have hpar : ∀ t ∈ rest.head?, t = .rpar := by simpa [Nt.follow] using hrest
    obtain ⟨q, hrun, hat⟩ := ih hat (head_amps n fun t ht => by simp [hpar t ht, Nt.follow])
      (show _ ≤ fuel by simp only [Nt.rank]; omega)
    obtain ⟨q, hline, hat⟩ := parseline_amps hrun hat
      (fun t ht => by rw [hpar t ht]; decide) (by omega)
    obtain ⟨q, hpass, hat⟩ := hat.passed (show [59] ⊆ symbols by decide)
      (fun t ht => by rw [hpar t ht]; decide) _ _
    exact ⟨q, hline.trans hpass, hat⟩
  | list n hpipe hright ih ihright =>
    rintro rest p (_ | fuel) hat hrest hfuel <;>
      simp only [Nt.rank, List.length_append, List.length_replicate, List.length_cons] at hfuel
    · omega
    rw [List.append_assoc, List.append_assoc] at hat
    obtain ⟨q, hrun, hat⟩ := ih hat (head_amps n (by simp [Nt.follow]))
      (show _ ≤ fuel by simp only [Nt.rank]; omega)
    obtain ⟨q, hline, hat⟩ := parseline_amps hrun hat (by simp [Token.first, Token.code]) (by omega)
    obtain ⟨w, q, htake, hat⟩ := At.taken hat (show [59] ⊆ symbols by decide) (by decide) _ _
    obtain ⟨q, hrun, hat⟩ := ihright hat hrest (show _ ≤ fuel by simp only [Nt.rank]; omega)
    exact ⟨q, (hline.trans htake).trans (bind_of_ok hrun), hat⟩
  | exec hexec ih =>
    rintro rest p (_ | fuel) hat hrest hfuel <;> simp only [Nt.rank] at hfuel
    · omega
    obtain ⟨q, hrun, hat⟩ := ih hat (fun t ht => List.mem_append_left [Token.bar] (hrest t ht))
      (show _ ≤ fuel by simp only [Nt.rank]; omega)
    obtain ⟨q, hpass, hat⟩ := hat.passed (show [124] ⊆ symbols by decide) (fun t ht => by
      have := hrest t ht
      simp only [Nt.follow, List.mem_cons, List.not_mem_nil, or_false] at this
      rcases this with rfl | rfl | rfl <;> decide) _ _
    refine ⟨q, ?_, hat⟩
    rw [parse, parsepipe]
    exact (bind_of_ok hrun).trans hpass
  | pipe hexec hright ih ihright =>
    rintro rest p (_ | fuel) hat hrest hfuel <;>
      simp only [Nt.rank, List.length_append, List.length_cons] at hfuel
    · omega
    rw [List.append_assoc] at hat
    obtain ⟨q, hrun, hat⟩ := ih hat (by simp [Nt.follow])
      (show _ ≤ fuel by simp only [Nt.rank]; omega)
    obtain ⟨w, q, htake, hat⟩ := At.taken hat (show [124] ⊆ symbols by decide) (by decide) _ _
    obtain ⟨q, hright, hat⟩ := ihright hat hrest (show _ ≤ fuel by simp only [Nt.rank]; omega)
    refine ⟨q, ?_, hat⟩
    rw [parse, parsepipe]
    exact ((bind_of_ok hrun).trans htake).trans (bind_of_ok hright)
  | block rs hline ih =>
    rintro rest p (_ | _ | fuel) hat hrest hfuel <;>
      simp only [Nt.rank, List.length_append, List.length_cons] at hfuel
    · omega
    · omega
    rw [List.append_assoc] at hat
    obtain ⟨q, hfound, hat⟩ := At.found hat (show [40] ⊆ symbols by decide) (by decide) _ _
    obtain ⟨w, q, htake, hat⟩ := At.taken hat (show [40] ⊆ symbols by decide) (by decide) _ _
    obtain ⟨q, hrun, hat⟩ := ih hat (by simp [Nt.follow])
      (show _ ≤ fuel by simp only [Nt.rank]; omega)
    obtain ⟨w, q, htake', hat⟩ := At.taken hat (show [41] ⊆ symbols by decide) (by decide) _ _
    have hlen := length_le_tokens rs
    obtain ⟨q, hredirs, hat⟩ := parseredirs_tokens rs (head_args [] hrest (by simp)) _ hat
      (show _ < fuel by omega)
    refine ⟨q, ?_, hat⟩
    rw [parse, parseexec, hfound, parseblock, htake]
    exact ((bind_of_ok hrun).trans htake').trans hredirs
  | simple rs args hargs =>
    rintro rest p (_ | fuel) hat hrest hfuel <;>
      simp only [Nt.rank, List.length_append] at hfuel
    · omega
    rw [List.append_assoc] at hat
    have hlen := length_le_tokens rs
    obtain ⟨q, hpass, hat⟩ := hat.passed (show [40] ⊆ symbols by decide) (by
      cases rs with
      | nil => exact head_args args hrest (by simp)
      | cons r rs =>
        rintro _ ⟨⟩
        cases r.dir <;> decide) _ _
    obtain ⟨q, hredirs, hat⟩ := parseredirs_tokens rs (head_args args hrest (by simp)) (.exec [])
      hat (show _ < fuel by omega)
    obtain ⟨q, hloop, hat⟩ := argLoop_tokens args hrest rs [] hat
      (by simp only [MAXARGS, List.length_nil] at hargs ⊢; omega) (show _ < fuel by omega)
    refine ⟨q, ?_, hat⟩
    rw [parse, parseexec, hpass, bind_of_ok hredirs]
    exact hloop

theorem strlen_eq (h : Stores mem p (l ++ [0])) (hzero : 0 ∉ l) {n : ℕ} (hn : l.length < n) :
    strlen mem n p = .ok l.length := by
  induction l generalizing p n with
  | nil =>
    obtain ⟨n, rfl⟩ := Nat.exists_eq_add_of_lt hn
    simp [strlen, h.1]
    rfl
  | cons c l ih =>
    obtain ⟨n, rfl⟩ := Nat.exists_eq_succ_of_ne_zero (Nat.ne_zero_of_lt hn)
    simp only [List.mem_cons, not_or, List.length_cons] at hzero hn
    rw [strlen, h.1, if_neg (Ne.symm hzero.1), ih h.2 hzero.2 (by omega)]
    rfl

/-- `parsecmd` after `parseline`: the line is accepted if all of its tokens were read. -/
theorem parsecmd_of_parseline {line : List UInt8} {fuel q : ℕ} {cmd : Cmd} {rest : List Token}
    (hlen : strlen mem fuel p = .ok line.length)
    (hline : parseline mem (p + line.length) fuel p = .ok (cmd, q))
    (hat : At mem (p + line.length) q rest) :
    (rest = [] ∧ parsecmd fuel mem p = .ok (cmd, nulterminate cmd ⟨mem, []⟩)) ∨
      (rest ≠ [] ∧ ∃ leftovers text, parsecmd fuel mem p = .error (.panic leftovers text)) := by
  obtain ⟨q', hq, hend⟩ := hat.skip
  have hrun : parsecmd fuel mem p = if q' ≠ p + line.length then
      .error (.panic (some (stringAt mem fuel q')) "syntax")
      else .ok (cmd, nulterminate cmd ⟨mem, []⟩) := by
    unfold parsecmd
    rw [hlen]
    simp only [bind, Except.bind, hline, peek_apply [] hq]
    rfl
  rcases hend with ⟨hrest, heq, -⟩ | ⟨c, l, t, e, l', -, -, htext, -, hrest⟩
  · exact Or.inl ⟨hrest, by rw [hrun, if_neg (not_not.mpr heq)]⟩
  · have hlt := htext.ends
    rw [List.length_cons] at hlt
    exact Or.inr ⟨by rw [hrest]; exact List.cons_ne_nil _ _, _, _, by rw [hrun, if_pos (by omega)]⟩

/-- The rounds for a line. -/
def rounds (s : ℕ) (line : List UInt8) : ℕ := 4 * (tokens none s line).length + line.length + 6

section

variable {s fuel : ℕ} {line : List UInt8} (hzero : 0 ∉ line) (hmem : Stores mem s (line ++ [0]))
  (hfuel : rounds s line ≤ fuel)

include hzero hmem hfuel

theorem Derives.accepted {cmd : Cmd} (h : Derives .line (tokens none s line) cmd) :
    parsecmd fuel mem s = .ok (cmd, nulterminate cmd ⟨mem, []⟩) := by
  unfold rounds at hfuel
  have hat : At mem (s + line.length) s (tokens none s line ++ []) :=
    ⟨line, ⟨hmem, hzero, rfl⟩, (List.append_nil _).symm⟩
  obtain ⟨q, hline, hend⟩ := h.parses hat (by simp) (show _ ≤ fuel by simp only [Nt.rank]; omega)
  rcases parsecmd_of_parseline (strlen_eq hmem hzero (by omega)) hline hend with ⟨-, hrun⟩ | ⟨hne,
    -⟩
  · exact hrun
  · exact absurd rfl hne

/-- A line has a derivation, or `parsecmd` panics. -/
theorem derives_or_panic : (∃ cmd, Derives .line (tokens none s line) cmd) ∨
    ∃ leftovers text, parsecmd fuel mem s = .error (.panic leftovers text) := by
  unfold rounds at hfuel
  have hlen := strlen_eq hmem hzero (show line.length < fuel by omega)
  have hat : At mem (s + line.length) s (tokens none s line) := ⟨line, ⟨hmem, hzero, rfl⟩, rfl⟩
  rcases parse_yields fuel .line hat (by simp only [Nt.rank]; omega) with
    ⟨cmd, q, hline, pre, rest, hts, hderives, hrest⟩ | ⟨e, hline, he⟩
  · rcases parsecmd_of_parseline hlen hline hrest with ⟨rfl, -⟩ | ⟨-, hpanic⟩
    · rw [List.append_nil] at hts
      exact Or.inl ⟨cmd, hts ▸ hderives⟩
    · exact Or.inr hpanic
  · cases e with
    | panic leftovers text =>
      refine Or.inr ⟨leftovers, text, ?_⟩
      unfold parsecmd
      rw [hlen]
      simp only [bind, Except.bind, show parseline _ _ _ _ = _ from hline]
    | rounds => exact absurd rfl he

theorem derives_of_parsecmd {cmd : Cmd} {b : Buffer} (hrun : parsecmd fuel mem s = .ok (cmd, b)) :
    Derives .line (tokens none s line) cmd ∧ b = nulterminate cmd ⟨mem, []⟩ := by
  rcases derives_or_panic hzero hmem hfuel with ⟨cmd', hderives⟩ | ⟨leftovers, text, hpanic⟩
  · cases hrun.symm.trans (hderives.accepted hzero hmem hfuel)
    exact ⟨hderives, rfl⟩
  · cases hrun.symm.trans hpanic

end

/-- **The parser accepts exactly its grammar.**  For every line and with enough rounds, `parsecmd`
returns the tree of the derivation of all tokens, and exits through `panic` if there is none. -/
theorem parsecmd_iff_derives (mem : ℕ → UInt8) (s : ℕ) (line : List UInt8) (hzero : 0 ∉ line)
    (hmem : Stores mem s (line ++ [0])) : ∃ n, ∀ fuel ≥ n,
      (∀ cmd b, parsecmd fuel mem s = .ok (cmd, b) ↔
        Derives .line (tokens none s line) cmd ∧ b = nulterminate cmd ⟨mem, []⟩) ∧
      ((¬∃ cmd, Derives .line (tokens none s line) cmd) →
        ∃ leftovers text, parsecmd fuel mem s = .error (.panic leftovers text)) := by
  refine ⟨rounds s line, fun fuel hfuel => ⟨fun cmd b => ⟨?_, ?_⟩, ?_⟩⟩
  · exact derives_of_parsecmd hzero hmem hfuel
  · rintro ⟨hderives, rfl⟩
    exact hderives.accepted hzero hmem hfuel
  · exact (derives_or_panic hzero hmem hfuel).resolve_left

/-- The line `a|b`. -/
theorem parsecmd_pipe : ∃ n, ∀ fuel ≥ n, ∃ b, parsecmd fuel (cstr [97, 124, 98]) 0 =
    .ok (.pipe (.exec [⟨0, 1⟩]) (.exec [⟨2, 3⟩]), b) := by
  have hderives : Derives .line (tokens none 0 [97, 124, 98])
      (.pipe (.exec [⟨0, 1⟩]) (.exec [⟨2, 3⟩])) :=
    .line 0 (.pipe (.simple [] [(⟨0, 1⟩, [])] (by decide))
      (.exec (.simple [] [(⟨2, 3⟩, [])] (by decide))))
  obtain ⟨n, hn⟩ := parsecmd_iff_derives (cstr [97, 124, 98]) 0 [97, 124, 98] (by decide)
    ⟨rfl, rfl, rfl, rfl, trivial⟩
  exact ⟨n, fun fuel hfuel => ⟨_, ((hn fuel hfuel).1 _ _).mpr ⟨hderives, rfl⟩⟩⟩

end Xv6Ext2.Shell
