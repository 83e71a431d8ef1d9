import Mathlib.Data.List.Induction
import Xv6Ext2.Shell.Parse

/-!
# Running the commands of the shell

What `parsecmd` leaves in the line buffer, and what `runcmd` does with the tree: every word of
the tree is a string of its own, and the redirections of a command are opened from the last one
written to the first, since `parseredirs` puts each one around the command so far and `runcmd`
starts outside.  So `a > b > c` writes to `b`.

A process is described by the files it opens in turn, the processes it forks, and how it ends.
Strings are read from the memory through `text`.

## Main definitions

* `Cmd.words` — the words of a tree.
* `Proc` — the open files of a process and its calls so far.
* `Process`, `runcmd` — what a process does, and the function of the source.
* `InOrder` — redirections are applied from left to right.

## Main results

* `words_of_parsecmd` — **the words of the tree are strings**: no zero falls into a word.
* `runcmd_redirect` — the redirections that are opened, and the files in the end.
* `inOrder_iff` — **redirections are applied from left to right exactly if they read the same
  backwards**.
-/

namespace Xv6Ext2.Shell

open CString

variable {mem : ℕ → UInt8} {es p : ℕ} {l : List UInt8} {ts : List Token} {cmd : Cmd} {w : Word}

/-! ### Words -/

def Cmd.words : Cmd → List Word
  | .exec argv => argv
  | .redir cmd file _ _ => cmd.words ++ [file]
  | .pipe left right => left.words ++ right.words
  | .list left right => left.words ++ right.words
  | .back cmd => cmd.words

theorem nulterminate_eq (cmd : Cmd) (b : Buffer) :
    nulterminate cmd b = cmd.words.foldl (fun b w => b.clear w.eq) b := by
  induction cmd generalizing b with
  | exec argv => rfl
  | redir cmd file mode fd ih => simp [nulterminate, Cmd.words, ih]
  | pipe left right ihl ihr => simp [nulterminate, Cmd.words, ihl, ihr]
  | list left right ihl ihr => simp [nulterminate, Cmd.words, ihl, ihr]
  | back cmd ih => exact ih b

/-- The buffer in the end. -/
theorem clear_words (ws : List Word) (b : Buffer) :
    (∀ i, i ∈ (ws.foldl (fun b w => b.clear w.eq) b).written ↔ (∃ w ∈ ws, w.eq = i) ∨
      i ∈ b.written) ∧
      ∀ i, (ws.foldl (fun b w => b.clear w.eq) b).mem i = if ∃ w ∈ ws, w.eq =
        i then 0 else b.mem i := by
  induction ws generalizing b with
  | nil => simp
  | cons w ws ih =>
    obtain ⟨hwritten, hmem⟩ := ih (b.clear w.eq)
    refine ⟨fun i => ?_, fun i => ?_⟩
    · rw [List.foldl_cons, hwritten]
      simp [Buffer.clear, eq_comm, or_assoc, or_left_comm]
    · rw [List.foldl_cons, hmem]
      by_cases hi : i = w.eq <;> simp [Buffer.clear, hi, eq_comm]

theorem words_redirect (rs : List Redir) (cmd : Cmd) :
    (redirect rs cmd).words = cmd.words ++ rs.map Redir.file := by
  induction rs generalizing cmd with
  | nil => simp [redirect]
  | cons r rs ih => exact (ih _).trans (by simp [Cmd.words])

theorem words_back (n : ℕ) (cmd : Cmd) : (back n cmd).words = cmd.words := by
  induction n generalizing cmd with
  | zero => rfl
  | succ n ih => exact ih _

theorem mem_tokens_file {rs : List Redir} :
    .word w ∈ rs.flatMap Redir.tokens ↔ w ∈ rs.map Redir.file := by
  have hdir : ∀ r : Redir, Token.word w ≠ r.dir.token := by
    rintro ⟨d, file⟩
    cases d <;> exact Token.noConfusion
  simp only [List.mem_flatMap, List.mem_map, Redir.tokens, List.mem_cons, hdir, false_or,
    List.not_mem_nil, or_false, Token.word.injEq]
  exact exists_congr fun r => and_congr_right fun _ => eq_comm

/-- The words of a tree are the words of the line. -/
theorem Derives.mem_tokens {nt : Nt} (h : Derives nt ts cmd) : .word w ∈ ts ↔ w ∈ cmd.words := by
  have hamp : ∀ n, Token.word w ∉ List.replicate n .amp := fun n hw =>
    Token.noConfusion (List.eq_of_mem_replicate hw)
  induction h with
  | line n hpipe ih => simp [words_back, hamp, ih]
  | list n hpipe hright ih ihright => simp [Cmd.words, words_back, hamp, ih, ihright]
  | exec hexec ih => exact ih
  | pipe hexec hright ih ihright => simp [Cmd.words, ih, ihright]
  | block rs hline ih =>
    rw [words_redirect, List.mem_append, List.mem_append, List.mem_cons, List.mem_cons,
      mem_tokens_file]
    simp [ih]
  | simple rs args hargs =>
    have hargs : .word w ∈ args.flatMap (fun a => .word a.1 :: a.2.flatMap Redir.tokens) ↔
        w ∈ args.map Prod.fst ∨ w ∈ (args.flatMap Prod.snd).map Redir.file := by
      rw [List.mem_flatMap, List.mem_map, List.map_flatMap, List.mem_flatMap, ← exists_or]
      refine exists_congr fun a => ?_
      rw [List.mem_cons, mem_tokens_file, Token.word.injEq, ← and_or_left, eq_comm]
    rw [words_redirect, List.mem_append, List.mem_append, List.map_append, List.mem_append, hargs,
      mem_tokens_file]
    exact or_left_comm

theorem Text.ne_zero (h : Text mem es p l) {i : ℕ} (hp : p ≤ i) (hi : i < es) : mem i ≠ 0 := by
  have hends := h.ends
  have hbyte := stores_iff.mp (stores_append.mp h.stores).1 (i - p) (by omega)
  rw [Nat.add_sub_cancel' hp] at hbyte
  rw [hbyte]
  exact fun h0 => h.nonzero (h0 ▸ List.getElem_mem _)

/-- A word of the text up to `es`: it ends where its bytes end. -/
structure Spans (mem : ℕ → UInt8) (s es : ℕ) (w : Word) : Prop where
  lower : s ≤ w.q
  nonempty : w.q < w.eq
  upper : w.eq ≤ es
  bytes : ∀ i, w.q ≤ i → i < w.eq → ordinary (mem i)
  ends : w.eq = es ∨ ¬ordinary (mem w.eq)

theorem spans_of_mem_closed {s : ℕ} {start : Option ℕ}
    (hstart : ∀ q ∈ start, s ≤ q ∧ q < p ∧ ∀ i, q ≤ i → i < p → ordinary (mem i)) (hle : p ≤ es)
    (hends : p = es ∨ ¬ordinary (mem p)) (hw : .word w ∈ closed start p) : Spans mem s es w := by
  simp only [closed, Option.mem_toList, Option.map_eq_some_iff] at hw
  obtain ⟨q, hq, hword⟩ := hw
  obtain rfl := Token.word.inj hword
  obtain ⟨hlower, hnonempty, hbytes⟩ := hstart q hq
  exact ⟨hlower, hnonempty, hle, hbytes, hends⟩

theorem spans_of_mem_tokens {s : ℕ} {start : Option ℕ} (h : Text mem es p l) (hs : s ≤ p)
    (hstart : ∀ q ∈ start, s ≤ q ∧ q < p ∧ ∀ i, q ≤ i → i < p → ordinary (mem i))
    (hw : .word w ∈ tokens start p l) : Spans mem s es w := by
  have hends := h.ends
  fun_induction tokens start p l with
  | case1 start p => exact spans_of_mem_closed hstart (Nat.le_of_eq hends) (Or.inl hends) hw
  | case2 start p l ih =>
    simp only [List.length_cons] at hends
    rw [List.mem_append, List.mem_cons] at hw
    rcases hw with hw | hw | hw
    · exact spans_of_mem_closed hstart (by omega) (Or.inr (by rw [h.stores.1]; decide)) hw
    · cases hw
    · exact ih h.tail.tail (by omega) (by simp) hw h.tail.tail.ends
  | case3 start p c l hone hc ih =>
    -- the byte at `p` joins the word
    refine ih h.tail (by omega) (fun q hq => ?_) hw h.tail.ends
    obtain rfl := Option.some.inj hq
    have hbyte : ordinary (mem p) := by rwa [h.stores.1]
    cases start with
    | none =>
      refine ⟨hs, Nat.lt_succ_self p, fun i hqi hi => ?_⟩
      obtain rfl : i = p := Nat.le_antisymm (Nat.le_of_lt_succ hi) hqi
      exact hbyte
    | some q =>
      obtain ⟨hlower, hnonempty, hbytes⟩ := hstart q rfl
      refine ⟨hlower, Nat.lt_succ_of_lt hnonempty, fun i hqi hi => ?_⟩
      rcases Nat.lt_succ_iff_lt_or_eq.mp hi with hi | rfl
      · exact hbytes i hqi hi
      · exact hbyte
  | case4 start p c l hone hc ih =>
    simp only [List.length_cons] at hends
    rw [List.mem_append, List.mem_append] at hw
    rcases hw with (hw | hw) | hw
    · exact spans_of_mem_closed hstart (by omega) (Or.inr (by rwa [h.stores.1])) hw
    · rw [Option.mem_toList] at hw
      unfold symbol at hw
      split_ifs at hw <;> cases hw
    · exact ih h.tail (by omega) (by simp) hw h.tail.ends

/-- **The words of the tree are strings.**  The words of a tree that `parsecmd` returns are the
words of the line, and the string at each of them is the text from its start to its end; zeros are
written in the line and its end only, and no byte of a word is overwritten. -/
theorem words_of_parsecmd (mem : ℕ → UInt8) (s : ℕ) (line : List UInt8) (hzero : 0 ∉ line)
    (hmem : Stores mem s (line ++ [0])) : ∃ n, ∀ fuel ≥ n, ∀ cmd b,
      parsecmd fuel mem s = .ok (cmd, b) →
        (∀ w, w ∈ cmd.words ↔ .word w ∈ tokens none s line) ∧
        (∀ w ∈ cmd.words, ∀ k ≥ line.length,
          stringAt b.mem k w.q = (List.range (w.eq - w.q)).map fun i => mem (w.q + i)) ∧
        (∀ i ∈ b.written, s ≤ i ∧ i ≤ s + line.length) ∧ (∀ i ∉ b.written, b.mem i = mem i) ∧
        ∀ w ∈ cmd.words, ∀ i, w.q ≤ i → i < w.eq → i ∉ b.written := by
  refine ⟨rounds s line, fun fuel hfuel cmd b hrun => ?_⟩
  obtain ⟨hderives, rfl⟩ := derives_of_parsecmd hzero hmem hfuel hrun
  have htext : Text mem (s + line.length) s line := ⟨hmem, hzero, rfl⟩
  have hspans : ∀ w ∈ cmd.words, Spans mem s (s + line.length) w := fun w hw =>
    spans_of_mem_tokens htext le_rfl (by simp) (hderives.mem_tokens.mpr hw)
  obtain ⟨hwritten, hbytes⟩ := clear_words cmd.words ⟨mem, []⟩
  rw [← nulterminate_eq] at hwritten hbytes
  generalize nulterminate cmd ⟨mem, []⟩ = b at *
  -- a word ends at a byte that is in no word
  have hapart : ∀ w ∈ cmd.words, ∀ i, w.q ≤ i → i < w.eq → ¬∃ v ∈ cmd.words, v.eq = i := by
    rintro w hw i hqi hi ⟨v, hv, rfl⟩
    have hupper := (hspans w hw).upper
    rcases (hspans v hv).ends with hends | hends
    · omega
    · exact hends ((hspans w hw).bytes _ hqi hi)
  refine ⟨fun w => hderives.mem_tokens.symm, fun w hw k hk => ?_, fun i hi => ?_, fun i hi => ?_,
    fun w hw i hqi hi => ?_⟩
  · have hw' := hspans w hw
    refine Stores.stringAt (stores_append.mpr ⟨stores_iff.mpr fun i hi => ?_, ?_, trivial⟩) ?_ ?_
    · rw [List.length_map, List.length_range] at hi
      rw [List.getElem_map, List.getElem_range, hbytes,
        if_neg (hapart w hw _ (by omega) (by omega))]
    · have hend : w.q + (w.eq - w.q) = w.eq := Nat.add_sub_cancel' (Nat.le_of_lt hw'.nonempty)
      rw [List.length_map, List.length_range, hend, hbytes, if_pos ⟨w, hw, rfl⟩]
    · rw [List.mem_map]
      rintro ⟨i, hi, hi0⟩
      rw [List.mem_range] at hi
      have := hw'.upper
      exact htext.ne_zero (Nat.le_add_right_of_le hw'.lower) (by omega) hi0
    · rw [List.length_map, List.length_range]
      have := hw'.upper
      have := hw'.lower
      omega
  · obtain ⟨w, hw, rfl⟩ := ((hwritten i).mp hi).resolve_right List.not_mem_nil
    have hw' := hspans w hw
    exact ⟨by have := hw'.lower; have := hw'.nonempty; omega, hw'.upper⟩
  · rw [hbytes, if_neg fun hw => hi ((hwritten i).mpr (Or.inl hw))]
  · rw [hwritten]
    exact not_or.mpr ⟨hapart w hw i hqi hi, List.not_mem_nil⟩

/-- The line `a|b`, in which the bar is overwritten: the words are the strings `a` and `b`. -/
theorem words_of_parsecmd_pipe : ∃ n, ∀ fuel ≥ n, ∃ b,
    parsecmd fuel (cstr [97, 124, 98]) 0 = .ok (.pipe (.exec [⟨0, 1⟩]) (.exec [⟨2, 3⟩]), b) ∧
      stringAt b.mem 3 0 = [97] ∧ stringAt b.mem 3 2 = [98] ∧
      (∀ i ∈ b.written, i ≤ 3) ∧ 0 ∉ b.written ∧ 2 ∉ b.written := by
  have hzero : (0 : UInt8) ∉ [97, 124, 98] := by decide
  have hmem : Stores (cstr [97, 124, 98]) 0 ([97, 124, 98] ++ [0]) := ⟨rfl, rfl, rfl, rfl, trivial⟩
  have hderives : Derives .line (tokens none 0 [97, 124, 98])
      (.pipe (.exec [⟨0, 1⟩]) (.exec [⟨2, 3⟩])) :=
    .line 0 (.pipe (.simple [] [(⟨0, 1⟩, [])] (by decide))
      (.exec (.simple [] [(⟨2, 3⟩, [])] (by decide))))
  obtain ⟨n, hn⟩ := words_of_parsecmd (cstr [97, 124, 98]) 0 [97, 124, 98] hzero hmem
  refine ⟨max n (rounds 0 [97, 124, 98]), fun fuel hfuel => ?_⟩
  have hrun := hderives.accepted hzero hmem (Nat.le_trans (Nat.le_max_right ..) hfuel)
  obtain ⟨-, hstrings, hwritten, -, hkept⟩ := hn fuel
    (Nat.le_trans (Nat.le_max_left ..) hfuel) _ _ hrun
  have ha : (⟨0, 1⟩ : Word) ∈ (Cmd.pipe (.exec [⟨0, 1⟩]) (.exec [⟨2, 3⟩])).words := by decide
  have hb : (⟨2, 3⟩ : Word) ∈ (Cmd.pipe (.exec [⟨0, 1⟩]) (.exec [⟨2, 3⟩])).words := by decide
  exact ⟨_, hrun, hstrings _ ha 3 le_rfl, hstrings _ hb 3 le_rfl,
    fun i hi => (hwritten i hi).2, hkept _ ha 0 (by decide) (by decide),
    hkept _ hb 2 (by decide) (by decide)⟩

/-! ### Running -/

/-- What a descriptor refers to. -/
inductive Obj
  | file (name : List UInt8) (mode : ℕ)
  | pipe (id : ℕ) (writable : Bool)
  | other (id : ℕ)
deriving DecidableEq

/-- The calls of the kernel, with their results, and the messages of the shell. -/
inductive Event
  | close (fd : ℕ)
  | open (name : List UInt8) (mode : ℕ) (fd : Option ℕ)
  | pipe (fds : Option (ℕ × ℕ))
  | dup (fd : ℕ) (fd' : Option ℕ)
  | fork (done : Bool)
  | exec (argv : List (List UInt8)) (done : Bool)
  | wait
  | print (format : String) (arg : List UInt8)
deriving DecidableEq

/-- A process: its open files and its calls so far, the last one first. -/
structure Proc where
  ofile : ℕ → Option Obj
  log : List Event

/-- Which calls the kernel can serve, after those that were made. -/
structure Kernel where
  opens : List Event → Bool
  pipes : List Event → Bool
  forks : List Event → Bool
  execs : List Event → Bool

def NOFILE : ℕ := 16

namespace Proc

variable (k : Kernel) (s : Proc)

def did (e : Event) : Proc := { s with log := e :: s.log }

/-- The first descriptor that is not in use. -/
def fdalloc : Option ℕ := (List.range NOFILE).find? fun fd => (s.ofile fd).isNone

def close (fd : ℕ) : Proc := ⟨Function.update s.ofile fd none, .close fd :: s.log⟩

def install (fd : ℕ) (o : Obj) : Proc := { s with ofile := Function.update s.ofile fd (some o) }

/-- `open(name, mode)`, which may fail. -/
def openFile (name : List UInt8) (mode : ℕ) : Option Proc := do
  let fd ← if k.opens s.log then s.fdalloc else none
  return (s.install fd (.file name mode)).did (.open name mode (some fd))

/-- `pipe(p)`, which may fail. -/
def pipe : Option (ℕ × ℕ × Proc) := do
  let fd0 ← if k.pipes s.log then s.fdalloc else none
  let s := s.install fd0 (.pipe s.log.length false)
  let fd1 ← s.fdalloc
  return (fd0, fd1, (s.install fd1 (.pipe s.log.length true)).did (.pipe (some (fd0, fd1))))

/-- `dup(fd)`. -/
def dup (fd : ℕ) : Proc :=
  match s.ofile fd, s.fdalloc with
  | some o, some fd' => (s.install fd' o).did (.dup fd (some fd'))
  | _, _ => s.did (.dup fd none)

end Proc

/-- What a process does: the files that it opens for redirections, with the process after that,
the processes that it forks, and how it ends. -/
inductive Process
  | exit (status : ℕ) (s : Proc)
  | exec (argv : List (List UInt8)) (s : Proc)
  | opens (name : List UInt8) (mode : ℕ) (s : Proc) (next : Process)
  | fork (child parent : Process)

/-- `panic(text)`. -/
def panic (text : String) (s : Proc) : Process := .exit 1 (s.did (.print (text ++ "\n") []))

/-- `fork1()`, and what the child and the parent do. -/
def fork1 (k : Kernel) (s : Proc) (child parent : Proc → Process) : Process :=
  if k.forks s.log then .fork (child (s.did (.fork true))) (parent (s.did (.fork true)))
  else panic "fork" (s.did (.fork false))

/-- `runcmd(cmd)`, where `text` gives the string at an address. -/
def runcmd (text : ℕ → List UInt8) (k : Kernel) : Cmd → Proc → Process
  | .exec [], s => .exit 1 s
  | .exec (w :: ws), s =>
    let argv := (w :: ws).map fun w => text w.q
    if k.execs s.log then .exec argv (s.did (.exec argv true))
    else .exit 0 ((s.did (.exec argv false)).did (.print "exec %s failed\n" (text w.q)))
  | .redir cmd file mode fd, s =>
    let s := s.close fd
    match s.openFile k (text file.q) mode with
    | none => .exit 1 ((s.did (.open (text file.q) mode none)).did
        (.print "open %s failed\n" (text file.q)))
    | some s => .opens (text file.q) mode s (runcmd text k cmd s)
  | .list left right, s =>
    fork1 k s (fun s => runcmd text k left s) fun s => runcmd text k right (s.did .wait)
  | .pipe left right, s =>
    match s.pipe k with
    | none => panic "pipe" (s.did (.pipe none))
    | some (p0, p1, s) =>
      fork1 k s (fun s => runcmd text k left ((((s.close 1).dup p1).close p0).close p1)) fun s =>
        fork1 k s (fun s => runcmd text k right ((((s.close 0).dup p0).close p0).close p1)) fun s =>
          .exit 0 ((((s.close p0).close p1).did .wait).did .wait)
  | .back cmd, s => fork1 k s (fun s => runcmd text k cmd s) fun s => .exit 0 s

/-! ### Redirections -/

/-- The first `n` files that a process opens, with the process and what it does after that. -/
def Process.opened : ℕ → Proc → Process → Option (List (List UInt8 × ℕ) × Proc × Process)
  | 0, s, next => some ([], s, next)
  | n + 1, _, .opens name mode s next =>
    (opened n s next).map fun r => ((name, mode) :: r.1, r.2)
  | _ + 1, _, _ => none

/-- The file that a redirection asks for. -/
def Redir.request (text : ℕ → List UInt8) (r : Redir) : List UInt8 × ℕ :=
    (text r.file.q, r.dir.mode)

/-- **Redirections are applied from left to right**: with the first three descriptors in use and
every `open` successful, the files are opened in the order written, and when the command inside is
run each descriptor refers to the file of the last redirection for it. -/
def InOrder (text : ℕ → List UInt8) (rs : List Redir) (inner cmd : Cmd) : Prop :=
  ∀ (k : Kernel) (s : Proc), (∀ log, k.opens log) → (∀ fd < 3, (s.ofile fd).isSome) →
    ∃ s', (runcmd text k cmd s).opened rs.length s =
        some (rs.map (Redir.request text), s', runcmd text k inner s') ∧
      ∀ fd, ∀ r ∈ (rs.filter (·.dir.fd = fd)).getLast?,
        s'.ofile fd = some (.file (text r.file.q) r.dir.mode)

variable {text : ℕ → List UInt8} {k : Kernel} {s : Proc}

/-- After `close(fd)`, an `open` returns `fd`. -/
theorem openFile_close (hopens : ∀ log, k.opens log) (hs : ∀ fd < 3, (s.ofile fd).isSome) (d : Dir)
    (name : List UInt8) (mode : ℕ) : ∃ s', (s.close d.fd).openFile k name mode = some s' ∧
      s'.ofile = Function.update s.ofile d.fd (some (.file name mode)) := by
  have h0 := Option.isSome_iff_ne_none.mp (hs 0 (by decide))
  have halloc : (s.close d.fd).fdalloc = some d.fd := by
    unfold Proc.fdalloc
    cases d <;> simp [NOFILE, List.range_succ_eq_map, Proc.close, Dir.fd, h0]
  refine ⟨_, by rw [Proc.openFile, if_pos (hopens _), halloc]; rfl, ?_⟩
  simp [Proc.did, Proc.install, Proc.close]

/-- **The last redirection is opened first.** -/
theorem runcmd_redirect (hopens : ∀ log, k.opens log) (inner : Cmd) (rs : List Redir) :
    ∀ s : Proc, (∀ fd < 3, (s.ofile fd).isSome) → ∃ s',
      (runcmd text k (redirect rs inner) s).opened rs.length s =
          some ((rs.map (Redir.request text)).reverse, s', runcmd text k inner s') ∧
        ∀ fd, s'.ofile fd = ((rs.find? (·.dir.fd = fd)).map fun r =>
          Obj.file (text r.file.q) r.dir.mode).or (s.ofile fd) := by
  induction rs using List.reverseRecOn with
  | nil => exact fun s _ => ⟨s, rfl, fun _ => rfl⟩
  | append_singleton rs r ih =>
    intro s hs
    obtain ⟨s₁, hopen, hfiles⟩ := openFile_close hopens hs r.dir (text r.file.q) r.dir.mode
    obtain ⟨s', hrun, hfinal⟩ := ih s₁ fun fd hfd => by
      rw [hfiles, Function.update_apply]
      split
      · rfl
      · exact hs fd hfd
    refine ⟨s', ?_, fun fd => ?_⟩
    · rw [redirect_append, List.length_append, List.length_singleton]
      show (runcmd text k (.redir (redirect rs inner) r.file r.dir.mode r.dir.fd) s).opened _ _ = _
      rw [runcmd, hopen]
      simp only [Process.opened, hrun, Option.map_some, List.map_append, List.reverse_append]
      rfl
    · rw [hfinal, hfiles, Function.update_apply, List.find?_append]
      cases rs.find? (·.dir.fd = fd) with
      | some r' => rfl
      | none => by_cases hfd : fd = r.dir.fd <;> simp [hfd, eq_comm]

/-- The descriptor of a redirection is known by its mode. -/
theorem Dir.fd_eq (d : Dir) : d.fd = if d.mode = O_RDONLY then 0 else 1 := by cases d <;> rfl

/-- With the same requests backwards, the first and the last redirection of a descriptor ask for
the same file. -/
theorem getLast?_request {rs : List Redir}
    (h : (rs.map (Redir.request text)).reverse = rs.map (Redir.request text)) (fd : ℕ) :
    (rs.filter (·.dir.fd = fd)).getLast?.map (Redir.request text) =
      (rs.find? (·.dir.fd = fd)).map (Redir.request text) := by
  have hfilter : (rs.filter (·.dir.fd = fd)).map (Redir.request text) =
      (rs.map (Redir.request text)).filter fun q => if q.2 = O_RDONLY then 0 = fd else 1 = fd := by
    rw [List.filter_map]
    congr 2
    funext r
    simp only [Function.comp, Redir.request, Dir.fd_eq]
    by_cases hmode : r.dir.mode = O_RDONLY <;> simp [hmode]
  calc _ = ((rs.map (Redir.request text)).filter _).getLast? := by rw [← List.getLast?_map, hfilter]
    _ = ((rs.map (Redir.request text)).filter _).reverse.head? := (List.head?_reverse ..).symm
    _ = ((rs.map (Redir.request text)).filter _).head? := by rw [← List.filter_reverse, h]
    _ = _ := by rw [← hfilter, List.head?_map, List.head?_filter]

/-- A simple command or a block, with its redirections. -/
inductive Form
  | simple (rs : List Redir) (args : List (Word × List Redir))
  | block (body : List Token) (inner : Cmd) (rs : List Redir)

namespace Form

def tokens : Form → List Token
  | simple rs args =>
    rs.flatMap Redir.tokens ++ args.flatMap fun a => .word a.1 :: a.2.flatMap Redir.tokens
  | block body _ rs => .lpar :: body ++ .rpar :: rs.flatMap Redir.tokens

def redirs : Form → List Redir
  | simple rs args => rs ++ args.flatMap Prod.snd
  | block _ _ rs => rs

/-- The command inside the redirections. -/
def inner : Form → Cmd
  | simple _ args => .exec (args.map Prod.fst)
  | block _ inner _ => inner

def Ok : Form → Prop
  | simple _ args => args.length ≤ MAXARGS - 1
  | block body inner _ => Derives .line body inner

theorem derives {f : Form} (h : f.Ok) : Derives .exec f.tokens (redirect f.redirs f.inner) := by
  cases f with
  | simple rs args => exact .simple rs args h
  | block body inner rs => exact .block rs h

end Form

/-- **Redirections are applied from left to right exactly if they read the same backwards**, for
every simple command and every block that `parseexec` reads. -/
theorem inOrder_iff (f : Form) (hf : f.Ok) {rest : List Token}
    (hat : At mem es p (f.tokens ++ rest))
    (hrest : ∀ t ∈ rest.head?, t ∈ Nt.exec.follow) (text : ℕ → List UInt8) :
    ∃ n, ∀ fuel ≥ n, ∃ cmd q, parseexec mem es fuel p = .ok (cmd, q) ∧ At mem es q rest ∧
      (InOrder text f.redirs f.inner cmd ↔
        (f.redirs.map (Redir.request text)).reverse = f.redirs.map (Redir.request text)) := by
  refine ⟨4 * f.tokens.length + 4, fun fuel hfuel => ?_⟩
  obtain ⟨q, hrun, hend⟩ := (Form.derives hf).parses hat hrest hfuel
  refine ⟨_, q, hrun, hend, fun hall => ?_, fun hpal k s hopens hs => ?_⟩
  · have hk : ∀ log, (⟨fun _ => true, fun _ => true, fun _ => true,
      fun _ => true⟩ : Kernel).opens log :=
      fun _ => rfl
    have hs : ∀ fd < 3, ((⟨fun fd => some (.other fd), []⟩ : Proc).ofile fd).isSome :=
      fun _ _ => rfl
    obtain ⟨s', hwritten, -⟩ := hall _ _ hk hs
    obtain ⟨s'', hopened, -⟩ := runcmd_redirect hk f.inner f.redirs _ hs
    exact congrArg Prod.fst (Option.some.inj (hopened.symm.trans hwritten))
  · obtain ⟨s', hopened, hfiles⟩ := runcmd_redirect hopens f.inner f.redirs s hs
    rw [hpal] at hopened
    refine ⟨s', hopened, fun fd r hr => ?_⟩
    have hsame := getLast?_request hpal fd
    rw [Option.mem_def.mp hr, Option.map_some] at hsame
    obtain ⟨r', hfind, hreq⟩ := Option.map_eq_some_iff.mp hsame.symm
    obtain ⟨hname, hmode⟩ := Prod.mk.inj hreq
    rw [hfiles, hfind, Option.map_some, Option.some_or, hname, hmode]

/-- The line `a<b>c<b`, whose redirections read the same backwards. -/
theorem inOrder_iff_palindrome : ∃ n, ∀ fuel ≥ n, ∃ cmd q,
    parseexec (cstr [97, 60, 98, 62, 99, 60, 98]) 7 fuel 0 = .ok (cmd, q) ∧
      InOrder (stringAt (cstr [97, 0, 98, 0, 99, 0, 98]) 7)
        [⟨.less, ⟨2, 3⟩⟩, ⟨.great, ⟨4, 5⟩⟩, ⟨.less, ⟨6, 7⟩⟩] (.exec [⟨0, 1⟩]) cmd := by
  let f := Form.simple [] [(⟨0, 1⟩, [⟨.less, ⟨2, 3⟩⟩, ⟨.great, ⟨4, 5⟩⟩, ⟨.less, ⟨6, 7⟩⟩])]
  have hat : At (cstr [97, 60, 98, 62, 99, 60, 98]) 7 0 (f.tokens ++ []) :=
    ⟨[97, 60, 98, 62, 99, 60, 98],
      ⟨⟨rfl, rfl, rfl, rfl, rfl, rfl, rfl, rfl, trivial⟩, by decide, rfl⟩, rfl⟩
  have hok : f.Ok := show 1 ≤ MAXARGS - 1 by decide
  obtain ⟨n, hn⟩ := inOrder_iff f hok hat (by simp) (stringAt (cstr [97, 0, 98, 0, 99, 0, 98]) 7)
  refine ⟨n, fun fuel hfuel => ?_⟩
  obtain ⟨cmd, q, hrun, -, hiff⟩ := hn fuel hfuel
  exact ⟨cmd, q, hrun, hiff.mpr (by decide)⟩

/-- The line `a<b<c`: `c` is opened before `b`, and the command reads from `b`. -/
theorem redirected_backwards : (parsecmd 40 (cstr [97, 60, 98, 60, 99]) 0).toOption.map (fun r =>
    ((runcmd (stringAt r.2.mem 5) ⟨fun _ => true, fun _ => true, fun _ => true, fun _ => true⟩ r.1
      ⟨fun fd => some (.other fd), []⟩).opened 2 ⟨fun fd => some (.other fd), []⟩).map fun o =>
        (o.1, o.2.1.ofile 0)) =
    some (some ([([99], O_RDONLY), ([98], O_RDONLY)], some (.file [98] O_RDONLY))) := by
  decide +kernel

end Xv6Ext2.Shell
