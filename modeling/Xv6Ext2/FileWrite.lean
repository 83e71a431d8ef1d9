import Xv6Ext2.Kernel
import Xv6Ext2.Log

/-!
# Writers that share an open file

`filewrite` of `kernel/file.c` on a file with an inode: a request is cut into chunks of a few
blocks, and the lock of the inode is given up between two chunks.  Any number of processes
write to the same open file, chunk by chunk, in any order.

## Main definitions

* `filewriteChunk`, `filewriteRound`, `filewriteLoop`, `filewrite` — the source function: what
  happens under the lock, a round of the loop, the loop, and the function.
* `OpenOn` — the file is open for writing on an inode whose blocks are in order.
* `Writers`, `WriteEvent`, `WriteRuns` — processes that write to one file, and their runs.

## Main results

* `OpenOn.chunk` — a chunk writes its bytes at `f->off`, which moves behind them.
* `OpenOn.loop` — the chunks of one call add up to one write.
* `shared_writes_of_runs` — **writes neither overlap nor vanish**.
-/

namespace Xv6Ext2

open Bytes Function Prog

/-! ### The source function -/

/-- The bytes `filewrite` writes at a time. -/
def maxChunk : ℕ := (MAXOPBLOCKS - 1 - 1 - 2) / 2 * BSIZE

/-- The source from its byte `i` on. -/
def CopySrc.from (src : CopySrc) (i : ℕ) : CopySrc :=
  ⟨fun x => src.mem (i + x), fun tot m => src.fails (i + tot) m⟩

section Source

variable {σ β : Type} [BlockLayer σ β]

/-- What `filewrite` does under the lock of the inode. -/
def filewriteChunk (f : Fin NFILE) (src : CopySrc) (i n1 : ℕ) : KM σ ℤ := do
  let k ← get
  match (k.ftable f).ip with
  | none => throw .fault
  | some ip => do
    onFs (ilock ip)
    let r ← onFs (writei ip (src.from i) (k.ftable f).off (UInt32.ofNat n1))
    if 0 < r then setFile f fun x => { x with off := x.off + UInt32.ofInt r } else pure ()
    onFs (iunlock ip)
    return r

/-- A round of the loop of `filewrite`: the value returned, or `i` for the next round. -/
def filewriteRound (f : Fin NFILE) (src : CopySrc) (n : ℤ) (i : ℕ) : KM σ (ℤ ⊕ ℕ) :=
  if i < n then do
    let n1 := min (n - i).toNat maxChunk
    let r ← filewriteChunk f src i n1
    if r ≠ n1 then return .inl (if i = n then n else -1) else return .inr (i + n1)
  else return .inl (if i = n then n else -1)

/-- The loop of `filewrite`.  Every round but the last one writes something. -/
def filewriteLoop (f : Fin NFILE) (src : CopySrc) (n : ℤ) : ℕ → ℕ → KM σ ℤ
  | 0, _ => throw .fuel
  | fuel + 1, i => do
    match ← filewriteRound f src n i with
    | .inl r => return r
    | .inr i => filewriteLoop f src n fuel i

/-- `filewrite(f, addr, n)`.  `other` is what `pipewrite` or the device returns. -/
def filewrite (other : KM σ ℤ) (f : Fin NFILE) (src : CopySrc) (n : ℤ) : KM σ ℤ := do
  let k ← get
  if (k.ftable f).writable = false then return -1
  else
    match (k.ftable f).type with
    | .pipe => other
    | .device => other
    | .inode => filewriteLoop f src n (n.toNat + 1) 0
    | .none => throw (.panic "filewrite")

end Source

/-! ### A chunk -/

/-- File `f` is open for writing on the inode `ip`, which nobody has locked. -/
structure OpenOn (F : Finset (Fin NINODE)) (ip : Fin NINODE) (f : Fin NFILE) (k : Kernel Store) :
    Prop where
  files : Files F k.fs
  held : k.fs.blk.held = []
  mem : ip ∈ F
  type : (k.ftable f).type = .inode
  writable : (k.ftable f).writable = true
  inode : (k.ftable f).ip = some ip
  valid : (k.fs.itable ip).valid = true
  unlocked : (k.fs.itable ip).locked = false
  ref : 1 ≤ (k.fs.itable ip).ref

/-- `f->off` -/
def Kernel.off (k : Kernel Store) (f : Fin NFILE) : ℕ := (k.ftable f).off.toNat

variable {F : Finset (Fin NINODE)} {ip : Fin NINODE} {f : Fin NFILE} {k : Kernel Store}
  {s : Fs Store}

/-- A shorter piece touches fewer places. -/
theorem touched_subset {off n off' n' : ℕ} (hoff : off' ≤ off) (hn : off + n ≤ off' + n') :
    touched ip off n ⊆ touched ip off' n' := by
  intro κ hκ
  obtain ⟨x, hx, hκ⟩ := Finset.mem_biUnion.mp hκ
  rw [Finset.mem_range] at hx
  refine Finset.mem_biUnion.mpr ⟨off - off' + x, Finset.mem_range.mpr (by omega), ?_⟩
  rwa [show off' + (off - off' + x) = off + x by omega]

theorem ofInt_natCast {n : ℕ} (h : n < 2 ^ 32) : (UInt32.ofInt (n : ℤ)).toNat = n := by
  unfold UInt32.ofInt
  have hmod : ((n : ℤ) % 2 ^ 32).toNat = n := by omega
  rw [hmod]
  exact UInt32.toNat_ofNat_of_lt' h

theorem SamePlaces.missing_eq {t : Fs Store} (h : SamePlaces F s t) (T : Finset Key) :
    missing (there F) t T = missing (there F) s T := by
  unfold missing
  rw [h.there_eq]

/-- `writei` between `ilock` and `iunlock` of an inode in memory, with the bits it needs. -/
theorem writei_locked (hfiles : Files F s) (hheld : s.blk.held = []) (hip : ip ∈ F)
    (href : 1 ≤ (s.itable ip).ref) (hunlocked : (s.itable ip).locked = false)
    (hvalid : (s.itable ip).valid = true) (mem : ℕ → UInt8) {off n : UInt32} {T : Finset Key}
    (hoff : off.toNat ≤ (s.contents ip).length) (hmax : off.toNat + n.toNat ≤ MAXFILE * BSIZE)
    (hT : touched ip off.toNat n.toNat ⊆ T) (henough : missing (there F) s T ≤ s.spare) :
    ∃ s₁ s₂ t, ilock ip s = .ok ((), s₁) ∧
      writei ip (kernelSrc mem) off n s₁ = .ok ((n.toNat : ℤ), s₂) ∧ iunlock ip s₂ = .ok ((), t) ∧
      Files F t ∧ t.blk.held = [] ∧ missing (there F) t T ≤ t.spare ∧
      t.itable ip = { s.itable ip with
        addrs := (t.itable ip).addrs, size := (t.itable ip).size } ∧
      t.contents ip = splice (s.contents ip) off.toNat ((List.range n.toNat).map mem) ∧
      ∀ ip' ∈ F, ip' ≠ ip → t.contents ip' = s.contents ip' := by
  have hlock := ilock_of_valid href hunlocked hvalid
  generalize hs₁ : s.setItable ip { s.itable ip with locked := true } = s₁ at hlock
  have hcont : ∀ ip', s₁.contents ip' = s.contents ip' := fun ip' =>
    hs₁ ▸ contents_setItable rfl rfl
  have hplaces : SamePlaces F s s₁ := hs₁ ▸ samePlaces_setItable rfl
  have hentry : s₁.itable ip = { s.itable ip with locked := true } := by
    rw [← hs₁, Fs.itable_setItable, update_self]
  have hacc : ¬(((s₁.contents ip).length < off.toNat ∨ 2 ^ 32 ≤ off.toNat + n.toNat) ∨
      MAXFILE * BSIZE < off.toNat + n.toNat) := by
    rw [hcont]
    simp only [MAXFILE, BSIZE] at *
    omega
  have hfills := writei_fills (s := s₁) (hs₁ ▸ hfiles.setItable rfl rfl)
    (hs₁ ▸ hheld : s₁.blk.held = []) hip mem off n
  rw [writeTouched, if_neg hacc, flatWrite, if_neg hacc] at hfills
  obtain ⟨r, s₂, hwrite, henough', hfiles₂, hheld₂, rfl, hcont₂, hother, hitable⟩ :=
    hfills.returns_of_subset hT (by
      rw [hplaces.missing_eq, hplaces.spare_eq]
      exact henough)
  -- the write leaves the lock and the count of the entry
  have hentry₂ : s₂.itable ip = { s.itable ip with
      locked := true, addrs := (s₂.itable ip).addrs, size := (s₂.itable ip).size } := by
    rw [hitable, hentry]
  have href₂ : 1 ≤ (s₂.itable ip).ref := by rw [hentry₂]; exact href
  have hunlock := iunlock_of_locked href₂ (by rw [hentry₂])
  have hcont₃ : ∀ ip', (s₂.setItable ip { s₂.itable ip with locked := false }).contents ip' =
      s₂.contents ip' := fun _ => contents_setItable rfl rfl
  refine ⟨s₁, s₂, _, hlock, hwrite, hunlock, hfiles₂.setItable rfl rfl, hheld₂, ?_, ?_, ?_, ?_⟩
  · have hplaces₂ : SamePlaces F s₂ (s₂.setItable ip { s₂.itable ip with locked := false }) :=
      samePlaces_setItable rfl
    rw [hplaces₂.missing_eq, hplaces₂.spare_eq]
    exact henough'
  · rw [Fs.itable_setItable, update_self, hentry₂]
    simp [hunlocked]
  · rw [hcont₃, hcont₂, hcont]
  · intro ip' hip' hne
    rw [hcont₃, hother ip' hip' hne, hcont]

/-- **A chunk** writes its bytes at `f->off`, moves `f->off` behind them, and leaves the other
files alone. -/
theorem OpenOn.chunk (h : OpenOn F ip f k) (mem : ℕ → UInt8) (i : ℕ) {n : ℕ} {T : Finset Key}
    (hoff : k.off f ≤ (k.fs.contents ip).length) (hmax : k.off f + n ≤ MAXFILE * BSIZE)
    (hpos : 0 < n) (hT : touched ip (k.off f) n ⊆ T)
    (henough : missing (there F) k.fs T ≤ k.fs.spare) :
    ∃ k', filewriteChunk f (kernelSrc mem) i n k = .ok ((n : ℤ), k') ∧ OpenOn F ip f k' ∧
      missing (there F) k'.fs T ≤ k'.fs.spare ∧ k'.off f = k.off f + n ∧
      k'.fs.contents ip =
        splice (k.fs.contents ip) (k.off f) ((List.range n).map fun x => mem (i + x)) ∧
      ∀ ip' ∈ F, ip' ≠ ip → k'.fs.contents ip' = k.fs.contents ip' := by
  have hsmall : k.off f + n < 2 ^ 32 := by
    simp only [MAXFILE, BSIZE] at hmax
    omega
  have hn : (UInt32.ofNat n).toNat = n := UInt32.toNat_ofNat_of_lt' (by
    show n < 2 ^ 32
    omega)
  obtain ⟨s₁, s₂, t, hlock, hwrite, hunlock, hfiles, hheld, henough', hentry, hcont, hother⟩ :=
    writei_locked (n := UInt32.ofNat n) h.files h.held h.mem h.ref h.unlocked h.valid
      (fun x => mem (i + x)) hoff (by rw [hn]; exact hmax) (by rw [hn]; exact hT) henough
  rw [hn] at hwrite hcont
  let ftable := update k.ftable f
    { k.ftable f with off := (k.ftable f).off + UInt32.ofInt (n : ℤ) }
  have hfile : ftable f = { k.ftable f with off := (k.ftable f).off + UInt32.ofInt (n : ℤ) } :=
    update_self ..
  refine ⟨{ k with fs := t, ftable := ftable }, ?_, ?_, henough', ?_, hcont, hother⟩
  · have hchunk : onFs (writei ip ((kernelSrc mem).from i) (k.ftable f).off (UInt32.ofNat n))
        { k with fs := s₁ } = .ok ((n : ℤ), { k with fs := s₂ }) := onFs_of_ok hwrite
    have hset : setFile f (fun x => { x with off := x.off + UInt32.ofInt (n : ℤ) })
        { k with fs := s₂ } = .ok ((), { k with fs := s₂, ftable := ftable }) := rfl
    have hlast : onFs (iunlock ip) { k with fs := s₂, ftable := ftable } =
        .ok ((), { k with fs := t, ftable := ftable }) := onFs_of_ok hunlock
    unfold filewriteChunk
    rw [bind_of_ok (get_apply k)]
    dsimp only
    rw [h.inode]
    dsimp only
    rw [bind_of_ok (onFs_of_ok hlock), bind_of_ok hchunk, if_pos (by omega), bind_of_ok hset,
      bind_of_ok hlast]
    rfl
  · have hflags : (t.itable ip).valid = true ∧ (t.itable ip).locked = false ∧
        1 ≤ (t.itable ip).ref := by
      rw [hentry]
      exact ⟨h.valid, h.unlocked, h.ref⟩
    have hopen : (ftable f).type = .inode ∧ (ftable f).writable = true ∧
        (ftable f).ip = some ip := by
      rw [hfile]
      exact ⟨h.type, h.writable, h.inode⟩
    exact ⟨hfiles, hheld, h.mem, hopen.1, hopen.2.1, hopen.2.2, hflags.1, hflags.2.1, hflags.2.2⟩
  · show (ftable f).off.toNat = k.off f + n
    rw [hfile]
    show ((k.ftable f).off + UInt32.ofInt (n : ℤ)).toNat = (k.ftable f).off.toNat + n
    rw [UInt32.toNat_add, ofInt_natCast (by omega)]
    exact Nat.mod_eq_of_lt hsmall

/-! ### One call -/

theorem maxChunk_pos : 0 < maxChunk := by decide

/-- **A round of `filewrite`** that has something left writes the next chunk. -/
theorem OpenOn.round (h : OpenOn F ip f k) (mem : ℕ → UInt8) {i n : ℕ} {T : Finset Key}
    (hi : i < n) (hoff : k.off f ≤ (k.fs.contents ip).length)
    (hmax : k.off f + (n - i) ≤ MAXFILE * BSIZE) (hT : touched ip (k.off f) (n - i) ⊆ T)
    (henough : missing (there F) k.fs T ≤ k.fs.spare) :
    ∃ k', filewriteRound f (kernelSrc mem) n i k = .ok (.inr (i + min (n - i) maxChunk), k') ∧
      OpenOn F ip f k' ∧ missing (there F) k'.fs T ≤ k'.fs.spare ∧
      k'.off f = k.off f + min (n - i) maxChunk ∧
      k'.fs.contents ip = splice (k.fs.contents ip) (k.off f)
        ((List.range (min (n - i) maxChunk)).map fun x => mem (i + x)) ∧
      ∀ ip' ∈ F, ip' ≠ ip → k'.fs.contents ip' = k.fs.contents ip' := by
  have hpos := maxChunk_pos
  generalize hm : min (n - i) maxChunk = m
  obtain ⟨k', hrun, hrest⟩ := h.chunk mem i (n := m) hoff (by omega) (by omega)
    ((touched_subset le_rfl (by omega)).trans hT) henough
  refine ⟨k', ?_, hrest⟩
  have hn1 : min ((n : ℤ) - i).toNat maxChunk = m := by omega
  unfold filewriteRound
  rw [if_pos (by omega), hn1, bind_of_ok hrun, if_neg (by simp)]
  rfl

/-- A round with nothing left returns. -/
theorem filewriteRound_done (src : CopySrc) (n : ℕ) :
    filewriteRound f src n n k = .ok (.inl (n : ℤ), k) := by
  unfold filewriteRound
  rw [if_neg (by omega), if_pos rfl]
  rfl

/-- **The chunks of one call** add up to one write. -/
theorem OpenOn.loop (mem : ℕ → UInt8) {n : ℕ} {T : Finset Key} : ∀ (fuel i : ℕ)
    {k : Kernel Store}, OpenOn F ip f k → i ≤ n → n - i < fuel →
    k.off f ≤ (k.fs.contents ip).length → k.off f + (n - i) ≤ MAXFILE * BSIZE →
    touched ip (k.off f) (n - i) ⊆ T → missing (there F) k.fs T ≤ k.fs.spare →
    ∃ k', filewriteLoop f (kernelSrc mem) n fuel i k = .ok ((n : ℤ), k') ∧
      k'.off f = k.off f + (n - i) ∧
      k'.fs.contents ip = splice (k.fs.contents ip) (k.off f)
        ((List.range (n - i)).map fun x => mem (i + x)) ∧
      ∀ ip' ∈ F, ip' ≠ ip → k'.fs.contents ip' = k.fs.contents ip' := by
  intro fuel
  induction fuel with
  | zero =>
    intro i k _ _ hfuel
    omega
  | succ fuel ih =>
    intro i k h hi hfuel hoff hmax hT henough
    rw [filewriteLoop]
    rcases hi.eq_or_lt with rfl | hlt
    · refine ⟨k, ?_, by omega, ?_, fun _ _ _ => rfl⟩
      · rw [bind_of_ok (filewriteRound_done _ _)]
        rfl
      · rw [Nat.sub_self, List.range_zero, List.map_nil, splice_nil]
    · have hpos := maxChunk_pos
      obtain ⟨k₁, hround, hopen, henough₁, hoff₁, hcont₁, hother₁⟩ :=
        h.round mem hlt hoff hmax hT henough
      generalize hm : min (n - i) maxChunk = m at hround hoff₁ hcont₁
      have hlen : (k₁.fs.contents ip).length = max (k.fs.contents ip).length (k.off f + m) := by
        rw [hcont₁, length_splice _ hoff]
        simp
      obtain ⟨k₂, hloop, hoff₂, hcont₂, hother₂⟩ := ih (i + m) hopen (by omega) (by omega)
        (by omega) (by omega) ((touched_subset (by omega) (by omega)).trans hT) henough₁
      refine ⟨k₂, ?_, by omega, ?_, fun ip' hip' hne =>
        (hother₂ ip' hip' hne).trans (hother₁ ip' hip' hne)⟩
      · rw [bind_of_ok hround]
        exact hloop
      · have hdata : (List.range m).map (fun x => mem (i + x)) ++
            (List.range (n - (i + m))).map (fun x => mem (i + m + x)) =
            (List.range (n - i)).map fun x => mem (i + x) := by
          rw [map_range_split (fun x => mem (i + x)) (show m ≤ n - i by omega), Nat.sub_sub]
          simp only [Nat.add_assoc]
        have hsplice := splice_splice ((List.range m).map fun x => mem (i + x))
          ((List.range (n - (i + m))).map fun x => mem (i + m + x)) hoff
        rw [List.length_map, List.length_range] at hsplice
        rw [hcont₂, hoff₁, hcont₁, hsplice, hdata]

/-! ### Runs -/

/-- A call of `filewrite` under way: the bytes at `addr`, `n` and `i`.  The `ticket` is the
number of the call. -/
structure FileWriter where
  mem : ℕ → UInt8
  n : ℕ
  i : ℕ
  ticket : ℕ

/-- A call that has returned. -/
structure FileWritten where
  mem : ℕ → UInt8
  n : ℕ
  ticket : ℕ
  value : ℤ

/-- The kernel and the calls of the processes on one open file.  `asked` is the sum of the
lengths of all calls, and `chunks` are the bytes written under the lock of the inode so far,
with the tickets of the calls, in the order the lock was taken. -/
structure Writers (P : Type) where
  k : Kernel Store
  call : P → Option FileWriter
  calls : ℕ
  asked : ℕ
  chunks : List (ℕ × List UInt8)
  returned : List FileWritten

/-- What can happen: a call, and the next round of one. -/
inductive WriteEvent (P : Type)
  | filewrite (p : P) (mem : ℕ → UInt8) (n : ℕ)
  | round (p : P)

namespace Writers

variable {P : Type} [DecidableEq P]

/-- A round of the call `w` of process `p`, which copies from valid memory. -/
def round (s : Writers P) (f : Fin NFILE) (p : P) (w : FileWriter) : Except Err (Writers P) :=
  match filewriteRound f (kernelSrc w.mem) w.n w.i s.k with
  | .error e => .error e
  | .ok (.inl r, k) =>
    .ok { s with
      k := k
      call := update s.call p none
      returned := ⟨w.mem, w.n, w.ticket, r⟩ :: s.returned }
  | .ok (.inr i, k) =>
    .ok { s with
      k := k
      call := update s.call p (some { w with i := i })
      chunks := s.chunks ++ [(w.ticket, (List.range (i - w.i)).map fun x => w.mem (w.i + x))] }

/-- The state after an event, if it can happen. -/
def step (s : Writers P) (f : Fin NFILE) : WriteEvent P → Option (Except Err (Writers P))
  | .filewrite p mem n =>
    match s.call p with
    | none => some (.ok { s with
        call := update s.call p (some ⟨mem, n, 0, s.calls⟩)
        calls := s.calls + 1
        asked := s.asked + n })
    | some _ => none
  | .round p =>
    match s.call p with
    | none => none
    | some w => some (s.round f p w)

/-- The kernel before the first call. -/
def start (k : Kernel Store) : Writers P := ⟨k, fun _ => none, 0, 0, [], []⟩

/-- The bytes written so far. -/
def bytes (s : Writers P) : List UInt8 := (s.chunks.map Prod.snd).flatten

/-- The bytes written so far by one call. -/
def bytesOf (s : Writers P) (ticket : ℕ) : List UInt8 :=
  ((s.chunks.filter fun c => c.1 = ticket).map Prod.snd).flatten

end Writers

variable {P : Type} [DecidableEq P]

/-- Runs on file `f` in which the calls ask for at most `total` bytes altogether. -/
inductive WriteRuns (k₀ : Kernel Store) (f : Fin NFILE) (total : ℕ) : Writers P → Prop
  | start : WriteRuns k₀ f total (Writers.start k₀)
  | step {s t : Writers P} (hruns : WriteRuns k₀ f total s) (e : WriteEvent P)
    (hstep : s.step f e = some (.ok t)) (hasked : t.asked ≤ total) : WriteRuns k₀ f total t

/-- What a call has left to write. -/
def FileWriter.left (w : FileWriter) : ℕ := w.n - w.i

/-- What the calls have left to write. -/
def Writers.left [Fintype P] (s : Writers P) : ℕ := ∑ p, (s.call p).elim 0 FileWriter.left

/-- The contents of the file are the chunks, `f->off` is behind them, and every call has written
the first part of its bytes. -/
structure Writers.Ok [Fintype P] (F : Finset (Fin NINODE)) (ip : Fin NINODE) (f : Fin NFILE)
    (total : ℕ) (s : Writers P) : Prop where
  isOpen : OpenOn F ip f s.k
  enough : missing (there F) s.k.fs (touched ip 0 total) ≤ s.k.fs.spare
  contents : s.k.fs.contents ip = s.bytes
  off : s.k.off f = s.bytes.length
  account : s.bytes.length + s.left = s.asked
  asked : s.asked ≤ total
  fresh : ∀ c ∈ s.chunks, c.1 < s.calls
  call : ∀ p w, s.call p = some w → w.i ≤ w.n ∧ w.ticket < s.calls ∧
    s.bytesOf w.ticket = (List.range w.i).map w.mem
  tickets : ∀ p q w w', s.call p = some w → s.call q = some w' → w.ticket = w'.ticket → p = q
  returned : ∀ ret ∈ s.returned, ret.value = ret.n ∧ ret.ticket < s.calls ∧
    s.bytesOf ret.ticket = (List.range ret.n).map ret.mem
  past : ∀ ret ∈ s.returned, ∀ p w, s.call p = some w → w.ticket ≠ ret.ticket

namespace Writers

variable [Fintype P] {total : ℕ} {s t : Writers P} {p : P} {w : FileWriter}

/-- What is left, with one call told apart from the others. -/
theorem left_eq (s : Writers P) (p : P) :
    s.left = (s.call p).elim 0 FileWriter.left +
      ∑ q ∈ Finset.univ.erase p, (s.call q).elim 0 FileWriter.left :=
  (Finset.add_sum_erase _ _ (Finset.mem_univ p)).symm

/-- What the other calls have left does not depend on this one. -/
theorem left_update (s : Writers P) (p : P) (x : Option FileWriter) :
    ∑ q, (update s.call p x q).elim 0 FileWriter.left =
      x.elim 0 FileWriter.left +
        ∑ q ∈ Finset.univ.erase p, (s.call q).elim 0 FileWriter.left := by
  rw [← Finset.add_sum_erase _ _ (Finset.mem_univ p), update_self]
  congr 1
  refine Finset.sum_congr rfl fun q hq => ?_
  rw [update_of_ne (Finset.ne_of_mem_erase hq)]

omit [DecidableEq P] in
theorem ok_start {k : Kernel Store} (h : OpenOn F ip f k) (hempty : k.fs.contents ip = [])
    (hoff : k.off f = 0) (henough : missing (there F) k.fs (touched ip 0 total) ≤ k.fs.spare) :
    (Writers.start k : Writers P).Ok F ip f total where
  isOpen := h
  enough := henough
  contents := hempty
  off := hoff
  account := by simp [Writers.start, bytes, left]
  asked := Nat.zero_le _
  fresh _ hc := absurd hc List.not_mem_nil
  call _ _ hp := (by cases hp)
  tickets _ _ _ _ hp := (by cases hp)
  returned _ hret := absurd hret List.not_mem_nil
  past _ hret := absurd hret List.not_mem_nil

/-- A new call. -/
theorem Ok.filewrite (h : s.Ok F ip f total) (mem : ℕ → UInt8) {n : ℕ} (hp : s.call p = none)
    (hasked : s.asked + n ≤ total) :
    Ok F ip f total { s with
      call := update s.call p (some ⟨mem, n, 0, s.calls⟩)
      calls := s.calls + 1
      asked := s.asked + n } := by
  have hnew : s.bytesOf s.calls = [] := by
    unfold bytesOf
    rw [List.filter_eq_nil_iff.mpr]
    · rfl
    · intro c hc
      have := h.fresh c hc
      simp only [decide_eq_true_eq]
      omega
  have hcall : ∀ {q w}, update s.call p (some ⟨mem, n, 0, s.calls⟩) q = some w →
      (q = p ∧ w = ⟨mem, n, 0, s.calls⟩) ∨ (q ≠ p ∧ s.call q = some w) := by
    intro q w hq
    rw [update_apply] at hq
    split at hq
    · next heq => exact .inl ⟨heq, (Option.some.inj hq).symm⟩
    · next hne => exact .inr ⟨hne, hq⟩
  refine ⟨h.isOpen, h.enough, h.contents, h.off, ?_, hasked, ?_, ?_, ?_, ?_, ?_⟩
  · have hleft := s.left_eq p
    have haccount := h.account
    rw [hp] at hleft
    show s.bytes.length + ∑ q, _ = s.asked + n
    rw [left_update]
    simp only [Option.elim_none, Option.elim_some, FileWriter.left] at hleft ⊢
    omega
  · intro c hc
    exact (h.fresh c hc).trans (Nat.lt_succ_self _)
  · intro q w hq
    rcases hcall hq with ⟨-, rfl⟩ | ⟨-, hq⟩
    · exact ⟨Nat.zero_le _, Nat.lt_succ_self _, hnew⟩
    · obtain ⟨hi, hticket, hbytes⟩ := h.call q w hq
      exact ⟨hi, hticket.trans (Nat.lt_succ_self _), hbytes⟩
  · intro q q' w w' hq hq' heq
    rcases hcall hq with ⟨rfl, rfl⟩ | ⟨-, hold⟩ <;>
      rcases hcall hq' with ⟨rfl, rfl⟩ | ⟨-, hold'⟩
    · rfl
    · exact absurd heq (h.call q' w' hold').2.1.ne'
    · exact absurd heq (h.call q w hold).2.1.ne
    · exact h.tickets q q' w w' hold hold' heq
  · intro ret hret
    obtain ⟨hvalue, hticket, hbytes⟩ := h.returned ret hret
    exact ⟨hvalue, hticket.trans (Nat.lt_succ_self _), hbytes⟩
  · intro ret hret q w hq
    rcases hcall hq with ⟨-, rfl⟩ | ⟨-, hq⟩
    · exact (h.returned ret hret).2.1.ne'
    · exact h.past ret hret q w hq

/-- A call with nothing left returns its `n`. -/
theorem Ok.finish (h : s.Ok F ip f total) (hp : s.call p = some w) (hi : w.i = w.n) :
    Ok F ip f total { s with
      call := update s.call p none
      returned := ⟨w.mem, w.n, w.ticket, w.n⟩ :: s.returned } := by
  obtain ⟨-, hticket, hbytes⟩ := h.call p w hp
  have hcall : ∀ {q w'}, update s.call p none q = some w' →
      q ≠ p ∧ s.call q = some w' := by
    intro q w' hq
    rw [update_apply] at hq
    split at hq
    · cases hq
    · next hne => exact ⟨hne, hq⟩
  refine ⟨h.isOpen, h.enough, h.contents, h.off, ?_, h.asked, h.fresh, ?_, ?_, ?_, ?_⟩
  · have hleft := s.left_eq p
    have haccount := h.account
    rw [hp] at hleft
    show s.bytes.length + ∑ q, _ = s.asked
    rw [left_update]
    simp only [Option.elim_none, Option.elim_some, FileWriter.left, hi] at hleft ⊢
    omega
  · intro q w' hq
    exact h.call q w' (hcall hq).2
  · intro q q' w' w'' hq hq'
    exact h.tickets q q' w' w'' (hcall hq).2 (hcall hq').2
  · intro ret hret
    rcases List.mem_cons.mp hret with rfl | hret
    · refine ⟨rfl, hticket, ?_⟩
      rw [← hi]
      exact hbytes
    · exact h.returned ret hret
  · intro ret hret q w' hq
    obtain ⟨hne, hq⟩ := hcall hq
    rcases List.mem_cons.mp hret with rfl | hret
    · intro heq
      exact hne (h.tickets q p w' w hq hp heq)
    · exact h.past ret hret q w' hq

/-- A call writes its next `m` bytes. -/
theorem Ok.append (h : s.Ok F ip f total) (hp : s.call p = some w) {m : ℕ} (hm : w.i + m ≤ w.n)
    {k : Kernel Store} (hopen : OpenOn F ip f k)
    (henough : missing (there F) k.fs (touched ip 0 total) ≤ k.fs.spare)
    (hoff : k.off f = s.k.off f + m)
    (hcont : k.fs.contents ip = splice (s.k.fs.contents ip) (s.k.off f)
      ((List.range m).map fun x => w.mem (w.i + x))) :
    Ok F ip f total { s with
      k := k
      call := update s.call p (some { w with i := w.i + m })
      chunks := s.chunks ++ [(w.ticket, (List.range m).map fun x => w.mem (w.i + x))] } := by
  obtain ⟨hi, hticket, hbytes⟩ := h.call p w hp
  set u : Writers P := { s with
    k := k
    call := update s.call p (some { w with i := w.i + m })
    chunks := s.chunks ++ [(w.ticket, (List.range m).map fun x => w.mem (w.i + x))] } with hu
  have hall : u.bytes = s.bytes ++ (List.range m).map fun x => w.mem (w.i + x) := by
    simp [hu, bytes]
  have hmine : u.bytesOf w.ticket = (List.range (w.i + m)).map w.mem := by
    have hsplit := map_range_split w.mem (show w.i ≤ w.i + m by omega)
    rw [Nat.add_sub_cancel_left] at hsplit
    rw [hsplit, ← hbytes]
    simp [hu, bytesOf]
  have hothers : ∀ {k}, k ≠ w.ticket → u.bytesOf k = s.bytesOf k := by
    intro k hk
    simp [hu, bytesOf, hk.symm]
  have hcall : ∀ {q w'}, u.call q = some w' →
      (q = p ∧ w' = { w with i := w.i + m }) ∨ (q ≠ p ∧ s.call q = some w') := by
    intro q w' hq
    simp only [hu, update_apply] at hq
    split at hq
    · next heq => exact .inl ⟨heq, (Option.some.inj hq).symm⟩
    · next hne => exact .inr ⟨hne, hq⟩
  refine ⟨hopen, henough, ?_, ?_, ?_, h.asked, ?_, ?_, ?_, ?_, ?_⟩
  · show k.fs.contents ip = u.bytes
    rw [hcont, hall, h.off, h.contents, splice_length]
  · show k.off f = u.bytes.length
    rw [hoff, hall, h.off]
    simp
  · have hleft := s.left_eq p
    have haccount := h.account
    rw [hp] at hleft
    show u.bytes.length + ∑ q, _ = s.asked
    rw [hall, List.length_append, List.length_map, List.length_range, left_update]
    simp only [Option.elim_some, FileWriter.left] at hleft ⊢
    omega
  · intro c hc
    rcases List.mem_append.mp hc with hc | hc
    · exact h.fresh c hc
    · rw [List.mem_singleton.mp hc]
      exact hticket
  · intro q w' hq
    rcases hcall hq with ⟨-, rfl⟩ | ⟨hne, hq⟩
    · exact ⟨hm, hticket, hmine⟩
    · rw [hothers fun heq => hne (h.tickets q p w' w hq hp heq)]
      exact h.call q w' hq
  · intro q q' w' w'' hq hq' heq
    rcases hcall hq with ⟨rfl, rfl⟩ | ⟨-, hold⟩ <;>
      rcases hcall hq' with ⟨rfl, rfl⟩ | ⟨-, hold'⟩
    · rfl
    · exact h.tickets q q' w w'' hp hold' heq
    · exact h.tickets q q' w' w hold hp heq
    · exact h.tickets q q' w' w'' hold hold' heq
  · intro ret hret
    rw [hothers (h.past ret hret p w hp).symm]
    exact h.returned ret hret
  · intro ret hret q w' hq
    rcases hcall hq with ⟨-, rfl⟩ | ⟨-, hq⟩
    · exact h.past ret hret p w hp
    · exact h.past ret hret q w' hq

/-- **A round of a call** succeeds, and returns or leaves less to write. -/
theorem Ok.round (h : s.Ok F ip f total) (htotal : total ≤ MAXFILE * BSIZE)
    (hp : s.call p = some w) :
    ∃ t, s.round f p w = .ok t ∧ t.Ok F ip f total ∧
      ∀ w', t.call p = some w' → w'.left < w.left := by
  have hpos := maxChunk_pos
  obtain ⟨hi, -, -⟩ := h.call p w hp
  rcases hi.eq_or_lt with heq | hlt
  · refine ⟨_, ?_, h.finish hp heq, ?_⟩
    · unfold Writers.round
      rw [heq, filewriteRound_done]
    · intro w' hw'
      simp at hw'
  · have hleft := s.left_eq p
    have haccount := h.account
    have hasked := h.asked
    have hoff := h.off
    rw [hp] at hleft
    simp only [Option.elim_some, FileWriter.left] at hleft
    obtain ⟨k, hround, hopen, henough, hoff', hcont, -⟩ := h.isOpen.round w.mem hlt
      (by rw [h.contents, h.off]) (by omega) (touched_subset (Nat.zero_le _) (by omega)) h.enough
    refine ⟨_, ?_, h.append hp (m := min (w.n - w.i) maxChunk) (by omega) hopen henough hoff' hcont,
      ?_⟩
    · unfold Writers.round
      rw [hround]
      dsimp only
      rw [Nat.add_sub_cancel_left]
    · intro w' hw'
      simp only [update_self, Option.some.injEq] at hw'
      subst hw'
      simp only [FileWriter.left]
      omega

end Writers

theorem WriteRuns.ok [Fintype P] {k₀ : Kernel Store} {total : ℕ} {s : Writers P}
    (h : WriteRuns k₀ f total s) (hopen : OpenOn F ip f k₀) (hempty : k₀.fs.contents ip = [])
    (hoff : k₀.off f = 0) (htotal : total ≤ MAXFILE * BSIZE)
    (henough : missing (there F) k₀.fs (touched ip 0 total) ≤ k₀.fs.spare) :
    s.Ok F ip f total := by
  induction h with
  | start => exact Writers.ok_start hopen hempty hoff henough
  | @step s t _ e hstep hasked ih =>
    cases e with
    | filewrite p mem n =>
      simp only [Writers.step] at hstep
      split at hstep
      · next hp =>
        cases hstep
        exact ih.filewrite mem hp hasked
      · cases hstep
    | round p =>
      simp only [Writers.step] at hstep
      split at hstep
      · cases hstep
      · next w hp =>
        obtain ⟨t', ht', hok, -⟩ := ih.round htotal hp
        rw [ht'] at hstep
        cases hstep
        exact hok

/-- **Alone**, `filewrite` does what one `writei` of all its bytes at `f->off` does. -/
theorem OpenOn.filewrite_eq_writei (h : OpenOn F ip f k) (other : KM Store ℤ) (mem : ℕ → UInt8)
    {n : ℕ} (hoff : k.off f ≤ (k.fs.contents ip).length)
    (hmax : k.off f + n ≤ MAXFILE * BSIZE)
    (henough : missing (there F) k.fs (touched ip (k.off f) n) ≤ k.fs.spare) :
    ∃ k' t, filewrite other f (kernelSrc mem) n k = .ok ((n : ℤ), k') ∧
      writei ip (kernelSrc mem) (k.ftable f).off (UInt32.ofNat n) k.fs = .ok ((n : ℤ), t) ∧
      k'.off f = k.off f + n ∧ ∀ ip' ∈ F, k'.fs.contents ip' = t.contents ip' := by
  obtain ⟨k', hloop, hoff', hcont, hother⟩ := h.loop mem (n + 1) 0 (Nat.zero_le n)
    (by omega) hoff (by omega) (subset_of_eq rfl) henough
  have hn : (UInt32.ofNat n).toNat = n := UInt32.toNat_ofNat_of_lt' (by
    show n < 2 ^ 32
    simp only [MAXFILE, BSIZE] at hmax
    omega)
  have hacc : ¬(((k.fs.contents ip).length < (k.ftable f).off.toNat ∨
      2 ^ 32 ≤ (k.ftable f).off.toNat + (UInt32.ofNat n).toNat) ∨
      MAXFILE * BSIZE < (k.ftable f).off.toNat + (UInt32.ofNat n).toNat) := by
    unfold Kernel.off at hoff hmax
    rw [hn]
    simp only [MAXFILE, BSIZE] at *
    omega
  have hfills := writei_fills h.files h.held h.mem mem (k.ftable f).off (UInt32.ofNat n)
  rw [writeTouched, if_neg hacc, flatWrite, if_neg hacc, hn] at hfills
  obtain ⟨r, t, hwrite, -, -, -, rfl, hcont', hother', -⟩ := hfills.returns henough
  refine ⟨k', t, ?_, hwrite, hoff', ?_⟩
  · unfold filewrite
    rw [bind_of_ok (get_apply k), h.writable, if_neg (by simp), h.type]
    exact hloop
  · intro ip' hip'
    by_cases hne : ip' = ip
    · rw [hne, hcont, hcont']
      simp only [Nat.sub_zero, Nat.zero_add]
      rfl
    · rw [hother ip' hip' hne, hother' ip' hip' hne]

/-- **Writes neither overlap nor vanish.**  Let `f` be open for writing on the empty file `ip`,
and let any number of processes write to it, with calls for at most `total` bytes altogether
and free blocks for that many.  Then along every run, chunk by chunk, the contents of the file
are the chunks in the order the lock was taken, and `f->off` is their length; every round of a
call succeeds and brings it closer to its end; every call that has returned returned its `n` and
wrote its own bytes; and once no call is under way, `f->off` is the sum of all lengths.  A call
that runs alone does what one `writei` of all its bytes at `f->off` does. -/
theorem shared_writes_of_runs [Fintype P] {k₀ : Kernel Store} {total : ℕ} {s : Writers P}
    (hopen : OpenOn F ip f k₀) (hempty : k₀.fs.contents ip = []) (hoff : k₀.off f = 0)
    (htotal : total ≤ MAXFILE * BSIZE)
    (henough : missing (there F) k₀.fs (touched ip 0 total) ≤ k₀.fs.spare)
    (h : WriteRuns k₀ f total s) :
    (s.k.fs.contents ip = s.bytes ∧ s.k.off f = s.bytes.length) ∧
    (∀ p w, s.call p = some w → ∃ t, s.step f (.round p) = some (.ok t) ∧
      ∀ w', t.call p = some w' → w'.left < w.left) ∧
    (∀ ret ∈ s.returned, ret.value = ret.n ∧
      s.bytesOf ret.ticket = (List.range ret.n).map ret.mem) ∧
    ((∀ p, s.call p = none) → s.k.off f = s.asked) ∧
    ∀ k other mem n, OpenOn F ip f k → k.off f ≤ (k.fs.contents ip).length →
      k.off f + n ≤ MAXFILE * BSIZE →
      missing (there F) k.fs (touched ip (k.off f) n) ≤ k.fs.spare →
      ∃ k' t, filewrite other f (kernelSrc mem) n k = .ok ((n : ℤ), k') ∧
        writei ip (kernelSrc mem) (k.ftable f).off (UInt32.ofNat n) k.fs = .ok ((n : ℤ), t) ∧
        k'.off f = k.off f + n ∧ ∀ ip' ∈ F, k'.fs.contents ip' = t.contents ip' := by
  have hok := h.ok hopen hempty hoff htotal henough
  refine ⟨⟨hok.contents, hok.off⟩, ?_, ?_, ?_, ?_⟩
  · intro p w hp
    obtain ⟨t, ht, -, hless⟩ := hok.round htotal hp
    refine ⟨t, ?_, hless⟩
    simp only [Writers.step, hp, ht]
  · intro ret hret
    obtain ⟨hvalue, -, hbytes⟩ := hok.returned ret hret
    exact ⟨hvalue, hbytes⟩
  · intro hnone
    have hleft : s.left = 0 := Finset.sum_eq_zero fun p _ => by rw [hnone p]; rfl
    rw [hok.off, ← hok.account, hleft, add_zero]
  · intro k other mem n hk hle hmax hbits
    exact hk.filewrite_eq_writei other mem hle hmax hbits

/-- The kernel with the empty file of `emptyFileImage` open for writing. -/
def emptyFileKernel : Kernel Store :=
  { Kernel.boot (emptyFileImage.setItable 0
      { emptyFileImage.itable 0 with locked := false }) with
    ftable := update (fun _ => File.unused) 0
      ⟨.inode, 1, true, true, none, some 0, 0, 0⟩ }

/-- Five bytes written to the empty file, in one chunk. -/
theorem shared_writes_emptyFile : ∃ s : Writers (Fin 2),
    (WriteRuns emptyFileKernel 0 5 s ∧ s.bytes = [1, 2, 3, 4, 5]) ∧
      s.k.fs.contents 0 = s.bytes := by
  have hopen : OpenOn {0} 0 0 emptyFileKernel :=
    ⟨files_emptyFileImage.setItable rfl rfl, rfl, by decide, rfl, rfl, rfl, rfl, rfl, le_rfl⟩
  have hempty : emptyFileKernel.fs.contents 0 = [] := rfl
  have hkeys : touched (0 : Fin NINODE) 0 5 ⊆ {((0, 0), [])} := by decide
  have hfirst : FirstFree emptyFileImage.sb emptyFileImage.blockBitmap 1 :=
    ⟨by decide, by decide, by decide⟩
  have hspare : 1 ≤ emptyFileKernel.fs.spare := hfirst.freeBits_pos
  have henough : missing (there {0}) emptyFileKernel.fs (touched 0 0 5) ≤
      emptyFileKernel.fs.spare :=
    le_trans (le_trans (Finset.card_filter_le _ _) (Finset.card_le_card hkeys)) hspare
  obtain ⟨k, hround, -⟩ := hopen.round (fun x => UInt8.ofNat (x + 1)) (i := 0) (n := 5)
    (by decide) le_rfl (by decide) (subset_of_eq rfl) henough
  let w : FileWriter := ⟨fun x => UInt8.ofNat (x + 1), 5, 0, 0⟩
  let s₁ : Writers (Fin 2) := ⟨emptyFileKernel, update (fun _ => none) 0 (some w), 1, 5,
    [], []⟩
  let s₂ : Writers (Fin 2) := { s₁ with
    k := k
    call := update s₁.call 0 (some { w with i := 5 })
    chunks := [(0, [1, 2, 3, 4, 5])] }
  have hcall : WriteRuns emptyFileKernel 0 5 s₁ :=
    WriteRuns.start.step (.filewrite 0 w.mem 5) rfl le_rfl
  have hchunk : s₁.round 0 0 w = .ok s₂ := by
    unfold Writers.round
    rw [show filewriteRound 0 (kernelSrc w.mem) w.n w.i s₁.k = _ from hround]
    rfl
  have hruns : WriteRuns emptyFileKernel 0 5 s₂ :=
    hcall.step (.round 0) (congrArg some hchunk) le_rfl
  exact ⟨s₂, ⟨hruns, rfl⟩, (shared_writes_of_runs hopen hempty rfl (by decide) henough hruns).1.1⟩

end Xv6Ext2
