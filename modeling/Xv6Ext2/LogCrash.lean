import Xv6Ext2.Log
import Xv6Ext2.Lib.Writes

/-!
# Crashes and the log

The rest of `kernel/log.c`: writing the log, committing, and recovering from a crash.  A
block write is atomic, so a crash is a point in the sequence of block writes; what is in
memory is lost, and the kernel starts again with `recover_from_log`, which may crash in its
turn.

## Main definitions

* `LogBufs` — buffers that may be recycled while they are not referred to, over a disk, with
  the writes so far.
* `LogBufs.writeLog`, `installTrans`, `readHead`, `writeHead`, `recoverFromLog`, `commit`.
* `transaction` — updating blocks and calling `log_write`.
* `CrashDisk`, `Recovering` — the disks that crashes leave.
* `Transactions` — runs of transactions, with crashes.

## Main results

* `does_commit`, `does_recover` — the block writes of `commit` and of `recover_from_log`.
* `commit_crash_atomic` — **a transaction is committed as a whole or not at all**, whatever
  crashes.
* `Transactions.durable` — **committed transactions last**, along every run.
-/

namespace Xv6Ext2

/-! ### Buffers -/

/-- Buffers over a disk.  `refcnt` counts holders and pins; at the `n`-th `bread` the buffers
that `evict n` names are recycled if nothing refers to them.  `trace` lists the writes to
the disk. -/
structure LogBufs where
  cached : UInt32 → Option Block
  refcnt : UInt32 → ℕ
  disk : UInt32 → Block
  trace : List (UInt32 × Block)
  evict : ℕ → UInt32 → Bool
  clock : ℕ

namespace LogBufs

/-- What a block reads as. -/
def data (s : LogBufs) (b : UInt32) : Block := (s.cached b).getD (s.disk b)

/-- Recycle buffers. -/
def recycle (s : LogBufs) : LogBufs :=
  { s with
    cached := fun b => if s.refcnt b = 0 ∧ s.evict s.clock b = true then none else s.cached b
    clock := s.clock + 1 }

/-- `bread(dev, b)` -/
def bread (b : UInt32) (s : LogBufs) : LogBufs :=
  let s := s.recycle
  { s with
    cached := Function.update s.cached b (some (s.data b))
    refcnt := Function.update s.refcnt b (s.refcnt b + 1) }

/-- Replace the contents of a buffer. -/
def store (b : UInt32) (d : Block) (s : LogBufs) : LogBufs :=
  { s with cached := Function.update s.cached b (some d) }

/-- `bwrite` -/
def bwrite (b : UInt32) (s : LogBufs) : LogBufs :=
  { s with
    disk := Function.update s.disk b (s.data b)
    trace := s.trace ++ [(b, s.data b)] }

/-- `brelse`, and `bunpin` -/
def brelse (b : UInt32) (s : LogBufs) : LogBufs :=
  { s with refcnt := Function.update s.refcnt b (s.refcnt b - 1) }

/-- `bpin` -/
def bpin (b : UInt32) (s : LogBufs) : LogBufs :=
  { s with refcnt := Function.update s.refcnt b (s.refcnt b + 1) }

end LogBufs

/-! ### The header block -/

/-- `hb->block[i] = log.lh.block[i]`, from `i` on -/
def setWords (d : Block) (i : ℕ) : List UInt32 → Block
  | [] => d
  | b :: lh => setWords (d.setWord i b) (i + 1) lh

/-- The header block for `lh`, over what the block held. -/
def putHeader (d : Block) (lh : List UInt32) : Block :=
  setWords (d.setWord 0 (UInt32.ofNat lh.length)) 1 lh

/-- The blocks that a header block lists. -/
def getHeader (d : Block) : List UInt32 :=
  (List.range (cInt (d.word 0)).toNat).map fun i => d.word (i + 1)

/-! ### The source functions -/

namespace LogBufs

/-- The block of the log for the `tail`-th block. -/
def logBlock (start : UInt32) (tail : ℕ) : UInt32 := start + UInt32.ofNat tail + 1

/-- Copy modified blocks from cache to log. -/
def writeLog (start : UInt32) : ℕ → List UInt32 → LogBufs → LogBufs
  | _, [], s => s
  | tail, b :: lh, s =>
    let dst := logBlock start tail
    let s := (s.bread dst).bread b
    let s := (s.store dst (s.data b)).bwrite dst
    writeLog start (tail + 1) lh ((s.brelse b).brelse dst)

/-- Copy committed blocks from log to their home location. -/
def installTrans (recovering : Bool) (start : UInt32) : ℕ → List UInt32 → LogBufs → LogBufs
  | _, [], s => s
  | tail, b :: lh, s =>
    let src := logBlock start tail
    let s := (s.bread src).bread b
    let s := (s.store b (s.data src)).bwrite b
    let s := if recovering then s else s.brelse b
    installTrans recovering start (tail + 1) lh ((s.brelse src).brelse b)

/-- Read the log header from disk into the in-memory log header. -/
def readHead (start : UInt32) (s : LogBufs) : List UInt32 × LogBufs :=
  let s := s.bread start
  (getHeader (s.data start), s.brelse start)

/-- Write in-memory log header to disk. -/
def writeHead (start : UInt32) (lh : List UInt32) (s : LogBufs) : LogBufs :=
  let s := s.bread start
  let s := (s.store start (putHeader (s.data start) lh)).bwrite start
  s.brelse start

/-- If committed, copy from log to disk, and clear the log. -/
def recoverFromLog (start : UInt32) (s : LogBufs) : LogBufs :=
  let (lh, s) := s.readHead start
  (s.installTrans true start 0 lh).writeHead start []

/-- `commit()` -/
def commit (l : Log) (s : LogBufs) : Log × LogBufs :=
  if 0 < l.lh.length then
    let s := s.writeLog l.start 0 l.lh
    let s := s.writeHead l.start l.lh
    let s := s.installTrans false l.start 0 l.lh
    ({ l with lh := [] }, s.writeHead l.start [])
  else (l, s)

/-- The buffers after a restart. -/
def boot (disk : UInt32 → Block) (evict : ℕ → UInt32 → Bool) : LogBufs :=
  ⟨fun _ => none, fun _ => 0, disk, [], evict, 0⟩

end LogBufs

/-- `bp = bread(dev, b); modify bp->data; log_write(bp); brelse(bp);` -/
def logUpdate (st : Log × LogBufs) (m : UInt32 × Block) : Except Err (Log × LogBufs) := do
  let s := (st.2.bread m.1).store m.1 m.2
  let (l, new) ← st.1.logWrite m.1
  let s := if new then s.bpin m.1 else s
  return (l, s.brelse m.1)

/-- The updates of a transaction. -/
def transaction (ms : List (UInt32 × Block)) (st : Log × LogBufs) : Except Err (Log × LogBufs) :=
  ms.foldlM logUpdate st

/-! ### What the functions read and write -/

namespace LogBufs

variable {s t u : LogBufs} {b c start : UInt32} {d : Block}

/-- A block that nothing refers to reads as it is on disk, so that its buffer may be
recycled. -/
def Clean (s : LogBufs) : Prop := ∀ b, s.refcnt b = 0 → s.data b = s.disk b

@[simp] theorem disk_bread : (s.bread b).disk = s.disk := rfl

@[simp] theorem trace_bread : (s.bread b).trace = s.trace := rfl

@[simp] theorem refcnt_bread :
    (s.bread b).refcnt = Function.update s.refcnt b (s.refcnt b + 1) := rfl

@[simp] theorem data_store : (s.store b d).data = Function.update s.data b d := by
  funext c
  by_cases hc : c = b
  · subst hc
    simp [data, store]
  · simp [data, store, hc]

@[simp] theorem disk_store : (s.store b d).disk = s.disk := rfl

@[simp] theorem trace_store : (s.store b d).trace = s.trace := rfl

@[simp] theorem refcnt_store : (s.store b d).refcnt = s.refcnt := rfl

@[simp] theorem data_bwrite : (s.bwrite b).data = s.data := by
  funext c
  by_cases hc : c = b
  · subst hc
    simp only [data, bwrite, Function.update_self]
    cases s.cached c <;> rfl
  · simp [data, bwrite, hc]

@[simp] theorem disk_bwrite : (s.bwrite b).disk = Function.update s.disk b (s.data b) := rfl

@[simp] theorem trace_bwrite : (s.bwrite b).trace = s.trace ++ [(b, s.data b)] := rfl

@[simp] theorem refcnt_bwrite : (s.bwrite b).refcnt = s.refcnt := rfl

@[simp] theorem disk_brelse : (s.brelse b).disk = s.disk := rfl

@[simp] theorem trace_brelse : (s.brelse b).trace = s.trace := rfl

@[simp] theorem refcnt_brelse :
    (s.brelse b).refcnt = Function.update s.refcnt b (s.refcnt b - 1) := rfl

@[simp] theorem data_brelse : (s.brelse b).data = s.data := rfl

@[simp] theorem data_bpin : (s.bpin b).data = s.data := rfl

@[simp] theorem disk_bpin : (s.bpin b).disk = s.disk := rfl

@[simp] theorem trace_bpin : (s.bpin b).trace = s.trace := rfl

@[simp] theorem refcnt_bpin :
    (s.bpin b).refcnt = Function.update s.refcnt b (s.refcnt b + 1) := rfl

/-- Recycling is not noticed. -/
theorem Clean.data_recycle (h : s.Clean) : s.recycle.data = s.data := by
  funext c
  simp only [data, recycle]
  split
  · next hc => exact (h c hc.1).symm
  · rfl

theorem Clean.data_bread (h : s.Clean) : (s.bread b).data = s.data := by
  rw [← h.data_recycle]
  funext c
  by_cases hc : c = b
  · subst hc
    simp [data, LogBufs.bread]
  · simp [data, LogBufs.bread, hc]

theorem Clean.bread (h : s.Clean) (b : UInt32) : (s.bread b).Clean := by
  intro c hc
  by_cases hcb : c = b
  · subst hcb
    simp at hc
  · rw [h.data_bread, disk_bread]
    exact h c (by simpa [hcb] using hc)

/-- From `s` to `t` the blocks `ws` are written, in memory and on disk. -/
structure Does (s t : LogBufs) (ws : List (UInt32 × Block)) : Prop where
  data : t.data = Writes.apply ws s.data
  disk : t.disk = Writes.apply ws s.disk
  trace : t.trace = s.trace ++ ws
  clean : t.Clean

theorem Does.trans {ws vs : List (UInt32 × Block)} (h : Does s t ws) (h' : Does t u vs) :
    Does s u (ws ++ vs) :=
  ⟨by rw [h'.data, h.data, Writes.apply_append], by rw [h'.disk, h.disk, Writes.apply_append],
    by rw [h'.trace, h.trace, List.append_assoc], h'.clean⟩

/-- Writing one block leaves the others clean. -/
theorem Clean.update (h : s.Clean) (hdata : t.data = Function.update s.data b d)
    (hdisk : t.disk = Function.update s.disk b d)
    (href : ∀ c, c ≠ b → t.refcnt c = s.refcnt c) : t.Clean := by
  intro c hc
  rw [hdata, hdisk]
  by_cases hcb : c = b
  · subst hcb
    rw [Function.update_self, Function.update_self]
  · rw [Function.update_of_ne hcb, Function.update_of_ne hcb]
    exact h c (href c hcb ▸ hc)

theorem does_nil (h : s.Clean) : Does s s [] := ⟨rfl, rfl, (List.append_nil _).symm, h⟩

/-- A round of `write_log`. -/
theorem does_copyLog (h : s.Clean) (dst b : UInt32) :
    let s₁ := (s.bread dst).bread b
    let s₂ := (s₁.store dst (s₁.data b)).bwrite dst
    Does s ((s₂.brelse b).brelse dst) [(dst, s.data b)] := by
  have hdata : ((s.bread dst).bread b).data = s.data := (h.bread dst).data_bread.trans h.data_bread
  dsimp only
  refine ⟨by simp [hdata], by simp [hdata], by simp [hdata], ?_⟩
  refine h.update (b := dst) (d := s.data b) (by simp [hdata]) (by simp [hdata]) fun c hc => ?_
  by_cases hcb : c = b
  · subst hcb
    simp [hc]
  · simp [hc]

/-- A round of `install_trans`. -/
theorem does_copyHome (h : s.Clean) (recovering : Bool) (src b : UInt32) :
    let s₁ := (s.bread src).bread b
    let s₂ := (s₁.store b (s₁.data src)).bwrite b
    let s₃ := if recovering then s₂ else s₂.brelse b
    Does s ((s₃.brelse src).brelse b) [(b, s.data src)] := by
  have hdata : ((s.bread src).bread b).data = s.data := (h.bread src).data_bread.trans h.data_bread
  dsimp only
  refine ⟨?_, ?_, ?_, ?_⟩
  · cases recovering <;> simp [hdata]
  · cases recovering <;> simp [hdata]
  · cases recovering <;> simp [hdata]
  · refine h.update (b := b) (d := s.data src) ?_ ?_ fun c hc => ?_
    · cases recovering <;> simp [hdata]
    · cases recovering <;> simp [hdata]
    · by_cases hcs : c = src
      · subst hcs
        cases recovering <;> simp [hc]
      · cases recovering <;> simp [hc, hcs]

/-- `write_head` writes the header block. -/
theorem does_writeHead (h : s.Clean) (start : UInt32) (lh : List UInt32) :
    Does s (s.writeHead start lh) [(start, putHeader (s.data start) lh)] := by
  have hdata : (s.bread start).data = s.data := h.data_bread
  unfold writeHead
  refine ⟨by simp [hdata], by simp [hdata], by simp [hdata], ?_⟩
  refine h.update (b := start) (d := putHeader (s.data start) lh) (by simp [hdata])
    (by simp [hdata])
    fun c hc => ?_
  simp [hc]

/-- The writes of `write_log`, where the blocks read as `v` says. -/
def logWrites (start : UInt32) (v : UInt32 → Block) : ℕ → List UInt32 → List (UInt32 × Block)
  | _, [] => []
  | tail, b :: lh => (logBlock start tail, v b) :: logWrites start v (tail + 1) lh

/-- The writes of `install_trans`, where the blocks read as `v` says. -/
def homeWrites (start : UInt32) (v : UInt32 → Block) : ℕ → List UInt32 → List (UInt32 × Block)
  | _, [] => []
  | tail, b :: lh => (b, v (logBlock start tail)) :: homeWrites start v (tail + 1) lh

/-- Only what is copied matters. -/
theorem logWrites_congr {v w : UInt32 → Block} : ∀ {lh : List UInt32} {tail : ℕ},
    (∀ b ∈ lh, v b = w b) → logWrites start v tail lh = logWrites start w tail lh := by
  intro lh
  induction lh with
  | nil => exact fun _ => rfl
  | cons b lh ih =>
    intro tail h
    rw [logWrites, logWrites, h b List.mem_cons_self,
      ih fun c hc => h c (List.mem_cons_of_mem b hc)]

theorem homeWrites_congr {v w : UInt32 → Block} : ∀ {lh : List UInt32} {tail : ℕ},
    (∀ j, tail ≤ j → j < tail + lh.length → v (logBlock start j) = w (logBlock start j)) →
    homeWrites start v tail lh = homeWrites start w tail lh := by
  intro lh
  induction lh with
  | nil => exact fun _ => rfl
  | cons b lh ih =>
    intro tail h
    rw [List.length_cons] at h
    rw [homeWrites, homeWrites, h tail le_rfl (by omega),
      ih fun j hlo hhi => h j (by omega) (by omega)]

/-- The blocks are none of the first `n` blocks of the log, nor its header. -/
def Apart (start : UInt32) (n : ℕ) (lh : List UInt32) : Prop :=
  ∀ b ∈ lh, b ≠ start ∧ ∀ j < n, b ≠ logBlock start j

theorem does_writeLog {n : ℕ} : ∀ (lh : List UInt32) (tail : ℕ) (s : LogBufs), s.Clean →
    Apart start n lh → tail + lh.length ≤ n →
    Does s (s.writeLog start tail lh) (logWrites start s.data tail lh) := by
  intro lh
  induction lh with
  | nil => exact fun tail s h _ _ => does_nil h
  | cons b lh ih =>
    intro tail s h hapart hlen
    rw [List.length_cons] at hlen
    have hround := does_copyLog h (logBlock start tail) b
    have hrest := ih (tail + 1) _ hround.clean (fun c hc => hapart c (List.mem_cons_of_mem b hc))
      (by omega)
    -- the rest of the blocks are not the one just written
    have hsame : logWrites start (Function.update s.data (logBlock start tail) (s.data b))
      (tail + 1)
        lh = logWrites start s.data (tail + 1) lh := by
      apply logWrites_congr
      intro c hc
      have hne := (hapart c (List.mem_cons_of_mem b hc)).2 tail (by omega)
      exact Function.update_of_ne hne ..
    rw [hround.data, Writes.apply_cons, Writes.apply_nil, hsame] at hrest
    exact hround.trans hrest

theorem does_installTrans {n : ℕ} (recovering : Bool) : ∀ (lh : List UInt32) (tail : ℕ)
    (s : LogBufs), s.Clean → Apart start n lh → tail + lh.length ≤ n →
    Does s (s.installTrans recovering start tail lh) (homeWrites start s.data tail lh) := by
  intro lh
  induction lh with
  | nil => exact fun tail s h _ _ => does_nil h
  | cons b lh ih =>
    intro tail s h hapart hlen
    rw [List.length_cons] at hlen
    have hround := does_copyHome h recovering (logBlock start tail) b
    have hrest := ih (tail + 1) _ hround.clean (fun c hc => hapart c (List.mem_cons_of_mem b hc))
      (by omega)
    have hsame : homeWrites start (Function.update s.data b (s.data (logBlock start tail)))
      (tail + 1)
        lh = homeWrites start s.data (tail + 1) lh := by
      apply homeWrites_congr
      intro j hlo hhi
      have hne := (hapart b List.mem_cons_self).2 j (by omega)
      exact Function.update_of_ne hne.symm ..
    rw [hround.data, Writes.apply_cons, Writes.apply_nil, hsame] at hrest
    exact hround.trans hrest

/-! ### The blocks of the log -/

theorem logBlock_ne_start (start : UInt32) {j : ℕ} (hj : j < LOGSIZE) :
    logBlock start j ≠ start := by
  intro h
  have h0 : UInt32.ofNat j + 1 = 0 := by
    unfold logBlock at h
    grind
  have := congrArg UInt32.toNat h0
  rw [UInt32.toNat_add, UInt32.toNat_ofNat] at this
  simp only [LOGSIZE, MAXOPBLOCKS] at hj
  simp at this
  omega

theorem logBlock_inj (start : UInt32) {i j : ℕ} (hi : i < LOGSIZE) (hj : j < LOGSIZE)
    (h : logBlock start i = logBlock start j) : i = j := by
  have heq : UInt32.ofNat i = UInt32.ofNat j := by
    unfold logBlock at h
    grind
  have := congrArg UInt32.toNat heq
  simp only [LOGSIZE, MAXOPBLOCKS] at hi hj
  simp at this
  omega

theorem mem_logWrites {v : UInt32 → Block} {w : UInt32 × Block} : ∀ (lh : List UInt32) (tail : ℕ),
    w ∈ logWrites start v tail lh →
    ∃ j, tail ≤ j ∧ j < tail + lh.length ∧ w.1 = logBlock start j := by
  intro lh
  induction lh with
  | nil => exact fun _ hw => by cases hw
  | cons b lh ih =>
    intro tail hw
    rw [List.length_cons]
    rcases List.mem_cons.mp hw with rfl | hw
    · exact ⟨tail, le_rfl, by omega, rfl⟩
    · obtain ⟨j, hlo, hhi, hj⟩ := ih (tail + 1) hw
      exact ⟨j, by omega, by omega, hj⟩

/-- What `write_log` copies is what `install_trans` copies on. -/
theorem homeWrites_logWrites {v : UInt32 → Block} : ∀ (lh : List UInt32) (tail : ℕ)
    (d : UInt32 → Block), tail + lh.length ≤ LOGSIZE →
    homeWrites start (Writes.apply (logWrites start v tail lh) d) tail lh =
      lh.map fun b => (b, v b) := by
  intro lh
  induction lh with
  | nil => exact fun _ _ _ => rfl
  | cons b lh ih =>
    intro tail d hlen
    rw [List.length_cons] at hlen
    rw [logWrites, Writes.apply_cons, homeWrites, ih (tail + 1) _ (by omega), List.map_cons]
    congr 2
    -- the copies after the first are in other blocks
    have hother : ∀ w ∈ logWrites start v (tail + 1) lh, w.1 ≠ logBlock start tail := by
      intro w hw heq
      obtain ⟨j, hlo, hhi, hj⟩ := mem_logWrites lh (tail + 1) hw
      have := logBlock_inj start (by omega) (by omega) (hj.symm.trans heq)
      omega
    rw [Writes.apply_of_notMem hother, Function.update_self]

end LogBufs

/-! ### The header -/

theorem word_setWords : ∀ (lh : List UInt32) (d : Block) (i : ℕ), i + lh.length ≤ NINDIRECT →
    ∀ j, (setWords d i lh).word j =
      if i ≤ j ∧ j < i + lh.length then lh.getD (j - i) 0 else d.word j := by
  intro lh
  induction lh with
  | nil =>
    intro d i _ j
    rw [setWords, if_neg (by simp)]
  | cons b lh ih =>
    intro d i hlen j
    rw [List.length_cons] at hlen ⊢
    rw [setWords, ih _ _ (by omega), Block.word_setWord _ _ (by omega)]
    by_cases hj : j = i
    · subst hj
      rw [if_neg (by omega), if_pos rfl, if_pos (by omega), Nat.sub_self, List.getD_cons_zero]
    · rw [if_neg hj]
      by_cases hlt : i + 1 ≤ j ∧ j < i + 1 + lh.length
      · rw [if_pos hlt, if_pos (by omega), show j - i = (j - (i + 1)) + 1 by omega,
          List.getD_cons_succ]
      · rw [if_neg hlt, if_neg (by omega)]

theorem word_putHeader_zero (d : Block) {lh : List UInt32} (hlen : lh.length ≤ LOGSIZE) :
    (putHeader d lh).word 0 = UInt32.ofNat lh.length := by
  simp only [LOGSIZE, MAXOPBLOCKS] at hlen
  rw [putHeader, word_setWords _ _ _ (by simp only [NINDIRECT]; omega), if_neg (by omega),
    Block.word_setWord _ _ (by decide), if_pos rfl]

/-- The header that was written is read back. -/
theorem getHeader_putHeader (d : Block) {lh : List UInt32} (hlen : lh.length ≤ LOGSIZE) :
    getHeader (putHeader d lh) = lh := by
  have hword := word_putHeader_zero d hlen
  simp only [LOGSIZE, MAXOPBLOCKS] at hlen
  have hn : (cInt ((putHeader d lh).word 0)).toNat = lh.length := by
    have hto : (UInt32.ofNat lh.length).toNat = lh.length :=
      UInt32.toNat_ofNat_of_lt' (by simp only [UInt32.size]; omega)
    rw [hword, cInt, hto, if_pos (by omega)]
    rfl
  unfold getHeader
  rw [hn]
  apply List.ext_getElem
  · simp
  · intro i hi hi'
    rw [List.getElem_map, List.getElem_range, putHeader,
      word_setWords _ _ _ (by simp only [NINDIRECT]; omega), if_pos (by omega), Nat.add_sub_cancel]
    exact List.getD_eq_getElem lh 0 hi'

theorem getHeader_of_zero {d : Block} (h : d.word 0 = 0) : getHeader d = [] := by
  unfold getHeader
  rw [h]
  rfl

/-! ### The writes of a commit and of a recovery -/

/-- The area of the log on disk. -/
def Log.InLog (l : Log) (b : UInt32) : Prop :=
  ∃ j : ℕ, (j : ℤ) < l.size ∧ b = l.start + UInt32.ofNat j

namespace LogBufs

variable {l : Log} {s : LogBufs} {start : UInt32} {lh : List UInt32}

/-- Clearing the header block. -/
def clearWrite (start : UInt32) (d : Block) : List (UInt32 × Block) := [(start, putHeader d [])]

/-- **The writes of `commit`**: the copies in the log, the header, the blocks at home, and
the header again. -/
theorem does_commit (h : s.Clean) (hapart : Apart l.start l.lh.length l.lh)
    (hlen : l.lh.length ≤ LOGSIZE) (hpos : 0 < l.lh.length) : ∃ d d', Does s (s.commit l).2
      (logWrites l.start s.data 0 l.lh ++ ([(l.start, putHeader d l.lh)] ++
        ((l.lh.map fun b => (b, s.data b)) ++ clearWrite l.start d'))) := by
  have hle : 0 + l.lh.length ≤ l.lh.length := by omega
  have h₁ := does_writeLog l.lh 0 s h hapart hle
  have h₂ := does_writeHead h₁.clean l.start l.lh
  have h₃ := does_installTrans false l.lh 0 _ h₂.clean hapart hle
  have h₄ := does_writeHead h₃.clean l.start []
  -- what is installed are the copies in the log
  have hhome : homeWrites l.start ((s.writeLog l.start 0 l.lh).writeHead l.start l.lh).data 0 l.lh =
      l.lh.map fun b => (b, s.data b) := by
    rw [← homeWrites_logWrites l.lh 0 s.data (by omega)]
    apply homeWrites_congr
    intro j _ hj
    rw [h₂.data, h₁.data, Writes.apply_cons, Writes.apply_nil]
    exact Function.update_of_ne (logBlock_ne_start l.start (by omega)) ..
  rw [hhome] at h₃
  have hrun := h₁.trans (h₂.trans (h₃.trans h₄))
  unfold commit
  rw [if_pos hpos]
  exact ⟨_, _, hrun⟩

theorem clean_boot (d : UInt32 → Block) (evict : ℕ → UInt32 → Bool) : (boot d evict).Clean :=
  fun _ _ => rfl

/-- **The writes of a recovery**: the blocks that the header lists, and the header. -/
theorem does_recover {d : UInt32 → Block} (evict : ℕ → UInt32 → Bool)
    (hlh : getHeader (d start) = lh) (hapart : Apart start lh.length lh) : ∃ x,
      Does (boot d evict) ((boot d evict).recoverFromLog start)
        (homeWrites start d 0 lh ++ clearWrite start x) := by
  have hclean := clean_boot d evict
  have hdata : (boot d evict).data = d := rfl
  -- reading the header changes nothing
  have hread : ((boot d evict).readHead start).1 = lh := by
    show getHeader (((boot d evict).bread start).data start) = lh
    rw [hclean.data_bread, hdata, hlh]
  have h₁ : Does (boot d evict) ((boot d evict).readHead start).2 [] := by
    refine ⟨hclean.data_bread, rfl, rfl, fun b _ => ?_⟩
    show ((boot d evict).bread start).data b = d b
    rw [hclean.data_bread]
    rfl
  have h₂ := does_installTrans true lh 0 _ h₁.clean hapart (by omega)
  rw [h₁.data, Writes.apply_nil, hdata] at h₂
  have h₃ := does_writeHead h₂.clean start []
  have hrun : (boot d evict).recoverFromLog start = writeHead start []
      (installTrans true start 0 lh ((boot d evict).readHead start).2) := by
    rw [← hread]
    rfl
  rw [hrun]
  exact ⟨_, h₁.trans (h₂.trans h₃)⟩

end LogBufs

/-! ### Crashes -/

open LogBufs

/-- The disks that a crash leaves while the buffers go from `s` to `t`. -/
def CrashDisk (s t : LogBufs) (d : UInt32 → Block) : Prop :=
  ∃ ws, t.trace = s.trace ++ ws ∧ Writes.Cut ws s.disk d

/-- The disks that any number of crashed recoveries leave. -/
inductive Recovering (start : UInt32) (d : UInt32 → Block) : (UInt32 → Block) → Prop
  | refl : Recovering start d d
  | crash {d' d'' : UInt32 → Block} (evict : ℕ → UInt32 → Bool) (h : Recovering start d d')
    (hcrash : CrashDisk (boot d' evict) ((boot d' evict).recoverFromLog start) d'') :
    Recovering start d d''

/-- A disk without a committed transaction, with the blocks `c` outside the log. -/
structure Idle (l : Log) (c d : UInt32 → Block) : Prop where
  header : (d l.start).word 0 = 0
  home : ∀ b, ¬l.InLog b → d b = c b

/-- A disk with a committed transaction that is to be installed: the blocks `l.lh` with the
contents `c`. -/
structure Committed (l : Log) (c d : UInt32 → Block) : Prop where
  header : getHeader (d l.start) = l.lh
  copies : homeWrites l.start d 0 l.lh = l.lh.map fun b => (b, c b)
  other : ∀ b, ¬l.InLog b → b ∉ l.lh → d b = c b

section Crash

variable {l : Log} {c d d' : UInt32 → Block} {ws vs : List (UInt32 × Block)}

theorem CrashDisk.cut {s t : LogBufs} (h : CrashDisk s t d) (hdoes : Does s t ws) :
    Writes.Cut ws s.disk d := by
  obtain ⟨ws', htrace, hcut⟩ := h
  rw [hdoes.trace] at htrace
  rwa [List.append_cancel_left htrace]

/-- A log that has room for its header, and for the blocks `lh`, which are not its own. -/
structure Log.Fits (l : Log) : Prop where
  size : (l.lh.length : ℤ) < l.size
  length : l.lh.length ≤ LOGSIZE
  home : ∀ b ∈ l.lh, ¬l.InLog b

namespace Log.Fits

theorem inLog_start (h : l.Fits) : l.InLog l.start := by
  have := h.size
  exact ⟨0, by omega, by simp⟩

theorem inLog_logBlock (h : l.Fits) {j : ℕ} (hj : j < l.lh.length) :
    l.InLog (logBlock l.start j) := by
  have := h.size
  refine ⟨j + 1, by omega, ?_⟩
  unfold logBlock
  rw [UInt32.ofNat_add]
  grind

theorem apart (h : l.Fits) : Apart l.start l.lh.length l.lh := by
  intro b hb
  refine ⟨?_, fun j hj => ?_⟩
  · rintro rfl
    exact h.home _ hb h.inLog_start
  · rintro rfl
    exact h.home _ hb (h.inLog_logBlock hj)

end Log.Fits

/-- Clearing the header. -/
theorem Idle.of_clear (hfits : l.Fits) (h : ∀ b, ¬l.InLog b → d b = c b) (x : Block) :
    Idle l c (Function.update d l.start (putHeader x [])) := by
  refine ⟨?_, fun b hb => ?_⟩
  · rw [Function.update_self]
    exact word_putHeader_zero x (Nat.zero_le _)
  · have hne : b ≠ l.start := by
      rintro rfl
      exact hb hfits.inLog_start
    rw [Function.update_of_ne hne]
    exact h b hb

/-- The blocks that `install_trans` writes at home. -/
def installs (l : Log) (c : UInt32 → Block) : List (UInt32 × Block) := l.lh.map fun b => (b, c b)

theorem mem_installs {w : UInt32 × Block} (hw : w ∈ installs l c) : w.1 ∈ l.lh ∧ w.2 = c w.1 := by
  obtain ⟨b, hb, rfl⟩ := List.mem_map.mp hw
  exact ⟨hb, rfl⟩

/-- Installing a transaction can be cut off and begun again. -/
theorem Committed.install (h : Committed l c d) (hfits : l.Fits)
    (hcut : Writes.Cut (installs l c) d d') : Committed l c d' := by
  -- the log itself is not written
  have hlog : ∀ b, l.InLog b → d' b = d b := by
    intro b hb
    apply hcut.of_notMem
    rintro w hw rfl
    exact hfits.home _ (mem_installs hw).1 hb
  refine ⟨?_, ?_, fun b hb hlh => ?_⟩
  · rw [hlog _ hfits.inLog_start]
    exact h.header
  · rw [← h.copies]
    apply homeWrites_congr
    intro j _ hj
    exact hlog _ (hfits.inLog_logBlock (by omega))
  · rw [← h.other b hb hlh]
    apply hcut.of_notMem
    rintro w hw rfl
    exact hlh (mem_installs hw).1

/-- A transaction that is installed has its contents outside the log. -/
theorem Committed.installed (h : Committed l c d) {b : UInt32} (hb : ¬l.InLog b) :
    Writes.apply (installs l c) d b = c b := by
  apply Writes.apply_of_forall fun w hw => (mem_installs hw).2
  by_cases hlh : b ∈ l.lh
  · exact Or.inl ⟨(b, c b), List.mem_map.mpr ⟨b, hlh, rfl⟩, rfl⟩
  · exact Or.inr (h.other b hb hlh)

/-- **From the commit point on** the transaction is committed, or it is installed and the
header is cleared. -/
theorem Committed.cut (h : Committed l c d) (hfits : l.Fits) {x : Block}
    (hcut : Writes.Cut (installs l c ++ clearWrite l.start x) d d') :
    Committed l c d' ∨ Idle l c d' := by
  rcases hcut.append with hcut | hcut
  · exact Or.inl (h.install hfits hcut)
  · rcases hcut.singleton with rfl | rfl
    · exact Or.inl (h.install hfits (Writes.Cut.all _ _))
    · exact Or.inr (Idle.of_clear hfits (fun b hb => h.installed hb) x)

/-! ### Recovery -/

theorem Committed.does_recover (h : Committed l c d) (hfits : l.Fits)
    (evict : ℕ → UInt32 → Bool) : ∃ x, Does (boot d evict)
      ((boot d evict).recoverFromLog l.start) (installs l c ++ clearWrite l.start x) := by
  have hdoes := LogBufs.does_recover evict h.header hfits.apart
  rwa [h.copies] at hdoes

theorem Idle.does_recover (h : Idle l c d) (evict : ℕ → UInt32 → Bool) : ∃ x, Does (boot d evict)
      ((boot d evict).recoverFromLog l.start) (clearWrite l.start x) :=
  LogBufs.does_recover evict (getHeader_of_zero h.header) fun _ hb => absurd hb List.not_mem_nil

/-- A crash in a recovery. -/
theorem Committed.crash (h : Committed l c d) (hfits : l.Fits) {evict : ℕ → UInt32 → Bool}
    (hcrash : CrashDisk (boot d evict) ((boot d evict).recoverFromLog l.start) d') :
    Committed l c d' ∨ Idle l c d' := by
  obtain ⟨x, hdoes⟩ := h.does_recover hfits evict
  exact h.cut hfits (hcrash.cut hdoes)

theorem Idle.crash (h : Idle l c d) (hfits : l.Fits) {evict : ℕ → UInt32 → Bool}
    (hcrash : CrashDisk (boot d evict) ((boot d evict).recoverFromLog l.start) d') :
    Idle l c d' := by
  obtain ⟨x, hdoes⟩ := h.does_recover evict
  rcases (hcrash.cut hdoes).singleton with rfl | rfl
  · exact h
  · exact Idle.of_clear hfits h.home x

/-- **A recovery that completes** leaves a disk without a transaction. -/
theorem Committed.recover (h : Committed l c d) (hfits : l.Fits) (evict : ℕ → UInt32 → Bool) :
    Idle l c ((boot d evict).recoverFromLog l.start).disk := by
  obtain ⟨x, hdoes⟩ := h.does_recover hfits evict
  rw [hdoes.disk, Writes.apply_append]
  exact Idle.of_clear hfits (fun b hb => h.installed hb) x

theorem Idle.recover (h : Idle l c d) (hfits : l.Fits) (evict : ℕ → UInt32 → Bool) :
    Idle l c ((boot d evict).recoverFromLog l.start).disk := by
  obtain ⟨x, hdoes⟩ := h.does_recover evict
  rw [hdoes.disk]
  exact Idle.of_clear hfits h.home x

/-- What is left of the transaction `l.lh`, from `c₀` to `c`, on a disk. -/
def Atomic (l : Log) (c₀ c d : UInt32 → Block) : Prop :=
  Idle l c₀ d ∨ Committed l c d ∨ Idle l c d

/-- **Crashed recoveries** leave the transaction whole. -/
theorem Atomic.recovering {c₀ : UInt32 → Block} (h : Atomic l c₀ c d) (hfits : l.Fits)
    (hrec : Recovering l.start d d') : Atomic l c₀ c d' := by
  induction hrec with
  | refl => exact h
  | crash evict _ hcrash ih =>
    rcases ih with hidle | hcom | hidle
    · exact Or.inl (hidle.crash hfits hcrash)
    · exact Or.inr (hcom.crash hfits hcrash)
    · exact Or.inr (Or.inr (hidle.crash hfits hcrash))

/-! ### Transactions -/

/-- The state between transactions: nothing is logged, the buffers agree with the disk, and
the header on disk is clear. -/
structure Ready (l : Log) (s : LogBufs) : Prop where
  lh : l.lh = []
  data : s.data = s.disk
  header : (s.disk l.start).word 0 = 0

/-- The state within a transaction that began with `s₀`: the blocks that differ from the disk
are logged, and they are pinned. -/
structure Logging (l₀ : Log) (s₀ : LogBufs) (l : Log) (s : LogBufs) : Prop where
  start : l.start = l₀.start
  size : l.size = l₀.size
  outstanding : l.outstanding = l₀.outstanding
  length : l.lh = [] ∨ l.lh.length ≤ LOGSIZE ∧ (l.lh.length : ℤ) < l.size
  disk : s.disk = s₀.disk
  trace : s.trace = s₀.trace
  pinned : ∀ b ∈ l.lh, 1 ≤ s.refcnt b
  same : ∀ b, b ∉ l.lh → s.data b = s₀.disk b

variable {l₀ : Log} {s₀ s : LogBufs}

theorem Ready.logging (h : Ready l s) : Logging l s l s := by
  refine ⟨rfl, rfl, rfl, Or.inl h.lh, rfl, rfl, fun b hb => ?_, fun b _ => by rw [h.data]⟩
  rw [h.lh] at hb
  cases hb

theorem Logging.clean (h : Logging l₀ s₀ l s) : s.Clean := by
  intro b hb
  have hlh : b ∉ l.lh := by
    intro hlh
    have := h.pinned b hlh
    omega
  rw [h.same b hlh, h.disk]

/-- What `log_write` returns. -/
theorem Log.logWrite_eq_ok {b : UInt32} {l' : Log} {new : Bool} (h : l.logWrite b = .ok (l', new)) :
    l.lh.length < LOGSIZE ∧ (l.lh.length : ℤ) < l.size - 1 ∧
      (b ∈ l.lh ∧ new = false ∧ l' = l ∨
        b ∉ l.lh ∧ new = true ∧ l' = { l with lh := l.lh ++ [b] }) := by
  unfold Log.logWrite at h
  split at h
  · cases h
  · split at h
    · cases h
    · refine ⟨by omega, by omega, ?_⟩
      split at h
      · cases h
        exact Or.inl ⟨‹_›, rfl, rfl⟩
      · cases h
        exact Or.inr ⟨‹_›, rfl, rfl⟩

/-- What an update returns. -/
theorem logUpdate_eq_ok {m : UInt32 × Block} {l' : Log} {s' : LogBufs}
    (h : logUpdate (l, s) m = .ok (l', s')) : ∃ new, l.logWrite m.1 = .ok (l', new) ∧
      s' = LogBufs.brelse m.1 (let s₁ := (s.bread m.1).store m.1 m.2
        if new then s₁.bpin m.1 else s₁) := by
  cases hw : l.logWrite m.1 with
  | error e => simp [logUpdate, hw, bind, Except.bind] at h
  | ok r =>
    simp only [logUpdate, hw, bind, Except.bind, pure, Except.pure] at h
    cases h
    exact ⟨r.2, rfl, rfl⟩

theorem transaction_cons_eq_ok {m : UInt32 × Block} {ms : List (UInt32 × Block)}
    {st st' : Log × LogBufs} (h : transaction (m :: ms) st = .ok st') :
    ∃ st₁, logUpdate st m = .ok st₁ ∧ transaction ms st₁ = .ok st' := by
  cases hm : logUpdate st m with
  | error e => simp [transaction, List.foldlM_cons, hm, bind, Except.bind] at h
  | ok st₁ =>
    simp only [transaction, List.foldlM_cons, hm, bind, Except.bind] at h
    exact ⟨st₁, rfl, h⟩

/-- The buffers after an update. -/
theorem LogBufs.Clean.update_refcnt (h : s.Clean) (b : UInt32) (d : Block) (new : Bool) :
    let s₁ := (s.bread b).store b d
    let s₂ := (if new then s₁.bpin b else s₁).brelse b
    s₂.data = Function.update s.data b d ∧ s₂.disk = s.disk ∧ s₂.trace = s.trace ∧
      s₂.refcnt = Function.update s.refcnt b (s.refcnt b + if new then 1 else 0) := by
  cases new <;> simp [h.data_bread]

/-- **An update keeps the transaction**, and the block is logged. -/
theorem Logging.update (h : Logging l₀ s₀ l s) {m : UInt32 × Block} {l' : Log} {s' : LogBufs}
    (hrun : logUpdate (l, s) m = .ok (l', s')) :
    Logging l₀ s₀ l' s' ∧ s'.data = Function.update s.data m.1 m.2 ∧
      ∀ b, b ∈ l'.lh ↔ b ∈ l.lh ∨ b = m.1 := by
  obtain ⟨new, hwrite, rfl⟩ := logUpdate_eq_ok hrun
  obtain ⟨hdata, hdisk, htrace, href⟩ := h.clean.update_refcnt m.1 m.2 new
  obtain ⟨hsize, hlog, ⟨hmem, rfl, rfl⟩ | ⟨hmem, rfl, rfl⟩⟩ := Log.logWrite_eq_ok hwrite
  · -- absorbed: the block is pinned already
    refine ⟨⟨h.start, h.size, h.outstanding, h.length, hdisk.trans h.disk, htrace.trans h.trace,
      fun b hb => ?_, fun b hb => ?_⟩, hdata, fun b => ?_⟩
    · rw [href]
      by_cases hbm : b = m.1
      · subst hbm
        simpa using h.pinned _ hmem
      · simpa [hbm] using h.pinned b hb
    · have hbm : b ≠ m.1 := fun heq => hb (heq ▸ hmem)
      rw [hdata, Function.update_of_ne hbm]
      exact h.same b hb
    · exact ⟨Or.inl, fun hb => hb.elim id fun heq => heq ▸ hmem⟩
  · refine ⟨⟨h.start, h.size, h.outstanding, Or.inr ?_, hdisk.trans h.disk, htrace.trans h.trace,
      fun b hb => ?_, fun b hb => ?_⟩, hdata, fun b => ?_⟩
    · simp only [List.length_append, List.length_singleton]
      omega
    · rw [href]
      by_cases hbm : b = m.1
      · subst hbm
        simp
      · have hb' : b ∈ l.lh := by simpa [hbm] using hb
        simpa [hbm] using h.pinned b hb'
    · rw [List.mem_append, List.mem_singleton, not_or] at hb
      rw [hdata, Function.update_of_ne hb.2]
      exact h.same b hb.1
    · rw [List.mem_append, List.mem_singleton]

/-- **The run of a transaction**: the buffers have the updates, and the blocks are logged. -/
theorem Logging.transaction : ∀ (ms : List (UInt32 × Block)) {l : Log} {s : LogBufs}
    {l' : Log} {s' : LogBufs}, Logging l₀ s₀ l s → transaction ms (l, s) = .ok (l', s') →
    Logging l₀ s₀ l' s' ∧ s'.data = Writes.apply ms s.data ∧
      ∀ b, b ∈ l'.lh ↔ b ∈ l.lh ∨ b ∈ ms.map Prod.fst := by
  intro ms
  induction ms with
  | nil =>
    intro l s l' s' h hrun
    cases hrun
    exact ⟨h, rfl, fun b => by simp⟩
  | cons m ms ih =>
    intro l s l' s' h hrun
    obtain ⟨⟨l₁, s₁⟩, hm, hrest⟩ := transaction_cons_eq_ok hrun
    obtain ⟨h₁, hdata₁, hmem₁⟩ := h.update hm
    obtain ⟨h₂, hdata₂, hmem₂⟩ := ih h₁ hrest
    refine ⟨h₂, by rw [hdata₂, hdata₁, Writes.apply_cons], fun b => ?_⟩
    rw [hmem₂, hmem₁, List.map_cons, List.mem_cons, or_assoc]

/-- A transaction with no more updates than the log has room for does not panic. -/
theorem transaction_returns : ∀ (ms : List (UInt32 × Block)) {l : Log} (s : LogBufs),
    0 < l.outstanding → l.lh.length + ms.length ≤ LOGSIZE →
    (l.lh.length + ms.length : ℤ) ≤ l.size - 1 → ∃ st, transaction ms (l, s) = .ok st := by
  intro ms
  induction ms with
  | nil => exact fun s _ _ _ => ⟨_, rfl⟩
  | cons m ms ih =>
    intro l s hout hlen hsize
    rw [List.length_cons] at hlen hsize
    push_cast at hsize
    obtain ⟨l₁, new, hwrite, hout₁, hsize₁, hlen₁⟩ : ∃ l₁ new, l.logWrite m.1 = .ok (l₁, new) ∧
        l₁.outstanding = l.outstanding ∧ l₁.size = l.size ∧ l₁.lh.length ≤ l.lh.length + 1 := by
      unfold Log.logWrite
      rw [if_neg (by omega), if_neg (by omega)]
      split
      · exact ⟨_, _, rfl, rfl, rfl, by omega⟩
      · exact ⟨_, _, rfl, rfl, rfl, by simp⟩
    have hm : ∃ s₁, logUpdate (l, s) m = .ok (l₁, s₁) := by
      simp only [logUpdate, hwrite, bind, Except.bind, pure, Except.pure]
      exact ⟨_, rfl⟩
    obtain ⟨s₁, hm⟩ := hm
    obtain ⟨st, hst⟩ := ih s₁ (hout₁ ▸ hout) (by omega) (by omega)
    refine ⟨st, ?_⟩
    rw [transaction, List.foldlM_cons, hm]
    exact hst

/-- The log of a transaction on blocks outside the log. -/
theorem Logging.fits (h : Logging l₀ s₀ l s) (hsize : 0 < l₀.size)
    (hhome : ∀ b ∈ l.lh, ¬l₀.InLog b) : l.Fits := by
  have hlen : l.lh.length ≤ LOGSIZE ∧ (l.lh.length : ℤ) < l.size := by
    rcases h.length with hnil | hlen
    · rw [hnil, h.size]
      exact ⟨Nat.zero_le _, hsize⟩
    · exact hlen
  refine ⟨hlen.2, hlen.1, fun b hb hin => hhome b hb ?_⟩
  unfold Log.InLog at hin ⊢
  rwa [h.start, h.size] at hin

/-- The copies are in the log, and not in its header. -/
theorem Log.Fits.cut_logWrites (hfits : l.Fits) {v : UInt32 → Block} {b : UInt32}
    (hcut : Writes.Cut (logWrites l.start v 0 l.lh) d d') (hb : b = l.start ∨ ¬l.InLog b) :
    d' b = d b := by
  apply hcut.of_notMem
  rintro w hw rfl
  obtain ⟨j, -, hj, hw⟩ := mem_logWrites l.lh 0 hw
  rw [Nat.zero_add] at hj
  rw [hw] at hb
  rcases hb with hb | hb
  · exact logBlock_ne_start l.start (hj.trans_le hfits.length) hb
  · exact hb (hfits.inLog_logBlock hj)

/-- **The commit point** is the write of the header after the copies. -/
theorem Logging.committed (h : Logging l₀ s₀ l s) (hfits : l.Fits) (x : Block) :
    Committed l s.data (Function.update (Writes.apply (logWrites l.start s.data 0 l.lh) s₀.disk)
      l.start (putHeader x l.lh)) := by
  refine ⟨?_, ?_, fun b hb hlh => ?_⟩
  · rw [Function.update_self]
    exact getHeader_putHeader x hfits.length
  · have hlen := hfits.length
    rw [← homeWrites_logWrites l.lh 0 s₀.disk (by omega)]
    apply homeWrites_congr
    intro j _ hj
    exact Function.update_of_ne (logBlock_ne_start l.start (by omega)) ..
  · have hne : b ≠ l.start := by
      rintro rfl
      exact hb hfits.inLog_start
    rw [Function.update_of_ne hne, hfits.cut_logWrites (Writes.Cut.all _ _) (Or.inr hb),
      h.same b hlh]

/-- **A crash in `commit`** leaves the transaction whole. -/
theorem Logging.crash (h : Logging l₀ s₀ l s) (hheader : (s₀.disk l.start).word 0 = 0)
    (hfits : l.Fits) (hcrash : CrashDisk s (s.commit l).2 d) : Atomic l s₀.disk s.data d := by
  -- as long as no header is written, nothing has happened
  have hcopies : ∀ {d' : UInt32 → Block},
      Writes.Cut (logWrites l.start s.data 0 l.lh) s₀.disk d' → Idle l s₀.disk d' := by
    intro d' hcut
    refine ⟨?_, fun b hb => hfits.cut_logWrites hcut (Or.inr hb)⟩
    rw [hfits.cut_logWrites hcut (Or.inl rfl)]
    exact hheader
  by_cases hpos : 0 < l.lh.length
  · obtain ⟨x, x', hdoes⟩ := does_commit h.clean hfits.apart hfits.length hpos
    have hcut := hcrash.cut hdoes
    rw [h.disk] at hcut
    rcases hcut.append with hcut | hcut
    · exact Or.inl (hcopies hcut)
    · rcases hcut.append with hcut | hcut
      · rcases hcut.singleton with rfl | rfl
        · exact Or.inl (hcopies (Writes.Cut.all _ _))
        · exact Or.inr (Or.inl (h.committed hfits x))
      · exact Or.inr ((h.committed hfits x).cut hfits hcut)
  · -- nothing is logged, and `commit` does nothing
    have hcommit : s.commit l = (l, s) := if_neg hpos
    rw [hcommit] at hcrash
    have hcut := hcrash.cut (does_nil h.clean)
    obtain ⟨k, rfl⟩ := hcut
    rw [List.take_nil, Writes.apply_nil, h.disk]
    exact Or.inl ⟨hheader, fun b _ => rfl⟩

/-- The state between transactions, where `lh` is logged, with the blocks `c` outside the log. -/
structure Settled (l : Log) (c : UInt32 → Block) (lh : List UInt32) (s : LogBufs) : Prop
    extends Idle l c s.disk where
  lh : lh = []
  data : s.data = s.disk

/-- A commit that completes has settled the transaction. -/
theorem Logging.ready (h : Logging l₀ s₀ l s) (hheader : (s₀.disk l.start).word 0 = 0)
    (hfits : l.Fits) : Settled l s.data (s.commit l).1.lh (s.commit l).2 := by
  by_cases hpos : 0 < l.lh.length
  · obtain ⟨x, x', hdoes⟩ := does_commit h.clean hfits.apart hfits.length hpos
    refine ⟨?_, by rw [commit, if_pos hpos], ?_⟩
    · rw [hdoes.disk, h.disk, Writes.apply_append, Writes.apply_append, Writes.apply_append]
      exact Idle.of_clear hfits (fun b hb => (h.committed hfits x).installed hb) x'
    · -- what was logged is written home, and the rest agreed before
      rw [hdoes.data, hdoes.disk]
      funext b
      apply Writes.apply_congr
      by_cases hb : b ∈ l.lh
      · exact Or.inl ⟨(b, s.data b), by simp [hb], rfl⟩
      · exact Or.inr (by rw [h.same b hb, h.disk])
  · have hnil : l.lh = [] := List.eq_nil_of_length_eq_zero (by omega)
    have hdata : s.data = s.disk := by
      funext b
      rw [h.same b (by simp [hnil]), h.disk]
    rw [show s.commit l = (l, s) from if_neg hpos]
    exact ⟨⟨by rw [h.disk]; exact hheader, fun b _ => by rw [hdata]⟩, hnil, hdata⟩

theorem LogBufs.Does.data_eq_disk {evict : ℕ → UInt32 → Bool} (h : Does (boot d evict) s ws) :
    s.data = s.disk := by
  rw [h.data, h.disk]
  rfl

/-- A recovery that completes has settled the transaction or undone it. -/
theorem Atomic.ready {c₀ : UInt32 → Block} (h : Atomic l c₀ c d) (hfits : l.Fits)
    (evict : ℕ → UInt32 → Bool) :
    Settled l c₀ [] ((boot d evict).recoverFromLog l.start) ∨
      Settled l c [] ((boot d evict).recoverFromLog l.start) := by
  rcases h with hidle | hcom | hidle
  · obtain ⟨x, hdoes⟩ := hidle.does_recover evict
    exact Or.inl ⟨hidle.recover hfits evict, rfl, hdoes.data_eq_disk⟩
  · obtain ⟨x, hdoes⟩ := hcom.does_recover hfits evict
    exact Or.inr ⟨hcom.recover hfits evict, rfl, hdoes.data_eq_disk⟩
  · obtain ⟨x, hdoes⟩ := hidle.does_recover evict
    exact Or.inr ⟨hidle.recover hfits evict, rfl, hdoes.data_eq_disk⟩

/-- How a transaction ends: `commit` completes, or it crashes, and any number of recoveries
crash before one completes. -/
inductive Ends (l : Log) (s : LogBufs) : Bool → List UInt32 → LogBufs → Prop
  | commit : Ends l s true (s.commit l).1.lh (s.commit l).2
  | crash {d d' : UInt32 → Block} (hcrash : CrashDisk s (s.commit l).2 d)
    (hrec : Recovering l.start d d') (evict : ℕ → UInt32 → Bool) :
    Ends l s false [] ((boot d' evict).recoverFromLog l.start)

/-- Runs of transactions on blocks outside the log, with whether each `commit` completed. -/
inductive Transactions (l : Log) (s₀ : LogBufs) :
    List (Bool × List (UInt32 × Block)) → List UInt32 → LogBufs → Prop
  | start : Transactions l s₀ [] l.lh s₀
  | next {runs lh lh' s s' t l' ms done} (before : Transactions l s₀ runs lh s)
    (hms : ∀ m ∈ ms, ¬l.InLog m.1) (hrun : transaction ms ({ l with lh := lh }, s) = .ok (l', s'))
    (hend : Ends l' s' done lh' t) : Transactions l s₀ (runs ++ [(done, ms)]) lh' t

theorem Ends.settled {l' : Log} {s' t : LogBufs} {done : Bool} {lh : List UInt32}
    (hend : Ends l' s' done lh t)
    (h : Ready l s) (hsize : 0 < l.size) (hms : ∀ w ∈ ws, ¬l.InLog w.1)
    (hrun : transaction ws (l, s) = .ok (l', s')) :
    Settled l (Writes.apply ws s.disk) lh t ∨ done = false ∧ Settled l s.disk lh t := by
  obtain ⟨hlog, hdata, hmem⟩ := h.logging.transaction ws hrun
  have hfits : l'.Fits := by
    refine hlog.fits hsize fun b hb => ?_
    rw [hmem, h.lh] at hb
    obtain ⟨m, hm, rfl⟩ := List.mem_map.mp (hb.resolve_left List.not_mem_nil)
    exact hms m hm
  have hheader := h.header
  rw [← hlog.start] at hheader
  -- the area of the log is the same
  have hsame : ∀ {c : UInt32 → Block}, Settled l' c lh t → Settled l c lh t := by
    rintro c ⟨⟨hclear, hhome⟩, hlh, hdata⟩
    simp only [Log.InLog, hlog.start, hlog.size] at hclear hhome
    exact ⟨⟨hclear, hhome⟩, hlh, hdata⟩
  rw [h.data] at hdata
  rw [← hdata]
  cases hend with
  | commit => exact Or.inl (hsame (hlog.ready hheader hfits))
  | crash hcrash hrec evict =>
    rcases ((hlog.crash hheader hfits hcrash).recovering hfits hrec).ready hfits evict with hs | hs
    · exact Or.inr ⟨rfl, hsame hs⟩
    · exact Or.inl (hsame hs)

/-- **Transactions are atomic and durable, whatever crashes**: outside the log the disk has the
updates of some of them, each as a whole and in order, among them all that were committed. -/
theorem Transactions.durable {runs : List (Bool × List (UInt32 × Block))} {lh : List UInt32}
    (hruns : Transactions l s₀ runs lh s) (h : Ready l s₀) (hsize : 0 < l.size) :
    ∃ kept, (runs.filter Prod.fst).Sublist kept ∧ kept.Sublist runs ∧
      Settled l (Writes.apply (kept.flatMap Prod.snd) s₀.disk) lh s := by
  induction hruns with
  | start => exact ⟨[], .slnil, .slnil, ⟨h.header, fun _ _ => rfl⟩, h.lh, h.data⟩
  | next before hms hrun hend ih =>
    obtain ⟨kept, hall, hsub, hs⟩ := ih
    have hready : Ready { l with lh := _ } _ := ⟨hs.lh, hs.data, hs.header⟩
    rcases hend.settled hready hsize hms hrun with ht | ⟨rfl, ht⟩
    · refine ⟨kept ++ [_], ?_, hsub.append (.refl _), ⟨ht.header, fun b hb => ?_⟩, ht.lh, ht.data⟩
      · rw [List.filter_append]
        exact hall.append List.filter_sublist
      · rw [ht.home b hb, List.flatMap_append, Writes.apply_append, List.flatMap_singleton]
        exact Writes.apply_congr (Or.inr (hs.home b hb))
    · exact ⟨kept, by simpa using hall, hsub.trans (List.sublist_append_left ..),
        ⟨ht.header, fun b hb => (ht.home b hb).trans (hs.home b hb)⟩, ht.lh, ht.data⟩

/-- **A commit is atomic.**  A transaction that updates blocks outside the log returns if the
log has room for them; and wherever `commit` crashes, and however many recoveries crash after
that, once a recovery completes the blocks outside the log have all the updates or none of
them, and the header on disk is clear.  A panic on the way is a crash like any other. -/
theorem commit_crash_atomic (h : Ready l s) (hsize : 0 < l.size) (hout : 0 < l.outstanding)
    {ms : List (UInt32 × Block)} (hms : ∀ m ∈ ms, ¬l.InLog m.1) :
    (ms.length ≤ LOGSIZE → (ms.length : ℤ) ≤ l.size - 1 →
      ∃ st, transaction ms (l, s) = .ok st) ∧
    ∀ l' s', transaction ms (l, s) = .ok (l', s') → ∀ d d' evict,
      CrashDisk s' (s'.commit l').2 d → Recovering l.start d d' →
      let r := ((boot d' evict).recoverFromLog l.start).disk
      (r l.start).word 0 = 0 ∧
        ((∀ b, ¬l.InLog b → r b = Writes.apply ms s.disk b) ∨
          ∀ b, ¬l.InLog b → r b = s.disk b) := by
  refine ⟨fun hlen hroom => ?_, fun l' s' hrun d d' evict hcrash hrec => ?_⟩
  · apply transaction_returns ms s hout
    · rw [h.lh, List.length_nil, Nat.zero_add]
      exact hlen
    · rw [h.lh, List.length_nil, Nat.cast_zero, zero_add]
      exact hroom
  · obtain ⟨hlog, hdata, hmem⟩ := h.logging.transaction ms hrun
    have hfits : l'.Fits := by
      refine hlog.fits hsize fun b hb => ?_
      rw [hmem, h.lh] at hb
      obtain ⟨m, hm, rfl⟩ := List.mem_map.mp (hb.resolve_left List.not_mem_nil)
      exact hms m hm
    have hstart : ∀ b, l'.InLog b ↔ l.InLog b := by
      intro b
      unfold Log.InLog
      rw [hlog.start, hlog.size]
    have hatomic := hlog.crash (by rw [hlog.start]; exact h.header) hfits hcrash
    rw [← hlog.start] at hrec ⊢
    rw [hdata, h.data] at hatomic
    rcases hatomic.recovering hfits hrec with hidle | hcom | hidle
    · have hend := hidle.recover hfits evict
      exact ⟨hend.header, Or.inr fun b hb => hend.home b (by rwa [hstart])⟩
    · have hend := hcom.recover hfits evict
      exact ⟨hend.header, Or.inl fun b hb => hend.home b (by rwa [hstart])⟩
    · have hend := hidle.recover hfits evict
      exact ⟨hend.header, Or.inl fun b hb => hend.home b (by rwa [hstart])⟩

end Crash

/-- A log as `mkfs` lays it out, within a call. -/
def openLog : Log := ⟨2, LOGSIZE, 1, false, []⟩

/-- An empty disk after a restart. -/
def emptyBufs : LogBufs := boot (fun _ => Block.zero) fun _ _ => true

/-- Two blocks after the log. -/
def twoUpdates : List (UInt32 × Block) :=
  [(100, Block.zero.setWord 0 1), (101, Block.zero.setWord 0 2)]

theorem lt_of_inLog_openLog {b : UInt32} (h : openLog.InLog b) : b.toNat < 32 := by
  obtain ⟨j, hj, rfl⟩ := h
  have hj' : j < 30 := by
    have hsize : openLog.size = 30 := rfl
    omega
  have hstart : openLog.start.toNat = 2 := rfl
  rw [UInt32.toNat_add, hstart, UInt32.toNat_ofNat']
  omega

/-- The two updates are made, and they reach the disk together or not at all. -/
theorem commit_crash_atomic_emptyBufs :
    (∃ st, transaction twoUpdates (openLog, emptyBufs) = .ok st) ∧
    ∀ l' s', transaction twoUpdates (openLog, emptyBufs) = .ok (l', s') → ∀ d d' evict,
      CrashDisk s' (s'.commit l').2 d → Recovering 2 d d' →
      let r := ((boot d' evict).recoverFromLog 2).disk
      r 100 = Block.zero.setWord 0 1 ∧ r 101 = Block.zero.setWord 0 2 ∨
        r 100 = Block.zero ∧ r 101 = Block.zero := by
  have hready : Ready openLog emptyBufs := ⟨rfl, rfl, by decide⟩
  have h100 : ¬openLog.InLog 100 := fun h => absurd (lt_of_inLog_openLog h) (by decide)
  have h101 : ¬openLog.InLog 101 := fun h => absurd (lt_of_inLog_openLog h) (by decide)
  have hms : ∀ m ∈ twoUpdates, ¬openLog.InLog m.1 := by
    intro m hm
    simp only [twoUpdates, List.mem_cons, List.not_mem_nil, or_false] at hm
    rcases hm with rfl | rfl
    · exact h100
    · exact h101
  obtain ⟨hok, hatomic⟩ := commit_crash_atomic hready (by decide) (by decide) hms
  refine ⟨hok (by decide) (by decide), fun l' s' hrun d d' evict hcrash hrec => ?_⟩
  obtain ⟨-, hall | hnone⟩ := hatomic l' s' hrun d d' evict hcrash hrec
  · exact Or.inl ⟨hall 100 h100, hall 101 h101⟩
  · exact Or.inr ⟨hnone 100 h100, hnone 101 h101⟩

/-- The two updates are on the disk once they are committed. -/
theorem durable_twoUpdates : ∃ s, Transactions openLog emptyBufs [(true, twoUpdates)] [] s ∧
    Settled openLog (Writes.apply twoUpdates emptyBufs.disk) [] s := by
  have hms : ∀ m ∈ twoUpdates, ¬openLog.InLog m.1 := fun m hm h =>
    absurd (lt_of_inLog_openLog h) ((by decide : ∀ m ∈ twoUpdates, ¬m.1.toNat < 32) m hm)
  have hruns := (.start : Transactions openLog emptyBufs _ _ _).next hms rfl .commit
  obtain ⟨kept, hall, hsub, hs⟩ := hruns.durable ⟨rfl, rfl, by decide⟩ (by decide)
  obtain rfl := hsub.antisymm hall
  exact ⟨_, hruns, hs⟩

end Xv6Ext2
