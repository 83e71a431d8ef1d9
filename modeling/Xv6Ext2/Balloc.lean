import Mathlib.Order.Interval.Finset.Nat
import Xv6Ext2.Fs

/-!
# The block allocator

`balloc` and `bfree` of `kernel/fs.c`.  The allocator searches the block bitmap
with `ext2fs_free_block`, which walks each byte from its most significant bit;
`bfree` computes the position of the bit on its own and counts from the least
significant one.  So block `k` of the bitmap is taken by setting one bit and
given back by clearing another, the bit of the block `mirror k`.

## Main definitions

* `ext2fsFreeBlock`, `bzero`, `balloc`, `bfree` — the source functions.
* `usedBit bm k` — the bit `balloc` sets for block `k` of the bitmap.
* `mirror k` — the block whose bit `bfree` clears for block `k`.
* `FirstFree sb bm k`, `freeBits sb bm` — the block the search stops at, and the
  number of blocks it can still find.
* `AllocRun` — runs of `balloc` and `bfree` with the blocks held on the way.

## Main results

* `balloc_ok`, `balloc_error` — what `balloc` does on the block store, with and
  without a block left.
* `bfree_ok`, `bfree_panic` — what `bfree` does.
* `freeBlockOk_iff` — where the search keeps to the bits it is meant for.
* `allocRun_spec` — **runs of the allocator**: what holds in every run whose
  `bfree` steps find the mirrored block in use and not held.
* `allocRun_unsafe` — a run that ends in the panic of `bfree`.
-/

namespace Xv6Ext2

open Bytes

variable {σ β : Type} [BlockLayer σ β]

/-! ### The source functions -/

/-- The loop over `j`: the first clear bit of a byte, from the most significant. -/
def freeBitOf (c : UInt8) : Option ℕ :=
  (List.range 8).find? fun j => c &&& bitMask (7 - j) = 0

/-- The loop over `i`, with `n` rounds left.  The array has `BSIZE` bytes, and
nothing stops the loop there. -/
def ext2fsFreeBlockLoop (bitmap : Block) : ℕ → ℕ → Except Err (Option (ℕ × Block))
  | 0, _ => .ok none
  | n + 1, i =>
    if BSIZE ≤ i then .error .fault
    else match freeBitOf (bitmap.byte i) with
      | some j =>
        .ok (some (i * 8 + j, bitmap.put i 1 fun _ => bitmap.byte i ||| bitMask (7 - j)))
      | none => ext2fsFreeBlockLoop bitmap n (i + 1)

/-- `ext2fs_free_block`: the index found and the bitmap with its bit set, or
`none` for `-1`. -/
def ext2fsFreeBlock (sb : Superblock) (bitmap : Block) : Except Err (Option (ℕ × Block)) :=
  ext2fsFreeBlockLoop bitmap (sb.sBlocksPerGroup * 8).toNat 0

/-- Zero a block. -/
def bzero (dev bno : UInt32) : FsM σ Unit := do
  let bp ← bread dev bno
  bstore bp Block.zero
  bwrite bp
  brelse bp

/-- Allocate a zeroed disk block. -/
def balloc (dev : UInt32) : FsM σ UInt32 := do
  let gdesc ← readGroupDesc dev
  let bp2 ← bread dev gdesc.blockBitmap
  let bitmap ← bdata bp2
  let s ← get
  match ← FsM.ofExcept (ext2fsFreeBlock s.sb bitmap) with
  | some (fbit, bitmap') => do
    bstore bp2 bitmap'
    let zbno := gdesc.blockBitmap + UInt32.ofNat fbit
    bwrite bp2
    bzero dev zbno
    brelse bp2
    return zbno
  | none => do
    brelse bp2
    panic "ext2_balloc: out of blocks\n"

/-- Free a disk block. -/
def bfree (dev b : UInt32) : FsM σ Unit := do
  let bp1 ← bread dev 2
  let bgdesc := GroupDesc.decode (← bdata bp1)
  let bp2 ← bread dev bgdesc.blockBitmap
  let bitmap ← bdata bp2
  let b := (b - bgdesc.blockBitmap).toNat
  if BSIZE ≤ b / 8 then throw .fault
  else if bitmap.byte (b / 8) &&& bitMask (b % 8) = 0 then
    panic "ext2fs_bfree: block already free\n"
  else do
    bstore bp2 (bitmap.put (b / 8) 1 fun _ => bitmap.byte (b / 8) &&& ~~~bitMask (b % 8))
    bwrite bp2
    brelse bp2
    brelse bp1

/-! ### The bits of the bitmap -/

/-- The bit that `balloc` sets for block `k` of the bitmap. -/
def usedBit (bm : Block) (k : ℕ) : Bool := testBit (bm.byte (k / 8)) (7 - k % 8)

/-- The bitmap with block `k` taken. -/
def setUsed (bm : Block) (k : ℕ) : Block :=
  bm.put (k / 8) 1 fun _ => bm.byte (k / 8) ||| bitMask (7 - k % 8)

/-- The bitmap as `bfree` leaves it for block `k`. -/
def clearBit (bm : Block) (k : ℕ) : Block :=
  bm.put (k / 8) 1 fun _ => bm.byte (k / 8) &&& ~~~bitMask (k % 8)

/-- The block that stands, in `balloc`'s numbering, at the bit that `bfree` uses
for block `k`. -/
def mirror (k : ℕ) : ℕ := 8 * (k / 8) + (7 - k % 8)

theorem mirror_div (k : ℕ) : mirror k / 8 = k / 8 := by
  unfold mirror
  omega

theorem mirror_mod (k : ℕ) : mirror k % 8 = 7 - k % 8 := by
  unfold mirror
  omega

theorem mirror_ne (k : ℕ) : mirror k ≠ k := by
  intro h
  have := mirror_mod k
  omega

/-- The bit that `bfree` tests for block `k`. -/
theorem usedBit_mirror (bm : Block) (k : ℕ) :
    usedBit bm (mirror k) = testBit (bm.byte (k / 8)) (k % 8) := by
  rw [usedBit, mirror_div, mirror_mod]
  congr 1
  omega

theorem usedBit_setUsed (bm : Block) {k : ℕ} (hk : k < 8 * BSIZE) (j : ℕ) :
    usedBit (setUsed bm k) j = (usedBit bm j || decide (j = k)) := by
  unfold usedBit setUsed
  rw [Block.byte_put _ _ (by omega)]
  by_cases h : j / 8 = k / 8
  · rw [if_pos (by omega), testBit_or_bitMask _ (by omega), h]
    congr 2
    simp only [eq_iff_iff]
    omega
  · rw [if_neg (by omega)]
    have : j ≠ k := fun hjk => h (by rw [hjk])
    simp [this]

theorem usedBit_clearBit (bm : Block) {k : ℕ} (hk : k < 8 * BSIZE) (j : ℕ) :
    usedBit (clearBit bm k) j = (usedBit bm j && !decide (j = mirror k)) := by
  unfold usedBit clearBit
  rw [Block.byte_put _ _ (by omega)]
  by_cases h : j / 8 = k / 8
  · rw [if_pos (by omega), testBit_and_not_bitMask _ (by omega) (by omega), h]
    congr 3
    have := mirror_div k
    have := mirror_mod k
    simp only [eq_iff_iff]
    omega
  · rw [if_neg (by omega)]
    have : j ≠ mirror k := fun hjk => h (by rw [hjk, mirror_div])
    simp [this]

/-! ### The search for a free bit -/

/-- The bytes the search looks at before it ends or leaves the block. -/
def scanned (sb : Superblock) : ℕ := min (sb.sBlocksPerGroup * 8).toNat BSIZE

/-- Block `k` of the bitmap is the first one free. -/
def FirstFree (sb : Superblock) (bm : Block) (k : ℕ) : Prop :=
  k < 8 * scanned sb ∧ usedBit bm k = false ∧ ∀ j < k, usedBit bm j = true

/-- The number of blocks that the search can still find. -/
def freeBits (sb : Superblock) (bm : Block) : ℕ :=
  ((Finset.range (8 * scanned sb)).filter fun k => usedBit bm k = false).card

theorem FirstFree.lt {sb : Superblock} {bm : Block} {k : ℕ} (h : FirstFree sb bm k) :
    k < 8 * BSIZE := by
  have := h.1
  unfold scanned at this
  omega

theorem FirstFree.eq {sb : Superblock} {bm : Block} {j k : ℕ} (hj : FirstFree sb bm j)
    (hk : FirstFree sb bm k) : j = k := by
  rcases Nat.lt_trichotomy j k with h | h | h
  · have := hk.2.2 j h
    rw [hj.2.1] at this
    cases this
  · exact h
  · have := hj.2.2 k h
    rw [hk.2.1] at this
    cases this

/-- A bitmap with a free bit in reach has a first one. -/
theorem exists_firstFree {sb : Superblock} {bm : Block} (h : 0 < freeBits sb bm) :
    ∃ k, FirstFree sb bm k := by
  obtain ⟨k, hk⟩ := Finset.card_pos.mp h
  rw [Finset.mem_filter, Finset.mem_range] at hk
  have hex : ∃ k, k < 8 * scanned sb ∧ usedBit bm k = false := ⟨k, hk⟩
  refine ⟨Nat.find hex, (Nat.find_spec hex).1, (Nat.find_spec hex).2, fun j hj => ?_⟩
  have hmin := Nat.find_min hex hj
  have hlt := (Nat.find_spec hex).1
  by_contra hused
  exact hmin ⟨by omega, by simpa using hused⟩

theorem FirstFree.freeBits_pos {sb : Superblock} {bm : Block} {k : ℕ} (h : FirstFree sb bm k) :
    0 < freeBits sb bm :=
  Finset.card_pos.mpr ⟨k, Finset.mem_filter.mpr ⟨Finset.mem_range.mpr h.1, h.2.1⟩⟩

/-- Taking the first free block leaves one free bit less. -/
theorem freeBits_setUsed {sb : Superblock} {bm : Block} {k : ℕ} (h : FirstFree sb bm k) :
    freeBits sb (setUsed bm k) + 1 = freeBits sb bm := by
  have hk := h.lt
  have heq : ((Finset.range (8 * scanned sb)).filter fun j => usedBit (setUsed bm k) j = false)
      = ((Finset.range (8 * scanned sb)).filter fun j => usedBit bm j = false).erase k := by
    ext j
    simp only [Finset.mem_filter, Finset.mem_erase, usedBit_setUsed bm hk]
    constructor
    · rintro ⟨hj, hb⟩
      simp only [Bool.or_eq_false_iff, decide_eq_false_iff_not] at hb
      exact ⟨hb.2, hj, hb.1⟩
    · rintro ⟨hne, hj, hb⟩
      exact ⟨hj, by simp [hb, hne]⟩
  rw [freeBits, freeBits, heq]
  refine Finset.card_erase_add_one ?_
  rw [Finset.mem_filter, Finset.mem_range]
  exact ⟨h.1, h.2.1⟩

/-- The first clear bit of a byte, as a bit of the bitmap. -/
theorem freeBitOf_eq_some {bm : Block} {i j : ℕ} :
    freeBitOf (bm.byte i) = some j ↔
      j < 8 ∧ usedBit bm (8 * i + j) = false ∧ ∀ l < j, usedBit bm (8 * i + l) = true := by
  have hbit : ∀ l < 8, bm.byte i &&& bitMask (7 - l) = 0 ↔ usedBit bm (8 * i + l) = false := by
    intro l hl
    rw [and_bitMask_eq_zero (by omega), usedBit, show (8 * i + l) / 8 = i by omega,
      show (8 * i + l) % 8 = l by omega]
  unfold freeBitOf
  rw [List.find?_range_eq_some]
  simp only [decide_eq_true_eq, List.mem_range, Bool.not_eq_true', decide_eq_false_iff_not]
  constructor
  · rintro ⟨h0, hj, hmin⟩
    refine ⟨hj, (hbit j hj).mp h0, fun l hl => ?_⟩
    have := mt (hbit l (by omega)).mpr (hmin l hl)
    simpa using this
  · rintro ⟨hj, h0, hmin⟩
    refine ⟨(hbit j hj).mpr h0, hj, fun l hl hz => ?_⟩
    have := (hbit l (by omega)).mp hz
    rw [hmin l hl] at this
    cases this

/-- The search from byte `i` on finds the first free bit when there is one. -/
theorem ext2fsFreeBlockLoop_some {bm : Block} {k : ℕ} (hk : k < 8 * BSIZE)
    (hfree : usedBit bm k = false) (hmin : ∀ j < k, usedBit bm j = true) :
    ∀ n i, i ≤ k / 8 → k / 8 < i + n →
      ext2fsFreeBlockLoop bm n i = .ok (some (k, setUsed bm k)) := by
  intro n
  induction n with
  | zero => intro i h₁ h₂; omega
  | succ n ih =>
    intro i h₁ h₂
    rw [ext2fsFreeBlockLoop, if_neg (by omega)]
    rcases Nat.lt_or_ge i (k / 8) with hi | hi
    · -- every bit of this byte lies below the first free one
      have hnone : freeBitOf (bm.byte i) = none := by
        rcases hf : freeBitOf (bm.byte i) with _ | j
        · rfl
        · obtain ⟨hj, hfalse, -⟩ := freeBitOf_eq_some.mp hf
          rw [hmin (8 * i + j) (by omega)] at hfalse
          cases hfalse
      rw [hnone]
      exact ih (i + 1) (by omega) (by omega)
    · have hik : i = k / 8 := by omega
      subst hik
      have hdiv : 8 * (k / 8) + k % 8 = k := by omega
      have hsome : freeBitOf (bm.byte (k / 8)) = some (k % 8) := by
        refine freeBitOf_eq_some.mpr ⟨by omega, by rw [hdiv]; exact hfree, fun l hl => ?_⟩
        exact hmin _ (by omega)
      rw [hsome]
      simp only [setUsed]
      rw [show k / 8 * 8 + k % 8 = k by omega]

/-- The search from byte `i` on where no bit in reach is free: it ends, or it leaves the
block. -/
theorem ext2fsFreeBlockLoop_none {bm : Block} :
    ∀ n i, (∀ k, 8 * i ≤ k → k < 8 * min (i + n) BSIZE → usedBit bm k = true) →
      ext2fsFreeBlockLoop bm n i =
        if n = 0 ∨ i + n ≤ BSIZE then .ok none else .error .fault := by
  intro n
  induction n with
  | zero => intro i _; rfl
  | succ n ih =>
    intro i h
    rw [ext2fsFreeBlockLoop]
    by_cases hi : BSIZE ≤ i
    · rw [if_pos hi, if_neg (by omega)]
    · rw [if_neg hi]
      rcases hf : freeBitOf (bm.byte i) with _ | j
      · dsimp only
        rw [ih (i + 1) fun k h₁ h₂ => h k (by omega) (by omega)]
        by_cases hend : i + (n + 1) ≤ BSIZE
        · rw [if_pos (by omega), if_pos (by omega)]
        · rw [if_neg (by omega), if_neg (by omega)]
      · obtain ⟨hj, hfalse, -⟩ := freeBitOf_eq_some.mp hf
        rw [h (8 * i + j) (by omega) (by omega)] at hfalse
        cases hfalse

theorem ext2fsFreeBlock_some {sb : Superblock} {bm : Block} {k : ℕ} (h : FirstFree sb bm k) :
    ext2fsFreeBlock sb bm = .ok (some (k, setUsed bm k)) := by
  have hlt := h.1
  unfold scanned at hlt
  exact ext2fsFreeBlockLoop_some h.lt h.2.1 h.2.2 _ 0 (Nat.zero_le _) (by omega)

/-- Without a first free bit every bit in reach is set. -/
theorem usedBit_of_not_firstFree {sb : Superblock} {bm : Block} (h : ¬∃ k, FirstFree sb bm k)
    {k : ℕ} (hk : k < 8 * scanned sb) : usedBit bm k = true := by
  have hzero : freeBits sb bm = 0 := Nat.eq_zero_of_not_pos fun hpos => h (exists_firstFree hpos)
  rw [freeBits, Finset.card_eq_zero, Finset.filter_eq_empty_iff] at hzero
  simpa using hzero (Finset.mem_range.mpr hk)

theorem ext2fsFreeBlock_full {sb : Superblock} {bm : Block} (h : ¬∃ k, FirstFree sb bm k) :
    ext2fsFreeBlock sb bm =
      if (sb.sBlocksPerGroup * 8).toNat ≤ BSIZE then .ok none else .error .fault := by
  unfold ext2fsFreeBlock
  rw [ext2fsFreeBlockLoop_none _ 0 fun k _ hk => ?_, Nat.zero_add]
  · by_cases hle : (sb.sBlocksPerGroup * 8).toNat ≤ BSIZE
    · rw [if_pos (Or.inr hle), if_pos hle]
    · rw [if_neg hle, if_neg (by simp only [BSIZE] at hle ⊢; omega)]
  · rw [Nat.zero_add] at hk
    exact usedBit_of_not_firstFree h hk

theorem ext2fsFreeBlock_none {sb : Superblock} {bm : Block} (h : ¬∃ k, FirstFree sb bm k) :
    ext2fsFreeBlock sb bm = .ok none ∨ ext2fsFreeBlock sb bm = .error .fault := by
  rw [ext2fsFreeBlock_full h]
  split
  · exact Or.inl rfl
  · exact Or.inr rfl

/-! ### The bound of the search -/

/-- What callers expect of the search over the first `s_blocks_per_group` bits of a bitmap: it
stays inside of the bitmap, it returns no index exactly if these bits are all set, and an
index that it returns is that of one of them, which was clear and is the one bit set. -/
def FreeBlockOk (sb : Superblock) (bm : Block) : Prop :=
  ∃ r, ext2fsFreeBlock sb bm = .ok r ∧
    (r = none ↔ ∀ k < sb.sBlocksPerGroup.toNat, usedBit bm k = true) ∧
    ∀ k bm', r = some (k, bm') → k < sb.sBlocksPerGroup.toNat ∧ usedBit bm k = false ∧
      ∀ j, usedBit bm' j = (usedBit bm j || decide (j = k))

/-- **The search takes a number of bits for a number of bytes, eight times over.**  It is right
where one of the bits is clear.  Where they are all set it is right only if the eight times
as many bytes that it looks at lie in the bitmap and have all their bits set. -/
theorem freeBlockOk_iff {sb : Superblock} {bm : Block}
    (hle : sb.sBlocksPerGroup.toNat ≤ 8 * BSIZE) :
    FreeBlockOk sb bm ↔ (∃ k < sb.sBlocksPerGroup.toNat, usedBit bm k = false) ∨
      8 * sb.sBlocksPerGroup.toNat ≤ BSIZE ∧
        ∀ k < 64 * sb.sBlocksPerGroup.toNat, usedBit bm k = true := by
  have hmul : (sb.sBlocksPerGroup * 8).toNat = 8 * sb.sBlocksPerGroup.toNat := by
    rw [UInt32.toNat_mul, show (8 : UInt32).toNat = 8 from rfl]
    simp only [BSIZE] at hle
    omega
  have hscan : scanned sb = min (8 * sb.sBlocksPerGroup.toNat) BSIZE := by rw [scanned, hmul]
  unfold FreeBlockOk
  generalize sb.sBlocksPerGroup.toNat = n at *
  by_cases hex : ∃ k, FirstFree sb bm k
  · obtain ⟨k, hk⟩ := hex
    rw [ext2fsFreeBlock_some hk]
    have hlt := hk.1
    constructor
    · rintro ⟨r, hr, -, hsome⟩
      cases hr
      exact Or.inl ⟨k, (hsome k _ rfl).1, hk.2.1⟩
    · intro hcond
      have hkn : k < n := by
        rcases hcond with ⟨j, hj, hclear⟩ | ⟨-, hall⟩
        · by_contra hge
          rw [hk.2.2 j (by omega)] at hclear
          cases hclear
        · have hset := hall k (by omega)
          rw [hk.2.1] at hset
          cases hset
      refine ⟨_, rfl, ⟨fun hnone => (by cases hnone), fun hall => ?_⟩, ?_⟩
      · have hset := hall k hkn
        rw [hk.2.1] at hset
        cases hset
      · intro k' bm' heq
        cases heq
        exact ⟨hkn, hk.2.1, usedBit_setUsed bm hk.lt⟩
  · have hused : ∀ k, k < 8 * scanned sb → usedBit bm k = true :=
      fun k hk => usedBit_of_not_firstFree hex hk
    rw [ext2fsFreeBlock_full hex, hmul]
    by_cases hin : 8 * n ≤ BSIZE
    · rw [if_pos hin]
      refine ⟨fun _ => Or.inr ⟨hin, fun k hk => hused k (by omega)⟩, fun _ => ⟨none, rfl, ?_, ?_⟩⟩
      · exact ⟨fun _ k hk => hused k (by omega), fun _ => rfl⟩
      · intro k bm' heq
        cases heq
    · rw [if_neg hin]
      -- the search leaves the bitmap, all of whose bits are set
      constructor
      · rintro ⟨r, hr, -⟩
        cases hr
      · rintro (⟨k, hk, hclear⟩ | ⟨hin', -⟩)
        · rw [hused k (by omega)] at hclear
          cases hclear
        · exact absurd hin' hin

/-- A bitmap with a clear bit among the first eight. -/
theorem freeBlockOk_iff_zero : FreeBlockOk ⟨1, 8⟩ Block.zero :=
  (freeBlockOk_iff (by decide)).mpr (Or.inl ⟨0, by decide, by decide⟩)

/-- **A search that goes on**: the first eight bits are set, and it returns the ninth. -/
theorem freeBlock_passes_bound : ¬FreeBlockOk ⟨1, 8⟩ (Block.zero.put 0 1 fun _ => 255) := by
  have hfirst : FirstFree ⟨1, 8⟩ (Block.zero.put 0 1 fun _ => 255) 8 := by
    refine ⟨by decide, by decide, ?_⟩
    decide
  rintro ⟨r, hr, -, hsome⟩
  rw [ext2fsFreeBlock_some hfirst] at hr
  cases hr
  exact absurd (hsome 8 _ rfl).1 (by decide)

/-! ### The functions on the block store -/

section Store

variable {s : Fs Store} {dev : UInt32}

/-- The block bitmap of the image. -/
def Fs.blockBitmap (s : Fs Store) : Block := s.blk.content s.gdesc.blockBitmap

theorem bzero_ok {b : UInt32} (h : b ∉ s.blk.held) :
    bzero dev b s = .ok ((), s.write b Block.zero) := by
  unfold bzero
  rw [Prog.bind_of_ok (bread_ok h), Prog.bind_of_ok (bstore_apply _),
    Prog.bind_of_ok (bwrite_ok (by simp)), brelse_ok (by simp), Fs.release_write_hold]

/-- Running `balloc` up to the search. -/
theorem balloc_search (h2 : 2 ∉ s.blk.held) (hbb : s.gdesc.blockBitmap ∉ s.blk.held) :
    balloc dev s =
      (FsM.ofExcept (ext2fsFreeBlock s.sb s.blockBitmap) >>= fun r =>
        match r with
        | some (fbit, bitmap') => do
          bstore s.gdesc.blockBitmap bitmap'
          bwrite s.gdesc.blockBitmap
          bzero dev (s.gdesc.blockBitmap + UInt32.ofNat fbit)
          brelse s.gdesc.blockBitmap
          return s.gdesc.blockBitmap + UInt32.ofNat fbit
        | none => do
          brelse s.gdesc.blockBitmap
          panic "ext2_balloc: out of blocks\n") (s.hold s.gdesc.blockBitmap) := by
  unfold balloc
  rw [Prog.bind_of_ok (readGroupDesc_ok h2), Prog.bind_of_ok (bread_ok hbb),
    Prog.bind_of_ok bdata_apply, Prog.bind_of_ok (Prog.get_apply _)]
  rfl

/-- **`balloc` with a block left**: it takes the first free one, marks it in the
bitmap and zeroes it. -/
theorem balloc_ok {k : ℕ} (h2 : 2 ∉ s.blk.held) (hbb : s.gdesc.blockBitmap ∉ s.blk.held)
    (hk : FirstFree s.sb s.blockBitmap k)
    (hz : s.gdesc.blockBitmap + UInt32.ofNat k ∉ s.gdesc.blockBitmap :: s.blk.held) :
    balloc dev s = .ok (s.gdesc.blockBitmap + UInt32.ofNat k,
      (s.write s.gdesc.blockBitmap (setUsed s.blockBitmap k)).write
        (s.gdesc.blockBitmap + UInt32.ofNat k) Block.zero) := by
  rw [balloc_search h2 hbb, ext2fsFreeBlock_some hk]
  generalize s.gdesc.blockBitmap = bb at *
  generalize hzk : bb + UInt32.ofNat k = z at *
  rw [Prog.bind_of_ok (a := some (k, setUsed s.blockBitmap k)) (t := s.hold bb) rfl]
  dsimp only
  rw [hzk, Prog.bind_of_ok (bstore_apply _), Prog.bind_of_ok (bwrite_ok (by simp)),
    Prog.bind_of_ok (bzero_ok (by simpa using hz)), Prog.bind_of_ok (brelse_ok (by simp))]
  simp [Fs.write, Fs.hold, Fs.release, Store.write, Store.hold, Store.release]

/-- When the first free bit is the bitmap's own, `bzero` waits for the buffer
that `balloc` holds. -/
theorem balloc_deadlock {k : ℕ} (h2 : 2 ∉ s.blk.held) (hbb : s.gdesc.blockBitmap ∉ s.blk.held)
    (hk : FirstFree s.sb s.blockBitmap k)
    (hz : s.gdesc.blockBitmap + UInt32.ofNat k ∈ s.gdesc.blockBitmap :: s.blk.held) :
    balloc dev s = .error .deadlock := by
  rw [balloc_search h2 hbb, ext2fsFreeBlock_some hk]
  generalize s.gdesc.blockBitmap = bb at *
  generalize hzk : bb + UInt32.ofNat k = z at *
  rw [Prog.bind_of_ok (a := some (k, setUsed s.blockBitmap k)) (t := s.hold bb) rfl]
  dsimp only
  rw [hzk, Prog.bind_of_ok (bstore_apply _), Prog.bind_of_ok (bwrite_ok (by simp))]
  refine Prog.bind_of_error ?_
  unfold bzero
  exact Prog.bind_of_error (bread_deadlock (by simpa using hz))

/-- `balloc` without a block left does not return. -/
theorem balloc_error (h2 : 2 ∉ s.blk.held) (hbb : s.gdesc.blockBitmap ∉ s.blk.held)
    (h : ¬∃ k, FirstFree s.sb s.blockBitmap k) : ∃ e, balloc dev s = .error e := by
  rw [balloc_search h2 hbb]
  rcases ext2fsFreeBlock_none h with hn | hf
  · refine ⟨.panic "ext2_balloc: out of blocks\n", ?_⟩
    rw [hn, Prog.bind_of_ok (a := none) (t := s.hold s.gdesc.blockBitmap) rfl]
    dsimp only
    rw [Prog.bind_of_ok (brelse_ok (by simp))]
    rfl
  · exact ⟨.fault, by rw [hf]; rfl⟩

/-- The index of a block in the bitmap, as `bfree` computes it. -/
def Fs.bitIndex (s : Fs Store) (b : UInt32) : ℕ := (b - s.gdesc.blockBitmap).toNat

/-- Running `bfree` up to its test. -/
theorem bfree_test {b : UInt32} (h2 : 2 ∉ s.blk.held)
    (hbb : s.gdesc.blockBitmap ∉ 2 :: s.blk.held) :
    bfree dev b s =
      (if BSIZE ≤ s.bitIndex b / 8 then throw .fault
        else if s.blockBitmap.byte (s.bitIndex b / 8) &&& bitMask (s.bitIndex b % 8) = 0 then
          panic "ext2fs_bfree: block already free\n"
        else do
          bstore s.gdesc.blockBitmap (clearBit s.blockBitmap (s.bitIndex b))
          bwrite s.gdesc.blockBitmap
          brelse s.gdesc.blockBitmap
          brelse 2 : FsM Store Unit) ((s.hold 2).hold s.gdesc.blockBitmap) := by
  unfold bfree
  rw [Prog.bind_of_ok (bread_ok h2), Prog.bind_of_ok bdata_apply]
  show (bread dev s.gdesc.blockBitmap >>= _) _ = _
  rw [Prog.bind_of_ok (bread_ok (by simpa using hbb)), Prog.bind_of_ok bdata_apply]
  rfl

/-- `bfree` of a block whose mirrored block is marked used. -/
theorem bfree_ok {b : UInt32} (h2 : 2 ∉ s.blk.held)
    (hbb : s.gdesc.blockBitmap ∉ 2 :: s.blk.held) (hb : s.bitIndex b < 8 * BSIZE)
    (hused : usedBit s.blockBitmap (mirror (s.bitIndex b)) = true) :
    bfree dev b s =
      .ok ((), s.write s.gdesc.blockBitmap (clearBit s.blockBitmap (s.bitIndex b))) := by
  have hbit : ¬(s.blockBitmap.byte (s.bitIndex b / 8) &&& bitMask (s.bitIndex b % 8) = 0) := by
    rw [and_bitMask_eq_zero (by omega), ← usedBit_mirror, hused]
    simp
  rw [bfree_test h2 hbb, if_neg (by omega), if_neg hbit]
  simp only [List.mem_cons, not_or] at hbb
  generalize clearBit s.blockBitmap (s.bitIndex b) = bm
  generalize s.gdesc.blockBitmap = bb at *
  rw [Prog.bind_of_ok (bstore_apply _), Prog.bind_of_ok (bwrite_ok (by simp)),
    Prog.bind_of_ok (brelse_ok (by simp)), brelse_ok (by simp)]
  simp [Fs.write, Fs.hold, Fs.release, Store.write, Store.hold, Store.release]

/-- `bfree` of a block whose mirrored block is not marked used. -/
theorem bfree_panic {b : UInt32} (h2 : 2 ∉ s.blk.held)
    (hbb : s.gdesc.blockBitmap ∉ 2 :: s.blk.held) (hb : s.bitIndex b < 8 * BSIZE)
    (hfree : usedBit s.blockBitmap (mirror (s.bitIndex b)) = false) :
    bfree dev b s = .error (.panic "ext2fs_bfree: block already free\n") := by
  have hbit : s.blockBitmap.byte (s.bitIndex b / 8) &&& bitMask (s.bitIndex b % 8) = 0 := by
    rw [and_bitMask_eq_zero (by omega), ← usedBit_mirror, hfree]
  rw [bfree_test h2 hbb, if_neg (by omega), if_pos hbit]
  rfl

end Store

/-! ### Runs of the allocator -/

section Runs

variable {dev : UInt32}

/-- The blocks the bitmap stands for, in `balloc`'s numbering, do not include the
group descriptor. -/
def Fs.DescApart (s : Fs Store) : Prop := 8 * BSIZE ≤ s.bitIndex 2

/-- Runs of the allocator from `s₀`, with the blocks returned by `balloc` and not
freed since.  A `bfree` step is taken only where `guard` allows it. -/
inductive AllocRun (dev : UInt32) (guard : Fs Store → List UInt32 → UInt32 → Prop)
    (s₀ : Fs Store) : Fs Store → List UInt32 → Prop
  | start : AllocRun dev guard s₀ s₀ []
  | balloc {s s' : Fs Store} {H : List UInt32} {b : UInt32} :
      AllocRun dev guard s₀ s H → balloc dev s = .ok (b, s') →
      AllocRun dev guard s₀ s' (b :: H)
  | bfree {s s' : Fs Store} {H : List UInt32} {b : UInt32} :
      AllocRun dev guard s₀ s H → b ∈ H → guard s H b → bfree dev b s = .ok ((), s') →
      AllocRun dev guard s₀ s' (H.erase b)

/-- `balloc` returns no block that is still held. -/
def BallocFresh (dev : UInt32) (s : Fs Store) (H : List UInt32) : Prop :=
  ∀ b s', balloc dev s = .ok (b, s') → b ∉ H

/-- `bfree` of a block reaches its panic. -/
def BfreePanics (dev : UInt32) (s : Fs Store) (b : UInt32) : Prop :=
  bfree dev b s = .error (.panic "ext2fs_bfree: block already free\n")

/-- `balloc` followed by `bfree` of the returned block restores the bitmap. -/
def BfreeRestores (dev : UInt32) (s : Fs Store) : Prop :=
  ∀ b s', balloc dev s = .ok (b, s') →
    ∃ s'', bfree dev b s' = .ok ((), s'') ∧ s''.blockBitmap = s.blockBitmap

/-- The block that stands at the bit `bfree` uses for `b` is marked used. -/
def Fs.MirrorUsed (s : Fs Store) (b : UInt32) : Prop :=
  usedBit s.blockBitmap (mirror (s.bitIndex b)) = true

/-- The mirrored block of `b` is marked used, by something other than a block
that is held. -/
def MirrorSpare (s : Fs Store) (H : List UInt32) (b : UInt32) : Prop :=
  s.MirrorUsed b ∧ s.gdesc.blockBitmap + UInt32.ofNat (mirror (s.bitIndex b)) ∉ H

/-- There is a block for `balloc` to return: the first free bit is not the
bitmap's own. -/
def Fs.Allocatable (s : Fs Store) : Prop := ∃ k, k ≠ 0 ∧ FirstFree s.sb s.blockBitmap k

/-- What a run keeps: no buffer is held, the descriptor is out of reach, and the
blocks held are marked used. -/
structure AllocInv (s : Fs Store) (H : List UInt32) : Prop where
  held : s.blk.held = []
  desc : s.DescApart
  lt : ∀ b ∈ H, s.bitIndex b < 8 * BSIZE
  used : ∀ b ∈ H, usedBit s.blockBitmap (s.bitIndex b) = true

theorem bitIndex_add {s : Fs Store} {k : ℕ} (hk : k < 8 * BSIZE) :
    s.bitIndex (s.gdesc.blockBitmap + UInt32.ofNat k) = k := by
  unfold Fs.bitIndex
  rw [UInt32.add_comm, UInt32.add_sub_cancel, UInt32.toNat_ofNat']
  exact Nat.mod_eq_of_lt (by simp only [BSIZE] at hk; omega)

theorem add_bitIndex {s : Fs Store} (b : UInt32) :
    s.gdesc.blockBitmap + UInt32.ofNat (s.bitIndex b) = b := by
  unfold Fs.bitIndex
  rw [UInt32.ofNat_toNat, UInt32.add_comm, UInt32.sub_add_cancel]

theorem bitIndex_of_gdesc {s s' : Fs Store} (h : s'.gdesc = s.gdesc) (b : UInt32) :
    s'.bitIndex b = s.bitIndex b := by
  unfold Fs.bitIndex
  rw [h]

theorem blockBitmap_of_gdesc {s s' : Fs Store} (h : s'.gdesc = s.gdesc) :
    s'.blockBitmap = s'.blk.content s.gdesc.blockBitmap := by
  unfold Fs.blockBitmap
  rw [h]

/-- A write that leaves the descriptor block alone leaves the descriptor alone. -/
theorem gdesc_write {s : Fs Store} {b : UInt32} (hb : b ≠ 2) (d : Block) :
    (s.write b d).gdesc = s.gdesc := by
  unfold Fs.gdesc
  rw [Fs.content_write, Function.update_of_ne (Ne.symm hb)]

namespace AllocInv

variable {s s' : Fs Store} {H : List UInt32} {b : UInt32}

/-- Nothing is held at the start of a run. -/
theorem start (hdesc : s.DescApart) (hheld : s.blk.held = []) : AllocInv s [] := by
  refine ⟨hheld, hdesc, ?_, ?_⟩ <;> intro b hb <;> exact absurd hb List.not_mem_nil

theorem not_mem (h : AllocInv s H) (b : UInt32) : b ∉ s.blk.held := by
  rw [h.held]
  exact List.not_mem_nil

theorem blockBitmap_ne (h : AllocInv s H) : s.gdesc.blockBitmap ∉ 2 :: s.blk.held := by
  rw [h.held, List.mem_singleton]
  intro heq
  have hd := h.desc
  unfold Fs.DescApart Fs.bitIndex at hd
  rw [heq, UInt32.sub_self] at hd
  simp [BSIZE] at hd

/-- A block the bitmap stands for is not the descriptor. -/
theorem ne_two (h : AllocInv s H) {k : ℕ} (hk : k < 8 * BSIZE) :
    s.gdesc.blockBitmap + UInt32.ofNat k ≠ 2 := by
  intro heq
  have hd := h.desc
  unfold Fs.DescApart at hd
  rw [← heq, bitIndex_add hk] at hd
  omega

/-- **What `balloc` does from a state of a run.** -/
theorem balloc_eq (h : AllocInv s H) (hb : balloc dev s = .ok (b, s')) :
    ∃ k, k ≠ 0 ∧ FirstFree s.sb s.blockBitmap k ∧ b = s.gdesc.blockBitmap + UInt32.ofNat k ∧
      s'.gdesc = s.gdesc ∧ s'.blk.held = [] ∧ s'.blockBitmap = setUsed s.blockBitmap k := by
  by_cases hex : ∃ k, FirstFree s.sb s.blockBitmap k
  · obtain ⟨k, hk⟩ := hex
    by_cases hz : s.gdesc.blockBitmap + UInt32.ofNat k ∈ s.gdesc.blockBitmap :: s.blk.held
    · rw [balloc_deadlock (h.not_mem _) (h.not_mem _) hk hz] at hb
      cases hb
    · rw [balloc_ok (h.not_mem _) (h.not_mem _) hk hz] at hb
      cases hb
      have hz' : s.gdesc.blockBitmap + UInt32.ofNat k ≠ s.gdesc.blockBitmap := by
        intro heq
        rw [heq] at hz
        exact hz List.mem_cons_self
      have hg : ((s.write s.gdesc.blockBitmap (setUsed s.blockBitmap k)).write
          (s.gdesc.blockBitmap + UInt32.ofNat k) Block.zero).gdesc = s.gdesc := by
        have hbb := h.blockBitmap_ne
        simp only [List.mem_cons, not_or] at hbb
        rw [gdesc_write (h.ne_two hk.lt), gdesc_write hbb.1]
      refine ⟨k, ?_, hk, rfl, hg, ?_, ?_⟩
      · intro h0
        rw [h0] at hz'
        simp at hz'
      · rw [Fs.held_write, Fs.held_write, h.held]
      · rw [blockBitmap_of_gdesc hg, Fs.content_write, Function.update_of_ne (Ne.symm hz'),
          Fs.content_write, Function.update_self]
  · have herr : ∃ e, balloc dev s = .error e := balloc_error (h.not_mem _) (h.not_mem _) hex
    obtain ⟨e, he⟩ := herr
    rw [he] at hb
    cases hb

/-- Where a block can be taken, `balloc` returns. -/
theorem balloc_returns (h : AllocInv s H) (dev : UInt32) (ha : s.Allocatable) :
    ∃ b s', balloc dev s = .ok (b, s') := by
  obtain ⟨k, hk0, hk⟩ := ha
  refine ⟨_, _, balloc_ok (h.not_mem _) (h.not_mem _) hk ?_⟩
  rw [h.held, List.mem_singleton]
  intro heq
  have hidx := bitIndex_add (s := s) hk.lt
  rw [heq] at hidx
  unfold Fs.bitIndex at hidx
  rw [UInt32.sub_self] at hidx
  exact hk0 hidx.symm

/-- The step lemma for `balloc`. -/
theorem step_balloc (h : AllocInv s H) (hb : balloc dev s = .ok (b, s')) :
    AllocInv s' (b :: H) := by
  obtain ⟨k, -, hk, rfl, hg, hheld, hbm⟩ := h.balloc_eq hb
  have hidx := bitIndex_of_gdesc hg
  refine ⟨hheld, ?_, ?_, ?_⟩
  · unfold Fs.DescApart
    rw [hidx]
    exact h.desc
  · intro b' hb'
    rw [hidx]
    rcases List.mem_cons.mp hb' with rfl | hb'
    · rw [bitIndex_add hk.lt]
      exact hk.lt
    · exact h.lt b' hb'
  · intro b' hb'
    rw [hidx, hbm, usedBit_setUsed _ hk.lt]
    rcases List.mem_cons.mp hb' with rfl | hb'
    · rw [bitIndex_add hk.lt]
      simp
    · rw [h.used b' hb']
      rfl

/-- `bfree` of a held block panics exactly when its mirrored block is free. -/
theorem bfreePanics_iff (h : AllocInv s H) (hb : b ∈ H) :
    BfreePanics dev s b ↔ ¬s.MirrorUsed b := by
  unfold BfreePanics Fs.MirrorUsed
  rcases hm : usedBit s.blockBitmap (mirror (s.bitIndex b)) with _ | _
  · rw [bfree_panic (h.not_mem _) h.blockBitmap_ne (h.lt b hb) hm]
    simp
  · rw [bfree_ok (h.not_mem _) h.blockBitmap_ne (h.lt b hb) hm]
    simp

/-- The step lemma for a `bfree` that finds its mirrored block in use and not
held: what it clears is no held block's bit. -/
theorem step_bfree (h : AllocInv s H) (hb : b ∈ H) (hg : MirrorSpare s H b)
    (hf : bfree dev b s = .ok ((), s')) : AllocInv s' (H.erase b) := by
  have hlt := h.lt b hb
  rw [bfree_ok (h.not_mem _) h.blockBitmap_ne hlt hg.1] at hf
  cases hf
  have hbb := h.blockBitmap_ne
  simp only [List.mem_cons, not_or] at hbb
  have hgd := gdesc_write (s := s) hbb.1 (clearBit s.blockBitmap (s.bitIndex b))
  have hidx := bitIndex_of_gdesc hgd
  refine ⟨h.held, ?_, ?_, ?_⟩
  · unfold Fs.DescApart
    rw [hidx]
    exact h.desc
  · intro b' hb'
    rw [hidx]
    exact h.lt b' (List.mem_of_mem_erase hb')
  · intro b' hb'
    have hb'H := List.mem_of_mem_erase hb'
    have hne : s.bitIndex b' ≠ mirror (s.bitIndex b) := by
      intro heq
      refine hg.2 ?_
      rw [← heq, add_bitIndex]
      exact hb'H
    rw [hidx, blockBitmap_of_gdesc hgd, Fs.content_write, Function.update_self,
      usedBit_clearBit _ hlt, h.used b' hb'H]
    simp [hne]

/-- A block that `balloc` has just returned cannot be given back: `bfree` panics,
or it clears the bit of another block. -/
theorem not_restores (h : AllocInv s H) (hb : balloc dev s = .ok (b, s')) :
    ¬∃ s'', bfree dev b s' = .ok ((), s'') ∧ s''.blockBitmap = s.blockBitmap := by
  rintro ⟨s'', hf, hrest⟩
  have h' := h.step_balloc hb
  obtain ⟨k, -, hk, rfl, hg, -, hbm⟩ := h.balloc_eq hb
  have hidx : s'.bitIndex (s.gdesc.blockBitmap + UInt32.ofNat k) = k := by
    rw [← hg]
    exact bitIndex_add hk.lt
  have hlt : s'.bitIndex (s.gdesc.blockBitmap + UInt32.ofNat k) < 8 * BSIZE :=
    h'.lt _ List.mem_cons_self
  rcases hm : usedBit s'.blockBitmap (mirror k) with _ | _
  · rw [bfree_panic (h'.not_mem _) h'.blockBitmap_ne hlt (by rw [hidx]; exact hm)] at hf
    cases hf
  · rw [bfree_ok (h'.not_mem _) h'.blockBitmap_ne hlt (by rw [hidx]; exact hm)] at hf
    cases hf
    have hbb := h'.blockBitmap_ne
    simp only [List.mem_cons, not_or] at hbb
    -- the bit of `k` was clear before `balloc` and is still set now
    have hset : usedBit (clearBit s'.blockBitmap k) k = true := by
      rw [usedBit_clearBit _ hk.lt, hbm, usedBit_setUsed _ hk.lt]
      simp [Ne.symm (mirror_ne k)]
    rw [blockBitmap_of_gdesc (gdesc_write hbb.1 _), Fs.content_write, Function.update_self,
      hidx] at hrest
    rw [hrest, hk.2.1] at hset
    cases hset

end AllocInv

/-- The run lemma: the invariant holds in every run whose `bfree` steps find the
mirrored block in use and not held. -/
theorem AllocRun.inv {s₀ s : Fs Store} {H : List UInt32} (hdesc : s₀.DescApart)
    (hheld : s₀.blk.held = []) (hrun : AllocRun dev MirrorSpare s₀ s H) : AllocInv s H := by
  induction hrun with
  | start => exact AllocInv.start hdesc hheld
  | balloc _ hb ih => exact ih.step_balloc hb
  | bfree _ hmem hg hf ih => exact ih.step_bfree hmem hg hf

/-- **Runs of the allocator.**  In every run whose `bfree` steps find the mirrored
block in use and not held, `balloc` returns no block that is held, and `bfree` of
a held block panics exactly when its mirrored block is free.  Freeing the block
just returned restores the bitmap only where `balloc` has no block to return. -/
theorem allocRun_spec {s₀ s : Fs Store} {H : List UInt32} (hdesc : s₀.DescApart)
    (hheld : s₀.blk.held = []) (hrun : AllocRun dev MirrorSpare s₀ s H) :
    BallocFresh dev s H ∧ (∀ b ∈ H, BfreePanics dev s b ↔ ¬s.MirrorUsed b) ∧
      (BfreeRestores dev s ↔ ¬s.Allocatable) := by
  have hinv := hrun.inv hdesc hheld
  refine ⟨?_, fun b hb => hinv.bfreePanics_iff hb, ?_, ?_⟩
  · intro b s' hb hmem
    obtain ⟨k, -, hk, rfl, -⟩ := hinv.balloc_eq hb
    have := hinv.used _ hmem
    rw [bitIndex_add hk.lt, hk.2.1] at this
    cases this
  · intro hrest ha
    obtain ⟨b, s', hb⟩ := hinv.balloc_returns dev ha
    exact hinv.not_restores hb (hrest b s' hb)
  · intro hna b s' hb
    obtain ⟨k, hk0, hk, -⟩ := hinv.balloc_eq hb
    exact absurd ⟨k, hk0, hk⟩ hna

/-- An image with 2048 blocks in its group, the block bitmap in block 3, the inode
bitmap in block 4 and the inode table from block 5 on. -/
def imageOf (blocks : List (UInt32 × Block)) : Fs Store where
  sb := ⟨1, 2048⟩
  itable := fun _ => Inode.unused
  blk := Store.ofBlocks ((2, GroupDesc.encode ⟨3, 4, 5⟩) :: blocks)
  junk := []

/-- The image whose block bitmap has only the bitmap's own bit set. -/
def bitmapOnlyImage : Fs Store := imageOf [(3, setUsed Block.zero 0)]

theorem firstFree_bitmapOnlyImage :
    FirstFree bitmapOnlyImage.sb bitmapOnlyImage.blockBitmap 1 := by
  refine ⟨by decide, by decide, fun j hj => ?_⟩
  have : j = 0 := by omega
  subst this
  decide

/-- The image whose block bitmap has its own bit set and that of block 9, which
is the mirrored block of block 4. -/
def mirrorImage : Fs Store := imageOf [(3, setUsed (setUsed Block.zero 0) 6)]

theorem firstFree_mirrorImage : FirstFree mirrorImage.sb mirrorImage.blockBitmap 1 := by
  refine ⟨by decide, by decide, fun j hj => ?_⟩
  have : j = 0 := by omega
  subst this
  decide

/-- In a run that has taken block 4 from `mirrorImage`, the block may be freed,
and the bitmap is not what it was. -/
theorem allocRun_spec_mirrorImage : ∃ s b, AllocRun 1 MirrorSpare mirrorImage s [b] ∧
    MirrorSpare s [b] b ∧ BallocFresh 1 s [b] ∧
      (∀ b' ∈ [b], BfreePanics 1 s b' ↔ ¬s.MirrorUsed b') ∧
      (BfreeRestores 1 s ↔ ¬s.Allocatable) := by
  have hdesc : mirrorImage.DescApart := by unfold Fs.DescApart; decide
  have hinv : AllocInv mirrorImage [] := AllocInv.start hdesc rfl
  obtain ⟨b, s, hb⟩ := hinv.balloc_returns 1 ⟨1, by decide, firstFree_mirrorImage⟩
  have hrun : AllocRun 1 MirrorSpare mirrorImage s [b] := AllocRun.balloc AllocRun.start hb
  obtain ⟨k, -, hk, rfl, hg, -, hbm⟩ := hinv.balloc_eq hb
  have hk1 : k = 1 := hk.eq firstFree_mirrorImage
  subst hk1
  refine ⟨s, _, hrun, ⟨?_, ?_⟩, allocRun_spec hdesc rfl hrun⟩
  · unfold Fs.MirrorUsed
    rw [hbm, bitIndex_of_gdesc hg]
    decide
  · rw [hg, bitIndex_of_gdesc hg]
    decide

/-- **A run that ends in the panic of `bfree`**: block 4 is the first one that
`balloc` returns, and it cannot be given back. -/
theorem allocRun_unsafe :
    ¬∀ s H, AllocRun 1 (fun _ _ _ => True) bitmapOnlyImage s H →
      BallocFresh 1 s H ∧ (∀ b ∈ H, ¬BfreePanics 1 s b) ∧ BfreeRestores 1 s := by
  intro h
  have hinv : AllocInv bitmapOnlyImage [] :=
    AllocInv.start (by unfold Fs.DescApart; decide) rfl
  obtain ⟨b, s', hb⟩ := hinv.balloc_returns 1 ⟨1, by decide, firstFree_bitmapOnlyImage⟩
  have hinv' := hinv.step_balloc hb
  obtain ⟨k, -, hk, rfl, hg, -, hbm⟩ := hinv.balloc_eq hb
  have hk1 : k = 1 := hk.eq firstFree_bitmapOnlyImage
  subst hk1
  refine (h s' _ (AllocRun.balloc AllocRun.start hb)).2.1 _ List.mem_cons_self ?_
  rw [hinv'.bfreePanics_iff List.mem_cons_self]
  unfold Fs.MirrorUsed
  rw [hbm, bitIndex_of_gdesc hg]
  decide

end Runs

end Xv6Ext2
