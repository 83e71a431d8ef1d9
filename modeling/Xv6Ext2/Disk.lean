import Mathlib.Tactic.IntervalCases
import Xv6Ext2.Lib.Bytes

/-!
# Disk blocks and the on-disk records

The on-disk format of `kernel/fs.h`: blocks of `BSIZE` bytes, the group
descriptor of block 2, and the inode records of the inode table.

The kernel's `struct ext2_dinode` has 116 bytes of fields and no padding, while
the records of the table are `INODESIZE = 128` bytes apart.  Both numbers occur
in the code, so both are kept.

## Main definitions

* `Block` — the `BSIZE` bytes of a block; `Block.byte`, `Block.word` read it and
  `Block.put`, `Block.setWord` write part of it, as `memmove` and `a[i] = …` do.
* `GroupDesc.decode` — the group descriptor at the start of a block.
* `Ext2Dinode`, `Ext2Dinode.decode`, `Ext2Dinode.encode` — inode records.

## Main results

* `Ext2Dinode.decode_encode` — a stored record reads back.
* `Block.word_setWord` — storing a word changes that word and no other.
-/

namespace Xv6Ext2

open Bytes

/-! ### Constants of `fs.h`, `param.h` and `stat.h` -/

/-- Block size. -/
abbrev BSIZE : ℕ := 1024

/-- Distance between the records of the inode table. -/
abbrev INODESIZE : ℕ := 128

/-- `sizeof(struct ext2_dinode)`. -/
abbrev sizeofDinode : ℕ := 116

/-- `sizeof(uint *)` on the 64-bit machine the kernel is built for. -/
abbrev sizeofPtr : ℕ := 8

/-- `EXT2_NDIRECT` -/
abbrev NDIRECT : ℕ := 12

/-- `EXT2_NINDIRECT`: block numbers per index block. -/
abbrev NINDIRECT : ℕ := 256

/-- `EXT2_NDINDIRECT` -/
abbrev NDINDIRECT : ℕ := 65536

/-- `EXT2_NTINDIRECT` -/
abbrev NTINDIRECT : ℕ := 16777216

/-- `MAXFILE`, in blocks: the direct and singly indirect ones only. -/
abbrev MAXFILE : ℕ := 268

/-- Size of the inode table in memory. -/
abbrev NINODE : ℕ := 50

-- entries of the inode table, and of `addrs`, are written as numerals
instance (priority := 2000) neZero_NINODE : NeZero NINODE := ⟨by decide⟩

instance (priority := 2000) neZero_addrs : NeZero 15 := ⟨by decide⟩

/-- `EXT2_T_DIR` -/
abbrev ext2TDir : UInt16 := 0x4000

/-- `EXT2_T_FILE` -/
abbrev ext2TFile : UInt16 := 0x8000

/-- `EXT2_FILE_MODE_MASK`, used by `GET_FILE_MODE`. -/
abbrev ext2FileModeMask : UInt16 := 0xF000

/-- The conversion of a `uint` to an `int`. -/
def cInt (x : UInt32) : ℤ := if x.toNat < 2 ^ 31 then x.toNat else x.toNat - 2 ^ 32

/-! ### Blocks -/

/-- The bytes of a disk block. -/
def Block : Type := Fin BSIZE → UInt8

namespace Block

/-- Byte `i` of a block. -/
def byte (b : Block) (i : ℕ) : UInt8 := if h : i < BSIZE then b ⟨i, h⟩ else 0

/-- The block of zero bytes. -/
def zero : Block := fun _ => 0

/-- `memmove(b + o, f, n)`: the block with `n` bytes of `f` stored from offset `o`. -/
def put (b : Block) (o n : ℕ) (f : ℕ → UInt8) : Block := fun i =>
  if o ≤ i.val ∧ i.val < o + n then f (i.val - o) else b i

/-- `((uint *)b)[i]` -/
def word (b : Block) (i : ℕ) : UInt32 := le32 b.byte (4 * i)

/-- `((uint *)b)[i] = w` -/
def setWord (b : Block) (i : ℕ) (w : UInt32) : Block := b.put (4 * i) 4 (byteOf w.toNat)

theorem byte_eq (b : Block) {i : ℕ} (h : i < BSIZE) : b.byte i = b ⟨i, h⟩ := dif_pos h

/-- Blocks with the same bytes are equal. -/
theorem ext {b c : Block} (h : ∀ i < BSIZE, b.byte i = c.byte i) : b = c := by
  funext i
  have := h i.val i.isLt
  rwa [byte_eq _ i.isLt, byte_eq _ i.isLt] at this

@[simp] theorem byte_zero (i : ℕ) : zero.byte i = 0 := by
  unfold byte zero
  split <;> rfl

theorem byte_put (b : Block) {o n : ℕ} (f : ℕ → UInt8) (hon : o + n ≤ BSIZE) (i : ℕ) :
    (b.put o n f).byte i = if o ≤ i ∧ i < o + n then f (i - o) else b.byte i := by
  unfold byte put
  by_cases h : i < BSIZE
  · simp only [h, dif_pos]
  · have : ¬(o ≤ i ∧ i < o + n) := by omega
    simp only [h, dif_neg, not_false_eq_true, this, if_false]

@[simp] theorem word_zero (i : ℕ) : zero.word i = 0 := le32_zero fun _ _ => byte_zero _

theorem word_setWord (b : Block) {i : ℕ} (w : UInt32) (hi : i < NINDIRECT) (j : ℕ) :
    (b.setWord i w).word j = if j = i then w else b.word j := by
  have hbyte := byte_put b (o := 4 * i) (n := 4) (byteOf w.toNat)
    (by simp only [BSIZE, NINDIRECT] at *; omega)
  split
  · next h =>
    subst h
    refine le32_eq fun k hk => ?_
    rw [setWord, hbyte, if_pos ⟨by omega, by omega⟩, Nat.add_sub_cancel_left]
  · next h =>
    refine le32_congr fun k hk => ?_
    rw [setWord, hbyte, if_neg (by omega)]

end Block

/-! ### The group descriptor -/

/-- The fields of `struct group_desc` that the kernel uses. -/
structure GroupDesc where
  blockBitmap : UInt32
  inodeBitmap : UInt32
  inodeTable : UInt32
  deriving DecidableEq, Repr

/-- The descriptor at the start of a block. -/
def GroupDesc.decode (b : Block) : GroupDesc where
  blockBitmap := le32 b.byte 0
  inodeBitmap := le32 b.byte 4
  inodeTable := le32 b.byte 8

/-- A block that starts with the given descriptor. -/
def GroupDesc.encode (g : GroupDesc) : Block :=
  ((Block.zero.setWord 0 g.blockBitmap).setWord 1 g.inodeBitmap).setWord 2 g.inodeTable

/-- The fields of `struct ext2_superblock` that matter here: the block that bit 0
of the block bitmap stands for in ext2, and the bound of the free-bit search. -/
structure Superblock where
  sFirstDataBlock : UInt32
  sBlocksPerGroup : UInt32
  deriving DecidableEq, Repr

/-! ### Inode records -/

/-- `struct ext2_dinode`, in the order of its fields. -/
structure Ext2Dinode where
  iMode : UInt16
  iUid : UInt16
  iSize : UInt32
  iAtime : UInt32
  iCtime : UInt32
  iMtime : UInt32
  iDtime : UInt32
  iGid : UInt16
  iLinksCount : UInt16
  iBlocks : UInt32
  iFlags : UInt32
  iOsd1 : UInt32
  iBlock : Fin 15 → UInt32
  iGeneration : UInt32
  iFileAcl : UInt32
  iDirAcl : UInt32
  iFaddr : UInt32

namespace Ext2Dinode

/-- The record whose bytes are those of the memory `f`. -/
def decode (f : ℕ → UInt8) : Ext2Dinode where
  iMode := le16 f 0
  iUid := le16 f 2
  iSize := le32 f 4
  iAtime := le32 f 8
  iCtime := le32 f 12
  iMtime := le32 f 16
  iDtime := le32 f 20
  iGid := le16 f 24
  iLinksCount := le16 f 26
  iBlocks := le32 f 28
  iFlags := le32 f 32
  iOsd1 := le32 f 36
  iBlock := fun k => le32 f (40 + 4 * k)
  iGeneration := le32 f 100
  iFileAcl := le32 f 104
  iDirAcl := le32 f 108
  iFaddr := le32 f 112

/-- The `sizeofDinode` bytes of a record. -/
def encode (d : Ext2Dinode) (i : ℕ) : UInt8 :=
  if i < 2 then byteOf d.iMode.toNat i
  else if i < 4 then byteOf d.iUid.toNat (i - 2)
  else if i < 8 then byteOf d.iSize.toNat (i - 4)
  else if i < 12 then byteOf d.iAtime.toNat (i - 8)
  else if i < 16 then byteOf d.iCtime.toNat (i - 12)
  else if i < 20 then byteOf d.iMtime.toNat (i - 16)
  else if i < 24 then byteOf d.iDtime.toNat (i - 20)
  else if i < 26 then byteOf d.iGid.toNat (i - 24)
  else if i < 28 then byteOf d.iLinksCount.toNat (i - 26)
  else if i < 32 then byteOf d.iBlocks.toNat (i - 28)
  else if i < 36 then byteOf d.iFlags.toNat (i - 32)
  else if i < 40 then byteOf d.iOsd1.toNat (i - 36)
  else if i < 100 then byteOf (d.iBlock (Fin.ofNat 15 ((i - 40) / 4))).toNat ((i - 40) % 4)
  else if i < 104 then byteOf d.iGeneration.toNat (i - 100)
  else if i < 108 then byteOf d.iFileAcl.toNat (i - 104)
  else if i < 112 then byteOf d.iDirAcl.toNat (i - 108)
  else byteOf d.iFaddr.toNat (i - 112)

/-- The record of zero bytes that `memset` leaves. -/
def zero : Ext2Dinode where
  iMode := 0
  iUid := 0
  iSize := 0
  iAtime := 0
  iCtime := 0
  iMtime := 0
  iDtime := 0
  iGid := 0
  iLinksCount := 0
  iBlocks := 0
  iFlags := 0
  iOsd1 := 0
  iBlock := fun _ => 0
  iGeneration := 0
  iFileAcl := 0
  iDirAcl := 0
  iFaddr := 0

/-- Records are read from their first `sizeofDinode` bytes only. -/
theorem decode_congr {f g : ℕ → UInt8} (h : ∀ i < sizeofDinode, f i = g i) :
    decode f = decode g := by
  have h16 : ∀ o, o + 2 ≤ sizeofDinode → le16 f o = le16 g o := fun o ho =>
    le16_congr fun k hk => h _ (by omega)
  have h32 : ∀ o, o + 4 ≤ sizeofDinode → le32 f o = le32 g o := fun o ho =>
    le32_congr fun k hk => h _ (by omega)
  have hblk : ∀ k : Fin 15, le32 f (40 + 4 * k) = le32 g (40 + 4 * k) := fun k =>
    h32 _ (by have := k.isLt; simp only [sizeofDinode]; omega)
  simp only [sizeofDinode] at h16 h32
  simp only [decode, mk.injEq]
  refine ⟨h16 _ ?_, h16 _ ?_, h32 _ ?_, h32 _ ?_, h32 _ ?_, h32 _ ?_, h32 _ ?_, h16 _ ?_,
    h16 _ ?_, h32 _ ?_, h32 _ ?_, h32 _ ?_, funext hblk, h32 _ ?_, h32 _ ?_, h32 _ ?_,
    h32 _ ?_⟩ <;> omega

/-- The address words of a stored record. -/
theorem encode_iBlock (d : Ext2Dinode) (k : Fin 15) {j : ℕ} (hj : j < 4) :
    d.encode (40 + 4 * k + j) = byteOf (d.iBlock k).toNat j := by
  have hk := k.isLt
  have hdiv : (40 + 4 * k.val + j - 40) / 4 = k := by omega
  have hmod : (40 + 4 * k.val + j - 40) % 4 = j := by omega
  have hfin : Fin.ofNat 15 k.val = k := Fin.ext (Nat.mod_eq_of_lt hk)
  unfold encode
  rw [hdiv, hmod, hfin]
  repeat rw [if_neg (by omega)]
  rw [if_pos (by omega)]

/-- **A stored record reads back.** -/
theorem decode_encode (d : Ext2Dinode) : decode d.encode = d := by
  have hblk : (fun k : Fin 15 => le32 d.encode (40 + 4 * k)) = d.iBlock := by
    funext k
    exact le32_eq fun j hj => encode_iBlock d k hj
  obtain ⟨⟩ := d
  simp only [decode, mk.injEq]
  refine ⟨le16_eq ?_, le16_eq ?_, le32_eq ?_, le32_eq ?_, le32_eq ?_, le32_eq ?_, le32_eq ?_,
    le16_eq ?_, le16_eq ?_, le32_eq ?_, le32_eq ?_, le32_eq ?_, hblk, le32_eq ?_, le32_eq ?_,
    le32_eq ?_, le32_eq ?_⟩ <;> intro k hk <;> interval_cases k <;> rfl

end Ext2Dinode

end Xv6Ext2
