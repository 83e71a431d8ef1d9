import Xv6Ext2.Inode

/-!
# Making an inode

`ialloc` of `kernel/fs.c` takes the first free bit of the inode bitmap and writes
a fresh record for it.  It addresses the record as an element of an array of
`struct ext2_dinode`, so record `i` of a table block starts at byte
`i * sizeofDinode`, where `ilock` and `iupdate` look at byte `i * INODESIZE`.  The
two agree on the first record of a block; further on the new record covers the
end of the record before it and leaves the end of its own as it was.

The bitmap search counts the bits of a byte from the most significant one, and
ext2 counts them from the least significant one, for blocks and for inodes.

## Main definitions

* `ialloc` — the source function.
* `Fs.TableApart` — no record lies in the descriptor or the inode bitmap.
* `Fs.SlotRight` — the bytes that a misplaced record misses or spoils are right
  already.
* `ext2Bit`, `MarksBit` — the bits of a bitmap in the numbering of ext2.

## Main results

* `ialloc_ok`, `ialloc_cases` — what `ialloc` does on the block store.
* `ialloc_record_iff` — **`ialloc` makes its own record and no other change**
  exactly when `Fs.SlotRight` holds.
* `alloc_ext2_iff` — **when `balloc` and `ialloc` respect an ext2 image**.
-/

namespace Xv6Ext2

open Bytes

variable {σ β : Type} [BlockLayer σ β]

/-! ### The source function -/

/-- The record that `ialloc` makes. -/
def freshDinode (type : InodeType) : Ext2Dinode :=
  { Ext2Dinode.zero with
    iMode := match type with
      | .dir => ext2TDir
      | .file => ext2TFile
      | _ => 0 }

/-- Allocate an inode.  The record is addressed as an element of an array of
`struct ext2_dinode`. -/
def ialloc (dev : UInt32) (type : InodeType) : FsM σ (Fin NINODE) := do
  let bgdesc ← readGroupDesc dev
  let bp2 ← bread dev bgdesc.inodeBitmap
  let bitmap ← bdata bp2
  let s ← get
  match ← FsM.ofExcept (ext2fsFreeBlock s.sb bitmap) with
  | none => do
    brelse bp2
    panic "ext2_ialloc: no inodes"
  | some (fbit, bitmap') => do
    bstore bp2 bitmap'
    let bno := bgdesc.inodeTable + UInt32.ofNat (fbit / (BSIZE / sizeofDinode))
    let iindex := fbit % (BSIZE / sizeofDinode)
    let bp3 ← bread dev bno
    let d ← bdata bp3
    bstore bp3 (d.put (iindex * sizeofDinode) sizeofDinode (freshDinode type).encode)
    bwrite bp3
    bwrite bp2
    brelse bp3
    brelse bp2
    iget dev (UInt32.ofNat (fbit + 1))

section Store

variable {s s' : Fs Store} {dev : UInt32} {type : InodeType} {ip : Fin NINODE} {k : ℕ}

/-! ### What `ialloc` does -/

/-- The inode bitmap of the image. -/
def Fs.inodeBitmap (s : Fs Store) : Block := s.blk.content s.gdesc.inodeBitmap

/-- The descriptor and the inode bitmap are no blocks of the inode table, and the
bitmap is not in the descriptor block. -/
structure Fs.TableApart (s : Fs Store) : Prop where
  bitmap : s.gdesc.inodeBitmap ≠ 2
  desc : ∀ q < 2 ^ 28, s.gdesc.inodeTable + UInt32.ofNat q ≠ 2
  table : ∀ q < 2 ^ 28, s.gdesc.inodeTable + UInt32.ofNat q ≠ s.gdesc.inodeBitmap

/-- The usual layout: the inode table comes after the descriptor and the bitmap. -/
theorem Fs.TableApart.of_lt (hbm : s.gdesc.inodeBitmap ≠ 2) (h2 : 2 < s.gdesc.inodeTable.toNat)
    (hlt : s.gdesc.inodeBitmap.toNat < s.gdesc.inodeTable.toNat)
    (hroom : s.gdesc.inodeTable.toNat + 2 ^ 28 ≤ 2 ^ 32) : s.TableApart := by
  have hadd : ∀ q < 2 ^ 28, (s.gdesc.inodeTable + UInt32.ofNat q).toNat =
      s.gdesc.inodeTable.toNat + q := by
    intro q hq
    rw [UInt32.toNat_add, UInt32.toNat_ofNat']
    omega
  refine ⟨hbm, fun q hq heq => ?_, fun q hq heq => ?_⟩
  · have := congrArg UInt32.toNat heq
    rw [hadd q hq, show (2 : UInt32).toNat = 2 from rfl] at this
    omega
  · have := congrArg UInt32.toNat heq
    rw [hadd q hq] at this
    omega

/-- The table block that `ialloc` writes for bit `k`. -/
def Fs.slotBlock (s : Fs Store) (k : ℕ) : UInt32 := s.gdesc.inodeTable + UInt32.ofNat (k / 8)

/-- The state with bit `k` of the inode bitmap set and the fresh record written. -/
def Fs.withFresh (s : Fs Store) (type : InodeType) (k : ℕ) : Fs Store :=
  (s.write s.gdesc.inodeBitmap (setUsed s.inodeBitmap k)).write (s.slotBlock k)
    ((s.blk.content (s.slotBlock k)).put (k % 8 * sizeofDinode) sizeofDinode
      (freshDinode type).encode)

/-- Running `ialloc` up to the search. -/
theorem ialloc_search (hheld : s.blk.held = []) :
    ialloc dev type s =
      (FsM.ofExcept (ext2fsFreeBlock s.sb s.inodeBitmap) >>= fun r =>
        match r with
        | none => do
          brelse s.gdesc.inodeBitmap
          panic "ext2_ialloc: no inodes"
        | some (fbit, bitmap') => do
          bstore s.gdesc.inodeBitmap bitmap'
          let bp3 ← bread dev (s.slotBlock fbit)
          let d ← bdata bp3
          bstore bp3 (d.put (fbit % 8 * sizeofDinode) sizeofDinode (freshDinode type).encode)
          bwrite bp3
          bwrite s.gdesc.inodeBitmap
          brelse bp3
          brelse s.gdesc.inodeBitmap
          iget dev (UInt32.ofNat (fbit + 1))) (s.hold s.gdesc.inodeBitmap) := by
  have hnil : ∀ b, b ∉ s.blk.held := by
    rw [hheld]
    exact fun b => List.not_mem_nil
  unfold ialloc
  rw [Prog.bind_of_ok (readGroupDesc_ok (hnil _)), Prog.bind_of_ok (bread_ok (hnil _)),
    Prog.bind_of_ok bdata_apply, Prog.bind_of_ok (Prog.get_apply _)]
  rfl

/-- **`ialloc` with a bit left**: it writes the bitmap and the record, and asks
`iget` for an entry. -/
theorem ialloc_ok (hheld : s.blk.held = []) (hapart : s.TableApart)
    (hk : FirstFree s.sb s.inodeBitmap k) :
    ialloc dev type s = iget dev (UInt32.ofNat (k + 1)) (s.withFresh type k) := by
  have hlt := hk.lt
  have hne : s.slotBlock k ≠ s.gdesc.inodeBitmap :=
    hapart.table _ (by simp only [BSIZE] at hlt; omega)
  rw [ialloc_search hheld, ext2fsFreeBlock_some hk, Fs.withFresh]
  generalize s.gdesc.inodeBitmap = ib at *
  generalize hz : s.slotBlock k = z at *
  rw [Prog.bind_of_ok (a := some (k, setUsed s.inodeBitmap k)) (t := s.hold ib) rfl]
  dsimp only
  rw [hz, Prog.bind_of_ok (bstore_apply _), Prog.bind_of_ok (bread_ok (by simp [hheld, hne])),
    Prog.bind_of_ok bdata_apply, Prog.bind_of_ok (bstore_apply _),
    Prog.bind_of_ok (bwrite_ok (by simp)), Prog.bind_of_ok (bwrite_ok (by simp)),
    Prog.bind_of_ok (brelse_ok (by simp)), Prog.bind_of_ok (brelse_ok (by simp))]
  congr 1
  simp [Fs.write, Fs.hold, Fs.release, Store.write, Store.hold, Store.release, hne]

/-- Every returning `ialloc` is of that kind. -/
theorem ialloc_cases (hheld : s.blk.held = []) (hapart : s.TableApart)
    (h : ialloc dev type s = .ok (ip, s')) :
    ∃ k, FirstFree s.sb s.inodeBitmap k ∧
      iget dev (UInt32.ofNat (k + 1)) (s.withFresh type k) = .ok (ip, s') := by
  by_cases hex : ∃ k, FirstFree s.sb s.inodeBitmap k
  · obtain ⟨k, hk⟩ := hex
    rw [ialloc_ok hheld hapart hk] at h
    exact ⟨k, hk, h⟩
  · rw [ialloc_search hheld] at h
    rcases ext2fsFreeBlock_none hex with hn | hf
    · rw [hn, Prog.bind_of_ok (a := none) (t := s.hold s.gdesc.inodeBitmap) rfl] at h
      dsimp only at h
      rw [Prog.bind_of_ok (brelse_ok (by simp))] at h
      cases h
    · rw [hf] at h
      cases h

/-! ### The records after `ialloc` -/

/-- The number of the inode at bit `k`. -/
theorem toNat_inum (hk : k < 8 * BSIZE) : (UInt32.ofNat (k + 1) - 1).toNat = k := by
  have h1 : UInt32.ofNat (k + 1) = UInt32.ofNat k + 1 := by
    apply UInt32.toNat_inj.mp
    simp
  rw [h1, UInt32.add_sub_cancel, UInt32.toNat_ofNat']
  exact Nat.mod_eq_of_lt (by simp only [BSIZE] at hk; omega)

theorem gdesc_withFresh (hapart : s.TableApart) (hk : k < 8 * BSIZE) :
    (s.withFresh type k).gdesc = s.gdesc := by
  have hslot : s.slotBlock k ≠ 2 := hapart.desc _ (by simp only [BSIZE] at hk; omega)
  rw [Fs.withFresh, gdesc_write hslot, gdesc_write hapart.bitmap]

/-- The bytes of the records after `ialloc`: the fresh record lies over the bytes
from `116 * (k % 8)` of its block. -/
theorem record_withFresh (hapart : s.TableApart) (hk : k < 8 * BSIZE) {j : UInt32}
    (hj : ValidInum j) (x : ℕ) :
    (s.withFresh type k).record j x =
      if (j - 1).toNat / 8 = k / 8 ∧ 116 * (k % 8) ≤ 128 * ((j - 1).toNat % 8) + x ∧
          128 * ((j - 1).toNat % 8) + x < 116 * (k % 8) + 116 then
        (freshDinode type).encode (128 * ((j - 1).toNat % 8) + x - 116 * (k % 8))
      else s.record j x := by
  unfold ValidInum at hj
  simp only [BSIZE] at hk
  have htable : s.recBlock j ≠ s.gdesc.inodeBitmap := hapart.table _ (by omega)
  have hblk : s.recBlock j = s.slotBlock k ↔ (j - 1).toNat / 8 = k / 8 := by
    unfold Fs.recBlock Fs.slotBlock
    rw [UInt32.add_right_inj, ← UInt32.toNat_inj, UInt32.toNat_ofNat', UInt32.toNat_ofNat']
    omega
  unfold Fs.record
  rw [recBlock_of_gdesc (gdesc_withFresh hapart hk), Fs.withFresh, Fs.content_write]
  by_cases hb : s.recBlock j = s.slotBlock k
  · rw [hb, Function.update_self, Block.byte_put _ _ (by simp only [BSIZE, sizeofDinode]; omega)]
    have hdiv := hblk.mp hb
    unfold recOff
    simp only [INODESIZE, sizeofDinode, hdiv, true_and, Nat.mul_comm]
  · rw [Function.update_of_ne hb, Fs.content_write, Function.update_of_ne htable,
      if_neg fun h => hb (hblk.mpr h.1)]

/-- Only the mode of a fresh record is not zero. -/
theorem encode_freshDinode {x : ℕ} (hx : 2 ≤ x) : (freshDinode type).encode x = 0 := by
  unfold Ext2Dinode.encode
  rw [if_neg (by omega)]
  simp [freshDinode, Ext2Dinode.zero, byteOf]

theorem typeOfMode_freshDinode (htype : type = .dir ∨ type = .file) :
    typeOfMode (freshDinode type).iMode = type := by
  rcases htype with rfl | rfl <;> decide

/-- **The fields of the record at bit `k`** as `ilock` reads them after `ialloc`. -/
theorem dinode_withFresh (type : InodeType) (hapart : s.TableApart) (hk : k < 8 * BSIZE) :
    ((s.withFresh type k).dinode (UInt32.ofNat (k + 1))).iMode =
      (if k % 8 = 0 then (freshDinode type).iMode else 0) ∧
    ((s.withFresh type k).dinode (UInt32.ofNat (k + 1))).iLinksCount = 0 ∧
    ((s.withFresh type k).dinode (UInt32.ofNat (k + 1))).iSize = 0 ∧
    ∀ a : Fin 15, ((s.withFresh type k).dinode (UInt32.ofNat (k + 1))).iBlock a =
      if 12 * (k % 8) + 40 + 4 * a.val < 116 then 0
      else (s.dinode (UInt32.ofNat (k + 1))).iBlock a := by
  have hinum := toNat_inum hk
  have hvalid : ValidInum (UInt32.ofNat (k + 1)) := by
    unfold ValidInum
    simp only [BSIZE] at hk
    omega
  have hbyte : ∀ x < INODESIZE, (s.withFresh type k).record (UInt32.ofNat (k + 1)) x =
      if 12 * (k % 8) + x < 116 then (freshDinode type).encode (12 * (k % 8) + x)
      else s.record (UInt32.ofNat (k + 1)) x := by
    intro x hx
    rw [record_withFresh hapart hk hvalid, hinum]
    split
    · rw [if_pos (by omega)]
      congr 1
      omega
    · rw [if_neg (by omega)]
  simp only [INODESIZE] at hbyte
  have hzero : ∀ x, 2 ≤ 12 * (k % 8) + x → 12 * (k % 8) + x < 116 →
      (s.withFresh type k).record (UInt32.ofNat (k + 1)) x = 0 := by
    intro x h₂ h₁₁₆
    rw [hbyte x (by omega), if_pos h₁₁₆, encode_freshDinode h₂]
  refine ⟨?_, le16_zero fun x hx => hzero _ (by omega) (by omega),
    le32_zero fun x hx => hzero _ (by omega) (by omega), fun a => ?_⟩
  · split
    · next h0 =>
      refine le16_eq fun x hx => ?_
      rw [hbyte _ (by omega), if_pos (by omega), h0, Ext2Dinode.encode, if_pos (by omega)]
      congr 1
      omega
    · next h0 => exact le16_zero fun x hx => hzero _ (by omega) (by omega)
  · have ha := a.isLt
    split
    · exact le32_zero fun x hx => hzero _ (by omega) (by omega)
    · refine le32_congr fun x hx => ?_
      rw [hbyte _ (by omega), if_neg (by omega)]

/-! ### When `ialloc` touches its own record only -/

/-- The number is marked used in the inode bitmap, at the bit that `ialloc` sets for it. -/
def Fs.Marked (s : Fs Store) (inum : UInt32) : Prop :=
  usedBit s.inodeBitmap (inum - 1).toNat = true

/-- The in-memory inode that the caller of `ialloc` asked for. -/
def Inode.IsNew (i : Inode) (type : InodeType) : Prop :=
  i.type = type ∧ i.nlink = 0 ∧ i.size = 0 ∧ i.addrs = fun _ => 0

/-- Locking the entry, the caller reads a new inode. -/
def LocksNew (s : Fs Store) (ip : Fin NINODE) (type : InodeType) : Prop :=
  ∃ t, ilock ip s = .ok ((), t) ∧ (t.itable ip).IsNew type

/-- What `ialloc` needs where it takes bit `k` and the entry `ip`.  The bytes of the record before
that the fresh record covers hold what it puts there.  An inode that is in memory already is a new
one; for any other one the addresses of its own record that the fresh record does not reach are
zero, and past the first record of a block the mode it leaves is 0, which reads as a file. -/
structure Fs.SlotRight (s : Fs Store) (type : InodeType) (ip : Fin NINODE) (k : ℕ) : Prop where
  unlocked : (s.itable ip).locked = false
  before : ∀ y < 12 * (k % 8), (s.blk.content (s.slotBlock k)).byte (116 * (k % 8) + y) =
    (freshDinode type).encode y
  entry : if 0 < (s.itable ip).ref ∧ (s.itable ip).valid = true then (s.itable ip).IsNew type
    else (k % 8 = 0 ∨ type = .file) ∧ ∀ a : Fin 15, 116 ≤ 12 * (k % 8) + 40 + 4 * a.val →
      (s.dinode (UInt32.ofNat (k + 1))).iBlock a = 0

/-- The record of the new inode reads as asked for. -/
theorem isNew_withFresh_iff (hapart : s.TableApart) (htype : type = .dir ∨ type = .file)
    (hk : k < 8 * BSIZE) (i : Inode) :
    (fillInode ((s.withFresh type k).dinode (UInt32.ofNat (k + 1))) i).IsNew type ↔
      (k % 8 = 0 ∨ type = .file) ∧ ∀ a : Fin 15, 116 ≤ 12 * (k % 8) + 40 + 4 * a.val →
        (s.dinode (UInt32.ofNat (k + 1))).iBlock a = 0 := by
  obtain ⟨hmode, hlinks, hsize, hblk⟩ := dinode_withFresh type hapart hk
  have hmodes : typeOfMode ((s.withFresh type k).dinode (UInt32.ofNat (k + 1))).iMode = type ↔
      k % 8 = 0 ∨ type = .file := by
    rw [hmode]
    by_cases h0 : k % 8 = 0
    · rw [if_pos h0, typeOfMode_freshDinode htype]
      simp [h0]
    · rw [if_neg h0, show typeOfMode 0 = .file by decide]
      simp [h0, eq_comm]
  have haddrs : ((s.withFresh type k).dinode (UInt32.ofNat (k + 1))).iBlock = (fun _ => 0) ↔
      ∀ a : Fin 15, 116 ≤ 12 * (k % 8) + 40 + 4 * a.val →
        (s.dinode (UInt32.ofNat (k + 1))).iBlock a = 0 := by
    constructor
    · intro h a ha
      have := congrFun h a
      rwa [hblk, if_neg (by omega)] at this
    · intro h
      funext a
      rw [hblk]
      split
      · rfl
      · exact h a (by omega)
  constructor
  · rintro ⟨ht, -, -, ha⟩
    exact ⟨hmodes.mp ht, haddrs.mp ha⟩
  · rintro ⟨ht, ha⟩
    exact ⟨hmodes.mpr ht, congrArg UInt16.toInt16 hlinks, hsize, haddrs.mpr ha⟩

/-- **What a lock of the entry reads**, in a state `t` with the blocks that `ialloc` leaves. -/
theorem locksNew_iff {t : Fs Store} (hheld : s.blk.held = []) (hapart : s.TableApart)
    (htype : type = .dir ∨ type = .file) (hk : k < 8 * BSIZE)
    (hblk : t.blk = (s.withFresh type k).blk) (hinum : (t.itable ip).inum = UInt32.ofNat (k + 1))
    (href : 1 ≤ (t.itable ip).ref) : LocksNew t ip type ↔ (t.itable ip).locked = false ∧
      if (t.itable ip).valid = true then (t.itable ip).IsNew type
      else (k % 8 = 0 ∨ type = .file) ∧ ∀ a : Fin 15, 116 ≤ 12 * (k % 8) + 40 + 4 * a.val →
        (s.dinode (UInt32.ofNat (k + 1))).iBlock a = 0 := by
  have hself : ∀ i : Inode, (t.setItable ip i).itable ip = i := fun i => by
    rw [Fs.itable_setItable, Function.update_self]
  unfold LocksNew
  cases hlock : (t.itable ip).locked with
  | true =>
    refine iff_of_false ?_ (by simp)
    rintro ⟨u, hrun, -⟩
    rw [ilock, Prog.bind_of_ok (getInode_apply t ip), if_neg (by omega), if_pos hlock] at hrun
    cases hrun
  | false =>
    rw [and_iff_right rfl]
    cases hvalid : (t.itable ip).valid with
    | true =>
      rw [ilock_of_valid href hlock hvalid, if_pos rfl]
      constructor
      · rintro ⟨u, hrun, hnew⟩
        cases hrun
        rw [hself] at hnew
        exact hnew
      · exact fun hnew => ⟨_, rfl, by rw [hself]; exact hnew⟩
    | false =>
      have hnum : ValidInum (t.itable ip).inum := by
        rw [hinum]
        unfold ValidInum
        rw [toNat_inum hk]
        simp only [BSIZE] at hk
        omega
      have hdinode : t.dinode (t.itable ip).inum =
          (s.withFresh type k).dinode (UInt32.ofNat (k + 1)) := by
        unfold Fs.dinode Fs.record Fs.recBlock Fs.gdesc
        rw [hblk, hinum]
      rw [ilock_ok (by rw [hblk]; exact hheld) href hlock hvalid hnum, if_neg (by simp), hdinode,
        ← isNew_withFresh_iff hapart htype hk { t.itable ip with locked := true }]
      constructor
      · rintro ⟨u, hrun, hnew⟩
        cases hrun
        rw [hself] at hnew
        exact hnew
      · exact fun hnew => ⟨_, rfl, by rw [hself]; exact hnew⟩

/-- The other records are as they were. -/
theorem record_withFresh_iff (hapart : s.TableApart) (hk : k < 8 * BSIZE) :
    (∀ j, ValidInum j → j ≠ UInt32.ofNat (k + 1) → ∀ x < INODESIZE,
      (s.withFresh type k).record j x = s.record j x) ↔
    ∀ y < 12 * (k % 8), (s.blk.content (s.slotBlock k)).byte (116 * (k % 8) + y) =
      (freshDinode type).encode y := by
  constructor
  · intro h y hy
    -- byte `y` of the fresh record falls into the record before it
    have hk1 : k - 1 < 8 * BSIZE := by omega
    have hj := toNat_inum hk1
    rw [show k - 1 + 1 = k by omega] at hj
    have hvalid : ValidInum (UInt32.ofNat k) := by
      unfold ValidInum
      rw [hj]
      simp only [BSIZE] at hk
      omega
    have hne : UInt32.ofNat k ≠ UInt32.ofNat (k + 1) := by
      intro heq
      rw [heq, toNat_inum hk] at hj
      omega
    have hx : 128 - 12 * (k % 8) + y < INODESIZE := by simp only [INODESIZE]; omega
    have hrec := h _ hvalid hne _ hx
    rw [record_withFresh hapart hk hvalid, hj, if_pos ⟨by omega, by omega, by omega⟩] at hrec
    have hblk : s.recBlock (UInt32.ofNat k) = s.slotBlock k := by
      unfold Fs.recBlock Fs.slotBlock
      rw [hj, show (k - 1) / 8 = k / 8 by omega]
    have hoff : recOff (UInt32.ofNat k) + (128 - 12 * (k % 8) + y) = 116 * (k % 8) + y := by
      unfold recOff
      rw [hj]
      simp only [INODESIZE]
      omega
    have harg : 128 * ((k - 1) % 8) + (128 - 12 * (k % 8) + y) - 116 * (k % 8) = y := by omega
    unfold Fs.record at hrec
    rw [hblk, hoff, harg] at hrec
    exact hrec.symm
  · intro h j hj hne x hx
    rw [record_withFresh hapart hk hj]
    split
    · next hin =>
      obtain ⟨hdiv, hlo, hhi⟩ := hin
      have hjk : (j - 1).toNat ≠ k := by
        intro heq
        refine hne ?_
        rw [← heq]
        apply UInt32.toNat_inj.mp
        have := congrArg UInt32.toNat (UInt32.sub_add_cancel j 1)
        rw [UInt32.toNat_add] at this
        rw [UInt32.toNat_ofNat', ← this]
        rfl
      simp only [INODESIZE] at hx
      have hy := h (128 * ((j - 1).toNat % 8) + x - 116 * (k % 8)) (by omega)
      have hoff : 116 * (k % 8) + (128 * ((j - 1).toNat % 8) + x - 116 * (k % 8)) =
          recOff j + x := by
        unfold recOff
        simp only [INODESIZE]
        omega
      rw [hoff] at hy
      rw [← hy, Fs.record, Fs.recBlock, hdiv, Fs.slotBlock]
    · rfl

/-- **`ialloc` makes its own record and no other change** exactly when the record
is the first of its block, or what it misses and spoils is right already, and no other inode is in
memory under the number. -/
theorem ialloc_record_iff (hheld : s.blk.held = []) (hapart : s.TableApart)
    (htype : type = .dir ∨ type = .file) (h : ialloc dev type s = .ok (ip, s')) :
    (LocksNew s' ip type ∧ ∀ j, ValidInum j → j ≠ (s'.itable ip).inum →
      ∀ x < INODESIZE, s'.record j x = s.record j x) ↔
    s.SlotRight type ip ((s'.itable ip).inum - 1).toNat := by
  obtain ⟨k, hk, hget⟩ := ialloc_cases hheld hapart h
  obtain ⟨hblk, -, hinum, href⟩ := iget_spec hget
  have hrec : ∀ j x, s'.record j x = (s.withFresh type k).record j x := by
    intro j x
    unfold Fs.record Fs.recBlock Fs.gdesc
    rw [hblk]
  -- the entry is one that was referenced, or one that is to be read
  have hentry : (s'.itable ip).locked = (s.itable ip).locked ∧
      ((s'.itable ip).valid = true ↔ 0 < (s.itable ip).ref ∧ (s.itable ip).valid = true) ∧
      ((s'.itable ip).valid = true →
        ((s'.itable ip).IsNew type ↔ (s.itable ip).IsNew type)) := by
    rcases iget_cases hget with ⟨hpos, -, -, rfl⟩ | ⟨hzero, rfl⟩ <;>
      rw [Fs.itable_setItable, Function.update_self]
    · exact ⟨rfl, (and_iff_right hpos).symm, fun _ => Iff.rfl⟩
    · exact ⟨rfl, iff_of_false Bool.false_ne_true fun hand => absurd hzero (Int.ne_of_gt hand.1),
        fun hfalse => absurd hfalse Bool.false_ne_true⟩
  obtain ⟨hlocked, hvalid, hnew⟩ := hentry
  rw [locksNew_iff hheld hapart htype hk.lt hblk hinum href, hlocked, hinum, toNat_inum hk.lt]
  simp only [hrec]
  rw [record_withFresh_iff hapart hk.lt]
  have hsame : (if (s'.itable ip).valid = true then (s'.itable ip).IsNew type
      else (k % 8 = 0 ∨ type = .file) ∧ ∀ a : Fin 15, 116 ≤ 12 * (k % 8) + 40 + 4 * a.val →
        (s.dinode (UInt32.ofNat (k + 1))).iBlock a = 0) ↔
      if 0 < (s.itable ip).ref ∧ (s.itable ip).valid = true then (s.itable ip).IsNew type
      else (k % 8 = 0 ∨ type = .file) ∧ ∀ a : Fin 15, 116 ≤ 12 * (k % 8) + 40 + 4 * a.val →
        (s.dinode (UInt32.ofNat (k + 1))).iBlock a = 0 := by
    by_cases hv : (s'.itable ip).valid = true
    · rw [if_pos hv, if_pos (hvalid.mp hv), hnew hv]
    · rw [if_neg hv, if_neg fun hand => hv (hvalid.mpr hand)]
  rw [hsame]
  constructor
  · rintro ⟨⟨hlock, hright⟩, hbefore⟩
    exact ⟨hlock, hbefore, hright⟩
  · rintro ⟨hlock, hbefore, hright⟩
    exact ⟨⟨hlock, hright⟩, hbefore⟩

/-- The image with the given inode bitmap. -/
def inodesImage (bm : Block) : Fs Store := imageOf [(4, bm)]

theorem tableApart_inodesImage (bm : Block) : (inodesImage bm).TableApart := by
  have hg : (inodesImage bm).gdesc = ⟨3, 4, 5⟩ := by
    show GroupDesc.decode (GroupDesc.encode ⟨3, 4, 5⟩) = _
    decide
  refine .of_lt ?_ ?_ ?_ ?_ <;> rw [hg] <;> decide

/-- The first inode of a table block is made right. -/
theorem ialloc_record_iff_inodesImage : ∃ ip s',
    ialloc 1 .dir (inodesImage Block.zero) = .ok (ip, s') ∧ LocksNew s' ip .dir ∧
    ∀ j, ValidInum j → j ≠ (s'.itable ip).inum →
      ∀ x < INODESIZE, s'.record j x = (inodesImage Block.zero).record j x := by
  have hk : FirstFree (inodesImage Block.zero).sb (inodesImage Block.zero).inodeBitmap 0 :=
    ⟨by decide, by decide, fun j hj => absurd hj (Nat.not_lt_zero j)⟩
  have happ := tableApart_inodesImage Block.zero
  have hex : ∃ ip s', iget 1 1 ((inodesImage Block.zero).withFresh .dir 0) = .ok (ip, s') :=
    iget_returns_iff.mpr ⟨0, Or.inl rfl⟩
  obtain ⟨ip, s', hget⟩ := hex
  have hret := (ialloc_ok rfl happ hk).trans hget
  refine ⟨ip, s', hret, (ialloc_record_iff rfl happ (Or.inl rfl) hret).mpr ?_⟩
  rw [(iget_spec hget).2.2.1]
  refine ⟨rfl, fun y hy => absurd hy (Nat.not_lt_zero y), ?_⟩
  rw [if_neg fun hand => absurd hand.1 (Int.lt_irrefl 0)]
  refine ⟨Or.inl rfl, fun a ha => ?_⟩
  exact absurd a.isLt (by
    have : ((1 : UInt32) - 1).toNat % 8 = 0 := by decide
    omega)

/-- **A directory made in the second record of a block reads as a file.** -/
theorem ialloc_misplaces : ∃ ip s',
    ialloc 1 .dir (inodesImage (setUsed Block.zero 0)) = .ok (ip, s') ∧ ¬LocksNew s' ip .dir := by
  have hk : FirstFree (inodesImage (setUsed Block.zero 0)).sb
      (inodesImage (setUsed Block.zero 0)).inodeBitmap 1 := by
    refine ⟨by decide, by decide, fun j hj => ?_⟩
    have : j = 0 := by omega
    subst this
    decide
  have happ := tableApart_inodesImage (setUsed Block.zero 0)
  have hex : ∃ ip s', iget 1 2 ((inodesImage (setUsed Block.zero 0)).withFresh .dir 1) =
      .ok (ip, s') := iget_returns_iff.mpr ⟨0, Or.inl rfl⟩
  obtain ⟨ip, s', hget⟩ := hex
  refine ⟨ip, s', (ialloc_ok rfl happ hk).trans hget, fun hnew => ?_⟩
  obtain ⟨hblk, -, hinum, href⟩ := iget_spec hget
  have hvalid : (s'.itable ip).valid = false := by
    rcases iget_cases hget with ⟨hpos, -⟩ | ⟨-, rfl⟩
    · exact absurd hpos (Int.lt_irrefl 0)
    · rw [Fs.itable_setItable, Function.update_self]
  have hright := ((locksNew_iff rfl happ (Or.inl rfl) hk.lt hblk hinum href).mp hnew).2
  rw [hvalid, if_neg Bool.false_ne_true] at hright
  exact absurd hright.1 (by decide)

/-! ### The numbering of ext2 -/

/-- Bit `k` of a bitmap in the numbering of ext2: the bits of a byte are counted
from the least significant one. -/
def ext2Bit (bm : Block) (k : ℕ) : Bool := testBit (bm.byte (k / 8)) (k % 8)

/-- Bit `k` was free in `bm`, and `bm'` is `bm` with exactly this bit set. -/
def MarksBit (bm bm' : Block) (k : ℕ) : Prop :=
  k < 8 * BSIZE ∧ ext2Bit bm k = false ∧
    ∀ j < 8 * BSIZE, ext2Bit bm' j = (ext2Bit bm j || decide (j = k))

/-- Every block that `balloc` returns was free in the image, and exactly its bit
is set: bit `k` of the block bitmap stands for block `s_first_data_block + k`. -/
def BallocRespects (dev : UInt32) (s : Fs Store) : Prop :=
  ∀ b s', balloc dev s = .ok (b, s') →
    MarksBit s.blockBitmap s'.blockBitmap (b - s.sb.sFirstDataBlock).toNat

/-- Every inode that `ialloc` returns was free in the image, and exactly its bit
is set: bit `k` of the inode bitmap stands for inode `k + 1`. -/
def IallocRespects (dev : UInt32) (s : Fs Store) : Prop :=
  ∀ type ip s', type = .dir ∨ type = .file → ialloc dev type s = .ok (ip, s') →
    MarksBit s.inodeBitmap s'.inodeBitmap ((s'.itable ip).inum - 1).toNat

theorem mirror_mirror (k : ℕ) : mirror (mirror k) = k := by
  have hdiv := mirror_div k
  have hmod := mirror_mod k
  unfold mirror at *
  omega

/-- The bit of `balloc`'s block `k` is bit `mirror k` of ext2. -/
theorem ext2Bit_eq (bm : Block) (k : ℕ) : ext2Bit bm k = usedBit bm (mirror k) :=
  (usedBit_mirror bm k).symm

/-- Taking block `k` marks bit `mirror k` of ext2 and no other. -/
theorem marksBit_setUsed_iff {bm : Block} (hk : k < 8 * BSIZE) (hfree : usedBit bm k = false)
    {l : ℕ} : MarksBit bm (setUsed bm k) l ↔ l = mirror k := by
  have hlt : mirror k < 8 * BSIZE := by
    unfold mirror
    omega
  constructor
  · rintro ⟨-, -, hall⟩
    have := hall (mirror k) hlt
    rw [ext2Bit_eq, ext2Bit_eq, mirror_mirror, usedBit_setUsed _ hk, hfree] at this
    simpa [eq_comm] using this
  · rintro rfl
    refine ⟨hlt, by rw [ext2Bit_eq, mirror_mirror, hfree], fun j hj => ?_⟩
    rw [ext2Bit_eq, ext2Bit_eq, usedBit_setUsed _ hk]
    congr 2
    rw [eq_iff_iff]
    constructor
    · rintro rfl
      rw [mirror_mirror]
    · rintro rfl
      rw [mirror_mirror]

/-- The index in the image of the block that `balloc` returns for bit `k`. -/
theorem sub_eq_mirror_iff (hk : k < 8 * BSIZE) (b f : UInt32) :
    (b + UInt32.ofNat k - f).toNat = mirror k ↔ b + UInt32.ofNat (2 * (k % 8)) = f + 7 := by
  have hb := b.toNat_lt
  have hf := f.toNat_lt
  rw [← UInt32.toNat_inj, UInt32.toNat_sub, UInt32.toNat_add, UInt32.toNat_add, UInt32.toNat_add,
    UInt32.toNat_ofNat', UInt32.toNat_ofNat', show (7 : UInt32).toNat = 7 from rfl]
  unfold mirror
  simp only [BSIZE] at hk
  omega

/-- `balloc` respects the image exactly when the first free bit, if it can be
taken at all, is where the two numberings meet. -/
theorem ballocRespects_iff (hheld : s.blk.held = []) (hdesc : s.DescApart) :
    BallocRespects dev s ↔ ∀ k, k ≠ 0 → FirstFree s.sb s.blockBitmap k →
      s.gdesc.blockBitmap + UInt32.ofNat (2 * (k % 8)) = s.sb.sFirstDataBlock + 7 := by
  have hinv := AllocInv.start hdesc hheld
  constructor
  · intro h k hk0 hk
    obtain ⟨b, s', hb⟩ := hinv.balloc_returns dev ⟨k, hk0, hk⟩
    have hmark := h b s' hb
    obtain ⟨k', -, hk', rfl, -, -, hbm⟩ := hinv.balloc_eq hb
    cases hk'.eq hk
    rw [hbm, marksBit_setUsed_iff hk.lt hk.2.1] at hmark
    exact (sub_eq_mirror_iff hk.lt _ _).mp hmark
  · intro h b s' hb
    obtain ⟨k, hk0, hk, rfl, -, -, hbm⟩ := hinv.balloc_eq hb
    rw [hbm, marksBit_setUsed_iff hk.lt hk.2.1]
    exact (sub_eq_mirror_iff hk.lt _ _).mpr (h k hk0 hk)

/-- The inode bitmap after `ialloc`. -/
theorem inodeBitmap_withFresh (hapart : s.TableApart) (hk : k < 8 * BSIZE) :
    (s.withFresh type k).inodeBitmap = setUsed s.inodeBitmap k := by
  have hne : s.gdesc.inodeBitmap ≠ s.slotBlock k :=
    (hapart.table _ (by simp only [BSIZE] at hk; omega)).symm
  unfold Fs.inodeBitmap
  rw [gdesc_withFresh hapart hk, Fs.withFresh, Fs.content_write, Function.update_of_ne hne,
    Fs.content_write, Function.update_self]
  rfl

/-- `ialloc` respects the image only where it does not return. -/
theorem iallocRespects_iff (hheld : s.blk.held = []) (hapart : s.TableApart) :
    IallocRespects dev s ↔ ∀ k, FirstFree s.sb s.inodeBitmap k → ∀ i,
      (s.itable i).ref ≠ 0 ∧ ¬(0 < (s.itable i).ref ∧ (s.itable i).dev = dev ∧
        (s.itable i).inum = UInt32.ofNat (k + 1)) := by
  constructor
  · intro h k hk i
    by_contra hi
    -- the entry `i` lets `iget` return, and the bit set is not the inode's own
    have hex : ∃ i, ((s.withFresh .file k).itable i).ref = 0 ∨
        (0 < ((s.withFresh .file k).itable i).ref ∧ ((s.withFresh .file k).itable i).dev = dev ∧
          ((s.withFresh .file k).itable i).inum = UInt32.ofNat (k + 1)) :=
      ⟨i, by by_contra hno; exact hi (not_or.mp hno)⟩
    obtain ⟨ip, s', hget⟩ := iget_returns_iff.mpr hex
    have hmark := h .file ip s' (Or.inr rfl) ((ialloc_ok hheld hapart hk).trans hget)
    obtain ⟨hblk, -, hinum, -⟩ := iget_spec hget
    have hbm : s'.inodeBitmap = (s.withFresh .file k).inodeBitmap := by
      unfold Fs.inodeBitmap Fs.gdesc
      rw [hblk]
    rw [hbm, inodeBitmap_withFresh hapart hk.lt, hinum, toNat_inum hk.lt,
      marksBit_setUsed_iff hk.lt hk.2.1] at hmark
    exact mirror_ne k hmark.symm
  · intro h type ip s' htype hret
    obtain ⟨k, hk, hget⟩ := ialloc_cases hheld hapart hret
    obtain ⟨i, hi⟩ := iget_returns_iff.mp ⟨ip, s', hget⟩
    exact absurd hi (not_or.mpr (h k hk i))

/-- **When allocation respects an ext2 image.**  For blocks, exactly when the
first free bit is where the two numberings meet; for inodes, only where none is
returned. -/
theorem alloc_ext2_iff (hheld : s.blk.held = []) (hdesc : s.DescApart) (hapart : s.TableApart) :
    (BallocRespects dev s ∧ IallocRespects dev s) ↔
      (∀ k, k ≠ 0 → FirstFree s.sb s.blockBitmap k →
        s.gdesc.blockBitmap + UInt32.ofNat (2 * (k % 8)) = s.sb.sFirstDataBlock + 7) ∧
      ∀ k, FirstFree s.sb s.inodeBitmap k → ∀ i, (s.itable i).ref ≠ 0 ∧
        ¬(0 < (s.itable i).ref ∧ (s.itable i).dev = dev ∧
          (s.itable i).inum = UInt32.ofNat (k + 1)) := by
  rw [ballocRespects_iff hheld hdesc, iallocRespects_iff hheld hapart]

/-- The block with the given first bytes. -/
def bytesBlock (l : List UInt8) : Block := fun i => l.getD i 0

/-- An image where the two numberings meet in the first free block, 6, and no
entry of the inode table is left: the bitmaps are in blocks 4 and 5 and the inode
table follows. -/
def meetImage : Fs Store where
  sb := ⟨1, 2048⟩
  itable := fun _ => { Inode.unused with ref := 1 }
  blk := Store.ofBlocks
    [(2, GroupDesc.encode ⟨4, 5, 6⟩), (4, setUsed (setUsed Block.zero 0) 1)]
  junk := []

theorem alloc_ext2_iff_meetImage : BallocRespects 1 meetImage ∧ IallocRespects 1 meetImage := by
  have hg : meetImage.gdesc = ⟨4, 5, 6⟩ := by
    show GroupDesc.decode (GroupDesc.encode ⟨4, 5, 6⟩) = _
    decide
  have hbm : FirstFree meetImage.sb meetImage.blockBitmap 2 := by
    refine ⟨by decide, by decide, fun j hj => ?_⟩
    interval_cases j <;> decide
  have happ : meetImage.TableApart := by
    refine .of_lt ?_ ?_ ?_ ?_ <;> rw [hg] <;> decide
  refine (alloc_ext2_iff rfl (by unfold Fs.DescApart; decide) happ).mpr ⟨fun k _ hk => ?_, ?_⟩
  · cases hk.eq hbm
    rw [hg]
    decide
  · intro k hk i
    refine ⟨show (1 : ℤ) ≠ 0 by decide, fun ⟨_, hdev, _⟩ => ?_⟩
    exact absurd hdev (show (0 : UInt32) ≠ 1 by decide)

/-- An image as `mkfs.ext2` makes it: the blocks 1 to 37 are used by the metadata
and the root directory, and the inodes 1 to 11 are taken. -/
def mkfsImage : Fs Store :=
  imageOf [(3, bytesBlock [255, 255, 255, 255, 31]), (4, bytesBlock [255, 7])]

/-- **On a fresh image `balloc` hands out a block of the inode table**, block 35,
and `ialloc` an inode in use, number 9. -/
theorem alloc_mkfsImage : ¬BallocRespects 1 mkfsImage ∧ ¬IallocRespects 1 mkfsImage := by
  have hg : mkfsImage.gdesc = ⟨3, 4, 5⟩ := by
    show GroupDesc.decode (GroupDesc.encode ⟨3, 4, 5⟩) = _
    decide
  have hblk : mkfsImage.blockBitmap = bytesBlock [255, 255, 255, 255, 31] := by
    unfold Fs.blockBitmap
    rw [hg]
    rfl
  have hino : mkfsImage.inodeBitmap = bytesBlock [255, 7] := by
    unfold Fs.inodeBitmap
    rw [hg]
    rfl
  have hfirst : FirstFree mkfsImage.sb mkfsImage.blockBitmap 32 := by
    rw [hblk]
    exact ⟨by decide, by decide, by decide⟩
  have hfirst' : FirstFree mkfsImage.sb mkfsImage.inodeBitmap 8 := by
    rw [hino]
    exact ⟨by decide, by decide, by decide⟩
  have happ : mkfsImage.TableApart := by
    refine .of_lt ?_ ?_ ?_ ?_ <;> rw [hg] <;> decide
  rw [ballocRespects_iff rfl (by unfold Fs.DescApart; decide), iallocRespects_iff rfl happ]
  constructor
  · intro h
    have := h 32 (by decide) hfirst
    rw [hg] at this
    exact absurd this (by decide)
  · intro h
    exact (h 8 hfirst' 0).1 rfl

end Store

end Xv6Ext2
