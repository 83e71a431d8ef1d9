import Xv6Ext2.Balloc

/-!
# Inodes on disk and in memory

The inode layer of `kernel/fs.c`: `iget` finds or recycles an entry of the inode
table, `ilock` fills the entry from its record on disk, and `iupdate` copies the
entry back to the record.

`ilock` and `iupdate` agree on where a record is.  They do not agree on what it
holds: the number of address bytes that `iupdate` copies is `sizeof` a pointer,
so two of the fifteen addresses reach the disk.

## Main definitions

* `iget`, `idup`, `ilock`, `rootilock`, `iunlock`, `iupdate` — the source
  functions.
* `Fs.recBlock`, `recOff`, `Fs.record`, `Fs.dinode` — where `ilock` and `iupdate`
  find the record of an inode number, and what is there.
* `ReadsBack` — an inode is what a recycled entry is filled with.

## Main results

* `iget_cases`, `ilock_ok`, `iupdate_ok` — what the functions do.
* `iupdate_ilock_iff` — **an inode reads back after `iupdate`** exactly when the
  addresses that are not copied were on disk already.
-/

namespace Xv6Ext2

open Bytes Function

variable {σ β : Type} [BlockLayer σ β]

/-! ### The source functions -/

/-- The state with the inode at `ip` replaced. -/
def Fs.setItable (s : Fs σ) (ip : Fin NINODE) (i : Inode) : Fs σ :=
  { s with itable := update s.itable ip i }

/-- The fields of the inode at `ip`. -/
def getInode (ip : Fin NINODE) : FsM σ Inode := fun s => .ok (s.itable ip, s)

/-- Change the fields of the inode at `ip`. -/
def setInode (ip : Fin NINODE) (f : Inode → Inode) : FsM σ Unit := fun s =>
  .ok ((), s.setItable ip (f (s.itable ip)))

/-- Find the inode with number `inum` on device `dev` and return the in-memory
copy.  Does not lock the inode and does not read it from disk. -/
def iget (dev inum : UInt32) : FsM σ (Fin NINODE) := do
  let s ← get
  match (List.finRange NINODE).find? fun i =>
      0 < (s.itable i).ref ∧ (s.itable i).dev = dev ∧ (s.itable i).inum = inum with
  | some ip => do
    setInode ip fun i => { i with ref := i.ref + 1 }
    return ip
  | none =>
    match (List.finRange NINODE).find? fun i => (s.itable i).ref = 0 with
    | none => panic "iget: no inodes"
    | some ip => do
      setInode ip fun i => { i with dev := dev, inum := inum, ref := 1, valid := false }
      return ip

/-- Increment the reference count. -/
def idup (ip : Fin NINODE) : FsM σ (Fin NINODE) := do
  setInode ip fun i => { i with ref := i.ref + 1 }
  return ip

/-- The type that `ilock` and `rootilock` make of a mode. -/
def typeOfMode (m : UInt16) : InodeType :=
  if m &&& ext2FileModeMask = ext2TDir ∨ m = 1 then .dir else .file

/-- The assignments by which `ilock` and `rootilock` fill an inode. -/
def fillInode (din : Ext2Dinode) (i : Inode) : Inode :=
  { i with
    type := typeOfMode din.iMode, major := 0, minor := 0, nlink := din.iLinksCount.toInt16,
    size := din.iSize, addrs := din.iBlock, valid := true }

/-- Lock the inode and read it from disk if necessary.  The record index is
computed in `int`, so for the number 0 and for numbers above `2 ^ 31` it is
negative. -/
def ilock (ip : Fin NINODE) : FsM σ Unit := do
  let i ← getInode ip
  if i.ref < 1 then panic "ilock"
  else if i.locked then throw .deadlock
  else do
    setInode ip fun i => { i with locked := true }
    if i.valid then return ()
    else do
      let offset := cInt (i.inum - 1)
      let group ← readGroupDesc i.dev
      let bno := group.inodeTable + UInt32.ofInt (offset.tdiv (BSIZE / INODESIZE))
      let bp1 ← bread i.dev bno
      let d ← bdata bp1
      if offset.tmod (BSIZE / INODESIZE) < 0 then throw .fault
      else do
        let o := (offset.tmod (BSIZE / INODESIZE)).toNat * INODESIZE
        brelse bp1
        setInode ip (fillInode (Ext2Dinode.decode fun x => d.byte (o + x)))

/-- `rootilock`: the same for the root inode, whose record is the second of the
table, and without taking the lock. -/
def rootilock (ip : Fin NINODE) : FsM σ Unit := do
  let i ← getInode ip
  if i.ref < 1 then panic "ilock"
  else if i.valid then return ()
  else do
    let group ← readGroupDesc i.dev
    let bp ← bread i.dev group.inodeTable
    let d ← bdata bp
    brelse bp
    setInode ip (fillInode (Ext2Dinode.decode fun x => d.byte (INODESIZE + x)))

/-- Unlock the inode. -/
def iunlock (ip : Fin NINODE) : FsM σ Unit := do
  let i ← getInode ip
  if i.locked = false ∨ i.ref < 1 then panic "iunlock"
  else setInode ip fun i => { i with locked := false }

/-- The record that `iupdate` writes for an in-memory inode over the record
`din`.  The mode is left alone when the type is neither `T_DIR` nor `T_FILE`, and
`sizeof(ad)` bytes of the addresses are copied, `ad` being a pointer. -/
def updateDinode (i : Inode) (din : Ext2Dinode) : Ext2Dinode :=
  { din with
    iMode := match i.type with
      | .dir => ext2TDir
      | .file => ext2TFile
      | _ => din.iMode
    iLinksCount := i.nlink.toUInt16, iSize := i.size, iDtime := 0, iFaddr := 0, iFileAcl := 0,
    iFlags := 0, iGeneration := 0, iGid := 0, iMtime := 0, iUid := 0, iAtime := 0,
    iBlock := fun k => if 4 * (k.val + 1) ≤ sizeofPtr then i.addrs k else din.iBlock k }

/-- Copy a modified in-memory inode to disk. -/
def iupdate (ip : Fin NINODE) : FsM σ Unit := do
  let i ← getInode ip
  let gdes ← readGroupDesc i.dev
  let bno := gdes.inodeTable + (i.inum - 1) / UInt32.ofNat (BSIZE / INODESIZE)
  let iindex := (i.inum - 1).toNat % (BSIZE / INODESIZE)
  let bp ← bread i.dev bno
  let d ← bdata bp
  let din := Ext2Dinode.decode fun x => d.byte (iindex * INODESIZE + x)
  bstore bp (d.put (iindex * INODESIZE) sizeofDinode (updateDinode i din).encode)
  bwrite bp
  brelse bp

/-! ### The table of inodes -/

@[simp] theorem Fs.blk_setItable (s : Fs σ) (ip : Fin NINODE) (i : Inode) :
    (s.setItable ip i).blk = s.blk := rfl

@[simp] theorem Fs.itable_setItable (s : Fs σ) (ip : Fin NINODE) (i : Inode) :
    (s.setItable ip i).itable = update s.itable ip i := rfl

@[simp] theorem Fs.setItable_setItable (s : Fs σ) (ip : Fin NINODE) (i j : Inode) :
    (s.setItable ip i).setItable ip j = s.setItable ip j := by
  simp only [Fs.setItable, update_idem]

theorem getInode_apply (s : Fs σ) (ip : Fin NINODE) : getInode ip s = .ok (s.itable ip, s) := rfl

theorem setInode_apply (s : Fs σ) (ip : Fin NINODE) (f : Inode → Inode) :
    setInode ip f s = .ok ((), s.setItable ip (f (s.itable ip))) := rfl

/-- **What `iget` does**: it takes one more reference to the entry that holds the
inode already, or recycles an entry without references. -/
theorem iget_cases {s s' : Fs σ} {dev inum : UInt32} {ip : Fin NINODE}
    (h : iget dev inum s = .ok (ip, s')) :
    (0 < (s.itable ip).ref ∧ (s.itable ip).dev = dev ∧ (s.itable ip).inum = inum ∧
      s' = s.setItable ip { s.itable ip with ref := (s.itable ip).ref + 1 }) ∨
    ((s.itable ip).ref = 0 ∧
      s' = s.setItable ip
        { s.itable ip with dev := dev, inum := inum, ref := 1, valid := false }) := by
  unfold iget at h
  rw [Prog.bind_of_ok (Prog.get_apply _)] at h
  rcases hf : (List.finRange NINODE).find? fun i =>
      0 < (s.itable i).ref ∧ (s.itable i).dev = dev ∧ (s.itable i).inum = inum with _ | i
  · rw [hf] at h
    rcases he : (List.finRange NINODE).find? fun i => (s.itable i).ref = 0 with _ | i
    · rw [he] at h
      cases h
    · rw [he] at h
      cases h
      exact Or.inr ⟨by simpa using List.find?_some he, rfl⟩
  · rw [hf] at h
    cases h
    have := List.find?_some hf
    rw [decide_eq_true_eq] at this
    exact Or.inl ⟨this.1, this.2.1, this.2.2, rfl⟩

/-- What `iget` leaves: the blocks are as before and the entry has the number. -/
theorem iget_spec {t t' : Fs σ} {dev inum : UInt32} {ip : Fin NINODE}
    (h : iget dev inum t = .ok (ip, t')) :
    t'.blk = t.blk ∧ (t'.itable ip).dev = dev ∧ (t'.itable ip).inum = inum ∧
      1 ≤ (t'.itable ip).ref := by
  rcases iget_cases h with ⟨hpos, hdev, hnum, rfl⟩ | ⟨-, rfl⟩
  · refine ⟨rfl, ?_, ?_, ?_⟩ <;> rw [Fs.itable_setItable, update_self]
    · exact hdev
    · exact hnum
    · exact Int.add_le_add_right (Int.le_of_lt hpos) 1
  · refine ⟨rfl, ?_, ?_, ?_⟩ <;> rw [Fs.itable_setItable, update_self]

/-- `iget` touches no other entry, and no lock. -/
theorem iget_frame {s t : Fs σ} {dev inum : UInt32} {ip : Fin NINODE}
    (h : iget dev inum s = .ok (ip, t)) :
    (∀ ip', ip' ≠ ip → t.itable ip' = s.itable ip') ∧
      (t.itable ip).locked = (s.itable ip).locked ∧
        (t.itable ip).ref = (s.itable ip).ref + 1 := by
  rcases iget_cases h with ⟨-, -, -, rfl⟩ | ⟨href, rfl⟩ <;>
    rw [Fs.itable_setItable, update_self]
  · exact ⟨fun ip' hne => update_of_ne hne _ _, rfl, rfl⟩
  · exact ⟨fun ip' hne => update_of_ne hne _ _, rfl, by rw [href]; rfl⟩

/-- `iget` returns when some entry holds the inode already or has no references. -/
theorem iget_returns_iff {s : Fs σ} {dev inum : UInt32} :
    (∃ ip s', iget dev inum s = .ok (ip, s')) ↔ ∃ i, (s.itable i).ref = 0 ∨
      (0 < (s.itable i).ref ∧ (s.itable i).dev = dev ∧ (s.itable i).inum = inum) := by
  constructor
  · rintro ⟨ip, s', h⟩
    rcases iget_cases h with ⟨href, hdev, hinum, -⟩ | ⟨href, -⟩
    · exact ⟨ip, Or.inr ⟨href, hdev, hinum⟩⟩
    · exact ⟨ip, Or.inl href⟩
  · rintro ⟨i, hi⟩
    unfold iget
    rw [Prog.bind_of_ok (Prog.get_apply _)]
    rcases hf : (List.finRange NINODE).find? fun i =>
        0 < (s.itable i).ref ∧ (s.itable i).dev = dev ∧ (s.itable i).inum = inum with _ | j
    · rcases he : (List.finRange NINODE).find? fun i => (s.itable i).ref = 0 with _ | j
      · rw [List.find?_eq_none] at hf he
        rcases hi with h0 | hhit
        · exact absurd (decide_eq_true h0) (he i (List.mem_finRange i))
        · exact absurd (decide_eq_true hhit) (hf i (List.mem_finRange i))
      · exact ⟨j, _, rfl⟩
    · exact ⟨j, _, rfl⟩

/-! ### Where a record is -/

section Store

variable {s : Fs Store}

/-- The block of the record of `inum`, as `iupdate` and `ilock` compute it. -/
def Fs.recBlock (s : Fs Store) (inum : UInt32) : UInt32 :=
  s.gdesc.inodeTable + UInt32.ofNat ((inum - 1).toNat / 8)

/-- The offset of the record of `inum` in its block. -/
def recOff (inum : UInt32) : ℕ := (inum - 1).toNat % 8 * INODESIZE

/-- Byte `x` of the record of `inum`. -/
def Fs.record (s : Fs Store) (inum : UInt32) (x : ℕ) : UInt8 :=
  (s.blk.content (s.recBlock inum)).byte (recOff inum + x)

/-- The record of `inum`. -/
def Fs.dinode (s : Fs Store) (inum : UInt32) : Ext2Dinode := Ext2Dinode.decode (s.record inum)

/-- The inode numbers whose index `ilock` computes without a change of sign. -/
def ValidInum (inum : UInt32) : Prop := (inum - 1).toNat < 2 ^ 31

theorem recOff_le (inum : UInt32) : recOff inum + INODESIZE ≤ BSIZE := by
  unfold recOff
  simp only [INODESIZE, BSIZE]
  omega

/-- The block that `iupdate` computes. -/
theorem iupdate_bno (inum : UInt32) :
    s.gdesc.inodeTable + (inum - 1) / UInt32.ofNat (BSIZE / INODESIZE) = s.recBlock inum := by
  unfold Fs.recBlock
  congr 1
  apply UInt32.toNat_inj.mp
  have h8 : BSIZE / INODESIZE % 2 ^ 32 = 8 := by decide
  rw [UInt32.toNat_div, UInt32.toNat_ofNat', UInt32.toNat_ofNat', h8]
  have := (inum - 1).toNat_lt
  omega

/-- The block and the offset that `ilock` computes. -/
theorem ilock_bno {inum : UInt32} (h : ValidInum inum) :
    s.gdesc.inodeTable + UInt32.ofInt ((cInt (inum - 1)).tdiv (BSIZE / INODESIZE)) =
      s.recBlock inum ∧
    (cInt (inum - 1)).tmod (BSIZE / INODESIZE) = ((inum - 1).toNat % 8 : ℕ) := by
  have hc : cInt (inum - 1) = ((inum - 1).toNat : ℤ) := if_pos h
  have hdiv : (cInt (inum - 1)).tdiv (BSIZE / INODESIZE) = ((inum - 1).toNat / 8 : ℕ) := by
    rw [hc, Int.tdiv_eq_ediv_of_nonneg (by omega)]
    simp only [BSIZE, INODESIZE]
    omega
  have hmod : (cInt (inum - 1)).tmod (BSIZE / INODESIZE) = ((inum - 1).toNat % 8 : ℕ) := by
    rw [hc, Int.tmod_eq_emod_of_nonneg (by omega)]
    simp only [BSIZE, INODESIZE]
    omega
  refine ⟨?_, hmod⟩
  unfold Fs.recBlock
  rw [hdiv]
  congr 1
  apply UInt32.toNat_inj.mp
  simp [UInt32.ofInt]
  omega

/-- Locking an inode that is in memory. -/
theorem ilock_of_valid {s : Fs σ} {ip : Fin NINODE} (href : 1 ≤ (s.itable ip).ref)
    (hunlocked : (s.itable ip).locked = false) (hvalid : (s.itable ip).valid = true) :
    ilock ip s = .ok ((), s.setItable ip { s.itable ip with locked := true }) := by
  unfold ilock
  rw [Prog.bind_of_ok (getInode_apply s ip), if_neg (by omega), hunlocked, if_neg (by simp),
    Prog.bind_of_ok (setInode_apply s ip _), if_pos hvalid]
  rfl

/-- **What `ilock` does** to an unlocked entry that has not been read: it takes
the lock and fills the entry from its record. -/
theorem ilock_ok {ip : Fin NINODE} (hheld : s.blk.held = []) (href : 1 ≤ (s.itable ip).ref)
    (hlock : (s.itable ip).locked = false) (hvalid : (s.itable ip).valid = false)
    (hinum : ValidInum (s.itable ip).inum) :
    ilock ip s = .ok ((), s.setItable ip (fillInode (s.dinode (s.itable ip).inum)
      { s.itable ip with locked := true })) := by
  obtain ⟨hbno, hoff⟩ := ilock_bno (s := s) hinum
  have hnil : ∀ t : Fs Store, t.blk = s.blk → ∀ b, b ∉ t.blk.held := by
    intro t ht b
    rw [ht, hheld]
    exact List.not_mem_nil
  unfold ilock
  rw [Prog.bind_of_ok (getInode_apply s ip), if_neg (by omega), hlock, if_neg (by decide),
    Prog.bind_of_ok (setInode_apply s ip _), hvalid, if_neg (by decide),
    Prog.bind_of_ok (readGroupDesc_ok (by exact hnil _ rfl _))]
  show (bread _ (s.gdesc.inodeTable + _) >>= _) _ = _
  rw [hbno, Prog.bind_of_ok (bread_ok (by exact hnil _ rfl _)), Prog.bind_of_ok bdata_apply, hoff,
    if_neg (by omega), Prog.bind_of_ok (brelse_ok (by simp)), Fs.release_hold, setInode_apply]
  simp only [Fs.setItable, update_self, update_idem]
  rfl

/-- **What `iupdate` does**: the first `sizeofDinode` bytes of the record are
those of the updated one. -/
theorem iupdate_ok {ip : Fin NINODE} (hheld : s.blk.held = []) :
    iupdate ip s = .ok ((), s.write (s.recBlock (s.itable ip).inum)
      ((s.blk.content (s.recBlock (s.itable ip).inum)).put (recOff (s.itable ip).inum)
        sizeofDinode (updateDinode (s.itable ip) (s.dinode (s.itable ip).inum)).encode)) := by
  have hnil : ∀ b, b ∉ s.blk.held := by
    rw [hheld]
    exact fun b => List.not_mem_nil
  unfold iupdate
  rw [Prog.bind_of_ok (getInode_apply s ip), Prog.bind_of_ok (readGroupDesc_ok (hnil _)),
    iupdate_bno, Prog.bind_of_ok (bread_ok (hnil _)), Prog.bind_of_ok bdata_apply,
    Prog.bind_of_ok (bstore_apply _), Prog.bind_of_ok (bwrite_ok (by simp)),
    brelse_ok (by simp), Fs.release_write_hold]
  rfl

/-- Record numbers are told apart by their block and their offset. -/
theorem recOff_ne {i j : UInt32} (hne : i ≠ j) (hblk : s.recBlock i = s.recBlock j) :
    recOff i + INODESIZE ≤ recOff j ∨ recOff j + INODESIZE ≤ recOff i := by
  have hdiv : (i - 1).toNat / 8 = (j - 1).toNat / 8 := by
    have := congrArg UInt32.toNat ((UInt32.add_right_inj _).mp hblk)
    rw [UInt32.toNat_ofNat', UInt32.toNat_ofNat'] at this
    have := (i - 1).toNat_lt
    have := (j - 1).toNat_lt
    omega
  have hsub : (i - 1).toNat ≠ (j - 1).toNat := by
    intro h
    have := congrArg (· + 1) (UInt32.toNat_inj.mp h)
    simp only [UInt32.sub_add_cancel] at this
    exact hne this
  unfold recOff
  simp only [INODESIZE]
  omega

theorem recBlock_of_gdesc {s' : Fs Store} (h : s'.gdesc = s.gdesc) (inum : UInt32) :
    s'.recBlock inum = s.recBlock inum := by
  unfold Fs.recBlock
  rw [h]

/-- The records after a write of `n` bytes over the start of one of them. -/
theorem record_write {i : UInt32} {n : ℕ} {f : ℕ → UInt8} (hn : n ≤ INODESIZE)
    (h2 : s.recBlock i ≠ 2) (j : UInt32) {x : ℕ} (hx : x < INODESIZE) :
    (s.write (s.recBlock i) ((s.blk.content (s.recBlock i)).put (recOff i) n f)).record j x =
      if j = i ∧ x < n then f x else s.record j x := by
  have hle := recOff_le i
  unfold Fs.record
  rw [recBlock_of_gdesc (gdesc_write h2 _), Fs.content_write]
  by_cases hji : j = i
  · subst hji
    rw [update_self, Block.byte_put _ _ (by omega)]
    by_cases hxn : x < n
    · rw [if_pos (by omega), if_pos ⟨rfl, hxn⟩, Nat.add_sub_cancel_left]
    · rw [if_neg (by omega), if_neg (by omega)]
  · rw [if_neg (fun h => hji h.1)]
    by_cases hb : s.recBlock j = s.recBlock i
    · have := recOff_ne hji hb
      rw [hb, update_self, Block.byte_put _ _ (by omega), if_neg (by omega)]
    · rw [update_of_ne hb]

/-! ### Reading an inode back after `iupdate` -/

/-- An entry of the table recycled for the inode `i` while the blocks are those
of `s'`, and then locked, holds the fields of `i` that live on disk. -/
def ReadsBack (s' : Fs Store) (i : Inode) : Prop :=
  ∀ t ip t', t.blk = s'.blk → iget i.dev i.inum t = .ok (ip, t') →
    (t'.itable ip).valid = false → (t'.itable ip).locked = false →
    ∃ t'', ilock ip t' = .ok ((), t'') ∧ (t''.itable ip).type = i.type ∧
      (t''.itable ip).nlink = i.nlink ∧ (t''.itable ip).size = i.size ∧
      (t''.itable ip).addrs = i.addrs

/-- Reading back comes down to the record on disk. -/
theorem readsBack_iff {s' : Fs Store} {i : Inode} (hheld : s'.blk.held = [])
    (hinum : ValidInum i.inum) :
    ReadsBack s' i ↔
      typeOfMode (s'.dinode i.inum).iMode = i.type ∧
      (s'.dinode i.inum).iLinksCount.toInt16 = i.nlink ∧
      (s'.dinode i.inum).iSize = i.size ∧ (s'.dinode i.inum).iBlock = i.addrs := by
  -- an entry just recycled is one that `ilock` fills from the record
  have hfill : ∀ t ip t', t.blk = s'.blk → iget i.dev i.inum t = .ok (ip, t') →
      (t'.itable ip).valid = false → (t'.itable ip).locked = false →
      ilock ip t' = .ok ((), t'.setItable ip (fillInode (s'.dinode i.inum)
        { t'.itable ip with locked := true })) := by
    intro t ip t' hblk hget hvalid hlock
    obtain ⟨hb, -, hnum, href⟩ := iget_spec hget
    have hd : t'.dinode i.inum = s'.dinode i.inum := by
      unfold Fs.dinode Fs.record Fs.recBlock Fs.gdesc
      rw [hb, hblk]
    rw [ilock_ok (by rw [hb, hblk, hheld]) href hlock hvalid (by rw [hnum]; exact hinum), hnum, hd]
  constructor
  · intro h
    -- the empty table has an entry to recycle
    let t : Fs Store := { s' with itable := fun _ => Inode.unused }
    let j : Inode := { Inode.unused with dev := i.dev, inum := i.inum, ref := 1, valid := false }
    have hget : iget i.dev i.inum t = .ok (0, t.setItable 0 j) := rfl
    have hj : (t.setItable 0 j).itable 0 = j := by rw [Fs.itable_setItable, update_self]
    obtain ⟨t'', hlock, hres⟩ := h t 0 _ rfl hget (by rw [hj]) (by rw [hj]; rfl)
    rw [hfill t 0 _ rfl hget (by rw [hj]) (by rw [hj]; rfl)] at hlock
    cases hlock
    simpa [fillInode] using hres
  · rintro ⟨htype, hlinks, hsize, haddrs⟩ t ip t' hblk hget hvalid hlock
    refine ⟨_, hfill t ip t' hblk hget hvalid hlock, ?_⟩
    simp [fillInode, htype, hlinks, hsize, haddrs]

/-- The record that `iupdate` leaves, and the other records. -/
theorem iupdate_record {s' : Fs Store} {ip : Fin NINODE} (hheld : s.blk.held = [])
    (h2 : s.recBlock (s.itable ip).inum ≠ 2) (h : iupdate ip s = .ok ((), s')) :
    s'.blk.held = [] ∧
    s'.dinode (s.itable ip).inum =
      updateDinode (s.itable ip) (s.dinode (s.itable ip).inum) ∧
    ∀ j, j ≠ (s.itable ip).inum → ∀ x < INODESIZE, s'.record j x = s.record j x := by
  rw [iupdate_ok hheld] at h
  cases h
  have hrec := fun (j : UInt32) (x : ℕ) => record_write (s := s) (i := (s.itable ip).inum)
    (f := (updateDinode (s.itable ip) (s.dinode (s.itable ip).inum)).encode)
    (show sizeofDinode ≤ INODESIZE by decide) h2 j (x := x)
  refine ⟨hheld, ?_, fun j hj x hx => ?_⟩
  · refine Eq.trans (Ext2Dinode.decode_congr fun x hx => ?_) (Ext2Dinode.decode_encode _)
    rw [hrec _ x (by simp only [sizeofDinode, INODESIZE] at *; omega), if_pos ⟨rfl, hx⟩]
  · rw [hrec j x hx, if_neg (fun h => hj h.1)]

/-- The addresses that `iupdate` does not copy. -/
theorem updateDinode_iBlock_eq {i : Inode} {d : Ext2Dinode} :
    (updateDinode i d).iBlock = i.addrs ↔ ∀ k : Fin 15, 2 ≤ k.val → d.iBlock k = i.addrs k := by
  simp only [updateDinode, funext_iff, sizeofPtr]
  constructor
  · intro h k hk
    have := h k
    rwa [if_neg (by omega)] at this
  · intro h k
    split
    · rfl
    · exact h k (by omega)

/-- **An inode reads back after `iupdate`** exactly when the thirteen addresses
that are not copied were in the record before; the other records are as they
were. -/
theorem iupdate_ilock_iff {s' : Fs Store} {ip : Fin NINODE} (hheld : s.blk.held = [])
    (hinum : ValidInum (s.itable ip).inum) (h2 : s.recBlock (s.itable ip).inum ≠ 2)
    (htype : (s.itable ip).type = .dir ∨ (s.itable ip).type = .file)
    (h : iupdate ip s = .ok ((), s')) :
    (ReadsBack s' (s.itable ip) ∧
      ∀ j, j ≠ (s.itable ip).inum → ∀ x < INODESIZE, s'.record j x = s.record j x) ↔
    ∀ k : Fin 15, 2 ≤ k.val →
      (s.dinode (s.itable ip).inum).iBlock k = (s.itable ip).addrs k := by
  obtain ⟨hheld', hd, hother⟩ := iupdate_record hheld h2 h
  have htyp : typeOfMode (updateDinode (s.itable ip) (s.dinode (s.itable ip).inum)).iMode
      = (s.itable ip).type := by
    rcases htype with ht | ht <;> simp only [updateDinode, ht] <;> decide
  rw [readsBack_iff hheld' hinum, hd, updateDinode_iBlock_eq]
  constructor
  · rintro ⟨⟨-, -, -, hblk⟩, -⟩
    exact hblk
  · intro hblk
    exact ⟨⟨htyp, Int16.toInt16_toUInt16 _, rfl, hblk⟩, hother⟩

/-- The empty image with one entry of the inode table in use: inode 12, a file of
one link and 100 bytes whose first addresses are listed. -/
def openImage (addrs : List UInt32) : Fs Store :=
  (imageOf []).setItable 0
    ⟨1, 12, 1, true, true, .file, 0, 0, 1, 100, fun k => addrs.getD k 0⟩

theorem iupdate_openImage (addrs : List UInt32) :
    ∃ s', iupdate 0 (openImage addrs) = .ok ((), s') :=
  ⟨_, iupdate_ok rfl⟩

theorem openImage_iBlock (addrs : List UInt32) (k : Fin 15) :
    ((openImage addrs).dinode ((openImage addrs).itable 0).inum).iBlock k = 0 := by
  have hblk : (openImage addrs).blk.content ((openImage addrs).recBlock 12) = Block.zero := rfl
  refine le32_zero fun j hj => ?_
  show ((openImage addrs).blk.content ((openImage addrs).recBlock 12)).byte _ = 0
  rw [hblk, Block.byte_zero]

/-- A file with one direct block reads back. -/
theorem iupdate_ilock_iff_openImage : ∃ s', iupdate 0 (openImage [9]) = .ok ((), s') ∧
    ReadsBack s' ((openImage [9]).itable 0) ∧
    ∀ j, j ≠ 12 → ∀ x < INODESIZE, s'.record j x = (openImage [9]).record j x := by
  obtain ⟨s', hs'⟩ := iupdate_openImage [9]
  refine ⟨s', hs', (iupdate_ilock_iff rfl (by unfold ValidInum; decide) (by decide)
    (Or.inr rfl) hs').mpr fun k hk => ?_⟩
  rw [openImage_iBlock]
  revert k
  decide

/-- **A file with a third direct block does not read back.** -/
theorem iupdate_loses_addrs : ∃ s', iupdate 0 (openImage [8, 9, 10]) = .ok ((), s') ∧
    ¬ReadsBack s' ((openImage [8, 9, 10]).itable 0) := by
  obtain ⟨s', hs'⟩ := iupdate_openImage [8, 9, 10]
  obtain ⟨hheld, hd, -⟩ := iupdate_record rfl (by decide) hs'
  refine ⟨s', hs', fun hread => ?_⟩
  have hblk := ((readsBack_iff hheld (by unfold ValidInum; decide)).mp hread).2.2.2
  rw [hd, updateDinode_iBlock_eq] at hblk
  have h2 := hblk 2 (by decide)
  rw [openImage_iBlock] at h2
  exact absurd h2 (by decide)

end Store

end Xv6Ext2
