import Xv6Ext2.Disk
import Xv6Ext2.Lib.StateExcept

/-!
# The state of the file system and the block layer below it

The functions of `kernel/fs.c` work on three things: the superblock read at
mount time, the table of in-memory inodes, and disk blocks reached through the
buffer cache.  They are embedded as programs over a record of the three.

The block layer is a parameter.  The file system reaches it through `bread`,
`bwrite` and `brelse` and through the `data` array of a buffer it holds, so a
layer is anything with these operations.  Two layers are used: the buffer cache
of `kernel/bio.c` over a disk, and the *block store* of this file, in which a
block always holds what was last stored in a buffer for it.

Each function runs without another process in between, so a sleep lock that is
already taken is one the caller itself took, and waiting for it never ends.

## Main definitions

* `Err` — why a kernel function does not return.
* `BlockLayer` — the interface of `bio.c` as `fs.c` uses it.
* `Store` — the block store, with the blocks whose buffers are held.
* `Inode`, `Fs`, `FsM` — in-memory inodes, the state, and programs over it.
* `bread`, `bdata`, `bstore`, `bwrite`, `brelse` — the block operations in `FsM`.
* `readGroupDesc` — the opening of most functions: fetch the group descriptor.

## Main results

* `bread_ok`, `bwrite_ok`, `brelse_ok`, `readGroupDesc_ok` — what the operations
  do on the block store.
-/

namespace Xv6Ext2

/-- Why a kernel function does not return. -/
inductive Err
  /-- It calls `panic`. -/
  | panic (msg : String)
  /-- It waits for a sleep lock that it holds itself. -/
  | deadlock
  /-- It uses a null pointer or an index outside its array. -/
  | fault
  /-- A loop is still running after the given number of rounds. -/
  | fuel
  deriving DecidableEq, Repr

/-! ### Block layers -/

/-- What `fs.c` uses of the buffer cache: states `σ`, and buffer pointers `β`. -/
class BlockLayer (σ : Type) (β : outParam Type) where
  /-- Return a locked buffer with the contents of the block. -/
  bread : (dev blockno : UInt32) → σ → Except Err (β × σ)
  /-- The `data` array of a buffer. -/
  data : σ → β → Block
  /-- Store into the `data` array of a buffer. -/
  store : β → Block → σ → σ
  /-- Write a buffer to disk. -/
  bwrite : β → σ → Except Err σ
  /-- Release a buffer. -/
  brelse : β → σ → Except Err σ

/-- Block storage in which a block holds what was last stored for it.  `held`
lists the blocks whose buffers are locked. -/
structure Store where
  content : UInt32 → Block
  held : List UInt32

namespace Store

/-- Take the lock of a block's buffer. -/
def hold (t : Store) (b : UInt32) : Store := { t with held := b :: t.held }

/-- Drop the lock of a block's buffer. -/
def release (t : Store) (b : UInt32) : Store := { t with held := t.held.erase b }

/-- Replace the contents of a block. -/
def write (t : Store) (b : UInt32) (d : Block) : Store :=
  { t with content := Function.update t.content b d }

/-- The store with the given blocks, and zero bytes elsewhere. -/
def ofBlocks (blocks : List (UInt32 × Block)) : Store where
  content b := (blocks.lookup b).getD Block.zero
  held := []

end Store

/-- On the block store a buffer is named by its block.  There is one disk, which
`virtio_disk_rw` addresses by block number alone. -/
instance : BlockLayer Store UInt32 where
  bread _ b t := if b ∈ t.held then .error .deadlock else .ok (b, t.hold b)
  data t b := t.content b
  store b d t := t.write b d
  bwrite b t := if b ∈ t.held then .ok t else .error (.panic "bwrite")
  brelse b t := if b ∈ t.held then .ok (t.release b) else .error (.panic "brelse")

/-! ### In-memory inodes -/

/-- The `type` of an in-memory inode: 0, `T_DIR`, `T_FILE` and `T_DEVICE`. -/
inductive InodeType
  | none
  | dir
  | file
  | device
  deriving DecidableEq, Repr, Inhabited

/-- `struct inode`.  `locked` says whether the sleep lock is taken. -/
structure Inode where
  dev : UInt32
  inum : UInt32
  ref : ℤ
  locked : Bool
  valid : Bool
  type : InodeType
  major : Int16
  minor : Int16
  nlink : Int16
  size : UInt32
  addrs : Fin 15 → UInt32

/-- An unused entry of the inode table, as the kernel finds it at boot. -/
def Inode.unused : Inode :=
  ⟨0, 0, 0, false, false, .none, 0, 0, 0, 0, fun _ => 0⟩

/-! ### States and programs -/

/-- The state the functions of `fs.c` work on.  `junk` is what the array
`file_name` of `dirlookup`, which is not initialised, holds on entry. -/
structure Fs (σ : Type) where
  sb : Superblock
  itable : Fin NINODE → Inode
  blk : σ
  junk : List UInt8

/-- Programs of the file system. -/
abbrev FsM (σ α : Type) := Prog (Fs σ) Err α

variable {σ β : Type} [BlockLayer σ β]

/-- Lift an operation of the block layer. -/
def FsM.onBlk {α : Type} (f : σ → Except Err (α × σ)) : FsM σ α := fun s =>
  match f s.blk with
  | .ok (a, blk) => .ok (a, { s with blk := blk })
  | .error e => .error e

/-- Lift a computation that does not touch the state. -/
def FsM.ofExcept {α : Type} (x : Except Err α) : FsM σ α := fun s =>
  match x with
  | .ok a => .ok (a, s)
  | .error e => .error e

/-- `bread(dev, blockno)` -/
def bread (dev blockno : UInt32) : FsM σ β := FsM.onBlk (BlockLayer.bread dev blockno)

/-- `bp->data` -/
def bdata (bp : β) : FsM σ Block := fun s => .ok (BlockLayer.data s.blk bp, s)

/-- `memmove(bp->data, …)` -/
def bstore (bp : β) (d : Block) : FsM σ Unit := fun s =>
  .ok ((), { s with blk := BlockLayer.store bp d s.blk })

/-- `bwrite(bp)` -/
def bwrite (bp : β) : FsM σ Unit :=
  FsM.onBlk fun t => (BlockLayer.bwrite bp t).map ((), ·)

/-- `brelse(bp)` -/
def brelse (bp : β) : FsM σ Unit :=
  FsM.onBlk fun t => (BlockLayer.brelse bp t).map ((), ·)

/-- `panic(msg)` -/
def panic {α : Type} (msg : String) : FsM σ α := throw (.panic msg)

/-- `bp = bread(dev, 2); memmove(&gdesc, bp->data, sizeof(gdesc)); brelse(bp);` -/
def readGroupDesc (dev : UInt32) : FsM σ GroupDesc := do
  let bp ← bread dev 2
  let d ← bdata bp
  brelse bp
  return GroupDesc.decode d

/-! ### The operations on the block store -/

section Store

variable {s : Fs Store} {dev b : UInt32}

/-- The group descriptor of the image. -/
def Fs.gdesc (s : Fs Store) : GroupDesc := GroupDesc.decode (s.blk.content 2)

/-- The state with one more buffer held. -/
def Fs.hold (s : Fs Store) (b : UInt32) : Fs Store := { s with blk := s.blk.hold b }

/-- The state with a buffer released. -/
def Fs.release (s : Fs Store) (b : UInt32) : Fs Store := { s with blk := s.blk.release b }

/-- The state with the contents of a block replaced. -/
def Fs.write (s : Fs Store) (b : UInt32) (d : Block) : Fs Store :=
  { s with blk := s.blk.write b d }

@[simp] theorem Fs.content_hold : (s.hold b).blk.content = s.blk.content := rfl

@[simp] theorem Fs.held_hold : (s.hold b).blk.held = b :: s.blk.held := rfl

@[simp] theorem Fs.held_release : (s.release b).blk.held = s.blk.held.erase b := rfl

@[simp] theorem Fs.itable_write (d : Block) : (s.write b d).itable = s.itable := rfl

@[simp] theorem Fs.content_write (d : Block) :
    (s.write b d).blk.content = Function.update s.blk.content b d := rfl

@[simp] theorem Fs.held_write (d : Block) : (s.write b d).blk.held = s.blk.held := rfl

@[simp] theorem Fs.release_hold : (s.hold b).release b = s := by
  simp [Fs.hold, Fs.release, Store.hold, Store.release]

/-- Releasing a buffer after storing in it. -/
@[simp] theorem Fs.release_write_hold (d : Block) :
    ((s.hold b).write b d).release b = s.write b d := by
  simp [Fs.hold, Fs.release, Fs.write, Store.hold, Store.release, Store.write]

theorem bread_ok (h : b ∉ s.blk.held) : bread dev b s = .ok (b, s.hold b) := by
  simp [bread, FsM.onBlk, BlockLayer.bread, h, Fs.hold]

theorem bread_deadlock (h : b ∈ s.blk.held) : bread dev b s = .error .deadlock := by
  simp [bread, FsM.onBlk, BlockLayer.bread, h]

@[simp] theorem bdata_apply : bdata b s = .ok (s.blk.content b, s) := rfl

@[simp] theorem bstore_apply (d : Block) : bstore b d s = .ok ((), s.write b d) := rfl

theorem bwrite_ok (h : b ∈ s.blk.held) : bwrite b s = .ok ((), s) := by
  simp [bwrite, FsM.onBlk, BlockLayer.bwrite, h, Except.map]

theorem brelse_ok (h : b ∈ s.blk.held) : brelse b s = .ok ((), s.release b) := by
  simp [brelse, FsM.onBlk, BlockLayer.brelse, h, Except.map, Fs.release]

theorem bread_sat : Prog.Sat (bread dev b) s fun bp t => bp = b ∧ t = s.hold b := by
  intro bp t h
  by_cases hb : b ∈ s.blk.held
  · rw [bread_deadlock hb] at h
    cases h
  · rw [bread_ok hb] at h
    cases h
    exact ⟨rfl, rfl⟩

theorem bwrite_sat : Prog.Sat (bwrite b) s fun _ t => t = s := by
  intro u t h
  by_cases hb : b ∈ s.blk.held
  · rw [bwrite_ok hb] at h
    cases h
    rfl
  · simp [bwrite, FsM.onBlk, BlockLayer.bwrite, hb, Except.map] at h

theorem brelse_sat : Prog.Sat (brelse b) s fun _ t => t = s.release b := by
  intro u t h
  by_cases hb : b ∈ s.blk.held
  · rw [brelse_ok hb] at h
    cases h
    rfl
  · simp [brelse, FsM.onBlk, BlockLayer.brelse, hb, Except.map] at h

theorem readGroupDesc_ok (h : 2 ∉ s.blk.held) : readGroupDesc dev s = .ok (s.gdesc, s) := by
  unfold readGroupDesc
  rw [Prog.bind_of_ok (bread_ok h), Prog.bind_of_ok bdata_apply,
    Prog.bind_of_ok (brelse_ok (by simp)), Fs.release_hold]
  rfl

theorem readGroupDesc_sat : Prog.Sat (readGroupDesc dev) s fun g t => g = s.gdesc ∧ t = s := by
  intro g t h
  by_cases h2 : 2 ∈ s.blk.held
  · rw [readGroupDesc, Prog.bind_of_error (bread_deadlock h2)] at h
    cases h
  · rw [readGroupDesc_ok h2] at h
    cases h
    exact ⟨rfl, rfl⟩

end Store

end Xv6Ext2
