import Xv6Ext2.Unlink

/-!
# System calls on paths

The parts of `kernel/sysfile.c`, `kernel/exec.c` and of the listing functions of
`kernel/fs.c` that work on the file system only.  The current directory of the calling
process is an argument, and so are the outcomes of memory operations.

## Main definitions

* `create` — make an inode and enter it in its directory.
* `sysLink`, `sysMkdir`, `openInode` — `sys_link`, `sys_mkdir`, and `sys_open` up to
  where it has an inode.
* `loadseg`, `execImage` — `exec` up to where it has read the file.
* `printRootFiles`, `printCwdFiles`, `printCatFile` — the listing functions up to
  their call of `exit`.
-/

namespace Xv6Ext2

open Bytes CString

variable {σ β : Type} [BlockLayer σ β]

/-! ### Creating and linking -/

/-- Create `.` and `..` entries: `dirlink(ip, ".", ip->inum) < 0 ||
dirlink(ip, "..", dp->inum) < 0`, negated. -/
def dotLinks (fuel : ℕ) (dp ip : Fin NINODE) : FsM σ Bool := do
  let i ← getInode ip
  let r ← dirlink fuel ip (cstr [46]) i.inum
  if r < 0 then return false
  else do
    let d ← getInode dp
    let r ← dirlink fuel ip (cstr [46, 46]) d.inum
    return decide (0 ≤ r)

/-- The calls of `dirlink` in `create`: have they all succeeded? -/
def createLinks (fuel : ℕ) (dp ip : Fin NINODE) (name : List UInt8) (type : InodeType) :
    FsM σ Bool := do
  if type = .dir then do
    if (← dotLinks fuel dp ip) = false then return false
    else do
      let i ← getInode ip
      let r ← dirlink fuel dp (cstr name) i.inum
      return decide (0 ≤ r)
  else do
    let i ← getInode ip
    let r ← dirlink fuel dp (cstr name) i.inum
    return decide (0 ≤ r)

/-- `ip->nlink++; iupdate(ip);` -/
def addLink (ip : Fin NINODE) : FsM σ Unit := do
  setInode ip fun i => { i with nlink := i.nlink + 1 }
  iupdate ip

/-- `if(type == T_DIR){ dp->nlink++; iupdate(dp); }` -/
def addParent (dp : Fin NINODE) (type : InodeType) : FsM σ Unit :=
  if type = .dir then addLink dp else return ()

/-- Create an inode and enter it in its directory.  The inode is returned locked. -/
def create (fuel : ℕ) (cwd : Option (Fin NINODE)) (path : List UInt8) (type : InodeType)
    (major minor : Int16) : FsM σ (Option (Fin NINODE)) := do
  match ← nameiparent fuel cwd path with
  | none => return none
  | some (dp, name) => do
    ilock dp
    match ← dirlookup fuel dp (cstr name) with
    | some (ip, _) => do
      iunlockput dp
      ilock ip
      let i ← getInode ip
      if type = .file ∧ (i.type = .file ∨ i.type = .device) then return some ip
      else do
        iunlockput ip
        return none
    | none => do
      let d ← getInode dp
      -- `ialloc` panics where `create` expects it to return 0
      let ip ← ialloc d.dev type
      ilock ip
      setInode ip fun i => { i with major := major, minor := minor, nlink := 1 }
      iupdate ip
      if (← createLinks fuel dp ip name type) = true then do
        addParent dp type
        iunlockput dp
        return some ip
      else do
        -- something went wrong: de-allocate ip
        setInode ip fun i => { i with nlink := 0 }
        iupdate ip
        iunlockput ip
        iunlockput dp
        return none

/-- The end of `sys_link` when it fails. -/
def linkBad (ip : Fin NINODE) : FsM σ ℤ := do
  ilock ip
  dropLink ip
  iunlockput ip
  return -1

/-- Create the path `new` as a link to the same inode as `old`. -/
def sysLink (fuel : ℕ) (cwd : Option (Fin NINODE)) (old new : List UInt8) : FsM σ ℤ := do
  match ← namei fuel cwd old with
  | none => return -1
  | some ip => do
    ilock ip
    let i ← getInode ip
    if i.type = .dir then do
      iunlockput ip
      return -1
    else do
      addLink ip
      iunlock ip
      match ← nameiparent fuel cwd new with
      | none => linkBad ip
      | some (dp, name) => do
        ilock dp
        let d ← getInode dp
        let i ← getInode ip
        if d.dev ≠ i.dev then do
          iunlockput dp
          linkBad ip
        else do
          let r ← dirlink fuel dp (cstr name) i.inum
          if r < 0 then do
            iunlockput dp
            linkBad ip
          else do
            iunlockput dp
            iput ip
            return 0

/-- `sys_mkdir` -/
def sysMkdir (fuel : ℕ) (cwd : Option (Fin NINODE)) (path : List UInt8) : FsM σ ℤ := do
  match ← create fuel cwd path .dir 0 0 with
  | none => return -1
  | some ip => do
    iunlockput ip
    return 0

/-- The largest major device number. -/
abbrev NDEV : ℕ := 10

/-- Is the bit of `flag` set in the mode of `sys_open`? -/
def hasFlag (omode flag : UInt32) : Bool := omode &&& flag != 0

abbrev O_WRONLY : UInt32 := 0x001
abbrev O_RDWR : UInt32 := 0x002
abbrev O_CREATE : UInt32 := 0x200
abbrev O_TRUNC : UInt32 := 0x400

/-- The inode that `sys_open` finds or makes, locked. -/
def openPath (fuel : ℕ) (cwd : Option (Fin NINODE)) (path : List UInt8) (omode : UInt32) :
    FsM σ (Option (Fin NINODE)) := do
  if hasFlag omode O_CREATE then create fuel cwd path .file 0 0
  else
    match ← namei fuel cwd path with
    | none => return none
    | some ip => do
      ilock ip
      let i ← getInode ip
      if i.type = .dir ∧ omode ≠ 0 then do
        iunlockput ip
        return none
      else return some ip

/-- `sys_open` up to where it has an inode, locked. -/
def openInode (fuel : ℕ) (cwd : Option (Fin NINODE)) (path : List UInt8) (omode : UInt32) :
    FsM σ (Option (Fin NINODE)) := do
  match ← openPath fuel cwd path omode with
  | none => return none
  | some ip => do
    let i ← getInode ip
    if i.type = .device ∧ (i.major < 0 ∨ (NDEV : ℤ) ≤ i.major.toInt) then do
      iunlockput ip
      return none
    else return some ip

/-- The inode that `sys_chdir` changes to. -/
def chdirInode (fuel : ℕ) (cwd : Option (Fin NINODE)) (path : List UInt8) :
    FsM σ (Option (Fin NINODE)) := do
  match ← namei fuel cwd path with
  | none => return none
  | some ip => do
    ilock ip
    let i ← getInode ip
    if i.type ≠ .dir then do
      iunlockput ip
      return none
    else do
      iunlock ip
      return some ip

/-! ### Reading an executable -/

abbrev PGSIZE : ℕ := 4096

/-- The 64-bit word at offset `o`. -/
def le64 (f : ℕ → UInt8) (o : ℕ) : UInt64 :=
  UInt64.ofNat ((le32 f o).toNat + 2 ^ 32 * (le32 f (o + 4)).toNat)

theorem le64_congr {f g : ℕ → UInt8} {o p : ℕ} (h : ∀ k < 8, f (o + k) = g (p + k)) :
    le64 f o = le64 g p := by
  have hlow : le32 f o = le32 g p := le32_congr fun k hk => h k (by omega)
  have hhigh : le32 f (o + 4) = le32 g (p + 4) := le32_congr fun k hk => by
    rw [Nat.add_assoc, Nat.add_assoc]
    exact h (4 + k) (by omega)
  rw [le64, le64, hlow, hhigh]

/-- What `exec` learns from the memory functions: does `proc_pagetable` succeed, does
`uvmalloc` for the `i`-th program header, does `walkaddr` find the page of its segment at
an offset, and what comes of the stack and the arguments (their number, or -1). -/
structure ExecMem where
  pagetable : Bool
  alloc : ℕ → Bool
  mapped : ℕ → ℕ → Bool
  args : ℤ

/-- The loop of `loadseg`, at offset `i` of the segment. -/
def loadsegLoop (ip : Fin NINODE) (mapped : ℕ → Bool) (offset sz : UInt32) : ℕ → UInt32 → FsM σ Bool
  | 0, _ => throw .fuel
  | fuel + 1, i =>
    if i < sz then
      if mapped i.toNat = false then panic "loadseg: address should exist"
      else do
        let n := if sz - i < UInt32.ofNat PGSIZE then sz - i else UInt32.ofNat PGSIZE
        let r ← readi ip (offset + i) n
        if r.1 ≠ n.toNat then return false
        else loadsegLoop ip mapped offset sz fuel (i + UInt32.ofNat PGSIZE)
    else return true

/-- Load a program segment. -/
def loadseg (fuel : ℕ) (ip : Fin NINODE) (mapped : ℕ → Bool) (offset sz : UInt32) : FsM σ Bool :=
  loadsegLoop ip mapped offset sz fuel 0

/-- The loop of `exec` over the program headers, with `n` of them left. -/
def execLoop (fuel : ℕ) (ip : Fin NINODE) (mem : ExecMem) : ℕ → ℕ → UInt32 → FsM σ Bool
  | 0, _, _ => return true
  | n + 1, i, off => do
    let r ← readi ip off 56
    if r.1 ≠ 56 then return false
    else do
      let ph := cstr r.2
      if le32 ph 0 ≠ 1 then execLoop fuel ip mem n (i + 1) (off + 56)
      else if le64 ph 40 < le64 ph 32 ∨ le64 ph 16 + le64 ph 40 < le64 ph 16 ∨
          (le64 ph 16).toNat % PGSIZE ≠ 0 ∨ mem.alloc i = false then return false
      else do
        if (← loadseg fuel ip (mem.mapped i) (le64 ph 8).toUInt32 (le64 ph 32).toUInt32) = true
          then execLoop fuel ip mem n (i + 1) (off + 56)
        else return false

/-- The part of `exec` between `ilock(ip)` and `iunlockput(ip)`. -/
def execRead (fuel : ℕ) (ip : Fin NINODE) (mem : ExecMem) : FsM σ Bool := do
  let r ← readi ip 0 64
  if r.1 ≠ 64 then return false
  else do
    let elf := cstr r.2
    if le32 elf 0 ≠ 0x464C457F ∨ mem.pagetable = false then return false
    else execLoop fuel ip mem (le16 elf 56).toNat 0 (le64 elf 32).toUInt32

/-- `exec` up to where it has read the file: has the program been loaded?  What follows
works on memory only. -/
def execImage (fuel : ℕ) (cwd : Option (Fin NINODE)) (path : List UInt8) (mem : ExecMem) :
    FsM σ Bool := do
  match ← namei fuel cwd path with
  | none => return false
  | some ip => do
    ilock ip
    let loaded ← execRead fuel ip mem
    iunlockput ip
    return loaded

/-! ### Listing functions -/

/-- The loop of `print_root_files` and `print_cwd_files`: the records printed. -/
def printFilesLoop (dp : Fin NINODE) : ℕ → UInt32 → FsM σ (List Ext2Dirent)
  | 0, _ => throw .fuel
  | fuel + 1, off => do
    let i ← getInode dp
    if off < i.size then do
      let r ← readi dp off (UInt32.ofNat ext2DirentSize)
      if r.1 ≠ ext2DirentSize then panic "dirlookup read"
      else do
        let de := Ext2Dirent.decode (cstr r.2) 0
        let rest ← printFilesLoop dp fuel (off + de.recLen.toUInt32)
        if de.inode = 0 then return rest else return de :: rest
    else return []

/-- `print_root_files` up to its call of `exit`. -/
def printRootFiles (fuel : ℕ) : FsM σ (List Ext2Dirent) := do
  let dp ← iget ROOTDEV EXT2_ROOTINO
  ilock dp
  let lines ← printFilesLoop dp fuel 0
  iunlockput dp
  return lines

/-- `print_cwd_files` up to its call of `exit`.  It puts the current directory, to which
it has not taken a reference. -/
def printCwdFiles (fuel : ℕ) (cwd : Option (Fin NINODE)) : FsM σ (List Ext2Dirent) := do
  match cwd with
  | none => panic "ilock"
  | some dp => do
    ilock dp
    let lines ← printFilesLoop dp fuel 0
    iunlockput dp
    return lines

/-- `print_cat_file(name)` up to its call of `exit`: the bytes printed.  `name` is what
the kernel finds at the address it is given, if it can read there.  The reference that
`dirlookup` has taken is not dropped. -/
def printCatFile (fuel : ℕ) (cwd : Option (Fin NINODE)) (name : Option (ℕ → UInt8)) :
    FsM σ (List UInt8) := do
  match cwd, name with
  | some dp, some name => do
    match ← dirlookup fuel dp name with
    | none => throw .fault
    | some (fi, _) => do
      let i ← getInode fi
      let r ← readi fi 0 i.size
      return r.2
  | _, _ => throw .fault

end Xv6Ext2
