import Xv6Ext2.Vm.Free
import Xv6Ext2.Vm.Stack

/-!
# Loading a program

`exec` of `kernel/exec.c`, on physical memory and the file system: a new address space is built
from the program headers of a file, and takes the place of the old one when all has gone well.

The headers are bytes of the file, so nothing is known about them.  Each makes the address space
grow, or leaves it as it is, and its segment is read into pages that are there: the sizes have been
compared, and the memory of the machine is far smaller than the numbers that could overflow.

## Main definitions

* `XM`, `onPhys`, `onFiles` — programs over physical memory and the file system.
* `flags2perm`, `loadseg`, `loadHeader`, `loadHeaders`, `execLoad`, `exec` — the source functions.
* `Source` — what reading a file gives.
* `Growing` — an address space that is being built.

## Main results

* `loadseg_yields`, `loadHeader_yields` — a segment, and a program header.
* `loadHeaders_yields` — the loop over the program headers.
* `exec_yields` — **what `exec` does**: the process is as before, or it has a new address space.
-/

namespace Xv6Ext2.Vm

open Bytes CString Memory Prog

/-! ### Programs over memory and files -/

/-- Why a program stops: in the memory of the machine, or in the file system. -/
inductive Stop
  | memory (e : Err)
  | files (e : Err)
  deriving DecidableEq

/-- Programs over physical memory and the file system. -/
abbrev XM (σ α : Type) := Prog (Phys × Fs σ) Stop α

variable {σ β : Type} [BlockLayer σ β] {α : Type}

/-- Run a program on physical memory. -/
def onPhys (m : PM α) : XM σ α := fun s =>
  match m s.1 with
  | .ok (a, t) => .ok (a, (t, s.2))
  | .error e => .error (.memory e)

/-- Run a program of the file system. -/
def onFiles (m : FsM σ α) : XM σ α := fun s =>
  match m s.2 with
  | .ok (a, f) => .ok (a, (s.1, f))
  | .error e => .error (.files e)

/-! ### The source functions -/

abbrev ELF_MAGIC : UInt32 := 0x464C457F
abbrev ELF_PROG_LOAD : UInt32 := 1

/-- `struct elfhdr`, as far as `exec` reads it. -/
structure Elfhdr where
  magic : UInt32
  entry : ℕ
  phoff : ℕ
  phnum : ℕ

/-- `struct proghdr`, as far as `exec` reads it. -/
structure Proghdr where
  type : UInt32
  flags : UInt32
  off : ℕ
  vaddr : ℕ
  filesz : ℕ
  memsz : ℕ

/-- The file header at the start of a piece of memory. -/
def Elfhdr.decode (f : ℕ → UInt8) : Elfhdr where
  magic := le32 f 0
  entry := (le64 f 24).toNat
  phoff := (le64 f 32).toNat
  phnum := (le16 f 56).toNat

/-- The program header at an offset. -/
def Proghdr.decode (f : ℕ → UInt8) (o : ℕ) : Proghdr where
  type := le32 f o
  flags := le32 f (o + 4)
  off := (le64 f (o + 8)).toNat
  vaddr := (le64 f (o + 16)).toNat
  filesz := (le64 f (o + 32)).toNat
  memsz := (le64 f (o + 40)).toNat

def flags2perm (flags : UInt32) : ℕ :=
  (if flags &&& 1 ≠ 0 then PTE_X else 0) ||| if flags &&& 2 ≠ 0 then PTE_W else 0

/-- The loop of `loadseg`, with so many rounds left. -/
def loadsegLoop (pagetable va : ℕ) (ip : Fin NINODE) (offset sz : ℕ) : ℕ → ℕ → XM σ Bool
  | 0, i => if i < sz then throw (.memory .fuel) else return true
  | rounds + 1, i =>
    if i < sz then do
      let pa ← onPhys (walkaddr pagetable ((va + i) % 2 ^ 64))
      if pa = 0 then throw (.memory (.panic "loadseg: address should exist"))
      else do
        let n := if sz - i < PGSIZE then sz - i else PGSIZE
        let r ← onFiles (readi ip (UInt32.ofNat (offset + i)) (UInt32.ofNat n))
        onPhys (memmove pa r.2)
        if r.1 ≠ n then return false
        else loadsegLoop pagetable va ip offset sz rounds ((i + PGSIZE) % 2 ^ 32)
    else return true

/-- Load a program segment at the virtual address `va`, whose pages are there.  Does it
succeed? -/
def loadseg (pagetable va : ℕ) (ip : Fin NINODE) (offset sz : ℕ) : XM σ Bool :=
  loadsegLoop pagetable va ip offset sz (pages sz) 0

/-- The body of the loop of `exec`, for the program header at `off` of the file: does it succeed,
and the size of the process. -/
def loadHeader (pagetable : ℕ) (ip : Fin NINODE) (off sz : ℕ) : XM σ (Bool × ℕ) := do
  let r ← onFiles (readi ip (UInt32.ofNat off) 56)
  if r.1 ≠ 56 then return (false, sz)
  else
    let ph := Proghdr.decode (cstr r.2) 0
    if ph.type ≠ ELF_PROG_LOAD then return (true, sz)
    else if ph.memsz < ph.filesz then return (false, sz)
    else if (ph.vaddr + ph.memsz) % 2 ^ 64 < ph.vaddr then return (false, sz)
    else if ph.vaddr % PGSIZE ≠ 0 then return (false, sz)
    else do
      let sz1 ← onPhys (uvmalloc pagetable sz ((ph.vaddr + ph.memsz) % 2 ^ 64)
        (flags2perm ph.flags))
      if sz1 = 0 then return (false, sz)
      else do
        let ok ← loadseg pagetable ph.vaddr ip (ph.off % 2 ^ 32) (ph.filesz % 2 ^ 32)
        return (ok, sz1)

/-- The loop of `exec` over the program headers, with so many of them left. -/
def loadHeaders (pagetable : ℕ) (ip : Fin NINODE) : ℕ → ℕ → ℕ → XM σ (Bool × ℕ)
  | 0, _, sz => return (true, sz)
  | left + 1, off, sz => do
    let o ← loadHeader pagetable ip off sz
    if o.1 then loadHeaders pagetable ip left (off + 56) o.2 else return o

/-- The memory of a process. -/
structure ProcMem where
  sz : ℕ
  pagetable : ℕ
  trapframe : ℕ

/-- Find the file of a program, and lock it. -/
def execOpen (fuel : ℕ) (cwd : Option (Fin NINODE)) (path : List UInt8) :
    FsM σ (Option (Fin NINODE)) := do
  match ← namei fuel cwd path with
  | none => return none
  | some ip => do
    ilock ip
    return some ip

/-- `if(pagetable) proc_freepagetable(pagetable, sz);` -/
def execFree (pagetable sz : ℕ) : PM Unit :=
  if pagetable ≠ 0 then procFreepagetable pagetable sz else return ()

/-- `*a = w` for a `uint64` of the kernel. -/
def store64 (a w : ℕ) : PM Unit := modify fun s => { s with mem := store s.mem a 8 w }

/-- Commit to the user image: the registers `a1`, `epc` and `sp` of the trapframe are set, and the
old address space is freed. -/
def execCommit (x : ProcMem) (pagetable sz entry sp : ℕ) : PM ProcMem := do
  store64 (x.trapframe + 120) sp
  store64 (x.trapframe + 24) entry
  store64 (x.trapframe + 48) sp
  procFreepagetable x.pagetable x.sz
  return { x with sz := sz, pagetable := pagetable }

/-- `exec` from where the file has been read. -/
def execStart (x : ProcMem) (pagetable sz entry : ℕ) (argv : List (List UInt8)) :
    PM (ℤ × ProcMem) := do
  let o ← allocStack pagetable sz
  if o.1 = false then do
    execFree pagetable o.2
    return (-1, x)
  else do
    match ← pushArgs pagetable o.2 argv with
    | none => do
      execFree pagetable o.2
      return (-1, x)
    | some (argc, sp) => do
      let x ← execCommit x pagetable o.2 entry sp
      return (argc, x)

/-- `exec` up to where the file has been read and is put back: the new page table, the size of the
program and its entry, or `none`. -/
def execLoad (fuel trampoline trapframe : ℕ) (cwd : Option (Fin NINODE)) (path : List UInt8) :
    XM σ (Option (ℕ × ℕ × ℕ)) := do
  match ← onFiles (execOpen fuel cwd path) with
  | none => return none
  | some ip => do
    let r ← onFiles (readi ip 0 64)
    let elf := Elfhdr.decode (cstr r.2)
    if r.1 ≠ 64 ∨ elf.magic ≠ ELF_MAGIC then do
      onFiles (iunlockput ip)
      return none
    else do
      let pagetable ← onPhys (procPagetable trampoline trapframe)
      if pagetable = 0 then do
        onFiles (iunlockput ip)
        return none
      else do
        let o ← loadHeaders pagetable ip elf.phnum elf.phoff 0
        if o.1 = false then do
          onPhys (execFree pagetable o.2)
          onFiles (iunlockput ip)
          return none
        else do
          onFiles (iunlockput ip)
          return some (pagetable, o.2, elf.entry)

/-- Replace the memory of a process by a program with the given arguments: the number of the
arguments or -1, and the memory of the process. -/
def exec (fuel trampoline : ℕ) (x : ProcMem) (cwd : Option (Fin NINODE)) (path : List UInt8)
    (argv : List (List UInt8)) : XM σ (ℤ × ProcMem) := do
  match ← execLoad fuel trampoline x.trapframe cwd path with
  | none => return (-1, x)
  | some (pagetable, sz, entry) => onPhys (execStart x pagetable sz entry argv)

variable {s t u : Phys} {f : Fs σ} {r n va sz off : ℕ} {top : ℕ → ℕ} {rest : Set ℕ}
  {ip : Fin NINODE}

/-- The file system has stopped. -/
def Stop.InFiles (e : Stop) : Prop := ∃ e', e = .files e'

theorem onPhys_of_ok {m : PM α} {a : α} (h : m s = .ok (a, t)) :
    onPhys m (s, f) = .ok (a, (t, f)) := by
  rw [onPhys, h]

theorem onFiles_of_ok {m : FsM σ α} {a : α} {g : Fs σ} (h : m f = .ok (a, g)) :
    onFiles m (s, f) = .ok (a, (s, g)) := by
  rw [onFiles, h]

theorem onPhys_yields {m : PM α} {Q : α → Phys → Prop} {E : Stop → Prop} (h : Returns m s Q) :
    Yields E (onPhys m) (s, f) fun a t => Q a t.1 ∧ t.2 = f := by
  obtain ⟨a, t, hm, hQ⟩ := h.exists
  refine Yields.of_ok (t := (t, f)) ?_ ⟨hQ, rfl⟩
  unfold onPhys
  rw [hm]

theorem onPhys_of_yields {m : PM α} {Q : α → Phys → Prop} {E : Stop → Prop}
    (h : Yields (fun e => E (.memory e)) m s Q) :
    Yields E (onPhys m) (s, f) fun a t => Q a t.1 := by
  rcases h with ⟨a, t, hm, hQ⟩ | ⟨e, hm, he⟩
  · exact Or.inl ⟨a, (t, f), by unfold onPhys; rw [hm], hQ⟩
  · exact Or.inr ⟨.memory e, by unfold onPhys; rw [hm], he⟩

theorem onFiles_yields {m : FsM σ α} {Q : α → Fs σ → Prop} (h : Sat m f Q) :
    Yields Stop.InFiles (onFiles m) (s, f) fun a t => Q a t.2 ∧ t.1 = s := by
  cases hm : m f with
  | error e => exact Or.inr ⟨.files e, by unfold onFiles; rw [hm], e, rfl⟩
  | ok r => exact Or.inl ⟨r.1, (s, r.2), by unfold onFiles; rw [hm], h r.1 r.2 hm, rfl⟩

/-! ### Reading the file -/

/-- What reading the inode `ip` gives as long as `I` holds: no more bytes than asked for, and those
of `file` if that is known. -/
structure Source (ip : Fin NINODE) (file : Option (List UInt8)) (I : Fs σ → Prop) : Prop where
  read : ∀ f, I f → ∀ off n : UInt32, Sat (readi ip off n) f fun r f' =>
    I f' ∧ r.2.length ≤ n.toNat ∧ ∀ l ∈ file, r = flatRead l off n

theorem length_readiLoop : ∀ (fuel off n : ℕ) (f : Fs σ),
    Sat (readiLoop ip fuel off n) f fun bytes _ => bytes.length = n := by
  intro fuel
  induction fuel with
  | zero =>
    intro off n f
    cases n with
    | zero => exact Sat.pure rfl
    | succ n => exact fun _ _ h => (nomatch h)
  | succ fuel ih =>
    intro off n f
    cases n with
    | zero => exact Sat.pure rfl
    | succ n =>
      unfold readiLoop
      refine Sat.skip fun i f₁ => Sat.skip fun addr f₂ => Sat.skip fun bp f₃ =>
        Sat.skip fun d f₄ => Sat.skip fun _ f₅ => (ih _ _ _).bind fun bytes f₆ hbytes => ?_
      refine Sat.pure ?_
      rw [List.length_append, List.length_map, List.length_range, hbytes]
      omega

/-- `readi` never stores more bytes than asked for. -/
theorem source_any (ip : Fin NINODE) : Source ip none fun _ : Fs σ => True where
  read f _ off n := by
    unfold readi
    refine Sat.skip fun i f₁ => ?_
    apply Sat.ite
    · exact fun _ => Sat.pure ⟨trivial, Nat.zero_le _, nofun⟩
    · intro hacc
      refine (length_readiLoop _ _ _ _).bind fun bytes f₂ hbytes => Sat.pure ⟨trivial, ?_, nofun⟩
      rw [rejected_iff, not_or] at hacc
      rw [hbytes, toNat_clamp (by omega) (by omega)]
      exact min_le_left _ _

/-! ### A segment -/

/-- Bytes are stored at the start of a page of the process. -/
theorem Leaves.putPage (h : Leaves s.mem r) (hva : va % PGSIZE = 0)
    (hpte : UserPte s.mem r (va / PGSIZE)) {bytes : List UInt8} (hlen : bytes.length ≤ PGSIZE)
    (ht : t = { s with mem := put s.mem (frameOf s.mem r (va / PGSIZE)) bytes }) :
    Wrote r va bytes.length s t ∧ ∀ b, (userMem t.mem r).get b =
      if va ≤ b ∧ b < va + bytes.length then some (bytes.getD (b - va) 0)
      else (userMem s.mem r).get b := by
  have hmem : t.mem = put s.mem (frameOf s.mem r (va / PGSIZE)) bytes := by rw [ht]
  refine ⟨⟨by rw [ht], fun x hx => ?_⟩, fun b => ?_⟩
  · rw [hmem] at hx
    have hin : frameOf s.mem r (va / PGSIZE) ≤ x ∧
        x < frameOf s.mem r (va / PGSIZE) + bytes.length := by
      by_contra hout
      exact hx (put_of_not_mem hout)
    obtain ⟨k, rfl⟩ := Nat.exists_eq_add_of_le hin.1
    have hpage : (va + k) / PGSIZE = va / PGSIZE ∧ (va + k) % PGSIZE = k := by
      simp only [PGSIZE] at *
      omega
    refine ⟨va + k, by omega, by omega, by rwa [hpage.1], ?_⟩
    rw [paddr, hpage.1, hpage.2]
  · have hwalk : Xv6Ext2.walkaddr (userMem s.mem r) va = some _ :=
      (walkaddr_userMem _ _ _).trans (userMem_of_pte hpte)
    have hlen' : 0 + bytes.length ≤ PGSIZE := by omega
    have hput := userMem_put h hpte (userMem_of_pte hpte) hlen'
    rw [Nat.add_zero] at hput
    have hget := get_put (b := b) bytes hwalk (by omega)
    rw [hva] at hget
    rw [hmem, hput, hget]

/-- The first `i` bytes of a segment of `sz` bytes at `va` have been loaded from `offset` of the
file, if that is known. -/
structure Loading (r va : ℕ) (file : Option (List UInt8)) (offset sz i : ℕ) (s t : Phys) :
    Prop where
  wrote : Wrote r va sz s t
  bytes : ∀ l ∈ file, offset + sz ≤ l.length → l.length < 2 ^ 32 → ∀ k < i,
    (userMem t.mem r).get (va + k) = some (l.getD (offset + k) 0)

/-- All the bytes have been read. -/
theorem flatRead_full {l : List UInt8} {offset len : ℕ} (hlen : offset + len ≤ l.length)
    (hmax : l.length < 2 ^ 32) : flatRead l (UInt32.ofNat offset) (UInt32.ofNat len) =
      ((len : ℤ), (l.drop offset).take len) := by
  have hoff : (UInt32.ofNat offset).toNat = offset :=
    UInt32.toNat_ofNat_of_lt' (lt_of_le_of_lt (by omega) hmax)
  have hlen' : (UInt32.ofNat len).toNat = len :=
    UInt32.toNat_ofNat_of_lt' (lt_of_le_of_lt (by omega) hmax)
  unfold flatRead
  rw [hoff, hlen', if_neg (by omega), Nat.min_eq_left (by omega)]

theorem getD_take_drop {l : List UInt8} {o len k : ℕ} (hk : k < len) :
    ((l.drop o).take len).getD k 0 = l.getD (o + k) 0 := by
  rw [List.getD_eq_getElem?_getD, List.getD_eq_getElem?_getD, List.getElem?_take, if_pos hk,
    List.getElem?_drop]

/-- A round of `loadseg`. -/
theorem Loading.round {file : Option (List UInt8)} {offset i len : ℕ} {bytes : List UInt8}
    (hl : Leaves s.mem r) (h : Loading r va file offset sz i s t) (hva : va % PGSIZE = 0)
    (hi : i % PGSIZE = 0) (hlen : len ≤ PGSIZE) (hsz : i + len ≤ sz)
    (hpte : UserPte s.mem r ((va + i) / PGSIZE)) (hbytes : bytes.length ≤ len)
    (hfile : ∀ l ∈ file, offset + sz ≤ l.length → l.length < 2 ^ 32 →
      bytes = (l.drop (offset + i)).take len)
    (hu : u = { t with mem := put t.mem (frameOf s.mem r ((va + i) / PGSIZE)) bytes }) :
    Loading r va file offset sz (i + len) s u := by
  have hentry := (hl.entries h.wrote.touches).2
  have hframe : frameOf s.mem r ((va + i) / PGSIZE) = frameOf t.mem r ((va + i) / PGSIZE) := by
    rw [frameOf, frameOf, hentry]
  rw [hframe] at hu
  have haligned : (va + i) % PGSIZE = 0 := by
    simp only [PGSIZE] at *
    omega
  obtain ⟨hwrote, hget⟩ := (hl.touch h.wrote.touches).putPage haligned
    ((userPte_congr (hentry _)).mpr hpte) (hbytes.trans hlen) hu
  refine ⟨h.wrote.trans hl (hwrote.mono (by omega) (by omega)), fun l hl' hin hmax k hk => ?_⟩
  have hpiece := hfile l hl' hin hmax
  have hfull : bytes.length = len := by
    rw [hpiece, List.length_take, List.length_drop]
    omega
  rw [hget]
  by_cases hold : k < i
  · rw [if_neg (by omega)]
    exact h.bytes l hl' hin hmax k hold
  · rw [if_pos (by omega), hpiece, getD_take_drop (by omega)]
    congr 2
    omega

theorem loadsegLoop_yields {file : Option (List UInt8)} {I : Fs σ → Prop} {offset : ℕ}
    (hsrc : Source ip file I) (hl : Leaves s.mem r) (hva : va % PGSIZE = 0)
    (hmax : va + sz ≤ MAXVA) (hsz : sz + PGSIZE < 2 ^ 32)
    (hpte : ∀ b, va ≤ b → b < va + sz → UserPte s.mem r (b / PGSIZE)) :
    ∀ (rounds i : ℕ) (t : Phys) (f : Fs σ), i % PGSIZE = 0 → i < sz + PGSIZE →
      sz ≤ i + rounds * PGSIZE → Loading r va file offset sz (min i sz) s t → I f →
        Yields Stop.InFiles (loadsegLoop r va ip offset sz rounds i) (t, f) fun ok u =>
          I u.2 ∧ Wrote r va sz s u.1 ∧ (ok = true → Loading r va file offset sz sz s u.1) := by
  intro rounds
  induction rounds with
  | zero =>
    intro i t f hi hlt hrounds h hI
    rw [loadsegLoop, if_neg (by omega)]
    rw [Nat.min_eq_right (by omega)] at h
    exact Yields.of_ok rfl ⟨hI, h.wrote, fun _ => h⟩
  | succ rounds ih =>
    intro i t f hi hlt hrounds h hI
    rw [loadsegLoop]
    by_cases hin : i < sz
    · rw [if_pos hin]
      have hentry := (hl.entries h.wrote.touches).2
      have haddr : (va + i) % 2 ^ 64 = va + i := Nat.mod_eq_of_lt (by
        simp only [MAXVA] at hmax
        omega)
      have hpage := hpte (va + i) (by omega) (by omega)
      rw [haddr]
      refine (onPhys_yields (Yields.of_ok (walkaddr_eq (va + i) t)
        (Q := fun a t' => a = frameOf s.mem r ((va + i) / PGSIZE) ∧ t' = t) ⟨?_, rfl⟩)).bind
          fun pa x hx => ?_
      · rw [if_pos ((userPte_congr (hentry _)).mpr hpage), frameOf, hentry]
      obtain ⟨x, f'⟩ := x
      obtain ⟨⟨rfl, rfl⟩, rfl⟩ := hx
      rw [if_neg (hl.nonzero _ hpage)]
      generalize hn : (if sz - i < PGSIZE then sz - i else PGSIZE) = len
      have hlen : len = min (sz - i) PGSIZE := by
        rw [← hn]
        split <;> omega
      have hlen32 : (UInt32.ofNat len).toNat = len :=
        UInt32.toNat_ofNat_of_lt' (lt_of_le_of_lt (by omega) hsz)
      refine (onFiles_yields (hsrc.read _ hI _ _)).bind fun res y hy => ?_
      obtain ⟨y, f''⟩ := y
      obtain ⟨⟨hI', hshort, hread⟩, rfl⟩ := hy
      rw [hlen32] at hshort
      rw [Nat.min_eq_left hin.le] at h
      have hround : Loading r va file offset sz (i + len) s _ :=
        h.round hl hva hi (by omega) (by omega) hpage hshort (fun l hl' hin' hmax' => by
          rw [hread l hl', flatRead_full (by omega) hmax']) rfl
      refine Yields.of_eq (bind_of_ok rfl) ?_
      by_cases hfull : res.1 ≠ len
      · rw [if_pos hfull]
        exact Yields.of_ok rfl ⟨hI', hround.wrote, fun h => absurd h Bool.false_ne_true⟩
      · rw [if_neg hfull, Nat.mod_eq_of_lt (by omega)]
        refine ih (i + PGSIZE) _ f'' (by simp only [PGSIZE] at *; omega) (by omega) ?_ ?_ hI'
        · rw [Nat.add_one_mul] at hrounds
          omega
        · rwa [show min (i + PGSIZE) sz = i + len by omega]
    · rw [if_neg hin]
      rw [Nat.min_eq_right (by omega)] at h
      exact Yields.of_ok rfl ⟨hI, h.wrote, fun _ => h⟩

/-- **What `loadseg` does.** -/
theorem loadseg_yields {file : Option (List UInt8)} {I : Fs σ → Prop} {offset : ℕ}
    (hsrc : Source ip file I) (hl : Leaves s.mem r) (hva : va % PGSIZE = 0)
    (hmax : va + sz ≤ MAXVA) (hsz : sz + PGSIZE < 2 ^ 32)
    (hpte : ∀ b, va ≤ b → b < va + sz → UserPte s.mem r (b / PGSIZE)) (hI : I f) :
    Yields Stop.InFiles (loadseg r va ip offset sz) (s, f) fun ok u =>
      I u.2 ∧ Wrote r va sz s u.1 ∧ (ok = true → Loading r va file offset sz sz s u.1) := by
  refine loadsegLoop_yields hsrc hl hva hmax hsz hpte _ 0 s f rfl (by simp only [PGSIZE]; omega) ?_
    ⟨Wrote.refl r va sz s, fun _ _ _ _ k hk => absurd hk (by omega)⟩ hI
  unfold pages
  simp only [PGSIZE]
  omega

/-! ### A program header -/

theorem Proghdr.decode_congr {f g : ℕ → UInt8} {o p : ℕ} (h : ∀ k < 56, f (o + k) = g (p + k)) :
    Proghdr.decode f o = Proghdr.decode g p := by
  have h32 : ∀ j, j + 4 ≤ 56 → le32 f (o + j) = le32 g (p + j) := fun j hj =>
    le32_congr fun k hk => by
      rw [Nat.add_assoc, Nat.add_assoc]
      exact h (j + k) (by omega)
  have h64 : ∀ j, j + 8 ≤ 56 → le64 f (o + j) = le64 g (p + j) := fun j hj =>
    le64_congr fun k hk => by
      rw [Nat.add_assoc, Nat.add_assoc]
      exact h (j + k) (by omega)
  rw [decode, decode, h64 8 (by omega), h64 16 (by omega), h64 32 (by omega), h64 40 (by omega),
    h32 4 (by omega), show le32 f o = le32 g p from h32 0 (by omega)]

/-- The header that has been read is the one in the file. -/
theorem Proghdr.decode_read (l : List UInt8) (off : ℕ) :
    Proghdr.decode (cstr ((l.drop off).take 56)) 0 = Proghdr.decode (cstr l) off :=
  decode_congr fun k hk => by
    rw [Nat.zero_add, cstr, cstr]
    exact getD_take_drop hk

theorem Proghdr.decode_lt (f : ℕ → UInt8) (o : ℕ) :
    (Proghdr.decode f o).vaddr < 2 ^ 64 ∧ (Proghdr.decode f o).memsz < 2 ^ 64 ∧
      (Proghdr.decode f o).off < 2 ^ 64 :=
  ⟨UInt64.toNat_lt _, UInt64.toNat_lt _, UInt64.toNat_lt _⟩

theorem flags2perm_lt (flags : UInt32) : flags2perm flags < 1024 := by
  unfold flags2perm
  split <;> split <;> decide

/-- An address space of `sz` bytes that is being built; the pages `rest` of others have not been
touched since `s`. -/
structure Growing (r sz : ℕ) (top : ℕ → ℕ) (rest : Set ℕ) (s t : Phys) : Prop where
  space : Space t r (pages sz) top rest
  user : ∀ v < pages sz, pteOf t.mem r v &&& PTE_U ≠ 0
  kept : Kept rest s t

theorem Growing.resized (h : Growing r sz top rest s t)
    (ht : Resized r (pages sz) top rest t u) : Growing r sz top rest s u :=
  ⟨ht.space, fun v hv => by rw [ht.pte v hv]; exact h.user v hv,
    h.kept.trans (ht.kept.mono Set.subset_union_right)⟩

theorem Growing.enlarged {sz' perm : ℕ} (h : Growing r sz top rest s t)
    (ht : Enlarged r (pages sz) (pages sz') (PTE_R ||| PTE_U ||| perm) top rest t u) :
    Growing r sz' top rest s u := by
  refine ⟨ht.space, fun v hv => ?_, h.kept.trans (ht.kept.mono Set.subset_union_right)⟩
  rcases Nat.lt_or_ge v (pages sz) with hlt | hge
  · rw [ht.old v hlt]
    exact h.user v hlt
  · rw [← pteFlags_and rfl, ht.flags v hge hv, Nat.and_or_distrib_right, Nat.and_or_distrib_right,
      Nat.and_or_distrib_right]
    exact fun hzero => absurd (Nat.or_eq_zero_iff.mp (Nat.or_eq_zero_iff.mp
      (Nat.or_eq_zero_iff.mp hzero).1).1).2 (by decide)

theorem Growing.wrote {len : ℕ} (h : Growing r sz top rest s t) (ht : Wrote r va len t u) :
    Growing r sz top rest s u := by
  obtain ⟨hspace, hkept⟩ := h.space.wrote ht
  refine ⟨hspace, fun v hv => ?_, h.kept.trans hkept⟩
  rw [(h.space.leaves.entries ht.touches).2]
  exact h.user v hv

/-- The pages of the process are there for the user. -/
theorem Growing.userPte {b : ℕ} (h : Growing r sz top rest s t) (hb : b < pages sz * PGSIZE) :
    UserPte t.mem r (b / PGSIZE) := by
  have hroom := h.space.room
  have hlt : b / PGSIZE < pages sz := Nat.div_lt_of_lt_mul (Nat.mul_comm _ _ ▸ hb)
  refine ⟨?_, h.space.valid _ hlt, h.user _ hlt⟩
  simp only [PGSIZE, TRAPFRAME, TRAMPOLINE, MAXVA] at *
  omega

/-- The segment of a program header has been added to an address space of `sz` bytes. -/
structure SegmentAdded (l : List UInt8) (r : ℕ) (top : ℕ → ℕ) (rest : Set ℕ) (ph : Proghdr)
    (sz sz' : ℕ) (s t : Phys) : Prop where
  size : sz' = max sz (ph.vaddr + ph.memsz)
  filesz : ph.filesz ≤ ph.memsz
  added : ∃ u, Enlarged r (pages sz) (pages sz')
      (PTE_R ||| PTE_U ||| flags2perm ph.flags) top rest s u ∧
    Loading r ph.vaddr (some l) ph.off ph.filesz ph.filesz u t

theorem le_pages_mul (sz : ℕ) : sz ≤ pages sz * PGSIZE := by
  unfold pages
  simp only [PGSIZE]
  omega

/-- **What a program header does.** -/
theorem loadHeader_yields {file : Option (List UInt8)} {I : Fs σ → Prop}
    (hsrc : Source ip file I) (h : Growing r sz top rest s t) (hI : I f) :
    Yields Stop.InFiles (loadHeader r ip off sz) (t, f) fun o u =>
      I u.2 ∧ Growing r o.2 top rest s u.1 ∧
        (o.1 = true → ∀ l ∈ file, off + 56 ≤ l.length → l.length < 2 ^ 32 →
          if (Proghdr.decode (cstr l) off).type = ELF_PROG_LOAD then
            (Proghdr.decode (cstr l) off).off + (Proghdr.decode (cstr l) off).filesz ≤ l.length →
              SegmentAdded l r top rest (Proghdr.decode (cstr l) off) sz o.2 t u.1
          else o.2 = sz ∧ u.1 = t) := by
  unfold loadHeader
  refine (onFiles_yields (hsrc.read f hI (UInt32.ofNat off) 56)).bind fun res x hx => ?_
  obtain ⟨x, f₁⟩ := x
  obtain ⟨⟨hI₁, -, hread⟩, rfl⟩ := hx
  by_cases hfull : res.1 ≠ 56
  · rw [if_pos hfull]
    exact Yields.of_ok rfl ⟨hI₁, h, nofun⟩
  rw [if_neg hfull]
  dsimp only
  -- the header is that of the file, if it is known
  have hph : ∀ l ∈ file, off + 56 ≤ l.length → l.length < 2 ^ 32 →
      Proghdr.decode (cstr res.2) 0 = Proghdr.decode (cstr l) off := fun l hl hin hmax => by
    have hres : res = _ := (hread l hl).trans (flatRead_full hin hmax)
    rw [hres]
    exact Proghdr.decode_read l off
  obtain ⟨hvlt, hmlt, holt⟩ := Proghdr.decode_lt (cstr res.2) 0
  generalize Proghdr.decode (cstr res.2) 0 = ph at hph hvlt hmlt holt
  by_cases htype : ph.type ≠ ELF_PROG_LOAD
  · rw [if_pos htype]
    refine Yields.of_ok rfl ⟨hI₁, h, fun _ l hl hin hmax => ?_⟩
    rw [← hph l hl hin hmax, if_neg htype]
    exact ⟨rfl, rfl⟩
  rw [if_neg htype]
  by_cases hsizes : ph.memsz < ph.filesz
  · rw [if_pos hsizes]
    exact Yields.of_ok rfl ⟨hI₁, h, nofun⟩
  rw [if_neg hsizes]
  by_cases hwrap : (ph.vaddr + ph.memsz) % 2 ^ 64 < ph.vaddr
  · rw [if_pos hwrap]
    exact Yields.of_ok rfl ⟨hI₁, h, nofun⟩
  rw [if_neg hwrap]
  by_cases hpage : ph.vaddr % PGSIZE ≠ 0
  · rw [if_pos hpage]
    exact Yields.of_ok rfl ⟨hI₁, h, nofun⟩
  rw [if_neg hpage]
  have hend : (ph.vaddr + ph.memsz) % 2 ^ 64 = ph.vaddr + ph.memsz := by omega
  rw [hend]
  refine (onPhys_yields (uvmalloc_returns (flags2perm_lt ph.flags) h.space _)).bind
    fun sz1 y hy => ?_
  obtain ⟨y, f₂⟩ := y
  obtain ⟨⟨rfl, hsame⟩ | ⟨rfl, hlarge⟩, rfl⟩ := hy
  · rw [if_pos rfl]
    exact Yields.of_ok rfl ⟨hI₁, h.resized hsame, nofun⟩
  have hgrown := h.enlarged hlarge
  by_cases hzero : max sz (ph.vaddr + ph.memsz) = 0
  · -- an address space that is still empty
    rw [if_pos hzero]
    have hsz : max sz (ph.vaddr + ph.memsz) = sz := by omega
    rw [hsz] at hgrown
    exact Yields.of_ok rfl ⟨hI₁, hgrown, nofun⟩
  rw [if_neg hzero]
  have hle := le_pages_mul (max sz (ph.vaddr + ph.memsz))
  have hroom := hgrown.space.below
  have hsmall := hgrown.space.le
  have hfilesz : ph.filesz % 2 ^ 32 = ph.filesz := Nat.mod_eq_of_lt (by
    simp only [PHYSTOP, KERNBASE, PGSIZE] at *
    omega)
  rw [hfilesz]
  refine (loadseg_yields hsrc hgrown.space.leaves (by omega) ?_ ?_ (fun b hb hb' => ?_) hI₁).bind
    fun ok z hz => Yields.of_ok rfl ⟨hz.1, hgrown.wrote hz.2.1, fun hok l hl hin hmax => ?_⟩
  · rw [Nat.add_one_mul] at hroom
    omega
  · simp only [PHYSTOP, KERNBASE, PGSIZE] at *
    omega
  · exact hgrown.userPte (by omega)
  · rw [← hph l hl hin hmax, if_pos (not_not.mp htype)]
    intro hseg
    have hoff : ph.off % 2 ^ 32 = ph.off := Nat.mod_eq_of_lt (by omega)
    have hload := hz.2.2 hok
    rw [hoff] at hload
    refine ⟨rfl, Nat.not_lt.mp hsizes, _, hlarge, hload.wrote, fun l' hl' => ?_⟩
    obtain rfl : l = l' := Option.some.inj hl'
    exact hload.bytes l hl

/-- The loop over the program headers, with an invariant `J` that may speak of the number of
headers left. -/
theorem loadHeaders_yields {E : Stop → Prop} {J : ℕ → ℕ → ℕ → Phys × Fs σ → Prop}
    {Q : ℕ → Phys × Fs σ → Prop}
    (hstep : ∀ left off sz x, J (left + 1) off sz x → Yields E (loadHeader r ip off sz) x fun o y =>
      o.1 = true ∧ J left (off + 56) o.2 y ∨ o.1 = false ∧ Q o.2 y) :
    ∀ (left off sz : ℕ) (x : Phys × Fs σ), J left off sz x →
      Yields E (loadHeaders r ip left off sz) x fun o y =>
        o.1 = true ∧ J 0 (off + 56 * left) o.2 y ∨ o.1 = false ∧ Q o.2 y := by
  intro left
  induction left with
  | zero =>
    intro off sz x hJ
    exact Yields.of_ok rfl (Or.inl ⟨rfl, hJ⟩)
  | succ left ih =>
    intro off sz x hJ
    rw [loadHeaders]
    refine (hstep left off sz x hJ).bind fun o y hy => ?_
    rcases hy with ⟨hok, hJ'⟩ | ⟨hbad, hQ⟩
    · rw [if_pos hok, show off + 56 * (left + 1) = off + 56 + 56 * left by omega]
      exact ih (off + 56) o.2 y hJ'
    · rw [if_neg (by rw [hbad]; decide)]
      exact Yields.of_ok rfl (Or.inr ⟨hbad, hQ⟩)

/-! ### Two address spaces -/

section TwoSpaces

variable {x : ProcMem} {trampoline : ℕ}

/-- The new address space is given up, and the old one is as before. -/
theorem Space.abandon {r₀ n₀ trapframe : ℕ} {top₀ : ℕ → ℕ} (hold : Space s r₀ n₀ top₀ rest)
    (h : Space t r (pages sz) (procTop trampoline trapframe) (claimed s.mem r₀ n₀ ∪ rest))
    (hkept : Kept (claimed s.mem r₀ n₀ ∪ rest) s t) (hr : r ≠ 0) :
    Returns (execFree r sz) t fun _ u =>
      Space u r₀ n₀ top₀ rest ∧ Kept (claimed s.mem r₀ n₀ ∪ rest) s u := by
  rw [execFree, if_pos hr]
  refine (procFreepagetable_returns h).mono fun _ u hu => ?_
  have hall := hkept.trans hu.2
  exact ⟨hold.keep hall Set.subset_union_left hu.1 fun a ha => hold.not_mem_rest ha, hall⟩

/-- The memory after a store to the trapframe. -/
theorem store_trapframe {mem : ℕ → UInt8} {tf o w y : ℕ} (htf : tf % PGSIZE = 0)
    (ho : o + 8 ≤ PGSIZE) (hy : pgrounddown y ≠ tf) : store mem (tf + o) 8 w y = mem y := by
  refine store_of_not_mem fun hin => hy (pgrounddown_eq htf ?_)
  omega

/-- **The new address space takes the place of the old one.** -/
theorem execCommit_returns {entry sp : ℕ}
    (hold : Space s x.pagetable (pages x.sz) (procTop trampoline x.trapframe) rest)
    (htf : x.trapframe ∈ rest)
    (h : Space t r n top (claimed s.mem x.pagetable (pages x.sz) ∪ rest))
    (hkept : Kept (claimed s.mem x.pagetable (pages x.sz) ∪ rest) s t) :
    Returns (execCommit x r sz entry sp) t fun o u =>
      o = { x with sz := sz, pagetable := r } ∧ Space u r n top rest ∧ Unchanged r n t u ∧
        Kept (rest \ {x.trapframe}) s u := by
  have haligned := (hold.table.frame_other (Or.inr htf)).1
  unfold execCommit
  -- the stores to the trapframe
  obtain ⟨mem', hmem', hstores⟩ : ∃ mem' : ℕ → UInt8,
      (∀ y, pgrounddown y ≠ x.trapframe → mem' y = t.mem y) ∧
      ∀ y, store (store (store t.mem (x.trapframe + 120) 8 sp) (x.trapframe + 24) 8 entry)
        (x.trapframe + 48) 8 sp y = mem' y :=
    ⟨_, fun y hy => by
      rw [store_trapframe haligned (by decide) hy, store_trapframe haligned (by decide) hy,
        store_trapframe haligned (by decide) hy], fun _ => rfl⟩
  refine Yields.of_eq (bind_of_ok rfl) (Yields.of_eq (bind_of_ok rfl)
    (Yields.of_eq (bind_of_ok rfl) ?_))
  dsimp only
  rw [show store _ (x.trapframe + 48) 8 sp = mem' from funext hstores]
  -- the old address space, as it is now
  have hsplit : claimed t.mem r n ∪ (claimed s.mem x.pagetable (pages x.sz) ∪ rest) =
      claimed s.mem x.pagetable (pages x.sz) ∪ (rest ∪ claimed t.mem r n) := by
    rw [Set.union_left_comm, Set.union_comm rest]
  have hold' := hold.keep hkept Set.subset_union_left (hsplit ▸ h.pool) fun a ha hin =>
    hin.elim (hold.not_mem_rest ha) fun hnew => h.not_mem_rest hnew (Or.inl ha)
  have htrap : Space { t with mem := mem' } x.pagetable (pages x.sz)
      (procTop trampoline x.trapframe) (rest ∪ claimed t.mem r n) :=
    hold'.write rfl fun y hy => hmem' y fun heq =>
      hold'.table.apart _ hy (Or.inr (Or.inl (heq ▸ htf)))
  refine (procFreepagetable_returns htrap).bind fun _ u hu => Yields.of_ok rfl ⟨rfl, ?_⟩
  obtain ⟨hpool, hfreed⟩ := hu
  -- the new one is apart from the trapframe and from the old one
  have hnew : Kept (claimed t.mem r n) t u := by
    refine ⟨hfreed.ksize, fun y hy => (hfreed.mem y (Or.inr hy)).trans (hmem' y fun heq => ?_)⟩
    exact h.not_mem_rest hy (Or.inr (heq ▸ htf))
  refine ⟨h.keep hnew subset_rfl (Set.union_comm _ _ ▸ hpool) fun a ha hrest =>
    h.not_mem_rest ha (Or.inr hrest), h.unchanged subset_rfl hnew,
    hfreed.ksize.trans hkept.ksize, fun y hy => ?_⟩
  rw [hfreed.mem y (Or.inl hy.1)]
  exact (hmem' y hy.2).trans (hkept.mem y (Or.inr hy.1))

/-- A program of `sz` bytes that has been loaded into `s` runs in `t`: its pages are as they were,
and the stack is above them. -/
structure Started (r sz : ℕ) (top : ℕ → ℕ) (rest : Set ℕ) (s t : Phys) : Prop where
  space : Space t r (pages sz + (USERSTACK + 1)) top rest
  pte : ∀ v < pages sz, pteOf t.mem r v = pteOf s.mem r v
  content : ∀ v < pages sz, ∀ k < PGSIZE,
    t.mem (frameOf s.mem r v + k) = s.mem (frameOf s.mem r v + k)
  guard : pteOf t.mem r (pages sz) &&& PTE_U = 0
  stack : ∀ v, pages sz < v → v < pages sz + (USERSTACK + 1) →
    pteFlags (pteOf t.mem r v) = PTE_R ||| PTE_U ||| PTE_W ||| PTE_V

/-- Writing to the stack does not touch the program. -/
theorem Stacked.started {rest' : Set ℕ} {t₁ t₂ : Phys} (h : Stacked r (pages sz) top rest s t)
    (hwrote : Wrote r ((pages sz + (USERSTACK + 1)) * PGSIZE - USERSTACK * PGSIZE)
      (USERSTACK * PGSIZE) t t₁)
    (hspace : Space t₂ r (pages sz + (USERSTACK + 1)) top rest')
    (hsame : Unchanged r (pages sz + (USERSTACK + 1)) t₁ t₂) : Started r sz top rest' s t₂ := by
  have hentry := (h.space.leaves.entries hwrote.touches).2
  have hpte : ∀ v, pteOf t₂.mem r v = pteOf t.mem r v := fun v => (hsame.pte v).trans (hentry v)
  refine ⟨hspace, fun v hv => (hpte v).trans (h.old v hv), fun v hv k hk => ?_, ?_,
    fun v hlow hv => ?_⟩
  · have hframe : frameOf s.mem r v = frameOf t.mem r v := by rw [frameOf, frameOf, h.old v hv]
    have hframe' : frameOf t.mem r v = frameOf t₁.mem r v := by rw [frameOf, frameOf, hentry]
    have hstack : t₁.mem (frameOf t.mem r v + k) = t.mem (frameOf t.mem r v + k) := by
      by_contra hne
      obtain ⟨b, hlow, -, hpte', heq⟩ := hwrote.mem _ hne
      have hlt := h.space.lt_of_userPte hpte'
      have hpages := congrArg pgrounddown heq
      rw [paddr, pgrounddown_eq (frameOf_aligned t.mem r v) (by omega),
        pgrounddown_eq (frameOf_aligned t.mem r _) ⟨Nat.le_add_right _ _,
          Nat.add_lt_add_left (Nat.mod_lt b (by decide)) _⟩] at hpages
      have hvb := h.space.inj v (by omega) _ hlt hpages
      simp only [PGSIZE, USERSTACK] at *
      omega
    calc t₂.mem (frameOf s.mem r v + k) = t₁.mem (frameOf s.mem r v + k) := by
          rw [hframe, hframe']
          exact hsame.content v (by omega) k hk
      _ = t.mem (frameOf s.mem r v + k) := by
          rw [hframe]
          exact hstack
      _ = s.mem (frameOf s.mem r v + k) := h.kept.frame hv hk
  · rw [hpte]
    exact h.guard
  · rw [hpte]
    exact h.stack v hlow hv

/-- **What `exec` does once the file has been read.** -/
theorem execStart_returns {entry : ℕ} {argv : List (List UInt8)}
    (hold : Space s x.pagetable (pages x.sz) (procTop trampoline x.trapframe) rest)
    (htf : x.trapframe ∈ rest)
    (h : Growing r sz (procTop trampoline x.trapframe)
      (claimed s.mem x.pagetable (pages x.sz) ∪ rest) s t) (hr : r ≠ 0)
    (hcount : argv.length < MAXARG) (hargs : ∀ arg ∈ argv, arg.length < PGSIZE) :
    Returns (execStart x r sz entry argv) t fun o u =>
      (o = (-1, x) ∧ Space u x.pagetable (pages x.sz) (procTop trampoline x.trapframe) rest ∧
        Kept (claimed s.mem x.pagetable (pages x.sz) ∪ rest) s u) ∨
      (o = ((argv.length : ℤ), ⟨(pages sz + (USERSTACK + 1)) * PGSIZE, r, x.trapframe⟩) ∧
        Started r sz (procTop trampoline x.trapframe) rest t u ∧
        Kept (rest \ {x.trapframe}) s u) := by
  unfold execStart
  refine (allocStack_returns h.space).bind fun o t₁ ht => ?_
  rcases ht with ⟨rfl, hsame⟩ | ⟨rfl, hstacked⟩
  · rw [if_pos rfl]
    have hkept := h.kept.trans (hsame.kept.mono Set.subset_union_right)
    have hspace := hsame.space
    rw [← pages_mul (pages sz)] at hspace
    exact (hold.abandon hspace hkept hr).bind fun _ u hu => Yields.of_ok rfl (Or.inl ⟨rfl, hu⟩)
  rw [if_neg (by simp)]
  have hkept := h.kept.trans (hstacked.kept.mono Set.subset_union_right)
  refine (pushArgs_returns hstacked.stackAt hcount hargs).bind fun p t₂ ht => ?_
  obtain ⟨hwrote, hp⟩ := ht
  obtain ⟨hspace, hkept'⟩ := hstacked.space.wrote hwrote
  rcases hp with ⟨rfl, -⟩ | ⟨rfl, -, -⟩
  · dsimp only
    rw [← pages_mul (pages sz + (USERSTACK + 1))] at hspace
    exact (hold.abandon hspace (hkept.trans hkept') hr).bind fun _ u hu =>
      Yields.of_ok rfl (Or.inl ⟨rfl, hu⟩)
  · dsimp only
    refine (execCommit_returns hold htf hspace (hkept.trans hkept')).bind fun x' u hu => ?_
    obtain ⟨rfl, hspace', hsame, hrest⟩ := hu
    exact Yields.of_ok rfl (Or.inr ⟨rfl, hstacked.started hwrote hspace' hsame, hrest⟩)

/-- The program has been loaded from a file: the headers, and where they have led. -/
structure LoadedFrom (fuel : ℕ) (cwd : Option (Fin NINODE)) (path : List UInt8) (r sz : ℕ)
    (top : ℕ → ℕ) (rest : Set ℕ) (s : Phys) (f : Fs σ) (t : Phys) : Prop where
  run : ∃ ip f₁ f₂ f₃ bytes t₁, execOpen fuel cwd path f = .ok (some ip, f₁) ∧
    readi ip 0 64 f₁ = .ok ((64, bytes), f₂) ∧ Growing r 0 top rest s t₁ ∧
    loadHeaders r ip (Elfhdr.decode (cstr bytes)).phnum (Elfhdr.decode (cstr bytes)).phoff 0
      (t₁, f₂) = .ok ((true, sz), (t, f₃))
  user : ∀ v < pages sz, pteOf t.mem r v &&& PTE_U ≠ 0

/-- What `execLoad` leaves: memory as it was, or an address space into which the program has been
loaded. -/
def ExecLoaded (fuel trampoline : ℕ) (x : ProcMem) (cwd : Option (Fin NINODE)) (path : List UInt8)
    (rest : Set ℕ) (s : Phys) (f : Fs σ) (o : Option (ℕ × ℕ × ℕ)) (t : Phys) : Prop :=
  (o = none ∧ Space t x.pagetable (pages x.sz) (procTop trampoline x.trapframe) rest ∧
    Kept (claimed s.mem x.pagetable (pages x.sz) ∪ rest) s t) ∨
  ∃ r sz entry, o = some (r, sz, entry) ∧ r ≠ 0 ∧
    Growing r sz (procTop trampoline x.trapframe)
      (claimed s.mem x.pagetable (pages x.sz) ∪ rest) s t ∧
    LoadedFrom fuel cwd path r sz (procTop trampoline x.trapframe)
      (claimed s.mem x.pagetable (pages x.sz) ∪ rest) s f t

theorem execLoad_yields {fuel : ℕ} {cwd : Option (Fin NINODE)} {path : List UInt8}
    (hold : Space s x.pagetable (pages x.sz) (procTop trampoline x.trapframe) rest)
    (htf : x.trapframe ∈ rest) (htrampoline : trampoline < 2 ^ 64) :
    Yields Stop.InFiles (execLoad fuel trampoline x.trapframe cwd path) (s, f) fun o u =>
      ExecLoaded fuel trampoline x cwd path rest s f o u.1 := by
  have htf' : x.trapframe < 2 ^ 64 := (hold.table.frame_other (Or.inr htf)).lt
  -- putting the file back leaves memory as it is
  have hput : ∀ {γ : Type} {m : FsM σ γ} {t : Phys} {f' : Fs σ} {a : Option (ℕ × ℕ × ℕ)},
      ExecLoaded fuel trampoline x cwd path rest s f a t →
        Yields Stop.InFiles (do let _ ← onFiles m; return a) (t, f') fun o u =>
          ExecLoaded fuel trampoline x cwd path rest s f o u.1 :=
    fun h => (onFiles_yields (Q := fun _ _ => True) fun _ _ _ => trivial).bind
      fun _ u hu => Yields.of_ok rfl (hu.2 ▸ h)
  unfold execLoad
  refine (onFiles_yields (Q := fun o f₁ => execOpen fuel cwd path f = .ok (o, f₁))
    fun _ _ hrun => hrun).bind fun o y hy => ?_
  obtain ⟨y, f₁⟩ := y
  obtain ⟨hopen, rfl⟩ := hy
  cases o with
  | none => exact Yields.of_ok rfl (Or.inl ⟨rfl, hold, Kept.refl _ _⟩)
  | some ip =>
    dsimp only
    refine (onFiles_yields (Q := fun o f₂ => readi ip 0 64 f₁ = .ok (o, f₂))
      fun _ _ hrun => hrun).bind fun res y' hy => ?_
    obtain ⟨y', f₂⟩ := y'
    obtain ⟨hread, rfl⟩ := hy
    by_cases hmagic : res.1 ≠ 64 ∨ (Elfhdr.decode (cstr res.2)).magic ≠ ELF_MAGIC
    · rw [if_pos hmagic]
      exact hput (Or.inl ⟨rfl, hold, Kept.refl _ _⟩)
    rw [if_neg hmagic]
    refine (onPhys_yields (procPagetable_returns hold.pool htrampoline htf')).bind
      fun r y'' hy => ?_
    obtain ⟨t₁, f₂'⟩ := y''
    obtain ⟨⟨hkept₁, hcreated⟩, rfl⟩ := hy
    rcases hcreated with ⟨rfl, hpool⟩ | ⟨hr, hspace₁⟩
    · rw [if_pos rfl]
      exact hput (Or.inl ⟨rfl, hold.keep hkept₁ Set.subset_union_left hpool
        fun a ha => hold.not_mem_rest ha, hkept₁⟩)
    rw [if_neg hr]
    have hgrow : Growing r 0 (procTop trampoline x.trapframe)
        (claimed y'.mem x.pagetable (pages x.sz) ∪ rest) y' t₁ := by
      refine ⟨?_, fun v hv => ?_, hkept₁⟩
      · rw [pages_zero]
        exact hspace₁
      · rw [pages_zero] at hv
        exact absurd hv (Nat.not_lt_zero v)
    have hloop := (loadHeaders_yields (E := Stop.InFiles)
      (J := fun _ _ sz y => Growing r sz (procTop trampoline x.trapframe)
        (claimed y'.mem x.pagetable (pages x.sz) ∪ rest) y' y.1)
      (Q := fun sz y => Growing r sz (procTop trampoline x.trapframe)
        (claimed y'.mem x.pagetable (pages x.sz) ∪ rest) y' y.1) (fun _ off sz y hJ =>
          (loadHeader_yields (source_any ip) hJ trivial).mono fun o u hu => by
            cases ho : o.1 with
            | true => exact Or.inl ⟨rfl, hu.2.1⟩
            | false => exact Or.inr ⟨rfl, hu.2.1⟩)
      (Elfhdr.decode (cstr res.2)).phnum (Elfhdr.decode (cstr res.2)).phoff 0 (t₁, f₂') hgrow).run
    refine hloop.bind fun o y hy => ?_
    obtain ⟨t₂, f₃⟩ := y
    obtain ⟨ok, sz⟩ := o
    obtain ⟨hrun, ⟨rfl, hgrown⟩ | ⟨rfl, hgrown⟩⟩ := hy
    · rw [if_neg (by simp)]
      refine hput (Or.inr ⟨r, sz, _, rfl, hr, hgrown,
        ⟨⟨ip, f₁, f₂', f₃, res.2, t₁, hopen, ?_, hgrow, hrun⟩, hgrown.user⟩⟩)
      rw [hread, ← not_not.mp (not_or.mp hmagic).1]
    · rw [if_pos rfl]
      refine (onPhys_yields (hold.abandon hgrown.space hgrown.kept hr)).bind fun _ y hy => ?_
      obtain ⟨t₃, f₄⟩ := y
      obtain ⟨⟨hspace, hkept⟩, rfl⟩ := hy
      exact hput (Or.inl ⟨rfl, hspace, hkept⟩)

/-- **`exec` up to the stack**: it fails with memory as it was, or goes on with an address space
into which the program has been loaded. -/
theorem exec_loads {fuel : ℕ} {cwd : Option (Fin NINODE)} {path : List UInt8}
    {argv : List (List UInt8)} {E : Stop → Prop} {Q : ℤ × ProcMem → Phys → Prop}
    (hE : ∀ e, Stop.InFiles e → E e)
    (hold : Space s x.pagetable (pages x.sz) (procTop trampoline x.trapframe) rest)
    (htf : x.trapframe ∈ rest) (htrampoline : trampoline < 2 ^ 64)
    (hbad : ∀ t, Space t x.pagetable (pages x.sz) (procTop trampoline x.trapframe) rest →
      Kept (claimed s.mem x.pagetable (pages x.sz) ∪ rest) s t → Q (-1, x) t)
    (hstart : ∀ r sz entry t, r ≠ 0 → Growing r sz (procTop trampoline x.trapframe)
      (claimed s.mem x.pagetable (pages x.sz) ∪ rest) s t →
      LoadedFrom fuel cwd path r sz (procTop trampoline x.trapframe)
        (claimed s.mem x.pagetable (pages x.sz) ∪ rest) s f t →
      Yields (fun e => E (.memory e)) (execStart x r sz entry argv) t Q) :
    Yields E (exec fuel trampoline x cwd path argv) (s, f) fun o u => Q o u.1 := by
  refine ((execLoad_yields hold htf htrampoline).errors hE).bind fun o y hy => ?_
  rcases hy with ⟨rfl, hspace, hkept⟩ | ⟨r, sz, entry, rfl, hr, hgrown, hloaded⟩
  · exact Yields.of_ok rfl (hbad _ hspace hkept)
  · exact onPhys_of_yields (hstart r sz entry _ hr hgrown hloaded)

/-- **What `exec` does**: it fails and the process is as before, or the process has a new address
space, into which the program has been loaded. -/
theorem exec_yields {fuel : ℕ} {cwd : Option (Fin NINODE)} {path : List UInt8}
    {argv : List (List UInt8)}
    (hold : Space s x.pagetable (pages x.sz) (procTop trampoline x.trapframe) rest)
    (htf : x.trapframe ∈ rest) (htrampoline : trampoline < 2 ^ 64)
    (hcount : argv.length < MAXARG) (hargs : ∀ arg ∈ argv, arg.length < PGSIZE) :
    Yields Stop.InFiles (exec fuel trampoline x cwd path argv) (s, f) fun o u =>
      (o = (-1, x) ∧ Space u.1 x.pagetable (pages x.sz) (procTop trampoline x.trapframe) rest ∧
        Kept (claimed s.mem x.pagetable (pages x.sz) ∪ rest) s u.1) ∨
      ∃ r sz t, o = ((argv.length : ℤ), ⟨(pages sz + (USERSTACK + 1)) * PGSIZE, r, x.trapframe⟩) ∧
        LoadedFrom fuel cwd path r sz (procTop trampoline x.trapframe)
          (claimed s.mem x.pagetable (pages x.sz) ∪ rest) s f t ∧
        Started r sz (procTop trampoline x.trapframe) rest t u.1 ∧
        Kept (rest \ {x.trapframe}) s u.1 := by
  refine exec_loads (Q := fun o u =>
      (o = (-1, x) ∧ Space u x.pagetable (pages x.sz) (procTop trampoline x.trapframe) rest ∧
        Kept (claimed s.mem x.pagetable (pages x.sz) ∪ rest) s u) ∨
      ∃ r sz t, o = ((argv.length : ℤ), ⟨(pages sz + (USERSTACK + 1)) * PGSIZE, r, x.trapframe⟩) ∧
        LoadedFrom fuel cwd path r sz (procTop trampoline x.trapframe)
          (claimed s.mem x.pagetable (pages x.sz) ∪ rest) s f t ∧
        Started r sz (procTop trampoline x.trapframe) rest t u ∧ Kept (rest \ {x.trapframe}) s u)
    (fun _ he => he) hold htf htrampoline (fun t hspace hkept => Or.inl ⟨rfl, hspace, hkept⟩)
    fun r sz entry t hr hgrown hloaded => ?_
  refine ((execStart_returns hold htf hgrown hr hcount hargs).errors nofun).mono fun o u hu => ?_
  rcases hu with hbad | ⟨ho, hstarted, hrest⟩
  · exact Or.inl hbad
  · exact Or.inr ⟨r, sz, t, ho, hloaded, hstarted, hrest⟩

end TwoSpaces

end Xv6Ext2.Vm
