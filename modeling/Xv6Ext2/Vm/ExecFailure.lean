import Xv6Ext2.Kernel
import Xv6Ext2.Resolve
import Xv6Ext2.Vm.Image

/-!
# A failed `exec`

A dozen things can go wrong in `exec` of `kernel/exec.c`, and all of them end at one label: what
has been built of the new address space is freed, the inode is unlocked and put, and the operation
of the log ends, each only if it is still there to be undone.  The process does not notice.

The address spaces were dealt with in `exec_loads`; here the function gets its calls of the log,
the name of the process and its open files, and the inode table is followed.

## Main definitions

* `ExecProc` — what `exec` could change of a process.
* `OM`, `onState`, `logCall` — programs that start and end operations of the log.
* `execCall` — the source function.

## Main results

* `execCall_apply` — the calls of the log, along every path.
* `exec_adds` — no reference and no lock is kept.
* `pushArgs_keeps` — arguments of any kind go to the new address space only.
* `exec_failure_invisible` — **a failed `exec` is invisible**.
-/

namespace Xv6Ext2.Vm

open CString Prog RefCount

/-! ### The source function -/

/-- The calls `begin_op()` and `end_op()`. -/
inductive LogCall
  | beginOp | endOp
deriving DecidableEq

/-- A process, with its memory, its name and its open files. -/
structure ExecProc where
  mem : ProcMem
  name : List UInt8
  ofile : Fin NOFILE → Option (Fin NFILE)

variable {σ β : Type} [BlockLayer σ β] {α : Type}

/-- Programs over physical memory and the file system with a list of the calls of the log, the last
one first. -/
abbrev OM (σ α : Type) := Prog ((Phys × Fs σ) × List LogCall) Stop α

/-- Run a program without calls of the log. -/
def onState (m : XM σ α) : OM σ α := fun s =>
  match m s.1 with
  | .ok (a, t) => .ok (a, (t, s.2))
  | .error e => .error e

def logCall (c : LogCall) : OM σ Unit := modify fun s => (s.1, c :: s.2)

/-- `for(last=s=path; *s; s++) if(*s == '/') last = s+1;` -/
def lastElement : List UInt8 → List UInt8 → List UInt8
  | last, [] => last
  | last, c :: s => lastElement (if c = 47 then s else last) s

/-- A process after `exec`, which returns -1 from `bad` only; the name has room for 15 bytes. -/
def ExecProc.after (p : ExecProc) (path : List UInt8) (o : ℤ × ProcMem) : ExecProc :=
  if o.1 = -1 then { p with mem := o.2 }
  else { p with mem := o.2, name := (lastElement path path).take 15 }

/-- `exec(path, argv)`. -/
def execCall (fuel trampoline : ℕ) (p : ExecProc) (cwd : Option (Fin NINODE)) (path : List UInt8)
    (argv : List (List UInt8)) : OM σ (ℤ × ExecProc) := do
  logCall .beginOp
  let o ← onState (execLoad fuel trampoline p.mem.trapframe cwd path)
  logCall .endOp
  match o with
  | none => return (-1, p)
  | some (pagetable, sz, entry) => do
    let o ← onState (onPhys (execStart p.mem pagetable sz entry argv))
    return (o.1, p.after path o)

variable {fuel trampoline : ℕ} {p : ExecProc} {cwd : Option (Fin NINODE)} {path : List UInt8}
  {argv : List (List UInt8)} {y : Phys × Fs σ} {ops : List LogCall}

theorem onState_bind (m : XM σ α) {γ : Type} (f : α → OM σ γ) :
    (onState m >>= f) (y, ops) = match m y with
      | .ok (a, t) => f a (t, ops)
      | .error e => .error e := by
  rw [bind_apply, onState]
  rcases m y with e | ⟨a, t⟩ <;> rfl

/-- **Every path through `exec` has one `begin_op` and one `end_op`.** -/
theorem execCall_apply : execCall fuel trampoline p cwd path argv (y, ops) =
    match exec fuel trampoline p.mem cwd path argv y with
    | .ok (o, t) => .ok ((o.1, p.after path o), (t, .endOp :: .beginOp :: ops))
    | .error e => .error e := by
  have hlog : ∀ {γ : Type} (c : LogCall) (f : Unit → OM σ γ) (s : (Phys × Fs σ) × List LogCall),
      (logCall c >>= f) s = f () (s.1, c :: s.2) := fun _ _ _ => rfl
  unfold execCall exec
  rw [hlog, onState_bind, bind_apply]
  rcases execLoad fuel trampoline p.mem.trapframe cwd path y with e | ⟨_ | ⟨r, sz, entry⟩, y⟩
  · rfl
  · rfl
  dsimp only
  rw [hlog, onState_bind]
  rcases onPhys (execStart p.mem r sz entry argv) y with e | ⟨o, y⟩ <;> rfl

/-! ### The inode table -/

/-- The references to the inodes and their locks. -/
def inodes (y : Phys × Fs σ) : (Fin NINODE → ℤ) × (Fin NINODE → ℤ) := (y.2.refs, y.2.locks)

theorem onPhys_adds {m : PM α} : Adds inodes (onPhys m : XM σ α) y fun _ => 0 := by
  intro a t h
  unfold onPhys at h
  split at h
  · cases h
    exact (add_zero _).symm
  · cases h

theorem onFiles_adds {m : FsM σ α} {d d' : α → Fin NINODE → ℤ} (hrefs : Adds Fs.refs m y.2 d)
    (hlocks : Adds Fs.locks m y.2 d') : Adds inodes (onFiles m) y fun a => (d a, d' a) := by
  intro a t h
  unfold onFiles at h
  split at h
  · next a' f hm =>
    cases h
    exact Prod.ext (hrefs _ f hm) (hlocks _ f hm)
  · cases h

theorem readi_adds {ip : Fin NINODE} {off n : UInt32} :
    Adds inodes (onFiles (readi ip off n)) y fun _ => 0 :=
  onFiles_adds readi_refs (SameHead.locks (head_readi off n))

theorem loadsegLoop_adds {pagetable va offset sz : ℕ} {ip : Fin NINODE} :
    ∀ (rounds i : ℕ) (y : Phys × Fs σ),
      Adds inodes (loadsegLoop pagetable va ip offset sz rounds i) y fun _ => 0 := by
  intro rounds
  induction rounds with
  | zero =>
    intro i y
    exact Adds.ite (fun _ => Adds.throw) fun _ => Adds.pure rfl
  | succ rounds ih =>
    intro i y
    refine Adds.ite (fun _ => Adds.skip onPhys_adds fun pa y _ => Adds.ite (fun _ => Adds.throw)
      fun _ => Adds.skip readi_adds fun r y _ => ?_) fun _ => Adds.pure rfl
    exact Adds.skip onPhys_adds fun _ y _ => Adds.ite (fun _ => Adds.pure rfl) fun _ => ih _ y

theorem loadHeader_adds {pagetable off sz : ℕ} {ip : Fin NINODE} (y : Phys × Fs σ) :
    Adds inodes (loadHeader pagetable ip off sz) y fun _ => 0 := by
  unfold loadHeader
  refine Adds.skip readi_adds fun r y _ => Adds.ite (fun _ => Adds.pure rfl) fun _ => ?_
  refine Adds.ite (fun _ => Adds.pure rfl) fun _ => Adds.ite (fun _ => Adds.pure rfl) fun _ => ?_
  refine Adds.ite (fun _ => Adds.pure rfl) fun _ => Adds.ite (fun _ => Adds.pure rfl) fun _ => ?_
  refine Adds.skip onPhys_adds fun sz1 y _ => Adds.ite (fun _ => Adds.pure rfl) fun _ => ?_
  exact Adds.skip (loadsegLoop_adds _ _ y) fun ok y _ => Adds.pure rfl

theorem loadHeaders_adds {pagetable : ℕ} {ip : Fin NINODE} : ∀ (left off sz : ℕ) (y : Phys × Fs σ),
    Adds inodes (loadHeaders pagetable ip left off sz) y fun _ => 0 := by
  intro left
  induction left with
  | zero => exact fun off sz y => Adds.pure rfl
  | succ left ih =>
    intro off sz y
    exact Adds.skip (loadHeader_adds y) fun o y _ => Adds.ite (fun _ => ih _ _ y) fun _ =>
      Adds.pure rfl

/-- The inode that is found has one more reference, and is locked. -/
theorem execOpen_adds : Adds inodes (onFiles (execOpen fuel cwd path)) y
    fun o => (point o, point o) := by
  refine onFiles_adds ?_ ?_ <;> unfold execOpen namei
  · refine Adds.bind namei_refs fun r f _ => ?_
    cases r with
    | none => exact Adds.pure (sub_self _)
    | some ip => exact Adds.skip ilock_refs fun _ f _ => Adds.pure (sub_self _)
  · refine Adds.skip (Adds.skip namex_locks fun _ _ _ => Adds.pure rfl) fun r f _ => ?_
    cases r with
    | none => exact Adds.pure point_none
    | some ip => exact Adds.bind ilock_locks fun _ f _ => Adds.pure (sub_self _)

/-- Loading a program keeps no reference and no lock. -/
theorem execLoad_adds {trapframe : ℕ} :
    Adds inodes (execLoad fuel trampoline trapframe cwd path) y fun _ => 0 := by
  unfold execLoad
  refine Adds.bind execOpen_adds fun o y _ => ?_
  cases o with
  | none => exact Adds.pure (by simp)
  | some ip =>
    -- the inode is put once, after programs that leave the table alone
    have hput : ∀ (a : Option (ℕ × ℕ × ℕ)) (y : Phys × Fs σ),
        Adds inodes (do onFiles (iunlockput ip); return a) y
          fun _ => 0 - (point (some ip), point (some ip)) := fun a y =>
      Adds.bind (onFiles_adds iunlockput_refs iunlockput_locks) fun _ y _ => Adds.pure (by simp)
    refine Adds.skip readi_adds fun r y _ => Adds.ite (fun _ => hput _ y) fun _ => ?_
    refine Adds.skip onPhys_adds fun pagetable y _ => Adds.ite (fun _ => hput _ y) fun _ => ?_
    refine Adds.skip (loadHeaders_adds _ _ _ y) fun o y _ => Adds.ite (fun _ => ?_) fun _ => ?_
    · exact Adds.skip onPhys_adds fun _ y _ => hput _ y
    · exact hput _ y

/-- **`exec` keeps no reference and no lock**, whether it fails or not. -/
theorem exec_adds {x : ProcMem} :
    Adds inodes (exec fuel trampoline x cwd path argv) y fun _ => 0 := by
  refine Adds.skip execLoad_adds fun o y _ => ?_
  cases o with
  | none => exact Adds.pure rfl
  | some o => exact onPhys_adds

/-! ### Arguments of any kind -/

variable {s t : Phys} {r n sz : ℕ} {top : ℕ → ℕ} {rest : Set ℕ} {x : ProcMem} {f : Fs σ}

theorem copyout_keeps (h : Space s r n top rest) (va : ℕ) (src : List UInt8) :
    Sat (copyout r va src) s fun _ t => Space t r n top rest ∧ Kept rest s t :=
  (copyout_get h.leaves va src).sat.mono fun _ _ ht => h.wrote ht.1

theorem pushStrings_keeps {base : ℕ} : ∀ (argv : List (List UInt8)) (sp : ℕ) (ustack : List ℕ)
    (s : Phys), Space s r n top rest → Sat (pushStrings r base argv sp ustack) s fun _ t =>
      Space t r n top rest ∧ Kept rest s t := by
  intro argv
  induction argv with
  | nil => exact fun sp ustack s h => Sat.pure ⟨h, Kept.refl _ _⟩
  | cons arg argv ih =>
    intro sp ustack s h
    refine Sat.ite (fun _ => Sat.pure ⟨h, Kept.refl _ _⟩) fun _ =>
      Sat.ite (fun _ => Sat.pure ⟨h, Kept.refl _ _⟩) fun _ => ?_
    refine (copyout_keeps h _ _).bind fun ok t ht => Sat.ite (fun _ => ?_) fun _ => Sat.pure ht
    exact (ih _ _ t ht.1).mono fun _ u hu => ⟨hu.1, ht.2.trans hu.2⟩

/-- **Arguments go to the new address space only**, whatever they are. -/
theorem pushArgs_keeps (h : Space s r n top rest) : Sat (pushArgs r sz argv) s fun _ t =>
    Space t r n top rest ∧ Kept rest s t := by
  unfold pushArgs
  refine (pushStrings_keeps argv _ _ s h).bind fun o t ht => ?_
  cases o with
  | none => exact Sat.pure ht
  | some q =>
    refine Sat.ite (fun _ => Sat.throw) fun _ => Sat.ite (fun _ => Sat.pure ht) fun _ => ?_
    refine (copyout_keeps ht.1 _ _).bind fun ok u hu => ?_
    exact Sat.ite (fun _ => Sat.pure ⟨hu.1, ht.2.trans hu.2⟩) fun _ =>
      Sat.pure ⟨hu.1, ht.2.trans hu.2⟩

/-- A failure after the file has been read. -/
theorem execStart_fails {entry : ℕ}
    (hold : Space s x.pagetable (pages x.sz) (procTop trampoline x.trapframe) rest)
    (h : Growing r sz (procTop trampoline x.trapframe)
      (claimed s.mem x.pagetable (pages x.sz) ∪ rest) s t) (hr : r ≠ 0) :
    Sat (execStart x r sz entry argv) t fun o u => o.1 = -1 → o.2 = x ∧
      Space u x.pagetable (pages x.sz) (procTop trampoline x.trapframe) rest ∧
        Kept (claimed s.mem x.pagetable (pages x.sz) ∪ rest) s u := by
  have hfree : ∀ {n : ℕ} {u : Phys}, Space u r n (procTop trampoline x.trapframe)
      (claimed s.mem x.pagetable (pages x.sz) ∪ rest) →
      Kept (claimed s.mem x.pagetable (pages x.sz) ∪ rest) s u →
        Sat (do execFree r (n * PGSIZE); return ((-1 : ℤ), x)) u fun o u => o.1 = -1 → o.2 = x ∧
          Space u x.pagetable (pages x.sz) (procTop trampoline x.trapframe) rest ∧
            Kept (claimed s.mem x.pagetable (pages x.sz) ∪ rest) s u := fun {n u} hspace hkept => by
    rw [← pages_mul n] at hspace
    exact (hold.abandon hspace hkept hr).sat.bind fun _ u hu => Sat.pure fun _ => ⟨rfl, hu⟩
  unfold execStart
  refine (allocStack_returns h.space).sat.bind fun o t₁ ht => ?_
  rcases ht with ⟨rfl, hsame⟩ | ⟨rfl, hstacked⟩
  · exact Sat.ite (fun _ => hfree hsame.space (h.kept.trans
      (hsame.kept.mono Set.subset_union_right))) fun hne => absurd rfl hne
  refine Sat.ite (fun h => nomatch h) fun _ => ?_
  have hkept := h.kept.trans (hstacked.kept.mono Set.subset_union_right)
  refine (pushArgs_keeps hstacked.space).bind fun o t₂ ht => ?_
  cases o with
  | none => exact hfree ht.1 (hkept.trans ht.2)
  | some q => exact Sat.skip fun _ u => Sat.pure fun hneg => absurd hneg (by omega)

/-- **What a failed `exec` leaves of the memory.** -/
theorem exec_fails (hold : Space s x.pagetable (pages x.sz) (procTop trampoline x.trapframe) rest)
    (htf : x.trapframe ∈ rest) (htrampoline : trampoline < 2 ^ 64) :
    Sat (exec fuel trampoline x cwd path argv) (s, f) fun o u => o.1 = -1 → o.2 = x ∧
      Space u.1 x.pagetable (pages x.sz) (procTop trampoline x.trapframe) rest ∧
        Kept (claimed s.mem x.pagetable (pages x.sz) ∪ rest) s u.1 := by
  refine (exec_loads (E := fun _ => True) (Q := fun o u => o.1 = -1 → o.2 = x ∧
    Space u x.pagetable (pages x.sz) (procTop trampoline x.trapframe) rest ∧
      Kept (claimed s.mem x.pagetable (pages x.sz) ∪ rest) s u) (fun _ _ => trivial) hold htf
    htrampoline (fun t hspace hkept _ => ⟨rfl, hspace, hkept⟩)
    fun r sz entry t hr hgrown _ => (execStart_fails hold hgrown hr).yields).sat

/-- The frames that are free are the same. -/
theorem Space.perm_freelist (h : Space s r n top rest) (h' : Space t r n top rest)
    (hkept : Kept (claimed s.mem r n ∪ rest) s t) : t.freelist.Perm s.freelist := by
  have hsame := h.unchanged Set.subset_union_left hkept
  have hpool := h.pool
  have hpool' := h'.pool
  rw [hsame.claimed] at hpool'
  refine (List.perm_ext_iff_of_nodup hpool'.nodup hpool.nodup).mpr fun a => ?_
  have hall := hpool.all a
  have hall' := (Phys.isFrame_congr hkept.ksize a).symm.trans (hpool'.all a)
  have hfree := hpool.free a
  have hfree' := hpool'.free a
  tauto

/-- **A failed `exec` is invisible.**  Whatever the path, the arguments and the files, and wherever
an allocation or a read fails: if `exec` returns -1, then the process is as it was, its memory and
all other memory in use have the same contents, the same frames are free, each inode has the
references and the lock that it had, and the one `begin_op` has been followed by one `end_op`. -/
theorem exec_failure_invisible {p p' : ExecProc} {s u : Phys} {f f' : Fs σ}
    {ops ops' : List LogCall}
    (hold : Space s p.mem.pagetable (pages p.mem.sz) (procTop trampoline p.mem.trapframe) rest)
    (htf : p.mem.trapframe ∈ rest) (htrampoline : trampoline < 2 ^ 64)
    (hrun : execCall fuel trampoline p cwd path argv ((s, f), ops) =
      .ok ((-1, p'), ((u, f'), ops'))) :
    p' = p ∧ Kept (claimed s.mem p.mem.pagetable (pages p.mem.sz) ∪ rest) s u ∧
      userMem u.mem p.mem.pagetable = userMem s.mem p.mem.pagetable ∧
      u.freelist.Perm s.freelist ∧
      (∀ ip, (f'.itable ip).ref = (f.itable ip).ref ∧
        (f'.itable ip).locked = (f.itable ip).locked) ∧
      ops' = .endOp :: .beginOp :: ops := by
  rw [execCall_apply] at hrun
  rcases hexec : exec fuel trampoline p.mem cwd path argv (s, f) with e | ⟨o, y⟩
  · rw [hexec] at hrun
    cases hrun
  rw [hexec] at hrun
  injection hrun with hrun
  simp only [Prod.mk.injEq] at hrun
  obtain ⟨⟨hneg, rfl⟩, rfl, rfl⟩ := hrun
  obtain ⟨hmem, hspace, hkept⟩ := exec_fails hold htf htrampoline _ _ hexec hneg
  obtain ⟨hrefs, hlocks⟩ := Prod.mk.inj ((exec_adds _ _ hexec).trans (add_zero _))
  have hsame := hold.unchanged Set.subset_union_left hkept
  refine ⟨?_, hkept, userMem_congr hsame.pte fun v hv => hsame.content v (hold.lt_of_userPte hv),
    hold.perm_freelist hspace hkept, fun ip => ⟨congrFun hrefs ip, ?_⟩, rfl⟩
  · rw [ExecProc.after, if_pos hneg, hmem]
  · have hlock := congrFun hlocks ip
    unfold Fs.locks at hlock
    cases hf : (f.itable ip).locked <;> cases hf' : (f'.itable ip).locked <;> simp_all

/-- What `exec` reads from the file before it fails. -/
def readsHeaders : Evaluated (((do
    let o ← execOpen 5 none [47, 102]
    let elf ← readi 1 0 64
    let ph ← readi 1 (UInt32.ofNat 64) 56
    iunlockput 1
    return decide (o = some 1 ∧ elf = (64, programBytes.take 64) ∧
      ph = (56, (programBytes.drop 64).take 56)) : FsM Store Bool) programImage).map Prod.fst =
    .ok true) :=
  ⟨by decide +kernel⟩

/-- Four pages are left to `exec`: three for a page table, and one that cannot be mapped. -/
def runsOut : Evaluated (((do
    let (trapframe, old) ← newProc
    let r ← procPagetable 0 trapframe
    let sz ← uvmalloc r 0 8 (flags2perm 5)
    return decide (trapframe ≠ 0 ∧ old ≠ 0 ∧ r ≠ 0 ∧ sz = 0) : PM Bool) (lastPages 8)).map
      Prod.fst = .ok true) :=
  ⟨by decide +kernel⟩

/-- **No memory for the program** `/f`: pages have been taken and a file has been opened, and all is
given back. -/
theorem exec_failure_invisible_runsOut : ∃ (s s₁ s₂ u : Phys) (r : ℕ) (p : ExecProc)
    (f' : Fs Store), procPagetable 0 p.mem.trapframe s = .ok (r, s₁) ∧ r ≠ 0 ∧
      uvmalloc r 0 8 (flags2perm 5) s₁ = .ok (0, s₂) ∧
      execCall 5 0 p none [47, 102] [] ((s, programImage), []) =
        .ok ((-1, p), ((u, f'), [.endOp, .beginOp])) ∧
      u.freelist.Perm s.freelist ∧
      ∀ ip, (f'.itable ip).ref = (programImage.itable ip).ref ∧
        (f'.itable ip).locked = (programImage.itable ip).locked := by
  obtain ⟨_, hrun⟩ := exists_of_map_fst runsOut.holds
  obtain ⟨⟨trapframe, old⟩, s, hproc, hrun⟩ := bind_eq_ok.mp hrun
  obtain ⟨r, s₁, htable, hrun⟩ := bind_eq_ok.mp hrun
  obtain ⟨sz, s₂, hgrow, hrun⟩ := bind_eq_ok.mp hrun
  injection hrun with hrun
  obtain ⟨htf, hold, hr, rfl⟩ := of_decide_eq_true (congrArg Prod.fst hrun)
  have hspace := newProc_space (by decide) hproc htf hold
  obtain ⟨_, hrun⟩ := exists_of_map_fst readsHeaders.holds
  obtain ⟨_, g₁, hopen, hrun⟩ := bind_eq_ok.mp hrun
  obtain ⟨elf, g₂, helf, hrun⟩ := bind_eq_ok.mp hrun
  obtain ⟨ph, g₃, hph, hrun⟩ := bind_eq_ok.mp hrun
  obtain ⟨_, g₄, hput, hrun⟩ := bind_eq_ok.mp hrun
  injection hrun with hrun
  obtain ⟨rfl, rfl, rfl⟩ := of_decide_eq_true (congrArg Prod.fst hrun)
  have hheader : loadHeader r 1 64 0 (s₁, g₂) = .ok ((false, 0), (s₂, g₃)) := by
    rw [loadHeader_programImage hph, bind_of_ok (onPhys_of_ok hgrow)]
    rfl
  have hload : execLoad 5 0 trapframe none [47, 102] (s, programImage) =
      (onPhys (execFree r 0) >>= fun _ => onFiles (iunlockput 1) >>= fun _ => pure none)
        (s₂, g₃) :=
    execLoad_programImage hopen helf htable hr (bind_of_ok hheader)
  rcases hfree : execFree r 0 s₂ with e | ⟨⟨⟩, u⟩
  · -- a machine with an address space does not stop
    have herr : onPhys (execFree r 0) (s₂, g₃) = .error (.memory e) := by rw [onPhys, hfree]
    have hyields : Yields Stop.InFiles (execLoad 5 0 trapframe none [47, 102])
        (s, programImage) _ := execLoad_yields (x := ⟨0, old, trapframe⟩) hspace rfl (by decide)
    have hstop := hload.trans (bind_of_error herr)
    obtain ⟨_, _, hok, -⟩ | ⟨_, hfiles, _, rfl⟩ := hyields
    · cases hstop.symm.trans hok
    · cases hstop.symm.trans hfiles
  · have hfailed := hload.trans ((bind_of_ok (onPhys_of_ok hfree)).trans
      (bind_of_ok (onFiles_of_ok hput)))
    have hcall : execCall 5 0 ⟨⟨0, old, trapframe⟩, [], fun _ => none⟩ none [47, 102] []
        ((s, programImage), []) = .ok ((-1, ⟨⟨0, old, trapframe⟩, [], fun _ => none⟩),
          ((u, g₄), [.endOp, .beginOp])) := by
      have hexec : exec 5 0 ⟨0, old, trapframe⟩ none [47, 102] [] (s, programImage) =
          .ok ((-1, ⟨0, old, trapframe⟩), (u, g₄)) := bind_of_ok hfailed
      rw [execCall_apply, hexec]
      rfl
    obtain ⟨-, -, -, hperm, hinodes, -⟩ :=
      exec_failure_invisible hspace (Set.mem_singleton trapframe) (by decide) hcall
    exact ⟨s, s₁, s₂, u, r, ⟨⟨0, old, trapframe⟩, [], fun _ => none⟩, g₄, htable, hr, hgrow, hcall,
      hperm, hinodes⟩

end Xv6Ext2.Vm
