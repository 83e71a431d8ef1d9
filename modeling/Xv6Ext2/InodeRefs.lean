import Xv6Ext2.OpenFiles

/-!
# The counts of inodes in memory

The count of an inode in memory should be the number of current directories and open
files that hold it, at every point between system calls.  Paths through the file system
pair each reference they take with one they drop, and pass on the one they return.  Two
of the listing functions do not, and the first open of the console may take over an
inode that an old file has left in its entry.

## Main definitions

* `InodesCounted` — counts are numbers of holders.
* `Call.InodesKept` — the calls that keep it so.

## Main results

* `inodesCounted_of_runs` — in every run whose calls are so restricted the counts are
  right, and any other call that returns would make them wrong.
* `cwd_put_twice` — a process that lists its current directory.
-/

namespace Xv6Ext2

open RefCount

variable {σ β : Type} [BlockLayer σ β] {k : Kernel σ} {p : Fin NPROC} {fuel : ℕ} {c : Call}

/-- Every inode is counted by the current directories and by the files in use that hold
it. -/
def InodesCounted (k : Kernel σ) : Prop :=
  ∀ ip, (k.fs.itable ip).ref =
    (Finset.univ.filter fun p => (k.proc p).cwd = some ip).card +
    (Finset.univ.filter fun f => (k.ftable f).ref ≠ 0 ∧ (k.ftable f).inode = some ip).card

/-- A file that holds an inode is in use. -/
theorem Tidy.ref_ne_zero (h : Tidy k) {f : Fin NFILE} {ip : Fin NINODE}
    (hf : (k.ftable f).inode = some ip) : (k.ftable f).ref ≠ 0 := by
  intro href
  rw [File.inode, h.free f href] at hf
  cases hf

/-- **The counts are right when the books balance.** -/
theorem Tidy.inodesCounted_iff (h : Tidy k) : InodesCounted k ↔ k.due = 0 := by
  have hfiles : ∀ ip, (Finset.univ.filter fun f => (k.ftable f).ref ≠ 0 ∧
      (k.ftable f).inode = some ip) = Finset.univ.filter fun f => (k.ftable f).inode = some ip := by
    intro ip
    ext f
    rw [Finset.mem_filter, Finset.mem_filter]
    exact ⟨fun hf => ⟨hf.1, hf.2.2⟩, fun hf => ⟨hf.1, h.ref_ne_zero hf.2, hf.2⟩⟩
  have hdue : ∀ ip, k.due ip = (k.fs.itable ip).ref -
      ((Finset.univ.filter fun p => (k.proc p).cwd = some ip).card +
        (Finset.univ.filter fun f => (k.ftable f).ref ≠ 0 ∧
          (k.ftable f).inode = some ip).card) := by
    intro ip
    rw [hfiles ip, ← sub_sub]
    show k.fs.refs ip - pointers (Proc.cwd ∘ k.proc) ip - pointers (File.inode ∘ k.ftable) ip = _
    rw [pointers_eq_card, pointers_eq_card]
    rfl
  constructor
  · intro hk
    funext ip
    rw [hdue ip]
    exact sub_eq_zero.mpr (hk ip)
  · intro hk ip
    exact sub_eq_zero.mp ((hdue ip).symm.trans (congrFun hk ip))

/-! ### Calls that keep the counts -/

/-- The calls that keep the counts right: the current directory or a file in it may not
be listed, and the first open of the console must find an entry without an inode. -/
def Call.InodesKept (k : Kernel σ) : Call → Prop
  | openPath (some path) _ =>
    isConsole path = true → k.consoleF = none → ∀ f ∈ freeFile k, (k.ftable f).ip = none
  | printinfo code _ => code ≠ 1 ∧ code ≠ 2
  | _ => True

instance (k : Kernel σ) (c : Call) : Decidable (c.InodesKept k) :=
  match c with
  | .openPath (some path) _ =>
    inferInstanceAs (Decidable (isConsole path = true → k.consoleF = none →
      ∀ f ∈ freeFile k, (k.ftable f).ip = none))
  | .printinfo code _ => inferInstanceAs (Decidable (code ≠ 1 ∧ code ≠ 2))
  | .openPath none _ | .dup _ | .close _ | .pipe _ _ | .chdir _ | .link _ _ | .unlink _
  | .mkdir _ | .exec _ _ | .fork _ | .exit _ | .wait _ _ => isTrue trivial

theorem consoleSlip_snd : (consoleSlip k p).2 = 0 ↔
    (k.consoleF = none → ∀ f ∈ freeFile k, (k.ftable f).ip = none) := by
  unfold consoleSlip
  cases k.consoleF with
  | some f =>
    show -(0 : Fin NINODE → ℤ) = 0 ↔ _
    simp
  | none =>
    cases freeFile k with
    | none => simp
    | some f =>
      show 0 - point (k.ftable f).ip = 0 ↔ _
      rw [zero_sub, neg_eq_zero, point_eq_zero]
      simp

/-- A call adds no reference to an inode exactly if it is of that kind. -/
theorem slip_snd_iff {d : Fin NINODE → ℤ} (hd : d = 0 ↔ ¬c.Lists) :
    (c.slip k p).2 + d = 0 ↔ c.InodesKept k := by
  cases c with
  | openPath path omode =>
    have hd0 : d = 0 := hd.mpr fun h => h
    rw [hd0, add_zero]
    cases path with
    | none => exact ⟨fun _ => trivial, fun _ => rfl⟩
    | some path =>
      unfold Call.slip Call.InodesKept
      by_cases hpath : isConsole path = true
      · simp only [hpath, if_true, forall_const]
        exact consoleSlip_snd
      · simp [hpath]
  | printinfo code name =>
    show 0 + d = 0 ↔ code ≠ 1 ∧ code ≠ 2
    rw [zero_add, hd]
    exact not_or
  | _ =>
    have hd0 : d = 0 := hd.mpr fun h => h
    rw [hd0]
    exact ⟨fun _ => trivial, fun _ => rfl⟩

/-- **One call**: the counts stay right exactly if the call is of that kind. -/
theorem inodesCounted_call_iff {k' : Kernel σ} {r : Option ℤ} (ht : Tidy k)
    (hk : InodesCounted k) (hp : (k.proc p).state = .runnable)
    (h : c.run fuel p k = .ok (r, k')) : InodesCounted k' ↔ c.InodesKept k := by
  obtain ⟨d, hbooks, hd⟩ := call_books ht hp r k' h
  have hdue : k'.due = (c.slip k p).2 + d := by
    have hsnd : k'.due = k.due + (c.slip k p).2 + d := congrArg Prod.snd hbooks
    rw [hsnd, ht.inodesCounted_iff.mp hk, zero_add]
  rw [(call_tidy ht hp r k' h).inodesCounted_iff, hdue]
  exact slip_snd_iff hd

/-- **Inodes are counted** in every run whose calls list neither the current directory
nor a file in it, and open the console first in an entry that holds no inode.  In such a
run any other call that returns makes a count wrong. -/
theorem inodesCounted_of_runs {fs : Fs σ} (hfs : ∀ ip, (fs.itable ip).ref = 0)
    (h : Runs fs (fun k _ c => c.InodesKept k) k) :
    InodesCounted k ∧ ∀ {fuel : ℕ} {p : Fin NPROC} {c : Call} {r : Option ℤ} {k' : Kernel σ},
      (k.proc p).state = .runnable → c.run fuel p k = .ok (r, k') →
        (InodesCounted k' ↔ c.InodesKept k) := by
  have hcounted : InodesCounted k := by
    induction h with
    | boot h =>
      refine (userinit_tidy _ _ h).inodesCounted_iff.mpr ?_
      have := congrArg Prod.snd (userinit_books _ _ h)
      refine this.trans ((add_zero _).trans ((Kernel.boot_due fs).trans ?_))
      funext ip
      exact hfs ip
    | call hrun hp hc h ih => exact (inodesCounted_call_iff hrun.tidy ih hp h).mpr hc
  exact ⟨hcounted, fun hp hcall => inodesCounted_call_iff h.tidy hcounted hp hcall⟩

/-! ### The root directory -/

/-- A child closes the root directory and lists it. -/
def listsRoot : Script bootImage (fun k _ c => c.InodesKept k)
    (fun k => (k.fs.itable 0).ref = 2 ∧ (k.proc 1).state = .zombie) where
  fuel := 4
  calls := [(0, .openPath (some [47]) 0), (0, .fork true), (1, .chdir (some [47])), (1, .close 0),
    (1, .printinfo 0 none)]
  evaluates := by decide +kernel

/-- The first process opens the root directory and makes a process that lists it: there
are a current directory and a file at the end, and the count is 2. -/
theorem inodesCounted_bootImage : ∃ k : Kernel Store,
    (Runs bootImage (fun k _ c => c.InodesKept k) k ∧ (k.fs.itable 0).ref = 2 ∧
      (k.proc 1).state = .zombie) ∧ InodesCounted k := by
  obtain ⟨k, hruns, hk⟩ := listsRoot.runs
  exact ⟨k, ⟨hruns, hk⟩, (inodesCounted_of_runs (fun _ => rfl) hruns).1⟩

/-- A child lists its current directory. -/
def listsCwd : Script bootImage (fun _ _ _ => True)
    (fun k => (k.proc 0).cwd = some 0 ∧ (k.fs.itable 0).ref = 0) where
  fuel := 4
  calls := [(0, .fork true), (1, .printinfo 1 none)]
  evaluates := by decide +kernel

/-- **The current directory listed**: the new process puts it twice, so its count is 0
while it is still that of the first process. -/
theorem cwd_put_twice : ∃ k : Kernel Store, Runs bootImage (fun _ _ _ => True) k ∧
    (k.proc 0).cwd = some 0 ∧ (k.fs.itable 0).ref = 0 ∧ ¬InodesCounted k := by
  obtain ⟨k, hruns, hcwd, href⟩ := listsCwd.runs
  refine ⟨k, hruns, hcwd, href, fun hk => ?_⟩
  have hpos : 0 < pointers (Proc.cwd ∘ k.proc) 0 := pointers_pos (i := 0) hcwd
  rw [pointers_eq_card] at hpos
  have hsum := hk 0
  rw [href] at hsum
  exact absurd hsum (ne_of_lt (add_pos_of_pos_of_nonneg hpos (Int.natCast_nonneg _)))

end Xv6Ext2
