import Xv6Ext2.Balance

/-!
# The counts of open files

The count of a file should be the number of descriptors that point to it, in all
processes, so that the file is released when the last of them goes.  The console is
outside this rule: its second open gives out a descriptor without a reference, and
closing a descriptor of it drops none.

`sys_open` tests and sets `console_f` without a lock.  So the first open of the console
is not one step here: other processes may come in between the test, the allocation of a
file, the assignment of `console_f`, and its use.

## Main definitions

* `Busy`, `Step`, `Steps` — a kernel in which processes may be opening the console, and its runs.
* `FilesCounted` — counts are numbers of descriptors, and of files that are on the way to one.
* `Call.FilesKept` — calls that keep it so: opening the console when that gives out a
  descriptor for a new file or none at all, and closing what is not the console.
* `Act.FilesKept` — the same for steps: an open of the console ends with the file that it took.

## Main results

* `Step.filesCounted_iff` — what one step keeps.
* `filesCounted_of_steps` — in every run whose steps are so restricted the counts are
  right, and any other step would make them wrong.
* `console_miscounted` — the console opened twice.
-/

namespace Xv6Ext2

open Function Prog RefCount

variable {σ β : Type} [BlockLayer σ β] {k : Kernel σ} {p : Fin NPROC} {fuel : ℕ} {c : Call}

/-! ### Opening the console step by step -/

/-- Where a process is in `sys_open` of a new console: outside, after it has found `console_f`
null, after `filealloc`, and after it has set `console_f`. -/
inductive OpenAt
  | out
  | tested
  | took (f : Fin NFILE)
  | stored (f : Fin NFILE)

/-- The file that a process has taken and that has no descriptor yet. -/
def OpenAt.file : OpenAt → Option (Fin NFILE)
  | out | tested => none
  | took f | stored f => some f

/-- A kernel in which processes may be opening the console. -/
structure Busy (σ : Type) where
  kernel : Kernel σ
  opening : Fin NPROC → OpenAt

/-- The end of `sys_open` for a new console, where `console_f` is read again. -/
def finishConsole (p : Fin NPROC) : KM σ ℤ := do
  let k ← get
  match k.consoleF with
  | none => throw .fault
  | some f => do
    setFile f consoleFile
    let fd ← fdalloc p f
    return fdValue fd

/-- The steps of a process: a call as a whole, or a part of an open of the console. -/
inductive Act
  | call (c : Call)
  | test
  | take
  | store
  | finish

/-- What a step does. -/
inductive Step : Busy σ → Fin NPROC → Act → Busy σ → Prop
  | call {b : Busy σ} {p : Fin NPROC} {c : Call} {fuel : ℕ} {r : Option ℤ} {k' : Kernel σ}
      (hout : b.opening p = .out) (hp : (b.kernel.proc p).state = .runnable)
      (h : c.run fuel p b.kernel = .ok (r, k')) : Step b p (.call c) { b with kernel := k' }
  | test {b : Busy σ} {p : Fin NPROC} (hout : b.opening p = .out)
      (hp : (b.kernel.proc p).state = .runnable) (hnull : b.kernel.consoleF = none) :
      Step b p .test { b with opening := update b.opening p .tested }
  | take {b : Busy σ} {p : Fin NPROC} {f : Fin NFILE} {k' : Kernel σ}
      (htested : b.opening p = .tested) (hp : (b.kernel.proc p).state = .runnable)
      (h : filealloc b.kernel = .ok (some f, k')) :
      Step b p .take ⟨k', update b.opening p (.took f)⟩
  | store {b : Busy σ} {p : Fin NPROC} {f : Fin NFILE} (htook : b.opening p = .took f)
      (hp : (b.kernel.proc p).state = .runnable) :
      Step b p .store ⟨{ b.kernel with consoleF := some f }, update b.opening p (.stored f)⟩
  | finish {b : Busy σ} {p : Fin NPROC} {f : Fin NFILE} {r : ℤ} {k' : Kernel σ}
      (hstored : b.opening p = .stored f) (hp : (b.kernel.proc p).state = .runnable)
      (h : finishConsole p b.kernel = .ok (r, k')) :
      Step b p .finish ⟨k', update b.opening p .out⟩

/-- Runs from a file system `fs` at boot, where `Allowed` holds of every step in the state it is
made in. -/
inductive Steps (fs : Fs σ) (Allowed : Busy σ → Fin NPROC → Act → Prop) : Busy σ → Prop
  | boot {fuel : ℕ} {k : Kernel σ} (h : userinit fuel (Kernel.boot fs) = .ok ((), k)) :
      Steps fs Allowed ⟨k, fun _ => .out⟩
  | step {b b' : Busy σ} {p : Fin NPROC} {a : Act} (hb : Steps fs Allowed b)
      (ha : Allowed b p a) (h : Step b p a b') : Steps fs Allowed b'

/-- Runs of calls only. -/
theorem Runs.steps {fs : Fs σ} (h : Runs fs (fun _ _ _ => True) k) :
    Steps fs (fun _ _ _ => True) ⟨k, fun _ => .out⟩ := by
  induction h with
  | boot h => exact .boot h
  | call _ hp _ h ih => exact ih.step trivial (.call rfl hp h)

variable {b b' : Busy σ} {a : Act}

/-- The files that are on the way to a descriptor. -/
def Busy.inFlight (b : Busy σ) : Fin NFILE → ℤ := pointers fun p => (b.opening p).file

theorem inFlight_update (k' : Kernel σ) (x : OpenAt) :
    (⟨k', update b.opening p x⟩ : Busy σ).inFlight =
      b.inFlight - point (b.opening p).file + point x.file := by
  have hfile : (fun q => (update b.opening p x q).file) =
      update (fun q => (b.opening q).file) p x.file := by
    funext q
    rcases eq_or_ne q p with rfl | hq
    · rw [update_self, update_self]
    · rw [update_of_ne hq, update_of_ne hq]
  unfold Busy.inFlight
  rw [hfile, pointers_update]

/-! ### Counts and descriptors -/

/-- Every file is counted by the descriptors that point to it and by the processes that are about
to make one: no descriptor points to a free file, and a file is released when, and only when,
there is none left. -/
structure FilesCounted (b : Busy σ) : Prop where
  ref_eq : ∀ f, (b.kernel.ftable f).ref = (Finset.univ.filter fun i : Fin NPROC × Fin NOFILE =>
    (b.kernel.proc i.1).ofile i.2 = some f).card +
      (Finset.univ.filter fun p => (b.opening p).file = some f).card
  ref_pos : ∀ p fd f, (b.kernel.proc p).ofile fd = some f → 0 < (b.kernel.ftable f).ref
  released : ∀ f, ((b.kernel.ftable f).ref = 0 ∧ (b.kernel.ftable f).type = .none) ↔
    (∀ p fd, (b.kernel.proc p).ofile fd ≠ some f) ∧ ∀ p, (b.opening p).file ≠ some f

theorem Busy.owed_eq : b.kernel.owed = b.inFlight ↔
    ∀ f, (b.kernel.ftable f).ref = pointers b.kernel.slots f + b.inFlight f :=
  funext_iff.trans (forall_congr' fun _ => sub_eq_iff_eq_add'.trans Iff.rfl)

theorem Tidy.filesCounted (h : Tidy b.kernel) (howed : b.kernel.owed = b.inFlight) :
    FilesCounted b := by
  have href := Busy.owed_eq.mp howed
  have hslots := fun f => pointers_nonneg b.kernel.slots f
  have hflight : ∀ f, 0 ≤ b.inFlight f := fun f => pointers_nonneg _ f
  have hpos : ∀ p fd f, (b.kernel.proc p).ofile fd = some f → 0 < (b.kernel.ftable f).ref := by
    intro p fd f hfd
    have hslot : 0 < pointers b.kernel.slots f := pointers_pos (i := (p, fd)) hfd
    have := hflight f
    rw [href f]
    omega
  refine ⟨fun f => ?_, hpos, fun f => ⟨fun hf => ⟨fun p fd hfd => ?_, fun p hp => ?_⟩, ?_⟩⟩
  · rw [href f, Busy.inFlight, pointers_eq_card, pointers_eq_card]
    rfl
  · exact absurd hf.1 (hpos p fd f hfd).ne'
  · have hfile : 0 < b.inFlight f := pointers_pos (i := p) hp
    have hslot : 0 ≤ pointers b.kernel.slots f := hslots f
    have := href f
    omega
  · intro hf
    have hslot : pointers b.kernel.slots f = 0 := pointers_eq_zero.mpr fun i => hf.1 i.1 i.2
    have hfile : b.inFlight f = 0 := pointers_eq_zero.mpr hf.2
    have hzero : (b.kernel.ftable f).ref = 0 := by rw [href f, hslot, hfile, add_zero]
    exact ⟨hzero, h.free f hzero⟩

theorem FilesCounted.owed (h : FilesCounted b) : b.kernel.owed = b.inFlight :=
  Busy.owed_eq.mpr fun f => by
    rw [h.ref_eq, Busy.inFlight, pointers_eq_card, pointers_eq_card]
    rfl

/-! ### Calls that keep the counts -/

/-- The calls that keep the counts right.  The console may be opened when it is new and a
descriptor is free, or when it is not new and none is free, so that the open fails; and
it may not be closed. -/
def Call.FilesKept (k : Kernel σ) (p : Fin NPROC) : Call → Prop
  | openPath (some path) _ =>
    isConsole path = true → (k.consoleF = none ↔ freeFd (k.proc p) ≠ none)
  | close fd => ∀ x ∈ argFile (k.proc p) fd, (k.ftable x.2).major ≠ CONSOLE
  | _ => True

instance (k : Kernel σ) (p : Fin NPROC) (c : Call) : Decidable (c.FilesKept k p) :=
  match c with
  | .openPath (some path) _ =>
    inferInstanceAs (Decidable
      (isConsole path = true → (k.consoleF = none ↔ freeFd (k.proc p) ≠ none)))
  | .close fd =>
    inferInstanceAs (Decidable (∀ x ∈ argFile (k.proc p) fd, (k.ftable x.2).major ≠ CONSOLE))
  | .openPath none _ | .dup _ | .pipe _ _ | .chdir _ | .link _ _ | .unlink _ | .mkdir _
  | .exec _ _ | .printinfo _ _ | .fork _ | .exit _ | .wait _ _ => isTrue trivial

/-- Opening the console keeps the counts where it gives out as many references as
descriptors. -/
theorem consoleSlip_fst (h : k.consoleF = none → ∃ f, freeFile k = some f) :
    (consoleSlip k p).1 = 0 ↔ (k.consoleF = none ↔ freeFd (k.proc p) ≠ none) := by
  unfold consoleSlip
  cases hcons : k.consoleF with
  | some f =>
    show -point ((freeFd (k.proc p)).map fun _ => f) = 0 ↔ _
    rw [neg_eq_zero, point_eq_zero, Option.map_eq_none_iff]
    simp
  | none =>
    obtain ⟨f, hf⟩ := h hcons
    rw [hf]
    show point (if freeFd (k.proc p) = none then some f else none) - 0 = 0 ↔ _
    rw [sub_zero, point_eq_zero]
    simp

/-- A call that returns keeps the counts exactly if it is of that kind. -/
theorem slip_fst_iff {k' : Kernel σ} {r : Option ℤ} (h : c.run fuel p k = .ok (r, k')) :
    (c.slip k p).1 = 0 ↔ c.FilesKept k p := by
  cases c with
  | openPath path omode =>
    cases path with
    | none => exact ⟨fun _ => trivial, fun _ => rfl⟩
    | some path =>
      unfold Call.slip Call.FilesKept
      by_cases hpath : isConsole path = true
      · have hfound : k.consoleF = none → ∃ f, freeFile k = some f := by
          refine Sat.map (Q := fun _ _ => k.consoleF = none → ∃ f, freeFile k = some f) ?_ r k' h
          rw [sysOpen, if_pos hpath]
          exact openConsole_found
        simp only [hpath, if_true, forall_const]
        exact consoleSlip_fst hfound
      · simp [hpath]
  | close fd =>
    show point (unclosed k p fd) = 0 ↔ ∀ x ∈ argFile (k.proc p) fd, (k.ftable x.2).major ≠ CONSOLE
    rw [point_eq_zero, unclosed]
    cases argFile (k.proc p) fd with
    | none => simp
    | some x => simp
  | _ => exact ⟨fun _ => trivial, fun _ => rfl⟩

/-- The steps that keep the counts right.  An open of the console that has been interrupted must
find its own file in `console_f` when it goes on, and a descriptor. -/
def Act.FilesKept (b : Busy σ) (p : Fin NPROC) : Act → Prop
  | call c => c.FilesKept b.kernel p
  | finish => b.kernel.consoleF = (b.opening p).file ∧ freeFd (b.kernel.proc p) ≠ none
  | test | take | store => True

/-- What a step adds to the counts that descriptors and files on the way do not account for. -/
def Act.slip (b : Busy σ) (p : Fin NPROC) : Act → Fin NFILE → ℤ
  | call c => (c.slip b.kernel p).1
  | finish => point (b.opening p).file -
      point ((freeFd (b.kernel.proc p)).bind fun _ => b.kernel.consoleF)
  | test | take | store => 0

/-- What the end of an open does. -/
theorem finishConsole_sat : Sat (finishConsole p) k fun _ k' => ∃ f, k.consoleF = some f ∧
    k'.owed = k.owed - point ((freeFd (k.proc p)).map fun _ => f) ∧
      (Works p [] k → (k.ftable f).ref ≠ 0 → Works p [] k') := by
  intro r k' h
  obtain ⟨_, _, ⟨⟩, h⟩ := bind_eq_ok.mp h
  cases hcons : k.consoleF with
  | none => rw [hcons] at h; cases h
  | some f =>
    rw [hcons] at h
    obtain ⟨_, k₁, hset, h⟩ := bind_eq_ok.mp h
    obtain ⟨fd, k₂, hfd, ⟨⟩⟩ := bind_eq_ok.mp h
    have hproc : k₁.proc = k.proc := by cases hset; rfl
    have howed : k₁.owed = k.owed := by
      cases hset
      funext f'
      show (update k.ftable f _ f').ref - pointers k.slots f' = _
      rcases eq_or_ne f' f with rfl | hne
      · rw [update_self]
        rfl
      · rw [update_of_ne hne]
        rfl
    have howed' : k'.owed = k₁.owed + -point (fd.map fun _ => f) :=
      congrArg Prod.fst (fdalloc_books _ _ hfd)
    refine ⟨f, rfl, ?_, fun hw href => fdalloc_works ?_ _ _ hfd⟩
    · rw [howed', howed, (fdalloc_sat _ _ hfd).1, hproc, sub_eq_add_neg]
    · cases hset
      exact hw.setFile fun h => absurd h href

/-- **The counts after a step.** -/
theorem Step.owed (ht : Tidy b.kernel) (h : Step b p a b') :
    b'.kernel.owed - b'.inFlight = b.kernel.owed - b.inFlight + a.slip b p := by
  cases h with
  | @call c _ r k' _ hp h =>
    obtain ⟨d, hbooks, -⟩ := call_books ht hp r k' h
    have hfst : k'.owed = b.kernel.owed + (c.slip b.kernel p).1 + 0 := congrArg Prod.fst hbooks
    show k'.owed - b.inFlight = b.kernel.owed - b.inFlight + (c.slip b.kernel p).1
    rw [hfst]
    abel
  | test hout _ _ =>
    rw [inFlight_update, hout]
    simp [Act.slip, OpenAt.file]
  | @take f k' htested _ h =>
    have hfst : k'.owed = b.kernel.owed + point (some f) :=
      congrArg Prod.fst (filealloc_books _ _ h)
    rw [inFlight_update, htested, hfst]
    simp [Act.slip, OpenAt.file]
  | store htook _ =>
    rw [inFlight_update, htook]
    show b.kernel.owed - _ = _
    simp [Act.slip, OpenAt.file]
  | @finish f r k' hstored _ h =>
    obtain ⟨g, hcons, howed, -⟩ := finishConsole_sat r k' h
    have hfd : (freeFd (b.kernel.proc p)).bind (fun _ => some g) =
        (freeFd (b.kernel.proc p)).map fun _ => g := by
      cases freeFd (b.kernel.proc p) <;> rfl
    rw [inFlight_update, Act.slip, hstored, hcons, hfd, howed]
    simp only [OpenAt.file, point_none]
    abel

/-- A step that can be made adds nothing exactly if it is of that kind. -/
theorem Step.slip_eq_zero (h : Step b p a b') : a.slip b p = 0 ↔ a.FilesKept b p := by
  cases h with
  | call _ _ h => exact slip_fst_iff h
  | @finish f r k' hstored _ h =>
    obtain ⟨g, hcons, -, -⟩ := finishConsole_sat r k' h
    rw [Act.slip, Act.FilesKept, sub_eq_zero, point_inj, hstored, hcons]
    cases freeFd (b.kernel.proc p) with
    | none => simp [OpenAt.file]
    | some fd => simp [OpenAt.file, eq_comm]
  | test _ _ _ | take _ _ _ | store _ _ => exact ⟨fun _ => trivial, fun _ => rfl⟩

theorem Step.tidy (ht : Tidy b.kernel) (hk : FilesCounted b) (h : Step b p a b')
    (hkept : a.FilesKept b p) : Tidy b'.kernel := by
  have hworks : (b.kernel.proc p).state = .runnable → Works p [] b.kernel := fun hp =>
    ⟨ht, hp, List.nodup_nil, fun _ hf => absurd hf List.not_mem_nil⟩
  cases h with
  | call _ hp h => exact call_tidy ht hp _ _ h
  | test _ _ _ => exact ht
  | take _ hp h => exact (filealloc_works (hworks hp) _ _ h).toTidy
  | store _ _ => exact ht.congr rfl rfl
  | @finish f r k' hstored hp h =>
    obtain ⟨g, hcons, -, hw⟩ := finishConsole_sat r k' h
    -- the file is in use, as the process has taken it
    have hfile : (b.opening p).file = some g := hkept.1.symm.trans hcons
    refine (hw (hworks hp) fun hzero => ?_).toTidy
    exact ((hk.released g).mp ⟨hzero, ht.free g hzero⟩).2 p hfile

/-- **One step**: the counts stay right exactly if it is of that kind. -/
theorem Step.filesCounted_iff (ht : Tidy b.kernel) (hk : FilesCounted b) (h : Step b p a b') :
    FilesCounted b' ↔ a.FilesKept b p := by
  have howed : b'.kernel.owed - b'.inFlight = a.slip b p := by
    rw [h.owed ht, hk.owed, sub_self, zero_add]
  rw [← h.slip_eq_zero]
  constructor
  · intro hk'
    rw [← howed, hk'.owed, sub_self]
  · intro hzero
    exact (h.tidy ht hk (h.slip_eq_zero.mp hzero)).filesCounted
      (sub_eq_zero.mp (howed.trans hzero))

/-- **Open files are counted** in every run, however the opens of the console are interleaved, whose
calls open the console only anew with a descriptor free, or in vain, and do not close it, and
whose interrupted opens find their own file.  In such a run any other step makes a count wrong. -/
theorem filesCounted_of_steps {fs : Fs σ} (h : Steps fs (fun b p a => a.FilesKept b p) b) :
    FilesCounted b ∧
      ((∀ p, b.opening p = .out) → ∀ f, (b.kernel.ftable f).ref =
        (Finset.univ.filter fun i : Fin NPROC × Fin NOFILE =>
          (b.kernel.proc i.1).ofile i.2 = some f).card) ∧
      ∀ {p : Fin NPROC} {a : Act} {b' : Busy σ}, Step b p a b' →
        (FilesCounted b' ↔ a.FilesKept b p) := by
  obtain ⟨ht, hcounted⟩ : Tidy b.kernel ∧ FilesCounted b := by
    induction h with
    | @boot _ k h =>
      have ht : Tidy k := userinit_tidy _ _ h
      refine ⟨ht, Tidy.filesCounted (b := ⟨k, fun _ => .out⟩) ht ?_⟩
      have hbooks := congrArg Prod.fst (userinit_books _ _ h)
      refine (hbooks.trans ((add_zero _).trans (Kernel.boot_owed fs))).trans ?_
      funext f
      have hflight : (⟨k, fun _ => .out⟩ : Busy σ).inFlight f = 0 :=
        pointers_eq_zero.mpr fun _ h => by cases h
      exact hflight.symm
    | step _ ha h ih => exact ⟨h.tidy ih.1 ih.2 ha, (h.filesCounted_iff ih.1 ih.2).mpr ha⟩
  refine ⟨hcounted, fun hout f => ?_, fun hstep => hstep.filesCounted_iff ht hcounted⟩
  have hnone : (Finset.univ.filter fun p => (b.opening p).file = some f).card = 0 :=
    Finset.card_eq_zero.mpr (Finset.filter_eq_empty_iff.mpr fun p _ => by
      rw [hout p]
      exact fun h => by cases h)
  rw [hcounted.ref_eq f, hnone, Nat.cast_zero, add_zero]

/-! ### The console -/

/-- A file system with the root directory of `rootImage`, at boot. -/
def bootImage : Fs Store :=
  imageOf [(3, setUsed (setUsed (setUsed Block.zero 0) 2) 7),
    (5, Block.zero.put INODESIZE sizeofDinode
      { Ext2Dinode.zero with
        iMode := ext2TDir, iLinksCount := 3, iSize := 1024
        iBlock := fun r => if r = 0 then 10 else 0 }.encode),
    (10, bytesBlock rootBytes)]

/-- The path `console`. -/
def consolePath : Option (List UInt8) := some [99, 111, 110, 115, 111, 108, 101]

/-- A process finds `console_f` null and takes a file, its child makes a pipe, and the process goes
on. -/
def opensBetween : Evaluated (((do
    userinit 1
    let k₀ ← get
    let _ ← (Call.fork true).run 1 0
    let k₁ ← get
    let f ← filealloc
    let k₂ ← get
    let _ ← (Call.pipe true true).run 1 1
    let k₃ ← get
    modify fun k => { k with consoleF := some 0 }
    let _ ← finishConsole 0
    let k₄ ← get
    return decide ((k₀.proc 0).state = .runnable ∧ (k₁.proc 0).state = .runnable ∧
      k₁.consoleF = none ∧ f = some 0 ∧ (k₂.proc 1).state = .runnable ∧
      (k₃.proc 0).state = .runnable ∧ freeFd (k₃.proc 0) ≠ none ∧ (k₄.ftable 0).ref = 1 ∧
      (k₄.proc 0).ofile 0 = some 0 ∧ (k₄.proc 1).ofile 0 = some 1) : KM Store Bool)
      (Kernel.boot bootImage)).map Prod.fst = .ok true) :=
  ⟨by decide +kernel⟩

/-- The console is opened with a call of another process in between: all counts are right at the
end. -/
theorem filesCounted_opensBetween : ∃ k : Kernel Store,
    Steps bootImage (fun b p a => a.FilesKept b p) ⟨k, fun _ => .out⟩ ∧
      (k.ftable 0).ref = 1 ∧ (k.proc 0).ofile 0 = some 0 ∧ (k.proc 1).ofile 0 = some 1 ∧
        FilesCounted ⟨k, fun _ => .out⟩ := by
  obtain ⟨_, hrun⟩ := exists_of_map_fst opensBetween.holds
  obtain ⟨_, k₀, hboot, hrun⟩ := bind_eq_ok.mp hrun
  obtain ⟨_, _, ⟨⟩, hrun⟩ := bind_eq_ok.mp hrun
  obtain ⟨_, k₁, hfork, hrun⟩ := bind_eq_ok.mp hrun
  obtain ⟨_, _, ⟨⟩, hrun⟩ := bind_eq_ok.mp hrun
  obtain ⟨f, k₂, halloc, hrun⟩ := bind_eq_ok.mp hrun
  obtain ⟨_, _, ⟨⟩, hrun⟩ := bind_eq_ok.mp hrun
  obtain ⟨_, k₃, hpipe, hrun⟩ := bind_eq_ok.mp hrun
  obtain ⟨_, _, ⟨⟩, hrun⟩ := bind_eq_ok.mp hrun
  obtain ⟨_, _, ⟨⟩, hrun⟩ := bind_eq_ok.mp hrun
  obtain ⟨r, k₄, hfinish, hrun⟩ := bind_eq_ok.mp hrun
  obtain ⟨_, _, ⟨⟩, hrun⟩ := bind_eq_ok.mp hrun
  injection hrun with hrun
  obtain ⟨h₀, h₁, hnull, rfl, h₂, h₃, hfd, href, hslot, hslot'⟩ :=
    of_decide_eq_true (congrArg Prod.fst hrun)
  have hsteps : Steps bootImage (fun b p a => a.FilesKept b p) ⟨k₀, fun _ => .out⟩ := .boot hboot
  have hforked := hsteps.step (a := .call (.fork true)) trivial (.call rfl h₀ hfork)
  have htested := hforked.step (a := .test) trivial (.test rfl h₁ hnull)
  have htook := htested.step (a := .take) trivial (.take (update_self ..) h₁ halloc)
  have hpiped := htook.step (a := .call (.pipe true true)) trivial (.call rfl h₂ hpipe)
  have hstored := hpiped.step (a := .store) trivial (.store (update_self ..) h₃)
  have hdone := hstored.step (a := .finish) ⟨rfl, hfd⟩
    (.finish (p := 0) (f := 0) rfl h₃ hfinish)
  simp only [update_idem] at hdone
  rw [update_eq_self 0 (fun _ : Fin NPROC => OpenAt.out)] at hdone
  exact ⟨k₄, hdone, href, hslot, hslot', (filesCounted_of_steps hdone).1⟩

/-- A process opens the console twice. -/
def opensTwice : Script bootImage (fun _ _ _ => True)
    (fun k => (k.proc 0).ofile 0 = some 0 ∧ (k.proc 0).ofile 1 = some 0 ∧
      (k.ftable 0).ref = 1) where
  fuel := 1
  calls := [(0, .openPath consolePath 2), (0, .openPath consolePath 2)]
  evaluates := by decide +kernel

/-- **The console opened twice**: two descriptors point to the file, and its count is 1. -/
theorem console_miscounted : ∃ k : Kernel Store,
    Steps bootImage (fun _ _ _ => True) ⟨k, fun _ => .out⟩ ∧
    (k.proc 0).ofile 0 = some 0 ∧ (k.proc 0).ofile 1 = some 0 ∧ (k.ftable 0).ref = 1 ∧
    ¬FilesCounted ⟨k, fun _ => .out⟩ := by
  obtain ⟨k, hruns, h₀, h₁, href⟩ := opensTwice.runs
  refine ⟨k, hruns.steps, h₀, h₁, href, fun hk => ?_⟩
  have hlt : 1 < pointers k.slots 0 :=
    one_lt_pointers (i := (0, 0)) (j := (0, 1)) (by decide) h₀ h₁
  have heq := Busy.owed_eq.mp hk.owed 0
  have hflight : 0 ≤ (⟨k, fun _ => .out⟩ : Busy Store).inFlight 0 := pointers_nonneg _ 0
  dsimp only at heq
  omega

end Xv6Ext2
