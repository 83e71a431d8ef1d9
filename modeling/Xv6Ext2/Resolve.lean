import Mathlib.Data.List.DropRight
import Xv6Ext2.Refs

/-!
# The two path resolvers

`namei` and `nameiparent` of `kernel/fs.c` go through one loop, `namex`, which for
`nameiparent` stops before the last element of the path.  Callers that need both the
directory and the inode resolve a path with `nameiparent` and look the last element up
themselves; others resolve it with `namei`.

Looking up the last element after `nameiparent` takes `namei` to the same inode.  A
difference could only come from the directory that `namei` puts at the end, if that was the
last reference to a directory without links.

## Main definitions

* `lookupIn` — the lookup that follows `nameiparent`.
* `walkStart` — where a walk starts, the root inode having been read in.
* `EndsLinked` — the directories in which a path ends are not freed when they are put.
* `ResolversAgree` — `namei` finds what `nameiparent` and a lookup find.

## Main results

* `namexLoop_split` — a walk to the end is a walk to the last element and a lookup.
* `resolvers_agree` — **the two resolvers agree** on every path.
* `namex_balanced` — **a walk keeps no reference but the one it returns, and no lock.**
-/

namespace Xv6Ext2

open CString Function Prog RefCount

variable {σ β : Type} [BlockLayer σ β] {α : Type} {ip dp : Fin NINODE} {fuel : ℕ}
  {cwd : Option (Fin NINODE)} {path name rest : List UInt8} {s t : Fs σ}

/-! ### Elements -/

/-- What follows an element is shorter than the path. -/
theorem length_skipelem (h : skipelem path = some (name, rest)) : rest.length < path.length := by
  unfold skipelem at h
  split at h
  · cases h
  · next c l hl =>
    cases h
    have hc : c ≠ 47 := by
      have := List.head?_dropWhile_not (· = (47 : UInt8)) path
      rw [hl] at this
      simpa using this
    rw [List.dropWhile_cons_of_pos (by simpa using hc)]
    calc ((l.dropWhile (· ≠ 47)).dropWhile (· = 47)).length
        ≤ (l.dropWhile (· ≠ 47)).length := (List.dropWhile_suffix _).length_le
      _ ≤ l.length := (List.dropWhile_suffix _).length_le
      _ < (c :: l).length := Nat.lt_succ_self _
      _ = (path.dropWhile (· = 47)).length := by rw [hl]
      _ ≤ path.length := (List.dropWhile_suffix _).length_le

/-- After an element there is another one or nothing. -/
theorem skipelem_rest (h : skipelem path = some (name, rest)) (hrest : rest ≠ []) :
    ∃ e, skipelem rest = some e := by
  unfold skipelem at h
  split at h
  · cases h
  · next c l hl =>
    cases h
    unfold skipelem
    rw [List.dropWhile_idempotent]
    split
    · next hnil => exact absurd hnil hrest
    · exact ⟨_, rfl⟩

theorem skipelem_nil : skipelem [] = none := rfl

/-! ### What a lookup does to its directory -/

/-- The entry `dp` is in use and stays so, with its lock and its number of links. -/
def Stays (dp : Fin NINODE) (s t : Fs σ) : Prop :=
  0 < (s.itable dp).ref → (s.itable dp).ref ≤ (t.itable dp).ref ∧
    (t.itable dp).locked = (s.itable dp).locked ∧ (t.itable dp).nlink = (s.itable dp).nlink

instance : Std.Refl (Stays dp : Fs σ → Fs σ → Prop) := ⟨fun _ _ => ⟨le_rfl, rfl, rfl⟩⟩

instance : IsTrans (Fs σ) (Stays dp) where
  trans s t u hst htu hpos := by
    obtain ⟨href, hlock, hlink⟩ := hst hpos
    obtain ⟨href', hlock', hlink'⟩ := htu (lt_of_lt_of_le hpos href)
    exact ⟨href.trans href', hlock'.trans hlock, hlink'.trans hlink⟩

theorem Stays.of_head {m : FsM σ α} (h : Keeps (SameHead dp) m) : Keeps (Stays dp) m := by
  intro s
  refine (h s).mono fun _ t hst _ => ⟨?_, ?_, ?_⟩
  · exact le_of_eq (congrArg Inode.ref hst.head :).symm
  · exact (congrArg Inode.locked hst.head :)
  · exact (congrArg Inode.nlink hst.head :)

theorem stays_iget {dev inum : UInt32} : Keeps (Stays dp) (iget dev inum : FsM σ (Fin NINODE)) := by
  intro s ip t hrun hpos
  by_cases hip : dp = ip
  · subst hip
    rcases iget_cases hrun with ⟨-, -, -, rfl⟩ | ⟨hzero, -⟩
    · rw [Fs.itable_setItable, update_self]
      exact ⟨(Int.lt_succ _).le, rfl, rfl⟩
    · omega
  · rw [(iget_frame hrun).1 dp hip]
    exact ⟨le_rfl, rfl, rfl⟩

theorem stays_dirlookupLoop {name : ℕ → UInt8} : ∀ (fuel : ℕ) (fileName : ℕ → UInt8) (off : UInt32),
    Keeps (Stays dp) (dirlookupLoop dp name fuel fileName off : FsM σ _) := by
  intro fuel
  induction fuel with
  | zero => intro fileName off; exact Keeps.throw _
  | succ fuel ih =>
    intro fileName off
    rw [dirlookupLoop]
    refine (Stays.of_head (allowsData_head.of_same (keeps_getInode dp))).bind fun i => ?_
    refine Keeps.ite ?_ (Keeps.pure _)
    refine (Stays.of_head (head_readi off _)).bind fun r => ?_
    refine Keeps.ite (Keeps.throw _) (Keeps.ite (ih _ _) (Keeps.ite ?_ (ih _ _)))
    exact stays_iget.bind fun ip => Keeps.pure _

theorem stays_dirlookup {name : ℕ → UInt8} :
    Keeps (Stays dp) (dirlookup fuel dp name : FsM σ _) := by
  refine Keeps.get.bind fun s => Keeps.ite (Keeps.throw _) ?_
  exact stays_dirlookupLoop fuel _ _

/-! ### The last element -/

/-- The lookup of the last element, by a caller of `nameiparent`. -/
def lookupIn (fuel : ℕ) (dp : Fin NINODE) (name : List UInt8) : FsM σ (Option (Fin NINODE)) := do
  ilock dp
  let r ← dirlookup fuel dp (cstr name)
  return r.map Prod.fst

/-- What `namei` does where `nameiparent` returns. -/
def finish (fuel : ℕ) (r : Option (Fin NINODE × List UInt8)) :
    FsM σ (Option (Fin NINODE × List UInt8)) :=
  match r with
  | none => return none
  | some (dp, name) => do
    let next ← lookupIn fuel dp name
    iunlockput dp
    return next.map fun ip => (ip, [])

/-- Giving up the lock and taking it again. -/
theorem iunlock_ilock (href : 1 ≤ (s.itable ip).ref) (hvalid : (s.itable ip).valid = true)
    (hlocked : (s.itable ip).locked = true) {m : Unit → FsM σ α} :
    (do iunlock ip; ilock ip; m ()) s = m () s := by
  rw [bind_of_ok (iunlock_of_locked href hlocked)]
  have hself : (s.setItable ip { s.itable ip with locked := false }).itable ip =
      { s.itable ip with locked := false } := by
    rw [Fs.itable_setItable, update_self]
  rw [bind_of_ok (ilock_of_valid (by rw [hself]; exact href) (by rw [hself])
    (by rw [hself]; exact hvalid)), hself]
  congr 1
  have hentry : ({ s.itable ip with locked := true } : Inode) = s.itable ip := by rw [← hlocked]
  unfold Fs.setItable
  dsimp only
  rw [hentry, update_idem, update_eq_self]

/-- **A walk to the end of a path is a walk to its last element, and a lookup.** -/
theorem namexLoop_split : ∀ (n : ℕ) (path : List UInt8) (ip : Fin NINODE) (s : Fs σ),
    path.length < n → (∃ e, skipelem path = some e) →
      namexLoop fuel false n path ip s = (namexLoop fuel true n path ip >>= finish fuel) s := by
  intro n
  induction n with
  | zero => intro path ip s hn; exact absurd hn (Nat.not_lt_zero _)
  | succ n ih =>
    intro path ip s hn hpath
    obtain ⟨⟨name, rest⟩, hskip⟩ := hpath
    have hlen := length_skipelem hskip
    rw [namexLoop, namexLoop, hskip]
    dsimp only
    rw [bind_assoc]
    refine bind_congr_of_ok fun _ t hlock => ?_
    obtain ⟨hvalid, hlocked, href, -, -⟩ := ilock_sat s _ t hlock
    rw [bind_assoc]
    refine bind_congr_of_ok fun i t' hget => ?_
    cases hget
    split
    · rw [bind_assoc]
      rfl
    · rw [if_neg (by simp)]
      by_cases hrest : rest = []
      · -- the last element: the directory is locked again
        rw [if_pos ⟨rfl, hrest⟩, bind_assoc]
        have hagain := iunlock_ilock (m := fun _ => do
          let r ← dirlookup fuel ip (cstr name)
          iunlockput ip
          return (r.map Prod.fst).map fun next => (next, ([] : List UInt8))) href hvalid hlocked
        simp only [finish, lookupIn, pure_bind, bind_assoc] at hagain ⊢
        rw [hagain]
        refine bind_congr_of_ok fun r u _ => ?_
        cases r with
        | none => rfl
        | some e =>
          refine bind_congr_of_ok fun _ v _ => ?_
          obtain ⟨k, rfl⟩ : ∃ k, n = k + 1 := ⟨n - 1, by omega⟩
          rw [hrest, namexLoop, skipelem_nil]
          rfl
      · rw [if_neg fun h => hrest h.2, bind_assoc]
        refine bind_congr_of_ok fun r u _ => ?_
        cases r with
        | none =>
          dsimp only
          rw [bind_assoc]
          rfl
        | some e =>
          dsimp only
          rw [bind_assoc]
          exact bind_congr_of_ok fun _ v _ =>
            ih rest e.1 v (by omega) (skipelem_rest hskip hrest)

/-! ### Agreement -/

/-- Where a walk starts, with the root inode read in. -/
def walkStart (cwd : Option (Fin NINODE)) (path : List UInt8) : FsM σ (Fin NINODE) := do
  let ip ← startInode cwd path
  rootRead path ip
  return ip

theorem namex_eq {parent : Bool} : (namex fuel cwd path parent : FsM σ _) =
    walkStart cwd path >>= namexLoop fuel parent (path.length + 1) path := by
  unfold namex walkStart
  simp only [bind_assoc, pure_bind]

/-- `namei`, as what its callers could do with `nameiparent`. -/
theorem namei_eq (hpath : ∃ e, skipelem path = some e) (s : Fs σ) :
    namei fuel cwd path s =
      (do
        let r ← nameiparent fuel cwd path
        let r ← finish fuel r
        return r.map Prod.fst) s := by
  have hsplit : namex fuel cwd path false s =
      (namex fuel cwd path true >>= finish fuel) s := by
    rw [namex_eq, namex_eq, bind_assoc]
    exact bind_congr_of_ok fun ip t _ => namexLoop_split _ path ip t (Nat.lt_succ_self _) hpath
  unfold namei nameiparent
  rw [← bind_assoc, bind_apply, bind_apply, hsplit]

/-- Putting the inode does not free it: it has a link, or there is another reference. -/
def Fs.Lasts (s : Fs σ) (ip : Fin NINODE) : Prop :=
  (s.itable ip).valid = true → (s.itable ip).nlink ≠ 0 ∨ (s.itable ip).ref ≠ 1

theorem iput_of_lasts (h : s.Lasts ip) : iput ip s = .ok ((), s.unref ip) := by
  unfold iput
  rw [bind_of_ok (getInode_apply s ip), if_neg]
  · rfl
  · intro hlast
    rcases h hlast.2.1 with hlink | href
    · exact hlink hlast.2.2
    · exact href hlast.1

/-- A lookup in a directory that lasts, and putting the directory. -/
theorem iunlockput_lookupIn (hlasts : s.Lasts dp) {r : Option (Fin NINODE)} {u : Fs σ}
    (hvalid : (s.itable dp).valid = true) (h : lookupIn fuel dp name s = .ok (r, u)) :
    ∃ v, iunlockput dp u = .ok ((), v) := by
  obtain ⟨_, t, hlock, h⟩ := bind_eq_ok.mp h
  obtain ⟨e, u', hlookup, h⟩ := bind_eq_ok.mp h
  cases h
  obtain ⟨-, hlocked, href, -, ht⟩ := ilock_sat s _ t hlock
  have ht := ht hvalid
  subst ht
  obtain ⟨href', hlocked', hlink⟩ := stays_dirlookup _ _ u hlookup (by omega)
  rw [Fs.itable_setItable, update_self] at href hlocked href' hlocked' hlink
  have hpos : (s.itable dp).ref ≤ (u.itable dp).ref := href'
  have hone : 1 ≤ (s.itable dp).ref := href
  unfold iunlockput
  rw [bind_of_ok (iunlock_of_locked (by omega) hlocked')]
  refine ⟨_, iput_of_lasts fun _ => ?_⟩
  rw [Fs.itable_setItable, update_self]
  show (u.itable dp).nlink ≠ 0 ∨ (u.itable dp).ref ≠ 1
  rcases hlasts hvalid with h0 | h1
  · exact Or.inl (hlink ▸ h0)
  · exact Or.inr (by omega)

/-- The directory in which a path ends, and the one where it starts, are not freed when they
are put.  What an entry names has a link; the root directory has an entry of its own, and a
current directory is held by its process. -/
structure EndsLinked (fuel : ℕ) (cwd : Option (Fin NINODE)) (path : List UInt8) (s : Fs σ) :
    Prop where
  last : ∀ dp name t, nameiparent fuel cwd path s = .ok (some (dp, name), t) → t.Lasts dp
  start : ∀ ip t, walkStart cwd path s = .ok (ip, t) → t.Lasts ip

/-- **What the resolvers have to do with each other.** -/
structure ResolversAgree (fuel : ℕ) (cwd : Option (Fin NINODE)) (path : List UInt8) (s : Fs σ) :
    Prop where
  /-- `namei` returns an inode if a lookup in the directory that `nameiparent` returns does. -/
  found : (∃ e, skipelem path = some e) → ∀ ip,
    (∃ t, namei fuel cwd path s = .ok (some ip, t)) ↔
      ∃ dp name t u, nameiparent fuel cwd path s = .ok (some (dp, name), t) ∧
        lookupIn fuel dp name t = .ok (some ip, u)
  /-- `namei` returns no inode if `nameiparent` does not or the lookup finds nothing. -/
  missing : (∃ e, skipelem path = some e) →
    ((∃ t, namei fuel cwd path s = .ok (none, t)) ↔
      (∃ t, nameiparent fuel cwd path s = .ok (none, t)) ∨
        ∃ dp name t u, nameiparent fuel cwd path s = .ok (some (dp, name), t) ∧
          lookupIn fuel dp name t = .ok (none, u))
  /-- On a path without elements, `namei` returns the inode where it starts. -/
  bare : skipelem path = none → ∀ ip t, walkStart cwd path s = .ok (ip, t) →
    namei fuel cwd path s = .ok (some ip, t) ∧ ∃ u, nameiparent fuel cwd path s = .ok (none, u)

/-- Where the last lookup ends `namei` ends. -/
theorem namei_iff (h : EndsLinked fuel cwd path s) (hpath : ∃ e, skipelem path = some e)
    (r : Option (Fin NINODE)) : (∃ t, namei fuel cwd path s = .ok (r, t)) ↔
      (r = none ∧ ∃ t, nameiparent fuel cwd path s = .ok (none, t)) ∨
        ∃ dp name t u, nameiparent fuel cwd path s = .ok (some (dp, name), t) ∧
          lookupIn fuel dp name t = .ok (r, u) := by
  rw [namei_eq hpath]
  constructor
  · intro hrun
    obtain ⟨v, hrun⟩ := hrun
    obtain ⟨e, t, hparent, hrun⟩ := bind_eq_ok.mp hrun
    obtain ⟨e', v', hfinish, hrun⟩ := bind_eq_ok.mp hrun
    cases hrun
    cases e with
    | none =>
      cases hfinish
      exact Or.inl ⟨rfl, _, hparent⟩
    | some e =>
      obtain ⟨next, u, hlookup, hfinish⟩ := bind_eq_ok.mp hfinish
      obtain ⟨_, v'', -, hfinish⟩ := bind_eq_ok.mp hfinish
      cases hfinish
      refine Or.inr ⟨e.1, e.2, t, u, hparent, ?_⟩
      rw [hlookup, Option.map_map]
      cases next <;> rfl
  · intro hends
    rcases hends with ⟨rfl, t, hparent⟩ | ⟨dp, name, t, u, hparent, hlookup⟩
    · exact ⟨t, bind_of_ok hparent⟩
    · have hvalid := (nameiparent_dir s _ t hparent dp name rfl).2.1
      obtain ⟨v, hput⟩ := iunlockput_lookupIn (h.last dp name t hparent) hvalid hlookup
      refine ⟨v, (bind_of_ok hparent).trans ?_⟩
      have hfinish : finish fuel (some (dp, name)) t =
          .ok (r.map fun ip => (ip, ([] : List UInt8)), v) := by
        show (do
          let next ← lookupIn fuel dp name
          iunlockput dp
          return next.map fun ip => (ip, ([] : List UInt8)) : FsM σ _) t = _
        rw [bind_of_ok hlookup, bind_of_ok hput]
        rfl
      rw [bind_of_ok hfinish]
      cases r <;> rfl

/-- **The two resolvers agree.** -/
theorem resolvers_agree (h : EndsLinked fuel cwd path s) : ResolversAgree fuel cwd path s where
  found hpath ip := by
    rw [namei_iff h hpath]
    simp
  missing hpath := by
    rw [namei_iff h hpath]
    simp
  bare hpath ip t hstart := by
    have hparent : namexLoop fuel true (path.length + 1) path ip t = .ok (none, t.unref ip) := by
      rw [namexLoop, hpath]
      dsimp only
      rw [if_pos rfl, bind_of_ok (iput_of_lasts (h.start ip t hstart))]
      rfl
    refine ⟨?_, t.unref ip, ?_⟩
    · unfold namei
      rw [namex_eq, bind_assoc, bind_of_ok hstart, namexLoop, hpath]
      rfl
    · unfold nameiparent
      rw [namex_eq, bind_of_ok hstart, hparent]

def nameiparent_dotA : Evaluated (((do
    let x ← nameiparent 5 (some 0) [46, 47, 97]
    let u ← get
    return (x, decide ((u.itable 0).nlink ≠ 0)) :
      FsM Store (Option (Fin NINODE × List UInt8) × Bool)) fileRootImage).map Prod.fst =
        .ok (some (0, [97]), true)) :=
  ⟨by decide +kernel⟩

/-- The path `./a`, from the current directory of `fileRootImage`. -/
theorem endsLinked_fileRootImage : EndsLinked 5 (some 0) [46, 47, 97] fileRootImage := by
  obtain ⟨u, hrun⟩ := exists_of_map_fst nameiparent_dotA.holds
  obtain ⟨x, t, hparent, hrun⟩ := bind_eq_ok.mp hrun
  obtain ⟨_, _, ⟨⟩, hrun⟩ := bind_eq_ok.mp hrun
  obtain ⟨hx, hlink⟩ := Prod.mk.inj (Prod.mk.inj (Except.ok.inj hrun)).1
  subst hx
  refine ⟨fun dp name t' h => ?_, fun ip t' h => ?_⟩
  · rw [hparent] at h
    cases h
    exact fun _ => Or.inl (of_decide_eq_true hlink)
  · cases h
    exact fun _ => Or.inl (by decide)

/-- `namei` finds the file `./a`, and so does a lookup after `nameiparent`. -/
theorem resolvers_agree_fileRootImage : EndsLinked 5 (some 0) [46, 47, 97] fileRootImage ∧
    ∃ dp name t u, nameiparent 5 (some 0) [46, 47, 97] fileRootImage = .ok (some (dp, name), t) ∧
      lookupIn 5 dp name t = .ok (some 1, u) := by
  refine ⟨endsLinked_fileRootImage, ?_⟩
  refine ((resolvers_agree endsLinked_fileRootImage).found ⟨_, rfl⟩ 1).mp ?_
  exact exists_of_map_fst (by decide +kernel)

/-! ### Locks -/

/-- The entries of the inode table that are locked. -/
def Fs.locks (s : Fs σ) (ip : Fin NINODE) : ℤ := if (s.itable ip).locked = true then 1 else 0

/-- A change of one entry, and what it adds to the locks. -/
theorem locks_eq_add {n : ℤ} (hother : ∀ ip', ip' ≠ ip → t.itable ip' = s.itable ip')
    (hself : t.locks ip = s.locks ip + n) : t.locks = s.locks + n • point (some ip) :=
  eq_add_smul_point (fun ip' hip => by rw [Fs.locks, Fs.locks, hother ip' hip]) hself

/-- A change of one entry that leaves its lock alone. -/
theorem locks_eq (hother : ∀ ip', ip' ≠ ip → t.itable ip' = s.itable ip')
    (hself : (t.itable ip).locked = (s.itable ip).locked) : t.locks = s.locks := by
  rw [locks_eq_add (n := 0) hother (by rw [Fs.locks, Fs.locks, hself, add_zero]), zero_smul,
    add_zero]

theorem SameHead.locks {m : FsM σ α} (h : Keeps (SameHead ip) m) :
    Adds Fs.locks m s fun _ => 0 := by
  intro a t hm
  have hst := h s a t hm
  rw [add_zero]
  exact locks_eq hst.other (congrArg Inode.locked hst.head :)

theorem SameTable.locks {m : FsM σ α} (h : Keeps SameTable m) : Adds Fs.locks m s fun _ => 0 :=
  SameHead.locks (allowsData_head.of_same h : Keeps (SameHead 0) m)

theorem iget_locks {dev inum : UInt32} :
    Adds Fs.locks (iget dev inum : FsM σ (Fin NINODE)) s fun _ => 0 := by
  intro ip t h
  obtain ⟨hother, hlock, -⟩ := iget_frame h
  rw [add_zero]
  exact locks_eq hother hlock

theorem idup_locks : Adds Fs.locks (idup ip : FsM σ (Fin NINODE)) s fun _ => 0 := by
  intro ip' t h
  cases h
  rw [add_zero]
  refine locks_eq (fun i hi => update_of_ne hi _ _) ?_
  rw [Fs.itable_setItable, update_self]

theorem ilock_locks : Adds Fs.locks (ilock ip : FsM σ Unit) s fun _ => point (some ip) := by
  refine Sat.mono ((within_ilock s).and (ilock_sat s)) fun _ t h => ?_
  rw [locks_eq_add (n := 1) h.1.other, one_smul]
  rw [Fs.locks, Fs.locks, h.2.2.1, h.2.2.2.2.1]
  rfl

theorem iunlock_locks : Adds Fs.locks (iunlock ip : FsM σ Unit) s fun _ => -point (some ip) := by
  refine Sat.of_eq (bind_of_ok (getInode_apply s ip)) (Sat.ite (fun _ => Sat.throw) fun hlock => ?_)
  intro _ t h
  cases h
  have hlocked : (s.itable ip).locked = true := by
    by_contra hne
    exact hlock (Or.inl (by simpa using hne))
  rw [locks_eq_add (n := -1) fun i hi => update_of_ne hi _ _, neg_one_smul]
  rw [Fs.locks, Fs.locks, Fs.itable_setItable, update_self, hlocked]
  rfl

theorem iput_locks : Adds Fs.locks (iput ip : FsM σ Unit) s fun _ => 0 := by
  refine (iput_cases s).mono fun _ t h => ?_
  rw [add_zero]
  rcases h with rfl | ⟨-, hlock, -, hother, hhead⟩
  · refine locks_eq (fun i hi => update_of_ne hi _ _) ?_
    rw [Fs.unref, Fs.itable_setItable, update_self]
  · refine locks_eq hother ?_
    rw [hlock]
    exact (congrArg Inode.locked hhead :)

theorem iunlockput_locks :
    Adds Fs.locks (iunlockput ip : FsM σ Unit) s fun _ => -point (some ip) := by
  unfold iunlockput
  apply Adds.bind iunlock_locks
  intro _ t _
  refine Adds.last iput_locks fun _ => ?_
  rw [sub_self]

theorem dirlookup_locks {name : ℕ → UInt8} :
    Adds Fs.locks (dirlookup fuel dp name : FsM σ _) s fun _ => 0 := by
  have hloop : ∀ (fuel : ℕ) (fileName : ℕ → UInt8) (off : UInt32) (s : Fs σ),
      Adds Fs.locks (dirlookupLoop dp name fuel fileName off) s fun _ => 0 := by
    intro fuel
    induction fuel with
    | zero => intro fileName off s; exact Adds.throw
    | succ fuel ih =>
      intro fileName off s
      rw [dirlookupLoop]
      apply Adds.skip (SameTable.locks (keeps_getInode dp))
      intro i t _
      refine Adds.ite ?_ fun _ => Adds.pure rfl
      intro _
      apply Adds.skip (SameHead.locks (head_readi off _))
      intro r t _
      refine Adds.ite (fun _ => Adds.throw) fun _ => Adds.ite (fun _ => ih _ _ t) fun _ =>
        Adds.ite (fun _ => ?_) fun _ => ih _ _ t
      exact Adds.skip iget_locks fun _ _ _ => Adds.pure rfl
  unfold dirlookup
  apply Adds.skip (SameTable.locks Keeps.get)
  intro s' t _
  exact Adds.ite (fun _ => Adds.throw) fun _ => hloop fuel _ _ t

theorem namexLoop_locks {parent : Bool} : ∀ (n : ℕ) (path : List UInt8) (ip : Fin NINODE)
    (s : Fs σ), Adds Fs.locks (namexLoop fuel parent n path ip) s fun _ => 0 := by
  intro n
  induction n with
  | zero => intro path ip s; exact Adds.throw
  | succ n ih =>
    intro path ip s
    rw [namexLoop]
    split
    · exact Adds.ite (fun _ => Adds.skip iput_locks fun _ _ _ => Adds.pure rfl)
        fun _ => Adds.pure rfl
    · next name rest _ =>
      -- whichever way a round ends, the lock that it has taken is given up
      have hdrop : ∀ t : Fs σ, Adds Fs.locks (do iunlockput ip; return none) t
          fun _ : Option (Fin NINODE × List UInt8) => 0 - point (some ip) := by
        intro t
        apply Adds.bind iunlockput_locks
        intro _ t _
        exact Adds.pure (by simp)
      apply Adds.bind ilock_locks
      intro _ t _
      apply Adds.skip (SameTable.locks (keeps_getInode ip))
      intro i t _
      apply Adds.ite (fun _ => hdrop t)
      intro _
      apply Adds.ite
      · intro _
        apply Adds.bind iunlock_locks
        intro _ t _
        exact Adds.pure (by simp)
      · intro _
        apply Adds.skip dirlookup_locks
        intro r t _
        cases r with
        | none => exact hdrop t
        | some e =>
          apply Adds.bind iunlockput_locks
          intro _ t _
          refine (ih rest e.1 t).last fun r => ?_
          simp

theorem namex_locks {parent : Bool} :
    Adds Fs.locks (namex fuel cwd path parent : FsM σ _) s fun _ => 0 := by
  have hstart : ∀ s : Fs σ, Adds Fs.locks (startInode cwd path) s fun _ => 0 := by
    intro s
    unfold startInode
    apply Adds.ite (fun _ => iget_locks)
    intro _
    cases cwd with
    | some ip => exact idup_locks
    | none => exact Adds.throw
  have hroot : ∀ (ip : Fin NINODE) (s : Fs σ), Adds Fs.locks (rootilock ip) s fun _ => 0 := by
    intro ip s
    refine (rootilock_cases s).mono fun _ t h => ?_
    rw [add_zero]
    rcases h with rfl | ⟨-, din, ht⟩
    · rfl
    · refine locks_eq (fun i hi => by rw [ht, update_of_ne hi]) ?_
      rw [ht, update_self]
      rfl
  unfold namex
  apply Adds.skip (hstart s)
  intro ip t _
  have hread : Adds Fs.locks (rootRead path ip : FsM σ Unit) t fun _ => 0 := by
    unfold rootRead
    apply Adds.skip (SameTable.locks Keeps.get)
    intro _ t _
    exact Adds.ite (fun _ => hroot ip t) fun _ => Adds.pure rfl
  apply Adds.skip hread
  intro _ t _
  exact namexLoop_locks _ path ip t

/-- **A walk keeps no reference but the one that it returns, and no lock.** -/
theorem namex_balanced {parent : Bool} {r : Option (Fin NINODE × List UInt8)}
    (h : namex fuel cwd path parent s = .ok (r, t)) (ip : Fin NINODE) :
    (t.itable ip).ref = (s.itable ip).ref + (if r.map Prod.fst = some ip then 1 else 0) ∧
      (t.itable ip).locked = (s.itable ip).locked := by
  have hrefs : t.refs ip = s.refs ip + point (r.map Prod.fst) ip := congrFun (namex_refs r t h) ip
  have hlocks : t.locks ip = s.locks ip + 0 := congrFun (namex_locks r t h) ip
  refine ⟨hrefs, ?_⟩
  rw [Fs.locks, Fs.locks, add_zero] at hlocks
  cases hs : (s.itable ip).locked <;> cases ht : (t.itable ip).locked <;> simp_all

def namex_dotA : Evaluated ((namex 5 (some 0) [46, 47, 97] false fileRootImage).map Prod.fst =
    .ok (some (1, []))) :=
  ⟨by decide +kernel⟩

/-- A walk along `./a` in `fileRootImage` ends at a new entry, with one reference. -/
theorem namex_balanced_fileRootImage : ∃ t,
    namex 5 (some 0) [46, 47, 97] false fileRootImage = .ok (some (1, []), t) ∧
      (t.itable 0).ref = 1 ∧ (t.itable 0).locked = false ∧ (t.itable 1).ref = 1 := by
  obtain ⟨t, hrun⟩ := exists_of_map_fst namex_dotA.holds
  obtain ⟨href, hlock⟩ := namex_balanced hrun 0
  exact ⟨t, hrun, href, hlock, (namex_balanced hrun 1).1⟩

end Xv6Ext2
