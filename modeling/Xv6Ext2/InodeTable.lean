import Xv6Ext2.Frame

/-!
# Handles on inodes in memory

`iget`, `idup` and `iput` hand out pointers into the inode table and take them back.
An entry is recycled when its count is 0 and keeps the name of its old inode until
then, so whether a pointer still means the inode it was obtained for depends on the
counts.  `iput` lets go of the table in the middle when it frees an inode on disk; what
others do meanwhile comes between its two halves.

## Main definitions

* `Handle` — a pointer into the table with the inode it was obtained for.
* `TableStep` — the calls, the halves of `iput`, and whatever leaves counts and names
  alone.
* `Identified s H` — the table while the handles `H` are outstanding.

## Main results

* `iput_split` — `iput` is such other work followed by the decrement.
* `Identified.step` — every step keeps the table in order.
* `inode_identity_of_runs` — entries, names and counts in every run.
-/

namespace Xv6Ext2

open Function Prog

variable {σ β : Type} [BlockLayer σ β] {s t u : Fs σ} {ip : Fin NINODE}

/-- A pointer into the inode table, with the inode it was obtained for. -/
structure Handle where
  ip : Fin NINODE
  dev : UInt32
  inum : UInt32
deriving DecidableEq

/-- Counts and names are as they were.  Locks, contents and the disk may have changed. -/
def SameNames (s t : Fs σ) : Prop :=
  ∀ ip, (t.itable ip).ref = (s.itable ip).ref ∧ (t.itable ip).dev = (s.itable ip).dev ∧
    (t.itable ip).inum = (s.itable ip).inum

/-- What can happen to the table and to the outstanding handles, where the table is not
locked in between. -/
inductive TableStep : Fs σ → List Handle → Fs σ → List Handle → Prop
  | iget {s t : Fs σ} {H : List Handle} {dev inum : UInt32} {ip : Fin NINODE}
      (hrun : iget dev inum s = .ok (ip, t)) : TableStep s H t (⟨ip, dev, inum⟩ :: H)
  | idup {s t : Fs σ} {H : List Handle} {h : Handle} {ip : Fin NINODE} (hmem : h ∈ H)
      (hrun : idup h.ip s = .ok (ip, t)) : TableStep s H t (⟨ip, h.dev, h.inum⟩ :: H)
  /-- A call of `iput` during which nothing else happens. -/
  | iput {s t : Fs σ} {H : List Handle} {h : Handle} (hmem : h ∈ H)
      (hrun : iput h.ip s = .ok ((), t)) : TableStep s H t (H.erase h)
  /-- The end of a call of `iput`, some time after its beginning. -/
  | iputEnd {s : Fs σ} {H : List Handle} {h : Handle} (hmem : h ∈ H) :
      TableStep s H (s.unref h.ip) (H.erase h)
  /-- The beginning of a call of `iput`, and all that the rest of the kernel does. -/
  | other {s t : Fs σ} {H : List Handle} (hsame : SameNames s t) : TableStep s H t H

/-- Runs from a table without references. -/
inductive TableRuns : Fs σ → List Handle → Prop
  | boot {s : Fs σ} (h : ∀ ip, (s.itable ip).ref = 0) : TableRuns s []
  | step {s t : Fs σ} {H H' : List Handle} (h : TableRuns s H) (hstep : TableStep s H t H') :
      TableRuns t H'

/-- The table while the handles `H` are outstanding. -/
structure Identified (s : Fs σ) (H : List Handle) : Prop where
  /-- Counts are numbers of handles. -/
  ref : ∀ ip, (s.itable ip).ref = H.countP fun h => h.ip = ip
  /-- Handles mean what they were obtained for. -/
  name : ∀ h ∈ H, (s.itable h.ip).dev = h.dev ∧ (s.itable h.ip).inum = h.inum
  /-- An inode has one entry. -/
  unique : ∀ ip ip', 0 < (s.itable ip).ref → 0 < (s.itable ip').ref →
    (s.itable ip).dev = (s.itable ip').dev → (s.itable ip).inum = (s.itable ip').inum → ip = ip'

/-! ### The halves of `iput` -/

theorem Within.sameNames (h : Within ip s t) : SameNames s t := by
  intro ip'
  by_cases hip : ip' = ip
  · subst hip
    exact ⟨h.ref, h.dev, h.inum⟩
  · rw [h.other ip' hip]
    exact ⟨rfl, rfl, rfl⟩

theorem Fs.name_unref (s : Fs σ) (ip ip' : Fin NINODE) :
    ((s.unref ip).itable ip').dev = (s.itable ip').dev ∧
      ((s.unref ip).itable ip').inum = (s.itable ip').inum := by
  rw [Fs.unref, Fs.itable_setItable]
  by_cases hip : ip' = ip
  · rw [hip, update_self]
    exact ⟨rfl, rfl⟩
  · rw [update_of_ne hip]
    exact ⟨rfl, rfl⟩

/-- **`iput` first leaves counts and names alone, and then drops the reference.** -/
theorem iput_split (s : Fs σ) : Sat (iput ip) s fun _ t => ∃ u, SameNames s u ∧ t = u.unref ip := by
  refine Sat.of_eq (bind_of_ok (getInode_apply s ip)) ?_
  refine Sat.ite (fun _ => Sat.ite (fun _ => Sat.throw) fun _ => ?_) fun _ => ?_
  · -- the inode is freed on disk before the count is decremented
    have hlock : Keeps (Within ip) (setInode ip fun i => { i with locked := true } : FsM σ Unit) :=
      within_setInode (fun _ => rfl) (fun _ => rfl) fun _ => rfl
    have htype : Keeps (Within ip) (setInode ip fun i => { i with type := .none } : FsM σ Unit) :=
      within_setInode (fun _ => rfl) (fun _ => rfl) fun _ => rfl
    have hunlock : Keeps (Within ip)
        (setInode ip fun i => { i with valid := false, locked := false } : FsM σ Unit) :=
      within_setInode (fun _ => rfl) (fun _ => rfl) fun _ => rfl
    have hupdate : Keeps (Within ip) (iupdate ip : FsM σ Unit) := Within.of_same (keeps_iupdate ip)
    refine (hlock s).bind fun _ t₁ h₁ => ?_
    refine (Within.of_head head_itrunc t₁).bind fun _ t₂ h₂ => ?_
    refine (htype t₂).bind fun _ t₃ h₃ => (hupdate t₃).bind fun _ t₄ h₄ => ?_
    refine (hunlock t₄).bind fun _ t₅ h₅ => ?_
    intro _ t hrun
    cases hrun
    have h : Within ip s t₅ := IsTrans.trans _ _ _ (IsTrans.trans _ _ _ h₁ h₂)
      (IsTrans.trans _ _ _ h₃ (IsTrans.trans _ _ _ h₄ h₅))
    exact ⟨t₅, h.sameNames, rfl⟩
  · intro _ t hrun
    cases hrun
    exact ⟨s, fun _ => ⟨rfl, rfl, rfl⟩, rfl⟩

/-! ### Steps -/

section Steps

variable {H H' : List Handle} {h : Handle} {dev inum : UInt32}

theorem identified_boot (h : ∀ ip, (s.itable ip).ref = 0) : Identified s [] where
  ref ip := by rw [h ip, List.countP_nil]; rfl
  name _ hmem := by cases hmem
  unique ip _ hpos := by rw [h ip] at hpos; omega

/-- An entry with a handle has a count. -/
theorem Identified.ref_pos (hi : Identified s H) (hmem : h ∈ H) : 0 < (s.itable h.ip).ref := by
  rw [hi.ref]
  exact Int.natCast_pos.mpr (List.countP_pos_iff.mpr ⟨h, hmem, decide_eq_true rfl⟩)

/-- An entry with a count has a handle. -/
theorem Identified.exists_handle (hi : Identified s H) (hpos : 0 < (s.itable ip).ref) :
    ∃ h ∈ H, h.ip = ip := by
  rw [hi.ref] at hpos
  obtain ⟨h, hmem, hip⟩ := List.countP_pos_iff.mp (Int.natCast_pos.mp hpos)
  exact ⟨h, hmem, of_decide_eq_true hip⟩

/-- Work that leaves counts and names alone. -/
theorem Identified.same (hi : Identified s H) (hsame : SameNames s t) : Identified t H where
  ref ip := by rw [(hsame ip).1, hi.ref]
  name h hmem := by
    rw [(hsame h.ip).2.1, (hsame h.ip).2.2]
    exact hi.name h hmem
  unique ip ip' := by
    rw [(hsame ip).1, (hsame ip').1, (hsame ip).2.1, (hsame ip').2.1, (hsame ip).2.2,
      (hsame ip').2.2]
    exact hi.unique ip ip'

/-- One more handle, on an entry that carries the name afterwards and is the only one to
do so. -/
theorem Identified.take (hi : Identified s H) (i : Inode) (href : i.ref = (s.itable ip).ref + 1)
    (hdev : i.dev = dev) (hinum : i.inum = inum)
    (hname : ∀ h ∈ H, h.ip = ip → h.dev = dev ∧ h.inum = inum)
    (huniq : ∀ ip', ip' ≠ ip → 0 < (s.itable ip').ref → (s.itable ip').dev = dev →
      (s.itable ip').inum ≠ inum) :
    Identified (s.setItable ip i) (⟨ip, dev, inum⟩ :: H) where
  ref ip' := by
    rw [Fs.itable_setItable, List.countP_cons]
    by_cases hip : ip' = ip
    · subst hip
      rw [update_self, href, hi.ref, if_pos (decide_eq_true rfl)]
      rfl
    · rw [update_of_ne hip, hi.ref, if_neg (by simpa using Ne.symm hip)]
      rfl
  name h hmem := by
    rw [Fs.itable_setItable]
    by_cases hip : h.ip = ip
    · rw [hip, update_self, hdev, hinum]
      rcases List.mem_cons.mp hmem with rfl | hmem
      · exact ⟨rfl, rfl⟩
      · exact ⟨(hname h hmem hip).1.symm, (hname h hmem hip).2.symm⟩
    · rw [update_of_ne hip]
      rcases List.mem_cons.mp hmem with rfl | hmem
      · exact absurd rfl hip
      · exact hi.name h hmem
  unique a b := by
    rw [Fs.itable_setItable]
    by_cases ha : a = ip <;> by_cases hb : b = ip
    · exact fun _ _ _ _ => ha.trans hb.symm
    · rw [ha, update_self, update_of_ne hb, hdev, hinum]
      exact fun _ hpos hd hn => absurd hn.symm (huniq b hb hpos hd.symm)
    · rw [hb, update_self, update_of_ne ha, hdev, hinum]
      exact fun hpos _ hd hn => absurd hn (huniq a ha hpos hd)
    · rw [update_of_ne ha, update_of_ne hb]
      exact hi.unique a b

/-- One more handle on an inode that is in the table. -/
theorem Identified.again (hi : Identified s H) (hpos : 0 < (s.itable ip).ref)
    (hdev : (s.itable ip).dev = dev) (hinum : (s.itable ip).inum = inum) :
    Identified (s.setItable ip { s.itable ip with ref := (s.itable ip).ref + 1 })
      (⟨ip, dev, inum⟩ :: H) := by
  refine hi.take { s.itable ip with ref := (s.itable ip).ref + 1 } rfl hdev hinum ?_ ?_
  · intro h hmem hip
    rw [← hdev, ← hinum, ← hip]
    exact ⟨(hi.name h hmem).1.symm, (hi.name h hmem).2.symm⟩
  · intro ip' hne hpos' hdev' hinum'
    exact hne (hi.unique ip' ip hpos' hpos (hdev'.trans hdev.symm) (hinum'.trans hinum.symm))

/-- A handle is given back. -/
theorem Identified.drop (hi : Identified s H) (hmem : h ∈ H) :
    Identified (s.unref h.ip) (H.erase h) where
  ref ip := by
    rw [Fs.unref, Fs.itable_setItable, List.countP_erase]
    by_cases hip : ip = h.ip
    · have hpos := hi.ref_pos hmem
      have href := hi.ref h.ip
      rw [hip, update_self, if_pos ⟨hmem, decide_eq_true rfl⟩]
      show (s.itable h.ip).ref - 1 = _
      omega
    · rw [update_of_ne hip, if_neg fun hh => hip (of_decide_eq_true hh.2).symm, hi.ref]
      rfl
  name h' hmem' := by
    rw [Fs.unref, Fs.itable_setItable]
    by_cases hip : h'.ip = h.ip
    · rw [hip, update_self, ← hip]
      exact hi.name h' (List.mem_of_mem_erase hmem')
    · rw [update_of_ne hip]
      exact hi.name h' (List.mem_of_mem_erase hmem')
  unique a b := by
    -- the count that went down was positive already
    have hpos : ∀ c, 0 < ((s.unref h.ip).itable c).ref → 0 < (s.itable c).ref := by
      intro c
      rw [Fs.unref, Fs.itable_setItable]
      by_cases hc : c = h.ip
      · rw [hc]
        exact fun _ => hi.ref_pos hmem
      · rw [update_of_ne hc]
        exact id
    rw [(s.name_unref h.ip a).1, (s.name_unref h.ip b).1, (s.name_unref h.ip a).2,
      (s.name_unref h.ip b).2]
    exact fun ha hb => hi.unique a b (hpos a ha) (hpos b hb)

/-- `iget` recycles an entry only for an inode that is not in the table. -/
theorem iget_recycles (hrun : iget dev inum s = .ok (ip, t)) (href : (s.itable ip).ref = 0) :
    ∀ ip', 0 < (s.itable ip').ref → (s.itable ip').dev = dev → (s.itable ip').inum ≠ inum := by
  intro ip' hpos hdev hinum
  unfold iget at hrun
  rw [bind_of_ok (get_apply _)] at hrun
  rcases hf : (List.finRange NINODE).find? fun i =>
      0 < (s.itable i).ref ∧ (s.itable i).dev = dev ∧ (s.itable i).inum = inum with _ | i
  · have hno := List.find?_eq_none.mp hf ip' (List.mem_finRange ip')
    exact hno (decide_eq_true ⟨hpos, hdev, hinum⟩)
  · -- the entry that was found has a count
    rw [hf] at hrun
    cases hrun
    have hi : 0 < (s.itable ip).ref ∧ (s.itable ip).dev = dev ∧ (s.itable ip).inum = inum := by
      simpa using List.find?_some hf
    rw [href] at hi
    exact absurd hi.1 (lt_irrefl 0)

/-- **Every step keeps the table in order.** -/
theorem Identified.step (hi : Identified s H) (hstep : TableStep s H t H') : Identified t H' := by
  cases hstep with
  | iget hrun =>
    rcases iget_cases hrun with ⟨hpos, hdev, hinum, rfl⟩ | ⟨href, rfl⟩
    · exact hi.again hpos hdev hinum
    · refine hi.take _ (by rw [href]; rfl) rfl rfl ?_ ?_
      · intro h hmem hip
        have hpos := hi.ref_pos hmem
        rw [hip, href] at hpos
        exact absurd hpos (lt_irrefl 0)
      · exact fun ip' _ => iget_recycles hrun href ip'
  | idup hmem hrun =>
    cases hrun
    exact hi.again (hi.ref_pos hmem) (hi.name _ hmem).1 (hi.name _ hmem).2
  | iput hmem hrun =>
    obtain ⟨u, hsame, rfl⟩ := iput_split s _ _ hrun
    exact (hi.same hsame).drop hmem
  | iputEnd hmem => exact hi.drop hmem
  | other hsame => exact hi.same hsame

/-- An entry with a count keeps its name. -/
theorem TableStep.name_kept (hstep : TableStep s H t H') (hpos : 0 < (s.itable ip).ref) :
    (t.itable ip).dev = (s.itable ip).dev ∧ (t.itable ip).inum = (s.itable ip).inum := by
  cases hstep with
  | @iget _ _ dev inum ip' hrun =>
    by_cases hip : ip = ip'
    · subst hip
      rcases iget_cases hrun with ⟨-, -, -, rfl⟩ | ⟨href, -⟩
      · rw [Fs.itable_setItable, update_self]
        exact ⟨rfl, rfl⟩
      · rw [href] at hpos
        exact absurd hpos (lt_irrefl 0)
    · rw [(iget_frame hrun).1 ip hip]
      exact ⟨rfl, rfl⟩
  | @idup _ _ h ip' hmem hrun =>
    cases hrun
    rw [Fs.itable_setItable]
    by_cases hip : ip = h.ip
    · rw [hip, update_self]
      exact ⟨rfl, rfl⟩
    · rw [update_of_ne hip]
      exact ⟨rfl, rfl⟩
  | iput hmem hrun =>
    obtain ⟨u, hsame, rfl⟩ := iput_split s _ _ hrun
    rw [(u.name_unref _ ip).1, (u.name_unref _ ip).2]
    exact (hsame ip).2
  | iputEnd hmem => exact s.name_unref _ ip
  | other hsame => exact (hsame ip).2

theorem TableRuns.identified (hr : TableRuns s H) : Identified s H := by
  induction hr with
  | boot h => exact identified_boot h
  | step _ hstep ih => exact ih.step hstep

/-- `iget` panics only when every entry is held for another inode. -/
theorem Identified.of_iget_error (hi : Identified s H) {e : Err}
    (hrun : iget dev inum s = .error e) :
    ∀ ip, ∃ h ∈ H, h.ip = ip ∧ ¬(h.dev = dev ∧ h.inum = inum) := by
  intro ip
  have hno : ¬∃ i, (s.itable i).ref = 0 ∨
      (0 < (s.itable i).ref ∧ (s.itable i).dev = dev ∧ (s.itable i).inum = inum) := by
    rw [← iget_returns_iff]
    rintro ⟨_, _, hok⟩
    rw [hok] at hrun
    cases hrun
  have hnonneg : 0 ≤ (s.itable ip).ref := hi.ref ip ▸ Int.natCast_nonneg _
  have hpos : 0 < (s.itable ip).ref :=
    lt_of_le_of_ne hnonneg fun h0 => hno ⟨ip, Or.inl h0.symm⟩
  obtain ⟨h, hmem, hip⟩ := hi.exists_handle hpos
  refine ⟨h, hmem, hip, fun hname => hno ⟨ip, Or.inr ⟨hpos, ?_⟩⟩⟩
  rw [← hip, (hi.name h hmem).1, (hi.name h hmem).2]
  exact hname

/-- **Inodes in memory have one identity.**  In every run of `iget`, `idup` and `iput`,
with anything between them that leaves counts and names alone: an inode has one entry
with a count, handles on one inode are the same pointer, counts are numbers of handles,
and an entry with a handle is never given to another inode.  `iget` panics only when all
entries are held for others. -/
theorem inode_identity_of_runs (hr : TableRuns s H) :
    (∀ ip ip', 0 < (s.itable ip).ref → 0 < (s.itable ip').ref →
      (s.itable ip).dev = (s.itable ip').dev → (s.itable ip).inum = (s.itable ip').inum →
        ip = ip') ∧
    (∀ h ∈ H, ∀ h' ∈ H, h.dev = h'.dev → h.inum = h'.inum → h.ip = h'.ip) ∧
    (∀ ip, (s.itable ip).ref = H.countP fun h => h.ip = ip) ∧
    (∀ h ∈ H, (s.itable h.ip).dev = h.dev ∧ (s.itable h.ip).inum = h.inum) ∧
    (∀ t H', TableStep s H t H' → ∀ ip, 0 < (s.itable ip).ref →
      (t.itable ip).dev = (s.itable ip).dev ∧ (t.itable ip).inum = (s.itable ip).inum) ∧
    ∀ dev inum e, iget dev inum s = .error e →
      ∀ ip, ∃ h ∈ H, h.ip = ip ∧ ¬(h.dev = dev ∧ h.inum = inum) := by
  have hi := hr.identified
  refine ⟨hi.unique, fun h hmem h' hmem' hdev hinum => ?_, hi.ref, hi.name,
    fun _ _ hstep _ => hstep.name_kept, fun _ _ _ => hi.of_iget_error⟩
  apply hi.unique _ _ (hi.ref_pos hmem) (hi.ref_pos hmem')
  · rw [(hi.name h hmem).1, (hi.name h' hmem').1, hdev]
  · rw [(hi.name h hmem).2, (hi.name h' hmem').2, hinum]

/-- The root directory is looked up twice. -/
theorem inode_identity_rootTwice : ∃ s : Fs Store, TableRuns s [⟨0, 1, 2⟩, ⟨0, 1, 2⟩] ∧
    (s.itable 0).ref = 2 ∧ (s.itable 1).ref = 0 := by
  have hboot : TableRuns (imageOf []) [] := .boot fun _ => rfl
  have hrun := (hboot.step (.iget (show iget 1 2 _ = .ok (0, _) from rfl))).step
    (.iget (show iget 1 2 _ = .ok (0, _) from rfl))
  obtain ⟨-, -, href, -⟩ := inode_identity_of_runs hrun
  exact ⟨_, hrun, href 0, href 1⟩

end Steps

end Xv6Ext2
