import Xv6Ext2.Itrunc

/-!
# The blocks that mapping takes

`bmap` hangs the blocks that `balloc` returns into the pointer forest of an inode.
To say which blocks these are, a state of the file system is run together with the
list of blocks that the allocator has returned and the list of blocks that have been
freed.

The allocator is any program that keeps the contract `Allocates`, so what is said of
the walk does not rest on how the bitmap is searched.

## Main definitions

* `Tracked`, `Fs.track`, `takes`, `gives` — the two logs, and programs that keep them.
* `Allocates alloc` — `alloc` returns blocks that are zeroed, new and no metadata.
* `Mapped ip A s` — the blocks `A` are those of the file, each at one place.

## Main results

* `bmaps_yields` — **a sequence of calls of `bmap`** hangs what it takes into the file.
* `allocates_checkedBalloc` — `balloc` as an allocator.
-/

namespace Xv6Ext2

open Prog

/-! ### Logging -/

/-- The block store with the blocks taken from the allocator and those given back. -/
structure Tracked where
  store : Store
  taken : List UInt32
  given : List UInt32

instance : BlockLayer Tracked UInt32 where
  bread dev b t := (BlockLayer.bread dev b t.store).map fun r => (r.1, { t with store := r.2 })
  data t b := BlockLayer.data t.store b
  store b d t := { t with store := BlockLayer.store b d t.store }
  bwrite b t := (BlockLayer.bwrite b t.store).map fun u => { t with store := u }
  brelse b t := (BlockLayer.brelse b t.store).map fun u => { t with store := u }

/-- The state `s` with its logs. -/
def Fs.track (s : Fs Store) (A G : List UInt32) : Fs Tracked :=
  ⟨s.sb, s.itable, ⟨s.blk, A, G⟩, s.junk⟩

/-- The state without the logs. -/
def Fs.untrack (p : Fs Tracked) : Fs Store := ⟨p.sb, p.itable, p.blk.store, p.junk⟩

/-- An allocator, which sees what it has returned so far, with its results logged. -/
def takes (alloc : UInt32 → List UInt32 → FsM Store UInt32) (dev : UInt32) : FsM Tracked UInt32 :=
  fun p => (alloc dev p.blk.taken p.untrack).map fun r =>
    (r.1, r.2.track (r.1 :: p.blk.taken) p.blk.given)

/-- A program that frees a block, with its calls logged. -/
def gives (free : UInt32 → UInt32 → FsM Store Unit) (dev b : UInt32) : FsM Tracked Unit :=
  fun p => (free dev b p.untrack).map fun r => (r.1, r.2.track p.blk.taken (b :: p.blk.given))

/-- Where `m` returns, `m'` does the same and leaves the logs alone. -/
def Logged {α : Type} (m : FsM Store α) (m' : FsM Tracked α) : Prop :=
  ∀ s A G a t, m s = .ok (a, t) → m' (s.track A G) = .ok (a, t.track A G)

section Logged

variable {α γ : Type} {dev b : UInt32}

theorem Logged.bind {m : FsM Store α} {m' : FsM Tracked α} {f : α → FsM Store γ}
    {f' : α → FsM Tracked γ} (hm : Logged m m') (hf : ∀ a, Logged (f a) (f' a)) :
    Logged (m >>= f) (m' >>= f') := by
  intro s A G c u h
  obtain ⟨a, t, ha, hc⟩ := bind_eq_ok.mp h
  rw [bind_of_ok (hm s A G a t ha)]
  exact hf a t A G c u hc

theorem Logged.forM {f : α → FsM Store PUnit} {f' : α → FsM Tracked PUnit}
    (hf : ∀ a, Logged (f a) (f' a)) : ∀ l : List α, Logged (forM l f) (forM l f') := by
  intro l
  induction l with
  | nil =>
    intro s A G a t h
    cases h
    rfl
  | cons a l ih =>
    rw [List.forM_cons, List.forM_cons]
    exact (hf a).bind fun _ => ih

theorem logged_bread : Logged (bread dev b) (bread dev b) := by
  intro s A G a t h
  obtain ⟨rfl, rfl⟩ := bread_sat a t h
  by_cases hb : a ∈ s.blk.held
  · rw [bread_deadlock hb] at h
    cases h
  · simp [bread, FsM.onBlk, BlockLayer.bread, hb, Fs.track, Fs.hold, Except.map]

theorem logged_bdata : Logged (bdata b) (bdata b) := by
  intro s A G a t h
  cases h
  rfl

theorem logged_bstore (d : Block) : Logged (bstore b d) (bstore b d) := by
  intro s A G a t h
  cases h
  rfl

theorem logged_bwrite : Logged (bwrite b) (bwrite b) := by
  intro s A G a t h
  cases bwrite_sat a t h
  by_cases hb : b ∈ s.blk.held
  · simp [bwrite, FsM.onBlk, BlockLayer.bwrite, hb, Fs.track, Except.map]
  · simp [bwrite, FsM.onBlk, BlockLayer.bwrite, hb, Except.map] at h

theorem logged_brelse : Logged (brelse b) (brelse b) := by
  intro s A G a t h
  cases brelse_sat a t h
  by_cases hb : b ∈ s.blk.held
  · simp [brelse, FsM.onBlk, BlockLayer.brelse, hb, Fs.track, Fs.release, Except.map]
  · simp [brelse, FsM.onBlk, BlockLayer.brelse, hb, Except.map] at h

theorem logged_pure (a : α) : Logged (pure a) (pure a) := by
  intro s A G a t h
  cases h
  rfl

theorem logged_iupdate (ip : Fin NINODE) : Logged (iupdate ip) (iupdate ip) := by
  have hinode : Logged (getInode ip) (getInode ip) := by
    intro s A G a t h
    cases h
    rfl
  refine hinode.bind fun i => Logged.bind ?_ fun g => ?_
  · exact logged_bread.bind fun _ => logged_bdata.bind fun d => logged_brelse.bind fun _ =>
      logged_pure _
  · exact logged_bread.bind fun _ => logged_bdata.bind fun d => (logged_bstore _).bind fun _ =>
      logged_bwrite.bind fun _ => logged_brelse

end Logged

/-- A sequence of calls of `bmap`. -/
def bmaps {σ β : Type} [BlockLayer σ β] (alloc : UInt32 → FsM σ UInt32) (ip : Fin NINODE)
    (bns : List ℕ) : FsM σ PUnit :=
  forM bns fun bn => do
    let _ ← bmapWith alloc ip bn
    return ⟨⟩

section Track

variable {s s' : Fs Store} {A A' G : List UInt32} {dev b : UInt32} {ip : Fin NINODE}
  {alloc : UInt32 → List UInt32 → FsM Store UInt32}

@[simp] theorem Fs.itable_track : (s.track A G).itable = s.itable := rfl

theorem bread_track (h : b ∉ s.blk.held) :
    bread dev b (s.track A G) = .ok (b, (s.hold b).track A G) :=
  logged_bread s A G b _ (bread_ok h)

theorem bdata_track : bdata b (s.track A G) = .ok (s.blk.content b, s.track A G) := rfl

/-! ### Mapping -/

/-- What one call of the allocator does that has returned the blocks `A` before.  It
leaves the descriptor alone and the blocks it returned. -/
structure AllocStep (A : List UInt32) (s : Fs Store) (b : UInt32) (s' : Fs Store) : Prop where
  new : b ∉ A
  apart : ¬s.IsMeta ∅ b
  zero : s'.blk.content b = Block.zero
  content : ∀ c ∈ A, s'.blk.content c = s.blk.content c
  gdesc : s'.gdesc = s.gdesc
  held : s'.blk.held = s.blk.held
  itable : s'.itable = s.itable

/-- **The contract of the allocator**: the blocks it returns are new, zeroed and no
metadata. -/
def Allocates (alloc : UInt32 → List UInt32 → FsM Store UInt32) : Prop :=
  ∀ dev A s b s', alloc dev A s = .ok (b, s') → AllocStep A s b s'

/-- The errors of the allocator. -/
def AllocFails (alloc : UInt32 → List UInt32 → FsM Store UInt32) (e : Err) : Prop :=
  ∃ dev A s, alloc dev A s = .error e

/-- **The invariant of mapping**: the blocks taken are those of the file, each at one
place. -/
structure Mapped (ip : Fin NINODE) (A : List UInt32) (s : Fs Store) : Prop where
  nodup : A.Nodup
  apart : ∀ b ∈ A, ¬s.IsMeta ∅ b
  distinct : Forest.Distinct 0 (Key.Ok {ip}) s.node
  mem : ∀ b, b ∈ A ↔ ∃ κ : Key, κ.Ok {ip} ∧ s.node κ ≠ 0 ∧ s.node κ = b

/-- The state `s'` is one of mapping, and has the blocks of `s` where they were. -/
structure MapStep (ip : Fin NINODE) (s : Fs Store) (A' : List UInt32) (s' : Fs Store) : Prop where
  mapped : Mapped ip A' s'
  held : s'.blk.held = s.blk.held
  node : ∀ κ, Key.Ok {ip} κ → s.node κ ≠ 0 → s'.node κ = s.node κ

namespace Mapped

theorem node_mem (h : Mapped ip A s) {κ : Key} (hκ : κ.Ok {ip}) (hne : s.node κ ≠ 0) :
    s.node κ ∈ A :=
  (h.mem _).mpr ⟨κ, hκ, hne, rfl⟩

/-- An inode without blocks. -/
theorem of_empty (haddrs : ∀ k, (s.itable ip).addrs k = 0) : Mapped ip [] s := by
  have hnode := node_of_empty haddrs
  refine ⟨List.nodup_nil, fun b hb => absurd hb List.not_mem_nil, ?_, fun b => ?_⟩
  · intro κ κ' hκ _ hne
    exact absurd (hnode κ hκ) hne
  · simp only [List.not_mem_nil, false_iff, not_exists]
    rintro κ ⟨hκ, hne, -⟩
    exact hne (hnode κ hκ)

/-- Hanging a new block into an empty place. -/
theorem hang (h : Mapped ip A s) (hnew : b ∉ A) (hapart : ¬s.IsMeta ∅ b) {κ₀ : Key}
    (hok : κ₀.Ok {ip}) (hempty : s.node κ₀ = 0) (hg : s'.gdesc = s.gdesc)
    (hnode : ∀ κ, Key.Ok {ip} κ → s'.node κ = if κ = κ₀ then b else s.node κ) :
    Mapped ip (b :: A) s' := by
  have hb0 : b ≠ 0 := fun h0 => hapart (Or.inl h0)
  have hself : s'.node κ₀ = b := (hnode κ₀ hok).trans (if_pos rfl)
  have hother : ∀ κ, Key.Ok {ip} κ → κ ≠ κ₀ → s'.node κ = s.node κ := fun κ hκ hne =>
    (hnode κ hκ).trans (if_neg hne)
  -- the new block is at no old place
  have hnb : ∀ κ, Key.Ok {ip} κ → s.node κ ≠ b := by
    rintro κ hκ rfl
    exact hnew (h.node_mem hκ hb0)
  refine ⟨List.nodup_cons.mpr ⟨hnew, h.nodup⟩, ?_, ?_, fun c => ?_⟩
  · intro c hc
    have hmeta : s'.IsMeta ∅ c ↔ s.IsMeta ∅ c := by
      unfold Fs.IsMeta
      simp only [hg, Finset.notMem_empty, false_and, exists_false]
    rw [hmeta]
    rcases List.mem_cons.mp hc with rfl | hc
    · exact hapart
    · exact h.apart c hc
  · refine h.distinct.hang κ₀ (fun κ hκ _ => ?_) hother
    rw [hself]
    exact hnb κ hκ
  · rw [List.mem_cons, h.mem]
    constructor
    · rintro (rfl | ⟨κ, hκ, hne, rfl⟩)
      · exact ⟨κ₀, hok, by rwa [hself], hself⟩
      · have hκ₀ : κ ≠ κ₀ := fun heq => hne (heq ▸ hempty)
        refine ⟨κ, hκ, ?_, hother κ hκ hκ₀⟩
        rwa [hother κ hκ hκ₀]
    · rintro ⟨κ, hκ, hne, rfl⟩
      by_cases hκ₀ : κ = κ₀
      · exact Or.inl (by rw [hκ₀, hself])
      · rw [hother κ hκ hκ₀] at hne ⊢
        exact Or.inr ⟨κ, hκ, hne, rfl⟩

/-- The step that hangs a new block. -/
theorem step (h : Mapped ip A s) (hnew : b ∉ A) (hapart : ¬s.IsMeta ∅ b) {κ₀ : Key}
    (hok : κ₀.Ok {ip}) (hempty : s.node κ₀ = 0) (hg : s'.gdesc = s.gdesc)
    (hheld : s'.blk.held = s.blk.held)
    (hnode : ∀ κ, Key.Ok {ip} κ → s'.node κ = if κ = κ₀ then b else s.node κ) :
    MapStep ip s (b :: A) s' := by
  refine ⟨h.hang hnew hapart hok hempty hg hnode, hheld, fun κ hκ hne => ?_⟩
  rw [hnode κ hκ, if_neg]
  rintro rfl
  exact hne hempty

theorem refl (h : Mapped ip A s) : MapStep ip s A s := ⟨h, rfl, fun _ _ _ => rfl⟩

theorem withHeld (h : Mapped ip A s) (l : List UInt32) : Mapped ip A (s.withHeld l) :=
  ⟨h.nodup, h.apart, h.distinct, h.mem⟩

end Mapped

/-- A call of the allocator is logged. -/
theorem takes_yields (halloc : Allocates alloc) :
    Yields (AllocFails alloc) (takes alloc dev) (s.track A G) fun b p =>
      ∃ s', p = s'.track (b :: A) G ∧ AllocStep A s b s' := by
  rcases h : alloc dev A s with e | ⟨b, s'⟩
  · refine Or.inr ⟨e, ?_, dev, A, s, h⟩
    show (alloc dev A s).map _ = _
    rw [h]
    rfl
  · refine Or.inl ⟨b, s'.track (b :: A) G, ?_, s', rfl, halloc dev A s b s' h⟩
    show (alloc dev A s).map _ = _
    rw [h]
    rfl

/-- An entry of `addrs` is filled. -/
theorem addrSlot_yields (halloc : Allocates alloc) (h : Mapped ip A s) (r : Fin 15) :
    Yields (AllocFails alloc) (addrSlot (takes alloc) ip r) (s.track A []) fun a p =>
      ∃ A' s', p = s'.track A' [] ∧ MapStep ip s A' s' ∧ s'.node ((ip, r), []) = a ∧ a ≠ 0 := by
  unfold addrSlot
  refine Yields.of_eq (bind_of_ok (getInode_apply _ ip)) ?_
  rw [Fs.itable_track]
  have hok : Key.Ok {ip} ((ip, r), []) := ⟨Finset.mem_singleton_self ip, Nat.zero_le _⟩
  by_cases hempty : (s.itable ip).addrs r = 0
  · rw [if_pos hempty]
    refine (takes_yields halloc).bind ?_
    rintro b p ⟨u, rfl, hu⟩
    have hnode := node_hangAddr (P := {ip}) (r := r) hempty hu.itable hu.zero
      fun κ hκ hne => hu.content _ (h.node_mem hκ hne)
    refine Yields.of_ok rfl ⟨b :: A, _, rfl, ?_, (hnode _ hok).trans (if_pos rfl),
      fun h0 => hu.apart (Or.inl h0)⟩
    exact h.step hu.new hu.apart hok hempty hu.gdesc hu.held hnode
  · rw [if_neg hempty]
    exact Yields.of_ok rfl ⟨A, s, rfl, h.refl, rfl, hempty⟩

/-- A slot of an index block is filled. -/
theorem indexSlot_yields (halloc : Allocates alloc) (h : Mapped ip A s)
    {q : Fin NINODE × Fin 15} {l : List (Fin NINDIRECT)} {j : Fin NINDIRECT}
    (hok : Key.Ok {ip} (q, l ++ [j])) (hparent : s.node (q, l) ≠ 0) :
    Yields (AllocFails alloc) (indexSlot (takes alloc) dev (s.node (q, l)) j) (s.track A [])
      fun a p => ∃ A' s', p = s'.track A' [] ∧ MapStep ip s A' s' ∧
        s'.node (q, l ++ [j]) = a ∧ a ≠ 0 := by
  have hword : s.node (q, l ++ [j]) = (s.blk.content (s.node (q, l))).word j := by
    rw [Fs.node_snoc, if_neg hparent]
  have hmem : s.node (q, l) ∈ A := h.node_mem (prefixClosed_ok _ q l j hok) hparent
  unfold indexSlot
  refine Yields.of_eq (bind_of_ok bdata_track) ?_
  rw [← hword]
  by_cases hempty : s.node (q, l ++ [j]) = 0
  · rw [if_pos hempty]
    refine (takes_yields halloc).bind ?_
    rintro b p ⟨u, rfl, hu⟩
    have hz : s.node (q, l) ≠ b := by
      rintro rfl
      exact hu.new hmem
    have hnode := node_hangSlot h.distinct hok hparent hempty hu.itable hu.zero hz
      fun κ hκ hne => hu.content _ (h.node_mem hκ hne)
    refine Yields.of_ok rfl ⟨b :: A, _, rfl, ?_, (hnode _ hok).trans (if_pos rfl),
      fun h0 => hu.apart (Or.inl h0)⟩
    refine h.step hu.new hu.apart hok hempty ?_ hu.held hnode
    exact (gdesc_write (fun h2 => h.apart _ hmem (Or.inr (Or.inl h2))) _).trans hu.gdesc
  · rw [if_neg hempty]
    exact Yields.of_ok rfl ⟨A, s, rfl, h.refl, rfl, hempty⟩

/-- The walk down the index blocks.  The buffers held are those of the index blocks
passed. -/
theorem indexWalk_yields (halloc : Allocates alloc) {q : Fin NINODE × Fin 15}
    (js : List (Fin NINDIRECT)) :
    ∀ (l : List (Fin NINDIRECT)) (A : List UInt32) (s : Fs Store) (bps : List UInt32),
      Mapped ip A s → Key.Ok {ip} (q, l ++ js) → s.node (q, l) ≠ 0 → Passed {ip} s q l bps →
      Yields (AllocFails alloc)
        (indexWalk (takes alloc) dev bps (s.node (q, l)) (js.map Fin.val)) (s.track A [])
        fun _ p => ∃ A' s', p = s'.track A' [] ∧ Mapped ip A' s' ∧ s'.blk.held = [] := by
  induction js with
  | nil =>
    intro l A s bps h _ _ hpassed
    refine Yields.of_ok (a := s.node (q, l)) ?_ ⟨A, s.withHeld [], rfl, h.withHeld [], rfl⟩
    rw [List.map_nil, indexWalk,
      bind_of_ok (Logged.forM (fun _ => logged_brelse) bps s A [] _ _
        (forM_brelse bps s hpassed.held))]
    rfl
  | cons j js ih =>
    intro l A s bps h hok hne hpassed
    have hassoc : l ++ j :: js = l ++ [j] ++ js := by simp
    have hokj : Key.Ok {ip} (q, l ++ [j]) := hok.of_cons
    have hokl := prefixClosed_ok _ q l j hokj
    refine Yields.of_eq (bind_of_ok (bread_track (hpassed.notMem h.distinct hokl))) ?_
    have hmapped : Mapped ip A (s.hold (s.node (q, l))) := h.withHeld _
    refine (indexSlot_yields halloc hmapped hokj hne).bind ?_
    rintro next p ⟨A', t, rfl, ht, rfl, hnext⟩
    exact ih (l ++ [j]) A' t (bps ++ [s.node (q, l)]) ht.mapped (hassoc ▸ hok) hnext
      (hpassed.push hokl hne j ht.held ht.node)

/-- One call of `bmap`. -/
theorem bmapWith_yields (halloc : Allocates alloc) (h : Mapped ip A s) (hheld : s.blk.held = [])
    {bn : ℕ} (hbn : bn < maxBlocks) :
    Yields (AllocFails alloc) (bmapWith (takes alloc) ip bn) (s.track A []) fun _ p =>
      ∃ A' s', p = s'.track A' [] ∧ Mapped ip A' s' ∧ s'.blk.held = [] := by
  refine Yields.of_eq (bmapWith_eq (takes alloc) hbn) ?_
  refine (addrSlot_yields halloc h _).bind ?_
  rintro a p ⟨A', t, rfl, ht, rfl, hne⟩
  have hok := ok_dataKey (Finset.mem_singleton_self ip) bn
  exact indexWalk_yields halloc (blockPath bn).2 [] A' t [] ht.mapped hok hne
    (Passed.nil (ht.held.trans hheld))

/-- **A sequence of calls of `bmap`** hangs what it takes into the file, or stops
where the allocator does. -/
theorem bmaps_yields (halloc : Allocates alloc) (haddrs : ∀ k, (s.itable ip).addrs k = 0)
    (hheld : s.blk.held = []) {bns : List ℕ} (hbns : ∀ bn ∈ bns, bn < maxBlocks) :
    Yields (AllocFails alloc) (bmaps (takes alloc) ip bns) (s.track [] []) fun _ p =>
      ∃ A' s', p = s'.track A' [] ∧ Mapped ip A' s' ∧ s'.blk.held = [] := by
  refine Yields.forM (I := fun _ p =>
    ∃ A' s', p = Fs.track s' A' [] ∧ Mapped ip A' s' ∧ s'.blk.held = []) ?_ ?_
  · exact ⟨[], s, rfl, Mapped.of_empty haddrs, hheld⟩
  · rintro pre bn suf p hl ⟨A', t, rfl, ht, hheld⟩
    have hbn : bn < maxBlocks := hbns bn (by rw [hl]; simp)
    exact (bmapWith_yields halloc ht hheld hbn).bind fun _ p hp => Yields.of_ok rfl hp

/-! ### The allocator of the source -/

/-- `balloc`, run as far as it keeps the contract. -/
def checkedBalloc (dev : UInt32) (A : List UInt32) : FsM Store UInt32 := do
  let s ← get
  let b ← balloc dev
  if b = 0 ∨ b = 2 ∨ b ∈ A ∨ s.gdesc.blockBitmap = 2 ∨ s.gdesc.blockBitmap ∈ A then throw .fault
  else return b

/-- A block that `balloc` returns is another than the bitmap, and zeroed. -/
theorem balloc_sat : Sat (balloc dev) s fun b s' => b ≠ s.gdesc.blockBitmap ∧
    ∃ d, s' = (s.write s.gdesc.blockBitmap d).write b Block.zero := by
  intro b s' hrun
  by_cases h2 : 2 ∈ s.blk.held
  · rw [balloc, readGroupDesc, bind_of_error (bind_of_error (bread_deadlock h2))] at hrun
    cases hrun
  by_cases hbb : s.gdesc.blockBitmap ∈ s.blk.held
  · rw [balloc, bind_of_ok (readGroupDesc_ok h2), bind_of_error (bread_deadlock hbb)] at hrun
    cases hrun
  by_cases hex : ∃ k, FirstFree s.sb s.blockBitmap k
  · obtain ⟨k, hk⟩ := hex
    by_cases hz : s.gdesc.blockBitmap + UInt32.ofNat k ∈ s.gdesc.blockBitmap :: s.blk.held
    · rw [balloc_deadlock h2 hbb hk hz] at hrun
      cases hrun
    · rw [balloc_ok h2 hbb hk hz] at hrun
      cases hrun
      exact ⟨fun heq => hz (by rw [heq]; exact List.mem_cons_self), _, rfl⟩
  · have herr : ∃ e, balloc dev s = .error e := balloc_error h2 hbb hex
    obtain ⟨e, he⟩ := herr
    rw [he] at hrun
    cases hrun

theorem allocates_checkedBalloc : Allocates checkedBalloc := by
  intro dev A s b s' hrun
  unfold checkedBalloc at hrun
  rw [bind_of_ok (get_apply s)] at hrun
  obtain ⟨b', u, hballoc, hrun⟩ := bind_eq_ok.mp hrun
  obtain ⟨hbb, d, hu⟩ := balloc_sat b' u hballoc
  by_cases hbad : b' = 0 ∨ b' = 2 ∨ b' ∈ A ∨ s.gdesc.blockBitmap = 2 ∨ s.gdesc.blockBitmap ∈ A
  · rw [if_pos hbad] at hrun
    cases hrun
  rw [if_neg hbad] at hrun
  cases hrun
  simp only [not_or] at hbad
  obtain ⟨h0, h2, hnew, hdesc, hbmA⟩ := hbad
  refine ⟨hnew, ?_, ?_, fun c hc => ?_, ?_, ?_, ?_⟩
  · rintro (h | h | h | ⟨ip, hip, -⟩)
    · exact h0 h
    · exact h2 h
    · exact hbb h
    · exact absurd hip (Finset.notMem_empty ip)
  · rw [hu, Fs.content_write, Function.update_self]
  · have hcb : c ≠ b := fun heq => hnew (heq ▸ hc)
    have hcm : c ≠ s.gdesc.blockBitmap := fun heq => hbmA (heq ▸ hc)
    rw [hu, Fs.content_write, Function.update_of_ne hcb, Fs.content_write,
      Function.update_of_ne hcm]
  · rw [hu, gdesc_write h2, gdesc_write hdesc]
  · rw [hu]
    rfl
  · rw [hu]
    rfl

end Track

end Xv6Ext2
