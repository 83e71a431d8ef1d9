import Xv6Ext2.Bmap

/-!
# Calls of `bmap` one after another

Here `bmap` is taken as a map from the blocks of a file to blocks of the disk.  The
allocator is any program that returns blocks the file does not have yet, zeroed, and
nothing is asked of the file but that its pointers are pairwise distinct: the blocks
may lie anywhere on the disk, and the bitmap may be in any state.

## Main definitions

* `Supplies ip alloc` — `alloc` returns fresh, zeroed blocks.
* `Extends ip s t` — the pointers of the file in `s` are those in `t`, or null.
* `MapsTo alloc ip s bn b` — `bmap` returns `b` for `bn`, and changes nothing.

## Main results

* `bmapWith_extends` — one call fills the place of its block and keeps the others.
* `bmap_stable_injective` — **`bmap` is a stable, injective map** for all the blocks
  that an offset can name.
-/

namespace Xv6Ext2

open Prog

variable {s t u : Fs Store} {ip : Fin NINODE} {b dev : UInt32}
variable {alloc : UInt32 → FsM Store UInt32}

/-! ### The allocator -/

/-- What the allocator has to do in a call that returns `b`. -/
structure Supplied (ip : Fin NINODE) (s : Fs Store) (b : UInt32) (t : Fs Store) : Prop where
  ne_zero : b ≠ 0
  new : ∀ κ, Key.Ok {ip} κ → s.node κ ≠ b
  zero : t.blk.content b = Block.zero
  content : ∀ κ, Key.Ok {ip} κ → s.node κ ≠ 0 →
    t.blk.content (s.node κ) = s.blk.content (s.node κ)
  held : t.blk.held = s.blk.held
  itable : t.itable = s.itable

/-- The allocator returns blocks that are fresh for the file and zeroed. -/
def Supplies (ip : Fin NINODE) (alloc : UInt32 → FsM Store UInt32) : Prop :=
  ∀ dev s b t, alloc dev s = .ok (b, t) → Supplied ip s b t

/-- The errors of the allocator. -/
def SupplyFails (alloc : UInt32 → FsM Store UInt32) (e : Err) : Prop :=
  ∃ dev s, alloc dev s = .error e

theorem Supplies.yields (halloc : Supplies ip alloc) (dev : UInt32) (s : Fs Store) :
    Yields (SupplyFails alloc) (alloc dev) s (Supplied ip s) := by
  rcases h : alloc dev s with e | ⟨b, t⟩
  · exact Or.inr ⟨e, h, dev, s, h⟩
  · exact Or.inl ⟨b, t, h, halloc dev s b t h⟩

/-! ### One call -/

/-- The file in `t` has the blocks it has in `s`, at the same places, and further ones. -/
structure Extends (ip : Fin NINODE) (s t : Fs Store) : Prop where
  distinct : Forest.Distinct 0 (Key.Ok {ip}) t.node
  node : ∀ κ, Key.Ok {ip} κ → s.node κ ≠ 0 → t.node κ = s.node κ

namespace Extends

theorem refl (h : Forest.Distinct 0 (Key.Ok {ip}) s.node) : Extends ip s s :=
  ⟨h, fun _ _ _ => rfl⟩

theorem trans (hst : Extends ip s t) (htu : Extends ip t u) : Extends ip s u := by
  refine ⟨htu.distinct, fun κ hκ hne => ?_⟩
  have hkept := hst.node κ hκ hne
  rw [htu.node κ hκ (hkept ▸ hne), hkept]

/-- Hanging a new block into an empty place. -/
theorem hang (h : Forest.Distinct 0 (Key.Ok {ip}) s.node) {κ₀ : Key} (hok : κ₀.Ok {ip})
    (hempty : s.node κ₀ = 0) (hnew : ∀ κ, Key.Ok {ip} κ → s.node κ ≠ b)
    (hnode : ∀ κ, Key.Ok {ip} κ → t.node κ = if κ = κ₀ then b else s.node κ) :
    Extends ip s t := by
  have hself : t.node κ₀ = b := (hnode κ₀ hok).trans (if_pos rfl)
  have hother : ∀ κ, Key.Ok {ip} κ → κ ≠ κ₀ → t.node κ = s.node κ := fun κ hκ hne =>
    (hnode κ hκ).trans (if_neg hne)
  refine ⟨h.hang κ₀ (fun κ hκ _ => hself ▸ hnew κ hκ) hother, fun κ hκ hne => hother κ hκ ?_⟩
  rintro rfl
  exact hne hempty

end Extends

/-- An entry of `addrs` is filled. -/
theorem addrSlot_extends (halloc : Supplies ip alloc)
    (h : Forest.Distinct 0 (Key.Ok {ip}) s.node) (r : Fin 15) :
    Yields (SupplyFails alloc) (addrSlot alloc ip r) s fun a t => Extends ip s t ∧
      t.blk.held = s.blk.held ∧ t.node ((ip, r), []) = a ∧ a ≠ 0 := by
  by_cases hempty : s.node ((ip, r), []) = 0
  · have hok : Key.Ok {ip} ((ip, r), []) := ⟨Finset.mem_singleton_self ip, Nat.zero_le _⟩
    have haddr : (s.itable ip).addrs r = 0 := hempty
    unfold addrSlot
    refine Yields.of_eq (bind_of_ok (getInode_apply _ ip)) ?_
    rw [if_pos haddr]
    refine (halloc.yields _ s).bind fun b u hu => ?_
    have hnode := node_hangAddr (P := {ip}) hempty hu.itable hu.zero hu.content
    exact Yields.of_ok rfl ⟨Extends.hang h hok hempty hu.new hnode, hu.held,
      (hnode _ hok).trans (if_pos rfl), hu.ne_zero⟩
  · exact Yields.of_ok (addrSlot_there hempty) ⟨.refl h, rfl, rfl, hempty⟩

/-- A slot of an index block is filled. -/
theorem indexSlot_extends (halloc : Supplies ip alloc)
    (h : Forest.Distinct 0 (Key.Ok {ip}) s.node) {q : Fin NINODE × Fin 15}
    {l : List (Fin NINDIRECT)} {j : Fin NINDIRECT} (hok : Key.Ok {ip} (q, l ++ [j]))
    (hparent : s.node (q, l) ≠ 0) :
    Yields (SupplyFails alloc) (indexSlot alloc dev (s.node (q, l)) j) s fun a t =>
      Extends ip s t ∧ t.blk.held = s.blk.held ∧ t.node (q, l ++ [j]) = a ∧ a ≠ 0 := by
  by_cases hempty : s.node (q, l ++ [j]) = 0
  · have hword : (s.blk.content (s.node (q, l))).word j = 0 := by
      rw [Fs.node_snoc, if_neg hparent] at hempty
      exact hempty
    unfold indexSlot
    refine Yields.of_eq (bind_of_ok bdata_apply) ?_
    rw [if_pos hword]
    refine (halloc.yields dev s).bind fun b u hu => ?_
    have hz : s.node (q, l) ≠ b := hu.new _ (prefixClosed_ok _ q l j hok)
    have hnode := node_hangSlot h hok hparent hempty hu.itable hu.zero hz hu.content
    exact Yields.of_ok rfl ⟨Extends.hang h hok hempty hu.new hnode, hu.held,
      (hnode _ hok).trans (if_pos rfl), hu.ne_zero⟩
  · exact Yields.of_ok (indexSlot_there hempty) ⟨.refl h, rfl, rfl, hempty⟩

/-- The walk down the index blocks. -/
theorem indexWalk_extends (halloc : Supplies ip alloc) {q : Fin NINODE × Fin 15}
    (js : List (Fin NINDIRECT)) :
    ∀ (l : List (Fin NINDIRECT)) (s : Fs Store) (bps : List UInt32),
      Forest.Distinct 0 (Key.Ok {ip}) s.node → Key.Ok {ip} (q, l ++ js) → s.node (q, l) ≠ 0 →
      Passed {ip} s q l bps →
      Yields (SupplyFails alloc) (indexWalk alloc dev bps (s.node (q, l)) (js.map Fin.val)) s
        fun a t => Extends ip s t ∧ t.blk.held = [] ∧ t.node (q, l ++ js) = a ∧ a ≠ 0 := by
  induction js with
  | nil =>
    intro l s bps h _ hne hpassed
    refine Yields.of_ok (t := s.withHeld []) ?_
      ⟨⟨h, fun _ _ _ => rfl⟩, rfl, congrArg (fun l => s.node (q, l)) (List.append_nil l), hne⟩
    rw [List.map_nil, indexWalk, bind_of_ok (forM_brelse bps s hpassed.held)]
    rfl
  | cons j js ih =>
    intro l s bps h hok hne hpassed
    have hassoc : l ++ j :: js = l ++ [j] ++ js := by simp
    have hokj : Key.Ok {ip} (q, l ++ [j]) := hok.of_cons
    have hokl := prefixClosed_ok _ q l j hokj
    refine Yields.of_eq (bind_of_ok (bread_ok (hpassed.notMem h hokl))) ?_
    refine Yields.bind (indexSlot_extends (s := s.hold (s.node (q, l))) halloc h hokj hne) ?_
    rintro next t ⟨ht, hheld, rfl, hnext⟩
    have hst : Extends ip s t := ⟨ht.distinct, ht.node⟩
    rw [hassoc] at hok ⊢
    refine (ih (l ++ [j]) t (bps ++ [s.node (q, l)]) ht.distinct hok hnext
      (hpassed.push hokl hne j hheld hst.node)).mono ?_
    rintro a u ⟨hu, hrest⟩
    exact ⟨hst.trans hu, hrest⟩

/-- **One call of `bmap`** fills the place of its block and keeps all the other blocks,
or stops where the allocator does. -/
theorem bmapWith_extends (halloc : Supplies ip alloc)
    (h : Forest.Distinct 0 (Key.Ok {ip}) s.node) (hheld : s.blk.held = []) {bn : ℕ}
    (hbn : bn < maxBlocks) :
    Yields (SupplyFails alloc) (bmapWith alloc ip bn) s fun b t => Extends ip s t ∧
      t.blk.held = [] ∧ t.node (dataKey ip bn) = b ∧ b ≠ 0 := by
  refine Yields.of_eq (bmapWith_eq alloc hbn) ?_
  refine (addrSlot_extends halloc h _).bind ?_
  rintro a t ⟨ht, hheldt, rfl, hne⟩
  have hok := ok_dataKey (Finset.mem_singleton_self ip) bn
  refine (indexWalk_extends halloc (blockPath bn).2 [] t [] ht.distinct hok hne
    (Passed.nil (hheldt.trans hheld))).mono ?_
  rintro b u ⟨hu, hrest⟩
  exact ⟨ht.trans hu, hrest⟩

/-! ### The map -/

/-- The block `bn` of the file is mapped to `b`: the call returns `b` and changes
nothing. -/
def MapsTo (alloc : UInt32 → FsM Store UInt32) (ip : Fin NINODE) (s : Fs Store) (bn : ℕ)
    (b : UInt32) : Prop :=
  bmapWith alloc ip bn s = .ok (b, s)

/-- A block is mapped to what stands at its place. -/
theorem mapsTo_iff (halloc : Supplies ip alloc) (h : Forest.Distinct 0 (Key.Ok {ip}) s.node)
    (hheld : s.blk.held = []) {bn : ℕ} (hbn : bn < maxBlocks) :
    MapsTo alloc ip s bn b ↔ s.node (dataKey ip bn) = b ∧ b ≠ 0 := by
  constructor
  · intro hmap
    exact ((bmapWith_extends halloc h hheld hbn).sat b s hmap).2.2
  · rintro ⟨rfl, hne⟩
    exact bmapWith_there h hheld (Finset.mem_singleton_self ip) hbn hne

/-- The number of a block that an offset lies in. -/
theorem blockOf_lt_maxBlocks (off : UInt32) : off.toNat / BSIZE < maxBlocks := by
  have hoff := off.toNat_lt
  simp only [maxBlocks, BSIZE, NDIRECT, NINDIRECT, NDINDIRECT, NTINDIRECT]
  omega

/-- The entry of `addrs` and the entries of index blocks that `bmap` uses exist. -/
def InBounds (ip : Fin NINODE) (bn : ℕ) : Prop :=
  ∃ (r : Fin 15) (js : List ℕ), (bn < NDIRECT → r.val = bn) ∧ (∀ j ∈ js, j < NINDIRECT) ∧
    ∀ (alloc : UInt32 → FsM Store UInt32) (s : Fs Store), bmapWith alloc ip bn s =
      (addrSlot alloc ip r >>= fun addr => indexWalk alloc (s.itable ip).dev [] addr js) s

theorem inBounds_of_lt (ip : Fin NINODE) {bn : ℕ} (hbn : bn < maxBlocks) : InBounds ip bn := by
  refine ⟨(blockPath bn).1, (blockPath bn).2.map Fin.val, fun hdirect => ?_, ?_,
    fun alloc s => bmapWith_eq alloc hbn⟩
  · rw [blockPath, if_pos hdirect]
    exact Nat.mod_eq_of_lt (Nat.lt_trans hdirect (by decide))
  · intro j hj
    obtain ⟨i, -, rfl⟩ := List.mem_map.mp hj
    exact i.isLt

/-- **`bmap` is a stable, injective map.**  The file has pairwise distinct pointers and
the allocator returns fresh, zeroed blocks.  For the block of any offset, all indices
are in bounds, and a call returns a block unless the allocator fails.  After it a second
call returns the same block and changes nothing, no index block is that block, and what
the other blocks were mapped to stays.  A call for another block then returns another
one, and leaves this one. -/
theorem bmap_stable_injective (halloc : Supplies ip alloc)
    (hdistinct : Forest.Distinct 0 (Key.Ok {ip}) s.node) (hheld : s.blk.held = [])
    (off : UInt32) :
    InBounds ip (off.toNat / BSIZE) ∧
    Yields (SupplyFails alloc) (bmapWith alloc ip (off.toNat / BSIZE)) s fun b t =>
      b ≠ 0 ∧ MapsTo alloc ip t (off.toNat / BSIZE) b ∧
      (∀ κ, Key.Ok {ip} κ → ¬κ.IsLeaf → t.node κ ≠ b) ∧
      (∀ (off' : UInt32) (b' : UInt32), MapsTo alloc ip s (off'.toNat / BSIZE) b' →
        MapsTo alloc ip t (off'.toNat / BSIZE) b') ∧
      (∀ off' : UInt32, off'.toNat / BSIZE ≠ off.toNat / BSIZE →
        Yields (SupplyFails alloc) (bmapWith alloc ip (off'.toNat / BSIZE)) t fun b' u =>
          b' ≠ b ∧ MapsTo alloc ip u (off.toNat / BSIZE) b) ∧
      Forest.Distinct 0 (Key.Ok {ip}) t.node ∧ t.blk.held = [] := by
  have hbn := blockOf_lt_maxBlocks off
  have hokOf := ok_dataKey (Finset.mem_singleton_self ip)
  refine ⟨inBounds_of_lt ip hbn, (bmapWith_extends halloc hdistinct hheld hbn).mono ?_⟩
  rintro b t ⟨ht, hheldt, rfl, hne⟩
  have hthere : MapsTo alloc ip t (off.toNat / BSIZE) (t.node (dataKey ip (off.toNat / BSIZE))) :=
    (mapsTo_iff halloc ht.distinct hheldt hbn).mpr ⟨rfl, hne⟩
  refine ⟨hne, hthere, ?_, ?_, ?_, ht.distinct, hheldt⟩
  · intro κ hκ hindex heq
    have hκeq := ht.distinct κ _ hκ (hokOf _) (heq ▸ hne) heq
    exact hindex (hκeq ▸ isLeaf_dataKey ip)
  · intro off' b' hmap
    have hbn' := blockOf_lt_maxBlocks off'
    obtain ⟨rfl, hne'⟩ := (mapsTo_iff halloc hdistinct hheld hbn').mp hmap
    exact (mapsTo_iff halloc ht.distinct hheldt hbn').mpr ⟨ht.node _ (hokOf _) hne', hne'⟩
  · intro off' hoff'
    have hbn' := blockOf_lt_maxBlocks off'
    refine (bmapWith_extends halloc ht.distinct hheldt hbn').mono ?_
    rintro b' u ⟨hu, hheldu, rfl, hne'⟩
    have hkept := hu.node _ (hokOf (off.toNat / BSIZE)) hne
    refine ⟨fun heq => hoff' ?_, (mapsTo_iff halloc hu.distinct hheldu hbn).mpr ⟨hkept, hne⟩⟩
    exact dataKey_inj hbn' hbn (hu.distinct _ _ (hokOf _) (hokOf _) hne' (heq.trans hkept.symm))

/-! ### A file without blocks -/

/-- An allocator that serves inode 0 while it has no blocks, with block 9. -/
def firstBlock (_dev : UInt32) : FsM Store UInt32 := fun s =>
  if ∀ k, (s.itable 0).addrs k = 0 then .ok (9, s.write 9 Block.zero) else .error .fault

theorem supplies_firstBlock : Supplies 0 firstBlock := by
  intro dev s b t hrun
  by_cases haddrs : ∀ k, (s.itable 0).addrs k = 0
  · rw [firstBlock, if_pos haddrs] at hrun
    cases hrun
    have hnode := node_of_empty haddrs
    refine ⟨by decide, fun κ hκ => ?_, ?_, fun κ hκ hne => absurd (hnode κ hκ) hne, rfl, rfl⟩
    · rw [hnode κ hκ]
      decide
    · rw [Fs.content_write, Function.update_self]
  · rw [firstBlock, if_neg haddrs] at hrun
    cases hrun

/-- From a disk of zeros, the byte 5000 of the file gets block 9. -/
theorem bmap_stable_injective_empty : ∃ t, bmapWith firstBlock 0 4 (imageOf []) = .ok (9, t) ∧
    MapsTo firstBlock 0 t 4 9 := by
  have haddrs : ∀ k, ((imageOf []).itable 0).addrs k = 0 := fun _ => rfl
  have hdistinct : Forest.Distinct 0 (Key.Ok {0}) (imageOf []).node := fun κ κ' hκ _ hne =>
    absurd (node_of_empty haddrs κ hκ) hne
  have hrun : (bmapWith firstBlock 0 4 (imageOf [])).map Prod.fst = .ok 9 := by decide +kernel
  have hbn : (5000 : UInt32).toNat / BSIZE = 4 := rfl
  have hmain := (bmap_stable_injective supplies_firstBlock hdistinct rfl 5000).2
  rw [hbn] at hmain
  rcases hmain with ⟨b, t, hb, -, hmap, -⟩ | ⟨e, he, -⟩
  · rw [hb] at hrun
    cases hrun
    exact ⟨t, hb, hmap⟩
  · rw [he] at hrun
    cases hrun

end Xv6Ext2
