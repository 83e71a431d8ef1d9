import Xv6Ext2.Mapping

/-!
# Truncation gives back what mapping took

`itrunc` walks the pointer forest of an inode and calls `bfree` on what it finds.  It
is written separately from `bmap`, with four shapes of walk each, so that they agree
on the blocks is a fact about both: after any sequence of calls of `bmap` on an inode
without blocks, the walk of `itrunc` comes by every block that was allocated, once.

What keeps `itrunc` from freeing all the blocks is `bfree` itself, which looks for the
block at the mirrored bit of the bitmap.

## Main definitions

* `Cut ip t D G u` — in truncating the file of `t`, the places `D` have been passed,
  and `G` has been freed.
* `GivesBack` — `itrunc` frees what was taken, once, and leaves the inode empty.

## Main results

* `itruncWith_yields` — the walk frees the blocks of the forest, whatever frees them.
* `givesBack_iff` — **`itrunc` gives back what `bmap` took** exactly when the blocks
  taken are those that `bfree` finds in use.
-/

namespace Xv6Ext2

open Function Prog

section Track

variable {s : Fs Store} {A G : List UInt32} {dev b : UInt32} {ip : Fin NINODE}
  {alloc : UInt32 → List UInt32 → FsM Store UInt32}

/-! ### The places passed -/

/-- The places at and below a place. -/
def below (q : Fin NINODE × Fin 15) (l : List (Fin NINDIRECT)) : Set Key :=
  {κ | κ.1 = q ∧ l <+: κ.2}

/-- The places below a place, through the slots `js`. -/
def belowSlots (q : Fin NINODE × Fin 15) (l : List (Fin NINDIRECT)) (js : List ℕ) : Set Key :=
  {κ | ∃ j : Fin NINDIRECT, j.val ∈ js ∧ κ ∈ below q (l ++ [j])}

/-- **The invariant of truncation.**  The places `D` of the file of `t` have been passed,
and the blocks found there freed.  The pointers to other places are as in `t`. -/
structure Cut (ip : Fin NINODE) (t : Fs Store) (D : Set Key) (G : List UInt32) (u : Fs Store) :
    Prop where
  nodup : G.Nodup
  mem : ∀ b, b ∈ G ↔ ∃ κ ∈ D, Key.Ok {ip} κ ∧ t.node κ ≠ 0 ∧ t.node κ = b
  word : ∀ q l (j : Fin NINDIRECT), Key.Ok {ip} (q, l ++ [j]) → t.node (q, l) ≠ 0 →
    (q, l ++ [j]) ∉ D → (u.blk.content (t.node (q, l))).word j = t.node (q, l ++ [j])
  addr : ∀ k, ((ip, k), []) ∉ D → (u.itable ip).addrs k = t.node ((ip, k), [])

section Cut

variable {t u u' : Fs Store} {D D' : Set Key} {q : Fin NINODE × Fin 15}
  {l : List (Fin NINDIRECT)} {j : Fin NINDIRECT} {js : List ℕ} {κ : Key}

theorem mem_below_self : (q, l) ∈ below q l := ⟨rfl, List.prefix_rfl⟩

theorem below_snoc_subset : below q (l ++ [j]) ⊆ below q l :=
  fun _ hκ => ⟨hκ.1, (List.prefix_append l [j]).trans hκ.2⟩

/-- What lies at or below a place is the place, or below one of its slots. -/
theorem eq_or_mem_belowSlots (h : κ ∈ below q l) :
    κ = (q, l) ∨ κ ∈ belowSlots q l (List.range NINDIRECT) := by
  obtain ⟨q', l'⟩ := κ
  obtain ⟨rfl, m, rfl⟩ := h
  cases m with
  | nil => exact Or.inl (by rw [List.append_nil])
  | cons j m =>
    refine Or.inr ⟨j, List.mem_range.mpr j.isLt, rfl, m, ?_⟩
    rw [List.append_assoc]
    rfl

theorem belowSlots_subset : belowSlots q l js ⊆ below q l := by
  rintro κ ⟨j, -, hκ⟩
  exact below_snoc_subset hκ

theorem self_not_mem_belowSlots : (q, l) ∉ belowSlots q l js := by
  rintro ⟨j, -, -, hpre⟩
  have := hpre.length_le
  simp at this

/-- The places below different slots are different. -/
theorem not_mem_belowSlots (h : κ ∈ below q (l ++ [j])) (hj : j.val ∉ js) :
    κ ∉ belowSlots q l js := by
  rintro ⟨j', hj', -, hpre'⟩
  have hlen : (l ++ [j']).length = (l ++ [j]).length := by simp
  have heq := List.append_inj_right (List.prefix_of_prefix_length_le hpre' h.2 (le_of_eq hlen)
    |>.eq_of_length hlen) rfl
  cases heq
  exact hj hj'

theorem belowSlots_snoc :
    belowSlots q l (js ++ [j.val]) = belowSlots q l js ∪ below q (l ++ [j]) := by
  ext κ
  constructor
  · rintro ⟨j', hj', hκ⟩
    rcases List.mem_append.mp hj' with hj' | hj'
    · exact Or.inl ⟨j', hj', hκ⟩
    · cases Fin.ext (List.mem_singleton.mp hj')
      exact Or.inr hκ
  · rintro (⟨j', hj', hκ⟩ | hκ)
    · exact ⟨j', List.mem_append_left _ hj', hκ⟩
    · exact ⟨j, by simp, hκ⟩

/-- Nothing is at a place below an empty one. -/
theorem node_below (h : t.node (q, l) = 0) (hκ : κ ∈ below q l) : t.node κ = 0 := by
  obtain ⟨q', l'⟩ := κ
  obtain ⟨rfl, m, rfl⟩ := hκ
  induction m using List.reverseRecOn with
  | nil => simpa using h
  | append_singleton m j ih =>
    have hm : t.node (q', l ++ m) = 0 := ih h
    show t.node (q', l ++ (m ++ [j])) = 0
    rw [← List.append_assoc, Fs.node_snoc, if_pos hm]

namespace Cut

theorem refl : Cut ip t ∅ [] t where
  nodup := List.nodup_nil
  mem b := by simp
  word q l j _ hne _ := by rw [Fs.node_snoc, if_neg hne]
  addr _ _ := rfl

/-- Empty places may be passed without a change. -/
theorem mono (hc : Cut ip t D G u) (hsub : D ⊆ D')
    (hnew : ∀ κ ∈ D', Key.Ok {ip} κ → t.node κ ≠ 0 → κ ∈ D) : Cut ip t D' G u where
  nodup := hc.nodup
  mem b := by
    rw [hc.mem]
    constructor
    · rintro ⟨κ, hκ, hrest⟩
      exact ⟨κ, hsub hκ, hrest⟩
    · rintro ⟨κ, hκ, hok, hne, heq⟩
      exact ⟨κ, hnew κ hκ hok hne, hok, hne, heq⟩
  word q l j hok hne hD := hc.word q l j hok hne fun h => hD (hsub h)
  addr k hD := hc.addr k fun h => hD (hsub h)

/-- A block that has not been passed has not been freed. -/
theorem not_mem (hc : Cut ip t D G u) (h : Mapped ip A t) (hok : Key.Ok {ip} κ)
    (hD : κ ∉ D) : t.node κ ∉ G := by
  intro hmem
  obtain ⟨κ', hκ', hok', hne', heq⟩ := (hc.mem _).mp hmem
  rw [h.distinct κ' κ hok' hok hne' heq] at hκ'
  exact hD hκ'

/-- Freeing the block at a place. -/
theorem free (hc : Cut ip t D G u) (h : Mapped ip A t) (hok : Key.Ok {ip} κ)
    (hne : t.node κ ≠ 0) (hD : κ ∉ D)
    (hcont : ∀ c ∈ A, u'.blk.content c = u.blk.content c) (hit : u'.itable = u.itable) :
    Cut ip t (insert κ D) (t.node κ :: G) u' where
  nodup := List.nodup_cons.mpr ⟨hc.not_mem h hok hD, hc.nodup⟩
  mem b := by
    rw [List.mem_cons, hc.mem]
    constructor
    · rintro (rfl | ⟨κ', hκ', hrest⟩)
      · exact ⟨κ, Set.mem_insert _ _, hok, hne, rfl⟩
      · exact ⟨κ', Set.mem_insert_of_mem _ hκ', hrest⟩
    · rintro ⟨κ', hκ' | hκ', hok', hne', rfl⟩
      · exact Or.inl (by rw [hκ'])
      · exact Or.inr ⟨κ', hκ', hok', hne', rfl⟩
  word q l j hokj hnel hD' := by
    rw [hcont _ (h.node_mem (prefixClosed_ok _ q l j hokj) hnel)]
    exact hc.word q l j hokj hnel fun hmem => hD' (Set.mem_insert_of_mem _ hmem)
  addr k hD' := by
    rw [hit]
    exact hc.addr k fun hmem => hD' (Set.mem_insert_of_mem _ hmem)

/-- Clearing the slot of a place that has been passed. -/
theorem clearSlot (hc : Cut ip t D G u) (h : Mapped ip A t) (hok : Key.Ok {ip} (q, l ++ [j]))
    (hD : (q, l ++ [j]) ∈ D) :
    Cut ip t D G (u.write (t.node (q, l)) ((u.blk.content (t.node (q, l))).setWord j 0)) where
  nodup := hc.nodup
  mem := hc.mem
  word q' l' j' hok' hne' hD' := by
    have hword := hc.word q' l' j' hok' hne' hD'
    rw [Fs.content_write]
    by_cases heq : t.node (q', l') = t.node (q, l)
    · cases h.distinct _ _ (prefixClosed_ok _ q' l' j' hok') (prefixClosed_ok _ q l j hok) hne' heq
      rw [update_self, Block.word_setWord _ _ j.isLt, if_neg, hword]
      intro hj
      cases Fin.ext hj
      exact hD' hD
    · rw [update_of_ne heq, hword]
  addr := hc.addr

/-- Clearing the entry of `addrs` of a place that has been passed. -/
theorem clearAddr (hc : Cut ip t D G u) {k : Fin 15} (hD : ((ip, k), []) ∈ D) {i : Inode}
    (hi : i.addrs = update (u.itable ip).addrs k 0) : Cut ip t D G (u.setItable ip i) where
  nodup := hc.nodup
  mem := hc.mem
  word := hc.word
  addr k' hD' := by
    have hk : k' ≠ k := by
      rintro rfl
      exact hD' hD
    rw [Fs.itable_setItable, update_self, hi, update_of_ne hk]
    exact hc.addr k' hD'

end Cut

end Cut

/-! ### The walk -/

/-- **What is asked of the program that frees a block.**  Blocks of `A` can be freed once
each.  `R` says how the blocks freed show in the state, outside the blocks `A`, and `E`
which errors there may be. -/
structure Frees (A : List UInt32) (R : List UInt32 → Fs Store → Prop) (E : Err → Prop)
    (free : UInt32 → UInt32 → FsM Store Unit) : Prop where
  call : ∀ dev b G s, b ∈ A → b ∉ G → R G s → (∀ c ∈ s.blk.held, c ∈ A) →
    Yields E (free dev b) s fun _ s' => R (b :: G) s' ∧
      (∀ c ∈ A, s'.blk.content c = s.blk.content c) ∧ s'.blk.held = s.blk.held ∧
      s'.itable = s.itable
  frame : ∀ G s s', (∀ c, c ∉ A → s'.blk.content c = s.blk.content c) → R G s → R G s'

/-- A state of truncation, with the buffers `H` held and the inodes `T` in memory. -/
def Cutting (ip : Fin NINODE) (A : List UInt32) (R : List UInt32 → Fs Store → Prop)
    (t : Fs Store) (D : Set Key) (H : List UInt32) (T : Fin NINODE → Inode) (p : Fs Tracked) :
    Prop :=
  ∃ G u, p = Fs.track u A G ∧ Cut ip t D G u ∧ R G u ∧ u.blk.held = H ∧ u.itable = T

section Walk

variable {t : Fs Store} {R : List UInt32 → Fs Store → Prop} {E : Err → Prop}
  {free : UInt32 → UInt32 → FsM Store Unit} {D : Set Key} {H : List UInt32}
  {T : Fin NINODE → Inode} {p : Fs Tracked} {q : Fin NINODE × Fin 15}
  {l : List (Fin NINDIRECT)} {κ : Key}

theorem Cutting.mono {D' : Set Key} (hp : Cutting ip A R t D H T p) (hsub : D ⊆ D')
    (hnew : ∀ κ ∈ D', Key.Ok {ip} κ → t.node κ ≠ 0 → κ ∈ D) : Cutting ip A R t D' H T p := by
  obtain ⟨G, u, rfl, hc, hrest⟩ := hp
  exact ⟨G, u, rfl, hc.mono hsub hnew, hrest⟩

/-- Freeing the block at a place that has not been passed. -/
theorem gives_yields (hfree : Frees A R E free) (h : Mapped ip A t)
    (hp : Cutting ip A R t D H T p) (hok : Key.Ok {ip} κ) (hne : t.node κ ≠ 0) (hD : κ ∉ D)
    (hheld : ∀ c ∈ H, c ∈ A) :
    Yields E (gives free dev (t.node κ)) p fun _ p' =>
      Cutting ip A R t (insert κ D) H T p' := by
  obtain ⟨G, u, rfl, hc, hR, rfl, rfl⟩ := hp
  rcases hfree.call dev _ G u (h.node_mem hok hne) (hc.not_mem h hok hD) hR hheld with
    ⟨⟨⟩, u', hrun, hR', hcont, hheld', hit⟩ | ⟨e, hrun, he⟩
  · refine Yields.of_ok (a := ()) (t := u'.track A (t.node κ :: G)) ?_
      ⟨_, u', rfl, hc.free h hok hne hD hcont hit, hR', hheld', hit⟩
    show (free dev (t.node κ) u).map _ = _
    rw [hrun]
    rfl
  · refine Or.inr ⟨e, ?_, he⟩
    show (free dev (t.node κ) u).map _ = _
    rw [hrun]
    rfl

/-- The buffers held on the way down to a place are those of blocks above it. -/
def HeldAbove (ip : Fin NINODE) (t : Fs Store) (q : Fin NINODE × Fin 15)
    (l : List (Fin NINDIRECT)) (H : List UInt32) : Prop :=
  ∀ b ∈ H, ∃ l', l'.length < l.length ∧ Key.Ok {ip} (q, l') ∧ t.node (q, l') ≠ 0 ∧
    t.node (q, l') = b

theorem HeldAbove.mem (hH : HeldAbove ip t q l H) (h : Mapped ip A t) : ∀ b ∈ H, b ∈ A := by
  intro b hb
  obtain ⟨l', -, hok, hne, rfl⟩ := hH b hb
  exact h.node_mem hok hne

theorem HeldAbove.not_mem (hH : HeldAbove ip t q l H) (h : Mapped ip A t)
    (hok : Key.Ok {ip} (q, l)) : t.node (q, l) ∉ H := by
  intro hmem
  obtain ⟨l', hlen, hok', hne', heq⟩ := hH _ hmem
  cases h.distinct (q, l') (q, l) hok' hok hne' heq
  exact absurd hlen (Nat.lt_irrefl _)

theorem HeldAbove.snoc (hH : HeldAbove ip t q l H) (hok : Key.Ok {ip} (q, l))
    (hne : t.node (q, l) ≠ 0) (j : Fin NINDIRECT) :
    HeldAbove ip t q (l ++ [j]) (t.node (q, l) :: H) := by
  intro b hb
  rcases List.mem_cons.mp hb with rfl | hb
  · exact ⟨l, by simp, hok, hne, rfl⟩
  · obtain ⟨l', hlen, hrest⟩ := hH b hb
    exact ⟨l', by rw [List.length_append]; omega, hrest⟩

/-- One slot of an index block, whose place has not been passed. -/
theorem freeSlot_yields (hfree : Frees A R E free) (h : Mapped ip A t) {j : Fin NINDIRECT}
    (hok : Key.Ok {ip} (q, l ++ [j])) (hne : t.node (q, l) ≠ 0) (hD : (q, l ++ [j]) ∉ D)
    {depth : ℕ}
    (hwalk : t.node (q, l ++ [j]) ≠ 0 →
      Yields E (freeTree (gives free) dev depth (t.node (q, l ++ [j]))) p fun _ p' =>
        Cutting ip A R t (D ∪ below q (l ++ [j])) H T p')
    (hp : Cutting ip A R t D H T p) :
    Yields E (do
      let a ← bdata (t.node (q, l))
      if a.word j = 0 then return ⟨⟩
      else do
        freeTree (gives free) dev depth (a.word j)
        let a ← bdata (t.node (q, l))
        bstore (t.node (q, l)) (a.setWord j 0)) p fun _ p' =>
      Cutting ip A R t (D ∪ below q (l ++ [j])) H T p' := by
  obtain ⟨G, v, rfl, hc, hR, hheld, hit⟩ := hp
  refine Yields.of_eq (bind_of_ok bdata_track) ?_
  rw [hc.word q l j hok hne hD]
  by_cases h0 : t.node (q, l ++ [j]) = 0
  · rw [if_pos h0]
    refine Yields.of_ok rfl ⟨G, v, rfl, hc.mono Set.subset_union_left ?_, hR, hheld, hit⟩
    rintro κ (hκ | hκ) _ hne'
    · exact hκ
    · exact absurd (node_below h0 hκ) hne'
  · rw [if_neg h0]
    refine (hwalk h0).bind ?_
    rintro - p' ⟨G', w, rfl, hcw, hRw, hheldw, hitw⟩
    refine Yields.of_eq (bind_of_ok bdata_track) (Yields.of_ok rfl ?_)
    refine ⟨G', _, rfl, hcw.clearSlot h hok (Or.inr mem_below_self),
      hfree.frame G' w _ (fun c hcA => update_of_ne ?_ _ _) hRw, hheldw, hitw⟩
    rintro rfl
    exact hcA (h.node_mem (prefixClosed_ok _ q l j hok) hne)

/-- **The walk below a place** frees what is found there, and passes no other place. -/
theorem freeTree_yields (hfree : Frees A R E free) (h : Mapped ip A t) (hq : q.1 = ip) :
    ∀ (depth : ℕ) (l : List (Fin NINDIRECT)) (D : Set Key) (H : List UInt32) (p : Fs Tracked),
      l.length + depth = indexDepth q.2 → t.node (q, l) ≠ 0 → Cutting ip A R t D H T p →
      (∀ κ ∈ below q l, κ ∉ D) → HeldAbove ip t q l H →
      Yields E (freeTree (gives free) dev depth (t.node (q, l))) p fun _ p' =>
        Cutting ip A R t (D ∪ below q l) H T p' := by
  intro depth
  induction depth with
  | zero =>
    intro l D H p hlen hne hp hD hH
    have hok : Key.Ok {ip} (q, l) := ⟨by simp [hq], by dsimp only; omega⟩
    refine (gives_yields hfree h hp hok hne (hD _ mem_below_self) (hH.mem h)).mono ?_
    intro _ p' hp'
    refine hp'.mono (Set.insert_subset (Or.inr mem_below_self) Set.subset_union_left) ?_
    rintro ⟨q', l'⟩ (hκ | ⟨rfl, hpre⟩) hok' _
    · exact Or.inr hκ
    · -- the key cannot be longer
      have hlen' : l'.length ≤ indexDepth q'.2 := hok'.2
      exact Or.inl (by rw [hpre.eq_of_length_le (by dsimp only at hlen ⊢; omega)])
  | succ depth ih =>
    intro l D H p hlen hne hp hD hH
    have hok : Key.Ok {ip} (q, l) := ⟨by simp [hq], by dsimp only; omega⟩
    have hokj : ∀ j, Key.Ok {ip} (q, l ++ [j]) := fun j =>
      ⟨by simp [hq], by simp only [List.length_append, List.length_singleton]; omega⟩
    rw [freeTree]
    obtain ⟨G, u, rfl, hc, hR, rfl, rfl⟩ := hp
    refine Yields.of_eq (bind_of_ok (bread_track (hH.not_mem h hok))) ?_
    refine Yields.bind (Q := fun _ p' => Cutting ip A R t
      (D ∪ belowSlots q l (List.range NINDIRECT)) (t.node (q, l) :: u.blk.held) u.itable p')
      (Yields.forM (I := fun pre p' => Cutting ip A R t (D ∪ belowSlots q l pre)
        (t.node (q, l) :: u.blk.held) u.itable p') ?_ ?_) fun _ p' hp' => ?_
    · refine ⟨G, u.hold (t.node (q, l)), rfl, ?_, hfree.frame G u _ (fun _ _ => rfl) hR, rfl, rfl⟩
      have hc' : Cut ip t D G (u.hold (t.node (q, l))) := ⟨hc.nodup, hc.mem, hc.word, hc.addr⟩
      refine hc'.mono Set.subset_union_left ?_
      rintro κ (hκ | ⟨j, hj, -⟩) _ _
      · exact hκ
      · exact absurd hj List.not_mem_nil
    · -- one slot, which has not been passed
      intro pre i suf p' hrange hp'
      have hi : i < NINDIRECT := List.mem_range.mp (by rw [hrange]; simp)
      have hipre : i ∉ pre := by
        have hnodup := List.nodup_range (n := NINDIRECT)
        rw [hrange, List.nodup_append] at hnodup
        exact fun hmem => hnodup.2.2 i hmem i List.mem_cons_self rfl
      obtain ⟨j, rfl⟩ : ∃ j : Fin NINDIRECT, j.val = i := ⟨⟨i, hi⟩, rfl⟩
      have hout : ∀ κ ∈ below q (l ++ [j]), κ ∉ D ∪ belowSlots q l pre := by
        rintro κ hκ (hκD | hκS)
        · exact hD κ (below_snoc_subset hκ) hκD
        · exact not_mem_belowSlots hκ hipre hκS
      rw [belowSlots_snoc, ← Set.union_assoc]
      refine freeSlot_yields hfree h (hokj j) hne (hout _ mem_below_self) (fun h0 => ?_) hp'
      refine ih (l ++ [j]) _ _ p' ?_ h0 hp' hout (hH.snoc hok hne j)
      simp only [List.length_append, List.length_singleton]
      omega
    · obtain ⟨G', v, rfl, hcv, hRv, hheld, hit⟩ := hp'
      have hbv : t.node (q, l) ∈ v.blk.held := by rw [hheld]; exact List.mem_cons_self
      refine Yields.of_eq (bind_of_ok (logged_brelse v A G' () _ (brelse_ok hbv))) ?_
      have hself : (q, l) ∉ D ∪ belowSlots q l (List.range NINDIRECT) := by
        rintro (hκ | hκ)
        · exact hD _ mem_below_self hκ
        · exact self_not_mem_belowSlots hκ
      have hcut : Cutting ip A R t (D ∪ belowSlots q l (List.range NINDIRECT)) u.blk.held u.itable
          ((v.release (t.node (q, l))).track A G') := by
        refine ⟨G', _, rfl, ⟨hcv.nodup, hcv.mem, hcv.word, hcv.addr⟩,
          hfree.frame G' v _ (fun _ _ => rfl) hRv, ?_, hit⟩
        rw [Fs.held_release, hheld, List.erase_cons_head]
      refine (gives_yields hfree h hcut hok hne hself (hH.mem h)).mono fun _ p' hp' => ?_
      refine hp'.mono ?_ ?_
      · rintro κ (rfl | hκ | hκ)
        · exact Or.inr mem_below_self
        · exact Or.inl hκ
        · exact Or.inr (belowSlots_subset hκ)
      · rintro κ (hκ | hκ) _ _
        · exact Or.inr (Or.inl hκ)
        · rcases eq_or_mem_belowSlots hκ with rfl | hκ
          · exact Or.inl rfl
          · exact Or.inr (Or.inr hκ)

/-- The places below the entries `ks` of `addrs`. -/
def belowAddrs (ip : Fin NINODE) (ks : List (Fin 15)) : Set Key := {κ | κ.1.1 = ip ∧ κ.1.2 ∈ ks}

/-- A state of truncation that has dealt with the entries `ks` of `addrs`. -/
def Truncating (ip : Fin NINODE) (A : List UInt32) (R : List UInt32 → Fs Store → Prop)
    (t : Fs Store) (ks : List (Fin 15)) (p : Fs Tracked) : Prop :=
  ∃ T, Cutting ip A R t (belowAddrs ip ks) [] T p ∧ ∀ k ∈ ks, (T ip).addrs k = 0

/-- What hangs at one entry of `addrs` is freed. -/
theorem truncAddr_yields (hfree : Frees A R E free) (h : Mapped ip A t) {ks : List (Fin 15)}
    {k : Fin 15} (hk : k ∉ ks) (hp : Truncating ip A R t ks p) :
    Yields E (truncAddr (gives free) ip k) p fun _ p' =>
      Truncating ip A R t (ks ++ [k]) p' := by
  obtain ⟨T, hcut, hzero⟩ := hp
  have hout : ∀ κ ∈ below (ip, k) [], κ ∉ belowAddrs ip ks := by
    rintro ⟨q, l⟩ ⟨rfl, -⟩ ⟨-, hmem⟩
    exact hk hmem
  have hsub : belowAddrs ip ks ∪ below (ip, k) [] ⊆ belowAddrs ip (ks ++ [k]) := by
    rintro ⟨q, l⟩ (⟨hip, hmem⟩ | ⟨rfl, -⟩)
    · exact ⟨hip, List.mem_append_left _ hmem⟩
    · exact ⟨rfl, by simp⟩
  have hsup : belowAddrs ip (ks ++ [k]) ⊆ belowAddrs ip ks ∪ below (ip, k) [] := by
    rintro ⟨⟨ip', k'⟩, l⟩ ⟨hip, hmem⟩
    rcases List.mem_append.mp hmem with hmem | hmem
    · exact Or.inl ⟨hip, hmem⟩
    · exact Or.inr ⟨Prod.ext hip (List.mem_singleton.mp hmem), List.nil_prefix⟩
  have haddr : (p.itable ip).addrs k = t.node ((ip, k), []) := by
    obtain ⟨G, u, rfl, hc, -⟩ := hcut
    exact hc.addr k (hout _ mem_below_self)
  have hT : p.itable = T := by
    obtain ⟨G, u, rfl, -, -, -, hT⟩ := hcut
    exact hT
  unfold truncAddr
  refine Yields.of_eq (bind_of_ok (getInode_apply p ip)) ?_
  rw [haddr]
  by_cases h0 : t.node ((ip, k), []) = 0
  · rw [if_pos h0]
    refine Yields.of_ok rfl ⟨T, hcut.mono (Set.subset_union_left.trans hsub) ?_, ?_⟩
    · intro κ hκ _ hne
      rcases hsup hκ with hκ | hκ
      · exact hκ
      · exact absurd (node_below h0 hκ) hne
    · intro k' hk'
      rcases List.mem_append.mp hk' with hk' | hk'
      · exact hzero k' hk'
      · rw [List.mem_singleton.mp hk', ← hT, haddr, h0]
  · rw [if_neg h0]
    refine (freeTree_yields hfree h (q := (ip, k)) rfl (indexDepth k) [] _ [] p (by simp) h0
      hcut hout fun b hb => absurd hb List.not_mem_nil).bind ?_
    rintro - p' ⟨G, u, rfl, hc, hR, hheld, rfl⟩
    have hc' := hc.mono hsub fun κ hκ _ _ => hsup hκ
    refine Yields.of_ok rfl ⟨_, ⟨G, _, rfl, hc'.clearAddr ⟨rfl, by simp⟩ rfl,
      hfree.frame G u _ (fun _ _ => rfl) hR, hheld, rfl⟩, ?_⟩
    intro k' hk'
    rw [Fs.itable_setItable, update_self]
    show update (u.itable ip).addrs k 0 k' = 0
    by_cases hkk : k' = k
    · rw [hkk, update_self]
    · rw [update_of_ne hkk]
      rcases List.mem_append.mp hk' with hk' | hk'
      · exact hzero k' hk'
      · exact absurd (List.mem_singleton.mp hk') hkk

/-- **Truncation frees the blocks of the file**, whatever frees them: each block once, and
no other. -/
theorem itruncWith_yields (hfree : Frees A R E free) (h : Mapped ip A t)
    (hheld : t.blk.held = []) (hR : R [] t) :
    Yields E (itruncWith (gives free) ip) (t.track A []) fun _ p =>
      ∃ G u v, p = Fs.track u A G ∧ G.Perm A ∧ R G v ∧ (∀ k, (u.itable ip).addrs k = 0) ∧
        (u.itable ip).size = 0 := by
  unfold itruncWith
  refine Yields.bind (Q := fun _ p => Truncating ip A R t (List.finRange 15) p)
    (Yields.forM ?_ ?_) ?_
  · refine ⟨t.itable, ⟨[], t, rfl, Cut.refl.mono (Set.empty_subset _) ?_, hR, hheld, rfl⟩, ?_⟩
    · rintro κ ⟨-, hκ⟩
      exact absurd hκ List.not_mem_nil
    · exact fun k hk => absurd hk List.not_mem_nil
  · intro pre k suf p hl hp
    refine truncAddr_yields hfree h ?_ hp
    have hnodup := List.nodup_finRange 15
    rw [hl, List.nodup_append] at hnodup
    exact fun hmem => hnodup.2.2 k hmem k List.mem_cons_self rfl
  · rintro - p ⟨T, ⟨G, u, rfl, hc, hRu, hheldu, rfl⟩, hzero⟩
    refine Yields.of_eq (bind_of_ok (setInode_apply _ ip _)) ?_
    have hrun := logged_iupdate ip (u.setItable ip { u.itable ip with size := 0 }) A G () _
      (iupdate_ok hheldu)
    refine Yields.of_ok hrun ⟨G, _, u, rfl, ?_, hRu, fun k => ?_, ?_⟩
    · refine (List.perm_ext_iff_of_nodup hc.nodup h.nodup).mpr fun b => ?_
      rw [hc.mem, h.mem]
      constructor
      · rintro ⟨κ, -, hrest⟩
        exact ⟨κ, hrest⟩
      · rintro ⟨κ, hok, hrest⟩
        exact ⟨κ, ⟨Finset.mem_singleton.mp hok.1, List.mem_finRange _⟩, hok, hrest⟩
    · rw [Fs.itable_write, Fs.itable_setItable, update_self]
      exact hzero k (List.mem_finRange k)
    · rw [Fs.itable_write, Fs.itable_setItable, update_self]

end Walk

/-! ### Freeing with `bfree` -/

/-- The block `b` is one that `bfree` gives back: it has a bit in the bitmap, and the
mirrored bit, which `bfree` tests, is set. -/
def Fs.Freeable (s : Fs Store) (b : UInt32) : Prop :=
  s.gdesc.blockBitmap ≠ 2 ∧ s.bitIndex b < 8 * BSIZE ∧ s.MirrorUsed b

instance (s : Fs Store) (b : UInt32) : Decidable (s.Freeable b) :=
  inferInstanceAs (Decidable (_ ∧ _ ∧ usedBit s.blockBitmap (mirror (s.bitIndex b)) = true))

/-- The bitmap of `s` is that of `t` without the mirrored bits of the blocks `G`. -/
structure FreedBits (t : Fs Store) (G : List UInt32) (s : Fs Store) : Prop where
  gdesc : s.gdesc = t.gdesc
  bits : ∀ k, usedBit s.blockBitmap k = true ↔
    usedBit t.blockBitmap k = true ∧ ∀ b ∈ G, k ≠ mirror (t.bitIndex b)
  freeable : ∀ b ∈ G, t.Freeable b

theorem mirror_inj {j k : ℕ} (h : mirror j = mirror k) : j = k := by
  unfold mirror at h
  omega

/-- Different blocks have different mirrored bits. -/
theorem mirror_bitIndex_ne {c : UInt32} (h : b ≠ c) :
    mirror (s.bitIndex b) ≠ mirror (s.bitIndex c) := by
  intro heq
  rw [← add_bitIndex (s := s) b, ← add_bitIndex (s := s) c, mirror_inj heq] at h
  exact h rfl

section Bfree

variable {t : Fs Store}

theorem FreedBits.refl : FreedBits t [] t := by
  refine ⟨rfl, fun k => ?_, fun b hb => absurd hb List.not_mem_nil⟩
  simp

/-- `bfree` of a block that it gives back. -/
theorem FreedBits.bfree (h : FreedBits t G s) (hb : t.Freeable b) :
    FreedBits t (b :: G) (s.write s.gdesc.blockBitmap (clearBit s.blockBitmap (s.bitIndex b))) := by
  have hne : s.gdesc.blockBitmap ≠ 2 := by rw [h.gdesc]; exact hb.1
  have hg := gdesc_write (s := s) hne (clearBit s.blockBitmap (s.bitIndex b))
  refine ⟨hg.trans h.gdesc, fun k => ?_, fun c hc => ?_⟩
  · have hidx := bitIndex_of_gdesc h.gdesc b
    rw [blockBitmap_of_gdesc hg, Fs.content_write, update_self, hidx,
      usedBit_clearBit _ hb.2.1, Bool.and_eq_true, h.bits]
    simp only [Bool.not_eq_true', decide_eq_false_iff_not, List.forall_mem_cons]
    tauto
  · rcases List.mem_cons.mp hc with rfl | hc
    · exact hb
    · exact h.freeable c hc

/-- **`bfree` frees the blocks of a file** that it gives back, and fails on others. -/
theorem frees_bfree (hA : ∀ b ∈ A, ¬t.IsMeta ∅ b) :
    Frees A (FreedBits t) (fun _ => ∃ b ∈ A, ¬t.Freeable b) bfree where
  call dev b G s hbA hbG hR hheld := by
    have hidx := bitIndex_of_gdesc hR.gdesc b
    have hmeta : ∀ c, t.IsMeta ∅ c → c ∉ s.blk.held := fun c hc hmem => hA c (hheld c hmem) hc
    have h2 : 2 ∉ s.blk.held := hmeta 2 (Or.inr (Or.inl rfl))
    by_cases hdesc : t.gdesc.blockBitmap = 2
    · refine Or.inr ⟨.deadlock, ?_, b, hbA, fun hf => hf.1 hdesc⟩
      unfold bfree
      rw [bind_of_ok (bread_ok h2), bind_of_ok bdata_apply]
      refine bind_of_error (bread_deadlock ?_)
      rw [show GroupDesc.decode ((s.hold 2).blk.content 2) = s.gdesc from rfl, hR.gdesc, hdesc]
      exact List.mem_cons_self
    have hbb : s.gdesc.blockBitmap ∉ 2 :: s.blk.held := by
      rw [hR.gdesc, List.mem_cons, not_or]
      exact ⟨hdesc, hmeta _ (Or.inr (Or.inr (Or.inl rfl)))⟩
    by_cases hlt : t.bitIndex b < 8 * BSIZE
    · by_cases hused : t.MirrorUsed b
      · have hf : t.Freeable b := ⟨hdesc, hlt, hused⟩
        have hbit : usedBit s.blockBitmap (mirror (s.bitIndex b)) = true := by
          rw [hidx]
          refine (hR.bits _).mpr ⟨hused, fun c hc => mirror_bitIndex_ne ?_⟩
          rintro rfl
          exact hbG hc
        refine Yields.of_ok (bfree_ok h2 hbb (by rw [hidx]; exact hlt) hbit)
          ⟨hR.bfree hf, fun c hc => ?_, rfl, rfl⟩
        refine update_of_ne ?_ _ _
        rintro rfl
        exact hA _ hc (Or.inr (Or.inr (Or.inl (by rw [hR.gdesc]))))
      · have hbit : usedBit s.blockBitmap (mirror (s.bitIndex b)) = false := by
          rw [hidx, ← Bool.not_eq_true, hR.bits]
          exact fun hb => hused hb.1
        exact Or.inr ⟨_, bfree_panic h2 hbb (by rw [hidx]; exact hlt) hbit, b, hbA,
          fun hf => hused hf.2.2⟩
    · refine Or.inr ⟨.fault, ?_, b, hbA, fun hf => hlt hf.2.1⟩
      rw [bfree_test h2 hbb, if_pos (by rw [hidx]; omega)]
      rfl
  frame G s s' hcont hR := by
    have h2 : s'.gdesc = s.gdesc := by
      unfold Fs.gdesc
      rw [hcont 2 fun hmem => hA 2 hmem (Or.inr (Or.inl rfl))]
    have hbb : s'.blockBitmap = s.blockBitmap := by
      rw [blockBitmap_of_gdesc h2, hcont _ fun hmem => hA _ hmem ?_]
      · rfl
      · exact Or.inr (Or.inr (Or.inl (by rw [hR.gdesc])))
    exact ⟨h2.trans hR.gdesc, fun k => by rw [hbb]; exact hR.bits k, hR.freeable⟩

/-- **`itrunc` gives back what was taken**: it calls `bfree` once on each of the blocks
and on no other, and leaves all addresses and the size zero. -/
def GivesBack (ip : Fin NINODE) (p : Fs Tracked) : Prop :=
  ∃ u, itruncWith (gives bfree) ip p = .ok ((), u) ∧ u.blk.given.Perm p.blk.taken ∧
    u.blk.given.Nodup ∧ (∀ k, (u.itable ip).addrs k = 0) ∧ (u.itable ip).size = 0

theorem givesBack_of_mapped (h : Mapped ip A t) (hheld : t.blk.held = []) :
    GivesBack ip (t.track A []) ↔ ∀ b ∈ A, t.Freeable b := by
  have hyields := itruncWith_yields (frees_bfree h.apart) h hheld FreedBits.refl
  constructor
  · rintro ⟨u, hrun, -⟩ b hb
    rcases hyields with ⟨-, p, hrun', G, u', v, rfl, hperm, hR, -⟩ | ⟨e, hrun', -⟩
    · exact hR.freeable b (hperm.mem_iff.mpr hb)
    · rw [hrun] at hrun'
      cases hrun'
  · intro hall
    rcases hyields with ⟨⟨⟩, p, hrun, G, u, v, rfl, hperm, -, haddrs, hsize⟩ | ⟨e, -, b, hb, hnot⟩
    · exact ⟨_, hrun, hperm, hperm.nodup_iff.mpr h.nodup, haddrs, hsize⟩
    · exact absurd (hall b hb) hnot

end Bfree

/-! ### Mapping and truncating -/

/-- **After any sequence of calls of `bmap`** on an inode without blocks, `itrunc` gives
back what was taken exactly when the blocks are those that `bfree` gives back.  The
sequence itself stops only where the allocator does. -/
theorem givesBack_iff (halloc : Allocates alloc) (haddrs : ∀ k, (s.itable ip).addrs k = 0)
    (hheld : s.blk.held = []) {bns : List ℕ} (hbns : ∀ bn ∈ bns, bn < maxBlocks) :
    Yields (AllocFails alloc) (bmaps (takes alloc) ip bns) (s.track [] []) fun _ p =>
      (GivesBack ip p ↔ ∀ b ∈ p.blk.taken, p.untrack.Freeable b) := by
  refine (bmaps_yields halloc haddrs hheld hbns).mono ?_
  rintro - p ⟨A, t, rfl, ht, hheld⟩
  exact givesBack_of_mapped ht hheld

end Track

/-- The image whose block bitmap has its own bit set and those of blocks 8 and 9, which are
the mirrored blocks of blocks 5 and 4. -/
def mirrorsImage : Fs Store := imageOf [(3, setUsed (setUsed (setUsed Block.zero 0) 5) 6)]

/-- From `mirrorsImage`, the index block 4 and the data block 5 are given back. -/
theorem givesBack_mirrorsImage : ∃ p,
    bmaps (takes checkedBalloc) 0 [12, 12] (mirrorsImage.track [] []) = .ok (⟨⟩, p) ∧
      p.blk.taken = [5, 4] ∧ GivesBack 0 p := by
  have hyields : Yields (AllocFails checkedBalloc) (bmaps (takes checkedBalloc) 0 [12, 12])
      (mirrorsImage.track [] []) fun _ p =>
        (GivesBack 0 p ↔ ∀ b ∈ p.blk.taken, p.untrack.Freeable b) :=
    givesBack_iff allocates_checkedBalloc (fun _ => rfl) rfl fun bn hbn => by
      obtain rfl : bn = 12 := by simpa using hbn
      decide
  have hrun : (bmaps (takes checkedBalloc) 0 [12, 12] (mirrorsImage.track [] [])).map
      (fun r => (r.2.blk.taken, r.2.blk.taken.all fun b => decide (r.2.untrack.Freeable b))) =
      .ok ([5, 4], true) := by decide +kernel
  rcases hyields with ⟨⟨⟩, p, hp, hiff⟩ | ⟨e, he, -⟩
  · rw [hp] at hrun
    obtain ⟨htaken, hall⟩ := Prod.mk.inj (Except.ok.inj hrun)
    exact ⟨p, hp, htaken, hiff.mpr fun b hb => of_decide_eq_true (List.all_eq_true.mp hall b hb)⟩
  · rw [he] at hrun
    cases hrun

def takesBlock : Evaluated (
    (bmaps (takes fun dev _ => balloc dev) 0 [0] (bitmapOnlyImage.track [] [])).map
      (fun r => (r.2.blk.taken,
        (List.range BSIZE).all fun i => (r.2.untrack.blk.content 4).byte i = 0)) =
      .ok ([4], true)) :=
  ⟨by decide +kernel⟩

def bfreeStops : Evaluated (((bmaps (takes fun dev _ => balloc dev) 0 [0] >>= fun _ =>
    itruncWith (gives bfree) 0) (bitmapOnlyImage.track [] [])).map Prod.fst =
      .error (.panic "ext2fs_bfree: block already free\n")) :=
  ⟨by decide +kernel⟩

/-- **`itrunc` stops in `bfree`.**  From `bitmapOnlyImage`, `bmap` takes block 4, which is
zeroed and no metadata, and `bfree` does not find it in use. -/
theorem itrunc_stops_at_bfree : ∃ p,
    bmaps (takes fun dev _ => balloc dev) 0 [0] (bitmapOnlyImage.track [] []) = .ok (⟨⟩, p) ∧
      p.blk.taken = [4] ∧ (∀ i < BSIZE, (p.untrack.blk.content 4).byte i = 0) ∧
      ¬bitmapOnlyImage.IsMeta ∅ 4 ∧ ¬GivesBack 0 p := by
  have hrun := takesBlock.holds
  have hstop := bfreeStops.holds
  rcases hp : bmaps (takes fun dev _ => balloc dev) 0 [0] (bitmapOnlyImage.track [] []) with
    e | ⟨⟨⟩, p⟩
  · rw [hp] at hrun
    cases hrun
  rw [hp] at hrun
  rw [bind_of_ok hp] at hstop
  obtain ⟨htaken, hzero⟩ := Prod.mk.inj (Except.ok.inj hrun)
  refine ⟨p, rfl, htaken, fun i hi => ?_, ?_, ?_⟩
  · exact of_decide_eq_true (List.all_eq_true.mp hzero i (List.mem_range.mpr hi))
  · rintro (h | h | h | ⟨ip, hip, -⟩)
    · revert h; decide
    · revert h; decide
    · revert h; decide +kernel
    · exact absurd hip (Finset.notMem_empty ip)
  · rintro ⟨u, hu, -⟩
    rw [hu] at hstop
    cases hstop

end Xv6Ext2
