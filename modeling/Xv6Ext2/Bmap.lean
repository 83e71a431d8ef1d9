import Xv6Ext2.Ialloc
import Xv6Ext2.Lib.Demand
import Xv6Ext2.Lib.Forest

/-!
# The blocks of a file

`bmap` of `kernel/fs.c` finds the disk block of the `bn`-th block of a file,
through up to three levels of index blocks, and allocates what is missing on the
way.

The address array of an inode and the index blocks below it form a pointer forest:
a *key* names a place in it by the inode, the entry of `addrs` and the slots of
the index blocks, and `Fs.node` is the block number found there, 0 for none.  The
keys of maximal length are those of data blocks.  `bmap` walks down one path of
keys and hangs a zeroed block into each empty place, so the files keep the bytes
they had: a missing block reads as zeros, and so does a fresh one.

## Main definitions

* `addrSlot`, `indexSlot`, `indexWalk`, `bmapWith` — the source function with any allocator,
  its four branches written over one walk; `bmap` is the one with `balloc`.
* `Key`, `Fs.node`, `Fs.leafBlock` — places, and the bytes of a data block.
* `Files P s` — **the invariant**: the blocks of the inodes in `P` are pairwise
  distinct, apart from the metadata and marked in the bitmap.
* `Grows P s s'` — blocks have been added to the files, and their bytes are as
  they were.

## Main results

* `Files.fresh`, `Grows.fresh` — hanging a fresh block into an empty place.
* `bmap_fills` — **`bmap` creates what is missing on the path** of its block and
  returns the block at the end of it.
-/

namespace Xv6Ext2

open Function Prog

variable {σ β : Type} [BlockLayer σ β]

/-! ### The source function -/

/-- `if ((addr = ad[k]) == 0) ad[k] = addr = balloc(ip->dev);` -/
def addrSlot (alloc : UInt32 → FsM σ UInt32) (ip : Fin NINODE) (k : Fin 15) : FsM σ UInt32 := do
  let i ← getInode ip
  if i.addrs k = 0 then do
    let addr ← alloc i.dev
    setInode ip fun i => { i with addrs := update i.addrs k addr }
    return addr
  else return i.addrs k

/-- `a = (uint *)bp->data; if ((addr = a[j]) == 0) a[j] = addr = balloc(ip->dev);` -/
def indexSlot (alloc : UInt32 → FsM σ UInt32) (dev : UInt32) (bp : β) (j : ℕ) :
    FsM σ UInt32 := do
  let a ← bdata bp
  if a.word j = 0 then do
    let addr ← alloc dev
    let a ← bdata bp
    bstore bp (a.setWord j addr)
    return addr
  else return a.word j

/-- Read the index block `addr`, go through its slot, and so on for the slots that
are left; the buffers are released at the end, the outermost first. -/
def indexWalk (alloc : UInt32 → FsM σ UInt32) (dev : UInt32) :
    List β → UInt32 → List ℕ → FsM σ UInt32
  | bps, addr, [] => do
    forM bps brelse
    return addr
  | bps, addr, j :: js => do
    let bp ← bread dev addr
    let next ← indexSlot alloc dev bp j
    indexWalk alloc dev (bps ++ [bp]) next js

/-- `bmap` with an allocator in place of `balloc`: the walk does not depend on how blocks are
allocated. -/
def bmapWith (alloc : UInt32 → FsM σ UInt32) (ip : Fin NINODE) (bn : ℕ) : FsM σ UInt32 := do
  let i ← getInode ip
  if bn < NDIRECT then addrSlot alloc ip (Fin.ofNat 15 bn)
  else if bn - NDIRECT < NINDIRECT then do
    let addr ← addrSlot alloc ip 12
    indexWalk alloc i.dev [] addr [bn - NDIRECT]
  else if bn - NDIRECT - NINDIRECT < NDINDIRECT then do
    let bn := bn - NDIRECT - NINDIRECT
    let addr ← addrSlot alloc ip 13
    indexWalk alloc i.dev [] addr [bn / NINDIRECT, bn % NINDIRECT]
  else if bn - NDIRECT - NINDIRECT - NDINDIRECT < NTINDIRECT then do
    let bn := bn - NDIRECT - NINDIRECT - NDINDIRECT
    let addr ← addrSlot alloc ip 14
    indexWalk alloc i.dev [] addr
      [bn / NDINDIRECT, bn % NDINDIRECT / NINDIRECT, bn % NDINDIRECT % NINDIRECT]
  else panic "ext2_bmap: block number out of range\n"

/-- Return the disk block of the `bn`-th block of an inode.  If there is no such
block, `bmap` allocates one. -/
def bmap (ip : Fin NINODE) (bn : ℕ) : FsM σ UInt32 := bmapWith balloc ip bn

/-! ### Places of the forest -/

/-- A place: an inode, an entry of its `addrs`, and slots of index blocks. -/
abbrev Key := (Fin NINODE × Fin 15) × List (Fin NINDIRECT)

/-- The levels of index blocks below an entry of `addrs`. -/
def indexDepth (r : Fin 15) : ℕ := r.val - 11

/-- The places that belong to the inodes `P`. -/
def Key.Ok (P : Finset (Fin NINODE)) (κ : Key) : Prop :=
  κ.1.1 ∈ P ∧ κ.2.length ≤ indexDepth κ.1.2

instance (P : Finset (Fin NINODE)) (κ : Key) : Decidable (κ.Ok P) :=
  inferInstanceAs (Decidable (_ ∧ _))

/-- The places of data blocks. -/
def Key.IsLeaf (κ : Key) : Prop := κ.2.length = indexDepth κ.1.2

/-- The entry of `addrs` and the slots that lead to the `bn`-th block. -/
def blockPath (bn : ℕ) : Fin 15 × List (Fin NINDIRECT) :=
  if bn < NDIRECT then (Fin.ofNat 15 bn, [])
  else if bn - NDIRECT < NINDIRECT then (12, [Fin.ofNat _ (bn - NDIRECT)])
  else if bn - NDIRECT - NINDIRECT < NDINDIRECT then
    let bn := bn - NDIRECT - NINDIRECT
    (13, [Fin.ofNat _ (bn / NINDIRECT), Fin.ofNat _ (bn % NINDIRECT)])
  else
    let bn := bn - NDIRECT - NINDIRECT - NDINDIRECT
    (14, [Fin.ofNat _ (bn / NDINDIRECT), Fin.ofNat _ (bn % NDINDIRECT / NINDIRECT),
      Fin.ofNat _ (bn % NDINDIRECT % NINDIRECT)])

/-- The place of the `bn`-th block of a file. -/
def dataKey (ip : Fin NINODE) (bn : ℕ) : Key := ((ip, (blockPath bn).1), (blockPath bn).2)

/-- The number of blocks that `bmap` can address. -/
def maxBlocks : ℕ := NDIRECT + NINDIRECT + NDINDIRECT + NTINDIRECT

theorem isLeaf_dataKey (ip : Fin NINODE) {bn : ℕ} : (dataKey ip bn).IsLeaf := by
  unfold Key.IsLeaf dataKey blockPath indexDepth
  split
  · next h =>
    have : (Fin.ofNat 15 bn).val = bn := Nat.mod_eq_of_lt (by simp only [NDIRECT] at h; omega)
    simp only [List.length_nil, this]
    simp only [NDIRECT] at h
    omega
  · split
    · rfl
    · split <;> rfl

theorem ok_dataKey {P : Finset (Fin NINODE)} {ip : Fin NINODE} (hip : ip ∈ P) (bn : ℕ) :
    (dataKey ip bn).Ok P :=
  ⟨hip, le_of_eq (isLeaf_dataKey ip)⟩

/-- The block that a path leads to. -/
def blockNo : Fin 15 × List (Fin NINDIRECT) → ℕ
  | (r, []) => r
  | (_, [j]) => NDIRECT + j
  | (_, [j, k]) => NDIRECT + NINDIRECT + (NINDIRECT * j + k)
  | (_, j :: k :: l :: _) =>
    NDIRECT + NINDIRECT + NDINDIRECT + (NDINDIRECT * j + (NINDIRECT * k + l))

theorem blockNo_blockPath {bn : ℕ} (h : bn < maxBlocks) : blockNo (blockPath bn) = bn := by
  have hval : ∀ x, x < NINDIRECT → (Fin.ofNat NINDIRECT x).val = x := fun x hx =>
    Nat.mod_eq_of_lt hx
  unfold maxBlocks at h
  unfold blockPath
  simp only [NDIRECT, NINDIRECT, NDINDIRECT, NTINDIRECT] at *
  split
  · next hbn => exact Nat.mod_eq_of_lt (by omega)
  · split
    · next hbn =>
      simp only [blockNo, NDIRECT]
      rw [hval _ hbn]
      omega
    · split
      · next hbn =>
        simp only [blockNo, NDIRECT, NINDIRECT]
        rw [hval _ (by omega), hval _ (by omega)]
        omega
      · next hbn =>
        simp only [blockNo, NDIRECT, NINDIRECT, NDINDIRECT]
        rw [hval _ (by omega), hval _ (by omega), hval _ (by omega)]
        omega

/-- Different blocks of a file have different places. -/
theorem dataKey_inj {ip : Fin NINODE} {bn bn' : ℕ} (h : bn < maxBlocks) (h' : bn' < maxBlocks)
    (heq : dataKey ip bn = dataKey ip bn') : bn = bn' := by
  have hpath : blockPath bn = blockPath bn' := by
    unfold dataKey at heq
    simp only [Prod.mk.injEq] at heq
    exact Prod.ext heq.1.2 heq.2
  rw [← blockNo_blockPath h, ← blockNo_blockPath h', hpath]

theorem Key.snoc_inj {q q' : Fin NINODE × Fin 15} {l l' : List (Fin NINDIRECT)}
    {j j' : Fin NINDIRECT} (h : ((q, l ++ [j]) : Key) = (q', l' ++ [j'])) :
    q = q' ∧ l = l' ∧ j = j' := by
  obtain ⟨hq, hl⟩ := Prod.mk.inj h
  obtain ⟨hl, hj⟩ := List.append_inj' hl rfl
  exact ⟨hq, hl, List.head_eq_of_cons_eq hj⟩

theorem prefixClosed_ok (P : Finset (Fin NINODE)) : Forest.PrefixClosed (Key.Ok P) := by
  rintro q l j ⟨hP, hlen⟩
  rw [List.length_append] at hlen
  exact ⟨hP, Nat.le_trans (Nat.le_add_right _ _) hlen⟩

/-! ### The invariant -/

/-- The walk of `bmap` goes down the path of its block. -/
theorem bmapWith_eq (alloc : UInt32 → FsM σ UInt32) {s : Fs σ} {ip : Fin NINODE} {bn : ℕ}
    (hbn : bn < maxBlocks) :
    bmapWith alloc ip bn s = (addrSlot alloc ip (blockPath bn).1 >>= fun addr =>
      indexWalk alloc (s.itable ip).dev [] addr ((blockPath bn).2.map Fin.val)) s := by
  have hval : ∀ x, x < NINDIRECT → (Fin.ofNat NINDIRECT x).val = x := fun x hx =>
    Nat.mod_eq_of_lt hx
  unfold maxBlocks at hbn
  unfold bmapWith blockPath
  rw [bind_of_ok (getInode_apply s ip)]
  split
  · show addrSlot alloc ip _ s = (addrSlot alloc ip _ >>= pure) s
    rw [bind_pure]
  · split
    · next h => simp only [List.map_cons, List.map_nil, hval _ h]
    · split
      · next h =>
        have h₁ : (bn - NDIRECT - NINDIRECT) / NINDIRECT < NINDIRECT := by
          simp only [NDIRECT, NINDIRECT, NDINDIRECT] at *
          omega
        have h₂ : (bn - NDIRECT - NINDIRECT) % NINDIRECT < NINDIRECT :=
          Nat.mod_lt _ (by decide)
        simp only [List.map_cons, List.map_nil, hval _ h₁, hval _ h₂]
      · next h =>
        rw [if_pos (by omega)]
        generalize hx : bn - NDIRECT - NINDIRECT - NDINDIRECT = x
        have hxlt : x < NTINDIRECT := by omega
        have h₁ : x / NDINDIRECT < NINDIRECT := by
          simp only [NINDIRECT, NDINDIRECT, NTINDIRECT] at *
          omega
        have h₂ : x % NDINDIRECT / NINDIRECT < NINDIRECT := by
          simp only [NINDIRECT, NDINDIRECT]
          omega
        have h₃ : x % NDINDIRECT % NINDIRECT < NINDIRECT := Nat.mod_lt _ (by decide)
        simp only [List.map_cons, List.map_nil, hval _ h₁, hval _ h₂, hval _ h₃]

theorem bmap_eq {s : Fs σ} {ip : Fin NINODE} {bn : ℕ} (hbn : bn < maxBlocks) :
    bmap ip bn s = (addrSlot balloc ip (blockPath bn).1 >>= fun addr =>
      indexWalk balloc (s.itable ip).dev [] addr ((blockPath bn).2.map Fin.val)) s :=
  bmapWith_eq balloc hbn

section Store

variable {s s' : Fs Store} {P : Finset (Fin NINODE)} {dev : UInt32}

/-- The block number in a slot of an index block. -/
def Fs.slot (s : Fs Store) (a : UInt32) (j : Fin NINDIRECT) : UInt32 :=
  (s.blk.content a).word j

/-- The block number at a place, 0 for none. -/
def Fs.node (s : Fs Store) : Key → UInt32 :=
  Forest.node 0 (fun q => (s.itable q.1).addrs q.2) s.slot

/-- The bytes of the data block at a place; a missing block reads as zeros. -/
def Fs.leafBlock (s : Fs Store) (κ : Key) : Block :=
  if s.node κ = 0 then Block.zero else s.blk.content (s.node κ)

theorem Fs.node_snoc (q : Fin NINODE × Fin 15) (l : List (Fin NINDIRECT)) (j : Fin NINDIRECT) :
    s.node (q, l ++ [j]) =
      if s.node (q, l) = 0 then 0 else (s.blk.content (s.node (q, l))).word j :=
  Forest.node_snoc q l j

/-- The blocks that hold no file data: block 0, which the null pointer stands for,
the descriptor, the block bitmap, and the blocks of the inodes' records. -/
def Fs.IsMeta (s : Fs Store) (P : Finset (Fin NINODE)) (b : UInt32) : Prop :=
  b = 0 ∨ b = 2 ∨ b = s.gdesc.blockBitmap ∨ ∃ ip ∈ P, b = s.recBlock (s.itable ip).inum

/-- Block `b` has a bit in the bitmap, and it is set. -/
def Fs.InUse (s : Fs Store) (b : UInt32) : Prop :=
  s.bitIndex b < 8 * BSIZE ∧ usedBit s.blockBitmap (s.bitIndex b) = true

/-- **The invariant of the inodes `P`.**  The metadata blocks are where they should
be, and the blocks of the files are pairwise distinct, no metadata, and in use. -/
structure Files (P : Finset (Fin NINODE)) (s : Fs Store) : Prop where
  desc : s.gdesc.blockBitmap ≠ 2
  record : ∀ ip ∈ P, s.recBlock (s.itable ip).inum ≠ 2 ∧
    s.recBlock (s.itable ip).inum ≠ s.gdesc.blockBitmap
  metaInUse : ∀ b, s.IsMeta P b → s.bitIndex b < 8 * BSIZE → s.InUse b
  distinct : Forest.Distinct 0 (Key.Ok P) s.node
  apart : ∀ κ, κ.Ok P → s.node κ ≠ 0 → ¬s.IsMeta P (s.node κ)
  inUse : ∀ κ, κ.Ok P → s.node κ ≠ 0 → s.InUse (s.node κ)

/-- Blocks may have been added to the files `P`, whose bytes are as they were. -/
structure Grows (P : Finset (Fin NINODE)) (s s' : Fs Store) : Prop where
  sb : s'.sb = s.sb
  gdesc : s'.gdesc = s.gdesc
  inode : ∀ ip, s'.itable ip = { s.itable ip with addrs := (s'.itable ip).addrs }
  node : ∀ κ, κ.Ok P → s.node κ ≠ 0 → s'.node κ = s.node κ
  leafBlock : ∀ κ, κ.Ok P → κ.IsLeaf → s'.leafBlock κ = s.leafBlock κ

/-- The number of blocks that `balloc` can still return. -/
def Fs.spare (s : Fs Store) : ℕ := freeBits s.sb s.blockBitmap

/-- There is a block at the place `κ`. -/
def there (P : Finset (Fin NINODE)) (s : Fs Store) (κ : Key) : Bool :=
  decide (κ.Ok P) && decide (s.node κ ≠ 0)

/-- The buffers held are those of blocks of the files. -/
def HeldNodes (P : Finset (Fin NINODE)) (s : Fs Store) : Prop :=
  ∀ b ∈ s.blk.held, ∃ κ : Key, κ.Ok P ∧ s.node κ ≠ 0 ∧ s.node κ = b

theorem Grows.refl : Grows P s s where
  sb := rfl
  gdesc := rfl
  inode _ := rfl
  node _ _ _ := rfl
  leafBlock _ _ _ := rfl

theorem Grows.trans {s'' : Fs Store} (h : Grows P s s') (h' : Grows P s' s'') :
    Grows P s s'' where
  sb := h'.sb.trans h.sb
  gdesc := h'.gdesc.trans h.gdesc
  inode ip := by rw [h'.inode ip, h.inode ip]
  node κ hκ hne := by
    have h₁ := h.node κ hκ hne
    rw [h'.node κ hκ (by rw [h₁]; exact hne), h₁]
  leafBlock κ hκ hleaf := (h'.leafBlock κ hκ hleaf).trans (h.leafBlock κ hκ hleaf)

/-! ### Hanging a fresh block into an empty place -/

/-- `s'` is `s` with block `k` of the bitmap taken, zeroed and hung into the empty
place `κ₀`. -/
structure Fresh (P : Finset (Fin NINODE)) (s s' : Fs Store) (κ₀ : Key) (k : ℕ) : Prop where
  first : FirstFree s.sb s.blockBitmap k
  ok : κ₀.Ok P
  empty : s.node κ₀ = 0
  sb : s'.sb = s.sb
  gdesc : s'.gdesc = s.gdesc
  bitmap : s'.blockBitmap = setUsed s.blockBitmap k
  inode : ∀ ip, s'.itable ip = { s.itable ip with addrs := (s'.itable ip).addrs }
  node_self : s'.node κ₀ = s.gdesc.blockBitmap + UInt32.ofNat k
  node_of_ne : ∀ κ, κ.Ok P → κ ≠ κ₀ → s'.node κ = s.node κ
  zero : s'.blk.content (s.gdesc.blockBitmap + UInt32.ofNat k) = Block.zero
  content : ∀ κ, κ.Ok P → κ.IsLeaf → s.node κ ≠ 0 →
    s'.blk.content (s.node κ) = s.blk.content (s.node κ)

namespace Files

/-- A block that `balloc` can return is no metadata and belongs to no file. -/
theorem firstFree_ne (h : Files P s) {k : ℕ} (hk : FirstFree s.sb s.blockBitmap k) :
    ¬s.IsMeta P (s.gdesc.blockBitmap + UInt32.ofNat k) ∧
      ∀ κ, κ.Ok P → s.node κ ≠ 0 → s.node κ ≠ s.gdesc.blockBitmap + UInt32.ofNat k := by
  have hidx := bitIndex_add (s := s) hk.lt
  have hfree : ¬s.InUse (s.gdesc.blockBitmap + UInt32.ofNat k) := by
    rintro ⟨-, hused⟩
    rw [hidx, hk.2.1] at hused
    cases hused
  refine ⟨fun hm => hfree (h.metaInUse _ hm (by rw [hidx]; exact hk.lt)), fun κ hκ hne heq => ?_⟩
  have := h.inUse κ hκ hne
  rw [heq] at this
  exact hfree this

/-- **The invariant survives** hanging a fresh block into an empty place. -/
theorem fresh (h : Files P s) {κ₀ : Key} {k : ℕ} (hf : Fresh P s s' κ₀ k) : Files P s' := by
  obtain ⟨hmeta, hnode⟩ := h.firstFree_ne hf.first
  have hlt := hf.first.lt
  have hidx := bitIndex_of_gdesc hf.gdesc
  have hrec : ∀ ip, s'.recBlock (s'.itable ip).inum = s.recBlock (s.itable ip).inum := by
    intro ip
    rw [hf.inode ip, recBlock_of_gdesc hf.gdesc]
  have hisMeta : ∀ b, s'.IsMeta P b ↔ s.IsMeta P b := by
    intro b
    unfold Fs.IsMeta
    simp only [hf.gdesc, hrec]
  have hinUse : ∀ b, s.InUse b → s'.InUse b := by
    rintro b ⟨hb, hused⟩
    refine ⟨by rw [hidx]; exact hb, ?_⟩
    rw [hidx, hf.bitmap, usedBit_setUsed _ hlt, hused]
    rfl
  refine ⟨?_, ?_, ?_, ?_, ?_, ?_⟩
  · rw [hf.gdesc]
    exact h.desc
  · intro ip hip
    rw [hrec, hf.gdesc]
    exact h.record ip hip
  · intro b hb hblt
    rw [hidx] at hblt
    exact hinUse b (h.metaInUse b ((hisMeta b).mp hb) hblt)
  · refine h.distinct.hang κ₀ (fun κ hκ hne => ?_) hf.node_of_ne
    rw [hf.node_self]
    exact hnode κ hκ hne
  · intro κ hκ hne
    rw [hisMeta]
    by_cases hκ₀ : κ = κ₀
    · rw [hκ₀, hf.node_self]
      exact hmeta
    · rw [hf.node_of_ne κ hκ hκ₀] at hne ⊢
      exact h.apart κ hκ hne
  · intro κ hκ hne
    by_cases hκ₀ : κ = κ₀
    · rw [hκ₀, hf.node_self]
      refine ⟨?_, ?_⟩ <;> rw [hidx, bitIndex_add hlt]
      · exact hlt
      · rw [hf.bitmap, usedBit_setUsed _ hlt]
        simp
    · rw [hf.node_of_ne κ hκ hκ₀] at hne ⊢
      exact hinUse _ (h.inUse κ hκ hne)

end Files

namespace Fresh

variable {κ₀ : Key} {k : ℕ}

theorem node_ne_zero (h : Files P s) (hf : Fresh P s s' κ₀ k) : s'.node κ₀ ≠ 0 := by
  rw [hf.node_self]
  exact fun h0 => (h.firstFree_ne hf.first).1 (Or.inl h0)

/-- The files have the bytes they had: a missing block and a fresh one both read
as zeros. -/
theorem grows (h : Files P s) (hf : Fresh P s s' κ₀ k) : Grows P s s' where
  sb := hf.sb
  gdesc := hf.gdesc
  inode := hf.inode
  node κ hκ hne := hf.node_of_ne κ hκ fun heq => hne (by rw [heq]; exact hf.empty)
  leafBlock κ hκ hleaf := by
    unfold Fs.leafBlock
    by_cases hκ₀ : κ = κ₀
    · rw [hκ₀, if_neg (hf.node_ne_zero h), if_pos hf.empty, hf.node_self, hf.zero]
    · rw [hf.node_of_ne κ hκ hκ₀]
      split
      · rfl
      · exact hf.content κ hκ hleaf ‹_›

theorem spare_add_one (hf : Fresh P s s' κ₀ k) : s'.spare + 1 = s.spare := by
  unfold Fs.spare
  rw [hf.sb, hf.bitmap]
  exact freeBits_setUsed hf.first

theorem there_eq (h : Files P s) (hf : Fresh P s s' κ₀ k) (κ : Key) :
    there P s' κ = (there P s κ || decide (κ ∈ ({κ₀} : Finset Key))) := by
  unfold there
  simp only [Finset.mem_singleton]
  by_cases hκ₀ : κ = κ₀
  · rw [hκ₀]
    simp [hf.ok, hf.node_ne_zero h]
  · by_cases hκ : κ.Ok P
    · simp [hκ, hκ₀, hf.node_of_ne κ hκ hκ₀]
    · simp [hκ, hκ₀]

end Fresh

/-- The places after the block `z`, whose bytes are zero, is hung into an entry of
`addrs`. -/
theorem node_hangAddr {u : Fs Store} {ip : Fin NINODE} {r : Fin 15} {z : UInt32}
    (hempty : s.node ((ip, r), []) = 0) (hit : u.itable = s.itable)
    (hzero : u.blk.content z = Block.zero)
    (hcont : ∀ κ, κ.Ok P → s.node κ ≠ 0 → u.blk.content (s.node κ) = s.blk.content (s.node κ))
    (κ : Key) (hκ : κ.Ok P) :
    (u.setItable ip { u.itable ip with addrs := update (u.itable ip).addrs r z }).node κ =
      if κ = ((ip, r), []) then z else s.node κ := by
  generalize hu' : u.setItable ip _ = u'
  have hcont' : u'.blk.content = u.blk.content := by rw [← hu']; rfl
  have hslot : ∀ j, u'.slot z j = 0 := by
    intro j
    rw [Fs.slot, hcont', hzero, Block.word_zero]
  suffices hnode : (((ip, r), []) = κ → u'.node κ = z) ∧
      (((ip, r), []) ≠ κ → u'.node κ = s.node κ) by
    split
    · next h => exact hnode.1 h.symm
    · next h => exact hnode.2 (Ne.symm h)
  refine Forest.node_fresh (prefixClosed_ok P) hempty hslot ?_ ?_ ?_ κ.1 κ.2 hκ
  · intro q l j heq
    have := congrArg (fun κ : Key => κ.2.length) heq
    simp at this
  · rintro ⟨ip', r'⟩ -
    rw [← hu', Fs.itable_setItable, hit]
    refine ⟨fun heq => ?_, fun hne => ?_⟩
    · cases heq
      rw [update_self]
      exact update_self ..
    · by_cases hip' : ip' = ip
      · have hr : r' ≠ r := by
          rintro rfl
          exact hne (by rw [hip'])
        rw [hip', update_self]
        exact update_of_ne hr _ _
      · rw [update_of_ne hip']
  · intro q l j hκ' hne
    refine ⟨fun heq => ?_, fun _ => ?_⟩
    · have := congrArg (fun κ : Key => κ.2.length) heq
      simp at this
    · show (u'.blk.content (s.node (q, l))).word j = (s.blk.content (s.node (q, l))).word j
      rw [hcont', hcont _ (prefixClosed_ok P q l j hκ') hne]

/-- The places after the block `z`, whose bytes are zero, is hung into a slot of an
index block. -/
theorem node_hangSlot {u : Fs Store} {q : Fin NINODE × Fin 15} {l : List (Fin NINDIRECT)}
    {j : Fin NINDIRECT} {z : UInt32} (hdistinct : Forest.Distinct 0 (Key.Ok P) s.node)
    (hok : Key.Ok P (q, l ++ [j])) (hparent : s.node (q, l) ≠ 0)
    (hempty : s.node (q, l ++ [j]) = 0) (hit : u.itable = s.itable)
    (hzero : u.blk.content z = Block.zero) (hz : s.node (q, l) ≠ z)
    (hcont : ∀ κ, κ.Ok P → s.node κ ≠ 0 → u.blk.content (s.node κ) = s.blk.content (s.node κ))
    (κ : Key) (hκ : κ.Ok P) :
    (u.write (s.node (q, l)) ((u.blk.content (s.node (q, l))).setWord j z)).node κ =
      if κ = (q, l ++ [j]) then z else s.node κ := by
  have hokl := prefixClosed_ok P q l j hok
  generalize hu' : u.write _ _ = u'
  have hcont' : u'.blk.content = update u.blk.content (s.node (q, l))
      ((s.blk.content (s.node (q, l))).setWord j z) := by
    rw [← hu', Fs.content_write, hcont _ hokl hparent]
  have hit' : u'.itable = s.itable := by rw [← hu', ← hit]; rfl
  have hslot : ∀ j, u'.slot z j = 0 := by
    intro j
    rw [Fs.slot, hcont', update_of_ne (Ne.symm hz), hzero, Block.word_zero]
  suffices hnode : ((q, l ++ [j]) = κ → u'.node κ = z) ∧
      ((q, l ++ [j]) ≠ κ → u'.node κ = s.node κ) by
    split
    · next h => exact hnode.1 h.symm
    · next h => exact hnode.2 (Ne.symm h)
  refine Forest.node_fresh (prefixClosed_ok P) hempty hslot ?_ ?_ ?_ κ.1 κ.2 hκ
  · intro q' l' j' heq
    obtain ⟨rfl, rfl, -⟩ := Key.snoc_inj heq
    exact hparent
  · refine fun q' _ => ⟨fun heq => ?_, fun _ => by rw [hit']⟩
    have := congrArg (fun κ : Key => κ.2.length) heq
    simp at this
  · intro q' l' j' hκ' hne
    have hokl' := prefixClosed_ok P q' l' j' hκ'
    show (_ → (u'.blk.content (s.node (q', l'))).word j' = z) ∧
      (_ → (u'.blk.content (s.node (q', l'))).word j' = (s.blk.content (s.node (q', l'))).word j')
    rw [hcont']
    by_cases heq : s.node (q', l') = s.node (q, l)
    · cases hdistinct (q', l') (q, l) hokl' hokl hne heq
      rw [update_self, Block.word_setWord _ _ j.isLt]
      refine ⟨fun hκ₀ => ?_, fun hκ₀ => if_neg fun hj => hκ₀ ?_⟩
      · rw [(Key.snoc_inj hκ₀).2.2, if_pos rfl]
      · rw [Fin.ext hj]
    · rw [update_of_ne heq, hcont _ hokl' hne]
      refine ⟨fun hκ₀ => ?_, fun _ => rfl⟩
      obtain ⟨rfl, rfl, -⟩ := Key.snoc_inj hκ₀
      exact absurd rfl heq

/-- The state after `balloc` has taken block `k` of the bitmap. -/
def Fs.taken (s : Fs Store) (k : ℕ) : Fs Store :=
  (s.write s.gdesc.blockBitmap (setUsed s.blockBitmap k)).write
    (s.gdesc.blockBitmap + UInt32.ofNat k) Block.zero

theorem Files.gdesc_taken (h : Files P s) {k : ℕ} (hk : FirstFree s.sb s.blockBitmap k) :
    (s.taken k).gdesc = s.gdesc := by
  have hz : s.gdesc.blockBitmap + UInt32.ofNat k ≠ 2 := fun h2 =>
    (h.firstFree_ne hk).1 (Or.inr (Or.inl h2))
  rw [Fs.taken, gdesc_write hz, gdesc_write h.desc]

/-- Blocks other than the bitmap and the one taken are as they were. -/
theorem content_taken {k : ℕ} {b : UInt32} (hbb : b ≠ s.gdesc.blockBitmap)
    (hz : b ≠ s.gdesc.blockBitmap + UInt32.ofNat k) :
    (s.taken k).blk.content b = s.blk.content b := by
  rw [Fs.taken, Fs.content_write, update_of_ne hz, Fs.content_write,
    update_of_ne hbb]

theorem content_taken_self {k : ℕ} :
    (s.taken k).blk.content (s.gdesc.blockBitmap + UInt32.ofNat k) = Block.zero := by
  rw [Fs.taken, Fs.content_write, update_self]

theorem Files.content_taken_bitmap (h : Files P s) {k : ℕ}
    (hk : FirstFree s.sb s.blockBitmap k) :
    (s.taken k).blk.content s.gdesc.blockBitmap = setUsed s.blockBitmap k := by
  have hz : s.gdesc.blockBitmap ≠ s.gdesc.blockBitmap + UInt32.ofNat k := fun heq =>
    (h.firstFree_ne hk).1 (Or.inr (Or.inr (Or.inl heq.symm)))
  rw [Fs.taken, Fs.content_write, update_of_ne hz, Fs.content_write,
    update_self]

/-- A node of the files is as it was after `balloc`. -/
theorem Files.content_taken_node (h : Files P s) {k : ℕ}
    (hk : FirstFree s.sb s.blockBitmap k) {κ : Key} (hκ : κ.Ok P) (hne : s.node κ ≠ 0) :
    (s.taken k).blk.content (s.node κ) = s.blk.content (s.node κ) := by
  refine content_taken (fun heq => h.apart κ hκ hne ?_) ((h.firstFree_ne hk).2 κ hκ hne)
  exact Or.inr (Or.inr (Or.inl heq))

/-- **Filling one empty place**: `balloc`, followed by a program that hangs the
block it returns into the place. -/
theorem balloc_fills (h : Files P s) (hheld : HeldNodes P s) {κ₀ : Key}
    (hempty : s.node κ₀ = 0) {g : UInt32 → FsM Store UInt32}
    (hg : ∀ k, FirstFree s.sb s.blockBitmap k → ∃ s', g (s.gdesc.blockBitmap + UInt32.ofNat k)
      (s.taken k) = .ok (s.gdesc.blockBitmap + UInt32.ofNat k, s') ∧
      Fresh P s s' κ₀ k ∧ s'.blk.held = s.blk.held) :
    Fills Fs.spare (there P) (balloc dev >>= g) s {κ₀} fun a s' =>
      Files P s' ∧ Grows P s s' ∧ s'.blk.held = s.blk.held ∧ s'.node κ₀ = a ∧ a ≠ 0 := by
  have hmiss : missing (there P) s {κ₀} = 1 := by
    unfold missing
    rw [Finset.filter_true_of_mem, Finset.card_singleton]
    intro κ hκ
    rw [Finset.mem_singleton.mp hκ, there, hempty]
    simp
  -- the buffers held are those of file blocks, so they are not in `balloc`'s way
  have hnot : ∀ b, s.IsMeta P b → b ∉ s.blk.held := by
    intro b hb hmem
    obtain ⟨κ, hκ, hne, rfl⟩ := hheld b hmem
    exact h.apart κ hκ hne hb
  have h2 : 2 ∉ s.blk.held := hnot 2 (Or.inr (Or.inl rfl))
  have hbb : s.gdesc.blockBitmap ∉ s.blk.held := hnot _ (Or.inr (Or.inr (Or.inl rfl)))
  unfold Fills Costs
  rw [hmiss]
  by_cases hex : ∃ k, FirstFree s.sb s.blockBitmap k
  · obtain ⟨k, hk⟩ := hex
    obtain ⟨hzmeta, hznode⟩ := h.firstFree_ne hk
    have hz : s.gdesc.blockBitmap + UInt32.ofNat k ∉ s.gdesc.blockBitmap :: s.blk.held := by
      intro hmem
      rcases List.mem_cons.mp hmem with heq | hmem
      · exact hzmeta (Or.inr (Or.inr (Or.inl heq)))
      · obtain ⟨κ, hκ, hne, heq⟩ := hheld _ hmem
        exact hznode κ hκ hne heq
    obtain ⟨s', hrun, hf, hheld'⟩ := hg k hk
    refine Or.inl ⟨_, s', (bind_of_ok (balloc_ok h2 hbb hk hz)).trans hrun, hf.spare_add_one,
      hf.there_eq h, h.fresh hf, hf.grows h, hheld', hf.node_self, ?_⟩
    rw [← hf.node_self]
    exact hf.node_ne_zero h
  · have hzero : s.spare < 1 := by
      by_contra hpos
      exact hex (exists_firstFree (Nat.pos_of_ne_zero fun h0 => hpos (by unfold Fs.spare; omega)))
    have herr : ∃ e, balloc dev s = .error e := balloc_error h2 hbb hex
    obtain ⟨e, he⟩ := herr
    exact Or.inr ⟨hzero, e, bind_of_error he⟩

/-- A place that is occupied already costs nothing. -/
theorem fills_of_node {m : FsM Store UInt32} {κ : Key} (h : Files P s) (hok : κ.Ok P)
    (hne : s.node κ ≠ 0) (hm : m s = .ok (s.node κ, s)) :
    Fills Fs.spare (there P) m s {κ} fun a s' =>
      Files P s' ∧ Grows P s s' ∧ s'.blk.held = s.blk.held ∧ s'.node κ = a ∧ a ≠ 0 := by
  have hthere : there P s κ = true := by simp [there, hok, hne]
  have hmiss : missing (there P) s {κ} = 0 := by
    unfold missing
    rw [Finset.card_eq_zero, Finset.filter_eq_empty_iff]
    intro κ' hκ'
    rw [Finset.mem_singleton.mp hκ', hthere]
    decide
  refine Or.inl ⟨_, s, hm, by rw [hmiss]; rfl, fun κ' => ?_, h, Grows.refl, rfl, rfl, hne⟩
  by_cases hκ' : κ' = κ
  · rw [hκ', hthere]
    rfl
  · simp [hκ']

/-- An inode without blocks. -/
theorem node_of_empty {ip : Fin NINODE}
    (haddrs : ∀ k, (s.itable ip).addrs k = 0) (κ : Key) (hκ : κ.Ok {ip}) : s.node κ = 0 := by
  obtain ⟨⟨ip', k⟩, l⟩ := κ
  obtain rfl : ip' = ip := Finset.mem_singleton.mp hκ.1
  show Forest.follow 0 s.slot ((s.itable ip').addrs k) l = 0
  rw [haddrs k, Forest.follow_null]

/-! ### The slots -/

variable {alloc : UInt32 → FsM Store UInt32}

theorem addrSlot_there {ip : Fin NINODE} {r : Fin 15} (h : s.node ((ip, r), []) ≠ 0) :
    addrSlot alloc ip r s = .ok (s.node ((ip, r), []), s) := by
  have haddr : (s.itable ip).addrs r ≠ 0 := h
  unfold addrSlot
  rw [bind_of_ok (getInode_apply s ip), if_neg haddr]
  rfl

theorem indexSlot_there {q : Fin NINODE × Fin 15} {l : List (Fin NINDIRECT)}
    {j : Fin NINDIRECT} (h : s.node (q, l ++ [j]) ≠ 0) :
    indexSlot alloc dev (s.node (q, l)) j s = .ok (s.node (q, l ++ [j]), s) := by
  have hparent : s.node (q, l) ≠ 0 := Forest.node_ne_null_of_snoc h
  rw [Fs.node_snoc, if_neg hparent] at h ⊢
  unfold indexSlot
  rw [bind_of_ok bdata_apply, if_neg h]
  rfl

/-- An entry of `addrs` is filled. -/
theorem addrSlot_fills (h : Files P s) (hheld : HeldNodes P s) {ip : Fin NINODE} (hip : ip ∈ P)
    (r : Fin 15) :
    Fills Fs.spare (there P) (addrSlot balloc ip r) s {((ip, r), [])} fun a s' =>
      Files P s' ∧ Grows P s s' ∧ s'.blk.held = s.blk.held ∧ s'.node ((ip, r), []) = a ∧
        a ≠ 0 := by
  have hok : Key.Ok P ((ip, r), []) := ⟨hip, Nat.zero_le _⟩
  by_cases hempty : (s.itable ip).addrs r = 0
  · have hrun : addrSlot balloc ip r s = (balloc (s.itable ip).dev >>= fun addr => do
        setInode ip fun i => { i with addrs := update i.addrs r addr }
        return addr) s := by
      unfold addrSlot
      rw [bind_of_ok (getInode_apply s ip), if_pos hempty]
    unfold Fills Costs
    rw [hrun]
    have hempty' : s.node ((ip, r), []) = 0 := hempty
    refine balloc_fills h hheld hempty' fun k hk => ⟨_, rfl, ?_, rfl⟩
    have hg := h.gdesc_taken hk
    have hnode := node_hangAddr (u := s.taken k) (P := P) hempty' rfl content_taken_self
      fun κ hκ hne => h.content_taken_node hk hκ hne
    refine ⟨hk, hok, hempty', rfl, hg, ?_, fun ip' => ?_, ?_, fun κ hκ hne => ?_,
      content_taken_self, fun κ hκ _ hne => h.content_taken_node hk hκ hne⟩
    · exact (blockBitmap_of_gdesc hg).trans (h.content_taken_bitmap hk)
    · by_cases hip' : ip' = ip
      · rw [hip', Fs.itable_setItable, update_self]
        rfl
      · rw [Fs.itable_setItable, update_of_ne hip']
        rfl
    · exact (hnode _ hok).trans (if_pos rfl)
    · exact (hnode κ hκ).trans (if_neg hne)
  · exact fills_of_node h hok hempty (addrSlot_there hempty)

/-- A slot of an index block is filled. -/
theorem indexSlot_fills (h : Files P s) (hheld : HeldNodes P s) {q : Fin NINODE × Fin 15}
    {l : List (Fin NINDIRECT)} {j : Fin NINDIRECT} (hok : Key.Ok P (q, l ++ [j]))
    (hparent : s.node (q, l) ≠ 0) :
    Fills Fs.spare (there P) (indexSlot balloc dev (s.node (q, l)) j) s {(q, l ++ [j])} fun a s' =>
      Files P s' ∧ Grows P s s' ∧ s'.blk.held = s.blk.held ∧ s'.node (q, l ++ [j]) = a ∧
        a ≠ 0 := by
  have hokl := prefixClosed_ok P q l j hok
  have hword : s.node (q, l ++ [j]) = (s.blk.content (s.node (q, l))).word j := by
    rw [Fs.node_snoc, if_neg hparent]
  by_cases hempty : s.node (q, l ++ [j]) = 0
  · have hrun : indexSlot balloc dev (s.node (q, l)) j s = (balloc dev >>= fun addr => do
        let a ← bdata (s.node (q, l))
        bstore (s.node (q, l)) (a.setWord j addr)
        return addr) s := by
      unfold indexSlot
      rw [bind_of_ok bdata_apply, if_pos (hword.symm.trans hempty)]
    unfold Fills Costs
    rw [hrun]
    refine balloc_fills h hheld hempty fun k hk => ⟨(s.taken k).write (s.node (q, l))
      (((s.taken k).blk.content (s.node (q, l))).setWord j
        (s.gdesc.blockBitmap + UInt32.ofNat k)), rfl, ?_, rfl⟩
    have hg := h.gdesc_taken hk
    have hbb : s.node (q, l) ≠ s.gdesc.blockBitmap := fun heq =>
      h.apart _ hokl hparent (Or.inr (Or.inr (Or.inl heq)))
    have hg' : ((s.taken k).write (s.node (q, l))
        (((s.taken k).blk.content (s.node (q, l))).setWord j
          (s.gdesc.blockBitmap + UInt32.ofNat k))).gdesc = s.gdesc := by
      rw [gdesc_write (fun heq => h.apart _ hokl hparent (Or.inr (Or.inl heq))), hg]
    have hz := (h.firstFree_ne hk).2 _ hokl hparent
    have hnode := node_hangSlot (u := s.taken k) h.distinct hok hparent hempty rfl
      content_taken_self hz fun κ hκ hne => h.content_taken_node hk hκ hne
    refine ⟨hk, hok, hempty, rfl, hg', ?_, fun _ => rfl, (hnode _ hok).trans (if_pos rfl),
      fun κ hκ hne => (hnode κ hκ).trans (if_neg hne), ?_, fun κ hκ hleaf hne => ?_⟩
    · rw [blockBitmap_of_gdesc hg', Fs.content_write, update_of_ne (Ne.symm hbb),
        h.content_taken_bitmap hk]
    · rw [Fs.content_write, update_of_ne (Ne.symm hz), content_taken_self]
    · have hκl : s.node κ ≠ s.node (q, l) := by
        intro heq
        -- an index block has a place below it, so it is no data block
        have := h.distinct κ (q, l) hκ hokl hne heq
        subst this
        have hlen : l.length = indexDepth q.2 := hleaf
        have hlt := hok.2
        rw [List.length_append, hlen] at hlt
        exact absurd hlt (Nat.not_succ_le_self _)
      rw [Fs.content_write, update_of_ne hκl, h.content_taken_node hk hκ hne]
  · exact fills_of_node h hok hempty (indexSlot_there hempty)

/-! ### The walk -/

/-- The state with other buffers held. -/
def Fs.withHeld (s : Fs Store) (l : List UInt32) : Fs Store :=
  { s with blk := { s.blk with held := l } }

theorem Files.withHeld (h : Files P s) (l : List UInt32) : Files P (s.withHeld l) :=
  ⟨h.desc, h.record, h.metaInUse, h.distinct, h.apart, h.inUse⟩

theorem Grows.withHeld (h : Grows P s s') (l : List UInt32) : Grows P s (s'.withHeld l) :=
  ⟨h.sb, h.gdesc, h.inode, h.node, h.leafBlock⟩

/-- Releasing all the buffers held. -/
theorem forM_brelse : ∀ (bps : List UInt32) (s : Fs Store), s.blk.held.Perm bps →
    (forM bps brelse : FsM Store PUnit) s = .ok (⟨⟩, s.withHeld []) := by
  intro bps
  induction bps with
  | nil =>
    intro s hperm
    have hnil : s.blk.held = [] := List.perm_nil.mp hperm
    have hs : s.withHeld [] = s := by
      unfold Fs.withHeld
      rw [← hnil]
    rw [hs]
    rfl
  | cons b bps ih =>
    intro s hperm
    have hmem : b ∈ s.blk.held := hperm.mem_iff.mpr List.mem_cons_self
    have hrest : (s.release b).blk.held.Perm bps := by
      have := hperm.erase b
      rwa [List.erase_cons_head] at this
    rw [List.forM_cons, bind_of_ok (brelse_ok hmem), ih _ hrest]
    rfl

/-- The places below `l` on the way through the slots `js`. -/
def tailKeys (q : Fin NINODE × Fin 15) : List (Fin NINDIRECT) → List (Fin NINDIRECT) → Finset Key
  | _, [] => ∅
  | l, j :: js => {(q, l ++ [j])} ∪ tailKeys q (l ++ [j]) js

/-- The place of a data block lies on its path. -/
theorem mem_tailKeys (q : Fin NINODE × Fin 15) (js : List (Fin NINDIRECT)) :
    ∀ l, (q, l ++ js) ∈ ({(q, l)} ∪ tailKeys q l js : Finset Key) := by
  induction js with
  | nil => intro l; simp
  | cons j js ih =>
    intro l
    have := ih (l ++ [j])
    rw [List.append_assoc, List.singleton_append] at this
    exact Finset.mem_union_right _ this

theorem Key.Ok.of_cons {q : Fin NINODE × Fin 15} {l js : List (Fin NINDIRECT)} {j : Fin NINDIRECT}
    (h : Key.Ok P (q, l ++ j :: js)) : Key.Ok P (q, l ++ [j]) := by
  have hlen := h.2
  refine ⟨h.1, ?_⟩
  simp only [List.length_append, List.length_cons, List.length_nil] at *
  omega

/-- The buffers held while a walk stands at the place `l`: those of the index blocks
that it has passed. -/
structure Passed (P : Finset (Fin NINODE)) (s : Fs Store) (q : Fin NINODE × Fin 15)
    (l : List (Fin NINDIRECT)) (bps : List UInt32) : Prop where
  above : ∀ b ∈ bps, ∃ l', l'.length < l.length ∧ Key.Ok P (q, l') ∧ s.node (q, l') ≠ 0 ∧
    s.node (q, l') = b
  held : s.blk.held.Perm bps

namespace Passed

variable {q : Fin NINODE × Fin 15} {l : List (Fin NINDIRECT)} {bps : List UInt32}

theorem nil (hheld : s.blk.held = []) : Passed P s q [] [] :=
  ⟨fun b hb => absurd hb List.not_mem_nil, by rw [hheld]⟩

/-- The block that the walk stands at is not held. -/
theorem notMem (h : Passed P s q l bps) (hdistinct : Forest.Distinct 0 (Key.Ok P) s.node)
    (hok : Key.Ok P (q, l)) : s.node (q, l) ∉ s.blk.held := by
  intro hmem
  obtain ⟨l', hlen, hok', hne', heq⟩ := h.above _ (h.held.mem_iff.mp hmem)
  cases hdistinct (q, l') (q, l) hok' hok hne' heq
  exact absurd hlen (Nat.lt_irrefl _)

/-- One step down, where the places passed stay as they are. -/
theorem push (h : Passed P s q l bps) (hok : Key.Ok P (q, l)) (hne : s.node (q, l) ≠ 0)
    (j : Fin NINDIRECT) (hheld : s'.blk.held = s.node (q, l) :: s.blk.held)
    (hkept : ∀ κ, Key.Ok P κ → s.node κ ≠ 0 → s'.node κ = s.node κ) :
    Passed P s' q (l ++ [j]) (bps ++ [s.node (q, l)]) := by
  constructor
  · intro b hb
    rcases List.mem_append.mp hb with hb | hb
    · obtain ⟨l', hlen, hok', hne', heq⟩ := h.above b hb
      have hkept' := hkept _ hok' hne'
      refine ⟨l', by rw [List.length_append]; omega, hok', ?_, ?_⟩ <;> rw [hkept']
      · exact hne'
      · exact heq
    · rw [List.mem_singleton.mp hb]
      refine ⟨l, by simp, hok, ?_, hkept _ hok hne⟩
      rw [hkept _ hok hne]
      exact hne
  · rw [hheld]
    exact (List.Perm.cons _ h.held).trans (List.perm_append_singleton _ _).symm

end Passed

/-- **The walk fills the places on its way** and returns the block at the end of
it.  The buffers held are those of the index blocks passed. -/
theorem indexWalk_fills {q : Fin NINODE × Fin 15} (js : List (Fin NINDIRECT)) :
    ∀ (l : List (Fin NINDIRECT)) (s : Fs Store) (bps : List UInt32), Files P s →
      Key.Ok P (q, l ++ js) → s.node (q, l) ≠ 0 → Passed P s q l bps →
      Fills Fs.spare (there P) (indexWalk balloc dev bps (s.node (q, l)) (js.map Fin.val)) s
        (tailKeys q l js) fun a s' => Files P s' ∧ Grows P s s' ∧ s'.blk.held = [] ∧
          s'.node (q, l ++ js) = a ∧ a ≠ 0 := by
  induction js with
  | nil =>
    intro l s bps h hok hne hpassed
    refine Fills.of_ok (t := s.withHeld []) ?_ rfl (fun _ => rfl)
      ⟨h.withHeld [], Grows.refl.withHeld [], rfl, ?_, hne⟩
    · rw [List.map_nil, indexWalk, bind_of_ok (forM_brelse bps s hpassed.held)]
      rfl
    · rw [List.append_nil]
      rfl
  | cons j js ih =>
    intro l s bps h hok hne hpassed
    have hassoc : l ++ j :: js = l ++ [j] ++ js := by simp
    have hokj : Key.Ok P (q, l ++ [j]) := hok.of_cons
    have hokl := prefixClosed_ok P q l j hokj
    have hheld : HeldNodes P (s.hold (s.node (q, l))) := by
      intro b hb
      rcases List.mem_cons.mp hb with rfl | hb
      · exact ⟨(q, l), hokl, hne, rfl⟩
      · obtain ⟨l', -, hok', hne', heq⟩ := hpassed.above b (hpassed.held.mem_iff.mp hb)
        exact ⟨(q, l'), hok', hne', heq⟩
    refine Fills.of_eq (u := s.hold (s.node (q, l)))
      (bind_of_ok (bread_ok (hpassed.notMem h.distinct hokl))) rfl rfl ?_
    refine Fills.bind (indexSlot_fills (h.withHeld _) hheld hokj hne) fun next t _ hpost => ?_
    obtain ⟨ht, hgrows, hheldt, hnode, hnext⟩ := hpost
    rw [← hnode] at hnext ⊢
    refine (ih (l ++ [j]) t (bps ++ [s.node (q, l)]) ht (hassoc ▸ hok) hnext
      (hpassed.push hokl hne j hheldt hgrows.node)).mono ?_
    rintro a s' ⟨hs', hgrows', hheld', hnode', hne'⟩
    exact ⟨hs', (Grows.refl.withHeld _).trans (hgrows.trans hgrows'), hheld',
      hassoc ▸ hnode', hne'⟩

/-! ### `bmap` -/

/-- The places on the path of the `bn`-th block of a file. -/
def pathKeys (ip : Fin NINODE) (bn : ℕ) : Finset Key :=
  {((ip, (blockPath bn).1), [])} ∪ tailKeys (ip, (blockPath bn).1) [] (blockPath bn).2

/-- **`bmap` creates what is missing on the path** of its block, and returns the
block at the end of it. -/
theorem bmap_fills (h : Files P s) (hheld : s.blk.held = []) {ip : Fin NINODE} (hip : ip ∈ P)
    {bn : ℕ} (hbn : bn < maxBlocks) :
    Fills Fs.spare (there P) (bmap ip bn) s (pathKeys ip bn) fun a s' =>
      Files P s' ∧ Grows P s s' ∧ s'.blk.held = [] ∧ s'.node (dataKey ip bn) = a ∧ a ≠ 0 := by
  have hnone : HeldNodes P s := by
    intro b hb
    rw [hheld] at hb
    exact absurd hb List.not_mem_nil
  refine Fills.of_eq (bmap_eq hbn) rfl rfl ?_
  refine Fills.bind (addrSlot_fills h hnone hip _) fun addr t _ hpost => ?_
  obtain ⟨ht, hgrows, hheldt, hnode, hne⟩ := hpost
  rw [← hnode] at hne ⊢
  refine (indexWalk_fills _ [] t [] ht (ok_dataKey hip bn) hne
    (Passed.nil (hheldt.trans hheld))).mono ?_
  rintro a s' ⟨hs', hgrows', hheld', hnode', hne'⟩
  exact ⟨hs', hgrows.trans hgrows', hheld', hnode', hne'⟩

/-! ### Paths without holes -/

/-- A walk to an occupied place changes nothing. -/
theorem indexWalk_there {q : Fin NINODE × Fin 15} (js : List (Fin NINDIRECT)) :
    ∀ (l : List (Fin NINDIRECT)) (s : Fs Store) (bps : List UInt32),
      Forest.Distinct 0 (Key.Ok P) s.node → Key.Ok P (q, l ++ js) → s.node (q, l ++ js) ≠ 0 →
      Passed P s q l bps →
      indexWalk alloc dev bps (s.node (q, l)) (js.map Fin.val) s =
        .ok (s.node (q, l ++ js), s.withHeld []) := by
  induction js with
  | nil =>
    intro l s bps _ _ _ hpassed
    rw [List.map_nil, indexWalk, bind_of_ok (forM_brelse bps s hpassed.held), List.append_nil]
    rfl
  | cons j js ih =>
    intro l s bps h hok hthere hpassed
    have hokl := prefixClosed_ok P q l j hok.of_cons
    have hassoc : l ++ j :: js = l ++ [j] ++ js := by simp
    rw [hassoc] at hok hthere ⊢
    have hnext : s.node (q, l ++ [j]) ≠ 0 := Forest.node_ne_null_of_append js hthere
    have hne : s.node (q, l) ≠ 0 := Forest.node_ne_null_of_snoc hnext
    have hslot : indexSlot alloc dev (s.node (q, l)) j (s.hold (s.node (q, l))) =
        .ok (s.node (q, l ++ [j]), s.hold (s.node (q, l))) :=
      indexSlot_there (s := s.hold (s.node (q, l))) hnext
    rw [List.map_cons, indexWalk, bind_of_ok (bread_ok (hpassed.notMem h hokl)),
      bind_of_ok hslot]
    exact ih (l ++ [j]) (s.hold (s.node (q, l))) (bps ++ [s.node (q, l)]) h hok hthere
      (hpassed.push hokl hne j rfl fun _ _ _ => rfl)

/-- **`bmap` of a block that is there** changes nothing. -/
theorem bmapWith_there {ip : Fin NINODE} (h : Forest.Distinct 0 (Key.Ok P) s.node)
    (hheld : s.blk.held = []) (hip : ip ∈ P) {bn : ℕ} (hbn : bn < maxBlocks)
    (hthere : s.node (dataKey ip bn) ≠ 0) :
    bmapWith alloc ip bn s = .ok (s.node (dataKey ip bn), s) := by
  have hroot : s.node ((ip, (blockPath bn).1), []) ≠ 0 :=
    Forest.node_ne_null_of_append (blockPath bn).2 hthere
  have hself : s.withHeld [] = s := by
    unfold Fs.withHeld
    rw [← hheld]
  rw [bmapWith_eq alloc hbn, bind_of_ok (addrSlot_there hroot)]
  rw [indexWalk_there (blockPath bn).2 [] s [] h (ok_dataKey hip bn) hthere
    (Passed.nil hheld), hself]
  rfl

/-- `bmap` on a path without holes. -/
theorem bmap_there (h : Files P s) (hheld : s.blk.held = []) {ip : Fin NINODE} (hip : ip ∈ P)
    {bn : ℕ} (hbn : bn < maxBlocks) (hthere : ∀ κ ∈ pathKeys ip bn, s.node κ ≠ 0) :
    bmap ip bn s = .ok (s.node (dataKey ip bn), s) :=
  bmapWith_there h.distinct hheld hip hbn (hthere _ (mem_tailKeys _ _ []))

end Store

end Xv6Ext2
