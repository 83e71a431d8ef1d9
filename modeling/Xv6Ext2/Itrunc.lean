import Xv6Ext2.FileData

/-!
# Giving blocks and references back

`itrunc` of `kernel/fs.c` frees the blocks of a file, and `iput` drops a reference
to an in-memory inode, truncating the file when no link is left.

While a file is truncated its index blocks lose their pointers one by one.  What is
left of them points to where it did, so the walk stays within the blocks that the
file had at the start, and no other file is touched.

## Main definitions

* `freeTree`, `itruncWith` — `itrunc` with any program in place of `bfree`; its four nested
  loops are one walk over trees of different depths.
* `itrunc`, `iput`, `iunlockput` — the source functions.
* `Trunc ip t u` — `u` is reached from `t` while `ip` is being truncated.

## Main results

* `freeTree_trunc`, `itrunc_trunc`, `iput_trunc` — the walk, and the functions on it.
* `Trunc.contents` — other files keep their contents.
-/

namespace Xv6Ext2

open Function Prog

variable {σ β : Type} [BlockLayer σ β]

/-! ### The source functions -/

/-- Free the block `b` and, through `depth` levels of index blocks, the blocks
below it.  The slots are set to 0 in the buffer on the way. -/
def freeTree (free : UInt32 → UInt32 → FsM σ Unit) (dev : UInt32) : ℕ → UInt32 → FsM σ Unit
  | 0, b => free dev b
  | depth + 1, b => do
    let bp ← bread dev b
    forM (List.range NINDIRECT) fun i => do
      let a ← bdata bp
      if a.word i = 0 then return ⟨⟩
      else do
        freeTree free dev depth (a.word i)
        let a ← bdata bp
        bstore bp (a.setWord i 0)
    brelse bp
    free dev b

/-- Free what hangs at an entry of `addrs`. -/
def truncAddr (free : UInt32 → UInt32 → FsM σ Unit) (ip : Fin NINODE) (k : Fin 15) :
    FsM σ Unit := do
  let i ← getInode ip
  if i.addrs k = 0 then return ()
  else do
    freeTree free i.dev (indexDepth k) (i.addrs k)
    setInode ip fun i => { i with addrs := update i.addrs k 0 }

/-- `itrunc` with a program in place of `bfree`. -/
def itruncWith (free : UInt32 → UInt32 → FsM σ Unit) (ip : Fin NINODE) : FsM σ Unit := do
  forM (List.finRange 15) (truncAddr free ip)
  setInode ip fun i => { i with size := 0 }
  iupdate ip

/-- Truncate an inode (discard its contents). -/
def itrunc (ip : Fin NINODE) : FsM σ Unit := itruncWith bfree ip

/-- Drop a reference to an in-memory inode.  If that was the last reference and
the inode has no links to it, free the inode and its content on disk. -/
def iput (ip : Fin NINODE) : FsM σ Unit := do
  let i ← getInode ip
  if i.ref = 1 ∧ i.valid = true ∧ i.nlink = 0 then do
    if i.locked then throw .deadlock
    else do
      setInode ip fun i => { i with locked := true }
      itrunc ip
      setInode ip fun i => { i with type := .none }
      iupdate ip
      setInode ip fun i => { i with valid := false, locked := false }
      setInode ip fun i => { i with ref := i.ref - 1 }
  else setInode ip fun i => { i with ref := i.ref - 1 }

/-- Common idiom: unlock, then put. -/
def iunlockput (ip : Fin NINODE) : FsM σ Unit := do
  iunlock ip
  iput ip

/-! ### What truncation leaves alone -/

section Store

variable {P : Finset (Fin NINODE)} {ip : Fin NINODE} {s t u : Fs Store} {dev b : UInt32}

/-- `bfree` stores in the block bitmap only. -/
theorem bfree_sat : Sat (bfree dev b) s fun _ s' =>
    ∃ d, s'.blk.content = update s.blk.content s.gdesc.blockBitmap d ∧
      s'.itable = s.itable := by
  unfold bfree
  refine bread_sat.bind ?_
  rintro bp u ⟨rfl, rfl⟩
  refine Sat.of_eq (bind_of_ok bdata_apply) ?_
  refine bread_sat.bind ?_
  rintro bp u ⟨rfl, rfl⟩
  refine Sat.of_eq (bind_of_ok bdata_apply) ?_
  refine Sat.ite (fun _ => Sat.throw) fun _ => Sat.ite (fun _ => Sat.throw) fun _ => ?_
  refine Sat.of_eq (bind_of_ok (bstore_apply _)) ?_
  refine bwrite_sat.bind ?_
  rintro - u rfl
  refine brelse_sat.bind ?_
  rintro - u rfl
  refine brelse_sat.mono ?_
  rintro - u rfl
  exact ⟨_, rfl, rfl⟩

/-- `iupdate` stores in the block of the inode's record only. -/
theorem iupdate_sat : Sat (iupdate ip) s fun _ s' =>
    ∃ d, s'.blk.content = update s.blk.content (s.recBlock (s.itable ip).inum) d ∧
      s'.itable = s.itable := by
  unfold iupdate
  refine Sat.of_eq (bind_of_ok (getInode_apply s ip)) ?_
  refine readGroupDesc_sat.bind ?_
  rintro gdes u ⟨rfl, rfl⟩
  rw [iupdate_bno]
  refine bread_sat.bind ?_
  rintro bp u ⟨rfl, rfl⟩
  refine Sat.of_eq (bind_of_ok bdata_apply) ?_
  refine Sat.of_eq (bind_of_ok (bstore_apply _)) ?_
  refine bwrite_sat.bind ?_
  rintro - u rfl
  refine brelse_sat.mono ?_
  rintro - u rfl
  exact ⟨_, rfl, rfl⟩

/-- The blocks that truncating `ip` stores in. -/
def Fs.Owns (t : Fs Store) (ip : Fin NINODE) (b : UInt32) : Prop :=
  b = t.gdesc.blockBitmap ∨ b = t.recBlock (t.itable ip).inum ∨
    ∃ q l j, Key.Ok {ip} (q, l ++ [j]) ∧ t.node (q, l) ≠ 0 ∧ b = t.node (q, l)

/-- `u` is reached from `t` while the file `ip` is being truncated: its pointers are
what they were, or 0. -/
structure Trunc (ip : Fin NINODE) (t u : Fs Store) : Prop where
  other : ∀ b, ¬t.Owns ip b → u.blk.content b = t.blk.content b
  word : ∀ q l (j : Fin NINDIRECT), Key.Ok {ip} (q, l ++ [j]) → t.node (q, l) ≠ 0 →
    (u.blk.content (t.node (q, l))).word j = 0 ∨
      (u.blk.content (t.node (q, l))).word j = t.node (q, l ++ [j])
  addr : ∀ k, (u.itable ip).addrs k = 0 ∨ (u.itable ip).addrs k = t.node ((ip, k), [])
  inum : (u.itable ip).inum = (t.itable ip).inum
  inode : ∀ ip', ip' ≠ ip → u.itable ip' = t.itable ip'

theorem Trunc.refl : Trunc ip t t where
  other _ _ := rfl
  word q l j _ hne := Or.inr (by rw [Fs.node_snoc, if_neg hne])
  addr _ := Or.inr rfl
  inum := rfl
  inode _ _ := rfl

/-- Places of one of the inodes are places of all of them. -/
theorem Key.Ok.mono {P P' : Finset (Fin NINODE)} (h : P ⊆ P') {κ : Key} (hκ : κ.Ok P) : κ.Ok P' :=
  ⟨h hκ.1, hκ.2⟩

/-- The index blocks of a file are no metadata. -/
theorem Files.index_ne (h : Files P t) (hip : ip ∈ P) {q : Fin NINODE × Fin 15}
    {l : List (Fin NINDIRECT)} {j : Fin NINDIRECT} (hok : Key.Ok {ip} (q, l ++ [j]))
    (hne : t.node (q, l) ≠ 0) : Key.Ok P (q, l) ∧ ¬t.IsMeta P (t.node (q, l)) := by
  have hok' : Key.Ok P (q, l) := (prefixClosed_ok _ q l j hok).mono (by simpa using hip)
  exact ⟨hok', h.apart _ hok' hne⟩

theorem Files.not_owns_two (h : Files P t) (hip : ip ∈ P) : ¬t.Owns ip 2 := by
  rintro (hb | hb | ⟨q, l, j, hok, hne, hb⟩)
  · exact h.desc hb.symm
  · exact (h.record ip hip).1 hb.symm
  · exact (h.index_ne hip hok hne).2 (Or.inr (Or.inl hb.symm))

namespace Trunc

theorem gdesc (hu : Trunc ip t u) (h : Files P t) (hip : ip ∈ P) : u.gdesc = t.gdesc := by
  unfold Fs.gdesc
  rw [hu.other 2 (h.not_owns_two hip)]

/-- Storing in one of the metadata blocks. -/
theorem of_meta (hu : Trunc ip t u) (h : Files P t) (hip : ip ∈ P) {s' : Fs Store} {b : UInt32}
    {d : Block} (hb : b = t.gdesc.blockBitmap ∨ b = t.recBlock (t.itable ip).inum)
    (hcont : s'.blk.content = update u.blk.content b d) (hit : s'.itable = u.itable) :
    Trunc ip t s' where
  other b' hb' := by
    have hne : b' ≠ b := by
      rintro rfl
      exact hb' (hb.imp_right Or.inl)
    rw [hcont, update_of_ne hne]
    exact hu.other b' hb'
  word q l j hok hne := by
    have hne' : t.node (q, l) ≠ b := by
      rintro rfl
      refine (h.index_ne hip hok hne).2 ?_
      exact Or.inr (Or.inr (hb.imp_right fun hb => ⟨ip, hip, hb⟩))
    rw [hcont, update_of_ne hne']
    exact hu.word q l j hok hne
  addr k := by rw [hit]; exact hu.addr k
  inum := by rw [hit]; exact hu.inum
  inode ip' hne := by rw [hit]; exact hu.inode ip' hne

/-- Clearing a slot of an index block. -/
theorem of_slot (hu : Trunc ip t u) (h : Files P t) (hip : ip ∈ P) {q : Fin NINODE × Fin 15}
    {l : List (Fin NINDIRECT)} {j : Fin NINDIRECT} (hok : Key.Ok {ip} (q, l ++ [j]))
    (hne : t.node (q, l) ≠ 0) :
    Trunc ip t (u.write (t.node (q, l)) ((u.blk.content (t.node (q, l))).setWord j 0)) where
  other b' hb' := by
    have hne' : b' ≠ t.node (q, l) := by
      rintro rfl
      exact hb' (Or.inr (Or.inr ⟨q, l, j, hok, hne, rfl⟩))
    rw [Fs.content_write, update_of_ne hne']
    exact hu.other b' hb'
  word q' l' j' hok' hne' := by
    rw [Fs.content_write]
    by_cases heq : t.node (q', l') = t.node (q, l)
    · rw [heq, update_self, Block.word_setWord _ _ j.isLt]
      split
      · exact Or.inl rfl
      · have hkey := h.distinct _ _ (h.index_ne hip hok' hne').1 (h.index_ne hip hok hne).1
          hne' heq
        have := hu.word q' l' j' hok' hne'
        rwa [heq] at this
    · rw [update_of_ne heq]
      exact hu.word q' l' j' hok' hne'
  addr := hu.addr
  inum := hu.inum
  inode := hu.inode

/-- Changing the inode itself. -/
theorem of_inode (hu : Trunc ip t u) {i : Inode} (hinum : i.inum = (u.itable ip).inum)
    (haddr : ∀ k, i.addrs k = 0 ∨ i.addrs k = (u.itable ip).addrs k) :
    Trunc ip t (u.setItable ip i) where
  other := hu.other
  word := hu.word
  addr k := by
    rw [Fs.itable_setItable, update_self]
    rcases haddr k with h0 | heq
    · exact Or.inl h0
    · rw [heq]
      exact hu.addr k
  inum := by
    rw [Fs.itable_setItable, update_self, hinum]
    exact hu.inum
  inode ip' hne := by
    rw [Fs.itable_setItable, update_of_ne hne]
    exact hu.inode ip' hne

theorem bfree (hu : Trunc ip t u) (h : Files P t) (hip : ip ∈ P) :
    Sat (Xv6Ext2.bfree dev b) u fun _ u' => Trunc ip t u' := by
  refine bfree_sat.mono ?_
  rintro - u' ⟨d, hcont, hit⟩
  exact hu.of_meta h hip (Or.inl (by rw [hu.gdesc h hip])) hcont hit

theorem iupdate (hu : Trunc ip t u) (h : Files P t) (hip : ip ∈ P) :
    Sat (Xv6Ext2.iupdate ip) u fun _ u' => Trunc ip t u' := by
  refine iupdate_sat.mono ?_
  rintro - u' ⟨d, hcont, hit⟩
  refine hu.of_meta h hip (Or.inr ?_) hcont hit
  rw [hu.inum, recBlock_of_gdesc (hu.gdesc h hip)]

end Trunc

/-- **The walk.**  It is at the place `(q, l)` of the file as it was at the start, and
frees what was below. -/
theorem freeTree_trunc (h : Files P t) (hip : ip ∈ P) {q : Fin NINODE × Fin 15} (hq : q.1 = ip) :
    ∀ (depth : ℕ) (l : List (Fin NINDIRECT)) (u : Fs Store),
      l.length + depth = indexDepth q.2 → t.node (q, l) ≠ 0 → Trunc ip t u →
      Sat (freeTree bfree dev depth (t.node (q, l))) u fun _ u' => Trunc ip t u' := by
  intro depth
  induction depth with
  | zero => intro l u _ _ hu; exact hu.bfree h hip
  | succ depth ih =>
    intro l u hlen hne hu
    have hok : ∀ j, Key.Ok {ip} (q, l ++ [j]) := fun j =>
      ⟨by simp [hq], by simp only [List.length_append, List.length_singleton]; omega⟩
    rw [freeTree]
    refine bread_sat.bind ?_
    rintro bp v ⟨rfl, rfl⟩
    refine Sat.bind (R := fun _ v => Trunc ip t v) (Sat.forM _ _ ?_ ?_) fun _ v hv => ?_
    · exact ⟨hu.other, hu.word, hu.addr, hu.inum, hu.inode⟩
    · -- one slot: a pointer that is left is the one of the start
      intro i hi v hv
      obtain ⟨j, rfl⟩ : ∃ j : Fin NINDIRECT, j.val = i := ⟨⟨i, List.mem_range.mp hi⟩, rfl⟩
      refine Sat.of_eq (bind_of_ok bdata_apply) ?_
      refine Sat.ite (fun _ => Sat.pure hv) fun h0 => ?_
      have hword := (hv.word q l j (hok j) hne).resolve_left h0
      rw [hword] at h0 ⊢
      refine (ih (l ++ [j]) v (by simp only [List.length_append, List.length_singleton]; omega)
        h0 hv).bind fun _ w hw => ?_
      refine Sat.of_eq (bind_of_ok bdata_apply) ?_
      intro _ w' hstore
      cases hstore
      exact hw.of_slot h hip (hok j) hne
    · refine brelse_sat.bind ?_
      rintro - w rfl
      exact Trunc.bfree ⟨hv.other, hv.word, hv.addr, hv.inum, hv.inode⟩ h hip

/-- Truncating a file touches that file only. -/
theorem itrunc_trunc (h : Files P t) (hip : ip ∈ P) (hu : Trunc ip t u) :
    Sat (itrunc ip) u fun _ u' => Trunc ip t u' := by
  unfold itrunc itruncWith
  refine Sat.bind (R := fun _ v => Trunc ip t v) (Sat.forM _ _ hu ?_) fun _ v hv => ?_
  · intro k _ v hv
    unfold truncAddr
    refine Sat.of_eq (bind_of_ok (getInode_apply v ip)) ?_
    refine Sat.ite (fun _ => Sat.pure hv) fun h0 => ?_
    have haddr := (hv.addr k).resolve_left h0
    rw [haddr] at h0 ⊢
    refine (freeTree_trunc h hip rfl (indexDepth k) [] v (by simp) h0 hv).bind fun _ w hw => ?_
    intro _ w' hset
    cases hset
    refine hw.of_inode rfl fun k' => ?_
    dsimp only
    by_cases hk : k' = k
    · exact Or.inl (by rw [hk, update_self])
    · exact Or.inr (by rw [update_of_ne hk])
  · refine Sat.of_eq (bind_of_ok (setInode_apply v ip _)) ?_
    exact Trunc.iupdate (hv.of_inode rfl fun _ => Or.inr rfl) h hip

/-- Dropping a reference touches that file only. -/
theorem iput_trunc (h : Files P t) (hip : ip ∈ P) (hu : Trunc ip t u) :
    Sat (iput ip) u fun _ u' => Trunc ip t u' := by
  unfold iput
  refine Sat.of_eq (bind_of_ok (getInode_apply u ip)) ?_
  refine Sat.ite (fun _ => Sat.ite (fun _ => Sat.throw) fun _ => ?_) fun _ => ?_
  · refine Sat.of_eq (bind_of_ok (setInode_apply u ip _)) ?_
    refine Sat.bind (itrunc_trunc h hip (hu.of_inode rfl fun _ => Or.inr rfl)) fun _ v hv => ?_
    refine Sat.of_eq (bind_of_ok (setInode_apply v ip _)) ?_
    refine Sat.bind (Trunc.iupdate (hv.of_inode rfl fun _ => Or.inr rfl) h hip) fun _ w hw => ?_
    refine Sat.of_eq (bind_of_ok (setInode_apply w ip _)) ?_
    intro _ w' hrun
    cases hrun
    apply Trunc.of_inode
    · apply hw.of_inode
      · rfl
      · exact fun _ => Or.inr rfl
    · rfl
    · exact fun _ => Or.inr rfl
  · intro _ w' hrun
    cases hrun
    exact hu.of_inode rfl fun _ => Or.inr rfl

/-- **Other files keep their contents.** -/
theorem Trunc.contents (hu : Trunc ip t u) (h : Files P t) (hip : ip ∈ P) {ip' : Fin NINODE}
    (hip' : ip' ∈ P) (hne : ip' ≠ ip) : u.contents ip' = t.contents ip' := by
  refine contents_congr (by rw [hu.inode ip' hne]) (by rw [hu.inode ip' hne]) fun κ hκ hnz => ?_
  have hκ' : κ.Ok P := hκ.mono (by simpa using hip')
  refine hu.other _ ?_
  rintro (hb | hb | ⟨q, l, j, hok, hnz', hb⟩)
  · exact h.apart κ hκ' hnz (Or.inr (Or.inr (Or.inl hb)))
  · exact h.apart κ hκ' hnz (Or.inr (Or.inr (Or.inr ⟨ip, hip, hb⟩)))
  · have hkey := h.distinct _ _ hκ' (h.index_ne hip hok hnz').1 hnz hb
    refine hne ?_
    rw [← Finset.mem_singleton.mp hκ.1, hkey]
    exact Finset.mem_singleton.mp hok.1

end Store

end Xv6Ext2
