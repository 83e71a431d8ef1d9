import Xv6Ext2.Bmap

/-!
# Files are byte arrays

`readi` and `writei` of `kernel/fs.c` move bytes between memory and the blocks of
a file, one block a round.  Over the invariant `Files` they refine operations on
flat arrays: the contents of a file are `size` bytes, missing blocks counting as
zeros, and no operation on one file shows in another.

What an operation needs of the bitmap is one bit for each place it touches that is
empty, and needs add up over a sequence to the number of empty places touched.

## Main definitions

* `readi`, `writei` — the source functions; `readiLoop`, `writeiLoop` their loops.
* `Fs.fileByte`, `Fs.contents` — the bytes of a file.
* `touched ip off n` — the places on the paths of the bytes `off … off + n - 1`.
* `FileOp`, `FileOp.run`, `FileOp.flat` — operations, on the file system and on
  flat arrays.

## Main results

* `readiLoop_fills`, `writeiLoop_fills` — the loops.
* `readi_fills`, `writei_copies` — the functions.
* `files_are_arrays` — **every sequence of reads and writes** returns what it
  returns on flat arrays and leaves the contents it leaves there.
-/

namespace Xv6Ext2

open Bytes Function Prog

variable {σ β : Type} [BlockLayer σ β]

/-! ### The source functions -/

/-- The loop of `readi`: the bytes handed to `either_copyout`, whose result is
ignored.  `n` bytes are left. -/
def readiLoop (ip : Fin NINODE) : ℕ → ℕ → ℕ → FsM σ (List UInt8)
  | _, _, 0 => return []
  | 0, _, _ + 1 => throw .fuel
  | fuel + 1, off, n + 1 => do
    let i ← getInode ip
    let addr ← bmap ip (off / BSIZE)
    let bp ← bread i.dev addr
    let m := min (n + 1) (BSIZE - off % BSIZE)
    let d ← bdata bp
    brelse bp
    let rest ← readiLoop ip fuel (off + m) (n + 1 - m)
    return (List.range m).map (fun x => d.byte (off % BSIZE + x)) ++ rest

/-- Read data from an inode: the value returned and the bytes delivered. -/
def readi (ip : Fin NINODE) (off n : UInt32) : FsM σ (ℤ × List UInt8) := do
  let i ← getInode ip
  if i.size < off ∨ off + n < off then return (-1, [])
  else do
    let n := if i.size < off + n then i.size - off else n
    let bytes ← readiLoop ip n.toNat off.toNat n.toNat
    return (cInt n, bytes)

/-- Where `writei` copies from: the bytes at the source address, and the number of
bytes after which `either_copyin` of `m` bytes at offset `tot` fails. -/
structure CopySrc where
  mem : ℕ → UInt8
  fails : ℕ → ℕ → Option ℕ

/-- A kernel buffer, which can always be read. -/
def kernelSrc (mem : ℕ → UInt8) : CopySrc := ⟨mem, fun _ _ => none⟩

/-- The loop of `writei`, which returns `tot`.  `n` bytes are left. -/
def writeiLoop (ip : Fin NINODE) (src : CopySrc) : ℕ → ℕ → ℕ → ℕ → FsM σ ℕ
  | _, tot, _, 0 => return tot
  | 0, _, _, _ + 1 => throw .fuel
  | fuel + 1, tot, off, n + 1 => do
    let i ← getInode ip
    let addr ← bmap ip (off / BSIZE)
    if addr = 0 then return tot
    else do
      let bp ← bread i.dev addr
      let m := min (n + 1) (BSIZE - off % BSIZE)
      let d ← bdata bp
      match src.fails tot m with
      | some c => do
        bstore bp (d.put (off % BSIZE) (min c m) fun x => src.mem (tot + x))
        brelse bp
        return tot
      | none => do
        bstore bp (d.put (off % BSIZE) m fun x => src.mem (tot + x))
        brelse bp
        writeiLoop ip src fuel (tot + m) (off + m) (n + 1 - m)

/-- Write data to an inode. -/
def writei (ip : Fin NINODE) (src : CopySrc) (off n : UInt32) : FsM σ ℤ := do
  let i ← getInode ip
  if i.size < off ∨ off + n < off then return -1
  else if MAXFILE * BSIZE < (off + n).toNat then return -1
  else do
    let tot ← writeiLoop ip src n.toNat 0 off.toNat n.toNat
    let off := off + UInt32.ofNat tot
    setInode ip fun i => { i with size := if i.size < off then off else i.size }
    iupdate ip
    return tot

/-! ### The bytes of a file -/

section Store

variable {s s' : Fs Store} {P : Finset (Fin NINODE)} {ip : Fin NINODE}

/-- Byte `o` of a file; a missing block reads as zeros. -/
def Fs.fileByte (s : Fs Store) (ip : Fin NINODE) (o : ℕ) : UInt8 :=
  (s.leafBlock (dataKey ip (o / BSIZE))).byte (o % BSIZE)

/-- The contents of a file. -/
def Fs.contents (s : Fs Store) (ip : Fin NINODE) : List UInt8 :=
  (List.range (s.itable ip).size.toNat).map (s.fileByte ip)

/-- The places on the paths of `n` bytes of a file from `off` on. -/
def touched (ip : Fin NINODE) (off n : ℕ) : Finset Key :=
  (Finset.range n).biUnion fun x => pathKeys ip ((off + x) / BSIZE)

@[simp] theorem touched_zero (off : ℕ) : touched ip off 0 = ∅ := rfl

/-- Touching the rest of a block, and then what is left. -/
theorem touched_split {off n m : ℕ} (hm : 0 < m) (hmn : m ≤ n) (hblk : off % BSIZE + m ≤ BSIZE) :
    touched ip off n = pathKeys ip (off / BSIZE) ∪ touched ip (off + m) (n - m) := by
  have hdiv : ∀ x < m, (off + x) / BSIZE = off / BSIZE := by
    intro x hx
    simp only [BSIZE] at *
    omega
  ext κ
  simp only [touched, Finset.mem_union, Finset.mem_biUnion, Finset.mem_range]
  constructor
  · rintro ⟨x, hx, hκ⟩
    rcases Nat.lt_or_ge x m with hxm | hxm
    · rw [hdiv x hxm] at hκ
      exact Or.inl hκ
    · refine Or.inr ⟨x - m, by omega, ?_⟩
      rwa [show off + m + (x - m) = off + x by omega]
  · rintro (hκ | ⟨x, hx, hκ⟩)
    · exact ⟨0, by omega, by rwa [hdiv 0 hm]⟩
    · refine ⟨m + x, by omega, ?_⟩
      rwa [← Nat.add_assoc]

theorem dataKey_mem_touched {off n x : ℕ} (hx : x < n) :
    dataKey ip ((off + x) / BSIZE) ∈ touched ip off n :=
  Finset.mem_biUnion.mpr ⟨x, Finset.mem_range.mpr hx, mem_tailKeys _ _ []⟩

theorem Grows.fileByte (h : Grows P s s') (hip : ip ∈ P) (o : ℕ) :
    s'.fileByte ip o = s.fileByte ip o := by
  unfold Fs.fileByte
  rw [h.leafBlock _ (ok_dataKey hip _) (isLeaf_dataKey ip)]

theorem Grows.contents (h : Grows P s s') (hip : ip ∈ P) : s'.contents ip = s.contents ip := by
  unfold Fs.contents
  rw [h.inode ip]
  exact List.map_congr_left fun o _ => h.fileByte hip o

/-- The contents of a file depend on its inode and its blocks. -/
theorem contents_congr (hsize : (s'.itable ip).size = (s.itable ip).size)
    (haddr : (s'.itable ip).addrs = (s.itable ip).addrs)
    (hcont : ∀ κ : Key, κ.Ok {ip} → s.node κ ≠ 0 →
      s'.blk.content (s.node κ) = s.blk.content (s.node κ)) : s'.contents ip = s.contents ip := by
  have hnode : ∀ κ : Key, κ.Ok {ip} → s'.node κ = s.node κ := by
    rintro ⟨q, l⟩ hκ
    refine Forest.node_congr (prefixClosed_ok {ip}) ?_ ?_ q l hκ
    · intro r hr
      rw [Finset.mem_singleton.mp hr.1, haddr]
    · intro q l j hok hne
      exact congrArg (Block.word · j) (hcont _ (prefixClosed_ok _ q l j hok) hne)
  unfold Fs.contents
  rw [hsize]
  refine List.map_congr_left fun o _ => ?_
  have hκ : (dataKey ip (o / BSIZE)).Ok {ip} := ok_dataKey (Finset.mem_singleton_self _) _
  unfold Fs.fileByte Fs.leafBlock
  rw [hnode _ hκ]
  split
  · rfl
  · rw [hcont _ hκ ‹_›]

/-! ### Reading -/

/-- One more round of the loop reads up to the end of the block. -/
theorem map_range_split {α : Type} (f : ℕ → α) {n m : ℕ} (h : m ≤ n) :
    (List.range n).map f =
      (List.range m).map f ++ (List.range (n - m)).map fun x => f (m + x) := by
  obtain ⟨k, rfl⟩ := Nat.exists_eq_add_of_le h
  rw [Nat.add_sub_cancel_left, List.range_add, List.map_append, List.map_map]
  rfl

/-- **The loop of `readi`** delivers the bytes of the file and leaves the files as
they were. -/
theorem readiLoop_fills (hip : ip ∈ P) :
    ∀ (fuel off n : ℕ) (s : Fs Store), n ≤ fuel → off + n ≤ 2 ^ 32 → Files P s →
      s.blk.held = [] →
      Fills Fs.spare (there P) (readiLoop ip fuel off n) s (touched ip off n) fun bytes s' =>
        Files P s' ∧ Grows P s s' ∧ s'.blk.held = [] ∧
          bytes = (List.range n).map fun x => s.fileByte ip (off + x) := by
  intro fuel
  induction fuel with
  | zero =>
    intro off n s hn _ h hheld
    have hn0 : n = 0 := by omega
    subst hn0
    exact Fills.of_ok rfl rfl (fun _ => rfl) ⟨h, Grows.refl, hheld, rfl⟩
  | succ fuel ih =>
    intro off n s hn hoff h hheld
    rcases n with _ | n
    · exact Fills.of_ok rfl rfl (fun _ => rfl) ⟨h, Grows.refl, hheld, rfl⟩
    · have hbn : off / BSIZE < maxBlocks := by
        simp only [maxBlocks, BSIZE, NDIRECT, NINDIRECT, NDINDIRECT, NTINDIRECT]
        omega
      have hmod : off % BSIZE < BSIZE := Nat.mod_lt _ (by decide)
      rw [readiLoop]
      generalize hm : min (n + 1) (BSIZE - off % BSIZE) = m
      have hm0 : 0 < m := by omega
      have hmn : m ≤ n + 1 := by omega
      have hblk : off % BSIZE + m ≤ BSIZE := by omega
      rw [touched_split hm0 hmn hblk]
      refine Fills.of_eq (bind_of_ok (getInode_apply s ip)) rfl rfl ?_
      refine Fills.bind (bmap_fills h hheld hip hbn) fun addr t _ hpost => ?_
      obtain ⟨ht, hgrows, hheldt, hnode, hne⟩ := hpost
      have hnot : addr ∉ t.blk.held := by
        rw [hheldt]
        exact List.not_mem_nil
      -- reading the block leaves the state as it was
      have hrun : ∀ f : Block → FsM Store (List UInt8),
          (bread (s.itable ip).dev addr >>= fun bp => bdata bp >>= fun d =>
            brelse bp >>= fun _ => f d) t = f (t.blk.content addr) t := by
        intro f
        rw [bind_of_ok (bread_ok hnot), bind_of_ok bdata_apply,
          bind_of_ok (brelse_ok (by simp)), Fs.release_hold]
        rfl
      refine Fills.of_eq (hrun _) rfl rfl ?_
      refine Fills.map (ih (off + m) (n + 1 - m) t (by omega) (by omega) ht hheldt)
        fun rest u _ hpost => ?_
      obtain ⟨hu, hgrows', hheldu, hrest⟩ := hpost
      refine ⟨hu, hgrows.trans hgrows', hheldu, ?_⟩
      rw [map_range_split _ hmn, hrest]
      congr 1
      · refine List.map_congr_left fun x hx => ?_
        have hx' := List.mem_range.mp hx
        have hdiv : (off + x) / BSIZE = off / BSIZE := by
          simp only [BSIZE] at *
          omega
        have hmodx : (off + x) % BSIZE = off % BSIZE + x := by
          simp only [BSIZE] at *
          omega
        rw [← hgrows.fileByte hip (off + x), Fs.fileByte, hdiv, hmodx, Fs.leafBlock, hnode,
          if_neg hne]
      · refine List.map_congr_left fun x _ => ?_
        rw [hgrows.fileByte hip, Nat.add_assoc]

/-- A file all of whose blocks in a range are there is small: the bitmap has
`8 * BSIZE` bits, and different blocks have different ones. -/
theorem Files.le_of_there (h : Files P s) (hip : ip ∈ P) {off n : ℕ} (hoff : off + n ≤ 2 ^ 32)
    (hthere : ∀ κ ∈ touched ip off n, there P s κ = true) : n ≤ 8 * BSIZE * BSIZE := by
  by_contra hn
  simp only [BSIZE] at hn
  have hkey : ∀ i ∈ Finset.range (8 * BSIZE + 1),
      s.node (dataKey ip (off / BSIZE + i)) ≠ 0 := by
    intro i hi
    have hi' := Finset.mem_range.mp hi
    simp only [BSIZE] at hi'
    have := hthere _ (dataKey_mem_touched (x := BSIZE * i) (by simp only [BSIZE]; omega))
    rw [Nat.add_mul_div_left _ _ (by decide)] at this
    simp only [there, Bool.and_eq_true, decide_eq_true_eq] at this
    exact this.2
  obtain ⟨i, hi, j, hj, hij, heq⟩ := Finset.exists_ne_map_eq_of_card_lt_of_maps_to
    (s := Finset.range (8 * BSIZE + 1)) (t := Finset.range (8 * BSIZE))
    (f := fun i => s.bitIndex (s.node (dataKey ip (off / BSIZE + i))))
    (by simp) fun i hi =>
      Finset.mem_coe.mpr (Finset.mem_range.mpr
        (h.inUse _ (ok_dataKey hip _) (hkey i (Finset.mem_coe.mp hi))).1)
  have hnode : s.node (dataKey ip (off / BSIZE + i)) = s.node (dataKey ip (off / BSIZE + j)) := by
    rw [← add_bitIndex (s := s) (s.node (dataKey ip (off / BSIZE + i))), heq, add_bitIndex]
  have hbn : ∀ i ∈ Finset.range (8 * BSIZE + 1), off / BSIZE + i < maxBlocks := by
    intro i hi
    have := Finset.mem_range.mp hi
    simp only [maxBlocks, BSIZE, NDIRECT, NINDIRECT, NDINDIRECT, NTINDIRECT] at *
    omega
  have := dataKey_inj (hbn i hi) (hbn j hj)
    (h.distinct _ _ (ok_dataKey hip _) (ok_dataKey hip _) (hkey i hi) hnode)
  omega

/-! ### Writing -/

/-- The invariant depends on where the blocks are and on the bitmap only. -/
theorem Files.of_node (h : Files P s) (hg : s'.gdesc = s.gdesc)
    (hbm : s'.blockBitmap = s.blockBitmap)
    (hinum : ∀ ip ∈ P, (s'.itable ip).inum = (s.itable ip).inum)
    (hnode : ∀ κ, κ.Ok P → s'.node κ = s.node κ) : Files P s' := by
  have hidx := bitIndex_of_gdesc hg
  have hrec : ∀ ip ∈ P, s'.recBlock (s'.itable ip).inum = s.recBlock (s.itable ip).inum := by
    intro ip hip
    rw [hinum ip hip, recBlock_of_gdesc hg]
  have hisMeta : ∀ b, s'.IsMeta P b ↔ s.IsMeta P b := by
    intro b
    unfold Fs.IsMeta
    rw [hg]
    refine or_congr_right (or_congr_right (or_congr_right (exists_congr fun ip => ?_)))
    exact and_congr_right fun hip => by rw [hrec ip hip]
  have hinUse : ∀ b, s'.InUse b ↔ s.InUse b := by
    intro b
    unfold Fs.InUse
    rw [hidx, hbm]
  refine ⟨?_, ?_, ?_, ?_, ?_, ?_⟩
  · rw [hg]
    exact h.desc
  · intro ip hip
    rw [hrec ip hip, hg]
    exact h.record ip hip
  · intro b hb hlt
    rw [hidx] at hlt
    exact (hinUse b).mpr (h.metaInUse b ((hisMeta b).mp hb) hlt)
  · intro κ κ' hκ hκ' hne heq
    rw [hnode κ hκ] at hne
    rw [hnode κ hκ, hnode κ' hκ'] at heq
    exact h.distinct κ κ' hκ hκ' hne heq
  · intro κ hκ hne
    rw [hnode κ hκ] at hne ⊢
    rw [hisMeta]
    exact h.apart κ hκ hne
  · intro κ hκ hne
    rw [hnode κ hκ] at hne ⊢
    exact (hinUse _).mpr (h.inUse κ hκ hne)

/-- The state differs from `s` in the bytes of the files at most. -/
structure SamePlaces (P : Finset (Fin NINODE)) (s s' : Fs Store) : Prop where
  sb : s'.sb = s.sb
  gdesc : s'.gdesc = s.gdesc
  bitmap : s'.blockBitmap = s.blockBitmap
  node : ∀ κ, κ.Ok P → s'.node κ = s.node κ

theorem SamePlaces.there_eq (h : SamePlaces P s s') : there P s' = there P s := by
  funext κ
  unfold there
  by_cases hκ : κ.Ok P
  · rw [h.node κ hκ]
  · simp [hκ]

theorem SamePlaces.spare_eq (h : SamePlaces P s s') : s'.spare = s.spare := by
  unfold Fs.spare
  rw [h.sb, h.bitmap]

/-- Writing a block that no index block of the files is leaves the places. -/
theorem SamePlaces.write {b : UInt32} {d : Block} (h2 : b ≠ 2)
    (hbb : b ≠ s.gdesc.blockBitmap)
    (hindex : ∀ q l (j : Fin NINDIRECT), Key.Ok P (q, l ++ [j]) → s.node (q, l) ≠ 0 →
      s.node (q, l) ≠ b) : SamePlaces P s (s.write b d) := by
  have hg := gdesc_write (s := s) h2 d
  refine ⟨rfl, hg, ?_, fun κ hκ => ?_⟩
  · rw [blockBitmap_of_gdesc hg, Fs.content_write, update_of_ne (Ne.symm hbb)]
    rfl
  · refine Forest.node_congr (prefixClosed_ok P) (fun _ _ => rfl) ?_ κ.1 κ.2 hκ
    intro q l j hok hne
    show ((s.write b d).blk.content (s.node (q, l))).word j = _
    rw [Fs.content_write, update_of_ne (hindex q l j hok hne)]
    rfl

/-- **Writing a data block** of a file changes the bytes of this block only. -/
theorem Files.write_leaf (h : Files P s) {κ : Key} (hκ : κ.Ok P) (hleaf : κ.IsLeaf)
    (hne : s.node κ ≠ 0) (d : Block) :
    SamePlaces P s (s.write (s.node κ) d) ∧
      ∀ κ', κ'.Ok P → (s.write (s.node κ) d).leafBlock κ' =
        if κ' = κ then d else s.leafBlock κ' := by
  have hsame : SamePlaces P s (s.write (s.node κ) d) := by
    refine SamePlaces.write (fun heq => h.apart κ hκ hne (Or.inr (Or.inl heq)))
      (fun heq => h.apart κ hκ hne (Or.inr (Or.inr (Or.inl heq)))) ?_
    intro q l j hok hne' heq
    -- an index block has a place below it, so it is no data block
    have := h.distinct (q, l) κ (prefixClosed_ok P q l j hok) hκ hne' heq
    subst this
    have hlen : l.length = indexDepth q.2 := hleaf
    have hlt := hok.2
    rw [List.length_append, hlen] at hlt
    exact absurd hlt (Nat.not_succ_le_self _)
  refine ⟨hsame, fun κ' hκ' => ?_⟩
  unfold Fs.leafBlock
  rw [hsame.node κ' hκ', Fs.content_write]
  by_cases heq : κ' = κ
  · rw [heq, if_neg hne, if_pos rfl, update_self]
  · rw [if_neg heq]
    split
    · rfl
    · next hne' =>
      rw [update_of_ne fun hb => heq (h.distinct κ' κ hκ' hκ hne' hb)]

/-- `n` bytes of the file `ip` have been written from `off` on. -/
structure Wrote (P : Finset (Fin NINODE)) (ip : Fin NINODE) (off n : ℕ) (mem : ℕ → UInt8)
    (s s' : Fs Store) : Prop where
  sb : s'.sb = s.sb
  gdesc : s'.gdesc = s.gdesc
  inode : ∀ ip, s'.itable ip = { s.itable ip with addrs := (s'.itable ip).addrs }
  bytes : ∀ ip' ∈ P, ∀ o < 2 ^ 32, s'.fileByte ip' o =
    if ip' = ip ∧ off ≤ o ∧ o < off + n then mem (o - off) else s.fileByte ip' o

theorem Wrote.refl {off : ℕ} {mem : ℕ → UInt8} : Wrote P ip off 0 mem s s where
  sb := rfl
  gdesc := rfl
  inode _ := rfl
  bytes ip' _ o _ := by rw [if_neg (by omega)]

/-- Two writes, one after the other. -/
theorem Wrote.trans {s'' : Fs Store} {off n m : ℕ} {mem : ℕ → UInt8}
    (h : Wrote P ip off m mem s s')
    (h' : Wrote P ip (off + m) n (fun x => mem (m + x)) s' s'') :
    Wrote P ip off (m + n) mem s s'' where
  sb := h'.sb.trans h.sb
  gdesc := h'.gdesc.trans h.gdesc
  inode ip := by rw [h'.inode ip, h.inode ip]
  bytes ip' hip' o ho := by
    rw [h'.bytes ip' hip' o ho, h.bytes ip' hip' o ho]
    by_cases hio : ip' = ip
    · subst hio
      by_cases h₁ : off + m ≤ o ∧ o < off + m + n
      · rw [if_pos ⟨rfl, h₁⟩, if_pos ⟨rfl, by omega, by omega⟩]
        congr 1
        omega
      · rw [if_neg fun hc => h₁ hc.2]
        by_cases h₂ : off ≤ o ∧ o < off + m
        · rw [if_pos ⟨rfl, h₂⟩, if_pos ⟨rfl, h₂.1, by omega⟩]
        · rw [if_neg fun hc => h₂ hc.2, if_neg (by omega)]
    · rw [if_neg fun hc => hio hc.1, if_neg fun hc => hio hc.1, if_neg fun hc => hio hc.1]

/-- One round of the loop of `writei`: `bmap`, and then the bytes of the block. -/
theorem Wrote.of_round {t : Fs Store} {off m bn : ℕ} {mem : ℕ → UInt8} (ht : Files P t)
    (hgrows : Grows P s t) (hip : ip ∈ P) (hbn : bn = off / BSIZE) (hoff : off < 2 ^ 32)
    (hblk : off % BSIZE + m ≤ BSIZE)
    (hne : t.node (dataKey ip bn) ≠ 0) :
    Wrote P ip off m mem s (t.write (t.node (dataKey ip bn))
      ((t.blk.content (t.node (dataKey ip bn))).put (off % BSIZE) m mem)) := by
  subst hbn
  obtain ⟨hsame, hleaf⟩ := ht.write_leaf (ok_dataKey hip _) (isLeaf_dataKey ip) hne
    ((t.blk.content (t.node (dataKey ip (off / BSIZE)))).put (off % BSIZE) m mem)
  refine ⟨hgrows.sb, hsame.gdesc.trans hgrows.gdesc, hgrows.inode, fun ip' hip' o ho => ?_⟩
  have hblocks : ∀ o < 2 ^ 32, o / BSIZE < maxBlocks := by
    intro o ho
    simp only [maxBlocks, BSIZE, NDIRECT, NINDIRECT, NDINDIRECT, NTINDIRECT]
    omega
  rw [Fs.fileByte, hleaf _ (ok_dataKey hip' _), ← hgrows.fileByte hip' o, Fs.fileByte]
  by_cases hkey : dataKey ip' (o / BSIZE) = dataKey ip (off / BSIZE)
  · have hip'' : ip' = ip := congrArg (fun κ : Key => κ.1.1) hkey
    subst hip''
    have hdiv : o / BSIZE = off / BSIZE :=
      dataKey_inj (hblocks o ho) (hblocks off hoff) hkey
    have hin : off % BSIZE ≤ o % BSIZE ∧ o % BSIZE < off % BSIZE + m ↔
        off ≤ o ∧ o < off + m := by
      simp only [BSIZE] at *
      omega
    rw [if_pos hkey, Block.byte_put _ _ hblk, hdiv, Fs.leafBlock, if_neg hne]
    by_cases hc : off ≤ o ∧ o < off + m
    · rw [if_pos (hin.mpr hc), if_pos ⟨rfl, hc⟩]
      congr 1
      simp only [BSIZE] at *
      omega
    · rw [if_neg (mt hin.mp hc), if_neg fun h => hc h.2]
  · rw [if_neg hkey, if_neg]
    rintro ⟨rfl, hlo, hhi⟩
    refine hkey (congrArg (dataKey ip') ?_)
    simp only [BSIZE] at *
    omega

/-- A round of the loop of `writei` asks for the block and stores `c` bytes in it. -/
theorem writeiRound_fills (h : Files P s) (hheld : s.blk.held = []) (hip : ip ∈ P)
    (tot off c : ℕ) (mem : ℕ → UInt8) (hoff : off < 2 ^ 32) (hblk : off % BSIZE + c ≤ BSIZE)
    {rest : FsM Store ℕ} {T : Finset Key} {Q : ℕ → Fs Store → Prop}
    (hrest : ∀ u, Files P u → u.blk.held = [] → Wrote P ip off c mem s u →
      Fills Fs.spare (there P) rest u T Q) :
    Fills Fs.spare (there P) (do
      let i ← getInode ip
      let addr ← bmap ip (off / BSIZE)
      if addr = 0 then return tot
      else do
        let bp ← bread i.dev addr
        let d ← bdata bp
        bstore bp (d.put (off % BSIZE) c mem)
        brelse bp
        rest) s (pathKeys ip (off / BSIZE) ∪ T) Q := by
  have hbn : off / BSIZE < maxBlocks := by
    simp only [maxBlocks, BSIZE, NDIRECT, NINDIRECT, NDINDIRECT, NTINDIRECT]
    omega
  refine Fills.of_eq (bind_of_ok (getInode_apply s ip)) rfl rfl ?_
  refine Fills.bind (bmap_fills h hheld hip hbn) fun addr t _ hpost => ?_
  obtain ⟨ht, hgrows, hheldt, hnode, hne⟩ := hpost
  rw [← hnode] at hne ⊢
  have hnot : t.node (dataKey ip (off / BSIZE)) ∉ t.blk.held := by
    rw [hheldt]
    exact List.not_mem_nil
  obtain ⟨hsame, -⟩ := ht.write_leaf (ok_dataKey hip _) (isLeaf_dataKey ip) hne
    ((t.blk.content (t.node (dataKey ip (off / BSIZE)))).put (off % BSIZE) c mem)
  have hround : Wrote P ip off c mem s _ := Wrote.of_round ht hgrows hip rfl hoff hblk hne
  generalize hu : t.write (t.node (dataKey ip (off / BSIZE)))
    ((t.blk.content (t.node (dataKey ip (off / BSIZE)))).put (off % BSIZE) c mem) = u
    at hsame hround
  have huheld : u.blk.held = [] := by
    rw [← hu]
    exact hheldt
  have hufiles : Files P u :=
    ht.of_node hsame.gdesc hsame.bitmap (fun ip _ => by rw [← hu]; rfl) hsame.node
  rw [if_neg hne]
  refine Fills.of_eq (u := u) (w := rest) ?_ hsame.spare_eq hsame.there_eq
    (hrest u hufiles huheld hround)
  rw [bind_of_ok (bread_ok hnot), bind_of_ok bdata_apply, bind_of_ok (bstore_apply _),
    bind_of_ok (brelse_ok (by simp)), Fs.release_write_hold, Fs.content_hold, hu]

/-- How far the loop of `writei` gets with a source: the number of bytes that it counts, and
the number of bytes that it stores.  The second one includes the bytes of a copy that fails. -/
def CopySrc.extent (src : CopySrc) : ℕ → ℕ → ℕ → ℕ → ℕ × ℕ
  | _, _, _, 0 => (0, 0)
  | 0, _, _, _ + 1 => (0, 0)
  | fuel + 1, tot, off, n + 1 =>
    let m := min (n + 1) (BSIZE - off % BSIZE)
    match src.fails tot m with
    | some c => (0, min c m)
    | none =>
      let e := src.extent fuel (tot + m) (off + m) (n + 1 - m)
      (m + e.1, m + e.2)

theorem CopySrc.extent_le (src : CopySrc) : ∀ fuel tot off n : ℕ,
    (src.extent fuel tot off n).1 ≤ (src.extent fuel tot off n).2 ∧
      (src.extent fuel tot off n).2 ≤ n := by
  intro fuel
  induction fuel with
  | zero => intro tot off n; cases n <;> simp [extent]
  | succ fuel ih =>
    intro tot off n
    cases n with
    | zero => simp [extent]
    | succ n =>
      rw [extent]
      generalize hm : min (n + 1) (BSIZE - off % BSIZE) = m
      have hrest := ih (tot + m) (off + m) (n + 1 - m)
      split <;> dsimp only <;> omega

/-- A kernel buffer is copied as a whole. -/
theorem extent_kernelSrc (mem : ℕ → UInt8) : ∀ fuel tot off n : ℕ, n ≤ fuel →
    (kernelSrc mem).extent fuel tot off n = (n, n) := by
  intro fuel
  induction fuel with
  | zero =>
    intro tot off n hn
    obtain rfl : n = 0 := by omega
    rfl
  | succ fuel ih =>
    intro tot off n hn
    cases n with
    | zero => rfl
    | succ n =>
      have hmod : off % BSIZE < BSIZE := Nat.mod_lt _ (by decide)
      rw [CopySrc.extent]
      dsimp only [kernelSrc] at ih ⊢
      rw [ih _ _ _ (by omega)]
      exact Prod.ext (by dsimp only; omega) (by dsimp only; omega)

/-- **The loop of `writei`** asks for the blocks up to the one where a copy fails. -/
theorem writeiLoop_fills (hip : ip ∈ P) (src : CopySrc) :
    ∀ (fuel tot off n : ℕ) (s : Fs Store), n ≤ fuel → off + n ≤ 2 ^ 32 → Files P s →
      s.blk.held = [] →
      Fills Fs.spare (there P) (writeiLoop ip src fuel tot off n) s
        (touched ip off (min n ((src.extent fuel tot off n).1 + 1))) fun tot' s' =>
          Files P s' ∧ s'.blk.held = [] ∧ tot' = tot + (src.extent fuel tot off n).1 ∧
          Wrote P ip off (src.extent fuel tot off n).2 (fun x => src.mem (tot + x)) s s' := by
  intro fuel
  induction fuel with
  | zero =>
    intro tot off n s hn _ h hheld
    have hn0 : n = 0 := by omega
    subst hn0
    exact Fills.of_ok rfl rfl (fun _ => rfl) ⟨h, hheld, rfl, Wrote.refl⟩
  | succ fuel ih =>
    intro tot off n s hn hoff h hheld
    rcases n with _ | n
    · rw [Nat.zero_min]
      exact Fills.of_ok rfl rfl (fun _ => rfl) ⟨h, hheld, rfl, Wrote.refl⟩
    · have hmod : off % BSIZE < BSIZE := Nat.mod_lt _ (by decide)
      rw [writeiLoop, CopySrc.extent]
      generalize hm : min (n + 1) (BSIZE - off % BSIZE) = m
      have hblk : off % BSIZE + m ≤ BSIZE := by omega
      dsimp only
      cases src.fails tot m with
      | some c =>
        -- the bytes that the copy has delivered are stored, and the loop is left
        have hone : touched ip off (min (n + 1) (0 + 1)) = pathKeys ip (off / BSIZE) ∪ ∅ := by
          rw [touched_split (m := 1) Nat.one_pos (by omega) (by omega)]
          simp
        rw [hone]
        refine writeiRound_fills h hheld hip tot off (min c m) (fun x => src.mem (tot + x))
          (by omega) (by omega) fun u hu huheld hround => ?_
        exact Fills.of_ok rfl rfl (fun _ => rfl) ⟨hu, huheld, rfl, hround⟩
      | none =>
        dsimp only
        generalize hrec : src.extent fuel (tot + m) (off + m) (n + 1 - m) = e
        have hle : m ≤ min (n + 1) (m + e.1 + 1) := by omega
        rw [touched_split (m := m) (by omega) hle hblk,
          show min (n + 1) (m + e.1 + 1) - m = min (n + 1 - m) (e.1 + 1) by omega]
        refine writeiRound_fills h hheld hip tot off m (fun x => src.mem (tot + x)) (by omega) hblk
          fun u hu huheld hround => ?_
        have hloop := ih (tot + m) (off + m) (n + 1 - m) u (by omega) (by omega) hu huheld
        rw [hrec] at hloop
        refine hloop.mono ?_
        rintro tot' v ⟨hv, hvheld, htot, hwrote⟩
        refine ⟨hv, hvheld, by omega, ?_⟩
        have hafter : Wrote P ip (off + m) e.2 (fun x => src.mem (tot + (m + x))) u v := by
          simpa only [Nat.add_assoc] using hwrote
        exact hround.trans hafter

/-- `iupdate` leaves the places and the bytes of the files. -/
theorem Files.iupdate (h : Files P s) (hheld : s.blk.held = []) (hip : ip ∈ P) :
    ∃ s', Xv6Ext2.iupdate ip s = .ok ((), s') ∧ SamePlaces P s s' ∧ s'.itable = s.itable ∧
      s'.blk.held = [] ∧ ∀ κ, κ.Ok P → s'.leafBlock κ = s.leafBlock κ := by
  obtain ⟨h2, hbb⟩ := h.record ip hip
  have hapart : ∀ κ, κ.Ok P → s.node κ ≠ 0 → s.node κ ≠ s.recBlock (s.itable ip).inum :=
    fun κ hκ hne heq => h.apart κ hκ hne (Or.inr (Or.inr (Or.inr ⟨ip, hip, heq⟩)))
  have hsame : ∀ d, SamePlaces P s (s.write (s.recBlock (s.itable ip).inum) d) := fun d =>
    SamePlaces.write h2 hbb fun q l j hok hne =>
      hapart (q, l) (prefixClosed_ok P q l j hok) hne
  refine ⟨_, iupdate_ok hheld, hsame _, rfl, hheld, fun κ hκ => ?_⟩
  unfold Fs.leafBlock
  rw [(hsame _).node κ hκ, Fs.content_write]
  split
  · rfl
  · rw [update_of_ne (hapart κ hκ ‹_›)]

theorem node_setItable {i : Inode} (h : i.addrs = (s.itable ip).addrs) :
    (s.setItable ip i).node = s.node := by
  unfold Fs.node
  congr 1
  funext q
  rw [Fs.itable_setItable, update_apply]
  split
  · next heq => rw [h, heq]
  · rfl

/-- Changing an inode but not its addresses leaves the places. -/
theorem samePlaces_setItable {i : Inode} (h : i.addrs = (s.itable ip).addrs) :
    SamePlaces P s (s.setItable ip i) :=
  ⟨rfl, rfl, rfl, fun κ _ => congrFun (node_setItable h) κ⟩

/-- The invariant does not depend on the fields of an inode beyond its number and its
addresses. -/
theorem Files.setItable (h : Files P s) {i : Inode} (hinum : i.inum = (s.itable ip).inum)
    (haddr : i.addrs = (s.itable ip).addrs) : Files P (s.setItable ip i) := by
  refine h.of_node rfl rfl (fun ip' _ => ?_) fun κ _ => congrFun (node_setItable haddr) κ
  rw [Fs.itable_setItable, update_apply]
  split
  · next heq => rw [hinum, heq]
  · rfl

/-- Changing neither the size nor the addresses of an inode leaves the contents. -/
theorem contents_setItable {i : Inode} {ip' : Fin NINODE} (hsize : i.size = (s.itable ip).size)
    (haddr : i.addrs = (s.itable ip).addrs) :
    (s.setItable ip i).contents ip' = s.contents ip' := by
  unfold Fs.contents Fs.fileByte Fs.leafBlock
  rw [node_setItable haddr, Fs.itable_setItable, update_apply]
  split
  · next heq => rw [hsize, heq]; rfl
  · rfl

/-- The state with the size of a file changed. -/
def Fs.withSize (s : Fs Store) (ip : Fin NINODE) (size : UInt32) : Fs Store :=
  s.setItable ip { s.itable ip with size := size }

theorem addrs_withSize (size : UInt32) (ip' : Fin NINODE) :
    (s.withSize ip size).itable ip' =
      { s.itable ip' with size := if ip' = ip then size else (s.itable ip').size } := by
  unfold Fs.withSize
  rw [Fs.itable_setItable]
  by_cases hip : ip' = ip
  · rw [hip, update_self, if_pos rfl]
  · rw [update_of_ne hip, if_neg hip]

theorem node_withSize (size : UInt32) : (s.withSize ip size).node = s.node :=
  node_setItable rfl

theorem samePlaces_withSize (size : UInt32) : SamePlaces P s (s.withSize ip size) :=
  samePlaces_setItable rfl

/-! ### The functions on flat arrays -/

/-- `readi` on a flat array: the value returned and the bytes delivered. -/
def flatRead (f : List UInt8) (off n : UInt32) : ℤ × List UInt8 :=
  if f.length < off.toNat ∨ 2 ^ 32 ≤ off.toNat + n.toNat then (-1, [])
  else ((min n.toNat (f.length - off.toNat) : ℕ), (f.drop off.toNat).take n.toNat)

/-- `writei` on a flat array: the value returned and the new array. -/
def flatWrite (f : List UInt8) (mem : ℕ → UInt8) (off n : UInt32) : ℤ × List UInt8 :=
  if (f.length < off.toNat ∨ 2 ^ 32 ≤ off.toNat + n.toNat) ∨
      MAXFILE * BSIZE < off.toNat + n.toNat then (-1, f)
  else (n.toNat, splice f off.toNat ((List.range n.toNat).map mem))

/-- `writei` on a flat array with any source.  Where a copy fails, the bytes that it has
delivered are stored but not counted. -/
def flatCopy (f : List UInt8) (src : CopySrc) (off n : UInt32) : ℤ × List UInt8 :=
  if (f.length < off.toNat ∨ 2 ^ 32 ≤ off.toNat + n.toNat) ∨
      MAXFILE * BSIZE < off.toNat + n.toNat then (-1, f)
  else
    let e := src.extent n.toNat 0 off.toNat n.toNat
    (e.1, (splice f off.toNat ((List.range e.2).map src.mem)).take (max f.length (off.toNat + e.1)))

/-- The places that `readi` touches. -/
def readTouched (f : List UInt8) (ip : Fin NINODE) (off n : UInt32) : Finset Key :=
  if f.length < off.toNat ∨ 2 ^ 32 ≤ off.toNat + n.toNat then ∅
  else touched ip off.toNat (min n.toNat (f.length - off.toNat))

/-- The places that `writei` touches. -/
def writeTouched (f : List UInt8) (ip : Fin NINODE) (off n : UInt32) : Finset Key :=
  if (f.length < off.toNat ∨ 2 ^ 32 ≤ off.toNat + n.toNat) ∨
      MAXFILE * BSIZE < off.toNat + n.toNat then ∅
  else touched ip off.toNat n.toNat

/-- The places that `writei` touches with any source. -/
def copyTouched (f : List UInt8) (ip : Fin NINODE) (src : CopySrc) (off n : UInt32) :
    Finset Key :=
  if (f.length < off.toNat ∨ 2 ^ 32 ≤ off.toNat + n.toNat) ∨
      MAXFILE * BSIZE < off.toNat + n.toNat then ∅
  else touched ip off.toNat (min n.toNat ((src.extent n.toNat 0 off.toNat n.toNat).1 + 1))

/-- With a kernel buffer all bytes are counted. -/
theorem flatCopy_kernelSrc (f : List UInt8) (mem : ℕ → UInt8) (off n : UInt32) :
    flatCopy f (kernelSrc mem) off n = flatWrite f mem off n := by
  unfold flatCopy flatWrite
  split
  · rfl
  · next hacc =>
    rw [extent_kernelSrc mem _ _ _ _ le_rfl]
    refine Prod.ext rfl (List.take_of_length_le ?_)
    rw [length_splice _ (by omega), List.length_map, List.length_range]

theorem copyTouched_kernelSrc (f : List UInt8) (mem : ℕ → UInt8) (off n : UInt32) :
    copyTouched f ip (kernelSrc mem) off n = writeTouched f ip off n := by
  unfold copyTouched writeTouched
  rw [extent_kernelSrc mem _ _ _ _ le_rfl, Nat.min_eq_left (Nat.le_succ _)]

@[simp] theorem length_contents : (s.contents ip).length = (s.itable ip).size.toNat := by
  simp [Fs.contents]

theorem getElem?_contents (o : ℕ) :
    (s.contents ip)[o]? =
      if o < (s.itable ip).size.toNat then some (s.fileByte ip o) else none := by
  unfold Fs.contents
  rw [List.getElem?_map]
  split
  · next h => rw [List.getElem?_range h]; rfl
  · next h => rw [List.getElem?_eq_none (by simpa using h)]; rfl

/-- A piece of the contents. -/
theorem take_drop_contents {off n : ℕ} :
    ((s.contents ip).drop off).take n =
      (List.range (min n ((s.itable ip).size.toNat - off))).map fun x =>
        s.fileByte ip (off + x) := by
  refine List.ext_getElem? fun i => ?_
  rw [List.getElem?_take, List.getElem?_drop, getElem?_contents, List.getElem?_map]
  by_cases hi : i < min n ((s.itable ip).size.toNat - off)
  · rw [if_pos (by omega), if_pos (by omega), List.getElem?_range hi]
    rfl
  · rw [List.getElem?_eq_none (l := List.range _) (by rw [List.length_range]; omega)]
    split
    · rw [if_neg (by omega)]
      rfl
    · rfl

/-- The checks of `readi` and `writei`, over the numbers that the words stand for. -/
theorem rejected_iff {size off n : UInt32} :
    (size < off ∨ off + n < off) ↔
      size.toNat < off.toNat ∨ 2 ^ 32 ≤ off.toNat + n.toNat := by
  have hoff := off.toNat_lt
  have hn := n.toNat_lt
  rw [UInt32.lt_iff_toNat_lt, UInt32.lt_iff_toNat_lt, UInt32.toNat_add]
  omega

/-- The clamp of `readi`. -/
theorem toNat_clamp {size off n : UInt32} (hoff : off.toNat ≤ size.toNat)
    (hn : off.toNat + n.toNat < 2 ^ 32) :
    (if size < off + n then size - off else n).toNat =
      min n.toNat (size.toNat - off.toNat) := by
  have hsize := size.toNat_lt
  have hadd : (off + n).toNat = off.toNat + n.toNat := by
    rw [UInt32.toNat_add]
    omega
  split
  · next h =>
    rw [UInt32.lt_iff_toNat_lt, hadd] at h
    rw [UInt32.toNat_sub]
    omega
  · next h =>
    rw [UInt32.lt_iff_toNat_lt, hadd] at h
    omega

/-- **`readi` is a read of the flat array**, and leaves the files as they are. -/
theorem readi_fills (h : Files P s) (hheld : s.blk.held = []) (hip : ip ∈ P) (off n : UInt32) :
    Fills Fs.spare (there P) (readi ip off n) s (readTouched (s.contents ip) ip off n)
      fun r s' => Files P s' ∧ Grows P s s' ∧ s'.blk.held = [] ∧
        r = flatRead (s.contents ip) off n := by
  unfold readi readTouched flatRead
  rw [length_contents]
  refine Fills.of_eq (bind_of_ok (getInode_apply s ip)) rfl rfl ?_
  by_cases hrej : (s.itable ip).size.toNat < off.toNat ∨ 2 ^ 32 ≤ off.toNat + n.toNat
  · rw [if_pos hrej, if_pos (rejected_iff.mpr hrej), if_pos hrej]
    exact Fills.of_ok rfl rfl (fun _ => rfl) ⟨h, Grows.refl, hheld, rfl⟩
  · rw [if_neg hrej, if_neg (mt rejected_iff.mp hrej), if_neg hrej]
    have hclamp : (if (s.itable ip).size < off + n then (s.itable ip).size - off else n).toNat =
        min n.toNat ((s.itable ip).size.toNat - off.toNat) := toNat_clamp (by omega) (by omega)
    generalize hn' : (if (s.itable ip).size < off + n then (s.itable ip).size - off else n) = n'
      at hclamp
    have hsize := (s.itable ip).size.toNat_lt
    have hle : off.toNat + n'.toNat ≤ 2 ^ 32 := by omega
    rw [← hclamp]
    refine Fills.map (readiLoop_fills hip n'.toNat off.toNat n'.toNat s le_rfl hle h hheld)
      fun bytes t hthere hpost => ?_
    obtain ⟨ht, hgrows, hheldt, hbytes⟩ := hpost
    refine ⟨ht, hgrows, hheldt, ?_⟩
    have hsmall : n'.toNat ≤ 8 * BSIZE * BSIZE := ht.le_of_there hip hle fun κ hκ => by
      rw [hthere κ]
      simp [hκ]
    simp only [BSIZE] at hsmall
    rw [take_drop_contents, ← hclamp, hbytes, cInt, if_pos (by omega)]

/-- The contents after a write. -/
theorem contents_splice {off n : ℕ} {mem : ℕ → UInt8} (hw : Wrote P ip off n mem s s')
    (hip : ip ∈ P) (hoff : off ≤ (s.itable ip).size.toNat) {size : UInt32}
    (hsize : size.toNat ≤ max (s.itable ip).size.toNat (off + n)) :
    (List.range size.toNat).map (s'.fileByte ip) =
      (splice (s.contents ip) off ((List.range n).map mem)).take size.toNat := by
  refine List.ext_getElem? fun o => ?_
  have hlt := size.toNat_lt
  rw [List.getElem?_take, getElem?_splice (by simpa using hoff), getElem?_contents,
    List.getElem?_map, List.length_map, List.length_range]
  by_cases ho : o < size.toNat
  · rw [if_pos ho, List.getElem?_range ho, Option.map_some, hw.bytes ip hip o (by omega)]
    by_cases hin : off ≤ o ∧ o < off + n
    · rw [if_pos ⟨rfl, hin⟩, if_pos hin, List.getElem?_map, List.getElem?_range (by omega)]
      rfl
    · rw [if_neg fun hc => hin hc.2, if_neg hin, if_pos (by omega)]
  · rw [if_neg ho, List.getElem?_eq_none (by simpa using ho)]
    rfl

/-- **`writei` is a write to the flat array** of its file, and leaves the other
files as they are. -/
theorem writei_copies (h : Files P s) (hheld : s.blk.held = []) (hip : ip ∈ P) (src : CopySrc)
    (off n : UInt32) :
    Fills Fs.spare (there P) (writei ip src off n) s
      (copyTouched (s.contents ip) ip src off n) fun r s' => Files P s' ∧ s'.blk.held = [] ∧
        r = (flatCopy (s.contents ip) src off n).1 ∧
        s'.contents ip = (flatCopy (s.contents ip) src off n).2 ∧
        (∀ ip' ∈ P, ip' ≠ ip → s'.contents ip' = s.contents ip') ∧
        ∀ ip', s'.itable ip' = { s.itable ip' with
          addrs := (s'.itable ip').addrs, size := (s'.itable ip').size } := by
  unfold writei copyTouched flatCopy
  rw [length_contents]
  refine Fills.of_eq (bind_of_ok (getInode_apply s ip)) rfl rfl ?_
  by_cases hrej : (s.itable ip).size.toNat < off.toNat ∨ 2 ^ 32 ≤ off.toNat + n.toNat
  · rw [if_pos (Or.inl hrej), if_pos (rejected_iff.mpr hrej), if_pos (Or.inl hrej)]
    exact Fills.of_ok rfl rfl (fun _ => rfl) ⟨h, hheld, rfl, rfl, fun _ _ _ => rfl, fun _ => rfl⟩
  have hadd : (off + n).toNat = off.toNat + n.toNat := by
    rw [UInt32.toNat_add]
    omega
  rw [if_neg (mt rejected_iff.mp hrej), hadd]
  by_cases hmax : MAXFILE * BSIZE < off.toNat + n.toNat
  · rw [if_pos (Or.inr hmax), if_pos hmax, if_pos (Or.inr hmax)]
    exact Fills.of_ok rfl rfl (fun _ => rfl) ⟨h, hheld, rfl, rfl, fun _ _ _ => rfl, fun _ => rfl⟩
  have hloop := writeiLoop_fills hip src n.toNat 0 off.toNat n.toNat s le_rfl (by omega) h hheld
  obtain ⟨hcount, hstored⟩ := src.extent_le n.toNat 0 off.toNat n.toNat
  rw [if_neg (not_or.mpr ⟨hrej, hmax⟩), if_neg hmax, if_neg (not_or.mpr ⟨hrej, hmax⟩)]
  generalize src.extent n.toNat 0 off.toNat n.toNat = e at hloop hcount hstored ⊢
  rw [← Finset.union_empty (touched ip off.toNat _)]
  refine Fills.bind hloop fun tot t _ hpost => ?_
  obtain ⟨ht, hheldt, htot, hw⟩ := hpost
  rw [Nat.zero_add] at htot
  subst htot
  -- the loop is over: the new size, and the record on disk
  have hoff : (off + UInt32.ofNat e.1).toNat = off.toNat + e.1 := by
    rw [UInt32.toNat_add, UInt32.toNat_ofNat']
    omega
  generalize off + UInt32.ofNat e.1 = off' at hoff
  have hsizet : (t.itable ip).size = (s.itable ip).size := by rw [hw.inode ip]
  let size := if (t.itable ip).size < off' then off' else (t.itable ip).size
  have hsize : size.toNat = max (s.itable ip).size.toNat (off.toNat + e.1) := by
    show (if (t.itable ip).size < off' then off' else (t.itable ip).size).toNat = _
    rw [hsizet]
    split
    · next hlt =>
      rw [UInt32.lt_iff_toNat_lt, hoff] at hlt
      omega
    · next hlt =>
      rw [UInt32.lt_iff_toNat_lt, hoff] at hlt
      omega
  have hplaces : SamePlaces P t (t.withSize ip size) := samePlaces_withSize size
  have hfiles : Files P (t.withSize ip size) := by
    refine ht.of_node hplaces.gdesc hplaces.bitmap (fun ip' _ => ?_) hplaces.node
    rw [addrs_withSize]
  obtain ⟨u, hu, hsame, hitable, hheldu, hleaf⟩ := hfiles.iupdate hheldt hip
  have hrun : (setInode ip (fun i => { i with size := if i.size < off' then off' else i.size }) >>=
      fun _ => iupdate ip >>= fun _ => pure (e.1 : ℤ)) t = .ok ((e.1 : ℤ), u) := by
    rw [bind_of_ok (setInode_apply t ip _)]
    exact bind_of_ok hu
  have hfile : Files P u :=
    hfiles.of_node hsame.gdesc hsame.bitmap (fun ip' _ => by rw [hitable]) hsame.node
  have hbyte : ∀ ip' ∈ P, ∀ o, u.fileByte ip' o = t.fileByte ip' o := by
    intro ip' hip' o
    unfold Fs.fileByte
    rw [hleaf _ (ok_dataKey hip' _), Fs.leafBlock, node_withSize]
    rfl
  refine Fills.of_ok hrun (by rw [hsame.spare_eq, hplaces.spare_eq])
    (fun κ => by rw [hsame.there_eq, hplaces.there_eq])
    ⟨hfile, hheldu, rfl, ?_, fun ip' hip' hne => ?_, fun ip' => ?_⟩
  · have hnew : (u.itable ip).size = size := by rw [hitable, addrs_withSize, if_pos rfl]
    unfold Fs.contents
    rw [hnew, List.map_congr_left fun o _ => hbyte ip hip o,
      contents_splice hw hip (by omega) (by omega), hsize]
    simp only [Nat.zero_add]
    rfl
  · unfold Fs.contents
    rw [hitable, addrs_withSize, if_neg hne, hw.inode ip']
    refine List.map_congr_left fun o ho => ?_
    have hlt := (s.itable ip').size.toNat_lt
    have ho' : o < (s.itable ip').size.toNat := List.mem_range.mp ho
    rw [hbyte ip' hip' o, hw.bytes ip' hip' o (by omega), if_neg fun hc => hne hc.1]
  · rw [hitable, addrs_withSize, hw.inode ip']

/-- `writei` with a kernel buffer. -/
theorem writei_fills (h : Files P s) (hheld : s.blk.held = []) (hip : ip ∈ P)
    (mem : ℕ → UInt8) (off n : UInt32) :
    Fills Fs.spare (there P) (writei ip (kernelSrc mem) off n) s
      (writeTouched (s.contents ip) ip off n) fun r s' => Files P s' ∧ s'.blk.held = [] ∧
        r = (flatWrite (s.contents ip) mem off n).1 ∧
        s'.contents ip = (flatWrite (s.contents ip) mem off n).2 ∧
        (∀ ip' ∈ P, ip' ≠ ip → s'.contents ip' = s.contents ip') ∧
        ∀ ip', s'.itable ip' = { s.itable ip' with
          addrs := (s'.itable ip').addrs, size := (s'.itable ip').size } := by
  rw [← copyTouched_kernelSrc, ← flatCopy_kernelSrc]
  exact writei_copies h hheld hip (kernelSrc mem) off n

/-! ### Sequences of operations -/

/-- A call of `readi` or `writei` with a kernel buffer. -/
inductive FileOp
  | read (ip : Fin NINODE) (off n : UInt32)
  | write (ip : Fin NINODE) (mem : ℕ → UInt8) (off n : UInt32)

namespace FileOp

/-- The inode that an operation is about. -/
def inode : FileOp → Fin NINODE
  | read ip _ _ => ip
  | write ip _ _ _ => ip

/-- The call: the value returned and the bytes delivered. -/
def run : FileOp → FsM Store (ℤ × List UInt8)
  | read ip off n => readi ip off n
  | write ip mem off n => do
    let r ← writei ip (kernelSrc mem) off n
    return (r, [])

/-- The operation on flat arrays: the value returned, the bytes delivered, and the
new arrays. -/
def flat (f : Fin NINODE → List UInt8) :
    FileOp → (ℤ × List UInt8) × (Fin NINODE → List UInt8)
  | read ip off n => (flatRead (f ip) off n, f)
  | write ip mem off n =>
    (((flatWrite (f ip) mem off n).1, []), update f ip (flatWrite (f ip) mem off n).2)

/-- The places that an operation touches. -/
def touches (f : Fin NINODE → List UInt8) : FileOp → Finset Key
  | read ip off n => readTouched (f ip) ip off n
  | write ip _ off n => writeTouched (f ip) ip off n

/-- A sequence of operations on flat arrays. -/
def flatAll : List FileOp → (Fin NINODE → List UInt8) →
    List (ℤ × List UInt8) × (Fin NINODE → List UInt8)
  | [], f => ([], f)
  | op :: ops, f =>
    ((op.flat f).1 :: (flatAll ops (op.flat f).2).1, (flatAll ops (op.flat f).2).2)

/-- The places that a sequence of operations touches. -/
def touchesAll : List FileOp → (Fin NINODE → List UInt8) → Finset Key
  | [], _ => ∅
  | op :: ops, f => op.touches f ∪ touchesAll ops (op.flat f).2

end FileOp

/-- The arrays that the files `P` stand for. -/
def Fs.arrays (s : Fs Store) (P : Finset (Fin NINODE)) (ip : Fin NINODE) : List UInt8 :=
  if ip ∈ P then s.contents ip else []

/-- The step lemma: one operation is the operation on flat arrays. -/
theorem fileOp_fills (h : Files P s) (hheld : s.blk.held = []) (op : FileOp)
    (hop : op.inode ∈ P) :
    Fills Fs.spare (there P) op.run s (op.touches (s.arrays P)) fun r s' =>
      Files P s' ∧ s'.blk.held = [] ∧ r = (op.flat (s.arrays P)).1 ∧
        s'.arrays P = (op.flat (s.arrays P)).2 := by
  cases op with
  | read ip off n =>
    have hip : ip ∈ P := hop
    have harr : s.arrays P ip = s.contents ip := if_pos hip
    simp only [FileOp.run, FileOp.touches, FileOp.flat, harr]
    refine (readi_fills h hheld hip off n).mono ?_
    rintro r s' ⟨hs', hgrows, hheld', hr⟩
    refine ⟨hs', hheld', hr, funext fun ip' => ?_⟩
    unfold Fs.arrays
    split
    · exact hgrows.contents ‹_›
    · rfl
  | write ip mem off n =>
    have hip : ip ∈ P := hop
    have harr : s.arrays P ip = s.contents ip := if_pos hip
    simp only [FileOp.run, FileOp.touches, FileOp.flat, harr]
    refine Fills.map (writei_fills h hheld hip mem off n) fun r s' _ hpost => ?_
    obtain ⟨hs', hheld', hr, hself, hother, -⟩ := hpost
    refine ⟨hs', hheld', by rw [hr], funext fun ip' => ?_⟩
    by_cases hip' : ip' = ip
    · rw [hip', update_self, Fs.arrays, if_pos hip, hself]
    · rw [update_of_ne hip']
      unfold Fs.arrays
      split
      · exact hother ip' ‹_› hip'
      · rfl

/-- The run lemma: a sequence of operations is the sequence on flat arrays. -/
theorem fileOps_fills (ops : List FileOp) :
    ∀ s : Fs Store, Files P s → s.blk.held = [] → (∀ op ∈ ops, op.inode ∈ P) →
      Fills Fs.spare (there P) (ops.mapM FileOp.run) s (FileOp.touchesAll ops (s.arrays P))
        fun rs s' => Files P s' ∧ s'.blk.held = [] ∧
          rs = (FileOp.flatAll ops (s.arrays P)).1 ∧
          s'.arrays P = (FileOp.flatAll ops (s.arrays P)).2 := by
  induction ops with
  | nil =>
    intro s h hheld _
    exact Fills.of_ok rfl rfl (fun _ => rfl) ⟨h, hheld, rfl, rfl⟩
  | cons op ops ih =>
    intro s h hheld hops
    rw [List.mapM_cons]
    refine Fills.bind (fileOp_fills h hheld op (hops op List.mem_cons_self))
      fun r t _ hpost => ?_
    obtain ⟨ht, hheldt, hr, harr⟩ := hpost
    rw [← harr]
    refine Fills.map (ih t ht hheldt fun op' hop' => hops op' (List.mem_cons_of_mem _ hop'))
      fun rs u _ hpost => ?_
    obtain ⟨hu, hheldu, hrs, harru⟩ := hpost
    refine ⟨hu, hheldu, ?_, ?_⟩
    · rw [FileOp.flatAll, hr, hrs, harr]
    · rw [FileOp.flatAll, harru, harr]

/-- **Files are byte arrays.**  With a free bit for each empty place that is
touched, every sequence of calls on the files `P` returns what it returns on flat
arrays and leaves the contents it leaves there. -/
theorem files_are_arrays (h : Files P s) (hheld : s.blk.held = []) (ops : List FileOp)
    (hops : ∀ op ∈ ops, op.inode ∈ P)
    (henough : missing (there P) s (FileOp.touchesAll ops (s.arrays P)) ≤ s.spare) :
    ∃ s', ops.mapM FileOp.run s = .ok ((FileOp.flatAll ops (s.arrays P)).1, s') ∧
      (∀ ip ∈ P, s'.contents ip = (FileOp.flatAll ops (s.arrays P)).2 ip) ∧
      Files P s' ∧ s'.blk.held = [] := by
  obtain ⟨rs, s', hrun, -, hs', hheld', rfl, harr⟩ :=
    Costs.returns (fileOps_fills ops s h hheld hops) henough
  refine ⟨s', hrun, fun ip hip => ?_, hs', hheld'⟩
  rw [← harr, Fs.arrays, if_pos hip]

/-- The metadata blocks of a list of inodes. -/
def Fs.metaBlocks (s : Fs Store) (ips : List (Fin NINODE)) : List UInt32 :=
  0 :: 2 :: s.gdesc.blockBitmap :: ips.map fun ip => s.recBlock (s.itable ip).inum

instance (s : Fs Store) (b : UInt32) : Decidable (s.InUse b) :=
  inferInstanceAs (Decidable (_ ∧ _))

/-- The part of the invariant about the metadata blocks, in a form that can be
evaluated. -/
def MetaOk (ips : List (Fin NINODE)) (s : Fs Store) : Prop :=
  s.gdesc.blockBitmap ≠ 2 ∧
  (∀ ip ∈ ips, s.recBlock (s.itable ip).inum ≠ 2 ∧
    s.recBlock (s.itable ip).inum ≠ s.gdesc.blockBitmap) ∧
  ∀ b ∈ s.metaBlocks ips, s.bitIndex b < 8 * BSIZE → s.InUse b

/-- The part about the blocks of the files, for files with direct blocks only. -/
def DirectOk (ips : List (Fin NINODE)) (s : Fs Store) : Prop :=
  (∀ ip ∈ ips, ∀ r : Fin 15, NDIRECT ≤ r.val → (s.itable ip).addrs r = 0) ∧
  (∀ ip ∈ ips, ∀ ip' ∈ ips, ∀ r r', (s.itable ip).addrs r ≠ 0 →
    (s.itable ip).addrs r = (s.itable ip').addrs r' → ip = ip' ∧ r = r') ∧
  ∀ ip ∈ ips, ∀ r, (s.itable ip).addrs r ≠ 0 →
    (s.itable ip).addrs r ∉ s.metaBlocks ips ∧ s.InUse ((s.itable ip).addrs r)

/-- The invariant of inodes that have direct blocks only. -/
def DirectFiles (ips : List (Fin NINODE)) (s : Fs Store) : Prop := MetaOk ips s ∧ DirectOk ips s

-- the quantifiers range over lists, never over all block numbers
instance (ips : List (Fin NINODE)) (s : Fs Store) : Decidable (MetaOk ips s) :=
  @instDecidableAnd _ _ inferInstance
    (@instDecidableAnd _ _ (List.decidableBAll _ _) (List.decidableBAll _ _))

instance (ips : List (Fin NINODE)) (s : Fs Store) : Decidable (DirectOk ips s) :=
  @instDecidableAnd _ _ (List.decidableBAll _ _)
    (@instDecidableAnd _ _ (List.decidableBAll _ _) (List.decidableBAll _ _))

instance (ips : List (Fin NINODE)) (s : Fs Store) : Decidable (DirectFiles ips s) :=
  inferInstanceAs (Decidable (_ ∧ _))

theorem DirectFiles.files {ips : List (Fin NINODE)} (h : DirectFiles ips s) :
    Files ips.toFinset s := by
  obtain ⟨⟨hdesc, hrec, hmeta⟩, hdirect, hdist, huse⟩ := h
  have hisMeta : ∀ b, s.IsMeta ips.toFinset b → b ∈ s.metaBlocks ips := by
    rintro b (rfl | rfl | rfl | ⟨ip, hip, rfl⟩)
    · simp [Fs.metaBlocks]
    · simp [Fs.metaBlocks]
    · simp [Fs.metaBlocks]
    · have := List.mem_map_of_mem (f := fun ip => s.recBlock (s.itable ip).inum)
        (List.mem_toFinset.mp hip)
      simp only [Fs.metaBlocks, List.mem_cons]
      exact Or.inr (Or.inr (Or.inr this))
  -- a place with a block is an entry of `addrs`
  have hnode : ∀ κ, κ.Ok ips.toFinset → s.node κ ≠ 0 → κ = (κ.1, []) := by
    rintro ⟨⟨ip, r⟩, l⟩ ⟨hip, hlen⟩ hne
    rcases Nat.lt_or_ge r.val NDIRECT with hr | hr
    · simp only [NDIRECT] at hr
      simp only [indexDepth] at hlen
      rw [List.length_eq_zero_iff.mp (by omega : l.length = 0)]
    · refine absurd ?_ hne
      show Forest.follow 0 s.slot ((s.itable ip).addrs r) l = 0
      rw [hdirect ip (List.mem_toFinset.mp hip) r hr, Forest.follow_null]
  have huse' : ∀ κ, κ.Ok ips.toFinset → s.node κ ≠ 0 →
      s.node κ ∉ s.metaBlocks ips ∧ s.InUse (s.node κ) := by
    intro κ hκ hne
    have hκ₀ := hnode κ hκ hne
    rw [hκ₀] at hne ⊢
    exact huse _ (List.mem_toFinset.mp hκ.1) _ hne
  refine ⟨hdesc, fun ip hip => hrec ip (List.mem_toFinset.mp hip),
    fun b hb => hmeta b (hisMeta b hb), ?_, ?_, fun κ hκ hne => (huse' κ hκ hne).2⟩
  · intro κ κ' hκ hκ' hne heq
    have hκ₀ := hnode κ hκ hne
    have hκ₀' := hnode κ' hκ' (heq ▸ hne)
    rw [hκ₀] at hne
    rw [hκ₀, hκ₀'] at heq
    obtain ⟨hip, hr⟩ := hdist _ (List.mem_toFinset.mp hκ.1) _ (List.mem_toFinset.mp hκ'.1) _ _
      hne heq
    rw [hκ₀, hκ₀', Prod.ext hip hr]
  · exact fun κ hκ hne hm => (huse' κ hκ hne).1 (hisMeta _ hm)

/-- The image with an empty file, inode 12, in entry 0 of the inode table, and the
bits of the bitmap and of the block of its record set. -/
def emptyFileImage : Fs Store :=
  (imageOf [(3, setUsed (setUsed Block.zero 0) 3)]).setItable 0
    ⟨1, 12, 1, true, true, .file, 0, 0, 1, 0, fun _ => 0⟩

theorem files_emptyFileImage : Files {0} emptyFileImage :=
  (by decide +kernel : DirectFiles [0] emptyFileImage).files

/-- Five bytes written to the empty file and read back. -/
theorem files_are_arrays_emptyFileImage : ∃ s',
    [FileOp.write 0 (fun x => UInt8.ofNat (x + 1)) 0 5, FileOp.read 0 0 5].mapM FileOp.run
      emptyFileImage = .ok ([(5, []), (5, [1, 2, 3, 4, 5])], s') ∧
    s'.contents 0 = [1, 2, 3, 4, 5] := by
  have hkeys : FileOp.touchesAll
      [FileOp.write 0 (fun x => UInt8.ofNat (x + 1)) 0 5, FileOp.read 0 0 5]
      (emptyFileImage.arrays {0}) ⊆ {((0, 0), [])} := by
    decide
  have hfirst : FirstFree emptyFileImage.sb emptyFileImage.blockBitmap 1 :=
    ⟨by decide, by decide, by decide⟩
  have hspare : 1 ≤ emptyFileImage.spare := hfirst.freeBits_pos
  have henough : missing (there {0}) emptyFileImage (FileOp.touchesAll
      [FileOp.write 0 (fun x => UInt8.ofNat (x + 1)) 0 5, FileOp.read 0 0 5]
      (emptyFileImage.arrays {0})) ≤ emptyFileImage.spare :=
    le_trans (le_trans (Finset.card_filter_le _ _) (Finset.card_le_card hkeys)) hspare
  obtain ⟨s', hrun, hcontents, -⟩ :=
    files_are_arrays files_emptyFileImage rfl _ (by decide) henough
  exact ⟨s', hrun, hcontents 0 (by decide)⟩

end Store

end Xv6Ext2
