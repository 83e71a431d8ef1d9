import Xv6Ext2.DirScan

/-!
# Lookups in a well-formed directory

What `dirlookup` is for: the first record in use that has the wanted name.  And what it does
on a directory of ext2.

The loop reads a `struct ext2_dirent` of 264 bytes at each record, and a directory ends with
the last record.  So a lookup that comes to a record with less than 264 bytes from
there to the end stops the kernel.  The other difference is in the array `file_name`.  A
record with an empty name leaves in it what the record before has put there, and
the test for an underscore looks at the byte after the header, which is no part of
an empty name.

## Main definitions

* `Ext2Dirent.text`, `Ext2Dirent.Named` — the name of a record, and whether it is the one wanted.
* `found c name` — the record that a lookup is to find.
* `LookupOk` — the lookup returns that record.
* `Clear` — nothing goes wrong up to that record.

## Main results

* `Ext2Dirent.matches_iff_named` — the test of `dirlookup`, in terms of the name.
* `dirlookupLoop_eq` — what the loop does, record by record.
* `lookupOk_iff` — **a lookup finds the record with the name exactly if all records up to it are
  whole and no empty name is mistaken for it.**
-/

namespace Xv6Ext2

open CString Prog

/-! ### Names -/

namespace Ext2Dirent

/-- The name of a record, as a string that ends after `name_len` bytes. -/
def text (de : Ext2Dirent) (i : ℕ) : UInt8 := if i < de.nameLen.toNat then de.name i else 0

/-- The name of the record is the one wanted, or is the one wanted after an underscore. -/
def Named (name : ℕ → UInt8) (de : Ext2Dirent) : Prop :=
  namecmp name de.text = 0 ∨ (de.text 0 = 95 ∧ namecmp name (fun i => de.text (i + 1)) = 0)

instance (name : ℕ → UInt8) (de : Ext2Dirent) : Decidable (de.Named name) :=
  inferInstanceAs (Decidable (_ ∨ _))

/-- An empty name that is mistaken for the wanted one: the byte after the header is an
underscore, and the array has the wanted name from its second byte on. -/
def Stale (name old : ℕ → UInt8) (de : Ext2Dirent) : Prop :=
  de.nameLen = 0 ∧ de.name 0 = 95 ∧ namecmp name (fun i => old (i + 1)) = 0

instance (name old : ℕ → UInt8) (de : Ext2Dirent) : Decidable (de.Stale name old) :=
  inferInstanceAs (Decidable (_ ∧ _ ∧ _))

variable {name old : ℕ → UInt8} {de : Ext2Dirent}

theorem text_nameLen : de.text de.nameLen.toNat = 0 := if_neg (Nat.lt_irrefl _)

/-- The array holds the name up to its end. -/
theorem fileName_eq_text {i : ℕ} (hi : i ≤ de.nameLen.toNat) (hne : ∀ j < i, de.text j ≠ 0) :
    de.fileName old i = de.text i := by
  unfold fileName
  by_cases h : i = de.nameLen.toNat
  · rw [h, Function.update_self, text_nameLen]
  · have hlt : i < de.nameLen.toNat := by omega
    have hname : ∀ j < i, de.name j ≠ 0 := fun j hj => by
      have := hne j hj
      rwa [text, if_pos (by omega)] at this
    rw [Function.update_of_ne h, strncpy, if_pos hlt, if_pos hname, text, if_pos hlt]

/-- The end of the name. -/
theorem exists_end (de : Ext2Dirent) :
    ∃ e ≤ de.nameLen.toNat, de.text e = 0 ∧ ∀ j < e, de.text j ≠ 0 := by
  have hex : ∃ e, de.text e = 0 := ⟨_, text_nameLen⟩
  exact ⟨Nat.find hex, Nat.find_min' hex text_nameLen, Nat.find_spec hex,
    fun j hj => Nat.find_min hex hj⟩

theorem namecmp_fileName : namecmp name (de.fileName old) = namecmp name de.text := by
  obtain ⟨e, hle, hend, hne⟩ := de.exists_end
  have hsame : ∀ i ≤ e, de.fileName old i = de.text i := fun i hi =>
    fileName_eq_text (by omega) fun j hj => hne j (by omega)
  exact strncmp_congr hsame (by rw [hsame e le_rfl, hend]) _ _ (Nat.zero_le _)

/-- Behind its first byte. -/
theorem namecmp_fileName_succ (h : de.text 0 ≠ 0) :
    namecmp name (fun i => de.fileName old (i + 1)) =
      namecmp name (fun i => de.text (i + 1)) := by
  obtain ⟨e, hle, hend, hne⟩ := de.exists_end
  have hpos : e ≠ 0 := by
    rintro rfl
    exact h hend
  have hsame : ∀ i ≤ e, de.fileName old i = de.text i := fun i hi =>
    fileName_eq_text (by omega) fun j hj => hne j (by omega)
  refine strncmp_congr (e := e - 1) (fun i hi => hsame _ (by omega)) ?_ _ _ (Nat.zero_le _)
  rw [Nat.sub_add_cancel (Nat.pos_of_ne_zero hpos), hsame e le_rfl, hend]

/-- **The test of `dirlookup`** holds for the name wanted, and for some empty names. -/
theorem matches_iff_named :
    de.Matches name (de.fileName old) ↔ de.Named name ∨ de.Stale name old := by
  unfold Matches Named Stale
  rw [namecmp_fileName]
  by_cases h0 : de.nameLen = 0
  · have htext : de.text 0 = 0 := if_neg (by rw [h0]; simp)
    have hold : ∀ i, de.fileName old (i + 1) = old (i + 1) := fun i => by
      rw [fileName, h0, Function.update_of_ne (by simp)]
      exact strncpy_of_le (by simp)
    simp only [hold, htext, h0]
    simp
    tauto
  · have hpos : 0 < de.nameLen.toNat := Nat.pos_of_ne_zero fun h => h0 (UInt8.toNat_inj.mp h)
    have htext : de.text 0 = de.name 0 := if_pos hpos
    have hstale : ¬(de.nameLen = 0 ∧ de.name 0 = 95 ∧ namecmp name (fun i => old (i + 1)) = 0) :=
      fun h => h0 h.1
    rw [htext, or_iff_left hstale, or_comm, and_comm]
    refine or_congr_right (and_congr_right fun h95 => ?_)
    rw [namecmp_fileName_succ]
    rw [htext, h95]
    decide

end Ext2Dirent

/-! ### What a lookup is to find -/

/-- The first record in use that has the name. -/
def found (c : List UInt8) (name : ℕ → UInt8) : Option ℕ :=
  (records c).find? fun q => decide ((dirent c q).inode ≠ 0 ∧ (dirent c q).Named name)

/-- From the records `l` on, with the array `old`, nothing goes wrong before the record that
has the name: the records are whole and no empty name is mistaken for it. -/
def Clear (c : List UInt8) (name : ℕ → UInt8) : (ℕ → UInt8) → List ℕ → Prop
  | _, [] => True
  | old, q :: l => q + ext2DirentSize ≤ c.length ∧
    if (dirent c q).inode = 0 then Clear c name old l
    else (dirent c q).Named name ∨
      (¬(dirent c q).Stale name old ∧ Clear c name ((dirent c q).fileName old) l)

/-- The loop of `dirlookup` on the records `l`: the record that it stops at, or no result where
a record is not whole. -/
def scan (c : List UInt8) (name : ℕ → UInt8) : (ℕ → UInt8) → List ℕ → Option (Option ℕ)
  | _, [] => some none
  | old, q :: l =>
    if c.length < q + ext2DirentSize then none
    else if (dirent c q).inode = 0 then scan c name old l
    else if (dirent c q).Matches name ((dirent c q).fileName old) then some (some q)
    else scan c name ((dirent c q).fileName old) l

/-- The loop stops where it is to exactly if nothing goes wrong. -/
theorem scan_eq_iff {c : List UInt8} {name : ℕ → UInt8} {q : ℕ} {l : List ℕ} (h : Walk c q l) :
    ∀ old, scan c name old l =
      some (l.find? fun q => decide ((dirent c q).inode ≠ 0 ∧ (dirent c q).Named name)) ↔
      Clear c name old l := by
  induction h with
  | done => exact fun _ => ⟨fun _ => trivial, fun _ => rfl⟩
  | @record q l hq hroom _ hrest ih =>
    intro old
    rw [scan, Clear, List.find?_cons]
    by_cases hwhole : c.length < q + ext2DirentSize
    · rw [if_pos hwhole]
      exact ⟨fun h => absurd h (by simp), fun h => absurd h.1 (Nat.not_le.mpr hwhole)⟩
    rw [if_neg hwhole, and_iff_right (Nat.le_of_not_lt hwhole)]
    by_cases h0 : (dirent c q).inode = 0
    · rw [if_pos h0, if_pos h0, decide_eq_false fun h => h.1 h0]
      exact ih old
    rw [if_neg h0, if_neg h0]
    by_cases hnamed : (dirent c q).Named name
    · rw [if_pos (Ext2Dirent.matches_iff_named.mpr (Or.inl hnamed)), decide_eq_true ⟨h0, hnamed⟩]
      exact ⟨fun _ => Or.inl hnamed, fun _ => rfl⟩
    rw [decide_eq_false fun h => hnamed h.2, or_iff_right hnamed]
    by_cases hstale : (dirent c q).Stale name old
    · -- the loop stops at a record before those that are left
      rw [if_pos (Ext2Dirent.matches_iff_named.mpr (Or.inr hstale))]
      refine ⟨fun h => ?_, fun h => absurd hstale h.1⟩
      have hmem := List.mem_of_find?_eq_some (Option.some.inj h).symm
      have := hrest.le q hmem
      omega
    · rw [if_neg fun h => (Ext2Dirent.matches_iff_named.mp h).elim hnamed hstale,
        and_iff_right hstale]
      exact ih _

theorem WellFormed.scan_eq_iff {c : List UInt8} (h : WellFormed c) (name old : ℕ → UInt8) :
    scan c name old (records c) = some (found c name) ↔ Clear c name old (records c) :=
  Xv6Ext2.scan_eq_iff h.walk old

/-! ### The loop -/

section Store

variable {P : Finset (Fin NINODE)} {s : Fs Store} {dp : Fin NINODE} {name : ℕ → UInt8}

/-- How a lookup ends. -/
def lookupEnd (s : Fs Store) (dp : Fin NINODE) :
    Option (Option ℕ) → Except Err (Option (Fin NINODE × UInt32) × Fs Store)
  | none => .error (.panic "dirlookup read")
  | some none => .ok (none, s)
  | some (some q) => (do
      let ip ← iget (s.itable dp).dev (dirent (s.contents dp) q).inode
      return some (ip, UInt32.ofNat q) : FsM Store (Option (Fin NINODE × UInt32))) s

/-- **The loop of `dirlookup`**, record by record. -/
theorem dirlookupLoop_eq (hf : Filled s dp) (h : Files P s)
    (hheld : s.blk.held = []) (hdp : dp ∈ P) {q : ℕ} {l : List ℕ}
    (hwalk : Walk (s.contents dp) q l) :
    ∀ (fuel : ℕ) (old : ℕ → UInt8) (off : UInt32), l.length < fuel → off.toNat = q →
      dirlookupLoop dp name fuel old off s = lookupEnd s dp (scan (s.contents dp) name old l) := by
  induction hwalk with
  | done =>
    intro fuel old off hfuel hoff
    obtain ⟨fuel, rfl⟩ := Nat.exists_eq_succ_of_ne_zero (by omega : fuel ≠ 0)
    rw [dirlookupLoop, bind_of_ok (getInode_apply s dp), if_neg]
    · rfl
    · rw [UInt32.lt_iff_toNat_lt, hoff, length_contents]
      exact Nat.lt_irrefl _
  | @record q l hq hroom _ hrest ih =>
    intro fuel old off hfuel hoff
    obtain ⟨fuel, rfl⟩ := Nat.exists_eq_succ_of_ne_zero (by omega : fuel ≠ 0)
    rw [List.length_cons] at hfuel
    subst hoff
    have hlt : off < (s.itable dp).size := by
      rw [length_contents] at hq
      exact UInt32.lt_iff_toNat_lt.mpr hq
    obtain ⟨r, hread, hall, hbytes⟩ :=
      hf.readi_struct h hheld hdp (n := ext2DirentSize) (by decide) hq
    rw [dirlookupLoop, bind_of_ok (getInode_apply s dp), if_pos hlt, bind_of_ok hread, scan]
    by_cases hwhole : (s.contents dp).length < off.toNat + ext2DirentSize
    · rw [if_pos hwhole, if_pos fun hr => absurd (hall.mp hr) (Nat.not_le.mpr hwhole)]
      rfl
    have hfits := Nat.le_of_not_lt hwhole
    rw [if_neg hwhole, if_neg (not_not.mpr (hall.mpr hfits)), hbytes hfits,
      decode_take_drop]
    have hoff' := hrest.toNat_add_recLen
    by_cases h0 : (dirent (s.contents dp) off.toNat).inode = 0
    · rw [if_pos h0, if_pos h0]
      exact ih fuel _ _ (by omega) hoff'
    rw [if_neg h0, if_neg h0]
    split
    · rw [lookupEnd, UInt32.ofNat_toNat]
    · exact ih fuel _ _ (by omega) hoff'

/-- A lookup returns the first record in use that has the name: its inode, and its offset. -/
def LookupOk (s : Fs Store) (dp : Fin NINODE) (name : ℕ → UInt8) : Prop :=
  ∃ fuel x t, dirlookup fuel dp name s = .ok (x, t) ∧
    x.map (fun e => (e.2.toNat, (t.itable e.1).dev, (t.itable e.1).inum)) =
      (found (s.contents dp) name).map fun q =>
        (q, (s.itable dp).dev, (dirent (s.contents dp) q).inode)

/-- There is an entry of the inode table for an inode: its own, or one that is free. -/
def HasEntry (s : Fs Store) (dev inum : UInt32) : Prop :=
  ∃ i, (s.itable i).ref = 0 ∨
    (0 < (s.itable i).ref ∧ (s.itable i).dev = dev ∧ (s.itable i).inum = inum)

theorem lt_of_mem_records (hw : WellFormed (s.contents dp)) {q : ℕ}
    (hq : q ∈ records (s.contents dp)) : (UInt32.ofNat q).toNat = q := by
  have hlt := (hw.walk.of_mem q hq).1
  rw [length_contents] at hlt
  exact UInt32.toNat_ofNat_of_lt' (hlt.trans (UInt32.toNat_lt _))

/-- `dirlookup` on a directory of records without holes, with enough rounds. -/
theorem dirlookup_eq (hf : Filled s dp) (ht : Tiles (s.contents dp) 0) (h : Files P s)
    (hheld : s.blk.held = []) (hdp : dp ∈ P) (hdir : (s.itable dp).type = .dir) (name : ℕ → UInt8)
      {fuel : ℕ}
    (hfuel : (records (s.contents dp)).length < fuel) :
    dirlookup fuel dp name s =
      lookupEnd s dp (scan (s.contents dp) name (cstr s.junk) (records (s.contents dp))) := by
  unfold dirlookup
  rw [bind_of_ok (get_apply s), if_neg (not_not.mpr hdir)]
  exact dirlookupLoop_eq hf h hheld hdp ht.walk_records fuel _ 0 hfuel rfl

theorem mem_of_scan {c : List UInt8} {q : ℕ} : ∀ (l : List ℕ) (old : ℕ → UInt8),
    scan c name old l = some (some q) → q ∈ l := by
  intro l
  induction l with
  | nil => intro old h; cases h
  | cons r l ih =>
    intro old h
    rw [scan] at h
    split at h
    · cases h
    split at h
    · exact List.mem_cons_of_mem _ (ih _ h)
    split at h
    · cases h
      exact List.mem_cons_self
    · exact List.mem_cons_of_mem _ (ih _ h)

/-- **A lookup finds the record with the name exactly if nothing goes wrong before it**: the
records up to it are whole, no empty name is mistaken for it, and the inode table has
room. -/
theorem lookupOk_iff (hw : WellFormed (s.contents dp)) (h : Files P s) (hheld : s.blk.held = [])
    (hdp : dp ∈ P) (hdir : (s.itable dp).type = .dir) (name : ℕ → UInt8) :
    LookupOk s dp name ↔
      Clear (s.contents dp) name (cstr s.junk) (records (s.contents dp)) ∧
        ∀ q, found (s.contents dp) name = some q →
          HasEntry s (s.itable dp).dev (dirent (s.contents dp) q).inode := by
  rw [← hw.scan_eq_iff]
  constructor
  · rintro ⟨fuel, x, t, hrun, hx⟩
    have hlong := dirlookup_mono (le_max_left fuel ((records (s.contents dp)).length + 1)) hrun
    rw [dirlookup_eq hw.filled hw.tiles h hheld hdp hdir name (by omega)] at hlong
    rcases hscan : scan (s.contents dp) name (cstr s.junk) (records (s.contents dp)) with
      _ | _ | q
    · rw [hscan] at hlong
      cases hlong
    · rw [hscan] at hlong
      cases hlong
      have hnone : found (s.contents dp) name = none := by
        rw [Option.map_none, eq_comm, Option.map_eq_none_iff] at hx
        exact hx
      exact ⟨by rw [hnone], fun q hq => by rw [hnone] at hq; cases hq⟩
    · rw [hscan, lookupEnd] at hlong
      obtain ⟨ip, t', higet, hret⟩ := bind_eq_ok.mp hlong
      cases hret
      rw [Option.map_some, eq_comm, Option.map_eq_some_iff] at hx
      obtain ⟨q', hfound, hq'⟩ := hx
      obtain rfl : q' = q := by
        rw [← lt_of_mem_records hw (mem_of_scan _ _ hscan)]
        exact congrArg Prod.fst hq'
      refine ⟨by rw [hfound], fun r hr => ?_⟩
      rw [hfound] at hr
      cases hr
      exact iget_returns_iff.mp ⟨ip, _, higet⟩
  · rintro ⟨hscan, hentry⟩
    have hrun := dirlookup_eq hw.filled hw.tiles h hheld hdp hdir name (Nat.lt_succ_self _)
    rw [hscan] at hrun
    rcases hfound : found (s.contents dp) name with _ | q
    · rw [hfound] at hrun
      exact ⟨_, none, s, hrun, by rw [hfound]; rfl⟩
    · obtain ⟨ip, t, higet⟩ := iget_returns_iff.mpr (hentry q hfound)
      rw [hfound, lookupEnd, bind_of_ok higet] at hrun
      obtain ⟨-, hdev, hinum, -⟩ := iget_spec higet
      have hq : (UInt32.ofNat q).toNat = q :=
        lt_of_mem_records hw (List.mem_of_find?_eq_some hfound)
      refine ⟨_, some (ip, UInt32.ofNat q), t, hrun, ?_⟩
      rw [hfound, Option.map_some, Option.map_some, hq, hdev, hinum]

/-- An image in which inode 0 is a directory of `count` records, as evaluation finds it. -/
structure Directory (s : Fs Store) where
  count : ℕ
  direct : DirectFiles [0] s
  tiles : tilesBool (s.contents 0) count 0 = true
  block : ((records (s.contents 0)).all fun q =>
    q % BSIZE + (dirent (s.contents 0) q).recLen.toNat ≤ BSIZE) = true
  whole : (s.itable 0).size.toNat % BSIZE = 0

theorem Directory.files {s : Fs Store} (d : Directory s) : Files {0} s := d.direct.files

theorem Directory.wellFormed {s : Fs Store} (d : Directory s) : WellFormed (s.contents 0) where
  tiles := .of_bool d.tiles
  block q hq := of_decide_eq_true (List.all_eq_true.mp d.block q hq)
  whole := by rw [length_contents]; exact d.whole

theorem direct_rootImage : DirectFiles [0] rootImage := directFiles_rootImage.holds

theorem tilesBool_rootImage : tilesBool (rootImage.contents 0) 4 0 = true := by decide +kernel

theorem block_rootImage : ((records (rootImage.contents 0)).all fun q =>
    q % BSIZE + (dirent (rootImage.contents 0) q).recLen.toNat ≤ BSIZE) = true := by
  decide +kernel

theorem whole_rootImage : (rootImage.itable 0).size.toNat % BSIZE = 0 := by decide

/-- The fresh root directory. -/
def rootDirectory : Directory rootImage :=
  ⟨4, direct_rootImage, tilesBool_rootImage, block_rootImage, whole_rootImage⟩

/-- In a fresh root directory `lost+found` is found. -/
theorem lookupOk_rootImage :
    LookupOk rootImage 0 (cstr [108, 111, 115, 116, 43, 102, 111, 117, 110, 100]) := by
  have hscan : scan (rootImage.contents 0)
      (cstr [108, 111, 115, 116, 43, 102, 111, 117, 110, 100]) (cstr rootImage.junk)
      (records (rootImage.contents 0)) = some (found (rootImage.contents 0)
        (cstr [108, 111, 115, 116, 43, 102, 111, 117, 110, 100])) := by decide +kernel
  rw [rootDirectory.wellFormed.scan_eq_iff] at hscan
  rw [lookupOk_iff rootDirectory.wellFormed rootDirectory.files rfl
    (Finset.mem_singleton_self 0) rfl]
  constructor
  · assumption
  · exact fun _ _ => ⟨1, Or.inl rfl⟩

/-- The records of a root directory with a file `a`, whose record fills the last 24 bytes. -/
def tailBytes : List UInt8 :=
  [2, 0, 0, 0, 12, 0, 1, 2, 46, 0, 0, 0,
   2, 0, 0, 0, 12, 0, 2, 2, 46, 46, 0, 0,
   11, 0, 0, 0, 208, 3, 10, 2, 108, 111, 115, 116, 43, 102, 111, 117, 110, 100] ++
  List.replicate 958 0 ++ [12, 0, 0, 0, 24, 0, 1, 1, 97]

/-- The image with this directory. -/
def tailImage : Fs Store :=
  (imageOf [(3, setUsed (setUsed (setUsed Block.zero 0) 2) 7),
    (10, bytesBlock tailBytes)]).setItable 0
    ⟨1, 2, 1, true, true, .dir, 0, 0, 3, 1024, fun r => if r = 0 then 10 else 0⟩

/-- The directory of `tailImage`. -/
def tailDirectory : Directory tailImage where
  count := 4
  direct := by decide +kernel
  tiles := by decide +kernel
  block := by decide +kernel
  whole := by decide

/-- **A lookup that stops the kernel**: the record of `a` is the last one, and it
is shorter than a `struct ext2_dirent`. -/
theorem dirlookup_panics_at_tail :
    dirlookup 5 0 (cstr [97]) tailImage = .error (.panic "dirlookup read") ∧
      ¬LookupOk tailImage 0 (cstr [97]) := by
  have hscan : scan (tailImage.contents 0) (cstr [97]) (cstr tailImage.junk)
      (records (tailImage.contents 0)) = none := by decide +kernel
  have hend : ∀ fuel, 4 < fuel →
      dirlookup fuel 0 (cstr [97]) tailImage = .error (.panic "dirlookup read") := by
    intro fuel hlt
    rw [dirlookup_eq tailDirectory.wellFormed.filled tailDirectory.wellFormed.tiles
      tailDirectory.files rfl (Finset.mem_singleton_self 0) rfl _
        (lt_of_le_of_lt (by decide +kernel) hlt), hscan]
    rfl
  refine ⟨hend 5 (by omega), ?_⟩
  rintro ⟨fuel, x, t, hrun, -⟩
  have hlong := dirlookup_mono (le_max_left fuel 5) hrun
  rw [hend _ (by omega)] at hlong
  cases hlong

end Store

end Xv6Ext2
