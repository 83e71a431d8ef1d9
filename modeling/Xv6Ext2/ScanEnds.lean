import Xv6Ext2.DirScan
import Xv6Ext2.Sysfile

/-!
# Do the scans of a directory end?

The loops of `dirlookup`, `print_root_files` and `print_cwd_files` go from record to record by
the lengths that they find in the records.  Nothing keeps a length from being zero, and then the
loop reads the same record for ever: a cleared entry of `sys_unlink` is such a record.

On arbitrary bytes, the loops end in one of two ways: they come to an offset
from which less than a `struct ext2_dirent` is left, where they return or panic, or they read a
hole of the directory and there is no block to fill it with.

## Main definitions

* `offsets c n off` — the offsets at which a scan reads in `n` rounds, if it takes that many.
* `ScansEnd` — the loops end after finitely many rounds.

## Main results

* `readi_avoids_fuel` — `readi` itself always ends.
* `printFilesLoop_fuel_iff` — when the listing is still running after a number of rounds.
* `scansEnd_iff` — **the loops end exactly if the offsets do, or the blocks for the holes.**
-/

namespace Xv6Ext2

open CString Prog

/-! ### The functions below end -/

section Avoids

theorem getInode_avoids (ip : Fin NINODE) : Avoids Err.fuel (getInode ip : FsM Store Inode) :=
  fun _ h => by cases h

theorem setInode_avoids (ip : Fin NINODE) (f : Inode → Inode) :
    Avoids Err.fuel (setInode ip f : FsM Store Unit) := fun _ h => by cases h

theorem bread_avoids (dev b : UInt32) : Avoids Err.fuel (bread dev b : FsM Store UInt32) := by
  intro s h
  by_cases hb : b ∈ s.blk.held
  · rw [bread_deadlock hb] at h
    cases h
  · rw [bread_ok hb] at h
    cases h

theorem bdata_avoids (b : UInt32) : Avoids Err.fuel (bdata b : FsM Store Block) :=
  fun _ h => by cases h

theorem bstore_avoids (b : UInt32) (d : Block) : Avoids Err.fuel (bstore b d : FsM Store Unit) :=
  fun _ h => by cases h

theorem bwrite_avoids (b : UInt32) : Avoids Err.fuel (bwrite b : FsM Store Unit) := by
  intro s h
  by_cases hb : b ∈ s.blk.held <;> simp [bwrite, FsM.onBlk, BlockLayer.bwrite, hb, Except.map] at h

theorem brelse_avoids (b : UInt32) : Avoids Err.fuel (brelse b : FsM Store Unit) := by
  intro s h
  by_cases hb : b ∈ s.blk.held <;> simp [brelse, FsM.onBlk, BlockLayer.brelse, hb, Except.map] at h

theorem ext2fsFreeBlockLoop_ne (bitmap : Block) : ∀ n i : ℕ,
    ext2fsFreeBlockLoop bitmap n i ≠ .error .fuel := by
  intro n
  induction n with
  | zero => intro i h; cases h
  | succ n ih =>
    intro i h
    rw [ext2fsFreeBlockLoop] at h
    split at h
    · cases h
    · split at h
      · cases h
      · exact ih _ h

theorem balloc_avoids (dev : UInt32) : Avoids Err.fuel (balloc dev : FsM Store UInt32) := by
  have hbzero : ∀ b, Avoids Err.fuel (bzero dev b : FsM Store Unit) := fun b =>
    (bread_avoids dev b).bind fun _ => (bstore_avoids _ _).bind fun _ =>
      (bwrite_avoids _).bind fun _ => brelse_avoids _
  have hdesc : Avoids Err.fuel (readGroupDesc dev : FsM Store GroupDesc) :=
    (bread_avoids dev 2).bind fun _ => (bdata_avoids _).bind fun _ =>
      (brelse_avoids _).bind fun _ => Avoids.pure _
  refine hdesc.bind fun gdesc => (bread_avoids dev _).bind fun bp => (bdata_avoids bp).bind
    fun bitmap => Avoids.bind (fun _ h => by cases h) fun s => ?_
  refine Avoids.bind ?_ fun r => ?_
  · intro t h
    unfold FsM.ofExcept at h
    split at h
    · cases h
    · next e he =>
      cases h
      exact ext2fsFreeBlockLoop_ne _ _ _ he
  · rcases r with _ | ⟨fbit, bitmap'⟩
    · exact (brelse_avoids _).bind fun _ => Avoids.throw (by decide)
    · exact (bstore_avoids _ _).bind fun _ => (bwrite_avoids _).bind fun _ =>
        (hbzero _).bind fun _ => (brelse_avoids _).bind fun _ => Avoids.pure _

theorem addrSlot_avoids (ip : Fin NINODE) (k : Fin 15) :
    Avoids Err.fuel (addrSlot balloc ip k : FsM Store UInt32) :=
  (getInode_avoids ip).bind fun _ => Avoids.ite
    (fun _ => (balloc_avoids _).bind fun _ => (setInode_avoids _ _).bind fun _ => Avoids.pure _)
    fun _ => Avoids.pure _

theorem indexWalk_avoids (dev : UInt32) : ∀ (js : List ℕ) (bps : List UInt32) (addr : UInt32),
    Avoids Err.fuel (indexWalk balloc dev bps addr js : FsM Store UInt32) := by
  intro js
  induction js with
  | nil => exact fun bps addr => (Avoids.forM brelse_avoids bps).bind fun _ => Avoids.pure _
  | cons j js ih =>
    intro bps addr
    refine (bread_avoids dev addr).bind fun bp => Avoids.bind ?_ fun next => ih _ _
    exact (bdata_avoids bp).bind fun a => Avoids.ite
      (fun _ => (balloc_avoids dev).bind fun _ => (bdata_avoids bp).bind fun _ =>
        (bstore_avoids _ _).bind fun _ => Avoids.pure _) fun _ => Avoids.pure _

theorem bmap_avoids (ip : Fin NINODE) (bn : ℕ) : Avoids Err.fuel (bmap ip bn : FsM Store UInt32) :=
  (getInode_avoids ip).bind fun i =>
    Avoids.ite (fun _ => addrSlot_avoids _ _) fun _ =>
    Avoids.ite (fun _ => (addrSlot_avoids _ _).bind fun _ => indexWalk_avoids _ _ _ _) fun _ =>
    Avoids.ite (fun _ => (addrSlot_avoids _ _).bind fun _ => indexWalk_avoids _ _ _ _) fun _ =>
    Avoids.ite (fun _ => (addrSlot_avoids _ _).bind fun _ => indexWalk_avoids _ _ _ _) fun _ =>
    Avoids.throw (by decide)

theorem readiLoop_avoids (ip : Fin NINODE) : ∀ fuel off n : ℕ, n ≤ fuel →
    Avoids Err.fuel (readiLoop ip fuel off n : FsM Store (List UInt8)) := by
  intro fuel
  induction fuel with
  | zero =>
    intro off n hn
    obtain rfl : n = 0 := by omega
    exact Avoids.pure _
  | succ fuel ih =>
    intro off n hn
    rcases n with _ | n
    · exact Avoids.pure _
    have hmod : off % BSIZE < BSIZE := Nat.mod_lt _ (by decide)
    exact (getInode_avoids ip).bind fun _ => (bmap_avoids ip _).bind fun _ =>
      (bread_avoids _ _).bind fun _ => (bdata_avoids _).bind fun _ => (brelse_avoids _).bind
        fun _ => (ih _ _ (by omega)).bind fun _ => Avoids.pure _

/-- `readi` itself always ends. -/
theorem readi_avoids_fuel (ip : Fin NINODE) (off n : UInt32) :
    Avoids Err.fuel (readi ip off n : FsM Store (ℤ × List UInt8)) :=
  (getInode_avoids ip).bind fun _ => Avoids.ite (fun _ => Avoids.pure _) fun _ =>
    (readiLoop_avoids ip _ _ _ le_rfl).bind fun _ => Avoids.pure _

theorem iget_avoids (dev inum : UInt32) :
    Avoids Err.fuel (iget dev inum : FsM Store (Fin NINODE)) := by
  refine Avoids.bind (fun _ h => by cases h) fun s => ?_
  split
  · exact (setInode_avoids _ _).bind fun _ => Avoids.pure _
  · split
    · exact Avoids.throw (by simp)
    · exact (setInode_avoids _ _).bind fun _ => Avoids.pure _

end Avoids

/-! ### Offsets -/

/-- The offsets at which a scan from `off` on reads in `n` rounds.  There is no result where the
scan ends before. -/
def offsets (c : List UInt8) : ℕ → UInt32 → Option (List UInt32)
  | 0, _ => some []
  | n + 1, off =>
    if off.toNat + ext2DirentSize ≤ c.length then
      (offsets c n (off + (dirent c off.toNat).recLen.toUInt32)).map (off :: ·)
    else none

/-- The places on the paths of the records at the offsets. -/
def recordPlaces (dp : Fin NINODE) : List UInt32 → Finset Key
  | [] => ∅
  | off :: offs => touched dp off.toNat ext2DirentSize ∪ recordPlaces dp offs

/-- The scan reads whole records for `n` rounds, and there are enough blocks to fill the holes
that it meets. -/
def GoesOn (P : Finset (Fin NINODE)) (s : Fs Store) (dp : Fin NINODE) (n : ℕ) (off : UInt32) :
    Prop :=
  ∃ offs, offsets (s.contents dp) n off = some offs ∧
    missing (there P) s (recordPlaces dp offs) ≤ s.spare

section Store

variable {P : Finset (Fin NINODE)} {s t : Fs Store} {dp : Fin NINODE}

/-- Reading a record that is there as a whole. -/
theorem readi_whole (h : Files P s) (hheld : s.blk.held = []) (hdp : dp ∈ P) {off : UInt32}
    (hle : off.toNat + ext2DirentSize ≤ (s.contents dp).length) :
    Fills Fs.spare (there P) (readi dp off (UInt32.ofNat ext2DirentSize)) s
      (touched dp off.toNat ext2DirentSize) fun r t => Files P t ∧ Grows P s t ∧
        t.blk.held = [] ∧ r.1 = ext2DirentSize ∧
          Ext2Dirent.decode (cstr r.2) 0 = dirent (s.contents dp) off.toNat := by
  have hsize := (s.itable dp).size.toNat_lt
  rw [length_contents] at hle
  have hn : (UInt32.ofNat ext2DirentSize).toNat = ext2DirentSize := rfl
  have hmin : min ext2DirentSize ((s.itable dp).size.toNat - off.toNat) = ext2DirentSize := by
    omega
  have hread := readi_fills h hheld hdp off (UInt32.ofNat ext2DirentSize)
  rw [readTouched, flatRead, length_contents, if_neg (by omega), if_neg (by omega), hn,
    hmin] at hread
  refine hread.mono fun r t hpost => ?_
  obtain ⟨hfiles, hgrows, hheld', rfl⟩ := hpost
  exact ⟨hfiles, hgrows, hheld', rfl, decode_take_drop _ _⟩

/-- A record that is not there as a whole is not read as one. -/
theorem readi_struct_short (h : Files P s) (hheld : s.blk.held = []) (hdp : dp ∈ P) {off : UInt32}
    (hlt : (s.contents dp).length < off.toNat + ext2DirentSize) :
    Sat (readi dp off (UInt32.ofNat ext2DirentSize)) s fun r _ => r.1 ≠ ext2DirentSize := by
  refine (readi_fills h hheld hdp off _).sat.mono fun r t hpost => ?_
  obtain ⟨-, -, -, -, -, -, rfl⟩ := hpost
  have hn : (UInt32.ofNat ext2DirentSize).toNat = ext2DirentSize := rfl
  unfold flatRead
  rw [hn]
  split
  · decide
  · dsimp only
    omega

/-- **One more round**: the record is whole, and from the state in which it has been read the
scan goes on. -/
theorem goesOn_succ_iff (h : Files P s) (hheld : s.blk.held = []) (hdp : dp ∈ P) {off : UInt32}
    {n : ℕ} :
    GoesOn P s dp (n + 1) off ↔ off.toNat + ext2DirentSize ≤ (s.contents dp).length ∧
      ∃ r t, readi dp off (UInt32.ofNat ext2DirentSize) s = .ok (r, t) ∧
        GoesOn P t dp n (off + (dirent (s.contents dp) off.toNat).recLen.toUInt32) := by
  unfold GoesOn
  rw [offsets]
  by_cases hwhole : off.toNat + ext2DirentSize ≤ (s.contents dp).length
  · rw [if_pos hwhole, and_iff_right hwhole]
    have hread := readi_whole h hheld hdp hwhole
    constructor
    · rintro ⟨offs, hoffs, henough⟩
      obtain ⟨offs, hrest, rfl⟩ := Option.map_eq_some_iff.mp hoffs
      obtain ⟨r, t, hrun, henough', -, hgrows, -⟩ :=
        hread.returns_of_subset (Finset.subset_union_left) henough
      refine ⟨r, t, hrun, offs, by rw [hgrows.contents hdp]; exact hrest, ?_⟩
      refine le_trans (Finset.card_le_card ?_) henough'
      exact Finset.filter_subset_filter _ Finset.subset_union_right
    · rintro ⟨r, t, hrun, offs, hoffs, henough⟩
      obtain ⟨hle, hspare, hthere, -, hgrows, -⟩ := hread.sat r t hrun
      rw [hgrows.contents hdp] at hoffs
      refine ⟨off :: offs, by rw [hoffs]; rfl, ?_⟩
      have hadd := missing_add (recordPlaces dp offs) hthere
      rw [recordPlaces]
      omega
  · rw [if_neg hwhole]
    constructor
    · rintro ⟨_, hnone, -⟩
      cases hnone
    · exact fun hwhole' => absurd hwhole'.1 hwhole

/-- **The listing is still running after `n` rounds** exactly if the scan goes on for that
long. -/
theorem printFilesLoop_fuel_iff (hdp : dp ∈ P) : ∀ (n : ℕ) (s : Fs Store) (off : UInt32),
    Files P s → s.blk.held = [] →
    (printFilesLoop dp n off s = .error .fuel ↔ GoesOn P s dp n off) := by
  intro n
  induction n with
  | zero => exact fun s off _ _ => ⟨fun _ => ⟨[], rfl, Nat.zero_le _⟩, fun _ => rfl⟩
  | succ n ih =>
    intro s off h hheld
    rw [printFilesLoop, bind_of_ok (getInode_apply s dp), goesOn_succ_iff h hheld hdp]
    by_cases hwhole : off.toNat + ext2DirentSize ≤ (s.contents dp).length
    · have hlt : off < (s.itable dp).size := by
        rw [length_contents] at hwhole
        rw [UInt32.lt_iff_toNat_lt]
        simp only [ext2DirentSize] at hwhole
        omega
      rw [if_pos hlt, and_iff_right hwhole]
      rcases hrun : readi dp off (UInt32.ofNat ext2DirentSize) s with e | ⟨r, t⟩
      · rw [bind_of_error hrun]
        refine ⟨fun he => absurd (hrun.trans ?_) (readi_avoids_fuel dp off _ s), ?_⟩
        · cases he
          rfl
        · rintro ⟨r, t, hok, -⟩
          cases hok
      · obtain ⟨-, -, -, hfiles, hgrows, hheld', hr, hde⟩ :=
          (readi_whole h hheld hdp hwhole).sat r t hrun
        rw [bind_of_ok hrun, if_neg (not_not.mpr hr), hde,
          bind_eq_error_iff fun rest => Avoids.ite (fun _ => Avoids.pure _) fun _ => Avoids.pure _,
          ih t _ hfiles hheld']
        refine ⟨fun hgo => ⟨r, t, rfl, hgo⟩, ?_⟩
        rintro ⟨r', t', hok, hgo⟩
        cases hok
        exact hgo
    · refine ⟨fun he => ?_, fun hgo => absurd hgo.1 hwhole⟩
      split at he
      · rcases hrun : readi dp off (UInt32.ofNat ext2DirentSize) s with e | ⟨r, t⟩
        · rw [bind_of_error hrun] at he
          cases he
          exact absurd hrun (readi_avoids_fuel dp off _ s)
        · have hr := readi_struct_short h hheld hdp (Nat.lt_of_not_le hwhole) r t hrun
          rw [bind_of_ok hrun, if_pos hr] at he
          cases he
      · cases he

/-- A lookup that is still running after `n` rounds has scanned for that long. -/
theorem goesOn_of_dirlookupLoop (hdp : dp ∈ P) {name : ℕ → UInt8} : ∀ (n : ℕ) (s : Fs Store)
    (fileName : ℕ → UInt8) (off : UInt32), Files P s → s.blk.held = [] →
    dirlookupLoop dp name n fileName off s = .error .fuel → GoesOn P s dp n off := by
  intro n
  induction n with
  | zero => exact fun s _ off _ _ _ => ⟨[], rfl, Nat.zero_le _⟩
  | succ n ih =>
    intro s fileName off h hheld he
    rw [dirlookupLoop, bind_of_ok (getInode_apply s dp)] at he
    split at he
    · rcases hrun : readi dp off (UInt32.ofNat ext2DirentSize) s with e | ⟨r, t⟩
      · rw [bind_of_error hrun] at he
        cases he
        exact absurd hrun (readi_avoids_fuel dp off _ s)
      rw [bind_of_ok hrun] at he
      by_cases hwhole : off.toNat + ext2DirentSize ≤ (s.contents dp).length
      · obtain ⟨-, -, -, hfiles, hgrows, hheld', hr, hde⟩ :=
          (readi_whole h hheld hdp hwhole).sat r t hrun
        rw [if_neg (not_not.mpr hr), hde] at he
        refine (goesOn_succ_iff h hheld hdp).mpr ⟨hwhole, r, t, hrun, ?_⟩
        -- unused, found or another one: only a record that is not found leads on
        split at he
        · exact ih t _ _ hfiles hheld' he
        · split at he
          · rw [bind_eq_error_iff fun ip => Avoids.pure _] at he
            exact absurd he (iget_avoids _ _ t)
          · exact ih t _ _ hfiles hheld' he
      · have hr := readi_struct_short h hheld hdp (Nat.lt_of_not_le hwhole) r t hrun
        rw [if_pos hr] at he
        cases he
    · cases he

/-- The record loops of `dirlookup`, for every name, and of `print_root_files` and
`print_cwd_files` take finitely many rounds before they return or panic. -/
def ScansEnd (s : Fs Store) (dp : Fin NINODE) : Prop :=
  (∀ name fileName : ℕ → UInt8, ∃ n, dirlookupLoop dp name n fileName 0 s ≠ .error .fuel) ∧
    ∃ n, printFilesLoop dp n 0 s ≠ .error .fuel

/-- **The loops end exactly if the offsets do, or the blocks for the holes**: after some number
of rounds the offset is one from which no record can be read as a whole, or the scan has
met more missing blocks than are free. -/
theorem scansEnd_iff (h : Files P s) (hheld : s.blk.held = []) (hdp : dp ∈ P) :
    ScansEnd s dp ↔ ∃ n, ∀ offs, offsets (s.contents dp) n 0 = some offs →
      s.spare < missing (there P) s (recordPlaces dp offs) := by
  have hgoes : ∀ n, ¬GoesOn P s dp n 0 ↔ ∀ offs, offsets (s.contents dp) n 0 = some offs →
      s.spare < missing (there P) s (recordPlaces dp offs) := fun n => by
    unfold GoesOn
    push Not
    rfl
  constructor
  · rintro ⟨-, n, hn⟩
    exact ⟨n, (hgoes n).mp fun hgo => hn ((printFilesLoop_fuel_iff hdp n s 0 h hheld).mpr hgo)⟩
  · rintro ⟨n, hn⟩
    have hstop := (hgoes n).mpr hn
    refine ⟨fun name fileName => ⟨n, fun he => hstop ?_⟩, n, fun he => hstop ?_⟩
    · exact goesOn_of_dirlookupLoop hdp n s fileName 0 h hheld he
    · exact (printFilesLoop_fuel_iff hdp n s 0 h hheld).mp he

def offsets_rootImage : Evaluated (offsets (rootImage.contents 0) 4 0 = none) :=
  ⟨by decide +kernel⟩

/-- In a fresh root directory the loops end. -/
theorem scansEnd_rootImage : ScansEnd rootImage 0 := by
  refine (scansEnd_iff files_rootImage rfl (Finset.mem_singleton_self 0)).mpr ⟨4, fun offs h => ?_⟩
  rw [offsets_rootImage.holds] at h
  cases h

/-! ### A cleared record -/

/-- A scan that has come to a record of length 0 stays there. -/
theorem offsets_of_recLen_zero {c : List UInt8} {off : UInt32}
    (hwhole : off.toNat + ext2DirentSize ≤ c.length) (hzero : (dirent c off.toNat).recLen = 0) :
    ∀ n, offsets c n off = some (List.replicate n off) := by
  intro n
  induction n with
  | zero => rfl
  | succ n ih =>
    have hsame : off + (dirent c off.toNat).recLen.toUInt32 = off := by
      rw [hzero]
      exact UInt32.add_zero off
    rw [offsets, if_pos hwhole, hsame, ih]
    rfl

/-- Records in blocks that are there need no block. -/
theorem missing_recordPlaces {offs : List UInt32}
    (h : ∀ off ∈ offs, ∀ κ ∈ touched dp off.toNat ext2DirentSize, there P s κ = true) :
    missing (there P) s (recordPlaces dp offs) = 0 := by
  rw [missing, Finset.card_eq_zero, Finset.filter_eq_empty_iff]
  induction offs with
  | nil => exact fun κ hκ => absurd hκ (Finset.notMem_empty κ)
  | cons off offs ih =>
    intro κ hκ
    rw [recordPlaces, Finset.mem_union] at hκ
    rcases hκ with hκ | hκ
    · rw [h off List.mem_cons_self κ hκ]
      decide
    · exact ih (fun off hoff => h off (List.mem_cons_of_mem _ hoff)) hκ

/-- A root directory in which `sys_unlink` has cleared the record after `..`. -/
def clearedImage : Fs Store :=
  (imageOf [(3, setUsed (setUsed (setUsed Block.zero 0) 2) 7),
    (10, bytesBlock [2, 0, 0, 0, 12, 0, 1, 2, 46, 0, 0, 0,
      2, 0, 0, 0, 12, 0, 2, 2, 46, 46, 0, 0])]).setItable 0
    ⟨1, 2, 1, true, true, .dir, 0, 0, 3, 1024, fun r => if r = 0 then 10 else 0⟩

def directFiles_clearedImage : Evaluated (DirectFiles [0] clearedImage) :=
  ⟨by decide +kernel⟩

theorem files_clearedImage : Files {0} clearedImage :=
  directFiles_clearedImage.holds.files

def recLen_clearedImage : Evaluated (
    (0 : UInt32) + (dirent (clearedImage.contents 0) (UInt32.toNat 0)).recLen.toUInt32 = 12 ∧
      (12 : UInt32) + (dirent (clearedImage.contents 0) (UInt32.toNat 12)).recLen.toUInt32 = 24 ∧
        (dirent (clearedImage.contents 0) (UInt32.toNat 24)).recLen = 0) :=
  ⟨by decide +kernel⟩

/-- The scan reads the first two records and then stays at the cleared one. -/
theorem offsets_clearedImage (n : ℕ) : ∃ offs, offsets (clearedImage.contents 0) n 0 = some offs ∧
    ∀ off ∈ offs, off = 0 ∨ off = 12 ∨ off = 24 := by
  have hlen : (clearedImage.contents 0).length = 1024 := length_contents
  obtain ⟨hfirst, hsecond, hzero⟩ := recLen_clearedImage.holds
  rcases n with _ | _ | n
  · exact ⟨[], rfl, fun off h => absurd h List.not_mem_nil⟩
  · refine ⟨[0], ?_, fun off h => Or.inl (List.mem_singleton.mp h)⟩
    rw [offsets, if_pos (by rw [hlen]; decide)]
    rfl
  · refine ⟨0 :: 12 :: List.replicate n 24, ?_, fun off h => ?_⟩
    · rw [offsets, if_pos (by rw [hlen]; decide), hfirst, offsets, if_pos (by rw [hlen]; decide),
        hsecond, offsets_of_recLen_zero (by rw [hlen]; decide) hzero]
      rfl
    · rcases List.mem_cons.mp h with h | h
      · exact Or.inl h
      · rcases List.mem_cons.mp h with h | h
        · exact Or.inr (Or.inl h)
        · exact Or.inr (Or.inr (List.eq_of_mem_replicate h))

/-- **A listing that never ends**: it reads the cleared record over and over. -/
theorem printFilesLoop_runs_on : ¬ScansEnd clearedImage 0 := by
  rintro ⟨-, n, hn⟩
  refine hn ((printFilesLoop_fuel_iff (Finset.mem_singleton_self 0) n clearedImage 0
    files_clearedImage rfl).mpr ?_)
  obtain ⟨offs, hoffs, hmem⟩ := offsets_clearedImage n
  refine ⟨offs, hoffs, ?_⟩
  rw [missing_recordPlaces fun off hoff κ hκ => ?_]
  · exact Nat.zero_le _
  · -- the records are in the first block, which is there
    have hin : off.toNat + ext2DirentSize ≤ BSIZE := by
      rcases hmem off hoff with rfl | rfl | rfl <;> decide
    rw [touched, Finset.mem_biUnion] at hκ
    obtain ⟨x, hx, hκ⟩ := hκ
    have hx' := Finset.mem_range.mp hx
    rw [Nat.div_eq_of_lt (by omega)] at hκ
    revert κ
    decide +kernel

end Store

end Xv6Ext2
