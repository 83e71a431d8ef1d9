import Xv6Ext2.Lookup
import Xv6Ext2.Unlink

/-!
# Which directories can be removed

`isdirempty` of `kernel/sysfile.c` was made for directories of 16-byte slots that start with a
number: it skips two slots and looks for one whose number is not zero.  On a directory of
ext2 it looks at two bytes of every sixteen, wherever these lie in a record.

## Main definitions

* `Ext2Dirent.IsDot` — a record named `.` or `..`.
* `Visible c q` — `isdirempty` looks at a byte of the record at `q` that is not zero.
* `EmptyOk` — `isdirempty` returns, and says whether there is an entry but `.` and `..`.

## Main results

* `isdirempty_eq` — on a well-formed directory `isdirempty` returns, and finds the directory
  empty exactly if no record is visible.
* `emptyOk_iff` — **`isdirempty` is right exactly if there is a visible record just when there is
  an entry.**
-/

namespace Xv6Ext2

open Bytes CString Prog

/-- The record is named `.` or `..`. -/
def Ext2Dirent.IsDot (de : Ext2Dirent) : Prop :=
  (de.nameLen = 1 ∧ de.name 0 = 46) ∨ (de.nameLen = 2 ∧ de.name 0 = 46 ∧ de.name 1 = 46)

instance (de : Ext2Dirent) : Decidable de.IsDot := inferInstanceAs (Decidable (_ ∨ _))

/-- `isdirempty` looks at a byte of the record at `q` that is not zero: one of the first two
bytes of a slot. -/
def Visible (c : List UInt8) (q : ℕ) : Prop :=
  ∃ p, q ≤ p ∧ p < q + (dirent c q).recLen.toNat ∧ p % direntSize = 0 ∧ 2 * direntSize ≤ p ∧
    (cstr c p ≠ 0 ∨ cstr c (p + 1) ≠ 0)

/-- Every byte of a directory lies in a record. -/
theorem Walk.exists_record {c : List UInt8} {q : ℕ} {l : List ℕ} (h : Walk c q l) {p : ℕ}
    (hq : q ≤ p) (hp : p < c.length) :
    ∃ r ∈ l, r ≤ p ∧ p < r + (dirent c r).recLen.toNat := by
  induction h with
  | done => omega
  | @record q l _ _ _ _ ih =>
    rcases Nat.lt_or_ge p (q + (dirent c q).recLen.toNat) with hlt | hge
    · exact ⟨q, List.mem_cons_self, hq, hlt⟩
    · obtain ⟨r, hr, hrest⟩ := ih hge
      exact ⟨r, List.mem_cons_of_mem _ hr, hrest⟩

/-- A record ends in the directory. -/
theorem Walk.end_le {c : List UInt8} {q : ℕ} {l : List ℕ} (h : Walk c q l) :
    ∀ r ∈ l, r + (dirent c r).recLen.toNat ≤ c.length := by
  induction h with
  | done => intro r hr; cases hr
  | record _ _ _ hrest ih =>
    intro r hr
    rcases List.mem_cons.mp hr with rfl | hr
    · have := hrest.length_le
      omega
    · exact ih r hr

theorem le16_eq_zero_iff {f : ℕ → UInt8} {o : ℕ} : le16 f o = 0 ↔ f o = 0 ∧ f (o + 1) = 0 := by
  have h₀ := (f o).toNat_lt
  have h₁ := (f (o + 1)).toNat_lt
  rw [le16, ← UInt16.toNat_inj, UInt16.toNat_ofNat', ← UInt8.toNat_inj, ← UInt8.toNat_inj]
  simp only [UInt16.toNat_zero, UInt8.toNat_zero]
  omega

section Store

variable {P : Finset (Fin NINODE)} {s : Fs Store} {dp : Fin NINODE}

/-- **The loop of `isdirempty`** has rounds left to do, or says whether the slots from `off` on
start with zeros. -/
theorem isdiremptyLoop_eq (hw : WellFormed (s.contents dp)) (h : Files P s)
    (hheld : s.blk.held = []) (hdp : dp ∈ P) : ∀ (fuel : ℕ) (off : UInt32),
    off.toNat % direntSize = 0 →
      (isdiremptyLoop dp fuel off s = .error .fuel ∧
        (fuel = 0 ∨ off.toNat + direntSize * fuel ≤ (s.contents dp).length)) ∨
      ∃ b, isdiremptyLoop dp fuel off s = .ok (b, s) ∧ (b = true ↔
        ∀ p < (s.contents dp).length, off.toNat ≤ p → p % direntSize = 0 →
          le16 (cstr (s.contents dp)) p = 0) := by
  intro fuel
  induction fuel with
  | zero => exact fun off _ => Or.inl ⟨rfl, Or.inl rfl⟩
  | succ fuel ih =>
    intro off hmod
    rw [isdiremptyLoop, bind_of_ok (getInode_apply s dp)]
    have hwhole := hw.whole
    have hsize := (s.itable dp).size.toNat_lt
    rw [← length_contents] at hsize
    by_cases hoff : off.toNat < (s.contents dp).length
    · have hlt : off < (s.itable dp).size := by
        rw [UInt32.lt_iff_toNat_lt, ← length_contents]
        exact hoff
      -- the size is a multiple of 16, so there is a whole slot
      have hfits : off.toNat + direntSize ≤ (s.contents dp).length := by
        simp only [direntSize, BSIZE] at *
        omega
      obtain ⟨r, hread, hall, hbytes⟩ :=
        hw.filled.readi_struct h hheld hdp (n := direntSize) (by decide) hoff
      have hslot : le16 (cstr r.2) 0 = le16 (cstr (s.contents dp)) off.toNat := by
        rw [hbytes hfits]
        exact le16_congr fun k hk => by
          rw [Nat.zero_add, cstr_take_drop (by simp only [direntSize]; omega)]
      rw [if_pos hlt, bind_of_ok hread, if_neg (not_not.mpr (hall.mpr hfits)), hslot]
      by_cases hzero : le16 (cstr (s.contents dp)) off.toNat = 0
      · have hnext : (off + UInt32.ofNat direntSize).toNat = off.toNat + direntSize := by
          rw [UInt32.toNat_add]
          show (off.toNat + direntSize) % 2 ^ 32 = _
          omega
        rw [if_neg (not_not.mpr hzero)]
        rcases ih (off + UInt32.ofNat direntSize) (by rw [hnext]; simp [hmod]) with
          ⟨herr, hleft⟩ | ⟨b, hrun, hb⟩
        · refine Or.inl ⟨herr, Or.inr ?_⟩
          rw [hnext] at hleft
          simp only [direntSize] at *
          omega
        · refine Or.inr ⟨b, hrun, ?_⟩
          rw [hb, hnext]
          refine ⟨fun hrest p hp hle hpm => ?_, fun hrest p hp hle => hrest p hp (by omega)⟩
          rcases Nat.eq_or_lt_of_le hle with rfl | hlt'
          · exact hzero
          · refine hrest p hp ?_ hpm
            simp only [direntSize] at *
            omega
      · rw [if_pos hzero]
        exact Or.inr ⟨false, rfl, fun hf => (by cases hf),
          fun hrest => absurd (hrest _ hoff le_rfl hmod) hzero⟩
    · have hge : ¬off < (s.itable dp).size := by
        rw [UInt32.lt_iff_toNat_lt, ← length_contents]
        exact hoff
      rw [if_neg hge]
      exact Or.inr ⟨true, rfl, fun _ p hp hle => absurd hp (by omega), fun _ => rfl⟩

/-- **`isdirempty` on a well-formed directory** returns, and finds it empty exactly if no record
is visible. -/
theorem isdirempty_eq (hw : WellFormed (s.contents dp)) (h : Files P s) (hheld : s.blk.held = [])
    (hdp : dp ∈ P) :
    (∃ fuel b t, isdirempty fuel dp s = .ok (b, t)) ∧
      ∀ fuel, Sat (isdirempty fuel dp) s fun b _ =>
        b = true ↔ ∀ q ∈ records (s.contents dp), ¬Visible (s.contents dp) q := by
  have hwhole := hw.whole
  -- the slots that the loop looks at are the visible parts of the records
  have hslots : (∀ p < (s.contents dp).length, 2 * direntSize ≤ p → p % direntSize = 0 →
      le16 (cstr (s.contents dp)) p = 0) ↔
      ∀ q ∈ records (s.contents dp), ¬Visible (s.contents dp) q := by
    constructor
    · rintro hzero q hq ⟨p, -, hlt, hmod, hlow, hne⟩
      have hp := hw.walk.end_le q hq
      have := le16_eq_zero_iff.mp (hzero p (by omega) hlow hmod)
      tauto
    · intro hnone p hp hlow hmod
      obtain ⟨q, hq, hle, hlt⟩ := hw.walk.exists_record (Nat.zero_le p) hp
      by_contra hne
      rw [le16_eq_zero_iff, not_and_or] at hne
      exact hnone q hq ⟨p, hle, hlt, hmod, hlow, hne⟩
  have hloop := isdiremptyLoop_eq hw h hheld hdp
  refine ⟨?_, fun fuel b t hrun => ?_⟩
  · rcases hloop ((s.contents dp).length + 1) (UInt32.ofNat (2 * direntSize)) rfl with
      ⟨-, hleft⟩ | ⟨b, hrun, -⟩
    · simp only [direntSize] at hleft
      omega
    · exact ⟨_, b, s, hrun⟩
  · rcases hloop fuel (UInt32.ofNat (2 * direntSize)) rfl with ⟨herr, -⟩ | ⟨b', hrun', hb⟩
    · rw [isdirempty, herr] at hrun
      cases hrun
    · rw [isdirempty, hrun'] at hrun
      cases hrun
      rw [hb, ← hslots]
      rfl

/-- `isdirempty` returns, and says whether the records in use are named `.` and `..`. -/
def EmptyOk (s : Fs Store) (dp : Fin NINODE) : Prop :=
  ∃ fuel b t, isdirempty fuel dp s = .ok (b, t) ∧
    (b = true ↔ ∀ q ∈ records (s.contents dp), (dirent (s.contents dp) q).inode ≠ 0 →
      (dirent (s.contents dp) q).IsDot)

/-- **`isdirempty` is right exactly if there is a visible record just when there is an entry.** -/
theorem emptyOk_iff (hw : WellFormed (s.contents dp)) (h : Files P s) (hheld : s.blk.held = [])
    (hdp : dp ∈ P) :
    EmptyOk s dp ↔
      ((∀ q ∈ records (s.contents dp), ¬Visible (s.contents dp) q) ↔
        ∀ q ∈ records (s.contents dp), (dirent (s.contents dp) q).inode ≠ 0 →
          (dirent (s.contents dp) q).IsDot) := by
  obtain ⟨⟨fuel, b, t, hrun⟩, hval⟩ := isdirempty_eq hw h hheld hdp
  constructor
  · rintro ⟨fuel', b', t', hrun', hb'⟩
    exact (hval fuel' b' t' hrun').symm.trans hb'
  · intro hiff
    exact ⟨fuel, b, t, hrun, (hval fuel b t hrun).trans hiff⟩

/-- A root directory with `lost+found` is not taken for empty. -/
theorem emptyOk_rootImage : EmptyOk rootImage 0 := by
  obtain ⟨hmem, hbyte, hrec, hentry⟩ : 24 ∈ records (rootImage.contents 0) ∧
      cstr (rootImage.contents 0) 32 ≠ 0 ∧ (dirent (rootImage.contents 0) 24).recLen = 1000 ∧
        (dirent (rootImage.contents 0) 24).inode ≠ 0 ∧
          ¬(dirent (rootImage.contents 0) 24).IsDot := by decide +kernel
  refine (emptyOk_iff rootDirectory.wellFormed rootDirectory.files rfl
    (Finset.mem_singleton_self 0)).mpr
    (iff_of_false (fun hnone => hnone 24 hmem ?_) fun hdots => hentry.2 (hdots 24 hmem hentry.1))
  exact ⟨32, by omega, by rw [hrec]; decide, rfl, le_rfl, Or.inl hbyte⟩

/-- A directory with the file `a`, whose record starts at offset 36 after the one of `..`. -/
def hiddenImage : Fs Store :=
  (imageOf [(3, setUsed (setUsed (setUsed Block.zero 0) 2) 7),
    (10, bytesBlock [2, 0, 0, 0, 12, 0, 1, 2, 46, 0, 0, 0,
      2, 0, 0, 0, 24, 0, 2, 2, 46, 46, 0, 0, 0, 0, 0, 0, 0, 0, 0, 0, 0, 0, 0, 0,
      12, 0, 0, 0, 220, 3, 1, 1, 97])]).setItable 0
    ⟨1, 2, 1, true, true, .dir, 0, 0, 3, 1024, fun r => if r = 0 then 10 else 0⟩

/-- The directory of `hiddenImage`. -/
def hiddenDirectory : Directory hiddenImage where
  count := 4
  direct := by decide +kernel
  tiles := by decide +kernel
  block := by decide +kernel
  whole := by decide

/-- **A directory that is taken for empty and is not.**  The record of `a` has no byte among
those that `isdirempty` looks at. -/
theorem isdirempty_misses_entry :
    (∃ t, isdirempty 64 0 hiddenImage = .ok (true, t)) ∧ ¬EmptyOk hiddenImage 0 := by
  obtain ⟨t, hrun⟩ := exists_of_map_fst (a := true) (m := isdirempty 64 0) (s := hiddenImage)
    (by decide +kernel)
  refine ⟨⟨t, hrun⟩, ?_⟩
  rintro ⟨fuel, b, t', hrun', hb⟩
  obtain ⟨-, hval⟩ := isdirempty_eq hiddenDirectory.wellFormed hiddenDirectory.files rfl
    (Finset.mem_singleton_self 0)
  have hempty : b = true := (hval fuel b t' hrun').mpr ((hval 64 true t hrun).mp rfl)
  have hentry : 36 ∈ records (hiddenImage.contents 0) ∧
      (dirent (hiddenImage.contents 0) 36).inode ≠ 0 ∧
        ¬(dirent (hiddenImage.contents 0) 36).IsDot := by decide +kernel
  exact hentry.2.2 (hb.mp hempty 36 hentry.1 hentry.2.1)

end Store

end Xv6Ext2
