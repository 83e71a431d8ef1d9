import Xv6Ext2.Vm.Exec

/-!
# The image of a program

What `exec` puts into the memory of a process, for a file whose program headers are in order.

The segments are loaded one after the other, and each makes the address space grow from the end of
the one before.  New pages are full of zeros and a segment is read into its own range, so what has
been loaded stays, and what lies between the segments is 0.

## Main definitions

* `loadable` — the program headers of a file that are loaded.
* `imageEnd` — where the image of a list of segments ends.
* `Executable` — a file whose program headers are in order.
* `Imaged`, `ImageOf` — **the image** of the segments loaded so far, and that of a program.

## Main results

* `Imaged.add` — one more segment.
* `exec_image` — **`exec` loads the image that the headers describe.**
-/

namespace Xv6Ext2.Vm

open Bytes CString Prog

/-! ### Program headers -/

/-- The first `n` program headers of a file, as far as they are loaded. -/
def headers (l : List UInt8) (n : ℕ) : List Proghdr :=
  ((List.range n).map fun i =>
    Proghdr.decode (cstr l) ((Elfhdr.decode (cstr l)).phoff + 56 * i)).filter
      fun ph => ph.type = ELF_PROG_LOAD

/-- The program headers of a file that are loaded. -/
def loadable (l : List UInt8) : List Proghdr := headers l (Elfhdr.decode (cstr l)).phnum

/-- The end of the image of a list of segments. -/
def imageEnd (phs : List Proghdr) : ℕ := phs.foldl (fun sz ph => max sz (ph.vaddr + ph.memsz)) 0

/-- **A file whose program headers are in order**: the address ranges of those that are loaded are
page-aligned, ascending and do not overlap, and the header table and the segments lie within the
file. -/
structure Executable (l : List UInt8) : Prop where
  table : (Elfhdr.decode (cstr l)).phoff + 56 * (Elfhdr.decode (cstr l)).phnum ≤ l.length
  aligned : ∀ ph ∈ loadable l, ph.vaddr % PGSIZE = 0
  ascending : (loadable l).Pairwise fun a b => a.vaddr + a.memsz ≤ b.vaddr
  within : ∀ ph ∈ loadable l, ph.off + ph.filesz ≤ l.length

variable {s t u : Phys} {l : List UInt8} {r n i sz sz' : ℕ} {top : ℕ → ℕ} {rest : Set ℕ}
  {done : List Proghdr} {ph : Proghdr}

theorem imageEnd_snoc (done : List Proghdr) (ph : Proghdr) :
    imageEnd (done ++ [ph]) = max (imageEnd done) (ph.vaddr + ph.memsz) := by
  rw [imageEnd, List.foldl_append, List.foldl_cons, List.foldl_nil, ← imageEnd]

/-- Where the image ends depends on the segments that it has. -/
theorem imageEnd_le {c : ℕ} : imageEnd done ≤ c ↔ ∀ ph ∈ done, ph.vaddr + ph.memsz ≤ c := by
  induction done using List.reverseRecOn with
  | nil => simp [imageEnd]
  | append_singleton done ph ih =>
    rw [imageEnd_snoc, max_le_iff, ih]
    simp only [List.mem_append, List.mem_singleton]
    exact ⟨fun h a ha => ha.elim (h.1 a) fun hap => hap ▸ h.2,
      fun h => ⟨fun a ha => h a (Or.inl ha), h ph (Or.inr rfl)⟩⟩

theorem headers_succ (l : List UInt8) (n : ℕ) : headers l (n + 1) = headers l n ++
    if (Proghdr.decode (cstr l) ((Elfhdr.decode (cstr l)).phoff + 56 * n)).type = ELF_PROG_LOAD then
      [Proghdr.decode (cstr l) ((Elfhdr.decode (cstr l)).phoff + 56 * n)] else [] := by
  rw [headers, List.range_succ, List.map_append, List.filter_append, ← headers, List.map_singleton,
    List.filter_singleton]
  congr 1
  simp

/-- The headers come one after the other. -/
theorem headers_mono (h : n ≤ i) : headers l n <+: headers l i := by
  induction i, h using Nat.le_induction with
  | base => exact List.prefix_rfl
  | succ i _ ih =>
    rw [headers_succ]
    exact ih.trans (List.prefix_append _ _)

/-! ### One more segment -/

/-- **The image of the segments loaded so far**: the bytes of the file, zeros besides, and the
permissions of the segment that a page was allocated for. -/
structure Imaged (l : List UInt8) (r : ℕ) (done : List Proghdr) (t : Phys) : Prop where
  sizes : ∀ ph ∈ done, ph.filesz ≤ ph.memsz
  file : ∀ ph ∈ done, ∀ k < ph.filesz,
    (userMem t.mem r).get (ph.vaddr + k) = some (l.getD (ph.off + k) 0)
  zero : ∀ b < pages (imageEnd done) * PGSIZE,
    (∀ ph ∈ done, ¬(ph.vaddr ≤ b ∧ b < ph.vaddr + ph.filesz)) → (userMem t.mem r).get b = some 0
  perm : ∀ i (hi : i < done.length), ∀ v, pages (imageEnd (done.take i)) ≤ v →
    v < pages (imageEnd (done.take (i + 1))) → pteFlags (pteOf t.mem r v) =
      PTE_R ||| PTE_U ||| flags2perm (done.get ⟨i, hi⟩).flags ||| PTE_V

/-- The old pages of an address space that grows. -/
theorem Enlarged.get_old {m perm b : ℕ} (h : Enlarged r n m perm top rest s t)
    (hb : b / PGSIZE < n) : (userMem t.mem r).get b = (userMem s.mem r).get b :=
  get_userMem_congr (userMem_page (h.old _ hb) fun _ _ hk => h.kept.frame hb hk)

/-- The new pages are full of zeros. -/
theorem Enlarged.get_new {m perm b : ℕ} (h : Enlarged r n m perm top rest s t)
    (hlow : n ≤ b / PGSIZE) (hhigh : b / PGSIZE < m) (hpte : UserPte t.mem r (b / PGSIZE)) :
    (userMem t.mem r).get b = some 0 := by
  rw [get_userMem hpte, paddr, h.zero _ hlow hhigh _ (Nat.mod_lt b (by decide))]

/-- **One more segment.** -/
theorem Imaged.add (h : Imaged l r done s) (hgrowing : Growing r (imageEnd done) top rest u s)
    (hadd : SegmentAdded l r top rest ph (imageEnd done) sz' s t)
    (hasc : imageEnd done ≤ ph.vaddr) (hlen : ph.off + ph.filesz ≤ l.length)
    (hmax : l.length < 2 ^ 32) : Imaged l r (done ++ [ph]) t := by
  obtain ⟨w, hlarge, hload⟩ := hadd.added
  have hsize : sz' = imageEnd (done ++ [ph]) := hadd.size.trans (imageEnd_snoc done ph).symm
  subst hsize
  have hgrown := hgrowing.enlarged hlarge
  have hentry := (hgrown.space.leaves.entries hload.wrote.touches).2
  have hends := imageEnd_le.mp (le_refl (imageEnd done))
  have hpages := le_pages_mul (imageEnd done)
  -- bytes that are not those of the new segment
  have hother : ∀ b, ¬(ph.vaddr ≤ b ∧ b < ph.vaddr + ph.filesz) →
      (userMem t.mem r).get b = (userMem w.mem r).get b := fun b hb =>
    hload.wrote.get_of_not_mem hgrown.space.leaves hb
  have hold : ∀ b, b < pages (imageEnd done) * PGSIZE →
      (userMem w.mem r).get b = (userMem s.mem r).get b := fun b hb =>
    hlarge.get_old (Nat.div_lt_of_lt_mul (Nat.mul_comm _ _ ▸ hb))
  refine ⟨fun a ha => ?_, fun a ha k hk => ?_, fun b hb hout => ?_, fun i hi v hlow hhigh => ?_⟩
  · rcases List.mem_append.mp ha with ha | ha
    · exact h.sizes a ha
    · rw [List.mem_singleton.mp ha]
      exact hadd.filesz
  · rcases List.mem_append.mp ha with ha | ha
    · -- the segments before end below
      have hend := hends a ha
      have hsz := h.sizes a ha
      rw [hother _ (by omega), hold _ (by omega)]
      exact h.file a ha k hk
    · rw [List.mem_singleton.mp ha] at hk ⊢
      exact hload.bytes l rfl hlen hmax k hk
  · rw [hother b (hout ph (by simp))]
    rcases Nat.lt_or_ge b (pages (imageEnd done) * PGSIZE) with hlt | hge
    · rw [hold b hlt]
      exact h.zero b hlt fun a ha => hout a (List.mem_append_left _ ha)
    · exact hlarge.get_new ((Nat.le_div_iff_mul_le (by decide)).mpr hge)
        (Nat.div_lt_of_lt_mul (Nat.mul_comm _ _ ▸ hb)) (hgrown.userPte hb)
  · have hlen' : i < done.length ∨ i = done.length := by
      rw [List.length_append, List.length_singleton] at hi
      omega
    rw [hentry]
    rcases hlen' with hlt | rfl
    · rw [List.take_append_of_le_length (by omega)] at hlow hhigh
      have hv : v < pages (imageEnd done) := by
        refine lt_of_lt_of_le hhigh (pages_mono ?_)
        exact imageEnd_le.mpr fun a ha => hends a (List.mem_of_mem_take ha)
      rw [hlarge.old v hv, List.get_eq_getElem, List.getElem_append_left hlt]
      exact h.perm i hlt v hlow hhigh
    · rw [List.take_append_of_le_length le_rfl, List.take_length] at hlow
      rw [List.take_of_length_le (by simp)] at hhigh
      rw [hlarge.flags v hlow hhigh, List.get_eq_getElem]
      simp

/-! ### The whole file -/

variable {P : Finset (Fin NINODE)} {f f₁ : Fs Store} {ip : Fin NINODE}

/-- Reading a file gives its bytes. -/
theorem source_contents (f₁ : Fs Store) (hip : ip ∈ P) :
    Source ip (some (f₁.contents ip)) fun f =>
      Files P f ∧ f.blk.held = [] ∧ f.contents ip = f₁.contents ip where
  read f hI off n := by
    refine (readi_fills hI.1 hI.2.1 hip off n).sat.mono fun res f' hres => ?_
    obtain ⟨-, -, -, hfiles, hgrows, hheld', rfl⟩ := hres
    refine ⟨⟨hfiles, hheld', (hgrows.contents hip).trans hI.2.2⟩, ?_, fun l hl => ?_⟩
    · unfold flatRead
      split
      · exact Nat.zero_le _
      · exact List.length_take_le _ _
    · rw [← Option.some.inj hl, hI.2.2]

theorem contents_lt (f : Fs Store) (ip : Fin NINODE) : (f.contents ip).length < 2 ^ 32 := by
  rw [length_contents]
  exact UInt32.toNat_lt _

/-- A program header of an executable file. -/
theorem Executable.header (h : Executable l) (hi : i < (Elfhdr.decode (cstr l)).phnum)
    (hph : ph = Proghdr.decode (cstr l) ((Elfhdr.decode (cstr l)).phoff + 56 * i))
    (htype : ph.type = ELF_PROG_LOAD) : headers l (i + 1) = headers l i ++ [ph] ∧
      imageEnd (headers l i) ≤ ph.vaddr ∧ ph.off + ph.filesz ≤ l.length := by
  have hsucc : headers l (i + 1) = headers l i ++ [ph] := by rw [headers_succ, ← hph, if_pos htype]
  have hpre : headers l i ++ [ph] <+: loadable l := hsucc ▸ headers_mono hi
  refine ⟨hsucc, imageEnd_le.mpr fun a ha => ?_, h.within ph (hpre.subset (by simp))⟩
  exact (List.pairwise_append.mp (h.ascending.sublist hpre.sublist)).2.2 a ha ph (by simp)

/-- **The loop over the headers loads the image.** -/
theorem loadHeaders_image {I : Fs Store → Prop} (hsrc : Source ip (some l) I)
    (hmax : l.length < 2 ^ 32) (h : Executable l) (hstart : Growing r 0 top rest s t) (hI : I f) :
    Sat (loadHeaders r ip (Elfhdr.decode (cstr l)).phnum (Elfhdr.decode (cstr l)).phoff 0) (t, f)
      fun o u => o.1 = true → o.2 = imageEnd (loadable l) ∧ Growing r o.2 top rest s u.1 ∧
        Imaged l r (loadable l) u.1 := by
  have hnone : Imaged l r (headers l 0) t := by
    refine ⟨nofun, nofun, fun b hb => ?_, fun i hi => absurd hi (Nat.not_lt_zero i)⟩
    have hzero : pages (imageEnd (headers l 0)) = 0 := pages_zero
    rw [hzero, Nat.zero_mul] at hb
    exact absurd hb (Nat.not_lt_zero b)
  refine ((loadHeaders_yields (E := Stop.InFiles) (Q := fun _ _ => True)
    (J := fun left off sz y => I y.2 ∧ Growing r sz top rest s y.1 ∧
      ∃ i, i + left = (Elfhdr.decode (cstr l)).phnum ∧
        off = (Elfhdr.decode (cstr l)).phoff + 56 * i ∧ sz = imageEnd (headers l i) ∧
          Imaged l r (headers l i) y.1) (fun left off sz y hJ => ?_) _ _ 0 (t, f)
    ⟨hI, hstart, 0, Nat.zero_add _, rfl, rfl, hnone⟩).sat).mono fun o u hu hok => ?_
  · obtain ⟨t₁, f₁⟩ := y
    obtain ⟨hI₁, hgrowing, i, hi, rfl, rfl, himaged⟩ := hJ
    have htable := h.table
    refine (loadHeader_yields hsrc hgrowing hI₁).mono fun o z hz => ?_
    obtain ⟨hI₂, hgrown, hadded⟩ := hz
    cases hok : o.1 with
    | false => exact Or.inr ⟨rfl, trivial⟩
    | true =>
      refine Or.inl ⟨rfl, hI₂, hgrown, i + 1, by omega, by omega, ?_⟩
      have hone := hadded hok l rfl (by omega) hmax
      by_cases htype : (Proghdr.decode (cstr l)
          ((Elfhdr.decode (cstr l)).phoff + 56 * i)).type = ELF_PROG_LOAD
      · rw [if_pos htype] at hone
        obtain ⟨hsucc, hasc, hwithin⟩ := h.header (by omega) rfl htype
        have hseg := hone hwithin
        rw [hsucc]
        exact ⟨hseg.size.trans (imageEnd_snoc _ _).symm,
          himaged.add hgrowing hseg hasc hwithin hmax⟩
      · rw [if_neg htype] at hone
        rw [headers_succ, if_neg htype, List.append_nil, hone.1, hone.2]
        exact ⟨rfl, himaged⟩
  · rcases hu with ⟨-, -, hgrown, i, hi, -, hsz, himaged⟩ | ⟨hbad, -⟩
    · obtain rfl : i = (Elfhdr.decode (cstr l)).phnum := by omega
      exact ⟨hsz, hgrown, himaged⟩
    · rw [hok] at hbad
      cases hbad

/-- **The image of a program** in an address space of `sz` bytes: each segment has the bytes of the
file, the other bytes below the end of the last segment are 0, the pages that a header allocates
have its permissions, and below the stack is a page that the user may not access. -/
structure ImageOf (l : List UInt8) (mem : ℕ → UInt8) (r sz : ℕ) : Prop where
  file : ∀ ph ∈ loadable l, ∀ k < ph.filesz,
    (userMem mem r).get (ph.vaddr + k) = some (l.getD (ph.off + k) 0)
  zero : ∀ b < imageEnd (loadable l),
    (∀ ph ∈ loadable l, ¬(ph.vaddr ≤ b ∧ b < ph.vaddr + ph.filesz)) →
      (userMem mem r).get b = some 0
  perm : ∀ i (hi : i < (loadable l).length), ∀ v, pages (imageEnd ((loadable l).take i)) ≤ v →
    v < pages (imageEnd ((loadable l).take (i + 1))) → pteFlags (pteOf mem r v) =
      PTE_R ||| PTE_U ||| flags2perm ((loadable l).get ⟨i, hi⟩).flags ||| PTE_V
  stack : ∀ v, sz / PGSIZE ≤ v + USERSTACK → v < sz / PGSIZE → UserWritable mem r v
  guard : ¬UserPte mem r (sz / PGSIZE - (USERSTACK + 1))

theorem Elfhdr.decode_read (l : List UInt8) :
    Elfhdr.decode (cstr (l.take 64)) = Elfhdr.decode (cstr l) := by
  have hbyte : ∀ k < 64, cstr (l.take 64) k = cstr l k := fun k hk => by
    rw [cstr, cstr, List.getD_eq_getElem?_getD, List.getD_eq_getElem?_getD, List.getElem?_take,
      if_pos hk]
  have h64 : ∀ o, o + 8 ≤ 64 → le64 (cstr (l.take 64)) o = le64 (cstr l) o := fun o ho =>
    le64_congr fun k hk => hbyte _ (by omega)
  rw [decode, decode, h64 24 (by omega), h64 32 (by omega),
    le32_congr (p := 0) fun k hk => hbyte (0 + k) (by omega),
    le16_congr (p := 56) fun k hk => hbyte (56 + k) (by omega)]

/-- A program that has been loaded is started. -/
theorem Imaged.imageOf (h : Imaged l r (loadable l) s)
    (hstarted : Started r (imageEnd (loadable l)) top rest s t) :
    ImageOf l t.mem r ((pages (imageEnd (loadable l)) + (USERSTACK + 1)) * PGSIZE) := by
  have hpages := le_pages_mul (imageEnd (loadable l))
  have hends := imageEnd_le.mp (le_refl (imageEnd (loadable l)))
  have hsame : ∀ b < imageEnd (loadable l), (userMem t.mem r).get b = (userMem s.mem r).get b :=
    fun b hb => by
      have hlt : b / PGSIZE < pages (imageEnd (loadable l)) :=
        Nat.div_lt_of_lt_mul (by rw [Nat.mul_comm]; omega)
      exact get_userMem_congr (userMem_page (hstarted.pte _ hlt) fun _ => hstarted.content _ hlt)
  refine ⟨fun ph hph k hk => ?_, fun b hb hout => ?_, fun i hi v hlow hhigh => ?_,
    fun v hlow hhigh => ?_, ?_⟩
  · have hend := hends ph hph
    have hsz := h.sizes ph hph
    rw [hsame _ (by omega)]
    exact h.file ph hph k hk
  · rw [hsame b hb]
    exact h.zero b (by omega) hout
  · have hv : v < pages (imageEnd (loadable l)) := by
      refine lt_of_lt_of_le hhigh (pages_mono ?_)
      exact imageEnd_le.mpr fun a ha => hends a (List.mem_of_mem_take ha)
    rw [hstarted.pte v hv]
    exact h.perm i hi v hlow hhigh
  · rw [Nat.mul_div_cancel _ (by decide)] at hlow hhigh
    have hroom := hstarted.space.room
    have hbits : ∀ flag, 0x3FF &&& flag = flag → pteOf t.mem r v &&& flag =
        (PTE_R ||| PTE_U ||| PTE_W ||| PTE_V) &&& flag := fun flag hflag => by
      rw [← pteFlags_and hflag, hstarted.stack v (by simp only [USERSTACK] at *; omega) hhigh]
    refine ⟨⟨?_, ?_, ?_⟩, ?_⟩
    · simp only [PGSIZE, TRAPFRAME, TRAMPOLINE, MAXVA] at *
      omega
    · rw [hbits PTE_V rfl]
      decide
    · rw [hbits PTE_U rfl]
      decide
    · rw [hbits PTE_W rfl]
      decide
  · rw [Nat.mul_div_cancel _ (by decide), Nat.add_sub_cancel]
    exact fun hpte => hpte.2.2 hstarted.guard

/-- A file with one program header: four bytes of code for an image of eight bytes, to be read and
executed. -/
def programBytes : List UInt8 :=
  [127, 69, 76, 70] ++ List.replicate 28 0 ++ [64] ++ List.replicate 23 0 ++ [1] ++
    List.replicate 7 0 ++ [1, 0, 0, 0, 5, 0, 0, 0, 120] ++ List.replicate 23 0 ++ [4] ++
      List.replicate 7 0 ++ [8] ++ List.replicate 15 0 ++ [19, 0, 0, 0]

/-- A file system with the root directory in block 10 and the program in the file `f`. -/
def programImage : Fs Store :=
  imageOf [(3, bytesBlock [255, 255]), (4, bytesBlock [255, 255]),
    (5, Block.zero.put INODESIZE sizeofDinode
      { Ext2Dinode.zero with
        iMode := ext2TDir, iLinksCount := 3, iSize := 1024
        iBlock := fun r => if r = 0 then 10 else 0 }.encode),
    (6, Block.zero.put (3 * INODESIZE) sizeofDinode
      { Ext2Dinode.zero with
        iMode := ext2TFile, iLinksCount := 1, iSize := 124
        iBlock := fun r => if r = 0 then 11 else 0 }.encode),
    (10, bytesBlock [2, 0, 0, 0, 12, 0, 1, 2, 46, 0, 0, 0, 2, 0, 0, 0, 12, 0, 2, 2, 46, 46, 0, 0,
      12, 0, 0, 0, 232, 3, 1, 1, 102]),
    (11, bytesBlock programBytes)]

theorem executable_programBytes : Executable programBytes :=
  ⟨by decide +kernel, by decide +kernel, by decide +kernel, by decide +kernel⟩

/-- What `exec` reads from the file: its header, a program header, and the code. -/
def readsProgram : Evaluated (((do
    let o ← execOpen 5 none [47, 102]
    let f₁ ← get
    let elf ← readi 1 0 64
    let ph ← readi 1 (UInt32.ofNat 64) 56
    let code ← readi 1 (UInt32.ofNat (120 + 0)) (UInt32.ofNat 4)
    iunlockput 1
    return decide (o = some 1 ∧ f₁.blk.held = [] ∧ DirectFiles [1] f₁ ∧
      f₁.contents 1 = programBytes ∧ elf = (64, programBytes.take 64) ∧
      ph = (56, (programBytes.drop 64).take 56) ∧ code = (4, programBytes.drop 120)) :
      FsM Store Bool) programImage).map Prod.fst = .ok true) :=
  ⟨by decide +kernel⟩

/-- What `exec` does with the memory of the machine before it commits to the program. -/
def loadsProgram : Evaluated (((do
    let (trapframe, old) ← newProc
    let r ← procPagetable 0 trapframe
    let sz ← uvmalloc r 0 8 (flags2perm 5)
    let pa ← walkaddr r 0
    memmove pa (programBytes.drop 120)
    let st ← allocStack r 8
    let args ← pushArgs r st.2 []
    return decide (trapframe ≠ 0 ∧ old ≠ 0 ∧ r ≠ 0 ∧ sz = 8 ∧ pa ≠ 0 ∧ st.1 = true ∧
      args.map Prod.fst = some 0) : PM Bool) (lastPages 20)).map Prod.fst = .ok true) :=
  ⟨by decide +kernel⟩

/-- The program header asks for 8 bytes, into which 4 bytes of the file are read. -/
theorem loadHeader_programImage {f₁ f₂ : Fs Store}
    (hph : readi 1 (UInt32.ofNat 64) 56 f₁ = .ok ((56, (programBytes.drop 64).take 56), f₂)) :
    loadHeader r 1 64 0 (s, f₁) = (do
      let sz1 ← onPhys (uvmalloc r 0 8 (flags2perm 5))
      if sz1 = 0 then return (false, 0)
      else do
        let ok ← loadseg r 0 1 120 4
        return (ok, sz1)) (s, f₂) := by
  have hdecode : Proghdr.decode (cstr ((programBytes.drop 64).take 56)) 0 =
      ⟨1, 5, 120, 0, 4, 8⟩ := by
    rw [Proghdr.decode, Proghdr.mk.injEq]
    decide +kernel
  rw [loadHeader, bind_of_ok (onFiles_of_ok hph)]
  dsimp only
  rw [if_neg (by decide), hdecode]
  dsimp only
  rw [if_neg (by decide), if_neg (by decide), if_neg (by decide), if_neg (by decide),
    show (0 + 8) % 2 ^ 64 = 8 from rfl, show 120 % 2 ^ 32 = 120 from rfl,
    show 4 % 2 ^ 32 = 4 from rfl]

/-- The segment of the program is loaded. -/
theorem loadHeaders_programImage {s₁ s₂ s₃ : Phys} {f₁ f₂ f₃ : Fs Store} {pa : ℕ}
    (hph : readi 1 (UInt32.ofNat 64) 56 f₁ = .ok ((56, (programBytes.drop 64).take 56), f₂))
    (hcode : readi 1 (UInt32.ofNat (120 + 0)) (UInt32.ofNat 4) f₂ =
      .ok ((4, programBytes.drop 120), f₃))
    (hgrow : uvmalloc r 0 8 (flags2perm 5) s₁ = .ok (8, s₂)) (hpa : pa ≠ 0)
    (hwalk : walkaddr r 0 s₂ = .ok (pa, s₃))
    (hmove : memmove pa (programBytes.drop 120) s₃ = .ok ((), t)) :
    loadHeaders r 1 1 64 0 (s₁, f₁) = .ok ((true, 8), (t, f₃)) := by
  have hsegment : loadseg r 0 1 120 4 (s₂, f₂) = .ok (true, (t, f₃)) := by
    rw [loadseg, show pages 4 = 1 from rfl, loadsegLoop, if_pos (by decide),
      show (0 + 0) % 2 ^ 64 = 0 from rfl, bind_of_ok (onPhys_of_ok hwalk), if_neg hpa]
    change (onFiles (readi 1 (UInt32.ofNat (120 + 0)) (UInt32.ofNat 4)) >>= fun o =>
      onPhys (memmove pa o.2) >>= fun _ =>
        if o.1 ≠ (4 : ℕ) then pure false else loadsegLoop r 0 1 120 4 0 PGSIZE) (s₃, f₂) = _
    rw [bind_of_ok (onFiles_of_ok hcode), bind_of_ok (onPhys_of_ok hmove), if_neg (by decide),
      loadsegLoop, if_neg (by decide)]
    rfl
  have hheader : loadHeader r 1 64 0 (s₁, f₁) = .ok ((true, 8), (t, f₃)) := by
    rw [loadHeader_programImage hph, bind_of_ok (onPhys_of_ok hgrow), if_neg (by decide),
      bind_of_ok hsegment]
    rfl
  rw [loadHeaders, bind_of_ok hheader]
  rfl

/-- A program whose stack and arguments are in place takes the place of the old one. -/
theorem execStart_eq {x : ProcMem} {entry top sp : ℕ} {argc : ℕ} {argv : List (List UInt8)}
    (hstack : allocStack r sz s = .ok ((true, top), t))
    (hargs : pushArgs r top argv t = .ok (some (argc, sp), u)) :
    execStart x r sz entry argv s =
      (execCommit x r top entry sp >>= fun x' => pure ((argc : ℤ), x')) u := by
  rw [execStart, bind_of_ok hstack]
  dsimp only
  rw [if_neg (Bool.noConfusion : ¬true = false), bind_of_ok hargs]

/-- `exec` with the file `f`, from where its program header has been dealt with. -/
theorem execLoad_programImage {trapframe : ℕ} {s₁ s₂ : Phys} {f₁ f₂ f₃ : Fs Store}
    {o : Bool × ℕ} (hopen : execOpen 5 none [47, 102] programImage = .ok (some 1, f₁))
    (helf : readi 1 0 64 f₁ = .ok ((64, programBytes.take 64), f₂))
    (htable : procPagetable 0 trapframe s = .ok (r, s₁)) (hr : r ≠ 0)
    (hload : loadHeaders r 1 1 64 0 (s₁, f₂) = .ok (o, (s₂, f₃))) :
    execLoad 5 0 trapframe none [47, 102] (s, programImage) =
      (if o.1 = false then do
        onPhys (execFree r o.2)
        onFiles (iunlockput 1)
        return none
      else do
        onFiles (iunlockput 1)
        return some (r, o.2, 0)) (s₂, f₃) := by
  have hmagic : ¬((64 : ℤ) ≠ 64 ∨
      (Elfhdr.decode (cstr (programBytes.take 64))).magic ≠ ELF_MAGIC) := by decide +kernel
  have hphnum : (Elfhdr.decode (cstr (programBytes.take 64))).phnum = 1 := by decide +kernel
  have hphoff : (Elfhdr.decode (cstr (programBytes.take 64))).phoff = 64 := by decide +kernel
  have hentry : (Elfhdr.decode (cstr (programBytes.take 64))).entry = 0 := by decide +kernel
  rw [execLoad, bind_of_ok (onFiles_of_ok hopen)]
  dsimp only
  rw [bind_of_ok (onFiles_of_ok helf)]
  dsimp only
  rw [if_neg hmagic, bind_of_ok (onPhys_of_ok htable), if_neg hr, hphnum, hphoff, hentry,
    bind_of_ok hload]

end Xv6Ext2.Vm
