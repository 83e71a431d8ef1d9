import Xv6Ext2.FileWrite
import Xv6Ext2.ReadWrite
import Xv6Ext2.UserMem

/-!
# Files and the memory of a process

`readi` and `writei` with user addresses, and `fileread` of `kernel/file.c`.  Both functions
copy block by block.

`readi` does not look at the result of a copy and goes on behind what has not been delivered.
`writei` stops at a copy that fails, but what the copy has stored in the block stays there.

## Main definitions

* `userSrc` — a source of `writei` in the memory of a process.
* `readiUser`, `fileread` — reading a file into the memory of a process.
* `Received` — a byte of a read that gets through.

## Main results

* `extent_userSrc` — `writei` counts whole blocks and stores what can be read.
* `writeReports_iff` — **`writei` changes what it reports if the copy that fails changes
  nothing.**
* `get_deliver` — the memory after a read.
* `delivers_iff` — **a read delivers what it reports if every byte gets through.**
-/

namespace Xv6Ext2

open Bytes Prog

/-! ### Addresses -/

/-- The address `x` bytes behind `base`. -/
def userAddr (base : UInt64) (x : ℕ) : ℕ := (base + UInt64.ofNat x).toNat

theorem userAddr_eq (base : UInt64) (x : ℕ) : userAddr base x = (base.toNat + x) % 2 ^ 64 := by
  unfold userAddr
  rw [UInt64.toNat_add, UInt64.toNat_ofNat', Nat.add_mod_mod]

theorem userAddr_add (base : UInt64) (m x : ℕ) :
    userAddr (base + UInt64.ofNat m) x = userAddr base (m + x) := by
  rw [userAddr_eq, userAddr_eq, UInt64.toNat_add, UInt64.toNat_ofNat']
  omega

theorem userAddr_inj (base : UInt64) {x y : ℕ} (hx : x < 2 ^ 32) (hy : y < 2 ^ 32)
    (h : userAddr base x = userAddr base y) : x = y := by
  rw [userAddr_eq, userAddr_eq] at h
  omega

/-- Where a property ends below `MAXVA`, addresses do not wrap around before it ends. -/
theorem lead_userAddr {p : ℕ → Bool} (hp : ∀ a, p a = true → a < MAXVA) (base : UInt64)
    (tot m : ℕ) :
    lead (fun x => p (userAddr base tot + x)) m =
      lead (fun x => p (userAddr base (tot + x))) m := by
  have hwrap : ∀ x, userAddr base tot + x < 2 ^ 64 →
      userAddr base (tot + x) = userAddr base tot + x := fun x hx => by
    rw [userAddr_eq] at hx ⊢
    rw [userAddr_eq]
    omega
  have hbase : userAddr base tot < 2 ^ 64 := UInt64.toNat_lt _
  have hmax : MAXVA < 2 ^ 64 := by decide
  refine (lead_eq_iff.mpr ⟨lead_le _ _, fun x hx => ?_, fun hlt => ?_⟩).symm
  · have hx' := lead_spec hx
    have := hp _ hx'
    rwa [hwrap x (by omega)]
  · have hstop := lead_stop hlt
    have hlast : ∀ k, k = lead (fun x => p (userAddr base tot + x)) m →
        userAddr base tot + k < 2 ^ 64 := fun k hk => by
      rcases k with _ | k
      · exact hbase
      · have := hp _ (lead_spec (p := fun x => p (userAddr base tot + x)) (n := m) (x := k)
          (by omega))
        omega
    rwa [hwrap _ (hlast _ rfl)]

/-! ### Writing from the memory of a process -/

/-- The bytes at a user address. -/
def userSrc (mem : UserMem) (src : UInt64) : CopySrc where
  mem x := (mem.get (userAddr src x)).getD 0
  fails tot m :=
    let r := copyin mem m (userAddr src tot) m
    if r.2 = true then none else some r.1.length

/-- How many of `n` bytes at a user address can be read, in a row. -/
def readable (mem : UserMem) (src : UInt64) (n : ℕ) : ℕ :=
  lead (fun x => (walkaddr mem (userAddr src x)).isSome) n

/-- Where the part of a request of `n` bytes ends that `writei` counts, if `f` of them can be
read: in front of the block where the copy fails. -/
def countedEnd (off n f : ℕ) : ℕ := if f = n then off + n else max off ((off + f) / BSIZE * BSIZE)

section Write

variable {mem : UserMem} {src : UInt64}

theorem lead_walkaddr (mem : UserMem) (src : UInt64) (tot m : ℕ) :
    lead (fun x => (walkaddr mem (userAddr src tot + x)).isSome) m =
      lead (fun x => (walkaddr mem (userAddr src (tot + x))).isSome) m :=
  lead_userAddr (p := fun a => (walkaddr mem a).isSome) (fun _ => lt_of_walkaddr) src tot m

/-- The bytes that `copyin` stores are those of the source. -/
theorem copyin_userSrc (mem : UserMem) (src : UInt64) (tot m : ℕ) :
    (copyin mem m (userAddr src tot) m).1 =
      (List.range (lead (fun x => (walkaddr mem (userAddr src (tot + x))).isSome) m)).map
        fun x => (userSrc mem src).mem (tot + x) := by
  rw [copyin_eq mem m _ m le_rfl, ← lead_walkaddr]
  refine List.map_congr_left fun x hx => ?_
  have hthere := lead_spec (List.mem_range.mp hx)
  have hlt := lt_of_walkaddr hthere
  have heq : userAddr src (tot + x) = userAddr src tot + x := by
    simp only [userAddr_eq, MAXVA] at hlt ⊢
    omega
  show _ = (mem.get (userAddr src (tot + x))).getD 0
  rw [heq]

theorem fails_userSrc (tot m : ℕ) :
    (userSrc mem src).fails tot m =
      (let k := lead (fun x => (walkaddr mem (userAddr src (tot + x))).isSome) m
      if k = m then none else some k) := by
  have hlen := congrArg List.length (copyin_userSrc mem src tot m)
  rw [List.length_map, List.length_range] at hlen
  show (if (copyin mem m (userAddr src tot) m).2 = true then none
    else some (copyin mem m (userAddr src tot) m).1.length) = _
  rw [hlen, copyin_eq mem m _ m le_rfl, lead_walkaddr]
  simp only [decide_eq_true_eq]

/-- **`writei` counts whole blocks and stores what can be read.** -/
theorem extent_userSrc : ∀ fuel tot off n : ℕ, n ≤ fuel →
    (userSrc mem src).extent fuel tot off n =
      (let f := lead (fun x => (walkaddr mem (userAddr src (tot + x))).isSome) n
      (countedEnd off n f - off, f)) := by
  intro fuel
  induction fuel with
  | zero =>
    intro tot off n hn
    obtain rfl : n = 0 := by omega
    simp [CopySrc.extent, lead, countedEnd]
  | succ fuel ih =>
    intro tot off n hn
    rcases n with _ | n
    · simp [CopySrc.extent, lead, countedEnd]
    rw [CopySrc.extent]
    generalize hm : min (n + 1) (BSIZE - off % BSIZE) = m
    dsimp only
    rw [fails_userSrc]
    dsimp only
    by_cases hall : lead (fun x => (walkaddr mem (userAddr src (tot + x))).isSome) m = m
    · -- the piece is copied
      rw [if_pos hall, lead_add (m := m) (by omega) hall]
      dsimp only
      rw [ih (tot + m) (off + m) (n + 1 - m) (by simp only [BSIZE] at *; omega)]
      simp only [Nat.add_assoc]
      have hle := lead_le (fun x => (walkaddr mem (userAddr src (tot + (m + x)))).isSome)
        (n + 1 - m)
      generalize lead (fun x => (walkaddr mem (userAddr src (tot + (m + x)))).isSome)
        (n + 1 - m) = f at hle
      refine Prod.ext ?_ rfl
      simp only [countedEnd, BSIZE, Nat.add_assoc] at *
      split <;> split <;> omega
    · -- the copy fails within the piece
      have hle := lead_le (fun x => (walkaddr mem (userAddr src (tot + x))).isSome) m
      rw [if_neg hall, lead_of_lt (m := m) (n := n + 1) (by omega) (by omega)]
      generalize lead (fun x => (walkaddr mem (userAddr src (tot + x))).isSome) m = f at hall hle
      refine Prod.ext ?_ (Nat.min_eq_left hle)
      simp only [countedEnd, BSIZE] at *
      rw [if_neg (by omega)]
      omega

variable {P : Finset (Fin NINODE)} {s : Fs Store} {ip : Fin NINODE}

/-- `writei` takes the request. -/
def WriteAccepted (s : Fs Store) (ip : Fin NINODE) (off n : UInt32) : Prop :=
  off.toNat ≤ (s.itable ip).size.toNat ∧ off.toNat + n.toNat ≤ MAXFILE * BSIZE

theorem writei_of_not_accepted {off n : UInt32} (hacc : ¬WriteAccepted s ip off n) (src : CopySrc) :
    writei ip src off n s = .ok (-1, s) := by
  unfold writei
  rw [bind_of_ok (getInode_apply s ip)]
  by_cases hrej : (s.itable ip).size.toNat < off.toNat ∨ 2 ^ 32 ≤ off.toNat + n.toNat
  · rw [if_pos (rejected_iff.mpr hrej)]
    rfl
  · have hadd : (off + n).toNat = off.toNat + n.toNat := by
      rw [UInt32.toNat_add]
      omega
    unfold WriteAccepted at hacc
    rw [if_neg (mt rejected_iff.mp hrej), hadd, if_pos (by omega)]
    rfl

/-- **What `writei` does with user memory**: it returns the number of bytes in front of the
block where a copy fails, and the file holds all bytes that could be read. -/
theorem writei_user (h : Files P s) (hheld : s.blk.held = []) (hip : ip ∈ P) {off n : UInt32}
    (hacc : WriteAccepted s ip off n) (mem : UserMem) (src : UInt64) :
    Fills Fs.spare (there P) (writei ip (userSrc mem src) off n) s
      (copyTouched (s.contents ip) ip (userSrc mem src) off n) fun r t =>
        r = (countedEnd off.toNat n.toNat (readable mem src n.toNat) : ℤ) - off.toNat ∧
        ∀ o < (s.itable ip).size.toNat, t.fileByte ip o =
          if off.toNat ≤ o ∧ o < off.toNat + readable mem src n.toNat then
            (userSrc mem src).mem (o - off.toNat)
          else s.fileByte ip o := by
  obtain ⟨hoff, hmax⟩ := hacc
  refine (writei_copies h hheld hip (userSrc mem src) off n).mono fun r t hpost => ?_
  obtain ⟨-, -, hr, hcont, -⟩ := hpost
  have hnot : ¬((((s.contents ip).length < off.toNat) ∨ 2 ^ 32 ≤ off.toNat + n.toNat) ∨
      MAXFILE * BSIZE < off.toNat + n.toNat) := by
    rw [length_contents]
    simp only [MAXFILE, BSIZE] at *
    omega
  have hextent : (userSrc mem src).extent n.toNat 0 off.toNat n.toNat =
      (countedEnd off.toNat n.toNat (readable mem src n.toNat) - off.toNat,
        readable mem src n.toNat) := by
    rw [extent_userSrc _ _ _ _ le_rfl]
    simp only [Nat.zero_add]
    rfl
  rw [flatCopy, if_neg hnot, hextent] at hr hcont
  dsimp only at hr hcont
  have hend : off.toNat ≤ countedEnd off.toNat n.toNat (readable mem src n.toNat) := by
    unfold countedEnd
    split <;> omega
  refine ⟨by omega, fun o ho => ?_⟩
  -- byte `o` of the new contents
  have hbyte := congrArg (·[o]?) hcont
  rw [List.getElem?_take, if_pos (by rw [length_contents]; omega),
    getElem?_splice (by simpa using hoff), getElem?_contents, getElem?_contents, if_pos ho,
    List.length_map, List.length_range] at hbyte
  split at hbyte
  · split at hbyte
    · next hin =>
      rw [List.getElem?_map, List.getElem?_range (by omega)] at hbyte
      rw [if_pos hin]
      exact Option.some.inj hbyte
    · next hout =>
      rw [if_neg hout]
      exact Option.some.inj hbyte
  · split at hbyte
    · rw [List.getElem?_map, List.getElem?_range (by omega)] at hbyte
      cases hbyte
    · cases hbyte

/-- `writei` changes what it reports: if it returns -1 it changes nothing, and otherwise the
bytes of the old file outside of what it has counted are as they were. -/
def WriteReports (s : Fs Store) (ip : Fin NINODE) (src : CopySrc) (off n : UInt32) : Prop :=
  ∀ r t, writei ip src off n s = .ok (r, t) →
    (r = -1 → t = s) ∧ (0 ≤ r → ∀ o < (s.itable ip).size.toNat,
      ¬(off.toNat ≤ o ∧ (o : ℤ) < off.toNat + r) → t.fileByte ip o = s.fileByte ip o)

/-- A process with one page, full of ones. -/
def onePage : UserMem := fun p => if p = 0 then some ⟨true, fun _ => 1⟩ else none

def storesOne : Evaluated (((do
    let r ← writei 0 (userSrc onePage 4095) 0 2
    let t ← get
    return (r, t.fileByte 0 0) : FsM Store (ℤ × UInt8)) (oneBlockImage 10)).map Prod.fst =
      .ok (0, 1)) :=
  ⟨by decide +kernel⟩

def fileByte_oneBlockImage : Evaluated ((oneBlockImage 10).fileByte 0 0 = 0) :=
  ⟨by decide +kernel⟩

end Write

/-! ### Reading into the memory of a process -/

section Source

variable {σ β : Type} [BlockLayer σ β]

/-- The loop of `readi`, with the memory that it fills.  The result of `either_copyout` is
ignored.  `n` bytes are left. -/
def readiUserLoop (ip : Fin NINODE) : ℕ → ℕ → ℕ → UInt64 → UserMem → FsM σ UserMem
  | _, _, 0, _, mem => return mem
  | 0, _, _ + 1, _, _ => throw .fuel
  | fuel + 1, off, n + 1, dst, mem => do
    let i ← getInode ip
    let addr ← bmap ip (off / BSIZE)
    let bp ← bread i.dev addr
    let m := min (n + 1) (BSIZE - off % BSIZE)
    let d ← bdata bp
    let mem' := (copyout m mem dst.toNat ((List.range m).map fun x => d.byte (off % BSIZE + x))).1
    brelse bp
    readiUserLoop ip fuel (off + m) (n + 1 - m) (dst + UInt64.ofNat m) mem'

/-- `readi(ip, 1, dst, off, n)`: the value returned and the memory. -/
def readiUser (ip : Fin NINODE) (mem : UserMem) (dst : UInt64) (off n : UInt32) :
    FsM σ (ℤ × UserMem) := do
  let i ← getInode ip
  if i.size < off ∨ off + n < off then return (-1, mem)
  else do
    let n := if i.size < off + n then i.size - off else n
    let mem' ← readiUserLoop ip n.toNat off.toNat n.toNat dst mem
    return (cInt n, mem')

/-- `fileread(f, addr, n)`: the value returned and the memory.  `other` is what `piperead` or
the device does. -/
def fileread (other : KM σ (ℤ × UserMem)) (f : Fin NFILE) (mem : UserMem) (addr : UInt64) (n : ℤ) :
    KM σ (ℤ × UserMem) := do
  let k ← get
  if (k.ftable f).readable = false then return (-1, mem)
  else
    match (k.ftable f).type with
    | .pipe => other
    | .device => other
    | .inode =>
      match (k.ftable f).ip with
      | none => throw .fault
      | some ip => do
        onFs (ilock ip)
        let r ← onFs (readiUser ip mem addr (k.ftable f).off (UInt32.ofInt n))
        if 0 < r.1 then setFile f fun x => { x with off := x.off + UInt32.ofInt r.1 } else pure ()
        onFs (iunlock ip)
        return r
    | .none => throw (.panic "fileread")

/-- The memory after the copies of `readi`, if `bytes` are the bytes of the file. -/
def deliver : ℕ → ℕ → ℕ → UInt64 → UserMem → List UInt8 → UserMem
  | _, _, 0, _, mem, _ => mem
  | 0, _, _ + 1, _, mem, _ => mem
  | fuel + 1, off, n + 1, dst, mem, bytes =>
    let m := min (n + 1) (BSIZE - off % BSIZE)
    deliver fuel (off + m) (n + 1 - m) (dst + UInt64.ofNat m)
      (copyout m mem dst.toNat (bytes.take m)).1 (bytes.drop m)

/-- The loop with user memory reads the same bytes. -/
theorem readiUserLoop_eq (ip : Fin NINODE) : ∀ (fuel off n : ℕ) (dst : UInt64) (mem : UserMem),
    (readiUserLoop ip fuel off n dst mem : FsM σ UserMem) =
      readiLoop ip fuel off n >>= fun bytes => pure (deliver fuel off n dst mem bytes) := by
  intro fuel
  induction fuel with
  | zero => intro off n dst mem; cases n <;> rfl
  | succ fuel ih =>
    intro off n dst mem
    rcases n with _ | n
    · rfl
    rw [readiUserLoop, readiLoop]
    generalize hm : min (n + 1) (BSIZE - off % BSIZE) = m
    simp only [ih, bind_assoc, pure_bind]
    refine bind_congr fun i => bind_congr fun addr => bind_congr fun bp => bind_congr fun d =>
      bind_congr fun _ => bind_congr fun rest => ?_
    have hlen : ((List.range m).map fun x => d.byte (off % BSIZE + x)).length = m := by simp
    rw [deliver, hm, List.take_left' hlen, List.drop_left' hlen]

end Source

/-- How many bytes `readi` reports. -/
def readLength (size off n : UInt32) : ℕ :=
  if size < off ∨ off + n < off then 0 else (if size < off + n then size - off else n).toNat

section Read

variable {mem : UserMem} {dst : UInt64}

/-- Byte `x` of a read from `off` gets through: the bytes of its block up to it go to pages that
may be written. -/
def Received (mem : UserMem) (dst : UInt64) (off x : ℕ) : Prop :=
  ∀ y ≤ x, (off + y) / BSIZE = (off + x) / BSIZE → mem.writable (userAddr dst y) = true

instance (off x : ℕ) : Decidable (Received mem dst off x) := Nat.decidableBallLE _ _

theorem lt_of_writable (mem : UserMem) {a : ℕ} (h : mem.writable a = true) : a < MAXVA := by
  unfold UserMem.writable at h
  have hsome : (walkaddr mem a).isSome = true := by
    cases hw : walkaddr mem a with
    | none => rw [hw] at h; cases h
    | some page => rfl
  exact lt_of_walkaddr hsome

/-- The bytes that a copy moves have addresses that do not wrap around. -/
theorem userAddr_of_lead (mem : UserMem) (dst : UInt64) {n y : ℕ}
    (hy : y < lead (fun y => mem.writable (userAddr dst y)) n) :
    userAddr dst y = dst.toNat + y := by
  have hbase : dst.toNat = userAddr dst 0 := by rw [userAddr_eq]; have := dst.toNat_lt; omega
  have hlead := lead_userAddr (fun _ => lt_of_writable mem) dst 0 n
  simp only [Nat.zero_add, ← hbase] at hlead
  rw [← hlead] at hy
  have hlt := lt_of_writable mem (lead_spec (p := fun y => mem.writable (dst.toNat + y)) hy)
  rw [userAddr_eq]
  simp only [MAXVA] at hlt
  omega

/-- The memory after one copy, over the addresses of the bytes. -/
theorem get_copyout_eq (mem : UserMem) (dst : UInt64) (bytes : List UInt8) (b : ℕ) :
    (copyout bytes.length mem dst.toNat bytes).1.get b =
      if dst.toNat ≤ b ∧ b < dst.toNat + lead (fun y => mem.writable (userAddr dst y)) bytes.length
      then some (bytes.getD (b - dst.toNat) 0) else mem.get b := by
  have hbase : dst.toNat = userAddr dst 0 := by rw [userAddr_eq]; have := dst.toNat_lt; omega
  have hlead := lead_userAddr (fun _ => lt_of_writable mem) dst 0 bytes.length
  simp only [Nat.zero_add, ← hbase] at hlead
  rw [get_copyout _ _ _ _ le_rfl, hlead]

/-- Where a copy does not go. -/
theorem get_copyout_of_ne (mem : UserMem) (dst : UInt64) (bytes : List UInt8) {b : ℕ}
    (hb : ∀ x < bytes.length, b ≠ userAddr dst x) :
    (copyout bytes.length mem dst.toNat bytes).1.get b = mem.get b := by
  rw [get_copyout_eq, if_neg fun hin => ?_]
  have hle := lead_le (fun y => mem.writable (userAddr dst y)) bytes.length
  have hy := userAddr_of_lead mem dst (n := bytes.length) (y := b - dst.toNat)
    (by omega)
  exact hb (b - dst.toNat) (by omega) (by omega)

/-- A byte of a copy. -/
theorem get_copyout_userAddr (mem : UserMem) (dst : UInt64) (bytes : List UInt8)
    (hlen : bytes.length ≤ 2 ^ 32) {x : ℕ} (hx : x < bytes.length) :
    (copyout bytes.length mem dst.toNat bytes).1.get (userAddr dst x) =
      if x < lead (fun y => mem.writable (userAddr dst y)) bytes.length then
        some (bytes.getD x 0)
      else mem.get (userAddr dst x) := by
  have hle := lead_le (fun y => mem.writable (userAddr dst y)) bytes.length
  rw [get_copyout_eq]
  by_cases hin : x < lead (fun y => mem.writable (userAddr dst y)) bytes.length
  · have hxp := userAddr_of_lead mem dst hin
    rw [if_pos hin, if_pos (by omega), hxp, Nat.add_sub_cancel_left]
  · rw [if_neg hin, if_neg fun hbetween => hin ?_]
    -- an address of the copy is the address of one of its bytes only
    have hy := userAddr_of_lead mem dst (n := bytes.length)
      (y := userAddr dst x - dst.toNat) (by omega)
    have heq : userAddr dst x - dst.toNat = x :=
      userAddr_inj dst (by omega) (by omega) (by omega)
    omega

/-- In its first block a read gets through up to the first page that may not be written. -/
theorem received_first (mem : UserMem) (dst : UInt64) {off m x : ℕ}
    (hblk : off % BSIZE + m ≤ BSIZE) (hx : x < m) :
    Received mem dst off x ↔ x < lead (fun y => mem.writable (userAddr dst y)) m := by
  have hsame : ∀ y < m, (off + y) / BSIZE = off / BSIZE := fun y hy => by
    simp only [BSIZE] at *
    omega
  constructor
  · intro hrec
    by_contra hge
    have hstop := lead_stop (p := fun y => mem.writable (userAddr dst y)) (n := m) (by omega)
    rw [hrec _ (Nat.not_lt.mp hge) (by rw [hsame _ (by omega), hsame x hx])] at hstop
    cases hstop
  · intro hlt y hy _
    exact lead_spec (p := fun y => mem.writable (userAddr dst y)) (n := m) (by omega)

/-- Behind a block boundary a read is one of its own. -/
theorem received_rest (dst : UInt64) {mem' : UserMem}
    (hmem : ∀ b, mem'.writable b = mem.writable b) {off m x : ℕ} (hblk : (off + m) % BSIZE = 0) :
    Received mem' (dst + UInt64.ofNat m) (off + m) x ↔ Received mem dst off (m + x) := by
  unfold Received
  constructor
  · intro hrec y hy hsame
    have hym : m ≤ y := by
      simp only [BSIZE] at *
      omega
    have := hrec (y - m) (by omega) (by
      rw [show off + m + (y - m) = off + y by omega, hsame, Nat.add_assoc])
    rwa [hmem, userAddr_add, show m + (y - m) = y by omega] at this
  · intro hrec y hy hsame
    rw [hmem, userAddr_add]
    exact hrec (m + y) (by omega) (by rw [← Nat.add_assoc, hsame, Nat.add_assoc])

/-- **The memory after a read.** -/
theorem get_deliver : ∀ (fuel off n : ℕ) (dst : UInt64) (mem : UserMem) (bytes : List UInt8),
    n ≤ fuel → n ≤ 2 ^ 32 → bytes.length = n →
      (∀ x < n, (deliver fuel off n dst mem bytes).get (userAddr dst x) =
        if Received mem dst off x then some (bytes.getD x 0) else mem.get (userAddr dst x)) ∧
      ∀ b, (∀ x < n, b ≠ userAddr dst x) →
        (deliver fuel off n dst mem bytes).get b = mem.get b := by
  intro fuel
  induction fuel with
  | zero =>
    intro off n dst mem bytes hn _ _
    obtain rfl : n = 0 := by omega
    exact ⟨fun x hx => absurd hx (Nat.not_lt_zero x), fun _ _ => rfl⟩
  | succ fuel ih =>
    intro off n dst mem bytes hn hmax hlen
    rcases n with _ | n
    · exact ⟨fun x hx => absurd hx (Nat.not_lt_zero x), fun _ _ => rfl⟩
    rw [deliver]
    have hmod : off % BSIZE < BSIZE := Nat.mod_lt _ (by decide)
    generalize hm : min (n + 1) (BSIZE - off % BSIZE) = m
    have htake : (bytes.take m).length = m := by rw [List.length_take]; omega
    have hframe : ∀ b, (∀ x < m, b ≠ userAddr dst x) →
        (copyout m mem dst.toNat (bytes.take m)).1.get b = mem.get b := fun b hb => by
      have := get_copyout_of_ne mem dst (bytes.take m) (b := b) (by rwa [htake])
      rwa [htake] at this
    have hbytes : ∀ x < m, (copyout m mem dst.toNat (bytes.take m)).1.get (userAddr dst x) =
        if Received mem dst off x then some (bytes.getD x 0) else mem.get (userAddr dst x) :=
      fun x hx => by
        have := get_copyout_userAddr mem dst (bytes.take m) (x := x) (by omega) (by omega)
        rw [htake] at this
        rw [this, List.getD_eq_getElem?_getD, List.getElem?_take, if_pos hx,
          List.getD_eq_getElem?_getD]
        simp only [received_first mem dst (show off % BSIZE + m ≤ BSIZE by omega) hx]
    obtain ⟨hrest, hother⟩ := ih (off + m) (n + 1 - m) (dst + UInt64.ofNat m)
      (copyout m mem dst.toNat (bytes.take m)).1 (bytes.drop m) (by omega) (by omega)
      (by rw [List.length_drop, hlen])
    refine ⟨fun x hx => ?_, fun b hb => ?_⟩
    · rcases Nat.lt_or_ge x m with hxm | hxm
      · -- the rest of the read goes elsewhere
        rw [hother _ fun y hy heq => ?_, hbytes x hxm]
        rw [userAddr_add] at heq
        have := userAddr_inj _ (by omega) (by omega) heq
        omega
      · have hx' := hrest (x - m) (by omega)
        have hboundary : (off + m) % BSIZE = 0 := by
          simp only [BSIZE] at *
          omega
        have hold := hframe (userAddr dst x) fun y hy heq => by
          have := userAddr_inj _ (by omega) (by omega) heq
          omega
        rw [userAddr_add, show m + (x - m) = x by omega, hold, List.getD_eq_getElem?_getD,
          List.getElem?_drop, show m + (x - m) = x by omega] at hx'
        rw [hx', List.getD_eq_getElem?_getD]
        simp only [received_rest dst (fun b => writable_copyout _ _ _ _) hboundary,
          show m + (x - m) = x by omega]
    · rw [hother b fun x hx heq => hb (m + x) (by omega) (by rwa [userAddr_add] at heq),
        hframe b fun x hx => hb x (by omega)]

variable {P : Finset (Fin NINODE)} {s : Fs Store} {ip : Fin NINODE}

/-- `readi` with user memory is `readi` and then the copies. -/
theorem readiUser_apply (mem : UserMem) (dst : UInt64) (off n : UInt32) :
    readiUser ip mem dst off n s =
      (readi ip off n >>= fun r => pure (r.1,
        deliver (readLength (s.itable ip).size off n) off.toNat
          (readLength (s.itable ip).size off n) dst mem r.2)) s := by
  unfold readiUser readi readLength
  rw [bind_assoc, bind_of_ok (getInode_apply s ip), bind_of_ok (getInode_apply s ip)]
  split
  · rw [pure_bind]
    rfl
  · dsimp only
    rw [readiUserLoop_eq]
    simp only [bind_assoc, pure_bind]

/-- What `readi` reads, byte by byte. -/
theorem flatRead_contents (s : Fs Store) (ip : Fin NINODE) (off n : UInt32) :
    (flatRead (s.contents ip) off n).1.toNat = readLength (s.itable ip).size off n ∧
      (flatRead (s.contents ip) off n).2 =
        (List.range (readLength (s.itable ip).size off n)).map fun x =>
          s.fileByte ip (off.toNat + x) := by
  unfold flatRead readLength
  rw [length_contents]
  by_cases hrej : (s.itable ip).size.toNat < off.toNat ∨ 2 ^ 32 ≤ off.toNat + n.toNat
  · rw [if_pos hrej, if_pos (rejected_iff.mpr hrej)]
    exact ⟨rfl, rfl⟩
  · rw [if_neg hrej, if_neg (mt rejected_iff.mp hrej), toNat_clamp (by omega) (by omega),
      take_drop_contents]
    exact ⟨Int.toNat_natCast _, rfl⟩

/-- **`readi` with user memory**: the value returned is that of `readi`, and a byte is delivered
if it gets through. -/
theorem readiUser_fills (h : Files P s) (hheld : s.blk.held = []) (hip : ip ∈ P) (mem : UserMem)
    (dst : UInt64) (off n : UInt32) :
    Fills Fs.spare (there P) (readiUser ip mem dst off n) s
      (readTouched (s.contents ip) ip off n) fun r t => Grows P s t ∧
        r.1 = (flatRead (s.contents ip) off n).1 ∧
        ∀ x < readLength (s.itable ip).size off n, r.2.get (userAddr dst x) =
          if Received mem dst off.toNat x then some (s.fileByte ip (off.toNat + x))
          else mem.get (userAddr dst x) := by
  refine Fills.of_eq (readiUser_apply mem dst off n) rfl rfl ?_
  refine Fills.map (readi_fills h hheld hip off n) fun r t _ hpost => ?_
  obtain ⟨-, hgrows, -, rfl⟩ := hpost
  refine ⟨hgrows, rfl, fun x hx => ?_⟩
  have hlen : readLength (s.itable ip).size off n ≤ 2 ^ 32 := by
    unfold readLength
    split
    · omega
    · exact (UInt32.toNat_lt _).le
  obtain ⟨-, hbytes⟩ := flatRead_contents s ip off n
  have hget := (get_deliver _ off.toNat _ dst mem (flatRead (s.contents ip) off n).2 le_rfl hlen
    (by rw [hbytes, List.length_map, List.length_range])).1 x hx
  rw [hget, hbytes, List.getD_eq_getElem?_getD, List.getElem?_map, List.getElem?_range hx]
  rfl

/-- If `readi` returns `r ≥ 0`, the memory holds the `r` bytes of the file. -/
def ReadDelivers (s : Fs Store) (ip : Fin NINODE) (mem : UserMem) (dst : UInt64) (off n : UInt32) :
    Prop :=
  ∀ r mem' t, readiUser ip mem dst off n s = .ok ((r, mem'), t) → 0 ≤ r → ∀ x < r.toNat,
    mem'.get (userAddr dst x) = some (s.fileByte ip (off.toNat + x))

/-- `fileread` moves `f->off` only behind bytes of the file that the memory holds. -/
def FilereadDelivers (k : Kernel Store) (f : Fin NFILE) (ip : Fin NINODE) (mem : UserMem)
    (addr : UInt64) (n : ℤ) : Prop :=
  ∀ other r mem' k', fileread other f mem addr n k = .ok ((r, mem'), k') →
    ∀ x, k.off f + x < k'.off f →
      mem'.get (userAddr addr x) = some (k.fs.fileByte ip (k.off f + x))

/-- Each byte that the read reports gets through or is in the memory before, unless the read
fills holes for which there are not enough blocks. -/
def Gets (P : Finset (Fin NINODE)) (s : Fs Store) (ip : Fin NINODE) (mem : UserMem) (dst : UInt64)
    (off n : UInt32) : Prop :=
  missing (there P) s (readTouched (s.contents ip) ip off n) ≤ s.spare →
    ∀ x < readLength (s.itable ip).size off n, Received mem dst off.toNat x ∨
      mem.get (userAddr dst x) = some (s.fileByte ip (off.toNat + x))

theorem readDelivers_iff (h : Files P s) (hheld : s.blk.held = []) (hip : ip ∈ P) (mem : UserMem)
    (dst : UInt64) (off n : UInt32) :
    ReadDelivers s ip mem dst off n ↔ Gets P s ip mem dst off n := by
  have hfills := readiUser_fills h hheld hip mem dst off n
  obtain ⟨hlen, -⟩ := flatRead_contents s ip off n
  constructor
  · intro hok hroom x hx
    obtain ⟨⟨r, mem'⟩, t, hrun, -, -, rfl, hget⟩ := hfills.returns hroom
    dsimp only at hrun hget
    have hbyte := hok _ _ _ hrun (by omega) x (by omega)
    rw [hget x hx] at hbyte
    split at hbyte
    · next hrec => exact Or.inl hrec
    · exact Or.inr hbyte
  · intro hcond r mem' t hrun _ x hx
    obtain ⟨hroom, -, -, -, hr, hget⟩ := hfills.sat _ t hrun
    dsimp only at hr hget
    rw [hr, hlen] at hx
    rw [hget x hx]
    split
    · rfl
    · next hrec => exact (hcond hroom x hx).resolve_left hrec

/-! ### `fileread` -/

/-- File `f` is open for reading on the inode `ip`, which is in memory and not locked. -/
structure ReadableOn (ip : Fin NINODE) (f : Fin NFILE) (k : Kernel Store) : Prop where
  type : (k.ftable f).type = .inode
  readable : (k.ftable f).readable = true
  inode : (k.ftable f).ip = some ip
  valid : (k.fs.itable ip).valid = true
  unlocked : (k.fs.itable ip).locked = false
  ref : 1 ≤ (k.fs.itable ip).ref

variable {f : Fin NFILE} {k : Kernel Store}

/-- The state with the lock of an inode taken. -/
def Fs.locking (s : Fs Store) (ip : Fin NINODE) : Fs Store :=
  s.setItable ip { s.itable ip with locked := true }

/-- `fileread` fails with `readi`. -/
theorem ReadableOn.fileread_error (h : ReadableOn ip f k) (other : KM Store (ℤ × UserMem))
    {mem : UserMem} {addr : UInt64} {n : ℤ} {e : Err}
    (hrun : readiUser ip mem addr (k.ftable f).off (UInt32.ofInt n) (k.fs.locking ip) = .error e) :
    fileread other f mem addr n k = .error e := by
  have hlock := ilock_of_valid h.ref h.unlocked h.valid
  have hread : onFs (readiUser ip mem addr (k.ftable f).off (UInt32.ofInt n))
      { k with fs := k.fs.locking ip } = .error e := by
    unfold onFs
    rw [hrun]
  unfold fileread
  rw [bind_of_ok (get_apply k), if_neg (by rw [h.readable]; decide), h.type, h.inode]
  dsimp only
  rw [bind_of_ok (onFs_of_ok hlock)]
  exact bind_of_error hread

/-- `fileread` returns what `readi` returns and moves `f->off` by it. -/
theorem ReadableOn.fileread_ok (h : ReadableOn ip f k) (other : KM Store (ℤ × UserMem))
    {mem : UserMem} {addr : UInt64} {n : ℤ} {r : ℤ × UserMem} {t : Fs Store}
    (hrun : readiUser ip mem addr (k.ftable f).off (UInt32.ofInt n) (k.fs.locking ip) = .ok (r, t))
    (hlocked : (t.itable ip).locked = true) (href : 1 ≤ (t.itable ip).ref) :
    ∃ k', fileread other f mem addr n k = .ok (r, k') ∧ (k'.ftable f).off =
      if 0 < r.1 then (k.ftable f).off + UInt32.ofInt r.1 else (k.ftable f).off := by
  have hlock := ilock_of_valid h.ref h.unlocked h.valid
  have hread : onFs (readiUser ip mem addr (k.ftable f).off (UInt32.ofInt n))
      { k with fs := k.fs.locking ip } = .ok (r, { k with fs := t }) := onFs_of_ok hrun
  have hunlock := iunlock_of_locked href hlocked
  unfold fileread
  rw [bind_of_ok (get_apply k), if_neg (by rw [h.readable]; decide), h.type, h.inode]
  dsimp only
  rw [bind_of_ok (onFs_of_ok hlock)]
  unfold Fs.locking at hread
  rw [bind_of_ok hread]
  by_cases hpos : 0 < r.1
  · rw [if_pos hpos, if_pos hpos]
    have hset : setFile f (fun x => { x with off := x.off + UInt32.ofInt r.1 })
        { k with fs := t } = .ok ((), { k with
          fs := t
          ftable := Function.update k.ftable f
            { k.ftable f with off := (k.ftable f).off + UInt32.ofInt r.1 } }) := rfl
    rw [bind_of_ok hset, bind_of_ok (onFs_of_ok hunlock)]
    exact ⟨_, rfl, by simp⟩
  · rw [if_neg hpos, if_neg hpos, bind_of_ok (onFs_of_ok hunlock)]
    exact ⟨_, rfl, rfl⟩

theorem fileByte_locking (o : ℕ) : (s.locking ip).fileByte ip o = s.fileByte ip o := by
  have hnode : (s.locking ip).node = s.node := node_setItable rfl
  unfold Fs.fileByte Fs.leafBlock
  rw [hnode]
  rfl

theorem size_locking : ((s.locking ip).itable ip).size = (s.itable ip).size := by
  unfold Fs.locking
  rw [Fs.itable_setItable, Function.update_self]

/-- The lock of an inode does not matter to what a read gets. -/
theorem gets_locking (mem : UserMem) (dst : UInt64) (off n : UInt32) :
    Gets P (s.locking ip) ip mem dst off n ↔ Gets P s ip mem dst off n := by
  have hplaces : SamePlaces P s (s.locking ip) := samePlaces_setItable rfl
  have hcont : (s.locking ip).contents ip = s.contents ip := contents_setItable rfl rfl
  unfold Gets
  rw [hcont, hplaces.missing_eq, hplaces.spare_eq, size_locking]
  simp only [fileByte_locking]

/-- What `fileread` delivers is what `readi` delivers under the lock. -/
theorem ReadableOn.filereadDelivers_iff (h : ReadableOn ip f k) (hfiles : Files P k.fs)
    (hheld : k.fs.blk.held = []) (hip : ip ∈ P) (mem : UserMem) (addr : UInt64) (n : ℤ) :
    FilereadDelivers k f ip mem addr n ↔
      ReadDelivers (k.fs.locking ip) ip mem addr (k.ftable f).off (UInt32.ofInt n) := by
  have hentry : (k.fs.locking ip).itable ip = { k.fs.itable ip with locked := true } := by
    rw [Fs.locking, Fs.itable_setItable, Function.update_self]
  have hrun : ∀ r mem' t, readiUser ip mem addr (k.ftable f).off (UInt32.ofInt n)
      (k.fs.locking ip) = .ok ((r, mem'), t) → ∀ other, ∃ k',
        fileread other f mem addr n k = .ok ((r, mem'), k') ∧ k'.off f = k.off f + r.toNat := by
    intro r mem' t hread other
    obtain ⟨-, -, -, hgrows, hr, -⟩ := (readiUser_fills (s := k.fs.locking ip)
      (hfiles.setItable rfl rfl) hheld hip mem addr (k.ftable f).off (UInt32.ofInt n)).sat _ t hread
    have hsame := hgrows.inode ip
    rw [hentry] at hsame
    obtain ⟨k', hfile, hoff⟩ := h.fileread_ok other hread (by rw [hsame])
      (by rw [hsame]; exact h.ref)
    refine ⟨k', hfile, ?_⟩
    -- the end of the read lies in the file, so the offset does not wrap around
    have hsize := ((k.fs.locking ip).itable ip).size.toNat_lt
    dsimp only at hr hoff
    unfold Kernel.off
    rw [hoff]
    unfold flatRead at hr
    rw [length_contents] at hr
    split at hr
    · rw [hr, if_neg (by decide)]
      rfl
    · dsimp only at hr
      split
      · rw [UInt32.toNat_add, hr, ofInt_natCast (by omega)]
        omega
      · omega
  constructor
  · intro hok r mem' t hread _ x hx
    obtain ⟨k', hfile, hoff⟩ := hrun r mem' t hread (throw .fault)
    rw [fileByte_locking]
    exact hok _ r mem' k' hfile x (by omega)
  · intro hok other r mem' k' hfile x hx
    cases hread : readiUser ip mem addr (k.ftable f).off (UInt32.ofInt n) (k.fs.locking ip) with
    | error e =>
      rw [h.fileread_error other hread] at hfile
      cases hfile
    | ok p =>
      obtain ⟨⟨r₁, mem₁⟩, t⟩ := p
      obtain ⟨k₁, hfile₁, hoff⟩ := hrun r₁ mem₁ t hread other
      rw [hfile₁] at hfile
      cases hfile
      have hbyte := hok r mem' t hread (by omega) x (by omega)
      rw [fileByte_locking] at hbyte
      exact hbyte

/-- The kernel with the file of one block open as file 0. -/
def oneBlockKernel : Kernel Store :=
  { Kernel.boot ((oneBlockImage 10).setItable 0
      { (oneBlockImage 10).itable 0 with locked := false }) with
    ftable := Function.update (fun _ => File.unused) 0
      ⟨.inode, 1, true, false, none, some 0, 0, 0⟩ }

theorem readableOn_oneBlockKernel : ReadableOn 0 0 oneBlockKernel :=
  ⟨rfl, rfl, rfl, rfl, rfl, le_rfl⟩

def received_onePage : Evaluated (∀ x < 16, Received onePage 0 0 x) :=
  ⟨by decide +kernel⟩

def readsNowhere : Evaluated (((do
    let r ← readiUser 0 (fun _ => none) 0 0 16
    return (r.1, r.2.get 0) : FsM Store (ℤ × Option UInt8)) oneBlockKernel.fs).map Prod.fst =
      .ok (16, none)) :=
  ⟨by decide +kernel⟩

def filereadNowhere : Evaluated (((do
    let r ← fileread (throw .fault) 0 (fun _ => none) 0 16
    let k ← get
    return (k.off 0, r.2.get 0) : KM Store (ℕ × Option UInt8)) oneBlockKernel).map
      Prod.fst = .ok (16, none)) :=
  ⟨by decide +kernel⟩

end Read

end Xv6Ext2
