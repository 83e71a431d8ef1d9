import Xv6Ext2.Lib.Blocks

/-!
# The allocator of user programs

`user/umalloc.c` keeps its free blocks in a ring of headers in the order of their addresses,
with the header `base` of size 0 in it.  `free` walks around the ring to the gap that a block
belongs to and joins it with its neighbours where they touch.  `malloc` walks around from where
the last call stopped, takes the end of the first block that is large enough, and asks for more
memory with `sbrk` when it is back.

`sbrk` takes an `int`, and `growproc` of `kernel/proc.c` grows or shrinks the memory of the
program by it.  The bytes that `malloc` asks for are a product of 64 bits, and for requests of
almost 2 GB and more the `int` is negative, zero, or 16.

## Main definitions

* `Heap` — headers, `freep`, the size of the program, and a log of the calls of `sbrk`.
* `growproc`, `Heap.sbrk` — the functions of the kernel.
* `Heap.free`, `Heap.morecore`, `Heap.malloc` — the functions of the source.
* `InMemory` — programs do not get more memory than the machine has.
* `HeapRuns` — runs of `malloc` and `free`, and of writes to the blocks.
* `Inv` — the free list and the live blocks make up the memory that was obtained.

## Main results

* `Inv.free`, `Ready.malloc` — what one call keeps.
* `heap_of_runs` — live blocks, the free list and termination in every run.
* `Inv.mallocLoop_large` — what `malloc` does with a request of almost 2 GB or more.
* `malloc_granted_iff` — the requests for which `malloc` stays within the memory that it got.
* `malloc_ungranted` — a request that is answered with memory that the program does not have.
-/

namespace Xv6Ext2.Umalloc

open Blocks Function

/-! ### The source functions -/

/-- The headers in memory, each at its address, the variable `freep`, the size `p->sz` of the
program, and the calls of `sbrk` with their answers, the last one first.  A header has 16 bytes. -/
structure Heap where
  ptr : ℕ → ℕ
  size : ℕ → ℕ
  freep : ℕ
  sz : ℕ
  log : List (ℤ × Option ℕ)

/-- A number of 64 bits as an `int`. -/
def toInt (n : ℕ) : ℤ := ((n : ℤ) + 2 ^ 31) % 2 ^ 32 - 2 ^ 31

/-- Does `uvmalloc` find the pages for a program of so many bytes to grow by so many? -/
abbrev Alloc := ℕ → ℕ → Bool

/-- The size that `uvmdealloc` returns. -/
def uvmdealloc (oldsz newsz : ℕ) : ℕ := if newsz ≥ oldsz then oldsz else newsz

/-- The size of a program after `growproc(n)`, or `none` for `-1`.  The sum `sz + n` wraps. -/
def growproc (alloc : Alloc) (sz : ℕ) (n : ℤ) : Option ℕ :=
  if 0 < n then if alloc sz n.toNat then some (sz + n.toNat) else none
  else if n < 0 then some (uvmdealloc sz ((sz + n) % 2 ^ 64).toNat)
  else some sz

namespace Heap

/-- `sbrk(n)`, where `none` is `-1`. -/
def sbrk (alloc : Alloc) (s : Heap) (n : ℤ) : Option ℕ × Heap :=
  match growproc alloc s.sz n with
  | none => (none, { s with log := (n, none) :: s.log })
  | some sz => (some s.sz, { s with sz := sz, log := (n, some s.sz) :: s.log })

def setPtr (s : Heap) (a v : ℕ) : Heap := { s with ptr := update s.ptr a v }

def setSize (s : Heap) (a n : ℕ) : Heap := { s with size := update s.size a n }

/-- Where the loop of `free` stops. -/
def Stops (s : Heap) (bp p : ℕ) : Prop :=
  (bp > p ∧ bp < s.ptr p) ∨ (p ≥ s.ptr p ∧ (bp > p ∨ bp < s.ptr p))

instance (s : Heap) (bp p : ℕ) : Decidable (s.Stops bp p) := by unfold Stops; infer_instance

/-- The loop of `free`; `none` if it does not end in `fuel` rounds. -/
def freeLoop (s : Heap) (bp : ℕ) : ℕ → ℕ → Option ℕ
  | 0, _ => none
  | fuel + 1, p => if s.Stops bp p then some p else freeLoop s bp fuel (s.ptr p)

/-- Join `bp` with the block after it, if they touch, and point it to what follows. -/
def joinNext (s : Heap) (bp p : ℕ) : Heap :=
  if bp + 16 * s.size bp = s.ptr p then
    (s.setSize bp ((s.size bp + s.size (s.ptr p)) % 2 ^ 32)).setPtr bp (s.ptr (s.ptr p))
  else s.setPtr bp (s.ptr p)

/-- Join `bp` with the block before it, if they touch, or point that one to it. -/
def joinPrev (s : Heap) (bp p : ℕ) : Heap :=
  if p + 16 * s.size p = bp then
    (s.setSize p ((s.size p + s.size bp) % 2 ^ 32)).setPtr p (s.ptr bp)
  else s.setPtr p bp

/-- `free(ap)`. -/
def free (s : Heap) (fuel ap : ℕ) : Option Heap := do
  let bp := ap - 16
  let p ← s.freeLoop bp fuel s.freep
  return { (s.joinNext bp p).joinPrev bp p with freep := p }

/-- What `morecore` does with the answer of `sbrk`. -/
def addCore (s : Heap) (fuel nu : ℕ) : Option ℕ → Option (ℕ × Heap)
  | none => some (0, s)
  | some hp => do
    let s ← (s.setSize hp nu).free fuel (hp + 16)
    return (s.freep, s)

/-- `morecore(nu)`. -/
def morecore (alloc : Alloc) (s : Heap) (fuel nu : ℕ) : Option (ℕ × Heap) :=
  let nu := if nu < 4096 then 4096 else nu
  let r := s.sbrk alloc (toInt (nu * 16))
  r.2.addCore fuel nu r.1

/-- Take `nunits` units from the block `p`: all of it, or its end. -/
def take (s : Heap) (nunits prevp p : ℕ) : ℕ × Heap :=
  if s.size p = nunits then (p + 16, { s.setPtr prevp (s.ptr p) with freep := prevp })
  else
    let s := s.setSize p (s.size p - nunits)
    let p := p + 16 * s.size p
    (p + 16, { s.setSize p nunits with freep := prevp })

/-- The loop of `malloc`; `none` if it does not end in `fuel` rounds. -/
def mallocLoop (alloc : Alloc) (nunits : ℕ) : ℕ → Heap → ℕ → ℕ → Option (ℕ × Heap)
  | 0, _, _, _ => none
  | fuel + 1, s, prevp, p =>
    if s.size p ≥ nunits then some (s.take nunits prevp p)
    else if p = s.freep then do
      let (p, s) ← s.morecore alloc fuel nunits
      if p = 0 then some (0, s) else mallocLoop alloc nunits fuel s p (s.ptr p)
    else mallocLoop alloc nunits fuel s p (s.ptr p)

/-- The units of a block for `nbytes` bytes, with its header. -/
def unitsFor (nbytes : ℕ) : ℕ := ((nbytes + 16 - 1) / 16 + 1) % 2 ^ 32

/-- The ring with `base` only, at the first call of `malloc`. -/
def start (s : Heap) (base : ℕ) : Heap :=
  if s.freep = 0 then { (s.setPtr base base).setSize base 0 with freep := base } else s

/-- `malloc(nbytes)`, where `base` is the address of the variable. -/
def malloc (alloc : Alloc) (base : ℕ) (s : Heap) (fuel nbytes : ℕ) : Option (ℕ × Heap) :=
  let s := s.start base
  mallocLoop alloc (unitsFor nbytes) fuel s s.freep (s.ptr s.freep)

/-- The memory that `sbrk` has granted. -/
def granted (s : Heap) : List (ℕ × ℕ) :=
  s.log.filterMap fun c => if 0 < c.1 then c.2.map (·, c.1.toNat) else none

end Heap

/-- A program does not get more memory than the machine has, 128 MB. -/
def InMemory (alloc : Alloc) : Prop := ∀ sz n, alloc sz n = true → sz + n ≤ 2 ^ 27

/-- The live blocks: `live` has the address of the header and the bytes that were asked for. -/
def Heap.blocks (s : Heap) (live : List (ℕ × ℕ)) : List (ℕ × ℕ) :=
  live.map fun x => (x.1, 16 * s.size x.1)

/-- Runs of a program that frees live blocks only, writes to its own bytes only, and asks for
blocks whose size fits in an `int`.  It may grow by itself, so the memory that `malloc` gets is
fresh and ascending, but need not be in one piece. -/
inductive HeapRuns (base : ℕ) : Heap → List (ℕ × ℕ) → Prop
  | start {s : Heap} (hfreep : s.freep = 0) (hlog : s.log = []) (hlow : base < s.sz)
      (hsz : s.sz ≤ 2 ^ 27) : HeapRuns base s []
  | malloc {s s' : Heap} {live : List (ℕ × ℕ)} {alloc : Alloc} {fuel nbytes ap : ℕ}
      (before : HeapRuns base s live) (halloc : InMemory alloc)
      (hfit : Heap.unitsFor nbytes * 16 < 2 ^ 31) (hbytes : nbytes < 2 ^ 32)
      (hrun : s.malloc alloc base fuel nbytes = some (ap, s')) :
      HeapRuns base s' (if ap = 0 then live else (ap - 16, nbytes) :: live)
  | free {s s' : Heap} {live : List (ℕ × ℕ)} {x : ℕ × ℕ} {fuel : ℕ}
      (before : HeapRuns base s live) (hx : x ∈ live) (hrun : s.free fuel (x.1 + 16) = some s') :
      HeapRuns base s' (live.erase x)
  /-- Writes to live blocks leave alone the headers that they do not overlap. -/
  | write {s s' : Heap} {live : List (ℕ × ℕ)} (before : HeapRuns base s live)
      (hfreep : s'.freep = s.freep) (hsz : s'.sz = s.sz) (hlog : s'.log = s.log)
      (hsame : ∀ a, (∀ b ∈ s.blocks live, a ≤ b.1 ∨ b.1 + b.2 ≤ a) →
        s'.ptr a = s.ptr a ∧ s'.size a = s.size a) : HeapRuns base s' live

  /-- Other calls of `sbrk`, whose memory is not the allocator's. -/
  | grow {s : Heap} {live : List (ℕ × ℕ)} {sz : ℕ} (before : HeapRuns base s live)
      (hle : s.sz ≤ sz) (hmax : sz ≤ 2 ^ 27) : HeapRuns base { s with sz := sz } live

/-! ### The invariant -/

/-- **The heap after the first call of `malloc`.**  `L` has the free blocks. -/
structure Inv (base : ℕ) (s : Heap) (L live : List (ℕ × ℕ)) : Prop where
  path : Path s.ptr base (L.map Prod.fst) base
  sizes : ∀ b ∈ L, b.2 = 16 * s.size b.1
  zero : s.size base = 0
  freep : s.freep ∈ base :: L.map Prod.fst
  gaps : L.Pairwise fun b c => b.1 + b.2 < c.1
  pos : ∀ b ∈ L, 0 < b.2
  room : ∀ x ∈ live, x.2 + 16 ≤ 16 * s.size x.1
  cover : ∀ x, cover L x + cover (s.blocks live) x = cover s.granted x
  once : ∀ x, Blocks.cover s.granted x ≤ 1
  bound : ∀ b ∈ s.granted, base < b.1 ∧ b.1 + b.2 ≤ s.sz
  top : base < s.sz ∧ s.sz ≤ 2 ^ 36

namespace Inv

variable {base q : ℕ} {s s' : Heap} {L A B live : List (ℕ × ℕ)} {b x : ℕ × ℕ} {alloc : Alloc}

/-- Blocks are in the memory that was granted. -/
theorem inside (h : Inv base s L live) (hb : b ∈ L ++ s.blocks live) (hpos : 0 < b.2) :
    base < b.1 ∧ b.1 + b.2 ≤ s.sz := by
  have hgranted : ∀ y, b.1 ≤ y → y < b.1 + b.2 →
      ∃ g ∈ s.granted, g.1 ≤ y ∧ y < g.1 + g.2 := fun y hle hlt => by
    rw [← cover_pos_iff, ← h.cover, ← cover_append]
    exact lt_of_lt_of_le (by rw [occ_of_mem ⟨hle, hlt⟩]; exact Nat.one_pos) (occ_le_cover hb)
  obtain ⟨g, hg, hfirst, -⟩ := hgranted b.1 le_rfl (by omega)
  obtain ⟨g', hg', -, hlast⟩ := hgranted (b.1 + b.2 - 1) (by omega) (by omega)
  have := h.bound g hg
  have := h.bound g' hg'
  omega

/-- A free block and a live one do not overlap. -/
theorem apart (h : Inv base s L live) (hb : b ∈ L) (hx : x ∈ live) :
    b.1 + b.2 ≤ x.1 ∨ x.1 + 16 * s.size x.1 ≤ b.1 := by
  by_contra hne
  have hbpos := h.pos b hb
  have hxpos := h.room x hx
  have hcover := h.cover (max b.1 x.1)
  have honce := h.once (max b.1 x.1)
  have hinb := occ_le_cover (x := max b.1 x.1) hb
  have hinx := occ_le_cover (x := max b.1 x.1)
    (List.mem_map_of_mem (f := fun x => (x.1, 16 * s.size x.1)) hx)
  rw [occ_of_mem (by omega)] at hinb
  rw [occ_of_mem (by dsimp only; omega)] at hinx
  unfold Heap.blocks at hcover
  omega

theorem nodup (h : Inv base s L live) : (base :: L.map Prod.fst).Nodup := by
  refine List.nodup_cons.mpr ⟨fun hmem => ?_, List.pairwise_map.mpr (h.gaps.imp ?_)⟩
  · obtain ⟨b, hb, hbase⟩ := List.mem_map.mp hmem
    have := h.inside (List.mem_append_left _ hb) (h.pos b hb)
    omega
  · intro b c hbc
    omega

/-- Other live blocks are elsewhere. -/
theorem ne_of_erase (h : Inv base s L live) (hx : x ∈ live) {y : ℕ × ℕ} (hy : y ∈ live.erase x) :
    y.1 + 16 * s.size y.1 ≤ x.1 ∨ x.1 + 16 * s.size x.1 ≤ y.1 := by
  have hpos : ∀ b ∈ s.blocks (x :: live.erase x), 0 < b.2 := by
    rintro _ hb
    obtain ⟨z, hz, rfl⟩ := List.mem_map.mp hb
    have := h.room z ((List.perm_cons_erase hx).mem_iff.mpr hz)
    dsimp only
    omega
  have hpair := pairwise_of_cover hpos fun y => by
    have := cover_perm (x := y) ((List.perm_cons_erase hx).map fun x => (x.1, 16 * s.size x.1))
    have := h.cover y
    have := h.once y
    unfold Heap.blocks at *
    omega
  exact ((List.pairwise_cons.mp hpair).1 _ (List.mem_map_of_mem hy)).symm

/-! ### `free` -/

theorem freeLoop_some {bp : ℕ} (h : Inv base s L live) : ∀ fuel p, p ∈ base :: L.map Prod.fst →
    ∀ q, s.freeLoop bp fuel p = some q → q ∈ base :: L.map Prod.fst ∧ s.Stops bp q := by
  intro fuel
  induction fuel with
  | zero => intro p _ q hq; cases hq
  | succ fuel ih =>
    intro p hp q hq
    rw [Heap.freeLoop] at hq
    split at hq
    · next hstop => exact Option.some.inj hq ▸ ⟨hp, hstop⟩
    · have hnext := h.path.next_mem hp
      exact ih _ (by simpa [or_comm] using hnext) q hq

/-- Where the loop stops, the blocks up to the node are below `bp` and the others above. -/
theorem split_of_stops (h : Inv base s L live) (hx : x ∈ live) {q : ℕ}
    (hq : q ∈ base :: L.map Prod.fst) (hstop : s.Stops x.1 q) :
    ∃ A B, L = A ++ B ∧ q = (base :: A.map Prod.fst).getLast (by simp) ∧
      Path s.ptr q (B.map Prod.fst) base ∧ (∀ b ∈ A, b.1 + b.2 ≤ x.1) ∧ q < x.1 ∧
        ∀ b ∈ B, x.1 + 16 * s.size x.1 ≤ b.1 := by
  obtain ⟨l₁, l₂, hl, hlast, hpath⟩ := h.path.split hq
  obtain ⟨A, B, rfl, rfl, rfl⟩ := List.map_eq_append_iff.mp hl
  have hbase := h.inside (b := (x.1, 16 * s.size x.1))
    (List.mem_append_right _ (List.mem_map_of_mem hx)) (by have := h.room x hx; dsimp only; omega)
  have hgaps := List.pairwise_append.mp h.gaps
  -- the addresses before `q` are not above it
  have hA : ∀ b ∈ A, b.1 ≤ q := fun b hb => by
    obtain ⟨A', c, rfl⟩ := (List.eq_nil_or_concat' A).resolve_left (List.ne_nil_of_mem hb)
    have hq : q = c.1 := by simpa using hlast
    rcases List.mem_append.mp hb with hb | hb
    · have := (List.pairwise_append.mp hgaps.1).2.2 b hb c (by simp)
      omega
    · rw [hq, List.mem_singleton.mp hb]
  have hqbase : base ≤ q := by
    rcases List.mem_cons.mp hq with rfl | hq
    · exact le_rfl
    · obtain ⟨b, hb, rfl⟩ := List.mem_map.mp hq
      exact (h.inside (List.mem_append_left _ hb) (h.pos b hb)).1.le
  have hbelow : ∀ b ∈ A, q < x.1 → b.1 + b.2 ≤ x.1 := fun b hb hlt => by
    have := hA b hb
    have := h.apart (List.mem_append_left _ hb) hx
    omega
  have hroom := h.room x hx
  cases B with
  | nil =>
    have hptr : s.ptr q = base := hpath
    have hlt : q < x.1 := by
      rcases hstop with ⟨-, hlt⟩ | ⟨-, hlt | hlt⟩ <;> omega
    exact ⟨A, [], rfl, hlast, hpath, fun b hb => hbelow b hb hlt, hlt, by simp⟩
  | cons c B =>
    have hptr : s.ptr q = c.1 := hpath.1
    have hqc : q < c.1 := by
      rcases List.eq_nil_or_concat' A with rfl | ⟨A, d, rfl⟩
      · obtain rfl : q = base := by simpa using hlast
        exact (h.inside (b := c) (by simp) (h.pos c (by simp))).1
      · -- the last node before `c` is a block that ends before it
        have hqd : q = d.1 := by simpa using hlast
        have := hgaps.2.2 d (by simp) c (by simp)
        omega
    obtain ⟨hlt, hgt⟩ : q < x.1 ∧ x.1 < c.1 := by
      rcases hstop with ⟨hlt, hgt⟩ | ⟨hge, -⟩ <;> omega
    refine ⟨A, c :: B, rfl, hlast, hpath, fun b hb => hbelow b hb hlt, hlt, ?_⟩
    have hc := h.apart (b := c) (by simp) hx
    have hcpos := h.pos c (by simp)
    rintro b (_ | ⟨_, hb⟩)
    · omega
    · have := (List.pairwise_cons.mp hgaps.2.1).1 b hb
      omega

/-- Changing headers that are not those of live blocks. -/
theorem blocks_congr (hsize : ∀ x ∈ live, s'.size x.1 = s.size x.1) :
    s'.blocks live = s.blocks live :=
  List.map_congr_left fun x hx => by rw [hsize x hx]

/-- The block at `bp` before the blocks `B`, after it was joined with the first one of them if
they touch: it has `N` bytes and stands before `B₁`. -/
structure Joined (base : ℕ) (s s₁ : Heap) (bp : ℕ) (B : List (ℕ × ℕ)) (N : ℕ)
    (B₁ : List (ℕ × ℕ)) : Prop where
  path : Path s₁.ptr bp (B₁.map Prod.fst) base
  size : N = 16 * s₁.size bp
  grows : 16 * s.size bp ≤ N
  other : ∀ a ≠ bp, s₁.ptr a = s.ptr a ∧ s₁.size a = s.size a
  log : s₁.log = s.log
  sz : s₁.sz = s.sz
  cover : ∀ y, occ (bp, N) y + Blocks.cover B₁ y = occ (bp, 16 * s.size bp) y + Blocks.cover B y
  gap : ∀ b ∈ B₁, bp + N < b.1
  suffix : B₁ <:+ B
  bound : bp + N ≤ 2 ^ 36

theorem joinNext (h : Inv base s (A ++ B) live) (hx : x ∈ live)
    (hpath : Path s.ptr q (B.map Prod.fst) base) (hq : q < x.1)
    (hB : ∀ b ∈ B, x.1 + 16 * s.size x.1 ≤ b.1) :
    ∃ N B₁, Joined base s (s.joinNext x.1 q) x.1 B N B₁ := by
  have hroom := h.room x hx
  have hinside := h.inside (b := (x.1, 16 * s.size x.1))
    (List.mem_append_right _ (List.mem_map_of_mem hx)) (by dsimp only; omega)
  have htop := h.top
  dsimp only at hinside
  have hne : ∀ b ∈ B, b.1 ≠ x.1 := fun b hb => by
    have := hB b hb
    omega
  by_cases htouch : x.1 + 16 * s.size x.1 = s.ptr q
  · -- the block after the gap starts where the block ends, so it is not `base`
    cases B with
    | nil => have : s.ptr q = base := hpath; omega
    | cons c B =>
      obtain ⟨hptr, hpath⟩ := hpath
      have hsize := h.sizes c (by simp)
      have hc := h.inside (b := c) (by simp) (h.pos c (by simp))
      have hsum : (s.size x.1 + s.size c.1) % 2 ^ 32 = s.size x.1 + s.size c.1 :=
        Nat.mod_eq_of_lt (by omega)
      rw [hptr] at htouch
      have hjoin : s.joinNext x.1 q = (s.setSize x.1 (s.size x.1 + s.size c.1)).setPtr x.1
          (s.ptr c.1) := by
        rw [Heap.joinNext, hptr, if_pos htouch, hsum]
      rw [hjoin]
      refine ⟨16 * s.size x.1 + c.2, B, ?_, ?_, by omega, fun a ha => ?_, rfl, rfl,
        fun y => ?_, fun b hb => ?_, List.suffix_cons c B, by omega⟩
      · refine path_relabel hpath (by simp [Heap.setPtr]) fun a ha => ?_
        obtain ⟨b, hb, rfl⟩ := List.mem_map.mp ha
        exact update_of_ne (hne b (by simp [hb])) ..
      · simp [Heap.setPtr, Heap.setSize, hsize, Nat.mul_add]
      · simp [Heap.setPtr, Heap.setSize, ha]
      · rw [occ_join, htouch, cover_cons, add_assoc]
      · have := (List.pairwise_cons.mp (List.pairwise_append.mp h.gaps).2.1).1 b hb
        omega
  · rw [Heap.joinNext, if_neg htouch]
    refine ⟨16 * s.size x.1, B, ?_, rfl, le_rfl, fun a ha => ?_, rfl, rfl, fun y => rfl,
      fun b hb => ?_, List.suffix_rfl, by omega⟩
    · refine path_relabel hpath (by simp [Heap.setPtr]) fun a ha => ?_
      obtain ⟨b, hb, rfl⟩ := List.mem_map.mp ha
      exact update_of_ne (hne b hb) ..
    · simp [Heap.setPtr, ha]
    · -- the first of the blocks does not touch, and the others are behind it
      cases B with
      | nil => cases hb
      | cons c B =>
        have hc := hB c (by simp)
        have hptr : s.ptr q = c.1 := hpath.1
        rcases List.mem_cons.mp hb with rfl | hb
        · omega
        · have := (List.pairwise_cons.mp (List.pairwise_append.mp h.gaps).2.1).1 b hb
          omega

/-- The heap `s'` with the blocks `A'` and `b` where `s` has the blocks `A` and the one that is
freed: what changes are the headers at `x` and `q`. -/
theorem insert (h : Inv base s (A ++ B) live) (hx : x ∈ live)
    (hq : q ∈ base :: (A ++ B).map Prod.fst)
    {s₁ : Heap} {N : ℕ} {B₁ A' : List (ℕ × ℕ)} (hj : Joined base s s₁ x.1 B N B₁)
    (hbelow : ∀ c ∈ B, q ≠ c.1 ∧ x.1 < c.1) (hlog : s'.log = s.log) (hsz : s'.sz = s.sz)
    (hsize : ∀ a, a ≠ x.1 → a ≠ q → s'.size a = s.size a) (hzero : s'.size base = 0)
    (hA' : ∀ c ∈ A', s'.size c.1 = s.size c.1) (hsub : A'.Sublist A)
    (hb : b.2 = 16 * s'.size b.1) (hpos : 0 < b.2)
    (hpath : Path s'.ptr base ((A' ++ b :: B₁).map Prod.fst) base)
    (hfreep : s'.freep ∈ base :: (A' ++ b :: B₁).map Prod.fst)
    (hbefore : ∀ c ∈ A', c.1 + c.2 < b.1) (hend : b.1 + b.2 = x.1 + N)
    (hcover : ∀ y, Blocks.cover A' y + occ b y = Blocks.cover A y + occ (x.1, N) y) :
    Inv base s' (A' ++ b :: B₁) (live.erase x) := by
  have hB₁ := hj.suffix.subset
  have hgaps := List.pairwise_append.mp h.gaps
  -- no other live block has its header there
  have hlive : ∀ y ∈ live.erase x, s'.size y.1 = s.size y.1 := fun y hy => by
    have hyl := List.mem_of_mem_erase hy
    have := h.ne_of_erase hx hy
    have := h.room y hyl
    have := h.room x hx
    refine hsize y.1 (by omega) fun hyq => ?_
    rcases List.mem_cons.mp hq with hq | hq
    · have := h.zero
      rw [← hq, ← hyq] at this
      omega
    · obtain ⟨c, hc, hcq⟩ := List.mem_map.mp hq
      have := h.apart hc hyl
      have := h.pos c hc
      omega
  have hgranted : s'.granted = s.granted := by rw [Heap.granted, Heap.granted, hlog]
  refine ⟨hpath, fun c hc => ?_, hzero, hfreep, ?_, fun c hc => ?_, fun y hy => ?_, fun y => ?_,
    ?_, ?_, hsz ▸ h.top⟩
  · simp only [List.mem_append, List.mem_cons] at hc
    rcases hc with hc | rfl | hc
    · rw [h.sizes c (List.mem_append_left _ (hsub.subset hc)), hA' c hc]
    · exact hb
    · have hne := hbelow c (hB₁ hc)
      rw [h.sizes c (List.mem_append_right _ (hB₁ hc)), hsize c.1 hne.2.ne' (Ne.symm hne.1)]
  · refine List.pairwise_append.mpr ⟨hgaps.1.sublist hsub, List.pairwise_cons.mpr ⟨fun c hc => ?_,
      hgaps.2.1.sublist hj.suffix.sublist⟩, fun a ha c hc => ?_⟩
    · rw [hend]
      exact hj.gap c hc
    · rcases List.mem_cons.mp hc with rfl | hc
      · exact hbefore a ha
      · exact hgaps.2.2 a (hsub.subset ha) c (hB₁ hc)
  · simp only [List.mem_append, List.mem_cons] at hc
    rcases hc with hc | rfl | hc
    · exact h.pos c (List.mem_append_left _ (hsub.subset hc))
    · exact hpos
    · exact h.pos c (List.mem_append_right _ (hB₁ hc))
  · rw [hlive y hy]
    exact h.room y (List.mem_of_mem_erase hy)
  · have hperm := cover_perm (x := y)
      ((List.perm_cons_erase hx).map fun x => (x.1, 16 * s.size x.1))
    have hc := h.cover y
    have hjc := hj.cover y
    have hc' := hcover y
    rw [blocks_congr hlive, hgranted]
    simp only [cover_append, List.map_cons, cover_cons, Heap.blocks] at hperm hc hjc ⊢
    omega
  · rw [hgranted]
    exact h.once
  · rw [hgranted, hsz]
    exact h.bound

/-- **What `free` does to the free list.** -/
theorem free (h : Inv base s L live) (hx : x ∈ live) {fuel : ℕ}
    (hrun : s.free fuel (x.1 + 16) = some s') :
    ∃ L', Inv base s' L' (live.erase x) ∧ (s'.log = s.log ∧ s'.sz = s.sz) ∧
      L'.length ≤ L.length + 1 ∧ ∃ b ∈ L', 16 * s.size x.1 ≤ b.2 := by
  rw [Heap.free, Nat.add_sub_cancel] at hrun
  obtain ⟨q, hloop, hs'⟩ := Option.bind_eq_some_iff.mp hrun
  obtain rfl : { (s.joinNext x.1 q).joinPrev x.1 q with freep := q } = s' := by simpa using hs'
  obtain ⟨hq, hstop⟩ := h.freeLoop_some fuel _ h.freep q hloop
  obtain ⟨A, B, rfl, hlast, hpath, hA, hqx, hB⟩ := h.split_of_stops hx hq hstop
  obtain ⟨N, B₁, hj⟩ := h.joinNext hx hpath hqx hB
  have hroom := h.room x hx
  have hgrows := hj.grows
  have hlen := hj.suffix.length_le
  have hbase : base < x.1 := (h.inside (b := (x.1, 16 * s.size x.1))
    (List.mem_append_right _ (List.mem_map_of_mem hx)) (by dsimp only; omega)).1
  have hnodup := h.nodup
  rw [List.map_append, ← List.cons_append] at hnodup
  have hbelow : ∀ c ∈ B, q ≠ c.1 ∧ x.1 < c.1 := fun c hc => by
    have := hB c hc
    omega
  -- the path up to the gap
  have hfirst : ∃ z, Path s.ptr base (A.map Prod.fst) z := by
    have hp := h.path
    rw [List.map_append] at hp
    cases hB' : B.map Prod.fst with
    | nil => exact ⟨base, by simpa [hB'] using hp⟩
    | cons c l => exact ⟨c, (path_append.mp (hB' ▸ hp)).1⟩
  obtain ⟨z, hfirst⟩ := hfirst
  have hAnodup : (base :: A.map Prod.fst).Nodup := (List.nodup_append.mp hnodup).1
  have hAx : ∀ a ∈ base :: A.map Prod.fst, a < x.1 := by
    intro a ha
    rcases List.mem_cons.mp ha with rfl | ha
    · exact hbase
    · obtain ⟨c, hc, rfl⟩ := List.mem_map.mp ha
      have := hA c hc
      have := h.pos c (by simp [hc])
      omega
  have hB₁q : ∀ a ∈ B₁.map Prod.fst, a ≠ q := fun a ha => by
    obtain ⟨c, hc, rfl⟩ := List.mem_map.mp ha
    exact (hbelow c (hj.suffix.subset hc)).1.symm
  obtain ⟨hqptr, hqsize⟩ := hj.other q (by omega)
  generalize s.joinNext x.1 q = s₁ at *
  by_cases htouch : q + 16 * s.size q = x.1
  · -- the block before the gap grows
    rcases List.eq_nil_or_concat' A with rfl | ⟨A, d, rfl⟩
    · obtain rfl : q = base := by simpa using hlast
      have := h.zero
      omega
    obtain rfl : q = d.1 := by simpa using hlast
    have hd := h.sizes d (by simp)
    have hdpos := (h.inside (b := d) (by simp) (h.pos d (by simp))).1
    have hNsize := hj.size
    have hbound := hj.bound
    have hjoin : s₁.joinPrev x.1 d.1 = (s₁.setSize d.1 (s.size d.1 + s₁.size x.1)).setPtr d.1
        (s₁.ptr x.1) := by
      rw [Heap.joinPrev, hqsize, if_pos htouch, Nat.mod_eq_of_lt (by omega)]
    have hgaps := List.pairwise_append.mp (List.pairwise_append.mp h.gaps).1
    rw [hjoin]
    refine ⟨A ++ (d.1, d.2 + N) :: B₁,
      h.insert hx hq hj hbelow hj.log hj.sz (fun a hax haq => ?_) ?_
      (fun c hc => ?_) (List.sublist_append_left A [d]) ?_ (by dsimp only; omega) ?_ ?_
      (fun c hc => ?_) (by dsimp only; omega) fun y => ?_, ⟨hj.log, hj.sz⟩, ?_, _,
        List.mem_append_right A List.mem_cons_self, ?_⟩
    · simp [Heap.setPtr, Heap.setSize, haq, (hj.other a hax).2]
    · simp [Heap.setPtr, Heap.setSize, hdpos.ne, (hj.other base hbase.ne).2, h.zero]
    · have := hgaps.2.2 c hc d (by simp)
      have hcx := hAx c.1 (by simp; exact Or.inr (Or.inl ⟨c.2, hc⟩))
      exact (update_of_ne (by omega) ..).trans (hj.other c.1 hcx.ne).2
    · simp only [Heap.setPtr, Heap.setSize, update_self]
      omega
    · have hlist : (A ++ (d.1, d.2 + N) :: B₁).map Prod.fst =
          (A ++ [d]).map Prod.fst ++ B₁.map Prod.fst := by simp
      rw [hlist]
      refine hfirst.relink hAnodup hlast (fun a ha haq => ?_) (path_relabel hj.path ?_ ?_)
      · rw [← (hj.other a (hAx a ha).ne).1]
        exact update_of_ne haq ..
      · exact update_self ..
      · exact fun a ha => update_of_ne (hB₁q a ha) ..
    · simp
    · exact hgaps.2.2 c hc d (by simp)
    · simp only [occ_join, cover_append, cover_cons, cover_nil, Prod.mk.eta]
      rw [show d.1 + d.2 = x.1 by omega]
      omega
    · simp only [List.length_append, List.length_cons, List.length_nil] at hlen ⊢
      omega
    · dsimp only
      omega
  · -- the block before the gap points to the new one
    have hjoin : s₁.joinPrev x.1 q = s₁.setPtr q x.1 := by
      rw [Heap.joinPrev, hqsize, if_neg htouch]
    rw [hjoin]
    refine ⟨A ++ (x.1, N) :: B₁, h.insert hx hq hj hbelow hj.log hj.sz (fun a hax _ => ?_) ?_
      (fun c hc => ?_) (List.Sublist.refl A) hj.size (by dsimp only; omega) ?_ ?_
      (fun c hc => ?_) rfl fun y => rfl, ⟨hj.log, hj.sz⟩, ?_, _,
        List.mem_append_right A List.mem_cons_self, hgrows⟩
    · exact (hj.other a hax).2
    · exact (hj.other base hbase.ne).2.trans h.zero
    · exact (hj.other c.1 (hAx c.1 (by simp; exact Or.inr ⟨c.2, hc⟩)).ne).2
    · rw [List.map_append, List.map_cons]
      refine hfirst.relink hAnodup hlast (fun a ha haq => ?_) ⟨update_self .., ?_⟩
      · rw [← (hj.other a (hAx a ha).ne).1]
        exact update_of_ne haq ..
      · refine hj.path.congr fun a ha => update_of_ne ?_ ..
        rcases List.mem_cons.mp ha with rfl | ha
        · exact hqx.ne'
        · exact hB₁q a ha
    · show q ∈ _
      rw [hlast, List.map_append, ← List.cons_append]
      exact List.mem_append_left _ (List.getLast_mem _)
    · -- the last block of `A` is at `q` and does not touch, and the others are before it
      have hle := hA c hc
      obtain ⟨A', d, rfl⟩ := (List.eq_nil_or_concat' A).resolve_left (List.ne_nil_of_mem hc)
      obtain rfl : q = d.1 := by simpa using hlast
      have hd := h.sizes d (by simp)
      have hgaps := List.pairwise_append.mp (List.pairwise_append.mp h.gaps).1
      have hdx := hA d (by simp)
      rcases List.mem_append.mp hc with hc | hc
      · have := hgaps.2.2 c hc d (by simp)
        omega
      · rw [List.mem_singleton.mp hc]
        dsimp only
        omega
    · simp only [List.length_append, List.length_cons] at hlen ⊢
      omega

/-- A walk that meets a node where the loop stops. -/
theorem freeLoop_isSome (bp : ℕ) : ∀ (l : List ℕ) (a z fuel : ℕ), Path s.ptr a l z →
    (∃ q ∈ a :: l, s.Stops bp q) → l.length < fuel → (s.freeLoop bp fuel a).isSome := by
  intro l
  induction l with
  | nil =>
    rintro a z (_ | fuel) - ⟨q, hq, hstop⟩ hfuel
    · cases hfuel
    · rw [Heap.freeLoop, if_pos (List.mem_singleton.mp hq ▸ hstop)]
      rfl
  | cons b l ih =>
    rintro a z (_ | fuel) hpath ⟨q, hq, hstop⟩ hfuel
    · cases hfuel
    · rw [Heap.freeLoop]
      split
      · rfl
      · next hgo =>
        rw [hpath.1]
        refine ih b z fuel hpath.2 ⟨q, ?_, hstop⟩ (by simpa using hfuel)
        exact (List.mem_cons.mp hq).resolve_left fun hqa => hgo (hqa ▸ hstop)

/-- From a node below `bp` on, the loop stops somewhere before it is back at `base`. -/
theorem exists_stops (bp : ℕ) : ∀ (l : List ℕ) (a : ℕ), Path s.ptr a l base → a < bp → base ≤ a →
    (∀ b ∈ l, base ≤ b ∧ b ≠ bp) → ∃ q ∈ a :: l, s.Stops bp q := by
  intro l
  induction l with
  | nil =>
    intro a hpath hlt hle _
    have hptr : s.ptr a = base := hpath
    exact ⟨a, by simp, Or.inr ⟨by omega, Or.inl hlt⟩⟩
  | cons b l ih =>
    intro a hpath hlt hle hl
    obtain ⟨hb, hl⟩ := List.forall_mem_cons.mp hl
    by_cases hbp : bp < b
    · exact ⟨a, by simp, Or.inl ⟨hlt, hpath.1.symm ▸ hbp⟩⟩
    · obtain ⟨q, hq, hstop⟩ := ih b hpath.2 (by omega) hb.1 hl
      exact ⟨q, List.mem_cons_of_mem a hq, hstop⟩

/-- **`free` returns.** -/
theorem free_isSome (h : Inv base s L live) (hx : x ∈ live) {fuel : ℕ} (hfuel : L.length < fuel) :
    (s.free fuel (x.1 + 16)).isSome := by
  have hroom := h.room x hx
  have hbase : base < x.1 := (h.inside (b := (x.1, 16 * s.size x.1))
    (List.mem_append_right _ (List.mem_map_of_mem hx)) (by dsimp only; omega)).1
  obtain ⟨q, hq, hstop⟩ := exists_stops x.1 _ base h.path hbase le_rfl fun a ha => by
    obtain ⟨b, hb, rfl⟩ := List.mem_map.mp ha
    have := h.apart hb hx
    have := h.pos b hb
    have := (h.inside (List.mem_append_left _ hb) this).1
    omega
  obtain ⟨l, hpath, hperm⟩ := h.path.rotate h.freep
  have hlen := hperm.length_eq
  simp only [List.length_cons, List.length_map] at hlen
  have hloop := freeLoop_isSome x.1 l _ _ fuel hpath
    ⟨q, hperm.mem_iff.mpr hq, hstop⟩ (by omega)
  rw [Heap.free, Nat.add_sub_cancel]
  obtain ⟨p, hp⟩ := Option.isSome_iff_exists.mp hloop
  rw [hp]
  rfl

/-! ### `malloc` -/

/-- The memory that was granted, after another call of `sbrk`. -/
theorem granted_cons {n : ℤ} (hn : 0 < n) (o : Option ℕ) (hlog : s'.log = (n, o) :: s.log) :
    s'.granted = (o.map (·, n.toNat)).toList ++ s.granted := by
  rw [Heap.granted, Heap.granted, hlog, List.filterMap_cons]
  cases o <;> simp [hn]

/-- `sbrk` fails. -/
theorem refuse (h : Inv base s L live) {n : ℤ} (hn : 0 < n) :
    Inv base { s with log := (n, none) :: s.log } L live := by
  have hgranted : Heap.granted { s with log := (n, none) :: s.log } = s.granted :=
    granted_cons hn none rfl
  refine ⟨h.path, h.sizes, h.zero, h.freep, h.gaps, h.pos, h.room, ?_, ?_, ?_, h.top⟩ <;>
    rw [hgranted]
  · exact h.cover
  · exact h.once
  · exact h.bound

/-- The heap after `sbrk` has granted `nu` units, of which the header is written. -/
def extended (s : Heap) (nu : ℕ) : Heap :=
  { s with sz := s.sz + nu * 16, log := ((nu * 16 : ℕ), some s.sz) :: s.log }.setSize s.sz nu

/-- New memory is a live block at first. -/
theorem grant (h : Inv base s L live) {nu : ℕ} (hnu : 0 < nu) (hmax : s.sz + nu * 16 ≤ 2 ^ 36) :
    Inv base (extended s nu) L ((s.sz, 16 * nu - 16) :: live) := by
  obtain ⟨a, ha⟩ : ∃ a, s.sz = a := ⟨_, rfl⟩
  have hbase : base < a := ha ▸ h.top.1
  -- everything that was granted before ends before the new memory
  have hbelow : ∀ g ∈ s.granted, g.1 + g.2 ≤ a := fun g hg => ha ▸ (h.bound g hg).2
  rw [ha] at hmax ⊢
  have hlow : ∀ b ∈ L ++ s.blocks live, 0 < b.2 → b.1 ≠ a := fun b hb hpos hba => by
    have hin : 0 < Blocks.cover s.granted b.1 := by
      rw [← h.cover, ← cover_append]
      exact lt_of_lt_of_le (by rw [occ_of_mem (by omega)]; exact Nat.one_pos) (occ_le_cover hb)
    obtain ⟨g, hg, -, hlt⟩ := cover_pos_iff.mp hin
    have := hbelow g hg
    omega
  have hlive : ∀ y ∈ live, y.1 ≠ a := fun y hy => by
    have hroom := h.room y hy
    exact hlow (y.1, 16 * s.size y.1) (List.mem_append_right _ (List.mem_map_of_mem hy))
      (by dsimp only; omega)
  generalize hs' : extended s nu = s'
  unfold extended at hs'
  rw [ha] at hs'
  have hsize : ∀ c ≠ a, s'.size c = s.size c := fun c hc => by
    rw [← hs']
    exact update_of_ne hc ..
  have hself : s'.size a = nu := by
    rw [← hs']
    exact update_self ..
  have hgranted : s'.granted = (a, nu * 16) :: s.granted := by
    rw [granted_cons (n := (nu * 16 : ℕ)) (by omega) (some a) (by rw [← hs']; rfl),
      Int.toNat_natCast]
    rfl
  have hblocks : s'.blocks ((a, 16 * nu - 16) :: live) = (a, nu * 16) :: s.blocks live := by
    rw [Heap.blocks, List.map_cons, hself, mul_comm]
    exact congrArg _ (blocks_congr fun y hy => hsize y.1 (hlive y hy))
  refine ⟨?_, fun b hb => ?_, (hsize base hbase.ne).trans h.zero, ?_, h.gaps, h.pos, ?_,
    fun y => ?_, fun y => ?_, ?_, ?_⟩
  · rw [← hs']
    exact h.path
  · rw [hsize b.1 (hlow b (List.mem_append_left _ hb) (h.pos b hb))]
    exact h.sizes b hb
  · rw [← hs']
    exact h.freep
  · refine List.forall_mem_cons.mpr ⟨?_, fun y hy => ?_⟩
    · dsimp only
      omega
    · rw [hsize y.1 (hlive y hy)]
      exact h.room y hy
  · have := h.cover y
    rw [hblocks, hgranted, cover_cons, cover_cons]
    omega
  · rw [hgranted, cover_cons]
    by_cases hy : a ≤ y
    · have hzero : ¬0 < Blocks.cover s.granted y := fun hpos => by
        obtain ⟨g, hg, -, hlt⟩ := cover_pos_iff.mp hpos
        have := hbelow g hg
        omega
      have : occ (a, nu * 16) y ≤ 1 := by unfold occ; split <;> omega
      omega
    · have : occ (a, nu * 16) y = 0 := if_neg fun h => hy h.1
      have := h.once y
      omega
  · have hsz : s'.sz = a + nu * 16 := by rw [← hs']; rfl
    rw [hgranted, hsz]
    refine List.forall_mem_cons.mpr ⟨⟨hbase, by dsimp only; omega⟩, fun b hb => ?_⟩
    have := h.bound b hb
    omega
  · have hsz : s'.sz = a + nu * 16 := by rw [← hs']; rfl
    omega

/-- **What `malloc` takes** is a live block then. -/
theorem take (h : Inv base s L live) {prevp nunits nbytes : ℕ}
    (hprev : prevp ∈ base :: L.map Prod.fst) (hsize : nunits ≤ s.size (s.ptr prevp))
    (hpos : 0 < nunits) (hn : nbytes + 16 ≤ 16 * nunits) :
    ∃ L', Inv base (s.take nunits prevp (s.ptr prevp)).2 L'
        (((s.take nunits prevp (s.ptr prevp)).1 - 16, nbytes) :: live) ∧
      (s.take nunits prevp (s.ptr prevp)).1 ≠ 0 := by
  obtain ⟨l₁, l₂, hl, hlast, hpath⟩ := h.path.split hprev
  obtain ⟨A, B, rfl, rfl, rfl⟩ := List.map_eq_append_iff.mp hl
  cases B with
  | nil =>
    have hptr : s.ptr prevp = base := hpath
    rw [hptr, h.zero] at hsize
    omega
  | cons c B =>
    obtain ⟨hptr, hpath⟩ := hpath
    have hc := h.sizes c (by simp)
    have hgaps := List.pairwise_append.mp h.gaps
    have hBgaps := List.pairwise_cons.mp hgaps.2.1
    rw [hptr] at hsize ⊢
    -- the other live blocks are not where the taken one is
    have hlive : ∀ y ∈ live, y.1 < c.1 ∨ c.1 + c.2 ≤ y.1 := fun y hy => by
      have := h.apart (b := c) (by simp) hy
      have := h.room y hy
      omega
    by_cases hall : s.size c.1 = nunits
    · rw [Heap.take, if_pos hall]
      refine ⟨A ++ B, ⟨?_, fun b hb => h.sizes b ?_, h.zero, ?_, ?_, fun b hb => h.pos b ?_, ?_,
        fun y => ?_, h.once, h.bound, h.top⟩, by simp⟩
      · have hp := h.path
        rw [List.map_append, List.map_cons] at hp
        have hnodup := h.nodup
        rw [List.map_append, List.map_cons, ← List.cons_append] at hnodup
        have hdisj := List.nodup_append.mp hnodup
        rw [List.map_append]
        refine (path_append.mp hp).1.relink hdisj.1 hlast (fun a _ ha => ?_)
          (path_relabel hpath ?_ fun a ha => ?_)
        · exact update_of_ne ha ..
        · exact update_self ..
        · refine update_of_ne (fun hap => ?_) ..
          exact hdisj.2.2 prevp (hlast ▸ List.getLast_mem _) a (by simp [ha]) hap.symm
      · simp only [List.mem_append, List.mem_cons] at hb ⊢
        tauto
      · show prevp ∈ _
        rw [hlast, List.map_append, ← List.cons_append]
        exact List.mem_append_left _ (List.getLast_mem _)
      · exact h.gaps.sublist ((List.Sublist.refl A).append (List.sublist_cons_self c B))
      · simp only [List.mem_append, List.mem_cons] at hb ⊢
        tauto
      · refine List.forall_mem_cons.mpr ⟨?_, h.room⟩
        show nbytes + 16 ≤ 16 * s.size c.1
        omega
      · have hcov := h.cover y
        have hblock : (c.1, 16 * s.size c.1) = c := by rw [← hc]
        simp only [Heap.blocks, List.map_cons, Heap.setPtr, Nat.add_sub_cancel, cover_cons,
          cover_append, hblock] at hcov ⊢
        exact (by omega : _ = _).trans hcov
    · rw [Heap.take, if_neg hall]
      dsimp only
      have hleft : (s.setSize c.1 (s.size c.1 - nunits)).size c.1 = s.size c.1 - nunits :=
        update_self ..
      rw [hleft]
      generalize hp : c.1 + 16 * (s.size c.1 - nunits) = p
      generalize hs' : { (s.setSize c.1 (s.size c.1 - nunits)).setSize p nunits with
        freep := prevp } = s'
      have hpsize : s'.size p = nunits := by
        rw [← hs']
        exact update_self ..
      have hcsize : s'.size c.1 = s.size c.1 - nunits := by
        rw [← hs']
        exact (update_of_ne (by omega) ..).trans hleft
      have hother : ∀ a, a < c.1 ∨ c.1 + c.2 ≤ a → s'.size a = s.size a := fun a ha => by
        rw [← hs']
        exact (update_of_ne (by omega) ..).trans (update_of_ne (by omega) ..)
      have hAout : ∀ b ∈ A, b.1 < c.1 := fun b hb => by
        have := hgaps.2.2 b hb c (by simp)
        omega
      have hcin := h.inside (b := c) (by simp) (h.pos c (by simp))
      have hgranted : s'.granted = s.granted := by rw [← hs']; rfl
      have hsz : s'.sz = s.sz := by rw [← hs']; rfl
      have hfst : (A ++ (c.1, 16 * (s.size c.1 - nunits)) :: B).map Prod.fst =
          (A ++ c :: B).map Prod.fst := by simp
      refine ⟨A ++ (c.1, 16 * (s.size c.1 - nunits)) :: B, ⟨?_, fun b hb => ?_, ?_, ?_, ?_,
        fun b hb => ?_, ?_, fun y => ?_, ?_, ?_, ?_⟩, by simp⟩
      · rw [hfst, ← hs']
        exact h.path
      · simp only [List.mem_append, List.mem_cons] at hb
        rcases hb with hb | rfl | hb
        · rw [hother b.1 (Or.inl (hAout b hb))]
          exact h.sizes b (by simp [hb])
        · rw [hcsize]
        · rw [hother b.1 (Or.inr (hBgaps.1 b hb).le)]
          exact h.sizes b (by simp [hb])
      · rw [hother base (Or.inl hcin.1)]
        exact h.zero
      · rw [hfst, ← hs']
        exact hprev
      · refine List.pairwise_append.mpr ⟨hgaps.1, List.pairwise_cons.mpr ⟨fun b hb => ?_, hBgaps.2⟩,
          fun a ha b hb => ?_⟩
        · have := hBgaps.1 b hb
          dsimp only
          omega
        · rcases List.mem_cons.mp hb with rfl | hb
          · exact hgaps.2.2 a ha c (by simp)
          · exact hgaps.2.2 a ha b (by simp [hb])
      · simp only [List.mem_append, List.mem_cons] at hb
        rcases hb with hb | rfl | hb
        · exact h.pos b (by simp [hb])
        · dsimp only
          omega
        · exact h.pos b (by simp [hb])
      · refine List.forall_mem_cons.mpr ⟨?_, fun y hy => ?_⟩
        · rw [Nat.add_sub_cancel, hpsize]
          exact hn
        · rw [hother y.1 (hlive y hy)]
          exact h.room y hy
      · have hcov := h.cover y
        have hjoin := occ_join c.1 (16 * (s.size c.1 - nunits)) (16 * nunits) y
        rw [hp, ← Nat.mul_add, Nat.sub_add_cancel hsize, ← hc, Prod.mk.eta] at hjoin
        rw [Heap.blocks, List.map_cons, Nat.add_sub_cancel, hpsize, hgranted]
        have hrest := blocks_congr (s := s) fun y hy => hother y.1 (hlive y hy)
        rw [Heap.blocks] at hrest
        simp only [cover_append, cover_cons, hrest] at hcov ⊢
        omega
      · rw [hgranted]
        exact h.once
      · rw [hgranted, hsz]
        exact h.bound
      · rw [hsz]
        exact h.top

/-- Taking a block calls nothing. -/
theorem take_same (s : Heap) (nunits prevp p : ℕ) :
    (s.take nunits prevp p).2.log = s.log ∧ (s.take nunits prevp p).2.sz = s.sz := by
  unfold Heap.take
  split <;> exact ⟨rfl, rfl⟩

theorem take_ne_zero (s : Heap) (nunits prevp p : ℕ) : (s.take nunits prevp p).1 ≠ 0 := by
  unfold Heap.take
  split <;> exact Nat.succ_ne_zero _

theorem freep_ne_zero (h : Inv base s L live) (hbase : 0 < base) : s.freep ≠ 0 := by
  rcases List.mem_cons.mp h.freep with hf | hf
  · omega
  · obtain ⟨b, hb, hf⟩ := List.mem_map.mp hf
    have := (h.inside (List.mem_append_left _ hb) (h.pos b hb)).1
    omega

/-- Calls of `sbrk` ask for more memory, and the machine has it. -/
structure Asked (s s' : Heap) : Prop where
  calls : ∀ c ∈ s'.log, c ∈ s.log ∨ 0 < c.1
  memory : s.sz ≤ 2 ^ 27 → s'.sz ≤ 2 ^ 27

theorem Asked.of_same (h : s'.log = s.log ∧ s'.sz = s.sz) : Asked s s' :=
  ⟨fun _ hc => Or.inl (h.1 ▸ hc), fun hsz => h.2 ▸ hsz⟩

theorem Asked.trans {t : Heap} (h : Asked s t) (h' : Asked t s') : Asked s s' :=
  ⟨fun c hc => (h'.calls c hc).elim (h.calls c) Or.inr, fun hsz => h'.memory (h.memory hsz)⟩

/-- `morecore` where `sbrk` fails. -/
theorem morecore_none {nunits nu fuel : ℕ} (hnu : (if nunits < 4096 then 4096 else nunits) = nu)
    (hgrow : growproc alloc s.sz (toInt (nu * 16)) = none) :
    s.morecore alloc fuel nunits =
      some (0, { s with log := (toInt (nu * 16), none) :: s.log }) := by
  have hsbrk : s.sbrk alloc (toInt (nu * 16)) =
      (none, { s with log := (toInt (nu * 16), none) :: s.log }) := by rw [Heap.sbrk, hgrow]
  rw [Heap.morecore, hnu, hsbrk]
  rfl

/-- `morecore` where `sbrk` answers with the end of the memory. -/
theorem morecore_some {nunits nu fuel sz : ℕ}
    (hnu : (if nunits < 4096 then 4096 else nunits) = nu)
    (hgrow : growproc alloc s.sz (toInt (nu * 16)) = some sz) :
    s.morecore alloc fuel nunits =
      (Heap.free ({ s with sz := sz, log := (toInt (nu * 16), some s.sz) :: s.log }.setSize
        s.sz nu) fuel (s.sz + 16)).map fun s' : Heap => (s'.freep, s') := by
  have hsbrk : s.sbrk alloc (toInt (nu * 16)) =
      (some s.sz, { s with sz := sz, log := (toInt (nu * 16), some s.sz) :: s.log }) := by
    rw [Heap.sbrk, hgrow]
  rw [Heap.morecore, hnu, hsbrk, Heap.addCore]
  cases Heap.free _ fuel (s.sz + 16) <;> rfl

/-- What `morecore` asks for, if the request fits in an `int`, and what it does then. -/
theorem morecore_eq {nunits : ℕ} (hfit : nunits * 16 < 2 ^ 31) (alloc : Alloc) (s : Heap)
    (fuel : ℕ) : ∃ nu : ℕ, nunits ≤ nu ∧ 0 < nu ∧
      (alloc s.sz (nu * 16) = false → s.morecore alloc fuel nunits =
        some (0, { s with log := ((nu * 16 : ℕ), none) :: s.log })) ∧
      (alloc s.sz (nu * 16) = true → s.morecore alloc fuel nunits =
        ((extended s nu).free fuel (s.sz + 16)).map fun s' : Heap => (s'.freep, s')) := by
  obtain ⟨nu, hnu⟩ : ∃ nu, (if nunits < 4096 then 4096 else nunits) = nu := ⟨_, rfl⟩
  have hbounds : nunits ≤ nu ∧ 0 < nu ∧ nu * 16 < 2 ^ 31 := by
    split at hnu <;> omega
  have hint : toInt (nu * 16) = (nu * 16 : ℕ) := by
    unfold toInt
    omega
  have hgrow : growproc alloc s.sz (nu * 16 : ℕ) =
      if alloc s.sz (nu * 16) then some (s.sz + nu * 16) else none := by
    rw [growproc, if_pos (by omega), Int.toNat_natCast]
  refine ⟨nu, hbounds.1, hbounds.2.1, fun ha => ?_, fun ha => ?_⟩
  · rw [morecore_none hnu (by rw [hint, hgrow, ha]; rfl), hint]
  · rw [morecore_some hnu (by rw [hint, hgrow, ha]; rfl), hint]
    rfl

/-- What `morecore` leaves, if the request fits in an `int`: the memory is added to the free
list. -/
theorem morecore (h : Inv base s L live) (hbase : 0 < base) (halloc : InMemory alloc)
    {nunits fuel : ℕ} (hfit : nunits * 16 < 2 ^ 31) {p : ℕ}
    (hrun : s.morecore alloc fuel nunits = some (p, s')) :
    (p = 0 ∧ Inv base s' L live ∨ p ≠ 0 ∧ p = s'.freep ∧ ∃ L', Inv base s' L' live ∧
      L'.length ≤ L.length + 1 ∧ ∃ b ∈ L', 16 * nunits ≤ b.2) ∧ Asked s s' := by
  obtain ⟨nu, hle, hpos, hnone, hsome⟩ := morecore_eq hfit alloc s fuel
  have hcall : (0 : ℤ) < (nu * 16 : ℕ) := by omega
  cases ha : alloc s.sz (nu * 16) with
  | false =>
    rw [hnone ha] at hrun
    obtain ⟨rfl, rfl⟩ := Prod.mk.inj (Option.some.inj hrun).symm
    exact ⟨Or.inl ⟨rfl, h.refuse hcall⟩,
      List.forall_mem_cons.mpr ⟨Or.inr hcall, fun c hc => Or.inl hc⟩, id⟩
  | true =>
    have hmem := halloc _ _ ha
    rw [hsome ha] at hrun
    obtain ⟨s₂, hfree, hs₂⟩ := Option.map_eq_some_iff.mp hrun
    obtain ⟨rfl, rfl⟩ := Prod.mk.inj hs₂
    obtain ⟨L', hinv, ⟨hlog, hsz⟩, hlen, b, hb, hbig⟩ :=
      (h.grant hpos (by omega)).free List.mem_cons_self hfree
    rw [List.erase_cons_head] at hinv
    refine ⟨Or.inr ⟨hinv.freep_ne_zero hbase, rfl, L', hinv, hlen, b, hb, ?_⟩, ?_, fun _ => ?_⟩
    · have hsize : (extended s nu).size s.sz = nu := update_self ..
      rw [hsize] at hbig
      omega
    · rw [hlog]
      exact List.forall_mem_cons.mpr ⟨Or.inr hcall, fun c hc => Or.inl hc⟩
    · rw [hsz]
      exact hmem

/-- **What `malloc` keeps.** -/
theorem mallocLoop (hbase : 0 < base) (halloc : InMemory alloc) {nunits nbytes : ℕ}
    (hpos : 0 < nunits) (hn : nbytes + 16 ≤ 16 * nunits) (hfit : nunits * 16 < 2 ^ 31) :
    ∀ (fuel : ℕ) (s : Heap) (L : List (ℕ × ℕ)) (prevp ap : ℕ) (s' : Heap), Inv base s L live →
      prevp ∈ base :: L.map Prod.fst →
      s.mallocLoop alloc nunits fuel prevp (s.ptr prevp) = some (ap, s') →
        (∃ L', Inv base s' L' (if ap = 0 then live else (ap - 16, nbytes) :: live)) ∧
          Asked s s' := by
  intro fuel
  induction fuel with
  | zero => intro s L prevp ap s' _ _ hrun; cases hrun
  | succ fuel ih =>
    intro s L prevp ap s' h hprev hrun
    have hnext : s.ptr prevp ∈ base :: L.map Prod.fst := by
      simpa [or_comm] using h.path.next_mem hprev
    rw [Heap.mallocLoop] at hrun
    split at hrun
    · next hsize =>
      obtain ⟨L', hinv, hne⟩ := h.take hprev hsize hpos hn
      have hsame := take_same s nunits prevp (s.ptr prevp)
      rw [Option.some.inj hrun] at hinv hne hsame
      rw [if_neg hne]
      exact ⟨⟨L', hinv⟩, .of_same hsame⟩
    · split at hrun
      · obtain ⟨⟨p, s₂⟩, hmore, hrun⟩ := Option.bind_eq_some_iff.mp hrun
        obtain ⟨hp, hasked⟩ := h.morecore hbase halloc hfit hmore
        rcases hp with ⟨rfl, hinv⟩ | ⟨hp, rfl, L', hinv, -⟩
        · obtain ⟨rfl, rfl⟩ := Prod.mk.inj (Option.some.inj hrun).symm
          exact ⟨⟨L, hinv⟩, hasked⟩
        · replace hrun := (if_neg hp).symm.trans hrun
          exact (ih s₂ L' s₂.freep ap s' hinv hinv.freep hrun).imp_right hasked.trans
      · exact ih s L (s.ptr prevp) ap s' h hnext hrun

/-- The loop looks at all nodes before it is back at `freep`. -/
theorem mallocLoop_search (alloc : Alloc) (nunits : ℕ) : ∀ (l : List ℕ) (a fuel : ℕ),
    Path s.ptr a l s.freep →
    s.freep ∉ l → l.length < fuel →
      (∃ prev, ∃ b ∈ l, nunits ≤ s.size b ∧
        s.mallocLoop alloc nunits fuel a (s.ptr a) = some (s.take nunits prev b)) ∨
        (∀ b ∈ l, s.size b < nunits) ∧ ∃ prev, s.mallocLoop alloc nunits fuel a (s.ptr a) =
          s.mallocLoop alloc nunits (fuel - l.length) prev s.freep := by
  intro l
  induction l with
  | nil =>
    intro a fuel hpath _ _
    exact Or.inr ⟨by simp, a, by rw [show s.ptr a = s.freep from hpath]; rfl⟩
  | cons b l ih =>
    rintro a (_ | fuel) hpath hmem hfuel
    · cases hfuel
    simp only [List.mem_cons, not_or, List.length_cons] at hmem hfuel
    rw [hpath.1, Heap.mallocLoop]
    by_cases hsize : s.size b ≥ nunits
    · rw [if_pos hsize]
      exact Or.inl ⟨a, b, List.mem_cons_self, hsize, rfl⟩
    · rw [if_neg hsize, if_neg (Ne.symm hmem.1), List.length_cons, Nat.add_sub_add_right]
      rcases ih b fuel hpath.2 hmem.2 (by omega) with ⟨prev, c, hc, htake⟩ | ⟨hsmall, hprev⟩
      · exact Or.inl ⟨prev, c, List.mem_cons_of_mem _ hc, htake⟩
      · exact Or.inr ⟨List.forall_mem_cons.mpr ⟨by omega, hsmall⟩, hprev⟩

/-- From `freep` on, in any heap `t` with this free list, the loop takes a large block or is back
with none. -/
theorem mallocLoop_around (h : Inv base s L live) {t : Heap} (hptr : t.ptr = s.ptr)
    (hsize : t.size = s.size) (hfreep : t.freep = s.freep) (alloc : Alloc) (nunits : ℕ) {fuel : ℕ}
    (hfuel : L.length < fuel) :
    (∃ prev, ∃ a ∈ base :: L.map Prod.fst, nunits ≤ s.size a ∧
      t.mallocLoop alloc nunits fuel t.freep (t.ptr t.freep) = some (t.take nunits prev a)) ∨
      (∀ b ∈ L, 16 * nunits ≤ b.2 → b.1 = t.freep) ∧
        ∃ prev, t.mallocLoop alloc nunits fuel t.freep (t.ptr t.freep) =
          t.mallocLoop alloc nunits (fuel - L.length) prev t.freep := by
  obtain ⟨l, hpath, hperm⟩ := h.path.rotate h.freep
  have hlen := hperm.length_eq
  simp only [List.length_cons, List.length_map, Nat.add_right_cancel_iff] at hlen
  have hnot : s.freep ∉ l := (List.nodup_cons.mp (hperm.nodup_iff.mpr h.nodup)).1
  rw [← hfreep] at hpath hnot hperm
  rw [← hptr] at hpath
  rcases mallocLoop_search alloc nunits l t.freep fuel hpath hnot (by omega)
    with ⟨prev, a, ha, hlarge, htake⟩ | ⟨hsmall, hprev⟩
  · exact Or.inl ⟨prev, a, hperm.mem_iff.mp (List.mem_cons_of_mem _ ha), hsize ▸ hlarge, htake⟩
  refine Or.inr ⟨fun b hb hbig => ?_, hlen ▸ hprev⟩
  have hmem : b.1 ∈ t.freep :: l :=
    hperm.mem_iff.mpr (List.mem_cons_of_mem _ (List.mem_map_of_mem hb))
  refine (List.mem_cons.mp hmem).resolve_right fun hbl => ?_
  have hlt := hsmall b.1 hbl
  have := h.sizes b hb
  rw [hsize] at hlt
  omega

/-- A large block of the free list is found. -/
theorem mallocLoop_takes (h : Inv base s L live) {t : Heap} (hptr : t.ptr = s.ptr)
    (hsize : t.size = s.size) (hfreep : t.freep = s.freep) (alloc : Alloc) {nunits fuel : ℕ}
    (hfuel : L.length < fuel) (hb : b ∈ L) (hbig : 16 * nunits ≤ b.2) :
    ∃ prev a, t.mallocLoop alloc nunits fuel t.freep (t.ptr t.freep) =
      some (t.take nunits prev a) := by
  rcases h.mallocLoop_around hptr hsize hfreep alloc nunits hfuel with
    ⟨prev, a, -, -, htake⟩ | ⟨hlarge, prev, heq⟩
  · exact ⟨prev, a, htake⟩
  obtain ⟨f, hf⟩ : ∃ f, fuel - L.length = f + 1 := ⟨fuel - L.length - 1, by omega⟩
  have hblock := h.sizes b hb
  rw [heq, hf, Heap.mallocLoop, if_pos]
  · exact ⟨prev, t.freep, rfl⟩
  · rw [← hlarge b hb hbig, hsize]
    omega

/-- Where no block is large enough, the loop asks for more memory. -/
theorem mallocLoop_asks (h : Inv base s L live) (alloc : Alloc) {nunits f : ℕ}
    (hpos : 0 < nunits) (hsmall : ∀ b ∈ L, b.2 < 16 * nunits) :
    s.mallocLoop alloc nunits (L.length + (f + 1)) s.freep (s.ptr s.freep) =
      (s.morecore alloc f nunits).bind fun r =>
        if r.1 = 0 then some (0, r.2) else r.2.mallocLoop alloc nunits f r.1 (r.2.ptr r.1) := by
  have hsizes : ∀ a ∈ base :: L.map Prod.fst, s.size a < nunits := by
    refine List.forall_mem_cons.mpr ⟨h.zero ▸ hpos, fun a ha => ?_⟩
    obtain ⟨b, hb, rfl⟩ := List.mem_map.mp ha
    have := h.sizes b hb
    have := hsmall b hb
    omega
  rcases h.mallocLoop_around rfl rfl rfl alloc nunits
    (by omega : L.length < L.length + (f + 1)) with
    ⟨prev, a, ha, hlarge, -⟩ | ⟨-, prev, heq⟩
  · have := hsizes a ha
    omega
  · rw [heq, Nat.add_sub_cancel_left, Heap.mallocLoop,
      if_neg (Nat.not_le.mpr (hsizes _ h.freep)), if_pos rfl]
    rfl

/-- **`malloc` returns.** -/
theorem mallocLoop_isSome (h : Inv base s L live) (hbase : 0 < base) (halloc : InMemory alloc)
    {nunits fuel : ℕ} (hpos : 0 < nunits) (hfit : nunits * 16 < 2 ^ 31)
    (hfuel : 3 * L.length + 4 < fuel) :
    (s.mallocLoop alloc nunits fuel s.freep (s.ptr s.freep)).isSome := by
  by_cases hlarge : ∃ b ∈ L, 16 * nunits ≤ b.2
  · obtain ⟨b, hb, hbig⟩ := hlarge
    obtain ⟨prev, a, htake⟩ :=
      h.mallocLoop_takes rfl rfl rfl alloc (by omega : L.length < fuel) hb hbig
    rw [htake]
    rfl
  have hsmall : ∀ b ∈ L, b.2 < 16 * nunits := fun b hb => by
    by_contra hle
    exact hlarge ⟨b, hb, by omega⟩
  obtain ⟨f, rfl⟩ : ∃ f, fuel = L.length + (f + 1) := ⟨fuel - L.length - 1, by omega⟩
  rw [h.mallocLoop_asks alloc hpos hsmall]
  cases hmore : s.morecore alloc f nunits with
  | none =>
    obtain ⟨nu, -, hpos, hnone, hsome⟩ := morecore_eq hfit alloc s f
    cases ha : alloc s.sz (nu * 16) with
    | false => rw [hnone ha] at hmore; cases hmore
    | true =>
      have hmem := halloc _ _ ha
      have hfree := (h.grant hpos (by omega)).free_isSome List.mem_cons_self
        (by omega : L.length < f)
      rw [hsome ha, Option.map_eq_none_iff] at hmore
      rw [hmore] at hfree
      cases hfree
  | some r =>
    obtain ⟨p, s₂⟩ := r
    obtain ⟨⟨rfl, -⟩ | ⟨hp, rfl, L', hinv, hlen, b, hb, hbig⟩, -⟩ :=
      h.morecore hbase halloc hfit hmore
    · rfl
    obtain ⟨prev, a, htake⟩ :=
      hinv.mallocLoop_takes rfl rfl rfl alloc (by omega : L'.length < f) hb hbig
    rw [Option.bind_some, if_neg hp, htake]
    rfl

/-- `free` looks at the headers only. -/
theorem free_congr {t : Heap} (hptr : t.ptr = s.ptr) (hsize : t.size = s.size)
    (hfreep : t.freep = s.freep) (fuel ap : ℕ) :
    t.free fuel ap = (s.free fuel ap).map fun r => { r with sz := t.sz, log := t.log } := by
  obtain ⟨ptr, size, freep, sz, log⟩ := s
  obtain ⟨ptr', size', freep', sz', log'⟩ := t
  obtain rfl : ptr' = ptr := hptr
  obtain rfl : size' = size := hsize
  obtain rfl : freep' = freep := hfreep
  have hloop : ∀ fuel p, Heap.freeLoop ⟨ptr', size', freep', sz', log'⟩ (ap - 16) fuel p =
      Heap.freeLoop ⟨ptr', size', freep', sz, log⟩ (ap - 16) fuel p := by
    intro fuel
    induction fuel with
    | zero => exact fun _ => rfl
    | succ fuel ih => exact fun p => if_congr Iff.rfl rfl (ih _)
  unfold Heap.free
  dsimp only
  rw [hloop]
  cases Heap.freeLoop ⟨ptr', size', freep', sz, log⟩ (ap - 16) fuel freep' with
  | none => rfl
  | some p =>
    simp only [Option.bind_eq_bind, Option.bind_some, Option.pure_def, Option.map_some]
    congr 1
    unfold Heap.joinPrev Heap.joinNext Heap.setPtr Heap.setSize
    split <;> split <;> rfl

/-- **A request of almost 2 GB or more**: there is no such block, and `malloc` returns one of
which no more was granted than the `int` says. -/
theorem mallocLoop_large (h : Inv base s L live) (hbase : 0 < base) (hmem : s.sz ≤ 2 ^ 27)
    {u fuel sz : ℕ} (hlow : 2 ^ 27 ≤ u) (hhigh : u ≤ 2 ^ 28 + 1)
    (hgrow : growproc alloc s.sz (toInt (u * 16)) = some sz) (hfuel : 3 * L.length + 4 < fuel) :
    ∃ ap s', s.mallocLoop alloc u fuel s.freep (s.ptr s.freep) = some (ap, s') ∧ ap ≠ 0 ∧
      s'.log = (toInt (u * 16), some s.sz) :: s.log := by
  have hsmall : ∀ b ∈ L, b.2 < 16 * u := fun b hb => by
    have := (h.inside (List.mem_append_left _ hb) (h.pos b hb)).2
    omega
  obtain ⟨f, rfl⟩ : ∃ f, fuel = L.length + (f + 1) := ⟨fuel - L.length - 1, by omega⟩
  -- the headers are those of a heap to which all of the units were granted
  have hgrant := h.grant (by omega : 0 < u) (by omega)
  obtain ⟨v, hfree⟩ := Option.isSome_iff_exists.mp
    (hgrant.free_isSome List.mem_cons_self (by omega : L.length < f))
  obtain ⟨L', hinv, -, hlen, b, hb, hbig⟩ := hgrant.free List.mem_cons_self hfree
  rw [List.erase_cons_head] at hinv
  have hsize : (extended s u).size s.sz = u := update_self ..
  rw [hsize] at hbig
  have hmore : s.morecore alloc f u = some (v.freep,
      { v with sz := sz, log := (toInt (u * 16), some s.sz) :: s.log }) := by
    rw [morecore_some (if_neg (by omega)) hgrow]
    have hcongr := free_congr (s := extended s u)
      (t := { s with sz := sz, log := (toInt (u * 16), some s.sz) :: s.log }.setSize s.sz u)
      rfl rfl rfl f (s.sz + 16)
    rw [hcongr, hfree]
    rfl
  obtain ⟨prev, a, htake⟩ := hinv.mallocLoop_takes
    (t := { v with sz := sz, log := (toInt (u * 16), some s.sz) :: s.log }) rfl rfl rfl alloc
    (by omega : L'.length < f) hb hbig
  rw [h.mallocLoop_asks alloc (by omega) hsmall, hmore, Option.bind_some,
    if_neg (hinv.freep_ne_zero hbase)]
  exact ⟨_, _, htake, take_ne_zero _ _ _ _, (take_same _ _ _ _).1⟩

/-- Writes to live blocks. -/
theorem write (h : Inv base s L live) (hfreep : s'.freep = s.freep) (hsz : s'.sz = s.sz)
    (hlog : s'.log = s.log)
    (hsame : ∀ a, (∀ b ∈ s.blocks live, a ≤ b.1 ∨ b.1 + b.2 ≤ a) →
      s'.ptr a = s.ptr a ∧ s'.size a = s.size a) : Inv base s' L live := by
  have hbase := hsame base fun b hb => by
    obtain ⟨x, hx, rfl⟩ := List.mem_map.mp hb
    have := h.room x hx
    exact Or.inl (h.inside (List.mem_append_right _ hb) (by dsimp only; omega)).1.le
  have hfree : ∀ b ∈ L, s'.ptr b.1 = s.ptr b.1 ∧ s'.size b.1 = s.size b.1 := fun b hb =>
    hsame b.1 fun c hc => by
      obtain ⟨x, hx, rfl⟩ := List.mem_map.mp hc
      have := h.apart hb hx
      dsimp only
      omega
  have hlive : ∀ x ∈ live, s'.size x.1 = s.size x.1 := fun x hx => (hsame x.1 fun c hc => by
    obtain ⟨y, hy, rfl⟩ := List.mem_map.mp hc
    by_cases hxy : y = x
    · exact Or.inl (by rw [hxy])
    · have := h.ne_of_erase hx ((List.mem_erase_of_ne hxy).mpr hy)
      dsimp only
      omega).2
  have hgranted : s'.granted = s.granted := by rw [Heap.granted, Heap.granted, hlog]
  refine ⟨h.path.congr ?_, fun b hb => ?_, hbase.2.trans h.zero, hfreep ▸ h.freep, h.gaps, h.pos,
    fun x hx => ?_, ?_, hgranted ▸ h.once, ?_, hsz ▸ h.top⟩
  · refine List.forall_mem_cons.mpr ⟨hbase.1, fun a ha => ?_⟩
    obtain ⟨b, hb, rfl⟩ := List.mem_map.mp ha
    exact (hfree b hb).1
  · rw [(hfree b hb).2]
    exact h.sizes b hb
  · rw [hlive x hx]
    exact h.room x hx
  · rw [blocks_congr hlive, hgranted]
    exact h.cover
  · rw [hgranted, hsz]
    exact h.bound

/-- Memory that the allocator did not ask for. -/
theorem grow (h : Inv base s L live) {sz : ℕ} (hle : s.sz ≤ sz) (hmax : sz ≤ 2 ^ 36) :
    Inv base { s with sz := sz } L live :=
  ⟨h.path, h.sizes, h.zero, h.freep, h.gaps, h.pos, h.room, h.cover, h.once,
    fun b hb => ⟨(h.bound b hb).1, (h.bound b hb).2.trans hle⟩, h.top.1.trans_le hle, hmax⟩

end Inv

/-! ### Runs -/

variable {base nbytes : ℕ} {s s' : Heap} {live : List (ℕ × ℕ)} {alloc : Alloc}

theorem unitsFor_eq (h : nbytes < 2 ^ 32) : Heap.unitsFor nbytes = (nbytes + 15) / 16 + 1 := by
  unfold Heap.unitsFor
  omega

theorem unitsFor_pos (h : nbytes < 2 ^ 32) : 0 < Heap.unitsFor nbytes := by
  rw [unitsFor_eq h]
  omega

/-- The heap between two calls. -/
def Ready (base : ℕ) (s : Heap) (live : List (ℕ × ℕ)) : Prop :=
  (s.freep = 0 ∧ s.log = [] ∧ live = [] ∧ base < s.sz ∧ s.sz ≤ 2 ^ 36) ∨ ∃ L, Inv base s L live

/-- The heap once `malloc` has set up its ring. -/
theorem Ready.start (h : Ready base s live) (hbase : 0 < base) :
    ∃ L, Inv base (s.start base) L live ∧
      (s.start base).log = s.log ∧ (s.start base).sz = s.sz := by
  rcases h with ⟨hfreep, hlog, rfl, htop⟩ | ⟨L, h⟩
  · rw [Heap.start, if_pos hfreep]
    have hgranted : ∀ s' : Heap, s'.log = s.log → s'.granted = [] := fun s' hs' => by
      rw [Heap.granted, hs', hlog]
      rfl
    refine ⟨[], ⟨?_, by simp, ?_, by simp, List.Pairwise.nil, by simp, by simp, fun x => ?_,
      fun x => ?_, ?_, htop⟩, rfl, rfl⟩
    · exact update_self ..
    · exact update_self ..
    all_goals simp [hgranted, Heap.setPtr, Heap.setSize, Heap.blocks]
  · rw [Heap.start, if_neg (h.freep_ne_zero hbase)]
    exact ⟨L, h, rfl, rfl⟩

/-- **What a call of `malloc` keeps**, if the request fits in an `int`. -/
theorem Ready.malloc (h : Ready base s live) (hbase : 0 < base) (halloc : InMemory alloc)
    (hfit : Heap.unitsFor nbytes * 16 < 2 ^ 31) (hbytes : nbytes < 2 ^ 32) {fuel ap : ℕ}
    (hrun : s.malloc alloc base fuel nbytes = some (ap, s')) :
    Ready base s' (if ap = 0 then live else (ap - 16, nbytes) :: live) ∧ Inv.Asked s s' := by
  obtain ⟨L, hinv, hsame⟩ := h.start hbase
  have hunits := unitsFor_eq hbytes
  obtain ⟨hinv', hasked⟩ := Inv.mallocLoop hbase halloc (unitsFor_pos hbytes)
    (by omega : nbytes + 16 ≤ 16 * Heap.unitsFor nbytes) hfit fuel _ L _ ap s' hinv hinv.freep hrun
  exact ⟨Or.inr hinv', (Inv.Asked.of_same hsame).trans hasked⟩

/-- **Every run** keeps to what the machine has and asks for more memory only. -/
theorem HeapRuns.ready (hr : HeapRuns base s live) (hbase : 0 < base) :
    Ready base s live ∧ (∀ c ∈ s.log, 0 < c.1) ∧ s.sz ≤ 2 ^ 27 := by
  induction hr with
  | start hfreep hlog hlow hsz =>
    exact ⟨Or.inl ⟨hfreep, hlog, rfl, hlow, by omega⟩, by simp [hlog], hsz⟩
  | malloc _ halloc hfit hbytes hrun ih =>
    obtain ⟨hready, hasked⟩ := ih.1.malloc hbase halloc hfit hbytes hrun
    exact ⟨hready, fun c hc => (hasked.calls c hc).elim (ih.2.1 c) id, hasked.memory ih.2.2⟩
  | free _ hx hrun ih =>
    rcases ih.1 with ⟨-, -, rfl, -⟩ | ⟨L, h⟩
    · cases hx
    · obtain ⟨L', h', ⟨hlog, hsz⟩, -⟩ := h.free hx hrun
      exact ⟨Or.inr ⟨L', h'⟩, hlog ▸ ih.2.1, hsz ▸ ih.2.2⟩
  | write _ hfreep hsz hlog hsame ih =>
    refine ⟨?_, hlog ▸ ih.2.1, hsz ▸ ih.2.2⟩
    rcases ih.1 with ⟨hf, hl, rfl, htop⟩ | ⟨L, h⟩
    · exact Or.inl ⟨hfreep.trans hf, hlog.trans hl, rfl, hsz ▸ htop⟩
    · exact Or.inr ⟨L, h.write hfreep hsz hlog hsame⟩
  | grow _ hle hmax ih =>
    refine ⟨?_, ih.2.1, hmax⟩
    rcases ih.1 with ⟨hf, hl, rfl, htop⟩ | ⟨L, h⟩
    · exact Or.inl ⟨hf, hl, rfl, htop.1.trans_le hle, hmax.trans (by decide)⟩
    · exact Or.inr ⟨L, h.grow hle (by omega)⟩

/-- Live blocks are in memory that was granted, with room for what was asked for. -/
theorem Ready.live_granted (h : Ready base s live) {x : ℕ × ℕ} (hx : x ∈ live) :
    x.1 + 16 + x.2 ≤ x.1 + 16 * s.size x.1 ∧ ∀ y, x.1 ≤ y → y < x.1 + 16 * s.size x.1 →
      ∃ g ∈ s.granted, g.1 ≤ y ∧ y < g.1 + g.2 := by
  rcases h with ⟨-, -, rfl, -⟩ | ⟨L, h⟩
  · cases hx
  · have hroom := h.room x hx
    refine ⟨by omega, fun y hle hlt => ?_⟩
    have hocc := occ_le_cover (x := y)
      (List.mem_map_of_mem (f := fun x : ℕ × ℕ => (x.1, 16 * s.size x.1)) hx)
    rw [occ_of_mem (b := (x.1, 16 * s.size x.1)) ⟨hle, hlt⟩] at hocc
    have hcover := h.cover y
    unfold Heap.blocks at hcover
    exact cover_pos_iff.mp (by omega)

theorem Ready.base_lt (h : Ready base s live) {x : ℕ × ℕ} (hx : x ∈ live) : base < x.1 := by
  rcases h with ⟨-, -, rfl, -⟩ | ⟨L, h⟩
  · cases hx
  · have hroom := h.room x hx
    exact (h.inside (List.mem_append_right _ (List.mem_map_of_mem hx)) (by dsimp only; omega)).1

/-- **The heap never overlaps.**  In every run, live blocks are apart from each other and lie in
granted memory with room for what was asked for; the free list is a ring through `base` in the
order of the addresses, in which no two blocks touch; each byte that was granted is in one block;
and calls of `free` and `malloc` return. -/
theorem heap_of_runs (hbase : 0 < base) (hr : HeapRuns base s live) :
    ((s.blocks live).Pairwise fun b c => b.1 + b.2 ≤ c.1 ∨ c.1 + c.2 ≤ b.1) ∧
    (∀ x ∈ live, x.1 + 16 + x.2 ≤ x.1 + 16 * s.size x.1 ∧
      ∀ y, x.1 ≤ y → y < x.1 + 16 * s.size x.1 → ∃ g ∈ s.granted, g.1 ≤ y ∧ y < g.1 + g.2) ∧
    (s.freep = 0 ∧ s.granted = [] ∧ live = [] ∨ ∃ L : List (ℕ × ℕ),
      Path s.ptr base (L.map Prod.fst) base ∧ s.freep ∈ base :: L.map Prod.fst ∧
      (∀ b ∈ L, base < b.1 ∧ b.2 = 16 * s.size b.1) ∧
      (L.Pairwise fun b c => b.1 + b.2 < c.1) ∧
      ∀ y, cover (L ++ s.blocks live) y = cover s.granted y ∧ cover s.granted y ≤ 1) ∧
    (∀ x ∈ live, ∃ n, ∀ fuel ≥ n, (s.free fuel (x.1 + 16)).isSome) ∧
    ∀ alloc, InMemory alloc → ∀ nbytes < 2 ^ 32, Heap.unitsFor nbytes * 16 < 2 ^ 31 →
      ∃ n, ∀ fuel ≥ n, (s.malloc alloc base fuel nbytes).isSome := by
  have hready := (hr.ready hbase).1
  obtain ⟨L₀, hstart, -⟩ := hready.start hbase
  refine ⟨?_, fun x hx => hready.live_granted hx, ?_, fun x hx => ?_,
    fun alloc halloc nbytes hbytes hfit => ⟨3 * L₀.length + 5, fun fuel hfuel =>
      hstart.mallocLoop_isSome hbase halloc (unitsFor_pos hbytes) hfit hfuel⟩⟩
  all_goals rcases hready with ⟨hfreep, hlog, rfl, -⟩ | ⟨L, h⟩
  · exact List.Pairwise.nil
  · refine pairwise_of_cover (fun b hb => ?_) fun y => ?_
    · obtain ⟨x, hx, rfl⟩ := List.mem_map.mp hb
      have := h.room x hx
      dsimp only
      omega
    · have := h.cover y
      have := h.once y
      omega
  · exact Or.inl ⟨hfreep, by simp [Heap.granted, hlog], rfl⟩
  · refine Or.inr ⟨L, h.path, h.freep, fun b hb => ?_, h.gaps, fun y => ⟨?_, h.once y⟩⟩
    · exact ⟨(h.inside (List.mem_append_left _ hb) (h.pos b hb)).1, h.sizes b hb⟩
    · rw [cover_append]
      exact h.cover y
  · cases hx
  · exact ⟨L.length + 1, fun fuel hfuel => h.free_isSome hx hfuel⟩

/-- A program of four pages. -/
def newHeap : Heap := ⟨fun _ => 0, fun _ => 0, 0, 16384, []⟩

/-- A machine that gives a program all it has. -/
def allMemory : Alloc := fun sz n => decide (sz + n ≤ 2 ^ 27)

theorem inMemory_allMemory : InMemory allMemory := fun _ _ => of_decide_eq_true

/-- A program that takes two blocks and frees them again, the first one first. -/
def twoBlocks : Option (ℕ × ℕ × Heap) := do
  let (p, s) ← newHeap.malloc allMemory 16 5 100
  let (q, s) ← s.malloc allMemory 16 5 200
  let s ← s.free 5 p
  let s ← s.free 5 q
  return (p, q, s)

/-- The blocks are taken from the end of the first 64 KB.  The second one is between two free
blocks when it is freed, and all of the memory is one free block then. -/
theorem heap_of_runs_twoBlocks : ∃ s, HeapRuns 16 s [] ∧
    s.ptr 16 = 16384 ∧ s.ptr 16384 = 16 ∧ s.size 16384 = 4096 ∧ s.granted = [(16384, 65536)] ∧
      ∃ L : List (ℕ × ℕ), Path s.ptr 16 (L.map Prod.fst) 16 ∧
        ∀ y, cover L y = cover [(16384, 65536)] y := by
  have heval : twoBlocks.map (fun (p, q, s) =>
      ([p, q, s.ptr 16, s.ptr 16384, s.size 16384, s.freep], s.granted)) =
      some ([81808, 81584, 16384, 16, 4096, 16384], [(16384, 65536)]) := by decide +kernel
  obtain ⟨r, hrun, hr⟩ := Option.map_eq_some_iff.mp heval
  unfold twoBlocks at hrun
  obtain ⟨⟨p, s₁⟩, hfirst, hrun⟩ := Option.bind_eq_some_iff.mp hrun
  obtain ⟨⟨q, s₂⟩, hsecond, hrun⟩ := Option.bind_eq_some_iff.mp hrun
  obtain ⟨s₃, hfreep, hrun⟩ := Option.bind_eq_some_iff.mp hrun
  obtain ⟨s₄, hfreeq, hrun⟩ := Option.bind_eq_some_iff.mp hrun
  obtain rfl := Option.some.inj hrun
  simp only [Prod.mk.injEq, List.cons.injEq, and_true, and_assoc] at hr
  obtain ⟨rfl, rfl, hbase, hblock, hsize, hfreep', hgranted⟩ := hr
  have hruns : HeapRuns 16 s₄ [] := .free (x := (81568, 200)) (.free (x := (81792, 100))
    (.malloc (.malloc (.start rfl rfl (by decide) (by decide)) inMemory_allMemory (by decide)
      (by decide) hfirst) inMemory_allMemory (by decide) (by decide) hsecond) (by decide) hfreep)
    (by decide) hfreeq
  refine ⟨s₄, hruns, hbase, hblock, hsize, hgranted, ?_⟩
  rcases (heap_of_runs (by decide) hruns).2.2.1 with ⟨hzero, -⟩ | ⟨L, hpath, -, -, -, hcover⟩
  · cases hfreep'.symm.trans hzero
  · refine ⟨L, hpath, fun y => ?_⟩
    rw [← hgranted, ← (hcover y).1]
    exact congrArg (cover · y) (List.append_nil L).symm

/-- What `malloc(nbytes)` promises: it returns, with 0 or with bytes that `sbrk` has granted, and
calls `sbrk` with positive numbers only. -/
def Serves (alloc : Alloc) (base : ℕ) (s : Heap) (nbytes : ℕ) : Prop :=
  ∃ n, ∀ fuel ≥ n, ∃ ap s', s.malloc alloc base fuel nbytes = some (ap, s') ∧
    (∀ c ∈ s'.log, 0 < c.1) ∧
      (ap = 0 ∨ ∀ i < nbytes, ∃ g ∈ s'.granted, g.1 ≤ ap + i ∧ ap + i < g.1 + g.2)

/-- The number that is passed to `sbrk` for a request of almost 2 GB or more. -/
theorem toInt_of_large {n : ℕ} (hle : 2 ^ 31 ≤ n) (hlt : n < 2 ^ 32 + 2 ^ 31) :
    toInt n = n - 2 ^ 32 := by
  unfold toInt
  omega

/-- Requests that fit in an `int` are served in every heap. -/
theorem HeapRuns.serves (hr : HeapRuns base s live) (hbase : 0 < base) (halloc : InMemory alloc)
    (hbytes : nbytes < 2 ^ 32) (hfit : Heap.unitsFor nbytes * 16 < 2 ^ 31) :
    Serves alloc base s nbytes := by
  obtain ⟨hready, hcalls, -⟩ := hr.ready hbase
  obtain ⟨L, hstart, -⟩ := hready.start hbase
  refine ⟨3 * L.length + 5, fun fuel hfuel => ?_⟩
  obtain ⟨⟨ap, s'⟩, hrun⟩ := Option.isSome_iff_exists.mp
    (hstart.mallocLoop_isSome hbase halloc (unitsFor_pos hbytes) hfit hfuel)
  obtain ⟨hready', hasked⟩ := hready.malloc hbase halloc hfit hbytes hrun
  refine ⟨ap, s', hrun, fun c hc => (hasked.calls c hc).elim (hcalls c) id, ?_⟩
  by_cases hap : ap = 0
  · exact Or.inl hap
  · rw [if_neg hap] at hready'
    obtain ⟨hroom, hgranted⟩ := hready'.live_granted List.mem_cons_self
    have hheader := hready'.base_lt List.mem_cons_self
    dsimp only at hroom hgranted hheader
    exact Or.inr fun i hi => hgranted (ap + i) (by omega) (by omega)

/-- **The requests that `malloc` can serve**, in any heap: those up to 32 bytes less than 2 GB, for
which it asks for a positive number of bytes; and of the larger ones only those for which it asks
for 16 bytes that the machine does not have. -/
theorem malloc_granted_iff (hbase : 0 < base) (hr : HeapRuns base s live) (nbytes : UInt32) :
    (∀ alloc, InMemory alloc → Serves alloc base s nbytes.toNat) ↔
      nbytes.toNat ≤ 2 ^ 31 - 32 ∨ 2 ^ 32 - 16 < nbytes.toNat ∧ 2 ^ 27 < s.sz + 16 := by
  have hbytes := nbytes.toNat_lt
  obtain ⟨u, hu⟩ : ∃ u, Heap.unitsFor nbytes.toNat = u := ⟨_, rfl⟩
  have hunits := hu.symm.trans (unitsFor_eq hbytes)
  obtain ⟨hready, hcalls, hmem⟩ := hr.ready hbase
  obtain ⟨L, hstart, hlog, hsz⟩ := hready.start hbase
  have hmalloc : ∀ alloc fuel, s.malloc alloc base fuel nbytes.toNat =
      (s.start base).mallocLoop alloc u fuel (s.start base).freep
        ((s.start base).ptr (s.start base).freep) := fun alloc fuel => by rw [← hu]; rfl
  constructor
  · intro hall
    by_contra hnot
    have hint : toInt (u * 16) = (u * 16 : ℕ) - 2 ^ 32 := toInt_of_large (by omega) (by omega)
    obtain ⟨sz, hgrow⟩ : ∃ sz, growproc allMemory (s.start base).sz (toInt (u * 16)) = some sz := by
      unfold growproc
      split
      · have hroom : allMemory (s.start base).sz (toInt (u * 16)).toNat = true :=
          decide_eq_true (by omega)
        exact ⟨_, by rw [hroom]; rfl⟩
      · split <;> exact ⟨_, rfl⟩
    obtain ⟨n, hn⟩ := hall allMemory inMemory_allMemory
    obtain ⟨ap, s', hrun, hpos, hin⟩ := hn (max n (3 * L.length + 5)) (Nat.le_max_left ..)
    obtain ⟨ap', s'', hlarge, hap, hlog'⟩ := hstart.mallocLoop_large hbase (by omega) (by omega)
      (by omega) hgrow (lt_of_lt_of_le (by omega) (Nat.le_max_right n (3 * L.length + 5)))
    obtain ⟨rfl, rfl⟩ :=
      Prod.mk.inj (Option.some.inj (hlarge.symm.trans ((hmalloc ..).symm.trans hrun)))
    -- the number passed is positive, so it is 16, and the bytes are not granted
    have hcall := hpos _ (hlog' ▸ List.mem_cons_self)
    obtain ⟨g, hg, -, hlt⟩ := hin.resolve_left hap (nbytes.toNat - 1) (by omega)
    rw [Inv.granted_cons hcall _ hlog'] at hg
    rcases List.mem_append.mp hg with hg | hg
    · obtain rfl : g = _ := by simpa using hg
      dsimp only at hlt
      omega
    · have := hstart.bound g hg
      omega
  · rintro (hfit | ⟨hbig, hfull⟩) alloc halloc
    · exact hr.serves hbase halloc hbytes (by rw [hu]; omega)
    · have hint : toInt (u * 16) = 16 := by
        rw [toInt_of_large (by omega) (by omega)]
        omega
      have hgrow : growproc alloc (s.start base).sz 16 = none := by
        have hno : alloc (s.start base).sz 16 = false := Bool.eq_false_iff.mpr fun hyes => by
          have := halloc _ _ hyes
          omega
        rw [growproc, if_pos (by decide)]
        exact if_neg (Bool.eq_false_iff.mp hno)
      have hsmall : ∀ b ∈ L, b.2 < 16 * u := fun b hb => by
        have := (hstart.inside (List.mem_append_left _ hb) (hstart.pos b hb)).2
        omega
      refine ⟨L.length + 1, fun fuel hfuel => ?_⟩
      obtain ⟨f, rfl⟩ : ∃ f, fuel = L.length + (f + 1) := ⟨fuel - L.length - 1, by omega⟩
      have hmore : (s.start base).morecore alloc f u = some (0,
          { s.start base with log := (16, none) :: (s.start base).log }) := by
        rw [Inv.morecore_none (if_neg (by omega)) (by rw [hint]; exact hgrow), hint]
      refine ⟨0, _, by rw [hmalloc, hstart.mallocLoop_asks alloc (by omega) hsmall, hmore]; rfl,
        fun c hc => ?_, Or.inl rfl⟩
      rcases List.mem_cons.mp hc with rfl | hc
      · decide
      · exact hcalls c (hlog ▸ hc)

/-- A new program that asks for 100 bytes gets bytes that it was granted, and one that asks for
2 GB does not. -/
theorem malloc_granted_newHeap : Serves allMemory 16 newHeap 100 ∧
    ¬∀ alloc, InMemory alloc → Serves alloc 16 newHeap 2147483648 := by
  have hnew : HeapRuns 16 newHeap [] := .start rfl rfl (by decide) (by decide)
  refine ⟨(malloc_granted_iff (by decide) hnew 100).mpr (Or.inl (by decide)) _ inMemory_allMemory,
    fun hall => ?_⟩
  have hcond := (malloc_granted_iff (by decide) hnew 2147483648).mp hall
  exact absurd hcond (by decide)

/-- **A new program that asks for 2 GB** passes a negative number to `sbrk`.  It exceeds the size
of the program, which stays as it is; the answer is where the memory ends, and `malloc` returns an
address behind that. -/
theorem malloc_ungranted : HeapRuns 16 newHeap [] ∧ InMemory allMemory ∧
    (newHeap.malloc allMemory 16 3 (2 ^ 31)).map (fun r => (r.1, r.2.log, r.2.sz)) =
      some (16400, [(-2147483632, some 16384)], 16384) :=
  ⟨.start rfl rfl (by decide) (by decide), inMemory_allMemory, by decide +kernel⟩

end Xv6Ext2.Umalloc
