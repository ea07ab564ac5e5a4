import Kalisto.Mm.Malloc
import Kalisto.Lib.Ring

/-!
# The layout of the heap

What `malloc` and `free` are about, without addresses of headers and footers: a list of heaps, each a
list of blocks with a size and a free flag.  `HeapDesc.Ok` and `LayoutOk` are the properties of a
layout that the allocator maintains, `LayoutAt m l lay` says that the memory `m` holds the layout
`lay`, headers, footers, heap structures and list links included.

* `takeBlocks`, `newBlocks`, `joinNext`, `joinPrev` — what allocation and release do to the blocks
  of one heap;
* `BlockAt.congr`, `BlocksAt.congr`, `HeapAt.congr`, `LayoutAt.congr` — the layout depends on the
  metadata bytes only, and each part of it on its own bytes.
-/

namespace Kalisto

/-! ### Layouts -/

/-- A block: its size with header and footer, and its free flag. -/
structure Block where
  size : ℕ
  free : Bool
  deriving DecidableEq

/-- A heap: the address of its `heap_t`, its frames, and its blocks in address order. -/
structure HeapDesc where
  base : ℕ
  frames : ℕ
  blocks : List Block
  deriving DecidableEq

/-- The size of a row of blocks. -/
def total (bs : List Block) : ℕ := (bs.map Block.size).sum

@[simp] theorem total_nil : total [] = 0 := rfl

@[simp] theorem total_cons (b : Block) (bs : List Block) : total (b :: bs) = b.size + total bs := rfl

@[simp] theorem total_append (bs cs : List Block) : total (bs ++ cs) = total bs + total cs := by
  simp [total]

/-- A block is large enough for its metadata and keeps the next one aligned. -/
def Block.Ok (b : Block) : Prop := 24 ≤ b.size ∧ b.size % 4 = 0

theorem total_mod_four {bs : List Block} (h : ∀ b ∈ bs, b.Ok) : total bs % 4 = 0 := by
  induction bs with
  | nil => rfl
  | cons c bs ih =>
    have h1 := (h c (by simp)).2
    have h2 := ih fun d hd => h d (by simp [hd])
    simp only [total_cons]
    omega

/-- No two neighbours are both free. -/
def NoFreePair (bs : List Block) : Prop := bs.IsChain fun b c => ¬ (b.free = true ∧ c.free = true)

/-- A block in a row without two free neighbours. -/
theorem noFreePair_middle {pre post : List Block} {b : Block} :
    NoFreePair (pre ++ b :: post) ↔ NoFreePair pre ∧ NoFreePair post ∧ (b.free = true →
      (∀ c ∈ pre.getLast?, c.free = false) ∧ ∀ c ∈ post.head?, c.free = false) := by
  simp only [NoFreePair, List.isChain_append, List.isChain_cons, List.head?_cons,
    Option.mem_some_iff, forall_eq', not_and, Bool.not_eq_true]
  constructor
  · rintro ⟨h1, ⟨h2, h3⟩, h4⟩
    refine ⟨h1, h3, fun hb => ⟨fun c hc => ?_, fun c hc => h2 c hc hb⟩⟩
    cases hf : c.free with
    | false => rfl
    | true => rw [h4 c hc hf] at hb; cases hb
  · rintro ⟨h1, h3, h⟩
    refine ⟨h1, ⟨fun c hc hb => (h hb).2 c hc, h3⟩, fun c hc hf => ?_⟩
    cases hb : b.free with
    | false => rfl
    | true => rw [(h hb).1 c hc] at hf; cases hf

namespace HeapDesc

/-- `heap_start`. -/
def start (h : HeapDesc) : ℕ := h.base + 20

/-- `heap_end`. -/
def stop (h : HeapDesc) : ℕ := h.base + h.frames * 4096

/-- The properties of one heap. -/
structure Ok (h : HeapDesc) : Prop where
  aligned : h.base % 4096 = 0
  inKseg0 : 0x80000000 ≤ h.base ∧ h.stop ≤ 0xA0000000
  /-- The blocks tile the heap from `heap_start` to `heap_end`. -/
  tiled : h.start + total h.blocks = h.stop
  blocks : ∀ b ∈ h.blocks, b.Ok
  noFreePair : NoFreePair h.blocks
  notFree : ∀ n, h.blocks ≠ [⟨n, true⟩]

/-- Two heaps do not overlap. -/
def Apart (g h : HeapDesc) : Prop := g.stop ≤ h.base ∨ h.stop ≤ g.base

end HeapDesc

/-- The properties of a layout: of every heap, and between the heaps and the list head at `l`. -/
structure LayoutOk (l : ℕ) (lay : List HeapDesc) : Prop where
  listAligned : l % 4 = 0
  listRange : 0 < l ∧ l + 8 ≤ 2 ^ 32
  heaps : ∀ h ∈ lay, h.Ok
  listApart : ∀ h ∈ lay, l + 8 ≤ h.base ∨ h.stop ≤ l
  apart : lay.Pairwise HeapDesc.Apart

/-! ### What the operations do to the blocks of a heap -/

/-- The block can be used for a request of `real` bytes. -/
def Block.fits (b : Block) (real : ℕ) : Bool := b.free && decide (real ≤ b.size)

/-- The blocks in the place of a block that is handed out. -/
def takeBlocks (real : ℕ) (b : Block) : List Block :=
  if real + 24 < b.size then [⟨real, false⟩, ⟨b.size - real, true⟩] else [⟨b.size, false⟩]

/-- The size of a block for `size` bytes. -/
def realSize (size : ℕ) : ℕ := (size + 3) / 4 * 4 + 24

/-- The number of frames of a new heap. -/
def framesFor (real : ℕ) : ℕ := max 16 ((real + 20 + 4095) / 4096)

/-- A freed block of `n` bytes and the blocks after it, joined. -/
def joinNext (n : ℕ) : List Block → ℕ × List Block
  | [] => (n, [])
  | c :: post => if c.free then (n + c.size, post) else (n, c :: post)

/-- The blocks before a freed block of `n` bytes, and the block, joined. -/
def joinPrev (pre : List Block) (n : ℕ) : List Block × ℕ :=
  match pre.getLast? with
  | none => (pre, n)
  | some d => if d.free then (pre.dropLast, d.size + n) else (pre, n)

/-- The blocks of a heap after the block between `pre` and `post` was freed. -/
def freeBlocks (pre : List Block) (b : Block) (post : List Block) : List Block :=
  let (n, post) := joinNext b.size post
  let (pre, n) := joinPrev pre n
  pre ++ ⟨n, true⟩ :: post

@[simp] theorem total_takeBlocks (real : ℕ) (b : Block) : total (takeBlocks real b) = b.size := by
  simp only [takeBlocks]
  split
  · simp only [total_cons, total_nil]
    omega
  · rfl

/-! ### Taking a block keeps the properties -/

/-- The new blocks start with an allocated one. -/
theorem takeBlocks_eq (real : ℕ) (b : Block) :
    ∃ n rest, takeBlocks real b = ⟨n, false⟩ :: rest ∧ (rest = [] ∨ ∃ k, rest = [⟨k, true⟩]) := by
  simp only [takeBlocks]
  split
  · exact ⟨_, _, rfl, Or.inr ⟨_, rfl⟩⟩
  · exact ⟨_, _, rfl, Or.inl rfl⟩

theorem takeBlocks_ok {real : ℕ} {b : Block} (hr : 24 ≤ real) (hr4 : real % 4 = 0) (hb : b.Ok) :
    ∀ c ∈ takeBlocks real b, c.Ok := by
  obtain ⟨hb1, hb2⟩ := hb
  simp only [takeBlocks]
  split
  · simp only [List.mem_cons, List.not_mem_nil, or_false, forall_eq_or_imp, forall_eq, Block.Ok]
    omega
  · simp only [List.mem_cons, List.not_mem_nil, or_false, forall_eq, Block.Ok]
    exact ⟨hb1, hb2⟩

/-- Taking a free block leaves no two free neighbours. -/
theorem NoFreePair.take {real : ℕ} {pre post : List Block} {b : Block}
    (h : NoFreePair (pre ++ b :: post)) (hb : b.free = true) :
    NoFreePair (pre ++ takeBlocks real b ++ post) := by
  obtain ⟨h1, h2, h3⟩ := noFreePair_middle.mp h
  obtain ⟨n, rest, hrest, hcase⟩ := takeBlocks_eq real b
  rw [hrest, List.append_assoc, List.cons_append, noFreePair_middle]
  refine ⟨h1, ?_, by simp⟩
  rcases hcase with rfl | ⟨k, rfl⟩
  · exact h2
  · refine (@noFreePair_middle [] post ⟨k, true⟩).mpr ⟨by simp [NoFreePair], h2, fun _ => ⟨by simp, ?_⟩⟩
    exact (h3 hb).2

theorem take_ne_single (real : ℕ) (pre : List Block) (b : Block) (post : List Block) (k : ℕ) :
    pre ++ takeBlocks real b ++ post ≠ [⟨k, true⟩] := by
  intro hk
  obtain ⟨n, rest, hrest, -⟩ := takeBlocks_eq real b
  have hmem : (⟨n, false⟩ : Block) ∈ pre ++ takeBlocks real b ++ post := by simp [hrest]
  rw [hk, List.mem_singleton] at hmem
  cases hmem

/-- The properties of a heap are kept when a free block is taken. -/
theorem HeapDesc.Ok.take {h : HeapDesc} {real : ℕ} {pre post : List Block} {b : Block}
    (hok : h.Ok) (hb : h.blocks = pre ++ b :: post) (hfree : b.free = true) (hr : 24 ≤ real)
    (hr4 : real % 4 = 0) : ({ h with blocks := pre ++ takeBlocks real b ++ post } : HeapDesc).Ok := by
  have htiled := hok.tiled
  rw [hb] at htiled
  refine ⟨hok.aligned, hok.inKseg0, ?_, ?_, ?_, ?_⟩
  · simpa only [HeapDesc.start, HeapDesc.stop, total_append, total_takeBlocks, total_cons,
      Nat.add_assoc] using htiled
  · intro c hc
    simp only [List.mem_append] at hc
    rcases hc with (hc | hc) | hc
    · exact hok.blocks c (by rw [hb]; simp [hc])
    · exact takeBlocks_ok hr hr4 (hok.blocks b (by rw [hb]; simp)) c hc
    · exact hok.blocks c (by rw [hb]; simp [hc])
  · exact (hb ▸ hok.noFreePair).take hfree
  · exact take_ne_single real pre b post

/-! ### The layout in memory -/

/-- The bytes of a block at `a` that the allocator uses: header and footer. -/
def MetaByte (a size x : ℕ) : Prop := (a ≤ x ∧ x < a + 16) ∨ (a + size - 8 ≤ x ∧ x < a + size)

/-- The memory holds header and footer of a block. -/
structure BlockAt (m : Memory) (heap a : ℕ) (b : Block) : Prop where
  size : m.word a = b.size
  free : m (a + 4) = if b.free then 1 else 0
  heap : m.word (a + 8) = heap
  magic : m.word (a + 12) = headMagic
  footMagic : m.word (a + b.size - 8) = footMagic
  footSize : m.word (a + b.size - 4) = b.size

/-- The memory holds a row of blocks from `a` on. -/
def BlocksAt (m : Memory) (heap : ℕ) : ℕ → List Block → Prop
  | _, [] => True
  | a, b :: bs => BlockAt m heap a b ∧ BlocksAt m heap (a + b.size) bs

/-- The memory holds a heap, without its list links. -/
structure HeapAt (m : Memory) (h : HeapDesc) : Prop where
  start : m.word (h.base + 8) = h.start
  stop : m.word (h.base + 12) = h.stop
  frames : m.word (h.base + 16) = h.frames
  blocks : BlocksAt m h.base h.start h.blocks

/-- A pointer, with `NULL` as `none`. -/
def ptr (v : ℕ) : Option ℕ := if v = 0 then none else some v

/-- The links in memory: `prev` at offset 0, `next` at offset 4. -/
def linksOf (m : Memory) : Links ℕ where
  next := fun a => ptr (m.word (a + 4))
  prev := fun a => ptr (m.word a)

/-- The memory holds a layout. -/
structure LayoutAt (m : Memory) (l : ℕ) (lay : List HeapDesc) : Prop where
  ring : Links.Ring (linksOf m) l (lay.map HeapDesc.base)
  heaps : ∀ h ∈ lay, HeapAt m h

theorem ptr_eq_some {v a : ℕ} : ptr v = some a ↔ v = a ∧ a ≠ 0 := by
  simp only [ptr]
  split
  · rename_i h
    constructor
    · intro h'
      cases h'
    · rintro ⟨h1, h2⟩
      exact absurd (h1.symm.trans h) h2
  · rename_i h
    constructor
    · intro h'
      cases h'
      exact ⟨rfl, h⟩
    · rintro ⟨rfl, -⟩
      rfl

/-! ### The memory determines the layout -/

theorem BlockAt.unique {m : Memory} {heap a : ℕ} {b c : Block} (hb : BlockAt m heap a b)
    (hc : BlockAt m heap a c) : b = c := by
  have hsize : b.size = c.size := hb.size.symm.trans hc.size
  have hfree : b.free = c.free := by
    have heq := hb.free.symm.trans hc.free
    cases hf : b.free <;> cases hg : c.free <;> simp [hf, hg] at heq <;> rfl
  cases b
  cases c
  simp_all

theorem BlocksAt.unique {m : Memory} {heap a : ℕ} {bs cs : List Block} (h : BlocksAt m heap a bs)
    (h' : BlocksAt m heap a cs) (hb : ∀ b ∈ bs, b.Ok) (hc : ∀ c ∈ cs, c.Ok)
    (htotal : total bs = total cs) : bs = cs := by
  induction bs generalizing a cs with
  | nil =>
    cases cs with
    | nil => rfl
    | cons c cs =>
      have h24 := (hc c (by simp)).1
      simp only [total_nil, total_cons] at htotal
      omega
  | cons b bs ih =>
    cases cs with
    | nil =>
      have h24 := (hb b (by simp)).1
      simp only [total_nil, total_cons] at htotal
      omega
    | cons c cs =>
      obtain rfl := h.1.unique h'.1
      simp only [total_cons] at htotal
      rw [ih h.2 h'.2 (fun d hd => hb d (by simp [hd])) (fun d hd => hc d (by simp [hd])) (by omega)]

theorem HeapAt.unique {m : Memory} {g h : HeapDesc} (hg : HeapAt m g) (hh : HeapAt m h) (hgok : g.Ok)
    (hhok : h.Ok) (hbase : g.base = h.base) : g = h := by
  have hframes : g.frames = h.frames := by
    have h1 := hg.frames
    rw [hbase] at h1
    exact h1.symm.trans hh.frames
  have hblocks : g.blocks = h.blocks := by
    have h1 := hg.blocks
    have h2 := hgok.tiled
    have h3 := hhok.tiled
    simp only [HeapDesc.start, HeapDesc.stop, hbase, hframes] at h1 h2 h3
    exact h1.unique hh.blocks hgok.blocks hhok.blocks (by omega)
  cases g
  cases h
  simp_all

/-- **The memory determines the layout.** -/
theorem LayoutAt.unique {m : Memory} {l : ℕ} {lay lay' : List HeapDesc} (h : LayoutAt m l lay)
    (h' : LayoutAt m l lay') (hok : LayoutOk l lay) (hok' : LayoutOk l lay') : lay = lay' := by
  have hlist : ∀ xs ys : List HeapDesc, xs.map HeapDesc.base = ys.map HeapDesc.base →
      (∀ g ∈ xs, HeapAt m g ∧ g.Ok) → (∀ g ∈ ys, HeapAt m g ∧ g.Ok) → xs = ys := by
    intro xs
    induction xs with
    | nil =>
      intro ys hmap _ _
      exact (List.map_eq_nil_iff.mp hmap.symm).symm
    | cons g xs ih =>
      intro ys hmap hx hy
      cases ys with
      | nil => cases hmap
      | cons h ys =>
        simp only [List.map_cons, List.cons.injEq] at hmap
        simp only [List.mem_cons, forall_eq_or_imp] at hx hy
        rw [hx.1.1.unique hy.1.1 hx.1.2 hy.1.2 hmap.1, ih ys hmap.2 hx.2 hy.2]
  exact hlist lay lay' (h.ring.unique h'.ring) (fun g hg => ⟨h.heaps g hg, hok.heaps g hg⟩)
    fun g hg => ⟨h'.heaps g hg, hok'.heaps g hg⟩

/-! ### Frame lemmas -/

theorem BlockAt.congr {m m' : Memory} {heap a : ℕ} {b : Block} (h : BlockAt m heap a b)
    (hb : 24 ≤ b.size) (heq : ∀ x, MetaByte a b.size x → m' x = m x) : BlockAt m' heap a b := by
  have hw : ∀ c, (a ≤ c ∧ c + 4 ≤ a + 16) ∨ (a + b.size - 8 ≤ c ∧ c + 4 ≤ a + b.size) →
      m'.word c = m.word c := by
    intro c hc
    refine Memory.word_congr fun x h1 h2 => heq x ?_
    simp only [MetaByte]
    omega
  constructor
  · rw [hw a (by omega), h.size]
  · rw [heq (a + 4) (by simp only [MetaByte]; omega), h.free]
  · rw [hw (a + 8) (by omega), h.heap]
  · rw [hw (a + 12) (by omega), h.magic]
  · rw [hw (a + b.size - 8) (by omega), h.footMagic]
  · rw [hw (a + b.size - 4) (by omega), h.footSize]

theorem blocksAt_append {m : Memory} {heap a : ℕ} {bs cs : List Block} :
    BlocksAt m heap a (bs ++ cs) ↔ BlocksAt m heap a bs ∧ BlocksAt m heap (a + total bs) cs := by
  induction bs generalizing a with
  | nil => simp [BlocksAt]
  | cons b bs ih => simp [BlocksAt, ih, and_assoc, Nat.add_assoc]

theorem BlocksAt.congr {m m' : Memory} {heap a : ℕ} {bs : List Block} (h : BlocksAt m heap a bs)
    (hb : ∀ b ∈ bs, b.Ok) (heq : ∀ x, a ≤ x → x < a + total bs → m' x = m x) :
    BlocksAt m' heap a bs := by
  induction bs generalizing a with
  | nil => trivial
  | cons b bs ih =>
    simp only [total_cons] at heq
    have hbs := (hb b (by simp)).1
    refine ⟨h.1.congr hbs fun x hx => heq x ?_ ?_, ih h.2 (fun c hc => hb c (by simp [hc])) ?_⟩
    · simp only [MetaByte] at hx
      omega
    · simp only [MetaByte] at hx
      omega
    · exact fun x h1 h2 => heq x (by omega) (by omega)

/-- A heap depends on the bytes behind its links. -/
theorem HeapAt.congr {m m' : Memory} {h : HeapDesc} (hh : HeapAt m h) (hok : h.Ok)
    (heq : ∀ x, h.base + 8 ≤ x → x < h.stop → m' x = m x) : HeapAt m' h := by
  have htiled := hok.tiled
  simp only [HeapDesc.start] at htiled
  have hw : ∀ c, h.base + 8 ≤ c → c + 4 ≤ h.stop → m'.word c = m.word c :=
    fun c h1 h2 => Memory.word_congr fun x h3 h4 => heq x (by omega) (by omega)
  constructor
  · rw [hw _ (by omega) (by omega), hh.start]
  · rw [hw _ (by omega) (by omega), hh.stop]
  · rw [hw _ (by omega) (by omega), hh.frames]
  · refine hh.blocks.congr hok.blocks fun x h1 h2 => heq x ?_ ?_
    · simp only [HeapDesc.start] at h1
      omega
    · simp only [HeapDesc.start] at h2
      omega

/-- The links depend on the eight bytes of each item. -/
theorem linksOf_congr {m m' : Memory} {a : ℕ} (h : ∀ x, a ≤ x → x < a + 8 → m' x = m x) :
    (linksOf m').next a = (linksOf m).next a ∧ (linksOf m').prev a = (linksOf m).prev a := by
  have h1 : m'.word (a + 4) = m.word (a + 4) :=
    Memory.word_congr fun x h1 h2 => h x (by omega) (by omega)
  have h2 : m'.word a = m.word a := Memory.word_congr fun x h1 h2 => h x (by omega) (by omega)
  simp only [linksOf, h1, h2, and_self]

/-! ### Positions of blocks -/

/-- Where a block stands: the heap, the blocks before it and the blocks after it. -/
structure BlockPos (lay : List HeapDesc) (h : HeapDesc) (pre : List Block) (b : Block)
    (post : List Block) : Prop where
  mem : h ∈ lay
  blocks : h.blocks = pre ++ b :: post

/-- The address of the block after `pre`. -/
def HeapDesc.blockAddr (h : HeapDesc) (pre : List Block) : ℕ := h.start + total pre

/-- The address `malloc` returns for the block after `pre`. -/
def HeapDesc.payload (h : HeapDesc) (pre : List Block) : ℕ := h.blockAddr pre + 16

/-- Blocks at different places of one row do not overlap. -/
theorem blocks_apart {pre post pre' post' : List Block} {b c : Block}
    (h : pre ++ b :: post = pre' ++ c :: post') (hne : pre ≠ pre') :
    total pre + b.size ≤ total pre' ∨ total pre' + c.size ≤ total pre := by
  rcases List.append_eq_append_iff.mp h with ⟨as, rfl, has⟩ | ⟨as, rfl, has⟩
  · cases as with
    | nil => simp at hne
    | cons a as =>
      simp only [List.cons_append, List.cons.injEq] at has
      obtain ⟨rfl, -⟩ := has
      left
      simp only [total_append, total_cons]
      omega
  · cases as with
    | nil => simp at hne
    | cons a as =>
      simp only [List.cons_append, List.cons.injEq] at has
      obtain ⟨rfl, -⟩ := has
      right
      simp only [total_append, total_cons]
      omega

/-- The facts about a block that follow from its place in a good layout. -/
theorem HeapDesc.Ok.block {h : HeapDesc} (hok : h.Ok) {pre : List Block} {b : Block}
    {post : List Block} (hb : h.blocks = pre ++ b :: post) :
    b.Ok ∧ h.start ≤ h.blockAddr pre ∧ h.blockAddr pre + b.size + total post = h.stop ∧
      h.blockAddr pre % 4 = 0 := by
  have htiled := hok.tiled
  rw [hb] at htiled
  simp only [total_append, total_cons] at htiled
  have hpre : total pre % 4 = 0 := total_mod_four fun c hc => hok.blocks c (by rw [hb]; simp [hc])
  have hal := hok.aligned
  refine ⟨hok.blocks b (by rw [hb]; simp), ?_, ?_, ?_⟩
  · simp [HeapDesc.blockAddr]
  · simp only [HeapDesc.blockAddr]
    omega
  · simp only [HeapDesc.blockAddr, HeapDesc.start]
    omega

/-! ### Replacing blocks of one heap -/

theorem LayoutOk.heap {l : ℕ} {L R : List HeapDesc} {h : HeapDesc}
    (hok : LayoutOk l (L ++ h :: R)) : h.Ok := hok.heaps h (by simp)

/-- The properties of a layout when one heap changes inside its range. -/
theorem LayoutOk.replace {l : ℕ} {L R : List HeapDesc} {h h' : HeapDesc}
    (hok : LayoutOk l (L ++ h :: R)) (hh' : h'.Ok) (hbase : h'.base = h.base)
    (hstop : h'.stop = h.stop) : LayoutOk l (L ++ h' :: R) := by
  refine ⟨hok.listAligned, hok.listRange, ?_, ?_, ?_⟩
  · intro g hg
    rcases List.mem_append.mp hg with hg | hg
    · exact hok.heaps g (by simp [hg])
    · rcases List.mem_cons.mp hg with rfl | hg
      · exact hh'
      · exact hok.heaps g (by simp [hg])
  · intro g hg
    rcases List.mem_append.mp hg with hg | hg
    · exact hok.listApart g (by simp [hg])
    · rcases List.mem_cons.mp hg with rfl | hg
      · rw [hbase, hstop]
        exact hok.listApart h (by simp)
      · exact hok.listApart g (by simp [hg])
  · have hap := hok.apart
    simp only [List.pairwise_append, List.pairwise_cons, List.mem_cons, forall_eq_or_imp,
      HeapDesc.Apart, hbase, hstop] at hap ⊢
    exact hap

/-- The properties of a layout when one heap goes away. -/
theorem LayoutOk.remove {l : ℕ} {L R : List HeapDesc} {h : HeapDesc}
    (hok : LayoutOk l (L ++ h :: R)) : LayoutOk l (L ++ R) := by
  have hsub : (L ++ R).Sublist (L ++ h :: R) := (List.sublist_cons_self h R).append_left L
  exact ⟨hok.listAligned, hok.listRange, fun g hg => hok.heaps g (hsub.subset hg),
    fun g hg => hok.listApart g (hsub.subset hg), hok.apart.sublist hsub⟩

/-- Two heaps of a layout are the same one or apart. -/
theorem LayoutOk.eq_or_apart {l : ℕ} {L R : List HeapDesc} {g h : HeapDesc}
    (hok : LayoutOk l (L ++ h :: R)) (hg : g ∈ L ++ h :: R) :
    g = h ∨ g.Apart h := by
  have hap := hok.apart
  simp only [List.pairwise_append, List.pairwise_cons, List.mem_cons, forall_eq_or_imp] at hap
  obtain ⟨-, ⟨hR, -⟩, hL⟩ := hap
  simp only [List.mem_append, List.mem_cons] at hg
  rcases hg with hg | rfl | hg
  · exact Or.inr (hL g hg).1
  · exact Or.inl rfl
  · exact Or.inr (hR g hg).symm

/-- Some blocks in a row give way to others of the same size. -/
theorem BlocksAt.replace {m m' : Memory} {heap a : ℕ} {pre old mid post : List Block}
    (h : BlocksAt m heap a (pre ++ old ++ post)) (hpre : ∀ b ∈ pre, b.Ok)
    (hpost : ∀ b ∈ post, b.Ok) (htot : total mid = total old)
    (hmid : BlocksAt m' heap (a + total pre) mid)
    (hout : ∀ x, x < a + total pre ∨ a + total pre + total old ≤ x → m' x = m x) :
    BlocksAt m' heap a (pre ++ mid ++ post) := by
  rw [blocksAt_append, blocksAt_append, total_append] at h ⊢
  obtain ⟨⟨h1, -⟩, h3⟩ := h
  refine ⟨⟨h1.congr hpre fun x _ hx => hout x (by omega), hmid⟩, ?_⟩
  rw [htot]
  exact h3.congr hpost fun x hx _ => hout x (by omega)

/-- The memory holds the layout in which one heap has other blocks. -/
theorem LayoutAt.replace {m m' : Memory} {l : ℕ} {L R : List HeapDesc} {h : HeapDesc}
    {bs : List Block} (hat : LayoutAt m l (L ++ h :: R)) (hok : LayoutOk l (L ++ h :: R))
    (hbs : BlocksAt m' h.base h.start bs)
    (hout : ∀ x, x < h.start ∨ h.stop ≤ x → m' x = m x) :
    LayoutAt m' l (L ++ { h with blocks := bs } :: R) := by
  have hroom := hok.heap.tiled
  simp only [HeapDesc.start] at hroom
  simp only [HeapDesc.start] at hout
  refine ⟨?_, ?_⟩
  · have hmap : (L ++ { h with blocks := bs } :: R).map HeapDesc.base =
        (L ++ h :: R).map HeapDesc.base := by simp
    rw [hmap]
    refine hat.ring.congr fun a ha => linksOf_congr fun x h1 h2 => hout x ?_
    rcases List.mem_cons.mp ha with rfl | ha
    · have := hok.listApart h (by simp)
      omega
    · obtain ⟨g, hg, rfl⟩ := List.mem_map.mp ha
      have hgr := (hok.heaps g hg).tiled
      simp only [HeapDesc.start] at hgr
      rcases hok.eq_or_apart hg with rfl | hap
      · omega
      · simp only [HeapDesc.Apart] at hap
        omega
  · intro g hg
    have hold : ∀ k, k ∈ L ∨ k ∈ R → HeapAt m' k := by
      intro k hk
      have hmem : k ∈ L ++ h :: R := by
        simp only [List.mem_append, List.mem_cons]
        tauto
      have hka : k.Apart h := by
        have hap := hok.apart
        simp only [List.pairwise_append, List.pairwise_cons, List.mem_cons, forall_eq_or_imp]
          at hap
        rcases hk with hk | hk
        · exact (hap.2.2 k hk).1
        · exact (hap.2.1.1 k hk).symm
      simp only [HeapDesc.Apart] at hka
      exact (hat.heaps k hmem).congr (hok.heaps k hmem) fun x h1 h2 => hout x (by omega)
    rcases List.mem_append.mp hg with hg | hg
    · exact hold g (Or.inl hg)
    · rcases List.mem_cons.mp hg with rfl | hg
      · obtain ⟨h1, h2, h3, -⟩ := hat.heaps h (by simp)
        have hw : ∀ c, c + 4 ≤ h.base + 20 → m'.word c = m.word c :=
          fun c hc => Memory.word_congr fun x _ hx => hout x (by omega)
        exact ⟨by rw [hw _ (by simp only; omega)]; exact h1,
          by rw [hw _ (by simp only; omega)]; exact h2,
          by rw [hw _ (by simp only; omega)]; exact h3, hbs⟩
      · exact hold g (Or.inr hg)

/-! ### Payloads -/

/-- The byte `x` is in the payload at `p` of an allocated block. -/
def InPayload (lay : List HeapDesc) (p x : ℕ) : Prop :=
  ∃ h pre b post, BlockPos lay h pre b post ∧ b.free = false ∧ p = h.payload pre ∧ p ≤ x ∧
    x + 8 < h.blockAddr pre + b.size

/-- The byte `x` is in no heap and not in the head of the list. -/
def OutsideHeaps (l : ℕ) (lay : List HeapDesc) (x : ℕ) : Prop :=
  (x < l ∨ l + 8 ≤ x) ∧ ∀ h ∈ lay, x < h.base ∨ h.stop ≤ x

/-- A block that shares a byte with a stretch of a row is one of the stretch. -/
theorem mem_of_overlap {pre old post pre' post' : List Block} {c : Block} {x : ℕ}
    (h : pre ++ old ++ post = pre' ++ c :: post') (h1 : total pre ≤ x)
    (h2 : x < total pre + total old) (h3 : total pre' ≤ x) (h4 : x < total pre' + c.size) :
    ∃ o1 o2, old = o1 ++ c :: o2 ∧ pre' = pre ++ o1 := by
  rw [List.append_assoc] at h
  rcases List.append_eq_append_iff.mp h with ⟨as, rfl, has⟩ | ⟨as, rfl, has⟩
  · rcases List.append_eq_append_iff.mp has with ⟨bs, rfl, hbs⟩ | ⟨bs, rfl, hbs⟩
    · simp only [total_append] at h2 h3
      omega
    · cases bs with
      | nil =>
        simp only [total_append, total_nil] at h2 h3
        omega
      | cons d bs =>
        simp only [List.cons_append, List.cons.injEq] at hbs
        obtain ⟨rfl, -⟩ := hbs
        exact ⟨as, bs, rfl, rfl⟩
  · cases as with
    | nil =>
      simp only [List.append_nil, List.nil_append] at has h1 h2 ⊢
      cases old with
      | nil =>
        simp only [total_nil] at h2
        omega
      | cons d old =>
        simp only [List.cons_append, List.cons.injEq] at has
        obtain ⟨rfl, -⟩ := has
        exact ⟨[], old, rfl, by simp⟩
    | cons d as =>
      simp only [List.cons_append, List.cons.injEq] at has
      obtain ⟨rfl, -⟩ := has
      simp only [total_append, total_cons] at h1
      omega

/-- A payload byte inside a stretch of blocks belongs to a block of the stretch. -/
theorem InPayload.mem_stretch {l : ℕ} {L R : List HeapDesc} {h : HeapDesc}
    {pre old post : List Block} {p x : ℕ} (hx : InPayload (L ++ h :: R) p x)
    (hok : LayoutOk l (L ++ h :: R)) (hb : h.blocks = pre ++ old ++ post)
    (h1 : h.blockAddr pre ≤ x) (h2 : x < h.blockAddr pre + total old) :
    ∃ o1 c o2, old = o1 ++ c :: o2 ∧ c.free = false ∧ p = h.payload (pre ++ o1) := by
  obtain ⟨g, pre', c, post', ⟨hg, hgb⟩, hfree, hp, hpx, hxc⟩ := hx
  obtain ⟨-, hg1, hg2, -⟩ := (hok.heaps g hg).block hgb
  have hh := hok.heap.tiled
  rw [hb] at hh
  simp only [total_append] at hh
  simp only [HeapDesc.payload] at hp
  rcases hok.eq_or_apart hg with rfl | hap
  · simp only [HeapDesc.blockAddr] at *
    obtain ⟨o1, o2, rfl, rfl⟩ := mem_of_overlap (hb.symm.trans hgb)
      (show total pre ≤ x - g.start by omega) (by omega) (by omega) (by omega)
    exact ⟨o1, c, o2, rfl, hfree, hp⟩
  · simp only [HeapDesc.Apart, HeapDesc.blockAddr, HeapDesc.start] at *
    omega

end Kalisto
