import Kalisto.Mm.HeapList

/-!
# What `malloc` does to the layout

The two loops of `malloc` find the first block that fits, in list order of the heaps and address order
inside a heap; without such a block a new heap is appended.  `Allocates` is that behaviour on layouts,
with the call to the frame allocator that goes with it.

* `searchBlocks_skip`, `searchBlocks_hit`, `searchHeaps_skip`, `searchHeaps_hit` — the iterations of
  the loops;
* `mallocHeap_grow` — a new heap;
* `malloc_spec` — the memory holds the layout of `Allocates`, and no byte of an allocated payload
  has changed.
-/

namespace Kalisto

/-! ### Local facts -/

/-- The words of a `heap_t` behind its links, and where it lies. -/
structure HeapHead (m : Memory) (h : HeapDesc) : Prop where
  aligned : h.base % 4 = 0
  lo : 0x80000000 ≤ h.base
  room : h.base + 20 ≤ h.stop
  hi : h.stop ≤ 0xA0000000
  start : m.word (h.base + 8) = h.start
  stop : m.word (h.base + 12) = h.stop
  frames : m.word (h.base + 16) = h.frames

theorem HeapAt.head {m : Memory} {h : HeapDesc} (hh : HeapAt m h) (hok : h.Ok) : HeapHead m h := by
  have h1 := hok.aligned
  have h2 := hok.inKseg0
  have h3 := hok.tiled
  simp only [HeapDesc.start] at h3
  exact ⟨by omega, h2.1, by omega, h2.2, hh.start, hh.stop, hh.frames⟩

theorem HeapHead.congr {m m' : Memory} {h : HeapDesc} (hh : HeapHead m h)
    (heq : ∀ x, h.base + 8 ≤ x → x < h.start → m' x = m x) : HeapHead m' h := by
  have hw : ∀ c, h.base + 8 ≤ c → c + 4 ≤ h.start → m'.word c = m.word c :=
    fun c h1 h2 => Memory.word_congr fun x h3 h4 => heq x (by omega) (by omega)
  simp only [HeapDesc.start] at hw
  exact ⟨hh.aligned, hh.lo, hh.room, hh.hi, by rw [hw _ (by omega) (by omega), hh.start],
    by rw [hw _ (by omega) (by omega), hh.stop], by rw [hw _ (by omega) (by omega), hh.frames]⟩

/-- A block of the heap `h` at address `a`. -/
structure BlockIn (m : Memory) (h : HeapDesc) (a : ℕ) (b : Block) : Prop where
  block : BlockAt m h.base a b
  ok : b.Ok
  aligned : a % 4 = 0
  lo : h.start ≤ a
  hi : a + b.size ≤ h.stop

theorem HeapAt.blockIn {m : Memory} {h : HeapDesc} (hh : HeapAt m h) (hok : h.Ok)
    {pre post : List Block} {b : Block} (hb : h.blocks = pre ++ b :: post) :
    BlockIn m h (h.blockAddr pre) b := by
  obtain ⟨h1, h2, h3, h4⟩ := hok.block hb
  have hat := hh.blocks
  rw [hb, blocksAt_append] at hat
  exact ⟨hat.2.1, h1, h4, h2, by omega⟩

namespace HeapM

section Loads

variable {s : HeapState} {h : HeapDesc}

theorem load_start (hh : HeapHead s.mem h) : load h.base 8 s = .ok (h.start, s) := by
  have h1 := hh.aligned
  have h2 := hh.room
  have h3 := hh.hi
  rw [load_apply (by omega) (by omega), hh.start]

theorem load_stop (hh : HeapHead s.mem h) : load h.base 12 s = .ok (h.stop, s) := by
  have h1 := hh.aligned
  have h2 := hh.room
  have h3 := hh.hi
  rw [load_apply (by omega) (by omega), hh.stop]

theorem load_frames (hh : HeapHead s.mem h) : load h.base 16 s = .ok (h.frames, s) := by
  have h1 := hh.aligned
  have h2 := hh.room
  have h3 := hh.hi
  rw [load_apply (by omega) (by omega), hh.frames]

variable {a : ℕ} {b : Block}

theorem load_size (hh : HeapHead s.mem h) (hb : BlockIn s.mem h a b) :
    load a 0 s = .ok (b.size, s) := by
  have h1 := hb.aligned
  have h2 := hb.hi
  have h3 := hh.hi
  rw [load_apply (by omega) (by omega), Nat.add_zero, hb.block.size]

theorem load_heap (hh : HeapHead s.mem h) (hb : BlockIn s.mem h a b) :
    load a 8 s = .ok (h.base, s) := by
  have h1 := hb.aligned
  have h2 := hb.hi
  have h3 := hh.hi
  rw [load_apply (by omega) (by omega), hb.block.heap]

theorem loadBool_free (hh : HeapHead s.mem h) (hb : BlockIn s.mem h a b) :
    loadBool a 4 s = .ok (b.free, s) := by
  have h2 := hb.hi
  have h3 := hh.hi
  rw [loadBool_apply (by omega), hb.block.free_ne]

theorem blockCheck_in (hh : HeapHead s.mem h) (hb : BlockIn s.mem h a b) :
    blockCheck a s = .ok ((), s) := by
  have h1 := hh.hi
  have h2 := hh.room
  have h3 := hb.hi
  have h4 := hb.ok.1
  refine blockCheck_apply hb.block hb.ok hb.aligned hh.aligned (by omega) (by omega) ?_ ?_
  · rw [hh.start]
    exact hb.lo
  · rw [hh.stop]
    omega

/-- The test for a suitable block. -/
theorem suitable_apply (hh : HeapHead s.mem h) (hb : BlockIn s.mem h a b) (real : ℕ) :
    suitable real a s = .ok (b.fits real, s) := by
  simp only [suitable, bind_apply, loadBool_free hh hb, Outcome.ok_bind, Block.fits]
  cases b.free with
  | true => simp only [if_true, bind_apply, load_size hh hb, Outcome.ok_bind, pure_apply,
      Bool.true_and]
  | false => simp

end Loads

/-! ### Taking a block -/

/-- The memory after a stretch of `n` bytes was split into an allocated and a free block. -/
def splitMem (m : Memory) (heap real a n : ℕ) : Memory :=
  initBlock (initBlock m (a + real) (n - real) true heap) a real false heap

theorem splitMem_at (m : Memory) {heap real a n : ℕ} (ha : a % 4 = 0) (hr : 24 ≤ real)
    (hr4 : real % 4 = 0) (hn : n % 4 = 0) (hlt : real + 24 < n) (hn' : n < 2 ^ 32)
    (hheap : heap < 2 ^ 32) :
    BlocksAt (splitMem m heap real a n) heap a [⟨real, false⟩, ⟨n - real, true⟩] := by
  refine ⟨initBlock_at _ ha hr hr4 (by omega) hheap, ?_, trivial⟩
  -- the second block is written first, and the first one does not reach it
  have hnext : BlockAt (initBlock m (a + real) (n - real) true heap) heap (a + real)
      ⟨n - real, true⟩ := initBlock_at m (by omega) (by omega) (by omega) (by omega) hheap
  refine hnext.congr (by simp only; omega) fun x hx => ?_
  refine initBlock_outside _ hr fun hx' => ?_
  simp only [MetaByte] at hx hx'
  omega

theorem splitMem_outside {m : Memory} {heap real a n x : ℕ} (hr : 24 ≤ real)
    (hlt : real + 24 < n) (hx : x < a ∨ a + n ≤ x) : splitMem m heap real a n x = m x := by
  rw [splitMem, initBlock_outside _ hr, initBlock_outside _ (by omega)]
  · simp only [MetaByte]
    omega
  · simp only [MetaByte]
    omega

/-- The memory after a block at `a` was handed out. -/
def takeMem (m : Memory) (heap real a : ℕ) (b : Block) : Memory :=
  if real + 24 < b.size then splitMem m heap real a b.size else m.setByte (a + 4) 0

theorem takeBlock_apply {s : HeapState} {h : HeapDesc} {a real : ℕ} {b : Block}
    (hh : HeapHead s.mem h) (hb : BlockIn s.mem h a b) (hr : 24 ≤ real) (hr4 : real % 4 = 0)
    (hrs : real ≤ b.size) :
    takeBlock h.base real a s =
      .ok (a + 16, { s with mem := takeMem s.mem h.base real a b }) := by
  have h1 := hh.hi
  have h2 := hb.hi
  have h3 := hb.aligned
  obtain ⟨h4, h5⟩ := hb.ok
  simp only [takeBlock, bind_apply, splitLimitOf_apply (show real + 24 < 2 ^ 32 by omega),
    load_size hh hb, Outcome.ok_bind, takeMem, splitMem, sizeofHead]
  by_cases hlt : real + 24 < b.size
  · simp only [hlt, if_true, bind_apply, add_apply (show a + real < 2 ^ 32 by omega),
      load_size hh hb, sub_apply hrs (show b.size < 2 ^ 32 by omega), Outcome.ok_bind,
      blockInit_apply (show (a + real) % 4 = 0 by omega) (show 24 ≤ b.size - real by omega)
        (show (b.size - real) % 4 = 0 by omega) (show a + real + (b.size - real) < 2 ^ 32 by omega),
      blockInit_apply h3 hr hr4 (show a + real < 2 ^ 32 by omega),
      add_apply (show a + 16 < 2 ^ 32 by omega)]
  · simp only [hlt, if_false, bind_apply, storeBool_apply (show a + 4 < 2 ^ 32 by omega),
      Outcome.ok_bind, add_apply (show a + 16 < 2 ^ 32 by omega), Bool.false_eq_true]

/-- **A block is handed out.** -/
theorem takeMem_at {m : Memory} {h : HeapDesc} {a real : ℕ} {b : Block}
    (hh : HeapHead m h) (hb : BlockIn m h a b) (hr : 24 ≤ real) (hr4 : real % 4 = 0) :
    BlocksAt (takeMem m h.base real a b) h.base a (takeBlocks real b) := by
  have h1 := hh.hi
  have h2 := hb.hi
  have h3 := hb.aligned
  have h6 := hh.room
  obtain ⟨h4, h5⟩ := hb.ok
  simp only [takeMem, takeBlocks]
  split
  · exact splitMem_at m h3 hr hr4 h5 ‹_› (by omega) (by omega)
  · exact ⟨hb.block.setFree hb.ok h3 false, trivial⟩

theorem takeMem_outside {m : Memory} {heap a real x : ℕ} {b : Block} (hb : 24 ≤ b.size)
    (hr : 24 ≤ real) (hx : x < a ∨ a + b.size ≤ x) : takeMem m heap real a b x = m x := by
  simp only [takeMem]
  split
  · exact splitMem_outside hr ‹_› hx
  · exact Memory.setByte_of_ne (by omega)

/-! ### The inner loop -/

section Inner

variable {s : HeapState} {h : HeapDesc} {a real : ℕ} {b : Block}

theorem searchBlocks_end (hh : HeapHead s.mem h) (fuel : ℕ) :
    searchBlocks h.base real (fuel + 1) h.stop 0 s = .ok (0, s) := by
  simp only [searchBlocks, if_true, bind_apply, load_stop hh, Outcome.ok_bind, lt_irrefl, if_false,
    pure_apply]

theorem searchBlocks_found {result : ℕ} (hr : result ≠ 0) (fuel : ℕ) :
    searchBlocks h.base real (fuel + 1) a result s = .ok (result, s) := by
  simp only [searchBlocks, hr, if_false, pure_apply]

/-- A block that does not fit is passed. -/
theorem searchBlocks_skip (hh : HeapHead s.mem h) (hb : BlockIn s.mem h a b)
    (hfit : b.fits real = false) (fuel : ℕ) :
    searchBlocks h.base real (fuel + 1) a 0 s =
      searchBlocks h.base real fuel (a + b.size) 0 s := by
  have h1 := hh.hi
  have h2 := hb.hi
  have h3 := hb.ok.1
  have hlt : a < h.stop := by omega
  simp only [searchBlocks, if_true, bind_apply, load_stop hh, Outcome.ok_bind, hlt,
    blockCheck_in hh hb, suitable_apply hh hb, hfit, Bool.false_eq_true, if_false, pure_apply,
    load_size hh hb, add_apply (show a + b.size < 2 ^ 32 by omega)]

/-- **The first block that fits is taken.** -/
theorem searchBlocks_hit (hh : HeapHead s.mem h) (hb : BlockIn s.mem h a b)
    (hfit : b.fits real = true) (hr : 24 ≤ real) (hr4 : real % 4 = 0) (fuel : ℕ) :
    searchBlocks h.base real (fuel + 2) a 0 s =
      .ok (a + 16, { s with mem := takeMem s.mem h.base real a b }) := by
  have h1 := hh.hi
  have h2 := hb.hi
  have h3 := hb.ok.1
  have h4 := hb.aligned
  have hlt : a < h.stop := by omega
  simp only [Block.fits, Bool.and_eq_true, decide_eq_true_eq] at hfit
  obtain ⟨hfree, hsize⟩ := hfit
  have hfit : b.fits real = true := by simp [Block.fits, hfree, hsize]
  -- the block at `a` after it was taken
  obtain ⟨c, hc, hcs⟩ : ∃ c, (takeMem s.mem h.base real a b).word a = c ∧ c ≤ b.size := by
    have hat := takeMem_at hh hb hr hr4
    simp only [takeBlocks] at hat
    split at hat
    · exact ⟨real, hat.1.size, hsize⟩
    · exact ⟨b.size, hat.1.size, le_rfl⟩
  have hload : load a 0 { s with mem := takeMem s.mem h.base real a b } =
      .ok (c, { s with mem := takeMem s.mem h.base real a b }) := by
    rw [load_apply (by omega) (by omega), Nat.add_zero, hc]
  rw [searchBlocks]
  simp only [if_true, bind_apply, load_stop hh, Outcome.ok_bind, hlt, blockCheck_in hh hb,
    suitable_apply hh hb, hfit, takeBlock_apply hh hb hr hr4 hsize, hload,
    add_apply (show a + c < 2 ^ 32 by omega)]
  exact searchBlocks_found (by omega) fuel

/-- Blocks that do not fit are passed. -/
theorem searchBlocks_pass (hh : HeapHead s.mem h) {bs : List Block}
    (hat : BlocksAt s.mem h.base a bs) (hok : ∀ b ∈ bs, b.Ok) (ha : a % 4 = 0) (hlo : h.start ≤ a)
    (hhi : a + total bs ≤ h.stop) (hfit : ∀ b ∈ bs, b.fits real = false) (fuel : ℕ) :
    searchBlocks h.base real (bs.length + fuel) a 0 s =
      searchBlocks h.base real fuel (a + total bs) 0 s := by
  induction bs generalizing a with
  | nil => simp
  | cons b bs ih =>
    simp only [total_cons] at hhi
    obtain ⟨hb1, hb2⟩ := hok b (by simp)
    have hb : BlockIn s.mem h a b := ⟨hat.1, ⟨hb1, hb2⟩, ha, hlo, by omega⟩
    rw [List.length_cons, show bs.length + 1 + fuel = (bs.length + fuel) + 1 by omega,
      searchBlocks_skip hh hb (hfit b (by simp)),
      ih hat.2 (fun c hc => hok c (by simp [hc])) (by omega) (by omega) (by omega)
        (fun c hc => hfit c (by simp [hc])), total_cons, Nat.add_assoc]

end Inner

/-- **The inner loop on a heap without a block that fits.** -/
theorem searchBlocks_none {s : HeapState} {h : HeapDesc} {real fuel : ℕ} (hh : HeapAt s.mem h)
    (hok : h.Ok) (hfit : ∀ b ∈ h.blocks, b.fits real = false) (hfuel : h.blocks.length < fuel) :
    searchBlocks h.base real fuel h.start 0 s = .ok (0, s) := by
  obtain ⟨n, rfl⟩ : ∃ n, fuel = h.blocks.length + (n + 1) := ⟨fuel - h.blocks.length - 1, by omega⟩
  have hal := hok.aligned
  rw [searchBlocks_pass (hh.head hok) hh.blocks hok.blocks (by simp only [HeapDesc.start]; omega)
    le_rfl hok.tiled.le hfit, hok.tiled, searchBlocks_end (hh.head hok)]

/-- **The inner loop on a heap with a block that fits.** -/
theorem searchBlocks_some {s : HeapState} {h : HeapDesc} {real fuel : ℕ} {pre post : List Block}
    {b : Block} (hh : HeapAt s.mem h) (hok : h.Ok) (hb : h.blocks = pre ++ b :: post)
    (hpre : ∀ c ∈ pre, c.fits real = false) (hfit : b.fits real = true) (hr : 24 ≤ real)
    (hr4 : real % 4 = 0) (hfuel : h.blocks.length < fuel) :
    searchBlocks h.base real fuel h.start 0 s =
      .ok (h.payload pre, { s with mem := takeMem s.mem h.base real (h.blockAddr pre) b }) := by
  rw [hb] at hfuel
  simp only [List.length_append, List.length_cons] at hfuel
  obtain ⟨n, rfl⟩ : ∃ n, fuel = pre.length + (n + 2) := ⟨fuel - pre.length - 2, by omega⟩
  have hal := hok.aligned
  have hat := hh.blocks
  have htiled := hok.tiled
  rw [hb, blocksAt_append] at hat
  rw [hb, total_append] at htiled
  rw [searchBlocks_pass (hh.head hok) hat.1 (fun c hc => hok.blocks c (by rw [hb]; simp [hc]))
    (by simp only [HeapDesc.start]; omega) le_rfl (by omega) hpre]
  exact searchBlocks_hit (hh.head hok) (hh.blockIn hok hb) hfit hr hr4 n

/-! ### The outer loop -/

/-- No block of the heaps fits. -/
def NoFit (real : ℕ) (lay : List HeapDesc) : Prop := ∀ h ∈ lay, ∀ b ∈ h.blocks, b.fits real = false

/-- The link of the first heap of a row, or the list head. -/
def firstLink (l : ℕ) (lay : List HeapDesc) : ℕ := (lay.map HeapDesc.base).headD l

section Outer

variable {s : HeapState} {l real fuel : ℕ} {L R : List HeapDesc} {h : HeapDesc}

theorem load_next (hat : LayoutAt s.mem l (L ++ h :: R)) (hok : LayoutOk l (L ++ h :: R)) :
    load h.base 4 s = .ok (firstLink l R, s) := by
  have hhd := (hat.heaps h (by simp)).head hok.heap
  have h1 := hhd.aligned
  have h2 := hhd.room
  have h3 := hhd.hi
  have hring := hat.ring
  simp only [List.map_append, List.map_cons] at hring
  rw [load_apply (by omega) (by omega), (ptr_eq_some.mp hring.next_item).1, firstLink]

theorem load_first (hat : LayoutAt s.mem l L) (hok : LayoutOk l L) :
    load l 4 s = .ok (firstLink l L, s) := by
  have h1 := hok.listAligned
  have h2 := hok.listRange
  rw [load_apply (by omega) (by omega)]
  cases L with
  | nil => rw [(ptr_eq_some.mp hat.ring.next_head_nil).1, firstLink, List.map_nil, List.headD_nil]
  | cons g L => rw [(ptr_eq_some.mp hat.ring.next_head).1, firstLink, List.map_cons, List.headD_cons]

theorem base_ne_list (hok : LayoutOk l (L ++ h :: R)) : h.base ≠ l := by
  have h1 := hok.listApart h (by simp)
  have h2 := hok.heap.tiled
  simp only [HeapDesc.start] at h2
  omega

theorem searchHeaps_end (n : ℕ) : searchHeaps l real fuel (n + 1) l s = .ok (0, s) := by
  simp only [searchHeaps, if_true, pure_apply]

/-- A heap without a block that fits is passed. -/
theorem searchHeaps_skip (hat : LayoutAt s.mem l (L ++ h :: R)) (hok : LayoutOk l (L ++ h :: R))
    (hfit : ∀ b ∈ h.blocks, b.fits real = false) (hfuel : h.blocks.length < fuel) (n : ℕ) :
    searchHeaps l real fuel (n + 1) h.base s = searchHeaps l real fuel n (firstLink l R) s := by
  have hh := hat.heaps h (by simp)
  simp only [searchHeaps, base_ne_list hok, if_false, bind_apply, load_start (hh.head hok.heap),
    Outcome.ok_bind, searchBlocks_none hh hok.heap hfit hfuel, ne_eq, not_true_eq_false,
    load_next hat hok]

/-- Heaps without a block that fits are passed. -/
theorem searchHeaps_pass {M : List HeapDesc} (hat : LayoutAt s.mem l (L ++ (M ++ R)))
    (hok : LayoutOk l (L ++ (M ++ R))) (hfit : NoFit real M)
    (hfuel : ∀ g ∈ M, g.blocks.length < fuel) (n : ℕ) :
    searchHeaps l real fuel (M.length + n) (firstLink l (M ++ R)) s =
      searchHeaps l real fuel n (firstLink l R) s := by
  induction M generalizing L with
  | nil => simp
  | cons h M ih =>
    rw [List.length_cons, show M.length + 1 + n = M.length + n + 1 by omega,
      show firstLink l (h :: M ++ R) = h.base from rfl,
      searchHeaps_skip hat hok (hfit h (by simp)) (hfuel h (by simp))]
    have happ : L ++ (h :: M ++ R) = (L ++ [h]) ++ (M ++ R) := by simp
    rw [happ] at hat hok
    exact ih hat hok (fun g hg => hfit g (by simp [hg])) fun g hg => hfuel g (by simp [hg])

/-- **The outer loop without a block that fits.** -/
theorem searchHeaps_none {n : ℕ} (hat : LayoutAt s.mem l L) (hok : LayoutOk l L)
    (hfit : NoFit real L) (hfuel : ∀ g ∈ L, g.blocks.length < fuel) (hn : L.length < n) :
    searchHeaps l real fuel n (firstLink l L) s = .ok (0, s) := by
  obtain ⟨k, rfl⟩ : ∃ k, n = L.length + (k + 1) := ⟨n - L.length - 1, by omega⟩
  have hpass := searchHeaps_pass (L := []) (M := L) (R := []) (s := s) (by simpa using hat)
    (by simpa using hok) hfit hfuel (k + 1)
  rw [List.append_nil] at hpass
  rw [hpass]
  exact searchHeaps_end k

/-- **The outer loop with a block that fits.** -/
theorem searchHeaps_some {n : ℕ} {pre post : List Block} {b : Block}
    (hat : LayoutAt s.mem l (L ++ h :: R)) (hok : LayoutOk l (L ++ h :: R)) (hL : NoFit real L)
    (hb : h.blocks = pre ++ b :: post) (hpre : ∀ c ∈ pre, c.fits real = false)
    (hfit : b.fits real = true) (hr : 24 ≤ real) (hr4 : real % 4 = 0)
    (hfuel : ∀ g ∈ L ++ h :: R, g.blocks.length < fuel) (hn : L.length < n) :
    searchHeaps l real fuel n (firstLink l (L ++ h :: R)) s =
      .ok (h.payload pre, { s with mem := takeMem s.mem h.base real (h.blockAddr pre) b }) := by
  obtain ⟨k, rfl⟩ : ∃ k, n = L.length + (k + 1) := ⟨n - L.length - 1, by omega⟩
  have hh := hat.heaps h (by simp)
  have hpay : h.payload pre ≠ 0 := by
    simp only [HeapDesc.payload]
    omega
  rw [searchHeaps_pass (L := []) (by simpa using hat) (by simpa using hok) hL
    (fun g hg => hfuel g (by simp [hg])) (k + 1), show firstLink l (h :: R) = h.base from rfl]
  simp only [searchHeaps, base_ne_list hok, if_false, bind_apply, load_start (hh.head hok.heap),
    Outcome.ok_bind, searchBlocks_some hh hok.heap hb hpre hfit hr hr4 (hfuel h (by simp)), ne_eq,
    hpay, not_false_eq_true, if_true, pure_apply]

end Outer

end HeapM

/-! ### A new heap -/

theorem addrInKseg0_eq {phys : ℕ} (h : phys < 0x20000000) :
    addrInKseg0 phys = 0x80000000 + phys := by
  have hand : phys &&& addrOffsetMask = phys :=
    Nat.and_two_pow_sub_one_of_lt_two_pow (n := 29) h
  have hor := Nat.two_pow_add_eq_or_of_lt (i := 31) (b := phys) (by omega) 1
  rw [addrInKseg0, hand, Nat.or_comm]
  exact hor.symm

theorem addrFromKseg0_eq {phys : ℕ} (h : phys < 0x20000000) :
    addrFromKseg0 (0x80000000 + phys) = phys := by
  have hand := Nat.and_two_pow_sub_one_eq_mod (0x80000000 + phys) 29
  have hmod : (0x80000000 + phys) % 2 ^ 29 = phys := by omega
  exact hand.trans hmod

/-- The heap that `malloc_heap` makes at the physical address `phys`. -/
def newHeap (real phys : ℕ) : HeapDesc where
  base := 0x80000000 + phys
  frames := framesFor real
  blocks := takeBlocks real ⟨framesFor real * 4096 - 20, true⟩

/-- What the heap code relies on when `frame_alloc` answers with a range: it is aligned, can be
addressed through KSEG0, and is apart from the heaps and from the list head. -/
structure FreshRange (l : ℕ) (lay : List HeapDesc) (phys cnt : ℕ) : Prop where
  aligned : phys % 4096 = 0
  inKseg0 : phys + cnt * 4096 ≤ 0x20000000
  listApart : l + 8 ≤ 0x80000000 + phys ∨ 0x80000000 + phys + cnt * 4096 ≤ l
  apart : ∀ h ∈ lay, h.stop ≤ 0x80000000 + phys ∨ 0x80000000 + phys + cnt * 4096 ≤ h.base

theorem framesFor_room (real : ℕ) : real + 20 ≤ framesFor real * 4096 := by
  simp only [framesFor]
  have := le_max_right 16 ((real + 20 + 4095) / 4096)
  omega

theorem newHeap_ok {l real phys : ℕ} {lay : List HeapDesc} (hr : 24 ≤ real) (hr4 : real % 4 = 0)
    (hf : FreshRange l lay phys (framesFor real)) : (newHeap real phys).Ok := by
  have hroom := framesFor_room real
  have h1 := hf.aligned
  have h2 := hf.inKseg0
  obtain ⟨b, hb, hbf, hbs⟩ : ∃ b : Block, (newHeap real phys).blocks = takeBlocks real b ∧
      b.free = true ∧ b.size = framesFor real * 4096 - 20 := ⟨_, rfl, rfl, rfl⟩
  have hpair := @NoFreePair.take real [] [] b (by simp [NoFreePair]) hbf
  have hsingle := take_ne_single real [] b []
  rw [List.nil_append, List.append_nil] at hpair hsingle
  refine ⟨?_, ?_, ?_, ?_, hb ▸ hpair, hb ▸ hsingle⟩
  · simp only [newHeap]
    omega
  · simp only [newHeap, HeapDesc.stop]
    omega
  · rw [hb, total_takeBlocks, hbs]
    simp only [newHeap, HeapDesc.stop, HeapDesc.start]
    omega
  · rw [hb]
    refine takeBlocks_ok hr hr4 ?_
    simp only [Block.Ok]
    omega

theorem LayoutOk.grow {l real phys : ℕ} {lay : List HeapDesc} (hok : LayoutOk l lay)
    (hr : 24 ≤ real) (hr4 : real % 4 = 0) (hf : FreshRange l lay phys (framesFor real)) :
    LayoutOk l (lay ++ [newHeap real phys]) := by
  refine ⟨hok.listAligned, hok.listRange, ?_, ?_, ?_⟩
  · intro g hg
    rcases List.mem_append.mp hg with hg | hg
    · exact hok.heaps g hg
    · rw [List.mem_singleton.mp hg]
      exact newHeap_ok hr hr4 hf
  · intro g hg
    rcases List.mem_append.mp hg with hg | hg
    · exact hok.listApart g hg
    · rw [List.mem_singleton.mp hg]
      exact hf.listApart
  · rw [List.pairwise_append]
    refine ⟨hok.apart, by simp, fun g hg k hk => ?_⟩
    rw [List.mem_singleton.mp hk]
    exact hf.apart g hg

/-- The list items of a layout lie apart. -/
theorem LayoutOk.spread {l : ℕ} {lay : List HeapDesc} (hok : LayoutOk l lay) :
    HeapM.Spread (l :: lay.map HeapDesc.base) := by
  have hroom : ∀ h ∈ lay, h.base % 4 = 0 ∧ 0x80000000 ≤ h.base ∧ h.base + 20 ≤ h.stop ∧
      h.stop ≤ 0xA0000000 := by
    intro h hh
    have h1 := (hok.heaps h hh).aligned
    have h2 := (hok.heaps h hh).inKseg0
    have h3 := (hok.heaps h hh).tiled
    simp only [HeapDesc.start] at h3
    omega
  have h1 := hok.listAligned
  have h2 := hok.listRange
  constructor
  · intro a ha
    rcases List.mem_cons.mp ha with rfl | ha
    · exact ⟨h1, h2⟩
    · obtain ⟨g, hg, rfl⟩ := List.mem_map.mp ha
      have := hroom g hg
      omega
  · intro a ha b hb
    rcases List.mem_cons.mp ha with ha' | ha' <;> rcases List.mem_cons.mp hb with hb' | hb'
    · exact Or.inl (ha'.trans hb'.symm)
    · obtain ⟨g, hg, rfl⟩ := List.mem_map.mp hb'
      have := hroom g hg
      have := hok.listApart g hg
      omega
    · obtain ⟨g, hg, rfl⟩ := List.mem_map.mp ha'
      have := hroom g hg
      have := hok.listApart g hg
      omega
    · obtain ⟨g, hg, rfl⟩ := List.mem_map.mp ha'
      obtain ⟨k, hk, rfl⟩ := List.mem_map.mp hb'
      obtain ⟨L, R, rfl⟩ := List.append_of_mem hk
      have hg' := hroom g hg
      have hk' := hroom k hk
      rcases hok.eq_or_apart hg with rfl | hap
      · exact Or.inl rfl
      · simp only [HeapDesc.Apart] at hap
        omega

/-- A byte of a heap behind its links is no link byte. -/
theorem LayoutOk.outsideLinks {l : ℕ} {lay : List HeapDesc} (hok : LayoutOk l lay) {h : HeapDesc}
    (hh : h ∈ lay) {x : ℕ} (h1 : h.base + 8 ≤ x) (h2 : x < h.stop) :
    HeapM.OutsideLinks (l :: lay.map HeapDesc.base) x := by
  intro a ha
  rcases List.mem_cons.mp ha with rfl | ha
  · have := hok.listApart h hh
    omega
  · obtain ⟨g, hg, rfl⟩ := List.mem_map.mp ha
    have hgt := (hok.heaps g hg).tiled
    simp only [HeapDesc.start] at hgt
    obtain ⟨L, R, rfl⟩ := List.append_of_mem hh
    rcases hok.eq_or_apart hg with rfl | hap
    · omega
    · simp only [HeapDesc.Apart] at hap
      omega

/-- A byte outside the heaps is outside the links. -/
theorem OutsideHeaps.outsideLinks {l : ℕ} {lay : List HeapDesc} {x : ℕ} (hx : OutsideHeaps l lay x)
    (hok : LayoutOk l lay) : HeapM.OutsideLinks (l :: lay.map HeapDesc.base) x := by
  intro a ha
  rcases List.mem_cons.mp ha with rfl | ha
  · exact hx.1
  · obtain ⟨h, hmem, rfl⟩ := List.mem_map.mp ha
    have hxh := hx.2 h hmem
    have htiled := (hok.heaps h hmem).tiled
    simp only [HeapDesc.start] at htiled
    omega

/-- A byte of a payload is outside the links. -/
theorem InPayload.outsideLinks {l q x : ℕ} {lay : List HeapDesc} (hx : InPayload lay q x)
    (hok : LayoutOk l lay) : HeapM.OutsideLinks (l :: lay.map HeapDesc.base) x := by
  obtain ⟨h, pre, b, post, ⟨hmem, hb⟩, -, rfl, h1, h2⟩ := hx
  obtain ⟨-, h3, h4, -⟩ := (hok.heaps h hmem).block hb
  simp only [HeapDesc.payload, HeapDesc.start] at h1 h3
  exact hok.outsideLinks hmem (by omega) (by omega)

namespace HeapM

/-- The memory after the words of a `heap_t` were written. -/
def headMem (m : Memory) (h : HeapDesc) : Memory :=
  ((((m.setWord h.base 0).setWord (h.base + 4) 0).setWord (h.base + 8) h.start).setWord
    (h.base + 12) h.stop).setWord (h.base + 16) h.frames

theorem headMem_head (m : Memory) {h : HeapDesc} (ha : h.base % 4 = 0) (hlo : 0x80000000 ≤ h.base)
    (hroom : h.base + 20 ≤ h.stop) (hhi : h.stop ≤ 0xA0000000) : HeapHead (headMem m h) h := by
  have hfr : h.frames < 2 ^ 32 := by
    simp only [HeapDesc.stop] at hhi
    omega
  refine ⟨ha, hlo, hroom, hhi, ?_, ?_, ?_⟩
  · simp only [headMem]
    rw [Memory.word_setWord_of_ne (by omega) (by omega) (by omega),
      Memory.word_setWord_of_ne (by omega) (by omega) (by omega), Memory.word_setWord_self,
      Nat.mod_eq_of_lt (by simp only [HeapDesc.start]; omega)]
  · simp only [headMem]
    rw [Memory.word_setWord_of_ne (by omega) (by omega) (by omega), Memory.word_setWord_self,
      Nat.mod_eq_of_lt (by omega)]
  · simp only [headMem]
    rw [Memory.word_setWord_self, Nat.mod_eq_of_lt hfr]

theorem headMem_outside {m : Memory} {h : HeapDesc} {x : ℕ} (hx : x < h.base ∨ h.base + 20 ≤ x) :
    headMem m h x = m x := by
  simp only [headMem]
  rw [Memory.setWord_of_outside (by omega), Memory.setWord_of_outside (by omega),
    Memory.setWord_of_outside (by omega), Memory.setWord_of_outside (by omega),
    Memory.setWord_of_outside (by omega)]

/-- The memory after the blocks of a new heap were written. -/
def blocksMem (m : Memory) (heap real a payload : ℕ) : Memory :=
  if real + 24 < payload then splitMem m heap real a payload else initBlock m a payload false heap

theorem heapBlocks_apply {s : HeapState} {h : HeapDesc} {real payload : ℕ}
    (hh : HeapHead s.mem h) (hr : 24 ≤ real) (hr4 : real % 4 = 0) (hp : payload % 4 = 0)
    (hrp : real ≤ payload) (hend : h.start + payload = h.stop) :
    heapBlocks h.base real (real + 24) payload s =
      .ok ((), { s with mem := blocksMem s.mem h.base real h.start payload }) := by
  have h1 := hh.hi
  have h2 := hh.aligned
  have h3 : h.start % 4 = 0 := by
    simp only [HeapDesc.start]
    omega
  simp only [heapBlocks, bind_apply, load_start hh, Outcome.ok_bind, blocksMem, splitMem]
  by_cases hlt : real + 24 < payload
  · simp only [hlt, if_true, bind_apply, add_apply (show h.start + real < 2 ^ 32 by omega),
      sub_apply hrp (show payload < 2 ^ 32 by omega), Outcome.ok_bind,
      blockInit_apply (show (h.start + real) % 4 = 0 by omega) (show 24 ≤ payload - real by omega)
        (show (payload - real) % 4 = 0 by omega)
        (show h.start + real + (payload - real) < 2 ^ 32 by omega),
      blockInit_apply h3 hr hr4 (show h.start + real < 2 ^ 32 by omega)]
  · simp only [hlt, if_false, blockInit_apply h3 (show 24 ≤ payload by omega) hp
      (show h.start + payload < 2 ^ 32 by omega)]

theorem blocksMem_at (m : Memory) {heap real a payload : ℕ} (ha : a % 4 = 0) (hr : 24 ≤ real)
    (hr4 : real % 4 = 0) (hp : payload % 4 = 0) (hrp : real ≤ payload) (hlt : payload < 2 ^ 32)
    (hheap : heap < 2 ^ 32) :
    BlocksAt (blocksMem m heap real a payload) heap a (takeBlocks real ⟨payload, true⟩) := by
  simp only [blocksMem, takeBlocks]
  split
  · exact splitMem_at m ha hr hr4 hp ‹_› hlt hheap
  · exact ⟨initBlock_at m ha (by omega) hp hlt hheap, trivial⟩

theorem blocksMem_outside {m : Memory} {heap real a payload x : ℕ} (hr : 24 ≤ real)
    (hrp : real ≤ payload) (hx : x < a ∨ a + payload ≤ x) :
    blocksMem m heap real a payload x = m x := by
  simp only [blocksMem]
  split
  · exact splitMem_outside hr ‹_› hx
  · refine initBlock_outside _ (by omega) ?_
    simp only [MetaByte]
    omega

/-- The memory before a new heap is put on the list. -/
def newMem (m : Memory) (real phys : ℕ) : Memory :=
  blocksMem (headMem m (newHeap real phys)) (newHeap real phys).base real
    (newHeap real phys).start (framesFor real * 4096 - 20)

section Grow

variable {s : HeapState} {l real phys : ℕ} {lay : List HeapDesc}

theorem newHeap_range (hf : FreshRange l lay phys (framesFor real)) :
    (newHeap real phys).base % 4 = 0 ∧ 0x80000000 ≤ (newHeap real phys).base ∧
      (newHeap real phys).base + 20 + real ≤ (newHeap real phys).stop ∧
      (newHeap real phys).stop ≤ 0xA0000000 ∧
      (newHeap real phys).start + (framesFor real * 4096 - 20) = (newHeap real phys).stop := by
  have h1 := hf.aligned
  have h2 := hf.inKseg0
  have h3 := framesFor_room real
  simp only [newHeap, HeapDesc.stop, HeapDesc.start]
  omega

theorem newMem_outside {m : Memory} {x : ℕ} (hf : FreshRange l lay phys (framesFor real))
    (hr : 24 ≤ real) (hx : x < (newHeap real phys).base ∨ (newHeap real phys).stop ≤ x) :
    newMem m real phys x = m x := by
  obtain ⟨-, -, h3, -, h5⟩ := newHeap_range hf
  simp only [HeapDesc.start] at h5
  rw [newMem, blocksMem_outside hr (by omega) (by simp only [HeapDesc.start]; omega),
    headMem_outside (by omega)]

theorem newMem_at (m : Memory) (hf : FreshRange l lay phys (framesFor real)) (hr : 24 ≤ real)
    (hr4 : real % 4 = 0) : HeapAt (newMem m real phys) (newHeap real phys) := by
  obtain ⟨h1, h2, h3, h4, h5⟩ := newHeap_range hf
  have hst : (newHeap real phys).start = (newHeap real phys).base + 20 := rfl
  have hhead : HeapHead (newMem m real phys) (newHeap real phys) := by
    refine (headMem_head m h1 h2 (by omega) h4).congr fun x hx hx' => ?_
    exact blocksMem_outside hr (by omega) (by omega)
  refine ⟨hhead.start, hhead.stop, hhead.frames, ?_⟩
  exact blocksMem_at _ (by omega) hr hr4 (by omega) (by omega) (by omega) (by omega)

/-- **A new heap is appended.** -/
theorem LayoutAt.grow {m m' : Memory} (hat : LayoutAt m l lay) (hok : LayoutOk l lay)
    (hf : FreshRange l lay phys (framesFor real)) (hr : 24 ≤ real) (hr4 : real % 4 = 0)
    (hring : Links.Ring (linksOf m') l (lay.map HeapDesc.base ++ [(newHeap real phys).base]))
    (hout : ∀ x, OutsideLinks ((newHeap real phys).base :: l :: lay.map HeapDesc.base) x →
      m' x = newMem m real phys x) : LayoutAt m' l (lay ++ [newHeap real phys]) := by
  have hgrow := hok.grow hr hr4 hf
  have hsame : ∀ h ∈ lay ++ [newHeap real phys], ∀ x, h.base + 8 ≤ x → x < h.stop →
      m' x = newMem m real phys x := by
    intro h hh x h1 h2
    refine hout x fun a ha => hgrow.outsideLinks hh h1 h2 a ?_
    simp only [List.map_append, List.map_cons, List.map_nil, List.mem_cons, List.mem_append,
      List.not_mem_nil, or_false] at ha ⊢
    tauto
  refine ⟨by simpa using hring, fun h hh => ?_⟩
  refine HeapAt.congr ?_ (hgrow.heaps h hh) (hsame h hh)
  rcases List.mem_append.mp hh with hmem | hmem
  · -- the bytes of the new heap are not those of an old one
    refine (hat.heaps h hmem).congr (hok.heaps h hmem) fun x h1 h2 => newMem_outside hf hr ?_
    have := hf.apart h hmem
    simp only [newHeap, HeapDesc.stop] at this h2 ⊢
    omega
  · rw [List.mem_singleton.mp hmem]
    exact newMem_at m hf hr hr4

/-- `malloc_heap` when there are no frames. -/
theorem mallocHeap_none {answer : ℕ → Option ℕ} {size : ℕ} (hs : size ≤ heapBlockSizeMax)
    (ha : answer (framesFor (realSize size)) = none) :
    mallocHeap l answer size s =
      .ok (0, { s with calls := .alloc (framesFor (realSize size)) none :: s.calls }) := by
  obtain ⟨-, hr, -⟩ := realSize_ok hs
  simp only [mallocHeap, bind_apply, realSizeOf_apply hs, Outcome.ok_bind,
    splitLimitOf_apply (show realSize size + 24 < 2 ^ 32 by omega), heapSizeOf_apply hr, logCall,
    modify_apply, ha, pure_apply]

/-- The new heap is none of the list items. -/
theorem newHeap_notMem (hok : LayoutOk l lay) (hf : FreshRange l lay phys (framesFor real)) :
    (newHeap real phys).base ∉ l :: lay.map HeapDesc.base := by
  have hroom := framesFor_room real
  intro hmem
  rcases List.mem_cons.mp hmem with he | hmem
  · have := hf.listApart
    simp only [newHeap] at he
    omega
  · obtain ⟨g, hg, he⟩ := List.mem_map.mp hmem
    have hap := hf.apart g hg
    have hgr := (hok.heaps g hg).tiled
    simp only [newHeap, HeapDesc.stop, HeapDesc.start] at he hap hgr
    omega

theorem newHeap_spread (hok : LayoutOk l lay) (hf : FreshRange l lay phys (framesFor real))
    (hr : 24 ≤ real) (hr4 : real % 4 = 0) :
    Spread ((newHeap real phys).base :: l :: lay.map HeapDesc.base) := by
  refine (hok.grow hr hr4 hf).spread.subset fun a ha => ?_
  simp only [List.map_append, List.map_cons, List.map_nil, List.mem_cons, List.mem_append,
    List.not_mem_nil, or_false] at ha ⊢
  tauto

/-- The list still stands after the new heap was written. -/
theorem newMem_ring {m : Memory} (hat : LayoutAt m l lay) (hok : LayoutOk l lay)
    (hf : FreshRange l lay phys (framesFor real)) (hr : 24 ≤ real) :
    Links.Ring (linksOf (newMem m real phys)) l (lay.map HeapDesc.base) := by
  refine hat.ring.congr fun a ha => linksOf_congr fun x hx hx' => newMem_outside hf hr ?_
  rcases List.mem_cons.mp ha with rfl | ha
  · have := hf.listApart
    simp only [newHeap, HeapDesc.stop]
    omega
  · obtain ⟨g, hg, rfl⟩ := List.mem_map.mp ha
    have hap := hf.apart g hg
    have hgr := (hok.heaps g hg).tiled
    simp only [newHeap, HeapDesc.stop, HeapDesc.start] at hap hgr ⊢
    omega

/-- `malloc_heap` up to the list: the words of the `heap_t` and the blocks. -/
theorem mallocHeap_write {answer : ℕ → Option ℕ} {size : ℕ} (hs : size ≤ heapBlockSizeMax)
    (ha : answer (framesFor (realSize size)) = some phys)
    (hf : FreshRange l lay phys (framesFor (realSize size))) :
    mallocHeap l answer size s = (do
      listAppend l (newHeap (realSize size) phys).base
      add (← load (newHeap (realSize size) phys).base 8) sizeofHead : HeapM ℕ)
      { s with
        mem := newMem s.mem (realSize size) phys
        calls := .alloc (framesFor (realSize size)) (some phys) :: s.calls } := by
  obtain ⟨hr, hrmax, hr4⟩ := realSize_ok hs
  obtain ⟨h1, h2, h3, h4, h5⟩ := newHeap_range hf
  have hlt : phys < 0x20000000 := by
    have := hf.inKseg0
    have := framesFor_room (realSize size)
    omega
  have hbase : addrInKseg0 phys = (newHeap (realSize size) phys).base := addrInKseg0_eq hlt
  have hreal := realSizeOf_apply hs
  have hfr : (newHeap (realSize size) phys).frames = framesFor (realSize size) := rfl
  rw [newMem]
  generalize realSize size = real at *
  generalize newHeap real phys = h at *
  have hst : h.start = h.base + 20 := rfl
  have hsp : h.stop = h.base + framesFor real * 4096 := by rw [HeapDesc.stop, hfr]
  have hblocks := heapBlocks_apply
    (s := { s with
      mem := headMem s.mem h
      calls := .alloc (framesFor real) (some phys) :: s.calls })
    (headMem_head s.mem h1 h2 (by omega) h4) (show 24 ≤ real by omega) hr4
    (show (framesFor real * 4096 - 20) % 4 = 0 by omega) (by omega) h5
  simp only [headMem, hst, hsp, hfr] at hblocks
  simp only [mallocHeap, bind_apply, hreal, Outcome.ok_bind,
    splitLimitOf_apply (show real + 24 < 2 ^ 32 by omega), heapSizeOf_apply hrmax, logCall,
    modify_apply, ha, hbase, sizeofHeap, sizeofHead,
    linkInit_apply (show 0 < h.base by omega) h1 (by omega),
    add_apply (show h.base + 20 < 2 ^ 32 by omega),
    add_apply (show h.base + framesFor real * 4096 < 2 ^ 32 by omega),
    store_apply (show h.base + 8 < 2 ^ 32 by omega) (show (h.base + 8) % 4 = 0 by omega),
    store_apply (show h.base + 12 < 2 ^ 32 by omega) (show (h.base + 12) % 4 = 0 by omega),
    store_apply (show h.base + 16 < 2 ^ 32 by omega) (show (h.base + 16) % 4 = 0 by omega),
    sub_apply (show 20 ≤ framesFor real * 4096 by omega)
      (show framesFor real * 4096 < 2 ^ 32 by omega), hblocks, headMem, hst, hsp, hfr]

/-- **`malloc_heap` makes a new heap.** -/
theorem mallocHeap_some {answer : ℕ → Option ℕ} {size : ℕ} (hs : size ≤ heapBlockSizeMax)
    (hat : LayoutAt s.mem l lay) (hok : LayoutOk l lay)
    (ha : answer (framesFor (realSize size)) = some phys)
    (hf : FreshRange l lay phys (framesFor (realSize size))) :
    ∃ m', mallocHeap l answer size s = .ok ((newHeap (realSize size) phys).payload [],
        { s with mem := m', calls := .alloc (framesFor (realSize size)) (some phys) :: s.calls }) ∧
      LayoutAt m' l (lay ++ [newHeap (realSize size) phys]) ∧
      ∀ x, (x < (newHeap (realSize size) phys).base ∨ (newHeap (realSize size) phys).stop ≤ x) →
        OutsideLinks (l :: lay.map HeapDesc.base) x → m' x = s.mem x := by
  obtain ⟨hr, -, hr4⟩ := realSize_ok hs
  have hr24 : 24 ≤ realSize size := by omega
  rw [mallocHeap_write hs ha hf]
  obtain ⟨m', happ, hring, hout⟩ := listAppend_spec
    (s := { s with
      mem := newMem s.mem (realSize size) phys
      calls := .alloc (framesFor (realSize size)) (some phys) :: s.calls })
    (newMem_ring hat hok hf hr24) (newHeap_spread hok hf hr24 hr4) (newHeap_notMem hok hf)
  have hat' := LayoutAt.grow hat hok hf hr24 hr4 hring hout
  obtain ⟨-, h2, h3, h4, -⟩ := newHeap_range hf
  refine ⟨m', ?_, hat', ?_⟩
  · have hhead := (hat'.heaps (newHeap (realSize size) phys) (by simp)).head
      (newHeap_ok hr24 hr4 hf)
    have hst : (newHeap (realSize size) phys).start + 16 < 2 ^ 32 := by
      simp only [HeapDesc.start]
      omega
    simp only [bind_apply, happ, Outcome.ok_bind, sizeofHead]
    rw [load_start hhead, Outcome.ok_bind, add_apply hst, HeapDesc.payload, HeapDesc.blockAddr,
      total_nil, Nat.add_zero]
  · intro x hx hx'
    have hnew : OutsideLinks
        ((newHeap (realSize size) phys).base :: l :: lay.map HeapDesc.base) x := by
      intro a ha
      rcases List.mem_cons.mp ha with rfl | ha
      · omega
      · exact hx' a ha
    exact (hout x hnew).trans (newMem_outside hf hr24 hx)

end Grow

end HeapM

/-! ### `malloc` -/

/-- **What `malloc` does to a layout.**  The result is the layout afterwards, the returned address
and the calls to the frame allocator, when `frame_alloc` would answer `answer`. -/
inductive Allocates (answer : ℕ → Option ℕ) (real : ℕ) (lay : List HeapDesc) :
    List HeapDesc → ℕ → List HeapCall → Prop
  /-- The first block that fits is taken. -/
  | fit {L R : List HeapDesc} {h : HeapDesc} {pre post : List Block} {b : Block}
      (hlay : lay = L ++ h :: R) (hb : h.blocks = pre ++ b :: post) (hL : HeapM.NoFit real L)
      (hpre : ∀ c ∈ pre, c.fits real = false) (hfit : b.fits real = true) :
      Allocates answer real lay
        (L ++ { h with blocks := pre ++ takeBlocks real b ++ post } :: R) (h.payload pre) []
  /-- No block fits and there are no frames. -/
  | full (hno : HeapM.NoFit real lay) (ha : answer (framesFor real) = none) :
      Allocates answer real lay lay 0 [.alloc (framesFor real) none]
  /-- No block fits and there is a new heap. -/
  | grow {phys : ℕ} (hno : HeapM.NoFit real lay) (ha : answer (framesFor real) = some phys) :
      Allocates answer real lay (lay ++ [newHeap real phys]) ((newHeap real phys).payload [])
        [.alloc (framesFor real) (some phys)]

/-- The first element with a property, if there is one. -/
theorem first_or_none {α : Type} (p : α → Bool) (xs : List α) :
    (∀ x ∈ xs, p x = false) ∨
      ∃ L x R, xs = L ++ x :: R ∧ (∀ y ∈ L, p y = false) ∧ p x = true := by
  induction xs with
  | nil => exact Or.inl (by simp)
  | cons x xs ih =>
    cases hx : p x with
    | true => exact Or.inr ⟨[], x, xs, rfl, by simp, hx⟩
    | false =>
      rcases ih with hno | ⟨L, y, R, rfl, hL, hy⟩
      · refine Or.inl fun y hy => ?_
        rcases List.mem_cons.mp hy with rfl | hy
        · exact hx
        · exact hno y hy
      · refine Or.inr ⟨x :: L, y, R, rfl, fun z hz => ?_, hy⟩
        rcases List.mem_cons.mp hz with rfl | hz
        · exact hx
        · exact hL z hz

/-- Either no block of the layout fits, or there is a first one that does. -/
theorem noFit_or_first (real : ℕ) (lay : List HeapDesc) :
    HeapM.NoFit real lay ∨ ∃ L h R pre b post, lay = L ++ h :: R ∧ h.blocks = pre ++ b :: post ∧
      HeapM.NoFit real L ∧ (∀ c ∈ pre, c.fits real = false) ∧ b.fits real = true := by
  rcases first_or_none (fun h => h.blocks.any fun b => b.fits real) lay with
    hno | ⟨L, h, R, hlay, hL, hh⟩
  · exact Or.inl fun h hh b hb => by simpa using List.any_eq_false.mp (hno h hh) b hb
  · rcases first_or_none (fun b => b.fits real) h.blocks with hno | ⟨pre, b, post, hb, hpre, hfit⟩
    · obtain ⟨b, hb, hbf⟩ := List.any_eq_true.mp hh
      rw [hno b hb] at hbf
      cases hbf
    · refine Or.inr ⟨L, h, R, pre, b, post, hlay, hb, fun g hg c hc => ?_, hpre, hfit⟩
      simpa using List.any_eq_false.mp (hL g hg) c hc

/-- The layout after `malloc` has the properties of a layout. -/
theorem Allocates.ok {answer : ℕ → Option ℕ} {l real p : ℕ} {lay lay' : List HeapDesc}
    {cs : List HeapCall} (h : Allocates answer real lay lay' p cs) (hok : LayoutOk l lay)
    (hr : 24 ≤ real) (hr4 : real % 4 = 0)
    (hf : ∀ phys, answer (framesFor real) = some phys → FreshRange l lay phys (framesFor real)) :
    LayoutOk l lay' := by
  cases h with
  | fit hlay hb hL hpre hfit =>
    subst hlay
    simp only [Block.fits, Bool.and_eq_true] at hfit
    exact hok.replace (hok.heap.take hb hfit.1 hr hr4) rfl rfl
  | full hno ha => exact hok
  | grow hno ha => exact hok.grow hr hr4 (hf _ ha)

namespace HeapM

/-- Interrupts are as before. -/
theorem restore_interrupts (s : HeapState) (m : Memory) (w : Bool) (cs : List HeapCall) :
    conditionallyEnableInterrupts s.ie ⟨m, false, w, cs⟩ = .ok ((), ⟨m, s.ie, w, cs⟩) := by
  rw [conditionallyEnableInterrupts, modify_apply]
  cases s.ie <;> rfl

/-- The search of `malloc`, with interrupts disabled: it leaves the block it found or `NULL`. -/
theorem malloc_found {s : HeapState} {l size fuel p : ℕ} {answer : ℕ → Option ℕ} {m : Memory}
    {lay : List HeapDesc} (hat : LayoutAt s.mem l lay) (hok : LayoutOk l lay)
    (hs : size ≤ heapBlockSizeMax) (hp : p ≠ 0)
    (hsearch : searchHeaps l (realSize size) fuel fuel (firstLink l lay) { s with ie := false } =
      .ok (p, { s with ie := false, mem := m })) :
    malloc l answer size fuel s = .ok (p, { s with mem := m }) := by
  have hfirst := load_first (s := { s with ie := false }) hat hok
  simp only [malloc, bind_apply, decide_eq_true hs, assert_true, Outcome.ok_bind,
    queryAndDisableInterrupts, realSizeOf_apply hs, hfirst, hsearch, hp, if_false, pure_apply,
    restore_interrupts]

theorem malloc_notFound {s : HeapState} {l size fuel p : ℕ} {answer : ℕ → Option ℕ} {m : Memory}
    {lay : List HeapDesc} {cs : List HeapCall} (hat : LayoutAt s.mem l lay) (hok : LayoutOk l lay)
    (hs : size ≤ heapBlockSizeMax)
    (hsearch : searchHeaps l (realSize size) fuel fuel (firstLink l lay) { s with ie := false } =
      .ok (0, { s with ie := false }))
    (hheap : mallocHeap l answer size { s with ie := false } =
      .ok (p, { s with ie := false, mem := m, calls := cs })) :
    malloc l answer size fuel s = .ok (p, { s with mem := m, calls := cs }) := by
  have hfirst := load_first (s := { s with ie := false }) hat hok
  simp only [malloc, bind_apply, decide_eq_true hs, assert_true, Outcome.ok_bind,
    queryAndDisableInterrupts, realSizeOf_apply hs, hfirst, hsearch, if_true, hheap, pure_apply,
    restore_interrupts]

/-- Enough fuel for the loops over a layout. -/
def Enough (lay : List HeapDesc) (fuel : ℕ) : Prop :=
  lay.length < fuel ∧ ∀ g ∈ lay, g.blocks.length < fuel

/-- The loops need as many iterations as there are heaps, and blocks in a heap. -/
theorem returns_of_enough {α : Type} {lay : List HeapDesc} {f : ℕ → Outcome Fault α} {a : α}
    (h : ∀ fuel, Enough lay fuel → f fuel = .ok a) : Outcome.Returns f a := by
  refine ⟨lay.length + (lay.map fun g => g.blocks.length).sum + 1, fun fuel hfuel => h fuel ⟨?_, ?_⟩⟩
  · omega
  · intro g hg
    have := List.single_le_sum (l := lay.map fun g => g.blocks.length) (by simp) _
      (List.mem_map_of_mem hg)
    omega

section Malloc

variable {s : HeapState} {l size : ℕ} {answer : ℕ → Option ℕ} {lay : List HeapDesc}

/-- The search fails: a new heap is asked for. -/
theorem search_none (hat : LayoutAt s.mem l lay) (hok : LayoutOk l lay)
    (hno : NoFit (realSize size) lay) {fuel : ℕ} (hfuel : Enough lay fuel) :
    searchHeaps l (realSize size) fuel fuel (firstLink l lay) { s with ie := false } =
      .ok (0, { s with ie := false }) :=
  searchHeaps_none (s := { s with ie := false }) hat hok hno hfuel.2 hfuel.1

variable (answer) in
/-- **`malloc` when a block fits**: the first one is taken, and only its bytes change. -/
theorem malloc_fit {L R : List HeapDesc} {h : HeapDesc} {pre post : List Block} {b : Block}
    (hat : LayoutAt s.mem l (L ++ h :: R)) (hok : LayoutOk l (L ++ h :: R))
    (hs : size ≤ heapBlockSizeMax) (hb : h.blocks = pre ++ b :: post)
    (hL : NoFit (realSize size) L) (hpre : ∀ c ∈ pre, c.fits (realSize size) = false)
    (hfit : b.fits (realSize size) = true) :
    ∃ m', LayoutAt m' l (L ++ { h with blocks := pre ++ takeBlocks (realSize size) b ++ post } :: R) ∧
      (∀ fuel, Enough (L ++ h :: R) fuel →
        malloc l answer size fuel s = .ok (h.payload pre, { s with mem := m' })) ∧
      ∀ x, x < h.blockAddr pre ∨ h.blockAddr pre + b.size ≤ x → m' x = s.mem x := by
  obtain ⟨hr, -, hr4⟩ := realSize_ok hs
  have hr24 : 24 ≤ realSize size := by omega
  have hh := hat.heaps h (by simp)
  have hin := hh.blockIn hok.heap hb
  have hhead := hh.head hok.heap
  obtain ⟨h1, h2, h3, -⟩ := hok.heap.block hb
  refine ⟨takeMem s.mem h.base (realSize size) (h.blockAddr pre) b, ?_, fun fuel hfuel => ?_,
    fun x hx => takeMem_outside h1.1 hr24 hx⟩
  · refine hat.replace hok ?_ fun x hx => takeMem_outside h1.1 hr24 (by omega)
    have hold := hh.blocks
    rw [hb, show pre ++ b :: post = pre ++ [b] ++ post by simp] at hold
    refine hold.replace (fun c hc => hok.heap.blocks c (by rw [hb]; simp [hc]))
      (fun c hc => hok.heap.blocks c (by rw [hb]; simp [hc])) (by simp)
      (takeMem_at hhead hin hr24 hr4) fun x hx => takeMem_outside h1.1 hr24 ?_
    simpa [HeapDesc.blockAddr] using hx
  · refine malloc_found hat hok hs (by simp only [HeapDesc.payload]; omega) ?_
    exact searchHeaps_some (s := { s with ie := false }) hat hok hL hb hpre hfit hr24 hr4 hfuel.2
      (by have := hfuel.1; simp only [List.length_append, List.length_cons] at this; omega)

/-- **`malloc` when no block fits and there are no frames**: no byte changes. -/
theorem malloc_full (hat : LayoutAt s.mem l lay) (hok : LayoutOk l lay)
    (hs : size ≤ heapBlockSizeMax) (hno : NoFit (realSize size) lay)
    (ha : answer (framesFor (realSize size)) = none) {fuel : ℕ} (hfuel : Enough lay fuel) :
    malloc l answer size fuel s =
      .ok (0, { s with calls := .alloc (framesFor (realSize size)) none :: s.calls }) :=
  malloc_notFound hat hok hs (search_none hat hok hno hfuel)
    (mallocHeap_none (s := { s with ie := false }) hs ha)

/-- **`malloc` when no block fits and there are frames**: a new heap is appended. -/
theorem malloc_grow {phys : ℕ} (hat : LayoutAt s.mem l lay) (hok : LayoutOk l lay)
    (hs : size ≤ heapBlockSizeMax) (hno : NoFit (realSize size) lay)
    (ha : answer (framesFor (realSize size)) = some phys)
    (hf : FreshRange l lay phys (framesFor (realSize size))) :
    ∃ m', LayoutAt m' l (lay ++ [newHeap (realSize size) phys]) ∧
      (∀ fuel, Enough lay fuel → malloc l answer size fuel s =
        .ok ((newHeap (realSize size) phys).payload [], { s with
          mem := m'
          calls := .alloc (framesFor (realSize size)) (some phys) :: s.calls })) ∧
      (∀ q x, InPayload lay q x → m' x = s.mem x) ∧
      ∀ x, OutsideHeaps l (lay ++ [newHeap (realSize size) phys]) x → m' x = s.mem x := by
  obtain ⟨m', hrun, hat', hout⟩ :=
    mallocHeap_some (s := { s with ie := false }) hs hat hok ha hf
  refine ⟨m', hat', fun fuel hfuel => ?_, ?_, fun x hx => ?_⟩
  · exact malloc_notFound hat hok hs (search_none hat hok hno hfuel) hrun
  · -- a payload lies in an old heap, behind its links
    intro q x hx
    refine hout x ?_ (hx.outsideLinks hok)
    obtain ⟨h, pre, b, post, ⟨hmem, hblk⟩, -, rfl, hx, hx'⟩ := hx
    obtain ⟨-, h1, h2, -⟩ := (hok.heaps h hmem).block hblk
    have hap := hf.apart h hmem
    simp only [HeapDesc.payload, HeapDesc.start] at hx h1
    simp only [newHeap, HeapDesc.stop] at hap h2 ⊢
    omega
  · have hold : OutsideHeaps l lay x := ⟨hx.1, fun h hmem => hx.2 h (by simp [hmem])⟩
    exact hout x (hx.2 _ (by simp)) (hold.outsideLinks hok)

/-- **`malloc`.**  It returns, the memory holds the layout of `Allocates`, and no byte of an allocated
payload has changed, nor one outside the heaps. -/
theorem malloc_spec (hat : LayoutAt s.mem l lay) (hok : LayoutOk l lay) (hs : size ≤ heapBlockSizeMax)
    (hf : ∀ phys, answer (framesFor (realSize size)) = some phys →
      FreshRange l lay phys (framesFor (realSize size))) :
    ∃ lay' p cs m', Allocates answer (realSize size) lay lay' p cs ∧ LayoutAt m' l lay' ∧
      LayoutOk l lay' ∧
      (∀ fuel, Enough lay fuel →
        malloc l answer size fuel s = .ok (p, { s with mem := m', calls := cs ++ s.calls })) ∧
      (∀ q x, InPayload lay q x → m' x = s.mem x) ∧
      ∀ x, OutsideHeaps l lay' x → m' x = s.mem x := by
  obtain ⟨hr, -, hr4⟩ := realSize_ok hs
  have hr24 : 24 ≤ realSize size := by omega
  rcases noFit_or_first (realSize size) lay with
    hno | ⟨L, h, R, pre, b, post, rfl, hb, hL, hpre, hfit⟩
  · cases ha : answer (framesFor (realSize size)) with
    | none =>
      exact ⟨lay, 0, _, s.mem, .full hno ha, hat, hok,
        fun fuel hfuel => malloc_full hat hok hs hno ha hfuel, fun _ _ _ => rfl, fun _ _ => rfl⟩
    | some phys =>
      obtain ⟨m', hat', hrun, hkeep⟩ := malloc_grow hat hok hs hno ha (hf phys ha)
      have hstep : Allocates answer (realSize size) lay _ _ _ := .grow hno ha
      exact ⟨_, _, _, m', hstep, hat', hstep.ok hok hr24 hr4 hf, hrun, hkeep⟩
  · have hstep : Allocates answer (realSize size) (L ++ h :: R) _ _ _ := .fit rfl hb hL hpre hfit
    obtain ⟨m', hat', hrun, hout⟩ := malloc_fit answer hat hok hs hb hL hpre hfit
    refine ⟨_, _, _, m', hstep, hat', hstep.ok hok hr24 hr4 hf, hrun, fun q x hx => hout x ?_,
      fun x hx => hout x ?_⟩
    -- the bytes that changed are those of a free block
    · by_contra hcon
      obtain ⟨o1, c, o2, hold, hc, -⟩ := hx.mem_stretch hok
        (show h.blocks = pre ++ [b] ++ post by simpa using hb) (by omega)
        (by simp only [total_cons, total_nil]; omega)
      simp only [Block.fits, Bool.and_eq_true] at hfit
      have hcb : c ∈ [b] := by rw [hold]; simp
      rw [List.mem_singleton.mp hcb, hfit.1] at hc
      cases hc
    · have hx' := hx.2 _ (List.mem_append_right L (List.mem_cons_self ..))
      obtain ⟨-, h1, h2, -⟩ := hok.heap.block hb
      simp only [HeapDesc.stop, HeapDesc.start] at hx' h1 h2
      omega

end Malloc

end HeapM

end Kalisto
