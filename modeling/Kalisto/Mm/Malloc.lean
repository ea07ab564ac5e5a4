import Kalisto.Include
import Kalisto.Lib.Outcome
import Kalisto.Lib.ByteMemory

/-!
# The kernel heap of `mm/malloc.c`

The allocator on a memory of bytes: headers, footers and heap structures are words at fixed offsets
of 32-bit addresses, as the C structures lay them out, and every sum and difference of addresses and
sizes is taken modulo `2^32`.  A function is a computation `HeapM` on `HeapState`; a failed `assert`,
a `panic` and an unaligned word access are faults.

The state carries two records that the C code does not have: `wrapped` is set by the first sum or
difference that leaves the 32-bit range, and `calls` is the conversation with the frame allocator.
`frame_alloc` and `frame_free` exist only as object code, so a call takes their answers as an argument.

`list_append` and `list_remove` of `adt/list.h` are given here on the same memory.  The loops of
`malloc` run for at most `fuel` iterations each.
-/

namespace Kalisto

/-! ### Constants and structure layouts -/

/-- `HEAP_BLOCK_HEAD_MAGIC`. -/
@[irreducible] def headMagic : ℕ := 0xBEEF0001

/-- `HEAP_BLOCK_FOOT_MAGIC`. -/
@[irreducible] def footMagic : ℕ := 0xBEEF0002

/-- `HEAP_BLOCK_SIZE_MAX`. -/
def heapBlockSizeMax : ℕ := 0x10000000

/-- `ALIGNMENT`. -/
def alignment : ℕ := 4

/-- `HEAP_FRAMES`. -/
def heapFrames : ℕ := 16

/-- `FRAME_SIZE`. -/
def frameSize : ℕ := 4096

/-- `sizeof (heap_block_head_t)`: `size` at 0, `free` at 4, `heap` at 8, `magic` at 12. -/
def sizeofHead : ℕ := 16

/-- `sizeof (heap_block_foot_t)`: `magic` at 0, `size` at 4. -/
def sizeofFoot : ℕ := 8

/-- `sizeof (heap_t)`: `link.prev` at 0, `link.next` at 4, `heap_start` at 8, `heap_end` at 12,
`frames` at 16. -/
def sizeofHeap : ℕ := 20

/-- `ADDR_OFFSET_MASK`. -/
def addrOffsetMask : ℕ := 0x1FFFFFFF

/-- `ADDR_IN_KSEG0 (x)`. -/
def addrInKseg0 (x : ℕ) : ℕ := (x &&& addrOffsetMask) ||| 0x80000000

/-- `ADDR_FROM_KSEG0 (x)`. -/
def addrFromKseg0 (x : ℕ) : ℕ := x &&& addrOffsetMask

/-! ### State and primitive operations -/

/-- A call to the frame allocator. -/
inductive HeapCall where
  /-- `frame_alloc` of `cnt` frames, with the address it answered. -/
  | alloc (cnt : ℕ) (answer : Option ℕ)
  /-- `frame_free`. -/
  | free (phys cnt : ℕ)
  deriving DecidableEq

/-- The memory, the interrupt enable bit and the two records. -/
structure HeapState where
  mem : Memory
  ie : Bool
  wrapped : Bool
  calls : List HeapCall

/-- Heap code. -/
abbrev HeapM := StateT HeapState (Outcome Fault)

namespace HeapM

/-- Stop with a fault. -/
def fail {α : Type} (f : Fault) : HeapM α := fun _ => .fault f

/-- The loop bound was too small. -/
def timeout {α : Type} : HeapM α := fun _ => .timeout

/-- `assert (expr)`. -/
def assert (b : Bool) : HeapM Unit := if b then pure () else fail .assertion

/-- `a + b` in 32 bits. -/
def add (a b : ℕ) : HeapM ℕ := fun s =>
  .ok ((a + b) % 2 ^ 32, { s with wrapped := s.wrapped || decide (2 ^ 32 ≤ a + b) })

/-- `a - b` in 32 bits. -/
def sub (a b : ℕ) : HeapM ℕ := fun s =>
  .ok ((a + 2 ^ 32 - b) % 2 ^ 32, { s with wrapped := s.wrapped || decide (a < b) })

/-- `ALIGN_UP (size, align)`. -/
def alignUp (size align : ℕ) : HeapM ℕ := do
  let s ← add size (align - 1)
  return s &&& (2 ^ 32 - align)

/-- Read the word field at offset `off` of the structure at `p`. -/
def load (p off : ℕ) : HeapM ℕ := do
  let a ← add p off
  if a % 4 = 0 then return (← get).mem.word a else fail .unaligned

/-- Write the word field at offset `off` of the structure at `p`. -/
def store (p off v : ℕ) : HeapM Unit := do
  let a ← add p off
  if a % 4 = 0 then modify fun s => { s with mem := s.mem.setWord a v } else fail .unaligned

/-- Read the `bool` field at offset `off` of the structure at `p`. -/
def loadBool (p off : ℕ) : HeapM Bool := do
  let a ← add p off
  return (← get).mem a != 0

/-- Write the `bool` field at offset `off` of the structure at `p`. -/
def storeBool (p off : ℕ) (b : Bool) : HeapM Unit := do
  let a ← add p off
  modify fun s => { s with mem := s.mem.setByte a (if b then 1 else 0) }

/-- `query_and_disable_interrupts ()`. -/
def queryAndDisableInterrupts : HeapM Bool := fun s => .ok (s.ie, { s with ie := false })

/-- `conditionally_enable_interrupts (state)`. -/
def conditionallyEnableInterrupts (state : Bool) : HeapM Unit :=
  modify fun s => if state then { s with ie := true } else s

/-- A call to the frame allocator is recorded. -/
def logCall (c : HeapCall) : HeapM Unit := modify fun s => { s with calls := c :: s.calls }

/-! ### `adt/list.h` -/

/-- `link_init`. -/
def linkInit (link : ℕ) : HeapM Unit := do
  assert (link != 0)
  store link 0 0
  store link 4 0

/-- `list_init`. -/
def listInit (list : ℕ) : HeapM Unit := do
  assert (list != 0)
  store list 0 list
  store list 4 list

/-- `list_append`. -/
def listAppend (list link : ℕ) : HeapM Unit := do
  assert (list != 0)
  assert (link != 0)
  store link 4 list
  store link 0 (← load list 0)
  store (← load list 0) 4 link
  store list 0 link

/-- `link_connected`. -/
def linkConnected (link : ℕ) : HeapM Bool := do
  assert (link != 0)
  if (← load link 0) ≠ 0 then return (← load link 4) != 0 else return false

/-- `list_remove`. -/
def listRemove (link : ℕ) : HeapM Unit := do
  assert (link != 0)
  if ← linkConnected link then
    store (← load link 4) 0 (← load link 0)
    store (← load link 0) 4 (← load link 4)
  linkInit link

/-! ### Blocks -/

/-- `block_check`. -/
def blockCheck (addr : ℕ) : HeapM Unit := do
  assert (decide ((← load (← load addr 8) 8) ≤ addr))
  assert (decide (addr < (← load (← load addr 8) 12)))
  assert ((← load addr 12) == headMagic)
  let foot ← sub (← add addr (← load addr 0)) sizeofFoot
  assert ((← load foot 0) == footMagic)
  assert ((← load addr 0) == (← load foot 4))

/-- `block_init`. -/
def blockInit (addr size : ℕ) (free : Bool) (heap : ℕ) : HeapM Unit := do
  let foot ← sub (← add addr size) sizeofFoot
  store addr 0 size
  storeBool addr 4 free
  store addr 8 heap
  store addr 12 headMagic
  store foot 0 footMagic
  store foot 4 size

/-- `heap_init`. -/
def heapInit (heapList : ℕ) : HeapM Unit := listInit heapList

/-! ### `malloc` -/

/-- The size of a block for `size` bytes, `real_size`. -/
def realSizeOf (size : ℕ) : HeapM ℕ := do
  add (← add (← alignUp size alignment) sizeofHead) sizeofFoot

/-- The size from which a block is split, `split_limit`. -/
def splitLimitOf (realSize : ℕ) : HeapM ℕ := do add (← add realSize sizeofHead) sizeofFoot

/-- The layout of a new heap in `malloc_heap`: its size and its number of frames. -/
def heapSizeOf (realSize : ℕ) : HeapM (ℕ × ℕ) := do
  let heapSize ← alignUp (← add realSize sizeofHeap) frameSize
  let frames := heapSize >>> frameWidth
  return if frames < heapFrames then (heapFrames <<< frameWidth, heapFrames) else (heapSize, frames)

/-- The blocks of a new heap in `malloc_heap`. -/
def heapBlocks (heap realSize splitLimit payload : ℕ) : HeapM Unit := do
  let cur ← load heap 8
  if splitLimit < payload then
    let next ← add cur realSize
    blockInit next (← sub payload realSize) true heap
    blockInit cur realSize false heap
  else blockInit cur payload false heap

/-- `malloc_heap`, when `frame_alloc` of `cnt` frames would answer `answer cnt`. -/
def mallocHeap (heapList : ℕ) (answer : ℕ → Option ℕ) (size : ℕ) : HeapM ℕ := do
  let realSize ← realSizeOf size
  let splitLimit ← splitLimitOf realSize
  let (heapSize, frames) ← heapSizeOf realSize
  logCall (.alloc frames (answer frames))
  match answer frames with
  | none => return 0
  | some phys =>
    let heap := addrInKseg0 phys
    linkInit heap
    store heap 8 (← add heap sizeofHeap)
    store heap 12 (← add heap heapSize)
    store heap 16 frames
    heapBlocks heap realSize splitLimit (← sub heapSize sizeofHeap)
    listAppend heapList heap
    add (← load heap 8) sizeofHead

/-- What `malloc` does with a suitable block: split it, or use it as it is. -/
def takeBlock (heap realSize pos : ℕ) : HeapM ℕ := do
  let splitLimit ← splitLimitOf realSize
  if splitLimit < (← load pos 0) then
    let next ← add pos realSize
    blockInit next (← sub (← load pos 0) realSize) true heap
    blockInit pos realSize false heap
  else storeBool pos 4 false
  add pos sizeofHead

/-- The test of `malloc` for a suitable block. -/
def suitable (realSize pos : ℕ) : HeapM Bool := do
  if ← loadBool pos 4 then return decide (realSize ≤ (← load pos 0)) else return false

/-- The inner loop of `malloc`, over the blocks of a heap. -/
def searchBlocks (heap realSize : ℕ) : ℕ → ℕ → ℕ → HeapM ℕ
  | 0, _, _ => timeout
  | fuel + 1, pos, result => do
    if result = 0 then
      if pos < (← load heap 12) then
        blockCheck pos
        let result ← if ← suitable realSize pos then takeBlock heap realSize pos else pure result
        searchBlocks heap realSize fuel (← add pos (← load pos 0)) result
      else return result
    else return result

/-- The outer loop of `malloc`, over the heaps. -/
def searchHeaps (heapList realSize fuel : ℕ) : ℕ → ℕ → HeapM ℕ
  | 0, _ => timeout
  | n + 1, link => do
    if link = heapList then return 0
    else
      let result ← searchBlocks link realSize fuel (← load link 8) 0
      if result ≠ 0 then return result
      else searchHeaps heapList realSize fuel n (← load link 4)

/-- `malloc`. -/
def malloc (heapList : ℕ) (answer : ℕ → Option ℕ) (size fuel : ℕ) : HeapM ℕ := do
  assert (decide (size ≤ heapBlockSizeMax))
  let state ← queryAndDisableInterrupts
  let realSize ← realSizeOf size
  let result ← searchHeaps heapList realSize fuel fuel (← load heapList 4)
  let result ← if result = 0 then mallocHeap heapList answer size else pure result
  conditionallyEnableInterrupts state
  return result

/-! ### `free` -/

/-- The part of `free` that looks at the next block. -/
def mergeNext (heap head : ℕ) : HeapM Unit := do
  let nextHead ← add head (← load head 0)
  if nextHead < (← load heap 12) then
    blockCheck nextHead
    if ← loadBool nextHead 4 then
      blockInit head (← add (← load head 0) (← load nextHead 0)) true heap

/-- The part of `free` that looks at the previous block. -/
def mergePrev (heap head : ℕ) : HeapM Unit := do
  if (← load heap 8) < head then
    let prevFoot ← sub head sizeofFoot
    let prevHead ← sub head (← load prevFoot 4)
    blockCheck prevHead
    if ← loadBool prevHead 4 then
      blockInit prevHead (← add (← load prevHead 0) (← load head 0)) true heap

/-- The part of `free` that releases a heap that is one free block, when `frame_free` of a range
would answer `answer phys cnt`. -/
def releaseHeap (answer : ℕ → ℕ → Errno) (heap : ℕ) : HeapM Unit := do
  let head ← load heap 8
  if ← loadBool head 4 then
    if (← add (← load heap 8) (← load head 0)) = (← load heap 12) then
      listRemove heap
      let phys := addrFromKseg0 heap
      let frames ← load heap 16
      logCall (.free phys frames)
      if answer phys frames ≠ .eok then fail .panic

/-- `free`. -/
def free (answer : ℕ → ℕ → Errno) (addr : ℕ) : HeapM Unit := do
  let state ← queryAndDisableInterrupts
  let head ← sub addr sizeofHead
  blockCheck head
  assert (!(← loadBool head 4))
  let heap ← load head 8
  storeBool head 4 true
  mergeNext heap head
  mergePrev heap head
  releaseHeap answer heap
  conditionallyEnableInterrupts state

end HeapM

end Kalisto
