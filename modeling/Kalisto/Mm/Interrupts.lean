import Kalisto.Lib.Flag
import Kalisto.Mm.Malloc
import Kalisto.Mm.AddressSpaceSteps

/-!
# The interrupt enable bit in the memory management

`malloc`, `free` and the functions of `mm/vmm.c` and `mm/tlb.c` work with interrupts disabled.  From
every state, a broken heap included, and for every answer of the frame allocator, the ones that return
leave the bit as it was.

* `HeapM.keeps_malloc`, `HeapM.keeps_free` — statement by statement, down to the loads and stores;
* `Cpu.tlbFlush_ie`, `Machine.vmaMap_ie`, `Machine.vmaUnmap_ie`, `Machine.vmmCreate_ie`.
-/

namespace Kalisto

/-! ### `mm/malloc.c` -/

namespace HeapM

theorem clears_queryAndDisableInterrupts : Clears HeapState.ie queryAndDisableInterrupts := by
  intro s b s' h
  cases h
  exact ⟨rfl, rfl⟩

theorem ends_conditionallyEnableInterrupts (b : Bool) :
    Ends HeapState.ie b (conditionallyEnableInterrupts b) := by
  intro s a s' hs h
  cases h
  cases b with
  | false => exact hs
  | true => rfl

@[simp] theorem keeps_fail {α : Type} (f : Fault) : Keeps HeapState.ie (fail f : HeapM α) := by
  intro s a s' h
  cases h

@[simp] theorem keeps_timeout {α : Type} : Keeps HeapState.ie (timeout : HeapM α) := by
  intro s a s' h
  cases h

@[simp] theorem keeps_assert (b : Bool) : Keeps HeapState.ie (assert b) :=
  Keeps.ite (keeps_pure ()) (keeps_fail _)

@[simp] theorem keeps_add (a b : ℕ) : Keeps HeapState.ie (add a b) := by
  intro s r s' h
  cases h
  rfl

@[simp] theorem keeps_sub (a b : ℕ) : Keeps HeapState.ie (sub a b) := by
  intro s r s' h
  cases h
  rfl

@[simp] theorem keeps_alignUp (size align : ℕ) : Keeps HeapState.ie (alignUp size align) :=
  Keeps.bind (keeps_add _ _) fun _ => keeps_pure _

@[simp] theorem keeps_load (p off : ℕ) : Keeps HeapState.ie (load p off) := by
  refine Keeps.bind (keeps_add p off) fun a => Keeps.ite ?_ (keeps_fail _)
  exact Keeps.bind keeps_get fun _ => keeps_pure _

@[simp] theorem keeps_store (p off v : ℕ) : Keeps HeapState.ie (store p off v) :=
  Keeps.bind (keeps_add p off) fun _ => Keeps.ite (keeps_modify fun _ => rfl) (keeps_fail _)

@[simp] theorem keeps_loadBool (p off : ℕ) : Keeps HeapState.ie (loadBool p off) :=
  Keeps.bind (keeps_add p off) fun _ => Keeps.bind keeps_get fun _ => keeps_pure _

@[simp] theorem keeps_storeBool (p off : ℕ) (b : Bool) : Keeps HeapState.ie (storeBool p off b) :=
  Keeps.bind (keeps_add p off) fun _ => keeps_modify fun _ => rfl

@[simp] theorem keeps_logCall (c : HeapCall) : Keeps HeapState.ie (logCall c) :=
  keeps_modify fun _ => rfl

/- A block of single statements is taken apart with `Keeps.bind`, each statement by its simp lemma.
Definitions are not unfolded on the way, so the blocks of callees stay closed. -/

@[simp] theorem keeps_linkInit (link : ℕ) : Keeps HeapState.ie (linkInit link) := by
  unfold linkInit
  repeat with_reducible refine Keeps.bind (by simp) fun _ => ?_
  simp

@[simp] theorem keeps_listAppend (list link : ℕ) : Keeps HeapState.ie (listAppend list link) := by
  unfold listAppend
  repeat with_reducible refine Keeps.bind (by simp) fun _ => ?_
  simp

@[simp] theorem keeps_linkConnected (link : ℕ) : Keeps HeapState.ie (linkConnected link) := by
  unfold linkConnected
  repeat with_reducible refine Keeps.bind (by simp) fun _ => ?_
  refine Keeps.ite ?_ (keeps_pure _)
  exact Keeps.bind (keeps_load _ _) fun _ => keeps_pure _

@[simp] theorem keeps_listRemove (link : ℕ) : Keeps HeapState.ie (listRemove link) := by
  unfold listRemove
  repeat with_reducible refine Keeps.bind (by simp) fun _ => ?_
  refine Keeps.ite ?_ (by simp)
  repeat with_reducible refine Keeps.bind (by simp) fun _ => ?_
  simp

@[simp] theorem keeps_blockCheck (addr : ℕ) : Keeps HeapState.ie (blockCheck addr) := by
  unfold blockCheck
  repeat with_reducible refine Keeps.bind (by simp) fun _ => ?_
  simp

@[simp] theorem keeps_blockInit (addr size : ℕ) (free : Bool) (heap : ℕ) :
    Keeps HeapState.ie (blockInit addr size free heap) := by
  unfold blockInit
  repeat with_reducible refine Keeps.bind (by simp) fun _ => ?_
  simp

@[simp] theorem keeps_realSizeOf (size : ℕ) : Keeps HeapState.ie (realSizeOf size) := by
  unfold realSizeOf
  repeat with_reducible refine Keeps.bind (by simp) fun _ => ?_
  simp

@[simp] theorem keeps_splitLimitOf (realSize : ℕ) : Keeps HeapState.ie (splitLimitOf realSize) := by
  unfold splitLimitOf
  repeat with_reducible refine Keeps.bind (by simp) fun _ => ?_
  simp

@[simp] theorem keeps_heapSizeOf (realSize : ℕ) : Keeps HeapState.ie (heapSizeOf realSize) := by
  unfold heapSizeOf
  repeat with_reducible refine Keeps.bind (by simp) fun _ => ?_
  simp

@[simp] theorem keeps_heapBlocks (heap realSize splitLimit payload : ℕ) :
    Keeps HeapState.ie (heapBlocks heap realSize splitLimit payload) := by
  unfold heapBlocks
  refine Keeps.bind (keeps_load _ _) fun cur => Keeps.ite ?_ (by simp)
  repeat with_reducible refine Keeps.bind (by simp) fun _ => ?_
  simp

@[simp] theorem keeps_mallocHeap (heapList : ℕ) (answer : ℕ → Option ℕ) (size : ℕ) :
    Keeps HeapState.ie (mallocHeap heapList answer size) := by
  unfold mallocHeap
  repeat with_reducible refine Keeps.bind (by simp) fun _ => ?_
  split
  · simp
  · repeat with_reducible refine Keeps.bind (by simp) fun _ => ?_
    simp

@[simp] theorem keeps_takeBlock (heap realSize pos : ℕ) :
    Keeps HeapState.ie (takeBlock heap realSize pos) := by
  unfold takeBlock
  repeat with_reducible refine Keeps.bind (by simp) fun _ => ?_
  refine Keeps.ite ?_ (Keeps.bind (keeps_storeBool _ _ _) fun _ => keeps_add _ _)
  repeat with_reducible refine Keeps.bind (by simp) fun _ => ?_
  simp

@[simp] theorem keeps_suitable (realSize pos : ℕ) : Keeps HeapState.ie (suitable realSize pos) := by
  unfold suitable
  refine Keeps.bind (keeps_loadBool _ _) fun _ => Keeps.ite ?_ (keeps_pure _)
  exact Keeps.bind (keeps_load _ _) fun _ => keeps_pure _

@[simp] theorem keeps_searchBlocks (heap realSize fuel pos result : ℕ) :
    Keeps HeapState.ie (searchBlocks heap realSize fuel pos result) := by
  induction fuel generalizing pos result with
  | zero => exact keeps_timeout
  | succ fuel ih =>
    unfold searchBlocks
    refine Keeps.ite (Keeps.bind (keeps_load _ _) fun _ => Keeps.ite ?_ (keeps_pure _)) (keeps_pure _)
    refine Keeps.bind (keeps_blockCheck _) fun _ => Keeps.bind (keeps_suitable _ _) fun _ => ?_
    -- both branches go on with the next block
    have hnext : ∀ r, Keeps HeapState.ie (load pos 0 >>= fun n => add pos n >>= fun p =>
        searchBlocks heap realSize fuel p r) := fun r =>
      Keeps.bind (keeps_load _ _) fun _ => Keeps.bind (keeps_add _ _) fun _ => ih _ _
    exact Keeps.ite (Keeps.bind (keeps_takeBlock _ _ _) hnext) (Keeps.bind (keeps_pure _) hnext)

@[simp] theorem keeps_searchHeaps (heapList realSize fuel n link : ℕ) :
    Keeps HeapState.ie (searchHeaps heapList realSize fuel n link) := by
  induction n generalizing link with
  | zero => exact keeps_timeout
  | succ n ih =>
    unfold searchHeaps
    refine Keeps.ite (keeps_pure _) (Keeps.bind (keeps_load _ _) fun _ => ?_)
    refine Keeps.bind (keeps_searchBlocks _ _ _ _ _) fun _ => Keeps.ite (keeps_pure _) ?_
    exact Keeps.bind (keeps_load _ _) fun _ => ih _

/-- **`malloc`**: the bit is as it was, with a block and without one. -/
theorem keeps_malloc (heapList : ℕ) (answer : ℕ → Option ℕ) (size fuel : ℕ) :
    Keeps HeapState.ie (malloc heapList answer size fuel) := by
  unfold malloc
  refine Keeps.bind (keeps_assert _) fun _ => ?_
  refine Keeps.of_clears clears_queryAndDisableInterrupts fun state => ?_
  refine Ends.bind (keeps_realSizeOf _) fun _ => Ends.bind (keeps_load _ _) fun _ => ?_
  refine Ends.bind (keeps_searchHeaps _ _ _ _ _) fun _ => ?_
  have hend : ∀ r : ℕ, Ends HeapState.ie state
      (conditionallyEnableInterrupts state >>= fun _ => pure r) := fun r =>
    Ends.then (ends_conditionallyEnableInterrupts state) fun _ => keeps_pure r
  exact Ends.ite (Ends.bind (keeps_mallocHeap _ _ _) hend) (Ends.bind (keeps_pure _) hend)

@[simp] theorem keeps_mergeNext (heap head : ℕ) : Keeps HeapState.ie (mergeNext heap head) := by
  unfold mergeNext
  repeat with_reducible refine Keeps.bind (by simp) fun _ => ?_
  refine Keeps.ite ?_ (keeps_pure _)
  repeat with_reducible refine Keeps.bind (by simp) fun _ => ?_
  refine Keeps.ite ?_ (keeps_pure _)
  repeat with_reducible refine Keeps.bind (by simp) fun _ => ?_
  simp

@[simp] theorem keeps_mergePrev (heap head : ℕ) : Keeps HeapState.ie (mergePrev heap head) := by
  unfold mergePrev
  repeat with_reducible refine Keeps.bind (by simp) fun _ => ?_
  refine Keeps.ite ?_ (keeps_pure _)
  repeat with_reducible refine Keeps.bind (by simp) fun _ => ?_
  refine Keeps.ite ?_ (keeps_pure _)
  repeat with_reducible refine Keeps.bind (by simp) fun _ => ?_
  simp

@[simp] theorem keeps_releaseHeap (answer : ℕ → ℕ → Errno) (heap : ℕ) :
    Keeps HeapState.ie (releaseHeap answer heap) := by
  unfold releaseHeap
  repeat with_reducible refine Keeps.bind (by simp) fun _ => ?_
  refine Keeps.ite ?_ (keeps_pure _)
  repeat with_reducible refine Keeps.bind (by simp) fun _ => ?_
  refine Keeps.ite ?_ (keeps_pure _)
  repeat with_reducible refine Keeps.bind (by simp) fun _ => ?_
  exact Keeps.ite (keeps_fail _) (keeps_pure _)

/-- **`free`.** -/
theorem keeps_free (answer : ℕ → ℕ → Errno) (addr : ℕ) :
    Keeps HeapState.ie (free answer addr) := by
  unfold free
  refine Keeps.of_clears clears_queryAndDisableInterrupts fun state => ?_
  repeat with_reducible refine Ends.bind (by simp) fun _ => ?_
  exact ends_conditionallyEnableInterrupts state

end HeapM

/-! ### `mm/tlb.c` and `mm/vmm.c` -/

namespace Cpu

theorem conditionallyEnableInterrupts_ie {c : Cpu} (hc : c.ie = false) (state : Bool) :
    (c.conditionallyEnableInterrupts state).ie = state := by
  cases state with
  | false => exact hc
  | true => rfl

@[simp] theorem tlbWriteIndexed_ie (c : Cpu) : c.tlbWriteIndexed.ie = c.ie := by
  unfold tlbWriteIndexed
  split <;> rfl

/-- **`tlb_flush`.** -/
@[simp] theorem tlbFlush_ie (c : Cpu) (addr : Word) : (c.tlbFlush addr).ie = c.ie := by
  unfold tlbFlush
  refine conditionallyEnableInterrupts_ie ?_ _
  -- the bit stays cleared up to the end
  change Cpu.ie (if _ then _ else _) = false
  split
  · rw [tlbWriteIndexed_ie]
    rfl
  · rfl

end Cpu

namespace Machine

@[simp] theorem flushPages_ie (m : Machine) (vpn count : Word) :
    (m.flushPages vpn count).cpu.ie = m.cpu.ie := by
  unfold flushPages
  generalize List.range count.toNat = pages
  change (pages.foldl _ m.cpu).ie = m.cpu.ie
  generalize m.cpu = c
  induction pages generalizing c with
  | nil => rfl
  | cons pos pages ih => exact (ih _).trans (Cpu.tlbFlush_ie _ _)

/-- **`vma_map`**: the error returns and the other ones. -/
theorem vmaMap_ie {m m' : Machine} {va size flags va' : Word} {answer : Except Errno Word}
    {rc : Errno} (h : m.vmaMap va size flags answer = .ok (m', rc, va')) : m'.cpu.ie = m.cpu.ie := by
  rcases vmaMap_cases h with ⟨rfl, -⟩ | ⟨v, i, phys, -, -, -, -, rfl⟩
  · rfl
  · rfl

/-- **`vma_unmap`.** -/
theorem vmaUnmap_ie {m m' : Machine} {va : Word} {answer rc : Errno}
    (h : m.vmaUnmap va answer = .ok (m', rc)) : m'.cpu.ie = m.cpu.ie := by
  rcases vmaUnmap_cases h with ⟨rfl, -⟩ | ⟨v, i, -, -, -, -, ⟨-, rfl⟩ | ⟨-, rfl⟩⟩
  · rfl
  · rfl
  · refine Cpu.conditionallyEnableInterrupts_ie ?_ _
    rw [flushPages_ie]
    rfl

/-- **`vmm_create`.** -/
theorem vmmCreate_ie (m : Machine) (mem : Bool) : (m.vmmCreate mem).1.cpu.ie = m.cpu.ie := by
  rcases vmmCreate_cases (Prod.mk.eta (p := m.vmmCreate mem)).symm with ⟨h, -⟩ | ⟨h, -⟩
  · rw [h]
  · rw [h]
    rfl

end Machine

end Kalisto
