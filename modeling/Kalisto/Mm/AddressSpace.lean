import Kalisto.Mm.Tlb
import Kalisto.Mm.Vmm

/-!
# The address space machine

The functions of `mm/vmm.c` and `mm/tlb.c` that change something, over one state: the virtual
memory maps, the threads that use them, the processor's translation registers and TLB, and the
frame allocator's side of the conversation.

* `vmmCreate`, `vmaMap`, `vmaUnmap` follow `mm/vmm.c` path by path, error returns included;
* `tlbInvalid` and `wrappedTlbRefill` are the two exception handlers, `access` is the hardware that
  raises them;
* `threadCreate` and `threadSwitch` are the parts of `proc/thread.c` that decide which map and
  which ASID are current, `cpuSwitchContext` is the EntryHi update of `head.S`.

`frame_alloc` and `frame_free` exist only as object code.  Each call takes the answer as an argument
and is recorded in `frameCalls`; `FrameOk` is what the callers rely on: an answer is frame aligned,
ends below `2^32`, and overlaps no range that is allocated and not freed, whoever asked for it.

`Step` puts all of it together, in any order, with the other users of the frame allocator running in
between, and `Reachable` is every state reached that way from `tlb_init`.
-/

namespace Kalisto

/-- A range of physical frames: base address and number of frames. -/
structure FrameRange where
  phys : Word
  cnt : Word
  deriving DecidableEq

/-- The frame numbers of a range. -/
def FrameRange.frames (r : FrameRange) : Set ℕ :=
  { f | r.phys.toNat / 4096 ≤ f ∧ f < r.phys.toNat / 4096 + r.cnt.toNat }

/-- The frames of a slot, as `vma_unmap` passes them to `frame_free`. -/
def Vma.range (a : Vma) : FrameRange := ⟨a.pfnBase <<< frameWidth, a.count⟩

/-- A call to the frame allocator made by `vma_map` (successful ones) or by `vma_unmap`. -/
inductive FrameCall where
  | alloc (r : FrameRange)
  | free (r : FrameRange) (rc : Errno)

/-- The ranges allocated and not freed, after the calls of a log (newest call first). -/
def outstanding : List FrameCall → Multiset FrameRange
  | [] => 0
  | .alloc r :: log => r ::ₘ outstanding log
  | .free r rc :: log => if rc = .eok then (outstanding log).erase r else outstanding log

/-- The kernel as far as address translation is concerned. -/
structure Machine where
  cpu : Cpu
  /-- The `struct vmm` objects; the ones below `vmmCount` have been created. -/
  vmm : ℕ → Vmm
  vmmCount : ℕ
  /-- `last_asid`. -/
  lastAsid : BitVec 8
  /-- The `vmm` field of each thread; the ones below `threadCount` have been created. -/
  threadVmm : ℕ → ℕ
  threadCount : ℕ
  /-- `current_thread[cpuid ()]`. -/
  current : Option ℕ
  /-- The frame allocator calls of this file, newest first. -/
  frameCalls : List FrameCall
  /-- The ranges other parts of the kernel hold. -/
  otherRanges : Multiset FrameRange

namespace Machine

/-! ### Access to one slot -/

/-- The slot `vmm->vma[i]` of map `v`. -/
def slot (m : Machine) (p : ℕ × Fin vmas) : Vma := (m.vmm p.1).vma p.2

/-- Store into the slot `vmm->vma[i]` of map `v`. -/
def setSlot (m : Machine) (p : ℕ × Fin vmas) (a : Vma) : Machine :=
  let v : Vmm := { m.vmm p.1 with vma := Function.update (m.vmm p.1).vma p.2 a }
  { m with vmm := Function.update m.vmm p.1 v }

/-- The map of the current thread, `thread_get_current ()->vmm`. -/
def currentVmm (m : Machine) : Option ℕ := m.current.map m.threadVmm

/-- Interrupts off, the old state. -/
def disable (m : Machine) : Bool × Machine :=
  (m.cpu.queryAndDisableInterrupts.1, { m with cpu := m.cpu.queryAndDisableInterrupts.2 })

/-- Interrupts back to `state`. -/
def enable (m : Machine) (state : Bool) : Machine :=
  { m with cpu := m.cpu.conditionallyEnableInterrupts state }

/-! ### `mm/vmm.c` -/

/-- `vmm_create`, when `malloc` answers `mem`: the number of the new map and `EOK`, or `ENOMEM`. -/
def vmmCreate (m : Machine) (mem : Bool) : Machine × Except Errno ℕ :=
  if mem then
    let (state, m) := m.disable
    let v := m.vmmCount
    let m := { m with
      vmm := Function.update m.vmm v ⟨m.lastAsid, fun _ => Vma.zero⟩
      vmmCount := v + 1
      lastAsid := m.lastAsid + 1 }
    (m.enable state, .ok v)
  else (m, .error .enomem)

/-- A call to the frame allocator is recorded. -/
def logCall (m : Machine) (c : FrameCall) : Machine := { m with frameCalls := c :: m.frameCalls }

/-- The last loop of `vma_map`: take the first unused slot of map `v`, if the allocator answers. -/
def vmaMapSlot (m : Machine) (v : ℕ) (va count : Word) (answer : Except Errno Word) :
    Machine × Errno :=
  match (m.vmm v).findSlot fun a => !a.valid with
  | none => (m, .enomem)
  | some i =>
    match answer with
    | .error rc => (m, rc)
    | .ok phys =>
      ((m.logCall (.alloc ⟨phys, count⟩)).setSlot (v, i)
        ⟨va >>> pageWidth, phys >>> frameWidth, count, true⟩, .eok)

/-- The second half of `vma_map`, once the address is known. -/
def vmaMapAt (m : Machine) (v : ℕ) (va count : Word) (answer : Except Errno Word) :
    Machine × Errno × Word :=
  if alignDown va pageSize ≠ va then (m, .einval, va)
  else
    let (m, rc) := m.vmaMapSlot v va count answer
    (m, rc, va)

/-- `vma_map (&va, size, flags)`, when `frame_alloc` would answer `answer`: the new state, the
return code and the value left in `va`. -/
def vmaMap (m : Machine) (va size flags : Word) (answer : Except Errno Word) :
    Except Fault (Machine × Errno × Word) :=
  let flagAuto := flags &&& vfVaAuto == vfVaAuto
  let flagUser := flags &&& vfVaUser == vfVaUser
  let flagKseg0 := flags &&& vfAtKseg0 == vfAtKseg0 || flags &&& vfAtKseg1 == vfAtKseg1
  if (flagAuto ^^ flagUser) = false then .error .assertion
  else if alignDown size pageSize ≠ size then .ok (m, .einval, va)
  else if flagKseg0 then .error .panic
  else
    let count := size >>> pageWidth
    let (state, m) := m.disable
    match m.currentVmm with
    | none => .error .nullDeref
    | some v =>
      if flagAuto then
        let vpn := autoVpn (m.vmm v)
        if vpn = 0 then .ok (m.enable state, .enomem, va)
        else
          let (m, rc, va) := m.vmaMapAt v (vpn <<< pageWidth) count answer
          .ok (m.enable state, rc, va)
      else
        let (m, rc, va) := m.vmaMapAt v va count answer
        .ok (m.enable state, rc, va)

/-- The flush loop of `vma_unmap`. -/
def flushPages (m : Machine) (vpn count : Word) : Machine :=
  let flush (c : Cpu) (pos : ℕ) := c.tlbFlush ((vpn + BitVec.ofNat 32 pos) <<< frameWidth)
  { m with cpu := (List.range count.toNat).foldl flush m.cpu }

/-- The loop of `vma_unmap`, on map `v`, when `frame_free` answers `rc`. -/
def vmaUnmapSlot (m : Machine) (v : ℕ) (vpn : Word) (rc : Errno) : Machine × Errno :=
  match (m.vmm v).findSlot fun a => a.valid && a.vpnBase == vpn with
  | none => (m, .einval)
  | some i =>
    let a := m.slot (v, i)
    let m := m.logCall (.free a.range rc)
    if rc ≠ .eok then (m, rc)
    else ((m.flushPages vpn a.count).setSlot (v, i) { a with valid := false }, .eok)

/-- `vma_unmap (va)`, when `frame_free` would answer `rc`. -/
def vmaUnmap (m : Machine) (va : Word) (rc : Errno) : Except Fault (Machine × Errno) :=
  if alignDown va pageSize ≠ va then .ok (m, .einval)
  else
    let vpn := va >>> pageWidth
    let (state, m) := m.disable
    match m.currentVmm with
    | none => .error .nullDeref
    | some v =>
      let (m, rc) := m.vmaUnmapSlot v vpn rc
      .ok (m.enable state, rc)

/-! ### Threads and context switches -/

/-- The choice of the map in `thread_create`: a new one when there is no current thread or the
caller asks for it, else the creator's. -/
def threadCreateVmm (m : Machine) (newVmm memVmm : Bool) : Machine × Except Errno ℕ :=
  match m.current with
  | none => m.vmmCreate memVmm
  | some t => if newVmm then m.vmmCreate memVmm else (m, .ok (m.threadVmm t))

/-- `thread_create`, for the answers of its three `malloc` calls: the control structure, the stack
and, inside `vmm_create`, the map.  When `vmm_create` fails the function returns with interrupts
still off. -/
def threadCreate (m : Machine) (newVmm memThread memStack memVmm : Bool) : Machine × Errno :=
  if !memThread || !memStack then (m, .enomem)
  else
    let (state, m) := m.disable
    match m.threadCreateVmm newVmm memVmm with
    | (m, .error rc) => (m, rc)
    | (m, .ok v) =>
      let m := { m with
        threadVmm := Function.update m.threadVmm m.threadCount v
        threadCount := m.threadCount + 1 }
      (m.enable state, .eok)

/-- `cpu_switch_context`: the ASID field of EntryHi is replaced, Status is the new thread's. -/
def cpuSwitchContext (c : Cpu) (asid : BitVec 8) (ie : Bool) : Cpu :=
  { c with entryhi := (c.entryhi &&& ~~~entryhiAsidMask) ||| asid.zeroExtend 32, ie := ie }

/-- `thread_switch (t)`, when `t` was suspended with interrupt state `ie`. -/
def threadSwitch (m : Machine) (t : ℕ) (ie : Bool) : Machine :=
  { m with
    current := some t
    cpu := cpuSwitchContext m.cpu (m.vmm (m.threadVmm t)).asid ie }

/-! ### Exceptions -/

/-- What the hardware does before it enters a TLB exception handler: EntryHi gets the page pair of
the faulting address. -/
def raise (m : Machine) (virt : Word) : Machine :=
  { m with cpu := { m.cpu with
      entryhi := (m.cpu.entryhi &&& ~~~entryhiVpn2Mask) ||| (virt &&& entryhiVpn2Mask) } }

/-- `wrapped_tlb_refill`: `none` when the thread is finished instead. -/
def wrappedTlbRefill (m : Machine) (vmm : Vmm) (badva : Word) (r : Fin tlbSize) :
    Option Machine :=
  match vmmMappingFind vmm badva with
  | .error _ => none
  | .ok phys =>
    some { m with cpu := m.cpu.tlbStoreRandom (badva >>> pageWidth) (phys >>> frameWidth) r }

/-- `tlb_invalid`: `none` when the thread is finished instead. -/
def tlbInvalid (m : Machine) (vmm : Vmm) (badva entryhi : Word) (r : Fin tlbSize) :
    Option Machine :=
  match vmmMappingFind vmm badva with
  | .error _ => none
  | .ok phys =>
    let vpn := badva >>> pageWidth
    let pfn := phys >>> frameWidth
    let cpu := { m.cpu with entryhi := entryhi }.tlbProbe
    let cpu := if cpu.index &&& indexPMask ≠ 0 then cpu.tlbStoreRandom vpn pfn r
      else cpu.tlbStoreIndexed vpn pfn
    some { m with cpu := cpu }

/-- The EntryLo half an address uses. -/
def half (e : TlbEntry) (vpn : Word) : Word :=
  if Cpu.tlbEntryPair vpn = 0 then e.lo0 else e.lo1

/-- An access of the current thread to the mapped address `virt`.  `r` is the Random register, and
`next`, `ie` are the thread that runs next and its interrupt state when the handler ends in
`thread_finish`. -/
def access (m : Machine) (virt : Word) (r : Fin tlbSize) (next : ℕ) (ie : Bool) :
    Except Fault Machine :=
  match m.currentVmm with
  | none => .error .nullDeref
  | some v =>
    match m.cpu.tlbLookup (m.raise virt).cpu.entryhi with
    | none =>
      .ok (((m.raise virt).wrappedTlbRefill (m.vmm v) virt r).getD
        ((m.raise virt).threadSwitch next ie))
    | some i =>
      if half (m.cpu.tlb i) (virt >>> pageWidth) &&& entryloVMask = 0 then
        .ok (((m.raise virt).tlbInvalid (m.vmm v) virt (m.raise virt).cpu.entryhi r).getD
          ((m.raise virt).threadSwitch next ie))
      else .ok m

/-! ### Runs -/

/-- What `frame_alloc` promises about the range `⟨phys, cnt⟩` it hands out. -/
structure FrameOk (m : Machine) (phys cnt : Word) : Prop where
  aligned : phys.toNat % 4096 = 0
  inside : phys.toNat + cnt.toNat * 4096 ≤ 2 ^ 32
  fresh : ∀ r ∈ outstanding m.frameCalls + m.otherRanges,
    Disjoint r.frames (FrameRange.frames ⟨phys, cnt⟩)

/-- One step of the kernel. -/
inductive Step : Machine → Machine → Prop where
  | vmmCreate {m m' : Machine} (mem : Bool) (r : Except Errno ℕ) :
      m.vmmCreate mem = (m', r) → Step m m'
  | vmaMap {m m' : Machine} (va size flags : Word) (answer : Except Errno Word)
      (rc : Errno) (va' : Word) :
      (∀ phys, answer = .ok phys → FrameOk m phys (size >>> pageWidth)) →
      answer ≠ .error .eok →
      m.vmaMap va size flags answer = .ok (m', rc, va') → Step m m'
  | vmaUnmap {m m' : Machine} (va : Word) (answer rc : Errno) :
      m.vmaUnmap va answer = .ok (m', rc) → Step m m'
  | threadCreate {m m' : Machine} (newVmm memThread memStack memVmm : Bool) (rc : Errno) :
      m.threadCreate newVmm memThread memStack memVmm = (m', rc) → Step m m'
  | threadSwitch {m : Machine} (t : ℕ) (ie : Bool) :
      t < m.threadCount → Step m (m.threadSwitch t ie)
  | access {m m' : Machine} (virt : Word) (r : Fin tlbSize) (next : ℕ) (ie : Bool) :
      next < m.threadCount → m.access virt r next ie = .ok m' → Step m m'
  | otherAlloc {m : Machine} (phys cnt : Word) :
      FrameOk m phys cnt → Step m { m with otherRanges := ⟨phys, cnt⟩ ::ₘ m.otherRanges }
  | otherFree {m : Machine} (r : FrameRange) :
      Step m { m with otherRanges := m.otherRanges.erase r }

/-- The state `bsp_start` makes before the first thread: `tlb_init` has run, nothing is allocated
by this file, and other parts of the kernel may hold frames. -/
def Boot (m : Machine) : Prop :=
  (∃ c : Cpu, m.cpu = c.tlbInit) ∧ m.vmmCount = 0 ∧ m.lastAsid = 0 ∧ m.threadCount = 0 ∧
    m.current = none ∧ m.frameCalls = []

/-- Every state a run can reach. -/
def Reachable (m : Machine) : Prop := ∃ m₀, Boot m₀ ∧ Relation.ReflTransGen Step m₀ m

end Machine

end Kalisto
