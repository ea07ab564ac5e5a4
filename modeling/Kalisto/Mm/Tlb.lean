import Kalisto.Include

/-!
# The TLB and the code that writes it

`Cpu` is the part of the System Control Coprocessor that address translation uses: the Index,
EntryHi, EntryLo0, EntryLo1, PageMask and Wired registers, the interrupt enable bit of Status, and
the `CP0_INDEX_INDEX_COUNT` entries of the TLB.  The first section is the hardware: the four TLB
instructions and the match test.  The second is `mm/tlb.c`: `tlb_init`, the two store functions and
`tlb_flush`, instruction by instruction.

Two things are left to the caller because the hardware leaves them open: the index that TLBWR picks
(an argument), and which of several matching entries TLBP reports (the first; where it is used at
most one matches, which is part of what is proved later).
-/

namespace Kalisto

/-- `CP0_INDEX_INDEX_COUNT`. -/
def tlbSize : ℕ := 48

/-- `CP0_ENTRYHI_VPN2_MASK`. -/
def entryhiVpn2Mask : Word := 0xffffe000#32

/-- `CP0_ENTRYHI_ASID_MASK`. -/
def entryhiAsidMask : Word := 0x000000ff#32

/-- `CP0_ENTRYLO_G_MASK`. -/
def entryloGMask : Word := 0x00000001#32

/-- `CP0_ENTRYLO_V_MASK`. -/
def entryloVMask : Word := 0x00000002#32

/-- `CP0_ENTRYLO_D_MASK`. -/
def entryloDMask : Word := 0x00000004#32

/-- `CP0_ENTRYLO_PFN_SHIFT`. -/
def entryloPfnShift : ℕ := 6

/-- `CP0_ENTRYHI_VPN2_SHIFT`. -/
def entryhiVpn2Shift : ℕ := 13

/-- `CP0_INDEX_P_MASK`: the probe found nothing. -/
def indexPMask : Word := 0x80000000#32

/-- `CP0_INDEX_INDEX_MASK`. -/
def indexIndexMask : Word := 0x0000003f#32

/-- `CP0_PAGEMASK_4K`. -/
def pagemask4K : Word := 0#32

/-- One TLB entry, as TLBWI and TLBWR copy it from the registers. -/
structure TlbEntry where
  hi : Word
  lo0 : Word
  lo1 : Word
  mask : Word
  deriving DecidableEq

/-- The translation registers of the System Control Coprocessor and the TLB. -/
structure Cpu where
  /-- The IE bit of the Status register. -/
  ie : Bool
  index : Word
  entryhi : Word
  entrylo0 : Word
  entrylo1 : Word
  pagemask : Word
  wired : Word
  tlb : Fin tlbSize → TlbEntry

namespace Cpu

/-! ### The hardware -/

/-- An entry answers for a value of EntryHi when the page pair is the same and either the entry is
global or the address space is the same. -/
def tlbMatch (e : TlbEntry) (hi : Word) : Bool :=
  (e.hi &&& entryhiVpn2Mask == hi &&& entryhiVpn2Mask) &&
    ((e.lo0 &&& e.lo1 &&& entryloGMask != 0) ||
      (e.hi &&& entryhiAsidMask == hi &&& entryhiAsidMask))

/-- The entry that answers for a value of EntryHi. -/
def tlbLookup (c : Cpu) (hi : Word) : Option (Fin tlbSize) :=
  (List.finRange tlbSize).find? fun i => tlbMatch (c.tlb i) hi

/-- TLBP. -/
def tlbProbe (c : Cpu) : Cpu :=
  { c with index := match c.tlbLookup c.entryhi with
      | some i => BitVec.ofNat 32 i
      | none => indexPMask }

/-- The entry the Index register points at. -/
def indexed (c : Cpu) : Option (Fin tlbSize) :=
  if h : (c.index &&& indexIndexMask).toNat < tlbSize then some ⟨_, h⟩ else none

/-- TLBR. -/
def tlbRead (c : Cpu) : Cpu :=
  match c.indexed with
  | some i => { c with
      entryhi := (c.tlb i).hi
      entrylo0 := (c.tlb i).lo0
      entrylo1 := (c.tlb i).lo1
      pagemask := (c.tlb i).mask }
  | none => c

/-- The entry the registers describe; the reserved bits of EntryHi are not kept. -/
def registers (c : Cpu) : TlbEntry where
  hi := c.entryhi &&& (entryhiVpn2Mask ||| entryhiAsidMask)
  lo0 := c.entrylo0
  lo1 := c.entrylo1
  mask := c.pagemask

/-- TLBWI. -/
def tlbWriteIndexed (c : Cpu) : Cpu :=
  match c.indexed with
  | some i => { c with tlb := Function.update c.tlb i c.registers }
  | none => c

/-- TLBWR, when the Random register holds `r`. -/
def tlbWriteRandom (c : Cpu) (r : Fin tlbSize) : Cpu :=
  { c with tlb := Function.update c.tlb r c.registers }

/-! ### `mm/tlb.c` -/

/-- `query_and_disable_interrupts`: the old interrupt enable bit, and interrupts off. -/
def queryAndDisableInterrupts (c : Cpu) : Bool × Cpu := (c.ie, { c with ie := false })

/-- `conditionally_enable_interrupts`. -/
def conditionallyEnableInterrupts (c : Cpu) (state : Bool) : Cpu :=
  if state then { c with ie := true } else c

/-- `tlb_init`: every entry is written with both halves invalid and with the unused address space
identifier. -/
def tlbInit (c : Cpu) : Cpu :=
  let c := { c with wired := 0, pagemask := pagemask4K, entrylo0 := 0, entrylo1 := 0 }
  let c := { c with entryhi := entryhiAsidMask }
  (List.range tlbSize).foldl
    (fun c i => { c with index := BitVec.ofNat 32 i }.tlbWriteIndexed) c

/-- The EntryLo value of a mapped, writable page. -/
def entryloOf (pfn : Word) : Word := (pfn <<< entryloPfnShift) ||| entryloDMask ||| entryloVMask

/-- `TLB_ENTRY_PAIR (vpn)`: which half of the entry a page uses. -/
def tlbEntryPair (vpn : Word) : Word := vpn &&& 1

/-- `tlb_store_indexed`: rewrite one half of the entry the Index register points at. -/
def tlbStoreIndexed (c : Cpu) (vpn pfn : Word) : Cpu :=
  let c := c.tlbRead
  let c := { c with pagemask := pagemask4K }
  let c := if tlbEntryPair vpn = 0 then { c with entrylo0 := entryloOf pfn }
    else { c with entrylo1 := entryloOf pfn }
  c.tlbWriteIndexed

/-- `tlb_store_random`: write a whole entry whose other half is invalid. -/
def tlbStoreRandom (c : Cpu) (vpn pfn : Word) (r : Fin tlbSize) : Cpu :=
  let c := { c with pagemask := pagemask4K }
  let c := if tlbEntryPair vpn = 0 then { c with entrylo0 := entryloOf pfn, entrylo1 := 0 }
    else { c with entrylo0 := 0, entrylo1 := entryloOf pfn }
  c.tlbWriteRandom r

/-- The EntryHi value `tlb_flush` probes with: the page pair of `addr`, the current ASID. -/
def flushProbe (entryhi addr : Word) : Word :=
  (entryhi &&& ~~~entryhiVpn2Mask) ||| ((addr >>> pageWidth >>> 1) <<< entryhiVpn2Shift)

/-- `tlb_flush`. -/
def tlbFlush (c : Cpu) (addr : Word) : Cpu :=
  let (state, c) := c.queryAndDisableInterrupts
  let entryhi := c.entryhi
  let c := { c with entryhi := flushProbe entryhi addr }
  let c := c.tlbProbe
  let c := if c.index &&& indexPMask = 0 then
      { c with pagemask := pagemask4K, entrylo0 := 0, entrylo1 := 0 }.tlbWriteIndexed
    else c
  { c with entryhi := entryhi }.conditionallyEnableInterrupts state

end Cpu

end Kalisto
