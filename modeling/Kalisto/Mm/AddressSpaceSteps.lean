import Kalisto.Mm.AddressSpace

/-!
# What one step of the address space machine can do

One inversion lemma for each function that changes the machine.  They fold the interrupt
bookkeeping away once and for all (a function that turns interrupts off and back on leaves the
processor as it was) and list the ways the function can end: which slot it wrote, which frame call
it logged, or that nothing changed.  The invariants of the next modules only look at these lists.
-/

namespace Kalisto

/-! ### Interrupts off and on again -/

theorem Cpu.enable_disable (c : Cpu) :
    c.queryAndDisableInterrupts.2.conditionallyEnableInterrupts c.queryAndDisableInterrupts.1
      = c := by
  cases c with
  | mk ie index entryhi lo0 lo1 pagemask wired tlb =>
    cases ie <;> rfl

namespace Machine

theorem enable_disable (m : Machine) : m.disable.2.enable m.disable.1 = m := by
  simp only [disable, enable, Cpu.enable_disable]

@[simp] theorem disable_vmm (m : Machine) : m.disable.2.vmm = m.vmm := rfl

@[simp] theorem disable_currentVmm (m : Machine) : m.disable.2.currentVmm = m.currentVmm := rfl

@[simp] theorem disable_slot (m : Machine) (p : ℕ × Fin vmas) :
    m.disable.2.slot p = m.slot p := rfl

/-! ### Slots -/

theorem slot_setSlot (m : Machine) (p q : ℕ × Fin vmas) (a : Vma) :
    (m.setSlot p a).slot q = if q = p then a else m.slot q := by
  obtain ⟨v, i⟩ := p
  obtain ⟨w, j⟩ := q
  by_cases hv : w = v
  · subst hv
    by_cases hi : j = i
    · subst hi
      simp [slot, setSlot]
    · simp [slot, setSlot, hi]
  · simp [slot, setSlot, hv]

@[simp] theorem setSlot_vmmCount (m : Machine) (p : ℕ × Fin vmas) (a : Vma) :
    (m.setSlot p a).vmmCount = m.vmmCount := rfl

@[simp] theorem setSlot_asid (m : Machine) (p : ℕ × Fin vmas) (a : Vma) (w : ℕ) :
    ((m.setSlot p a).vmm w).asid = (m.vmm w).asid := by
  by_cases hw : w = p.1
  · subst hw
    simp [setSlot]
  · simp [setSlot, hw]

/-! ### `vma_map` -/

theorem vmaMapSlot_cases {m m' : Machine} {v : ℕ} {va count : Word} {answer : Except Errno Word}
    {rc : Errno} (h : m.vmaMapSlot v va count answer = (m', rc)) :
    (m' = m ∧ (rc = .enomem ∨ answer = .error rc)) ∨
      ∃ i phys, (m.slot (v, i)).valid = false ∧ answer = .ok phys ∧ rc = .eok ∧
        m' = (m.logCall (.alloc ⟨phys, count⟩)).setSlot (v, i)
          ⟨va >>> pageWidth, phys >>> frameWidth, count, true⟩ := by
  simp only [vmaMapSlot] at h
  split at h
  · obtain ⟨rfl, rfl⟩ := Prod.mk.inj h
    exact Or.inl ⟨rfl, Or.inl rfl⟩
  · rename_i i hi
    have hfree := Vmm.findSlot_some (p := fun a => !a.valid) hi
    split at h
    · obtain ⟨rfl, rfl⟩ := Prod.mk.inj h
      exact Or.inl ⟨rfl, Or.inr rfl⟩
    · rename_i phys
      obtain ⟨rfl, rfl⟩ := Prod.mk.inj h
      exact Or.inr ⟨i, phys, by simpa [slot] using hfree, rfl, rfl, rfl⟩

/-- The second half of `vma_map`, run with interrupts off and then restored. -/
theorem vmaMapAt_cases {m m' : Machine} {v : ℕ} {va count va' : Word}
    {answer : Except Errno Word} {rc : Errno}
    (h : m.disable.2.vmaMapAt v va count answer = (m', rc, va')) :
    (m'.enable m.disable.1 = m ∧ (rc = .einval ∨ rc = .enomem ∨ answer = .error rc)) ∨
      ∃ i phys, (m.slot (v, i)).valid = false ∧ answer = .ok phys ∧ rc = .eok ∧
        m'.enable m.disable.1 = (m.logCall (.alloc ⟨phys, count⟩)).setSlot (v, i)
          ⟨va' >>> pageWidth, phys >>> frameWidth, count, true⟩ := by
  simp only [vmaMapAt] at h
  split at h
  · simp only [Prod.mk.injEq] at h
    obtain ⟨rfl, rfl, rfl⟩ := h
    exact Or.inl ⟨enable_disable m, Or.inl rfl⟩
  · simp only [Prod.mk.injEq] at h
    obtain ⟨rfl, rfl, rfl⟩ := h
    rcases vmaMapSlot_cases (Prod.mk.eta (p := m.disable.2.vmaMapSlot v va count answer)).symm with
      ⟨h1, h2⟩ | ⟨i, phys, hfree, hans, hok, heq⟩
    · rw [h1]
      exact Or.inl ⟨enable_disable m, Or.inr h2⟩
    · refine Or.inr ⟨i, phys, hfree, hans, hok, ?_⟩
      -- the interrupt state is restored around the slot that was written
      rw [heq]
      simp only [enable, disable, setSlot, logCall, Cpu.enable_disable]

/-- **Every way `vma_map` can return.**  Either nothing changed, or the allocator answered and one
unused slot of the current map now holds its answer. -/
theorem vmaMap_cases {m m' : Machine} {va size flags va' : Word} {answer : Except Errno Word}
    {rc : Errno} (h : m.vmaMap va size flags answer = .ok (m', rc, va')) :
    (m' = m ∧ (rc = .einval ∨ rc = .enomem ∨ answer = .error rc)) ∨
      ∃ v i phys, m.currentVmm = some v ∧ (m.slot (v, i)).valid = false ∧ answer = .ok phys ∧
        rc = .eok ∧
        m' = (m.logCall (.alloc ⟨phys, size >>> pageWidth⟩)).setSlot (v, i)
          ⟨va' >>> pageWidth, phys >>> frameWidth, size >>> pageWidth, true⟩ := by
  simp only [vmaMap] at h
  split at h
  · cases h
  split at h
  · simp only [Except.ok.injEq, Prod.mk.injEq] at h
    exact Or.inl ⟨h.1.symm, Or.inl h.2.1.symm⟩
  split at h
  · cases h
  split at h
  · cases h
  rename_i v hv
  rw [disable_currentVmm] at hv
  -- with either flag the call ends in the second half, at the chosen address
  have hcases : (m' = m ∧ rc = .enomem) ∨ ∃ va₁,
      (m.disable.2.vmaMapAt v va₁ (size >>> pageWidth) answer).1.enable m.disable.1 = m' ∧
      (m.disable.2.vmaMapAt v va₁ (size >>> pageWidth) answer).2 = (rc, va') := by
    split at h
    · split at h
      · simp only [Except.ok.injEq, Prod.mk.injEq, enable_disable] at h
        exact Or.inl ⟨h.1.symm, h.2.1.symm⟩
      · simp only [Except.ok.injEq, Prod.mk.injEq] at h
        exact Or.inr ⟨_, h.1, Prod.ext h.2.1 h.2.2⟩
    · simp only [Except.ok.injEq, Prod.mk.injEq] at h
      exact Or.inr ⟨_, h.1, Prod.ext h.2.1 h.2.2⟩
  rcases hcases with ⟨h1, h2⟩ | ⟨va₁, h1, h2⟩
  · exact Or.inl ⟨h1, Or.inr (Or.inl h2)⟩
  · have hsplit : m.disable.2.vmaMapAt v va₁ (size >>> pageWidth) answer
        = ((m.disable.2.vmaMapAt v va₁ (size >>> pageWidth) answer).1, rc, va') := by rw [← h2]
    rcases vmaMapAt_cases hsplit with ⟨he, hr⟩ | ⟨i, phys, hfree, hans, hok, he⟩
    · exact Or.inl ⟨h1.symm.trans he, hr⟩
    · exact Or.inr ⟨v, i, phys, hv, hfree, hans, hok, h1.symm.trans he⟩

/-! ### `vma_unmap` -/

/-- The state after `vma_unmap` has released slot `p`, whose first page is `vpn`. -/
def release (m : Machine) (p : ℕ × Fin vmas) (vpn : Word) : Machine :=
  { (m.logCall (.free (m.slot p).range .eok)).setSlot p { m.slot p with valid := false } with
    cpu := (m.disable.2.flushPages vpn (m.slot p).count).cpu.conditionallyEnableInterrupts
      m.cpu.ie }

/-- **Every way `vma_unmap` can return.**  Nothing changed; or `frame_free` was called on the frames
of the slot that was found and refused; or it accepted, the pages were flushed and the slot is
unused. -/
theorem vmaUnmap_cases {m m' : Machine} {va : Word} {answer rc : Errno}
    (h : m.vmaUnmap va answer = .ok (m', rc)) :
    (m' = m ∧ rc = .einval) ∨
      ∃ v i, m.currentVmm = some v ∧ (m.slot (v, i)).valid = true ∧
        (m.slot (v, i)).vpnBase = va >>> pageWidth ∧ rc = answer ∧
        ((answer ≠ .eok ∧ m' = m.logCall (.free (m.slot (v, i)).range answer)) ∨
          (answer = .eok ∧ m' = m.release (v, i) (va >>> pageWidth))) := by
  simp only [vmaUnmap] at h
  split at h
  · simp only [Except.ok.injEq, Prod.mk.injEq] at h
    exact Or.inl ⟨h.1.symm, h.2.symm⟩
  split at h
  · cases h
  rename_i v hv
  rw [disable_currentVmm] at hv
  simp only [Except.ok.injEq, Prod.mk.injEq] at h
  obtain ⟨hm, hrc⟩ := h
  cases hi : (m.vmm v).findSlot fun a => a.valid && a.vpnBase == va >>> pageWidth with
  | none =>
    simp only [vmaUnmapSlot, disable_vmm, hi] at hm hrc
    rw [enable_disable] at hm
    exact Or.inl ⟨hm.symm, hrc.symm⟩
  | some i =>
    simp only [vmaUnmapSlot, disable_vmm, hi] at hm hrc
    have hfound := Vmm.findSlot_some (p := fun a => a.valid && a.vpnBase == va >>> pageWidth) hi
    simp only [Bool.and_eq_true, beq_iff_eq] at hfound
    by_cases hans : answer = .eok
    · subst hans
      simp only [ne_eq, not_true_eq_false, if_false] at hm hrc
      exact Or.inr ⟨v, i, hv, hfound.1, hfound.2, hrc.symm, Or.inr ⟨rfl, hm.symm⟩⟩
    · simp only [ne_eq, hans, not_false_eq_true, if_true] at hm hrc
      refine Or.inr ⟨v, i, hv, hfound.1, hfound.2, hrc.symm, Or.inl ⟨hans, ?_⟩⟩
      rw [← hm]
      simp only [enable, disable, slot, logCall, Vma.range, Cpu.enable_disable]

/-! ### Creating maps and threads -/

/-- The state after a successful `vmm_create`. -/
def addVmm (m : Machine) : Machine :=
  { m with
    vmm := Function.update m.vmm m.vmmCount ⟨m.lastAsid, fun _ => Vma.zero⟩
    vmmCount := m.vmmCount + 1
    lastAsid := m.lastAsid + 1 }

theorem vmmCreate_cases {m m' : Machine} {mem : Bool} {r : Except Errno ℕ}
    (h : m.vmmCreate mem = (m', r)) :
    (m' = m ∧ r = .error .enomem) ∨ (m' = m.addVmm ∧ r = .ok m.vmmCount) := by
  simp only [vmmCreate] at h
  split at h
  · obtain ⟨rfl, rfl⟩ := Prod.mk.inj h
    refine Or.inr ⟨?_, rfl⟩
    simp only [enable, disable, addVmm, Cpu.enable_disable]
  · obtain ⟨rfl, rfl⟩ := Prod.mk.inj h
    exact Or.inl ⟨rfl, rfl⟩

/-- The state after a thread with map `v` has been added. -/
def addThread (m : Machine) (v : ℕ) : Machine :=
  { m with
    threadVmm := Function.update m.threadVmm m.threadCount v
    threadCount := m.threadCount + 1 }

/-- The state with the interrupt enable bit `ie`. -/
def withIe (m : Machine) (ie : Bool) : Machine := { m with cpu := { m.cpu with ie := ie } }

theorem threadCreateVmm_cases {m m' : Machine} {newVmm memVmm : Bool} {r : Except Errno ℕ}
    (h : m.threadCreateVmm newVmm memVmm = (m', r)) :
    (m' = m ∧ r = .error .enomem) ∨ (m' = m.addVmm ∧ r = .ok m.vmmCount) ∨
      (m' = m ∧ ∃ t, m.current = some t ∧ r = .ok (m.threadVmm t)) := by
  simp only [threadCreateVmm] at h
  split at h
  · rcases vmmCreate_cases h with h | h
    · exact Or.inl h
    · exact Or.inr (Or.inl h)
  · rename_i t ht
    split at h
    · rcases vmmCreate_cases h with h | h
      · exact Or.inl h
      · exact Or.inr (Or.inl h)
    · obtain ⟨rfl, rfl⟩ := Prod.mk.inj h
      exact Or.inr (Or.inr ⟨rfl, t, ht, rfl⟩)

/-- **Every way `thread_create` can return**, up to the interrupt enable bit. -/
theorem threadCreate_cases {m m' : Machine} {newVmm memThread memStack memVmm : Bool} {rc : Errno}
    (h : m.threadCreate newVmm memThread memStack memVmm = (m', rc)) :
    ∃ ie, m' = m.withIe ie ∨
      (∃ t, m.current = some t ∧ m' = (m.addThread (m.threadVmm t)).withIe ie) ∨
      m' = (m.addVmm.addThread m.vmmCount).withIe ie := by
  simp only [threadCreate] at h
  split at h
  · obtain ⟨rfl, rfl⟩ := Prod.mk.inj h
    exact ⟨m.cpu.ie, Or.inl rfl⟩
  · generalize hr : m.disable.2.threadCreateVmm newVmm memVmm = r at h
    obtain ⟨m₁, e⟩ := r
    rcases threadCreateVmm_cases hr with ⟨rfl, rfl⟩ | ⟨rfl, rfl⟩ | ⟨rfl, t, ht, rfl⟩
    · obtain ⟨rfl, rfl⟩ := Prod.mk.inj h
      exact ⟨false, Or.inl rfl⟩
    · obtain ⟨rfl, rfl⟩ := Prod.mk.inj h
      refine ⟨m.cpu.ie, Or.inr (Or.inr ?_)⟩
      simp only [enable, disable, addVmm, addThread, withIe, Cpu.enable_disable]
    · obtain ⟨rfl, rfl⟩ := Prod.mk.inj h
      refine ⟨m.cpu.ie, Or.inr (Or.inl ⟨t, ht, ?_⟩)⟩
      simp only [enable, disable, addThread, withIe, Cpu.enable_disable]

/-! ### Accesses -/

/-- **Every way an access can end.**  The translation was there; or a handler filled in the page
from the current map; or there is no mapping and another thread runs. -/
theorem access_cases {m m' : Machine} {virt : Word} {r : Fin tlbSize} {next : ℕ} {ie : Bool}
    (h : m.access virt r next ie = .ok m') :
    ∃ v, m.currentVmm = some v ∧
      (m' = m ∨ m' = (m.raise virt).threadSwitch next ie ∨
        (m.cpu.tlbLookup (m.raise virt).cpu.entryhi = none ∧
          (m.raise virt).wrappedTlbRefill (m.vmm v) virt r = some m') ∨
        (∃ i, m.cpu.tlbLookup (m.raise virt).cpu.entryhi = some i ∧
          (m.raise virt).tlbInvalid (m.vmm v) virt (m.raise virt).cpu.entryhi r = some m')) := by
  simp only [access] at h
  split at h
  · cases h
  rename_i v hv
  refine ⟨v, hv, ?_⟩
  split at h
  · rename_i hnone
    simp only [Except.ok.injEq] at h
    cases hw : (m.raise virt).wrappedTlbRefill (m.vmm v) virt r with
    | none =>
      rw [hw] at h
      exact Or.inr (Or.inl h.symm)
    | some m₁ =>
      rw [hw] at h
      exact Or.inr (Or.inr (Or.inl ⟨hnone, congrArg some h⟩))
  · rename_i i hsome
    split at h
    · simp only [Except.ok.injEq] at h
      cases hw : (m.raise virt).tlbInvalid (m.vmm v) virt (m.raise virt).cpu.entryhi r with
      | none =>
        rw [hw] at h
        exact Or.inr (Or.inl h.symm)
      | some m₁ =>
        rw [hw] at h
        exact Or.inr (Or.inr (Or.inr ⟨i, hsome, congrArg some h⟩))
    · simp only [Except.ok.injEq] at h
      exact Or.inl h.symm

/-- A handler that returns has only changed the processor. -/
theorem wrappedTlbRefill_maps {m m' : Machine} {vmm : Vmm} {badva : Word} {r : Fin tlbSize}
    (h : m.wrappedTlbRefill vmm badva r = some m') : ∃ c, m' = { m with cpu := c } := by
  simp only [wrappedTlbRefill] at h
  split at h
  · cases h
  · exact ⟨_, (Option.some.inj h).symm⟩

theorem tlbInvalid_maps {m m' : Machine} {vmm : Vmm} {badva entryhi : Word} {r : Fin tlbSize}
    (h : m.tlbInvalid vmm badva entryhi r = some m') : ∃ c, m' = { m with cpu := c } := by
  simp only [tlbInvalid] at h
  split at h
  · cases h
  · exact ⟨_, (Option.some.inj h).symm⟩

/-! ### The maps and their identifiers -/

/-- The step leaves the maps that exist, their identifiers and the counter as they are. -/
def SameMaps (m m' : Machine) : Prop :=
  m'.vmmCount = m.vmmCount ∧ m'.lastAsid = m.lastAsid ∧ ∀ w, (m'.vmm w).asid = (m.vmm w).asid

/-- The step creates one map, which gets the identifier of the counter. -/
def OneMore (m m' : Machine) : Prop :=
  m'.vmmCount = m.vmmCount + 1 ∧ m'.lastAsid = m.lastAsid + 1 ∧
    (m'.vmm m.vmmCount).asid = m.lastAsid ∧
    ∀ w, w ≠ m.vmmCount → (m'.vmm w).asid = (m.vmm w).asid

theorem sameMaps_refl (m : Machine) : SameMaps m m := ⟨rfl, rfl, fun _ => rfl⟩

theorem oneMore_addVmm (m : Machine) : OneMore m m.addVmm := by
  refine ⟨rfl, rfl, ?_, fun w hw => ?_⟩
  · simp [addVmm]
  · simp [addVmm, hw]

/-- **A step creates one map or none.** -/
theorem Step.maps {m m' : Machine} (h : Step m m') : SameMaps m m' ∨ OneMore m m' := by
  cases h with
  | vmmCreate mem r h =>
    rcases vmmCreate_cases h with ⟨rfl, -⟩ | ⟨rfl, -⟩
    · exact Or.inl (sameMaps_refl _)
    · exact Or.inr (oneMore_addVmm m)
  | vmaMap va size flags answer rc va' _ _ h =>
    rcases vmaMap_cases h with ⟨rfl, -⟩ | ⟨v, i, phys, -, -, -, -, rfl⟩
    · exact Or.inl (sameMaps_refl _)
    · exact Or.inl ⟨rfl, rfl, fun w => setSlot_asid _ _ _ w⟩
  | vmaUnmap va answer rc h =>
    rcases vmaUnmap_cases h with ⟨rfl, -⟩ | ⟨v, i, -, -, -, -, ⟨-, rfl⟩ | ⟨-, rfl⟩⟩
    · exact Or.inl (sameMaps_refl _)
    · exact Or.inl ⟨rfl, rfl, fun _ => rfl⟩
    · exact Or.inl ⟨rfl, rfl, fun w => setSlot_asid _ _ _ w⟩
  | threadCreate newVmm memThread memStack memVmm rc h =>
    obtain ⟨ie, rfl | ⟨t, -, rfl⟩ | rfl⟩ := threadCreate_cases h
    · exact Or.inl ⟨rfl, rfl, fun _ => rfl⟩
    · exact Or.inl ⟨rfl, rfl, fun _ => rfl⟩
    · exact Or.inr (oneMore_addVmm m)
  | threadSwitch t ie ht => exact Or.inl ⟨rfl, rfl, fun _ => rfl⟩
  | access virt r next ie hn h =>
    obtain ⟨v, -, h⟩ := access_cases h
    rcases h with rfl | rfl | ⟨-, h⟩ | ⟨i, -, h⟩
    · exact Or.inl (sameMaps_refl _)
    · exact Or.inl ⟨rfl, rfl, fun _ => rfl⟩
    · obtain ⟨c, rfl⟩ := wrappedTlbRefill_maps h
      exact Or.inl ⟨rfl, rfl, fun _ => rfl⟩
    · obtain ⟨c, rfl⟩ := tlbInvalid_maps h
      exact Or.inl ⟨rfl, rfl, fun _ => rfl⟩
  | otherAlloc phys cnt hok => exact Or.inl ⟨rfl, rfl, fun _ => rfl⟩
  | otherFree r => exact Or.inl ⟨rfl, rfl, fun _ => rfl⟩

theorem Step.vmmCount_le {m m' : Machine} (h : Step m m') : m.vmmCount ≤ m'.vmmCount := by
  rcases h.maps with ⟨h, -⟩ | ⟨h, -⟩
  · exact h.ge
  · omega

end Machine

end Kalisto
