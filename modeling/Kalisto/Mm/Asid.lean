import Kalisto.Mm.FrameOwnership

/-!
# Address space identifiers

`vmm_create` numbers the maps with `last_asid`, a counter of eight bits that nothing resets, and
`tlb_init` writes `0xFF`, the "unused address space identifier", into every entry.  Maps are never
destroyed, so the identifiers are good for 255 maps.

* `AsidInv` — the invariant: map number `w` has the identifier `w`, modulo 256;
* `asids_never_collide` — along a run the identifiers are distinct, none is `0xFF`, and no map is
  created without an identifier left, exactly when the run creates at most 255 maps;
* `asids_collide` — a run with 257 maps, the first and the last with one identifier.
-/

namespace Kalisto

namespace Machine

/-! ### What a run shows -/

/-- The identifiers of the maps are pairwise distinct, and none is the one of `tlb_init`. -/
def AsidsDistinct (m : Machine) : Prop :=
  (∀ v w, v < m.vmmCount → w < m.vmmCount → (m.vmm v).asid = (m.vmm w).asid → v = w) ∧
    ∀ w < m.vmmCount, (m.vmm w).asid ≠ 0xFF

/-- Every identifier but the one of `tlb_init` is in use. -/
def NoAsidLeft (m : Machine) : Prop :=
  ∀ a : BitVec 8, a ≠ 0xFF → ∃ w < m.vmmCount, (m.vmm w).asid = a

/-- Without an identifier left, no map is created: `vmm_create` reports an error. -/
def ReportsExhaustion (m m' : Machine) : Prop := m.NoAsidLeft → m'.vmmCount = m.vmmCount

/-- `vmm_create` has returned `EOK` exactly when there is one more map. -/
theorem vmmCreate_count {m m' : Machine} {mem : Bool} {r : Except Errno ℕ}
    (h : m.vmmCreate mem = (m', r)) : m'.vmmCount = m.vmmCount ↔ r = .error .enomem := by
  rcases vmmCreate_cases h with ⟨rfl, rfl⟩ | ⟨rfl, rfl⟩
  · simp
  · simp [addVmm]

/-- A run from boot, state by state. -/
structure IsRun (ms : List Machine) : Prop where
  boot : ∀ m ∈ ms.head?, Boot m
  steps : ms.IsChain Step

/-! ### The invariant -/

/-- Map number `w` has the identifier `w`, modulo 256, and the counter is the next one. -/
structure AsidInv (m : Machine) : Prop where
  next : m.lastAsid = BitVec.ofNat 8 m.vmmCount
  asids : ∀ w < m.vmmCount, (m.vmm w).asid = BitVec.ofNat 8 w

theorem Boot.asidInv {m : Machine} (h : Boot m) : m.AsidInv := by
  obtain ⟨-, hcount, hnext, -⟩ := h
  refine ⟨by rw [hnext, hcount]; rfl, fun w hw => ?_⟩
  rw [hcount] at hw
  exact absurd hw (Nat.not_lt_zero w)

theorem AsidInv.step {m m' : Machine} (hi : m.AsidInv) (h : Step m m') : m'.AsidInv := by
  rcases h.maps with ⟨hcount, hnext, hasid⟩ | ⟨hcount, hnext, hnew, hold⟩
  · refine ⟨by rw [hnext, hcount, hi.next], fun w hw => ?_⟩
    rw [hasid w]
    exact hi.asids w (hcount ▸ hw)
  · refine ⟨?_, fun w hw => ?_⟩
    · rw [hnext, hcount, hi.next]
      apply BitVec.eq_of_toNat_eq
      simp
    · by_cases hlast : w = m.vmmCount
      · rw [hlast, hnew, hi.next]
      · rw [hold w hlast]
        exact hi.asids w (by omega)

/-- **The identifiers of `n` maps.** -/
theorem AsidInv.distinct_iff {m : Machine} (hi : m.AsidInv) : m.AsidsDistinct ↔ m.vmmCount ≤ 255 := by
  constructor
  · rintro ⟨-, hff⟩
    by_contra hmany
    exact hff 255 (by omega) (hi.asids 255 (by omega))
  · intro hle
    have hnat : ∀ w < m.vmmCount, (m.vmm w).asid.toNat = w := by
      intro w hw
      rw [hi.asids w hw, BitVec.toNat_ofNat]
      omega
    refine ⟨fun v w hv hw heq => ?_, fun w hw heq => ?_⟩
    · rw [← hnat v hv, ← hnat w hw, heq]
    · have h255 : w = 255 := by rw [← hnat w hw, heq]; rfl
      omega

/-- With 255 maps all identifiers are in use, with fewer one is left. -/
theorem AsidInv.noAsidLeft_iff {m : Machine} (hi : m.AsidInv) : m.NoAsidLeft ↔ 255 ≤ m.vmmCount := by
  constructor
  · intro hno
    by_contra hfew
    obtain ⟨w, hw, heq⟩ := hno (BitVec.ofNat 8 m.vmmCount) fun hff => by
      have hnat := congrArg BitVec.toNat hff
      rw [BitVec.toNat_ofNat] at hnat
      change m.vmmCount % 2 ^ 8 = 255 at hnat
      omega
    rw [hi.asids w hw] at heq
    have hnat := congrArg BitVec.toNat heq
    rw [BitVec.toNat_ofNat, BitVec.toNat_ofNat] at hnat
    omega
  · intro hle a ha
    have hne : a.toNat ≠ 255 := fun h => ha (BitVec.eq_of_toNat_eq h)
    have hlt := a.isLt
    refine ⟨a.toNat, by omega, ?_⟩
    rw [hi.asids _ (by omega), BitVec.ofNat_toNat, BitVec.setWidth_eq]

/-- Every state of a run. -/
theorem IsRun.asidInv {ms : List Machine} (h : IsRun ms) : ∀ m ∈ ms, m.AsidInv := by
  refine h.steps.induction AsidInv ms (fun m m' hstep hi => hi.step hstep) fun hne => ?_
  exact (h.boot _ (List.head_mem_head? hne)).asidInv

/-- **Address space identifiers.**  A run creates at most 255 maps exactly when in each of its states
the identifiers are distinct and none is the one of `tlb_init`, and no step creates a map when no
identifier is left. -/
theorem asids_never_collide {ms : List Machine} (hrun : IsRun ms) :
    ((∀ m ∈ ms, m.AsidsDistinct) ∧ ms.IsChain ReportsExhaustion) ↔ ∀ m ∈ ms, m.vmmCount ≤ 255 := by
  have hinv := hrun.asidInv
  constructor
  · rintro ⟨hdistinct, -⟩ m hm
    exact (hinv m hm).distinct_iff.mp (hdistinct m hm)
  · intro hle
    refine ⟨fun m hm => (hinv m hm).distinct_iff.mpr (hle m hm), ?_⟩
    refine hrun.steps.imp_of_mem_imp fun m m' hm hm' hstep hno => ?_
    have h255 := (hinv m hm).noAsidLeft_iff.mp hno
    have hmono := hstep.vmmCount_le
    have hmax := hle m' hm'
    omega

/-! ### A run with too many maps -/

/-- The states of `n` successful calls of `vmm_create` from `m` on. -/
def creating (m : Machine) : ℕ → List Machine
  | 0 => [m]
  | n + 1 => m :: creating (m.vmmCreate true).1 n

theorem creating_isChain (n : ℕ) (m : Machine) : (m.creating n).IsChain Step := by
  induction n generalizing m with
  | zero => exact List.isChain_singleton m
  | succ n ih =>
    refine (ih (m.vmmCreate true).1).cons fun m' hm' => ?_
    have hhead : m' = (m.vmmCreate true).1 := by
      cases n with
      | zero => simpa [creating] using hm'.symm
      | succ n => simpa [creating] using hm'.symm
    rw [hhead]
    exact Step.vmmCreate true _ Prod.mk.eta.symm

theorem creating_count (n : ℕ) (m : Machine) :
    ∃ m' ∈ m.creating n, m'.vmmCount = m.vmmCount + n := by
  induction n generalizing m with
  | zero => exact ⟨m, by simp [creating], rfl⟩
  | succ n ih =>
    obtain ⟨m', hm', hcount⟩ := ih (m.vmmCreate true).1
    refine ⟨m', by simp [creating, hm'], ?_⟩
    have hone : (m.vmmCreate true).1.vmmCount = m.vmmCount + 1 := rfl
    rw [hcount, hone]
    omega

theorem creating_isRun (n : ℕ) : IsRun (bootState.creating n) := by
  refine ⟨fun m hm => ?_, creating_isChain n bootState⟩
  have hhead : m = bootState := by
    cases n with
    | zero => simpa [creating] using hm.symm
    | succ n => simpa [creating] using hm.symm
  rw [hhead]
  exact ⟨⟨resetCpu, rfl⟩, rfl, rfl, rfl, rfl, rfl⟩

/-- **Two maps with one identifier.**  After 257 successful calls of `vmm_create` the first and the last
map have the same identifier, and map 255 has the one of `tlb_init`. -/
theorem asids_collide : ∃ ms, IsRun ms ∧ ∃ m ∈ ms, m.vmmCount = 257 ∧
    (m.vmm 0).asid = (m.vmm 256).asid ∧ (m.vmm 255).asid = 0xFF ∧ ¬ m.AsidsDistinct := by
  obtain ⟨m, hm, hcount⟩ := creating_count 257 bootState
  have hcount' : m.vmmCount = 257 := hcount
  have hi := (creating_isRun 257).asidInv m hm
  refine ⟨_, creating_isRun 257, m, hm, hcount', ?_, ?_, fun hdistinct => ?_⟩
  · rw [hi.asids 0 (by omega), hi.asids 256 (by omega)]
    rfl
  · rw [hi.asids 255 (by omega)]
    rfl
  · have hle := hi.distinct_iff.mp hdistinct
    omega

/-- With three maps all is well. -/
theorem asids_never_collide_three :
    (∀ m ∈ bootState.creating 3, m.AsidsDistinct) ∧
      (bootState.creating 3).IsChain ReportsExhaustion := by
  refine (asids_never_collide (creating_isRun 3)).mpr ?_
  simp [creating, bootState, vmmCreate, disable, enable]

end Machine

end Kalisto
