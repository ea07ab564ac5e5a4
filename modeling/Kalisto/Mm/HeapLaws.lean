import Kalisto.Mm.HeapRuns
import Kalisto.Mm.HeapNormal

/-!
# Laws of `malloc` and `free`

What `malloc` and `free` do to the layout of the heap in any run, call by call.

* `malloc_first_fit` — which block `malloc` takes, what it leaves of it, how many frames it asks for
  and when it returns `NULL`;
* `free_undoes_malloc` — `free` right after `malloc` gives the layout of before, and the frames back;
* `free_order` — the layout and the frames after some blocks were freed, in any order.
-/

namespace Kalisto

/-! ### The ranges of the heaps -/

theorem HeapCall.returned_append (cs ds : List HeapCall) :
    returned (cs ++ ds) = returned cs ++ returned ds := by
  induction cs with
  | nil => rfl
  | cons c cs ih => cases c <;> simp [returned, ih]

/-- The ranges of the heaps that `free` drops are those it returns. -/
theorem Releases.returned {lay lay' : List HeapDesc} {p : ℕ} {cs : List HeapCall}
    (h : Releases lay p lay' cs) :
    (lay.map HeapDesc.range).Perm (HeapCall.returned cs ++ lay'.map HeapDesc.range) := by
  cases h with
  | keep hlay hb hfree hp hne =>
    subst hlay
    rw [List.map_append, List.map_append]
    exact List.Perm.refl _
  | @drop L R h pre post b n hlay hb hfree hp hone =>
    subst hlay
    have hr : (HeapCall.free (h.base - 0x80000000) h.frames) = .free h.range.1 h.range.2 := (rfl)
    rw [hr, List.map_append, List.map_append, List.map_cons]
    exact List.perm_middle

theorem ReleasesAll.returned {lay lay' : List HeapDesc} {ps : List ℕ} {cs : List HeapCall}
    (h : ReleasesAll lay ps lay' cs) :
    (lay.map HeapDesc.range).Perm (HeapCall.returned cs ++ lay'.map HeapDesc.range) := by
  induction h with
  | nil => exact List.Perm.refl _
  | @cons lay lay₁ lay' p ps cs ds hone hrest ih =>
    rw [HeapCall.returned_append, List.append_assoc]
    refine hone.returned.trans ((ih.append_left _).trans ?_)
    exact (List.perm_append_comm_assoc _ _ _)

/-- The ranges of the heaps that `malloc` adds are those it was granted. -/
theorem Allocates.granted {answer : ℕ → Option ℕ} {real p : ℕ} {lay lay' : List HeapDesc}
    {cs : List HeapCall} (h : Allocates answer real lay lay' p cs) :
    (lay'.map HeapDesc.range).Perm (HeapCall.granted cs ++ lay.map HeapDesc.range) ∧
      (HeapCall.granted cs).length ≤ 1 ∧ HeapCall.returned cs = [] := by
  cases h with
  | fit hlay hb hL hpre hfit =>
    subst hlay
    rw [List.map_append, List.map_append]
    exact ⟨List.Perm.refl _, Nat.zero_le _, rfl⟩
  | full hno ha => exact ⟨List.Perm.refl _, Nat.zero_le _, rfl⟩
  | @grow phys hno ha =>
    refine ⟨?_, le_refl 1, rfl⟩
    rw [List.map_append, List.map_singleton, range_newHeap]
    exact List.perm_append_singleton _ _

namespace HeapRun

variable {l : ℕ} {w : HeapRun} {lay : List HeapDesc}

/-! ### First fit -/

/-- **First fit.**  With `real` for the rounded size: when some free block of at least `real` bytes
exists, `malloc` takes the first one in the order of the list and of the addresses, asks for no frames
and changes no byte outside that block; it splits the block when its size exceeds `real + 24`.
Otherwise it asks once for `framesFor real` frames: with them it appends a heap whose first block it
takes in the same way, without them it returns `NULL` and no byte has changed.  The block it hands out
has between `real` and `real + 24` bytes. -/
theorem malloc_first_fit (h : Reachable l w) {size : ℕ} {answer : ℕ → Option ℕ}
    (hsize : size ≤ heapBlockSizeMax)
    (hframe : ∀ cnt phys, answer cnt = some phys → FrameAnswer l w.st.calls phys cnt) :
    ∃ lay p st' lay', LayoutAt w.st.mem l lay ∧ LayoutOk l lay ∧
      Outcome.Returns (fun fuel => HeapM.malloc l answer size fuel w.st) (p, st') ∧
      LayoutAt st'.mem l lay' ∧ LayoutOk l lay' ∧
      (∀ L h R pre b post, lay = L ++ h :: R → h.blocks = pre ++ b :: post →
        HeapM.NoFit (realSize size) L → (∀ c ∈ pre, c.fits (realSize size) = false) →
        b.fits (realSize size) = true →
          p = h.payload pre ∧ p ≠ 0 ∧ st'.calls = w.st.calls ∧
          lay' = L ++ { h with blocks := pre ++ takeBlocks (realSize size) b ++ post } :: R ∧
          ∀ x, x < h.blockAddr pre ∨ h.blockAddr pre + b.size ≤ x → st'.mem x = w.st.mem x) ∧
      (HeapM.NoFit (realSize size) lay → ∀ phys, answer (framesFor (realSize size)) = some phys →
        p = (newHeap (realSize size) phys).payload [] ∧ p ≠ 0 ∧
        st'.calls = .alloc (framesFor (realSize size)) (some phys) :: w.st.calls ∧
        lay' = lay ++ [newHeap (realSize size) phys]) ∧
      (HeapM.NoFit (realSize size) lay → answer (framesFor (realSize size)) = none →
        p = 0 ∧ st' = { w.st with calls := .alloc (framesFor (realSize size)) none :: w.st.calls } ∧
        lay' = lay) ∧
      (p = 0 ↔ HeapM.NoFit (realSize size) lay ∧ answer (framesFor (realSize size)) = none) ∧
      (p ≠ 0 → ∃ k, (p, k) ∈ busy lay' ∧ realSize size ≤ k ∧ k ≤ realSize size + 24) := by
  obtain ⟨lay, hi⟩ := h.inv
  obtain ⟨hreal, -, hreal4⟩ := HeapM.realSize_ok hsize
  have hfresh : ∀ phys, answer (framesFor (realSize size)) = some phys →
      FreshRange l lay phys (framesFor (realSize size)) := fun phys ha => hi.fresh (hframe _ phys ha)
  obtain ⟨lay', p, cs, m', hstep, hat', hok', hret, -⟩ := hi.malloc_returns hsize hframe
  -- the outcome of the call is the one of the case it is in
  have hsame : ∀ {lay₁ : List HeapDesc} {p₁ : ℕ} {cs₁ : List HeapCall} {m₁ : Memory},
      Allocates answer (realSize size) lay lay₁ p₁ cs₁ → LayoutAt m₁ l lay₁ →
      Outcome.Returns (fun fuel => HeapM.malloc l answer size fuel w.st)
        (p₁, { w.st with mem := m₁, calls := cs₁ ++ w.st.calls }) →
      p = p₁ ∧ m' = m₁ ∧ cs = cs₁ ∧ lay' = lay₁ := by
    intro lay₁ p₁ cs₁ m₁ hstep₁ hat₁ hret₁
    have heq := hret.unique hret₁
    simp only [Prod.mk.injEq, HeapState.mk.injEq, true_and, List.append_cancel_right_eq] at heq
    obtain ⟨rfl, rfl, rfl⟩ := heq
    exact ⟨rfl, rfl, rfl, hat'.unique hat₁ hok' (hstep₁.ok hi.ok (by omega) hreal4 hfresh)⟩
  refine ⟨lay, p, _, lay', hi.layout, hi.ok, hret, hat', hok', ?_, ?_, ?_, ?_, ?_⟩
  · intro L h R pre b post hlay hb hL hpre hfit
    subst hlay
    obtain ⟨m₁, hat₁, hrun₁, hout⟩ :=
      HeapM.malloc_fit answer hi.layout hi.ok hsize hb hL hpre hfit
    obtain ⟨rfl, rfl, rfl, rfl⟩ :=
      hsame (.fit rfl hb hL hpre hfit) hat₁ (HeapM.returns_of_enough hrun₁)
    exact ⟨rfl, by simp only [HeapDesc.payload]; omega, rfl, rfl, hout⟩
  · intro hno phys ha
    obtain ⟨m₁, hat₁, hrun₁, -⟩ := HeapM.malloc_grow hi.layout hi.ok hsize hno ha (hfresh phys ha)
    obtain ⟨rfl, rfl, rfl, rfl⟩ := hsame (.grow hno ha) hat₁ (HeapM.returns_of_enough hrun₁)
    exact ⟨rfl, by simp only [HeapDesc.payload]; omega, rfl, rfl⟩
  · intro hno ha
    obtain ⟨rfl, rfl, rfl, rfl⟩ := hsame (.full hno ha) hi.layout
      (HeapM.returns_of_enough fun fuel hfuel => HeapM.malloc_full hi.layout hi.ok hsize hno ha hfuel)
    exact ⟨rfl, rfl, rfl⟩
  · constructor
    · intro hp
      cases hstep with
      | fit => simp only [HeapDesc.payload] at hp; omega
      | full hno ha => exact ⟨hno, ha⟩
      | grow => simp only [HeapDesc.payload] at hp; omega
    · rintro ⟨hno, ha⟩
      exact (hsame (.full hno ha) hi.layout (HeapM.returns_of_enough fun fuel hfuel =>
        HeapM.malloc_full hi.layout hi.ok hsize hno ha hfuel)).1
  · intro hp
    rcases hstep.busy_perm with ⟨hp0, -⟩ | ⟨-, k, hperm, hlo, hhi⟩
    · exact absurd hp0 hp
    · exact ⟨k, hperm.mem_iff.mpr (by simp), hlo, hhi⟩

/-- The first `malloc` asks for sixteen frames and returns a pointer into them; the next one takes the
free block of their heap, without a frame, and splits it. -/
theorem malloc_first_fit_growAndSplit :
    (∃ p st',
      Outcome.Returns (fun fuel => HeapM.malloc 0x80001000 sixteenFrames 100 fuel bootRun.st) (p, st') ∧
        p ≠ 0 ∧ st'.calls = [.alloc 16 (some 0x200000)]) ∧
    ∃ w st', Reachable 0x80001000 w ∧
      LayoutAt w.st.mem 0x80001000 [frameHeap [⟨124, false⟩, ⟨65392, true⟩]] ∧
      Outcome.Returns (fun fuel => HeapM.malloc 0x80001000 noFrames 100 fuel w.st)
        (firstPayload + 124, st') ∧
      st'.calls = w.st.calls ∧
      LayoutAt st'.mem 0x80001000 [frameHeap [⟨124, false⟩, ⟨124, false⟩, ⟨65268, true⟩]] := by
  constructor
  · have hreach : Reachable 0x80001000 bootRun := ⟨bootRun, bootRun_init, Relation.ReflTransGen.refl⟩
    have hi := bootRun_init.inv
    obtain ⟨lay, p, st', lay', hat, hok, hret, -, -, -, hgrow, -⟩ :=
      malloc_first_fit hreach hundred_le sixteenFrames_ok
    obtain rfl : lay = [] := hat.unique hi.layout hok hi.ok
    obtain ⟨-, hp, hcalls, -⟩ := hgrow (fun h hh => absurd hh (List.not_mem_nil)) 0x200000
      (by rw [framesFor_hundred, sixteenFrames, if_pos rfl])
    refine ⟨p, st', hret, hp, ?_⟩
    rw [hcalls, framesFor_hundred]
    rfl
  · obtain ⟨w, hreach, hi, -⟩ := firstHeap
    obtain ⟨lay, p, st', lay', hat, hok, hret, hat', -, hfit, -⟩ :=
      malloc_first_fit hreach hundred_le noFrames_ok
    obtain rfl : lay = _ := hat.unique hi.layout hok hi.ok
    -- the first block is taken, the second is free and large enough
    obtain ⟨hp, -, hcalls, rfl, -⟩ := hfit [] (frameHeap [⟨124, false⟩, ⟨65392, true⟩]) []
      [⟨124, false⟩] ⟨65392, true⟩ [] rfl rfl (fun h hh => absurd hh (List.not_mem_nil))
      (fun c hc => by rw [List.mem_singleton.mp hc]; decide) (by decide)
    obtain rfl : p = firstPayload + 124 := by
      rw [hp, firstPayload, newHeap_hundred]
      rfl
    exact ⟨w, st', hreach, hat, hret, hcalls, hat'⟩

/-! ### The inverse of `malloc` -/

/-- **`free` undoes `malloc`.**  Right after a `malloc` that has returned a pointer, its `free` leaves the
layout of before the `malloc`, and the ranges it returns are those the `malloc` was granted. -/
theorem free_undoes_malloc (h : Reachable l w) {size p : ℕ} {answer : ℕ → Option ℕ}
    {answer' : ℕ → ℕ → Errno} {st' : HeapState} (hsize : size ≤ heapBlockSizeMax)
    (hframe : ∀ cnt phys, answer cnt = some phys → FrameAnswer l w.st.calls phys cnt)
    (hrun : Outcome.Returns (fun fuel => HeapM.malloc l answer size fuel w.st) (p, st')) (hp : p ≠ 0)
    (hfree : ∀ r ∈ HeapCall.outstanding st'.calls, answer' r.1 r.2 = .eok) :
    ∃ lay st'' cs ds, LayoutAt w.st.mem l lay ∧ LayoutOk l lay ∧
      HeapM.free answer' p st' = .ok ((), st'') ∧ LayoutAt st''.mem l lay ∧
      st'.calls = cs ++ w.st.calls ∧ st''.calls = ds ++ st'.calls ∧
      HeapCall.returned cs = [] ∧ HeapCall.returned ds = HeapCall.granted cs := by
  obtain ⟨lay, hi⟩ := h.inv
  obtain ⟨lay₁, p₁, cs, m₁, hstep, hat₁, hok₁, hret, -⟩ := hi.malloc_returns hsize hframe
  cases hrun.unique hret
  -- the run goes on with the pointer
  have hi₁ := hi.malloc hsize hstep hat₁ hok₁
  rw [if_neg hp] at hi₁
  obtain ⟨lay₂, ds, m₂, hrel, hat₂, hok₂, hfreed, -⟩ :=
    hi₁.free_returns (show Function.update w.live p (some size) p = some size by simp) hfree
  obtain ⟨es, hundo⟩ := hstep.undone hi.ok hp
  obtain rfl : lay₂ = lay := (hrel.eq_settle hok₁).trans (hundo.eq_settle hok₁).symm
  obtain ⟨hgranted, hone, hnone⟩ := hstep.granted
  refine ⟨lay₂, _, cs, ds, hi.layout, hi.ok, hfreed, hat₂, rfl, rfl, hnone, ?_⟩
  have hperm : (HeapCall.granted cs).Perm (HeapCall.returned ds) :=
    (List.perm_append_right_iff _).mp (hgranted.symm.trans hrel.returned)
  generalize HeapCall.granted cs = gs at hone hperm ⊢
  match gs, hone with
  | [], _ => exact hperm.nil_eq.symm
  | [r], _ => exact List.perm_singleton.mp hperm.symm

/-- A frame allocator that takes every range back. -/
def takesBack (_phys _cnt : ℕ) : Errno := .eok

/-- The frames of the first `malloc` go back with its `free`, and there is no heap again. -/
theorem free_undoes_malloc_boot : ∃ p st' st'',
    Outcome.Returns (fun fuel => HeapM.malloc 0x80001000 sixteenFrames 100 fuel bootRun.st) (p, st') ∧
      HeapM.free takesBack p st' = .ok ((), st'') ∧ LayoutAt st''.mem 0x80001000 [] := by
  have hreach : Reachable 0x80001000 bootRun := ⟨bootRun, bootRun_init, Relation.ReflTransGen.refl⟩
  have hi := bootRun_init.inv
  have hsize : 100 ≤ heapBlockSizeMax := by norm_num [heapBlockSizeMax]
  obtain ⟨lay₁, p, cs, m₁, hstep, -, -, hret, -⟩ := hi.malloc_returns hsize sixteenFrames_ok
  have hp : p ≠ 0 := by
    cases hstep with
    | fit hlay => simp at hlay
    | full hno ha => simp [framesFor_hundred, sixteenFrames] at ha
    | grow hno ha => simp only [HeapDesc.payload]; omega
  have haccept : ∀ r ∈ HeapCall.outstanding (cs ++ bootRun.st.calls), takesBack r.1 r.2 = .eok :=
    fun _ _ => rfl
  obtain ⟨lay, st'', -, -, hat, hok, hfree, hat', -⟩ :=
    free_undoes_malloc hreach hsize sixteenFrames_ok hret hp haccept
  obtain rfl : lay = [] := hat.unique hi.layout hok hi.ok
  exact ⟨p, _, st'', hret, hfree, hat'⟩

/-! ### The order of frees -/

/-- Calls of `free`, one after the other. -/
def freeAll (answer : ℕ → ℕ → Errno) : List ℕ → HeapM Unit
  | [] => pure ()
  | p :: ps => do
    HeapM.free answer p
    freeAll answer ps

/-- **Calls of `free` in a run**, with different pointers that clients hold. -/
theorem HeapInv.freeAll_returns {ps : List ℕ} {answer : ℕ → ℕ → Errno} (hi : HeapInv l w lay)
    (hnd : ps.Nodup) (hlive : ∀ p ∈ ps, ∃ n, w.live p = some n)
    (hfree : ∀ h ∈ lay, answer h.range.1 h.range.2 = .eok) :
    ∃ lay' cs m', ReleasesAll lay ps lay' cs ∧ LayoutAt m' l lay' ∧ LayoutOk l lay' ∧
      freeAll answer ps w.st = .ok ((), { w.st with mem := m', calls := cs ++ w.st.calls }) := by
  induction ps generalizing w lay with
  | nil => exact ⟨lay, [], w.st.mem, .nil, hi.layout, hi.ok, rfl⟩
  | cons p ps ih =>
    obtain ⟨hp, hnd'⟩ := List.nodup_cons.mp hnd
    obtain ⟨n, hn⟩ := hlive p (by simp)
    have hans : ∀ r ∈ HeapCall.outstanding w.st.calls, answer r.1 r.2 = .eok := fun r hr => by
      obtain ⟨h, hh, rfl⟩ := List.mem_map.mp (hi.held.mem_iff.mp hr)
      exact hfree h hh
    obtain ⟨lay₁, cs, m₁, hrel, hat₁, hok₁, hrun₁, -⟩ := hi.free_returns hn hans
    have hi₁ := hi.free hrel hat₁ hok₁
    have hlive₁ : ∀ q ∈ ps, ∃ n, Function.update w.live p none q = some n := fun q hq => by
      rw [Function.update_of_ne (ne_of_mem_of_not_mem hq hp)]
      exact hlive q (by simp [hq])
    -- the heaps that are left are heaps of before
    have hfree₁ : ∀ h ∈ lay₁, answer h.range.1 h.range.2 = .eok := fun h hh => by
      have hmem : h.range ∈ lay.map HeapDesc.range :=
        hrel.returned.mem_iff.mpr (List.mem_append_right _ (List.mem_map_of_mem hh))
      obtain ⟨g, hg, hgr⟩ := List.mem_map.mp hmem
      rw [← hgr]
      exact hfree g hg
    obtain ⟨lay', ds, m', hrest, hat', hok', hrun'⟩ := ih hi₁ hnd' hlive₁ hfree₁
    refine ⟨lay', ds ++ cs, m', .cons hrel hrest, hat', hok', ?_⟩
    simp only [freeAll, HeapM.bind_apply, hrun₁, Outcome.ok_bind]
    rw [hrun', List.append_assoc]

/-- **The order of frees does not matter.**  The blocks of some pointers that clients hold are freed in
two orders: both return, with the same layout and with the same ranges returned. -/
theorem free_order (h : Reachable l w) {ps qs : List ℕ} {answer : ℕ → ℕ → Errno}
    (hnd : ps.Nodup) (hperm : ps.Perm qs) (hlive : ∀ p ∈ ps, ∃ n, w.live p = some n)
    (hfree : ∀ r ∈ HeapCall.outstanding w.st.calls, answer r.1 r.2 = .eok) :
    ∃ lay' s₁ s₂ cs₁ cs₂, freeAll answer ps w.st = .ok ((), s₁) ∧
      freeAll answer qs w.st = .ok ((), s₂) ∧
      LayoutAt s₁.mem l lay' ∧ LayoutAt s₂.mem l lay' ∧ LayoutOk l lay' ∧
      s₁.calls = cs₁ ++ w.st.calls ∧ s₂.calls = cs₂ ++ w.st.calls ∧
      (HeapCall.returned cs₁).Perm (HeapCall.returned cs₂) := by
  obtain ⟨lay, hi⟩ := h.inv
  have hans : ∀ h ∈ lay, answer h.range.1 h.range.2 = .eok := fun h hh =>
    hfree h.range (hi.held.mem_iff.mpr (List.mem_map_of_mem hh))
  obtain ⟨lay₁, cs₁, m₁, hall₁, hat₁, hok₁, hrun₁⟩ := hi.freeAll_returns hnd hlive hans
  obtain ⟨lay₂, cs₂, m₂, hall₂, hat₂, -, hrun₂⟩ := hi.freeAll_returns (hperm.nodup_iff.mp hnd)
    (fun p hp => hlive p (hperm.mem_iff.mpr hp)) hans
  obtain rfl : lay₁ = lay₂ := hall₁.perm hall₂ hperm hi.ok
  refine ⟨lay₁, _, _, cs₁, cs₂, hrun₁, hrun₂, hat₁, hat₂, hok₁, rfl, rfl, ?_⟩
  exact (List.perm_append_right_iff _).mp (hall₁.returned.symm.trans hall₂.returned)

/-- Another sixteen frames. -/
def moreFrames (cnt : ℕ) : Option ℕ := if cnt = 16 then some 0x400000 else none

/-- A client holds two pointers. -/
theorem secondMalloc : ∃ w p q, Reachable 0x80001000 w ∧ p ≠ q ∧ w.live p = some 100 ∧
    w.live q = some 100 := by
  have hsize : 100 ≤ heapBlockSizeMax := by norm_num [heapBlockSizeMax]
  obtain ⟨w, p, hw, hlive, -, hgranted⟩ := firstMalloc
  obtain ⟨lay, hi⟩ := hw.inv
  have hanswer : ∀ cnt phys, moreFrames cnt = some phys →
      FrameAnswer 0x80001000 w.st.calls phys cnt := by
    intro cnt phys ha
    simp only [moreFrames] at ha
    split at ha
    · next hcnt =>
      subst hcnt
      cases ha
      refine ⟨by norm_num, by norm_num, by norm_num, fun r hr => ?_⟩
      have hmem : r ∈ HeapCall.granted w.st.calls :=
        hi.balanced.mem_iff.mpr (List.mem_append_left _ hr)
      rw [hgranted, List.mem_singleton] at hmem
      subst hmem
      norm_num
    · cases ha
  obtain ⟨lay', q, cs, m', hstep, hat, hok, hret, -⟩ := hi.malloc_returns hsize hanswer
  have hq : q ≠ 0 := by
    cases hstep with
    | fit => simp only [HeapDesc.payload]; omega
    | full hno ha => simp [framesFor_hundred, moreFrames] at ha
    | grow => simp only [HeapDesc.payload]; omega
  have hpq : p ≠ q := by
    rcases hstep.busy_perm with ⟨hq0, -⟩ | ⟨-, k, hperm, -⟩
    · exact absurd hq0 hq
    · obtain ⟨j, hj, -⟩ := hi.live p 100 hlive
      have hinj := (hperm.pairwise_iff fun h => Ne.symm h).mp (busy_inj hok)
      exact ((List.pairwise_cons.mp hinj).1 _ hj).symm
  obtain ⟨w₀, hinit, hsteps⟩ := hw
  refine ⟨_, p, q, ⟨w₀, hinit, hsteps.tail (Step.malloc hsize hanswer hret)⟩, hpq, ?_, ?_⟩
  · simp only [hq, if_false, Function.update_of_ne hpq, hlive]
  · simp only [hq, if_false, Function.update_self]

/-- Two pointers freed in both orders. -/
theorem free_order_two : ∃ w p q, Reachable 0x80001000 w ∧ p ≠ q ∧
    ∃ lay' s₁ s₂, freeAll takesBack [p, q] w.st = .ok ((), s₁) ∧
      freeAll takesBack [q, p] w.st = .ok ((), s₂) ∧
      LayoutAt s₁.mem 0x80001000 lay' ∧ LayoutAt s₂.mem 0x80001000 lay' := by
  obtain ⟨w, p, q, hw, hpq, hp, hq⟩ := secondMalloc
  have hlive : ∀ r ∈ [p, q], ∃ n, w.live r = some n := fun r hr => by
    rcases List.mem_cons.mp hr with rfl | hr
    · exact ⟨100, hp⟩
    · exact ⟨100, List.mem_singleton.mp hr ▸ hq⟩
  have haccept : ∀ r ∈ HeapCall.outstanding w.st.calls, takesBack r.1 r.2 = .eok := fun _ _ => rfl
  obtain ⟨lay', s₁, s₂, -, -, h₁, h₂, hat₁, hat₂, -⟩ :=
    free_order hw (by simpa using hpq) (List.Perm.swap q p []) hlive haccept
  exact ⟨w, p, q, hw, hpq, lay', s₁, s₂, h₁, h₂, hat₁, hat₂⟩

end HeapRun

end Kalisto
