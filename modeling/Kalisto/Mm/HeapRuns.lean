import Kalisto.Mm.FreeSpec

/-!
# Runs of the kernel heap

A run starts with `heap_init` and makes calls of `malloc` and `free` in any order, with clients that
write inside their own payloads in between.  `HeapRun` is the state of a run: the memory with its
records, and the pointers that clients hold with the sizes they asked for.

The frame allocator is code outside the repository.  `FrameAnswer` is what is known of a range that
`frame_alloc` hands out, and `frame_free` is known to succeed on ranges that are still out.

* `HeapInv` — the invariant: the memory holds a layout, the allocated blocks are the pointers the
  clients hold, and the frame ranges that are out are those of the heaps;
* `Reachable.inv` — it holds in every run;
* `heap_representation`, `heap_client_contract`, `heap_no_leak` — what follows.
-/

namespace Kalisto

/-! ### Frame ranges -/

namespace HeapCall

/-- The ranges that `frame_alloc` handed out, as address and number of frames. -/
def granted : List HeapCall → List (ℕ × ℕ)
  | [] => []
  | .alloc cnt (some phys) :: cs => (phys, cnt) :: granted cs
  | .alloc _ none :: cs => granted cs
  | .free _ _ :: cs => granted cs

/-- The ranges that were passed to `frame_free`. -/
def returned : List HeapCall → List (ℕ × ℕ)
  | [] => []
  | .alloc _ _ :: cs => returned cs
  | .free phys cnt :: cs => (phys, cnt) :: returned cs

/-- The ranges that were handed out and not got back. -/
def outstanding : List HeapCall → List (ℕ × ℕ)
  | [] => []
  | .alloc cnt (some phys) :: cs => (phys, cnt) :: outstanding cs
  | .alloc _ none :: cs => outstanding cs
  | .free phys cnt :: cs => (outstanding cs).erase (phys, cnt)

end HeapCall

/-- What `frame_alloc` guarantees when it answers with a range: it is aligned, can be addressed through
KSEG0, and is disjoint from the data of the kernel image, here `heap_list`, and from every range that
is out. -/
structure FrameAnswer (l : ℕ) (calls : List HeapCall) (phys cnt : ℕ) : Prop where
  aligned : phys % 4096 = 0
  inKseg0 : phys + cnt * 4096 ≤ 0x20000000
  kernelApart : l + 8 ≤ 0x80000000 + phys ∨ 0x80000000 + phys + cnt * 4096 ≤ l
  disjoint : ∀ r ∈ HeapCall.outstanding calls, r.1 + r.2 * 4096 ≤ phys ∨ phys + cnt * 4096 ≤ r.1

/-! ### Allocated blocks -/

/-- The allocated blocks of a row from address `a` on: payload and size. -/
def rowBusy : ℕ → List Block → List (ℕ × ℕ)
  | _, [] => []
  | a, b :: bs => if b.free then rowBusy (a + b.size) bs else (a + 16, b.size) :: rowBusy (a + b.size) bs

/-- The allocated blocks of a layout. -/
def busy (lay : List HeapDesc) : List (ℕ × ℕ) := lay.flatMap fun h => rowBusy h.start h.blocks

theorem rowBusy_append (a : ℕ) (bs cs : List Block) :
    rowBusy a (bs ++ cs) = rowBusy a bs ++ rowBusy (a + total bs) cs := by
  induction bs generalizing a with
  | nil => simp [rowBusy]
  | cons b bs ih =>
    simp only [List.cons_append, rowBusy, ih, total_cons, Nat.add_assoc]
    split <;> rfl

theorem rowBusy_free {bs : List Block} (h : ∀ b ∈ bs, b.free = true) (a : ℕ) :
    rowBusy a bs = [] := by
  induction bs generalizing a with
  | nil => rfl
  | cons b bs ih =>
    simp only [rowBusy, h b (by simp), if_true]
    exact ih (fun c hc => h c (by simp [hc])) _

theorem mem_rowBusy {a p k : ℕ} {bs : List Block} :
    (p, k) ∈ rowBusy a bs ↔
      ∃ pre b post, bs = pre ++ b :: post ∧ b.free = false ∧ p = a + total pre + 16 ∧ k = b.size := by
  induction bs generalizing a with
  | nil => simp [rowBusy]
  | cons c bs ih =>
    have hstep : (∃ pre b post, c :: bs = pre ++ b :: post ∧ b.free = false ∧
        p = a + total pre + 16 ∧ k = b.size) ↔ (c.free = false ∧ p = a + 16 ∧ k = c.size) ∨
        ∃ pre b post, bs = pre ++ b :: post ∧ b.free = false ∧
          p = a + c.size + total pre + 16 ∧ k = b.size := by
      constructor
      · rintro ⟨pre, b, post, hb, h1, h2, h3⟩
        cases pre with
        | nil =>
          simp only [List.nil_append, List.cons.injEq] at hb
          obtain ⟨rfl, rfl⟩ := hb
          exact Or.inl ⟨h1, by simpa using h2, h3⟩
        | cons d pre =>
          simp only [List.cons_append, List.cons.injEq] at hb
          obtain ⟨rfl, rfl⟩ := hb
          simp only [total_cons] at h2
          exact Or.inr ⟨pre, b, post, rfl, h1, by omega, h3⟩
      · rintro (⟨h1, h2, h3⟩ | ⟨pre, b, post, rfl, h1, h2, h3⟩)
        · exact ⟨[], c, bs, rfl, h1, by simpa using h2, h3⟩
        · refine ⟨c :: pre, b, post, rfl, h1, ?_, h3⟩
          simp only [total_cons]
          omega
    rw [hstep, ← ih]
    simp only [rowBusy]
    cases c.free <;> simp

theorem mem_busy {lay : List HeapDesc} {p k : ℕ} :
    (p, k) ∈ busy lay ↔ ∃ h pre b post, BlockPos lay h pre b post ∧ b.free = false ∧
      p = h.payload pre ∧ k = b.size := by
  simp only [busy, List.mem_flatMap, mem_rowBusy]
  constructor
  · rintro ⟨h, hh, pre, b, post, hb, h1, h2, h3⟩
    exact ⟨h, pre, b, post, ⟨hh, hb⟩, h1, h2, h3⟩
  · rintro ⟨h, pre, b, post, ⟨hh, hb⟩, h1, h2, h3⟩
    exact ⟨h, hh, pre, b, post, hb, h1, h2, h3⟩

theorem busy_append (L R : List HeapDesc) : busy (L ++ R) = busy L ++ busy R := by
  simp [busy]

theorem busy_cons (h : HeapDesc) (R : List HeapDesc) :
    busy (h :: R) = rowBusy h.start h.blocks ++ busy R := by
  simp [busy]

/-- The pointers of a row increase. -/
theorem rowBusy_sorted {bs : List Block} (hok : ∀ b ∈ bs, b.Ok) (a : ℕ) :
    (rowBusy a bs).Pairwise (fun x y => x.1 < y.1) ∧ ∀ x ∈ rowBusy a bs, a + 16 ≤ x.1 := by
  induction bs generalizing a with
  | nil => simp [rowBusy]
  | cons b bs ih =>
    obtain ⟨h1, h2⟩ := ih (fun c hc => hok c (by simp [hc])) (a + b.size)
    have hb := (hok b (by simp)).1
    simp only [rowBusy]
    split
    · exact ⟨h1, fun x hx => by have := h2 x hx; omega⟩
    · refine ⟨List.pairwise_cons.mpr ⟨fun x hx => ?_, h1⟩, fun x hx => ?_⟩
      · have := h2 x hx
        simp only
        omega
      · rcases List.mem_cons.mp hx with rfl | hx
        · simp
        · have := h2 x hx
          omega

/-- A pointer belongs to one allocated block. -/
theorem busy_inj {l : ℕ} {lay : List HeapDesc} (hok : LayoutOk l lay) :
    (busy lay).Pairwise (fun x y => x.1 ≠ y.1) := by
  refine List.pairwise_flatMap.mpr ⟨fun h hh => ?_, ?_⟩
  · exact ((rowBusy_sorted (hok.heaps h hh).blocks h.start).1).imp fun hlt => Nat.ne_of_lt hlt
  · refine hok.apart.imp_of_mem fun {g h} hg hh hap x hx y hy => ?_
    obtain ⟨p, k⟩ := x
    obtain ⟨q, j⟩ := y
    obtain ⟨pre, b, post, hb, -, rfl, -⟩ := mem_rowBusy.mp hx
    obtain ⟨pre', c, post', hc, -, rfl, -⟩ := mem_rowBusy.mp hy
    obtain ⟨hb1, hb2, hb3, -⟩ := (hok.heaps g hg).block hb
    obtain ⟨hc1, hc2, hc3, -⟩ := (hok.heaps h hh).block hc
    have h1 := hb1.1
    have h2 := hc1.1
    simp only [HeapDesc.Apart, HeapDesc.blockAddr, HeapDesc.start] at *
    omega

/-- The layout does not depend on the bytes of payloads. -/
theorem LayoutAt.setPayload {m : Memory} {l p x : ℕ} {lay : List HeapDesc} (hat : LayoutAt m l lay)
    (hok : LayoutOk l lay) (hx : InPayload lay p x) (v : Byte) : LayoutAt (m.setByte x v) l lay := by
  obtain ⟨h, pre, b, post, ⟨hmem, hb⟩, -, rfl, h1, h2⟩ := hx
  obtain ⟨L, R, rfl⟩ := List.append_of_mem hmem
  have hh := hat.heaps h hmem
  have hin := hh.blockIn hok.heap hb
  obtain ⟨hbok, hlo, hhi, -⟩ := hok.heap.block hb
  simp only [HeapDesc.payload] at h1
  have hblocks : BlocksAt (m.setByte x v) h.base h.start h.blocks := by
    have hold := hh.blocks
    have hsplit : h.blocks = pre ++ [b] ++ post := by simp [hb]
    rw [hsplit] at hold ⊢
    refine hold.replace (fun c hc => hok.heap.blocks c (by rw [hb]; simp [hc]))
      (fun c hc => hok.heap.blocks c (by rw [hb]; simp [hc])) rfl ⟨?_, trivial⟩ fun y hy => ?_
    · exact hin.block.congr hbok.1 fun y hy =>
        Memory.setByte_of_ne (by simp only [MetaByte] at hy; omega)
    · refine Memory.setByte_of_ne ?_
      simp only [HeapDesc.blockAddr, total_cons, total_nil] at h1 h2 hy
      omega
  exact hat.replace hok hblocks fun y hy => Memory.setByte_of_ne (by omega)

/-- The bytes of the payloads of the allocated blocks. -/
theorem inPayload_iff {lay : List HeapDesc} {p x : ℕ} :
    InPayload lay p x ↔ ∃ k, (p, k) ∈ busy lay ∧ p ≤ x ∧ x + 24 < p + k := by
  constructor
  · rintro ⟨h, pre, b, post, hpos, hf, rfl, h1, h2⟩
    refine ⟨b.size, mem_busy.mpr ⟨h, pre, b, post, hpos, hf, rfl, rfl⟩, h1, ?_⟩
    simp only [HeapDesc.payload]
    omega
  · rintro ⟨k, hk, h1, h2⟩
    obtain ⟨h, pre, b, post, hpos, hf, rfl, rfl⟩ := mem_busy.mp hk
    refine ⟨h, pre, b, post, hpos, hf, rfl, h1, ?_⟩
    simp only [HeapDesc.payload] at h2
    omega

/-- A byte belongs to one payload only. -/
theorem InPayload.unique {l : ℕ} {lay : List HeapDesc} (hok : LayoutOk l lay) {p q x : ℕ}
    (hp : InPayload lay p x) (hq : InPayload lay q x) : p = q := by
  obtain ⟨h, pre, b, post, ⟨hmem, hb⟩, -, rfl, h1, h2⟩ := hp
  obtain ⟨L, R, rfl⟩ := List.append_of_mem hmem
  simp only [HeapDesc.payload] at h1
  obtain ⟨o1, c, o2, hone, -, rfl⟩ := hq.mem_stretch hok
    (show h.blocks = pre ++ [b] ++ post by simp [hb]) (by omega)
    (by simp only [total_cons, total_nil]; omega)
  cases o1 with
  | nil => rw [List.append_nil]
  | cons d o1 => simp at hone

/-- The byte `x` is in a header, a footer or a `heap_t`. -/
def Metadata (lay : List HeapDesc) (x : ℕ) : Prop :=
  (∃ h ∈ lay, h.base ≤ x ∧ x < h.base + 20) ∨
    ∃ h pre b post, BlockPos lay h pre b post ∧ MetaByte (h.blockAddr pre) b.size x

/-- A byte of a payload is no metadata. -/
theorem InPayload.not_metadata {l : ℕ} {lay : List HeapDesc} (hok : LayoutOk l lay) {p x : ℕ}
    (hx : InPayload lay p x) : ¬ Metadata lay x := by
  obtain ⟨h, pre, b, post, ⟨hmem, hb⟩, -, rfl, h1, h2⟩ := hx
  obtain ⟨-, hlo, hhi, -⟩ := (hok.heaps h hmem).block hb
  simp only [HeapDesc.payload] at h1
  have hin : ∀ g ∈ lay, g.base ≤ x → x < g.stop → g = h := by
    intro g hg h3 h4
    obtain ⟨L, R, rfl⟩ := List.append_of_mem hmem
    rcases hok.eq_or_apart hg with rfl | hap
    · rfl
    · simp only [HeapDesc.Apart, HeapDesc.start] at hap hlo
      omega
  rintro (⟨g, hg, h3, h4⟩ | ⟨g, pre', c, post', ⟨hg, hgb⟩, hmeta⟩)
  · have hroom := (hok.heaps g hg).tiled
    simp only [HeapDesc.start] at hroom
    rw [hin g hg h3 (by omega)] at h4
    simp only [HeapDesc.start] at hlo
    omega
  · obtain ⟨hc, hg1, hg2, -⟩ := (hok.heaps g hg).block hgb
    have hc24 := hc.1
    simp only [MetaByte] at hmeta
    obtain rfl := hin g hg (by simp only [HeapDesc.start] at hg1; omega) (by omega)
    -- two blocks of one heap with a common byte are one block
    by_cases hpre : pre = pre'
    · subst hpre
      have hbc := List.append_cancel_left (hb.symm.trans hgb)
      cases hbc
      omega
    · have hap := blocks_apart (hb.symm.trans hgb) hpre
      simp only [HeapDesc.blockAddr] at *
      omega

/-! ### How the allocated blocks change -/

/-- The block that `malloc` hands out. -/
theorem rowBusy_takeBlocks (real a : ℕ) {b : Block} (hfit : real ≤ b.size) :
    ∃ k, rowBusy a (takeBlocks real b) = [(a + 16, k)] ∧ real ≤ k ∧ k ≤ real + 24 := by
  simp only [takeBlocks]
  split
  · exact ⟨real, by simp [rowBusy], le_rfl, by omega⟩
  · exact ⟨b.size, by simp [rowBusy], hfit, by omega⟩

/-- **`malloc` adds one allocated block**, if it does not return `NULL`. -/
theorem Allocates.busy_perm {answer : ℕ → Option ℕ} {real p : ℕ} {lay lay' : List HeapDesc}
    {cs : List HeapCall} (h : Allocates answer real lay lay' p cs) :
    (p = 0 ∧ lay' = lay) ∨
      (p ≠ 0 ∧ ∃ k, (busy lay').Perm ((p, k) :: busy lay) ∧ real ≤ k ∧ k ≤ real + 24) := by
  cases h with
  | @fit L R h pre post b hlay hb hL hpre hfit =>
    right
    subst hlay
    simp only [Block.fits, Bool.and_eq_true, decide_eq_true_eq] at hfit
    obtain ⟨k, hk, hk1, hk2⟩ := rowBusy_takeBlocks real (h.start + total pre) hfit.2
    refine ⟨by simp only [HeapDesc.payload]; omega, k, ?_, hk1, hk2⟩
    have hfree : rowBusy (h.start + total pre) [b] = [] := rowBusy_free (by simp [hfit.1]) _
    have hold : h.blocks = pre ++ [b] ++ post := by simp [hb]
    have hst : ({ h with blocks := pre ++ takeBlocks real b ++ post } : HeapDesc).start =
        h.start := rfl
    simp only [busy_append, busy_cons, hst, hold, rowBusy_append, hk, hfree, total_append,
      total_takeBlocks, total_cons, total_nil, Nat.add_zero, List.append_nil]
    have hp : h.payload pre = h.start + total pre + 16 := rfl
    rw [hp]
    simp only [List.append_assoc]
    refine List.Perm.trans (List.Perm.append_left _ ?_) List.perm_middle
    exact List.perm_middle
  | full hno ha => exact Or.inl ⟨rfl, rfl⟩
  | @grow phys hno ha =>
    right
    obtain ⟨k, hk, hk1, hk2⟩ := rowBusy_takeBlocks real (newHeap real phys).start
      (show real ≤ (⟨framesFor real * 4096 - 20, true⟩ : Block).size by
        have := framesFor_room real
        simp only
        omega)
    refine ⟨by simp only [HeapDesc.payload]; omega, k, ?_, hk1, hk2⟩
    have hnew : busy [newHeap real phys] = [((newHeap real phys).payload [], k)] := by
      simp only [busy, List.flatMap_cons, List.flatMap_nil, List.append_nil]
      exact hk
    rw [busy_append, hnew]
    exact List.perm_append_singleton _ _

/-- **`free` takes away the block it was called with.** -/
theorem Releases.busy_perm {lay lay' : List HeapDesc} {p : ℕ} {cs : List HeapCall}
    (h : Releases lay p lay' cs) : ∃ k, (busy lay).Perm ((p, k) :: busy lay') := by
  -- the heap with the freed block, and what is left of it
  have key : ∀ (h : HeapDesc) (pre post : List Block) (b : Block), b.free = false →
      h.blocks = pre ++ b :: post → (rowBusy h.start h.blocks).Perm
        ((h.payload pre, b.size) :: rowBusy h.start (freeBlocks pre b post)) := by
    intro h pre post b hfree hb
    obtain ⟨pre', o1, o2, post', rfl, rfl, hnext, hprev, ho, -, -⟩ := join_eq pre b post
    have h1 : ∀ a, rowBusy a o1 = [] := rowBusy_free fun c hc => ho c (by simp [hc])
    have h2 : ∀ a, rowBusy a o2 = [] := rowBusy_free fun c hc => ho c (by simp [hc])
    have hp : h.payload (pre' ++ o1) = h.start + (total pre' + total o1) + 16 := by
      simp [HeapDesc.payload, HeapDesc.blockAddr]
    have hend : h.start + (total pre' + total o1) + b.size + total o2 =
        h.start + total pre' + (total o1 + (b.size + total o2)) := by omega
    simp only [hb, freeBlocks, hnext, hprev, rowBusy_append, h1, h2, rowBusy, hfree, if_true,
      Bool.false_eq_true, if_false, List.append_nil, List.nil_append, total_append, hp, hend]
    exact List.perm_middle
  cases h with
  | @keep L R h pre post b hlay hb hfree hp hne =>
    subst hlay hp
    refine ⟨b.size, ?_⟩
    simp only [busy_append, busy_cons]
    refine List.Perm.trans (List.Perm.append_left _ ((key _ _ _ _ hfree hb).append_right _)) ?_
    exact List.perm_middle
  | @drop L R h pre post b n hlay hb hfree hp hone =>
    subst hlay hp
    refine ⟨b.size, ?_⟩
    have hk := key _ _ _ _ hfree hb
    have hnil : rowBusy h.start [⟨n, true⟩] = [] := rowBusy_free (by simp) _
    rw [hone, hnil] at hk
    simp only [busy_append, busy_cons]
    refine List.Perm.trans (List.Perm.append_left _ (hk.append_right _)) ?_
    exact List.perm_middle

/-- The frames of a heap, as address and number. -/
def HeapDesc.range (h : HeapDesc) : ℕ × ℕ := (h.base - 0x80000000, h.frames)

theorem HeapDesc.range_fst (h : HeapDesc) : h.range.1 = h.base - 0x80000000 := (rfl)

theorem HeapDesc.range_snd (h : HeapDesc) : h.range.2 = h.frames := (rfl)

theorem HeapDesc.range_eq {h : HeapDesc} {phys : ℕ} (hbase : h.base = 0x80000000 + phys) :
    h.range = (phys, h.frames) := by
  have hsub : h.base - 0x80000000 = phys := by omega
  exact congrArg (fun a => (a, h.frames)) hsub

theorem range_newHeap (real phys : ℕ) : (newHeap real phys).range = (phys, framesFor real) :=
  HeapDesc.range_eq (h := newHeap real phys) (by rw [newHeap])

/-- The records of the ranges before and after `malloc`. -/
theorem Allocates.frames {answer : ℕ → Option ℕ} {real p : ℕ} {lay lay' : List HeapDesc}
    {cs calls : List HeapCall} (h : Allocates answer real lay lay' p cs)
    (hheld : (HeapCall.outstanding calls).Perm (lay.map HeapDesc.range))
    (hbal : (HeapCall.granted calls).Perm (HeapCall.outstanding calls ++ HeapCall.returned calls)) :
    (HeapCall.outstanding (cs ++ calls)).Perm (lay'.map HeapDesc.range) ∧
      (HeapCall.granted (cs ++ calls)).Perm
        (HeapCall.outstanding (cs ++ calls) ++ HeapCall.returned (cs ++ calls)) := by
  cases h with
  | fit hlay hb hL hpre hfit =>
    subst hlay
    refine ⟨?_, hbal⟩
    rw [List.map_append, List.map_cons] at hheld ⊢
    exact hheld
  | full hno ha => exact ⟨hheld, hbal⟩
  | @grow phys hno ha =>
    refine ⟨?_, hbal.cons _⟩
    rw [List.map_append, List.map_singleton, range_newHeap]
    exact (hheld.cons _).trans (List.perm_append_singleton _ _).symm

/-- **The free block at the end of the only heap** is taken when those before it are not free. -/
theorem Allocates.tail {answer : ℕ → Option ℕ} {real p n : ℕ} {g : HeapDesc} {lay' : List HeapDesc}
    {pre : List Block} {cs : List HeapCall} (h : Allocates answer real [g] lay' p cs)
    (hblocks : g.blocks = pre ++ [⟨n, true⟩]) (hpre : ∀ b ∈ pre, b.free = false) (hn : real + 24 < n) :
    lay' = [{ g with blocks := pre ++ [⟨real, false⟩, ⟨n - real, true⟩] }] ∧ p = g.payload pre ∧ cs = [] := by
  have hnofit : HeapM.NoFit real [g] → False := fun hno => by
    have hlast := hno g (by simp) ⟨n, true⟩ (by simp [hblocks])
    simp only [Block.fits, Bool.true_and, decide_eq_false_iff_not] at hlast
    omega
  cases h with
  | @fit L R h pre' post b hlay hb hL hpre' hfit =>
    obtain ⟨rfl, rfl, rfl⟩ : L = [] ∧ h = g ∧ R = [] := by
      cases L with
      | nil => simpa [eq_comm] using hlay
      | cons f L => simp at hlay
    have hfree : b.free = true := by
      simp only [Block.fits, Bool.and_eq_true] at hfit
      exact hfit.1
    obtain ⟨rfl, rfl, rfl⟩ : pre' = pre ∧ b = ⟨n, true⟩ ∧ post = [] := by
      rcases List.append_eq_append_iff.mp (hb.symm.trans hblocks) with ⟨as, rfl, has⟩ | ⟨as, rfl, has⟩
      · cases as with
        | nil => simpa using has
        | cons c as =>
          -- a block before the last one is not free
          obtain ⟨rfl, -⟩ : b = c ∧ _ := by simpa using has
          simp [hpre b (by simp)] at hfree
      · cases as with
        | nil => simpa using has.symm
        | cons c as => simp at has
    refine ⟨?_, rfl, rfl⟩
    simp only [takeBlocks, if_pos hn, List.nil_append, List.append_nil]
  | full hno ha => exact (hnofit hno).elim
  | grow hno ha => exact (hnofit hno).elim

/-- The first heap. -/
theorem Allocates.first {answer : ℕ → Option ℕ} {real p phys : ℕ} {lay' : List HeapDesc}
    {cs : List HeapCall} (h : Allocates answer real [] lay' p cs) (ha : answer (framesFor real) = some phys) :
    lay' = [newHeap real phys] ∧ p = (newHeap real phys).payload [] ∧
      cs = [.alloc (framesFor real) (some phys)] := by
  cases h with
  | fit hlay => simp at hlay
  | full hno ha' =>
    rw [ha] at ha'
    cases ha'
  | grow hno ha' =>
    rw [ha] at ha'
    cases ha'
    exact ⟨rfl, rfl, rfl⟩

/-- A request that no block fits fails without frames. -/
theorem Allocates.refused {answer : ℕ → Option ℕ} {real p : ℕ} {lay lay' : List HeapDesc}
    {cs : List HeapCall} (h : Allocates answer real lay lay' p cs) (hno : HeapM.NoFit real lay)
    (ha : answer (framesFor real) = none) : p = 0 := by
  cases h with
  | @fit L R g pre post b hlay hb hL hpre hfit =>
    subst hlay
    rw [hno g (by simp) b (by simp [hb])] at hfit
    cases hfit
  | full => rfl
  | grow hno' ha' =>
    rw [ha] at ha'
    cases ha'

/-- The records of the ranges before and after `free`. -/
theorem Releases.frames {lay lay' : List HeapDesc} {p : ℕ} {cs calls : List HeapCall}
    (h : Releases lay p lay' cs)
    (hheld : (HeapCall.outstanding calls).Perm (lay.map HeapDesc.range))
    (hbal : (HeapCall.granted calls).Perm (HeapCall.outstanding calls ++ HeapCall.returned calls)) :
    (HeapCall.outstanding (cs ++ calls)).Perm (lay'.map HeapDesc.range) ∧
      (HeapCall.granted (cs ++ calls)).Perm
        (HeapCall.outstanding (cs ++ calls) ++ HeapCall.returned (cs ++ calls)) := by
  cases h with
  | keep hlay hb hfree hp hne =>
    subst hlay
    refine ⟨?_, hbal⟩
    rw [List.map_append, List.map_cons] at hheld ⊢
    exact hheld
  | @drop L R h pre post b n hlay hb hfree hp hone =>
    subst hlay
    have hr : (HeapCall.free (h.base - 0x80000000) h.frames) = .free h.range.1 h.range.2 := (rfl)
    rw [hr]
    rw [List.map_append, List.map_cons] at hheld
    have hfirst := hheld.trans List.perm_middle
    have hmem : h.range ∈ HeapCall.outstanding calls := hfirst.mem_iff.mpr (by simp)
    have hout := List.perm_cons_erase hmem
    constructor
    · rw [List.map_append]
      exact (hout.symm.trans hfirst).cons_inv
    · refine hbal.trans ((hout.append_right _).trans ?_)
      exact List.perm_middle.symm

/-! ### Runs -/

/-- A run: the memory with its records, and the pointers of the clients with the requested sizes. -/
structure HeapRun where
  st : HeapState
  live : ℕ → Option ℕ

namespace HeapRun

/-- One step of a run. -/
inductive Step (l : ℕ) : HeapRun → HeapRun → Prop
  /-- A call of `malloc`; the client keeps a pointer that is not `NULL`. -/
  | malloc {w : HeapRun} {size p : ℕ} {answer : ℕ → Option ℕ} {st' : HeapState}
      (hsize : size ≤ heapBlockSizeMax)
      (hframe : ∀ cnt phys, answer cnt = some phys → FrameAnswer l w.st.calls phys cnt)
      (hrun : Outcome.Returns (fun fuel => HeapM.malloc l answer size fuel w.st) (p, st')) :
      Step l w ⟨st', if p = 0 then w.live else Function.update w.live p (some size)⟩
  /-- A call of `free` with a pointer that a client holds. -/
  | free {w : HeapRun} {size p : ℕ} {answer : ℕ → ℕ → Errno} {st' : HeapState}
      (hlive : w.live p = some size)
      (hframe : ∀ r ∈ HeapCall.outstanding w.st.calls, answer r.1 r.2 = .eok)
      (hrun : HeapM.free answer p w.st = .ok ((), st')) :
      Step l w ⟨st', Function.update w.live p none⟩
  /-- A client writes a byte of its payload. -/
  | write {w : HeapRun} {size p x : ℕ} {v : Byte} (hlive : w.live p = some size) (h1 : p ≤ x)
      (h2 : x < p + size) :
      Step l w ⟨{ w.st with mem := w.st.mem.setByte x v }, w.live⟩

/-- The state after `heap_init`: no pointer was handed out and the frame allocator not called. -/
def Init (l : ℕ) (w : HeapRun) : Prop :=
  l % 4 = 0 ∧ 0 < l ∧ l + 8 ≤ 2 ^ 32 ∧ (w.live = fun _ => none) ∧
    ∃ s : HeapState, s.wrapped = false ∧ s.calls = [] ∧ HeapM.heapInit l s = .ok ((), w.st)

/-- The states of runs with `heap_list` at `l`. -/
def Reachable (l : ℕ) (w : HeapRun) : Prop := ∃ w₀, Init l w₀ ∧ Relation.ReflTransGen (Step l) w₀ w

/-! ### The invariant -/

/-- The invariant of runs. -/
structure HeapInv (l : ℕ) (w : HeapRun) (lay : List HeapDesc) : Prop where
  layout : LayoutAt w.st.mem l lay
  ok : LayoutOk l lay
  noWrap : w.st.wrapped = false
  /-- A pointer of a client is an allocated block with room for the requested size. -/
  live : ∀ p n, w.live p = some n → ∃ k, (p, k) ∈ busy lay ∧ n + 24 ≤ k
  /-- An allocated block is the pointer of a client. -/
  busy : ∀ p k, (p, k) ∈ busy lay → ∃ n, w.live p = some n
  /-- The ranges that are out are those of the heaps. -/
  held : (HeapCall.outstanding w.st.calls).Perm (lay.map HeapDesc.range)
  balanced : (HeapCall.granted w.st.calls).Perm
    (HeapCall.outstanding w.st.calls ++ HeapCall.returned w.st.calls)

theorem heapInit_apply {l : ℕ} (h1 : l % 4 = 0) (h2 : 0 < l) (h3 : l + 8 ≤ 2 ^ 32)
    (s : HeapState) :
    HeapM.heapInit l s = .ok ((), { s with mem := (s.mem.setWord l l).setWord (l + 4) l }) := by
  have hne : (l != 0) = true := by simp; omega
  simp only [HeapM.heapInit, HeapM.listInit, HeapM.bind_apply, hne, HeapM.assert_true,
    Outcome.ok_bind, HeapM.store_apply (show l + 0 < 2 ^ 32 by omega) (show (l + 0) % 4 = 0 by omega),
    HeapM.store_apply (show l + 4 < 2 ^ 32 by omega) (show (l + 4) % 4 = 0 by omega), Nat.add_zero]

/-- **`heap_init`** makes an empty list. -/
theorem Init.inv {l : ℕ} {w : HeapRun} (h : Init l w) : HeapInv l w [] := by
  obtain ⟨h1, h2, h3, hlive, s, hw, hcalls, hinit⟩ := h
  rw [heapInit_apply h1 h2 h3] at hinit
  simp only [Outcome.ok.injEq, Prod.mk.injEq, true_and] at hinit
  have hlt : l % 2 ^ 32 = l := Nat.mod_eq_of_lt (by omega)
  refine ⟨⟨⟨⟨?_, ?_⟩, by simp⟩, by simp⟩, ⟨h1, ⟨h2, h3⟩, by simp, by simp, by simp⟩, ?_, ?_, ?_, ?_, ?_⟩
  · rw [← hinit]
    simp only [linksOf, Memory.word_setWord_self, hlt]
    exact HeapM.ptr_of_pos h2
  · rw [← hinit]
    simp only [linksOf]
    rw [Memory.word_setWord_of_ne (by omega) (by omega) (by omega), Memory.word_setWord_self, hlt]
    exact HeapM.ptr_of_pos h2
  · rw [← hinit]
    exact hw
  · simp [hlive]
  · simp [Kalisto.busy]
  · rw [← hinit]
    simp [hcalls, HeapCall.outstanding]
  · rw [← hinit]
    simp [hcalls, HeapCall.outstanding, HeapCall.granted, HeapCall.returned]

/-- A range that `frame_alloc` hands out is apart from the heaps. -/
theorem HeapInv.fresh {l : ℕ} {w : HeapRun} {lay : List HeapDesc} (hi : HeapInv l w lay)
    {phys cnt : ℕ} (hf : FrameAnswer l w.st.calls phys cnt) : FreshRange l lay phys cnt := by
  refine ⟨hf.aligned, hf.inKseg0, hf.kernelApart, fun h hh => ?_⟩
  have hmem : h.range ∈ HeapCall.outstanding w.st.calls :=
    hi.held.mem_iff.mpr (List.mem_map_of_mem (f := HeapDesc.range) hh)
  have hdis := hf.disjoint _ hmem
  have hlo := (hi.ok.heaps h hh).inKseg0.1
  rw [HeapDesc.range_fst, HeapDesc.range_snd] at hdis
  simp only [HeapDesc.stop]
  omega

/-- **`malloc` in a run.**  It returns, and the state after it is that of `Allocates`. -/
theorem HeapInv.malloc_returns {l : ℕ} {w : HeapRun} {lay : List HeapDesc} (hi : HeapInv l w lay)
    {size : ℕ} {answer : ℕ → Option ℕ} (hsize : size ≤ heapBlockSizeMax)
    (hframe : ∀ cnt phys, answer cnt = some phys → FrameAnswer l w.st.calls phys cnt) :
    ∃ lay' p cs m', Allocates answer (realSize size) lay lay' p cs ∧ LayoutAt m' l lay' ∧
      LayoutOk l lay' ∧
      Outcome.Returns (fun fuel => HeapM.malloc l answer size fuel w.st)
        (p, { w.st with mem := m', calls := cs ++ w.st.calls }) ∧
      (∀ q x, InPayload lay q x → m' x = w.st.mem x) ∧
      ∀ x, OutsideHeaps l lay' x → m' x = w.st.mem x := by
  obtain ⟨lay', p, cs, m', h1, h2, h3, h4, h5⟩ := HeapM.malloc_spec hi.layout hi.ok hsize
    fun phys ha => hi.fresh (hframe _ phys ha)
  exact ⟨lay', p, cs, m', h1, h2, h3, HeapM.returns_of_enough h4, h5⟩

/-- A request that some free block fits is granted. -/
theorem HeapInv.malloc_ne_zero {l : ℕ} {w : HeapRun} {lay : List HeapDesc} (hi : HeapInv l w lay)
    {size r : ℕ} {answer : ℕ → Option ℕ} {st' : HeapState} {h : HeapDesc} {b : Block}
    (hsize : size ≤ heapBlockSizeMax)
    (hframe : ∀ cnt phys, answer cnt = some phys → FrameAnswer l w.st.calls phys cnt)
    (hh : h ∈ lay) (hb : b ∈ h.blocks) (hfit : b.fits (realSize size) = true)
    (hret : Outcome.Returns (fun fuel => HeapM.malloc l answer size fuel w.st) (r, st')) : r ≠ 0 := by
  obtain ⟨lay', p, cs, m', hstep, -, -, hret', -⟩ := hi.malloc_returns hsize hframe
  cases hret.unique hret'
  cases hstep with
  | fit => simp only [HeapDesc.payload]; omega
  | full hno ha =>
    rw [hno h hh b hb] at hfit
    cases hfit
  | grow hno ha => simp only [HeapDesc.payload]; omega

/-- **`free` in a run.**  It returns, and the state after it is that of `Releases`. -/
theorem HeapInv.free_returns {l : ℕ} {w : HeapRun} {lay : List HeapDesc} (hi : HeapInv l w lay)
    {size p : ℕ} {answer : ℕ → ℕ → Errno} (hlive : w.live p = some size)
    (hframe : ∀ r ∈ HeapCall.outstanding w.st.calls, answer r.1 r.2 = .eok) :
    ∃ lay' cs m', Releases lay p lay' cs ∧ LayoutAt m' l lay' ∧ LayoutOk l lay' ∧
      HeapM.free answer p w.st = .ok ((), { w.st with mem := m', calls := cs ++ w.st.calls }) ∧
      (∀ q x, q ≠ p → InPayload lay q x → m' x = w.st.mem x) ∧
      ∀ x, OutsideHeaps l lay x → m' x = w.st.mem x := by
  obtain ⟨k, hk, -⟩ := hi.live p size hlive
  obtain ⟨h, pre, b, post, hpos, hfree, hp, -⟩ := mem_busy.mp hk
  have hmem : h.range ∈ HeapCall.outstanding w.st.calls :=
    hi.held.mem_iff.mpr (List.mem_map_of_mem (f := HeapDesc.range) hpos.mem)
  have hans := hframe _ hmem
  rw [HeapDesc.range_fst, HeapDesc.range_snd] at hans
  exact HeapM.free_spec hi.layout hi.ok hpos hfree hp hans

/-! ### Every step keeps the invariant -/

theorem HeapInv.malloc {l : ℕ} {w : HeapRun} {lay : List HeapDesc} (hi : HeapInv l w lay)
    {size p : ℕ} {answer : ℕ → Option ℕ} {lay' : List HeapDesc} {cs : List HeapCall} {m' : Memory}
    (hsize : size ≤ heapBlockSizeMax) (hstep : Allocates answer (realSize size) lay lay' p cs)
    (hat : LayoutAt m' l lay') (hok : LayoutOk l lay') :
    HeapInv l ⟨{ w.st with mem := m', calls := cs ++ w.st.calls },
      if p = 0 then w.live else Function.update w.live p (some size)⟩ lay' := by
  obtain ⟨hheld, hbal⟩ := hstep.frames hi.held hi.balanced
  obtain ⟨hreal, -, -⟩ := HeapM.realSize_ok hsize
  rcases hstep.busy_perm with ⟨rfl, rfl⟩ | ⟨hp, k, hperm, hk, -⟩
  · exact ⟨hat, hok, hi.noWrap, by simpa using hi.live, by simpa using hi.busy, hheld, hbal⟩
  · refine ⟨hat, hok, hi.noWrap, fun q n hq => ?_, fun q j hq => ?_, hheld, hbal⟩
    · simp only [hp, if_false, Function.update_apply] at hq
      split at hq
      · rename_i hqp
        subst hqp
        cases hq
        exact ⟨k, hperm.mem_iff.mpr (by simp), by omega⟩
      · obtain ⟨j, hj, hn⟩ := hi.live q n hq
        exact ⟨j, hperm.mem_iff.mpr (by simp [hj]), hn⟩
    · simp only [hp, if_false, Function.update_apply]
      split
      · exact ⟨size, rfl⟩
      · rename_i hqp
        have hmem := hperm.mem_iff.mp hq
        rcases List.mem_cons.mp hmem with heq | hmem
        · cases heq
          exact absurd rfl hqp
        · exact hi.busy q j hmem

theorem HeapInv.free {l : ℕ} {w : HeapRun} {lay : List HeapDesc} (hi : HeapInv l w lay) {p : ℕ}
    {lay' : List HeapDesc} {cs : List HeapCall} {m' : Memory} (hstep : Releases lay p lay' cs)
    (hat : LayoutAt m' l lay') (hok : LayoutOk l lay') :
    HeapInv l ⟨{ w.st with mem := m', calls := cs ++ w.st.calls },
      Function.update w.live p none⟩ lay' := by
  obtain ⟨hheld, hbal⟩ := hstep.frames hi.held hi.balanced
  obtain ⟨k, hperm⟩ := hstep.busy_perm
  refine ⟨hat, hok, hi.noWrap, fun q n hq => ?_, fun q j hq => ?_, hheld, hbal⟩
  · simp only [Function.update_apply] at hq
    split at hq
    · cases hq
    · rename_i hqp
      obtain ⟨j, hj, hn⟩ := hi.live q n hq
      rcases List.mem_cons.mp (hperm.mem_iff.mp hj) with heq | hmem
      · cases heq
        exact absurd rfl hqp
      · exact ⟨j, hmem, hn⟩
  · -- the pointer was that of one block only
    have hne : q ≠ p := by
      have hinj := (hperm.pairwise_iff fun h => Ne.symm h).mp (busy_inj hi.ok)
      exact ((List.pairwise_cons.mp hinj).1 _ hq).symm
    simp only [Function.update_apply, hne, if_false]
    exact hi.busy q j (hperm.mem_iff.mpr (by simp [hq]))

/-- The bytes a client asked for are in the payload of its block. -/
theorem HeapInv.inPayload {l : ℕ} {w : HeapRun} {lay : List HeapDesc} (hi : HeapInv l w lay)
    {p n x : ℕ} (hlive : w.live p = some n) (h1 : p ≤ x) (h2 : x < p + n) : InPayload lay p x := by
  obtain ⟨k, hk, hn⟩ := hi.live p n hlive
  exact inPayload_iff.mpr ⟨k, hk, h1, by omega⟩

/-- **One step.** -/
theorem HeapInv.step {l : ℕ} {w w' : HeapRun} {lay : List HeapDesc} (hi : HeapInv l w lay)
    (h : Step l w w') : ∃ lay', HeapInv l w' lay' := by
  cases h with
  | malloc hsize hframe hrun =>
    obtain ⟨lay', p, cs, m', hstep, hat, hok, hret, -⟩ := hi.malloc_returns hsize hframe
    cases hrun.unique hret
    exact ⟨lay', hi.malloc hsize hstep hat hok⟩
  | free hlive hframe hrun =>
    obtain ⟨lay', cs, m', hstep, hat, hok, hret, -⟩ := hi.free_returns hlive hframe
    cases hrun.symm.trans hret
    exact ⟨lay', hi.free hstep hat hok⟩
  | write hlive h1 h2 =>
    exact ⟨lay, hi.layout.setPayload hi.ok (hi.inPayload hlive h1 h2) _, hi.ok, hi.noWrap, hi.live,
      hi.busy, hi.held, hi.balanced⟩

/-- **Every run.** -/
theorem Reachable.inv {l : ℕ} {w : HeapRun} (h : Reachable l w) : ∃ lay, HeapInv l w lay := by
  obtain ⟨w₀, hinit, hsteps⟩ := h
  induction hsteps with
  | refl => exact ⟨[], hinit.inv⟩
  | tail _ hstep ih =>
    obtain ⟨lay, hi⟩ := ih
    exact hi.step hstep

/-! ### A short run

`heap_init`, one `malloc` that gets a new heap, and the `free` of its block. -/

/-- The state before `heap_init`. -/
def zeroState : HeapState := ⟨fun _ => 0, true, false, []⟩

/-- The state after `heap_init` with `heap_list` at 0x80001000. -/
def bootRun : HeapRun where
  st := { zeroState with
    mem := (zeroState.mem.setWord 0x80001000 0x80001000).setWord (0x80001000 + 4) 0x80001000 }
  live := fun _ => none

theorem bootRun_init : Init 0x80001000 bootRun :=
  ⟨by norm_num, by norm_num, by norm_num, rfl, zeroState, rfl, rfl,
    heapInit_apply (by norm_num) (by norm_num) (by norm_num) zeroState⟩

/-- A frame allocator with sixteen frames. -/
def sixteenFrames (cnt : ℕ) : Option ℕ := if cnt = 16 then some 0x200000 else none

theorem sixteenFrames_ok (cnt phys : ℕ) (h : sixteenFrames cnt = some phys) :
    FrameAnswer 0x80001000 bootRun.st.calls phys cnt := by
  simp only [sixteenFrames] at h
  split at h
  · rename_i hcnt
    subst hcnt
    cases h
    exact ⟨by norm_num, by norm_num, by norm_num, by
      simp [bootRun, zeroState, HeapCall.outstanding]⟩
  · cases h

theorem framesFor_hundred : framesFor (realSize 100) = 16 := by norm_num [framesFor, realSize]

theorem hundred_le : 100 ≤ heapBlockSizeMax := by norm_num [heapBlockSizeMax]

/-- The heap of the sixteen frames, with some blocks. -/
def frameHeap (blocks : List Block) : HeapDesc := ⟨0x80200000, 16, blocks⟩

theorem newHeap_sixteen {real : ℕ} (h : framesFor real = 16) :
    newHeap real 0x200000 = frameHeap (takeBlocks real ⟨65516, true⟩) := by
  rw [newHeap, h]
  rfl

theorem newHeap_hundred :
    newHeap (realSize 100) 0x200000 = frameHeap [⟨124, false⟩, ⟨65392, true⟩] :=
  newHeap_sixteen framesFor_hundred

/-- The first pointer that `malloc` hands out. -/
def firstPayload : ℕ := (newHeap (realSize 100) 0x200000).payload []

/-- After one `malloc` a client holds a pointer into a new heap. -/
theorem firstHeap : ∃ w, Reachable 0x80001000 w ∧
    HeapInv 0x80001000 w [frameHeap [⟨124, false⟩, ⟨65392, true⟩]] ∧ w.live firstPayload = some 100 ∧
    (∀ q, q ≠ firstPayload → w.live q = none) ∧ HeapCall.granted w.st.calls = [(0x200000, 16)] := by
  have hi := bootRun_init.inv
  obtain ⟨lay', p, cs, m', hstep, hat, hok, hret, -⟩ := hi.malloc_returns hundred_le sixteenFrames_ok
  have ha : sixteenFrames (framesFor (realSize 100)) = some 0x200000 := by
    rw [framesFor_hundred, sixteenFrames, if_pos rfl]
  obtain ⟨rfl, hpay, rfl⟩ := hstep.first ha
  obtain rfl : p = firstPayload := hpay
  have hp : firstPayload ≠ 0 := by
    simp only [firstPayload, HeapDesc.payload]
    omega
  refine ⟨_, ⟨bootRun, bootRun_init,
    Relation.ReflTransGen.single (Step.malloc hundred_le sixteenFrames_ok hret)⟩, ?_, ?_, ?_, ?_⟩
  · rw [← newHeap_hundred]
    exact hi.malloc hundred_le hstep hat hok
  · simp only [hp, if_false, Function.update_self]
  · intro q hq
    simp only [hp, if_false, Function.update_of_ne hq]
    rfl
  · simp [bootRun, zeroState, HeapCall.granted, framesFor_hundred]

theorem firstMalloc : ∃ w p, Reachable 0x80001000 w ∧ w.live p = some 100 ∧
    (∀ q, q ≠ p → w.live q = none) ∧ HeapCall.granted w.st.calls = [(0x200000, 16)] := by
  obtain ⟨w, hw, -, hlive, hother, hgranted⟩ := firstHeap
  exact ⟨w, firstPayload, hw, hlive, hother, hgranted⟩

/-- A frame allocator that has run out of frames. -/
def noFrames (_cnt : ℕ) : Option ℕ := none

theorem noFrames_ok {w : HeapRun} (cnt phys : ℕ) (h : noFrames cnt = some phys) :
    FrameAnswer 0x80001000 w.st.calls phys cnt := by
  cases h

/-- The next `malloc` takes its block from the free block of the heap. -/
theorem secondBlock : ∃ w, Reachable 0x80001000 w ∧
    HeapInv 0x80001000 w [frameHeap [⟨124, false⟩, ⟨124, false⟩, ⟨65268, true⟩]] ∧
    w.live firstPayload = some 100 ∧ w.live (firstPayload + 124) = some 100 := by
  obtain ⟨w, ⟨w₀, hinit, hsteps⟩, hi, hlive, -, -⟩ := firstHeap
  obtain ⟨lay', q, cs, m', hstep, hat, hok, hret, -⟩ := hi.malloc_returns hundred_le noFrames_ok
  have hi' := hi.malloc hundred_le hstep hat hok
  have hblocks : (frameHeap [⟨124, false⟩, ⟨65392, true⟩]).blocks =
      [⟨124, false⟩] ++ [⟨65392, true⟩] := rfl
  obtain ⟨hlay, hq, -⟩ := hstep.tail hblocks (by simp) (by decide)
  obtain rfl : lay' = [frameHeap [⟨124, false⟩, ⟨124, false⟩, ⟨65268, true⟩]] := hlay
  obtain rfl : q = firstPayload + 124 := by
    rw [hq, firstPayload, newHeap_hundred]
    rfl
  refine ⟨_, ⟨w₀, hinit, hsteps.tail (Step.malloc hundred_le noFrames_ok hret)⟩, hi', ?_, ?_⟩
  · simp [hlive]
  · simp

/-- After its `free` no client holds a pointer. -/
theorem firstFree : ∃ w, Reachable 0x80001000 w ∧ (∀ p, w.live p = none) ∧
    HeapCall.granted w.st.calls = [(0x200000, 16)] := by
  obtain ⟨w, p, hw, hlive, hother, hgranted⟩ := firstMalloc
  obtain ⟨lay, hi⟩ := hw.inv
  obtain ⟨w₀, hinit, hsteps⟩ := hw
  obtain ⟨lay', cs, m', hstep, -, -, hret, -⟩ :=
    @HeapInv.free_returns _ w lay hi 100 p (fun _ _ => .eok) hlive fun _ _ => rfl
  refine ⟨_, ⟨w₀, hinit, hsteps.tail (Step.free hlive (fun _ _ => rfl) hret)⟩, fun q => ?_, ?_⟩
  · by_cases hq : q = p
    · simp [hq]
    · simp only [Function.update_of_ne hq, hother q hq]
  · cases hstep with
    | keep => exact hgranted
    | drop => exact hgranted

/-! ### The results -/

/-- **The representation of the heap.**  In every run the heaps on `heap_list` are tiled by good blocks
without two free neighbours, no heap is one free block, and `malloc` and `free` return: no assertion
of `block_check` or of `free` fails. -/
theorem heap_representation {l : ℕ} {w : HeapRun} (h : Reachable l w) :
    (∃ lay, LayoutAt w.st.mem l lay ∧ LayoutOk l lay) ∧
      (∀ size answer, size ≤ heapBlockSizeMax →
        (∀ cnt phys, answer cnt = some phys → FrameAnswer l w.st.calls phys cnt) →
        ∃ r, Outcome.Returns (fun fuel => HeapM.malloc l answer size fuel w.st) r) ∧
      ∀ p n answer, w.live p = some n →
        (∀ r ∈ HeapCall.outstanding w.st.calls, answer r.1 r.2 = .eok) →
        ∃ st', HeapM.free answer p w.st = .ok ((), st') := by
  obtain ⟨lay, hi⟩ := h.inv
  refine ⟨⟨lay, hi.layout, hi.ok⟩, fun size answer hsize hframe => ?_,
    fun p n answer hlive hframe => ?_⟩
  · obtain ⟨lay', p, cs, m', -, -, -, hret, -⟩ := hi.malloc_returns hsize hframe
    exact ⟨_, hret⟩
  · obtain ⟨lay', cs, m', -, -, -, hret, -⟩ := hi.free_returns hlive hframe
    exact ⟨_, hret⟩

theorem heap_representation_firstMalloc : ∃ w p, Reachable 0x80001000 w ∧ w.live p = some 100 ∧
    (∃ lay, LayoutAt w.st.mem 0x80001000 lay ∧ LayoutOk 0x80001000 lay) ∧
    ∃ st', HeapM.free (fun _ _ => .eok) p w.st = .ok ((), st') := by
  obtain ⟨w, p, hw, hlive, -, -⟩ := firstMalloc
  obtain ⟨hlay, -, hfree⟩ := heap_representation hw
  exact ⟨w, p, hw, hlive, hlay, hfree p 100 _ hlive fun _ _ => rfl⟩

/-- **What clients may rely on.**  The bytes a client asked for are in the payload of its block.
`malloc` returns without a computation that wraps; a pointer it returns is aligned and in KSEG0, its
bytes are inside one heap, in no payload of another block and no metadata.  No byte of a payload
changes in `malloc`, nor in the `free` of another block. -/
theorem heap_client_contract {l : ℕ} {w : HeapRun} (h : Reachable l w) :
    ∃ lay, LayoutAt w.st.mem l lay ∧ LayoutOk l lay ∧
      (∀ q n, w.live q = some n → ∀ x, q ≤ x → x < q + n → InPayload lay q x) ∧
      (∀ size answer, size ≤ heapBlockSizeMax →
        (∀ cnt phys, answer cnt = some phys → FrameAnswer l w.st.calls phys cnt) →
        ∃ p st' lay', Outcome.Returns (fun fuel => HeapM.malloc l answer size fuel w.st) (p, st') ∧
          st'.wrapped = false ∧ LayoutAt st'.mem l lay' ∧ LayoutOk l lay' ∧
          (∀ q x, InPayload lay q x → st'.mem x = w.st.mem x) ∧
          (p ≠ 0 → p % 4 = 0 ∧ 0x80000000 ≤ p ∧ p + size ≤ 0xA0000000 ∧
            (∃ h ∈ lay', h.start ≤ p ∧ p + size ≤ h.stop) ∧ w.live p = none ∧
            ∀ x, p ≤ x → x < p + size → (∀ q, ¬ InPayload lay q x) ∧ ¬ Metadata lay' x)) ∧
      ∀ p n answer, w.live p = some n →
        (∀ r ∈ HeapCall.outstanding w.st.calls, answer r.1 r.2 = .eok) →
        ∃ st', HeapM.free answer p w.st = .ok ((), st') ∧ st'.wrapped = false ∧
          ∀ q x, q ≠ p → InPayload lay q x → st'.mem x = w.st.mem x := by
  obtain ⟨lay, hi⟩ := h.inv
  refine ⟨lay, hi.layout, hi.ok, fun q n hlive x h1 h2 => hi.inPayload hlive h1 h2,
    fun size answer hsize hframe => ?_, fun p n answer hlive hframe => ?_⟩
  · obtain ⟨lay', p, cs, m', hstep, hat, hok, hret, hkeep, -⟩ := hi.malloc_returns hsize hframe
    refine ⟨p, _, lay', hret, hi.noWrap, hat, hok, hkeep, fun hp => ?_⟩
    obtain ⟨hreal, -, -⟩ := HeapM.realSize_ok hsize
    rcases hstep.busy_perm with ⟨hp0, -⟩ | ⟨-, k, hperm, hk, -⟩
    · exact absurd hp0 hp
    have hmem : (p, k) ∈ busy lay' := hperm.mem_iff.mpr (by simp)
    have hnew : ∀ q j, (q, j) ∈ busy lay → q ≠ p := by
      intro q j hq
      have hinj := (hperm.pairwise_iff fun h => Ne.symm h).mp (busy_inj hok)
      exact ((List.pairwise_cons.mp hinj).1 _ hq).symm
    obtain ⟨g, pre, b, post, ⟨hg, hgb⟩, -, hpay, hkb⟩ := mem_busy.mp hmem
    obtain ⟨-, hlo, hhi, h4⟩ := (hok.heaps g hg).block hgb
    have hk0 := (hok.heaps g hg).inKseg0
    simp only [HeapDesc.payload] at hpay
    refine ⟨by omega, ?_, by omega, ⟨g, hg, by omega, by omega⟩, ?_, fun x h1 h2 => ⟨fun q hq => ?_, ?_⟩⟩
    · simp only [HeapDesc.start] at hlo
      omega
    · cases hl : w.live p with
      | none => rfl
      | some n =>
        obtain ⟨j, hj, -⟩ := hi.live p n hl
        exact absurd rfl (hnew p j hj)
    · -- the payloads of before are payloads still
      obtain ⟨j, hj, h3, h4⟩ := inPayload_iff.mp hq
      have hq' : InPayload lay' q x :=
        inPayload_iff.mpr ⟨j, hperm.mem_iff.mpr (by simp [hj]), h3, h4⟩
      have hp' : InPayload lay' p x := inPayload_iff.mpr ⟨k, hmem, h1, by omega⟩
      exact hnew q j hj (InPayload.unique hok hq' hp')
    · exact InPayload.not_metadata hok (inPayload_iff.mpr ⟨k, hmem, h1, by omega⟩)
  · obtain ⟨lay', cs, m', -, -, -, hret, hkeep, -⟩ := hi.free_returns hlive hframe
    exact ⟨_, hret, hi.noWrap, hkeep⟩

/-- A client with two pointers: a third `malloc` splits the free block, the `free` of one pointer keeps
the payload of the other. -/
theorem heap_client_contract_twoBlocks : ∃ w lay p q, Reachable 0x80001000 w ∧ p ≠ q ∧
    w.live p = some 100 ∧ w.live q = some 100 ∧ LayoutAt w.st.mem 0x80001000 lay ∧
    LayoutOk 0x80001000 lay ∧ InPayload lay p (p + 99) ∧ InPayload lay q (q + 99) ∧
    (∃ r st' lay',
      Outcome.Returns (fun fuel => HeapM.malloc 0x80001000 noFrames 200 fuel w.st) (r, st') ∧
        r ≠ 0 ∧ r % 4 = 0 ∧ r ≠ p ∧ r ≠ q ∧ LayoutAt st'.mem 0x80001000 lay' ∧
        LayoutOk 0x80001000 lay' ∧ ¬ InPayload lay p (r + 199) ∧ ¬ Metadata lay' r ∧
        ¬ Metadata lay' (r + 199) ∧ st'.mem (p + 99) = w.st.mem (p + 99)) ∧
    ∃ st', HeapM.free (fun _ _ => .eok) p w.st = .ok ((), st') ∧
      st'.mem (q + 99) = w.st.mem (q + 99) := by
  obtain ⟨w, hw, hi, hp, hq⟩ := secondBlock
  obtain ⟨lay, hat, hok, hpay, hmalloc, hfree⟩ := heap_client_contract hw
  have hpp : InPayload lay firstPayload (firstPayload + 99) := hpay _ 100 hp _ (by omega) (by omega)
  have hqq : InPayload lay (firstPayload + 124) (firstPayload + 124 + 99) :=
    hpay _ 100 hq _ (by omega) (by omega)
  have hsize : 200 ≤ heapBlockSizeMax := by norm_num [heapBlockSizeMax]
  refine ⟨w, lay, firstPayload, firstPayload + 124, hw, by omega, hp, hq, hat, hok, hpp, hqq, ?_, ?_⟩
  · obtain ⟨r, st', lay', hret, -, hat', hok', hkeep, hnew⟩ := hmalloc 200 noFrames hsize noFrames_ok
    have hroom : (⟨65268, true⟩ : Block) ∈
        (frameHeap [⟨124, false⟩, ⟨124, false⟩, ⟨65268, true⟩]).blocks := by simp [frameHeap]
    have hr : r ≠ 0 :=
      hi.malloc_ne_zero hsize noFrames_ok (List.mem_singleton_self _) hroom (by decide) hret
    obtain ⟨hal, -, -, -, hfresh, hbytes⟩ := hnew hr
    refine ⟨r, st', lay', hret, hr, hal, ?_, ?_, hat', hok', (hbytes (r + 199) (by omega) (by omega)).1 _,
      (hbytes r (by omega) (by omega)).2, (hbytes (r + 199) (by omega) (by omega)).2, hkeep _ _ hpp⟩
    · rintro rfl
      rw [hp] at hfresh
      cases hfresh
    · rintro rfl
      rw [hq] at hfresh
      cases hfresh
  · obtain ⟨st', hrun, -, hkeep⟩ := hfree firstPayload 100 (fun _ _ => .eok) hp fun _ _ => rfl
    exact ⟨st', hrun, hkeep _ _ (by omega) hqq⟩

/-- Without an allocated block there is no heap. -/
theorem HeapInv.nil_of_idle {l : ℕ} {w : HeapRun} {lay : List HeapDesc} (hi : HeapInv l w lay)
    (hlive : ∀ p, w.live p = none) : lay = [] := by
  have hbusy : ∀ p k, (p, k) ∉ Kalisto.busy lay := by
    intro p k hk
    obtain ⟨n, hn⟩ := hi.busy p k hk
    rw [hlive p] at hn
    cases hn
  cases lay with
  | nil => rfl
  | cons h lay =>
    exfalso
    have hok := hi.ok.heaps h (by simp)
    have hfree : ∀ pre b post, h.blocks = pre ++ b :: post → b.free = true := by
      intro pre b post hb
      by_contra hf
      exact hbusy (h.payload pre) b.size
        (mem_busy.mpr ⟨h, pre, b, post, ⟨by simp, hb⟩, by simpa using hf, rfl, rfl⟩)
    cases hblocks : h.blocks with
    | nil =>
      have htiled := hok.tiled
      rw [hblocks] at htiled
      simp only [HeapDesc.start, HeapDesc.stop, total_nil] at htiled
      omega
    | cons b bs =>
      have hb := hfree [] b bs hblocks
      cases bs with
      | nil =>
        obtain ⟨n, f⟩ := b
        simp only at hb
        subst hb
        exact hok.notFree n hblocks
      | cons c cs =>
        have hc := hfree [b] c cs hblocks
        have hpair := hok.noFreePair
        rw [hblocks] at hpair
        have := ((@noFreePair_middle [] (c :: cs) b).mp hpair).2.2 hb
        simp [hc] at this

/-- **No leak.**  When no client holds a pointer, `heap_list` is empty, and the ranges that were passed to
`frame_free` are those that `frame_alloc` handed out, each as often. -/
theorem heap_no_leak {l : ℕ} {w : HeapRun} (h : Reachable l w) (hlive : ∀ p, w.live p = none) :
    LayoutAt w.st.mem l [] ∧ w.st.mem.word l = l ∧ w.st.mem.word (l + 4) = l ∧
      (HeapCall.granted w.st.calls).Perm (HeapCall.returned w.st.calls) := by
  obtain ⟨lay, hi⟩ := h.inv
  obtain rfl := hi.nil_of_idle hlive
  have hnil : HeapCall.outstanding w.st.calls = [] := by simpa using hi.held
  have hbal := hi.balanced
  rw [hnil, List.nil_append] at hbal
  obtain ⟨hnext, hprev⟩ := hi.layout.ring.seg
  exact ⟨hi.layout, (ptr_eq_some.mp hprev).1, (ptr_eq_some.mp hnext).1, hbal⟩

theorem heap_no_leak_firstFree : ∃ w, Reachable 0x80001000 w ∧ (∀ p, w.live p = none) ∧
    HeapCall.granted w.st.calls = [(0x200000, 16)] ∧
    HeapCall.returned w.st.calls = [(0x200000, 16)] := by
  obtain ⟨w, hw, hlive, hgranted⟩ := firstFree
  obtain ⟨-, -, -, hperm⟩ := heap_no_leak hw hlive
  rw [hgranted] at hperm
  exact ⟨w, hw, hlive, hgranted, List.perm_singleton.mp hperm.symm⟩

end HeapRun

end Kalisto
