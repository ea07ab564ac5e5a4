import Kalisto.Mm.HeapRuns
import Kalisto.Mm.HeapNormal

/-!
# Allocations that can be taken back

Code that allocates some blocks, fills them and then gives up frees them in the opposite order.
`Pending` is the state in between: the blocks that were allocated since a state `w`, the last one first.
Everything else is as it was in `w`, and what is below the last block is the layout before its `malloc`.

* `Pending.malloc`, `Pending.write`, `Pending.free` — one more block, a write into the blocks, the last
  block freed;
* `Pending.freeLast`, `Pending.freeBoth` — all blocks freed;
* `Pending.none` — without a block that is not freed, layout and frames are those of `w`.

The frame allocator is code outside the repository.  `FrameAllocator` is that code with what is known of
it: `frame_alloc` can fail at any call, `frame_free` succeeds on a range that is out.
-/

namespace Kalisto

/-- The data of the kernel image, with `heap_list` in it. -/
structure Image where
  lo : ℕ
  hi : ℕ
  heapList : ℕ
  heapList_in : lo ≤ heapList ∧ heapList + 8 ≤ hi

/-- The byte `x` is in the data of the image, and not in `heap_list`. -/
def Image.Data (im : Image) (x : ℕ) : Prop := im.lo ≤ x ∧ x < im.hi ∧ (x < im.heapList ∨ im.heapList + 8 ≤ x)

/-- The heaps do not overlap the image. -/
def Image.Apart (im : Image) (lay : List HeapDesc) : Prop := ∀ h ∈ lay, h.stop ≤ im.lo ∨ im.hi ≤ h.base

/-- **The frame allocator.**  The answers are functions of the calls before. -/
structure FrameAllocator (im : Image) where
  alloc : List HeapCall → ℕ → Option ℕ
  free : List HeapCall → ℕ → ℕ → Errno
  alloc_ok : ∀ calls cnt phys, alloc calls cnt = some phys → FrameAnswer im.heapList calls phys cnt
  /-- The frames of the image are not handed out. -/
  alloc_apart : ∀ calls cnt phys, alloc calls cnt = some phys →
    im.hi ≤ 0x80000000 + phys ∨ 0x80000000 + phys + cnt * 4096 ≤ im.lo
  free_ok : ∀ calls, ∀ r ∈ HeapCall.outstanding calls, free calls r.1 r.2 = .eok

/-- `malloc`, with the answer of the frame allocator at this call. -/
def FrameAllocator.malloc {im : Image} (a : FrameAllocator im) (size fuel : ℕ) : HeapM ℕ := fun s =>
  HeapM.malloc im.heapList (a.alloc s.calls) size fuel s

/-- `free`, with the answer of the frame allocator at this call. -/
def FrameAllocator.release {im : Image} (a : FrameAllocator im) (p : ℕ) : HeapM Unit := fun s =>
  HeapM.free (a.free s.calls) p s

namespace Image

variable {im : Image} {lay lay' : List HeapDesc}

theorem Apart.replace {L R : List HeapDesc} {g h : HeapDesc} (hap : im.Apart (L ++ h :: R))
    (hbase : g.base = h.base) (hstop : g.stop = h.stop) : im.Apart (L ++ g :: R) := by
  intro k hk
  rcases List.mem_append.mp hk with hk | hk
  · exact hap k (by simp [hk])
  · rcases List.mem_cons.mp hk with rfl | hk
    · rw [hbase, hstop]
      exact hap h (by simp)
    · exact hap k (by simp [hk])

theorem Apart.allocates {a : FrameAllocator im} {calls cs : List HeapCall} {real p : ℕ} (hap : im.Apart lay)
    (h : Allocates (a.alloc calls) real lay lay' p cs) : im.Apart lay' := by
  cases h with
  | fit hlay hb hL hpre hfit =>
    subst hlay
    exact hap.replace rfl rfl
  | full hno ha => exact hap
  | grow hno ha =>
    intro g hg
    rcases List.mem_append.mp hg with hg | hg
    · exact hap g hg
    · rw [List.mem_singleton.mp hg]
      simp only [newHeap, HeapDesc.stop]
      have hfar := a.alloc_apart _ _ _ ha
      omega

theorem Apart.releases {cs : List HeapCall} {p : ℕ} (hap : im.Apart lay) (h : Releases lay p lay' cs) :
    im.Apart lay' := by
  cases h with
  | keep hlay hb hfree hp hne =>
    subst hlay
    exact hap.replace rfl rfl
  | drop hlay hb hfree hp hone =>
    subst hlay
    intro g hg
    refine hap g ?_
    rcases List.mem_append.mp hg with hg | hg <;> simp [hg]

/-- The data of the image is outside the heaps. -/
theorem Apart.outsideHeaps (hap : im.Apart lay) {x : ℕ} (hx : im.Data x) :
    OutsideHeaps im.heapList lay x := by
  obtain ⟨h1, h2, h3⟩ := hx
  refine ⟨h3, fun g hg => ?_⟩
  have hfar := hap g hg
  omega

end Image

/-! ### Writes into payloads -/

/-- A row of blocks depends on the headers and footers. -/
theorem BlocksAt.congr_meta {m m' : Memory} {heap a : ℕ} {bs : List Block} (h : BlocksAt m heap a bs)
    (hb : ∀ b ∈ bs, b.Ok) (heq : ∀ pre b post, bs = pre ++ b :: post →
      ∀ x, MetaByte (a + total pre) b.size x → m' x = m x) : BlocksAt m' heap a bs := by
  induction bs generalizing a with
  | nil => trivial
  | cons b bs ih =>
    refine ⟨h.1.congr (hb b (by simp)).1 fun x hx => heq [] b bs rfl x (by simpa using hx),
      ih h.2 (fun c hc => hb c (by simp [hc])) fun pre c post hbs x hx => ?_⟩
    refine heq (b :: pre) c post (by rw [hbs, List.cons_append]) x ?_
    rw [total_cons, ← Nat.add_assoc]
    exact hx

/-- A layout depends on the head of the list and on the metadata. -/
theorem LayoutAt.congr_meta {m m' : Memory} {l : ℕ} {lay : List HeapDesc} (hat : LayoutAt m l lay)
    (hok : LayoutOk l lay) (hl : ∀ x, l ≤ x → x < l + 8 → m' x = m x)
    (heq : ∀ x, Metadata lay x → m' x = m x) : LayoutAt m' l lay := by
  have hhead : ∀ h ∈ lay, ∀ x, h.base ≤ x → x < h.base + 20 → m' x = m x :=
    fun h hh x h1 h2 => heq x (Or.inl ⟨h, hh, h1, h2⟩)
  have hword : ∀ h ∈ lay, ∀ c, c + 4 ≤ 20 → m'.word (h.base + c) = m.word (h.base + c) :=
    fun h hh c hc => Memory.word_congr fun x h1 h2 => hhead h hh x (by omega) (by omega)
  refine ⟨hat.ring.congr fun b hb => linksOf_congr fun x h1 h2 => ?_, fun h hh => ?_⟩
  · rcases List.mem_cons.mp hb with rfl | hb
    · exact hl x h1 h2
    · obtain ⟨h, hh, rfl⟩ := List.mem_map.mp hb
      exact hhead h hh x h1 (by omega)
  · have hold := hat.heaps h hh
    refine ⟨?_, ?_, ?_, ?_⟩
    · rw [hword h hh 8 (by omega), hold.start]
    · rw [hword h hh 12 (by omega), hold.stop]
    · rw [hword h hh 16 (by omega), hold.frames]
    · refine hold.blocks.congr_meta (hok.heaps h hh).blocks fun pre b post hb x hx => heq x ?_
      exact Or.inr ⟨h, pre, b, post, ⟨hh, hb⟩, hx⟩

/-- A byte of a payload lies in a heap. -/
theorem InPayload.mem_heap {l : ℕ} {lay : List HeapDesc} {p x : ℕ} (hx : InPayload lay p x)
    (hok : LayoutOk l lay) :
    ∃ h ∈ lay, h.base ≤ x ∧ x < h.stop := by
  obtain ⟨h, pre, b, post, ⟨hmem, hb⟩, -, rfl, h1, h2⟩ := hx
  obtain ⟨-, hlo, hhi, -⟩ := (hok.heaps h hmem).block hb
  simp only [HeapDesc.payload, HeapDesc.start] at h1 hlo
  exact ⟨h, hmem, by omega, by omega⟩

namespace HeapRun

variable {l : ℕ} {w w' w'' : HeapRun} {lay lay' lay'' : List HeapDesc}

/-- The bytes of the pointer `p` of a client. -/
def Held (w : HeapRun) (p x : ℕ) : Prop := ∃ n, w.live p = some n ∧ p ≤ x ∧ x < p + n

theorem HeapInv.held_inPayload (hi : HeapInv l w lay) {p x : ℕ} (hx : w.Held p x) : InPayload lay p x := by
  obtain ⟨n, hn, h1, h2⟩ := hx
  exact hi.inPayload hn h1 h2

/-- A byte is held through one pointer. -/
theorem HeapInv.held_unique (hi : HeapInv l w lay) {p q x : ℕ} (hp : w.Held p x) (hq : w.Held q x) :
    p = q := InPayload.unique hi.ok (hi.held_inPayload hp) (hi.held_inPayload hq)

/-- The place of a pointer. -/
theorem HeapInv.place (hi : HeapInv l w lay) {p n : ℕ} (hp : w.live p = some n) :
    p % 4 = 0 ∧ 0x80000000 ≤ p ∧ p + n ≤ 0xA0000000 := by
  obtain ⟨k, hk, hn⟩ := hi.live p n hp
  obtain ⟨h, pre, b, post, ⟨hmem, hb⟩, -, rfl, rfl⟩ := mem_busy.mp hk
  obtain ⟨-, hlo, hhi, h4⟩ := (hi.ok.heaps h hmem).block hb
  have hk0 := (hi.ok.heaps h hmem).inKseg0
  simp only [HeapDesc.payload, HeapDesc.start] at hlo ⊢
  omega

/-- Two pointers have no byte in common. -/
theorem HeapInv.held_apart (hi : HeapInv l w lay) {p q n k : ℕ} (hp : w.live p = some n)
    (hq : w.live q = some k) (hne : p ≠ q) (hn : 0 < n) (hk : 0 < k) : p + n ≤ q ∨ q + k ≤ p := by
  by_contra hcon
  refine hne (hi.held_unique (x := max p q) ⟨n, hp, ?_, ?_⟩ ⟨k, hq, ?_, ?_⟩) <;> omega

/-- **Clients write into their blocks.** -/
theorem HeapInv.write (hi : HeapInv l w lay) {m' : Memory}
    (hm : ∀ x, (∀ q, ¬ w.Held q x) → m' x = w.st.mem x) :
    HeapInv l ⟨{ w.st with mem := m' }, w.live⟩ lay := by
  refine ⟨hi.layout.congr_meta hi.ok (fun x h1 h2 => hm x fun q hq => ?_)
    (fun x hx => hm x fun q hq => ?_), hi.ok, hi.noWrap, hi.live, hi.busy, hi.held, hi.balanced⟩
  · obtain ⟨h, hh, h3, h4⟩ := (hi.held_inPayload hq).mem_heap hi.ok
    have hap := hi.ok.listApart h hh
    omega
  · exact InPayload.not_metadata hi.ok (hi.held_inPayload hq) hx

/-! ### Blocks that are not freed yet -/

/-- The blocks at `ps` were allocated since the layout `lay`, the last one first. -/
inductive Atop (l : ℕ) (lay : List HeapDesc) : List (ℕ × ℕ) → List HeapDesc → Prop
  | nil : Atop l lay [] lay
  | cons {ps : List (ℕ × ℕ)} {p n real : ℕ} {answer : ℕ → Option ℕ} {lay₁ lay₂ : List HeapDesc}
      {cs : List HeapCall} : Atop l lay ps lay₁ → LayoutOk l lay₁ → p ≠ 0 →
      Allocates answer real lay₁ lay₂ p cs → Atop l lay ((p, n) :: ps) lay₂

/-- The last block freed gives the layout before it. -/
theorem Atop.release {ps : List (ℕ × ℕ)} {p n : ℕ} {ds : List HeapCall}
    (h : Atop l lay ((p, n) :: ps) lay') (hok : LayoutOk l lay') (hrel : Releases lay' p lay'' ds) :
    Atop l lay ps lay'' := by
  cases h with
  | cons hps hok₁ hp halloc =>
    obtain ⟨es, hundo⟩ := halloc.undone hok₁ hp
    rw [hrel.eq_settle hok, ← hundo.eq_settle hok]
    exact hps

/-- **Since the state `w` the blocks `ps` were allocated and are not freed**, the last one first, each
with its size; they were written, and nothing else. -/
structure Pending (im : Image) (w : HeapRun) (lay : List HeapDesc) (ps : List (ℕ × ℕ)) (w' : HeapRun)
    (lay' : List HeapDesc) : Prop where
  inv : HeapInv im.heapList w' lay'
  atop : Atop im.heapList lay ps lay'
  imageApart : im.Apart lay'
  nodup : (ps.map Prod.fst).Nodup
  fresh : ∀ q ∈ ps, w.live q.1 = none ∧ w'.live q.1 = some q.2
  others : ∀ q, (∀ r ∈ ps, q ≠ r.1) → w'.live q = w.live q
  data : ∀ x, im.Data x → w'.st.mem x = w.st.mem x
  clients : ∀ q x, w.Held q x → w'.st.mem x = w.st.mem x

namespace Pending

variable {im : Image} {ps : List (ℕ × ℕ)}

theorem refl (hi : HeapInv im.heapList w lay) (hap : im.Apart lay) :
    Pending im w lay [] w lay :=
  ⟨hi, .nil, hap, List.nodup_nil, by simp, fun _ _ => rfl, fun _ _ => rfl, fun _ _ _ => rfl⟩

/-- The pointers of before are held still. -/
theorem held (h : Pending im w lay ps w' lay') {q x : ℕ} (hx : w.Held q x) : w'.Held q x := by
  obtain ⟨n, hn, h1, h2⟩ := hx
  refine ⟨n, ?_, h1, h2⟩
  rw [h.others q fun r hr heq => ?_, hn]
  rw [heq, (h.fresh r hr).1] at hn
  cases hn

/-- The data of the image is not held. -/
theorem not_data (h : Pending im w lay ps w' lay') {q x : ℕ} (hx : w'.Held q x) : ¬ im.Data x := by
  rintro ⟨h1, h2, -⟩
  obtain ⟨g, hg, h3, h4⟩ := (h.inv.held_inPayload hx).mem_heap h.inv.ok
  have hap := h.imageApart g hg
  omega

/-- A byte of the blocks was not held before. -/
theorem not_held (h : Pending im w lay ps w' lay') {r : ℕ × ℕ} (hr : r ∈ ps) {q x : ℕ}
    (hx : w'.Held r.1 x) : ¬ w.Held q x := fun hq => by
  obtain rfl := h.inv.held_unique hx (h.held hq)
  obtain ⟨n, hn, -⟩ := hq
  rw [(h.fresh r hr).1] at hn
  cases hn

/-- Later changes with nothing left of them. -/
theorem trans (h : Pending im w lay ps w' lay') (h' : Pending im w' lay' [] w'' lay'') :
    Pending im w lay ps w'' lay'' := by
  have hlive : w''.live = w'.live := funext fun q => h'.others q (by simp)
  have hatop := h'.atop
  cases hatop
  refine ⟨h'.inv, h.atop, h'.imageApart, h.nodup, fun q hq => ?_, fun q hq => ?_, fun x hx => ?_,
    fun q x hx => ?_⟩
  · rw [hlive]
    exact h.fresh q hq
  · rw [hlive, h.others q hq]
  · rw [h'.data x hx, h.data x hx]
  · rw [h'.clients q x (h.held hx), h.clients q x hx]

/-- Interrupts do not matter. -/
theorem setIe (h : Pending im w lay ps w' lay') (ie : Bool) :
    Pending im w lay ps ⟨{ w'.st with ie := ie }, w'.live⟩ lay' :=
  ⟨⟨h.inv.layout, h.inv.ok, h.inv.noWrap, h.inv.live, h.inv.busy, h.inv.held, h.inv.balanced⟩, h.atop,
    h.imageApart, h.nodup, h.fresh, h.others, h.data, h.clients⟩

/-- **A write** into the blocks that are not freed. -/
theorem write (h : Pending im w lay ps w' lay') {m' : Memory}
    (hm : ∀ x, (∀ q ∈ ps, x < q.1 ∨ q.1 + q.2 ≤ x) → m' x = w'.st.mem x) :
    Pending im w lay ps ⟨{ w'.st with mem := m' }, w'.live⟩ lay' := by
  have hout : ∀ x, (∀ q ∈ ps, ¬ w'.Held q.1 x) → m' x = w'.st.mem x := fun x hx => hm x fun q hq => by
    by_contra hin
    exact hx q hq ⟨q.2, (h.fresh q hq).2, by omega, by omega⟩
  refine ⟨h.inv.write fun x hx => hout x fun q _ => hx q.1, h.atop, h.imageApart, h.nodup, h.fresh,
    h.others, fun x hx => ?_, fun q x hx => ?_⟩
  · exact (hout x fun q _ hq => h.not_data hq hx).trans (h.data x hx)
  · exact (hout x fun r hr hrx => h.not_held hr hrx hx).trans (h.clients q x hx)

/-- A word of a block. -/
theorem store (h : Pending im w lay ps w' lay') {p n : ℕ} (hp : (p, n) ∈ ps) (off : ℕ) (hoff : off + 4 ≤ n)
    (v : ℕ) : Pending im w lay ps ⟨{ w'.st with mem := w'.st.mem.setWord (p + off) v }, w'.live⟩ lay' := by
  refine h.write fun x hx => Memory.setWord_of_outside ?_
  have hout := hx (p, n) hp
  omega

/-- **`malloc`**: one more block, or everything as before. -/
theorem malloc (h : Pending im w lay ps w' lay') (a : FrameAllocator im) {size : ℕ}
    (hsize : size ≤ heapBlockSizeMax) :
    ∃ p s' lay'' cs, Outcome.Returns (fun fuel => a.malloc size fuel w'.st) (p, s') ∧
      Allocates (a.alloc w'.st.calls) (realSize size) lay' lay'' p cs ∧
      ((p = 0 ∧ Pending im w lay ps ⟨s', w'.live⟩ lay') ∨
        (p ≠ 0 ∧
          Pending im w lay ((p, size) :: ps) ⟨s', Function.update w'.live p (some size)⟩ lay'')) := by
  obtain ⟨lay₂, p, cs, m', halloc, hat, hok, hret, hpay, hout⟩ :=
    h.inv.malloc_returns hsize (a.alloc_ok w'.st.calls)
  have hinv := h.inv.malloc hsize halloc hat hok
  have hap := h.imageApart.allocates halloc
  have hdata : ∀ x, im.Data x → m' x = w.st.mem x := fun x hx =>
    (hout x (hap.outsideHeaps hx)).trans (h.data x hx)
  have hclients : ∀ q x, w.Held q x → m' x = w.st.mem x := fun q x hx =>
    (hpay q x (h.inv.held_inPayload (h.held hx))).trans (h.clients q x hx)
  refine ⟨p, _, lay₂, cs, hret, halloc, ?_⟩
  rcases halloc.busy_perm with ⟨rfl, rfl⟩ | ⟨hp, k, hperm, -, -⟩
  · exact Or.inl ⟨rfl, hinv, h.atop, hap, h.nodup, h.fresh, h.others, hdata, hclients⟩
  · rw [if_neg hp] at hinv
    -- the pointer was nobody's
    have hnone : w'.live p = none := by
      cases hl : w'.live p with
      | none => rfl
      | some n =>
        obtain ⟨j, hj, -⟩ := h.inv.live p n hl
        have hinj := (hperm.pairwise_iff fun hne => Ne.symm hne).mp (busy_inj hok)
        exact absurd rfl ((List.pairwise_cons.mp hinj).1 (p, j) hj)
    have hnotin : ∀ q ∈ ps, q.1 ≠ p := fun q hq heq => by
      have hq := (h.fresh q hq).2
      rw [heq, hnone] at hq
      cases hq
    have hwp : w.live p = none := by
      rw [← h.others p fun r hr heq => hnotin r hr heq.symm, hnone]
    refine Or.inr ⟨hp, hinv, .cons h.atop h.inv.ok hp halloc, hap, ?_, fun q hq => ?_,
      fun q hq => ?_, hdata, hclients⟩
    · rw [List.map_cons, List.nodup_cons]
      refine ⟨fun hmem => ?_, h.nodup⟩
      obtain ⟨q, hq, heq⟩ := List.mem_map.mp hmem
      exact hnotin q hq heq
    · rcases List.mem_cons.mp hq with rfl | hq
      · exact ⟨hwp, Function.update_self ..⟩
      · obtain ⟨h1, h2⟩ := h.fresh q hq
        exact ⟨h1, (Function.update_of_ne (hnotin q hq) ..).trans h2⟩
    · refine (Function.update_of_ne (hq (p, size) (by simp)) ..).trans ?_
      exact h.others q fun r hr => hq r (by simp [hr])

/-- **`malloc` from the free block at the end of the only heap.** -/
theorem mallocTail {g : HeapDesc} (h : Pending im w lay ps w' [g]) (a : FrameAllocator im) {size : ℕ}
    (hsize : size ≤ heapBlockSizeMax) (pre : List Block) (n : ℕ) (hblocks : g.blocks = pre ++ [⟨n, true⟩])
    (hpre : ∀ b ∈ pre, b.free = false)
    (hn : realSize size + 24 < n) :
    ∃ s', Outcome.Returns (fun fuel => a.malloc size fuel w'.st) (g.payload pre, s') ∧
      Pending im w lay ((g.payload pre, size) :: ps)
        ⟨s', Function.update w'.live (g.payload pre) (some size)⟩
        [{ g with blocks := pre ++ [⟨realSize size, false⟩, ⟨n - realSize size, true⟩] }] := by
  obtain ⟨p, s', lay'', cs, hret, halloc, hcase⟩ := h.malloc a hsize
  obtain ⟨rfl, rfl, -⟩ := halloc.tail hblocks hpre hn
  rcases hcase with ⟨hp, -⟩ | ⟨-, hp⟩
  · simp only [HeapDesc.payload] at hp
    omega
  · exact ⟨s', hret, hp⟩

/-- **`malloc` without room and without frames.** -/
theorem mallocFull (h : Pending im w lay ps w' lay') (a : FrameAllocator im) {size : ℕ}
    (hsize : size ≤ heapBlockSizeMax) (hno : HeapM.NoFit (realSize size) lay')
    (ha : a.alloc w'.st.calls (framesFor (realSize size)) = Option.none) :
    ∃ s', Outcome.Returns (fun fuel => a.malloc size fuel w'.st) (0, s') ∧
      Pending im w lay ps ⟨s', w'.live⟩ lay' := by
  obtain ⟨p, s', lay'', cs, hret, halloc, hcase⟩ := h.malloc a hsize
  obtain rfl := halloc.refused hno ha
  rcases hcase with ⟨-, hp⟩ | ⟨hp, -⟩
  · exact ⟨s', hret, hp⟩
  · exact absurd rfl hp

/-- **`free` of the last block.** -/
theorem free {p n : ℕ} (h : Pending im w lay ((p, n) :: ps) w' lay') (a : FrameAllocator im) :
    ∃ s' lay'', a.release p w'.st = .ok ((), s') ∧
      Pending im w lay ps ⟨s', Function.update w'.live p none⟩ lay'' := by
  obtain ⟨hwp, hlive⟩ := h.fresh (p, n) (by simp)
  obtain ⟨lay₂, cs, m', hrel, hat, hok, hrun, hpay, hout⟩ :=
    h.inv.free_returns hlive (a.free_ok w'.st.calls)
  obtain ⟨hp, hnd⟩ := List.nodup_cons.mp h.nodup
  have hne : ∀ q ∈ ps, q.1 ≠ p := fun q hq heq => hp (List.mem_map.mpr ⟨q, hq, heq⟩)
  refine ⟨_, lay₂, hrun, h.inv.free hrel hat hok, h.atop.release h.inv.ok hrel,
    h.imageApart.releases hrel, hnd, fun q hq => ?_, fun q hq => ?_, fun x hx => ?_, fun q x hx => ?_⟩
  · obtain ⟨h1, h2⟩ := h.fresh q (by simp [hq])
    exact ⟨h1, (Function.update_of_ne (hne q hq) ..).trans h2⟩
  · by_cases hqp : q = p
    · rw [hqp]
      exact (Function.update_self ..).trans hwp.symm
    · refine (Function.update_of_ne hqp ..).trans (h.others q fun r hr => ?_)
      rcases List.mem_cons.mp hr with rfl | hr
      · exact hqp
      · exact hq r hr
  · exact (hout x (h.imageApart.outsideHeaps hx)).trans (h.data x hx)
  · refine (hpay q x (fun hqp => ?_) (h.inv.held_inPayload (h.held hx))).trans (h.clients q x hx)
    obtain ⟨k, hk, -⟩ := hx
    rw [hqp, hwp] at hk
    cases hk

/-- **`free` of the only block**: nothing is left. -/
theorem freeLast {p n : ℕ} (h : Pending im w lay [(p, n)] w' lay') (a : FrameAllocator im) :
    ∃ w'', a.release p w'.st = .ok ((), w''.st) ∧ Pending im w lay [] w'' lay := by
  obtain ⟨s', lay'', hfree, hp⟩ := h.free a
  have hatop := hp.atop
  cases hatop
  exact ⟨_, hfree, hp⟩

/-- **`free` of two blocks**: nothing is left. -/
theorem freeBoth {p q n k : ℕ} (h : Pending im w lay [(p, n), (q, k)] w' lay') (a : FrameAllocator im) :
    ∃ s w'', a.release p w'.st = .ok ((), s) ∧ a.release q s = .ok ((), w''.st) ∧
      Pending im w lay [] w'' lay := by
  obtain ⟨s, lay'', hfree, hp⟩ := h.free a
  obtain ⟨w'', hfree', hp'⟩ := hp.freeLast a
  exact ⟨s, w'', hfree, hfree', hp'⟩

/-- What belongs to the image or to a client of before is outside the blocks, and unchanged. -/
theorem kept (h : Pending im w lay ps w' lay') {x : ℕ} (hx : im.Data x ∨ ∃ q, w.Held q x) :
    (∀ q ∈ ps, x < q.1 ∨ q.1 + q.2 ≤ x) ∧ w'.st.mem x = w.st.mem x := by
  constructor
  · intro r hr
    by_contra hin
    have hheld : w'.Held r.1 x := ⟨r.2, (h.fresh r hr).2, by omega, by omega⟩
    rcases hx with hx | ⟨q, hx⟩
    · exact h.not_data hheld hx
    · exact h.not_held hr hheld hx
  · rcases hx with hx | ⟨q, hx⟩
    · exact h.data x hx
    · exact h.clients q x hx

/-- **Nothing is left**: the layout and the frames are those of before. -/
theorem none (h : Pending im w lay [] w' lay') (hi : HeapInv im.heapList w lay) :
    LayoutAt w'.st.mem im.heapList lay ∧
      (HeapCall.outstanding w'.st.calls).Perm (HeapCall.outstanding w.st.calls) := by
  have hatop := h.atop
  cases hatop
  exact ⟨h.inv.layout, h.inv.held.trans hi.held.symm⟩

end Pending

end HeapRun

end Kalisto
