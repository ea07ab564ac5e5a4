import Kalisto.Mm.FreeSpec

/-!
# Freed blocks as marks

`free` joins a block with its free neighbours at once, and releases the heap when nothing else is in it.
The layout it leaves can be had in another way: mark the block as free, join every run of free blocks,
and drop the heaps that are one free block.  Marks commute, and joining between two marks does not
change the outcome, so the layout after a number of calls depends on the set of blocks only.

* `coalesce`, `markRow` — runs of free blocks joined, one block marked;
* `freeBlocks_eq` — `free` of a block is a mark and `coalesce`;
* `Releases.eq_settle`, `ReleasesAll.perm` — the layout after one call, and after any order of calls;
* `Allocates.undone` — `free` of the block that `malloc` has handed out.
-/

namespace Kalisto

/-! ### Joining runs of free blocks -/

/-- A block before a row, joined with the first block when both are free. -/
def joinFront (b : Block) : List Block → List Block
  | [] => [b]
  | c :: cs => if b.free && c.free then ⟨b.size + c.size, true⟩ :: cs else b :: c :: cs

/-- Every run of free blocks as one block. -/
def coalesce (bs : List Block) : List Block := bs.foldr joinFront []

@[simp] theorem coalesce_nil : coalesce [] = [] := rfl

@[simp] theorem coalesce_cons (b : Block) (bs : List Block) :
    coalesce (b :: bs) = joinFront b (coalesce bs) := rfl

/-- The block at `q - 16`, if there is one, is free; `a` is the address of the row. -/
def markRow (q : ℕ) : ℕ → List Block → List Block
  | _, [] => []
  | a, b :: bs => (if a + 16 = q then ⟨b.size, true⟩ else b) :: markRow q (a + b.size) bs

/-- A row that starts with two free blocks. -/
theorem joinFront_joinFront {b c : Block} (hb : b.free = true) (hc : c.free = true)
    (bs : List Block) :
    joinFront ⟨b.size + c.size, true⟩ bs = joinFront b (joinFront c bs) := by
  cases bs with
  | nil => simp [joinFront, hb, hc]
  | cons d bs => by_cases hd : d.free = true <;> simp [joinFront, hb, hc, hd, Nat.add_assoc]

/-- **Joining between two marks changes nothing**: it takes away starts of free blocks only. -/
theorem coalesce_mark (q a : ℕ) (bs : List Block) :
    coalesce (markRow q a (coalesce bs)) = coalesce (markRow q a bs) := by
  induction bs generalizing a with
  | nil => rfl
  | cons b bs ih =>
    rw [coalesce_cons]
    simp only [markRow, coalesce_cons, ← ih (a + b.size)]
    cases hcs : coalesce bs with
    | nil => simp [joinFront, markRow]
    | cons c cs =>
      by_cases hfree : (b.free && c.free) = true
      · obtain ⟨hb, hc⟩ := Bool.and_eq_true_iff.mp hfree
        have hmark : ∀ {d : Block}, d.free = true → ∀ x, (if x = q then (⟨d.size, true⟩ : Block) else d) = d := by
          intro d hd x
          cases d
          simp_all
        have hjoin : joinFront b (c :: cs) = ⟨b.size + c.size, true⟩ :: cs := by
          rw [joinFront, if_pos hfree]
        rw [hjoin, hmark hb]
        simp only [markRow, coalesce_cons, hmark hc, hmark (d := ⟨b.size + c.size, true⟩) rfl, Nat.add_assoc]
        exact joinFront_joinFront hb hc _
      · have hjoin : joinFront b (c :: cs) = b :: c :: cs := by
          rw [joinFront, if_neg hfree]
        rw [hjoin]
        rfl

/-- A row without two free neighbours before another is left as it is. -/
theorem foldr_joinFront {pre bs : List Block} (h : NoFreePair (pre ++ bs)) :
    pre.foldr joinFront bs = pre ++ bs := by
  induction pre with
  | nil => rfl
  | cons b pre ih =>
    have htail : NoFreePair (pre ++ bs) := (List.isChain_cons.mp h).2
    rw [List.foldr_cons, ih htail, List.cons_append]
    cases hrest : pre ++ bs with
    | nil => rfl
    | cons c cs =>
      rw [List.cons_append, hrest] at h
      have hpair := (List.isChain_cons_cons.mp h).1
      rw [joinFront, if_neg (by simpa using hpair)]

theorem coalesce_of_noFreePair {bs : List Block} (h : NoFreePair bs) : coalesce bs = bs := by
  have hrow := @foldr_joinFront bs [] (by simpa using h)
  simpa [coalesce] using hrow

/-- The blocks behind a free block. -/
theorem joinFront_post {post : List Block} (n : ℕ) (h : NoFreePair post) :
    ∃ k post', joinNext n post = (k, post') ∧ joinFront ⟨n, true⟩ post = ⟨k, true⟩ :: post' ∧
      NoFreePair post' ∧ ∀ c ∈ post'.head?, c.free = false := by
  cases post with
  | nil => exact ⟨n, [], rfl, rfl, h, by simp⟩
  | cons c cs =>
    obtain ⟨-, hcs, hhead⟩ := (@noFreePair_middle [] cs c).mp h
    by_cases hc : c.free = true
    · exact ⟨n + c.size, cs, by simp [joinNext, hc], by simp [joinFront, hc], hcs, (hhead hc).2⟩
    · exact ⟨n, c :: cs, by simp [joinNext, hc], by simp [joinFront, hc], h, by simpa using hc⟩

/-- **`free` of a block** of a heap is a mark. -/
theorem freeBlocks_eq {pre post : List Block} {b : Block} (h : NoFreePair (pre ++ b :: post)) :
    freeBlocks pre b post = coalesce (pre ++ ⟨b.size, true⟩ :: post) := by
  obtain ⟨hpre, hpost, -⟩ := noFreePair_middle.mp h
  obtain ⟨n, post', hnext, hback, hpost', hhead⟩ := joinFront_post b.size hpost
  have hrow : coalesce (pre ++ ⟨b.size, true⟩ :: post) = pre.foldr joinFront (⟨n, true⟩ :: post') := by
    have hid : post.foldr joinFront [] = post := coalesce_of_noFreePair hpost
    rw [coalesce, List.foldr_append, List.foldr_cons, hid, hback]
  -- a row that ends with a block that is not free stays
  have hstay : ∀ {us : List Block} {k : ℕ}, NoFreePair us → (∀ c ∈ us.getLast?, c.free = false) →
      us.foldr joinFront (⟨k, true⟩ :: post') = us ++ ⟨k, true⟩ :: post' := fun hus hlast =>
    foldr_joinFront (noFreePair_middle.mpr ⟨hus, hpost', fun _ => ⟨hlast, hhead⟩⟩)
  rw [hrow]
  simp only [freeBlocks, hnext]
  rcases List.eq_nil_or_concat' pre with rfl | ⟨us, d, rfl⟩
  · rfl
  · have hlast : (us ++ [d]).getLast? = some d := by simp
    rw [joinPrev, hlast]
    by_cases hd : d.free = true
    · have hus := (List.isChain_append.mp hpre).1
      have hbefore := (((@noFreePair_middle us [] d).mp hpre).2.2 hd).1
      rw [List.foldr_append, List.foldr_cons, List.foldr_nil]
      simp only [joinFront, hd, Bool.and_self, if_true, List.dropLast_concat]
      exact (hstay hus hbefore).symm
    · simp only [hd, Bool.false_eq_true, if_false]
      refine (hstay hpre fun c hc => ?_).symm
      rw [hlast] at hc
      cases hc
      simpa using hd

/-! ### Marking a block of a row -/

@[simp] theorem total_markRow (q a : ℕ) (bs : List Block) : total (markRow q a bs) = total bs := by
  induction bs generalizing a with
  | nil => rfl
  | cons b bs ih =>
    simp only [markRow, total_cons, ih]
    split <;> rfl

theorem markRow_append (q a : ℕ) (bs cs : List Block) :
    markRow q a (bs ++ cs) = markRow q a bs ++ markRow q (a + total bs) cs := by
  induction bs generalizing a with
  | nil => rfl
  | cons b bs ih =>
    simp only [List.cons_append, markRow, total_cons, ih, Nat.add_assoc]

/-- A pointer to a place outside the row. -/
theorem markRow_outside {q a : ℕ} {bs : List Block} (hbs : ∀ b ∈ bs, b.Ok)
    (hq : q < a + 16 ∨ a + total bs ≤ q) : markRow q a bs = bs := by
  induction bs generalizing a with
  | nil => rfl
  | cons b bs ih =>
    have h24 := (hbs b (by simp)).1
    simp only [total_cons] at hq
    rw [markRow, if_neg (by omega), ih (fun c hc => hbs c (by simp [hc])) (by omega)]

/-- Marks commute. -/
theorem markRow_comm (q r a : ℕ) (bs : List Block) :
    markRow q a (markRow r a bs) = markRow r a (markRow q a bs) := by
  induction bs generalizing a with
  | nil => rfl
  | cons b bs ih =>
    have hsize : ∀ x, (if a + 16 = x then (⟨b.size, true⟩ : Block) else b).size = b.size := by
      intro x
      split <;> rfl
    simp only [markRow, hsize, ih]
    congr 1
    split <;> split <;> rfl

/-! ### Layouts -/

/-- The heap with a mark. -/
def HeapDesc.mark (q : ℕ) (h : HeapDesc) : HeapDesc := { h with blocks := markRow q h.start h.blocks }

/-- The heap with its runs of free blocks joined. -/
def HeapDesc.normal (h : HeapDesc) : HeapDesc := { h with blocks := coalesce h.blocks }

/-- The heap is one free block. -/
def HeapDesc.vacant (h : HeapDesc) : Bool :=
  match h.blocks with
  | [b] => b.free
  | _ => false

/-- The layout with its runs of free blocks joined, and without vacant heaps. -/
def settle (lay : List HeapDesc) : List HeapDesc := (lay.map HeapDesc.normal).filter fun h => !h.vacant

theorem settle_append (L R : List HeapDesc) : settle (L ++ R) = settle L ++ settle R := by
  simp [settle]

/-- **Settling between two marks changes nothing.** -/
theorem settle_mark (q : ℕ) (lay : List HeapDesc) :
    settle ((settle lay).map (HeapDesc.mark q)) = settle (lay.map (HeapDesc.mark q)) := by
  have hone : ∀ h : HeapDesc, (h.normal.mark q).normal = (h.mark q).normal := fun h => by
    simp only [HeapDesc.normal, HeapDesc.mark, HeapDesc.start, coalesce_mark]
  induction lay with
  | nil => rfl
  | cons h lay ih =>
    simp only [settle, List.map_cons, List.filter_cons] at ih ⊢
    rw [← hone h]
    cases hv : h.normal.vacant with
    | false =>
      simp only [Bool.not_false, if_true, List.map_cons, List.filter_cons, ih]
    | true =>
      -- the only block of a vacant heap is free already
      have hstay : (h.normal.mark q).normal.vacant = true := by
        simp only [HeapDesc.vacant] at hv
        split at hv
        · next b hb =>
          have hmark : (h.normal.mark q).normal.blocks =
              [if h.normal.start + 16 = q then ⟨b.size, true⟩ else b] := by
            change coalesce (markRow q h.normal.start h.normal.blocks) = _
            rw [hb]
            rfl
          simp only [HeapDesc.vacant, hmark]
          split <;> simp [hv]
        · cases hv
      simp only [Bool.not_true, Bool.false_eq_true, if_false, hstay, ih]

/-- The layout with some marks. -/
def marks (lay : List HeapDesc) (ps : List ℕ) : List HeapDesc :=
  ps.foldl (fun lay q => lay.map (HeapDesc.mark q)) lay

theorem settle_marks_congr {lay lay' : List HeapDesc} (h : settle lay = settle lay') (ps : List ℕ) :
    settle (marks lay ps) = settle (marks lay' ps) := by
  induction ps generalizing lay lay' with
  | nil => exact h
  | cons q ps ih =>
    refine ih ?_
    rw [← settle_mark q lay, h, settle_mark q lay']

/-- **The order of the marks does not matter.** -/
theorem marks_perm {ps qs : List ℕ} (h : ps.Perm qs) (lay : List HeapDesc) : marks lay ps = marks lay qs := by
  refine h.foldl_eq' (fun q _ r _ lay => ?_) lay
  rw [List.map_map, List.map_map]
  refine List.map_congr_left fun g _ => ?_
  simp only [Function.comp_apply, HeapDesc.mark, HeapDesc.start]
  rw [markRow_comm]

/-- A heap of a good layout is settled. -/
theorem HeapDesc.Ok.normal {h : HeapDesc} (hok : h.Ok) : h.normal = h ∧ h.vacant = false := by
  refine ⟨?_, ?_⟩
  · rw [HeapDesc.normal, coalesce_of_noFreePair hok.noFreePair]
  · simp only [HeapDesc.vacant]
    split
    · next b hb =>
      by_contra hfree
      obtain ⟨n, f⟩ := b
      exact hok.notFree n (by rw [hb]; simpa using hfree)
    · rfl

theorem settle_of_ok {lay : List HeapDesc} (h : ∀ g ∈ lay, g.Ok) : settle lay = lay := by
  induction lay with
  | nil => rfl
  | cons g lay ih =>
    obtain ⟨hn, hv⟩ := (h g (by simp)).normal
    have hrest := ih fun k hk => h k (by simp [hk])
    simp only [settle, List.map_cons, List.filter_cons] at hrest ⊢
    rw [hn, hv, hrest]
    rfl

/-- A pointer into another heap marks nothing. -/
theorem HeapDesc.Ok.mark_outside {h : HeapDesc} (hok : h.Ok) {q : ℕ}
    (hq : q < h.start + 16 ∨ h.stop ≤ q) : h.mark q = h := by
  rw [HeapDesc.mark, markRow_outside hok.blocks (by rw [hok.tiled]; exact hq)]

/-- A pointer to the block after `pre` marks that block. -/
theorem HeapDesc.Ok.mark_block {h : HeapDesc} (hok : h.Ok) {pre post : List Block} {b : Block}
    (hb : h.blocks = pre ++ b :: post) :
    h.mark (h.payload pre) = { h with blocks := pre ++ ⟨b.size, true⟩ :: post } := by
  have hpre : ∀ c ∈ pre, c.Ok := fun c hc => hok.blocks c (by rw [hb]; simp [hc])
  have hpost : ∀ c ∈ post, c.Ok := fun c hc => hok.blocks c (by rw [hb]; simp [hc])
  have h24 := (hok.block hb).1.1
  have hpay : h.payload pre = h.start + total pre + 16 := rfl
  rw [HeapDesc.mark, hb, markRow_append, markRow_outside hpre (Or.inr (by omega)), markRow,
    if_pos hpay.symm, markRow_outside hpost (Or.inl (by omega))]

/-- **The layout after `free`** is the settled layout after a mark. -/
theorem Releases.eq_settle {l p : ℕ} {lay lay' : List HeapDesc} {cs : List HeapCall}
    (h : Releases lay p lay' cs) (hok : LayoutOk l lay) : lay' = settle (lay.map (HeapDesc.mark p)) := by
  -- the other heaps are left as they are
  have hothers : ∀ {L R K : List HeapDesc} {h : HeapDesc} {pre post : List Block} {b : Block},
      LayoutOk l (L ++ h :: R) → h.blocks = pre ++ b :: post → (K = L ∨ K = R) →
      settle (K.map (HeapDesc.mark (h.payload pre))) = K := by
    intro L R K h pre post b hok hb hK
    have hin := hok.heap.block hb
    have hsub : ∀ g ∈ K, g ∈ L ++ h :: R ∧ g.Apart h := by
      have hap := hok.apart
      simp only [List.pairwise_append, List.pairwise_cons, List.mem_cons, forall_eq_or_imp] at hap
      rcases hK with rfl | rfl
      · exact fun g hg => ⟨by simp [hg], (hap.2.2 g hg).1⟩
      · exact fun g hg => ⟨by simp [hg], (hap.2.1.1 g hg).symm⟩
    have hmap : K.map (HeapDesc.mark (h.payload pre)) = K := by
      refine (List.map_congr_left fun g hg => ?_).trans (List.map_id K)
      obtain ⟨hmem, hap⟩ := hsub g hg
      have h24 := hin.1.1
      simp only [HeapDesc.Apart, HeapDesc.start] at hap hin
      refine (hok.heaps g hmem).mark_outside ?_
      simp only [HeapDesc.payload, HeapDesc.start]
      omega
    rw [hmap]
    exact settle_of_ok fun g hg => hok.heaps g (hsub g hg).1
  -- the heap of the block
  have hheap : ∀ {h : HeapDesc} {pre post : List Block} {b : Block}, h.Ok →
      h.blocks = pre ++ b :: post →
      (h.mark (h.payload pre)).normal = { h with blocks := freeBlocks pre b post } := by
    intro h pre post b hok hb
    have hpair := hok.noFreePair
    rw [hb] at hpair
    rw [hok.mark_block hb, HeapDesc.normal, freeBlocks_eq hpair]
  cases h with
  | @keep L R h pre post b hlay hb hfree hp hne =>
    subst hlay hp
    have hstays := (hok.heap.release hb hne).normal.2
    rw [List.map_append, List.map_cons, settle_append, hothers hok hb (Or.inl rfl)]
    have hcons : settle (h.mark (h.payload pre) :: R.map (HeapDesc.mark (h.payload pre))) =
        { h with blocks := freeBlocks pre b post } :: R := by
      have hR := hothers hok hb (Or.inr rfl)
      simp only [settle, List.map_cons, List.filter_cons, hheap hok.heap hb, hstays] at hR ⊢
      rw [hR]
      rfl
    rw [hcons]
  | @drop L R h pre post b n hlay hb hfree hp hone =>
    subst hlay hp
    rw [List.map_append, List.map_cons, settle_append, hothers hok hb (Or.inl rfl)]
    have hcons : settle (h.mark (h.payload pre) :: R.map (HeapDesc.mark (h.payload pre))) = R := by
      have hR := hothers hok hb (Or.inr rfl)
      simp only [settle, List.map_cons, List.filter_cons, hheap hok.heap hb, hone] at hR ⊢
      exact hR
    rw [hcons]

/-! ### The inverse of `malloc` -/

/-- The block that was taken, freed, gives the block it was taken from. -/
theorem freeBlocks_takeBlocks {real n : ℕ} {pre post rest : List Block} {b : Block}
    (htake : takeBlocks real b = ⟨n, false⟩ :: rest) (hfree : b.free = true)
    (h : NoFreePair (pre ++ b :: post)) : freeBlocks pre ⟨n, false⟩ (rest ++ post) = pre ++ b :: post := by
  have hpair : NoFreePair (pre ++ takeBlocks real b ++ post) := h.take hfree
  rw [htake, List.append_assoc, List.cons_append] at hpair
  rw [freeBlocks_eq hpair]
  have hjoin : (⟨n, true⟩ :: (rest ++ post) : List Block).foldr joinFront [] =
      (b :: post).foldr joinFront [] := by
    simp only [takeBlocks] at htake
    split at htake
    · next hsplit =>
      simp only [List.cons.injEq, Block.mk.injEq, and_true] at htake
      obtain ⟨rfl, rfl⟩ := htake
      have hsum : real + (b.size - real) = b.size := by omega
      have hb : (⟨b.size, true⟩ : Block) = b := by rw [← hfree]
      simp only [List.cons_append, List.nil_append, List.foldr_cons]
      rw [← joinFront_joinFront (b := ⟨real, true⟩) (c := ⟨b.size - real, true⟩) rfl rfl]
      simp only [hsum, hb]
    · simp only [List.cons.injEq, Block.mk.injEq, and_true] at htake
      obtain ⟨rfl, rfl⟩ := htake
      have hb : (⟨b.size, true⟩ : Block) = b := by rw [← hfree]
      rw [hb, List.nil_append]
  rw [coalesce, List.foldr_append, hjoin, ← List.foldr_append]
  exact coalesce_of_noFreePair h

/-- **`free` undoes `malloc`**: a block that was split is whole again, and a new heap is gone. -/
theorem Allocates.undone {answer : ℕ → Option ℕ} {l real p : ℕ} {lay lay' : List HeapDesc}
    {cs : List HeapCall} (h : Allocates answer real lay lay' p cs) (hok : LayoutOk l lay) (hp : p ≠ 0) :
    ∃ ds, Releases lay' p lay ds := by
  cases h with
  | @fit L R h pre post b hlay hb hL hpre hfit =>
    subst hlay
    simp only [Block.fits, Bool.and_eq_true] at hfit
    obtain ⟨n, rest, htake, -⟩ := takeBlocks_eq real b
    have hpair := hok.heap.noFreePair
    rw [hb] at hpair
    have hback := freeBlocks_takeBlocks htake hfit.1 hpair
    have hblocks : pre ++ takeBlocks real b ++ post = pre ++ ⟨n, false⟩ :: (rest ++ post) := by
      rw [htake, List.append_assoc, List.cons_append]
    have hkeep : Releases (L ++ { h with blocks := pre ++ takeBlocks real b ++ post } :: R)
        (h.payload pre) (L ++ { h with blocks := freeBlocks pre ⟨n, false⟩ (rest ++ post) } :: R) [] :=
      .keep (h := { h with blocks := pre ++ takeBlocks real b ++ post }) rfl hblocks rfl rfl fun k hk => by
        rw [hback, ← hb] at hk
        exact hok.heap.notFree k hk
    refine ⟨[], ?_⟩
    rw [hback, ← hb] at hkeep
    exact hkeep
  | full hno ha => exact absurd rfl hp
  | @grow phys hno ha =>
    obtain ⟨n, rest, htake, -⟩ := takeBlocks_eq real ⟨framesFor real * 4096 - 20, true⟩
    have hback : freeBlocks [] ⟨n, false⟩ (rest ++ []) = [⟨framesFor real * 4096 - 20, true⟩] :=
      freeBlocks_takeBlocks htake rfl (by simp [NoFreePair])
    have hblocks : (newHeap real phys).blocks = [] ++ ⟨n, false⟩ :: (rest ++ []) := by
      rw [newHeap, htake]
      simp
    have hdrop : Releases (lay ++ newHeap real phys :: []) ((newHeap real phys).payload []) (lay ++ [])
        [.free ((newHeap real phys).base - 0x80000000) (newHeap real phys).frames] :=
      .drop rfl hblocks rfl rfl hback
    rw [List.append_nil] at hdrop
    exact ⟨_, hdrop⟩

/-! ### Any number of calls -/

theorem Releases.ok {l p : ℕ} {lay lay' : List HeapDesc} {cs : List HeapCall}
    (h : Releases lay p lay' cs) (hok : LayoutOk l lay) : LayoutOk l lay' := by
  cases h with
  | keep hlay hb hfree hp hne =>
    subst hlay
    exact hok.replace (hok.heap.release hb hne) rfl rfl
  | drop hlay hb hfree hp hone =>
    subst hlay
    exact hok.remove

/-- Some blocks are freed, one after the other; the calls to the frame allocator, newest first. -/
inductive ReleasesAll : List HeapDesc → List ℕ → List HeapDesc → List HeapCall → Prop
  | nil {lay : List HeapDesc} : ReleasesAll lay [] lay []
  | cons {lay lay₁ lay' : List HeapDesc} {p : ℕ} {ps : List ℕ} {cs ds : List HeapCall} :
      Releases lay p lay₁ cs → ReleasesAll lay₁ ps lay' ds → ReleasesAll lay (p :: ps) lay' (ds ++ cs)

theorem ReleasesAll.eq_settle {l : ℕ} {ps : List ℕ} {lay lay' : List HeapDesc} {cs : List HeapCall}
    (h : ReleasesAll lay ps lay' cs) (hok : LayoutOk l lay) : lay' = settle (marks lay ps) := by
  induction h with
  | nil => exact (settle_of_ok hok.heaps).symm
  | @cons lay lay₁ lay' p ps cs ds hone hrest ih =>
    have hok₁ := hone.ok hok
    rw [ih hok₁]
    refine settle_marks_congr ?_ ps
    rw [settle_of_ok hok₁.heaps, hone.eq_settle hok]

/-- **The order of the calls does not matter** for the layout. -/
theorem ReleasesAll.perm {l : ℕ} {ps qs : List ℕ} {lay lay₁ lay₂ : List HeapDesc}
    {cs ds : List HeapCall} (h₁ : ReleasesAll lay ps lay₁ cs) (h₂ : ReleasesAll lay qs lay₂ ds)
    (hperm : ps.Perm qs) (hok : LayoutOk l lay) : lay₁ = lay₂ := by
  rw [h₁.eq_settle hok, h₂.eq_settle hok, marks_perm hperm]

end Kalisto
