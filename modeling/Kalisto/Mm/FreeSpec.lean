import Kalisto.Mm.MallocSpec

/-!
# What `free` does to the layout

`free` joins the block with its free neighbours, and gives the frames of a heap back when it has become
one free block.  `Releases` is that behaviour on layouts.

* `mergeNext_spec`, `mergePrev_spec`, `releaseHeap_keep`, `releaseHeap_drop` — the parts of `free`;
* `join_eq` — the joined block is the freed one with its free neighbours;
* `free_spec` — the memory holds the layout of `Releases`, and no byte of another allocated payload
  has changed.
-/

namespace Kalisto

/-! ### A heap in the middle of an operation -/

/-- The memory holds the heap `h` with the blocks `bs`, which tile it. -/
structure Row (m : Memory) (h : HeapDesc) (bs : List Block) : Prop where
  head : HeapHead m h
  blocks : BlocksAt m h.base h.start bs
  ok : ∀ b ∈ bs, b.Ok
  tiled : h.start + total bs = h.stop

theorem HeapAt.row {m : Memory} {h : HeapDesc} (hh : HeapAt m h) (hok : h.Ok) :
    Row m h h.blocks := ⟨hh.head hok, hh.blocks, hok.blocks, hok.tiled⟩

theorem Row.blockIn {m : Memory} {h : HeapDesc} {pre post : List Block} {b : Block}
    (hr : Row m h (pre ++ b :: post)) : BlockIn m h (h.blockAddr pre) b := by
  have hat := hr.blocks
  rw [blocksAt_append] at hat
  have htiled := hr.tiled
  simp only [total_append, total_cons] at htiled
  have hpre : total pre % 4 = 0 := total_mod_four fun c hc => hr.ok c (by simp [hc])
  have hal := hr.head.aligned
  refine ⟨hat.2.1, hr.ok b (by simp), ?_, ?_, ?_⟩
  · simp only [HeapDesc.blockAddr, HeapDesc.start]
    omega
  · simp [HeapDesc.blockAddr]
  · simp only [HeapDesc.blockAddr]
    omega

/-- Some blocks of a heap give way to others of the same size. -/
theorem Row.replace {m m' : Memory} {h : HeapDesc} {pre old post : List Block}
    (hr : Row m h (pre ++ old ++ post)) (mid : List Block) (hmid : BlocksAt m' h.base (h.blockAddr pre) mid)
    (hok : ∀ b ∈ mid, b.Ok) (htot : total mid = total old)
    (hout : ∀ x, x < h.blockAddr pre ∨ h.blockAddr pre + total old ≤ x → m' x = m x) :
    Row m' h (pre ++ mid ++ post) := by
  have htiled := hr.tiled
  simp only [total_append] at htiled
  refine ⟨hr.head.congr fun x _ hx => hout x (Or.inl ?_), ?_, ?_, ?_⟩
  · simp only [HeapDesc.blockAddr]
    omega
  · exact hr.blocks.replace (fun b hb => hr.ok b (by simp [hb]))
      (fun b hb => hr.ok b (by simp [hb])) htot hmid hout
  · intro b hb
    simp only [List.mem_append] at hb
    rcases hb with (hb | hb) | hb
    · exact hr.ok b (by simp [hb])
    · exact hok b hb
    · exact hr.ok b (by simp [hb])
  · simp only [total_append]
    omega

namespace HeapM

/-- `block_init` joins a stretch of blocks. -/
theorem blockInit_join {s : HeapState} {h : HeapDesc} {pre old post : List Block} {n : ℕ}
    (hr : Row s.mem h (pre ++ old ++ post)) (hold : old ≠ []) (hn : total old = n) :
    ∃ m', blockInit (h.blockAddr pre) n true h.base s = .ok ((), { s with mem := m' }) ∧
      Row m' h (pre ++ ⟨n, true⟩ :: post) ∧
      ∀ x, x < h.blockAddr pre ∨ h.blockAddr pre + n ≤ x → m' x = s.mem x := by
  subst hn
  have htiled := hr.tiled
  simp only [total_append] at htiled
  have hhi := hr.head.hi
  have hroom := hr.head.room
  have ho4 : total old % 4 = 0 := total_mod_four fun b hb => hr.ok b (by simp [hb])
  have ho24 : 24 ≤ total old := by
    obtain ⟨c, cs, rfl⟩ := List.exists_cons_of_ne_nil hold
    have := (hr.ok c (by simp)).1
    simp only [total_cons]
    omega
  have ha : h.blockAddr pre % 4 = 0 := by
    obtain ⟨c, cs, rfl⟩ := List.exists_cons_of_ne_nil hold
    have hfirst : Row s.mem h (pre ++ c :: (cs ++ post)) := by simpa using hr
    exact hfirst.blockIn.aligned
  have hend : h.blockAddr pre + total old < 2 ^ 32 := by
    simp only [HeapDesc.blockAddr]
    omega
  refine ⟨_, blockInit_apply ha ho24 ho4 hend, ?_, ?_⟩
  · have hrow := hr.replace [⟨total old, true⟩]
      ⟨initBlock_at s.mem ha ho24 ho4 (by omega) (by omega), trivial⟩ (by simp [Block.Ok, ho24, ho4])
      (by simp) fun x hx => initBlock_outside s.mem ho24 (by simp only [MetaByte]; omega)
    simpa using hrow
  · exact fun x hx => initBlock_outside s.mem ho24 (by simp only [MetaByte]; omega)

/-! ### The next block -/

/-- **The next block is joined if it is free.** -/
theorem mergeNext_spec {s : HeapState} {h : HeapDesc} {pre post : List Block} {n : ℕ}
    (hr : Row s.mem h (pre ++ ⟨n, true⟩ :: post)) :
    ∃ m', mergeNext h.base (h.blockAddr pre) s = .ok ((), { s with mem := m' }) ∧
      Row m' h (pre ++ ⟨(joinNext n post).1, true⟩ :: (joinNext n post).2) ∧
      ∀ x, x < h.blockAddr pre ∨ h.blockAddr pre + (joinNext n post).1 ≤ x → m' x = s.mem x := by
  have hb := hr.blockIn
  have hhi := hr.head.hi
  have hbhi := hb.hi
  have htiled := hr.tiled
  simp only [total_append, total_cons] at htiled
  have hnext : h.blockAddr pre + n < 2 ^ 32 := by
    simp only at hbhi
    omega
  cases post with
  | nil =>
    have hge : ¬ h.blockAddr pre + n < h.stop := by
      simp only [HeapDesc.blockAddr, total_nil] at htiled ⊢
      omega
    refine ⟨s.mem, ?_, hr, fun _ _ => rfl⟩
    simp only [mergeNext, bind_apply, load_size hr.head hb, Outcome.ok_bind, add_apply hnext,
      load_stop hr.head, hge, if_false, pure_apply]
  | cons c post =>
    have hr' : Row s.mem h ((pre ++ [⟨n, true⟩]) ++ c :: post) := by simpa using hr
    have hc := hr'.blockIn
    have hca : h.blockAddr (pre ++ [⟨n, true⟩]) = h.blockAddr pre + n := by
      simp only [HeapDesc.blockAddr, total_append, total_cons, total_nil]
      omega
    rw [hca] at hc
    have hlt : h.blockAddr pre + n < h.stop := by
      have h1 := hc.hi
      have h2 := hc.ok.1
      omega
    cases hf : c.free with
    | true =>
      have hjoin : Row s.mem h (pre ++ [⟨n, true⟩, c] ++ post) := by simpa using hr
      obtain ⟨m', hrun, hrow, hout⟩ := blockInit_join hjoin (by simp)
        (show total [⟨n, true⟩, c] = n + c.size by simp)
      refine ⟨m', ?_, by simpa [joinNext, hf] using hrow, by simpa [joinNext, hf] using hout⟩
      have hsum : n + c.size < 2 ^ 32 := by
        have := hc.hi
        omega
      simp only [mergeNext, bind_apply, load_size hr.head hb, Outcome.ok_bind, add_apply hnext,
        load_stop hr.head, hlt, if_true, blockCheck_in hr.head hc, loadBool_free hr.head hc, hf,
        load_size hr.head hc, add_apply hsum, hrun]
    | false =>
      refine ⟨s.mem, ?_, by simpa [joinNext, hf] using hr, fun _ _ => rfl⟩
      simp only [mergeNext, bind_apply, load_size hr.head hb, Outcome.ok_bind, add_apply hnext,
        load_stop hr.head, hlt, if_true, blockCheck_in hr.head hc, loadBool_free hr.head hc, hf,
        Bool.false_eq_true, if_false, pure_apply]

/-! ### The previous block -/

/-- The footer before a block tells where the previous one starts. -/
theorem load_prevFoot {s : HeapState} {h : HeapDesc} {pre post : List Block} {d : Block}
    (hr : Row s.mem h (pre ++ d :: post)) :
    load (h.blockAddr (pre ++ [d]) - 8) 4 s = .ok (d.size, s) := by
  have hd := hr.blockIn
  have h1 := hd.aligned
  have h2 := hd.ok.1
  have h3 := hd.ok.2
  have h4 := hd.hi
  have h5 := hr.head.hi
  have ha : h.blockAddr (pre ++ [d]) = h.blockAddr pre + d.size := by
    simp only [HeapDesc.blockAddr, total_append, total_cons, total_nil]
    omega
  rw [ha, load_apply (by omega) (by omega),
    show h.blockAddr pre + d.size - 8 + 4 = h.blockAddr pre + d.size - 4 by omega,
    hd.block.footSize]

/-- **The previous block is joined if it is free.** -/
theorem mergePrev_spec {s : HeapState} {h : HeapDesc} {pre post : List Block} {n : ℕ}
    (hr : Row s.mem h (pre ++ ⟨n, true⟩ :: post)) :
    ∃ m', mergePrev h.base (h.blockAddr pre) s = .ok ((), { s with mem := m' }) ∧
      Row m' h ((joinPrev pre n).1 ++ ⟨(joinPrev pre n).2, true⟩ :: post) ∧
      ∀ x, x < h.blockAddr (joinPrev pre n).1 ∨
        h.blockAddr (joinPrev pre n).1 + (joinPrev pre n).2 ≤ x → m' x = s.mem x := by
  rcases List.eq_nil_or_concat' pre with rfl | ⟨pre, d, rfl⟩
  · refine ⟨s.mem, ?_, hr, fun _ _ => rfl⟩
    have hlt : ¬ h.start < h.blockAddr [] := by simp [HeapDesc.blockAddr]
    simp only [mergePrev, bind_apply, load_start hr.head, Outcome.ok_bind, hlt, if_false,
      pure_apply]
  · have hr' : Row s.mem h (pre ++ d :: ⟨n, true⟩ :: post) := by simpa using hr
    have hb := hr.blockIn
    have hd := hr'.blockIn
    have hhi := hr.head.hi
    have h1 := hb.hi
    have h2 := hd.ok.1
    have hdlo := hd.lo
    have ha : h.blockAddr (pre ++ [d]) = h.blockAddr pre + d.size := by
      simp only [HeapDesc.blockAddr, total_append, total_cons, total_nil]
      omega
    have hlt : h.start < h.blockAddr (pre ++ [d]) := by omega
    have hprev : h.blockAddr (pre ++ [d]) - d.size = h.blockAddr pre := by omega
    cases hf : d.free with
    | true =>
      have hjoin : Row s.mem h (pre ++ [d, ⟨n, true⟩] ++ post) := by simpa using hr'
      obtain ⟨m', hrun, hrow, hout⟩ := blockInit_join hjoin (by simp)
        (show total [d, ⟨n, true⟩] = d.size + n by simp)
      refine ⟨m', ?_, by simpa [joinPrev, hf] using hrow, by simpa [joinPrev, hf] using hout⟩
      have hsum : d.size + n < 2 ^ 32 := by
        simp only at h1
        omega
      simp only [mergePrev, bind_apply, load_start hr.head, Outcome.ok_bind, hlt, if_true,
        sizeofFoot, sub_apply (show 8 ≤ h.blockAddr (pre ++ [d]) by omega)
          (show h.blockAddr (pre ++ [d]) < 2 ^ 32 by omega), load_prevFoot hr',
        sub_apply (show d.size ≤ h.blockAddr (pre ++ [d]) by omega)
          (show h.blockAddr (pre ++ [d]) < 2 ^ 32 by omega), hprev, blockCheck_in hr.head hd,
        loadBool_free hr.head hd, hf, load_size hr.head hd, load_size hr.head hb, add_apply hsum,
        hrun]
    | false =>
      refine ⟨s.mem, ?_, by simpa [joinPrev, hf] using hr, fun _ _ => rfl⟩
      simp only [mergePrev, bind_apply, load_start hr.head, Outcome.ok_bind, hlt, if_true,
        sizeofFoot, sub_apply (show 8 ≤ h.blockAddr (pre ++ [d]) by omega)
          (show h.blockAddr (pre ++ [d]) < 2 ^ 32 by omega), load_prevFoot hr',
        sub_apply (show d.size ≤ h.blockAddr (pre ++ [d]) by omega)
          (show h.blockAddr (pre ++ [d]) < 2 ^ 32 by omega), hprev, blockCheck_in hr.head hd,
        loadBool_free hr.head hd, hf, Bool.false_eq_true, if_false, pure_apply]

/-! ### The whole heap -/

/-- A heap that is more than one free block stays. -/
theorem releaseHeap_keep {s : HeapState} {h : HeapDesc} {d : Block} {bs : List Block}
    {answer : ℕ → ℕ → Errno} (hr : Row s.mem h (d :: bs)) (hne : ∀ n, d :: bs ≠ [⟨n, true⟩]) :
    releaseHeap answer h.base s = .ok ((), s) := by
  have hd : BlockIn s.mem h h.start d := by
    simpa [HeapDesc.blockAddr] using @Row.blockIn s.mem h [] bs d hr
  have hhi := hr.head.hi
  have hdhi := hd.hi
  have htiled := hr.tiled
  simp only [total_cons] at htiled
  cases hf : d.free with
  | false =>
    simp only [releaseHeap, bind_apply, load_start hr.head, Outcome.ok_bind,
      loadBool_free hr.head hd, hf, Bool.false_eq_true, if_false, pure_apply]
  | true =>
    have hlt : ¬ h.start + d.size = h.stop := by
      cases bs with
      | nil =>
        obtain ⟨n, f⟩ := d
        simp only at hf
        subst hf
        exact absurd rfl (hne n)
      | cons c bs =>
        have := (hr.ok c (by simp)).1
        simp only [total_cons] at htiled
        omega
    simp only [releaseHeap, bind_apply, load_start hr.head, Outcome.ok_bind,
      loadBool_free hr.head hd, hf, if_true, load_size hr.head hd,
      add_apply (show h.start + d.size < 2 ^ 32 by omega), load_stop hr.head, hlt, if_false,
      pure_apply]

/-- A heap that is one free block is taken off the list and its frames are given back. -/
theorem releaseHeap_drop {s : HeapState} {h : HeapDesc} {n l phys : ℕ} {xs ys : List ℕ}
    {answer : ℕ → ℕ → Errno} (hr : Row s.mem h [⟨n, true⟩])
    (hring : Links.Ring (linksOf s.mem) l (xs ++ h.base :: ys))
    (hs : Spread (l :: (xs ++ h.base :: ys))) (hphys : h.base = 0x80000000 + phys)
    (hlt : phys < 0x20000000) (hans : answer phys h.frames = .eok)
    (hlinks : ∀ x, h.base + 8 ≤ x → x < h.start → OutsideLinks (l :: (xs ++ h.base :: ys)) x) :
    ∃ m', releaseHeap answer h.base s =
        .ok ((), { s with mem := m', calls := .free phys h.frames :: s.calls }) ∧
      Links.Ring (linksOf m') l (xs ++ ys) ∧
      ∀ x, OutsideLinks (l :: (xs ++ h.base :: ys)) x → m' x = s.mem x := by
  have hd : BlockIn s.mem h h.start ⟨n, true⟩ := by
    simpa [HeapDesc.blockAddr] using @Row.blockIn s.mem h [] [] ⟨n, true⟩ hr
  have hhi := hr.head.hi
  have hdhi := hd.hi
  have htiled := hr.tiled
  simp only [total_cons, total_nil, Nat.add_zero] at htiled hdhi
  obtain ⟨m', hrun, hring', hout⟩ := listRemove_spec hring hs
  have hhead : HeapHead m' h := hr.head.congr fun x hx hx' => hout x (hlinks x hx hx')
  have hfrom : addrFromKseg0 h.base = phys := by rw [hphys, addrFromKseg0_eq hlt]
  refine ⟨m', ?_, hring', hout⟩
  have hframes := load_frames (s := { s with mem := m' }) hhead
  simp only [releaseHeap, bind_apply, load_start hr.head, Outcome.ok_bind,
    loadBool_free hr.head hd, if_true, load_size hr.head hd,
    add_apply (show h.start + n < 2 ^ 32 by omega), load_stop hr.head, htiled, hrun, hframes,
    hfrom, logCall, modify_apply, hans, ne_eq, not_true_eq_false, if_false, pure_apply]

end HeapM

/-! ### The freed block and its neighbours -/

/-- What a release joins: the block with the free neighbours. -/
theorem join_eq (pre : List Block) (b : Block) (post : List Block) :
    ∃ pre' o1 o2 post', pre = pre' ++ o1 ∧ post = o2 ++ post' ∧
      joinNext b.size post = (b.size + total o2, post') ∧
      joinPrev pre (b.size + total o2) = (pre', total o1 + (b.size + total o2)) ∧
      (∀ c ∈ o1 ++ o2, c.free = true) ∧
      (NoFreePair pre → ∀ c ∈ pre'.getLast?, c.free = false) ∧
      (NoFreePair post → ∀ c ∈ post'.head?, c.free = false) := by
  -- the blocks behind
  obtain ⟨o2, post', hpost, hnext, ho2, hh2⟩ : ∃ o2 post', post = o2 ++ post' ∧
      joinNext b.size post = (b.size + total o2, post') ∧ (∀ c ∈ o2, c.free = true) ∧
      (NoFreePair post → ∀ c ∈ post'.head?, c.free = false) := by
    cases post with
    | nil => exact ⟨[], [], rfl, by simp [joinNext], by simp, by simp⟩
    | cons c post =>
      cases hc : c.free with
      | true =>
        refine ⟨[c], post, rfl, by simp [joinNext, hc], by simp [hc], fun hp => ?_⟩
        exact ((@noFreePair_middle [] post c).mp hp).2.2 hc |>.2
      | false => exact ⟨[], c :: post, rfl, by simp [joinNext, hc], by simp, by simp [hc]⟩
  -- the blocks before
  obtain ⟨pre', o1, hpre, hprev, ho1, hh1⟩ : ∃ pre' o1, pre = pre' ++ o1 ∧
      joinPrev pre (b.size + total o2) = (pre', total o1 + (b.size + total o2)) ∧
      (∀ c ∈ o1, c.free = true) ∧ (NoFreePair pre → ∀ c ∈ pre'.getLast?, c.free = false) := by
    rcases List.eq_nil_or_concat' pre with rfl | ⟨pre, d, rfl⟩
    · exact ⟨[], [], rfl, by simp [joinPrev], by simp, by simp⟩
    · cases hd : d.free with
      | true =>
        refine ⟨pre, [d], rfl, by simp [joinPrev, hd], by simp [hd], fun hp => ?_⟩
        exact ((@noFreePair_middle pre [] d).mp hp).2.2 hd |>.1
      | false =>
        exact ⟨pre ++ [d], [], by simp, by simp [joinPrev, hd], by simp, by simp [hd]⟩
  refine ⟨pre', o1, o2, post', hpre, hpost, hnext, hprev, ?_, hh1, hh2⟩
  intro c hc
  rcases List.mem_append.mp hc with hc | hc
  · exact ho1 c hc
  · exact ho2 c hc

/-- The properties of a heap are kept when a block is released and the heap stays. -/
theorem HeapDesc.Ok.release {h : HeapDesc} {pre post : List Block} {b : Block} (hok : h.Ok)
    (hb : h.blocks = pre ++ b :: post) (hne : ∀ n, freeBlocks pre b post ≠ [⟨n, true⟩]) :
    ({ h with blocks := freeBlocks pre b post } : HeapDesc).Ok := by
  have htiled := hok.tiled
  have hpair := hok.noFreePair
  have hblk := hok.blocks
  rw [hb] at htiled hpair hblk
  obtain ⟨hp1, hp2, -⟩ := noFreePair_middle.mp hpair
  obtain ⟨pre', o1, o2, post', rfl, rfl, hnext, hprev, -, hh1, hh2⟩ := join_eq pre b post
  have heq : freeBlocks (pre' ++ o1) b (o2 ++ post') =
      pre' ++ ⟨total o1 + (b.size + total o2), true⟩ :: post' := by
    simp only [freeBlocks, hnext, hprev]
  have hmid : total o1 + (b.size + total o2) = total (o1 ++ b :: o2) := by simp
  refine ⟨hok.aligned, hok.inKseg0, ?_, ?_, ?_, hne⟩
  · simp only [heq, total_append, total_cons, HeapDesc.start, HeapDesc.stop] at htiled ⊢
    omega
  · intro c hc
    simp only [heq, List.mem_append, List.mem_cons] at hc
    rcases hc with hc | rfl | hc
    · exact hblk c (by simp [hc])
    · have h4 : total (o1 ++ b :: o2) % 4 = 0 := total_mod_four fun c hc => hblk c (by
        simp only [List.mem_append, List.mem_cons] at hc ⊢
        tauto)
      have h24 := (hblk b (by simp)).1
      simp only [Block.Ok, hmid]
      refine ⟨?_, h4⟩
      rw [← hmid]
      omega
    · exact hblk c (by simp [hc])
  · simp only [heq]
    have h1 : NoFreePair pre' := (List.isChain_append.mp hp1).1
    have h2 : NoFreePair post' := (List.isChain_append.mp hp2).2.1
    exact noFreePair_middle.mpr ⟨h1, h2, fun _ => ⟨hh1 hp1, hh2 hp2⟩⟩

/-! ### `free` -/

/-- **What `free` does to a layout.**  The result is the layout afterwards and the calls to the frame
allocator. -/
inductive Releases (lay : List HeapDesc) (p : ℕ) : List HeapDesc → List HeapCall → Prop
  /-- The block is joined with its free neighbours. -/
  | keep {L R : List HeapDesc} {h : HeapDesc} {pre post : List Block} {b : Block}
      (hlay : lay = L ++ h :: R) (hb : h.blocks = pre ++ b :: post) (hfree : b.free = false)
      (hp : p = h.payload pre) (hne : ∀ n, freeBlocks pre b post ≠ [⟨n, true⟩]) :
      Releases lay p (L ++ { h with blocks := freeBlocks pre b post } :: R) []
  /-- The heap has become one free block. -/
  | drop {L R : List HeapDesc} {h : HeapDesc} {pre post : List Block} {b : Block} {n : ℕ}
      (hlay : lay = L ++ h :: R) (hb : h.blocks = pre ++ b :: post) (hfree : b.free = false)
      (hp : p = h.payload pre) (hone : freeBlocks pre b post = [⟨n, true⟩]) :
      Releases lay p (L ++ R) [.free (h.base - 0x80000000) h.frames]

namespace HeapM

/-- **The merging part of `free`.**  Only bytes of the block and of its free neighbours change. -/
theorem free_merge {s : HeapState} {h : HeapDesc} {pre post : List Block} {b : Block}
    (hr : Row s.mem h (pre ++ b :: post)) :
    ∃ m0 m1 m', storeBool (h.blockAddr pre) 4 true s = .ok ((), { s with mem := m0 }) ∧
      mergeNext h.base (h.blockAddr pre) { s with mem := m0 } = .ok ((), { s with mem := m1 }) ∧
      mergePrev h.base (h.blockAddr pre) { s with mem := m1 } = .ok ((), { s with mem := m' }) ∧
      Row m' h (freeBlocks pre b post) ∧
      ∃ pre' o1 o2 post', pre = pre' ++ o1 ∧ post = o2 ++ post' ∧ (∀ c ∈ o1 ++ o2, c.free = true) ∧
        ∀ x, x < h.blockAddr pre' ∨ h.blockAddr pre' + total (o1 ++ b :: o2) ≤ x →
          m' x = s.mem x := by
  have hb := hr.blockIn
  have hhi := hr.head.hi
  have hbhi := hb.hi
  have hb24 := hb.ok.1
  obtain ⟨pre', o1, o2, post', hpre, hpost, hnext, hprev, ho, -, -⟩ := join_eq pre b post
  -- mark the block
  have hmark : Row (s.mem.setByte (h.blockAddr pre + 4) 1) h (pre ++ ⟨b.size, true⟩ :: post) := by
    have hold : Row s.mem h (pre ++ [b] ++ post) := by simpa using hr
    have hnew := hold.replace [⟨b.size, true⟩]
      ⟨hb.block.setFree hb.ok hb.aligned true, trivial⟩ (by simpa [Block.Ok] using hb.ok) (by simp)
      fun x hx => Memory.setByte_of_ne (by simp only [total_cons, total_nil] at hx; omega)
    simpa using hnew
  have hstore := storeBool_apply (b := true) (show h.blockAddr pre + 4 < 2 ^ 32 by omega) s
  -- join with the neighbours
  obtain ⟨m1, hrun1, hrow1, hout1⟩ :=
    mergeNext_spec (s := { s with mem := s.mem.setByte (h.blockAddr pre + 4) 1 }) hmark
  obtain ⟨m2, hrun2, hrow2, hout2⟩ := mergePrev_spec (s := { s with mem := m1 }) hrow1
  simp only [hnext, hprev] at hout1 hrow2 hout2
  refine ⟨_, m1, m2, hstore, hrun1, hrun2, ?_, pre', o1, o2, post', hpre, hpost, ho,
    fun x hx => ?_⟩
  · simpa only [freeBlocks, hnext, hprev] using hrow2
  · have hadr : h.blockAddr pre = h.blockAddr pre' + total o1 := by
      rw [hpre]
      simp only [HeapDesc.blockAddr, total_append]
      omega
    simp only [total_append, total_cons] at hx
    rw [hout2 x (by omega), hout1 x (by omega)]
    exact Memory.setByte_of_ne (by omega)

/-- A heap goes away. -/
theorem LayoutAt.remove {m m' : Memory} {l : ℕ} {L R : List HeapDesc} {h : HeapDesc}
    (hat : LayoutAt m l (L ++ h :: R)) (hok : LayoutOk l (L ++ h :: R))
    (hring : Links.Ring (linksOf m') l (L.map HeapDesc.base ++ R.map HeapDesc.base))
    (hout : ∀ x, x < h.base ∨ h.stop ≤ x →
      OutsideLinks (l :: (L ++ h :: R).map HeapDesc.base) x → m' x = m x) :
    LayoutAt m' l (L ++ R) := by
  refine ⟨by simpa using hring, fun g hg => ?_⟩
  have hmem : g ∈ L ++ h :: R := by
    simp only [List.mem_append, List.mem_cons] at hg ⊢
    tauto
  have hap : g.Apart h := by
    have hpw := hok.apart
    simp only [List.pairwise_append, List.pairwise_cons, List.mem_cons, forall_eq_or_imp] at hpw
    rcases List.mem_append.mp hg with hg | hg
    · exact (hpw.2.2 g hg).1
    · exact (hpw.2.1.1 g hg).symm
  simp only [HeapDesc.Apart] at hap
  exact (hat.heaps g hmem).congr (hok.heaps g hmem) fun x h1 h2 =>
    hout x (by omega) (hok.outsideLinks hmem h1 h2)

/-- A payload byte of another block is outside the freed block and its free neighbours. -/
theorem InPayload.outside_freed {l : ℕ} {L R : List HeapDesc} {h : HeapDesc}
    {pre o1 o2 post : List Block} {b : Block} {q x : ℕ} (hx : InPayload (L ++ h :: R) q x)
    (hok : LayoutOk l (L ++ h :: R)) (hb : h.blocks = pre ++ o1 ++ b :: (o2 ++ post))
    (ho : ∀ c ∈ o1 ++ o2, c.free = true) (hq : q ≠ h.payload (pre ++ o1)) :
    x < h.blockAddr pre ∨ h.blockAddr pre + total (o1 ++ b :: o2) ≤ x := by
  by_contra hcon
  obtain ⟨u, c, v, huv, hc, rfl⟩ := hx.mem_stretch hok
    (show h.blocks = pre ++ (o1 ++ b :: o2) ++ post by simp [hb]) (by omega) (by omega)
  -- the neighbours are free, so the block is the freed one
  rcases List.append_eq_append_iff.mp huv with ⟨as, rfl, has⟩ | ⟨as, rfl, has⟩
  · cases as with
    | nil => simp at hq
    | cons a as =>
      simp only [List.cons_append, List.cons.injEq] at has
      have hco2 : c ∈ o2 := by rw [has.2]; simp
      rw [ho c (by simp [hco2])] at hc
      cases hc
  · cases as with
    | nil => simp at hq
    | cons a as =>
      simp only [List.cons_append, List.cons.injEq] at has
      obtain ⟨rfl, -⟩ := has
      rw [ho c (by simp)] at hc
      cases hc

/-- **`free` of an allocated block**, up to the release of the heap. -/
theorem free_run {s : HeapState} {h : HeapDesc} {pre post : List Block} {b : Block}
    (hr : Row s.mem h (pre ++ b :: post)) (hfree : b.free = false) :
    ∃ m, Row m h (freeBlocks pre b post) ∧
      (∀ (answer : ℕ → ℕ → Errno) (m' : Memory) (cs : List HeapCall),
        releaseHeap answer h.base { s with ie := false, mem := m } =
            .ok ((), { s with ie := false, mem := m', calls := cs }) →
          free answer (h.payload pre) s = .ok ((), { s with mem := m', calls := cs })) ∧
      ∃ pre' o1 o2 post', pre = pre' ++ o1 ∧ post = o2 ++ post' ∧ (∀ c ∈ o1 ++ o2, c.free = true) ∧
        ∀ x, x < h.blockAddr pre' ∨ h.blockAddr pre' + total (o1 ++ b :: o2) ≤ x →
          m x = s.mem x := by
  have hb := hr.blockIn
  have hhi := hr.head.hi
  have hbhi := hb.hi
  have hb24 := hb.ok.1
  obtain ⟨m0, m1, m, hstore, hnext, hprev, hrow, hjoin⟩ :=
    free_merge (s := { s with ie := false }) hr
  refine ⟨m, hrow, fun answer m' cs hrel => ?_, hjoin⟩
  have hsub := sub_apply (a := h.payload pre) (b := 16) (by simp only [HeapDesc.payload]; omega)
    (by simp only [HeapDesc.payload]; omega) { s with ie := false }
  have hadr : h.payload pre - 16 = h.blockAddr pre := by simp [HeapDesc.payload]
  rw [hadr] at hsub
  have hcheck := blockCheck_in (s := { s with ie := false }) hr.head hb
  have hload := loadBool_free (s := { s with ie := false }) hr.head hb
  have hheap := load_heap (s := { s with ie := false }) hr.head hb
  simp only [free, bind_apply, queryAndDisableInterrupts, Outcome.ok_bind, sizeofHead, hsub, hcheck,
    hload, hfree, Bool.not_false, assert_true, hheap, hstore, hnext, hprev, hrel,
    restore_interrupts]

/-- **A heap with a free block only is given back.**  The list has the other heaps, and the links are
what changes. -/
theorem releaseHeap_spec {s : HeapState} {m : Memory} {l n : ℕ} {answer : ℕ → ℕ → Errno}
    {L R : List HeapDesc} {h : HeapDesc} (hat : LayoutAt s.mem l (L ++ h :: R))
    (hok : LayoutOk l (L ++ h :: R)) (hrow : Row m h [⟨n, true⟩])
    (hinside : ∀ x, x < h.start ∨ h.stop ≤ x → m x = s.mem x)
    (hans : answer (h.base - 0x80000000) h.frames = .eok) :
    ∃ m', releaseHeap answer h.base { s with ie := false, mem := m } =
        .ok ((), { s with ie := false, mem := m', calls := .free (h.base - 0x80000000) h.frames :: s.calls }) ∧
      LayoutAt m' l (L ++ R) ∧
      ∀ x, OutsideLinks (l :: (L ++ h :: R).map HeapDesc.base) x → m' x = m x := by
  have hmem : h ∈ L ++ h :: R := by simp
  have hlo := hrow.head.lo
  have hroom := hrow.head.room
  have hhi := hrow.head.hi
  have hring := (hat.replace hok hrow.blocks hinside).ring
  have hspread := hok.spread
  have hlinks : ∀ x, h.base + 8 ≤ x → x < h.start →
      OutsideLinks (l :: (L ++ h :: R).map HeapDesc.base) x := fun x h1 h2 =>
    hok.outsideLinks hmem h1 (by
      have htiled := (hok.heaps h hmem).tiled
      omega)
  simp only [List.map_append, List.map_cons] at hring hspread hlinks ⊢
  obtain ⟨m', hrel, hring', hout'⟩ := releaseHeap_drop (s := { s with ie := false, mem := m })
    hrow hring hspread (show h.base = 0x80000000 + (h.base - 0x80000000) by omega) (by omega) hans hlinks
  refine ⟨m', hrel, LayoutAt.remove hat hok hring' fun x hx hx' => ?_, hout'⟩
  rw [List.map_append, List.map_cons] at hx'
  exact (hout' x hx').trans (hinside x (by simp only [HeapDesc.start]; omega))

/-- **`free`.**  It returns, the memory holds the layout of `Releases`, and no byte of another
allocated payload has changed, nor one outside the heaps. -/
theorem free_spec {s : HeapState} {l p : ℕ} {answer : ℕ → ℕ → Errno} {lay : List HeapDesc}
    {h : HeapDesc} {pre post : List Block} {b : Block} (hat : LayoutAt s.mem l lay)
    (hok : LayoutOk l lay) (hpos : BlockPos lay h pre b post) (hfree : b.free = false)
    (hp : p = h.payload pre) (hans : answer (h.base - 0x80000000) h.frames = .eok) :
    ∃ lay' cs m', Releases lay p lay' cs ∧ LayoutAt m' l lay' ∧ LayoutOk l lay' ∧
      free answer p s = .ok ((), { s with mem := m', calls := cs ++ s.calls }) ∧
      (∀ q x, q ≠ p → InPayload lay q x → m' x = s.mem x) ∧
      ∀ x, OutsideHeaps l lay x → m' x = s.mem x := by
  obtain ⟨hmem, hb⟩ := hpos
  obtain ⟨L, R, rfl⟩ := List.append_of_mem hmem
  have hh := hat.heaps h hmem
  have hrow0 := hh.row hok.heap
  rw [hb] at hrow0
  obtain ⟨m, hrow, hrun, pre', o1, o2, post', rfl, rfl, ho, hout⟩ := free_run hrow0 hfree
  subst hp
  have hin := hrow0.blockIn
  have htiled := hrow0.tiled
  simp only [total_append, total_cons] at htiled
  -- what changed lies in the heap, and in no other payload
  have hinside : ∀ x, x < h.start ∨ h.stop ≤ x → m x = s.mem x := by
    intro x hx
    refine hout x ?_
    simp only [HeapDesc.blockAddr, total_append, total_cons]
    omega
  have hpay : ∀ q x, q ≠ h.payload (pre' ++ o1) → InPayload (L ++ h :: R) q x →
      m x = s.mem x := fun q x hq hx => hout x (InPayload.outside_freed hx hok hb ho hq)
  by_cases hone : ∃ n, freeBlocks (pre' ++ o1) b (o2 ++ post') = [⟨n, true⟩]
  · obtain ⟨n, hn⟩ := hone
    rw [hn] at hrow
    obtain ⟨m', hrel, hat', hout'⟩ := releaseHeap_spec hat hok hrow hinside hans
    refine ⟨L ++ R, _, m', .drop rfl hb hfree rfl hn, hat', hok.remove, hrun answer m' _ hrel,
      fun q x hq hx => ?_, fun x hx => ?_⟩
    · exact (hout' x (hx.outsideLinks hok)).trans (hpay q x hq hx)
    · have hxh := hx.2 h hmem
      refine (hout' x (hx.outsideLinks hok)).trans (hinside x ?_)
      simp only [HeapDesc.start]
      omega
  · have hne : ∀ n, freeBlocks (pre' ++ o1) b (o2 ++ post') ≠ [⟨n, true⟩] :=
      fun n hn => hone ⟨n, hn⟩
    refine ⟨_, [], m, .keep rfl hb hfree rfl hne, hat.replace hok hrow.blocks hinside,
      hok.replace (hok.heap.release hb hne) rfl rfl, ?_, hpay, fun x hx => hinside x ?_⟩
    · obtain ⟨d, bs, hdb⟩ : ∃ d bs, freeBlocks (pre' ++ o1) b (o2 ++ post') = d :: bs := by
        refine List.exists_cons_of_ne_nil ?_
        simp [freeBlocks]
      rw [hdb] at hrow hne
      exact hrun answer m s.calls (releaseHeap_keep (s := { s with ie := false, mem := m }) hrow hne)
    · have hxh := hx.2 h hmem
      simp only [HeapDesc.start]
      omega

end HeapM

end Kalisto
