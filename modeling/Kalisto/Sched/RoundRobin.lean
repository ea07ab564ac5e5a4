import Kalisto.Proc.Queues

/-!
# Round robin

`schedule` takes the first thread of the runnable list and puts it at the end; `sched_insert` appends
and `sched_remove` takes a thread out.  Of two threads that stay in the list, the one that was chosen
last stands behind the other, whatever is inserted and removed around them.

* `SchedStep.effect` — what each step does to the sequence of the runnable list;
* `SchedStep.current` — the thread that is chosen runs;
* `Alternation.step` — the relative order of the two threads is kept;
* `round_robin` — the choices of two threads that stay in the list alternate.
-/

namespace Kalisto

open LinkList

variable {T C : Type} [DecidableEq T] [DecidableEq C]

namespace Kernel

/-- The thread is in the runnable list: `list_foreach` visits it. -/
def InRunnable (k : Kernel T C) (t : T) : Prop :=
  ∃ xs, Outcome.Returns (listForeach k.links .runnableList) xs ∧ .thread t ∈ xs

/-- Both lists are empty and no link is initialised. -/
def Unused (k : Kernel T C) : Prop :=
  ∃ l l₁ : Links (LinkRef T C), listInit l (some .runnableList) = .ok l₁ ∧
    listInit l₁ (some .timersList) = .ok k.links ∧
    (∀ t, k.inserted t = false) ∧ ∀ x, k.initialised x = false

/-- **The steps on the runnable list**, with the thread that `schedule` chooses.  A thread is inserted
when its link is initialised and in no list, as `thread_create` and `thread_wakeup` do; everything
but the links may change at any time. -/
inductive SchedStep : Kernel T C → Option T → Kernel T C → Prop
  | schedule {k k' : Kernel T C} {now : Word} : k.schedule now = .ok k' →
      SchedStep k k.chosen k'
  | insert {k k' : Kernel T C} {t : T} : k.inserted t = true →
      linkConnected k.links (some (.thread t)) = .ok false → k.schedInsert t = .ok k' →
      SchedStep k none k'
  | remove {k k' : Kernel T C} {t : T} : k.inserted t = true → k.schedRemove t = .ok k' →
      SchedStep k none k'
  | create {k : Kernel T C} {t : T} {l : Links (LinkRef T C)} : k.inserted t = false →
      linkInit k.links (some (.thread t)) = .ok l →
      SchedStep k none { k with links := l, inserted := Function.update k.inserted t true }
  | other {k k' : Kernel T C} : k'.links = k.links → k'.inserted = k.inserted →
      k'.initialised = k.initialised → SchedStep k none k'

/-- The states that the steps reach. -/
inductive SchedReachable : Kernel T C → Prop
  | init {k : Kernel T C} : k.Unused → SchedReachable k
  | step {k k' : Kernel T C} {o : Option T} : SchedReachable k → SchedStep k o k' →
      SchedReachable k'

/-- **A segment of a run** in which `A` and `B` stay in the list, with the threads that were chosen,
in their order. -/
inductive Segment (A B : T) : Kernel T C → List T → Kernel T C → Prop
  | nil {k : Kernel T C} : k.InRunnable A → k.InRunnable B → Segment A B k [] k
  | step {k k₁ k₂ : Kernel T C} {chosen : List T} {o : Option T} : Segment A B k chosen k₁ →
      SchedStep k₁ o k₂ → k₂.InRunnable A → k₂.InRunnable B →
      Segment A B k (chosen ++ o.toList) k₂

end Kernel

/-! ### The sequence of the runnable list -/

namespace Linked

variable {k : Kernel T C} {rs : List T} {ts : List (TimerRef T C)} {ins : T → Bool}
  {ini : TimerRef T C → Bool}

theorem inRunnable_iff {t : T} (h : Linked k.links rs ts ins ini) :
    k.InRunnable t ↔ t ∈ rs := by
  have hret := listForeach_returns (h.rep.ring .runnableList _ rfl)
  constructor
  · rintro ⟨xs, hxs, hmem⟩
    obtain rfl := hxs.unique hret
    simpa using hmem
  · exact fun hm => ⟨_, hret, List.mem_map_of_mem hm⟩

end Linked

namespace Kernel

/-- What a step does to the sequence of the runnable list. -/
inductive Moves : List T → Option T → List T → Prop
  | same (rs : List T) : Moves rs none rs
  | rotate (t : T) (rs : List T) : Moves (t :: rs) (some t) (rs ++ [t])
  | append (t : T) (rs : List T) : Moves rs none (rs ++ [t])
  | erase (t : T) (rs : List T) : Moves rs none (rs.erase t)

/-- **The effect of a step.** -/
theorem SchedStep.effect {k k' : Kernel T C} {o : Option T} (h : SchedStep k o k') {rs : List T}
    {ts : List (TimerRef T C)} (hq : k.Queues rs ts) : ∃ rs', k'.Queues rs' ts ∧ Moves rs o rs' := by
  cases h with
  | @schedule _ now hrun =>
    cases rs with
    | nil =>
      obtain ⟨hnone, hsame⟩ := Linked.schedule_nil hq now
      obtain rfl := Outcome.ok.inj (hsame.symm.trans hrun)
      exact ⟨[], hq, hnone ▸ Moves.same []⟩
    | cons t rs =>
      obtain ⟨hsome, l', hlinked, hrun'⟩ := Linked.schedule_links hq now
      obtain rfl := Outcome.ok.inj (hrun'.symm.trans hrun)
      refine ⟨rs ++ [t], ?_, hsome ▸ Moves.rotate t rs⟩
      simpa [Queues] using hlinked
  | @insert _ t hins hcon hrun =>
    have hn : t ∉ rs := by
      rw [Linked.connected_thread hq hins] at hcon
      simpa using hcon
    obtain ⟨l', hl, hlinked⟩ := Linked.append_thread hq hins hn
    simp only [schedInsert, hl, Outcome.ok_bind, Outcome.pure_eq, Outcome.ok.injEq] at hrun
    subst hrun
    exact ⟨_, hlinked, Moves.append t rs⟩
  | @remove _ t hins hrun =>
    obtain ⟨l', hl, hlinked⟩ := Linked.remove_thread hq hins
    simp only [schedRemove, hl, Outcome.ok_bind, Outcome.pure_eq, Outcome.ok.injEq] at hrun
    subst hrun
    exact ⟨_, hlinked, Moves.erase t rs⟩
  | @create t l hins hrun =>
    have hn : t ∉ rs := fun hm => by
      have := hq.threads t hm
      simp [hins] at this
    obtain ⟨l', hl, hlinked⟩ := Linked.init_thread hq hn
    obtain rfl := Outcome.ok.inj (hl.symm.trans hrun)
    exact ⟨rs, hlinked, Moves.same rs⟩
  | other hl hins hini =>
    refine ⟨rs, ?_, Moves.same rs⟩
    rw [Queues, hl, hins, hini]
    exact hq

/-- **`schedule` switches to the thread it chose.** -/
theorem SchedStep.current {k k' : Kernel T C} {o : Option T} (h : SchedStep k o k') {t : T}
    (ho : o = some t) : k'.current = some t := by
  cases h with
  | @schedule _ now hrun =>
    simp only [chosen] at ho
    split at ho
    · rename_i u l hrotate
      obtain rfl := Option.some.inj ho
      simp only [Kernel.schedule, hrotate, Outcome.ok_bind, threadItem, Outcome.pure_eq,
        Outcome.ok.injEq] at hrun
      rw [← hrun]
      rfl
    · cases ho
  | _ => cases ho

/-- In every reachable state the links hold a runnable list. -/
theorem SchedReachable.queues {k : Kernel T C} (h : SchedReachable k) : ∃ rs ts, k.Queues rs ts := by
  induction h with
  | @init k h =>
    obtain ⟨l, l₁, h₁, h₂, hins, hini⟩ := h
    refine ⟨[], [], ?_⟩
    rw [Queues, funext hins, funext hini]
    exact Linked.boot h₁ h₂
  | step _ hstep ih =>
    obtain ⟨rs, ts, hq⟩ := ih
    obtain ⟨rs', hq', -⟩ := hstep.effect hq
    exact ⟨rs', ts, hq'⟩

end Kernel

/-! ### The order of two threads -/

/-- The choices among two threads. -/
def among (A B : T) (chosen : List T) : List T := chosen.filter fun t => decide (t = A ∨ t = B)

/-- **Alternation.**  The choices of the two threads alternate so far, and the one that was chosen last
stands behind the other. -/
structure Alternation (A B : T) (chosen rs : List T) : Prop where
  chain : (among A B chosen).IsChain (· ≠ ·)
  lastA : (among A B chosen).getLast? = some A → [B, A].Sublist rs
  lastB : (among A B chosen).getLast? = some B → [A, B].Sublist rs

/-- A pair in front of which other threads are taken away, and behind which they come. -/
theorem sublist_pair_move {A B : T} {rs rs' : List T} {o : Option T} (h : [A, B].Sublist rs)
    (hm : Kernel.Moves rs o rs') (hA : A ∈ rs') (hB : B ∈ rs') (hnd : rs.Nodup)
    (ho : ∀ t, o = some t → t ≠ A ∧ t ≠ B) : [A, B].Sublist rs' := by
  cases hm with
  | same rs => exact h
  | rotate t rs =>
    have htA := (ho t rfl).1
    have hrs : [A, B].Sublist rs := by
      cases h with
      | cons _ h => exact h
      | cons_cons _ h => exact absurd rfl htA
    exact hrs.trans (List.sublist_append_left rs [t])
  | append t rs => exact h.trans (List.sublist_append_left rs [t])
  | erase t rs =>
    have htA : t ≠ A := fun heq => (hnd.mem_erase_iff.mp hA).1 heq.symm
    have htB : t ≠ B := fun heq => (hnd.mem_erase_iff.mp hB).1 heq.symm
    have hsub := h.erase t
    rwa [List.erase_of_not_mem (by simp [htA, htB])] at hsub

omit [DecidableEq T] in
/-- The first of the list is not behind another one. -/
theorem not_sublist_of_head {A B : T} {rs : List T} (hne : B ≠ A) (hnd : (A :: rs).Nodup) :
    ¬ [B, A].Sublist (A :: rs) := by
  intro h
  have hrs : [B, A].Sublist rs := by
    cases h with
    | cons _ h => exact h
    | cons_cons _ h => exact absurd rfl hne
  exact (List.nodup_cons.mp hnd).1 (hrs.subset (by simp))

theorem among_append (A B : T) (chosen us : List T) :
    among A B (chosen ++ us) = among A B chosen ++ among A B us := List.filter_append chosen us

theorem among_comm (A B : T) : among B A = among A B := by
  funext chosen
  simp only [among, or_comm]

theorem Alternation.symm {A B : T} {chosen rs : List T} (h : Alternation A B chosen rs) :
    Alternation B A chosen rs := by
  refine ⟨?_, ?_, ?_⟩ <;> rw [among_comm]
  · exact h.chain
  · exact h.lastB
  · exact h.lastA

/-- The first thread of the list is chosen, and it is one of the two. -/
theorem Alternation.choose {A B : T} (hne : A ≠ B) {chosen rs : List T}
    (h : Alternation A B chosen (A :: rs)) (hnd : (A :: rs).Nodup) (hB : B ∈ rs ++ [A]) :
    Alternation A B (chosen ++ [A]) (rs ++ [A]) := by
  have hone : among A B (chosen ++ [A]) = among A B chosen ++ [A] := by
    rw [among_append]
    simp [among]
  have hBrs : B ∈ rs := by
    rcases List.mem_append.mp hB with hB | hB
    · exact hB
    · exact absurd (List.mem_singleton.mp hB).symm hne
  constructor
  · rw [hone, List.isChain_append]
    refine ⟨h.chain, List.isChain_singleton A, fun u hu v hv => ?_⟩
    obtain rfl : A = v := by simpa using hv
    rintro rfl
    exact not_sublist_of_head hne.symm hnd (h.lastA hu)
  · intro _
    exact (List.singleton_sublist.mpr hBrs).append (List.Sublist.refl [A])
  · intro hlast
    rw [hone, List.getLast?_concat, Option.some.injEq] at hlast
    exact absurd hlast hne

/-- **A step keeps the alternation.** -/
theorem Alternation.step {A B : T} (hne : A ≠ B) {chosen rs rs' : List T} {o : Option T}
    (h : Alternation A B chosen rs) (hm : Kernel.Moves rs o rs') (hnd : rs.Nodup) (hA : A ∈ rs')
    (hB : B ∈ rs') : Alternation A B (chosen ++ o.toList) rs' := by
  by_cases ho : ∀ t, o = some t → t ≠ A ∧ t ≠ B
  · -- neither of the two is chosen
    have hsame : among A B (chosen ++ o.toList) = among A B chosen := by
      rw [among_append]
      cases o with
      | none => simp [among]
      | some t => simp [among, (ho t rfl).1, (ho t rfl).2]
    constructor
    · rw [hsame]
      exact h.chain
    · intro hlast
      rw [hsame] at hlast
      exact sublist_pair_move (h.lastA hlast) hm hB hA hnd fun t ht => (ho t ht).symm
    · intro hlast
      rw [hsame] at hlast
      exact sublist_pair_move (h.lastB hlast) hm hA hB hnd ho
  · push Not at ho
    obtain ⟨t, rfl, ht⟩ := ho
    cases hm with
    | rotate t rs =>
      by_cases htA : t = A
      · subst htA
        exact h.choose hne hnd hB
      · obtain rfl := ht htA
        exact (h.symm.choose hne.symm hnd hA).symm

/-! ### The choices of a segment -/

/-- Two different values that alternate: between two occurrences of one there is one of the other. -/
theorem count_between {A B : T} (hne : A ≠ B) {chosen : List T}
    (hchain : (among A B chosen).IsChain (· ≠ ·)) {pre mid post : List T}
    (heq : chosen = pre ++ A :: mid ++ A :: post) (hmid : A ∉ mid) : mid.count B = 1 := by
  -- the choices in between are all of `B`
  have hB : ∀ u ∈ among A B mid, u = B := by
    intro u hu
    obtain ⟨humid, hor⟩ := List.mem_filter.mp hu
    rcases of_decide_eq_true hor with rfl | rfl
    · exact absurd humid hmid
    · rfl
  have hcount : mid.count B = (among A B mid).length := by
    have hrep := List.eq_replicate_of_mem hB
    have hfil : mid.count B = (among A B mid).count B := by
      rw [among, List.count_filter (by simp)]
    rw [hfil, hrep, List.count_replicate_self, List.length_replicate]
  have hsplit : among A B chosen = among A B pre ++ A :: (among A B mid ++ A :: among A B post) := by
    rw [heq]
    simp [among]
  rw [hsplit] at hchain
  have htail := (List.isChain_append.mp hchain).2.1
  rw [hcount]
  -- none of them would put two choices of `A` side by side, and two of them two choices of `B`
  rcases hm : among A B mid with _ | ⟨u, _ | ⟨v, vs⟩⟩
  · rw [hm] at htail
    simp at htail
  · rfl
  · rw [hm] at htail hB
    obtain rfl := hB u (by simp)
    obtain rfl := hB v (by simp)
    simp at htail

namespace Kernel

/-- Over a segment the choices of the two threads alternate. -/
theorem Segment.alternation {A B : T} (hne : A ≠ B) {k k' : Kernel T C} {chosen : List T}
    (h : Segment A B k chosen k') {rs : List T} {ts : List (TimerRef T C)} (hq : k.Queues rs ts) :
    ∃ rs', k'.Queues rs' ts ∧ Alternation A B chosen rs' := by
  induction h with
  | nil hA hB => exact ⟨rs, hq, by simp [among], by simp [among], by simp [among]⟩
  | step _ hstep hA hB ih =>
    obtain ⟨rs₁, hq₁, halt⟩ := ih
    obtain ⟨rs₂, hq₂, hm⟩ := hstep.effect hq₁
    exact ⟨rs₂, hq₂, halt.step hne hm hq₁.runnable_nodup (hq₂.inRunnable_iff.mp hA)
      (hq₂.inRunnable_iff.mp hB)⟩

/-- **Round robin without overtaking.**  Over every segment of every run in which two threads stay in
the runnable list, between two choices of the one with no other choice of it in between there is
exactly one choice of the other; and the thread that is chosen is the one that runs then. -/
theorem round_robin {A B : T} (hne : A ≠ B) {k k' : Kernel T C} {chosen : List T}
    (hreach : SchedReachable k) (hseg : Segment A B k chosen k') :
    (among A B chosen).IsChain (· ≠ ·) ∧
    (∀ pre mid post, chosen = pre ++ A :: mid ++ A :: post → A ∉ mid → mid.count B = 1) ∧
    (∀ pre mid post, chosen = pre ++ B :: mid ++ B :: post → B ∉ mid → mid.count A = 1) ∧
    ∀ (k₁ k₂ : Kernel T C) (t : T), SchedStep k₁ (some t) k₂ → k₂.current = some t := by
  obtain ⟨rs, ts, hq⟩ := hreach.queues
  obtain ⟨rs', -, halt⟩ := hseg.alternation hne hq
  refine ⟨halt.chain, ?_, ?_, fun k₁ k₂ t hstep => hstep.current rfl⟩
  · exact fun pre mid post heq hmid => count_between hne halt.chain heq hmid
  · exact fun pre mid post heq hmid => count_between hne.symm halt.symm.chain heq hmid

/-- The memory of a kernel with both lists initialised and nothing in them. -/
def twoLists : Kernel ℕ ℕ where
  links := ⟨fun a => some a, fun a => some a⟩
  state := fun _ => .ready
  scheduled := fun _ => 0
  joiner := fun _ => none
  retval := fun _ => 0
  timeout := fun _ => 0
  expires := fun _ => 0
  running := fun _ => false
  handler := fun _ => none
  current := none
  timerThread := none
  jiffies := 0
  pc := fun _ => .run
  loop := .select
  idle := none
  block := fun _ => false
  inserted := fun _ => false
  initialised := fun _ => false
  passed := fun _ => none
  starts := fun _ => 0
  invoked := []
  foundEmpty := false

theorem twoLists_unused : twoLists.Unused := by
  refine ⟨twoLists.links, twoLists.links, ?_, ?_, fun _ => rfl, fun _ => rfl⟩ <;>
    simp [listInit, assertPtr, twoLists, Links.setPrev, Links.setNext]

/-- A thread is created and inserted. -/
theorem Queues.admit {k : Kernel T C} {rs : List T} {ts : List (TimerRef T C)} {t : T}
    (hreach : SchedReachable k) (hq : k.Queues rs ts) (ht : k.inserted t = false) :
    ∃ k', SchedReachable k' ∧ k'.Queues (rs ++ [t]) ts ∧
      k'.inserted = Function.update k.inserted t true := by
  have hn : t ∉ rs := fun hm => by
    have hins := hq.threads t hm
    simp [ht] at hins
  obtain ⟨l₁, hinit, h₁⟩ := hq.init_thread hn
  obtain ⟨l₂, happ, h₂⟩ := h₁.append_thread (by simp) hn
  have hcon := h₁.connected_thread (t := t) (by simp)
  refine ⟨{ k with links := l₂, inserted := Function.update k.inserted t true }, ?_, h₂, rfl⟩
  have hcreate := hreach.step (.create ht hinit)
  have hins : Function.update k.inserted t true t = true := Function.update_self t true k.inserted
  refine hcreate.step (.insert hins (by simpa [hn] using hcon) ?_)
  simp only [schedInsert, happ, Outcome.ok_bind, Outcome.pure_eq]

/-- The first thread of the list is chosen. -/
theorem Queues.choose {k : Kernel T C} {rs : List T} {ts : List (TimerRef T C)} {t : T}
    (hq : k.Queues (t :: rs) ts) (now : Word) :
    ∃ k', SchedStep k (some t) k' ∧ k'.Queues (rs ++ [t]) ts := by
  obtain ⟨hsome, l', hlinked, hrun⟩ := Linked.schedule_links hq now
  have hstep := SchedStep.schedule hrun
  rw [hsome] at hstep
  refine ⟨_, hstep, ?_⟩
  simpa [Queues] using hlinked

/-- The threads `1` and `2` are inserted and then chosen three times in turn; the last one chosen runs. -/
theorem round_robin_twoThreads : ∃ k k' : Kernel ℕ ℕ, SchedReachable k ∧
    Segment 1 2 k [1, 2, 1] k' ∧ (among 1 2 [1, 2, 1]).IsChain (· ≠ ·) ∧ k'.current = some 1 := by
  have h₀ : SchedReachable twoLists := .init twoLists_unused
  obtain ⟨l, l₁, hl, hl₁, -⟩ := twoLists_unused
  have hq₀ : twoLists.Queues [] [] := Linked.boot hl hl₁
  obtain ⟨k₁, h₁, hq₁, hins₁⟩ := Queues.admit (t := 1) h₀ hq₀ rfl
  obtain ⟨k₂, h₂, hq₂, -⟩ := Queues.admit (t := 2) h₁ hq₁ (by simp [hins₁, twoLists])
  have hlist : k₂.Queues (1 :: [2]) [] := hq₂
  obtain ⟨k₃, hs₃, hq₃⟩ := hlist.choose 0
  obtain ⟨k₄, hs₄, hq₄⟩ := hq₃.choose 0
  obtain ⟨k₅, hs₅, hq₅⟩ := hq₄.choose 0
  have hseg₀ : Segment 1 2 k₂ [] k₂ :=
    .nil (hq₂.inRunnable_iff.mpr (by simp)) (hq₂.inRunnable_iff.mpr (by simp))
  have hseg₁ := hseg₀.step hs₃ (hq₃.inRunnable_iff.mpr (by simp)) (hq₃.inRunnable_iff.mpr (by simp))
  have hseg₂ := hseg₁.step hs₄ (hq₄.inRunnable_iff.mpr (by simp)) (hq₄.inRunnable_iff.mpr (by simp))
  have hseg₃ := hseg₂.step hs₅ (hq₅.inRunnable_iff.mpr (by simp)) (hq₅.inRunnable_iff.mpr (by simp))
  obtain ⟨hchain, -, -, hcurrent⟩ := round_robin (by decide) h₂ hseg₃
  exact ⟨k₂, k₅, h₂, hseg₃, hchain, hcurrent k₄ k₅ 1 hs₅⟩

end Kernel

end Kalisto
