import Kalisto.Proc.ThreadInv

/-!
# One section

What each section does to a state with the invariant: it ends without a fault and keeps the
invariant.  A section that gives up the processor is a change of the state (`Core` of the state before
`schedule`) followed by `Core.schedule`.

* `Core.schedule` — the list is not empty, and the first thread of it becomes the running one;
* `Core.step` — every admitted act that does not wake up a thread waiting in `thread_join` keeps the
  invariant, and `Effect` says what else it does.
-/

namespace Kalisto

open LinkList

variable {T C : Type} [DecidableEq T] [DecidableEq C]

/-! ### Switching -/

/-- The states of the threads after `thread_switch`. -/
def switchState (current : Option T) (state : T → ThreadState) (t : T) : T → ThreadState :=
  Function.update (match current with
    | some c => if state c = .running then Function.update state c .ready else state
    | none => state) t .running

theorem switchState_apply (current : Option T) (state : T → ThreadState) (t u : T) :
    switchState current state t u = if u = t then .running else
      if current = some u ∧ state u = .running then .ready else state u := by
  simp only [switchState, Function.update_apply]
  split
  · rfl
  · cases current with
    | none => simp
    | some c =>
      by_cases hc : state c = .running
      · by_cases huc : u = c
        · simp [huc, hc]
        · simp [hc, huc, Ne.symm huc]
      · by_cases huc : u = c
        · subst huc
          simp [hc]
        · simp [hc, Ne.symm huc]

theorem switchState_resched {current : Option T} {state : T → ThreadState} {t : T}
    (ht : (state t).active = true) : Resched state (switchState current state t) := by
  intro u
  rw [switchState_apply]
  split
  · next heq =>
    subst heq
    exact Or.inr ⟨rfl, ht⟩
  · split
    · next h =>
      rw [h.2]
      exact Or.inr ⟨rfl, rfl⟩
    · exact Or.inl rfl

/-- After the switch only the chosen thread is running, when only the current one was. -/
theorem switchState_running {current : Option T} {state : T → ThreadState} {t u : T}
    (hu : state u = .running → current = some u) :
    switchState current state t u = .running ↔ u = t := by
  rw [switchState_apply]
  split
  · next heq => simp [heq]
  · next hne =>
    split
    · simp [hne]
    · next hnot =>
      simp only [hne, iff_false]
      exact fun hr => hnot ⟨hu hr, hr⟩

namespace Kernel

omit [DecidableEq C] in
theorem threadSwitch_eq (k : Kernel T C) (t : T) :
    k.threadSwitch t = { k with current := some t, state := switchState k.current k.state t } := by
  cases hc : k.current with
  | none => simp [threadSwitch, preempt, switchState, hc]
  | some c =>
    by_cases hr : k.state c = .running <;> simp [threadSwitch, preempt, switchState, hc, hr]

/-- The section leaves the place of the timer thread and the allocated memory as they are, finds no
empty list, and puts no thread into `thread_join`. -/
structure Keeps (k k' : Kernel T C) : Prop where
  loop : k'.loop = k.loop
  block : k'.block = k.block
  foundEmpty : k'.foundEmpty = k.foundEmpty
  joining : ∀ u t, k'.pc u = .join t → k.pc u = .join t

omit [DecidableEq T] [DecidableEq C] in
theorem Keeps.trans {k k₁ k₂ : Kernel T C} (h : Keeps k k₁) (h' : Keeps k₁ k₂) : Keeps k k₂ :=
  ⟨h'.loop.trans h.loop, h'.block.trans h.block, h'.foundEmpty.trans h.foundEmpty,
    fun u t hpc => h.joining u t (h'.joining u t hpc)⟩

omit [DecidableEq T] [DecidableEq C] in
/-- The other fields are changed at will. -/
theorem Keeps.of_eq {k k' : Kernel T C} (hl : k'.loop = k.loop) (hb : k'.block = k.block)
    (hf : k'.foundEmpty = k.foundEmpty) (hp : k'.pc = k.pc) : Keeps k k' :=
  ⟨hl, hb, hf, fun u t hpc => by rwa [hp] at hpc⟩

omit [DecidableEq C] in
theorem join_of_update {pc : T → Pc T C} {c u t : T} {p : Pc T C} (hp : ∀ t, p ≠ .join t)
    (h : Function.update pc c p u = .join t) : pc u = .join t := by
  rw [Function.update_apply] at h
  split at h
  · exact absurd h (hp t)
  · exact h

omit [DecidableEq C] in
/-- A thread goes to a place outside `thread_join`. -/
theorem Keeps.of_move {k k' : Kernel T C} {c : T} {p : Pc T C} (hl : k'.loop = k.loop)
    (hb : k'.block = k.block) (hf : k'.foundEmpty = k.foundEmpty)
    (hpc : k'.pc = Function.update k.pc c p) (hp : ∀ t, p ≠ .join t) : Keeps k k' := by
  refine ⟨hl, hb, hf, fun u t hut => ?_⟩
  rw [hpc] at hut
  exact join_of_update hp hut

/-- The invariant after such a section. -/
def Next (k k' : Kernel T C) (ts : List (TimerRef T C)) : Prop :=
  ∃ rs c, k'.Core rs ts ∧ k'.Running c ∧ Keeps k k'

omit [DecidableEq T] [DecidableEq C] in
/-- A change of other fields comes before the section. -/
theorem Next.after {k k₁ k' : Kernel T C} {ts : List (TimerRef T C)} (h : Next k₁ k' ts)
    (hk : Keeps k k₁) : Next k k' ts := by
  obtain ⟨rs, c, hcore, hr, hkeeps⟩ := h
  exact ⟨rs, c, hcore, hr, hk.trans hkeeps⟩

omit [DecidableEq T] [DecidableEq C] in
theorem Running.deref {k : Kernel T C} {c : T} (hr : k.Running c) : LinkList.deref k.current = .ok c := by
  rw [hr.1]
  rfl

omit [DecidableEq T] [DecidableEq C] in
theorem Running.state {k : Kernel T C} {c : T} (hr : k.Running c) : k.state c = .running :=
  (hr.2.2 c hr.2.1).mpr rfl

omit [DecidableEq C] in
/-- When only the current thread runs, that stays so after it is given another state. -/
theorem Running.only_current {k : Kernel T C} {c : T} (hr : k.Running c) {s : ThreadState}
    (hs : s ≠ .running) : ∀ u, k.inserted u = true → Function.update k.state c s u = .running →
      k.current = some u := by
  intro u hu hrun
  rw [Function.update_apply] at hrun
  split at hrun
  · exact absurd hrun hs
  · rw [hr.1, (hr.2.2 u hu).mp hrun]

omit [DecidableEq T] [DecidableEq C] in
/-- The idle thread is in the list. -/
theorem Core.runnable_ne_nil {k : Kernel T C} {rs : List T} {ts : List (TimerRef T C)}
    (h : k.Core rs ts) : rs ≠ [] := by
  obtain ⟨i, -, hi, hact⟩ := h.system.idle
  exact List.ne_nil_of_mem ((h.active i).mpr ⟨hi, hact⟩)

omit [DecidableEq C] in
/-- **`thread_switch`** to a thread of the runnable list. -/
theorem Core.threadSwitch {k : Kernel T C} {rs : List T} {ts : List (TimerRef T C)} {t : T}
    (h : k.Core rs ts) (ht : t ∈ rs)
    (hcur : ∀ u, k.inserted u = true → k.state u = .running → k.current = some u) :
    (k.threadSwitch t).Core rs ts ∧ (k.threadSwitch t).Running t := by
  obtain ⟨hins, hact⟩ := (h.active t).mp ht
  have hre : Resched k.state (switchState k.current k.state t) := switchState_resched hact
  rw [threadSwitch_eq]
  refine ⟨⟨⟨h.queues, fun u => ?_, h.joins.resched hre, h.timers, h.blocks, h.log⟩,
    h.system.resched hre⟩, rfl, hins, fun u hu => switchState_running (hcur u hu)⟩
  rw [h.active u]
  exact and_congr_right fun _ => by rw [← hre.active u]

/-- **`schedule`**: the list is not empty, and its first thread becomes the running one. -/
theorem Core.schedule {k : Kernel T C} {rs : List T} {ts : List (TimerRef T C)} (h : k.Core rs ts)
    (hcur : ∀ u, k.inserted u = true → k.state u = .running → k.current = some u) (now : Word) :
    ∃ k', k.schedule now = .ok k' ∧ Next k k' ts := by
  obtain ⟨t, rest, rfl⟩ := List.exists_cons_of_ne_nil h.runnable_ne_nil
  obtain ⟨-, l, hlinked, hrun⟩ := Linked.schedule_links h.queues now
  have hcore : ({ k with links := l, scheduled := Function.update k.scheduled t now } :
      Kernel T C).Core (rest ++ [t]) ts := by
    refine ⟨⟨hlinked, fun u => ?_, h.joins, h.timers, h.blocks, h.log⟩, h.system⟩
    rw [← h.active u]
    simp [or_comm]
  obtain ⟨hcore', hr⟩ := hcore.threadSwitch (t := t) (by simp) hcur
  refine ⟨_, hrun, rest ++ [t], t, hcore', hr, ?_⟩
  rw [threadSwitch_eq]
  exact Keeps.of_eq rfl rfl rfl rfl

/-! ### The runnable list and the states -/

section Active

variable {rs : List T} {ins : T → Bool} {state : T → ThreadState} {c : T}

theorem active_erase (h : ∀ t, t ∈ rs ↔ ins t = true ∧ (state t).active = true) (hnd : rs.Nodup)
    {s : ThreadState} (hs : s.active = false) :
    ∀ t, t ∈ rs.erase c ↔ ins t = true ∧ (Function.update state c s t).active = true := by
  intro t
  rw [hnd.mem_erase_iff, h, Function.update_apply]
  split
  · next heq => simp [heq, hs]
  · next hne => simp [hne]

theorem active_append (h : ∀ t, t ∈ rs ↔ ins t = true ∧ (state t).active = true)
    (hins : ins c = true) {s : ThreadState} (hs : s.active = true) :
    ∀ t, t ∈ rs ++ [c] ↔ ins t = true ∧ (Function.update state c s t).active = true := by
  intro t
  rw [List.mem_append, List.mem_singleton, h, Function.update_apply]
  split
  · next heq => simp [heq, hs, hins]
  · next hne => simp [hne]

end Active

/-! ### Suspending, waking up, joining, finishing -/

namespace Core

variable {k : Kernel T C} {rs : List T} {ts : List (TimerRef T C)} {c t : T}

/-- The current thread is taken from the runnable list. -/
theorem schedRemove (h : k.Core rs ts) (hr : k.Running c) (k₁ : Kernel T C)
    (hk : k₁.links = k.links) : ∃ l, k₁.schedRemove c = .ok { k₁ with links := l } ∧
      Linked l (rs.erase c) ts k.inserted k.initialised := by
  obtain ⟨l, hl, hlinked⟩ := Linked.remove_thread h.queues hr.2.1
  refine ⟨l, ?_, hlinked⟩
  simp only [Kernel.schedRemove, hk, hl, Outcome.ok_bind, Outcome.pure_eq]

/-- **`thread_suspend`**. -/
theorem threadSuspend (h : k.Core rs ts) (hr : k.Running c) (hc : k.pc c = .run)
    (hi : k.idle ≠ some c) (now : Word) : ∃ k', k.threadSuspend now = .ok k' ∧ Next k k' ts := by
  obtain ⟨l, hrem, hlinked⟩ := h.schedRemove hr
    { k with state := Function.update k.state c .sleeping } rfl
  have hcore : ({ k with state := Function.update k.state c .sleeping, links := l } :
      Kernel T C).Core (rs.erase c) ts :=
    ⟨⟨hlinked, active_erase h.active h.queues.runnable_nodup rfl, h.joins.sleep hc, h.timers, h.blocks,
      h.log⟩, h.system.setState (Or.inl hi)⟩
  obtain ⟨k', hrun, hnext⟩ := hcore.schedule (hr.only_current (by decide)) now
  refine ⟨k', ?_, hnext.after (Keeps.of_eq rfl rfl rfl rfl)⟩
  simp only [Kernel.threadSuspend, hr.deref, Outcome.ok_bind, hrem, hrun]

/-- **`thread_wakeup`** of a thread that does not wait in `thread_join`. -/
theorem threadWakeup (h : k.Core rs ts) (hr : k.Running c) (ht : k.inserted t = true)
    (hj : ∀ u, ¬ k.BlockedInJoin t u) : ∃ k', k.threadWakeup t = .ok k' ∧
      (∃ rs', k'.Core rs' ts) ∧ k'.Running c ∧ Keeps k k' := by
  by_cases hs : k.state t = .sleeping
  · have hn : t ∉ rs := by
      rw [h.active t, hs]
      simp [ThreadState.active]
    obtain ⟨l, hl, hlinked⟩ := Linked.append_thread h.queues ht hn
    have htc : t ≠ c := by
      rintro rfl
      simp [hr.state] at hs
    refine ⟨{ k with state := Function.update k.state t .ready, links := l }, ?_, ⟨rs ++ [t], ?_⟩,
      ⟨hr.1, hr.2.1, ?_⟩, Keeps.of_eq rfl rfl rfl rfl⟩
    · rw [Kernel.threadWakeup, if_pos hs]
      simp only [schedInsert, hl, Outcome.ok_bind, Outcome.pure_eq]
    · exact ⟨⟨hlinked, active_append h.active ht rfl,
        h.joins.wake hs fun u hpc => hj u ⟨hpc, hs⟩, h.timers, h.blocks, h.log⟩,
        h.system.setState (Or.inr rfl)⟩
    · intro u hu
      simp only [Function.update_apply]
      split
      · next heq =>
        subst heq
        simp [htc]
      · exact hr.2.2 u hu
  · refine ⟨k, ?_, ⟨rs, h⟩, hr, Keeps.of_eq rfl rfl rfl rfl⟩
    rw [Kernel.threadWakeup, if_neg hs]

omit [DecidableEq T] [DecidableEq C] in
/-- The joiner of a thread that does not finish yet is asleep. -/
theorem joiner_asleep (h : k.Core rs ts) (hr : k.Running c) {j : T} (hj : k.joiner c = some j) :
    k.inserted j = true ∧ j ≠ c ∧ k.state j = .sleeping := by
  obtain ⟨hins, -, hne, -, hiff⟩ := h.joins.waits j c (h.joins.joiner c j hr.2.1 hj)
  exact ⟨hins, hne, hiff.mpr (by simp [hr.state])⟩

/-- **`thread_finish`**. -/
theorem threadFinish (h : k.Core rs ts) (hr : k.Running c) (hc : k.pc c = .run)
    (hi : k.idle ≠ some c) (ht : k.timerThread ≠ some c) (retval now : Word) :
    ∃ k', k.threadFinish retval now = .ok k' ∧ Next k k' ts := by
  obtain ⟨l, hrem, hlinked⟩ := h.schedRemove hr
    { k with state := Function.update k.state c .zombie } rfl
  have hact := active_erase (c := c) h.active h.queues.runnable_nodup (s := .zombie) rfl
  have hsys := h.system.setState (c := c) (s := .zombie) (Or.inl hi)
  have htim := h.timers.move (h.timers.not_busy (t := c) (by simp [hc])) (p := .finished) (by simp)
    (by simp)
  have hblk := h.blocks.move (c := c) (p := .finished) (by simp)
  cases hj : k.joiner c with
  | none =>
    have hjoin := h.joins.finish hc hr.2.1 retval (Function.update_self c .zombie k.state)
      (by simp [hj]) fun u hu _ => Function.update_of_ne hu .zombie k.state
    have hcore : ({ k with
        links := l
        state := Function.update k.state c .zombie
        retval := Function.update k.retval c retval
        passed := Function.update k.passed c (some retval)
        pc := Function.update k.pc c .finished } : Kernel T C).Core (rs.erase c) ts :=
      ⟨⟨hlinked, hact, hjoin, htim, hblk, h.log⟩, hsys.move (Or.inr ht)⟩
    obtain ⟨k', hrun, hnext⟩ := hcore.schedule (hr.only_current (by decide)) now
    refine ⟨k', ?_, hnext.after (Keeps.of_move rfl rfl rfl rfl (by simp))⟩
    simp only [Kernel.threadFinish, hr.deref, Outcome.ok_bind, hrem, hj, hrun]
  | some j =>
    obtain ⟨hij, hjc, hsj⟩ := h.joiner_asleep hr hj
    have hsj' : Function.update k.state c .zombie j = .sleeping := by
      rw [Function.update_of_ne hjc]
      exact hsj
    have hnj : j ∉ rs.erase c := by
      rw [hact j, hsj']
      simp [ThreadState.active]
    obtain ⟨l', happ, hlinked'⟩ := hlinked.append_thread hij hnj
    have hjoin : JoinInv k.inserted (Function.update (Function.update k.state c .zombie) j .ready)
        (Function.update k.pc c .finished) k.joiner (Function.update k.retval c retval)
        (Function.update k.passed c (some retval)) := by
      refine h.joins.finish hc hr.2.1 retval ?_ ?_ ?_
      · simp [Ne.symm hjc]
      · intro i hi'
        obtain rfl : j = i := by simpa [hj] using hi'
        exact Function.update_self _ _ _
      · intro u hu hju
        have huj : u ≠ j := fun heq => hju (heq ▸ hj)
        simp [huj, hu]
    have hcore : ({ k with
        links := l'
        state := Function.update (Function.update k.state c .zombie) j .ready
        retval := Function.update k.retval c retval
        passed := Function.update k.passed c (some retval)
        pc := Function.update k.pc c .finished } : Kernel T C).Core (rs.erase c ++ [j]) ts :=
      ⟨⟨hlinked', active_append hact hij rfl, hjoin, htim, hblk, h.log⟩,
        (hsys.setState (Or.inr rfl)).move (Or.inr ht)⟩
    obtain ⟨k', hrun, hnext⟩ := hcore.schedule (fun u hu hru => by
      refine hr.only_current (s := .zombie) (by decide) u hu ?_
      simp only [Function.update_apply] at hru ⊢
      split at hru
      · cases hru
      · exact hru) now
    refine ⟨k', ?_, hnext.after (Keeps.of_move rfl rfl rfl rfl (by simp))⟩
    simp only [Kernel.threadFinish, hr.deref, Outcome.ok_bind, hrem, hj, Kernel.threadWakeup, hsj',
      if_true, schedInsert, happ, Outcome.pure_eq, hrun]

/-- **The end of `thread_join`** on a zombie. -/
theorem threadReap (h : k.Core rs ts) (hr : k.Running c) (hit : k.inserted t = true)
    (hzt : k.state t = .zombie) (hc : k.pc c = .join t ∨ k.pc c = .run ∧ k.joiner t = none) :
    (k.threadReap c t).1.Core rs ts ∧ (k.threadReap c t).1.Running c := by
  have hfin : k.pc t = .finished := (h.joins.zombie t hit).mp hzt
  have hct : c ≠ t := by
    rintro rfl
    simp [hr.state] at hzt
  have hnt : t ∉ rs := by
    rw [h.active t, hzt]
    simp [ThreadState.active]
  have hsleep : ¬ (k.pc c).inSleep c := by
    rcases hc with hc | ⟨hc, -⟩ <;> simp [hc]
  have hnx : TimerRef.thread t ∉ ts := fun hm =>
    h.timers.not_busy (t := t) (by simp [hfin]) (Or.inl hm)
  refine ⟨⟨⟨?_, ?_, h.joins.reap hzt hit hc, h.timers.reap hfin hsleep, h.blocks.reap hfin hit, h.log⟩,
    ?_⟩, hr.1, ?_, ?_⟩
  · exact (Linked.forget_thread h.queues hnt).forget_timer hnx
  · intro u
    simp only [Kernel.threadReap, Function.update_apply]
    split
    · next heq => simp [heq, hnt]
    · exact h.active u
  · exact (h.system.reap hfin hzt).move (Or.inl (by simp))
  · simp [Kernel.threadReap, hct, hr.2.1]
  · intro u hu
    simp only [Kernel.threadReap, Function.update_apply] at hu
    split at hu
    · cases hu
    · exact hr.2.2 u hu

/-- **`thread_join`** that has to wait. -/
theorem threadJoin_wait (h : k.Core rs ts) (hr : k.Running c) (hc : k.pc c = .run)
    (hi : k.idle ≠ some c) (hit : k.inserted t = true) (hct : c ≠ t) (hnone : k.joiner t = none)
    (hzt : k.state t ≠ .zombie) (now : Word) :
    ∃ k', k.threadJoin t now = .ok (k', []) ∧
      Next { k with pc := Function.update k.pc c (.join t) } k' ts := by
  let k₁ : Kernel T C := { k with
    joiner := Function.update k.joiner t (some c)
    pc := Function.update k.pc c (.join t) }
  obtain ⟨l, hrem, hlinked⟩ := h.schedRemove hr
    { k₁ with state := Function.update k.state c .sleeping } rfl
  have htim := h.timers.move (h.timers.not_busy (t := c) (by simp [hc])) (p := .join t) (by simp)
    (by simp)
  have hcore : ({ k₁ with state := Function.update k.state c .sleeping, links := l } :
      Kernel T C).Core (rs.erase c) ts :=
    ⟨⟨hlinked, active_erase h.active h.queues.runnable_nodup rfl,
      h.joins.join hc hr.2.1 hit hct hnone hzt, htim, h.blocks.move (by simp), h.log⟩,
      (h.system.setState (Or.inl hi)).move (Or.inl (by simp))⟩
  obtain ⟨k', hrun, hnext⟩ := hcore.schedule (hr.only_current (by decide)) now
  refine ⟨k', ?_, hnext.after (Keeps.of_eq rfl rfl rfl rfl)⟩
  have hsuspend : k₁.threadSuspend now = .ok k' := by
    simp only [Kernel.threadSuspend, k₁, hr.deref, Outcome.ok_bind, hrem, hrun]
  have hcan : k.threadCanJoin t = true := by simp [threadCanJoin, hr.1, hct, hnone]
  simp only [Kernel.threadJoin, hr.deref, Outcome.ok_bind, hcan, if_true, ne_eq, hzt, not_false_eq_true,
    Outcome.pure_eq]
  rw [show k₁ = _ from rfl] at hsuspend
  rw [hsuspend]
  rfl

end Core

/-- The state after the fields of `t` were set and `t` was inserted. -/
def withThread (k : Kernel T C) (t : T) (l : Links (LinkRef T C)) : Kernel T C :=
  { k with
    links := l
    retval := Function.update k.retval t 0
    scheduled := Function.update k.scheduled t 0
    state := Function.update k.state t .ready
    joiner := Function.update k.joiner t none
    pc := Function.update k.pc t .run
    inserted := Function.update k.inserted t true
    passed := Function.update k.passed t none }

theorem threadCreateInsert_eq {k : Kernel T C} {t : T} {l₁ l₂ : Links (LinkRef T C)}
    (h₁ : linkInit k.links (some (.thread t)) = .ok l₁)
    (h₂ : listAppend l₁ (some .runnableList) (some (.thread t)) = .ok l₂) :
    k.threadCreateInsert t = .ok (k.withThread t l₂) := by
  simp only [threadCreateInsert, h₁, Outcome.ok_bind, schedInsert, h₂, Outcome.pure_eq, withThread]

/-- `thread_create` sets the fields of a thread and inserts it. -/
theorem Base.insert {k : Kernel T C} {rs : List T} {ts : List (TimerRef T C)} {t : T}
    (h : k.Base rs ts) (hit : k.inserted t = false) (hbt : k.block t = true)
    (hc : ∀ u, k.pc u ≠ .create t) :
    ∃ l₁ l₂, linkInit k.links (some (.thread t)) = .ok l₁ ∧
      listAppend l₁ (some .runnableList) (some (.thread t)) = .ok l₂ ∧
      (k.withThread t l₂).Base (rs ++ [t]) ts := by
  have hn : t ∉ rs := by
    rw [h.active t]
    simp [hit]
  have hins : Function.update k.inserted t true t = true := Function.update_self _ _ _
  obtain ⟨l₁, hinit, hlinked₁⟩ := Linked.init_thread h.queues hn
  obtain ⟨l₂, happ, hlinked₂⟩ := hlinked₁.append_thread hins hn
  refine ⟨l₁, l₂, hinit, happ, hlinked₂, ?_, h.joins.insert hit, h.timers.insert h.queues.timers hit,
    h.blocks.insert hbt hc, h.log⟩
  intro u
  simp only [withThread, List.mem_append, List.mem_singleton, h.active u, Function.update_apply]
  by_cases hut : u = t
  · simp [hut, ThreadState.active]
  · simp [hut]

namespace Core

variable {k : Kernel T C} {rs : List T} {ts : List (TimerRef T C)} {c t : T}

/-- **`thread_create`** inserts the thread it has made. -/
theorem createInsert (h : k.Core rs ts) (hr : k.Running c) (hc : k.pc c = .create t) :
    ∃ k', k.step .createInsert 0 = .ok (k', []) ∧ Next k k' ts := by
  obtain ⟨hbt, hit, -⟩ := h.blocks.creating c t hc
  have hct : c ≠ t := by
    rintro rfl
    simp [hr.2.1] at hit
  -- the creator goes back to its own code, and the thread is inserted
  have hfree := h.timers.not_busy (t := c) (by simp [hc])
  have hbase : ({ k with pc := Function.update k.pc c .run } : Kernel T C).Base rs ts :=
    ⟨h.queues, h.active, h.joins.move (by simp [hc]) (by simp [hc]) (by simp) (by simp),
      h.timers.move hfree (by simp) (by simp), h.blocks.move (by simp), h.log⟩
  obtain ⟨l₁, l, hinit, happ, hbase'⟩ := hbase.insert (t := t) hit hbt (by
    intro u hu
    simp only [Function.update_apply] at hu
    split at hu
    · cases hu
    · next huc => exact huc (h.blocks.unique u c t hu hc))
  have hcomm : Function.update (Function.update k.pc t .run) c .run =
      Function.update (Function.update k.pc c .run) t .run := Function.update_comm hct.symm _ _ _
  have hkeeps : Keeps k (({ k with pc := Function.update k.pc c .run } : Kernel T C).withThread t l) :=
    (Keeps.of_move rfl rfl rfl rfl (by simp) :
      Keeps k { k with pc := Function.update k.pc c .run }).trans
        (Keeps.of_move rfl rfl rfl rfl (by simp))
  refine ⟨({ k with pc := Function.update k.pc c .run } : Kernel T C).withThread t l, ?_, rs ++ [t], c,
    ⟨hbase', ?_⟩, ⟨hr.1, ?_, ?_⟩, hkeeps⟩
  · have hrun : k.threadCreateInsert t = .ok (k.withThread t l) := threadCreateInsert_eq hinit happ
    simp only [step, hr.deref, Outcome.ok_bind, hc, hrun, Outcome.pure_eq, withThread, hcomm]
  · exact ((h.system.setState (Or.inr rfl)).move (Or.inl (by simp))).insert.move (Or.inl (by simp))
  · simp [withThread, hct, hr.2.1]
  · intro u hu
    simp only [withThread, Function.update_apply] at hu ⊢
    by_cases hut : u = t
    · simp [hut, Ne.symm hct]
    · simpa [hut] using hr.2.2 u (by simpa [hut] using hu)

/-- **`thread_sleep` and `thread_usleep`**: the timer of the current thread is neither pending nor
running. -/
theorem threadSleep (h : k.Core rs ts) (hr : k.Running c) (hc : k.pc c = .run)
    (hi : k.idle ≠ some c) (u : SleepUnit) (n now : Word) :
    ¬ TimerBusy k.loop ts (.thread c) ∧
      ∃ k', k.threadSleep u n now = .ok k' ∧ Next k k' (ts ++ [.thread c]) := by
  have hfree := h.timers.not_busy (t := c) (by simp [hc])
  have hnot : TimerRef.thread c ∉ ts := fun hm => hfree (Or.inl hm)
  refine ⟨hfree, ?_⟩
  obtain ⟨l₁, hrem, hlinked₁⟩ := h.schedRemove hr
    { k with state := Function.update k.state c .sleeping } rfl
  obtain ⟨l₂, hinit, hlinked₂⟩ := hlinked₁.init_timer hnot
  obtain ⟨l₃, happ, hlinked₃⟩ := hlinked₂.append_timer (Function.update_self _ _ _) hnot
  let k₁ : Kernel T C := { k with
    links := l₃
    state := Function.update k.state c .sleeping
    expires := Function.update (Function.update k.expires (.thread c) 0) (.thread c)
      (k.jiffies + Function.update k.timeout (.thread c) (u.toJiffies n) (.thread c))
    timeout := Function.update k.timeout (.thread c) (u.toJiffies n)
    running := Function.update k.running (.thread c) false
    handler := Function.update k.handler (.thread c) (some (.threadTimeout c))
    initialised := Function.update k.initialised (.thread c) true
    starts := Function.update k.starts (.thread c) (k.starts (.thread c) + 1)
    pc := Function.update k.pc c (.sleep u) }
  have hcore : k₁.Core (rs.erase c) (ts ++ [.thread c]) :=
    ⟨⟨hlinked₃, active_erase h.active h.queues.runnable_nodup rfl,
      (h.joins.sleep hc).move (by simp [hc]) (by simp [hc]) (by simp) (by simp),
      h.timers.arm hc hr.2.1 u, h.blocks.move (by simp),
      h.log.start fun _ _ hb => hfree (Or.inr hb)⟩,
      (h.system.setState (Or.inl hi)).move (Or.inl (by simp))⟩
  obtain ⟨k', hrun, hnext⟩ := hcore.schedule (hr.only_current (by decide)) now
  refine ⟨k', ?_, hnext.after (Keeps.of_move rfl rfl rfl rfl (by simp))⟩
  simp only [Kernel.threadSleep, hr.deref, Outcome.ok_bind, hrem, timerInitJiffies, hinit,
    Kernel.timerStart, happ, Outcome.pure_eq]
  exact hrun

end Core

/-! ### The search for an expired timer -/

/-- The first expired timer of a list. -/
def firstExpired (k : Kernel T C) (ts : List (TimerRef T C)) : Option (TimerRef T C) :=
  ts.find? fun x => decide (k.expires x < k.jiffies)

omit [DecidableEq T] [DecidableEq C] in
theorem expiredFrom_seg (k : Kernel T C) {ts : List (TimerRef T C)} {a : LinkRef T C}
    (hs : Links.Seg k.links a (ts.map .timer) .timersList) {fuel : ℕ} (hfuel : ts.length < fuel) :
    k.expiredFrom fuel (k.links.next a) = .ok (k.firstExpired ts) := by
  induction ts generalizing a fuel with
  | nil =>
    obtain ⟨fuel, rfl⟩ : ∃ n, fuel = n + 1 := ⟨fuel - 1, by omega⟩
    rw [hs.1]
    rfl
  | cons x ts ih =>
    obtain ⟨fuel, rfl⟩ : ∃ n, fuel = n + 1 := ⟨fuel - 1, by omega⟩
    obtain ⟨h1, -, h3⟩ := hs
    simp only [List.length_cons] at hfuel
    rw [h1, expiredFrom, firstExpired, List.find?_cons]
    by_cases hx : k.expires x < k.jiffies
    · simp [hx]
    · rw [if_neg hx, ih h3 (by omega)]
      simp [hx, firstExpired]

omit [DecidableEq T] [DecidableEq C] in
/-- **The search** returns the first expired timer of the list. -/
theorem expired_eq (k : Kernel T C) {l : Links (LinkRef T C)} {rs : List T} {ts : List (TimerRef T C)}
    {ins : T → Bool} {ini : TimerRef T C → Bool} (h : Linked l rs ts ins ini) (hl : k.links = l)
    {fuel : ℕ} (hfuel : ts.length < fuel) : k.expired fuel = .ok (k.firstExpired ts) := by
  subst hl
  exact k.expiredFrom_seg h.ring_timers.seg hfuel

namespace Core

variable {k : Kernel T C} {rs : List T} {ts : List (TimerRef T C)} {c t : T}

omit [DecidableEq T] [DecidableEq C] in
/-- A change that the invariant does not see. -/
theorem setJiffies (h : k.Core rs ts) (n : Word) : ({ k with jiffies := n } : Kernel T C).Core rs ts :=
  ⟨⟨h.queues, h.active, h.joins, h.timers, h.blocks, h.log⟩, h.system⟩

/-- **`sched_timer`**, when its `thread_wakeup` is not aimed at a thread in `thread_join`. -/
theorem schedTimer (h : k.Core rs ts) (hr : k.Running c) (timestamp now : Word)
    (hok : k.NoStray (.tick timestamp now)) : ∃ k', (∀ fuel, ts.length < fuel →
      k.schedTimer timestamp now fuel = .ok k') ∧ Next k k' ts := by
  obtain ⟨u, hu, hiu, -⟩ := h.system.timer
  let k₁ : Kernel T C := { k with jiffies := k.jiffies + 1 }
  have h₁ : k₁.Core rs ts := h.setJiffies _
  have hr₁ : k₁.Running c := hr
  have hkeeps₁ : Keeps k k₁ := Keeps.of_eq rfl rfl rfl rfl
  have hexp : ∀ fuel, ts.length < fuel → k₁.expired fuel = .ok (k₁.firstExpired ts) :=
    fun fuel hfuel => k₁.expired_eq h₁.queues rfl hfuel
  -- the timer thread is woken up when there is an expired timer
  obtain ⟨k₂, hrun₂, ⟨rs₂, h₂⟩, hr₂, hkeeps⟩ : ∃ k₂, (∀ fuel, ts.length < fuel →
      k₁.timersRun fuel = .ok k₂) ∧ (∃ rs₂, k₂.Core rs₂ ts) ∧ k₂.Running c ∧ Keeps k k₂ := by
    cases hx : k₁.firstExpired ts with
    | none =>
      refine ⟨k₁, fun fuel hfuel => ?_, ⟨rs, h₁⟩, hr₁, hkeeps₁⟩
      simp only [timersRun, hexp fuel hfuel, hx, Outcome.ok_bind, Outcome.pure_eq]
    | some x =>
      have hj : ∀ v, ¬ k₁.BlockedInJoin u v := fun v =>
        hok u v ⟨hu, x, ts.length + 1, fun fuel hfuel => by rw [hexp fuel (by omega), hx]⟩
      obtain ⟨k₂, hrun, hcore, hr₂, hkeeps⟩ := h₁.threadWakeup hr₁ hiu hj
      refine ⟨k₂, fun fuel hfuel => ?_, hcore, hr₂, hkeeps₁.trans hkeeps⟩
      have htt : LinkList.deref k₁.timerThread = .ok u := by
        rw [show k₁.timerThread = some u from hu]
        rfl
      simp only [timersRun, hexp fuel hfuel, hx, Outcome.ok_bind, htt, hrun]
  by_cases hq : timestamp - k₂.scheduled c ≥ threadQuantum
  · obtain ⟨k', hrun', rs', c', hcore', hr', hkeeps'⟩ := h₂.schedule
      (fun v hv hrun => by rw [hr₂.1, (hr₂.2.2 v hv).mp hrun]) now
    refine ⟨k', fun fuel hfuel => ?_, rs', c', hcore', hr', hkeeps.trans hkeeps'⟩
    have h2 := hrun₂ fuel hfuel
    simp only [k₁] at h2
    simp only [Kernel.schedTimer, h2, Outcome.ok_bind, hr₂.deref, if_pos hq, hrun']
  · refine ⟨k₂, fun fuel hfuel => ?_, rs₂, c, h₂, hr₂, hkeeps⟩
    have h2 := hrun₂ fuel hfuel
    simp only [k₁] at h2
    simp only [Kernel.schedTimer, h2, Outcome.ok_bind, hr₂.deref, if_neg hq, Outcome.pure_eq]

/-! ### `timer_destroy` -/

/-- The current thread may destroy the timer: it is initialised, it is not that of another thread, and
if the thread is inside `thread_sleep` it is its own. -/
structure MayDestroy (k : Kernel T C) (ts : List (TimerRef T C)) (c : T) (x : TimerRef T C) : Prop where
  initialised : k.initialised x = true
  own : ∀ s, x = .thread s → s = c
  free : ¬ TimerBusy k.loop ts (.thread c) ∨ x = .thread c
  notJoin : ∀ u, k.pc c ≠ .join u
  notFinished : k.pc c ≠ .finished

/-- The inner loop, while the timer runs: the thread yields. -/
theorem destroy_yield (h : k.Core rs ts) (hr : k.Running c) {x : TimerRef T C}
    (hm : MayDestroy k ts c x) (hrun : k.running x = true) (r : Option (SleepUnit × Word))
    (now : Word) : ∃ k', (∀ fuel, timerDestroyFrom x r now (fuel + 1) true k = .ok (k', [])) ∧
      Next k k' ts := by
  have hcore : ({ k with pc := Function.update k.pc c (.destroy x r) } : Kernel T C).Core rs ts :=
    ⟨⟨h.queues, h.active, h.joins.move hm.notJoin hm.notFinished (by simp) (by simp),
      h.timers.wait hm.initialised hm.own hm.free r, h.blocks.move (by simp), h.log⟩,
      h.system.move (Or.inl (by simp))⟩
  obtain ⟨k', hsched, hnext⟩ := hcore.schedule
    (fun u hu hru => by rw [show k.current = some c from hr.1, (hr.2.2 u hu).mp hru]) now
  refine ⟨k', fun fuel => ?_, hnext.after (Keeps.of_move rfl rfl rfl rfl (by simp))⟩
  simp only [timerDestroyFrom, hr.deref, Outcome.ok_bind, hrun, if_true, hsched, Outcome.pure_eq]

/-- Both loops end. -/
theorem destroy_return (h : k.Core rs ts) (hr : k.Running c) {x : TimerRef T C}
    (hm : MayDestroy k ts c x) (hrun : k.running x = false) (hx : x ∉ ts)
    (r : Option (SleepUnit × Word)) (now : Word) :
    ¬ TimerBusy k.loop ts x ∧ (∀ fuel, timerDestroyFrom x r now (fuel + 1) true k =
      .ok ({ k with pc := Function.update k.pc c .run }, destroyReturns x r)) ∧
      Next k { k with pc := Function.update k.pc c .run } ts := by
  have hidle : ¬ TimerBusy k.loop ts x := by
    rintro (hb | hb)
    · exact hx hb
    · simp [(h.timers.held x hm.initialised).mpr hb] at hrun
  have hfree : ¬ TimerBusy k.loop ts (.thread c) := by
    rcases hm.free with hf | rfl
    · exact hf
    · exact hidle
  refine ⟨hidle, fun fuel => ?_, rs, c, ⟨⟨h.queues, h.active,
    h.joins.move hm.notJoin hm.notFinished (by simp) (by simp), h.timers.move hfree (by simp) (by simp),
    h.blocks.move (by simp), h.log⟩, h.system.move (Or.inl (by simp))⟩, hr,
    Keeps.of_move rfl rfl rfl rfl (by simp)⟩
  have hpend : k.timerPending x = .ok false := by
    rw [timerPending, Linked.connected_timer h.queues hm.initialised]
    simp [hx]
  simp only [timerDestroyFrom, hr.deref, Outcome.ok_bind, hrun, Bool.false_eq_true, if_false, hpend,
    Outcome.pure_eq]

/-- The top of the outer loop: a pending timer is taken from the list. -/
theorem destroy_remove (h : k.Core rs ts) {x : TimerRef T C}
    (hx : k.initialised x = true) (r : Option (SleepUnit × Word)) (now : Word) :
    ∃ l, ({ k with links := l } : Kernel T C).Core rs (ts.erase x) ∧
      ∀ fuel, timerDestroyFrom x r now (fuel + 1) false k =
        timerDestroyFrom x r now fuel true { k with links := l } := by
  have hpend : k.timerPending x = .ok (decide (x ∈ ts)) :=
    Linked.connected_timer h.queues hx
  by_cases hm : x ∈ ts
  · obtain ⟨l, hl, hlinked⟩ := Linked.remove_timer h.queues hx
    have hsub : ∀ y ∈ ts.erase x, y ∈ ts := fun y hy => List.mem_of_mem_erase hy
    refine ⟨l, ⟨⟨hlinked, h.active, h.joins, h.timers.shrink hsub, h.blocks, h.log.shrink hsub⟩,
      h.system⟩, fun fuel => ?_⟩
    simp only [timerDestroyFrom, hpend, Outcome.ok_bind, hm, decide_true, if_true, timerRemove, hl,
      Outcome.pure_eq]
  · refine ⟨k.links, ?_, fun fuel => ?_⟩
    · rw [List.erase_of_not_mem hm]
      exact h
    · simp only [timerDestroyFrom, hpend, Outcome.ok_bind, hm, decide_false, Bool.false_eq_true,
        if_false]

/-- **`timer_destroy`**: the thread stays in `thread_yield`, or the call returns and the timer is neither
pending nor running. -/
theorem timerDestroy (h : k.Core rs ts) (hr : k.Running c) {x : TimerRef T C}
    (hm : MayDestroy k ts c x) (r : Option (SleepUnit × Word)) (now : Word) (b : Bool) :
    ∃ k' evs ts', (∀ fuel, 4 ≤ fuel → timerDestroyFrom x r now fuel b k = .ok (k', evs)) ∧
      Next k k' ts' ∧ (∀ y ∈ ts', y ∈ ts) ∧
      (evs = [] ∨ evs = destroyReturns x r ∧ ¬ TimerBusy k'.loop ts' x ∧ k'.initialised x = true) := by
  -- the outer loop, from its top
  have hfalse : ∃ k' evs ts', (∀ fuel, 3 ≤ fuel → timerDestroyFrom x r now fuel false k = .ok (k', evs)) ∧
      Next k k' ts' ∧ (∀ y ∈ ts', y ∈ ts) ∧
      (evs = [] ∨ evs = destroyReturns x r ∧ ¬ TimerBusy k'.loop ts' x ∧ k'.initialised x = true) := by
    obtain ⟨l, h₁, heq⟩ := h.destroy_remove hm.initialised r now
    have hsub : ∀ y ∈ ts.erase x, y ∈ ts := fun y hy => List.mem_of_mem_erase hy
    have hm₁ : MayDestroy { k with links := l } (ts.erase x) c x :=
      { hm with free := hm.free.imp_left fun hf hb => hf (hb.imp_left (hsub _)) }
    have hnot : x ∉ ts.erase x := fun hx => (h.queues.timers_nodup.mem_erase_iff.mp hx).1 rfl
    cases hrun : k.running x with
    | true =>
      obtain ⟨k', hk', hnext⟩ := h₁.destroy_yield hr hm₁ hrun r now
      refine ⟨k', [], ts.erase x, fun fuel hfuel => ?_, hnext.after (Keeps.of_eq rfl rfl rfl rfl), hsub,
        Or.inl rfl⟩
      obtain ⟨fuel, rfl⟩ : ∃ n, fuel = n + 2 := ⟨fuel - 2, by omega⟩
      rw [heq, hk']
    | false =>
      obtain ⟨hidle, hk', hnext⟩ := h₁.destroy_return hr hm₁ hrun hnot r now
      refine ⟨{ k with links := l, pc := Function.update k.pc c .run }, destroyReturns x r, ts.erase x,
        fun fuel hfuel => ?_, hnext.after (Keeps.of_eq rfl rfl rfl rfl), hsub,
        Or.inr ⟨rfl, hidle, hm.initialised⟩⟩
      obtain ⟨fuel, rfl⟩ : ∃ n, fuel = n + 2 := ⟨fuel - 2, by omega⟩
      rw [heq, hk']
  cases b with
  | false =>
    obtain ⟨k', evs, ts', hk', hrest⟩ := hfalse
    exact ⟨k', evs, ts', fun fuel hfuel => hk' fuel (by omega), hrest⟩
  | true =>
    cases hrun : k.running x with
    | true =>
      obtain ⟨k', hk', hnext⟩ := h.destroy_yield hr hm hrun r now
      refine ⟨k', [], ts, fun fuel hfuel => ?_, hnext, fun y hy => hy, Or.inl rfl⟩
      obtain ⟨fuel, rfl⟩ : ∃ n, fuel = n + 1 := ⟨fuel - 1, by omega⟩
      exact hk' fuel
    | false =>
      by_cases hx : x ∈ ts
      · -- the handler has started the timer again
        obtain ⟨k', evs, ts', hk', hrest⟩ := hfalse
        refine ⟨k', evs, ts', fun fuel hfuel => ?_, hrest⟩
        obtain ⟨fuel, rfl⟩ : ∃ n, fuel = n + 1 := ⟨fuel - 1, by omega⟩
        have hpend : k.timerPending x = .ok true := by
          rw [timerPending, Linked.connected_timer h.queues hm.initialised]
          simp [hx]
        simp only [timerDestroyFrom, hr.deref, Outcome.ok_bind, hrun, Bool.false_eq_true, if_false,
          hpend, if_true]
        exact hk' fuel (by omega)
      · obtain ⟨hidle, hk', hnext⟩ := h.destroy_return hr hm hrun hx r now
        refine ⟨{ k with pc := Function.update k.pc c .run }, destroyReturns x r, ts,
          fun fuel hfuel => ?_, hnext, fun y hy => hy, Or.inr ⟨rfl, hidle, hm.initialised⟩⟩
        obtain ⟨fuel, rfl⟩ : ∃ n, fuel = n + 1 := ⟨fuel - 1, by omega⟩
        exact hk' fuel

end Core

end Kernel

end Kalisto
