import Kalisto.Proc.ThreadSteps

/-!
# One act

Each act that is admitted ends without a fault and keeps the invariant, and `Effect` says what it does
to the list of timers and to the memory of threads, and what the events of it mean.

* `Core.leads` — the statement for all acts, one lemma for each before it.
-/

namespace Kalisto

open LinkList

variable {T C : Type} [DecidableEq T] [DecidableEq C]

namespace Kernel

/-- The act starts the timer. -/
def Starts (k : Kernel T C) : Act T C → TimerRef T C → Prop
  | .timerStart c, x => x = .client c
  | .sleep _ _ _, x => ∃ t, k.current = some t ∧ x = .thread t
  | _, _ => False

/-- The event releases the memory of `t`. -/
def releases (t : T) : Event T C → Bool
  | .joined u _ => decide (u = t)
  | _ => false

/-- **What an act does besides keeping the invariant.** -/
structure Effect (k : Kernel T C) (a : Act T C) (ts : List (TimerRef T C)) (k' : Kernel T C)
    (evs : List (Event T C)) (ts' : List (TimerRef T C)) : Prop where
  busy : ∀ x, TimerBusy k'.loop ts' x → TimerBusy k.loop ts x ∨ k.Starts a x
  destroyed : ∀ x, .destroyed x ∈ evs → ¬ TimerBusy k'.loop ts' x ∧ k'.initialised x = true
  joined : ∀ t v, .joined t v ∈ evs → k.state t = .zombie ∧ k.passed t = some v
  memory : ∀ t, evs.count (.created t) + (k.block t).toNat =
    evs.countP (releases t) + (k'.block t).toNat
  foundEmpty : k'.foundEmpty = k.foundEmpty
  joining : ∀ u t, k'.pc u = .join t → k.pc u = .join t ∨ ∃ now, a = .join t now

variable {k k' : Kernel T C} {a : Act T C} {rs : List T} {ts ts' : List (TimerRef T C)} {c t : T}

/-- An act that makes nothing known. -/
theorem Effect.silent (hbusy : ∀ x, TimerBusy k'.loop ts' x → TimerBusy k.loop ts x ∨ k.Starts a x)
    (hblock : k'.block = k.block) (hfound : k'.foundEmpty = k.foundEmpty)
    (hjoin : ∀ u t, k'.pc u = .join t → k.pc u = .join t) : Effect k a ts k' [] ts' :=
  ⟨hbusy, by simp, by simp, by simp [hblock], hfound, fun u t hpc => Or.inl (hjoin u t hpc)⟩

/-- What an act leads to. -/
def Leads (k : Kernel T C) (ts : List (TimerRef T C)) (a : Act T C) : Prop :=
  ∃ k' evs rs' ts' c', Outcome.Returns (k.step a) (k', evs) ∧ k'.Core rs' ts' ∧ k'.Running c' ∧
    Effect k a ts k' evs ts'

/-- An act of the plain kind: it leaves the list of timers, the place of the timer thread and the
allocated memory as they are. -/
theorem Next.leads (hrun : ∀ fuel, k.step a fuel = .ok (k', [])) (h : Next k k' ts) :
    k.Leads ts a := by
  obtain ⟨rs', c', hcore, hr, hkeeps⟩ := h
  refine ⟨k', [], rs', ts, c', ⟨0, fun fuel _ => hrun fuel⟩, hcore, hr,
    Effect.silent ?_ hkeeps.block hkeeps.foundEmpty hkeeps.joining⟩
  rw [hkeeps.loop]
  exact fun x hb => Or.inl hb

omit [DecidableEq T] [DecidableEq C] in
theorem Running.eq {u : T} (hr : k.Running c) (hu : k.current = some u) : u = c := by
  rw [hr.1] at hu
  exact (Option.some.inj hu).symm

/-! ### The calls of a thread -/

namespace Core

/-- `thread_create` gets memory. -/
theorem leads_createAlloc (h : k.Core rs ts) (hr : k.Running c) (hc : k.pc c = .run)
    (ht : k.block t = false) : k.Leads ts (.createAlloc t) := by
  have hfree := h.timers.not_busy (t := c) (by simp [hc])
  refine ⟨{ k with
    pc := Function.update k.pc c (.create t)
    block := Function.update k.block t true }, [.created t], rs, ts, c, ⟨0, fun fuel _ => ?_⟩, ?_, hr,
    fun x hb => Or.inl hb, by simp, by simp, fun u => ?_, rfl,
    fun u s hpc => Or.inl (join_of_update (by simp) hpc)⟩
  · simp only [step, hr.deref, Outcome.ok_bind, Outcome.pure_eq]
  · exact ⟨⟨h.queues, h.active, h.joins.move (by simp [hc]) (by simp [hc]) (by simp) (by simp),
      h.timers.move hfree (by simp) (by simp), h.blocks.alloc hr.2.1 ht, h.log⟩,
      h.system.move (Or.inl (by simp))⟩
  · by_cases hut : u = t
    · subst hut
      simp [ht, releases]
    · have hne : Event.created t ≠ (Event.created u : Event T C) := fun heq => hut (Event.created.inj heq).symm
      simp [Function.update_of_ne hut, hne, releases]

theorem leads_createInsert (h : k.Core rs ts) (hr : k.Running c) (hc : k.pc c = .create t) :
    k.Leads ts .createInsert := by
  obtain ⟨k', hrun, hnext⟩ := h.createInsert hr hc
  exact hnext.leads fun _ => hrun

theorem leads_yield (h : k.Core rs ts) (hr : k.Running c) (now : Word) : k.Leads ts (.yield now) := by
  obtain ⟨k', hrun, hnext⟩ := h.schedule (fun u hu hru => by rw [hr.1, (hr.2.2 u hu).mp hru]) now
  refine hnext.leads fun _ => ?_
  simp only [step, hrun, Outcome.ok_bind, Outcome.pure_eq]

theorem leads_suspend (h : k.Core rs ts) (hr : k.Running c) (hc : k.pc c = .run)
    (hi : k.idle ≠ some c) (now : Word) : k.Leads ts (.suspend now) := by
  obtain ⟨k', hrun, hnext⟩ := h.threadSuspend hr hc hi now
  refine hnext.leads fun _ => ?_
  simp only [step, hrun, Outcome.ok_bind, Outcome.pure_eq]

theorem leads_wakeup (h : k.Core rs ts) (hr : k.Running c) (ht : k.inserted t = true)
    (hok : k.NoStray (.wakeup t)) : k.Leads ts (.wakeup t) := by
  obtain ⟨k', hrun, ⟨rs', hcore⟩, hr', hkeeps⟩ := h.threadWakeup hr ht fun u => hok t u rfl
  have hnext : Next k k' ts := ⟨rs', c, hcore, hr', hkeeps⟩
  refine hnext.leads fun _ => ?_
  simp only [step, hrun, Outcome.ok_bind, Outcome.pure_eq]

theorem leads_sleep (h : k.Core rs ts) (hr : k.Running c) (hc : k.pc c = .run)
    (hi : k.idle ≠ some c) (u : SleepUnit) (n now : Word) : k.Leads ts (.sleep u n now) := by
  obtain ⟨-, k', hrun, rs', c', hcore, hr', hkeeps⟩ := h.threadSleep hr hc hi u n now
  refine ⟨k', [], rs', _, c', ⟨0, fun fuel _ => ?_⟩, hcore, hr',
    Effect.silent ?_ hkeeps.block hkeeps.foundEmpty hkeeps.joining⟩
  · simp only [step, hrun, Outcome.ok_bind, Outcome.pure_eq]
  · rw [hkeeps.loop]
    rintro x (hb | hb)
    · rcases List.mem_append.mp hb with hb | hb
      · exact Or.inl (Or.inl hb)
      · exact Or.inr ⟨c, hr.1, List.mem_singleton.mp hb⟩
    · exact Or.inl (Or.inr hb)

theorem leads_finish (h : k.Core rs ts) (hr : k.Running c) (hc : k.pc c = .run)
    (hi : k.idle ≠ some c) (ht : k.timerThread ≠ some c) (retval now : Word) :
    k.Leads ts (.finish retval now) := by
  obtain ⟨k', hrun, hnext⟩ := h.threadFinish hr hc hi ht retval now
  refine hnext.leads fun _ => ?_
  simp only [step, hrun, Outcome.ok_bind, Outcome.pure_eq]

/-- The end of `thread_join`, as part of any act. -/
theorem leads_reap (h : k.Core rs ts) (hr : k.Running c) (hit : k.inserted t = true)
    (hzt : k.state t = .zombie) (hc : k.pc c = .join t ∨ k.pc c = .run ∧ k.joiner t = none)
    (hrun : ∀ fuel, k.step a fuel = .ok (k.threadReap c t)) : k.Leads ts a := by
  obtain ⟨hcore, hr'⟩ := h.threadReap hr hit hzt hc
  refine ⟨_, _, rs, ts, c, ⟨0, fun fuel _ => hrun fuel⟩, hcore, hr', fun x hb => Or.inl hb, ?_, ?_, ?_,
    rfl, fun u s hpc => Or.inl (join_of_update (by simp) hpc)⟩
  · simp
  · intro u v hm
    obtain ⟨rfl, rfl⟩ : u = t ∧ v = k.retval t := by simpa [Kernel.threadReap] using hm
    exact ⟨hzt, h.joins.passed u hit hzt⟩
  · intro u
    have hbt := h.blocks.allocated t hit
    by_cases hut : u = t
    · subst hut
      simp [releases, hbt]
    · simp [releases, Function.update_of_ne hut, Ne.symm hut]

theorem leads_join (h : k.Core rs ts) (hr : k.Running c) (hc : k.pc c = .run)
    (hi : k.idle ≠ some c) (hit : k.inserted t = true) (now : Word) : k.Leads ts (.join t now) := by
  by_cases hcan : k.threadCanJoin t = true
  · obtain ⟨hcur, hnone⟩ : k.current ≠ some t ∧ k.joiner t = none := by
      simpa [threadCanJoin] using hcan
    have hct : c ≠ t := fun heq => hcur (heq ▸ hr.1)
    by_cases hzt : k.state t = .zombie
    · refine h.leads_reap hr hit hzt (Or.inr ⟨hc, hnone⟩) fun _ => ?_
      simp only [step, Kernel.threadJoin, hr.deref, Outcome.ok_bind, hcan, if_true, ne_eq, hzt,
        not_true_eq_false, if_false, Outcome.pure_eq]
    · obtain ⟨k', hrun, rs', c', hcore, hr', hkeeps⟩ := h.threadJoin_wait hr hc hi hit hct hnone hzt now
      refine ⟨k', [], rs', ts, c', ⟨0, fun _ _ => hrun⟩, hcore, hr', ⟨?_, by simp, by simp, ?_,
        hkeeps.foundEmpty, fun u s hpc => ?_⟩⟩
      · rw [hkeeps.loop]
        exact fun x hb => Or.inl hb
      · rw [hkeeps.block]
        simp
      · have hjoin := hkeeps.joining u s hpc
        simp only [Function.update_apply] at hjoin
        split at hjoin
        · obtain rfl : t = s := by simpa using hjoin
          exact Or.inr ⟨now, rfl⟩
        · exact Or.inl hjoin
  · refine ⟨k, [.invalid t], rs, ts, c, ⟨0, fun fuel _ => ?_⟩, h, hr, fun x hb => Or.inl hb, by simp,
      by simp, by simp [releases], rfl, fun _ _ => Or.inl⟩
    simp only [step, Kernel.threadJoin, hr.deref, Outcome.ok_bind, hcan, Bool.false_eq_true, if_false,
      Outcome.pure_eq]

/-! ### The timers of clients -/

theorem leads_timerInit (h : k.Core rs ts) (hr : k.Running c) {x : C} (hx : TimerRef.client x ∉ ts)
    (hh : ¬ k.loop.holds (.client x)) (timeout : Word) (b : Bool) :
    k.Leads ts (.timerInit x timeout b) := by
  obtain ⟨l, hinit, hlinked⟩ := Linked.init_timer h.queues hx
  let k₁ : Kernel T C := { k with
    links := l
    expires := Function.update k.expires (.client x) 0
    timeout := Function.update k.timeout (.client x) timeout
    running := Function.update k.running (.client x) false
    handler := Function.update k.handler (.client x) (if b then some .client else none)
    initialised := Function.update k.initialised (.client x) true }
  have hcore : k₁.Core rs ts :=
    ⟨⟨hlinked, h.active, h.joins, h.timers.initClient hh b, h.blocks, h.log⟩, h.system⟩
  have hnext : Next k k₁ ts := ⟨rs, c, hcore, hr, Keeps.of_eq rfl rfl rfl rfl⟩
  refine hnext.leads fun _ => ?_
  simp only [step, timerInitJiffies, hinit, Outcome.ok_bind, Outcome.pure_eq, k₁]

theorem leads_timerStart (h : k.Core rs ts) (hr : k.Running c) {x : C}
    (hini : k.initialised (.client x) = true) (hx : TimerRef.client x ∉ ts) :
    k.Leads ts (.timerStart x) := by
  obtain ⟨l, happ, hlinked⟩ := Linked.append_timer h.queues hini hx
  let k₁ : Kernel T C := { k with
    links := l
    expires := Function.update k.expires (.client x) (k.jiffies + k.timeout (.client x))
    starts := Function.update k.starts (.client x) (k.starts (.client x) + 1) }
  have hcore : k₁.Core rs (ts ++ [.client x]) :=
    ⟨⟨hlinked, h.active, h.joins, h.timers.startClient x, h.blocks,
      h.log.start fun t heq => by cases heq⟩, h.system⟩
  refine ⟨k₁, [], rs, _, c, ⟨0, fun fuel _ => ?_⟩, hcore, hr, Effect.silent ?_ rfl rfl fun _ _ => id⟩
  · simp only [step, Kernel.timerStart, happ, Outcome.ok_bind, Outcome.pure_eq, k₁]
  · rintro y (hb | hb)
    · rcases List.mem_append.mp hb with hb | hb
      · exact Or.inl (Or.inl hb)
      · exact Or.inr (List.mem_singleton.mp hb)
    · exact Or.inl (Or.inr hb)

theorem leads_timerRelease (h : k.Core rs ts) (hr : k.Running c) {x : C} (hx : TimerRef.client x ∉ ts)
    (hh : ¬ k.loop.holds (.client x)) (hd : ∀ t r, k.pc t ≠ .destroy (.client x) r)
    (m : TimerMemory T C) : k.Leads ts (.timerRelease x m) := by
  have hcore : (k.timerRelease (.client x) m).Core rs ts :=
    ⟨⟨Linked.overwrite_timer h.queues hx m.prev m.next, h.active, h.joins,
      h.timers.release hh hd m.running m.handler, h.blocks, h.log⟩, h.system⟩
  have hnext : Next k (k.timerRelease (.client x) m) ts :=
    ⟨rs, c, hcore, hr, Keeps.of_eq rfl rfl rfl rfl⟩
  exact hnext.leads fun _ => rfl

/-- `timer_destroy`, as part of any act. -/
theorem leads_destroy (h : k.Core rs ts) (hr : k.Running c) {x : TimerRef T C}
    (hm : MayDestroy k ts c x) (r : Option (SleepUnit × Word)) (now : Word) (b : Bool)
    (hrun : ∀ fuel, k.step a fuel = timerDestroyFrom x r now fuel b k) : k.Leads ts a := by
  obtain ⟨k', evs, ts', hk', ⟨rs', c', hcore, hr', hkeeps⟩, hsub, hevs⟩ :=
    h.timerDestroy hr hm r now b
  have hbusy : ∀ y, TimerBusy k'.loop ts' y → TimerBusy k.loop ts y ∨ k.Starts a y := by
    rw [hkeeps.loop]
    exact fun y hb => Or.inl (hb.imp_left (hsub y))
  refine ⟨k', evs, rs', ts', c', ⟨4, fun fuel hfuel => ?_⟩, hcore, hr', ?_⟩
  · rw [hrun, hk' fuel hfuel]
  · rcases hevs with rfl | ⟨rfl, hidle⟩
    · exact Effect.silent hbusy hkeeps.block hkeeps.foundEmpty hkeeps.joining
    · refine ⟨hbusy, fun y hy => ?_, ?_, ?_, hkeeps.foundEmpty,
        fun u t hpc => Or.inl (hkeeps.joining u t hpc)⟩
      · obtain rfl : y = x := by
          rcases r with _ | ⟨u, w⟩ <;> simpa [destroyReturns] using hy
        exact hidle
      · rcases r with _ | ⟨u, w⟩ <;> simp [destroyReturns]
      · intro t
        rcases r with _ | ⟨u, w⟩ <;> simp [destroyReturns, releases, hkeeps.block]

theorem leads_timerDestroy (h : k.Core rs ts) (hr : k.Running c) (hc : k.pc c = .run) {x : C}
    (hini : k.initialised (.client x) = true) (now : Word) : k.Leads ts (.timerDestroy x now) := by
  have hm : MayDestroy k ts c (.client x) :=
    ⟨hini, by simp, Or.inl (h.timers.not_busy (by simp [hc])), by simp [hc], by simp [hc]⟩
  exact h.leads_destroy hr hm none now false fun _ => rfl

/-! ### Continuing -/

theorem leads_resume (h : k.Core rs ts) (hr : k.Running c) (hc : enabled (k.pc c) = false)
    (now : Word) : k.Leads ts (.resume now) := by
  cases hpc : k.pc c with
  | run => simp [hpc, enabled] at hc
  | create t => simp [hpc, enabled] at hc
  | join t =>
    -- the joiner is awake, so the thread is a zombie
    obtain ⟨-, hit, -, -, hiff⟩ := h.joins.waits c t hpc
    have hzt : k.state t = .zombie := by
      by_contra hnot
      have := hiff.mpr hnot
      simp [hr.state] at this
    refine h.leads_reap hr hit hzt (Or.inl hpc) fun _ => ?_
    simp only [step, Kernel.resume, hr.deref, Outcome.ok_bind, hpc, Outcome.pure_eq]
  | sleep u =>
    have hm : MayDestroy k ts c (.thread c) :=
      ⟨h.timers.sleeping c u hpc, by simp, Or.inr rfl, by simp [hpc], by simp [hpc]⟩
    refine h.leads_destroy hr hm (some (u, k.expires (.thread c) - k.jiffies)) now false fun _ => ?_
    simp only [step, Kernel.resume, hr.deref, Outcome.ok_bind, hpc]
  | destroy x r =>
    obtain ⟨hini, hown⟩ := h.timers.destroying c x r hpc
    have hfree : ¬ TimerBusy k.loop ts (.thread c) ∨ x = .thread c := by
      by_cases hx : x = .thread c
      · exact Or.inr hx
      · exact Or.inl (h.timers.not_busy (by simp [hpc, hx]))
    have hm : MayDestroy k ts c x := ⟨hini, hown, hfree, by simp [hpc], by simp [hpc]⟩
    refine h.leads_destroy hr hm r now true fun _ => ?_
    simp only [step, Kernel.resume, hr.deref, Outcome.ok_bind, hpc]
  | finished =>
    have := (h.joins.zombie c hr.2.1).mpr hpc
    simp [hr.state] at this

/-! ### The timer thread -/

theorem leads_timerSelect (h : k.Core rs ts) (hr : k.Running c) (hl : k.loop = .select) :
    k.Leads ts .timerSelect := by
  have hexp : ∀ fuel, ts.length < fuel → k.expired fuel = .ok (k.firstExpired ts) :=
    fun fuel hfuel => k.expired_eq h.queues rfl hfuel
  cases hx : k.firstExpired ts with
  | none =>
    refine ⟨{ k with loop := .clear none }, [], rs, ts, c, ⟨ts.length + 1, fun fuel hfuel => ?_⟩,
      ⟨⟨h.queues, h.active, h.joins, h.timers.reloop (by simp [hl]) (by simp), h.blocks,
        h.log.reloop (by simp)⟩, h.system⟩, hr, Effect.silent ?_ rfl rfl fun _ _ => id⟩
    · simp only [step, Kernel.timerSelect, hexp fuel (by omega), hx, Outcome.ok_bind, Outcome.pure_eq]
    · rintro y (hb | hb)
      · exact Or.inl (Or.inl hb)
      · simp at hb
  | some x =>
    have hmem : x ∈ ts := List.mem_of_find?_eq_some hx
    have hini : k.initialised x = true := h.queues.timers x hmem
    obtain ⟨l, hrem, hlinked⟩ := Linked.remove_timer h.queues hini
    have hsub : ∀ y ∈ ts.erase x, y ∈ ts := fun y hy => List.mem_of_mem_erase hy
    have htim := hl ▸ h.timers
    cases hh : k.handler x with
    | none =>
      refine ⟨{ k with
        links := l
        running := Function.update k.running x true
        loop := .clear (some x) }, [], rs, ts.erase x, c, ⟨ts.length + 1, fun fuel hfuel => ?_⟩,
        ⟨⟨hlinked, h.active, h.joins, htim.select hmem hini (Or.inl rfl), h.blocks,
          (h.log.shrink hsub).reloop (by simp)⟩, h.system⟩, hr, Effect.silent ?_ rfl rfl fun _ _ => id⟩
      · simp only [step, Kernel.timerSelect, hexp fuel (by omega), hx, Outcome.ok_bind, timerRemove,
          hrem, Outcome.pure_eq, hh]
      · rintro y (hb | hb)
        · exact Or.inl (Or.inl (hsub y hb))
        · obtain rfl : x = y := by simpa using hb
          exact Or.inl (Or.inl hmem)
    | some g =>
      refine ⟨{ k with
        links := l
        running := Function.update k.running x true
        loop := .handler x g
        invoked := (x, k.starts x) :: k.invoked }, [], rs, ts.erase x, c,
        ⟨ts.length + 1, fun fuel hfuel => ?_⟩,
        ⟨⟨hlinked, h.active, h.joins, htim.select hmem hini (Or.inr ⟨g, hh, rfl⟩), h.blocks,
          h.log.invoke hmem h.queues.timers_nodup g⟩, h.system⟩, hr, Effect.silent ?_ rfl rfl fun _ _ => id⟩
      · simp only [step, Kernel.timerSelect, hexp fuel (by omega), hx, Outcome.ok_bind, timerRemove,
          hrem, Outcome.pure_eq, hh]
      · rintro y (hb | hb)
        · exact Or.inl (Or.inl (hsub y hb))
        · obtain rfl : x = y := by simpa using hb
          exact Or.inl (Or.inl hmem)

omit [DecidableEq T] [DecidableEq C] in
/-- The handler of a timer has returned. -/
theorem setClear (h : k.Core rs ts) {x : TimerRef T C} {g : Handler T} (hl : k.loop = .handler x g) :
    ({ k with loop := .clear (some x) } : Kernel T C).Core rs ts :=
  ⟨⟨h.queues, h.active, h.joins, h.timers.reloop (by simp [hl]) (by simp), h.blocks,
    h.log.reloop (by simp)⟩, h.system⟩

theorem leads_timerReturn (h : k.Core rs ts) (hr : k.Running c) {x : TimerRef T C} {g : Handler T}
    (hl : k.loop = .handler x g) : k.Leads ts .timerReturn := by
  refine ⟨{ k with loop := .clear (some x) }, [], rs, ts, c, ⟨0, fun fuel _ => ?_⟩, h.setClear hl, hr,
    Effect.silent ?_ rfl rfl fun _ _ => id⟩
  · simp only [step, hl, Outcome.pure_eq]
  · intro y hb
    rw [hl]
    exact Or.inl (hb.imp_right fun hy => by simpa using hy)

omit [DecidableEq T] [DecidableEq C] in
/-- `thread_timeout_handler` is called for the timer of a thread that is inside `thread_sleep`. -/
theorem timeout_owner (h : k.Core rs ts) {x : TimerRef T C}
    (hl : k.loop = .handler x (.threadTimeout t)) :
    x = .thread t ∧ k.inserted t = true ∧ (k.pc t).inSleep t ∧ (x, k.starts x) ∈ k.invoked := by
  obtain rfl : x = .thread t := by
    cases x with
    | thread u =>
      have := h.timers.localThread u _ hl
      simp_all
    | client y =>
      have := h.timers.localClient y _ hl
      simp_all
  refine ⟨rfl, h.timers.owner t (h.timers.holds _ (by simp [hl])), ?_, h.log.current t _ hl⟩
  exact h.timers.busy t (Or.inr (by simp [hl]))

theorem leads_timerTimeout (h : k.Core rs ts) (hr : k.Running c) {x : TimerRef T C}
    (hl : k.loop = .handler x (.threadTimeout t)) : k.Leads ts .timerTimeout := by
  obtain ⟨rfl, hit, hsleep, -⟩ := h.timeout_owner hl
  have hj : ∀ u, ¬ k.BlockedInJoin t u := fun u hb => by simp [hb.1] at hsleep
  obtain ⟨k₁, hrun, ⟨rs', hcore⟩, hr', hkeeps⟩ := h.threadWakeup hr hit hj
  refine ⟨{ k₁ with loop := .clear (some (.thread t)) }, [], rs', ts, c, ⟨0, fun fuel _ => ?_⟩,
    hcore.setClear (hkeeps.loop.trans hl), hr', Effect.silent ?_ hkeeps.block hkeeps.foundEmpty hkeeps.joining⟩
  · simp only [step, hl, hrun, Outcome.ok_bind, Outcome.pure_eq]
  · intro y hb
    rw [hl]
    exact Or.inl (hb.imp_right fun hy => by simpa using hy)

theorem leads_timerClear (h : k.Core rs ts) (hr : k.Running c) {o : Option (TimerRef T C)}
    (hl : k.loop = .clear o) : k.Leads ts .timerClear := by
  cases o with
  | none =>
    refine ⟨{ k with loop := .suspend }, [], rs, ts, c, ⟨0, fun fuel _ => ?_⟩,
      ⟨⟨h.queues, h.active, h.joins, h.timers.reloop (by simp [hl]) (by simp), h.blocks,
        h.log.reloop (by simp)⟩, h.system⟩, hr, Effect.silent ?_ rfl rfl fun _ _ => id⟩
    · simp only [step, hl, Outcome.pure_eq, Kernel.timerClear]
    · intro y hb
      exact Or.inl (hb.imp_right fun hy => by simp at hy)
  | some x =>
    have htim := hl ▸ h.timers
    refine ⟨{ k with running := Function.update k.running x false, loop := .select }, [], rs, ts, c,
      ⟨0, fun fuel _ => ?_⟩, ⟨⟨h.queues, h.active, h.joins, htim.clear, h.blocks,
        h.log.reloop (by simp)⟩, h.system⟩, hr, Effect.silent ?_ rfl rfl fun _ _ => id⟩
    · simp only [step, hl, Outcome.pure_eq, Kernel.timerClear]
    · intro y hb
      exact Or.inl (hb.imp_right fun hy => by simp at hy)

theorem leads_timerSuspend (h : k.Core rs ts) (hr : k.Running c) (hc : k.pc c = .run)
    (ht : k.timerThread = some c) (hl : k.loop = .suspend) (now : Word) :
    k.Leads ts (.timerSuspend now) := by
  have hi : k.idle ≠ some c := fun heq => h.system.ne (ht.trans heq.symm)
  have hcore : ({ k with loop := .select } : Kernel T C).Core rs ts :=
    ⟨⟨h.queues, h.active, h.joins, h.timers.reloop (by simp [hl]) (by simp), h.blocks,
      h.log.reloop (by simp)⟩, h.system⟩
  obtain ⟨k', hrun, rs', c', hcore', hr', hkeeps⟩ := hcore.threadSuspend hr hc hi now
  refine ⟨k', [], rs', ts, c', ⟨0, fun fuel _ => ?_⟩, hcore', hr',
    Effect.silent ?_ hkeeps.block hkeeps.foundEmpty hkeeps.joining⟩
  · simp only [step, hrun, Outcome.ok_bind, Outcome.pure_eq]
  · intro y hb
    rw [hkeeps.loop] at hb
    exact Or.inl (hb.imp_right fun hy => by simp at hy)

theorem leads_tick (h : k.Core rs ts) (hr : k.Running c) (timestamp now : Word)
    (hok : k.NoStray (.tick timestamp now)) : k.Leads ts (.tick timestamp now) := by
  obtain ⟨k', hrun, rs', c', hcore, hr', hkeeps⟩ := h.schedTimer hr timestamp now hok
  refine ⟨k', [], rs', ts, c', ⟨ts.length + 1, fun fuel hfuel => ?_⟩, hcore, hr',
    Effect.silent ?_ hkeeps.block hkeeps.foundEmpty hkeeps.joining⟩
  · simp only [step, hrun fuel (by omega), Outcome.ok_bind, Outcome.pure_eq]
  · rw [hkeeps.loop]
    exact fun x hb => Or.inl hb

/-- The timer is neither pending nor running, by the promise of the caller. -/
theorem idle_of_promise (h : k.Core rs ts) {x : TimerRef T C} (hini : k.initialised x = true)
    (hp : k.timerPending x = .ok false) (hr : k.running x = false) : x ∉ ts ∧ ¬ k.loop.holds x := by
  constructor
  · rw [timerPending, Linked.connected_timer h.queues hini] at hp
    simpa using hp
  · intro hh
    simp [(h.timers.held x hini).mpr hh] at hr

/-- **Every admitted act** ends and keeps the invariant, when it wakes up no thread that waits in
`thread_join`. -/
theorem leads (h : k.Core rs ts) (hr : k.Running c) (hadm : k.Admits a) (hok : k.NoStray a) :
    k.Leads ts a := by
  cases a with
  | createAlloc t =>
    obtain ⟨⟨u, hu, hpc, -⟩, hbt⟩ := hadm
    obtain rfl := hr.eq hu
    exact h.leads_createAlloc hr hpc hbt
  | createInsert =>
    obtain ⟨u, t, hu, hpc⟩ := hadm
    obtain rfl := hr.eq hu
    exact h.leads_createInsert hr hpc
  | yield now => exact h.leads_yield hr now
  | suspend now =>
    obtain ⟨u, ⟨hu, hpc, -⟩, hi⟩ := hadm
    obtain rfl := hr.eq hu
    exact h.leads_suspend hr hpc hi now
  | wakeup t => exact h.leads_wakeup hr hadm.2 hok
  | sleep u n now =>
    obtain ⟨v, ⟨hv, hpc, -⟩, hi⟩ := hadm
    obtain rfl := hr.eq hv
    exact h.leads_sleep hr hpc hi u n now
  | finish retval now =>
    obtain ⟨u, ⟨hu, hpc, -⟩, hi, ht⟩ := hadm
    obtain rfl := hr.eq hu
    exact h.leads_finish hr hpc hi ht retval now
  | join t now =>
    obtain ⟨⟨u, ⟨hu, hpc, -⟩, hi⟩, hit⟩ := hadm
    obtain rfl := hr.eq hu
    exact h.leads_join hr hpc hi hit now
  | timerInit x timeout b =>
    by_cases hini : k.initialised (.client x) = true
    · obtain ⟨hp, hrun⟩ := hadm.2 hini
      obtain ⟨hx, hh⟩ := h.idle_of_promise hini hp hrun
      exact h.leads_timerInit hr hx hh timeout b
    · exact h.leads_timerInit hr (fun hx => hini (h.queues.timers _ hx))
        (fun hh => hini (h.timers.holds _ hh)) timeout b
  | timerStart x =>
    obtain ⟨-, hini, hp⟩ := hadm
    rw [timerPending, Linked.connected_timer h.queues hini] at hp
    exact h.leads_timerStart hr hini (by simpa using hp)
  | timerDestroy x now =>
    obtain ⟨⟨u, hu, hpc, -⟩, hini⟩ := hadm
    obtain rfl := hr.eq hu
    exact h.leads_timerDestroy hr hpc hini now
  | timerRelease x m =>
    obtain ⟨-, hini, hp, hrun, hd⟩ := hadm
    obtain ⟨hx, hh⟩ := h.idle_of_promise hini hp hrun
    exact h.leads_timerRelease hr hx hh hd m
  | resume now =>
    obtain ⟨u, hu, hpc⟩ := hadm
    obtain rfl := hr.eq hu
    exact h.leads_resume hr hpc now
  | timerSelect =>
    obtain ⟨-, -, -, -, hl⟩ := hadm
    exact h.leads_timerSelect hr hl
  | timerTimeout =>
    obtain ⟨x, t, -, -, -, -, hl⟩ := hadm
    exact h.leads_timerTimeout hr hl
  | timerReturn =>
    obtain ⟨x, -, -, -, -, hl⟩ := hadm
    exact h.leads_timerReturn hr hl
  | timerClear =>
    obtain ⟨x, -, -, -, -, hl⟩ := hadm
    exact h.leads_timerClear hr hl
  | timerSuspend now =>
    obtain ⟨u, hu, ht, hpc, hl⟩ := hadm
    obtain rfl := hr.eq hu
    exact h.leads_timerSuspend hr hpc ht hl now
  | tick timestamp now => exact h.leads_tick hr timestamp now hok

end Core

end Kernel

end Kalisto
