import Kalisto.Proc.ThreadActs
import Kalisto.Sched.RoundRobin

/-!
# Whole runs

The boot establishes the invariant, every act keeps it, so it holds in every state of every run; the
theorems about threads, joining, sleeping and timers are read from it.

* `Run.good` — the invariant of all runs in which no `thread_wakeup` is aimed at a thread that waits in
  `thread_join`;
* `scheduler_invariant` — the runnable list, the states and the current thread agree;
* `timer_protocol`, `sleep_no_stale_timer` — the list of timers, the flag `running`, and what is left
  of a timer after `timer_destroy` or a sleep;
* `join_reaps_dead`, `join_no_lost_wakeup` — what `thread_join` waits for and what it releases.
-/

namespace Kalisto

open LinkList

variable {T C : Type} [DecidableEq T] [DecidableEq C]

namespace Kernel

variable {k k' : Kernel T C} {a : Act T C} {evs new : List (Event T C)}
  {ok : Kernel T C → Act T C → Prop} {rs : List T} {ts : List (TimerRef T C)} {c t : T}

/-! ### The boot -/

/-- The states of `bsp_start` while it creates the first threads. -/
structure Booting (k : Kernel T C) (us : List T) : Prop where
  base : k.Base us []
  current : k.current = none
  pc : ∀ t, k.pc t = .run
  inserted : ∀ t, k.inserted t = true ↔ t ∈ us
  block : ∀ t, k.block t = true ↔ t ∈ us
  ready : ∀ t ∈ us, k.state t = .ready
  foundEmpty : k.foundEmpty = false

/-- The two lists are empty. -/
theorem Off.booting (h : k.Off) {l₁ l₂ : Links (LinkRef T C)}
    (h₁ : listInit k.links (some .runnableList) = .ok l₁)
    (h₂ : listInit l₁ (some .timersList) = .ok l₂) :
    ({ k with current := none, links := l₂ } : Kernel T C).Booting [] := by
  have hins : k.inserted = fun _ => false := funext h.inserted
  have hini : k.initialised = fun _ => false := funext h.initialised
  refine ⟨⟨?_, ?_, ?_, ?_, ?_, ?_⟩, rfl, h.pc, ?_, ?_, by simp, h.foundEmpty⟩
  · rw [Queues, hins, hini]
    exact Linked.boot h₁ h₂
  · simp [h.inserted]
  · constructor <;> simp [h.pc, h.inserted]
  · constructor <;> simp [h.pc, h.initialised, h.loop]
  · constructor <;> simp [h.pc, h.inserted]
  · constructor <;> simp [h.invoked, h.loop]
  · simp [h.inserted]
  · simp [h.block]

/-- `thread_create` during the boot. -/
theorem Booting.create {us : List T} (h : k.Booting us) (ht : t ∉ us) :
    ∃ k', k.bootCreate t = .ok k' ∧ k'.Booting (us ++ [t]) ∧ k'.timerThread = k.timerThread ∧
      k'.idle = k.idle := by
  let k₁ : Kernel T C := { k with block := Function.update k.block t true }
  have hit : k.inserted t = false := by
    rw [Bool.eq_false_iff, ne_eq, h.inserted]
    exact ht
  have hblocks : BlockInv k₁.block k.inserted k.pc := by
    refine ⟨fun u hu => ?_, by simp [h.pc], by simp [h.pc]⟩
    simp only [k₁, Function.update_apply]
    split
    · rfl
    · exact h.base.blocks.allocated u hu
  have hbase : k₁.Base us [] :=
    ⟨h.base.queues, h.base.active, h.base.joins, h.base.timers, hblocks, h.base.log⟩
  obtain ⟨l₁, l₂, hinit, happ, hbase'⟩ := hbase.insert hit (Function.update_self _ _ _)
    fun u => by simp [k₁, h.pc]
  refine ⟨k₁.withThread t l₂, threadCreateInsert_eq hinit happ,
    ⟨hbase', h.current, fun u => ?_, fun u => ?_, fun u => ?_, fun u hu => ?_, h.foundEmpty⟩, rfl, rfl⟩
  · by_cases hut : u = t <;> simp [withThread, k₁, hut, h.pc]
  · by_cases hut : u = t <;> simp [withThread, k₁, hut, h.inserted]
  · by_cases hut : u = t <;> simp [withThread, k₁, hut, h.block]
  · by_cases hut : u = t
    · simp [withThread, hut]
    · simpa [withThread, k₁, hut] using h.ready u (by simpa [hut] using hu)

/-- **What holds at every section boundary**, with the account of the memory of threads. -/
def Good (k : Kernel T C) (evs : List (Event T C)) : Prop :=
  ∃ rs ts c, k.Core rs ts ∧ k.Running c ∧ k.foundEmpty = false ∧
    ∀ t, evs.count (.created t) = evs.countP (releases t) + (k.block t).toNat

/-- **The boot** ends in a state with the invariant. -/
theorem Off.good {timer idle main : T} (h : k.Off) (hti : timer ≠ idle) (htm : timer ≠ main)
    (him : idle ≠ main) : ∃ k', k.bspStart timer idle main = .ok k' ∧
      k'.Good [.created main, .created idle, .created timer] ∧ ∀ t, k'.pc t = .run := by
  obtain ⟨l₁, h₁⟩ : ∃ l₁, listInit k.links (some .runnableList) = .ok l₁ := ⟨_, rfl⟩
  obtain ⟨l₂, h₂⟩ : ∃ l₂, listInit l₁ (some .timersList) = .ok l₂ := ⟨_, rfl⟩
  obtain ⟨k₁, hk₁, hb₁, -⟩ := (h.booting h₁ h₂).create (t := timer) (by simp)
  have hb₁' : ({ k₁ with timerThread := some timer } : Kernel T C).Booting [timer] :=
    ⟨⟨hb₁.base.queues, hb₁.base.active, hb₁.base.joins, hb₁.base.timers, hb₁.base.blocks, hb₁.base.log⟩,
      hb₁.current, hb₁.pc, hb₁.inserted, hb₁.block, hb₁.ready, hb₁.foundEmpty⟩
  obtain ⟨k₂, hk₂, hb₂, htt₂, -⟩ := hb₁'.create (t := idle) (by simpa using hti.symm)
  have hb₂' : ({ k₂ with idle := some idle } : Kernel T C).Booting [timer, idle] :=
    ⟨⟨hb₂.base.queues, hb₂.base.active, hb₂.base.joins, hb₂.base.timers, hb₂.base.blocks, hb₂.base.log⟩,
      hb₂.current, hb₂.pc, hb₂.inserted, hb₂.block, hb₂.ready, hb₂.foundEmpty⟩
  obtain ⟨k₃, hk₃, hb₃, htt₃, hidle₃⟩ := hb₂'.create (t := main)
    (by simpa using ⟨htm.symm, him.symm⟩)
  have hsys : SystemInv k₃.inserted k₃.state k₃.pc k₃.timerThread k₃.idle := by
    rw [htt₃, htt₂, hidle₃]
    refine ⟨by simpa using hti, ⟨timer, rfl, (hb₃.inserted timer).mpr (by simp), by simp [hb₃.pc]⟩,
      idle, rfl, (hb₃.inserted idle).mpr (by simp), ?_⟩
    rw [hb₃.ready idle (by simp)]
    rfl
  have hcore : k₃.Core [timer, idle, main] [] := ⟨hb₃.base, hsys⟩
  obtain ⟨hcore', hr⟩ := hcore.threadSwitch (t := main) (by simp) fun u hu hrun => by
    rw [hb₃.ready u ((hb₃.inserted u).mp hu)] at hrun
    cases hrun
  refine ⟨k₃.threadSwitch main, ?_, ⟨_, _, main, hcore', hr, ?_, fun t => ?_⟩, fun t => ?_⟩
  · simp only [bspStart, h₁, h₂, Outcome.ok_bind, hk₁, hk₂, hk₃, Outcome.pure_eq]
  · rw [threadSwitch_eq]
    exact hb₃.foundEmpty
  · rw [threadSwitch_eq]
    have hblock := hb₃.block t
    by_cases h1 : t = timer
    · subst h1
      simp [releases, hti.symm, htm.symm, (hb₃.block t).mpr (by simp)]
    · by_cases h2 : t = idle
      · subst h2
        simp [releases, hti, him.symm, (hb₃.block t).mpr (by simp)]
      · by_cases h3 : t = main
        · subst h3
          simp [releases, htm, him, (hb₃.block t).mpr (by simp)]
        · have hfree : k₃.block t = false := by
            rw [Bool.eq_false_iff, ne_eq, hblock]
            simp [h1, h2, h3]
          simp [releases, hfree, Ne.symm h1, Ne.symm h2, Ne.symm h3]
  · rw [threadSwitch_eq]
    exact hb₃.pc t

/-! ### The steps of a run -/

/-- **One step** of a run keeps the invariant. -/
theorem Good.step (h : k.Good evs) (hadm : k.Admits a) (hok : k.NoStray a)
    (hstep : Outcome.Returns (k.step a) (k', new)) :
    k'.Good (new ++ evs) ∧ ∀ u t, k'.pc u = .join t → k.pc u = .join t ∨ ∃ now, a = .join t now := by
  obtain ⟨rs, ts, c, hcore, hr, hfound, hmem⟩ := h
  obtain ⟨k₁, new₁, rs', ts', c', hret, hcore', hr', heff⟩ := hcore.leads hr hadm hok
  obtain ⟨rfl, rfl⟩ : k₁ = k' ∧ new₁ = new := Prod.mk.injEq .. ▸ hret.unique hstep
  refine ⟨⟨rs', ts', c', hcore', hr', heff.foundEmpty.trans hfound, fun t => ?_⟩, heff.joining⟩
  have h1 := heff.memory t
  have h2 := hmem t
  rw [List.count_append, List.countP_append]
  omega

/-- The runs in which no `thread_wakeup` is aimed at a thread that waits in `thread_join`, and those in
which `thread_join` is not called. -/
def Harmless (ok : Kernel T C → Act T C → Prop) : Prop :=
  (∀ k a, ok k a → k.NoStray a) ∨ ∀ k a, ok k a → ∀ t now, a ≠ .join t now

omit [DecidableEq T] [DecidableEq C] in
theorem noStray_of_noJoin (h : ∀ u t, k.pc u ≠ .join t) (a : Act T C) : k.NoStray a :=
  fun u t _ hb => h u t hb.1

/-- Where `thread_join` is not called, no thread is inside it. -/
theorem Run.noJoin (hno : ∀ k a, ok k a → ∀ t now, a ≠ .join t now) (h : Run ok k evs) :
    k.Good evs ∧ ∀ u t, k.pc u ≠ .join t := by
  induction h with
  | boot hoff hti htm him hboot =>
    obtain ⟨k₁, hk₁, hgood, hpc⟩ := hoff.good hti htm him
    obtain rfl : k₁ = _ := Outcome.ok.inj (hk₁.symm.trans hboot)
    exact ⟨hgood, fun u t => by simp [hpc]⟩
  | step _ hadm hact hstep ih =>
    obtain ⟨hgood, hpc⟩ := ih
    obtain ⟨hgood', hjoin⟩ := hgood.step hadm (noStray_of_noJoin hpc _) hstep
    refine ⟨hgood', fun u t hut => ?_⟩
    rcases hjoin u t hut with h1 | ⟨now, h2⟩
    · exact hpc u t h1
    · exact hno _ _ hact t now h2

theorem Harmless.noStray (hok : Harmless ok) (h : Run ok k evs) (ha : ok k a) : k.NoStray a := by
  rcases hok with hok | hno
  · exact hok k a ha
  · exact noStray_of_noJoin (h.noJoin hno).2 a

/-- **The invariant of every run.** -/
theorem Run.good (hok : Harmless ok) (h : Run ok k evs) : k.Good evs := by
  induction h with
  | boot hoff hti htm him hboot =>
    obtain ⟨k₁, hk₁, hgood, -⟩ := hoff.good hti htm him
    obtain rfl : k₁ = _ := Outcome.ok.inj (hk₁.symm.trans hboot)
    exact hgood
  | step hrun hadm hact hstep ih => exact (ih.step hadm (hok.noStray hrun hact) hstep).1

/-- Every admitted act of a run ends. -/
theorem Run.returns (hok : Harmless ok) (h : Run ok k evs) (hadm : k.Admits a) (ha : ok k a) :
    ∃ k' new, Outcome.Returns (k.step a) (k', new) := by
  obtain ⟨rs, ts, c, hcore, hr, -⟩ := h.good hok
  obtain ⟨k', new, -, -, -, hret, -⟩ := hcore.leads hr hadm (hok.noStray h ha)
  exact ⟨k', new, hret⟩

omit [DecidableEq T] [DecidableEq C] in
theorem harmless_noStray : Harmless (NoStray : Kernel T C → Act T C → Prop) :=
  Or.inl fun _ _ h => h

/-! ### Playing acts -/

theorem Run.mono {ok' : Kernel T C → Act T C → Prop} (hok : ∀ k a, ok k a → ok' k a)
    (h : Run ok k evs) : Run ok' k evs := by
  induction h with
  | boot hoff hti htm him hboot => exact .boot hoff hti htm him hboot
  | step _ hadm ha hstep ih => exact ih.step hadm (hok _ _ ha) hstep

/-- The state after an act that ends within eight rounds of its loops. -/
def after (k : Kernel T C) (a : Act T C) : Kernel T C :=
  match k.step a 8 with
  | .ok (k', _) => k'
  | _ => k

/-- The state after a sequence of acts. -/
def play (k : Kernel T C) (as : List (Act T C)) : Kernel T C := as.foldl after k

/-- Each of the acts may happen when its turn comes. -/
def Plays (ok : Kernel T C → Act T C → Prop) : Kernel T C → List (Act T C) → Prop
  | _, [] => True
  | k, a :: as => k.Admits a ∧ ok k a ∧ (∃ new, Outcome.Returns (k.step a) (k.after a, new)) ∧
      Plays ok (k.after a) as

theorem Plays.mono {ok ok' : Kernel T C → Act T C → Prop} {as : List (Act T C)}
    (hok : ∀ k a, ok k a → ok' k a)
    (h : Plays ok k as) : Plays ok' k as := by
  induction as generalizing k with
  | nil => trivial
  | cons a as ih =>
    obtain ⟨hadm, ha, hret, hrest⟩ := h
    exact ⟨hadm, hok _ _ ha, hret, ih hrest⟩

theorem Run.play {as : List (Act T C)} (h : Run ok k evs) (hp : Plays ok k as) :
    ∃ evs', Run ok (k.play as) evs' := by
  induction as generalizing k evs with
  | nil => exact ⟨evs, h⟩
  | cons a as ih =>
    obtain ⟨hadm, ha, ⟨new, hret⟩, hrest⟩ := hp
    exact ih (h.step hadm ha hret) hrest

/-- After the boot: the timer thread is 0, the idle thread 1, the main thread 2. -/
def booted : Kernel ℕ ℕ :=
  match twoLists.bspStart 0 1 2 with
  | .ok k => k
  | _ => twoLists

theorem booted_run : Run NoStray booted [.created 2, .created 1, .created 0] := by
  have hoff : twoLists.Off := by constructor <;> simp [twoLists]
  have hboot : twoLists.bspStart 0 1 2 = .ok booted := rfl
  exact .boot hoff (by decide) (by decide) (by decide) hboot

omit [DecidableEq T] [DecidableEq C] in
/-- A thread that is not the timer thread runs code of a client. -/
theorem Client.of_ne (hcur : k.current = some c) (hpc : k.pc c = .run)
    (hne : k.timerThread ≠ some c) : k.Client c := ⟨hcur, hpc, fun h => absurd h hne⟩

omit [DecidableEq T] [DecidableEq C] in
/-- The tick wakes up the timer thread, which is in no call. -/
theorem noStray_tick {t : T} {timestamp now : Word} (ht : k.timerThread = some t) (hpc : k.pc t = .run) :
    k.NoStray (.tick timestamp now) := by
  intro u v hu hb
  obtain rfl : t = u := Option.some.inj (ht.symm.trans hu.1)
  rw [hb.1] at hpc
  cases hpc

/-- The timer thread finds nothing to do; the main thread creates thread 3 and waits for it. -/
def waiting : Kernel ℕ ℕ :=
  booted.play [.yield 0, .timerSelect, .timerClear, .timerSuspend 0, .yield 0, .createAlloc 3,
    .createInsert, .join 3 0, .yield 0]

theorem waiting_run : ∃ evs, Run NoStray waiting evs :=
  booted_run.play ⟨⟨2, .of_ne rfl rfl (by decide)⟩, fun _ _ => nofun, ⟨[], 0, fun _ _ => rfl⟩,
    ⟨0, rfl, rfl, rfl, rfl⟩, fun _ _ => nofun, ⟨[], Outcome.returns_of_add 1 fun _ => rfl⟩,
    ⟨none, 0, rfl, rfl, rfl, rfl⟩, fun _ _ => nofun, ⟨[], 0, fun _ _ => rfl⟩,
    ⟨0, rfl, rfl, rfl, rfl⟩, fun _ _ => nofun, ⟨[], 0, fun _ _ => rfl⟩,
    ⟨1, .of_ne rfl rfl (by decide)⟩, fun _ _ => nofun, ⟨[], 0, fun _ _ => rfl⟩,
    ⟨⟨2, .of_ne rfl rfl (by decide)⟩, rfl⟩, fun _ _ => nofun, ⟨[.created 3], 0, fun _ _ => rfl⟩,
    ⟨2, 3, rfl, rfl⟩, fun _ _ => nofun, ⟨[], 0, fun _ _ => rfl⟩,
    ⟨⟨2, .of_ne rfl rfl (by decide), by decide⟩, rfl⟩, fun _ _ => nofun, ⟨[], 0, fun _ _ => rfl⟩,
    ⟨1, .of_ne rfl rfl (by decide)⟩, fun _ _ => nofun, ⟨[], 0, fun _ _ => rfl⟩, trivial⟩

/-! ### The scheduler -/

theorem Core.listForeach_runnable (h : k.Core rs ts) :
    Outcome.Returns (listForeach k.links .runnableList) (rs.map .thread) :=
  listForeach_returns (h.queues.rep.ring .runnableList _ rfl)

theorem Core.listForeach_timers (h : k.Core rs ts) :
    Outcome.Returns (listForeach k.links .timersList) (ts.map .timer) :=
  listForeach_returns h.queues.ring_timers

omit [DecidableEq T] [DecidableEq C] in
theorem active_iff (s : ThreadState) : s.active = true ↔ s = .ready ∨ s = .running := by
  cases s <;> simp [ThreadState.active]

/-- **The scheduler.**  In every state of every run the runnable list has no duplicates and holds
exactly the threads that are ready or running; the link of a sleeping thread or a zombie is
disconnected; the current thread is the one that is running; `schedule` never found the list empty;
and every act that may happen next ends. -/
theorem scheduler_invariant (h : Run NoStray k evs) :
    ∃ (rs : List T) (c : T), Outcome.Returns (listForeach k.links .runnableList) (rs.map .thread) ∧ rs.Nodup ∧
      (∀ t, t ∈ rs ↔ k.inserted t = true ∧ (k.state t = .ready ∨ k.state t = .running)) ∧
      (∀ t, k.inserted t = true → k.state t = .sleeping ∨ k.state t = .zombie →
        linkConnected k.links (some (.thread t)) = .ok false) ∧
      k.current = some c ∧ k.inserted c = true ∧
      (∀ t, k.inserted t = true → (k.state t = .running ↔ t = c)) ∧
      k.foundEmpty = false ∧
      ∀ a, k.Admits a → k.NoStray a → ∃ k' new, Outcome.Returns (k.step a) (k', new) := by
  obtain ⟨rs, ts, c, hcore, hr, hfound, -⟩ := h.good harmless_noStray
  refine ⟨rs, c, hcore.listForeach_runnable, hcore.queues.runnable_nodup, fun t => ?_, fun t ht hs => ?_,
    hr.1, hr.2.1, hr.2.2, hfound, fun a hadm hok => h.returns harmless_noStray hadm hok⟩
  · rw [hcore.active t, active_iff]
  · have hnot : t ∉ rs := by
      rw [hcore.active t, active_iff]
      rcases hs with hs | hs <;> simp [hs]
    rw [Linked.connected_thread hcore.queues ht]
    simp [hnot]

theorem scheduler_invariant_waiting : ∃ (rs : List ℕ) (c : ℕ),
    Outcome.Returns (listForeach waiting.links .runnableList) (rs.map .thread) ∧
    rs.Nodup ∧ waiting.current = some c ∧ c ∈ rs ∧ waiting.foundEmpty = false := by
  obtain ⟨evs, h⟩ := waiting_run
  obtain ⟨rs, c, hlist, hnd, hmem, -, hcur, hins, hrun, hfound, -⟩ := scheduler_invariant h
  exact ⟨rs, c, hlist, hnd, hcur, (hmem c).mpr ⟨hins, Or.inr ((hrun c hins).mpr rfl)⟩, hfound⟩

/-! ### Timers -/

/-- The list of timers does not hold the timer, and the timer thread does not either. -/
def Forgotten (k : Kernel T C) (x : TimerRef T C) : Prop :=
  (∃ ts : List (TimerRef T C),
    Outcome.Returns (listForeach k.links .timersList) (ts.map .timer) ∧ x ∉ ts) ∧ ¬ k.loop.holds x

/-- A run goes on from one state to another, and the timer is not started. -/
inductive Later (ok : Kernel T C → Act T C → Prop) (x : TimerRef T C) (k : Kernel T C) :
    Kernel T C → Prop
  | refl : Later ok x k k
  | step {k₁ k₂ : Kernel T C} {a : Act T C} {new : List (Event T C)} : Later ok x k k₁ →
      k₁.Admits a → ok k₁ a → ¬ k₁.Starts a x → Outcome.Returns (k₁.step a) (k₂, new) → Later ok x k k₂

/-- What an act does to the timers. -/
theorem Run.effect (hok : Harmless ok) (h : Run ok k evs) (hcore : k.Core rs ts) (hadm : k.Admits a)
    (ha : ok k a) (hstep : Outcome.Returns (k.step a) (k', new)) :
    ∃ rs' ts', k'.Core rs' ts' ∧ Effect k a ts k' new ts' := by
  obtain ⟨-, -, c, -, hr, -⟩ := h.good hok
  obtain ⟨k₁, new₁, rs', ts', -, hret, hcore', -, heff⟩ := hcore.leads hr hadm (hok.noStray h ha)
  obtain ⟨rfl, rfl⟩ : k₁ = k' ∧ new₁ = new := Prod.mk.injEq .. ▸ hret.unique hstep
  exact ⟨rs', ts', hcore', heff⟩

/-- A timer that is not busy stays so until it is started. -/
theorem Run.later (hok : Harmless ok) {x : TimerRef T C} (h : Run ok k evs) (hcore : k.Core rs ts)
    (hidle : ¬ TimerBusy k.loop ts x) (hlater : Later ok x k k') :
    (∃ evs', Run ok k' evs') ∧ ∃ rs' ts', k'.Core rs' ts' ∧ ¬ TimerBusy k'.loop ts' x := by
  induction hlater with
  | refl => exact ⟨⟨evs, h⟩, rs, ts, hcore, hidle⟩
  | step _ hadm ha hns hstep ih =>
    obtain ⟨⟨evs₁, hrun₁⟩, rs₁, ts₁, hcore₁, hidle₁⟩ := ih
    obtain ⟨rs₂, ts₂, hcore₂, heff⟩ := hrun₁.effect hok hcore₁ hadm ha hstep
    refine ⟨⟨_, hrun₁.step hadm ha hstep⟩, rs₂, ts₂, hcore₂, fun hb => ?_⟩
    rcases heff.busy x hb with hb | hst
    · exact hidle₁ hb
    · exact hns hst

theorem Core.forgotten {x : TimerRef T C} (h : k.Core rs ts) (hidle : ¬ TimerBusy k.loop ts x) :
    k.Forgotten x :=
  ⟨⟨ts, h.listForeach_timers, fun hx => hidle (Or.inl hx)⟩, fun hh => hidle (Or.inr hh)⟩

/-- A timer that is initialised and not busy is neither pending nor running. -/
theorem Core.idle_timer {x : TimerRef T C} (h : k.Core rs ts) (hini : k.initialised x = true)
    (hidle : ¬ TimerBusy k.loop ts x) : k.timerPending x = .ok false ∧ k.running x = false := by
  refine ⟨?_, ?_⟩
  · rw [timerPending, Linked.connected_timer h.queues hini]
    simpa using fun hx => hidle (Or.inl hx)
  · rw [Bool.eq_false_iff, ne_eq, h.timers.held x hini]
    exact fun hh => hidle (Or.inr hh)

/-- **The timer protocol.**  In every state of every run the list of timers has no duplicates and
holds exactly the initialised timers that are pending; a timer is running exactly while the timer
thread holds it; no `timer_start` has led to two calls of a handler.  When `timer_destroy` returns, the
timer is neither pending nor running, and neither the list nor the timer thread holds it until it is
started again.  Every act that may happen next ends, also after memory of timers was released. -/
theorem timer_protocol (hok : Harmless ok) (h : Run ok k evs) :
    (∃ ts : List (TimerRef T C),
      Outcome.Returns (listForeach k.links .timersList) (ts.map .timer) ∧ ts.Nodup ∧
      (∀ x ∈ ts, k.initialised x = true) ∧
      ∀ x, k.initialised x = true → k.timerPending x = .ok (decide (x ∈ ts))) ∧
    (∀ x, k.initialised x = true → (k.running x = true ↔ k.loop.holds x)) ∧
    (k.invoked.Nodup ∧ ∀ x n, (x, n) ∈ k.invoked → n ≤ k.starts x) ∧
    (∀ a k' new x, k.Admits a → ok k a → Outcome.Returns (k.step a) (k', new) →
      .destroyed x ∈ new → k'.timerPending x = .ok false ∧ k'.running x = false ∧
        ∀ k'', Later ok x k' k'' → k''.Forgotten x) ∧
    ∀ a, k.Admits a → ok k a → ∃ k' new, Outcome.Returns (k.step a) (k', new) := by
  obtain ⟨rs, ts, c, hcore, -⟩ := h.good hok
  refine ⟨⟨ts, hcore.listForeach_timers, hcore.queues.timers_nodup, hcore.queues.timers,
    fun x hx => Linked.connected_timer hcore.queues hx⟩, hcore.timers.held,
    ⟨hcore.log.nodup, hcore.log.le⟩, fun a k' new x hadm ha hstep hx => ?_,
    fun a hadm ha => h.returns hok hadm ha⟩
  obtain ⟨rs', ts', hcore', heff⟩ := h.effect hok hcore hadm ha hstep
  obtain ⟨hidle, hini⟩ := heff.destroyed x hx
  obtain ⟨hpend, hrun⟩ := hcore'.idle_timer hini hidle
  refine ⟨hpend, hrun, fun k'' hlater => ?_⟩
  obtain ⟨-, rs'', ts'', hcore'', hidle''⟩ := (h.step hadm ha hstep).later hok hcore' hidle hlater
  exact hcore''.forgotten hidle''

/-- The main thread has started the timer 5, with a handler, for the next tick. -/
def pendingTimer : Kernel ℕ ℕ := booted.play [.timerInit 5 0 true, .timerStart 5]

/-- The tick has come, and the timer thread runs the handler. -/
def inHandler : Kernel ℕ ℕ := pendingTimer.play [.tick 0 0, .yield 0, .timerSelect]

/-- The handler yields; the main thread waits in `timer_destroy` until it has returned. -/
def destroying : Kernel ℕ ℕ :=
  inHandler.play [.yield 0, .yield 0, .timerDestroy 5 0, .timerReturn, .timerClear, .timerSelect,
    .timerClear, .timerSuspend 0, .yield 0]

theorem pendingTimer_run : ∃ evs, Run NoStray pendingTimer evs :=
  booted_run.play ⟨⟨⟨2, .of_ne rfl rfl (by decide)⟩, nofun⟩, fun _ _ => nofun, ⟨[], 0, fun _ _ => rfl⟩,
    ⟨⟨2, .of_ne rfl rfl (by decide)⟩, rfl, rfl⟩, fun _ _ => nofun, ⟨[], 0, fun _ _ => rfl⟩, trivial⟩

theorem inHandler_run : ∃ evs, Run NoStray inHandler evs := by
  obtain ⟨evs, h⟩ := pendingTimer_run
  exact h.play ⟨⟨2, rfl, rfl⟩, noStray_tick rfl rfl, ⟨[], Outcome.returns_of_add 2 fun _ => rfl⟩,
    ⟨2, .of_ne rfl rfl (by decide)⟩, fun _ _ => nofun, ⟨[], 0, fun _ _ => rfl⟩,
    ⟨0, rfl, rfl, rfl, rfl⟩, fun _ _ => nofun, ⟨[], Outcome.returns_of_add 2 fun _ => rfl⟩, trivial⟩

theorem destroying_run : ∃ evs, Run NoStray destroying evs := by
  obtain ⟨evs, h⟩ := inHandler_run
  exact h.play ⟨⟨0, rfl, rfl, fun _ => ⟨.client 5, rfl⟩⟩, fun _ _ => nofun, ⟨[], 0, fun _ _ => rfl⟩,
    ⟨1, .of_ne rfl rfl (by decide)⟩, fun _ _ => nofun, ⟨[], 0, fun _ _ => rfl⟩,
    ⟨⟨2, .of_ne rfl rfl (by decide)⟩, rfl⟩, fun _ _ => nofun,
    ⟨[], Outcome.returns_of_add 2 fun _ => rfl⟩,
    ⟨.client 5, 0, rfl, rfl, rfl, rfl⟩, fun _ _ => nofun, ⟨[], 0, fun _ _ => rfl⟩,
    ⟨some (.client 5), 0, rfl, rfl, rfl, rfl⟩, fun _ _ => nofun, ⟨[], 0, fun _ _ => rfl⟩,
    ⟨0, rfl, rfl, rfl, rfl⟩, fun _ _ => nofun, ⟨[], Outcome.returns_of_add 2 fun _ => rfl⟩,
    ⟨none, 0, rfl, rfl, rfl, rfl⟩, fun _ _ => nofun, ⟨[], 0, fun _ _ => rfl⟩,
    ⟨0, rfl, rfl, rfl, rfl⟩, fun _ _ => nofun, ⟨[], 0, fun _ _ => rfl⟩,
    ⟨1, .of_ne rfl rfl (by decide)⟩, fun _ _ => nofun, ⟨[], 0, fun _ _ => rfl⟩, trivial⟩

/-- The acts of a run that does not start the timer. -/
theorem Later.play {x : TimerRef T C} {as : List (Act T C)} (h : Later ok x k k₁)
    (hp : Plays (fun k a => ok k a ∧ ¬ k.Starts a x) k₁ as) : Later ok x k (k₁.play as) := by
  induction as generalizing k₁ with
  | nil => exact h
  | cons a as ih =>
    obtain ⟨hadm, ⟨ha, hns⟩, ⟨new, hret⟩, hrest⟩ := hp
    exact ih (h.step hadm ha hns hret) hrest

/-- **A timer from its start to the end of `timer_destroy`.**  It is in the list, then the timer thread
holds it, its handler is called once; `timer_destroy` returns after the handler has; then its memory is
released, a tick comes, and nothing knows the timer. -/
theorem timer_protocol_destroyed : Harmless (NoStray : Kernel ℕ ℕ → Act ℕ ℕ → Prop) ∧
    (∃ ts : List (TimerRef ℕ ℕ), Outcome.Returns (listForeach pendingTimer.links .timersList)
      (ts.map .timer) ∧ ts.Nodup ∧ .client 5 ∈ ts) ∧
    (inHandler.loop = .handler (.client 5) .client ∧ inHandler.running (.client 5) = true) ∧
    (destroying.invoked = [(.client 5, 1)] ∧ destroying.starts (.client 5) = 1) ∧
    ∃ k' k'' : Kernel ℕ ℕ,
      Outcome.Returns (destroying.step (.resume 0)) (k', [.destroyed (.client 5)]) ∧
      k'.timerPending (.client 5) = .ok false ∧ k'.running (.client 5) = false ∧
      k'' = k'.play [.timerRelease 5 ⟨none, none, 7, 7, true, none⟩, .tick 0 0] ∧
      k''.Forgotten (.client 5) := by
  obtain ⟨evs₁, h₁⟩ := pendingTimer_run
  obtain ⟨evs₂, h₂⟩ := inHandler_run
  obtain ⟨evs₃, h₃⟩ := destroying_run
  obtain ⟨⟨ts, hlist, hnd, -, hpending⟩, -⟩ := timer_protocol harmless_noStray h₁
  obtain ⟨-, hheld, -⟩ := timer_protocol harmless_noStray h₂
  obtain ⟨-, -, -, hdestroyed, -⟩ := timer_protocol harmless_noStray h₃
  have hmem : .client 5 ∈ ts := by
    have htrue : pendingTimer.timerPending (.client 5) = .ok true := rfl
    rw [hpending (.client 5) rfl] at htrue
    simpa using htrue
  have hret : Outcome.Returns (destroying.step (.resume 0))
      (destroying.after (.resume 0), [.destroyed (.client 5)]) :=
    Outcome.returns_of_add 2 fun _ => rfl
  obtain ⟨hpend, hrun, hlater⟩ :=
    hdestroyed (.resume 0) _ _ (.client 5) ⟨2, rfl, rfl⟩ (fun _ _ => nofun) hret (by simp)
  -- no thread is inside a call
  have hpc : ∀ t, (destroying.after (.resume 0)).pc t = .run := by
    intro t
    rcases t with _ | _ | _ | t <;> rfl
  refine ⟨harmless_noStray, ⟨ts, hlist, hnd, hmem⟩, ⟨rfl, (hheld (.client 5) rfl).mpr rfl⟩, ⟨rfl, rfl⟩,
    _, _, hret, hpend, hrun, rfl, hlater _ (Later.refl.play ?_)⟩
  exact ⟨⟨⟨2, .of_ne rfl rfl (by decide)⟩, rfl, hpend, hrun, fun t r ht => nomatch (hpc t).symm.trans ht⟩,
    ⟨fun _ _ => nofun, id⟩, ⟨[], 0, fun _ _ => rfl⟩,
    ⟨2, rfl, rfl⟩, ⟨noStray_tick rfl rfl, id⟩, ⟨[], Outcome.returns_of_add 2 fun _ => rfl⟩, trivial⟩

/-- **No stale timer.**  In every state of every run: when `thread_sleep` or `thread_usleep` is called,
the timer of the thread is neither in the list nor held by the timer thread; the list of timers has no
duplicates.  When the timer thread is about to wake up a thread by `thread_timeout_handler`, that
thread is inside the sleep that armed its timer, and the `timer_start` is the last one of it.  After a
sleep has returned, the timer thread does not come to that handler for the thread before the next
sleep. -/
theorem sleep_no_stale_timer (hok : Harmless ok) (h : Run ok k evs) :
    (∃ ts : List (TimerRef T C),
      Outcome.Returns (listForeach k.links .timersList) (ts.map .timer) ∧ ts.Nodup) ∧
    (∀ c u n now, k.current = some c → k.Admits (.sleep u n now) → k.Forgotten (.thread c) ∧
      (k.initialised (.thread c) = true →
        k.timerPending (.thread c) = .ok false ∧ k.running (.thread c) = false)) ∧
    (∀ x t, k.loop = .handler x (.threadTimeout t) → x = .thread t ∧ k.inserted t = true ∧
      (k.pc t).inSleep t ∧ (x, k.starts x) ∈ k.invoked) ∧
    ∀ a k' new t, k.Admits a → ok k a → Outcome.Returns (k.step a) (k', new) →
      .destroyed (.thread t) ∈ new → ∀ k'', Later ok (.thread t) k' k'' →
        k''.Forgotten (.thread t) ∧ ∀ x, k''.loop ≠ .handler x (.threadTimeout t) := by
  obtain ⟨rs, ts, c, hcore, hr, -⟩ := h.good hok
  refine ⟨⟨ts, hcore.listForeach_timers, hcore.queues.timers_nodup⟩, fun u _ _ _ hu hadm => ?_,
    fun x t hl => hcore.timeout_owner hl, fun a k' new t hadm ha hstep hx k'' hlater => ?_⟩
  · obtain ⟨v, ⟨hv, hpc, -⟩, -⟩ := hadm
    obtain rfl : v = u := Option.some.inj (hv.symm.trans hu)
    have hidle := hcore.timers.not_busy (t := v) (by simp [hpc])
    exact ⟨hcore.forgotten hidle, fun hini => hcore.idle_timer hini hidle⟩
  · obtain ⟨rs', ts', hcore', heff⟩ := h.effect hok hcore hadm ha hstep
    obtain ⟨-, rs'', ts'', hcore'', hidle''⟩ :=
      (h.step hadm ha hstep).later hok hcore' (heff.destroyed _ hx).1 hlater
    refine ⟨hcore''.forgotten hidle'', fun x hl => hidle'' (Or.inr ?_)⟩
    obtain ⟨rfl, -⟩ := hcore''.timeout_owner hl
    simp [hl]

/-- The main thread is inside a sleep, and the timer thread runs. -/
def sleeping (u : SleepUnit) (d : Word) : Kernel ℕ ℕ := booted.after (.sleep u d 0)

theorem sleeping_run (u : SleepUnit) (d : Word) : ∃ evs, Run NoStray (sleeping u d) evs :=
  ⟨_, booted_run.step (a := .sleep u d 0) ⟨2, .of_ne rfl rfl (by decide), by decide⟩
    (fun _ _ => nofun) ⟨0, fun _ _ => rfl⟩⟩

/-- The timer thread has nothing to do, and the idle thread wakes up the main thread. -/
def wokenUp : List (Act ℕ ℕ) :=
  [.timerSelect, .timerClear, .timerSuspend 0, .wakeup 2, .yield 0, .yield 0]

theorem wokenUp_plays : Plays (fun k a => k.NoStray a ∧ (k.after a).pc 2 = .sleep .sec)
    (sleeping .sec 1) wokenUp := by
  refine ⟨⟨0, rfl, rfl, rfl, rfl⟩, ⟨fun _ _ => nofun, rfl⟩,
    ⟨[], Outcome.returns_of_add 2 fun _ => rfl⟩,
    ⟨none, 0, rfl, rfl, rfl, rfl⟩, ⟨fun _ _ => nofun, rfl⟩, ⟨[], 0, fun _ _ => rfl⟩,
    ⟨0, rfl, rfl, rfl, rfl⟩, ⟨fun _ _ => nofun, rfl⟩, ⟨[], 0, fun _ _ => rfl⟩,
    ⟨⟨1, .of_ne rfl rfl (by decide)⟩, rfl⟩, ⟨fun u t hu hb => ?_, rfl⟩, ⟨[], 0, fun _ _ => rfl⟩,
    ⟨1, .of_ne rfl rfl (by decide)⟩, ⟨fun _ _ => nofun, rfl⟩, ⟨[], 0, fun _ _ => rfl⟩,
    ⟨1, .of_ne rfl rfl (by decide)⟩, ⟨fun _ _ => nofun, rfl⟩, ⟨[], 0, fun _ _ => rfl⟩, trivial⟩
  -- the main thread is not inside `thread_join`
  obtain rfl : 2 = u := hu
  cases hb.1

/-- The main thread has returned from that sleep. -/
def awake : Kernel ℕ ℕ := ((sleeping .sec 1).play wokenUp).after (.resume 0)

theorem awake_returns : Outcome.Returns (((sleeping .sec 1).play wokenUp).step (.resume 0))
    (awake, [.destroyed (.thread 2), .slept 1]) :=
  Outcome.returns_of_add 4 fun _ => rfl

/-- It sleeps again, for one tick; after two the timer thread comes to `thread_timeout_handler`. -/
def timingOut : Kernel ℕ ℕ :=
  awake.play [.sleep .usec 1000 0, .tick 0 0, .tick 0 0, .yield 0, .yield 0, .timerSelect]

theorem timingOut_plays : Plays NoStray awake
    [.sleep .usec 1000 0, .tick 0 0, .tick 0 0, .yield 0, .yield 0, .timerSelect] :=
  ⟨⟨2, .of_ne rfl rfl (by decide), by decide⟩, fun _ _ => nofun, ⟨[], 0, fun _ _ => rfl⟩,
    ⟨1, rfl, rfl⟩, noStray_tick rfl rfl, ⟨[], Outcome.returns_of_add 2 fun _ => rfl⟩,
    ⟨1, rfl, rfl⟩, noStray_tick rfl rfl, ⟨[], Outcome.returns_of_add 2 fun _ => rfl⟩,
    ⟨1, .of_ne rfl rfl (by decide)⟩, fun _ _ => nofun, ⟨[], 0, fun _ _ => rfl⟩,
    ⟨1, .of_ne rfl rfl (by decide)⟩, fun _ _ => nofun, ⟨[], 0, fun _ _ => rfl⟩,
    ⟨0, rfl, rfl, rfl, rfl⟩, fun _ _ => nofun, ⟨[], Outcome.returns_of_add 2 fun _ => rfl⟩, trivial⟩

/-- **Two sleeps of one thread.**  The first ends early: a tick later its timer is forgotten, and so it is
when the second one starts.  The second expires: the timer thread wakes up a thread that is inside the
sleep, for its second start of the timer. -/
theorem sleep_no_stale_timer_twoSleeps : Harmless (NoStray : Kernel ℕ ℕ → Act ℕ ℕ → Prop) ∧
    Outcome.Returns (((sleeping .sec 1).play wokenUp).step (.resume 0))
      (awake, [.destroyed (.thread 2), .slept 1]) ∧
    (awake.play [.tick 0 0, .yield 0]).Forgotten (.thread 2) ∧
    (awake.Admits (.sleep .usec 1000 0) ∧ awake.Forgotten (.thread 2) ∧
      awake.timerPending (.thread 2) = .ok false ∧ awake.running (.thread 2) = false) ∧
    (timingOut.loop = .handler (.thread 2) (.threadTimeout 2) ∧ timingOut.pc 2 = .sleep .usec ∧
      (timingOut.pc 2).inSleep 2 ∧ timingOut.starts (.thread 2) = 2 ∧
      (.thread 2, timingOut.starts (.thread 2)) ∈ timingOut.invoked) := by
  obtain ⟨evs₁, h₁⟩ := sleeping_run .sec 1
  obtain ⟨evs₂, h₂⟩ := h₁.play (wokenUp_plays.mono fun _ _ h => h.1)
  have hwake : Kernel.Admits ((sleeping .sec 1).play wokenUp) (.resume 0) := ⟨2, rfl, rfl⟩
  obtain ⟨-, -, -, hgone⟩ := sleep_no_stale_timer harmless_noStray h₂
  have h₃ := h₂.step hwake (fun _ _ => nofun) awake_returns
  obtain ⟨-, hsleep, -⟩ := sleep_no_stale_timer harmless_noStray h₃
  obtain ⟨evs₄, h₄⟩ := h₃.play timingOut_plays
  obtain ⟨-, -, hexpires, -⟩ := sleep_no_stale_timer harmless_noStray h₄
  have hadm : awake.Admits (.sleep .usec 1000 0) := ⟨2, .of_ne rfl rfl (by decide), by decide⟩
  obtain ⟨hforgotten, hidle⟩ := hsleep 2 .usec 1000 0 rfl hadm
  obtain ⟨-, -, hin, hinvoked⟩ := hexpires (.thread 2) 2 rfl
  have hlater : Later NoStray (.thread 2) awake (awake.play [.tick 0 0, .yield 0]) :=
    Later.refl.play ⟨⟨2, rfl, rfl⟩, ⟨noStray_tick rfl rfl, id⟩,
      ⟨[], Outcome.returns_of_add 2 fun _ => rfl⟩,
      ⟨2, .of_ne rfl rfl (by decide)⟩, ⟨fun _ _ => nofun, id⟩, ⟨[], 0, fun _ _ => rfl⟩, trivial⟩
  exact ⟨harmless_noStray, awake_returns,
    (hgone (.resume 0) _ _ 2 hwake (fun _ _ => nofun) awake_returns (by simp) _ hlater).1,
    ⟨hadm, hforgotten, hidle rfl⟩, rfl, rfl, hin, rfl, hinvoked⟩

/-! ### Joining -/

/-- **Joining reaps the dead.**  In every run in which no `thread_wakeup` is aimed at a thread that
waits in `thread_join`, the next act ends, and when it is the end of `thread_join` on `t`, then `t` is a
zombie and the value is the one that `t` passed to `thread_finish`. -/
theorem join_reaps_dead (h : Run NoStray k evs) (hadm : k.Admits a) (hok : k.NoStray a) :
    ∃ k' new, Outcome.Returns (k.step a) (k', new) ∧
      ∀ t v, .joined t v ∈ new → k.state t = .zombie ∧ k.passed t = some v := by
  obtain ⟨rs, ts, c, hcore, hr, -⟩ := h.good harmless_noStray
  obtain ⟨k', new, _, _, _, hret, -, -, heff⟩ := hcore.leads hr hadm hok
  exact ⟨k', new, hret, heff.joined⟩

/-- Thread 3 finishes with the value 7, and the main thread goes on. -/
theorem join_reaps_dead_finished : ∃ evs k' new,
    Run NoStray (waiting.play [.finish 7 0, .yield 0]) evs ∧
      Outcome.Returns ((waiting.play [.finish 7 0, .yield 0]).step (.resume 0)) (k', new) ∧
      .joined 3 7 ∈ new ∧ (waiting.play [.finish 7 0, .yield 0]).state 3 = .zombie ∧
      (waiting.play [.finish 7 0, .yield 0]).passed 3 = some 7 := by
  obtain ⟨evs, h⟩ := waiting_run
  obtain ⟨evs', h'⟩ : ∃ evs', Run NoStray (waiting.play [.finish 7 0, .yield 0]) evs' := h.play
    ⟨⟨3, .of_ne rfl rfl (by decide), by decide, by decide⟩, fun _ _ => nofun, ⟨[], 0, fun _ _ => rfl⟩,
      ⟨1, .of_ne rfl rfl (by decide)⟩, fun _ _ => nofun, ⟨[], 0, fun _ _ => rfl⟩, trivial⟩
  obtain ⟨k', new, hret, hjoined⟩ := join_reaps_dead (a := .resume 0) h' ⟨2, rfl, rfl⟩ fun _ _ => nofun
  obtain ⟨n, hn⟩ := id hret
  obtain ⟨-, rfl⟩ : _ ∧ [.joined 3 7] = new := by
    have := hn (n + 8) (by omega)
    exact Prod.mk.injEq .. ▸ Outcome.ok.inj this
  exact ⟨evs', k', _, h', hret, by simp, hjoined 3 7 (by simp)⟩

/-- The main thread waits for thread 3, which wakes it up. -/
theorem join_reaps_living : ¬ ∀ (k k' : Kernel ℕ ℕ) (a : Act ℕ ℕ) (evs new : List (Event ℕ ℕ)),
    Run (fun _ _ => True) k evs → k.Admits a → Outcome.Returns (k.step a) (k', new) →
      ∀ t v, .joined t v ∈ new → k.state t = .zombie ∧ k.passed t = some v := by
  intro hall
  obtain ⟨evs, h⟩ := waiting_run
  have htrue : Run (fun _ _ => True) waiting evs := h.mono fun _ _ _ => trivial
  obtain ⟨evs', h'⟩ : ∃ evs', Run (fun _ _ => True)
      (waiting.play [.wakeup 2, .yield 0, .yield 0, .yield 0]) evs' := htrue.play
    ⟨⟨⟨3, .of_ne rfl rfl (by decide)⟩, rfl⟩, trivial, ⟨[], 0, fun _ _ => rfl⟩,
      ⟨3, .of_ne rfl rfl (by decide)⟩, trivial, ⟨[], 0, fun _ _ => rfl⟩,
      ⟨1, .of_ne rfl rfl (by decide)⟩, trivial, ⟨[], 0, fun _ _ => rfl⟩,
      ⟨3, .of_ne rfl rfl (by decide)⟩, trivial, ⟨[], 0, fun _ _ => rfl⟩, trivial⟩
  have hjoin := hall _ _ (.resume 0) evs' [.joined 3 0] h' ⟨2, rfl, rfl⟩ ⟨0, fun _ _ => rfl⟩ 3 0 (by simp)
  exact absurd hjoin.1 (by decide)

/-- **Joining loses no wakeup.**  In every state of every such run: no thread sleeps in `thread_join`
on a zombie; at most one thread is inside `thread_join` on `t`; while one is, and when the current
thread is `t` itself, `thread_join` on `t` returns `EINVAL` and changes nothing; and the memory of a
thread was released as often as it was allocated, or once less while it is allocated. -/
theorem join_no_lost_wakeup (h : Run NoStray k evs) :
    (∀ u t, k.BlockedInJoin u t → k.state t ≠ .zombie) ∧
    (∀ u v t, k.pc u = .join t → k.pc v = .join t → u = v) ∧
    (∀ t now, k.Admits (.join t now) → k.current = some t ∨ (∃ u, k.pc u = .join t) →
      ∀ fuel, k.step (.join t now) fuel = .ok (k, [.invalid t])) ∧
    ∀ t, evs.count (.created t) = evs.countP (releases t) + (k.block t).toNat := by
  obtain ⟨rs, ts, c, hcore, hr, -, hmem⟩ := h.good harmless_noStray
  refine ⟨fun u t hb => ?_, fun u v t hu hv => ?_, fun t now hadm hor fuel => ?_, hmem⟩
  · obtain ⟨-, -, -, -, hiff⟩ := hcore.joins.waits u t hb.1
    exact hiff.mp hb.2
  · obtain ⟨-, -, -, hju, -⟩ := hcore.joins.waits u t hu
    obtain ⟨-, -, -, hjv, -⟩ := hcore.joins.waits v t hv
    exact Option.some.inj (hju.symm.trans hjv)
  · have hcan : k.threadCanJoin t = false := by
      rcases hor with hcur | ⟨u, hu⟩
      · simp [threadCanJoin, hcur]
      · obtain ⟨-, -, -, hju, -⟩ := hcore.joins.waits u t hu
        simp [threadCanJoin, hju]
    simp only [step, threadJoin, hr.deref, Outcome.ok_bind, hcan, Bool.false_eq_true, if_false,
      Outcome.pure_eq]

theorem join_no_lost_wakeup_waiting : waiting.BlockedInJoin 2 3 ∧ waiting.state 3 ≠ .zombie ∧
    ∀ u, waiting.pc u = .join 3 → u = 2 := by
  obtain ⟨evs, h⟩ := waiting_run
  obtain ⟨hno, hone, -⟩ := join_no_lost_wakeup h
  have hblocked : waiting.BlockedInJoin 2 3 := ⟨rfl, rfl⟩
  exact ⟨hblocked, hno 2 3 hblocked, fun u hu => hone u 2 3 hu hblocked.1⟩

end Kernel

end Kalisto
