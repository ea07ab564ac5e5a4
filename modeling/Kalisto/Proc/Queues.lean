import Kalisto.Proc.Thread

/-!
# The runnable list and the list of timers

`Linked l rs ts ins ini` says that the links `l` hold the runnable list `rs` and the list of timers
`ts`, and that the other links of the threads in `ins` and of the timers in `ini` are initialised and
in no list.  Each lemma says what one operation of `adt/list.h` does to the two sequences; they are
the refinement of `Rep` at the two lists of the kernel.
-/

namespace Kalisto

open LinkList

variable {T C : Type}

/-- The two lists and the links outside them. -/
def queuePool (rs : List T) (ts : List (TimerRef T C)) (ins : T → Bool) (ini : TimerRef T C → Bool) :
    Pool (LinkRef T C) where
  lists
    | .runnableList => some (rs.map .thread)
    | .timersList => some (ts.map .timer)
    | _ => none
  loose := {a | match a with
    | .thread t => ins t = true ∧ t ∉ rs
    | .timer x => ini x = true ∧ x ∉ ts
    | _ => False}

/-- **The links of the two lists.** -/
structure Linked (l : Links (LinkRef T C)) (rs : List T) (ts : List (TimerRef T C)) (ins : T → Bool)
    (ini : TimerRef T C → Bool) : Prop where
  rep : Rep (queuePool rs ts ins ini) l
  threads : ∀ t ∈ rs, ins t = true
  timers : ∀ x ∈ ts, ini x = true

namespace Linked

variable {l : Links (LinkRef T C)} {rs : List T} {ts : List (TimerRef T C)} {ins : T → Bool}
  {ini : TimerRef T C → Bool} {t : T} {x : TimerRef T C}

theorem runnable_nodup (h : Linked l rs ts ins ini) : rs.Nodup :=
  (List.nodup_cons.mp (h.rep.ring .runnableList _ rfl).nodup).2.of_map _

theorem timers_nodup (h : Linked l rs ts ins ini) : ts.Nodup :=
  (List.nodup_cons.mp (h.rep.ring .timersList _ rfl).nodup).2.of_map _

/-! ### The links of a pool -/

@[simp] theorem mem_loose_thread :
    LinkRef.thread t ∈ (queuePool rs ts ins ini).loose ↔ ins t = true ∧ t ∉ rs := Iff.rfl

@[simp] theorem mem_loose_timer :
    LinkRef.timer x ∈ (queuePool rs ts ins ini).loose ↔ ini x = true ∧ x ∉ ts := Iff.rfl

@[simp] theorem not_mem_loose_runnableList :
    LinkRef.runnableList ∉ (queuePool rs ts ins ini).loose := id

@[simp] theorem not_mem_loose_timersList :
    LinkRef.timersList ∉ (queuePool rs ts ins ini).loose := id

theorem lists_eq_some {h : LinkRef T C} {xs : List (LinkRef T C)}
    (hxs : (queuePool rs ts ins ini).lists h = some xs) :
    h = .runnableList ∧ xs = rs.map .thread ∨ h = .timersList ∧ xs = ts.map .timer := by
  cases h with
  | runnableList => exact Or.inl ⟨rfl, (Option.some.inj hxs).symm⟩
  | timersList => exact Or.inr ⟨rfl, (Option.some.inj hxs).symm⟩
  | thread t => cases hxs
  | timer x => cases hxs

theorem inList_thread : (queuePool rs ts ins ini).InList (.thread t) ↔ t ∈ rs := by
  constructor
  · rintro ⟨h, xs, hxs, hmem⟩
    rcases lists_eq_some hxs with ⟨-, rfl⟩ | ⟨-, rfl⟩
    · simpa using hmem
    · simp at hmem
  · exact fun h => ⟨.runnableList, _, rfl, List.mem_map_of_mem h⟩

theorem inList_timer : (queuePool rs ts ins ini).InList (.timer x) ↔ x ∈ ts := by
  constructor
  · rintro ⟨h, xs, hxs, hmem⟩
    rcases lists_eq_some hxs with ⟨-, rfl⟩ | ⟨-, rfl⟩
    · simp at hmem
    · simpa using hmem
  · exact fun h => ⟨.timersList, _, rfl, List.mem_map_of_mem h⟩

/-- A pool with the right lists and the right loose links. -/
theorem of_rep {P : Pool (LinkRef T C)} (hrep : Rep P l)
    (hrun : P.lists .runnableList = some (rs.map .thread))
    (htim : P.lists .timersList = some (ts.map .timer))
    (hthread : ∀ t, P.lists (.thread t) = none ∧ (ins t = true ∧ t ∉ rs → .thread t ∈ P.loose))
    (htimer : ∀ x, P.lists (.timer x) = none ∧ (ini x = true ∧ x ∉ ts → .timer x ∈ P.loose))
    (hrs : ∀ t ∈ rs, ins t = true) (hts : ∀ x ∈ ts, ini x = true) : Linked l rs ts ins ini := by
  have hlists : (queuePool rs ts ins ini).lists = P.lists := by
    funext a
    cases a with
    | runnableList => exact hrun.symm
    | timersList => exact htim.symm
    | thread t => exact (hthread t).1.symm
    | timer x => exact (htimer x).1.symm
  have hloose : ∀ a ∈ (queuePool rs ts ins ini).loose, a ∈ P.loose := by
    intro a ha
    cases a with
    | runnableList => exact ha.elim
    | timersList => exact ha.elim
    | thread t => exact (hthread t).2 ha
    | timer x => exact (htimer x).2 ha
  refine ⟨⟨?_, ?_, ?_, fun a ha => hrep.null a (hloose a ha)⟩, hrs, hts⟩
  · rw [hlists]
    exact hrep.ring
  · rw [hlists]
    exact hrep.disjoint
  · rw [hlists]
    exact fun a ha => hrep.outside a (hloose a ha)

variable [DecidableEq T] [DecidableEq C]

/-! ### Threads -/

/-- **`list_append`** to the runnable list. -/
theorem append_thread (h : Linked l rs ts ins ini) (ht : ins t = true) (hn : t ∉ rs) :
    ∃ l', listAppend l (some .runnableList) (some (.thread t)) = .ok l' ∧
      Linked l' (rs ++ [t]) ts ins ini := by
  obtain ⟨l', hrun, hrep⟩ := h.rep.listAppend (h := .runnableList) (a := .thread t) rfl
    (mem_loose_thread.mpr ⟨ht, hn⟩)
  refine ⟨l', hrun, of_rep hrep ?_ rfl ?_ ?_ ?_ h.timers⟩
  · simp [Pool.take, Pool.setList]
  · intro u
    refine ⟨rfl, ?_⟩
    simp only [Pool.take, Pool.setList, List.mem_append, List.mem_singleton, not_or, Set.mem_sdiff,
      mem_loose_thread, Set.mem_singleton_iff, LinkRef.thread.injEq]
    tauto
  · intro y
    exact ⟨rfl, fun hy => ⟨hy, by simp⟩⟩
  · intro u hu
    rcases List.mem_append.mp hu with hu | hu
    · exact h.threads u hu
    · exact List.mem_singleton.mp hu ▸ ht

/-- **`list_remove`** of the link of a thread. -/
theorem remove_thread (h : Linked l rs ts ins ini) (ht : ins t = true) :
    ∃ l', listRemove l (some (.thread t)) = .ok l' ∧ Linked l' (rs.erase t) ts ins ini := by
  have hor : LinkRef.thread t ∈ (queuePool rs ts ins ini).loose ∨
      (queuePool rs ts ins ini).InList (.thread t) := by
    rw [inList_thread, mem_loose_thread]
    tauto
  obtain ⟨l', hrun, hrep⟩ := h.rep.listRemove hor
  refine ⟨l', hrun, of_rep hrep ?_ ?_ ?_ ?_ ?_ h.timers⟩
  · have hinj : Function.Injective (LinkRef.thread : T → LinkRef T C) := fun _ _ => LinkRef.thread.inj
    simp [queuePool, List.map_erase hinj]
  · have hnot : (LinkRef.thread t : LinkRef T C) ∉ ts.map LinkRef.timer := by simp
    simp [queuePool, List.erase_of_not_mem hnot]
  · intro u
    refine ⟨rfl, fun hu => ?_⟩
    rw [h.runnable_nodup.mem_erase_iff] at hu
    simp only [Set.mem_insert_iff, LinkRef.thread.injEq, mem_loose_thread]
    tauto
  · exact fun y => ⟨rfl, fun hy => Set.mem_insert_of_mem _ hy⟩
  · exact fun u hu => h.threads u (List.mem_of_mem_erase hu)

/-- **`list_rotate`** of the runnable list. -/
theorem rotate (h : Linked l (t :: rs) ts ins ini) :
    ∃ l', listRotate l (some .runnableList) = .ok (some (.thread t), l') ∧
      Linked l' (rs ++ [t]) ts ins ini := by
  obtain ⟨l', hrun, hrep⟩ := @Rep.listRotate _ _ _ l .runnableList (rs.map .thread) h.rep (.thread t) rfl
  refine ⟨l', hrun, of_rep hrep ?_ rfl ?_ (fun y => ⟨rfl, id⟩) ?_ h.timers⟩
  · simp [Pool.setList]
  · intro u
    refine ⟨rfl, fun hu => mem_loose_thread.mpr ⟨hu.1, ?_⟩⟩
    simpa [or_comm] using hu.2
  · exact fun u hu => h.threads u (by simpa [or_comm] using hu)

theorem rotate_nil (h : Linked l [] ts ins ini) :
    listRotate l (some .runnableList) = .ok (none, l) :=
  (h.rep.pop_empty (h := .runnableList) rfl).2

/-- **`link_init`** of the link of a new thread. -/
theorem init_thread (h : Linked l rs ts ins ini) (hn : t ∉ rs) :
    ∃ l', linkInit l (some (.thread t)) = .ok l' ∧
      Linked l' rs ts (Function.update ins t true) ini := by
  have hout : ∀ h' xs, (queuePool rs ts ins ini).lists h' = some xs →
      LinkRef.thread t ∉ h' :: xs := by
    intro h' xs hxs
    rcases lists_eq_some hxs with ⟨rfl, rfl⟩ | ⟨rfl, rfl⟩ <;> simp [hn]
  refine ⟨_, rfl, of_rep (h.rep.linkInit hout) rfl rfl ?_ ?_ ?_ h.timers⟩
  · intro u
    refine ⟨rfl, fun hu => ?_⟩
    simp only [Function.update_apply] at hu
    simp only [Pool.release, Set.mem_insert_iff, LinkRef.thread.injEq, mem_loose_thread]
    by_cases hut : u = t
    · exact Or.inl hut
    · exact Or.inr (by simpa [hut] using hu)
  · exact fun y => ⟨rfl, fun hy => Set.mem_insert_of_mem _ hy⟩
  · intro u hu
    have hut : u ≠ t := fun heq => hn (heq ▸ hu)
    rw [Function.update_of_ne hut]
    exact h.threads u hu

omit [DecidableEq C] in
/-- The link of a thread that is in no list is forgotten. -/
theorem forget_thread (h : Linked l rs ts ins ini) (hn : t ∉ rs) :
    Linked l rs ts (Function.update ins t false) ini := by
  refine of_rep h.rep rfl rfl ?_ (fun y => ⟨rfl, id⟩) ?_ h.timers
  · intro u
    refine ⟨rfl, fun hu => mem_loose_thread.mpr ⟨?_, hu.2⟩⟩
    have hins := hu.1
    simp only [Function.update_apply] at hins
    split at hins
    · cases hins
    · exact hins
  · intro u hu
    have hut : u ≠ t := fun heq => hn (heq ▸ hu)
    rw [Function.update_of_ne hut]
    exact h.threads u hu

/-! ### Timers -/

/-- **`list_append`** to the list of timers. -/
theorem append_timer (h : Linked l rs ts ins ini) (hx : ini x = true) (hn : x ∉ ts) :
    ∃ l', listAppend l (some .timersList) (some (.timer x)) = .ok l' ∧
      Linked l' rs (ts ++ [x]) ins ini := by
  obtain ⟨l', hrun, hrep⟩ := h.rep.listAppend (h := .timersList) (a := .timer x) rfl
    (mem_loose_timer.mpr ⟨hx, hn⟩)
  refine ⟨l', hrun, of_rep hrep rfl ?_ ?_ ?_ h.threads ?_⟩
  · simp [Pool.take, Pool.setList]
  · intro u
    exact ⟨rfl, fun hu => ⟨hu, by simp⟩⟩
  · intro y
    refine ⟨rfl, ?_⟩
    simp only [Pool.take, Pool.setList, List.mem_append, List.mem_singleton, not_or, Set.mem_sdiff,
      mem_loose_timer, Set.mem_singleton_iff, LinkRef.timer.injEq]
    tauto
  · intro y hy
    rcases List.mem_append.mp hy with hy | hy
    · exact h.timers y hy
    · exact List.mem_singleton.mp hy ▸ hx

/-- **`list_remove`** of the link of a timer. -/
theorem remove_timer (h : Linked l rs ts ins ini) (hx : ini x = true) :
    ∃ l', listRemove l (some (.timer x)) = .ok l' ∧ Linked l' rs (ts.erase x) ins ini := by
  have hor : LinkRef.timer x ∈ (queuePool rs ts ins ini).loose ∨
      (queuePool rs ts ins ini).InList (.timer x) := by
    rw [inList_timer, mem_loose_timer]
    tauto
  obtain ⟨l', hrun, hrep⟩ := h.rep.listRemove hor
  refine ⟨l', hrun, of_rep hrep ?_ ?_ ?_ ?_ h.threads ?_⟩
  · have hnot : (LinkRef.timer x : LinkRef T C) ∉ rs.map LinkRef.thread := by simp
    simp [queuePool, List.erase_of_not_mem hnot]
  · have hinj : Function.Injective (LinkRef.timer : TimerRef T C → LinkRef T C) :=
      fun _ _ => LinkRef.timer.inj
    simp [queuePool, List.map_erase hinj]
  · exact fun u => ⟨rfl, fun hu => Set.mem_insert_of_mem _ hu⟩
  · intro y
    refine ⟨rfl, fun hy => ?_⟩
    rw [h.timers_nodup.mem_erase_iff] at hy
    simp only [Set.mem_insert_iff, LinkRef.timer.injEq, mem_loose_timer]
    tauto
  · exact fun y hy => h.timers y (List.mem_of_mem_erase hy)

/-- **`link_init`** of the link of a timer that is in no list. -/
theorem init_timer (h : Linked l rs ts ins ini) (hn : x ∉ ts) :
    ∃ l', linkInit l (some (.timer x)) = .ok l' ∧
      Linked l' rs ts ins (Function.update ini x true) := by
  have hout : ∀ h' xs, (queuePool rs ts ins ini).lists h' = some xs →
      LinkRef.timer x ∉ h' :: xs := by
    intro h' xs hxs
    rcases lists_eq_some hxs with ⟨rfl, rfl⟩ | ⟨rfl, rfl⟩ <;> simp [hn]
  refine ⟨_, rfl, of_rep (h.rep.linkInit hout) rfl rfl ?_ ?_ h.threads ?_⟩
  · exact fun u => ⟨rfl, fun hu => Set.mem_insert_of_mem _ hu⟩
  · intro y
    refine ⟨rfl, fun hy => ?_⟩
    simp only [Function.update_apply] at hy
    simp only [Pool.release, Set.mem_insert_iff, LinkRef.timer.injEq, mem_loose_timer]
    by_cases hyx : y = x
    · exact Or.inl hyx
    · exact Or.inr (by simpa [hyx] using hy)
  · intro y hy
    have hyx : y ≠ x := fun heq => hn (heq ▸ hy)
    rw [Function.update_of_ne hyx]
    exact h.timers y hy

/-- The link of a timer that is in no list is forgotten. -/
theorem forget_timer (h : Linked l rs ts ins ini) (hn : x ∉ ts) :
    Linked l rs ts ins (Function.update ini x false) := by
  refine of_rep h.rep rfl rfl (fun u => ⟨rfl, id⟩) ?_ h.threads ?_
  · intro y
    refine ⟨rfl, fun hy => mem_loose_timer.mpr ⟨?_, hy.2⟩⟩
    have hini := hy.1
    simp only [Function.update_apply] at hini
    split at hini
    · cases hini
    · exact hini
  · intro y hy
    have hyx : y ≠ x := fun heq => hn (heq ▸ hy)
    rw [Function.update_of_ne hyx]
    exact h.timers y hy

/-- The memory of a timer that is in no list is used for something else. -/
theorem overwrite_timer (h : Linked l rs ts ins ini) (hn : x ∉ ts) (p n : Option (LinkRef T C)) :
    Linked ((l.setPrev (.timer x) p).setNext (.timer x) n) rs ts ins (Function.update ini x false) := by
  have hout : ∀ h' xs, (queuePool rs ts ins ini).lists h' = some xs → LinkRef.timer x ∉ h' :: xs := by
    intro h' xs hxs
    rcases lists_eq_some hxs with ⟨rfl, rfl⟩ | ⟨rfl, rfl⟩ <;> simp [hn]
  refine of_rep (h.rep.overwrite hout p n) rfl rfl ?_ ?_ h.threads (h.forget_timer hn).timers
  · exact fun u => ⟨rfl, fun hu => ⟨hu, by simp⟩⟩
  · intro y
    refine ⟨rfl, fun hy => ?_⟩
    simp only [Function.update_apply] at hy
    by_cases hyx : y = x
    · simp [hyx] at hy
    · exact ⟨by simpa [hyx] using hy, by simp [hyx]⟩

/-- **`link_connected`** of the link of a timer. -/
theorem connected_timer (h : Linked l rs ts ins ini) (hx : ini x = true) :
    linkConnected l (some (.timer x)) = .ok (decide (x ∈ ts)) := by
  obtain ⟨b, hrun, hb⟩ := h.rep.linkConnected (a := .timer x) (by
    rw [inList_timer, mem_loose_timer]
    tauto)
  rw [inList_timer] at hb
  rw [hrun]
  cases b <;> simp_all

omit [DecidableEq C] in
/-- **`link_connected`** of the link of a thread. -/
theorem connected_thread (h : Linked l rs ts ins ini) (ht : ins t = true) :
    linkConnected l (some (.thread t)) = .ok (decide (t ∈ rs)) := by
  obtain ⟨b, hrun, hb⟩ := h.rep.linkConnected (a := .thread t) (by
    rw [inList_thread, mem_loose_thread]
    tauto)
  rw [inList_thread] at hb
  rw [hrun]
  cases b <;> simp_all

omit [DecidableEq T] [DecidableEq C] in
/-- The links of the list of timers. -/
theorem ring_timers (h : Linked l rs ts ins ini) : l.Ring .timersList (ts.map .timer) :=
  h.rep.ring .timersList _ rfl

/-- The two lists of a kernel that was just initialised. -/
theorem boot {l l₁ l₂ : Links (LinkRef T C)} (h₁ : listInit l (some .runnableList) = .ok l₁)
    (h₂ : listInit l₁ (some .timersList) = .ok l₂) :
    Linked l₂ [] [] (fun _ => false) (fun _ => false) := by
  have hnone : Rep (Pool.empty : Pool (LinkRef T C)) l := (Reachable.init l).rep
  have hfresh₁ : (Pool.empty : Pool (LinkRef T C)).Fresh .runnableList := by
    simp [Pool.Fresh, Pool.InList, Pool.empty]
  have hrep₁ := hnone.listInit hfresh₁
  have hfresh₂ : ((Pool.empty : Pool (LinkRef T C)).setList .runnableList []).Fresh .timersList := by
    simp [Pool.Fresh, Pool.InList, Pool.empty, Pool.setList, Function.update_apply]
  have hrep₂ := hrep₁.listInit hfresh₂
  injection h₁ with h₁
  subst h₁
  injection h₂ with h₂
  subst h₂
  exact of_rep hrep₂ rfl rfl (by simp [Pool.setList, Pool.empty]) (by simp [Pool.setList, Pool.empty])
    (by simp) (by simp)

end Linked

/-! ### The scheduler -/

variable [DecidableEq T] [DecidableEq C]

namespace Kernel

/-- The lists of a state. -/
def Queues (k : Kernel T C) (rs : List T) (ts : List (TimerRef T C)) : Prop :=
  Linked k.links rs ts k.inserted k.initialised

/-- The thread that `schedule` chooses. -/
def chosen (k : Kernel T C) : Option T :=
  match listRotate k.links (some .runnableList) with
  | .ok (some (.thread t), _) => some t
  | _ => none

omit [DecidableEq C] in
@[simp] theorem threadSwitch_links (k : Kernel T C) (t : T) : (k.threadSwitch t).links = k.links := by
  simp only [threadSwitch, preempt]
  split
  · split <;> rfl
  · rfl

omit [DecidableEq C] in
@[simp] theorem threadSwitch_inserted (k : Kernel T C) (t : T) :
    (k.threadSwitch t).inserted = k.inserted := by
  simp only [threadSwitch, preempt]
  split
  · split <;> rfl
  · rfl

omit [DecidableEq C] in
@[simp] theorem threadSwitch_initialised (k : Kernel T C) (t : T) :
    (k.threadSwitch t).initialised = k.initialised := by
  simp only [threadSwitch, preempt]
  split
  · split <;> rfl
  · rfl

end Kernel

namespace Linked

variable {k : Kernel T C} {rs : List T} {ts : List (TimerRef T C)} {ins : T → Bool}
  {ini : TimerRef T C → Bool}

/-- **`schedule`**, on the runnable list. -/
theorem schedule_links {t : T} (h : Linked k.links (t :: rs) ts ins ini) (now : Word) :
    k.chosen = some t ∧ ∃ l', Linked l' (rs ++ [t]) ts ins ini ∧
      k.schedule now = .ok
        ({ k with links := l', scheduled := Function.update k.scheduled t now }.threadSwitch t) := by
  obtain ⟨l', hrun, hlinked⟩ := h.rotate
  refine ⟨by simp [Kernel.chosen, hrun], l', hlinked, ?_⟩
  simp only [Kernel.schedule, hrun, Outcome.ok_bind, Kernel.threadItem, Outcome.pure_eq]

theorem schedule_nil (h : Linked k.links [] ts ins ini) (now : Word) :
    k.chosen = none ∧ k.schedule now = .ok { k with foundEmpty := true } := by
  simp [Kernel.chosen, Kernel.schedule, h.rotate_nil]

end Linked

end Kalisto
