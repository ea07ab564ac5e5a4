import Kalisto.Adt.Atomic

/-!
# What the clients of atomic variables can rely on

Every history of the operations is linearizable, so what holds of sequences of calls holds of calls by
any number of processors, in any order of their instructions:

* `atomic_sum` — no update is lost: a counter is the sum of what was added and subtracted;
* `atomic_postAdd_disjoint` — the ranges of numbers that calls of `atomic_post_add` reserve are disjoint;
* `atomic_testAndSet_once` — a variable that is set to 0 once is found 0 by one `atomic_test_and_set`.
-/

namespace Kalisto

open LoadLinked Linearizability

variable {P A : Type}

/-! ### Sequences of calls on one variable -/

namespace AtomicOp

/-- What a call adds to the variable. -/
def delta : AtomicOp A → Word
  | add _ n | postAdd _ n => n
  | sub _ n => -n
  | _ => 0

/-- A call that does not set the variable. -/
def Counts : AtomicOp A → Prop
  | set _ _ | testAndSet _ => False
  | _ => True

/-- How many numbers a call reserves. -/
def amount : AtomicOp A → ℕ
  | postAdd _ n => n.toNat
  | _ => 0

theorem amount_postAdd (a : A) (n : Word) : (postAdd a n).amount = n.toNat := rfl

/-- A call that reads the variable or reserves numbers. -/
def Reserves : AtomicOp A → Prop
  | get _ | postAdd _ _ => True
  | _ => False

theorem apply_of_counts {op : AtomicOp A} (h : op.Counts) (w : Word) : (op.apply w).1 = w + op.delta := by
  cases op with
  | get a => simp [apply, delta]
  | set a v => exact h.elim
  | testAndSet a => exact h.elim
  | add a n => rfl
  | postAdd a n => rfl
  | sub a n => exact BitVec.sub_eq_add_neg w n

theorem Reserves.counts {op : AtomicOp A} (h : op.Reserves) : op.Counts := by
  cases op <;> first | exact trivial | exact h.elim

theorem Reserves.delta {op : AtomicOp A} (h : op.Reserves) : op.delta = BitVec.ofNat 32 op.amount := by
  cases op with
  | get a => rfl
  | postAdd a n => simp [AtomicOp.delta, amount]
  | _ => exact h.elim

end AtomicOp

/-- A counter after a sequence of calls. -/
theorem legal_counts {w w' : Word} {es : List (Effect (AtomicOp A) (Option Word))}
    (h : Legal AtomicOp.apply w es w') (hc : ∀ e ∈ es, e.op.Counts) :
    w' = w + (es.map fun e => e.op.delta).sum := by
  induction es generalizing w with
  | nil => simpa using (show w' = w from h)
  | cons e es ih =>
    rw [ih h.2 fun e' he' => hc e' (List.mem_cons_of_mem _ he'),
      AtomicOp.apply_of_counts (hc e (List.mem_cons_self ..)), List.map_cons, List.sum_cons, add_assoc]

/-- The value of a call that reserves numbers. -/
theorem legal_reserve {w w' : Word} {es fs : List (Effect (AtomicOp A) (Option Word))} {i : ℕ} {a : A}
    {n : Word} {r : Option Word} (h : Legal AtomicOp.apply w (es ++ ⟨i, .postAdd a n, r⟩ :: fs) w')
    (hc : ∀ e ∈ es, e.op.Counts) : r = some (w + (es.map fun e => e.op.delta).sum) := by
  obtain ⟨w₁, hes, hr, _⟩ := legal_append.mp h
  rw [← legal_counts hes hc]
  exact hr

theorem sum_delta {es : List (Effect (AtomicOp A) (Option Word))} (hr : ∀ e ∈ es, e.op.Reserves) :
    (es.map fun e => e.op.delta).sum = BitVec.ofNat 32 (es.map fun e => e.op.amount).sum := by
  induction es with
  | nil => rfl
  | cons e es ih =>
    rw [List.map_cons, List.sum_cons, List.map_cons, List.sum_cons,
      ih fun e' he' => hr e' (List.mem_cons_of_mem _ he'), (hr e (List.mem_cons_self ..)).delta,
      BitVec.ofNat_add]

/-- Two ranges of numbers, the second one `d` after the first. -/
theorem ranges_disjoint {r s : Word} {d n k : ℕ} (hs : s = r + BitVec.ofNat 32 d) (hn : n ≤ d)
    (hk : d + k ≤ 2 ^ 32) (x : Word) : ¬((x - r).toNat < n ∧ (x - s).toNat < k) := by
  rintro ⟨hr, hlt⟩
  have hsplit : x - r = (x - s) + BitVec.ofNat 32 d := by
    subst hs
    ring
  have hd : d < 2 ^ 32 := by omega
  have hval : (x - r).toNat = (x - s).toNat + d := by
    rw [hsplit, BitVec.toNat_add, BitVec.toNat_ofNat, Nat.mod_eq_of_lt hd, Nat.mod_eq_of_lt (by omega)]
  omega

/-- Two calls of a sequence reserve disjoint ranges. -/
theorem legal_disjoint {w w' : Word} {es fs gs : List (Effect (AtomicOp A) (Option Word))} {i j : ℕ}
    {a b : A} {n k r s : Word}
    (h : Legal AtomicOp.apply w
      (es ++ ⟨i, .postAdd a n, some r⟩ :: (fs ++ ⟨j, .postAdd b k, some s⟩ :: gs)) w')
    (hc : ∀ e ∈ es ++ ⟨i, .postAdd a n, some r⟩ :: (fs ++ ⟨j, .postAdd b k, some s⟩ :: gs), e.op.Reserves)
    (hroom : ((es ++ ⟨i, .postAdd a n, some r⟩ :: (fs ++ ⟨j, .postAdd b k, some s⟩ :: gs)).map
      fun e => e.op.amount).sum ≤ 2 ^ 32) (x : Word) :
    ¬((x - r).toNat < n.toNat ∧ (x - s).toNat < k.toNat) := by
  have hes : ∀ e ∈ es, e.op.Counts := fun e he => (hc e (by simp [he])).counts
  have hfs : ∀ e ∈ fs, e.op.Reserves := fun e he => hc e (by simp [he])
  have hr := Option.some.inj (legal_reserve h hes)
  have hesfs : ∀ e ∈ es ++ ⟨i, .postAdd a n, some r⟩ :: fs, e.op.Counts := by
    intro e he
    rcases List.mem_append.mp he with he | he
    · exact hes e he
    · rcases List.mem_cons.mp he with rfl | he
      · trivial
      · exact (hfs e he).counts
  have h' : Legal AtomicOp.apply w
      ((es ++ ⟨i, .postAdd a n, some r⟩ :: fs) ++ ⟨j, .postAdd b k, some s⟩ :: gs) w' := by
    simpa using h
  have hs := Option.some.inj (legal_reserve h' hesfs)
  refine ranges_disjoint (d := n.toNat + (fs.map fun e => e.op.amount).sum) ?_ (Nat.le_add_right _ _) ?_ x
  · rw [hs, hr, List.map_append, List.sum_append, List.map_cons, List.sum_cons, sum_delta hfs,
      BitVec.ofNat_add, BitVec.ofNat_toNat]
    simp [AtomicOp.delta, add_assoc]
  · simp only [List.map_append, List.sum_append, List.map_cons, List.sum_cons,
      AtomicOp.amount_postAdd] at hroom
    omega

namespace AtomicOp

/-- A call that leaves the variable as it is, sets it, or tests it. -/
def Signals : AtomicOp A → Prop
  | get _ | set _ _ | testAndSet _ => True
  | _ => False

/-- A call that sets the variable to 0. -/
def clears : AtomicOp A → Bool
  | set _ v => v = 0
  | _ => false

end AtomicOp

/-- A test that found 0. -/
def foundZero (e : Effect (AtomicOp A) (Option Word)) : Bool :=
  match e.op with
  | .testAndSet _ => e.ret = some 0
  | _ => false

/-- Every test that finds 0 uses up one 0. -/
theorem foundZero_step {w : Word} {e : Effect (AtomicOp A) (Option Word)} (hs : e.op.Signals)
    (hr : e.ret = (e.op.apply w).2) :
    (if foundZero e then 1 else 0) + (if (e.op.apply w).1 = 0 then 1 else 0) ≤
      (if e.op.clears then 1 else 0) + (if w = 0 then 1 else 0) := by
  obtain ⟨i, op, r⟩ := e
  cases op with
  | get a => simp only [foundZero, AtomicOp.apply, AtomicOp.clears]; exact le_rfl
  | set a v => by_cases hv : v = 0#32 <;> simp [foundZero, AtomicOp.apply, AtomicOp.clears, hv]
  | testAndSet a =>
    obtain rfl : r = some w := hr
    by_cases hw : w = 0#32 <;> simp [foundZero, AtomicOp.apply, AtomicOp.clears, hw]
  | add a n => exact hs.elim
  | postAdd a n => exact hs.elim
  | sub a n => exact hs.elim

theorem legal_foundZero {w w' : Word} {es : List (Effect (AtomicOp A) (Option Word))}
    (h : Legal AtomicOp.apply w es w') (hs : ∀ e ∈ es, e.op.Signals) :
    es.countP foundZero + (if w' = 0 then 1 else 0) ≤
      es.countP (fun e => e.op.clears) + (if w = 0 then 1 else 0) := by
  induction es generalizing w with
  | nil =>
    obtain rfl : w' = w := h
    exact le_rfl
  | cons e es ih =>
    have hfirst := foundZero_step (hs e (List.mem_cons_self ..)) h.1
    have hrest := ih h.2 fun e' he' => hs e' (List.mem_cons_of_mem _ he')
    rw [List.countP_cons, List.countP_cons]
    omega

/-! ### Runs -/

section Runs

variable [DecidableEq P] [DecidableEq A] {mem : A → Word} {link : P → Option A}
  {m : Machine P A Operand (AtomicOp A)} {h : List (Event P (AtomicOp A) (Option Word))}

/-- The calls on variable `a`. -/
def callsOn (a : A) (h : List (Event P (AtomicOp A) (Option Word))) : List (ℕ × AtomicOp A) :=
  (calls h).filter fun c => c.2.var = a

/-- The calls on `a` that have taken effect, in their order. -/
theorem exists_legal (hrun : AtomicRun mem link h m) (a : A) :
    ∃ order, Linearization AtomicOp.applyTo mem m.mem h order ∧
      Legal AtomicOp.apply (mem a) (order.filter fun e => e.op.var = a) (m.mem a) := by
  obtain ⟨order, hl⟩ := (atomicOutline A).linearizable hrun
  exact ⟨order, hl, legal_onWord hl.legal a⟩

/-- **No update is lost.** -/
theorem atomic_sum (hrun : AtomicRun mem link h m) {a : A}
    (hcount : ∀ i p op, .call i p op ∈ h → op.var = a → op.Counts)
    (hret : ∀ i p op, .call i p op ∈ h → op.var = a → ∃ r, .ret i p r ∈ h) :
    m.mem a = mem a + ((callsOn a h).map fun c => c.2.delta).sum := by
  obtain ⟨order, hl, hlegal⟩ := exists_legal hrun a
  have hperm := hl.perm (fun op => op.var = a) (by
    intro i op hmem hop
    obtain ⟨p, hc⟩ := mem_calls.mp hmem
    obtain ⟨r, hr⟩ := hret i p op hc (by simpa using hop)
    exact ⟨p, r, hr⟩)
  rw [legal_counts hlegal (by
    intro e he
    obtain ⟨hmem, hop⟩ := List.mem_filter.mp he
    obtain ⟨p, hc⟩ := hl.called e hmem
    exact hcount _ p e.op hc (by simpa using hop))]
  have hsum := (hperm.map fun c => c.2.delta).sum_eq
  rw [callsOn, ← hsum, List.filter_map, List.map_map]
  rfl

/-- How many numbers the calls on `a` reserve. -/
def reserved (a : A) (h : List (Event P (AtomicOp A) (Option Word))) : ℕ :=
  ((callsOn a h).map fun c => c.2.amount).sum

theorem sum_filter_amount (a : A) (es : List (Effect (AtomicOp A) (Option Word))) :
    ((es.filter fun e => e.op.var = a).map fun e => e.op.amount).sum =
      (es.map fun e => if e.op.var = a then e.op.amount else 0).sum := by
  induction es with
  | nil => rfl
  | cons e es ih => by_cases ha : e.op.var = a <;> simp [ha, ih]

omit [DecidableEq P] in
theorem reserved_eq (a : A) (h : List (Event P (AtomicOp A) (Option Word))) :
    reserved a h = ((calls h).map fun c => if c.2.var = a then c.2.amount else 0).sum := by
  rw [reserved, callsOn]
  induction calls h with
  | nil => rfl
  | cons c cs ih => by_cases ha : c.2.var = a <;> simp [ha, ih]

/-- **The ranges of numbers that two calls of `atomic_post_add` reserve are disjoint.** -/
theorem atomic_postAdd_disjoint (hrun : AtomicRun mem link h m) {a : A}
    (honly : ∀ i p op, .call i p op ∈ h → op.var = a → op.Reserves) (hroom : reserved a h ≤ 2 ^ 32)
    {i j : ℕ} {p q : P} {n k r s : Word} (hne : i ≠ j) (hi : .call i p (.postAdd a n) ∈ h)
    (hri : .ret i p (some r) ∈ h) (hj : .call j q (.postAdd a k) ∈ h) (hrj : .ret j q (some s) ∈ h)
    (x : Word) : ¬((x - r).toNat < n.toNat ∧ (x - s).toNat < k.toNat) := by
  obtain ⟨order, hl, hlegal⟩ := exists_legal hrun a
  set es := order.filter fun e => e.op.var = a with hes
  have hmem : ∀ {i p n r}, .call i p (.postAdd a n) ∈ h → .ret i p (some r) ∈ h →
      (⟨i, .postAdd a n, some r⟩ : Effect (AtomicOp A) (Option Word)) ∈ es := by
    intro i p n r hc hr
    obtain ⟨op, hc', he⟩ := hl.returned i p (some r) hr
    obtain ⟨-, rfl⟩ := hl.unique hc hc'
    exact List.mem_filter.mpr ⟨he, by simp [AtomicOp.var]⟩
  have hreserves : ∀ e ∈ es, e.op.Reserves := by
    intro e he
    obtain ⟨hmem, hop⟩ := List.mem_filter.mp he
    obtain ⟨p, hc⟩ := hl.called e hmem
    exact honly _ p e.op hc (by simpa using hop)
  have hsum : (es.map fun e => e.op.amount).sum ≤ 2 ^ 32 := by
    rw [hes, sum_filter_amount]
    refine (hl.sum_le fun op => if op.var = a then op.amount else 0).trans ?_
    rw [← reserved_eq]
    exact hroom
  obtain ⟨fs, gs, hsplit⟩ := List.mem_iff_append.mp (hmem hi hri)
  rw [hsplit] at hlegal hreserves hsum
  have hj' := hmem hj hrj
  rw [hsplit, List.mem_append, List.mem_cons] at hj'
  rcases hj' with hj' | heq | hj'
  · -- the second call came first
    obtain ⟨fs₁, fs₂, rfl⟩ := List.mem_iff_append.mp hj'
    rw [List.append_assoc, List.cons_append] at hlegal hreserves hsum
    exact fun hx => legal_disjoint hlegal hreserves hsum x hx.symm
  · injection heq with hij
    exact absurd hij.symm hne
  · obtain ⟨gs₁, gs₂, rfl⟩ := List.mem_iff_append.mp hj'
    exact legal_disjoint hlegal hreserves hsum x

/-- **A signal is consumed once.**  As many calls of `atomic_test_and_set` find 0 as the variable was set
to 0. -/
theorem atomic_testAndSet_once (hrun : AtomicRun mem link h m) {a : A}
    (hsignals : ∀ i p op, .call i p op ∈ h → op.var = a → op.Signals) {is : List ℕ} (hnodup : is.Nodup)
    (hfound : ∀ i ∈ is, ∃ p, .call i p (.testAndSet a) ∈ h ∧ .ret i p (some 0) ∈ h) :
    is.length ≤ (callsOn a h).countP (fun c => c.2.clears) + (if mem a = 0 then 1 else 0) := by
  obtain ⟨order, hl, hlegal⟩ := exists_legal hrun a
  set es := order.filter fun e => e.op.var = a with hes
  have hsub : is ⊆ (es.filter foundZero).map Effect.id := by
    intro i hi
    obtain ⟨p, hc, hr⟩ := hfound i hi
    obtain ⟨op, hc', he⟩ := hl.returned i p (some 0) hr
    obtain ⟨-, rfl⟩ := hl.unique hc hc'
    refine List.mem_map.mpr ⟨_, List.mem_filter.mpr ⟨List.mem_filter.mpr ⟨he, ?_⟩, ?_⟩, rfl⟩
    · simp [AtomicOp.var]
    · simp [foundZero]
  have hlength : is.length ≤ es.countP foundZero := by
    rw [List.countP_eq_length_filter, ← List.length_map Effect.id]
    exact (hnodup.subperm hsub).length_le
  have hcount := legal_foundZero hlegal (by
    intro e he
    obtain ⟨hmem, hop⟩ := List.mem_filter.mp he
    obtain ⟨p, hc⟩ := hl.called e hmem
    exact hsignals _ p e.op hc (by simpa using hop))
  have hclears : es.countP (fun e => e.op.clears) ≤ (callsOn a h).countP fun c => c.2.clears := by
    rw [hes, callsOn, List.countP_filter, List.countP_filter]
    exact hl.countP_le fun op => op.clears && decide (op.var = a)
  omega

end Runs

/-! ### Two runs -/

/-- The variable `dorder_signal` is set and tested twice. -/
def signalled : List (Choice Unit Operand (AtomicOp Unit)) :=
  List.flatten [[.call () (.set () 0) fun _ => 3, .exec (), .ret (), .call () (.testAndSet ()) fun _ => 3],
    List.replicate 7 (.exec ()), [.ret (), .call () (.testAndSet ()) fun _ => 3],
    List.replicate 4 (.exec ()), [.ret ()]]

/-- What is seen of it. -/
def signalledHistory : List (Event Unit (AtomicOp Unit) (Option Word)) :=
  [.call 0 () (.set () 0), .ret 0 () none, .call 1 () (.testAndSet ()), .ret 1 () (some 0),
    .call 2 () (.testAndSet ()), .ret 2 () (some 1)]

theorem signalled_run : ∃ m, AtomicRun (fun _ => 1) (fun _ => none) signalledHistory m := by
  have hplay : (play (Machine.step (atomicCode Unit)) signalled
      (Machine.start (fun _ => 1) fun _ => none)).map Prod.fst = some signalledHistory := by decide +kernel
  obtain ⟨⟨h, m⟩, hm, rfl⟩ := Option.map_eq_some_iff.mp hplay
  exact ⟨m, Run.refl.of_play hm⟩

theorem atomic_testAndSet_once_signalled :
    [1].length ≤ (callsOn () signalledHistory).countP (fun c => c.2.clears) + (if (1 : Word) = 0 then 1 else 0) := by
  obtain ⟨m, hrun⟩ := signalled_run
  refine atomic_testAndSet_once hrun ?_ (List.nodup_singleton 1) ?_
  · intro i p op hmem _
    simp only [signalledHistory, List.mem_cons, Event.call.injEq, List.not_mem_nil, reduceCtorEq] at hmem
    rcases hmem with ⟨_, _, rfl⟩ | h | ⟨_, _, rfl⟩ | h | ⟨_, _, rfl⟩ | h | h <;> trivial
  · intro i hi
    obtain rfl := List.mem_singleton.mp hi
    exact ⟨(), by decide, by decide⟩

theorem overtaken_reserves : ∀ i p op, .call i p op ∈ overtakenHistory → op.var = () → op.Reserves := by
  intro i p op hmem _
  simp only [overtakenHistory, List.mem_cons, Event.call.injEq, List.not_mem_nil, reduceCtorEq] at hmem
  rcases hmem with ⟨_, _, rfl⟩ | ⟨_, _, rfl⟩ | h | h | h <;> trivial

theorem atomic_sum_overtaken : ∃ m, AtomicRun (fun _ => 5) (fun _ => none) overtakenHistory m ∧
    m.mem () = 5 + ((callsOn () overtakenHistory).map fun c => c.2.delta).sum := by
  obtain ⟨m, hrun, -⟩ := overtaken_run
  refine ⟨m, hrun, atomic_sum hrun (fun i p op hmem hop => (overtaken_reserves i p op hmem hop).counts) ?_⟩
  intro i p op hmem _
  simp only [overtakenHistory, List.mem_cons, Event.call.injEq, List.not_mem_nil, reduceCtorEq] at hmem
  rcases hmem with ⟨rfl, rfl, rfl⟩ | ⟨rfl, rfl, rfl⟩ | h | h | h
  · exact ⟨some 6, by decide⟩
  · exact ⟨some 5, by decide⟩
  all_goals exact h.elim

theorem atomic_postAdd_disjoint_overtaken : ∃ m, AtomicRun (fun _ => 5) (fun _ => none) overtakenHistory m ∧
    ∀ x : Word, ¬((x - 6).toNat < (1 : Word).toNat ∧ (x - 5).toNat < (1 : Word).toNat) := by
  obtain ⟨m, hrun, -⟩ := overtaken_run
  refine ⟨m, hrun, fun x => ?_⟩
  exact atomic_postAdd_disjoint (p := 0) (q := 1) hrun overtaken_reserves (by decide)
    (show 0 ≠ 1 by decide) (by decide) (by decide) (by decide) (by decide) x

end Kalisto
