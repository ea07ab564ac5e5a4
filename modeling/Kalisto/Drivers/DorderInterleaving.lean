import Kalisto.Drivers.Dorder

/-!
# The dorder mailbox under interleaving

`dorder_send` in its steps (test, reservation of an index, store of the message) and `dorder_handle` in
its steps for each message, for any number of senders and one handler.  The state carries two records:
the messages of the reservations in the order of the reserved indices, and how often the handler has
advanced the tail.

The head is published before the message is stored, so the handler can read a slot too early:

* `dorder_interleaving` — when the handler reads a slot only after the sender that reserved it has
  stored its message, every message handed over is the one of that sender;
* `dorder_reads_early` — a sender preempted between reservation and store loses its message.
-/

namespace Kalisto

/-- Where a sender is in `dorder_send`. -/
inductive SenderPc where
  /-- Not in a call. -/
  | out
  /-- In the busy wait. -/
  | test (msg : Word)
  /-- Before `atomic_post_add`. -/
  | reserve (msg : Word)
  /-- Before the store to index `i`; the reservation has the number `n`. -/
  | store (i : Fin msgBufSize) (msg : Word) (n : ℕ)

/-- Where the handler is in `dorder_handle`. -/
inductive HandlerPc where
  /-- Not in a call. -/
  | out
  /-- Before the test of the loop. -/
  | test
  /-- Before the read of the slot. -/
  | read
  /-- Before `atomic_add` to the tail. -/
  | advance (msg : Word)
  /-- Before `dorder_receive`. -/
  | receive (msg : Word)

/-- The mailbox, the senders and the handler, and the records. -/
structure DorderState where
  mb : Mailbox
  sender : ℕ → SenderPc
  handler : HandlerPc
  reserved : List Word
  taken : ℕ
  received : List Word

namespace DorderState

/-- The state at boot. -/
def boot : DorderState := ⟨⟨0, 0, fun _ => 0⟩, fun _ => .out, .out, [], 0, []⟩

/-- Sender `t` goes on at `pc`. -/
def goto (s : DorderState) (t : ℕ) (pc : SenderPc) : DorderState :=
  { s with sender := Function.update s.sender t pc }

/-- One step of a sender or of the handler.  The handler reads a slot only in states with `C`. -/
inductive Step (C : DorderState → Prop) (s : DorderState) : DorderState → Prop
  | call (t : ℕ) (msg : Word) (h : s.sender t = .out) : Step C s (s.goto t (.test msg))
  | wait (t : ℕ) (msg : Word) (h : s.sender t = .test msg) (hfull : s.mb.bufferFull = true) :
      Step C s s
  | pass (t : ℕ) (msg : Word) (h : s.sender t = .test msg) (hfull : s.mb.bufferFull = false) :
      Step C s (s.goto t (.reserve msg))
  | reserve (t : ℕ) (msg : Word) (h : s.sender t = .reserve msg) :
      Step C s { s.goto t (.store (slot s.mb.reserve.1) msg s.reserved.length) with
        mb := s.mb.reserve.2, reserved := s.reserved ++ [msg] }
  | store (t : ℕ) (i : Fin msgBufSize) (msg : Word) (n : ℕ) (h : s.sender t = .store i msg n) :
      Step C s { s.goto t .out with mb := s.mb.store i msg }
  | enter (h : s.handler = .out) : Step C s { s with handler := .test }
  | more (h : s.handler = .test) (hne : s.mb.msgTail ≠ s.mb.msgHead) :
      Step C s { s with handler := .read }
  | leave (h : s.handler = .test) (heq : s.mb.msgTail = s.mb.msgHead) :
      Step C s { s with handler := .out }
  | read (h : s.handler = .read) (hC : C s) :
      Step C s { s with handler := .advance (s.mb.msgBuffer (slot s.mb.msgTail)) }
  | advance (msg : Word) (h : s.handler = .advance msg) :
      Step C s { s with
        handler := .receive msg
        mb := { s.mb with msgTail := s.mb.msgTail + 1 }
        taken := s.taken + 1 }
  | receive (msg : Word) (h : s.handler = .receive msg) :
      Step C s { s with handler := .test, received := s.received ++ [msg] }

/-- At most 127 reserved messages are not handled. -/
def Bounded (s : DorderState) : Prop := s.reserved.length ≤ s.taken + 127

/-- A run in which at most 127 reserved messages are unhandled at any time. -/
def Run (C : DorderState → Prop) (s : DorderState) : Prop :=
  Relation.ReflTransGen (fun s s' => Step C s s' ∧ s'.Bounded) boot s

/-- The sender that reserved the index of the tail is not between its reservation and its store. -/
def TailStored (s : DorderState) : Prop := ∀ t i msg, s.sender t ≠ .store i msg s.taken

/-! ### The invariant -/

/-- What the handler holds is what the sender of the index has sent. -/
def HandlerOk (s : DorderState) : Prop :=
  match s.handler with
  | .read => s.taken < s.reserved.length
  | .advance msg => s.reserved[s.taken]? = some msg ∧ s.TailStored
  | .receive msg => s.received.length + 1 = s.taken ∧ s.reserved[s.received.length]? = some msg
  | _ => True

/-- The invariant of runs in which the handler does not read too early. -/
structure Inv (s : DorderState) : Prop where
  head : s.mb.msgHead = BitVec.ofNat 32 s.reserved.length
  tail : s.mb.msgTail = BitVec.ofNat 32 s.taken
  taken_le : s.taken ≤ s.reserved.length
  bounded : s.Bounded
  received : s.received <+: s.reserved
  /-- Outside `dorder_receive` everything taken has been handed over. -/
  count : (∃ msg, s.handler = .receive msg) ∨ s.received.length = s.taken
  handler : s.HandlerOk
  /-- A sender before its store holds an index that was not taken. -/
  sender : ∀ t i msg n, s.sender t = .store i msg n →
    s.taken ≤ n ∧ i = slot (BitVec.ofNat 32 n) ∧ s.reserved[n]? = some msg
  /-- The other messages are in the buffer. -/
  buffer : ∀ k msg, s.taken ≤ k → s.reserved[k]? = some msg →
    (∀ t i msg', s.sender t ≠ .store i msg' k) → s.mb.msgBuffer (slot (BitVec.ofNat 32 k)) = msg

theorem goto_sender (s : DorderState) (t u : ℕ) (pc : SenderPc) :
    (s.goto t pc).sender u = if u = t then pc else s.sender u := by
  simp [goto, Function.update_apply]

theorem inv_boot : boot.Inv := by
  refine ⟨rfl, rfl, le_rfl, by simp [Bounded, boot], List.prefix_refl _, Or.inr rfl, trivial, ?_, ?_⟩
  · intro t i msg n h
    cases h
  · intro k msg _ h
    simp [boot] at h

/-- A sender moves where it holds no index, before and after. -/
theorem Inv.goto {s : DorderState} (hi : s.Inv) {t : ℕ} {pc : SenderPc}
    (hold : ∀ i msg n, s.sender t ≠ .store i msg n) (hnew : ∀ i msg n, pc ≠ .store i msg n) :
    (s.goto t pc).Inv := by
  have hsame : ∀ u i msg n, (s.goto t pc).sender u = .store i msg n ↔
      s.sender u = .store i msg n := by
    intro u i msg n
    rw [goto_sender]
    split
    · rename_i hu
      subst hu
      exact ⟨fun h => absurd h (hnew i msg n), fun h => absurd h (hold i msg n)⟩
    · exact Iff.rfl
  refine ⟨hi.head, hi.tail, hi.taken_le, hi.bounded, hi.received, hi.count, ?_, ?_, ?_⟩
  · have hh := hi.handler
    simp only [HandlerOk, DorderState.goto, TailStored] at hh ⊢
    cases hpc : s.handler with
    | advance msg =>
      rw [hpc] at hh
      exact ⟨hh.1, fun u i m hu => hh.2 u i m ((hsame u i m _).mp hu)⟩
    | _ =>
      rw [hpc] at hh
      exact hh
  · intro u i msg n hu
    exact hi.sender u i msg n ((hsame u i msg n).mp hu)
  · intro k msg hk hmsg hno
    exact hi.buffer k msg hk hmsg fun u i m hu => hno u i m ((hsame u i m k).mpr hu)

/-- **A sender reserves an index.** -/
theorem Inv.reserve {s : DorderState} (hi : s.Inv) {t : ℕ} {msg : Word}
    (h : s.sender t = .reserve msg)
    (hb : s.reserved.length + 1 ≤ s.taken + 127) :
    ({ s.goto t (.store (slot s.mb.reserve.1) msg s.reserved.length) with
      mb := s.mb.reserve.2, reserved := s.reserved ++ [msg] } : DorderState).Inv := by
  have hkeep : ∀ (k : ℕ) (m : Word), s.reserved[k]? = some m → (s.reserved ++ [msg])[k]? = some m := by
    intro k m hk
    obtain ⟨hlt, hm⟩ := List.getElem?_eq_some_iff.mp hk
    rw [List.getElem?_append_left hlt, hk]
  have htaken := hi.taken_le
  refine ⟨?_, hi.tail, ?_, ?_, hi.received.trans (List.prefix_append _ _), hi.count, ?_, ?_, ?_⟩
  · simp only [Mailbox.reserve, hi.head, List.length_append, List.length_singleton]
    bv_omega
  · simp only [DorderState.goto, List.length_append, List.length_singleton]
    omega
  · simp only [Bounded, DorderState.goto, List.length_append, List.length_singleton]
    exact hb
  · have hh := hi.handler
    simp only [HandlerOk, DorderState.goto, TailStored] at hh ⊢
    cases hpc : s.handler with
    | read =>
      rw [hpc] at hh
      simp only [List.length_append, List.length_singleton]
      simp only at hh
      omega
    | advance m =>
      rw [hpc] at hh
      obtain ⟨h1, h2⟩ := hh
      obtain ⟨hlt, -⟩ := List.getElem?_eq_some_iff.mp h1
      refine ⟨hkeep _ _ h1, fun u i m' hu => ?_⟩
      rw [Function.update_apply] at hu
      split at hu
      · -- the new reservation is behind the one that is being taken
        injection hu with _ _ hn
        omega
      · exact h2 u i m' hu
    | receive m =>
      rw [hpc] at hh
      exact ⟨hh.1, hkeep _ _ hh.2⟩
    | _ => trivial
  · intro u i m n hu
    simp only [DorderState.goto, Function.update_apply] at hu ⊢
    split at hu
    · cases hu
      refine ⟨htaken, by rw [Mailbox.reserve, hi.head], by simp⟩
    · obtain ⟨h1, h2, h3⟩ := hi.sender u i m n hu
      exact ⟨h1, h2, hkeep _ _ h3⟩
  · intro k m hk hm hno
    simp only [DorderState.goto] at hk hm hno ⊢
    have hkl : k ≠ s.reserved.length := by
      rintro rfl
      exact hno t (slot s.mb.reserve.1) msg (by simp)
    have hlt : k < s.reserved.length := by
      have := (List.getElem?_eq_some_iff.mp hm).1
      simp only [List.length_append, List.length_singleton] at this
      omega
    rw [List.getElem?_append_left hlt] at hm
    refine hi.buffer k m hk hm fun u i m' hu => ?_
    have hut : u ≠ t := by
      rintro rfl
      rw [h] at hu
      cases hu
    exact hno u i m' (by rw [Function.update_of_ne hut, hu])

/-- **A sender stores its message.** -/
theorem Inv.store {s : DorderState} (hi : s.Inv) {t n : ℕ} {i : Fin msgBufSize} {msg : Word}
    (h : s.sender t = .store i msg n) :
    ({ s.goto t .out with mb := s.mb.store i msg } : DorderState).Inv := by
  obtain ⟨hn, hslot, hmsg⟩ := hi.sender t i msg n h
  have hb := hi.bounded
  simp only [Bounded] at hb
  have hothers : ∀ u j m k, (s.goto t .out).sender u = .store j m k → s.sender u = .store j m k := by
    intro u j m k hu
    rw [goto_sender] at hu
    split at hu
    · cases hu
    · exact hu
  refine ⟨hi.head, hi.tail, hi.taken_le, hi.bounded, hi.received, hi.count, ?_, ?_, ?_⟩
  · have hh := hi.handler
    simp only [HandlerOk, TailStored] at hh ⊢
    have hpc : ({ s.goto t .out with mb := s.mb.store i msg } : DorderState).handler = s.handler := rfl
    rw [hpc]
    cases hcase : s.handler with
    | advance m =>
      rw [hcase] at hh
      exact ⟨hh.1, fun u j m' hu => hh.2 u j m' (hothers u j m' _ hu)⟩
    | _ =>
      rw [hcase] at hh
      exact hh
  · exact fun u j m k hu => hi.sender u j m k (hothers u j m k hu)
  · intro k m hk hm hno
    simp only [DorderState.goto] at hk hm
    have hklt := (List.getElem?_eq_some_iff.mp hm).1
    have hnlt := (List.getElem?_eq_some_iff.mp hmsg).1
    simp only [Mailbox.store]
    by_cases hkn : k = n
    · subst hkn
      rw [hslot, Function.update_self]
      exact Option.some.inj (hmsg.symm.trans hm)
    · -- two unhandled messages are in different slots
      have hne : slot (BitVec.ofNat 32 k) ≠ i := by
        rw [hslot]
        intro heq
        have hmod := congrArg Fin.val heq
        rw [DorderRun.slot_ofNat, DorderRun.slot_ofNat] at hmod
        simp only [msgBufSize] at hmod
        omega
      rw [Function.update_of_ne hne]
      refine hi.buffer k m hk hm fun u j m' hu => ?_
      have hut : u ≠ t := by
        rintro rfl
        rw [h] at hu
        cases hu
        exact hkn rfl
      exact hno u j m' (by
        show (s.goto t .out).sender u = _
        rw [goto_sender, if_neg hut, hu])

/-- **The handler moves**, when it holds what it should. -/
theorem Inv.handlerAt {s : DorderState} (hi : s.Inv) {pc : HandlerPc}
    (hcount : s.received.length = s.taken)
    (hok : ({ s with handler := pc } : DorderState).HandlerOk) :
    ({ s with handler := pc } : DorderState).Inv :=
  ⟨hi.head, hi.tail, hi.taken_le, hi.bounded, hi.received, Or.inr hcount, hok, hi.sender, hi.buffer⟩

theorem Inv.count_of {s : DorderState} (hi : s.Inv) (h : ∀ msg, s.handler ≠ .receive msg) :
    s.received.length = s.taken := by
  rcases hi.count with ⟨msg, hmsg⟩ | hcount
  · exact absurd hmsg (h msg)
  · exact hcount

/-- The handler sees a message exactly when one is reserved and not taken. -/
theorem Inv.more {s : DorderState} (hi : s.Inv) (hne : s.mb.msgTail ≠ s.mb.msgHead) :
    s.taken < s.reserved.length := by
  have hle := hi.taken_le
  rcases Nat.lt_or_ge s.taken s.reserved.length with h | h
  · exact h
  · refine absurd ?_ hne
    rw [hi.head, hi.tail, show s.taken = s.reserved.length by omega]

/-- **The handler advances the tail.** -/
theorem Inv.advance {s : DorderState} (hi : s.Inv) {msg : Word} (h : s.handler = .advance msg) :
    ({ s with
      handler := .receive msg
      mb := { s.mb with msgTail := s.mb.msgTail + 1 }
      taken := s.taken + 1 } : DorderState).Inv := by
  have hh := hi.handler
  simp only [HandlerOk, h] at hh
  obtain ⟨hmsg, hstored⟩ := hh
  have hlt := (List.getElem?_eq_some_iff.mp hmsg).1
  have hcount := hi.count_of fun m hm => by rw [h] at hm; cases hm
  have hb := hi.bounded
  simp only [Bounded] at hb
  refine ⟨hi.head, ?_, hlt, ?_, hi.received, Or.inl ⟨msg, rfl⟩, ⟨by simp only; omega, ?_⟩, ?_, ?_⟩
  · simp only [hi.tail]
    bv_omega
  · simp only [Bounded]
    omega
  · rw [hcount]
    exact hmsg
  · intro t i m n hs
    obtain ⟨h1, h2, h3⟩ := hi.sender t i m n hs
    refine ⟨?_, h2, h3⟩
    have hne : n ≠ s.taken := by
      rintro rfl
      exact hstored t i m hs
    simp only
    omega
  · intro k m hk hm hno
    exact hi.buffer k m (by simp only at hk; omega) hm hno

/-- A prefix grows by the next element. -/
theorem prefix_snoc {α : Type} {xs ys : List α} {y : α} (h : xs <+: ys)
    (hy : ys[xs.length]? = some y) : xs ++ [y] <+: ys := by
  obtain ⟨rest, rfl⟩ := h
  rw [List.getElem?_append_right le_rfl, Nat.sub_self] at hy
  cases rest with
  | nil => simp at hy
  | cons z rest =>
    simp only [List.getElem?_cons_zero, Option.some.injEq] at hy
    subst hy
    exact ⟨rest, by simp⟩

/-- **One step.** -/
theorem Inv.step {s s' : DorderState} (hi : s.Inv) (h : Step TailStored s s') (hb : s'.Bounded) :
    s'.Inv := by
  cases h with
  | call t msg h => exact hi.goto (fun i m n hs => by rw [h] at hs; cases hs) fun i m n hs => by cases hs
  | wait t msg h hfull => exact hi
  | pass t msg h hfull =>
    exact hi.goto (fun i m n hs => by rw [h] at hs; cases hs) fun i m n hs => by cases hs
  | reserve t msg h =>
    refine hi.reserve h ?_
    simpa [Bounded, DorderState.goto] using hb
  | store t i msg n h => exact hi.store h
  | enter h => exact hi.handlerAt (hi.count_of fun m hm => by rw [h] at hm; cases hm) trivial
  | more h hne => exact hi.handlerAt (hi.count_of fun m hm => by rw [h] at hm; cases hm) (hi.more hne)
  | leave h heq => exact hi.handlerAt (hi.count_of fun m hm => by rw [h] at hm; cases hm) trivial
  | read h hC =>
    have hh := hi.handler
    simp only [HandlerOk, h] at hh
    refine hi.handlerAt (hi.count_of fun m hm => by rw [h] at hm; cases hm) ⟨?_, hC⟩
    have hval := hi.buffer s.taken _ le_rfl (List.getElem?_eq_getElem hh) hC
    rw [hi.tail, hval]
    exact List.getElem?_eq_getElem hh
  | advance msg h => exact hi.advance h
  | receive msg h =>
    have hh := hi.handler
    simp only [HandlerOk, h] at hh
    obtain ⟨hcount, hmsg⟩ := hh
    refine ⟨hi.head, hi.tail, hi.taken_le, hi.bounded, prefix_snoc hi.received hmsg, Or.inr ?_,
      trivial, hi.sender, hi.buffer⟩
    simpa using hcount

theorem inv_of_run {s : DorderState} (h : Run TailStored s) : s.Inv := by
  induction h with
  | refl => exact inv_boot
  | tail _ hstep ih => exact ih.step hstep.1 hstep.2

/-- **Messages are intact when slots are not read too early.**  In every run in which the handler reads the
slot of the tail only while the sender that reserved it is not before its store, the messages handed
to `dorder_receive` are those of the senders in the order of their reservations, and no message that
was taken is still to be stored. -/
theorem dorder_interleaving {s : DorderState} (h : Run TailStored s) :
    s.received <+: s.reserved ∧ ∀ t i msg n, s.sender t = .store i msg n → s.taken ≤ n := by
  have hi := inv_of_run h
  exact ⟨hi.received, fun t i msg n hs => (hi.sender t i msg n hs).1⟩

theorem Run.bounded {C : DorderState → Prop} {s : DorderState} (h : Run C s) : s.Bounded := by
  cases h with
  | refl => simp [Bounded, boot]
  | tail _ hstep => exact hstep.2

/-- A call of `dorder_send` up to its store. -/
theorem Run.reserves {C : DorderState → Prop} {s : DorderState} (h : Run C s) {t : ℕ} (msg : Word)
    (hout : s.sender t = .out) (hfull : s.mb.bufferFull = false)
    (hb : s.reserved.length + 1 ≤ s.taken + 127) :
    Run C { s.goto t (.store (slot s.mb.reserve.1) msg s.reserved.length) with
      mb := s.mb.reserve.2, reserved := s.reserved ++ [msg] } := by
  have hpc : ∀ pc, (s.goto t pc).sender t = pc := fun pc => by rw [goto_sender, if_pos rfl]
  have hagain : ∀ pc pc', (s.goto t pc).goto t pc' = s.goto t pc' := fun pc pc' => by simp [goto]
  have htest := h.tail ⟨Step.call t msg hout, h.bounded⟩
  have hpass := htest.tail ⟨Step.pass t msg (hpc _) hfull, h.bounded⟩
  rw [hagain] at hpass
  refine hpass.tail ⟨?_, by simpa [Bounded, goto] using hb⟩
  have hstep := Step.reserve (C := C) t msg (hpc (.reserve msg))
  rwa [hagain] at hstep

/-- The rest of the call. -/
theorem Run.stores {C : DorderState → Prop} {s : DorderState} (h : Run C s) {t n : ℕ}
    {i : Fin msgBufSize} {msg : Word} (hs : s.sender t = .store i msg n) :
    Run C { s.goto t .out with mb := s.mb.store i msg } :=
  h.tail ⟨Step.store t i msg n hs, h.bounded⟩

theorem Run.enters {C : DorderState → Prop} {s : DorderState} (h : Run C s) (hout : s.handler = .out) :
    Run C { s with handler := .test } :=
  h.tail ⟨Step.enter hout, h.bounded⟩

/-- One turn of the loop of `dorder_handle`. -/
theorem Run.handles {C : DorderState → Prop} {s : DorderState} (h : Run C s) (htest : s.handler = .test)
    (hne : s.mb.msgTail ≠ s.mb.msgHead) (hC : C { s with handler := .read }) :
    Run C { s with
      handler := .test
      mb := { s.mb with msgTail := s.mb.msgTail + 1 }
      taken := s.taken + 1
      received := s.received ++ [s.mb.msgBuffer (slot s.mb.msgTail)] } := by
  have hroom : s.reserved.length ≤ s.taken + 1 + 127 := Nat.le_succ_of_le h.bounded
  have hread := (h.tail ⟨Step.more htest hne, h.bounded⟩).tail ⟨Step.read rfl hC, h.bounded⟩
  exact (hread.tail ⟨Step.advance _ rfl, hroom⟩).tail ⟨Step.receive _ rfl, hroom⟩

/-- **A slot is read too early.**  A sender reserves the first index and is preempted; the handler finds
the head advanced, and hands over what the slot held before. -/
theorem dorder_reads_early :
    ∃ s, Run (fun _ => True) s ∧ s.reserved = [7] ∧ s.received = [0] ∧
      ¬ s.received <+: s.reserved := by
  have hboot : Run (fun _ => True) boot := Relation.ReflTransGen.refl
  have hreserved := hboot.reserves (t := 0) 7 rfl rfl (by simp [boot])
  have hrun := (hreserved.enters rfl).handles rfl (by decide) trivial
  refine ⟨_, hrun, rfl, rfl, ?_⟩
  intro hpre
  have hfirst := List.cons_prefix_cons.mp hpre
  exact absurd hfirst.1 (by decide)

/-- Sender 1 is preempted between its reservation and its store; in the meantime the handler takes the
message of sender 0, and that of sender 1 when it is stored. -/
theorem dorder_interleaving_twoSenders :
    ∃ s s', Run TailStored s ∧ s.sender 1 = .store (slot 1) 8 1 ∧ s.received = [7] ∧
      s.received <+: s.reserved ∧ s.taken ≤ 1 ∧
      Run TailStored s' ∧ s'.received = [7, 8] ∧ s'.received <+: s'.reserved := by
  have hboot : Run TailStored boot := Relation.ReflTransGen.refl
  have hfirst := hboot.reserves (t := 0) 7 rfl rfl (by simp [boot])
  have hboth := hfirst.reserves (t := 1) 8 rfl rfl (by simp [boot, goto])
  have hstored := hboth.stores (t := 0) rfl
  have hmid := (hstored.enters rfl).handles rfl (by decide) fun t i msg ht => by
    -- the sender before its store holds the index after that of the tail
    rcases t with _ | _ | t <;> cases ht
  have hlate := hmid.stores (t := 1) rfl
  have hend := hlate.handles rfl (by decide) fun t i msg ht => by
    rcases t with _ | _ | t <;> cases ht
  obtain ⟨hpre, hbehind⟩ := dorder_interleaving hmid
  exact ⟨_, _, hmid, rfl, rfl, hpre, hbehind 1 (slot 1) 8 1 rfl, hend, rfl, (dorder_interleaving hend).1⟩

end DorderState

end Kalisto
