import Kalisto.Include
import Kalisto.Lib.Outcome

/-!
# The dorder mailbox

The message buffer of `drivers/dorder.c` and whole calls of `dorder_send` and `dorder_handle`.  The head
and the tail are free-running 32-bit counters, reduced modulo the buffer size when they index; the
test for a full buffer compares the counters themselves.  `dorder_receive` is the end of the line: a
run records the messages that are handed to it.

* `dorderHandle_returns` — a complete `dorder_handle` hands over the slots from the tail to the head;
* `dorder_lossless` — in a run whose sends find fewer than 128 unhandled messages nothing is lost;
* `dorder_overwrites` — the test for a full buffer lets a 129th message through.
-/

namespace Kalisto

/-- `MSG_BUF_SIZE`. -/
def msgBufSize : ℕ := 128

/-- `msg_head`, `msg_tail` and `msg_buffer`. -/
structure Mailbox where
  msgHead : Word
  msgTail : Word
  msgBuffer : Fin msgBufSize → Word

/-- A counter reduced to an index, `% sizeof_array (msg_buffer)`. -/
def slot (i : Word) : Fin msgBufSize := ⟨i.toNat % msgBufSize, Nat.mod_lt _ (by decide)⟩

namespace Mailbox

/-- The test of the busy wait in `dorder_send`. -/
def bufferFull (mb : Mailbox) : Bool := mb.msgTail == mb.msgHead + 1

/-- `atomic_post_add (&msg_head, 1)`: the old head, and the mailbox with the new one. -/
def reserve (mb : Mailbox) : Word × Mailbox := (mb.msgHead, { mb with msgHead := mb.msgHead + 1 })

/-- `msg_buffer [i] = msg`. -/
def store (mb : Mailbox) (i : Fin msgBufSize) (msg : Word) : Mailbox :=
  { mb with msgBuffer := Function.update mb.msgBuffer i msg }

/-- `dorder_send`.  Nothing empties the buffer during the call, so the busy wait on a full buffer does
not end. -/
def dorderSend (mb : Mailbox) (cpuid msg : Word) : Outcome Fault Mailbox :=
  if cpuid ≠ 0 then .fault .assertion
  else if mb.bufferFull then .timeout
  else .ok (mb.reserve.2.store (slot mb.reserve.1) msg)

/-- One round of the loop of `dorder_handle`, with the messages handed to `dorder_receive`. -/
def handleStep (p : Mailbox × List Word) :
    Outcome Fault (Mailbox × List Word ⊕ Mailbox × List Word) :=
  if p.1.msgTail ≠ p.1.msgHead then
    .ok (.inl ({ p.1 with msgTail := p.1.msgTail + 1 },
      p.2 ++ [p.1.msgBuffer (slot p.1.msgTail)]))
  else .ok (.inr p)

/-- `dorder_handle`. -/
def dorderHandle (fuel : ℕ) (mb : Mailbox) (received : List Word) :
    Outcome Fault (Mailbox × List Word) :=
  Outcome.loop handleStep fuel (mb, received)

/-- The messages between the tail and the head, as the buffer holds them. -/
def waiting (mb : Mailbox) : List Word :=
  (List.range (mb.msgHead - mb.msgTail).toNat).map fun i =>
    mb.msgBuffer (slot (mb.msgTail + BitVec.ofNat 32 i))

theorem waiting_nil {mb : Mailbox} (h : mb.msgTail = mb.msgHead) : mb.waiting = [] := by
  simp [waiting, h]

theorem waiting_cons {mb : Mailbox} (h : mb.msgTail ≠ mb.msgHead) :
    mb.waiting = mb.msgBuffer (slot mb.msgTail) ::
      ({ mb with msgTail := mb.msgTail + 1 } : Mailbox).waiting := by
  have hn : (mb.msgHead - mb.msgTail).toNat = (mb.msgHead - (mb.msgTail + 1)).toNat + 1 := by
    bv_omega
  rw [waiting, hn, List.range_succ_eq_map, List.map_cons, List.map_map]
  congr 1
  · simp
  · refine List.map_congr_left fun i _ => ?_
    have hi : mb.msgTail + BitVec.ofNat 32 (i + 1) = mb.msgTail + 1 + BitVec.ofNat 32 i := by
      bv_omega
    simp only [Function.comp_apply, Nat.succ_eq_add_one, hi]

/-- **`dorder_handle`** hands over every message between the tail and the head. -/
theorem dorderHandle_returns (mb : Mailbox) (received : List Word) :
    Outcome.Returns (fun fuel => dorderHandle fuel mb received)
      ({ mb with msgTail := mb.msgHead }, received ++ mb.waiting) := by
  refine ⟨(mb.msgHead - mb.msgTail).toNat + 1, fun fuel hfuel => ?_⟩
  induction fuel generalizing mb received with
  | zero => omega
  | succ fuel ih =>
    show dorderHandle (fuel + 1) mb received = _
    by_cases h : mb.msgTail = mb.msgHead
    · have hstep : handleStep (mb, received) = .ok (.inr (mb, received)) := by
        simp [handleStep, h]
      rw [dorderHandle, Outcome.loop_exit hstep, waiting_nil h, List.append_nil]
      obtain ⟨head, tail, buffer⟩ := mb
      simp only at h
      rw [h]
    · have hstep : handleStep (mb, received) =
          .ok (.inl ({ mb with msgTail := mb.msgTail + 1 },
            received ++ [mb.msgBuffer (slot mb.msgTail)])) := by
        simp [handleStep, h]
      rw [dorderHandle, Outcome.loop_next hstep, waiting_cons h]
      have hfuel' : (mb.msgHead - (mb.msgTail + 1)).toNat + 1 ≤ fuel := by bv_omega
      have hnext : dorderHandle fuel { mb with msgTail := mb.msgTail + 1 }
          (received ++ [mb.msgBuffer (slot mb.msgTail)]) = _ := ih _ _ hfuel'
      rw [dorderHandle] at hnext
      simpa using hnext

end Mailbox

/-! ### Runs of whole calls -/

/-- A run: the mailbox, the messages sent and the messages handed to `dorder_receive`, in order. -/
structure DorderRun where
  mb : Mailbox
  sent : List Word
  received : List Word

namespace DorderRun

/-- The state at boot. -/
def boot : DorderRun := ⟨⟨0, 0, fun _ => 0⟩, [], []⟩

/-- A complete `dorder_send (0, msg)`. -/
inductive Send (r : DorderRun) : DorderRun → Prop
  | call {mb' : Mailbox} (msg : Word) (h : r.mb.dorderSend 0 msg = .ok mb') :
      Send r ⟨mb', r.sent ++ [msg], r.received⟩

/-- A complete `dorder_handle ()`. -/
inductive Handle (r : DorderRun) : DorderRun → Prop
  | call {mb' : Mailbox} {received' : List Word}
      (h : Outcome.Returns (fun fuel => Mailbox.dorderHandle fuel r.mb r.received) (mb', received')) :
      Handle r ⟨mb', r.sent, received'⟩

/-- A step of a run. -/
def Step (r r' : DorderRun) : Prop := Send r r' ∨ Handle r r'

/-- The buffer has a slot that holds no unhandled message. -/
def Room (r : DorderRun) : Prop := (r.mb.msgHead - r.mb.msgTail).toNat < msgBufSize

/-- A step in which a send finds room. -/
def RoomyStep (r r' : DorderRun) : Prop := (Room r ∧ Send r r') ∨ Handle r r'

theorem handle_iff {r r' : DorderRun} :
    Handle r r' ↔
      r' = ⟨{ r.mb with msgTail := r.mb.msgHead }, r.sent, r.received ++ r.mb.waiting⟩ := by
  constructor
  · rintro ⟨h⟩
    cases h.unique (Mailbox.dorderHandle_returns r.mb r.received)
    rfl
  · rintro rfl
    exact .call (Mailbox.dorderHandle_returns r.mb r.received)

/-! ### The invariant -/

/-- The counters count, and the buffer holds the messages that are not handled yet. -/
structure Inv (r : DorderRun) : Prop where
  head : r.mb.msgHead = BitVec.ofNat 32 r.sent.length
  tail : r.mb.msgTail = BitVec.ofNat 32 r.received.length
  received : r.received <+: r.sent
  pending : r.sent.length ≤ r.received.length + msgBufSize
  buffer : ∀ k, r.received.length ≤ k → ∀ hk : k < r.sent.length,
    r.mb.msgBuffer (slot (BitVec.ofNat 32 k)) = r.sent.get ⟨k, hk⟩

/-- The index of message number `k`. -/
theorem slot_ofNat (k : ℕ) : (slot (BitVec.ofNat 32 k)).val = k % msgBufSize := by
  simp only [slot, msgBufSize, BitVec.toNat_ofNat]
  omega

/-- The number of unhandled messages, from the counters. -/
theorem Inv.waiting_length {r : DorderRun} (hi : r.Inv) :
    (r.mb.msgHead - r.mb.msgTail).toNat = r.sent.length - r.received.length := by
  have hle := hi.received.length_le
  have hpend := hi.pending
  rw [hi.head, hi.tail]
  simp only [msgBufSize] at hpend
  simp only [BitVec.toNat_sub, BitVec.toNat_ofNat]
  omega

theorem inv_boot : boot.Inv := by
  refine ⟨rfl, rfl, List.prefix_refl _, by simp [boot], ?_⟩
  intro k _ hk
  simp [boot] at hk

/-- **A send that finds room** keeps the invariant. -/
theorem Inv.send {r r' : DorderRun} (hi : r.Inv) (hroom : r.Room) (h : Send r r') : r'.Inv := by
  obtain ⟨msg, h⟩ := h
  simp only [Mailbox.dorderSend, ne_eq, not_true_eq_false, if_false] at h
  split at h
  · cases h
  cases h
  have hroom' : r.sent.length < r.received.length + msgBufSize := by
    have hle := hi.received.length_le
    rw [Room, hi.waiting_length] at hroom
    omega
  refine ⟨?_, hi.tail, hi.received.trans (List.prefix_append _ _), ?_, ?_⟩
  · simp only [Mailbox.store, Mailbox.reserve, hi.head, List.length_append, List.length_singleton]
    bv_omega
  · simp only [List.length_append, List.length_singleton]
    omega
  · intro k hk hlt
    simp only [List.length_append, List.length_singleton] at hk hlt
    simp only [Mailbox.store, Mailbox.reserve, hi.head, List.get_eq_getElem]
    by_cases hlast : k = r.sent.length
    · subst hlast
      simp
    · -- an unhandled message is in another slot
      have hne : slot (BitVec.ofNat 32 k) ≠ slot (BitVec.ofNat 32 r.sent.length) := by
        intro heq
        have hmod := congrArg Fin.val heq
        rw [slot_ofNat, slot_ofNat] at hmod
        simp only [msgBufSize] at hmod hroom'
        omega
      rw [Function.update_of_ne hne, List.getElem_append_left (by omega)]
      exact hi.buffer k hk (by omega)

/-- The buffer holds the rest of the sent messages. -/
theorem Inv.waiting_eq {r : DorderRun} (hi : r.Inv) : r.received ++ r.mb.waiting = r.sent := by
  obtain ⟨rest, hrest⟩ := hi.received
  have hlen : r.sent.length = r.received.length + rest.length := by rw [← hrest, List.length_append]
  have hwait : r.mb.waiting = rest := by
    refine List.ext_getElem ?_ fun i h1 h2 => ?_
    · rw [Mailbox.waiting, List.length_map, List.length_range, hi.waiting_length]
      omega
    · have hidx : r.mb.msgTail + BitVec.ofNat 32 i = BitVec.ofNat 32 (r.received.length + i) := by
        rw [hi.tail]
        bv_omega
      have hbuf := hi.buffer (r.received.length + i) (by omega) (by omega)
      simp only [Mailbox.waiting, List.getElem_map, List.getElem_range, hidx, hbuf,
        List.get_eq_getElem, ← hrest]
      rw [List.getElem_append_right (by omega)]
      simp
  rw [hwait, hrest]

/-- **A handle** keeps the invariant, and hands over all messages. -/
theorem Inv.handle {r r' : DorderRun} (hi : r.Inv) (h : Handle r r') :
    r'.Inv ∧ r'.received = r'.sent := by
  rw [handle_iff] at h
  subst h
  have hall := hi.waiting_eq
  refine ⟨⟨hi.head, ?_, ?_, ?_, ?_⟩, hall⟩
  · simp only [hall, hi.head]
  · simp only [hall]
    exact List.prefix_refl _
  · simp only [hall]
    omega
  · intro k hk hlt
    simp only [hall] at hk
    simp only at hlt
    omega

theorem inv_of_run {r : DorderRun} (h : Relation.ReflTransGen RoomyStep boot r) : r.Inv := by
  induction h with
  | refl => exact inv_boot
  | tail _ hstep ih =>
    rcases hstep with ⟨hroom, hsend⟩ | hhandle
    · exact ih.send hroom hsend
    · exact (ih.handle hhandle).1

/-- **Nothing is lost while there is room.**  In every run whose sends find fewer than 128 unhandled
messages, the messages handed to `dorder_receive` are a prefix of the messages sent, every unhandled
message is still in the buffer, and a complete `dorder_handle` hands over all of them. -/
theorem dorder_lossless {r : DorderRun} (h : Relation.ReflTransGen RoomyStep boot r) :
    r.received <+: r.sent ∧
      (∀ k, r.received.length ≤ k → ∀ hk : k < r.sent.length,
        r.mb.msgBuffer (slot (BitVec.ofNat 32 k)) = r.sent.get ⟨k, hk⟩) ∧
      (∃ r', Handle r r') ∧ ∀ r', Handle r r' → r'.sent = r.sent ∧ r'.received = r.sent := by
  have hi := inv_of_run h
  refine ⟨hi.received, hi.buffer, ⟨_, handle_iff.mpr rfl⟩, fun r' hhandle => ?_⟩
  obtain rfl := handle_iff.mp hhandle
  exact ⟨rfl, hi.waiting_eq⟩

/-! ### Without room -/

/-- The messages 0, 1, 2, ... -/
def counting (n : ℕ) : List Word := (List.range n).map (BitVec.ofNat 32)

/-- Sends without a handle in between.  The test for a full buffer does not stop them, and each one writes
its slot whatever is in it. -/
theorem sends_only (n : ℕ) (hn : n < 2 ^ 32 - 1) :
    ∃ mb : Mailbox, Relation.ReflTransGen Step boot ⟨mb, counting n, []⟩ ∧
      mb.msgHead = BitVec.ofNat 32 n ∧ mb.msgTail = 0 ∧
      ∀ k < n, n ≤ k + msgBufSize → mb.msgBuffer (slot (BitVec.ofNat 32 k)) = BitVec.ofNat 32 k := by
  induction n with
  | zero => exact ⟨boot.mb, Relation.ReflTransGen.refl, rfl, rfl, by simp⟩
  | succ n ih =>
    obtain ⟨mb, hrun, hhead, htail, hbuf⟩ := ih (by omega)
    have hfull : mb.bufferFull = false := by
      simp only [Mailbox.bufferFull, hhead, htail, beq_eq_false_iff_ne]
      intro h
      have hnat := congrArg BitVec.toNat h
      rw [BitVec.toNat_add, BitVec.toNat_ofNat, show (0 : Word).toNat = 0 from rfl,
        show (1 : Word).toNat = 1 from rfl] at hnat
      omega
    have hsend : mb.dorderSend 0 (BitVec.ofNat 32 n) =
        .ok (mb.reserve.2.store (slot mb.reserve.1) (BitVec.ofNat 32 n)) := by
      simp [Mailbox.dorderSend, hfull]
    refine ⟨mb.reserve.2.store (slot mb.reserve.1) (BitVec.ofNat 32 n),
      hrun.tail (Or.inl ?_), ?_, htail, ?_⟩
    · have hlist : counting (n + 1) = counting n ++ [BitVec.ofNat 32 n] := by
        simp [counting, List.range_succ]
      rw [hlist]
      exact .call (BitVec.ofNat 32 n) hsend
    · simp only [Mailbox.store, Mailbox.reserve, hhead]
      bv_omega
    · intro k hk hroom
      simp only [Mailbox.store, Mailbox.reserve, hhead]
      by_cases hkn : k = n
      · subst hkn
        simp
      · have hne : slot (BitVec.ofNat 32 k) ≠ slot (BitVec.ofNat 32 n) := by
          intro heq
          have hmod := congrArg Fin.val heq
          rw [slot_ofNat, slot_ofNat] at hmod
          simp only [msgBufSize] at hmod hroom
          omega
        rw [Function.update_of_ne hne]
        exact hbuf k (by omega) (by omega)

/-- **A full buffer is overwritten.**  After 129 sends the first slot holds the message 128, and that is
what `dorder_handle` takes for the first message. -/
theorem dorder_overwrites :
    ∃ r, Relation.ReflTransGen Step boot r ∧ r.sent = counting 129 ∧ ¬ r.received <+: r.sent := by
  obtain ⟨mb, hrun, hhead, htail, hbuf⟩ := sends_only 129 (by norm_num)
  refine ⟨_, hrun.tail (Or.inr (handle_iff.mpr rfl)), rfl, fun hpre => ?_⟩
  have hne : mb.msgTail ≠ mb.msgHead := by
    rw [hhead, htail]
    decide
  have hfirst : mb.msgBuffer (slot mb.msgTail) = 128 := by
    have hslot : slot mb.msgTail = slot (BitVec.ofNat 32 128) := by
      rw [htail]
      rfl
    rw [hslot]
    exact hbuf 128 (by norm_num) (by norm_num [msgBufSize])
  simp only [Mailbox.waiting_cons hne, hfirst, List.nil_append] at hpre
  rw [counting, List.range_succ_eq_map, List.map_cons, List.cons_prefix_cons] at hpre
  exact absurd hpre.1 (by decide)

/-- A message for which there is room is sent. -/
theorem Inv.send_roomy {r : DorderRun} (hi : r.Inv) (msg : Word)
    (hlen : r.sent.length < r.received.length + msgBufSize) :
    ∃ r', RoomyStep r r' ∧ r'.sent = r.sent ++ [msg] ∧ r'.received = r.received := by
  have hle := hi.received.length_le
  have hwaiting := hi.waiting_length
  have hroom : r.Room := by
    rw [Room, hwaiting]
    omega
  have hfull : r.mb.bufferFull = false := by
    rw [Room, msgBufSize] at hroom
    simp only [Mailbox.bufferFull, beq_eq_false_iff_ne]
    intro h
    rw [h] at hroom
    bv_omega
  have hsend : r.mb.dorderSend 0 msg = .ok (r.mb.reserve.2.store (slot r.mb.reserve.1) msg) := by
    simp [Mailbox.dorderSend, hfull]
  exact ⟨_, Or.inl ⟨hroom, .call msg hsend⟩, rfl, rfl⟩

/-- Messages for which there is room are sent one after the other. -/
theorem Inv.sends_roomy {r : DorderRun} (hi : r.Inv) (msgs : List Word)
    (hlen : r.sent.length + msgs.length ≤ r.received.length + msgBufSize) :
    ∃ r', Relation.ReflTransGen RoomyStep r r' ∧ r'.sent = r.sent ++ msgs ∧ r'.received = r.received := by
  induction msgs generalizing r with
  | nil => exact ⟨r, Relation.ReflTransGen.refl, (List.append_nil _).symm, rfl⟩
  | cons msg msgs ih =>
    simp only [List.length_cons] at hlen
    obtain ⟨r₁, hstep, hsent, hreceived⟩ := hi.send_roomy msg (by omega)
    have hi₁ : r₁.Inv := by
      rcases hstep with ⟨hroom, hsend⟩ | hhandle
      · exact hi.send hroom hsend
      · exact (hi.handle hhandle).1
    obtain ⟨r', hrun, hsent', hreceived'⟩ := ih hi₁ (by
      rw [hsent, hreceived, List.length_append, List.length_singleton]
      omega)
    refine ⟨r', Relation.ReflTransGen.head hstep hrun, ?_, hreceived'.trans hreceived⟩
    rw [hsent', hsent, List.append_assoc, List.singleton_append]

/-- **The buffer filled to its limit**: 128 messages are sent and handled, then two more, which go to the
slots of the first ones. -/
theorem dorder_lossless_fullBuffer :
    ∃ r₁ r₂ r₃ r₄, Relation.ReflTransGen RoomyStep boot r₁ ∧ r₁.sent = counting 128 ∧ r₁.received = [] ∧
      r₁.mb.msgBuffer (slot 127) = 127 ∧ Handle r₁ r₂ ∧ r₂.received = counting 128 ∧
      Relation.ReflTransGen RoomyStep boot r₃ ∧ r₃.sent = counting 128 ++ [7, 8] ∧
      r₃.received = counting 128 ∧ r₃.mb.msgBuffer (slot 0) = 7 ∧ Handle r₃ r₄ ∧
      r₄.received = counting 128 ++ [7, 8] := by
  have hcounting : (counting 128).length = 128 := by simp [counting]
  obtain ⟨r₁, hrun₁, hsent₁, hreceived₁⟩ := inv_boot.sends_roomy (counting 128) (by
    rw [hcounting]
    exact le_rfl)
  have hsent₁ : r₁.sent = counting 128 := hsent₁
  have hreceived₁ : r₁.received = [] := hreceived₁
  obtain ⟨-, hbuf₁, ⟨r₂, hhandle₁⟩, hall₁⟩ := dorder_lossless hrun₁
  obtain ⟨hsent₂, hreceived₂⟩ := hall₁ r₂ hhandle₁
  rw [hsent₁] at hsent₂ hreceived₂
  -- two more messages
  obtain ⟨r₃, hrun₃, hsent₃, hreceived₃⟩ :=
    ((inv_of_run hrun₁).handle hhandle₁).1.sends_roomy [7, 8] (by
      rw [hsent₂, hreceived₂]
      norm_num [msgBufSize])
  rw [hsent₂] at hsent₃
  rw [hreceived₂] at hreceived₃
  have hrun : Relation.ReflTransGen RoomyStep boot r₃ := (hrun₁.tail (Or.inr hhandle₁)).trans hrun₃
  obtain ⟨-, hbuf₃, ⟨r₄, hhandle₃⟩, hall₃⟩ := dorder_lossless hrun
  have h127 := hbuf₁ 127 (by rw [hreceived₁]; exact Nat.zero_le _) (by rw [hsent₁, hcounting]; norm_num)
  have h128 := hbuf₃ 128 (by rw [hreceived₃, hcounting]) (by
    rw [hsent₃, List.length_append, hcounting]
    norm_num)
  refine ⟨r₁, r₂, r₃, r₄, hrun₁, hsent₁, hreceived₁, ?_, hhandle₁, hreceived₂, hrun, hsent₃, hreceived₃, ?_,
    hhandle₃, (hall₃ r₄ hhandle₃).2.trans hsent₃⟩
  · refine h127.trans ?_
    simp only [List.get_eq_getElem, hsent₁]
    simp [counting]
  · refine h128.trans ?_
    simp only [List.get_eq_getElem, hsent₃]
    simp [counting]

end DorderRun

end Kalisto
