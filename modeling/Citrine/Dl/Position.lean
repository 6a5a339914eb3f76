import Citrine.Dl.Transmit
import Citrine.Lib.Segment

/-!
# The position in the queue

The segments a queue has still to send (`Queue.rest`).  Reading the queue takes the first of them
(`comReadQueue_rest`), and recovering it puts the segment that was read last back in front
(`Queue.Recoverable`).
-/

namespace Citrine.Dl

/-- The messages in the queue. -/
def Queue.held (q : Queue) : List (List Octet) :=
  (q.switchBuf.toList ++ q.sending.toList ++ q.store).map Msg.sdu

/-- The segments of some messages on a channel. -/
def outgoing (ch : ChType) (msgs : List (List Octet)) : List (Segment Octet) :=
  segments (msgs.map (chunks (n201 ch)))

/-- What is left of the sending buffer, in segments. -/
def Queue.pending (ch : ChType) (q : Queue) : List (Segment Octet) :=
  match q.sending with
  | some m => if q.actLength = 0 then [] else marked (chunks (n201 ch) (m.sdu.drop q.actOffset))
  | none => []

/-- The message in the sending buffer when all of it has been read. -/
def Queue.spent (q : Queue) : List (List Octet) :=
  if q.actLength = 0 then q.sending.toList.map Msg.sdu else []

/-- The segments behind the switch buffer. -/
def Queue.rest (ch : ChType) (q : Queue) : List (Segment Octet) :=
  q.pending ch ++ outgoing ch (q.store.map Msg.sdu)

/-- The offsets are those of a position in the sending buffer, and no message is empty. -/
structure Queue.Wf (q : Queue) : Prop where
  sending : ∀ m, q.sending = some m → q.actLength ≠ 0 → q.actOffset + q.actLength = m.sdu.length
  idle : q.sending = none → q.actLength = 0
  store : ∀ m ∈ q.store, m.sdu ≠ []

/-- Recovering the queue puts the segment in the transmit buffer back. -/
structure Queue.Recoverable (ch : ChType) (q : Queue) : Prop where
  rest : (comRecoverQueue q).rest ch = (q.transmit, q.mBit) :: q.rest ch
  wf : (comRecoverQueue q).Wf

@[simp] theorem outgoing_nil (ch : ChType) : outgoing ch [] = [] := rfl

theorem outgoing_append (ch : ChType) (a b : List (List Octet)) :
    outgoing ch (a ++ b) = outgoing ch a ++ outgoing ch b := by
  simp [outgoing, segments]

theorem outgoing_cons (ch : ChType) (m : List Octet) (b : List (List Octet)) :
    outgoing ch (m :: b) = marked (chunks (n201 ch) m) ++ outgoing ch b := by
  simp [outgoing, segments]

theorem outgoing_of_le {ch : ChType} {m : List Octet} (h : m.length ≤ n201 ch) :
    outgoing ch [m] = [(m, false)] := by
  rw [outgoing_cons, marked_chunks_of_le h]
  rfl

private theorem n201_le (ch : ChType) : n201 ch ≤ 23 := by
  cases ch <;> decide

/-! ### Recovering -/

theorem comRecoverQueue_held (q : Queue) : (comRecoverQueue q).held = q.held := by
  unfold comRecoverQueue
  split <;> rfl

@[simp] theorem comRecoverQueue_switchBuf (q : Queue) : (comRecoverQueue q).switchBuf = q.switchBuf := by
  unfold comRecoverQueue
  split <;> rfl

@[simp] theorem comRecoverQueue_store (q : Queue) : (comRecoverQueue q).store = q.store := by
  unfold comRecoverQueue
  split <;> rfl

/-! ### Reading -/

/-- The queue has sent the segment `transmit` of the message `m` from the position `off`. -/
private theorem recoverable_of_sent {ch : ChType} {q : Queue} {m : Msg} {off len : Nat}
    (hm : q.sending = some m) (hpos : off + len = m.sdu.length) (hlen : len ≠ 0)
    (hq : if n201 ch < len then
        q.mBit = true ∧ q.transmit = (m.sdu.drop off).take (n201 ch) ∧ q.actOffset = off + n201 ch ∧
          q.actLength = len - n201 ch
      else q.mBit = false ∧ q.transmit = (m.sdu.drop off).take len ∧ q.actOffset = off ∧ q.actLength = 0)
    (hstore : ∀ x ∈ q.store, x.sdu ≠ []) :
    q.Recoverable ch ∧ q.Wf ∧
      marked (chunks (n201 ch) (m.sdu.drop off)) = (q.transmit, q.mBit) :: q.pending ch := by
  have hlt := m.sdu_lt
  have hn := n201_pos ch
  have hn' := n201_le ch
  have hdrop : (m.sdu.drop off).length = len := by
    rw [List.length_drop]
    omega
  -- the position to which the queue goes back
  have hback : ∀ r, r = comRecoverQueue q → r.actOffset = off → r.actLength = len → r.sending = some m →
      marked (chunks (n201 ch) (m.sdu.drop off)) = (q.transmit, q.mBit) :: q.pending ch → q.Recoverable ch := by
    intro r hr hoff hl hs hmark
    have hst : r.store = q.store := by rw [hr, comRecoverQueue_store]
    refine ⟨?_, ?_⟩
    · rw [← hr]
      unfold Queue.rest Queue.pending
      rw [hs, hst, hoff, hl]
      simp only [hlen, if_false]
      rw [hmark, List.cons_append]
      rfl
    · rw [← hr]
      refine ⟨fun x hx _ => ?_, fun hx => ?_, by rw [hst]; exact hstore⟩
      · rw [hs, Option.some.injEq] at hx
        rw [← hx, hoff, hl, hpos]
      · rw [hs] at hx
        cases hx
  split at hq
  · rename_i hlong
    obtain ⟨hb, ht, ho, hl⟩ := hq
    have htl : q.transmit.length = n201 ch := by
      rw [ht, List.length_take, hdrop]
      omega
    have hl' : q.actLength ≠ 0 := by omega
    have hmark : marked (chunks (n201 ch) (m.sdu.drop off)) = (q.transmit, q.mBit) :: q.pending ch := by
      have hp : q.pending ch = marked (chunks (n201 ch) (m.sdu.drop (off + n201 ch))) := by
        unfold Queue.pending
        rw [hm, ho]
        simp only [hl', if_false]
      rw [marked_chunks_of_lt hn (by omega), List.drop_drop, hp, ht, hb]
    refine ⟨hback _ rfl ?_ ?_ ?_ hmark, ⟨fun x hx _ => ?_, fun hx => ?_, hstore⟩, hmark⟩
    · unfold comRecoverQueue
      rw [hm]
      simp only [hl', ne_eq, not_false_eq_true, if_true, htl, ho]
      omega
    · unfold comRecoverQueue
      rw [hm]
      simp only [htl, hl]
      omega
    · unfold comRecoverQueue
      rw [hm]
    · rw [hm, Option.some.injEq] at hx
      rw [← hx, ho, hl]
      omega
    · rw [hm] at hx
      cases hx
  · rename_i hshort
    obtain ⟨hb, ht, ho, hl⟩ := hq
    have htake : (m.sdu.drop off).take len = m.sdu.drop off := by
      rw [List.take_of_length_le]
      omega
    have htl : q.transmit.length = len := by
      rw [ht, htake, hdrop]
    have hmark : marked (chunks (n201 ch) (m.sdu.drop off)) = (q.transmit, q.mBit) :: q.pending ch := by
      have hp : q.pending ch = [] := by
        unfold Queue.pending
        rw [hm]
        simp only [hl, if_true]
      rw [marked_chunks_of_le (by omega), hp, ht, hb, htake]
    refine ⟨hback _ rfl ?_ ?_ ?_ hmark, ⟨fun x hx hx' => absurd hl hx', fun hx => hl, hstore⟩, hmark⟩
    · unfold comRecoverQueue
      rw [hm]
      simp only [hl, ne_eq, not_true_eq_false, if_false, ho]
    · unfold comRecoverQueue
      rw [hm]
      simp only [htl, hl]
      omega
    · unfold comRecoverQueue
      rw [hm]

private theorem readSegment_sent (ch : ChType) {q : Queue} {m : Msg} (hm : q.sending = some m)
    (hpos : q.actOffset + q.actLength = m.sdu.length) (hlen : q.actLength ≠ 0)
    (hstore : ∀ x ∈ q.store, x.sdu ≠ []) :
    let r := readSegment ch q m
    r.Recoverable ch ∧ r.Wf ∧
      marked (chunks (n201 ch) (m.sdu.drop q.actOffset)) = (r.transmit, r.mBit) :: r.pending ch := by
  refine recoverable_of_sent (q := readSegment ch q m) ?_ hpos hlen ?_ ?_
  · unfold readSegment
    simp only
    split <;> exact hm
  · unfold readSegment
    simp only
    split
    · exact ⟨rfl, rfl, rfl, rfl⟩
    · exact ⟨rfl, rfl, rfl, rfl⟩
  · unfold readSegment
    simp only
    split <;> exact hstore

/-- Reading the queue takes the first segment behind the switch buffer. -/
theorem comReadQueue_rest {ch : ChType} {q : Queue} (hw : q.Wf) (hs : q.switchBuf = none)
    (ha : comQueueAwaitingTransmission q) :
    let r := comReadQueue ch q
    q.rest ch = (r.transmit, r.mBit) :: r.rest ch ∧ r.Wf ∧ r.Recoverable ch ∧ r.switchBuf = none ∧
      q.held = q.spent ++ r.held := by
  have hsw : ∀ (q : Queue) (m : Msg), (readSegment ch q m).switchBuf = q.switchBuf ∧
      (readSegment ch q m).sending = q.sending ∧ (readSegment ch q m).store = q.store := by
    intro q m
    unfold readSegment
    simp only
    split <;> exact ⟨rfl, rfl, rfl⟩
  have hrest : ∀ (q : Queue) (m : Msg), (readSegment ch q m).rest ch =
      (readSegment ch q m).pending ch ++ outgoing ch (q.store.map Msg.sdu) := by
    intro q m
    unfold Queue.rest
    rw [(hsw q m).2.2]
  unfold comReadQueue
  rw [hs]
  simp only
  unfold comQueueAwaitingTransmission at ha
  rw [hs] at ha
  simp only at ha
  split
  · rename_i hz
    rw [if_pos hz] at ha
    cases hst : q.store with
    | nil => simp [hst] at ha
    | cons m l =>
      simp only
      have hm : m.sdu ≠ [] := hw.store m (by simp [hst])
      have hl : ∀ x ∈ l, x.sdu ≠ [] := fun x hx => hw.store x (by simp [hst, hx])
      generalize hq1 : ({ q with sending := some m, switchBuf := none, store := l, actOffset := 0
                                 actLength := m.sdu.length } : Queue) = q1
      have hr := readSegment_sent ch (q := q1) (m := m) (by rw [← hq1])
        (by rw [← hq1]; exact Nat.zero_add _) (by rw [← hq1]; simpa using hm) (by rw [← hq1]; exact hl)
      have hh := hsw q1 m
      have hq := hrest q1 m
      have hoff : q1.actOffset = 0 := by rw [← hq1]
      have hsb : q1.switchBuf = none := by rw [← hq1]
      have hsend : q1.sending = some m := by rw [← hq1]
      have hstore : q1.store = l := by rw [← hq1]
      generalize readSegment ch q1 m = r at hr hh hq ⊢
      rw [hoff] at hr
      rw [hsb, hsend, hstore] at hh
      rw [hstore] at hq
      refine ⟨?_, hr.2.1, hr.1, hh.1, ?_⟩
      · rw [hq, ← List.cons_append, ← hr.2.2, List.drop_zero]
        unfold Queue.rest
        have hp : q.pending ch = [] := by
          unfold Queue.pending
          split
          · rw [if_pos hz]
          · rfl
        rw [hp, hst, List.map_cons, outgoing_cons]
        rfl
      · unfold Queue.held Queue.spent
        rw [hh.1, hh.2.1, hh.2.2, hs, hst, if_pos hz]
        simp
  · rename_i hz
    cases hm : q.sending with
    | none => exact absurd (hw.idle hm) hz
    | some m =>
      simp only
      have hr := readSegment_sent ch hm (hw.sending m hm hz) hz hw.store
      have hh := hsw q m
      have hq := hrest q m
      generalize readSegment ch q m = r at hr hh hq
      refine ⟨?_, hr.2.1, hr.1, hh.1.trans hs, ?_⟩
      · rw [hq, ← List.cons_append, ← hr.2.2]
        unfold Queue.rest Queue.pending
        rw [hm]
        simp only [hz, if_false]
      · unfold Queue.held Queue.spent
        rw [hh.1, hh.2.1, hh.2.2, if_neg hz]
        rfl

/-- Reading the queue with a message in the switch buffer sends that message and nothing of the rest. -/
theorem comReadQueue_switch {ch : ChType} {q : Queue} {w : Msg} (hs : q.switchBuf = some w) :
    comReadQueue ch q = { q with mBit := false, transmit := w.sdu } := by
  unfold comReadQueue
  rw [hs]

/-! ### Freeing and storing -/

/-- The messages that `free_sending_buffer` takes out of the queue. -/
def Queue.freed (q : Queue) : List (List Octet) :=
  match q.switchBuf with
  | some w => [w.sdu]
  | none => q.spent

theorem acknowledge_held (q : Queue) : q.held = q.freed ++ q.acknowledge.held := by
  unfold Queue.freed Queue.acknowledge Queue.held Queue.spent
  split
  · rename_i w hw
    rw [hw]
    simp
  · rename_i hw
    rw [hw]
    split <;> simp [hw]

@[simp] theorem acknowledge_switchBuf (q : Queue) : q.acknowledge.switchBuf = none := by
  unfold Queue.acknowledge
  split
  · rfl
  · rename_i hw
    split <;> exact hw

@[simp] theorem acknowledge_transmit (q : Queue) :
    q.acknowledge.transmit = q.transmit ∧ q.acknowledge.mBit = q.mBit := by
  unfold Queue.acknowledge
  split
  · exact ⟨rfl, rfl⟩
  · split <;> exact ⟨rfl, rfl⟩

theorem acknowledge_rest (ch : ChType) (q : Queue) : q.acknowledge.rest ch = q.rest ch := by
  unfold Queue.acknowledge
  split
  · rfl
  · split
    · rename_i hz
      have hp : q.pending ch = [] := by
        unfold Queue.pending
        split
        · rw [if_pos hz]
        · rfl
      unfold Queue.rest
      rw [hp]
      rfl
    · rfl

theorem Queue.Wf.acknowledge {q : Queue} (h : q.Wf) : q.acknowledge.Wf := by
  unfold Queue.acknowledge
  split
  · exact ⟨h.sending, h.idle, h.store⟩
  · split
    · rename_i hz
      exact ⟨fun m hm _ => (by cases hm), fun _ => hz, h.store⟩
    · exact h

/-- A message goes to the end of the queue. -/
def Queue.push (q : Queue) (m : Msg) : Queue := { q with store := q.store ++ [m] }

theorem push_held (q : Queue) (m : Msg) : (q.push m).held = q.held ++ [m.sdu] := by
  simp [Queue.held, Queue.push]

theorem push_rest (ch : ChType) (q : Queue) (m : Msg) : (q.push m).rest ch = q.rest ch ++ outgoing ch [m.sdu] := by
  unfold Queue.rest Queue.push
  rw [List.map_append, outgoing_append, ← List.append_assoc]
  rfl

theorem Queue.Wf.push {q : Queue} (h : q.Wf) {m : Msg} (hm : m.sdu ≠ []) : (q.push m).Wf := by
  refine ⟨h.sending, h.idle, fun x hx => ?_⟩
  rcases List.mem_append.1 hx with hx | hx
  · exact h.store x hx
  · rw [List.mem_singleton.1 hx]
    exact hm

theorem comRecoverQueue_push (q : Queue) (m : Msg) : comRecoverQueue (q.push m) = (comRecoverQueue q).push m := by
  have hs : (q.push m).sending = q.sending := rfl
  unfold comRecoverQueue
  rw [hs]
  split <;> rfl

theorem Queue.Recoverable.push {ch : ChType} {q : Queue} (h : q.Recoverable ch) {m : Msg} (hm : m.sdu ≠ []) :
    (q.push m).Recoverable ch := by
  constructor
  · rw [comRecoverQueue_push, push_rest, push_rest, h.rest]
    rfl
  · rw [comRecoverQueue_push]
    exact h.wf.push hm

end Citrine.Dl
