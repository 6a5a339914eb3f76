import Citrine.Dl.Accept

/-!
# The transmitting side of a channel

What one event does to the part of an established channel that transmits messages: the state, V(A), V(S), whether
T200 runs, and the queue (`Tx`).  `receive_tx` is about a downlink frame and `uplink_tx` about an uplink
opportunity; both speak of steps after which the link is still established.
-/

namespace Citrine.Dl

/-! ### The view -/

/-- The transmitting side. -/
structure Tx where
  state : ChState
  va : Nat
  vs : Nat
  /-- T200 runs, or will be started at the next uplink opportunity. -/
  running : Bool
  queue : Queue
  deriving DecidableEq

/-- T200 runs, or will be started at the next uplink opportunity. -/
def Cch.running (c : Cch) : Bool := c.t200Counter != t200Stopped || c.timeFlag

/-- The transmitting side of a channel. -/
def Chan.tx (c : Chan) : Tx :=
  { state := c.state, va := c.cch.va, vs := c.cch.vs, running := c.cch.running, queue := c.queue }

/-- The number of `DL_DATA_CNF`. -/
def confirmations (prims : List Prim) : Nat :=
  prims.countP fun p => match p with
    | .dataCnf _ _ _ => true
    | _ => false

@[simp] theorem confirmations_append (p q : List Prim) :
    confirmations (p ++ q) = confirmations p + confirmations q :=
  List.countP_append ..

/-- The queue after `free_sending_buffer` and the `DL_DATA_CNF` that it may ask for. -/
def Queue.acknowledge (q : Queue) : Queue :=
  match q.switchBuf with
  | some _ => { q with switchBuf := none }
  | none => if q.actLength = 0 then { q with sending := none } else q

/-- `free_sending_buffer` asks for a `DL_DATA_CNF`. -/
def Queue.confirms (q : Queue) : Bool :=
  match q.switchBuf, q.sending with
  | none, some m => q.actLength == 0 && m.cnf != 0
  | _, _ => false

/-- RR and I frames with a valid N(R) in multiple frame operation. -/
def Tx.acknowledge (nr : Nat) (t : Tx) : Tx × Bool :=
  if nr = t.vs then
    ({ t with
      va := nr
      running := t.running && (8 + nr - t.va) % 8 == 0
      queue := t.queue.acknowledge }, t.queue.confirms)
  else if nr ≠ t.va then ({ t with va := nr, running := true }, false)
  else (t, false)

/-- `invoke_retransmission` -/
def Tx.retransmit (nr : Nat) (t : Tx) : Tx :=
  if t.vs ≠ nr then { t with vs := (t.vs + 7) % 8, queue := comRecoverQueue t.queue } else t

/-- A supervisory frame in multiple frame operation. -/
def Tx.supervisoryMfe (f : Frame) (t : Tx) : Tx × Bool :=
  let nr := f.receiveNumber
  if comCheckNr t.va t.vs nr then
    if f.sType = rrFrame then t.acknowledge nr
    else if f.sType = rejFrame then
      ({ t.retransmit nr with running := false, vs := nr, va := nr }, false)
    else (t, false)
  else (t, false)

/-- A supervisory frame in timer recovery. -/
def Tx.supervisoryTr (f : Frame) (t : Tx) : Tx × Bool :=
  let nr := f.receiveNumber
  let final := f.pBit && !f.cr
  let ok := comCheckNr t.va t.vs nr
  if f.sType = rrFrame then
    if ok then
      if final then
        ({ t with state := .multipleFrameEstablished, running := false, va := nr, queue := t.queue.acknowledge },
          t.queue.confirms)
      else (Tx.retransmit nr { t with va := nr }, false)
    else (t, false)
  else if f.sType = rejFrame then
    let u := if ok then { t with va := nr, queue := t.queue.acknowledge } else t
    if final then
      let u := if ok then u else Tx.retransmit nr u
      ({ u with state := .multipleFrameEstablished, running := false, va := nr, vs := nr }, ok && t.queue.confirms)
    else ({ u with va := nr }, ok && t.queue.confirms)
  else (t, false)

/-- An I or S frame; the flag says whether a message is confirmed. -/
def Tx.receive (f : Frame) (t : Tx) : Tx × Bool :=
  match t.state, f.formatType with
  | .multipleFrameEstablished, .i =>
    if f.cr && comCheckNr t.va t.vs f.receiveNumber then t.acknowledge f.receiveNumber else (t, false)
  | .multipleFrameEstablished, .s => t.supervisoryMfe f
  | .timerRecovery, .i =>
    if f.cr && comCheckNr t.va t.vs f.receiveNumber then ({ t with va := f.receiveNumber }, false) else (t, false)
  | .timerRecovery, .s => t.supervisoryTr f
  | _, _ => (t, false)

/-! ### Signals -/

/-- Established links are live. -/
theorem live_of_established {sapi : Sapi} {c : Chan} (h : c.state.established) : live sapi c := by
  simp [live, h]

private theorem not_established_initDlData (sapi : Sapi) (c : Chan) :
    (initDlData sapi c).state.established = false := by
  cases sapi <;> rfl

private theorem releaseReq_tx (sapi : Sapi) (c : Chan) :
    ((releaseReq sapi false c).1.tx = c.tx ∨ (releaseReq sapi false c).1.state.established = false) ∧
      confirmations (releaseReq sapi false c).2 = 0 := by
  unfold releaseReq confirmRelease
  simp only [Bool.false_eq_true, if_false]
  split
  iterate 3
    split
    · exact ⟨.inl rfl, rfl⟩
    · exact ⟨.inr rfl, rfl⟩
  · rename_i hs
    exact ⟨.inr (by simp [hs, ChState.established]), rfl⟩
  · exact ⟨.inr (not_established_initDlData sapi c), rfl⟩

private theorem handleSignal_tx (sapi : Sapi) {s : Signal} (hs : s ≠ .dataCnf) (c : Chan) :
    ((handleSignal sapi s c).1.tx = c.tx ∨ (handleSignal sapi s c).1.state.established = false) ∧
      confirmations (handleSignal sapi s c).2 = 0 := by
  cases s with
  | dataCnf => exact absurd rfl hs
  | concatenate f => exact ⟨.inl rfl, rfl⟩
  | dataInd =>
    simp only [handleSignal, comDataInd]
    split <;> exact ⟨.inl rfl, rfl⟩
  | establishCnf => exact ⟨.inl rfl, rfl⟩
  | establishInd u => exact ⟨.inl rfl, rfl⟩
  | releaseInd cs init =>
    simp only [handleSignal, drrDlReleaseInd]
    cases init
    · exact ⟨.inl rfl, rfl⟩
    · exact ⟨.inr (not_established_initDlData sapi _), rfl⟩
  | releaseCnf init =>
    simp only [handleSignal, drrDlReleaseCnf]
    cases init
    · exact ⟨.inl rfl, rfl⟩
    · exact ⟨.inr (not_established_initDlData sapi _), rfl⟩
  | errorInd =>
    simp only [handleSignal, drrErrorInd]
    split
    · have hr := releaseReq_tx sapi (drrDlReleaseInd sapi none false c).1
      exact ⟨hr.1, by rw [confirmations_append, hr.2]; rfl⟩
    · exact ⟨.inl rfl, rfl⟩

/-- A signal does not bring a released link back. -/
private theorem handleSignal_established {sapi : Sapi} {s : Signal} {c : Chan}
    (h : (handleSignal sapi s c).1.state.established) : c.state.established := by
  by_cases hs : s = .dataCnf
  · subst hs
    simp only [handleSignal, drrDlDataCnf] at h
    split at h <;> exact h
  · rcases (handleSignal_tx sapi hs c).1 with ht | ht
    · have hst : (handleSignal sapi s c).1.state = c.state := congrArg Tx.state ht
      exact hst ▸ h
    · rw [ht] at h
      cases h

/-- Signals other than `DL_DATA_CNF` leave the transmitting side of an established link alone. -/
theorem serve_tx {sapi : Sapi} {sigs : List Signal} (hs : ∀ s ∈ sigs, s ≠ .dataCnf) {c : Chan}
    (h : (serve sapi sigs c).1.state.established) :
    (serve sapi sigs c).1.tx = c.tx ∧ confirmations (serve sapi sigs c).2 = 0 := by
  induction sigs generalizing c with
  | nil => exact ⟨rfl, rfl⟩
  | cons s rest ih =>
    have hr := ih (fun x hx => hs x (by simp [hx])) (c := (handleSignal sapi s c).1) h
    have hh := handleSignal_tx sapi (hs s (by simp)) c
    have he : (handleSignal sapi s c).1.state.established := by
      have hst : (serve sapi rest (handleSignal sapi s c).1).1.state = (handleSignal sapi s c).1.state :=
        congrArg Tx.state hr.1
      rw [← hst]
      exact h
    rcases hh.1 with ht | ht
    · exact ⟨hr.1.trans ht, by simp only [serve, confirmations_append, hh.2, hr.2]⟩
    · rw [ht] at he
      cases he

/-- An established link was established before the signals. -/
theorem serve_established {sapi : Sapi} {sigs : List Signal} {c : Chan}
    (h : (serve sapi sigs c).1.state.established) : c.state.established := by
  induction sigs generalizing c with
  | nil => exact h
  | cons s rest ih => exact handleSignal_established (ih h)

/-! ### Downlink frames -/

/-- The transmitting side as `CchIntern.finish` will leave it, without the pending signals. -/
private def CchIntern.view (i : CchIntern) : Tx :=
  { state := i.state, va := i.chan.cch.va, vs := i.chan.cch.vs
    running := if i.t200Start then true else if i.t200Stop then false else i.chan.cch.running
    queue := i.chan.queue }

private theorem finish_tx (i : CchIntern) : i.finish.1.tx = i.view := by
  unfold CchIntern.finish CchIntern.view Chan.tx
  simp only
  split
  · rfl
  · split <;> rfl

private theorem finish_signals_ne {i : CchIntern} : ∀ s ∈ (i.finish.2.drop i.signals.length), s ≠ .dataCnf := by
  unfold CchIntern.finish
  dsimp only
  rw [List.append_assoc, List.drop_left]
  intro s hs
  rcases List.mem_append.1 hs with hs | hs
  · split at hs
    · rw [List.mem_singleton.1 hs]
      exact Signal.noConfusion
    · cases hs
  · split at hs
    · rename_i cause _
      cases cause <;> simp [mdlErrorInd] at hs <;> exact hs ▸ Signal.noConfusion
    · cases hs

/-- No message is confirmed yet, and T200 is not to be started. -/
private structure Plain (i : CchIntern) : Prop where
  signals : ∀ s ∈ i.signals, s ≠ .dataCnf
  start : i.t200Start = false

/-- What an interrupt comes to: the transmitting side, and whether a message is confirmed.  The confirmation frees
the sending buffer only when its signal is served. -/
private def Leads (i : CchIntern) (r : Tx × Bool) : Prop :=
  if r.2 then
    ∃ m a b, i.signals = a ++ .dataCnf :: b ∧ (∀ s ∈ a, s ≠ .dataCnf) ∧ (∀ s ∈ b, s ≠ .dataCnf) ∧
      i.chan.queue.sending = some m ∧ r.1 = { i.view with queue := { i.view.queue with sending := none } }
  else r.1 = i.view ∧ ∀ s ∈ i.signals, s ≠ .dataCnf

private theorem Plain.leads {i : CchIntern} (h : Plain i) {t : Tx} (ht : t = i.view) : Leads i (t, false) :=
  ⟨ht, h.signals⟩

private theorem Leads.serve {sapi : Sapi} {i : CchIntern} {r : Tx × Bool} (h : Leads i r)
    (he : (serve sapi i.finish.2 i.finish.1).1.state.established) :
    (serve sapi i.finish.2 i.finish.1).1.tx = r.1 ∧
      confirmations (serve sapi i.finish.2 i.finish.1).2 = r.2.toNat := by
  have hsplit : i.finish.2 = i.signals ++ i.finish.2.drop i.signals.length := by
    have hp : i.signals <+: i.finish.2 := by
      unfold CchIntern.finish
      simp only
      rw [List.append_assoc]
      exact List.prefix_append _ _
    exact (List.prefix_iff_eq_append.1 hp).symm
  have hrest := finish_signals_ne (i := i)
  generalize i.finish.2.drop i.signals.length = l at hsplit hrest
  unfold Leads at h
  cases hr : r.2 with
  | false =>
    simp only [hr, Bool.false_eq_true, if_false] at h
    have hne : ∀ s ∈ i.finish.2, s ≠ .dataCnf := by
      intro s hs
      rw [hsplit] at hs
      exact (List.mem_append.1 hs).elim (h.2 s) (hrest s)
    have hs := serve_tx hne he
    exact ⟨hs.1.trans ((finish_tx i).trans h.1.symm), hs.2⟩
  | true =>
    simp only [hr, if_true] at h
    obtain ⟨m, a, b, hsig, ha, hb, hm, ht⟩ := h
    have hbl : ∀ s ∈ b ++ l, s ≠ .dataCnf := fun s hs => (List.mem_append.1 hs).elim (hb s) (hrest s)
    have hall : i.finish.2 = a ++ [.dataCnf] ++ (b ++ l) := by
      rw [hsplit, hsig]
      simp
    rw [hall, serve_append sapi _ (b ++ l), serve_append sapi a] at he ⊢
    simp only [confirmations_append] at he ⊢
    have h3 := serve_tx hbl he
    have h2 := serve_established he
    have h1 := serve_established h2
    have hs1 := serve_tx ha h1
    have hsend : (Citrine.Dl.serve sapi a i.finish.1).1.queue.sending = some m := by
      have hq : (Citrine.Dl.serve sapi a i.finish.1).1.queue = i.chan.queue :=
        congrArg Tx.queue (hs1.1.trans (finish_tx i))
      rw [hq]
      exact hm
    have hcnf : ∀ c : Chan, c.queue.sending = some m →
        (Citrine.Dl.serve sapi [.dataCnf] c).1.tx = { c.tx with queue := { c.tx.queue with sending := none } } ∧
          confirmations (Citrine.Dl.serve sapi [.dataCnf] c).2 = 1 := by
      intro c hc
      simp only [Citrine.Dl.serve, handleSignal, drrDlDataCnf, hc]
      exact ⟨rfl, rfl⟩
    have hs2 := hcnf _ hsend
    constructor
    · rw [h3.1, hs2.1, hs1.1, finish_tx, ht]
    · rw [hs1.2, hs2.2, h3.2]
      rfl

/-- A part of an interrupt that does not touch the transmitting side. -/
private structure Leaves (i i' : CchIntern) : Prop where
  view : i'.view = i.view
  plain : Plain i → Plain i'

private theorem Leaves.refl (i : CchIntern) : Leaves i i := ⟨rfl, id⟩

private theorem Leaves.trans {i j k : CchIntern} (h : Leaves i j) (h' : Leaves j k) : Leaves i k :=
  ⟨h'.view.trans h.view, fun hp => h'.plain (h.plain hp)⟩

private theorem Leaves.leads {i i' : CchIntern} (h : Leaves i i') (hp : Plain i) : Leads i' (i.view, false) :=
  (h.plain hp).leads h.view.symm

private theorem enquiryResponse_leaves (i : CchIntern) : Leaves i (enquiryResponse i) :=
  ⟨rfl, fun h => ⟨h.signals, h.start⟩⟩

private theorem answerPoll_leaves (f : Frame) (i : CchIntern) : Leaves i (answerPoll f i) := by
  unfold answerPoll
  split
  · exact enquiryResponse_leaves i
  · exact .refl i

private theorem pollMfe_leaves (f : Frame) (i : CchIntern) : Leaves i (pollMfe f i) := by
  unfold pollMfe
  split
  · split
    · exact enquiryResponse_leaves i
    · refine ⟨rfl, fun h => ⟨fun s hs => h.signals s ?_, h.start⟩⟩
      simpa [CchIntern.emit, mdlErrorInd] using hs
  · exact .refl i

private theorem takeIFrame_leaves (ch : ChType) (sapi : Sapi) (f : Frame) (i : CchIntern) :
    Leaves i (takeIFrame ch sapi f i) := by
  refine ⟨rfl, fun h => ⟨fun s hs => ?_, h.start⟩⟩
  simp only [takeIFrame] at hs
  rcases List.mem_append.1 hs with hs | hs
  · exact h.signals s hs
  · split at hs
    · rw [List.mem_singleton.1 hs]
      exact Signal.noConfusion
    · cases hs

private theorem answerIFrame_leaves (f : Frame) (i : CchIntern) : Leaves i (answerIFrame f i) := by
  unfold answerIFrame
  split
  · exact ⟨rfl, fun h => ⟨h.signals, h.start⟩⟩
  · split
    · exact .refl i
    · exact ⟨rfl, fun h => ⟨h.signals, h.start⟩⟩

private theorem rejectIFrame_leaves (f : Frame) (i : CchIntern) : Leaves i (rejectIFrame f i) := by
  unfold rejectIFrame
  split
  · split
    · exact ⟨rfl, fun h => ⟨h.signals, h.start⟩⟩
    · exact .refl i
  · exact ⟨rfl, fun h => ⟨h.signals, h.start⟩⟩

private theorem downlinkIFrame_leaves (ch : ChType) (sapi : Sapi) (f : Frame) (i : CchIntern) :
    Leaves i (downlinkIFrame ch sapi i f) := by
  unfold downlinkIFrame
  split
  · exact (takeIFrame_leaves ch sapi f i).trans (answerIFrame_leaves f _)
  · exact rejectIFrame_leaves f i

private theorem nrErrorRecovery_leaves (ch : ChType) (sapi : Sapi) (f : Frame) (i : CchIntern) :
    Leaves i (nrErrorRecovery ch sapi i f) := by
  unfold nrErrorRecovery
  split <;> exact ⟨rfl, fun h => ⟨h.signals, h.start⟩⟩

/-- `free_sending_buffer` acknowledges at once, or asks for the confirmation that will. -/
private theorem freeSendingBuffer_cases {ch : ChType} {sapi : Sapi} (hs : served ch sapi) (q : Queue) :
    (q.confirms = false ∧ freeSendingBuffer ch sapi q = (q.acknowledge, [])) ∨
      (q.confirms = true ∧ freeSendingBuffer ch sapi q = (q, [.dataCnf]) ∧
        q.acknowledge = { q with sending := none } ∧ ∃ m, q.sending = some m) := by
  obtain ⟨store, sending, switchBuf, actLength, actOffset, transmit, mBit⟩ := q
  cases switchBuf with
  | some w => exact .inl ⟨rfl, by simp [freeSendingBuffer, hs, Queue.acknowledge]⟩
  | none =>
    cases sending with
    | none => exact .inl ⟨rfl, by simp [freeSendingBuffer, hs, Queue.acknowledge]⟩
    | some m =>
      by_cases ha : actLength = 0
      · by_cases hc : m.cnf = 0
        · exact .inl ⟨by simp [Queue.confirms, hc], by simp [freeSendingBuffer, hs, Queue.acknowledge, ha, hc]⟩
        · exact .inr ⟨by simp [Queue.confirms, ha, hc], by simp [freeSendingBuffer, hs, ha, hc],
            by simp [Queue.acknowledge, ha], m, rfl⟩
      · exact .inl ⟨by simp [Queue.confirms, ha], by simp [freeSendingBuffer, hs, Queue.acknowledge, ha]⟩

private theorem freeSending_leads {ch : ChType} {sapi : Sapi} (hs : served ch sapi) {i : CchIntern} (h : Plain i) :
    Leads (freeSending ch sapi i) ({ i.view with queue := i.view.queue.acknowledge }, i.view.queue.confirms) := by
  have hq : i.view.queue = i.chan.queue := rfl
  rw [hq]
  rcases freeSendingBuffer_cases hs i.chan.queue with ⟨hc, hf⟩ | ⟨hc, hf, ha, m, hm⟩
  · have hi : freeSending ch sapi i = { i with chan.queue := i.chan.queue.acknowledge }.emit [] := by
      simp only [freeSending, hf]
    rw [hi, hc]
    exact ⟨rfl, by simpa [CchIntern.emit] using h.signals⟩
  · have hi : freeSending ch sapi i = i.emit [.dataCnf] := by
      simp only [freeSending, hf]
    rw [hi, hc, ha]
    exact ⟨m, i.signals, [], rfl, h.signals, by simp, hm, rfl⟩

private theorem acknowledgeMfe_leads {ch : ChType} {sapi : Sapi} (hs : served ch sapi) (nr : Nat) {i : CchIntern}
    (h : Plain i) : Leads (acknowledgeMfe ch sapi nr i) (i.view.acknowledge nr) := by
  unfold acknowledgeMfe Tx.acknowledge
  have hvs : i.view.vs = i.chan.cch.vs := rfl
  have hva : i.view.va = i.chan.cch.va := rfl
  rw [hvs, hva]
  split
  · generalize hj : ({ i with
      t200Stop := i.t200Stop || decide ((8 + nr - i.chan.cch.va) % 8 > 0)
      chan.cch.va := nr } : CchIntern) = j
    have hp : Plain j := by
      rw [← hj]
      exact ⟨h.signals, h.start⟩
    have hv : j.view = { i.view with
        va := nr, running := i.view.running && (8 + nr - i.chan.cch.va) % 8 == 0 } := by
      rw [← hj]
      unfold CchIntern.view
      simp only [h.start, Bool.false_eq_true, if_false]
      congr 1
      by_cases hz : (8 + nr - i.chan.cch.va) % 8 = 0
      · simp [hz, Cch.running]
      · have hz' : (8 + nr - i.chan.cch.va) % 8 > 0 := Nat.pos_of_ne_zero hz
        simp [hz, hz']
    have hl := freeSending_leads hs hp
    rw [hv] at hl
    subst hj
    exact hl
  · split
    · exact ⟨rfl, h.signals⟩
    · exact ⟨rfl, h.signals⟩

/-- A part of an interrupt that changes the transmitting side to `t`, and confirms nothing. -/
private structure Turns (i : CchIntern) (t : Tx) (i' : CchIntern) : Prop where
  view : i'.view = t
  plain : Plain i → Plain i'

private theorem Turns.leads {i i' : CchIntern} {t : Tx} (h : Turns i t i') (hp : Plain i) : Leads i' (t, false) :=
  (h.plain hp).leads h.view.symm

private theorem invokeRetransmission_turns (nr : Nat) (i : CchIntern) :
    Turns i (i.view.retransmit nr) (invokeRetransmission nr i) := by
  unfold invokeRetransmission Tx.retransmit
  have hvs : i.view.vs = i.chan.cch.vs := rfl
  rw [hvs]
  split
  · exact ⟨rfl, fun h => ⟨h.signals, h.start⟩⟩
  · exact ⟨rfl, id⟩

private theorem setVa_turns (nr : Nat) (i : CchIntern) : Turns i { i.view with va := nr } (setVa nr i) :=
  ⟨rfl, fun h => ⟨h.signals, h.start⟩⟩

private theorem retransmit_turns (nr : Nat) (i : CchIntern) :
    Turns i { i.view.retransmit nr with vs := nr, va := nr } (retransmit nr i) := by
  have h := invokeRetransmission_turns nr i
  unfold retransmit
  generalize invokeRetransmission nr i = j at h ⊢
  refine ⟨?_, fun hp => ⟨(h.plain hp).signals, (h.plain hp).start⟩⟩
  rw [← h.view]
  rfl

private theorem stop_turns {i : CchIntern} (h : Plain i) :
    Turns i { i.view with running := false } { i with t200Stop := true } := by
  refine ⟨?_, fun h => ⟨h.signals, h.start⟩⟩
  unfold CchIntern.view
  simp only [h.start, Bool.false_eq_true, if_false, if_true]

private theorem information_leads (ch : ChType) (sapi : Sapi) (f : Frame) {i j : CchIntern}
    (h : Plain i) (hj : Leaves i j) (ack : CchIntern → CchIntern) {t : Tx × Bool}
    (hack : Plain j → Leads (ack j) t) :
    Leads (if comCheckNr j.chan.cch.va j.chan.cch.vs f.receiveNumber then ack j else nrErrorRecovery ch sapi j f)
      (if comCheckNr i.view.va i.view.vs f.receiveNumber then t else (i.view, false)) := by
  have hva : j.chan.cch.va = i.view.va := congrArg Tx.va hj.view
  have hvs : j.chan.cch.vs = i.view.vs := congrArg Tx.vs hj.view
  rw [hva, hvs]
  split
  · exact hack (hj.plain h)
  · exact (hj.trans (nrErrorRecovery_leaves ch sapi f j)).leads h

private theorem downlinkMfeSupervisory_leads {ch : ChType} {sapi : Sapi} (hs : served ch sapi) {f : Frame}
    {i : CchIntern} (h : Plain i) : Leads (downlinkMfeSupervisory ch sapi i f) (i.view.supervisoryMfe f) := by
  unfold downlinkMfeSupervisory
  split
  · rename_i hr
    have hne : rnrFrame ≠ rrFrame ∧ rnrFrame ≠ rejFrame := by decide
    have hk : i.view.supervisoryMfe f = (i.view, false) := by
      unfold Tx.supervisoryMfe
      simp [hr, hne.1, hne.2]
    rw [hk]
    exact h.leads rfl
  · have hp := pollMfe_leaves f i
    generalize pollMfe f i = j at hp
    have hi := information_leads ch sapi f h hp
      (fun j => if f.sType = rrFrame then acknowledgeMfe ch sapi f.receiveNumber j
        else if f.sType = rejFrame then retransmit f.receiveNumber (answerPoll f { j with t200Stop := true })
        else j.emit (mdlErrorInd .frameNotImplemented))
      (t := if f.sType = rrFrame then i.view.acknowledge f.receiveNumber
        else if f.sType = rejFrame then
          ({ i.view.retransmit f.receiveNumber with
            running := false, vs := f.receiveNumber, va := f.receiveNumber }, false)
        else (i.view, false)) ?_
    · exact hi
    · intro hpj
      simp only
      split
      · have ha := acknowledgeMfe_leads hs f.receiveNumber hpj
        rw [hp.view] at ha
        exact ha
      · split
        · have hstop := stop_turns hpj
          generalize ({ j with t200Stop := true } : CchIntern) = k at hstop
          have hl := answerPoll_leaves f k
          generalize answerPoll f k = l at hl
          have ht := (retransmit_turns f.receiveNumber l).leads (hl.plain (hstop.plain hpj))
          rw [hl.view, hstop.view, hp.view] at ht
          unfold Tx.retransmit at ht ⊢
          simp only at ht ⊢
          split at ht <;> rename_i hv
          · rw [if_pos hv]
            exact ht
          · rw [if_neg hv]
            exact ht
        · refine ⟨hp.view.symm, fun s hs => hpj.signals s ?_⟩
          simpa [CchIntern.emit, mdlErrorInd] using hs

/-- A change of the state variables that leaves the queue and the signals alone. -/
private theorem Leads.update {i j : CchIntern} {r : Tx × Bool} (h : Leads i r) {g : Tx → Tx}
    (hview : j.view = g i.view) (hsig : j.signals = i.signals) (hqueue : j.chan.queue = i.chan.queue)
    (hg : ∀ (t : Tx) (q : Queue), g { t with queue := q } = { g t with queue := q }) : Leads j (g r.1, r.2) := by
  unfold Leads at h ⊢
  simp only
  split at h <;> rename_i hc
  · obtain ⟨m, a, b, h1, h2, h3, h4, h5⟩ := h
    rw [if_pos hc]
    refine ⟨m, a, b, hsig.trans h1, h2, h3, (by rw [hqueue]; exact h4), ?_⟩
    have hq : j.view.queue = i.view.queue := hqueue
    rw [h5, hg, hview]
    simp only [← hview, hq]
  · rw [if_neg hc]
    refine ⟨by rw [h.1, hview], by rw [hsig]; exact h.2⟩

private theorem freeSending_start (ch : ChType) (sapi : Sapi) (i : CchIntern) :
    (freeSending ch sapi i).t200Start = i.t200Start := rfl

private theorem clearRecovery_view {i : CchIntern} (h : i.t200Start = false) :
    (clearRecovery i).view = { i.view with running := false, state := .multipleFrameEstablished } := by
  unfold CchIntern.view clearRecovery
  simp only [h, Bool.false_eq_true, if_false, if_true]

/-- A supervisory frame RR in timer recovery. -/
private theorem recoverRr_leads {ch : ChType} {sapi : Sapi} (hs : served ch sapi) {f : Frame} {i : CchIntern}
    (h : Plain i) :
    Leads (if f.pBit && !f.cr then freeSending ch sapi (clearRecovery (setVa f.receiveNumber i))
        else invokeRetransmission f.receiveNumber (setVa f.receiveNumber i))
      (if f.pBit && !f.cr then
        ({ i.view with
          state := .multipleFrameEstablished, running := false, va := f.receiveNumber
          queue := i.view.queue.acknowledge }, i.view.queue.confirms)
      else (Tx.retransmit f.receiveNumber { i.view with va := f.receiveNumber }, false)) := by
  have ha := setVa_turns f.receiveNumber i
  generalize setVa f.receiveNumber i = j at ha
  split
  · have hc := clearRecovery_view (ha.plain h).start
    have hp : Plain (clearRecovery j) := ⟨(ha.plain h).signals, (ha.plain h).start⟩
    generalize clearRecovery j = k at hc hp
    have hf := freeSending_leads hs hp
    rw [hc, ha.view] at hf
    exact hf
  · have hr := (invokeRetransmission_turns f.receiveNumber j).leads (ha.plain h)
    rw [ha.view] at hr
    exact hr

/-- A supervisory frame REJ in timer recovery, behind the acknowledgement. -/
private theorem recoverRej_leads {f : Frame} {j : CchIntern} {r : Tx × Bool} (h : Leads j r)
    (hstart : j.t200Start = false) (hj : j.chan.cch.va = f.receiveNumber) :
    Leads (if f.pBit && !f.cr then
        setVs f.receiveNumber (setVa f.receiveNumber
          (if (clearRecovery j).chan.cch.va ≠ f.receiveNumber then
            invokeRetransmission f.receiveNumber (clearRecovery j) else clearRecovery j))
      else answerPoll f (setVa f.receiveNumber j))
      (if f.pBit && !f.cr then
        ({ r.1 with
          state := .multipleFrameEstablished, running := false, va := f.receiveNumber, vs := f.receiveNumber }, r.2)
      else ({ r.1 with va := f.receiveNumber }, r.2)) := by
  have hva : (clearRecovery j).chan.cch.va = f.receiveNumber := hj
  split
  · rw [if_neg (by simp [hva])]
    refine h.update (g := fun t => { t with
      state := .multipleFrameEstablished, running := false, va := f.receiveNumber, vs := f.receiveNumber })
      ?_ rfl rfl fun _ _ => rfl
    have hc := clearRecovery_view hstart
    generalize clearRecovery j = k at hc
    have hk : (setVs f.receiveNumber (setVa f.receiveNumber k)).view =
        { k.view with va := f.receiveNumber, vs := f.receiveNumber } := rfl
    rw [hk, hc]
  · refine h.update (g := fun t => { t with va := f.receiveNumber }) ?_ ?_ ?_ fun _ _ => rfl
    · exact ((answerPoll_leaves f _).view).trans rfl
    · unfold answerPoll
      split <;> rfl
    · unfold answerPoll
      split <;> rfl

private theorem downlinkTrSupervisory_leads {ch : ChType} {sapi : Sapi} (hs : served ch sapi) {f : Frame}
    {i : CchIntern} (h : Plain i) : Leads (downlinkTrSupervisory ch sapi i f) (i.view.supervisoryTr f) := by
  unfold downlinkTrSupervisory Tx.supervisoryTr
  simp only
  split
  · have hp := answerPoll_leaves f i
    generalize answerPoll f i = j at hp
    have hi := information_leads ch sapi f h hp
      (fun j => if f.pBit && !f.cr then freeSending ch sapi (clearRecovery (setVa f.receiveNumber j))
        else invokeRetransmission f.receiveNumber (setVa f.receiveNumber j)) fun hpj => recoverRr_leads hs hpj
    rw [hp.view] at hi
    exact hi
  · split
    · unfold acknowledgeRej
      have hva : i.view.va = i.chan.cch.va := rfl
      have hvs : i.view.vs = i.chan.cch.vs := rfl
      rw [hva, hvs]
      cases hok : comCheckNr i.chan.cch.va i.chan.cch.vs f.receiveNumber with
      | true =>
        have hf := freeSending_leads hs h
        have hst := freeSending_start ch sapi i
        generalize freeSending ch sapi i = j at hf hst
        have ha : Leads (setVa f.receiveNumber j)
            ({ i.view with va := f.receiveNumber, queue := i.view.queue.acknowledge }, i.view.queue.confirms) :=
          hf.update (g := fun t => { t with va := f.receiveNumber }) rfl rfl rfl fun _ _ => rfl
        have hr := recoverRej_leads (f := f) ha (hst.trans h.start) rfl
        simp only [if_true, Bool.true_and]
        exact hr
      | false =>
        simp only [Bool.false_eq_true, if_false, Bool.false_and]
        split
        · have hc := clearRecovery_view h.start
          have hp : Plain (clearRecovery i) := ⟨h.signals, h.start⟩
          have hcva : (clearRecovery i).chan.cch.va = i.chan.cch.va := rfl
          have hne : i.chan.cch.va ≠ f.receiveNumber := by
            intro he
            rw [← he] at hok
            simp [comCheckNr] at hok
          generalize clearRecovery i = k at hc hp hcva
          rw [if_pos (by rw [hcva]; exact hne)]
          have hr := invokeRetransmission_turns f.receiveNumber k
          generalize invokeRetransmission f.receiveNumber k = l at hr
          refine ⟨?_, (hr.plain hp).signals⟩
          have hl : (setVs f.receiveNumber (setVa f.receiveNumber l)).view =
              { l.view with va := f.receiveNumber, vs := f.receiveNumber } := rfl
          rw [hl, hr.view, hc]
          unfold Tx.retransmit
          simp only
          split <;> rfl
        · exact ((setVa_turns f.receiveNumber i).plain h |> (answerPoll_leaves f _).leads)
    · exact h.leads rfl

private theorem start_plain (c : Chan) : Plain (CchIntern.start c) := ⟨by simp [CchIntern.start], rfl⟩

private theorem downlinkState_leads {ch : ChType} {sapi : Sapi} {c : Chan} {f : Frame}
    (h : transfers ch sapi c f) : Leads (downlinkState ch sapi (CchIntern.start c) f) (c.tx.receive f) := by
  simp only [transfers, Bool.and_eq_true, bne_iff_ne, ne_eq] at h
  obtain ⟨⟨ha, he⟩, hu⟩ := h
  have hs : served ch sapi := by
    simp only [addressed, Bool.and_eq_true] at ha
    exact ha.2
  have hp := start_plain c
  have hst : (CchIntern.start c).state = c.state := rfl
  have hview : (CchIntern.start c).view = c.tx := rfl
  have hinfo := downlinkIFrame_leaves ch sapi f (CchIntern.start c)
  cases hstate : c.state <;> rw [hstate] at he <;> try cases he
  case multipleFrameEstablished =>
    cases hf : f.formatType with
    | u => exact absurd hf hu
    | i =>
      have hr : c.tx.receive f =
          if f.cr && comCheckNr c.tx.va c.tx.vs f.receiveNumber then c.tx.acknowledge f.receiveNumber
          else (c.tx, false) := by
        simp [Tx.receive, Chan.tx, hstate, hf]
      have hd : downlinkState ch sapi (CchIntern.start c) f =
          downlinkMfeInformation ch sapi (CchIntern.start c) f := by
        simp [downlinkState, hst, hstate, downlinkMfe, hf]
      rw [hr, hd]
      unfold downlinkMfeInformation
      cases hcr : f.cr with
      | false => exact hp.leads hview.symm
      | true =>
        simp only [if_true, Bool.true_and]
        have hi := information_leads ch sapi f hp hinfo (acknowledgeMfe ch sapi f.receiveNumber)
          fun hpj => acknowledgeMfe_leads hs f.receiveNumber hpj
        rw [hinfo.view, hview] at hi
        exact hi
    | s =>
      have hr : c.tx.receive f = c.tx.supervisoryMfe f := by simp [Tx.receive, Chan.tx, hstate, hf]
      have hd : downlinkState ch sapi (CchIntern.start c) f =
          downlinkMfeSupervisory ch sapi (CchIntern.start c) f := by
        simp [downlinkState, hst, hstate, downlinkMfe, hf]
      rw [hr, hd, ← hview]
      exact downlinkMfeSupervisory_leads hs hp
  case timerRecovery =>
    cases hf : f.formatType with
    | u => exact absurd hf hu
    | i =>
      have hr : c.tx.receive f =
          if f.cr && comCheckNr c.tx.va c.tx.vs f.receiveNumber then
            ({ c.tx with va := f.receiveNumber }, false) else (c.tx, false) := by
        simp [Tx.receive, Chan.tx, hstate, hf]
      have hd : downlinkState ch sapi (CchIntern.start c) f =
          downlinkTrInformation ch sapi (CchIntern.start c) f := by
        simp [downlinkState, hst, hstate, downlinkTimerRecovery, hf]
      rw [hr, hd]
      unfold downlinkTrInformation
      cases hcr : f.cr with
      | false => exact hp.leads hview.symm
      | true =>
        simp only [if_true, Bool.true_and]
        have hi := information_leads ch sapi f hp hinfo (setVa f.receiveNumber)
          fun hpj => (setVa_turns f.receiveNumber _).leads hpj
        rw [hinfo.view, hview] at hi
        exact hi
    | s =>
      have hr : c.tx.receive f = c.tx.supervisoryTr f := by simp [Tx.receive, Chan.tx, hstate, hf]
      have hd : downlinkState ch sapi (CchIntern.start c) f =
          downlinkTrSupervisory ch sapi (CchIntern.start c) f := by
        simp [downlinkState, hst, hstate, downlinkTimerRecovery, hf]
      rw [hr, hd, ← hview]
      exact downlinkTrSupervisory_leads hs hp

/-- The transmitting side after an I or S frame on an established link. -/
theorem receive_tx {ch : ChType} {sapi : Sapi} {c : Chan} {f : Frame} (h : transfers ch sapi c f)
    (he : (step sapi (.frame ch f) c).1.state.established) :
    (step sapi (.frame ch f) c).1.tx = (c.tx.receive f).1 ∧
      confirmations (step sapi (.frame ch f) c).2.prims = (c.tx.receive f).2.toNat := by
  have ha : addressed ch sapi f := by
    simp only [transfers, Bool.and_eq_true] at h
    exact h.1.1
  have hl := downlinkState_leads h
  simp only [step, dlDownlink, ha, if_true] at he ⊢
  exact hl.serve he

/-! ### Uplink opportunities -/

/-- What an uplink opportunity may do to the transmitting side, with the I frame that goes out.  T200 may expire
in front of each of the three cases that time recovery knows. -/
inductive Tx.Uplink (ch : ChType) (sapi : Sapi) (vr : Nat) (t : Tx) : Tx → Option Frame → Prop where
  | idle (running : Bool) : (running → t.running) → Tx.Uplink ch sapi vr t { t with running := running } none
  | expire (running : Bool) : t.state = .timerRecovery ∨ t.running →
      Tx.Uplink ch sapi vr t { t with state := .timerRecovery, running := running } none
  | repeat (running : Bool) : t.state = .timerRecovery ∨ t.running →
      Tx.Uplink ch sapi vr t { t with state := .timerRecovery, running := running }
        (some (comBuildICommand ch sapi ((t.vs + 7) % 8) vr true t.queue.mBit t.queue.transmit))
  | send : t.state = .multipleFrameEstablished → t.vs ≠ (t.va + 1) % 8 → comQueueAwaitingTransmission t.queue →
      Tx.Uplink ch sapi vr t
        { t with running := true, vs := (t.vs + 1) % 8, queue := comReadQueue ch t.queue }
        (some (comBuildICommand ch sapi t.vs vr false (comReadQueue ch t.queue).mBit (comReadQueue ch t.queue).transmit))

/-- A choice of `dl_uplink` other than an I frame or a frame that is already built. -/
private def Send.plain : Send → Bool
  | .iframe | .iframeP | .normal _ => false
  | _ => true

/-- The choices of `dl_uplink` on a link that stays established. -/
private inductive Choice (t : Tx) : Tx → Send → Prop where
  | idle (running : Bool) {send : Send} : (running → t.running) → send.plain →
      Choice t { t with running := running } send
  | expire (running : Bool) {send : Send} : t.state = .multipleFrameEstablished → t.running → send.plain →
      Choice t { t with state := .timerRecovery, running := running } send
  | repeat (running : Bool) : t.state = .timerRecovery ∨ t.running →
      Choice t { t with state := .timerRecovery, running := running } .iframeP
  | send (running : Bool) : t.state = .multipleFrameEstablished → (running → t.running) →
      t.vs ≠ (t.va + 1) % 8 → comQueueAwaitingTransmission t.queue →
      Choice t { t with running := running } .iframe

/-- The outcome of a part of `dl_uplink`: the link is gone, or a choice. -/
private def Chooses (c : Chan) (r : Chan × Send × List Signal) : Prop :=
  r.1.state.established = false ∨ (r.1.cch.vr = c.cch.vr ∧ Choice c.tx r.1.tx r.2.1)

private theorem startT200_tx (ch : ChType) (sapi : Sapi) (c : Chan) :
    (startT200 ch sapi c).tx = c.tx ∧ (startT200 ch sapi c).cch.vr = c.cch.vr := by
  unfold startT200
  split
  · rename_i ht
    refine ⟨?_, rfl⟩
    have hr : (setT200Counter ch sapi c.cch).running = c.cch.running := by
      have hs : (setT200Counter ch sapi c.cch).running = true := by
        cases ch <;> cases sapi <;> rfl
      rw [hs]
      simp [Cch.running, ht]
    unfold Chan.tx
    rw [hr]
    rfl
  · exact ⟨rfl, rfl⟩

private theorem countT200_tx (c : Chan) :
    (countT200 c).tx = c.tx ∧ (countT200 c).cch.vr = c.cch.vr := by
  unfold countT200
  split
  · rename_i h
    refine ⟨?_, rfl⟩
    have h2 : 2 ≤ c.cch.t200Counter := h
    have hr : ({ c.cch with t200Counter := c.cch.t200Counter - 1 } : Cch).running = c.cch.running := by
      have hz : (c.cch.t200Counter - 1 != 0) = true := by simpa using (by omega)
      have hz' : (c.cch.t200Counter != 0) = true := by simpa using (by omega)
      simp [Cch.running, t200Stopped, hz, hz']
    unfold Chan.tx
    rw [hr]
  · exact ⟨rfl, rfl⟩

private theorem checkDisc_tx (ch : ChType) (sapi : Sapi) (send : Send) (c : Chan) :
    checkDisc ch sapi send c = (c, send, []) ∨
      ((checkDisc ch sapi send c).1.state.established = false ∧ (checkDisc ch sapi send c).2.1 ≠ .null) := by
  unfold checkDisc
  split
  · right
    have hr : ∀ c', c'.state = .awaitingRelease → (uplinkAwaitingRelease ch sapi c').1.state.established = false ∧
        (uplinkAwaitingRelease ch sapi c').2.1 ≠ .null := by
      intro c' hc'
      have hs : (startT200 ch sapi c').state = .awaitingRelease :=
        (congrArg Tx.state (startT200_tx ch sapi c').1).trans hc'
      unfold uplinkAwaitingRelease
      simp only
      split
      · exact ⟨by rw [hs]; rfl, Send.noConfusion⟩
      · split <;> exact ⟨rfl, Send.noConfusion⟩
      · exact ⟨by rw [hs]; rfl, Send.noConfusion⟩
    simp only
    split <;> exact hr _ rfl
  · exact .inl rfl

private theorem checkDisc_chooses (ch : ChType) (sapi : Sapi) (c : Chan) :
    Chooses c (checkDisc ch sapi .empty c) := by
  rcases checkDisc_tx ch sapi .empty c with h | h
  · rw [h]
    exact .inr ⟨rfl, .idle c.tx.running id rfl⟩
  · exact .inl h.1

/-- A choice after a step that leaves the transmitting side alone. -/
private theorem Chooses.of_tx {a b : Chan} {r : Chan × Send × List Signal} (ht : b.tx = a.tx)
    (hv : b.cch.vr = a.cch.vr) (h : Chooses b r) : Chooses a r := by
  unfold Chooses at h ⊢
  rw [ht, hv] at h
  exact h

private theorem Chooses.plain {a b : Chan} {send : Send} {s : List Signal} (ht : b.tx = a.tx)
    (hv : b.cch.vr = a.cch.vr) (hs : send.plain) : Chooses a (b, send, s) := by
  refine .inr ⟨hv, ?_⟩
  rw [ht]
  exact .idle a.tx.running id hs

private theorem final_plain {b : Bool} {x y : Send} (hx : x.plain) (hy : y.plain) : (Send.final b x y).plain := by
  unfold Send.final
  split
  · exact hx
  · exact hy

private theorem uplinkMfe_chooses (ch : ChType) (sapi : Sapi) {c : Chan}
    (h : c.state = .multipleFrameEstablished) : Chooses c (uplinkMfe ch sapi c) := by
  obtain ⟨ht, hv⟩ := startT200_tx ch sapi c
  unfold uplinkMfe
  simp only
  generalize startT200 ch sapi c = d at ht hv
  refine Chooses.of_tx ht hv ?_
  have hd : d.tx.state = .multipleFrameEstablished := by
    rw [ht]
    exact h
  have hi : comQueueAwaitingTransmission d.queue → d.cch.vs ≠ (d.cch.va + 1) % 8 → Chooses d (d, .iframe, []) :=
    fun hq hw => .inr ⟨rfl, .send d.tx.running hd id hw hq⟩
  split
  · split
    · exact .plain rfl rfl rfl
    · split
      · rename_i hq
        simp only [Bool.and_eq_true, Bool.not_eq_true', decide_eq_false_iff_not] at hq
        exact hi hq.1 hq.2
      · exact .plain rfl rfl rfl
  · exact .plain rfl rfl (final_plain rfl rfl)
  · exact .plain rfl rfl (final_plain rfl rfl)
  · exact .plain rfl rfl (final_plain rfl rfl)
  · split
    · rename_i hq
      split
      · exact .plain rfl rfl rfl
      · rename_i hw
        exact hi hq hw
    · split
      · exact .plain rfl rfl rfl
      · exact checkDisc_chooses ch _ d

private theorem uplinkTimerRecovery_chooses (ch : ChType) (sapi : Sapi) {c : Chan}
    (h : c.state = .timerRecovery) : Chooses c (uplinkTimerRecovery ch sapi c) := by
  obtain ⟨ht, hv⟩ := startT200_tx ch sapi c
  unfold uplinkTimerRecovery
  simp only
  generalize startT200 ch sapi c = d at ht hv
  refine Chooses.of_tx ht hv ?_
  have hd : d.tx.state = .timerRecovery := by
    rw [ht]
    exact h
  have hp : Chooses d (d, .iframeP, []) := by
    have hk : d.tx = { d.tx with state := .timerRecovery, running := d.tx.running } := by
      rw [← hd]
    have hc := Choice.repeat (t := d.tx) d.tx.running (.inl hd)
    rw [← hk] at hc
    exact .inr ⟨rfl, hc⟩
  split
  · split
    · exact .plain rfl rfl rfl
    · split
      · exact hp
      · exact .plain rfl rfl rfl
  · exact .plain rfl rfl (final_plain rfl rfl)
  · exact .plain rfl rfl (final_plain rfl rfl)
  · exact .plain rfl rfl (final_plain rfl rfl)
  · split
    · exact hp
    · split
      · exact .plain rfl rfl rfl
      · exact checkDisc_chooses ch _ d

private theorem t200Expiry_tx (ch : ChType) (sapi : Sapi) {c : Chan} (h : c.state.established)
    (ht : c.cch.t200Counter = t200Expired) :
    let d := (t200Expiry ch sapi c).1
    (sapi = .sapi0 ∧ d.state = .idleDl) ∨ (d.cch.vr = c.cch.vr ∧ ∃ r : Bool, (r → c.tx.running) ∧
      d.tx = { c.tx with state := .timerRecovery, running := r } ∧
      (c.state = .timerRecovery ∨ (c.state = .multipleFrameEstablished ∧ c.tx.running))) := by
  have hrun : c.tx.running = true := by
    have hr : c.tx.running = (c.cch.t200Counter != t200Stopped || c.cch.timeFlag) := rfl
    rw [hr, ht]
    rfl
  unfold t200Expiry
  cases hs : c.state <;> rw [hs] at h <;> try cases h
  case multipleFrameEstablished =>
    refine .inr ⟨rfl, true, fun _ => hrun, ?_, .inr ⟨rfl, hrun⟩⟩
    simp [Chan.tx, Cch.running]
  case timerRecovery =>
    simp only
    split
    · cases sapi with
      | sapi0 => exact .inl ⟨rfl, rfl⟩
      | sapi3 =>
        refine .inr ⟨rfl, c.tx.running, id, ?_, .inl trivial⟩
        simp [Chan.tx, hs]
    · refine .inr ⟨rfl, true, fun _ => hrun, ?_, .inl trivial⟩
      simp [Chan.tx, Cch.running, hs]

private theorem uplinkState_chooses (ch : ChType) (sapi : Sapi) {c : Chan} (h : c.state.established) :
    Chooses c (uplinkState ch sapi c) := by
  unfold uplinkState
  cases hs : c.state <;> rw [hs] at h <;> try cases h
  case multipleFrameEstablished => exact uplinkMfe_chooses ch sapi hs
  case timerRecovery => exact uplinkTimerRecovery_chooses ch sapi hs

/-- A choice behind the expiry of T200. -/
private theorem Choice.after_expiry {t : Tx} {r : Bool} {u : Tx} {send : Send} (hr : r → t.running)
    (ht : t.state = .timerRecovery ∨ (t.state = .multipleFrameEstablished ∧ t.running))
    (h : Choice { t with state := .timerRecovery, running := r } u send) : Choice t u send := by
  cases h with
  | idle running hrun hs =>
    rcases ht with ht | ht
    · have hk : ({ t with state := .timerRecovery, running := running } : Tx) = { t with running := running } := by
        rw [← ht]
      have hc := Choice.idle (t := t) running (fun h => hr (hrun h)) hs
      rw [← hk] at hc
      exact hc
    · exact .expire running ht.1 ht.2 hs
  | expire running hm hrun hs => cases hm
  | «repeat» running hrun => exact .repeat running (ht.imp id And.right)
  | send running hm hrun hw hq => cases hm

private theorem chooseUplink_chooses (ch : ChType) (sapi : Sapi) (dlActive : Bool) {c : Chan}
    (h : c.state.established) : Chooses c (chooseUplink ch sapi dlActive c) := by
  obtain ⟨ht1, hv1⟩ := countT200_tx c
  have hst1 : (countT200 c).state = c.state := congrArg Tx.state ht1
  unfold chooseUplink
  simp only
  generalize countT200 c = c1 at ht1 hv1 hst1
  have hd : (delayedReleaseInd c1).1.tx = c1.tx ∧ (delayedReleaseInd c1).1.cch = c1.cch := by
    unfold delayedReleaseInd
    split <;> exact ⟨rfl, rfl⟩
  generalize delayedReleaseInd c1 = d at hd
  have ht2 : d.1.tx = c.tx := hd.1.trans ht1
  have hv2 : d.1.cch.vr = c.cch.vr := (congrArg Cch.vr hd.2).trans hv1
  have he2 : d.1.state.established := by
    have hs : d.1.state = c.state := congrArg Tx.state ht2
    rw [hs]
    exact h
  generalize hsend : (if (dlActive && c1.state == .multipleFrameEstablished) = true then Send.empty else .null) = send
  have hplain : send.plain := by
    rw [← hsend]
    split <;> rfl
  rcases checkDisc_tx ch sapi send d.1 with hk | ⟨hk, hn⟩
  · rw [hk]
    simp only
    split
    · split
      · rename_i hexp
        have hx := t200Expiry_tx ch sapi he2 hexp
        generalize t200Expiry ch sapi d.1 = x at hx
        rcases hx with ⟨rfl, hi⟩ | ⟨hv3, r, hr, ht3, hcase⟩
        · left
          have hu : (uplinkState ch .sapi0 x.1).1.state.established = false := by
            unfold uplinkState
            rw [hi]
            simp only [uplinkIdle]
            split
            · split
              · rename_i h0
                cases h0.1
              · rw [hi]
                rfl
            · rw [hi]
              rfl
            · rw [hi]
              rfl
          exact hu
        · have he3 : x.1.state.established := by
            have hs : x.1.state = .timerRecovery := congrArg Tx.state ht3
            rw [hs]
            rfl
          rcases uplinkState_chooses ch sapi he3 with hu | ⟨hvu, hu⟩
          · exact .inl hu
          · refine .inr ⟨hvu.trans (hv3.trans hv2), ?_⟩
            rw [ht3, ht2] at hu
            rw [ht2] at hr
            have hstate : c.tx.state = d.1.state := congrArg Tx.state ht2.symm
            rw [← hstate, ht2] at hcase
            exact hu.after_expiry hr hcase
      · exact Chooses.of_tx ht2 hv2 (uplinkState_chooses ch sapi he2)
    · exact .plain ht2 hv2 hplain
  · left
    rw [if_neg hn]
    exact hk

private theorem awaitingRelease_signals (ch : ChType) (sapi : Sapi) (c : Chan) :
    ∀ s ∈ (uplinkAwaitingRelease ch sapi c).2.2, s ≠ .dataCnf := by
  unfold uplinkAwaitingRelease
  simp only
  split
  · simp
  · split <;> simp
  · simp

private theorem checkDisc_signals (ch : ChType) (sapi : Sapi) (send : Send) (c : Chan) :
    ∀ s ∈ (checkDisc ch sapi send c).2.2, s ≠ .dataCnf := by
  unfold checkDisc
  split
  · simp only
    split <;> exact awaitingRelease_signals ch sapi _
  · simp

private theorem t200Expiry_signals (ch : ChType) (sapi : Sapi) (c : Chan) :
    ∀ s ∈ (t200Expiry ch sapi c).2, s ≠ .dataCnf := by
  unfold t200Expiry repeatSabm
  split
  · split <;> simp [mdlErrorInd]
  · simp
  · split
    · split <;> simp [mdlErrorInd]
    · simp
  · split <;> simp
  · simp

private theorem uplinkState_signals (ch : ChType) (sapi : Sapi) {c : Chan} :
    ∀ s ∈ (uplinkState ch sapi c).2.2, s ≠ .dataCnf := by
  have hidle : ∀ s ∈ (uplinkIdle ch sapi c).2.2, s ≠ .dataCnf := by
    unfold uplinkIdle
    split
    · split <;> simp
    · simp
    · simp
  unfold uplinkState
  split
  · exact hidle
  · unfold uplinkAwaitingEstablishment
    simp only
    split <;> simp
  · unfold uplinkMfe
    simp only
    split
    · split
      · simp
      · split <;> simp
    · simp
    · simp
    · simp
    · split
      · simp
      · split
        · simp
        · exact checkDisc_signals ch _ _ _
  · unfold uplinkTimerRecovery
    simp only
    split
    · split <;> simp
    · simp
    · simp
    · simp
    · split
      · simp
      · split
        · simp
        · exact checkDisc_signals ch _ _ _
  · exact awaitingRelease_signals ch sapi c
  · simp
  · split
    · simp
    · split
      · exact hidle
      · simp

private theorem chooseUplink_signals (ch : ChType) (sapi : Sapi) (dlActive : Bool) (c : Chan) :
    ∀ s ∈ (chooseUplink ch sapi dlActive c).2.2, s ≠ .dataCnf := by
  have hd : ∀ c' : Chan, ∀ s ∈ (delayedReleaseInd c').2, s ≠ .dataCnf := by
    intro c'
    unfold delayedReleaseInd
    split
    · simp only
      split <;> simp
    · simp
  have happ : ∀ {a b : List Signal}, (∀ s ∈ a, s ≠ .dataCnf) → (∀ s ∈ b, s ≠ .dataCnf) →
      ∀ s ∈ a ++ b, s ≠ .dataCnf := fun ha hb s hs => (List.mem_append.1 hs).elim (ha s) (hb s)
  unfold chooseUplink
  simp only
  have hk := fun send => checkDisc_signals ch sapi send (delayedReleaseInd (countT200 c)).1
  generalize (if (dlActive && (countT200 c).state == .multipleFrameEstablished) = true then Send.empty else .null) = send
  split
  · refine happ (happ (happ (hd _) (hk _)) ?_) (uplinkState_signals ch sapi)
    split
    · exact t200Expiry_signals ch sapi _
    · simp
  · exact happ (hd _) (hk _)

/-! ### The frame of an uplink opportunity -/

/-- An I frame. -/
def Frame.isI (f : Frame) : Bool := f.formatType == .i

private theorem supervisory_isI (ch : ChType) (sapi : Sapi) (nr : Nat) (fBit : Bool) :
    (comBuildRRResponse ch sapi nr fBit).isI = false ∧ (comBuildREJResponse ch sapi nr fBit).isI = false := by
  have key : ∀ (x : Octet) (p : Bool), let c := (x <<< 5) ||| ((BitVec.ofBool p).setWidth 8 <<< 4)
      ((c ||| 1#8) &&& 3#8 = 1#8) ∧ ((c ||| 9#8) &&& 3#8 = 1#8) := by decide
  have hk := key (BitVec.ofNat 8 nr) fBit
  constructor
  · have hf : (comBuildRRResponse ch sapi nr fBit).formatType = .s := if_pos hk.1
    simp [Frame.isI, hf]
  · have hf : (comBuildREJResponse ch sapi nr fBit).formatType = .s := if_pos hk.2
    simp [Frame.isI, hf]

private theorem ua_isI (ch : ChType) (sapi : Sapi) (fBit : Bool) :
    (comBuildUAResponse ch sapi fBit).isI = false := by
  have key : ∀ p : Bool, ctrlOctet uaFrame 0 0 p &&& 3#8 = 3#8 := by decide
  have hf : (comBuildUAResponse ch sapi fBit).formatType = .u := by
    unfold Frame.formatType
    rw [show (comBuildUAResponse ch sapi fBit).ctrl = ctrlOctet uaFrame 0 0 fBit from rfl, key fBit]
    rfl
  simp [Frame.isI, hf]

private theorem command_isI (ch : ChType) (sapi : Sapi) {ns nr : Nat} (hs : ns < 8) (hr : nr < 8) (p m : Bool)
    (buf : List Octet) : (comBuildICommand ch sapi ns nr p m buf).isI = true := by
  have hf : (comBuildICommand ch sapi ns nr p m buf).formatType = .i := (iFrame_ctrl hs hr).1
  simp [Frame.isI, hf]

private theorem buildUplink_plain (ch : ChType) (sapi : Sapi) {send : Send} (h : send.plain) (c : Chan) :
    (buildUplink ch sapi send c).1.tx = c.tx ∧ (buildUplink ch sapi send c).2.filter Frame.isI = none := by
  have hsup := supervisory_isI ch sapi c.cch.vr
  have hua := ua_isI ch sapi
  cases send with
  | iframe => cases h
  | iframeP => cases h
  | normal f => cases h
  | null => exact ⟨rfl, rfl⟩
  | empty => exact ⟨rfl, rfl⟩
  | ua => exact ⟨rfl, by simp [buildUplink, Option.filter, hua]⟩
  | uaF => exact ⟨rfl, by simp [buildUplink, Option.filter, hua]⟩
  | rr => exact ⟨rfl, by simp [buildUplink, Option.filter, hsup]⟩
  | rrF => exact ⟨rfl, by simp [buildUplink, Option.filter, hsup]⟩
  | rej => exact ⟨rfl, by simp [buildUplink, Option.filter, hsup]⟩
  | rejF => exact ⟨rfl, by simp [buildUplink, Option.filter, hsup]⟩

/-- The transmitting side after an uplink opportunity on a link that stays established. -/
theorem uplink_tx {ch : ChType} {sapi : Sapi} {dlActive displaced : Bool} {c : Chan} (hvs : c.cch.vs < 8)
    (hvr : c.cch.vr < 8) (h : c.state.established)
    (he : (step sapi (.uplink ch dlActive displaced) c).1.state.established) :
    let r := step sapi (.uplink ch dlActive displaced) c
    Tx.Uplink ch sapi c.cch.vr c.tx r.1.tx (r.2.frame.filter Frame.isI) ∧ confirmations r.2.prims = 0 := by
  have hc := chooseUplink_chooses ch sapi dlActive h
  have hs := chooseUplink_signals ch sapi dlActive c
  simp only [step, dlUplink] at he ⊢
  generalize chooseUplink ch sapi dlActive c = d at hc hs he ⊢
  have hsig : ∀ x : Chan × Option Frame, (serve sapi d.2.2 x.1).1.state.established →
      (serve sapi d.2.2 x.1).1.tx = x.1.tx ∧ confirmations (serve sapi d.2.2 x.1).2 = 0 := fun x hx => serve_tx hs hx
  have hest : d.1.state.established := by
    have hb : ∀ send, (buildUplink ch sapi send d.1).1.state = d.1.state := fun send => by cases send <;> rfl
    split at he
    · exact serve_established he
    · rw [← hb d.2.1]
      exact serve_established he
  rcases hc with hc | ⟨hv, hc⟩
  · rw [hest] at hc
    cases hc
  split at he
  · rename_i hdisp
    simp only [hdisp, if_true]
    obtain ⟨htx, hcnf⟩ := serve_tx hs he
    rw [htx]
    refine ⟨?_, hcnf⟩
    generalize d.1.tx = u at hc
    generalize d.2.1 = send at hc
    cases hc with
    | idle running hr hp => exact .idle running hr
    | expire running hm hr hp => exact .expire running (.inr hr)
    | «repeat» running hr => exact .expire running hr
    | send running hm hr hw hq => exact .idle running hr
  · rename_i hdisp
    simp only [hdisp, Bool.false_eq_true, if_false]
    obtain ⟨htx, hcnf⟩ := serve_tx hs he
    rw [htx]
    refine ⟨?_, hcnf⟩
    obtain ⟨e, send, sigs⟩ := d
    simp only at hc hv ⊢
    generalize hu : e.tx = u at hc
    cases hc with
    | idle running hr hp =>
      obtain ⟨h1, h2⟩ := buildUplink_plain ch sapi hp e
      rw [h1, h2, hu]
      exact .idle running hr
    | expire running hm hr hp =>
      obtain ⟨h1, h2⟩ := buildUplink_plain ch sapi hp e
      rw [h1, h2, hu]
      exact .expire running (.inr hr)
    | «repeat» running hr =>
      have hevs : e.cch.vs = c.cch.vs := congrArg Tx.vs hu
      have heq : e.queue = c.queue := congrArg Tx.queue hu
      have hest' : e.state = .timerRecovery := congrArg Tx.state hu
      have heva : e.cch.va = c.cch.va := congrArg Tx.va hu
      have hf := command_isI ch sapi (show (c.cch.vs + 7) % 8 < 8 by omega) hvr true c.queue.mBit c.queue.transmit
      have htx' : (buildUplink ch sapi .iframeP e).1.tx = { c.tx with state := .timerRecovery, running := true } := by
        have hrun : (buildUplink ch sapi .iframeP e).1.cch.running = true := by
          cases ch <;> cases sapi <;> rfl
        have hback : (buildUplink ch sapi .iframeP e).1.cch.vs = c.cch.vs := by
          have hb : (buildUplink ch sapi .iframeP e).1.cch.vs = ((e.cch.vs + 7) % 8 + 1) % 8 := rfl
          rw [hb, hevs]
          omega
        have hb : (buildUplink ch sapi .iframeP e).1.tx =
            { state := e.state, va := e.cch.va, vs := (buildUplink ch sapi .iframeP e).1.cch.vs
              running := (buildUplink ch sapi .iframeP e).1.cch.running, queue := e.queue } := rfl
        rw [hb, hrun, hback, hest', heva, heq]
        rfl
      have hfr : (buildUplink ch sapi .iframeP e).2.filter Frame.isI =
          some (comBuildICommand ch sapi ((c.tx.vs + 7) % 8) c.cch.vr true c.tx.queue.mBit c.tx.queue.transmit) := by
        have hb : (buildUplink ch sapi .iframeP e).2 =
            some (comBuildICommand ch sapi ((e.cch.vs + 7) % 8) e.cch.vr true e.queue.mBit e.queue.transmit) := rfl
        rw [hb, hevs, hv, heq]
        simp only [Option.filter, hf, if_true]
        rfl
      rw [htx', hfr]
      exact .repeat true hr
    | send running hm hr hw hq =>
      have hevs : e.cch.vs = c.cch.vs := congrArg Tx.vs hu
      have heq : e.queue = c.queue := congrArg Tx.queue hu
      have hest' : e.state = c.state := congrArg Tx.state hu
      have heva : e.cch.va = c.cch.va := congrArg Tx.va hu
      have hf := command_isI ch sapi hvs hvr false (comReadQueue ch c.queue).mBit (comReadQueue ch c.queue).transmit
      have htx' : (buildUplink ch sapi .iframe e).1.tx =
          { c.tx with running := true, vs := (c.tx.vs + 1) % 8, queue := comReadQueue ch c.tx.queue } := by
        have hrun : (buildUplink ch sapi .iframe e).1.cch.running = true := by
          cases ch <;> cases sapi <;> rfl
        have hb : (buildUplink ch sapi .iframe e).1.tx =
            { state := e.state, va := e.cch.va, vs := (e.cch.vs + 1) % 8
              running := (buildUplink ch sapi .iframe e).1.cch.running, queue := comReadQueue ch e.queue } := rfl
        rw [hb, hrun, hest', heva, heq, hevs]
        rfl
      have hfr : (buildUplink ch sapi .iframe e).2.filter Frame.isI =
          some (comBuildICommand ch sapi c.tx.vs c.cch.vr false (comReadQueue ch c.tx.queue).mBit
            (comReadQueue ch c.tx.queue).transmit) := by
        have hb : (buildUplink ch sapi .iframe e).2 =
            some (comBuildICommand ch sapi e.cch.vs e.cch.vr false (comReadQueue ch e.queue).mBit
              (comReadQueue ch e.queue).transmit) := rfl
        rw [hb, hevs, hv, heq]
        simp only [Option.filter, hf, if_true]
        rfl
      rw [htx', hfr]
      exact .send hm hw hq

end Citrine.Dl
