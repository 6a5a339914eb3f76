import Citrine.Sms.Rl

/-!
# The reports of the relay layer

Every request of the transfer layer is concluded by one report, and the timers run in the states that wait for something
(`rl_reports`).  What the transfer layer waits for is kept in a ledger beside the instance.
-/

namespace Citrine.Sms

/-! ### The ledger -/

/-- What the transfer layer waits for. -/
inductive Subject where
  | establishment | request | received | retry
  deriving DecidableEq, Repr

/-- What is awaited, the requests that were given up without a report, and the reports that nobody waited for. -/
structure Ledger where
  awaited : Option Subject
  lost : Nat
  doubled : Nat
  deriving DecidableEq, Repr

def Ledger.await (l : Ledger) (subject : Subject) : Ledger :=
  { l with awaited := some subject, lost := if l.awaited = some .request then l.lost + 1 else l.lost }

def Ledger.settle (l : Ledger) : Ledger :=
  { l with awaited := none, doubled := if l.awaited = none then l.doubled + 1 else l.doubled }

/-- A call changes the ledger: a request goes down to the connection management, a report goes up. -/
def Ledger.call (l : Ledger) : Call → Ledger
  | .cpEstablishReq _ => l.await .establishment
  | .cpDataReq rpMti _ _ => if rpMti = rpDataUl ∨ rpMti = rpSmmaUl then l.await .request else l
  | .tlDataInd => l.await .received
  | .tlEstablishCnf _ | .tlReportInd _ | .tlTimeoutInd _ => l.settle
  | _ => l

/-- The ledger after the calls of a list, the last one first. -/
def Ledger.book (l : Ledger) : List Call → Ledger
  | [] => l
  | c :: cs => (l.book cs).call c

/-! ### Runs -/

/-- What happens to the layer. -/
inductive RlEvent where
  | establishReq (ti : Nat)
  | dataReq (msgRef : Nat)
  | memAvailReq
  | startTramReq
  | reportReqAck
  | reportReqError (cause : Nat)
  | establishCnf (success : Bool) (answer : Rl.Answer)
  | dataInd (rpMti reference rpCause : Nat) (busyWaiting : Bool)
  | errorInd (cause : Nat)
  | proceed
  | timeout (timer : RlTimer)
  /-- The transfer layer and the connection management write to the instance. -/
  | setUp (retrans : Bool) (tlRetx tpMr ti : Nat) (downlinkMmsms cmmsActive : Bool)
  deriving DecidableEq, Repr

def RlEvent.exec (s : Rl) : RlEvent → Rl
  | .establishReq ti => s.establishReq ti
  | .dataReq msgRef => (s.dataReq msgRef).1
  | .memAvailReq => s.memAvailReq.1
  | .startTramReq => s.startTramReq
  | .reportReqAck => s.reportReqAck
  | .reportReqError cause => s.reportReqError cause
  | .establishCnf success answer => s.establishCnf success answer
  | .dataInd rpMti reference rpCause busyWaiting => s.dataInd rpMti reference rpCause busyWaiting
  | .errorInd cause => s.errorInd cause
  | .proceed => s.proceed
  | .timeout timer => s.execTimeout timer
  | .setUp retrans tlRetx tpMr ti downlinkMmsms cmmsActive =>
    { s with
      retrans := retrans
      tlRetx := tlRetx
      tpMr := tpMr
      ti := ti
      downlinkMmsms := downlinkMmsms
      cmmsActive := cmmsActive }

/-- A timer expires only when it runs, and the transfer layer calls `rl_start_tram_req` only from a report, when the
layer is idle. -/
def RlEvent.enabled (s : Rl) : RlEvent → Bool
  | .timeout timer => s.timerCheck timer
  | .startTramReq => s.state == .idle
  | _ => true

/-- The transfer layer starts to wait for a retry, or it has reported about the received message itself. -/
def RlEvent.tell (s : Rl) (l : Ledger) : RlEvent → Ledger
  | .startTramReq => l.await .retry
  | .reportReqAck | .reportReqError _ => if s.state = .waitForSendAck then { l with awaited := none } else l
  | _ => l

/-- The layer, and the ledger of the transfer layer. -/
structure Relay where
  rl : Rl
  ledger : Ledger
  deriving DecidableEq, Repr

def Relay.step (s : Relay) (e : RlEvent) : Option Relay :=
  if e.enabled s.rl then
    let rl := e.exec { s.rl with calls := [] }
    some ⟨rl, (e.tell s.rl s.ledger).book rl.calls⟩
  else none

/-- `rl_init` -/
def relay.machine : Machine Relay RlEvent where
  init := fun s => s.rl.state = .idle ∧ s.rl.tr1m = false ∧ s.rl.tr2m = false ∧ s.rl.tram = false ∧
    s.ledger = ⟨none, 0, 0⟩
  step := Relay.step

/-- A message that is neither `RP_ACK_DL` nor `RP_ERROR_DL` does not arrive while an `RP_SMMA` waits for its answer, unless
its type is unknown, and it does not make an `RP_DATA` wait for the logical link; the lower layer has no error while the
retry of an `RP_SMMA` waits; and a connection that is established is used at once. -/
def RlEvent.sound (s : Relay) : RlEvent → Bool
  | .dataInd rpMti _ _ busyWaiting =>
    (s.rl.state != .waitForSmmaAck || rpMti == rpAckDl || rpMti == rpErrorDl || decide (rpMti > 6)) &&
      (s.rl.state != .waitForAck || rpMti == rpAckDl || rpMti == rpErrorDl || !busyWaiting)
  | .errorInd _ => s.rl.state != .waitForRetransTimer
  | .establishCnf success answer => s.rl.state != .establish || !success || answer != .nothing
  | _ => true

/-! ### The invariant -/

/-- The timer that ends a state. -/
def RlState.timer : RlState → Option RlTimer
  | .waitForAck | .waitForSmmaAck | .establish => some .tr1m
  | .waitForSendAck => some .tr2m
  | .waitForRetransTimer => some .tram
  | _ => none

/-- What the transfer layer waits for in a state. -/
def RlState.subjects : RlState → List (Option Subject)
  | .waitForAck | .waitForSmmaAck => [some .request]
  | .establish => [some .establishment]
  | .waitForSendAck => [some .received]
  | .waitForRetransTimer => [some .request, some .retry]
  | .idle => [none]
  | _ => []

/-- The timers that run in a state. -/
structure Rl.Timed (s : Rl) : Prop where
  tr1m : s.tr1m = (s.state.timer == some .tr1m)
  tr2m : s.tr2m = (s.state.timer == some .tr2m)
  tram : s.tram = (s.state.timer == some .tram)

/-- Nothing is lost or doubled, and what is awaited belongs to the state. -/
structure Ledger.Fits (l : Ledger) (state : RlState) : Prop where
  lost : l.lost = 0
  doubled : l.doubled = 0
  awaited : l.awaited ∈ state.subjects

/-- The state, its timer and what is awaited agree. -/
structure Relay.Sound (s : Relay) : Prop where
  timed : s.rl.Timed
  fits : s.ledger.Fits s.rl.state

/-- The timers agree with the state, and what has been called so far fits it. -/
structure Rl.Booked (s : Rl) (l : Ledger) : Prop extends Rl.Timed s where
  fits : (l.book s.calls).Fits s.state

section
variable {s : Rl} {l : Ledger} {state state' : RlState}

private theorem fits_settle (h : l.Fits state) (hs : state ≠ .idle) : l.settle.Fits .idle := by
  obtain ⟨hl, hd, ha⟩ := h
  refine ⟨hl, ?_, List.mem_singleton_self _⟩
  have hne : l.awaited ≠ none := by
    intro hn
    rw [hn] at ha
    cases state <;> simp [RlState.subjects] at ha hs
  unfold Ledger.settle
  rw [if_neg hne]
  exact hd

private theorem fits_await {subject : Subject} (h : l.Fits state) (hr : l.awaited ≠ some .request)
    (hs : some subject ∈ state'.subjects) : (l.await subject).Fits state' := by
  refine ⟨?_, h.doubled, hs⟩
  unfold Ledger.await
  rw [if_neg hr]
  exact h.lost

private theorem fits_not_request (h : l.Fits .idle) : l.awaited ≠ some .request := by
  rw [List.mem_singleton.1 h.awaited]
  exact nofun

private theorem fits_same (h : l.Fits state) (hs : ∀ a ∈ state.subjects, a ∈ state'.subjects) : l.Fits state' :=
  ⟨h.lost, h.doubled, hs _ h.awaited⟩

private theorem Rl.Booked.at (h : s.Booked l) (hst : s.state = state) :
    s.tr1m = (state.timer == some .tr1m) ∧ s.tr2m = (state.timer == some .tr2m) ∧
      s.tram = (state.timer == some .tram) ∧ (l.book s.calls).Fits state := by
  subst hst
  exact ⟨h.tr1m, h.tr2m, h.tram, h.fits⟩

/-! ### Requests -/

private theorem establishReq_booked (ti : Nat) (h : s.Booked l) : (s.establishReq ti).Booked l := by
  unfold Rl.establishReq
  cases hst : s.state <;> simp only
  case idle =>
    obtain ⟨-, h2, h3, hl⟩ := h.at hst
    exact ⟨⟨rfl, h2, h3⟩, fits_await hl (fits_not_request hl) (List.mem_singleton_self _)⟩
  all_goals exact h

private theorem dataReq_booked (msgRef : Nat) (h : s.Booked l) : (s.dataReq msgRef).1.Booked l := by
  unfold Rl.dataReq
  cases hst : s.state <;> simp only
  case established =>
    obtain ⟨-, -, -, hl⟩ := h.at hst
    exact absurd hl.awaited List.not_mem_nil
  all_goals exact h

private theorem memAvailReq_booked (h : s.Booked l) : s.memAvailReq.1.Booked l := by
  unfold Rl.memAvailReq
  cases hst : s.state <;> simp only
  case established =>
    obtain ⟨-, -, -, hl⟩ := h.at hst
    exact absurd hl.awaited List.not_mem_nil
  all_goals exact h

private theorem startTramReq_booked (h : s.Booked l) (hc : s.calls = []) (hst : s.state = .idle) :
    s.startTramReq.Booked (l.await .retry) := by
  obtain ⟨h1, h2, -, hl⟩ := h.at hst
  rw [hc] at hl
  refine ⟨⟨h1, h2, rfl⟩, ?_⟩
  change ((l.await .retry).book s.calls).Fits .waitForRetransTimer
  rw [hc]
  exact fits_await hl (fits_not_request hl) (by decide)

private theorem reportReqAck_other (hst : s.state ≠ .waitForSendAck) : s.reportReqAck = s := by
  unfold Rl.reportReqAck
  split
  · contradiction
  · rfl

private theorem reportReqError_other (cause : Nat) (hst : s.state ≠ .waitForSendAck) : s.reportReqError cause = s := by
  unfold Rl.reportReqError
  split
  · contradiction
  · rfl

/-- The transfer layer has reported about a received message itself. -/
private theorem reportReqAck_booked (h : s.Booked l) (hc : s.calls = []) (hst : s.state = .waitForSendAck) :
    s.reportReqAck.Booked { l with awaited := none } := by
  obtain ⟨h1, -, h3, hl⟩ := h.at hst
  rw [hc] at hl
  unfold Rl.reportReqAck
  rw [hst]
  refine ⟨⟨h1, rfl, h3⟩, ?_⟩
  change (({ l with awaited := none } : Ledger).book s.calls).Fits .idle
  rw [hc]
  exact ⟨hl.lost, hl.doubled, List.mem_singleton_self _⟩

private theorem reportReqError_booked (cause : Nat) (h : s.Booked l) (hc : s.calls = []) (hst : s.state = .waitForSendAck) :
    (s.reportReqError cause).Booked { l with awaited := none } := by
  obtain ⟨h1, -, h3, hl⟩ := h.at hst
  rw [hc] at hl
  unfold Rl.reportReqError
  rw [hst]
  refine ⟨⟨h1, rfl, h3⟩, ?_⟩
  change (({ l with awaited := none } : Ledger).book s.calls).Fits .idle
  rw [hc]
  exact ⟨hl.lost, hl.doubled, List.mem_singleton_self _⟩

/-! ### Signals -/

private theorem cmmsPending_eq (s : Rl) : ∃ b, s.cmmsPending = { s with cmmsReleasePending := b } := by
  unfold Rl.cmmsPending
  split
  · exact ⟨true, rfl⟩
  · exact ⟨s.cmmsReleasePending, rfl⟩

private theorem establishCnf_booked {success : Bool} {answer : Rl.Answer} (h : s.Booked l)
    (hok : s.state = .establish → success = true → answer ≠ .nothing) : (s.establishCnf success answer).Booked l := by
  unfold Rl.establishCnf
  cases hst : s.state <;> simp only
  case establish =>
    obtain ⟨-, h2, h3, hl⟩ := h.at hst
    have hset : ((l.book s.calls).settle).Fits .idle := fits_settle hl nofun
    cases success with
    | false => cases answer <;> exact ⟨⟨rfl, h2, h3⟩, hset⟩
    | true =>
      have hnr := fits_not_request hset
      cases answer with
      | nothing => exact absurd rfl (hok hst rfl)
      | dataReq msgRef => exact ⟨⟨rfl, h2, h3⟩, fits_await hset hnr (List.mem_singleton_self _)⟩
      | memAvailReq => exact ⟨⟨rfl, h2, h3⟩, fits_await hset hnr (List.mem_singleton_self _)⟩
  all_goals exact h

/-- An instance ends with a report. -/
private theorem errorReport_booked (cause : Nat) (h1 : s.tr1m = false) (h2 : s.tr2m = false) (h3 : s.tram = false)
    (hl : (l.book s.calls).Fits state) (hne : state ≠ .idle) : (s.errorReport cause).Booked l :=
  ⟨⟨h1, h2, h3⟩, fits_settle hl hne⟩

private theorem smmaError_booked (rpCause : Nat) (h : s.Booked l) (hst : s.state = .waitForSmmaAck) :
    (s.smmaError rpCause).Booked l := by
  obtain ⟨h1, h2, h3, hl⟩ := h.at hst
  have hset : ((l.book s.calls).settle).Fits .idle := fits_settle hl nofun
  unfold Rl.smmaError
  split
  · split
    · exact ⟨⟨rfl, h2, h3⟩, hset⟩
    · have hsub : ∀ a ∈ RlState.waitForSmmaAck.subjects, a ∈ RlState.waitForRetransTimer.subjects := by decide
      exact ⟨⟨rfl, h2, rfl⟩, fits_same hl hsub⟩
  · exact ⟨⟨rfl, h2, h3⟩, hset⟩

private theorem unknownInd_booked (rpMti reference : Nat) (h : s.Booked l) (hst : s.state = .waitForAck) :
    (s.unknownInd rpMti reference false).Booked l := by
  obtain ⟨-, h2, h3, hl⟩ := h.at hst
  have hset : ((l.book s.calls).settle).Fits .idle := fits_settle hl nofun
  unfold Rl.unknownInd
  obtain ⟨cause, hcause⟩ : ∃ cause, (if rpMti > 6 then csMsgNonExist else csProtocolError) = cause := ⟨_, rfl⟩
  simp only [hcause, Bool.false_eq_true, if_false]
  split
  · obtain ⟨b, hb⟩ := cmmsPending_eq (((s.timerStop .tr1m).call (.cpDataReq rpErrorUl reference (some cause))).setState .idle)
    rw [hb]
    exact ⟨⟨rfl, h2, h3⟩, hset⟩
  · exact ⟨⟨rfl, h2, h3⟩, hset⟩

/-- `rl_data_ind` in `RL_WAIT_FOR_ACK` -/
private theorem dataInd_waitForAck {rpMti reference rpCause : Nat} {busyWaiting : Bool} (h : s.Booked l)
    (hst : s.state = .waitForAck) (hok : rpMti = rpAckDl ∨ rpMti = rpErrorDl ∨ busyWaiting = false) :
    (s.dataInd rpMti reference rpCause busyWaiting).Booked l := by
  obtain ⟨h1, h2, h3, hl⟩ := h.at hst
  have hset : ((l.book s.calls).settle).Fits .idle := fits_settle hl nofun
  unfold Rl.dataInd
  rw [hst]
  simp only
  split
  · obtain ⟨b, hb⟩ := cmmsPending_eq ((s.timerStop .tr1m).setState .idle)
    rw [hb]
    exact ⟨⟨rfl, h2, h3⟩, hset⟩
  · rename_i hack
    split
    · obtain ⟨b, hb⟩ := cmmsPending_eq (s.timerStop .tr1m)
      rw [hb]
      split
      · -- the message will be sent again when `TR1M` expires
        refine ⟨⟨?_, h.tr2m, h.tram⟩, h.fits⟩
        change true = (s.state.timer == some .tr1m)
        rw [hst]
        rfl
      · exact ⟨⟨rfl, h2, h3⟩, hset⟩
    · rename_i herr
      obtain rfl : busyWaiting = false := (hok.resolve_left hack).resolve_left herr
      exact unknownInd_booked rpMti reference h hst

/-- `rl_data_ind` in `RL_WAIT_FOR_SMMA_ACK` -/
private theorem dataInd_waitForSmmaAck {rpMti reference rpCause : Nat} {busyWaiting : Bool} (h : s.Booked l)
    (hst : s.state = .waitForSmmaAck) (hok : rpMti = rpAckDl ∨ rpMti = rpErrorDl ∨ rpMti > 6) :
    (s.dataInd rpMti reference rpCause busyWaiting).Booked l := by
  obtain ⟨h1, h2, h3, hl⟩ := h.at hst
  have hset : ((l.book s.calls).settle).Fits .idle := fits_settle hl nofun
  unfold Rl.dataInd
  rw [hst]
  simp only
  split
  · exact ⟨⟨rfl, h2, h3⟩, hset⟩
  · rename_i hack
    split
    · exact smmaError_booked rpCause h hst
    · rename_i herr
      rw [if_pos ((hok.resolve_left hack).resolve_left herr)]
      exact ⟨⟨rfl, h2, h3⟩, hset⟩

private theorem dataInd_booked {rpMti reference rpCause : Nat} {busyWaiting : Bool} (h : s.Booked l)
    (hack : s.state = .waitForAck → rpMti = rpAckDl ∨ rpMti = rpErrorDl ∨ busyWaiting = false)
    (hsmma : s.state = .waitForSmmaAck → rpMti = rpAckDl ∨ rpMti = rpErrorDl ∨ rpMti > 6) :
    (s.dataInd rpMti reference rpCause busyWaiting).Booked l := by
  cases hst : s.state with
  | waitForAck => exact dataInd_waitForAck h hst (hack hst)
  | waitForSmmaAck => exact dataInd_waitForSmmaAck h hst (hsmma hst)
  | idle =>
    obtain ⟨h1, h2, h3, hl⟩ := h.at hst
    unfold Rl.dataInd
    rw [hst]
    simp only
    split
    · exact ⟨⟨h1, rfl, h3⟩, fits_await hl (fits_not_request hl) (List.mem_singleton_self _)⟩
    · exact ⟨⟨h1, h2, h3⟩, hl⟩
  | established => exact absurd (h.at hst).2.2.2.awaited List.not_mem_nil
  | waitForSendAck =>
    unfold Rl.dataInd
    rw [hst]
    exact ⟨⟨h.tr1m, h.tr2m, h.tram⟩, h.fits⟩
  | waitForRetransTimer | establish | waitForSendError =>
    unfold Rl.dataInd
    rw [hst]
    exact h

private theorem errorInd_booked (cause : Nat) (h : s.Booked l) (hok : s.state ≠ .waitForRetransTimer) :
    (s.errorInd cause).Booked l := by
  unfold Rl.errorInd
  cases hst : s.state with
  | establish =>
    obtain ⟨h1, h2, h3, hl⟩ := h.at hst
    simp only
    split
    · refine ⟨⟨?_, h.tr2m, h.tram⟩, h.fits⟩
      change true = (s.state.timer == some .tr1m)
      rw [hst]
      rfl
    · exact errorReport_booked cause rfl h2 h3 hl nofun
  | waitForAck =>
    obtain ⟨h1, h2, h3, hl⟩ := h.at hst
    simp only
    split
    · refine ⟨⟨?_, h.tr2m, h.tram⟩, h.fits⟩
      change true = (s.state.timer == some .tr1m)
      rw [hst]
      rfl
    · split
      · exact h
      · exact errorReport_booked cause rfl h2 h3 hl nofun
  | waitForSendAck =>
    obtain ⟨h1, h2, h3, hl⟩ := h.at hst
    exact ⟨⟨h1, rfl, h3⟩, fits_settle hl nofun⟩
  | waitForSmmaAck =>
    obtain ⟨h1, h2, h3, hl⟩ := h.at hst
    simp only
    split
    · exact ⟨⟨rfl, h2, h3⟩, fits_settle hl nofun⟩
    · have hsub : ∀ a ∈ RlState.waitForSmmaAck.subjects, a ∈ RlState.waitForRetransTimer.subjects := by decide
      exact ⟨⟨rfl, h2, rfl⟩, fits_same hl hsub⟩
  | idle =>
    obtain ⟨h1, h2, h3, hl⟩ := h.at hst
    simp only
    split <;> exact ⟨⟨h1, h2, h3⟩, hl⟩
  | established => exact absurd (h.at hst).2.2.2.awaited List.not_mem_nil
  | waitForSendError => exact absurd (h.at hst).2.2.2.awaited List.not_mem_nil
  | waitForRetransTimer => exact absurd hst hok

private theorem proceed_booked (h : s.Booked l) : s.proceed.Booked l := by
  unfold Rl.proceed
  cases hst : s.state <;> simp only
  case waitForSendError => exact absurd (h.at hst).2.2.2.awaited List.not_mem_nil
  all_goals exact h

/-! ### Timeouts -/

/-- The timer of the state expires. -/
private theorem execTimeout_booked {timer : RlTimer} (h : s.Booked l) (hrun : s.timerCheck timer = true) :
    (s.execTimeout timer).Booked l := by
  cases timer with
  | tr1m =>
    have htimer : s.state.timer = some .tr1m := beq_iff_eq.1 (h.tr1m.symm.trans hrun)
    unfold Rl.execTimeout
    simp only
    change (Rl.timTr1m (s.timerStop .tr1m)).Booked l
    unfold Rl.timTr1m
    rw [show (s.timerStop .tr1m).state = s.state from rfl]
    cases hst : s.state with
    | establish | waitForAck =>
      obtain ⟨-, h2, h3, hl⟩ := h.at hst
      exact ⟨⟨rfl, h2, h3⟩, fits_settle hl nofun⟩
    | waitForSmmaAck =>
      obtain ⟨-, h2, h3, hl⟩ := h.at hst
      simp only
      split
      · exact ⟨⟨rfl, h2, h3⟩, fits_settle hl nofun⟩
      · have hsub : ∀ a ∈ RlState.waitForSmmaAck.subjects, a ∈ RlState.waitForRetransTimer.subjects := by decide
        exact ⟨⟨rfl, h2, rfl⟩, fits_same hl hsub⟩
    | idle | waitForSendAck | waitForRetransTimer | established | waitForSendError =>
      rw [hst] at htimer
      cases htimer
  | tr2m =>
    have htimer : s.state.timer = some .tr2m := beq_iff_eq.1 (h.tr2m.symm.trans hrun)
    have hst : s.state = .waitForSendAck := by
      cases hst : s.state <;> rw [hst] at htimer <;> first | rfl | cases htimer
    obtain ⟨h1, -, h3, hl⟩ := h.at hst
    unfold Rl.execTimeout Rl.timTr2m Rl.reportReqError Rl.setRunning
    simp only [hst]
    exact ⟨⟨h1, rfl, h3⟩, fits_settle hl nofun⟩
  | tram =>
    have htimer : s.state.timer = some .tram := beq_iff_eq.1 (h.tram.symm.trans hrun)
    have hst : s.state = .waitForRetransTimer := by
      cases hst : s.state <;> rw [hst] at htimer <;> first | rfl | cases htimer
    obtain ⟨h1, h2, -, hl⟩ := h.at hst
    unfold Rl.execTimeout Rl.timTram Rl.setRunning
    simp only [hst]
    exact ⟨⟨h1, h2, rfl⟩, fits_settle hl nofun⟩

/-! ### Runs -/

private theorem init_inv_relay {s : Relay} (h : relay.machine.init s) : s.Sound := by
  obtain ⟨hst, h1, h2, h3, hl⟩ := h
  refine ⟨⟨by rw [h1, hst]; rfl, by rw [h2, hst]; rfl, by rw [h3, hst]; rfl⟩, ?_⟩
  rw [hst, hl]
  exact ⟨rfl, rfl, List.mem_singleton_self _⟩

/-- What the transfer layer is told, and the calls of the handler, are entered in the ledger. -/
private theorem exec_booked {s : Rl} {e : RlEvent} (h : s.Booked l) (hc : s.calls = []) (hen : e.enabled s = true)
    (hok : e.sound ⟨s, l⟩ = true) : (e.exec s).Booked (e.tell s l) := by
  cases e with
  | establishReq ti => exact establishReq_booked ti h
  | dataReq msgRef => exact dataReq_booked msgRef h
  | memAvailReq => exact memAvailReq_booked h
  | startTramReq => exact startTramReq_booked h hc (beq_iff_eq.1 hen)
  | reportReqAck =>
    change s.reportReqAck.Booked (if s.state = .waitForSendAck then { l with awaited := none } else l)
    split
    · rename_i hst
      exact reportReqAck_booked h hc hst
    · rename_i hst
      rw [reportReqAck_other hst]
      exact h
  | reportReqError cause =>
    change (s.reportReqError cause).Booked (if s.state = .waitForSendAck then { l with awaited := none } else l)
    split
    · rename_i hst
      exact reportReqError_booked cause h hc hst
    · rename_i hst
      rw [reportReqError_other cause hst]
      exact h
  | establishCnf success answer =>
    refine establishCnf_booked h fun hst hsuc => ?_
    simpa [RlEvent.sound, hst, hsuc] using hok
  | dataInd rpMti reference rpCause busyWaiting =>
    obtain ⟨h1, h2⟩ := Bool.and_eq_true_iff.1 hok
    refine dataInd_booked h (fun hst => ?_) fun hst => ?_
    · simpa [hst, or_assoc] using h2
    · simpa [hst, or_assoc] using h1
  | errorInd cause => exact errorInd_booked cause h (bne_iff_ne.1 hok)
  | proceed => exact proceed_booked h
  | timeout timer => exact execTimeout_booked h hen
  | setUp => exact ⟨⟨h.tr1m, h.tr2m, h.tram⟩, h.fits⟩

private theorem step_inv_relay {s t : Relay} {e : RlEvent} (h : s.Sound) (hok : e.sound s = true)
    (hs : s.step e = some t) : t.Sound := by
  unfold Relay.step at hs
  split at hs
  · rename_i hen
    cases hs
    have hstart : ({ s.rl with calls := [] } : Rl).Booked s.ledger := ⟨⟨h.timed.tr1m, h.timed.tr2m, h.timed.tram⟩, h.fits⟩
    have hen' : e.enabled { s.rl with calls := [] } = true := by
      cases e <;> exact hen
    have hok' : e.sound ⟨{ s.rl with calls := [] }, s.ledger⟩ = true := by
      cases e <;> exact hok
    have htell : e.tell { s.rl with calls := [] } s.ledger = e.tell s.rl s.ledger := by
      cases e <;> rfl
    have hbooked := exec_booked hstart rfl hen' hok'
    rw [htell] at hbooked
    exact ⟨hbooked.toTimed, hbooked.fits⟩
  · cases hs

end

/-- The relay layer loses no request, and reports about none of them twice. -/
structure Relay.Reported (s : Relay) : Prop where
  lost : s.ledger.lost = 0
  doubled : s.ledger.doubled = 0
  /-- An idle layer has reported about everything. -/
  idle : s.ledger.awaited = none ↔ s.rl.state = .idle
  /-- A request is awaited in these states. -/
  request : s.ledger.awaited = some .request →
    s.rl.state = .waitForAck ∨ s.rl.state = .waitForSmmaAck ∨ s.rl.state = .waitForRetransTimer
  tr1m : s.rl.tr1m = true ↔ s.rl.state = .waitForAck ∨ s.rl.state = .waitForSmmaAck ∨ s.rl.state = .establish
  tr2m : s.rl.tr2m = true ↔ s.rl.state = .waitForSendAck
  tram : s.rl.tram = true ↔ s.rl.state = .waitForRetransTimer
  /-- A timer ends a layer that is not idle, at the latest after `TRAM`. -/
  ends : s.rl.state ≠ .idle → ∃ timer t, s.rl.timerCheck timer = true ∧ s.step (.timeout timer) = some t ∧
    (t.rl.state = .idle ∨ t.rl.tram = true ∧ ∃ u, t.step (.timeout .tram) = some u ∧ u.rl.state = .idle)

private theorem reported_ends {s : Relay} (h : s.Sound) (hs : s.rl.state ≠ .idle) :
    ∃ timer t, s.rl.timerCheck timer = true ∧ s.step (.timeout timer) = some t ∧
      (t.rl.state = .idle ∨ t.rl.tram = true ∧ ∃ u, t.step (.timeout .tram) = some u ∧ u.rl.state = .idle) := by
  have hnil : s.rl.state.subjects ≠ [] := by
    intro hn
    have := h.fits.awaited
    rw [hn] at this
    exact List.not_mem_nil this
  -- `TRAM` ends its state
  have htram : ∀ t : Relay, t.rl.state = .waitForRetransTimer → t.rl.tram = true →
      ∃ u, t.step (.timeout .tram) = some u ∧ u.rl.state = .idle := by
    intro t hst hrun
    refine ⟨_, if_pos hrun, ?_⟩
    change (Rl.timTram ({ t.rl with calls := [] }.setRunning .tram false)).state = .idle
    unfold Rl.timTram Rl.setRunning
    simp only [hst]
    rfl
  cases hst : s.rl.state with
  | idle => exact absurd hst hs
  | established => exact absurd (by rw [hst]; rfl) hnil
  | waitForSendError => exact absurd (by rw [hst]; rfl) hnil
  | waitForAck | establish =>
    have hrun : s.rl.tr1m = true := h.timed.tr1m.trans (by rw [hst]; rfl)
    refine ⟨.tr1m, _, hrun, if_pos hrun, .inl ?_⟩
    change (Rl.timTr1m ({ s.rl with calls := [] }.setRunning .tr1m false)).state = .idle
    unfold Rl.timTr1m Rl.setRunning
    simp only [hst]
    rfl
  | waitForSendAck =>
    have hrun : s.rl.tr2m = true := h.timed.tr2m.trans (by rw [hst]; rfl)
    refine ⟨.tr2m, _, hrun, if_pos hrun, .inl ?_⟩
    change (Rl.timTr2m ({ s.rl with calls := [] }.setRunning .tr2m false)).state = .idle
    unfold Rl.timTr2m Rl.setRunning
    simp only [hst]
    rfl
  | waitForRetransTimer =>
    have hrun : s.rl.tram = true := h.timed.tram.trans (by rw [hst]; rfl)
    obtain ⟨u, hu, hidle⟩ := htram s hst hrun
    exact ⟨.tram, u, hrun, hu, .inl hidle⟩
  | waitForSmmaAck =>
    have hrun : s.rl.tr1m = true := h.timed.tr1m.trans (by rw [hst]; rfl)
    have hstep : s.step (.timeout .tr1m) = some _ := if_pos hrun
    by_cases hr : s.rl.retrans = true
    · refine ⟨.tr1m, _, hrun, hstep, .inl ?_⟩
      change (Rl.timTr1m ({ s.rl with calls := [] }.setRunning .tr1m false)).state = .idle
      unfold Rl.timTr1m Rl.setRunning
      simp only [hst, if_pos hr]
      rfl
    · have hwait : (Rl.timTr1m ({ s.rl with calls := [] }.setRunning .tr1m false)).state = .waitForRetransTimer ∧
          (Rl.timTr1m ({ s.rl with calls := [] }.setRunning .tr1m false)).tram = true := by
        unfold Rl.timTr1m Rl.setRunning
        simp only [hst, if_neg hr]
        exact ⟨rfl, rfl⟩
      exact ⟨.tr1m, _, hrun, hstep, .inr ⟨hwait.2, htram _ hwait.1 hwait.2⟩⟩

private theorem Relay.Sound.reported {s : Relay} (h : s.Sound) : s.Reported := by
  have ha := h.fits.awaited
  have h1 := h.timed.tr1m
  have h2 := h.timed.tr2m
  have h3 := h.timed.tram
  refine ⟨h.fits.lost, h.fits.doubled, ?_, fun hr => ?_, ?_, ?_, ?_, reported_ends h⟩
  · cases hst : s.rl.state with
    | idle =>
      rw [hst] at ha
      exact iff_of_true (List.mem_singleton.1 ha) rfl
    | waitForAck | waitForSmmaAck | waitForSendAck | waitForRetransTimer | establish | established | waitForSendError =>
      rw [hst] at ha
      refine iff_of_false (fun hn => ?_) nofun
      rw [hn] at ha
      revert ha
      decide
  · rw [hr] at ha
    cases hst : s.rl.state with
    | waitForAck => exact .inl rfl
    | waitForSmmaAck => exact .inr (.inl rfl)
    | waitForRetransTimer => exact .inr (.inr rfl)
    | idle | waitForSendAck | establish | established | waitForSendError =>
      rw [hst] at ha
      revert ha
      decide
  · rw [h1]
    cases s.rl.state <;> decide
  · rw [h2]
    cases s.rl.state <;> decide
  · rw [h3]
    cases s.rl.state <;> decide

/-- A retry is only waited for when there has been none before. -/
private theorem exec_postponed {s : Rl} {e : RlEvent} (hst : s.state = .waitForSmmaAck) (hen : e.enabled s = true)
    (ht : (e.exec s).state = .waitForRetransTimer) : s.retrans = false ∧ (e.exec s).retrans = true := by
  have hstay : ∀ u : Rl, u.state = .waitForSmmaAck → u.state ≠ .waitForRetransTimer := fun u hu hn => by
    rw [hu] at hn
    cases hn
  cases e with
  | startTramReq =>
    change (s.state == .idle) = true at hen
    rw [hst] at hen
    cases hen
  | dataInd rpMti reference rpCause busyWaiting =>
    change (s.dataInd rpMti reference rpCause busyWaiting).state = _ at ht
    change _ ∧ (s.dataInd rpMti reference rpCause busyWaiting).retrans = true
    unfold Rl.dataInd at ht ⊢
    rw [hst] at ht ⊢
    simp only at ht ⊢
    split at ht
    · cases ht
    · split at ht
      · rename_i hack herr
        rw [if_neg hack, if_pos herr]
        unfold Rl.smmaError at ht ⊢
        split at ht
        · rename_i htemp
          split at ht
          · cases ht
          · rename_i hr
            rw [if_pos htemp, if_neg hr]
            exact ⟨Bool.eq_false_iff.2 hr, rfl⟩
        · cases ht
      · split at ht
        · cases ht
        · cases ht
  | errorInd cause =>
    change (s.errorInd cause).state = _ at ht
    change _ ∧ (s.errorInd cause).retrans = true
    unfold Rl.errorInd at ht ⊢
    simp only [hst] at ht ⊢
    split at ht
    · cases ht
    · rename_i hr
      rw [if_neg hr]
      exact ⟨Bool.eq_false_iff.2 hr, rfl⟩
  | timeout timer =>
    cases timer with
    | tr1m =>
      change (Rl.timTr1m (s.setRunning .tr1m false)).state = _ at ht
      change _ ∧ (Rl.timTr1m (s.setRunning .tr1m false)).retrans = true
      unfold Rl.timTr1m Rl.setRunning at ht ⊢
      simp only [hst] at ht ⊢
      split at ht
      · cases ht
      · rename_i hr
        rw [if_neg hr]
        exact ⟨Bool.eq_false_iff.2 hr, rfl⟩
    | tr2m =>
      refine absurd ht (hstay _ ?_)
      change (Rl.timTr2m (s.setRunning .tr2m false)).state = _
      unfold Rl.timTr2m Rl.setRunning
      simp only [hst]
    | tram =>
      refine absurd ht (hstay _ ?_)
      change (Rl.timTram (s.setRunning .tram false)).state = _
      unfold Rl.timTram Rl.setRunning
      simp only [hst]
  | setUp => exact absurd ht (hstay _ hst)
  | establishReq | dataReq | memAvailReq | reportReqAck | reportReqError | establishCnf | proceed =>
    refine absurd ht (hstay _ ?_)
    simp only [RlEvent.exec, Rl.establishReq, Rl.dataReq, Rl.memAvailReq, Rl.reportReqAck, Rl.reportReqError,
      Rl.establishCnf, Rl.proceed, hst]

/-- Every request is concluded by one report, and a timer runs in the states that wait; the one retry of an `RP_SMMA`
comes before its report. -/
theorem rl_reports {s : Relay} (h : relay.machine.Reach RlEvent.sound s) :
    s.Reported ∧ ∀ e t, e.sound s = true → s.step e = some t → s.rl.state = .waitForSmmaAck →
      t.rl.state = .waitForRetransTimer → s.rl.retrans = false ∧ t.rl.retrans = true := by
  refine ⟨(h.invariant (fun _ => init_inv_relay) fun _ _ _ => step_inv_relay).reported, fun e t _ hs hst ht => ?_⟩
  change s.step e = some t at hs
  unfold Relay.step at hs
  split at hs
  · rename_i hen
    cases hs
    have hen' : e.enabled { s.rl with calls := [] } = true := by
      cases e <;> exact hen
    exact exec_postponed (s := { s.rl with calls := [] }) hst hen' ht
  · cases hs

/-! ### A memory available notification -/

namespace relay

def start : Relay :=
  ⟨⟨.idle, false, false, false, false, 0, 0, 7, 0, 0, false, false, true, []⟩, ⟨none, 0, 0⟩⟩

private theorem start_init : machine.init start := ⟨rfl, rfl, rfl, rfl, rfl⟩

/-- A notification is refused, sent again after `TRAM`, and refused again. -/
def refused : List RlEvent :=
  [.establishReq 0, .establishCnf true .memAvailReq, .dataInd rpErrorDl 7 41 false, .timeout .tram, .establishReq 1,
    .establishCnf true .memAvailReq, .dataInd rpErrorDl 7 41 false]

private theorem refused_isSome : (machine.run RlEvent.sound start refused).isSome := by decide

theorem reports_refused : ∃ s : Relay, s.Reported ∧ s.rl.state = .idle ∧
    s.rl.calls = [.tlSmsMemoExceeded, .tlReportInd (causeMake false 41)] := by
  have hrun := (Option.some_get refused_isSome).symm
  exact ⟨_, (rl_reports (.of_run (.init start_init) hrun)).1, by decide, by decide⟩

/-- The notification is answered by a short message. -/
def answered : List RlEvent := [.establishReq 0, .establishCnf true .memAvailReq, .dataInd rpDataDl 9 0 false]

private theorem answered_isSome : (machine.run (fun _ _ => true) start answered).isSome := by decide

/-- The layer is idle without a report about the notification, and no timer runs. -/
theorem request_lost : ∃ s : Relay, machine.Reach (fun _ _ => true) s ∧ ¬ s.Reported ∧ s.rl.state = .idle ∧
    s.ledger.awaited = some .request ∧ s.rl.calls = [] ∧ ∀ timer, s.rl.timerCheck timer = false := by
  have hrun := (Option.some_get answered_isSome).symm
  refine ⟨_, .of_run (.init start_init) hrun, fun h => ?_, by decide, by decide, by decide, fun timer => ?_⟩
  · have := h.idle
    revert this
    decide
  · cases timer <;> decide

end relay

end Citrine.Sms
