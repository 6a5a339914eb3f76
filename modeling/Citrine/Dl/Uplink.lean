import Citrine.Dl.Downlink

/-!
# Uplink opportunities

`dl_uplink` for one SAPI (`dl_state.c`): the count of T200, its expiry, the choice of the frame by the channel
state, and the frame that is built.  What other SAPIs and the measurement reports do with the opportunity
enters as two flags: `dlActive`, a primitive is just being processed, and `displaced`, the priority
arrangement on the SACCH gives the opportunity to a measurement report.
-/

namespace Citrine.Dl

/-- The `UPLINK_` values; `normal` carries the frame that is already built. -/
inductive Send where
  | null | empty
  | normal (f : Frame)
  | ua | uaF | iframe | iframeP | rr | rrF | rej | rejF
  deriving DecidableEq, Repr

/-- An answer with or without the final bit. -/
def Send.final (fBit : Bool) (withF without : Send) : Send := if fBit then withF else without

/-- `if (pcch->time_flag) set_T200_counter (pcch, sapi);` -/
def startT200 (ch : ChType) (sapi : Sapi) (c : Chan) : Chan :=
  if c.cch.timeFlag then { c with cch := setT200Counter ch sapi c.cch } else c

/-! ### The states -/

/-- `uplink_idle` -/
def uplinkIdle (ch : ChType) (sapi : Sapi) (c : Chan) : Chan × Send × List Signal :=
  match c.cch.vtx with
  | .uaCmd =>
    if sapi = .sapi3 ∧ c.cch.fBit then
      ({ c with state := .multipleFrameEstablished }, .uaF,
        [.establishInd (comQueueAwaitingTransmission c.queue)])
    else (c, Send.final c.cch.fBit .uaF .ua, [])
  | .dmCmd =>
    -- on SAPI 3 the final bit is always set
    (c, .normal (comBuildDMResponse ch sapi (c.cch.fBit || sapi == .sapi3)), [])
  | _ => (c, .empty, [])

/-- `uplink_awaiting_establishment` -/
def uplinkAwaitingEstablishment (ch : ChType) (sapi : Sapi) (c : Chan) : Chan × Send × List Signal :=
  let c := startT200 ch sapi c
  match sapi, c.cch.vtx with
  | .sapi0, .sabmCmd =>
    let l3 := if c.cch.contentionResolution then c.queue.switchBuf.map Msg.sdu else none
    (c, .normal (comBuildSABM ch sapi l3), [])
  | .sapi3, .sabmCmd => (c, .normal (comBuildSABM ch sapi none), [])
  | .sapi3, .uaCmd =>
    ({ c with state := .multipleFrameEstablished }, Send.final c.cch.fBit .uaF .ua, [.establishCnf])
  | .sapi3, .dmCmd => (c, .normal (comBuildDMResponse ch sapi c.cch.fBit), [])
  | _, _ => (c, .empty, [])

/-- `uplink_awaiting_release` -/
def uplinkAwaitingRelease (ch : ChType) (sapi : Sapi) (c : Chan) : Chan × Send × List Signal :=
  let c := startT200 ch sapi c
  match c.cch.vtx with
  | .discCmd => (c, .normal (comBuildDISCCommand ch sapi true), [])
  | .uaCmd =>
    let c := { c with state := .idleDl }
    match ch with
    | .sacch => (c, .uaF, [.releaseInd none true])
    | _ =>
      let delay := if ch = .sdcch then 1 else 4
      ({ c with
        releaseIndPending := true
        releaseIndDelay := if c.releaseIndDelay = 0 then delay else c.releaseIndDelay }, .uaF, [])
  | _ => (c, .empty, [])

/-- `dcch0_check_disc` and `dcch3_check_disc`; only the first clears the request. -/
def checkDisc (ch : ChType) (sapi : Sapi) (send : Send) (c : Chan) : Chan × Send × List Signal :=
  if c.discRequest && c.cch.vtx != .rrCmd then
    let c := comPrepareDISC c
    let c := if sapi = .sapi0 then { c with discRequest := false } else c
    uplinkAwaitingRelease ch sapi c
  else (c, send, [])

/-- `uplink_mfe` -/
def uplinkMfe (ch : ChType) (sapi : Sapi) (c : Chan) : Chan × Send × List Signal :=
  let c := startT200 ch sapi c
  let windowClosed := c.cch.vs = (c.cch.va + 1) % 8
  match c.cch.vtx with
  | .rrCmd =>
    if c.cch.fBitFlag then ({ c with cch.fBitFlag := false }, .rrF, [])
    else if comQueueAwaitingTransmission c.queue && !windowClosed then (c, .iframe, [])
    else (c, .rr, [])
  | .uaCmd => (c, Send.final c.cch.fBit .uaF .ua, [])
  | .rrRsp => ({ c with cch.fBitFlag := false }, Send.final c.cch.fBit .rrF .rr, [])
  | .rejCmd => ({ c with cch.fBitFlag := false }, Send.final c.cch.fBit .rejF .rej, [])
  | _ =>
    if comQueueAwaitingTransmission c.queue then (c, if windowClosed then .empty else .iframe, [])
    else
      match sapi with
      | .sapi0 => (c, .empty, [])
      | .sapi3 => checkDisc ch sapi .empty c

/-- `uplink_timer_recovery` -/
def uplinkTimerRecovery (ch : ChType) (sapi : Sapi) (c : Chan) : Chan × Send × List Signal :=
  let c := startT200 ch sapi c
  match c.cch.vtx with
  | .rrCmd =>
    if c.cch.fBitFlag then ({ c with cch.fBitFlag := false }, .rrF, [])
    else (c, if c.cch.pBitFlag then .iframeP else .rr, [])
  | .uaCmd => (c, Send.final c.cch.fBit .uaF .ua, [])
  | .rrRsp => ({ c with cch.fBitFlag := false }, Send.final c.cch.fBit .rrF .rr, [])
  | .rejCmd => ({ c with cch.fBitFlag := false }, Send.final c.cch.fBit .rejF .rej, [])
  | _ =>
    if c.cch.pBitFlag then (c, .iframeP, [])
    else
      match sapi with
      | .sapi0 => (c, .empty, [])
      | .sapi3 => checkDisc ch sapi .empty c

/-! ### T200 -/

/-- The count of T200 at an uplink opportunity. -/
def countT200 (c : Chan) : Chan :=
  if c.cch.t200Counter ≥ t200Active then { c with cch.t200Counter := c.cch.t200Counter - 1 } else c

/-- `repeat_sabm` -/
def repeatSabm (sapi : Sapi) (c : Chan) : Chan × List Signal :=
  if c.cch.rc ≥ n200Establishment then
    let c := if sapi = .sapi0 then { c with cch.contentionResolution := false } else c
    ({ c with state := .idleDl }, mdlErrorInd .t200ExpiredN200Plus1Times)
  else ({ c with cch := { c.cch with rc := c.cch.rc + 1, vtx := .sabmCmd, timeFlag := true } }, [])

/-- `T200_expiry` -/
def t200Expiry (ch : ChType) (sapi : Sapi) (c : Chan) : Chan × List Signal :=
  match c.state with
  | .contentionResolution => repeatSabm sapi c
  | .multipleFrameEstablished =>
    ({ c with
      state := .timerRecovery
      cch := { c.cch with rc := 1, pBitFlag := true, timeFlag := true } }, [])
  | .timerRecovery =>
    if c.cch.rc ≥ n200 ch then
      match sapi with
      | .sapi0 =>
        ({ c with
          state := .idleDl
          cch := { c.cch with
            t200Counter := 0, timeFlag := false, contentionResolution := false, vtx := .emptyCmd } },
          mdlErrorInd .t200ExpiredN200Plus1Times)
      | .sapi3 => (c, mdlErrorInd .t200ExpiredN200Plus1Times)
    else ({ c with cch := { c.cch with rc := c.cch.rc + 1, pBitFlag := true, timeFlag := true } }, [])
  | .awaitingRelease =>
    if c.cch.rc ≥ n200Establishment then ({ c with state := .idleDl }, [.releaseCnf true])
    else ({ c with cch := { c.cch with rc := c.cch.rc + 1, vtx := .discCmd, timeFlag := true } }, [])
  | _ => (c, [])

/-- `delayed_release_ind` -/
def delayedReleaseInd (c : Chan) : Chan × List Signal :=
  if c.releaseIndPending then
    let c := { c with releaseIndDelay := c.releaseIndDelay - 1 }
    (c, if c.releaseIndDelay = 0 then [.releaseInd none true] else [])
  else (c, [])

/-! ### The frame -/

/-- The state machine of `dl_uplink`. -/
def uplinkState (ch : ChType) (sapi : Sapi) (c : Chan) : Chan × Send × List Signal :=
  match c.state with
  | .idleDl => uplinkIdle ch sapi c
  | .contentionResolution => uplinkAwaitingEstablishment ch sapi c
  | .multipleFrameEstablished => uplinkMfe ch sapi c
  | .timerRecovery => uplinkTimerRecovery ch sapi c
  | .awaitingRelease => uplinkAwaitingRelease ch sapi c
  | .suspended => (c, .null, [])
  | .disabled =>
    match sapi with
    | .sapi0 => (c, .null, [])
    | .sapi3 => if c.cch.vtx = .uaCmd then uplinkIdle ch sapi c else (c, .empty, [])

/-- `case UPLINK_IFRAME`: the next segment goes out with N(S) = V(S). -/
def sendIFrame (ch : ChType) (sapi : Sapi) (c : Chan) : Chan × Frame :=
  let q := comReadQueue ch c.queue
  let f := comBuildICommand ch sapi c.cch.vs c.cch.vr false q.mBit q.transmit
  let cch := setT200Counter ch sapi { c.cch with vs := (c.cch.vs + 1) % 8 }
  ({ c with queue := q, cch := { cch with vtx := .emptyCmd } }, f)

/-- `case UPLINK_IFRAME_P`: the frame with N(S) = V(S) - 1 is repeated as a poll. -/
def repeatIFrame (ch : ChType) (sapi : Sapi) (c : Chan) : Chan × Frame :=
  let vs := (c.cch.vs + 7) % 8
  let f := comBuildICommand ch sapi vs c.cch.vr true c.queue.mBit c.queue.transmit
  let cch := setT200Counter ch sapi { c.cch with vs := (vs + 1) % 8, pBitFlag := false }
  ({ c with cch := { cch with vtx := .emptyCmd } }, f)

/-- The frame that `dl_uplink` returns for this SAPI; `vtx` is cleared when there is one. -/
def buildUplink (ch : ChType) (sapi : Sapi) (send : Send) (c : Chan) : Chan × Option Frame :=
  let sent := { c with cch.vtx := .emptyCmd }
  match send with
  | .null | .empty => (c, none)
  | .normal f => (sent, some f)
  | .ua => (sent, some (comBuildUAResponse ch sapi false))
  | .uaF => (sent, some (comBuildUAResponse ch sapi true))
  | .rr => (sent, some (comBuildRRResponse ch sapi c.cch.vr false))
  | .rrF => (sent, some (comBuildRRResponse ch sapi c.cch.vr true))
  | .rej => (sent, some (comBuildREJResponse ch sapi c.cch.vr false))
  | .rejF => (sent, some (comBuildREJResponse ch sapi c.cch.vr true))
  | .iframe => let (c, f) := sendIFrame ch sapi c; (c, some f)
  | .iframeP => let (c, f) := repeatIFrame ch sapi c; (c, some f)

/-- The choice of `dl_uplink` up to the priority arrangement. -/
def chooseUplink (ch : ChType) (sapi : Sapi) (dlActive : Bool) (c : Chan) : Chan × Send × List Signal :=
  let c := countT200 c
  let send := if dlActive && c.state == .multipleFrameEstablished then Send.empty else .null
  let (c, s1) := delayedReleaseInd c
  let (c, send, s2) := checkDisc ch sapi send c
  if send = .null then
    let (c, s3) := if c.cch.t200Counter = t200Expired then t200Expiry ch sapi c else (c, [])
    let (c, send, s4) := uplinkState ch sapi c
    (c, send, s1 ++ s2 ++ s3 ++ s4)
  else (c, send, s1 ++ s2)

/-- `dl_uplink` -/
def dlUplink (ch : ChType) (sapi : Sapi) (dlActive displaced : Bool) (c : Chan) :
    Chan × Option Frame × List Signal :=
  let (c, send, s) := chooseUplink ch sapi dlActive c
  if displaced && ch == .sacch then (c, none, s)
  else
    let (c, f) := buildUplink ch sapi send c
    (c, f, s)

end Citrine.Dl
