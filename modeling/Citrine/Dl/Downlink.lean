import Citrine.Dl.Primitives

/-!
# Downlink frames

`dl_downlink` and the functions it calls for each channel state (`dl_state.c`).  The working record
`T_CCH_INTERN` collects the flags that `dl_downlink` transfers to the channel at its end; in the layer 1
interrupt everything that reaches RR, and the concatenation of segments, is left to signals.
-/

namespace Citrine.Dl

/-- `T_CCH_INTERN`, with the channel it points to and the signals sent so far. -/
structure CchIntern where
  chan : Chan
  state : ChState
  t200Start : Bool
  t200Stop : Bool
  pfBitFlag : Bool
  dlDataInd : Bool
  mdlErrorCause : Option MdlCause
  signals : List Signal

/-- `mdl_error_ind`: four of the causes reach RR. -/
def mdlErrorInd (cause : MdlCause) : List Signal :=
  match cause with
  | .t200ExpiredN200Plus1Times | .unsolicitedDmResponse | .unsolicitedDmResponseAbnormalRel
  | .sequenceError => [.errorInd]
  | _ => []

/-- Sends signals. -/
def CchIntern.emit (i : CchIntern) (s : List Signal) : CchIntern := { i with signals := i.signals ++ s }

/-- `va = vr = vs = 0` -/
def CchIntern.resetVars (i : CchIntern) : CchIntern :=
  { i with chan.cch.va := 0, chan.cch.vr := 0, chan.cch.vs := 0 }

/-! ### Idle -/

/-- `downlink_idle` -/
def downlinkIdle (sapi : Sapi) (i : CchIntern) (f : Frame) : CchIntern :=
  let dm := if f.pBit then { i with chan.cch.vtx := .dmCmd, pfBitFlag := true } else i
  match f.formatType with
  | .s => if f.sType = rrFrame then dm else i
  | .i => dm
  | .u =>
    if f.cr then
      if f.uType = sabmFrame then
        if f.lengthIndicator = 0 ∧ sapi = .sapi3 then
          let i := { i with
            chan.queue := comRestoreQueue i.chan.queue none
            chan.cch.vtx := .uaCmd
            pfBitFlag := f.pBit }
          { i.resetVars with chan.cch.rc := 0 }
        else i
      else if f.uType = discFrame then { i with chan.cch.vtx := .dmCmd, pfBitFlag := f.pBit }
      else i
    else i

/-! ### Contention resolution and awaiting establishment -/

/-- `com_compare_L3_msg` with the switch buffer. -/
def comCompareL3Msg (switchBuf : Option Msg) (f : Frame) : Bool :=
  match switchBuf with
  | some m => m.sdu.length == f.lengthIndicator && m.sdu == f.infoField
  | none => false

/-- The end of `downlink_contention_resolution` when the link is confirmed. -/
def establishCnf (i : CchIntern) : CchIntern :=
  { (i.emit [.establishCnf]).resetVars with t200Stop := true, state := .multipleFrameEstablished }

/-- The end of `downlink_contention_resolution` when the link is refused. -/
def establishRefused (sapi : Sapi) (cs : Option DlCause) (i : CchIntern) : CchIntern :=
  let i :=
    if sapi = .sapi0 ∧ i.chan.cch.contentionResolution then
      { i with chan.cch.contentionResolution := false, chan.queue.switchBuf := none }
    else i
  { i.emit [.releaseInd cs false] with t200Stop := true, state := .idleDl }

/-- `downlink_contention_resolution` -/
def downlinkContentionResolution (ch : ChType) (sapi : Sapi) (i : CchIntern) (f : Frame) : CchIntern :=
  match f.formatType with
  | .u =>
    if f.cr then
      if f.uType = sabmFrame then
        match sapi with
        | .sapi3 =>
          if f.lengthIndicator = 0 then
            let i := { i with
              chan.queue := comClearQueue i.chan.queue
              pfBitFlag := f.pBit
              chan.cch.vtx := .uaCmd }
            { i.resetVars with chan.cch.rc := 0, t200Stop := true }
          else i
        | .sapi0 =>
          let i := { i with pfBitFlag := f.pBit, chan.cch.vtx := .uaCmd }
          establishCnf { i.resetVars with chan.cch.rc := 0, t200Stop := true }
      else if f.uType = discFrame then
        establishRefused sapi none { i with pfBitFlag := f.pBit, chan.cch.vtx := .dmCmd }
      else i
    else
      if f.uType = dmFrame then
        -- a DM response with F = 0 is ignored
        if f.pBit then establishRefused sapi none i else i
      else if f.uType = uaFrame then
        match sapi with
        | .sapi0 =>
          if i.chan.cch.contentionResolution then
            if comCompareL3Msg i.chan.queue.switchBuf f then
              establishCnf { i with chan.queue.switchBuf := none }
            else establishRefused sapi (some .infoFieldMismatch) i
          else if f.lengthIndicator = 0 then establishCnf i
          else establishRefused sapi none i
        | .sapi3 =>
          if f.lengthIndicator = 0 ∨ ch = .sacch then establishCnf i
          else establishRefused sapi none i
      else i
  | _ => i

/-! ### I frames -/

/-- `enquiry_response` -/
def enquiryResponse (i : CchIntern) : CchIntern :=
  { i with pfBitFlag := true, chan.cch.acknowledgePending := false, chan.cch.vtx := .rrRsp }

/-- `nr_error_recovery` -/
def nrErrorRecovery (ch : ChType) (sapi : Sapi) (i : CchIntern) (f : Frame) : CchIntern :=
  let i :=
    if ch = .sdcch ∧ sapi = .sapi3 then i
    else { i with dlDataInd := f.pBit && !f.mBit, mdlErrorCause := some .sequenceError }
  { i with chan.cch.vtx := .emptyCmd }

/-- The first half of the branch N(S) = V(R) of `downlink_i_frame`: the frame is taken. -/
def takeIFrame (ch : ChType) (sapi : Sapi) (f : Frame) (i : CchIntern) : CchIntern :=
  { i with
    chan.cch.vr := (i.chan.cch.vr + 1) % 8
    chan.cch.rejectException := false
    signals := i.signals ++ (if served ch sapi then [.concatenate f] else [])
    dlDataInd := i.dlDataInd || !f.mBit }

/-- The second half: how the frame is answered. -/
def answerIFrame (f : Frame) (i : CchIntern) : CchIntern :=
  if f.pBit then
    { i with pfBitFlag := true, chan.cch.vtx := .rrRsp, chan.cch.acknowledgePending := false }
  else if i.chan.cch.acknowledgePending then i
  else { i with chan.cch.vtx := .rrCmd }

/-- The branch N(S) ≠ V(R) of `downlink_i_frame`. -/
def rejectIFrame (f : Frame) (i : CchIntern) : CchIntern :=
  if i.chan.cch.rejectException then
    if f.pBit then
      { i with pfBitFlag := true, chan.cch.vtx := .rejCmd, chan.cch.acknowledgePending := false }
    else i
  else
    { i with
      chan.cch.rejectException := true
      pfBitFlag := f.pBit
      chan.cch.vtx := .rejCmd
      chan.cch.acknowledgePending := false }

/-- `downlink_i_frame` -/
def downlinkIFrame (ch : ChType) (sapi : Sapi) (i : CchIntern) (f : Frame) : CchIntern :=
  if f.sendNumber = i.chan.cch.vr then answerIFrame f (takeIFrame ch sapi f i) else rejectIFrame f i

/-- The call of `free_sending_buffer`. -/
def freeSending (ch : ChType) (sapi : Sapi) (i : CchIntern) : CchIntern :=
  let (q, s) := freeSendingBuffer ch sapi i.chan.queue
  { i with chan.queue := q }.emit s

/-- What RR and I frames with a valid N(R) do in multiple frame operation. -/
def acknowledgeMfe (ch : ChType) (sapi : Sapi) (nr : Nat) (i : CchIntern) : CchIntern :=
  if nr = i.chan.cch.vs then
    let stop := (8 + nr - i.chan.cch.va) % 8 > 0
    freeSending ch sapi { i with t200Stop := i.t200Stop || stop, chan.cch.va := nr }
  else if nr ≠ i.chan.cch.va then { i with chan.cch.va := nr, t200Start := true }
  else i

/-- `downlink_mfe_information` -/
def downlinkMfeInformation (ch : ChType) (sapi : Sapi) (i : CchIntern) (f : Frame) : CchIntern :=
  if f.cr then
    let i := downlinkIFrame ch sapi i f
    if comCheckNr i.chan.cch.va i.chan.cch.vs f.receiveNumber then
      acknowledgeMfe ch sapi f.receiveNumber i
    else nrErrorRecovery ch sapi i f
  else i

/-- `pcch->va = frame_nr` -/
def setVa (nr : Nat) (i : CchIntern) : CchIntern := { i with chan.cch.va := nr }

/-- `pcch->vs = frame_nr` -/
def setVs (nr : Nat) (i : CchIntern) : CchIntern := { i with chan.cch.vs := nr }

/-- `downlink_tr_information` -/
def downlinkTrInformation (ch : ChType) (sapi : Sapi) (i : CchIntern) (f : Frame) : CchIntern :=
  if f.cr then
    let i := downlinkIFrame ch sapi i f
    if comCheckNr i.chan.cch.va i.chan.cch.vs f.receiveNumber then setVa f.receiveNumber i
    else nrErrorRecovery ch sapi i f
  else i

/-! ### Supervisory frames -/

/-- `invoke_retransmission` -/
def invokeRetransmission (nr : Nat) (i : CchIntern) : CchIntern :=
  if i.chan.cch.vs ≠ nr then
    { i with chan.cch.vs := (i.chan.cch.vs + 7) % 8, chan.queue := comRecoverQueue i.chan.queue }
  else i

/-- The answer to a REJ frame: `invoke_retransmission`, then `vs = va = frame_nr`. -/
def retransmit (nr : Nat) (i : CchIntern) : CchIntern :=
  let i := invokeRetransmission nr i
  { i with chan.cch.vs := nr, chan.cch.va := nr }

/-- The response to a command with P = 1. -/
def answerPoll (f : Frame) (i : CchIntern) : CchIntern :=
  if f.pBit && f.cr then enquiryResponse i else i

/-- The P/F bit in `downlink_mfe_supervisory`: a response with F = 1 is unsolicited there. -/
def pollMfe (f : Frame) (i : CchIntern) : CchIntern :=
  if f.pBit then
    if f.cr then enquiryResponse i else i.emit (mdlErrorInd .unsolicitedSupervisoryResponse)
  else i

/-- `downlink_mfe_supervisory` -/
def downlinkMfeSupervisory (ch : ChType) (sapi : Sapi) (i : CchIntern) (f : Frame) : CchIntern :=
  let nr := f.receiveNumber
  if f.sType = rnrFrame then i
  else
    let i := pollMfe f i
    if comCheckNr i.chan.cch.va i.chan.cch.vs nr then
      if f.sType = rrFrame then acknowledgeMfe ch sapi nr i
      else if f.sType = rejFrame then retransmit nr (answerPoll f { i with t200Stop := true })
      else i.emit (mdlErrorInd .frameNotImplemented)
    else nrErrorRecovery ch sapi i f

/-- The timer recovery state is cleared. -/
def clearRecovery (i : CchIntern) : CchIntern :=
  { i with t200Stop := true, state := .multipleFrameEstablished }

/-- `NEW_REJ_ACK`: a REJ frame with a valid N(R) acknowledges. -/
def acknowledgeRej (ch : ChType) (sapi : Sapi) (nr : Nat) (i : CchIntern) : CchIntern :=
  if comCheckNr i.chan.cch.va i.chan.cch.vs nr then setVa nr (freeSending ch sapi i) else i

/-- `downlink_tr_supervisory`.  The N(R) of a REJ frame is not refused, and the queue is recovered only if the
N(R) has not become V(A) just before. -/
def downlinkTrSupervisory (ch : ChType) (sapi : Sapi) (i : CchIntern) (f : Frame) : CchIntern :=
  let nr := f.receiveNumber
  if f.sType = rrFrame then
    let i := answerPoll f i
    if comCheckNr i.chan.cch.va i.chan.cch.vs nr then
      if f.pBit && !f.cr then freeSending ch sapi (clearRecovery (setVa nr i))
      else invokeRetransmission nr (setVa nr i)
    else nrErrorRecovery ch sapi i f
  else if f.sType = rejFrame then
    let i := acknowledgeRej ch sapi nr i
    if f.pBit && !f.cr then
      let i := clearRecovery i
      setVs nr (setVa nr (if i.chan.cch.va ≠ nr then invokeRetransmission nr i else i))
    else answerPoll f (setVa nr i)
  else i

/-! ### Unnumbered frames in multiple frame operation -/

/-- `downlink_mfe_sabm` -/
def downlinkMfeSabm (ch : ChType) (sapi : Sapi) (i : CchIntern) (f : Frame) : CchIntern :=
  if f.lengthIndicator = 0 then
    if sapi = .sapi0 ∧ ch = .sacch then i
    else
      let i := if sapi = .sapi3 then { i with chan.queue := comClearQueue i.chan.queue } else i
      let i := { i with chan.cch.vtx := .uaCmd, pfBitFlag := f.pBit, t200Stop := true }
      { i.resetVars with
        chan.cch.rc := 0
        chan.cch.rejectException := false
        chan.cch.acknowledgePending := false
        state := .multipleFrameEstablished }
  else i.emit (mdlErrorInd .uFrameWithIncorrectParameters)

/-- `downlink_mfe_dm` -/
def downlinkMfeDm (ch : ChType) (sapi : Sapi) (i : CchIntern) (f : Frame) : CchIntern :=
  if !f.pBit && ch == .sdcch && sapi == .sapi3 then
    { i with t200Stop := true, chan.queue := comClearQueue i.chan.queue }
  else i

/-- `downlink_mfe_tr_unnumbered` -/
def downlinkMfeTrUnnumbered (ch : ChType) (sapi : Sapi) (state : ChState) (i : CchIntern) (f : Frame) :
    CchIntern :=
  if f.cr then
    if f.uType = sabmFrame then downlinkMfeSabm ch sapi i f
    else if f.uType = discFrame then
      { i with chan.cch.vtx := .uaCmd, t200Stop := true, state := .awaitingRelease }
    else i
  else
    if f.uType = dmFrame then
      let i :=
        if !f.pBit then i.emit (mdlErrorInd .unsolicitedDmResponseAbnormalRel)
        else if state = .multipleFrameEstablished then i.emit (mdlErrorInd .unsolicitedDmResponse)
        else i
      downlinkMfeDm ch sapi i f
    else if f.uType = uaFrame then i.emit (mdlErrorInd .unsolicitedUaResponse)
    else i

/-! ### The states -/

/-- `downlink_mfe` -/
def downlinkMfe (ch : ChType) (sapi : Sapi) (i : CchIntern) (f : Frame) : CchIntern :=
  match f.formatType with
  | .i => downlinkMfeInformation ch sapi i f
  | .s => downlinkMfeSupervisory ch sapi i f
  | .u => downlinkMfeTrUnnumbered ch sapi .multipleFrameEstablished i f

/-- `downlink_timer_recovery` -/
def downlinkTimerRecovery (ch : ChType) (sapi : Sapi) (i : CchIntern) (f : Frame) : CchIntern :=
  match f.formatType with
  | .i => downlinkTrInformation ch sapi i f
  | .s => downlinkTrSupervisory ch sapi i f
  | .u => downlinkMfeTrUnnumbered ch sapi .timerRecovery i f

/-- `downlink_awaiting_release` -/
def downlinkAwaitingRelease (sapi : Sapi) (i : CchIntern) (f : Frame) : CchIntern :=
  match f.formatType with
  | .u =>
    if f.cr then
      if f.uType = sabmFrame then
        if sapi = .sapi0 then
          let i := { i with
            chan.cch.vtx := .dmCmd, pfBitFlag := f.pBit, t200Stop := true, state := .idleDl }
          i.emit [.releaseCnf false]
        else i
      else if f.uType = discFrame then { i with chan.cch.vtx := .uaCmd, t200Stop := true }
      else i
    else
      if (f.uType = dmFrame ∧ f.pBit) ∨ f.uType = uaFrame then
        { i with t200Stop := true, state := .idleDl }.emit [.releaseCnf true]
      else i
  | _ => i

/-- The frame goes to the function of the channel state. -/
def downlinkState (ch : ChType) (sapi : Sapi) (i : CchIntern) (f : Frame) : CchIntern :=
  match i.state with
  | .disabled | .idleDl => downlinkIdle sapi i f
  | .contentionResolution => downlinkContentionResolution ch sapi i f
  | .multipleFrameEstablished => downlinkMfe ch sapi i f
  | .timerRecovery => downlinkTimerRecovery ch sapi i f
  | .awaitingRelease => downlinkAwaitingRelease sapi i f
  | .suspended => i

/-- `memset (&cch_i, 0, …)` and the assignments in front of the state switch. -/
def CchIntern.start (c : Chan) : CchIntern :=
  { chan := c, state := c.state, t200Start := false, t200Stop := false
    pfBitFlag := c.cch.vtx != .emptyCmd && c.cch.fBit
    dlDataInd := false, mdlErrorCause := none, signals := [] }

/-- The transfer of states and flags at the end of `dl_downlink`. -/
def CchIntern.finish (i : CchIntern) : Chan × List Signal :=
  let cch := { i.chan.cch with fBit := i.pfBitFlag, fBitFlag := i.pfBitFlag }
  let cch :=
    if i.t200Start then { cch with t200Counter := t200Stopped, timeFlag := true }
    else if i.t200Stop then { cch with t200Counter := t200Stopped, timeFlag := false }
    else cch
  ({ i.chan with cch := cch, state := i.state },
    i.signals ++ (if i.dlDataInd then [.dataInd] else []) ++
      (match i.mdlErrorCause with | some cause => mdlErrorInd cause | none => []))

/-- A frame that `dl_downlink` hands to the channel: no short header, a valid frame for this SAPI on a channel
type that serves it. -/
def addressed (ch : ChType) (sapi : Sapi) (f : Frame) : Bool :=
  f.addr &&& 0x83#8 != 0#8 && f.sapiField == sapi.code && frameValidation ch f == none && served ch sapi

/-- `dl_downlink`, the part that runs in the interrupt. -/
def dlDownlink (ch : ChType) (sapi : Sapi) (f : Frame) (c : Chan) : Chan × List Signal :=
  if addressed ch sapi f then (downlinkState ch sapi (CchIntern.start c) f).finish else (c, [])

end Citrine.Dl
