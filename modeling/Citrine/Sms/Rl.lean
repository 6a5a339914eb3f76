import Mathlib.Algebra.Group.Nat.Defs
import Citrine.Lib.Machine

/-!
# The relay layer of the SMS entity

`sms_rl.c` and the timeouts of `sms_time.c`, for one instance.  The layer calls the connection management (`cp_*`) and the
transfer layer (`tl_*`); these calls are recorded.  The transfer layer answers a confirmed establishment
from within the call, with a request or without one.
-/

namespace Citrine.Sms

/-! ### The instance -/

/-- `STATE_RL` -/
inductive RlState where
  | idle | waitForAck | waitForSmmaAck | waitForSendAck | waitForRetransTimer | establish | established | waitForSendError
  deriving DecidableEq, Repr

inductive RlTimer where
  | tr1m | tr2m | tram
  deriving DecidableEq, Repr

/-- A call of another layer. -/
inductive Call where
  | cpEstablishReq (ti : Nat)
  /-- The relay message has a type, a reference and, in an `RP_ERROR`, a cause. -/
  | cpDataReq (rpMti reference : Nat) (cause : Option Nat)
  | cpReleaseReq (ti : Nat)
  | cpAbortReq
  | tlEstablishCnf (success : Bool)
  | tlDataInd
  | tlReportInd (cause : Nat)
  | tlTimeoutInd (timer : RlTimer)
  | tlSmsMemoExceeded
  | tlCmmsEnd
  | freeSmsInstance (ti : Nat)
  deriving DecidableEq, Repr

/-- What the relay layer uses of `T_SMS_INST` and `T_SMS_DATA`. -/
structure Rl where
  state : RlState
  /-- `t_running`, for the three timers of the layer -/
  tr1m : Bool
  tr2m : Bool
  tram : Bool
  retrans : Bool
  tlRetx : Nat
  msgRef : Nat
  tpMr : Nat
  ti : Nat
  timerTi : Nat
  /-- `CMMS_ACTIVE` -/
  cmmsActive : Bool
  cmmsReleasePending : Bool
  /-- `downlink EQ SMS_DOWNLINK_MMSMS` -/
  downlinkMmsms : Bool
  /-- The calls that have been made, the last one first. -/
  calls : List Call
  deriving DecidableEq, Repr

/-! ### Values -/

def rpDataUl : Nat := 0
def rpDataDl : Nat := 1
def rpAckUl : Nat := 2
def rpAckDl : Nat := 3
def rpErrorUl : Nat := 4
def rpErrorDl : Nat := 5
def rpSmmaUl : Nat := 6

/-- `SMS_RP_CS_MSG_NON_EXIST` -/
def csMsgNonExist : Nat := 97
/-- `SMS_RP_CS_MSG_NOT_COMP` -/
def csMsgNotComp : Nat := 98
/-- `SMS_RP_CS_PROTOCOL_ERROR` -/
def csProtocolError : Nat := 111

/-- `SMS_CAUSE_NET_TIMEOUT` -/
def causeNetTimeout : Nat := 0xc90a
/-- `MMCM_MMCS_MESSAGE_INCOMPAT` -/
def causeMessageIncompat : Nat := 0x465
/-- `RRCS_NORM` -/
def causeNormalEvent : Nat := 0x300
/-- `SMS_NO_ERROR` -/
def causeNoError : Nat := 0x89ff

/-- `TL_MAX_RETANS` -/
def tlMaxRetrans : Nat := 1

/-- `CAUSE_MAKE`, for a cause of the standard and `SMSRP_ORIGINATING_ENTITY` -/
def causeMake (msSide : Bool) (value : Nat) : Nat := value % 256 + (if msSide then 2 ^ 14 else 0) + 8 * 2 ^ 8

/-- The causes that do not lead to a retransmission. -/
def permanentCauses : List Nat := [1, 8, 10, 21, 22, 28, 29, 30, 38, 47, 50, 69, 81, 95, 96, 97, 99, 111, 127]

/-- `rl_temp_failure` -/
def rlTempFailure (cause : Nat) : Bool := !([30, 69, 95, 96, 97, 98, 99, 111, 127].contains cause)

/-! ### Timers, states and calls -/

namespace Rl
variable (s : Rl)

def call (c : Call) : Rl := { s with calls := c :: s.calls }

/-- `SMS_INST_SET_STATE` -/
def setState (state : RlState) : Rl := { s with state := state }

/-- `t_running` of a timer -/
def setRunning (timer : RlTimer) (b : Bool) : Rl :=
  match timer with
  | .tr1m => { s with tr1m := b }
  | .tr2m => { s with tr2m := b }
  | .tram => { s with tram := b }

/-- `sms_timer_start` and `TIMERSTART` -/
def timerStart (timer : RlTimer) : Rl := s.setRunning timer true

/-- `sms_timer_stop` -/
def timerStop (timer : RlTimer) : Rl := s.setRunning timer false

/-- `sms_timer_check` -/
def timerCheck : RlTimer → Bool
  | .tr1m => s.tr1m
  | .tr2m => s.tr2m
  | .tram => s.tram

def setRetrans (b : Bool) : Rl := { s with retrans := b }

/-- If the CMMS mode is 1 or 2, the release is pending. -/
def cmmsPending : Rl := if s.cmmsActive then { s with cmmsReleasePending := true } else s

/-! ### Requests of the transfer layer -/

/-- `rl_establish_req`; the downlink that has been chosen before makes `cp_establish_req` answer later. -/
def establishReq (ti : Nat) : Rl :=
  match s.state with
  | .idle => (({ (s.setState .establish).call (.cpEstablishReq ti) with timerTi := ti } : Rl)).timerStart .tr1m
  | _ => s

/-- `rl_data_req` -/
def dataReq (msgRef : Nat) : Rl × Bool :=
  match s.state with
  | .established =>
    let s : Rl := { s with msgRef := msgRef }
    let s := (s.setState .waitForAck).call (.cpDataReq rpDataUl msgRef none)
    (s.timerStart .tr1m, true)
  | _ => (s, false)

/-- `rl_mem_avail_req` -/
def memAvailReq : Rl × Bool :=
  match s.state with
  | .established =>
    let s : Rl := { s.setState .waitForSmmaAck with msgRef := s.tpMr }
    let s := s.call (.cpDataReq rpSmmaUl s.msgRef none)
    (s.timerStart .tr1m, true)
  | _ => (s, false)

/-- `rl_start_tram_req` -/
def startTramReq : Rl := ((s.setRetrans true).setState .waitForRetransTimer).timerStart .tram

/-- `rl_report_req_ack` -/
def reportReqAck : Rl :=
  match s.state with
  | .waitForSendAck =>
    (((s.timerStop .tr2m).setState .idle).call (.cpDataReq rpAckUl s.msgRef none)).call (.cpReleaseReq s.ti)
  | _ => s

/-- `rl_report_req_error` -/
def reportReqError (cause : Nat) : Rl :=
  match s.state with
  | .waitForSendAck =>
    -- `rl_build_rp_error`
    let rpCause := if cause < 128 then cause else csProtocolError
    ((s.timerStop .tr2m).setState .idle).call (.cpDataReq rpErrorUl s.msgRef (some rpCause))
  | _ => s

/-! ### Signals of the connection management -/

/-- A request from within `tl_establish_cnf`. -/
inductive Answer where
  | nothing
  | dataReq (msgRef : Nat)
  | memAvailReq
  deriving DecidableEq, Repr

def answered : Answer → Rl
  | .nothing => s
  | .dataReq msgRef => (s.dataReq msgRef).1
  | .memAvailReq => s.memAvailReq.1

/-- `rl_establish_cnf` -/
def establishCnf (success : Bool) (answer : Answer) : Rl :=
  match s.state with
  | .establish =>
    let s := s.timerStop .tr1m
    let s := s.setState (if success then .established else .idle)
    (s.call (.tlEstablishCnf success)).answered answer
  | _ => s

/-- `rl_data_ind` in `RL_WAIT_FOR_SMMA_ACK`, for `RP_ERROR_DL` -/
def smmaError (rpCause : Nat) : Rl :=
  if rlTempFailure rpCause then
    if s.retrans then
      (((s.setState .idle).setRetrans false).call (.tlReportInd (causeMake false rpCause))).timerStop .tr1m
        |>.call .tlSmsMemoExceeded
    else
      ((((s.setRetrans true).setState .waitForRetransTimer).timerStop .tr1m).timerStart .tram).call (.cpReleaseReq s.ti)
  else
    ((((s.timerStop .tr1m).setRetrans false).setState .idle).call (.tlReportInd (causeMake false rpCause))).call
      .tlSmsMemoExceeded

/-- `rl_data_ind` in `RL_WAIT_FOR_ACK`, for a message that is neither `RP_ACK_DL` nor `RP_ERROR_DL`; the flag is
`SMS_LLC_BUSY_WAITING` after `cp_data_req`. -/
def unknownInd (rpMti reference : Nat) (busyWaiting : Bool) : Rl :=
  let s := s.timerStop .tr1m
  let cause := if rpMti > 6 then csMsgNonExist else csProtocolError
  let s := s.call (.cpDataReq rpErrorUl reference (some cause))
  if busyWaiting then s.setState .waitForSendError
  else
    let s := s.setState .idle
    let s := if s.downlinkMmsms then s.cmmsPending else s
    s.call (.tlReportInd (causeMake true cause))

/-- `rl_data_ind` -/
def dataInd (rpMti reference rpCause : Nat) (busyWaiting : Bool) : Rl :=
  match s.state with
  | .established | .idle =>
    let s : Rl := { s with msgRef := reference }
    if rpMti = rpDataDl then ((s.setState .waitForSendAck).timerStart .tr2m).call .tlDataInd
    else
      let cause := if rpMti > 6 then csMsgNonExist else csMsgNotComp
      ((s.call (.cpDataReq rpErrorUl reference (some cause))).call (.cpReleaseReq s.ti)).call (.freeSmsInstance s.ti)
  | .waitForAck =>
    if rpMti = rpAckDl then
      (((s.timerStop .tr1m).setState .idle).cmmsPending).call (.tlReportInd causeNoError)
    else if rpMti = rpErrorDl then
      let s := (s.timerStop .tr1m).cmmsPending
      if s.tlRetx < tlMaxRetrans ∧ ¬ rpCause ∈ permanentCauses then (s.call (.cpReleaseReq s.ti)).timerStart .tr1m
      else (s.setState .idle).call (.tlReportInd (causeMake false rpCause))
    else s.unknownInd rpMti reference busyWaiting
  | .waitForSendAck =>
    let cause := if rpMti > 6 then csMsgNonExist else csProtocolError
    s.call (.cpDataReq rpErrorUl reference (some cause))
  | .waitForSmmaAck =>
    if rpMti = rpAckDl then
      (((s.timerStop .tr1m).setRetrans false).setState .idle).call (.tlReportInd causeNoError)
    else if rpMti = rpErrorDl then s.smmaError rpCause
    else
      let s := ((s.timerStop .tr1m).setRetrans false).setState .idle
      if rpMti > 6 then
        (s.call (.cpDataReq rpErrorUl reference (some csMsgNonExist))).call (.tlReportInd (causeMake true csMsgNonExist))
      else s
  | _ => s

/-- The end of an instance that is established or being established, with a report. -/
def errorReport (cause : Nat) : Rl := ((s.setState .idle).call (.freeSmsInstance s.ti)).call (.tlReportInd cause)

/-- `rl_error_ind` -/
def errorInd (cause : Nat) : Rl :=
  match s.state with
  | .establish =>
    if s.tlRetx < tlMaxRetrans ∧ (cause = causeMessageIncompat ∨ cause = causeNormalEvent) then s.timerStart .tr1m
    else (s.timerStop .tr1m).errorReport cause
  | .established => s.errorReport cause
  | .waitForAck =>
    if s.tlRetx < tlMaxRetrans ∧ cause = causeNetTimeout then s.timerStart .tr1m
    else if s.tlRetx < tlMaxRetrans ∧ (cause = causeNormalEvent ∨ cause = causeMessageIncompat) then s
    else (s.timerStop .tr1m).errorReport cause
  | .waitForSendAck =>
    (((s.call (.freeSmsInstance s.ti)).timerStop .tr2m).setState .idle).call (.tlReportInd cause)
  | .waitForSmmaAck =>
    if s.retrans then
      (((s.setState .idle).setRetrans false).call (.tlReportInd causeNetTimeout)).timerStop .tr1m
        |>.call .tlSmsMemoExceeded
    else
      ((((s.setRetrans true).setState .waitForRetransTimer).timerStop .tr1m).timerStart .tram).call (.cpReleaseReq s.ti)
        |>.call (.freeSmsInstance s.ti)
  | _ =>
    let s := if s.cmmsActive then s.call .tlCmmsEnd else s
    (s.call (.freeSmsInstance s.ti)).setState .idle

/-- `rl_proceed` -/
def proceed : Rl :=
  match s.state with
  | .waitForSendError => (s.setState .idle).call (.tlReportInd (causeMake true csProtocolError))
  | _ => s

/-! ### Timeouts -/

/-- `tim_tr1m` -/
def timTr1m : Rl :=
  match s.state with
  | .establish =>
    ((({ s with ti := s.timerTi } : Rl).setState .idle).call .cpAbortReq).call (.tlTimeoutInd .tr1m)
  | .waitForAck => ((s.setState .idle).call .cpAbortReq).call (.tlTimeoutInd .tr1m)
  | .waitForSmmaAck =>
    if s.retrans then
      (((s.setRetrans false).setState .idle).call (.tlReportInd causeNetTimeout)).call .tlSmsMemoExceeded
    else (((s.setRetrans true).setState .waitForRetransTimer).timerStart .tram).call (.cpReleaseReq s.ti)
  | _ => s

/-- `tim_tr2m` -/
def timTr2m : Rl :=
  match s.state with
  | .waitForSendAck => ((s.reportReqError csProtocolError).call (.tlReportInd causeNetTimeout)).setState .idle
  | _ => s

/-- `tim_tram` -/
def timTram : Rl :=
  match s.state with
  | .waitForRetransTimer => (s.setState .idle).call (.tlTimeoutInd .tram)
  | _ => s

/-- `tim_exec_timeout` -/
def execTimeout (timer : RlTimer) : Rl :=
  let s := s.setRunning timer false
  match timer with
  | .tr1m => s.timTr1m
  | .tr2m => s.timTr2m
  | .tram => s.timTram

end Rl

end Citrine.Sms
