import Citrine.Dl.Channel

/-!
# Primitives and signals

The requests of RR (`dl_dcch0.c`, `dl_dcch3.c`) and what DL does when it serves a signal it sent itself out of
the layer 1 interrupt (`dl_drr.c`, `com_concatenate` and `com_data_ind` of `dl_com.c`).  Every function returns
the channel and the primitives it passes to RR.
-/

namespace Citrine.Dl

/-! ### Requests -/

/-- `dcch0_data_req` and `dcch3_data_req`. -/
def dataReq (sapi : Sapi) (m : Msg) (c : Chan) : Chan :=
  match sapi, c.state with
  | .sapi0, .multipleFrameEstablished | .sapi0, .timerRecovery | .sapi0, .suspended
  | .sapi0, .contentionResolution | .sapi3, .multipleFrameEstablished | .sapi3, .timerRecovery =>
    { c with queue := comStoreQueue c.queue m }
  | _, _ => c

/-- `drr_dl_release_cnf` -/
def drrDlReleaseCnf (sapi : Sapi) (init : Bool) (c : Chan) : Chan × List Prim :=
  (if init then initDlData sapi c else c, [.releaseCnf none])

/-- `drr_dl_release_ind` -/
def drrDlReleaseInd (sapi : Sapi) (cs : Option DlCause) (init : Bool) (c : Chan) : Chan × List Prim :=
  let c := { c with releaseIndPending := false }
  (if init then initDlData sapi c else c, [.releaseInd cs])

/-- `dcch0_mdl_release_req` and `dcch3_mdl_release_req`; they differ in timer recovery. -/
def mdlReleaseReq (sapi : Sapi) (c : Chan) : Chan × List Prim :=
  match sapi, c.state with
  | _, .contentionResolution | _, .awaitingRelease | .sapi3, .timerRecovery => drrDlReleaseCnf sapi true c
  | _, .multipleFrameEstablished | .sapi0, .timerRecovery => drrDlReleaseInd sapi none true c
  | _, _ => (c, [])

/-- The confirmation at the end of `dcch0_release_req` and `dcch3_release_req`. -/
def confirmRelease (sapi : Sapi) (c : Chan) : Chan × List Prim :=
  (initDlData sapi c, [.releaseCnf (some (comQueueAwaitingTransmission c.queue))])

/-- `dcch0_release_req` and `dcch3_release_req`.  For SAPI 0 a local end release clears the channel first. -/
def releaseReq (sapi : Sapi) (localEnd : Bool) (c : Chan) : Chan × List Prim :=
  if localEnd then
    match sapi with
    | .sapi0 => confirmRelease sapi (initDlData sapi c)
    | .sapi3 => confirmRelease sapi c
  else
    match c.state with
    | .contentionResolution | .multipleFrameEstablished | .timerRecovery =>
      if !c.discRequest && c.cch.vtx == .rrCmd then ({ c with discRequest := true }, [])
      else (comPrepareDISC c, [])
    | .awaitingRelease => ({ c with cch.t200Counter := 0 }, [])
    | _ => confirmRelease sapi c

/-- `vtx`, timer, counter and state when a SABM is to be sent. -/
def prepareSABM (c : Chan) : Chan :=
  { c with
    state := .contentionResolution
    cch := { c.cch with vtx := .sabmCmd, timeFlag := true, rc := 0 } }

/-- `dcch0_establish_req` -/
def dcch0EstablishReq (estReq : Msg) (c : Chan) : Chan × List Prim :=
  let c := { c with unserved := comQueueAwaitingTransmission c.queue }
  match c.state with
  | .idleDl =>
    (prepareSABM
      { c with
        queue := { comClearQueue c.queue with switchBuf := some estReq }
        cch := { c.cch with contentionResolution := true }
        discRequest := false }, [])
  | .multipleFrameEstablished | .timerRecovery =>
    if estReq.sdu.length = 0 then
      (prepareSABM
        { c with
          queue := comClearQueue c.queue
          cch := { c.cch with t200Counter := 0, contentionResolution := false } }, [])
    else mdlReleaseReq .sapi0 c
  | _ => mdlReleaseReq .sapi0 c

/-- `dcch3_establish_req` -/
def dcch3EstablishReq (c : Chan) : Chan × List Prim :=
  match c.state with
  | .idleDl | .disabled | .multipleFrameEstablished | .timerRecovery =>
    (prepareSABM
      { c with
        unserved := comQueueAwaitingTransmission c.queue
        queue := comClearQueue c.queue
        discRequest := false }, [])
  | _ => (c, [])

/-- `drr_dl_establish_req`: with a message on SAPI 3 the link is refused. -/
def establishReq (sapi : Sapi) (estReq : Msg) (c : Chan) : Chan × List Prim :=
  match sapi with
  | .sapi0 => dcch0EstablishReq estReq c
  | .sapi3 => if estReq.sdu.length = 0 then dcch3EstablishReq c else (c, [.releaseInd none])

/-- `dcch0_resume_reconnect_req` -/
def dcch0ResumeReconnectReq (req : Msg) (c : Chan) : Chan :=
  match c.state with
  | .suspended | .idleDl =>
    prepareSABM
      { c with
        queue := comRestoreQueue c.queue (some req)
        cch := { c.cch with contentionResolution := false } }
  | _ => c

/-- `dcch0_suspend_req` -/
def dcch0SuspendReq (c : Chan) : Chan :=
  match c.state with
  | .contentionResolution | .multipleFrameEstablished | .timerRecovery | .awaitingRelease =>
    { c with
      state := .suspended
      cch := { c.cch with t200Counter := 0, timeFlag := false, contentionResolution := false } }
  | _ => c

/-- `dcch3_enable` -/
def dcch3Enable (c : Chan) : Chan :=
  match c.state with
  | .disabled => { c with state := .idleDl }
  | _ => c

/-! ### Signals -/

/-- `com_concatenate`: the information field goes behind what is already there. -/
def comConcatenate (f : Frame) (c : Chan) : Chan :=
  { c with inMsg := some (c.inMsg.getD [] ++ f.infoField) }

/-- A channel release of RR: protocol discriminator 6, message type 0x0D. -/
def isChannelRelease (octets : List Octet) : Bool := octets[0]? == some 0x06#8 && octets[1]? == some 0x0D#8

/-- `com_data_ind` with `drr_dl_data_ind`. -/
def comDataInd (sapi : Sapi) (c : Chan) : Chan × List Prim :=
  match c.inMsg with
  | some octets =>
    let disc := (sapi == .sapi0) && isChannelRelease octets
    ({ c with inMsg := none, discRequest := c.discRequest || disc }, [.dataInd octets])
  | none => (c, [])

/-- `drr_dl_data_cnf`.  Without a sending buffer the source dereferences a null pointer; the model does
nothing. -/
def drrDlDataCnf (c : Chan) : Chan × List Prim :=
  match c.queue.sending with
  | some m => ({ c with queue := { c.queue with sending := none } }, [.dataCnf m.chType m.sapi m.cnf])
  | none => (c, [])

/-- `drr_error_ind`: a release indication to RR and a release request to itself. -/
def drrErrorInd (sapi : Sapi) (c : Chan) : Chan × List Prim :=
  let (c, prims) := drrDlReleaseInd sapi none false c
  if c.state.aboveIdle then
    let (c, prims') := releaseReq sapi false c
    (c, prims ++ prims')
  else (c, prims)

/-- `dl_process_signal` -/
def handleSignal (sapi : Sapi) (s : Signal) (c : Chan) : Chan × List Prim :=
  match s with
  | .concatenate f => (comConcatenate f c, [])
  | .dataInd => comDataInd sapi c
  | .dataCnf => drrDlDataCnf c
  | .errorInd => drrErrorInd sapi c
  | .establishCnf => (c, [.establishCnf c.unserved])
  | .establishInd unserved => (c, [.establishInd unserved])
  | .releaseInd cs init => drrDlReleaseInd sapi cs init c
  | .releaseCnf init => drrDlReleaseCnf sapi init c

/-- The signals of one interrupt, served in the order in which they were sent. -/
def serve (sapi : Sapi) : List Signal → Chan → Chan × List Prim
  | [], c => (c, [])
  | s :: rest, c =>
    let (c, prims) := handleSignal sapi s c
    let (c, prims') := serve sapi rest c
    (c, prims ++ prims')

end Citrine.Dl
