import Citrine.Dl.Frame

/-!
# The data of one DL channel

`T_CCH`, `T_QUEUE` and the part of `T_DL_DATA_STORE` that belongs to one SAPI (`dl.h`), with the queue
functions of `dl_com.c` and `free_sending_buffer` of `dl_state.c`.  Lengths and offsets count octets where
the source counts bits; a layer 3 message is a whole number of octets and its bit length fits a `USHORT`.
-/

namespace Citrine.Dl

/-- `vtx`, the frame that waits for the next uplink opportunity. -/
inductive Vtx where
  | emptyCmd | rrCmd | sabmCmd | discCmd | uaCmd | dmCmd | rrRsp | rejCmd
  deriving DecidableEq, Repr

/-- The channel states `STATE_DISABLED` to `STATE_AWAITING_RELEASE`.  `STATE_AWAITING_ESTABLISHMENT` is
`STATE_CONTENTION_RESOLUTION`. -/
inductive ChState where
  | disabled | idleDl | suspended | contentionResolution | multipleFrameEstablished | timerRecovery
  | awaitingRelease
  deriving DecidableEq, Repr

/-- The test `state > STATE_IDLE_DL`. -/
def ChState.aboveIdle : ChState → Bool
  | .disabled | .idleDl => false
  | _ => true

/-- The states in which I frames are exchanged. -/
def ChState.established : ChState → Bool
  | .multipleFrameEstablished | .timerRecovery => true
  | _ => false

/-! ### `T_CCH` -/

def t200Stopped : Nat := 0
def t200Expired : Nat := 1
def t200Active : Nat := 2

/-- `T_CCH`.  The channel type is no field here: it is overwritten by that of the event. -/
structure Cch where
  vtx : Vtx
  t200Counter : Nat
  timeFlag : Bool
  contentionResolution : Bool
  rejectException : Bool
  acknowledgePending : Bool
  rc : Nat
  fBit : Bool
  fBitFlag : Bool
  pBitFlag : Bool
  va : Nat
  vr : Nat
  vs : Nat
  deriving DecidableEq, Repr

/-- What `memset (pcch, 0, sizeof (T_CCH))` leaves. -/
def Cch.zero : Cch :=
  { vtx := .emptyCmd, t200Counter := 0, timeFlag := false, contentionResolution := false
    rejectException := false, acknowledgePending := false, rc := 0, fBit := false, fBitFlag := false
    pBitFlag := false, va := 0, vr := 0, vs := 0 }

/-- `set_T200_counter` -/
def setT200Counter (ch : ChType) (sapi : Sapi) (c : Cch) : Cch :=
  let count :=
    match ch, sapi with
    | .sacch, .sapi0 => t200Expired + 1
    | .sacch, .sapi3 => t200Expired + 4
    | .sdcch, .sapi0 => t200Expired + 1
    | .sdcch, .sapi3 => t200Expired + 3
    | .facchF, _ => t200Expired + 9
    | .facchH, _ => t200Expired + 5
  { c with t200Counter := count, timeFlag := false }

/-- N200 of `T200_expiry`. -/
def n200 : ChType → Nat
  | .sacch => 5
  | .sdcch => 23
  | .facchF => 34
  | .facchH => 29

def n200Establishment : Nat := 5

/-- `com_check_nr` -/
def comCheckNr (va vs nr : Nat) : Bool := (nr + 8 - va) % 8 ≤ (vs + 8 - va) % 8

/-! ### `T_QUEUE` -/

/-- `T_DL_DATA_REQ`: a layer 3 message for the uplink. -/
structure Msg where
  chType : ChType
  sapi : Sapi
  cnf : Nat
  sdu : List Octet
  /-- `l_buf` is a `USHORT` that counts bits. -/
  sdu_lt : sdu.length < 8192
  deriving DecidableEq

/-- `T_QUEUE`; `store` is `store_buffer [0 .. no_of_stored_messages)` and `transmit` the `l_buf` octets of the
transmit buffer. -/
structure Queue where
  store : List Msg
  sending : Option Msg
  switchBuf : Option Msg
  actLength : Nat
  actOffset : Nat
  transmit : List Octet
  mBit : Bool
  deriving DecidableEq

def maxQueuedMessages : Nat := 10

/-- `com_clear_queue` -/
def comClearQueue (q : Queue) : Queue :=
  { q with store := [], sending := none, switchBuf := none, actLength := 0, actOffset := 0, transmit := [] }

/-- `com_restore_queue`; `estReq` is the request if it carries a message. -/
def comRestoreQueue (q : Queue) (estReq : Option Msg) : Queue :=
  let switchBuf :=
    match estReq with
    | some m => if m.sdu.length = 0 then none else some m
    | none => none
  match q.sending with
  | some m => { q with switchBuf := switchBuf, actLength := m.sdu.length, actOffset := 0, transmit := [] }
  | none => { q with switchBuf := switchBuf, transmit := [] }

/-- `com_recover_queue`, with the wrap of the two `USHORT` counters. -/
def comRecoverQueue (q : Queue) : Queue :=
  match q.sending with
  | some _ =>
    { q with
      actOffset := if q.actLength ≠ 0 then (q.actOffset + 8192 - q.transmit.length) % 8192 else q.actOffset
      actLength := (q.actLength + q.transmit.length) % 8192
      transmit := [] }
  | none => { q with transmit := [] }

/-- The part of `com_read_queue` behind the choice of the sending buffer: the next segment of `m`. -/
def readSegment (ch : ChType) (q : Queue) (m : Msg) : Queue :=
  let length := n201 ch
  if q.actLength > length then
    { q with
      mBit := true
      transmit := (m.sdu.drop q.actOffset).take length
      actOffset := q.actOffset + length
      actLength := q.actLength - length }
  else
    { q with
      mBit := false
      transmit := (m.sdu.drop q.actOffset).take q.actLength
      actLength := 0 }

/-- `com_read_queue`.  It is called only when `com_queue_awaiting_transmission` holds; with nothing to send
the source dereferences a null pointer, and the model leaves the queue alone. -/
def comReadQueue (ch : ChType) (q : Queue) : Queue :=
  match q.switchBuf with
  | some m => { q with mBit := false, transmit := m.sdu }
  | none =>
    if q.actLength = 0 then
      match q.store with
      | m :: rest =>
        readSegment ch { q with sending := some m, store := rest, actOffset := 0, actLength := m.sdu.length } m
      | [] => q
    else
      match q.sending with
      | some m => readSegment ch q m
      | none => q

/-- `com_store_queue` -/
def comStoreQueue (q : Queue) (m : Msg) : Queue :=
  if q.store.length < maxQueuedMessages then { q with store := q.store ++ [m] } else q

/-- `com_queue_awaiting_transmission` -/
def comQueueAwaitingTransmission (q : Queue) : Bool :=
  match q.switchBuf with
  | some _ => true
  | none => if q.actLength = 0 then q.store.length != 0 else true

/-! ### The channel, its signals and its primitives -/

/-- The cause of a `DL_RELEASE_IND`, `none` for `NOT_PRESENT_8BIT`. -/
inductive DlCause where
  | infoFieldMismatch
  deriving DecidableEq, Repr

/-- The signals DL sends itself out of the layer 1 interrupt (`dl_signal.c`), those that change the channel or
reach RR. -/
inductive Signal where
  | concatenate (f : Frame)
  | dataInd
  | dataCnf
  | errorInd
  | establishCnf
  | establishInd (unserved : Bool)
  | releaseInd (cs : Option DlCause) (init : Bool)
  | releaseCnf (init : Bool)
  deriving DecidableEq, Repr

/-- The primitives to RR. -/
inductive Prim where
  | dataInd (octets : List Octet)
  | dataCnf (chType : ChType) (sapi : Sapi) (cnf : Nat)
  | establishCnf (unserved : Bool)
  | establishInd (unserved : Bool)
  | releaseInd (cs : Option DlCause)
  | releaseCnf (unserved : Option Bool)
  deriving DecidableEq, Repr

/-- What `T_DL_DATA_STORE` holds for one SAPI. -/
structure Chan where
  state : ChState
  cch : Cch
  queue : Queue
  inMsg : Option (List Octet)
  discRequest : Bool
  unserved : Bool
  /-- `release_ind_ch_type` is set. -/
  releaseIndPending : Bool
  releaseIndDelay : Nat
  deriving DecidableEq

/-- The channel types `free_sending_buffer` and `concatenate` know for a SAPI. -/
def served : ChType → Sapi → Bool
  | .sdcch, _ => true
  | .sacch, s => s = .sapi3
  | .facchH, s => s = .sapi0
  | .facchF, s => s = .sapi0

/-- `free_sending_buffer`: the buffers, and whether `drr_dl_data_cnf` is called (which frees the sending
buffer itself). -/
def freeSendingBuffer (ch : ChType) (sapi : Sapi) (q : Queue) : Queue × List Signal :=
  if served ch sapi then
    match q.switchBuf with
    | some _ => ({ q with switchBuf := none }, [])
    | none =>
      match q.sending with
      | some m =>
        if q.actLength = 0 then
          if m.cnf ≠ 0 then (q, [.dataCnf]) else ({ q with sending := none }, [])
        else (q, [])
      | none => (q, [])
  else (q, [])

/-- `dcch0_init_dl_data` and `dcch3_init_dl_data`. -/
def initDlData (sapi : Sapi) (c : Chan) : Chan :=
  match sapi with
  | .sapi0 =>
    { c with
      state := .idleDl, cch := Cch.zero, queue := comClearQueue c.queue, inMsg := none, discRequest := false
      releaseIndPending := false, releaseIndDelay := 0 }
  | .sapi3 =>
    { c with
      state := .disabled, cch := Cch.zero, queue := comClearQueue c.queue, inMsg := none, discRequest := false }

/-- `com_init_data` and `dcch0_init_dl_data`, which calls `dcch3_init_dl_data`, in `pei_init`. -/
def peiInit (sapi : Sapi) : Chan :=
  initDlData sapi
    { state := .disabled, cch := Cch.zero
      queue :=
        { store := [], sending := none, switchBuf := none, actLength := 0, actOffset := 0, transmit := []
          mBit := false }
      inMsg := none, discRequest := false, unserved := false, releaseIndPending := false
      releaseIndDelay := 0 }

/-- `com_prepare_DISC` -/
def comPrepareDISC (c : Chan) : Chan :=
  { c with
    state := .awaitingRelease
    cch := { c.cch with vtx := .discCmd, timeFlag := true, t200Counter := 0, rc := 0 } }

end Citrine.Dl
