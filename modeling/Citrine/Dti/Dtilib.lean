import Citrine.Lib.Pair
import Citrine.Lib.Machine

/-!
# The DTI library

`dti_kerf.c` and `dti_int.c`: one link of an entity, that is connected to the link of a neighbour.  A function of the library
stops where it calls the callback of the entity: the entity may then call the library again, and the function goes on when
the callback returns (`Link.resume`).  What is left to be done then is on the stack of the end (`End`).
-/

namespace Citrine.Dti

/-! ### Links -/

/-- The states of the connection. -/
inductive ConnectState where
  | closed | setup | idle | connecting | closing
  deriving DecidableEq, Repr

/-- The states of receiving: no flow control primitive sent, one sent, one sent and the entity has stopped. -/
inductive RxState where
  | idle | ready | stopped
  deriving DecidableEq, Repr

/-- The states of sending: waiting for a flow control primitive, one received, the entity knows that the buffer is full. -/
inductive TxState where
  | idle | flow | bufferFull
  deriving DecidableEq, Repr

/-- `link_options`; `enabled` leaves the choice to the size of the queue. -/
inductive LinkOptions where
  | enabled | flowCntrlDisabled | queueUnused | queueUnbounded | queueRmFifo | queueRmLifo | queueWatermark
  deriving DecidableEq, Repr

/-- The primitives between two neighbours, with the number of a packet. -/
inductive Prim where
  | connect | confirm | disconnect | ready
  | data (packet : Nat)
  deriving DecidableEq, Repr

def Prim.isData : Prim → Bool
  | .data _ => true
  | _ => false

/-- The reasons of the callback. -/
inductive Reason where
  | connectionOpened | connectionClosed | txBufferFull | txBufferReady
  | dataReceived (packet : Nat)
  deriving DecidableEq, Repr

/-- What is left to be done when the callback returns. -/
inductive Cont where
  /-- `send_open_ready_callback`, after the connection is opened -/
  | openReady
  /-- `data_prim_received`, after data in `DTI_RX_READY` -/
  | dataReady
  /-- `flow_control_prim_received`, after the buffer is ready -/
  | flowReady
  /-- `dti_close`, after the connection is closed -/
  | closeNow
  | done
  deriving DecidableEq, Repr

/-- `DTI_LINK`; a link that is closed is not in use. -/
structure Link where
  connectState : ConnectState
  rxState : RxState
  txState : TxState
  linkOptions : LinkOptions
  queueSize : Nat
  queueLen : Nat
  dtiDataInd : List Nat
  deriving DecidableEq, Repr

/-- What a function does until it returns or calls the callback: the link, the primitives that are sent, and the callback
with what is left to be done after it. -/
structure Res where
  link : Link
  prims : List Prim
  callback : Option (Reason × Cont)
  deriving DecidableEq, Repr

namespace Link

/-- The values after `set_default_para_link_table`. -/
def default : Link where
  connectState := .closed
  rxState := .idle
  txState := .idle
  linkOptions := .queueUnused
  queueSize := 0
  queueLen := 0
  dtiDataInd := []

variable (l : Link)

/-- A function that returns without more. -/
def leave : Res := ⟨l, [], none⟩

/-- `put_dti_data_ind_in_queue`; the length has 8 bits, and so has the count of the packets. -/
def putDtiDataInd (p : Nat) : Link :=
  if l.queueLen = 0 then { l with dtiDataInd := [p], queueLen := 1 }
  else if l.dtiDataInd.length % 256 ≠ l.queueLen then { l with dtiDataInd := l.dtiDataInd ++ [p] }
  else { l with dtiDataInd := l.dtiDataInd ++ [p], queueLen := (l.queueLen + 1) % 256 }

/-- `get_dti_data_ind_from_queue` -/
def getDtiDataInd : Link × Option Nat :=
  if l.queueLen = 0 then (l, none)
  else ({ l with queueLen := l.queueLen - 1, dtiDataInd := l.dtiDataInd.tail }, l.dtiDataInd.head?)

/-- `get_last_dti_data_ind_from_queue`, which is discarded -/
def getLastDtiDataInd : Link :=
  if l.queueLen = 0 then l else { l with queueLen := l.queueLen - 1, dtiDataInd := l.dtiDataInd.dropLast }

/-- `put_dti_data_ind_in_queue_managed` -/
def putDtiDataIndManaged (p : Nat) : Link :=
  let q := if l.linkOptions ≠ .queueUnused then l.putDtiDataInd p else l
  match l.linkOptions with
  | .queueRmFifo => if q.queueLen > q.queueSize then q.getDtiDataInd.1 else q
  | .queueRmLifo => if q.queueLen > q.queueSize then q.getLastDtiDataInd else q
  | _ => q

/-- `validate_open_parameters` -/
def validateOpenParameters (linkOptions : LinkOptions) (queueSize : Nat) : LinkOptions × Nat :=
  let options :=
    if linkOptions = .enabled then
      if queueSize = 0 then .queueUnused else if queueSize = 255 then .queueUnbounded else .queueRmLifo
    else linkOptions
  if options = .queueUnused ∨ options = .flowCntrlDisabled ∨ options = .queueUnbounded then (options, 0)
  else if queueSize = 0 then (.queueUnused, 0)
  else (options, queueSize)

/-- `set_open_para_link_table` -/
def setOpenPara (linkOptions : LinkOptions) (queueSize : Nat) (connectState : ConnectState) : Link where
  connectState := connectState
  rxState := .idle
  txState := .bufferFull
  linkOptions := linkOptions
  queueSize := queueSize
  queueLen := 0
  dtiDataInd := []

/-- `set_reset_req_para_link_table` -/
def setResetReqPara : Link := { l with dtiDataInd := [], queueLen := 0, connectState := .idle }

/-- `send_disconnect_req_or_ind`, `close_link_with_signal` -/
def closeWithSignal (prims : List Prim) : Res := ⟨.default, prims, some (.connectionClosed, .done)⟩

/-- `dti_open` -/
def dtiOpen (linkOptions : LinkOptions) (queueSize : Nat) : Res :=
  let v := validateOpenParameters linkOptions queueSize
  match l.connectState with
  | .closing | .idle => ⟨setOpenPara v.1 v.2 .idle, [.connect], some (.connectionOpened, .openReady)⟩
  | .setup => l.leave
  | .closed => ⟨setOpenPara v.1 v.2 .setup, [.connect], none⟩
  | .connecting => ⟨setOpenPara v.1 v.2 .idle, [.confirm], some (.connectionOpened, .openReady)⟩

/-- `dti_close` -/
def dtiClose (flush : Bool) : Res :=
  match l.connectState with
  | .closed => l.leave
  | _ =>
    if flush then
      if l.queueLen ≠ 0 then { l with connectState := .closing }.leave
      else ⟨l, [], some (.connectionClosed, .closeNow)⟩
    else ⟨.default, [.disconnect], none⟩

/-- `dti_start` -/
def dtiStart : Res :=
  if l.connectState ≠ .idle ∨ l.linkOptions = .flowCntrlDisabled then l.leave
  else
    match l.rxState with
    | .idle => ⟨{ l with rxState := .ready }, [.ready], none⟩
    | .stopped => { l with rxState := .ready }.leave
    | .ready => l.leave

/-- `dti_stop` -/
def dtiStop : Res :=
  if l.connectState ≠ .idle ∨ l.linkOptions = .flowCntrlDisabled then l.leave
  else
    match l.rxState with
    | .ready => { l with rxState := .stopped }.leave
    | _ => l.leave

/-- The end of `dti_send_data`: the entity is warned when the queue is full. -/
def warnFull (prims : List Prim) : Res :=
  if l.queueSize ≤ l.queueLen ∧ l.linkOptions ≠ .queueUnbounded then
    ⟨{ l with txState := .bufferFull }, prims, some (.txBufferFull, .done)⟩
  else ⟨l, prims, none⟩

/-- The primitive for a packet from the queue, if there was one. -/
def dataPrims : Option Nat → List Prim
  | none => []
  | some p => [.data p]

/-- `dti_send_data` -/
def dtiSendData (p : Nat) : Res :=
  if l.connectState ≠ .idle then l.leave
  else if l.linkOptions = .flowCntrlDisabled then ⟨l, [.data p], none⟩
  else
    match l.txState with
    | .idle | .bufferFull => (l.putDtiDataIndManaged p).warnFull []
    | .flow =>
      let r := (l.putDtiDataInd p).getDtiDataInd
      { r.1 with txState := .idle }.warnFull (dataPrims r.2)

/-- The end of `flow_control_prim_received`: a link that is to be closed is closed when the queue is empty. -/
def flowEnd (prims : List Prim) : Res :=
  if l.queueLen = 0 ∧ l.connectState = .closing then closeWithSignal (prims ++ [.disconnect]) else ⟨l, prims, none⟩

/-- `flow_control_prim_received` -/
def flowControlPrimReceived : Res :=
  if (l.connectState ≠ .idle ∧ l.connectState ≠ .closing) ∨ l.linkOptions = .flowCntrlDisabled then l.leave
  else
    let r := l.getDtiDataInd
    match l.txState with
    | .idle | .flow =>
      match r.2 with
      | some p => r.1.flowEnd [.data p]
      | none => { r.1 with txState := .flow }.flowEnd []
    | .bufferFull =>
      let s : Link :=
        match r.2 with
        | some _ => if r.1.queueLen < r.1.queueSize then { r.1 with txState := .idle } else r.1
        | none => { r.1 with txState := .flow }
      if s.connectState ≠ .closing ∧ s.txState ≠ .bufferFull then
        ⟨s, dataPrims r.2, some (.txBufferReady, .flowReady)⟩
      else s.flowEnd (dataPrims r.2)

/-- `connect_init_prim_received` -/
def connectInitPrimReceived : Res :=
  match l.connectState with
  | .idle => ⟨l.setResetReqPara, [.confirm], some (.connectionOpened, .openReady)⟩
  | .setup => ⟨{ l with connectState := .idle, rxState := .idle }, [.confirm], some (.connectionOpened, .openReady)⟩
  | .closing => closeWithSignal [.confirm, .disconnect]
  | .closed => { Link.default with connectState := .connecting }.leave
  | .connecting => l.leave

/-- `connect_confirm_prim_received` -/
def connectConfirmPrimReceived : Res :=
  match l.connectState with
  | .setup => ⟨{ l with connectState := .idle, rxState := .idle }, [], some (.connectionOpened, .openReady)⟩
  | _ => l.leave

/-- `disconnect_prim_received` -/
def disconnectPrimReceived : Res :=
  match l.connectState with
  | .closed => l.leave
  | _ => closeWithSignal []

/-- `data_prim_received` -/
def dataPrimReceived (p : Nat) : Res :=
  if l.connectState ≠ .idle then l.leave
  else if l.linkOptions = .flowCntrlDisabled then ⟨l, [], some (.dataReceived p, .done)⟩
  else
    match l.rxState with
    | .ready => ⟨l, [], some (.dataReceived p, .dataReady)⟩
    | .stopped => ⟨{ l with rxState := .idle }, [], some (.dataReceived p, .done)⟩
    | .idle => l.leave

/-- A primitive has been received. -/
def primReceived : Prim → Res
  | .connect => l.connectInitPrimReceived
  | .confirm => l.connectConfirmPrimReceived
  | .disconnect => l.disconnectPrimReceived
  | .ready => l.flowControlPrimReceived
  | .data p => l.dataPrimReceived p

/-- The callback returns. -/
def resume : Cont → Res
  | .openReady =>
    if l.queueLen < l.queueSize ∨ l.linkOptions = .queueUnbounded then
      ⟨{ l with txState := .idle }, [], some (.txBufferReady, .done)⟩
    else l.leave
  | .dataReady =>
    if l.rxState = .ready then ⟨l, [.ready], none⟩ else { l with rxState := .idle }.leave
  | .flowReady => l.flowEnd []
  | .closeNow => ⟨.default, [.disconnect], none⟩
  | .done => l.leave

end Link

/-! ### The queue -/

/-- Links that differ in the queue only, of which the length never exceeds the number of packets. -/
structure Link.Requeued (l m : Link) : Prop where
  connect : m.connectState = l.connectState
  rx : m.rxState = l.rxState
  tx : m.txState = l.txState
  options : m.linkOptions = l.linkOptions
  queue : l.queueLen ≤ l.dtiDataInd.length → m.queueLen ≤ m.dtiDataInd.length

section
variable {l m k : Link} {p : Nat}

theorem Link.Requeued.refl (l : Link) : l.Requeued l := ⟨rfl, rfl, rfl, rfl, id⟩

theorem Link.Requeued.trans (h : l.Requeued m) (h' : m.Requeued k) : l.Requeued k :=
  ⟨h'.connect.trans h.connect, h'.rx.trans h.rx, h'.tx.trans h.tx, h'.options.trans h.options, fun hq => h'.queue (h.queue hq)⟩

theorem put_requeued : l.Requeued (l.putDtiDataInd p) := by
  unfold Link.putDtiDataInd
  split
  · exact ⟨rfl, rfl, rfl, rfl, fun _ => Nat.le_refl 1⟩
  · split
    · refine ⟨rfl, rfl, rfl, rfl, fun hq => ?_⟩
      simp only [List.length_append, List.length_singleton]
      omega
    · refine ⟨rfl, rfl, rfl, rfl, fun hq => ?_⟩
      simp only [List.length_append, List.length_singleton]
      omega

theorem get_requeued : l.Requeued l.getDtiDataInd.1 := by
  unfold Link.getDtiDataInd
  split
  · exact .refl l
  · refine ⟨rfl, rfl, rfl, rfl, fun hq => ?_⟩
    simp only [List.length_tail]
    omega

theorem getLast_requeued : l.Requeued l.getLastDtiDataInd := by
  unfold Link.getLastDtiDataInd
  split
  · exact .refl l
  · refine ⟨rfl, rfl, rfl, rfl, fun hq => ?_⟩
    simp only [List.length_dropLast]
    omega

theorem putManaged_requeued : l.Requeued (l.putDtiDataIndManaged p) := by
  unfold Link.putDtiDataIndManaged
  simp only
  have hput : l.Requeued (if l.linkOptions ≠ .queueUnused then l.putDtiDataInd p else l) := by
    split
    · exact put_requeued
    · exact .refl l
  generalize (if l.linkOptions ≠ .queueUnused then l.putDtiDataInd p else l) = q at hput ⊢
  split
  · split
    · exact hput.trans get_requeued
    · exact hput
  · split
    · exact hput.trans getLast_requeued
    · exact hput
  · exact hput

/-- A flow control primitive sends the next packet of the queue, or is kept when there is none. -/
theorem flowControl_cases (h : l.connectState = .idle ∨ l.connectState = .closing) (ho : l.linkOptions ≠ .flowCntrlDisabled) :
    ∃ tx, (l.getDtiDataInd.2 = none → tx = .flow) ∧ (l.getDtiDataInd.2 ≠ none → tx = l.txState ∨ tx = .idle) ∧
      (l.flowControlPrimReceived =
          Link.flowEnd { l.getDtiDataInd.1 with txState := tx } (Link.dataPrims l.getDtiDataInd.2) ∨
        l.connectState ≠ .closing ∧ l.flowControlPrimReceived =
          ⟨{ l.getDtiDataInd.1 with txState := tx }, Link.dataPrims l.getDtiDataInd.2, some (.txBufferReady, .flowReady)⟩) := by
  have hg := @get_requeued l
  unfold Link.flowControlPrimReceived
  rw [if_neg (fun hno => hno.elim (fun hc => h.elim hc.1 hc.2) ho)]
  generalize l.getDtiDataInd = r at *
  obtain ⟨g, q⟩ := r
  simp only at hg ⊢
  have hsame : ∀ {t : TxState}, g.txState = t → { g with txState := t } = g := fun ht => by rw [← ht]
  cases q with
  | none =>
    refine ⟨.flow, fun _ => rfl, fun hno => absurd rfl hno, ?_⟩
    split
    · exact .inl rfl
    · exact .inl rfl
    · simp only
      split
      · rename_i hc
        exact .inr ⟨fun hno => hc.1 (hg.connect.trans hno), rfl⟩
      · exact .inl rfl
  | some p =>
    split
    · rename_i ht
      exact ⟨l.txState, nofun, fun _ => .inl rfl, .inl (by rw [hsame hg.tx]; rfl)⟩
    · rename_i ht
      exact ⟨l.txState, nofun, fun _ => .inl rfl, .inl (by rw [hsame hg.tx]; rfl)⟩
    · have hs : ∃ tx, (tx = l.txState ∨ tx = .idle) ∧
          (if g.queueLen < g.queueSize then ({ g with txState := .idle } : Link) else g) = { g with txState := tx } := by
        split
        · exact ⟨.idle, .inr rfl, rfl⟩
        · exact ⟨l.txState, .inl rfl, (hsame hg.tx).symm⟩
      obtain ⟨tx, htx, hs⟩ := hs
      refine ⟨tx, nofun, fun _ => htx, ?_⟩
      simp only
      rw [hs]
      split
      · rename_i hc
        exact .inr ⟨fun hno => hc.1 (hg.connect.trans hno), rfl⟩
      · exact .inl rfl

end

/-! ### Two neighbours -/

/-- The calls of the library. -/
inductive DtiCall where
  | «open» (linkOptions : LinkOptions) (queueSize : Nat)
  | close (flush : Bool)
  | start
  | stop
  | sendData (packet : Nat)
  deriving DecidableEq, Repr

def Link.call (l : Link) : DtiCall → Res
  | .open linkOptions queueSize => l.dtiOpen linkOptions queueSize
  | .close flush => l.dtiClose flush
  | .start => l.dtiStart
  | .stop => l.dtiStop
  | .sendData p => l.dtiSendData p

/-- An end: its link, the callbacks that have not returned, and the reasons of all callbacks. -/
structure End where
  link : Link
  stack : List Cont
  signals : List Reason
  deriving DecidableEq, Repr

/-- A function returns, or calls the callback. -/
def End.after (e : End) (r : Res) : End :=
  match r.callback with
  | none => { e with link := r.link }
  | some (reason, cont) => ⟨r.link, cont :: e.stack, e.signals ++ [reason]⟩

/-- What happens at an end: the entity calls the library, at any time; its callback returns; or the next primitive is
received, when no callback is running. -/
inductive DtiEvent where
  | call (x : Bool) (c : DtiCall)
  | ret (x : Bool)
  | deliver (x : Bool)
  deriving DecidableEq, Repr

/-- Two neighbours. -/
abbrev Neighbours := Pair End Prim

def Neighbours.start : Neighbours := ⟨fun _ => ⟨.default, [], []⟩, fun _ => []⟩

def Neighbours.step (s : Neighbours) : DtiEvent → Option Neighbours
  | .call x c =>
    let r := (s.ends x).link.call c
    some (s.put x ((s.ends x).after r) r.prims)
  | .ret x =>
    match (s.ends x).stack with
    | [] => none
    | k :: ks =>
      let r := (s.ends x).link.resume k
      some (s.put x ({ s.ends x with stack := ks }.after r) r.prims)
  | .deliver x =>
    if (s.ends x).stack = [] then
      (s.take x).map fun u =>
        let r := (s.ends x).link.primReceived u.1
        u.2.put x ((s.ends x).after r) r.prims
    else none

/-- All runs of two neighbours. -/
def dtilib : Machine Neighbours DtiEvent where
  init s := s = .start
  step := Neighbours.step

end Citrine.Dti
