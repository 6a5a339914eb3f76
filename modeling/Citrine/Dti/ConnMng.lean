import Mathlib.Algebra.Group.Nat.Defs
import Citrine.Lib.Keyed

/-!
# The DTI connection manager

`dti_conn_mng.c`: a DTI channel is a chain of tuples of two entities each.  The manager asks both entities of a tuple to
connect or to disconnect (`mng_ent_cb`), they confirm it one by one, and the callback of the channel is told when the whole
chain is connected or disconnected.

What a call does besides is the list of its outputs: every value that is assigned to the state of a channel, and every call
of a callback.
-/

namespace Citrine.Dti

open Keyed

/-- `T_DTI_ENTITY_ID`, without `DTI_ENTITY_INVALID` -/
inductive EntityId where
  | sndcp | aci | uart | ppps | pppc | l2r | t30 | ip | tra | udp | tcpip | wap | mtst | bluetooth | sim | null | aaa | pktio
  | psi
  deriving DecidableEq, Repr

/-- `T_DTI_CONN_STATE` -/
inductive ConnState where
  | connecting | connected | disconnecting | disconnected
  deriving DecidableEq, Repr

/-- `T_DTI_CONN_MODE` -/
inductive ConnMode where
  | split | append
  deriving DecidableEq, Repr

/-- `T_DTI_CONN_RESULT` -/
inductive ConnResult where
  | ok | error
  deriving DecidableEq, Repr

/-- `DTI_CONNECT` and `DTI_DISCONNECT` -/
inductive DtiConn where
  | connect | disconnect
  deriving DecidableEq, Repr

/-- `T_DTI_CONN_CB`: `dti_conn_error_cb` or a callback of a user. -/
inductive ConnCb where
  | errorCb
  | user (n : Nat)
  deriving DecidableEq, Repr

/-- `T_DTI_CONN_PEER`; no entity is `DTI_ENTITY_INVALID`. -/
structure Peer where
  state : ConnState
  entId : Option EntityId
  deriving DecidableEq, Repr

/-- `T_DTI_CONN_TUPLE` -/
structure Tuple where
  tupleNo : Nat
  state : ConnState
  peer0 : Peer
  peer1 : Peer
  deriving DecidableEq, Repr

/-- `T_DTI_CONN_CHANNEL`; no callback is `NULL`. -/
structure Channel where
  eraseChannel : Bool
  dtiId : Nat
  numOfConns : Nat
  connCb : Option ConnCb
  tupleList : Nat → Tuple
  state : ConnState

/-- What a call does besides. -/
inductive Output where
  /-- The state of a channel is assigned a value. -/
  | state (dtiId : Nat) (old new : ConnState)
  /-- The callback of a channel is called; without one, only a trace is written. -/
  | connCb (cb : Option ConnCb) (dtiId : Nat) (resultType : ConnState)
  | mngEntCb (linkId : Nat) (entityId peerEntityId : Option EntityId) (dtiConn : DtiConn)
  deriving DecidableEq, Repr

/-- The entities of a path; the first two are always looked at. -/
structure EntityList where
  first : Option EntityId
  second : Option EntityId
  rest : List (Option EntityId)
  deriving DecidableEq, Repr

def EntityList.toList (l : EntityList) : List (Option EntityId) := l.first :: l.second :: l.rest

/-- `DTI_DTI_ID_NOTPRESENT` -/
def dtiIdNotpresent : Nat := 255

/-- `MAX_DTI_CONN_CHANNELS` -/
def maxDtiConnChannels : Nat := 32

/-- `dti_conn_compose_link_id` -/
def composeLinkId (dummy assoc dtiId tupleNo : Nat) : Nat := ((dummy * 256 + assoc) * 256 + dtiId) * 256 + tupleNo

/-- `EXTRACT_TUPLE_NO` -/
def extractTupleNo (linkId : Nat) : Nat := linkId % 256

/-- `EXTRACT_DTI_ID` -/
def extractDtiId (linkId : Nat) : Nat := linkId / 256 % 256

/-! ### One channel -/

namespace Channel
variable (c : Channel)

/-- The values after `dti_conn_reset_conn_parms`. -/
def reset (dtiId : Nat) : Channel where
  eraseChannel := false
  dtiId := dtiId
  numOfConns := 0
  connCb := some .errorCb
  tupleList := fun _ => ⟨0, .disconnected, ⟨.disconnected, none⟩, ⟨.disconnected, none⟩⟩
  state := .disconnected

/-- The state is assigned a value. -/
def enter (s : ConnState) : Channel × List Output := ({ c with state := s }, [.state c.dtiId c.state s])

/-- The callback is called. -/
def report (s : ConnState) : List Output := [.connCb c.connCb c.dtiId s]

def setTuple (i : Nat) (t : Tuple) : Channel := { c with tupleList := fun j => if j = i then t else c.tupleList j }

/-- The loop of `dti_conn_connect` over the entities, with the number of the tuple behind the last one. -/
def connectLoop : Channel → Nat → List (Option EntityId) → Channel × Nat × List Output
  | c, tupleNo, e :: f :: rest =>
    let t := c.tupleList tupleNo
    let t : Tuple := { t with peer0 := { t.peer0 with entId := e }, peer1 := { t.peer1 with entId := f } }
    if t.state ≠ .disconnecting ∧ t.state ≠ .connecting then
      let t : Tuple :=
        ⟨tupleNo, .connecting, { t.peer0 with state := .connecting }, { t.peer1 with state := .connecting }⟩
      let r := (c.setTuple tupleNo t).enter .connecting
      let linkId := composeLinkId 0 0 c.dtiId tupleNo
      let q := connectLoop r.1 (tupleNo + 1) (f :: rest)
      (q.1, q.2.1, r.2 ++ [.mngEntCb linkId e f .connect, .mngEntCb linkId f e .connect] ++ q.2.2)
    else connectLoop (c.setTuple tupleNo t) (tupleNo + 1) (f :: rest)
  | c, tupleNo, _ => (c, tupleNo, [])

/-- `dti_conn_connect` -/
def dtiConnConnect (entityList : List (Option EntityId)) (mode : ConnMode) : Channel × List Output :=
  let r := c.enter .connecting
  let q := match mode with
    | .append => connectLoop r.1 r.1.numOfConns entityList
    | .split => connectLoop { r.1 with numOfConns := 0 } 0 entityList
  ({ q.1 with numOfConns := q.2.1 }, r.2 ++ r.1.report .connecting ++ q.2.2)

/-- A peer that is connected, or about to be, is to be disconnected. -/
def disconnectPeer (p q : Peer) (linkId : Nat) : Peer × List Output :=
  if p.state = .connected ∨ p.state = .connecting then
    ({ p with state := .disconnecting }, [.mngEntCb linkId p.entId q.entId .disconnect])
  else (p, [])

/-- The body of the loop of `dti_conn_disconnect`. -/
def disconnectTuple (i : Nat) : Channel × List Output :=
  let t := c.tupleList i
  let linkId := composeLinkId 0 0 c.dtiId i
  let p := disconnectPeer t.peer0 t.peer1 linkId
  let q := disconnectPeer t.peer1 t.peer0 linkId
  let s := if t.state ≠ .disconnected then ConnState.disconnecting else t.state
  (c.setTuple i { t with state := s, peer0 := p.1, peer1 := q.1 }, p.2 ++ q.2)

/-- The loop of `dti_conn_disconnect` over the first tuples. -/
def disconnectLoop : Nat → Channel × List Output
  | 0 => (c, [])
  | i + 1 =>
    let r := disconnectLoop i
    let q := r.1.disconnectTuple i
    (q.1, r.2 ++ q.2)

/-- `dti_conn_disconnect` -/
def dtiConnDisconnect : Channel × List Output :=
  let r := c.enter .disconnecting
  let q := r.1.disconnectLoop r.1.numOfConns
  (q.1, r.2 ++ r.1.report .disconnecting ++ q.2)

/-- The number of the tuples in use that are in a state. -/
def countTuples (s : ConnState) : Nat := (List.range c.numOfConns).countP fun i => decide ((c.tupleList i).state = s)

/-- `dti_conn_is_dti_channel_connected` -/
def isConnected (entId : EntityId) : Bool :=
  (List.range c.numOfConns).any (fun i =>
    decide ((c.tupleList i).peer0.entId = some entId) || decide ((c.tupleList i).peer1.entId = some entId)) &&
  (decide (c.state = .connected) || decide (c.countTuples .connected = c.numOfConns))

/-- `dti_conn_is_dti_channel_disconnected` -/
def isDisconnected : Bool := decide (c.state = .disconnected) || decide (c.countTuples .disconnected = c.numOfConns)

end Channel

/-- A round of the loop of `dti_conn_entity_connected`, with what is added to the count. -/
def Peer.connected (p : Peer) (entId : EntityId) : Peer × Nat :=
  if p.state = .connected then (p, 1)
  else if p.entId = some entId ∧ p.state = .connecting then ({ p with state := .connected }, 1)
  else (p, 0)

/-- A round of the loop of `dti_conn_entity_disconnected`, with what is added to the count. -/
def Peer.disconnected (p : Peer) (entId : EntityId) : Peer × Nat :=
  let count := if p.state = .disconnected then 1 else 0
  if p.entId = some entId then (⟨.disconnected, none⟩, count + 1) else (p, count)

namespace Channel
variable (c : Channel)

/-- `dti_conn_entity_connected`, for a channel that has been found and no error -/
def entityConnected (tupleNo : Nat) (entId : EntityId) : Channel × List Output :=
  if c.state = .connected then (c, [])
  else
    let t := c.tupleList tupleNo
    let p := t.peer0.connected entId
    let q := t.peer1.connected entId
    let t : Tuple := { t with peer0 := p.1, peer1 := q.1 }
    if p.2 + q.2 = 2 then
      let c := c.setTuple tupleNo { t with state := .connected }
      if c.isConnected entId then
        let r := c.enter .connected
        (r.1, r.2 ++ r.1.report .connected)
      else (c, [])
    else (c.setTuple tupleNo t, [])

/-- The loop of `dti_conn_entity_disconnected` over the peers, with the count. -/
def markDisconnected (tupleNo : Nat) (entId : EntityId) : Channel × List Output × Nat :=
  let t := c.tupleList tupleNo
  let p := t.peer0.disconnected entId
  let q := t.peer1.disconnected entId
  if t.peer0.entId = some entId ∨ t.peer1.entId = some entId then
    let d := c.setTuple tupleNo { t with state := .disconnecting, peer0 := p.1, peer1 := q.1 }
    if c.state = .connected then
      let r := d.enter .disconnecting
      (r.1, r.2, p.2 + q.2)
    else (d, [], p.2 + q.2)
  else (c.setTuple tupleNo { t with peer0 := p.1, peer1 := q.1 }, [], p.2 + q.2)

/-- `dti_conn_entity_disconnected`, for a channel that has been found, up to the callback; with whether the channel has
become disconnected -/
def entityDisconnected (tupleNo : Nat) (entId : EntityId) : Channel × List Output × Bool :=
  if c.state = .disconnected then (c, [], false)
  else
    let r := c.markDisconnected tupleNo entId
    if r.2.2 = 2 then
      let d := r.1.setTuple tupleNo { r.1.tupleList tupleNo with state := .disconnected }
      if d.isDisconnected then
        let q := d.enter .disconnected
        ({ q.1 with numOfConns := 0 }, r.2.1 ++ q.2 ++ q.1.report .disconnected, true)
      else (d, r.2.1, false)
    else (r.1, r.2.1, false)

end Channel

/-! ### The manager -/

/-- `T_DTI_CONN_PARAMS`, without `mng_ent_cb` -/
structure ConnParams where
  connCb : Option ConnCb
  numEntities : Nat
  entityListBuf : List (Option EntityId)
  deriving DecidableEq, Repr

/-- The variables of the manager. -/
structure Manager where
  usedDtiChannels : Nat
  dtiChannelList : List Channel
  globParams : ConnParams

namespace Manager
variable (s : Manager)

/-- The state after `dti_conn_init`. -/
def init : Manager := ⟨0, [], ⟨none, 0, []⟩⟩

/-- `dti_conn_find_dti_conn` -/
def findDtiConn (dtiId : Nat) : Option Channel := find Channel.dtiId dtiId s.dtiChannelList

/-- A channel has changed. -/
def store (c : Channel) : Manager := { s with dtiChannelList := put Channel.dtiId c s.dtiChannelList }

/-- The loop of `dti_conn_get_new_dti_id`, from `i` on: the first bit that is not set. -/
def newIdLoop (used : Nat) : Nat → Nat → Option Nat
  | 0, _ => none
  | n + 1, i => if (2 ^ i % 4294967296) &&& used = 0 then some i else newIdLoop used n (i + 1)

/-- `dti_conn_get_new_dti_id` -/
def getNewDtiId : Manager × Nat :=
  match newIdLoop s.usedDtiChannels (maxDtiConnChannels + 1) 0 with
  | none => (s, dtiIdNotpresent)
  | some i => ({ s with usedDtiChannels := s.usedDtiChannels ||| (2 ^ i % 4294967296) }, i)

/-- `dti_conn_remove_dti_id` -/
def removeDtiId (dtiId : Nat) : Manager :=
  if maxDtiConnChannels ≤ dtiId then s
  else { s with usedDtiChannels := s.usedDtiChannels &&& (4294967295 ^^^ 2 ^ dtiId) }

/-- `dti_conn_new` -/
def dtiConnNew (dtiId : Nat) : Manager × Nat :=
  let r := if dtiId = dtiIdNotpresent then s.getNewDtiId else (s, dtiId)
  if r.2 = dtiIdNotpresent then (r.1, dtiIdNotpresent)
  else
    match r.1.findDtiConn r.2 with
    | some _ => (r.1, dtiIdNotpresent)
    | none => ({ r.1 with dtiChannelList := r.1.dtiChannelList ++ [.reset r.2] }, r.2)

/-- `dti_conn_erase_entry` -/
def dtiConnEraseEntry (dtiId : Nat) : Manager :=
  { s with dtiChannelList := s.dtiChannelList.eraseP fun c => decide (c.dtiId = dtiId) }.removeDtiId dtiId

/-- `dti_conn_est_dpath` -/
def dtiConnEstDpath (dtiId : Nat) (entityList : EntityList) (mode : ConnMode) (cb : Option ConnCb) :
    Manager × List Output × Bool :=
  match s.findDtiConn dtiId with
  | none => (s, [], false)
  | some c =>
    if entityList.first = none ∨ entityList.second = none then (s, [], false)
    else if mode = .split ∧ c.state ≠ .disconnected then
      let r := c.dtiConnDisconnect
      ({ s.store r.1 with globParams := ⟨cb, entityList.toList.length, entityList.toList⟩ }, r.2, true)
    else
      let r := { c with connCb := cb }.dtiConnConnect entityList.toList mode
      (s.store r.1, r.2, true)

/-- `dti_conn_close_dpath` -/
def dtiConnCloseDpath (dtiId : Nat) : Manager × List Output × Bool :=
  match s.findDtiConn dtiId with
  | none => (s, [], false)
  | some c =>
    if c.state ≠ .disconnected then
      let r := c.enter .disconnecting
      let q := r.1.dtiConnDisconnect
      (s.store q.1, r.2 ++ q.2, true)
    else (s, [], false)

/-- `dti_conn_entity_disconnected` -/
def dtiConnEntityDisconnected (linkId : Nat) (entId : EntityId) : Manager × List Output :=
  match s.findDtiConn (extractDtiId linkId) with
  | none => (s, [])
  | some c =>
    let r := c.entityDisconnected (extractTupleNo linkId) entId
    if r.2.2 then
      if s.globParams.numEntities ≠ 0 then
        let q := { r.1 with connCb := s.globParams.connCb }.dtiConnConnect
          (s.globParams.entityListBuf.take s.globParams.numEntities) .split
        ({ s.store q.1 with globParams := { s.globParams with numEntities := 0 } }, r.2.1 ++ q.2)
      else if r.1.eraseChannel then ((s.store r.1).dtiConnEraseEntry (extractDtiId linkId), r.2.1)
      else (s.store r.1, r.2.1)
    else (s.store r.1, r.2.1)

/-- `dti_conn_entity_connected` -/
def dtiConnEntityConnected (linkId : Nat) (entId : EntityId) (result : ConnResult) : Manager × List Output :=
  match s.findDtiConn (extractDtiId linkId) with
  | none => (s, [])
  | some c =>
    if result = .error then
      let r := s.dtiConnEntityDisconnected linkId entId
      let q := r.1.dtiConnCloseDpath (extractDtiId linkId)
      (q.1, r.2 ++ q.2.1)
    else
      let r := c.entityConnected (extractTupleNo linkId) entId
      (s.store r.1, r.2)

end Manager

end Citrine.Dti
