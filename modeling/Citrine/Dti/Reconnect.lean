import Citrine.Lib.Machine
import Citrine.Dti.Channels

/-!
# Reconnections

A path that is requested while the channel is still connected has to wait until it is disconnected.  What the manager is for
is that every channel has a request of its own (`Path`).  The manager has one buffer for all of them; it does the same as long
as no channel is disconnected, and none asks for another path, while the request of another one waits
(`reconnections_kept`).
-/

namespace Citrine.Dti

open Keyed

/-! ### Channels with requests of their own -/

/-- The path that a channel is to have when it is disconnected. -/
structure Request where
  entityList : EntityList
  cb : Option ConnCb
  deriving DecidableEq, Repr

/-- A channel with the request that waits for it. -/
structure Path where
  channel : Channel
  requested : Option Request

namespace Path
variable (p : Path)

def dtiId : Nat := p.channel.dtiId

/-- A path is asked for: at once, or when the channel is disconnected. -/
def estDpath (entityList : EntityList) (mode : ConnMode) (cb : Option ConnCb) : Path × List Output :=
  if entityList.first = none ∨ entityList.second = none then (p, [])
  else if mode = .split ∧ p.channel.state ≠ .disconnected then
    let r := p.channel.dtiConnDisconnect
    (⟨r.1, some ⟨entityList, cb⟩⟩, r.2)
  else
    let r := { p.channel with connCb := cb }.dtiConnConnect entityList.toList mode
    ({ p with channel := r.1 }, r.2)

/-- The path is closed. -/
def closeDpath : Path × List Output :=
  if p.channel.state ≠ .disconnected then
    let r := p.channel.enter .disconnecting
    let q := r.1.dtiConnDisconnect
    ({ p with channel := q.1 }, r.2 ++ q.2)
  else (p, [])

/-- An entity is disconnected: with the last one, the request of the channel is carried out. -/
def entityDisconnected (tupleNo : Nat) (entId : EntityId) : Path × List Output :=
  let r := p.channel.entityDisconnected tupleNo entId
  if r.2.2 then
    match p.requested with
    | some q =>
      let d := { r.1 with connCb := q.cb }.dtiConnConnect q.entityList.toList .split
      (⟨d.1, none⟩, r.2.1 ++ d.2)
    | none => ({ p with channel := r.1 }, r.2.1)
  else ({ p with channel := r.1 }, r.2.1)

/-- An entity is connected. -/
def entityConnected (tupleNo : Nat) (entId : EntityId) : Path × List Output :=
  let r := p.channel.entityConnected tupleNo entId
  ({ p with channel := r.1 }, r.2)

end Path

/-- A call for one of the channels. -/
def onPath (ps : List Path) (dtiId : Nat) (f : Path → Path × List Output) : List Path × List Output :=
  match find Path.dtiId dtiId ps with
  | none => (ps, [])
  | some p => (put Path.dtiId (f p).1 ps, (f p).2)

/-! ### Calls -/

inductive Call where
  | new (dtiId : Nat)
  | estDpath (dtiId : Nat) (entityList : EntityList) (mode : ConnMode) (cb : Option ConnCb)
  | closeDpath (dtiId : Nat)
  | entityConnected (linkId : Nat) (entId : EntityId) (result : ConnResult)
  | entityDisconnected (linkId : Nat) (entId : EntityId)
  deriving DecidableEq, Repr

def Manager.call (s : Manager) : Call → Manager × List Output
  | .new dtiId => ((s.dtiConnNew dtiId).1, [])
  | .estDpath dtiId entityList mode cb =>
    let r := s.dtiConnEstDpath dtiId entityList mode cb
    (r.1, r.2.1)
  | .closeDpath dtiId =>
    let r := s.dtiConnCloseDpath dtiId
    (r.1, r.2.1)
  | .entityConnected linkId entId result => s.dtiConnEntityConnected linkId entId result
  | .entityDisconnected linkId entId => s.dtiConnEntityDisconnected linkId entId

/-- The manager, the channels with requests of their own, and what both have done; `dti_conn_new` gives the number of a new
channel. -/
structure System where
  code : Manager
  paths : List Path
  log : List Output
  wanted : List Output

namespace System
variable (s : System)

def start : System := ⟨.init, [], [], []⟩

/-- What the call does when the channels have requests of their own. -/
def onPaths : Call → List Path × List Output
  | .new dtiId =>
    let r := s.code.dtiConnNew dtiId
    (if r.2 = dtiIdNotpresent then s.paths else s.paths ++ [⟨.reset r.2, none⟩], [])
  | .estDpath dtiId entityList mode cb => onPath s.paths dtiId (·.estDpath entityList mode cb)
  | .closeDpath dtiId => onPath s.paths dtiId (·.closeDpath)
  | .entityConnected linkId entId .ok => onPath s.paths (extractDtiId linkId) (·.entityConnected (extractTupleNo linkId) entId)
  | .entityConnected linkId entId .error =>
    let r := onPath s.paths (extractDtiId linkId) (·.entityDisconnected (extractTupleNo linkId) entId)
    let q := onPath r.1 (extractDtiId linkId) (·.closeDpath)
    (q.1, r.2 ++ q.2)
  | .entityDisconnected linkId entId =>
    onPath s.paths (extractDtiId linkId) (·.entityDisconnected (extractTupleNo linkId) entId)

def step (e : Call) : System :=
  let r := s.code.call e
  let q := s.onPaths e
  ⟨r.1, q.1, s.log ++ r.2, s.wanted ++ q.2⟩

/-- No request waits for a channel other than this one. -/
def alone (dtiId : Nat) : Bool := s.paths.all fun p => decide (p.requested = none ∨ p.dtiId = dtiId)

/-- The call is one for a path that has to wait. -/
def parks (dtiId : Nat) (entityList : EntityList) (mode : ConnMode) : Bool :=
  match find Path.dtiId dtiId s.paths with
  | none => false
  | some p => decide (entityList.first ≠ none ∧ entityList.second ≠ none ∧ mode = .split ∧ p.channel.state ≠ .disconnected)

/-- The confirmation is the last one before the channel is disconnected. -/
def closes (linkId : Nat) (entId : EntityId) : Bool :=
  match find Path.dtiId (extractDtiId linkId) s.paths with
  | none => false
  | some p => p.channel.closedBy (extractTupleNo linkId) entId

/-- When a channel is disconnected, or has to wait for a path, no request waits for another channel. -/
def Undisturbed : Call → Bool
  | .estDpath dtiId entityList mode _ => !s.parks dtiId entityList mode || s.alone dtiId
  | .entityConnected linkId entId .error => !s.closes linkId entId || s.alone (extractDtiId linkId)
  | .entityDisconnected linkId entId => !s.closes linkId entId || s.alone (extractDtiId linkId)
  | _ => true

end System

/-- The calls of the manager, in any order. -/
def machine : Machine System Call where
  init s := s = .start
  step s e := some (s.step e)

/-- What is promised of the manager. -/
structure System.Holds (s : System) : Prop where
  /-- A channel is connected when all its tuples and their peers are. -/
  levels : ∀ c ∈ s.code.dtiChannelList, c.state = .connected ↔ 0 < c.numOfConns ∧
    ∀ i, i < c.numOfConns → (c.tupleList i).state = .connected ∧
      (c.tupleList i).peer0.state = .connected ∧ (c.tupleList i).peer1.state = .connected
  /-- The callbacks are told of every transition once. -/
  reported : Told s.log
  /-- The channels are those that have requests of their own, and everything that these ask for has been done. -/
  channels : s.code.dtiChannelList = s.paths.map Path.channel
  carriedOut : s.log = s.wanted
  /-- A request waits for a peer that is still to be disconnected. -/
  awaited : ∀ p ∈ s.paths, p.requested ≠ none → ∃ i, i < p.channel.numOfConns ∧
    ((p.channel.tupleList i).peer0.state ≠ .disconnected ∨ (p.channel.tupleList i).peer1.state ≠ .disconnected)

/-! ### One channel -/

/-- What a call does to a channel. -/
private structure Path.Keeps (p q : Path) (o : List Output) : Prop where
  sound : q.channel.Sound
  told : Told o
  dtiId : q.dtiId = p.dtiId
  waits : q.requested ≠ none → q.channel.state ≠ .disconnected

section
variable {p q : Path} {ps : List Path} {n : Nat} {e : EntityId}

private theorem told_nil : Told [] := rfl

private theorem estDpath_keeps (h : p.channel.Sound) (hw : p.requested ≠ none → p.channel.state ≠ .disconnected)
    (l : EntityList) (mode : ConnMode) (cb : Option ConnCb) : p.Keeps (p.estDpath l mode cb).1 (p.estDpath l mode cb).2 := by
  unfold Path.estDpath
  split
  · exact ⟨h, told_nil, rfl, hw⟩
  · split
    · rename_i hs
      obtain ⟨hsound, htold, hid, hstate⟩ := h.disconnect hs.2
      exact ⟨hsound, htold, hid, fun _ => by rw [hstate]; exact nofun⟩
    · rename_i hs
      obtain ⟨hsound, htold, hid, hstate⟩ := connect_spec (e := l.first) (f := l.second) (l := l.rest) (h.connCb cb)
        mode fun hmode => Decidable.not_not.1 fun hno => hs ⟨hmode, hno⟩
      exact ⟨hsound, htold, hid, fun _ hno => absurd (hstate.symm.trans hno) nofun⟩

private theorem closeDpath_keeps (h : p.channel.Sound) (hw : p.requested ≠ none → p.channel.state ≠ .disconnected) :
    p.Keeps p.closeDpath.1 p.closeDpath.2 := by
  unfold Path.closeDpath
  split
  · rename_i hs
    obtain ⟨hsound, htold, hid, hstate⟩ := disconnect_spec (c := (p.channel.enter .disconnecting).1) h.tuples h.unused
      (h.busy hs) h.kept
    exact ⟨hsound, (told_enter_disconnecting _).append htold, hid, fun _ => by rw [hstate]; exact nofun⟩
  · exact ⟨h, told_nil, rfl, hw⟩

private theorem entityConnected_keeps (h : p.channel.Sound) (hw : p.requested ≠ none → p.channel.state ≠ .disconnected) :
    p.Keeps (p.entityConnected n e).1 (p.entityConnected n e).2 := by
  obtain ⟨hsound, htold, hid, hstate⟩ := h.entityConnected n e
  exact ⟨hsound, htold, hid, fun hr hno => hw hr (hstate hno)⟩

private theorem entityDisconnected_keeps (h : p.channel.Sound)
    (hw : p.requested ≠ none → p.channel.state ≠ .disconnected) :
    p.Keeps (p.entityDisconnected n e).1 (p.entityDisconnected n e).2 := by
  obtain ⟨hsound, htold, hid, hflag, hstate⟩ := h.entityDisconnected n e
  unfold Path.entityDisconnected
  simp only
  rw [hflag] at hstate ⊢
  split
  · rename_i hc
    split
    · rename_i q hq
      obtain ⟨hsound', htold', hid', hstate'⟩ := connect_spec (e := q.entityList.first) (f := q.entityList.second)
        (l := q.entityList.rest) (hsound.connCb q.cb) .split fun _ => hstate.2 (.inr hc)
      exact ⟨hsound', htold.append htold', hid'.trans hid, fun hno => absurd rfl hno⟩
    · rename_i hq
      exact ⟨hsound, htold, hid, fun hno => absurd hq hno⟩
  · rename_i hc
    exact ⟨hsound, htold, hid, fun hr hno => (hstate.1 hno).elim (hw hr) hc⟩

end

/-! ### The buffer -/

/-- The buffer is empty and no request waits, or it holds the only one that does. -/
private def Parked (g : ConnParams) (ps : List Path) : Prop :=
  (g.numEntities = 0 ∧ ∀ p ∈ ps, p.requested = none) ∨
  ∃ p ∈ ps, ∃ r : Request, p.requested = some r ∧
    g = ⟨r.cb, r.entityList.toList.length, r.entityList.toList⟩ ∧ ∀ q ∈ ps, q.requested ≠ none → q.dtiId = p.dtiId

section
variable {g : ConnParams} {p q : Path} {ps : List Path} {r : Request}

/-- No request waits for another channel. -/
private def Alone (id : Nat) (ps : List Path) : Prop := ∀ q ∈ ps, q.requested ≠ none → q.dtiId = id

private theorem alone_iff {s : System} {id : Nat} : s.alone id = true ↔ Alone id s.paths := by
  unfold System.alone Alone
  rw [List.all_eq_true]
  refine forall_congr' fun q => imp_congr_right fun _ => ?_
  rw [decide_eq_true_eq, Classical.or_iff_not_imp_left]

private theorem parked_keep (h : Parked g ps) (hd : Distinct Path.dtiId ps) (hp : p ∈ ps) (hid : q.dtiId = p.dtiId)
    (hr : q.requested = p.requested) : Parked g (put Path.dtiId q ps) := by
  rcases h with ⟨hnum, hnone⟩ | ⟨p', hp', r, hr', hg, hone⟩
  · refine .inl ⟨hnum, fun x hx => ?_⟩
    rcases mem_put hx with rfl | ⟨hx, -⟩
    · exact hr.trans (hnone p hp)
    · exact hnone x hx
  · refine .inr ?_
    have hone' : ∀ x ∈ put Path.dtiId q ps, x.requested ≠ none → x.dtiId = p'.dtiId := by
      intro x hx hne
      rcases mem_put hx with rfl | ⟨hx, -⟩
      · exact hid.trans (hone p hp (hr ▸ hne))
      · exact hone x hx hne
    by_cases heq : p'.dtiId = q.dtiId
    · have : p' = p := hd.eq hp' hp (heq.trans hid)
      subst this
      exact ⟨q, put_mem hp heq, r, hr.trans hr', hg, fun x hx hne => (hone' x hx hne).trans heq⟩
    · exact ⟨p', put_keep hp' heq, r, hr', hg, hone'⟩

private theorem parked_set (hp : p ∈ ps) (ha : Alone p.dtiId ps) (hid : q.dtiId = p.dtiId) (hr : q.requested = some r) :
    Parked ⟨r.cb, r.entityList.toList.length, r.entityList.toList⟩ (put Path.dtiId q ps) := by
  refine .inr ⟨q, put_mem hp hid.symm, r, hr, rfl, fun x hx hne => ?_⟩
  rcases mem_put hx with rfl | ⟨hx, -⟩
  · rfl
  · exact (ha x hx hne).trans hid.symm

private theorem parked_clear (ha : Alone p.dtiId ps) (hid : q.dtiId = p.dtiId) (hr : q.requested = none)
    (hg : g.numEntities = 0) : Parked g (put Path.dtiId q ps) := by
  refine .inl ⟨hg, fun x hx => ?_⟩
  rcases mem_put hx with rfl | ⟨hx, hne⟩
  · exact hr
  · exact Classical.byContradiction fun hno => hne ((ha x hx hno).trans hid.symm)

/-- When no request waits for another channel, the buffer holds the one for this channel. -/
private theorem parked_own (h : Parked g ps) (hd : Distinct Path.dtiId ps) (hp : p ∈ ps) (ha : Alone p.dtiId ps) :
    (p.requested = none → g.numEntities = 0) ∧
    ∀ r, p.requested = some r → g = ⟨r.cb, r.entityList.toList.length, r.entityList.toList⟩ := by
  rcases h with ⟨hnum, hnone⟩ | ⟨p', hp', r, hr', hg, -⟩
  · refine ⟨fun _ => hnum, fun r hr => ?_⟩
    rw [hnone p hp] at hr
    cases hr
  · have : p' = p := hd.eq hp' hp (ha p' hp' (by rw [hr']; exact nofun))
    subst this
    rw [hr']
    exact ⟨nofun, fun r hr => Option.some.inj hr ▸ hg⟩

end

/-! ### The manager and the channels with requests of their own -/

/-- The manager does what the channels with requests of their own do. -/
private structure Agrees (code : Manager) (ps : List Path) (log wanted : List Output) : Prop where
  channels : code.dtiChannelList = ps.map Path.channel
  distinct : Distinct Path.dtiId ps
  sound : ∀ p ∈ ps, p.channel.Sound
  waits : ∀ p ∈ ps, p.requested ≠ none → p.channel.state ≠ .disconnected
  parked : Parked code.globParams ps
  same : log = wanted
  told : Told log

section
variable {s : Manager} {ps : List Path} {log wanted : List Output} {id n linkId : Nat} {e : EntityId}

private theorem Agrees.find (h : Agrees s ps log wanted) : s.findDtiConn id = (find Path.dtiId id ps).map Path.channel := by
  unfold Manager.findDtiConn
  rw [h.channels]
  exact find_map Path.dtiId Channel.dtiId Path.channel fun _ => rfl

/-- Nothing is done. -/
private theorem Agrees.idle (h : Agrees s ps log wanted) : Agrees s ps (log ++ []) (wanted ++ []) := by
  rw [List.append_nil, List.append_nil]
  exact h

/-- One channel is changed, in the same way. -/
private theorem Agrees.put (h : Agrees s ps log wanted) {p q : Path} {o : List Output} {g : ConnParams}
    (hq : p.Keeps q o) (hg : Parked g (put Path.dtiId q ps)) :
    Agrees { s.store q.channel with globParams := g } (put Path.dtiId q ps) (log ++ o) (wanted ++ o) := by
  refine ⟨?_, h.distinct.put, fun x hx => ?_, fun x hx => ?_, hg, by rw [h.same], h.told.append hq.told⟩
  · change Keyed.put Channel.dtiId q.channel s.dtiChannelList = _
    rw [h.channels]
    exact put_map Path.dtiId Channel.dtiId Path.channel fun _ => rfl
  · rcases mem_put hx with rfl | ⟨hx, -⟩
    · exact hq.sound
    · exact h.sound x hx
  · rcases mem_put hx with rfl | ⟨hx, -⟩
    · exact hq.waits
    · exact h.waits x hx

private theorem Agrees.estDpath (h : Agrees s ps log wanted) (l : EntityList) (mode : ConnMode) (cb : Option ConnCb)
    (halone : ∀ p, Keyed.find Path.dtiId id ps = some p → l.first ≠ none ∧ l.second ≠ none ∧ mode = .split ∧
      p.channel.state ≠ .disconnected → Alone id ps) :
    Agrees (s.dtiConnEstDpath id l mode cb).1 (onPath ps id (·.estDpath l mode cb)).1
      (log ++ (s.dtiConnEstDpath id l mode cb).2.1) (wanted ++ (onPath ps id (·.estDpath l mode cb)).2) := by
  unfold Manager.dtiConnEstDpath onPath
  rw [h.find]
  cases hp : Keyed.find Path.dtiId id ps with
  | none => exact h.idle
  | some p =>
    obtain ⟨hmem, hid⟩ := mem_of_find hp
    have hk := estDpath_keeps (h.sound p hmem) (h.waits p hmem) l mode cb
    have ha := halone p hp
    simp only [Option.map_some]
    unfold Path.estDpath at hk ⊢
    by_cases himp : l.first = none ∨ l.second = none
    · simp only [if_pos himp] at hk ⊢
      rw [h.distinct.put_self hmem]
      exact h.idle
    · simp only [if_neg himp] at hk ⊢
      by_cases hs : mode = .split ∧ p.channel.state ≠ .disconnected
      · simp only [if_pos hs] at hk ⊢
        rw [not_or] at himp
        exact h.put hk (parked_set hmem (hid ▸ ha ⟨himp.1, himp.2, hs⟩) hk.dtiId rfl)
      · simp only [if_neg hs] at hk ⊢
        exact h.put hk (parked_keep h.parked h.distinct hmem hk.dtiId rfl)

private theorem Agrees.closeDpath (h : Agrees s ps log wanted) (id : Nat) :
    Agrees (s.dtiConnCloseDpath id).1 (onPath ps id (·.closeDpath)).1
      (log ++ (s.dtiConnCloseDpath id).2.1) (wanted ++ (onPath ps id (·.closeDpath)).2) := by
  unfold Manager.dtiConnCloseDpath onPath
  rw [h.find]
  cases hp : Keyed.find Path.dtiId id ps with
  | none => exact h.idle
  | some p =>
    obtain ⟨hmem, -⟩ := mem_of_find hp
    have hk := closeDpath_keeps (h.sound p hmem) (h.waits p hmem)
    simp only [Option.map_some]
    unfold Path.closeDpath at hk ⊢
    by_cases hs : p.channel.state ≠ .disconnected
    · simp only [if_pos hs] at hk ⊢
      exact h.put hk (parked_keep h.parked h.distinct hmem hk.dtiId rfl)
    · simp only [if_neg hs]
      rw [h.distinct.put_self hmem]
      exact h.idle

private theorem Agrees.entityConnected (h : Agrees s ps log wanted) :
    Agrees (s.dtiConnEntityConnected linkId e .ok).1
      (onPath ps (extractDtiId linkId) (·.entityConnected (extractTupleNo linkId) e)).1
      (log ++ (s.dtiConnEntityConnected linkId e .ok).2)
      (wanted ++ (onPath ps (extractDtiId linkId) (·.entityConnected (extractTupleNo linkId) e)).2) := by
  unfold Manager.dtiConnEntityConnected onPath
  rw [h.find]
  cases hp : Keyed.find Path.dtiId (extractDtiId linkId) ps with
  | none => exact h.idle
  | some p =>
    obtain ⟨hmem, -⟩ := mem_of_find hp
    have hk := entityConnected_keeps (n := extractTupleNo linkId) (e := e) (h.sound p hmem) (h.waits p hmem)
    exact h.put hk (parked_keep h.parked h.distinct hmem hk.dtiId rfl)

private theorem Agrees.entityDisconnected (h : Agrees s ps log wanted)
    (halone : ∀ p, Keyed.find Path.dtiId (extractDtiId linkId) ps = some p →
      p.channel.closedBy (extractTupleNo linkId) e = true → Alone (extractDtiId linkId) ps) :
    Agrees (s.dtiConnEntityDisconnected linkId e).1
      (onPath ps (extractDtiId linkId) (·.entityDisconnected (extractTupleNo linkId) e)).1
      (log ++ (s.dtiConnEntityDisconnected linkId e).2)
      (wanted ++ (onPath ps (extractDtiId linkId) (·.entityDisconnected (extractTupleNo linkId) e)).2) := by
  unfold Manager.dtiConnEntityDisconnected onPath
  rw [h.find]
  cases hp : Keyed.find Path.dtiId (extractDtiId linkId) ps with
  | none => exact h.idle
  | some p =>
    obtain ⟨hmem, hid⟩ := mem_of_find hp
    have hk := entityDisconnected_keeps (n := extractTupleNo linkId) (e := e) (h.sound p hmem) (h.waits p hmem)
    have ha := halone p hp
    obtain ⟨hsound, -, -, hflag, -⟩ := (h.sound p hmem).entityDisconnected (extractTupleNo linkId) e
    simp only [Option.map_some]
    unfold Path.entityDisconnected at hk ⊢
    simp only [hflag] at hk ⊢
    by_cases hc : p.channel.closedBy (extractTupleNo linkId) e = true
    · obtain ⟨hown, hbuf⟩ := parked_own h.parked h.distinct hmem (hid ▸ ha hc)
      simp only [if_pos hc] at hk ⊢
      cases hreq : p.requested with
      | none =>
        simp only [hreq] at hk ⊢
        rw [if_neg (fun hno => hno (hown hreq)), hsound.kept, if_neg nofun]
        exact h.put hk (parked_keep h.parked h.distinct hmem hk.dtiId hreq.symm)
      | some r =>
        simp only [hreq] at hk ⊢
        have hb := hbuf r hreq
        rw [hb, if_pos (by exact nofun)]
        simp only [List.take_length]
        exact h.put hk (parked_clear (hid ▸ ha hc) hk.dtiId rfl rfl)
    · simp only [if_neg hc] at hk ⊢
      exact h.put hk (parked_keep h.parked h.distinct hmem hk.dtiId rfl)

private theorem Agrees.new (h : Agrees s ps log wanted) (id : Nat) :
    Agrees (s.dtiConnNew id).1
      (if (s.dtiConnNew id).2 = dtiIdNotpresent then ps else ps ++ [⟨.reset (s.dtiConnNew id).2, none⟩]) log wanted := by
  -- the bits of the numbers play no part in this
  have hr : ∃ (used i : Nat), (if id = dtiIdNotpresent then s.getNewDtiId else (s, id)) =
      ({ s with usedDtiChannels := used }, i) := by
    split
    · unfold Manager.getNewDtiId
      split
      · exact ⟨_, _, rfl⟩
      · exact ⟨_, _, rfl⟩
    · exact ⟨_, _, rfl⟩
  obtain ⟨used, i, hr⟩ := hr
  have hu : Agrees { s with usedDtiChannels := used } ps log wanted :=
    ⟨h.channels, h.distinct, h.sound, h.waits, h.parked, h.same, h.told⟩
  unfold Manager.dtiConnNew
  rw [hr]
  simp only
  by_cases hi : i = dtiIdNotpresent
  · rw [if_pos hi, if_pos rfl]
    exact hu
  · rw [if_neg hi, hu.find]
    cases hp : Keyed.find Path.dtiId i ps with
    | some p =>
      simp only [Option.map_some, if_true]
      exact hu
    | none =>
      simp only [Option.map_none, if_neg hi]
      refine ⟨?_, ?_, fun x hx => ?_, fun x hx => ?_, ?_, h.same, h.told⟩
      · change s.dtiChannelList ++ _ = _
        rw [h.channels, List.map_append]
        rfl
      · unfold Distinct
        rw [List.map_append]
        refine h.distinct.append (List.nodup_singleton _) fun k hk hk' => ?_
        obtain ⟨x, hx, hxk⟩ := List.mem_map.1 hk
        exact find_none hp hx (hxk.trans (List.mem_singleton.1 hk'))
      · rcases List.mem_append.1 hx with hx | hx
        · exact h.sound x hx
        · rw [List.mem_singleton.1 hx]
          exact sound_reset i
      · rcases List.mem_append.1 hx with hx | hx
        · exact h.waits x hx
        · rw [List.mem_singleton.1 hx]
          exact fun hno => absurd rfl hno
      · rcases h.parked with ⟨hnum, hnone⟩ | ⟨p, hp, r, hr, hg, hone⟩
        · refine .inl ⟨hnum, fun x hx => ?_⟩
          rcases List.mem_append.1 hx with hx | hx
          · exact hnone x hx
          · rw [List.mem_singleton.1 hx]
        · refine .inr ⟨p, List.mem_append_left _ hp, r, hr, hg, fun x hx hne => ?_⟩
          rcases List.mem_append.1 hx with hx | hx
          · exact hone x hx hne
          · rw [List.mem_singleton.1 hx] at hne
            exact absurd rfl hne

/-- An error is a disconnection, after which the path is closed. -/
private theorem dtiConnEntityConnected_error :
    s.dtiConnEntityConnected linkId e .error =
      (((s.dtiConnEntityDisconnected linkId e).1.dtiConnCloseDpath (extractDtiId linkId)).1,
        (s.dtiConnEntityDisconnected linkId e).2 ++
          ((s.dtiConnEntityDisconnected linkId e).1.dtiConnCloseDpath (extractDtiId linkId)).2.1) := by
  unfold Manager.dtiConnEntityConnected
  split
  · rename_i hnone
    unfold Manager.dtiConnEntityDisconnected
    rw [hnone]
    simp only
    unfold Manager.dtiConnCloseDpath
    rw [hnone]
    rfl
  · rfl

end

private theorem agrees_step {s : System} (h : Agrees s.code s.paths s.log s.wanted) (e : Call) (hok : s.Undisturbed e = true) :
    Agrees (s.step e).code (s.step e).paths (s.step e).log (s.step e).wanted := by
  have hcloses : ∀ {linkId : Nat} {entId : EntityId},
      (!s.closes linkId entId || s.alone (extractDtiId linkId)) = true →
      ∀ p, Keyed.find Path.dtiId (extractDtiId linkId) s.paths = some p →
        p.channel.closedBy (extractTupleNo linkId) entId = true → Alone (extractDtiId linkId) s.paths := by
    intro linkId entId hok p hp hc
    rw [Bool.or_eq_true, Bool.not_eq_true'] at hok
    refine alone_iff.1 (hok.resolve_left fun hno => ?_)
    unfold System.closes at hno
    rw [hp] at hno
    exact absurd (hc.symm.trans hno) nofun
  cases e with
  | new dtiId =>
    have := h.new dtiId
    rw [← List.append_nil s.log, ← List.append_nil s.wanted] at this
    exact this
  | estDpath dtiId l mode cb =>
    refine h.estDpath l mode cb fun p hp hpark => alone_iff.1 ?_
    change (!s.parks dtiId l mode || s.alone dtiId) = true at hok
    rw [Bool.or_eq_true, Bool.not_eq_true'] at hok
    refine hok.resolve_left fun hno => ?_
    unfold System.parks at hno
    rw [hp] at hno
    exact of_decide_eq_false hno hpark
  | closeDpath dtiId => exact h.closeDpath dtiId
  | entityConnected linkId entId result =>
    cases result with
    | ok => exact h.entityConnected
    | error =>
      have hd := (h.entityDisconnected (hcloses hok)).closeDpath (extractDtiId linkId)
      rw [List.append_assoc, List.append_assoc] at hd
      unfold System.step Manager.call
      simp only
      rw [dtiConnEntityConnected_error]
      exact hd
  | entityDisconnected linkId entId => exact h.entityDisconnected (hcloses hok)

/-- As long as no channel is disconnected, and none has to wait for a path, while the request of another channel waits, the
manager keeps its promises in every run. -/
theorem reconnections_kept {s : System} (h : machine.Reach System.Undisturbed s) : s.Holds := by
  have hs : Agrees s.code s.paths s.log s.wanted := by
    refine h.invariant (I := fun s => Agrees s.code s.paths s.log s.wanted) (fun s hs => ?_) fun s e t hs hok ht => ?_
    · change s = .start at hs
      rw [hs]
      exact ⟨rfl, List.nodup_nil, fun _ hp => (List.not_mem_nil hp).elim, fun _ hp => (List.not_mem_nil hp).elim,
        .inl ⟨rfl, fun _ hp => (List.not_mem_nil hp).elim⟩, rfl, told_nil⟩
    · rw [← Option.some.inj ht]
      exact agrees_step hs e hok
  refine ⟨fun c hc => ?_, hs.told, hs.channels, hs.same, fun p hp hr => ?_⟩
  · rw [hs.channels] at hc
    obtain ⟨p, hp, rfl⟩ := List.mem_map.1 hc
    have hsound := hs.sound p hp
    refine hsound.up.trans (and_congr_right fun _ => forall_congr' fun i => imp_congr_right fun _ => ?_)
    exact ⟨fun hup => ⟨hup, (hsound.tuples i).up.1 hup⟩, fun hup => hup.1⟩
  · obtain ⟨i, hi, hne⟩ := (hs.sound p hp).busy (hs.waits p hp hr)
    refine ⟨i, hi, Classical.not_and_iff_not_or_not.1 fun hboth => hne (((hs.sound p hp).tuples i).down.2 hboth)⟩

/-- Two channels: on each of them, a path between two entities is requested and connected. -/
def twoChannels : List Call :=
  [.new 0, .new 1, .estDpath 0 ⟨some .aci, some .uart, []⟩ .split (some (.user 1)),
    .estDpath 1 ⟨some .aci, some .ppps, []⟩ .split (some (.user 2)),
    .entityConnected (composeLinkId 0 0 0 0) .aci .ok, .entityConnected (composeLinkId 0 0 1 0) .aci .ok,
    .entityConnected (composeLinkId 0 0 0 0) .uart .ok, .entityConnected (composeLinkId 0 0 1 0) .ppps .ok]

/-- Channel 0 is to get another path, and becomes disconnected. -/
def reconnect : List Call :=
  [.estDpath 0 ⟨some .aci, some .l2r, []⟩ .split (some (.user 3)), .entityDisconnected (composeLinkId 0 0 0 0) .uart,
    .entityDisconnected (composeLinkId 0 0 0 0) .aci]

/-- Channel 1 is closed and becomes disconnected. -/
def closeOther : List Call :=
  [.closeDpath 1, .entityDisconnected (composeLinkId 0 0 1 0) .aci, .entityDisconnected (composeLinkId 0 0 1 0) .ppps]

/-- One after the other, the reconnection of channel 0 and the end of channel 1 are as promised. -/
theorem twoChannels_kept :
    ∃ s, machine.run System.Undisturbed .start (twoChannels ++ reconnect ++ closeOther) = some s ∧ s.Holds := by
  have hrun : (machine.run System.Undisturbed .start (twoChannels ++ reconnect ++ closeOther)).isSome = true := by
    decide +kernel
  obtain ⟨s, hs⟩ := Option.isSome_iff_exists.1 hrun
  exact ⟨s, hs, reconnections_kept (.of_run (.init rfl) hs)⟩

/-- When channel 1 is closed while the request of channel 0 waits, it is channel 1 that is connected to the entities for
channel 0, with the callback for channel 0, which itself stays disconnected. -/
theorem twoChannels_swapped :
    (machine.run (fun _ _ => true) .start (twoChannels ++ reconnect.take 1 ++ closeOther ++ reconnect.drop 1)).map
      (fun s => (s.log.drop 25, s.wanted.drop 25)) =
    some (
      [.state 1 .disconnected .connecting, .connCb (some (.user 3)) 1 .connecting, .state 1 .connecting .connecting,
        .mngEntCb (composeLinkId 0 0 1 0) (some .aci) (some .l2r) .connect,
        .mngEntCb (composeLinkId 0 0 1 0) (some .l2r) (some .aci) .connect,
        .state 0 .disconnecting .disconnected, .connCb (some (.user 1)) 0 .disconnected],
      [.state 0 .disconnecting .disconnected, .connCb (some (.user 1)) 0 .disconnected,
        .state 0 .disconnected .connecting, .connCb (some (.user 3)) 0 .connecting, .state 0 .connecting .connecting,
        .mngEntCb (composeLinkId 0 0 0 0) (some .aci) (some .l2r) .connect,
        .mngEntCb (composeLinkId 0 0 0 0) (some .l2r) (some .aci) .connect]) := by
  decide +kernel

end Citrine.Dti
