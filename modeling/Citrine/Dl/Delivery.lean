import Citrine.Dl.Window
import Citrine.Lib.Machine

/-!
# Delivery of uplink messages

An established channel and its peer in the network, over two FIFOs that lose any frame.  The peer takes an I frame
whose N(S) is its V(R), answers the others with REJ, and answers a poll with a response with F = 1.  Its RR and REJ
frames and its own I frames carry its V(R) as N(R), and it may send them whenever it likes.  A run starts with the
link just established, with whatever the queue then holds, and stays in multiple frame operation and timer
recovery.

The ghosts number the segments of all messages from zero.  `delivery` says that the peer reassembles a
prefix of the messages, and that a message that has left the queue, or has been confirmed, was acknowledged with all
its segments, in all runs whose steps are sound (`Link.sound`); `unsent_freed` shows that without this condition
the message in the switch buffer may be freed before it is sent.
-/

namespace Citrine.Dl

/-! ### The system -/

/-- A frame under way, with the number of its segment, or the number that its N(R) stands for. -/
structure Numbered where
  num : Nat
  frame : Frame

/-- The channel, the peer, the two FIFOs, and the ghosts. -/
structure Link where
  chan : Chan
  up : List Numbered
  down : List Numbered
  /-- The segments that the peer has taken, the polls it has still to answer, and the frames it has refused. -/
  received : List (Segment Octet)
  polls : Nat
  rejects : Nat
  /-- The messages of RR that the queue took. -/
  msgs : List (List Octet)
  /-- The number of segments that were sent at least once. -/
  next : Nat
  /-- What the N(R) that arrived last stands for. -/
  acked : Nat
  /-- The number of `DL_DATA_CNF`. -/
  confirmed : Nat

/-- The events of the system. -/
inductive LinkEvent where
  | dataReq (m : Msg)
  | uplink (dlActive displaced : Bool)
  | deliver
  | take
  | supervisory (f : Frame)
  | info (f : Frame)
  | loseUp (k : Nat)
  | loseDown (k : Nat)

/-- An event of the channel. -/
def Link.handle (sapi : Sapi) (e : Event) (s : Link) : Link :=
  let r := step sapi e s.chan
  { s with chan := r.1, confirmed := s.confirmed + confirmations r.2.prims }

/-- The number of the segment in an I frame that goes out: the last one not above `next` with this N(S). -/
def Link.number (f : Frame) (s : Link) : Nat := s.next - (s.next + 8 - f.sendNumber) % 8

/-- An I frame goes into the FIFO; the other uplink frames do not concern the peer as a receiver. -/
def Link.send (frame : Option Frame) (s : Link) : Link :=
  match frame.filter Frame.isI with
  | some f => { s with up := s.up ++ [⟨s.number f, f⟩], next := max s.next (s.number f + 1) }
  | none => s

/-- The runs stay in multiple frame operation and timer recovery. -/
def Link.stays (s : Link) : Option Link := if s.chan.state.established then some s else none

/-- The peer takes or refuses an I frame; an invalid frame is ignored. -/
def Link.accept (ch : ChType) (f : Frame) (s : Link) : Link :=
  if frameValidation ch f = none then
    let s := if f.pBit then { s with polls := s.polls + 1 } else s
    if f.sendNumber = s.received.length % 8 then { s with received := s.received ++ [(f.infoField, f.mBit)] }
    else { s with rejects := s.rejects + 1 }
  else s

/-- The N(R) of the frame is the V(R) of the peer. -/
def Link.current (f : Frame) (s : Link) : Bool := f.receiveNumber == s.received.length % 8

/-- The peer may send this RR or REJ frame: REJ answers an I frame that it has refused, and a response with F = 1
answers a poll. -/
def Link.answers (f : Frame) (s : Link) : Bool :=
  f.formatType == .s && s.current f && (f.sType == rrFrame || (f.sType == rejFrame && s.rejects != 0)) &&
    (f.cr || !f.pBit || s.polls != 0)

/-- The peer sends a frame. -/
def Link.put (f : Frame) (s : Link) : Link := { s with down := s.down ++ [⟨s.received.length, f⟩] }

/-- One event of the system. -/
def Link.step (ch : ChType) (sapi : Sapi) (s : Link) : LinkEvent → Option Link
  | .dataReq m =>
    let room := s.chan.queue.store.length < maxQueuedMessages
    some { s.handle sapi (.dataReq m) with msgs := if room then s.msgs ++ [m.sdu] else s.msgs }
  | .uplink dlActive displaced =>
    let e := Event.uplink ch dlActive displaced
    ((s.handle sapi e).send (Dl.step sapi e s.chan).2.frame).stays
  | .deliver =>
    match s.down with
    | [] => none
    | x :: rest =>
      let acked := if addressed ch sapi x.frame then max s.acked x.num else s.acked
      (({ s with down := rest, acked := acked } : Link).handle sapi (.frame ch x.frame)).stays
  | .take =>
    match s.up with
    | [] => none
    | x :: rest => some (({ s with up := rest } : Link).accept ch x.frame)
  | .supervisory f =>
    if s.answers f then
      some { s.put f with
        polls := if f.cr || !f.pBit then s.polls else s.polls - 1
        rejects := if f.sType = rejFrame then s.rejects - 1 else s.rejects }
    else none
  | .info f => if f.isI && s.current f then some (s.put f) else none
  | .loseUp k => if k < s.up.length then some { s with up := s.up.eraseIdx k } else none
  | .loseDown k => if k < s.down.length then some { s with down := s.down.eraseIdx k } else none

/-! ### The beginning of a run -/

/-- A queue of which nothing has been read since it was cleared or restored; its messages are not empty. -/
structure Queue.Fresh (q : Queue) : Prop where
  sending : ∀ m, q.sending = some m → q.actLength = m.sdu.length ∧ q.actOffset = 0 ∧ m.sdu ≠ []
  idle : q.sending = none → q.actLength = 0
  store : ∀ m ∈ q.store, m.sdu ≠ []

/-- A link that has just been established. -/
structure Ready (c : Chan) : Prop where
  state : c.state = .multipleFrameEstablished
  numbers : c.cch.va = 0 ∧ c.cch.vs = 0 ∧ c.cch.vr < 8
  timer : c.cch.running = false
  queue : c.queue.Fresh

/-- The system when the link has just been established. -/
def Link.start (c : Chan) : Link :=
  { chan := c, up := [], down := [], received := [], polls := 0, rejects := 0
    msgs := c.queue.held, next := 0, acked := 0, confirmed := 0 }

/-- The system as a machine. -/
def delivery.machine (ch : ChType) (sapi : Sapi) : Machine Link LinkEvent :=
  ⟨fun s => ∃ c, Ready c ∧ s = Link.start c, Link.step ch sapi⟩

/-- The condition on a step of the system. -/
def Link.sound (ch : ChType) (sapi : Sapi) (s : Link) : LinkEvent → Bool
  | .dataReq m => m.sdu.length != 0
  | .uplink _ _ => s.chan.queue.switchBuf.all fun w => w.sdu.length ≤ n201 ch
  | .deliver => s.down.head?.all fun x => !addressed ch sapi x.frame || s.chan.tx.sound x.frame
  | _ => true

/-- Clearing the queue makes it fresh. -/
theorem comClearQueue_fresh (q : Queue) : (comClearQueue q).Fresh := by
  refine ⟨fun _ h => ?_, fun _ => rfl, fun _ h => ?_⟩
  · cases h
  · cases h

/-- Restoring the queue makes it fresh. -/
theorem comRestoreQueue_fresh {q : Queue} (hs : ∀ m, q.sending = some m → m.sdu ≠ [])
    (hi : q.sending = none → q.actLength = 0) (hst : ∀ m ∈ q.store, m.sdu ≠ []) (estReq : Option Msg) :
    (comRestoreQueue q estReq).Fresh := by
  unfold comRestoreQueue
  cases hm : q.sending with
  | none =>
    refine ⟨fun m h => ?_, fun _ => hi hm, hst⟩
    cases h
  | some x =>
    refine ⟨fun m h => ?_, fun h => ?_, hst⟩
    · simp only [Option.some.injEq] at h
      subst h
      exact ⟨rfl, rfl, hs _ hm⟩
    · cases h

/-- A UA that confirms the establishment leaves the link as a run starts with it. -/
theorem ready_of_confirmed {ch : ChType} {sapi : Sapi} {c : Chan} {f : Frame} (hc : c.state = .contentionResolution)
    (ho : opens ch sapi c f) (hr : f.cr = false) (hq : c.queue.Fresh) : Ready (Dl.step sapi (.frame ch f) c).1 := by
  have ha : addressed ch sapi f := by
    simp only [opens, Bool.and_eq_true] at ho
    exact ho.1.1
  simp only [opens, ha, hc, hr, Bool.true_and, Bool.false_eq_true, if_false, Bool.and_eq_true, beq_iff_eq] at ho
  obtain ⟨hu, hua, hconf⟩ := ho
  have hconfirmed : ∀ i : CchIntern, i.chan.queue.Fresh → i.signals = [] → i.dlDataInd = false →
      i.mdlErrorCause = none → i.t200Start = false →
      Ready (serve sapi (establishCnf i).finish.2 (establishCnf i).finish.1).1 := by
    intro i hiq hs hd hm ht
    have hsig : (establishCnf i).finish.2 = [.establishCnf] := by
      simp [establishCnf, CchIntern.finish, CchIntern.emit, CchIntern.resetVars, hs, hd, hm]
    rw [hsig]
    refine ⟨rfl, ?_, ?_, hiq⟩
    · simp [serve, handleSignal, CchIntern.finish, establishCnf, CchIntern.emit, CchIntern.resetVars, ht]
    · simp [serve, handleSignal, CchIntern.finish, establishCnf, CchIntern.emit, CchIntern.resetVars, ht, Cch.running,
        t200Stopped]
  have hst : (CchIntern.start c).state = .contentionResolution := hc
  have hd : ∀ i : CchIntern, downlinkState ch sapi (CchIntern.start c) f = establishCnf i → i.chan.queue.Fresh →
      i.signals = [] → i.dlDataInd = false → i.mdlErrorCause = none → i.t200Start = false →
      Ready (Dl.step sapi (.frame ch f) c).1 := by
    intro i hi h1 h2 h3 h4 h5
    simp only [step, dlDownlink, ha, if_true, hi]
    exact hconfirmed i h1 h2 h3 h4 h5
  have hne : uaFrame ≠ dmFrame := by decide
  cases sapi with
  | sapi0 =>
    unfold confirms at hconf
    simp only at hconf
    split at hconf
    · rename_i hcr
      refine hd { CchIntern.start c with chan.queue.switchBuf := none } ?_ ⟨hq.sending, hq.idle, hq.store⟩ rfl rfl rfl rfl
      have hcr' : (CchIntern.start c).chan.cch.contentionResolution = true := hcr
      have hcmp : comCompareL3Msg (CchIntern.start c).chan.queue.switchBuf f = true := hconf
      simp [downlinkState, hst, downlinkContentionResolution, hu, hr, hua, hne, hcr', hcmp]
    · rename_i hcr
      refine hd (CchIntern.start c) ?_ hq rfl rfl rfl rfl
      have hcr0 : c.cch.contentionResolution = false := by simpa using hcr
      have hcr' : (CchIntern.start c).chan.cch.contentionResolution = false := hcr0
      have hl : f.lengthIndicator = 0 := by simpa using hconf
      simp [downlinkState, hst, downlinkContentionResolution, hu, hr, hua, hne, hcr', hl]
  | sapi3 =>
    have hl : f.lengthIndicator = 0 ∨ ch = .sacch := by simpa [confirms] using hconf
    refine hd (CchIntern.start c) ?_ hq rfl rfl rfl rfl
    simp [downlinkState, hst, downlinkContentionResolution, hu, hr, hua, hne, hl]

/-! ### The invariant -/

/-- An I frame in the FIFO to the peer. -/
structure Link.UpOk (ch : ChType) (s : Link) (x : Numbered) : Prop where
  carries : Carries ch s.msgs x.num x.frame
  num : s.received.length ≤ x.num + 1 ∧ x.num < s.next

/-- A frame in the FIFO from the peer. -/
structure Link.DownOk (s : Link) (x : Numbered) : Prop where
  format : x.frame.formatType ≠ .u
  num : s.acked ≤ x.num ∧ x.num ≤ s.received.length
  receiveNumber : x.frame.receiveNumber = x.num % 8
  reject : x.frame.formatType = .s → x.frame.sType = rejFrame → 1 ≤ x.num

/-- The frames of a FIFO are in the order of their numbers. -/
def Ordered (l : List Numbered) : Prop := l.Pairwise fun x y => x.num ≤ y.num

/-- The transmitting side, as far as the peer is concerned. -/
def Link.TxInv (ch : ChType) (s : Link) : Prop :=
  ∃ A S, A ≤ s.acked ∧ s.chan.tx.Inv ch s.msgs A S s.next ∧ s.chan.queue.Accounts ch s.msgs A s.confirmed

structure Link.Inv (ch : ChType) (s : Link) : Prop where
  vr : s.chan.cch.vr < 8
  tx : s.TxInv ch
  acked : s.acked ≤ s.received.length
  received : s.received.length ≤ s.next
  segments : s.received <+: outgoing ch s.msgs
  up : ∀ x ∈ s.up, s.UpOk ch x
  upOrdered : Ordered s.up
  down : ∀ x ∈ s.down, s.DownOk x
  downOrdered : Ordered s.down
  rejects : 0 < s.rejects → 1 ≤ s.received.length

section
variable {ch : ChType} {sapi : Sapi} {s t : Link}

theorem Link.Inv.established (h : s.Inv ch) : s.chan.state.established := by
  obtain ⟨A, S, -, htx, -⟩ := h.tx
  exact htx.state

/-! ### The initial state -/

private theorem Queue.Fresh.rest {q : Queue} (h : q.Fresh) :
    q.rest ch = outgoing ch ((q.sending.toList ++ q.store).map Msg.sdu) := by
  unfold Queue.rest Queue.pending
  cases hm : q.sending with
  | none => rfl
  | some m =>
    obtain ⟨hl, ho, hne⟩ := h.sending m hm
    have hlen : q.actLength ≠ 0 := by
      rw [hl]
      simpa using hne
    simp only [hlen, if_false, ho, List.drop_zero]
    exact (outgoing_cons ch m.sdu _).symm

private theorem Queue.Fresh.wf {q : Queue} (h : q.Fresh) : q.Wf := by
  refine ⟨fun m hm _ => ?_, h.idle, h.store⟩
  obtain ⟨hl, ho, -⟩ := h.sending m hm
  rw [hl, ho, Nat.zero_add]

private theorem link_start_inv {c : Chan} (h : Ready c) : (Link.start c).Inv ch := by
  obtain ⟨hva, hvs, hvr⟩ := h.numbers
  have hat : c.queue.At ch c.queue.held 0 := by
    refine ⟨h.queue.wf, Nat.zero_le _, fun hs => ?_, fun w hw => ⟨Nat.zero_le _, ?_, by omega⟩⟩
    · rw [h.queue.rest, List.drop_zero]
      unfold Queue.held
      rw [hs]
      rfl
    · rw [h.queue.rest, ← outgoing_append]
      unfold Queue.held
      rw [hw]
      rfl
  have htx : c.tx.Inv ch c.queue.held 0 0 0 := by
    refine ⟨hva, hvs, ?_, by omega, Nat.zero_le _, hat, fun _ hr => ?_, fun htr => ?_, by omega, fun _ _ => rfl,
      by omega⟩
    · simp [Chan.tx, h.state, ChState.established]
    · exact absurd hr (by simp [Chan.tx, h.timer])
    · exact absurd (h.state.symm.trans htr) (by decide)
  refine ⟨hvr, ⟨0, 0, Nat.le_refl _, htx, [], rfl, Nat.zero_le _, Nat.le_refl _, fun _ => rfl⟩, Nat.le_refl _,
    Nat.le_refl _, List.nil_prefix, fun x hx => ?_, List.Pairwise.nil, fun x hx => ?_, List.Pairwise.nil, ?_⟩
  · cases hx
  · cases hx
  · intro hr
    cases hr

/-! ### The channel -/

/-- The peer and the FIFOs do not depend on what the channel does. -/
private theorem Link.Inv.with_chan (h : s.Inv ch) {c : Chan} {confirmed : Nat} (hvr : c.cch.vr < 8)
    (htx : Link.TxInv ch { s with chan := c, confirmed := confirmed }) :
    Link.Inv ch { s with chan := c, confirmed := confirmed } :=
  ⟨hvr, htx, h.acked, h.received, h.segments, fun x hx => ⟨(h.up x hx).1, (h.up x hx).2⟩, h.upOrdered,
    fun x hx => ⟨(h.down x hx).1, (h.down x hx).2, (h.down x hx).3, (h.down x hx).4⟩, h.downOrdered, h.rejects⟩

private theorem dataReq_inv (h : s.Inv ch) {m : Msg} (hm : m.sdu ≠ []) (ht : s.step ch sapi (.dataReq m) = some t) :
    t.Inv ch := by
  have hest := h.established
  simp only [Link.step, Option.some.injEq] at ht
  subst ht
  have hstep : Dl.step sapi (.dataReq m) s.chan = ({ s.chan with queue := comStoreQueue s.chan.queue m }, ⟨[], none⟩) := by
    revert hest
    simp only [step, dataReq]
    cases sapi <;> cases s.chan.state <;> simp [ChState.established]
  unfold Link.handle
  rw [hstep]
  simp only [confirmations, List.countP_nil, Nat.add_zero]
  unfold comStoreQueue
  obtain ⟨A, S, hA, htx, hacc⟩ := h.tx
  split
  · obtain ⟨htx', hacc'⟩ := htx.push hacc hm
    have hsub : outgoing ch s.msgs <+: outgoing ch (s.msgs ++ [m.sdu]) := by
      rw [outgoing_append]
      exact List.prefix_append _ _
    refine ⟨h.vr, ⟨A, S, hA, htx', hacc'⟩, h.acked, h.received, h.segments.trans hsub, fun x hx => ?_, h.upOrdered,
      fun x hx => ?_, h.downOrdered, h.rejects⟩
    · obtain ⟨⟨hn, hseg⟩, hnum⟩ := h.up x hx
      refine ⟨⟨hn, ?_⟩, hnum⟩
      obtain ⟨hlt, -⟩ := List.getElem?_eq_some_iff.1 hseg
      simp only
      rw [outgoing_append, List.getElem?_append_left hlt]
      exact hseg
    · exact ⟨(h.down x hx).1, (h.down x hx).2, (h.down x hx).3, (h.down x hx).4⟩
  · exact h.with_chan h.vr ⟨A, S, hA, htx, hacc⟩

private theorem stays_eq {s t : Link} (h : s.stays = some t) : s = t ∧ t.chan.state.established := by
  unfold Link.stays at h
  split at h
  · rename_i he
    cases h
    exact ⟨rfl, he⟩
  · cases h

/-- The number of a frame that goes out. -/
private theorem number_eq {f : Frame} {num : Nat} (hf : f.sendNumber = num % 8) (h1 : s.next ≤ num + 1)
    (h2 : num ≤ s.next) : s.number f = num := by
  unfold Link.number
  rw [hf]
  omega

private theorem uplink_inv (h : s.Inv ch) {dlActive displaced : Bool}
    (hok : s.sound ch sapi (.uplink dlActive displaced)) (ht : s.step ch sapi (.uplink dlActive displaced) = some t) :
    t.Inv ch := by
  simp only [Link.step] at ht
  obtain ⟨rfl, hest⟩ := stays_eq ht
  have hbefore := h.established
  have hest' : (Dl.step sapi (.uplink ch dlActive displaced) s.chan).1.state.established := by
    revert hest
    unfold Link.send Link.handle
    split <;> exact id
  obtain ⟨A, S, hA, htx, hacc⟩ := h.tx
  have hvs : s.chan.cch.vs < 8 := by
    have hv : s.chan.cch.vs = S % 8 := htx.vs
    omega
  obtain ⟨hup, hcnf⟩ := uplink_tx hvs h.vr hbefore hest'
  have hlen : ∀ w, s.chan.tx.queue.switchBuf = some w → w.sdu.length ≤ n201 ch := by
    intro w hw
    have hw' : s.chan.queue.switchBuf = some w := hw
    simpa [Link.sound, hw'] using hok
  obtain ⟨hacc', hnone, hsome⟩ := htx.uplink hacc hlen h.vr hup
  have hvr : (Dl.step sapi (.uplink ch dlActive displaced) s.chan).1.cch.vr < 8 := by
    have hq := (event_quiet sapi (e := .uplink ch dlActive displaced) rfl s.chan).1
    rw [hq.vr (live_of_established hest')]
    exact h.vr
  unfold Link.send Link.handle
  simp only [hcnf, Nat.add_zero]
  generalize Dl.step sapi (.uplink ch dlActive displaced) s.chan = r at hnone hsome hacc' hvr
  split
  · rename_i f hf
    obtain ⟨num, S', hc, h1, h2, hinv⟩ := hsome f hf
    have hnum : Link.number f { s with chan := r.1 } = num := number_eq hc.sendNumber h1 h2
    rw [hnum]
    refine ⟨hvr, ⟨A, S', hA, hinv, hacc'⟩, h.acked, Nat.le_trans h.received (Nat.le_max_left _ _), h.segments,
      fun x hx => ?_, ?_, fun x hx => ?_, h.downOrdered, h.rejects⟩
    · rcases List.mem_append.1 hx with hx | hx
      · obtain ⟨hcx, hn⟩ := h.up x hx
        exact ⟨hcx, hn.1, Nat.lt_of_lt_of_le hn.2 (Nat.le_max_left _ _)⟩
      · rw [List.mem_singleton.1 hx]
        exact ⟨hc, Nat.le_trans h.received h1, Nat.lt_of_lt_of_le (Nat.lt_succ_self _) (Nat.le_max_right _ _)⟩
    · refine List.pairwise_append.2 ⟨h.upOrdered, List.pairwise_singleton _ _, fun x hx y hy => ?_⟩
      rw [List.mem_singleton.1 hy]
      have := (h.up x hx).num.2
      simp only
      omega
    · exact ⟨(h.down x hx).1, (h.down x hx).2, (h.down x hx).3, (h.down x hx).4⟩
  · rename_i hf
    obtain ⟨S', hinv⟩ := hnone hf
    exact h.with_chan hvr ⟨A, S', hA, hinv, hacc'⟩

private theorem link_deliver_inv (h : s.Inv ch) (hok : s.sound ch sapi .deliver) (ht : s.step ch sapi .deliver = some t) :
    t.Inv ch := by
  simp only [Link.step] at ht
  split at ht
  · cases ht
  rename_i x rest hx
  obtain ⟨rfl, hest⟩ := stays_eq ht
  have hbefore := h.established
  obtain ⟨hf, hnum, hnr, hrej⟩ := h.down x (by simp [hx])
  have hord := h.downOrdered
  rw [hx, Ordered, List.pairwise_cons] at hord
  have hrest : ∀ y ∈ rest, s.DownOk y ∧ x.num ≤ y.num := fun y hy => ⟨h.down y (by simp [hx, hy]), hord.1 y hy⟩
  by_cases ha : addressed ch sapi x.frame
  · have htr : transfers ch sapi s.chan x.frame := by simp [transfers, ha, hbefore, hf]
    obtain ⟨htx, hcnf⟩ := receive_tx htr hest
    have hvr : (Dl.step sapi (.frame ch x.frame) s.chan).1.cch.vr < 8 := by
      rw [(transfer_step htr).1]
      have := h.vr
      split <;> omega
    obtain ⟨A, S, hA, hinv, hacc⟩ := h.tx
    have hsound : s.chan.tx.sound x.frame := by simpa [Link.sound, hx, ha] using hok
    have hle : A ≤ x.num ∧ x.num ≤ s.next := ⟨Nat.le_trans hA hnum.1, Nat.le_trans hnum.2 h.received⟩
    obtain ⟨A', S', hA', hinv', hacc'⟩ := hinv.receive hacc hle hnr hrej hsound
    rw [← htx] at hinv' hacc'
    rw [← hcnf] at hacc'
    have hmax : max s.acked x.num = x.num := Nat.max_eq_right hnum.1
    unfold Link.handle
    simp only [ha, if_true, hmax]
    refine ⟨hvr, ⟨A', S', hA', hinv', hacc'⟩, hnum.2, h.received, h.segments,
      fun y hy => ⟨(h.up y hy).1, (h.up y hy).2⟩, h.upOrdered, fun y hy => ?_, hord.2, h.rejects⟩
    obtain ⟨hy', hle'⟩ := hrest y hy
    exact ⟨hy'.1, ⟨hle', hy'.2.2⟩, hy'.3, hy'.4⟩
  · have hstep : Dl.step sapi (.frame ch x.frame) s.chan = (s.chan, ⟨[], none⟩) := by
      simp [step, dlDownlink, ha, serve]
    unfold Link.handle
    simp only [hstep, ha, Bool.false_eq_true, if_false, confirmations, List.countP_nil, Nat.add_zero]
    exact ⟨h.vr, h.tx, h.acked, h.received, h.segments, fun y hy => ⟨(h.up y hy).1, (h.up y hy).2⟩, h.upOrdered,
      fun y hy => ⟨(hrest y hy).1.1, (hrest y hy).1.2, (hrest y hy).1.3, (hrest y hy).1.4⟩, hord.2, h.rejects⟩

/-! ### The peer -/

private theorem take_inv (h : s.Inv ch) (ht : s.step ch sapi .take = some t) : t.Inv ch := by
  simp only [Link.step] at ht
  split at ht
  · cases ht
  rename_i x rest hx
  simp only [Option.some.injEq] at ht
  subst ht
  obtain ⟨⟨hns, hseg⟩, hnum⟩ := h.up x (by simp [hx])
  have hord := h.upOrdered
  rw [hx, Ordered, List.pairwise_cons] at hord
  have hrest : ∀ y ∈ rest, s.UpOk ch y ∧ x.num ≤ y.num := fun y hy => ⟨h.up y (by simp [hx, hy]), hord.1 y hy⟩
  obtain ⟨A, S, hA, htx, hacc⟩ := h.tx
  have hwin := htx.window
  have hacked := h.acked
  have hrecv := h.received
  have hdown : ∀ {u : Link}, u.acked = s.acked → s.received.length ≤ u.received.length → ∀ y ∈ s.down, u.DownOk y := by
    intro u hu hl y hy
    have hy' := h.down y hy
    exact ⟨hy'.1, ⟨hu ▸ hy'.2.1, Nat.le_trans hy'.2.2 hl⟩, hy'.3, hy'.4⟩
  unfold Link.accept
  split
  · -- polls are only counted
    have hp : ∀ p : Nat, Link.Inv ch (if x.frame.sendNumber = s.received.length % 8 then
        { s with up := rest, polls := p, received := s.received ++ [(x.frame.infoField, x.frame.mBit)] }
        else { s with up := rest, polls := p, rejects := s.rejects + 1 }) := by
      intro p
      split
      · rename_i hn
        have heq : x.num = s.received.length := by
          rw [hns] at hn
          omega
        have hlen : (s.received ++ [(x.frame.infoField, x.frame.mBit)]).length = s.received.length + 1 := by simp
        refine ⟨h.vr, ⟨A, S, hA, htx, hacc⟩, ?_, ?_, ?_, fun y hy => ?_, hord.2, hdown rfl (by simp), h.downOrdered, ?_⟩
        · rw [hlen]
          exact Nat.le_succ_of_le hacked
        · rw [hlen]
          have := hnum.2
          simp only
          omega
        · rw [List.prefix_iff_eq_take, hlen, List.take_add_one, ← List.prefix_iff_eq_take.1 h.segments, ← heq, hseg]
          rfl
        · obtain ⟨hy', hle⟩ := hrest y hy
          refine ⟨hy'.1, ?_, hy'.2.2⟩
          rw [hlen]
          omega
        · intro _
          rw [hlen]
          exact Nat.le_add_left _ _
      · rename_i hn
        refine ⟨h.vr, ⟨A, S, hA, htx, hacc⟩, h.acked, h.received, h.segments,
          fun y hy => ⟨(hrest y hy).1.1, (hrest y hy).1.2⟩, hord.2, hdown rfl (Nat.le_refl _), h.downOrdered, fun _ => ?_⟩
        have hne : x.num ≠ s.received.length := fun he => hn (he ▸ hns)
        have := hnum.2
        simp only
        omega
    have hif : ∀ b : Bool, (if b then { s with up := rest, polls := s.polls + 1 } else { s with up := rest } : Link) =
        { s with up := rest, polls := if b then s.polls + 1 else s.polls } := by
      intro b
      cases b <;> rfl
    simp only [hif]
    exact hp _
  · exact ⟨h.vr, ⟨A, S, hA, htx, hacc⟩, h.acked, h.received, h.segments,
      fun y hy => ⟨(hrest y hy).1.1, (hrest y hy).1.2⟩, hord.2, hdown rfl (Nat.le_refl _), h.downOrdered, h.rejects⟩

/-- A frame of the peer goes to the end of its FIFO. -/
private theorem Link.Inv.after_put (h : s.Inv ch) {f : Frame} (hf : f.formatType ≠ .u) (hc : s.current f)
    (hrej : f.formatType = .s → f.sType = rejFrame → 0 < s.rejects) (polls : Nat) {rejects : Nat}
    (hr : rejects ≤ s.rejects) : Link.Inv ch { s.put f with polls := polls, rejects := rejects } := by
  refine ⟨h.vr, h.tx, h.acked, h.received, h.segments, fun y hy => ⟨(h.up y hy).1, (h.up y hy).2⟩, h.upOrdered,
    fun y hy => ?_, ?_, fun hlt => h.rejects (Nat.lt_of_lt_of_le hlt hr)⟩
  · rcases List.mem_append.1 hy with hy | hy
    · exact ⟨(h.down y hy).1, (h.down y hy).2, (h.down y hy).3, (h.down y hy).4⟩
    · rw [List.mem_singleton.1 hy]
      refine ⟨hf, ⟨h.acked, Nat.le_refl _⟩, ?_, fun hs hre => h.rejects (hrej hs hre)⟩
      simpa [Link.current] using hc
  · refine List.pairwise_append.2 ⟨h.downOrdered, List.pairwise_singleton _ _, fun y hy z hz => ?_⟩
    rw [List.mem_singleton.1 hz]
    exact (h.down y hy).num.2

/-- Frames may get lost. -/
private theorem Link.Inv.after_loss (h : s.Inv ch) {up down : List Numbered} (hu : up.Sublist s.up)
    (hd : down.Sublist s.down) : Link.Inv ch { s with up := up, down := down } :=
  ⟨h.vr, h.tx, h.acked, h.received, h.segments,
    fun y hy => ⟨(h.up y (hu.subset hy)).1, (h.up y (hu.subset hy)).2⟩, h.upOrdered.sublist hu,
    fun y hy => ⟨(h.down y (hd.subset hy)).1, (h.down y (hd.subset hy)).2, (h.down y (hd.subset hy)).3,
      (h.down y (hd.subset hy)).4⟩, h.downOrdered.sublist hd, h.rejects⟩

private theorem link_step_inv {e : LinkEvent} (h : s.Inv ch) (hok : s.sound ch sapi e) (ht : s.step ch sapi e = some t) :
    t.Inv ch := by
  cases e with
  | dataReq m => exact dataReq_inv h (by simpa [Link.sound] using hok) ht
  | uplink dlActive displaced => exact uplink_inv h hok ht
  | deliver => exact link_deliver_inv h hok ht
  | take => exact take_inv h ht
  | supervisory f =>
    simp only [Link.step] at ht
    split at ht
    · rename_i ha
      cases ht
      simp only [Link.answers, Bool.and_eq_true, Bool.or_eq_true, beq_iff_eq] at ha
      refine h.after_put (by simp [ha.1.1.1]) ha.1.1.2 (fun _ hre => ?_) _ (by split <;> omega)
      rcases ha.1.2 with hrr | hrj
      · rw [hrr] at hre
        exact absurd hre (by decide)
      · have := hrj.2
        simp only [bne_iff_ne, ne_eq] at this
        omega
    · cases ht
  | info f =>
    simp only [Link.step] at ht
    split at ht
    · rename_i ha
      cases ht
      simp only [Frame.isI, Bool.and_eq_true, beq_iff_eq] at ha
      refine h.after_put (by simp [ha.1]) ha.2 (fun hs => ?_) s.polls (Nat.le_refl _)
      rw [ha.1] at hs
      cases hs
    · cases ht
  | loseUp k =>
    simp only [Link.step] at ht
    split at ht
    · cases ht
      exact h.after_loss (List.eraseIdx_sublist _ _) (List.Sublist.refl _)
    · cases ht
  | loseDown k =>
    simp only [Link.step] at ht
    split at ht
    · cases ht
      exact h.after_loss (List.Sublist.refl _) (List.eraseIdx_sublist _ _)
    · cases ht

end

/-- The message of the switch buffer and one that needs two frames. -/
def delivery.switchMsg : Msg := ⟨.sdcch, .sapi0, 0, [0x06, 0x29], by decide⟩

def delivery.longMsg : Msg := ⟨.sdcch, .sapi0, 1, List.replicate 20 0x05 ++ [0x01], by decide⟩

private theorem establishSdu_lt : ([0x05, 0x08] : List Octet).length < 8192 := by decide

/-- A channel after a resumption: an establishment, a suspension, a message to be sent, and the UA that answers the
SABM of the resumption. -/
def delivery.resumed : Chan :=
  ([.establishReq ⟨.sdcch, .sapi0, 0, [0x05, 0x08], establishSdu_lt⟩, .uplink .sdcch false false,
    .frame .sdcch (comBuildFrame .sdcch uaFrame .sapi0 false 0 0 true 2 false [0x05, 0x08]), .suspendReq,
    .dataReq delivery.longMsg, .resumeReq delivery.switchMsg, .uplink .sdcch false false,
    .frame .sdcch (comBuildFrame .sdcch uaFrame .sapi0 false 0 0 true 0 false [])] : List Event).foldl
    (fun c e => (step .sapi0 e c).1) (peiInit .sapi0)

/-- An RR response of the peer. -/
def delivery.rr (nr : Nat) (fBit : Bool) : Frame := comBuildFrame .sdcch rrFrame .sapi0 false 0 nr fBit 0 false []

/-- Both messages are sent; the second frame gets lost and is repeated as a poll. -/
def delivery.lossy : List LinkEvent :=
  [.uplink false false, .take, .supervisory (delivery.rr 1 false), .deliver, .uplink false false, .loseUp 0,
    .uplink false false, .take, .supervisory (delivery.rr 2 true), .deliver, .uplink false false, .take,
    .supervisory (delivery.rr 3 false), .deliver]

/-- The network sends an I frame before the first uplink opportunity. -/
def delivery.early : List LinkEvent :=
  [.info (comBuildFrame .sdcch iFrame .sapi0 true 0 0 false 1 false [0xCC]), .deliver, .uplink false false, .take,
    .supervisory (delivery.rr 1 false), .deliver, .uplink false false, .take]

private theorem resumed_ready : Ready delivery.resumed := by
  have hq : delivery.resumed.queue.sending = none ∧ delivery.resumed.queue.actLength = 0 ∧
      delivery.resumed.queue.store = [delivery.longMsg] := by decide +kernel
  refine ⟨by decide +kernel, by decide +kernel, by decide +kernel, ⟨fun m hm => ?_, fun _ => hq.2.1, fun m hm => ?_⟩⟩
  · rw [hq.1] at hm
    cases hm
  · rw [hq.2.2, List.mem_singleton] at hm
    rw [hm]
    decide

private theorem resumed_init : (delivery.machine .sdcch .sapi0).init (Link.start delivery.resumed) :=
  ⟨_, resumed_ready, rfl⟩

private theorem lossy_run : ((delivery.machine .sdcch .sapi0).run (Link.sound .sdcch .sapi0)
    (Link.start delivery.resumed) delivery.lossy).any (fun s => decide
      ((reassemble s.received).complete = [delivery.switchMsg.sdu, delivery.longMsg.sdu] ∧ s.confirmed = 1)) := by
  decide +kernel

private theorem early_run : ((delivery.machine .sdcch .sapi0).run (fun _ _ => true)
    (Link.start delivery.resumed) delivery.early).any (fun s => decide
      (s.msgs = [delivery.switchMsg.sdu, delivery.longMsg.sdu] ∧ s.chan.queue.switchBuf = none ∧
        (reassemble s.received).complete = [delivery.longMsg.sdu])) := by
  decide +kernel

end Citrine.Dl
