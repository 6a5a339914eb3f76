import Citrine.Dti.Connection

/-!
# Flow control between two neighbours

A neighbour that is ready to receive, or has stopped, has given the other one exactly one credit: a flow control primitive on
its way, the state `DTI_TX_FLOW`, or a data primitive on its way back (`Credit`).  While the two connect, the primitives on
their way tell how far they are (`Phase`).  When an open link is reset, its own states are set back but not those of the
neighbour; so this is kept as long as links are reset only when they neither have nor have given a credit
(`credits_kept`).
-/

namespace Citrine.Dti

/-! ### Credits -/

/-- A credit has been given. -/
def RxState.given (r : RxState) : Nat := if r = .idle then 0 else 1

/-- A credit has been received and is still there. -/
def TxState.held (t : TxState) : Nat := if t = .flow then 1 else 0

/-- The credits of a receiver, that the sender has or that are on their way. -/
def credits (receiver sender : End) (sent received : List Prim) : Nat :=
  sent.count .ready + sender.link.txState.held + received.countP Prim.isData + receiver.stack.count .dataReady

/-- The receiver has given one credit or none; and when it has reset the link, the other end has none that is older. -/
structure Credit (receiver sender : End) (sent received : List Prim) : Prop where
  sum : credits receiver sender sent received = receiver.link.rxState.given
  order : sent.Pairwise fun p q => p = .ready → q ≠ .connect
  late : .connect ∈ sent → sender.link.txState.held = 0 ∧ received.countP Prim.isData = 0

/-- What holds of a link by itself. -/
structure Link.Good (l : Link) : Prop where
  rx : l.connectState ≠ .idle → l.rxState = .idle
  tx : l.connectState ≠ .idle → l.txState ≠ .flow
  empty : l.txState = .flow → l.queueLen = 0
  queue : l.queueLen ≤ l.dtiDataInd.length
  options : l.linkOptions ≠ .flowCntrlDisabled
  «open» : l.connectState ≠ .closing

/-- Two neighbours, seen from the first one. -/
structure Joined (e f : End) (sent received : List Prim) : Prop where
  good : e.link.Good
  pending : .openReady ∈ e.stack → e.link.txState ≠ .flow
  cont : .closeNow ∉ e.stack
  phase : Phase e.link.connectState f.link.connectState sent received
  credit : Credit e f sent received
  kept : .disconnect ∉ sent

section
variable {c d : ConnectState} {e f g : End} {sent received rest o : List Prim}

/-- The receiver acts. -/
private theorem Credit.receiver (h : Credit e f sent received) (hone : o.length ≤ 1)
    (hsum : o.count .ready + rest.countP Prim.isData + g.stack.count .dataReady + e.link.rxState.given =
      g.link.rxState.given + received.countP Prim.isData + e.stack.count .dataReady)
    (hdata : rest.countP Prim.isData ≤ received.countP Prim.isData)
    (hreset : .connect ∈ o → o = [.connect] ∧ e.link.rxState.given = 0) : Credit g f (sent ++ o) rest := by
  have hs := h.sum
  unfold credits at hs
  refine ⟨?_, ?_, fun hc => ?_⟩
  · unfold credits
    rw [List.count_append]
    omega
  · rw [List.pairwise_append]
    refine ⟨h.order, ?_, fun p hp q hq hready hconnect => ?_⟩
    · cases o with
      | nil => exact .nil
      | cons p ps =>
        have : ps = [] := List.length_eq_zero_iff.1 (by rw [List.length_cons] at hone; omega)
        rw [this]
        exact List.pairwise_singleton _ _
    · have hzero := (hreset (hconnect ▸ hq)).2
      have := List.count_pos_iff.2 (hready ▸ hp)
      omega
  · rcases List.mem_append.1 hc with hc | hc
    · have := h.late hc
      omega
    · have := (hreset hc).2
      omega

/-- The sender acts. -/
private theorem Credit.sender (h : Credit f e received sent) (hsub : rest.Sublist received)
    (hsum : g.link.txState.held + o.countP Prim.isData + rest.count .ready =
      e.link.txState.held + received.count .ready)
    (hlate : .connect ∈ rest → g.link.txState.held + o.countP Prim.isData ≤ e.link.txState.held) :
    Credit f g rest (sent ++ o) := by
  have hs := h.sum
  unfold credits at hs
  refine ⟨?_, h.order.sublist hsub, fun hc => ?_⟩
  · unfold credits
    rw [List.countP_append]
    omega
  · have h1 := h.late (hsub.subset hc)
    have h2 := hlate hc
    rw [List.countP_append]
    omega

end

/-! ### Sending -/

/-- A function that leaves the connection and the states of receiving as they are; the credits that the sender had, and `n`
more, are still there or have been used. -/
private structure Link.Moves (l : Link) (n : Nat) (r : Res) : Prop where
  connect : r.link.connectState = l.connectState
  rx : r.link.rxState = l.rxState
  good : r.link.Good
  held : r.link.txState.held + r.prims.countP Prim.isData = l.txState.held + n
  prims : r.prims.length ≤ 1 ∧ ∀ p ∈ r.prims, p.isData = true
  cont : ∀ reason k, r.callback = some (reason, k) → k = .done ∨ k = .flowReady

section
variable {l m : Link} {p : Nat} {ps : List Prim} {n : Nat}

private theorem held_zero {t : TxState} (h : t ≠ .flow) : t.held = 0 := if_neg h

/-- Links that differ in the queue only, or in a state of sending that has no credit. -/
private structure Link.Alike (l m : Link) : Prop where
  connect : m.connectState = l.connectState
  rx : m.rxState = l.rxState
  options : m.linkOptions = l.linkOptions
  queue : l.queueLen ≤ l.dtiDataInd.length → m.queueLen ≤ m.dtiDataInd.length

private theorem Link.Good.alike (h : l.Good) (hm : l.Alike m) (htx : m.txState = .flow → l.connectState = .idle ∧ m.queueLen = 0) :
    m.Good := by
  refine ⟨fun hc => ?_, fun hc ht => ?_, fun ht => (htx ht).2, hm.queue h.queue, ?_, ?_⟩
  · rw [hm.rx]
    exact h.rx (hm.connect ▸ hc)
  · exact hc (hm.connect.trans (htx ht).1)
  · rw [hm.options]
    exact h.options
  · rw [hm.connect]
    exact h.open

private theorem moves_of_alike {r : Res} (h : l.Good) (hm : l.Alike r.link)
    (htx : r.link.txState = .flow → l.connectState = .idle ∧ r.link.queueLen = 0)
    (hheld : r.link.txState.held + r.prims.countP Prim.isData = l.txState.held + n)
    (hprims : r.prims = [] ∨ ∃ p, r.prims = [.data p])
    (hcont : ∀ reason k, r.callback = some (reason, k) → k = .done ∨ k = .flowReady) : l.Moves n r := by
  refine ⟨hm.connect, hm.rx, h.alike hm htx, hheld, ?_, hcont⟩
  rcases hprims with hp | ⟨p, hp⟩
  · rw [hp]
    exact ⟨Nat.zero_le _, fun _ hq => (List.not_mem_nil hq).elim⟩
  · rw [hp]
    exact ⟨Nat.le_refl _, fun q hq => by rw [List.mem_singleton.1 hq]; rfl⟩

private theorem leave_moves (h : l.Good) : l.Moves 0 l.leave := by
  refine moves_of_alike h ⟨rfl, rfl, rfl, id⟩ (fun ht => ⟨?_, h.empty ht⟩) rfl (.inl rfl) nofun
  exact Classical.byContradiction fun hc => h.tx hc ht

private theorem Link.Requeued.alike (h : l.Requeued m) : l.Alike m := ⟨h.connect, h.rx, h.options, h.queue⟩

/-- A packet uses the credit that is there, or waits in the queue. -/
private theorem sendData_moves (h : l.Good) : l.Moves 0 (l.dtiSendData p) := by
  -- the entity may be warned at the end, which changes the state when there is no credit
  have hwarn : ∀ {m : Link} {ps : List Prim}, l.Alike m → m.txState ≠ .flow → ps.countP Prim.isData = l.txState.held →
      (ps = [] ∨ ∃ p, ps = [.data p]) → l.Moves 0 (m.warnFull ps) := by
    intro m ps hm ht hps hp
    unfold Link.warnFull
    split
    · refine moves_of_alike h ⟨hm.connect, hm.rx, hm.options, hm.queue⟩ nofun ?_ hp fun reason k hk => .inl ?_
      · change 0 + _ = _
        rw [hps]
        omega
      · cases hk
        rfl
    · refine moves_of_alike h hm (fun hno => absurd hno ht) ?_ hp nofun
      change m.txState.held + _ = _
      rw [held_zero ht, hps]
      omega
  unfold Link.dtiSendData
  split
  · exact leave_moves h
  · rw [if_neg h.options]
    have hm := @putManaged_requeued l p
    split
    · rename_i htx
      refine hwarn hm.alike (by rw [hm.tx, htx]; exact nofun) ?_ (.inl rfl)
      rw [htx]
      rfl
    · rename_i htx
      refine hwarn hm.alike (by rw [hm.tx, htx]; exact nofun) ?_ (.inl rfl)
      rw [htx]
      rfl
    · rename_i htx
      have hput : l.putDtiDataInd p = { l with dtiDataInd := [p], queueLen := 1 } := if_pos (h.empty htx)
      have hget : (l.putDtiDataInd p).getDtiDataInd.2 = some p := by
        rw [hput]
        rfl
      have hq : l.Requeued (l.putDtiDataInd p).getDtiDataInd.1 := put_requeued.trans get_requeued
      refine hwarn ⟨hq.connect, hq.rx, hq.options, hq.queue⟩ nofun ?_ (.inr ⟨p, ?_⟩)
      · rw [hget, htx]
        rfl
      · rw [hget]
        rfl

/-- A flow control primitive is a credit, that is used for a packet from the queue or kept. -/
private theorem ready_moves (h : l.Good) (hc : l.connectState = .idle) (ht : l.txState ≠ .flow) :
    l.Moves 1 l.flowControlPrimReceived := by
  have hg := @get_requeued l
  have hempty : l.getDtiDataInd.2 = none → l.getDtiDataInd.1.queueLen = 0 := by
    intro hn
    have hq := h.queue
    unfold Link.getDtiDataInd at hn ⊢
    split
    · rename_i hz
      exact hz
    · rename_i hz
      rw [if_neg hz] at hn
      rw [List.head?_eq_none_iff.1 hn] at hq
      exact absurd (Nat.le_zero.1 hq) hz
  obtain ⟨tx, hnone, hsome, hr⟩ := flowControl_cases (.inl hc) h.options
  generalize l.getDtiDataInd = g at *
  obtain ⟨g, q⟩ := g
  simp only at hg hempty hnone hsome hr
  -- the callback makes no difference here
  have hmoves : ∀ s : Option (Reason × Cont), (∀ reason k, s = some (reason, k) → k = .done ∨ k = .flowReady) →
      l.Moves 1 ⟨{ g with txState := tx }, Link.dataPrims q, s⟩ := by
    intro s hs
    cases q with
    | none =>
      refine moves_of_alike h ⟨hg.connect, hg.rx, hg.options, hg.queue⟩ (fun _ => ⟨hc, hempty rfl⟩) ?_ (.inl rfl) hs
      rw [hnone rfl, held_zero ht]
      rfl
    | some p =>
      have htx : tx ≠ .flow := (hsome nofun).elim (fun hs => hs ▸ ht) fun hs => hs ▸ nofun
      refine moves_of_alike h ⟨hg.connect, hg.rx, hg.options, hg.queue⟩ (fun hf => absurd hf htx) ?_ (.inr ⟨p, rfl⟩) hs
      rw [held_zero ht]
      change tx.held + 1 = _
      rw [held_zero htx]
  rcases hr with hr | ⟨_, hr⟩
  · rw [hr]
    unfold Link.flowEnd
    rw [if_neg fun hno => ConnectState.noConfusion (hc.symm.trans (hg.connect.symm.trans hno.2))]
    exact hmoves none nofun
  · rw [hr]
    refine hmoves _ fun reason k hk => ?_
    cases hk
    exact .inr rfl

end

/-! ### One end acts -/

/-- What an end may do to its link, when it has taken all but `rest` of what it receives and sends `o`. -/
private structure Acts (e g : End) (received rest o : List Prim) : Prop where
  good : g.link.Good
  pending : .openReady ∈ g.stack → g.link.txState ≠ .flow
  cont : .closeNow ∉ g.stack
  one : o.length ≤ 1
  kept : .disconnect ∉ o
  taken : rest.Sublist received
  asReceiver : o.count .ready + rest.countP Prim.isData + g.stack.count .dataReady + e.link.rxState.given =
    g.link.rxState.given + received.countP Prim.isData + e.stack.count .dataReady
  reset : .connect ∈ o → o = [.connect] ∧ e.link.rxState.given = 0
  asSender : g.link.txState.held + o.countP Prim.isData + rest.count .ready = e.link.txState.held + received.count .ready
  late : .connect ∈ rest → g.link.txState.held + o.countP Prim.isData ≤ e.link.txState.held

section
variable {e f g : End} {sent received rest o : List Prim} {r : Res}

private theorem Acts.joined (ha : Acts e g received rest o) (h : Joined e f sent received) (h' : Joined f e received sent)
    (hphase : Phase g.link.connectState f.link.connectState (sent ++ o) rest) :
    Joined g f (sent ++ o) rest ∧ Joined f g rest (sent ++ o) := by
  refine ⟨⟨ha.good, ha.pending, ha.cont, hphase, ?_, ?_⟩, ⟨h'.good, h'.pending, h'.cont, hphase.symm, ?_, ?_⟩⟩
  · exact h.credit.receiver ha.one ha.asReceiver (ha.taken.countP_le) ha.reset
  · rw [List.mem_append, not_or]
    exact ⟨h.kept, ha.kept⟩
  · exact h'.credit.sender ha.taken ha.asSender ha.late
  · exact fun hd => h'.kept (ha.taken.subset hd)

/-- Nothing is taken. -/
private theorem acts_of_call (hgood : g.link.Good) (hpending : .openReady ∈ g.stack → g.link.txState ≠ .flow)
    (hcont : .closeNow ∉ g.stack) (hone : o.length ≤ 1) (hkept : .disconnect ∉ o)
    (hr : o.count .ready + g.stack.count .dataReady + e.link.rxState.given =
      g.link.rxState.given + e.stack.count .dataReady)
    (hreset : .connect ∈ o → o = [.connect] ∧ e.link.rxState.given = 0)
    (hs : g.link.txState.held + o.countP Prim.isData = e.link.txState.held) : Acts e g received received o :=
  ⟨hgood, hpending, hcont, hone, hkept, List.Sublist.refl _, by omega, hreset, by omega, fun _ => by omega⟩

private theorem mem_after {k : Cont} (hk : ∀ reason k, r.callback = some (reason, k) → k = .done ∨ k = .flowReady)
    (hno : k ≠ .done ∧ k ≠ .flowReady) (h : k ∈ (e.after r).stack) : k ∈ e.stack := by
  unfold End.after at h
  split at h
  · exact h
  · rename_i reason c hc
    rcases List.mem_cons.1 h with h | h
    · exact ((hk reason c hc).elim (fun hd => hno.1 (h.trans hd)) fun hf => hno.2 (h.trans hf)).elim
    · exact h

private theorem count_after (hk : ∀ reason k, r.callback = some (reason, k) → k = .done ∨ k = .flowReady) :
    (e.after r).stack.count .dataReady = e.stack.count .dataReady := by
  unfold End.after
  split
  · rfl
  · rename_i reason c hc
    rcases hk reason c hc with hd | hd
    · rw [hd]
      exact List.count_cons_of_ne (by decide)
    · rw [hd]
      exact List.count_cons_of_ne (by decide)

/-- A function that moves credits only. -/
private theorem moves_acts {n : Nat} (hm : e.link.Moves n r) (h : Joined e f sent received) (hrest : rest.Sublist received)
    (hdata : rest.countP Prim.isData = received.countP Prim.isData) (hready : received.count .ready = n + rest.count .ready)
    (hn : n = 0 ∨ .connect ∉ rest ∧ .openReady ∉ e.stack) : Acts e (e.after r) received rest r.prims := by
  have hlink : (e.after r).link = r.link := after_link
  have hheld := hm.held
  have hno : ∀ q, q.isData = false → q ∉ r.prims := fun q hq hmem => by
    rw [hm.prims.2 q hmem] at hq
    cases hq
  refine ⟨hlink ▸ hm.good, fun hp => ?_, fun hc => ?_, hm.prims.1, hno _ rfl, hrest, ?_, fun hc => absurd hc (hno _ rfl),
    ?_, fun hc => ?_⟩
  · have hp := mem_after (k := .openReady) hm.cont (by decide) hp
    rcases hn with hn | hn
    · have := held_zero (h.pending hp)
      rw [hlink]
      intro hflow
      rw [hflow] at hheld
      simp only [TxState.held, if_true] at hheld this
      omega
    · exact absurd hp hn.2
  · exact h.cont (mem_after (k := .closeNow) hm.cont (by decide) hc)
  · rw [count_after hm.cont, hlink, hm.rx, List.count_eq_zero.2 (hno _ rfl)]
    omega
  · rw [hlink]
    omega
  · rw [hlink]
    rcases hn with hn | hn
    · omega
    · exact absurd hc hn.1

/-- A function that connects two ends, without a credit for sending. -/
private theorem opens_acts (h : Joined e f sent received) (hgood : r.link.Good) (hrx : r.link.rxState = e.link.rxState)
    (htx : e.link.txState ≠ .flow) (htx' : r.link.txState ≠ .flow)
    (hk : ∀ reason k, r.callback = some (reason, k) → k = .openReady)
    (ho : r.prims = [] ∨ r.prims = [.confirm] ∨ r.prims = [.connect] ∧ e.link.rxState = .idle)
    (hrest : rest.Sublist received) (hdata : rest.countP Prim.isData = received.countP Prim.isData)
    (hready : received.count .ready = rest.count .ready) : Acts e (e.after r) received rest r.prims := by
  have hlink : (e.after r).link = r.link := after_link
  have hstack : (e.after r).stack = e.stack ∨ (e.after r).stack = .openReady :: e.stack := by
    unfold End.after
    split
    · exact .inl rfl
    · rename_i reason k hc
      rw [hk reason k hc]
      exact .inr rfl
  have hcount : (e.after r).stack.count .dataReady = e.stack.count .dataReady := by
    rcases hstack with hs | hs
    · rw [hs]
    · rw [hs]
      exact List.count_cons_of_ne (by decide)
  have hprims : r.prims.length ≤ 1 ∧ .disconnect ∉ r.prims ∧ r.prims.count .ready = 0 ∧ r.prims.countP Prim.isData = 0 := by
    rcases ho with ho | ho | ho
    · rw [ho]
      decide
    · rw [ho]
      decide
    · rw [ho.1]
      decide
  obtain ⟨hone, hkept, hr, hd⟩ := hprims
  refine ⟨hlink ▸ hgood, fun _ => hlink ▸ htx', fun hc => ?_, hone, hkept, hrest, ?_, fun hc => ?_, ?_, fun _ => ?_⟩
  · rcases hstack with hs | hs
    · exact h.cont (hs ▸ hc)
    · rw [hs] at hc
      exact h.cont ((List.mem_cons.1 hc).resolve_left nofun)
  · rw [hlink, hrx, hcount, hr, hdata]
    omega
  · rcases ho with ho | ho | ho
    · rw [ho] at hc
      exact absurd hc List.not_mem_nil
    · rw [ho] at hc
      exact absurd (List.mem_singleton.1 hc) nofun
    · exact ⟨ho.1, if_pos ho.2⟩
  · rw [hlink, held_zero htx, held_zero htx', hd, hready]
  · rw [hlink, held_zero htx', hd]
    omega

private theorem moves_joined (hm : e.link.Moves 0 r) (h : Joined e f sent received) (h' : Joined f e received sent) :
    Joined (e.after r) f (sent ++ r.prims) received ∧ Joined f (e.after r) received (sent ++ r.prims) := by
  refine (moves_acts hm h (List.Sublist.refl _) rfl (Nat.zero_add _).symm (.inl rfl)).joined h h' ?_
  rw [after_link, hm.connect]
  refine h.phase.append (Classical.or_iff_not_imp_left.2 fun hc => ?_)
  -- without a connection, there is no credit to use
  have hheld := hm.held
  rw [held_zero (h.good.tx hc)] at hheld
  refine List.eq_nil_iff_forall_not_mem.2 fun p hp => ?_
  have := List.countP_pos_iff.2 ⟨p, hp, hm.prims.2 p hp⟩
  omega

private theorem default_good : Link.default.Good := ⟨fun _ => rfl, fun _ => nofun, nofun, Nat.le_refl _, nofun, nofun⟩

private theorem validate_options {options : LinkOptions} {n : Nat} (h : options ≠ .flowCntrlDisabled) :
    (Link.validateOpenParameters options n).1 ≠ .flowCntrlDisabled := by
  unfold Link.validateOpenParameters
  simp only
  generalize ho : (if options = .enabled then
    if n = 0 then LinkOptions.queueUnused else if n = 255 then .queueUnbounded else .queueRmLifo else options) = o
  have : o ≠ .flowCntrlDisabled := by
    rw [← ho]
    split
    · split
      · exact nofun
      · split <;> exact nofun
    · exact h
  split
  · exact this
  · split
    · exact nofun
    · exact this

private theorem open_good {options : LinkOptions} {n : Nat} {c : ConnectState} (h : options ≠ .flowCntrlDisabled)
    (hc : c ≠ .closing) : (Link.setOpenPara options n c).Good :=
  ⟨fun _ => rfl, fun _ => nofun, nofun, Nat.le_refl _, h, hc⟩

private theorem opened_only (reason : Reason) (k : Cont)
    (hk : some (Reason.connectionOpened, Cont.openReady) = some (reason, k)) : k = .openReady := by
  cases hk
  rfl

/-- The entity opens the link. -/
private theorem open_joined {options : LinkOptions} {n : Nat} (h : Joined e f sent received) (h' : Joined f e received sent)
    (ho : options ≠ .flowCntrlDisabled)
    (hreset : e.link.connectState = .idle → e.link.rxState = .idle ∧ e.link.txState ≠ .flow) :
    Joined (e.after (e.link.dtiOpen options n)) f (sent ++ (e.link.dtiOpen options n).prims) received ∧
      Joined f (e.after (e.link.dtiOpen options n)) received (sent ++ (e.link.dtiOpen options n).prims) := by
  have hidle : e.link.rxState = .idle ∧ e.link.txState ≠ .flow :=
    if hc : e.link.connectState = .idle then hreset hc else ⟨h.good.rx hc, h.good.tx hc⟩
  have hphase := h.phase
  have hopens : ∀ r : Res, ∀ c, c ≠ .closing →
      r.link = .setOpenPara (Link.validateOpenParameters options n).1 (Link.validateOpenParameters options n).2 c →
      r.prims = [.confirm] ∨ r.prims = [.connect] → (∀ reason k, r.callback = some (reason, k) → k = .openReady) →
      Phase c f.link.connectState (sent ++ r.prims) received →
      Joined (e.after r) f (sent ++ r.prims) received ∧ Joined f (e.after r) received (sent ++ r.prims) := by
    intro r c hc hlink hprims hk hp
    refine (opens_acts h (hlink ▸ open_good (validate_options ho) hc) ?_ hidle.2 ?_ hk ?_ (List.Sublist.refl _) rfl
      rfl).joined h h' ?_
    · rw [hlink]
      exact hidle.1.symm
    · rw [hlink]
      exact TxState.noConfusion
    · exact .inr (hprims.imp_right fun hp => ⟨hp, hidle.1⟩)
    · rw [after_link, hlink]
      exact hp
  unfold Link.dtiOpen
  simp only
  cases hc : e.link.connectState with
  | closed =>
    refine hopens ⟨_, _, _⟩ .setup nofun rfl (.inr rfl) nofun ?_
    rw [hc] at hphase
    cases hd : f.link.connectState with
    | closed =>
      rw [hd] at hphase
      rw [hphase.1, hphase.2]
      exact ⟨rfl, rfl⟩
    | setup =>
      rw [hd] at hphase
      rw [hphase.1, hphase.2]
      exact ⟨rfl, rfl⟩
    | _ =>
      rw [hd] at hphase
      exact hphase.elim
  | setup => exact moves_joined (leave_moves h.good) h h'
  | idle => exact hopens ⟨_, _, _⟩ .idle nofun rfl (.inr rfl) opened_only ((hc ▸ hphase).append (.inl rfl))
  | connecting =>
    refine hopens ⟨_, _, _⟩ .idle nofun rfl (.inl rfl) opened_only ?_
    rw [hc] at hphase
    cases hd : f.link.connectState with
    | setup =>
      rw [hd] at hphase
      rw [hphase.1, hphase.2]
      exact ⟨rfl, [], .inr rfl⟩
    | _ =>
      rw [hd] at hphase
      exact hphase.elim
  | closing => exact absurd hc h.good.open

/-- The entity starts or stops receiving, on an open link. -/
private theorem receive_joined {rx : RxState} (h : Joined e f sent received) (h' : Joined f e received sent)
    (hc : e.link.connectState = .idle) (ho : o = [] ∨ o = [.ready])
    (hrx : o.count .ready + e.link.rxState.given = rx.given) :
    Joined (e.after ⟨{ e.link with rxState := rx }, o, none⟩) f (sent ++ o) received ∧
      Joined f (e.after ⟨{ e.link with rxState := rx }, o, none⟩) received (sent ++ o) := by
  have hprims : o.length ≤ 1 ∧ .disconnect ∉ o ∧ .connect ∉ o ∧ o.countP Prim.isData = 0 := by
    rcases ho with ho | ho
    · rw [ho]
      decide
    · rw [ho]
      decide
  obtain ⟨hone, hkept, hconnect, hdata⟩ := hprims
  refine (acts_of_call (e := e) (g := e.after ⟨{ e.link with rxState := rx }, o, none⟩)
    ⟨fun hno => absurd hc hno, h.good.tx, h.good.empty, h.good.queue, h.good.options, h.good.open⟩
    h.pending h.cont hone hkept ?_ (fun hno => absurd hno hconnect) ?_).joined h h' (h.phase.append (.inl hc))
  · change _ + e.stack.count _ + _ = rx.given + _
    omega
  · rw [hdata]
    rfl

private theorem startStop_joined (h : Joined e f sent received) (h' : Joined f e received sent) {r : Res}
    (hr : r = e.link.dtiStart ∨ r = e.link.dtiStop) :
    Joined (e.after r) f (sent ++ r.prims) received ∧ Joined f (e.after r) received (sent ++ r.prims) := by
  have hleave := moves_joined (leave_moves h.good) h h'
  rcases hr with hr | hr
  · unfold Link.dtiStart at hr
    split at hr
    · exact hr ▸ hleave
    · rename_i hno
      have hc : e.link.connectState = .idle := Classical.byContradiction fun hc => hno (.inl hc)
      split at hr
      · rename_i hrx
        exact hr ▸ receive_joined h h' hc (.inr rfl) (by rw [hrx]; rfl)
      · rename_i hrx
        exact hr ▸ receive_joined h h' hc (.inl rfl) (by rw [hrx]; rfl)
      · exact hr ▸ hleave
  · unfold Link.dtiStop at hr
    split at hr
    · exact hr ▸ hleave
    · rename_i hno
      have hc : e.link.connectState = .idle := Classical.byContradiction fun hc => hno (.inl hc)
      split at hr
      · rename_i hrx
        exact hr ▸ receive_joined h h' hc (.inl rfl) (by rw [hrx]; rfl)
      · exact hr ▸ hleave

/-- A callback returns. -/
private theorem resume_joined {k : Cont} {ks : List Cont} (h : Joined e f sent received) (h' : Joined f e received sent)
    (hs : e.stack = k :: ks) :
    Joined ({ e with stack := ks }.after (e.link.resume k)) f (sent ++ (e.link.resume k).prims) received ∧
      Joined f ({ e with stack := ks }.after (e.link.resume k)) received (sent ++ (e.link.resume k).prims) := by
  have hcredit := h.credit
  have hpending : .openReady ∈ ks → e.link.txState ≠ .flow := fun hk => h.pending (hs ▸ List.mem_cons_of_mem _ hk)
  have hcont : .closeNow ∉ ks := fun hk => h.cont (hs ▸ List.mem_cons_of_mem _ hk)
  -- a callback that has not handed over data changes nothing by itself
  have hmoves : ∀ r, k ≠ .dataReady → e.link.Moves 0 r →
      Joined ({ e with stack := ks }.after r) f (sent ++ r.prims) received ∧
        Joined f ({ e with stack := ks }.after r) received (sent ++ r.prims) := by
    intro r hk hm
    have hsum := hcredit.sum
    unfold credits at hsum
    rw [hs, List.count_cons_of_ne hk] at hsum
    exact moves_joined (e := { e with stack := ks }) hm
      ⟨h.good, hpending, hcont, h.phase, ⟨hsum, hcredit.order, hcredit.late⟩, h.kept⟩
      ⟨h'.good, h'.pending, h'.cont, h'.phase, ⟨h'.credit.sum, h'.credit.order, h'.credit.late⟩, h'.kept⟩
  have hleave : e.link.Moves 0 e.link.leave := leave_moves h.good
  cases k with
  | openReady =>
    refine hmoves _ nofun ?_
    have htx := h.pending (hs ▸ List.mem_cons_self)
    unfold Link.resume
    simp only
    split
    · refine moves_of_alike h.good ⟨rfl, rfl, rfl, id⟩ nofun ?_ (.inl rfl) fun _ _ hk => .inl ?_
      · rw [held_zero htx]
        rfl
      · cases hk
        rfl
    · exact hleave
  | dataReady =>
    have hcount : e.stack.count .dataReady = 1 + ks.count .dataReady := by
      rw [hs, List.count_cons_self, Nat.add_comm]
    have hgiven : e.link.rxState ≠ .idle := fun hno => by
      have hsum := hcredit.sum
      unfold credits at hsum
      rw [hno, hcount] at hsum
      change _ = 0 at hsum
      omega
    have hc : e.link.connectState = .idle := Classical.byContradiction fun hc => hgiven (h.good.rx hc)
    have hone : e.link.rxState.given = 1 := if_neg hgiven
    unfold Link.resume
    simp only
    split
    · rename_i hrx
      refine (acts_of_call (e := e) (g := { e with stack := ks }) (o := [.ready]) h.good hpending hcont (Nat.le_refl 1) (by decide) ?_
        (fun hno => absurd hno (by decide)) rfl).joined h h' (h.phase.append (.inl hc))
      rw [hcount, hone]
      change 1 + ks.count _ + 1 = 1 + _
      omega
    · refine (acts_of_call (e := e) (g := ⟨{ e.link with rxState := .idle }, ks, e.signals⟩) (o := [])
        ⟨fun _ => rfl, h.good.tx, h.good.empty, h.good.queue, h.good.options, h.good.open⟩ hpending hcont (Nat.zero_le 1)
        List.not_mem_nil ?_ (fun hno => absurd hno List.not_mem_nil) rfl).joined h h' (h.phase.append (.inl hc))
      rw [hcount, hone]
      change 0 + ks.count _ + 1 = 0 + _
      omega
  | flowReady =>
    refine hmoves _ nofun ?_
    unfold Link.resume
    simp only
    unfold Link.flowEnd
    rw [if_neg fun hno => h.good.open hno.2]
    exact hleave
  | closeNow => exact absurd (hs ▸ List.mem_cons_self) h.cont
  | done => exact hmoves _ nofun hleave

/-- A connect or confirm primitive, of which the states of sending and receiving do not notice anything. -/
private theorem connected_joined {p : Prim} (h : Joined e f sent (p :: rest)) (h' : Joined f e (p :: rest) sent)
    (hp : p = .connect ∨ p = .confirm) (htx : e.link.txState ≠ .flow) (hgood : r.link.Good)
    (hrx : r.link.rxState = e.link.rxState) (htx' : r.link.txState ≠ .flow) (ho : r.prims = [] ∨ r.prims = [.confirm])
    (hk : ∀ reason k, r.callback = some (reason, k) → k = .openReady)
    (hphase : Phase r.link.connectState f.link.connectState (sent ++ r.prims) rest) :
    Joined (e.after r) f (sent ++ r.prims) rest ∧ Joined f (e.after r) rest (sent ++ r.prims) := by
  have hno : p.isData = false ∧ p ≠ .ready := by
    rcases hp with hp | hp
    · rw [hp]
      decide
    · rw [hp]
      decide
  refine (opens_acts h hgood hrx htx htx' hk (ho.imp_right .inl) (List.sublist_cons_self _ _) ?_ ?_).joined h h'
    (after_link ▸ hphase)
  · rw [List.countP_cons_of_neg (by rw [hno.1]; exact Bool.false_ne_true)]
  · rw [List.count_cons_of_ne hno.2]

private theorem connect_joined (h : Joined e f sent (.connect :: rest)) (h' : Joined f e (.connect :: rest) sent) :
    Joined (e.after e.link.connectInitPrimReceived) f (sent ++ e.link.connectInitPrimReceived.prims) rest ∧
      Joined f (e.after e.link.connectInitPrimReceived) rest (sent ++ e.link.connectInitPrimReceived.prims) := by
  have hphase := h.phase
  have htx : e.link.txState ≠ .flow := fun hno => by
    have := (h'.credit.late List.mem_cons_self).1
    rw [hno] at this
    cases this
  unfold Link.connectInitPrimReceived
  cases hc : e.link.connectState with
  | closed =>
    rw [hc] at hphase
    have hrx := h.good.rx (hc ▸ nofun)
    refine connected_joined (r := ⟨{ Link.default with connectState := .connecting }, [], none⟩) h h' (.inl rfl) htx
      ⟨fun _ => rfl, fun _ => TxState.noConfusion, nofun, Nat.le_refl _, LinkOptions.noConfusion, ConnectState.noConfusion⟩
      hrx.symm TxState.noConfusion (.inl rfl) nofun ?_
    change Phase .connecting _ _ _
    cases hd : f.link.connectState with
    | setup =>
      rw [hd] at hphase
      exact ⟨by rw [hphase.1]; rfl, (List.cons.inj hphase.2).2⟩
    | closed =>
      rw [hd] at hphase
      exact absurd hphase.2 (List.cons_ne_nil _ _)
    | _ =>
      rw [hd] at hphase
      exact hphase.elim
  | setup =>
    rw [hc] at hphase
    have hrx := h.good.rx (hc ▸ nofun)
    exact connected_joined (r := ⟨{ e.link with connectState := .idle, rxState := .idle }, [.confirm], _⟩) h h' (.inl rfl) htx
      ⟨fun hno => absurd rfl hno, fun _ => htx, h.good.empty, h.good.queue, h.good.options, ConnectState.noConfusion⟩
      hrx.symm htx (.inr rfl) opened_only hphase.answered
  | idle =>
    rw [hc] at hphase
    refine connected_joined (r := ⟨e.link.setResetReqPara, [.confirm], _⟩) h h' (.inl rfl) htx
      ⟨fun hno => absurd rfl hno, fun _ => htx, fun _ => rfl, Nat.le_refl _, h.good.options, ConnectState.noConfusion⟩
      rfl htx (.inr rfl) opened_only ?_
    change Phase .idle _ _ _
    cases hd : f.link.connectState with
    | idle => trivial
    | setup =>
      rw [hd] at hphase
      exact absurd hphase.1 (List.cons_ne_nil _ _)
    | _ =>
      rw [hd] at hphase
      exact hphase.elim
  | connecting =>
    rw [hc] at hphase
    cases hd : f.link.connectState with
    | setup =>
      rw [hd] at hphase
      exact absurd hphase.2 (List.cons_ne_nil _ _)
    | _ =>
      rw [hd] at hphase
      exact hphase.elim
  | closing => exact absurd hc h.good.open

private theorem confirm_joined (h : Joined e f sent (.confirm :: rest)) (h' : Joined f e (.confirm :: rest) sent) :
    Joined (e.after e.link.connectConfirmPrimReceived) f (sent ++ e.link.connectConfirmPrimReceived.prims) rest ∧
      Joined f (e.after e.link.connectConfirmPrimReceived) rest (sent ++ e.link.connectConfirmPrimReceived.prims) := by
  have hphase := h.phase
  unfold Link.connectConfirmPrimReceived
  cases hc : e.link.connectState with
  | setup =>
    rw [hc] at hphase
    have hrx := h.good.rx (hc ▸ nofun)
    have htx := h.good.tx (hc ▸ nofun)
    exact connected_joined (r := ⟨{ e.link with connectState := .idle, rxState := .idle }, [], _⟩) h h' (.inr rfl) htx
      ⟨fun hno => absurd rfl hno, fun _ => htx, h.good.empty, h.good.queue, h.good.options, ConnectState.noConfusion⟩
      hrx.symm htx (.inl rfl) opened_only hphase.answered
  | idle =>
    rw [hc] at hphase
    -- the answer to an opening that has been overtaken by one of the other end
    refine (moves_acts (leave_moves h.good) h (List.sublist_cons_self _ _) ?_ ?_ (.inl rfl)).joined h h' ?_
    · rw [List.countP_cons_of_neg (by decide)]
    · rw [List.count_cons_of_ne (by decide), Nat.zero_add]
    · rw [after_link]
      change Phase e.link.connectState _ _ _
      rw [hc]
      cases hd : f.link.connectState with
      | idle => trivial
      | setup =>
        rw [hd] at hphase
        exact absurd hphase.1 (List.cons_ne_nil _ _)
      | _ =>
        rw [hd] at hphase
        exact hphase.elim
  | closing => exact absurd hc h.good.open
  | closed =>
    rw [hc] at hphase
    cases hd : f.link.connectState with
    | closed =>
      rw [hd] at hphase
      exact absurd hphase.2 (List.cons_ne_nil _ _)
    | setup =>
      rw [hd] at hphase
      exact absurd (List.cons.inj hphase.2).1 (by decide)
    | _ =>
      rw [hd] at hphase
      exact hphase.elim
  | connecting =>
    rw [hc] at hphase
    cases hd : f.link.connectState with
    | setup =>
      rw [hd] at hphase
      exact absurd hphase.2 (List.cons_ne_nil _ _)
    | _ =>
      rw [hd] at hphase
      exact hphase.elim

/-- A flow control primitive. -/
private theorem ready_joined (h : Joined e f sent (.ready :: rest)) (h' : Joined f e (.ready :: rest) sent)
    (hs : e.stack = []) :
    Joined (e.after e.link.flowControlPrimReceived) f (sent ++ e.link.flowControlPrimReceived.prims) rest ∧
      Joined f (e.after e.link.flowControlPrimReceived) rest (sent ++ e.link.flowControlPrimReceived.prims) := by
  obtain ⟨hc, hd⟩ := h.phase.idle ⟨nofun, nofun⟩
  have hsum := h'.credit.sum
  unfold credits at hsum
  have htx : e.link.txState ≠ .flow := fun hno => by
    have : f.link.rxState.given ≤ 1 := by
      unfold RxState.given
      split <;> omega
    rw [hno, List.count_cons_self] at hsum
    change _ + 1 + 1 + _ + _ = _ at hsum
    omega
  have hm := ready_moves h.good hc htx
  refine (moves_acts hm h (List.sublist_cons_self _ _) ?_ ?_ (.inr ⟨fun hno => ?_, ?_⟩)).joined h h' ?_
  · rw [List.countP_cons_of_neg (by decide)]
  · rw [List.count_cons_self, Nat.add_comm]
  · exact (List.pairwise_cons.1 h'.credit.order).1 _ hno rfl rfl
  · rw [hs]
    exact List.not_mem_nil
  · rw [after_link, hm.connect, hc, hd]
    trivial

/-- A data primitive: a link that is ready has it handed over first. -/
private theorem data_joined {p : Nat} (h : Joined e f sent (.data p :: rest)) (h' : Joined f e (.data p :: rest) sent)
    (hs : e.stack = []) :
    Joined (e.after (e.link.dataPrimReceived p)) f (sent ++ (e.link.dataPrimReceived p).prims) rest ∧
      Joined f (e.after (e.link.dataPrimReceived p)) rest (sent ++ (e.link.dataPrimReceived p).prims) := by
  obtain ⟨hc, hd⟩ := h.phase.idle ⟨nofun, nofun⟩
  have hcount : (Prim.data p :: rest).countP Prim.isData = rest.countP Prim.isData + 1 := List.countP_cons_of_pos rfl
  have hsum := h.credit.sum
  unfold credits at hsum
  rw [hcount] at hsum
  have hrx : e.link.rxState ≠ .idle := fun hno => by
    rw [hno] at hsum
    change _ = 0 at hsum
    omega
  have hone : e.link.rxState.given = 1 := if_neg hrx
  -- while the callback runs, the credit of a link that is ready is on the stack
  have hhanded : ∀ {m : Link} {k : Cont}, m.Good → m.connectState = .idle → m.txState = e.link.txState →
      (k = .dataReady ∨ k = .done) → [k].count .dataReady = m.rxState.given →
      Joined (e.after ⟨m, [], some (.dataReceived p, k)⟩) f (sent ++ []) rest ∧
        Joined f (e.after ⟨m, [], some (.dataReceived p, k)⟩) rest (sent ++ []) := by
    intro m k hgood hm htx hk hgiven
    refine (Acts.mk (e := e) (g := e.after ⟨m, [], some (.dataReceived p, k)⟩) (o := []) hgood (fun hp => ?_) (fun hp => ?_)
      (Nat.zero_le 1) List.not_mem_nil (List.sublist_cons_self _ _) ?_ (fun hno => absurd hno List.not_mem_nil)
      ?_ fun _ => ?_).joined h h' ?_
    · have hp : .openReady ∈ k :: e.stack := hp
      rw [hs] at hp
      rcases hk with hk | hk <;> exact absurd (hk.symm.trans (List.mem_singleton.1 hp).symm) nofun
    · have hp : .closeNow ∈ k :: e.stack := hp
      rw [hs] at hp
      rcases hk with hk | hk <;> exact absurd (hk.symm.trans (List.mem_singleton.1 hp).symm) nofun
    · change 0 + _ + (k :: e.stack).count .dataReady + _ = m.rxState.given + _ + _
      rw [hcount, hs, hgiven, hone, List.count_nil]
      omega
    · change m.txState.held + 0 + _ = _
      rw [htx, List.count_cons_of_ne Prim.noConfusion]
      omega
    · change m.txState.held + 0 ≤ _
      rw [htx]
      omega
    · change Phase m.connectState _ _ _
      rw [hm, hd]
      trivial
  unfold Link.dataPrimReceived
  rw [if_neg (fun hno => hno hc), if_neg h.good.options]
  split
  · exact hhanded h.good hc rfl (.inl rfl) (hone ▸ rfl)
  · exact hhanded ⟨fun _ => rfl, h.good.tx, h.good.empty, h.good.queue, h.good.options, h.good.open⟩ hc rfl (.inr rfl) rfl
  · rename_i hno
    exact absurd hno hrx

end

/-! ### All runs -/

/-- The links are flow controlled, and never closed. -/
def DtiEvent.flowControlled : DtiEvent → Bool
  | .call _ (.open options _) => options ≠ .flowCntrlDisabled
  | .call _ (.close _) => false
  | _ => true

namespace Neighbours

/-- An entity opens an open link again only when it neither has a credit nor has given one. -/
def Unspent (s : Neighbours) : DtiEvent → Bool
  | .call x (.open _ _) =>
    let l := (s.ends x).link
    l.connectState ≠ .idle || l.rxState = .idle && l.txState ≠ .flow
  | _ => true

/-- The credits that one end has given to the other one: flow control primitives on their way, the state `DTI_TX_FLOW`, and
data primitives on their way, up to the return of the callback. -/
def given (s : Neighbours) (x : Bool) : Nat := credits (s.ends x) (s.ends !x) (s.chan x) (s.chan !x)

/-- What the flow control is for. -/
structure Holds (s : Neighbours) : Prop where
  /-- A receiver that is ready or stopped has given exactly one credit, and any other one none. -/
  credit : ∀ x, (s.ends x).link.connectState = .idle → (s.ends !x).link.connectState = .idle →
    (∀ y, .connect ∉ s.chan y) →
    ((s.ends x).link.rxState ≠ .idle ↔ s.given x = 1) ∧ ((s.ends x).link.rxState = .idle ↔ s.given x = 0)
  /-- No data primitive arrives at an end that discards it. -/
  arrives : ∀ x p, .data p ∈ s.chan (!x) → (s.ends x).link.connectState = .idle ∧ (s.ends x).link.rxState ≠ .idle
  /-- When nothing is on its way and no callback is running, a receiver that waits for data has a sender that may send and
  has nothing in its queue. -/
  waits : ∀ x, (∀ y, s.chan y = [] ∧ (s.ends y).stack = []) → (s.ends x).link.rxState ≠ .idle →
    (s.ends !x).link.txState = .flow ∧ (s.ends !x).link.queueLen = 0

end Neighbours

private theorem seen_step {s t : Neighbours} {ev : DtiEvent} (h : s.Seen fun _ => Joined) (hflow : ev.flowControlled)
    (hok : s.Unspent ev) (ht : s.step ev = some t) : t.Seen fun _ => Joined := by
  cases ev with
  | call x c =>
    cases ht
    have hboth : Joined ((s.ends x).after ((s.ends x).link.call c)) (s.ends !x)
        (s.chan x ++ ((s.ends x).link.call c).prims) (s.chan !x) ∧
        Joined (s.ends !x) ((s.ends x).after ((s.ends x).link.call c)) (s.chan !x)
        (s.chan x ++ ((s.ends x).link.call c).prims) := by
      cases c with
      | «open» options n =>
        refine open_joined (h x) (h.other x) (of_decide_eq_true hflow) fun hc => ?_
        have hreset := (Bool.or_eq_true_iff.1 hok).resolve_left fun hno => of_decide_eq_true hno hc
        exact ⟨of_decide_eq_true (Bool.and_eq_true_iff.1 hreset).1, of_decide_eq_true (Bool.and_eq_true_iff.1 hreset).2⟩
      | close => cases hflow
      | start => exact startStop_joined (h x) (h.other x) (.inl rfl)
      | stop => exact startStop_joined (h x) (h.other x) (.inr rfl)
      | sendData p => exact moves_joined (sendData_moves (h x).good) (h x) (h.other x)
    exact .put hboth.1 hboth.2
  | ret x =>
    unfold Neighbours.step at ht
    simp only at ht
    split at ht
    · cases ht
    · rename_i k ks hs
      cases ht
      have hboth := resume_joined (h x) (h.other x) hs
      exact .put hboth.1 hboth.2
  | deliver x =>
    unfold Neighbours.step at ht
    simp only at ht
    split at ht
    · rename_i hs
      obtain ⟨⟨p, u⟩, hu, ht⟩ := Option.map_eq_some_iff.1 ht
      obtain ⟨hchan, hsame, hends⟩ := Pair.take_eq hu
      have hx := h x
      have hy := h.other x
      rw [hchan, ← hsame] at hx hy
      cases ht
      have hboth : Joined ((s.ends x).after ((s.ends x).link.primReceived p)) (s.ends !x)
          (u.chan x ++ ((s.ends x).link.primReceived p).prims) (u.chan !x) ∧
          Joined (s.ends !x) ((s.ends x).after ((s.ends x).link.primReceived p)) (u.chan !x)
          (u.chan x ++ ((s.ends x).link.primReceived p).prims) := by
        cases p with
        | connect => exact connect_joined hx hy
        | confirm => exact confirm_joined hx hy
        | disconnect => exact absurd List.mem_cons_self hy.kept
        | ready => exact ready_joined hx hy hs
        | data p => exact data_joined hx hy hs
      exact .put (by rw [hends]; exact hboth.1) (by rw [hends]; exact hboth.2)
    · cases ht

/-- As long as open links are opened again only when no credit has been given in either direction, every receiver that is
ready or stopped has given exactly one credit, and no other one. -/
theorem credits_kept {s : Neighbours} (h : dtilib.Reach (fun s ev => ev.flowControlled && s.Unspent ev) s) : s.Holds := by
  have hs : s.Seen fun _ => Joined := by
    refine h.invariant (I := fun s => s.Seen fun _ => Joined) (fun s hs x => ?_) fun s ev t hs hok ht => ?_
    · change s = .start at hs
      rw [hs]
      exact ⟨default_good, fun hp => absurd hp List.not_mem_nil, List.not_mem_nil, ⟨rfl, rfl⟩,
        ⟨rfl, .nil, fun hc => absurd hc List.not_mem_nil⟩, List.not_mem_nil⟩
    · exact seen_step hs (Bool.and_eq_true_iff.1 hok).1 (Bool.and_eq_true_iff.1 hok).2 ht
  have hsum : ∀ x, s.given x = (s.ends x).link.rxState.given := fun x => (hs x).credit.sum
  have hone : ∀ x, (s.ends x).link.rxState ≠ .idle → s.given x = 1 := fun x hx => (hsum x).trans (if_neg hx)
  have hzero : ∀ x, (s.ends x).link.rxState = .idle → s.given x = 0 := fun x hx => (hsum x).trans (if_pos hx)
  refine ⟨fun x _ _ _ => ⟨⟨hone x, fun hc hx => ?_⟩, hzero x, fun hc => ?_⟩, fun x p hp => ?_, fun x hno hx => ?_⟩
  · rw [hzero x hx] at hc
    cases hc
  · refine Classical.byContradiction fun hx => ?_
    rw [hone x hx] at hc
    cases hc
  · have hrx : (s.ends x).link.rxState ≠ .idle := fun hx => by
      have hc := hzero x hx
      have := List.countP_pos_iff.2 ⟨_, hp, (rfl : Prim.isData (.data p) = true)⟩
      unfold Neighbours.given credits at hc
      omega
    exact ⟨Classical.byContradiction fun hc => hrx ((hs x).good.rx hc), hrx⟩
  · have hc := hone x hx
    unfold Neighbours.given credits at hc
    rw [(hno x).1, (hno !x).1, (hno x).2] at hc
    have hflow : (s.ends !x).link.txState = .flow := Classical.byContradiction fun hn => by
      rw [held_zero hn] at hc
      cases hc
    exact ⟨hflow, (hs !x).good.empty hflow⟩

/-- Both ends open their links, that have a queue without a bound, and connect. -/
def connecting : List DtiEvent :=
  [.call true (.open .queueUnbounded 0), .deliver false, .call false (.open .queueUnbounded 0), .ret false, .ret false,
    .deliver true, .ret true, .ret true]

/-- The first end starts, and the credit is received. -/
def starting : List DtiEvent := [.call true .start, .deliver false]

/-- The second end opens its link again, which is received. -/
def resetting : List DtiEvent :=
  [.call false (.open .queueUnbounded 0), .ret false, .ret false, .deliver true, .ret true, .ret true, .deliver false]

/-- A link is opened again before the other end starts: then data are sent and received. -/
theorem reset_kept :
    ∃ s, dtilib.run (fun s ev => ev.flowControlled && s.Unspent ev) .start
      (connecting ++ resetting ++ starting ++ [.call false (.sendData 7), .deliver true]) = some s ∧ s.Holds := by
  have hrun : (dtilib.run (fun s ev => ev.flowControlled && s.Unspent ev) .start
      (connecting ++ resetting ++ starting ++ [.call false (.sendData 7), .deliver true])).isSome = true := by
    decide +kernel
  obtain ⟨s, hs⟩ := Option.isSome_iff_exists.1 hrun
  exact ⟨s, hs, credits_kept (.of_run (.init rfl) hs)⟩

/-- A link that has a credit is opened again: the other end stays ready, and the packet for it waits in the queue; nothing is
on its way, no callback is running, and to start again sends nothing. -/
theorem reset_waits :
    ∃ s, dtilib.run (fun _ ev => ev.flowControlled) .start
        (connecting ++ starting ++ resetting ++ [.call false (.sendData 7), .call true .start]) = some s ∧
      (s.ends true).link = ⟨.idle, .ready, .idle, .queueUnbounded, 0, 0, []⟩ ∧
      (s.ends false).link = ⟨.idle, .idle, .idle, .queueUnbounded, 0, 1, [7]⟩ ∧
      (∀ y, s.chan y = [] ∧ (s.ends y).stack = []) ∧ ¬ s.Holds := by
  have hrun : (dtilib.run (fun _ ev => ev.flowControlled) .start
      (connecting ++ starting ++ resetting ++ [.call false (.sendData 7), .call true .start])).any (fun s => decide
        ((s.ends true).link = ⟨.idle, .ready, .idle, .queueUnbounded, 0, 0, []⟩ ∧
          (s.ends false).link = ⟨.idle, .idle, .idle, .queueUnbounded, 0, 1, [7]⟩ ∧
          ∀ y, s.chan y = [] ∧ (s.ends y).stack = [])) = true := by
    decide +kernel
  obtain ⟨s, hs, hp⟩ := (Option.any_eq_true _ _).1 hrun
  obtain ⟨hready, hidle, hnothing⟩ := of_decide_eq_true hp
  refine ⟨s, hs, hready, hidle, hnothing, fun h => ?_⟩
  have hflow := (h.waits true hnothing (by rw [hready]; exact nofun)).1
  change (s.ends false).link.txState = .flow at hflow
  rw [hidle] at hflow
  cases hflow

end Citrine.Dti
