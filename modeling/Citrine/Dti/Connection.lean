import Citrine.Dti.Dtilib

/-!
# Setting up a connection

What one end does in a step (`Does`), and how far two neighbours are with connecting, from what they have sent (`Phase`).
Whatever is opened and closed, an end never waits in `DTI_SETUP` for a neighbour that has answered already (`never_stuck`).
-/

namespace Citrine.Dti

/-! ### One end acts -/

/-- A function of an end: where the end is when it is called, what it does, and what is left of the primitives for the end. -/
inductive Does (x : Bool) (e : End) (received : List Prim) : DtiEvent → End → Res → List Prim → Prop
  | call (c : DtiCall) : Does x e received (.call x c) e (e.link.call c) received
  | ret (k : Cont) (ks : List Cont) : e.stack = k :: ks →
    Does x e received (.ret x) { e with stack := ks } (e.link.resume k) received
  | deliver (p : Prim) (rest : List Prim) : e.stack = [] → received = p :: rest →
    Does x e received (.deliver x) e (e.link.primReceived p) rest

theorem step_does {s t : Neighbours} {ev : DtiEvent} (h : s.step ev = some t) :
    ∃ x g r rest, Does x (s.ends x) (s.chan !x) ev g r rest ∧ t.ends x = g.after r ∧ (t.ends !x) = s.ends !x ∧
      t.chan x = s.chan x ++ r.prims ∧ t.chan (!x) = rest := by
  cases ev with
  | call x c =>
    cases h
    exact ⟨x, _, _, _, .call c, Pair.put_ends, Pair.put_ends_other, Pair.put_chan, Pair.put_chan_other⟩
  | ret x =>
    unfold Neighbours.step at h
    simp only at h
    split at h
    · cases h
    · rename_i k ks hs
      cases h
      exact ⟨x, _, _, _, .ret k ks hs, Pair.put_ends, Pair.put_ends_other, Pair.put_chan, Pair.put_chan_other⟩
  | deliver x =>
    unfold Neighbours.step at h
    simp only at h
    split at h
    · rename_i hs
      obtain ⟨⟨p, u⟩, hu, h⟩ := Option.map_eq_some_iff.1 h
      obtain ⟨hchan, hsame, hends⟩ := Pair.take_eq hu
      cases h
      refine ⟨x, _, _, _, .deliver p _ hs hchan, Pair.put_ends, ?_, ?_, Pair.put_chan_other⟩
      · rw [Pair.put_ends_other, hends]
      · rw [Pair.put_chan, hsame]
    · cases h

/-- A property from both points of view is kept when it is kept for the end that acts and for the other one. -/
theorem seen_of_does {J : Bool → End → End → List Prim → List Prim → Prop} {s t : Neighbours} {ev : DtiEvent}
    (h : s.step ev = some t)
    (hj : ∀ x g r rest, Does x (s.ends x) (s.chan !x) ev g r rest →
      J x (g.after r) (s.ends !x) (s.chan x ++ r.prims) rest ∧ J (!x) (s.ends !x) (g.after r) rest (s.chan x ++ r.prims)) :
    t.Seen J := by
  obtain ⟨x, g, r, rest, hd, hx, hy, hsent, hrest⟩ := step_does h
  obtain ⟨h1, h2⟩ := hj x g r rest hd
  refine .of_both (x := x) ?_ ?_
  · rwa [hx, hy, hsent, hrest]
  · rwa [hx, hy, hsent, hrest]

/-- A function that has to do with an open link only: it leaves the connection as it is. -/
structure Link.Quiet (l : Link) (r : Res) : Prop where
  connect : r.link.connectState = l.connectState
  prims : ∀ p ∈ r.prims, p = .ready ∨ p.isData = true
  callback : ∀ reason k, r.callback = some (reason, k) → reason ≠ .connectionOpened ∧ reason ≠ .connectionClosed ∧ k ≠ .closeNow
  shut : l.connectState ≠ .idle → r.link.queueLen = l.queueLen ∧
    (l.rxState = .idle → r.link.rxState = .idle ∧ r.prims = [])

section
variable (l : Link)

private theorem leave_quiet : l.Quiet l.leave :=
  ⟨rfl, fun _ hp => absurd hp List.not_mem_nil, nofun, fun _ => ⟨rfl, fun hrx => ⟨hrx, rfl⟩⟩⟩

private theorem dataPrims_data {q : Option Nat} : ∀ p ∈ Link.dataPrims q, p = .ready ∨ p.isData = true := by
  intro p hp
  cases q with
  | none => exact absurd hp List.not_mem_nil
  | some n => exact .inr (by rw [List.mem_singleton.1 hp]; rfl)

private theorem warnFull_quiet {m : Link} {ps : List Prim} (hc : l.connectState = .idle) (hm : m.connectState = l.connectState)
    (hps : ∀ p ∈ ps, p = .ready ∨ p.isData = true) : l.Quiet (m.warnFull ps) := by
  unfold Link.warnFull
  split
  · refine ⟨hm, hps, fun reason k hk => ?_, fun hno => absurd hc hno⟩
    cases hk
    exact ⟨nofun, nofun, nofun⟩
  · exact ⟨hm, hps, nofun, fun hno => absurd hc hno⟩

theorem sendData_quiet (p : Nat) : l.Quiet (l.dtiSendData p) := by
  unfold Link.dtiSendData
  split
  · exact leave_quiet l
  · rename_i hc
    have hc := Decidable.not_not.1 hc
    split
    · exact ⟨rfl, @dataPrims_data (some p), nofun, fun hno => absurd hc hno⟩
    · split
      · exact warnFull_quiet l hc putManaged_requeued.connect fun _ hp => absurd hp List.not_mem_nil
      · exact warnFull_quiet l hc putManaged_requeued.connect fun _ hp => absurd hp List.not_mem_nil
      · exact warnFull_quiet l hc (put_requeued.trans get_requeued).connect dataPrims_data

theorem startStop_quiet : l.Quiet l.dtiStart ∧ l.Quiet l.dtiStop := by
  constructor
  · unfold Link.dtiStart
    split
    · exact leave_quiet l
    · rename_i hc
      split
      · exact ⟨rfl, fun _ hp => .inl (List.mem_singleton.1 hp), nofun, fun hno => absurd (.inl hno) hc⟩
      · exact ⟨rfl, fun _ hp => absurd hp List.not_mem_nil, nofun, fun hno => absurd (.inl hno) hc⟩
      · exact leave_quiet l
  · unfold Link.dtiStop
    split
    · exact leave_quiet l
    · rename_i hc
      split
      · exact ⟨rfl, fun _ hp => absurd hp List.not_mem_nil, nofun, fun hno => absurd (.inl hno) hc⟩
      · exact leave_quiet l

theorem flowControl_quiet (hc : l.connectState ≠ .closing) : l.Quiet l.flowControlPrimReceived := by
  have hg := (@get_requeued l).connect
  if hidle : l.connectState = .idle then
    if ho : l.linkOptions = .flowCntrlDisabled then
      unfold Link.flowControlPrimReceived
      rw [if_pos (.inr ho)]
      exact leave_quiet l
    else
      obtain ⟨tx, _, _, hr⟩ := flowControl_cases (.inl hidle) ho
      rcases hr with hr | ⟨_, hr⟩
      · rw [hr]
        unfold Link.flowEnd
        rw [if_neg fun hno => hc (hg.symm.trans hno.2)]
        exact ⟨hg, dataPrims_data, nofun, fun hno => absurd hidle hno⟩
      · rw [hr]
        refine ⟨hg, dataPrims_data, fun reason k hk => ?_, fun hno => absurd hidle hno⟩
        cases hk
        exact ⟨nofun, nofun, nofun⟩
  else
    unfold Link.flowControlPrimReceived
    rw [if_pos (.inl ⟨hidle, hc⟩)]
    exact leave_quiet l

theorem data_quiet (p : Nat) : l.Quiet (l.dataPrimReceived p) := by
  unfold Link.dataPrimReceived
  split
  · exact leave_quiet l
  · rename_i hc
    have hc := Decidable.not_not.1 hc
    have hhanded : ∀ {m : Link} {k : Cont}, m.connectState = l.connectState → k ≠ .closeNow →
        l.Quiet ⟨m, [], some (.dataReceived p, k)⟩ := by
      intro m k hm hk
      refine ⟨hm, fun _ hp => absurd hp List.not_mem_nil, fun reason c hc => ?_, fun hno => absurd hc hno⟩
      cases hc
      exact ⟨nofun, nofun, hk⟩
    split
    · exact hhanded rfl nofun
    · split
      · exact hhanded rfl nofun
      · exact hhanded rfl nofun
      · exact leave_quiet l

theorem resume_quiet {k : Cont} (hc : l.connectState ≠ .closing) (hk : k ≠ .closeNow) : l.Quiet (l.resume k) := by
  cases k with
  | openReady =>
    unfold Link.resume
    simp only
    split
    · refine ⟨rfl, fun _ hp => absurd hp List.not_mem_nil, fun reason k hk => ?_, fun _ => ⟨rfl, fun hrx => ⟨hrx, rfl⟩⟩⟩
      cases hk
      exact ⟨nofun, nofun, nofun⟩
    · exact leave_quiet l
  | dataReady =>
    unfold Link.resume
    simp only
    split
    · rename_i hrx
      exact ⟨rfl, fun _ hp => .inl (List.mem_singleton.1 hp), nofun, fun _ => ⟨rfl, fun hno => by rw [hno] at hrx; cases hrx⟩⟩
    · exact ⟨rfl, fun _ hp => absurd hp List.not_mem_nil, nofun, fun _ => ⟨rfl, fun _ => ⟨rfl, rfl⟩⟩⟩
  | flowReady =>
    unfold Link.resume
    simp only
    unfold Link.flowEnd
    rw [if_neg fun hno => hc hno.2]
    exact leave_quiet l
  | closeNow => exact absurd rfl hk
  | done => exact leave_quiet l

end

/-! ### How far two neighbours are -/

/-- How far two neighbours are with connecting, from what they have sent. -/
def Phase : ConnectState → ConnectState → List Prim → List Prim → Prop
  | .closed, .closed, sent, received => sent = [] ∧ received = []
  | .setup, .closed, sent, received => sent = [.connect] ∧ received = []
  | .closed, .setup, sent, received => sent = [] ∧ received = [.connect]
  | .setup, .connecting, sent, received => sent = [] ∧ received = []
  | .connecting, .setup, sent, received => sent = [] ∧ received = []
  | .setup, .setup, sent, received => sent = [.connect] ∧ received = [.connect]
  | .setup, .idle, sent, received => sent = [] ∧ ∃ ps, received = .connect :: ps ∨ received = .confirm :: ps
  | .idle, .setup, sent, received => received = [] ∧ ∃ ps, sent = .connect :: ps ∨ sent = .confirm :: ps
  | .idle, .idle, _, _ => True
  | _, _, _, _ => False

section
variable {c d : ConnectState} {sent received rest o : List Prim} {p : Prim}

theorem Phase.symm (h : Phase c d sent received) : Phase d c received sent := by
  cases c <;> cases d <;> first | exact h | exact h.symm

theorem Phase.append (h : Phase c d sent received) (hc : c = .idle ∨ o = []) :
    Phase c d (sent ++ o) received := by
  rcases hc with hc | ho
  · rw [hc] at h ⊢
    cases d with
    | setup =>
      obtain ⟨hr, ps, hs⟩ := h
      refine ⟨hr, ps ++ o, hs.imp (fun hs => ?_) fun hs => ?_⟩
      · rw [hs, List.cons_append]
      · rw [hs, List.cons_append]
    | idle => trivial
    | _ => exact h.elim
  · rwa [ho, List.append_nil]

theorem Phase.idle (h : Phase c d sent (p :: rest)) (hp : p ≠ .connect ∧ p ≠ .confirm) :
    c = .idle ∧ d = .idle := by
  cases c <;> cases d <;> first
    | exact ⟨rfl, rfl⟩
    | exact h.elim
    | exact absurd h.1 (List.cons_ne_nil _ _)
    | exact absurd h.2 (List.cons_ne_nil _ _)
    | exact absurd (List.cons.inj h.2).1 hp.1
    | obtain ⟨_, ps, hs | hs⟩ := h
      · exact absurd (List.cons.inj hs).1 hp.1
      · exact absurd (List.cons.inj hs).1 hp.2

/-- An end in `DTI_SETUP` receives the answer, or the connect primitive of the other end. -/
theorem Phase.answered (h : Phase .setup d sent (p :: rest)) :
    Phase .idle d (sent ++ o) rest := by
  cases d with
  | setup =>
    have hp := List.cons.inj h.2
    refine ⟨hp.2, o, .inl ?_⟩
    rw [h.1]
    rfl
  | idle => trivial
  | closed => exact absurd h.2 (List.cons_ne_nil _ _)
  | connecting => exact absurd h.2 (List.cons_ne_nil _ _)
  | closing => exact h.elim

end

/-! ### No end is stuck -/

/-- A link without a connection has no packets, and has not given a credit. -/
def Link.Shut (l : Link) : Prop :=
  l.connectState = .idle ∨ l.connectState = .closing ∨ l.rxState = .idle ∧ l.queueLen = 0

/-- What a function of an end leaves for the other one, when they are being connected. -/
private structure Link.Fair (l : Link) (r : Res) : Prop where
  shut : r.link.Shut
  setup : r.link.connectState = .setup → l.connectState = .setup ∧ .disconnect ∉ r.prims ∨ r.prims = [.connect]
  connecting : l.connectState = .connecting → r.link.connectState = .connecting ∨ .confirm ∈ r.prims ∨ .disconnect ∈ r.prims

section
variable {l : Link} {r : Res}

private theorem Link.Quiet.fair (h : l.Quiet r) (hl : l.Shut) : l.Fair r := by
  refine ⟨?_, fun hc => .inl ⟨h.connect.symm.trans hc, fun hd => ?_⟩, fun hc => .inl (h.connect.trans hc)⟩
  · rcases hl with hl | hl | hl
    · exact .inl (h.connect.trans hl)
    · exact .inr (.inl (h.connect.trans hl))
    · exact if hc : l.connectState = .idle then .inl (h.connect.trans hc)
        else .inr (.inr ⟨((h.shut hc).2 hl.1).1, (h.shut hc).1.trans hl.2⟩)
  · rcases h.prims _ hd with hp | hp <;> cases hp

private theorem leave_fair (hl : l.Shut) : l.Fair l.leave := (leave_quiet l).fair hl

private theorem call_fair (hl : l.Shut) (c : DtiCall) : l.Fair (l.call c) := by
  cases c with
  | «open» options n =>
    unfold Link.call
    simp only
    unfold Link.dtiOpen
    simp only
    split
    · rename_i h
      exact ⟨.inl rfl, nofun, fun hc => by rw [h] at hc; cases hc⟩
    · rename_i h
      exact ⟨.inl rfl, nofun, fun hc => by rw [h] at hc; cases hc⟩
    · exact leave_fair hl
    · rename_i h
      exact ⟨.inr (.inr ⟨rfl, rfl⟩), fun _ => .inr rfl, fun hc => by rw [h] at hc; cases hc⟩
    · exact ⟨.inl rfl, nofun, fun _ => .inr (.inl List.mem_cons_self)⟩
  | close flush =>
    unfold Link.call
    simp only
    unfold Link.dtiClose
    split
    · exact leave_fair hl
    · split
      · split
        · rename_i hq
          refine ⟨.inr (.inl rfl), nofun, fun hc => ?_⟩
          rcases hl with hl | hl | hl
          · rw [hc] at hl
            cases hl
          · rw [hc] at hl
            cases hl
          · exact absurd hl.2 hq
        · exact ⟨hl, fun hc => .inl ⟨hc, List.not_mem_nil⟩, fun hc => .inl hc⟩
      · exact ⟨.inr (.inr ⟨rfl, rfl⟩), nofun, fun _ => .inr (.inr List.mem_cons_self)⟩
  | start => exact (startStop_quiet l).1.fair hl
  | stop => exact (startStop_quiet l).2.fair hl
  | sendData p => exact (sendData_quiet l p).fair hl

private theorem default_fair {o : List Prim} {s : Option (Reason × Cont)} (h : .disconnect ∈ o ∨ l.connectState ≠ .connecting) :
    l.Fair ⟨.default, o, s⟩ :=
  ⟨.inr (.inr ⟨rfl, rfl⟩), nofun, fun hc => h.elim (fun hd => .inr (.inr hd)) fun hno => absurd hc hno⟩

/-- A link that is to be closed stays so, or is closed. -/
private theorem closing_fair {m : Link} {o : List Prim} (hc : l.connectState = .closing) (hm : m.connectState = .closing) :
    l.Fair (m.flowEnd o) := by
  unfold Link.flowEnd
  split
  · exact default_fair (.inl List.mem_concat_self)
  · refine ⟨.inr (.inl hm), fun hs => ?_, fun hs => ?_⟩
    · rw [hm] at hs
      cases hs
    · rw [hc] at hs
      cases hs

private theorem resume_fair (hl : l.Shut) (k : Cont) : l.Fair (l.resume k) := by
  if hk : k = .closeNow then
    rw [hk]
    exact default_fair (.inl List.mem_cons_self)
  else if hc : l.connectState = .closing then
    have hclosing : ∀ {m : Link} {o : List Prim} {s : Option (Reason × Cont)}, m.connectState = .closing →
        l.Fair ⟨m, o, s⟩ := by
      intro m o s hm
      refine ⟨.inr (.inl hm), fun hs => ?_, fun hs => ?_⟩
      · rw [hm] at hs
        cases hs
      · rw [hc] at hs
        cases hs
    unfold Link.resume
    split
    · split
      · exact hclosing hc
      · exact hclosing hc
    · split
      · exact hclosing hc
      · exact hclosing hc
    · exact closing_fair hc hc
    · exact absurd rfl hk
    · exact hclosing hc
  else exact (resume_quiet l hc hk).fair hl

/-- All but a disconnect primitive, for an end that waits for its entity. -/
private theorem primReceived_fair (hl : l.Shut) {p : Prim} (hp : p = .disconnect → l.connectState ≠ .connecting) :
    l.Fair (l.primReceived p) := by
  have hother : ∀ {c : ConnectState}, l.connectState = c → c ≠ .connecting → l.connectState ≠ .connecting :=
    fun hc hno => hc ▸ hno
  cases p with
  | connect =>
    unfold Link.primReceived Link.connectInitPrimReceived
    simp only
    split
    · rename_i hc
      exact ⟨.inl rfl, nofun, fun hno => absurd hno (hother hc nofun)⟩
    · rename_i hc
      exact ⟨.inl rfl, nofun, fun hno => absurd hno (hother hc nofun)⟩
    · exact default_fair (.inl (List.mem_cons_of_mem _ List.mem_cons_self))
    · rename_i hc
      exact ⟨.inr (.inr ⟨rfl, rfl⟩), nofun, fun hno => absurd hno (hother hc nofun)⟩
    · exact leave_fair hl
  | confirm =>
    unfold Link.primReceived Link.connectConfirmPrimReceived
    simp only
    split
    · rename_i hc
      exact ⟨.inl rfl, nofun, fun hno => absurd hno (hother hc nofun)⟩
    · exact leave_fair hl
  | disconnect =>
    unfold Link.primReceived Link.disconnectPrimReceived
    simp only
    split
    · exact leave_fair hl
    · exact default_fair (.inr (hp rfl))
  | ready =>
    unfold Link.primReceived
    simp only
    if hc : l.connectState = .closing then
      if ho : l.linkOptions = .flowCntrlDisabled then
        unfold Link.flowControlPrimReceived
        rw [if_pos (.inr ho)]
        exact leave_fair hl
      else
        obtain ⟨tx, _, _, hr | hr⟩ := flowControl_cases (.inr hc) ho
        · rw [hr]
          exact closing_fair hc (get_requeued.connect.trans hc)
        · exact absurd hc hr.1
    else exact (flowControl_quiet l hc).fair hl
  | data p => exact (data_quiet l p).fair hl

/-- A connect primitive is answered, or the end waits for its entity. -/
private theorem connect_answered :
    (l.primReceived .connect).link.connectState = .connecting ∨ .confirm ∈ (l.primReceived .connect).prims := by
  unfold Link.primReceived Link.connectInitPrimReceived
  simp only
  split
  · exact .inr List.mem_cons_self
  · exact .inr List.mem_cons_self
  · exact .inr List.mem_cons_self
  · exact .inl rfl
  · rename_i hc
    exact .inl hc

/-- What takes an end out of `DTI_SETUP`. -/
def Prim.EndsSetup (p : Prim) : Prop := p = .connect ∨ p = .confirm ∨ p = .disconnect

private theorem setup_left {p : Prim} (hl : l.connectState = .setup) (hp : p.EndsSetup) :
    (l.primReceived p).link.connectState ≠ .setup := by
  rcases hp with hp | hp | hp
  · rw [hp]
    unfold Link.primReceived Link.connectInitPrimReceived
    simp only [hl]
    exact ConnectState.noConfusion
  · rw [hp]
    unfold Link.primReceived Link.connectConfirmPrimReceived
    simp only [hl]
    exact ConnectState.noConfusion
  · rw [hp]
    unfold Link.primReceived Link.disconnectPrimReceived
    simp only [hl]
    exact ConnectState.noConfusion

end

/-- An end in `DTI_SETUP` has a connect primitive on its way, after any disconnect primitive; or it has been received, and the
entity there has not answered yet; or the answer is on its way. -/
private def Expects (e f : End) (sent received : List Prim) : Prop :=
  e.link.connectState = .setup →
    (∃ xs ys, sent = xs ++ .connect :: ys ∧ .disconnect ∉ ys) ∨
    .disconnect ∉ sent ∧ (f.link.connectState = .connecting ∨ ∃ p ∈ received, p.EndsSetup)

section
variable {x : Bool} {e f g : End} {sent received rest : List Prim} {ev : DtiEvent} {r : Res}

theorem after_link : (e.after r).link = r.link := by
  unfold End.after
  split <;> rfl

/-- What an end takes away is the first primitive. -/
theorem Does.taken (h : Does x e received ev g r rest) : rest = received ∨ ∃ p, received = p :: rest ∧ r = e.link.primReceived p := by
  cases h with
  | call c => exact .inl rfl
  | ret k ks _ => exact .inl rfl
  | deliver p rest _ hr => exact .inr ⟨p, hr, rfl⟩

private theorem Does.fair (h : Does x e received ev g r rest) (hl : e.link.Shut)
    (hd : e.link.connectState = .connecting → .disconnect ∉ received) : e.link.Fair r := by
  cases h with
  | call c => exact call_fair hl c
  | ret k ks _ => exact resume_fair hl k
  | deliver p rest _ hr =>
    refine primReceived_fair hl fun hp hc => hd hc ?_
    rw [hr, hp]
    exact List.mem_cons_self

/-- Also when it receives a disconnect primitive. -/
private theorem Does.shut (h : Does x e received ev g r rest) (hl : e.link.Shut) :
    r.link.Shut ∧ (r.link.connectState = .setup → e.link.connectState = .setup ∧ .disconnect ∉ r.prims ∨ r.prims = [.connect]) := by
  if hc : e.link.connectState = .connecting then
    cases h with
    | call c => exact ⟨(call_fair hl c).shut, (call_fair hl c).setup⟩
    | ret k ks _ => exact ⟨(resume_fair hl k).shut, (resume_fair hl k).setup⟩
    | deliver p rest _ hr =>
      if hp : p = .disconnect then
        rw [hp]
        unfold Link.primReceived Link.disconnectPrimReceived
        simp only [hc]
        exact ⟨.inr (.inr ⟨rfl, rfl⟩), nofun⟩
      else
        have hf := primReceived_fair hl fun hno => absurd hno hp
        exact ⟨hf.shut, hf.setup⟩
  else
    have hf := h.fair hl fun hno => absurd hno hc
    exact ⟨hf.shut, hf.setup⟩

private theorem expects_own (h : Expects e f sent received) (hd : Does x e received ev g r rest) (hl : e.link.Shut) :
    Expects (g.after r) f (sent ++ r.prims) rest := by
  intro hc
  rw [after_link] at hc
  rcases (hd.shut hl).2 hc with ⟨he, hno⟩ | hr
  · rcases h he with ⟨xs, ys, hs, hy⟩ | ⟨hs, hf⟩
    · refine .inl ⟨xs, ys ++ r.prims, ?_, ?_⟩
      · rw [hs, List.append_assoc, List.cons_append]
      · rw [List.mem_append, not_or]
        exact ⟨hy, hno⟩
    · refine .inr ⟨?_, hf.imp_right fun ⟨p, hp, hends⟩ => ?_⟩
      · rw [List.mem_append, not_or]
        exact ⟨hs, hno⟩
      · rcases hd.taken with ht | ⟨q, ht, hq⟩
        · exact ⟨p, ht ▸ hp, hends⟩
        · rw [ht] at hp
          rcases List.mem_cons.1 hp with hpq | hp
          · rw [hq, ← hpq] at hc
            exact absurd hc (setup_left he hends)
          · exact ⟨p, hp, hends⟩
  · exact .inl ⟨sent, [], by rw [hr], List.not_mem_nil⟩

private theorem expects_other (h : Expects f e received sent) (hd : Does x e received ev g r rest) (hl : e.link.Shut) :
    Expects f (g.after r) rest (sent ++ r.prims) := by
  intro hc
  rw [after_link]
  rcases h hc with ⟨xs, ys, hs, hy⟩ | ⟨hs, hf⟩
  · rcases hd.taken with ht | ⟨q, ht, hq⟩
    · exact .inl ⟨xs, ys, ht.trans hs, hy⟩
    · rw [hs] at ht
      cases xs with
      | nil =>
        obtain ⟨hconnect, hrest⟩ := List.cons.inj ht
        refine .inr ⟨hrest ▸ hy, ?_⟩
        rw [hq, ← hconnect]
        exact connect_answered.imp_right fun hp => ⟨_, List.mem_append_right _ hp, .inr (.inl rfl)⟩
      | cons p xs => exact .inl ⟨xs, ys, (List.cons.inj ht).2.symm, hy⟩
  · refine .inr ⟨?_, ?_⟩
    · rcases hd.taken with ht | ⟨q, ht, _⟩
      · exact ht ▸ hs
      · exact fun hno => hs (ht ▸ List.mem_cons_of_mem _ hno)
    · rcases hf with hf | ⟨p, hp, hends⟩
      · rcases (hd.fair hl fun _ => hs).connecting hf with hr | hr | hr
        · exact .inl hr
        · exact .inr ⟨_, List.mem_append_right _ hr, .inr (.inl rfl)⟩
        · exact .inr ⟨_, List.mem_append_right _ hr, .inr (.inr rfl)⟩
      · exact .inr ⟨p, List.mem_append_left _ hp, hends⟩

end

/-- No end stays in `DTI_SETUP` while the other one is open and nothing is on its way. -/
theorem never_stuck {s : Neighbours} (h : dtilib.Reach (fun _ _ => true) s) (x : Bool)
    (hx : (s.ends x).link.connectState = .setup) (hy : (s.ends !x).link.connectState = .idle) : ∃ y, s.chan y ≠ [] := by
  have hs : s.Seen fun _ e f sent received => e.link.Shut ∧ Expects e f sent received := by
    refine h.invariant (I := fun s => s.Seen fun _ e f sent received => e.link.Shut ∧ Expects e f sent received)
      (fun s hs x => ?_) fun s ev t hs _ ht => seen_of_does ht fun x g r rest hd => ?_
    · change s = .start at hs
      rw [hs]
      exact ⟨.inr (.inr ⟨rfl, rfl⟩), nofun⟩
    · have hl := (hs x).1
      refine ⟨⟨after_link ▸ (hd.shut hl).1, expects_own (hs x).2 hd hl⟩, (hs.other x).1, expects_other (hs.other x).2 hd hl⟩
  rcases (hs x).2 hx with ⟨xs, ys, hsent, _⟩ | ⟨_, hf | ⟨p, hp, _⟩⟩
  · refine ⟨x, fun hno => ?_⟩
    rw [hno] at hsent
    exact absurd hsent (List.append_ne_nil_of_right_ne_nil _ (List.cons_ne_nil _ _)).symm
  · rw [hy] at hf
    cases hf
  · exact ⟨!x, List.ne_nil_of_mem hp⟩

/-- The answer to the end that has opened its link first is on its way. -/
theorem never_stuck_answered : ∃ s, dtilib.Reach (fun _ _ => true) s ∧ (s.ends true).link.connectState = .setup ∧
    (s.ends false).link.connectState = .idle ∧ ∃ y, s.chan y ≠ [] := by
  have hrun : (dtilib.run (fun _ _ => true) .start
      [.call true (.open .queueUnbounded 0), .deliver false, .call false (.open .queueUnbounded 0)]).any (fun s => decide
        ((s.ends true).link.connectState = .setup ∧ (s.ends false).link.connectState = .idle)) = true := by decide +kernel
  obtain ⟨s, hs, hfin⟩ := (Option.any_eq_true ..).1 hrun
  obtain ⟨hsetup, hidle⟩ := of_decide_eq_true hfin
  have hreach := Machine.Reach.of_run (.init rfl) hs
  exact ⟨s, hreach, hsetup, hidle, never_stuck hreach true hsetup hidle⟩

end Citrine.Dti
