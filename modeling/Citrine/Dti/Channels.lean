import Citrine.Dti.ConnMng

/-!
# A channel, its tuples and their peers

The state of a channel agrees with the states of its tuples, and the state of a tuple with those of its peers
(`Channel.Sound`): every call on a channel keeps this, and calls the callback once for each time that the channel becomes
connected or disconnected (`Told`).
-/

namespace Citrine.Dti

/-! ### What the callback is told -/

/-- The channel becomes connected or disconnected. -/
def Output.transition : Output → Option (Nat × ConnState)
  | .state dtiId old new =>
    if old ≠ new ∧ (new = .connected ∨ new = .disconnected) then some (dtiId, new) else none
  | _ => none

/-- The callback is told that the channel is connected or disconnected. -/
def Output.told : Output → Option (Nat × ConnState)
  | .connCb _ dtiId s => if s = .connected ∨ s = .disconnected then some (dtiId, s) else none
  | _ => none

/-- The callbacks are told of the transitions, in their order, and of each of them once. -/
def Told (o : List Output) : Prop := o.filterMap Output.transition = o.filterMap Output.told

section
variable {o p : List Output}

theorem Told.append (ho : Told o) (hp : Told p) : Told (o ++ p) := by
  unfold Told at *
  rw [List.filterMap_append, List.filterMap_append, ho, hp]

/-- Neither transitions nor what the callbacks should be told. -/
private def Silent (o : List Output) : Prop := ∀ x ∈ o, x.transition = none ∧ x.told = none

private theorem Silent.told (h : Silent o) : Told o := by
  unfold Told
  rw [List.filterMap_eq_nil_iff.2 fun x hx => (h x hx).1, List.filterMap_eq_nil_iff.2 fun x hx => (h x hx).2]

private theorem Silent.append (ho : Silent o) (hp : Silent p) : Silent (o ++ p) := fun x hx =>
  (List.mem_append.1 hx).elim (ho x) (hp x)

private theorem silent_nil : Silent [] := fun _ hx => (List.not_mem_nil hx).elim

private theorem Silent.cons {x : Output} (ho : Silent o) (hx : x.transition = none ∧ x.told = none) : Silent (x :: o) :=
  fun y hy => (List.mem_cons.1 hy).elim (fun h => h ▸ hx) (ho y)

private theorem not_final {s : ConnState} (h : s = .connecting ∨ s = .disconnecting) :
    ¬ (s = .connected ∨ s = .disconnected) := by
  rcases h with rfl | rfl <;> decide

private theorem silent_enter (c : Channel) {s : ConnState} (h : s = .connecting ∨ s = .disconnecting) :
    Silent (c.enter s).2 := silent_nil.cons ⟨if_neg fun hno => not_final h hno.2, rfl⟩

theorem told_enter_disconnecting (c : Channel) : Told (c.enter .disconnecting).2 := (silent_enter c (.inr rfl)).told

private theorem silent_report (c : Channel) {s : ConnState} (h : s = .connecting ∨ s = .disconnecting) :
    Silent (c.report s) := silent_nil.cons ⟨rfl, if_neg (not_final h)⟩

private theorem silent_ent (linkId : Nat) (e f : Option EntityId) (x : DtiConn) (h : Silent o) :
    Silent (.mngEntCb linkId e f x :: o) := h.cons ⟨rfl, rfl⟩

/-- A transition is followed by its report. -/
private theorem told_enter (c : Channel) {s : ConnState} (hs : s = .connected ∨ s = .disconnected) (h : c.state ≠ s)
    (hp : Silent p) : Told (p ++ (c.enter s).2 ++ (c.enter s).1.report s) := by
  rw [List.append_assoc]
  refine hp.told.append ?_
  have hchange : Output.transition (.state c.dtiId c.state s) = some (c.dtiId, s) := if_pos ⟨h, hs⟩
  have hreport : Output.told (.connCb c.connCb c.dtiId s) = some (c.dtiId, s) := if_pos hs
  unfold Told Channel.enter Channel.report
  rw [List.singleton_append, List.filterMap_cons_some hchange, List.filterMap_cons_none rfl, List.filterMap_cons_none rfl,
    List.filterMap_cons_some hreport]
  rfl

end

/-! ### The levels -/

/-- The state of a tuple is that of its peers, and a peer that is disconnected has no entity. -/
structure Tuple.Sound (t : Tuple) : Prop where
  up : t.state = .connected ↔ t.peer0.state = .connected ∧ t.peer1.state = .connected
  down : t.state = .disconnected ↔ t.peer0.state = .disconnected ∧ t.peer1.state = .disconnected
  free0 : t.peer0.state = .disconnected → t.peer0.entId = none
  free1 : t.peer1.state = .disconnected → t.peer1.entId = none

/-- Some tuple in use is not disconnected. -/
def Channel.Busy (c : Channel) : Prop := ∃ i, i < c.numOfConns ∧ (c.tupleList i).state ≠ .disconnected

/-- All the tuples in use are connected, and there are some. -/
def Channel.Up (c : Channel) : Prop := 0 < c.numOfConns ∧ ∀ i, i < c.numOfConns → (c.tupleList i).state = .connected

/-- The state of a channel is that of its tuples, and the tuples that are not in use are disconnected. -/
structure Channel.Sound (c : Channel) : Prop where
  tuples : ∀ i, (c.tupleList i).Sound
  unused : ∀ i, c.numOfConns ≤ i → (c.tupleList i).state = .disconnected
  idle : c.state = .disconnected → c.numOfConns = 0
  busy : c.state ≠ .disconnected → c.Busy
  up : c.state = .connected ↔ c.Up
  kept : c.eraseChannel = false

/-- The same channel. -/
structure Channel.Same (c d : Channel) : Prop where
  dtiId : d.dtiId = c.dtiId
  erase : d.eraseChannel = c.eraseChannel
  num : d.numOfConns = c.numOfConns

section
variable {c d : Channel} {t : Tuple} {i n : Nat} {e f : Option EntityId} {l : List (Option EntityId)}

/-- A tuple whose peers have its state. -/
private theorem sound_level {s : ConnState} (he : s = .disconnected → e = none) (hf : s = .disconnected → f = none) :
    (⟨n, s, ⟨s, e⟩, ⟨s, f⟩⟩ : Tuple).Sound := ⟨and_self_iff.symm, and_self_iff.symm, he, hf⟩

theorem sound_reset (dtiId : Nat) : (Channel.reset dtiId).Sound :=
  ⟨fun _ => sound_level (fun _ => rfl) (fun _ => rfl), fun _ _ => rfl, fun _ => rfl, fun h => absurd rfl h,
    iff_of_false nofun (fun h => absurd h.1 (Nat.lt_irrefl 0)), rfl⟩

/-- The callback plays no part in this. -/
theorem Channel.Sound.connCb (h : c.Sound) (cb : Option ConnCb) : { c with connCb := cb }.Sound :=
  ⟨h.tuples, h.unused, h.idle, h.busy, h.up, h.kept⟩

private theorem setTuple_same : (c.setTuple i t).tupleList i = t := if_pos rfl

private theorem enter_tuples {s : ConnState} : (c.enter s).1.tupleList = c.tupleList := rfl

private theorem setTuple_other {j : Nat} (h : j ≠ i) : (c.setTuple i t).tupleList j = c.tupleList j := if_neg h

/-! ### Connecting -/

/-- The loop of `dti_conn_connect` has written the tuples from `n` on. -/
private structure Connects (c : Channel) (n k : Nat) (d : Channel) : Prop where
  same : c.Same d
  state : d.state = .connecting
  written : ∀ i, n ≤ i → i < n + k → (d.tupleList i).state = .connecting ∧ (d.tupleList i).Sound
  others : ∀ i, i < n ∨ n + k ≤ i → d.tupleList i = c.tupleList i

private theorem connectLoop_spec (hstate : c.state = .connecting) (hfree : ∀ i, n ≤ i → (c.tupleList i).state = .disconnected) :
    (c.connectLoop n (e :: l)).2.1 = n + l.length ∧ Silent (c.connectLoop n (e :: l)).2.2 ∧
      Connects c n l.length (c.connectLoop n (e :: l)).1 := by
  induction l generalizing c n e with
  | nil => exact ⟨rfl, silent_nil, ⟨rfl, rfl, rfl⟩, hstate, fun i h1 h2 => absurd h2 (Nat.not_lt.2 h1), fun _ _ => rfl⟩
  | cons f l ih =>
    have hn := hfree n (Nat.le_refl n)
    unfold Channel.connectLoop
    simp only
    rw [if_pos ⟨by rw [hn]; exact nofun, by rw [hn]; exact nofun⟩]
    obtain ⟨t, ht⟩ : ∃ t : Tuple, (⟨n, .connecting, ⟨.connecting, e⟩, ⟨.connecting, f⟩⟩ : Tuple) = t := ⟨_, rfl⟩
    rw [ht]
    obtain ⟨b, hb⟩ : ∃ b : Channel, ((c.setTuple n t).enter .connecting).1 = b := ⟨_, rfl⟩
    have hbt : b.tupleList n = t := by rw [← hb]; exact setTuple_same
    have hbo : ∀ i, i ≠ n → b.tupleList i = c.tupleList i := by
      intro i hi
      rw [← hb]
      exact setTuple_other hi
    have hbs : c.Same b := by
      rw [← hb]
      exact ⟨rfl, rfl, rfl⟩
    rw [hb]
    obtain ⟨hno, ho, hd⟩ := ih (c := b) (n := n + 1) (e := f) (by rw [← hb]; rfl) fun i hi => by
      rw [hbo i (by omega)]
      exact hfree i (by omega)
    rw [List.length_cons]
    refine ⟨by rw [hno]; omega, ?_, ⟨hd.same.dtiId.trans hbs.dtiId, hd.same.erase.trans hbs.erase, hd.same.num.trans hbs.num⟩,
      hd.state, fun i h1 h2 => ?_, fun i hi => ?_⟩
    · exact ((silent_enter _ (.inl rfl)).append (silent_ent _ _ _ _ (silent_ent _ _ _ _ silent_nil))).append ho
    · rcases Nat.eq_or_lt_of_le h1 with heq | hlt
      · rw [← heq, hd.others n (.inl (Nat.lt_succ_self n)), hbt, ← ht]
        exact ⟨rfl, sound_level nofun nofun⟩
      · exact hd.written i hlt (by omega)
    · rw [hd.others i (by omega), hbo i (by omega)]

/-- `dti_conn_connect` starts to connect tuples, behind those of the channel or in their place when it is disconnected. -/
theorem connect_spec (h : c.Sound) (mode : ConnMode) (hmode : mode = .split → c.state = .disconnected) :
    (c.dtiConnConnect (e :: f :: l) mode).1.Sound ∧ Told (c.dtiConnConnect (e :: f :: l) mode).2 ∧
      (c.dtiConnConnect (e :: f :: l) mode).1.dtiId = c.dtiId ∧
      (c.dtiConnConnect (e :: f :: l) mode).1.state = .connecting := by
  obtain ⟨b, hb⟩ : ∃ b : Channel, (match mode with
    | .append => (c.enter .connecting).1
    | .split => { (c.enter .connecting).1 with numOfConns := 0 }) = b := ⟨_, rfl⟩
  have hbn : b.numOfConns = c.numOfConns := by
    rw [← hb]
    cases mode with
    | append => rfl
    | split => exact (h.idle (hmode rfl)).symm
  have hbs : b.tupleList = c.tupleList ∧ b.state = .connecting ∧ b.dtiId = c.dtiId ∧ b.eraseChannel = c.eraseChannel := by
    rw [← hb]
    cases mode <;> exact ⟨rfl, rfl, rfl, rfl⟩
  obtain ⟨htuples, hstate, hid, herase⟩ := hbs
  obtain ⟨hno, ho, hd⟩ := connectLoop_spec (e := e) (l := f :: l) (n := b.numOfConns) hstate fun i hi => by
    rw [htuples]
    exact h.unused i (hbn ▸ hi)
  have hconn : c.dtiConnConnect (e :: f :: l) mode =
      ({ (b.connectLoop b.numOfConns (e :: f :: l)).1 with numOfConns := (b.connectLoop b.numOfConns (e :: f :: l)).2.1 },
        (c.enter .connecting).2 ++ (c.enter .connecting).1.report .connecting ++
          (b.connectLoop b.numOfConns (e :: f :: l)).2.2) := by
    rw [← hb]
    cases mode <;> rfl
  rw [hconn, hno]
  generalize (b.connectLoop b.numOfConns (e :: f :: l)).1 = d at hd
  rw [List.length_cons] at hd ⊢
  have hnew : (d.tupleList b.numOfConns).state = .connecting := (hd.written _ (Nat.le_refl _) (by omega)).1
  refine ⟨⟨fun i => ?_, fun i hi => ?_, fun hno => ?_, fun _ => ⟨b.numOfConns, by simp only; omega, ?_⟩, ?_, ?_⟩, ?_,
    hd.same.dtiId.trans hid, hd.state⟩
  · by_cases hi : b.numOfConns ≤ i ∧ i < b.numOfConns + (l.length + 1)
    · exact (hd.written i hi.1 hi.2).2
    · change (d.tupleList i).Sound
      rw [hd.others i (by omega), htuples]
      exact h.tuples i
  · change b.numOfConns + (l.length + 1) ≤ i at hi
    change (d.tupleList i).state = _
    rw [hd.others i (.inr hi), htuples]
    exact h.unused i (by omega)
  · exact absurd (hd.state.symm.trans hno) nofun
  · rw [hnew]
    exact nofun
  · refine iff_of_false (fun hno => absurd (hd.state.symm.trans hno) nofun) fun hno => ?_
    have := hno.2 b.numOfConns (by simp only; omega)
    rw [hnew] at this
    cases this
  · exact hd.same.erase.trans (herase.trans h.kept)
  · exact (((silent_enter c (.inl rfl)).append (silent_report _ (.inl rfl))).append ho).told

/-! ### Disconnecting -/

private theorem disconnectPeer_spec (p q : Peer) (linkId : Nat) :
    ((Channel.disconnectPeer p q linkId).1.state = .disconnected ↔ p.state = .disconnected) ∧
    (Channel.disconnectPeer p q linkId).1.state ≠ .connected ∧
    (Channel.disconnectPeer p q linkId).1.entId = p.entId ∧ Silent (Channel.disconnectPeer p q linkId).2 := by
  unfold Channel.disconnectPeer
  split
  · rename_i h
    refine ⟨iff_of_false nofun fun hno => ?_, nofun, rfl, silent_ent _ _ _ _ silent_nil⟩
    rw [hno] at h
    rcases h with h | h <;> cases h
  · rename_i h
    exact ⟨Iff.rfl, fun hno => h (.inl hno), rfl, silent_nil⟩

private theorem disconnectTuple_spec (h : (c.tupleList i).Sound) :
    c.Same (c.disconnectTuple i).1 ∧ (c.disconnectTuple i).1.state = c.state ∧ Silent (c.disconnectTuple i).2 ∧
    ((c.disconnectTuple i).1.tupleList i).Sound ∧
    (((c.disconnectTuple i).1.tupleList i).state = .disconnected ↔ (c.tupleList i).state = .disconnected) ∧
    ((c.disconnectTuple i).1.tupleList i).state ≠ .connected ∧
    ∀ j, j ≠ i → (c.disconnectTuple i).1.tupleList j = c.tupleList j := by
  obtain ⟨hp1, hp2, hp3, hp4⟩ := disconnectPeer_spec (c.tupleList i).peer0 (c.tupleList i).peer1 (composeLinkId 0 0 c.dtiId i)
  obtain ⟨hq1, hq2, hq3, hq4⟩ := disconnectPeer_spec (c.tupleList i).peer1 (c.tupleList i).peer0 (composeLinkId 0 0 c.dtiId i)
  have hstate : ∀ s : ConnState, ((if s ≠ .disconnected then ConnState.disconnecting else s) = .disconnected ↔
      s = .disconnected) ∧ (if s ≠ .disconnected then ConnState.disconnecting else s) ≠ .connected := by
    intro s
    cases s <;> decide
  obtain ⟨hs1, hs2⟩ := hstate (c.tupleList i).state
  unfold Channel.disconnectTuple
  simp only
  rw [setTuple_same]
  refine ⟨⟨rfl, rfl, rfl⟩, rfl, hp4.append hq4, ⟨iff_of_false hs2 fun hno => hp2 hno.1, ?_, ?_, ?_⟩, hs1, hs2,
    fun j hj => setTuple_other hj⟩
  · rw [hp1, hq1, ← h.down]
    exact hs1
  · rw [hp1, hp3]
    exact h.free0
  · rw [hq1, hq3]
    exact h.free1

/-- The loop of `dti_conn_disconnect` has worked on the tuples before `n`. -/
private structure Disconnects (c : Channel) (n : Nat) (d : Channel) : Prop where
  same : c.Same d
  state : d.state = c.state
  tuples : ∀ i, (d.tupleList i).Sound
  down : ∀ i, (d.tupleList i).state = .disconnected ↔ (c.tupleList i).state = .disconnected
  left : ∀ i, i < n → (d.tupleList i).state ≠ .connected

private theorem disconnectLoop_spec (h : ∀ i, (c.tupleList i).Sound) (n : Nat) :
    Disconnects c n (c.disconnectLoop n).1 ∧ Silent (c.disconnectLoop n).2 := by
  induction n with
  | zero => exact ⟨⟨⟨rfl, rfl, rfl⟩, rfl, h, fun _ => Iff.rfl, fun i hi => absurd hi (Nat.not_lt_zero i)⟩, silent_nil⟩
  | succ n ih =>
    obtain ⟨hd, ho⟩ := ih
    unfold Channel.disconnectLoop
    simp only
    generalize (c.disconnectLoop n).1 = d at hd
    obtain ⟨hs, hst, hso, hsound, hdown, hleft, hother⟩ := disconnectTuple_spec (hd.tuples n)
    refine ⟨⟨⟨hs.dtiId.trans hd.same.dtiId, hs.erase.trans hd.same.erase, hs.num.trans hd.same.num⟩, hst.trans hd.state,
      fun i => ?_, fun i => ?_, fun i hi => ?_⟩, ho.append hso⟩
    · by_cases hi : i = n
      · rw [hi]
        exact hsound
      · rw [hother i hi]
        exact hd.tuples i
    · by_cases hi : i = n
      · rw [hi, hdown]
        exact hd.down n
      · rw [hother i hi]
        exact hd.down i
    · by_cases heq : i = n
      · rw [heq]
        exact hleft
      · rw [hother i heq]
        exact hd.left i (by omega)

/-- `dti_conn_disconnect` asks the peers of a channel with tuples in use to disconnect. -/
theorem disconnect_spec (htuples : ∀ i, (c.tupleList i).Sound) (hunused : ∀ i, c.numOfConns ≤ i → (c.tupleList i).state = .disconnected)
    (hbusy : c.Busy) (hkept : c.eraseChannel = false) :
    c.dtiConnDisconnect.1.Sound ∧ Told c.dtiConnDisconnect.2 ∧ c.dtiConnDisconnect.1.dtiId = c.dtiId ∧
      c.dtiConnDisconnect.1.state = .disconnecting := by
  unfold Channel.dtiConnDisconnect
  simp only
  obtain ⟨hd, ho⟩ := disconnectLoop_spec (c := (c.enter .disconnecting).1) htuples (c.enter .disconnecting).1.numOfConns
  have hnum : (c.enter .disconnecting).1.numOfConns = c.numOfConns := rfl
  rw [hnum] at hd ho ⊢
  generalize ((c.enter .disconnecting).1.disconnectLoop c.numOfConns).1 = d at hd
  have hstate : d.state = .disconnecting := hd.state
  have hdnum : d.numOfConns = c.numOfConns := hd.same.num
  obtain ⟨i, hi, hne⟩ := hbusy
  refine ⟨⟨hd.tuples, fun j hj => (hd.down j).2 (hunused j (hdnum ▸ hj)), fun hno => ?_, fun _ => ⟨i, hdnum ▸ hi, ?_⟩, ?_,
    hd.same.erase.trans hkept⟩, ?_, hd.same.dtiId, hstate⟩
  · rw [hstate] at hno
    cases hno
  · exact fun hno => hne ((hd.down i).1 hno)
  · refine iff_of_false (fun hno => ?_) fun hno => hd.left i hi (hno.2 i (hdnum ▸ hi))
    rw [hstate] at hno
    cases hno
  · exact (((silent_enter c (.inr rfl)).append (silent_report _ (.inr rfl))).append ho).told

/-- `dti_conn_disconnect` on a channel that is not disconnected. -/
theorem Channel.Sound.disconnect (h : c.Sound) (hs : c.state ≠ .disconnected) :
    c.dtiConnDisconnect.1.Sound ∧ Told c.dtiConnDisconnect.2 ∧ c.dtiConnDisconnect.1.dtiId = c.dtiId ∧
      c.dtiConnDisconnect.1.state = .disconnecting :=
  disconnect_spec h.tuples h.unused (h.busy hs) h.kept

/-! ### Confirmations -/

private theorem countTuples_eq {s : ConnState} :
    c.countTuples s = c.numOfConns ↔ ∀ i, i < c.numOfConns → (c.tupleList i).state = s := by
  have hlen : (List.range c.numOfConns).length = c.numOfConns := List.length_range
  unfold Channel.countTuples
  conv => lhs; rhs; rw [← hlen]
  rw [List.countP_eq_length]
  exact ⟨fun h i hi => of_decide_eq_true (h i (List.mem_range.2 hi)), fun h i hi => decide_eq_true (h i (List.mem_range.1 hi))⟩

/-- A channel with one tuple changed, whose state is the same. -/
private theorem states_same (h : t.state = (c.tupleList n).state) (i : Nat) :
    ((c.setTuple n t).tupleList i).state = (c.tupleList i).state := by
  by_cases hi : i = n
  · rw [hi, setTuple_same, h]
  · rw [setTuple_other hi]

private theorem tuples_set (h : c.Sound) (ht : t.Sound) (i : Nat) : ((c.setTuple n t).tupleList i).Sound := by
  by_cases hi : i = n
  · rw [hi, setTuple_same]
    exact ht
  · rw [setTuple_other hi]
    exact h.tuples i

/-- A channel stays sound when the state of the changed tuple is the same. -/
private theorem sound_states (h : c.Sound) (ht : t.Sound) (hs : t.state = (c.tupleList n).state) : (c.setTuple n t).Sound := by
  have hst := states_same (c := c) (n := n) hs
  refine ⟨tuples_set h ht, fun i hi => (hst i).trans (h.unused i hi), h.idle, fun hne => ?_, h.up.trans ?_, h.kept⟩
  · obtain ⟨i, hi, hne⟩ := h.busy hne
    exact ⟨i, hi, fun hno => hne ((hst i).symm.trans hno)⟩
  · exact and_congr_right fun _ => forall_congr' fun i => imp_congr_right fun _ => by rw [hst i]

private theorem peer_connected (p : Peer) (e : EntityId) :
    ((p.connected e).1.state = .disconnected ↔ p.state = .disconnected) ∧ (p.connected e).1.entId = p.entId ∧
    (p.connected e).2 ≤ 1 ∧ ((p.connected e).2 = 1 ↔ (p.connected e).1.state = .connected) ∧
    (p.state = .connected → (p.connected e).1 = p) ∧ (p.state ≠ .connected → (p.connected e).2 = 1 → p.entId = some e) := by
  unfold Peer.connected
  split
  · rename_i h
    exact ⟨Iff.rfl, rfl, Nat.le_refl _, iff_of_true rfl h, fun _ => rfl, fun hno => absurd h hno⟩
  · rename_i h
    split
    · rename_i h'
      refine ⟨iff_of_false nofun fun hno => ?_, rfl, Nat.le_refl _, iff_of_true rfl rfl, fun hno => absurd hno h, fun _ _ => h'.1⟩
      rw [h'.2] at hno
      cases hno
    · exact ⟨Iff.rfl, rfl, Nat.zero_le _, iff_of_false nofun h, fun hno => absurd hno h, fun _ hno => nomatch hno⟩

/-- `dti_conn_entity_connected` keeps the levels, and reports the last peer. -/
theorem Channel.Sound.entityConnected (h : c.Sound) (n : Nat) (e : EntityId) :
    (c.entityConnected n e).1.Sound ∧ Told (c.entityConnected n e).2 ∧ (c.entityConnected n e).1.dtiId = c.dtiId ∧
      ((c.entityConnected n e).1.state = .disconnected → c.state = .disconnected) := by
  unfold Channel.entityConnected
  split
  · exact ⟨h, silent_nil.told, rfl, fun hno => hno⟩
  · rename_i hstate
    simp only
    have ht := h.tuples n
    obtain ⟨hp1, hp2, hp3, hp4, hp5, hp6⟩ := peer_connected (c.tupleList n).peer0 e
    obtain ⟨hq1, hq2, hq3, hq4, hq5, hq6⟩ := peer_connected (c.tupleList n).peer1 e
    generalize (c.tupleList n).peer0.connected e = p at *
    generalize (c.tupleList n).peer1.connected e = q at *
    have hfree0 : p.1.state = .disconnected → p.1.entId = none := by
      rw [hp1, hp2]
      exact ht.free0
    have hfree1 : q.1.state = .disconnected → q.1.entId = none := by
      rw [hq1, hq2]
      exact ht.free1
    by_cases hcount : p.2 + q.2 = 2
    · rw [if_pos hcount]
      have hp := hp4.1 (by omega)
      have hq := hq4.1 (by omega)
      obtain ⟨t, hteq⟩ : ∃ t : Tuple, ⟨(c.tupleList n).tupleNo, .connected, p.1, q.1⟩ = t := ⟨_, rfl⟩
      have htn : t.Sound := by
        rw [← hteq]
        refine ⟨iff_of_true rfl ⟨hp, hq⟩, iff_of_false nofun fun hno => ?_, hfree0, hfree1⟩
        rw [hp] at hno
        exact absurd hno.1 nofun
      have htstate : t.state = .connected := by rw [← hteq]
      rw [hteq]
      have hn : n < c.numOfConns := by
        refine Nat.lt_of_not_le fun hno => ?_
        have := (hp1.2 (ht.down.1 (h.unused n hno)).1).symm.trans hp
        cases this
      have hupc : (c.setTuple n t).Up ↔ ∀ i, i < c.numOfConns → ((c.setTuple n t).tupleList i).state = .connected :=
        and_iff_right (Nat.lt_of_le_of_lt (Nat.zero_le n) hn)
      split
      · rename_i hconn
        have hall : ∀ i, i < c.numOfConns → ((c.setTuple n t).tupleList i).state = .connected := by
          unfold Channel.isConnected at hconn
          rw [Bool.and_eq_true, Bool.or_eq_true, decide_eq_true_eq, decide_eq_true_eq] at hconn
          exact countTuples_eq.1 (hconn.2.resolve_left hstate)
        refine ⟨⟨tuples_set h htn, fun i hi => ?_, nofun, fun _ => ⟨n, hn, ?_⟩, iff_of_true rfl (hupc.2 hall), h.kept⟩,
          told_enter (c.setTuple n t) (p := []) (.inl rfl) hstate silent_nil, rfl, nofun⟩
        · change ((c.setTuple n t).tupleList i).state = _
          rw [setTuple_other (Nat.ne_of_gt (Nat.lt_of_lt_of_le hn hi))]
          exact h.unused i hi
        · change ((c.setTuple n t).tupleList n).state ≠ _
          rw [hall n hn]
          exact nofun
      · rename_i hconn
        refine ⟨⟨tuples_set h htn, fun i hi => ?_, h.idle, fun _ => ⟨n, hn, ?_⟩, iff_of_false hstate fun hno => ?_, h.kept⟩,
          silent_nil.told, rfl, fun hno => hno⟩
        · rw [setTuple_other (Nat.ne_of_gt (Nat.lt_of_lt_of_le hn hi))]
          exact h.unused i hi
        · rw [setTuple_same, htstate]
          exact nofun
        · -- if the tuple has been connected before, so has been the channel, and otherwise the entity is one of its peers
          rw [hupc] at hno
          by_cases hold : (c.tupleList n).state = .connected
          · refine hstate (h.up.2 ⟨Nat.lt_of_le_of_lt (Nat.zero_le n) hn, fun i hi => ?_⟩)
            rw [← states_same (htstate.trans hold.symm) i]
            exact hno i hi
          · have hfound : p.1.entId = some e ∨ q.1.entId = some e := by
              rw [hp2, hq2]
              rcases Classical.not_and_iff_not_or_not.1 (fun hboth => hold (ht.up.2 hboth)) with h0 | h1
              · exact .inl (hp6 h0 (by omega))
              · exact .inr (hq6 h1 (by omega))
            refine hconn ?_
            unfold Channel.isConnected
            rw [Bool.and_eq_true, Bool.or_eq_true, List.any_eq_true]
            refine ⟨⟨n, List.mem_range.2 hn, ?_⟩, .inr (decide_eq_true (countTuples_eq.2 hno))⟩
            rw [setTuple_same, ← hteq, Bool.or_eq_true, decide_eq_true_eq, decide_eq_true_eq]
            exact hfound
    · rw [if_neg hcount]
      refine ⟨sound_states h ⟨?_, ?_, hfree0, hfree1⟩ rfl, silent_nil.told, rfl, fun hno => hno⟩
      · refine iff_of_false (fun hno => hcount ?_) fun hno => hcount ?_
        · have hboth := ht.up.1 hno
          have h0 := hp4.2 (by rw [hp5 hboth.1]; exact hboth.1)
          have h1 := hq4.2 (by rw [hq5 hboth.2]; exact hboth.2)
          omega
        · have h0 := hp4.2 hno.1
          have h1 := hq4.2 hno.2
          omega
      · change (c.tupleList n).state = .disconnected ↔ p.1.state = .disconnected ∧ q.1.state = .disconnected
        rw [hp1, hq1]
        exact ht.down

private theorem peer_disconnected (p : Peer) (e : EntityId) (h : p.state = .disconnected → p.entId = none) :
    ((p.disconnected e).1.state = .disconnected ↔ p.state = .disconnected ∨ p.entId = some e) ∧
    ((p.disconnected e).1.state = .disconnected → (p.disconnected e).1.entId = none) ∧
    ((p.disconnected e).2 = if (p.disconnected e).1.state = .disconnected then 1 else 0) ∧
    (p.entId = some e → (p.disconnected e).1.state = .disconnected) ∧ (p.entId ≠ some e → (p.disconnected e).1 = p) := by
  unfold Peer.disconnected
  simp only
  split
  · rename_i he
    have hne : p.state ≠ .disconnected := fun hno => absurd (he.symm.trans (h hno)) nofun
    rw [if_neg hne]
    exact ⟨iff_of_true rfl (.inr he), fun _ => rfl, rfl, fun _ => rfl, fun hno => absurd he hno⟩
  · rename_i he
    exact ⟨(or_iff_left he).symm, h, rfl, fun hno => absurd hno he, fun _ => rfl⟩

/-- This confirmation is the last one before the channel is disconnected. -/
def Channel.closedBy (c : Channel) (tupleNo : Nat) (entId : EntityId) : Bool :=
  decide (c.state ≠ .disconnected) && (List.range c.numOfConns).all fun i =>
    if i = tupleNo then
      decide ((c.tupleList i).peer0.state = .disconnected ∨ (c.tupleList i).peer0.entId = some entId) &&
      decide ((c.tupleList i).peer1.state = .disconnected ∨ (c.tupleList i).peer1.entId = some entId)
    else decide ((c.tupleList i).state = .disconnected)

/-- The tuple after the loop over the peers. -/
private structure Marks (c : Channel) (n : Nat) (e : EntityId) (d : Channel) (k : Nat) : Prop where
  same : c.Same d
  others : ∀ i, i ≠ n → d.tupleList i = c.tupleList i
  free0 : (d.tupleList n).peer0.state = .disconnected → (d.tupleList n).peer0.entId = none
  free1 : (d.tupleList n).peer1.state = .disconnected → (d.tupleList n).peer1.entId = none
  down0 : (d.tupleList n).peer0.state = .disconnected ↔
    (c.tupleList n).peer0.state = .disconnected ∨ (c.tupleList n).peer0.entId = some e
  down1 : (d.tupleList n).peer1.state = .disconnected ↔
    (c.tupleList n).peer1.state = .disconnected ∨ (c.tupleList n).peer1.entId = some e
  count : k = 2 ↔ (d.tupleList n).peer0.state = .disconnected ∧ (d.tupleList n).peer1.state = .disconnected
  change : (d.tupleList n = c.tupleList n ∧ d.state = c.state) ∨
    ((d.tupleList n).state = .disconnecting ∧ d.state ≠ .connected ∧ (c.state ≠ .disconnected → d.state ≠ .disconnected) ∧
      ((d.tupleList n).peer0.state = .disconnected ∨ (d.tupleList n).peer1.state = .disconnected) ∧
      (c.tupleList n).state ≠ .disconnected)

private theorem markDisconnected_spec (h : (c.tupleList n).Sound) (e : EntityId) :
    Marks c n e (c.markDisconnected n e).1 (c.markDisconnected n e).2.2 ∧ Silent (c.markDisconnected n e).2.1 := by
  obtain ⟨hp1, hp2, hp3, hp4, hp5⟩ := peer_disconnected (c.tupleList n).peer0 e h.free0
  obtain ⟨hq1, hq2, hq3, hq4, hq5⟩ := peer_disconnected (c.tupleList n).peer1 e h.free1
  have hcount : ((c.tupleList n).peer0.disconnected e).2 + ((c.tupleList n).peer1.disconnected e).2 = 2 ↔
      ((c.tupleList n).peer0.disconnected e).1.state = .disconnected ∧
      ((c.tupleList n).peer1.disconnected e).1.state = .disconnected := by
    rw [hp3, hq3]
    split <;> split <;> simp_all
  unfold Channel.markDisconnected
  simp only
  generalize (c.tupleList n).peer0.disconnected e = p at *
  generalize (c.tupleList n).peer1.disconnected e = q at *
  split
  · rename_i he
    have hdown : p.1.state = .disconnected ∨ q.1.state = .disconnected := he.imp hp4 hq4
    have hne : (c.tupleList n).state ≠ .disconnected := by
      intro hno
      have hboth := h.down.1 hno
      rcases he with he | he
      · rw [h.free0 hboth.1] at he
        cases he
      · rw [h.free1 hboth.2] at he
        cases he
    split
    · refine ⟨⟨⟨rfl, rfl, rfl⟩, fun i hi => setTuple_other hi, ?_, ?_, ?_, ?_, ?_, .inr ⟨?_, nofun, fun _ => nofun, ?_, hne⟩⟩,
        silent_enter _ (.inr rfl)⟩
      all_goals simp only [enter_tuples, setTuple_same]
      exacts [hp2, hq2, hp1, hq1, hcount, hdown]
    · rename_i hstate
      refine ⟨⟨⟨rfl, rfl, rfl⟩, fun i hi => setTuple_other hi, ?_, ?_, ?_, ?_, ?_, .inr ⟨?_, hstate, fun hd => hd, ?_, hne⟩⟩,
        silent_nil⟩
      all_goals simp only [setTuple_same]
      exacts [hp2, hq2, hp1, hq1, hcount, hdown]
  · rename_i he
    rw [not_or] at he
    have hpeer : ({ c.tupleList n with peer0 := p.1, peer1 := q.1 } : Tuple) = c.tupleList n := by
      rw [hp5 he.1, hq5 he.2]
    refine ⟨⟨⟨rfl, rfl, rfl⟩, fun i hi => setTuple_other hi, ?_, ?_, ?_, ?_, ?_, .inl ⟨?_, rfl⟩⟩, silent_nil⟩
    all_goals simp only [setTuple_same]
    exacts [hp2, hq2, hp1, hq1, hcount, hpeer]

private theorem closedBy_iff {e : EntityId} (hs : c.state ≠ .disconnected) {k : Nat} (hd : Marks c n e d k) :
    c.closedBy n e = true ↔ ∀ i, i < c.numOfConns → if i = n then k = 2 else (d.tupleList i).state = .disconnected := by
  unfold Channel.closedBy
  rw [Bool.and_eq_true, decide_eq_true_eq, List.all_eq_true]
  refine (and_iff_right hs).trans (forall_congr' fun i => ?_)
  rw [List.mem_range]
  refine imp_congr_right fun _ => ?_
  by_cases hi : i = n
  · rw [if_pos hi, if_pos hi, hi, Bool.and_eq_true, decide_eq_true_eq, decide_eq_true_eq, hd.count, hd.down0, hd.down1]
  · rw [if_neg hi, if_neg hi, decide_eq_true_eq, hd.others i hi]

/-- `dti_conn_entity_disconnected` keeps the levels, and reports the last peer. -/
theorem Channel.Sound.entityDisconnected (h : c.Sound) (n : Nat) (e : EntityId) :
    (c.entityDisconnected n e).1.Sound ∧ Told (c.entityDisconnected n e).2.1 ∧ (c.entityDisconnected n e).1.dtiId = c.dtiId ∧
      (c.entityDisconnected n e).2.2 = c.closedBy n e ∧
      ((c.entityDisconnected n e).1.state = .disconnected ↔ c.state = .disconnected ∨ (c.entityDisconnected n e).2.2 = true) := by
  unfold Channel.entityDisconnected
  split
  · rename_i hs
    have hno : c.closedBy n e = false := by
      unfold Channel.closedBy
      rw [decide_eq_false (fun hne => hne hs), Bool.false_and]
    exact ⟨h, silent_nil.told, rfl, hno.symm, iff_of_true hs (.inl hs)⟩
  · rename_i hs
    simp only
    obtain ⟨hd, ho⟩ := markDisconnected_spec (h.tuples n) e
    have hclosed := closedBy_iff hs hd
    obtain ⟨d, hdeq⟩ : ∃ d, (c.markDisconnected n e).1 = d := ⟨_, rfl⟩
    obtain ⟨k, hkeq⟩ : ∃ k, (c.markDisconnected n e).2.2 = k := ⟨_, rfl⟩
    rw [hdeq, hkeq] at hd hclosed ⊢
    have ht := h.tuples n
    have hds : d.state ≠ .disconnected := by
      rcases hd.change with ⟨-, hst⟩ | ⟨-, -, hst, -⟩
      · rw [hst]
        exact hs
      · exact hst hs
    have hnum : d.numOfConns = c.numOfConns := hd.same.num
    -- a tuple that is not in use is not changed, and both of its peers are counted
    have hunused : c.numOfConns ≤ n → k = 2 ∧ d.tupleList n = c.tupleList n ∧ d.state = c.state := by
      intro hn
      have hstate := h.unused n hn
      have hboth := ht.down.1 hstate
      refine ⟨hd.count.2 ⟨hd.down0.2 (.inl hboth.1), hd.down1.2 (.inl hboth.2)⟩, ?_⟩
      exact hd.change.resolve_right fun hno => hno.2.2.2.2 hstate
    by_cases hk : k = 2
    · rw [if_pos hk]
      obtain ⟨h0, h1⟩ := hd.count.1 hk
      obtain ⟨t, hteq⟩ : ∃ t : Tuple, { d.tupleList n with state := .disconnected } = t := ⟨_, rfl⟩
      have htn : t.Sound := by
        rw [← hteq]
        refine ⟨iff_of_false nofun fun hno => ?_, iff_of_true rfl ⟨h0, h1⟩, hd.free0, hd.free1⟩
        exact absurd (h0.symm.trans hno.1) nofun
      have htstate : t.state = .disconnected := by rw [← hteq]
      have htuples : ∀ i, ((d.setTuple n t).tupleList i).Sound := by
        intro i
        by_cases hi : i = n
        · rw [hi, setTuple_same]
          exact htn
        · rw [setTuple_other hi, hd.others i hi]
          exact h.tuples i
      have hfree : ∀ i, c.numOfConns ≤ i → ((d.setTuple n t).tupleList i).state = .disconnected := by
        intro i hi
        by_cases hin : i = n
        · rw [hin, setTuple_same, htstate]
        · rw [setTuple_other hin, hd.others i hin]
          exact h.unused i hi
      have hall : c.closedBy n e = true ↔ ∀ i, i < c.numOfConns → ((d.setTuple n t).tupleList i).state = .disconnected := by
        rw [hclosed]
        refine forall_congr' fun i => imp_congr_right fun _ => ?_
        by_cases hi : i = n
        · rw [if_pos hi, hi, setTuple_same]
          exact iff_of_true hk htstate
        · rw [if_neg hi, setTuple_other hi]
      have hdisc : (d.setTuple n t).isDisconnected = c.closedBy n e := by
        unfold Channel.isDisconnected
        rw [decide_eq_false (show ¬ (d.setTuple n t).state = .disconnected from hds), Bool.false_or, Bool.eq_iff_iff,
          decide_eq_true_eq, countTuples_eq, hall]
        change (∀ i, i < d.numOfConns → _) ↔ _
        rw [hnum]
      rw [hteq, hdisc]
      by_cases hc : c.closedBy n e = true
      · rw [if_pos hc, hc]
        have hdown := hall.1 hc
        refine ⟨⟨htuples, fun i _ => ?_, fun _ => rfl, fun hno => absurd rfl hno,
          iff_of_false nofun fun hno => absurd hno.1 (Nat.lt_irrefl 0), hd.same.erase.trans h.kept⟩, ?_, hd.same.dtiId, rfl,
          iff_of_true rfl (.inr rfl)⟩
        · rcases Nat.lt_or_ge i c.numOfConns with hi | hi
          · exact hdown i hi
          · exact hfree i hi
        · exact told_enter (d.setTuple n t) (.inr rfl) hds ho
      · have hfalse : c.closedBy n e = false := by rwa [Bool.not_eq_true] at hc
        rw [if_neg hc, hfalse]
        obtain ⟨i, hi, hne⟩ : ∃ i, i < c.numOfConns ∧ ((d.setTuple n t).tupleList i).state ≠ .disconnected := by
          refine Classical.byContradiction fun hno => hc (hall.2 fun i hi => Classical.byContradiction fun hne => hno ⟨i, hi, hne⟩)
        refine ⟨⟨htuples, fun i hi => hfree i (hnum ▸ hi), fun hno => absurd hno hds, fun _ => ⟨i, hnum ▸ hi, hne⟩, ?_,
          hd.same.erase.trans h.kept⟩, ho.told, hd.same.dtiId, rfl, iff_of_false hds (not_or.2 ⟨hs, nofun⟩)⟩
        rcases hd.change with ⟨hsame, hst⟩ | ⟨-, hst, -, -, hne'⟩
        · have hts : ∀ i, ((d.setTuple n t).tupleList i).state = (c.tupleList i).state := by
            intro i
            by_cases hin : i = n
            · rw [hin, setTuple_same, htstate]
              rw [hsame] at h0 h1
              exact (ht.down.2 ⟨h0, h1⟩).symm
            · rw [setTuple_other hin, hd.others i hin]
          change d.state = .connected ↔ 0 < d.numOfConns ∧ ∀ i, i < d.numOfConns → _
          rw [hst, hnum, h.up]
          exact and_congr_right fun _ => forall_congr' fun i => imp_congr_right fun _ => by rw [hts i]
        · have hn : n < c.numOfConns := Nat.lt_of_not_le fun hno => hne' (h.unused n hno)
          refine iff_of_false hst fun hno => ?_
          have := hno.2 n (hnum ▸ hn)
          rw [setTuple_same, htstate] at this
          cases this
    · rw [if_neg hk]
      have hn : n < c.numOfConns := Nat.lt_of_not_le fun hno => hk (hunused hno).1
      have hno : c.closedBy n e = false := by
        rw [← Bool.not_eq_true, hclosed]
        intro hall
        have := hall n hn
        rw [if_pos rfl] at this
        exact hk this
      rw [hno]
      have htn : (d.tupleList n).Sound ∧ (d.tupleList n).state ≠ .disconnected := by
        rcases hd.change with ⟨hsame, -⟩ | ⟨hst, -, -, hdown, -⟩
        · rw [hsame]
          refine ⟨ht, fun hno => hk (hd.count.2 ?_)⟩
          rw [hsame]
          exact ht.down.1 hno
        · rw [hst]
          refine ⟨⟨?_, ?_, hd.free0, hd.free1⟩, nofun⟩
          · rw [hst]
            refine iff_of_false nofun fun hno => ?_
            rcases hdown with h0 | h1
            · exact absurd (h0.symm.trans hno.1) nofun
            · exact absurd (h1.symm.trans hno.2) nofun
          · rw [hst]
            exact iff_of_false nofun fun hno => hk (hd.count.2 hno)
      refine ⟨⟨fun i => ?_, fun i hi => ?_, fun hno => absurd hno hds, fun _ => ⟨n, hnum ▸ hn, htn.2⟩, ?_,
        hd.same.erase.trans h.kept⟩, ho.told, hd.same.dtiId, rfl, iff_of_false hds (not_or.2 ⟨hs, nofun⟩)⟩
      · by_cases hi : i = n
        · rw [hi]
          exact htn.1
        · rw [hd.others i hi]
          exact h.tuples i
      · rw [hnum] at hi
        rw [hd.others i (Nat.ne_of_gt (Nat.lt_of_lt_of_le hn hi))]
        exact h.unused i hi
      · rcases hd.change with ⟨hsame, hst⟩ | ⟨hst', hst, -⟩
        · have hts : d.tupleList = c.tupleList := by
            funext i
            by_cases hin : i = n
            · rw [hin, hsame]
            · exact hd.others i hin
          unfold Channel.Up
          rw [hst, hnum, hts]
          exact h.up
        · refine iff_of_false hst fun hno => ?_
          have := hno.2 n (hnum ▸ hn)
          rw [hst'] at this
          cases this

end

end Citrine.Dti
