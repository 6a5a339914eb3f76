import Citrine.Dl.Uplink

/-!
# The receiving side of a channel

What one event does to the part of a channel that reassembles downlink messages: whether the link is live, V(R),
and the partial message.  Four kinds of events are told apart.  A frame opens the link (`Opens`), an I or S
frame is handled on an established link (`Transfers`), and everything else is quiet: it may end the link, but if
the link is live afterwards it was live before and neither V(R) nor the partial message has changed
(`Quiet`).
-/

namespace Citrine.Dl

/-! ### Events of a channel -/

/-- What can happen to the channel of one SAPI.  `resumeReq` is a resumption or a reconnection; with
`dcch3Init` and `dcch3Enable` the channel of SAPI 0 disables and enables that of SAPI 3. -/
inductive Event where
  | frame (ch : ChType) (f : Frame)
  | uplink (ch : ChType) (dlActive displaced : Bool)
  | dataReq (m : Msg)
  | establishReq (m : Msg)
  | resumeReq (m : Msg)
  | suspendReq
  | releaseReq (localEnd : Bool)
  | mdlReleaseReq
  | dcch3Init
  | dcch3Enable
  deriving DecidableEq

/-- The primitives and the uplink frame of one event. -/
structure Output where
  prims : List Prim
  frame : Option Frame

/-- One event; the signals of an interrupt are served before the next event. -/
def step (sapi : Sapi) (e : Event) (c : Chan) : Chan × Output :=
  match e with
  | .frame ch f =>
    let (c, sigs) := dlDownlink ch sapi f c
    let (c, prims) := serve sapi sigs c
    (c, ⟨prims, none⟩)
  | .uplink ch dlActive displaced =>
    let (c, f, sigs) := dlUplink ch sapi dlActive displaced c
    let (c, prims) := serve sapi sigs c
    (c, ⟨prims, f⟩)
  | .dataReq m => (dataReq sapi m c, ⟨[], none⟩)
  | .establishReq m => let (c, prims) := establishReq sapi m c; (c, ⟨prims, none⟩)
  | .resumeReq m =>
    match sapi with
    | .sapi0 => (dcch0ResumeReconnectReq m c, ⟨[], none⟩)
    | .sapi3 => (c, ⟨[], none⟩)
  | .suspendReq =>
    match sapi with
    | .sapi0 => (dcch0SuspendReq c, ⟨[], none⟩)
    | .sapi3 => (c, ⟨[], none⟩)
  | .releaseReq localEnd => let (c, prims) := releaseReq sapi localEnd c; (c, ⟨prims, none⟩)
  | .mdlReleaseReq => let (c, prims) := mdlReleaseReq sapi c; (c, ⟨prims, none⟩)
  | .dcch3Init =>
    match sapi with
    | .sapi0 => (c, ⟨[], none⟩)
    | .sapi3 => (initDlData .sapi3 c, ⟨[], none⟩)
  | .dcch3Enable =>
    match sapi with
    | .sapi0 => (c, ⟨[], none⟩)
    | .sapi3 => (dcch3Enable c, ⟨[], none⟩)

/-- The messages indicated to RR. -/
def inds (prims : List Prim) : List (List Octet) :=
  prims.filterMap fun p => match p with
    | .dataInd octets => some octets
    | _ => none

@[simp] theorem inds_append (p q : List Prim) : inds (p ++ q) = inds p ++ inds q :=
  List.filterMap_append ..

/-! ### Live links -/

/-- The UA that completes an establishment by the network is still to be sent (SAPI 3 only). -/
def armed (sapi : Sapi) (c : Chan) : Bool :=
  sapi == .sapi3 && c.cch.vtx == .uaCmd &&
    (c.state == .disabled || c.state == .idleDl || c.state == .contentionResolution)

/-- The link is established, or will be with the next UA. -/
def live (sapi : Sapi) (c : Chan) : Bool := c.state.established || armed sapi c

/-- `c'` after an event that neither opens the link nor transfers a frame on it. -/
structure Quiet (sapi : Sapi) (c c' : Chan) : Prop where
  alive : live sapi c' → live sapi c
  vr : live sapi c' → c'.cch.vr = c.cch.vr
  inMsg : live sapi c' → c'.inMsg = c.inMsg

theorem Quiet.refl (sapi : Sapi) (c : Chan) : Quiet sapi c c := ⟨id, fun _ => rfl, fun _ => rfl⟩

theorem Quiet.trans {sapi : Sapi} {a b c : Chan} (h : Quiet sapi a b) (h' : Quiet sapi b c) :
    Quiet sapi a c :=
  ⟨fun hl => h.alive (h'.alive hl), fun hl => (h'.vr hl).trans (h.vr (h'.alive hl)),
    fun hl => (h'.inMsg hl).trans (h.inMsg (h'.alive hl))⟩

theorem Quiet.of_dead {sapi : Sapi} {c c' : Chan} (h : live sapi c' = false) : Quiet sapi c c' :=
  ⟨by simp [h], by simp [h], by simp [h]⟩

private theorem live_initDlData (sapi : Sapi) (c : Chan) : live sapi (initDlData sapi c) = false := by
  cases sapi <;> rfl

private theorem Quiet.init {sapi : Sapi} {c c' : Chan} : Quiet sapi c (initDlData sapi c') :=
  .of_dead (live_initDlData sapi c')

/-! ### Requests are quiet -/

private theorem releaseReq_quiet (sapi : Sapi) (localEnd : Bool) (c : Chan) :
    Quiet sapi c (releaseReq sapi localEnd c).1 ∧ inds (releaseReq sapi localEnd c).2 = [] := by
  unfold releaseReq confirmRelease
  split
  · cases sapi <;> exact ⟨.init, rfl⟩
  · split
    iterate 3
      split
      · exact ⟨⟨id, fun _ => rfl, fun _ => rfl⟩, rfl⟩
      · exact ⟨.of_dead (by simp [live, comPrepareDISC, ChState.established, armed]), rfl⟩
    · exact ⟨⟨id, fun _ => rfl, fun _ => rfl⟩, rfl⟩
    · exact ⟨.init, rfl⟩

private theorem drrDlReleaseCnf_quiet (sapi : Sapi) (init : Bool) (c : Chan) :
    Quiet sapi c (drrDlReleaseCnf sapi init c).1 ∧ inds (drrDlReleaseCnf sapi init c).2 = [] := by
  unfold drrDlReleaseCnf
  cases init
  · exact ⟨.refl _ _, rfl⟩
  · exact ⟨.init, rfl⟩

private theorem drrDlReleaseInd_quiet (sapi : Sapi) (cs : Option DlCause) (init : Bool) (c : Chan) :
    Quiet sapi c (drrDlReleaseInd sapi cs init c).1 ∧ inds (drrDlReleaseInd sapi cs init c).2 = [] := by
  unfold drrDlReleaseInd
  cases init
  · exact ⟨⟨id, fun _ => rfl, fun _ => rfl⟩, rfl⟩
  · exact ⟨.init, rfl⟩

private theorem mdlReleaseReq_quiet (sapi : Sapi) (c : Chan) :
    Quiet sapi c (mdlReleaseReq sapi c).1 ∧ inds (mdlReleaseReq sapi c).2 = [] := by
  unfold mdlReleaseReq
  split
  · exact drrDlReleaseCnf_quiet ..
  · exact drrDlReleaseCnf_quiet ..
  · exact drrDlReleaseCnf_quiet ..
  · exact drrDlReleaseInd_quiet ..
  · exact drrDlReleaseInd_quiet ..
  · exact ⟨.refl _ _, rfl⟩

private theorem live_prepareSABM (sapi : Sapi) (c : Chan) : live sapi (prepareSABM c) = false := by
  simp [live, prepareSABM, ChState.established, armed]

private theorem dcch0EstablishReq_quiet (m : Msg) (c : Chan) :
    Quiet .sapi0 c (dcch0EstablishReq m c).1 ∧ inds (dcch0EstablishReq m c).2 = [] := by
  unfold dcch0EstablishReq
  have hu : Quiet .sapi0 c { c with unserved := comQueueAwaitingTransmission c.queue } :=
    ⟨id, fun _ => rfl, fun _ => rfl⟩
  have hm := mdlReleaseReq_quiet .sapi0 { c with unserved := comQueueAwaitingTransmission c.queue }
  simp only
  split
  · exact ⟨.of_dead (live_prepareSABM _ _), rfl⟩
  iterate 2
    split
    · exact ⟨.of_dead (live_prepareSABM _ _), rfl⟩
    · exact ⟨hu.trans hm.1, hm.2⟩
  · exact ⟨hu.trans hm.1, hm.2⟩

private theorem establishReq_quiet (sapi : Sapi) (m : Msg) (c : Chan) :
    Quiet sapi c (establishReq sapi m c).1 ∧ inds (establishReq sapi m c).2 = [] := by
  unfold establishReq
  cases sapi
  · exact dcch0EstablishReq_quiet m c
  · simp only
    split
    · unfold dcch3EstablishReq
      split
      · exact ⟨.of_dead (live_prepareSABM _ _), rfl⟩
      · exact ⟨.of_dead (live_prepareSABM _ _), rfl⟩
      · exact ⟨.of_dead (live_prepareSABM _ _), rfl⟩
      · exact ⟨.of_dead (live_prepareSABM _ _), rfl⟩
      · exact ⟨.refl _ _, rfl⟩
    · exact ⟨.refl _ _, rfl⟩

/-! ### Signals -/

/-- A signal that takes no part in the reassembly. -/
def Signal.control : Signal → Bool
  | .concatenate _ | .dataInd => false
  | _ => true

/-- A signal that initialises the channel. -/
def Signal.inits : Signal → Bool
  | .releaseInd _ init | .releaseCnf init => init
  | _ => false

private theorem handleSignal_quiet {sapi : Sapi} {s : Signal} (h : s.control) (c : Chan) :
    Quiet sapi c (handleSignal sapi s c).1 ∧ inds (handleSignal sapi s c).2 = [] := by
  cases s with
  | concatenate f => cases h
  | dataInd => cases h
  | dataCnf =>
    simp only [handleSignal, drrDlDataCnf]
    split
    · exact ⟨⟨id, fun _ => rfl, fun _ => rfl⟩, rfl⟩
    · exact ⟨.refl _ _, rfl⟩
  | errorInd =>
    simp only [handleSignal, drrErrorInd]
    have hi := drrDlReleaseInd_quiet sapi none false c
    split
    · have hr := releaseReq_quiet sapi false (drrDlReleaseInd sapi none false c).1
      exact ⟨hi.1.trans hr.1, by rw [inds_append, hi.2, hr.2]; rfl⟩
    · exact hi
  | establishCnf => exact ⟨.refl _ _, rfl⟩
  | establishInd u => exact ⟨.refl _ _, rfl⟩
  | releaseInd cs init => exact drrDlReleaseInd_quiet ..
  | releaseCnf init => exact drrDlReleaseCnf_quiet ..

theorem serve_quiet {sapi : Sapi} {sigs : List Signal} (h : ∀ s ∈ sigs, s.control) (c : Chan) :
    Quiet sapi c (serve sapi sigs c).1 ∧ inds (serve sapi sigs c).2 = [] := by
  induction sigs generalizing c with
  | nil => exact ⟨.refl _ _, rfl⟩
  | cons s rest ih =>
    have hs : Quiet sapi c (handleSignal sapi s c).1 ∧ inds (handleSignal sapi s c).2 = [] :=
      handleSignal_quiet (h s (by simp)) c
    have hr := ih (fun x hx => h x (by simp [hx])) (handleSignal sapi s c).1
    exact ⟨hs.1.trans hr.1, by simp only [serve, inds_append, hs.2, hr.2]; rfl⟩

private theorem serve_inits {sapi : Sapi} {sigs : List Signal} (h : ∀ s ∈ sigs, s.control)
    (hi : ∃ s ∈ sigs, s.inits) (c : Chan) : live sapi (serve sapi sigs c).1 = false := by
  induction sigs generalizing c with
  | nil => simp at hi
  | cons s rest ih =>
    have hrest : ∀ x ∈ rest, x.control := fun x hx => h x (by simp [hx])
    obtain ⟨x, hx, hxi⟩ := hi
    rw [List.mem_cons] at hx
    rcases hx with rfl | hx
    · have hd : live sapi (handleSignal sapi x c).1 = false := by
        cases x with
        | releaseInd cs init =>
          simp only [Signal.inits] at hxi
          subst hxi
          exact live_initDlData sapi _
        | releaseCnf init =>
          simp only [Signal.inits] at hxi
          subst hxi
          exact live_initDlData sapi _
        | _ => cases hxi
      have hq : Quiet sapi (handleSignal sapi x c).1 (serve sapi (x :: rest) c).1 :=
        (serve_quiet hrest (handleSignal sapi x c).1).1
      cases hl : live sapi (serve sapi (x :: rest) c).1 with
      | false => rfl
      | true => rw [← hd]; exact (hq.alive hl).symm
    · exact ih hrest ⟨x, hx, hxi⟩ _

theorem serve_append (sapi : Sapi) (a b : List Signal) (c : Chan) :
    serve sapi (a ++ b) c =
      ((serve sapi b (serve sapi a c).1).1, (serve sapi a c).2 ++ (serve sapi b (serve sapi a c).1).2) := by
  induction a generalizing c with
  | nil => rfl
  | cons s rest ih => simp [serve, ih]

/-- An interrupt that leaves only control signals, and a quiet channel or one that is initialised by them. -/
def Calm (sapi : Sapi) (c c' : Chan) (sigs : List Signal) : Prop :=
  (∀ s ∈ sigs, s.control) ∧ (Quiet sapi c c' ∨ ∃ s ∈ sigs, s.inits)

theorem Calm.serve {sapi : Sapi} {c c' : Chan} {sigs : List Signal} (h : Calm sapi c c' sigs) :
    Quiet sapi c (serve sapi sigs c').1 ∧ inds (serve sapi sigs c').2 = [] := by
  obtain ⟨hc, hq | hi⟩ := h
  · exact ⟨hq.trans (serve_quiet hc c').1, (serve_quiet hc c').2⟩
  · exact ⟨.of_dead (serve_inits hc hi c'), (serve_quiet hc c').2⟩

private theorem Calm.trans {sapi : Sapi} {a b c : Chan} {s t : List Signal} (h : Calm sapi a b s)
    (h' : Calm sapi b c t) : Calm sapi a c (s ++ t) := by
  refine ⟨fun x hx => (List.mem_append.1 hx).elim (h.1 x) (h'.1 x), ?_⟩
  rcases h.2 with hq | ⟨x, hx, hi⟩
  · rcases h'.2 with hq' | ⟨x, hx, hi⟩
    · exact .inl (hq.trans hq')
    · exact .inr ⟨x, List.mem_append_right _ hx, hi⟩
  · exact .inr ⟨x, List.mem_append_left _ hx, hi⟩

theorem Calm.of_quiet {sapi : Sapi} {c c' : Chan} (h : Quiet sapi c c') : Calm sapi c c' [] :=
  ⟨by simp, .inl h⟩

/-! ### Uplink opportunities are quiet -/

/-- A choice of `dl_uplink`.  The UA that answers a DISC leaves the channel in the idle state with `vtx` still
set; only building the frame clears it. -/
private def Chosen (ch : ChType) (sapi : Sapi) (c : Chan) (r : Chan × Send × List Signal) : Prop :=
  Calm sapi c r.1 r.2.2 ∨
    ((∀ s ∈ r.2.2, s.control) ∧ r.2.1 = .uaF ∧ r.1.state.established = false ∧ ch ≠ .sacch)

private theorem Calm.chosen {ch : ChType} {sapi : Sapi} {a b : Chan} {s : List Signal}
    {r : Chan × Send × List Signal} (h : Calm sapi a b s) (h' : Chosen ch sapi b r) :
    Chosen ch sapi a (r.1, r.2.1, s ++ r.2.2) := by
  rcases h' with h' | ⟨hc, hu, he, hs⟩
  · exact .inl (h.trans h')
  · exact .inr ⟨fun x hx => (List.mem_append.1 hx).elim (h.1 x) (hc x), hu, he, hs⟩

private theorem startT200_quiet (ch : ChType) (sapi : Sapi) (c : Chan) : Quiet sapi c (startT200 ch sapi c) := by
  unfold startT200
  split <;> exact ⟨id, fun _ => rfl, fun _ => rfl⟩

private theorem countT200_quiet (sapi : Sapi) (c : Chan) : Quiet sapi c (countT200 c) := by
  unfold countT200
  split <;> exact ⟨id, fun _ => rfl, fun _ => rfl⟩

@[simp] private theorem startT200_state (ch : ChType) (sapi : Sapi) (c : Chan) :
    (startT200 ch sapi c).state = c.state := by
  unfold startT200
  split <;> rfl

@[simp] private theorem startT200_vtx (ch : ChType) (sapi : Sapi) (c : Chan) :
    (startT200 ch sapi c).cch.vtx = c.cch.vtx := by
  unfold startT200
  split <;> rfl

private theorem delayedReleaseInd_calm (sapi : Sapi) (c : Chan) :
    Calm sapi c (delayedReleaseInd c).1 (delayedReleaseInd c).2 := by
  unfold delayedReleaseInd
  split
  · refine ⟨?_, .inl ⟨id, fun _ => rfl, fun _ => rfl⟩⟩
    simp only
    split <;> simp [Signal.control]
  · exact .of_quiet (.refl _ _)

private theorem uplinkAwaitingRelease_chosen (ch : ChType) (sapi : Sapi) (c : Chan) :
    Chosen ch sapi c (uplinkAwaitingRelease ch sapi c) := by
  have hq := startT200_quiet ch sapi c
  unfold uplinkAwaitingRelease
  simp only
  split
  · exact .inl (.of_quiet hq)
  · split
    · exact .inl ⟨by simp [Signal.control], .inr ⟨_, List.mem_singleton.2 rfl, rfl⟩⟩
    · exact .inr ⟨by simp, rfl, rfl, by assumption⟩
  · exact .inl (.of_quiet hq)

private theorem checkDisc_chosen (ch : ChType) (sapi : Sapi) (send : Send) (c : Chan) :
    Chosen ch sapi c (checkDisc ch sapi send c) := by
  unfold checkDisc
  split
  · have hd : ∀ c', c'.state = .awaitingRelease → Calm sapi c c' [] := fun c' hc' =>
      .of_quiet (.of_dead (by simp [live, hc', ChState.established, armed]))
    have hr : ∀ c', c'.state = .awaitingRelease →
        Chosen ch sapi c (uplinkAwaitingRelease ch sapi c') := fun c' hc' =>
      (hd c' hc').chosen (uplinkAwaitingRelease_chosen ch sapi c')
    simp only
    split <;> exact hr _ rfl
  · exact .inl (.of_quiet (.refl _ _))

private theorem uplinkIdle_chosen (ch : ChType) (sapi : Sapi) {c : Chan}
    (h : c.state = .idleDl ∨ c.state = .disabled) : Chosen ch sapi c (uplinkIdle ch sapi c) := by
  unfold uplinkIdle
  split
  · rename_i hv
    split
    · rename_i hs
      have hl : live sapi c := by
        rcases h with h | h <;> simp [live, armed, hv, hs.1, h]
      exact .inl ⟨by simp [Signal.control], .inl ⟨fun _ => hl, fun _ => rfl, fun _ => rfl⟩⟩
    · exact .inl (.of_quiet (.refl _ _))
  · exact .inl (.of_quiet (.refl _ _))
  · exact .inl (.of_quiet (.refl _ _))

private theorem uplinkAwaitingEstablishment_chosen (ch : ChType) (sapi : Sapi) {c : Chan}
    (h : c.state = .contentionResolution) : Chosen ch sapi c (uplinkAwaitingEstablishment ch sapi c) := by
  have hq := startT200_quiet ch sapi c
  unfold uplinkAwaitingEstablishment
  simp only
  split
  · exact .inl (.of_quiet hq)
  · exact .inl (.of_quiet hq)
  · rename_i hv
    have hl : live .sapi3 (startT200 ch .sapi3 c) := by
      rw [startT200_vtx] at hv
      simp [live, armed, hv, h]
    exact .inl ⟨by simp [Signal.control], .inl ⟨fun _ => hq.alive hl, fun _ => hq.vr hl, fun _ => hq.inMsg hl⟩⟩
  · exact .inl (.of_quiet hq)
  · exact .inl (.of_quiet hq)

private theorem uplinkMfe_chosen (ch : ChType) (sapi : Sapi) (c : Chan) :
    Chosen ch sapi c (uplinkMfe ch sapi c) := by
  have hq := startT200_quiet ch sapi c
  have hf : Quiet sapi c { startT200 ch sapi c with cch.fBitFlag := false } :=
    hq.trans ⟨id, fun _ => rfl, fun _ => rfl⟩
  unfold uplinkMfe
  simp only
  split
  · split
    · exact .inl (.of_quiet hf)
    · split <;> exact .inl (.of_quiet hq)
  · exact .inl (.of_quiet hq)
  · exact .inl (.of_quiet hf)
  · exact .inl (.of_quiet hf)
  · split
    · exact .inl (.of_quiet hq)
    · split
      · exact .inl (.of_quiet hq)
      · exact (Calm.of_quiet hq).chosen (checkDisc_chosen ch _ .empty _)

private theorem uplinkTimerRecovery_chosen (ch : ChType) (sapi : Sapi) (c : Chan) :
    Chosen ch sapi c (uplinkTimerRecovery ch sapi c) := by
  have hq := startT200_quiet ch sapi c
  have hf : Quiet sapi c { startT200 ch sapi c with cch.fBitFlag := false } :=
    hq.trans ⟨id, fun _ => rfl, fun _ => rfl⟩
  unfold uplinkTimerRecovery
  simp only
  split
  · split
    · exact .inl (.of_quiet hf)
    · exact .inl (.of_quiet hq)
  · exact .inl (.of_quiet hq)
  · exact .inl (.of_quiet hf)
  · exact .inl (.of_quiet hf)
  · split
    · exact .inl (.of_quiet hq)
    · split
      · exact .inl (.of_quiet hq)
      · exact (Calm.of_quiet hq).chosen (checkDisc_chosen ch _ .empty _)

private theorem uplinkState_chosen (ch : ChType) (sapi : Sapi) (c : Chan) :
    Chosen ch sapi c (uplinkState ch sapi c) := by
  unfold uplinkState
  split
  · rename_i h
    exact uplinkIdle_chosen ch sapi (.inl h)
  · rename_i h
    exact uplinkAwaitingEstablishment_chosen ch sapi h
  · exact uplinkMfe_chosen ch sapi c
  · exact uplinkTimerRecovery_chosen ch sapi c
  · exact uplinkAwaitingRelease_chosen ch sapi c
  · exact .inl (.of_quiet (.refl _ _))
  · rename_i h
    split
    · exact .inl (.of_quiet (.refl _ _))
    · split
      · exact uplinkIdle_chosen ch _ (.inr h)
      · exact .inl (.of_quiet (.refl _ _))

private theorem t200Expiry_calm (ch : ChType) (sapi : Sapi) (c : Chan) :
    Calm sapi c (t200Expiry ch sapi c).1 (t200Expiry ch sapi c).2 := by
  unfold t200Expiry
  split
  · rename_i h
    unfold repeatSabm
    split
    · refine ⟨by simp [mdlErrorInd, Signal.control], .inl ?_⟩
      simp only
      split <;> refine ⟨fun hl => ?_, fun _ => rfl, fun _ => rfl⟩ <;>
        simpa [live, armed, ChState.established, h] using hl
    · exact .of_quiet (.of_dead (by simp [live, h, ChState.established, armed]))
  · rename_i h
    exact .of_quiet ⟨fun _ => by simp [live, h, ChState.established], fun _ => rfl, fun _ => rfl⟩
  · rename_i h
    have hl : live sapi c := by simp [live, h, ChState.established]
    split
    · split <;> exact ⟨by simp [mdlErrorInd, Signal.control], .inl ⟨fun _ => hl, fun _ => rfl, fun _ => rfl⟩⟩
    · exact .of_quiet ⟨fun _ => hl, fun _ => rfl, fun _ => rfl⟩
  · rename_i h
    split
    · exact ⟨by simp [Signal.control], .inr ⟨_, List.mem_singleton.2 rfl, rfl⟩⟩
    · exact .of_quiet (.of_dead (by simp [live, h, ChState.established, armed]))
  · exact .of_quiet (.refl _ _)

private theorem chooseUplink_chosen (ch : ChType) (sapi : Sapi) (dlActive : Bool) (c : Chan) :
    Chosen ch sapi c (chooseUplink ch sapi dlActive c) := by
  unfold chooseUplink
  simp only
  have h1 := (Calm.of_quiet (countT200_quiet sapi c)).trans (delayedReleaseInd_calm sapi (countT200 c))
  generalize delayedReleaseInd (countT200 c) = d at h1 ⊢
  have h2 := checkDisc_chosen ch sapi
    (if (dlActive && (countT200 c).state == .multipleFrameEstablished) = true then Send.empty else .null) d.1
  generalize checkDisc ch sapi _ d.1 = k at h2 ⊢
  split
  · rename_i hn
    have h2' : Calm sapi d.1 k.1 k.2.2 := by
      rcases h2 with h2 | ⟨-, hu, -, -⟩
      · exact h2
      · rw [hu] at hn
        cases hn
    have h3 : ∀ r : Chan × List Signal, Calm sapi k.1 r.1 r.2 →
        Chosen ch sapi c ((uplinkState ch sapi r.1).1, (uplinkState ch sapi r.1).2.1,
          d.2 ++ k.2.2 ++ r.2 ++ (uplinkState ch sapi r.1).2.2) := by
      intro r hr
      exact ((h1.trans h2').trans hr).chosen (uplinkState_chosen ch sapi r.1)
    split
    · exact h3 _ (t200Expiry_calm ch sapi k.1)
    · exact h3 (k.1, []) (.of_quiet (.refl _ _))
  · exact h1.chosen h2

private theorem buildUplink_quiet (ch : ChType) (sapi : Sapi) (send : Send) (c : Chan) :
    Quiet sapi c (buildUplink ch sapi send c).1 := by
  have hs : ∀ c' : Chan, c'.cch.vtx = .emptyCmd → c'.state = c.state → c'.cch.vr = c.cch.vr →
      c'.inMsg = c.inMsg → Quiet sapi c c' := by
    intro c' hv hst hvr hm
    refine ⟨fun hl => ?_, fun _ => hvr, fun _ => hm⟩
    have he : c.state.established := by simpa [live, armed, hv, hst] using hl
    simp [live, he]
  cases send <;> first | exact .refl _ _ | exact hs _ rfl rfl rfl rfl

/-- An uplink opportunity is quiet. -/
theorem dlUplink_quiet (ch : ChType) (sapi : Sapi) (dlActive displaced : Bool) (c : Chan) :
    let r := dlUplink ch sapi dlActive displaced c
    Quiet sapi c (serve sapi r.2.2 r.1).1 ∧ inds (serve sapi r.2.2 r.1).2 = [] := by
  have hc := chooseUplink_chosen ch sapi dlActive c
  unfold dlUplink
  simp only
  generalize chooseUplink ch sapi dlActive c = r at hc ⊢
  have hb := buildUplink_quiet ch sapi r.2.1 r.1
  rcases hc with hc | ⟨hctl, hu, he, hch⟩
  · split
    · exact hc.serve
    · exact Calm.serve (by simpa using hc.trans (.of_quiet hb))
  · split
    · rename_i hd
      simp only [Bool.and_eq_true, beq_iff_eq] at hd
      exact absurd hd.2 hch
    · refine Calm.serve ⟨hctl, .inl (.of_dead ?_)⟩
      rw [hu]
      simp [buildUplink, live, armed, he]

/-! ### All events but frames -/

/-- The event is a downlink frame. -/
def Event.isFrame : Event → Bool
  | .frame _ _ => true
  | _ => false

private theorem dataReq_quiet (sapi : Sapi) (m : Msg) (c : Chan) : Quiet sapi c (dataReq sapi m c) := by
  unfold dataReq
  split <;> first | exact .refl _ _ | exact ⟨id, fun _ => rfl, fun _ => rfl⟩

private theorem dcch0ResumeReconnectReq_quiet (m : Msg) (c : Chan) :
    Quiet .sapi0 c (dcch0ResumeReconnectReq m c) := by
  unfold dcch0ResumeReconnectReq
  split
  · exact .of_dead (live_prepareSABM _ _)
  · exact .of_dead (live_prepareSABM _ _)
  · exact .refl _ _

private theorem dcch0SuspendReq_quiet (c : Chan) : Quiet .sapi0 c (dcch0SuspendReq c) := by
  unfold dcch0SuspendReq
  split
  iterate 4 exact .of_dead (by simp [live, armed, ChState.established])
  exact .refl _ _

private theorem dcch3Enable_quiet (c : Chan) : Quiet .sapi3 c (dcch3Enable c) := by
  unfold dcch3Enable
  split
  · rename_i h
    refine ⟨fun hl => ?_, fun _ => rfl, fun _ => rfl⟩
    simpa [live, armed, ChState.established, h] using hl
  · exact .refl _ _

/-- An event that is no downlink frame is quiet. -/
theorem event_quiet (sapi : Sapi) {e : Event} (h : e.isFrame = false) (c : Chan) :
    Quiet sapi c (step sapi e c).1 ∧ inds (step sapi e c).2.prims = [] := by
  cases e with
  | frame ch f => cases h
  | uplink ch dlActive displaced => exact dlUplink_quiet ch sapi dlActive displaced c
  | dataReq m => exact ⟨dataReq_quiet sapi m c, rfl⟩
  | establishReq m => exact establishReq_quiet sapi m c
  | resumeReq m =>
    cases sapi
    · exact ⟨dcch0ResumeReconnectReq_quiet m c, rfl⟩
    · exact ⟨.refl _ _, rfl⟩
  | suspendReq =>
    cases sapi
    · exact ⟨dcch0SuspendReq_quiet c, rfl⟩
    · exact ⟨.refl _ _, rfl⟩
  | releaseReq localEnd => exact releaseReq_quiet sapi localEnd c
  | mdlReleaseReq => exact mdlReleaseReq_quiet sapi c
  | dcch3Init =>
    cases sapi
    · exact ⟨.refl _ _, rfl⟩
    · exact ⟨.init, rfl⟩
  | dcch3Enable =>
    cases sapi
    · exact ⟨.refl _ _, rfl⟩
    · exact ⟨dcch3Enable_quiet c, rfl⟩

end Citrine.Dl
