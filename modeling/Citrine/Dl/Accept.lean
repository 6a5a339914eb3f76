import Citrine.Dl.Receive

/-!
# What a downlink frame does to the receiving side

`opens_step`: a frame that opens the link resets V(R) and nothing else of the receiving side.  `transfer_step`: on
an established link an I frame with N(S) = V(R) is accepted, and the message is indicated at a cleared M bit unless
the N(R) of the frame fails and `nr_error_recovery` overrules the indication.  `frame_quiet`: all other frames
are quiet.
-/

namespace Citrine.Dl

/-! ### The kinds of frames -/

/-- The UA of the contention resolution procedure, or of a normal establishment, is the expected one. -/
def confirms (ch : ChType) (sapi : Sapi) (c : Chan) (f : Frame) : Bool :=
  match sapi with
  | .sapi0 =>
    if c.cch.contentionResolution then comCompareL3Msg c.queue.switchBuf f else f.lengthIndicator == 0
  | .sapi3 => f.lengthIndicator == 0 || ch == .sacch

/-- The frame (re-)establishes the link: a SABM of the network, or the UA that answers the own SABM. -/
def opens (ch : ChType) (sapi : Sapi) (c : Chan) (f : Frame) : Bool :=
  addressed ch sapi f && f.formatType == .u &&
    match c.state with
    | .disabled | .idleDl => f.cr && f.uType == sabmFrame && f.lengthIndicator == 0 && sapi == .sapi3
    | .contentionResolution =>
      if f.cr then f.uType == sabmFrame && (sapi == .sapi0 || f.lengthIndicator == 0)
      else f.uType == uaFrame && confirms ch sapi c f
    | .multipleFrameEstablished | .timerRecovery =>
      f.cr && f.uType == sabmFrame && f.lengthIndicator == 0
    | _ => false

/-- An I or S frame on an established link. -/
def transfers (ch : ChType) (sapi : Sapi) (c : Chan) (f : Frame) : Bool :=
  addressed ch sapi f && c.state.established && f.formatType != .u

/-- An I command with N(S) = V(R) on an established link. -/
def accepts (ch : ChType) (sapi : Sapi) (c : Chan) (f : Frame) : Bool :=
  addressed ch sapi f && c.state.established && f.formatType == .i && f.cr && f.sendNumber == c.cch.vr

/-- The N(R) of the frame is checked and fails. -/
def nrFails (ch : ChType) (sapi : Sapi) (c : Chan) (f : Frame) : Bool :=
  transfers ch sapi c f && !comCheckNr c.cch.va c.cch.vs f.receiveNumber &&
    match f.formatType with
    | .i => f.cr
    | .s => if c.state = .timerRecovery then f.sType == rrFrame else f.sType != rnrFrame
    | .u => false

/-- `nr_error_recovery` touches the indication; it does not on the SDCCH with SAPI 3. -/
def overrules (ch : ChType) (sapi : Sapi) : Bool := !(ch == .sdcch && sapi == .sapi3)

/-- The frame makes DL indicate what it has of a message. -/
def indicates (ch : ChType) (sapi : Sapi) (c : Chan) (f : Frame) : Bool :=
  if nrFails ch sapi c f && overrules ch sapi then f.pBit && !f.mBit
  else accepts ch sapi c f && !f.mBit

/-- The partial message with the information field of an accepted frame. -/
def received (ch : ChType) (sapi : Sapi) (c : Chan) (f : Frame) : Option (List Octet) :=
  if accepts ch sapi c f then some (c.inMsg.getD [] ++ f.infoField) else c.inMsg

/-! ### I and S frames -/

/-- What the functions for I and S frames keep, apart from the acceptance itself. -/
private structure Keeps (i i' : CchIntern) : Prop where
  vr : i'.chan.cch.vr = i.chan.cch.vr
  inMsg : i'.chan.inMsg = i.chan.inMsg
  ind : i'.dlDataInd = i.dlDataInd
  cause : i'.mdlErrorCause = i.mdlErrorCause
  established : i.state.established → i'.state.established
  signals : ∃ s, (∀ x ∈ s, x = Signal.dataCnf) ∧ i'.signals = i.signals ++ s

private theorem Keeps.refl (i : CchIntern) : Keeps i i :=
  ⟨rfl, rfl, rfl, rfl, id, [], by simp, by simp⟩

private theorem Keeps.trans {i j k : CchIntern} (h : Keeps i j) (h' : Keeps j k) : Keeps i k := by
  obtain ⟨s, hs, he⟩ := h.signals
  obtain ⟨t, ht, he'⟩ := h'.signals
  refine ⟨h'.vr.trans h.vr, h'.inMsg.trans h.inMsg, h'.ind.trans h.ind, h'.cause.trans h.cause,
    fun hi => h'.established (h.established hi), s ++ t, ?_, by rw [he', he, List.append_assoc]⟩
  exact fun x hx => (List.mem_append.1 hx).elim (hs x) (ht x)

/-- A change of the fields the relation does not speak of. -/
private theorem Keeps.of_eq {i i' : CchIntern} (hvr : i'.chan.cch.vr = i.chan.cch.vr)
    (hm : i'.chan.inMsg = i.chan.inMsg) (hd : i'.dlDataInd = i.dlDataInd)
    (hc : i'.mdlErrorCause = i.mdlErrorCause) (hs : i.state.established → i'.state.established)
    (hg : i'.signals = i.signals) : Keeps i i' :=
  ⟨hvr, hm, hd, hc, hs, [], by simp, by simp [hg]⟩

private theorem enquiryResponse_keeps (i : CchIntern) : Keeps i (enquiryResponse i) :=
  .of_eq rfl rfl rfl rfl id rfl

private theorem invokeRetransmission_keeps (nr : Nat) (i : CchIntern) : Keeps i (invokeRetransmission nr i) := by
  unfold invokeRetransmission
  split
  · exact .of_eq rfl rfl rfl rfl id rfl
  · exact .refl i

private theorem retransmit_keeps (nr : Nat) (i : CchIntern) : Keeps i (retransmit nr i) := by
  refine (invokeRetransmission_keeps nr i).trans ?_
  unfold retransmit
  generalize invokeRetransmission nr i = j
  exact .of_eq rfl rfl rfl rfl id rfl

private theorem answerPoll_keeps (f : Frame) (i : CchIntern) : Keeps i (answerPoll f i) := by
  unfold answerPoll
  split
  · exact enquiryResponse_keeps i
  · exact .refl i

private theorem pollMfe_keeps (f : Frame) (i : CchIntern) : Keeps i (pollMfe f i) := by
  unfold pollMfe
  split
  · split
    · exact enquiryResponse_keeps i
    · exact ⟨rfl, rfl, rfl, rfl, id, [], by simp, rfl⟩
  · exact .refl i

private theorem clearRecovery_keeps (i : CchIntern) : Keeps i (clearRecovery i) :=
  .of_eq rfl rfl rfl rfl (fun _ => rfl) rfl

private theorem setVa_keeps (nr : Nat) (i : CchIntern) : Keeps i (setVa nr i) :=
  .of_eq rfl rfl rfl rfl id rfl

private theorem setVs_keeps (nr : Nat) (i : CchIntern) : Keeps i (setVs nr i) :=
  .of_eq rfl rfl rfl rfl id rfl

private theorem freeSendingBuffer_signals (ch : ChType) (sapi : Sapi) (q : Queue) :
    ∀ x ∈ (freeSendingBuffer ch sapi q).2, x = Signal.dataCnf := by
  unfold freeSendingBuffer
  split
  · split
    · simp
    · split
      · split
        · split <;> simp
        · simp
      · simp
  · simp

private theorem freeSending_keeps (ch : ChType) (sapi : Sapi) (i : CchIntern) :
    Keeps i (freeSending ch sapi i) :=
  ⟨rfl, rfl, rfl, rfl, id, _, freeSendingBuffer_signals ch sapi i.chan.queue, rfl⟩

private theorem acknowledgeRej_keeps (ch : ChType) (sapi : Sapi) (nr : Nat) (i : CchIntern) :
    Keeps i (acknowledgeRej ch sapi nr i) := by
  unfold acknowledgeRej
  split
  · exact (freeSending_keeps ch sapi i).trans (setVa_keeps nr _)
  · exact .refl i

private theorem acknowledgeMfe_keeps (ch : ChType) (sapi : Sapi) (nr : Nat) (i : CchIntern) :
    Keeps i (acknowledgeMfe ch sapi nr i) := by
  unfold acknowledgeMfe
  split
  · refine Keeps.trans ?_ (freeSending_keeps ch sapi _)
    exact .of_eq rfl rfl rfl rfl id rfl
  · split
    · exact .of_eq rfl rfl rfl rfl id rfl
    · exact .refl i

/-- What `nr_error_recovery` does to the indication. -/
private structure Fails (ch : ChType) (sapi : Sapi) (f : Frame) (i i' : CchIntern) : Prop where
  vr : i'.chan.cch.vr = i.chan.cch.vr
  inMsg : i'.chan.inMsg = i.chan.inMsg
  ind : i'.dlDataInd = if overrules ch sapi then f.pBit && !f.mBit else i.dlDataInd
  cause : i'.mdlErrorCause = if overrules ch sapi then some .sequenceError else i.mdlErrorCause
  established : i.state.established → i'.state.established
  signals : i'.signals = i.signals

private theorem nrErrorRecovery_fails (ch : ChType) (sapi : Sapi) (i : CchIntern) (f : Frame) :
    Fails ch sapi f i (nrErrorRecovery ch sapi i f) := by
  unfold nrErrorRecovery
  split
  · rename_i h
    have ho : overrules ch sapi = false := by simp [overrules, h.1, h.2]
    exact ⟨rfl, rfl, by simp [ho], by simp [ho], id, rfl⟩
  · rename_i h
    have ho : overrules ch sapi = true := by
      simp only [overrules, Bool.not_eq_true', Bool.and_eq_false_iff, beq_eq_false_iff_ne]
      exact Classical.not_and_iff_not_or_not.1 h
    exact ⟨rfl, rfl, by simp [ho], by simp [ho], id, rfl⟩

/-- The outcome of an I or S frame: `acc` the frame was accepted, `bad` its N(R) failed. -/
private structure Outcome (ch : ChType) (sapi : Sapi) (f : Frame) (acc bad : Bool) (i i' : CchIntern) :
    Prop where
  vr : i'.chan.cch.vr = if acc then (i.chan.cch.vr + 1) % 8 else i.chan.cch.vr
  inMsg : i'.chan.inMsg = i.chan.inMsg
  ind : i'.dlDataInd = if bad && overrules ch sapi then f.pBit && !f.mBit else acc && !f.mBit
  cause : i'.mdlErrorCause = if bad && overrules ch sapi then some .sequenceError else none
  established : i'.state.established
  signals : ∃ s, (∀ x ∈ s, x = Signal.dataCnf) ∧
    i'.signals = (if acc then [Signal.concatenate f] else []) ++ s

/-- A frame that is not accepted and has a good N(R). -/
private theorem Keeps.outcome {ch : ChType} {sapi : Sapi} {f : Frame} {i i' : CchIntern} (h : Keeps i i')
    (hd : i.dlDataInd = false) (hc : i.mdlErrorCause = none) (he : i.state.established)
    (hs : i.signals = []) : Outcome ch sapi f false false i i' := by
  obtain ⟨s, hs', hsig⟩ := h.signals
  exact ⟨h.vr, h.inMsg, by simp [h.ind, hd], by simp [h.cause, hc], h.established he, s, hs',
    by simp [hsig, hs]⟩

private theorem Outcome.keeps {ch : ChType} {sapi : Sapi} {f : Frame} {acc : Bool} {i i' i'' : CchIntern}
    (h : Outcome ch sapi f acc false i i') (h' : Keeps i' i'') : Outcome ch sapi f acc false i i'' := by
  obtain ⟨s, hs, hsig⟩ := h.signals
  obtain ⟨t, ht, hsig'⟩ := h'.signals
  refine ⟨h'.vr.trans h.vr, h'.inMsg.trans h.inMsg, h'.ind.trans h.ind, h'.cause.trans h.cause,
    h'.established h.established, s ++ t, ?_, by rw [hsig', hsig, List.append_assoc]⟩
  exact fun x hx => (List.mem_append.1 hx).elim (hs x) (ht x)

private theorem Outcome.fails {ch : ChType} {sapi : Sapi} {f : Frame} {acc : Bool} {i i' i'' : CchIntern}
    (h : Outcome ch sapi f acc false i i') (h' : Fails ch sapi f i' i'') :
    Outcome ch sapi f acc true i i'' := by
  obtain ⟨s, hs, hsig⟩ := h.signals
  refine ⟨h'.vr.trans h.vr, h'.inMsg.trans h.inMsg, ?_, ?_, h'.established h.established, s, hs,
    h'.signals.trans hsig⟩
  · rw [h'.ind, h.ind]
    simp
  · rw [h'.cause, h.cause]
    simp

private theorem answerIFrame_keeps (f : Frame) (i : CchIntern) : Keeps i (answerIFrame f i) := by
  unfold answerIFrame
  split
  · exact .of_eq rfl rfl rfl rfl id rfl
  · split
    · exact .refl i
    · exact .of_eq rfl rfl rfl rfl id rfl

private theorem rejectIFrame_keeps (f : Frame) (i : CchIntern) : Keeps i (rejectIFrame f i) := by
  unfold rejectIFrame
  split
  · split
    · exact .of_eq rfl rfl rfl rfl id rfl
    · exact .refl i
  · exact .of_eq rfl rfl rfl rfl id rfl

private theorem downlinkIFrame_outcome {ch : ChType} {sapi : Sapi} {f : Frame} {i : CchIntern}
    (hserved : served ch sapi) (hd : i.dlDataInd = false) (hc : i.mdlErrorCause = none)
    (he : i.state.established) (hs : i.signals = []) :
    Outcome ch sapi f (f.sendNumber == i.chan.cch.vr) false i (downlinkIFrame ch sapi i f) := by
  unfold downlinkIFrame
  split
  · rename_i h
    have htake : Outcome ch sapi f true false i (takeIFrame ch sapi f i) :=
      ⟨rfl, rfl, by simp [takeIFrame, hd], hc, he, [], by simp, by simp [takeIFrame, hserved, hs]⟩
    rw [h, beq_self_eq_true]
    exact htake.keeps (answerIFrame_keeps f _)
  · rename_i h
    rw [beq_eq_false_iff_ne.2 h]
    exact (rejectIFrame_keeps f i).outcome hd hc he hs

private theorem answerIFrame_window (f : Frame) (i : CchIntern) :
    (answerIFrame f i).chan.cch.va = i.chan.cch.va ∧ (answerIFrame f i).chan.cch.vs = i.chan.cch.vs := by
  unfold answerIFrame
  split
  · exact ⟨rfl, rfl⟩
  · split <;> exact ⟨rfl, rfl⟩

private theorem rejectIFrame_window (f : Frame) (i : CchIntern) :
    (rejectIFrame f i).chan.cch.va = i.chan.cch.va ∧ (rejectIFrame f i).chan.cch.vs = i.chan.cch.vs := by
  unfold rejectIFrame
  split
  · split <;> exact ⟨rfl, rfl⟩
  · exact ⟨rfl, rfl⟩

private theorem downlinkIFrame_window (ch : ChType) (sapi : Sapi) (i : CchIntern) (f : Frame) :
    (downlinkIFrame ch sapi i f).chan.cch.va = i.chan.cch.va ∧
      (downlinkIFrame ch sapi i f).chan.cch.vs = i.chan.cch.vs := by
  unfold downlinkIFrame
  split
  · exact answerIFrame_window f _
  · exact rejectIFrame_window f i

/-- I frames in both established states. -/
private theorem information_outcome {ch : ChType} {sapi : Sapi} {f : Frame} {i : CchIntern}
    (hserved : served ch sapi) (hd : i.dlDataInd = false) (hc : i.mdlErrorCause = none)
    (he : i.state.established) (hs : i.signals = []) (ack : CchIntern → CchIntern)
    (hack : ∀ j, Keeps j (ack j)) :
    let j := downlinkIFrame ch sapi i f
    Outcome ch sapi f (f.sendNumber == i.chan.cch.vr)
      (!comCheckNr i.chan.cch.va i.chan.cch.vs f.receiveNumber) i
      (if comCheckNr j.chan.cch.va j.chan.cch.vs f.receiveNumber then ack j
        else nrErrorRecovery ch sapi j f) := by
  have ho := downlinkIFrame_outcome (f := f) hserved hd hc he hs
  have hw := downlinkIFrame_window ch sapi i f
  simp only [hw.1, hw.2]
  split
  · rename_i hnr
    rw [hnr]
    exact ho.keeps (hack _)
  · rename_i hnr
    rw [Bool.not_eq_true] at hnr
    rw [hnr]
    exact ho.fails (nrErrorRecovery_fails ch sapi _ f)

private theorem answerPoll_window (f : Frame) (i : CchIntern) :
    (answerPoll f i).chan.cch.va = i.chan.cch.va ∧ (answerPoll f i).chan.cch.vs = i.chan.cch.vs := by
  unfold answerPoll
  split <;> exact ⟨rfl, rfl⟩

private theorem pollMfe_window (f : Frame) (i : CchIntern) :
    (pollMfe f i).chan.cch.va = i.chan.cch.va ∧ (pollMfe f i).chan.cch.vs = i.chan.cch.vs := by
  unfold pollMfe
  split
  · split <;> exact ⟨rfl, rfl⟩
  · exact ⟨rfl, rfl⟩

private theorem downlinkMfeSupervisory_outcome {ch : ChType} {sapi : Sapi} {f : Frame} {i : CchIntern}
    (hd : i.dlDataInd = false) (hc : i.mdlErrorCause = none) (he : i.state.established)
    (hs : i.signals = []) :
    Outcome ch sapi f false
      (!comCheckNr i.chan.cch.va i.chan.cch.vs f.receiveNumber && f.sType != rnrFrame) i
      (downlinkMfeSupervisory ch sapi i f) := by
  have hw := pollMfe_window f i
  unfold downlinkMfeSupervisory
  simp only [hw.1, hw.2]
  split
  · rename_i h
    rw [h, bne_self_eq_false, Bool.and_false]
    exact (Keeps.refl i).outcome hd hc he hs
  · rename_i h
    have hb : (f.sType != rnrFrame) = true := by simpa using h
    have hp := pollMfe_keeps f i
    rw [hb, Bool.and_true]
    split
    · rename_i hnr
      rw [hnr]
      refine Keeps.outcome (hp.trans ?_) hd hc he hs
      split
      · exact acknowledgeMfe_keeps ch sapi _ _
      · split
        · refine Keeps.trans ?_ (retransmit_keeps _ _)
          refine Keeps.trans ?_ (answerPoll_keeps f _)
          exact .of_eq rfl rfl rfl rfl id rfl
        · exact ⟨rfl, rfl, rfl, rfl, id, [], by simp, rfl⟩
    · rename_i hnr
      rw [Bool.not_eq_true] at hnr
      rw [hnr]
      exact (hp.outcome hd hc he hs).fails (nrErrorRecovery_fails ch sapi _ f)

private theorem downlinkTrSupervisory_outcome {ch : ChType} {sapi : Sapi} {f : Frame} {i : CchIntern}
    (hd : i.dlDataInd = false) (hc : i.mdlErrorCause = none) (he : i.state.established)
    (hs : i.signals = []) :
    Outcome ch sapi f false
      (!comCheckNr i.chan.cch.va i.chan.cch.vs f.receiveNumber && f.sType == rrFrame) i
      (downlinkTrSupervisory ch sapi i f) := by
  have hw := answerPoll_window f i
  have hp := answerPoll_keeps f i
  unfold downlinkTrSupervisory
  simp only [hw.1, hw.2]
  split
  · rename_i h
    rw [h, beq_self_eq_true, Bool.and_true]
    split
    · rename_i hnr
      rw [hnr]
      refine Keeps.outcome (hp.trans ((setVa_keeps f.receiveNumber _).trans ?_)) hd hc he hs
      split
      · exact (clearRecovery_keeps _).trans (freeSending_keeps ch sapi _)
      · exact invokeRetransmission_keeps _ _
    · rename_i hnr
      rw [Bool.not_eq_true] at hnr
      rw [hnr]
      exact (hp.outcome hd hc he hs).fails (nrErrorRecovery_fails ch sapi _ f)
  · rename_i h
    rw [beq_eq_false_iff_ne.2 h, Bool.and_false]
    refine Keeps.outcome ?_ hd hc he hs
    split
    · refine (acknowledgeRej_keeps ch sapi f.receiveNumber i).trans ?_
      generalize acknowledgeRej ch sapi f.receiveNumber i = j
      split
      · refine (clearRecovery_keeps j).trans ?_
        generalize clearRecovery j = k
        refine Keeps.trans ?_ ((setVa_keeps _ _).trans (setVs_keeps _ _))
        split
        · exact invokeRetransmission_keeps _ k
        · exact .refl k
      · exact (setVa_keeps _ j).trans (answerPoll_keeps f _)
    · exact .refl i

private theorem transfers_outcome {ch : ChType} {sapi : Sapi} {c : Chan} {f : Frame}
    (h : transfers ch sapi c f) :
    Outcome ch sapi f (accepts ch sapi c f) (nrFails ch sapi c f) (CchIntern.start c)
      (downlinkState ch sapi (CchIntern.start c) f) := by
  have ht := h
  simp only [transfers, Bool.and_eq_true, bne_iff_ne, ne_eq] at h
  obtain ⟨⟨ha, he⟩, hu⟩ := h
  have hserved : served ch sapi := by
    simp only [addressed, Bool.and_eq_true] at ha
    exact ha.2
  have hacc : accepts ch sapi c f = (f.formatType == .i && f.cr && f.sendNumber == c.cch.vr) := by
    simp [accepts, ha, he]
  have hcases : c.state = .multipleFrameEstablished ∨ c.state = .timerRecovery := by
    revert he
    cases c.state <;> simp [ChState.established]
  cases hf : f.formatType with
  | u => exact absurd hf hu
  | i =>
    have hbad : nrFails ch sapi c f = (!comCheckNr c.cch.va c.cch.vs f.receiveNumber && f.cr) := by
      simp [nrFails, ht, hf]
    rw [hacc, hbad, hf]
    cases hcr : f.cr with
    | false =>
      have hid : Outcome ch sapi f false false (CchIntern.start c) (CchIntern.start c) :=
        (Keeps.refl _).outcome rfl rfl he rfl
      simp only [Bool.and_false, Bool.false_and]
      rcases hcases with hc | hc <;>
        simpa [downlinkState, CchIntern.start, hc, downlinkMfe, downlinkTimerRecovery, hf,
          downlinkMfeInformation, downlinkTrInformation, hcr] using hid
    | true =>
      have hmfe := information_outcome (f := f) (i := CchIntern.start c) hserved rfl rfl he rfl
        (acknowledgeMfe ch sapi f.receiveNumber) (acknowledgeMfe_keeps ch sapi _)
      have htr := information_outcome (f := f) (i := CchIntern.start c) hserved rfl rfl he rfl
        (setVa f.receiveNumber) (setVa_keeps _)
      simp only [beq_self_eq_true, Bool.true_and, Bool.and_true]
      rcases hcases with hc | hc
      · have hd : downlinkState ch sapi (CchIntern.start c) f =
            downlinkMfeInformation ch sapi (CchIntern.start c) f := by
          unfold downlinkState
          rw [show (CchIntern.start c).state = .multipleFrameEstablished from hc]
          simp only [downlinkMfe, hf]
        rw [hd]
        unfold downlinkMfeInformation
        rw [if_pos hcr]
        exact hmfe
      · have hd : downlinkState ch sapi (CchIntern.start c) f =
            downlinkTrInformation ch sapi (CchIntern.start c) f := by
          unfold downlinkState
          rw [show (CchIntern.start c).state = .timerRecovery from hc]
          simp only [downlinkTimerRecovery, hf]
        rw [hd]
        unfold downlinkTrInformation
        rw [if_pos hcr]
        exact htr
  | s =>
    rw [hacc, hf]
    have hs : (Format.s == .i && f.cr && f.sendNumber == c.cch.vr) = false := rfl
    rw [hs]
    rcases hcases with hc | hc
    · have hbad : nrFails ch sapi c f =
          (!comCheckNr c.cch.va c.cch.vs f.receiveNumber && f.sType != rnrFrame) := by
        simp [nrFails, ht, hf, hc]
      have hd : downlinkState ch sapi (CchIntern.start c) f =
          downlinkMfeSupervisory ch sapi (CchIntern.start c) f := by
        unfold downlinkState
        rw [show (CchIntern.start c).state = .multipleFrameEstablished from hc]
        simp only [downlinkMfe, hf]
      rw [hbad, hd]
      exact downlinkMfeSupervisory_outcome (i := CchIntern.start c) rfl rfl he rfl
    · have hbad : nrFails ch sapi c f =
          (!comCheckNr c.cch.va c.cch.vs f.receiveNumber && f.sType == rrFrame) := by
        simp [nrFails, ht, hf, hc]
      have hd : downlinkState ch sapi (CchIntern.start c) f =
          downlinkTrSupervisory ch sapi (CchIntern.start c) f := by
        unfold downlinkState
        rw [show (CchIntern.start c).state = .timerRecovery from hc]
        simp only [downlinkTimerRecovery, hf]
      rw [hbad, hd]
      exact downlinkTrSupervisory_outcome (i := CchIntern.start c) rfl rfl he rfl

/-- Signals that change neither V(R) nor the partial message nor the state indicate nothing. -/
private theorem serve_dataCnf (sapi : Sapi) {sigs : List Signal} (h : ∀ x ∈ sigs, x = Signal.dataCnf)
    (c : Chan) :
    let r := serve sapi sigs c
    r.1.cch = c.cch ∧ r.1.inMsg = c.inMsg ∧ r.1.state = c.state ∧ inds r.2 = [] := by
  induction sigs generalizing c with
  | nil => exact ⟨rfl, rfl, rfl, rfl⟩
  | cons s rest ih =>
    obtain rfl := h s (by simp)
    have hr := ih (fun x hx => h x (by simp [hx])) (drrDlDataCnf c).1
    have hd : (drrDlDataCnf c).1.cch = c.cch ∧ (drrDlDataCnf c).1.inMsg = c.inMsg ∧
        (drrDlDataCnf c).1.state = c.state ∧ inds (drrDlDataCnf c).2 = [] := by
      unfold drrDlDataCnf
      split <;> exact ⟨rfl, rfl, rfl, rfl⟩
    refine ⟨hr.1.trans hd.1, hr.2.1.trans hd.2.1, hr.2.2.1.trans hd.2.2.1, ?_⟩
    simp only [serve, handleSignal, inds_append, hd.2.2.2]
    exact hr.2.2.2

private theorem releaseReq_established (sapi : Sapi) {c : Chan} (h : c.state.established) :
    let r := releaseReq sapi false c
    r.1.cch.vr = c.cch.vr ∧ r.1.inMsg = c.inMsg ∧ inds r.2 = [] := by
  unfold releaseReq
  simp only [Bool.false_eq_true, if_false]
  split
  iterate 3
    split <;> exact ⟨rfl, rfl, rfl⟩
  · exact ⟨rfl, rfl, rfl⟩
  · rename_i h1 h2 h3 h4
    revert h
    cases hs : c.state <;> simp_all [ChState.established]

private theorem serve_errorInd (sapi : Sapi) {c : Chan} (h : c.state.established) :
    let r := serve sapi [.errorInd] c
    r.1.cch.vr = c.cch.vr ∧ r.1.inMsg = c.inMsg ∧ inds r.2 = [] := by
  have hd : (drrDlReleaseInd sapi none false c).1.state = c.state := rfl
  have ha : c.state.aboveIdle := by
    revert h
    cases c.state <;> simp [ChState.established, ChState.aboveIdle]
  have hr := releaseReq_established sapi (c := (drrDlReleaseInd sapi none false c).1) h
  simp only [serve, handleSignal, drrErrorInd, hd, ha, if_true, inds_append]
  exact ⟨hr.1, hr.2.1, by rw [hr.2.2]; rfl⟩

/-- An I or S frame on an established link. -/
theorem transfer_step {ch : ChType} {sapi : Sapi} {c : Chan} {f : Frame} (h : transfers ch sapi c f) :
    let r := step sapi (.frame ch f) c
    r.1.cch.vr = (if accepts ch sapi c f then (c.cch.vr + 1) % 8 else c.cch.vr) ∧
      r.1.inMsg = (if indicates ch sapi c f then none else received ch sapi c f) ∧
      inds r.2.prims = if indicates ch sapi c f then (received ch sapi c f).toList else [] := by
  have ha : addressed ch sapi f := by
    simp only [transfers, Bool.and_eq_true] at h
    exact h.1.1
  have ho := transfers_outcome h
  obtain ⟨cnf, hcnf, hsig⟩ := ho.signals
  simp only [step, dlDownlink, ha, if_true]
  generalize downlinkState ch sapi (CchIntern.start c) f = i at ho hsig
  have hind : i.dlDataInd = indicates ch sapi c f := ho.ind
  -- the channel that the interrupt leaves
  generalize hfin : i.finish = r
  have hvr : r.1.cch.vr = if accepts ch sapi c f then (c.cch.vr + 1) % 8 else c.cch.vr := by
    have hv : i.chan.cch.vr = if accepts ch sapi c f then (c.cch.vr + 1) % 8 else c.cch.vr := ho.vr
    rw [← hfin, ← hv]
    unfold CchIntern.finish
    simp only
    split
    · rfl
    · split <;> rfl
  have hm : r.1.inMsg = c.inMsg := by rw [← hfin]; exact ho.inMsg
  have he : r.1.state.established := by rw [← hfin]; exact ho.established
  have hsigs : r.2 = (if accepts ch sapi c f then [Signal.concatenate f] else []) ++ cnf ++
      (if indicates ch sapi c f then [.dataInd] else []) ++
      (if nrFails ch sapi c f && overrules ch sapi then [.errorInd] else []) := by
    rw [← hfin]
    simp only [CchIntern.finish, hsig, hind, ho.cause]
    cases nrFails ch sapi c f && overrules ch sapi <;> simp [mdlErrorInd]
  rw [hsigs, serve_append, serve_append, serve_append]
  simp only [inds_append]
  -- the segment
  have h1 : let t := serve sapi (if accepts ch sapi c f then [Signal.concatenate f] else []) r.1
      t.1.cch.vr = r.1.cch.vr ∧ t.1.inMsg = received ch sapi c f ∧ t.1.state.established ∧ inds t.2 = [] := by
    unfold received
    split
    · exact ⟨rfl, by simp [serve, handleSignal, comConcatenate, hm], he, rfl⟩
    · exact ⟨rfl, hm, he, rfl⟩
  generalize serve sapi (if accepts ch sapi c f then [Signal.concatenate f] else []) r.1 = t1 at h1 ⊢
  obtain ⟨hvr1, hm1, he1, hi1⟩ := h1
  -- the confirmation of an uplink message
  obtain ⟨hc2, hm2, hs2, hi2⟩ := serve_dataCnf sapi hcnf t1.1
  generalize serve sapi cnf t1.1 = t2 at hc2 hm2 hs2 hi2 ⊢
  -- the indication
  have h3 : let t := serve sapi (if indicates ch sapi c f then [Signal.dataInd] else []) t2.1
      t.1.cch = t2.1.cch ∧ t.1.inMsg = (if indicates ch sapi c f then none else received ch sapi c f) ∧
        t.1.state = t2.1.state ∧
        inds t.2 = if indicates ch sapi c f then (received ch sapi c f).toList else [] := by
    have hm2' : t2.1.inMsg = received ch sapi c f := hm2.trans hm1
    split
    · cases hrec : received ch sapi c f with
      | none => simp [serve, handleSignal, comDataInd, hm2', hrec, inds]
      | some octets => simp [serve, handleSignal, comDataInd, hm2', hrec, inds]
    · exact ⟨rfl, hm2', rfl, rfl⟩
  generalize serve sapi (if indicates ch sapi c f then [Signal.dataInd] else []) t2.1 = t3 at h3 ⊢
  obtain ⟨hc3, hm3, hs3, hi3⟩ := h3
  -- the error
  have h4 : let t :=
        serve sapi (if nrFails ch sapi c f && overrules ch sapi then [Signal.errorInd] else []) t3.1
      t.1.cch.vr = t3.1.cch.vr ∧ t.1.inMsg = t3.1.inMsg ∧ inds t.2 = [] := by
    split
    · exact serve_errorInd sapi (by rw [hs3, hs2]; exact he1)
    · exact ⟨rfl, rfl, rfl⟩
  obtain ⟨hv4, hm4, hi4⟩ := h4
  refine ⟨?_, hm4.trans hm3, by rw [hi1, hi2, hi3, hi4]; simp⟩
  rw [hv4, hc3, hc2, hvr1, hvr]

/-! ### Frames that open the link -/

@[simp] private theorem finish_signals {i : CchIntern} (hd : i.dlDataInd = false)
    (hc : i.mdlErrorCause = none) : i.finish.2 = i.signals := by
  simp [CchIntern.finish, hd, hc]

private theorem finish_chan (i : CchIntern) :
    i.finish.1.cch.vtx = i.chan.cch.vtx ∧ i.finish.1.cch.vr = i.chan.cch.vr ∧
      i.finish.1.inMsg = i.chan.inMsg ∧ i.finish.1.state = i.state := by
  unfold CchIntern.finish
  refine ⟨?_, ?_, rfl, rfl⟩ <;> simp only
  · split
    · rfl
    · split <;> rfl
  · split
    · rfl
    · split <;> rfl

/-- An unnumbered frame: no indication, no error cause, and the signals that were emitted. -/
private structure Opened (sapi : Sapi) (c : Chan) (i : CchIntern) : Prop where
  vr : i.chan.cch.vr = 0
  inMsg : i.chan.inMsg = c.inMsg
  ind : i.dlDataInd = false
  cause : i.mdlErrorCause = none
  signals : ∀ s ∈ i.signals, s = Signal.establishCnf
  live : i.state.established ∨
    (sapi = .sapi3 ∧ i.chan.cch.vtx = .uaCmd ∧
      (i.state = .disabled ∨ i.state = .idleDl ∨ i.state = .contentionResolution))

private theorem establishCnf_opened {sapi : Sapi} {c : Chan} {i : CchIntern} (hm : i.chan.inMsg = c.inMsg)
    (hd : i.dlDataInd = false) (hc : i.mdlErrorCause = none) (hs : i.signals = []) :
    Opened sapi c (establishCnf i) :=
  ⟨rfl, hm, hd, hc, by simp [establishCnf, CchIntern.emit, CchIntern.resetVars, hs], .inl rfl⟩

private theorem downlinkMfeSabm_opened {ch : ChType} {sapi : Sapi} {c : Chan} {f : Frame} {st : ChState}
    {i : CchIntern} (ha : addressed ch sapi f) (hcr : f.cr) (hty : f.uType = sabmFrame)
    (hl : f.lengthIndicator = 0) (hm : i.chan.inMsg = c.inMsg) (hd : i.dlDataInd = false)
    (hc : i.mdlErrorCause = none) (hs : i.signals = []) :
    Opened sapi c (downlinkMfeTrUnnumbered ch sapi st i f) := by
  have hserved : ¬ (sapi = .sapi0 ∧ ch = .sacch) := by
    rintro ⟨rfl, rfl⟩
    simp [addressed, served] at ha
  unfold downlinkMfeTrUnnumbered downlinkMfeSabm
  rw [if_pos hcr, if_pos hty, if_pos hl, if_neg hserved]
  cases sapi with
  | sapi0 => exact ⟨rfl, hm, hd, hc, by simp [CchIntern.resetVars, hs], .inl rfl⟩
  | sapi3 => exact ⟨rfl, hm, hd, hc, by simp [CchIntern.resetVars, hs], .inl rfl⟩

private theorem opens_opened {ch : ChType} {sapi : Sapi} {c : Chan} {f : Frame} (h : opens ch sapi c f) :
    Opened sapi c (downlinkState ch sapi (CchIntern.start c) f) := by
  simp only [opens, Bool.and_eq_true, beq_iff_eq] at h
  obtain ⟨⟨ha, hu⟩, h⟩ := h
  cases hs : c.state with
  | disabled =>
    simp only [hs, Bool.and_eq_true, beq_iff_eq] at h
    obtain ⟨⟨⟨hcr, hty⟩, hl⟩, rfl⟩ := h
    simp [downlinkState, CchIntern.start, hs, downlinkIdle, hu, hcr, hty, hl]
    exact ⟨rfl, rfl, rfl, rfl, by simp [CchIntern.resetVars], .inr ⟨rfl, rfl, by simp [CchIntern.resetVars]⟩⟩
  | idleDl =>
    simp only [hs, Bool.and_eq_true, beq_iff_eq] at h
    obtain ⟨⟨⟨hcr, hty⟩, hl⟩, rfl⟩ := h
    simp [downlinkState, CchIntern.start, hs, downlinkIdle, hu, hcr, hty, hl]
    exact ⟨rfl, rfl, rfl, rfl, by simp [CchIntern.resetVars], .inr ⟨rfl, rfl, by simp [CchIntern.resetVars]⟩⟩
  | suspended => simp [hs] at h
  | awaitingRelease => simp [hs] at h
  | contentionResolution =>
    simp only [hs] at h
    cases hcr : f.cr with
    | true =>
      simp only [hcr, if_true, Bool.and_eq_true, beq_iff_eq] at h
      cases sapi with
      | sapi0 =>
        simp only [downlinkState, CchIntern.start, hs, downlinkContentionResolution, hu, hcr, h.1, if_true]
        exact establishCnf_opened rfl rfl rfl rfl
      | sapi3 =>
        have hl : f.lengthIndicator = 0 := by simpa using h.2
        simp only [downlinkState, CchIntern.start, hs, downlinkContentionResolution, hu, hcr, h.1, if_true, hl]
        exact ⟨rfl, rfl, rfl, rfl, by simp [CchIntern.resetVars],
          .inr ⟨rfl, rfl, by simp [CchIntern.resetVars]⟩⟩
    | false =>
      simp only [hcr, Bool.false_eq_true, if_false, Bool.and_eq_true, beq_iff_eq] at h
      have hne : uaFrame ≠ dmFrame := by decide
      cases sapi with
      | sapi0 =>
        simp only [downlinkState, CchIntern.start, hs, downlinkContentionResolution, hu, hcr, h.1, hne,
          Bool.false_eq_true, if_false, if_true]
        have hc := h.2
        simp only [confirms] at hc
        cases hcon : c.cch.contentionResolution with
        | true =>
          simp only [hcon, if_true] at hc ⊢
          rw [if_pos hc]
          exact establishCnf_opened rfl rfl rfl rfl
        | false =>
          simp only [hcon, Bool.false_eq_true, if_false, beq_iff_eq] at hc ⊢
          rw [if_pos hc]
          exact establishCnf_opened rfl rfl rfl rfl
      | sapi3 =>
        have hc : f.lengthIndicator = 0 ∨ ch = .sacch := by simpa [confirms] using h.2
        simp only [downlinkState, CchIntern.start, hs, downlinkContentionResolution, hu, hcr, h.1, hne, hc,
          Bool.false_eq_true, if_false, if_true]
        exact establishCnf_opened rfl rfl rfl rfl
  | multipleFrameEstablished =>
    simp only [hs, Bool.and_eq_true, beq_iff_eq] at h
    simp only [downlinkState, CchIntern.start, hs, downlinkMfe, hu]
    exact downlinkMfeSabm_opened ha h.1.1 h.1.2 h.2 rfl rfl rfl rfl
  | timerRecovery =>
    simp only [hs, Bool.and_eq_true, beq_iff_eq] at h
    simp only [downlinkState, CchIntern.start, hs, downlinkTimerRecovery, hu]
    exact downlinkMfeSabm_opened ha h.1.1 h.1.2 h.2 rfl rfl rfl rfl

/-- A frame that opens the link resets V(R), leaves the partial message alone and indicates nothing. -/
theorem opens_step {ch : ChType} {sapi : Sapi} {c : Chan} {f : Frame} (h : opens ch sapi c f) :
    let r := step sapi (.frame ch f) c
    live sapi r.1 ∧ r.1.cch.vr = 0 ∧ r.1.inMsg = c.inMsg ∧ inds r.2.prims = [] := by
  have ha : addressed ch sapi f := by
    simp only [opens, Bool.and_eq_true] at h
    exact h.1.1
  have ho := opens_opened h
  simp only [step, dlDownlink, ha, if_true]
  generalize downlinkState ch sapi (CchIntern.start c) f = i at ho
  rw [finish_signals ho.ind ho.cause]
  obtain ⟨hv, hvr, hm, hst⟩ := finish_chan i
  have hserve : ∀ (sigs : List Signal) (d : Chan), (∀ s ∈ sigs, s = Signal.establishCnf) →
      (serve sapi sigs d).1 = d ∧ inds (serve sapi sigs d).2 = [] := by
    intro sigs d hs
    induction sigs with
    | nil => exact ⟨rfl, rfl⟩
    | cons s rest ih =>
      obtain rfl := hs s (by simp)
      have hr := ih (fun x hx => hs x (by simp [hx]))
      simp only [serve, handleSignal, inds_append]
      exact ⟨hr.1, by rw [hr.2]; rfl⟩
  obtain ⟨h1, h2⟩ := hserve _ i.finish.1 ho.signals
  rw [h1, h2]
  refine ⟨?_, hvr.trans ho.vr, hm.trans ho.inMsg, rfl⟩
  rcases ho.live with he | ⟨rfl, hua, hd⟩
  · simp [live, hst, he]
  · have harm : armed .sapi3 i.finish.1 := by
      simp only [armed, hv, hua, hst]
      rcases hd with hd | hd | hd <;> simp [hd]
    simp [live, harm]

/-! ### All other frames -/

/-- The channel that `CchIntern.finish` leaves, as far as the receiving side is concerned. -/
private def CchIntern.link (i : CchIntern) : Chan := { i.chan with state := i.state }

private theorem Quiet.finish {sapi : Sapi} {c : Chan} {i : CchIntern} (h : Quiet sapi c i.link) :
    Quiet sapi c i.finish.1 := by
  obtain ⟨hv, hvr, hm, hst⟩ := finish_chan i
  have hl : live sapi i.finish.1 = live sapi i.link := by
    simp only [live, armed, CchIntern.link, hv, hst]
  exact ⟨fun h' => h.alive (hl ▸ h'), fun h' => hvr.trans (h.vr (hl ▸ h')),
    fun h' => hm.trans (h.inMsg (hl ▸ h'))⟩

/-- A frame that neither indicates nor reports an error, and leaves the channel quiet or initialises it. -/
private structure Rests (sapi : Sapi) (c : Chan) (i : CchIntern) : Prop where
  ind : i.dlDataInd = false
  cause : i.mdlErrorCause = none
  control : ∀ s ∈ i.signals, s.control
  quiet : Quiet sapi c i.link ∨ ∃ s ∈ i.signals, s.inits

private theorem Rests.calm {sapi : Sapi} {c : Chan} {i : CchIntern} (h : Rests sapi c i) :
    Calm sapi c i.finish.1 i.finish.2 := by
  rw [finish_signals h.ind h.cause]
  exact ⟨h.control, h.quiet.imp Quiet.finish id⟩

private theorem start_rests (sapi : Sapi) (c : Chan) : Rests sapi c (CchIntern.start c) :=
  ⟨rfl, rfl, by simp [CchIntern.start], .inl ⟨id, fun _ => rfl, fun _ => rfl⟩⟩

private theorem downlinkIdle_rests {ch : ChType} {sapi : Sapi} {c : Chan} {f : Frame}
    (ha : addressed ch sapi f) (hs : c.state = .disabled ∨ c.state = .idleDl)
    (ho : opens ch sapi c f = false) : Rests sapi c (downlinkIdle sapi (CchIntern.start c) f) := by
  have hdead : ∀ pf, Rests sapi c { CchIntern.start c with chan.cch.vtx := .dmCmd, pfBitFlag := pf } := by
    refine fun pf => ⟨rfl, rfl, by simp [CchIntern.start], .inl (.of_dead ?_)⟩
    rcases hs with hs | hs <;> simp [live, armed, CchIntern.link, CchIntern.start, hs, ChState.established]
  have hdm : Rests sapi c
      (if f.pBit then { CchIntern.start c with chan.cch.vtx := .dmCmd, pfBitFlag := true }
        else CchIntern.start c) := by
    split
    · exact hdead true
    · exact start_rests sapi c
  unfold downlinkIdle
  simp only
  split
  · split
    · exact hdm
    · exact start_rests sapi c
  · exact hdm
  · rename_i hu
    split
    · rename_i hcr
      split
      · rename_i hty
        split
        · rename_i h
          obtain ⟨hl, rfl⟩ := h
          rcases hs with hs | hs <;> simp [opens, ha, hu, hs, hcr, hty, hl] at ho
        · exact start_rests sapi c
      · split
        · exact hdead f.pBit
        · exact start_rests sapi c
    · exact start_rests sapi c

private theorem establishRefused_rests {sapi : Sapi} {c : Chan} (hs : c.state = .contentionResolution)
    (cs : Option DlCause) : Rests sapi c (establishRefused sapi cs (CchIntern.start c)) := by
  unfold establishRefused
  refine ⟨?_, ?_, ?_, .inl ⟨?_, ?_, ?_⟩⟩ <;> simp only <;> split <;>
    simp_all [CchIntern.start, CchIntern.emit, CchIntern.link, Signal.control, live, armed, ChState.established]

private theorem establishRefused_disc {sapi : Sapi} {c : Chan} (pf : Bool) :
    Rests sapi c
      (establishRefused sapi none { CchIntern.start c with pfBitFlag := pf, chan.cch.vtx := .dmCmd }) := by
  unfold establishRefused
  refine ⟨?_, ?_, ?_, .inl (.of_dead ?_)⟩ <;> simp only <;> split <;>
    simp [CchIntern.start, CchIntern.emit, CchIntern.link, Signal.control, live, armed, ChState.established]

private theorem downlinkContentionResolution_rests {ch : ChType} {sapi : Sapi} {c : Chan} {f : Frame}
    (ha : addressed ch sapi f) (hs : c.state = .contentionResolution) (ho : opens ch sapi c f = false) :
    Rests sapi c (downlinkContentionResolution ch sapi (CchIntern.start c) f) := by
  have hcon : (CchIntern.start c).chan = c := rfl
  unfold downlinkContentionResolution
  split
  · rename_i hu
    split
    · rename_i hcr
      split
      · rename_i hty
        cases sapi with
        | sapi0 => simp [opens, ha, hu, hs, hcr, hty] at ho
        | sapi3 =>
          simp only
          split
          · rename_i hl
            simp [opens, ha, hu, hs, hcr, hty, hl] at ho
          · exact start_rests _ c
      · split
        · exact establishRefused_disc f.pBit
        · exact start_rests sapi c
    · rename_i hcr
      split
      · split
        · exact establishRefused_rests hs none
        · exact start_rests sapi c
      · split
        · rename_i hty
          rw [Bool.not_eq_true] at hcr
          have hnc : confirms ch sapi c f = false := by
            simpa [opens, ha, hu, hs, hcr, hty] using ho
          cases sapi with
          | sapi0 =>
            simp only [confirms] at hnc
            simp only [hcon]
            split
            · rename_i hc
              simp only [hc, if_true] at hnc
              rw [hnc]
              exact establishRefused_rests hs _
            · rename_i hc
              simp only [hc] at hnc
              rw [if_neg (by simpa using hnc)]
              exact establishRefused_rests hs _
          | sapi3 =>
            simp only
            rw [if_neg (by simpa [confirms] using hnc)]
            exact establishRefused_rests hs _
        · exact start_rests sapi c
  · exact start_rests sapi c

/-- A frame that keeps an established link and sends only error indications. -/
private theorem established_rests {sapi : Sapi} {c : Chan} {i : CchIntern} (he : c.state.established)
    (hvr : i.chan.cch.vr = c.cch.vr) (hm : i.chan.inMsg = c.inMsg) (hd : i.dlDataInd = false)
    (hc : i.mdlErrorCause = none) (hs : ∀ s ∈ i.signals, s = Signal.errorInd) : Rests sapi c i := by
  refine ⟨hd, hc, fun s h => ?_, .inl ⟨fun _ => by simp [live, he], fun _ => hvr, fun _ => hm⟩⟩
  rw [hs s h]
  rfl

private theorem mdlErrorInd_errorInd (cause : MdlCause) : ∀ s ∈ mdlErrorInd cause, s = Signal.errorInd := by
  cases cause <;> simp [mdlErrorInd]

private theorem emit_rests {sapi : Sapi} {c : Chan} (he : c.state.established) (cause : MdlCause) :
    Rests sapi c ((CchIntern.start c).emit (mdlErrorInd cause)) :=
  established_rests he rfl rfl rfl rfl (by simpa [CchIntern.emit, CchIntern.start] using mdlErrorInd_errorInd cause)

private theorem downlinkMfeDm_rests {ch : ChType} {sapi : Sapi} {c : Chan} {f : Frame} {i : CchIntern}
    (he : c.state.established) (hc : i.chan = c) (hd : i.dlDataInd = false) (hca : i.mdlErrorCause = none)
    (hs : ∀ s ∈ i.signals, s = Signal.errorInd) : Rests sapi c (downlinkMfeDm ch sapi i f) := by
  subst hc
  unfold downlinkMfeDm
  split
  · exact established_rests he rfl rfl hd hca hs
  · exact established_rests he rfl rfl hd hca hs

private theorem downlinkMfeTrUnnumbered_rests {ch : ChType} {sapi : Sapi} {st : ChState} {c : Chan} {f : Frame}
    (he : c.state.established) (ho : (f.cr && f.uType == sabmFrame && f.lengthIndicator == 0) = false) :
    Rests sapi c (downlinkMfeTrUnnumbered ch sapi st (CchIntern.start c) f) := by
  unfold downlinkMfeTrUnnumbered
  split
  · rename_i hcr
    split
    · rename_i hty
      have hl : f.lengthIndicator ≠ 0 := by simpa [hcr, hty] using ho
      unfold downlinkMfeSabm
      rw [if_neg hl]
      exact emit_rests he _
    · split
      · refine ⟨rfl, rfl, by simp [CchIntern.start], .inl (.of_dead ?_)⟩
        simp [live, armed, CchIntern.link, ChState.established]
      · exact start_rests sapi c
  · split
    · have herr : ∀ cause, Rests sapi c
          (downlinkMfeDm ch sapi ((CchIntern.start c).emit (mdlErrorInd cause)) f) := fun cause =>
        downlinkMfeDm_rests he rfl rfl rfl
          (by simpa [CchIntern.emit, CchIntern.start] using mdlErrorInd_errorInd cause)
      split
      · exact herr _
      · split
        · exact herr _
        · exact downlinkMfeDm_rests he rfl rfl rfl (by simp [CchIntern.start])
    · split
      · exact emit_rests he _
      · exact start_rests sapi c

private theorem downlinkAwaitingRelease_rests {sapi : Sapi} {c : Chan} {f : Frame}
    (hs : c.state = .awaitingRelease) : Rests sapi c (downlinkAwaitingRelease sapi (CchIntern.start c) f) := by
  unfold downlinkAwaitingRelease
  split
  · split
    · split
      · split
        · refine ⟨rfl, rfl, by simp [CchIntern.emit, CchIntern.start, Signal.control], .inl (.of_dead ?_)⟩
          simp [live, armed, CchIntern.link, CchIntern.emit, ChState.established]
        · exact start_rests sapi c
      · split
        · refine ⟨rfl, rfl, by simp [CchIntern.start], .inl (.of_dead ?_)⟩
          simp [live, armed, CchIntern.link, CchIntern.start, hs, ChState.established]
        · exact start_rests sapi c
    · split
      · exact ⟨rfl, rfl, by simp [CchIntern.emit, CchIntern.start, Signal.control],
          .inr ⟨.releaseCnf true, by simp [CchIntern.emit], rfl⟩⟩
      · exact start_rests sapi c
  · exact start_rests sapi c

/-- A frame that neither opens the link nor is transferred on it is quiet. -/
theorem frame_quiet {ch : ChType} {sapi : Sapi} {c : Chan} {f : Frame} (ho : opens ch sapi c f = false)
    (ht : transfers ch sapi c f = false) :
    let r := step sapi (.frame ch f) c
    Quiet sapi c r.1 ∧ inds r.2.prims = [] := by
  simp only [step, dlDownlink]
  by_cases ha : addressed ch sapi f
  · simp only [ha, if_true]
    refine Calm.serve (Rests.calm ?_)
    have hst : (CchIntern.start c).state = c.state := rfl
    have hestablished : c.state.established → Rests sapi c (downlinkState ch sapi (CchIntern.start c) f) := by
      intro he
      have hu : f.formatType = .u := by simpa [transfers, ha, he] using ht
      have hns : (f.cr && f.uType == sabmFrame && f.lengthIndicator == 0) = false := by
        revert he
        cases hs : c.state <;> simp [ChState.established] <;> simpa [opens, ha, hu, hs] using ho
      unfold downlinkState
      revert he
      cases hs : c.state <;> simp only [ChState.established, Bool.false_eq_true, false_implies, true_implies, hst, hs]
      · simp only [downlinkMfe, hu]
        exact downlinkMfeTrUnnumbered_rests (by rw [hs]; rfl) hns
      · simp only [downlinkTimerRecovery, hu]
        exact downlinkMfeTrUnnumbered_rests (by rw [hs]; rfl) hns
    cases hs : c.state with
    | multipleFrameEstablished => exact hestablished (by simp [hs, ChState.established])
    | timerRecovery => exact hestablished (by simp [hs, ChState.established])
    | disabled =>
      simp only [downlinkState, hst, hs]
      exact downlinkIdle_rests ha (.inl hs) ho
    | idleDl =>
      simp only [downlinkState, hst, hs]
      exact downlinkIdle_rests ha (.inr hs) ho
    | contentionResolution =>
      simp only [downlinkState, hst, hs]
      exact downlinkContentionResolution_rests ha hs ho
    | awaitingRelease =>
      simp only [downlinkState, hst, hs]
      exact downlinkAwaitingRelease_rests hs
    | suspended =>
      simp only [downlinkState, hst, hs]
      exact start_rests sapi c
  · simp only [ha]
    exact ⟨.refl _ _, rfl⟩

end Citrine.Dl
