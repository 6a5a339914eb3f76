import Citrine.Dl.Position

/-!
# The window of the transmitting side

At most one I frame is outstanding.  With the segments of all messages numbered from zero, the transmitting side
stands for three numbers: `A` segments are acknowledged, `S` is the number behind V(S), and `T` segments have been
sent at least once.  `Tx.Inv` relates them to the queue; `Tx.Inv.receive` and `Tx.Inv.uplink` keep it, under a
condition (`Tx.sound`) on the frames that `free_sending_buffer` and `invoke_retransmission` take for more than
they say.
-/

namespace Citrine.Dl

/-! ### The condition -/

/-- `free_sending_buffer` has nothing to free. -/
def Queue.idle (q : Queue) : Bool := q.switchBuf.isNone && (q.sending.isNone || q.actLength != 0)

/-- The frame is acted upon only as far as its N(R) goes. -/
def Tx.sound (f : Frame) (t : Tx) : Bool :=
  let nr := f.receiveNumber
  let final := f.pBit && !f.cr
  -- the switch buffer has not been sent, and V(A) = V(S) = N(R) all the same
  let unsent := nr == t.vs && t.va == t.vs && t.queue.switchBuf.isSome
  match t.state, f.formatType with
  | .multipleFrameEstablished, .i => !(f.cr && unsent)
  | .multipleFrameEstablished, .s =>
    if f.sType = rejFrame then !(nr == t.vs && t.queue.switchBuf.isSome) else !unsent
  | .timerRecovery, .s =>
    if f.sType = rejFrame then nr == t.vs || (!final && t.queue.idle) else nr == t.vs || (final && t.queue.idle)
  | _, _ => true

/-! ### The invariant -/

/-- The first `S` segments have been read from the queue. -/
structure Queue.At (ch : ChType) (msgs : List (List Octet)) (S : Nat) (q : Queue) : Prop where
  wf : q.Wf
  le : S ≤ (outgoing ch msgs).length
  position : q.switchBuf = none → (outgoing ch msgs).drop S = q.rest ch
  switch : ∀ w, q.switchBuf = some w →
    S ≤ 1 ∧ outgoing ch msgs = outgoing ch [w.sdu] ++ q.rest ch ∧ (0 < S → w.sdu.length ≤ n201 ch)

/-- The messages that have left the queue are acknowledged. -/
def Queue.Accounts (ch : ChType) (msgs : List (List Octet)) (A confirmed : Nat) (q : Queue) : Prop :=
  ∃ done, msgs = done ++ q.held ∧ (outgoing ch done).length ≤ A ∧ confirmed ≤ done.length ∧
    (q.switchBuf.isSome → done = [])

/-- The transmitting side and its three numbers. -/
structure Tx.Inv (ch : ChType) (msgs : List (List Octet)) (A S T : Nat) (t : Tx) : Prop where
  va : t.va = A % 8
  vs : t.vs = S % 8
  state : t.state.established
  window : A ≤ S ∧ S ≤ T ∧ T ≤ A + 1
  sent : T ≤ (outgoing ch msgs).length
  pos : t.queue.At ch msgs S
  timed : t.state = .multipleFrameEstablished → t.running → S = A + 1
  recovery : t.state = .timerRecovery → T = S ∧ 0 < S
  content : T = S → 0 < S → (outgoing ch msgs)[S - 1]? = some (t.queue.transmit, t.queue.mBit)
  switch : t.state = .multipleFrameEstablished → t.queue.switchBuf.isSome → A = 0
  recoverable : t.queue.switchBuf = none → S = A + 1 → t.queue.Recoverable ch

theorem length_le_of_mem_outgoing {ch : ChType} {msgs : List (List Octet)} {s : Segment Octet}
    (h : s ∈ outgoing ch msgs) : s.1.length ≤ n201 ch := by
  simp only [outgoing, segments, List.mem_flatMap, List.mem_map] at h
  obtain ⟨_, ⟨m, -, rfl⟩, h⟩ := h
  exact length_le_of_mem_marked_chunks (n201_pos ch) h

section
variable {ch : ChType} {msgs : List (List Octet)} {A S T confirmed : Nat} {q : Queue} {t : Tx}

/-! ### The queue -/

theorem Queue.Accounts.mono (h : q.Accounts ch msgs A confirmed) {A' : Nat} (ha : A ≤ A') :
    q.Accounts ch msgs A' confirmed := by
  obtain ⟨done, hm, hl, hc, hs⟩ := h
  exact ⟨done, hm, by omega, hc, hs⟩

/-- When the sending buffer has been read to its end, its segments are among those read. -/
private theorem Queue.At.spent_le (h : q.At ch msgs S) (hs : q.switchBuf = none) {done : List (List Octet)}
    (hm : msgs = done ++ q.held) (hd : (outgoing ch done).length ≤ S) :
    (outgoing ch (done ++ q.spent)).length ≤ S := by
  by_cases hz : q.actLength = 0
  · have hheld : q.held = q.spent ++ q.store.map Msg.sdu := by
      unfold Queue.held Queue.spent
      rw [hs, if_pos hz]
      simp
    have hrest : q.rest ch = outgoing ch (q.store.map Msg.sdu) := by
      have hp : q.pending ch = [] := by
        unfold Queue.pending
        split
        · rw [if_pos hz]
        · rfl
      unfold Queue.rest
      rw [hp]
      rfl
    have hG : outgoing ch msgs = outgoing ch (done ++ q.spent) ++ outgoing ch (q.store.map Msg.sdu) := by
      rw [hm, hheld, ← List.append_assoc, outgoing_append]
    have hlen := congrArg List.length (h.position hs)
    rw [List.length_drop, hrest] at hlen
    have hle := h.le
    rw [hG, List.length_append] at hlen hle
    omega
  · have hsp : q.spent = [] := if_neg hz
    rw [hsp, List.append_nil]
    exact hd

/-- Freeing is sound once the switch buffer has been sent. -/
private theorem Queue.At.acknowledge (h : q.At ch msgs S) (hs : q.switchBuf.isSome → S = 1) :
    q.acknowledge.At ch msgs S := by
  refine ⟨h.wf.acknowledge, h.le, fun _ => ?_, fun w hw => by simp at hw⟩
  rw [acknowledge_rest]
  cases hw : q.switchBuf with
  | none => exact h.position hw
  | some w =>
    obtain ⟨-, hG, hl⟩ := h.switch w hw
    have h1 : S = 1 := hs (by simp [hw])
    subst h1
    rw [hG, outgoing_of_le (hl Nat.one_pos)]
    rfl

private theorem Queue.Accounts.acknowledge (h : q.Accounts ch msgs A confirmed) (hp : q.At ch msgs S)
    (hs : q.switchBuf.isSome → S = 1) (ha : A ≤ S) :
    q.acknowledge.Accounts ch msgs S (confirmed + q.confirms.toNat) := by
  obtain ⟨done, hm, hl, hc, hd⟩ := h
  refine ⟨done ++ q.freed, ?_, ?_, ?_, by simp⟩
  · rw [List.append_assoc, ← acknowledge_held]
    exact hm
  · unfold Queue.freed
    split
    · rename_i w hw
      have hsome : q.switchBuf.isSome := by simp [hw]
      have h1 := hs hsome
      have hw1 := (hp.switch w hw).2.2 (by omega)
      rw [hd hsome, List.nil_append, outgoing_of_le hw1, h1]
      exact Nat.le_refl 1
    · rename_i hw
      exact hp.spent_le hw hm (by omega)
  · have hf : q.confirms.toNat ≤ q.freed.length := by
      unfold Queue.confirms Queue.freed Queue.spent
      split
      · rename_i m hw hm
        rw [hw, hm]
        by_cases hz : q.actLength = 0
        · simpa [hz] using Bool.toNat_le _
        · simp [hz]
      · exact Nat.zero_le _
    rw [List.length_append]
    omega

/-! ### Numbers -/

private theorem Tx.Inv.numbers (h : t.Inv ch msgs A S T) {num : Nat} (hn : A ≤ num ∧ num ≤ T) :
    (num % 8 = t.vs ↔ num = S) ∧ (num % 8 = t.va ↔ num = A) ∧ (t.va = t.vs ↔ A = S) ∧
      (comCheckNr t.va t.vs (num % 8) ↔ num ≤ S) := by
  have hw := h.window
  rw [h.va, h.vs]
  unfold comCheckNr
  rw [decide_eq_true_iff]
  refine ⟨?_, ?_, ?_, ?_⟩ <;> omega

/-! ### Downlink frames -/

/-- A frame of the peer, whose N(R) stands for `num`, has been handled. -/
private def Handles (ch : ChType) (msgs : List (List Octet)) (T confirmed num : Nat) (r : Tx × Bool) : Prop :=
  ∃ A S, A ≤ num ∧ r.1.Inv ch msgs A S T ∧ r.1.queue.Accounts ch msgs A (confirmed + r.2.toNat)

private theorem Tx.Inv.unchanged (h : t.Inv ch msgs A S T) (hacc : t.queue.Accounts ch msgs A confirmed) {num : Nat}
    (hn : A ≤ num) : Handles ch msgs T confirmed num (t, false) :=
  ⟨A, S, hn, h, hacc⟩

/-- All that was sent is acknowledged, and the buffer is freed. -/
private theorem Tx.Inv.freed (h : t.Inv ch msgs A S T) (hacc : t.queue.Accounts ch msgs A confirmed) {u : Tx}
    (hs : t.queue.switchBuf.isSome → S = 1) (hva : u.va = S % 8) (hvs : u.vs = S % 8)
    (hq : u.queue = t.queue.acknowledge)
    (hst : (u.state = .multipleFrameEstablished ∧ u.running = false) ∨ (u.state = .timerRecovery ∧ T = S ∧ 0 < S)) :
    Handles ch msgs T confirmed S (u, t.queue.confirms) := by
  have hw := h.window
  refine ⟨S, S, Nat.le_refl _, ⟨hva, hvs, ?_, by omega, h.sent, ?_, ?_, ?_, ?_, ?_, by omega⟩, ?_⟩
  · rcases hst with hst | hst <;> rw [hst.1] <;> rfl
  · rw [hq]
    exact h.pos.acknowledge hs
  · intro hm hr
    rcases hst with hst | hst
    · rw [hst.2] at hr
      cases hr
    · rw [hst.1] at hm
      cases hm
  · intro hm
    rcases hst with hst | hst
    · rw [hst.1] at hm
      cases hm
    · exact hst.2
  · intro h1 h2
    rw [hq, (acknowledge_transmit _).1, (acknowledge_transmit _).2]
    exact h.content h1 h2
  · intro _ hsw
    rw [hq] at hsw
    simp at hsw
  · rw [hq]
    exact hacc.acknowledge h.pos hs hw.1

/-- All that was sent is acknowledged, and the buffer is kept. -/
private theorem Tx.Inv.moved (h : t.Inv ch msgs A S T) (hacc : t.queue.Accounts ch msgs A confirmed) {u : Tx}
    (hva : u.va = S % 8) (hvs : u.vs = S % 8) (hq : u.queue = t.queue)
    (hst : (u.state = .multipleFrameEstablished ∧ u.running = false ∧ t.queue.switchBuf = none) ∨
      (u.state = .timerRecovery ∧ T = S ∧ 0 < S)) :
    Handles ch msgs T confirmed S (u, false) := by
  have hw := h.window
  refine ⟨S, S, Nat.le_refl _, ⟨hva, hvs, ?_, by omega, h.sent, hq ▸ h.pos, ?_, ?_, ?_, ?_, by omega⟩, ?_⟩
  · rcases hst with hst | hst <;> rw [hst.1] <;> rfl
  · intro hm hr
    rcases hst with hst | hst
    · rw [hst.2.1] at hr
      cases hr
    · rw [hst.1] at hm
      cases hm
  · intro hm
    rcases hst with hst | hst
    · rw [hst.1] at hm
      cases hm
    · exact hst.2
  · rw [hq]
    exact h.content
  · intro hm hsw
    rcases hst with hst | hst
    · rw [hq, hst.2.2] at hsw
      cases hsw
    · rw [hst.1] at hm
      cases hm
  · rw [hq]
    exact hacc.mono hw.1

/-- The outstanding frame is to be sent again. -/
private theorem Tx.Inv.recovered (h : t.Inv ch msgs A S T) (hacc : t.queue.Accounts ch msgs A confirmed) {u : Tx}
    {num : Nat} (hn : A ≤ num) (hS : S = A + 1) (hsw : t.queue.switchBuf = none) (hva : u.va = A % 8)
    (hvs : u.vs = A % 8) (hq : u.queue = comRecoverQueue t.queue) (hm : u.state = .multipleFrameEstablished)
    (hr : u.running = false) : Handles ch msgs T confirmed num (u, false) := by
  have hw := h.window
  have hrec := h.recoverable hsw hS
  have hT : T = S := by omega
  have hlt : A < (outgoing ch msgs).length := by
    have := h.sent
    omega
  have hdrop : (outgoing ch msgs).drop A = (t.queue.transmit, t.queue.mBit) :: t.queue.rest ch := by
    have hc := h.content hT (by omega)
    have hp := h.pos.position hsw
    rw [hS] at hc hp
    rw [Nat.add_sub_cancel, List.getElem?_eq_getElem hlt, Option.some.injEq] at hc
    rw [List.drop_eq_getElem_cons hlt, hc, hp]
  refine ⟨A, A, hn, ⟨hva, hvs, by rw [hm]; rfl, by omega, h.sent, ?_, ?_, ?_, by omega, ?_, by omega⟩, ?_⟩
  · rw [hq]
    refine ⟨hrec.wf, Nat.le_of_lt hlt, fun _ => ?_, fun w hw' => ?_⟩
    · rw [hrec.rest, hdrop]
    · rw [comRecoverQueue_switchBuf, hsw] at hw'
      cases hw'
  · intro _ hr'
    rw [hr] at hr'
    cases hr'
  · intro hm'
    rw [hm] at hm'
    cases hm'
  · intro _ hsw'
    rw [hq, comRecoverQueue_switchBuf, hsw] at hsw'
    cases hsw'
  · rw [hq]
    obtain ⟨done, h1, h2, h3, h4⟩ := hacc
    refine ⟨done, ?_, h2, h3, ?_⟩
    · rw [comRecoverQueue_held]
      exact h1
    · rw [comRecoverQueue_switchBuf]
      exact h4

/-- The switch buffer holds a message that has been sent. -/
private theorem Tx.Inv.switch_sent (h : t.Inv ch msgs A S T) (hlt : 0 < S) (hs : t.queue.switchBuf.isSome) :
    S = 1 := by
  obtain ⟨w, hw⟩ := Option.isSome_iff_exists.1 hs
  have := (h.pos.switch w hw).1
  omega

private theorem Tx.Inv.acknowledge (h : t.Inv ch msgs A S T) (hacc : t.queue.Accounts ch msgs A confirmed) {num : Nat}
    (hn : A ≤ num ∧ num ≤ S) (hm : t.state = .multipleFrameEstablished)
    (hok : ¬ (num = S ∧ A = S ∧ t.queue.switchBuf.isSome)) :
    Handles ch msgs T confirmed num (t.acknowledge (num % 8)) := by
  have hw := h.window
  have hn' : A ≤ num ∧ num ≤ T := by omega
  obtain ⟨h1, h2, -, -⟩ := h.numbers hn'
  unfold Tx.acknowledge
  split
  · rename_i hvs
    obtain rfl : num = S := h1.1 hvs
    refine h.freed hacc (fun hs => ?_) rfl h.vs rfl (.inl ⟨hm, ?_⟩)
    · have hA : A ≠ num := fun he => hok ⟨rfl, he, hs⟩
      exact h.switch_sent (by omega) hs
    · cases hr : t.running with
      | false => rfl
      | true =>
        have hS := h.timed hm hr
        have hne : ((8 + num % 8 - t.va) % 8 == 0) = false := by
          rw [h.va]
          simp only [beq_eq_false_iff_ne, ne_eq]
          omega
        rw [hne]
        rfl
  · rename_i hvs
    have hA : num = A := by
      have hne : num ≠ S := fun he => hvs (h1.2 he)
      omega
    rw [if_neg (Decidable.not_not.2 (h2.2 hA))]
    exact h.unchanged hacc hn.1

private theorem Tx.Inv.supervisoryMfe (h : t.Inv ch msgs A S T) (hacc : t.queue.Accounts ch msgs A confirmed)
    {f : Frame} {num : Nat} (hn : A ≤ num ∧ num ≤ T) (hnr : f.receiveNumber = num % 8)
    (hrej : f.sType = rejFrame → 1 ≤ num) (hm : t.state = .multipleFrameEstablished)
    (hok : if f.sType = rejFrame then ¬ (num = S ∧ t.queue.switchBuf.isSome)
      else ¬ (num = S ∧ A = S ∧ t.queue.switchBuf.isSome)) :
    Handles ch msgs T confirmed num (t.supervisoryMfe f) := by
  have hw := h.window
  obtain ⟨h1, h2, h3, h4⟩ := h.numbers hn
  unfold Tx.supervisoryMfe
  simp only [hnr]
  split
  · rename_i hc
    have hle := h4.1 hc
    split
    · rename_i hrr
      have hne : f.sType ≠ rejFrame := by
        rw [hrr]
        decide
      rw [if_neg hne] at hok
      exact h.acknowledge hacc ⟨hn.1, hle⟩ hm hok
    · split
      · rename_i hre
        rw [if_pos hre] at hok
        by_cases hS : num = S
        · subst hS
          have hr : t.retransmit (num % 8) = t := by
            unfold Tx.retransmit
            rw [if_neg (Decidable.not_not.2 h.vs)]
          rw [hr]
          refine h.moved hacc rfl rfl rfl (.inl ⟨hm, rfl, ?_⟩)
          simpa using hok
        · obtain rfl : num = A := by omega
          have hne : t.vs ≠ num % 8 := fun he => hS (h1.1 he.symm)
          have hr : t.retransmit (num % 8) = { t with vs := (t.vs + 7) % 8, queue := comRecoverQueue t.queue } := by
            unfold Tx.retransmit
            rw [if_pos hne]
          rw [hr]
          have hsw : t.queue.switchBuf = none := by
            cases hw' : t.queue.switchBuf with
            | none => rfl
            | some w =>
              have := h.switch hm (by simp [hw'])
              have := hrej hre
              omega
          exact h.recovered hacc (Nat.le_refl _) (by omega) hsw rfl rfl rfl hm rfl
      · exact h.unchanged hacc hn.1
  · exact h.unchanged hacc hn.1

/-- With nothing to free, `free_sending_buffer` does nothing. -/
private theorem acknowledge_idle (hq : q.idle) : q.acknowledge = q ∧ q.confirms = false := by
  simp only [Queue.idle, Bool.and_eq_true, Option.isNone_iff_eq_none, Bool.or_eq_true, bne_iff_ne, ne_eq] at hq
  obtain ⟨hw, hs⟩ := hq
  have hk : q.acknowledge = if q.actLength = 0 then { q with sending := none } else q := by
    unfold Queue.acknowledge
    split
    · rename_i w hw'
      rw [hw] at hw'
      cases hw'
    · rfl
  unfold Queue.confirms
  rw [hk]
  rcases hs with hs | hs
  · refine ⟨?_, by simp [hw, hs]⟩
    split
    · rw [← hs]
    · rfl
  · refine ⟨if_neg hs, ?_⟩
    rw [hw]
    cases q.sending <;> simp [hs]

private theorem Tx.Inv.supervisoryTr (h : t.Inv ch msgs A S T) (hacc : t.queue.Accounts ch msgs A confirmed)
    {f : Frame} {num : Nat} (hn : A ≤ num ∧ num ≤ T) (hnr : f.receiveNumber = num % 8) (htr : t.state = .timerRecovery)
    (hok : num = S ∨ ((f.sType = rejFrame ↔ (f.pBit && !f.cr) = false) ∧ t.queue.idle)) :
    Handles ch msgs T confirmed num (t.supervisoryTr f) := by
  have hw := h.window
  obtain ⟨hT, hpos⟩ := h.recovery htr
  obtain ⟨h1, h2, h3, h4⟩ := h.numbers hn
  have hc := h4.2 (by omega)
  unfold Tx.supervisoryTr
  simp only [hnr, hc, if_true, Bool.true_and]
  have hstill : ∀ u : Tx, u.va = num % 8 → u.vs = t.vs → u.queue = t.queue → u.state = .timerRecovery → num ≠ S →
      Handles ch msgs T confirmed num (u, false) := by
    intro u hva hvs hq hst hne
    obtain rfl : num = A := by omega
    refine ⟨num, S, Nat.le_refl _, ⟨hva, hvs.trans h.vs, by rw [hst]; rfl, hw, h.sent, hq ▸ h.pos, ?_,
      fun _ => ⟨hT, hpos⟩, hq ▸ h.content, ?_, hq ▸ h.recoverable⟩, hq ▸ hacc⟩
    · intro hm
      rw [hst] at hm
      cases hm
    · intro hm
      rw [hst] at hm
      cases hm
  split
  · rename_i hrr
    have hne : f.sType ≠ rejFrame := by
      rw [hrr]
      decide
    split
    · rename_i hfin
      by_cases hS : num = S
      · subst hS
        exact h.freed hacc (h.switch_sent hpos) rfl h.vs rfl (.inl ⟨rfl, rfl⟩)
      · obtain ⟨-, hq⟩ := hok.resolve_left hS
        obtain ⟨hq1, hq2⟩ := acknowledge_idle hq
        have hswn : t.queue.switchBuf = none := by
          simp only [Queue.idle, Bool.and_eq_true, Option.isNone_iff_eq_none] at hq
          exact hq.1
        obtain rfl : num = A := by omega
        rw [hq2]
        refine ⟨num, S, Nat.le_refl _, ⟨rfl, h.vs, rfl, hw, h.sent, ?_, ?_, ?_, ?_, ?_, ?_⟩, ?_⟩
        · exact hq1.symm ▸ h.pos
        · intro _ hr
          cases hr
        · intro hm
          cases hm
        · exact hq1.symm ▸ h.content
        · intro _ hs
          simp at hs
        · exact hq1.symm ▸ h.recoverable
        · exact hq1.symm ▸ hacc
    · rename_i hfin
      have hS : num = S := by
        refine hok.resolve_right fun hr => ?_
        exact hne (hr.1.2 (by simpa using hfin))
      subst hS
      have hr : Tx.retransmit (num % 8) { t with va := num % 8 } = { t with va := num % 8 } := by
        unfold Tx.retransmit
        rw [if_neg (Decidable.not_not.2 h.vs)]
      rw [hr]
      exact h.moved hacc rfl h.vs rfl (.inr ⟨htr, hT, hpos⟩)
  · split
    · rename_i hre
      split
      · rename_i hfin
        have hS : num = S := by
          refine hok.resolve_right fun hr => ?_
          rw [hr.1.1 hre] at hfin
          cases hfin
        subst hS
        exact h.freed hacc (h.switch_sent hpos) rfl rfl rfl (.inl ⟨rfl, rfl⟩)
      · by_cases hS : num = S
        · subst hS
          exact h.freed hacc (h.switch_sent hpos) rfl h.vs rfl (.inr ⟨htr, hT, hpos⟩)
        · obtain ⟨hq1, hq2⟩ := acknowledge_idle (hok.resolve_left hS).2
          rw [hq2]
          exact hstill _ rfl rfl hq1 htr hS
    · exact h.unchanged hacc hn.1

/-- A frame of the peer, whose N(R) stands for `num`, keeps the invariant. -/
theorem Tx.Inv.receive (h : t.Inv ch msgs A S T) (hacc : t.queue.Accounts ch msgs A confirmed) {f : Frame}
    {num : Nat} (hn : A ≤ num ∧ num ≤ T) (hnr : f.receiveNumber = num % 8)
    (hrej : f.formatType = .s → f.sType = rejFrame → 1 ≤ num) (hok : t.sound f) :
    ∃ A S, A ≤ num ∧ (t.receive f).1.Inv ch msgs A S T ∧
      (t.receive f).1.queue.Accounts ch msgs A (confirmed + (t.receive f).2.toNat) := by
  change Handles ch msgs T confirmed num (t.receive f)
  have hw := h.window
  obtain ⟨h1, h2, h3, h4⟩ := h.numbers hn
  unfold Tx.receive
  unfold Tx.sound at hok
  simp only [hnr] at hok ⊢
  split
  · rename_i hm hf
    simp only [hm, hf] at hok
    split
    · rename_i hc
      simp only [Bool.and_eq_true] at hc
      refine h.acknowledge hacc ⟨hn.1, h4.1 hc.2⟩ hm fun hbad => ?_
      simp [hc.1, h1.2 hbad.1, h3.2 hbad.2.1, hbad.2.2] at hok
    · exact h.unchanged hacc hn.1
  · rename_i hm hf
    simp only [hm, hf] at hok
    refine h.supervisoryMfe hacc hn hnr (hrej hf) hm ?_
    split at hok
    · rename_i hre
      rw [if_pos hre]
      intro hbad
      simp [h1.2 hbad.1, hbad.2] at hok
    · rename_i hre
      rw [if_neg hre]
      intro hbad
      simp [h1.2 hbad.1, h3.2 hbad.2.1, hbad.2.2] at hok
  · rename_i htr hf
    obtain ⟨hT, hpos⟩ := h.recovery htr
    split
    · by_cases hS : num = S
      · subst hS
        exact h.moved hacc rfl h.vs rfl (.inr ⟨htr, hT, hpos⟩)
      · obtain rfl : num = A := by omega
        have hva : ({ t with va := num % 8 } : Tx) = t := by rw [← h.va]
        rw [hva]
        exact h.unchanged hacc hn.1
    · exact h.unchanged hacc hn.1
  · rename_i htr hf
    simp only [htr, hf] at hok
    refine h.supervisoryTr hacc hn hnr htr ?_
    split at hok
    · rename_i hre
      simp only [Bool.or_eq_true, Bool.and_eq_true, beq_iff_eq] at hok
      rcases hok with hok | hok
      · exact .inl (h1.1 hok)
      · have hfin : (f.pBit && !f.cr) = false := by
          rw [← Bool.not_eq_true']
          exact hok.1
        exact .inr ⟨⟨fun _ => hfin, fun _ => hre⟩, hok.2⟩
    · rename_i hre
      simp only [Bool.or_eq_true, Bool.and_eq_true, beq_iff_eq] at hok
      rcases hok with hok | hok
      · exact .inl (h1.1 hok)
      · exact .inr ⟨⟨fun h' => absurd h' hre, fun h' => by simp [hok.1] at h'⟩, hok.2⟩
  · exact h.unchanged hacc hn.1

/-! ### Uplink opportunities -/

/-- The I frame of segment number `num`. -/
structure Carries (ch : ChType) (msgs : List (List Octet)) (num : Nat) (f : Frame) : Prop where
  sendNumber : f.sendNumber = num % 8
  segment : (outgoing ch msgs)[num]? = some (f.infoField, f.mBit)

private theorem command_carries (sapi : Sapi) {vr num : Nat} (hvr : vr < 8) (p : Bool) (seg : Segment Octet)
    (h : (outgoing ch msgs)[num]? = some seg) :
    Carries ch msgs num (comBuildICommand ch sapi (num % 8) vr p seg.2 seg.1) := by
  have hl : seg.1.length ≤ n201 ch := length_le_of_mem_outgoing (List.mem_of_getElem? h)
  refine ⟨(iFrame_ctrl (Nat.mod_lt _ (by decide)) hvr).2.1, ?_⟩
  rw [h]
  have hi : (comBuildICommand ch sapi (num % 8) vr p seg.2 seg.1).infoField = seg.1 := comBuildFrame_infoField hl
  have hm : (comBuildICommand ch sapi (num % 8) vr p seg.2 seg.1).mBit = seg.2 := comBuildFrame_mBit
  rw [hi, hm]

/-- What the next I frame takes from the queue. -/
private theorem Queue.At.read (h : q.At ch msgs S) (hlen : ∀ w, q.switchBuf = some w → w.sdu.length ≤ n201 ch)
    (h0 : q.switchBuf.isSome → S = 0) (ha : comQueueAwaitingTransmission q) :
    let r := comReadQueue ch q
    r.At ch msgs (S + 1) ∧ (outgoing ch msgs)[S]? = some (r.transmit, r.mBit) ∧
      r.switchBuf = q.switchBuf ∧ (q.switchBuf = none → r.Recoverable ch) := by
  cases hs : q.switchBuf with
  | none =>
    obtain ⟨hr, hwf, hrec, hsw, -⟩ := comReadQueue_rest h.wf hs ha
    have hp := h.position hs
    rw [hr] at hp
    have hlt : S < (outgoing ch msgs).length := by
      have hl := congrArg List.length hp
      rw [List.length_drop, List.length_cons] at hl
      omega
    rw [List.drop_eq_getElem_cons hlt, List.cons.injEq] at hp
    refine ⟨⟨hwf, hlt, fun _ => hp.2, fun w hw => ?_⟩, ?_, hsw, fun _ => hrec⟩
    · rw [hsw] at hw
      cases hw
    · rw [List.getElem?_eq_getElem hlt, hp.1]
  | some w =>
    have hS := h0 (by simp [hs])
    subst hS
    obtain ⟨-, hG, -⟩ := h.switch w hs
    have hw := hlen w hs
    have hG' := hG
    rw [outgoing_of_le hw] at hG'
    rw [comReadQueue_switch hs]
    refine ⟨⟨⟨h.wf.sending, h.wf.idle, h.wf.store⟩, ?_, fun hn => ?_, fun w' hw' => ?_⟩, ?_, hs, fun hn => ?_⟩
    · rw [hG', List.length_append]
      exact Nat.le_add_right _ _
    · rw [hs] at hn
      cases hn
    · rw [hs, Option.some.injEq] at hw'
      exact ⟨Nat.le_refl _, hw' ▸ hG, fun _ => hw' ▸ hw⟩
    · rw [hG']
      rfl
    · cases hn

private theorem Queue.Accounts.read (hacc : q.Accounts ch msgs A confirmed) (h : q.At ch msgs A)
    (ha : comQueueAwaitingTransmission q) : (comReadQueue ch q).Accounts ch msgs A confirmed := by
  obtain ⟨done, hm, hl, hc, hd⟩ := hacc
  cases hs : q.switchBuf with
  | none =>
    obtain ⟨-, -, -, hsw, hheld⟩ := comReadQueue_rest h.wf hs ha
    refine ⟨done ++ q.spent, ?_, h.spent_le hs hm hl, ?_, ?_⟩
    · rw [List.append_assoc, ← hheld]
      exact hm
    · rw [List.length_append]
      omega
    · rw [hsw]
      simp
  | some w =>
    rw [comReadQueue_switch hs]
    exact ⟨done, hm, hl, hc, hd⟩

/-- An uplink opportunity keeps the invariant, and the I frame that goes out carries the segment of its number. -/
theorem Tx.Inv.uplink (h : t.Inv ch msgs A S T) (hacc : t.queue.Accounts ch msgs A confirmed) {sapi : Sapi} {vr : Nat}
    {u : Tx} {frame : Option Frame} (hlen : ∀ w, t.queue.switchBuf = some w → w.sdu.length ≤ n201 ch) (hvr : vr < 8)
    (hu : Tx.Uplink ch sapi vr t u frame) :
    u.queue.Accounts ch msgs A confirmed ∧ (frame = none → ∃ S, u.Inv ch msgs A S T) ∧
      ∀ f, frame = some f →
        ∃ num S, Carries ch msgs num f ∧ T ≤ num + 1 ∧ num ≤ T ∧ u.Inv ch msgs A S (max T (num + 1)) := by
  have hw := h.window
  have hexpire : t.state = .timerRecovery ∨ t.running → T = S ∧ 0 < S := by
    intro ht
    have hs := h.state
    cases hst : t.state <;> rw [hst] at hs <;> try cases hs
    case timerRecovery => exact h.recovery hst
    case multipleFrameEstablished =>
      have hr : t.running := ht.resolve_left (by simp [hst])
      have := h.timed hst hr
      omega
  have hrecovery : ∀ running : Bool, T = S ∧ 0 < S →
      Tx.Inv ch msgs A S T { t with state := .timerRecovery, running := running } := by
    intro running hT
    refine ⟨h.va, h.vs, rfl, hw, h.sent, h.pos, ?_, fun _ => hT, h.content, ?_, h.recoverable⟩
    · intro hm
      cases hm
    · intro hm
      cases hm
  cases hu with
  | idle running hr =>
    refine ⟨hacc, fun _ => ⟨S, ?_⟩, fun f hf => by cases hf⟩
    exact ⟨h.va, h.vs, h.state, hw, h.sent, h.pos, fun hm hr' => h.timed hm (hr hr'), h.recovery, h.content,
      h.switch, h.recoverable⟩
  | expire running ht => exact ⟨hacc, fun _ => ⟨S, hrecovery running (hexpire ht)⟩, fun f hf => by cases hf⟩
  | «repeat» running ht =>
    obtain ⟨hT, hpos⟩ := hexpire ht
    have hnum : (t.vs + 7) % 8 = (S - 1) % 8 := by
      rw [h.vs]
      omega
    refine ⟨hacc, fun hf => (by cases hf), fun f hf => ?_⟩
    cases hf
    refine ⟨S - 1, S, ?_, by omega, by omega, ?_⟩
    · rw [hnum]
      exact command_carries sapi hvr true (t.queue.transmit, t.queue.mBit) (h.content hT hpos)
    · rw [show max T (S - 1 + 1) = T by omega]
      exact hrecovery running ⟨hT, hpos⟩
  | send hm hwin ha =>
    have hS : S = A := by
      have hne : S ≠ A + 1 := by
        intro he
        rw [h.vs, h.va, he] at hwin
        omega
      omega
    subst hS
    have h0 : t.queue.switchBuf.isSome → S = 0 := h.switch hm
    obtain ⟨hat, hseg, hsw, hrec⟩ := h.pos.read hlen h0 ha
    have hmax : max T (S + 1) = S + 1 := by omega
    refine ⟨hacc.read h.pos ha, fun hf => (by cases hf), fun f hf => ?_⟩
    cases hf
    refine ⟨S, S + 1, ?_, by omega, by omega, ?_⟩
    · rw [h.vs]
      exact command_carries sapi hvr false ((comReadQueue ch t.queue).transmit, (comReadQueue ch t.queue).mBit) hseg
    · rw [hmax]
      refine ⟨h.va, ?_, h.state, by omega, hat.le, hat, fun _ _ => rfl, ?_, fun _ _ => hseg, ?_, ?_⟩
      · simp only
        rw [h.vs]
        omega
      · intro htr
        exact absurd (hm.symm.trans htr) (by decide)
      · intro _ hs
        exact h0 (hsw ▸ hs)
      · intro hn _
        exact hrec (hsw ▸ hn)

/-! ### Requests -/

/-- A message of RR goes to the end of the queue. -/
theorem Tx.Inv.push (h : t.Inv ch msgs A S T) (hacc : t.queue.Accounts ch msgs A confirmed) {m : Msg}
    (hm : m.sdu ≠ []) :
    Tx.Inv ch (msgs ++ [m.sdu]) A S T { t with queue := t.queue.push m } ∧
      (t.queue.push m).Accounts ch (msgs ++ [m.sdu]) A confirmed := by
  have hG : outgoing ch (msgs ++ [m.sdu]) = outgoing ch msgs ++ outgoing ch [m.sdu] := outgoing_append ch _ _
  have hlen : (outgoing ch msgs).length ≤ (outgoing ch (msgs ++ [m.sdu])).length := by
    rw [hG, List.length_append]
    exact Nat.le_add_right _ _
  have hw := h.window
  have hsent := h.sent
  have hSle := h.pos.le
  refine ⟨⟨h.va, h.vs, h.state, h.window, by omega, ⟨h.pos.wf.push hm, by omega, fun hs => ?_, fun w hw' => ?_⟩,
    h.timed, h.recovery, fun h1 h2 => ?_, h.switch, fun hs hS => (h.recoverable hs hS).push hm⟩, ?_⟩
  · simp only
    rw [hG, push_rest, List.drop_append_of_le_length hSle, h.pos.position hs]
  · obtain ⟨hS, hGw, hl⟩ := h.pos.switch w hw'
    refine ⟨hS, ?_, hl⟩
    simp only
    rw [hG, push_rest, hGw, List.append_assoc]
  · rw [hG, List.getElem?_append_left (by omega)]
    exact h.content h1 h2
  · obtain ⟨done, h1, h2, h3, h4⟩ := hacc
    refine ⟨done, ?_, h2, h3, h4⟩
    rw [push_held, ← List.append_assoc, ← h1]

end

end Citrine.Dl
