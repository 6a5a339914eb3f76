import Citrine.Lib.Machine
import Citrine.Lib.Turns
import Mathlib.Data.List.FinRange
import Mathlib.Data.List.Induction
import Mathlib.Tactic.SplitIfs

/-!
# Transmit scheduling of the multiplexer

The transmitter in the state `TX_MUX`: data becomes available for a DLC (`sig_drx_tx_data_available_ind`,
`sig_ker_tx_data_available_req`), the UART driver reports a frame as sent (`tx_uart_driver_sent_ind`), and
`tx_next_send_allowed` chooses the DLC that sends next.  The counters `p_zero` and `p_counter` are octets that wrap;
`advance` counts how far `p_zero` has come without a wrap and `ready` what that was when a DLC got its data.
-/

namespace Citrine.Uart

/-! ### The transmitter -/

def uartMaxNumberOfChannels : Nat := 6

/-- The instances of the DLC table. -/
abbrev Instance := Fin (uartMaxNumberOfChannels + 1)

def uartControlInstance : Instance := Fin.last uartMaxNumberOfChannels

structure Dlc where
  transmitData : Bool
  pCounter : Nat

structure Tx where
  dlcTable : Instance → Dlc
  pZero : Nat
  dlcInstance : Option Instance
  sending : Bool
  advance : Nat
  ready : Instance → Nat

namespace Tx

/-- The difference of the counters as it is stored in an octet. -/
def diff (s : Tx) (inst : Instance) : Nat := ((s.dlcTable inst).pCounter + 256 - s.pZero) % 256

/-- The rest of the loop of `tx_next_send_allowed`, with the least difference found so far. -/
def nextSend (s : Tx) : List Instance → Nat → Option Instance → Tx
  | [], diff, nextInst =>
    { s with pZero := (s.pZero + diff) % 256, dlcInstance := nextInst, advance := s.advance + diff }
  | inst :: insts, diff, nextInst =>
    if (s.dlcTable inst).transmitData then
      if (s.dlcTable inst).pCounter = s.pZero then { s with dlcInstance := some inst }
      else if ((s.dlcTable inst).pCounter : Int) - s.pZero < diff then s.nextSend insts (s.diff inst) (some inst)
      else s.nextSend insts diff nextInst
    else s.nextSend insts diff nextInst

def txNextSendAllowed (s : Tx) : Tx := s.nextSend (List.finRange (uartMaxNumberOfChannels + 1)) 255 none

/-- A DLC gets data to transmit or, by `NULL`, none. -/
def dataAvailable (prio : Instance → Nat) (s : Tx) (inst : Instance) (data : Bool) : Tx :=
  { s with
    dlcTable := fun i => if i = inst then ⟨data, (prio inst + s.pZero) % 256⟩ else s.dlcTable i
    ready := fun i => if i = inst then s.advance else s.ready i }

/-- The data of the DLC that was sending is given back. -/
def dataSent (s : Tx) : Tx :=
  let inst := s.dlcInstance.getD uartControlInstance
  { s with dlcTable := fun i => if i = inst then { s.dlcTable i with transmitData := false } else s.dlcTable i }

/-- The next DLC is determined and begins to send. -/
def sendNext (s : Tx) : Tx :=
  { s.txNextSendAllowed with sending := s.txNextSendAllowed.dlcInstance.isSome }

end Tx

/-- What the transmitter is told: that data is available for a DLC, or that the driver has sent the frame, where the
DLCs that are told of this announce further data in turn. -/
inductive TxEvent where
  | dataAvailableInd (inst : Instance) (data : Bool)
  | uartDriverSentInd (more : List (Instance × Bool))

/-- The transmitter after the DLC that was sending is told, and has announced more data. -/
def Tx.announced (prio : Instance → Nat) (s : Tx) (more : List (Instance × Bool)) : Tx :=
  more.foldl (fun s p => s.dataAvailable prio p.1 p.2) s.dataSent

/-- The transmitter after an event; the driver only reports as sent what it was given. -/
def Tx.step (prio : Instance → Nat) (s : Tx) : TxEvent → Option Tx
  | .dataAvailableInd inst data =>
    if s.sending then some (s.dataAvailable prio inst data) else some (s.dataAvailable prio inst data).sendNext
  | .uartDriverSentInd more => if s.sending then some (s.announced prio more).sendNext else none

/-- The transmitter in the state `TX_MUX`, entered while nothing or raw data is being sent. -/
def mux (prio : Instance → Nat) : Machine Tx TxEvent where
  init s := s.pZero < 256 ∧ s.advance = s.pZero ∧ s.dlcInstance = none ∧
    ∀ inst, (s.dlcTable inst).transmitData → s.sending ∧ inst = uartControlInstance ∧
      (s.dlcTable inst).pCounter = (prio inst + s.pZero) % 256 ∧ s.ready inst = s.advance
  step s e := s.step prio e

/-! ### What the transmitter is for -/

/-- The transmitter when it comes to determine the next DLC, if the event leads there. -/
def Tx.choosing (prio : Instance → Nat) (s : Tx) : TxEvent → Option Tx
  | .dataAvailableInd inst data => if s.sending then none else some (s.dataAvailable prio inst data)
  | .uartDriverSentInd more => if s.sending then some (s.announced prio more) else none

/-- The DLC has data and no DLC with data has a counter that `p_zero` reaches earlier. -/
def Tx.Next (s : Tx) (inst : Instance) : Prop :=
  (s.dlcTable inst).transmitData ∧ ∀ i, (s.dlcTable i).transmitData → s.diff inst ≤ s.diff i

instance (s : Tx) (inst : Instance) : Decidable (s.Next inst) := inferInstanceAs (Decidable (_ ∧ ∀ _, _ → _))

/-- The next DLC gets its turn and `p_zero` comes to its counter; when none has data `p_zero` stays. -/
def Tx.Sends (s t : Tx) : Prop :=
  if ∃ inst, (s.dlcTable inst).transmitData then
    ∃ inst, s.Next inst ∧ t.dlcInstance = some inst ∧ t.pZero = (s.dlcTable inst).pCounter
  else t.dlcInstance = none ∧ t.pZero = s.pZero

/-- One of the next DLCs is at `p_zero`, or no DLC behind it in the table has data and a counter beyond the wrap. -/
def Tx.Orderly (s : Tx) : Prop :=
  ∃ inst, s.Next inst ∧ ((s.dlcTable inst).pCounter = s.pZero ∨
    ∀ i, inst < i → (s.dlcTable i).transmitData → s.pZero ≤ (s.dlcTable i).pCounter)

instance (s : Tx) : Decidable s.Orderly := inferInstanceAs (Decidable (∃ _, _ ∧ (_ ∨ ∀ _, _ → _ → _)))

/-- The step does not choose among DLCs that are out of order. -/
def inOrder (prio : Instance → Nat) (s : Tx) (e : TxEvent) : Bool :=
  match s.choosing prio e with
  | some t => decide (t.Orderly ∨ ∀ inst, (t.dlcTable inst).transmitData = false)
  | none => true

/-- The DLCs that have data, on a clock that does not wrap. -/
def Tx.turns (s : Tx) : Turns Instance where
  now := s.advance
  waiting := { inst | (s.dlcTable inst).transmitData }
  since := s.ready

/-- The octets are those of the clock, and no DLC with data has waited beyond its priority. -/
structure Tx.Timely (prio : Instance → Nat) (s : Tx) : Prop where
  pZero : s.pZero = s.advance % 256
  pCounter : ∀ inst, (s.dlcTable inst).transmitData → (s.dlcTable inst).pCounter = s.turns.due prio inst % 256
  kept : s.turns.Kept prio

/-! ### The choice -/

variable {s t : Tx} {prio : Instance → Nat} {inst : Instance} {insts : List Instance}

/-- The comparison of the loop, without its early end. -/
def Tx.closer (s : Tx) (best : Nat × Option Instance) (inst : Instance) : Nat × Option Instance :=
  if (s.dlcTable inst).transmitData ∧ ((s.dlcTable inst).pCounter : Int) - s.pZero < best.1 then
    (s.diff inst, some inst)
  else best

/-- The loop ends at the first DLC whose counter is at `p_zero`. -/
theorem Tx.nextSend_found (h : inst ∈ insts) (hdata : (s.dlcTable inst).transmitData)
    (hat : (s.dlcTable inst).pCounter = s.pZero) {diff : Nat} {next : Option Instance} :
    ∃ i, (s.dlcTable i).transmitData ∧ (s.dlcTable i).pCounter = s.pZero ∧
      s.nextSend insts diff next = { s with dlcInstance := some i } := by
  induction insts generalizing diff next with
  | nil => cases h
  | cons i insts ih =>
    unfold nextSend
    by_cases hi : (s.dlcTable i).transmitData ∧ (s.dlcTable i).pCounter = s.pZero
    · rw [if_pos hi.1, if_pos hi.2]
      exact ⟨i, hi.1, hi.2, rfl⟩
    · have hrest : inst ∈ insts := by
        rcases List.mem_cons.1 h with rfl | h
        · exact absurd ⟨hdata, hat⟩ hi
        · exact h
      split_ifs with h1 h2
      · exact absurd ⟨h1, h2⟩ hi
      · exact ih hrest
      · exact ih hrest
      · exact ih hrest

/-- Otherwise it compares all of them. -/
theorem Tx.nextSend_eq (h : ∀ i ∈ insts, (s.dlcTable i).transmitData → (s.dlcTable i).pCounter ≠ s.pZero)
    {diff : Nat} {next : Option Instance} :
    s.nextSend insts diff next =
      { s with
        pZero := (s.pZero + (insts.foldl s.closer (diff, next)).1) % 256
        dlcInstance := (insts.foldl s.closer (diff, next)).2
        advance := s.advance + (insts.foldl s.closer (diff, next)).1 } := by
  induction insts generalizing diff next with
  | nil => rfl
  | cons i insts ih =>
    have hrest := fun j hj => h j (List.mem_cons_of_mem i hj)
    unfold nextSend
    by_cases hdata : (s.dlcTable i).transmitData
    · rw [if_pos hdata, if_neg (h i List.mem_cons_self hdata)]
      by_cases hlt : ((s.dlcTable i).pCounter : Int) - s.pZero < diff
      · have hstep : s.closer (diff, next) i = (s.diff i, some i) := if_pos ⟨hdata, hlt⟩
        rw [if_pos hlt, ih hrest, List.foldl_cons, hstep]
      · have hstep : s.closer (diff, next) i = (diff, next) := if_neg fun hc => hlt hc.2
        rw [if_neg hlt, ih hrest, List.foldl_cons, hstep]
    · have hstep : s.closer (diff, next) i = (diff, next) := if_neg fun hc => hdata hc.1
      rw [if_neg hdata, ih hrest, List.foldl_cons, hstep]

private theorem closer_of_le (hc : (s.dlcTable inst).pCounter < 256) (hle : s.pZero ≤ (s.dlcTable inst).pCounter)
    {best : Nat × Option Instance} (hbest : best.1 ≤ s.diff inst) : s.closer best inst = best := by
  refine if_neg fun h => ?_
  have hlt := h.2
  unfold Tx.diff at hbest
  omega

/-- A DLC that was chosen is not followed by one whose counter is beyond the wrap. -/
theorem Tx.foldl_closer (s : Tx) (insts : List Instance) :
    insts.foldl s.closer (255, none) = (255, none) ∨
      ∃ inst, insts.foldl s.closer (255, none) = (s.diff inst, some inst) ∧ (s.dlcTable inst).transmitData ∧
        ∃ pre post, insts = pre ++ inst :: post ∧
          ∀ i ∈ post, (s.dlcTable i).transmitData → s.pZero ≤ (s.dlcTable i).pCounter := by
  induction insts using List.reverseRecOn with
  | nil => exact .inl rfl
  | append_singleton insts i ih =>
    rw [List.foldl_append, List.foldl_cons, List.foldl_nil]
    by_cases hi : (s.dlcTable i).transmitData ∧ ((s.dlcTable i).pCounter : Int) - s.pZero <
        (insts.foldl s.closer (255, none)).1
    · refine .inr ⟨i, if_pos hi, hi.1, insts, [], rfl, ?_⟩
      rintro k ⟨⟩
    · have hskip : s.closer (insts.foldl s.closer (255, none)) i = insts.foldl s.closer (255, none) := if_neg hi
      rw [hskip]
      refine ih.imp id ?_
      rintro ⟨inst, hbest, hdata, pre, post, rfl, hpost⟩
      refine ⟨inst, hbest, hdata, pre, post ++ [i], by rw [List.append_assoc, List.cons_append], ?_⟩
      intro k hk hkdata
      rcases List.mem_append.1 hk with hk | hk
      · exact hpost k hk hkdata
      · rw [List.mem_singleton.1 hk] at hkdata ⊢
        by_contra hw
        exact hi ⟨hkdata, by omega⟩

/-- DLCs in order that are not closer change nothing. -/
theorem Tx.foldl_closer_of_le {best : Nat × Option Instance}
    (h : ∀ i ∈ insts, (s.dlcTable i).transmitData →
      (s.dlcTable i).pCounter < 256 ∧ s.pZero ≤ (s.dlcTable i).pCounter ∧ best.1 ≤ s.diff i) :
    insts.foldl s.closer best = best := by
  induction insts with
  | nil => rfl
  | cons i insts ih =>
    have hskip : s.closer best i = best := by
      by_cases hdata : (s.dlcTable i).transmitData
      · obtain ⟨hc, hle, hbest⟩ := h i List.mem_cons_self hdata
        exact closer_of_le hc hle hbest
      · exact if_neg fun hc => hdata hc.1
    rw [List.foldl_cons, hskip]
    exact ih fun j hj => h j (List.mem_cons_of_mem i hj)

/-- The counters of the DLCs with data are octets, and one is not just behind `p_zero`. -/
structure Tx.Octets (s : Tx) : Prop where
  pZero : s.pZero < 256
  pCounter : ∀ inst, (s.dlcTable inst).transmitData → (s.dlcTable inst).pCounter < 256 ∧ s.diff inst < 255

private theorem Tx.Octets.comes (h : s.Octets) (hdata : (s.dlcTable inst).transmitData) :
    (s.pZero + s.diff inst) % 256 = (s.dlcTable inst).pCounter := by
  have hz := h.pZero
  have hc := (h.pCounter inst hdata).1
  unfold Tx.diff
  omega

private theorem Tx.Octets.diff_eq_zero (h : s.Octets) (hdata : (s.dlcTable inst).transmitData) :
    s.diff inst = 0 ↔ (s.dlcTable inst).pCounter = s.pZero := by
  have hz := h.pZero
  have hc := (h.pCounter inst hdata).1
  unfold Tx.diff
  omega

private theorem mem_after {pre post : List Instance} {i : Instance}
    (h : List.finRange (uartMaxNumberOfChannels + 1) = pre ++ inst :: post) : i ∈ post ↔ inst < i := by
  have hsorted := List.pairwise_lt_finRange (uartMaxNumberOfChannels + 1)
  rw [h, List.pairwise_append, List.pairwise_cons] at hsorted
  obtain ⟨-, ⟨hafter, -⟩, hbefore⟩ := hsorted
  constructor
  · exact hafter i
  · intro hlt
    have hmem : i ∈ pre ++ inst :: post := h ▸ List.mem_finRange i
    rcases List.mem_append.1 hmem with hi | hi
    · exact absurd (hbefore i hi inst List.mem_cons_self) hlt.asymm
    · exact (List.mem_cons.1 hi).resolve_left hlt.ne'

/-- DLCs in order: one of the next gets its turn. -/
theorem Tx.Orderly.sends (h : s.Orderly) (ho : s.Octets) :
    ∃ inst, s.Next inst ∧ s.txNextSendAllowed =
      { s with
        pZero := (s.dlcTable inst).pCounter
        dlcInstance := some inst
        advance := s.advance + s.diff inst } := by
  obtain ⟨inst, hnext, horder⟩ := h
  unfold txNextSendAllowed
  by_cases hat : ∃ i, (s.dlcTable i).transmitData ∧ (s.dlcTable i).pCounter = s.pZero
  · obtain ⟨i, hdata, hi⟩ := hat
    obtain ⟨k, hk, hkz, heq⟩ := s.nextSend_found (List.mem_finRange i) hdata hi
    have hzero := (ho.diff_eq_zero hk).2 hkz
    refine ⟨k, ⟨hk, fun j _ => hzero ▸ Nat.zero_le _⟩, ?_⟩
    rw [heq, hzero, hkz]
    rfl
  · have hnone : ∀ i, (s.dlcTable i).transmitData → (s.dlcTable i).pCounter ≠ s.pZero :=
      fun i hdata hi => hat ⟨i, hdata, hi⟩
    have hafter := horder.resolve_left (hnone inst hnext.1)
    obtain ⟨pre, post, hsplit⟩ := List.append_of_mem (List.mem_finRange inst)
    -- what was found before this DLC is as far as this one, or is replaced by it
    have hbest : ∃ i, s.Next i ∧ s.diff i = s.diff inst ∧
        s.closer (pre.foldl s.closer (255, none)) inst = (s.diff inst, some i) := by
      by_cases hless : (s.dlcTable inst).transmitData ∧
          ((s.dlcTable inst).pCounter : Int) - s.pZero < (pre.foldl s.closer (255, none)).1
      · exact ⟨inst, hnext, rfl, if_pos hless⟩
      · have hskip : s.closer (pre.foldl s.closer (255, none)) inst = pre.foldl s.closer (255, none) := if_neg hless
        have hle : (pre.foldl s.closer (255, none)).1 ≤ s.diff inst := by
          have hc := (ho.pCounter inst hnext.1).1
          have hge := Int.not_lt.1 fun hlt => hless ⟨hnext.1, hlt⟩
          unfold Tx.diff
          omega
        rw [hskip]
        rcases s.foldl_closer pre with hpre | ⟨i, hpre, hdata, -⟩
        · rw [hpre] at hle
          have hlt := (ho.pCounter inst hnext.1).2
          omega
        · rw [hpre] at hle ⊢
          have heq : s.diff i = s.diff inst := Nat.le_antisymm hle (hnext.2 i hdata)
          exact ⟨i, ⟨hdata, fun j hj => heq ▸ hnext.2 j hj⟩, heq, by rw [heq]⟩
    obtain ⟨i, hi, heq, hstep⟩ := hbest
    have hfold : (List.finRange (uartMaxNumberOfChannels + 1)).foldl s.closer (255, none) =
        (s.diff inst, some i) := by
      rw [hsplit, List.foldl_append, List.foldl_cons, hstep]
      refine Tx.foldl_closer_of_le fun k hk hdata => ?_
      exact ⟨(ho.pCounter k hdata).1, hafter k ((mem_after hsplit).1 hk) hdata, hnext.2 k hdata⟩
    refine ⟨i, hi, ?_⟩
    rw [s.nextSend_eq fun k _ => hnone k, hfold, ← heq, ho.comes hi.1]

/-- When no DLC has data `p_zero` goes back by one. -/
theorem Tx.txNextSendAllowed_idle (s : Tx) (h : ∀ inst, (s.dlcTable inst).transmitData = false) :
    s.txNextSendAllowed =
      { s with pZero := (s.pZero + 255) % 256, dlcInstance := none, advance := s.advance + 255 } := by
  have hno : ∀ inst, ¬(s.dlcTable inst).transmitData := fun inst => ne_true_of_eq_false (h inst)
  have hfold : (List.finRange (uartMaxNumberOfChannels + 1)).foldl s.closer (255, none) = (255, none) :=
    Tx.foldl_closer_of_le fun i _ hi => absurd hi (hno i)
  unfold txNextSendAllowed
  rw [s.nextSend_eq fun i _ hi => absurd hi (hno i), hfold]

/-- The choice is right exactly when the DLCs are in order. -/
theorem Tx.sends_iff (ho : s.Octets) : s.Sends s.txNextSendAllowed ↔ s.Orderly := by
  constructor
  · intro hsends
    unfold Sends at hsends
    by_cases hany : ∃ inst, (s.dlcTable inst).transmitData
    · rw [if_pos hany] at hsends
      obtain ⟨inst, hnext, hinst, -⟩ := hsends
      by_cases hat : ∃ i, (s.dlcTable i).transmitData ∧ (s.dlcTable i).pCounter = s.pZero
      · obtain ⟨i, hdata, hi⟩ := hat
        have hzero := (ho.diff_eq_zero hdata).2 hi
        exact ⟨i, ⟨hdata, fun j _ => hzero ▸ Nat.zero_le _⟩, .inl hi⟩
      · unfold txNextSendAllowed at hinst
        rw [s.nextSend_eq fun k _ hdata hk => hat ⟨k, hdata, hk⟩] at hinst
        rcases s.foldl_closer (List.finRange (uartMaxNumberOfChannels + 1)) with
          hfold | ⟨i, hfold, -, pre, post, hsplit, hpost⟩
        · rw [hfold] at hinst
          cases hinst
        · rw [hfold] at hinst
          obtain rfl : i = inst := Option.some.inj hinst
          exact ⟨i, hnext, .inr fun k hk => hpost k ((mem_after hsplit).2 hk)⟩
    · rw [if_neg hany, s.txNextSendAllowed_idle fun i => eq_false_of_ne_true fun hi => hany ⟨i, hi⟩] at hsends
      have hz := hsends.2
      have hlt := ho.pZero
      dsimp only at hz
      omega
  · intro h
    obtain ⟨inst, hnext, heq⟩ := h.sends ho
    unfold Sends
    rw [if_pos ⟨inst, hnext.1⟩, heq]
    exact ⟨inst, hnext, rfl, rfl⟩

/-! ### Runs -/

variable {e : TxEvent}

private theorem Tx.Timely.diff_eq (h : s.Timely prio) (hprio : ∀ i, prio i < 128)
    (hdata : (s.dlcTable inst).transmitData) : s.diff inst = s.turns.due prio inst - s.advance := by
  obtain ⟨hle, hnow⟩ := h.kept inst hdata
  have hp := hprio inst
  have hdue : s.turns.due prio inst < s.advance + 256 := by
    unfold Turns.due at hnow ⊢
    unfold turns at hle ⊢
    dsimp only at hle ⊢
    omega
  unfold diff
  rw [h.pCounter inst hdata, h.pZero]
  exact left_wrapped hnow hdue

private theorem Tx.Timely.octets (h : s.Timely prio) (hprio : ∀ i, prio i < 128) : s.Octets := by
  refine ⟨h.pZero ▸ Nat.mod_lt _ (by decide), fun inst hdata => ?_⟩
  refine ⟨h.pCounter inst hdata ▸ Nat.mod_lt _ (by decide), ?_⟩
  have hp := hprio inst
  have hle := (h.kept inst hdata).1
  rw [h.diff_eq hprio hdata]
  unfold Turns.due
  unfold turns at hle ⊢
  dsimp only at hle ⊢
  omega

private theorem Tx.Timely.dataSent (h : s.Timely prio) : s.dataSent.Timely prio := by
  have hturns : s.dataSent.turns = s.turns.leave (s.dlcInstance.getD uartControlInstance) := by
    unfold Tx.dataSent turns Turns.leave
    congr 1
    ext i
    by_cases hi : i = s.dlcInstance.getD uartControlInstance <;> simp [hi]
  refine ⟨h.pZero, fun i hdata => ?_, hturns ▸ h.kept.leave _⟩
  rw [hturns]
  unfold Tx.dataSent at hdata ⊢
  dsimp only at hdata ⊢
  split at hdata
  · cases hdata
  · rename_i hi
    rw [if_neg hi]
    exact h.pCounter i hdata

private theorem Tx.Timely.dataAvailable (h : s.Timely prio) (inst : Instance) (data : Bool) :
    (s.dataAvailable prio inst data).Timely prio := by
  refine ⟨h.pZero, fun i hdata => ?_, fun i hdata => ?_⟩
  · unfold Tx.dataAvailable turns Turns.due at *
    dsimp only at hdata ⊢
    by_cases hi : i = inst
    · simp only [if_pos hi]
      rw [h.pZero, Nat.add_mod_mod, Nat.add_comm, hi]
    · simp only [if_neg hi] at hdata ⊢
      exact h.pCounter i hdata
  · have hjoin := h.kept.join inst i
    unfold Tx.dataAvailable turns Turns.join Turns.due at *
    change (if i = inst then _ else s.dlcTable i).transmitData = true at hdata
    dsimp only at hjoin ⊢
    by_cases hi : i = inst
    · exact hjoin (Set.mem_insert_iff.2 (.inl hi))
    · rw [if_neg hi] at hdata
      exact hjoin (Set.mem_insert_iff.2 (.inr hdata))

private theorem Tx.Timely.announced (h : s.Timely prio) (more : List (Instance × Bool)) :
    (s.announced prio more).Timely prio := by
  have hfold : ∀ t : Tx, t.Timely prio →
      (more.foldl (fun s p => s.dataAvailable prio p.1 p.2) t).Timely prio := by
    induction more with
    | nil => exact fun t ht => ht
    | cons p more ih => exact fun t ht => ih _ (ht.dataAvailable p.1 p.2)
  exact hfold _ h.dataSent

private theorem Tx.choosing_cases (h : s.choosing prio e = some t) :
    (∃ inst data, t = s.dataAvailable prio inst data) ∨ ∃ more, t = s.announced prio more := by
  cases e with
  | dataAvailableInd inst data =>
    simp only [choosing, Option.ite_none_left_eq_some, Option.some.injEq] at h
    exact .inl ⟨inst, data, h.2.symm⟩
  | uartDriverSentInd more =>
    simp only [choosing, Option.ite_none_right_eq_some, Option.some.injEq] at h
    exact .inr ⟨more, h.2.symm⟩

/-- A step ends with a choice, or data comes while another DLC is sending. -/
theorem Tx.step_cases (h : s.step prio e = some t) :
    (∃ u, s.choosing prio e = some u ∧ t = u.sendNext) ∨
      s.choosing prio e = none ∧ ∃ inst data, t = s.dataAvailable prio inst data := by
  cases e with
  | dataAvailableInd inst data =>
    simp only [step] at h
    simp only [choosing]
    split at h
    · rename_i hsending
      exact .inr ⟨if_pos hsending, inst, data, (Option.some.inj h).symm⟩
    · rename_i hsending
      exact .inl ⟨_, if_neg hsending, (Option.some.inj h).symm⟩
  | uartDriverSentInd more =>
    simp only [step, Option.ite_none_right_eq_some, Option.some.injEq] at h
    exact .inl ⟨_, if_pos h.1, h.2.symm⟩

private theorem Tx.Timely.choosing (h : s.Timely prio) (ht : s.choosing prio e = some t) : t.Timely prio := by
  rcases Tx.choosing_cases ht with ⟨inst, data, rfl⟩ | ⟨more, rfl⟩
  · exact h.dataAvailable inst data
  · exact h.announced more

/-- A turn goes to a DLC with the earliest deadline. -/
private theorem Tx.Timely.sendNext (h : s.Timely prio) (hprio : ∀ i, prio i < 128) (ho : s.Orderly) :
    s.sendNext.Timely prio := by
  obtain ⟨inst, ⟨hdata, hleast⟩, heq⟩ := ho.sends (h.octets hprio)
  have hle := (h.kept inst hdata).2
  have hadvance : s.advance + s.diff inst = s.turns.due prio inst := by
    rw [h.diff_eq hprio hdata]
    exact Nat.add_sub_cancel' hle
  have hearliest : s.turns.Earliest prio inst := by
    refine ⟨hdata, fun i hi => ?_⟩
    have hnext := hleast i hi
    have hi' := (h.kept i hi).2
    rw [h.diff_eq hprio hdata, h.diff_eq hprio hi] at hnext
    unfold turns at hi' hle hnext ⊢
    dsimp only at hi' hle
    omega
  unfold Tx.sendNext
  rw [heq, hadvance, h.pCounter inst hdata]
  exact ⟨rfl, h.pCounter, h.kept.serve hearliest⟩

private theorem Tx.Timely.sendNext_idle (h : s.Timely prio) (hno : ∀ inst, (s.dlcTable inst).transmitData = false) :
    s.sendNext.Timely prio := by
  have hnot : ∀ inst, ¬(s.dlcTable inst).transmitData := fun inst => ne_true_of_eq_false (hno inst)
  unfold Tx.sendNext
  rw [s.txNextSendAllowed_idle hno]
  refine ⟨?_, fun i hi => absurd hi (hnot i), fun i hi => absurd hi (hnot i)⟩
  dsimp only
  rw [h.pZero, Nat.mod_add_mod]

private theorem timely_init (h : (mux prio).init s) : s.Timely prio := by
  obtain ⟨hz, hadv, -, hraw⟩ := h
  refine ⟨?_, fun inst hdata => ?_, fun inst hdata => ?_⟩
  · rw [hadv, Nat.mod_eq_of_lt hz]
  · obtain ⟨-, -, hc, hready⟩ := hraw inst hdata
    unfold Tx.turns Turns.due
    dsimp only
    rw [hc, hready, hadv, Nat.add_comm]
  · obtain ⟨-, -, -, hready⟩ := hraw inst hdata
    unfold Tx.turns Turns.due
    dsimp only
    omega

private theorem timely_step (hprio : ∀ i, prio i < 128) (h : s.Timely prio) (hok : inOrder prio s e)
    (ht : (mux prio).step s e = some t) : t.Timely prio := by
  rcases Tx.step_cases ht with ⟨u, hu, rfl⟩ | ⟨-, inst, data, rfl⟩
  · unfold inOrder at hok
    rw [hu] at hok
    rcases of_decide_eq_true hok with ho | hno
    · exact (h.choosing hu).sendNext hprio ho
    · exact (h.choosing hu).sendNext_idle hno
  · exact h.dataAvailable inst data

/-- While no choice is made among DLCs that are out of order, a DLC with data gets its turn before `p_zero` is further
than its priority from where it was when the data came; and a choice goes to the next DLC exactly when some DLC has
data and they are in order. -/
theorem data_sent_in_turn (hprio : ∀ i, prio i < 128) (h : (mux prio).Reach (inOrder prio) s) :
    (∀ inst, (s.dlcTable inst).transmitData → s.advance ≤ s.ready inst + prio inst) ∧
      ∀ e t, s.choosing prio e = some t → (t.Sends t.txNextSendAllowed ↔ t.Orderly) := by
  have htimely : s.Timely prio :=
    h.invariant (I := Tx.Timely prio) (fun _ => timely_init) fun _ _ _ => timely_step hprio
  refine ⟨fun inst hdata => (htimely.kept inst hdata).2, fun e t ht => ?_⟩
  exact Tx.sends_iff ((htimely.choosing ht).octets hprio)

/-- Priorities as they are assigned to the data channels. -/
def classPriority (inst : Instance) : Nat :=
  if inst = 0 then 7 else if inst = uartControlInstance then 0 else 61

def idle : Tx := ⟨fun _ => ⟨false, 0⟩, 0, none, false, 0, fun _ => 0⟩

private theorem init_idle : (mux classPriority).init idle :=
  ⟨by decide, rfl, rfl, fun _ h => absurd h (by simp [idle])⟩

theorem data_sent_in_turn_run : ∃ s, (mux classPriority).Reach (inOrder classPriority) s ∧ s.sending ∧
    (s.dlcTable 1).transmitData ∧ s.advance ≤ s.ready 1 + classPriority 1 := by
  obtain ⟨s, hs⟩ := Option.isSome_iff_exists.1 (show ((mux classPriority).run (inOrder classPriority) idle
      [.dataAvailableInd 1 true, .uartDriverSentInd [], .dataAvailableInd 0 true,
        .uartDriverSentInd [(1, true)]]).isSome by decide +kernel)
  have hrun := Machine.Reach.of_run (.init init_idle) hs
  have hfin : s.sending = true ∧ (s.dlcTable 1).transmitData = true := by
    have hval : ∀ t ∈ (mux classPriority).run (inOrder classPriority) idle
        [.dataAvailableInd 1 true, .uartDriverSentInd [], .dataAvailableInd 0 true, .uartDriverSentInd [(1, true)]],
        t.sending = true ∧ (t.dlcTable 1).transmitData = true := by decide +kernel
    exact hval s hs
  exact ⟨s, hrun, hfin.1, hfin.2, (data_sent_in_turn (by decide) hrun).1 1 hfin.2⟩

/-- After the last frame `p_zero` goes back by one, and behind the wrap of a DLC's counter another DLC gets its turn
before one that `p_zero` reaches earlier. -/
theorem starved_at_wrap :
    (∃ s t u, (mux classPriority).run (fun _ _ => true) idle [.dataAvailableInd 0 true] = some s ∧
      s.choosing classPriority (.uartDriverSentInd []) = some t ∧ (∀ inst, (t.dlcTable inst).transmitData = false) ∧
      t.txNextSendAllowed = u ∧ t.pZero = 7 ∧ u.pZero = 6) ∧
    ∃ s, (mux classPriority).run (fun _ _ => true) idle [.dataAvailableInd 1 true, .uartDriverSentInd [(1, true)],
        .uartDriverSentInd [(1, true)], .uartDriverSentInd [(1, true)], .uartDriverSentInd [(0, true), (1, true)]] =
      some s ∧ s.dlcInstance = some 1 ∧ (s.dlcTable 0).transmitData = true ∧
      ¬s.advance ≤ s.ready 0 + classPriority 0 := by
  refine ⟨⟨_, _, _, rfl, rfl, ?_, rfl, ?_, ?_⟩, _, rfl, ?_, ?_, ?_⟩ <;> decide +kernel

end Citrine.Uart
