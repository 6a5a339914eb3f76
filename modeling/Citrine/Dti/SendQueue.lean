import Citrine.Dti.Dtilib
import Mathlib.Data.List.Basic

/-!
# The send queue of a DTI link

Which packets the library frees, and what becomes of every packet that is handed to `dti_send_data`: it is sent, freed,
or still in the queue.  The events are those of one end, with primitives from any neighbour.
-/

namespace Citrine.Dti

/-! ### Packets that are freed -/

namespace Link

variable (l : Link)

/-- What `put_dti_data_ind_in_queue_managed` frees. -/
def managedFrees (p : Nat) : List Nat :=
  let q := if l.linkOptions ≠ .queueUnused then l.putDtiDataInd p else l
  match l.linkOptions with
  | .queueUnused => [p]
  | .queueRmFifo => if q.queueLen > q.queueSize then q.getDtiDataInd.2.toList else []
  | .queueRmLifo => if q.queueLen > q.queueSize then q.dtiDataInd.getLast?.toList else []
  | _ => []

/-- What `dti_send_data` frees. -/
def sendDataFrees (p : Nat) : List Nat :=
  if l.connectState ≠ .idle then [p]
  else if l.linkOptions = .flowCntrlDisabled then []
  else
    match l.txState with
    | .idle | .bufferFull => l.managedFrees p
    | .flow => []

/-- What the calls of the entity free: `set_open_para_link_table` and `set_default_para_link_table` free the queue. -/
def callFrees : DtiCall → List Nat
  | .open _ _ => if l.connectState = .setup then [] else l.dtiDataInd
  | .close flush => if l.connectState = .closed ∨ flush then [] else l.dtiDataInd
  | .sendData p => l.sendDataFrees p
  | .start | .stop => []

/-- What the end of `flow_control_prim_received` frees. -/
def flowEndFrees : List Nat := if l.queueLen = 0 ∧ l.connectState = .closing then l.dtiDataInd else []

/-- What is freed when a primitive is received. -/
def receiveFrees : Prim → List Nat
  | .connect => if l.connectState = .setup ∨ l.connectState = .connecting then [] else l.dtiDataInd
  | .disconnect => if l.connectState = .closed then [] else l.dtiDataInd
  | .ready =>
    if (l.connectState ≠ .idle ∧ l.connectState ≠ .closing) ∨ l.linkOptions = .flowCntrlDisabled then []
    else l.getDtiDataInd.1.flowEndFrees
  | .confirm | .data _ => []

/-- What is freed when the callback returns. -/
def resumeFrees : Cont → List Nat
  | .flowReady => l.flowEndFrees
  | .closeNow => l.dtiDataInd
  | .openReady | .dataReady | .done => []

end Link

/-! ### One end -/

/-- The packets among the primitives. -/
def packets (prims : List Prim) : List Nat :=
  prims.filterMap fun prim => match prim with
    | .data p => some p
    | _ => none

/-- An end with all packets that were handed to `dti_send_data`, those sent and those freed. -/
structure Sender where
  «end» : End
  given : List Nat
  sent : List Nat
  freed : List Nat

abbrev Sender.link (s : Sender) : Link := s.end.link

/-- What happens at the end: a call of the library, the return of the callback, a primitive from the neighbour. -/
inductive SendEvent where
  | call (c : DtiCall)
  | ret
  | receive (prim : Prim)

/-- The packet of a call. -/
def DtiCall.given : DtiCall → List Nat
  | .sendData p => [p]
  | _ => []

/-- The end after a function, with what it is given and what it frees. -/
def Sender.after (s : Sender) (e : End) (r : Res) (given freed : List Nat) : Sender :=
  ⟨e.after r, s.given ++ given, s.sent ++ packets r.prims, s.freed ++ freed⟩

def Sender.step (s : Sender) : SendEvent → Option Sender
  | .call c => some (s.after s.end (s.link.call c) c.given (s.link.callFrees c))
  | .ret =>
    match s.end.stack with
    | [] => none
    | k :: ks => some (s.after { s.end with stack := ks } (s.link.resume k) [] (s.link.resumeFrees k))
  | .receive prim =>
    if s.end.stack = [] then some (s.after s.end (s.link.primReceived prim) [] (s.link.receiveFrees prim)) else none

def Sender.start : Sender := ⟨⟨.default, [], []⟩, [], [], []⟩

/-- All runs of an end. -/
def sender : Machine Sender SendEvent where
  init s := s = .start
  step := Sender.step

/-! ### What becomes of the packets -/

/-- The length of the queue is the number of its packets; every packet given is sent, freed or in the queue, as often as
it was given; and packets leave and stay in the queue in the order in which they came. -/
structure Sender.Balanced (s : Sender) : Prop where
  length : s.link.queueLen = s.link.dtiDataInd.length
  balance : s.given.Perm (s.sent ++ s.freed ++ s.link.dtiDataInd)
  order : (s.sent ++ s.link.dtiDataInd).Sublist s.given

/-- What a step may free: a packet that cannot be taken, the oldest or the newest one if the queue would exceed its
size, or the whole queue with a close or reset. -/
def Sender.MayFree (s : Sender) (f : List Nat) : SendEvent → Prop
  | .call (.sendData p) =>
    f = [] ∨
    f = [p] ∧ (s.link.connectState ≠ .idle ∨ s.link.linkOptions = .queueUnused) ∨
    s.link.queueSize < s.link.dtiDataInd.length + 1 ∧
      (s.link.linkOptions = .queueRmFifo ∧ f = ((s.link.dtiDataInd ++ [p]).head?).toList ∨
        s.link.linkOptions = .queueRmLifo ∧ f = [p])
  | .call (.open _ _) | .call (.close false) | .receive .connect | .receive .disconnect =>
    f = [] ∨ f = s.link.dtiDataInd
  | .ret => f = [] ∨ .closeNow ∈ s.end.stack ∧ f = s.link.dtiDataInd
  | _ => f = []

/-- No packet is put into a queue of 255 packets. -/
def Link.roomFor (l : Link) : SendEvent → Bool
  | .call (.sendData _) =>
    !(l.connectState = .idle && l.linkOptions ≠ .flowCntrlDisabled &&
      (l.linkOptions ≠ .queueUnused || l.txState = .flow) && l.queueLen = 255)
  | _ => true

/-! ### Steps -/

/-- The counter of the queue is right, and a link without flow control has no packets in it. -/
structure Link.Sound (l : Link) : Prop where
  length : l.queueLen = l.dtiDataInd.length
  small : l.queueLen ≤ 255
  unqueued : l.linkOptions = .flowCntrlDisabled → l.dtiDataInd = []

/-- What a function does with the packets in the queue and those it is given. -/
structure Res.Keeps (l : Link) (given : List Nat) (r : Res) (freed : List Nat) : Prop where
  sound : r.link.Sound
  balance : (l.dtiDataInd ++ given).Perm (packets r.prims ++ freed ++ r.link.dtiDataInd)
  order : (packets r.prims ++ r.link.dtiDataInd).Sublist (l.dtiDataInd ++ given)

section
variable {l m : Link} {p : Nat} {r : Res} {prims : List Prim} {given freed : List Nat} {s t : Sender} {e : SendEvent}

theorem Link.Sound.of_nil (hlen : l.queueLen = 0) (hdata : l.dtiDataInd = []) : l.Sound :=
  ⟨by rw [hlen, hdata]; rfl, hlen ▸ Nat.zero_le _, fun _ => hdata⟩

theorem Link.Sound.nil_of_zero (h : l.Sound) (hzero : l.queueLen = 0) : l.dtiDataInd = [] :=
  List.length_eq_zero_iff.1 (h.length.symm.trans hzero)

/-- Only the queue and the options matter. -/
theorem Link.Sound.congr (h : l.Sound) (hlen : m.queueLen = l.queueLen) (hdata : m.dtiDataInd = l.dtiDataInd)
    (hopt : m.linkOptions = l.linkOptions) : m.Sound :=
  ⟨by rw [hlen, hdata, h.length], hlen ▸ h.small, fun ho => hdata ▸ h.unqueued (hopt ▸ ho)⟩

/-- The queue stays as it is. -/
private theorem keeps_same (h : l.Sound) (hlen : r.link.queueLen = l.queueLen)
    (hdata : r.link.dtiDataInd = l.dtiDataInd) (hopt : r.link.linkOptions = l.linkOptions) (hprims : packets r.prims = []) : r.Keeps l [] [] := by
  refine ⟨h.congr hlen hdata hopt, ?_, ?_⟩
  · rw [hprims, hdata, List.append_nil]
    exact .refl _
  · rw [hprims, hdata, List.append_nil]
    exact .refl _

/-- The whole queue is freed. -/
private theorem keeps_freed (hlen : r.link.queueLen = 0) (hdata : r.link.dtiDataInd = [])
    (hprims : packets r.prims = []) : r.Keeps l [] l.dtiDataInd := by
  refine ⟨.of_nil hlen hdata, ?_, ?_⟩
  · rw [hprims, hdata, List.append_nil, List.append_nil]
    exact .refl _
  · rw [hprims, hdata]
    exact List.nil_sublist _

/-- A queue that is not full takes a packet. -/
private theorem put_eq (h : l.Sound) :
    (l.putDtiDataInd p).dtiDataInd = l.dtiDataInd ++ [p] ∧ (l.putDtiDataInd p).queueLen = (l.queueLen + 1) % 256 := by
  unfold Link.putDtiDataInd
  by_cases hzero : l.queueLen = 0
  · rw [if_pos hzero, h.nil_of_zero hzero, hzero]
    exact ⟨rfl, rfl⟩
  · have hlen := h.length
    have hsmall := h.small
    rw [if_neg hzero, if_neg (not_not.2 (by omega))]
    exact ⟨rfl, rfl⟩

private theorem get_eq (h : l.Sound) :
    l.getDtiDataInd.1.Sound ∧ l.dtiDataInd = l.getDtiDataInd.2.toList ++ l.getDtiDataInd.1.dtiDataInd := by
  unfold Link.getDtiDataInd
  by_cases hzero : l.queueLen = 0
  · rw [if_pos hzero]
    exact ⟨h, rfl⟩
  · have hlen := h.length
    have hsmall := h.small
    rw [if_neg hzero]
    cases hd : l.dtiDataInd with
    | nil =>
      rw [hd] at hlen
      exact absurd hlen hzero
    | cons q qs =>
      rw [hd, List.length_cons] at hlen
      refine ⟨⟨?_, ?_, fun ho => absurd (hd.symm.trans (h.unqueued ho)) nofun⟩, rfl⟩
      · simp only [List.tail_cons]
        omega
      · dsimp only
        omega

private theorem getLast_eq (h : l.Sound) :
    l.getLastDtiDataInd.Sound ∧ l.getLastDtiDataInd.dtiDataInd = l.dtiDataInd.dropLast := by
  have hlen := h.length
  have hsmall := h.small
  unfold Link.getLastDtiDataInd
  by_cases hzero : l.queueLen = 0
  · have hnil := h.nil_of_zero hzero
    rw [if_pos hzero]
    exact ⟨h, by rw [hnil]; rfl⟩
  · rw [if_neg hzero]
    refine ⟨⟨?_, ?_, fun ho => ?_⟩, rfl⟩
    · rw [List.length_dropLast, hlen]
    · dsimp only
      omega
    · dsimp only
      rw [h.unqueued ho]
      rfl

@[simp] private theorem packets_dataPrims (q : Option Nat) : packets (Link.dataPrims q) = q.toList := by
  cases q <;> rfl

@[simp] private theorem packets_append (prims prims' : List Prim) :
    packets (prims ++ prims') = packets prims ++ packets prims' := List.filterMap_append

/-- The end of a function of the flow control: what was to be freed with the link is an empty queue. -/
private theorem flowEnd_keeps (h : m.Sound) (hbalance : l.dtiDataInd = packets prims ++ m.dtiDataInd) :
    (m.flowEnd prims).Keeps l [] m.flowEndFrees ∧ m.flowEndFrees = [] := by
  unfold Link.flowEnd Link.flowEndFrees
  by_cases hend : m.queueLen = 0 ∧ m.connectState = .closing
  · have hnil := h.nil_of_zero hend.1
    rw [if_pos hend, if_pos hend, hnil]
    rw [hnil] at hbalance
    refine ⟨⟨.of_nil rfl rfl, ?_, ?_⟩, rfl⟩
    · rw [hbalance, Link.closeWithSignal, packets_append]
      simp [packets, Link.default]
    · rw [hbalance, Link.closeWithSignal, packets_append]
      simp [packets, Link.default]
  · rw [if_neg hend, if_neg hend]
    refine ⟨⟨h, ?_, ?_⟩, rfl⟩
    · rw [hbalance, List.append_nil, List.append_nil]
    · rw [hbalance, List.append_nil]

private theorem flowControl_keeps (h : l.Sound) :
    l.flowControlPrimReceived.Keeps l [] (l.receiveFrees .ready) ∧ l.receiveFrees .ready = [] := by
  obtain ⟨hsound, hsplit⟩ := get_eq h
  unfold Link.receiveFrees
  by_cases hno : (l.connectState ≠ .idle ∧ l.connectState ≠ .closing) ∨ l.linkOptions = .flowCntrlDisabled
  · unfold Link.flowControlPrimReceived
    simp only [if_pos hno]
    exact ⟨keeps_same h rfl rfl rfl rfl, trivial⟩
  · simp only [if_neg hno]
    have hconnect : l.connectState = .idle ∨ l.connectState = .closing := by
      by_contra hc
      exact hno (.inl (not_or.1 hc))
    obtain ⟨tx, -, -, heq | ⟨hclosing, heq⟩⟩ := flowControl_cases hconnect fun ho => hno (.inr ho)
    · have hm : ({ l.getDtiDataInd.1 with txState := tx } : Link).Sound := hsound.congr rfl rfl rfl
      rw [heq]
      exact flowEnd_keeps hm (by rw [packets_dataPrims]; exact hsplit)
    · have hfrees : l.getDtiDataInd.1.flowEndFrees = [] := by
        refine if_neg fun hc => hclosing ?_
        rw [← get_requeued.connect]
        exact hc.2
      rw [heq, hfrees]
      refine ⟨⟨hsound.congr rfl rfl rfl, ?_, ?_⟩, rfl⟩
      · simp only [packets_dataPrims, List.append_nil]
        rw [← hsplit]
      · simp only [packets_dataPrims, List.append_nil]
        rw [← hsplit]

private theorem put_queueSize : (l.putDtiDataInd p).queueSize = l.queueSize := by
  unfold Link.putDtiDataInd
  split
  · rfl
  · split <;> rfl

private theorem put_sound (h : l.Sound) (hflow : l.linkOptions ≠ .flowCntrlDisabled) (hroom : l.queueLen ≠ 255) :
    (l.putDtiDataInd p).Sound := by
  obtain ⟨hdata, hlen⟩ := put_eq (p := p) h
  have hsmall := h.small
  have hmod : (l.queueLen + 1) % 256 = l.queueLen + 1 := Nat.mod_eq_of_lt (by omega)
  rw [hmod] at hlen
  refine ⟨?_, by omega, fun ho => absurd (put_requeued.options.symm.trans ho) hflow⟩
  rw [hlen, hdata, List.length_append, List.length_singleton, h.length]

/-- What becomes of a packet and the queue when the queue takes it or is full. -/
private theorem managed_keeps (h : l.Sound) (hflow : l.linkOptions ≠ .flowCntrlDisabled)
    (hroom : l.queueLen = 255 → l.linkOptions = .queueUnused) :
    (l.putDtiDataIndManaged p).Sound ∧
      (l.dtiDataInd ++ [p]).Perm (l.managedFrees p ++ (l.putDtiDataIndManaged p).dtiDataInd) ∧
      (l.putDtiDataIndManaged p).dtiDataInd.Sublist (l.dtiDataInd ++ [p]) ∧
      (l.managedFrees p = [] ∨ l.managedFrees p = [p] ∧ l.linkOptions = .queueUnused ∨
        l.queueSize < l.dtiDataInd.length + 1 ∧
          (l.linkOptions = .queueRmFifo ∧ l.managedFrees p = ((l.dtiDataInd ++ [p]).head?).toList ∨
            l.linkOptions = .queueRmLifo ∧ l.managedFrees p = [p])) := by
  unfold Link.putDtiDataIndManaged Link.managedFrees
  by_cases hunused : l.linkOptions = .queueUnused
  · simp only [hunused, ne_eq, not_true_eq_false, if_false]
    exact ⟨h, List.perm_append_comm, List.sublist_append_left .., .inr (.inl ⟨trivial, trivial⟩)⟩
  · obtain ⟨hdata, -⟩ := put_eq (p := p) h
    have hsize := put_queueSize (l := l) (p := p)
    have hsound := put_sound (p := p) h hflow fun hfull => hunused (hroom hfull)
    simp only [ne_eq, hunused, not_false_eq_true, if_true]
    have hkept : ∀ g : Link, g.dtiDataInd = l.dtiDataInd ++ [p] → (l.dtiDataInd ++ [p]).Perm ([] ++ g.dtiDataInd) ∧
        g.dtiDataInd.Sublist (l.dtiDataInd ++ [p]) := by
      intro g hg
      rw [hg]
      exact ⟨.refl _, .refl _⟩
    generalize l.putDtiDataInd p = q at hdata hsound hsize hkept
    have hfull : q.queueLen > q.queueSize → l.queueSize < l.dtiDataInd.length + 1 := by
      rw [hsound.length, hdata, hsize, List.length_append, List.length_singleton]
      exact id
    cases ho : l.linkOptions with
    | queueRmFifo =>
      simp only
      by_cases hgt : q.queueLen > q.queueSize
      · obtain ⟨hgot, hsplit⟩ := get_eq hsound
        have hhead : q.getDtiDataInd.2 = q.dtiDataInd.head? := by
          unfold Link.getDtiDataInd
          rw [if_neg (by omega)]
        have hperm : q.dtiDataInd.Perm (q.getDtiDataInd.2.toList ++ q.getDtiDataInd.1.dtiDataInd) := .of_eq hsplit
        have hsub : q.getDtiDataInd.1.dtiDataInd.Sublist q.dtiDataInd := by
          conv_rhs => rw [hsplit]
          exact List.sublist_append_right ..
        rw [if_pos hgt, if_pos hgt, ← hdata]
        exact ⟨hgot, hperm, hsub, .inr (.inr ⟨hfull hgt, .inl ⟨trivial, congrArg _ hhead⟩⟩)⟩
      · rw [if_neg hgt, if_neg hgt]
        exact ⟨hsound, (hkept q hdata).1, (hkept q hdata).2, .inl rfl⟩
    | queueRmLifo =>
      simp only
      by_cases hgt : q.queueLen > q.queueSize
      · obtain ⟨hgot, hdrop⟩ := getLast_eq hsound
        have hlast : q.dtiDataInd.getLast?.toList = [p] := by
          rw [hdata, List.getLast?_concat]
          rfl
        have hrest : q.getLastDtiDataInd.dtiDataInd = l.dtiDataInd := by
          rw [hdrop, hdata, List.dropLast_concat]
        rw [if_pos hgt, if_pos hgt, hlast, hrest]
        refine ⟨hgot, List.perm_append_comm, List.sublist_append_left .., ?_⟩
        exact .inr (.inr ⟨hfull hgt, .inr ⟨trivial, rfl⟩⟩)
      · rw [if_neg hgt, if_neg hgt]
        exact ⟨hsound, (hkept q hdata).1, (hkept q hdata).2, .inl rfl⟩
    | queueUnused => exact absurd ho hunused
    | enabled | flowCntrlDisabled | queueUnbounded | queueWatermark =>
      exact ⟨hsound, (hkept q hdata).1, (hkept q hdata).2, .inl rfl⟩

private theorem roomFor_iff : l.roomFor (.call (.sendData p)) = true ↔
    (l.connectState = .idle → l.linkOptions ≠ .flowCntrlDisabled →
      (l.linkOptions ≠ .queueUnused ∨ l.txState = .flow) → l.queueLen ≠ 255) := by
  simp only [Link.roomFor, Bool.not_eq_true', Bool.and_eq_false_iff, Bool.or_eq_false_iff, decide_eq_false_iff_not]
  grind

/-- The warning at the end of `dti_send_data` leaves the queue. -/
private theorem warnFull_eq (m : Link) (prims : List Prim) : (m.warnFull prims).prims = prims ∧
    (m.warnFull prims).link.queueLen = m.queueLen ∧ (m.warnFull prims).link.dtiDataInd = m.dtiDataInd ∧
    (m.warnFull prims).link.linkOptions = m.linkOptions := by
  unfold Link.warnFull
  split <;> exact ⟨rfl, rfl, rfl, rfl⟩

private theorem sendData_keeps (h : l.Sound) (hroom : l.roomFor (.call (.sendData p))) :
    (l.dtiSendData p).Keeps l [p] (l.sendDataFrees p) ∧
      (l.sendDataFrees p = [] ∨
        l.sendDataFrees p = [p] ∧ (l.connectState ≠ .idle ∨ l.linkOptions = .queueUnused) ∨
        l.queueSize < l.dtiDataInd.length + 1 ∧
          (l.linkOptions = .queueRmFifo ∧ l.sendDataFrees p = ((l.dtiDataInd ++ [p]).head?).toList ∨
            l.linkOptions = .queueRmLifo ∧ l.sendDataFrees p = [p])) := by
  rw [roomFor_iff] at hroom
  by_cases hidle : l.connectState = .idle
  · by_cases hflow : l.linkOptions = .flowCntrlDisabled
    · have hnil := h.unqueued hflow
      have hsend : l.dtiSendData p = ⟨l, [.data p], none⟩ := by
        unfold Link.dtiSendData
        rw [if_neg (not_not.2 hidle), if_pos hflow]
      have hfrees : l.sendDataFrees p = [] := by
        unfold Link.sendDataFrees
        rw [if_neg (not_not.2 hidle), if_pos hflow]
      rw [hsend, hfrees]
      refine ⟨⟨h, ?_, ?_⟩, .inl rfl⟩
      · rw [hnil]
        exact .refl _
      · rw [hnil]
        exact .refl _
    · by_cases htx : l.txState = .flow
      · -- the packet goes through the queue, and the first one of the queue is sent
        have hput := put_sound (p := p) h hflow (hroom hidle hflow (.inr htx))
        obtain ⟨hgot, hsplit⟩ := get_eq hput
        have hsend : l.dtiSendData p = Link.warnFull
            { (l.putDtiDataInd p).getDtiDataInd.1 with txState := .idle }
            (Link.dataPrims (l.putDtiDataInd p).getDtiDataInd.2) := by
          unfold Link.dtiSendData
          rw [if_neg (not_not.2 hidle), if_neg hflow, htx]
        have hfrees : l.sendDataFrees p = [] := by
          unfold Link.sendDataFrees
          rw [if_neg (not_not.2 hidle), if_neg hflow, htx]
        obtain ⟨hprims, hlen, hdata, hopt⟩ := warnFull_eq
          { (l.putDtiDataInd p).getDtiDataInd.1 with txState := .idle }
          (Link.dataPrims (l.putDtiDataInd p).getDtiDataInd.2)
        rw [hsend, hfrees]
        rw [(put_eq h).1] at hsplit
        refine ⟨⟨hgot.congr hlen hdata hopt, ?_, ?_⟩, .inl rfl⟩
        · rw [hprims, hdata, packets_dataPrims, hsplit, List.append_nil]
        · rw [hprims, hdata, packets_dataPrims, hsplit]
      · have hsend : l.dtiSendData p = (l.putDtiDataIndManaged p).warnFull [] := by
          unfold Link.dtiSendData
          rw [if_neg (not_not.2 hidle), if_neg hflow]
          cases hc : l.txState with
          | flow => exact absurd hc htx
          | idle | bufferFull => rfl
        have hfrees : l.sendDataFrees p = l.managedFrees p := by
          unfold Link.sendDataFrees
          rw [if_neg (not_not.2 hidle), if_neg hflow]
          cases hc : l.txState with
          | flow => exact absurd hc htx
          | idle | bufferFull => rfl
        have hfull : l.queueLen = 255 → l.linkOptions = .queueUnused := by
          intro hlen
          by_contra hused
          exact hroom hidle hflow (.inl hused) hlen
        obtain ⟨hprims, hlen, hdata, hopt⟩ := warnFull_eq (l.putDtiDataIndManaged p) []
        obtain ⟨hsound, hperm, hsub, hmay⟩ := managed_keeps (p := p) h hflow hfull
        rw [hsend, hfrees]
        refine ⟨⟨hsound.congr hlen hdata hopt, ?_, ?_⟩, hmay.imp_right (.imp_left (.imp_right .inr))⟩
        · rw [hprims, hdata]
          exact hperm
        · rw [hprims, hdata]
          exact hsub
  · have hsend : l.dtiSendData p = l.leave := if_pos hidle
    have hfrees : l.sendDataFrees p = [p] := if_pos hidle
    rw [hsend, hfrees]
    refine ⟨⟨h, List.perm_append_comm, List.sublist_append_left .., ⟩, .inr (.inl ⟨rfl, .inl hidle⟩)⟩

private theorem call_keeps {c : DtiCall} (h : l.Sound) (hroom : l.roomFor (.call c)) :
    (l.call c).Keeps l c.given (l.callFrees c) := by
  cases c with
  | «open» linkOptions queueSize =>
    unfold Link.call Link.dtiOpen Link.callFrees
    cases hc : l.connectState with
    | setup => exact keeps_same h rfl rfl rfl rfl
    | idle | closing | closed | connecting => exact keeps_freed rfl rfl rfl
  | close flush =>
    unfold Link.call Link.dtiClose Link.callFrees
    cases hc : l.connectState with
    | closed => exact keeps_same h rfl rfl rfl rfl
    | idle | closing | setup | connecting =>
      cases flush with
      | false => exact keeps_freed rfl rfl rfl
      | true =>
        dsimp only
        split
        · split
          · exact keeps_same h rfl rfl rfl rfl
          · exact keeps_same h rfl rfl rfl rfl
        · contradiction
  | start =>
    change l.dtiStart.Keeps l [] []
    unfold Link.dtiStart
    split
    · exact keeps_same h rfl rfl rfl rfl
    · split <;> exact keeps_same h rfl rfl rfl rfl
  | stop =>
    change l.dtiStop.Keeps l [] []
    unfold Link.dtiStop
    split
    · exact keeps_same h rfl rfl rfl rfl
    · split <;> exact keeps_same h rfl rfl rfl rfl
  | sendData p => exact (sendData_keeps h hroom).1

private theorem receive_keeps {prim : Prim} (h : l.Sound) :
    (l.primReceived prim).Keeps l [] (l.receiveFrees prim) := by
  cases prim with
  | connect =>
    unfold Link.primReceived Link.connectInitPrimReceived Link.receiveFrees
    cases hc : l.connectState with
    | setup | connecting => exact keeps_same h rfl rfl rfl rfl
    | idle | closing | closed => exact keeps_freed rfl rfl rfl
  | confirm =>
    unfold Link.primReceived Link.connectConfirmPrimReceived
    dsimp only
    split <;> exact keeps_same h rfl rfl rfl rfl
  | disconnect =>
    unfold Link.primReceived Link.disconnectPrimReceived Link.receiveFrees
    cases hc : l.connectState with
    | closed => exact keeps_same h rfl rfl rfl rfl
    | idle | closing | setup | connecting => exact keeps_freed rfl rfl rfl
  | ready => exact (flowControl_keeps h).1
  | data p =>
    unfold Link.primReceived Link.dataPrimReceived
    dsimp only
    split
    · exact keeps_same h rfl rfl rfl rfl
    · split
      · exact keeps_same h rfl rfl rfl rfl
      · split <;> exact keeps_same h rfl rfl rfl rfl

private theorem resume_keeps {k : Cont} (h : l.Sound) : (l.resume k).Keeps l [] (l.resumeFrees k) := by
  cases k with
  | openReady =>
    unfold Link.resume
    dsimp only
    split <;> exact keeps_same h rfl rfl rfl rfl
  | dataReady =>
    unfold Link.resume
    dsimp only
    split <;> exact keeps_same h rfl rfl rfl rfl
  | flowReady => exact (flowEnd_keeps h rfl).1
  | closeNow => exact keeps_freed rfl rfl rfl
  | done => exact keeps_same h rfl rfl rfl rfl

/-- A packet put into a queue of 255 packets lets the counter go back to 0. -/
private theorem sendData_overflows (h : l.Sound) (hroom : ¬l.roomFor (.call (.sendData p))) :
    (l.dtiSendData p).link.queueLen ≠ (l.dtiSendData p).link.dtiDataInd.length := by
  rw [roomFor_iff] at hroom
  push Not at hroom
  obtain ⟨hidle, hflow, hput, hfull⟩ := hroom
  obtain ⟨hdata, hlen⟩ := put_eq (p := p) h
  rw [hfull] at hlen
  have hlength : (l.putDtiDataInd p).dtiDataInd.length = 256 := by
    rw [hdata, List.length_append, List.length_singleton, ← h.length, hfull]
  have hwrong : ∀ m : Link, m.queueLen = (l.putDtiDataInd p).queueLen → m.dtiDataInd = (l.putDtiDataInd p).dtiDataInd →
      ∀ prims, (m.warnFull prims).link.queueLen ≠ (m.warnFull prims).link.dtiDataInd.length := by
    intro m hm hd prims
    obtain ⟨-, hmlen, hmdata, -⟩ := warnFull_eq m prims
    rw [hmlen, hmdata, hm, hd, hlen, hlength]
    decide
  have hget : (l.putDtiDataInd p).getDtiDataInd.1 = l.putDtiDataInd p := by
    unfold Link.getDtiDataInd
    rw [if_pos hlen]
  have hmanaged : l.linkOptions ≠ .queueUnused → l.putDtiDataIndManaged p = l.putDtiDataInd p := by
    intro hused
    unfold Link.putDtiDataIndManaged
    have hzero : ¬(l.putDtiDataInd p).queueLen > (l.putDtiDataInd p).queueSize := by
      rw [hlen]
      exact Nat.not_lt_zero _
    simp only [ne_eq, hused, not_false_eq_true, if_true, if_neg hzero]
    cases l.linkOptions <;> rfl
  unfold Link.dtiSendData
  rw [if_neg (not_not.2 hidle), if_neg hflow]
  cases htx : l.txState with
  | flow => exact hwrong _ (by rw [hget]) (by rw [hget]) _
  | idle | bufferFull =>
    have hused := hput.resolve_right (by rw [htx]; decide)
    exact hwrong _ (by rw [hmanaged hused]) (by rw [hmanaged hused]) _

private theorem call_mayFree {c : DtiCall} (h : s.link.Sound) (hroom : s.link.roomFor (.call c)) :
    s.MayFree (s.link.callFrees c) (.call c) := by
  cases c with
  | «open» linkOptions queueSize =>
    unfold Sender.MayFree Link.callFrees
    dsimp only
    split
    · exact .inl rfl
    · exact .inr rfl
  | close flush =>
    unfold Link.callFrees
    cases flush with
    | false =>
      unfold Sender.MayFree
      dsimp only
      split
      · exact .inl rfl
      · exact .inr rfl
    | true => exact if_pos (.inr rfl)
  | start | stop => exact rfl
  | sendData p => exact (sendData_keeps h hroom).2

private theorem receive_mayFree {prim : Prim} (h : s.link.Sound) :
    s.MayFree (s.link.receiveFrees prim) (.receive prim) := by
  cases prim with
  | connect | disconnect =>
    unfold Sender.MayFree Link.receiveFrees
    dsimp only
    split
    · exact .inl rfl
    · exact .inr rfl
  | ready => exact (flowControl_keeps h).2
  | confirm | data _ => exact rfl

private theorem resume_mayFree {k : Cont} (h : s.link.Sound) (hk : k ∈ s.end.stack) :
    s.MayFree (s.link.resumeFrees k) .ret := by
  cases k with
  | flowReady => exact .inl (@flowEnd_keeps s.link s.link [] h rfl).2
  | closeNow => exact .inr ⟨hk, rfl⟩
  | openReady | dataReady | done => exact .inl rfl

@[simp] private theorem afterRes_link (e : End) (r : Res) : (e.after r).link = r.link := by
  unfold End.after
  split <;> rfl

/-- A step is a function of the library. -/
private theorem step_cases (h : s.link.Sound) (ht : s.step e = some t) : ∃ e' r given freed,
    t = s.after e' r given freed ∧ (s.link.roomFor e = true → r.Keeps s.link given freed ∧ s.MayFree freed e) ∧
      (¬s.link.roomFor e = true → r.link.queueLen ≠ r.link.dtiDataInd.length) := by
  cases e with
  | call c =>
    refine ⟨_, _, _, _, (Option.some.inj ht).symm, ?_, fun hno => ?_⟩
    · exact fun hroom => ⟨call_keeps h hroom, call_mayFree h hroom⟩
    · cases c with
      | sendData p => exact sendData_overflows h hno
      | «open» _ _ | close _ | start | stop => exact absurd rfl hno
  | ret =>
    unfold Sender.step at ht
    dsimp only at ht
    split at ht
    · cases ht
    · rename_i k ks hstack
      have hk : k ∈ s.end.stack := hstack ▸ List.mem_cons_self
      exact ⟨_, _, _, _, (Option.some.inj ht).symm, fun _ => ⟨resume_keeps h, resume_mayFree h hk⟩,
        fun hno => absurd rfl hno⟩
  | receive prim =>
    unfold Sender.step at ht
    simp only [Option.ite_none_right_eq_some, Option.some.injEq] at ht
    exact ⟨_, _, _, _, ht.2.symm, fun _ => ⟨receive_keeps h, receive_mayFree h⟩, fun hno => absurd rfl hno⟩

/-- A function that keeps the packets of the queue keeps those of the run. -/
private theorem balanced_after {e' : End} (h : s.Balanced) (hk : r.Keeps s.link given freed) :
    (s.after e' r given freed).Balanced := by
  have hlink : (s.after e' r given freed).link = r.link := afterRes_link e' r
  refine ⟨hlink ▸ hk.sound.length, ?_, ?_⟩
  · rw [hlink]
    change (s.given ++ given).Perm (s.sent ++ packets r.prims ++ (s.freed ++ freed) ++ r.link.dtiDataInd)
    calc (s.given ++ given).Perm (s.sent ++ s.freed ++ s.link.dtiDataInd ++ given) := h.balance.append_right given
      _ = s.sent ++ s.freed ++ (s.link.dtiDataInd ++ given) := List.append_assoc ..
      List.Perm _ (s.sent ++ s.freed ++ (packets r.prims ++ freed ++ r.link.dtiDataInd)) := hk.balance.append_left _
      List.Perm _ (s.sent ++ packets r.prims ++ (s.freed ++ freed) ++ r.link.dtiDataInd) := by
        simp only [List.append_assoc, List.perm_append_left_iff]
        simp only [← List.append_assoc, List.perm_append_right_iff]
        exact List.perm_append_comm
  · rw [hlink]
    change (s.sent ++ packets r.prims ++ r.link.dtiDataInd).Sublist (s.given ++ given)
    calc (s.sent ++ packets r.prims ++ r.link.dtiDataInd)
      _ = s.sent ++ (packets r.prims ++ r.link.dtiDataInd) := List.append_assoc ..
      List.Sublist _ (s.sent ++ (s.link.dtiDataInd ++ given)) := hk.order.append_left _
      _ = s.sent ++ s.link.dtiDataInd ++ given := (List.append_assoc ..).symm
      List.Sublist _ (s.given ++ given) := h.order.append_right given

private theorem accounted_step (h : s.link.Sound ∧ s.Balanced) (hroom : s.link.roomFor e) (ht : s.step e = some t) :
    t.link.Sound ∧ t.Balanced := by
  obtain ⟨e', r, given, freed, rfl, hkeeps, -⟩ := step_cases h.1 ht
  have hk := (hkeeps hroom).1
  have hlink : (s.after e' r given freed).link = r.link := afterRes_link e' r
  exact ⟨hlink ▸ hk.sound, balanced_after h.2 hk⟩

private theorem accounted_start : Sender.start.link.Sound ∧ Sender.start.Balanced :=
  ⟨.of_nil rfl rfl, rfl, .refl _, .refl _⟩

end

/-- As long as no packet is put into a queue of 255 packets, the length of the queue is right, every packet is sent in
order, freed or in the queue, and only full queues, closes and resets free packets that were taken; and a step leaves
the length right exactly when it puts no packet into a queue of 255 packets. -/
theorem packets_accounted {s : Sender} (h : sender.Reach (fun s e => s.link.roomFor e) s) :
    s.Balanced ∧ ∀ e t, s.step e = some t →
      (s.link.roomFor e → ∃ f, t.freed = s.freed ++ f ∧ s.MayFree f e) ∧
        (t.link.queueLen = t.link.dtiDataInd.length ↔ s.link.roomFor e) := by
  have hinv : s.link.Sound ∧ s.Balanced :=
    h.invariant (I := fun s => s.link.Sound ∧ s.Balanced) (fun _ hs => hs ▸ accounted_start)
      fun _ _ _ hs hok hstep => accounted_step hs hok hstep
  refine ⟨hinv.2, fun e t ht => ?_⟩
  obtain ⟨e', r, given, freed, rfl, hkeeps, hwrong⟩ := step_cases hinv.1 ht
  have hlink : (s.after e' r given freed).link = r.link := afterRes_link e' r
  refine ⟨fun hroom => ⟨freed, rfl, (hkeeps hroom).2⟩, ?_⟩
  rw [hlink]
  constructor
  · intro hlen
    by_contra hno
    exact hwrong hno hlen
  · intro hroom
    exact (hkeeps hroom).1.sound.length

/-- A link is opened with some options, and its neighbour confirms the connection. -/
def opening (linkOptions : LinkOptions) (queueSize : Nat) : List SendEvent :=
  [.call (.open linkOptions queueSize), .receive .confirm, .ret, .ret]

theorem packets_accounted_fifo : ∃ s, sender.Reach (fun s e => s.link.roomFor e) s ∧ s.sent = [0] ∧ s.freed = [1] ∧
    s.link.dtiDataInd = [2, 3] ∧ s.Balanced := by
  have hrun : (sender.run (fun s e => s.link.roomFor e) .start (opening .queueRmFifo 2 ++
      [.receive .ready, .call (.sendData 0), .call (.sendData 1), .call (.sendData 2), .call (.sendData 3)])).any
      (fun t => decide (t.sent = [0] ∧ t.freed = [1] ∧ t.link.dtiDataInd = [2, 3])) = true := by decide +kernel
  obtain ⟨s, hs, hfin⟩ := (Option.any_eq_true ..).1 hrun
  have hreach := Machine.Reach.of_run (.init rfl) hs
  obtain ⟨hsent, hfreed, hdata⟩ := of_decide_eq_true hfin
  exact ⟨s, hreach, hsent, hfreed, hdata, (packets_accounted hreach).1⟩

/-- A link with the given packets in its queue. -/
private def Link.holding (l : Link) (q : List Nat) : Link := { l with dtiDataInd := q, queueLen := q.length % 256 }

private theorem put_holding {l : Link} {q : List Nat} (hsmall : q.length < 256) (p : Nat) :
    (l.holding q).putDtiDataInd p = l.holding (q ++ [p]) := by
  have hlen : q.length % 256 = q.length := Nat.mod_eq_of_lt hsmall
  unfold Link.putDtiDataInd Link.holding
  simp only [hlen, List.length_append, List.length_singleton]
  by_cases hzero : q.length = 0
  · rw [if_pos hzero, List.length_eq_zero_iff.1 hzero]
    rfl
  · rw [if_neg hzero, if_neg (not_not.2 rfl)]

/-- A queue of 256 packets counts as empty. -/
private theorem put_forgets {l : Link} {q : List Nat} (hfull : q.length = 256) (p : Nat) :
    (l.holding q).putDtiDataInd p = l.holding [p] := by
  unfold Link.putDtiDataInd Link.holding
  rw [hfull, if_pos rfl]
  rfl

/-- The link after `opening` with an unbounded queue. -/
private def openedLink : Link := { Link.default with connectState := .idle, linkOptions := .queueUnbounded }

/-- An end with an unbounded queue that has neither sent nor freed a packet. -/
private def queueing (q given : List Nat) : Sender :=
  ⟨⟨openedLink.holding q, [], [.connectionOpened, .txBufferReady]⟩, given, [], []⟩

private theorem queueing_step {q q' : List Nat} {p : Nat}
    (hput : (openedLink.holding q).putDtiDataInd p = openedLink.holding q') (given : List Nat) :
    sender.step (queueing q given) (.call (.sendData p)) = some (queueing q' (given ++ [p])) := by
  have hsend : (openedLink.holding q).dtiSendData p = ⟨openedLink.holding q', [], none⟩ := by
    change ((openedLink.holding q).putDtiDataInd p).warnFull [] = _
    rw [hput]
    exact if_neg fun h => h.2 rfl
  change some (Sender.after _ _ ((openedLink.holding q).dtiSendData p) [p] []) = _
  rw [hsend]
  rfl

/-- Up to 256 packets stay in an unbounded queue. -/
private theorem queueing_run (es : List SendEvent) {ps q : List Nat} (hsmall : q.length + ps.length ≤ 256)
    (given : List Nat) :
    sender.run (fun _ _ => true) (queueing q given) ((ps.map fun p => .call (.sendData p)) ++ es) =
      sender.run (fun _ _ => true) (queueing (q ++ ps) (given ++ ps)) es := by
  induction ps generalizing q given with
  | nil =>
    rw [List.append_nil, List.append_nil]
    rfl
  | cons p ps ih =>
    rw [List.length_cons] at hsmall
    have hstep := queueing_step (put_holding (l := openedLink) (q := q) (by omega) p) given
    have hrest : (q ++ [p]).length + ps.length ≤ 256 := by
      rw [List.length_append, List.length_singleton]
      omega
    rw [List.map_cons, List.cons_append, Machine.run, if_pos rfl, hstep, Option.bind_some, ih hrest, List.append_assoc,
      List.append_assoc, List.singleton_append]

private theorem opening_run (es : List SendEvent) :
    sender.run (fun _ _ => true) .start (opening .queueUnbounded 0 ++ es) =
      sender.run (fun _ _ => true) (queueing [] []) es := rfl

/-- An unbounded queue: after 256 packets its length is 0, and the next packet takes the place of all of them. -/
theorem unbounded_forgets : ∃ s, sender.run (fun _ _ => true) .start
      (opening .queueUnbounded 0 ++ (List.range 257).map fun p => .call (.sendData p)) = some s ∧
    s.link.linkOptions = .queueUnbounded ∧ s.sent = [] ∧ s.freed = [] ∧ s.link.dtiDataInd = [256] ∧ ¬s.Balanced := by
  have hlen : (List.range 256).length = 256 := List.length_range
  have hlast := queueing_step (put_forgets (l := openedLink) hlen 256) (List.range 256)
  have hrun : sender.run (fun _ _ => true) .start (opening .queueUnbounded 0 ++
      (List.range 257).map fun p => .call (.sendData p)) = some (queueing [256] (List.range 256 ++ [256])) := by
    rw [List.range_succ, List.map_append, opening_run, queueing_run _ (Nat.le_of_eq (by rw [hlen]; rfl)),
      List.nil_append, List.map_singleton, Machine.run, if_pos rfl, hlast]
    rfl
  refine ⟨_, hrun, rfl, rfl, rfl, rfl, fun hb => ?_⟩
  have hnumber : (List.range 256 ++ [256]).length = 1 := hb.balance.length_eq
  rw [List.length_append, hlen] at hnumber
  cases hnumber

end Citrine.Dti
