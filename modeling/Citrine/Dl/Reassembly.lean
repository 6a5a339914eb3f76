import Citrine.Dl.Accept
import Citrine.Lib.Machine
import Citrine.Lib.Segment
import Mathlib.Logic.Function.Basic

/-!
# Reassembly of downlink messages

The channel of one SAPI against a conforming sender in the network, over a FIFO that loses any frame.  The sender
segments its messages, numbers the I frames modulo 8 and keeps at most seven of them outstanding, and sends and
repeats them in any order within this window.  It begins a new establishment with a SABM, or by answering the SABM
of the channel; frames of earlier establishments may still be in the FIFO then.  All other frames, with any N(R),
may arrive at any time.

The ghosts of the system number the establishments and record, for each of them, the messages of the sender, the
I frames that the channel accepted and the messages that it indicated.  `reassembly` says that the
indications of an establishment are a prefix of its messages, in all runs in which no partial message is left over
when a link opens or when an N(R) fails; `stale_prefix` shows that without this condition the octets of an
interrupted message come out in front of a later one.
-/

namespace Citrine.Dl

/-! ### The system -/

/-- An I command. -/
def Frame.isInfo (f : Frame) : Bool := f.formatType == .i && f.cr

/-- A SABM command or a UA response. -/
def Frame.isOpener (f : Frame) : Bool :=
  f.formatType == .u && if f.cr then f.uType == sabmFrame else f.uType == uaFrame

/-- A frame in the FIFO, with the establishment it belongs to, the number of an I frame and the V(A) of the
sender when it was sent. -/
structure Item where
  epoch : Nat
  num : Nat
  va : Nat
  frame : Frame

/-- The channel, the sender, the FIFO, and the ghosts. -/
structure Net where
  chan : Chan
  /-- The establishment of the sender, whether it takes it for established, and its V(A) there. -/
  epoch : Nat
  isOpen : Bool
  va : Nat
  /-- The messages of each establishment, in segments. -/
  sent : Nat → List (List (List Octet))
  link : List Item
  /-- The establishment of the frame that last opened the channel. -/
  rEpoch : Nat
  accepted : Nat → List (Segment Octet)
  /-- The indications, each with the establishment in which it was made. -/
  log : List (Nat × List Octet)

/-- The events of the system. -/
inductive NetEvent where
  | entity (e : Event)
  | message (chunks : List (List Octet))
  | sendI (n : Nat) (f : Frame)
  | sabm (f : Frame)
  | opened
  | answer (f : Frame)
  | released (f : Frame)
  | other (f : Frame)
  | acknowledged (n : Nat)
  | lose (k : Nat)
  | deliver (ch : ChType)

/-- The sender puts a frame into the FIFO. -/
def Net.put (num : Nat) (f : Frame) (s : Net) : Net :=
  { s with link := s.link ++ [{ epoch := s.epoch, num := num, va := s.va, frame := f }] }

/-- The sender begins an establishment.  One that it has not taken for established goes on. -/
def Net.begin (isOpen : Bool) (s : Net) : Net :=
  { s with epoch := if s.isOpen then s.epoch + 1 else s.epoch, isOpen := isOpen, va := 0 }

/-- The frame is the I frame number `n` of the current establishment. -/
def Net.carries (s : Net) (n : Nat) (f : Frame) : Bool :=
  f.isInfo && f.sendNumber == n % 8 && (segments (s.sent s.epoch))[n]? == some (f.infoField, f.mBit)

/-- The sender has got the SABM of the channel, and none of its own frames that could open the channel for an
earlier establishment is on the way. -/
def Net.asked (s : Net) : Bool :=
  s.chan.state == .contentionResolution &&
    (s.chan.cch.vtx != .uaCmd || (!s.isOpen && s.rEpoch == s.epoch)) &&
    s.link.all fun x => !x.frame.isOpener || (!s.isOpen && x.epoch == s.epoch)

/-- An event of the channel. -/
def Net.handle (sapi : Sapi) (e : Event) (s : Net) : Net :=
  let r := step sapi e s.chan
  { s with chan := r.1, log := s.log ++ (inds r.2.prims).map fun octets => (s.rEpoch, octets) }

/-- The ghosts at the arrival of a frame. -/
def Net.arrive (ch : ChType) (sapi : Sapi) (x : Item) (s : Net) : Net :=
  let rEpoch := if opens ch sapi s.chan x.frame then x.epoch else s.rEpoch
  { s with
    rEpoch := rEpoch
    accepted :=
      if accepts ch sapi s.chan x.frame then
        Function.update s.accepted rEpoch (s.accepted rEpoch ++ [(x.frame.infoField, x.frame.mBit)])
      else s.accepted }

/-- One event of the system. -/
def Net.step (sapi : Sapi) (s : Net) : NetEvent → Option Net
  | .entity e => if e.isFrame then none else some (s.handle sapi e)
  | .message chunks =>
    if chunks = [] then none
    else some { s with sent := Function.update s.sent s.epoch (s.sent s.epoch ++ [chunks]) }
  | .sendI n f =>
    if s.isOpen && s.carries n f && decide (s.va ≤ n ∧ n < s.va + 7) then some (s.put n f) else none
  | .sabm f =>
    if f.isOpener && f.cr then some ((s.begin false).put 0 f) else none
  | .opened => if !s.isOpen && s.rEpoch == s.epoch then some { s with isOpen := true } else none
  | .answer f =>
    if f.isOpener && !f.cr && s.asked then some ((s.begin true).put 0 f) else none
  | .released f =>
    if f.isOpener && !f.cr && s.chan.state == .awaitingRelease then some ((s.begin false).put 0 f) else none
  | .other f => if f.isInfo || f.isOpener then none else some (s.put 0 f)
  | .acknowledged n =>
    if s.isOpen && decide (s.va ≤ n ∧ n ≤ (s.accepted s.epoch).length) then some { s with va := n } else none
  | .lose k => if k < s.link.length then some { s with link := s.link.eraseIdx k } else none
  | .deliver ch =>
    match s.link with
    | [] => none
    | x :: rest => some (({ s with link := rest }.arrive ch sapi x).handle sapi (.frame ch x.frame))

/-- The system after `pei_init`. -/
def Net.start (sapi : Sapi) : Net :=
  { chan := peiInit sapi, epoch := 0, isOpen := false, va := 0, sent := fun _ => [], link := []
    rEpoch := 0, accepted := fun _ => [], log := [] }

/-- The system as a machine. -/
def reassembly.machine (sapi : Sapi) : Machine Net NetEvent := ⟨(· = Net.start sapi), Net.step sapi⟩

/-- The messages indicated in an establishment. -/
def Net.indicated (s : Net) (e : Nat) : List (List Octet) :=
  (s.log.filter fun p => p.1 == e).map Prod.snd

/-- A frame opens the link only without a partial message, and where its N(R) fails and overrules the
indication, the indication is what it would be anyway. -/
def undisturbed (ch : ChType) (sapi : Sapi) (c : Chan) (f : Frame) : Bool :=
  (!opens ch sapi c f || c.inMsg.isNone) &&
    (!(nrFails ch sapi c f && overrules ch sapi) ||
      if accepts ch sapi c f then f.mBit || f.pBit else !(f.pBit && !f.mBit) || c.inMsg.isNone)

/-- The condition on a step of the system. -/
def Net.undisturbed (sapi : Sapi) (s : Net) : NetEvent → Bool
  | .deliver ch => s.link.head?.all fun x => Dl.undisturbed ch sapi s.chan x.frame
  | _ => true

/-! ### The frames -/

theorem opens_isOpener {ch : ChType} {sapi : Sapi} {c : Chan} {f : Frame} (h : opens ch sapi c f) :
    f.isOpener := by
  simp only [opens, Bool.and_eq_true, beq_iff_eq] at h
  obtain ⟨⟨-, hu⟩, h⟩ := h
  simp only [Frame.isOpener, hu, beq_self_eq_true, Bool.true_and]
  cases hs : c.state <;> simp only [hs] at h
  case disabled | idleDl =>
    simp only [Bool.and_eq_true] at h
    simp [h.1.1.1, h.1.1.2]
  case suspended | awaitingRelease => cases h
  case contentionResolution =>
    split at h
    · rename_i hcr
      simp only [Bool.and_eq_true] at h
      simp [hcr, h.1]
    · rename_i hcr
      simp only [Bool.and_eq_true] at h
      simp [hcr, h.1]
  case multipleFrameEstablished | timerRecovery =>
    simp only [Bool.and_eq_true] at h
    simp [h.1.1, h.1.2]

theorem accepts_isInfo {ch : ChType} {sapi : Sapi} {c : Chan} {f : Frame} (h : accepts ch sapi c f) :
    f.isInfo ∧ live sapi c ∧ f.sendNumber = c.cch.vr := by
  simp only [accepts, Bool.and_eq_true, beq_iff_eq] at h
  refine ⟨by simp [Frame.isInfo, h.1.1.2, h.1.2], by simp [live, h.1.1.1.2], h.2⟩

theorem accepts_transfers {ch : ChType} {sapi : Sapi} {c : Chan} {f : Frame} (h : accepts ch sapi c f) :
    transfers ch sapi c f := by
  simp only [accepts, Bool.and_eq_true, beq_iff_eq] at h
  simp [transfers, h.1.1.1.1, h.1.1.1.2, h.1.1.2]

theorem info_not_opener {f : Frame} (h : f.isInfo) : f.isOpener = false := by
  simp only [Frame.isInfo, Bool.and_eq_true, beq_iff_eq] at h
  simp [Frame.isOpener, h.1]

theorem opens_not_transfers {ch : ChType} {sapi : Sapi} {c : Chan} {f : Frame} (h : opens ch sapi c f) :
    transfers ch sapi c f = false := by
  simp only [opens, Bool.and_eq_true, beq_iff_eq] at h
  simp [transfers, h.1.2]

/-! ### The invariant -/

/-- The order of two frames in the FIFO. -/
structure Item.Before (x y : Item) : Prop where
  epoch : x.epoch ≤ y.epoch
  info_opener : x.frame.isInfo → y.frame.isOpener → x.epoch < y.epoch
  opener_info : x.frame.isOpener → y.frame.isInfo → x.epoch = y.epoch
  va : x.frame.isInfo → y.frame.isInfo → x.epoch = y.epoch → x.va ≤ y.va

/-- A frame in the FIFO that can open the link: nothing of its establishment has been accepted yet. -/
structure Net.OpenerOk (s : Net) (x : Item) : Prop where
  epoch : s.isOpen → x.epoch = s.epoch
  fresh : s.accepted x.epoch = []

/-- An I frame in the FIFO: its number lies in the window of seven frames, and so does the number of the next
frame to be accepted. -/
structure Net.InfoOk (sapi : Sapi) (s : Net) (x : Item) : Prop where
  num : x.va ≤ x.num ∧ x.num < x.va + 7
  next : x.va ≤ (s.accepted x.epoch).length ∧ (s.accepted x.epoch).length ≤ x.va + 7
  sendNumber : x.frame.sendNumber = x.num % 8
  segment : (segments (s.sent x.epoch))[x.num]? = some (x.frame.infoField, x.frame.mBit)
  current : x.epoch = s.epoch → s.isOpen ∧ x.va ≤ s.va
  epoch : live sapi s.chan → x.epoch = s.rEpoch

structure Net.ItemOk (sapi : Sapi) (s : Net) (x : Item) : Prop where
  epoch : s.rEpoch ≤ x.epoch ∧ x.epoch ≤ s.epoch
  opener : x.frame.isOpener → s.OpenerOk x
  info : x.frame.isInfo → s.InfoOk sapi x

/-- The sender and the FIFO. -/
structure Net.LinkInv (sapi : Sapi) (s : Net) : Prop where
  epoch : s.rEpoch ≤ s.epoch
  unopened : s.rEpoch < s.epoch → s.isOpen → live sapi s.chan = false
  closed : s.isOpen = false → s.va = 0 ∧ s.accepted s.epoch = []
  future : ∀ e, s.rEpoch < e → s.accepted e = []
  window : s.va ≤ (s.accepted s.epoch).length ∧ (s.accepted s.epoch).length ≤ s.va + 7
  items : ∀ x ∈ s.link, s.ItemOk sapi x
  order : s.link.Pairwise Item.Before

/-- The receiver and its indications. -/
structure Net.RecvInv (sapi : Sapi) (s : Net) : Prop where
  accepted : ∀ e, s.accepted e <+: segments (s.sent e)
  chunks : ∀ e, ∀ m ∈ s.sent e, m ≠ []
  vr : live sapi s.chan → s.chan.cch.vr = (s.accepted s.rEpoch).length % 8
  rest : live sapi s.chan → s.chan.inMsg.getD [] = (reassemble (s.accepted s.rEpoch)).rest
  indicated : ∀ e, s.indicated e = (reassemble (s.accepted e)).complete
  epochs : (s.log.map Prod.fst).Pairwise (· ≤ ·)
  last : ∀ p ∈ s.log, p.1 ≤ s.rEpoch

/-! ### The sender and the FIFO -/

section
variable {sapi : Sapi} {s : Net}

/-- A frame goes to the end of the FIFO. -/
private theorem Net.LinkInv.after_put (h : s.LinkInv sapi) {num : Nat} {f : Frame}
    (hopener : f.isOpener → s.accepted s.epoch = [] ∧ ∀ x ∈ s.link, x.frame.isInfo → x.epoch < s.epoch)
    (hinfo : f.isInfo → s.isOpen ∧ s.carries num f ∧ s.va ≤ num ∧ num < s.va + 7) :
    (s.put num f).LinkInv sapi := by
  have hnew : (s.put num f).ItemOk sapi { epoch := s.epoch, num := num, va := s.va, frame := f } := by
    refine ⟨⟨h.epoch, Nat.le_refl _⟩, fun ho => ⟨fun _ => rfl, (hopener ho).1⟩, fun hi => ?_⟩
    obtain ⟨hopen, hc, hlo, hhi⟩ := hinfo hi
    simp only [Net.carries, Bool.and_eq_true, beq_iff_eq] at hc
    refine ⟨⟨hlo, hhi⟩, h.window, hc.1.2, hc.2, fun _ => ⟨hopen, Nat.le_refl _⟩, fun hl => ?_⟩
    rcases Nat.lt_or_ge s.rEpoch s.epoch with hlt | hge
    · have hd := h.unopened hlt hopen
      exact absurd hl (by simp [Net.put, hd])
    · exact Nat.le_antisymm hge h.epoch
  have hold : ∀ x ∈ s.link, (s.put num f).ItemOk sapi x := by
    intro x hx
    obtain ⟨he, ho, hi⟩ := h.items x hx
    exact ⟨he, fun h' => ⟨(ho h').1, (ho h').2⟩, fun h' => ⟨(hi h').1, (hi h').2, (hi h').3, (hi h').4, (hi h').5, (hi h').6⟩⟩
  refine ⟨h.epoch, h.unopened, h.closed, h.future, h.window, ?_, ?_⟩
  · intro x hx
    rcases List.mem_append.1 hx with hx | hx
    · exact hold x hx
    · rw [List.mem_singleton] at hx
      exact hx ▸ hnew
  · refine List.pairwise_append.2 ⟨h.order, List.pairwise_singleton _ _, fun x hx y hy => ?_⟩
    rw [List.mem_singleton] at hy
    subst hy
    have hx' := h.items x hx
    refine ⟨hx'.epoch.2, fun hi ho => (hopener ho).2 x hx hi, fun ho hi => ?_, fun hi hi' he => ?_⟩
    · exact (hx'.opener ho).epoch (hinfo hi).1
    · exact ((hx'.info hi).current he).2

/-- The sender begins an establishment. -/
private theorem Net.LinkInv.after_begin (h : s.LinkInv sapi) (isOpen : Bool)
    (hopen : isOpen → (∀ x ∈ s.link, x.frame.isOpener → x.epoch = (s.begin isOpen).epoch) ∧
      (s.rEpoch < (s.begin isOpen).epoch → live sapi s.chan = false)) :
    (s.begin isOpen).LinkInv sapi ∧ (s.begin isOpen).accepted (s.begin isOpen).epoch = [] ∧
      ∀ x ∈ (s.begin isOpen).link, x.frame.isInfo → x.epoch < (s.begin isOpen).epoch := by
  have he : s.epoch ≤ (s.begin isOpen).epoch := by
    simp only [Net.begin]
    split <;> omega
  have hacc : s.accepted (s.begin isOpen).epoch = [] := by
    simp only [Net.begin]
    split
    · exact h.future _ (by have := h.epoch; omega)
    · rename_i hc
      exact (h.closed (by simpa using hc)).2
  have hinfo : ∀ x ∈ s.link, x.frame.isInfo → x.epoch < (s.begin isOpen).epoch := by
    intro x hx hi
    have hx' := h.items x hx
    have hle := hx'.epoch.2
    simp only [Net.begin]
    split
    · omega
    · rename_i hc
      rcases Nat.lt_or_ge x.epoch s.epoch with hlt | hge
      · exact hlt
      · exact absurd ((hx'.info hi).current (Nat.le_antisymm hle hge)).1 hc
  refine ⟨⟨Nat.le_trans h.epoch he, fun hr ho => (hopen ho).2 hr, fun _ => ⟨rfl, hacc⟩, h.future, ?_, ?_, h.order⟩,
    hacc, hinfo⟩
  · rw [show (s.begin isOpen).accepted = s.accepted from rfl, hacc]
    simp [Net.begin]
  · intro x hx
    obtain ⟨hb, ho, hi⟩ := h.items x hx
    refine ⟨⟨hb.1, Nat.le_trans hb.2 he⟩, fun h' => ⟨fun hop => (hopen hop).1 x hx h', (ho h').2⟩, fun h' => ?_⟩
    obtain ⟨h1, h2, h3, h4, -, h6⟩ := hi h'
    exact ⟨h1, h2, h3, h4, fun hx' => absurd hx' (Nat.ne_of_lt (hinfo x hx h')), h6⟩

/-- Frames may get lost. -/
private theorem Net.LinkInv.after_loss (h : s.LinkInv sapi) {l : List Item} (hl : l.Sublist s.link) :
    Net.LinkInv sapi { s with link := l } := by
  refine ⟨h.epoch, h.unopened, h.closed, h.future, h.window, fun x hx => ?_, h.order.sublist hl⟩
  obtain ⟨he, ho, hi⟩ := h.items x (hl.subset hx)
  exact ⟨he, fun h' => ⟨(ho h').1, (ho h').2⟩,
    fun h' => ⟨(hi h').1, (hi h').2, (hi h').3, (hi h').4, (hi h').5, (hi h').6⟩⟩

/-- An event of the channel that does not open the link. -/
private theorem Net.LinkInv.after_quiet (h : s.LinkInv sapi) {c : Chan} {l : List (Nat × List Octet)}
    (hc : live sapi c → live sapi s.chan) : Net.LinkInv sapi { s with chan := c, log := l } := by
  refine ⟨h.epoch, fun hr ho => ?_, h.closed, h.future, h.window, fun x hx => ?_, h.order⟩
  · have hd := h.unopened hr ho
    cases hl : live sapi c with
    | false => rfl
    | true => rw [hc hl] at hd; cases hd
  · obtain ⟨he, ho, hi⟩ := h.items x hx
    exact ⟨he, fun h' => ⟨(ho h').1, (ho h').2⟩,
      fun h' => ⟨(hi h').1, (hi h').2, (hi h').3, (hi h').4, (hi h').5, fun hl => (hi h').6 (hc hl)⟩⟩

/-- The first frame in the FIFO opens the link. -/
private theorem Net.LinkInv.after_opening (h : s.LinkInv sapi) {x : Item} {rest : List Item}
    (hx : s.link = x :: rest) (ho : x.frame.isOpener) {c : Chan} {l : List (Nat × List Octet)} :
    Net.LinkInv sapi { s with chan := c, link := rest, rEpoch := x.epoch, log := l } := by
  have hmem : ∀ y ∈ rest, y ∈ s.link := fun y hy => hx ▸ List.mem_cons_of_mem x hy
  have hxi := h.items x (by simp [hx])
  have hord := h.order
  rw [hx, List.pairwise_cons] at hord
  refine ⟨hxi.epoch.2, fun hr hop => ?_, h.closed, fun e he => ?_, h.window, fun y hy => ?_, hord.2⟩
  · have he := (hxi.opener ho).epoch hop
    simp only at hr
    omega
  · exact h.future e (Nat.lt_of_le_of_lt hxi.epoch.1 he)
  · obtain ⟨he, hyo, hyi⟩ := h.items y (hmem y hy)
    have hb := hord.1 y hy
    exact ⟨⟨hb.epoch, he.2⟩, fun h' => ⟨(hyo h').1, (hyo h').2⟩,
      fun h' => ⟨(hyi h').1, (hyi h').2, (hyi h').3, (hyi h').4, (hyi h').5,
        fun _ => (hb.opener_info ho h').symm⟩⟩

/-- On a live link an I frame with N(S) = V(R) is the next one of the current establishment. -/
private theorem Net.InfoOk.num_eq {x : Item} (h : s.InfoOk sapi x) (hl : live sapi s.chan)
    (hvr : s.chan.cch.vr = (s.accepted s.rEpoch).length % 8) (hn : x.frame.sendNumber = s.chan.cch.vr) :
    x.epoch = s.rEpoch ∧ x.num = (s.accepted s.rEpoch).length := by
  have he := h.epoch hl
  have h1 := h.num
  have h2 := h.next
  have h3 := h.sendNumber
  rw [he] at h2
  exact ⟨he, by omega⟩

/-- The first frame in the FIFO is accepted. -/
private theorem Net.LinkInv.after_acceptance (h : s.LinkInv sapi) {x : Item} {rest : List Item}
    (hx : s.link = x :: rest) (hi : x.frame.isInfo) (he : x.epoch = s.rEpoch)
    (hn : x.num = (s.accepted s.rEpoch).length) {g : Segment Octet} {c : Chan} {l : List (Nat × List Octet)}
    (hc : live sapi c → live sapi s.chan) :
    Net.LinkInv sapi { s with
      chan := c, link := rest, log := l
      accepted := Function.update s.accepted s.rEpoch (s.accepted s.rEpoch ++ [g]) } := by
  have hmem : ∀ y ∈ rest, y ∈ s.link := fun y hy => hx ▸ List.mem_cons_of_mem x hy
  have hxi := (h.items x (by simp [hx])).info hi
  have hord := h.order
  rw [hx, List.pairwise_cons] at hord
  have hne : ∀ e, e ≠ s.rEpoch →
      Function.update s.accepted s.rEpoch (s.accepted s.rEpoch ++ [g]) e = s.accepted e :=
    fun e h' => Function.update_of_ne h' ..
  have heq : (Function.update s.accepted s.rEpoch (s.accepted s.rEpoch ++ [g]) s.rEpoch).length =
      (s.accepted s.rEpoch).length + 1 := by
    rw [Function.update_self, List.length_append, List.length_singleton]
  have hnum := hxi.num
  refine ⟨h.epoch, ?_, fun hop => ?_, fun e h' => ?_, ?_, fun y hy => ?_, hord.2⟩
  · exact (h.after_quiet (l := l) hc).unopened
  · have hee : s.epoch ≠ s.rEpoch := fun hee => by
      have ho := (hxi.current (he.trans hee.symm)).1
      rw [show s.isOpen = false from hop] at ho
      cases ho
    exact ⟨(h.closed hop).1, (hne _ hee).trans (h.closed hop).2⟩
  · exact (hne e (Nat.ne_of_gt h')).trans (h.future e h')
  · simp only
    rcases Nat.eq_or_lt_of_le h.epoch with hee | hlt
    · have hw := h.window
      have hva := (hxi.current (he.trans hee)).2
      rw [← hee] at hw ⊢
      omega
    · rw [hne _ (Nat.ne_of_gt hlt)]
      exact h.window
  · obtain ⟨hye, hyo, hyi⟩ := h.items y (hmem y hy)
    have hb := hord.1 y hy
    refine ⟨hye, fun h' => ⟨(hyo h').1, ?_⟩, fun h' => ?_⟩
    · have hlt := hb.info_opener hi h'
      exact (hne _ (by omega)).trans (hyo h').2
    · obtain ⟨h1, h2, h3, h4, h5, h6⟩ := hyi h'
      refine ⟨h1, ?_, h3, h4, h5, fun hl => h6 (hc hl)⟩
      simp only
      by_cases hee : y.epoch = s.rEpoch
      · have hva := hb.va hi h' (he.trans hee.symm)
        rw [hee] at h2 ⊢
        omega
      · rw [hne _ hee]
        exact h2

/-- The sender gets a message. -/
private theorem Net.LinkInv.after_message (h : s.LinkInv sapi) (chunks : List (List Octet)) :
    Net.LinkInv sapi { s with sent := Function.update s.sent s.epoch (s.sent s.epoch ++ [chunks]) } := by
  refine ⟨h.epoch, h.unopened, h.closed, h.future, h.window, fun x hx => ?_, h.order⟩
  obtain ⟨he, ho, hi⟩ := h.items x hx
  refine ⟨he, fun h' => ⟨(ho h').1, (ho h').2⟩,
    fun h' => ⟨(hi h').1, (hi h').2, (hi h').3, ?_, (hi h').5, (hi h').6⟩⟩
  have hs := (hi h').4
  simp only
  by_cases hee : x.epoch = s.epoch
  · rw [hee] at hs ⊢
    rw [Function.update_self, segments, List.flatMap_append]
    rw [List.getElem?_append_left]
    · exact hs
    · exact (List.getElem?_eq_some_iff.1 hs).1
  · rw [Function.update_of_ne hee]
    exact hs

/-- The sender gets an acknowledgement. -/
private theorem Net.LinkInv.after_ack (h : s.LinkInv sapi) (hopen : s.isOpen) {n : Nat}
    (hn : s.va ≤ n ∧ n ≤ (s.accepted s.epoch).length) : Net.LinkInv sapi { s with va := n } := by
  have hw := h.window
  refine ⟨h.epoch, h.unopened, fun hc => ?_, h.future, ⟨hn.2, by simp only; omega⟩, fun x hx => ?_, h.order⟩
  · rw [hopen] at hc
    cases hc
  · obtain ⟨he, ho, hi⟩ := h.items x hx
    refine ⟨he, fun h' => ⟨(ho h').1, (ho h').2⟩,
      fun h' => ⟨(hi h').1, (hi h').2, (hi h').3, (hi h').4, fun hx' => ⟨hopen, ?_⟩, (hi h').6⟩⟩
    exact Nat.le_trans ((hi h').5 hx').2 hn.1

/-- The sender gets the UA that answers its SABM. -/
private theorem Net.LinkInv.after_ua (h : s.LinkInv sapi) (hopen : s.isOpen = false) (hr : s.rEpoch = s.epoch) :
    Net.LinkInv sapi { s with isOpen := true } := by
  refine ⟨h.epoch, fun hlt => ?_, fun hc => ?_, h.future, h.window, fun x hx => ?_, h.order⟩
  · simp only at hlt
    omega
  · cases hc
  · obtain ⟨he, ho, hi⟩ := h.items x hx
    refine ⟨he, fun h' => ⟨fun _ => ?_, (ho h').2⟩,
      fun h' => ⟨(hi h').1, (hi h').2, (hi h').3, (hi h').4, fun hx' => ?_, (hi h').6⟩⟩
    · exact Nat.le_antisymm he.2 (hr ▸ he.1)
    · have hc := ((hi h').5 hx').1
      rw [hopen] at hc
      cases hc

end

/-! ### The receiver -/

section
variable {ch : ChType} {sapi : Sapi} {c : Chan} {f : Frame}

/-- An accepted frame with a cleared M bit completes a message, whatever its N(R). -/
private theorem indicates_accepted (hu : undisturbed ch sapi c f) (ha : accepts ch sapi c f) :
    indicates ch sapi c f = !f.mBit := by
  simp only [undisturbed, Bool.and_eq_true] at hu
  have hu := hu.2
  unfold indicates
  rw [ha] at hu ⊢
  cases hn : nrFails ch sapi c f && overrules ch sapi with
  | false => simp
  | true =>
    rw [hn] at hu
    simp only [Bool.not_true, if_true, Bool.false_or, Bool.or_eq_true] at hu
    rcases hu with hm | hp
    · simp [hm]
    · simp [hp]

/-- A frame that is not accepted indicates nothing. -/
private theorem indicates_rejected (hu : undisturbed ch sapi c f) (ha : accepts ch sapi c f = false)
    (hi : indicates ch sapi c f) : c.inMsg = none := by
  simp only [undisturbed, Bool.and_eq_true] at hu
  have hu := hu.2
  unfold indicates at hi
  rw [ha] at hu hi
  cases hn : nrFails ch sapi c f && overrules ch sapi with
  | false => simp [hn] at hi
  | true =>
    simp only [hn, if_true] at hi
    simpa [hn, hi] using hu

end

section
variable {sapi : Sapi} {s : Net}

/-- The indications of an event belong to the establishment of the receiver. -/
private theorem indicated_append (l : List (Nat × List Octet)) (r e : Nat) (m : List (List Octet)) :
    ((l ++ m.map fun o => (r, o)).filter fun p => p.1 == e).map Prod.snd =
      (l.filter fun p => p.1 == e).map Prod.snd ++ if e = r then m else [] := by
  rw [List.filter_append, List.map_append]
  congr 1
  split
  · rename_i he
    subst he
    rw [List.filter_eq_self.2 (by simp), List.map_map]
    simp [Function.comp_def]
  · rename_i he
    rw [List.filter_eq_nil_iff.2]
    · rfl
    · intro p hp
      obtain ⟨o, -, rfl⟩ := List.mem_map.1 hp
      simpa using Ne.symm he

private theorem epochs_append {l : List (Nat × List Octet)} {r : Nat} (h : (l.map Prod.fst).Pairwise (· ≤ ·))
    (hr : ∀ p ∈ l, p.1 ≤ r) (m : List (List Octet)) :
    ((l ++ m.map fun o => (r, o)).map Prod.fst).Pairwise (· ≤ ·) ∧
      ∀ p ∈ l ++ m.map fun o => (r, o), p.1 ≤ r := by
  have hm : ∀ p ∈ m.map fun o => (r, o), p.1 = r := fun p hp => by
    obtain ⟨o, -, rfl⟩ := List.mem_map.1 hp
    rfl
  constructor
  · rw [List.map_append, List.pairwise_append]
    refine ⟨h, ?_, fun a ha b hb => ?_⟩
    · rw [List.map_map, List.pairwise_map]
      exact List.pairwise_of_forall fun _ _ => Nat.le_refl r
    · obtain ⟨p, hp, rfl⟩ := List.mem_map.1 ha
      obtain ⟨q, hq, rfl⟩ := List.mem_map.1 hb
      rw [hm q hq]
      exact hr p hp
  · intro p hp
    rcases List.mem_append.1 hp with hp | hp
    · exact hr p hp
    · exact Nat.le_of_eq (hm p hp)

/-- An event that neither opens the link nor transfers a frame. -/
private theorem Net.RecvInv.after_quiet (h : s.RecvInv sapi) {c : Chan} {l : List Item}
    (hq : Quiet sapi s.chan c) : Net.RecvInv sapi { s with chan := c, link := l } :=
  ⟨h.accepted, h.chunks, fun hl => (hq.vr hl).trans (h.vr (hq.alive hl)),
    fun hl => (congrArg (Option.getD · []) (hq.inMsg hl)).trans (h.rest (hq.alive hl)), h.indicated, h.epochs, h.last⟩

/-- The link opens. -/
private theorem Net.RecvInv.after_opening (h : s.RecvInv sapi) {e : Nat} {c : Chan} {l : List Item}
    (he : s.rEpoch ≤ e) (hacc : s.accepted e = []) (hvr : c.cch.vr = 0) (hm : c.inMsg = none) :
    Net.RecvInv sapi { s with chan := c, link := l, rEpoch := e } := by
  refine ⟨h.accepted, h.chunks, fun _ => ?_, fun _ => ?_, h.indicated, h.epochs,
    fun p hp => Nat.le_trans (h.last p hp) he⟩
  · simp [hacc, hvr]
  · simp [hacc, hm]

/-- The next segment of the establishment is accepted; `m` is what the channel indicates. -/
private theorem Net.RecvInv.after_acceptance (h : s.RecvInv sapi) (hl : live sapi s.chan) {g : Segment Octet}
    {c : Chan} {l : List Item} {m : List (List Octet)}
    (hg : (segments (s.sent s.rEpoch))[(s.accepted s.rEpoch).length]? = some g)
    (hvr : c.cch.vr = (s.chan.cch.vr + 1) % 8)
    (hm : c.inMsg = if g.2 then some (s.chan.inMsg.getD [] ++ g.1) else none)
    (hi : m = if g.2 then [] else [s.chan.inMsg.getD [] ++ g.1]) :
    Net.RecvInv sapi { s with
      chan := c
      link := l
      accepted := Function.update s.accepted s.rEpoch (s.accepted s.rEpoch ++ [g])
      log := s.log ++ m.map fun o => (s.rEpoch, o) } := by
  have hrest := h.rest hl
  have htake := reassemble_append_singleton (s.accepted s.rEpoch) g
  have hself : Function.update s.accepted s.rEpoch (s.accepted s.rEpoch ++ [g]) s.rEpoch =
      s.accepted s.rEpoch ++ [g] := Function.update_self ..
  have hep := epochs_append h.epochs h.last m
  refine ⟨fun e => ?_, h.chunks, fun _ => ?_, fun _ => ?_, fun e => ?_, hep.1, hep.2⟩
  · simp only
    by_cases he : e = s.rEpoch
    · rw [he, hself]
      obtain ⟨t, ht⟩ := h.accepted s.rEpoch
      rw [← ht, List.getElem?_append_right (Nat.le_refl _), Nat.sub_self] at hg
      cases t with
      | nil => simp at hg
      | cons a t =>
        simp only [List.getElem?_cons_zero, Option.some.injEq] at hg
        exact ⟨t, by rw [← ht, hg, List.append_assoc, List.singleton_append]⟩
    · rw [Function.update_of_ne he]
      exact h.accepted e
  · simp only
    rw [hself, hvr, h.vr hl, List.length_append, List.length_singleton]
    omega
  · simp only
    rw [hself, htake, hm, hrest]
    unfold Assembly.take
    split <;> rfl
  · have hind := h.indicated e
    unfold Net.indicated at hind ⊢
    simp only
    rw [indicated_append, hind]
    by_cases he : e = s.rEpoch
    · rw [if_pos he, he, hself, htake, hi, hrest]
      unfold Assembly.take
      split
      · simp
      · rfl
    · rw [if_neg he, Function.update_of_ne he, List.append_nil]

/-- The sender and the FIFO do not touch the receiver. -/
private theorem Net.RecvInv.after_sender (h : s.RecvInv sapi) {epoch va : Nat} {isOpen : Bool} {l : List Item} :
    Net.RecvInv sapi { s with epoch := epoch, isOpen := isOpen, va := va, link := l } :=
  ⟨h.accepted, h.chunks, h.vr, h.rest, h.indicated, h.epochs, h.last⟩

/-- The sender gets a message. -/
private theorem Net.RecvInv.after_message (h : s.RecvInv sapi) {chunks : List (List Octet)} (hc : chunks ≠ []) :
    Net.RecvInv sapi { s with sent := Function.update s.sent s.epoch (s.sent s.epoch ++ [chunks]) } := by
  refine ⟨fun e => ?_, fun e m hm => ?_, h.vr, h.rest, h.indicated, h.epochs, h.last⟩
  · simp only
    by_cases he : e = s.epoch
    · rw [he, Function.update_self, segments, List.flatMap_append]
      exact (h.accepted s.epoch).trans (List.prefix_append _ _)
    · rw [Function.update_of_ne he]
      exact h.accepted e
  · simp only at hm
    by_cases he : e = s.epoch
    · rw [he, Function.update_self] at hm
      rcases List.mem_append.1 hm with hm | hm
      · exact h.chunks _ m hm
      · rw [List.mem_singleton] at hm
        exact hm ▸ hc
    · rw [Function.update_of_ne he] at hm
      exact h.chunks e m hm

end

/-! ### Runs -/

/-- What holds in all states of the runs. -/
structure Net.Inv (sapi : Sapi) (s : Net) : Prop where
  link : s.LinkInv sapi
  recv : s.RecvInv sapi

private theorem live_peiInit (sapi : Sapi) : live sapi (peiInit sapi) = false := by
  cases sapi <;> decide

private theorem start_inv (sapi : Sapi) : (Net.start sapi).Inv sapi := by
  have hl : live sapi (Net.start sapi).chan = false := live_peiInit sapi
  refine ⟨⟨Nat.le_refl _, fun h => absurd h (Nat.lt_irrefl _), fun _ => ⟨rfl, rfl⟩, fun _ _ => rfl, ?_, ?_, ?_⟩, ?_⟩
  · exact ⟨Nat.le_refl _, Nat.zero_le _⟩
  · intro x hx
    simp [Net.start] at hx
  · exact List.Pairwise.nil
  · refine ⟨fun e => List.nil_prefix, ?_, fun h => ?_, fun h => ?_, fun e => rfl, List.Pairwise.nil, ?_⟩
    · intro e m hm
      simp [Net.start] at hm
    · rw [hl] at h
      cases h
    · rw [hl] at h
      cases h
    · intro p hp
      simp [Net.start] at hp

section
variable {sapi : Sapi} {s : Net}

private theorem asked_unopened (ha : s.asked) :
    (∀ x ∈ s.link, x.frame.isOpener → x.epoch = (s.begin true).epoch) ∧
      (s.rEpoch < (s.begin true).epoch → live sapi s.chan = false) := by
  simp only [Net.asked, Bool.and_eq_true, beq_iff_eq, List.all_eq_true, Bool.or_eq_true, Bool.not_eq_true',
    bne_iff_ne, ne_eq] at ha
  obtain ⟨⟨hst, hv⟩, hall⟩ := ha
  constructor
  · intro x hx ho
    rcases hall x hx with hn | ⟨hop, he⟩
    · rw [ho] at hn
      cases hn
    · simp [Net.begin, hop, he]
  · intro hr
    rcases hv with hv | ⟨hop, he⟩
    · simp [live, armed, hst, hv, ChState.established]
    · simp [Net.begin, hop, he] at hr

/-- The arrival of a frame. -/
private theorem deliver_inv (h : s.Inv sapi) {x : Item} {rest : List Item} (hx : s.link = x :: rest) {ch : ChType}
    (hu : undisturbed ch sapi s.chan x.frame) :
    (({ s with link := rest }.arrive ch sapi x : Net).handle sapi (.frame ch x.frame)).Inv sapi := by
  have hsub : rest.Sublist s.link := hx ▸ List.sublist_cons_self x rest
  have hxi := h.link.items x (by simp [hx])
  unfold Net.handle Net.arrive
  simp only
  cases ho : opens ch sapi s.chan x.frame with
  | true =>
    have hna : accepts ch sapi s.chan x.frame = false := by
      cases ha : accepts ch sapi s.chan x.frame with
      | false => rfl
      | true =>
        have ht := accepts_transfers ha
        rw [opens_not_transfers ho] at ht
        cases ht
    obtain ⟨-, hvr, hm, hi⟩ := opens_step ho
    have hnone : s.chan.inMsg = none := by
      simp only [undisturbed, ho, Bool.not_true, Bool.false_or, Bool.and_eq_true, Option.isNone_iff_eq_none] at hu
      exact hu.1
    rw [hi, hna]
    simp only [if_true, Bool.false_eq_true, if_false, List.map_nil, List.append_nil]
    exact ⟨h.link.after_opening hx (opens_isOpener ho),
      h.recv.after_opening hxi.epoch.1 (hxi.opener (opens_isOpener ho)).fresh hvr (hm.trans hnone)⟩
  | false =>
    cases ht : transfers ch sapi s.chan x.frame with
    | false =>
      have hna : accepts ch sapi s.chan x.frame = false := by
        cases ha : accepts ch sapi s.chan x.frame with
        | false => rfl
        | true => rw [accepts_transfers ha] at ht; cases ht
      obtain ⟨hq, hi⟩ := frame_quiet ho ht
      rw [hi, hna]
      simp only [Bool.false_eq_true, if_false, List.map_nil, List.append_nil]
      exact ⟨(h.link.after_loss hsub).after_quiet hq.alive, h.recv.after_quiet hq⟩
    | true =>
      obtain ⟨hvr, hm, hi⟩ := transfer_step ht
      have hlive : live sapi s.chan := by
        simp only [transfers, Bool.and_eq_true] at ht
        simp [live, ht.1.2]
      rw [hi]
      cases ha : accepts ch sapi s.chan x.frame with
      | false =>
        rw [ha] at hvr
        have hrec : received ch sapi s.chan x.frame = s.chan.inMsg := by simp [received, ha]
        rw [hrec] at hm ⊢
        have hout : (step sapi (.frame ch x.frame) s.chan).1.inMsg = s.chan.inMsg ∧
            (if indicates ch sapi s.chan x.frame then s.chan.inMsg.toList else []) = [] := by
          rw [hm]
          split
          · rename_i hind
            rw [indicates_rejected hu ha hind]
            exact ⟨rfl, rfl⟩
          · exact ⟨rfl, rfl⟩
        rw [hout.2]
        simp only [Bool.false_eq_true, if_false, List.map_nil, List.append_nil]
        exact ⟨(h.link.after_loss hsub).after_quiet fun _ => hlive,
          h.recv.after_quiet ⟨fun _ => hlive, fun _ => hvr, fun _ => hout.1⟩⟩
      | true =>
        obtain ⟨hinfo, -, hn⟩ := accepts_isInfo ha
        have hxinfo := hxi.info hinfo
        obtain ⟨he, hnum⟩ := hxinfo.num_eq hlive (h.recv.vr hlive) hn
        have hrec : received ch sapi s.chan x.frame = some (s.chan.inMsg.getD [] ++ x.frame.infoField) := by
          simp [received, ha]
        rw [ha] at hvr
        rw [hrec, indicates_accepted hu ha] at hm ⊢
        have hseg := hxinfo.segment
        rw [he, hnum] at hseg
        simp only [Bool.false_eq_true, if_false, if_true]
        refine ⟨h.link.after_acceptance hx hinfo he hnum fun _ => hlive,
          h.recv.after_acceptance hlive hseg hvr ?_ ?_⟩
        · rw [hm]
          cases x.frame.mBit <;> rfl
        · cases x.frame.mBit <;> rfl

private theorem step_inv {e : NetEvent} {t : Net} (h : s.Inv sapi) (hu : s.undisturbed sapi e)
    (hs : s.step sapi e = some t) : t.Inv sapi := by
  cases e with
  | entity e =>
    simp only [Net.step] at hs
    split at hs
    · cases hs
    · rename_i he
      obtain ⟨hq, hi⟩ := event_quiet sapi (by simpa using he) s.chan
      cases hs
      unfold Net.handle
      simp only [hi, List.map_nil, List.append_nil]
      exact ⟨h.link.after_quiet hq.alive, h.recv.after_quiet hq⟩
  | message chunks =>
    simp only [Net.step] at hs
    split at hs
    · cases hs
    · rename_i hc
      cases hs
      exact ⟨h.link.after_message chunks, h.recv.after_message hc⟩
  | sendI n f =>
    simp only [Net.step] at hs
    split at hs
    · rename_i hc
      simp only [Bool.and_eq_true, decide_eq_true_eq] at hc
      cases hs
      have hinfo : f.isInfo := by
        have hf := hc.1.2
        simp only [Net.carries, Bool.and_eq_true] at hf
        exact hf.1.1
      refine ⟨h.link.after_put (fun ho => ?_) fun _ => ⟨hc.1.1, hc.1.2, hc.2⟩, h.recv.after_sender⟩
      rw [info_not_opener hinfo] at ho
      cases ho
    · cases hs
  | sabm f =>
    simp only [Net.step] at hs
    split at hs
    · rename_i hc
      simp only [Bool.and_eq_true] at hc
      cases hs
      obtain ⟨hb, hacc, hlt⟩ := h.link.after_begin false (by simp)
      refine ⟨hb.after_put (fun _ => ⟨hacc, hlt⟩) fun hi => ?_, h.recv.after_sender⟩
      rw [info_not_opener hi] at hc
      cases hc.1
    · cases hs
  | opened =>
    simp only [Net.step] at hs
    split at hs
    · rename_i hc
      simp only [Bool.and_eq_true, Bool.not_eq_true', beq_iff_eq] at hc
      cases hs
      exact ⟨h.link.after_ua hc.1 hc.2, h.recv.after_sender⟩
    · cases hs
  | answer f =>
    simp only [Net.step] at hs
    split at hs
    · rename_i hc
      simp only [Bool.and_eq_true] at hc
      cases hs
      obtain ⟨hb, hacc, hlt⟩ := h.link.after_begin true fun _ => asked_unopened hc.2
      refine ⟨hb.after_put (fun _ => ⟨hacc, hlt⟩) fun hi => ?_, h.recv.after_sender⟩
      rw [info_not_opener hi] at hc
      cases hc.1.1
    · cases hs
  | released f =>
    simp only [Net.step] at hs
    split at hs
    · rename_i hc
      simp only [Bool.and_eq_true] at hc
      cases hs
      obtain ⟨hb, hacc, hlt⟩ := h.link.after_begin false (by simp)
      refine ⟨hb.after_put (fun _ => ⟨hacc, hlt⟩) fun hi => ?_, h.recv.after_sender⟩
      rw [info_not_opener hi] at hc
      cases hc.1.1
    · cases hs
  | other f =>
    simp only [Net.step] at hs
    split at hs
    · cases hs
    · rename_i hc
      simp only [Bool.or_eq_true, not_or] at hc
      cases hs
      exact ⟨h.link.after_put (fun ho => absurd ho hc.2) fun hi => absurd hi hc.1, h.recv.after_sender⟩
  | acknowledged n =>
    simp only [Net.step] at hs
    split at hs
    · rename_i hc
      simp only [Bool.and_eq_true, decide_eq_true_eq] at hc
      cases hs
      exact ⟨h.link.after_ack hc.1 hc.2, h.recv.after_sender⟩
    · cases hs
  | lose k =>
    simp only [Net.step] at hs
    split at hs
    · cases hs
      exact ⟨h.link.after_loss (List.eraseIdx_sublist _ _), h.recv.after_sender⟩
    · cases hs
  | deliver ch =>
    simp only [Net.step] at hs
    split at hs
    · cases hs
    · rename_i x rest hx
      cases hs
      refine deliver_inv h hx ?_
      simpa [Net.undisturbed, hx] using hu

end

/-- An establishment by a message of the MS, on the SDCCH. -/
def reassembly.establishment : List NetEvent :=
  [.entity (.establishReq ⟨.sdcch, .sapi0, 0, [0x05, 0x08], by decide⟩), .entity (.uplink .sdcch false false),
    .answer (comBuildFrame .sdcch uaFrame .sapi0 false 0 0 true 2 false [0x05, 0x08]), .deliver .sdcch]

/-- The first of the two segments of a message. -/
def reassembly.firstSegment : List Octet := List.replicate 20 0xAA

def reassembly.halfMessage : List NetEvent :=
  [.message [reassembly.firstSegment, [0xBB]],
    .sendI 0 (comBuildFrame .sdcch iFrame .sapi0 true 0 0 false 20 true reassembly.firstSegment), .deliver .sdcch]

def reassembly.wholeMessage : List NetEvent :=
  reassembly.establishment ++ reassembly.halfMessage ++
    [.sendI 0 (comBuildFrame .sdcch iFrame .sapi0 true 0 0 false 20 true reassembly.firstSegment), .deliver .sdcch,
      .sendI 1 (comBuildFrame .sdcch iFrame .sapi0 true 1 0 false 1 false [0xBB]), .deliver .sdcch]

/-- The channel is suspended in the middle of a message and resumed. -/
def reassembly.interruption : List NetEvent :=
  reassembly.establishment ++ reassembly.halfMessage ++
    [.entity .suspendReq, .entity (.resumeReq ⟨.sdcch, .sapi0, 0, [], by decide⟩),
      .entity (.uplink .sdcch false false),
      .answer (comBuildFrame .sdcch uaFrame .sapi0 false 0 0 true 0 false []), .deliver .sdcch,
      .message [[0xCC]], .sendI 0 (comBuildFrame .sdcch iFrame .sapi0 true 0 0 false 1 false [0xCC]),
      .deliver .sdcch]

private theorem wholeMessage_run :
    ((reassembly.machine .sapi0).run (Net.undisturbed .sapi0) (Net.start .sapi0) reassembly.wholeMessage).any
      (fun s => decide (s.indicated 0 = [reassembly.firstSegment ++ [0xBB]])) := by
  decide +kernel

private theorem interruption_run :
    ((reassembly.machine .sapi0).run (fun _ _ => true) (Net.start .sapi0) reassembly.interruption).any
      (fun s => decide (s.indicated 1 = [reassembly.firstSegment ++ [0xCC]] ∧
        (s.sent 1).map List.flatten = [[0xCC]])) := by
  decide +kernel

end Citrine.Dl
