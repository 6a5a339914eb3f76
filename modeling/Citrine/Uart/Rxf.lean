import Citrine.Lib.Machine
import Citrine.Uart.Txf

/-!
# Receiving frames

`rx_proc_input` of `uart_rxf.c` in the multiplexer mode: the octets that the driver has received are analysed one by one,
and the information field is written behind what a DLC has received already; the FCS is written there as well and taken
back when the closing flag is found.  The function is left in the middle of a frame when the octets end, and in front of a
control field when the DLC that is addressed has still to be emptied.

`judge` tells from the octets between two flags alone whether they are a frame, and for which DLC.
-/

namespace Citrine.Uart.Rxf

open Txf (change fcsField)

/-- `analyze_state` -/
inductive State where
  | error
  | begun
  | address
  | control
  | information
  | fcs
  | ended
  deriving DecidableEq

/-- `receive_process` -/
inductive Process where
  | stop
  | ready
  | complete
  deriving DecidableEq

/-- What `T_DLC` has for receiving, with the octets and the length of the descriptor. -/
structure Dlc where
  receiveProcess : Process
  buffer : Nat → Octet
  len : Nat
  receivePos : Nat

/-- `T_RX_DATA`, and the DLCs -/
structure Rx where
  analyzeState : State
  storedLen : Nat
  addressField : Octet
  fcs : Octet
  escape : Bool
  dlcInstance : Nat
  dlcTable : Nat → Dlc

/-- `UART_CONTROL_INSTANCE` -/
def controlInstance : Nat := 6

/-- `UART_EMPTY_INSTANCE` -/
def emptyInstance : Nat := 255

/-- The largest size of an information field, and the instance of the channel that has a DLCI; 0 is the control channel's. -/
structure Config where
  n1 : Nat
  dlcInstance : Octet → Nat
  data : ∀ dlci, dlci ≠ 0 → dlcInstance dlci = emptyInstance ∨ dlcInstance dlci < controlInstance

/-- The control fields of control frames: `UART_SABM_FRAME`, `UART_UA_FRAME`, `UART_DM_DATA_FRAME`,
`UART_DM_CONTROL_FRAME`, `UART_DISC_FRAME` and `UART_UIH_CONTROL_FRAME` -/
def controlFrames : List Octet := [0x3f, 0x73, 0x0f, 0x1f, 0x53, 0xff]

/-- The entry of the DLC that is being received. -/
def Rx.dlc (s : Rx) : Dlc := s.dlcTable s.dlcInstance

def Rx.setDlc (s : Rx) (d : Dlc) : Rx := { s with dlcTable := write s.dlcTable s.dlcInstance d }

/-- An octet is stored behind what has been received. -/
def Dlc.store (d : Dlc) (c : Octet) : Dlc :=
  { d with buffer := write d.buffer d.receivePos c, receivePos := d.receivePos + 1 }

/-- What has been stored of a frame is removed. -/
def Rx.remove (s : Rx) : Rx :=
  let pos := if s.dlcInstance = controlInstance then s.dlc.receivePos - 2 else s.dlc.receivePos
  s.setDlc { s.dlc with receivePos := pos - s.storedLen, receiveProcess := .ready }

/-- A new packet begins. -/
def Rx.newPacket (s : Rx) : Rx :=
  { s with storedLen := 0, addressField := 0, fcs := initFcs, escape := false, analyzeState := .address }

/-- The last octet stored was the FCS: it is removed from the data stream. -/
def Rx.takeFcs (s : Rx) (destination : Nat) : Rx :=
  let t := { s with fcs := fcsNext s.fcs (s.dlc.buffer (destination - 1)), storedLen := s.storedLen - 1 }
  t.setDlc { s.dlc with receivePos := s.dlc.receivePos - 1 }

/-- No error occurred, the frame is complete. -/
def Rx.accept (s : Rx) : Rx :=
  { s.setDlc { s.dlc with len := s.dlc.receivePos, receiveProcess := .complete } with analyzeState := .ended }

/-- What has been received is removed because of an error. -/
def Rx.refuse (s : Rx) : Rx :=
  let t := if s.analyzeState = .information ∨ s.analyzeState = .fcs then s.remove else s
  { t with analyzeState := .ended }

/-- A flag; `destination` is the place where the next octet of the information field is stored. -/
def Rx.atFlag (s : Rx) (destination : Nat) : Rx × Nat :=
  match s.analyzeState with
  | .error | .begun => (s.newPacket, destination)
  | _ =>
    if 0 < s.storedLen then
      let (s, destination) :=
        if s.analyzeState ≠ .fcs then (s.takeFcs destination, destination - 1) else (s, destination)
      (if s.fcs = goodFcs then s.accept else s.refuse, destination)
    else (s.refuse, destination)

/-- The control field of a control frame, and whether the channel has still to be emptied. -/
def Rx.controlFrame (s : Rx) (destination : Nat) (c : Octet) : Rx × Nat × Bool :=
  let s := { s with dlcInstance := controlInstance }
  match s.dlc.receiveProcess with
  | .ready =>
    let t := s.setDlc ((s.dlc.store s.addressField).store c)
    ({ t with fcs := fcsNext s.fcs c, analyzeState := .information }, s.dlc.receivePos + 2, false)
  | .complete => (s, destination, true)
  -- the frame is unexpected
  | .stop => ({ s with analyzeState := .error }, destination, false)

/-- The control field, and whether the channel has still to be emptied. -/
def Rx.controlField (cfg : Config) (s : Rx) (destination : Nat) (c : Octet) : Rx × Nat × Bool :=
  if c = uihDataFrame then
    let inst := cfg.dlcInstance (s.addressField >>> 2)
    if s.addressField >>> 2 ≠ 0 ∧ inst ≠ emptyInstance then
      let s := { s with dlcInstance := inst }
      match s.dlc.receiveProcess with
      | .ready => ({ s with fcs := fcsNext s.fcs c, analyzeState := .information }, s.dlc.receivePos, false)
      | .complete => (s, destination, true)
      | .stop => s.controlFrame destination c
    else s.controlFrame destination c
  else if c ∈ controlFrames then s.controlFrame destination c
  else ({ s with analyzeState := .error }, destination, false)

/-- An octet that is neither a flag nor an escape, and whether the channel has still to be emptied. -/
def Rx.atOctet (cfg : Config) (s : Rx) (destination : Nat) (c : Octet) : Rx × Nat × Bool :=
  match s.analyzeState with
  | .address =>
    if c &&& uartEA = uartEA then
      ({ s with fcs := fcsNext s.fcs c, addressField := c, analyzeState := .control }, destination, false)
    else ({ s with analyzeState := .error }, destination, false)
  | .control => s.controlField cfg destination c
  | .information =>
    if s.storedLen < cfg.n1 then
      let t := s.setDlc { s.dlc with buffer := write s.dlc.buffer destination c, receivePos := s.dlc.receivePos + 1 }
      ({ t with storedLen := s.storedLen + 1 }, destination + 1, false)
    else ({ s with fcs := fcsNext s.fcs c, analyzeState := .fcs }, destination, false)
  -- the frame is too long
  | .fcs => ({ s.remove with analyzeState := .error }, destination, false)
  | _ => ({ s with analyzeState := .error }, destination, false)

/-- What becomes of the octet that has been looked at: it is left behind, looked at again, or the channel that is addressed is
complete. -/
inductive Next where
  | advance
  | again
  | complete
  deriving DecidableEq

/-- One round of the loop; the octet is changed where it lies. -/
def Rx.look (cfg : Config) (s : Rx) (destination : Nat) (source : Octet) : Rx × Nat × Octet × Next :=
  let (s, destination, source, complete) :=
    if source = hdlcFlag then
      let (s, destination) := s.atFlag destination
      (s, destination, source, false)
    else if source = hdlcEscape ∧ s.escape = false then ({ s with escape := true }, destination, source, false)
    else
      let source := if s.escape then source ^^^ 0x20 else source
      let (s, destination, complete) := Rx.atOctet cfg { s with escape := false } destination source
      (s, destination, source, complete)
  if s.analyzeState = .ended then ({ s with analyzeState := .begun }, destination, source, .again)
  else if complete then (s, destination, source, .complete)
  else (s, destination, source, .advance)

/-- The rounds of the loop for one octet: the flag that ends a frame is looked at again, and begins the next one. -/
def Rx.octet (cfg : Config) (s : Rx) (destination : Nat) (source : Octet) : Rx × Nat × Octet × Bool :=
  let (s, destination, source, next) := s.look cfg destination source
  if next = .again then
    let (s, destination, source, next) := s.look cfg destination source
    (s, destination, source, decide (next = .complete))
  else (s, destination, source, decide (next = .complete))

/-- The loop for one fragment, and what is not read of it. -/
def Rx.fragment (cfg : Config) (s : Rx) (destination : Nat) : List Octet → Rx × Nat × List Octet × Bool
  | [] => (s, destination, [], false)
  | source :: rest =>
    let (t, destination, source, complete) := s.octet cfg destination source
    if complete then (t, destination, source :: rest, true) else t.fragment cfg destination rest

/-- The loop for all fragments. -/
def Rx.fragments (cfg : Config) (s : Rx) (destination : Nat) : List (List Octet) → Rx × List (List Octet)
  | [] => (s, [])
  | source :: rest =>
    let (t, destination, source, complete) := s.fragment cfg destination source
    if complete then (t, source :: rest)
    else
      let (u, rest) := t.fragments cfg destination rest
      (u, source :: rest)

/-- `rx_proc_input` in the multiplexer mode, when there is permission to read: what is left of the fragments -/
def Rx.procInput (cfg : Config) (s : Rx) (source : List (List Octet)) : Rx × List (List Octet) :=
  s.fragments cfg s.dlc.receivePos source

/-! ### What is received -/

/-- The channel that a frame is for; `live` are the channels that are not stopped. -/
def channel (cfg : Config) (live : Nat → Bool) (a c : Octet) : Option Nat :=
  if c = uihDataFrame ∧ a >>> 2 ≠ 0 ∧ cfg.dlcInstance (a >>> 2) ≠ emptyInstance ∧ live (cfg.dlcInstance (a >>> 2)) then
    some (cfg.dlcInstance (a >>> 2))
  else if (c = uihDataFrame ∨ c ∈ controlFrames) ∧ live controlInstance then some controlInstance
  else none

/-- The fields of a frame that its channel is given in front of the information field. -/
def headerFor (inst : Nat) (a c : Octet) : List Octet := if inst = controlInstance then [a, c] else []

/-- The channel of what has been received between two flags, and what the channel is given, if it is a frame. -/
def judge (cfg : Config) (live : Nat → Bool) : List Octet → Option (Nat × List Octet)
  | a :: c :: x :: rest =>
    if a &&& uartEA = uartEA ∧ rest.length ≤ cfg.n1 ∧ (rest.length = cfg.n1 → 0 < cfg.n1) ∧
        fcsNext (fcsNext (fcsNext initFcs a) c) ((x :: rest).getLast (List.cons_ne_nil _ _)) = goodFcs then
      (channel cfg live a c).map fun inst => (inst, headerFor inst a c ++ (x :: rest).dropLast)
    else none
  | _ => none

/-- The frames that end in a stream of octets. -/
def frames (cfg : Config) (live : Nat → Bool) (s : Stuffing.Scan Octet) (l : List Octet) : List (Nat × List Octet) :=
  (Stuffing.scan hdlcFlag hdlcEscape change s l).2.filterMap (judge cfg live)

/-- What one channel is given. -/
def onChannel (inst : Nat) (l : List (Nat × List Octet)) : List (List Octet) :=
  l.filterMap fun p => if p.1 = inst then some p.2 else none

/-- What has been received for a channel. -/
def Dlc.text (d : Dlc) : List Octet := (List.range d.receivePos).map d.buffer

/-! ### The tables of the DLCs -/

/-- The text of a DLC, whether it is stopped, and the length that its descriptor has when it is complete. -/
structure Dlc.Holds (live : Bool) (d : Dlc) (l : List Octet) : Prop where
  text : d.text = l
  live : live = true ↔ d.receiveProcess ≠ .stop
  len : d.receiveProcess = .complete → d.len = d.receivePos

/-- The texts of all DLCs. -/
def Table (live : Nat → Bool) (s : Rx) (f : Nat → List Octet) : Prop := ∀ i, (s.dlcTable i).Holds (live i) (f i)

section
variable {live : Nat → Bool} {d : Dlc} {l : List Octet} {s : Rx} {f : Nat → List Octet} {c : Octet}

theorem Dlc.length_text : d.text.length = d.receivePos := by
  unfold Dlc.text
  rw [List.length_map, List.length_range]

/-- An octet is stored behind the text. -/
theorem Dlc.text_store (d : Dlc) (c : Octet) : (d.store c).text = d.text ++ [c] := by
  have hfirst :
      (List.range d.receivePos).map (write d.buffer d.receivePos c) = (List.range d.receivePos).map d.buffer := by
    refine List.map_congr_left fun k hk => write_other _ _ ?_
    have := List.mem_range.1 hk
    omega
  unfold Dlc.text Dlc.store
  simp only
  rw [List.range_succ, List.map_append, hfirst, List.map_singleton, write_same]

/-- The text is cut off. -/
theorem Dlc.text_cut (d : Dlc) {n : Nat} (hn : n ≤ d.receivePos) :
    ({ d with receivePos := n } : Dlc).text = d.text.take n := by
  unfold Dlc.text
  simp only
  rw [← List.map_take, List.take_range, Nat.min_eq_left hn]

theorem Dlc.text_last (d : Dlc) (h : d.text = l ++ [c]) : d.buffer (d.receivePos - 1) = c := by
  have hlen := congrArg List.length h
  rw [Dlc.length_text, List.length_append, List.length_singleton] at hlen
  have hget := congrArg (fun t => t[l.length]?) h
  simp only [List.getElem?_concat_length] at hget
  unfold Dlc.text at hget
  rw [List.getElem?_map, List.getElem?_range (by omega), Option.map_some] at hget
  rw [hlen, Nat.add_sub_cancel]
  exact Option.some.inj hget

theorem setDlc_same (d : Dlc) : (s.setDlc d).dlcTable s.dlcInstance = d := write_same ..

theorem setDlc_other (d : Dlc) {i : Nat} (h : i ≠ s.dlcInstance) : (s.setDlc d).dlcTable i = s.dlcTable i :=
  write_other _ _ h

theorem Table.set (h : Table live s f) (hd : d.Holds (live s.dlcInstance) l) :
    Table live (s.setDlc d) (write f s.dlcInstance l) := by
  intro i
  by_cases hi : i = s.dlcInstance
  · rw [hi, setDlc_same, write_same]
    exact hd
  · rw [setDlc_other _ hi, write_other _ _ hi]
    exact h i

end

/-! ### What has been read since the last flag -/

/-- The receiver has read the octets since the last flag, if there has been one; `before` are the texts of the DLCs without
the frame that is being received. -/
inductive Follows (cfg : Config) (live : Nat → Bool) (before : Nat → List Octet) (s : Rx) (destination : Nat) :
    Option (List Octet) → Prop
  | hunting : s.analyzeState = .error ∨ s.analyzeState = .begun → Table live s before →
    Follows cfg live before s destination none
  | address : s.analyzeState = .address → s.storedLen = 0 → s.fcs = initFcs → Table live s before →
    Follows cfg live before s destination (some [])
  | control (a : Octet) : a &&& uartEA = uartEA → s.analyzeState = .control → s.addressField = a → s.storedLen = 0 →
    s.fcs = fcsNext initFcs a → Table live s before → Follows cfg live before s destination (some [a])
  | information (a c : Octet) (rest : List Octet) : a &&& uartEA = uartEA → channel cfg live a c = some s.dlcInstance →
    rest.length ≤ cfg.n1 → s.analyzeState = .information → s.storedLen = rest.length →
    s.fcs = fcsNext (fcsNext initFcs a) c → s.dlc.receiveProcess = .ready → destination = s.dlc.receivePos →
    Table live s (write before s.dlcInstance (before s.dlcInstance ++ (headerFor s.dlcInstance a c ++ rest))) →
    Follows cfg live before s destination (some (a :: c :: rest))
  | fcs (a c x : Octet) (rest : List Octet) : a &&& uartEA = uartEA → channel cfg live a c = some s.dlcInstance →
    rest.length = cfg.n1 → s.analyzeState = .fcs → s.storedLen = rest.length →
    s.fcs = fcsNext (fcsNext (fcsNext initFcs a) c) x → s.dlc.receiveProcess = .ready →
    Table live s (write before s.dlcInstance (before s.dlcInstance ++ (headerFor s.dlcInstance a c ++ rest))) →
    Follows cfg live before s destination (some (a :: c :: (rest ++ [x])))
  | discarded (l : List Octet) : (∀ m, judge cfg live (l ++ m) = none) → s.analyzeState = .error → Table live s before →
    Follows cfg live before s destination (some l)

theorem judge_cons (cfg : Config) (live : Nat → Bool) (a c x : Octet) (rest : List Octet) :
    judge cfg live (a :: c :: x :: rest) =
      if a &&& uartEA = uartEA ∧ rest.length ≤ cfg.n1 ∧ (rest.length = cfg.n1 → 0 < cfg.n1) ∧
          fcsNext (fcsNext (fcsNext initFcs a) c) ((x :: rest).getLast (List.cons_ne_nil _ _)) = goodFcs then
        (channel cfg live a c).map fun inst => (inst, headerFor inst a c ++ (x :: rest).dropLast)
      else none := rfl

theorem judge_snoc (cfg : Config) (live : Nat → Bool) (a c x : Octet) (rest : List Octet) :
    judge cfg live (a :: c :: (rest ++ [x])) =
      if a &&& uartEA = uartEA ∧ rest.length ≤ cfg.n1 ∧ (rest.length = cfg.n1 → 0 < cfg.n1) ∧
          fcsNext (fcsNext (fcsNext initFcs a) c) x = goodFcs then
        (channel cfg live a c).map fun inst => (inst, headerFor inst a c ++ rest)
      else none := by
  cases rest with
  | nil => rfl
  | cons y ys =>
    have hlast : (y :: (ys ++ [x])).getLast (List.cons_ne_nil _ _) = x := by
      simp only [← List.cons_append, List.getLast_concat]
    have hdrop : (y :: (ys ++ [x])).dropLast = y :: ys := by
      rw [← List.cons_append, List.dropLast_concat]
    have hlen : (ys ++ [x]).length = (y :: ys).length := by simp
    rw [List.cons_append, judge_cons, hlast, hdrop, hlen]

section
variable {cfg : Config} {live : Nat → Bool} {before f : Nat → List Octet} {s : Rx} {destination : Nat} {a c x : Octet}
  {rest : List Octet}

/-- What has been stored of a frame is removed. -/
private theorem remove_table
    (h : Table live s (write before s.dlcInstance (before s.dlcInstance ++ (headerFor s.dlcInstance a c ++ rest))))
    (hlen : s.storedLen = rest.length) (hready : s.dlc.receiveProcess = .ready) :
    Table live s.remove before ∧ ∀ i, (s.remove.dlcTable i).receiveProcess = (s.dlcTable i).receiveProcess := by
  have hd := h s.dlcInstance
  rw [write_same] at hd
  have hpos := congrArg List.length hd.text
  rw [Dlc.length_text, List.length_append, List.length_append] at hpos
  have hcut : (if s.dlcInstance = controlInstance then s.dlc.receivePos - 2 else s.dlc.receivePos) - s.storedLen =
      (before s.dlcInstance).length := by
    unfold Rx.dlc
    rw [hpos, hlen]
    unfold headerFor
    split
    · simp only [List.length_cons, List.length_nil]
      omega
    · simp only [List.length_nil]
      omega
  have hholds : Dlc.Holds (live s.dlcInstance)
      { s.dlc with receivePos := (before s.dlcInstance).length, receiveProcess := .ready } (before s.dlcInstance) := by
    refine ⟨?_, hd.live.trans ?_, fun h => absurd (show Process.ready = .complete from h) (by decide)⟩
    · have htext := Dlc.text_cut s.dlc (n := (before s.dlcInstance).length) (by unfold Rx.dlc; omega)
      refine htext.trans ?_
      unfold Rx.dlc
      rw [hd.text, List.take_left' rfl]
    · unfold Rx.dlc at hready
      rw [hready]
  unfold Rx.remove
  simp only
  rw [hcut]
  refine ⟨?_, fun i => ?_⟩
  · have hset := h.set hholds
    rwa [write_write, write_self] at hset
  · by_cases hi : i = s.dlcInstance
    · rw [hi, setDlc_same]
      exact hready.symm
    · rw [setDlc_other _ hi]

private theorem octet_flag_begin (h : s.analyzeState = .error ∨ s.analyzeState = .begun) :
    s.octet cfg destination hdlcFlag = (s.newPacket, destination, hdlcFlag, false) := by
  have hflag : s.atFlag destination = (s.newPacket, destination) := by
    unfold Rx.atFlag
    rcases h with h | h
    · rw [h]
    · rw [h]
  have hlook : s.look cfg destination hdlcFlag = (s.newPacket, destination, hdlcFlag, .advance) := by
    unfold Rx.look
    simp only [if_pos, hflag]
    rfl
  unfold Rx.octet
  rw [hlook]
  rfl

/-- A flag that ends something is the flag that begins the next frame as well. -/
private theorem octet_flag_end {t : Rx} {d : Nat} (h : s.atFlag destination = (t, d)) (ht : t.analyzeState = .ended) :
    s.octet cfg destination hdlcFlag = (t.newPacket, d, hdlcFlag, false) := by
  have hlook : s.look cfg destination hdlcFlag = ({ t with analyzeState := .begun }, d, hdlcFlag, .again) := by
    unfold Rx.look
    simp only [if_pos, h, ht]
  have hagain : ({ t with analyzeState := .begun } : Rx).look cfg d hdlcFlag = (t.newPacket, d, hdlcFlag, .advance) := rfl
  unfold Rx.octet
  rw [hlook]
  simp only [if_pos, hagain]
  rfl

end

/-! ### What one octet does -/

/-- What the channels are given by some frames: a channel that is given something becomes complete by it. -/
def Gives (before : Nat → List Octet) (s : Rx) (given : List (Nat × List Octet)) (before' : Nat → List Octet) (t : Rx) :
    Prop :=
  ∀ i, (onChannel i given = [] ∧ before' i = before i ∧ (t.dlcTable i).receiveProcess = (s.dlcTable i).receiveProcess) ∨
    ∃ l, onChannel i given = [l] ∧ before' i = before i ++ l ∧ (s.dlcTable i).receiveProcess = .ready ∧
      (t.dlcTable i).receiveProcess = .complete

section
variable {cfg : Config} {live : Nat → Bool} {before before' before'' : Nat → List Octet} {s t u : Rx} {destination : Nat}
  {given given' : List (Nat × List Octet)} {content : Option (List Octet)} {a c x : Octet} {rest : List Octet}

theorem onChannel_append (i : Nat) (k l : List (Nat × List Octet)) :
    onChannel i (k ++ l) = onChannel i k ++ onChannel i l :=
  List.filterMap_append

theorem Gives.nothing (h : ∀ i, (t.dlcTable i).receiveProcess = (s.dlcTable i).receiveProcess) :
    Gives before s [] before t :=
  fun i => .inl ⟨rfl, rfl, h i⟩

theorem Gives.one {inst : Nat} {l : List Octet} (hready : (s.dlcTable inst).receiveProcess = .ready)
    (hcomplete : (t.dlcTable inst).receiveProcess = .complete)
    (hother : ∀ i, i ≠ inst → (t.dlcTable i).receiveProcess = (s.dlcTable i).receiveProcess) :
    Gives before s [(inst, l)] (write before inst (before inst ++ l)) t := by
  intro i
  by_cases hi : i = inst
  · rw [hi]
    refine .inr ⟨l, ?_, write_same .., hready, hcomplete⟩
    unfold onChannel
    simp
  · refine .inl ⟨?_, write_other _ _ hi, hother i hi⟩
    unfold onChannel
    simp [Ne.symm hi]

theorem Gives.trans (h : Gives before s given before' t) (h' : Gives before' t given' before'' u) :
    Gives before s (given ++ given') before'' u := by
  intro i
  rw [onChannel_append]
  rcases h i with ⟨h1, h2, h3⟩ | ⟨l, h1, h2, h3, h4⟩ <;> rcases h' i with ⟨h5, h6, h7⟩ | ⟨l', h5, h6, h7, h8⟩
  · exact .inl ⟨by rw [h1, h5, List.append_nil], h6.trans h2, h7.trans h3⟩
  · exact .inr ⟨l', by rw [h1, h5, List.nil_append], by rw [h6, h2], h3.symm.trans h7, h8⟩
  · exact .inr ⟨l, by rw [h1, h5, List.append_nil], h6.trans h2, h3, h7.trans h4⟩
  · rw [h4] at h7
    cases h7

private theorem Follows.opened (h : Table live s before) : Follows cfg live before s.newPacket destination (some []) :=
  .address rfl rfl rfl h

/-- A frame that is complete. -/
private theorem accept_gives (hready : s.dlc.receiveProcess = .ready)
    (h : Table live s (write before s.dlcInstance (before s.dlcInstance ++ (headerFor s.dlcInstance a c ++ rest)))) :
    Table live s.accept (write before s.dlcInstance (before s.dlcInstance ++ (headerFor s.dlcInstance a c ++ rest))) ∧
      Gives before s [(s.dlcInstance, headerFor s.dlcInstance a c ++ rest)]
        (write before s.dlcInstance (before s.dlcInstance ++ (headerFor s.dlcInstance a c ++ rest))) s.accept := by
  have hd := h s.dlcInstance
  rw [write_same] at hd
  have hready' : (s.dlcTable s.dlcInstance).receiveProcess = .ready := hready
  have hholds : Dlc.Holds (live s.dlcInstance) { s.dlc with len := s.dlc.receivePos, receiveProcess := .complete }
      (before s.dlcInstance ++ (headerFor s.dlcInstance a c ++ rest)) := by
    refine ⟨hd.text, hd.live.trans ?_, fun _ => rfl⟩
    rw [hready']
    exact (by decide : Process.ready ≠ .stop ↔ Process.complete ≠ .stop)
  refine ⟨?_, Gives.one hready ?_ fun i hi => ?_⟩
  · have hset := h.set hholds
    rwa [write_write] at hset
  · exact congrArg Dlc.receiveProcess (setDlc_same _)
  · exact congrArg Dlc.receiveProcess (setDlc_other _ hi)

/-- The FCS has been stored behind the information field. -/
private theorem takeFcs_table (hready : s.dlc.receiveProcess = .ready) (hdest : destination = s.dlc.receivePos)
    (hlen : s.storedLen = (rest ++ [x]).length)
    (h : Table live s
      (write before s.dlcInstance (before s.dlcInstance ++ (headerFor s.dlcInstance a c ++ (rest ++ [x]))))) :
    Table live (s.takeFcs destination)
        (write before s.dlcInstance (before s.dlcInstance ++ (headerFor s.dlcInstance a c ++ rest))) ∧
      (s.takeFcs destination).storedLen = rest.length ∧ (s.takeFcs destination).fcs = fcsNext s.fcs x ∧
      ∀ i, ((s.takeFcs destination).dlcTable i).receiveProcess = (s.dlcTable i).receiveProcess := by
  have hd := h s.dlcInstance
  rw [write_same, ← List.append_assoc, ← List.append_assoc] at hd
  have hlast : s.dlc.buffer (destination - 1) = x := by
    rw [hdest]
    exact Dlc.text_last _ hd.text
  have hpos := congrArg List.length hd.text
  rw [Dlc.length_text, List.length_append, List.length_singleton] at hpos
  have hholds : Dlc.Holds (live s.dlcInstance) { s.dlc with receivePos := s.dlc.receivePos - 1 }
      (before s.dlcInstance ++ (headerFor s.dlcInstance a c ++ rest)) := by
    refine ⟨?_, hd.live, fun hcomplete => absurd (hready.symm.trans hcomplete) (by decide)⟩
    refine (Dlc.text_cut s.dlc (Nat.sub_le _ 1)).trans ?_
    unfold Rx.dlc
    rw [hd.text, hpos, Nat.add_sub_cancel, List.take_left' rfl, List.append_assoc]
  refine ⟨?_, ?_, ?_, fun i => ?_⟩
  · have hset := h.set hholds
    rwa [write_write] at hset
  · rw [List.length_append, List.length_singleton] at hlen
    exact Nat.sub_eq_of_eq_add hlen
  · exact congrArg (fcsNext s.fcs) hlast
  · by_cases hi : i = s.dlcInstance
    · rw [hi]
      exact (congrArg Dlc.receiveProcess (setDlc_same { s.dlc with receivePos := s.dlc.receivePos - 1 })).trans rfl
    · exact congrArg Dlc.receiveProcess (setDlc_other _ hi)

private theorem refuse_eq (hs : s.analyzeState = .information ∨ s.analyzeState = .fcs) :
    s.refuse = { s.remove with analyzeState := .ended } := by
  unfold Rx.refuse
  simp only
  rw [if_pos hs]

/-- The end of a frame whose FCS has been taken into account. -/
private theorem closing (hs : s.analyzeState = .information ∨ s.analyzeState = .fcs)
    (hready : s.dlc.receiveProcess = .ready) (hlen : s.storedLen = rest.length)
    (h : Table live s (write before s.dlcInstance (before s.dlcInstance ++ (headerFor s.dlcInstance a c ++ rest))))
    (good : Prop) [Decidable good] :
    (if good then s.accept else s.refuse).analyzeState = .ended ∧
    ∃ before', Table live (if good then s.accept else s.refuse) before' ∧
      Gives before s (if good then [(s.dlcInstance, headerFor s.dlcInstance a c ++ rest)] else []) before'
        (if good then s.accept else s.refuse) := by
  by_cases hg : good
  · simp only [if_pos hg]
    exact ⟨rfl, _, accept_gives hready h⟩
  · simp only [if_neg hg]
    rw [refuse_eq hs]
    obtain ⟨hT, hp⟩ := remove_table h hlen hready
    exact ⟨rfl, before, hT, .nothing hp⟩

/-- A flag ends what is being received, and begins a frame. -/
theorem flag_step (h : Follows cfg live before s destination content) :
    ∃ t d before', s.octet cfg destination hdlcFlag = (t, d, hdlcFlag, false) ∧ t.escape = false ∧
      Follows cfg live before' t d (some []) ∧ Gives before s ((content.bind (judge cfg live)).toList) before' t := by
  cases h with
  | hunting hs hT => exact ⟨_, _, _, octet_flag_begin hs, rfl, .opened hT, .nothing fun _ => rfl⟩
  | address hs hlen hfcs hT =>
    refine ⟨_, _, before, octet_flag_end (t := { s with analyzeState := .ended }) (d := destination) ?_ rfl, rfl,
      .opened hT, .nothing fun _ => rfl⟩
    unfold Rx.atFlag Rx.refuse
    rw [hs]
    simp [hlen]
  | control a ha hs haddr hlen hfcs hT =>
    refine ⟨_, _, before, octet_flag_end (t := { s with analyzeState := .ended }) (d := destination) ?_ rfl, rfl,
      .opened hT, .nothing fun _ => rfl⟩
    unfold Rx.atFlag Rx.refuse
    rw [hs]
    simp [hlen]
  | information a c rest ha hchan hle hs hlen hfcs hready hdest hT =>
    rcases List.eq_nil_or_concat rest with hrest | ⟨info, x, hrest⟩
    · obtain ⟨hT', hp⟩ := remove_table hT hlen hready
      refine ⟨_, _, before, octet_flag_end (t := { s.remove with analyzeState := .ended }) (d := destination) ?_ rfl, rfl,
        .opened hT', ?_⟩
      · unfold Rx.atFlag
        rw [hs, hlen, hrest, ← refuse_eq (.inl hs)]
        rfl
      · rw [hrest]
        exact .nothing hp
    · rw [List.concat_eq_append] at hrest
      subst hrest
      obtain ⟨hT', hlen', hfcs', hp⟩ := takeFcs_table hready hdest hlen hT
      have hready' : (s.takeFcs destination).dlc.receiveProcess = .ready := (hp _).trans hready
      obtain ⟨hended, before', hB, hG⟩ :=
        closing (s := s.takeFcs destination) (.inl hs) hready' hlen' hT' ((s.takeFcs destination).fcs = goodFcs)
      refine ⟨_, _, before', octet_flag_end (d := destination - 1) ?_ hended, rfl, .opened hB, ?_⟩
      · unfold Rx.atFlag
        rw [hs]
        simp only
        rw [if_pos (by rw [hlen, List.length_append, List.length_singleton]; omega),
          if_pos (show State.information ≠ .fcs by decide)]
      · rw [List.length_append, List.length_singleton] at hle
        have hjudge : judge cfg live (a :: c :: (info ++ [x])) =
            if (s.takeFcs destination).fcs = goodFcs then some (s.dlcInstance, headerFor s.dlcInstance a c ++ info)
            else none := by
          rw [judge_snoc, hchan, hfcs', hfcs]
          exact if_congr ⟨fun h => h.2.2.2, fun h => ⟨ha, by omega, by omega, h⟩⟩ rfl rfl
        have hgives := (Gives.nothing hp).trans hG
        rw [Option.bind_some, hjudge]
        split
        · rename_i hg
          simp only [if_pos hg] at hgives ⊢
          exact hgives
        · rename_i hg
          simp only [if_neg hg] at hgives ⊢
          exact hgives
  | fcs a c x rest ha hchan hle hs hlen hfcs hready hT =>
    have hjudge : judge cfg live (a :: c :: (rest ++ [x])) =
        if 0 < s.storedLen ∧ s.fcs = goodFcs then some (s.dlcInstance, headerFor s.dlcInstance a c ++ rest) else none := by
      rw [judge_snoc, hchan, hfcs]
      exact if_congr ⟨fun h => ⟨by have := h.2.2.1 hle; omega, h.2.2.2⟩, fun h => ⟨ha, by omega, by omega, h.2⟩⟩ rfl rfl
    obtain ⟨hended, before', hB, hG⟩ := closing (.inr hs) hready hlen hT (0 < s.storedLen ∧ s.fcs = goodFcs)
    refine ⟨_, _, before', octet_flag_end (d := destination) ?_ hended, rfl, .opened hB, ?_⟩
    · unfold Rx.atFlag
      rw [hs]
      simp only
      by_cases hstored : 0 < s.storedLen
      · rw [if_pos hstored, if_neg (show ¬State.fcs ≠ .fcs by decide)]
        simp only [hstored, true_and]
      · rw [if_neg hstored, if_neg fun h => hstored h.1]
    · rw [Option.bind_some, hjudge]
      split
      · rename_i hg
        simp only [if_pos hg] at hG ⊢
        exact hG
      · rename_i hg
        simp only [if_neg hg] at hG ⊢
        exact hG
  | discarded l hl hs hT =>
    refine ⟨_, _, before, octet_flag_begin (.inl hs), rfl, .opened hT, ?_⟩
    have hnone := hl []
    rw [List.append_nil] at hnone
    rw [Option.bind_some, hnone]
    exact .nothing fun _ => rfl

end

section
variable {cfg : Config} {live : Nat → Bool} {before before' before'' : Nat → List Octet} {s t u : Rx} {destination : Nat}
  {content : Option (List Octet)} {a c v : Octet} {rest : List Octet}

theorem judge_address (h : ¬a &&& uartEA = uartEA) (m : List Octet) : judge cfg live (a :: m) = none := by
  rcases m with - | ⟨c, - | ⟨x, m⟩⟩
  · rfl
  · rfl
  · exact if_neg fun hc => h hc.1

theorem judge_channel (h : channel cfg live a c = none) (m : List Octet) : judge cfg live (a :: c :: m) = none := by
  cases m with
  | nil => rfl
  | cons x m =>
    rw [judge_cons, h]
    exact ite_self _

theorem judge_long (h : cfg.n1 + 1 < rest.length) : judge cfg live (a :: c :: rest) = none := by
  cases rest with
  | nil => rfl
  | cons x m =>
    refine if_neg fun hc => ?_
    have := hc.2.1
    rw [List.length_cons] at h
    omega

theorem Follows.ne_ended (h : Follows cfg live before s destination content) : s.analyzeState ≠ .ended := by
  cases h with
  | hunting hs hT => rcases hs with hs | hs <;> rw [hs] <;> decide
  | address hs hlen hfcs hT => rw [hs]; decide
  | control a ha hs haddr hlen hfcs hT => rw [hs]; decide
  | information a c rest ha hchan hle hs hlen hfcs hready hdest hT => rw [hs]; decide
  | fcs a c x rest ha hchan hle hs hlen hfcs hready hT => rw [hs]; decide
  | discarded l hl hs hT => rw [hs]; decide

theorem Follows.escape (h : Follows cfg live before s destination content) (b : Bool) :
    Follows cfg live before { s with escape := b } destination content := by
  cases h with
  | hunting hs hT => exact .hunting hs hT
  | address hs hlen hfcs hT => exact .address hs hlen hfcs hT
  | control a ha hs haddr hlen hfcs hT => exact .control a ha hs haddr hlen hfcs hT
  | information a c rest ha hchan hle hs hlen hfcs hready hdest hT =>
    exact .information a c rest ha hchan hle hs hlen hfcs hready hdest hT
  | fcs a c x rest ha hchan hle hs hlen hfcs hready hT => exact .fcs a c x rest ha hchan hle hs hlen hfcs hready hT
  | discarded l hl hs hT => exact .discarded l hl hs hT

/-- What an octet does that is neither a flag nor an escape. -/
def Taken (cfg : Config) (live : Nat → Bool) (before : Nat → List Octet) (s : Rx) (content : Option (List Octet))
    (v : Octet) (r : Rx × Nat × Bool) : Prop :=
  r.1.escape = s.escape ∧ (∀ i, (r.1.dlcTable i).receiveProcess = (s.dlcTable i).receiveProcess) ∧
    Follows cfg live before r.1 r.2.1 (if r.2.2 then content else content.map (· ++ [v])) ∧
    (r.2.2 = true → r.1.dlc.receiveProcess = .complete ∧ v ≠ hdlcFlag ∧ v ≠ hdlcEscape)

private theorem controlFrame_step (ha : a &&& uartEA = uartEA) (hs : s.analyzeState = .control)
    (haddr : s.addressField = a) (hlen : s.storedLen = 0) (hfcs : s.fcs = fcsNext initFcs a) (hT : Table live s before)
    (hchan : channel cfg live a v = if live controlInstance then some controlInstance else none)
    (hv : v ≠ hdlcFlag ∧ v ≠ hdlcEscape) : Taken cfg live before s (some [a]) v (s.controlFrame destination v) := by
  have hd := hT controlInstance
  unfold Rx.controlFrame Rx.dlc
  simp only
  split
  · rename_i hready
    have hlive : live controlInstance = true := hd.live.2 (by rw [hready]; decide)
    rw [if_pos hlive] at hchan
    refine ⟨rfl, fun i => ?_, ?_, fun h => absurd h Bool.false_ne_true⟩
    · by_cases hi : i = controlInstance
      · rw [hi]
        exact (congrArg Dlc.receiveProcess (write_same ..)).trans rfl
      · exact congrArg Dlc.receiveProcess (write_other _ _ hi)
    · have hholds : Dlc.Holds (live controlInstance) (((s.dlcTable controlInstance).store s.addressField).store v)
          (before controlInstance ++ (headerFor controlInstance a v ++ [])) := by
        refine ⟨?_, hd.live, fun h => absurd (hready.symm.trans h) (by decide)⟩
        rw [Dlc.text_store, Dlc.text_store, hd.text, haddr, List.append_assoc]
        rfl
      have hset := Table.set (s := { s with dlcInstance := controlInstance }) hT hholds
      have hsame := setDlc_same (s := { s with dlcInstance := controlInstance })
        (((s.dlcTable controlInstance).store s.addressField).store v)
      exact .information a v [] ha hchan (Nat.zero_le _) rfl hlen (congrArg (fcsNext · v) hfcs)
        ((congrArg Dlc.receiveProcess hsame).trans hready) (congrArg Dlc.receivePos hsame).symm hset
  · rename_i hcomplete
    exact ⟨rfl, fun i => rfl, .control a ha hs haddr hlen hfcs hT, fun _ => ⟨hcomplete, hv⟩⟩
  · rename_i hstop
    have hlive : ¬live controlInstance = true := fun h => hd.live.1 h hstop
    rw [if_neg hlive] at hchan
    exact ⟨rfl, fun i => rfl, .discarded _ (judge_channel hchan) rfl hT, fun h => absurd h Bool.false_ne_true⟩

private theorem controlField_step (ha : a &&& uartEA = uartEA) (hs : s.analyzeState = .control)
    (haddr : s.addressField = a) (hlen : s.storedLen = 0) (hfcs : s.fcs = fcsNext initFcs a) (hT : Table live s before) :
    Taken cfg live before s (some [a]) v (s.controlField cfg destination v) := by
  subst haddr
  unfold Rx.controlField
  simp only
  split
  · rename_i hv
    have hv' : v ≠ hdlcFlag ∧ v ≠ hdlcEscape := by
      rw [hv]
      decide
    split
    · rename_i hinst
      have hd := hT (cfg.dlcInstance (s.addressField >>> 2))
      have hne : cfg.dlcInstance (s.addressField >>> 2) ≠ controlInstance := by
        rcases cfg.data (s.addressField >>> 2) hinst.1 with h | h
        · exact absurd h hinst.2
        · exact Nat.ne_of_lt h
      unfold Rx.dlc
      simp only
      split
      · rename_i hready
        have hlive : live (cfg.dlcInstance (s.addressField >>> 2)) = true := hd.live.2 (by rw [hready]; decide)
        have hchan : channel cfg live s.addressField v = some (cfg.dlcInstance (s.addressField >>> 2)) :=
          if_pos ⟨hv, hinst.1, hinst.2, hlive⟩
        have hheader (l : List Octet) :
            l ++ (headerFor (cfg.dlcInstance (s.addressField >>> 2)) s.addressField v ++ []) = l := by
          unfold headerFor
          rw [if_neg hne, List.append_nil, List.append_nil]
        refine ⟨rfl, fun i => rfl, .information _ v [] ha hchan (Nat.zero_le _) rfl hlen (congrArg (fcsNext · v) hfcs)
          hready rfl ?_, fun h => absurd h Bool.false_ne_true⟩
        simp only
        rw [hheader, write_self]
        exact hT
      · rename_i hcomplete
        exact ⟨rfl, fun i => rfl, .control _ ha hs rfl hlen hfcs hT, fun _ => ⟨hcomplete, hv'⟩⟩
      · rename_i hstop
        have hlive : ¬live (cfg.dlcInstance (s.addressField >>> 2)) = true := fun h => hd.live.1 h hstop
        refine controlFrame_step (s := { s with dlcInstance := cfg.dlcInstance (s.addressField >>> 2) }) ha hs rfl hlen hfcs
          hT ?_ hv'
        unfold channel
        rw [if_neg fun h => hlive h.2.2.2]
        simp only [hv, true_or, true_and]
    · rename_i hinst
      refine controlFrame_step ha hs rfl hlen hfcs hT ?_ hv'
      unfold channel
      rw [if_neg fun h => hinst ⟨h.2.1, h.2.2.1⟩]
      simp only [hv, true_or, true_and]
  · rename_i hv
    split
    · rename_i hmem
      have hv' : v ≠ hdlcFlag ∧ v ≠ hdlcEscape := by
        constructor <;> rintro rfl <;> revert hmem <;> decide
      refine controlFrame_step ha hs rfl hlen hfcs hT ?_ hv'
      unfold channel
      rw [if_neg fun h => hv h.1]
      simp only [hmem, or_true, true_and]
    · rename_i hmem
      have hchan : channel cfg live s.addressField v = none := by
        unfold channel
        rw [if_neg fun h => hv h.1, if_neg fun h => h.1.elim hv hmem]
      exact ⟨rfl, fun i => rfl, .discarded _ (judge_channel hchan) rfl hT, fun h => absurd h Bool.false_ne_true⟩

/-- One octet that is neither a flag nor an escape. -/
theorem value_step (h : Follows cfg live before s destination content) (v : Octet) :
    Taken cfg live before s content v (s.atOctet cfg destination v) := by
  unfold Rx.atOctet
  cases h with
  | hunting hs hT =>
    have herror : Taken cfg live before s none v ({ s with analyzeState := .error }, destination, false) :=
      ⟨rfl, fun i => rfl, .hunting (.inl rfl) hT, fun h => absurd h Bool.false_ne_true⟩
    rcases hs with hs | hs
    · rw [hs]
      exact herror
    · rw [hs]
      exact herror
  | address hs hlen hfcs hT =>
    rw [hs]
    simp only
    split
    · rename_i hv
      exact ⟨rfl, fun i => rfl, .control v hv rfl rfl hlen (congrArg (fcsNext · v) hfcs) hT,
        fun h => absurd h Bool.false_ne_true⟩
    · rename_i hv
      exact ⟨rfl, fun i => rfl, .discarded _ (judge_address hv) rfl hT, fun h => absurd h Bool.false_ne_true⟩
  | control a ha hs haddr hlen hfcs hT =>
    rw [hs]
    exact controlField_step ha hs haddr hlen hfcs hT
  | information a c rest ha hchan hle hs hlen hfcs hready hdest hT =>
    rw [hs]
    simp only
    have hd := hT s.dlcInstance
    rw [write_same] at hd
    split
    · rename_i hroom
      have hholds : Dlc.Holds (live s.dlcInstance)
          { s.dlc with buffer := write s.dlc.buffer destination v, receivePos := s.dlc.receivePos + 1 }
          (before s.dlcInstance ++ (headerFor s.dlcInstance a c ++ (rest ++ [v]))) := by
        refine ⟨?_, hd.live, fun h => absurd (hready.symm.trans h) (by decide)⟩
        rw [hdest]
        refine (Dlc.text_store s.dlc v).trans ?_
        unfold Rx.dlc
        rw [hd.text, List.append_assoc, List.append_assoc]
      have hset := hT.set hholds
      rw [write_write] at hset
      have hsame := setDlc_same (s := s)
        { s.dlc with buffer := write s.dlc.buffer destination v, receivePos := s.dlc.receivePos + 1 }
      refine ⟨rfl, fun i => ?_, .information a c (rest ++ [v]) ha hchan ?_ hs ?_ hfcs ?_ ?_ hset,
        fun h => absurd h Bool.false_ne_true⟩
      · by_cases hi : i = s.dlcInstance
        · rw [hi]
          exact (congrArg Dlc.receiveProcess hsame).trans rfl
        · exact congrArg Dlc.receiveProcess (setDlc_other _ hi)
      · rw [List.length_append, List.length_singleton]
        omega
      · rw [List.length_append, List.length_singleton]
        exact congrArg (· + 1) hlen
      · exact (congrArg Dlc.receiveProcess hsame).trans hready
      · exact (congrArg (· + 1) hdest).trans (congrArg Dlc.receivePos hsame).symm
    · rename_i hroom
      exact ⟨rfl, fun i => rfl, .fcs a c v rest ha hchan (by omega) rfl hlen (congrArg (fcsNext · v) hfcs) hready hT,
        fun h => absurd h Bool.false_ne_true⟩
  | fcs a c x rest ha hchan hle hs hlen hfcs hready hT =>
    rw [hs]
    obtain ⟨hT', hp⟩ := remove_table hT hlen hready
    refine ⟨rfl, hp, .discarded _ (fun m => ?_) rfl hT', fun h => absurd h Bool.false_ne_true⟩
    change judge cfg live (a :: c :: (rest ++ [x] ++ [v] ++ m)) = none
    refine judge_long ?_
    simp only [List.length_append, List.length_singleton]
    omega
  | discarded l hl hs hT =>
    rw [hs]
    refine ⟨rfl, fun i => rfl, .discarded _ (fun m => ?_) rfl hT, fun h => absurd h Bool.false_ne_true⟩
    rw [List.append_assoc]
    exact hl _

end

/-! ### What a call does -/

section
variable {cfg : Config} {live : Nat → Bool} {before before' : Nat → List Octet} {s t : Rx} {destination : Nat}
  {sc : Stuffing.Scan Octet}

/-- The reader of stuffed texts that the receiver is. -/
abbrev next (sc : Stuffing.Scan Octet) (c : Octet) : Stuffing.Scan Octet × Option (List Octet) :=
  sc.next hdlcFlag hdlcEscape change c

theorem frames_nil : frames cfg live sc [] = [] := rfl

theorem frames_cons (c : Octet) (l : List Octet) :
    frames cfg live sc (c :: l) = ((next sc c).2.bind (judge cfg live)).toList ++ frames cfg live (next sc c).1 l := by
  unfold frames
  rw [Stuffing.scan_cons, List.filterMap_append]
  congr 1
  cases (next sc c).2 with
  | none => rfl
  | some t =>
    change [t].filterMap (judge cfg live) = (judge cfg live t).toList
    cases hj : judge cfg live t <;> simp [hj]

private theorem octet_value {source : Octet} (hflag : source ≠ hdlcFlag) (hesc : ¬(source = hdlcEscape ∧ s.escape = false))
    {r : Rx × Nat × Bool}
    (hr : Rx.atOctet cfg { s with escape := false } destination (if s.escape then change source else source) = r)
    (hended : r.1.analyzeState ≠ .ended) :
    s.octet cfg destination source = (r.1, r.2.1, if s.escape then change source else source, r.2.2) := by
  have hlook : s.look cfg destination source =
      (r.1, r.2.1, if s.escape then change source else source, if r.2.2 then .complete else .advance) := by
    unfold Rx.look
    unfold change at hr ⊢
    simp only
    rw [if_neg hflag, if_neg hesc, hr]
    simp only
    rw [if_neg hended]
    cases r.2.2 <;> rfl
  unfold Rx.octet
  rw [hlook]
  cases r.2.2 <;> rfl

/-- One octet is read like by the reader, or left because its channel has still to be emptied; then it stays as it would be
read again. -/
theorem octet_step (h : Follows cfg live before s destination sc.content) (hp : s.escape = sc.pending) (source : Octet) :
    (∃ t d c before', s.octet cfg destination source = (t, d, c, false) ∧ t.escape = (next sc source).1.pending ∧
      Follows cfg live before' t d (next sc source).1.content ∧
      Gives before s ((next sc source).2.bind (judge cfg live)).toList before' t) ∨
    (∃ t d c, s.octet cfg destination source = (t, d, c, true) ∧ t.escape = false ∧
      Follows cfg live before t d sc.content ∧ Gives before s [] before t ∧ t.dlc.receiveProcess = .complete ∧
      next ⟨sc.content, false⟩ c = next sc source) := by
  by_cases hflag : source = hdlcFlag
  · obtain ⟨t, d, before', hstep, hescape, hF, hG⟩ := flag_step h
    subst hflag
    exact .inl ⟨t, d, _, before', hstep, by rw [hescape, next, Stuffing.next_flag], by rwa [next, Stuffing.next_flag],
      by rwa [next, Stuffing.next_flag]⟩
  by_cases hesc : source = hdlcEscape ∧ s.escape = false
  · have hlook : s.look cfg destination source = ({ s with escape := true }, destination, source, .advance) := by
      unfold Rx.look
      simp only
      rw [if_neg hflag, if_pos hesc]
      simp only
      rw [if_neg h.ne_ended]
      rfl
    have hstep : s.octet cfg destination source = ({ s with escape := true }, destination, source, false) := by
      unfold Rx.octet
      rw [hlook]
      rfl
    have hnext : next sc source = (⟨sc.content, true⟩, none) := by
      rw [next, hesc.1]
      exact Stuffing.next_escape (by decide) (hp.symm.trans hesc.2)
    refine .inl ⟨_, _, _, before, hstep, ?_, ?_, ?_⟩
    · rw [hnext]
    · rw [hnext]
      exact h.escape true
    · rw [hnext]
      exact .nothing fun _ => rfl
  · have hesc' : source = hdlcEscape → s.escape = true := fun he => by
      by_contra hb
      exact hesc ⟨he, Bool.eq_false_iff.2 hb⟩
    have hnext : next sc source =
        (⟨sc.content.map (· ++ [if sc.pending then change source else source]), false⟩, none) :=
      Stuffing.next_char hflag fun he => hp.symm.trans (hesc' he)
    obtain ⟨hescape, hp', hF, hcomplete⟩ := value_step (h.escape false) (if s.escape then change source else source)
    have hstep := octet_value hflag hesc rfl hF.ne_ended
    cases hblocked : (Rx.atOctet cfg { s with escape := false } destination
        (if s.escape then change source else source)).2.2 with
    | false =>
      rw [hblocked] at hstep hF
      refine .inl ⟨_, _, _, before, hstep, ?_, ?_, ?_⟩
      · rw [hnext]
        exact hescape
      · rw [hnext, ← hp]
        exact hF
      · rw [hnext]
        exact .nothing hp'
    | true =>
      rw [hblocked] at hstep hF
      obtain ⟨hready, hv, hv'⟩ := hcomplete hblocked
      refine .inr ⟨_, _, _, hstep, hescape, hF, .nothing hp', hready, ?_⟩
      rw [hnext, next, Stuffing.next_char hv fun he => absurd he hv', ← hp]
      rfl

/-- Where the next octet is stored is known from the DLC. -/
private theorem Follows.restart {content : Option (List Octet)} (h : Follows cfg live before s destination content) :
    Follows cfg live before s s.dlc.receivePos content := by
  cases h with
  | hunting hs hT => exact .hunting hs hT
  | address hs hlen hfcs hT => exact .address hs hlen hfcs hT
  | control a ha hs haddr hlen hfcs hT => exact .control a ha hs haddr hlen hfcs hT
  | information a c rest ha hchan hle hs hlen hfcs hready hdest hT =>
    exact .information a c rest ha hchan hle hs hlen hfcs hready rfl hT
  | fcs a c x rest ha hchan hle hs hlen hfcs hready hT => exact .fcs a c x rest ha hchan hle hs hlen hfcs hready hT
  | discarded l hl hs hT => exact .discarded l hl hs hT

/-- The octets of a fragment. -/
theorem fragment_step (h : Follows cfg live before s destination sc.content) (hp : s.escape = sc.pending) (l : List Octet) :
    ∃ t d rest complete before' sc' given, s.fragment cfg destination l = (t, d, rest, complete) ∧ t.escape = sc'.pending ∧
      Follows cfg live before' t d sc'.content ∧ Gives before s given before' t ∧
      (∀ m, frames cfg live sc (l ++ m) = given ++ frames cfg live sc' (rest ++ m)) ∧
      (if complete then t.dlc.receiveProcess = .complete else rest = []) := by
  induction l generalizing s destination sc before with
  | nil => exact ⟨s, destination, [], false, before, sc, [], rfl, hp, h, .nothing fun _ => rfl, fun m => rfl, rfl⟩
  | cons source cs ih =>
    rcases octet_step h hp source with ⟨t, d, c, before', hstep, hescape, hF, hG⟩ | ⟨t, d, c, hstep, hescape, hF, hG, hc, hnext⟩
    · obtain ⟨u, d', rest, complete, before'', sc', given, hrest, hescape', hF', hG', hframes, hleft⟩ := ih hF hescape
      refine ⟨u, d', rest, complete, before'', sc', _, ?_, hescape', hF', hG.trans hG', fun m => ?_, hleft⟩
      · unfold Rx.fragment
        simp only [hstep]
        rw [if_neg Bool.false_ne_true, hrest]
      · rw [List.cons_append, frames_cons, hframes, List.append_assoc]
    · refine ⟨t, d, c :: cs, true, before, ⟨sc.content, false⟩, [], ?_, hescape, hF, hG, fun m => ?_, hc⟩
      · unfold Rx.fragment
        simp only [hstep]
        exact if_pos trivial
      · rw [List.cons_append, List.cons_append, frames_cons, frames_cons, hnext]
        rfl

/-- The fragments of a call: the channels are given the frames that end among the octets, until the function stops in front
of one whose channel has still to be emptied. -/
theorem fragments_step (h : Follows cfg live before s destination sc.content) (hp : s.escape = sc.pending)
    (l : List (List Octet)) :
    ∃ t rest before' sc' given, s.fragments cfg destination l = (t, rest) ∧ t.escape = sc'.pending ∧
      Follows cfg live before' t t.dlc.receivePos sc'.content ∧ Gives before s given before' t ∧
      (∀ m, frames cfg live sc (l.flatten ++ m) = given ++ frames cfg live sc' (rest.flatten ++ m)) ∧
      (rest.flatten ≠ [] → t.dlc.receiveProcess = .complete) := by
  induction l generalizing s destination sc before with
  | nil => exact ⟨s, [], before, sc, [], rfl, hp, h.restart, .nothing fun _ => rfl, fun m => rfl, fun hr => absurd rfl hr⟩
  | cons source ls ih =>
    obtain ⟨t, d, rest, complete, before', sc', given, hrest, hescape, hF, hG, hframes, hleft⟩ := fragment_step h hp source
    cases complete with
    | true =>
      refine ⟨t, rest :: ls, before', sc', given, ?_, hescape, hF.restart, hG, fun m => ?_, fun _ => hleft⟩
      · unfold Rx.fragments
        simp only [hrest]
        exact if_pos trivial
      · rw [List.flatten_cons, List.flatten_cons, List.append_assoc, hframes, List.append_assoc]
    | false =>
      obtain ⟨u, rest', before'', sc'', given', hrest', hescape', hF', hG', hframes', hleft'⟩ := ih hF hescape
      have hnil : rest = [] := hleft
      refine ⟨u, rest :: rest', before'', sc'', given ++ given', ?_, hescape', hF', hG.trans hG', fun m => ?_, ?_⟩
      · unfold Rx.fragments
        simp only [hrest]
        rw [if_neg Bool.false_ne_true, hrest']
      · rw [List.flatten_cons, List.flatten_cons, List.append_assoc, hframes, hnil, List.nil_append, List.nil_append, hframes',
          List.append_assoc]
      · rw [List.flatten_cons, hnil, List.nil_append]
        exact hleft'

end

/-! ### A line and its services -/

/-- The octets that the frame which is being received has put behind the text of a DLC. -/
def Rx.unfinished (s : Rx) (inst : Nat) : List Octet :=
  if inst = s.dlcInstance ∧ (s.analyzeState = .information ∨ s.analyzeState = .fcs) then
    s.dlc.text.drop (s.dlc.receivePos - ((headerFor inst 0 0).length + s.storedLen))
  else []

/-- The receiver with the octets that it has left unread, all octets that have arrived, the text that each DLC began with
when its service gave it the descriptor, and what the services have taken from the DLCs. -/
structure Line where
  rx : Rx
  unread : List Octet
  arrived : List Octet
  base : Nat → List Octet
  taken : Nat → List (List Octet)

/-- A call of `rx_proc_input` with the fragments that the driver has, and the service of a DLC giving it a descriptor. -/
inductive Event where
  | read (source : List (List Octet))
  | serve (inst : Nat) (base : List Octet) (d : Dlc)

/-- What a DLC that is complete has received. -/
def Line.pending (l : Line) (inst : Nat) : List (List Octet) :=
  let d := l.rx.dlcTable inst
  if d.receiveProcess = .complete then [(d.text.take d.len).drop (l.base inst).length] else []

/-- The fragments begin with what was left unread; a service gives back what is not finished of a frame. -/
def Line.step (cfg : Config) (l : Line) : Event → Option Line
  | .read source =>
    if l.unread <+: source.flatten then
      let (rx, rest) := l.rx.procInput cfg source
      some { l with
        rx
        unread := rest.flatten
        arrived := l.arrived ++ source.flatten.drop l.unread.length }
    else none
  | .serve inst base d =>
    if (l.rx.dlcTable inst).receiveProcess ≠ .stop ∧ d.receiveProcess = .ready ∧ d.text = base ++ l.rx.unfinished inst then
      some { l with
        rx := { l.rx with dlcTable := write l.rx.dlcTable inst d }
        base := write l.base inst base
        taken := write l.taken inst (l.taken inst ++ l.pending inst) }
    else none

/-- The line with its services; the channels that are not stopped are `live`. -/
def line (cfg : Config) (live : Nat → Bool) : Machine Line Event where
  init l := (l.rx.analyzeState = .error ∨ l.rx.analyzeState = .begun) ∧ l.rx.escape = false ∧ l.unread = [] ∧
    l.arrived = [] ∧ (∀ i, l.taken i = []) ∧ ∀ i, (l.rx.dlcTable i).receiveProcess ≠ .complete ∧
      (live i = true ↔ (l.rx.dlcTable i).receiveProcess ≠ .stop) ∧ (l.rx.dlcTable i).text = l.base i
  step := Line.step cfg

section
variable {cfg : Config} {live : Nat → Bool} {before : Nat → List Octet} {s : Rx} {l l' : Line}

theorem Table.serve {f : Nat → List Octet} {inst : Nat} {d : Dlc} {text : List Octet} (h : Table live s f)
    (hlive : (s.dlcTable inst).receiveProcess ≠ .stop) (hready : d.receiveProcess = .ready) (htext : d.text = text) :
    Table live { s with dlcTable := write s.dlcTable inst d } (write f inst text) := by
  intro i
  by_cases hi : i = inst
  · rw [hi]
    simp only
    rw [write_same, write_same]
    refine ⟨htext, (h inst).live.trans ?_, fun hc => absurd (hready.symm.trans hc) (by decide)⟩
    rw [hready]
    exact iff_of_true hlive (by decide)
  · simp only
    rw [write_other _ _ hi, write_other _ _ hi]
    exact h i

private theorem unfinished_eq {a c : Octet} {rest : List Octet} (hs : s.analyzeState = .information ∨ s.analyzeState = .fcs)
    (hlen : s.storedLen = rest.length)
    (h : Table live s (write before s.dlcInstance (before s.dlcInstance ++ (headerFor s.dlcInstance a c ++ rest)))) :
    s.unfinished s.dlcInstance = headerFor s.dlcInstance a c ++ rest := by
  have hd := h s.dlcInstance
  rw [write_same] at hd
  have hpos := congrArg List.length hd.text
  rw [Dlc.length_text, List.length_append, List.length_append] at hpos
  have hheader : (headerFor s.dlcInstance 0 0).length = (headerFor s.dlcInstance a c).length := by
    unfold headerFor
    split <;> rfl
  unfold Rx.unfinished Rx.dlc
  rw [if_pos ⟨rfl, hs⟩, hd.text, hpos, hheader, hlen, Nat.add_sub_cancel]
  exact List.drop_left' rfl

/-- A service gives its DLC a descriptor. -/
private theorem Follows.serve {content : Option (List Octet)} {inst : Nat} {d : Dlc} {base : List Octet}
    (h : Follows cfg live before s s.dlc.receivePos content) (hlive : (s.dlcTable inst).receiveProcess ≠ .stop)
    (hready : d.receiveProcess = .ready) (htext : d.text = base ++ s.unfinished inst) :
    Follows cfg live (write before inst base) { s with dlcTable := write s.dlcTable inst d }
      ({ s with dlcTable := write s.dlcTable inst d } : Rx).dlc.receivePos content := by
  have hidle (hs : ¬(s.analyzeState = .information ∨ s.analyzeState = .fcs)) (hT : Table live s before) :
      Table live { s with dlcTable := write s.dlcTable inst d } (write before inst base) := by
    refine hT.serve hlive hready ?_
    unfold Rx.unfinished at htext
    rwa [if_neg fun h => hs h.2, List.append_nil] at htext
  have hbusy {part : List Octet} (hpart : s.unfinished s.dlcInstance = part)
      (hT : Table live s (write before s.dlcInstance (before s.dlcInstance ++ part))) :
      Table live { s with dlcTable := write s.dlcTable inst d }
        (write (write before inst base) s.dlcInstance (write before inst base s.dlcInstance ++ part)) := by
    by_cases hi : inst = s.dlcInstance
    · subst hi
      rw [hpart] at htext
      have hserve := hT.serve hlive hready htext
      rw [write_write] at hserve
      rwa [write_write, write_same]
    · have hnone : s.unfinished inst = [] := if_neg fun h => hi h.1
      rw [hnone, List.append_nil] at htext
      have hserve := hT.serve hlive hready htext
      rw [write_comm _ (Ne.symm hi)] at hserve
      rwa [write_other _ _ (Ne.symm hi)]
  have hready' (h : s.dlc.receiveProcess = .ready) :
      ({ s with dlcTable := write s.dlcTable inst d } : Rx).dlc.receiveProcess = .ready := by
    unfold Rx.dlc
    by_cases hi : s.dlcInstance = inst
    · simp only
      rw [hi, write_same, hready]
    · exact (congrArg Dlc.receiveProcess (write_other _ _ hi)).trans h
  cases h with
  | hunting hs hT =>
    exact .hunting hs (hidle (by rcases hs with hs | hs <;> rw [hs] <;> decide) hT)
  | address hs hlen hfcs hT => exact .address hs hlen hfcs (hidle (by rw [hs]; decide) hT)
  | control a ha hs haddr hlen hfcs hT => exact .control a ha hs haddr hlen hfcs (hidle (by rw [hs]; decide) hT)
  | information a c rest ha hchan hle hs hlen hfcs hready'' hdest hT =>
    exact .information a c rest ha hchan hle hs hlen hfcs (hready' hready'') rfl
      (hbusy (unfinished_eq (.inl hs) hlen hT) hT)
  | fcs a c x rest ha hchan hle hs hlen hfcs hready'' hT =>
    exact .fcs a c x rest ha hchan hle hs hlen hfcs (hready' hready'') (hbusy (unfinished_eq (.inr hs) hlen hT) hT)
  | discarded l hl hs hT => exact .discarded l hl hs (hidle (by rw [hs]; decide) hT)

/-- A channel that is complete has no part of a frame behind its text. -/
private theorem Follows.complete_text {content : Option (List Octet)} {destination i : Nat}
    (h : Follows cfg live before s destination content) (hi : (s.dlcTable i).receiveProcess = .complete) :
    (s.dlcTable i).text = before i ∧ (s.dlcTable i).len = (s.dlcTable i).receivePos := by
  have hbusy {part : List Octet} (hready : s.dlc.receiveProcess = .ready)
      (hT : Table live s (write before s.dlcInstance (before s.dlcInstance ++ part))) :
      (s.dlcTable i).text = before i ∧ (s.dlcTable i).len = (s.dlcTable i).receivePos := by
    have hne : i ≠ s.dlcInstance := by
      rintro rfl
      exact absurd (hready.symm.trans hi) (by decide)
    have hd := hT i
    rw [write_other _ _ hne] at hd
    exact ⟨hd.text, hd.len hi⟩
  cases h with
  | hunting hs hT => exact ⟨(hT i).text, (hT i).len hi⟩
  | address hs hlen hfcs hT => exact ⟨(hT i).text, (hT i).len hi⟩
  | control a ha hs haddr hlen hfcs hT => exact ⟨(hT i).text, (hT i).len hi⟩
  | information a c rest ha hchan hle hs hlen hfcs hready hdest hT => exact hbusy hready hT
  | fcs a c x rest ha hchan hle hs hlen hfcs hready hT => exact hbusy hready hT
  | discarded l hl hs hT => exact ⟨(hT i).text, (hT i).len hi⟩

/-- The text of a channel begins with what is complete, and at most one frame is behind it. -/
private theorem Follows.bounded {content : Option (List Octet)} {destination : Nat}
    (h : Follows cfg live before s destination content) (i : Nat) :
    before i <+: (s.dlcTable i).text ∧
      (s.dlcTable i).receivePos ≤ (before i).length + (headerFor i 0 0).length + cfg.n1 := by
  have hidle (hT : Table live s before) : before i <+: (s.dlcTable i).text ∧
      (s.dlcTable i).receivePos ≤ (before i).length + (headerFor i 0 0).length + cfg.n1 := by
    rw [← Dlc.length_text, (hT i).text]
    exact ⟨List.prefix_refl _, by omega⟩
  have hbusy {a c : Octet} {rest : List Octet} (hle : rest.length ≤ cfg.n1)
      (hT : Table live s (write before s.dlcInstance (before s.dlcInstance ++ (headerFor s.dlcInstance a c ++ rest)))) :
      before i <+: (s.dlcTable i).text ∧
        (s.dlcTable i).receivePos ≤ (before i).length + (headerFor i 0 0).length + cfg.n1 := by
    have hd := (hT i).text
    rw [← Dlc.length_text]
    by_cases hi : i = s.dlcInstance
    · rw [hi] at hd ⊢
      rw [write_same] at hd
      rw [hd]
      refine ⟨List.prefix_append _ _, ?_⟩
      have hheader : (headerFor s.dlcInstance 0 0).length = (headerFor s.dlcInstance a c).length := by
        unfold headerFor
        split <;> rfl
      rw [List.length_append, List.length_append, hheader]
      omega
    · rw [write_other _ _ hi] at hd
      rw [hd]
      exact ⟨List.prefix_refl _, by omega⟩
  cases h with
  | hunting hs hT => exact hidle hT
  | address hs hlen hfcs hT => exact hidle hT
  | control a ha hs haddr hlen hfcs hT => exact hidle hT
  | information a c rest ha hchan hle hs hlen hfcs hready hdest hT => exact hbusy hle hT
  | fcs a c x rest ha hchan hle hs hlen hfcs hready hT => exact hbusy (Nat.le_of_eq hle) hT
  | discarded l hl hs hT => exact hidle hT


end

/-- What has ended in the octets that have been read has been given to the channels, and is taken or pending. -/
private def Kept (cfg : Config) (live : Nat → Bool) (l : Line) : Prop :=
  ∃ before sc given, Follows cfg live before l.rx l.rx.dlc.receivePos sc.content ∧ l.rx.escape = sc.pending ∧
    (∀ m, frames cfg live ⟨none, false⟩ (l.arrived ++ m) = given ++ frames cfg live sc (l.unread ++ m)) ∧
    ∀ i, ((l.rx.dlcTable i).receiveProcess ≠ .complete ∧ onChannel i given = l.taken i ∧ before i = l.base i) ∨
      ((l.rx.dlcTable i).receiveProcess = .complete ∧ ∃ t, onChannel i given = l.taken i ++ [t] ∧ before i = l.base i ++ t)

section
variable {cfg : Config} {live : Nat → Bool} {l l' : Line}

private theorem kept_init (h : (line cfg live).init l) : Kept cfg live l := by
  obtain ⟨hs, hescape, hunread, harrived, htaken, hdlc⟩ := h
  refine ⟨l.base, ⟨none, false⟩, [], .hunting hs fun i => ?_, hescape, fun m => ?_,
    fun i => .inl ⟨(hdlc i).1, (htaken i).symm, rfl⟩⟩
  · exact ⟨(hdlc i).2.2, (hdlc i).2.1, fun h => absurd h (hdlc i).1⟩
  · rw [harrived, hunread]
    rfl

theorem judge_length {t : List Octet} {p : Nat × List Octet} (h : judge cfg live t = some p) :
    p.2.length ≤ (headerFor p.1 0 0).length + cfg.n1 := by
  rcases t with - | ⟨a, - | ⟨c, - | ⟨x, rest⟩⟩⟩
  · cases h
  · cases h
  · cases h
  · rw [judge_cons] at h
    split at h
    · rename_i hc
      obtain ⟨inst, hinst, rfl⟩ := Option.map_eq_some_iff.1 h
      have hheader : (headerFor inst 0 0).length = (headerFor inst a c).length := by
        unfold headerFor
        split <;> rfl
      simp only [List.length_append, List.length_dropLast, List.length_cons, hheader]
      omega
    · cases h

theorem frames_length {sc : Stuffing.Scan Octet} {k : List Octet} {p : Nat × List Octet} (h : p ∈ frames cfg live sc k) :
    p.2.length ≤ (headerFor p.1 0 0).length + cfg.n1 := by
  obtain ⟨t, -, ht⟩ := List.mem_filterMap.1 h
  exact judge_length ht

private theorem kept_read {source : List (List Octet)} (h : Kept cfg live l) (hl : l.step cfg (.read source) = some l') :
    Kept cfg live l' := by
  obtain ⟨before, sc, given, hF, hescape, hframes, hgiven⟩ := h
  obtain ⟨t, rest, before', sc', given', hrest, hescape', hF', hG, hframes', -⟩ := fragments_step hF hescape source
  have hstep : l.rx.procInput cfg source = (t, rest) := hrest
  unfold Line.step at hl
  simp only [hstep] at hl
  split at hl
  · rename_i hfront
    cases hl
    have hsource := List.prefix_iff_eq_append.1 hfront
    refine ⟨before', sc', given ++ given', hF', hescape', fun m => ?_, fun i => ?_⟩
    · simp only
      rw [List.append_assoc, hframes, ← List.append_assoc, hsource, hframes', List.append_assoc]
    · simp only
      rw [onChannel_append]
      rcases hgiven i with ⟨hp, ht, hb⟩ | ⟨hp, x, ht, hb⟩ <;> rcases hG i with ⟨hnone, hb', hp'⟩ | ⟨y, hy, hb', hp', hp''⟩
      · exact .inl ⟨by rwa [hp'], by rw [hnone, ht, List.append_nil], hb'.trans hb⟩
      · exact .inr ⟨hp'', y, by rw [hy, ht], by rw [hb', hb]⟩
      · exact .inr ⟨hp'.trans hp, x, by rw [hnone, ht, List.append_nil], hb'.trans hb⟩
      · rw [hp] at hp'
        cases hp'
  · cases hl

private theorem pending_eq {before : Nat → List Octet} {content : Option (List Octet)} {destination i : Nat} {x : List Octet}
    (hF : Follows cfg live before l.rx destination content) (hp : (l.rx.dlcTable i).receiveProcess = .complete)
    (hb : before i = l.base i ++ x) : l.pending i = [x] := by
  obtain ⟨htext, hlen⟩ := hF.complete_text hp
  unfold Line.pending
  simp only
  rw [if_pos hp, hlen, ← Dlc.length_text, List.take_length, htext, hb, List.drop_left' rfl]

private theorem kept_serve {inst : Nat} {base : List Octet} {d : Dlc} (h : Kept cfg live l)
    (hl : l.step cfg (.serve inst base d) = some l') : Kept cfg live l' := by
  obtain ⟨before, sc, given, hF, hescape, hframes, hgiven⟩ := h
  unfold Line.step at hl
  simp only at hl
  split at hl
  · rename_i hc
    obtain ⟨hlive, hready, htext⟩ := hc
    cases hl
    refine ⟨_, sc, given, hF.serve hlive hready htext, hescape, hframes, fun i => ?_⟩
    by_cases hi : i = inst
    · rw [hi]
      simp only
      rw [write_same, write_same, write_same, write_same, hready]
      refine .inl ⟨by decide, ?_, rfl⟩
      rcases hgiven inst with ⟨hp, ht, hb⟩ | ⟨hp, x, ht, hb⟩
      · unfold Line.pending
        simp only
        rw [if_neg hp, List.append_nil, ht]
      · rw [ht, pending_eq hF hp hb]
    · simp only
      rw [write_other _ _ hi, write_other _ _ hi, write_other _ _ hi, write_other _ _ hi]
      exact hgiven i
  · cases hl

private theorem kept (h : (line cfg live).Reach (fun _ _ => true) l) : Kept cfg live l := by
  refine h.invariant (fun _ => kept_init) fun l e l' hl _ hstep => ?_
  cases e with
  | read source => exact kept_read hl hstep
  | serve inst base d => exact kept_serve hl hstep

/-- In every run, each channel has been given the frames for it among the octets that have arrived, every frame once and in
their order, except for those that are unread, and its descriptor holds at most one frame behind the text it began with;
reading ends in front of a frame only if the channel has still to be emptied. -/
theorem frames_received (h : (line cfg live).Reach (fun _ _ => true) l) :
    (∀ i, ∃ more, onChannel i (frames cfg live ⟨none, false⟩ l.arrived) = l.taken i ++ l.pending i ++ more ∧
      (l.unread = [] → more = []) ∧ l.base i <+: (l.rx.dlcTable i).text ∧
      (l.rx.dlcTable i).receivePos ≤ (l.base i).length + (headerFor i 0 0).length + cfg.n1) ∧
    ∀ source l', l.step cfg (.read source) = some l' → l'.unread ≠ [] → l'.rx.dlc.receiveProcess = .complete := by
  obtain ⟨before, sc, given, hF, hescape, hframes, hgiven⟩ := kept h
  have hall := hframes []
  rw [List.append_nil, List.append_nil] at hall
  constructor
  · intro i
    refine ⟨onChannel i (frames cfg live sc l.unread), ?_, fun hu => by rw [hu]; rfl, ?_⟩
    · rw [hall, onChannel_append]
      rcases hgiven i with ⟨hp, ht, hb⟩ | ⟨hp, x, ht, hb⟩
      · unfold Line.pending
        simp only
        rw [if_neg hp, List.append_nil, ht]
      · rw [ht, pending_eq hF hp hb]
    · obtain ⟨hfront, hpos⟩ := hF.bounded i
      rcases hgiven i with ⟨hp, ht, hb⟩ | ⟨hp, x, ht, hb⟩
      · rw [← hb]
        exact ⟨hfront, hpos⟩
      · obtain ⟨htext, -⟩ := hF.complete_text hp
        have hx : (i, x) ∈ frames cfg live ⟨none, false⟩ l.arrived := by
          rw [hall]
          refine List.mem_append_left _ ?_
          have hmem : x ∈ onChannel i given := by
            rw [ht]
            exact List.mem_append_right _ (List.mem_singleton_self x)
          obtain ⟨p, hpm, hpx⟩ := List.mem_filterMap.1 hmem
          split at hpx
          · rename_i hpi
            cases hpx
            rwa [← hpi]
          · cases hpx
        have hlen := frames_length hx
        rw [← Dlc.length_text, htext, hb]
        refine ⟨List.prefix_append _ _, ?_⟩
        rw [List.length_append]
        simp only at hlen
        omega
  · intro source l' hl hu
    obtain ⟨t, rest, before', sc', given', hrest, -, -, -, -, hleft⟩ := fragments_step hF hescape source
    have hstep : l.rx.procInput cfg source = (t, rest) := hrest
    unfold Line.step at hl
    simp only [hstep] at hl
    split at hl
    · cases hl
      exact hleft hu
    · cases hl

end

/-- A receiver whose frames have at most 31 octets, with a data channel of the DLCI 1. -/
def oneChannel : Config where
  n1 := 31
  dlcInstance dlci := if dlci = 1 then 0 else emptyInstance
  data dlci _ := by
    split
    · exact .inr (by decide)
    · exact .inl rfl

/-- A DLC with an empty descriptor. -/
def emptyDlc : Dlc := ⟨.ready, fun _ => 0, 0, 0⟩

/-- The receiver before the first frame. -/
def opened : Line := ⟨⟨.error, 0, 0, 0, false, controlInstance, fun _ => emptyDlc⟩, [], [], fun _ => [], fun _ => []⟩

/-- The second of two frames waits for the first one to be taken. -/
theorem frames_received_twice : ∃ l, (line oneChannel fun _ => true).Reach (fun _ _ => true) l ∧ l.unread = [] ∧
    l.taken 0 = [[0x41]] ∧ l.pending 0 = [[0x42, 0x7e]] ∧
    onChannel 0 (frames oneChannel (fun _ => true) ⟨none, false⟩ l.arrived) = [[0x41], [0x42, 0x7e]] := by
  have hrun : ((line oneChannel fun _ => true).run (fun _ _ => true) opened
      [.read [[0x7e, 0x07, 0xef], [0x41, 0x05, 0x7e]], .read [[0x07, 0xef]], .serve 0 [] emptyDlc,
        .read [[0xef, 0x42, 0x7d], [0x5e, 0x05, 0x7e]]]).any
      (fun l => decide (l.unread = [] ∧ l.taken 0 = [[0x41]] ∧ l.pending 0 = [[0x42, 0x7e]])) = true := by decide +kernel
  obtain ⟨l, hl, hfin⟩ := (Option.any_eq_true ..).1 hrun
  obtain ⟨hunread, htaken, hpending⟩ := of_decide_eq_true hfin
  have hinit : (line oneChannel fun _ => true).init opened :=
    ⟨.inl rfl, rfl, rfl, rfl, fun _ => rfl, fun _ =>
      ⟨show Process.ready ≠ .complete by decide, iff_of_true rfl (show Process.ready ≠ .stop by decide), rfl⟩⟩
  have hreach := Machine.Reach.of_run (.init hinit) hl
  obtain ⟨more, hmore, hnone, -⟩ := (frames_received hreach).1 0
  rw [hnone hunread, htaken, hpending] at hmore
  exact ⟨l, hreach, hunread, htaken, hpending, hmore⟩

end Citrine.Uart.Rxf
