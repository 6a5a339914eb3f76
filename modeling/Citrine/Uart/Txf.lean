import Citrine.Lib.While
import Citrine.Lib.Memory
import Citrine.Lib.Stuffing

/-!
# Transmitting a frame

`tx_proc_output` of `uart_txf.c` in the multiplexer mode: the data of the chosen DLC is taken from a chain of descriptors,
a frame is made of it and written to the free fragments of the driver's ring buffer.  `transmitState` and `frameSize` are
variables of the function; the frame size is an octet, so that for an `n1` above 255 all data of the chain goes into one
frame.  `fault` tells that something has been written behind the fragments, `nullRead` that a descriptor was read that is
not there.
-/

namespace Citrine.Uart

/-- One octet. -/
abbrev Octet := BitVec 8

/-- `UART_HDLC_FLAG` -/
def hdlcFlag : Octet := 0x7e

/-- `UART_HDLC_ESCAPE` -/
def hdlcEscape : Octet := 0x7d

/-- `UART_UIH_DATA_FRAME` -/
def uihDataFrame : Octet := 0xef

/-- `UART_EA` -/
def uartEA : Octet := 0x01

/-- `UART_INITFCS` -/
def initFcs : Octet := 0xff

/-- `UART_GOODFCS` -/
def goodFcs : Octet := 0xcf

/-- `uart_fcstable_base` -/
def uartFcstableBase : List Octet := [
  0x00, 0x91, 0xE3, 0x72, 0x07, 0x96, 0xE4, 0x75, 0x0E, 0x9F, 0xED, 0x7C, 0x09, 0x98, 0xEA, 0x7B,
  0x1C, 0x8D, 0xFF, 0x6E, 0x1B, 0x8A, 0xF8, 0x69, 0x12, 0x83, 0xF1, 0x60, 0x15, 0x84, 0xF6, 0x67,
  0x38, 0xA9, 0xDB, 0x4A, 0x3F, 0xAE, 0xDC, 0x4D, 0x36, 0xA7, 0xD5, 0x44, 0x31, 0xA0, 0xD2, 0x43,
  0x24, 0xB5, 0xC7, 0x56, 0x23, 0xB2, 0xC0, 0x51, 0x2A, 0xBB, 0xC9, 0x58, 0x2D, 0xBC, 0xCE, 0x5F,
  0x70, 0xE1, 0x93, 0x02, 0x77, 0xE6, 0x94, 0x05, 0x7E, 0xEF, 0x9D, 0x0C, 0x79, 0xE8, 0x9A, 0x0B,
  0x6C, 0xFD, 0x8F, 0x1E, 0x6B, 0xFA, 0x88, 0x19, 0x62, 0xF3, 0x81, 0x10, 0x65, 0xF4, 0x86, 0x17,
  0x48, 0xD9, 0xAB, 0x3A, 0x4F, 0xDE, 0xAC, 0x3D, 0x46, 0xD7, 0xA5, 0x34, 0x41, 0xD0, 0xA2, 0x33,
  0x54, 0xC5, 0xB7, 0x26, 0x53, 0xC2, 0xB0, 0x21, 0x5A, 0xCB, 0xB9, 0x28, 0x5D, 0xCC, 0xBE, 0x2F,
  0xE0, 0x71, 0x03, 0x92, 0xE7, 0x76, 0x04, 0x95, 0xEE, 0x7F, 0x0D, 0x9C, 0xE9, 0x78, 0x0A, 0x9B,
  0xFC, 0x6D, 0x1F, 0x8E, 0xFB, 0x6A, 0x18, 0x89, 0xF2, 0x63, 0x11, 0x80, 0xF5, 0x64, 0x16, 0x87,
  0xD8, 0x49, 0x3B, 0xAA, 0xDF, 0x4E, 0x3C, 0xAD, 0xD6, 0x47, 0x35, 0xA4, 0xD1, 0x40, 0x32, 0xA3,
  0xC4, 0x55, 0x27, 0xB6, 0xC3, 0x52, 0x20, 0xB1, 0xCA, 0x5B, 0x29, 0xB8, 0xCD, 0x5C, 0x2E, 0xBF,
  0x90, 0x01, 0x73, 0xE2, 0x97, 0x06, 0x74, 0xE5, 0x9E, 0x0F, 0x7D, 0xEC, 0x99, 0x08, 0x7A, 0xEB,
  0x8C, 0x1D, 0x6F, 0xFE, 0x8B, 0x1A, 0x68, 0xF9, 0x82, 0x13, 0x61, 0xF0, 0x85, 0x14, 0x66, 0xF7,
  0xA8, 0x39, 0x4B, 0xDA, 0xAF, 0x3E, 0x4C, 0xDD, 0xA6, 0x37, 0x45, 0xD4, 0xA1, 0x30, 0x42, 0xD3,
  0xB4, 0x25, 0x57, 0xC6, 0xB3, 0x22, 0x50, 0xC1, 0xBA, 0x2B, 0x59, 0xC8, 0xBD, 0x2C, 0x5E, 0xCF]

/-- `fcstab[fcs ^ c]` -/
def fcsNext (fcs c : Octet) : Octet := uartFcstableBase.getD (fcs ^^^ c).toNat 0

namespace Txf

/-! ### The ring buffer and the descriptors -/

/-- The free fragments of the ring buffer, with the place where the next octet is written. -/
structure Ring where
  ndest : Nat
  size : Nat → Nat
  dest : Nat → Nat → Octet
  i : Nat
  pos : Nat
  fault : Bool

/-- Fragments that are full are left out. -/
def Ring.skip (r : Ring) : Ring :=
  While.loop (fun r => decide (r.i < r.ndest ∧ r.size r.i = 0)) (fun r => { r with pos := 0, i := r.i + 1 }) r.ndest r

/-- An octet is written to the place. -/
def Ring.store (r : Ring) (c : Octet) : Ring :=
  if r.i < r.ndest then
    { r with
      dest := write r.dest r.i (write (r.dest r.i) r.pos c)
      pos := r.pos + 1
      size := write r.size r.i (r.size r.i - 1) }
  else { r with fault := true }

/-- An octet is written, and the place of the next one is looked for. -/
def Ring.put (r : Ring) (c : Octet) : Ring := (r.store c).skip

/-- An octet is written, with an escape in front of it if it needs one. -/
def Ring.putField (xon xoff : Octet) (r : Ring) (c : Octet) : Ring :=
  if c = hdlcFlag ∨ c = hdlcEscape ∨ c = xon ∨ c = xoff then (r.put hdlcEscape).put (c ^^^ 0x20) else r.put c

/-- `transmit_data` and `transmit_pos` of a DLC. -/
structure Source where
  chain : List (List Octet)
  pos : Nat

/-- The next descriptor with data, from a position in the first one on. -/
def settled : List (List Octet) → Nat → Source
  | [], pos => ⟨[], pos⟩
  | d :: ds, pos => if d.length ≤ pos then settled ds 0 else ⟨d :: ds, pos⟩

/-- The next descriptor with data is looked for. -/
def Source.settle (s : Source) : Source := settled s.chain s.pos

/-- `cur_desc->buffer[dlc->transmit_pos]` -/
def Source.read (s : Source) : Option Octet := s.chain.head?.map fun d => d.getD s.pos 0

/-! ### The function -/

/-- What the transmitter is configured with, and the DLC that sends: its DLCI, or none for the control channel. -/
structure Config where
  n1 : Nat
  xon : Octet
  xoff : Octet
  dlci : Option Octet

/-- `transmit_state` -/
inductive State where
  | address
  | control
  | information
  | fcs
  | finished
  deriving DecidableEq

/-- The variables of the function; `nullRead` tells that a descriptor was read that is not there. -/
structure Tx where
  transmitState : State
  src : Source
  fcs : Octet
  frameSize : Octet
  ring : Ring
  nullRead : Bool

/-- A field of a control frame, which is included in the data. -/
def Tx.take (t : Tx) : Octet × Tx :=
  (t.src.read.getD 0,
    { t with
      src := Source.settle { t.src with pos := t.src.pos + 1 }
      nullRead := t.nullRead || t.src.read.isNone })

/-- The field that is sent next, and the variables after it has been determined. -/
def Tx.field (cfg : Config) (t : Tx) : Octet × Tx :=
  match t.transmitState with
  | .address =>
    let (c, t) := match cfg.dlci with
      | none => t.take
      | some dlci => (dlci <<< 2 ||| uartEA, t)
    (c, { t with fcs := fcsNext t.fcs c, transmitState := .control })
  | .control =>
    let (c, t) := match cfg.dlci with
      | none => t.take
      | some _ => (uihDataFrame, t)
    (c, { t with fcs := fcsNext t.fcs c, transmitState := if t.src.chain = [] then .fcs else .information })
  | .information =>
    let src := { t.src with pos := t.src.pos + 1 }
    let frameSize := t.frameSize + 1
    let c := t.src.read.getD 0
    -- the descriptor is sent completely, or the frame is full
    if cfg.n1 ≤ frameSize.toNat ∨ (t.src.chain.headD []).length ≤ src.pos then
      let src := src.settle
      (c, { t with
        src := src
        frameSize := frameSize
        transmitState := if cfg.n1 ≤ frameSize.toNat ∨ src.chain = [] then .fcs else .information })
    else (c, { t with src := src, frameSize := frameSize })
  | .fcs => (0xff - t.fcs, { t with transmitState := .finished })
  | .finished => (0, t)

/-- One round of the loop: a field is determined and written. -/
def Tx.round (cfg : Config) (t : Tx) : Tx :=
  let (c, t) := t.field cfg
  { t with ring := t.ring.putField cfg.xon cfg.xoff c }

/-- `tx_proc_output` in the multiplexer mode: the data that is left and the ring buffer, and whether a descriptor was read
that is not there -/
def txProcOutput (cfg : Config) (src : Source) (ndest : Nat) (size : Nat → Nat) (dest : Nat → Nat → Octet) :
    Source × Ring × Bool :=
  let src := src.settle
  let ring : Ring := ⟨ndest, size, dest, 0, 0, false⟩
  if src.chain = [] then (src, ring, false)
  else
    let t : Tx := ⟨.address, src, initFcs, 0, (ring.skip).put hdlcFlag, false⟩
    -- a frame has at most the octets of the chain and three fields of its own
    let t := While.loop (fun t => decide (t.transmitState ≠ .finished)) (Tx.round cfg) (src.chain.flatten.length + 3) t
    (t.src, t.ring.store hdlcFlag, t.nullRead)

/-! ### What is written to the ring buffer -/

/-- The number of octets that the first `n` fragments have room for. -/
def room (size : Nat → Nat) : Nat → Nat
  | 0 => 0
  | n + 1 => room size n + size n

/-- The octets of the first `n` fragments, as many as `count` tells. -/
def octets (dest : Nat → Nat → Octet) (count : Nat → Nat) (n : Nat) : List Octet :=
  (List.range n).flatMap fun j => (List.range (count j)).map (dest j)

theorem octets_succ (dest : Nat → Nat → Octet) (count : Nat → Nat) (n : Nat) :
    octets dest count (n + 1) = octets dest count n ++ (List.range (count n)).map (dest n) := by
  unfold octets
  rw [List.range_succ, List.flatMap_append, List.flatMap_singleton]

theorem length_octets (dest : Nat → Nat → Octet) (count : Nat → Nat) (n : Nat) : (octets dest count n).length = room count n := by
  induction n with
  | zero => rfl
  | succ n ih =>
    rw [octets_succ, List.length_append, ih, List.length_map, List.length_range]
    rfl

theorem octets_congr {dest dest' : Nat → Nat → Octet} {count count' : Nat → Nat} {n : Nat} (hc : ∀ j, j < n → count j = count' j)
    (hd : ∀ j k, j < n → k < count j → dest j k = dest' j k) : octets dest count n = octets dest' count' n := by
  induction n with
  | zero => rfl
  | succ n ih =>
    rw [octets_succ, octets_succ, ih (fun j hj => hc j (by omega)) fun j k hj => hd j k (by omega), hc n (by omega)]
    congr 1
    refine List.map_congr_left fun k hk => ?_
    have hlt := List.mem_range.1 hk
    exact hd n k (by omega) (by rw [hc n (by omega)]; exact hlt)

/-- The octets have been written to the fragments one after the other; the next place may be behind a full fragment. -/
structure Ring.Written (size : Nat → Nat) (dest : Nat → Nat → Octet) (r : Ring) (l : List Octet) : Prop where
  safe : r.fault = false
  le : r.i ≤ r.ndest
  before : ∀ j, j < r.i → r.size j = 0
  here : r.i < r.ndest → r.pos + r.size r.i = size r.i
  past : r.i = r.ndest → r.pos = 0
  behind : ∀ j, r.i < j → r.size j = size j
  text : l = octets r.dest size r.i ++ (List.range r.pos).map (r.dest r.i)
  frame : ∀ j k, r.dest j k ≠ dest j k → j < r.i ∧ k < size j ∨ j = r.i ∧ k < r.pos

section
variable {size : Nat → Nat} {dest : Nat → Nat → Octet} {r : Ring} {l : List Octet} {c : Octet}

theorem Ring.Written.skip (h : r.Written size dest l) :
    r.skip.Written size dest l ∧ (r.skip.i < r.skip.ndest → 0 < r.skip.size r.skip.i) ∧ r.skip.ndest = r.ndest := by
  obtain ⟨⟨hw, hn⟩, hc⟩ := @While.rule _ (fun r : Ring => decide (r.i < r.ndest ∧ r.size r.i = 0))
    (fun r => { r with pos := 0, i := r.i + 1 }) (fun s => s.Written size dest l ∧ s.ndest = r.ndest)
    (fun s => s.ndest - s.i)
    (fun s ⟨hs, hn⟩ hc => by
      obtain ⟨hlt, hz⟩ := of_decide_eq_true hc
      have hpos : s.pos = size s.i := by
        have := hs.here hlt
        omega
      refine ⟨⟨⟨hs.safe, hlt, fun j hj => ?_, fun _ => ?_, fun _ => rfl, fun j hj => hs.behind j (by simp only at hj; omega), ?_,
        fun j k hjk => ?_⟩, hn⟩, by simp only; omega⟩
      · by_cases hji : j = s.i
        · rw [hji]
          exact hz
        · exact hs.before j (by simp only at hj; omega)
      · rw [hs.behind (s.i + 1) (by omega)]
        exact Nat.zero_add _
      · simp only [List.range_zero, List.map_nil, List.append_nil]
        rw [octets_succ, ← hpos]
        exact hs.text
      · rcases hs.frame j k hjk with ⟨hj, hk⟩ | ⟨hj, hk⟩
        · exact .inl ⟨by simp only; omega, hk⟩
        · refine .inl ⟨by simp only; omega, ?_⟩
          rw [hj, ← hpos]
          exact hk)
    (n := r.ndest) (s := r) ⟨h, rfl⟩ (by omega)
  refine ⟨hw, fun hlt => ?_, hn⟩
  have hno := of_decide_eq_false hc
  exact Nat.pos_of_ne_zero fun hz => hno ⟨hlt, hz⟩

theorem Ring.Written.store (h : r.Written size dest l) (hlt : r.i < r.ndest) (hs : 0 < r.size r.i) :
    (r.store c).Written size dest (l ++ [c]) ∧ (r.store c).ndest = r.ndest := by
  have hhere := h.here hlt
  unfold Ring.store
  rw [if_pos hlt]
  refine ⟨⟨h.safe, h.le, fun j hj => ?_, fun _ => ?_, fun he => absurd he (by simp only; omega), fun j hj => ?_, ?_, fun j k hjk => ?_⟩, rfl⟩
  · simp only at hj ⊢
    rw [write_other _ _ (by omega)]
    exact h.before j hj
  · simp only
    rw [write_same]
    omega
  · simp only at hj ⊢
    rw [write_other _ _ (by omega)]
    exact h.behind j hj
  · simp only
    have hfirst : octets (write r.dest r.i (write (r.dest r.i) r.pos c)) size r.i = octets r.dest size r.i :=
      octets_congr (fun _ _ => rfl) fun j k hj _ => by rw [write_other _ _ (by omega)]
    have hlast : (List.range r.pos).map (write (r.dest r.i) r.pos c) = (List.range r.pos).map (r.dest r.i) := by
      refine List.map_congr_left fun k hk => write_other _ _ ?_
      have := List.mem_range.1 hk
      omega
    rw [hfirst, write_same, List.range_succ, List.map_append, hlast, List.map_singleton, write_same, ← List.append_assoc, h.text]
  · simp only at hjk ⊢
    by_cases hj : j = r.i
    · by_cases hk : k = r.pos
      · exact .inr ⟨hj, by omega⟩
      · rw [hj, write_same, write_other _ _ hk, ← hj] at hjk
        rcases h.frame j k hjk with hf | hf
        · exact .inl hf
        · exact .inr ⟨hj, by omega⟩
    · rw [write_other _ _ hj] at hjk
      rcases h.frame j k hjk with hf | hf
      · exact .inl hf
      · exact absurd hf.1 hj

/-- There is room for the next octet exactly as long as fewer octets have been written than the fragments have room for. -/
theorem Ring.Written.lt_iff (h : r.Written size dest l) (hs : r.i < r.ndest → 0 < r.size r.i) :
    r.i < r.ndest ↔ l.length < room size r.ndest := by
  have hlen : l.length = room size r.i + r.pos := by
    rw [h.text, List.length_append, length_octets, List.length_map, List.length_range]
  have hmono {m n : Nat} (hmn : m ≤ n) : room size m ≤ room size n := by
    induction n with
    | zero => exact Nat.le_of_eq (by rw [Nat.le_zero.1 hmn])
    | succ n ih =>
      rcases Nat.lt_or_ge m (n + 1) with hlt | hge
      · exact Nat.le_trans (ih (by omega)) (Nat.le_add_right ..)
      · exact Nat.le_of_eq (by rw [show m = n + 1 by omega])
  refine ⟨fun hlt => ?_, fun hlt => ?_⟩
  · have hnext : room size (r.i + 1) ≤ room size r.ndest := hmono hlt
    have hhere := h.here hlt
    have hpos := hs hlt
    change room size r.i + size r.i ≤ _ at hnext
    omega
  · rcases Nat.lt_or_ge r.i r.ndest with hi | hi
    · exact hi
    · have he : r.i = r.ndest := Nat.le_antisymm h.le hi
      have hz := h.past he
      rw [he] at hlen
      omega

end

/-- Octets are written one after the other. -/
def Ring.puts (r : Ring) (l : List Octet) : Ring := l.foldl Ring.put r

/-- The octets have been written, and the next place is free if there is one. -/
def Ring.Ready (size : Nat → Nat) (dest : Nat → Nat → Octet) (r : Ring) (l : List Octet) : Prop :=
  r.Written size dest l ∧ (r.i < r.ndest → 0 < r.size r.i)

section
variable {size : Nat → Nat} {dest : Nat → Nat → Octet} {r : Ring} {l m : List Octet} {c : Octet}

theorem Ring.Written.ready (h : r.Written size dest l) : r.skip.Ready size dest l ∧ r.skip.ndest = r.ndest :=
  ⟨⟨h.skip.1, h.skip.2.1⟩, h.skip.2.2⟩

theorem Ring.Ready.put (h : r.Ready size dest l) (hroom : l.length < room size r.ndest) :
    (r.put c).Ready size dest (l ++ [c]) ∧ (r.put c).ndest = r.ndest := by
  have hlt := (h.1.lt_iff h.2).2 hroom
  obtain ⟨hw, hn⟩ := h.1.store (c := c) hlt (h.2 hlt)
  exact ⟨hw.ready.1, hw.ready.2.trans hn⟩

theorem Ring.Ready.puts (h : r.Ready size dest l) (hroom : l.length + m.length ≤ room size r.ndest) :
    (r.puts m).Ready size dest (l ++ m) ∧ (r.puts m).ndest = r.ndest := by
  induction m generalizing r l with
  | nil =>
    rw [List.append_nil]
    exact ⟨h, rfl⟩
  | cons c m ih =>
    rw [List.length_cons] at hroom
    obtain ⟨hput, hn⟩ := h.put (c := c) (by omega)
    have hrest := ih hput (by rw [List.length_append, List.length_singleton, hn]; omega)
    rw [List.append_assoc] at hrest
    exact ⟨hrest.1, hrest.2.trans hn⟩

private theorem store_fault (h : r.fault = true) : (r.store c).fault = true := by
  unfold Ring.store
  split
  · exact h
  · rfl

private theorem skip_fault (h : r.fault = true) : r.skip.fault = true :=
  (@While.rule _ (fun r : Ring => decide (r.i < r.ndest ∧ r.size r.i = 0))
    (fun r => { r with pos := 0, i := r.i + 1 }) (fun s => s.fault = true) (fun s => s.ndest - s.i)
    (fun s hs hc => ⟨hs, by have := (of_decide_eq_true hc).1; simp only; omega⟩) _ _ h (by omega)).1

private theorem puts_fault (h : r.fault = true) : (r.puts m).fault = true := by
  induction m generalizing r with
  | nil => exact h
  | cons c m ih => exact ih (skip_fault (store_fault h))

private theorem store_full (h : r.Ready size dest l) (hfull : ¬l.length < room size r.ndest) : (r.store c).fault = true := by
  have hge : ¬r.i < r.ndest := fun hlt => hfull ((h.1.lt_iff h.2).1 hlt)
  unfold Ring.store
  rw [if_neg hge]

/-- Without room for all octets something is written behind the fragments. -/
theorem Ring.Ready.overrun (h : r.Ready size dest l) (hroom : room size r.ndest < l.length + m.length) :
    (r.puts m).fault = true := by
  induction m generalizing r l with
  | nil =>
    -- what has been written had room
    have hlt : ¬l.length < room size r.ndest := by
      simp only [List.length_nil] at hroom
      omega
    have hle : r.i = r.ndest := Nat.le_antisymm h.1.le (Nat.le_of_not_lt fun hi => hlt ((h.1.lt_iff h.2).1 hi))
    have hlen : l.length = room size r.ndest := by
      rw [h.1.text, List.length_append, length_octets, List.length_map, List.length_range, h.1.past hle, hle, Nat.add_zero]
    simp only [List.length_nil] at hroom
    omega
  | cons c m ih =>
    rw [List.length_cons] at hroom
    by_cases hlt : l.length < room size r.ndest
    · obtain ⟨hput, hn⟩ := h.put (c := c) hlt
      exact ih hput (by rw [List.length_append, List.length_singleton, hn]; omega)
    · exact puts_fault (r := r.put c) (skip_fault (store_full h hlt))

private theorem octets_behind {count : Nat → Nat} {n d : Nat} (h : ∀ j, n ≤ j → count j = 0) :
    octets dest count (n + d) = octets dest count n := by
  induction d with
  | zero => rfl
  | succ d ih =>
    rw [← Nat.add_assoc, octets_succ, ih, h (n + d) (by omega), List.range_zero, List.map_nil, List.append_nil]

/-- What has been written is in the fragments, in as many places of each as its size has become smaller, and nowhere else. -/
theorem Ring.Written.placed (h : r.Written size dest l) :
    octets r.dest (fun j => size j - r.size j) r.ndest = l ∧
      ∀ j k, r.dest j k ≠ dest j k → k < size j - r.size j := by
  have hcount {j : Nat} (hj : j < r.i) : size j - r.size j = size j := by
    rw [h.before j hj, Nat.sub_zero]
  have hbehind {j : Nat} (hj : r.i < j) : size j - r.size j = 0 := by
    rw [h.behind j hj, Nat.sub_self]
  have hfirst : octets r.dest (fun j => size j - r.size j) r.i = octets r.dest size r.i :=
    octets_congr (fun j hj => hcount hj) fun _ _ _ _ => rfl
  have hhere (hlt : r.i < r.ndest) : size r.i - r.size r.i = r.pos := by
    have := h.here hlt
    omega
  refine ⟨?_, fun j k hjk => ?_⟩
  · rcases Nat.lt_or_ge r.i r.ndest with hlt | hge
    · obtain ⟨d, hd⟩ := Nat.le.dest hlt
      rw [← hd, octets_behind fun j hj => hbehind (by omega), octets_succ, hfirst, hhere hlt]
      exact h.text.symm
    · have he : r.i = r.ndest := Nat.le_antisymm h.le hge
      rw [← he, hfirst, h.text, h.past he, List.range_zero, List.map_nil, List.append_nil]
  · rcases h.frame j k hjk with ⟨hj, hk⟩ | ⟨hj, hk⟩
    · rw [hcount hj]
      exact hk
    · have hlt : r.i < r.ndest := by
        rcases Nat.lt_or_ge r.i r.ndest with hlt | hge
        · exact hlt
        · rw [h.past (Nat.le_antisymm h.le hge)] at hk
          omega
      rw [hj, hhere hlt]
      exact hk

/-- Octets written to empty fragments, the last one without looking for the next place: with room for them they are all
there, and without room something is written behind the fragments. -/
theorem ring_sent (size : Nat → Nat) (dest : Nat → Nat → Octet) (ndest : Nat) (m : List Octet) (c : Octet) :
    let r := (((⟨ndest, size, dest, 0, 0, false⟩ : Ring).skip).puts m).store c
    (r.fault = false ↔ m.length + 1 ≤ room size ndest) ∧
      (r.fault = false → octets r.dest (fun j => size j - r.size j) ndest = m ++ [c] ∧
        ∀ j k, r.dest j k ≠ dest j k → k < size j - r.size j) := by
  intro r
  have hfirst : (⟨ndest, size, dest, 0, 0, false⟩ : Ring).Written size dest [] :=
    ⟨rfl, Nat.zero_le _, fun j hj => absurd hj (Nat.not_lt_zero j), fun _ => Nat.zero_add _, fun _ => rfl, fun _ _ => rfl,
      rfl, fun _ _ hjk => absurd rfl hjk⟩
  obtain ⟨hready, hn⟩ := hfirst.ready
  change _ = ndest at hn
  by_cases hroom : m.length + 1 ≤ room size ndest
  · obtain ⟨hputs, hn'⟩ := hready.puts (m := m) (by rw [List.length_nil, hn]; omega)
    have hnd := hn'.trans hn
    rw [List.nil_append] at hputs
    have hlt := (hputs.1.lt_iff hputs.2).2 (by rw [hnd]; exact hroom)
    obtain ⟨hw, hn2⟩ := hputs.1.store (c := c) hlt (hputs.2 hlt)
    refine ⟨⟨fun _ => hroom, fun _ => hw.safe⟩, fun _ => ?_⟩
    have hplaced := hw.placed
    rwa [hn2.trans hnd] at hplaced
  · have hfault : r.fault = true := by
      by_cases hm : m.length ≤ room size ndest
      · obtain ⟨hputs, hn'⟩ := hready.puts (m := m) (by rw [List.length_nil, hn]; omega)
        refine store_full hputs ?_
        rw [List.nil_append, hn'.trans hn]
        exact hroom
      · refine store_fault (hready.overrun ?_)
        rw [List.length_nil, hn]
        omega
    refine ⟨⟨fun h => Bool.noConfusion (h.symm.trans hfault), fun h => absurd h hroom⟩, fun h => Bool.noConfusion (h.symm.trans hfault)⟩

end

/-! ### What a frame is made of -/

/-- The data that is still to be sent. -/
def Source.rest (s : Source) : List Octet :=
  match s.chain with
  | [] => []
  | d :: ds => d.drop s.pos ++ ds.flatten

/-- The first descriptor has data, if there is one. -/
def Source.Settled (s : Source) : Prop := s.chain = [] ∨ s.pos < (s.chain.headD []).length

/-- The characters that are escaped. -/
def special (cfg : Config) (c : Octet) : Bool := decide (c = hdlcFlag ∨ c = hdlcEscape ∨ c = cfg.xon ∨ c = cfg.xoff)

/-- `^ 0x20` -/
def change (c : Octet) : Octet := c ^^^ 0x20

/-- A frame: its fields between two flags. -/
def frame (cfg : Config) (fields : List Octet) : List Octet :=
  hdlcFlag :: Stuffing.stuff hdlcEscape change (special cfg) fields ++ [hdlcFlag]

/-- The FCS of a frame with the address and control fields. -/
def fcsField (address control : Octet) : Octet := 0xff - fcsNext (fcsNext initFcs address) control

/-- The number of octets that the information field takes of `n`; an `n1` that is no octet is never reached. -/
def infoLength (n1 n : Nat) : Nat := if n1 < 256 then min (max 1 n1) n else n

section
variable {s : Source} {cfg : Config} {t : Tx} {c : Octet} {cs : List Octet}

theorem settled_rest (chain : List (List Octet)) (pos : Nat) :
    (settled chain pos).rest = (Source.mk chain pos).rest ∧ (settled chain pos).Settled := by
  induction chain generalizing pos with
  | nil => exact ⟨rfl, .inl rfl⟩
  | cons d ds ih =>
    unfold settled
    split
    · rename_i hle
      refine ⟨(ih 0).1.trans ?_, (ih 0).2⟩
      have hdrop : (Source.mk (d :: ds) pos).rest = ds.flatten := by
        change d.drop pos ++ ds.flatten = _
        rw [List.drop_eq_nil_of_le hle, List.nil_append]
      rw [hdrop]
      cases ds with
      | nil => rfl
      | cons e es => rfl
    · rename_i hlt
      exact ⟨rfl, .inr (Nat.lt_of_not_le hlt)⟩

theorem Source.settle_rest : s.settle.rest = s.rest := (settled_rest s.chain s.pos).1

theorem Source.settle_settled : s.settle.Settled := (settled_rest s.chain s.pos).2

theorem Source.Settled.rest_nil (h : s.Settled) : s.rest = [] ↔ s.chain = [] := by
  unfold Source.rest
  cases hc : s.chain with
  | nil => exact ⟨fun _ => rfl, fun _ => rfl⟩
  | cons d ds =>
    refine ⟨fun hr => ?_, fun hn => absurd hn (List.cons_ne_nil _ _)⟩
    rcases h with h | h
    · rw [hc] at h
      cases h
    · rw [hc] at h
      have hd := congrArg List.length (List.append_eq_nil_iff.1 hr).1
      rw [List.length_drop] at hd
      simp only [List.headD_cons, List.length_nil] at h hd
      omega

/-- The octet at the position is the first one of the data that is left. -/
theorem Source.Settled.read (h : s.Settled) (hr : s.rest = c :: cs) :
    s.read = some c ∧ (Source.mk s.chain (s.pos + 1)).rest = cs := by
  unfold Source.rest at hr
  unfold Source.read Source.rest
  cases hc : s.chain with
  | nil =>
    rw [hc] at hr
    cases hr
  | cons d ds =>
    rcases h with h | h
    · rw [hc] at h
      cases h
    · rw [hc] at h hr
      simp only [List.headD_cons] at h hr
      rw [List.drop_eq_getElem_cons h, List.cons_append] at hr
      have hcons := List.cons.inj hr
      refine ⟨?_, hcons.2⟩
      rw [List.head?_cons, Option.map_some, List.getD_eq_getElem?_getD, List.getElem?_eq_getElem h, Option.getD_some, hcons.1]

theorem Ring.putField_eq (r : Ring) (c : Octet) :
    r.putField cfg.xon cfg.xoff c = r.puts (Stuffing.stuff hdlcEscape change (special cfg) [c]) := by
  unfold Ring.putField Stuffing.stuff special
  by_cases hs : c = hdlcFlag ∨ c = hdlcEscape ∨ c = cfg.xon ∨ c = cfg.xoff
  · rw [if_pos hs, decide_eq_true hs]
    rfl
  · rw [if_neg hs, decide_eq_false hs]
    rfl

end

/-! ### The loop -/

section
variable {cfg : Config} {t : Tx} {c : Octet} {cs : List Octet} {n : Nat}

/-- The loop of the function. -/
private abbrev sending (cfg : Config) (n : Nat) (t : Tx) : Tx :=
  While.loop (fun t => decide (t.transmitState ≠ .finished)) (Tx.round cfg) n t

private theorem sending_step (h : t.transmitState ≠ .finished) : sending cfg (n + 1) t = sending cfg n (t.round cfg) :=
  While.loop_step (decide_eq_true h)

private theorem sending_done (h : t.transmitState = .finished) : sending cfg n t = t :=
  While.loop_done (decide_eq_false fun hno => hno h)

/-- The octets that the information field still takes of `n`. -/
private def left (n1 : Nat) (size : Octet) (n : Nat) : Nat := if n1 < 256 then min (max 1 n1 - size.toNat) n else n

private theorem left_pos {n1 : Nat} {size : Octet} (h : size.toNat < max 1 n1) {k : Nat} :
    left n1 size (k + 1) = left n1 size (k + 1) - 1 + 1 := by
  unfold left
  split <;> omega

/-- A round of the information field, when data is left. -/
private theorem round_information (hs : t.transmitState = .information) (hset : t.src.Settled) (hr : t.src.rest = c :: cs)
    (hsize : t.frameSize.toNat < max 1 cfg.n1) :
    let u := t.round cfg
    u.ring = t.ring.puts (Stuffing.stuff hdlcEscape change (special cfg) [c]) ∧ u.fcs = t.fcs ∧ u.nullRead = t.nullRead ∧
      u.src.Settled ∧ u.src.rest = cs ∧
      (if left cfg.n1 t.frameSize (cs.length + 1) = 1 then u.transmitState = .fcs
        else u.transmitState = .information ∧ u.frameSize.toNat < max 1 cfg.n1 ∧
          left cfg.n1 u.frameSize cs.length = left cfg.n1 t.frameSize (cs.length + 1) - 1) := by
  obtain ⟨hread, hnext⟩ := hset.read hr
  have hsum : (t.frameSize + 1).toNat = (t.frameSize.toNat + 1) % 256 := by
    rw [BitVec.toNat_add]
    rfl
  have hlt := t.frameSize.isLt
  have hone : left cfg.n1 t.frameSize (cs.length + 1) = 1 ↔ cfg.n1 ≤ (t.frameSize + 1).toNat ∨ cs = [] := by
    have hnil : cs = [] ↔ cs.length = 0 := List.length_eq_zero_iff.symm
    rw [hsum, hnil]
    unfold left
    split <;> omega
  have hmore (hno : ¬cfg.n1 ≤ (t.frameSize + 1).toNat) (hcs : cs ≠ []) :
      (t.frameSize + 1).toNat < max 1 cfg.n1 ∧
        left cfg.n1 (t.frameSize + 1) cs.length = left cfg.n1 t.frameSize (cs.length + 1) - 1 := by
    have hnil : cs.length ≠ 0 := fun h => hcs (List.length_eq_zero_iff.1 h)
    unfold left
    rw [hsum] at hno ⊢
    refine ⟨by omega, ?_⟩
    split <;> omega
  unfold Tx.round Tx.field
  rw [hs]
  simp only [hread, Option.getD_some]
  split
  · rename_i hfull
    have hrest : (Source.mk t.src.chain (t.src.pos + 1)).settle.rest = cs := Source.settle_rest.trans hnext
    have hchain : (Source.mk t.src.chain (t.src.pos + 1)).settle.chain = [] ↔ cs = [] := by
      rw [← Source.settle_settled.rest_nil, hrest]
    refine ⟨Ring.putField_eq _ c, rfl, rfl, Source.settle_settled, hrest, ?_⟩
    simp only [hchain]
    split
    · rename_i hl
      exact if_pos (hone.1 hl)
    · rename_i hl
      have hno := fun h => hl (hone.2 h)
      exact ⟨if_neg hno, hmore (fun h => hno (.inl h)) fun h => hno (.inr h)⟩
  · rename_i hfull
    have hset' : (Source.mk t.src.chain (t.src.pos + 1)).Settled := .inr (Nat.lt_of_not_le fun h => hfull (.inr h))
    have hchain : t.src.chain ≠ [] := by
      intro h
      rw [(hset.rest_nil).2 h] at hr
      cases hr
    have hcs : cs ≠ [] := fun h => hchain (hset'.rest_nil.1 (hnext.trans h))
    refine ⟨Ring.putField_eq _ c, rfl, rfl, hset', hnext, ?_⟩
    rw [if_neg fun hl => (hone.1 hl).elim (fun h => hfull (.inl h)) hcs]
    exact ⟨rfl, hmore (fun h => hfull (.inl h)) hcs⟩

/-- The rounds of the information field. -/
private theorem sending_information {k : Nat} (hs : t.transmitState = .information) (hset : t.src.Settled)
    (hr : t.src.rest ≠ []) (hsize : t.frameSize.toNat < max 1 cfg.n1) (hk : left cfg.n1 t.frameSize t.src.rest.length = k) :
    ∃ u, sending cfg (n + k) t = sending cfg n u ∧ u.transmitState = .fcs ∧ u.fcs = t.fcs ∧ u.nullRead = t.nullRead ∧
      u.src.Settled ∧ u.src.rest = t.src.rest.drop k ∧
      u.ring = t.ring.puts (Stuffing.stuff hdlcEscape change (special cfg) (t.src.rest.take k)) := by
  induction k generalizing t with
  | zero =>
    obtain ⟨c, cs, hcons⟩ := List.exists_cons_of_ne_nil hr
    rw [hcons, List.length_cons, left_pos hsize] at hk
    omega
  | succ k ih =>
    obtain ⟨c, cs, hcons⟩ := List.exists_cons_of_ne_nil hr
    rw [hcons, List.length_cons] at hk
    obtain ⟨hring, hfcs, hnull, hset', hrest, hgo⟩ := round_information hs hset hcons hsize
    have hstep : sending cfg (n + (k + 1)) t = sending cfg (n + k) (t.round cfg) :=
      sending_step (by rw [hs]; decide)
    rw [hk] at hgo
    split at hgo
    · rename_i hone
      obtain rfl : k = 0 := by omega
      refine ⟨t.round cfg, hstep, hgo, hfcs, hnull, hset', ?_, ?_⟩
      · rw [hrest, hcons]
        rfl
      · rw [hring, hcons]
        rfl
    · rename_i hone
      obtain ⟨hstate, hsize', hleft⟩ := hgo
      rw [Nat.add_sub_cancel] at hleft
      have hne : (t.round cfg).src.rest ≠ [] := by
        intro hnil
        rw [hrest] at hnil
        rw [hnil] at hleft
        unfold left at hleft
        simp only [List.length_nil] at hleft
        split at hleft <;> omega
      obtain ⟨u, hu, hstate', hfcs', hnull', hsetu, hrest', hring'⟩ := ih hstate hset' hne hsize' (by rw [hrest]; exact hleft)
      refine ⟨u, hstep.trans hu, hstate', hfcs'.trans hfcs, hnull'.trans hnull, hsetu, ?_, ?_⟩
      · rw [hrest', hrest, hcons]
        rfl
      · have hsplit : Stuffing.stuff hdlcEscape change (special cfg) (c :: cs.take k) =
            Stuffing.stuff hdlcEscape change (special cfg) [c] ++ Stuffing.stuff hdlcEscape change (special cfg) (cs.take k) :=
          Stuffing.stuff_append [c] (cs.take k)
        rw [hring', hring, hrest, hcons, List.take_succ_cons, hsplit]
        exact List.foldl_append.symm

/-- The address field, the control field and the data for the information field, made of the data that is to be sent. -/
def header (cfg : Config) (data : List Octet) : Option (Octet × Octet × List Octet) :=
  match cfg.dlci, data with
  | _, [] => none
  | some dlci, c :: cs => some (dlci <<< 2 ||| uartEA, uihDataFrame, c :: cs)
  | none, a :: c :: cs => some (a, c, cs)
  | none, [_] => none

/-- A field of a control frame is taken from the data. -/
private theorem take_eq (hset : t.src.Settled) (hr : t.src.rest = c :: cs) :
    ∃ src, t.take = (c, { t with src := src }) ∧ src.Settled ∧ src.rest = cs := by
  obtain ⟨hread, hnext⟩ := hset.read hr
  refine ⟨_, ?_, Source.settle_settled, Source.settle_rest.trans hnext⟩
  unfold Tx.take
  rw [hread]
  simp only [Option.getD_some, Option.isNone_some, Bool.or_false]

private theorem round_address {src : Source} (hs : t.transmitState = .address)
    (hfield : (match cfg.dlci with | none => t.take | some dlci => (dlci <<< 2 ||| uartEA, t)) = (c, { t with src := src })) :
    t.round cfg = { t with
      src := src
      fcs := fcsNext t.fcs c
      transmitState := .control
      ring := t.ring.puts (Stuffing.stuff hdlcEscape change (special cfg) [c]) } := by
  unfold Tx.round Tx.field
  rw [hs]
  simp only
  rw [hfield, ← Ring.putField_eq]

private theorem round_control {src : Source} (hs : t.transmitState = .control)
    (hfield : (match cfg.dlci with | none => t.take | some _ => (uihDataFrame, t)) = (c, { t with src := src })) :
    t.round cfg = { t with
      src := src
      fcs := fcsNext t.fcs c
      transmitState := if src.chain = [] then .fcs else .information
      ring := t.ring.puts (Stuffing.stuff hdlcEscape change (special cfg) [c]) } := by
  unfold Tx.round Tx.field
  rw [hs]
  simp only
  rw [hfield, ← Ring.putField_eq]

/-- Where the two fields come from, both from the data or neither. -/
private theorem header_fields {a : Octet} {info : List Octet} (hset : t.src.Settled)
    (hh : header cfg t.src.rest = some (a, c, info)) :
    ∃ src src', (match cfg.dlci with | none => t.take | some dlci => (dlci <<< 2 ||| uartEA, t)) = (a, { t with src := src }) ∧
      (∀ u : Tx, u.src = src →
        (match cfg.dlci with | none => u.take | some _ => (uihDataFrame, u)) = (c, { u with src := src' })) ∧
      src'.Settled ∧ src'.rest = info := by
  unfold header at hh
  split at hh
  · cases hh
  · rename_i dlci b bs hd hr
    obtain ⟨ha, hc, hi⟩ := Prod.mk.inj (Option.some.inj hh) |>.imp_right Prod.mk.inj
    refine ⟨t.src, t.src, ?_, fun u hu => ?_, hset, hr.trans hi⟩
    · rw [hd]
      exact Prod.ext ha rfl
    · rw [hd, ← hu, ← hc]
  · rename_i b b' bs hd hr
    obtain ⟨ha, hc, hi⟩ := Prod.mk.inj (Option.some.inj hh) |>.imp_right Prod.mk.inj
    obtain ⟨src, htake, hset', hr'⟩ := take_eq hset hr
    obtain ⟨src', htake', hset'', hr''⟩ := take_eq (t := { t with src := src }) hset' hr'
    refine ⟨src, src', ?_, fun u hu => ?_, hset'', hr''.trans hi⟩
    · rw [hd, ← ha]
      exact htake
    · obtain ⟨src2, htake2, -, -⟩ := take_eq (t := u) (by rw [hu]; exact hset') (by rw [hu]; exact hr')
      have hsame : src2 = src' := by
        have h1 := congrArg (fun x => x.2.src) htake2
        have h2 := congrArg (fun x => x.2.src) htake'
        refine h1.symm.trans (Eq.trans ?_ h2)
        unfold Tx.take
        rw [hu]
      rw [hd, ← hc, ← hsame]
      exact htake2
  · cases hh

/-- The rounds of the address and the control field. -/
private theorem sending_header {a : Octet} {info : List Octet} (hs : t.transmitState = .address) (hset : t.src.Settled)
    (hh : header cfg t.src.rest = some (a, c, info)) :
    ∃ u, sending cfg (n + 2) t = sending cfg n u ∧
      (u.transmitState = if info = [] then State.fcs else State.information) ∧ u.fcs = fcsNext (fcsNext t.fcs a) c ∧
      u.frameSize = t.frameSize ∧ u.nullRead = t.nullRead ∧ u.src.Settled ∧ u.src.rest = info ∧
      u.ring = t.ring.puts (Stuffing.stuff hdlcEscape change (special cfg) [a, c]) := by
  have hsplit : Stuffing.stuff hdlcEscape change (special cfg) [a, c] =
      Stuffing.stuff hdlcEscape change (special cfg) [a] ++ Stuffing.stuff hdlcEscape change (special cfg) [c] :=
    Stuffing.stuff_append [a] [c]
  obtain ⟨src, src', haddress, hcontrol, hset', hrest⟩ := header_fields hset hh
  have hround := round_address hs haddress
  have hround' := round_control (t := t.round cfg) (by rw [hround]) (hcontrol _ (by rw [hround]))
  have hstep : sending cfg (n + 2) t = sending cfg n ((t.round cfg).round cfg) := by
    rw [sending_step (by rw [hs]; decide), sending_step (by rw [hround]; simp)]
  refine ⟨_, hstep, ?_⟩
  rw [hround', hround]
  refine ⟨?_, rfl, rfl, rfl, hset', hrest, ?_⟩
  · simp only [← hset'.rest_nil, hrest]
  · rw [hsplit]
    exact List.foldl_append.symm

/-- The last field. -/
private theorem sending_fcs (cfg : Config) (n : Nat) (hs : t.transmitState = .fcs) :
    let u := sending cfg (n + 1) t
    u.src = t.src ∧ u.nullRead = t.nullRead ∧
      u.ring = t.ring.puts (Stuffing.stuff hdlcEscape change (special cfg) [0xff - t.fcs]) := by
  have hround : t.round cfg = { t with
      transmitState := .finished
      ring := t.ring.puts (Stuffing.stuff hdlcEscape change (special cfg) [0xff - t.fcs]) } := by
    unfold Tx.round Tx.field
    rw [hs]
    simp only
    rw [← Ring.putField_eq]
  intro u
  have hu : u = t.round cfg := (sending_step (by rw [hs]; decide)).trans (sending_done (by rw [hround]))
  rw [hu, hround]
  exact ⟨rfl, rfl, rfl⟩

/-- The rounds of all fields. -/
private theorem sending_frame {a : Octet} {info : List Octet} (hs : t.transmitState = .address) (hset : t.src.Settled)
    (hsize : t.frameSize = 0) (hfcs : t.fcs = initFcs) (hh : header cfg t.src.rest = some (a, c, info))
    (hn : info.length + 3 ≤ n) :
    let u := sending cfg n t
    let k := infoLength cfg.n1 info.length
    u.nullRead = t.nullRead ∧ u.src.rest = info.drop k ∧
      u.ring = t.ring.puts (Stuffing.stuff hdlcEscape change (special cfg) (a :: c :: info.take k ++ [fcsField a c])) := by
  intro u k
  have hk : k ≤ info.length := by
    change infoLength cfg.n1 info.length ≤ info.length
    unfold infoLength
    split <;> omega
  obtain ⟨m, hm⟩ := Nat.le.dest (show k + 3 ≤ n by omega)
  have hfuel : n = m + 1 + k + 2 := by omega
  obtain ⟨v, hv, hstate, hvfcs, hvsize, hvnull, hvset, hvrest, hvring⟩ := sending_header (n := m + 1 + k) hs hset hh
  have hinfo : ∃ w, sending cfg (m + 1 + k) v = sending cfg (m + 1) w ∧ w.transmitState = .fcs ∧ w.fcs = v.fcs ∧
      w.nullRead = v.nullRead ∧ w.src.rest = info.drop k ∧
      w.ring = v.ring.puts (Stuffing.stuff hdlcEscape change (special cfg) (info.take k)) := by
    by_cases hnil : info = []
    · have hz : k = 0 := by
        rw [hnil] at hk
        exact Nat.le_zero.1 hk
      rw [if_pos hnil] at hstate
      refine ⟨v, by rw [hz], hstate, rfl, rfl, ?_, ?_⟩
      · rw [hvrest, hz, List.drop_zero]
      · rw [hz]
        rfl
    · rw [if_neg hnil] at hstate
      have hleft : left cfg.n1 v.frameSize v.src.rest.length = k := by
        rw [hvsize, hsize, hvrest]
        rfl
      have hlt : v.frameSize.toNat < max 1 cfg.n1 := by
        rw [hvsize, hsize]
        change 0 < _
        omega
      obtain ⟨w, hw, h1, h2, h3, -, h5, h6⟩ := sending_information (n := m + 1) hstate hvset (by rw [hvrest]; exact hnil) hlt hleft
      rw [hvrest] at h5 h6
      exact ⟨w, hw, h1, h2, h3, h5, h6⟩
  obtain ⟨w, hw, hwstate, hwfcs, hwnull, hwrest, hwring⟩ := hinfo
  have hu : u = sending cfg (m + 1) w := by
    change sending cfg n t = _
    rw [hfuel, hv, hw]
  obtain ⟨hsrc, hnull, hring⟩ := sending_fcs cfg m hwstate
  rw [hu]
  refine ⟨hnull.trans (hwnull.trans hvnull), (congrArg Source.rest hsrc).trans hwrest, ?_⟩
  have hall : a :: c :: info.take k ++ [fcsField a c] = [a, c] ++ (info.take k ++ [fcsField a c]) := rfl
  rw [hring, hwring, hvring, hall, Stuffing.stuff_append, Stuffing.stuff_append, hwfcs, hvfcs, hfcs]
  unfold Ring.puts fcsField
  rw [List.foldl_append, List.foldl_append]

end

/-- `tx_proc_output` makes one frame of the data that is to be sent, with an information field of as much of it as `n1`
allows, and leaves the rest; what it has accounted for in the sizes of the fragments is this frame, and nothing else in the
fragments has changed.  Only if the frame is longer than the room in the fragments, something is written behind them. -/
theorem txProcOutput_frame (cfg : Config) (src : Source) (ndest : Nat) (size : Nat → Nat) (dest : Nat → Nat → Octet)
    (a c : Octet) (info : List Octet) (hh : header cfg src.rest = some (a, c, info)) :
    let (src', ring, nullRead) := txProcOutput cfg src ndest size dest
    let k := infoLength cfg.n1 info.length
    let text := frame cfg (a :: c :: info.take k ++ [fcsField a c])
    nullRead = false ∧ src'.rest = info.drop k ∧ (ring.fault = false ↔ text.length ≤ room size ndest) ∧
      (ring.fault = false → octets ring.dest (fun j => size j - ring.size j) ndest = text ∧
        ∀ j i, ring.dest j i ≠ dest j i → i < size j - ring.size j) := by
  have hset := Source.settle_settled (s := src)
  have hrest : header cfg src.settle.rest = some (a, c, info) := by
    rw [Source.settle_rest]
    exact hh
  have hchain : src.settle.chain ≠ [] := by
    intro hno
    rw [hset.rest_nil.2 hno] at hrest
    unfold header at hrest
    cases cfg.dlci <;> cases hrest
  have hlen : info.length + 3 ≤ src.settle.chain.flatten.length + 3 := by
    have hdata : info.length ≤ src.settle.rest.length := by
      unfold header at hrest
      split at hrest
      · cases hrest
      · rename_i hr
        exact Nat.le_of_eq (by rw [hr, ← (Prod.mk.inj (Prod.mk.inj (Option.some.inj hrest)).2).2])
      · rename_i hr
        rw [hr, ← (Prod.mk.inj (Prod.mk.inj (Option.some.inj hrest)).2).2, List.length_cons, List.length_cons]
        omega
      · cases hrest
    have hflat : src.settle.rest.length ≤ src.settle.chain.flatten.length := by
      unfold Source.rest
      cases src.settle.chain with
      | nil => exact Nat.zero_le _
      | cons d ds =>
        simp only [List.length_append, List.length_drop, List.flatten_cons]
        omega
    omega
  unfold txProcOutput
  simp only
  rw [if_neg hchain]
  obtain ⟨hnull, hr, hring⟩ := sending_frame
    (t := ⟨.address, src.settle, initFcs, 0, ((⟨ndest, size, dest, 0, 0, false⟩ : Ring).skip).put hdlcFlag, false⟩)
    rfl hset rfl rfl hrest hlen
  refine ⟨hnull, hr, ?_⟩
  rw [hring]
  obtain ⟨hroom, hplaced⟩ := ring_sent size dest ndest
    (hdlcFlag :: Stuffing.stuff hdlcEscape change (special cfg)
      (a :: c :: info.take (infoLength cfg.n1 info.length) ++ [fcsField a c])) hdlcFlag
  unfold frame
  rw [List.length_append, List.length_singleton]
  exact ⟨hroom, hplaced⟩

/-- A frame of two octets, of which one is escaped, is written to two fragments. -/
theorem txProcOutput_frame_escaped :
    let (src', ring, nullRead) :=
      txProcOutput ⟨31, 0x11, 0x13, some 1⟩ ⟨[[0x41, 0x7e]], 0⟩ 2 (fun j => if j = 0 then 3 else 20) fun _ _ => 0
    nullRead = false ∧ src'.rest = [] ∧ octets ring.dest (fun j => (if j = 0 then 3 else 20) - ring.size j) 2 =
      [0x7e, 0x05, 0xef, 0x41, 0x7d, 0x5e, 0xdf, 0x7e] := by
  obtain ⟨hnull, hrest, hroom, htext⟩ := txProcOutput_frame ⟨31, 0x11, 0x13, some 1⟩ ⟨[[0x41, 0x7e]], 0⟩ 2
    (fun j => if j = 0 then 3 else 20) (fun _ _ => 0) 0x05 uihDataFrame [0x41, 0x7e] (by decide +kernel)
  exact ⟨hnull, hrest, (htext (hroom.2 (by decide +kernel))).1.trans (by decide +kernel)⟩

end Citrine.Uart.Txf
