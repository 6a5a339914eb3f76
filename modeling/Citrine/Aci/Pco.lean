import Citrine.Lib.Loop
import Mathlib.Data.List.Induction
import Mathlib.Tactic.SplitIfs

/-!
# Protocol configuration options

`utl_analyze_pco` searches the protocol configuration options that the network sends for IPCP packets and takes the
addresses from their options.  The pointer `pos` and the counter `pos_len`, which is 16 bits wide, are moved together;
both loops are rounds of one loop here, and reading an octet that the buffer does not have ends it.
-/

namespace Citrine.Aci

/-! ### The analyzer -/

def aciPcoIpcpOverhead : Nat := 7
def aciPcoIpcpProtMsb : Nat := 0x80
def aciPcoIpcpProtLsb : Nat := 0x21
def aciPcoIpcpConfReq : Nat := 0x01
def aciPcoIpcpConfAck : Nat := 0x02
def aciPcoIpcpConfNak : Nat := 0x03
def aciPcoIpcpTypeIp : Nat := 3
def aciPcoIpcpTypeDns1 : Nat := 129
def aciPcoIpcpTypeDns2 : Nat := 131
def aciPcoIpcpLengthIp : Nat := 6
def aciPcoIpcpLengthDns1 : Nat := 6
def aciPcoIpcpLengthDns2 : Nat := 6

/-- A buffer whose length fits into 16 bits. -/
structure PcoBuffer where
  octets : List UInt8
  fits : octets.length < 65536

/-- The addresses that are returned. -/
structure PcoAddresses where
  dns1 : Nat
  dns2 : Nat
  gateway : Nat
  deriving DecidableEq

/-- How the function ends: with its result, or by reading outside of the buffer. -/
inductive PcoEnd where
  | outside
  | returned (result : Int) (addresses : PcoAddresses)
  deriving DecidableEq

/-- The loop that is running. -/
inductive PcoLoop where
  | packets
  | options (request : Bool) (startPos packetLen : Nat)
  deriving DecidableEq

structure PcoScan where
  pos : Nat
  posLen : Nat
  addresses : PcoAddresses
  loop : PcoLoop
  deriving DecidableEq

/-- The pointer and the counter move on. -/
def PcoScan.move (s : PcoScan) (n : Nat) : PcoScan :=
  { s with pos := s.pos + n, posLen := (s.posLen + n) % 65536 }

namespace PcoBuffer

variable (b : PcoBuffer)

abbrev length : Nat := b.octets.length

def read (i : Nat) : Except PcoEnd Nat :=
  match b.octets[i]? with
  | some octet => .ok octet.toNat
  | none => .error .outside

/-- The four octets of an address, the highest first. -/
def readAddress (pos : Nat) : Except PcoEnd Nat := do
  let a0 ← b.read pos
  let a1 ← b.read (pos + 1)
  let a2 ← b.read (pos + 2)
  let a3 ← b.read (pos + 3)
  return ((a0 * 256 + a1) * 256 + a2) * 256 + a3

/-- The next round of the search for an IPCP packet, up to the loop over its options. -/
def nextPacket (s : PcoScan) : Except PcoEnd PcoScan := do
  let distToNext := (← b.read (s.pos + 2)) + 3
  if (← b.read s.pos) = aciPcoIpcpProtMsb ∧ (← b.read (s.pos + 1)) = aciPcoIpcpProtLsb then
    let s := s.move 2
    let packetLen := (← b.read (s.pos + 3)) * 256 + (← b.read (s.pos + 4))
    if packetLen = (← b.read s.pos) ∧ s.posLen + packetLen < b.length then
      let s := s.move 1
      let code ← b.read s.pos
      if code = aciPcoIpcpConfReq then
        return { s.move 4 with loop := .options true s.posLen packetLen }
      else if code = aciPcoIpcpConfAck ∨ code = aciPcoIpcpConfNak then
        return { s.move 4 with loop := .options false s.posLen packetLen }
      else return s.move (distToNext - 3)
    else return s.move (distToNext - 2)
  else return s.move distToNext

/-- The next round of the loop over the options; the differences of the code are moved to where they are not
negative. -/
def nextOption (s : PcoScan) (request : Bool) (startPos packetLen : Nat) : Except PcoEnd PcoScan := do
  let typeLen ← b.read (s.pos + 1)
  let type ← b.read s.pos
  if request then
    if type = aciPcoIpcpTypeIp ∧ typeLen = aciPcoIpcpLengthIp ∧
        s.posLen + aciPcoIpcpLengthIp ≤ packetLen + startPos then
      let address ← b.readAddress (s.pos + 2)
      return { s.move typeLen with addresses := { s.addresses with gateway := address } }
    else return s.move typeLen
  else if type = aciPcoIpcpTypeDns1 ∧ typeLen = aciPcoIpcpLengthDns1 ∧
      s.posLen + aciPcoIpcpLengthDns1 ≤ packetLen + startPos then
    let address ← b.readAddress (s.pos + 2)
    return { s.move typeLen with addresses := { s.addresses with dns1 := address } }
  else if type = aciPcoIpcpTypeDns2 ∧ typeLen = aciPcoIpcpLengthDns2 ∧
      s.posLen + aciPcoIpcpLengthDns2 ≤ packetLen + startPos then
    let address ← b.readAddress (s.pos + 2)
    return { s.move typeLen with addresses := { s.addresses with dns2 := address } }
  else return s.move typeLen

/-- The way from the end of the options to the next packet. -/
def leaveOptions (s : PcoScan) (startPos packetLen : Nat) : PcoScan :=
  if s.posLen ≤ packetLen + startPos then
    { s.move ((packetLen + startPos - s.posLen) % 65536) with loop := .packets }
  else
    let excess := s.posLen - startPos - packetLen
    { s with pos := s.pos - excess, posLen := s.posLen - excess, loop := .packets }

/-- One round. -/
def round (s : PcoScan) : Except PcoEnd PcoScan :=
  match s.loop with
  | .packets =>
    if s.posLen + aciPcoIpcpOverhead < b.length then b.nextPacket s else .error (.returned 0 s.addresses)
  | .options request startPos packetLen =>
    if s.posLen + 1 < packetLen + startPos then b.nextOption s request startPos packetLen
    else .ok (leaveOptions s startPos packetLen)

/-- The beginning of the function. -/
def begin : Except PcoEnd PcoScan := do
  if b.length ≤ 0 then .error (.returned (-1) ⟨0, 0, 0⟩)
  else if (← b.read 0) &&& 0x80 = 0 then .error (.returned (-1) ⟨0, 0, 0⟩)
  else return ⟨1, 1, ⟨0, 0, 0⟩, .packets⟩

/-- The function after a number of rounds. -/
def utlAnalyzePco (rounds : Nat) : Except PcoEnd PcoScan := b.begin >>= Loop.after b.round rounds

end PcoBuffer

/-! ### Well-formed options -/

/-- An option of an IPCP packet. -/
structure PcoOption where
  type : UInt8
  data : List UInt8
  fits : data.length + 2 < 256

def PcoOption.encode (o : PcoOption) : List UInt8 := o.type :: UInt8.ofNat (o.data.length + 2) :: o.data

/-- A packet: the identifier of its protocol and its contents. -/
structure PcoPacket where
  protMsb : UInt8
  protLsb : UInt8
  contents : List UInt8
  fits : contents.length < 256

def PcoPacket.encode (p : PcoPacket) : List UInt8 :=
  p.protMsb :: p.protLsb :: UInt8.ofNat p.contents.length :: p.contents

theorem PcoPacket.length_encode (p : PcoPacket) : p.encode.length = p.contents.length + 3 := rfl

theorem PcoOption.length_encode (o : PcoOption) : o.encode.length = o.data.length + 2 := rfl

/-- An octet is the code of a Configure-Request, -Ack or -Nak. -/
def IsConfCode (code : Nat) : Prop := code = aciPcoIpcpConfReq ∨ code = aciPcoIpcpConfAck ∨ code = aciPcoIpcpConfNak

/-- A packet is an IPCP Configure-Request, -Ack or -Nak, well formed or not. -/
def PcoPacket.IsConf (p : PcoPacket) : Prop :=
  p.protMsb.toNat = aciPcoIpcpProtMsb ∧ p.protLsb.toNat = aciPcoIpcpProtLsb ∧
    ∃ code rest, p.contents = code :: rest ∧ IsConfCode code.toNat

/-- A well-formed IPCP Configure-Request, -Ack or -Nak. -/
structure IpcpConf where
  code : UInt8
  identifier : UInt8
  options : List PcoOption
  isConf : IsConfCode code.toNat
  fits : (options.flatMap PcoOption.encode).length + 4 < 256

namespace IpcpConf

variable (c : IpcpConf)

def packet : PcoPacket where
  protMsb := 0x80
  protLsb := 0x21
  contents := c.code :: c.identifier :: 0 :: UInt8.ofNat ((c.options.flatMap PcoOption.encode).length + 4) ::
    c.options.flatMap PcoOption.encode
  fits := c.fits

end IpcpConf

/-- The address that an option of a type carries. -/
def PcoOption.address (type : Nat) (o : PcoOption) : Option Nat :=
  match o.data with
  | [a0, a1, a2, a3] =>
    if o.type.toNat = type then some (((a0.toNat * 256 + a1.toNat) * 256 + a2.toNat) * 256 + a3.toNat) else none
  | _ => none

/-- The addresses after an option of a request, or of an answer. -/
def PcoAddresses.take (request : Bool) (v : PcoAddresses) (o : PcoOption) : PcoAddresses :=
  if request then { v with gateway := (o.address aciPcoIpcpTypeIp).getD v.gateway }
  else
    { v with
      dns1 := (o.address aciPcoIpcpTypeDns1).getD v.dns1
      dns2 := (o.address aciPcoIpcpTypeDns2).getD v.dns2 }

/-- The address in the options of a type, the last one if there are several, 0 if there is none. -/
def carried (type : Nat) (options : List PcoOption) : Nat :=
  ((options.filterMap (PcoOption.address type)).getLast?).getD 0

/-- The addresses that a packet carries: that of a request, or those of the name servers in an answer. -/
def IpcpConf.addresses (c : IpcpConf) : PcoAddresses :=
  if c.code.toNat = aciPcoIpcpConfReq then ⟨0, 0, carried aciPcoIpcpTypeIp c.options⟩
  else ⟨carried aciPcoIpcpTypeDns1 c.options, carried aciPcoIpcpTypeDns2 c.options, 0⟩

/-- Options with at most one IPCP Configure packet, that is well formed, anywhere among packets of other kinds. -/
structure Pco where
  protocol : UInt8
  before : List PcoPacket
  conf : Option IpcpConf
  after : List PcoPacket
  extension : protocol.toNat &&& 0x80 ≠ 0
  others : ∀ p ∈ before ++ after, ¬p.IsConf

def Pco.encode (p : Pco) : List UInt8 :=
  p.protocol :: (p.before ++ (p.conf.map IpcpConf.packet).toList ++ p.after).flatMap PcoPacket.encode

def Pco.addresses (p : Pco) : PcoAddresses := (p.conf.map IpcpConf.addresses).getD ⟨0, 0, 0⟩

namespace PcoBuffer

/-- The function ends with a result. -/
def Ends (b : PcoBuffer) (e : PcoEnd) : Prop := ∃ rounds, b.utlAnalyzePco rounds = .error e

/-- The function returns after reading octets of the buffer only, and with the addresses of well-formed options. -/
def Analyzed (b : PcoBuffer) : Prop :=
  (∃ result addresses, b.Ends (.returned result addresses)) ∧
    ∀ p : Pco, p.encode = b.octets → b.Ends (.returned 0 p.addresses)

/-! ### Where it goes wrong -/

variable (b : PcoBuffer)

/-- The octet at a position. -/
def octet (i : Nat) : Nat := (b.octets.getD i 0).toNat

/-- The positions at which the function looks for a packet. -/
inductive PacketAt : Nat → Prop where
  | first : 0 < b.length → b.octet 0 &&& 0x80 ≠ 0 → PacketAt 1
  | next {p : Nat} : PacketAt p → p + aciPcoIpcpOverhead < b.length → PacketAt (p + 3 + b.octet (p + 2))

/-- An IPCP Configure packet whose length fields agree and that ends in the buffer. -/
def ConfAt (p : Nat) : Prop :=
  b.octet p = aciPcoIpcpProtMsb ∧ b.octet (p + 1) = aciPcoIpcpProtLsb ∧
    b.octet (p + 5) * 256 + b.octet (p + 6) = b.octet (p + 2) ∧ p + 3 + b.octet (p + 2) ≤ b.length ∧
    IsConfCode (b.octet (p + 3))

/-- The positions at which the function looks for an option of such a packet. -/
inductive OptionAt (p : Nat) : Nat → Prop where
  | first : b.PacketAt p → p + aciPcoIpcpOverhead < b.length → b.ConfAt p → OptionAt p (p + 7)
  | next {q : Nat} : OptionAt p q → q + 1 < p + 3 + b.octet (p + 2) → OptionAt p (q + b.octet (q + 1))

/-- No packet and no option ends where the 16 bits of the counter are not enough, and no option has length 0. -/
structure Steady : Prop where
  packets : ∀ p, b.PacketAt p → p + aciPcoIpcpOverhead < b.length → p + 3 + b.octet (p + 2) < 65536
  options : ∀ p q, b.OptionAt p q → q + 1 < p + 3 + b.octet (p + 2) →
    b.octet (q + 1) ≠ 0 ∧ q + b.octet (q + 1) < 65536

/-! ### The rounds -/

variable {b} {i p q : Nat} {v v' : PcoAddresses} {r : Int} {s t : PcoScan} {e : PcoEnd}

theorem length_lt (b : PcoBuffer) : b.length < 65536 := b.fits

theorem read_eq (h : i < b.length) : b.read i = .ok (b.octet i) := by
  unfold read octet
  rw [List.getD_eq_getElem?_getD, List.getElem?_eq_getElem h]
  rfl

private theorem bind_read {α : Type} {f : Nat → Except PcoEnd α} (h : i < b.length) :
    (b.read i >>= f) = f (b.octet i) := by
  rw [read_eq h]
  rfl

theorem read_outside (h : b.length ≤ i) : b.read i = .error .outside := by
  unfold read
  rw [List.getElem?_eq_none h]

theorem octet_lt : b.octet i < 256 := UInt8.toNat_lt _

/-- The state in which the function looks for a packet. -/
def atPacket (p : Nat) (v : PcoAddresses) : PcoScan := ⟨p, p, v, .packets⟩

/-- The state in which the function looks for an option. -/
def atOption (b : PcoBuffer) (p q : Nat) (v : PcoAddresses) : PcoScan :=
  ⟨q, q, v, .options (decide (b.octet (p + 3) = aciPcoIpcpConfReq)) (p + 3) (b.octet (p + 2))⟩

theorem round_done (h : b.length ≤ p + aciPcoIpcpOverhead) :
    b.round (atPacket p v) = .error (.returned 0 v) := if_neg (Nat.not_lt_of_le h)

private theorem round_packet (h : p + aciPcoIpcpOverhead < b.length) :
    b.round (atPacket p v) = b.nextPacket (atPacket p v) := if_pos h

/-- The options of a packet begin behind its header. -/
theorem round_conf (h : p + aciPcoIpcpOverhead < b.length) (hconf : b.ConfAt p) :
    b.round (atPacket p v) = .ok (b.atOption p (p + 7) v) := by
  have hfits := b.length_lt
  obtain ⟨hmsb, hlsb, hlen, hin, hcode⟩ := hconf
  unfold aciPcoIpcpOverhead at h
  have hwrap2 : (p + 2) % 65536 = p + 2 := Nat.mod_eq_of_lt (by omega)
  have hwrap3 : (p + 2 + 1) % 65536 = p + 3 := Nat.mod_eq_of_lt (by omega)
  have hwrap7 : (p + 3 + 4) % 65536 = p + 7 := Nat.mod_eq_of_lt (by omega)
  have hlen' : b.octet (p + 2 + 3) * 256 + b.octet (p + 2 + 4) = b.octet (p + 2) := hlen
  rw [round_packet h]
  unfold nextPacket
  rw [bind_read (by simp only [atPacket]; omega), bind_read (by simp only [atPacket]; omega),
    bind_read (by simp only [atPacket]; omega)]
  simp only [atPacket, hmsb, hlsb, and_self, if_true, PcoScan.move, hwrap2, hwrap3, hwrap7]
  rw [bind_read (by omega), bind_read (by omega), bind_read (by omega), if_pos ⟨hlen', by omega⟩,
    bind_read (by omega), hlen']
  unfold atOption
  by_cases hreq : b.octet (p + 2 + 1) = aciPcoIpcpConfReq
  · rw [if_pos hreq, decide_eq_true hreq]
    rfl
  · rw [if_neg hreq, if_pos (hcode.resolve_left hreq), decide_eq_false hreq]
    rfl

/-- Any other packet is skipped. -/
theorem round_skip (h : p + aciPcoIpcpOverhead < b.length) (hconf : ¬b.ConfAt p) :
    b.round (atPacket p v) = .ok ((atPacket p v).move (b.octet (p + 2) + 3)) := by
  have hfits := b.length_lt
  unfold aciPcoIpcpOverhead at h
  have hwrap2 : (p + 2) % 65536 = p + 2 := Nat.mod_eq_of_lt (by omega)
  have hwrap3 : (p + 2 + 1) % 65536 = p + 3 := Nat.mod_eq_of_lt (by omega)
  rw [round_packet h]
  unfold nextPacket
  rw [bind_read (by simp only [atPacket]; omega), bind_read (by simp only [atPacket]; omega),
    bind_read (by simp only [atPacket]; omega)]
  simp only [atPacket, PcoScan.move, hwrap2, hwrap3]
  by_cases hprot : b.octet p = aciPcoIpcpProtMsb ∧ b.octet (p + 1) = aciPcoIpcpProtLsb
  · rw [if_pos hprot, bind_read (by omega), bind_read (by omega), bind_read (by omega)]
    by_cases hlen : b.octet (p + 2 + 3) * 256 + b.octet (p + 2 + 4) = b.octet (p + 2) ∧
        p + 2 + (b.octet (p + 2 + 3) * 256 + b.octet (p + 2 + 4)) < b.length
    · have hin : p + 3 + b.octet (p + 2) ≤ b.length := by omega
      have hcode : ¬IsConfCode (b.octet (p + 3)) := fun hc => hconf ⟨hprot.1, hprot.2, hlen.1, hin, hc⟩
      obtain ⟨hreq, hack⟩ := not_or.1 hcode
      rw [if_pos hlen, bind_read (by omega), if_neg hreq, if_neg hack]
      have hpos : p + 2 + 1 + (b.octet (p + 2) + 3 - 3) = p + (b.octet (p + 2) + 3) := by omega
      rw [hpos]
      rfl
    · have hpos : p + 2 + (b.octet (p + 2) + 3 - 2) = p + (b.octet (p + 2) + 3) := by omega
      rw [if_neg hlen, hpos]
      rfl
  · rw [if_neg hprot]
    rfl

/-- The address at a position. -/
def addressAt (b : PcoBuffer) (i : Nat) : Nat :=
  ((b.octet i * 256 + b.octet (i + 1)) * 256 + b.octet (i + 2)) * 256 + b.octet (i + 3)

private theorem bind_readAddress {α : Type} {f : Nat → Except PcoEnd α} (h : i + 3 < b.length) :
    (b.readAddress i >>= f) = f (b.addressAt i) := by
  unfold readAddress
  rw [bind_read (by omega), bind_read (by omega), bind_read (by omega), bind_read h]
  rfl

/-- The addresses after an option. -/
def optionAt (b : PcoBuffer) (p q : Nat) (v : PcoAddresses) : PcoAddresses :=
  if b.octet (q + 1) = 6 ∧ q + 6 ≤ b.octet (p + 2) + (p + 3) then
    if b.octet (p + 3) = aciPcoIpcpConfReq then
      if b.octet q = aciPcoIpcpTypeIp then { v with gateway := b.addressAt (q + 2) } else v
    else if b.octet q = aciPcoIpcpTypeDns1 then { v with dns1 := b.addressAt (q + 2) }
    else if b.octet q = aciPcoIpcpTypeDns2 then { v with dns2 := b.addressAt (q + 2) }
    else v
  else v

/-- An option is taken over and stepped over. -/
theorem round_option (hconf : b.ConfAt p) (h : q + 1 < p + 3 + b.octet (p + 2)) :
    b.round (b.atOption p q v) =
      .ok { (b.atOption p q v).move (b.octet (q + 1)) with addresses := b.optionAt p q v } := by
  have hin := hconf.2.2.2.1
  have hround : b.round (b.atOption p q v) = b.nextOption (b.atOption p q v)
      (decide (b.octet (p + 3) = aciPcoIpcpConfReq)) (p + 3) (b.octet (p + 2)) :=
    if_pos (by dsimp only [atOption]; omega)
  rw [hround]
  unfold nextOption optionAt
  rw [bind_read (by simp only [atOption]; omega), bind_read (by simp only [atOption]; omega)]
  simp only [atOption, decide_eq_true_eq, aciPcoIpcpLengthIp, aciPcoIpcpLengthDns1, aciPcoIpcpLengthDns2]
  by_cases hlen : b.octet (q + 1) = 6 ∧ q + 6 ≤ b.octet (p + 2) + (p + 3)
  · simp only [hlen, and_true, if_true]
    split_ifs
    · rw [bind_readAddress (by omega)]
      rfl
    · rfl
    · rw [bind_readAddress (by omega)]
      rfl
    · rw [bind_readAddress (by omega)]
      rfl
    · rfl
  · simp only [hlen, and_false, if_false, ite_self]
    rfl

/-- After the options the next packet follows the one that holds them. -/
theorem round_leave (hconf : b.ConfAt p) (hq : q < 65536) (h : p + 3 + b.octet (p + 2) ≤ q + 1) :
    b.round (b.atOption p q v) = .ok (atPacket (p + 3 + b.octet (p + 2)) v) := by
  have hin := hconf.2.2.2.1
  have hfits := b.length_lt
  have hround : b.round (b.atOption p q v) =
      .ok (leaveOptions (b.atOption p q v) (p + 3) (b.octet (p + 2))) := if_neg (by dsimp only [atOption]; omega)
  rw [hround]
  unfold leaveOptions atOption atPacket PcoScan.move
  dsimp only
  split_ifs with hle
  · have hdist : q + (b.octet (p + 2) + (p + 3) - q) % 65536 = p + 3 + b.octet (p + 2) := by
      rw [Nat.mod_eq_of_lt (by omega)]
      omega
    rw [hdist, Nat.mod_eq_of_lt (by omega)]
  · have hback : q - (q - (p + 3) - b.octet (p + 2)) = p + 3 + b.octet (p + 2) := by omega
    rw [hback]

/-! ### Ends of the loop -/

private theorem OptionAt.conf (h : b.OptionAt p q) :
    b.PacketAt p ∧ p + aciPcoIpcpOverhead < b.length ∧ b.ConfAt p := by
  induction h with
  | first hp hlt hconf => exact ⟨hp, hlt, hconf⟩
  | next _ _ ih => exact ih

/-- The states in which the pointer and the counter agree. -/
inductive Kept (b : PcoBuffer) : PcoScan → Prop where
  | packet {p : Nat} {v : PcoAddresses} : b.PacketAt p → p < 65536 → b.Kept (atPacket p v)
  | option {p q : Nat} {v : PcoAddresses} : b.OptionAt p q → q < 65536 → b.Kept (b.atOption p q v)

/-- What the loop has yet to do: the packets that may follow, and the options that may follow in this one. -/
def measure (s : PcoScan) : Nat :=
  match s.loop with
  | .packets => (65536 - s.pos) * 131073 + 131072
  | .options _ startPos _ => (65536 + 3 - startPos) * 131073 + (65536 - s.pos)

private theorem move_atPacket {n : Nat} (h : p + n < 65536) : (atPacket p v).move n = atPacket (p + n) v := by
  unfold PcoScan.move atPacket
  dsimp only
  rw [Nat.mod_eq_of_lt h]

private theorem round_atOption (hconf : b.ConfAt p) (h : q + 1 < p + 3 + b.octet (p + 2))
    (hlt : q + b.octet (q + 1) < 65536) :
    b.round (b.atOption p q v) = .ok (b.atOption p (q + b.octet (q + 1)) (b.optionAt p q v)) := by
  rw [round_option hconf h]
  unfold PcoScan.move atOption
  dsimp only
  rw [Nat.mod_eq_of_lt hlt]

/-- In a steady buffer a round returns, or keeps the pointer and the counter together and comes closer to the end. -/
theorem Steady.round (h : b.Steady) (hs : b.Kept s) :
    (∃ v, b.round s = .error (.returned 0 v)) ∨ ∃ t, b.round s = .ok t ∧ b.Kept t ∧ measure t < measure s := by
  cases hs with
  | @packet p v hp hlt =>
    by_cases hend : p + aciPcoIpcpOverhead < b.length
    · by_cases hconf : b.ConfAt p
      · have hq := b.length_lt
        refine .inr ⟨_, round_conf hend hconf, .option (.first hp hend hconf) ?_, ?_⟩
        · unfold aciPcoIpcpOverhead at hend
          omega
        · unfold measure atOption atPacket
          dsimp only
          omega
      · have hnext := h.packets p hp hend
        refine .inr ⟨atPacket (p + 3 + b.octet (p + 2)) v, ?_, .packet (.next hp hend) hnext, ?_⟩
        · rw [round_skip hend hconf, move_atPacket (by omega), Nat.add_comm _ 3, ← Nat.add_assoc]
        · unfold measure atPacket
          dsimp only
          omega
    · exact .inl ⟨v, round_done (Nat.le_of_not_lt hend)⟩
  | @option p q v hq hlt =>
    obtain ⟨hp, hend, hconf⟩ := hq.conf
    have hin := hconf.2.2.2.1
    have hfits := b.length_lt
    by_cases hmore : q + 1 < p + 3 + b.octet (p + 2)
    · obtain ⟨hpos, hnext⟩ := h.options p q hq hmore
      refine .inr ⟨_, round_atOption hconf hmore hnext, .option (.next hq hmore) hnext, ?_⟩
      unfold measure atOption
      dsimp only
      omega
    · refine .inr ⟨_, round_leave hconf hlt (Nat.le_of_not_lt hmore), .packet (.next hp hend) (by omega), ?_⟩
      unfold measure atOption atPacket
      dsimp only
      omega

theorem Steady.ends (h : b.Steady) (hs : b.Kept s) : ∃ v, Loop.Ends b.round s (.returned 0 v) := by
  generalize hm : measure s = m
  induction m using Nat.strongRecOn generalizing s with
  | _ m ih =>
    rcases h.round hs with ⟨v, hv⟩ | ⟨t, ht, hkept, hlt⟩
    · exact ⟨v, .of_error hv⟩
    · obtain ⟨v, hv⟩ := ih (measure t) (hm ▸ hlt) hkept rfl
      exact ⟨v, ((Loop.Comes.refl t).head ht).ends_iff.2 hv⟩

/-- Behind a packet that ends beyond the 16 bits the function reads outside of the buffer. -/
private theorem packets_of_ends (h : p + aciPcoIpcpOverhead < b.length) (hp : p < 65536)
    (hends : Loop.Ends b.round (atPacket p v) (.returned r v')) : p + 3 + b.octet (p + 2) < 65536 := by
  have hfits := b.length_lt
  by_contra hwrap
  have hconf : ¬b.ConfAt p := fun hc => by
    have hin := hc.2.2.2.1
    omega
  have hlt := @octet_lt b (p + 2)
  unfold aciPcoIpcpOverhead at h
  have hout : b.round ((atPacket p v).move (b.octet (p + 2) + 3)) = .error .outside := by
    have hgo : b.round ((atPacket p v).move (b.octet (p + 2) + 3)) =
        b.nextPacket ((atPacket p v).move (b.octet (p + 2) + 3)) :=
      if_pos (by unfold PcoScan.move atPacket aciPcoIpcpOverhead; dsimp only; omega)
    rw [hgo]
    unfold nextPacket
    rw [read_outside (by unfold PcoScan.move atPacket; dsimp only; omega)]
    rfl
  have hcomes : Loop.Comes b.round (atPacket p v) ((atPacket p v).move (b.octet (p + 2) + 3)) :=
    (Loop.Comes.refl _).head (round_skip h hconf)
  cases (hcomes.ends_iff.1 hends).unique (.of_error hout)

private theorem optionAt_of_zero (h : b.octet (q + 1) = 0) : b.optionAt p q v = v :=
  if_neg fun hc => absurd (h.symm.trans hc.1) (by decide)

/-- An option without length is looked at for ever, and behind one that ends beyond the 16 bits the function reads
outside of the buffer. -/
private theorem options_of_ends (hconf : b.ConfAt p) (hmore : q + 1 < p + 3 + b.octet (p + 2))
    (hends : Loop.Ends b.round (b.atOption p q v) (.returned r v')) :
    b.octet (q + 1) ≠ 0 ∧ q + b.octet (q + 1) < 65536 := by
  have hfits := b.length_lt
  have hin := hconf.2.2.2.1
  constructor
  · intro hzero
    have hstay : b.round (b.atOption p q v) = .ok (b.atOption p q v) := by
      rw [round_atOption hconf hmore (by omega), hzero, optionAt_of_zero hzero, Nat.add_zero]
    exact Loop.not_ends_of_cycle hstay hends
  · by_contra hwrap
    have hlt := @octet_lt b (q + 1)
    have hltp := @octet_lt b (p + 2)
    have hround := round_option hconf hmore (v := v)
    have hmod : (q + b.octet (q + 1)) % 65536 + 1 < b.octet (p + 2) + (p + 3) := by omega
    have hout : b.round { (b.atOption p q v).move (b.octet (q + 1)) with addresses := b.optionAt p q v } =
        .error .outside := by
      have hgo : b.round { (b.atOption p q v).move (b.octet (q + 1)) with addresses := b.optionAt p q v } =
          b.nextOption { (b.atOption p q v).move (b.octet (q + 1)) with addresses := b.optionAt p q v }
            (decide (b.octet (p + 3) = aciPcoIpcpConfReq)) (p + 3) (b.octet (p + 2)) := if_pos hmod
      rw [hgo]
      unfold nextOption
      rw [read_outside (by unfold PcoScan.move atOption; dsimp only; omega)]
      rfl
    cases (((Loop.Comes.refl _).head hround).ends_iff.1 hends).unique (.of_error hout)

/-- A search through the options that ends comes to the next packet. -/
private theorem leaves_options {n : Nat} (hconf : b.ConfAt p) (hq : q < 65536)
    (hends : Loop.after b.round n (b.atOption p q v) = .error (.returned r v')) :
    ∃ u, Loop.Comes b.round (b.atOption p q v) (atPacket (p + 3 + b.octet (p + 2)) u) := by
  induction n generalizing q v with
  | zero => cases hends
  | succ n ih =>
    by_cases hmore : q + 1 < p + 3 + b.octet (p + 2)
    · have hlt := (options_of_ends hconf hmore ⟨n + 1, hends⟩).2
      have hround := round_atOption hconf hmore hlt (v := v)
      rw [Loop.after_succ hround] at hends
      obtain ⟨u, hu⟩ := ih hlt hends
      exact ⟨u, hu.head hround⟩
    · exact ⟨v, (Loop.Comes.refl _).head (round_leave hconf hq (Nat.le_of_not_lt hmore))⟩

section reached
variable (h : Loop.Ends b.round (atPacket 1 v) (.returned r v'))
include h

/-- The loop comes to all positions of packets. -/
private theorem packetAt_reached (hp : b.PacketAt p) :
    p < 65536 ∧ ∃ u, Loop.Comes b.round (atPacket 1 v) (atPacket p u) := by
  induction hp with
  | first => exact ⟨by decide, v, .refl _⟩
  | @next p _ hend ih =>
    obtain ⟨hlt, u, hu⟩ := ih
    have hends := hu.ends_iff.1 h
    have hnext := packets_of_ends hend hlt hends
    refine ⟨hnext, ?_⟩
    by_cases hconf : b.ConfAt p
    · have hround := round_conf hend hconf (v := u)
      have hfits := b.length_lt
      unfold aciPcoIpcpOverhead at hend
      obtain ⟨n, hn⟩ := ((Loop.Comes.refl _).head hround).ends_iff.1 hends
      obtain ⟨w, hw⟩ := leaves_options hconf (by omega) hn
      exact ⟨w, hu.trans (hw.head hround)⟩
    · have hround := round_skip hend hconf (v := u)
      rw [move_atPacket (by omega), Nat.add_comm _ 3, ← Nat.add_assoc] at hround
      exact ⟨u, hu.trans ((Loop.Comes.refl _).head hround)⟩

/-- The loop comes to all positions of options. -/
private theorem optionAt_reached (hq : b.OptionAt p q) :
    q < 65536 ∧ ∃ u, Loop.Comes b.round (atPacket 1 v) (b.atOption p q u) := by
  induction hq with
  | first hp hend hconf =>
    obtain ⟨-, u, hu⟩ := packetAt_reached h hp
    have hfits := b.length_lt
    refine ⟨?_, u, hu.trans ((Loop.Comes.refl _).head (round_conf hend hconf))⟩
    unfold aciPcoIpcpOverhead at hend
    omega
  | @next q hq hmore ih =>
    obtain ⟨-, u, hu⟩ := ih
    have hconf := hq.conf.2.2
    have hlt := (options_of_ends hconf hmore (hu.ends_iff.1 h)).2
    exact ⟨hlt, _, hu.trans ((Loop.Comes.refl _).head (round_atOption hconf hmore hlt))⟩

private theorem steady_of_ends : b.Steady where
  packets p hp hend := by
    obtain ⟨hlt, u, hu⟩ := packetAt_reached h hp
    exact packets_of_ends hend hlt (hu.ends_iff.1 h)
  options p q hq hmore := by
    obtain ⟨-, u, hu⟩ := optionAt_reached h hq
    exact options_of_ends hq.conf.2.2 hmore (hu.ends_iff.1 h)

end reached

/-- The buffer has options: its first octet has the extension bit. -/
def Extended (b : PcoBuffer) : Prop := 0 < b.length ∧ b.octet 0 &&& 0x80 ≠ 0

private theorem begin_extended (h : b.Extended) : b.begin = .ok (atPacket 1 ⟨0, 0, 0⟩) := by
  unfold begin
  rw [if_neg (Nat.not_le_of_lt h.1), bind_read h.1, if_neg h.2]
  rfl

private theorem begin_not_extended (h : ¬b.Extended) : b.begin = .error (.returned (-1) ⟨0, 0, 0⟩) := by
  unfold begin
  split_ifs with hlen
  · rfl
  · have hpos := Nat.lt_of_not_le hlen
    have hbit : b.octet 0 &&& 0x80 = 0 := Decidable.not_not.1 fun hne => h ⟨hpos, hne⟩
    rw [bind_read hpos, if_pos hbit]

private theorem ends_extended (h : b.Extended) : b.Ends e ↔ Loop.Ends b.round (atPacket 1 ⟨0, 0, 0⟩) e := by
  unfold Ends utlAnalyzePco
  rw [begin_extended h]
  rfl

private theorem PacketAt.extended (h : b.PacketAt p) : b.Extended := by
  induction h with
  | first hlen hbit => exact ⟨hlen, hbit⟩
  | next _ _ ih => exact ih

private theorem Steady.of_not_extended (h : ¬b.Extended) : b.Steady where
  packets _ hp := absurd hp.extended h
  options _ _ hq := absurd hq.conf.1.extended h

/-! ### Well-formed options are taken over -/

section encoded
variable {pre rest l : List UInt8} {packet : PcoPacket} {packets : List PcoPacket} {o : PcoOption}
  {options : List PcoOption} {c : IpcpConf}

private theorem octet_append (h : b.octets = pre ++ l) (k : Nat) : b.octet (pre.length + k) = (l.getD k 0).toNat := by
  unfold octet
  rw [h, List.getD_eq_getElem?_getD, List.getD_eq_getElem?_getD, List.getElem?_append_right (Nat.le_add_right _ k),
    Nat.add_sub_cancel_left]

private theorem length_append (h : b.octets = pre ++ l) : b.length = pre.length + l.length := by
  rw [length, h, List.length_append]

private theorem toNat_ofNat {n : Nat} (h : n < 256) : (UInt8.ofNat n).toNat = n := by
  rw [UInt8.toNat_ofNat', Nat.mod_eq_of_lt h]

/-- A packet that is no Configure packet is skipped. -/
private theorem packet_skipped (h : b.octets = pre ++ (packet.encode ++ rest)) (hother : ¬packet.IsConf)
    (hend : pre.length + aciPcoIpcpOverhead < b.length) :
    Loop.Comes b.round (atPacket pre.length v) (atPacket (pre.length + packet.encode.length) v) := by
  have hfits := b.length_lt
  have htotal := length_append h
  rw [List.length_append, packet.length_encode] at htotal
  have hlen : b.octet (pre.length + 2) = packet.contents.length := by
    rw [octet_append h 2]
    exact toNat_ofNat packet.fits
  by_cases hconf : b.ConfAt pre.length
  · have hempty : packet.contents = [] := by
      cases hc : packet.contents with
      | nil => rfl
      | cons code rest' =>
        refine absurd ⟨?_, ?_, code, rest', hc, ?_⟩ hother
        · rw [← hconf.1, ← Nat.add_zero pre.length, octet_append h 0]
          rfl
        · rw [← hconf.2.1, octet_append h 1]
          rfl
        · have hcode := hconf.2.2.2.2
          rw [octet_append h 3] at hcode
          unfold PcoPacket.encode at hcode
          rw [hc] at hcode
          exact hcode
    rw [packet.length_encode, hempty, List.length_nil, Nat.zero_add]
    rw [hempty, List.length_nil] at hlen
    have hleave := round_leave hconf (v := v) (q := pre.length + 7)
      (by unfold aciPcoIpcpOverhead at hend; omega) (by omega)
    rw [hlen, Nat.add_zero] at hleave
    exact ((Loop.Comes.refl _).head hleave).head (round_conf hend hconf)
  · have hround := round_skip hend hconf (v := v)
    rw [hlen, move_atPacket (by omega)] at hround
    exact (Loop.Comes.refl _).head hround

/-- Packets that are no Configure packets are skipped, unless the buffer is too short for another packet. -/
private theorem packets_skipped (h : b.octets = pre ++ (packets.flatMap PcoPacket.encode ++ rest))
    (hothers : ∀ p ∈ packets, ¬p.IsConf) :
    Loop.Comes b.round (atPacket pre.length v) (atPacket (pre.length + (packets.flatMap PcoPacket.encode).length) v) ∨
      Loop.Ends b.round (atPacket pre.length v) (.returned 0 v) ∧ rest.length ≤ aciPcoIpcpOverhead := by
  induction packets generalizing pre with
  | nil => exact .inl (.refl _)
  | cons packet packets ih =>
    by_cases hend : pre.length + aciPcoIpcpOverhead < b.length
    · rw [List.flatMap_cons, List.append_assoc] at h
      have hskip := packet_skipped h (hothers packet List.mem_cons_self) hend (v := v)
      rw [← List.append_assoc] at h
      have hrest := ih h fun p hp => hothers p (List.mem_cons_of_mem packet hp)
      rw [List.length_append] at hrest
      refine hrest.imp (fun hc => ?_) (And.imp_left hskip.ends_iff.2)
      rw [List.flatMap_cons, List.length_append, ← Nat.add_assoc]
      exact hskip.trans hc
    · refine .inr ⟨.of_error (round_done (Nat.le_of_not_lt hend)), ?_⟩
      have htotal := length_append h
      rw [List.length_append] at htotal
      omega

private theorem packets_end (h : b.octets = pre ++ packets.flatMap PcoPacket.encode)
    (hothers : ∀ p ∈ packets, ¬p.IsConf) : Loop.Ends b.round (atPacket pre.length v) (.returned 0 v) := by
  have h' : b.octets = pre ++ (packets.flatMap PcoPacket.encode ++ []) := by rw [List.append_nil, h]
  rcases packets_skipped h' hothers (v := v) with hc | ⟨he, -⟩
  · rw [hc.ends_iff]
    refine .of_error (round_done ?_)
    rw [length_append h]
    exact Nat.le_add_right ..
  · exact he

private theorem address_eq (h : b.octets = pre ++ (o.encode ++ rest)) (type : Nat) :
    o.address type =
      if b.octet (pre.length + 1) = 6 ∧ b.octet pre.length = type then some (b.addressAt (pre.length + 2))
      else none := by
  have hoctet : ∀ k, b.octet (pre.length + k) = ((o.encode ++ rest).getD k 0).toNat := octet_append h
  have htype : b.octet pre.length = o.type.toNat := hoctet 0
  have hlen : b.octet (pre.length + 1) = o.data.length + 2 := (hoctet 1).trans (toNat_ofNat o.fits)
  have haddress : b.addressAt (pre.length + 2) =
      ((((o.data ++ rest).getD 0 0).toNat * 256 + ((o.data ++ rest).getD 1 0).toNat) * 256 +
        ((o.data ++ rest).getD 2 0).toNat) * 256 + ((o.data ++ rest).getD 3 0).toNat := by
    unfold addressAt
    rw [hoctet 2, Nat.add_assoc, hoctet 3, Nat.add_assoc, hoctet 4, Nat.add_assoc, hoctet 5]
    rfl
  rw [htype, hlen, haddress]
  unfold PcoOption.address
  rcases o.data with _ | ⟨a0, _ | ⟨a1, _ | ⟨a2, _ | ⟨a3, _ | ⟨a4, data⟩⟩⟩⟩⟩ <;> simp

/-- The addresses after an option, from what the option carries. -/
private theorem optionAt_eq (h : b.octets = pre ++ (o.encode ++ rest))
    (hin : pre.length + o.encode.length ≤ p + 3 + b.octet (p + 2)) :
    b.optionAt p pre.length v = v.take (decide (b.octet (p + 3) = aciPcoIpcpConfReq)) o := by
  have hlen : b.octet (pre.length + 1) = o.data.length + 2 := (octet_append h 1).trans (toNat_ofNat o.fits)
  rw [o.length_encode] at hin
  unfold optionAt PcoAddresses.take
  simp only [address_eq h, decide_eq_true_eq]
  by_cases hsix : b.octet (pre.length + 1) = 6
  · have hfits : pre.length + 6 ≤ b.octet (p + 2) + (p + 3) := by omega
    have hdns : aciPcoIpcpTypeDns1 ≠ aciPcoIpcpTypeDns2 := by decide
    simp only [hsix, hfits, and_self, true_and, if_true]
    split_ifs with h1 h2 h3 h4 h5
    · rfl
    · rfl
    · exact absurd (h3.symm.trans h4) hdns
    · rfl
    · rfl
    · rfl
  · simp only [hsix, false_and, if_false, Option.getD_none]
    split_ifs <;> rfl

/-- All options of a packet are taken over. -/
private theorem options_taken (hconf : b.ConfAt p)
    (h : b.octets = pre ++ (options.flatMap PcoOption.encode ++ rest))
    (hend : pre.length + (options.flatMap PcoOption.encode).length = p + 3 + b.octet (p + 2)) :
    Loop.Comes b.round (b.atOption p pre.length v) (b.atOption p (p + 3 + b.octet (p + 2))
      (options.foldl (PcoAddresses.take (decide (b.octet (p + 3) = aciPcoIpcpConfReq))) v)) := by
  have hfits := b.length_lt
  have hin := hconf.2.2.2.1
  induction options generalizing pre v with
  | nil =>
    rw [← hend]
    exact .refl _
  | cons o options ih =>
    rw [List.flatMap_cons, List.append_assoc] at h
    rw [List.flatMap_cons, List.length_append, o.length_encode] at hend
    have hlen : b.octet (pre.length + 1) = o.data.length + 2 := (octet_append h 1).trans (toNat_ofNat o.fits)
    have hround := round_atOption hconf (v := v) (q := pre.length) (by omega) (by omega)
    rw [optionAt_eq h (by rw [o.length_encode]; omega), hlen, ← o.length_encode, ← List.length_append] at hround
    rw [← List.append_assoc] at h
    refine (ih h ?_).head hround
    rw [List.length_append, o.length_encode]
    omega

/-- What the options of a request carry. -/
private theorem foldl_take_request :
    options.foldl (PcoAddresses.take true) v =
      { v with gateway := ((options.filterMap (PcoOption.address aciPcoIpcpTypeIp)).getLast?).getD v.gateway } := by
  induction options using List.reverseRecOn with
  | nil => rfl
  | append_singleton options o ih =>
    rw [List.foldl_append, ih, List.filterMap_append]
    unfold PcoAddresses.take
    cases ho : o.address aciPcoIpcpTypeIp <;> simp [ho]

/-- What the options of an answer carry. -/
private theorem foldl_take_answer :
    options.foldl (PcoAddresses.take false) v =
      { v with
        dns1 := ((options.filterMap (PcoOption.address aciPcoIpcpTypeDns1)).getLast?).getD v.dns1
        dns2 := ((options.filterMap (PcoOption.address aciPcoIpcpTypeDns2)).getLast?).getD v.dns2 } := by
  induction options using List.reverseRecOn with
  | nil => rfl
  | append_singleton options o ih =>
    rw [List.foldl_append, ih, List.filterMap_append, List.filterMap_append]
    unfold PcoAddresses.take
    cases h1 : o.address aciPcoIpcpTypeDns1 <;> cases h2 : o.address aciPcoIpcpTypeDns2 <;> simp [h1, h2]

private theorem foldl_take (c : IpcpConf) :
    c.options.foldl (PcoAddresses.take (decide (c.code.toNat = aciPcoIpcpConfReq))) ⟨0, 0, 0⟩ = c.addresses := by
  unfold IpcpConf.addresses
  split_ifs with hreq
  · rw [decide_eq_true hreq, foldl_take_request]
    rfl
  · rw [decide_eq_false hreq, foldl_take_answer]
    rfl

/-- The loop comes behind a well-formed Configure packet with the addresses that it carries. -/
private theorem conf_taken (h : b.octets = pre ++ (c.packet.encode ++ rest))
    (hend : pre.length + aciPcoIpcpOverhead < b.length) :
    Loop.Comes b.round (atPacket pre.length ⟨0, 0, 0⟩)
      (atPacket (pre.length + c.packet.encode.length) c.addresses) := by
  have hfits := b.length_lt
  have htotal := length_append h
  have hcontents : c.packet.contents.length = (c.options.flatMap PcoOption.encode).length + 4 := rfl
  rw [List.length_append, c.packet.length_encode, hcontents] at htotal
  have hlen : b.octet (pre.length + 2) = (c.options.flatMap PcoOption.encode).length + 4 :=
    (octet_append h 2).trans (toNat_ofNat c.fits)
  have hcode : b.octet (pre.length + 3) = c.code.toNat := octet_append h 3
  have hlow : b.octet (pre.length + 6) = (c.options.flatMap PcoOption.encode).length + 4 :=
    (octet_append h 6).trans (toNat_ofNat c.fits)
  have hhigh : b.octet (pre.length + 5) = 0 := octet_append h 5
  have hconf : b.ConfAt pre.length := by
    refine ⟨octet_append h 0, octet_append h 1, ?_, ?_, hcode ▸ c.isConf⟩
    · rw [hhigh, hlow, hlen, Nat.zero_mul, Nat.zero_add]
    · omega
  have hsplit : b.octets = (pre ++ c.packet.encode.take 7) ++ (c.options.flatMap PcoOption.encode ++ rest) := by
    rw [h, List.append_assoc]
    rfl
  have hpos : (pre ++ c.packet.encode.take 7).length = pre.length + 7 := List.length_append
  have htaken := options_taken hconf hsplit (v := ⟨0, 0, 0⟩) (by omega)
  rw [hpos, hcode, foldl_take, hlen] at htaken
  have hleave := round_leave hconf (v := c.addresses) (q := pre.length + 3 + b.octet (pre.length + 2)) (by omega)
    (by omega)
  rw [hlen] at hleave
  have hlength : pre.length + c.packet.encode.length =
      pre.length + 3 + ((c.options.flatMap PcoOption.encode).length + 4) := by
    rw [c.packet.length_encode, hcontents]
    omega
  rw [hlength]
  exact (htaken.trans ((Loop.Comes.refl _).head hleave)).head (round_conf hend hconf)

/-- A Configure packet without room for an option carries nothing. -/
private theorem addresses_of_short (h : c.packet.encode.length ≤ aciPcoIpcpOverhead) : c.addresses = ⟨0, 0, 0⟩ := by
  have hcontents : c.packet.contents.length = (c.options.flatMap PcoOption.encode).length + 4 := rfl
  rw [c.packet.length_encode, hcontents] at h
  unfold aciPcoIpcpOverhead at h
  have hnone : c.options = [] := by
    cases hc : c.options with
    | nil => rfl
    | cons o options =>
      rw [hc, List.flatMap_cons, List.length_append, o.length_encode] at h
      omega
  rw [← foldl_take, hnone]
  rfl

/-- Well-formed options: the function returns the addresses that they carry. -/
theorem ends_encoded (p : Pco) (h : p.encode = b.octets) : b.Ends (.returned 0 p.addresses) := by
  have hext : b.Extended := by
    unfold Extended octet length
    rw [← h]
    exact ⟨Nat.succ_pos _, p.extension⟩
  rw [ends_extended hext]
  have hbefore := fun q hq => p.others q (List.mem_append_left _ hq)
  have hafter := fun q hq => p.others q (List.mem_append_right _ hq)
  unfold Pco.encode at h
  cases hc : p.conf with
  | none =>
    have haddr : p.addresses = ⟨0, 0, 0⟩ := by
      unfold Pco.addresses
      rw [hc]
      rfl
    have hsplit : b.octets = [p.protocol] ++ (p.before ++ p.after).flatMap PcoPacket.encode := by
      rw [← h, hc]
      simp
    rw [haddr]
    exact packets_end hsplit p.others
  | some c =>
    have haddr : p.addresses = c.addresses := by
      unfold Pco.addresses
      rw [hc]
      rfl
    have hsplit : b.octets = [p.protocol] ++ (p.before.flatMap PcoPacket.encode ++
        (c.packet.encode ++ p.after.flatMap PcoPacket.encode)) := by
      rw [← h, hc]
      simp
    rw [haddr]
    rcases packets_skipped hsplit hbefore (v := ⟨0, 0, 0⟩) with hskip | ⟨hends, hshort⟩
    · refine hskip.ends_iff.2 ?_
      rw [← List.append_assoc] at hsplit
      rw [← List.length_append]
      by_cases hend : ([p.protocol] ++ p.before.flatMap PcoPacket.encode).length + aciPcoIpcpOverhead < b.length
      · refine (conf_taken hsplit hend).ends_iff.2 ?_
        rw [← List.append_assoc] at hsplit
        rw [← List.length_append]
        exact packets_end hsplit hafter
      · have htotal := length_append hsplit
        have hsum : (c.packet.encode ++ p.after.flatMap PcoPacket.encode).length =
            c.packet.encode.length + (p.after.flatMap PcoPacket.encode).length := List.length_append
        rw [addresses_of_short (by omega)]
        exact .of_error (round_done (Nat.le_of_not_lt hend))
    · rw [List.length_append] at hshort
      rw [addresses_of_short (Nat.le_trans (Nat.le_add_right ..) hshort)]
      exact hends

end encoded

/-- The function returns, reads octets of the buffer only, and takes the addresses of well-formed options over exactly
when no option that it looks at has length 0, and no packet or option ends beyond 16 bits. -/
theorem analyzed_iff_steady (b : PcoBuffer) : b.Analyzed ↔ b.Steady := by
  constructor
  · rintro ⟨⟨result, addresses, hends⟩, -⟩
    by_cases hext : b.Extended
    · exact steady_of_ends ((ends_extended hext).1 hends)
    · exact .of_not_extended hext
  · intro h
    refine ⟨?_, fun p hp => ends_encoded p hp⟩
    by_cases hext : b.Extended
    · obtain ⟨v, hv⟩ := h.ends (.packet (.first hext.1 hext.2) (by decide))
      exact ⟨0, v, (ends_extended hext).2 hv⟩
    · exact ⟨-1, ⟨0, 0, 0⟩, 0, by rw [utlAnalyzePco, begin_not_extended hext]; rfl⟩

/-- A Configure-Ack with an option of length 0. -/
def zeroLength : PcoBuffer := ⟨[0x80, 0x80, 0x21, 6, 2, 1, 0, 6, 129, 0], by decide⟩

/-- The search through its options does not end. -/
theorem zeroLength_endless : (∀ e, ¬zeroLength.Ends e) ∧ ¬zeroLength.Analyzed := by
  have hbegin : zeroLength.begin = .ok (atPacket 1 ⟨0, 0, 0⟩) := by rfl
  have hround : zeroLength.round (atPacket 1 ⟨0, 0, 0⟩) = .ok (zeroLength.atOption 1 8 ⟨0, 0, 0⟩) := by
    decide +kernel
  have hstay : zeroLength.round (zeroLength.atOption 1 8 ⟨0, 0, 0⟩) = .ok (zeroLength.atOption 1 8 ⟨0, 0, 0⟩) := by
    decide +kernel
  have hnever : ∀ e, ¬zeroLength.Ends e := by
    rintro e ⟨n, hn⟩
    rw [utlAnalyzePco, hbegin] at hn
    exact Loop.not_ends_of_cycle hstay (((Loop.Comes.refl _).head hround).ends_iff.1 ⟨n, hn⟩)
  refine ⟨hnever, ?_⟩
  rintro ⟨⟨r, v, hends⟩, -⟩
  exact hnever _ hends

end PcoBuffer

end Citrine.Aci
