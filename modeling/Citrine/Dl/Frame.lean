/-!
# LAPDm frames

The three header octets of a frame of format A or B, the `GET_` macros that read them (`dl.h`),
`com_build_frame`, which is the only place where a frame is written (`dl_com.c`), and `frame_validation`
(`dl_state.c`).  The key facts are the read-back lemmas: what the macros read in a frame that
`comBuildFrame` built.
-/

namespace Citrine.Dl

/-- One octet. -/
abbrev Octet := BitVec 8

/-- The layer 2 channel types `L2_CHANNEL_SACCH`, `_SDCCH`, `_FACCH_H`, `_FACCH_F`. -/
inductive ChType where
  | sacch | sdcch | facchH | facchF
  deriving DecidableEq, Repr

/-- The service access points DL handles. -/
inductive Sapi where
  | sapi0 | sapi3
  deriving DecidableEq, Repr

/-- The SAPI field of the address octet. -/
def Sapi.code : Sapi → Octet
  | .sapi0 => 0
  | .sapi3 => 3

/-- `DL_N201_DCCH_A_B` and `DL_N201_SACCH_A_B`: the octets of an information field. -/
def n201 : ChType → Nat
  | .sacch => 18
  | _ => 20

theorem n201_pos (ch : ChType) : 0 < n201 ch := by
  cases ch <;> decide

/-- A frame: address, control and length octet, and the octets behind them (the fill included). -/
structure Frame where
  addr : Octet
  ctrl : Octet
  len : Octet
  info : List Octet
  deriving DecidableEq, Repr

/-! ### The `GET_` macros -/

/-- The frame formats; `I_FORMAT` and `I1_FORMAT` are one. -/
inductive Format where
  | i | s | u
  deriving DecidableEq, Repr

/-- `GET_LENGTH_INDICATOR` -/
def Frame.lengthIndicator (f : Frame) : Nat := ((f.len &&& 0xFC#8) >>> 2).toNat

/-- `GET_P_BIT` -/
def Frame.pBit (f : Frame) : Bool := (f.ctrl &&& 0x10#8) != 0#8

/-- `GET_M_BIT` -/
def Frame.mBit (f : Frame) : Bool := (f.len &&& 0x02#8) != 0#8

/-- `GET_RECEIVE_NUMBER` -/
def Frame.receiveNumber (f : Frame) : Nat := ((f.ctrl &&& 0xE0#8) >>> 5).toNat

/-- `GET_SEND_NUMBER` -/
def Frame.sendNumber (f : Frame) : Nat := ((f.ctrl &&& 0x0E#8) >>> 1).toNat

/-- `GET_SAPI` -/
def Frame.sapiField (f : Frame) : Octet := (f.addr &&& 0x1C#8) >>> 2

/-- `GET_EA` -/
def Frame.ea (f : Frame) : Bool := (f.addr &&& 1#8) != 0#8

/-- `GET_EL` -/
def Frame.el (f : Frame) : Bool := (f.len &&& 1#8) != 0#8

/-- `GET_CR`; on the downlink a set bit marks a command. -/
def Frame.cr (f : Frame) : Bool := (f.addr &&& 2#8) != 0#8

/-- `GET_FORMAT_TYPE` -/
def Frame.formatType (f : Frame) : Format :=
  if f.ctrl &&& 3#8 = 1#8 then .s else if f.ctrl &&& 3#8 = 3#8 then .u else .i

/-- `GET_S_TYPE` -/
def Frame.sType (f : Frame) : Octet := f.ctrl &&& 0x0F#8

/-- `GET_U_TYPE` -/
def Frame.uType (f : Frame) : Octet := f.ctrl &&& 0xEF#8

/-- The information field: as many octets as the length indicator says. -/
def Frame.infoField (f : Frame) : List Octet := f.info.take f.lengthIndicator

/-! ### The frame types -/

def iFrame : Octet := 0x00
def rrFrame : Octet := 0x01
def rnrFrame : Octet := 0x05
def rejFrame : Octet := 0x09
def discFrame : Octet := 0x43
def sabmFrame : Octet := 0x2F
def uiFrame : Octet := 0x03
def dmFrame : Octet := 0x0F
def uaFrame : Octet := 0x63

/-! ### Building a frame -/

/-- The address octet of `com_build_frame`. -/
def addrOctet (sapi : Sapi) (cr : Bool) : Octet :=
  (sapi.code <<< 2) ||| ((BitVec.ofBool cr).setWidth 8 <<< 1) ||| 1#8

/-- The control octet of `com_build_frame`, by the two low bits of the frame type. -/
def ctrlOctet (type : Octet) (ns nr : Nat) (pBit : Bool) : Octet :=
  let n := BitVec.ofNat 8 nr
  let p := (BitVec.ofBool pBit).setWidth 8
  if type &&& 1#8 = 0#8 then (n <<< 5) ||| (p <<< 4) ||| (BitVec.ofNat 8 ns <<< 1)
  else if type &&& 2#8 = 0#8 then (n <<< 5) ||| (p <<< 4) ||| type
  else (p <<< 4) ||| type

/-- The length octet of `com_build_frame`. -/
def lenOctet (length : Nat) (mBit : Bool) : Octet :=
  (BitVec.ofNat 8 length <<< 2) ||| ((BitVec.ofBool mBit).setWidth 8 <<< 1) ||| 1#8

/-- `com_build_frame`.  `length` is an octet and is cut to the N201 of the channel; behind the information
field the frame is filled with `0x2b`. -/
def comBuildFrame (ch : ChType) (type : Octet) (sapi : Sapi) (cr : Bool) (ns nr : Nat) (pBit : Bool)
    (length : Nat) (mBit : Bool) (pInfoBuffer : List Octet) : Frame :=
  let maxlength := n201 ch
  let length := min (length % 256) maxlength
  { addr := addrOctet sapi cr
    ctrl := ctrlOctet type ns nr pBit
    len := lenOctet length mBit
    info := pInfoBuffer.take length ++ List.replicate (maxlength - length) 0x2B#8 }

/-- `MS2BS_CMD` and `MS2BS_RSP`: on the uplink a command has a cleared C/R bit. -/
def ms2bsCmd : Bool := false
def ms2bsRsp : Bool := true

/-- `com_build_I_command` over the transmit buffer. -/
def comBuildICommand (ch : ChType) (sapi : Sapi) (ns nr : Nat) (pBit mBit : Bool) (transmit : List Octet) :
    Frame :=
  comBuildFrame ch iFrame sapi ms2bsCmd ns nr pBit transmit.length mBit transmit

/-- `com_build_RR_response` -/
def comBuildRRResponse (ch : ChType) (sapi : Sapi) (nr : Nat) (fBit : Bool) : Frame :=
  comBuildFrame ch rrFrame sapi ms2bsRsp 0 nr fBit 0 false []

/-- `com_build_REJ_response` -/
def comBuildREJResponse (ch : ChType) (sapi : Sapi) (nr : Nat) (fBit : Bool) : Frame :=
  comBuildFrame ch rejFrame sapi ms2bsRsp 0 nr fBit 0 false []

/-- `com_build_UA_response` -/
def comBuildUAResponse (ch : ChType) (sapi : Sapi) (fBit : Bool) : Frame :=
  comBuildFrame ch uaFrame sapi ms2bsRsp 0 0 fBit 0 false []

/-- `com_build_DM_response` -/
def comBuildDMResponse (ch : ChType) (sapi : Sapi) (fBit : Bool) : Frame :=
  comBuildFrame ch dmFrame sapi ms2bsRsp 0 0 fBit 0 false []

/-- `com_build_DISC_command` -/
def comBuildDISCCommand (ch : ChType) (sapi : Sapi) (pBit : Bool) : Frame :=
  comBuildFrame ch discFrame sapi ms2bsCmd 0 0 pBit 0 false []

/-- `com_build_SABM`: the layer 3 message goes along in the contention resolution procedure only. -/
def comBuildSABM (ch : ChType) (sapi : Sapi) (l3 : Option (List Octet)) : Frame :=
  match l3 with
  | some msg => comBuildFrame ch sabmFrame sapi ms2bsCmd 0 0 true msg.length false msg
  | none => comBuildFrame ch sabmFrame sapi ms2bsCmd 0 0 true 0 false []

/-! ### What the macros read in a built frame -/

section
variable {ch : ChType} {sapi : Sapi} {cr p m : Bool} {ns nr length : Nat} {type : Octet} {buf : List Octet}

@[simp] theorem comBuildFrame_mBit : (comBuildFrame ch type sapi cr ns nr p length m buf).mBit = m := by
  have key : ∀ (x : Octet) (b : Bool),
      (((x <<< 2) ||| ((BitVec.ofBool b).setWidth 8 <<< 1) ||| 1#8) &&& 0x02#8 != 0#8) = b := by decide
  exact key _ _

private theorem length_octet (n : Nat) (b : Bool) (h : n < 64) :
    ((lenOctet n b &&& 0xFC#8) >>> 2).toNat = n := by
  have key : ∀ (i : Fin 64) (b : Bool), ((lenOctet i b &&& 0xFC#8) >>> 2).toNat = i := by decide
  exact key ⟨n, h⟩ b

theorem comBuildFrame_lengthIndicator (h : length ≤ n201 ch) :
    (comBuildFrame ch type sapi cr ns nr p length m buf).lengthIndicator = length := by
  have hn : n201 ch ≤ 20 := by cases ch <;> decide
  have hl : min (length % 256) (n201 ch) = length := by omega
  have hlen : (comBuildFrame ch type sapi cr ns nr p length m buf).len = lenOctet length m := by
    simp only [comBuildFrame, hl]
  unfold Frame.lengthIndicator
  rw [hlen]
  exact length_octet length m (by omega)

/-- The information field of a built frame is what was put into it. -/
theorem comBuildFrame_infoField (h : buf.length ≤ n201 ch) :
    (comBuildFrame ch type sapi cr ns nr p buf.length m buf).infoField = buf := by
  have hn : n201 ch ≤ 20 := by cases ch <;> decide
  have hl : min (buf.length % 256) (n201 ch) = buf.length := by omega
  unfold Frame.infoField
  rw [comBuildFrame_lengthIndicator h]
  unfold comBuildFrame
  simp [hl]

/-- The control octet of an I frame. -/
theorem iFrame_ctrl (hs : ns < 8) (hr : nr < 8) :
    let f := comBuildFrame ch iFrame sapi cr ns nr p length m buf
    f.formatType = .i ∧ f.sendNumber = ns ∧ f.receiveNumber = nr ∧ f.pBit = p := by
  have key : ∀ (s r : Fin 8) (p : Bool), let c := ctrlOctet iFrame s r p
      ((if c &&& 3#8 = 1#8 then Format.s else if c &&& 3#8 = 3#8 then .u else .i) = .i) ∧
      ((c &&& 0x0E#8) >>> 1).toNat = s ∧ ((c &&& 0xE0#8) >>> 5).toNat = r ∧ (c &&& 0x10#8 != 0#8) = p := by
    decide
  exact key ⟨ns, hs⟩ ⟨nr, hr⟩ p

end

/-! ### `frame_validation` -/

/-- The causes of `mdl_error_ind`. -/
inductive MdlCause where
  | t200ExpiredN200Plus1Times | unsolicitedUaResponse | unsolicitedDmResponse
  | unsolicitedDmResponseAbnormalRel | unsolicitedSupervisoryResponse | sequenceError
  | uFrameWithIncorrectParameters | sFrameWithIncorrectParameters | iFrameWithIncorrectUseOfMBit
  | iFrameWithIncorrectLength | frameNotImplemented
  deriving DecidableEq, Repr

/-- `frame_validation`: the error cause of an invalid frame, `none` for a valid one. -/
def frameValidation (ch : ChType) (f : Frame) : Option MdlCause :=
  if !f.ea then some .frameNotImplemented
  else if !f.el then some .frameNotImplemented
  else
    let frameLength := f.lengthIndicator
    let frameMBit := f.mBit
    match f.formatType with
    | .i =>
      if frameLength > n201 ch ∨ frameLength = 0 then some .iFrameWithIncorrectLength
      else if frameLength < n201 ch ∧ frameMBit then some .iFrameWithIncorrectUseOfMBit
      else none
    | .s =>
      if frameLength ≠ 0 ∨ frameMBit then some .sFrameWithIncorrectParameters
      else if f.ctrl &&& 0x0F#8 = 0x0D#8 then some .frameNotImplemented
      else none
    | .u =>
      if f.uType = dmFrame ∨ f.uType = discFrame then
        if frameLength ≠ 0 ∨ frameMBit then some .uFrameWithIncorrectParameters else none
      else if f.uType = uaFrame ∨ f.uType = sabmFrame ∨ f.uType = uiFrame then
        if frameLength > n201 ch ∨ frameMBit then some .uFrameWithIncorrectParameters else none
      else some .frameNotImplemented

end Citrine.Dl
