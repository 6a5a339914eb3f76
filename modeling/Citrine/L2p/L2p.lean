import Mathlib.Algebra.GroupWithZero.Nat
import Citrine.Lib.While

/-!
# The layer 2 of the binary AT interface

`l2p.c`: `L2P_Send` cuts a tag and its data into frames, and `L2P_Receive` puts them together again.  The buffers come in
segments; a segment to be sent is given by its size, a received one by its octets, and `Get_Next_Seg_Cb` by the list of
the segments to come.
-/

namespace Citrine.L2p

open While

/-! ### The frame control bytes -/

/-- `T_L2P_STATUS` -/
inductive Status where
  | success | unknownError | invalidParameter | unableToGetBuffer
  deriving DecidableEq, Repr

/-- `T_L2P_FRAME_TYPE` -/
inductive FrameType where
  | unknown | start | continuation | «end» | complete
  deriving DecidableEq, Repr

def FrameType.code : FrameType → Nat
  | .unknown => 0
  | .start => 1
  | .continuation => 2
  | .end => 3
  | .complete => 4

def FrameType.ofCode : Nat → FrameType
  | 1 => .start
  | 2 => .continuation
  | 3 => .end
  | 4 => .complete
  | _ => .unknown

/-- The octets of a `U16` in memory. -/
def octets16 (n : Nat) : List Nat := [n % 256, n / 256 % 256]

/-- The octets of a `U32` in memory. -/
def octets32 (n : Nat) : List Nat := [n % 256, n / 256 % 256, n / 65536 % 256, n / 16777216 % 256]

/-- The number that some octets in memory are. -/
def ofOctets : List Nat → Nat
  | [] => 0
  | c :: cs => c + 256 * ofOctets cs

/-- `T_L2P_FRAME_CONTROL_BYTES` -/
structure FrameControlBytes where
  frameType : FrameType
  frameId : Nat
  protocolId : Nat
  muxId : Nat
  dataLen : Nat
  frameLen : Nat
  deriving DecidableEq, Repr

/-- `L2P_FRAME_CONTROL_SIZE` -/
def frameControlSize : Nat := 8

def FrameControlBytes.octets (c : FrameControlBytes) : List Nat :=
  [c.frameType.code, c.frameId % 256, c.protocolId % 256, c.muxId % 256] ++ octets16 c.dataLen ++ octets16 c.frameLen

def FrameControlBytes.ofOctets (o : List Nat) : FrameControlBytes where
  frameType := .ofCode (o.getD 0 0)
  frameId := o.getD 1 0
  protocolId := o.getD 2 0
  muxId := o.getD 3 0
  dataLen := L2p.ofOctets ((o.drop 4).take 2)
  frameLen := L2p.ofOctets ((o.drop 6).take 2)

/-! ### Sending -/

/-- The transmit buffer: whether the write pointer is not `NULL`, the sizes that are counted, the segments to come, and the
octets that have been written. -/
structure TxBuf where
  txWritePtr : Bool
  remainingSegSize : Nat
  totalSegSize : Nat
  segs : List Nat
  frame : List Nat
  deriving DecidableEq, Repr

namespace TxBuf
variable (b : TxBuf)

/-- `L2P_write_data_to_seg`, with the number of octets that have been written -/
def write (dataPtr : List Nat) (dataSize : Nat) : TxBuf × Nat :=
  let bytesWritten := if b.remainingSegSize ≤ dataSize then b.remainingSegSize else dataSize
  ({ b with
      txWritePtr := !decide (b.remainingSegSize ≤ dataSize)
      remainingSegSize := b.remainingSegSize - bytesWritten
      frame := b.frame ++ dataPtr.take bytesWritten }, bytesWritten)

/-- `Get_Next_Seg_Cb` -/
def nextSeg : TxBuf :=
  match b.segs with
  | [] => { b with txWritePtr := false, remainingSegSize := 0 }
  | z :: zs =>
    { b with txWritePtr := true, remainingSegSize := z, totalSegSize := b.totalSegSize + z, segs := zs }

end TxBuf

/-- The loop over the frame control bytes. -/
def writeCntrl : Nat → TxBuf → List Nat → TxBuf
  | 0, b, _ => b
  | _ + 1, b, [] => b
  | n + 1, b, c :: cs =>
    let r := b.write (c :: cs) (cs.length + 1)
    writeCntrl n (if r.1.txWritePtr then r.1 else r.1.nextSeg) ((c :: cs).drop r.2)

/-- The variables of `L2P_Send`; a pointer is the list of the octets from it on, and `none` is `NULL`. -/
structure Sender where
  bytesRemainingToBeSent : Nat
  frameType : FrameType
  frameId : Nat
  bytesToBeWritten : Nat
  dataToBeWritten : Option (List Nat)
  cmdTagWritten : Bool
  totalBufSize : Nat
  buf : TxBuf
  deriving DecidableEq, Repr

/-- What is to be sent. -/
structure Message where
  muxId : Nat
  dataTag : Nat
  dataBuf : Option (List Nat)

namespace Message
variable (m : Message)

/-- The data, empty for a `NULL` pointer. -/
def data : List Nat := m.dataBuf.getD []

/-- `dataLen` -/
def dataLen : Nat := m.data.length

end Message

namespace Sender
variable (m : Message) (s : Sender)

/-- The body of the loops over the tag and over the data. -/
def body : Sender :=
  let r := s.buf.write (s.dataToBeWritten.getD []) s.bytesToBeWritten
  let t : Sender := { s with
    buf := if !r.1.txWritePtr && decide (r.1.totalSegSize < s.totalBufSize) then r.1.nextSeg else r.1
    bytesToBeWritten := s.bytesToBeWritten - r.2
    dataToBeWritten := s.dataToBeWritten.map (·.drop r.2)
    bytesRemainingToBeSent := (s.bytesRemainingToBeSent + 65536 - r.2) % 65536 }
  if t.bytesToBeWritten = 0 ∧ t.cmdTagWritten = false then
    { t with cmdTagWritten := true, dataToBeWritten := m.dataBuf, bytesToBeWritten := m.dataLen }
  else t

/-- The rounds that a loop over the segments may take. -/
def rounds : Nat := s.buf.segs.length + 4

/-- The tag is still to be written, and there is room in the segment. -/
def tagOpen : Bool := s.buf.txWritePtr && !s.cmdTagWritten

/-- There are data to be written, and there is room in the segment. -/
def dataOpen : Bool := decide (0 < s.bytesToBeWritten) && s.buf.txWritePtr

/-- The loop over the tag. -/
def tagLoop : Sender := loop tagOpen (body m) s.rounds s

/-- The loop over the data. -/
def dataLoop : Sender := loop dataOpen (body m) s.rounds s

/-- The type of the frame, for a buffer of a size. -/
def nextType (totalBufSize : Nat) : FrameType :=
  if s.bytesRemainingToBeSent + frameControlSize ≤ totalBufSize then
    if s.frameType = .unknown then .complete else .end
  else if s.frameType = .unknown then .start
  else .continuation

/-- The frame control bytes of a frame. -/
def cntrlBytes (totalBufSize : Nat) : FrameControlBytes where
  frameType := s.nextType totalBufSize
  frameId := s.frameId
  protocolId := 0
  muxId := m.muxId
  dataLen := m.dataLen
  frameLen :=
    if s.bytesRemainingToBeSent + frameControlSize ≤ totalBufSize then
      (s.bytesRemainingToBeSent + frameControlSize) % 65536
    else totalBufSize

/-- A frame is begun in a new buffer with its frame control bytes. -/
def beginFrame (segSize : Nat) (segs : List Nat) : Sender :=
  let totalBufSize := segSize + segs.sum
  { s with
    frameType := s.nextType totalBufSize
    totalBufSize := totalBufSize
    buf := writeCntrl (segs.length + 2) ⟨true, segSize, segSize, segs, []⟩ (s.cntrlBytes m totalBufSize).octets }

/-- The tag is begun in a frame that starts a message. -/
def beginTag : Sender :=
  if s.frameType = .complete ∨ s.frameType = .start then
    tagLoop m { s with bytesToBeWritten := 4, dataToBeWritten := some (octets32 m.dataTag) }
  else s

end Sender

/-- The buffers that `Get_TxBuf_Cb` gives for the frames, with the sizes of their segments (none is a `NULL` pointer), and
what `Send_Frame_Cb` returns. -/
structure TxCallbacks where
  getTxBuf : (frame : Nat) → (frameSizeReq : Nat) → List Nat
  sendFrame : (frame : Nat) → Int

/-- The size of the buffer that is requested. -/
def frameSizeReq (maxMTU bytesRemainingToBeSent : Nat) : Nat :=
  if maxMTU < bytesRemainingToBeSent + frameControlSize then maxMTU else bytesRemainingToBeSent + frameControlSize

/-- The loop of `L2P_Send` over the frames, with the frames that have been sent. -/
def sendLoop (cb : TxCallbacks) (maxMTU : Nat) (m : Message) : Nat → Nat → Sender → List (List Nat) →
    Option (List (List Nat) × Status)
  | 0, _, _, _ => none
  | n + 1, i, s, frames =>
    if s.bytesRemainingToBeSent = 0 then some (frames, .success)
    else
      match cb.getTxBuf i (frameSizeReq maxMTU s.bytesRemainingToBeSent) with
      | [] => some (frames, .unableToGetBuffer)
      | segSize :: segs =>
        let s := (s.beginFrame m segSize segs).beginTag m
        if s.dataToBeWritten = none then some (frames, .invalidParameter)
        else
          let s := s.dataLoop m
          if cb.sendFrame i ≠ 0 then some (frames ++ [s.buf.frame], .unknownError)
          else sendLoop cb maxMTU m n (i + 1) { s with frameId := (s.frameId + 1) % 256 } (frames ++ [s.buf.frame])

/-- The variables of `L2P_Send` before its loop. -/
def Message.sender (m : Message) : Sender where
  bytesRemainingToBeSent := (m.dataLen + 4) % 65536
  frameType := .unknown
  frameId := 0
  bytesToBeWritten := 0
  dataToBeWritten := none
  cmdTagWritten := false
  totalBufSize := 0
  buf := ⟨false, 0, 0, [], []⟩

/-- `L2P_Send`; `none` when the loop takes more rounds than there are octets to send. -/
def l2pSend (cb : TxCallbacks) (maxMTU : Nat) (m : Message) : Option (List (List Nat) × Status) :=
  sendLoop cb maxMTU m (m.dataLen + 5) 0 m.sender []

/-! ### Receiving -/

/-- A received frame: whether the read pointer is not `NULL`, what is left of the segment, the size that is counted, and
the segments to come. -/
structure RxFrame where
  rxReadPtr : Bool
  seg : List Nat
  totalSegSize : Nat
  segs : List (List Nat)
  deriving DecidableEq, Repr

namespace RxFrame
variable (f : RxFrame)

/-- `L2P_read_data_from_seg`, with the octets that have been read -/
def read (dataSize : Nat) : RxFrame × List Nat :=
  let bytesRead := if f.seg.length ≤ dataSize then f.seg.length else dataSize
  ({ f with rxReadPtr := !decide (f.seg.length ≤ dataSize), seg := f.seg.drop bytesRead }, f.seg.take bytesRead)

/-- `Get_Next_Seg_Cb` -/
def nextSeg : RxFrame :=
  match f.segs with
  | [] => { f with rxReadPtr := false, seg := [] }
  | z :: zs => { f with rxReadPtr := true, seg := z, totalSegSize := f.totalSegSize + z.length, segs := zs }

end RxFrame

/-- The loop over the frame control bytes, with the octets that have been read. -/
def readCntrl : Nat → RxFrame → Nat → List Nat → RxFrame × List Nat
  | 0, f, _, o => (f, o)
  | _ + 1, f, 0, o => (f, o)
  | n + 1, f, k + 1, o =>
    let r := f.read (k + 1)
    readCntrl n (if r.1.rxReadPtr then r.1 else r.1.nextSeg) (k + 1 - r.2.length) (o ++ r.2)

/-- What `T_L2P_CONTROL_BLOCK` holds of the message that is being received; the tag and the buffer are the octets that have
been written to them, and `none` is a `NULL` pointer. -/
structure ControlBlock where
  rxBuf : Option (List Nat)
  muxId : Nat
  cmdTagReceived : Bool
  dataSize : Nat
  receivedCmdTag : List Nat
  bytesToBeRead : Nat
  deriving DecidableEq, Repr

/-- What `Msg_Rxd_Cb` is given. -/
structure RxMessage where
  muxId : Nat
  dataTag : Nat
  data : List Nat
  dataSize : Nat
  deriving DecidableEq, Repr

/-- The variables of `L2P_Receive` in its loops. -/
structure Receiver where
  block : ControlBlock
  frame : RxFrame
  totalsize : Nat
  deriving DecidableEq, Repr

namespace Receiver
variable (s : Receiver)

/-- The octets that have been read go to the tag, until it is complete, and then to the receive buffer. -/
def store (o : List Nat) : ControlBlock :=
  if s.block.cmdTagReceived then { s.block with rxBuf := s.block.rxBuf.map (· ++ o) }
  else { s.block with receivedCmdTag := s.block.receivedCmdTag ++ o }

/-- The body of the loops over the tag and over the data. -/
def body : Receiver :=
  let r := s.frame.read s.block.bytesToBeRead
  let left := s.block.bytesToBeRead - r.2.length
  let b : ControlBlock := { s.store r.2 with bytesToBeRead := left }
  let f := if !r.1.rxReadPtr && decide (r.1.totalSegSize < s.totalsize) && decide (left ≠ 0) then r.1.nextSeg else r.1
  if left = 0 ∧ b.cmdTagReceived = false then
    { s with
      block := { b with cmdTagReceived := true, rxBuf := b.rxBuf.map fun _ => [], bytesToBeRead := b.dataSize }
      frame := f }
  else { s with block := b, frame := f }

/-- The rounds that a loop over the segments may take. -/
def rounds : Nat := s.frame.segs.length + 4

/-- The tag is still to be read, and there are octets in the segment. -/
def tagOpen : Bool := s.frame.rxReadPtr && !s.block.cmdTagReceived

/-- There are data to be read, and there are octets in the segment. -/
def dataOpen : Bool := decide (0 < s.block.bytesToBeRead) && s.frame.rxReadPtr

/-- The loop over the tag. -/
def tagLoop : Receiver := loop tagOpen body s.rounds s

/-- The loop over the data. -/
def dataLoop : Receiver := loop dataOpen body s.rounds s

end Receiver

namespace ControlBlock
variable (b : ControlBlock)

/-- A new message begins. -/
def beginMessage (c : FrameControlBytes) : ControlBlock :=
  if c.frameId = 0 ∧ (c.frameType = .start ∨ c.frameType = .complete) then
    { b with rxBuf := some (b.rxBuf.getD []), dataSize := c.dataLen, muxId := c.muxId, cmdTagReceived := false }
  else b

/-- The message is complete. -/
def message : RxMessage := ⟨b.muxId, L2p.ofOctets b.receivedCmdTag, (b.rxBuf.getD []).take b.dataSize, b.dataSize⟩

/-- The values after a message. -/
def reset : ControlBlock :=
  { b with rxBuf := none, muxId := 0, cmdTagReceived := false, receivedCmdTag := [], dataSize := 0 }

end ControlBlock

/-- The tag begins in a frame that starts a message. -/
def Receiver.beginTag (s : Receiver) (c : FrameControlBytes) : Receiver :=
  if c.frameType = .complete ∨ c.frameType = .start then
    tagLoop { s with block := { s.block with bytesToBeRead := 4, receivedCmdTag := [] } }
  else s

/-- `L2P_Receive`, with the message that `Msg_Rxd_Cb` is given -/
def l2pReceive (b : ControlBlock) (segs : List (List Nat)) : ControlBlock × Status × Option RxMessage :=
  match segs with
  | [] => (b, .invalidParameter, none)
  | seg :: rest =>
    let totalsize := segs.flatten.length
    if totalsize ≤ frameControlSize ∨ seg = [] then (b, .invalidParameter, none)
    else
      let r := readCntrl (rest.length + 2) ⟨true, seg, seg.length, rest⟩ frameControlSize []
      let c := FrameControlBytes.ofOctets r.2
      let s := (Receiver.beginTag ⟨b.beginMessage c, r.1, totalsize⟩ c).dataLoop
      if s.block.bytesToBeRead = 0 then (s.block.reset, .success, some s.block.message)
      else (s.block, .success, none)

/-- The frames of a message, one call of `L2P_Receive` for each. -/
def receiveAll : ControlBlock → List (List (List Nat)) → ControlBlock × List (Option RxMessage)
  | b, [] => (b, [])
  | b, f :: fs =>
    let r := l2pReceive b f
    let q := receiveAll r.1 fs
    (q.1, r.2.2 :: q.2)

end Citrine.L2p
