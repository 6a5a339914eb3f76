import Citrine.Lib.Machine
import Citrine.Lib.Slots

/-!
# Concatenated short messages

`conc_sms.c`: the parts of a concatenated message are put together in an assembly buffer while they arrive in sequence,
and wait in a segment buffer otherwise.  The parts that are stored in non-volatile memory are also listed in the
concatenation buffer.  A slot of the three tables that is not `in_use` is free; what it still holds is never read.
-/

namespace Citrine.Aci

/-! ### The tables -/

/-- `MAX_SM_LEN` -/
def maxSmLen : Nat := 176

/-- `CONC_MAX_SEGS` -/
def concMaxSegs : Nat := 10

/-- `MAX_BUF_ELEMS` -/
def maxBufElems : Nat := 5

/-- `MAX_CONC_BUF_ELEMS` -/
def maxConcBufElems : Nat := 30

/-- `T_ACI_SMS_STOR` -/
inductive SmsStor where
  | notPresent | me | sm
  deriving DecidableEq, Repr

/-- `T_CONC_ASSEMBLY_RETURN` -/
inductive AssemblyReturn where
  | errUnkn | errBufFull | continued | completed
  deriving DecidableEq, Repr

/-- A reference number and an address. -/
abbrev SmsKey := Nat × List Nat

/-- `T_SM_ASSEMBLY`; `size` is the size of the allocated memory. -/
structure SmAssembly where
  refNum : Nat
  address : List Nat
  nextExpNum : Nat
  segsLeft : Nat
  segCount : Nat
  data : List Nat
  size : Nat
  deriving DecidableEq, Repr

/-- `T_SEG_BUF_ELEM` -/
structure SegBufElem where
  seqNum : Nat
  recNum : Nat
  status : Nat
  data : List Nat
  deriving DecidableEq, Repr

/-- `T_SEG_BUF` -/
structure SegBuf where
  refNum : Nat
  address : List Nat
  list : List SegBufElem
  deriving DecidableEq, Repr

/-- `T_CONC_BUF_ELEM` -/
structure ConcBufElem where
  seqNum : Nat
  recNum : Nat
  status : Nat
  mem : SmsStor
  deriving DecidableEq, Repr

/-- `T_CONC_BUF` -/
structure ConcBuf where
  refNum : Nat
  address : List Nat
  maxNum : Nat
  list : List ConcBufElem
  deriving DecidableEq, Repr

/-- `concShrdPrm.full`, with `dFLAG`, `RefNum_Del`, `Addres` and the static `i` of `concSMS_Collect`. -/
structure ConcFull where
  dFlag : Bool
  refNumDel : Nat
  addres : List Nat
  concFull : Bool
  refNum : Nat
  maxNum : Nat
  numsegs : Nat
  segs : List (Nat × Nat × SmsStor)
  i : Nat
  deriving DecidableEq, Repr

/-- The tables; `overrun` records a write behind the memory of an assembly buffer. -/
structure ConcSms where
  assemblyList : Slots SmAssembly
  segBufList : Slots SegBuf
  concBufList : Slots ConcBuf
  elemCount : Nat
  full : ConcFull
  overrun : Bool
  deriving DecidableEq, Repr

def SmAssembly.key (a : SmAssembly) : SmsKey := (a.refNum, a.address)

def SegBuf.key (b : SegBuf) : SmsKey := (b.refNum, b.address)

def ConcBuf.key (b : ConcBuf) : SmsKey := (b.refNum, b.address)

/-! ### The assembly buffer -/

/-- `concSMS_getAsBuffer` -/
def getAsBuffer (k : SmsKey) (s : ConcSms) : Option SmAssembly := s.assemblyList.lookup SmAssembly.key k

/-- The memory of an assembly buffer that holds no segment yet. -/
def SmAssembly.alloc (a : SmAssembly) : SmAssembly :=
  if a.segCount = 0 then
    let segs := min a.segsLeft concMaxSegs
    { a with size := maxSmLen * segs, segsLeft := a.segsLeft - segs, data := [] }
  else a

/-- The data of a segment behind that of the ones before it. -/
def SmAssembly.append (a : SmAssembly) (data : List Nat) : SmAssembly :=
  { a with
    data := a.data ++ data
    nextExpNum := (a.nextExpNum + 1) % 256
    segCount := (a.segCount + 1) % 256 }

/-- `data[len] = '\0'` is behind the memory. -/
def SmAssembly.overrun (a : SmAssembly) : Bool := decide (a.size ≤ a.data.length)

/-- `concSMS_addToAsBuffer` -/
def addToAsBuffer (k : SmsKey) (maxNum : Nat) (data : List Nat) (s : ConcSms) : Option (ConcSms × SmAssembly) :=
  match getAsBuffer k s with
  | some a =>
    let a := a.alloc.append data
    some ({ s with
      assemblyList := s.assemblyList.assign SmAssembly.key k (some a), overrun := s.overrun || a.overrun }, a)
  | none =>
    let a := (SmAssembly.mk k.1 k.2 1 maxNum 0 [] 0).alloc.append data
    (Slots.put a s.assemblyList).map fun l => ({ s with assemblyList := l, overrun := s.overrun || a.overrun }, a)

/-- `concSMS_removeFromAsBuffer`, with the data of the message. -/
def removeFromAsBuffer (k : SmsKey) (s : ConcSms) : ConcSms × List Nat :=
  match getAsBuffer k s with
  | some a => ({ s with assemblyList := s.assemblyList.assign SmAssembly.key k none }, a.data)
  | none => (s, [])

/-- `concSMS_getFromAsBuffer` -/
def getFromAsBuffer (k : SmsKey) (s : ConcSms) : ConcSms × List Nat :=
  match getAsBuffer k s with
  | some a =>
    ({ s with assemblyList := s.assemblyList.assign SmAssembly.key k (some { a with segCount := 0 }) }, a.data)
  | none => (s, [])

/-! ### The segment buffer -/

/-- `concSMS_getSegBuffer` -/
def getSegBuffer (k : SmsKey) (s : ConcSms) : Option SegBuf := s.segBufList.lookup SegBuf.key k

/-- `concSMS_addToSegBuffer`; a segment buffer that is full is cleared. -/
def addToSegBuffer (k : SmsKey) (e : SegBufElem) (s : ConcSms) : ConcSms × Bool :=
  match getSegBuffer k s with
  | some b =>
    if b.list.length ≥ concMaxSegs then ({ s with segBufList := s.segBufList.assign SegBuf.key k none }, false)
    else
      ({ s with
        segBufList := s.segBufList.assign SegBuf.key k (some { b with list := b.list ++ [e] }) }, true)
  | none =>
    match Slots.put (SegBuf.mk k.1 k.2 [e]) s.segBufList with
    | none => (s, false)
    | some l => ({ s with segBufList := l }, true)

/-- `concSMS_removeFromSegBuffer` -/
def removeFromSegBuffer (k : SmsKey) (seqNum : Nat) (s : ConcSms) : Option (ConcSms × SegBufElem) :=
  match getSegBuffer k s with
  | none => none
  | some b =>
    match b.list.find? (fun e => e.seqNum == seqNum) with
    | none => none
    | some e =>
      let list := b.list.eraseP fun e => e.seqNum == seqNum
      let b := if list.isEmpty then none else some { b with list := list }
      some ({ s with segBufList := s.segBufList.assign SegBuf.key k b }, e)

/-! ### The concatenation buffer -/

/-- `concSMS_getConcBuffer` -/
def getConcBuffer (k : SmsKey) (s : ConcSms) : Option ConcBuf := s.concBufList.lookup ConcBuf.key k

/-- `concSMS_addToConcatList` -/
def addToConcatList (k : SmsKey) (maxNum : Nat) (e : ConcBufElem) (s : ConcSms) : ConcSms × Bool :=
  match getConcBuffer k s with
  | some b =>
    if b.list.any (fun e' => e'.seqNum == e.seqNum) then (s, false)
    else
      ({ s with
        concBufList := s.concBufList.assign ConcBuf.key k (some { b with list := b.list ++ [e] })
        elemCount := (s.elemCount + 1) % 256 }, true)
  | none =>
    match Slots.put (ConcBuf.mk k.1 k.2 maxNum [e]) s.concBufList with
    | none => (s, false)
    | some l => ({ s with concBufList := l, elemCount := (s.elemCount + 1) % 256 }, true)

/-- The inner loop of `concSMS_sortConcatList`: the record number of the first segment with the lowest number. -/
def lowestRecNum : List ConcBufElem → Nat → Nat → Nat
  | [], _, recNum => recNum
  | e :: l, seqNum, recNum => if e.seqNum < seqNum then lowestRecNum l e.seqNum e.recNum else lowestRecNum l seqNum recNum

/-- The loop of `concSMS_sortConcatList`, once for each segment. -/
def sortConcBuf : Nat → List ConcBufElem → Nat → List ConcBufElem
  | 0, _, _ => []
  | fuel + 1, oldlist, recNum =>
    let recNum := lowestRecNum oldlist 255 recNum
    let rest := sortConcBuf fuel (oldlist.eraseP fun e => e.recNum == recNum) recNum
    match oldlist.find? (fun e => e.recNum == recNum) with
    | none => rest
    | some e => e :: rest

/-- `concSMS_sortConcatList` -/
def sortConcatList (k : SmsKey) (s : ConcSms) : ConcSms :=
  match getConcBuffer k s with
  | none => s
  | some b =>
    { s with
      concBufList := s.concBufList.assign ConcBuf.key k (some { b with list := sortConcBuf b.list.length b.list 0 }) }

/-! ### `concSMS_Collect` -/

/-- The fields of `T_ACI_CMGL_SM` that are read. -/
structure CmglSm where
  udh : List Nat
  msgRef : Nat
  stat : Nat
  adress : List Nat
  data : List Nat
  deriving DecidableEq, Repr

/-- `SMS_IEI_CONC_8BIT` -/
def smsIeiConc8Bit : Nat := 0x00

/-- `SMS_IEI_CONC_16BIT` -/
def smsIeiConc16Bit : Nat := 0x08

/-- The reference number, the number of segments and the sequence number in a user data header. -/
def udhParameters (udh : List Nat) : Nat × Nat × Nat :=
  let data := fun i => udh.getD i 0
  if data 0 = smsIeiConc8Bit then (data 2, data 3, data 4)
  else if data 0 = smsIeiConc16Bit then (data 2 * 256 + data 3, data 4, data 5)
  else (0, 0, 0)

/-- The loop of `concSMS_Collect` over the segments that are in sequence. -/
def collectLoop (k : SmsKey) (maxNum : Nat) : Nat → List Nat → ConcSms → ConcSms × AssemblyReturn × List Nat
  | 0, _, s => (s, .continued, [])
  | fuel + 1, data, s =>
    match addToAsBuffer k maxNum data s with
    | none => (s, .errBufFull, [])
    | some (s, a) =>
      if a.nextExpNum = maxNum + 1 then
        let (s, data) := removeFromAsBuffer k s
        (sortConcatList k s, .completed, data)
      else if a.segCount = concMaxSegs then
        let (s, data) := getFromAsBuffer k s
        (sortConcatList k s, .completed, data)
      else
        match removeFromSegBuffer k a.nextExpNum s with
        | none => (s, .continued, [])
        | some (s, e) => collectLoop k maxNum fuel e.data s

/-- The segments that wait in the segment buffer. -/
def waitingSegs (k : SmsKey) (s : ConcSms) : List SegBufElem := ((getSegBuffer k s).map SegBuf.list).getD []

/-- What is noted when a segment does not go into the concatenation buffer. -/
def ConcFull.note (f : ConcFull) (k : SmsKey) (maxNum seqNum recNum : Nat) (mem : SmsStor) : ConcFull :=
  { dFlag := true, refNumDel := k.1, addres := k.2, concFull := true, refNum := k.1, maxNum := maxNum
    segs := f.segs.take f.i ++ [(seqNum, recNum, mem)]
    i := (f.i + 1) % 256, numsegs := (f.i + 1) % 256 }

/-- `concSMS_Collect`, with the data of a message that is completed. -/
def collect (sm : CmglSm) (isStored : Bool) (memAci : SmsStor) (s : ConcSms) : ConcSms × AssemblyReturn × List Nat :=
  let (refNum, maxNum, seqNum) := udhParameters sm.udh
  let k := (refNum, sm.adress)
  let nextExpNum := ((getAsBuffer k s).map SmAssembly.nextExpNum).getD 1
  if seqNum = 0 ∨ seqNum > maxNum ∨ seqNum < nextExpNum then (s, .errUnkn, [])
  else if isStored && memAci == .notPresent then (s, .errUnkn, [])
  else
    let (s, stored) :=
      if isStored then addToConcatList k maxNum ⟨seqNum, sm.msgRef, sm.stat, memAci⟩ s else (s, true)
    if !stored then ({ s with full := s.full.note k maxNum seqNum sm.msgRef memAci }, .errBufFull, [])
    else
      let s := { s with full := { s.full with i := 0 } }
      if seqNum > nextExpNum then
        let (s, added) := addToSegBuffer k ⟨seqNum, sm.msgRef, sm.stat, sm.data⟩ s
        (s, if added then .continued else .errBufFull, [])
      else collectLoop k maxNum ((waitingSegs k s).length + 1) sm.data s

/-- `concSMS_Init` -/
def concSmsInit : ConcSms :=
  { assemblyList := List.replicate maxBufElems none
    segBufList := List.replicate maxBufElems none
    concBufList := List.replicate maxConcBufElems none
    elemCount := 0
    full := ⟨false, 0xff, [], false, 0, 0, 0, [], 0⟩
    overrun := false }

end Citrine.Aci
