/-!
# Tagged information elements

The loop of `ccd_decodeComposition` (`ccd.c`) over a composition whose elements all have a tag, with
`cdc_tlv_decode`, `cdc_search_table`, `cdc_init_table`, `cdc_skipElem` and the two `_LV_decode` functions
(`cdc_com.c`).  The references of elements count from the beginning of the composition.  What is kept of the value of
an element is the number of bits that it takes and what the tagged elements inside of it leave behind; the
C-structure and the list of errors, which the decoder does not read, are left out.
-/

namespace Citrine.Ccd

/-! ### Tables and input -/

/-- The coding types with a tag: `CCDTYPE_GSM1_TV` to `CCDTYPE_GSM4_TLV` and `CCDTYPE_GSM5_TLV`. -/
inductive CodingType where
  | gsm1Tv | gsm2T | gsm3Tv | gsm4Tlv | gsm5Tlv
  deriving DecidableEq, Repr

/-- `tlv_inf.gotLen` -/
def CodingType.gotLen : CodingType → Bool
  | .gsm4Tlv | .gsm5Tlv => true
  | _ => false

/-- What a value leaves behind that contains tagged elements of its own. -/
structure Nested where
  tagPending : Bool
  pendingTag : BitVec 8
  sequenceError : Bool
  refBeforeError : Nat
  deriving DecidableEq, Repr

/-- The outcome of `cdc_decodeElemvalue`. -/
structure Taken where
  bits : Nat
  nested : Option Nested
  deriving DecidableEq, Repr

/-- An entry of `melem`, with what its entry of `calcidx` says about its condition. -/
structure Elem where
  codingType : CodingType
  ident : BitVec 8
  /-- The truth of the condition, if there is one. -/
  cond : Option Bool
  /-- `ccd_isOptional` -/
  isOptional : Bool
  /-- `maxRepeat` of an element with the repeat type `'i'`. -/
  maxRepeat : Option Nat
  /-- The value by the number of V components, `bitpos` and `maxBitpos`; `none` when it is given up with a long
  jump. -/
  value : Bool → Nat → Nat → Option Taken

/-- What does not change in the loop. -/
structure Input where
  elems : List Elem
  /-- The bit buffer and what lies behind it. -/
  bits : Nat → Bool
  buflen : Nat
  maxBitpos : Nat
  /-- `ccd_recurs_level` -/
  level : Nat

/-- `T_IEI_TABLE`; all entries are valid. -/
structure Iei where
  ident : BitVec 8
  multiple : Bool
  exhausted : Bool
  maxAmount : Nat
  actAmount : Nat
  deriving DecidableEq, Repr

/-- `last_level` compared with `ccd_recurs_level`: not yet in this composition, in it, or back in it from a value. -/
inductive Level where
  | other | here | deeper
  deriving DecidableEq, Repr

/-- The part of `T_CCD_Globs` that the loop uses, with the `e_ref` of `ccd_decodeComposition`. -/
structure Globs where
  eRef : Nat
  bitpos : Nat
  tagPending : Bool
  pendingTag : BitVec 8
  sequenceError : Bool
  refBeforeError : Nat
  lastLevel : Level
  ieiTable : List Iei
  /-- `melemLast`, if it is an element of this composition. -/
  melemLast : Option Nat
  deriving DecidableEq, Repr

/-- How the loop is left: at its end, or by a long jump with an error. -/
inductive Exit where
  | finished | mandElemMiss | elemLen | internalError | value
  deriving DecidableEq, Repr

/-! ### Bit positions -/

/-- `bf_incBitpos`; `bitpos` is a `USHORT`. -/
def incBitpos (n : Nat) (s : Globs) : Globs := { s with bitpos := (s.bitpos + n) % 65536 }

/-- `bf_setBitpos (globs->bitpos - n, globs)` -/
def decBitpos (n : Nat) (s : Globs) : Globs := { s with bitpos := (s.bitpos + 65536 - n) % 65536 }

section
variable (n : Nat) (s : Globs)

@[simp] theorem incBitpos_tagPending : (incBitpos n s).tagPending = s.tagPending := by
  cases s
  rfl

@[simp] theorem incBitpos_lastLevel : (incBitpos n s).lastLevel = s.lastLevel := by
  cases s
  rfl

@[simp] theorem decBitpos_tagPending : (decBitpos n s).tagPending = s.tagPending := by
  cases s
  rfl

@[simp] theorem decBitpos_lastLevel : (decBitpos n s).lastLevel = s.lastLevel := by
  cases s
  rfl

@[simp] theorem decBitpos_bitpos : (decBitpos n s).bitpos = (s.bitpos + 65536 - n) % 65536 := by
  cases s
  rfl

end

/-- The eight bits from a position on. -/
def octetAt (bits : Nat → Bool) (pos : Nat) : BitVec 8 :=
  (List.range 8).foldl (fun b i => (b <<< 1) ||| (BitVec.ofBool (bits (pos + i))).setWidth 8) 0

/-- `bf_decodeByteNumber (8, globs)` -/
def decodeByteNumber (inp : Input) (s : Globs) : BitVec 8 × Globs := (octetAt inp.bits s.bitpos, incBitpos 8 s)

/-! ### The table of identifiers -/

/-- `MAX_IE_PER_MSG` -/
def maxIePerMsg : Nat := 40

/-- `MAX_RECURSIONS_PER_MSG` -/
def maxRecursionsPerMsg : Nat := 8

/-- The entry of `cdc_init_table` for an element. -/
def Elem.iei (e : Elem) : Iei :=
  let ident :=
    match e.codingType with
    | .gsm1Tv => ((e.ident <<< 4) ||| 0x80#8) &&& 0xf0#8
    | .gsm2T => e.ident ||| 0x80#8
    | _ => e.ident
  { ident := ident, multiple := false, exhausted := false, maxAmount := 0, actAmount := 0 }

/-- The identifier as `cdc_search_table` compares it. -/
def Iei.tag (limited : Bool) (x : Iei) : BitVec 8 := if limited then x.ident &&& 0x7f#8 else x.ident

/-- A loop of `cdc_search_table` from the entry with number `i` on, which is left at an entry that is not exhausted,
or at any entry when the actual element was the last to be decoded.  `ret` is the exhausted entry found so far. -/
def searchEntries (t : BitVec 8) (limited last : Bool) : Nat → List Iei → Option Nat → Except Nat (Option Nat)
  | _, [], ret => .ok ret
  | i, x :: xs, ret =>
    if x.tag limited = t then
      if !x.exhausted || last then .error i else searchEntries t limited last (i + 1) xs (some i)
    else searchEntries t limited last (i + 1) xs ret

/-- `cdc_search_table`: the entry that is found, and whether it counts as a sequence error. -/
def cdcSearchTable (akt : Nat) (t : BitVec 8) (limited : Bool) (s : Globs) : Option Nat × Bool :=
  match searchEntries t limited (s.melemLast == some akt) akt (s.ieiTable.drop akt) none with
  | .error i => (some i, false)
  | .ok ret =>
    match searchEntries t limited false 0 (s.ieiTable.take akt) ret with
    | .error i => (some i, false)
    | .ok ret => (ret, ret.isSome)

/-- The initialisation at the first tagged element of a composition, and after a value with tagged elements. -/
def enterLevel (inp : Input) (s : Globs) : Except Exit Globs :=
  match s.lastLevel with
  | .here => .ok s
  | .deeper => .ok { s with tagPending := false, sequenceError := false, lastLevel := .here }
  | .other =>
    if inp.elems.length > maxIePerMsg then .error .internalError
    else
      .ok { s with
        ieiTable := inp.elems.map Elem.iei, tagPending := false, sequenceError := false, lastLevel := .here }

/-! ### Length and value -/

/-- `cdc_decode_L` -/
def cdcDecodeL (inp : Input) (elem : Elem) (s : Globs) : Nat × Globs :=
  let (l, s) := decodeByteNumber inp s
  if elem.codingType = .gsm5Tlv ∧ l = 0x81#8 then
    let (l, s) := decodeByteNumber inp s
    (l.toNat, s)
  else (l.toNat, s)

/-- `cdc_decodeElemvalue` -/
def decodeElemvalue (elem : Elem) (tagged : Bool) (maxBitpos : Nat) (s : Globs) : Except Exit Globs :=
  match elem.value tagged s.bitpos maxBitpos with
  | none => .error .value
  | some r =>
    let s := incBitpos r.bits s
    match r.nested with
    | none => .ok s
    | some n =>
      .ok { s with
        tagPending := n.tagPending, pendingTag := n.pendingTag, sequenceError := n.sequenceError
        refBeforeError := n.refBeforeError, lastLevel := .deeper }

/-- `cdc_tagged_LV_decode` and `cdc_normal_LV_decode`, which differ in the number of V components. -/
def lvDecode (inp : Input) (elem : Elem) (tagged : Bool) (s : Globs) : Except Exit Globs :=
  if elem.codingType.gotLen then
    -- the difference is compared as an unsigned number
    if s.bitpos ≤ inp.maxBitpos ∧ inp.maxBitpos < s.bitpos + 8 then .error .elemLen
    else
      let (l, s) := cdcDecodeL inp elem s
      let tmpMaxBP := (s.bitpos + l * 8) % 65536
      if tmpMaxBP ≤ inp.buflen ∧ inp.maxBitpos < tmpMaxBP then .error .elemLen
      else
        let tmpMaxBP := min inp.buflen tmpMaxBP
        match if l > 0 then decodeElemvalue elem tagged tmpMaxBP s else .ok s with
        | .error e => .error e
        | .ok s => .ok (if s.bitpos > tmpMaxBP then s else { s with bitpos := tmpMaxBP })
  else if elem.codingType = .gsm2T then .ok s
  else decodeElemvalue elem tagged inp.maxBitpos s

/-- `cdc_skipElem` -/
def cdcSkipElem (inp : Input) (elem : Elem) (s : Globs) : Except Exit Globs := lvDecode inp elem true s

/-! ### `cdc_tlv_decode` -/

/-- The octet may hold a tag of four bits. -/
def isHalfTag (elem : Elem) (t : BitVec 8) : Bool :=
  elem.codingType != .gsm5Tlv && (t &&& 0x80#8) == 0x80#8 && (t &&& 0xA0#8) != 0xA0#8

/-- The tag: the pending one, or the next octet or half octet. -/
def readTag (inp : Input) (elem : Elem) (e : Nat) (s : Globs) : BitVec 8 × Globs :=
  if s.tagPending then (s.pendingTag, { s with tagPending := false })
  else
    let (t, s) := decodeByteNumber inp s
    if isHalfTag elem t then
      let tag4 := t &&& 0xf0#8
      let (found, err) := cdcSearchTable e tag4 false s
      let s := { s with sequenceError := s.sequenceError || err }
      if found.isSome then (tag4, decBitpos 4 s) else (t, s)
    else (t, s)

/-- A tag that the composition does not know. -/
def unknownTag (inp : Input) (t : BitVec 8) (s : Globs) : Except Exit (Globs × Int) :=
  if t &&& 0x80#8 = 0x80#8 then .ok (s, 0)
  else if inp.level ≥ maxRecursionsPerMsg then .error .internalError
  else if s.bitpos + 8 ≤ inp.maxBitpos then
    let (l, s) := decodeByteNumber inp s
    .ok (incBitpos (l.toNat <<< 3) s, 0)
  else .error .elemLen

/-- The number of the appearance of an element, 0 when there are too many. -/
def appearance (elem : Elem) (x : Iei) : Nat × Iei :=
  let x :=
    if x.actAmount = 0 then
      match elem.maxRepeat with
      | some n => { x with maxAmount := n % 256, multiple := true, actAmount := 1 }
      | none => { x with maxAmount := 1, multiple := false, actAmount := 1 }
    else x
  if x.actAmount ≤ x.maxAmount then (x.actAmount, { x with actAmount := (x.actAmount + 1) % 256 }) else (0, x)

/-- The element of the tag is the actual one. -/
def takeElem (inp : Input) (elem : Elem) (e : Nat) (s : Globs) : Except Exit (Globs × Int) :=
  match s.ieiTable[e]? with
  | none => .error .internalError
  | some x =>
    let (ieAmount, x) := appearance elem x
    let s := { s with melemLast := some e, ieiTable := s.ieiTable.set e x }
    if s.sequenceError then
      (cdcSkipElem inp elem { s with sequenceError := false }).map fun s => (s, (s.refBeforeError : Int) - e)
    else if elem.cond = some false then (cdcSkipElem inp elem s).map fun s => (s, 0)
    else if ieAmount = 0 then (cdcSkipElem inp elem s).map fun s => (s, 0)
    else
      (lvDecode inp elem x.multiple s).map fun s =>
        let x := { x with exhausted := true, actAmount := if x.actAmount > x.maxAmount then 0 else x.actAmount }
        ({ s with ieiTable := s.ieiTable.set e x }, if x.maxAmount > 1 then 0 else 1)

/-- The element of the tag is another one: the tag is parked. -/
def parkTag (t : BitVec 8) (e i : Nat) (s : Globs) : Globs × Int :=
  let offset : Int := (i : Int) - e
  let s := { s with tagPending := true, pendingTag := t, sequenceError := s.sequenceError || offset < 0 }
  ({ s with refBeforeError := if s.sequenceError then e else s.refBeforeError }, offset)

/-- `cdc_tlv_decode`, with the difference to the next element reference. -/
def cdcTlvDecode (inp : Input) (elem : Elem) (e : Nat) (s : Globs) : Except Exit (Globs × Int) :=
  if elem.cond = some false then .ok (s, 1)
  else
    match enterLevel inp s with
    | .error x => .error x
    | .ok s =>
      let (t, s) := readTag inp elem e s
      let limited := elem.codingType == .gsm5Tlv
      let t := if limited then t &&& 0x7f#8 else t
      let (found, err) := cdcSearchTable e t limited s
      let s := { s with sequenceError := s.sequenceError || err }
      match found with
      | none => unknownTag inp t s
      | some i => if i = e then takeElem inp elem e s else .ok (parkTag t e i s)

/-- One round of the loop of `ccd_decodeComposition`. -/
def decodeRound (inp : Input) (s : Globs) : Except Exit Globs :=
  match inp.elems[s.eRef]? with
  | none => .error .finished
  | some elem =>
    if s.bitpos ≥ inp.maxBitpos ∧ s.tagPending = false then
      if (inp.elems.drop s.eRef).all Elem.isOptional then .error .finished else .error .mandElemMiss
    else
      (cdcTlvDecode inp elem s.eRef s).map fun (s', codecRet) => { s' with eRef := (s.eRef + codecRet).toNat }

end Citrine.Ccd
