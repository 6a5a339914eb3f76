import Citrine.Aci.ConcSms
import Citrine.Lib.Cutting

/-!
# Sending and storing a long message

`conc_sms.c`: `concSMS_split` cuts the first segment of a long message, and each confirmation of a segment
(`rConcSMS_PlusCMGS` when the message is sent, `rConcSMS_PlusCMGW` when it is stored) cuts the next one.  The segments
make up the message.  Their headers number them as long as an octet can hold the number of segments, which is so for
the messages that the callers cut to `CONC_MAX_SEGS` segments (`long_sms_segmented_iff`).
-/

namespace Citrine.Aci

open Cutting

/-! ### The shared parameters -/

/-- `T_SM_DATA_EXT`; `len` is a `USHORT`. -/
structure SmDataExt where
  data : List Nat
  isLt : data.length < 65536

/-- `l_uncomp8bit_data`, `l_uncomp7bit_data` and their `_conc` variants: what fits into a message with no header, and
into a segment. -/
structure ConcLimits where
  uncomp8bitData : Nat
  uncomp7bitData : Nat
  uncomp8bitDataConc : Nat
  uncomp7bitDataConc : Nat
  conc8_pos : 0 < uncomp8bitDataConc
  conc7_pos : 0 < uncomp7bitDataConc
  conc8_le : uncomp8bitDataConc ≤ uncomp8bitData
  conc7_le : uncomp7bitDataConc ≤ uncomp7bitData
  data8_lt : uncomp8bitData < 256
  data7_lt : uncomp7bitData < 256

/-- The limits of `concSMS_Init`. -/
def concLimits : ConcLimits := ⟨140, 160, 134, 153, by decide, by decide, by decide, by decide, by decide, by decide⟩

/-- The limits of `concSMS_InitForTesting`. -/
def concLimitsTst : ConcLimits := ⟨14, 16, 13, 15, by decide, by decide, by decide, by decide, by decide, by decide⟩

/-- What fits into one message of an alphabet. -/
def ConcLimits.single (lim : ConcLimits) (alphabet : Nat) : Nat :=
  if alphabet = 0 then lim.uncomp7bitData else lim.uncomp8bitData

/-- What fits into one segment of an alphabet. -/
def ConcLimits.conc (lim : ConcLimits) (alphabet : Nat) : Nat :=
  if alphabet = 0 then lim.uncomp7bitDataConc else lim.uncomp8bitDataConc

/-- `T_ACI_UDH_DATA` -/
structure UdhData where
  len : Nat
  data : List Nat
  deriving DecidableEq, Repr

/-- `concShrdPrm.udh` -/
structure ConcUdh where
  refNum : Nat
  maxNum : Nat
  seqNum : Nat
  deriving DecidableEq, Repr

/-- `SMS_STAT_StoUnsent` -/
def smsStatStoUnsent : Nat := 2

/-- `CMGW_IDX_FREE_ENTRY` -/
def cmgwIdxFreeEntry : Int := 0

/-- What goes with every segment; `index`, `stat` (`none` for `SMS_STAT_NotPresent`) and `msgRef` with those that are
stored. -/
structure SmParameters where
  srcId : Nat
  da : Option (List Nat)
  toda : Option (Nat × Nat)
  sca : Option (List Nat)
  tosca : Option (Nat × Nat)
  isReply : Int
  index : Int
  stat : Option Nat
  msgRef : Nat
  deriving DecidableEq, Repr

/-- The fields of `concShrdPrm` and of `concCMGS` or `concCMGW` by which the segments are cut. -/
structure ConcCut where
  maxSmsLen : Nat
  udh : ConcUdh
  prm : SmParameters
  data : List Nat
  offset : Nat
  sentBytes : Nat
  deriving DecidableEq, Repr

/-- `concShrdPrm` -/
structure ConcShrdPrm where
  cut : ConcCut
  firstMr : Nat
  sentSegs : Nat
  isConcatenated : Bool
  deriving DecidableEq, Repr

/-- A segment as it is handed to `sAT_PlusCMGS_Gl` and `sAT_PlusCMGW_Gl`. -/
structure SmSegment where
  prm : SmParameters
  data : List Nat
  udh : UdhData
  deriving DecidableEq, Repr

/-- `T_CONC_INIT_RETURN` -/
inductive ConcInitReturn where
  | notNeeded | needed
  deriving DecidableEq, Repr

/-- The commands of `T_EXT_CMS_CMD_ID` for which a message is split. -/
inductive ExtCmsCmdId where
  | cmgsConc | cmgwConc
  deriving DecidableEq, Repr

/-! ### The first segment -/

/-- `concSMS_findMaxRefNum` -/
def findMaxRefNum (s : ConcSms) : Nat :=
  (Slots.entries s.concBufList).foldl (fun refNum b => if b.refNum % 256 > refNum then b.refNum % 256 else refNum) 0

/-- `concSMS_fillUDH` -/
def fillUdh (refNum maxNum seqNum : Nat) : UdhData := ⟨5, [smsIeiConc8Bit, 3, refNum % 256, maxNum, seqNum]⟩

/-- The reference number that `concSMS_split` takes; `random` is the value of `rand`, which the simulation does not
use. -/
def splitRefNum (random : Option Nat) (tables : ConcSms) (id : ExtCmsCmdId) : Nat :=
  let refNum := (findMaxRefNum tables % 256 + 1) % 256
  match id, random with
  | .cmgsConc, some r => r % 256
  | .cmgsConc, none => refNum
  | .cmgwConc, _ => refNum

/-- `concSMS_split`, with the data of `tar_data`. -/
def concSmsSplit (lim : ConcLimits) (random : Option Nat) (tables : ConcSms) (src : SmDataExt) (alphabet : Nat)
    (id : ExtCmsCmdId) (c : ConcCut) : Bool × List Nat × ConcCut :=
  let len := src.data.length
  if len ≤ lim.single alphabet then (false, src.data.take (len % 256), c)
  else
    let tarLen := lim.conc alphabet
    (true, src.data.take tarLen,
      { c with
        maxSmsLen := tarLen
        udh := ⟨splitRefNum random tables id, (len + (tarLen - 1)) / tarLen % 256, 1⟩
        data := src.data
        offset := tarLen })

/-- `concSMS_initSend`, with `tar_data` and `udh`. -/
def concSmsInitSend (lim : ConcLimits) (random : Option Nat) (tables : ConcSms) (prm : SmParameters) (src : SmDataExt)
    (alphabet : Nat) (p : ConcShrdPrm) : ConcInitReturn × List Nat × Option UdhData × ConcShrdPrm :=
  let (ret, tarData, c) := concSmsSplit lim random tables src alphabet .cmgsConc p.cut
  if ret = false then (.notNeeded, tarData, none, { p with cut := c })
  else
    (.needed, tarData, some (fillUdh c.udh.refNum c.udh.maxNum c.udh.seqNum),
      { p with cut := { c with prm := prm, data := src.data, sentBytes := 0 }, sentSegs := 0 })

/-- `concSMS_initStoreInMem`, with `tar_data` and `udh`; the segments behind the first one go to a free entry. -/
def concSmsInitStoreInMem (lim : ConcLimits) (random : Option Nat) (tables : ConcSms) (prm : SmParameters)
    (src : SmDataExt) (alphabet : Nat) (p : ConcShrdPrm) : ConcInitReturn × List Nat × Option UdhData × ConcShrdPrm :=
  let (ret, tarData, c) := concSmsSplit lim random tables src alphabet .cmgwConc p.cut
  if ret = false then (.notNeeded, tarData, none, { p with cut := c })
  else
    (.needed, tarData, some (fillUdh c.udh.refNum c.udh.maxNum c.udh.seqNum),
      { p with
        cut := { c with
          prm := { prm with stat := some (prm.stat.getD smsStatStoUnsent), index := cmgwIdxFreeEntry }
          data := src.data } })

/-! ### The next segments -/

/-- The part of the two callbacks that cuts the next segment, if something is left. -/
def ConcCut.next (c : ConcCut) : Option (SmSegment × ConcCut) :=
  let lenLeft := (c.data.length + (65536 - c.offset)) % 65536
  if lenLeft ≠ 0 then
    let len := if lenLeft > c.maxSmsLen then c.maxSmsLen else lenLeft % 256
    let seqNum := (c.udh.seqNum + 1) % 256
    some (⟨c.prm, (c.data.drop c.offset).take len, fillUdh c.udh.refNum c.udh.maxNum seqNum⟩,
      { c with
        sentBytes := (c.sentBytes + c.maxSmsLen) % 65536
        offset := (c.offset + len) % 65536
        udh := { c.udh with seqNum := seqNum } })
  else none

/-- The sending of a message: the segments submitted so far and, in the end, the arguments of `rAT_PlusCMGS`. -/
structure Cmgs where
  shrd : ConcShrdPrm
  submitted : List SmSegment
  result : Option (Nat × Nat)
  deriving DecidableEq, Repr

/-- `rConcSMS_PlusCMGS` -/
def rConcSmsPlusCmgs (mr : Nat) (s : Cmgs) : Cmgs :=
  let p := s.shrd
  let p := { p with firstMr := if p.cut.udh.seqNum = 1 then mr else p.firstMr, sentSegs := (p.sentSegs + 1) % 256 }
  match p.cut.next with
  | some (g, c) => { s with shrd := { p with cut := c }, submitted := s.submitted ++ [g] }
  | none => { s with shrd := { p with isConcatenated := false }, result := some (p.firstMr, p.cut.udh.seqNum) }

/-- The storing of a message: the concatenation buffers, the segments submitted so far and, in the end, the arguments of
`rAT_PlusCMGW`. -/
structure Cmgw where
  shrd : ConcShrdPrm
  tables : ConcSms
  firstRec : Nat
  submitted : List SmSegment
  result : Option (Nat × Nat × SmsStor)
  deriving DecidableEq, Repr

/-- The concatenation buffer that `concSMS_getConcBuffer` finds; without an address it is the first one with the
reference number. -/
def concKey (refNum : Nat) (address : Option (List Nat)) (s : ConcSms) : SmsKey :=
  match address with
  | some a => (refNum, a)
  | none => (((Slots.entries s.concBufList).find? fun b => b.refNum == refNum).map ConcBuf.key).getD (refNum, [])

/-- `rConcSMS_PlusCMGW` -/
def rConcSmsPlusCmgw (index : Nat) (mem : SmsStor) (s : Cmgw) : Cmgw :=
  let p := s.shrd
  let c := p.cut
  let firstRec := if c.udh.seqNum = 1 then index else s.firstRec
  let elem := ConcBufElem.mk c.udh.seqNum index (c.prm.stat.getD smsStatStoUnsent) mem
  let tables := (addToConcatList (concKey c.udh.refNum c.prm.da s.tables) c.udh.maxNum elem s.tables).1
  match c.next with
  | some (g, c) =>
    { s with shrd := { p with cut := c }, tables := tables, firstRec := firstRec, submitted := s.submitted ++ [g] }
  | none =>
    { s with
      shrd := { p with isConcatenated := false }, tables := tables, firstRec := firstRec
      result := some (firstRec, c.udh.seqNum, mem) }

/-! ### Whole messages -/

/-- The state once `concSMS_initSend` has returned `CONC_NEEDED` and its caller has submitted the first segment. -/
def cmgsStart (lim : ConcLimits) (random : Option Nat) (tables : ConcSms) (prm : SmParameters) (src : SmDataExt)
    (alphabet : Nat) (p : ConcShrdPrm) : Option Cmgs :=
  match concSmsInitSend lim random tables prm src alphabet p with
  | (.needed, tarData, some udh, p) => some ⟨{ p with isConcatenated := true }, [⟨prm, tarData, udh⟩], none⟩
  | _ => none

/-- The state once `concSMS_initStoreInMem` has returned `CONC_NEEDED` and its caller has submitted the first segment. -/
def cmgwStart (lim : ConcLimits) (random : Option Nat) (tables : ConcSms) (firstRec : Nat) (prm : SmParameters)
    (src : SmDataExt) (alphabet : Nat) (p : ConcShrdPrm) : Option Cmgw :=
  match concSmsInitStoreInMem lim random tables prm src alphabet p with
  | (.needed, tarData, some udh, p) =>
    some ⟨{ p with isConcatenated := true }, tables, firstRec, [⟨prm, tarData, udh⟩], none⟩
  | _ => none

/-- The callbacks for the segments of a message that is sent, as long as the operation has not ended. -/
def cmgsMachine : Machine Cmgs Nat :=
  ⟨fun s => s.shrd.isConcatenated, fun s mr => if s.shrd.isConcatenated then some (rConcSmsPlusCmgs mr s) else none⟩

/-- The callbacks for the segments of a message that is stored. -/
def cmgwMachine : Machine Cmgw (Nat × SmsStor) :=
  ⟨fun s => s.shrd.isConcatenated, fun s e => if s.shrd.isConcatenated then some (rConcSmsPlusCmgw e.1 e.2 s) else none⟩

/-- The segments of a message with their headers, as the receiver needs them. -/
structure Segmentation (message : List Nat) (limit : Nat) (segs : List SmSegment) : Prop where
  concatenate : (segs.map SmSegment.data).flatten = message
  header : ∃ refNum < 256, ∀ i (h : i < segs.length), segs[i].udh = ⟨5, [0x00, 3, refNum, segs.length, i + 1]⟩
  limit : ∀ g ∈ segs, g.data.length ≤ limit

/-- After any callbacks the segments submitted are the first ones of the message, one more than are confirmed, until the
last one is confirmed; then the operation has ended. -/
def Segmented {σ ε : Type} (M : Machine σ ε) (submitted : σ → List SmSegment) (isConcatenated : σ → Bool) (s : σ)
    (message : List Nat) (limit : Nat) : Prop :=
  ∃ segs, Segmentation message limit segs ∧ ∀ es : List ε,
    if es.length ≤ segs.length then
      ∃ t, M.run (fun _ _ => true) s es = some t ∧ submitted t = segs.take (es.length + 1) ∧
        (isConcatenated t ↔ es.length ≠ segs.length)
    else M.run (fun _ _ => true) s es = none

/-- A message is sent as a whole, without a header, or in segments. -/
def SendsMessage (lim : ConcLimits) (random : Option Nat) (tables : ConcSms) (prm : SmParameters) (src : SmDataExt)
    (alphabet : Nat) (p : ConcShrdPrm) : Prop :=
  match cmgsStart lim random tables prm src alphabet p with
  | none => concSmsInitSend lim random tables prm src alphabet p = (.notNeeded, src.data, none, p)
  | some s =>
    Segmented cmgsMachine Cmgs.submitted (fun s => s.shrd.isConcatenated) s src.data (lim.conc alphabet)

/-- A message is stored as a whole, without a header, or in segments. -/
def StoresMessage (lim : ConcLimits) (random : Option Nat) (tables : ConcSms) (firstRec : Nat) (prm : SmParameters)
    (src : SmDataExt) (alphabet : Nat) (p : ConcShrdPrm) : Prop :=
  match cmgwStart lim random tables firstRec prm src alphabet p with
  | none => concSmsInitStoreInMem lim random tables prm src alphabet p = (.notNeeded, src.data, none, p)
  | some s =>
    Segmented cmgwMachine Cmgw.submitted (fun s => s.shrd.isConcatenated) s src.data (lim.conc alphabet)

/-! ### The segments -/

section
variable {lim : ConcLimits} {random : Option Nat} {tables : ConcSms} {prm : SmParameters} {src : SmDataExt}
  {alphabet : Nat} {p : ConcShrdPrm} {c c' : ConcCut} {m refNum k : Nat} {prms : Nat → SmParameters}

theorem ConcLimits.conc_pos (lim : ConcLimits) (alphabet : Nat) : 0 < lim.conc alphabet := by
  unfold ConcLimits.conc
  split
  · exact lim.conc7_pos
  · exact lim.conc8_pos

theorem ConcLimits.conc_le (lim : ConcLimits) (alphabet : Nat) : lim.conc alphabet ≤ lim.single alphabet := by
  unfold ConcLimits.conc ConcLimits.single
  split
  · exact lim.conc7_le
  · exact lim.conc8_le

theorem ConcLimits.single_lt (lim : ConcLimits) (alphabet : Nat) : lim.single alphabet < 256 := by
  unfold ConcLimits.single
  split
  · exact lim.data7_lt
  · exact lim.data8_lt

/-- The segment `i` of a message; the parameters of the first one are those of the caller. -/
def segmentOf (m refNum : Nat) (src : SmDataExt) (prms : Nat → SmParameters) (i : Nat) : SmSegment :=
  ⟨prms i, piece m src.data i,
    fillUdh refNum (count m src.data.length % 256) ((i + 1) % 256)⟩

/-- The parameters once the segments up to `k` are cut. -/
structure CutUpTo (m refNum : Nat) (src : SmDataExt) (prms : Nat → SmParameters) (k : Nat) (c : ConcCut) : Prop where
  maxSmsLen : c.maxSmsLen = m
  udh : c.udh = ⟨refNum, count m src.data.length % 256, (k + 1) % 256⟩
  prm : ∀ i, k < i → c.prm = prms i
  data : c.data = src.data
  offset : c.offset = min ((k + 1) * m) src.data.length

/-- With the segments up to `k` cut, the next one is the segment `k + 1`, if there is one. -/
theorem CutUpTo.next (hm : 0 < m) (hm' : m < 256) (h : CutUpTo m refNum src prms k c) :
    if k + 1 < count m src.data.length then
      ∃ c', c.next = some (segmentOf m refNum src prms (k + 1), c') ∧ CutUpTo m refNum src prms (k + 1) c'
    else c.next = none := by
  have hlt := src.isLt
  have hleft : (c.data.length + (65536 - c.offset)) % 65536 = src.data.length - (k + 1) * m := by
    rw [h.data, h.offset]
    omega
  unfold ConcCut.next
  rw [hleft]
  split
  · rename_i hk
    rw [lt_count_iff hm] at hk
    have hoff : c.offset = (k + 1) * m := by
      rw [h.offset]
      omega
    obtain ⟨n, hn⟩ : ∃ n, n = if src.data.length - (k + 1) * m > c.maxSmsLen then c.maxSmsLen
        else (src.data.length - (k + 1) * m) % 256 := ⟨_, rfl⟩
    have hlen : n = min m (src.data.length - (k + 1) * m) := by
      rw [hn, h.maxSmsLen]
      split
      · omega
      · omega
    have hpiece : (c.data.drop c.offset).take n = piece m src.data (k + 1) := by
      unfold piece
      rw [h.data, hoff, hlen, ← List.length_drop, ← List.take_take, List.take_length]
    simp only [← hn]
    rw [if_pos (by omega), hpiece, h.prm (k + 1) (Nat.lt_succ_self k)]
    have hseq : (c.udh.seqNum + 1) % 256 = (k + 1 + 1) % 256 := by
      rw [h.udh]
      exact Nat.mod_add_mod _ _ _
    refine ⟨_, by rw [hseq, h.udh]; rfl, ?_, rfl, fun i hi => ?_, ?_, ?_⟩
    · exact h.maxSmsLen
    · change prms (k + 1) = prms i
      rw [← h.prm (k + 1) (Nat.lt_succ_self k)]
      exact h.prm i (by omega)
    · exact h.data
    · change (c.offset + n) % 65536 = _
      rw [hoff, hlen, Nat.add_mul (k + 1) 1 m, Nat.one_mul]
      omega
  · rename_i hk
    rw [lt_count_iff hm] at hk
    exact if_neg (by omega)

/-- A callback of the machine submits the next segment, and ends the operation if there is none. -/
structure Serves {σ ε : Type} (M : Machine σ ε) (cut : σ → ConcCut) (submitted : σ → List SmSegment)
    (isConcatenated : σ → Bool) : Prop where
  ended : ∀ s e, isConcatenated s = false → M.step s e = none
  next : ∀ s e g c, isConcatenated s → (cut s).next = some (g, c) →
    ∃ t, M.step s e = some t ∧ cut t = c ∧ submitted t = submitted s ++ [g] ∧ isConcatenated t
  last : ∀ s e, isConcatenated s → (cut s).next = none →
    ∃ t, M.step s e = some t ∧ submitted t = submitted s ∧ isConcatenated t = false

section
variable {σ ε : Type} {M : Machine σ ε} {cut : σ → ConcCut} {submitted : σ → List SmSegment} {isConcatenated : σ → Bool}
  {s : σ}

/-- The segments of a message. -/
def segmentsOf (m refNum : Nat) (src : SmDataExt) (prms : Nat → SmParameters) : List SmSegment :=
  (List.range (count m src.data.length)).map (segmentOf m refNum src prms)

private theorem length_segmentsOf : (segmentsOf m refNum src prms).length = count m src.data.length := by
  unfold segmentsOf
  rw [List.length_map, List.length_range]

private theorem getElem_segmentsOf {i : Nat} (h : i < (segmentsOf m refNum src prms).length) :
    (segmentsOf m refNum src prms)[i] = segmentOf m refNum src prms i := by
  simp only [segmentsOf, List.getElem_map, List.getElem_range]

private theorem take_segmentsOf (hk : k < count m src.data.length) :
    (segmentsOf m refNum src prms).take (k + 1) =
      (segmentsOf m refNum src prms).take k ++ [segmentOf m refNum src prms k] := by
  rw [List.take_add_one]
  unfold segmentsOf
  rw [List.getElem?_map, List.getElem?_range hk]
  rfl

/-- The segments submitted after some more callbacks. -/
theorem Serves.run (hM : Serves M cut submitted isConcatenated) (hm : 0 < m) (hm' : m < 256)
    (hc : CutUpTo m refNum src prms k (cut s)) (hk : k < count m src.data.length) (hs : isConcatenated s)
    (hsub : submitted s = (segmentsOf m refNum src prms).take (k + 1)) (es : List ε) :
    if k + es.length ≤ count m src.data.length then
      ∃ t, M.run (fun _ _ => true) s es = some t ∧
        submitted t = (segmentsOf m refNum src prms).take (k + es.length + 1) ∧
        (isConcatenated t ↔ k + es.length ≠ count m src.data.length)
    else M.run (fun _ _ => true) s es = none := by
  induction es generalizing s k with
  | nil =>
    rw [if_pos (by simp only [List.length_nil]; omega)]
    exact ⟨s, rfl, hsub, iff_of_true hs (by simp only [List.length_nil]; omega)⟩
  | cons e es ih =>
    have hnext := hc.next hm hm'
    simp only [List.length_cons, Machine.run, if_true]
    split at hnext
    · -- the segment `k + 1` is submitted
      rename_i hk'
      obtain ⟨c', hn, hc'⟩ := hnext
      obtain ⟨t, ht, rfl, hsub', ht'⟩ := hM.next s e _ _ hs hn
      have htake : submitted t = (segmentsOf m refNum src prms).take (k + 1 + 1) := by
        rw [hsub', hsub, take_segmentsOf hk']
      rw [ht, Option.bind_some, show k + (es.length + 1) = k + 1 + es.length by omega]
      exact ih hc' hk' ht' htake
    · -- the last segment is confirmed
      rename_i hk'
      obtain ⟨t, ht, hsub', ht'⟩ := hM.last s e hs hnext
      rw [ht, Option.bind_some]
      cases es with
      | nil =>
        simp only [List.length_nil]
        rw [if_pos (by omega)]
        refine ⟨t, rfl, ?_, iff_of_false (by rw [ht']; exact Bool.false_ne_true) (by omega)⟩
        have hlen : (segmentsOf m refNum src prms).length ≤ k + 1 := by
          rw [length_segmentsOf]
          omega
        rw [hsub', hsub, List.take_of_length_le hlen, List.take_of_length_le (by omega)]
      | cons e' es =>
        rw [if_neg (by simp only [List.length_cons]; omega)]
        simp only [Machine.run, if_true, hM.ended t e' ht', Option.bind_none]

/-- The segments are those of the message as long as an octet numbers them. -/
theorem segmentation_of (hm : 0 < m) (hr : refNum < 256) (hn : count m src.data.length ≤ 255) :
    Segmentation src.data m (segmentsOf m refNum src prms) := by
  refine ⟨?_, ⟨refNum, hr, fun i hi => ?_⟩, fun g hg => ?_⟩
  · unfold segmentsOf
    rw [List.map_map]
    exact flatten_pieces hm
  · rw [getElem_segmentsOf]
    rw [length_segmentsOf] at hi ⊢
    unfold segmentOf fillUdh smsIeiConc8Bit
    rw [Nat.mod_eq_of_lt hr, Nat.mod_eq_of_lt (by omega), Nat.mod_eq_of_lt (by omega)]
  · obtain ⟨i, -, rfl⟩ := List.mem_map.1 hg
    change (piece m src.data i).length ≤ m
    rw [length_piece]
    exact Nat.min_le_left _ _

/-- The message goes out in its segments exactly as long as an octet numbers them. -/
theorem Serves.segmented_iff (hM : Serves M cut submitted isConcatenated) (hm : 0 < m) (hm' : m < 256)
    (hr : refNum < 256) (hc : CutUpTo m refNum src prms 0 (cut s)) (hs : isConcatenated s)
    (hsub : submitted s = [segmentOf m refNum src prms 0]) (hn : 0 < count m src.data.length) (e : ε) :
    Segmented M submitted isConcatenated s src.data m ↔ count m src.data.length ≤ 255 := by
  have hfirst : submitted s = (segmentsOf m refNum src prms).take (0 + 1) := by
    rw [hsub, take_segmentsOf hn, List.take_zero, List.nil_append]
  have hrun := hM.run hm hm' hc hn hs hfirst
  constructor
  · rintro ⟨segs, ⟨-, ⟨r, -, header⟩, -⟩, h⟩
    -- the operation ends after as many callbacks as there are segments
    have h1 := h (List.replicate segs.length e)
    have h2 := hrun (List.replicate segs.length e)
    rw [List.length_replicate, if_pos (Nat.le_refl _)] at h1
    rw [List.length_replicate, Nat.zero_add] at h2
    obtain ⟨t, ht, hsubt, hendt⟩ := h1
    split at h2
    · obtain ⟨t', ht', hsubt', hendt'⟩ := h2
      rw [ht] at ht'
      cases ht'
      have hlen : segs.length = count m src.data.length := by
        rw [hendt] at hendt'
        omega
      have hsegs : segs = segmentsOf m refNum src prms := by
        rw [hsubt, List.take_of_length_le (by omega), List.take_of_length_le (by rw [length_segmentsOf]; omega)] at hsubt'
        exact hsubt'
      subst hsegs
      have h0 := header 0 (by rw [length_segmentsOf]; exact hn)
      rw [getElem_segmentsOf, length_segmentsOf] at h0
      unfold segmentOf fillUdh at h0
      simp only [UdhData.mk.injEq, List.cons.injEq] at h0
      omega
    · rw [ht] at h2
      cases h2
  · intro hle
    refine ⟨_, @segmentation_of src m refNum prms hm hr hle, fun es => ?_⟩
    have h := hrun es
    rw [Nat.zero_add] at h
    rw [length_segmentsOf]
    exact h

end

/-! ### Sending and storing -/

private theorem cmgs_serves :
    Serves cmgsMachine (fun s => s.shrd.cut) Cmgs.submitted fun s => s.shrd.isConcatenated := by
  refine ⟨fun s e h => if_neg (by rw [h]; exact Bool.false_ne_true), fun s mr g c h hn => ?_, fun s mr h hn => ?_⟩
  · refine ⟨_, if_pos h, ?_⟩
    simp only [rConcSmsPlusCmgs, hn]
    exact ⟨trivial, trivial, h⟩
  · refine ⟨_, if_pos h, ?_⟩
    simp only [rConcSmsPlusCmgs, hn]
    exact ⟨trivial, trivial⟩

private theorem cmgw_serves :
    Serves cmgwMachine (fun s => s.shrd.cut) Cmgw.submitted fun s => s.shrd.isConcatenated := by
  refine ⟨fun s e h => if_neg (by rw [h]; exact Bool.false_ne_true), fun s e g c h hn => ?_, fun s e h hn => ?_⟩
  · refine ⟨_, if_pos h, ?_⟩
    simp only [rConcSmsPlusCmgw, hn]
    exact ⟨trivial, trivial, h⟩
  · refine ⟨_, if_pos h, ?_⟩
    simp only [rConcSmsPlusCmgw, hn]
    exact ⟨trivial, trivial⟩

variable {id : ExtCmsCmdId} {firstRec : Nat}

theorem split_whole (h : src.data.length ≤ lim.single alphabet) :
    concSmsSplit lim random tables src alphabet id c = (false, src.data, c) := by
  have hlt := lim.single_lt alphabet
  unfold concSmsSplit
  rw [if_pos h, Nat.mod_eq_of_lt (by omega), List.take_length]

private theorem splitRefNum_lt : splitRefNum random tables id < 256 := by
  unfold splitRefNum
  split
  · exact Nat.mod_lt _ (by decide)
  · exact Nat.mod_lt _ (by decide)
  · exact Nat.mod_lt _ (by decide)

/-- The first segment of a long message is cut. -/
theorem split_first (h : lim.single alphabet < src.data.length) :
    ∃ c', concSmsSplit lim random tables src alphabet id c = (true, piece (lim.conc alphabet) src.data 0, c') ∧
      ∀ prm sentBytes prms, (∀ i, 0 < i → prm = prms i) →
        CutUpTo (lim.conc alphabet) (splitRefNum random tables id) src prms 0
          { c' with prm := prm, data := src.data, sentBytes := sentBytes } := by
  have hle := lim.conc_le alphabet
  unfold concSmsSplit
  rw [if_neg (Nat.not_le_of_lt h)]
  refine ⟨_, by unfold piece; rw [Nat.zero_mul, List.drop_zero], fun prm sentBytes prms hp => ⟨rfl, rfl, hp, rfl, ?_⟩⟩
  change lim.conc alphabet = min ((0 + 1) * lim.conc alphabet) src.data.length
  omega

private theorem count_pos (h : lim.single alphabet < src.data.length) :
    0 < count (lim.conc alphabet) src.data.length := by
  rw [lt_count_iff (lim.conc_pos alphabet)]
  omega

private theorem segmentOf_zero (hc : CutUpTo m refNum src prms 0 c) :
    segmentOf m refNum src prms 0 =
      ⟨prms 0, piece m src.data 0, fillUdh c.udh.refNum c.udh.maxNum c.udh.seqNum⟩ := by
  rw [hc.udh]
  rfl

theorem sendsMessage_iff : SendsMessage lim random tables prm src alphabet p ↔
    src.data.length ≤ lim.single alphabet ∨ count (lim.conc alphabet) src.data.length ≤ 255 := by
  have hm' := Nat.lt_of_le_of_lt (lim.conc_le alphabet) (lim.single_lt alphabet)
  unfold SendsMessage cmgsStart concSmsInitSend
  by_cases h : src.data.length ≤ lim.single alphabet
  · rw [split_whole h]
    exact iff_of_true rfl (.inl h)
  · have hlong := Nat.lt_of_not_le h
    obtain ⟨c', hc, hcut⟩ := @split_first lim random tables src alphabet p.cut .cmgsConc hlong
    rw [hc, or_iff_right h]
    have hcut0 := hcut prm 0 (fun _ => prm) fun _ _ => rfl
    refine cmgs_serves.segmented_iff (lim.conc_pos alphabet) hm' splitRefNum_lt hcut0 rfl ?_ (count_pos hlong) 0
    rw [segmentOf_zero hcut0]

theorem storesMessage_iff : StoresMessage lim random tables firstRec prm src alphabet p ↔
    src.data.length ≤ lim.single alphabet ∨ count (lim.conc alphabet) src.data.length ≤ 255 := by
  have hm' := Nat.lt_of_le_of_lt (lim.conc_le alphabet) (lim.single_lt alphabet)
  unfold StoresMessage cmgwStart concSmsInitStoreInMem
  by_cases h : src.data.length ≤ lim.single alphabet
  · rw [split_whole h]
    exact iff_of_true rfl (.inl h)
  · have hlong := Nat.lt_of_not_le h
    obtain ⟨c', hc, hcut⟩ := @split_first lim random tables src alphabet p.cut .cmgwConc hlong
    rw [hc, or_iff_right h]
    have hcut0 := hcut { prm with stat := some (prm.stat.getD smsStatStoUnsent), index := cmgwIdxFreeEntry }
      c'.sentBytes
      (fun i => if i = 0 then prm
        else { prm with stat := some (prm.stat.getD smsStatStoUnsent), index := cmgwIdxFreeEntry })
      fun i hi => (if_neg (Nat.ne_of_gt hi)).symm
    refine cmgw_serves.segmented_iff (lim.conc_pos alphabet) hm' splitRefNum_lt hcut0 rfl ?_ (count_pos hlong) (0, .me)
    rw [segmentOf_zero hcut0]
    rfl

/-- The message that `sAT_PlusCMGS` and `sAT_PlusCMGW` pass on; they cut off what `CONC_MAX_SEGS` segments do not
hold. -/
def SmDataExt.cutOff (src : SmDataExt) (lim : ConcLimits) (alphabet : Nat) : SmDataExt :=
  ⟨src.data.take (min src.data.length (lim.conc alphabet * concMaxSegs)), by
    rw [List.length_take]
    exact Nat.lt_of_le_of_lt (Nat.min_le_right _ _) src.isLt⟩

private theorem count_cutOff : count (lim.conc alphabet) (src.cutOff lim alphabet).data.length ≤ 255 := by
  rw [count_le_iff (lim.conc_pos alphabet)]
  unfold SmDataExt.cutOff concMaxSegs
  rw [List.length_take]
  omega

end

/-- A long message is sent and stored in segments that make it up and are numbered one after the other exactly as long as
an octet can hold the number of segments; so are the messages that the commands pass on. -/
theorem long_sms_segmented_iff (lim : ConcLimits) (random : Option Nat) (tables : ConcSms) (firstRec : Nat)
    (prm : SmParameters) (src : SmDataExt) (alphabet : Nat) (p : ConcShrdPrm) :
    (SendsMessage lim random tables prm src alphabet p ↔
      src.data.length ≤ lim.single alphabet ∨ src.data.length ≤ 255 * lim.conc alphabet) ∧
    (StoresMessage lim random tables firstRec prm src alphabet p ↔
      src.data.length ≤ lim.single alphabet ∨ src.data.length ≤ 255 * lim.conc alphabet) ∧
    SendsMessage lim random tables prm (src.cutOff lim alphabet) alphabet p ∧
    StoresMessage lim random tables firstRec prm (src.cutOff lim alphabet) alphabet p := by
  have hpos := lim.conc_pos alphabet
  refine ⟨?_, ?_, ?_, ?_⟩
  · rw [sendsMessage_iff, count_le_iff hpos]
  · rw [storesMessage_iff, count_le_iff hpos]
  · exact sendsMessage_iff.2 (.inr count_cutOff)
  · exact storesMessage_iff.2 (.inr count_cutOff)

/-- A message of 256 segments is not numbered: the headers say that there are none. -/
theorem long_sms_256_segments :
    ¬ SendsMessage concLimits none concSmsInit ⟨0, none, none, none, none, 0, 0, none, 0⟩
      ⟨List.replicate 39168 0, by rw [List.length_replicate]; decide⟩ 0
      ⟨⟨0, ⟨0, 0, 0⟩, ⟨0, none, none, none, none, 0, 0, none, 0⟩, [], 0, 0⟩, 0, 0, false⟩ := by
  rw [sendsMessage_iff, List.length_replicate]
  decide

end Citrine.Aci
