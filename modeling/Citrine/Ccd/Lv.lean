import Citrine.Bf.Bitfun

/-!
# Elements with a length part

The decoding of the length and the value of an element (`cdc_decode_L`, `cdc_normal_LV_decode`, `cdc_tagged_LV_decode`).  The end
that the length announces is computed in 16 bits, limits the value, and is compared with the end of the message and with the end
of the enclosing element.  The functions contain the value as the length says as long as that computation does not wrap around, a
length is not taken for the indefinite one and, for ASN.1, the value does not pass the end of the message (`Fits`,
`contained_iff`).
-/

namespace Citrine.Ccd.Lv

/-! ### The state -/

/-- The faults that are recorded; `other` are those that do not concern a length. -/
inductive Fault where
  | errElemLen
  | errMsgLen
  | errMandElemMiss
  | other
  deriving DecidableEq

def Fault.isLength (f : Fault) : Bool := f = .errElemLen || f = .errMsgLen

inductive Coding where
  | gsm1Asn | gsm2T | gsm5Tlv | gsm6Tlv | gsm7Lv | other
  deriving DecidableEq

/-- The repetition types ' ', 'i', 'b' and the others. -/
inductive RepType where
  | one | interval | bits | other
  deriving DecidableEq

/-- The part of `T_CCD_Globs` that the functions use; `eocPending` belongs to the level of recursion. -/
structure Globs where
  bits : Bf.Globs
  maxBitpos : Nat
  buflen : Nat
  faults : List Fault
  errLabel : Bool
  pstruct : Nat → BitVec 8
  pstructOffs : Nat
  keepReg0 : Nat
  eocPending : Bool
  numEOCPending : Nat

/-- An element, with the functions for its repetitions, its value and the bits of an ASN.1 integer.  They give no state when they
are left by a long jump. -/
structure Elem where
  codingType : Coding
  repType : RepType
  optional : Bool
  isSpare : Bool
  isVar : Bool
  structOffs : Nat
  maxRepeat : Nat
  cSize : Nat
  calculateRep : Globs → Option (Bool × Nat × Globs)
  decodeElemvalue : Nat → Globs → Option (Nat × Globs)
  readBits : Nat → Globs → Globs

def Elem.asn1 (e : Elem) : Bool := e.codingType = .gsm1Asn

/-- `ccd_recordFault`; with the action `BREAK`, or with an error label, the coding is left by a long jump. -/
def recordFault (f : Fault) (brk : Bool) (g : Globs) : Option Globs :=
  if brk || g.errLabel then none else some { g with faults := f :: g.faults }

/-- An octet of the C-structure is stored, and the offset moves on. -/
def Globs.put (g : Globs) (v : Nat) : Globs :=
  { g with
    pstruct := fun i => if i = g.pstructOffs then BitVec.ofNat 8 v else g.pstruct i
    pstructOffs := g.pstructOffs + 1 }

/-! ### The length -/

/-- A number of up to eight bits. -/
def byte (len : Nat) (g : Globs) : Nat × Globs :=
  let r := Bf.decodeByteNumber g.bits len
  (r.1, { g with bits := r.2 })

/-- A number of 16 bits. -/
def short (g : Globs) : Nat × Globs :=
  let r := Bf.decodeShortNumber g.bits 16
  (r.1, { g with bits := r.2 })

/-- `cdc_decode_L` -/
def decodeL (e : Elem) (lenL : Nat) (g : Globs) : Nat × Globs :=
  let r := match e.codingType with
    | .gsm1Asn =>
      let first := byte 8 g
      if first.1 = 0x80 then (0xffff, first.2)
      else if first.1 = 0x81 then byte 8 first.2
      else if first.1 = 0x82 then short first.2
      else first
    | .gsm5Tlv =>
      let first := byte 8 g
      if first.1 = 0x81 then byte 8 first.2 else first
    | .gsm6Tlv => short g
    | _ => byte lenL g
  (r.1, { r.2 with keepReg0 := r.1 })

/-- The variables for a length: the old end, the end of the value, the length in bits and whether it is indefinite. -/
structure Length where
  actMaxBP : Nat
  tmpMaxBP : Nat
  bits : Nat
  indefinite : Bool

/-- The length part, if the element has one.  For an indefinite length `tmp_maxBP` keeps what it had before, `junk`. -/
def lengthPart (inBits : Bool) (e : Elem) (lenL junk : Nat) (g : Globs) : Option (Option Length × Globs) :=
  if lenL = 0 then some (none, g)
  else if lenL ≤ (g.maxBitpos + 4294967296 - g.bits.bitpos) % 4294967296 then
    let l := decodeL e lenL g
    if l.1 = 0xffff then
      some (some ⟨g.maxBitpos, junk, 0xffff, true⟩,
        { l.2 with eocPending := true, numEOCPending := (l.2.numEOCPending + 1) % 256 })
    else
      let bits := if inBits then l.1 else l.1 * 8
      let tmpMaxBP := (l.2.bits.bitpos + bits) % 65536
      let g₁ :=
        if l.2.buflen < tmpMaxBP then recordFault .errMsgLen false l.2
        else if l.2.maxBitpos < tmpMaxBP then recordFault .errElemLen true l.2
        else some l.2
      g₁.map fun g₁ =>
        (some ⟨g.maxBitpos, min g₁.buflen tmpMaxBP, bits, false⟩, { g₁ with maxBitpos := min g₁.buflen tmpMaxBP })
  else none

/-! ### The end -/

/-- The octets for the end of the contents, for ASN.1 elements. -/
def endOfContents (g : Globs) : Option (Bool × Globs) :=
  if g.numEOCPending ≠ 0 ∧ g.bits.bitpos < g.maxBitpos then
    let t := byte 8 g
    let back := { t.2 with bits := Bf.setBitpos (t.2.bits.bitpos + 65536 - 8) t.2.bits }
    if t.1 = 0 then
      if g.eocPending then
        some (false, { t.2 with
          bits := Bf.incBitpos 8 t.2.bits
          eocPending := false
          numEOCPending := (g.numEOCPending + 255) % 256 })
      else some (true, back)
    else if g.eocPending then none
    else some (false, back)
  else some (false, g)

/-- The position is set to the end of the value, and the old end comes back. -/
def close (e : Elem) (len : Option Length) (g : Globs) : Option Globs :=
  match len with
  | none => some g
  | some len =>
    let g₁ :=
      if e.asn1 then some g
      else if g.bits.bitpos > len.tmpMaxBP then recordFault .errElemLen false g
      else some { g with bits := Bf.setBitpos len.tmpMaxBP g.bits }
    g₁.map fun g₁ => { g₁ with maxBitpos := len.actMaxBP }

/-- What both functions have in common: the length, the value in the way of each function, and the end. -/
def lengthValue (inBits : Bool) (value : Option Length → Globs → Option Globs) (e : Elem) (lenL junk : Nat) (g : Globs) :
    Option (Bool × Globs) :=
  (lengthPart inBits e lenL junk g).bind fun len =>
    (value len.1 len.2).bind fun g =>
      (if e.asn1 then endOfContents g else some (false, g)).bind fun eoc => (close e len.1 eoc.2).map fun g => (eoc.1, g)

/-! ### The functions -/

/-- The value, for some repetitions, with the amount that has been decoded. -/
def decodeValue (e : Elem) (rep : Nat) (len : Option Length) (g : Globs) : Option (Nat × Globs) :=
  match len with
  | some len =>
    if e.asn1 ∧ e.isVar ∧ e.repType = .one ∧ len.indefinite = false then some (len.bits, e.readBits len.bits g)
    else if len.bits > 0 then e.decodeElemvalue rep g
    else some (0, g)
  | none => if e.codingType ≠ .gsm2T then e.decodeElemvalue rep g else some (rep, g)

/-- The value part of `cdc_normal_LV_decode`. -/
def normalValue (e : Elem) (isVariable : Bool) (rep : Nat) (len : Option Length) (g : Globs) : Option Globs :=
  let rep := match len with
    | some len => if e.repType = .bits ∧ len.indefinite = false then len.bits else rep
    | none => rep
  (decodeValue e rep len g).bind fun r =>
    if r.1 ≠ rep ∧ isVariable then
      let offs := if e.optional then e.structOffs + 1 else e.structOffs
      let g := { Globs.put { r.2 with pstructOffs := offs } r.1 with pstructOffs := offs }
      if e.repType ≠ .interval then recordFault .errMandElemMiss false g else some g
    else some r.2

/-- The flag and the counter are stored before the length part of `cdc_normal_LV_decode`. -/
def normalStart (e : Elem) (g : Globs) : Option (Bool × Nat × Globs) :=
  (if e.repType ≠ .one then e.calculateRep g else some (false, 1, g)).map fun r =>
    let g := r.2.2
    if e.isSpare then r
    else
      let g := if e.optional then g.put 1 else g
      (r.1, r.2.1,
        if r.1 then
          if e.maxRepeat > 255 then (g.put (r.2.1 % 256)).put (r.2.1 / 256) else g.put r.2.1
        else g)

/-- `cdc_normal_LV_decode` -/
def normalLVDecode (e : Elem) (lenL junk : Nat) (g : Globs) : Option (Bool × Globs) :=
  (normalStart e g).bind fun r => lengthValue (e.codingType = .gsm7Lv) (normalValue e r.1 r.2.1) e lenL junk r.2.2

/-- The value part of `cdc_tagged_LV_decode`. -/
def taggedValue (e : Elem) (offset : Nat) (len : Option Length) (g : Globs) : Option Globs :=
  (decodeValue e 1 len { g with pstructOffs := g.pstructOffs + offset }).map (·.2)

/-- The flag and the counter are stored before the length part of `cdc_tagged_LV_decode`. -/
def taggedStart (e : Elem) (eIndex : Nat) (g : Globs) : Globs :=
  if e.isSpare then g
  else
    let g := if e.optional then g.put 1 else g
    if e.repType = .interval then
      if e.maxRepeat > 255 then (g.put (eIndex % 256)).put (eIndex / 256) else g.put eIndex
    else g

/-- The place of the value in the array. -/
def taggedOffset (e : Elem) (eIndex : Nat) : Nat :=
  if !e.isSpare ∧ e.repType = .interval then (eIndex - 1) * e.cSize else 0

/-- `cdc_tagged_LV_decode` -/
def taggedLVDecode (e : Elem) (eIndex lenL junk : Nat) (g : Globs) : Option (Bool × Globs) :=
  lengthValue false (taggedValue e (taggedOffset e eIndex)) e lenL junk (taggedStart e eIndex g)

/-! ### What a length announces -/

/-- The number of faults that concern a length. -/
def lengthFaults (g : Globs) : Nat := g.faults.countP Fault.isLength

/-- One of the faults that concern a length has been recorded. -/
def Noticed (g g' : Globs) : Prop := lengthFaults g < lengthFaults g'

/-- The position to which the length reaches; the indefinite form reaches to none. -/
def announcedEnd (inBits : Bool) (e : Elem) (lenL : Nat) (g : Globs) : Option Nat :=
  let l := decodeL e lenL g
  if e.asn1 ∧ (byte 8 g).1 = 0x80 then none
  else some (l.2.bits.bitpos + if inBits then l.1 else l.1 * 8)

/-- The length is contained: the old end is back, the position is inside of the message, and a length that reaches too far has
been noticed.  The length part begins in `g₁`. -/
structure Contained (inBits : Bool) (e : Elem) (lenL : Nat) (g g₁ g' : Globs) : Prop where
  maxBitpos : g'.maxBitpos = g.maxBitpos
  inside : g'.bits.bitpos ≤ g'.buflen ∨ Noticed g g'
  announced : ∀ stop, announcedEnd inBits e lenL g₁ = some stop → g.maxBitpos < stop ∨ g.buflen < stop → Noticed g g'

/-- The end of a value with its octets for the end of the contents. -/
def contentsEnd (g : Globs) : Nat :=
  if g.numEOCPending ≠ 0 ∧ g.bits.bitpos < g.maxBitpos ∧ (byte 8 g).1 = 0 ∧ g.eocPending then (g.bits.bitpos + 16) % 65536
  else g.bits.bitpos

/-- The end is a position, and the length is not taken for the indefinite form. -/
def Exact (inBits : Bool) (e : Elem) (lenL : Nat) (g : Globs) : Prop :=
  ∀ stop, announcedEnd inBits e lenL g = some stop → (decodeL e lenL g).1 ≠ 0xffff ∧ stop < 65536

/-- The end is exact, and the value of an ASN.1 element does not pass the end of the message; or else the end is behind the
message even after it has wrapped around, the value passes the end, or the decoder of the value notices a length. -/
def Fits (inBits : Bool) (value : Option Length → Globs → Option Globs) (e : Elem) (lenL junk : Nat) (g : Globs) : Prop :=
  ∀ len g₁ g₂, lengthPart inBits e lenL junk g = some (some len, g₁) → value (some len) g₁ = some g₂ →
    (Exact inBits e lenL g ∧ (e.asn1 → contentsEnd g₂ ≤ g.buflen)) ∨
    (∃ stop, announcedEnd inBits e lenL g = some stop ∧ (decodeL e lenL g).1 ≠ 0xffff ∧ g.buflen < stop % 65536) ∨
    (e.asn1 = false ∧ len.tmpMaxBP < g₂.bits.bitpos) ∨ Noticed g₁ g₂

section
variable {e : Elem} {g g' g₁ g₂ : Globs} {lenL junk : Nat} {inBits : Bool} {len : Length} {o : Option Length} {r : Bool}

/-! ### The parts -/

private theorem recordFault_spec {f : Fault} {brk : Bool} (h : recordFault f brk g = some g') :
    brk = false ∧ g' = { g with faults := f :: g.faults } := by
  unfold recordFault at h
  split at h
  · cases h
  · rename_i hno
    cases h
    exact ⟨(Bool.or_eq_false_iff.1 (Bool.eq_false_iff.2 hno)).1, rfl⟩

private theorem decodeL_keeps (e : Elem) (lenL : Nat) (g : Globs) : (decodeL e lenL g).2.maxBitpos = g.maxBitpos ∧ (decodeL e lenL g).2.buflen = g.buflen ∧
    (decodeL e lenL g).2.faults = g.faults ∧ (decodeL e lenL g).2.bits.bitpos < 65536 := by
  have hread : ∀ len g, (byte len g).2.bits.bitpos < 65536 := fun _ _ => Nat.mod_lt _ (by omega)
  have hread' : ∀ g, (short g).2.bits.bitpos < 65536 := fun _ => Nat.mod_lt _ (by omega)
  unfold decodeL
  simp only
  split
  · split
    · exact ⟨rfl, rfl, rfl, hread _ _⟩
    · split
      · exact ⟨rfl, rfl, rfl, hread _ _⟩
      · split
        · exact ⟨rfl, rfl, rfl, hread' _⟩
        · exact ⟨rfl, rfl, rfl, hread _ _⟩
  · split <;> exact ⟨rfl, rfl, rfl, hread _ _⟩
  · exact ⟨rfl, rfl, rfl, hread' _⟩
  · exact ⟨rfl, rfl, rfl, hread _ _⟩

/-- Only the indefinite form and the greatest length of 16 bits give the special value. -/
private theorem decodeL_bits (lenL : Nat) (g : Globs) (h : e.codingType = .gsm7Lv) : (decodeL e lenL g).1 < 256 := by
  have hl : decodeL e lenL g = ((byte lenL g).1, { (byte lenL g).2 with keepReg0 := (byte lenL g).1 }) := by
    unfold decodeL
    rw [h]
  rw [hl]
  exact Nat.mod_lt _ (by omega)

private theorem indefinite_special (h : e.asn1 = true) (hfirst : (byte 8 g).1 = 0x80) : (decodeL e lenL g).1 = 0xffff := by
  have hc : e.codingType = .gsm1Asn := of_decide_eq_true h
  unfold decodeL
  rw [hc]
  simp only
  rw [if_pos hfirst]

/-- What the length part does. -/
private theorem lengthPart_spec (hlen : lenL ≠ 0) (h : lengthPart inBits e lenL junk g = some (o, g₁)) :
    ∃ len, o = some len ∧ len.actMaxBP = g.maxBitpos ∧ g₁.buflen = g.buflen ∧ g₁.bits.bitpos < 65536 ∧
      (((decodeL e lenL g).1 = 0xffff ∧ len.tmpMaxBP = junk ∧ lengthFaults g₁ = lengthFaults g) ∨
        ((decodeL e lenL g).1 ≠ 0xffff ∧ ∃ stop, announcedEnd inBits e lenL g = some stop ∧
          ((g.buflen < stop % 65536 ∧ len.tmpMaxBP = g.buflen ∧ lengthFaults g₁ = lengthFaults g + 1) ∨
            (stop % 65536 ≤ g.buflen ∧ stop % 65536 ≤ g.maxBitpos ∧ len.tmpMaxBP = stop % 65536 ∧
              lengthFaults g₁ = lengthFaults g)))) := by
  obtain ⟨hmax, hbuf, hfaults, hpos⟩ := decodeL_keeps e lenL g
  have hsame : lengthFaults (decodeL e lenL g).2 = lengthFaults g := congrArg (List.countP Fault.isLength) hfaults
  unfold lengthPart at h
  rw [if_neg hlen] at h
  split at h
  · simp only at h
    split at h
    · rename_i hspecial
      cases h
      exact ⟨_, rfl, rfl, hbuf, hpos, .inl ⟨hspecial, rfl, hsame⟩⟩
    · rename_i hspecial
      have hend : announcedEnd inBits e lenL g =
          some ((decodeL e lenL g).2.bits.bitpos + if inBits then (decodeL e lenL g).1 else (decodeL e lenL g).1 * 8) :=
        if_neg fun hno => hspecial (indefinite_special hno.1 hno.2)
      generalize (if inBits then (decodeL e lenL g).1 else (decodeL e lenL g).1 * 8) = n at h hend
      generalize decodeL e lenL g = l at h hend hmax hbuf hsame hpos hspecial ⊢
      rw [hend]
      obtain ⟨g₂, hg, heq⟩ := Option.map_eq_some_iff.1 h
      cases heq
      split at hg
      · rename_i hover
        obtain ⟨-, rfl⟩ := recordFault_spec hg
        refine ⟨_, rfl, rfl, hbuf, hpos, .inr ⟨hspecial, _, rfl, .inl ⟨hbuf ▸ hover, ?_, ?_⟩⟩⟩
        · exact (Nat.min_eq_left (Nat.le_of_lt hover)).trans hbuf
        · exact (List.countP_cons_of_pos rfl).trans (congrArg (· + 1) hsame)
      · rename_i hover
        split at hg
        · exact absurd (recordFault_spec hg).1 Bool.noConfusion
        · rename_i hover'
          cases hg
          refine ⟨_, rfl, rfl, hbuf, hpos, .inr ⟨hspecial, _, rfl, .inr ⟨?_, ?_, ?_, hsame⟩⟩⟩
          · rw [← hbuf]
            exact Nat.le_of_not_lt hover
          · rw [← hmax]
            exact Nat.le_of_not_lt hover'
          · exact Nat.min_eq_right (Nat.le_of_not_lt hover)
  · cases h

private theorem endOfContents_spec (hp : g.bits.bitpos < 65536) (h : endOfContents g = some (r, g')) :
    g'.bits.bitpos = contentsEnd g ∧ g'.buflen = g.buflen ∧ g'.faults = g.faults := by
  have hread : (byte 8 g).2.bits.bitpos = (g.bits.bitpos + 8) % 65536 := rfl
  unfold endOfContents at h
  unfold contentsEnd
  split at h
  · rename_i hpending
    simp only at h
    split at h
    · rename_i hzero
      split at h
      · rename_i heoc
        cases h
        refine ⟨?_, rfl, rfl⟩
        rw [if_pos ⟨hpending.1, hpending.2, hzero, heoc⟩]
        change ((byte 8 g).2.bits.bitpos + 8) % 65536 = _
        rw [hread]
        omega
      · rename_i heoc
        cases h
        refine ⟨?_, rfl, rfl⟩
        rw [if_neg fun hno => heoc hno.2.2.2]
        change ((byte 8 g).2.bits.bitpos + 65536 - 8) % 65536 = _
        rw [hread]
        omega
    · rename_i hzero
      split at h
      · cases h
      · cases h
        refine ⟨?_, rfl, rfl⟩
        rw [if_neg fun hno => hzero hno.2.2.1]
        change ((byte 8 g).2.bits.bitpos + 65536 - 8) % 65536 = _
        rw [hread]
        omega
  · rename_i hpending
    cases h
    exact ⟨(if_neg fun hno => hpending ⟨hno.1, hno.2.1⟩).symm, rfl, rfl⟩

private theorem close_asn1 (ha : e.asn1 = true) (h : close e (some len) g = some g') :
    g' = { g with maxBitpos := len.actMaxBP } := by
  unfold close at h
  simp only [if_pos ha, Option.map_some, Option.some.injEq] at h
  exact h.symm

private theorem close_other (ha : e.asn1 = false) (h : close e (some len) g = some g') :
    g'.maxBitpos = len.actMaxBP ∧ g'.buflen = g.buflen ∧
      ((len.tmpMaxBP < g.bits.bitpos ∧ lengthFaults g' = lengthFaults g + 1) ∨
        (g.bits.bitpos ≤ len.tmpMaxBP ∧ g'.bits.bitpos = len.tmpMaxBP % 65536 ∧ lengthFaults g' = lengthFaults g)) := by
  unfold close at h
  simp only [ha, if_neg Bool.false_ne_true] at h
  split at h
  · rename_i hover
    obtain ⟨g₁, hg, heq⟩ := Option.map_eq_some_iff.1 h
    obtain ⟨-, rfl⟩ := recordFault_spec hg
    cases heq
    exact ⟨rfl, rfl, .inl ⟨hover, List.countP_cons_of_pos rfl⟩⟩
  · rename_i hover
    cases h
    exact ⟨rfl, rfl, .inr ⟨Nat.le_of_not_lt hover, rfl, rfl⟩⟩

/-! ### Containment -/

/-- A function that leaves the end of the message alone, keeps the position in its range and forgets no fault. -/
def Keeping (f : Globs → Option Globs) : Prop :=
  ∀ g g', g.bits.bitpos < 65536 → f g = some g' →
    g'.buflen = g.buflen ∧ g'.bits.bitpos < 65536 ∧ lengthFaults g ≤ lengthFaults g'

variable {value : Option Length → Globs → Option Globs}

/-- A length that is taken for the indefinite one reaches behind the message, if it is one. -/
private theorem special_end (hbuf : g.buflen < 65536) (hbits : inBits = true → e.codingType = .gsm7Lv)
    (hspecial : (decodeL e lenL g).1 = 0xffff) {stop : Nat} (hstop : announcedEnd inBits e lenL g = some stop) : g.buflen < stop := by
  have hno : inBits = false := by
    cases hb : inBits with
    | false => rfl
    | true =>
      have := decodeL_bits lenL g (hbits hb)
      omega
  unfold announcedEnd at hstop
  simp only at hstop
  split at hstop
  · cases hstop
  · cases hstop
    rw [hno, if_neg Bool.false_ne_true, hspecial]
    omega

/-- How the element ends: for ASN.1 the position is not compared with the end any more. -/
private theorem ended (hp : g₂.bits.bitpos < 65536)
    (h : ((if e.asn1 then endOfContents g₂ else some (false, g₂)).bind fun eoc =>
      (close e (some len) eoc.2).map fun g => (eoc.1, g)) = some (r, g')) :
    g'.maxBitpos = len.actMaxBP ∧ g'.buflen = g₂.buflen ∧
      ((e.asn1 = true ∧ g'.bits.bitpos = contentsEnd g₂ ∧ lengthFaults g' = lengthFaults g₂) ∨
        (e.asn1 = false ∧ len.tmpMaxBP < g₂.bits.bitpos ∧ lengthFaults g' = lengthFaults g₂ + 1) ∨
        (e.asn1 = false ∧ g₂.bits.bitpos ≤ len.tmpMaxBP ∧ g'.bits.bitpos = len.tmpMaxBP % 65536 ∧
          lengthFaults g' = lengthFaults g₂)) := by
  obtain ⟨eoc, heoc, h⟩ := Option.bind_eq_some_iff.1 h
  obtain ⟨g₃, hclose, heq⟩ := Option.map_eq_some_iff.1 h
  cases heq
  cases ha : e.asn1 with
  | true =>
    rw [if_pos ha] at heoc
    obtain ⟨hpos, hbuf, hfaults⟩ := endOfContents_spec hp heoc
    rw [close_asn1 ha hclose]
    exact ⟨rfl, hbuf, .inl ⟨rfl, hpos, congrArg (List.countP Fault.isLength) hfaults⟩⟩
  | false =>
    rw [if_neg (by rw [ha]; exact Bool.false_ne_true)] at heoc
    cases heoc
    obtain ⟨hmax, hbuf, hover | hinside⟩ := close_other ha hclose
    · exact ⟨hmax, hbuf, .inr (.inl ⟨rfl, hover⟩)⟩
    · exact ⟨hmax, hbuf, .inr (.inr ⟨rfl, hinside⟩)⟩

/-- A fault is recorded for the end of the message, for the end of the value, or by the decoder of the value. -/
private theorem noticed_iff (hlen : lenL ≠ 0) (hpart : lengthPart inBits e lenL junk g = some (some len, g₁))
    (hfaults : lengthFaults g₁ ≤ lengthFaults g₂)
    (hend : (e.asn1 = true ∧ g'.bits.bitpos = contentsEnd g₂ ∧ lengthFaults g' = lengthFaults g₂) ∨
      (e.asn1 = false ∧ len.tmpMaxBP < g₂.bits.bitpos ∧ lengthFaults g' = lengthFaults g₂ + 1) ∨
      (e.asn1 = false ∧ g₂.bits.bitpos ≤ len.tmpMaxBP ∧ g'.bits.bitpos = len.tmpMaxBP % 65536 ∧
        lengthFaults g' = lengthFaults g₂)) :
    Noticed g g' ↔
      (∃ stop, announcedEnd inBits e lenL g = some stop ∧ (decodeL e lenL g).1 ≠ 0xffff ∧ g.buflen < stop % 65536) ∨
      (e.asn1 = false ∧ len.tmpMaxBP < g₂.bits.bitpos) ∨ Noticed g₁ g₂ := by
  obtain ⟨len', hl, -, -, -, hspec⟩ := lengthPart_spec hlen hpart
  cases hl
  unfold Noticed
  constructor
  · intro hnoticed
    rcases hspec with ⟨-, -, hsame⟩ | ⟨hdefinite, stop, hstop, ⟨hover, -, -⟩ | ⟨-, -, -, hsame⟩⟩
    · rcases hend with ⟨-, -, h⟩ | ⟨ha, hpassed, -⟩ | ⟨-, -, -, h⟩
      · exact .inr (.inr (by omega))
      · exact .inr (.inl ⟨ha, hpassed⟩)
      · exact .inr (.inr (by omega))
    · exact .inl ⟨stop, hstop, hdefinite, hover⟩
    · rcases hend with ⟨-, -, h⟩ | ⟨ha, hpassed, -⟩ | ⟨-, -, -, h⟩
      · exact .inr (.inr (by omega))
      · exact .inr (.inl ⟨ha, hpassed⟩)
      · exact .inr (.inr (by omega))
  · have hle : lengthFaults g ≤ lengthFaults g₁ := by
      rcases hspec with ⟨-, -, h⟩ | ⟨-, -, -, ⟨-, -, h⟩ | ⟨-, -, -, h⟩⟩ <;> omega
    have hle' : lengthFaults g₂ ≤ lengthFaults g' := by
      rcases hend with ⟨-, -, h⟩ | ⟨-, -, h⟩ | ⟨-, -, -, h⟩ <;> omega
    rintro (⟨stop, hstop, hdefinite, hover⟩ | ⟨ha, hpassed⟩ | hvalue)
    · rcases hspec with ⟨hspecial, -, -⟩ | ⟨-, stop', hstop', ⟨-, -, hone⟩ | ⟨hinside, -, -, -⟩⟩
      · exact absurd hspecial hdefinite
      · omega
      · rw [hstop] at hstop'
        cases hstop'
        omega
    · rcases hend with ⟨ha', -, -⟩ | ⟨-, -, hone⟩ | ⟨-, hinside, -, -⟩
      · exact absurd (ha.symm.trans ha') Bool.false_ne_true
      · omega
      · omega
    · omega

/-- As long as no fault is recorded, the value is contained as far as the end is exact. -/
private theorem quiet_contained_iff (hlen : lenL ≠ 0) (hbuf : g.buflen < 65536) (hbits : inBits = true → e.codingType = .gsm7Lv)
    (hpart : lengthPart inBits e lenL junk g = some (some len, g₁)) (hbuf' : g'.buflen = g₁.buflen)
    (hmax : g'.maxBitpos = len.actMaxBP) (hquiet : ¬ Noticed g g')
    (hover : ¬ ∃ stop, announcedEnd inBits e lenL g = some stop ∧ (decodeL e lenL g).1 ≠ 0xffff ∧ g.buflen < stop % 65536)
    (hend : (e.asn1 = true ∧ g'.bits.bitpos = contentsEnd g₂) ∨
      (e.asn1 = false ∧ g'.bits.bitpos = len.tmpMaxBP % 65536)) :
    Contained inBits e lenL g g g' ↔ Exact inBits e lenL g ∧ (e.asn1 → contentsEnd g₂ ≤ g.buflen) := by
  obtain ⟨len', hl, hact, hbuf₁, -, hspec⟩ := lengthPart_spec hlen hpart
  cases hl
  constructor
  · rintro ⟨-, hinside, hannounced⟩
    refine ⟨fun stop hstop => ?_, fun ha => ?_⟩
    · have hle : stop ≤ g.buflen := Nat.le_of_not_lt fun hlt => hquiet (hannounced stop hstop (.inr hlt))
      refine ⟨fun hspecial => ?_, by omega⟩
      have := special_end hbuf hbits hspecial hstop
      omega
    · rcases hend with ⟨-, hpos⟩ | ⟨ha', -⟩
      · have hin := hinside.resolve_right hquiet
        omega
      · exact absurd (ha'.symm.trans ha) Bool.false_ne_true
  · rintro ⟨hexact, hcontents⟩
    refine ⟨hmax.trans hact, .inl ?_, fun stop hstop hbehind => ?_⟩
    · rcases hend with ⟨ha, hpos⟩ | ⟨ha, hpos⟩
      · have := hcontents ha
        omega
      · have hsome : ∃ stop, announcedEnd inBits e lenL g = some stop :=
          ⟨_, if_neg fun hno => Bool.false_ne_true (ha.symm.trans hno.1)⟩
        obtain ⟨stop, hstop⟩ := hsome
        rcases hspec with ⟨hspecial, -, -⟩ | ⟨hdefinite, stop', hstop', ⟨hlt, -, -⟩ | ⟨hle, -, htmp, -⟩⟩
        · exact absurd hspecial (hexact stop hstop).1
        · exact absurd ⟨stop', hstop', hdefinite, hlt⟩ hover
        · omega
    · have hwrap := (hexact stop hstop).2
      rcases hspec with ⟨hspecial, -, -⟩ | ⟨hdefinite, stop', hstop', ⟨hlt, -, -⟩ | ⟨hle, hle', -, -⟩⟩
      · exact absurd hspecial (hexact stop hstop).1
      · exact absurd ⟨stop', hstop', hdefinite, hlt⟩ hover
      · rw [hstop] at hstop'
        cases hstop'
        omega

/-- The length and the value between the same state and the end. -/
private theorem lengthValue_contained_iff (hlen : lenL ≠ 0) (hbuf : g.buflen < 65536)
    (hbits : inBits = true → e.codingType = .gsm7Lv) (hkeep : ∀ len, Keeping (value len))
    (h : lengthValue inBits value e lenL junk g = some (r, g')) :
    Contained inBits e lenL g g g' ↔ Fits inBits value e lenL junk g := by
  obtain ⟨⟨o, g₁⟩, hpart, h⟩ := Option.bind_eq_some_iff.1 h
  obtain ⟨g₂, hvalue, h⟩ := Option.bind_eq_some_iff.1 h
  obtain ⟨len, rfl, hact, -, hpos₁, -⟩ := lengthPart_spec hlen hpart
  obtain ⟨hbuf₂, hpos₂, hfaults⟩ := hkeep _ _ _ hpos₁ hvalue
  obtain ⟨hmax, hbuf', hend⟩ := ended hpos₂ h
  have hnoticed := noticed_iff hlen hpart hfaults hend
  have hfits : Fits inBits value e lenL junk g ↔
      (Exact inBits e lenL g ∧ (e.asn1 → contentsEnd g₂ ≤ g.buflen)) ∨ Noticed g g' := by
    rw [hnoticed]
    constructor
    · intro hfits
      exact hfits len g₁ g₂ hpart hvalue
    · intro hall len' g₁' g₂' hpart' hvalue'
      rw [hpart] at hpart'
      cases hpart'
      rw [hvalue] at hvalue'
      cases hvalue'
      exact hall
  rw [hfits]
  by_cases hquiet : Noticed g g'
  · exact iff_of_true ⟨hmax.trans hact, .inr hquiet, fun _ _ _ => hquiet⟩ (.inr hquiet)
  · have hone := quiet_contained_iff hlen hbuf hbits hpart (hbuf'.trans hbuf₂) hmax hquiet
      (fun hover => hquiet (hnoticed.2 (.inl hover)))
      (hend.elim (fun ha => .inl ⟨ha.1, ha.2.1⟩) fun h => h.elim (fun hp => absurd (hnoticed.2 (.inr (.inl ⟨hp.1, hp.2.1⟩))) hquiet)
        fun ho => .inr ⟨ho.1, ho.2.2.1⟩)
    rw [hone]
    exact ⟨.inl, fun h => h.resolve_right hquiet⟩

/-! ### The two functions -/

/-- What the repetitions and the value leave alone. -/
structure Elem.Keeps (e : Elem) : Prop where
  calculateRep : ∀ g rep, e.calculateRep g = some rep →
    rep.2.2.maxBitpos = g.maxBitpos ∧ rep.2.2.buflen = g.buflen ∧ lengthFaults rep.2.2 = lengthFaults g
  decodeElemvalue : ∀ rep, Keeping fun g => (e.decodeElemvalue rep g).map (·.2)
  readBits : ∀ len, Keeping fun g => some (e.readBits len g)

variable {rep : Nat}

private theorem decodeValue_keeps (he : e.Keeps) (hp : g.bits.bitpos < 65536) {amount : Nat}
    (h : decodeValue e rep o g = some (amount, g')) :
    g'.buflen = g.buflen ∧ g'.bits.bitpos < 65536 ∧ lengthFaults g ≤ lengthFaults g' := by
  unfold decodeValue at h
  split at h
  · split at h
    · cases h
      exact he.readBits _ _ _ hp rfl
    · split at h
      · exact he.decodeElemvalue rep g g' hp (congrArg (Option.map (·.2)) h)
      · cases h
        exact ⟨rfl, hp, Nat.le_refl _⟩
  · split at h
    · exact he.decodeElemvalue rep g g' hp (congrArg (Option.map (·.2)) h)
    · cases h
      exact ⟨rfl, hp, Nat.le_refl _⟩
private theorem normalValue_keeping (he : e.Keeps) (isVariable : Bool) : Keeping (normalValue e isVariable rep o) := by
  intro g g' hp h
  unfold normalValue at h
  simp only at h
  generalize (match o with
    | some len => if e.repType = RepType.bits ∧ len.indefinite = false then len.bits else rep
    | none => rep) = n at h
  obtain ⟨⟨amount, g₁⟩, hvalue, h⟩ := Option.bind_eq_some_iff.1 h
  have hkept := decodeValue_keeps he hp hvalue
  simp only at h
  split at h
  · split at h
    · obtain ⟨-, rfl⟩ := recordFault_spec h
      refine ⟨hkept.1, hkept.2.1, Nat.le_trans hkept.2.2 (Nat.le_of_eq ?_)⟩
      exact (List.countP_cons_of_neg (by decide)).symm
    · cases h
      exact hkept
  · cases h
    exact hkept

private theorem taggedValue_keeping (he : e.Keeps) (offset : Nat) : Keeping (taggedValue e offset o) := by
  intro g g' hp h
  obtain ⟨⟨amount, g₁⟩, hvalue, rfl⟩ := Option.map_eq_some_iff.1 h
  exact decodeValue_keeps he (g := { g with pstructOffs := g.pstructOffs + offset }) hp hvalue

private theorem normalStart_keeps (he : e.Keeps) {isVariable : Bool} (h : normalStart e g = some (isVariable, rep, g₁)) :
    g₁.maxBitpos = g.maxBitpos ∧ g₁.buflen = g.buflen ∧ lengthFaults g₁ = lengthFaults g := by
  obtain ⟨start, hstart, heq⟩ := Option.map_eq_some_iff.1 h
  have hkept : start.2.2.maxBitpos = g.maxBitpos ∧ start.2.2.buflen = g.buflen ∧
      lengthFaults start.2.2 = lengthFaults g := by
    split at hstart
    · exact he.calculateRep g start hstart
    · cases hstart
      exact ⟨rfl, rfl, rfl⟩
  have hsame : g₁.maxBitpos = start.2.2.maxBitpos ∧ g₁.buflen = start.2.2.buflen ∧ g₁.faults = start.2.2.faults := by
    simp only at heq
    split at heq
    · cases heq
      exact ⟨rfl, rfl, rfl⟩
    · rw [Prod.mk.injEq, Prod.mk.injEq] at heq
      obtain ⟨-, -, rfl⟩ := heq
      repeat' split
      all_goals exact ⟨rfl, rfl, rfl⟩
  rw [hsame.1, hsame.2.1]
  exact ⟨hkept.1, hkept.2.1, (congrArg (List.countP Fault.isLength) hsame.2.2).trans hkept.2.2⟩

private theorem taggedStart_keeps (eIndex : Nat) : (taggedStart e eIndex g).maxBitpos = g.maxBitpos ∧
    (taggedStart e eIndex g).buflen = g.buflen ∧ (taggedStart e eIndex g).faults = g.faults := by
  unfold taggedStart
  simp only
  repeat' split
  all_goals exact ⟨rfl, rfl, rfl⟩

/-- The flag and the counter do not change what is contained. -/
private theorem contained_start (h : g₁.maxBitpos = g.maxBitpos ∧ g₁.buflen = g.buflen ∧ lengthFaults g₁ = lengthFaults g) :
    Contained inBits e lenL g g₁ g' ↔ Contained inBits e lenL g₁ g₁ g' := by
  have hnoticed : Noticed g g' ↔ Noticed g₁ g' := by
    unfold Noticed
    rw [h.2.2]
  constructor
  · rintro ⟨hmax, hinside, hannounced⟩
    refine ⟨hmax.trans h.1.symm, hinside.imp_right hnoticed.1, fun stop hstop hbehind => ?_⟩
    exact hnoticed.1 (hannounced stop hstop (by omega))
  · rintro ⟨hmax, hinside, hannounced⟩
    refine ⟨hmax.trans h.1, hinside.imp_right hnoticed.2, fun stop hstop hbehind => ?_⟩
    exact hnoticed.2 (hannounced stop hstop (by omega))

/-- Both functions contain what the length announces exactly as far as its end is computed right, the decoder of the value
complains, or an ASN.1 value stays inside of the message. -/
theorem contained_iff (he : e.Keeps) (hlen : lenL ≠ 0) (hbuf : g.buflen < 65536) :
    (∀ isVariable rep g₁ r g', normalStart e g = some (isVariable, rep, g₁) → normalLVDecode e lenL junk g = some (r, g') →
      (Contained (e.codingType = .gsm7Lv) e lenL g g₁ g' ↔
        Fits (e.codingType = .gsm7Lv) (normalValue e isVariable rep) e lenL junk g₁)) ∧
    ∀ eIndex r g', taggedLVDecode e eIndex lenL junk g = some (r, g') →
      (Contained false e lenL g (taggedStart e eIndex g) g' ↔
        Fits false (taggedValue e (taggedOffset e eIndex)) e lenL junk (taggedStart e eIndex g)) := by
  refine ⟨fun isVariable rep g₁ r g' hstart h => ?_, fun eIndex r g' h => ?_⟩
  · have hkept := normalStart_keeps he hstart
    unfold normalLVDecode at h
    rw [hstart, Option.bind_some] at h
    rw [contained_start hkept]
    exact lengthValue_contained_iff hlen (hkept.2.1 ▸ hbuf) of_decide_eq_true (fun len => normalValue_keeping he isVariable) h
  · obtain ⟨hmax, hbuf', hfaults⟩ := taggedStart_keeps (e := e) (g := g) eIndex
    rw [contained_start ⟨hmax, hbuf', congrArg (List.countP Fault.isLength) hfaults⟩]
    exact lengthValue_contained_iff hlen (hbuf' ▸ hbuf) nofun (fun len => taggedValue_keeping he _) h
/-! ### A value of one octet -/

/-- An element of one octet. -/
def oneOctet (codingType : Coding) : Elem where
  codingType
  repType := .one
  optional := false
  isSpare := false
  isVar := true
  structOffs := 0
  maxRepeat := 1
  cSize := 1
  calculateRep g := some (false, 1, g)
  decodeElemvalue rep g := some (rep, let v := byte 8 g; v.2.put v.1)
  readBits len g := { g with bits := Bf.incBitpos len g.bits }

theorem oneOctet_keeps (codingType : Coding) : (oneOctet codingType).Keeps where
  calculateRep g rep h := by
    cases h
    exact ⟨rfl, rfl, rfl⟩
  decodeElemvalue rep g g' _ h := by
    cases h
    exact ⟨rfl, Nat.mod_lt _ (by omega), Nat.le_refl _⟩
  readBits len g g' _ h := by
    cases h
    exact ⟨rfl, Nat.mod_lt _ (by omega), Nat.le_refl _⟩

/-- A message of some octets. -/
def message (octets : List Nat) : Globs where
  bits := Bf.commonDecodeInit (fun k => BitVec.ofNat 8 (octets.getD k 0)) 0
  maxBitpos := 8 * octets.length
  buflen := 8 * octets.length
  faults := []
  errLabel := false
  pstruct _ := 0
  pstructOffs := 0
  keepReg0 := 0
  eocPending := false
  numEOCPending := 0

private theorem fits_of_exact (stop : Nat) (ha : e.asn1 = false) (hend : announcedEnd inBits e lenL g = some stop)
    (hl : (decodeL e lenL g).1 ≠ 0xffff) (hstop : stop < 65536) : Fits inBits value e lenL junk g := by
  intro len g₁ g₂ _ _
  refine .inl ⟨fun stop' hstop' => ⟨hl, ?_⟩, fun ha' => absurd (ha.symm.trans ha') Bool.false_ne_true⟩
  rw [hend] at hstop'
  cases hstop'
  exact hstop

/-- A length of one octet is contained, with a length part of 8 bits and with one of 16 bits. -/
theorem oneOctet_contained :
    (∃ out, normalLVDecode (oneOctet .other) 8 0 (message [1, 0xaa]) = some out ∧
      Contained ((oneOctet .other).codingType = .gsm7Lv) (oneOctet .other) 8 (message [1, 0xaa]) (message [1, 0xaa]) out.2) ∧
    ∃ out, taggedLVDecode (oneOctet .gsm6Tlv) 1 16 0 (message [0, 1, 0xaa]) = some out ∧
      Contained false (oneOctet .gsm6Tlv) 16 (message [0, 1, 0xaa]) (message [0, 1, 0xaa]) out.2 := by
  constructor
  · obtain ⟨out, hout⟩ := Option.isSome_iff_exists.1
      (show (normalLVDecode (oneOctet .other) 8 0 (message [1, 0xaa])).isSome by decide +kernel)
    refine ⟨out, hout, ((contained_iff (oneOctet_keeps .other) (by decide) (by decide)).1 false 1 _ out.1 out.2 rfl hout).2 ?_⟩
    exact fits_of_exact 16 (by decide) (by decide +kernel) (by decide +kernel) (by decide)
  · obtain ⟨out, hout⟩ := Option.isSome_iff_exists.1
      (show (taggedLVDecode (oneOctet .gsm6Tlv) 1 16 0 (message [0, 1, 0xaa])).isSome by decide +kernel)
    refine ⟨out, hout, ((contained_iff (oneOctet_keeps .gsm6Tlv) (by decide) (by decide)).2 1 out.1 out.2 hout).2 ?_⟩
    exact fits_of_exact 24 (by decide) (by decide +kernel) (by decide +kernel) (by decide)

/-- A length of `0x2001` octets is treated as a length of one octet. -/
theorem wrapped_length : ∃ out, taggedLVDecode (oneOctet .gsm6Tlv) 1 16 0 (message [0x20, 1, 0xaa]) = some out ∧
    ¬ Contained false (oneOctet .gsm6Tlv) 16 (message [0x20, 1, 0xaa]) (message [0x20, 1, 0xaa]) out.2 := by
  obtain ⟨out, hout, hfaults⟩ := Option.map_eq_some_iff.1
    (show (taggedLVDecode (oneOctet .gsm6Tlv) 1 16 0 (message [0x20, 1, 0xaa])).map (fun out => lengthFaults out.2) = some 0 by
      decide +kernel)
  refine ⟨out, hout, fun hcontained => ?_⟩
  have hnoticed : Noticed (message [0x20, 1, 0xaa]) out.2 :=
    hcontained.announced 65560 (by decide +kernel) (.inr (by decide))
  unfold Noticed at hnoticed
  omega

end

end Citrine.Ccd.Lv
