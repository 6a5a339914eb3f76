import Citrine.Lib.Bits
import Mathlib.Tactic.IntervalCases

/-!
# Information elements that are left over

`SeekForGSMExtensions` (`ccd.c`) looks through the octets of a message that the decoder has not taken, for elements that must
be understood.  It visits the tags of the elements one after the other, and reports the first one that must be understood or
else the last one.  "None found" is the tag FF, so that an element with this tag is not reported (`seek_iff`).
-/

namespace Citrine.Ccd.SeekExt

open Bits

/-! ### The scan -/

/-- `errTag`, `errPos`, and whether `errCode` is `ERR_COMPREH_REQUIRED`; else it is `ERR_IE_NOT_EXPECTED`. -/
structure Err where
  tag : BitVec 8
  pos : Nat
  comprehRequired : Bool
  deriving DecidableEq, Repr

/-- A call of `ccd_setError`. -/
structure Report where
  comprehRequired : Bool
  brk : Bool
  tag : BitVec 8
  pos : Nat
  deriving DecidableEq, Repr

section
variable (sat : Bool) (buf : Octets) (octNr : Nat)

/-- Whether an element with a tag must be understood, for `aim_sat` and for the other entities. -/
def comprehRequired (t : BitVec 8) : Bool := if sat then t &&& 0x80#8 == 0x80#8 else t &&& 0xf0#8 == 0#8

/-- The loop over the contents of an element that ends with two octets of zeros. -/
def endOfContents : Nat → Nat → Nat
  | 0, bp => bp
  | fuel + 1, bp =>
    let bp := bp + 1
    if ¬ (buf bp = 0#8 ∧ buf (bp + 1) = 0#8) ∧ bp < octNr then endOfContents fuel bp else bp

/-- The length of an element by the octet in front of it, and the last octet of the length. -/
def readLength (bp : Nat) : Nat × Nat :=
  let bp := bp + 1
  let l := (buf bp).toNat
  if l = 0x80 then (0, endOfContents buf octNr (octNr + 1) bp + 1)
  else if l = 0x81 then ((buf (bp + 1)).toNat, bp + 1)
  else if l = 0x82 then ((buf (bp + 1)).toNat * 256 + (buf (bp + 2)).toNat, bp + 2)
  else (l, bp)

/-- `while (L > 0 && BP < OctNr)` -/
def skipOctets : Nat → Nat → Nat
  | 0, bp => bp
  | l + 1, bp => if bp < octNr then skipOctets l (bp + 1) else bp

/-- The loop of `SeekForGSMExtensions`: the octets where it has looked for a tag, and what it has found in the end.  A
message has at most 8192 octets, so that a position does not wrap. -/
def seekLoop : Nat → Nat → Err → List Nat × Err
  | 0, _, err => ([], err)
  | fuel + 1, bp, err =>
    if bp < octNr then
      let t := buf bp
      if comprehRequired sat t then ([bp], ⟨t, bp * 8, true⟩)
      else
        let last :=
          if t &&& 0x80#8 ≠ 0x80#8 then
            let l := readLength buf octNr bp
            skipOctets octNr l.1 l.2
          else bp
        let r := seekLoop fuel (last + 1) ⟨t, bp * 8, false⟩
        (bp :: r.1, r.2)
    else ([], err)

/-- `SeekForGSMExtensions`, with the octets that are visited; `errCode` has no value in the beginning. -/
def seekForGSMExtensions (bytepos buflen : Nat) (errCode : Bool) : List Nat × Option Report :=
  let octNr := (buflen + 7) / 8
  let r := seekLoop sat buf octNr octNr bytepos ⟨0xff#8, 0, errCode⟩
  (r.1, if r.2.tag ≠ 0xff#8 then some ⟨r.2.comprehRequired, r.2.comprehRequired, r.2.tag, r.2.pos⟩ else none)

end

/-! ### Elements -/

/-- How the length of an element is coded. -/
inductive LengthForm where
  | oneByte | two | three
  deriving DecidableEq, Repr

/-- A complete element: one octet, or a tag with a length and a value. -/
inductive Ie where
  | short (tag : BitVec 8)
  | tlv (tag : BitVec 8) (form : LengthForm) (value : List (BitVec 8))
  deriving DecidableEq, Repr

def Ie.tag : Ie → BitVec 8
  | .short t => t
  | .tlv t _ _ => t

/-- The octets of a length. -/
def LengthForm.octets (n : Nat) : LengthForm → List (BitVec 8)
  | .oneByte => [BitVec.ofNat 8 n]
  | .two => [0x81#8, BitVec.ofNat 8 n]
  | .three => [0x82#8, BitVec.ofNat 8 (n / 256), BitVec.ofNat 8 (n % 256)]

/-- A form can give a length; in one octet the values 80, 81 and 82 stand for the other forms. -/
def LengthForm.Gives (n : Nat) : LengthForm → Prop
  | .oneByte => n < 256 ∧ n ≠ 0x80 ∧ n ≠ 0x81 ∧ n ≠ 0x82
  | .two => n < 256
  | .three => n < 65536

def Ie.octets : Ie → List (BitVec 8)
  | .short t => [t]
  | .tlv t form value => t :: (form.octets value.length ++ value)

/-- The tag of an element of one octet has bit 8 set, and the other tags have not; the length can be given in its form. -/
def Ie.Valid : Ie → Prop
  | .short t => t &&& 0x80#8 = 0x80#8
  | .tlv t form value => t &&& 0x80#8 ≠ 0x80#8 ∧ form.Gives value.length

def Ie.comprehRequired (sat : Bool) (x : Ie) : Bool := SeekExt.comprehRequired sat x.tag

/-- Where the elements begin that follow each other from an octet on. -/
def starts : Nat → List Ie → List Nat
  | _, [] => []
  | bp, x :: xs => bp :: starts (bp + x.octets.length) xs

/-- The elements up to the first one that must be understood. -/
def visited (sat : Bool) : List Ie → List Ie
  | [] => []
  | x :: xs => if x.comprehRequired sat then [x] else x :: visited sat xs

/-- Some octets are in the buffer from a position on. -/
def InBuffer (buf : Octets) (bp : Nat) (octets : List (BitVec 8)) : Prop :=
  ∀ i, (h : i < octets.length) → buf (bp + i) = octets[i]

/-- What is asked of the report on the elements that are left over. -/
structure Reported (sat : Bool) (bp : Nat) (ies : List Ie) (out : List Nat × Option Report) : Prop where
  visits : out.1 = starts bp (visited sat ies)
  recorded : out.2.isSome
  required : (∃ r, out.2 = some r ∧ r.brk = true ∧ r.comprehRequired = true) ↔
    ∃ x ∈ visited sat ies, x.comprehRequired sat = true

/-! ### What the scan does -/

section
variable {sat : Bool} {buf : Octets} {octNr bp l fuel : Nat} {x : Ie} {ies : List Ie}

private theorem InBuffer.left {a b : List (BitVec 8)} (h : InBuffer buf bp (a ++ b)) : InBuffer buf bp a := by
  intro i hi
  rw [h i (by rw [List.length_append]; omega), List.getElem_append_left hi]

private theorem InBuffer.right {a b : List (BitVec 8)} (h : InBuffer buf bp (a ++ b)) :
    InBuffer buf (bp + a.length) b := by
  intro i hi
  have hb := h (a.length + i) (by rw [List.length_append]; omega)
  rw [List.getElem_append_right (by omega), ← Nat.add_assoc] at hb
  rw [hb]
  congr 1
  omega

private theorem skipOctets_eq (h : bp + l ≤ octNr) : skipOctets octNr l bp = bp + l := by
  induction l generalizing bp with
  | zero => rfl
  | succ l ih =>
    rw [skipOctets, if_pos (by omega), ih (by omega)]
    omega

private theorem octets_pos (x : Ie) : 0 < x.octets.length := by
  cases x <;> simp [Ie.octets]

private theorem tag_at (h : InBuffer buf bp x.octets) : buf bp = x.tag := by
  have h0 := h 0 (octets_pos x)
  rw [Nat.add_zero] at h0
  rw [h0]
  cases x <;> rfl

/-- The length of an element, and the last octet of it. -/
private theorem readLength_eq {t : BitVec 8} {form : LengthForm} {value : List (BitVec 8)}
    (h : InBuffer buf bp (Ie.tlv t form value).octets) (hg : form.Gives value.length) :
    readLength buf octNr bp = (value.length, bp + (form.octets value.length).length) := by
  have h1 := h 1
  have h2 := h 2
  have h3 := h 3
  unfold readLength
  cases form with
  | oneByte =>
    obtain ⟨hlt, h80, h81, h82⟩ := hg
    simp only [Ie.octets, LengthForm.octets, List.length_cons, List.length_append] at h1
    have hl : (buf (bp + 1)).toNat = value.length := by
      rw [h1 (by omega)]
      exact Nat.mod_eq_of_lt hlt
    simp only [hl, if_neg h80, if_neg h81, if_neg h82]
    rfl
  | two =>
    have hlt : value.length < 256 := hg
    simp only [Ie.octets, LengthForm.octets, List.length_cons, List.length_append] at h1 h2
    have ht : (buf (bp + 1)).toNat = 0x81 := by
      rw [h1 (by omega)]
      rfl
    have hl : (buf (bp + 1 + 1)).toNat = value.length := by
      rw [h2 (by omega)]
      exact Nat.mod_eq_of_lt hlt
    simp only [ht, hl]
    rfl
  | three =>
    have hlt : value.length < 65536 := hg
    simp only [Ie.octets, LengthForm.octets, List.length_cons, List.length_append] at h1 h2 h3
    have ht : (buf (bp + 1)).toNat = 0x82 := by
      rw [h1 (by omega)]
      rfl
    have hhi : (buf (bp + 1 + 1)).toNat = value.length / 256 := by
      rw [h2 (by omega)]
      exact Nat.mod_eq_of_lt (by omega)
    have hlo : (buf (bp + 1 + 2)).toNat = value.length % 256 := by
      rw [h3 (by omega)]
      exact Nat.mod_eq_of_lt (by omega)
    have hsum : value.length / 256 * 256 + value.length % 256 = value.length := by omega
    simp only [ht, hhi, hlo, hsum]
    rfl

/-- The last octet of an element that is passed over. -/
private theorem last_octet {octNr : Nat} (hx : x.Valid) (h : InBuffer buf bp x.octets) (hn : bp + x.octets.length ≤ octNr) :
    (if x.tag &&& 0x80#8 ≠ 0x80#8 then skipOctets octNr (readLength buf octNr bp).1 (readLength buf octNr bp).2 else bp) +
      1 = bp + x.octets.length := by
  cases x with
  | short t =>
    have ht : t &&& 0x80#8 = 0x80#8 := hx
    simp [Ie.tag, Ie.octets, ht]
  | tlv t form value =>
    have ht : t &&& 0x80#8 ≠ 0x80#8 := hx.1
    have hlen : (Ie.tlv t form value).octets.length = 1 + (form.octets value.length).length + value.length := by
      simp only [Ie.octets, List.length_cons, List.length_append]
      omega
    rw [hlen] at hn ⊢
    simp only [Ie.tag, readLength_eq h hx.2]
    rw [if_pos ht, skipOctets_eq (by omega)]
    omega

/-- The scan looks at the elements one after the other, up to the first one that must be understood, and keeps the last
one of these. -/
private theorem seekLoop_spec (bp fuel : Nat) (err : Err) (hv : ∀ x ∈ ies, x.Valid) (hbuf : InBuffer buf bp (ies.flatMap Ie.octets))
    (hn : octNr = bp + (ies.flatMap Ie.octets).length) (hf : (ies.flatMap Ie.octets).length ≤ fuel) :
    ∃ err', seekLoop sat buf octNr fuel bp err = (starts bp (visited sat ies), err') ∧
      ((visited sat ies).getLast? = none → err' = err) ∧
      ∀ x, (visited sat ies).getLast? = some x → err'.tag = x.tag ∧ err'.comprehRequired = x.comprehRequired sat := by
  induction ies generalizing bp fuel err with
  | nil =>
    have hn' : octNr = bp := hn
    refine ⟨err, ?_, fun _ => rfl, fun x hx => by cases hx⟩
    cases fuel with
    | zero => rfl
    | succ fuel => rw [seekLoop, if_neg (by omega)]; rfl
  | cons x ies ih =>
    rw [List.flatMap_cons] at hbuf
    rw [List.flatMap_cons, List.length_append] at hn hf
    have hpos := octets_pos x
    have hx := hv x List.mem_cons_self
    obtain ⟨fuel, rfl⟩ : ∃ n, fuel = n + 1 := ⟨fuel - 1, by omega⟩
    have htag := tag_at hbuf.left
    rw [seekLoop, if_pos (by omega)]
    simp only [htag]
    by_cases hreq : comprehRequired sat x.tag = true
    · rw [if_pos hreq]
      have hvis : visited sat (x :: ies) = [x] := if_pos hreq
      rw [hvis]
      refine ⟨_, rfl, fun h => (by cases h), fun y hy => ?_⟩
      cases hy
      exact ⟨rfl, hreq.symm⟩
    · rw [if_neg hreq]
      have hvis : visited sat (x :: ies) = x :: visited sat ies := if_neg hreq
      have hlast := last_octet hx hbuf.left (by omega : bp + x.octets.length ≤ octNr)
      obtain ⟨err', hloop, hnone, hsome⟩ := ih (bp + x.octets.length) fuel ⟨x.tag, bp * 8, false⟩
        (fun y hy => hv y (List.mem_cons_of_mem _ hy)) hbuf.right (by omega) (by omega)
      refine ⟨err', ?_, ?_, ?_⟩
      · rw [hlast, hloop, hvis]
        rfl
      · rw [hvis, List.getLast?_cons]
        intro h
        cases h
      · rw [hvis, List.getLast?_cons]
        intro y hy
        cases hl : (visited sat ies).getLast? with
        | none =>
          rw [hl] at hy
          cases hy
          rw [hnone hl]
          exact ⟨rfl, (Bool.eq_false_iff.2 hreq).symm⟩
        | some z =>
          rw [hl] at hy
          cases hy
          exact hsome z hl

/-- Of the elements that are visited only the last one can be one that must be understood. -/
private theorem required_last (h : (visited sat ies).getLast? = some x) :
    (∃ y ∈ visited sat ies, y.comprehRequired sat = true) ↔ x.comprehRequired sat = true := by
  induction ies with
  | nil => cases h
  | cons y ies ih =>
    by_cases hreq : y.comprehRequired sat = true
    · have hvis : visited sat (y :: ies) = [y] := if_pos hreq
      rw [hvis] at h ⊢
      cases h
      simp [hreq]
    · have hvis : visited sat (y :: ies) = y :: visited sat ies := if_neg hreq
      rw [hvis, List.getLast?_cons] at h
      rw [hvis]
      cases hl : (visited sat ies).getLast? with
      | none =>
        rw [hl] at h
        cases h
        rw [List.getLast?_eq_none_iff.1 hl]
        simp
      | some z =>
        rw [hl] at h
        cases h
        rw [← ih hl]
        simp [hreq]

private theorem visited_ne (sat : Bool) {ies : List Ie} (h : ies ≠ []) : ∃ x, (visited sat ies).getLast? = some x := by
  cases ies with
  | nil => exact absurd rfl h
  | cons x ies =>
    unfold visited
    split
    · exact ⟨x, rfl⟩
    · exact ⟨_, List.getLast?_cons⟩

/-- The elements left over of a message are reported if and only if the last one that is visited does not have the tag
FF. -/
theorem seek_iff {bytepos buflen : Nat} {errCode : Bool} (hv : ∀ x ∈ ies, x.Valid) (hne : ies ≠ [])
    (hbuf : InBuffer buf bytepos (ies.flatMap Ie.octets))
    (hend : (buflen + 7) / 8 = bytepos + (ies.flatMap Ie.octets).length) :
    Reported sat bytepos ies (seekForGSMExtensions sat buf bytepos buflen errCode) ↔
      ∀ x, (visited sat ies).getLast? = some x → x.tag ≠ 0xff#8 := by
  obtain ⟨err, hloop, -, hsome⟩ := @seekLoop_spec sat _ _ _ bytepos ((buflen + 7) / 8) ⟨0xff#8, 0, errCode⟩ hv hbuf
    hend (by omega)
  obtain ⟨x, hx⟩ := visited_ne sat hne
  obtain ⟨htag, hreq⟩ := hsome x hx
  have hout : seekForGSMExtensions sat buf bytepos buflen errCode = (starts bytepos (visited sat ies),
      if err.tag ≠ 0xff#8 then some ⟨err.comprehRequired, err.comprehRequired, err.tag, err.pos⟩ else none) := by
    unfold seekForGSMExtensions
    simp only [hloop]
  rw [hout, hx]
  constructor
  · intro h y hy hff
    cases hy
    have := h.recorded
    rw [if_neg (by rw [htag, hff]; exact fun hne => hne rfl)] at this
    cases this
  · intro h
    have hne' : err.tag ≠ 0xff#8 := htag ▸ h x rfl
    rw [if_pos hne']
    refine ⟨rfl, rfl, ?_⟩
    rw [required_last hx]
    simp only [Option.some.injEq]
    constructor
    · rintro ⟨r, rfl, -, hr⟩
      exact hreq.symm.trans hr
    · intro hr
      exact ⟨_, rfl, hreq.trans hr, hreq.trans hr⟩

end

/-! ### Elements with and without the tag FF -/

def buffer (octets : List (BitVec 8)) : Octets := fun k => octets.getD k 0#8

/-- An element of one octet and one of four that must be understood. -/
theorem requiredElem_reported : Reported false 0 [.short 0x95#8, .tlv 0x05#8 .two [1#8], .short 0xff#8]
    (seekForGSMExtensions false (buffer [0x95#8, 0x05#8, 0x81#8, 1#8, 1#8, 0xff#8]) 0 48 false) := by
  refine (seek_iff (by simp [Ie.Valid, LengthForm.Gives]) (by decide) ?_ (by decide)).2 (by decide)
  intro i hi
  change i < 6 at hi
  interval_cases i <;> rfl

/-- An element that is left over and has the tag FF. -/
theorem lastTag_unreported : ¬ Reported false 0 [.short 0xff#8] (seekForGSMExtensions false (buffer [0xff#8]) 0 8 false) :=
  fun h => absurd h.recorded (by decide)

end Citrine.Ccd.SeekExt
