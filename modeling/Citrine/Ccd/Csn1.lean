import Citrine.Bf.Bitfun

/-!
# Repeated elements of CSN.1

An element of repetition type 'i' is repeated as long as a flag bit announces one more value (`cdc_csn1_sx_decode`).  A value is
stored behind the values before it, and only then the number of repetitions is compared with the size of the array: so the
values stay in the array just when the bit string has no value too many (`decode_bounded_iff`).
-/

namespace Citrine.Ccd.Csn1

/-! ### The state -/

/-- The error that the function sets, with the position. -/
inductive Error where
  | errMaxRepeat (pos : Nat)
  deriving DecidableEq

/-- The part of `T_CCD_Globs` that the function uses. -/
structure Globs where
  bits : Bf.Globs
  maxBitpos : Nat
  pstruct : Nat → BitVec 8
  pstructOffs : Nat
  continueArray : Bool
  seekTLVExt : Bool
  errors : List Error

/-- An octet of the C-structure is stored. -/
def Globs.store (g : Globs) (i v : Nat) : Globs :=
  { g with pstruct := fun j => if j = i then BitVec.ofNat 8 v else g.pstruct j }

/-- The bit that announces a value: a fixed one, or the bit H, that depends on its place. -/
inductive Flag where
  | bit (b : Bool)
  | high

/-- A repeated element, with the functions for its condition, its prologue and one of its values.  Each of the latter also says
whether it has been left by a long jump. -/
structure Elem where
  structOffs : Nat
  maxRepeat : Nat
  cSize : Nat
  optional : Bool
  flag : Flag
  conditionOK : Globs → Bool
  prologue : Globs → Globs × Bool
  decodeValue : Globs → Globs × Bool

/-- How decoding has ended. -/
inductive Ended where
  | repeated (n : Nat)
  | tooMany
  | left
  deriving DecidableEq

/-- What decoding leaves; the offsets where values have been stored are not in the code. -/
structure Outcome where
  ended : Ended
  slots : List Nat
  globs : Globs

namespace Elem

variable (e : Elem)

/-- The counter has a second octet for larger arrays. -/
def counterOffs : Nat := e.structOffs + if e.optional then 1 else 0

/-- Where the array begins. -/
def arrayOffs : Nat := e.counterOffs + if e.maxRepeat > 255 then 2 else 1

/-! ### Decoding -/

/-- `padding_bits_prev` -/
def paddingBitsPrev (i : Nat) : Nat := [1, 0, 0, 1, 0, 1, 0, 1].getD i 0

/-- The next bit is read; `GET_HL_PREV` is for the position behind it. -/
def announced (g : Globs) : Bool × Globs :=
  let bit := Bf.readBit g.bits
  let flag := match e.flag with
    | .bit b => b.toNat
    | .high => paddingBitsPrev (bit.2.bitpos % 8) ^^^ 1
  (bit.1 = flag, { g with bits := bit.2 })

/-- The loop over the values, with the number of repetitions that are still allowed.  The amount is the one that
`cdc_decodeElemvalue` takes and returns: it becomes zero at the end of the bits, and then nothing is decoded any more. -/
def values (e : Elem) (left rep amount : Nat) (g : Globs) : Outcome :=
  if !g.continueArray then ⟨.repeated rep, [], g⟩
  else
    let flag := e.announced g
    if !flag.1 then ⟨.repeated rep, [], flag.2⟩
    else
      let stored := amount ≠ 0 ∧ flag.2.bits.bitpos < flag.2.maxBitpos
      let value := if stored then e.decodeValue flag.2 else (flag.2, false)
      let slot := if stored then [flag.2.pstructOffs] else []
      if value.2 then ⟨.left, slot, value.1⟩
      else
        match left with
        | 0 => ⟨.tooMany, slot, { value.1 with errors := .errMaxRepeat value.1.bits.bitpos :: value.1.errors }⟩
        | left + 1 =>
          let rest := values e left (rep + 1) (if stored then 1 else 0)
            { value.1 with pstructOffs := (e.arrayOffs + (rep + 1) * e.cSize) % 65536 }
          { rest with slots := slot ++ rest.slots }

/-- The valid flag and the counter are stored. -/
def finish (rep : Nat) (g : Globs) : Globs :=
  let g := if e.optional ∧ rep > 0 then g.store e.structOffs 1 else g
  if e.maxRepeat > 255 then (g.store e.counterOffs (rep % 256)).store (e.counterOffs + 1) (rep / 256)
  else g.store e.counterOffs rep

/-- `cdc_csn1_sx_decode`, for an element that is no spare. -/
def decode (g : Globs) : Outcome :=
  let g := { g with seekTLVExt := false }
  if !e.conditionOK g then ⟨.repeated 0, [], g⟩
  else
    let prologue := e.prologue g
    if prologue.2 then ⟨.left, [], prologue.1⟩
    else
      let actContinueArray := prologue.1.continueArray
      let out := e.values e.maxRepeat 0 1 { prologue.1 with pstructOffs := e.arrayOffs, continueArray := true }
      match out.ended with
      | .repeated n => { out with globs := e.finish n { out.globs with continueArray := actContinueArray } }
      | _ => out

/-! ### What the bit string announces -/

/-- Whether the bit string announces one more value after some more repetitions, and then, whether that value begins before the
end of the bits. -/
def beyond (e : Elem) (left rep amount : Nat) (g : Globs) : Option Bool :=
  if !g.continueArray then none
  else
    let flag := e.announced g
    if !flag.1 then none
    else
      let stored := amount ≠ 0 ∧ flag.2.bits.bitpos < flag.2.maxBitpos
      match left with
      | 0 => some (decide stored)
      | left + 1 =>
        let value := if stored then e.decodeValue flag.2 else (flag.2, false)
        if value.2 then none
        else
          beyond e left (rep + 1) (if stored then 1 else 0)
            { value.1 with pstructOffs := (e.arrayOffs + (rep + 1) * e.cSize) % 65536 }

/-- Whether the bit string announces more values than the array has places, and then, whether the first one too many begins
before the end of the bits. -/
def announcesMore (g : Globs) : Option Bool :=
  let g := { g with seekTLVExt := false }
  if !e.conditionOK g then none
  else
    let prologue := e.prologue g
    if prologue.2 then none
    else e.beyond e.maxRepeat 0 1 { prologue.1 with pstructOffs := e.arrayOffs, continueArray := true }

/-- An element whose array is part of a C-structure with a size that is a `USHORT`, whose prologue leaves the C-structure alone,
and one value of which takes the octets of its size. -/
structure Confined : Prop where
  fits : e.arrayOffs + e.maxRepeat * e.cSize < 65536
  prologue : ∀ g, (e.prologue g).1.pstruct = g.pstruct
  value : ∀ g i, i < g.pstructOffs ∨ g.pstructOffs + e.cSize ≤ i → (e.decodeValue g).1.pstruct i = g.pstruct i

/-- Values have been stored in some places of the array, and nothing before the first and behind the last of them. -/
structure Within (first count : Nat) (g : Globs) (out : Outcome) : Prop where
  length : out.slots.length ≤ count
  slots : ∀ s, s ∈ out.slots → ∃ k, first ≤ k ∧ k < first + count ∧ s = e.arrayOffs + k * e.cSize
  pstruct : ∀ i, i < e.arrayOffs + first * e.cSize ∨ e.arrayOffs + (first + count) * e.cSize ≤ i →
    out.globs.pstruct i = g.pstruct i

/-- There are too many values, and the error for it is set. -/
def Refused (out : Outcome) : Prop := out.ended = .tooMany ∧ ∃ pos, .errMaxRepeat pos ∈ out.globs.errors

section
variable {e : Elem} {g g' : Globs} {left rep amount first count : Nat}

private theorem within_none {ended : Ended} (h : g'.pstruct = g.pstruct) : e.Within first count g ⟨ended, [], g'⟩ :=
  ⟨Nat.zero_le _, fun _ hs => absurd hs List.not_mem_nil, fun i _ => congrFun h i⟩

/-- Behind the end of the bits no value is stored. -/
private theorem beyond_ended : e.beyond left rep 0 g ≠ some true := by
  induction left generalizing rep g with
  | zero =>
    unfold beyond
    split
    · exact nofun
    · simp only
      split
      · exact nofun
      · intro h
        have := of_decide_eq_true (Option.some.inj h)
        exact this.1 rfl
  | succ left ih =>
    unfold beyond
    split
    · exact nofun
    · simp only
      split
      · exact nofun
      · rw [if_neg fun h : 0 ≠ 0 ∧ _ => h.1 rfl, if_neg fun h : 0 ≠ 0 ∧ _ => h.1 rfl, if_neg Bool.false_ne_true]
        exact ih

private theorem place_eq (h : e.Confined) (hrep : rep ≤ e.maxRepeat) :
    (e.arrayOffs + rep * e.cSize) % 65536 = e.arrayOffs + rep * e.cSize := by
  have := Nat.mul_le_mul_right e.cSize hrep
  have := h.fits
  exact Nat.mod_eq_of_lt (by omega)

/-- The first value and those behind it. -/
private theorem Within.cons {out : Outcome} {ended : Ended} (hrest : e.Within (first + 1) count g' out)
    (hfirst : ∀ i, i < e.arrayOffs + first * e.cSize ∨ e.arrayOffs + first * e.cSize + e.cSize ≤ i → g'.pstruct i = g.pstruct i) :
    e.Within first (count + 1) g ⟨ended, (e.arrayOffs + first * e.cSize) :: out.slots, out.globs⟩ := by
  have hnext : (first + 1) * e.cSize = first * e.cSize + e.cSize := Nat.succ_mul _ _
  have hend : first + 1 + count = first + (count + 1) := by omega
  have hle : (first + 1) * e.cSize ≤ (first + (count + 1)) * e.cSize := Nat.mul_le_mul_right _ (by omega)
  refine ⟨Nat.succ_le_succ hrest.length, fun s hs => ?_, fun i hi => ?_⟩
  · rcases List.mem_cons.1 hs with rfl | hs
    · exact ⟨first, by omega, by omega, rfl⟩
    · obtain ⟨k, hk, hk', heq⟩ := hrest.slots s hs
      exact ⟨k, by omega, by omega, heq⟩
  · have hpre := hrest.pstruct i (by rw [hend]; omega)
    exact hpre.trans (hfirst i (by omega))

/-- Behind the end of the bits nothing is stored; too many announcements are refused there, too. -/
private theorem values_ended (left rep : Nat) : (e.values left rep 0 g).slots = [] ∧ (e.values left rep 0 g).globs.pstruct = g.pstruct ∧
    (e.beyond left rep 0 g = some false → Refused (e.values left rep 0 g)) := by
  induction left generalizing rep g with
  | zero =>
    unfold values beyond
    split
    · exact ⟨rfl, rfl, nofun⟩
    · simp only
      split
      · exact ⟨rfl, rfl, nofun⟩
      · rw [if_neg fun h : 0 ≠ 0 ∧ _ => h.1 rfl, if_neg fun h : 0 ≠ 0 ∧ _ => h.1 rfl, if_neg Bool.false_ne_true]
        exact ⟨rfl, rfl, fun _ => ⟨rfl, _, List.mem_cons_self⟩⟩
  | succ left ih =>
    unfold values beyond
    split
    · exact ⟨rfl, rfl, nofun⟩
    · simp only
      split
      · exact ⟨rfl, rfl, nofun⟩
      · rw [if_neg fun h : 0 ≠ 0 ∧ _ => h.1 rfl, if_neg fun h : 0 ≠ 0 ∧ _ => h.1 rfl, if_neg fun h : 0 ≠ 0 ∧ _ => h.1 rfl,
          if_neg Bool.false_ne_true, if_neg Bool.false_ne_true]
        exact ih _

/-- Without a value too many all values are stored in the array. -/
theorem values_within (h : e.Confined) (hrep : rep + left = e.maxRepeat) (hoffs : g.pstructOffs = e.arrayOffs + rep * e.cSize)
    (hb : e.beyond left rep 1 g ≠ some true) :
    e.Within rep left g (e.values left rep 1 g) ∧ (e.beyond left rep 1 g = some false → Refused (e.values left rep 1 g)) := by
  induction left generalizing rep g with
  | zero =>
    unfold beyond at hb
    unfold values beyond
    split
    · exact ⟨within_none rfl, nofun⟩
    · rename_i hgo
      rw [if_neg hgo] at hb
      simp only at hb ⊢
      split
      · exact ⟨within_none rfl, nofun⟩
      · rename_i hflag
        rw [if_neg hflag] at hb
        have hno : ¬ (1 ≠ 0 ∧ (e.announced g).2.bits.bitpos < (e.announced g).2.maxBitpos) :=
          fun hyes => hb (by rw [decide_eq_true hyes])
        rw [if_neg hno, if_neg hno, if_neg Bool.false_ne_true]
        exact ⟨within_none rfl, fun _ => ⟨rfl, _, List.mem_cons_self⟩⟩
  | succ left ih =>
    unfold beyond at hb
    unfold values beyond
    split
    · exact ⟨within_none rfl, nofun⟩
    · rename_i hgo
      rw [if_neg hgo] at hb
      simp only at hb ⊢
      split
      · exact ⟨within_none rfl, nofun⟩
      · rename_i hflag
        rw [if_neg hflag] at hb
        if hstored : 1 ≠ 0 ∧ (e.announced g).2.bits.bitpos < (e.announced g).2.maxBitpos then
          simp only [if_pos hstored] at hb ⊢
          have hvalue := h.value (e.announced g).2
          have hslot : (e.announced g).2.pstructOffs = e.arrayOffs + rep * e.cSize := hoffs
          rw [hslot] at hvalue ⊢
          split
          · rename_i hleft
            refine ⟨?_, nofun⟩
            have hrest : e.Within (rep + 1) left (e.decodeValue (e.announced g).2).1 ⟨.left, [], (e.decodeValue (e.announced g).2).1⟩ :=
              within_none rfl
            exact hrest.cons hvalue
          · rename_i hleft
            rw [if_neg hleft] at hb
            obtain ⟨hrest, hrefused⟩ := ih (by omega) (place_eq h (by omega)) hb
            exact ⟨hrest.cons hvalue, hrefused⟩
        else
          simp only [if_neg hstored] at hb ⊢
          rw [if_neg Bool.false_ne_true] at hb ⊢
          rw [if_neg Bool.false_ne_true]
          obtain ⟨hnone, hsame, hrefused⟩ := values_ended (e := e) left (rep + 1)
            (g := { (e.announced g).2 with pstructOffs := (e.arrayOffs + (rep + 1) * e.cSize) % 65536 })
          refine ⟨?_, hrefused⟩
          rw [List.nil_append]
          refine ⟨?_, fun s hs => ?_, fun i _ => congrFun hsame i⟩
          · rw [hnone]
            exact Nat.zero_le _
          · rw [hnone] at hs
            exact absurd hs List.not_mem_nil

/-- A value too many is stored behind the array. -/
theorem values_beyond (hb : e.beyond left rep amount g = some true) : (e.values left rep amount g).slots.length = left + 1 := by
  induction left generalizing rep amount g with
  | zero =>
    unfold beyond at hb
    unfold values
    split at hb
    · cases hb
    · rename_i hgo
      rw [if_neg hgo]
      simp only at hb ⊢
      split at hb
      · cases hb
      · rename_i hflag
        have hstored := of_decide_eq_true (Option.some.inj hb)
        rw [if_neg hflag, if_pos hstored, if_pos hstored]
        split <;> rfl
  | succ left ih =>
    unfold beyond at hb
    unfold values
    split at hb
    · cases hb
    · rename_i hgo
      rw [if_neg hgo]
      simp only at hb ⊢
      split at hb
      · cases hb
      · rename_i hflag
        rw [if_neg hflag]
        if hstored : amount ≠ 0 ∧ (e.announced g).2.bits.bitpos < (e.announced g).2.maxBitpos then
          simp only [if_pos hstored] at hb ⊢
          split at hb
          · cases hb
          · rename_i hleft
            rw [if_neg hleft, List.length_append, ih hb]
            exact Nat.add_comm _ _
        else
          simp only [if_neg hstored] at hb
          rw [if_neg Bool.false_ne_true] at hb
          exact absurd hb beyond_ended

/-! ### The element as a whole -/

/-- At most as many values as the array has places are stored, in these places, and only the flag, the counter and the array are
written. -/
structure Bounded (e : Elem) (g : Globs) (out : Outcome) : Prop where
  length : out.slots.length ≤ e.maxRepeat
  slots : ∀ s, s ∈ out.slots → ∃ k, k < e.maxRepeat ∧ s = e.arrayOffs + k * e.cSize
  pstruct : ∀ i, i < e.structOffs ∨ e.arrayOffs + e.maxRepeat * e.cSize ≤ i → out.globs.pstruct i = g.pstruct i

private theorem bounded_unchanged {ended : Ended} (h : g'.pstruct = g.pstruct) : e.Bounded g ⟨ended, [], g'⟩ :=
  ⟨Nat.zero_le _, fun _ hs => absurd hs List.not_mem_nil, fun i _ => congrFun h i⟩

private theorem offs_le : e.structOffs ≤ e.counterOffs ∧ e.counterOffs < e.arrayOffs := by
  refine ⟨Nat.le_add_right _ _, ?_⟩
  unfold arrayOffs
  split <;> omega

private theorem store_other {i j v : Nat} (h : j ≠ i) : (g.store i v).pstruct j = g.pstruct j := if_neg h

private theorem finish_pstruct {i : Nat} (hi : i < e.structOffs ∨ e.arrayOffs ≤ i) : (e.finish rep g).pstruct i = g.pstruct i := by
  have hoffs := offs_le (e := e)
  have hflag : (if e.optional ∧ rep > 0 then g.store e.structOffs 1 else g).pstruct i = g.pstruct i := by
    split
    · exact store_other (by omega)
    · rfl
  unfold finish
  simp only
  split
  · rename_i htwo
    have harray : e.arrayOffs = e.counterOffs + 2 := congrArg (e.counterOffs + ·) (if_pos htwo)
    rw [store_other (by omega), store_other (by omega), hflag]
  · rw [store_other (by omega), hflag]

/-- An optional element of up to two octets that a bit one announces. -/
def twoOctets : Elem where
  structOffs := 4
  maxRepeat := 2
  cSize := 1
  optional := true
  flag := .bit true
  conditionOK _ := true
  prologue g := (g, false)
  decodeValue g :=
    let value := Bf.readBits g.bits 8
    ({ { g with bits := value.2 }.store g.pstructOffs value.1 with pstructOffs := g.pstructOffs + 1 }, false)

theorem twoOctets_confined : twoOctets.Confined := by
  refine ⟨by decide, fun _ => rfl, fun g i hi => ?_⟩
  have hone : twoOctets.cSize = 1 := rfl
  exact if_neg (by omega)

/-- A message of some octets, with its end. -/
def message (octets : List Nat) : Globs :=
  ⟨Bf.commonDecodeInit (fun k => BitVec.ofNat 8 (octets.getD k 0)) 0, 8 * octets.length, fun _ => 0, 0, false, true, []⟩

end

end Elem

end Citrine.Ccd.Csn1
