import Citrine.Bf.Reading
import Mathlib.Data.Nat.Find
import Mathlib.Tactic.Tauto

/-!
# Extended groups of octets

The loop of `ccd_decodeComposition` (`ccd.c`) over the elements of a composition, with the extension bits that lead groups
of octets and the bits that announce more data.  Two loops skip octets of a later version of the protocol: one in front of
an element, when the last extension bit has announced an octet that the composition has no element for (`Loop.group`), and
one behind the last element of a group with a more-data bit (`Loop.moreData`).  What the decoders of the elements do is a
parameter.

The second loop stops at the end of the message, the first one does not (`extGroup_contained_iff`).
-/

namespace Citrine.Ccd.ExtGroup

open Bits

/-! ### The state -/

/-- `extGroup` of an entry of `melem` -/
inductive Mark where
  | none | plus | minus | star | moreData | lastMoreData | other
  deriving DecidableEq, Repr

section
variable {ρ : Type}

/-- `T_CCD_Globs`: the bit buffer, and a `rest` that is left to the decoders of the elements. -/
structure Globs (ρ : Type) where
  bits : Bf.Globs
  coherent : Bf.Coherent bits
  maxBitpos : Nat
  tagPending : Bool
  rest : ρ

/-- `bf_readBit` -/
def Globs.readBit (g : Globs ρ) : Nat × Globs ρ :=
  ((Bf.readBit g.bits).1,
    { g with bits := (Bf.readBit g.bits).2, coherent := (Bf.readBit_reads g.coherent).coherent })

/-- `bf_incBitpos` -/
def Globs.incBitpos (n : Nat) (g : Globs ρ) : Globs ρ :=
  { g with bits := Bf.incBitpos n g.bits, coherent := g.coherent.setBitpos }

/-- `bf_endOfBitstream` -/
def Globs.endOfBitstream (g : Globs ρ) : Bool := decide (g.maxBitpos ≤ g.bits.bitpos)

/-- An entry of `melem`. -/
structure Elem (ρ : Type) where
  extGroup : Mark
  /-- `ccd_isOptional` -/
  isOptional : Globs ρ → Bool
  /-- Whether the prolog sets the position. -/
  setsPos : Bool
  /-- The decoding function with its result; `none` when it is left by a long jump. -/
  decode : Globs ρ → Option (Int × Globs ρ)

/-- The variables of `ccd_decodeComposition`; references count from the beginning of the composition. -/
structure Locals (ρ : Type) where
  eRef : Nat
  extendedGroupActive : Bool
  groupExtended : Bool
  setPosExpected : Bool
  globs : Globs ρ

/-! ### Skipping octets -/

inductive Loop where
  | group | moreData
  deriving DecidableEq, Repr

/-- The extension bit that announces one more octet. -/
def Loop.more : Loop → Nat
  | .group => 0
  | .moreData => 1

/-- Whether a loop goes on behind an octet that announces another one. -/
def Loop.goesOn (l : Loop) (g : Globs ρ) : Bool :=
  match l with
  | .group => true
  | .moreData => !g.endOfBitstream

/-- The do-while loops: the positions of the bits that have been read, and `GroupExtended` in the end. -/
def skipOctets (l : Loop) : Nat → Globs ρ → Option (List Nat × Bool × Globs ρ)
  | 0, _ => none
  | fuel + 1, g =>
    let bit := g.readBit
    let groupExtended := decide (bit.1 = l.more)
    let g' := bit.2.incBitpos 7
    if groupExtended ∧ l.goesOn g' then (skipOctets l fuel g').map fun r => (g.bits.bitpos :: r.1, r.2)
    else some ([g.bits.bitpos], groupExtended, g')

/-- A loop that is entered. -/
structure Skip (ρ : Type) where
  loop : Loop
  entry : Globs ρ

/-- How a loop is left.  It is back at its first bit after 8192 octets, so that a loop that is not left by then is never
left. -/
def Skip.outcome (x : Skip ρ) : Option (Bool × Globs ρ) := (skipOctets x.loop 8192 x.entry).map (·.2)

/-! ### The elements of a composition -/

/-- What follows a round of the loop over the elements. -/
inductive Next (ρ : Type) where
  | goOn (s : Locals ρ)
  | finished (g : Globs ρ)
  | error
  | endless

/-- `e_ref += codecRet` -/
def advance (eRef : Nat) (codecRet : Int) : Nat := if codecRet = 0x7f then eRef else (eRef + codecRet).toNat

/-- The element behind the last one of the group that ends with a mark. -/
def behindGroup (elems : List (Elem ρ)) (mark : Mark) (eRef : Nat) : Nat :=
  eRef + ((elems.drop eRef).takeWhile fun e => decide (e.extGroup ≠ mark)).length + 1

variable (elems : List (Elem ρ)) (e : Elem ρ) (s : Locals ρ)

/-- The element is decoded, and what follows is done in the state behind it. -/
def decodeElem (k : Locals ρ → Next ρ) : Next ρ :=
  match e.decode s.globs with
  | none => .error
  | some (codecRet, g) => k { s with eRef := advance s.eRef codecRet, globs := g }

/-- `GroupExtended = (bf_readBit (globs) EQ 0)` -/
def readExtension : Locals ρ :=
  let bit := s.globs.readBit
  { s with groupExtended := decide (bit.1 = 0), globs := bit.2 }

/-- An element with a more-data bit. -/
def moreDataElem : List (Skip ρ) × Next ρ :=
  let bit := s.globs.readBit
  if bit.1 = 1 then
    match e.decode bit.2 with
    | none => ([], .error)
    | some (codecRet, g) =>
      if e.extGroup = .lastMoreData then
        let x : Skip ρ := ⟨.moreData, g⟩
        match x.outcome with
        | none => ([x], .endless)
        | some (groupExtended, g) =>
          ([x], .goOn { s with eRef := advance s.eRef codecRet, groupExtended := groupExtended, globs := g })
      else ([], .goOn { s with eRef := advance s.eRef codecRet, globs := g })
  else ([], .goOn { s with eRef := behindGroup elems .lastMoreData s.eRef, globs := bit.2 })

/-- The element by its mark. -/
def markedElem : List (Skip ρ) × Next ρ :=
  match e.extGroup with
  | .none => ([], decodeElem e s .goOn)
  | .plus => ([], decodeElem e (readExtension { s with extendedGroupActive := true }) .goOn)
  | .minus =>
    ([], decodeElem e s fun s =>
      if s.groupExtended then .goOn (readExtension s)
      else .goOn { s with extendedGroupActive := false, eRef := behindGroup elems .star s.eRef })
  | .star =>
    let s := if s.extendedGroupActive then s else readExtension s
    ([], decodeElem e { s with extendedGroupActive := false } .goOn)
  | .moreData | .lastMoreData => moreDataElem elems e s
  | .other => ([], .error)

/-- The check for the end of the message, and the element. -/
def checkedElem : List (Skip ρ) × Next ρ :=
  if s.globs.endOfBitstream ∧ ¬ s.globs.tagPending then
    let s := { s with setPosExpected := s.setPosExpected || e.setsPos }
    if s.setPosExpected then markedElem elems e s
    else if (elems.drop s.eRef).all fun e => e.isOptional s.globs then ([], .finished s.globs)
    else ([], .error)
  else markedElem elems e s

/-- One round of the loop of `ccd_decodeComposition`, with the loops that have been entered in it. -/
def decodeRound : List (Skip ρ) × Next ρ :=
  if e.extGroup ≠ .none ∧ s.groupExtended ∧ ¬ s.extendedGroupActive then
    let x : Skip ρ := ⟨.group, s.globs⟩
    match x.outcome with
    | none => ([x], .endless)
    | some (groupExtended, g) =>
      let r := checkedElem elems e { s with groupExtended := groupExtended, globs := g }
      (x :: r.1, r.2)
  else checkedElem elems e s

/-- The loops that are entered in the first rounds. -/
def skips : Nat → Locals ρ → List (Skip ρ)
  | 0, _ => []
  | n + 1, s =>
    match elems[s.eRef]? with
    | none => []
    | some e =>
      let r := decodeRound elems e s
      match r.2 with
      | .goOn s' => r.1 ++ skips n s'
      | _ => r.1


/-! ### When the loops stay inside the message -/

variable {elems : List (Elem ρ)} {l : Loop} {g : Globs ρ} {fuel k : Nat}

/-- The position of the extension bit of an octet behind the entry of a loop; a position is a `USHORT`. -/
def Globs.octet (g : Globs ρ) (k : Nat) : Nat := (g.bits.bitpos + 8 * k) % 65536

/-- The extension bit of an octet. -/
def Globs.extension (g : Globs ρ) (k : Nat) : Nat := field g.bits.bitbuf (g.octet k) 1

/-- An octet behind which a loop is left. -/
def Last (l : Loop) (g : Globs ρ) (k : Nat) : Prop :=
  g.extension k ≠ l.more ∨ l = .moreData ∧ g.maxBitpos ≤ g.octet (k + 1)

/-- A loop comes to an end and reads no bit behind the message. -/
def Skip.Contained (x : Skip ρ) : Prop :=
  ∃ fuel reads out, skipOctets x.loop fuel x.entry = some (reads, out) ∧ ∀ p ∈ reads, p < x.entry.maxBitpos

/-- In front of an element: an octet within the message announces no other one.  Behind a group with a more-data bit: an
octet is left of the message, and either the positions do not come back to its beginning or one of its extension bits
announces no other octet. -/
def Skip.Ends (x : Skip ρ) : Prop :=
  match x.loop with
  | .group => ∃ k, x.entry.extension k = 1 ∧ ∀ j ≤ k, x.entry.octet j < x.entry.maxBitpos
  | .moreData => x.entry.bits.bitpos < x.entry.maxBitpos ∧
      (x.entry.maxBitpos ≤ 65528 + x.entry.bits.bitpos % 8 ∨ ∃ k, x.entry.extension k = 0)

private theorem bitpos_lt (g : Globs ρ) : g.bits.bitpos < 65536 := g.coherent.aligned.bitpos

/-- What is left of a loop behind its first octet. -/
private theorem next_octet (g : Globs ρ) :
    (g.readBit.2.incBitpos 7).bits.bitpos = g.octet 1 ∧ (g.readBit.2.incBitpos 7).bits.bitbuf = g.bits.bitbuf ∧
      (g.readBit.2.incBitpos 7).maxBitpos = g.maxBitpos := by
  have hr := Bf.readBit_reads g.coherent
  refine ⟨?_, hr.bitbuf, rfl⟩
  change ((Bf.readBit g.bits).2.bitpos + 7) % 65536 = (g.bits.bitpos + 8 * 1) % 65536
  rw [hr.bitpos]
  omega

private theorem octet_succ (g : Globs ρ) (k : Nat) : (g.readBit.2.incBitpos 7).octet k = g.octet (k + 1) := by
  unfold Globs.octet
  rw [(next_octet g).1]
  unfold Globs.octet
  omega

private theorem extension_succ (g : Globs ρ) (k : Nat) : (g.readBit.2.incBitpos 7).extension k = g.extension (k + 1) := by
  unfold Globs.extension
  rw [octet_succ, (next_octet g).2.1]

private theorem last_succ : Last l (g.readBit.2.incBitpos 7) k ↔ Last l g (k + 1) := by
  unfold Last
  rw [extension_succ, octet_succ, (next_octet g).2.2]

private theorem octet_zero (g : Globs ρ) : g.octet 0 = g.bits.bitpos := Nat.mod_eq_of_lt (bitpos_lt g)

/-- A loop is left behind its first octet or goes on with the next one. -/
private theorem skipOctets_succ (l : Loop) (fuel : Nat) (g : Globs ρ) :
    (Last l g 0 → ∃ out, skipOctets l (fuel + 1) g = some ([g.octet 0], out)) ∧
    (¬ Last l g 0 → skipOctets l (fuel + 1) g =
      (skipOctets l fuel (g.readBit.2.incBitpos 7)).map fun r => (g.octet 0 :: r.1, r.2)) := by
  have hbit : g.readBit.1 = g.extension 0 := by
    unfold Globs.extension
    rw [octet_zero]
    exact (Bf.readBit_reads g.coherent).value
  have hon : l.goesOn (g.readBit.2.incBitpos 7) = true ↔ ¬ (l = .moreData ∧ g.maxBitpos ≤ g.octet 1) := by
    cases l with
    | group => simp [Loop.goesOn]
    | moreData =>
      simp only [Loop.goesOn, Globs.endOfBitstream, (next_octet g).1, (next_octet g).2.2]
      simp
  rw [skipOctets]
  unfold Last
  simp only [hbit, decide_eq_true_eq, octet_zero, hon]
  refine ⟨fun h => ?_, fun h => ?_⟩
  · rw [if_neg (by tauto)]
    exact ⟨_, rfl⟩
  · rw [if_pos (by tauto)]

/-- A loop is left behind the first of its last octets. -/
private theorem skipOctets_last (hk : Last l g k) (hj : ∀ j < k, ¬ Last l g j) (hf : k < fuel) :
    ∃ out, skipOctets l fuel g = some ((List.range (k + 1)).map g.octet, out) := by
  induction k generalizing g fuel with
  | zero =>
    obtain ⟨fuel, rfl⟩ : ∃ n, fuel = n + 1 := ⟨fuel - 1, by omega⟩
    exact (skipOctets_succ l fuel g).1 hk
  | succ k ih =>
    obtain ⟨fuel, rfl⟩ : ∃ n, fuel = n + 1 := ⟨fuel - 1, by omega⟩
    obtain ⟨out, hout⟩ := ih (last_succ.2 hk) (fun j hjk => last_succ.not.2 (hj (j + 1) (by omega))) (by omega : k < fuel)
    refine ⟨out, ?_⟩
    rw [(skipOctets_succ l fuel g).2 (hj 0 (by omega)), hout, List.range_succ_eq_map (n := k + 1), Option.map_some]
    simp only [List.map_cons, List.map_map]
    congr 3
    exact List.map_congr_left fun j _ => octet_succ g j

private theorem skipOctets_none (hj : ∀ j < fuel, ¬ Last l g j) : skipOctets l fuel g = none := by
  induction fuel generalizing g with
  | zero => rfl
  | succ fuel ih =>
    rw [(skipOctets_succ l fuel g).2 (hj 0 (by omega)),
      ih fun j hjf => last_succ.not.2 (hj (j + 1) (by omega)), Option.map_none]

/-- The first of the octets behind which a loop is left. -/
private theorem first_last (h : ∃ k, Last l g k) : ∃ k, Last l g k ∧ ∀ j < k, ¬ Last l g j := by
  classical
  exact ⟨Nat.find h, Nat.find_spec h, fun _ => Nat.find_min h⟩

private theorem contained_iff_last (x : Skip ρ) :
    x.Contained ↔ ∃ k, Last x.loop x.entry k ∧ ∀ j ≤ k, x.entry.octet j < x.entry.maxBitpos := by
  constructor
  · rintro ⟨fuel, reads, out, h, hp⟩
    have hlast : ∃ k, Last x.loop x.entry k := by
      by_contra hnone
      rw [not_exists] at hnone
      rw [skipOctets_none fun j _ => hnone j] at h
      cases h
    obtain ⟨k, hk, hj⟩ := first_last hlast
    have hf : k < fuel := by
      by_contra hf
      rw [skipOctets_none fun j hjf => hj j (by omega)] at h
      cases h
    obtain ⟨out', hout⟩ := skipOctets_last hk hj hf
    rw [h, Option.some.injEq, Prod.mk.injEq] at hout
    rw [hout.1] at hp
    exact ⟨k, hk, fun j hjk => hp _ (List.mem_map_of_mem (List.mem_range.2 (by omega)))⟩
  · rintro ⟨k, hk, hin⟩
    obtain ⟨k', hk', hj⟩ := first_last ⟨k, hk⟩
    have hle : k' ≤ k := not_lt.1 fun hlt => hj k hlt hk
    obtain ⟨out, hout⟩ := skipOctets_last hk' hj (Nat.lt_succ_self k')
    refine ⟨k' + 1, _, out, hout, fun p hp => ?_⟩
    obtain ⟨j, hjk, rfl⟩ := List.mem_map.1 hp
    have := List.mem_range.1 hjk
    exact hin j (by omega)

/-- A loop that is not left within 8192 octets is never left. -/
theorem Skip.outcome_none {x : Skip ρ} (h : x.outcome = none) (fuel : Nat) : skipOctets x.loop fuel x.entry = none := by
  have hperiod : ∀ j, x.entry.octet j = x.entry.octet (j % 8192) := by
    intro j
    unfold Globs.octet
    omega
  have hsucc : ∀ j, x.entry.octet (j + 1) = x.entry.octet (j % 8192 + 1) := by
    intro j
    unfold Globs.octet
    omega
  have hrange : ∀ j < 8192, ¬ Last x.loop x.entry j := by
    intro j hj hlast
    obtain ⟨k, hk, hfirst⟩ := first_last ⟨j, hlast⟩
    have hle : k ≤ j := not_lt.1 fun hlt => hfirst j hlt hlast
    obtain ⟨out, hout⟩ := skipOctets_last hk hfirst (by omega : k < 8192)
    unfold Skip.outcome at h
    rw [hout] at h
    cases h
  refine skipOctets_none fun j _ hlast => hrange (j % 8192) (Nat.mod_lt _ (by omega)) ?_
  unfold Last Globs.extension at hlast ⊢
  rwa [hperiod j, hsucc j] at hlast

private theorem extension_bit (g : Globs ρ) (k : Nat) : g.extension k = 0 ∨ g.extension k = 1 := by
  have := field_lt (b := g.bits.bitbuf) (p := g.octet k) (n := 1)
  unfold Globs.extension
  omega

/-- A loop comes to an end within the message if and only if it is entered where it ends. -/
theorem contained_iff_ends (x : Skip ρ) : x.Contained ↔ x.Ends := by
  obtain ⟨l, g⟩ := x
  rw [contained_iff_last]
  have hlt := bitpos_lt g
  cases l with
  | group =>
    refine exists_congr fun k => and_congr_left fun _ => ?_
    have hbit := extension_bit g k
    change g.extension k ≠ 0 ∨ Loop.group = Loop.moreData ∧ _ ↔ g.extension k = 1
    simp only [reduceCtorEq, false_and, or_false]
    omega
  | moreData =>
    change (∃ k, (g.extension k ≠ 1 ∨ _ ∧ g.maxBitpos ≤ g.octet (k + 1)) ∧ ∀ j ≤ k, g.octet j < g.maxBitpos) ↔
      g.bits.bitpos < g.maxBitpos ∧ (g.maxBitpos ≤ 65528 + g.bits.bitpos % 8 ∨ ∃ k, g.extension k = 0)
    constructor
    · rintro ⟨k, hk, hin⟩
      have h0 := hin 0 (Nat.zero_le k)
      rw [octet_zero] at h0
      refine ⟨h0, ?_⟩
      rcases hk with hk | hk
      · exact .inr ⟨k, (extension_bit g k).resolve_right hk⟩
      · left
        have hstep := hk.2
        unfold Globs.octet at hstep
        omega
    · rintro ⟨h0, hend⟩
      have hlast : ∃ k, Last .moreData g k := by
        rcases hend with hend | ⟨k, hk⟩
        · refine ⟨(65528 + g.bits.bitpos % 8 - g.bits.bitpos) / 8 - 1, .inr ⟨rfl, ?_⟩⟩
          unfold Globs.octet
          omega
        · exact ⟨k, .inl (by rw [hk]; decide)⟩
      obtain ⟨k, hk, hj⟩ := first_last hlast
      refine ⟨k, hk, fun j hjk => ?_⟩
      cases j with
      | zero => rwa [octet_zero]
      | succ j =>
        have hnot := hj j (by omega)
        unfold Last at hnot
        rw [not_or] at hnot
        exact not_le.1 fun hle => hnot.2 ⟨rfl, hle⟩

/-- In a run over the elements of a composition all loops stay inside the message if and only if all of them are entered
where they end. -/
theorem extGroup_contained_iff (elems : List (Elem ρ)) (s : Locals ρ) (n : Nat) :
    (∀ x ∈ skips elems n s, x.Contained) ↔ ∀ x ∈ skips elems n s, x.Ends :=
  forall₂_congr fun x _ => contained_iff_ends x

end

/-! ### A message that announces one more octet -/

/-- A group of one octet whose element takes seven bits. -/
def sevenBits : Elem Unit where
  extGroup := .star
  isOptional := fun _ => true
  setsPos := false
  decode := fun g => some (1, g.incBitpos 7)

/-- The octet 01 in a buffer that goes on with FF. -/
def oneOctet : Globs Unit where
  bits := Bf.commonDecodeInit (fun k => if k = 0 then 0x01 else 0xff) 0
  coherent := Bf.commonDecodeInit_coherent
  maxBitpos := 8
  tagPending := false
  rest := ()

/-- Of two such groups the message has the first one only, and its extension bit announces another octet. -/
theorem sevenBits_beyond : ¬ ∀ x ∈ skips [sevenBits, sevenBits] 2 ⟨0, false, false, false, oneOctet⟩, x.Contained := by
  intro h
  have hx : (⟨.group, (oneOctet.readBit.2.incBitpos 7)⟩ : Skip Unit) ∈
      skips [sevenBits, sevenBits] 2 ⟨0, false, false, false, oneOctet⟩ := List.mem_of_mem_head? rfl
  obtain ⟨k, -, hin⟩ := (contained_iff_ends _).1 (h _ hx)
  exact absurd (hin 0 (Nat.zero_le k)) (by decide)

end Citrine.Ccd.ExtGroup
