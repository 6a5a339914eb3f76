import Citrine.Ccd.Progress
import Citrine.Lib.Loop

/-!
# The decoding loop ends

A round either moves the bit position, or uses a parked tag up, or sends it to another element.  Whether a tag that
goes from element to element ever comes to rest depends on the table of identifiers only (`Globs.Settled`):
where it does, the loop ends (`decoding_ends`).  An element whose condition is false passes the tag on to the elements
behind it, which send it back, and then the loop does not end (`parked_forever`).
-/

namespace Citrine.Ccd

/-! ### The condition -/

/-- The element with number `i` exists, and its condition does not forbid it. -/
def Input.holds (inp : Input) (i : Nat) : Prop := ∃ e, inp.elems[i]? = some e ∧ e.cond ≠ some false

/-- No other identifier looks like the parked tag to the elements that compare seven bits only. -/
def Globs.Distinct (inp : Input) (s : Globs) : Prop :=
  (∀ e ∈ inp.elems, e.codingType ≠ .gsm5Tlv) ∨
    ∀ x ∈ s.ieiTable, x.ident &&& 0x7f#8 = s.pendingTag &&& 0x7f#8 → x.ident = s.pendingTag

/-- The entry with number `i` is the parked tag's. -/
abbrev Globs.Bears (s : Globs) (i : Nat) : Prop := s.bears false s.pendingTag i

/-- The entry with number `i` is the parked tag's and is not exhausted. -/
abbrev Globs.Offers (s : Globs) (i : Nat) : Prop := s.offers false s.pendingTag i

/-- A parked tag comes to rest. -/
inductive Globs.Rests (inp : Input) (s : Globs) : Prop where
  /-- An element that is not exhausted and whose condition holds will take it. -/
  | offered (i : Nat) : s.Offers i → inp.holds i → s.Rests inp
  /-- It leaves the composition: behind every element whose condition holds there is one that attracts it. -/
  | leaves (i : Nat) : s.Offers i → (∀ k, inp.holds k → ∃ j, k < j ∧ s.Offers j) → s.Rests inp
  /-- All elements with this tag are exhausted, the actual one has it, and it is the only one, or one of them was
  the last to be decoded. -/
  | exhausted : (∀ i, ¬ s.Offers i) → s.Bears s.eRef → inp.holds s.eRef →
      ((∀ i, s.Bears i → i = s.eRef) ∨ ∃ l, s.melemLast = some l ∧ s.Bears l) → s.Rests inp

/-- If a tag is parked, it comes to rest. -/
def Globs.Settled (inp : Input) (s : Globs) : Prop := s.parked → s.Distinct inp ∧ s.Rests inp

/-! ### The measure -/

section
variable {inp : Input} {size : Nat} {elem : Elem} {s s' : Globs}

/-- An element that will take the parked tag, at or behind a position. -/
private def takerFrom (inp : Input) (s : Globs) (e : Nat) : Prop := ∃ i, e ≤ i ∧ s.Offers i ∧ inp.holds i

open Classical in
/-- The way of a parked tag through the composition: up, with one step back in front of the first element that takes
it; or, when all are exhausted, down with one step up. -/
private noncomputable def way (inp : Input) (s : Globs) : Nat × Nat :=
  if s.parked then
    if ∃ i, s.Offers i then
      (if takerFrom inp s 0 ∧ ¬ takerFrom inp s s.eRef then 1 else 0, inp.elems.length - s.eRef)
    else (if ∃ l, s.melemLast = some l ∧ s.eRef < l then 1 else 0, s.eRef)
  else (0, inp.elems.length - s.eRef)

private noncomputable def decodingMeasure (inp : Input) (s : Globs) : Nat × Nat × Nat × Nat :=
  (65536 - s.bitpos, s.parked.toNat, way inp s)

private def Smaller : Nat × Nat × Nat × Nat → Nat × Nat × Nat × Nat → Prop :=
  Prod.Lex (· < ·) (Prod.Lex (· < ·) (Prod.Lex (· < ·) (· < ·)))

private theorem smaller_wf : WellFounded Smaller :=
  (Prod.lex ⟨_, Nat.lt_wfRel.wf⟩ (Prod.lex ⟨_, Nat.lt_wfRel.wf⟩ (Prod.lex ⟨_, Nat.lt_wfRel.wf⟩ ⟨_, Nat.lt_wfRel.wf⟩))).wf

private theorem smaller_of_bitpos (h : s.bitpos < s'.bitpos) (h' : s.bitpos < 65536) :
    Smaller (decodingMeasure inp s') (decodingMeasure inp s) :=
  Prod.Lex.left _ _ (by omega)

private theorem smaller_of_parked (h : s.bitpos ≤ s'.bitpos) (h' : s.bitpos < 65536) (hp : s.parked)
    (hp' : s'.parked = false) : Smaller (decodingMeasure inp s') (decodingMeasure inp s) := by
  rcases Nat.lt_or_ge s.bitpos s'.bitpos with hlt | hge
  · exact smaller_of_bitpos hlt h'
  · have he : s'.bitpos = s.bitpos := by omega
    unfold decodingMeasure Smaller
    rw [he, hp, hp']
    exact Prod.Lex.right _ (Prod.Lex.left _ _ Nat.one_pos)

private theorem smaller_of_way (h : s'.bitpos = s.bitpos) (hp : s'.parked = s.parked)
    (hw : Prod.Lex (· < ·) (· < ·) (way inp s') (way inp s)) :
    Smaller (decodingMeasure inp s') (decodingMeasure inp s) := by
  unfold decodingMeasure Smaller
  rw [h, hp]
  exact Prod.Lex.right _ (Prod.Lex.right _ hw)

/-! ### A parked tag -/

private theorem lt_of_holds {i : Nat} (h : inp.elems[i]? = some elem) : i < inp.elems.length := by
  obtain ⟨hlt, -⟩ := List.getElem?_eq_some_iff.1 h
  exact hlt

/-- A step to the next element, past one whose condition is false. -/
private theorem way_skip (hs : s.Settled inp) (he : inp.elems[s.eRef]? = some elem) (hc : elem.cond = some false) :
    Prod.Lex (· < ·) (· < ·) (way inp { s with eRef := s.eRef + 1 }) (way inp s) := by
  have hlt := lt_of_holds he
  have hrank : inp.elems.length - (s.eRef + 1) < inp.elems.length - s.eRef := by omega
  have hno : ¬ inp.holds s.eRef := by
    rintro ⟨e, h, hh⟩
    rw [he, Option.some.injEq] at h
    exact hh (h ▸ hc)
  unfold way
  rw [show Globs.parked { s with eRef := s.eRef + 1 } = s.parked from rfl]
  by_cases hp : s.parked
  · rw [if_pos hp, if_pos hp]
    have hoff : ∃ i, s.Offers i := by
      cases (hs hp).2 with
      | offered i h _ => exact ⟨i, h⟩
      | leaves i h _ => exact ⟨i, h⟩
      | exhausted _ _ h _ => exact absurd h hno
    have hoff' : ∃ i, Globs.Offers { s with eRef := s.eRef + 1 } i := hoff
    rw [if_pos hoff, if_pos hoff']
    have htaker : takerFrom inp { s with eRef := s.eRef + 1 } (s.eRef + 1) ↔ takerFrom inp s s.eRef := by
      constructor
      · rintro ⟨i, hi, h⟩
        exact ⟨i, by omega, h⟩
      · rintro ⟨i, hi, h1, h2⟩
        have hne : i ≠ s.eRef := fun h => hno (h ▸ h2)
        exact ⟨i, by omega, h1, h2⟩
    have htaker0 : takerFrom inp { s with eRef := s.eRef + 1 } 0 ↔ takerFrom inp s 0 := Iff.rfl
    rw [propext htaker, propext htaker0]
    exact Prod.Lex.right _ hrank
  · rw [if_neg hp, if_neg hp]
    exact Prod.Lex.right _ hrank

/-- The table as the elements of the composition see it. -/
private theorem Globs.Distinct.bears_iff (h : s.Distinct inp) (he : elem ∈ inp.elems) (i : Nat) :
    (s.bears (elem.codingType == .gsm5Tlv) (elem.tagOf s.pendingTag) i ↔ s.Bears i) ∧
      (s.offers (elem.codingType == .gsm5Tlv) (elem.tagOf s.pendingTag) i ↔ s.Offers i) := by
  unfold Globs.Bears Globs.Offers Globs.bears Globs.offers Elem.tagOf Iei.tag
  cases hg : elem.codingType == .gsm5Tlv with
  | false => exact ⟨Iff.rfl, Iff.rfl⟩
  | true =>
    have hd : ∀ x ∈ s.ieiTable, (x.ident &&& 0x7f#8 = s.pendingTag &&& 0x7f#8 ↔ x.ident = s.pendingTag) := by
      intro x hx
      refine ⟨(h.resolve_left fun hno => hno elem he (by simpa using hg)) x hx, fun hx' => by rw [hx']⟩
    simp only [if_true, Bool.false_eq_true, if_false]
    constructor
    · constructor
      · rintro ⟨x, hx, ht⟩
        exact ⟨x, hx, (hd x (List.mem_of_getElem? hx)).1 ht⟩
      · rintro ⟨x, hx, ht⟩
        exact ⟨x, hx, (hd x (List.mem_of_getElem? hx)).2 ht⟩
    · constructor
      · rintro ⟨x, hx, ht, hf⟩
        exact ⟨x, hx, (hd x (List.mem_of_getElem? hx)).1 ht, hf⟩
      · rintro ⟨x, hx, ht, hf⟩
        exact ⟨x, hx, (hd x (List.mem_of_getElem? hx)).2 ht, hf⟩

/-- The search of an element of the composition for the parked tag. -/
private theorem Globs.Distinct.finds (h : s.Distinct inp) (he : elem ∈ inp.elems) {i : Nat}
    (hf : Finds s s.eRef (elem.tagOf s.pendingTag) (elem.codingType == .gsm5Tlv) i) :
    Finds s s.eRef s.pendingTag false i := by
  have hb := fun j => (h.bears_iff he j).1
  have ho := fun j => (h.bears_iff he j).2
  refine ⟨(hb i).1 hf.bears, fun j h1 h2 hj => hf.up j h1 h2 ((ho j).2 hj), fun hlt j hj => hf.down hlt j ((ho j).2 hj),
    fun hj => hf.here ((ho _).2 hj), fun hno l hl hbl => ?_⟩
  exact hf.exhausted (fun j hj => hno j ((ho j).1 hj)) l hl ((hb l).2 hbl)

/-- The tag stays the same when an element passes it on. -/
private theorem Globs.Distinct.tagOf (h' : s'.Distinct inp) (he : elem ∈ inp.elems) {i : Nat}
    (hi : s.Bears i) (ht : s'.pendingTag = elem.tagOf s.pendingTag) (htab : s'.ieiTable = s.ieiTable) :
    s'.pendingTag = s.pendingTag := by
  rw [ht]
  unfold Elem.tagOf
  split
  · rename_i hg
    obtain ⟨x, hx, hxt⟩ := hi
    have hmem := List.mem_of_getElem? hx
    have hd' := (h'.resolve_left fun hno => hno elem he (by simpa using hg)) x (htab ▸ hmem)
    have hxi : x.ident = s.pendingTag := hxt
    have hmask : s'.pendingTag = s.pendingTag &&& 0x7f#8 := by
      rw [ht]
      unfold Elem.tagOf
      rw [if_pos hg]
    rw [hmask, hxi] at hd'
    exact (hd' (by rw [BitVec.and_assoc, BitVec.and_self])).symm
  · rfl

/-- A parked tag goes to another element. -/
private theorem way_park (hs : s.Settled inp) (hs' : s'.Settled inp) (he : inp.elems[s.eRef]? = some elem)
    (hc : elem.cond ≠ some false) (hp : s.parked) (hp' : s'.parked) (hne : s'.eRef ≠ s.eRef)
    (hf : Finds s s.eRef (elem.tagOf s.pendingTag) (elem.codingType == .gsm5Tlv) s'.eRef)
    (ht : s'.pendingTag = elem.tagOf s.pendingTag) (htab : s'.ieiTable = s.ieiTable)
    (hlast : s'.melemLast = s.melemLast) : Prod.Lex (· < ·) (· < ·) (way inp s') (way inp s) := by
  have hmem := List.mem_of_getElem? he
  have hlt := lt_of_holds he
  have hholds : inp.holds s.eRef := ⟨elem, he, hc⟩
  obtain ⟨hd, hrest⟩ := hs hp
  have hfind := hd.finds hmem hf
  have htag := (hs' hp').1.tagOf hmem hfind.bears ht htab
  have hoffers : ∀ i, s'.Offers i ↔ s.Offers i := by
    intro i
    unfold Globs.Offers Globs.offers
    rw [htag, htab]
  have htaker : ∀ e, takerFrom inp s' e ↔ takerFrom inp s e := by
    intro e
    unfold takerFrom
    simp only [hoffers]
  have hex' : (∃ i, s'.Offers i) ↔ ∃ i, s.Offers i := exists_congr hoffers
  unfold way
  rw [if_pos hp, if_pos hp', propext hex', hlast, propext (htaker 0), propext (htaker s'.eRef)]
  by_cases hoff : ∃ i, s.Offers i
  · rw [if_pos hoff, if_pos hoff]
    by_cases hex : takerFrom inp s 0
    · rcases Nat.lt_or_ge s.eRef s'.eRef with hup | hdn
      · -- up: no element that takes the tag is passed over
        have hiff : takerFrom inp s s'.eRef ↔ takerFrom inp s s.eRef := by
          constructor
          · rintro ⟨j, hj, h⟩
            exact ⟨j, by omega, h⟩
          · rintro ⟨j, hj, h1, h2⟩
            refine ⟨j, Nat.le_of_not_lt fun hjl => hfind.up j hj hjl h1, h1, h2⟩
        rw [propext hiff]
        exact Prod.Lex.right _ (by omega)
      · -- down: to the first element on offer
        have hdown := hfind.down (by omega)
        have h1 : ¬ takerFrom inp s s.eRef := by
          rintro ⟨j, hj, hjo, -⟩
          have := (hdown j hjo).2
          omega
        have h2 : takerFrom inp s s'.eRef := by
          obtain ⟨j, -, hjo, hjh⟩ := hex
          exact ⟨j, (hdown j hjo).1, hjo, hjh⟩
        rw [if_neg fun h => h.2 h2, if_pos ⟨hex, h1⟩]
        exact Prod.Lex.left _ _ Nat.one_pos
    · rw [if_neg fun h => hex h.1, if_neg fun h => hex h.1]
      have hup : s.eRef < s'.eRef := by
        cases hrest with
        | offered i h1 h2 => exact absurd ⟨i, Nat.zero_le _, h1, h2⟩ hex
        | leaves i h1 h2 =>
          obtain ⟨j, hj, hjo⟩ := h2 _ hholds
          refine Nat.lt_of_le_of_ne (Nat.le_of_not_lt fun hdn => ?_) hne.symm
          have := (hfind.down hdn j hjo).2
          omega
        | exhausted h1 _ _ _ => exact absurd hoff fun ⟨i, hi⟩ => h1 i hi
      exact Prod.Lex.right _ (by omega)
  · rw [if_neg hoff, if_neg hoff]
    cases hrest with
    | offered i h1 _ => exact absurd ⟨i, h1⟩ hoff
    | leaves i h1 _ => exact absurd ⟨i, h1⟩ hoff
    | exhausted h1 h2 _ h4 =>
      rcases h4 with h4 | ⟨l, hl, hlb⟩
      · exact absurd (h4 _ hfind.bears) hne
      · obtain ⟨ha, hb, hc'⟩ := hfind.exhausted h1 l hl hlb
        have hex : ∀ e : Nat, (∃ l', s.melemLast = some l' ∧ e < l') ↔ e < l := by
          intro e
          rw [hl]
          constructor
          · rintro ⟨l', hl', h⟩
            rw [Option.some.injEq] at hl'
            exact hl' ▸ h
          · exact fun h => ⟨l, rfl, h⟩
        have below : ∀ e : Nat, e < l → ∃ l', s.melemLast = some l' ∧ e < l' := fun e h => (hex e).2 h
        have above : ∀ e : Nat, l ≤ e → ¬ ∃ l', s.melemLast = some l' ∧ e < l' := fun e h h' =>
          Nat.not_lt.2 h ((hex e).1 h')
        rcases Nat.lt_trichotomy s.eRef l with hlt' | heq | hgt
        · rw [if_pos (below _ hlt')]
          rcases Nat.lt_or_ge s'.eRef l with hl' | hl'
          · rw [if_pos (below _ hl')]
            exact Prod.Lex.right _ ((hc' hlt').resolve_right (by omega))
          · rw [if_neg (above _ hl')]
            exact Prod.Lex.left _ _ Nat.one_pos
        · exact absurd (ha heq) hne
        · obtain ⟨h5, h6⟩ := hb hgt
          rw [if_neg (above _ h5), if_neg (above _ (Nat.le_of_lt hgt))]
          exact Prod.Lex.right _ h6

private theorem decodeRound_smaller (hsh : inp.Short size) (hin : s.Inside inp size) (hs : s.Settled inp)
    (hs' : s'.Settled inp) (h : decodeRound inp s = .ok s') :
    s'.Inside inp size ∧ Smaller (decodingMeasure inp s') (decodingMeasure inp s) := by
  obtain ⟨hin', elem, he, hr⟩ := decodeRound_cases hsh hin h
  refine ⟨hin', ?_⟩
  cases hr with
  | skip hc => exact smaller_of_way rfl rfl (way_skip hs he hc)
  | read hc hp hb => exact smaller_of_bitpos (by omega) hin.bitpos
  | settle hc hp hb hp' => exact smaller_of_parked hb hin.bitpos hp hp'
  | park i hc hp hp' hne hf ht hi hb htab hlast =>
    subst hi
    exact smaller_of_way hb (hp'.trans hp.symm) (way_park hs hs' he hc hp hp' hne hf ht htab hlast)

/-- The loop of `ccd_decodeComposition` ends on every short message, when every tag that is parked comes to rest. -/
theorem decoding_ends (hsh : inp.Short size) (hb : s.bitpos ≤ inp.maxBitpos)
    (hok : ∀ n t, Loop.after (decodeRound inp) n s = .ok t → t.Settled inp) :
    ∃ n exit, Loop.after (decodeRound inp) n s = .error exit := by
  have hin : s.Inside inp size := by
    have h1 := hsh.maxBitpos
    have h2 := hsh.short
    exact ⟨by omega, fun _ => by omega, fun _ _ => by omega⟩
  exact Loop.ends smaller_wf (decodingMeasure inp) (fun _ _ hI hu hv h => decodeRound_smaller hsh hI hu hv h) hin hok

end

/-! ### A skipped element -/

/-- The bits of a message. -/
def messageBits (octets : List (BitVec 8)) (i : Nat) : Bool := (octets.getD (i / 8) 0).getMsbD (i % 8)

/-- An element of type `GSM4_TLV` with a value of one octet. -/
def octetElem (ident : BitVec 8) (cond : Option Bool) : Elem :=
  { codingType := .gsm4Tlv, ident := ident, cond := cond, isOptional := true, maxRepeat := none
    value := fun _ _ _ => some { bits := 8, nested := none } }

/-- A message for three optional elements, the condition of the second being false. -/
def skippedElem (octets : List (BitVec 8)) : Input :=
  { elems := [octetElem 0x10 none, octetElem 0x11 (some false), octetElem 0x12 none], bits := messageBits octets
    buflen := 8 * octets.length, maxBitpos := 8 * octets.length, level := 0 }

/-- The state in which the loop begins. -/
def firstElem : Globs :=
  { eRef := 0, bitpos := 0, tagPending := false, pendingTag := 0, sequenceError := false, refBeforeError := 0
    lastLevel := .other, ieiTable := [], melemLast := none }

/-- The element in the middle sends a parked tag on. -/
def parkedElem (eRef : Nat) (pendingTag : BitVec 8) : Globs :=
  { firstElem with
    eRef := eRef, bitpos := 8, tagPending := true, pendingTag := pendingTag, lastLevel := .here
    ieiTable := (skippedElem []).elems.map Elem.iei }

private theorem skippedElem_short {octets : List (BitVec 8)} (h : octets.length < 1000) :
    (skippedElem octets).Short 8 := by
  refine ⟨Nat.le_refl _, fun e he => ?_, ?_⟩
  · have hval : ∃ ident cond, e = octetElem ident cond := by
      simp only [skippedElem, List.mem_cons, List.not_mem_nil, or_false] at he
      rcases he with rfl | rfl | rfl <;> exact ⟨_, _, rfl⟩
    obtain ⟨ident, cond, rfl⟩ := hval
    constructor
    · intro tagged pos maxBitpos r hr
      cases hr
      exact Nat.le_refl 8
    · intro tagged pos maxBitpos r n hr hn
      cases hr
      cases hn
  · simp only [skippedElem]
    omega

/-- The third element is in the message: the tag goes past the second one and comes to rest. -/
theorem decoding_ends_third :
    ∃ n exit, Loop.after (decodeRound (skippedElem [0x12, 0x01, 0xAA])) n firstElem = .error exit := by
  have hend : Loop.after (decodeRound (skippedElem [0x12, 0x01, 0xAA])) 3 firstElem = .error .finished := by rfl
  have hone : Loop.after (decodeRound (skippedElem [0x12, 0x01, 0xAA])) 1 firstElem = .ok (parkedElem 2 0x12) := by
    rfl
  refine decoding_ends (skippedElem_short (by decide)) (Nat.zero_le _) fun n t ht => ?_
  have hlt := Loop.lt_of_after hend ht
  match n, hlt with
  | 0, _ =>
    cases ht
    exact fun hp => absurd hp (by decide)
  | 1, _ =>
    rw [hone, Except.ok.injEq] at ht
    subst ht
    refine fun _ => ⟨.inl (by decide), .offered 2 ⟨(octetElem 0x12 none).iei, rfl, rfl, rfl⟩ ?_⟩
    exact ⟨octetElem 0x12 none, rfl, by decide⟩
  | 2, _ =>
    rw [Loop.after_add 1 1 hone] at ht
    cases ht
    exact fun hp => absurd hp (by decide)

/-- The second element is in the message although its condition is false: its tag goes from the first element to the
third one, which sends it back, forever. -/
theorem parked_forever :
    (∃ n, ∀ t, Loop.after (decodeRound (skippedElem [0x11, 0x00])) n firstElem ≠ .ok t) ↔ False := by
  refine iff_false_intro fun ⟨n, hn⟩ => ?_
  have hto : Loop.after (decodeRound (skippedElem [0x11, 0x00])) 3 firstElem =
      .ok { parkedElem 1 0x11 with sequenceError := true, refBeforeError := 2 } := by rfl
  have hback : Loop.after (decodeRound (skippedElem [0x11, 0x00])) 2
      { parkedElem 1 0x11 with sequenceError := true, refBeforeError := 2 } =
      .ok { parkedElem 1 0x11 with sequenceError := true, refBeforeError := 2 } := by rfl
  obtain ⟨t, ht⟩ := Loop.runs_of_cycle Nat.two_pos hto hback n
  exact hn t ht

end Citrine.Ccd
