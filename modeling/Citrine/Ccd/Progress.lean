import Citrine.Ccd.Tlv

/-!
# One round of the decoding loop

What a round can do to the bit position and to a tag that is parked (`decodeRound_cases`), for messages that are
short enough for the 16 bits of `bitpos`; and what `cdc_search_table` finds (`cdcSearchTable_spec`).
-/

namespace Citrine.Ccd

/-! ### The search -/

/-- The entry with number `i` has the tag. -/
def Globs.bears (s : Globs) (limited : Bool) (t : BitVec 8) (i : Nat) : Prop :=
  ∃ x, s.ieiTable[i]? = some x ∧ x.tag limited = t

/-- The entry with number `i` has the tag and is not exhausted. -/
def Globs.offers (s : Globs) (limited : Bool) (t : BitVec 8) (i : Nat) : Prop :=
  ∃ x, s.ieiTable[i]? = some x ∧ x.tag limited = t ∧ x.exhausted = false

theorem Globs.offers.bears {s : Globs} {limited : Bool} {t : BitVec 8} {i : Nat} (h : s.offers limited t i) :
    s.bears limited t i := by
  obtain ⟨x, hx, ht, -⟩ := h
  exact ⟨x, hx, ht⟩

private theorem searchEntries_error {t : BitVec 8} {limited last : Bool} {l : List Iei} {i n : Nat} {ret : Option Nat}
    (h : searchEntries t limited last n l ret = .error i) :
    ∃ j x, i = n + j ∧ l[j]? = some x ∧ x.tag limited = t ∧ (x.exhausted = false ∨ last = true) ∧
      ∀ k < j, ∀ y, l[k]? = some y → y.tag limited = t → y.exhausted = true ∧ last = false := by
  induction l generalizing n ret with
  | nil => cases h
  | cons x xs ih =>
    have hnext : ∀ {ret}, searchEntries t limited last (n + 1) xs ret = .error i →
        (x.tag limited = t → x.exhausted = true ∧ last = false) →
        ∃ j x', i = n + j ∧ (x :: xs)[j]? = some x' ∧ x'.tag limited = t ∧ (x'.exhausted = false ∨ last = true) ∧
          ∀ k < j, ∀ y, (x :: xs)[k]? = some y → y.tag limited = t → y.exhausted = true ∧ last = false := by
      intro ret hr hx
      obtain ⟨j, x', hi, hj, ht, hf, hk⟩ := ih hr
      refine ⟨j + 1, x', by omega, by simpa using hj, ht, hf, fun k hlt y hy hty => ?_⟩
      cases k with
      | zero =>
        simp only [List.getElem?_cons_zero, Option.some.injEq] at hy
        exact hy ▸ hx (hy ▸ hty)
      | succ k => exact hk k (by omega) y (by simpa using hy) hty
    unfold searchEntries at h
    split at h
    · rename_i ht
      split at h
      · rename_i hf
        refine ⟨0, x, by simpa using h.symm, rfl, ht, by simpa using hf, fun k hk => by omega⟩
      · rename_i hf
        simp only [Bool.or_eq_true, not_or, Bool.not_eq_true] at hf
        exact hnext h fun _ => ⟨by simpa using hf.1, hf.2⟩
    · rename_i ht
      exact hnext h fun ht' => absurd ht' ht

private theorem searchEntries_ok {t : BitVec 8} {limited last : Bool} {l : List Iei} {n : Nat} {ret r : Option Nat}
    (h : searchEntries t limited last n l ret = .ok r) :
    (∀ (k : Nat) (y : Iei), l[k]? = some y → y.tag limited = t → y.exhausted = true ∧ last = false) ∧
      ((r = ret ∧ ∀ (k : Nat) (y : Iei), l[k]? = some y → y.tag limited ≠ t) ∨
        ∃ j x, r = some (n + j) ∧ l[j]? = some x ∧ x.tag limited = t ∧
          ∀ (k : Nat) (y : Iei), l[k]? = some y → y.tag limited = t → k ≤ j) := by
  induction l generalizing n ret with
  | nil =>
    simp only [searchEntries, Except.ok.injEq] at h
    exact ⟨fun k y hy => by simp at hy, .inl ⟨h.symm, fun k y hy => by simp at hy⟩⟩
  | cons x xs ih =>
    have hall : ∀ {ret}, searchEntries t limited last (n + 1) xs ret = .ok r →
        (x.tag limited = t → x.exhausted = true ∧ last = false) →
        ∀ (k : Nat) (y : Iei), (x :: xs)[k]? = some y → y.tag limited = t → y.exhausted = true ∧ last = false := by
      intro ret hr hx k y hy ht
      cases k with
      | zero =>
        simp only [List.getElem?_cons_zero, Option.some.injEq] at hy
        exact hy ▸ hx (hy ▸ ht)
      | succ k => exact (ih hr).1 k y (by simpa using hy) ht
    have hlast : ∀ {j x'}, r = some (n + 1 + j) → xs[j]? = some x' → x'.tag limited = t →
        (∀ (k : Nat) (y : Iei), xs[k]? = some y → y.tag limited = t → k ≤ j) →
        ∃ j x', r = some (n + j) ∧ (x :: xs)[j]? = some x' ∧ x'.tag limited = t ∧
          ∀ (k : Nat) (y : Iei), (x :: xs)[k]? = some y → y.tag limited = t → k ≤ j := by
      intro j x' hr hj ht hk
      refine ⟨j + 1, x', by rw [hr, Nat.add_right_comm, Nat.add_assoc], by simpa using hj, ht, fun k y hy hty => ?_⟩
      cases k with
      | zero => omega
      | succ k =>
        have := hk k y (by simpa using hy) hty
        omega
    unfold searchEntries at h
    split at h
    · rename_i ht
      split at h
      · cases h
      · rename_i hf
        simp only [Bool.or_eq_true, not_or, Bool.not_eq_true] at hf
        refine ⟨hall h fun _ => ⟨by simpa using hf.1, hf.2⟩, .inr ?_⟩
        rcases (ih h).2 with ⟨hr, hno⟩ | ⟨j, x', hr, hj, hx', hk⟩
        · refine ⟨0, x, hr, rfl, ht, fun k y hy hty => ?_⟩
          cases k with
          | zero => exact Nat.le_refl 0
          | succ k => exact absurd hty (hno k y (by simpa using hy))
        · exact hlast hr hj hx' hk
    · rename_i ht
      refine ⟨hall h fun ht' => absurd ht' ht, ?_⟩
      rcases (ih h).2 with ⟨hr, hno⟩ | ⟨j, x', hr, hj, hx', hk⟩
      · refine .inl ⟨hr, fun k y hy => ?_⟩
        cases k with
        | zero =>
          simp only [List.getElem?_cons_zero, Option.some.injEq] at hy
          exact hy ▸ ht
        | succ k => exact hno k y (by simpa using hy)
      · exact .inr (hlast hr hj hx' hk)

/-- The entry that `cdc_search_table` finds. -/
structure Finds (s : Globs) (akt : Nat) (t : BitVec 8) (limited : Bool) (i : Nat) : Prop where
  bears : s.bears limited t i
  /-- Nothing on offer is passed over on the way up, -/
  up : ∀ j, akt ≤ j → j < i → ¬ s.offers limited t j
  /-- and the search goes down only when there is nothing on offer above, to the first that is. -/
  down : i < akt → ∀ j, s.offers limited t j → i ≤ j ∧ j < akt
  here : s.offers limited t akt → i = akt
  /-- Among exhausted entries the search goes down to the one decoded last, and from below it jumps over. -/
  exhausted : (∀ j, ¬ s.offers limited t j) → ∀ l, s.melemLast = some l → s.bears limited t l →
    (akt = l → i = akt) ∧ (l < akt → l ≤ i ∧ i < akt) ∧ (akt < l → i < akt ∨ l ≤ i)

theorem cdcSearchTable_spec {s : Globs} {akt i : Nat} {t : BitVec 8} {limited : Bool}
    (h : (cdcSearchTable akt t limited s).1 = some i) : Finds s akt t limited i := by
  have hdrop : ∀ k, (s.ieiTable.drop akt)[k]? = s.ieiTable[akt + k]? := fun k => List.getElem?_drop
  have htake : ∀ k y, (s.ieiTable.take akt)[k]? = some y ↔ k < akt ∧ s.ieiTable[k]? = some y := by
    intro k y
    rw [List.getElem?_take]
    split
    · rename_i hlt
      exact ⟨fun h => ⟨hlt, h⟩, And.right⟩
    · rename_i hge
      exact ⟨fun h => (by cases h), fun h => absurd h.1 hge⟩
  unfold cdcSearchTable at h
  generalize hlast : (s.melemLast == some akt) = last at h
  split at h
  · rename_i i' hup
    simp only [Option.some.injEq] at h
    subst h
    obtain ⟨j, x, hi, hj, ht, hf, hk⟩ := searchEntries_error hup
    rw [hdrop] at hj
    subst hi
    have hbefore : ∀ m y, akt ≤ m → m < akt + j → s.ieiTable[m]? = some y → y.tag limited = t →
        y.exhausted = true ∧ last = false := by
      intro m y hm hmj hy hty
      refine hk (m - akt) (by omega) y ?_ hty
      rw [hdrop, show akt + (m - akt) = m by omega]
      exact hy
    refine ⟨⟨x, hj, ht⟩, fun m hm hmj hoff => ?_, fun hlt => by omega, fun hoff => ?_, fun hno l hl hb => ?_⟩
    · obtain ⟨y, hy, hty, hey⟩ := hoff
      rw [(hbefore m y hm hmj hy hty).1] at hey
      cases hey
    · obtain ⟨y, hy, hty, hey⟩ := hoff
      rcases Nat.eq_zero_or_pos j with h0 | h0
      · omega
      · rw [(hbefore akt y (Nat.le_refl _) (by omega) hy hty).1] at hey
        cases hey
    · -- nothing is on offer: the actual element is the one decoded last
      have hl1 : last = true := by
        rcases hf with hf | hf
        · exact absurd ⟨x, hj, ht, hf⟩ (hno _)
        · exact hf
      rw [hl1, beq_iff_eq, hl, Option.some.injEq] at hlast
      subst hlast
      refine ⟨fun _ => ?_, fun hlt => by omega, fun hlt => by omega⟩
      obtain ⟨y, hy, hty⟩ := hb
      rcases Nat.eq_zero_or_pos j with h0 | h0
      · omega
      · have := (hbefore l y (Nat.le_refl _) (by omega) hy hty).2
        rw [hl1] at this
        cases this
  · rename_i ret hup
    obtain ⟨hex, hret⟩ := searchEntries_ok hup
    have hex' : ∀ m y, akt ≤ m → s.ieiTable[m]? = some y → y.tag limited = t → y.exhausted = true ∧ last = false := by
      intro m y hm hy hty
      refine hex (m - akt) y ?_ hty
      rw [hdrop, show akt + (m - akt) = m by omega]
      exact hy
    have hnoup : ∀ j, akt ≤ j → ¬ s.offers limited t j := by
      rintro j hj ⟨y, hy, hty, hey⟩
      rw [(hex' j y hj hy hty).1] at hey
      cases hey
    split at h
    · rename_i i' hdn
      simp only [Option.some.injEq] at h
      subst h
      obtain ⟨j, x, hi, hj, ht, hf, hk⟩ := searchEntries_error hdn
      rw [Nat.zero_add] at hi
      subst hi
      obtain ⟨hlt, hx⟩ := (htake _ _).1 hj
      have hoff : s.offers limited t i' := ⟨x, hx, ht, by simpa using hf⟩
      refine ⟨⟨x, hx, ht⟩, fun m hm => by omega, fun _ m hm => ?_, fun h' => absurd h' (hnoup akt (Nat.le_refl _)),
        fun hno => absurd hoff (hno _)⟩
      have hma : m < akt := by
        rcases Nat.lt_or_ge m akt with hlt' | hge
        · exact hlt'
        · exact absurd hm (hnoup m hge)
      refine ⟨?_, hma⟩
      rcases Nat.lt_or_ge m i' with hlt' | hge
      · obtain ⟨y, hy, hty, hey⟩ := hm
        rw [(hk m hlt' y ((htake _ _).2 ⟨hma, hy⟩) hty).1] at hey
        cases hey
      · exact hge
    · rename_i r hdn
      simp only at h
      subst h
      obtain ⟨hexd, hretd⟩ := searchEntries_ok hdn
      have hno : ∀ j, ¬ s.offers limited t j := by
        intro j hoff
        rcases Nat.lt_or_ge j akt with hlt | hge
        · obtain ⟨y, hy, hty, hey⟩ := hoff
          rw [(hexd j y ((htake _ _).2 ⟨hlt, hy⟩) hty).1] at hey
          cases hey
        · exact hnoup j hge hoff
      rcases hretd with ⟨hr, hnod⟩ | ⟨j, x, hr, hj, ht, hk⟩
      · -- no match below: the last one from here on
        rcases hret with ⟨hr', -⟩ | ⟨j, x, hr', hj, ht, hk⟩
        · rw [hr'] at hr
          cases hr
        · rw [hr', Option.some.injEq] at hr
          subst hr
          rw [hdrop] at hj
          refine ⟨⟨x, hj, ht⟩, fun m hm _ => hno m, fun hlt => by omega, fun h' => absurd h' (hno _),
            fun _ l hl hb => ?_⟩
          obtain ⟨y, hy, hty⟩ := hb
          have hge : akt ≤ l := by
            rcases Nat.lt_or_ge l akt with hlt | hge
            · exact absurd hty (hnod l y ((htake _ _).2 ⟨hlt, hy⟩))
            · exact hge
          have hle := hk (l - akt) y (by rw [hdrop, show akt + (l - akt) = l by omega]; exact hy) hty
          refine ⟨fun he => ?_, fun hlt => by omega, fun _ => .inr (by omega)⟩
          subst he
          have hfalse := (hex' akt y (Nat.le_refl _) hy hty).2
          rw [hfalse, hl] at hlast
          simp at hlast
      · rw [Nat.zero_add, Option.some.injEq] at hr
        subst hr
        obtain ⟨hlt, hx⟩ := (htake _ _).1 hj
        refine ⟨⟨x, hx, ht⟩, fun m hm => by omega, fun _ m hm => absurd hm (hno m), fun h' => absurd h' (hno _),
          fun _ l hl hb => ?_⟩
        obtain ⟨y, hy, hty⟩ := hb
        refine ⟨fun he => ?_, fun hla => ⟨hk l y ((htake _ _).2 ⟨hla, hy⟩) hty, hlt⟩, fun _ => .inl hlt⟩
        subst he
        have hfalse := (hex' akt y (Nat.le_refl _) hy hty).2
        rw [hfalse, hl] at hlast
        simp at hlast

/-! ### Short messages -/

/-- The value takes at most `size` bits, and it leaves a tag pending only if it found something to read. -/
structure Elem.Regular (size : Nat) (e : Elem) : Prop where
  bits : ∀ {tagged pos maxBitpos r}, e.value tagged pos maxBitpos = some r → r.bits ≤ size
  pending : ∀ {tagged pos maxBitpos r n}, e.value tagged pos maxBitpos = some r → r.nested = some n →
    n.tagPending → pos < maxBitpos

/-- A message short enough for the 16 bits of `bitpos`, with values of at most `size` bits. -/
structure Input.Short (inp : Input) (size : Nat) : Prop where
  maxBitpos : inp.maxBitpos ≤ inp.buflen
  regular : ∀ e ∈ inp.elems, e.Regular size
  short : inp.buflen + 2 * size + 2064 < 65536

/-- A tag is parked in this composition. -/
def Globs.parked (s : Globs) : Bool := s.tagPending && s.lastLevel == .here

/-- How far the bit position can be behind the message while a tag is pending. -/
structure Globs.Inside (inp : Input) (size : Nat) (s : Globs) : Prop where
  bitpos : s.bitpos < 65536
  pending : s.tagPending → s.bitpos ≤ inp.buflen + size + 8
  nested : s.tagPending → s.lastLevel ≠ .here → s.bitpos ≤ inp.buflen + size

section
variable {inp : Input} {size : Nat} {elem : Elem} {s s' : Globs}

private theorem incBitpos_bitpos {n : Nat} (h : s.bitpos + n < 65536) : (incBitpos n s).bitpos = s.bitpos + n :=
  Nat.mod_eq_of_lt h

/-- What decoding a length and a value can do. -/
private structure Decodes (inp : Input) (size : Nat) (s s' : Globs) : Prop where
  bitpos : s.bitpos ≤ s'.bitpos ∧ s'.bitpos < 65536
  flags : (s'.tagPending = s.tagPending ∧ s'.lastLevel = s.lastLevel) ∨
    (s'.lastLevel = .deeper ∧ (s'.tagPending → s'.bitpos ≤ inp.buflen + size))

private theorem decodeElemvalue_decodes {m : Nat} {tagged : Bool} (he : elem.Regular size) (hm : m ≤ inp.buflen)
    (hlt : s.bitpos + size < 65536) (h : decodeElemvalue elem tagged m s = .ok s') :
    Decodes inp size s s' ∧ s'.bitpos ≤ s.bitpos + size := by
  unfold decodeElemvalue at h
  split at h
  · cases h
  · rename_i r hr
    have hb := he.bits hr
    have hpos : (incBitpos r.bits s).bitpos = s.bitpos + r.bits := incBitpos_bitpos (by omega)
    simp only at h
    split at h
    · cases h
      refine ⟨⟨?_, .inl ⟨by simp, by simp⟩⟩, ?_⟩
      · rw [hpos]
        omega
      · rw [hpos]
        omega
    · rename_i n hn
      cases h
      refine ⟨⟨?_, .inr ⟨rfl, fun ht => ?_⟩⟩, ?_⟩
      · simp only
        omega
      · have := he.pending hr hn ht
        simp only
        omega
      · simp only
        omega

private theorem cdcDecodeL_bitpos (inp : Input) (elem : Elem) (hlt : s.bitpos + 16 < 65536) :
    let r := cdcDecodeL inp elem s
    s.bitpos ≤ r.2.bitpos ∧ r.2.bitpos ≤ s.bitpos + 16 ∧ r.1 < 256 ∧ r.2.tagPending = s.tagPending ∧
      r.2.lastLevel = s.lastLevel := by
  have h8 : (incBitpos 8 s).bitpos = s.bitpos + 8 := incBitpos_bitpos (by omega)
  have h16 : (incBitpos 8 (incBitpos 8 s)).bitpos = s.bitpos + 8 + 8 := by
    rw [incBitpos_bitpos (by omega), h8]
  unfold cdcDecodeL decodeByteNumber
  simp only
  split
  · refine ⟨?_, ?_, BitVec.isLt _, by simp, by simp⟩
    · simp only
      omega
    · simp only
      omega
  · refine ⟨?_, ?_, BitVec.isLt _, by simp, by simp⟩
    · simp only
      omega
    · simp only
      omega

private theorem lvDecode_decodes {tagged : Bool} (hs : inp.Short size) (he : elem.Regular size)
    (hp : s.bitpos ≤ inp.buflen + size + 8) (h : lvDecode inp elem tagged s = .ok s') : Decodes inp size s s' := by
  have hmax := hs.maxBitpos
  have hshort := hs.short
  unfold lvDecode at h
  split at h
  · split at h
    · cases h
    · have hl := cdcDecodeL_bitpos (s := s) inp elem (by omega)
      simp only at hl h
      generalize cdcDecodeL inp elem s = r at hl h
      obtain ⟨hle, hle16, hl256, htp, hll⟩ := hl
      split at h
      · cases h
      · generalize htmp : min inp.buflen ((r.2.bitpos + r.1 * 8) % 65536) = m at h
        have hmb : m ≤ inp.buflen := by omega
        split at h
        · cases h
        · rename_i u hu
          have hd : Decodes inp size r.2 u := by
            split at hu
            · exact (decodeElemvalue_decodes he hmb (by omega) hu).1
            · cases hu
              exact ⟨⟨Nat.le_refl _, by omega⟩, .inl ⟨rfl, rfl⟩⟩
          have hb := hd.bitpos
          have hflags : ∀ v : Globs, v.tagPending = u.tagPending → v.lastLevel = u.lastLevel →
              (u.tagPending → u.bitpos ≤ inp.buflen + size → v.bitpos ≤ inp.buflen + size) →
              (v.tagPending = s.tagPending ∧ v.lastLevel = s.lastLevel) ∨
                (v.lastLevel = .deeper ∧ (v.tagPending → v.bitpos ≤ inp.buflen + size)) := by
            intro v h1 h2 h3
            rcases hd.flags with hf | hf
            · exact .inl ⟨h1.trans (hf.1.trans htp), h2.trans (hf.2.trans hll)⟩
            · exact .inr ⟨h2.trans hf.1, fun ht => h3 (h1 ▸ ht) (hf.2 (h1 ▸ ht))⟩
          simp only [Except.ok.injEq] at h
          split at h
          · subst h
            exact ⟨by omega, hflags u rfl rfl fun _ h => h⟩
          · subst h
            refine ⟨?_, hflags _ rfl rfl fun _ _ => ?_⟩
            · simp only
              omega
            · simp only
              omega
  · split at h
    · cases h
      exact ⟨⟨Nat.le_refl _, by omega⟩, .inl ⟨rfl, rfl⟩⟩
    · exact (decodeElemvalue_decodes he hmax (by omega) h).1

private theorem map_ok {α β ε : Type} {f : α → β} {x : Except ε α} {b : β} (h : x.map f = .ok b) :
    ∃ a, x = .ok a ∧ b = f a := by
  cases x with
  | error e => cases h
  | ok a =>
    cases h
    exact ⟨a, rfl, rfl⟩

private theorem takeElem_decodes {e : Nat} {r : Globs × Int} (hs : inp.Short size) (he : elem.Regular size)
    (hp : s.bitpos ≤ inp.buflen + size + 8) (h : takeElem inp elem e s = .ok r) : Decodes inp size s r.1 := by
  have hlv : ∀ {u v : Globs} {tagged}, lvDecode inp elem tagged u = .ok v → u.bitpos = s.bitpos →
      u.tagPending = s.tagPending → u.lastLevel = s.lastLevel → Decodes inp size s v := by
    intro u v tagged hv h1 h2 h3
    have hd := lvDecode_decodes hs he (by omega) hv
    exact ⟨h1 ▸ hd.bitpos, h2 ▸ h3 ▸ hd.flags⟩
  unfold takeElem at h
  split at h
  · cases h
  · simp only at h
    split at h
    · obtain ⟨u, hu, rfl⟩ := map_ok h
      exact hlv hu rfl rfl rfl
    · split at h
      · obtain ⟨u, hu, rfl⟩ := map_ok h
        exact hlv hu rfl rfl rfl
      · split at h
        · obtain ⟨u, hu, rfl⟩ := map_ok h
          exact hlv hu rfl rfl rfl
        · obtain ⟨u, hu, rfl⟩ := map_ok h
          have hd := hlv hu rfl rfl rfl
          exact ⟨hd.bitpos, hd.flags⟩

private theorem unknownTag_decodes {t : BitVec 8} {r : Globs × Int} (hs : inp.Short size)
    (hp : s.bitpos ≤ inp.buflen + size + 8) (h : unknownTag inp t s = .ok r) : Decodes inp size s r.1 := by
  have hshort := hs.short
  unfold unknownTag at h
  split at h
  · cases h
    exact ⟨⟨Nat.le_refl _, by simp only; omega⟩, .inl ⟨rfl, rfl⟩⟩
  · split at h
    · cases h
    · split at h
      · simp only [decodeByteNumber, Except.ok.injEq] at h
        subst h
        have hl : (octetAt inp.bits s.bitpos).toNat <<< 3 ≤ 2040 := by
          have := (octetAt inp.bits s.bitpos).isLt
          rw [Nat.shiftLeft_eq]
          omega
        have h8 : (incBitpos 8 s).bitpos = s.bitpos + 8 := incBitpos_bitpos (by omega)
        refine ⟨?_, .inl ⟨by simp, by simp⟩⟩
        rw [incBitpos_bitpos (by omega), h8]
        omega
      · cases h

/-- What reading a tag does. -/
private structure Reads (s : Globs) (r : BitVec 8 × Globs) : Prop where
  tagPending : r.2.tagPending = false
  lastLevel : r.2.lastLevel = s.lastLevel
  bitpos : s.bitpos + 4 ≤ r.2.bitpos ∧ r.2.bitpos ≤ s.bitpos + 8

private theorem readTag_reads (inp : Input) (elem : Elem) (e : Nat) (h : s.bitpos + 8 < 65536)
    (ht : s.tagPending = false) : Reads s (readTag inp elem e s) := by
  have h8 : (incBitpos 8 s).bitpos = s.bitpos + 8 := incBitpos_bitpos h
  unfold readTag
  rw [if_neg (by simp [ht])]
  unfold decodeByteNumber
  dsimp only
  split
  · split
    · refine ⟨by simpa using ht, by simp, ?_⟩
      simp only [decBitpos_bitpos]
      omega
    · refine ⟨by simpa using ht, by simp, ?_⟩
      simp only
      omega
  · refine ⟨by simpa using ht, by simp, ?_⟩
    simp only
    omega

private theorem readTag_pending (inp : Input) (elem : Elem) (e : Nat) (ht : s.tagPending) :
    readTag inp elem e s = (s.pendingTag, { s with tagPending := false }) := if_pos ht

private theorem enterLevel_ok {u : Globs} (h : enterLevel inp s = .ok u) :
    u.bitpos = s.bitpos ∧ u.eRef = s.eRef ∧ u.lastLevel = .here ∧ u.tagPending = s.parked ∧
      (s.lastLevel = .here → u = s) := by
  unfold enterLevel at h
  split at h
  · rename_i hl
    cases h
    exact ⟨rfl, rfl, hl, by simp [Globs.parked, hl], fun _ => rfl⟩
  · rename_i hl
    cases h
    exact ⟨rfl, rfl, rfl, by simp [Globs.parked, hl], fun h => absurd (hl.symm.trans h) (by decide)⟩
  · rename_i hl
    split at h
    · cases h
    · cases h
      exact ⟨rfl, rfl, rfl, by simp [Globs.parked, hl], fun h => absurd (hl.symm.trans h) (by decide)⟩

/-- The tag as an element compares it. -/
def Elem.tagOf (elem : Elem) (t : BitVec 8) : BitVec 8 :=
  if elem.codingType == .gsm5Tlv then t &&& 0x7f#8 else t

/-- What one round of the loop can do. -/
inductive Round (elem : Elem) (s : Globs) : Globs → Prop where
  /-- The condition is false: nothing is read, and a tag that is parked stays parked. -/
  | skip : elem.cond = some false → Round elem s { s with eRef := s.eRef + 1 }
  /-- A tag is read. -/
  | read {s' : Globs} : elem.cond ≠ some false → s.parked = false → s.bitpos + 4 ≤ s'.bitpos → Round elem s s'
  /-- A parked tag is used. -/
  | settle {s' : Globs} : elem.cond ≠ some false → s.parked → s.bitpos ≤ s'.bitpos → s'.parked = false →
      Round elem s s'
  /-- A parked tag goes to another element. -/
  | park {s' : Globs} (i : Nat) : elem.cond ≠ some false → s.parked → s'.parked → i ≠ s.eRef →
      Finds s s.eRef (elem.tagOf s.pendingTag) (elem.codingType == .gsm5Tlv) i →
      s'.pendingTag = elem.tagOf s.pendingTag → s'.eRef = i → s'.bitpos = s.bitpos → s'.ieiTable = s.ieiTable →
      s'.melemLast = s.melemLast → Round elem s s'

private theorem Decodes.inside {u : Globs} (h : Decodes inp size s u) (ht : s.tagPending = false)
    (e : Nat) :
    ({ u with eRef := e } : Globs).Inside inp size ∧ ({ u with eRef := e } : Globs).parked = false := by
  rcases h.flags with ⟨h1, h2⟩ | ⟨h1, h2⟩
  · rw [ht] at h1
    refine ⟨⟨h.bitpos.2, fun hp => ?_, fun hp => ?_⟩, by simp [Globs.parked, h1]⟩
    · simp [h1] at hp
    · simp [h1] at hp
  · refine ⟨⟨h.bitpos.2, fun hp => ?_, fun hp _ => h2 hp⟩, by simp [Globs.parked, h1]⟩
    have := h2 hp
    simp only
    omega

/-- A round that goes on. -/
theorem decodeRound_cases (hs : inp.Short size) (hin : s.Inside inp size) (h : decodeRound inp s = .ok s') :
    s'.Inside inp size ∧ ∃ elem, inp.elems[s.eRef]? = some elem ∧ Round elem s s' := by
  have hshort := hs.short
  unfold decodeRound at h
  split at h
  · cases h
  rename_i elem helem
  have hreg := hs.regular elem (List.mem_of_getElem? helem)
  split at h
  · split at h <;> cases h
  rename_i hnot
  obtain ⟨r, hr, rfl⟩ := map_ok h
  unfold cdcTlvDecode at hr
  split at hr
  · rename_i hc
    cases hr
    have he : ((s.eRef : Int) + 1).toNat = s.eRef + 1 := by omega
    simp only [he]
    exact ⟨⟨hin.bitpos, hin.pending, hin.nested⟩, elem, helem, .skip hc⟩
  rename_i hc
  split at hr
  · cases hr
  rename_i u hu
  obtain ⟨hub, -, hul, hup, hus⟩ := enterLevel_ok hu
  -- where the tag comes from
  have htag : (s.parked = false ∧ Reads u (readTag inp elem s.eRef u)) ∨
      (s.parked = true ∧ u = s ∧ readTag inp elem s.eRef u = (s.pendingTag, { s with tagPending := false })) := by
    cases hp : s.parked with
    | false =>
      refine .inl ⟨rfl, readTag_reads inp elem s.eRef ?_ (hup.trans hp)⟩
      rw [hub]
      by_cases ht : s.tagPending
      · have := hin.pending ht
        omega
      · have hlt : s.bitpos < inp.maxBitpos := by
          have hf : s.tagPending = false := by simpa using ht
          exact Nat.lt_of_not_le fun hle => hnot ⟨hle, hf⟩
        have := hs.maxBitpos
        omega
    | true =>
      simp only [Globs.parked, Bool.and_eq_true, beq_iff_eq] at hp
      have h' := hus hp.2
      subst h'
      exact .inr ⟨rfl, rfl, readTag_pending inp elem u.eRef hp.1⟩
  generalize readTag inp elem s.eRef u = rt at hr htag
  have hrt : rt.2.tagPending = false ∧ rt.2.lastLevel = .here ∧ rt.2.bitpos ≤ inp.buflen + size + 8 ∧
      s.bitpos ≤ rt.2.bitpos ∧ (s.parked = false → s.bitpos + 4 ≤ rt.2.bitpos) := by
    rcases htag with ⟨hp, hrd⟩ | ⟨hp, -, hrt⟩
    · have hb := hrd.bitpos
      rw [hub] at hb
      refine ⟨hrd.tagPending, hrd.lastLevel.trans hul, ?_, by omega, fun _ => hb.1⟩
      have hle : s.bitpos ≤ inp.buflen + size := by
        by_cases ht : s.tagPending
        · refine hin.nested ht fun hl => ?_
          simp [Globs.parked, ht, hl] at hp
        · have hf : s.tagPending = false := by simpa using ht
          have hlt : s.bitpos < inp.maxBitpos := Nat.lt_of_not_le fun hle => hnot ⟨hle, hf⟩
          have := hs.maxBitpos
          omega
      omega
    · rw [hrt]
      simp only [Globs.parked, Bool.and_eq_true, beq_iff_eq] at hp
      exact ⟨rfl, hp.2, hin.pending hp.1, Nat.le_refl _, fun hf => by simp [Globs.parked, hp] at hf⟩
  obtain ⟨hrp, hrl, hrb, hrs, hrr⟩ := hrt
  simp only at hr
  -- the state in which the search leaves things
  generalize hv : ({ rt.2 with sequenceError := rt.2.sequenceError ||
    (cdcSearchTable s.eRef (elem.tagOf rt.1) (elem.codingType == .gsm5Tlv) rt.2).2 } : Globs) = v
  have hvs : v.tagPending = false ∧ v.lastLevel = .here ∧ v.bitpos = rt.2.bitpos ∧ v.ieiTable = rt.2.ieiTable ∧
      v.melemLast = rt.2.melemLast := by
    subst hv
    exact ⟨hrp, hrl, rfl, rfl, rfl⟩
  obtain ⟨hvp, hvl, hvb, hvt, hvm⟩ := hvs
  have hdone : ∀ (w : Globs) (e : Nat), Decodes inp size v w →
      ({ w with eRef := e } : Globs).Inside inp size ∧ ∃ el, inp.elems[s.eRef]? = some el ∧
        Round el s { w with eRef := e } := by
    intro w e hd
    obtain ⟨hi, hpk⟩ := hd.inside hvp e
    have hb := hd.bitpos
    refine ⟨hi, elem, helem, ?_⟩
    cases hp : s.parked with
    | false =>
      refine .read hc hp ?_
      have := hrr hp
      simp only
      omega
    | true =>
      refine .settle hc hp ?_ hpk
      simp only
      omega
  split at hr
  · have hr' : unknownTag inp (elem.tagOf rt.1) v = .ok r := by
      rw [← hv]
      exact hr
    exact hdone _ _ (unknownTag_decodes hs (by omega) hr')
  · rename_i i hsearch
    have hfound : (cdcSearchTable s.eRef (elem.tagOf rt.1) (elem.codingType == .gsm5Tlv) rt.2).1 = some i := hsearch
    have hr' : (if i = s.eRef then takeElem inp elem s.eRef v else .ok (parkTag (elem.tagOf rt.1) s.eRef i v)) =
        .ok r := by
      rw [← hv]
      exact hr
    split at hr'
    · exact hdone _ _ (takeElem_decodes hs hreg (by omega) hr')
    · rename_i hne
      cases hr'
      have hi : ((s.eRef : Int) + ((i : Int) - s.eRef)).toNat = i := by omega
      simp only [parkTag, hi]
      refine ⟨⟨?_, fun _ => ?_, fun _ hl => absurd hvl hl⟩, elem, helem, ?_⟩
      · simp only
        omega
      · simp only
        omega
      · rcases htag with ⟨hp, -⟩ | ⟨hp, hus', hrt⟩
        · refine .read hc hp ?_
          have := hrr hp
          simp only
          omega
        · rw [hrt] at hfound hvb hvt hvm
          refine .park i hc hp ?_ hne (cdcSearchTable_spec hfound) (by rw [hrt]) rfl hvb hvt hvm
          simp [Globs.parked, hvl]

end

end Citrine.Ccd
