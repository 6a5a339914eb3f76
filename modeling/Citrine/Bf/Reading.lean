import Citrine.Bf.Bitfun
import Citrine.Lib.Machine

/-!
# Reading through the caches

A read gives the value of the bits at the position as long as the caches hold what their octets say (`Coherent`).  A long read
and a short one that begin in the same octet use different octets, but the cache does not know which: so every sequence of
reads and repositionings is exact as long as no such read follows the other kind in the same octet (`reads_exact`).
-/

namespace Citrine.Bf

open Bits

/-! ### Positions -/

/-- `bytepos` and `byteoffs` belong to `bitpos`. -/
structure Aligned (g : Globs) : Prop where
  bytepos : g.bytepos = g.bitpos / 8
  byteoffs : g.byteoffs = g.bitpos % 8
  bitpos : g.bitpos < 65536

section
variable {g : Globs} {n : Nat}

@[simp] theorem incBitpos_bitpos : (incBitpos n g).bitpos = (g.bitpos + n) % 65536 := rfl
@[simp] theorem incBitpos_bitbuf : (incBitpos n g).bitbuf = g.bitbuf := rfl

theorem setBitpos_aligned : Aligned (setBitpos n g) := ⟨rfl, rfl, Nat.mod_lt _ (by omega)⟩

theorem Aligned.eq (h : Aligned g) : 8 * g.bytepos + g.byteoffs = g.bitpos := by
  rw [h.bytepos, h.byteoffs]
  omega

theorem Aligned.offs (h : Aligned g) : g.byteoffs < 8 := by
  rw [h.byteoffs]
  omega

end

/-! ### Caches -/

/-- The caches hold the octets that they are for. -/
structure Coherent (g : Globs) : Prop where
  aligned : Aligned g
  last16 : g.lastbytepos16 ≠ 0xffff → Holds g.last16Bit g.bitbuf (8 * g.lastbytepos16)
  last32 : g.lastbytepos32 ≠ 0xffff →
    Holds g.last32Bit g.bitbuf (8 * (g.lastbytepos32 + if g.longFill then 1 else 0))

/-- A read of some bits that is as it should be. -/
structure Reads (g : Globs) (len : Nat) (r : Nat × Globs) : Prop where
  value : r.1 = field g.bitbuf g.bitpos len
  bitpos : r.2.bitpos = (g.bitpos + len) % 65536
  bitbuf : r.2.bitbuf = g.bitbuf
  coherent : Coherent r.2

section
variable {g : Globs} {k len n : Nat}

theorem Coherent.setBitpos (h : Coherent g) : Coherent (setBitpos n g) := ⟨setBitpos_aligned, h.last16, h.last32⟩

theorem commonDecodeInit_coherent {buf : Octets} : Coherent (commonDecodeInit buf n) :=
  ⟨setBitpos_aligned, fun h => absurd rfl h, fun h => absurd rfl h⟩

private theorem Coherent.octets (h : Coherent g) : g.bytepos ≠ 0xffff := by
  have := h.aligned.bytepos
  have := h.aligned.bitpos
  omega

theorem conv16_holds : Holds (conv16 g k) g.bitbuf (8 * k) := by
  refine (holds_octet _ _).append ?_
  rw [show 8 * k + 8 = 8 * (k + 1) by omega]
  exact holds_octet _ _

theorem conv32_holds : Holds (conv32 g k) g.bitbuf (8 * k) := by
  unfold conv32
  refine (conv16_holds (k := k)).append ?_
  rw [show 8 * k + (8 + 8) = 8 * (k + 2) by omega]
  exact conv16_holds

private theorem cached16_spec (h : Coherent g) :
    Holds (cached16 g).1 g.bitbuf (8 * g.bytepos) ∧ Coherent (cached16 g).2 ∧ (cached16 g).2.bitbuf = g.bitbuf ∧
      (cached16 g).2.bitpos = g.bitpos := by
  unfold cached16
  split
  · exact ⟨conv16_holds, ⟨⟨h.aligned.bytepos, h.aligned.byteoffs, h.aligned.bitpos⟩, fun _ => conv16_holds, h.last32⟩, rfl, rfl⟩
  · rename_i heq
    have heq := Decidable.not_not.1 heq
    have hold := h.last16 (heq ▸ h.octets)
    rw [heq] at hold
    exact ⟨hold, h, rfl, rfl⟩

private theorem cached32_spec {long : Bool} (h : Coherent g) (hfit : g.lastbytepos32 = g.bytepos → g.longFill = long) :
    Holds (cached32 g long).1 g.bitbuf (8 * (g.bytepos + if long then 1 else 0)) ∧ Coherent (cached32 g long).2 ∧
      (cached32 g long).2.bitbuf = g.bitbuf ∧ (cached32 g long).2.bitpos = g.bitpos := by
  have hk : (if long then g.bytepos + 1 else g.bytepos) = g.bytepos + if long then 1 else 0 := by
    cases long <;> rfl
  unfold cached32
  simp only
  rw [hk]
  split
  · exact ⟨conv32_holds, ⟨⟨h.aligned.bytepos, h.aligned.byteoffs, h.aligned.bitpos⟩, h.last16, fun _ => conv32_holds⟩, rfl, rfl⟩
  · rename_i heq
    have heq := Decidable.not_not.1 heq
    have hold := h.last32 (heq ▸ h.octets)
    rw [hfit heq, heq] at hold
    exact ⟨hold, h, rfl, rfl⟩

/-! ### The readers -/

theorem readByte_reads (h : Coherent g) (hlen : len ≤ 8) : Reads g len (readByte g len) := by
  obtain ⟨hw, hc, hb, hp⟩ := cached16_spec h
  have ho := h.aligned.offs
  refine ⟨?_, ?_, hb, hc.setBitpos⟩
  · rw [← h.aligned.eq]
    exact hw.value (by omega)
  · change ((cached16 g).2.bitpos + len) % 65536 = _
    rw [hp]

theorem readShort_reads (h : Coherent g) (hlen : g.byteoffs + len ≤ 32)
    (hfit : g.lastbytepos32 = g.bytepos → g.longFill = false) : Reads g len (readShort g len) := by
  obtain ⟨hw, hc, hb, hp⟩ := cached32_spec h hfit
  refine ⟨?_, ?_, hb, hc.setBitpos⟩
  · rw [← h.aligned.eq]
    exact hw.value (by omega)
  · change ((cached32 g false).2.bitpos + len) % 65536 = _
    rw [hp]

/-- The first octet and the four behind it, put together. -/
private theorem joined_holds {b : Octets} {w : BitVec 32} {o : Nat} (h : Holds w b (8 * (k + 1))) (ho : o < 8) :
    Holds (((octet (w >>> (8 - o)) 0 &&& mask 8 o) ||| ((b k <<< o) &&& ~~~(mask 8 o))) ++ (w >>> (8 - o)).setWidth 24 : BitVec 32) b
      (8 * k + o) := by
  intro i hi
  have hshift : ∀ j, j < 32 → (w >>> (8 - o)).getMsbD j = (decide (8 - o ≤ j) && bitAt b (8 * k + o + j)) := by
    intro j hj
    rw [BitVec.getMsbD_ushiftRight, decide_eq_true hj, Bool.true_and]
    if hj' : j < 8 - o then
      rw [decide_eq_true hj', decide_eq_false (by omega : ¬ 8 - o ≤ j), Bool.not_true, Bool.false_and, Bool.false_and]
    else
      rw [decide_eq_false hj', decide_eq_true (by omega : 8 - o ≤ j), Bool.not_false, Bool.true_and, Bool.true_and, h _ (by omega),
        show 8 * (k + 1) + (j - (8 - o)) = 8 * k + o + j by omega]
  rw [BitVec.getMsbD_append]
  split
  · rename_i hi8
    rw [BitVec.getMsbD_setWidth, decide_eq_true (by omega : 24 - 32 ≤ i - 8), Bool.true_and, hshift _ (by omega),
      decide_eq_true (by omega : 8 - o ≤ i - 8 + 32 - 24), Bool.true_and, show i - 8 + 32 - 24 = i by omega]
  · have hoct : (octet (w >>> (8 - o)) 0).getMsbD i = (w >>> (8 - o)).getMsbD i := by
      rw [getMsbD_octet (by omega) (by omega), Nat.mul_zero, Nat.zero_add]
    rw [BitVec.getMsbD_or, BitVec.getMsbD_and, BitVec.getMsbD_and, BitVec.getMsbD_not, BitVec.getMsbD_shiftLeft,
      getMsbD_mask (by omega), hoct, hshift _ hi, decide_eq_true (by omega : i < 8), Bool.true_and, Bool.true_and]
    if hio : i < 8 - o then
      rw [decide_eq_false (by omega : ¬ 8 - o ≤ i), Bool.false_and, Bool.false_and, Bool.false_or, Bool.not_false, Bool.and_true,
        holds_octet b k (i + o) (by omega), show 8 * k + (i + o) = 8 * k + o + i by omega]
    else
      rw [decide_eq_true (by omega : 8 - o ≤ i), Bool.true_and, Bool.and_true, Bool.not_true, Bool.and_false, Bool.or_false]

theorem readLong_reads (h : Coherent g) (hlen : len ≤ 32) (hfit : g.lastbytepos32 = g.bytepos → g.longFill = true) :
    Reads g len (readLong g len) := by
  obtain ⟨hw, hc, hb, hp⟩ := cached32_spec h hfit
  have ho := h.aligned.offs
  refine ⟨?_, ?_, hb, hc.setBitpos⟩
  · have hshift : (if g.byteoffs = 0 then (cached32 g true).1 >>> 8 else (cached32 g true).1 >>> (8 - g.byteoffs)) =
        (cached32 g true).1 >>> (8 - g.byteoffs) := by
      split
      · rename_i hz
        rw [hz]
      · rfl
    have hjoined := joined_holds (b := g.bitbuf) hw ho
    rw [h.aligned.eq] at hjoined
    unfold readLong
    simp only
    rw [hshift]
    exact hjoined.first hlen
  · change ((cached32 g true).2.bitpos + len) % 65536 = _
    rw [hp]

theorem decodeByteNumber_reads (h : Coherent g) (hlen : len ≤ 8) : Reads g len (decodeByteNumber g len) := by
  have ho := h.aligned.offs
  refine ⟨?_, rfl, rfl, h.setBitpos⟩
  have hvalue := (conv16_holds (g := g) (k := g.bytepos)).value (n := len) (o := g.byteoffs) (by omega)
  rw [h.aligned.eq] at hvalue
  unfold decodeByteNumber
  simp only
  rw [hvalue]
  exact Nat.mod_eq_of_lt (Nat.lt_of_lt_of_le field_lt (Nat.pow_le_pow_right (by omega) hlen))

theorem decodeShortNumber_reads (h : Coherent g) (hlen : g.byteoffs + len ≤ 32) : Reads g len (decodeShortNumber g len) := by
  refine ⟨?_, rfl, rfl, h.setBitpos⟩
  rw [← h.aligned.eq]
  exact conv32_holds.value hlen

theorem readBit_reads (h : Coherent g) : Reads g 1 (readBit g) := by
  have ho := h.aligned.offs
  refine ⟨?_, rfl, rfl, h.setBitpos⟩
  have hbit : (g.bitbuf g.bytepos).getMsbD g.byteoffs = bitAt g.bitbuf g.bitpos := by
    rw [holds_octet _ _ _ ho, h.aligned.eq]
  have hfield : field g.bitbuf g.bitpos 1 = (bitAt g.bitbuf g.bitpos).toNat := by
    rw [field_succ, Nat.add_zero]
    exact Nat.zero_add _
  rw [hfield, ← hbit]
  unfold readBit
  simp only
  split
  · rename_i hne
    rw [(and_twoPow_ne ho).1 hne]
    rfl
  · rename_i hne
    rw [Bool.eq_false_iff.2 fun hno => hne ((and_twoPow_ne ho).2 hno)]
    rfl

theorem readBits_reads (h : Coherent g) (hlen : len ≤ 32)
    (hfit : 8 < len → g.lastbytepos32 = g.bytepos → g.longFill = decide (32 < len + g.byteoffs)) :
    Reads g len (readBits g len) := by
  unfold readBits
  split
  · exact readByte_reads h (by omega)
  · rename_i hlong
    split
    · refine readShort_reads h (by omega) fun heq => ?_
      rw [hfit (by omega) heq]
      exact decide_eq_false (by omega)
    · refine readLong_reads h hlen fun heq => ?_
      rw [hfit (by omega) heq]
      exact decide_eq_true (by omega)

theorem getBits_reads (h : Coherent g) (hlen : len ≤ 32)
    (hfit : 8 < len → g.lastbytepos32 = g.bytepos → g.longFill = decide (24 < len)) : Reads g len (getBits g len) := by
  have ho := h.aligned.offs
  unfold getBits
  split
  · exact readByte_reads h (by omega)
  · split
    · refine readShort_reads h (by omega) fun heq => ?_
      rw [hfit (by omega) heq]
      exact decide_eq_false (by omega)
    · refine readLong_reads h hlen fun heq => ?_
      rw [hfit (by omega) heq]
      exact decide_eq_true (by omega)

theorem getBits_bitpos : (getBits g len).2.bitpos = if len ≤ 32 then (g.bitpos + len) % 65536 else g.bitpos := by
  have h16 : (cached16 g).2.bitpos = g.bitpos := by
    unfold cached16
    split <;> rfl
  have h32 : ∀ long, (cached32 g long).2.bitpos = g.bitpos := by
    intro long
    unfold cached32
    simp only
    split <;> rfl
  unfold getBits
  split
  · rw [if_pos (by omega), ← h16]
    rfl
  · split
    · rw [if_pos (by omega), ← h32 false]
      rfl
    · split
      · rw [← h32 true]
        rfl
      · rfl

/-! ### Going forward -/

/-- A reader at a position of a buffer, that has filled the cache of 32 bits for no octet from there on. -/
structure At (g : Globs) (b : Octets) (p : Nat) : Prop where
  coherent : Coherent g
  bitbuf : g.bitbuf = b
  bitpos : g.bitpos = p
  fresh : g.lastbytepos32 = 0xffff ∨ g.lastbytepos32 < g.bytepos

variable {b : Octets} {p : Nat}

theorem commonDecodeInit_at (hp : p < 65536) : At (commonDecodeInit b p) b p := by
  refine ⟨commonDecodeInit_coherent, rfl, ?_, .inl rfl⟩
  change (0 + p) % 65536 = p
  rw [Nat.zero_add, Nat.mod_eq_of_lt hp]

private theorem At.unused (h : At g b p) : g.lastbytepos32 ≠ g.bytepos := by
  have := h.coherent.octets
  rcases h.fresh with hf | hf <;> omega

private theorem At.next {r : Nat × Globs} (h : At g b p) (hp : p + len < 65536) (hr : Reads g len r)
    (hlast : r.2.lastbytepos32 = g.lastbytepos32 ∨ (8 < len ∧ r.2.lastbytepos32 = g.bytepos)) :
    r.1 = field b p len ∧ At r.2 b (p + len) := by
  have hpos := hr.bitpos
  have hbyte := hr.coherent.aligned.bytepos
  have hold := h.coherent.aligned.bytepos
  rw [h.bitpos, Nat.mod_eq_of_lt hp] at hpos
  rw [h.bitpos] at hold
  refine ⟨by rw [hr.value, h.bitbuf, h.bitpos], hr.coherent, hr.bitbuf.trans h.bitbuf, hpos, ?_⟩
  rcases hlast with hlast | ⟨hlong, hlast⟩
  · rw [hlast]
    rcases h.fresh with hf | hf
    · exact .inl hf
    · exact .inr (by omega)
  · rw [hlast]
    exact .inr (by omega)

private theorem cached16_last : (cached16 g).2.lastbytepos32 = g.lastbytepos32 := by
  unfold cached16
  split <;> rfl

private theorem cached32_last {long : Bool} : (cached32 g long).2.lastbytepos32 = g.bytepos := by
  unfold cached32
  simp only
  split
  · rfl
  · rename_i heq
    exact Decidable.not_not.1 heq

theorem At.readBit (h : At g b p) (hp : p + 1 < 65536) : (readBit g).1 = field b p 1 ∧ At (readBit g).2 b (p + 1) :=
  h.next hp (readBit_reads h.coherent) (.inl rfl)

theorem At.readBits (h : At g b p) (hlen : len ≤ 32) (hp : p + len < 65536) :
    (readBits g len).1 = field b p len ∧ At (readBits g len).2 b (p + len) := by
  refine h.next hp (readBits_reads h.coherent hlen fun _ heq => absurd heq h.unused) ?_
  unfold Bf.readBits
  split
  · exact .inl cached16_last
  · refine .inr ⟨by omega, ?_⟩
    split <;> exact cached32_last

theorem At.getBits (h : At g b p) (len : Nat) (hlen : len ≤ 32) (hp : p + len < 65536) :
    (getBits g len).1 = field b p len ∧ At (getBits g len).2 b (p + len) := by
  refine h.next hp (getBits_reads h.coherent hlen fun _ heq => absurd heq h.unused) ?_
  unfold Bf.getBits
  split
  · exact .inl cached16_last
  · refine .inr ⟨by omega, ?_⟩
    split
    · exact cached32_last
    · exact cached32_last

theorem At.decodeByteNumber (h : At g b p) (len : Nat) (hlen : len ≤ 8) (hp : p + len < 65536) :
    (decodeByteNumber g len).1 = field b p len ∧ At (decodeByteNumber g len).2 b (p + len) :=
  h.next hp (decodeByteNumber_reads h.coherent hlen) (.inl rfl)

theorem At.incBitpos (h : At g b p) (hp : p + n < 65536) : At (incBitpos n g) b (p + n) := by
  have hpos : (g.bitpos + n) % 65536 = p + n := by
    rw [h.bitpos, Nat.mod_eq_of_lt hp]
  have hold := h.coherent.aligned.bytepos
  rw [h.bitpos] at hold
  refine ⟨h.coherent.setBitpos, h.bitbuf, hpos, h.fresh.imp id fun hf => ?_⟩
  change g.lastbytepos32 < (g.bitpos + n) % 65536 / 8
  omega

/-- A reader is moved forward. -/
theorem At.setBitpos (h : At g b p) (hle : p ≤ n) (hn : n < 65536) : At (setBitpos n g) b n := by
  have hinc := h.incBitpos (n := n - p) (by omega)
  unfold Bf.incBitpos at hinc
  rwa [h.bitpos, show p + (n - p) = n by omega] at hinc

end

/-! ### Runs -/

/-- The calls that read or reposition. -/
inductive Op where
  | readBit
  | readBits (len : Nat)
  | getBits (len : Nat)
  | decodeByteNumber (len : Nat)
  | decodeShortNumber (len : Nat)
  | setBitpos (n : Nat)
  | incBitpos (n : Nat)

namespace Op

/-- The number of bits that a call reads. -/
def bits : Op → Option Nat
  | readBit => some 1
  | readBits len | getBits len | decodeByteNumber len | decodeShortNumber len => some len
  | setBitpos _ | incBitpos _ => none

/-- What a call returns and what it does to the position and the caches. -/
def exec (g : Globs) : Op → Nat × Globs
  | readBit => Bf.readBit g
  | readBits len => Bf.readBits g len
  | getBits len => Bf.getBits g len
  | decodeByteNumber len => Bf.decodeByteNumber g len
  | decodeShortNumber len => Bf.decodeShortNumber g len
  | setBitpos n => (0, Bf.setBitpos n g)
  | incBitpos n => (0, Bf.incBitpos n g)

/-- The lengths that the functions are for; four octets hold 25 bits from any offset on. -/
def legal : Op → Bool
  | readBits len | getBits len => 1 ≤ len ∧ len ≤ 32
  | decodeByteNumber len => 1 ≤ len ∧ len ≤ 8
  | decodeShortNumber len => 1 ≤ len ∧ len ≤ 25
  | readBit | setBitpos _ | incBitpos _ => true

/-- Whether a call uses the cache of 32 bits, and for a long read. -/
def wide (g : Globs) : Op → Option Bool
  | readBits len => if 8 < len then some (32 < len + g.byteoffs) else none
  | getBits len => if 8 < len then some (24 < len) else none
  | _ => none

/-- A call that uses the cache of 32 bits in the octet of the cache is of the kind that has filled it. -/
def fits (g : Globs) (op : Op) : Bool :=
  (op.wide g).all fun long => g.lastbytepos32 ≠ g.bytepos ∨ g.longFill = long

end Op

private theorem fits_wide {g : Globs} {op : Op} {c : Prop} [Decidable c] {long : Bool}
    (hw : op.wide g = if c then some long else none) (h : op.fits g) : c → g.lastbytepos32 = g.bytepos → g.longFill = long := by
  intro hc heq
  unfold Op.fits at h
  rw [hw, if_pos hc, Option.all_some, decide_eq_true_eq] at h
  exact h.resolve_left fun hne => hne heq

/-- A read from coherent caches is as it should be. -/
theorem exec_reads {g : Globs} {op : Op} {len : Nat} (h : Coherent g) (hlegal : op.legal) (hfits : op.fits g)
    (hlen : op.bits = some len) : Reads g len (op.exec g) := by
  cases op with
  | readBit => exact Option.some.inj hlen ▸ readBit_reads h
  | readBits n =>
    cases hlen
    exact readBits_reads h (of_decide_eq_true hlegal).2 (fits_wide rfl hfits)
  | getBits n =>
    cases hlen
    exact getBits_reads h (of_decide_eq_true hlegal).2 (fits_wide rfl hfits)
  | decodeByteNumber n =>
    cases hlen
    exact decodeByteNumber_reads h (of_decide_eq_true hlegal).2
  | decodeShortNumber n =>
    cases hlen
    have hn := (of_decide_eq_true hlegal).2
    have ho := h.aligned.offs
    exact decodeShortNumber_reads h (by omega)
  | setBitpos n => cases hlen
  | incBitpos n => cases hlen

/-- The reader of a message. -/
def reader (buf : Octets) : Machine Globs Op where
  init g := ∃ oBuf, g = commonDecodeInit buf oBuf
  step g op := some (op.exec g).2

/-- The calls with lengths in their ranges that do not take the cache of 32 bits for the wrong octets. -/
def readable (g : Globs) (op : Op) : Bool := op.legal && op.fits g

private theorem exec_coherent {g : Globs} {op : Op} (h : Coherent g) (hok : readable g op) :
    Coherent (op.exec g).2 ∧ (op.exec g).2.bitbuf = g.bitbuf := by
  have hok := Bool.and_eq_true_iff.1 hok
  have hread : ∀ len, op.bits = some len → Coherent (op.exec g).2 ∧ (op.exec g).2.bitbuf = g.bitbuf := by
    intro len hlen
    have hreads := exec_reads h hok.1 hok.2 hlen
    exact ⟨hreads.coherent, hreads.bitbuf⟩
  cases op with
  | setBitpos n => exact ⟨h.setBitpos, rfl⟩
  | incBitpos n => exact ⟨h.setBitpos, rfl⟩
  | _ => exact hread _ rfl

/-- In every run the caches stay coherent. -/
theorem reach_coherent {buf : Octets} {g : Globs} (h : (reader buf).Reach readable g) : Coherent g ∧ g.bitbuf = buf := by
  refine h.invariant (I := fun g => Coherent g ∧ g.bitbuf = buf) ?_ ?_
  · rintro g ⟨oBuf, rfl⟩
    exact ⟨commonDecodeInit_coherent, rfl⟩
  · rintro g op g' ⟨hc, hb⟩ hok hs
    cases hs
    have hexec := exec_coherent hc hok
    exact ⟨hexec.1, hexec.2.trans hb⟩

/-- Each read of a run returns the value of its bits and advances the position, when no read of the run takes the cache of 32
bits for the wrong octets. -/
theorem reads_exact {buf : Octets} {g : Globs} (h : (reader buf).Reach readable g) {op : Op} (hok : readable g op) {len : Nat}
    (hlen : op.bits = some len) :
    (op.exec g).1 = field buf g.bitpos len ∧ (op.exec g).2.bitpos = (g.bitpos + len) % 65536 := by
  obtain ⟨hc, hb⟩ := reach_coherent h
  have hok := Bool.and_eq_true_iff.1 hok
  have hreads := exec_reads hc hok.1 hok.2 hlen
  exact ⟨hb ▸ hreads.value, hreads.bitpos⟩

/-- Octets for the runs below. -/
def sample : Octets := fun k => BitVec.ofNat 8 (k + 1)

/-- The two readers go back and forth over the message. -/
theorem sample_reads : ∃ g, (reader sample).run readable (commonDecodeInit sample 3)
      [.getBits 32, .setBitpos 5, .readBits 32, .incBitpos 2, .readBit] = some g ∧
    (Op.exec g (.readBits 20)).1 = field sample g.bitpos 20 ∧ (Op.exec g (.readBits 20)).2.bitpos = (g.bitpos + 20) % 65536 :=
  ⟨_, rfl, reads_exact (.of_run (.init ⟨3, rfl⟩) (show (reader sample).run readable (commonDecodeInit sample 3)
    [.getBits 32, .setBitpos 5, .readBits 32, .incBitpos 2, .readBit] = some _ from rfl)) (by decide +kernel) rfl⟩

/-- After a short read the long read in the same octet takes the wrong octets from the cache. -/
theorem long_after_short : ∃ g, (reader sample).run (fun _ op => op.legal) (commonDecodeInit sample 0)
      [.readBits 9, .setBitpos 0] = some g ∧ (Op.exec g (.getBits 32)).1 ≠ field sample g.bitpos 32 :=
  ⟨_, rfl, by decide +kernel⟩

end Citrine.Bf
