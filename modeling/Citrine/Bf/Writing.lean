import Citrine.Bf.Reading

/-!
# Writing

A write of some bits is exact when these bits get the value and all others stay as they are (`Writes`).  `bf_writeBits` is exact
for up to 24 bits; for more it stores the value and then, because the following lines are not for shorter values only, stores
it again behind the fourth octet, where it does no harm only if it is zero (`writeBits_exact_iff`).  What exact writes have
written is read back (`sequence_exact_iff`).
-/

namespace Citrine.Bf

open Bits

/-- The bits at the position have got the value, all other bits are as before, and the position is behind the bits. -/
structure Writes (g : Globs) (len v : Nat) (g' : Globs) : Prop where
  written : Written g.bitbuf g'.bitbuf g.bitpos len v
  bitpos : g'.bitpos = g.bitpos + len

/-- A shift does what the language says. -/
def DefinedShift (shl : BitVec 32 → Nat → BitVec 32) : Prop := ∀ w n, n < 32 → shl w n = w <<< n

section
variable {b : Octets} {g : Globs} {k len i wBits : Nat} {w v : BitVec 32} {shl : BitVec 32 → Nat → BitVec 32}

private theorem bitAt_orOctets (hw : ∀ j, wBits ≤ j → w.getMsbD j = false) :
    bitAt (orOctets b k w wBits) i = (bitAt b i || (decide (8 * k ≤ i) && w.getMsbD (i - 8 * k))) := by
  have h0 : ∀ b, bitAt (orAt b k (octet w 0)) i = (bitAt b i || (decide (i / 8 = k) && w.getMsbD (i - 8 * k))) :=
    fun b => bitAt_orAt_octet (j := 0) (by omega)
  have h1 : ∀ b, bitAt (orAt b (k + 1) (octet w 1)) i = (bitAt b i || (decide (i / 8 = k + 1) && w.getMsbD (i - 8 * k))) :=
    fun b => bitAt_orAt_octet (by omega)
  have h2 : ∀ b, bitAt (orAt b (k + 2) (octet w 2)) i = (bitAt b i || (decide (i / 8 = k + 2) && w.getMsbD (i - 8 * k))) :=
    fun b => bitAt_orAt_octet (by omega)
  have h3 : ∀ b, bitAt (orAt b (k + 3) (octet w 3)) i = (bitAt b i || (decide (i / 8 = k + 3) && w.getMsbD (i - 8 * k))) :=
    fun b => bitAt_orAt_octet (by omega)
  unfold orOctets
  cases hb : w.getMsbD (i - 8 * k) with
  | false =>
    simp only [hb, Bool.and_false, Bool.or_false] at h0 h1 h2 h3 ⊢
    split
    · split
      · rw [h3, h2, h1, h0]
      · rw [h2, h1, h0]
    · rw [h1, h0]
  | true =>
    have hlt : i - 8 * k < wBits := by
      refine Nat.lt_of_not_le fun hle => ?_
      rw [hw _ hle] at hb
      cases hb
    have h32 : i - 8 * k < 32 := by
      refine Nat.lt_of_not_le fun hle => ?_
      rw [BitVec.getMsbD_of_ge _ _ hle] at hb
      cases hb
    simp only [hb, Bool.and_true] at h0 h1 h2 h3 ⊢
    split
    · split
      · rw [h3, h2, h1, h0, Bool.or_assoc, Bool.or_assoc, Bool.or_assoc]
        simp only [← Bool.decide_or]
        exact congrArg (bitAt b i || ·) (decide_eq_decide.2 (by omega))
      · rw [h2, h1, h0, Bool.or_assoc, Bool.or_assoc]
        simp only [← Bool.decide_or]
        exact congrArg (bitAt b i || ·) (decide_eq_decide.2 (by omega))
    · rw [h1, h0, Bool.or_assoc]
      simp only [← Bool.decide_or]
      exact congrArg (bitAt b i || ·) (decide_eq_decide.2 (by omega))

private theorem bitAt_orTwo {c : BitVec 16} (hc : ∀ j, wBits ≤ j → c.getMsbD j = false) :
    bitAt (if wBits > 8 then orAt (orAt b k (octet c 0)) (k + 1) (octet c 1) else orAt b k (octet c 0)) i =
      (bitAt b i || (decide (8 * k ≤ i) && c.getMsbD (i - 8 * k))) := by
  have h0 : ∀ b, bitAt (orAt b k (octet c 0)) i = (bitAt b i || (decide (i / 8 = k) && c.getMsbD (i - 8 * k))) :=
    fun b => bitAt_orAt_octet (j := 0) (by omega)
  have h1 : ∀ b, bitAt (orAt b (k + 1) (octet c 1)) i = (bitAt b i || (decide (i / 8 = k + 1) && c.getMsbD (i - 8 * k))) :=
    fun b => bitAt_orAt_octet (by omega)
  cases hb : c.getMsbD (i - 8 * k) with
  | false =>
    simp only [hb, Bool.and_false, Bool.or_false] at h0 h1 ⊢
    split
    · rw [h1, h0]
    · rw [h0]
  | true =>
    have hlt : i - 8 * k < wBits := by
      refine Nat.lt_of_not_le fun hle => ?_
      rw [hc _ hle] at hb
      cases hb
    have h16 : i - 8 * k < 16 := by
      refine Nat.lt_of_not_le fun hle => ?_
      rw [BitVec.getMsbD_of_ge _ _ hle] at hb
      cases hb
    simp only [hb, Bool.and_true] at h0 h1 ⊢
    split
    · rw [h1, h0, Bool.or_assoc, ← Bool.decide_or]
      exact congrArg (bitAt b i || ·) (decide_eq_decide.2 (by omega))
    · rw [h0]
      exact congrArg (bitAt b i || ·) (decide_eq_decide.2 (by omega))

/-- A word that has the value at the offset of the position is stored by or-operations. -/
private theorem written_placed {b' : Octets} {m o v : Nat} {c : BitVec m} (hz : ZeroFrom b (8 * k + o))
    (hc : ∀ j, c.getMsbD j = (decide (o ≤ j ∧ j < o + len) && v.testBit (o + len - 1 - j)))
    (hb : ∀ i, bitAt b' i = (bitAt b i || (decide (8 * k ≤ i) && c.getMsbD (i - 8 * k)))) : Written b b' (8 * k + o) len v := by
  refine .of_or hz fun i => ?_
  rw [hb i, hc]
  refine congrArg (bitAt b i || ·) ?_
  if hi : 8 * k + o ≤ i ∧ i < 8 * k + o + len then
    rw [decide_eq_true hi, decide_eq_true (by omega : 8 * k ≤ i), decide_eq_true (by omega : o ≤ i - 8 * k ∧ i - 8 * k < o + len),
      Bool.true_and, Bool.true_and, Bool.true_and, show 8 * k + o + len - 1 - i = o + len - 1 - (i - 8 * k) by omega]
  else
    rw [decide_eq_false hi, Bool.false_and]
    if hk : 8 * k ≤ i then
      rw [decide_eq_false (by omega : ¬ (o ≤ i - 8 * k ∧ i - 8 * k < o + len)), Bool.false_and, Bool.and_false]
    else rw [decide_eq_false hk, Bool.false_and]

private theorem placed_beyond {m o : Nat} {c : BitVec m} {v : Nat}
    (hc : ∀ j, c.getMsbD j = (decide (o ≤ j ∧ j < o + len) && v.testBit (o + len - 1 - j))) :
    ∀ j, len + o ≤ j → c.getMsbD j = false := by
  intro j hj
  rw [hc j, decide_eq_false (by omega), Bool.false_and]

/-! ### More than 24 bits -/

private theorem bitAt_setThree : bitAt (setAt (setAt (setAt b (k + 1) (octet w 0)) (k + 2) (octet w 1)) (k + 3) (octet w 2)) i =
    if 8 * (k + 1) ≤ i ∧ i < 8 * (k + 4) then w.getMsbD (i - 8 * (k + 1)) else bitAt b i := by
  have h0 : ∀ b, bitAt (setAt b (k + 1) (octet w 0)) i = if i / 8 = k + 1 then w.getMsbD (i - 8 * (k + 1)) else bitAt b i :=
    fun b => bitAt_setAt_octet (j := 0) (by omega)
  have h1 : ∀ b, bitAt (setAt b (k + 2) (octet w 1)) i = if i / 8 = k + 2 then w.getMsbD (i - 8 * (k + 1)) else bitAt b i :=
    fun b => bitAt_setAt_octet (k := k + 1) (j := 1) (by omega)
  have h2 : ∀ b, bitAt (setAt b (k + 3) (octet w 2)) i = if i / 8 = k + 3 then w.getMsbD (i - 8 * (k + 1)) else bitAt b i :=
    fun b => bitAt_setAt_octet (k := k + 1) (j := 2) (by omega)
  rw [h2, h1, h0]
  split
  · rw [if_pos (by omega)]
  · split
    · rw [if_pos (by omega)]
    · split
      · rw [if_pos (by omega)]
      · rw [if_neg (by omega)]

/-- The first part of a write of more than 24 bits is the whole write. -/
private theorem writeFive_written (ha : Aligned g) (hz : ZeroFrom g.bitbuf g.bitpos) (hlen : 24 < len ∧ len ≤ 32) :
    Written g.bitbuf (writeFive g len v) g.bitpos len v.toNat := by
  have ho := ha.offs
  have heq := ha.eq
  unfold writeFive
  simp only
  generalize hw : (v &&& mask 32 len) <<< (32 - len) = w
  have hbit : ∀ j, w.getMsbD j = (decide (j < len) && v.toNat.testBit (len - 1 - j)) := by
    intro j
    have hp := getMsbD_placed (c := v) (o := 0) (n := len) (j := j) (by omega)
    rw [Nat.zero_add, hw] at hp
    rw [hp, BitVec.testBit_toNat]
    exact congrArg (· && _) (decide_eq_decide.2 (by omega))
  have hfirst : ∀ i, bitAt (orAt g.bitbuf g.bytepos ((octet w 0 >>> g.byteoffs) &&& mask 8 (8 - g.byteoffs))) i =
      (bitAt g.bitbuf i || (decide (i / 8 = g.bytepos ∧ g.bitpos ≤ i) && w.getMsbD (i - g.bitpos))) := by
    intro i
    rw [bitAt_orAt]
    refine congrArg (bitAt g.bitbuf i || ·) ?_
    if hi : i / 8 = g.bytepos then
      rw [decide_eq_true hi, Bool.true_and, BitVec.getMsbD_and, getMsbD_mask (by omega), BitVec.getMsbD_ushiftRight,
        decide_eq_true (by omega : i % 8 < 8), Bool.true_and, Bool.true_and]
      if hpos : g.bitpos ≤ i then
        rw [decide_eq_true (by omega : i / 8 = g.bytepos ∧ g.bitpos ≤ i), decide_eq_false (by omega : ¬ i % 8 < g.byteoffs),
          decide_eq_true (by omega : 8 - (8 - g.byteoffs) ≤ i % 8), getMsbD_octet (by omega) (by omega), Bool.not_false,
          Bool.true_and, Bool.and_true, Bool.true_and, show 8 * 0 + (i % 8 - g.byteoffs) = i - g.bitpos by omega]
      else
        rw [decide_eq_false (by omega : ¬ (i / 8 = g.bytepos ∧ g.bitpos ≤ i)), decide_eq_true (by omega : i % 8 < g.byteoffs),
          Bool.not_true, Bool.false_and, Bool.false_and, Bool.false_and]
    else
      rw [decide_eq_false hi, decide_eq_false (by omega : ¬ (i / 8 = g.bytepos ∧ g.bitpos ≤ i)), Bool.false_and, Bool.false_and]
  generalize orAt g.bitbuf g.bytepos ((octet w 0 >>> g.byteoffs) &&& mask 8 (8 - g.byteoffs)) = b₁ at hfirst ⊢
  have hrest : ∀ i, 8 * (g.bytepos + 1) ≤ i → (w <<< (8 - g.byteoffs)).getMsbD (i - 8 * (g.bytepos + 1)) = w.getMsbD (i - g.bitpos) := by
    intro i hi
    rw [BitVec.getMsbD_shiftLeft, show i - 8 * (g.bytepos + 1) + (8 - g.byteoffs) = i - g.bitpos by omega]
  have hall : ∀ i, g.bitpos ≤ i → w.getMsbD (i - g.bitpos) =
      if g.bitpos ≤ i ∧ i < g.bitpos + len then v.toNat.testBit (g.bitpos + len - 1 - i) else bitAt g.bitbuf i := by
    intro i hi
    rw [hbit]
    split
    · rw [decide_eq_true (by omega : i - g.bitpos < len), Bool.true_and,
        show len - 1 - (i - g.bitpos) = g.bitpos + len - 1 - i by omega]
    · rw [decide_eq_false (by omega : ¬ i - g.bitpos < len), Bool.false_and, hz i hi]
  have hother : ∀ i, ¬ (8 * (g.bytepos + 1) ≤ i ∧ i < 8 * (g.bytepos + 4)) → ¬ (i / 8 = g.bytepos + 4 ∧ len + g.byteoffs > 32) →
      bitAt b₁ i = if g.bitpos ≤ i ∧ i < g.bitpos + len then v.toNat.testBit (g.bitpos + len - 1 - i) else bitAt g.bitbuf i := by
    intro i hi hi'
    rw [hfirst i]
    if hpos : i / 8 = g.bytepos ∧ g.bitpos ≤ i then
      rw [decide_eq_true hpos, Bool.true_and, hall i hpos.2, hz i hpos.2, Bool.false_or]
    else
      rw [decide_eq_false hpos, Bool.false_and, Bool.or_false, if_neg (by omega)]
  intro i
  split
  · have hlast : bitAt (setAt (setAt (setAt (setAt b₁ (g.bytepos + 1) (octet (w <<< (8 - g.byteoffs)) 0)) (g.bytepos + 2)
        (octet (w <<< (8 - g.byteoffs)) 1)) (g.bytepos + 3) (octet (w <<< (8 - g.byteoffs)) 2)) (g.bytepos + 4)
        (octet (w <<< (8 - g.byteoffs)) 3)) i = _ := bitAt_setAt_octet (k := g.bytepos + 1) (j := 3) (by omega)
    rw [hlast, bitAt_setThree]
    split
    · rw [hrest i (by omega), hall i (by omega)]
    · split
      · rw [hrest i (by omega), hall i (by omega)]
      · exact hother i (by omega) (by omega)
  · rw [bitAt_setThree]
    split
    · rw [hrest i (by omega), hall i (by omega)]
    · exact hother i (by omega) (by omega)

/-! ### All lengths -/

private theorem shift_count {o : Nat} (h : len + o ≤ 32) : (4294967296 + 32 - (len + o)) % 4294967296 = 32 - (len + o) := by
  omega

private theorem bitbuf_five (hlen : 24 < len) : (writeBits g shl len v).bitbuf =
    orOctets (writeFive g len v) (g.bytepos + 4)
      (shl (v &&& mask 32 len) ((4294967296 + 32 - (len + g.byteoffs)) % 4294967296)) (len + g.byteoffs) := by
  unfold writeBits
  simp only [incBitpos_bitbuf]
  rw [if_pos hlen, if_pos hlen, if_pos (by omega : len > 8), if_pos (by omega : len > 16)]

private theorem getLsbD_low {c : BitVec 32} {n : Nat} (hn : len ≤ n) (hc : c = v ∨ c = (v.setWidth n).setWidth 32) :
    ∀ j, j < len → c.getLsbD j = v.toNat.testBit j := by
  intro j hj
  rw [BitVec.testBit_toNat]
  rcases hc with rfl | rfl
  · rfl
  · rw [BitVec.getLsbD_setWidth, BitVec.getLsbD_setWidth, decide_eq_true (by omega : j < n), Bool.true_and]
    if h32 : j < 32 then rw [decide_eq_true h32, Bool.true_and]
    else rw [decide_eq_false h32, Bool.false_and, BitVec.getLsbD_of_ge _ _ (by omega)]

private theorem placed_bits {m o v : Nat} {c : BitVec m} (h : o + len ≤ m) (hc : ∀ j, j < len → c.getLsbD j = v.testBit j) :
    ∀ j, ((c &&& mask m len) <<< (m - (len + o))).getMsbD j =
      (decide (o ≤ j ∧ j < o + len) && v.testBit (o + len - 1 - j)) := by
  intro j
  rw [Nat.add_comm len o, getMsbD_placed h]
  if hj : o ≤ j ∧ j < o + len then rw [hc _ (by omega)]
  else rw [decide_eq_false hj, Bool.false_and, Bool.false_and]

private theorem written_middle (ha : Aligned g) (hz : ZeroFrom g.bitbuf g.bitpos) (hlen : 8 < len ∧ len ≤ 24)
    (hshl : DefinedShift shl) : Written g.bitbuf (writeBits g shl len v).bitbuf g.bitpos len v.toNat := by
  have ho := ha.offs
  unfold writeBits
  simp only [incBitpos_bitbuf]
  rw [if_neg (by omega : ¬ len > 24), if_neg (by omega : ¬ len > 24), if_pos (by omega : len > 8), shift_count (by omega),
    hshl _ _ (by omega)]
  have hlow : ∀ j, j < len → (if len > 16 then v else (v.setWidth 16).setWidth 32 : BitVec 32).getLsbD j = v.toNat.testBit j := by
    split
    · exact getLsbD_low (n := 32) (by omega) (.inl rfl)
    · exact getLsbD_low (n := 16) (by omega) (.inr rfl)
  have hbits := placed_bits (v := v.toNat) (o := g.byteoffs) (by omega) hlow
  have hwritten := fun i => bitAt_orOctets (b := g.bitbuf) (k := g.bytepos) (i := i) (placed_beyond hbits)
  rw [← ha.eq] at hz ⊢
  exact written_placed hz hbits hwritten

private theorem written_few (ha : Aligned g) (hz : ZeroFrom g.bitbuf g.bitpos) (hlen : len ≤ 8) :
    Written g.bitbuf (writeBits g shl len v).bitbuf g.bitpos len v.toNat := by
  have ho := ha.offs
  unfold writeBits
  simp only [incBitpos_bitbuf]
  rw [if_neg (by omega : ¬ len > 24), if_neg (by omega : ¬ len > 24), if_neg (by omega : ¬ len > 8)]
  have hlow : ∀ j, j < len → ((v.setWidth 8).setWidth 16 : BitVec 16).getLsbD j = v.toNat.testBit j := by
    intro j hj
    rw [BitVec.getLsbD_setWidth, BitVec.getLsbD_setWidth, decide_eq_true (by omega : j < 8), decide_eq_true (by omega : j < 16),
      Bool.true_and, Bool.true_and, BitVec.testBit_toNat]
  have hbits := placed_bits (v := v.toNat) (o := g.byteoffs) (by omega) hlow
  have hwritten := fun i => bitAt_orTwo (b := g.bitbuf) (k := g.bytepos) (i := i) (placed_beyond hbits)
  rw [← ha.eq] at hz ⊢
  exact written_placed hz hbits hwritten

/-! ### When a write is exact -/

/-- The position stays in its range, and a value of more than 24 bits is zero and does not reach a fifth octet. -/
def Storable (p len : Nat) (v : BitVec 32) : Prop :=
  p + len < 65536 ∧ (len ≤ 24 ∨ (p % 8 + len ≤ 32 ∧ v.toNat % 2 ^ len = 0))

private theorem masked_zero (h : v.toNat % 2 ^ len = 0) : v &&& mask 32 len = 0#32 := by
  refine BitVec.eq_of_getLsbD_eq fun i _ => ?_
  rw [BitVec.getLsbD_and, getLsbD_mask]
  have hbit : (v.toNat % 2 ^ len).testBit i = false := by rw [h, Nat.zero_testBit]
  rw [Nat.testBit_mod_two_pow, BitVec.testBit_toNat] at hbit
  rw [Bool.and_comm (decide (i < 32)), ← Bool.and_assoc, Bool.and_comm (v.getLsbD i), hbit, Bool.false_and]
  exact BitVec.getLsbD_zero.symm

theorem writeBits_writes (ha : Aligned g) (hz : ZeroFrom g.bitbuf g.bitpos) (hlen : len ≤ 32) (hshl : DefinedShift shl)
    (h : Storable g.bitpos len v) : Writes g len v.toNat (writeBits g shl len v) := by
  refine ⟨?_, Nat.mod_eq_of_lt h.1⟩
  if hfive : 24 < len then
    obtain ⟨hfit, hzero⟩ := h.2.resolve_left (by omega)
    rw [← ha.byteoffs] at hfit
    rw [bitbuf_five hfive, masked_zero hzero, shift_count (by omega), hshl _ _ (by omega), BitVec.zero_shiftLeft]
    intro i
    rw [bitAt_orOctets (fun j _ => BitVec.getMsbD_zero), BitVec.getMsbD_zero, Bool.and_false, Bool.or_false]
    exact writeFive_written ha hz ⟨hfive, hlen⟩ i
  else if hfew : len ≤ 8 then exact written_few ha hz hfew
  else exact written_middle ha hz (by omega) hshl

/-- A shift that the language allows for a machine. -/
def fillShift (w : BitVec 32) (n : Nat) : BitVec 32 := if n < 32 then w <<< n else BitVec.allOnes 32

theorem fillShift_defined : DefinedShift fillShift := fun _ _ h => if_pos h

/-- A value of more than 24 bits is stored once more behind the fourth octet. -/
private theorem stray_bit (ha : Aligned g) (hlen : 24 < len ∧ len ≤ 32) (h : ¬ (g.byteoffs + len ≤ 32 ∧ v.toNat % 2 ^ len = 0)) :
    ∃ i, g.bitpos + len ≤ i ∧ bitAt (writeBits g fillShift len v).bitbuf i = true := by
  have ho := ha.offs
  have heq := ha.eq
  rw [bitbuf_five hlen.1]
  if hfit : g.byteoffs + len ≤ 32 then
    obtain ⟨j, hj⟩ : ∃ j, (v.toNat % 2 ^ len).testBit j = true := Nat.exists_testBit_of_ne_zero fun hzero => h ⟨hfit, hzero⟩
    rw [Nat.testBit_mod_two_pow, Bool.and_eq_true, decide_eq_true_eq] at hj
    have hbits := placed_bits (v := v.toNat) (c := v) hfit fun j _ => (BitVec.testBit_toNat v).symm
    rw [shift_count (by omega), fillShift_defined _ _ (by omega)]
    refine ⟨8 * (g.bytepos + 4) + (g.byteoffs + len - 1 - j), by omega, ?_⟩
    rw [bitAt_orOctets (placed_beyond hbits), decide_eq_true (by omega), Bool.true_and, hbits, decide_eq_true (by omega), Bool.true_and,
      show g.byteoffs + len - 1 - (8 * (g.bytepos + 4) + (g.byteoffs + len - 1 - j) - 8 * (g.bytepos + 4)) = j by omega, hj.2,
      Bool.or_true]
  else
    have hcount : ¬ (4294967296 + 32 - (len + g.byteoffs)) % 4294967296 < 32 := by omega
    refine ⟨8 * (g.bytepos + 4) + 31, by omega, ?_⟩
    unfold fillShift
    rw [if_neg hcount, bitAt_orOctets fun j hj => BitVec.getMsbD_of_ge _ _ (by omega), decide_eq_true (by omega), Bool.true_and,
      show 8 * (g.bytepos + 4) + 31 - 8 * (g.bytepos + 4) = 31 by omega]
    exact Bool.or_true _

/-- A write is exact, whatever a shift does that the language does not define, just when the value can be stored. -/
theorem writeBits_writes_iff (ha : Aligned g) (hz : ZeroFrom g.bitbuf g.bitpos) (hlen : len ≤ 32) :
    Writes g len v.toNat (writeBits g fillShift len v) ↔ Storable g.bitpos len v := by
  refine ⟨fun h => ⟨?_, ?_⟩, writeBits_writes ha hz hlen fillShift_defined⟩
  · have hpos : (g.bitpos + len) % 65536 = g.bitpos + len := h.bitpos
    have := Nat.mod_lt (g.bitpos + len) (by omega : 0 < 65536)
    omega
  · refine Decidable.not_not.1 fun hno => ?_
    obtain ⟨hfive, hbad⟩ := not_or.1 hno
    rw [← ha.byteoffs] at hbad
    obtain ⟨i, hi, hbit⟩ := stray_bit ha ⟨by omega, hlen⟩ hbad
    rw [h.written i, if_neg (by omega), hz i (by omega)] at hbit
    cases hbit

theorem writeBits_aligned : Aligned (writeBits g shl len v) := setBitpos_aligned

/-! ### The other writers -/

theorem writeBit_writes (ha : Aligned g) (hpos : g.bitpos + 1 < 65536) (bit : Bool) : Writes g 1 bit.toNat (writeBit g bit) := by
  have ho := ha.offs
  have heq := ha.eq
  refine ⟨fun i => ?_, Nat.mod_eq_of_lt hpos⟩
  unfold writeBit
  simp only [incBitpos_bitbuf]
  rw [bitAt_setAt]
  split
  · rename_i hi
    have hold : bitAt g.bitbuf i = (g.bitbuf g.bytepos).getMsbD (i % 8) := by
      unfold bitAt
      rw [hi]
    have hone : (BitVec.twoPow 8 (7 - g.byteoffs)).getMsbD (i % 8) = decide (i = g.bitpos) := by
      rw [BitVec.getMsbD_twoPow, decide_eq_true (by omega : 7 - g.byteoffs < 8), Bool.true_and]
      exact decide_eq_decide.2 (by omega)
    have hlt : i % 8 < 8 := by omega
    cases bit with
    | true =>
      rw [if_pos rfl, BitVec.getMsbD_or, hone, ← hold]
      split
      · rw [decide_eq_true (by omega : i = g.bitpos), Bool.or_true, show g.bitpos + 1 - 1 - i = 0 by omega]
        rfl
      · rw [decide_eq_false (by omega : ¬ i = g.bitpos), Bool.or_false]
    | false =>
      rw [if_neg Bool.false_ne_true, BitVec.getMsbD_and, BitVec.getMsbD_not, hone, ← hold, decide_eq_true hlt, Bool.true_and]
      split
      · rw [decide_eq_true (by omega : i = g.bitpos), Bool.not_true, Bool.and_false]
        exact (Nat.zero_testBit _).symm
      · rw [decide_eq_false (by omega : ¬ i = g.bitpos), Bool.not_false, Bool.and_true]
  · rw [if_neg (by omega)]

theorem writeBit_aligned (bit : Bool) : Aligned (writeBit g bit) := setBitpos_aligned

private theorem bitAt_orOne {c : BitVec 8} : bitAt (orAt b k c) i = (bitAt b i || (decide (8 * k ≤ i) && c.getMsbD (i - 8 * k))) := by
  rw [bitAt_orAt]
  refine congrArg (bitAt b i || ·) ?_
  if hi : i / 8 = k then
    rw [decide_eq_true hi, decide_eq_true (by omega : 8 * k ≤ i), show i - 8 * k = i % 8 by omega]
  else
    rw [decide_eq_false hi, Bool.false_and]
    if hk : 8 * k ≤ i then rw [BitVec.getMsbD_of_ge _ _ (by omega), Bool.and_false]
    else rw [decide_eq_false hk, Bool.false_and]

theorem writeVal_bitpos (v : BitVec 32) (len : Nat) (h : len + g.byteoffs < 40) : (writeVal g v len).bitpos = (g.bitpos + len) % 65536 := by
  unfold writeVal
  simp only
  split
  · rfl
  · split
    · rfl
    · split
      · rfl
      · rfl

private theorem written_val (ha : Aligned g) (hz : ZeroFrom g.bitbuf g.bitpos) (hlen : len + g.byteoffs ≤ 32) :
    Written g.bitbuf (writeVal g v len).bitbuf g.bitpos len v.toNat := by
  rw [← ha.eq] at hz ⊢
  unfold writeVal
  simp only
  have hlow : ∀ m, len ≤ m → ∀ j, j < len → (v.setWidth m).getLsbD j = v.toNat.testBit j := by
    intro m hm j hj
    rw [BitVec.getLsbD_setWidth, decide_eq_true (by omega : j < m), Bool.true_and, BitVec.testBit_toNat]
  split
  · exact written_placed hz (placed_bits (by omega) (hlow 8 (by omega))) fun i => bitAt_orOne
  · split
    · have hbits := placed_bits (v := v.toNat) (o := g.byteoffs) (by omega) (hlow 16 (by omega))
      have hwritten := fun i => bitAt_orTwo (b := g.bitbuf) (k := g.bytepos) (i := i) (placed_beyond hbits)
      simp only [if_pos (by omega : len + g.byteoffs > 8)] at hwritten
      exact written_placed hz hbits hwritten
    · have hfit : g.byteoffs + len ≤ 32 := by omega
      have hbits := placed_bits (v := v.toNat) (c := v) hfit fun j _ => (BitVec.testBit_toNat v).symm
      exact written_placed hz hbits fun i => bitAt_orOctets (placed_beyond hbits)

/-- `bf_writeVal` is exact for values that do not reach a fifth octet. -/
theorem writeVal_writes (ha : Aligned g) (hz : ZeroFrom g.bitbuf g.bitpos) (v : BitVec 32) (len : Nat) (hlen : len + g.byteoffs ≤ 32)
    (hpos : g.bitpos + len < 65536) : Writes g len v.toNat (writeVal g v len) := by
  refine ⟨written_val ha hz hlen, ?_⟩
  rw [writeVal_bitpos v len (by omega), Nat.mod_eq_of_lt hpos]

/-- `bf_codeByteNumber` is exact for a value of the given number of bits. -/
theorem codeByteNumber_writes (ha : Aligned g) (hz : ZeroFrom g.bitbuf g.bitpos) (len : Nat) (x : BitVec 8) (hlen : len ≤ 8)
    (hx : x.toNat < 2 ^ len) (hpos : g.bitpos + len < 65536) : Writes g len x.toNat (codeByteNumber g len x) := by
  have ho := ha.offs
  refine ⟨?_, Nat.mod_eq_of_lt hpos⟩
  rw [← ha.eq] at hz ⊢
  have hlow : ∀ j, j < len → (x.setWidth 16 : BitVec 16).getLsbD j = x.toNat.testBit j := by
    intro j hj
    rw [BitVec.getLsbD_setWidth, decide_eq_true (by omega : j < 16), Bool.true_and, BitVec.testBit_toNat]
  have hmask : (x.setWidth 16 : BitVec 16) &&& mask 16 len = x.setWidth 16 := by
    refine BitVec.eq_of_getLsbD_eq fun j hj => ?_
    rw [BitVec.getLsbD_and, getLsbD_mask, decide_eq_true hj, Bool.true_and]
    if hjl : j < len then rw [decide_eq_true hjl, Bool.and_true]
    else
      rw [BitVec.getLsbD_setWidth, ← BitVec.testBit_toNat,
        Nat.testBit_lt_two_pow (Nat.lt_of_lt_of_le hx (Nat.pow_le_pow_right (by omega) (by omega))), Bool.and_false, Bool.false_and]
  have hbits := placed_bits (v := x.toNat) (o := g.byteoffs) (by omega) hlow
  rw [hmask] at hbits
  have hwritten := fun i => bitAt_orTwo (b := g.bitbuf) (k := g.bytepos) (i := i) (placed_beyond hbits)
  unfold codeByteNumber
  simp only [incBitpos_bitbuf]
  rw [Nat.sub_sub, Nat.add_comm g.byteoffs len]
  exact written_placed hz hbits hwritten

theorem codeByteNumber_aligned {x : BitVec 8} : Aligned (codeByteNumber g len x) := setBitpos_aligned

theorem writeVal_aligned (v : BitVec 32) (len : Nat) (h : len + g.byteoffs < 40) : Aligned (writeVal g v len) := by
  unfold writeVal
  simp only
  split
  · exact setBitpos_aligned
  · split
    · exact setBitpos_aligned
    · split
      · exact setBitpos_aligned
      · exact setBitpos_aligned

end

/-! ### Sequences -/

/-- A value with the number of its bits. -/
structure Item where
  len : Nat
  value : BitVec 32
  pos : 0 < len
  le : len ≤ 32

/-- The values are written one after the other. -/
def writeItems (shl : BitVec 32 → Nat → BitVec 32) (g : Globs) : List Item → Globs
  | [] => g
  | x :: xs => writeItems shl (writeBits g shl x.len x.value) xs

/-- Values of the same lengths are read. -/
def readItems (g : Globs) : List Item → List Nat
  | [] => []
  | x :: xs => (readBits g x.len).1 :: readItems (readBits g x.len).2 xs

/-- Every write of the sequence is exact. -/
def ItemsWritten (shl : BitVec 32 → Nat → BitVec 32) (g : Globs) : List Item → Prop
  | [] => True
  | x :: xs => Writes g x.len x.value.toNat (writeBits g shl x.len x.value) ∧ ItemsWritten shl (writeBits g shl x.len x.value) xs

/-- Every value of the sequence can be stored where it comes to. -/
def ItemsStorable (p : Nat) : List Item → Prop
  | [] => True
  | x :: xs => Storable p x.len x.value ∧ ItemsStorable (p + x.len) xs

section
variable {g r : Globs} {shl : BitVec 32 → Nat → BitVec 32} {xs : List Item}

theorem Writes.zeroFrom {g' : Globs} {len v : Nat} (h : Writes g len v g') (hz : ZeroFrom g.bitbuf g.bitpos) :
    ZeroFrom g'.bitbuf g'.bitpos := by
  rw [h.bitpos]
  exact h.written.zeroFrom hz

theorem items_written (ha : Aligned g) (hz : ZeroFrom g.bitbuf g.bitpos) (hshl : DefinedShift shl)
    (h : ItemsStorable g.bitpos xs) : ItemsWritten shl g xs := by
  induction xs generalizing g with
  | nil => exact trivial
  | cons x xs ih =>
    have hx := writeBits_writes ha hz x.le hshl h.1
    refine ⟨hx, ih writeBits_aligned (hx.zeroFrom hz) ?_⟩
    rw [hx.bitpos]
    exact h.2

private theorem items_storable (ha : Aligned g) (hz : ZeroFrom g.bitbuf g.bitpos) (h : ItemsWritten fillShift g xs) :
    ItemsStorable g.bitpos xs := by
  induction xs generalizing g with
  | nil => exact trivial
  | cons x xs ih =>
    refine ⟨(writeBits_writes_iff ha hz x.le).1 h.1, ?_⟩
    rw [← h.1.bitpos]
    exact ih writeBits_aligned (h.1.zeroFrom hz) h.2

/-- What has been written before a sequence stays. -/
private theorem items_before (h : ItemsWritten shl g xs) {i : Nat} (hi : i < g.bitpos) :
    bitAt (writeItems shl g xs).bitbuf i = bitAt g.bitbuf i := by
  induction xs generalizing g with
  | nil => rfl
  | cons x xs ih =>
    have hpos := h.1.bitpos
    unfold writeItems
    rw [ih h.2 (by omega), h.1.written i, if_neg (by omega)]

/-- What exact writes have written is read back. -/
private theorem read_back (hz : ZeroFrom g.bitbuf g.bitpos) (h : ItemsWritten shl g xs) (hst : ItemsStorable g.bitpos xs)
    (hr : At r (writeItems shl g xs).bitbuf g.bitpos) : readItems r xs = xs.map fun x => x.value.toNat % 2 ^ x.len := by
  induction xs generalizing g r with
  | nil => rfl
  | cons x xs ih =>
    obtain ⟨hvalue, hnext⟩ := hr.readBits x.le hst.1.1
    have hfield : (readBits r x.len).1 = x.value.toNat % 2 ^ x.len := by
      rw [hvalue, ← h.1.written.field]
      exact field_congr fun i hi => items_before h.2 (by rw [h.1.bitpos]; omega)
    rw [← h.1.bitpos] at hnext
    unfold readItems
    rw [hfield, List.map_cons]
    refine congrArg _ (ih (h.1.zeroFrom hz) h.2 ?_ hnext)
    rw [h.1.bitpos]
    exact hst.2

/-- Every write of a sequence is exact and the values are read back, whatever a shift does that the language does not define,
just when each value can be stored where it comes to. -/
theorem sequence_exact_iff (ha : Aligned g) (hz : ZeroFrom g.bitbuf g.bitpos) (xs : List Item) :
    (∀ shl, DefinedShift shl → ItemsWritten shl g xs ∧
      readItems (commonDecodeInit (writeItems shl g xs).bitbuf g.bitpos) xs = xs.map fun x => x.value.toNat % 2 ^ x.len) ↔
      ItemsStorable g.bitpos xs := by
  constructor
  · intro h
    exact items_storable ha hz (h fillShift fillShift_defined).1
  · intro h shl hshl
    have hwritten := items_written ha hz hshl h
    exact ⟨hwritten, read_back hz hwritten h (commonDecodeInit_at ha.bitpos)⟩

/-- An empty message. -/
def blank (p : Nat) : Globs := setBitpos p ⟨fun _ => 0, 0, 0, 0, 0xffff, 0xffff, 0, 0, false⟩

theorem blank_zero {p : Nat} : ZeroFrom (blank p).bitbuf (blank p).bitpos := by
  intro i _
  change (0#8).getMsbD (i % 8) = false
  exact BitVec.getMsbD_zero

/-- Values of 24 and of 3 bits. -/
def someItems : List Item := [⟨24, 0xabcdef, by decide, by decide⟩, ⟨3, 5, by decide, by decide⟩]

/-- They are written from the third bit on and read back. -/
theorem some_written : ItemsWritten (· <<< ·) (blank 3) someItems ∧
    readItems (commonDecodeInit (writeItems (· <<< ·) (blank 3) someItems).bitbuf (blank 3).bitpos) someItems = [0xabcdef, 5] :=
  (sequence_exact_iff setBitpos_aligned blank_zero someItems).2 ⟨⟨by decide, by decide⟩, ⟨⟨by decide, by decide⟩, trivial⟩⟩
    (· <<< ·) fun _ _ _ => rfl

/-- A value of 32 bits changes the bits behind it. -/
theorem long_written_twice : ¬ Writes (blank 0) 32 1 (writeBits (blank 0) (· <<< ·) 32 1) := by
  intro h
  have hbit := h.written 63
  revert hbit
  decide +kernel

end

end Citrine.Bf
