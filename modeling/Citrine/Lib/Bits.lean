import Mathlib.Algebra.Group.Nat.Defs

/-!
# Bits of a buffer of octets

A buffer of octets is read bit by bit, beginning with the most significant bit of each octet (`bitAt`).  `field` is the
unsigned value of some consecutive bits; a word can hold a part of the buffer (`Holds`), so that a field inside of it comes
out by a shift and a mask (`Holds.value`).  Words are stored by an or-operation (`orWord`).
-/

namespace Citrine.Bits

/-- A buffer, with whatever lies behind its end. -/
abbrev Octets := Nat → BitVec 8

/-- A bit of a buffer. -/
def bitAt (b : Octets) (i : Nat) : Bool := (b (i / 8)).getMsbD (i % 8)

/-- The value of some bits from a position on. -/
def field (b : Octets) (p : Nat) : Nat → Nat
  | 0 => 0
  | n + 1 => 2 * field b p n + (bitAt b (p + n)).toNat

section
variable {b c : Octets} {p q n m k i j : Nat}

theorem field_succ : field b p (n + 1) = 2 * field b p n + (bitAt b (p + n)).toNat := rfl

theorem field_lt : field b p n < 2 ^ n := by
  induction n with
  | zero => exact Nat.one_pos
  | succ n ih =>
    rw [field_succ, Nat.pow_succ]
    have := Bool.toNat_lt (bitAt b (p + n))
    omega

/-- A field depends on its bits only. -/
theorem field_congr (h : ∀ i, i < n → bitAt b (p + i) = bitAt c (q + i)) : field b p n = field c q n := by
  induction n with
  | zero => rfl
  | succ n ih => rw [field_succ, field_succ, ih fun i hi => h i (by omega), h n (by omega)]

/-- Two fields side by side. -/
theorem field_add : field b p (m + n) = field b p m * 2 ^ n + field b (p + m) n := by
  induction n with
  | zero => rw [Nat.add_zero, Nat.pow_zero, Nat.mul_one]; rfl
  | succ n ih =>
    rw [← Nat.add_assoc, field_succ, field_succ, ih, Nat.pow_succ, Nat.mul_add, ← Nat.add_assoc p, ← Nat.mul_assoc (_ : Nat) (2 ^ n),
      Nat.mul_comm 2 (_ * _), Nat.add_assoc]

theorem testBit_field : (field b p n).testBit j = (decide (j < n) && bitAt b (p + (n - 1 - j))) := by
  induction n generalizing j with
  | zero => simp [field]
  | succ n ih =>
    rw [field_succ]
    cases j with
    | zero =>
      rw [Nat.testBit_zero]
      cases hb : bitAt b (p + n)
      · simp [hb]
      · simp [hb]
    | succ j =>
      have hhalf : (2 * field b p n + (bitAt b (p + n)).toNat) / 2 = field b p n := by
        have := Bool.toNat_lt (bitAt b (p + n))
        omega
      rw [Nat.testBit_succ, hhalf, ih, show n + 1 - 1 - (j + 1) = n - 1 - j by omega]
      simp only [Nat.succ_lt_succ_iff]

/-- A number is the value of a field when its bits are those of the buffer. -/
theorem eq_field {v : Nat} (hv : v < 2 ^ n) (h : ∀ i, i < n → v.testBit (n - 1 - i) = bitAt b (p + i)) : v = field b p n := by
  refine Nat.eq_of_testBit_eq fun j => ?_
  rw [testBit_field]
  if hj : j < n then
    rw [decide_eq_true hj, Bool.true_and, ← h (n - 1 - j) (by omega), show n - 1 - (n - 1 - j) = j by omega]
  else
    rw [decide_eq_false hj, Bool.false_and]
    exact Nat.testBit_lt_two_pow (Nat.lt_of_lt_of_le hv (Nat.pow_le_pow_right (by omega) (by omega)))

/-! ### Words -/

/-- A word has the bits of the buffer from a position on. -/
def Holds (w : BitVec m) (b : Octets) (p : Nat) : Prop := ∀ i, i < m → w.getMsbD i = bitAt b (p + i)

theorem holds_octet (b : Octets) (k : Nat) : Holds (b k) b (8 * k) := by
  intro i hi
  unfold bitAt
  rw [show (8 * k + i) / 8 = k by omega, show (8 * k + i) % 8 = i by omega]

theorem Holds.append {x : BitVec m} {y : BitVec n} (hx : Holds x b p) (hy : Holds y b (p + m)) : Holds (x ++ y) b p := by
  intro i hi
  rw [BitVec.getMsbD_append]
  split
  · rename_i him
    rw [hy _ (by omega), show p + m + (i - m) = p + i by omega]
  · exact hx i (by omega)

/-- The lower bits of a word as a mask. -/
def mask (m n : Nat) : BitVec m := BitVec.ofNat m (2 ^ n - 1)

theorem getLsbD_mask : (mask m n).getLsbD i = (decide (i < m) && decide (i < n)) := by
  unfold mask
  rw [BitVec.getLsbD_ofNat, Nat.testBit_two_pow_sub_one]

theorem getMsbD_mask (hn : n ≤ m) : (mask m n).getMsbD i = (decide (i < m) && decide (m - n ≤ i)) := by
  rw [BitVec.getMsbD_eq_getLsbD, getLsbD_mask]
  if hi : i < m then
    rw [decide_eq_true hi, decide_eq_true (by omega : m - 1 - i < m), Bool.true_and, Bool.true_and, Bool.true_and]
    exact decide_eq_decide.2 (by omega)
  else rw [decide_eq_false hi, Bool.false_and, Bool.false_and]

/-- A field inside of a word is shifted down and masked. -/
theorem Holds.value {w : BitVec m} {o : Nat} (h : Holds w b p) (ho : o + n ≤ m) :
    ((w >>> (m - (o + n))) &&& mask m n).toNat = field b (p + o) n := by
  have hlt : ((w >>> (m - (o + n))) &&& mask m n).toNat < 2 ^ n := by
    refine Nat.lt_pow_two_of_testBit _ fun i hi => ?_
    rw [BitVec.testBit_toNat, BitVec.getLsbD_and, getLsbD_mask]
    simp only [show ¬ i < n by omega, decide_false, Bool.and_false]
  refine eq_field hlt fun i hi => ?_
  rw [BitVec.testBit_toNat, BitVec.getLsbD_and, getLsbD_mask, BitVec.getLsbD_ushiftRight, decide_eq_true (by omega : _ < m),
    decide_eq_true (by omega : _ < n), Bool.and_true, Bool.and_true, show p + o + i = p + (o + i) by omega,
    ← h (o + i) (by omega), BitVec.getMsbD_eq_getLsbD, decide_eq_true (by omega : o + i < m), Bool.true_and]
  congr 1
  omega

theorem Holds.first {w : BitVec m} (h : Holds w b p) (hn : n ≤ m) : ((w >>> (m - n)) &&& mask m n).toNat = field b p n := by
  have hv := h.value (o := 0) (n := n) (by omega)
  rwa [Nat.zero_add, Nat.add_zero] at hv

/-- A bit of an octet that is masked out. -/
theorem and_twoPow_ne {x : BitVec 8} (hi : i < 8) : x &&& BitVec.twoPow 8 (7 - i) ≠ 0 ↔ x.getMsbD i = true := by
  rw [BitVec.and_twoPow, BitVec.getMsbD_eq_getLsbD, decide_eq_true hi, Bool.true_and]
  split
  · rename_i hx
    refine ⟨fun _ => hx, fun _ h => ?_⟩
    have htwo := congrArg BitVec.toNat h
    rw [BitVec.toNat_twoPow_of_lt (by omega)] at htwo
    exact absurd htwo (Nat.ne_of_gt (Nat.two_pow_pos _))
  · rename_i hx
    exact ⟨fun h => absurd rfl h, fun h => absurd h hx⟩

/-! ### Storing -/

/-- An octet of a word, the most significant one first. -/
def octet (w : BitVec m) (j : Nat) : BitVec 8 := w.extractLsb' (m - 8 * (j + 1)) 8

/-- An octet of the buffer is changed by an or-operation. -/
def orAt (b : Octets) (k : Nat) (x : BitVec 8) : Octets := fun i => if i = k then b i ||| x else b i

/-- An octet of the buffer is replaced. -/
def setAt (b : Octets) (k : Nat) (x : BitVec 8) : Octets := fun i => if i = k then x else b i

theorem getMsbD_octet {w : BitVec m} (hj : 8 * (j + 1) ≤ m) (hi : i < 8) : (octet w j).getMsbD i = w.getMsbD (8 * j + i) := by
  unfold octet
  rw [BitVec.getMsbD_eq_getLsbD, BitVec.getLsbD_extractLsb', BitVec.getMsbD_eq_getLsbD, decide_eq_true hi,
    decide_eq_true (by omega : 8 - 1 - i < 8), decide_eq_true (by omega : 8 * j + i < m), Bool.true_and, Bool.true_and,
    Bool.true_and]
  congr 1
  omega

theorem bitAt_orAt {x : BitVec 8} : bitAt (orAt b k x) i = (bitAt b i || (decide (i / 8 = k) && x.getMsbD (i % 8))) := by
  unfold bitAt orAt
  split
  · rename_i h
    rw [BitVec.getMsbD_or, decide_eq_true h, Bool.true_and]
  · rename_i h
    rw [decide_eq_false h, Bool.false_and, Bool.or_false]

theorem bitAt_setAt {x : BitVec 8} : bitAt (setAt b k x) i = if i / 8 = k then x.getMsbD (i % 8) else bitAt b i := by
  unfold bitAt setAt
  split <;> rfl

/-- A number that is masked and shifted to an offset. -/
theorem getMsbD_placed {c : BitVec m} {o : Nat} (h : o + n ≤ m) :
    ((c &&& mask m n) <<< (m - (o + n))).getMsbD j = (decide (o ≤ j ∧ j < o + n) && c.getLsbD (o + n - 1 - j)) := by
  rw [BitVec.getMsbD_shiftLeft, BitVec.getMsbD_and, getMsbD_mask (by omega), BitVec.getMsbD_eq_getLsbD]
  if hj : j < o + n then
    rw [decide_eq_true (by omega : j + (m - (o + n)) < m), Bool.true_and, Bool.true_and,
      show m - 1 - (j + (m - (o + n))) = o + n - 1 - j by omega, Bool.and_comm]
    exact congrArg (· && _) (decide_eq_decide.2 (by omega))
  else
    rw [decide_eq_false (by omega : ¬ j + (m - (o + n)) < m), decide_eq_false (by omega : ¬ (o ≤ j ∧ j < o + n)), Bool.false_and,
      Bool.false_and, Bool.false_and]

theorem bitAt_orAt_octet {w : BitVec m} (hj : 8 * (j + 1) ≤ m) :
    bitAt (orAt b (k + j) (octet w j)) i = (bitAt b i || (decide (i / 8 = k + j) && w.getMsbD (i - 8 * k))) := by
  rw [bitAt_orAt]
  if h : i / 8 = k + j then
    rw [getMsbD_octet hj (by omega), show 8 * j + i % 8 = i - 8 * k by omega]
  else rw [decide_eq_false h, Bool.false_and, Bool.false_and]

theorem bitAt_setAt_octet {w : BitVec m} (hj : 8 * (j + 1) ≤ m) :
    bitAt (setAt b (k + j) (octet w j)) i = if i / 8 = k + j then w.getMsbD (i - 8 * k) else bitAt b i := by
  rw [bitAt_setAt]
  split
  · rw [getMsbD_octet hj (by omega), show 8 * j + i % 8 = i - 8 * k by omega]
  · rfl

/-- Some bits get the value of a number, and all other bits stay as they are. -/
def Written (b b' : Octets) (p n v : Nat) : Prop :=
  ∀ i, bitAt b' i = if p ≤ i ∧ i < p + n then v.testBit (p + n - 1 - i) else bitAt b i

/-- The bits from a position on are zero. -/
def ZeroFrom (b : Octets) (p : Nat) : Prop := ∀ i, p ≤ i → bitAt b i = false

/-- Bits that were zero are written by an or-operation with a number. -/
theorem Written.of_or {v : Nat} {b' : Octets} (hz : ZeroFrom b p)
    (h : ∀ i, bitAt b' i = (bitAt b i || (decide (p ≤ i ∧ i < p + n) && v.testBit (p + n - 1 - i)))) : Written b b' p n v := by
  intro i
  rw [h i]
  split
  · rename_i hi
    rw [hz i hi.1, decide_eq_true hi, Bool.true_and, Bool.false_or]
  · rename_i hi
    rw [decide_eq_false hi, Bool.false_and, Bool.or_false]

theorem Written.field {v : Nat} {b' : Octets} (h : Written b b' p n v) : field b' p n = v % 2 ^ n := by
  refine (eq_field (Nat.mod_lt _ (Nat.two_pow_pos n)) fun i hi => ?_).symm
  rw [h (p + i), if_pos (by omega), Nat.testBit_mod_two_pow, decide_eq_true (by omega), Bool.true_and,
    show p + n - 1 - (p + i) = n - 1 - i by omega]

theorem Written.zeroFrom {v : Nat} {b' : Octets} (h : Written b b' p n v) (hz : ZeroFrom b p) : ZeroFrom b' (p + n) := by
  intro i hi
  rw [h i, if_neg (by omega)]
  exact hz i (by omega)

/-- What is written later does not change an earlier field. -/
theorem Written.before {v : Nat} {b' : Octets} (h : Written b b' p n v) (hq : q + m ≤ p) : Bits.field b' q m = Bits.field b q m := by
  refine field_congr fun i hi => ?_
  rw [h (q + i), if_neg (by omega)]

end

end Citrine.Bits
