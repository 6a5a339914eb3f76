import Citrine.Bf.Reading

/-!
# Chunks of bits

A chunk of bits is copied from the bit buffer into the C-structure, together with its length and its offset
(`bf_readBitChunk`), and from there into another bit buffer (`bf_writeBitChunk`), where the octets are shifted if the offsets
differ.  A shifted chunk takes at least two octets of the buffer, also if its bits fit in one; then the eight bits behind the
chunk are copied, too (`chunk_copied_iff`).
-/

namespace Citrine.Bf

open Bits

/-- The bit buffer and the C-structure. -/
structure Coder where
  bits : Globs
  pstruct : Octets
  pstructOffs : Nat

/-- `memcpy` -/
def copy (b : Octets) (k : Nat) (c : Octets) (j n : Nat) : Octets := fun i => if k ≤ i ∧ i < k + n then c (j + (i - k)) else b i

/-- A `USHORT` of the C-structure. -/
def short (m : Octets) (k : Nat) : Nat := (m k).toNat + 256 * (m (k + 1)).toNat

/-- A `USHORT` of the C-structure is set. -/
def putShort (m : Octets) (k v : Nat) : Octets := setAt (setAt m k (BitVec.ofNat 8 v)) (k + 1) (BitVec.ofNat 8 (v / 256))

/-- The first bits of an octet stay. -/
def cutOff (b : Octets) (k rest : Nat) : Octets := if rest ≠ 0 then setAt b k (b k &&& ~~~mask 8 (8 - rest)) else b

/-- `bytesToCopy` of `bf_readBitChunk` -/
def octetsRead (byteOffs len : Nat) : Nat := len / 8 + (if len % 8 ≠ 0 then 1 else 0) + if byteOffs ≠ 0 then 1 else 0

/-- `bf_readBitChunk` -/
def readBitChunk (len : Nat) (c : Coder) : Coder :=
  let byteOffs := c.bits.byteoffs
  let m := putShort (putShort c.pstruct c.pstructOffs len) (c.pstructOffs + 2) byteOffs
  let k := c.pstructOffs + 4
  let bytesToCopy := octetsRead byteOffs len
  let m := copy m k c.bits.bitbuf c.bits.bytepos bytesToCopy
  let m := setAt m k (m k &&& mask 8 (8 - byteOffs))
  { c with pstruct := cutOff m (k + bytesToCopy - 1) ((len + byteOffs) % 8), bits := incBitpos len c.bits }

/-- The loop over the octets: two octets of the C-structure are shifted and stored in two octets of the buffer, the first one by
an or-operation. -/
def shiftOctets (shift : BitVec 16 → BitVec 16) (m : Octets) : Nat → Nat → Nat → Octets → Octets
  | 0, _, _, b => b
  | n + 1, s, d, b =>
    let conv := shift (m s ++ m (s + 1))
    shiftOctets shift m n (s + 1) (d + 1) (setAt (orAt b d (octet conv 0)) (d + 1) (octet conv 1))

/-- `bf_writeBitChunk` -/
def writeBitChunk (len : Nat) (c : Coder) : Coder :=
  let len := min len (short c.pstruct c.pstructOffs)
  if len = 0 then c
  else
    let byteOffs := c.bits.byteoffs
    let bytesToCopy := (len + byteOffs + 7) / 8
    let offs := short c.pstruct (c.pstructOffs + 2)
    let theShift := (BitVec.ofInt 8 ((offs : Int) - byteOffs)).toInt
    let s := c.pstructOffs + 4 + offs / 8
    let d := c.bits.bytepos
    let first := c.pstruct s &&& mask 8 (8 - offs % 8)
    if theShift.natAbs % 8 = 0 then
      let b := copy (orAt c.bits.bitbuf d first) (d + 1) c.pstruct (s + 1) (bytesToCopy - 1)
      { c with
        bits := incBitpos len { c.bits with bitbuf := cutOff b (d + bytesToCopy - 1) ((byteOffs + len) % 8) }
        pstructOffs := s - 1 }
    else
      -- the first octet is masked, the following ones go through the loop, and the last one is only or-ed
      let n := (if bytesToCopy > 1 then bytesToCopy - 1 else bytesToCopy) - 1
      let shift : BitVec 16 → BitVec 16 :=
        if theShift > 0 then (· <<< (theShift.natAbs % 8)) else (· >>> (theShift.natAbs % 8))
      let conv := shift (first ++ c.pstruct (s + 1))
      let b := setAt (orAt c.bits.bitbuf d (octet conv 0)) (d + 1) (octet conv 1)
      let b := shiftOctets shift c.pstruct n (s + 1) (d + 1) b
      let conv := shift (c.pstruct (s + 1 + n) ++ c.pstruct (s + 2 + n))
      let b := orAt b (d + 1 + n) (octet conv 0)
      { c with
        bits := incBitpos len { c.bits with bitbuf := cutOff b (d + 1 + n) ((byteOffs + len) % 8) }
        pstructOffs := s + 1 + n }

/-- The bits have been copied to the position, the bits before are as they were, and the bits behind are zero. -/
structure Copied (b : Octets) (p l : Nat) (w w' : Globs) : Prop where
  bits : ∀ j, j < l → bitAt w'.bitbuf (w.bitpos + j) = bitAt b (p + j)
  before : ∀ i, i < w.bitpos → bitAt w'.bitbuf i = bitAt w.bitbuf i
  behind : ∀ i, w.bitpos + l ≤ i → bitAt w'.bitbuf i = false
  bitpos : w'.bitpos = w.bitpos + l

/-- The eight bits behind a chunk of the C-structure are zero: they come from the message if the chunk has an offset and ends in its
first octet, and otherwise, behind the last octet of the chunk, from what the C-structure had before. -/
def QuietBehind (c : Coder) (l : Nat) : Prop :=
  if c.bits.byteoffs ≠ 0 ∧ c.bits.byteoffs + l ≤ 8 then ∀ j, j < 8 → bitAt c.bits.bitbuf (c.bits.bitpos + l + j) = false
  else ∀ i, 8 * ((c.bits.byteoffs + l + 7) / 8) ≤ i → i < c.bits.byteoffs + l + 8 →
    bitAt c.pstruct (8 * (c.pstructOffs + 4) + i) = false

/-! ### Bits of octets -/

section
variable {b c m : Octets} {d i j k n s : Nat}

private theorem bitAt_copy : bitAt (copy b k c j n) i = if k ≤ i / 8 ∧ i / 8 < k + n then bitAt c (8 * j + (i - 8 * k)) else bitAt b i := by
  unfold bitAt copy
  split
  · rw [show (8 * j + (i - 8 * k)) / 8 = j + (i / 8 - k) by omega, show (8 * j + (i - 8 * k)) % 8 = i % 8 by omega]
  · rfl

private theorem bitAt_cutOff {rest : Nat} (hr : rest < 8) :
    bitAt (cutOff b k rest) i = (bitAt b i && decide (rest = 0 ∨ i / 8 ≠ k ∨ i % 8 < rest)) := by
  unfold cutOff
  split
  · rename_i hrest
    rw [bitAt_setAt]
    split
    · rename_i hk
      rw [BitVec.getMsbD_and, BitVec.getMsbD_not, getMsbD_mask (by omega), decide_eq_true (show i % 8 < 8 by omega), Bool.true_and,
        Bool.true_and, ← hk, ← decide_not]
      exact congrArg (_ && ·) (decide_eq_decide.2 (by omega))
    · rename_i hk
      rw [decide_eq_true (Or.inr (Or.inl hk)), Bool.and_true]
  · rename_i hrest
    rw [decide_eq_true (.inl (Decidable.not_not.1 hrest)), Bool.and_true]

private theorem bitAt_pair (hi : i < 16) : (m s ++ m (s + 1)).getMsbD i = bitAt m (8 * s + i) := by
  have hsecond : Holds (m (s + 1)) m (8 * s + 8) := holds_octet m (s + 1)
  exact (holds_octet m s).append hsecond i hi

/-! ### Shifting -/

/-- A bit at the offset `a` comes to the offset `o`. -/
def Moves (shift : BitVec 16 → BitVec 16) (a o : Nat) : Prop :=
  ∀ w i, i < 16 → (shift w).getMsbD i = (decide (o ≤ i + a) && w.getMsbD (i + a - o))

variable {a o : Nat} {shift : BitVec 16 → BitVec 16} {b₀ : Octets}

private theorem moves_left (h : o ≤ a) : Moves (· <<< (a - o)) a o := by
  intro w i _
  rw [BitVec.getMsbD_shiftLeft, decide_eq_true (by omega), Bool.true_and, show i + (a - o) = i + a - o by omega]

private theorem moves_right (h : a ≤ o) : Moves (· >>> (o - a)) a o := by
  intro w i hi
  rw [BitVec.getMsbD_ushiftRight, decide_eq_true hi, Bool.true_and]
  if h' : i < o - a then rw [decide_eq_true h', decide_eq_false (by omega : ¬ o ≤ i + a), Bool.false_and, Bool.not_true, Bool.false_and]
  else
    rw [decide_eq_false h', decide_eq_true (by omega : o ≤ i + a), Bool.true_and, Bool.not_false, Bool.true_and,
      show i - (o - a) = i + a - o by omega]

/-- The octets at `s` have been moved into `n` octets of the buffer, as far as whole octets have been read. -/
def Moved (m : Octets) (s a o d n : Nat) (b₀ b : Octets) : Prop :=
  ∀ i, bitAt b i = if i < 8 * d + o then bitAt b₀ i
    else decide (i < 8 * (d + n) ∧ i + a < 8 * (d + n) + o) && bitAt m (8 * s + (i + a - (8 * d + o)))

private theorem moved_first (hs : Moves shift a o) (ha : a < 8) (ho : o < 8) (hz : ZeroFrom b₀ (8 * d + o)) :
    Moved m s a o d 2 b₀
      (setAt (orAt b₀ d (octet (shift ((m s &&& mask 8 (8 - a)) ++ m (s + 1))) 0)) (d + 1)
        (octet (shift ((m s &&& mask 8 (8 - a)) ++ m (s + 1))) 1)) := by
  have hpair : ∀ i, i < 16 → ((m s &&& mask 8 (8 - a)) ++ m (s + 1)).getMsbD i = (decide (a ≤ i) && bitAt m (8 * s + i)) := by
    intro i hi
    rw [← bitAt_pair hi, BitVec.getMsbD_append, BitVec.getMsbD_append, BitVec.getMsbD_and, getMsbD_mask (by omega)]
    split
    · rw [decide_eq_true (by omega), Bool.true_and]
    · rw [decide_eq_true (by omega : i < 8), Bool.true_and, Bool.and_comm, show 8 - (8 - a) = a by omega]
  generalize (m s &&& mask 8 (8 - a)) ++ m (s + 1) = w at hpair ⊢
  intro i
  have hor : bitAt (orAt b₀ d (octet (shift w) 0)) i = (bitAt b₀ i || (decide (i / 8 = d) && (shift w).getMsbD (i - 8 * d))) :=
    bitAt_orAt_octet (j := 0) (by omega)
  rw [bitAt_setAt_octet (by omega), hor]
  if hbefore : i < 8 * d + o then
    rw [if_pos hbefore, if_neg (by omega)]
    if hd : i / 8 = d then
      rw [decide_eq_true hd, Bool.true_and, hs w _ (by omega)]
      if hi : o ≤ i - 8 * d + a then
        rw [hpair _ (by omega), decide_eq_false (by omega : ¬ a ≤ i - 8 * d + a - o), Bool.false_and, Bool.and_false, Bool.or_false]
      else rw [decide_eq_false hi, Bool.false_and, Bool.or_false]
    else rw [decide_eq_false hd, Bool.false_and, Bool.or_false]
  else
    rw [if_neg hbefore, hz i (by omega), Bool.false_or]
    if hin : i < 8 * (d + 2) then
      rw [hs w _ (by omega), decide_eq_true (by omega : o ≤ i - 8 * d + a), Bool.true_and]
      have hword : w.getMsbD (i - 8 * d + a - o) =
          (decide (i < 8 * (d + 2) ∧ i + a < 8 * (d + 2) + o) && bitAt m (8 * s + (i + a - (8 * d + o)))) := by
        if hfar : i + a < 8 * (d + 2) + o then
          rw [hpair _ (by omega), decide_eq_true (by omega : a ≤ i - 8 * d + a - o), decide_eq_true ⟨hin, hfar⟩,
            show i - 8 * d + a - o = i + a - (8 * d + o) by omega]
        else
          rw [decide_eq_false (fun hno => hfar hno.2), Bool.false_and]
          exact BitVec.getMsbD_of_ge _ _ (by omega)
      rw [hword]
      split
      · rfl
      · rw [decide_eq_true (by omega : i / 8 = d), Bool.true_and]
    else
      rw [if_neg (by omega), decide_eq_false (by omega : ¬ i / 8 = d), Bool.false_and, decide_eq_false (fun hno => hin hno.1),
        Bool.false_and]

private theorem moved_next (hs : Moves shift a o) (ha : a < 8) (ho : o < 8) (hn : 1 ≤ n) (h : Moved m s a o d (n + 1) b₀ b) :
    Moved m s a o d (n + 2) b₀
      (setAt (orAt b (d + n) (octet (shift (m (s + n) ++ m (s + n + 1))) 0)) (d + n + 1)
        (octet (shift (m (s + n) ++ m (s + n + 1))) 1)) := by
  have hpair : ∀ i, i < 16 → (m (s + n) ++ m (s + n + 1)).getMsbD i = bitAt m (8 * (s + n) + i) := fun i hi => bitAt_pair hi
  generalize m (s + n) ++ m (s + n + 1) = w at hpair ⊢
  intro i
  have hor : bitAt (orAt b (d + n) (octet (shift w) 0)) i =
      (bitAt b i || (decide (i / 8 = d + n) && (shift w).getMsbD (i - 8 * (d + n)))) := bitAt_orAt_octet (j := 0) (by omega)
  rw [bitAt_setAt_octet (by omega), hor, h i]
  if hbefore : i < 8 * d + o then
    rw [if_pos hbefore, if_pos hbefore, if_neg (by omega), decide_eq_false (by omega : ¬ i / 8 = d + n), Bool.false_and, Bool.or_false]
  else
    rw [if_neg hbefore, if_neg hbefore]
    if hlast : i / 8 = d + n + 1 then
      rw [if_pos hlast, hs w _ (by omega), decide_eq_true (by omega : o ≤ i - 8 * (d + n) + a), Bool.true_and]
      if hfar : i + a < 8 * (d + (n + 2)) + o then
        rw [hpair _ (by omega), decide_eq_true ⟨by omega, hfar⟩, Bool.true_and,
          show 8 * (s + n) + (i - 8 * (d + n) + a - o) = 8 * s + (i + a - (8 * d + o)) by omega]
      else
        rw [decide_eq_false (fun hno => hfar hno.2), Bool.false_and]
        exact BitVec.getMsbD_of_ge _ _ (by omega)
    else
      rw [if_neg hlast]
      if hhere : i / 8 = d + n then
        rw [decide_eq_true hhere, Bool.true_and, hs w _ (by omega),
          decide_eq_true (by omega : i < 8 * (d + (n + 2)) ∧ i + a < 8 * (d + (n + 2)) + o), Bool.true_and]
        if hi : o ≤ i - 8 * (d + n) + a then
          -- both octets have the bit
          rw [decide_eq_true hi, Bool.true_and, hpair _ (by omega),
            show 8 * (s + n) + (i - 8 * (d + n) + a - o) = 8 * s + (i + a - (8 * d + o)) by omega]
          cases bitAt m (8 * s + (i + a - (8 * d + o)))
          · rw [Bool.and_false, Bool.or_false]
          · rw [Bool.or_true]
        else
          rw [decide_eq_false hi, Bool.false_and, Bool.or_false,
            decide_eq_true (by omega : i < 8 * (d + (n + 1)) ∧ i + a < 8 * (d + (n + 1)) + o), Bool.true_and]
      else
        rw [decide_eq_false hhere, Bool.false_and, Bool.or_false]
        exact congrArg (· && _) (decide_eq_decide.2 (by omega))

/-- The loop moves one octet after the other. -/
private theorem shiftOctets_moved (hs : Moves shift a o) (ha : a < 8) (ho : o < 8) (hn : 1 ≤ n) (h : Moved m s a o d (n + 1) b₀ b) :
    Moved m s a o d (n + k + 1) b₀ (shiftOctets shift m k (s + n) (d + n) b) := by
  induction k generalizing n b with
  | zero => exact h
  | succ k ih =>
    have hnext := ih (by omega) (moved_next hs ha ho hn h)
    rw [show n + 1 + k + 1 = n + (k + 1) + 1 by omega] at hnext
    exact hnext

/-- With the last or-operation all bits of the octets are there. -/
private theorem moved_last (hs : Moves shift a o) (ha : a < 8) (ho : o < 8) (hn : 1 ≤ n) (h : Moved m s a o d (n + 1) b₀ b) :
    bitAt (orAt b (d + n) (octet (shift (m (s + n) ++ m (s + n + 1))) 0)) i =
      if i < 8 * d + o then bitAt b₀ i
      else decide (i < 8 * (d + n + 1)) && bitAt m (8 * s + (i + a - (8 * d + o))) := by
  have hstore := moved_next hs ha ho hn h i
  rw [bitAt_setAt] at hstore
  if hbefore : i < 8 * d + o then
    rw [if_neg (by omega), if_pos hbefore] at hstore
    rw [hstore, if_pos hbefore]
  else
    rw [if_neg hbefore] at hstore ⊢
    if hin : i < 8 * (d + n + 1) then
      rw [if_neg (by omega), decide_eq_true (by omega), Bool.true_and] at hstore
      rw [hstore, decide_eq_true hin, Bool.true_and]
    else
      have hor : bitAt (orAt b (d + n) (octet (shift (m (s + n) ++ m (s + n + 1))) 0)) i = bitAt b i := by
        rw [bitAt_orAt, decide_eq_false (by omega), Bool.false_and, Bool.or_false]
      rw [hor, h i, if_neg hbefore, decide_eq_false (fun hno => hin (by omega)), decide_eq_false hin, Bool.false_and]

/-! ### Writing -/

/-- Where the copied bits end: a chunk that is shifted takes at least two octets. -/
def copiedEnd (a o l : Nat) : Nat := if a ≠ o ∧ o + l ≤ 8 then o + l + 8 else o + l

private theorem theShift_eq : ∀ a : Nat, a < 8 → ∀ o : Nat, o < 8 → (BitVec.ofInt 8 ((a : Int) - o)).toInt = (a : Int) - o := by
  decide

/-- Octets that are in the right place. -/
private theorem aligned_bits {l : Nat} (ho : o < 8) (hl : 1 ≤ l) (hz : ZeroFrom b₀ (8 * d + o)) :
    bitAt (cutOff (copy (orAt b₀ d (m s &&& mask 8 (8 - o))) (d + 1) m (s + 1) ((l + o + 7) / 8 - 1)) (d + (l + o + 7) / 8 - 1)
        ((o + l) % 8)) i =
      if i < 8 * d + o then bitAt b₀ i else decide (i < 8 * d + copiedEnd o o l) && bitAt m (8 * s + (i + o - (8 * d + o))) := by
  have hend : copiedEnd o o l = o + l := if_neg fun hno => hno.1 rfl
  rw [bitAt_cutOff (Nat.mod_lt _ (by omega)), bitAt_copy, bitAt_orAt, hend]
  if hbefore : i < 8 * d + o then
    have hkept : (o + l) % 8 = 0 ∨ i / 8 ≠ d + (l + o + 7) / 8 - 1 ∨ i % 8 < (o + l) % 8 := by omega
    rw [if_pos hbefore, if_neg (by omega), decide_eq_true hkept, Bool.and_true, BitVec.getMsbD_and, getMsbD_mask (by omega)]
    if hd : i / 8 = d then
      rw [decide_eq_false (by omega : ¬ 8 - (8 - o) ≤ i % 8), Bool.and_false, Bool.and_false, Bool.and_false, Bool.or_false]
    else rw [decide_eq_false hd, Bool.false_and, Bool.or_false]
  else
    rw [if_neg hbefore, hz i (by omega), Bool.false_or, show i + o - (8 * d + o) = i - 8 * d by omega]
    if hd : i / 8 = d then
      have hbit : (m s).getMsbD (i % 8) = bitAt m (8 * s + (i - 8 * d)) := by
        rw [show i - 8 * d = i % 8 by omega]
        exact holds_octet m s _ (by omega)
      rw [if_neg (by omega), decide_eq_true hd, Bool.true_and, BitVec.getMsbD_and, getMsbD_mask (by omega),
        decide_eq_true (by omega : i % 8 < 8), decide_eq_true (by omega : 8 - (8 - o) ≤ i % 8), Bool.and_true, Bool.and_true, hbit,
        Bool.and_comm]
      exact congrArg (· && _) (decide_eq_decide.2 (by omega))
    else
      split
      · rw [show 8 * (s + 1) + (i - 8 * (d + 1)) = 8 * s + (i - 8 * d) by omega, Bool.and_comm]
        exact congrArg (· && _) (decide_eq_decide.2 (by omega))
      · rw [decide_eq_false hd, Bool.false_and, Bool.false_and, decide_eq_false (by omega), Bool.false_and]

/-- Octets that are shifted: the first one, those of the loop and the last one. -/
private theorem shifted_bits {l : Nat} (hs : Moves shift a o) (ha : a < 8) (ho : o < 8) (hne : a ≠ o) (hl : 1 ≤ l)
    (hz : ZeroFrom b₀ (8 * d + o)) (hn : n = (if (l + o + 7) / 8 > 1 then (l + o + 7) / 8 - 1 else (l + o + 7) / 8) - 1) :
    bitAt (cutOff (orAt (shiftOctets shift m n (s + 1) (d + 1)
          (setAt (orAt b₀ d (octet (shift ((m s &&& mask 8 (8 - a)) ++ m (s + 1))) 0)) (d + 1)
            (octet (shift ((m s &&& mask 8 (8 - a)) ++ m (s + 1))) 1)))
        (d + 1 + n) (octet (shift (m (s + 1 + n) ++ m (s + 2 + n))) 0)) (d + 1 + n) ((o + l) % 8)) i =
      if i < 8 * d + o then bitAt b₀ i else decide (i < 8 * d + copiedEnd a o l) && bitAt m (8 * s + (i + a - (8 * d + o))) := by
  have hloop := shiftOctets_moved (k := n) hs ha ho (Nat.le_refl 1) (moved_first (m := m) (s := s) hs ha ho hz)
  have hlast := moved_last (i := i) hs ha ho (by omega : 1 ≤ 1 + n) hloop
  rw [show d + (1 + n) = d + 1 + n by omega, show s + (1 + n) = s + 1 + n by omega, show s + 1 + n + 1 = s + 2 + n by omega] at hlast
  rw [bitAt_cutOff (Nat.mod_lt _ (by omega)), hlast]
  have hend : copiedEnd a o l = if o + l ≤ 8 then o + l + 8 else o + l := by
    unfold copiedEnd
    split
    · rename_i h
      rw [if_pos h.2]
    · rename_i h
      rw [if_neg fun hno => h ⟨hne, hno⟩]
  rw [hend]
  if hbefore : i < 8 * d + o then
    have hkept : (o + l) % 8 = 0 ∨ i / 8 ≠ d + 1 + n ∨ i % 8 < (o + l) % 8 := by omega
    rw [if_pos hbefore, if_pos hbefore, decide_eq_true hkept, Bool.and_true]
  else
    rw [if_neg hbefore, if_neg hbefore, Bool.and_right_comm, ← Bool.decide_and]
    refine congrArg (· && _) (decide_eq_decide.2 ?_)
    split at hn
    · rw [if_neg (by omega)]
      omega
    · rw [if_pos (by omega)]
      omega

/-- What is in the buffer after a chunk of the C-structure has been written. -/
private theorem writeBitChunk_bits {e : Coder} {len l : Nat} (hal : Aligned e.bits) (hz : ZeroFrom e.bits.bitbuf e.bits.bitpos)
    (hl : 1 ≤ l) (hlen : min len (short e.pstruct e.pstructOffs) = l) (hoffs : short e.pstruct (e.pstructOffs + 2) = a) (ha : a < 8) :
    (writeBitChunk len e).bits.bitpos = (e.bits.bitpos + l) % 65536 ∧
      ∀ i, bitAt (writeBitChunk len e).bits.bitbuf i =
        if i < e.bits.bitpos then bitAt e.bits.bitbuf i
        else decide (i < 8 * e.bits.bytepos + copiedEnd a e.bits.byteoffs l) &&
          bitAt e.pstruct (8 * (e.pstructOffs + 4) + (i + a - e.bits.bitpos)) := by
  have ho := hal.offs
  rw [← hal.eq] at hz ⊢
  have hshift := theShift_eq a ha e.bits.byteoffs ho
  unfold writeBitChunk
  simp only [hlen, hoffs, hshift, show a / 8 = 0 by omega, show a % 8 = a by omega, Nat.add_zero, if_neg (by omega : ¬ l = 0)]
  split
  · rename_i hsame
    have heq : a = e.bits.byteoffs := by omega
    subst heq
    exact ⟨congrArg (· % 65536) (congrArg (· + l) hal.eq.symm), fun i => aligned_bits ho hl hz⟩
  · rename_i hdiffer
    have hne : a ≠ e.bits.byteoffs := by omega
    refine ⟨congrArg (· % 65536) (congrArg (· + l) hal.eq.symm), fun i => ?_⟩
    refine shifted_bits ?_ ha ho hne hl hz rfl
    split
    · rename_i hleft
      rw [show ((a : Int) - e.bits.byteoffs).natAbs % 8 = a - e.bits.byteoffs by omega]
      exact moves_left (by omega)
    · rename_i hright
      rw [show ((a : Int) - e.bits.byteoffs).natAbs % 8 = e.bits.byteoffs - a by omega]
      exact moves_right (by omega)

/-! ### Reading -/

private theorem short_putShort {v : Nat} : short (putShort m k v) k = v % 65536 := by
  unfold short putShort setAt
  rw [if_neg (by omega), if_pos rfl, if_pos rfl, BitVec.toNat_ofNat, BitVec.toNat_ofNat]
  omega

private theorem short_congr (h : b k = c k) (h' : b (k + 1) = c (k + 1)) : short b k = short c k := by
  unfold short
  rw [h, h']

private theorem putShort_other {v : Nat} (h : i ≠ k) (h' : i ≠ k + 1) : putShort m k v i = m i := by
  unfold putShort setAt
  rw [if_neg h', if_neg h]

private theorem cutOff_other {rest : Nat} (h : i ≠ k) : cutOff b k rest i = b i := by
  unfold cutOff setAt
  split
  · exact if_neg h
  · rfl

private theorem octetsRead_eq {l : Nat} (ha : a < 8) (hl : 1 ≤ l) :
    octetsRead a l = if a ≠ 0 ∧ a + (l - 1) % 8 < 8 then (a + l + 7) / 8 + 1 else (a + l + 7) / 8 := by
  unfold octetsRead
  split <;> split <;> split <;> omega

/-- The length and the offset are stored before the chunk. -/
private theorem readBitChunk_header {r : Coder} {l : Nat} (ho : r.bits.byteoffs < 8) (hl : 1 ≤ l) :
    short (readBitChunk l r).pstruct r.pstructOffs = l % 65536 ∧
      short (readBitChunk l r).pstruct (r.pstructOffs + 2) = r.bits.byteoffs := by
  have hmany : 1 ≤ octetsRead r.bits.byteoffs l := by
    rw [octetsRead_eq ho hl]
    split <;> omega
  have hbefore : ∀ i, i < r.pstructOffs + 4 → (readBitChunk l r).pstruct i =
      putShort (putShort r.pstruct r.pstructOffs l) (r.pstructOffs + 2) r.bits.byteoffs i := by
    intro i hi
    change cutOff _ (r.pstructOffs + 4 + octetsRead r.bits.byteoffs l - 1) _ i = _
    rw [cutOff_other (by omega)]
    unfold setAt copy
    rw [if_neg (by omega), if_neg (by omega)]
  constructor
  · rw [short_congr (hbefore _ (by omega)) (hbefore _ (by omega)), ← short_putShort (m := r.pstruct) (k := r.pstructOffs)]
    exact short_congr (putShort_other (by omega) (by omega)) (putShort_other (by omega) (by omega))
  · rw [short_congr (hbefore _ (by omega)) (hbefore _ (by omega)), short_putShort]
    exact Nat.mod_eq_of_lt (by omega)

private theorem bitAt_maskFirst (ha : a < 8) : bitAt (setAt m k (m k &&& mask 8 (8 - a))) (8 * k + i) = (decide (a ≤ i) && bitAt m (8 * k + i)) := by
  rw [bitAt_setAt]
  split
  · rename_i hk
    rw [BitVec.getMsbD_and, getMsbD_mask (by omega), show (8 * k + i) % 8 = i by omega, holds_octet m k i (by omega),
      decide_eq_true (by omega : i < 8), Bool.true_and, Bool.and_comm]
    exact congrArg (· && _) (decide_eq_decide.2 (by omega))
  · rw [decide_eq_true (by omega), Bool.true_and]

/-- What is in the C-structure behind the length and the offset. -/
private theorem readBitChunk_bits {r : Coder} {l : Nat} (ho : r.bits.byteoffs < 8) (hl : 1 ≤ l) :
    bitAt (readBitChunk l r).pstruct (8 * (r.pstructOffs + 4) + i) =
      ((if i < 8 * octetsRead r.bits.byteoffs l then
          decide (r.bits.byteoffs ≤ i) && bitAt r.bits.bitbuf (8 * r.bits.bytepos + i)
        else bitAt r.pstruct (8 * (r.pstructOffs + 4) + i)) &&
        decide ((l + r.bits.byteoffs) % 8 = 0 ∨ i / 8 ≠ octetsRead r.bits.byteoffs l - 1 ∨ i % 8 < (l + r.bits.byteoffs) % 8)) := by
  have hmany : 1 ≤ octetsRead r.bits.byteoffs l := by
    rw [octetsRead_eq ho hl]
    split <;> omega
  change bitAt (cutOff _ (r.pstructOffs + 4 + octetsRead r.bits.byteoffs l - 1) _) _ = _
  rw [bitAt_cutOff (Nat.mod_lt _ (by omega)), bitAt_maskFirst ho, bitAt_copy, show (8 * (r.pstructOffs + 4) + i) % 8 = i % 8 by omega]
  refine congr (congrArg and ?_) (decide_eq_decide.2 (by omega))
  if hin : i < 8 * octetsRead r.bits.byteoffs l then
    rw [if_pos (by omega), if_pos hin, Nat.add_sub_cancel_left]
  else
    rw [if_neg (by omega), if_neg hin, decide_eq_true (by omega), Bool.true_and]
    unfold bitAt
    rw [putShort_other (by omega) (by omega), putShort_other (by omega) (by omega)]

/-! ### Copying -/

/-- The bits of the chunk are in the C-structure. -/
private theorem chunk_bits {r : Coder} {l : Nat} (hr : Aligned r.bits) (hl : 1 ≤ l) (hj : j < l) :
    bitAt (readBitChunk l r).pstruct (8 * (r.pstructOffs + 4) + (r.bits.byteoffs + j)) = bitAt r.bits.bitbuf (r.bits.bitpos + j) := by
  have ho := hr.offs
  have hmany := octetsRead_eq ho hl
  have hin : r.bits.byteoffs + j < 8 * octetsRead r.bits.byteoffs l ∧
      ((l + r.bits.byteoffs) % 8 = 0 ∨ (r.bits.byteoffs + j) / 8 ≠ octetsRead r.bits.byteoffs l - 1 ∨
        (r.bits.byteoffs + j) % 8 < (l + r.bits.byteoffs) % 8) := by
    rw [hmany]
    split <;> omega
  rw [readBitChunk_bits ho hl, if_pos hin.1, decide_eq_true hin.2, Bool.and_true, decide_eq_true (by omega), Bool.true_and, ← hr.eq,
    Nat.add_assoc]

/-- The eight bits behind the chunk in the C-structure. -/
private theorem quiet_iff {r : Coder} {l : Nat} (hr : Aligned r.bits) (hl : 1 ≤ l) (hshort : l ≤ 8) :
    QuietBehind r l ↔
      ∀ j, j < 8 → bitAt (readBitChunk l r).pstruct (8 * (r.pstructOffs + 4) + (r.bits.byteoffs + l + j)) = false := by
  have ho := hr.offs
  have hmany := octetsRead_eq ho hl
  unfold QuietBehind
  split
  · rename_i hfirst
    have htwo : octetsRead r.bits.byteoffs l = 2 := by
      rw [hmany]
      split <;> omega
    refine forall_congr' fun j => forall_congr' fun hj => ?_
    rw [readBitChunk_bits ho hl, htwo, if_pos (by omega), decide_eq_true (by omega : r.bits.byteoffs ≤ _), Bool.true_and,
      decide_eq_true (by omega), Bool.and_true, show 8 * r.bits.bytepos + (r.bits.byteoffs + l + j) = r.bits.bitpos + l + j by
        rw [← hr.eq]; omega]
  · rename_i hlater
    have hall : octetsRead r.bits.byteoffs l = (r.bits.byteoffs + l + 7) / 8 := by
      rw [hmany]
      exact if_neg (by omega)
    constructor
    · intro hquiet j hj
      rw [readBitChunk_bits ho hl, hall]
      split
      · rw [decide_eq_false (by omega : ¬ ((l + r.bits.byteoffs) % 8 = 0 ∨ _ ∨ _)), Bool.and_false]
      · rw [hquiet _ (by omega) (by omega), Bool.false_and]
    · intro hzero i hle hlt
      have hbit := hzero (i - (r.bits.byteoffs + l)) (by omega)
      rw [show r.bits.byteoffs + l + (i - (r.bits.byteoffs + l)) = i by omega, readBitChunk_bits ho hl, hall, if_neg (by omega),
        decide_eq_true (by omega), Bool.and_true] at hbit
      exact hbit

private theorem writeBitChunk_bitpos {e : Coder} (len : Nat) (hal : Aligned e.bits) : (writeBitChunk len e).bits.bitpos < 65536 := by
  unfold writeBitChunk
  simp only
  split
  · exact hal.bitpos
  · split <;> exact Nat.mod_lt _ (by omega)

/-- A chunk is copied exactly just when its position stays in 16 bits and the offsets are equal, the chunk does not fit in the first
octet of the target, or nothing is behind it. -/
theorem chunk_copied_iff {r : Coder} {w : Globs} {l len : Nat} (hr : Aligned r.bits) (hw : Aligned w) (hz : ZeroFrom w.bitbuf w.bitpos)
    (hl : 1 ≤ l) (hlen : l ≤ len) :
    Copied r.bits.bitbuf r.bits.bitpos l w (writeBitChunk len { readBitChunk l r with bits := w }).bits ↔
      w.bitpos + l < 65536 ∧ (r.bits.byteoffs = w.byteoffs ∨ 8 < w.byteoffs + l ∨ QuietBehind r l) := by
  have hro := hr.offs
  if hpos : w.bitpos + l < 65536 then
    have heq := hw.eq
    obtain ⟨hlength, hoffset⟩ := readBitChunk_header hro hl
    rw [Nat.mod_eq_of_lt (by omega : l < 65536)] at hlength
    have hmin : min len (short (readBitChunk l r).pstruct r.pstructOffs) = l := by
      rw [hlength]
      exact Nat.min_eq_right hlen
    obtain ⟨hend, hbits⟩ := writeBitChunk_bits (e := { readBitChunk l r with bits := w }) hw hz hl hmin hoffset hro
    rw [Nat.mod_eq_of_lt hpos] at hend
    generalize (writeBitChunk len { readBitChunk l r with bits := w }).bits = w' at hend hbits ⊢
    have hbits : ∀ i, bitAt w'.bitbuf i = if i < w.bitpos then bitAt w.bitbuf i
        else decide (i < 8 * w.bytepos + copiedEnd r.bits.byteoffs w.byteoffs l) &&
          bitAt (readBitChunk l r).pstruct (8 * (r.pstructOffs + 4) + (i + r.bits.byteoffs - w.bitpos)) := hbits
    have hchunk : ∀ j, j < l → bitAt w'.bitbuf (w.bitpos + j) = bitAt r.bits.bitbuf (r.bits.bitpos + j) := by
      intro j hj
      have hin : l ≤ copiedEnd r.bits.byteoffs w.byteoffs l - w.byteoffs := by
        unfold copiedEnd
        split <;> omega
      rw [hbits, if_neg (by omega), decide_eq_true (by omega), Bool.true_and,
        show w.bitpos + j + r.bits.byteoffs - w.bitpos = r.bits.byteoffs + j by omega]
      exact chunk_bits hr hl hj
    have hbefore : ∀ i, i < w.bitpos → bitAt w'.bitbuf i = bitAt w.bitbuf i := fun i hi => by rw [hbits, if_pos hi]
    have hcopied : Copied r.bits.bitbuf r.bits.bitpos l w w' ↔ ∀ i, w.bitpos + l ≤ i → bitAt w'.bitbuf i = false :=
      ⟨fun h => h.behind, fun h => ⟨hchunk, hbefore, h, hend⟩⟩
    rw [hcopied]
    unfold copiedEnd at hbits
    split at hbits
    · rename_i hshort
      have hbehind : (r.bits.byteoffs = w.byteoffs ∨ 8 < w.byteoffs + l ∨ QuietBehind r l) ↔ QuietBehind r l :=
        ⟨fun h => (h.resolve_left hshort.1).resolve_left (by omega), fun h => .inr (.inr h)⟩
      rw [hbehind, quiet_iff hr hl (by omega)]
      constructor
      · intro hzero
        refine ⟨hpos, fun j hj => ?_⟩
        have hbit := hzero (w.bitpos + l + j) (by omega)
        rw [hbits, if_neg (by omega), decide_eq_true (by omega), Bool.true_and,
          show w.bitpos + l + j + r.bits.byteoffs - w.bitpos = r.bits.byteoffs + l + j by omega] at hbit
        exact hbit
      · rintro ⟨-, hquiet⟩ i hi
        rw [hbits, if_neg (by omega)]
        if hin : i < w.bitpos + l + 8 then
          rw [show i + r.bits.byteoffs - w.bitpos = r.bits.byteoffs + l + (i - (w.bitpos + l)) by omega, hquiet _ (by omega),
            Bool.and_false]
        else rw [decide_eq_false (by omega), Bool.false_and]
    · rename_i hlong
      refine iff_of_true (fun i hi => ?_) ⟨hpos, ?_⟩
      · rw [hbits, if_neg (by omega), decide_eq_false (by omega), Bool.false_and]
      · if hsame : r.bits.byteoffs = w.byteoffs then exact .inl hsame
        else exact .inr (.inl (Nat.lt_of_not_le fun hno => hlong ⟨hsame, hno⟩))
  else
    refine iff_of_false (fun hcopied => ?_) fun h => hpos h.1
    have hlt := writeBitChunk_bitpos (e := { readBitChunk l r with bits := w }) len hw
    have := hcopied.bitpos
    omega

/-- Seven bits that begin at the fourth bit of an octet are copied to the seventh bit. -/
theorem seven_copied : Copied (fun _ => 0xff) 3 7 (setBitpos 6 (commonDecodeInit (fun _ => 0) 0))
    (writeBitChunk 7 { readBitChunk 7 ⟨commonDecodeInit (fun _ => 0xff) 3, fun _ => 0, 0⟩ with
      bits := setBitpos 6 (commonDecodeInit (fun _ => 0) 0) }).bits := by
  have hzero : ZeroFrom (setBitpos 6 (commonDecodeInit (fun _ => 0) 0)).bitbuf 6 := fun _ _ => BitVec.getMsbD_zero
  exact (chunk_copied_iff (r := ⟨commonDecodeInit (fun _ => 0xff) 3, fun _ => 0, 0⟩) setBitpos_aligned setBitpos_aligned hzero
    (by decide) (Nat.le_refl 7)).2 ⟨by decide, .inr (.inl (by decide))⟩

/-- Two bits that begin at the second bit of an octet bring six others with them. -/
theorem two_not_copied : ¬ Copied (fun _ => 0xff) 1 2 (commonDecodeInit (fun _ => 0) 0)
    (writeBitChunk 2 { readBitChunk 2 ⟨commonDecodeInit (fun _ => 0xff) 1, fun _ => 0, 0⟩ with
      bits := commonDecodeInit (fun _ => 0) 0 }).bits :=
  fun h => Bool.noConfusion ((h.behind 2 (by decide)).symm.trans (by decide +kernel : _ = true))

end

end Citrine.Bf
