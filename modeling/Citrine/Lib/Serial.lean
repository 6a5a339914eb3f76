import Mathlib.Data.BitVec
import Mathlib.Data.Set.Basic

/-!
# Serial numbers

Numbers that are counted up and wrap are compared by how far it is from one to the other (`ahead`).  This distance is
that of their places behind any base (`ahead_eq`), so among numbers that all lie within half of the range behind one
base the newest and the oldest are those with the greatest and the least place (`newest_iff`, `oldest_iff`).
-/

namespace Citrine

section
variable {w : Nat} {a b base : BitVec (w + 1)} {s : Set (BitVec (w + 1))}

/-- How many steps it takes to count from one number to another. -/
def ahead (a b : BitVec (w + 1)) : Nat := (b - a).toNat

/-- One number comes after another, within half of the range. -/
def Newer (a b : BitVec (w + 1)) : Prop := 0 < ahead a b ∧ ahead a b ≤ 2 ^ w

/-- The number of the set that no other one is ahead of. -/
def Newest (s : Set (BitVec (w + 1))) (a : BitVec (w + 1)) : Prop := a ∈ s ∧ ∀ b ∈ s, ahead b a < 2 ^ w

/-- The number of the set that is not ahead of any other one. -/
def Oldest (s : Set (BitVec (w + 1))) (a : BitVec (w + 1)) : Prop := a ∈ s ∧ ∀ b ∈ s, ahead a b < 2 ^ w

/-- All numbers of the set lie in a window of the range. -/
def Window (s : Set (BitVec (w + 1))) (base : BitVec (w + 1)) (n : Nat) : Prop := ∀ a ∈ s, ahead base a < n

theorem ahead_lt (a b : BitVec (w + 1)) : ahead a b < 2 ^ (w + 1) := (b - a).isLt

@[simp]
theorem ahead_self (a : BitVec (w + 1)) : ahead a a = 0 := by
  unfold ahead
  rw [BitVec.sub_self]
  rfl

theorem ahead_toNat : ahead a b = (b.toNat + (2 ^ (w + 1) - a.toNat)) % 2 ^ (w + 1) := by
  unfold ahead
  rw [BitVec.toNat_sub, Nat.add_comm]

/-- The distance of two numbers by their places behind a base. -/
theorem ahead_eq (base a b : BitVec (w + 1)) :
    ahead a b = if ahead base a ≤ ahead base b then ahead base b - ahead base a
      else 2 ^ (w + 1) + ahead base b - ahead base a := by
  have ha := ahead_lt base a
  have hb := ahead_lt base b
  have hab : b - a = (b - base) - (a - base) := (sub_sub_sub_cancel_right b a base).symm
  have hsub : ahead a b = (ahead base b + (2 ^ (w + 1) - ahead base a)) % 2 ^ (w + 1) := by
    unfold ahead
    rw [hab, BitVec.toNat_sub, Nat.add_comm]
  rw [hsub]
  split
  · rename_i hle
    have hsum : ahead base b + (2 ^ (w + 1) - ahead base a) = (ahead base b - ahead base a) + 2 ^ (w + 1) := by
      omega
    rw [hsum, Nat.add_mod_right, Nat.mod_eq_of_lt (by omega)]
  · rw [Nat.mod_eq_of_lt (by omega)]
    omega

theorem ahead_inj (h : ahead base a = ahead base b) : a = b := by
  have hsub : a - base = b - base := BitVec.eq_of_toNat_eq h
  exact sub_left_injective hsub

/-- In a window the newest number has the greatest place. -/
theorem newest_iff (h : Window s base (2 ^ w)) : Newest s a ↔ a ∈ s ∧ ∀ b ∈ s, ahead base b ≤ ahead base a := by
  refine and_congr_right fun ha => forall₂_congr fun b hb => ?_
  have ha' := h a ha
  have hb' := h b hb
  have hw : 2 ^ (w + 1) = 2 * 2 ^ w := Nat.pow_succ'
  rw [ahead_eq base b a]
  split <;> omega

/-- In a window the oldest number has the least place. -/
theorem oldest_iff (h : Window s base (2 ^ w)) : Oldest s a ↔ a ∈ s ∧ ∀ b ∈ s, ahead base a ≤ ahead base b := by
  refine and_congr_right fun ha => forall₂_congr fun b hb => ?_
  have ha' := h a ha
  have hb' := h b hb
  have hw : 2 ^ (w + 1) = 2 * 2 ^ w := Nat.pow_succ'
  rw [ahead_eq base a b]
  split <;> omega

end

end Citrine
