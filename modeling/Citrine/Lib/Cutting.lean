import Mathlib.Data.Nat.Basic

/-!
# Cutting a list into pieces

A list is cut into pieces of `m` elements each, the last one with what is left.  Together the pieces are the list
(`flatten_pieces`), and the piece `i` is there as long as `i * m` elements do not make up the list (`lt_count_iff`).
-/

namespace Citrine.Cutting

variable {α : Type} {m n i : Nat} {l : List α}

/-- The piece `i` of a list that is cut into pieces of `m` elements. -/
def piece (m : Nat) (l : List α) (i : Nat) : List α := (l.drop (i * m)).take m

/-- The number of pieces of a list with `n` elements. -/
def count (m n : Nat) : Nat := (n + (m - 1)) / m

theorem length_piece : (piece m l i).length = min m (l.length - i * m) := by
  unfold piece
  rw [List.length_take, List.length_drop]

theorem lt_count_iff (hm : 0 < m) : i < count m n ↔ i * m < n := by
  unfold count
  rw [Nat.lt_iff_add_one_le, Nat.le_div_iff_mul_le hm, Nat.add_mul, Nat.one_mul]
  omega

theorem count_le_iff (hm : 0 < m) : count m n ≤ i ↔ n ≤ i * m := by
  rw [← Nat.not_lt, ← Nat.not_lt]
  exact not_congr (lt_count_iff hm)

private theorem flatten_take (n : Nat) : ((List.range n).map (piece m l)).flatten = l.take (n * m) := by
  induction n with
  | zero => simp
  | succ n ih =>
    rw [List.range_succ, List.map_append, List.flatten_append, ih, Nat.add_mul, Nat.one_mul, List.take_add]
    simp [piece]

/-- The pieces together are the list. -/
theorem flatten_pieces (hm : 0 < m) : ((List.range (count m l.length)).map (piece m l)).flatten = l := by
  rw [flatten_take]
  exact List.take_of_length_le ((count_le_iff hm).1 (Nat.le_refl _))

end Citrine.Cutting
