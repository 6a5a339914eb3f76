/-!
# Halving an interval

A property of numbers that never fails behind a number at which it holds splits an interval.  The interval
`[left, right)` that is still searched is cut at its middle (`halve`), the property fails in front of it and holds
behind it (`Splits`), and it shrinks with every cut (`width_halve`), so that in the end its two ends are the place
where the property begins (`Splits.begins`).
-/

namespace Citrine.Bisect

/-- The part of an interval that is still searched. -/
structure Interval where
  left : Nat
  right : Nat
  deriving DecidableEq, Repr

namespace Interval

def mid (s : Interval) : Nat := (s.left + s.right) / 2

def width (s : Interval) : Nat := s.right - s.left

/-- The half in which the property begins. -/
def halve (p : Nat → Bool) (s : Interval) : Interval :=
  if p s.mid then { s with right := s.mid } else { s with left := s.mid + 1 }

end Interval

/-- The property never fails behind a number of `[first, last)` at which it holds. -/
def Lasts (p : Nat → Bool) (first last : Nat) : Prop := ∀ i j, first ≤ i → i ≤ j → j < last → p i → p j

/-- The property fails in front of the interval and holds behind it. -/
structure Splits (p : Nat → Bool) (first last : Nat) (s : Interval) : Prop where
  first_le : first ≤ s.left
  le : s.left ≤ s.right
  le_last : s.right ≤ last
  below : ∀ i, first ≤ i → i < s.left → p i = false
  above : ∀ i, s.right ≤ i → i < last → p i

variable {p : Nat → Bool} {first last : Nat} {s : Interval}

/-- In the beginning nothing is in front of the interval or behind it. -/
theorem splits_whole (h : first ≤ last) : Splits p first last ⟨first, last⟩ :=
  ⟨Nat.le_refl _, h, Nat.le_refl _, fun i h h' => by dsimp only at h'; omega, fun i h h' => by dsimp only at h; omega⟩

theorem mid_lt (h : s.left < s.right) : s.left ≤ s.mid ∧ s.mid < s.right := by
  unfold Interval.mid
  omega

theorem width_halve (h : s.left < s.right) : (s.halve p).width < s.width := by
  obtain ⟨h1, h2⟩ := mid_lt h
  unfold Interval.halve Interval.width
  split
  · dsimp only
    omega
  · dsimp only
    omega

theorem Splits.halve (hp : Lasts p first last) (h : Splits p first last s) (hlt : s.left < s.right) :
    Splits p first last (s.halve p) := by
  obtain ⟨h1, h2⟩ := mid_lt hlt
  have hl := h.first_le
  have hr := h.le_last
  unfold Interval.halve
  split
  · rename_i hm
    refine ⟨hl, h1, by dsimp only; omega, h.below, fun i hi hlast => ?_⟩
    exact hp s.mid i (by omega) hi hlast hm
  · rename_i hm
    refine ⟨by dsimp only; omega, h2, hr, fun i hi hlt => ?_, h.above⟩
    dsimp only at hlt
    cases hpi : p i with
    | false => rfl
    | true => exact absurd (hp i s.mid hi (by omega) (by omega) hpi) hm

/-- Nothing is left to be searched: the property begins at the end of the interval. -/
theorem Splits.begins (h : Splits p first last s) (he : ¬ s.left < s.right) {i : Nat} (hf : first ≤ i) (hl : i < last) :
    p i ↔ s.left ≤ i := by
  have hle := h.le
  constructor
  · intro hp
    by_cases hge : s.left ≤ i
    · exact hge
    · rw [h.below i hf (by omega)] at hp
      cases hp
  · intro hge
    exact h.above i (by omega) hl

end Citrine.Bisect
