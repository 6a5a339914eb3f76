import Mathlib.Data.Nat.Basic

/-!
# Digests of long messages

A message is taken into a state piece by piece (`absorb`): `m` elements each time.  What is taken in depends on these
elements only, and a message that is taken in in two parts is taken in as a whole.
-/

namespace Citrine.Absorb

variable {σ α : Type} {f : σ → List α → σ} {m : Nat}

/-- The state after `n` pieces of `m` elements. -/
def absorb (f : σ → List α → σ) (m : Nat) : Nat → List α → σ → σ
  | 0, _, s => s
  | n + 1, l, s => absorb f m n (l.drop m) (f s (l.take m))

theorem absorb_one (l : List α) (s : σ) : absorb f m 1 l s = f s (l.take m) := rfl

theorem absorb_add (a b : Nat) (l : List α) (s : σ) :
    absorb f m (a + b) l s = absorb f m b (l.drop (a * m)) (absorb f m a l s) := by
  induction a generalizing l s with
  | zero => simp [absorb]
  | succ a ih =>
    rw [Nat.add_right_comm, absorb, ih, absorb, List.drop_drop, Nat.add_mul, Nat.one_mul, Nat.add_comm m]

/-- Elements behind the pieces do not matter. -/
theorem absorb_congr {n : Nat} {k l : List α} (h : k.take (n * m) = l.take (n * m)) (s : σ) :
    absorb f m n k s = absorb f m n l s := by
  induction n generalizing k l s with
  | zero => rfl
  | succ n ih =>
    rw [Nat.add_mul, Nat.one_mul] at h
    have hfirst : k.take m = l.take m := by
      have ht := congrArg (List.take m) h
      rwa [List.take_take, List.take_take, Nat.min_eq_left (by omega)] at ht
    have hrest : (k.drop m).take (n * m) = (l.drop m).take (n * m) := by
      have hd := congrArg (List.drop m) h
      rwa [List.drop_take, List.drop_take, Nat.add_sub_cancel] at hd
    unfold absorb
    rw [hfirst, ih hrest]

end Citrine.Absorb
