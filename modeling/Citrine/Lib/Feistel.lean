import Mathlib.Data.Prod.Basic

/-!
# Feistel networks

A round replaces the pair `(l, r)` by `(r, l ⊕ f k r)`.  Whatever the round function is, going through the rounds a
second time with the keys in reverse order, and with the halves exchanged, undoes them (`rounds_reverse`); and a change
of the halves that the round function does not see, and that `⊕` carries to its result, is carried to the end of the
rounds (`rounds_map`).
-/

namespace Citrine.Feistel

variable {α κ : Type} {xor : α → α → α} {f : κ → α → α}

/-- One round with the key `k`. -/
def round (xor : α → α → α) (f : κ → α → α) (s : α × α) (k : κ) : α × α := (s.2, xor s.1 (f k s.2))

/-- A round for every key. -/
def rounds (xor : α → α → α) (f : κ → α → α) (ks : List κ) (s : α × α) : α × α := ks.foldl (round xor f) s

theorem rounds_cons (k : κ) (ks : List κ) (s : α × α) :
    rounds xor f (k :: ks) s = rounds xor f ks (round xor f s k) := rfl

theorem rounds_append (ks js : List κ) (s : α × α) :
    rounds xor f (ks ++ js) s = rounds xor f js (rounds xor f ks s) := List.foldl_append

theorem round_swap (hxor : ∀ a b, xor (xor a b) b = a) (s : α × α) (k : κ) :
    round xor f (round xor f s k).swap k = s.swap := by
  unfold round
  simp only [Prod.fst_swap, Prod.snd_swap]
  rw [hxor]
  rfl

/-- The rounds are undone by the rounds with the keys in reverse order. -/
theorem rounds_reverse (hxor : ∀ a b, xor (xor a b) b = a) (ks : List κ) (s : α × α) :
    rounds xor f ks.reverse (rounds xor f ks s).swap = s.swap := by
  induction ks generalizing s with
  | nil => rfl
  | cons k ks ih =>
    rw [List.reverse_cons, rounds_append, rounds_cons k ks s, ih]
    exact round_swap hxor s k

/-- What the round function does not see is carried through the rounds. -/
theorem rounds_map {c : α → α} {d : κ → κ} (hf : ∀ k a, f (d k) (c a) = f k a)
    (hxor : ∀ a b, xor (c a) b = c (xor a b)) (ks : List κ) (s : α × α) :
    rounds xor f (ks.map d) (s.map c c) = (rounds xor f ks s).map c c := by
  induction ks generalizing s with
  | nil => rfl
  | cons k ks ih =>
    have hround : round xor f (s.map c c) (d k) = (round xor f s k).map c c := by
      unfold round
      simp only [Prod.map]
      rw [hf, hxor]
    rw [List.map_cons, rounds_cons, hround, ih, rounds_cons]

end Citrine.Feistel
