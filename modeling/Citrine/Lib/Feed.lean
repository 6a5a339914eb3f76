/-!
# Receivers that are fed in pieces

A receiver takes a list of elements with each call, and its result says whether it goes on.  If a call does the same as
calls with the single elements of its list, the way in which the elements are cut into calls does not matter (`feed_cut`).
-/

namespace Citrine.Feed

variable {σ α ρ : Type} (call : σ → List α → σ × ρ) (goesOn : ρ → Bool)

/-- Calls with the pieces of a list, until a result says that the receiver does not go on. -/
def feed (x : σ × ρ) : List (List α) → σ × ρ
  | [] => x
  | p :: ps => if goesOn x.2 then feed (call x.1 p) ps else x

/-- Every call that is made meets a condition on the state and on its piece. -/
def Each (ok : σ → List α → Prop) (x : σ × ρ) : List (List α) → Prop
  | [] => True
  | p :: ps => goesOn x.2 = true → ok x.1 p ∧ Each ok (call x.1 p) ps

/-- Calls with single elements. -/
def singles (p : List α) : List (List α) := p.map fun a => [a]

variable {call goesOn} {x : σ × ρ} {p : List α} {ps qs : List (List α)}

theorem feed_stopped (h : goesOn x.2 = false) : feed call goesOn x ps = x := by
  cases ps with
  | nil => rfl
  | cons p ps =>
    change (if goesOn x.2 then _ else x) = x
    rw [h]
    rfl

theorem feed_cons (h : goesOn x.2 = true) : feed call goesOn x (p :: ps) = feed call goesOn (call x.1 p) ps := if_pos h

theorem feed_append : feed call goesOn x (ps ++ qs) = feed call goesOn (feed call goesOn x ps) qs := by
  induction ps generalizing x with
  | nil => rfl
  | cons p ps ih =>
    cases h : goesOn x.2 with
    | true => rw [List.cons_append, feed_cons h, feed_cons h, ih]
    | false => rw [feed_stopped h, feed_stopped h, feed_stopped h]

theorem singles_append (p q : List α) : singles (p ++ q) = singles p ++ singles q := List.map_append

/-- If every call does what calls with the single elements do, the cut does not matter. -/
theorem feed_cut {ok : σ → List α → Prop} {I : σ → Prop}
    (hcall : ∀ s p r, I s → ok s p → goesOn r = true → call s p = feed call goesOn (s, r) (singles p))
    (hkeep : ∀ s p, I s → ok s p → goesOn (call s p).2 = true → I (call s p).1)
    (hI : goesOn x.2 = true → I x.1) (hok : Each call goesOn ok x ps) :
    feed call goesOn x ps = feed call goesOn x (singles ps.flatten) := by
  induction ps generalizing x with
  | nil => rfl
  | cons p ps ih =>
    cases h : goesOn x.2 with
    | false => rw [feed_stopped h, feed_stopped h]
    | true =>
      obtain ⟨hp, hps⟩ := hok h
      rw [feed_cons h, List.flatten_cons, singles_append, feed_append, ih (fun hg => hkeep _ _ (hI h) hp hg) hps]
      rw [hcall x.1 p x.2 (hI h) hp h]

end Citrine.Feed
