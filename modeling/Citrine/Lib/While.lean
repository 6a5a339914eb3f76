/-!
# While loops with a bound

A while loop is run for a number of rounds that a measure bounds.  What the loop leaves then follows from an invariant of
its body (`rule`).
-/

namespace Citrine.While

variable {σ : Type} (cond : σ → Bool) (body : σ → σ)

/-- At most `n` rounds of a loop. -/
def loop : Nat → σ → σ
  | 0, s => s
  | n + 1, s => if cond s then loop n (body s) else s

variable {cond body}

theorem loop_done {n : Nat} {s : σ} (h : cond s = false) : loop cond body n s = s := by
  cases n with
  | zero => rfl
  | succ n =>
    change (if cond s then _ else s) = s
    rw [h]
    rfl

theorem loop_step {n : Nat} {s : σ} (h : cond s = true) : loop cond body (n + 1) s = loop cond body n (body s) :=
  if_pos h

/-- An invariant of the body holds after the loop, and the condition does not, if a measure that decreases with every
round is not above the bound. -/
theorem rule {I : σ → Prop} (m : σ → Nat) (hstep : ∀ s, I s → cond s = true → I (body s) ∧ m (body s) < m s) {n : Nat}
    {s : σ} (hI : I s) (hm : m s ≤ n) : I (loop cond body n s) ∧ cond (loop cond body n s) = false := by
  induction n generalizing s with
  | zero =>
    cases hc : cond s with
    | false => exact ⟨hI, hc⟩
    | true =>
      have := (hstep s hI hc).2
      omega
  | succ n ih =>
    cases hc : cond s with
    | false =>
      rw [loop_done hc]
      exact ⟨hI, hc⟩
    | true =>
      obtain ⟨hI', hlt⟩ := hstep s hI hc
      rw [loop_step hc]
      exact ih hI' (by omega)

end Citrine.While
