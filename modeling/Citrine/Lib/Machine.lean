/-!
# Machines and their runs

A machine is given by its initial states and a partial step function on a type of events; a step that is not
enabled gives `none`.  `Reach ok` are the states of the runs whose steps all meet `ok`, and an invariant of
such runs needs a proof for the initial states and one for a single step (`Reach.invariant`).  Runs on given
events can be evaluated (`run`).
-/

namespace Citrine

/-- A labelled transition system with a deterministic, partial step function. -/
structure Machine (σ ε : Type) where
  init : σ → Prop
  step : σ → ε → Option σ

namespace Machine

variable {σ ε : Type} (M : Machine σ ε)

/-- The states of the runs from an initial state whose steps all meet `ok`. -/
inductive Reach (ok : σ → ε → Bool) : σ → Prop where
  | init {s : σ} : M.init s → Reach ok s
  | step {s t : σ} {e : ε} : Reach ok s → ok s e → M.step s e = some t → Reach ok t

/-- The state after a list of events, `none` when one of them is not enabled or does not meet `ok`. -/
def run (ok : σ → ε → Bool) (s : σ) : List ε → Option σ
  | [] => some s
  | e :: es => if ok s e then (M.step s e).bind fun t => run ok t es else none

variable {M}

/-- What holds initially and is kept by every step that meets `ok` holds in every state of the runs. -/
theorem Reach.invariant {ok : σ → ε → Bool} {I : σ → Prop} (hinit : ∀ s, M.init s → I s)
    (hstep : ∀ s e t, I s → ok s e → M.step s e = some t → I t) {s : σ} (h : M.Reach ok s) : I s := by
  induction h with
  | init h => exact hinit _ h
  | step _ hok hs ih => exact hstep _ _ _ ih hok hs

/-- The state after a run is reachable. -/
theorem Reach.of_run {ok : σ → ε → Bool} {s t : σ} (hs : M.Reach ok s) {es : List ε}
    (h : M.run ok s es = some t) : M.Reach ok t := by
  induction es generalizing s with
  | nil =>
    simp only [run, Option.some.injEq] at h
    exact h ▸ hs
  | cons e es ih =>
    simp only [run] at h
    split at h
    · rename_i hok
      rw [Option.bind_eq_some_iff] at h
      obtain ⟨u, hu, h⟩ := h
      exact ih (.step hs hok hu) h
    · cases h

end Machine

end Citrine
