/-!
# Systems of independent parts

A call goes to one of several parts, which have a state of their own each.  What a part makes of its calls is what it
makes of them alone (`run_own`, `results_own`).  A system with a state of its own acts as independent parts when each of
its steps does what the step of the part does (`Refines`); the calls of one part then have the results that they have
alone, as long as both runs meet the condition under which the system's steps do so (`Refines.alone`).
-/

namespace Citrine.Parts

variable {κ σ τ ε ρ : Type} [DecidableEq κ]

/-- What belongs to a part. -/
def own {α : Type} (k : κ) (es : List (κ × α)) : List (κ × α) := es.filter fun e => e.1 = k

private theorem own_mine {α : Type} {k : κ} {e : α} {es : List (κ × α)} : own k ((k, e) :: es) = (k, e) :: own k es :=
  List.filter_cons_of_pos (decide_eq_true rfl)

private theorem own_other {α : Type} {j k : κ} {e : α} {es : List (κ × α)} (h : ¬ j = k) :
    own k ((j, e) :: es) = own k es :=
  List.filter_cons_of_neg (by rw [decide_eq_true_eq]; exact h)

section parts
variable (call : σ → ε → σ × ρ)

/-- A call to a part. -/
def step (P : κ → σ) (k : κ) (e : ε) : κ → σ := fun j => if j = k then (call (P k) e).1 else P j

/-- The parts after a list of calls. -/
def run (P : κ → σ) : List (κ × ε) → κ → σ
  | [] => P
  | (k, e) :: es => run (step call P k e) es

/-- The results of a list of calls. -/
def results (P : κ → σ) : List (κ × ε) → List (κ × ρ)
  | [] => []
  | (k, e) :: es => (k, (call (P k) e).2) :: results (step call P k e) es

variable {call} {P Q : κ → σ} {k : κ} {es : List (κ × ε)}

private theorem step_own (h : P k = Q k) (e : ε) : step call P k e k = step call Q k e k := by
  unfold step
  rw [if_pos rfl, if_pos rfl, h]

private theorem step_other {j : κ} (h : P k = Q k) (hj : ¬ j = k) (e : ε) : step call P j e k = Q k := by
  unfold step
  rw [if_neg fun hkj => hj hkj.symm, h]

private theorem run_own_of_eq (h : P k = Q k) : run call P es k = run call Q (own k es) k := by
  induction es generalizing P Q with
  | nil => exact h
  | cons e es ih =>
    obtain ⟨j, e⟩ := e
    by_cases hj : j = k
    · subst hj
      rw [own_mine]
      exact ih (step_own h e)
    · rw [own_other hj]
      exact ih (step_other h hj e)

private theorem results_own_of_eq (h : P k = Q k) : own k (results call P es) = results call Q (own k es) := by
  induction es generalizing P Q with
  | nil => rfl
  | cons e es ih =>
    obtain ⟨j, e⟩ := e
    change own k ((j, (call (P j) e).2) :: results call (step call P j e) es) = _
    by_cases hj : j = k
    · subst hj
      rw [own_mine, own_mine, h, ih (step_own h e)]
      rfl
    · rw [own_other hj, own_other hj]
      exact ih (step_other h hj e)

/-- The state of a part depends on its own calls only. -/
theorem run_own : run call P es k = run call P (own k es) k := run_own_of_eq rfl

/-- The results of a part depend on its own calls only. -/
theorem results_own : own k (results call P es) = results call P (own k es) := results_own_of_eq rfl

end parts

/-! ### Systems that act as independent parts -/

section system
variable (sys : τ → κ → ε → Option (τ × ρ)) (ok : τ → κ → ε → Prop)

/-- The state and the results after a list of calls, `none` when one of them goes wrong. -/
def sysRun (s : τ) : List (κ × ε) → Option (τ × List (κ × ρ))
  | [] => some (s, [])
  | (k, e) :: es => (sys s k e).bind fun u => (sysRun u.1 es).map fun v => (v.1, (k, u.2) :: v.2)

/-- Every call comes in a state in which it meets the condition. -/
def Meets (s : τ) : List (κ × ε) → Prop
  | [] => True
  | (k, e) :: es => ok s k e ∧ ∀ u ∈ sys s k e, Meets u.1 es

instance decidableMeets [∀ s k e, Decidable (ok s k e)] :
    (s : τ) → (es : List (κ × ε)) → Decidable (Meets sys ok s es)
  | _, [] => inferInstanceAs (Decidable True)
  | s, (k, e) :: es =>
    have : ∀ u : τ × ρ, Decidable (Meets sys ok u.1 es) := fun u => decidableMeets u.1 es
    inferInstanceAs (Decidable (ok s k e ∧ ∀ u ∈ sys s k e, Meets sys ok u.1 es))

/-- In states that agree with the parts, a call that meets the condition does what the part's call does. -/
def Refines (call : σ → ε → σ × ρ) (R : τ → (κ → σ) → Prop) : Prop :=
  ∀ s P k e, R s P → ok s k e → ∃ t, sys s k e = some (t, (call (P k) e).2) ∧ R t (step call P k e)

variable {sys ok} {call : σ → ε → σ × ρ} {R : τ → (κ → σ) → Prop} {s : τ} {P : κ → σ} {es : List (κ × ε)}

theorem Refines.run (h : Refines sys ok call R) (hR : R s P) (hok : Meets sys ok s es) :
    ∃ t, sysRun sys s es = some (t, results call P es) ∧ R t (Parts.run call P es) := by
  induction es generalizing s P with
  | nil => exact ⟨s, rfl, hR⟩
  | cons e es ih =>
    obtain ⟨k, e⟩ := e
    obtain ⟨u, hu, hRu⟩ := h s P k e hR hok.1
    obtain ⟨t, ht, hRt⟩ := ih hRu (hok.2 _ (Option.mem_def.2 hu))
    refine ⟨t, ?_, hRt⟩
    unfold sysRun
    rw [hu, Option.bind_some, ht]
    rfl

/-- The calls of a part have the results that they have alone. -/
theorem Refines.alone (h : Refines sys ok call R) (hR : R s P) (k : κ) (hok : Meets sys ok s es)
    (hown : Meets sys ok s (own k es)) :
    ∃ t u rs, sysRun sys s es = some (t, rs) ∧ sysRun sys s (own k es) = some (u, own k rs) ∧
      R t (Parts.run call P es) ∧ R u (Parts.run call P (own k es)) := by
  obtain ⟨t, ht, hRt⟩ := h.run hR hok
  obtain ⟨u, hu, hRu⟩ := h.run hR hown
  exact ⟨t, u, _, ht, by rw [results_own]; exact hu, hRt, hRu⟩

end system

end Citrine.Parts
