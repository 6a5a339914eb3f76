/-!
# Loops that may not end

A loop is a step that either goes on from a new state or leaves with a result.  The loop ends when a measure into a
well-founded order decreases with every step (`Loop.ends`), and it does not end when a state comes
back to itself (`Loop.runs_of_cycle`).
-/

namespace Citrine

namespace Loop

variable {σ ε : Type}

/-- The state after `n` rounds, or the result with which the loop was left. -/
def after (step : σ → Except ε σ) : Nat → σ → Except ε σ
  | 0, s => .ok s
  | n + 1, s =>
    match step s with
    | .ok t => after step n t
    | .error e => .error e

variable {step : σ → Except ε σ}

theorem after_succ {s t : σ} (h : step s = .ok t) (n : Nat) : after step (n + 1) s = after step n t := by
  change (match step s with | .ok t => after step n t | .error e => .error e) = _
  rw [h]

private theorem after_left {s : σ} {e : ε} (h : step s = .error e) (n : Nat) : after step (n + 1) s = .error e := by
  change (match step s with | .ok t => after step n t | .error e => .error e) = _
  rw [h]

theorem after_add (m n : Nat) {s t : σ} (h : after step m s = .ok t) : after step (m + n) s = after step n t := by
  induction m generalizing s with
  | zero =>
    obtain rfl := Except.ok.inj h
    rw [Nat.zero_add]
  | succ m ih =>
    cases hs : step s with
    | error e =>
      rw [after_left hs] at h
      cases h
    | ok u =>
      rw [after_succ hs] at h
      rw [Nat.add_right_comm, after_succ hs, ih h]

/-- A loop ends when every step that meets `ok` keeps an invariant and decreases a measure. -/
theorem ends {α : Type} {r : α → α → Prop} (hr : WellFounded r) (m : σ → α) {I ok : σ → Prop}
    (hstep : ∀ s t, I s → ok s → ok t → step s = .ok t → I t ∧ r (m t) (m s)) {s : σ} (hI : I s)
    (hok : ∀ n t, after step n s = .ok t → ok t) : ∃ n e, after step n s = .error e := by
  generalize ha : m s = a
  induction a using hr.induction generalizing s with
  | _ a ih =>
    cases hs : step s with
    | error e => exact ⟨1, e, after_left hs 0⟩
    | ok t =>
      have hokt : ∀ n u, after step n t = .ok u → ok u := by
        intro n u hu
        rw [← after_succ hs] at hu
        exact hok (n + 1) u hu
      obtain ⟨hIt, hlt⟩ := hstep s t hI (hok 0 s rfl) (hokt 0 t rfl) hs
      obtain ⟨n, e, hn⟩ := ih (m t) (ha ▸ hlt) hIt hokt rfl
      exact ⟨n + 1, e, by rw [after_succ hs, hn]⟩

/-- A loop that was left stays left. -/
theorem after_error (m d : Nat) {e : ε} {s : σ} (h : after step m s = .error e) :
    after step (m + d) s = .error e := by
  induction m generalizing s with
  | zero => cases h
  | succ m ih =>
    rw [Nat.add_right_comm]
    cases hs : step s with
    | error e' =>
      rw [after_left hs] at h ⊢
      exact h
    | ok t =>
      rw [after_succ hs] at h ⊢
      exact ih h

/-- A loop that comes to a state and back to it does not end. -/
theorem runs_of_cycle {m k : Nat} (hk : 0 < k) {s t : σ} (hs : after step m s = .ok t) (ht : after step k t = .ok t)
    (n : Nat) : ∃ u, after step n s = .ok u := by
  have hmul : ∀ q, after step (m + k * q) s = .ok t := by
    intro q
    rw [after_add _ _ hs]
    induction q with
    | zero => rfl
    | succ q ih => rw [Nat.mul_succ, after_add _ _ ih, ht]
  have hle : n ≤ m + k * n := Nat.le_trans (Nat.le_mul_of_pos_left n hk) (Nat.le_add_left ..)
  cases hn : after step n s with
  | ok u => exact ⟨u, rfl⟩
  | error e =>
    have hkn := after_error n (m + k * n - n) hn
    rw [Nat.add_sub_cancel' hle, hmul n] at hkn
    cases hkn

/-- A state that is reached is reached in fewer rounds than the loop takes. -/
theorem lt_of_after {m n : Nat} {e : ε} {s t : σ} (hm : after step m s = .error e) (hn : after step n s = .ok t) :
    n < m := by
  induction m generalizing n s with
  | zero => cases hm
  | succ m ih =>
    cases n with
    | zero => exact Nat.succ_pos m
    | succ n =>
      cases hs : step s with
      | error e' =>
        rw [after_left hs] at hn
        cases hn
      | ok u =>
        rw [after_succ hs] at hm hn
        exact Nat.succ_lt_succ (ih hm hn)

section comes
variable {s t u : σ} {e e' : ε}

variable (step) in
/-- The loop comes from one state to another. -/
def Comes (s t : σ) : Prop := ∃ n, after step n s = .ok t

variable (step) in
/-- The loop is left with a result. -/
def Ends (s : σ) (e : ε) : Prop := ∃ n, after step n s = .error e

theorem Comes.refl (s : σ) : Comes step s s := ⟨0, rfl⟩

theorem Comes.head (h : step s = .ok t) (ht : Comes step t u) : Comes step s u := by
  obtain ⟨n, hn⟩ := ht
  exact ⟨n + 1, by rw [after_succ h, hn]⟩

theorem Comes.trans (h : Comes step s t) (ht : Comes step t u) : Comes step s u := by
  obtain ⟨m, hm⟩ := h
  obtain ⟨n, hn⟩ := ht
  exact ⟨m + n, by rw [after_add m n hm, hn]⟩

theorem Ends.of_error (h : step s = .error e) : Ends step s e := ⟨1, after_left h 0⟩

/-- A loop that comes to a state ends as it does from there. -/
theorem Comes.ends_iff (h : Comes step s t) : Ends step s e ↔ Ends step t e := by
  obtain ⟨m, hm⟩ := h
  constructor
  · rintro ⟨n, hn⟩
    have hlt := lt_of_after hn hm
    refine ⟨n - m, ?_⟩
    rw [← after_add m (n - m) hm, Nat.add_sub_cancel' (Nat.le_of_lt hlt), hn]
  · rintro ⟨n, hn⟩
    exact ⟨m + n, by rw [after_add m n hm, hn]⟩

/-- A loop ends in one way only. -/
theorem Ends.unique (h : Ends step s e) (h' : Ends step s e') : e = e' := by
  obtain ⟨m, hm⟩ := h
  obtain ⟨n, hn⟩ := h'
  have hm' := after_error m n hm
  have hn' := after_error n m hn
  rw [Nat.add_comm, hn'] at hm'
  exact (Except.error.inj hm').symm

theorem not_ends_of_cycle (h : step s = .ok s) : ¬Ends step s e := by
  rintro ⟨n, hn⟩
  have hcycle : after step 1 s = .ok s := after_succ h 0
  obtain ⟨u, hu⟩ := runs_of_cycle Nat.one_pos (rfl : after step 0 s = .ok s) hcycle n
  rw [hn] at hu
  cases hu

end comes

end Loop

end Citrine
