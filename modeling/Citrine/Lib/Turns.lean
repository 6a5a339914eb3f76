import Mathlib.Data.Set.Insert

/-!
# Turns by deadlines

Tasks wait for a turn.  A task that begins to wait gets a deadline, its share behind the time at which it begins, and
a turn moves the clock to the deadline of the task that gets it.  When the turn always goes to a task with the earliest
deadline, the clock never passes the deadline of a task that waits (`Turns.Kept`), whichever tasks join meanwhile.  What
a task still has to wait can be read off clocks that wrap, as long as the shares are smaller than their range
(`left_wrapped`).
-/

namespace Citrine

/-- The tasks that wait, with the times at which they began to. -/
structure Turns (ι : Type) where
  now : Nat
  waiting : Set ι
  since : ι → Nat

namespace Turns

variable {ι : Type} [DecidableEq ι]

/-- The deadline of a task. -/
def due (share : ι → Nat) (t : Turns ι) (i : ι) : Nat := t.since i + share i

/-- A task begins to wait, or does so once more. -/
def join (t : Turns ι) (i : ι) : Turns ι :=
  { t with waiting := insert i t.waiting, since := fun j => if j = i then t.now else t.since j }

/-- A task waits no longer. -/
def leave (t : Turns ι) (i : ι) : Turns ι := { t with waiting := t.waiting \ {i} }

/-- A task gets a turn. -/
def serve (share : ι → Nat) (t : Turns ι) (i : ι) : Turns ι := { t with now := t.due share i }

/-- No task waits beyond its deadline. -/
def Kept (share : ι → Nat) (t : Turns ι) : Prop := ∀ i ∈ t.waiting, t.since i ≤ t.now ∧ t.now ≤ t.due share i

/-- The task waits and no other one has an earlier deadline. -/
def Earliest (share : ι → Nat) (t : Turns ι) (i : ι) : Prop :=
  i ∈ t.waiting ∧ ∀ j ∈ t.waiting, t.due share i ≤ t.due share j

variable {share : ι → Nat} {t : Turns ι} {i : ι}

theorem Kept.join (h : t.Kept share) (i : ι) : (t.join i).Kept share := by
  intro j hj
  unfold Turns.join due
  by_cases hji : j = i
  · simp only [if_pos hji]
    omega
  · simp only [if_neg hji]
    exact h j ((Set.mem_insert_iff.1 hj).resolve_left hji)

omit [DecidableEq ι] in
theorem Kept.leave (h : t.Kept share) (i : ι) : (t.leave i).Kept share := fun j hj => h j hj.1

omit [DecidableEq ι] in
/-- The earliest deadline may come. -/
theorem Kept.serve (h : t.Kept share) (hi : t.Earliest share i) : (t.serve share i).Kept share := by
  intro j hj
  have hsince := (h j hj).1
  have hnow := (h i hi.1).2
  exact ⟨hsince.trans hnow, hi.2 j hj⟩

end Turns

/-- The time left until a deadline, from the readings of a clock that wraps. -/
theorem left_wrapped {m now due : Nat} (hle : now ≤ due) (hlt : due < now + m) :
    (due % m + m - now % m) % m = due - now := by
  obtain ⟨k, rfl⟩ := Nat.exists_eq_add_of_le hle
  have hmod := Nat.mod_lt now (show m > 0 by omega)
  have hadd : (now + k) % m = (now % m + k) % m := (Nat.mod_add_mod now m k).symm
  rw [hadd, Nat.add_sub_cancel_left]
  by_cases hwrap : now % m + k < m
  · have hk : now % m + k + m - now % m = k + m := by omega
    rw [Nat.mod_eq_of_lt hwrap, hk, Nat.add_mod_right, Nat.mod_eq_of_lt (by omega)]
  · have hk : now % m + k - m + m - now % m = k := by omega
    have hred : (now % m + k) % m = now % m + k - m := by
      rw [Nat.mod_eq_sub_mod (Nat.le_of_not_lt hwrap), Nat.mod_eq_of_lt (by omega)]
    rw [hred, hk, Nat.mod_eq_of_lt (by omega)]

end Citrine
