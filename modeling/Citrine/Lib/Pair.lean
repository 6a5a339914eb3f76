/-!
# Two ends and their channels

Two ends send each other messages over channels that keep the order.  An end does something (`put`), and what it sends is
appended to its channel; or it takes the next message from the channel of the other one (`take`).  A property of the system
that looks the same from both ends has to be kept from the point of view of the end that acts and of the other one
(`Seen.put`).
-/

namespace Citrine

/-- Two ends with the messages that each of them has sent and that the other one has not taken yet. -/
structure Pair (σ μ : Type) where
  ends : Bool → σ
  chan : Bool → List μ

namespace Pair

variable {σ μ : Type}

/-- An end changes and sends some messages. -/
def put (s : Pair σ μ) (x : Bool) (e : σ) (o : List μ) : Pair σ μ where
  ends y := if y = x then e else s.ends y
  chan y := if y = x then s.chan y ++ o else s.chan y

/-- The next message for an end, and the system without it. -/
def take (s : Pair σ μ) (x : Bool) : Option (μ × Pair σ μ) :=
  match s.chan !x with
  | [] => none
  | m :: rest => some (m, { s with chan := fun y => if y = x then s.chan y else rest })

/-- A property of an end, the other one, what the first has sent and what the second has sent, from both points of view. -/
def Seen (J : Bool → σ → σ → List μ → List μ → Prop) (s : Pair σ μ) : Prop :=
  ∀ x, J x (s.ends x) (s.ends !x) (s.chan x) (s.chan !x)

variable {J : Bool → σ → σ → List μ → List μ → Prop} {s t : Pair σ μ} {x : Bool} {e : σ} {o : List μ} {m : μ}

@[simp] theorem put_ends : (s.put x e o).ends x = e := if_pos rfl

@[simp] theorem put_ends_other : (s.put x e o).ends (!x) = s.ends !x := if_neg (by cases x <;> exact nofun)

@[simp] theorem put_chan : (s.put x e o).chan x = s.chan x ++ o := if_pos rfl

@[simp] theorem put_chan_other : (s.put x e o).chan (!x) = s.chan !x := if_neg (by cases x <;> exact nofun)

/-- A message is the first one of the other channel, and the rest stays as it is. -/
theorem take_eq (h : s.take x = some (m, t)) :
    s.chan (!x) = m :: t.chan (!x) ∧ t.chan x = s.chan x ∧ t.ends = s.ends := by
  unfold take at h
  split at h
  · cases h
  · rename_i rest hc
    cases h
    exact ⟨by rw [hc]; simp, if_pos rfl, rfl⟩

/-- Both points of view, for the end that acts and for the other one. -/
theorem Seen.of_both (hx : J x (t.ends x) (t.ends !x) (t.chan x) (t.chan !x))
    (hy : J (!x) (t.ends !x) (t.ends x) (t.chan !x) (t.chan x)) : Seen J t := by
  intro y
  by_cases h : y = x
  · rw [h]
    exact hx
  · rw [Bool.eq_not_of_ne h, Bool.not_not]
    exact hy

/-- The point of view of the other end. -/
theorem Seen.other (h : Seen J s) (x : Bool) : J (!x) (s.ends !x) (s.ends x) (s.chan !x) (s.chan x) := by
  have := h !x
  rwa [Bool.not_not] at this

/-- An end acts. -/
theorem Seen.put (hx : J x e (s.ends !x) (s.chan x ++ o) (s.chan !x))
    (hy : J (!x) (s.ends !x) e (s.chan !x) (s.chan x ++ o)) : Seen J (s.put x e o) :=
  .of_both (x := x) (by rwa [put_ends, put_ends_other, put_chan, put_chan_other])
    (by rwa [put_ends, put_ends_other, put_chan, put_chan_other])

end Pair

end Citrine
