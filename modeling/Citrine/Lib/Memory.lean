/-!
# Memories, linked lists and ring buffers

A memory gives a value to every address.  A linked list is followed along a memory of successors (`Chain`), and a
ring buffer is a window of a memory that is closed to a circle (`ring`).  What an operation on such a structure
does is a fact about the list that it holds.
-/

namespace Citrine

section
variable {ι α : Type} [DecidableEq ι]

/-- The memory with a new value at one address. -/
def write (f : ι → α) (i : ι) (v : α) : ι → α := fun j => if j = i then v else f j

@[simp] theorem write_same (f : ι → α) (i : ι) (v : α) : write f i v i = v := if_pos rfl

theorem write_other (f : ι → α) {i j : ι} (v : α) (h : j ≠ i) : write f i v j = f j := if_neg h

theorem write_self (f : ι → α) (i : ι) : write f i (f i) = f := by
  funext j
  unfold write
  split
  · rename_i h
    rw [h]
  · rfl

theorem write_comm (f : ι → α) {i j : ι} (h : i ≠ j) (a b : α) : write (write f i a) j b = write (write f j b) i a := by
  funext k
  unfold write
  by_cases hi : k = i
  · rw [if_pos hi, if_pos hi, if_neg fun hj => h (hi.symm.trans hj)]
  · rw [if_neg hi, if_neg hi]

theorem write_write (f : ι → α) (i : ι) (a b : α) : write (write f i a) i b = write f i b := by
  funext j
  unfold write
  split <;> rfl

end

/-! ### Linked lists -/

section
variable {ι : Type}

/-- The list that begins at an address and goes on along the successors. -/
def Chain (next : ι → Option ι) : Option ι → List ι → Prop
  | none, [] => True
  | some a, b :: l => a = b ∧ Chain next (next a) l
  | _, _ => False

variable {next next' : ι → Option ι} {a : ι} {head : Option ι} {l : List ι}

theorem Chain.nil : Chain next none [] := trivial

theorem Chain.cons (h : Chain next (next a) l) : Chain next (some a) (a :: l) := ⟨rfl, h⟩

/-- A list that is not empty begins with an address. -/
theorem Chain.of_cons (h : Chain next head (a :: l)) : head = some a ∧ Chain next (next a) l := by
  cases head with
  | none => exact h.elim
  | some b =>
    obtain ⟨rfl, h⟩ := h
    exact ⟨rfl, h⟩

theorem Chain.of_nil (h : Chain next head []) : head = none := by
  cases head with
  | none => rfl
  | some b => exact h.elim

/-- Only the successors of its own members matter to a list. -/
theorem Chain.congr (h : Chain next head l) (hn : ∀ b ∈ l, next' b = next b) : Chain next' head l := by
  induction l generalizing head with
  | nil =>
    rw [h.of_nil]
    exact .nil
  | cons b l ih =>
    obtain ⟨rfl, hrest⟩ := h.of_cons
    refine .cons ?_
    rw [hn b (List.mem_cons_self ..)]
    exact ih hrest fun c hc => hn c (List.mem_cons_of_mem _ hc)

variable [DecidableEq ι]

/-- A new member in front. -/
theorem Chain.push (h : Chain next head l) (ha : a ∉ l) : Chain (write next a head) (some a) (a :: l) := by
  refine .cons ?_
  rw [write_same]
  exact h.congr fun b hb => write_other _ _ fun hba => ha (hba ▸ hb)

end

/-! ### Ring buffers -/

/-- The position behind `p` in a ring of `m` slots. -/
def advance (m p : Nat) : Nat := if p + 1 ≥ m then 0 else p + 1

section
variable {α : Type} {slots : Nat → α} {m r k : Nat}

theorem advance_eq (h : r < m) : advance m r = (r + 1) % m := by
  unfold advance
  split
  · rw [show r + 1 = m by omega, Nat.mod_self]
  · rw [Nat.mod_eq_of_lt (by omega)]

theorem advance_lt (h : r < m) : advance m r < m := by
  rw [advance_eq h]
  exact Nat.mod_lt _ (by omega)

/-- The `k` values from position `r` on. -/
def ring (slots : Nat → α) (m r k : Nat) : List α := (List.range k).map fun i => slots ((r + i) % m)

@[simp] theorem ring_length : (ring slots m r k).length = k := by
  rw [ring, List.length_map, List.length_range]

@[simp] theorem ring_zero : ring slots m r 0 = [] := rfl

/-- The first value of a ring and the rest of it. -/
theorem ring_cons (h : r < m) : ring slots m r (k + 1) = slots r :: ring slots m (advance m r) k := by
  unfold ring
  rw [List.range_succ_eq_map, List.map_cons, List.map_map, Nat.add_zero, Nat.mod_eq_of_lt h]
  congr 1
  refine List.map_congr_left fun i _ => ?_
  rw [advance_eq h, Function.comp_apply, Nat.mod_add_mod]
  congr 2
  omega

/-- Writing behind the last value adds one. -/
theorem ring_push (v : α) (hk : k < m) :
    ring (write slots ((r + k) % m) v) m r (k + 1) = ring slots m r k ++ [v] := by
  unfold ring
  rw [List.range_succ, List.map_append, List.map_singleton, write_same]
  congr 1
  refine List.map_congr_left fun i hi => write_other _ _ fun h => ?_
  have hik : i < k := List.mem_range.1 hi
  have hsub : (r + k - (r + i)) % m = 0 := by
    rw [Nat.sub_mod_eq_zero_of_mod_eq h.symm]
  rw [Nat.mod_eq_of_lt (by omega)] at hsub
  omega

end

end Citrine
