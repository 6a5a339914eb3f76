/-!
# Ring buffers

A buffer of `depth` slots that is written at one index and read at another, both going round.  One slot stays free,
so that equal indices mean an empty buffer.  `Holds` says that the slots from the read index on hold a list; an
element is pushed at the write index (`Holds.push`) and popped at the read index (`Holds.pop`), the buffer is empty
if and only if the indices are equal (`Holds.empty_iff`), and it has room if and only if the write index does not run
into the read index (`Holds.full_iff`).

When the elements are counted apart from the indices all slots can be used: `Filled` says that the slots from an index on
hold a list, the slot behind the list being given by its length.
-/

namespace Citrine.RingBuffer

variable {α : Type}

/-- The index behind an index. -/
def next (depth i : Nat) : Nat := if i + 1 = depth then 0 else i + 1

/-- The slot `k` places behind an index. -/
def place (depth i k : Nat) : Nat := if i + k < depth then i + k else i + k - depth

theorem place_lt {depth i k : Nat} (hi : i < depth) (hk : k < depth) : place depth i k < depth := by
  unfold place
  split <;> omega

theorem place_zero {depth i : Nat} (hi : i < depth) : place depth i 0 = i := if_pos hi

theorem next_lt {depth i : Nat} (hi : i < depth) : next depth i < depth := by
  unfold next
  split <;> omega

theorem next_place {depth i k : Nat} (hi : i < depth) (hk : k < depth) :
    next depth (place depth i k) = if k + 1 = depth then i else place depth i (k + 1) := by
  unfold next place
  split <;> split <;> split <;> (try split) <;> omega

theorem place_next {depth i k : Nat} (hk : k + 1 < depth) :
    place depth (next depth i) k = place depth i (k + 1) := by
  unfold next place
  split <;> split <;> split <;> omega

theorem place_inj {depth i k l : Nat} (hk : k < depth) (hl : l < depth)
    (h : place depth i k = place depth i l) : k = l := by
  unfold place at h
  split at h <;> split at h <;> omega

/-- The slots from the index `ri` on hold a list, and `wi` is the index behind it. -/
structure Holds (slot : Nat → α) (depth ri wi : Nat) (l : List α) : Prop where
  ri_lt : ri < depth
  length_lt : l.length < depth
  wi_eq : wi = place depth ri l.length
  get : ∀ k, (h : k < l.length) → slot (place depth ri k) = l[k]

variable {slot : Nat → α} {depth ri wi : Nat} {l : List α} {a : α}

theorem Holds.wi_lt (h : Holds slot depth ri wi l) : wi < depth := by
  rw [h.wi_eq]
  exact place_lt h.ri_lt h.length_lt

theorem holds_nil (h : 0 < depth) : Holds slot depth 0 0 [] :=
  ⟨h, h, (place_zero h).symm, fun _ hk => absurd hk (Nat.not_lt_zero _)⟩

theorem Holds.empty_iff (h : Holds slot depth ri wi l) : ri = wi ↔ l = [] := by
  have hw := h.wi_eq
  have hl := h.length_lt
  constructor
  · intro he
    have hp : place depth ri 0 = place depth ri l.length := by rw [place_zero h.ri_lt, ← hw, he]
    exact List.length_eq_zero_iff.1 (place_inj (by omega) hl hp).symm
  · rintro rfl
    rw [hw]
    exact (place_zero h.ri_lt).symm

theorem Holds.full_iff (h : Holds slot depth ri wi l) : ri = next depth wi ↔ l.length + 1 = depth := by
  rw [h.wi_eq, next_place h.ri_lt h.length_lt]
  split
  · rename_i hf
    exact ⟨fun _ => hf, fun _ => rfl⟩
  · rename_i hf
    refine ⟨fun he => ?_, fun hc => absurd hc hf⟩
    have hlen := h.length_lt
    have hp : place depth ri 0 = place depth ri (l.length + 1) := by rw [place_zero h.ri_lt, ← he]
    have := place_inj (by omega) (by omega) hp
    omega

/-- An element is written into the slot at the write index. -/
theorem Holds.push (f : Nat → α) (h : Holds slot depth ri wi l) (hr : l.length + 1 < depth) (ha : f wi = a)
    (hs : ∀ i, i ≠ wi → f i = slot i) : Holds f depth ri (next depth wi) (l ++ [a]) := by
  refine ⟨h.ri_lt, by simpa using hr, ?_, fun k hk => ?_⟩
  · rw [h.wi_eq, next_place h.ri_lt h.length_lt, if_neg (by omega)]
    simp
  · simp only [List.length_append, List.length_singleton] at hk
    by_cases hkl : k < l.length
    · have hne : place depth ri k ≠ wi := by
        intro he
        rw [h.wi_eq] at he
        have := place_inj (by omega) h.length_lt he
        omega
      rw [hs _ hne, h.get k hkl, List.getElem_append_left hkl]
    · have hk' : k = l.length := by omega
      subst hk'
      rw [← h.wi_eq, ha]
      simp

/-- The first element is read from the slot at the read index. -/
theorem Holds.pop (h : Holds slot depth ri wi (a :: l)) :
    slot ri = a ∧ Holds slot depth (next depth ri) wi l := by
  have hlen := h.length_lt
  simp only [List.length_cons] at hlen
  have hfirst := h.get 0 (by simp)
  rw [place_zero h.ri_lt] at hfirst
  refine ⟨hfirst, next_lt h.ri_lt, by omega, ?_, fun k hk => ?_⟩
  · rw [place_next hlen, h.wi_eq]
    rfl
  · rw [place_next (by omega), h.get (k + 1) (by simp; omega)]
    rfl

/-! ### Counted elements -/

/-- The slots from an index on hold a list. -/
structure Filled (slot : Nat → α) (depth ri : Nat) (l : List α) : Prop where
  ri_lt : ri < depth
  length_le : l.length ≤ depth
  get : ∀ k, (h : k < l.length) → slot (place depth ri k) = l[k]

theorem filled_nil (h : 0 < depth) : Filled slot depth 0 [] :=
  ⟨h, Nat.zero_le _, fun _ hk => absurd hk (Nat.not_lt_zero _)⟩

theorem next_place_counted {depth i k : Nat} (hi : i < depth) (hk : k < depth) :
    next depth (place depth i k) = place depth i (k + 1) := by
  unfold next place
  split <;> split <;> split <;> omega

/-- An element is written into the slot behind the list. -/
theorem Filled.push (f : Nat → α) (h : Filled slot depth ri l) (hr : l.length < depth)
    (ha : f (place depth ri l.length) = a) (hs : ∀ i, i ≠ place depth ri l.length → f i = slot i) :
    Filled f depth ri (l ++ [a]) := by
  refine ⟨h.ri_lt, by rw [List.length_append, List.length_singleton]; exact hr, fun k hk => ?_⟩
  simp only [List.length_append, List.length_singleton] at hk
  by_cases hkl : k < l.length
  · have hne : place depth ri k ≠ place depth ri l.length := by
      intro he
      have := place_inj (by omega) hr he
      omega
    rw [hs _ hne, h.get k hkl, List.getElem_append_left hkl]
  · have hk' : k = l.length := by omega
    subst hk'
    rw [ha]
    simp

/-- The first element is read and its slot released. -/
theorem Filled.pop (f : Nat → α) (h : Filled slot depth ri (a :: l)) (hs : ∀ i, i ≠ ri → f i = slot i) :
    slot ri = a ∧ Filled f depth (next depth ri) l := by
  have hlen := h.length_le
  rw [List.length_cons] at hlen
  have hfirst := h.get 0 (by simp)
  rw [place_zero h.ri_lt] at hfirst
  refine ⟨hfirst, next_lt h.ri_lt, by omega, fun k hk => ?_⟩
  have hne : place depth ri (k + 1) ≠ ri := by
    intro he
    have hzero : place depth ri (k + 1) = place depth ri 0 := by rw [place_zero h.ri_lt, he]
    have := place_inj (by omega) (by omega) hzero
    omega
  rw [place_next (by omega), hs _ hne, h.get (k + 1) (by simp; omega)]
  rfl

/-- An element is written in place of another one. -/
theorem Filled.set {b : α} {m : List α} (f : Nat → α) (h : Filled slot depth ri (l ++ a :: m))
    (hb : f (place depth ri l.length) = b) (hs : ∀ i, i ≠ place depth ri l.length → f i = slot i) :
    Filled f depth ri (l ++ b :: m) := by
  have hlen := h.length_le
  rw [List.length_append, List.length_cons] at hlen
  refine ⟨h.ri_lt, by rw [List.length_append, List.length_cons]; exact hlen, fun k hk => ?_⟩
  rw [List.length_append, List.length_cons] at hk
  by_cases hkl : k = l.length
  · subst hkl
    rw [hb]
    simp
  · have hne : place depth ri k ≠ place depth ri l.length := fun he => hkl (place_inj (by omega) (by omega) he)
    rw [hs _ hne, h.get k (by rw [List.length_append, List.length_cons]; exact hk)]
    by_cases hlt : k < l.length
    · rw [List.getElem_append_left hlt, List.getElem_append_left hlt]
    · obtain ⟨j, rfl⟩ : ∃ j, k = l.length + 1 + j := ⟨k - l.length - 1, by omega⟩
      simp [List.getElem_append_right, Nat.add_assoc, Nat.add_comm 1 j]

/-- The slot behind the list, once the first element is gone. -/
theorem Filled.place_pop (h : Filled slot depth ri (a :: l)) :
    place depth (next depth ri) l.length = place depth ri (a :: l).length := by
  have hlen := h.length_le
  have hri := h.ri_lt
  rw [List.length_cons] at hlen ⊢
  unfold next place
  split <;> split <;> split <;> omega

end Citrine.RingBuffer
