import Mathlib.Data.List.Flatten
import Mathlib.Data.List.GetD
import Citrine.Lib.Splice

/-!
# A list in chunks

A list that is kept in chunks of at most one size: a chunk in front of another one is full, unless there is nothing in it and
in front of it (`Tidy`).  The chunks say where each of them starts (`startOf`).  A chunk that is replaced, or one that is put
behind the others, changes its part of the list only (`putChunk`), and the chunks in front of a place make the front of it.
-/

namespace Citrine

section
variable {α : Type} {cs : List (List α)} {b : List α} {i j o p m : Nat}

/-- Where a chunk starts. -/
def startOf (cs : List (List α)) (i : Nat) : Nat := (cs.take i).flatten.length

/-- A chunk, empty where there is none. -/
abbrev chunkAt (cs : List (List α)) (i : Nat) : List α := cs.getD i []

theorem startOf_zero : startOf cs 0 = 0 := rfl

theorem flatten_take_succ (h : i < cs.length) : (cs.take (i + 1)).flatten = (cs.take i).flatten ++ chunkAt cs i := by
  unfold chunkAt
  rw [List.take_succ_eq_append_getElem h, List.flatten_append, List.flatten_singleton, List.getD_eq_getElem _ _ h]

theorem startOf_succ (h : i < cs.length) : startOf cs (i + 1) = startOf cs i + (chunkAt cs i).length := by
  unfold startOf
  rw [flatten_take_succ h, List.length_append]

theorem startOf_length : startOf cs cs.length = cs.flatten.length := by
  unfold startOf
  rw [List.take_length]

theorem startOf_le (h : i ≤ j) : startOf cs i ≤ startOf cs j := (List.take_sublist_take_left h).flatten.length_le

theorem startOf_le_length : startOf cs i ≤ cs.flatten.length := (List.take_sublist i cs).flatten.length_le

/-- An element is in one chunk only. -/
theorem place_unique {q : Nat} (hi : i < cs.length) (hj : j < cs.length) (ho : o < (chunkAt cs i).length)
    (hq : q < (chunkAt cs j).length) (h : startOf cs i + o = startOf cs j + q) : i = j ∧ o = q := by
  have hnexti := startOf_succ hi
  have hnextj := startOf_succ hj
  rcases Nat.lt_trichotomy i j with hlt | rfl | hgt
  · have hle : startOf cs (i + 1) ≤ startOf cs j := startOf_le hlt
    omega
  · exact ⟨rfl, by omega⟩
  · have hle : startOf cs (j + 1) ≤ startOf cs i := startOf_le hgt
    omega

/-- The list from a place in a chunk on. -/
theorem drop_flatten (h : i < cs.length) (ho : o ≤ (chunkAt cs i).length) :
    cs.flatten.drop (startOf cs i + o) = (chunkAt cs i).drop o ++ (cs.drop (i + 1)).flatten := by
  have hsplit : cs.flatten = (cs.take i).flatten ++ (chunkAt cs i ++ (cs.drop (i + 1)).flatten) := by
    rw [← List.append_assoc, ← flatten_take_succ h, ← List.flatten_append, List.take_append_drop]
  rw [hsplit, startOf, List.drop_append, List.drop_eq_nil_of_le (by omega), Nat.add_sub_cancel_left, List.nil_append,
    List.drop_append_of_le_length ho]

/-- The list up to a place in a chunk. -/
theorem take_flatten (h : i < cs.length) (ho : o ≤ (chunkAt cs i).length) :
    cs.flatten.take (startOf cs i + o) = (cs.take i).flatten ++ (chunkAt cs i).take o := by
  have hsplit : cs.flatten = (cs.take i).flatten ++ (chunkAt cs i ++ (cs.drop (i + 1)).flatten) := by
    rw [← List.append_assoc, ← flatten_take_succ h, ← List.flatten_append, List.take_append_drop]
  rw [hsplit, startOf, List.take_append, List.take_of_length_le (by omega), Nat.add_sub_cancel_left,
    List.take_append_of_le_length ho]

/-! ### A chunk is put in its place -/

/-- A chunk is replaced, or put behind the others. -/
def putChunk (cs : List (List α)) (p : Nat) (b : List α) : List (List α) := cs.take p ++ b :: cs.drop (p + 1)

theorem putChunk_set (h : p < cs.length) : putChunk cs p b = cs.set p b := (List.set_eq_take_append_cons_drop ▸ if_pos h).symm

theorem putChunk_append : putChunk cs cs.length b = cs ++ [b] := by
  unfold putChunk
  rw [List.take_length, List.drop_eq_nil_of_le (by omega)]

theorem putChunk_self (h : p < cs.length) : putChunk cs p (chunkAt cs p) = cs := by
  unfold chunkAt
  rw [putChunk_set h, List.getD_eq_getElem _ _ h, List.set_getElem_self]

theorem flatten_putChunk : (putChunk cs p b).flatten = (cs.take p).flatten ++ (b ++ (cs.drop (p + 1)).flatten) := by
  unfold putChunk
  rw [List.flatten_append, List.flatten_cons]

theorem length_putChunk (h : p ≤ cs.length) : (putChunk cs p b).length = max cs.length (p + 1) := by
  unfold putChunk
  rw [List.length_append, List.length_take, List.length_cons, List.length_drop]
  omega

theorem chunkAt_putChunk (h : p ≤ cs.length) : chunkAt (putChunk cs p b) i = if i = p then b else chunkAt cs i := by
  have hlen : (cs.take p).length = p := by
    rw [List.length_take]
    omega
  unfold putChunk chunkAt
  rcases Nat.lt_trichotomy i p with hi | rfl | hi
  · rw [if_neg (by omega), List.getD_append _ _ _ _ (by omega), List.getD_eq_getElem?_getD, List.getD_eq_getElem?_getD,
      List.getElem?_take, if_pos hi]
  · rw [if_pos rfl, List.getD_append_right _ _ _ _ (by omega), hlen, Nat.sub_self, List.getD_cons_zero]
  · rw [if_neg (by omega), List.getD_append_right _ _ _ _ (by omega), hlen, List.getD_eq_getElem?_getD,
      List.getD_eq_getElem?_getD, show i - p = i - p - 1 + 1 by omega, List.getElem?_cons_succ, List.getElem?_drop]
    congr 2
    omega

theorem chunkAt_take (h : j < i) : chunkAt (cs.take i) j = chunkAt cs j := by
  unfold chunkAt
  rw [List.getD_eq_getElem?_getD, List.getD_eq_getElem?_getD, List.getElem?_take, if_pos h]

/-- What is behind the chunks in front of a place does not matter for them. -/
theorem chunkAt_take_append {l : List (List α)} (h : j < i) (hi : i ≤ cs.length) :
    chunkAt (cs.take i ++ l) j = chunkAt cs j := by
  have hlen : j < (cs.take i).length := by
    rw [List.length_take]
    omega
  exact (List.getD_append _ _ _ _ hlen).trans (chunkAt_take h)

theorem startOf_take_append {l : List (List α)} (h : j ≤ i) (hi : i ≤ cs.length) :
    startOf (cs.take i ++ l) j = startOf cs j := by
  unfold startOf
  rw [List.take_append_of_le_length (by rw [List.length_take]; omega), List.take_take, Nat.min_eq_left h]

/-- A chunk in front of a place is put there, whatever is behind the place. -/
theorem putChunk_take_append {l : List (List α)} (h : p < i) (hi : i ≤ cs.length) :
    putChunk (cs.take i ++ l) p b = (putChunk cs p b).take i ++ l := by
  have hlen : (cs.take i).length = i := by
    rw [List.length_take]
    omega
  rw [putChunk_set (by rw [List.length_append]; omega), putChunk_set (by omega), List.set_append_left _ _ (by omega),
    List.take_set]

theorem startOf_putChunk (h : p ≤ cs.length) (hi : i ≤ p) : startOf (putChunk cs p b) i = startOf cs i := by
  unfold startOf putChunk
  rw [List.take_append_of_le_length (by rw [List.length_take]; omega), List.take_take, Nat.min_eq_left hi]

/-- Behind a chunk that was replaced by one of the same length. -/
theorem startOf_putChunk_behind (h : p < cs.length) (hb : b.length = (chunkAt cs p).length) :
    startOf (putChunk cs p b) i = startOf cs i := by
  induction i with
  | zero => rfl
  | succ i ih =>
    by_cases hi : i < cs.length
    · have hlen := length_putChunk (b := b) (Nat.le_of_lt h)
      rw [startOf_succ hi, startOf_succ (by omega), ih, chunkAt_putChunk (Nat.le_of_lt h)]
      by_cases hip : i = p
      · rw [if_pos hip, hip, hb]
      · rw [if_neg hip]
    · have hlen := length_putChunk (b := b) (Nat.le_of_lt h)
      unfold startOf at ih ⊢
      rw [List.take_of_length_le (by omega), List.take_of_length_le (by omega)] at ih ⊢
      exact ih

end

/-! ### Full chunks -/

/-- No chunk is longer than `m`, and only the last one may be shorter, unless there is nothing up to its end. -/
structure Tidy {α : Type} (m : Nat) (cs : List (List α)) : Prop where
  some : cs ≠ []
  short : ∀ i, i < cs.length → (chunkAt cs i).length ≤ m
  full : ∀ i, i + 1 < cs.length → (chunkAt cs i).length = m ∨ startOf cs (i + 1) = 0

section
variable {α : Type} {cs : List (List α)} {b : List α} {i j o p m : Nat}

theorem tidy_singleton (h : b.length ≤ m) : Tidy m [b] := by
  refine ⟨List.cons_ne_nil _ _, fun i hi => ?_, fun i hi => ?_⟩
  · obtain rfl : i = 0 := Nat.lt_one_iff.1 hi
    exact h
  · rw [List.length_singleton] at hi
    omega

/-- A chunk with something in it that is not the last is full. -/
theorem Tidy.full_of (ht : Tidy m cs) (hi : i + 1 < cs.length) (ho : 0 < startOf cs (i + 1)) : (chunkAt cs i).length = m := by
  rcases ht.full i hi with h | h
  · exact h
  · omega

/-- There is something in a chunk behind another one unless all of the list is in front of it. -/
theorem Tidy.next (ht : Tidy m cs) (hm : 0 < m) (hstart : 0 < startOf cs i) (hmore : startOf cs i < cs.flatten.length) :
    i < cs.length ∧ 0 < (chunkAt cs i).length := by
  have hi : i < cs.length := by
    by_contra hle
    have hall : startOf cs i = cs.flatten.length := by
      unfold startOf
      rw [List.take_of_length_le (by omega)]
    omega
  refine ⟨hi, ?_⟩
  have hnext := startOf_succ hi
  by_cases hlast : i + 1 < cs.length
  · rw [ht.full_of hlast (by omega)]
    exact hm
  · rw [show i + 1 = cs.length by omega, startOf_length] at hnext
    omega

/-- The chunks in front of a place. -/
theorem Tidy.take (ht : Tidy m cs) (hi : 0 < i) : Tidy m (cs.take i) := by
  refine ⟨fun h => ?_, fun j hj => ?_, fun j hj => ?_⟩
  · rcases List.take_eq_nil_iff.1 h with h | h
    · omega
    · exact ht.some h
  · rw [List.length_take] at hj
    rw [chunkAt_take (by omega)]
    exact ht.short j (by omega)
  · rw [List.length_take] at hj
    have hstart : startOf (cs.take i) (j + 1) = startOf cs (j + 1) := by
      unfold startOf
      rw [List.take_take, Nat.min_eq_left (by omega)]
    rw [chunkAt_take (by omega), hstart]
    exact ht.full j (by omega)

/-- A chunk that is put in its place: full if there are others behind it, and behind a full one. -/
theorem Tidy.putChunk (ht : Tidy m cs) (hp : p ≤ cs.length) (hb : b.length ≤ m)
    (hfront : ∀ i, i + 1 = p → (chunkAt cs i).length = m ∨ startOf cs p = 0)
    (hback : p + 1 < cs.length → b.length = m ∧ (chunkAt cs p).length = m) : Tidy m (putChunk cs p b) := by
  have hlen := length_putChunk (b := b) hp
  refine ⟨fun h => ?_, fun i hi => ?_, fun i hi => ?_⟩
  · rw [h, List.length_nil] at hlen
    omega
  · rw [chunkAt_putChunk hp]
    split
    · exact hb
    · exact ht.short i (by omega)
  · rw [chunkAt_putChunk hp]
    by_cases hip : i = p
    · rw [if_pos hip]
      exact .inl (hback (by omega)).1
    · rw [if_neg hip]
      rcases Nat.lt_or_gt_of_ne hip with hlt | hgt
      · rw [startOf_putChunk hp (by omega)]
        by_cases hlast : i + 1 = p
        · rw [hlast]
          exact hfront i hlast
        · exact ht.full i (by omega)
      · obtain ⟨hfull, hold⟩ := hback (by omega)
        rw [startOf_putChunk_behind (by omega) (hfull.trans hold.symm)]
        exact ht.full i (by omega)

/-- A chunk behind the others. -/
theorem Tidy.append (ht : Tidy m cs) (hb : b.length ≤ m)
    (hlast : ∀ i, i + 1 = cs.length → (chunkAt cs i).length = m ∨ cs.flatten = []) : Tidy m (cs ++ [b]) := by
  rw [← putChunk_append]
  refine ht.putChunk (Nat.le_refl _) hb (fun i hi => ?_) fun h => absurd h (by omega)
  rcases hlast i hi with h | h
  · exact .inl h
  · rw [startOf_length, h]
    exact .inr rfl

/-- The chunks in front of one that is replaced by the last one. -/
theorem Tidy.cut (ht : Tidy m cs) (hi : i < cs.length) (hb : b.length ≤ m) : Tidy m (cs.take i ++ [b]) := by
  rcases Nat.eq_zero_or_pos i with rfl | hpos
  · exact tidy_singleton hb
  · refine (ht.take hpos).append hb fun j hj => ?_
    rw [List.length_take, Nat.min_eq_left (Nat.le_of_lt hi)] at hj
    subst hj
    rw [chunkAt_take (Nat.lt_succ_self j)]
    exact (ht.full j hi).imp id List.eq_nil_of_length_eq_zero

end

end Citrine
