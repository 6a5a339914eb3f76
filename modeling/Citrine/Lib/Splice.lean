import Mathlib.Data.List.Basic

/-!
# Replacing a part of a list

A file is a list: writing to it replaces as many elements as are written, and makes it longer behind its end (`splice`).  A
file of records of one size is read record by record (`recordAt`); what is written inside one record leaves all others.
-/

namespace Citrine

section
variable {α : Type} {l d : List α} {p i : Nat}

/-- The list with the elements from a position on replaced. -/
def splice (l : List α) (p : Nat) (d : List α) : List α := l.take p ++ (d ++ l.drop (p + d.length))

theorem length_splice (h : p ≤ l.length) : (splice l p d).length = max l.length (p + d.length) := by
  unfold splice
  simp only [List.length_append, List.length_take, List.length_drop]
  omega

theorem getElem?_splice (h : p ≤ l.length) :
    (splice l p d)[i]? = if p ≤ i ∧ i < p + d.length then d[i - p]? else l[i]? := by
  have hlen : (l.take p).length = p := by
    rw [List.length_take]
    omega
  unfold splice
  by_cases hp : i < p
  · rw [List.getElem?_append_left (by omega), List.getElem?_take, if_pos hp, if_neg (by omega)]
  · rw [List.getElem?_append_right (by omega), hlen]
    by_cases hd : i < p + d.length
    · rw [List.getElem?_append_left (by omega), if_pos ⟨by omega, hd⟩]
    · rw [List.getElem?_append_right (by omega), List.getElem?_drop, if_neg (by omega)]
      congr 1
      omega

theorem splice_nil : splice l p [] = l := by
  unfold splice
  rw [List.length_nil, Nat.add_zero, List.nil_append, List.take_append_drop]

/-- Writing goes on where it has ended. -/
theorem splice_splice {e : List α} (h : p ≤ l.length) : splice (splice l p d) (p + d.length) e = splice l p (d ++ e) := by
  have hlen := length_splice (d := d) h
  refine List.ext_getElem? fun i => ?_
  rw [getElem?_splice (by omega), getElem?_splice h, getElem?_splice h, List.length_append]
  by_cases hd : i < p + d.length
  · rw [if_neg (by omega)]
    by_cases hp : p ≤ i
    · rw [if_pos ⟨hp, hd⟩, if_pos ⟨hp, by omega⟩, List.getElem?_append_left (by omega)]
    · rw [if_neg (by omega), if_neg (by omega)]
  · by_cases he : i < p + d.length + e.length
    · rw [if_pos ⟨by omega, he⟩, if_pos ⟨by omega, by omega⟩, List.getElem?_append_right (by omega)]
      congr 1
      omega
    · rw [if_neg (by omega), if_neg (by omega), if_neg (by omega)]

/-- Writing to a part of a list that is long enough, or the last one. -/
theorem splice_middle {a c : List α} (h : p ≤ l.length) (hfits : p + d.length ≤ l.length ∨ c = []) :
    splice (a ++ (l ++ c)) (a.length + p) d = a ++ (splice l p d ++ c) := by
  unfold splice
  rw [List.take_append, List.take_of_length_le (by omega), Nat.add_sub_cancel_left, List.take_append_of_le_length h,
    List.drop_append, List.drop_eq_nil_of_le (show a.length ≤ a.length + p + d.length by omega), List.nil_append,
    show a.length + p + d.length - a.length = p + d.length by omega]
  rcases hfits with hfits | rfl
  · rw [List.drop_append_of_le_length hfits]
    simp only [List.append_assoc]
  · simp only [List.append_assoc, List.append_nil]

/-- The front of a list that is written to. -/
theorem take_splice {n : Nat} (h : p ≤ n) (hfits : p + d.length ≤ l.length) :
    (splice l p d).take (max n (p + d.length)) = splice (l.take n) p d := by
  refine List.ext_getElem? fun i => ?_
  rw [List.getElem?_take, getElem?_splice (by omega), getElem?_splice (by rw [List.length_take]; omega), List.getElem?_take]
  by_cases hin : p ≤ i ∧ i < p + d.length
  · rw [if_pos hin, if_pos hin, if_pos (by omega)]
  · rw [if_neg hin, if_neg hin]
    by_cases hn : i < n
    · rw [if_pos hn, if_pos (by omega)]
    · rw [if_neg hn]
      split
      · omega
      · rfl

end

/-! ### Records of one size -/

section
variable {α : Type} {size r q o : Nat} {l d : List α}

/-- A record of a file. -/
def recordAt (size : Nat) (l : List α) (r : Nat) : List α := (l.drop (r * size)).take size

theorem getElem?_recordAt (i : Nat) : (recordAt size l r)[i]? = if i < size then l[r * size + i]? else none := by
  unfold recordAt
  rw [List.getElem?_take, List.getElem?_drop]

theorem length_recordAt (h : (r + 1) * size ≤ l.length) : (recordAt size l r).length = size := by
  unfold recordAt
  rw [Nat.add_mul, Nat.one_mul] at h
  rw [List.length_take, List.length_drop]
  omega

/-- Writing inside a record replaces a part of it. -/
theorem recordAt_splice_same (hr : (r + 1) * size ≤ l.length) (hd : o + d.length ≤ size) :
    recordAt size (splice l (r * size + o) d) r = splice (recordAt size l r) o d := by
  have hlen := length_recordAt hr
  rw [Nat.add_mul, Nat.one_mul] at hr
  refine List.ext_getElem? fun i => ?_
  rw [getElem?_recordAt, getElem?_splice (by omega), getElem?_splice (by omega), getElem?_recordAt]
  by_cases hi : i < size
  · simp only [if_pos hi]
    by_cases hin : o ≤ i ∧ i < o + d.length
    · rw [if_pos (by omega), if_pos hin]
      congr 1
      omega
    · rw [if_neg (by omega), if_neg hin]
  · rw [if_neg hi, if_neg (by omega), if_neg hi]

/-- Writing inside a record leaves the others. -/
theorem recordAt_splice_other (hne : q ≠ r) (hp : r * size + o ≤ l.length) (hd : o + d.length ≤ size) :
    recordAt size (splice l (r * size + o) d) q = recordAt size l q := by
  refine List.ext_getElem? fun i => ?_
  rw [getElem?_recordAt, getElem?_recordAt, getElem?_splice hp]
  by_cases hi : i < size
  · rw [if_pos hi, if_pos hi, if_neg]
    rcases Nat.lt_or_gt_of_ne hne with h | h
    · have := Nat.mul_le_mul_right size (Nat.succ_le_of_lt h)
      rw [Nat.succ_mul] at this
      omega
    · have := Nat.mul_le_mul_right size (Nat.succ_le_of_lt h)
      rw [Nat.succ_mul] at this
      omega
  · rw [if_neg hi, if_neg hi]

/-- A whole record that is written, maybe behind the end of the file. -/
theorem recordAt_splice_whole (hp : r * size ≤ l.length) (hd : d.length = size) :
    recordAt size (splice l (r * size) d) r = d := by
  refine List.ext_getElem? fun i => ?_
  rw [getElem?_recordAt, getElem?_splice hp]
  by_cases hi : i < size
  · rw [if_pos hi, if_pos (by omega), Nat.add_sub_cancel_left]
  · rw [if_neg hi, List.getElem?_eq_none (by omega)]

end

end Citrine
