import Mathlib.Data.List.Nodup

/-!
# Lists of records with a key

A list of records is searched for a key (`find`), and the record with a key is replaced (`put`).  When every key occurs once
(`Distinct`), a record of the list is the one that is found.  Two lists of which one is the image of the other are searched
and changed alike.
-/

namespace Citrine.Keyed

variable {α β κ : Type} [DecidableEq κ] (key : α → κ)

/-- The first record with a key. -/
def find (k : κ) (l : List α) : Option α := l.find? fun a => decide (key a = k)

/-- The records with the key of `v` are replaced. -/
def put (v : α) (l : List α) : List α := l.map fun a => if key a = key v then v else a

/-- Every key occurs once. -/
def Distinct (l : List α) : Prop := (l.map key).Nodup

variable {key} {l : List α} {a b v : α} {k : κ}

theorem mem_of_find (h : find key k l = some a) : a ∈ l ∧ key a = k := by
  unfold find at h
  exact ⟨List.mem_of_find?_eq_some h, of_decide_eq_true (List.find?_some (p := fun a => decide (key a = k)) h)⟩

theorem find_none (h : find key k l = none) (ha : a ∈ l) : key a ≠ k := by
  intro hk
  unfold find at h
  exact List.find?_eq_none.1 h a ha (decide_eq_true hk)

omit [DecidableEq κ] in
theorem Distinct.eq (h : Distinct key l) (ha : a ∈ l) (hb : b ∈ l) (hk : key a = key b) : a = b :=
  List.inj_on_of_nodup_map h ha hb hk

theorem mem_put (h : b ∈ put key v l) : b = v ∨ (b ∈ l ∧ key b ≠ key v) := by
  obtain ⟨a, ha, hb⟩ := List.mem_map.1 h
  by_cases hk : key a = key v
  · rw [if_pos hk] at hb
    exact .inl hb.symm
  · rw [if_neg hk] at hb
    rw [← hb]
    exact .inr ⟨ha, hk⟩

/-- Putting a record of the list back changes nothing. -/
theorem Distinct.put_self (h : Distinct key l) (ha : a ∈ l) : Keyed.put key a l = l := by
  unfold Keyed.put
  refine (List.map_congr_left fun b hb => ?_).trans (List.map_id l)
  split
  · rename_i hk
    exact h.eq ha hb hk.symm
  · rfl

theorem put_mem (ha : a ∈ l) (hk : key a = key v) : v ∈ put key v l :=
  List.mem_map.2 ⟨a, ha, if_pos hk⟩

theorem put_keep (ha : a ∈ l) (hk : key a ≠ key v) : a ∈ put key v l :=
  List.mem_map.2 ⟨a, ha, if_neg hk⟩

theorem put_keys : (put key v l).map key = l.map key := by
  unfold put
  rw [List.map_map]
  refine List.map_congr_left fun a _ => ?_
  change key (if key a = key v then v else a) = key a
  split
  · rename_i h
    exact h.symm
  · rfl

theorem Distinct.put (h : Distinct key l) : Distinct key (put key v l) := by
  unfold Distinct
  rw [put_keys]
  exact h

/-- The first record with a key is taken out, and the key with it. -/
theorem eraseP_keys [BEq κ] [LawfulBEq κ] : (l.eraseP fun a => decide (key a = k)).map key =
    (l.map key).erase k := by
  induction l with
  | nil => rfl
  | cons a l ih =>
    by_cases ha : key a = k
    · rw [List.eraseP_cons_of_pos (by simpa using ha), List.map_cons, ha, List.erase_cons_head]
    · rw [List.eraseP_cons_of_neg (by simpa using ha), List.map_cons, List.map_cons, ih,
        List.erase_cons_tail (by simpa using ha)]

/-! ### Images -/

section
variable (key) (key' : β → κ) (f : α → β) (hf : ∀ a, key' (f a) = key a)
include hf

theorem find_map : find key' k (l.map f) = (find key k l).map f := by
  unfold find
  rw [List.find?_map]
  congr 2
  funext a
  change decide (key' (f a) = k) = _
  rw [hf]

theorem put_map : put key' (f v) (l.map f) = (put key v l).map f := by
  unfold put
  rw [List.map_map, List.map_map]
  refine List.map_congr_left fun a _ => ?_
  change (if key' (f a) = key' (f v) then f v else f a) = f (if key a = key v then v else a)
  rw [hf, hf]
  split <;> rfl

end

end Citrine.Keyed
