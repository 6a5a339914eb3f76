import Mathlib.Data.List.Perm.Subperm

/-!
# Tables of slots

A table is a list of slots, and each slot is free or holds an entry.  Entries are looked up by a key, changed in place,
released, and put into the first free slot.  With one entry for each key at most, such a table is a finite map
(`find_change`, `find_put`), and a slot is free as long as not all keys are in use (`put_isSome`).
-/

namespace Citrine

section
variable {α κ : Type}

/-- A table of slots. -/
abbrev Slots (α : Type) := List (Option α)

namespace Slots

/-- The first entry with a property. -/
def find (p : α → Bool) : Slots α → Option α
  | [] => none
  | none :: l => find p l
  | some a :: l => if p a then some a else find p l

/-- Writes the slot of the first entry with a property. -/
def change (p : α → Bool) (v : Option α) : Slots α → Slots α
  | [] => []
  | none :: l => none :: change p v l
  | some a :: l => if p a then v :: l else some a :: change p v l

/-- Puts an entry into the first free slot, if there is one. -/
def put (a : α) : Slots α → Option (Slots α)
  | [] => none
  | none :: l => some (some a :: l)
  | some b :: l => (put a l).map fun l => some b :: l

/-- The entries of a table. -/
def entries (l : Slots α) : List α := l.filterMap id

@[simp] theorem entries_some (a : α) (l : Slots α) : entries (some a :: l) = a :: entries l := rfl

section
variable {p : α → Bool} {v : Option α} {a : α} {l m : Slots α}

theorem length_change : (change p v l).length = l.length := by
  induction l with
  | nil => rfl
  | cons x l ih =>
    cases x with
    | none => exact congrArg (· + 1) ih
    | some b =>
      unfold change
      split
      · rfl
      · exact congrArg (· + 1) ih

theorem length_put (h : put a l = some m) : m.length = l.length := by
  induction l generalizing m with
  | nil => cases h
  | cons x l ih =>
    cases x with
    | none =>
      cases h
      rfl
    | some b =>
      unfold put at h
      obtain ⟨m', hm, rfl⟩ := Option.map_eq_some_iff.1 h
      exact congrArg (· + 1) (ih hm)

theorem find_some (h : find p l = some a) : a ∈ entries l ∧ p a := by
  induction l with
  | nil => cases h
  | cons x l ih =>
    cases x with
    | none => exact ih h
    | some b =>
      unfold find at h
      split at h
      · rename_i hb
        cases h
        exact ⟨List.mem_cons_self .., hb⟩
      · exact ⟨List.mem_cons_of_mem _ (ih h).1, (ih h).2⟩

theorem find_none : find p l = none ↔ ∀ a ∈ entries l, p a = false := by
  induction l with
  | nil => exact ⟨fun _ a ha => absurd ha List.not_mem_nil, fun _ => rfl⟩
  | cons x l ih =>
    cases x with
    | none => exact ih
    | some b =>
      rw [entries_some, List.forall_mem_cons, ← ih]
      change (if p b then some b else find p l) = none ↔ _
      by_cases hb : p b
      · rw [if_pos hb, hb]
        exact ⟨fun h => (by cases h), fun h => (by cases h.1)⟩
      · rw [if_neg hb]
        exact ⟨fun h => ⟨eq_false_of_ne_true hb, h⟩, fun h => h.2⟩

/-- A table without a free slot is full of entries. -/
theorem put_none (h : put a l = none) : (entries l).length = l.length := by
  induction l with
  | nil => rfl
  | cons x l ih =>
    cases x with
    | none => cases h
    | some b =>
      unfold put at h
      exact congrArg (· + 1) (ih (Option.map_eq_none_iff.1 h))

theorem entries_put (h : put a l = some m) : (entries m).Perm (a :: entries l) := by
  induction l generalizing m with
  | nil => cases h
  | cons x l ih =>
    cases x with
    | none =>
      cases h
      exact .refl _
    | some b =>
      unfold put at h
      obtain ⟨m', hm, rfl⟩ := Option.map_eq_some_iff.1 h
      exact ((ih hm).cons b).trans (.swap ..)

end

section
variable [DecidableEq κ] {key : α → κ} {k k' : κ} {a b : α} {v : Option α} {l m : Slots α}

/-- No two entries have the same key. -/
def Unique (key : α → κ) (l : Slots α) : Prop := (l.entries.map key).Nodup

/-- The entry with a key. -/
def lookup (key : α → κ) (k : κ) (l : Slots α) : Option α := find (fun a => key a = k) l

/-- Writes the slot with a key. -/
def assign (key : α → κ) (k : κ) (v : Option α) (l : Slots α) : Slots α := change (fun a => key a = k) v l

theorem lookup_cons (k : κ) (a : α) (l : Slots α) :
    lookup key k (some a :: l) = if key a = k then some a else lookup key k l := by
  unfold lookup
  rw [find]
  simp only [decide_eq_true_eq]

theorem assign_cons (k : κ) (v : Option α) (a : α) (l : Slots α) :
    assign key k v (some a :: l) = if key a = k then v :: l else some a :: assign key k v l := by
  unfold assign
  rw [change]
  simp only [decide_eq_true_eq]

theorem lookup_key (h : lookup key k l = some a) : key a = k := of_decide_eq_true (find_some h).2

theorem lookup_none : lookup key k l = none ↔ k ∉ l.entries.map key := by
  unfold lookup
  rw [find_none, List.mem_map]
  constructor
  · rintro h ⟨a, ha, hk⟩
    exact absurd hk (of_decide_eq_false (h a ha))
  · intro h a ha
    exact decide_eq_false fun hk => h ⟨a, ha, hk⟩

/-- The entries with other keys do not change. -/
theorem lookup_assign_other (hv : ∀ b, v = some b → key b = k) (hk : k' ≠ k) :
    lookup key k' (assign key k v l) = lookup key k' l := by
  induction l with
  | nil => rfl
  | cons x l ih =>
    cases x with
    | none => exact ih
    | some b =>
      rw [assign_cons, lookup_cons]
      split
      · rename_i hb
        rw [if_neg fun h => hk (h.symm.trans hb)]
        cases v with
        | none => rfl
        | some c => rw [lookup_cons, if_neg fun h => hk (h.symm.trans (hv c rfl))]
      · rw [lookup_cons, ih]

/-- The slot that is written. -/
theorem lookup_assign_same (hu : Unique key l) (hv : ∀ b, v = some b → key b = k) (h : lookup key k l ≠ none) :
    lookup key k (assign key k v l) = v := by
  induction l with
  | nil => exact absurd rfl h
  | cons x l ih =>
    cases x with
    | none => exact ih hu h
    | some b =>
      unfold Unique at hu
      rw [entries_some, List.map_cons, List.nodup_cons] at hu
      rw [lookup_cons] at h
      rw [assign_cons]
      split
      · rename_i hb
        cases v with
        | none => exact lookup_none.2 (hb ▸ hu.1)
        | some c => rw [lookup_cons, if_pos (hv c rfl)]
      · rename_i hb
        rw [if_neg hb] at h
        rw [lookup_cons, if_neg hb]
        exact ih hu.2 h

private theorem entries_assign (hv : ∀ b, v = some b → key b = k) :
    ((assign key k v l).entries.map key).Sublist (l.entries.map key) := by
  induction l with
  | nil => exact .slnil
  | cons x l ih =>
    cases x with
    | none => exact ih
    | some b =>
      rw [assign_cons]
      split
      · rename_i hb
        cases v with
        | none => exact .cons _ (.refl _)
        | some c =>
          rw [entries_some, entries_some, List.map_cons, List.map_cons, hv c rfl, hb]
      · rw [entries_some, entries_some, List.map_cons, List.map_cons]
        exact ih.cons_cons _

theorem Unique.assign (hu : Unique key l) (hv : ∀ b, v = some b → key b = k) : Unique key (assign key k v l) :=
  List.Nodup.sublist (entries_assign hv) hu

/-- A new entry. -/
theorem lookup_put (h : put a l = some m) (ha : lookup key (key a) l = none) :
    lookup key k m = if key a = k then some a else lookup key k l := by
  induction l generalizing m with
  | nil => cases h
  | cons x l ih =>
    cases x with
    | none =>
      cases h
      exact lookup_cons ..
    | some b =>
      unfold put at h
      obtain ⟨m', hm, rfl⟩ := Option.map_eq_some_iff.1 h
      rw [lookup_cons] at ha
      split at ha
      · cases ha
      · rename_i hb
        rw [lookup_cons, lookup_cons, ih hm ha]
        split
        · rename_i hk
          rw [if_neg fun h => hb (hk.trans h.symm)]
        · rfl

theorem Unique.put (hu : Unique key l) (h : put a l = some m) (ha : lookup key (key a) l = none) : Unique key m := by
  have hp := (entries_put h).map key
  unfold Unique
  rw [hp.nodup_iff, List.map_cons, List.nodup_cons]
  exact ⟨lookup_none.1 ha, hu⟩

/-- While only some of the keys of a list are in use, there is a free slot. -/
theorem put_isSome (hu : Unique key l) (ha : lookup key (key a) l = none) {keys : List κ}
    (hk : ∀ k, lookup key k l ≠ none → k ∈ keys) (hka : key a ∈ keys) (hlen : keys.length ≤ l.length) :
    ∃ m, put a l = some m := by
  refine Option.ne_none_iff_exists'.1 fun h => ?_
  have hnodup : (key a :: l.entries.map key).Nodup := List.nodup_cons.2 ⟨lookup_none.1 ha, hu⟩
  have hsub : key a :: l.entries.map key ⊆ keys := by
    intro k hmem
    rcases List.mem_cons.1 hmem with rfl | hmem
    · exact hka
    · exact hk k fun hn => lookup_none.1 hn hmem
  have hle := (hnodup.subperm hsub).length_le
  rw [List.length_cons, List.length_map, put_none h] at hle
  omega

end

end Slots

end

end Citrine
