import Mathlib.Data.List.Basic

/-!
# Singly linked lists

A list is a path when it begins at a given place, each member points to the one behind it, and the last one points to
`null` (`Path`).  Only the pointers of its own members matter to a path (`Path.congr`).  A member is pushed in front
(`Path.push`), put behind the last one (`Path.snoc`) or taken out behind another one (`Path.drop`).
-/

namespace Citrine

section
variable {ι : Type} (null : ι) (next : ι → ι)

/-- The members of the list, from a place on. -/
def Path : ι → List ι → Prop
  | p, [] => p = null
  | p, a :: l => p = a ∧ a ≠ null ∧ Path (next a) l

end

section
variable {ι : Type} {null : ι} {next next' : ι → ι} {p a b : ι} {l m : List ι}

/-- Where a path begins. -/
theorem Path.begin (h : Path null next p l) : p = l.headD null := by
  cases l with
  | nil => exact h
  | cons a l => exact h.1

theorem Path.null_iff (h : Path null next p l) : p = null ↔ l = [] := by
  cases l with
  | nil => exact ⟨fun _ => rfl, fun _ => h⟩
  | cons a l =>
    refine ⟨fun hp => ?_, fun hl => by cases hl⟩
    exact absurd (h.1.symm.trans hp) h.2.1

theorem Path.ne_null (h : Path null next p l) (ha : a ∈ l) : a ≠ null := by
  induction l generalizing p with
  | nil => cases ha
  | cons b l ih =>
    rcases List.mem_cons.1 ha with rfl | ha
    · exact h.2.1
    · exact ih h.2.2 ha

/-- Only the pointers of its own members matter to a path. -/
theorem Path.congr (h : Path null next p l) (hn : ∀ a ∈ l, next' a = next a) : Path null next' p l := by
  induction l generalizing p with
  | nil => exact h
  | cons b l ih =>
    refine ⟨h.1, h.2.1, ?_⟩
    rw [hn b List.mem_cons_self]
    exact ih h.2.2 fun a ha => hn a (List.mem_cons_of_mem _ ha)

/-- A part of a path, up to a member. -/
theorem Path.split (h : Path null next p (l ++ a :: m)) : a ≠ null ∧ Path null next (next a) m := by
  induction l generalizing p with
  | nil => exact h.2
  | cons b l ih => exact ih h.2.2

/-- What a path goes on with may be exchanged behind a member. -/
theorem Path.splice (h : Path null next p (l ++ a :: m)) {m' : List ι} (hl : ∀ b ∈ l, next' b = next b)
    (hm : Path null next' (next' a) m') : Path null next' p (l ++ a :: m') := by
  induction l generalizing p with
  | nil => exact ⟨h.1, h.2.1, hm⟩
  | cons b l ih =>
    refine ⟨h.1, h.2.1, ?_⟩
    rw [hl b List.mem_cons_self]
    exact ih h.2.2 fun c hc => hl c (List.mem_cons_of_mem _ hc)

/-- A new member in front. -/
theorem Path.push (h : Path null next p l) (ha : a ≠ null) (hn : ∀ b ∈ l, next' b = next b) (hp : next' a = p) :
    Path null next' a (a :: l) :=
  ⟨rfl, ha, hp ▸ h.congr hn⟩

/-- A new member behind the last one. -/
theorem Path.snoc (h : Path null next p (l ++ [a])) (hb : b ≠ null) (hn : ∀ c ∈ l, next' c = next c)
    (ha : next' a = b) (he : next' b = null) : Path null next' p (l ++ [a, b]) :=
  h.splice hn ⟨ha, hb, he⟩

/-- The member behind another one is taken out. -/
theorem Path.drop (h : Path null next p (l ++ a :: b :: m)) (hl : ∀ c ∈ l, next' c = next c)
    (hm : ∀ c ∈ m, next' c = next c) (ha : next' a = next b) : Path null next' p (l ++ a :: m) := by
  have hb : Path null next (next b) m := h.split.2.2.2
  exact h.splice hl (ha ▸ hb.congr hm)

end

end Citrine
