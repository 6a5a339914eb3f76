import Mathlib.Data.List.Chain
import Citrine.Lib.Memory

/-!
# Circular doubly linked lists

A list is a circle of two memories of links when each member is linked to the one behind it, and the last one to the
first (`Circle`).  It may be cut anywhere (`Circle.rotate`), so a member is inserted in front of the first one
(`Circle.insert`) and it is the first one that is removed (`Circle.remove`).
-/

namespace Citrine

section
variable {ι : Type}

/-- One member is linked to another. -/
def Linked (next prev : ι → Option ι) (a b : ι) : Prop := next a = some b ∧ prev b = some a

/-- The members of the list are linked to a circle. -/
def Circle (next prev : ι → Option ι) : List ι → Prop
  | [] => True
  | a :: l => (a :: (l ++ [a])).IsChain (Linked next prev)

variable {next prev next' prev' : ι → Option ι} {a b : ι} {l m : List ι}

theorem circle_singleton : Circle next prev [a] ↔ Linked next prev a a := List.isChain_pair

private theorem Circle.rotate_one (h : Circle next prev (a :: l)) : Circle next prev (l ++ [a]) := by
  cases l with
  | nil => exact h
  | cons b l =>
    change List.IsChain _ (b :: ((l ++ [a]) ++ [b]))
    rw [List.append_assoc, ← List.cons_append, List.singleton_append]
    rw [Circle, List.cons_append, List.isChain_cons_cons] at h
    rw [List.isChain_split]
    exact ⟨h.2, List.isChain_pair.2 h.1⟩

/-- A circle may be cut anywhere. -/
theorem Circle.rotate (h : Circle next prev (l ++ m)) : Circle next prev (m ++ l) := by
  induction l generalizing m with
  | nil => rwa [List.append_nil]
  | cons a l ih =>
    rw [List.cons_append] at h
    have h' := h.rotate_one
    rw [List.append_assoc] at h'
    have := ih h'
    rwa [List.append_assoc] at this

/-- Only the links of its own members matter to a circle. -/
theorem Circle.congr (h : Circle next prev l) (hn : ∀ c ∈ l, next' c = next c) (hp : ∀ c ∈ l, prev' c = prev c) :
    Circle next' prev' l := by
  cases l with
  | nil => trivial
  | cons a l =>
    refine List.IsChain.imp_of_mem_imp (fun c d hc hd hcd => ?_) h
    have hmem : ∀ {c}, c ∈ a :: (l ++ [a]) → c ∈ a :: l := by
      intro c hc
      simp only [List.mem_cons, List.mem_append, List.not_mem_nil, or_false] at hc ⊢
      rcases hc with hc | hc | hc
      · exact .inl hc
      · exact .inr hc
      · exact .inl hc
    unfold Linked
    rw [hn c (hmem hc), hp d (hmem hd)]
    exact hcd

/-- The last member of a circle and the links across its cut. -/
theorem Circle.ends (h : Circle next prev (a :: l)) :
    ∃ init last, a :: l = init ++ [last] ∧ (init ++ [last]).IsChain (Linked next prev) ∧ Linked next prev last a := by
  obtain ⟨init, last, hl⟩ : ∃ init last, a :: l = init ++ [last] :=
    ⟨_, _, (List.dropLast_append_getLast (List.cons_ne_nil a l)).symm⟩
  refine ⟨init, last, hl, ?_⟩
  rw [Circle, ← List.cons_append, hl, List.append_assoc, List.singleton_append, List.isChain_split,
    List.isChain_pair] at h
  exact h

/-- The member behind the first one. -/
theorem Circle.next_eq (h : Circle next prev (a :: b :: l)) : next a = some b := by
  rw [Circle, List.cons_append, List.isChain_cons_cons] at h
  exact h.1.1

/-- The links inside a list without repetition do not depend on the links forward of its last member and backward of
its first. -/
private theorem isChain_of_inner {init : List ι} {last : ι} (hl : a :: l = init ++ [last]) (hd : (a :: l).Nodup)
    (h : (a :: l).IsChain (Linked next prev)) (hn : ∀ c ∈ a :: l, c ≠ last → next' c = next c)
    (hp : ∀ c ∈ a :: l, c ≠ a → prev' c = prev c) : (a :: l).IsChain (Linked next' prev') := by
  rw [List.isChain_iff_forall_rel_of_append_cons_cons] at h ⊢
  intro c d l₁ l₂ hcd
  have hlink := h hcd
  have hc : c ≠ last := by
    rintro rfl
    have hlast : (a :: l).getLast (List.cons_ne_nil a l) = c := by
      simp only [hl, List.getLast_append_singleton]
    have hmem : c ∈ d :: l₂ := by
      have : (l₁ ++ c :: d :: l₂).getLast (by simp) = c := by
        simp only [← hcd, hlast]
      rw [List.getLast_append_of_ne_nil _ (by simp), List.getLast_cons_cons] at this
      exact this ▸ List.getLast_mem _
    rw [hcd, List.nodup_append, List.nodup_cons] at hd
    exact hd.2.1.1 hmem
  have hda : d ≠ a := by
    rintro rfl
    cases l₁ with
    | nil =>
      rw [List.nil_append, List.cons.injEq] at hcd
      rw [hcd.2, hcd.1, List.nodup_cons] at hd
      exact hd.1 (List.mem_cons_self ..)
    | cons e l₁ =>
      rw [List.cons_append, List.cons.injEq] at hcd
      rw [hcd.2, List.nodup_cons] at hd
      refine hd.1 ?_
      simp
  have hmc : c ∈ a :: l := by rw [hcd]; simp
  have hmd : d ∈ a :: l := by rw [hcd]; simp
  unfold Linked
  rw [hn c hmc hc, hp d hmd hda]
  exact hlink

variable [DecidableEq ι]

/-- A new member in front of the first one. -/
theorem Circle.insert {x : ι} (h : Circle next prev (a :: l)) (hd : (a :: l).Nodup) (hx : x ∉ a :: l) :
    ∃ last, prev a = some last ∧
      Circle (write (write next x (some a)) last (some x)) (write (write prev x (prev a)) a (some x)) (x :: a :: l) := by
  obtain ⟨init, last, hl, hchain, hlast⟩ := h.ends
  refine ⟨last, hlast.2, ?_⟩
  have hxl : last ≠ x := by
    rintro rfl
    exact hx (by rw [hl]; simp)
  have hxa : x ≠ a := by
    rintro rfl
    exact hx (List.mem_cons_self ..)
  rw [← hl] at hchain
  have hinner := @isChain_of_inner _ _ _ (write (write next x (some a)) last (some x))
    (write (write prev x (prev a)) a (some x)) _ _ _ _ hl hd hchain
    (fun c hc hcl => by
      rw [write_other _ _ hcl, write_other _ _]
      rintro rfl
      exact hx hc)
    (fun c hc hca => by
      rw [write_other _ _ hca, write_other _ _]
      rintro rfl
      exact hx hc)
  change List.IsChain _ (x :: ((a :: l) ++ [x]))
  rw [List.cons_append, List.isChain_cons_cons, ← List.cons_append, hl, List.append_assoc, List.singleton_append,
    List.isChain_split, List.isChain_pair, ← hl]
  refine ⟨⟨?_, write_same ..⟩, hinner, write_same .., ?_⟩
  · rw [write_other _ _ hxl.symm, write_same]
  · rw [write_other _ _ hxa, write_same, hlast.2]

/-- The first member is removed. -/
theorem Circle.remove (h : Circle next prev (a :: b :: l)) (hd : (a :: b :: l).Nodup) :
    ∃ last, prev a = some last ∧ next a = some b ∧
      Circle (write next last (next a)) (write prev b (prev a)) (b :: l) := by
  obtain ⟨init, last, hl, hchain, hlast⟩ := h.ends
  refine ⟨last, hlast.2, h.next_eq, ?_⟩
  rw [← hl, List.isChain_cons_cons] at hchain
  obtain ⟨init, rfl⟩ : ∃ init', init = a :: init' := by
    cases init with
    | nil => simp at hl
    | cons c init =>
      rw [List.cons_append, List.cons.injEq] at hl
      exact ⟨init, by rw [hl.1]⟩
  rw [List.cons_append, List.cons.injEq] at hl
  rw [List.nodup_cons] at hd
  have hinner := @isChain_of_inner _ _ _ (write next last (next a)) (write prev b (prev a)) _ _ _ _ hl.2 hd.2
    hchain.2 (fun c _ hcl => write_other _ _ hcl) (fun c _ hcb => write_other _ _ hcb)
  change List.IsChain _ (b :: (l ++ [b]))
  rw [← List.cons_append, hl.2, List.append_assoc, List.singleton_append, List.isChain_split, List.isChain_pair,
    ← hl.2]
  refine ⟨hinner, ?_, ?_⟩
  · rw [write_same, h.next_eq]
  · rw [write_same, hlast.2]

end

end Citrine
