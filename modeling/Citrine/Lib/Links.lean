import Mathlib.Data.List.Chain
import Mathlib.Data.List.Nodup
import Citrine.Lib.ForwardList

/-!
# Doubly linked lists between two ends

A list is linked when each member points to the one behind it and to the one before it, and the ends point to a value
`null` that is no member (`Linear`).  The pointer to the first member is `next null`, so that a member is taken out
(`Linear.erase`) or put in front (`Linear.push`) in the same way everywhere.  Forwards, the members are a path
(`Linear.path`).
-/

namespace Citrine

section
variable {ι : Type} {null : ι}

/-- One place is behind another; the last one has no pointer back. -/
def Behind (null : ι) (next prev : ι → ι) (a b : ι) : Prop := next a = b ∧ (b ≠ null → prev b = a)

/-- The members of the list are linked between two ends. -/
structure Linear (null : ι) (next prev : ι → ι) (l : List ι) : Prop where
  chain : (null :: (l ++ [null])).IsChain (Behind null next prev)
  nodup : (null :: l).Nodup

variable {next prev next' prev' : ι → ι} {a : ι} {l m : List ι}

theorem linear_nil (h : next null = null) : Linear null next prev [] :=
  ⟨List.isChain_pair.2 ⟨h, fun hn => absurd rfl hn⟩, List.nodup_singleton null⟩

/-- Only the links of its own members matter to a list, and the pointer to the first one. -/
theorem Linear.congr (h : Linear null next prev l) (hn : ∀ b ∈ null :: l, next' b = next b)
    (hp : ∀ b ∈ l, prev' b = prev b) : Linear null next' prev' l := by
  refine ⟨List.IsChain.imp_of_mem_imp (fun b c hb hc hbc => ?_) h.chain, h.nodup⟩
  have hmem : ∀ {b}, b ∈ null :: (l ++ [null]) → b = null ∨ b ∈ l := by
    intro b hb
    simp only [List.mem_cons, List.mem_append, List.not_mem_nil, or_false] at hb
    rcases hb with hb | hb | hb
    · exact .inl hb
    · exact .inr hb
    · exact .inl hb
  refine ⟨(hn b (List.mem_cons.2 (hmem hb))).trans hbc.1, fun hne => ?_⟩
  exact (hp c ((hmem hc).resolve_left hne)).trans (hbc.2 hne)

/-- The first member. -/
theorem Linear.first (h : Linear null next prev (a :: l)) : next null = a ∧ prev a = null := by
  have hc := (List.isChain_cons_cons.1 h.chain).1
  exact ⟨hc.1, hc.2 fun hn => (List.nodup_cons.1 h.nodup).1 (hn ▸ List.mem_cons_self)⟩

theorem Linear.empty_iff (h : Linear null next prev l) : next null = null ↔ l = [] := by
  cases l with
  | nil => exact ⟨fun _ => rfl, fun _ => (List.isChain_pair.1 h.chain).1⟩
  | cons b l =>
    refine ⟨fun hn => ?_, fun hn => (by cases hn)⟩
    have hb := h.first.1
    rw [hn] at hb
    exact absurd (hb ▸ List.mem_cons_self) (List.nodup_cons.1 h.nodup).1

/-- The places around a member. -/
private theorem Linear.around (h : Linear null next prev (l ++ a :: m)) :
    ∃ init x z rest, null :: l = init ++ [x] ∧ m ++ [null] = z :: rest ∧
      (init ++ [x]).IsChain (Behind null next prev) ∧ (z :: rest).IsChain (Behind null next prev) ∧
      next x = a ∧ prev a = x ∧ next a = z ∧ (z ≠ null → prev z = a) := by
  obtain ⟨init, x, hl⟩ : ∃ init x, null :: l = init ++ [x] :=
    ⟨_, _, (List.dropLast_append_getLast (List.cons_ne_nil null l)).symm⟩
  obtain ⟨z, rest, hm⟩ : ∃ z rest, m ++ [null] = z :: rest := List.exists_cons_of_ne_nil (List.concat_ne_nil null m)
  have hc := h.chain
  have hsplit : null :: (l ++ a :: m ++ [null]) = init ++ x :: a :: z :: rest := by
    rw [← hm, List.append_assoc, ← List.cons_append, hl, List.append_assoc]
    rfl
  rw [hsplit, List.isChain_split, List.isChain_cons_cons, List.isChain_cons_cons] at hc
  have ha : a ≠ null := by
    rintro rfl
    exact (List.nodup_cons.1 h.nodup).1 (List.mem_append_right _ List.mem_cons_self)
  exact ⟨init, x, z, rest, hl, hm, hc.1, hc.2.2.2, hc.2.1.1, hc.2.1.2 ha, hc.2.2.1.1, hc.2.2.1.2⟩

/-- The places around a member are ends or other members. -/
theorem Linear.neighbours (h : Linear null next prev l) (ha : a ∈ l) :
    (prev a = null ∨ prev a ∈ l) ∧ (next a = null ∨ next a ∈ l) ∧ prev a ≠ a ∧ next a ≠ a := by
  obtain ⟨l, m, rfl⟩ := List.append_of_mem ha
  obtain ⟨init, x, z, rest, hl, hm, -, -, -, hax, haz, -⟩ := h.around
  have hx : x ∈ null :: l := hl ▸ List.mem_append_right _ (List.mem_singleton_self x)
  have hz : z ∈ m ++ [null] := hm ▸ List.mem_cons_self
  have hnodup : (null :: (l ++ a :: m)).Nodup := h.nodup
  rw [← List.cons_append, List.nodup_append] at hnodup
  have hanull : a ≠ null := fun hn => hnodup.2.2 null List.mem_cons_self a List.mem_cons_self hn.symm
  rw [hax, haz]
  refine ⟨?_, ?_, fun hxa => hnodup.2.2 x hx a List.mem_cons_self hxa, ?_⟩
  · exact (List.mem_cons.1 hx).imp_right fun hmem => List.mem_append_left _ hmem
  · refine (List.mem_append.1 hz).symm.imp List.mem_singleton.1 fun hmem => ?_
    exact List.mem_append_right _ (List.mem_cons_of_mem _ hmem)
  · rintro rfl
    rcases List.mem_append.1 hz with hmem | hmem
    · exact (List.nodup_cons.1 hnodup.2.1).1 hmem
    · exact hanull (List.mem_singleton.1 hmem)

private theorem chain_congr {z : ι} (h : (l ++ [z]).IsChain (Behind null next prev)) (hn : ∀ b ∈ l, next' b = next b)
    (hp : ∀ b ∈ (l ++ [z]).tail, b ≠ null → prev' b = prev b) : (l ++ [z]).IsChain (Behind null next' prev') := by
  induction l with
  | nil => exact List.isChain_singleton z
  | cons b l ih =>
    obtain ⟨c, rest, hc⟩ : ∃ c rest, l ++ [z] = c :: rest := List.exists_cons_of_ne_nil (List.concat_ne_nil z l)
    rw [List.cons_append, hc] at h hp ⊢
    rw [hc] at ih
    rw [List.isChain_cons_cons] at h ⊢
    refine ⟨⟨(hn b List.mem_cons_self).trans h.1.1, fun hne => ?_⟩, ih h.2 (fun d hd => hn d (List.mem_cons_of_mem _ hd))
      fun d hd => hp d (List.mem_cons_of_mem _ hd)⟩
    exact (hp c List.mem_cons_self hne).trans (h.1.2 hne)

variable [DecidableEq ι]

/-- A member is taken out: the places around it are linked to each other. -/
theorem Linear.erase (h : Linear null next prev l) (ha : a ∈ l)
    (hn : ∀ b ∈ null :: l, b ≠ a → next' b = if b = prev a then next a else next b)
    (hp : ∀ b ∈ l, b ≠ a → prev' b = if b = next a then prev a else prev b) :
    Linear null next' prev' (l.erase a) := by
  obtain ⟨l, m, rfl⟩ := List.append_of_mem ha
  obtain ⟨init, x, z, rest, hl, hm, hfront, hback, hxa, hax, haz, hza⟩ := h.around
  have hnodup : (null :: (l ++ a :: m)).Nodup := h.nodup
  have hal : a ∉ null :: l ∧ a ∉ m := by
    rw [← List.cons_append, List.nodup_append] at hnodup
    exact ⟨fun hmem => hnodup.2.2 a hmem a List.mem_cons_self rfl, (List.nodup_cons.1 hnodup.2.1).1⟩
  have herase : (l ++ a :: m).erase a = l ++ m := by
    rw [List.erase_append_right _ fun hmem => hal.1 (List.mem_cons_of_mem _ hmem), List.erase_cons_head]
  have hnodup' : (null :: (l ++ m)).Nodup := by
    refine hnodup.sublist ((List.Sublist.append_left (List.sublist_cons_self a m) l).cons_cons null)
  have hdis : ∀ b ∈ init ++ [x], b ∉ m := by
    intro b hb hbm
    rw [← hl] at hb
    rw [← List.cons_append, List.nodup_append] at hnodup'
    exact hnodup'.2.2 b hb b hbm rfl
  rw [herase]
  refine ⟨?_, hnodup'⟩
  have hgoal : null :: (l ++ m ++ [null]) = init ++ x :: z :: rest := by
    rw [List.append_assoc, ← List.cons_append, hl, hm, List.append_assoc]
    rfl
  have hzmem : ∀ b ∈ z :: rest, b ≠ null → b ∈ m := by
    intro b hb hne
    rw [← hm] at hb
    exact (List.mem_append.1 hb).resolve_right fun h => hne (List.mem_singleton.1 h)
  have hanull : a ≠ null := fun hn => hal.1 (hn ▸ List.mem_cons_self)
  have hza' : a ∉ z :: rest := fun hmem => hal.2 (hzmem a hmem hanull)
  have hxmem : x ∈ null :: l := hl ▸ List.mem_append_right _ (List.mem_singleton_self x)
  have hwhole : ∀ b, b ∈ null :: l ∨ b ∈ m ↔ b ∈ null :: (l ++ a :: m) ∧ b ≠ a := by
    intro b
    simp only [List.mem_cons, List.mem_append]
    refine ⟨fun hb => ⟨by tauto, ?_⟩, by tauto⟩
    rintro rfl
    rcases hb with hb | hb
    · exact hal.1 (List.mem_cons.2 hb)
    · exact hal.2 hb
  rw [hgoal, List.isChain_split, List.isChain_cons_cons]
  refine ⟨List.IsChain.imp_of_mem_imp (fun b c hb hc hbc => ?_) hfront, ⟨?_, fun hne => ?_⟩,
    List.IsChain.imp_of_mem_imp (fun b c hb hc hbc => ?_) hback⟩
  · -- in front of the member
    have hb' := (hwhole b).1 (.inl (hl ▸ hb))
    have hbx : b ≠ prev a := by
      rw [hax]
      rintro rfl
      rw [← hl, ← hbc.1, hxa] at hc
      exact hal.1 hc
    refine ⟨by rw [hn b hb'.1 hb'.2, if_neg hbx, hbc.1], fun hcn => ?_⟩
    have hc' := (hwhole c).1 (.inl (hl ▸ hc))
    have hcz : c ≠ next a := by
      rw [haz]
      rintro rfl
      exact hdis c hc (hzmem c List.mem_cons_self hcn)
    rw [hp c ((List.mem_cons.1 hc'.1).resolve_left hcn) hc'.2, if_neg hcz, hbc.2 hcn]
  · have hx' := (hwhole x).1 (.inl hxmem)
    rw [hn x hx'.1 hx'.2, if_pos hax.symm, haz]
  · have hz' := (hwhole z).1 (.inr (hzmem z List.mem_cons_self hne))
    rw [hp z ((List.mem_cons.1 hz'.1).resolve_left hne) hz'.2, if_pos haz.symm, hax]
  · -- behind the member
    have hb' : b ∈ null :: (l ++ a :: m) ∧ b ≠ a := by
      by_cases hbn : b = null
      · exact (hwhole b).1 (.inl (hbn ▸ List.mem_cons_self))
      · exact (hwhole b).1 (.inr (hzmem b hb hbn))
    have hbx : b ≠ prev a := by
      rw [hax]
      rintro rfl
      rw [← hbc.1, hxa] at hc
      exact hza' hc
    refine ⟨by rw [hn b hb'.1 hb'.2, if_neg hbx, hbc.1], fun hcn => ?_⟩
    have hc' := (hwhole c).1 (.inr (hzmem c hc hcn))
    have hcz : c ≠ next a := by
      rw [haz]
      rintro rfl
      exact hb'.2 ((hbc.2 hcn).symm.trans (hza hcn))
    rw [hp c ((List.mem_cons.1 hc'.1).resolve_left hcn) hc'.2, if_neg hcz, hbc.2 hcn]

/-- A new member between two parts of the list. -/
theorem Linear.insert (h : Linear null next prev (l ++ m)) (ha : a ∉ null :: (l ++ m))
    (hx : next' (l.getLast?.getD null) = a) (hna : next' a = m.head?.getD null) (hpa : prev' a = l.getLast?.getD null)
    (hn : ∀ b ∈ null :: (l ++ m), b ≠ l.getLast?.getD null → next' b = next b)
    (hp : ∀ b ∈ l ++ m, prev' b = if b = m.head?.getD null then a else prev b) :
    Linear null next' prev' (l ++ a :: m) := by
  have hnodup := List.nodup_cons.1 h.nodup
  have hparts := List.nodup_append.1 hnodup.2
  obtain ⟨init, x, hl⟩ : ∃ init x, null :: l = init ++ [x] :=
    ⟨_, _, (List.dropLast_append_getLast (List.cons_ne_nil null l)).symm⟩
  obtain ⟨z, rest, hm⟩ : ∃ z rest, m ++ [null] = z :: rest := List.exists_cons_of_ne_nil (List.concat_ne_nil null m)
  have hxe : l.getLast?.getD null = x := by
    have hlast := congrArg List.getLast? hl
    rw [List.getLast?_cons, List.getLast?_concat] at hlast
    exact Option.some.inj hlast
  have hze : m.head?.getD null = z := by
    cases m with
    | nil => exact (List.cons.inj hm).1
    | cons y m => exact (List.cons.inj hm).1
  rw [hxe] at hx hpa hn
  rw [hze] at hna hp
  have hc := h.chain
  have hsplit : null :: (l ++ m ++ [null]) = init ++ x :: z :: rest := by
    rw [List.append_assoc, hm, ← List.cons_append, hl, List.append_assoc]
    rfl
  have hgoal : null :: (l ++ a :: m ++ [null]) = init ++ x :: a :: z :: rest := by
    rw [List.append_assoc, List.cons_append, hm, ← List.cons_append, hl, List.append_assoc]
    rfl
  rw [hsplit, List.isChain_split, List.isChain_cons_cons] at hc
  have hnodup' : (null :: (l ++ a :: m)).Nodup := by
    refine List.nodup_cons.2 ⟨fun hmem => ?_, ?_⟩
    · rcases List.mem_append.1 hmem with hmem | hmem
      · exact hnodup.1 (List.mem_append_left _ hmem)
      · rcases List.mem_cons.1 hmem with rfl | hmem
        · exact ha List.mem_cons_self
        · exact hnodup.1 (List.mem_append_right _ hmem)
    · rw [List.nodup_middle]
      exact List.nodup_cons.2 ⟨fun hmem => ha (List.mem_cons_of_mem _ hmem), hnodup.2⟩
  have hinit : ∀ b ∈ init ++ [x], b = null ∨ b ∈ l := fun b hb => by
    rw [← hl] at hb
    exact List.mem_cons.1 hb
  have hback : ∀ b ∈ m, b ≠ x := by
    rintro b hb rfl
    rcases hinit b (List.mem_append_right _ (List.mem_singleton_self b)) with rfl | hbl
    · exact hnodup.1 (List.mem_append_right _ hb)
    · exact hparts.2.2 b hbl b hb rfl
  refine ⟨?_, hnodup'⟩
  rw [hgoal, List.isChain_split, List.isChain_cons_cons, List.isChain_cons_cons]
  refine ⟨chain_congr hc.1 (fun b hb => ?_) fun b hb hne => ?_, ⟨hx, fun _ => hpa⟩, ⟨hna, fun hne => ?_⟩, ?_⟩
  · have hbx : b ≠ x := by
      rintro rfl
      have hd : (null :: l).Nodup := List.nodup_cons.2 ⟨fun h => hnodup.1 (List.mem_append_left _ h), hparts.1⟩
      rw [hl, List.nodup_append] at hd
      exact hd.2.2 b hb b (List.mem_singleton_self b) rfl
    refine hn b ?_ hbx
    rcases hinit b (List.mem_append_left _ hb) with rfl | hbl
    · exact List.mem_cons_self
    · exact List.mem_cons_of_mem _ (List.mem_append_left _ hbl)
  · have hbl := (hinit b (List.mem_of_mem_tail hb)).resolve_left hne
    have hbz : b ≠ z := by
      rintro rfl
      have hbm : b ∈ m ++ [null] := hm ▸ List.mem_cons_self
      exact hparts.2.2 b hbl b ((List.mem_append.1 hbm).resolve_right fun h => hne (List.mem_singleton.1 h)) rfl
    rw [hp b (List.mem_append_left _ hbl), if_neg hbz]
  · have hzm : z ∈ m ++ [null] := hm ▸ List.mem_cons_self
    have hzm' := (List.mem_append.1 hzm).resolve_right fun h => hne (List.mem_singleton.1 h)
    rw [hp z (List.mem_append_right _ hzm'), if_pos rfl]
  · have hc' := hc.2.2
    rw [← hm] at hc' ⊢
    refine chain_congr hc' (fun b hb => hn b (List.mem_cons_of_mem _ (List.mem_append_right _ hb)) (hback b hb))
      fun b hb hne => ?_
    have hbm := (List.mem_append.1 (List.mem_of_mem_tail hb)).resolve_right fun h => hne (List.mem_singleton.1 h)
    have hbz : b ≠ z := by
      rintro rfl
      rw [hm, List.tail_cons] at hb
      have hd : (m ++ [null]).Nodup := by
        refine List.nodup_append.2 ⟨hparts.2.1, List.nodup_singleton null, fun d hd e he hde => ?_⟩
        rw [List.mem_singleton.1 he] at hde
        exact hnodup.1 (List.mem_append_right _ (hde ▸ hd))
      rw [hm, List.nodup_cons] at hd
      exact hd.1 hb
    rw [hp b (List.mem_append_right _ hbm), if_neg hbz]

/-- A new member in front. -/
theorem Linear.push (h : Linear null next prev l) (ha : a ∉ null :: l) (h0 : next' null = a)
    (hna : next' a = next null) (hpa : prev' a = null) (hn : ∀ b ∈ l, next' b = next b)
    (hp : ∀ b ∈ l, prev' b = if b = next null then a else prev b) : Linear null next' prev' (a :: l) := by
  have hfirst : next null = l.head?.getD null := by
    cases l with
    | nil => exact h.empty_iff.2 rfl
    | cons b l => exact h.first.1
  rw [hfirst] at hna hp
  refine Linear.insert (l := []) h ha h0 hna hpa (fun b hb hne => ?_) hp
  exact hn b ((List.mem_cons.1 hb).resolve_left hne)

omit [DecidableEq ι] in
/-- What stands beside a member. -/
theorem Linear.beside (h : Linear null next prev (l ++ a :: m)) :
    prev a = l.getLast?.getD null ∧ next a = m.head?.getD null := by
  obtain ⟨init, x, z, rest, hl, hm, -, -, -, hax, haz, -⟩ := h.around
  refine ⟨hax.trans ?_, haz.trans ?_⟩
  · have hx := congrArg List.getLast? hl
    rw [List.getLast?_cons, List.getLast?_concat] at hx
    exact (Option.some.inj hx).symm
  · cases m with
    | nil => exact (List.cons.inj hm).1.symm
    | cons y m => exact (List.cons.inj hm).1.symm

omit [DecidableEq ι] in
private theorem Linear.rest_path (h : Linear null next prev (l ++ m)) : Path null next (m.head?.getD null) m := by
  induction m generalizing l with
  | nil => rfl
  | cons a m ih =>
    have hm : Linear null next prev ((l ++ [a]) ++ m) := by
      rw [List.append_assoc]
      exact h
    refine ⟨rfl, ?_, ?_⟩
    · rintro rfl
      exact (List.nodup_cons.1 h.nodup).1 (List.mem_append_right _ List.mem_cons_self)
    · rw [h.beside.2]
      exact ih hm

omit [DecidableEq ι] in
/-- Forwards, the members are a path from the first one on. -/
theorem Linear.path (h : Linear null next prev l) : Path null next (next null) l := by
  have hl := Linear.rest_path (l := []) h
  cases l with
  | nil => exact h.empty_iff.2 rfl
  | cons a l =>
    rw [h.first.1]
    exact hl

end

end Citrine
