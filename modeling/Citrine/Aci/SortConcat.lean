import Mathlib.Data.List.Nodup
import Mathlib.Tactic.ByContra
import Citrine.Aci.AciLst
import Citrine.Aci.ConcSms
import Citrine.Lib.Loop

/-!
# Sorting a concatenation buffer

`concSMS_sortConcatList` (`conc_sms.c`), node by node: as long as the old list has a message, the record number of the
segment with the lowest number below 255 is looked up, the first segment with this record number is removed, and what was
removed is put into the new list, `NULL` when there was none.  When the loop ends, it leaves `sortConcBuf`.
-/

namespace Citrine.Aci

/-- The variables of `concSMS_sortConcatList`. -/
structure SortState where
  oldlist : AciList ConcBufElem
  newlist : AciList ConcBufElem
  recNum : Nat

/-- `concSMS_findRecNumElemCB` -/
def findRecNumElemCB (criterium : Nat) (elem : Option ConcBufElem) : Bool := elem.any fun e => e.recNum == criterium

/-- A round of the loop of `concSMS_sortConcatList`, or the list it ends with. -/
def sortRound (s : SortState) : Except (AciList ConcBufElem) SortState :=
  if getListCount s.oldlist = 0 then .error s.newlist
  else
    let recNum := lowestRecNum s.oldlist.reduceOption 255 s.recNum
    let (concBufElem, oldlist) := removeElement s.oldlist (findRecNumElemCB recNum)
    .ok ⟨oldlist, (insertList s.newlist concBufElem).2, recNum⟩

/-- The state in front of the loop. -/
def sortStart (list : List ConcBufElem) : SortState := ⟨AciList.of list, newList, 0⟩

/-- The call for a list returns with another one. -/
def SortsTo (list sorted : List ConcBufElem) : Prop :=
  ∃ n, Loop.after sortRound n (sortStart list) = .error (AciList.of sorted)

/-- What the list must be like: of two segments with one record number the lower one comes first, and a segment with the
number 255 has the record number of the highest other segment, or 0 when there is no other. -/
structure Sortable (recNum : Nat) (list : List ConcBufElem) : Prop where
  first : list.Pairwise fun e f => e.recNum = f.recNum → e.seqNum < f.seqNum
  alone : ∀ e, list = [e] → e.seqNum = 255 → e.recNum = recNum
  last : ∀ e ∈ list, e.seqNum = 255 → ∀ f ∈ list, f ≠ e → (∀ g ∈ list, g ≠ e → g.seqNum ≤ f.seqNum) →
    f.recNum = e.recNum

/-! ### The loop and the lists -/

section
variable {l m : List ConcBufElem} {recNum n : Nat}

private theorem sortRound_of (recNum : Nat) (hl : l ≠ []) (hlen : l.length < 65536) (new : AciList ConcBufElem) :
    sortRound ⟨AciList.of l, new, recNum⟩ = .ok ⟨AciList.of (l.eraseP fun e => e.recNum == lowestRecNum l 255 recNum),
      (insertList new (l.find? fun e => e.recNum == lowestRecNum l 255 recNum)).2, lowestRecNum l 255 recNum⟩ := by
  have hcount : getListCount (AciList.of l) ≠ 0 := by
    rw [getListCount_of hlen]
    exact mt List.length_eq_zero_iff.1 hl
  unfold sortRound
  rw [if_neg hcount, AciList.reduceOption_of]
  dsimp only
  unfold findRecNumElemCB
  rw [removeElement_of]

private theorem sortRound_done (new : AciList ConcBufElem) :
    sortRound ⟨AciList.of [], new, recNum⟩ = .error new :=
  rfl

private theorem length_sortConcBuf_le : (sortConcBuf n l recNum).length ≤ n := by
  induction n generalizing l recNum with
  | zero => exact Nat.le_refl 0
  | succ n ih =>
    unfold sortConcBuf
    dsimp only
    split
    · exact Nat.le_succ_of_le ih
    · exact Nat.succ_le_succ ih

/-- A segment is removed in each round: the loop ends, and the new list is the sorted one. -/
private theorem after_of_length (hlen : l.length < 65536) (h : (sortConcBuf l.length l recNum).length = l.length)
    (new : List ConcBufElem) :
    ∃ n, Loop.after sortRound n ⟨AciList.of l, AciList.of new, recNum⟩ =
      .error (AciList.of (new ++ sortConcBuf l.length l recNum)) := by
  generalize hn : l.length = n at h hlen ⊢
  induction n generalizing l recNum new with
  | zero =>
    rw [List.length_eq_zero_iff.1 hn]
    exact ⟨1, by rw [Loop.after, sortRound_done]; simp [sortConcBuf]⟩
  | succ n ih =>
    have hl : l ≠ [] := by
      rintro rfl
      cases hn
    unfold sortConcBuf at h ⊢
    dsimp only at h ⊢
    cases hf : l.find? fun e => e.recNum == lowestRecNum l 255 recNum with
    | none =>
      rw [hf] at h
      have hle : (sortConcBuf n (l.eraseP fun e => e.recNum == lowestRecNum l 255 recNum)
          (lowestRecNum l 255 recNum)).length ≤ n := length_sortConcBuf_le
      dsimp only at h
      omega
    | some e =>
      rw [hf] at h
      dsimp only [List.length_cons] at h
      have hin := List.mem_of_find?_eq_some hf
      have herase : (l.eraseP fun e => e.recNum == lowestRecNum l 255 recNum).length = n := by
        rw [List.length_eraseP_of_mem hin (List.find?_some hf), hn]
        rfl
      obtain ⟨k, hk⟩ := ih (new ++ [e]) herase (Nat.succ.inj h) (by omega)
      refine ⟨k + 1, ?_⟩
      rw [Loop.after_succ (sortRound_of _ hl (by omega) _), hf, insertList_of, hk, List.append_assoc]
      rfl

/-- No segment has the record number: the loop runs forever. -/
private theorem runs_of_stuck (hl : l ≠ []) (hlen : l.length < 65536) (hlow : lowestRecNum l 255 recNum = recNum)
    (hf : l.find? (fun e => e.recNum == recNum) = none) (new : AciList ConcBufElem) (k : Nat) :
    ∃ s, Loop.after sortRound k ⟨AciList.of l, new, recNum⟩ = .ok s := by
  induction k generalizing new with
  | zero => exact ⟨_, rfl⟩
  | succ k ih =>
    have herase : (l.eraseP fun e => e.recNum == recNum) = l :=
      List.eraseP_of_forall_not (List.find?_eq_none.1 hf)
    have hround := sortRound_of recNum hl hlen new
    rw [hlow, herase] at hround
    rw [Loop.after_succ hround]
    exact ih _

/-- What the search for the lowest number finds. -/
private theorem lowestRecNum_spec (l : List ConcBufElem) (seqNum recNum : Nat) :
    ((∀ e ∈ l, seqNum ≤ e.seqNum) ∧ lowestRecNum l seqNum recNum = recNum) ∨
      ∃ m ∈ l, m.seqNum < seqNum ∧ (∀ e ∈ l, m.seqNum ≤ e.seqNum) ∧ lowestRecNum l seqNum recNum = m.recNum := by
  induction l generalizing seqNum recNum with
  | nil => exact .inl ⟨fun _ h => absurd h List.not_mem_nil, rfl⟩
  | cons a l ih =>
    unfold lowestRecNum
    split
    · rename_i ha
      rcases ih a.seqNum a.recNum with ⟨hall, hr⟩ | ⟨m, hm, hlt, hall, hr⟩
      · refine .inr ⟨a, List.mem_cons_self, ha, fun e he => ?_, hr⟩
        rcases List.mem_cons.1 he with rfl | he
        · exact Nat.le_refl _
        · exact hall e he
      · refine .inr ⟨m, List.mem_cons_of_mem _ hm, Nat.lt_trans hlt ha, fun e he => ?_, hr⟩
        rcases List.mem_cons.1 he with rfl | he
        · exact Nat.le_of_lt hlt
        · exact hall e he
    · rename_i ha
      rcases ih seqNum recNum with ⟨hall, hr⟩ | ⟨m, hm, hlt, hall, hr⟩
      · refine .inl ⟨fun e he => ?_, hr⟩
        rcases List.mem_cons.1 he with rfl | he
        · exact Nat.le_of_not_lt ha
        · exact hall e he
      · refine .inr ⟨m, List.mem_cons_of_mem _ hm, hlt, fun e he => ?_, hr⟩
        rcases List.mem_cons.1 he with rfl | he
        · omega
        · exact hall e he

end

/-! ### When the loop ends -/

section
variable {l m : List ConcBufElem} {recNum n : Nat}

/-- A round without a segment: the loop does not end. -/
private theorem runs_of_length (hlen : l.length < 65536) (h : (sortConcBuf l.length l recNum).length ≠ l.length)
    (new : List ConcBufElem) (k : Nat) :
    ∃ s, Loop.after sortRound k ⟨AciList.of l, AciList.of new, recNum⟩ = .ok s := by
  generalize hn : l.length = n at h hlen
  induction n generalizing l recNum new k with
  | zero => exact absurd rfl h
  | succ n ih =>
    have hl : l ≠ [] := by
      rintro rfl
      cases hn
    unfold sortConcBuf at h
    dsimp only at h
    cases hf : l.find? fun e => e.recNum == lowestRecNum l 255 recNum with
    | none =>
      have hlow : lowestRecNum l 255 recNum = recNum := by
        rcases lowestRecNum_spec l 255 recNum with ⟨-, hr⟩ | ⟨m, hm, -, -, hr⟩
        · exact hr
        · rw [hr] at hf
          exact absurd (beq_self_eq_true m.recNum) (List.find?_eq_none.1 hf m hm)
      rw [hlow] at hf
      exact runs_of_stuck hl (by omega) hlow hf _ k
    | some e =>
      cases k with
      | zero => exact ⟨_, rfl⟩
      | succ k =>
        rw [hf] at h
        dsimp only [List.length_cons] at h
        have herase : (l.eraseP fun e => e.recNum == lowestRecNum l 255 recNum).length = n := by
          rw [List.length_eraseP_of_mem (List.mem_of_find?_eq_some hf) (List.find?_some hf), hn]
          rfl
        rw [Loop.after_succ (sortRound_of _ hl (by omega) _), hf, insertList_of]
        exact ih (new ++ [e]) k herase (fun hc => h (by rw [hc])) (by omega)

/-- The call returns if and only if a segment is removed in each round, and then with these segments. -/
theorem sortsTo_iff (hlen : l.length < 65536) :
    SortsTo l m ↔ m = sortConcBuf l.length l 0 ∧ m.length = l.length := by
  have hof : ∀ a b : List ConcBufElem, AciList.of a = AciList.of b → a = b := fun a b hab => by
    rw [← AciList.reduceOption_of a, hab, AciList.reduceOption_of]
  unfold SortsTo sortStart
  rw [newList_eq]
  by_cases h : (sortConcBuf l.length l 0).length = l.length
  · obtain ⟨k, hk⟩ := after_of_length hlen h []
    constructor
    · rintro ⟨i, hi⟩
      have hik := Loop.after_error i k hi
      have hki := Loop.after_error k i hk
      rw [Nat.add_comm, hik] at hki
      have hm := hof _ _ (Except.error.inj hki)
      exact ⟨hm, hm ▸ h⟩
    · rintro ⟨rfl, -⟩
      exact ⟨k, hk⟩
  · refine iff_of_false ?_ ?_
    · rintro ⟨i, hi⟩
      obtain ⟨s, hs⟩ := runs_of_length hlen h [] i
      rw [hs] at hi
      cases hi
    · rintro ⟨rfl, hm⟩
      exact h hm

end

/-! ### When the list is sorted -/

section
variable {l l' : List ConcBufElem} {m : ConcBufElem} {recNum n : Nat}

/-- In a list with distinct numbers, a number tells the segment. -/
private theorem seqNum_inj (hd : (l.map ConcBufElem.seqNum).Nodup) {e f : ConcBufElem} (he : e ∈ l) (hf : f ∈ l)
    (h : e.seqNum = f.seqNum) : e = f :=
  List.inj_on_of_nodup_map hd he hf h

/-- The only segment, when all have the number 255. -/
private theorem alone_of_high (hd : (l.map ConcBufElem.seqNum).Nodup) (h8 : ∀ e ∈ l, e.seqNum < 256) (hl : l ≠ [])
    (hall : ∀ e ∈ l, 255 ≤ e.seqNum) : ∃ e, l = [e] ∧ e.seqNum = 255 := by
  cases l with
  | nil => exact absurd rfl hl
  | cons e t =>
    have he : e.seqNum = 255 := by
      have := hall e List.mem_cons_self
      have := h8 e List.mem_cons_self
      omega
    cases t with
    | nil => exact ⟨e, rfl, he⟩
    | cons f t =>
      have hf : f.seqNum = 255 := by
        have := hall f (by simp)
        have := h8 f (by simp)
        omega
      simp [he, hf] at hd

private theorem lowestRecNum_lowest {a b : List ConcBufElem} (recNum : Nat) (hm : m.seqNum < 255)
    (hmin : ∀ e ∈ a ++ m :: b, m.seqNum ≤ e.seqNum) (hd : ((a ++ m :: b).map ConcBufElem.seqNum).Nodup) :
    lowestRecNum (a ++ m :: b) 255 recNum = m.recNum := by
  have hin : m ∈ a ++ m :: b := List.mem_append_right _ List.mem_cons_self
  rcases lowestRecNum_spec (a ++ m :: b) 255 recNum with ⟨hall, -⟩ | ⟨f, hf, -, hle, hr⟩
  · have := hall m hin
    omega
  · rw [hr, seqNum_inj hd hf hin (Nat.le_antisymm (hle m hin) (hmin f hf))]

/-- A round removes the lowest segment, when no segment in front of it has its record number. -/
private theorem sortConcBuf_lowest {a b : List ConcBufElem} (hm : m.seqNum < 255)
    (hmin : ∀ e ∈ a ++ m :: b, m.seqNum ≤ e.seqNum) (hd : ((a ++ m :: b).map ConcBufElem.seqNum).Nodup)
    (ha : ∀ e ∈ a, e.recNum ≠ m.recNum) :
    sortConcBuf (n + 1) (a ++ m :: b) recNum = m :: sortConcBuf n (a ++ b) m.recNum := by
  have hlow := lowestRecNum_lowest recNum hm hmin hd
  have hno : ∀ e ∈ a, ¬(e.recNum == m.recNum) = true := fun e he => by simpa using ha e he
  have hfind : (a ++ m :: b).find? (fun e => e.recNum == m.recNum) = some m := by
    rw [List.find?_append, List.find?_eq_none.2 hno, Option.none_or]
    exact List.find?_cons_of_pos (beq_self_eq_true m.recNum)
  have herase : (a ++ m :: b).eraseP (fun e => e.recNum == m.recNum) = a ++ b := by
    rw [List.eraseP_append_right _ hno]
    exact congrArg (a ++ ·) (List.eraseP_cons_of_pos (beq_self_eq_true m.recNum))
  rw [sortConcBuf, hlow, hfind, herase]

/-- The lowest segment in front of the others, and the rest. -/
private theorem sortable_lowest {a b : List ConcBufElem} (hm : m.seqNum < 255)
    (hmin : ∀ e ∈ a ++ m :: b, m.seqNum ≤ e.seqNum) (hd : ((a ++ m :: b).map ConcBufElem.seqNum).Nodup) :
    Sortable recNum (a ++ m :: b) ↔ (∀ e ∈ a, e.recNum ≠ m.recNum) ∧ Sortable m.recNum (a ++ b) := by
  have hmem : ∀ e, e ∈ a ++ m :: b ↔ e = m ∨ e ∈ a ++ b := fun e => by
    simp only [List.mem_append, List.mem_cons]
    exact or_left_comm
  have hin : m ∈ a ++ m :: b := (hmem m).2 (.inl rfl)
  have hnot : m ∉ a ++ b := by
    have hnd := hd.of_map
    rw [List.nodup_middle, List.nodup_cons] at hnd
    exact hnd.1
  have hlt : ∀ e ∈ a ++ b, m.seqNum < e.seqNum := fun e he => by
    refine Nat.lt_of_le_of_ne (hmin e ((hmem e).2 (.inr he))) fun hc => ?_
    exact hnot (seqNum_inj hd hin ((hmem e).2 (.inr he)) hc ▸ he)
  constructor
  · intro h
    have hfirst := h.first
    rw [List.pairwise_append] at hfirst
    refine ⟨fun e he hr => ?_, ?_, ?_, ?_⟩
    · have := hfirst.2.2 e he m List.mem_cons_self hr
      have := hlt e (List.mem_append_left _ he)
      omega
    · exact h.first.sublist (List.Sublist.append_left (List.sublist_cons_self m b) a)
    · intro e he h255
      have hmem' : e ∈ a ++ b := he ▸ List.mem_singleton_self e
      refine (h.last e ((hmem e).2 (.inr hmem')) h255 m hin ?_ fun g hg hge => ?_).symm
      · rintro rfl
        omega
      · rcases (hmem g).1 hg with rfl | hg
        · exact Nat.le_refl _
        · rw [he] at hg
          exact absurd (List.mem_singleton.1 hg) hge
    · intro e he h255 f hf hfe hmax
      refine h.last e ((hmem e).2 (.inr he)) h255 f ((hmem f).2 (.inr hf)) hfe fun g hg hge => ?_
      rcases (hmem g).1 hg with rfl | hg
      · exact Nat.le_of_lt (hlt f hf)
      · exact hmax g hg hge
  · rintro ⟨ha, h⟩
    refine ⟨?_, ?_, ?_⟩
    · have hfirst := h.first
      rw [List.pairwise_append] at hfirst ⊢
      rw [List.pairwise_cons]
      refine ⟨hfirst.1, ⟨fun e he _ => hlt e (List.mem_append_right _ he), hfirst.2.1⟩, fun e he f hf hr => ?_⟩
      rcases List.mem_cons.1 hf with rfl | hf
      · exact absurd hr (ha e he)
      · exact hfirst.2.2 e he f hf hr
    · intro e he h255
      have hme : m = e := by
        rw [he] at hin
        exact List.mem_singleton.1 hin
      rw [hme] at hm
      omega
    · intro e he h255 f hf hfe hmax
      have hem : e ∈ a ++ b := ((hmem e).1 he).resolve_left (by rintro rfl; omega)
      rcases (hmem f).1 hf with rfl | hfab
      · -- the lowest segment is the highest other one: there is no third
        have hall : ∀ g ∈ a ++ b, g = e := fun g hg => by
          by_contra hge
          have := hmax g ((hmem g).2 (.inr hg)) hge
          have := hlt g hg
          omega
        have hnd : (a ++ b).Nodup := by
          have hnd := hd.of_map
          rw [List.nodup_middle, List.nodup_cons] at hnd
          exact hnd.2
        have hone : a ++ b = [e] := by
          cases hab : a ++ b with
          | nil => simp [hab] at hem
          | cons x t =>
            rw [hab] at hall hnd
            cases t with
            | nil => rw [hall x (by simp)]
            | cons y t =>
              have hxy : x = y := (hall x (by simp)).trans (hall y (by simp)).symm
              simp [hxy] at hnd
        exact (h.alone e hone h255).symm
      · exact h.last e hem h255 f hfab hfe fun g hg hge => hmax g ((hmem g).2 (.inr hg)) hge

/-- A segment in front of the lowest one has its record number: it is taken in its place. -/
private theorem sortConcBuf_other {a b : List ConcBufElem} {e : ConcBufElem} (recNum : Nat) (hm : m.seqNum < 255)
    (hmin : ∀ e ∈ a ++ m :: b, m.seqNum ≤ e.seqNum) (hd : ((a ++ m :: b).map ConcBufElem.seqNum).Nodup) (he : e ∈ a)
    (hr : e.recNum = m.recNum) :
    ∃ f ∈ a, ∃ rest, sortConcBuf (n + 1) (a ++ m :: b) recNum = f :: rest := by
  have hlow := lowestRecNum_lowest recNum hm hmin hd
  cases hf : a.find? fun f => f.recNum == m.recNum with
  | none => exact absurd (beq_iff_eq.2 hr) (List.find?_eq_none.1 hf e he)
  | some f =>
    have hhead : (a ++ m :: b).find? (fun f => f.recNum == m.recNum) = some f := by
      rw [List.find?_append, hf, Option.some_or]
    rw [sortConcBuf, hlow, hhead]
    exact ⟨f, List.mem_of_find?_eq_some hf, _, rfl⟩

private theorem sortConcBuf_alone {e : ConcBufElem} (h : e.seqNum = 255) :
    sortConcBuf 1 [e] recNum = if e.recNum = recNum then [e] else [] := by
  by_cases hr : e.recNum = recNum
  · simp [sortConcBuf, lowestRecNum, h, hr]
  · simp [sortConcBuf, lowestRecNum, h, hr]

/-- The segments are all taken, the lower ones first, if and only if the list is sortable. -/
theorem sortConcBuf_sorted_iff (hd : (l.map ConcBufElem.seqNum).Nodup) (h8 : ∀ e ∈ l, e.seqNum < 256) :
    ((sortConcBuf l.length l recNum).Perm l ∧
      (sortConcBuf l.length l recNum).Pairwise fun e f => e.seqNum < f.seqNum) ↔ Sortable recNum l := by
  generalize hn : l.length = n
  induction n generalizing l recNum with
  | zero =>
    rw [List.length_eq_zero_iff.1 hn]
    refine iff_of_true ⟨List.Perm.nil, List.Pairwise.nil⟩ ⟨List.Pairwise.nil, ?_, ?_⟩
    · intro e he
      cases he
    · intro e he
      cases he
  | succ n ih =>
    have hl : l ≠ [] := by
      rintro rfl
      cases hn
    rcases lowestRecNum_spec l 255 recNum with ⟨hall, -⟩ | ⟨m, hm, hlt, hmin, -⟩
    · obtain ⟨e, rfl, h255⟩ := alone_of_high hd h8 hl hall
      obtain rfl : n = 0 := Nat.succ.inj hn.symm
      rw [sortConcBuf_alone h255]
      constructor
      · rintro ⟨hp, -⟩
        split at hp
        · rename_i hr
          refine ⟨List.pairwise_singleton _ e, fun f hf _ => (List.singleton_inj.1 hf) ▸ hr, fun f hf _ g hg hgf => ?_⟩
          rw [List.mem_singleton] at hf hg
          exact absurd (hg.trans hf.symm) hgf
        · exact absurd hp.length_eq (by simp)
      · intro h
        rw [if_pos (h.alone e rfl h255)]
        exact ⟨List.Perm.refl _, List.pairwise_singleton _ e⟩
    · obtain ⟨a, b, rfl⟩ := List.append_of_mem hm
      rw [sortable_lowest hlt hmin hd]
      by_cases ha : ∀ e ∈ a, e.recNum ≠ m.recNum
      · have hsub : (a ++ b).Sublist (a ++ m :: b) := List.Sublist.append_left (List.sublist_cons_self m b) a
        have hlen : (a ++ b).length = n := by
          simp only [List.length_append, List.length_cons] at hn ⊢
          omega
        rw [sortConcBuf_lowest hlt hmin hd ha,
          ← ih (hd.sublist (hsub.map _)) (fun e he => h8 e (hsub.subset he)) hlen, List.pairwise_cons]
        constructor
        · rintro ⟨hp, -, hs⟩
          exact ⟨ha, (hp.trans List.perm_middle).cons_inv, hs⟩
        · rintro ⟨-, hp, hs⟩
          refine ⟨(hp.cons m).trans List.perm_middle.symm, fun e he => ?_, hs⟩
          have hin := hp.subset he
          refine Nat.lt_of_le_of_ne (hmin e (hsub.subset hin)) fun hc => ?_
          have hnd := hd.of_map
          rw [List.nodup_middle, List.nodup_cons] at hnd
          exact hnd.1 (seqNum_inj hd hm (hsub.subset hin) hc ▸ hin)
      · refine iff_of_false ?_ fun h => ha h.1
        rintro ⟨hp, hs⟩
        simp only [not_forall, not_not] at ha
        obtain ⟨e, he, hr⟩ := ha
        obtain ⟨f, hf, rest, heq⟩ := sortConcBuf_other (n := n) recNum hlt hmin hd he hr
        rw [heq] at hp hs
        have hfm : f ≠ m := by
          rintro rfl
          have hnd := hd.of_map
          rw [List.nodup_middle, List.nodup_cons] at hnd
          exact hnd.1 (List.mem_append_left _ hf)
        have hrest := (List.mem_cons.1 (hp.symm.subset hm)).resolve_left (Ne.symm hfm)
        have := (List.pairwise_cons.1 hs).1 m hrest
        have := hmin f (List.mem_append_left _ hf)
        omega

/-- The call for a list of segments with distinct numbers returns with these segments in ascending order if and only
if the list is sortable. -/
theorem sortConcatList_sorts_iff (hd : (l.map ConcBufElem.seqNum).Nodup) (h8 : ∀ e ∈ l, e.seqNum < 256) :
    (∃ sorted, SortsTo l sorted ∧ sorted.Perm l ∧ sorted.Pairwise fun e f => e.seqNum < f.seqNum) ↔ Sortable 0 l := by
  have hlen : l.length < 65536 := by
    have hsub : l.map ConcBufElem.seqNum ⊆ List.range 256 := fun x hx => by
      obtain ⟨e, he, rfl⟩ := List.mem_map.1 hx
      exact List.mem_range.2 (h8 e he)
    have hle := (hd.subperm hsub).length_le
    rw [List.length_map, List.length_range] at hle
    omega
  rw [← sortConcBuf_sorted_iff hd h8]
  constructor
  · rintro ⟨sorted, hsorts, hp, hs⟩
    obtain ⟨rfl, -⟩ := (sortsTo_iff hlen).1 hsorts
    exact ⟨hp, hs⟩
  · rintro ⟨hp, hs⟩
    exact ⟨_, (sortsTo_iff hlen).2 ⟨rfl, hp.length_eq⟩, hp, hs⟩

end

theorem sortConcatList_sorts_iff_run :
    ∃ sorted, SortsTo [⟨3, 1, 0, .me⟩, ⟨1, 2, 0, .me⟩, ⟨2, 2, 0, .sm⟩, ⟨255, 1, 0, .sm⟩] sorted ∧
      sorted.Perm [⟨3, 1, 0, .me⟩, ⟨1, 2, 0, .me⟩, ⟨2, 2, 0, .sm⟩, ⟨255, 1, 0, .sm⟩] ∧
      sorted.Pairwise fun e f => e.seqNum < f.seqNum :=
  (sortConcatList_sorts_iff (by decide) (by decide)).2
    ((sortConcBuf_sorted_iff (by decide) (by decide)).1 (by decide))

/-- Two segments of different memories with the record number 1 come out in the order they were in, and the call for a
segment with the number 255 and the record number 1 does not return. -/
theorem sortConcatList_fails :
    (∀ sorted, SortsTo [⟨2, 1, 0, .me⟩, ⟨1, 1, 0, .sm⟩] sorted → ¬sorted.Pairwise fun e f => e.seqNum < f.seqNum) ∧
      ∀ sorted, ¬SortsTo [⟨255, 1, 0, .me⟩] sorted := by
  refine ⟨fun sorted h => ?_, fun sorted h => ?_⟩
  · obtain ⟨rfl, -⟩ := (sortsTo_iff (by decide)).1 h
    decide
  · obtain ⟨rfl, hlen⟩ := (sortsTo_iff (by decide)).1 h
    exact absurd hlen (by decide)

end Citrine.Aci
