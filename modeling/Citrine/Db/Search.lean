import Mathlib.Data.List.Basic
import Citrine.Lib.Bisect
import Citrine.Lib.While

/-!
# Searching a sorted list of records

`db_binary_search` and the sorted branch of `db_search` (`db.c`).  The sorted list holds record numbers, the search
function compares the record with the search tag, and `order_num` is the place behind the last match.
-/

namespace Citrine.Db

open Bisect

/-- `SEARCH_FAILED` -/
def searchFailed : Int := -1

/-- A value assigned to a `SHORT`. -/
def toShort (n : Int) : Int := n.bmod 65536

/-- A `SHORT` assigned to a `UINT32`. -/
def shortToUint32 (n : Int) : Nat := (n % 4294967296).toNat

/-- What `db_binary_search` returns and what it leaves in `order_num`, with the places of the list it read. -/
structure Found where
  ret : Int
  orderNum : Int
  probes : List Nat
  deriving DecidableEq, Repr

/-- The variables of the loop. -/
structure Probing where
  interval : Interval
  matched : Bool
  probes : List Nat

/-- The condition of the loop. -/
def Probing.goesOn (s : Probing) : Bool := s.interval.left < s.interval.right

/-- One round; `search` is the search function with the tag, the database and the field it is called with. -/
def Probing.body (sortList : List Nat) (search : Nat → Int) (s : Probing) : Probing :=
  let mid := s.interval.mid
  let cmpRes := search (sortList.getD mid 0)
  { interval := s.interval.halve fun _ => !(decide (cmpRes < 0))
    matched := s.matched || cmpRes == 0
    probes := s.probes ++ [mid] }

/-- `db_binary_search`.  The loop halves the interval, so it ends within as many rounds as there are elements. -/
def dbBinarySearch (sortList : List Nat) (numOfElements : Nat) (orderNum : Int) (search : Nat → Int) : Found :=
  let left := shortToUint32 orderNum
  let right := numOfElements
  if left ≥ right then { ret := searchFailed, orderNum := orderNum, probes := [] }
  else
    -- as often the first element is the matching one, a shortcut is tried
    let cmpRes := search (sortList.getD left 0)
    if cmpRes = 0 then { ret := toShort (left + 1), orderNum := toShort (left + 1), probes := [left] }
    else if cmpRes > 0 then { ret := searchFailed, orderNum := orderNum, probes := [left] }
    else
      let s := While.loop Probing.goesOn (Probing.body sortList search) numOfElements
        { interval := ⟨left, right⟩, matched := false, probes := [left] }
      if s.matched then
        { ret := toShort (s.interval.left + 1), orderNum := toShort (s.interval.left + 1), probes := s.probes }
      else { ret := searchFailed, orderNum := orderNum, probes := s.probes }

/-- `db_search` with a sort index whose list is in memory: the record it returns, if any, and `order_num`. -/
def dbSearch (sortList : List Nat) (search : Nat → Int) (orderNum : Int) : Option Nat × Int :=
  let found := dbBinarySearch sortList sortList.length orderNum search
  if found.ret = searchFailed then (none, found.orderNum)
  else (some (sortList.getD (found.ret - 1).toNat 0), found.orderNum)

/-- `db_search` called again and again, at most `fuel` times, until it finds nothing more: the records, each with
the `order_num` it was returned with. -/
def dbSearchAll (sortList : List Nat) (search : Nat → Int) : Nat → Int → List (Nat × Int)
  | 0, _ => []
  | fuel + 1, orderNum =>
    match dbSearch sortList search orderNum with
    | (none, _) => []
    | (some record, orderNum) => (record, orderNum) :: dbSearchAll sortList search fuel orderNum

/-- Along the list the search function is negative, then zero, then positive. -/
def Monotone (sortList : List Nat) (search : Nat → Int) : Prop :=
  sortList.Pairwise fun a b => (0 ≤ search a → 0 ≤ search b) ∧ (0 < search a → 0 < search b)

/-- The first matching element at or behind a place. -/
structure FirstMatch (sortList : List Nat) (search : Nat → Int) (start i : Nat) : Prop where
  start_le : start ≤ i
  lt : i < sortList.length
  hit : search (sortList.getD i 0) = 0
  first : ∀ j, start ≤ j → j < i → search (sortList.getD j 0) ≠ 0

/-! ### Comparing along the list -/

section
variable {sortList : List Nat} {search : Nat → Int} {start : Nat}

private theorem Monotone.le (h : Monotone sortList search) {i j : Nat} (hij : i ≤ j) (hj : j < sortList.length) :
    (0 ≤ search (sortList.getD i 0) → 0 ≤ search (sortList.getD j 0)) ∧
      (0 < search (sortList.getD i 0) → 0 < search (sortList.getD j 0)) := by
  rcases Nat.lt_or_eq_of_le hij with hlt | rfl
  · have hp := List.pairwise_iff_getElem.1 h i j (by omega) hj hlt
    rwa [← List.getElem_eq_getD (h := by omega) 0, ← List.getElem_eq_getD (h := hj) 0]
  · exact ⟨id, id⟩

/-- The property that begins with the first element that is not below the search tag. -/
private def notBelow (sortList : List Nat) (search : Nat → Int) (i : Nat) : Bool :=
  !(decide (search (sortList.getD i 0) < 0))

private theorem notBelow_iff {i : Nat} : notBelow sortList search i ↔ 0 ≤ search (sortList.getD i 0) := by
  simp [notBelow]

private theorem notBelow_lasts (h : Monotone sortList search) : Lasts (notBelow sortList search) start sortList.length := by
  intro i j _ hij hj hp
  rw [notBelow_iff] at hp ⊢
  exact (h.le hij hj).1 hp

/-- What the rounds of the loop keep: the interval splits the list, some element matches if `matched` is set, and
`matched` is set if the element behind the interval matches. -/
private structure Probed (sortList : List Nat) (search : Nat → Int) (start : Nat) (s : Probing) : Prop where
  splits : Splits (notBelow sortList search) start sortList.length s.interval
  bounds : ∀ i ∈ s.probes, i < sortList.length
  hit : s.matched → ∃ i, start ≤ i ∧ i < sortList.length ∧ search (sortList.getD i 0) = 0
  behind : s.interval.right < sortList.length → search (sortList.getD s.interval.right 0) = 0 → s.matched

private theorem halve_body (s : Probing) :
    (s.body sortList search).interval = s.interval.halve (notBelow sortList search) := rfl

private theorem Probed.body (hm : Monotone sortList search) {s : Probing} (h : Probed sortList search start s)
    (hg : s.goesOn = true) :
    Probed sortList search start (s.body sortList search) ∧
      (s.body sortList search).interval.width < s.interval.width := by
  have hlt : s.interval.left < s.interval.right := by simpa [Probing.goesOn] using hg
  obtain ⟨hl, hr⟩ := mid_lt hlt
  have hfirst := h.splits.first_le
  have hlast := h.splits.le_last
  have hmid : s.interval.mid < sortList.length := by omega
  refine ⟨⟨h.splits.halve (notBelow_lasts hm) hlt, ?_, ?_, ?_⟩, width_halve hlt⟩
  · intro i hi
    rcases List.mem_append.1 hi with hi | hi
    · exact h.bounds i hi
    · rw [List.mem_singleton.1 hi]
      exact hmid
  · intro hmatched
    rcases Bool.or_eq_true_iff.1 hmatched with hmatched | hc
    · exact h.hit hmatched
    · exact ⟨s.interval.mid, by omega, hmid, beq_iff_eq.1 hc⟩
  · rw [halve_body]
    unfold Interval.halve
    split
    · intro _ hc
      exact Bool.or_eq_true_iff.2 (.inr (beq_iff_eq.2 hc))
    · intro hb hc
      exact Bool.or_eq_true_iff.2 (.inl (h.behind hb hc))

/-- The rounds of the loop that begins behind an element below the tag. -/
private theorem probed_loop (hm : Monotone sortList search) (hs : start < sortList.length) :
    Probed sortList search start
        (While.loop Probing.goesOn (Probing.body sortList search) sortList.length
          { interval := ⟨start, sortList.length⟩, matched := false, probes := [start] }) ∧
      Probing.goesOn
        (While.loop Probing.goesOn (Probing.body sortList search) sortList.length
          { interval := ⟨start, sortList.length⟩, matched := false, probes := [start] }) = false := by
  refine While.rule (fun s => s.interval.width) (fun s h hg => h.body hm hg) ⟨splits_whole (by omega), ?_, ?_, ?_⟩ ?_
  · intro i hi
    rw [List.mem_singleton.1 hi]
    exact hs
  · intro h
    cases h
  · intro h
    exact absurd h (Nat.lt_irrefl _)
  · exact Nat.sub_le ..

/-- What is searched when the loop is left: the first matching element, if any. -/
private theorem Probed.ends (hm : Monotone sortList search) {s : Probing} (h : Probed sortList search start s)
    (hg : s.goesOn = false) :
    (s.matched → FirstMatch sortList search start s.interval.left) ∧
      (s.matched = false → ∀ i, start ≤ i → i < sortList.length → search (sortList.getD i 0) ≠ 0) := by
  have hge : ¬ s.interval.left < s.interval.right := by simpa [Probing.goesOn] using hg
  have heq : s.interval.right = s.interval.left := by have := h.splits.le; omega
  have hfirst := h.splits.first_le
  have hbegin : ∀ i, start ≤ i → i < sortList.length → search (sortList.getD i 0) = 0 →
      s.interval.left < sortList.length ∧ search (sortList.getD s.interval.left 0) = 0 := by
    intro i hi hl hz
    have hle := (h.splits.begins hge hi hl).1 (notBelow_iff.2 (by omega))
    have hnb := notBelow_iff.1 ((h.splits.begins hge hfirst (by omega)).2 (Nat.le_refl _))
    have hpos := (hm.le hle hl).2
    exact ⟨by omega, by omega⟩
  constructor
  · intro hmatched
    obtain ⟨i, hi, hl, hz⟩ := h.hit hmatched
    obtain ⟨hlt, hz⟩ := hbegin i hi hl hz
    refine ⟨hfirst, hlt, hz, fun j hj hjl hzj => ?_⟩
    have := (h.splits.begins hge hj (by omega)).1 (notBelow_iff.2 (by omega))
    omega
  · intro hmatched i hi hl hz
    obtain ⟨hlt, hz⟩ := hbegin i hi hl hz
    rw [← heq] at hlt hz
    rw [h.behind hlt hz] at hmatched
    cases hmatched

/-! ### The search -/

private theorem shortToUint32_natCast {k : Nat} (hk : k < 32768) : shortToUint32 k = k := by
  unfold shortToUint32
  omega

private theorem toShort_natCast {k : Nat} (hk : k < 32768) : toShort k = k := by
  unfold toShort
  rw [Int.bmod_eq_of_le] <;> omega

/-- What `db_binary_search` comes to, by the first matching element. -/
private theorem dbBinarySearch_cases (hl : sortList.length < 256) (hm : Monotone sortList search)
    (hk : start < 32768) :
    let found := dbBinarySearch sortList sortList.length start search
    (∀ i ∈ found.probes, i < sortList.length) ∧
      ((∃ i, FirstMatch sortList search start i ∧ found.ret = i + 1 ∧ found.orderNum = i + 1) ∨
        ((∀ i, start ≤ i → i < sortList.length → search (sortList.getD i 0) ≠ 0) ∧
          found.ret = searchFailed ∧ found.orderNum = start)) := by
  have hplace : ∀ i, i < sortList.length → toShort ((i : Int) + 1) = i + 1 := by
    intro i hi
    have := toShort_natCast (k := i + 1) (by omega)
    simpa using this
  unfold dbBinarySearch
  rw [shortToUint32_natCast hk]
  dsimp only
  split
  · refine ⟨by simp, .inr ⟨fun i hi hlt => by omega, rfl, rfl⟩⟩
  · rename_i hlt
    split
    · rename_i hz
      refine ⟨by simp; omega, .inl ⟨start, ⟨Nat.le_refl _, by omega, hz, fun j hj hjl => by omega⟩, ?_, ?_⟩⟩
      · dsimp only
        rw [hplace start (by omega)]
      · dsimp only
        rw [hplace start (by omega)]
    · split
      · rename_i hz hpos
        refine ⟨by simp; omega, .inr ⟨fun i hi hil hiz => ?_, rfl, rfl⟩⟩
        have := (hm.le hi hil).2 hpos
        omega
      · obtain ⟨hp, hg⟩ := probed_loop hm (show start < sortList.length by omega)
        generalize While.loop Probing.goesOn (Probing.body sortList search) sortList.length
          { interval := ⟨start, sortList.length⟩, matched := false, probes := [start] } = s at hp hg ⊢
        obtain ⟨hyes, hno⟩ := hp.ends hm hg
        split
        · rename_i hmatched
          have hf := hyes hmatched
          refine ⟨hp.bounds, .inl ⟨s.interval.left, hf, ?_, ?_⟩⟩
          · dsimp only
            rw [hplace _ hf.lt]
          · dsimp only
            rw [hplace _ hf.lt]
        · rename_i hmatched
          exact ⟨hp.bounds, .inr ⟨hno (by simpa using hmatched), rfl, rfl⟩⟩

/-- The matching elements at or behind a place, each with the `order_num` behind it. -/
def matchesFrom (sortList : List Nat) (search : Nat → Int) (start : Nat) : List (Nat × Int) :=
  ((List.range' start (sortList.length - start)).filter fun i => search (sortList.getD i 0) == 0).map
    fun i => (sortList.getD i 0, (i : Int) + 1)

private theorem matchesFrom_none (h : ∀ i, start ≤ i → i < sortList.length → search (sortList.getD i 0) ≠ 0) :
    matchesFrom sortList search start = [] := by
  unfold matchesFrom
  rw [List.map_eq_nil_iff, List.filter_eq_nil_iff]
  intro i hi
  rw [List.mem_range'_1] at hi
  have := h i (by omega) (by omega)
  simpa using this

private theorem matchesFrom_first {i : Nat} (h : FirstMatch sortList search start i) :
    matchesFrom sortList search start =
      (sortList.getD i 0, (i : Int) + 1) :: matchesFrom sortList search (i + 1) := by
  have hle := h.start_le
  have hlt := h.lt
  have hr : List.range' start (sortList.length - start) =
      List.range' start (i - start) ++ (i :: List.range' (i + 1) (sortList.length - (i + 1))) := by
    have h1 : sortList.length - start = (i - start) + ((sortList.length - (i + 1)) + 1) := by omega
    have h2 : start + (i - start) = i := by omega
    rw [h1, ← List.range'_append_1, h2, List.range'_succ]
  have hfront : (List.range' start (i - start)).filter (fun i => search (sortList.getD i 0) == 0) = [] := by
    rw [List.filter_eq_nil_iff]
    intro j hj
    rw [List.mem_range'_1] at hj
    have := h.first j (by omega) (by omega)
    simpa using this
  unfold matchesFrom
  rw [hr, List.filter_append, hfront, List.nil_append, List.filter_cons_of_pos (by simpa using h.hit), List.map_cons]

private theorem dbSearchAll_eq (hl : sortList.length < 256) (hm : Monotone sortList search) (hk : start < 32768)
    {fuel : Nat} (hf : sortList.length - start < fuel) :
    dbSearchAll sortList search fuel start = matchesFrom sortList search start := by
  induction fuel generalizing start with
  | zero => omega
  | succ fuel ih =>
    obtain ⟨-, ⟨i, hi, hret, horder⟩ | ⟨hnone, hret, horder⟩⟩ := dbBinarySearch_cases hl hm hk
    · have hne : dbSearch sortList search start = (some (sortList.getD i 0), (i : Int) + 1) := by
        unfold dbSearch
        dsimp only
        rw [hret, horder, if_neg (by unfold searchFailed; omega)]
        simp
      have hle := hi.start_le
      have hlt := hi.lt
      have hrest := @ih (i + 1) (by omega) (by omega)
      rw [matchesFrom_first hi, ← hrest]
      simp only [dbSearchAll, hne]
      rfl
    · have hne : dbSearch sortList search start = (none, (start : Int)) := by
        unfold dbSearch
        dsimp only
        rw [hret, horder, if_pos rfl]
      rw [matchesFrom_none hnone]
      simp only [dbSearchAll, hne]

/-- The binary search finds the first matching element at or behind `order_num`, reads no place behind the list, and
finds the matching elements one after the other when it is repeated. -/
theorem dbBinarySearch_finds (hl : sortList.length < 256) (hm : Monotone sortList search) (hk : start < 32768) :
    let found := dbBinarySearch sortList sortList.length start search
    (∀ i ∈ found.probes, i < sortList.length) ∧
      (∀ i, FirstMatch sortList search start i → found.ret = i + 1 ∧ found.orderNum = i + 1) ∧
      (found.ret = searchFailed ↔ ∀ i, start ≤ i → i < sortList.length → search (sortList.getD i 0) ≠ 0) ∧
      (found.ret = searchFailed → found.orderNum = start) ∧
      dbSearchAll sortList search (sortList.length + 1) start = matchesFrom sortList search start := by
  obtain ⟨hp, ⟨i, hi, hret, horder⟩ | ⟨hnone, hret, horder⟩⟩ := dbBinarySearch_cases hl hm hk
  · have hne : (dbBinarySearch sortList sortList.length start search).ret ≠ searchFailed := by
      rw [hret]
      unfold searchFailed
      omega
    refine ⟨hp, fun j hj => ?_, ⟨fun h => absurd h hne, fun h => absurd hi.hit (h i hi.start_le hi.lt)⟩,
      fun h => absurd h hne, dbSearchAll_eq hl hm hk (by omega)⟩
    have hij : j = i := by
      rcases Nat.lt_trichotomy j i with hlt | heq | hlt
      · exact absurd hj.hit (hi.first j hj.start_le hlt)
      · exact heq
      · exact absurd hi.hit (hj.first i hi.start_le hlt)
    rw [hij]
    exact ⟨hret, horder⟩
  · exact ⟨hp, fun j hj => absurd hj.hit (hnone j hj.start_le hj.lt), ⟨fun _ => hnone, fun _ => hret⟩,
      fun _ => horder, dbSearchAll_eq hl hm hk (by omega)⟩

end

/-- The records 7, 3, 9, 4 and 8 compare as -1, 0, 0, 0 and 1. -/
def exampleOrder (record : Nat) : Int :=
  match record with
  | 7 => -1
  | 8 => 1
  | _ => 0

theorem dbBinarySearch_finds_run :
    let found := dbBinarySearch [7, 3, 9, 4, 8] 5 0 exampleOrder
    (∀ i ∈ found.probes, i < 5) ∧
      (∀ i, FirstMatch [7, 3, 9, 4, 8] exampleOrder 0 i → found.ret = i + 1 ∧ found.orderNum = i + 1) ∧
      (found.ret = searchFailed ↔
        ∀ i, 0 ≤ i → i < 5 → exampleOrder (([7, 3, 9, 4, 8] : List Nat).getD i 0) ≠ 0) ∧
      (found.ret = searchFailed → found.orderNum = (0 : Nat)) ∧
      dbSearchAll [7, 3, 9, 4, 8] exampleOrder 6 0 = matchesFrom [7, 3, 9, 4, 8] exampleOrder 0 :=
  have hm : Monotone [7, 3, 9, 4, 8] exampleOrder := by
    unfold Monotone
    decide
  have hk : 0 < 32768 := by decide
  dbBinarySearch_finds (by decide) hm hk

end Citrine.Db
