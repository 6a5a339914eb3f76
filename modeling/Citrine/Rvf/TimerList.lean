import Mathlib.Algebra.GroupWithZero.Nat
import Mathlib.Data.List.Perm.Subperm
import Mathlib.Logic.Function.Basic
import Citrine.Lib.Links
import Citrine.Lib.Machine

/-!
# Timer lists

`rvf_time.c`: a doubly linked list of entries each of which holds the ticks that remain behind the entry in front of it,
while `last_ticks` is the time up to the last one.  An entry is given by a number, and 0 is `NULL`.  The abstract view of
a timer list are the deadlines of its entries: what remains is the deadline less the time that has passed.
-/

namespace Citrine.Rvf

/-- `T_RVF_TIMER_LIST_Q` with the entries. -/
structure TimerList where
  pNext : Nat → Nat
  pPrev : Nat → Nat
  ticks : Nat → Nat
  tInit : Nat → Nat
  pFirst : Nat
  pLast : Nat
  lastTicks : Nat

/-- The ticks of an entry that is in no list. -/
def noTicks : Nat := 0xFFFFFFFF

namespace TimerList
variable (s : TimerList)

def setNext (p v : Nat) : TimerList := { s with pNext := Function.update s.pNext p v }

def setPrev (p v : Nat) : TimerList := { s with pPrev := Function.update s.pPrev p v }

def setTicks (p v : Nat) : TimerList := { s with ticks := Function.update s.ticks p v }

/-- What a caller sets before it adds an entry. -/
def setEntry (p ticks tInit : Nat) : TimerList :=
  { s with ticks := Function.update s.ticks p ticks, tInit := Function.update s.tInit p tInit }

/-- A loop over the entries without ticks: their number, and the entry behind them. -/
def skipExpired : Nat → Nat → Nat → Option (Nat × Nat)
  | 0, _, _ => none
  | n + 1, p, numTimeOut =>
    if p ≠ 0 ∧ s.ticks p = 0 then skipExpired n (s.pNext p) ((numTimeOut + 1) % 65536) else some (numTimeOut, p)

/-- `rvf_update_timer_list` -/
def updateTimerList (n : Nat) : Option (Nat × TimerList) := do
  let (numTimeOut, p) ← s.skipExpired n s.pFirst 0
  let (numTimeOut, s) ←
    if p ≠ 0 ∧ s.ticks p ≠ 0 then
      let s := s.setTicks p (s.ticks p - 1)
      if s.ticks p = 0 then (s.skipExpired n p numTimeOut).map fun r => (r.1, s) else some (numTimeOut, s)
    else some (numTimeOut, s)
  return (numTimeOut, if s.lastTicks ≠ 0 then { s with lastTicks := s.lastTicks - 1 } else s)

/-- The loop of `rvf_add_to_timer_list`: the entry to insert the new one before. -/
def walk (p : Nat) : Nat → TimerList → Nat → Option (TimerList × Nat)
  | 0, _, _ => none
  | n + 1, s, pTemp =>
    if pTemp = 0 then none
    else if s.ticks pTemp < s.ticks p then walk p n (s.setTicks p (s.ticks p - s.ticks pTemp)) (s.pNext pTemp)
    else some (s, pTemp)

/-- `rvf_add_to_timer_list` -/
def addToTimerList (n p : Nat) : Option TimerList :=
  if s.lastTicks ≤ s.ticks p then
    let s :=
      if s.pFirst = 0 then { s with pFirst := p }
      else
        let s := if s.pLast ≠ 0 then s.setNext s.pLast p else s
        s.setPrev p s.pLast
    let s := s.setNext p 0
    some { s.setTicks p (s.ticks p - s.lastTicks) with pLast := p, lastTicks := s.ticks p }
  else
    (walk p n s s.pFirst).map fun (s, pTemp) =>
      let s :=
        if pTemp = s.pFirst then { (s.setNext p s.pFirst).setPrev s.pFirst p with pFirst := p }
        else
          let s := s.setNext (s.pPrev pTemp) p
          let s := s.setPrev p (s.pPrev pTemp)
          let s := s.setPrev pTemp p
          s.setNext p pTemp
      s.setTicks pTemp (s.ticks pTemp - s.ticks p)

/-- `rvf_remove_from_timer_list` -/
def removeFromTimerList (p : Nat) : TimerList :=
  if p = 0 ∨ s.ticks p = noTicks ∨ s.pFirst = 0 then s
  else
    let s :=
      if s.pNext p ≠ 0 then s.setTicks (s.pNext p) ((s.ticks (s.pNext p) + s.ticks p) % 2 ^ 32)
      else { s with lastTicks := (s.lastTicks + 2 ^ 32 - s.ticks p) % 2 ^ 32 }
    let done (s : TimerList) : TimerList := ((s.setNext p 0).setPrev p 0).setTicks p noTicks
    if s.pFirst = p then
      let s := { s with pFirst := s.pNext p }
      let s := if s.pFirst ≠ 0 then s.setPrev s.pFirst 0 else s
      done (if s.pLast = p then { s with pLast := 0 } else s)
    else if s.pLast = p then
      let s := { s with pLast := s.pPrev p }
      done (if s.pLast ≠ 0 then s.setNext s.pLast 0 else s)
    else if s.pNext p ≠ 0 ∧ s.pPrev (s.pNext p) = p then
      let s := s.setPrev (s.pNext p) (s.pPrev p)
      if s.pPrev p ≠ 0 ∧ s.pNext (s.pPrev p) = p then done (s.setNext (s.pPrev p) (s.pNext p))
      else s
    else s

/-- `rvf_get_expired_entry` -/
def getExpiredEntry : Nat × TimerList :=
  if s.pFirst ≠ 0 ∧ s.ticks s.pFirst = 0 then
    let p := s.pFirst
    if s.tInit p ≠ 0 then (p, s.setTicks p (s.tInit p))
    else
      let s := { s with pFirst := s.pNext p }
      let s := if s.pFirst ≠ 0 then s.setPrev s.pFirst 0 else s
      let s := if s.pLast = p then { s with pLast := 0 } else s
      (p, ((s.setNext p 0).setPrev p 0).setTicks p noTicks)
  else (0, s)

end TimerList

/-! ### Runs -/

inductive TimerCall where
  | add (p ticks tInit : Nat)
  | remove (p : Nat)
  | update
  | getExpired
  deriving DecidableEq, Repr

/-- A timer list with its abstract view: the ticks that have passed, and the deadlines of the entries in the list. -/
structure TimerState where
  list : TimerList
  now : Nat
  deadline : Nat → Option Nat

/-- One call among `n` entries, `none` when a loop leaves the list or does not end: it meets each entry once at most. -/
def TimerState.call (n : Nat) (s : TimerState) : TimerCall → Option TimerState
  | .add p ticks tInit =>
    ((s.list.setEntry p ticks tInit).addToTimerList (n + 1) p).map fun l => ⟨l, s.now, Function.update s.deadline p (some (s.now + ticks))⟩
  | .remove p => some ⟨s.list.removeFromTimerList p, s.now, Function.update s.deadline p none⟩
  | .update => (s.list.updateTimerList (n + 1)).map fun r => ⟨r.2, s.now + 1, s.deadline⟩
  | .getExpired =>
    let (p, l) := s.list.getExpiredEntry
    some (if p = 0 then ⟨l, s.now, s.deadline⟩
      else ⟨l, s.now, Function.update s.deadline p
        (if s.list.tInit p = 0 then none else (s.deadline p).map (· + s.list.tInit p))⟩)

/-- The calls for the entries 1 to `n`. -/
def TimerCall.valid (n : Nat) : TimerCall → Bool
  | .add p ticks tInit => 0 < p && p ≤ n && ticks < 2 ^ 32 && tInit < 2 ^ 32
  | .remove p => p ≤ n
  | .update | .getExpired => true

/-- The runs, from an empty list and initialised entries. -/
def timerList.machine (n : Nat) : Machine TimerState TimerCall where
  init s := s.list.pFirst = 0 ∧ s.list.pLast = 0 ∧ s.list.lastTicks = 0 ∧
    (∀ p, s.list.pNext p = 0 ∧ s.list.pPrev p = 0 ∧ s.list.ticks p = noTicks) ∧ ∀ p, s.deadline p = none
  step s e := if e.valid n then s.call n e else none

/-- An entry is added that is in no list, and with 0 ticks only when no entry that expired earlier is still in the list in
front of one that has not expired; a removed entry has not the ticks of an entry in no list; and the entry that is
fetched is not a recurrent one. -/
def TimerState.sound (s : TimerState) : TimerCall → Bool
  | .add p ticks _ =>
    (s.deadline p).isNone &&
      !(ticks == 0 && s.list.lastTicks != 0 && (s.deadline s.list.pFirst).any fun d => d < s.now)
  | .remove p => !((s.deadline p).isSome && s.list.ticks p == noTicks)
  | .update => true
  | .getExpired => !(s.list.pFirst != 0 && s.list.ticks s.list.pFirst == 0 && s.list.tInit s.list.pFirst != 0)

/-- What remains up to each entry, from a time on: the sum of the ticks, and the deadline less the time that has
passed. -/
def Due (ticks due : Nat → Nat) (now : Nat) : Nat → List Nat → Prop
  | _, [] => True
  | t, p :: l => due p - now = t + ticks p ∧ Due ticks due now (t + ticks p) l

/-- The links of a timer list and its total. -/
structure TimerList.Law (s : TimerList) (l : List Nat) : Prop where
  links : Linear 0 (Function.update s.pNext 0 s.pFirst) s.pPrev l
  last : s.pLast = l.getLast?.getD 0
  total : s.lastTicks = (l.map s.ticks).sum
  small : s.lastTicks < 2 ^ 32
  idle : ∀ p, p ≠ 0 → p ∉ l → s.pNext p = 0 ∧ s.pPrev p = 0

/-- The deadline of an entry in the list. -/
def TimerState.due (s : TimerState) (p : Nat) : Nat := (s.deadline p).getD 0

/-- The timer list holds the deadlines. -/
structure TimerState.Law (n : Nat) (s : TimerState) (l : List Nat) : Prop where
  list : s.list.Law l
  listed : ∀ p, p ∈ l ↔ (s.deadline p).isSome
  idle : ∀ p, p ≠ 0 → p ∉ l → s.list.ticks p = noTicks
  due : Due s.list.ticks s.due s.now 0 l
  sorted : l.Pairwise fun p q => s.due p ≤ s.due q
  within : ∀ p ∈ l, p ≤ n

/-! ### Taking an entry out -/

section
variable {s t : TimerList} {l a b : List Nat} {p q : Nat}

theorem TimerList.Law.first (h : s.Law l) : s.pFirst = l.head?.getD 0 := by
  have hlinks := h.links
  cases l with
  | nil => exact hlinks.empty_iff.2 rfl
  | cons q l => exact hlinks.first.1

/-- Where an entry lies in the list. -/
private theorem TimerList.Law.at (h : s.Law (a ++ p :: b)) :
    p ≠ 0 ∧ s.pPrev p = a.getLast?.getD 0 ∧ s.pNext p = b.head?.getD 0 ∧ (s.pFirst = p ↔ a = []) ∧
      (s.pLast = p ↔ b = []) := by
  have hnd := List.nodup_cons.1 h.links.nodup
  have hp : p ≠ 0 := by
    rintro rfl
    exact hnd.1 (List.mem_append_right _ List.mem_cons_self)
  obtain ⟨hprev, hnext⟩ := h.links.beside
  rw [Function.update_of_ne hp] at hnext
  have hdis := List.nodup_append.1 hnd.2
  refine ⟨hp, hprev, hnext, ?_, ?_⟩
  · rw [h.first]
    cases a with
    | nil => exact iff_of_true rfl rfl
    | cons x a =>
      refine iff_of_false (fun he => ?_) (List.cons_ne_nil x a)
      exact hdis.2.2 x List.mem_cons_self p List.mem_cons_self he
  · rw [h.last, List.getLast?_append, List.getLast?_cons]
    cases hb : b.getLast? with
    | none => exact iff_of_true rfl (List.getLast?_eq_none_iff.1 hb)
    | some z =>
      have hz := List.mem_of_getLast? hb
      refine iff_of_false (fun he => ?_) (fun hn => by simp [hn] at hz)
      have hzp : z = p := he
      exact (List.nodup_cons.1 hdis.2.1).1 (hzp ▸ hz)

/-- What the links of an entry in the list say. -/
private theorem TimerList.Law.joins (h : s.Law (a ++ p :: b)) :
    p ≠ 0 ∧ (s.pFirst = p ↔ s.pPrev p = 0) ∧ (s.pLast = p ↔ s.pNext p = 0) ∧ s.pFirst ≠ 0 ∧ s.pLast ≠ 0 ∧
      (s.pNext p ≠ 0 → s.pPrev (s.pNext p) = p) ∧ (s.pPrev p ≠ 0 → s.pNext (s.pPrev p) = p) ∧
      s.pNext p ≠ p ∧ s.pPrev p ≠ p := by
  obtain ⟨hp, hprev, hnext, hfirst, hlast⟩ := h.at
  have hin : p ∈ a ++ p :: b := List.mem_append_right _ List.mem_cons_self
  have hnull : ∀ q ∈ a ++ p :: b, q ≠ 0 := by
    rintro q hq rfl
    exact (List.nodup_cons.1 h.links.nodup).1 hq
  have hne := h.links.neighbours hin
  rw [Function.update_of_ne hp] at hne
  have hpp : a = [] ↔ s.pPrev p = 0 := by
    rw [hprev]
    rcases List.eq_nil_or_concat a with rfl | ⟨c, x, hx⟩
    · exact iff_of_true rfl rfl
    · rw [List.concat_eq_append] at hx
      rw [hx, List.getLast?_concat]
      exact iff_of_false (by simp) (hnull x (by simp [hx]))
  have hnn : b = [] ↔ s.pNext p = 0 := by
    rw [hnext]
    cases b with
    | nil => exact iff_of_true rfl rfl
    | cons y b => exact iff_of_false (List.cons_ne_nil y b) (hnull y (by simp))
  refine ⟨hp, hfirst.trans hpp, hlast.trans hnn, fun hz => ?_, fun hz => ?_, fun hz => ?_, fun hz => ?_, hne.2.2.2,
    hne.2.2.1⟩
  · rw [h.first] at hz
    cases a with
    | nil => exact hp hz
    | cons x a => exact hnull x (by simp) hz
  · rw [h.last] at hz
    cases hb : (a ++ p :: b).getLast? with
    | none => simp at hb
    | some z =>
      rw [hb] at hz
      exact hnull z (List.mem_of_getLast? hb) hz
  · cases b with
    | nil => exact absurd hnext hz
    | cons y b =>
      have hlinks := h.links
      rw [List.append_cons] at hlinks
      rw [hnext, List.head?_cons, Option.getD_some, hlinks.beside.1, List.getLast?_concat]
      rfl
  · rcases List.eq_nil_or_concat a with rfl | ⟨c, x, hx⟩
    · exact absurd hprev hz
    · rw [List.concat_eq_append] at hx
      subst hx
      have hlinks := h.links
      rw [← List.append_cons] at hlinks
      have hx0 := hnull x (by simp)
      have hnx := hlinks.beside.2
      rw [Function.update_of_ne hx0] at hnx
      rw [hprev, List.getLast?_concat, Option.getD_some, hnx]
      rfl

/-- The entries around it are linked to each other, and its ticks go to the one behind it, or out of the total. -/
private theorem TimerList.Law.remove_eq (h : s.Law (a ++ p :: b)) (ht : s.ticks p ≠ noTicks) :
    s.removeFromTimerList p =
      { pNext := Function.update (if s.pPrev p = 0 then s.pNext else Function.update s.pNext (s.pPrev p) (s.pNext p)) p 0
        pPrev := Function.update (if s.pNext p = 0 then s.pPrev else Function.update s.pPrev (s.pNext p) (s.pPrev p)) p 0
        ticks := Function.update (if s.pNext p = 0 then s.ticks else Function.update s.ticks (s.pNext p)
          ((s.ticks (s.pNext p) + s.ticks p) % 2 ^ 32)) p noTicks
        tInit := s.tInit
        pFirst := if s.pPrev p = 0 then s.pNext p else s.pFirst
        pLast := if s.pNext p = 0 then s.pPrev p else s.pLast
        lastTicks := if s.pNext p = 0 then (s.lastTicks + 2 ^ 32 - s.ticks p) % 2 ^ 32 else s.lastTicks } := by
  obtain ⟨hp, hpp, hnn, hfirst, hlast, hback, hforth, hne⟩ := h.joins
  unfold TimerList.removeFromTimerList
  rw [if_neg (by simp only [hp, ht, hfirst, or_self, not_false_eq_true])]
  simp only [TimerList.setNext, TimerList.setPrev, TimerList.setTicks]
  by_cases hn : s.pNext p = 0
  · by_cases hr : s.pPrev p = 0
    · simp [hn, hr, hpp.2 hr, hnn.2 hn]
    · simp [hn, hr, mt hpp.1 hr, hnn.2 hn]
  · by_cases hr : s.pPrev p = 0
    · simp [hn, hr, hpp.2 hr, mt hnn.1 hn]
    · simp [hn, hr, mt hpp.1 hr, mt hnn.1 hn, hback hn, hforth hr, Function.update_of_ne (Ne.symm hne.1)]

/-- The ticks of the entries around it. -/
private theorem TimerList.Law.remove_ticks (h : s.Law (a ++ p :: b)) (ht : s.ticks p ≠ noTicks) :
    (∀ q ∈ a, (s.removeFromTimerList p).ticks q = s.ticks q) ∧
      (∀ q ∈ b.tail, (s.removeFromTimerList p).ticks q = s.ticks q) ∧
      (∀ q, b.head? = some q → (s.removeFromTimerList p).ticks q = s.ticks p + s.ticks q) ∧
      (s.removeFromTimerList p).ticks p = noTicks ∧
      (∀ q, q ∉ a ++ p :: b → (s.removeFromTimerList p).ticks q = s.ticks q) ∧
      (s.removeFromTimerList p).lastTicks = if b = [] then s.lastTicks - s.ticks p else s.lastTicks := by
  obtain ⟨hp, hprev, hnext, hfirst, hlast⟩ := h.at
  have hnd := List.nodup_append.1 (List.nodup_cons.1 h.links.nodup).2
  have htotal := h.total
  have hsmall := h.small
  rw [List.map_append, List.sum_append, List.map_cons, List.sum_cons] at htotal
  rw [h.remove_eq ht]
  cases b with
  | nil =>
    have hz : s.pNext p = 0 := hnext
    simp only [hz, if_true]
    refine ⟨fun q hq => ?_, fun q hq => (by cases hq), fun q hq => (by cases hq), Function.update_self .., ?_, ?_⟩
    · exact Function.update_of_ne (hnd.2.2 q hq p List.mem_cons_self) ..
    · exact fun q hq => Function.update_of_ne (fun hqp => hq (by simp [hqp])) ..
    · omega
  | cons y b =>
    have hy : s.pNext p = y := hnext
    have hy0 : y ≠ 0 := by
      rintro rfl
      exact (List.nodup_cons.1 h.links.nodup).1 (by simp)
    rw [List.nodup_cons, List.nodup_cons] at hnd
    have hyp : y ≠ p := by
      rintro rfl
      exact hnd.2.1.1 List.mem_cons_self
    rw [List.map_cons, List.sum_cons] at htotal
    simp only [hy, hy0, if_false, List.cons_ne_nil]
    refine ⟨fun q hq => ?_, fun q hq => ?_, fun q hq => ?_, Function.update_self .., fun q hq => ?_, trivial⟩
    · rw [Function.update_of_ne (hnd.2.2 q hq p List.mem_cons_self),
        Function.update_of_ne (hnd.2.2 q hq y (by simp))]
    · have hqb : q ∈ b := hq
      rw [Function.update_of_ne, Function.update_of_ne]
      · rintro rfl
        exact hnd.2.1.2.1 hqb
      · rintro rfl
        exact hnd.2.1.1 (List.mem_cons_of_mem _ hqb)
    · obtain rfl : y = q := Option.some.inj hq
      rw [Function.update_of_ne hyp, Function.update_self, Nat.mod_eq_of_lt (by omega), Nat.add_comm]
    · rw [Function.update_of_ne, Function.update_of_ne]
      · rintro rfl
        exact hq (by simp)
      · rintro rfl
        exact hq (by simp)

private theorem sum_congr {f g : Nat → Nat} (h : ∀ q ∈ l, f q = g q) : (l.map f).sum = (l.map g).sum := by
  rw [List.map_congr_left h]

/-- The list without the entry. -/
theorem TimerList.Law.remove (h : s.Law (a ++ p :: b)) (ht : s.ticks p ≠ noTicks) :
    (s.removeFromTimerList p).Law (a ++ b) := by
  obtain ⟨hta, htb, hth, -, -, htl⟩ := h.remove_ticks ht
  obtain ⟨hp, hprev, hnext, hfirst, hlast⟩ := h.at
  have htotal := h.total
  have hsmall := h.small
  have hin : p ∈ a ++ p :: b := List.mem_append_right _ List.mem_cons_self
  have hpa : p ∉ a := fun hpa => (List.nodup_append.1 (List.nodup_cons.1 h.links.nodup).2).2.2 p hpa p
    List.mem_cons_self rfl
  have herase : (a ++ p :: b).erase p = a ++ b := by
    rw [List.erase_append_right _ hpa, List.erase_cons_head]
  have hpp := h.joins.2.1
  have hjn := h.joins.2.2.1
  constructor
  case links =>
    rw [← herase]
    refine h.links.erase hin (fun q _ hqp => ?_) (fun q hq hqp => ?_)
    · rw [h.remove_eq ht, Function.update_of_ne hp]
      dsimp only
      by_cases hq : q = 0
      · rw [hq, Function.update_self, Function.update_self]
        by_cases hr : s.pPrev p = 0
        · rw [if_pos hr, if_pos hr.symm]
        · rw [if_neg hr, if_neg (Ne.symm hr)]
      · rw [Function.update_of_ne hq, Function.update_of_ne hq, Function.update_of_ne hqp]
        by_cases hr : s.pPrev p = 0
        · rw [if_pos hr, if_neg (hr ▸ hq)]
        · rw [if_neg hr, Function.update_apply]
    · have hq0 : q ≠ 0 := fun h0 => (List.nodup_cons.1 h.links.nodup).1 (h0 ▸ hq)
      rw [h.remove_eq ht, Function.update_of_ne hp]
      dsimp only
      rw [Function.update_of_ne hqp]
      by_cases hr : s.pNext p = 0
      · rw [if_pos hr, if_neg (hr ▸ hq0)]
      · rw [if_neg hr, Function.update_apply]
  case last =>
    rw [h.remove_eq ht]
    dsimp only
    cases b with
    | nil => rw [if_pos (show s.pNext p = 0 from hnext), hprev, List.append_nil]
    | cons y b =>
      rw [if_neg (mt hjn.2 (mt hlast.1 (List.cons_ne_nil y b))), h.last, List.getLast?_append, List.getLast?_append,
        List.getLast?_cons_cons]
  case total =>
    rw [List.map_append, List.sum_append, sum_congr hta, htl]
    rw [List.map_append, List.sum_append, List.map_cons, List.sum_cons] at htotal
    cases b with
    | nil =>
      simp only [List.map_nil, List.sum_nil, if_true] at htotal ⊢
      omega
    | cons y b =>
      have hb : ∀ q ∈ b, (s.removeFromTimerList p).ticks q = s.ticks q := htb
      rw [List.map_cons, List.sum_cons] at htotal ⊢
      rw [hth y rfl, sum_congr hb, if_neg (List.cons_ne_nil y b)]
      omega
  case small =>
    rw [htl]
    split <;> omega
  case idle =>
    intro q hq hqab
    rw [h.remove_eq ht]
    dsimp only
    by_cases hqp : q = p
    · simp only [hqp, Function.update_self, and_self]
    · have hout : q ∉ a ++ p :: b := by
        rw [List.mem_append, List.mem_cons]
        rw [List.mem_append] at hqab
        tauto
      have hidle := h.idle q hq hout
      have hne := h.links.neighbours hin
      rw [Function.update_of_ne hp] at hne
      rw [Function.update_of_ne hqp, Function.update_of_ne hqp]
      constructor
      · split
        · exact hidle.1
        · rename_i hr
          rw [Function.update_of_ne, hidle.1]
          rintro rfl
          exact hout (hne.1.resolve_left hr)
      · split
        · exact hidle.2
        · rename_i hr
          rw [Function.update_of_ne, hidle.2]
          rintro rfl
          exact hout (hne.2.1.resolve_left hr)

end

/-! ### Putting an entry in -/

section
variable {s t : TimerList} {l a b : List Nat} {p q n : Nat}

/-- A new entry changes the links of the entries around it. -/
private theorem TimerList.Law.insert_links (h : s.Law (a ++ b)) (hp : p ≠ 0) (hpl : p ∉ a ++ b) {x z : Nat}
    (hx : a.getLast?.getD 0 = x) (hz : b.head?.getD 0 = z)
    (hfirst : t.pFirst = if x = 0 then p else s.pFirst)
    (hnext : t.pNext = Function.update (if x = 0 then s.pNext else Function.update s.pNext x p) p z)
    (hprev : t.pPrev = Function.update (if z = 0 then s.pPrev else Function.update s.pPrev z p) p x) :
    Linear 0 (Function.update t.pNext 0 t.pFirst) t.pPrev (a ++ p :: b) ∧
      ∀ q, q ≠ 0 → q ∉ a ++ p :: b → t.pNext q = 0 ∧ t.pPrev q = 0 := by
  have hnull := (List.nodup_cons.1 h.links.nodup).1
  have hxin : x ≠ 0 → x ∈ a := fun hne => by
    cases ha : a.getLast? with
    | none =>
      rw [ha] at hx
      exact absurd hx.symm hne
    | some y =>
      rw [ha] at hx
      exact hx ▸ List.mem_of_getLast? ha
  have hzin : z ≠ 0 → z ∈ b := fun hne => by
    cases hb : b.head? with
    | none =>
      rw [hb] at hz
      exact absurd hz.symm hne
    | some y =>
      rw [hb] at hz
      exact hz ▸ List.mem_of_mem_head? hb
  have hxp : x ≠ p := by
    rintro rfl
    exact hpl (List.mem_append_left _ (hxin hp))
  have hzp : z ≠ p := by
    rintro rfl
    exact hpl (List.mem_append_right _ (hzin hp))
  constructor
  · refine h.links.insert (fun hm => ?_) ?_ ?_ ?_ (fun q hq hqx => ?_) (fun q hq => ?_)
    · exact (List.mem_cons.1 hm).elim hp hpl
    · rw [hx, hnext, hfirst]
      by_cases h0 : x = 0
      · rw [h0, Function.update_self, if_pos rfl]
      · rw [Function.update_of_ne h0, Function.update_of_ne hxp, if_neg h0, Function.update_self]
    · rw [Function.update_of_ne hp, hnext, Function.update_self, hz]
    · rw [hprev, Function.update_self, hx]
    · rw [hx] at hqx
      rw [hnext, hfirst]
      by_cases h0 : q = 0
      · rw [h0, Function.update_self, Function.update_self, if_neg (h0 ▸ Ne.symm hqx)]
      · have hqp : q ≠ p := by
          rintro rfl
          exact hpl ((List.mem_cons.1 hq).resolve_left h0)
        rw [Function.update_of_ne h0, Function.update_of_ne h0, Function.update_of_ne hqp]
        split
        · rfl
        · rw [Function.update_of_ne hqx]
    · have hqp : q ≠ p := by
        rintro rfl
        exact hpl hq
      have hq0 : q ≠ 0 := by
        rintro rfl
        exact hnull hq
      rw [hz, hprev, Function.update_of_ne hqp]
      by_cases h0 : z = 0
      · rw [if_pos h0, if_neg (h0 ▸ hq0)]
      · rw [if_neg h0, Function.update_apply]
  · intro q hq hqab
    rw [List.mem_append, List.mem_cons, not_or, not_or] at hqab
    have hidle := h.idle q hq fun hm => (List.mem_append.1 hm).elim hqab.1 hqab.2.2
    rw [hnext, hprev, Function.update_of_ne hqab.2.1, Function.update_of_ne hqab.2.1]
    constructor
    · split
      · exact hidle.1
      · rename_i h0
        rw [Function.update_of_ne, hidle.1]
        rintro rfl
        exact hqab.1 (hxin h0)
    · split
      · exact hidle.2
      · rename_i h0
        rw [Function.update_of_ne, hidle.2]
        rintro rfl
        exact hqab.2.2 (hzin h0)

private theorem TimerList.Law.last_ne_zero (h : s.Law l) (hl : l ≠ []) : s.pLast ≠ 0 := by
  obtain ⟨c, x, hx⟩ := (List.eq_nil_or_concat l).resolve_left hl
  rw [List.concat_eq_append] at hx
  rw [h.last, hx, List.getLast?_concat]
  rintro rfl
  exact (List.nodup_cons.1 h.links.nodup).1 (hx ▸ List.mem_append_right _ (List.mem_singleton_self _))

private theorem TimerList.Law.first_zero (h : s.Law l) : s.pFirst = 0 ↔ l = [] := by
  have hempty := h.links.empty_iff
  rwa [Function.update_self] at hempty

/-- An entry with the greatest deadline is put behind the others. -/
private theorem TimerList.Law.append (h : s.Law l) (hp : p ≠ 0) (hpl : p ∉ l) (ht : s.ticks p < 2 ^ 32)
    (hle : s.lastTicks ≤ s.ticks p) :
    ∃ t, s.addToTimerList n p = some t ∧ t.Law (l ++ [p]) ∧ t.ticks p + s.lastTicks = s.ticks p ∧
      ∀ q, q ≠ p → t.ticks q = s.ticks q := by
  have hidle := h.idle p hp hpl
  have htotal := h.total
  have hlast := h.last
  have hl : s.pLast = 0 ↔ l = [] := by
    constructor
    · exact fun h0 => by_contra fun hl => h.last_ne_zero hl h0
    · intro hl
      rw [hlast, hl]
      rfl
  have hsame : ∀ q ∈ l, Function.update s.ticks p (s.ticks p - s.lastTicks) q = s.ticks q := by
    intro q hq
    refine Function.update_of_ne ?_ ..
    rintro rfl
    exact hpl hq
  have hadd : s.addToTimerList n p = some
      { pNext := Function.update (if s.pLast = 0 then s.pNext else Function.update s.pNext s.pLast p) p 0
        pPrev := Function.update s.pPrev p s.pLast
        ticks := Function.update s.ticks p (s.ticks p - s.lastTicks)
        tInit := s.tInit
        pFirst := if s.pLast = 0 then p else s.pFirst
        pLast := p
        lastTicks := s.ticks p } := by
    unfold TimerList.addToTimerList
    rw [if_pos hle]
    simp only [TimerList.setNext, TimerList.setPrev, TimerList.setTicks]
    by_cases h0 : l = []
    · have hself : Function.update s.pPrev p 0 = s.pPrev := by rw [← hidle.2, Function.update_eq_self]
      simp [h.first_zero.2 h0, hl.2 h0, hself]
    · simp [mt h.first_zero.1 h0, mt hl.1 h0]
  have h' : s.Law (l ++ []) := by rwa [List.append_nil]
  refine ⟨_, hadd, ?_, ?_, fun q hq => Function.update_of_ne hq ..⟩
  · have hlinks := h'.insert_links (z := 0) hp (by rwa [List.append_nil]) hlast.symm rfl 
      (t := ⟨_, _, s.ticks, s.tInit, _, p, s.ticks p⟩) rfl rfl rfl
    refine ⟨hlinks.1, ?_, ?_, ht, hlinks.2⟩
    · rw [List.getLast?_concat]
      rfl
    · dsimp only
      rw [List.map_append, List.sum_append, sum_congr hsame, List.map_singleton, List.sum_singleton,
        Function.update_self]
      omega
  · dsimp only
    rw [Function.update_self]
    omega

/-- Where the loop stops. -/
private theorem TimerList.Law.walk (h : s.Law (a ++ b)) (hpl : p ∉ a ++ b) {m : Nat} (hm : m < (b.map s.ticks).sum)
    (hn : b.length ≤ n) :
    ∃ c z d, b = c ++ z :: d ∧ (c.map s.ticks).sum ≤ m ∧ (c = [] ∨ (c.map s.ticks).sum < m) ∧
      m - (c.map s.ticks).sum ≤ s.ticks z ∧
      TimerList.walk p n (s.setTicks p m) (b.head?.getD 0) = some (s.setTicks p (m - (c.map s.ticks).sum), z) := by
  induction b generalizing a n m with
  | nil => exact absurd hm (Nat.not_lt_zero m)
  | cons y b ih =>
    obtain ⟨hy, -, hnext, -, -⟩ := h.at
    have hyp : y ≠ p := by
      rintro rfl
      exact hpl (List.mem_append_right _ List.mem_cons_self)
    have hty : (s.setTicks p m).ticks y = s.ticks y := Function.update_of_ne hyp ..
    have htp : (s.setTicks p m).ticks p = m := Function.update_self ..
    rw [List.map_cons, List.sum_cons] at hm
    rw [List.length_cons] at hn
    obtain ⟨n, rfl⟩ : ∃ k, n = k + 1 := ⟨n - 1, by omega⟩
    rw [List.head?_cons, Option.getD_some, TimerList.walk, if_neg hy, hty, htp]
    by_cases hlt : s.ticks y < m
    · have hset : (s.setTicks p m).setTicks p (m - s.ticks y) = s.setTicks p (m - s.ticks y) := by
        unfold TimerList.setTicks
        rw [Function.update_idem]
      have h' : s.Law ((a ++ [y]) ++ b) := by rwa [List.append_assoc]
      obtain ⟨c, z, d, rfl, hle, hc, hz, hw⟩ := ih h' (by rwa [List.append_assoc]) (m := m - s.ticks y) (n := n)
        (by omega) (by omega)
      have hnexty : (s.setTicks p m).pNext y = (c ++ z :: d).head?.getD 0 := hnext
      rw [if_pos hlt, hset, hnexty, hw]
      refine ⟨y :: c, z, d, rfl, ?_, .inr ?_, ?_, ?_⟩
      · rw [List.map_cons, List.sum_cons]
        omega
      · rw [List.map_cons, List.sum_cons]
        rcases hc with rfl | hc
        · exact hlt
        · omega
      · rw [List.map_cons, List.sum_cons]
        omega
      · rw [List.map_cons, List.sum_cons, Nat.sub_sub]
    · rw [if_neg hlt]
      exact ⟨[], y, b, rfl, Nat.zero_le m, .inl rfl, Nat.le_of_not_lt hlt, rfl⟩

/-- An entry with a smaller deadline is put in front of the first one with no smaller deadline. -/
private theorem TimerList.Law.insert (h : s.Law l) (hp : p ≠ 0) (hpl : p ∉ l) (hlt : s.ticks p < s.lastTicks)
    (hn : l.length ≤ n) :
    ∃ a z b t, l = a ++ z :: b ∧ s.addToTimerList n p = some t ∧ t.Law (a ++ p :: z :: b) ∧
      (a = [] ∨ (a.map s.ticks).sum < s.ticks p) ∧ t.ticks p + (a.map s.ticks).sum = s.ticks p ∧
      t.ticks z + t.ticks p = s.ticks z ∧ ∀ q, q ≠ p → q ≠ z → t.ticks q = s.ticks q := by
  have hsmall := h.small
  have htotal := h.total
  obtain ⟨a, z, b, rfl, hle, ha, hz, hw⟩ := TimerList.Law.walk (a := []) h hpl (htotal ▸ hlt) hn
  obtain ⟨hz0, hzprev, -, hzfirst, -⟩ := h.at
  have hidle := h.idle p hp hpl
  have hself : s.setTicks p (s.ticks p) = s := by
    unfold TimerList.setTicks
    rw [Function.update_eq_self]
  have hzp : z ≠ p := by
    rintro rfl
    exact hpl (by simp)
  have hx : s.pPrev z = 0 ↔ a = [] := h.joins.2.1.symm.trans hzfirst
  have hnx : s.pPrev z ≠ p := by
    intro hxp
    have hzin : z ∈ a ++ z :: b := by simp
    have hne := (h.links.neighbours hzin).1
    rw [hxp] at hne
    exact hne.elim hp hpl
  have hadd : s.addToTimerList n p = some
      { pNext := Function.update (if s.pPrev z = 0 then s.pNext else Function.update s.pNext (s.pPrev z) p) p z
        pPrev := Function.update (if z = 0 then s.pPrev else Function.update s.pPrev z p) p (s.pPrev z)
        ticks := Function.update (Function.update s.ticks p (s.ticks p - (a.map s.ticks).sum)) z
          (s.ticks z - (s.ticks p - (a.map s.ticks).sum))
        tInit := s.tInit
        pFirst := if s.pPrev z = 0 then p else s.pFirst
        pLast := s.pLast
        lastTicks := s.lastTicks } := by
    have hfirst : s.pFirst = (a ++ z :: b).head?.getD 0 := h.first
    unfold TimerList.addToTimerList
    rw [if_neg (Nat.not_le.2 hlt)]
    rw [hself, ← hfirst] at hw
    rw [hw]
    simp only [TimerList.setNext, TimerList.setPrev, TimerList.setTicks, Option.map_some]
    by_cases h0 : a = []
    · have hf := hzfirst.2 h0
      have hs : Function.update (Function.update s.pPrev z p) p 0 = Function.update s.pPrev z p := by
        rw [Function.update_comm hzp, ← hidle.2, Function.update_eq_self]
      simp [hf, hx.2 h0, hz0, hs, Function.update_of_ne hzp]
    · have hf := mt hzfirst.1 h0
      have hs : Function.update (Function.update s.pPrev p (s.pPrev z)) z p =
          Function.update (Function.update s.pPrev z p) p (s.pPrev z) := Function.update_comm (Ne.symm hzp) ..
      simp [Ne.symm hf, mt hx.1 h0, hz0, hs, Function.update_of_ne hzp]
  have hnd := List.nodup_append.1 (List.nodup_cons.1 h.links.nodup).2
  have hticks : ∀ q, q ≠ p → q ≠ z → Function.update (Function.update s.ticks p (s.ticks p - (a.map s.ticks).sum)) z
      (s.ticks z - (s.ticks p - (a.map s.ticks).sum)) q = s.ticks q := fun q hqp hqz => by
    rw [Function.update_of_ne hqz, Function.update_of_ne hqp]
  have hlinks := h.insert_links (p := p) hp hpl hzprev.symm rfl 
    (t := ⟨_, _, s.ticks, s.tInit, _, s.pLast, s.lastTicks⟩) rfl rfl rfl
  refine ⟨a, z, b, _, rfl, hadd, ⟨hlinks.1, ?_, ?_, hsmall, hlinks.2⟩, ha, ?_, ?_, hticks⟩
  · rw [h.last, List.getLast?_append, List.getLast?_append, List.getLast?_cons_cons]
  · have hsame : ∀ c : List Nat, (∀ q ∈ c, q ≠ p ∧ q ≠ z) → (c.map (Function.update (Function.update s.ticks p
        (s.ticks p - (a.map s.ticks).sum)) z (s.ticks z - (s.ticks p - (a.map s.ticks).sum)))).sum =
        (c.map s.ticks).sum := fun c hc => sum_congr fun q hq => hticks q (hc q hq).1 (hc q hq).2
    have hsa := hsame a fun q hq => ⟨fun hqp => hpl (hqp ▸ List.mem_append_left _ hq),
      hnd.2.2 q hq z List.mem_cons_self⟩
    have hsb := hsame b fun q hq => ⟨fun hqp => hpl (hqp ▸ by simp [hq]), fun hqz =>
      (List.nodup_cons.1 hnd.2.1).1 (hqz ▸ hq)⟩
    dsimp only
    rw [List.map_append, List.sum_append, List.map_cons, List.sum_cons, List.map_cons, List.sum_cons, hsa, hsb,
      Function.update_self, Function.update_of_ne (Ne.symm hzp), Function.update_self]
    rw [List.map_append, List.sum_append, List.map_cons, List.sum_cons] at htotal
    omega
  · dsimp only
    rw [Function.update_of_ne (Ne.symm hzp), Function.update_self]
    omega
  · dsimp only
    rw [Function.update_self, Function.update_of_ne (Ne.symm hzp), Function.update_self]
    omega

end

/-! ### Ticking and fetching -/

section
variable {s t : TimerList} {l a b : List Nat} {p q n : Nat}

/-- A loop over the entries without ticks ends at the first one with ticks, or behind the list. -/
private theorem skipExpired_spec (h : Linear 0 (Function.update s.pNext 0 s.pFirst) s.pPrev (a ++ b))
    (hn : b.length < n) (numTimeOut : Nat) :
    ∃ k z r, b = z ++ r ∧ (∀ q ∈ z, s.ticks q = 0) ∧ (∀ q, r.head? = some q → s.ticks q ≠ 0) ∧
      s.skipExpired n (b.head?.getD 0) numTimeOut = some (k, r.head?.getD 0) := by
  induction b generalizing a n numTimeOut with
  | nil =>
    obtain ⟨n, rfl⟩ : ∃ k, n = k + 1 := ⟨n - 1, by simp at hn; omega⟩
    refine ⟨numTimeOut, [], [], rfl, fun q hq => (by cases hq), fun q hq => (by cases hq), ?_⟩
    rw [TimerList.skipExpired, if_neg (by simp)]
  | cons y b ih =>
    rw [List.length_cons] at hn
    obtain ⟨n, rfl⟩ : ∃ k, n = k + 1 := ⟨n - 1, by omega⟩
    have hy : y ≠ 0 := by
      rintro rfl
      exact (List.nodup_cons.1 h.nodup).1 (List.mem_append_right _ List.mem_cons_self)
    have hnext := h.beside.2
    rw [Function.update_of_ne hy] at hnext
    rw [List.head?_cons, Option.getD_some, TimerList.skipExpired]
    by_cases hz : s.ticks y = 0
    · have h' : Linear 0 (Function.update s.pNext 0 s.pFirst) s.pPrev ((a ++ [y]) ++ b) := by rwa [List.append_assoc]
      obtain ⟨k, z, r, rfl, hzero, hr, hk⟩ := ih h' (n := n) (by omega) ((numTimeOut + 1) % 65536)
      refine ⟨k, y :: z, r, rfl, fun q hq => ?_, hr, ?_⟩
      · rcases List.mem_cons.1 hq with rfl | hq
        · exact hz
        · exact hzero q hq
      · rw [if_pos ⟨hy, hz⟩, hnext, hk]
    · refine ⟨numTimeOut, [], y :: b, rfl, fun q hq => (by cases hq), fun q hq => ?_, ?_⟩
      · obtain rfl : y = q := Option.some.inj hq
        exact hz
      · rw [if_neg fun hc => hz hc.2]
        rfl

/-- A tick is taken from the first entry that has some. -/
private theorem TimerList.Law.tick (h : s.Law l) (hn : l.length < n) :
    ∃ k t z r, s.updateTimerList n = some (k, t) ∧ l = z ++ r ∧ t.Law l ∧ (∀ q ∈ z, s.ticks q = 0) ∧
      (∀ q, r.head? = some q → t.ticks q + 1 = s.ticks q) ∧ ∀ q, r.head? ≠ some q → t.ticks q = s.ticks q := by
  have htotal := h.total
  have hsmall := h.small
  obtain ⟨k, z, r, rfl, hzero, hr, hk⟩ := skipExpired_spec (s := s) (a := []) h.links hn 0
  have hfirst : s.pFirst = (z ++ r).head?.getD 0 := h.first
  have hz : (z.map s.ticks).sum = 0 := by
    rw [List.sum_eq_zero_iff_forall_eq_nat]
    intro x hx
    obtain ⟨q, hq, rfl⟩ := List.mem_map.1 hx
    exact hzero q hq
  rw [List.map_append, List.sum_append, hz, Nat.zero_add] at htotal
  cases r with
  | nil =>
    have hlast : s.lastTicks = 0 := htotal
    refine ⟨k, s, z, [], ?_, rfl, h, hzero, fun q hq => (by cases hq), fun q _ => rfl⟩
    unfold TimerList.updateTimerList
    rw [hfirst, hk]
    simp [hlast]
  | cons y b =>
    have hy := hr y rfl
    have hin : y ∈ z ++ y :: b := by simp
    have hy0 : y ≠ 0 := fun h0 => (List.nodup_cons.1 h.links.nodup).1 (h0 ▸ hin)
    have hnd := List.nodup_append.1 (List.nodup_cons.1 h.links.nodup).2
    rw [List.map_cons, List.sum_cons] at htotal
    have hkeep : ∀ q, q ≠ y → Function.update s.ticks y (s.ticks y - 1) q = s.ticks q := fun q hq =>
      Function.update_of_ne hq ..
    have hlaw : TimerList.Law { s.setTicks y (s.ticks y - 1) with lastTicks := s.lastTicks - 1 } (z ++ y :: b) := by
      refine ⟨h.links, h.last, ?_, ?_, h.idle⟩
      · have hsz := sum_congr (f := Function.update s.ticks y (s.ticks y - 1)) (g := s.ticks) fun q hq =>
          hkeep q (hnd.2.2 q hq y List.mem_cons_self)
        have hsb := sum_congr (l := b) (f := Function.update s.ticks y (s.ticks y - 1)) (g := s.ticks) fun q hq =>
          hkeep q fun hqy => (List.nodup_cons.1 hnd.2.1).1 (hqy ▸ hq)
        dsimp only [TimerList.setTicks]
        rw [List.map_append, List.sum_append, List.map_cons, List.sum_cons, hsz, hsb, hz, Function.update_self]
        omega
      · dsimp only
        omega
    have hstep : ∃ k', s.updateTimerList n =
        some (k', { s.setTicks y (s.ticks y - 1) with lastTicks := s.lastTicks - 1 }) := by
      have hl : (s.setTicks y (s.ticks y - 1)).lastTicks ≠ 0 := by
        dsimp only [TimerList.setTicks]
        omega
      unfold TimerList.updateTimerList
      rw [hfirst, hk]
      dsimp only [Option.bind_eq_bind, Option.bind_some, Option.pure_def, List.head?_cons, Option.getD_some]
      rw [if_pos ⟨hy0, hy⟩]
      split
      · obtain ⟨k', -, r', -, -, -, hk'⟩ := skipExpired_spec (s := s.setTicks y (s.ticks y - 1)) (n := n) (a := z)
          (b := y :: b) h.links (by rw [List.length_append] at hn; omega) k
        rw [List.head?_cons, Option.getD_some] at hk'
        exact ⟨k', by rw [hk', Option.map_some, Option.bind_some, if_pos hl]; rfl⟩
      · exact ⟨k, rfl⟩
    obtain ⟨k', hk'⟩ := hstep
    refine ⟨k', _, z, y :: b, hk', rfl, hlaw, hzero, fun q hq => ?_, fun q hq => ?_⟩
    · obtain rfl : y = q := Option.some.inj hq
      dsimp only [TimerList.setTicks]
      rw [Function.update_self]
      omega
    · exact hkeep q fun hqy => hq (hqy ▸ rfl)

/-- An entry without ticks is fetched by its removal, when it is not recurrent. -/
private theorem TimerList.Law.fetch (h : s.Law (p :: l)) (ht : s.ticks p = 0) (hi : s.tInit p = 0) :
    s.getExpiredEntry = (p, s.removeFromTimerList p) := by
  have hp : p ≠ 0 := (h.at (a := [])).1
  have hfirst : s.pFirst = p := h.first
  have hjoins := h.joins (a := [])
  have hsmall := h.small
  have htotal := h.total
  have hprev := hjoins.2.1.1 hfirst
  have hnext : s.pNext p = l.head?.getD 0 := (h.at (a := [])).2.2.1
  rw [h.remove_eq (a := []) (by rw [ht]; decide), hprev, ht]
  unfold TimerList.getExpiredEntry
  rw [hfirst, if_pos ⟨hp, ht⟩]
  dsimp only
  rw [hi]
  simp only [TimerList.setNext, TimerList.setPrev, TimerList.setTicks]
  by_cases hn : s.pNext p = 0
  · have hlast : (s.lastTicks + 4294967296) % 4294967296 = s.lastTicks := by omega
    simp [hn, hjoins.2.2.1.2 hn, hlast]
  · have hsum : s.ticks (s.pNext p) % 4294967296 = s.ticks (s.pNext p) := by
      cases l with
      | nil => exact absurd hnext hn
      | cons y l =>
        rw [List.map_cons, List.map_cons, List.sum_cons, List.sum_cons] at htotal
        rw [hnext, List.head?_cons, Option.getD_some]
        omega
    simp [hn, mt hjoins.2.2.1.1 hn, hsum]

end

/-! ### The deadlines -/

section
variable {ticks ticks' due due' : Nat → Nat} {now t p q : Nat} {a b l : List Nat}

private theorem due_append : Due ticks due now t (a ++ b) ↔
    Due ticks due now t a ∧ Due ticks due now (t + (a.map ticks).sum) b := by
  induction a generalizing t with
  | nil => simp [Due]
  | cons x a ih =>
    rw [List.cons_append, Due, Due, ih, List.map_cons, List.sum_cons, Nat.add_assoc, and_assoc]

private theorem due_congr (ht : ∀ q ∈ l, ticks' q = ticks q) (hd : ∀ q ∈ l, due' q = due q) :
    Due ticks' due' now t l ↔ Due ticks due now t l := by
  induction l generalizing t with
  | nil => exact Iff.rfl
  | cons x l ih =>
    rw [Due, Due, ht x List.mem_cons_self, hd x List.mem_cons_self,
      ih (fun q hq => ht q (List.mem_cons_of_mem _ hq)) fun q hq => hd q (List.mem_cons_of_mem _ hq)]

private theorem due_bounds (h : Due ticks due now t l) (hq : q ∈ l) :
    t ≤ due q - now ∧ due q - now ≤ t + (l.map ticks).sum := by
  induction l generalizing t with
  | nil => cases hq
  | cons x l ih =>
    rw [List.map_cons, List.sum_cons]
    rcases List.mem_cons.1 hq with rfl | hq
    · have := h.1
      omega
    · have := ih h.2 hq
      omega

/-- After a tick, the entries behind one that has taken it. -/
private theorem due_behind (h : Due ticks due now (t + 1) l) : Due ticks due (now + 1) t l := by
  induction l generalizing t with
  | nil => trivial
  | cons x l ih =>
    obtain ⟨hx, hl⟩ := h
    rw [Nat.add_right_comm] at hl
    exact ⟨by omega, ih hl⟩

/-- After a tick, the entries that have expired. -/
private theorem due_expired (h : Due ticks due now 0 l) (hz : ∀ q ∈ l, ticks q = 0) : Due ticks due (now + 1) 0 l := by
  induction l with
  | nil => trivial
  | cons x l ih =>
    obtain ⟨hx, hl⟩ := h
    rw [hz x List.mem_cons_self] at hx hl
    refine ⟨by rw [hz x List.mem_cons_self]; omega, ?_⟩
    rw [hz x List.mem_cons_self]
    exact ih hl fun q hq => hz q (List.mem_cons_of_mem _ hq)

end

section
variable {n : Nat} {s : TimerState} {l a b : List Nat} {p q : Nat}

private theorem TimerState.Law.nodup (h : s.Law n l) : l.Nodup ∧ 0 ∉ l :=
  (List.nodup_cons.1 h.list.links.nodup).symm

private theorem due_update (v : Option Nat) (hq : q ≠ p) (tl : TimerList) (now : Nat) :
    TimerState.due ⟨tl, now, Function.update s.deadline p v⟩ q = s.due q := by
  unfold TimerState.due
  dsimp only
  rw [Function.update_of_ne hq]

/-- The list without an entry. -/
private theorem TimerState.Law.remove (h : s.Law n (a ++ p :: b)) (ht : s.list.ticks p ≠ noTicks) :
    TimerState.Law n ⟨s.list.removeFromTimerList p, s.now, Function.update s.deadline p none⟩ (a ++ b) := by
  obtain ⟨hta, htb, hth, htp, hto, -⟩ := h.list.remove_ticks ht
  have hnd := List.nodup_append.1 h.nodup.1
  have hpa : p ∉ a := fun hpa => hnd.2.2 p hpa p List.mem_cons_self rfl
  have hpb := (List.nodup_cons.1 hnd.2.1).1
  have hne : ∀ q ∈ a ++ b, q ≠ p := by
    rintro q hq rfl
    exact (List.mem_append.1 hq).elim hpa hpb
  have hsub : (a ++ b).Sublist (a ++ p :: b) := List.Sublist.append_left (List.sublist_cons_self p b) a
  have hdue := h.due
  constructor
  case list => exact h.list.remove ht
  case listed =>
    intro q
    dsimp only
    by_cases hqp : q = p
    · subst hqp
      rw [Function.update_self]
      exact iff_of_false (fun hq => hne q hq rfl) Bool.false_ne_true
    · rw [Function.update_of_ne hqp, ← h.listed q, List.mem_append, List.mem_append, List.mem_cons,
        or_iff_right (a := q = p) hqp]
  case idle =>
    intro q hq hqab
    dsimp only
    by_cases hqp : q = p
    · rw [hqp, htp]
    · have hout : q ∉ a ++ p :: b := by
        rw [List.mem_append, List.mem_cons]
        rw [List.mem_append] at hqab
        tauto
      rw [hto q hout, h.idle q hq hout]
  case due =>
    rw [due_append] at hdue ⊢
    refine ⟨(due_congr hta fun q hq => due_update _ (hne q (List.mem_append_left _ hq)) ..).2 hdue.1, ?_⟩
    rw [sum_congr hta]
    cases b with
    | nil => trivial
    | cons y b =>
      obtain ⟨-, hdy, hdb⟩ := hdue.2
      have hyd := due_update (s := s) none (hne y (by simp)) (s.list.removeFromTimerList p) s.now
      refine ⟨?_, ?_⟩
      · rw [hth y rfl, hyd]
        dsimp only
        omega
      · rw [hth y rfl, ← Nat.add_assoc]
        exact (due_congr htb fun q hq => due_update _ (hne q (by simp [show q ∈ b from hq])) ..).2 hdb
  case sorted =>
    refine List.Pairwise.imp_of_mem (fun {x y} hx hy hxy => ?_) (h.sorted.sublist hsub)
    rw [due_update _ (hne x hx), due_update _ (hne y hy)]
    exact hxy
  case within => exact fun q hq => h.within q (hsub.subset hq)

end

/-! ### The calls -/

section
variable {n : Nat} {s : TimerState} {l a b : List Nat} {p q : Nat}

/-- Each entry is in the list once at most. -/
private theorem TimerState.Law.length_lt (h : s.Law n l) : l.length < n + 1 := by
  have hsub : 0 :: l ⊆ List.range (n + 1) := by
    intro q hq
    rw [List.mem_range]
    rcases List.mem_cons.1 hq with rfl | hq
    · exact Nat.succ_pos n
    · exact Nat.lt_succ_of_le (h.within q hq)
  have hle := (List.subperm_of_subset h.list.links.nodup hsub).length_le
  rwa [List.length_cons, List.length_range] at hle

/-- A new entry between two parts of the list, behind the earlier and in front of the later deadlines. -/
private theorem TimerState.Law.put {tl : TimerList} {m : Nat} (h : s.Law n (a ++ b)) (hp : p ∉ a ++ b) (hpn : p ≤ n)
    (hlaw : tl.Law (a ++ p :: b)) (htp : tl.ticks p + (a.map s.list.ticks).sum = m)
    (hta : ∀ q ∈ a, tl.ticks q = s.list.ticks q)
    (hth : ∀ q, b.head? = some q → tl.ticks q + tl.ticks p = s.list.ticks q)
    (hto : ∀ q, q ≠ p → b.head? ≠ some q → tl.ticks q = s.list.ticks q) (hb : ∀ q ∈ b, s.now + m ≤ s.due q) :
    TimerState.Law n ⟨tl, s.now, Function.update s.deadline p (some (s.now + m))⟩ (a ++ p :: b) := by
  have hne : ∀ q ∈ a ++ b, q ≠ p := by
    rintro q hq rfl
    exact hp hq
  have hdue := h.due
  have hnd := List.nodup_append.1 h.nodup.1
  rw [due_append] at hdue
  have hself : TimerState.due ⟨tl, s.now, Function.update s.deadline p (some (s.now + m))⟩ p = s.now + m := by
    unfold TimerState.due
    dsimp only
    rw [Function.update_self]
    rfl
  have hkeep : ∀ q ∈ a ++ b, TimerState.due ⟨tl, s.now, Function.update s.deadline p (some (s.now + m))⟩ q = s.due q :=
    fun q hq => due_update _ (hne q hq) ..
  constructor
  case list => exact hlaw
  case listed =>
    intro q
    dsimp only
    by_cases hqp : q = p
    · subst hqp
      rw [Function.update_self]
      exact iff_of_true (by simp) rfl
    · rw [Function.update_of_ne hqp, ← h.listed q, List.mem_append, List.mem_append, List.mem_cons,
        or_iff_right (a := q = p) hqp]
  case idle =>
    intro q hq hqab
    rw [List.mem_append, List.mem_cons, not_or, not_or] at hqab
    dsimp only
    rw [hto q hqab.2.1 fun hh => hqab.2.2 (List.mem_of_mem_head? hh)]
    exact h.idle q hq fun hm => (List.mem_append.1 hm).elim hqab.1 hqab.2.2
  case due =>
    rw [due_append]
    refine ⟨(due_congr hta fun q hq => hkeep q (List.mem_append_left _ hq)).2 hdue.1, ?_, ?_⟩
    · rw [hself, sum_congr hta]
      dsimp only
      omega
    · rw [sum_congr hta]
      cases b with
      | nil => trivial
      | cons y b =>
        obtain ⟨hdy, hdb⟩ := hdue.2
        have hy := hth y rfl
        have hyb := (List.nodup_cons.1 hnd.2.1).1
        refine ⟨?_, ?_⟩
        · rw [hkeep y (by simp)]
          dsimp only
          omega
        · have htb : ∀ q ∈ b, tl.ticks q = s.list.ticks q := by
            intro q hq
            refine hto q (hne q (by simp [hq])) fun hh => hyb ?_
            rw [Option.some.inj hh]
            exact hq
          have hsum : 0 + (a.map s.list.ticks).sum + tl.ticks p + tl.ticks y =
              0 + (a.map s.list.ticks).sum + s.list.ticks y := by omega
          rw [hsum]
          exact (due_congr htb fun q hq => hkeep q (by simp [hq])).2 hdb
  case sorted =>
    have hs := List.pairwise_append.1 h.sorted
    rw [List.pairwise_append, List.pairwise_cons]
    have himp : ∀ c : List Nat, c ⊆ a ++ b → c.Pairwise (fun p q => s.due p ≤ s.due q) →
        c.Pairwise fun x y => TimerState.due ⟨tl, s.now, Function.update s.deadline p (some (s.now + m))⟩ x ≤
          TimerState.due ⟨tl, s.now, Function.update s.deadline p (some (s.now + m))⟩ y := fun c hc hpw =>
      List.Pairwise.imp_of_mem (fun {x y} hx hy hxy => by rwa [hkeep x (hc hx), hkeep y (hc hy)]) hpw
    refine ⟨himp a (List.subset_append_left a b) hs.1, ⟨fun y hy => ?_, himp b (List.subset_append_right a b) hs.2.1⟩,
      fun x hx y hy => ?_⟩
    · rw [hself, hkeep y (List.mem_append_right _ hy)]
      exact hb y hy
    · rw [hkeep x (List.mem_append_left _ hx)]
      rcases List.mem_cons.1 hy with rfl | hy
      · have := due_bounds hdue.1 hx
        rw [hself]
        omega
      · rw [hkeep y (List.mem_append_right _ hy)]
        exact hs.2.2 x hx y hy
  case within =>
    intro q hq
    rcases List.mem_append.1 hq with hq | hq
    · exact h.within q (List.mem_append_left _ hq)
    · rcases List.mem_cons.1 hq with rfl | hq
      · exact hpn
      · exact h.within q (List.mem_append_right _ hq)

private theorem setEntry_law {m i : Nat} (h : s.list.Law l) (hpl : p ∉ l) : (s.list.setEntry p m i).Law l := by
  have hsum := sum_congr (f := (s.list.setEntry p m i).ticks) (g := s.list.ticks) (l := l) fun q hq =>
    Function.update_of_ne (by rintro rfl; exact hpl hq) ..
  exact ⟨h.links, h.last, h.total.trans hsum.symm, h.small, h.idle⟩

/-- The entries from one on that has no smaller deadline. -/
private theorem TimerState.Law.behind {z m : Nat} (h : s.Law n (a ++ z :: b))
    (hm : m ≤ (a.map s.list.ticks).sum + s.list.ticks z)
    (hz : m = 0 → a = [] ∧ s.now ≤ s.due z) (hq : q ∈ z :: b) : s.now + m ≤ s.due q := by
  obtain ⟨hdz, hdb⟩ := (due_append.1 h.due).2
  have hge : m ≤ s.due q - s.now := by
    rcases List.mem_cons.1 hq with rfl | hq
    · omega
    · have := (due_bounds hdb hq).1
      omega
  rcases Nat.eq_zero_or_pos m with h0 | hpos
  · have hsorted := (List.pairwise_append.1 h.sorted).2.1
    have hzq : s.due z ≤ s.due q := by
      rcases List.mem_cons.1 hq with rfl | hq
      · exact Nat.le_refl _
      · exact (List.pairwise_cons.1 hsorted).1 q hq
    have := (hz h0).2
    omega
  · omega

private theorem TimerState.Law.add {m i : Nat} (h : s.Law n l) (hp : p ≠ 0) (hpn : p ≤ n) (hpl : p ∉ l)
    (hm : m < 2 ^ 32)
    (hz : m = 0 → s.list.lastTicks ≠ 0 → ∀ d, s.deadline s.list.pFirst = some d → s.now ≤ d) :
    ∃ t l', s.call n (.add p m i) = some t ∧ t.Law n l' := by
  have hne : ∀ q ∈ l, q ≠ p := by
    rintro q hq rfl
    exact hpl hq
  have hlist := setEntry_law (m := m) (i := i) h.list hpl
  have hself : (s.list.setEntry p m i).ticks p = m := Function.update_self ..
  have hkeep : ∀ q, q ≠ p → (s.list.setEntry p m i).ticks q = s.list.ticks q := fun q hq =>
    Function.update_of_ne hq ..
  have hlast : (s.list.setEntry p m i).lastTicks = s.list.lastTicks := rfl
  have hfirst := h.list.first
  unfold TimerState.call
  dsimp only
  generalize s.list.setEntry p m i = s0 at hlist hself hkeep hlast ⊢
  by_cases hle : s.list.lastTicks ≤ m
  · obtain ⟨t, ht, hlaw, htp, hto⟩ := hlist.append (n := n + 1) hp hpl (by rw [hself]; exact hm)
      (by rw [hself, hlast]; exact hle)
    rw [hself, hlast, h.list.total] at htp
    have hto' : ∀ q, q ≠ p → t.ticks q = s.list.ticks q := fun q hq => (hto q hq).trans (hkeep q hq)
    have h' : s.Law n (l ++ []) := by rwa [List.append_nil]
    refine ⟨_, l ++ [p], by rw [ht, Option.map_some], ?_⟩
    exact h'.put (by rwa [List.append_nil]) hpn hlaw htp (fun q hq => hto' q (hne q hq)) (fun q hq => by cases hq)
      (fun q hq _ => hto' q hq) fun q hq => by cases hq
  · obtain ⟨a, z, b, t, rfl, ht, hlaw, ha, htp, htz, hto⟩ := hlist.insert (n := n + 1) hp hpl
      (by rw [hself, hlast]; exact Nat.lt_of_not_le hle) (Nat.le_of_lt h.length_lt)
    have hina : ∀ q ∈ a, q ≠ p := fun q hq => hne q (List.mem_append_left _ hq)
    have hzp := hne z (by simp)
    have hza : ∀ q ∈ a, q ≠ z := fun q hq => (List.nodup_append.1 h.nodup.1).2.2 q hq z List.mem_cons_self
    rw [hself, sum_congr fun q hq => hkeep q (hina q hq)] at htp ha
    rw [hkeep z hzp] at htz
    refine ⟨_, a ++ p :: z :: b, by rw [ht, Option.map_some], ?_⟩
    refine h.put hpl hpn hlaw htp (fun q hq => ?_) (fun q hq => ?_) (fun q hq hqz => ?_) fun q hq => ?_
    · exact (hto q (hina q hq) (hza q hq)).trans (hkeep q (hina q hq))
    · obtain rfl : z = q := Option.some.inj hq
      exact htz
    · exact (hto q hq fun hqz' => hqz (hqz' ▸ rfl)).trans (hkeep q hq)
    · refine h.behind (by omega) (fun h0 => ?_) hq
      have ha0 : a = [] := ha.resolve_right (by omega)
      subst ha0
      obtain ⟨d, hd⟩ := Option.isSome_iff_exists.1 ((h.listed z).1 (by simp))
      have hfz : s.list.pFirst = z := hfirst
      have hle := hz h0 (by omega) d (by rw [hfz]; exact hd)
      refine ⟨rfl, ?_⟩
      unfold TimerState.due
      rw [hd]
      exact hle

/-- A tick. -/
private theorem TimerState.Law.tick (h : s.Law n l) : ∃ t, s.call n .update = some t ∧ t.Law n l := by
  obtain ⟨k, t, z, r, hcall, rfl, hlaw, hz, hy, hto⟩ := h.list.tick h.length_lt
  have hnd := List.nodup_append.1 h.nodup.1
  have hdue := due_append.1 h.due
  have htz : ∀ q ∈ z, t.ticks q = s.list.ticks q := fun q hq =>
    hto q fun hr => hnd.2.2 q hq q (List.mem_of_mem_head? hr) rfl
  have hsz : (z.map s.list.ticks).sum = 0 := by
    rw [List.sum_eq_zero_iff_forall_eq_nat]
    intro x hx
    obtain ⟨q, hq, rfl⟩ := List.mem_map.1 hx
    exact hz q hq
  refine ⟨⟨t, s.now + 1, s.deadline⟩, by unfold TimerState.call; rw [hcall]; rfl, hlaw, h.listed, ?_, ?_, h.sorted,
    h.within⟩
  · intro q hq hql
    dsimp only
    rw [hto q fun hr => hql (List.mem_append_right _ (List.mem_of_mem_head? hr))]
    exact h.idle q hq hql
  · rw [due_append]
    refine ⟨(due_congr htz fun q _ => rfl).2 (due_expired hdue.1 hz), ?_⟩
    rw [sum_congr htz, hsz]
    rw [hsz] at hdue
    cases r with
    | nil => trivial
    | cons y b =>
      obtain ⟨hdy, hdb⟩ := hdue.2
      have hyt := hy y rfl
      have hyb := (List.nodup_cons.1 hnd.2.1).1
      refine ⟨?_, ?_⟩
      · change s.due y - (s.now + 1) = 0 + 0 + t.ticks y
        omega
      · have htb : ∀ q ∈ b, t.ticks q = s.list.ticks q := fun q hq => hto q fun hr => by
          obtain rfl : y = q := Option.some.inj hr
          exact hyb hq
        refine (due_congr htb fun q _ => rfl).2 (due_behind ?_)
        rw [show 0 + 0 + t.ticks y + 1 = 0 + 0 + s.list.ticks y by omega]
        exact hdb

end

/-! ### The runs -/

section
variable {n : Nat} {s t : TimerState} {l a b : List Nat} {p q : Nat}

/-- What an entry that is fetched, and a list from which none is, say about the deadlines. -/
private theorem TimerState.Law.expired (h : s.Law n l) :
    (s.list.getExpiredEntry.1 = 0 → ∀ q d, s.deadline q = some d → s.now < d) ∧
      ∀ p, s.list.getExpiredEntry.1 = p → p ≠ 0 →
        ∃ d, s.deadline p = some d ∧ d ≤ s.now ∧ ∀ q e, s.deadline q = some e → d ≤ e := by
  have hmem : ∀ q d, s.deadline q = some d → q ∈ l ∧ s.due q = d := fun q d hq =>
    ⟨(h.listed q).2 (by rw [hq]; rfl), by unfold TimerState.due; rw [hq]; rfl⟩
  have hfirst := h.list.first
  have hdue := h.due
  unfold TimerList.getExpiredEntry
  cases hl : l with
  | nil =>
    rw [hl] at hfirst
    have h0 : s.list.pFirst = 0 := hfirst
    rw [if_neg (by simp [h0])]
    exact ⟨fun _ q d hq => (by rw [hl] at hmem; cases (hmem q d hq).1), fun p hp hp0 => absurd hp.symm hp0⟩
  | cons x m =>
    rw [hl] at hfirst hdue
    have hx : s.list.pFirst = x := hfirst
    have hx0 : x ≠ 0 := by
      rintro rfl
      exact h.nodup.2 (hl ▸ List.mem_cons_self)
    have hsorted := h.sorted
    rw [hl, List.pairwise_cons] at hsorted
    have hmin : ∀ q ∈ l, s.due x ≤ s.due q := by
      rw [hl]
      intro q hq
      rcases List.mem_cons.1 hq with rfl | hq
      · exact Nat.le_refl _
      · exact hsorted.1 q hq
    have hdx := hdue.1
    rw [hx]
    by_cases ht : s.list.ticks x = 0
    · rw [if_pos ⟨hx0, ht⟩]
      have hret : ∀ c : Prop, [Decidable c] → ∀ u v : TimerList, (if c then (x, u) else (x, v)).1 = x := by
        intro c _ u v
        split <;> rfl
      dsimp only
      rw [hret]
      refine ⟨fun h0 => absurd h0 hx0, fun p hp _ => ?_⟩
      subst hp
      obtain ⟨d, hd⟩ := Option.isSome_iff_exists.1 ((h.listed x).1 (hl ▸ List.mem_cons_self))
      have hdd := (hmem x d hd).2
      refine ⟨d, hd, by omega, fun q e hq => ?_⟩
      have := hmin q (hmem q e hq).1
      have := (hmem q e hq).2
      omega
    · rw [if_neg fun hc => ht hc.2]
      refine ⟨fun _ q d hq => ?_, fun p hp hp0 => absurd hp.symm hp0⟩
      have := hmin q (hmem q d hq).1
      have := (hmem q d hq).2
      omega

private theorem TimerState.Law.get (h : s.Law n l) (hok : s.sound .getExpired) :
    ∃ t l', s.call n .getExpired = some t ∧ t.Law n l' := by
  have hfirst := h.list.first
  unfold TimerState.call
  dsimp only
  by_cases hexp : s.list.pFirst ≠ 0 ∧ s.list.ticks s.list.pFirst = 0
  · cases hl : l with
    | nil =>
      rw [hl] at hfirst
      exact absurd hfirst hexp.1
    | cons p m =>
      subst hl
      have hp : s.list.pFirst = p := hfirst
      have hi : s.list.tInit p = 0 := by
        unfold TimerState.sound at hok
        rw [hp] at hok hexp
        simpa [hexp] using hok
      rw [hp] at hexp
      rw [h.list.fetch hexp.2 hi]
      dsimp only
      rw [if_neg hexp.1, if_pos hi]
      exact ⟨_, m, rfl, h.remove (a := []) (by rw [hexp.2]; decide)⟩
  · have hnone : s.list.getExpiredEntry = (0, s.list) := by
      unfold TimerList.getExpiredEntry
      rw [if_neg hexp]
    rw [hnone]
    exact ⟨_, l, rfl, h⟩

private theorem TimerState.Law.take (h : s.Law n l) (hok : s.sound (.remove p)) :
    ∃ t l', s.call n (.remove p) = some t ∧ t.Law n l' := by
  unfold TimerState.call
  dsimp only
  by_cases hp : p ∈ l
  · obtain ⟨a, b, rfl⟩ := List.append_of_mem hp
    have hsome := (h.listed p).1 hp
    have ht : s.list.ticks p ≠ noTicks := by
      unfold TimerState.sound at hok
      simpa [hsome] using hok
    exact ⟨_, a ++ b, rfl, h.remove ht⟩
  · have hnone : s.deadline p = none := by
      rw [← Option.not_isSome_iff_eq_none, ← h.listed]
      exact hp
    have hsame : s.list.removeFromTimerList p = s.list := by
      unfold TimerList.removeFromTimerList
      by_cases hp0 : p = 0
      · rw [if_pos (.inl hp0)]
      · rw [if_pos (.inr (.inl (h.idle p hp0 hp)))]
    have hdead : Function.update s.deadline p none = s.deadline := by
      rw [← hnone, Function.update_eq_self]
    rw [hsame, hdead]
    exact ⟨_, l, rfl, h⟩

/-- A sound call returns and keeps the law. -/
private theorem TimerState.Law.call (h : s.Law n l) (e : TimerCall) (hv : e.valid n) (hok : s.sound e) :
    ∃ t l', s.call n e = some t ∧ t.Law n l' := by
  cases e with
  | add p m i =>
    unfold TimerCall.valid at hv
    unfold TimerState.sound at hok
    simp only [Bool.and_eq_true, decide_eq_true_eq, Option.isNone_iff_eq_none, Bool.not_eq_true', Bool.and_eq_false_iff,
      beq_eq_false_iff_ne, bne_eq_false_iff_eq, ne_eq] at hv hok
    refine h.add (by omega) hv.1.1.2 (fun hp => ?_) hv.1.2 fun h0 hlast d hd => ?_
    · have hsome := (h.listed p).1 hp
      rw [hok.1] at hsome
      cases hsome
    · rw [hd] at hok
      rcases hok.2 with (hm | hl) | hd'
      · exact absurd h0 hm
      · exact absurd hl hlast
      · simpa using hd'
  | remove p => exact h.take hok
  | update =>
    obtain ⟨t, ht, hlaw⟩ := h.tick
    exact ⟨t, l, ht, hlaw⟩
  | getExpired => exact h.get hok

private theorem timerLaw_init (h : (timerList.machine n).init s) : s.Law n [] := by
  obtain ⟨hf, hl, ht, hidle, hd⟩ := h
  refine ⟨⟨linear_nil (by rw [Function.update_self, hf]), hl, ht, by rw [ht]; decide,
    fun p _ _ => ⟨(hidle p).1, (hidle p).2.1⟩⟩, fun p => ?_, fun p _ _ => (hidle p).2.2, trivial, List.Pairwise.nil,
    fun p hp => by cases hp⟩
  rw [hd]
  exact iff_of_false List.not_mem_nil Bool.false_ne_true

/-- In the runs of sound calls the timer list holds the deadlines of its entries, a sound call returns, and an entry is
fetched when the earliest deadline has passed: that of an entry that is fetched, while no deadline has passed when none
is. -/
theorem timer_list_keeps_deadlines (hs : (timerList.machine n).Reach TimerState.sound s) :
    (∃ l, s.Law n l) ∧ (∀ e : TimerCall, e.valid n → s.sound e → ∃ t, s.call n e = some t) ∧
      (s.list.getExpiredEntry.1 = 0 → ∀ q d, s.deadline q = some d → s.now < d) ∧
      ∀ p, s.list.getExpiredEntry.1 = p → p ≠ 0 →
        ∃ d, s.deadline p = some d ∧ d ≤ s.now ∧ ∀ q e, s.deadline q = some e → d ≤ e := by
  have hlaw : ∃ l, s.Law n l := by
    refine hs.invariant (I := fun s => ∃ l, s.Law n l) (fun s h => ⟨[], timerLaw_init h⟩) ?_
    rintro s e t ⟨l, hl⟩ hok hstep
    unfold timerList.machine at hstep
    dsimp only at hstep
    split at hstep
    · rename_i hv
      obtain ⟨t', l', ht', hl'⟩ := hl.call e hv hok
      rw [ht', Option.some.injEq] at hstep
      exact ⟨l', hstep ▸ hl'⟩
    · cases hstep
  refine ⟨hlaw, ?_⟩
  obtain ⟨l, hl⟩ := hlaw
  refine ⟨fun e hv hok => ?_, hl.expired⟩
  obtain ⟨t, -, ht, -⟩ := hl.call e hv hok
  exact ⟨t, ht⟩

end

def emptyTimerList : TimerState :=
  ⟨⟨fun _ => 0, fun _ => 0, fun _ => noTicks, fun _ => 0, 0, 0, 0⟩, 0, fun _ => none⟩

private theorem emptyTimerList_init (n : Nat) : (timerList.machine n).init emptyTimerList :=
  ⟨rfl, rfl, rfl, fun _ => ⟨rfl, rfl, rfl⟩, fun _ => rfl⟩

theorem timer_list_keeps_deadlines_run :
    ∃ s, (timerList.machine 3).run TimerState.sound emptyTimerList
        [.add 1 5 0, .add 2 3 0, .update, .add 3 2 0, .remove 1, .update, .update] = some s ∧
      (∃ l, s.Law 3 l) ∧ ∃ d, s.deadline 3 = some d ∧ d ≤ s.now ∧ ∀ q e, s.deadline q = some e → d ≤ e := by
  have hrun : (timerList.machine 3).run TimerState.sound emptyTimerList
    [.add 1 5 0, .add 2 3 0, .update, .add 3 2 0, .remove 1, .update, .update] = some _ := rfl
  obtain ⟨hlaw, -, -, hget⟩ := timer_list_keeps_deadlines (Machine.Reach.of_run (.init (emptyTimerList_init 3)) hrun)
  exact ⟨_, hrun, hlaw, hget 3 (by decide +kernel) (by decide)⟩

/-- The recurrent entry 1 expires after one tick and is put back in front of entry 2 with 5 ticks: when the deadline of
entry 2 has come, nothing is fetched. -/
theorem recurrent_delays_others :
    ∃ s, (timerList.machine 3).run (fun _ _ => true) emptyTimerList
        [.add 1 1 5, .add 2 2 0, .update, .getExpired, .update] = some s ∧
      s.deadline 2 = some 2 ∧ s.now = 2 ∧ s.list.getExpiredEntry.1 = 0 :=
  ⟨_, rfl, rfl, rfl, rfl⟩

end Citrine.Rvf
