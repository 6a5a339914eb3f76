import Mathlib.Data.List.ReduceOption
import Mathlib.Data.List.TakeDrop
import Mathlib.Data.List.TakeWhile

/-!
# The lists of the ACI

`aci_lst.c`: a singly linked list whose first node is its header and holds the first message as well.  A list is given by
the messages of its nodes from the header on, where `none` is a message that is `NULL` and the list without nodes is a
list that is `NULL`.
-/

namespace Citrine.Aci

variable {α : Type}

/-- `T_ACI_LIST` -/
abbrev AciList (α : Type) := List (Option α)

/-- `new_list` -/
def newList : AciList α := [none]

/-- `get_list_count` -/
def getListCount (list : AciList α) : Nat := list.countP Option.isSome % 65536

/-- `insert_list` -/
def insertList (list : AciList α) (buffer : Option α) : Bool × AciList α :=
  match list with
  | [] => (false, [])
  | none :: next => (true, buffer :: next)
  | some m :: next => (true, some m :: next ++ [buffer])

/-- `remove_element`: the message, and what is left of the list.  The header is not freed: it takes over the message of
the second node, or keeps none. -/
def removeElement (searchList : AciList α) (testCriterium : Option α → Bool) : Option α × AciList α :=
  match searchList.span fun m => !testCriterium m with
  | (_, []) => (none, searchList)
  | (_, none :: _) => (none, searchList)
  | ([], [some m]) => (some m, [none])
  | ([], some m :: next) => (some m, next)
  | (p :: previous, some m :: next) => (some m, p :: previous ++ next)

/-- The list of some messages: its header has no message when there is none. -/
def AciList.of (l : List α) : AciList α := if l.isEmpty then [none] else l.map some

theorem AciList.of_ne_nil {l : List α} (h : l ≠ []) : AciList.of l = l.map some := by
  cases l with
  | nil => exact absurd rfl h
  | cons a l => rfl

theorem newList_eq : (newList : AciList α) = AciList.of [] := rfl

/-- The messages of a list. -/
theorem AciList.reduceOption_of (l : List α) : (AciList.of l).reduceOption = l := by
  cases l with
  | nil => rfl
  | cons a l =>
    rw [AciList.of_ne_nil (List.cons_ne_nil a l), List.reduceOption, List.filterMap_map]
    exact List.filterMap_some

theorem getListCount_of {l : List α} (h : l.length < 65536) : getListCount (AciList.of l) = l.length := by
  unfold getListCount
  cases l with
  | nil => rfl
  | cons a l =>
    have hall : ((a :: l).map some).countP Option.isSome = (a :: l).length := by
      rw [List.countP_map]
      exact List.countP_eq_length.2 fun _ _ => rfl
    rw [AciList.of_ne_nil (List.cons_ne_nil a l), hall, Nat.mod_eq_of_lt h]

/-- A message is put behind the others. -/
theorem insertList_of (l : List α) (m : α) : insertList (AciList.of l) (some m) = (true, AciList.of (l ++ [m])) := by
  cases l with
  | nil => rfl
  | cons a l =>
    rw [AciList.of_ne_nil (List.cons_ne_nil a l), AciList.of_ne_nil (by simp)]
    simp [insertList]

private theorem span_some (l : List α) (test : α → Bool) :
    (l.map some).span (fun m : Option α => !m.any test) =
      ((l.takeWhile fun a => !test a).map some, (l.dropWhile fun a => !test a).map some) := by
  rw [List.span_eq_takeWhile_dropWhile, List.takeWhile_map, List.dropWhile_map]
  rfl

/-- The first message that meets the criterion is taken out. -/
theorem removeElement_of (l : List α) (test : α → Bool) :
    removeElement (AciList.of l) (fun m => m.any test) = (l.find? test, AciList.of (l.eraseP test)) := by
  cases hl : l with
  | nil => rfl
  | cons a m =>
    rw [← hl, AciList.of_ne_nil (by simp [hl])]
    unfold removeElement
    rw [span_some]
    have happ : l.takeWhile (fun a => !test a) ++ l.dropWhile (fun a => !test a) = l := List.takeWhile_append_dropWhile
    have htake : ∀ b ∈ l.takeWhile (fun a => !test a), test b = false := fun b hb => by
      simpa using List.mem_takeWhile_imp hb
    cases hd : l.dropWhile fun a => !test a with
    | nil =>
      rw [hd, List.append_nil] at happ
      have hno : ∀ b ∈ l, test b = false := fun b hb => htake b (happ.symm ▸ hb)
      have hfind : l.find? test = none := List.find?_eq_none.2 fun b hb => by simp [hno b hb]
      have herase : l.eraseP test = l := List.eraseP_of_forall_not fun b hb => by simp [hno b hb]
      rw [hfind, herase, AciList.of_ne_nil (by simp [hl])]
      rfl
    | cons b r =>
      have hb : test b = true := by
        have := List.head_dropWhile_not (fun a => !test a) (l := l) (by simp [hd])
        simpa [hd] using this
      rw [hd] at happ
      have hfind : l.find? test = some b := by
        rw [← happ, List.find?_append, List.find?_eq_none.2 fun c hc => by simp [htake c hc], Option.none_or,
          List.find?_cons_of_pos hb]
      have herase : l.eraseP test = l.takeWhile (fun a => !test a) ++ r := by
        conv_lhs => rw [← happ]
        rw [List.eraseP_append_right _ fun c hc => by simp [htake c hc], List.eraseP_cons_of_pos hb]
      rw [hfind, herase]
      cases l.takeWhile fun a => !test a with
      | nil =>
        cases r with
        | nil => rfl
        | cons c r => rfl
      | cons c t =>
        rw [AciList.of_ne_nil (by simp)]
        simp

end Citrine.Aci
