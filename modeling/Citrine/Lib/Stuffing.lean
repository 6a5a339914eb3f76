import Mathlib.Data.List.Basic

/-!
# Stuffing and framing

A text is made free of a flag by writing an escape in front of every character that must not appear, and the character
itself changed (`stuff`).  A reader of such texts, each with a flag behind it, keeps what it has read since the last flag
and whether an escape came last (`Scan`); at a flag it gives the text that has ended.  Reading can be interrupted anywhere
(`scan_append`), and what has been written as a text between flags is read as this text (`scan_frame`), if no character
becomes the flag by being changed.
-/

namespace Citrine.Stuffing

/-- The characters with an escape in front of every special one. -/
def stuff {α : Type} (esc : α) (change : α → α) (special : α → Bool) : List α → List α
  | [] => []
  | c :: cs => if special c then esc :: change c :: stuff esc change special cs else c :: stuff esc change special cs

theorem stuff_append {α : Type} {esc : α} {change : α → α} {special : α → Bool} (k l : List α) :
    stuff esc change special (k ++ l) = stuff esc change special k ++ stuff esc change special l := by
  induction k with
  | nil => rfl
  | cons c cs ih =>
    rw [List.cons_append, stuff, stuff]
    split
    · rw [ih]
      rfl
    · rw [ih]
      rfl

/-- What has been read since the last flag, if there has been one, and whether an escape has been read last. -/
structure Scan (α : Type) where
  content : Option (List α)
  pending : Bool

variable {α : Type} [DecidableEq α]

/-- The reader after a character, and the text that ends with it. -/
def Scan.next (flag esc : α) (change : α → α) (s : Scan α) (c : α) : Scan α × Option (List α) :=
  if c = flag then (⟨some [], false⟩, s.content)
  else if c = esc ∧ s.pending = false then (⟨s.content, true⟩, none)
  else (⟨s.content.map (· ++ [if s.pending then change c else c]), false⟩, none)

/-- The reader after the characters, and the texts that end among them. -/
def scan (flag esc : α) (change : α → α) (s : Scan α) : List α → Scan α × List (List α)
  | [] => (s, [])
  | c :: cs =>
    let (s', t) := s.next flag esc change c
    let (s'', ts) := scan flag esc change s' cs
    (s'', t.toList ++ ts)

variable {flag esc : α} {change : α → α} {special : α → Bool} {s : Scan α}

theorem scan_cons (c : α) (cs : List α) :
    scan flag esc change s (c :: cs) =
      ((scan flag esc change (s.next flag esc change c).1 cs).1,
        (s.next flag esc change c).2.toList ++ (scan flag esc change (s.next flag esc change c).1 cs).2) := rfl

theorem scan_append (k l : List α) :
    scan flag esc change s (k ++ l) =
      ((scan flag esc change (scan flag esc change s k).1 l).1,
        (scan flag esc change s k).2 ++ (scan flag esc change (scan flag esc change s k).1 l).2) := by
  induction k generalizing s with
  | nil => rfl
  | cons c cs ih => rw [List.cons_append, scan_cons, ih, scan_cons, List.append_assoc]

theorem next_flag : s.next flag esc change flag = (⟨some [], false⟩, s.content) := if_pos rfl

theorem next_escape (hne : esc ≠ flag) (hs : s.pending = false) : s.next flag esc change esc = (⟨s.content, true⟩, none) := by
  unfold Scan.next
  rw [if_neg hne, if_pos ⟨rfl, hs⟩]

theorem next_char {c : α} (hflag : c ≠ flag) (hesc : c = esc → s.pending = true) :
    s.next flag esc change c = (⟨s.content.map (· ++ [if s.pending then change c else c]), false⟩, none) := by
  unfold Scan.next
  rw [if_neg hflag, if_neg fun h => Bool.noConfusion ((hesc h.1).symm.trans h.2)]

theorem scan_flag (l : List α) :
    scan flag esc change s (flag :: l) =
      ((scan flag esc change ⟨some [], false⟩ l).1, s.content.toList ++ (scan flag esc change ⟨some [], false⟩ l).2) := by
  rw [scan_cons, next_flag]

private theorem scan_stuff (hspecial : special flag = true ∧ special esc = true) (hne : esc ≠ flag)
    (hchange : ∀ c, change (change c) = c) (hflag : ∀ c, special c = true → change c ≠ flag) (t l : List α) :
    scan flag esc change ⟨some t, false⟩ (stuff esc change special l) = (⟨some (t ++ l), false⟩, []) := by
  induction l generalizing t with
  | nil =>
    rw [List.append_nil]
    rfl
  | cons c cs ih =>
    have hread : (t ++ [c]) ++ cs = t ++ c :: cs := List.append_assoc t [c] cs
    unfold stuff
    split
    · rename_i hs
      rw [scan_cons, scan_cons, next_escape hne rfl, next_char (hflag c hs) fun _ => rfl, if_pos rfl, hchange,
        Option.map_some, ih, hread]
      rfl
    · rename_i hs
      have hc : c ≠ flag := by
        intro h
        rw [h] at hs
        exact hs hspecial.1
      have hc' : c ≠ esc := by
        intro h
        rw [h] at hs
        exact hs hspecial.2
      rw [scan_cons, next_char hc fun h => absurd h hc', if_neg Bool.false_ne_true, Option.map_some, ih, hread]
      rfl

/-- A text between flags ends what has been read before, and is read. -/
theorem scan_frame (hspecial : special flag = true ∧ special esc = true) (hne : esc ≠ flag)
    (hchange : ∀ c, change (change c) = c) (hflag : ∀ c, special c = true → change c ≠ flag) (l : List α) :
    scan flag esc change s (flag :: stuff esc change special l ++ [flag]) =
      (⟨some [], false⟩, s.content.toList ++ [l]) := by
  rw [List.cons_append, scan_flag, scan_append, scan_stuff hspecial hne hchange hflag, scan_flag]
  rfl

end Citrine.Stuffing
