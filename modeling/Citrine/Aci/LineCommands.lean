import Citrine.Aci.LineEdit
import Citrine.Aci.LineText

/-!
# The commands of a command line

The grammar of AT command lines that `line_split.c` goes by, on texts (`commandOf`): each of the five families says where
the name and the parameter of a command end, and what may follow it.  `ledit_split` takes the command of the grammar off
the line, and fails where there is none, unless it reads outside of the line or of the table of the basic commands
(`strays`).
-/

namespace Citrine.Aci

/-! ### The grammar -/

/-- A command, the semicolon that separates it from the next one, and what follows. -/
structure Parsed where
  cmd : AtCmd
  sep : List Nat
  rest : List Nat
  deriving DecidableEq, Repr

/-- A command whose parameter is the digits behind its letter. -/
def basicOf (mType : MainType) (sType : SubType) (c : Nat) (r : List Nat) : Parsed :=
  ⟨⟨mType, sType, false, some [c], some (r.takeWhile isDigit)⟩, [], r.dropWhile isDigit⟩

def andOf : List Nat → Option Parsed
  | [] => none
  | c :: r => if checkValidAndCmd c then some (basicOf .and .query c r) else none

/-- A dial command takes everything up to the first semicolon, and has to be the last one. -/
def dialOf (r : List Nat) : Option Parsed :=
  if (fromSemicolon r).tail = [] then
    some ⟨⟨.dial, .set, false, some [68], some (untilSemicolon r ++ fromSemicolon r)⟩, [], []⟩
  else none

/-- `ATSnn`, with digits as its parameter -/
def sOf (r : List Nat) : Option Parsed :=
  if nameOk false 1 (nameOf r) then
    (operator (behindName r)).map fun (sType, flag, q) =>
      ⟨⟨.s, sType, flag, some (83 :: nameOf r), some (q.takeWhile isDigit)⟩, [], q.dropWhile isDigit⟩
  else none

/-- An extended command, the parameter of which ends at a semicolon. -/
def extendedOf (p : Nat) (r : List Nat) : Option Parsed :=
  if isUpper (r.headD 0) then
    (operator (behindName r.tail)).map fun (sType, flag, q) =>
      ⟨⟨.extended, sType, flag, some (p :: r.headD 0 :: nameOf r.tail), some (untilSemicolon q)⟩,
        (fromSemicolon q).take 1, (fromSemicolon q).tail⟩
  else none

/-- The command at the first character of a text. -/
def oneOf (c : Nat) (r : List Nat) : Option Parsed :=
  if isAlpha c then
    match checkValidBasicCmd c with
    | .support => some (basicOf .basic .set c r)
    | .dial => dialOf r
    | .sParam => sOf r
    | .noSupp => none
  else if c = 38 then andOf r
  else extendedOf c r

/-- A character that may follow a command: a sign but no separator, a capital letter. -/
def opens (c : Nat) : Bool :=
  (decide (33 ≤ c ∧ c ≤ 95) || decide (123 ≤ c ∧ c ≤ 127)) && !isOperator c && !isDigit c && c != 44

/-- The text ends, or goes on with another command. -/
def goesOn : List Nat → Bool
  | [] => true
  | c :: _ => opens c

/-- The command at the beginning of a text; `none` when it is ill-formed. -/
def commandOf : List Nat → Option Parsed
  | [] => none
  | c :: r => (oneOf c r).filter (goesOn ·.rest)

/-- The operator of a command; `flag` is its `append_Flag`. -/
def operatorText (sType : SubType) (flag : Bool) : List Nat :=
  if flag then
    match sType with
    | .nil => []
    | .query => [63]
    | .set => [61]
    | .test => [61, 63]
  else []

/-- The text of a command. -/
def AtCmd.spelling (cmd : AtCmd) : List Nat :=
  (if cmd.mType = .and then [38] else []) ++ cmd.name.getD [] ++ operatorText cmd.sType cmd.appendFlag ++
    cmd.params.getD []

section
variable {r q : List Nat} {c : Nat} {y : Parsed} {sType : SubType} {flag : Bool}

private theorem operator_spells (h : operator r = some (sType, flag, q)) :
    operatorText sType flag ++ q = r := by
  unfold operator at h
  split at h
  · split_ifs at h
    cases h
    rfl
  · cases h
    rfl
  · split_ifs at h
    cases h
    rfl
  · cases h
    rfl

private theorem take_tail (l : List Nat) : l.take 1 ++ l.tail = l := by cases l <;> rfl

private theorem basicOf_spells (m : MainType) (t : SubType) (c : Nat) (r : List Nat) :
    (basicOf m t c r).cmd.spelling ++ (basicOf m t c r).sep ++ (basicOf m t c r).rest =
      (if m = .and then [38] else []) ++ c :: r := by
  unfold basicOf AtCmd.spelling operatorText
  simp only [Bool.false_eq_true, if_false, Option.getD_some, List.append_nil, List.append_assoc,
    List.cons_append, List.nil_append, List.takeWhile_append_dropWhile]

private theorem dialOf_spells (h : dialOf r = some y) : y.cmd.spelling ++ y.sep ++ y.rest = 68 :: r := by
  unfold dialOf at h
  split_ifs at h
  cases h
  unfold AtCmd.spelling operatorText
  simp only [reduceCtorEq, Bool.false_eq_true, if_false, Option.getD_some, List.append_nil, List.nil_append,
    List.singleton_append, until_append_from]

private theorem sOf_spells (h : sOf r = some y) : y.cmd.spelling ++ y.sep ++ y.rest = 83 :: r := by
  unfold sOf at h
  split_ifs at h
  obtain ⟨⟨sType, flag, q⟩, hop, rfl⟩ := Option.map_eq_some_iff.1 h
  have hspell := operator_spells hop
  unfold AtCmd.spelling
  simp only [reduceCtorEq, if_false, Option.getD_some, List.append_nil, List.nil_append, List.append_assoc,
    List.takeWhile_append_dropWhile, List.cons_append]
  rw [hspell, name_append_behind]

private theorem extendedOf_spells (h : extendedOf c r = some y) : y.cmd.spelling ++ y.sep ++ y.rest = c :: r := by
  unfold extendedOf at h
  split_ifs at h with hup
  obtain ⟨⟨sType, flag, q⟩, hop, rfl⟩ := Option.map_eq_some_iff.1 h
  have hspell := operator_spells hop
  cases r with
  | nil => cases hup
  | cons u r =>
    unfold AtCmd.spelling
    simp only [reduceCtorEq, if_false, Option.getD_some, List.nil_append, List.append_assoc, List.cons_append,
      take_tail, until_append_from]
    rw [hspell]
    exact congrArg (c :: u :: ·) (name_append_behind r)

private theorem else_of_ne {α : Type} {p : Prop} [Decidable p] {a b v : α} (h : (if p then a else b) = v) (ha : a ≠ v) :
    b = v := by
  by_cases hp : p
  · exact absurd ((if_pos hp).symm.trans h) ha
  · exact (if_neg hp).symm.trans h

theorem basicCmd_dial (h : checkValidBasicCmd c = .dial) : c = 68 := by
  by_contra hc
  unfold checkValidBasicCmd at h
  rw [if_neg hc] at h
  cases else_of_ne (else_of_ne h nofun) nofun

theorem basicCmd_s (h : checkValidBasicCmd c = .sParam) : c = 83 := by
  by_contra hc
  unfold checkValidBasicCmd at h
  rw [if_neg hc] at h
  cases else_of_ne (else_of_ne h nofun) nofun

/-- The five families of commands. -/
theorem oneOf_cases (h : oneOf c r = some y) :
    (∃ d q t m, (c = d ∧ r = q ∧ m = .basic ∨ c = 38 ∧ r = d :: q ∧ m = .and) ∧ y = basicOf m t d q) ∨
      (c = 68 ∧ dialOf r = some y) ∨ (c = 83 ∧ sOf r = some y) ∨ extendedOf c r = some y := by
  unfold oneOf at h
  split_ifs at h with halpha hand
  · cases hc : checkValidBasicCmd c with
    | noSupp =>
      rw [hc] at h
      cases h
    | support =>
      rw [hc] at h
      cases h
      exact Or.inl ⟨c, r, .set, .basic, Or.inl ⟨rfl, rfl, rfl⟩, rfl⟩
    | dial =>
      rw [hc] at h
      exact Or.inr (Or.inl ⟨basicCmd_dial hc, h⟩)
    | sParam =>
      rw [hc] at h
      exact Or.inr (Or.inr (Or.inl ⟨basicCmd_s hc, h⟩))
  · cases r with
    | nil => cases h
    | cons d q =>
      unfold andOf at h
      dsimp only at h
      split_ifs at h
      cases h
      exact Or.inl ⟨d, q, .query, .and, Or.inr ⟨hand, rfl, rfl⟩, rfl⟩
  · exact Or.inr (Or.inr (Or.inr h))

theorem oneOf_spells (h : oneOf c r = some y) : y.cmd.spelling ++ y.sep ++ y.rest = c :: r := by
  rcases oneOf_cases h with ⟨d, q, t, m, hfrom, rfl⟩ | ⟨rfl, h⟩ | ⟨rfl, h⟩ | h
  · rw [basicOf_spells m t d q]
    rcases hfrom with ⟨rfl, rfl, rfl⟩ | ⟨rfl, rfl, rfl⟩ <;> rfl
  · exact dialOf_spells h
  · exact sOf_spells h
  · exact extendedOf_spells h

private theorem oneOf_name (h : oneOf c r = some y) : y.cmd.spelling ≠ [] := by
  have hname : ∀ a l, y.cmd.name = some (a :: l) → y.cmd.spelling ≠ [] := by
    intro a l hn
    unfold AtCmd.spelling
    rw [hn, Option.getD_some]
    simp
  rcases oneOf_cases h with ⟨d, q, t, m, -, rfl⟩ | ⟨-, hd⟩ | ⟨-, hs⟩ | he
  · exact hname _ _ rfl
  · unfold dialOf at hd
    split_ifs at hd
    cases hd
    exact hname _ _ rfl
  · unfold sOf at hs
    split_ifs at hs
    obtain ⟨o, -, rfl⟩ := Option.map_eq_some_iff.1 hs
    exact hname _ _ rfl
  · unfold extendedOf at he
    split_ifs at he
    obtain ⟨o, -, rfl⟩ := Option.map_eq_some_iff.1 he
    exact hname _ _ rfl

/-- A command, its semicolon and what follows are the text they come from. -/
theorem commandOf_spells (h : commandOf r = some y) : y.cmd.spelling ++ y.sep ++ y.rest = r := by
  cases r with
  | nil => cases h
  | cons c r => exact oneOf_spells (Option.filter_eq_some_iff.1 h).1

/-- A command has characters of its own. -/
theorem commandOf_shorter (h : commandOf r = some y) : y.rest.length < r.length := by
  cases r with
  | nil => cases h
  | cons c r =>
    have hone := (Option.filter_eq_some_iff.1 h).1
    have hpos := List.length_pos_iff.2 (oneOf_name hone)
    rw [← oneOf_spells hone, List.length_append, List.length_append]
    omega

end

/-! ### Taking a command off the line -/

/-- An extended or a dial command whose parameter begins where the line ends. -/
def endsEmpty : List Nat → Bool
  | [] => false
  | c :: r =>
    if isAlpha c then c == 68 && r.isEmpty
    else c != 38 && isUpper (r.headD 0) && (operator (behindName r.tail)).any (·.2.2.isEmpty)

/-- What is copied of a parameter that ends at a semicolon: at the end of the line the loop over it takes the terminator. -/
def copied (q : List Nat) : List Nat := if q = [] then [0] else untilSemicolon q

/-- The command with the letters of its dial string as the original line has them. -/
def AtCmd.restoredBy (orig : Buf) (cmd : AtCmd) : AtCmd :=
  { cmd with params := if cmd.mType = .dial then cmd.params.map (restored orig) else cmd.params }

/-- The command with its parameters as a string. -/
def AtCmd.shown (cmd : AtCmd) : AtCmd := { cmd with params := cmd.params.map (·.takeWhile (· ≠ 0)) }

/-- The command as `ledit_split` hands it out. -/
def handedOut (orig : Buf) (r : List Nat) (cmd : AtCmd) : AtCmd :=
  ({ cmd with params := if endsEmpty r then some [0] else cmd.params } : AtCmd).restoredBy orig

namespace Split

/-- What taking a command off the line has done. -/
structure Took (x : Split) (r : List Nat) (y : Parsed) (z : Split) : Prop where
  cmd : z.cmd = handedOut x.orig r y.cmd
  iter : z.iter = x.iter + (y.cmd.spelling ++ y.sep).length + if endsEmpty r then 1 else 0
  exec : y.cmd.mType ≠ .dial → z.exec = x.exec
  behind : ∀ j, z.iter ≤ j → z.exec j = x.exec j
  orig : z.orig = x.orig

variable {x : Split} {b : Buf} {i c : Nat} {q r : List Nat} {y : Parsed}

private theorem digits_len (h : b.Text i q) (hn : q.length ≤ maxCmdLen) :
    getParaLen b i .basic = (q.takeWhile isDigit).length := by
  unfold getParaLen
  dsimp only
  rw [digitsEnd_text h (Nat.le_succ_of_le hn), Nat.add_sub_cancel_left]

private theorem assignParam_basic (h : x.exec.Text x.iter q) (hn : q.length ≤ maxCmdLen) :
    x.assignParam .basic =
      { x with
        cmd := { x.cmd with params := some (q.takeWhile isDigit) }
        iter := x.iter + (q.takeWhile isDigit).length } := by
  have hlen := digits_len h hn
  have hslice : x.exec.slice x.iter (q.takeWhile isDigit).length = q.takeWhile isDigit := by
    refine Buf.Text.slice (r := q.dropWhile isDigit) ?_
    rw [List.takeWhile_append_dropWhile]
    exact h
  unfold assignParam
  simp only [hlen, hslice, reduceCtorEq, if_false, false_and]

private theorem copied_text (h : b.Text i q) (hn : q.length ≤ maxCmdLen) (hend : q = [] → b (i + 1) = 0) :
    paramEnd b (maxCmdLen + 1) i = i + (copied q).length ∧ b.slice i (copied q).length = copied q ∧
      b.Text (i + (copied q).length) (fromSemicolon q) := by
  unfold copied
  by_cases hq : q = []
  · subst hq
    refine ⟨paramEnd_empty h (hend rfl), ?_, hend rfl⟩
    rw [if_pos rfl, List.length_singleton, slice_cons, show b i = 0 from h]
    rfl
  · rw [if_neg hq]
    rw [← until_append_from q] at h
    refine ⟨?_, h.slice, h.drop⟩
    rw [until_append_from] at h
    exact paramEnd_text h hq (Nat.le_succ_of_le hn)

private theorem fromSemicolon_head (q : List Nat) : fromSemicolon q = [] ∨ (fromSemicolon q).headD 0 = 59 := by
  unfold fromSemicolon
  induction q with
  | nil => exact Or.inl rfl
  | cons c q ih =>
    by_cases hc : c = 59
    · rw [List.dropWhile_cons_of_neg (by simpa using hc)]
      exact Or.inr hc
    · rw [List.dropWhile_cons_of_pos (by simpa using hc)]
      exact ih

private theorem assignParam_ext (h : x.exec.Text x.iter q) (hn : q.length ≤ maxCmdLen)
    (hend : q = [] → x.exec (x.iter + 1) = 0) :
    x.assignParam .ext =
      { x with
        cmd := { x.cmd with params := some (copied q) }
        iter := x.iter + (copied q).length + ((fromSemicolon q).take 1).length } := by
  obtain ⟨hlast, hslice, htext⟩ := copied_text h hn hend
  have hlen : getParaLen x.exec x.iter .ext = (copied q).length := by
    unfold getParaLen
    dsimp only
    rw [hlast, Nat.add_sub_cancel_left]
  have hiter : (if x.exec (x.iter + (copied q).length) ≠ 0 then x.iter + (copied q).length + 1
      else x.iter + (copied q).length) = x.iter + (copied q).length + ((fromSemicolon q).take 1).length := by
    by_cases hq : fromSemicolon q = []
    · rw [if_neg (not_not.2 (htext.first_eq_zero_iff.2 hq)), hq]
      rfl
    · rw [if_pos (mt htext.first_eq_zero_iff.1 hq)]
      obtain ⟨c, l, hcl⟩ := List.exists_cons_of_ne_nil hq
      rw [hcl]
      rfl
  unfold assignParam
  simp only [hlen, hslice, reduceCtorEq, if_false, true_and, hiter]

theorem dial_len (h : b.Text i q) (hn : q.length ≤ maxCmdLen) (hend : q = [] → b (i + 1) = 0) :
    getParaLen b i .dial = (copied q ++ (fromSemicolon q).take 1).length := by
  obtain ⟨hlast, -, htext⟩ := copied_text h hn hend
  unfold getParaLen
  dsimp only
  rw [hlast, htext.first, List.length_append]
  rcases fromSemicolon_head q with hq | hq
  · rw [hq, if_neg (by decide), Nat.add_sub_cancel_left]
    rfl
  · rw [hq, if_pos rfl]
    have hne : fromSemicolon q ≠ [] := by
      intro hnil
      rw [hnil] at hq
      cases hq
    obtain ⟨c, l, hcl⟩ := List.exists_cons_of_ne_nil hne
    rw [hcl]
    change i + _ + 1 - i = _ + 1
    omega

private theorem assignParam_dial (h : x.exec.Text x.iter q) (hn : q.length ≤ maxCmdLen)
    (hend : q = [] → x.exec (x.iter + 1) = 0) :
    x.assignParam .dial =
      { x with
        exec := restoreDialString x.exec x.iter (copied q ++ (fromSemicolon q).take 1).length x.orig
        cmd := { x.cmd with params := some (restored x.orig (copied q ++ (fromSemicolon q).take 1)) }
        iter := x.iter + (copied q ++ (fromSemicolon q).take 1).length } := by
  obtain ⟨-, hslice, htext⟩ := copied_text h hn hend
  have hlen := dial_len h hn hend
  have hslice' : x.exec.slice x.iter (copied q ++ (fromSemicolon q).take 1).length =
      copied q ++ (fromSemicolon q).take 1 := by
    rw [List.length_append, slice_append, hslice]
    refine congrArg _ (Buf.Text.slice (r := (fromSemicolon q).tail) ?_)
    rw [take_tail]
    exact htext
  unfold assignParam
  simp only [hlen, reduceCtorEq, if_true, false_and, if_false, restoreDialString_slice, hslice']

private theorem assignName_eq {n : List Nat} (h : x.exec.Text x.iter (n ++ q)) :
    x.assignName n.length = { x with cmd := { x.cmd with name := some n }, iter := x.iter + n.length } := by
  unfold assignName
  rw [h.slice]

/-- A letter with digits behind it. -/
private theorem letter_took {m : MainType} {t : SubType} (h : x.exec.Text x.iter (c :: r)) (hn : r.length ≤ maxCmdLen) :
    ((x.setType m t false).assignName 1).assignParam .basic =
      { x with cmd := (basicOf m t c r).cmd, iter := x.iter + 1 + (r.takeWhile isDigit).length } := by
  have hname : (x.setType m t false).assignName 1 =
      { x with cmd := ⟨m, t, false, some [c], x.cmd.params⟩, iter := x.iter + 1 } :=
    assignName_eq (x := x.setType m t false) (n := [c]) (q := r) h
  rw [hname, assignParam_basic h.2.2 hn]
  rfl

private theorem lookAhead_set (h : lookAhead c = .set) : c = 61 := by
  by_contra hc
  unfold lookAhead at h
  rw [if_neg hc] at h
  iterate 10 replace h := else_of_ne h nofun
  cases h

private theorem lookAhead_read (h : lookAhead c = .read) : c = 63 := by
  by_contra hc
  unfold lookAhead at h
  rw [if_neg hc] at h
  iterate 10 replace h := else_of_ne h nofun
  cases h

/-- The operator behind a name. -/
private theorem extendedType_eq {m : MainType} {sType : SubType} {flag : Bool} (h : x.exec.Text x.iter r)
    (hop : operator r = some (sType, flag, q)) :
    x.extendedType m =
      { x with
        cmd := { x.cmd with mType := m, sType := sType, appendFlag := flag }
        iter := x.iter + (operatorText sType flag).length } := by
  have hset : lookAhead 61 = .set := by decide
  have hread : lookAhead 63 = .read := by decide
  unfold operator at hop
  unfold extendedType
  split at hop
  · split_ifs at hop
    cases hop
    rw [h.1, h.2.2.1, hset, hread]
    rfl
  · rename_i r' hne
    cases hop
    have hnext : lookAhead (x.exec (x.iter + 1)) ≠ .read := by
      intro hr
      have hhead := lookAhead_read hr
      rw [h.2.2.first] at hhead
      cases q with
      | nil => cases hhead
      | cons d q => exact hne q (congrArg (· :: q) hhead)
    rw [h.1, hset]
    dsimp only
    rw [if_neg hnext]
    rfl
  · split_ifs at hop
    cases hop
    rw [h.1, hread]
    rfl
  · rename_i hne hne' hne''
    cases hop
    have hhead : lookAhead (x.exec x.iter) ≠ .set ∧ lookAhead (x.exec x.iter) ≠ .read := by
      rw [h.first]
      constructor
      · intro hs
        have hc := lookAhead_set hs
        cases q with
        | nil => cases hc
        | cons d q => exact hne' q (congrArg (· :: q) hc)
      · intro hs
        have hc := lookAhead_read hs
        cases q with
        | nil => cases hc
        | cons d q => exact hne'' q (congrArg (· :: q) hc)
    split
    · rename_i hs
      exact absurd hs hhead.1
    · rename_i hs
      exact absurd hs hhead.2
    · rfl

/-- Where the parameter behind a name and an operator begins. -/
theorem named_operator {m : MainType} {sType : SubType} {flag : Bool} {n w : List Nat} (h : x.exec.Text x.iter (n ++ w))
    (hop : operator w = some (sType, flag, q)) :
    x.exec.Text ((x.assignName n.length).extendedType m).iter q ∧
      ((x.assignName n.length).extendedType m).iter + q.length = x.iter + (n ++ w).length ∧ q.length ≤ w.length := by
  have hspell := operator_spells hop
  have hw := h.drop
  rw [assignName_eq h, extendedType_eq hw hop]
  rw [← hspell] at hw ⊢
  refine ⟨hw.drop, ?_, (List.sublist_append_right _ _).length_le⟩
  simp only [List.length_append]
  omega

/-- What is expected of a function that splits off the command at the iterator. -/
def Takes (x : Split) (r : List Nat) (o : Option Parsed) (res : Split × LeditRslt) : Prop :=
  match o with
  | none => res.2 = .fail
  | some y => res.2 = .cmpl ∧ Took x r y res.1

private theorem length_copied (q : List Nat) :
    (copied q).length = (untilSemicolon q).length + if q.isEmpty then 1 else 0 := by
  unfold copied
  cases q <;> rfl

private theorem getD_copied (q : List Nat) (s : Option (List Nat)) (hs : s = some (untilSemicolon q)) :
    (if q.isEmpty then some [0] else s) = some (copied q) := by
  subst hs
  unfold copied
  cases q <;> rfl

private theorem extended_takes (halpha : isAlpha c = false) (hand : c ≠ 38) (h : x.exec.Text x.iter (c :: r))
    (hn : r.length ≤ maxCmdLen)
    (hend : endsEmpty (c :: r) = true → x.exec (x.iter + (c :: r).length + 1) = 0) :
    Takes x (c :: r) (extendedOf c r) (x.namedCmd true) := by
  have hlen := getNameLen_ext h hn
  unfold extendedOf namedCmd
  dsimp only
  cases hup : isUpper (r.headD 0) with
  | false =>
    rw [hup] at hlen
    rw [hlen]
    rfl
  | true =>
    cases r with
    | nil => cases hup
    | cons u r =>
      rw [List.headD_cons] at hup
      rw [List.headD_cons, List.tail_cons, hup] at hlen
      rw [List.headD_cons, List.tail_cons, if_pos rfl]
      cases hop : operator (behindName r) with
      | none =>
        rw [hop] at hlen
        rw [hlen]
        rfl
      | some o =>
        obtain ⟨sType, flag, q⟩ := o
        have hempty : endsEmpty (c :: u :: r) = q.isEmpty := by
          unfold endsEmpty
          dsimp only
          rw [halpha, List.headD_cons, List.tail_cons, hup, hop, if_neg nofun, bne_iff_ne.2 hand]
          rfl
        have hspell := operator_spells hop
        have hname : (c :: u :: nameOf r).length = 2 + (nameOf r).length := Nat.add_comm _ 2
        have hsplit : c :: u :: r = (c :: u :: nameOf r) ++ behindName r :=
          congrArg (c :: u :: ·) (name_append_behind r).symm
        rw [hop, Option.isSome_some, Bool.true_and, if_pos rfl, ← hname] at hlen
        have htext := h
        rw [hsplit] at htext
        have hbehind := htext.drop
        rw [hlen, if_pos (by rw [hname]; omega), assignName_eq htext, if_pos rfl, extendedType_eq hbehind hop]
        rw [← hspell] at hbehind
        have hq := hbehind.drop
        have hlength := congrArg List.length hsplit
        rw [List.length_append, ← hspell, List.length_append] at hlength
        rw [List.length_cons] at hn
        rw [if_pos rfl, assignParam_ext hq (by simp only [List.length_cons] at hlength; omega) ?_]
        · refine ⟨rfl, ⟨?_, ?_, fun _ => rfl, fun _ _ => rfl, rfl⟩⟩
          · unfold handedOut AtCmd.restoredBy
            rw [hempty]
            dsimp only
            rw [getD_copied q _ rfl]
            rfl
          · rw [hempty]
            unfold AtCmd.spelling
            dsimp only
            rw [if_neg nofun, List.nil_append, Option.getD_some, Option.getD_some, length_copied]
            simp only [List.length_append]
            omega
        · intro hnil
          subst hnil
          have hzero := hend hempty
          rw [hlength, List.length_nil, Nat.add_zero, ← Nat.add_assoc] at hzero
          exact hzero

private theorem s_takes (h : x.exec.Text x.iter (83 :: r)) (hn : r.length ≤ maxCmdLen) :
    Takes x (83 :: r) (sOf r) (x.namedCmd false) := by
  have hlen := getNameLen_s h hn
  unfold sOf namedCmd
  dsimp only
  cases hok : nameOk false 1 (nameOf r) with
  | false =>
    rw [hok] at hlen
    rw [hlen]
    rfl
  | true =>
    rw [hok] at hlen
    rw [if_pos rfl]
    cases hop : operator (behindName r) with
    | none =>
      rw [hop] at hlen
      rw [hlen]
      rfl
    | some o =>
      obtain ⟨sType, flag, q⟩ := o
      have hspell := operator_spells hop
      have hname : (83 :: nameOf r).length = 1 + (nameOf r).length := Nat.add_comm _ 1
      have hsplit : 83 :: r = (83 :: nameOf r) ++ behindName r := congrArg (83 :: ·) (name_append_behind r).symm
      rw [hop, Option.isSome_some, Bool.true_and, if_pos rfl, ← hname] at hlen
      have htext := h
      rw [hsplit] at htext
      have hbehind := htext.drop
      rw [hlen, if_pos (by rw [hname]; omega), assignName_eq htext, if_neg nofun, extendedType_eq hbehind hop]
      rw [← hspell] at hbehind
      have hq := hbehind.drop
      have hlength := congrArg List.length hsplit
      rw [List.length_append, ← hspell, List.length_append] at hlength
      rw [if_neg nofun, assignParam_basic hq (by simp only [List.length_cons] at hlength; omega)]
      refine ⟨rfl, ⟨rfl, ?_, fun _ => rfl, fun _ _ => rfl, rfl⟩⟩
      have hempty : endsEmpty (83 :: r) = false := rfl
      rw [hempty, if_neg nofun]
      unfold AtCmd.spelling
      dsimp only
      rw [if_neg nofun, List.nil_append, Option.getD_some, Option.getD_some, List.append_nil]
      simp only [List.length_append]
      omega

private theorem dial_takes (h : x.exec.Text x.iter (68 :: r)) (hn : r.length ≤ maxCmdLen)
    (hend : endsEmpty (68 :: r) = true → x.exec (x.iter + (68 :: r).length + 1) = 0) :
    Takes x (68 :: r) (dialOf r) x.dial := by
  have hname : (x.setType .dial .set false).assignName 1 =
      { x with cmd := ⟨.dial, .set, false, some [68], x.cmd.params⟩, iter := x.iter + 1 } :=
    assignName_eq (x := x.setType .dial .set false) (n := [68]) (q := r) h
  have hend' : r = [] → x.exec (x.iter + 1 + 1) = 0 := fun hr => by
    subst hr
    exact hend rfl
  have hempty : endsEmpty (68 :: r) = r.isEmpty := rfl
  unfold dial dialOf
  rw [hname, assignParam_dial h.2.2 hn hend']
  obtain ⟨-, -, htext⟩ := copied_text h.2.2 hn hend'
  rw [← take_tail (fromSemicolon r)] at htext
  have hnext : restoreDialString x.exec (x.iter + 1) (copied r ++ (fromSemicolon r).take 1).length x.orig
      (x.iter + 1 + (copied r ++ (fromSemicolon r).take 1).length) = (fromSemicolon r).tail.headD 0 := by
    rw [restoreDialString_other (Or.inr le_rfl), List.length_append, ← Nat.add_assoc]
    exact htext.drop.first
  dsimp only
  by_cases htail : (fromSemicolon r).tail = []
  · have htake : (fromSemicolon r).take 1 = fromSemicolon r := by
      conv => rhs; rw [← take_tail (fromSemicolon r), htail, List.append_nil]
    have hparams : (if endsEmpty (68 :: r) then some [0] else some (untilSemicolon r ++ fromSemicolon r)) =
        some (copied r ++ fromSemicolon r) := by
      unfold copied
      cases r <;> rfl
    rw [if_pos htail, if_neg (by rw [hnext, htail]; decide), htake]
    refine ⟨rfl, ⟨?_, ?_, nofun, fun j hj => restoreDialString_other (Or.inr hj), rfl⟩⟩
    · unfold handedOut AtCmd.restoredBy
      dsimp only
      rw [hparams]
      rfl
    · rw [hempty]
      unfold AtCmd.spelling
      dsimp only
      rw [if_neg nofun, List.nil_append, Option.getD_some, Option.getD_some, List.append_nil]
      simp only [List.length_append, length_copied, List.length_singleton, show operatorText .set false = [] from rfl,
        List.length_nil]
      omega
  · obtain ⟨d, l, hdl⟩ := List.exists_cons_of_ne_nil htail
    rw [if_neg htail, if_pos]
    · rfl
    · rw [hnext, hdl]
      rw [hdl] at htext
      exact htext.drop.2.1

private theorem and_takes (h : x.exec.Text x.iter (38 :: r)) (hn : r.length ≤ maxCmdLen) :
    Takes x (38 :: r) (andOf r) x.andBasicCmd := by
  unfold andBasicCmd
  dsimp only
  cases r with
  | nil =>
    rw [show x.exec (x.iter + 1) = 0 from h.2.2]
    rfl
  | cons c r =>
    rw [h.2.2.1]
    unfold andOf
    dsimp only
    cases hc : checkValidAndCmd c with
    | false => rfl
    | true =>
      rw [if_pos rfl, if_pos rfl,
        letter_took (x := { x with iter := x.iter + 1 }) h.2.2 (Nat.le_of_succ_le hn)]
      refine ⟨rfl, ⟨rfl, ?_, fun _ => rfl, fun _ _ => rfl, rfl⟩⟩
      have hempty : endsEmpty (38 :: c :: r) = false := rfl
      rw [hempty]
      unfold basicOf AtCmd.spelling
      dsimp only
      rw [if_pos rfl, Option.getD_some, Option.getD_some, if_neg nofun, List.append_nil]
      simp only [List.length_append, List.length_singleton, show operatorText .query false = [] from rfl, List.length_nil]
      omega

/-- The command at the iterator is that of the grammar. -/
theorem oneCmd_takes (h : x.exec.Text x.iter (c :: r)) (hn : r.length ≤ maxCmdLen)
    (hend : endsEmpty (c :: r) = true → x.exec (x.iter + (c :: r).length + 1) = 0) :
    Takes x (c :: r) (oneOf c r) x.oneCmd := by
  have hone : x.oneCmd = if isAlpha c then x.basicCmd else if c = 38 then x.andBasicCmd else x.namedCmd true := by
    rw [← h.1]
    rfl
  unfold oneOf
  rw [hone]
  cases halpha : isAlpha c with
  | false =>
    simp only [Bool.false_eq_true, if_false]
    by_cases hand : c = 38
    · subst hand
      rw [if_pos rfl, if_pos rfl]
      exact and_takes h hn
    · rw [if_neg hand, if_neg hand]
      exact extended_takes halpha hand h hn hend
  | true =>
    rw [if_pos rfl, if_pos rfl]
    unfold basicCmd
    rw [h.1]
    cases hc : checkValidBasicCmd c with
    | noSupp => rfl
    | support =>
      dsimp only
      rw [letter_took h hn]
      have hempty : endsEmpty (c :: r) = false := by
        unfold endsEmpty
        dsimp only
        rw [halpha, if_pos rfl]
        have h68 : c ≠ 68 := by
          rintro rfl
          cases hc
        rw [beq_eq_false_iff_ne.2 h68]
        rfl
      refine ⟨rfl, ⟨?_, ?_, fun _ => rfl, fun _ _ => rfl, rfl⟩⟩
      · unfold handedOut AtCmd.restoredBy
        rw [hempty]
        rfl
      · rw [hempty]
        unfold basicOf AtCmd.spelling
        dsimp only
        rw [if_neg nofun, Option.getD_some, Option.getD_some, if_neg nofun, List.append_nil]
        simp only [List.length_append, List.length_singleton, show operatorText .set false = [] from rfl, List.length_nil]
        omega
    | dial =>
      obtain rfl := basicCmd_dial hc
      exact dial_takes h hn hend
    | sParam =>
      obtain rfl := basicCmd_s hc
      exact s_takes h hn

/-- After a command of this look-ahead class the line goes on. -/
private def continues : CharType → Bool
  | .percent | .and | .plus | .char | .ext => true
  | _ => false

private theorem continues_lookAhead (hc : c ≠ 0) : continues (lookAhead c) = opens c := by
  unfold lookAhead
  rw [if_neg hc]
  by_cases hsign : c ∈ [37, 38, 43, 44, 61, 59, 63]
  · simp only [List.mem_cons, List.not_mem_nil, or_false] at hsign
    rcases hsign with rfl | rfl | rfl | rfl | rfl | rfl | rfl <;> rfl
  · simp only [List.mem_cons, List.not_mem_nil, or_false, not_or] at hsign
    obtain ⟨h37, h38, h43, h44, h61, h59, h63⟩ := hsign
    rw [if_neg h37, if_neg h38, if_neg h43, if_neg h44, if_neg h61, if_neg h59, if_neg h63]
    have hop : isOperator c = false := by
      unfold isOperator
      rw [beq_eq_false_iff_ne.2 h59, beq_eq_false_iff_ne.2 h61, beq_eq_false_iff_ne.2 h63]
      rfl
    unfold opens
    rw [hop, bne_iff_ne.2 h44]
    cases hd : isDigit c with
    | true =>
      rw [if_pos rfl, Bool.not_true, Bool.and_false, Bool.false_and]
      rfl
    | false =>
      rw [if_neg nofun, Bool.not_false, Bool.and_true, Bool.and_true, Bool.and_true]
      by_cases hup : isUpper c = true
      · rw [if_pos hup]
        have hrange : 33 ≤ c ∧ c ≤ 95 := by
          unfold isUpper at hup
          simp only [Bool.and_eq_true, decide_eq_true_eq] at hup
          omega
        rw [decide_eq_true hrange]
        rfl
      · rw [if_neg hup, ← Bool.decide_or]
        split_ifs with hext
        · exact (decide_eq_true hext).symm
        · exact (decide_eq_false hext).symm

private theorem split_eq (x : Split) :
    x.split =
      let y := { x with cmd := .empty }.oneCmd
      if y.2 = .fail then (y.1, .fail)
      else if continues (lookAhead (y.1.exec y.1.iter)) then
        ({ y.1 with cmdIndex := (y.1.cmdIndex + 1) % 256 }, .cmpl)
      else if lookAhead (y.1.exec y.1.iter) = .terminated then (y.1, .cmpl)
      else (y.1, .fail) := by
  unfold split
  generalize ({ x with cmd := .empty } : Split).oneCmd = y
  obtain ⟨z, rslt⟩ := y
  dsimp only
  by_cases hfail : rslt = .fail
  · rw [if_pos hfail, if_pos hfail]
  · rw [if_neg hfail, if_neg hfail]
    cases lookAhead (z.exec z.iter) <;> rfl

/-- A command whose parameter begins at the end of the line has an empty one, and there is nothing behind it. -/
private theorem endsEmpty_one (he : endsEmpty (c :: r) = true) :
    ∃ y, oneOf c r = some y ∧ y.cmd.params = some [] ∧ y.rest = [] := by
  unfold endsEmpty at he
  dsimp only at he
  cases halpha : isAlpha c with
  | true =>
    rw [halpha, if_pos rfl, Bool.and_eq_true, beq_iff_eq, List.isEmpty_iff] at he
    obtain ⟨rfl, rfl⟩ := he
    exact ⟨_, rfl, rfl, rfl⟩
  | false =>
    rw [halpha, if_neg nofun, Bool.and_eq_true, Bool.and_eq_true] at he
    obtain ⟨⟨hand, hup⟩, hany⟩ := he
    unfold oneOf extendedOf
    rw [halpha, if_neg nofun, if_neg (bne_iff_ne.1 hand), if_pos hup]
    cases hop : operator (behindName r.tail) with
    | none =>
      rw [hop] at hany
      cases hany
    | some o =>
      obtain ⟨sType, flag, q⟩ := o
      rw [hop, Option.any_some, List.isEmpty_iff] at hany
      obtain rfl : q = [] := hany
      exact ⟨_, rfl, rfl, rfl⟩

/-- Behind a command whose parameter begins at the end of the line there is nothing. -/
theorem endsEmpty_rest (h : oneOf c r = some y) (hempty : endsEmpty (c :: r) = true) : y.rest = [] := by
  obtain ⟨z, hz, -, hrest⟩ := endsEmpty_one hempty
  obtain rfl : y = z := Option.some.inj (h.symm.trans hz)
  exact hrest

/-- The command of a text that ends with a command without a parameter. -/
theorem endsEmpty_command (he : endsEmpty r = true) :
    ∃ y, commandOf r = some y ∧ y.cmd.params = some [] ∧ y.rest = [] := by
  cases r with
  | nil => cases he
  | cons c r =>
    obtain ⟨y, hy, hparams, hrest⟩ := endsEmpty_one he
    exact ⟨y, Option.filter_eq_some_iff.2 ⟨hy, by rw [hrest]; rfl⟩, hparams, hrest⟩

/-- What follows the command is the text at the iterator. -/
theorem Took.text {z : Split} (htook : Took x r y z) (h : x.exec.Text x.iter r)
    (hspell : y.cmd.spelling ++ y.sep ++ y.rest = r)
    (hempty : endsEmpty r = true → y.rest = [] ∧ x.exec (x.iter + r.length + 1) = 0) : z.exec.Text z.iter y.rest := by
  have hiter := htook.iter
  have hlen := congrArg List.length hspell
  rw [List.length_append] at hlen
  cases he : endsEmpty r with
  | true =>
    obtain ⟨hrest, hzero⟩ := hempty he
    rw [he, if_pos rfl] at hiter
    rw [hrest, List.length_nil, Nat.add_zero] at hlen
    rw [hrest]
    change z.exec z.iter = 0
    rw [htook.behind _ le_rfl, hiter, hlen]
    exact hzero
  | false =>
    rw [he, if_neg nofun, Nat.add_zero] at hiter
    rw [← hspell] at h
    rw [hiter]
    exact h.drop.congr fun k hk _ => htook.behind k (hiter ▸ hk)

/-- `ledit_split` takes the command of the grammar off the line. -/
theorem split_takes (h : x.exec.Text x.iter r) (hr : r ≠ []) (hn : r.length ≤ maxCmdLen)
    (hend : endsEmpty r = true → x.exec (x.iter + r.length + 1) = 0) : Takes x r (commandOf r) x.split := by
  obtain ⟨c, r, rfl⟩ := List.exists_cons_of_ne_nil hr
  have hone := oneCmd_takes (x := { x with cmd := .empty }) h (Nat.le_of_succ_le hn) hend
  unfold commandOf
  dsimp only
  rw [split_eq]
  generalize ({ x with cmd := .empty } : Split).oneCmd = z at hone
  obtain ⟨z, rslt⟩ := z
  cases hc : oneOf c r with
  | none =>
    rw [hc] at hone
    have hfail : rslt = .fail := hone
    dsimp only
    rw [if_pos hfail]
    rfl
  | some y =>
    rw [hc] at hone
    obtain ⟨hcmpl, htook⟩ := hone
    have htook' : Took x (c :: r) y z := ⟨htook.cmd, htook.iter, htook.exec, htook.behind, htook.orig⟩
    have hfail : ¬rslt = .fail := by
      rw [show rslt = .cmpl from hcmpl]
      nofun
    have hnext := htook'.text h (oneOf_spells hc) fun he => ⟨endsEmpty_rest hc he, hend he⟩
    dsimp only
    rw [if_neg hfail, hnext.first]
    cases hrest : y.rest with
    | nil =>
      rw [List.headD_nil, if_neg (by decide), if_pos (by decide), Option.filter_some, hrest]
      exact ⟨rfl, htook'⟩
    | cons d q =>
      rw [hrest] at hnext
      rw [List.headD_cons, continues_lookAhead hnext.2.1, Option.filter_some, hrest]
      have hgo : goesOn (d :: q) = opens d := rfl
      rw [hgo]
      have hterm : lookAhead d ≠ .terminated := by
        intro ht
        unfold lookAhead at ht
        rw [if_neg hnext.2.1] at ht
        iterate 10 replace ht := else_of_ne ht nofun
        cases ht
      cases hopens : opens d with
      | true => exact ⟨rfl, ⟨htook'.cmd, htook'.iter, htook'.exec, htook'.behind, htook'.orig⟩⟩
      | false =>
        rw [if_neg nofun, if_neg hterm]
        rfl

/-! ### Characters behind the line -/

private theorem slice_left {w : List Nat} (hi : b i = 0) (hw : b.Text (i + 1) w) : b.slice i (w.length + 1) = 0 :: w := by
  rw [← List.append_nil w] at hw
  rw [slice_cons, hi, hw.slice]

private theorem assignParam_left {w : List Nat} (hi : x.exec x.iter = 0) (hw : x.exec.Text (x.iter + 1) w)
    (hsemi : 59 ∉ w) (hlen : w.length ≤ maxCmdLen) :
    x.assignParam .ext =
      { x with cmd := { x.cmd with params := some (0 :: w) }, iter := x.iter + (w.length + 1) } := by
  have hpara : getParaLen x.exec x.iter .ext = w.length + 1 := by
    unfold getParaLen
    dsimp only
    rw [paramEnd_left hi hw hsemi hlen]
    omega
  have hlast : x.exec (x.iter + (w.length + 1)) = 0 := by
    rw [Nat.add_comm w.length 1, ← Nat.add_assoc]
    exact hw.ended
  unfold assignParam
  simp only [hpara, slice_left hi hw, reduceCtorEq, if_false, true_and, hlast, ne_eq, not_true]

/-- A command without a parameter at the end of a line, behind which there are characters. -/
structure Left (y : Parsed) (res : Split × LeditRslt) : Prop where
  cmpl : res.2 = .cmpl
  shown : res.1.cmd.shown = y.cmd.shown
  ended : res.1.exec res.1.iter = 0

private theorem dial_left {w : List Nat} (h : x.exec.Text x.iter [68]) (hw : x.exec.Text (x.iter + 2) w) (hsemi : 59 ∉ w)
    (hlen : w.length ≤ maxCmdLen) : Left ⟨⟨.dial, .set, false, some [68], some []⟩, [], []⟩ x.dial := by
  have hi : x.exec (x.iter + 1) = 0 := h.2.2
  have hname : (x.setType .dial .set false).assignName 1 =
      { x with cmd := ⟨.dial, .set, false, some [68], x.cmd.params⟩, iter := x.iter + 1 } :=
    assignName_eq (x := x.setType .dial .set false) (n := [68]) (q := []) h
  have hpara : getParaLen x.exec (x.iter + 1) .dial = w.length + 1 := by
    have hlast : x.exec (x.iter + 1 + 1 + w.length) = 0 := hw.ended
    unfold getParaLen
    dsimp only
    rw [paramEnd_left hi hw hsemi hlen, hlast, if_neg nofun]
    omega
  have hend : x.exec (x.iter + 1 + (w.length + 1)) = 0 := by
    rw [Nat.add_comm w.length 1, ← Nat.add_assoc]
    exact hw.ended
  have hshown : (restored x.orig (0 :: w)).takeWhile (· ≠ 0) = [] := by
    have hsame : SameLetters (0 :: w) (restored x.orig (0 :: w)) := restored_same
    generalize restored x.orig (0 :: w) = d at hsame
    cases hsame with
    | cons hc _ =>
      rcases hc with rfl | ⟨hm, -⟩
      · rfl
      · cases hm
  have hassign : ((x.setType .dial .set false).assignName 1).assignParam .dial =
      { x with
        exec := restoreDialString x.exec (x.iter + 1) (w.length + 1) x.orig
        cmd := ⟨.dial, .set, false, some [68], some (restored x.orig (0 :: w))⟩
        iter := x.iter + 1 + (w.length + 1) } := by
    rw [hname]
    unfold assignParam
    simp only [hpara, if_true, reduceCtorEq, false_and, if_false, restoreDialString_slice, slice_left hi hw]
  have hzero : restoreDialString x.exec (x.iter + 1) (w.length + 1) x.orig (x.iter + 1 + (w.length + 1)) = 0 := by
    rw [restoreDialString_other (Or.inr le_rfl)]
    exact hend
  unfold dial
  rw [hassign]
  dsimp only
  rw [if_neg (not_not.2 hzero)]
  refine ⟨rfl, ?_, hzero⟩
  unfold AtCmd.shown
  dsimp only
  rw [Option.map_some, hshown]
  rfl

private theorem extended_left {w : List Nat} {o : SubType × Bool × List Nat} (h : x.exec.Text x.iter (c :: r))
    (hn : r.length ≤ maxCmdLen) (hup : isUpper (r.headD 0) = true) (hop : operator (behindName r.tail) = some o)
    (ho : o.2.2 = []) (hw : x.exec.Text (x.iter + (c :: r).length + 1) w) (hsemi : 59 ∉ w) (hlen : w.length ≤ maxCmdLen)
    (hy : extendedOf c r = some y) : Left y (x.namedCmd true) := by
  have hname := getNameLen_ext h hn
  cases r with
  | nil => cases hup
  | cons u r =>
    obtain ⟨sType, flag, q⟩ := o
    obtain rfl : q = [] := ho
    rw [List.tail_cons] at hop
    unfold extendedOf at hy
    rw [if_pos hup, List.headD_cons, List.tail_cons, hop, Option.map_some] at hy
    cases hy
    rw [List.headD_cons, List.tail_cons, show isUpper u = true from hup, hop, Option.isSome_some, Bool.true_and,
      if_pos rfl, Nat.add_comm] at hname
    have hsplit : c :: u :: r = (c :: u :: nameOf r) ++ behindName r :=
      congrArg (c :: u :: ·) (name_append_behind r).symm
    have hspell := operator_spells hop
    rw [List.append_nil] at hspell
    have htext := h
    rw [hsplit] at htext hw
    have hbehind := htext.drop
    rw [List.length_append, ← Nat.add_assoc] at hw
    rw [← hspell] at hw
    have hend : x.exec (x.iter + (c :: u :: nameOf r).length + (operatorText sType flag).length) = 0 := by
      have hzero := hbehind.ended
      rw [← hspell] at hzero
      exact hzero
    unfold namedCmd
    dsimp only
    rw [hname, if_pos (Nat.succ_ne_zero _), show (nameOf r).length + 2 = (c :: u :: nameOf r).length from rfl,
      assignName_eq htext, if_pos rfl, extendedType_eq hbehind hop, if_pos rfl, assignParam_left hend hw hsemi hlen]
    refine ⟨rfl, rfl, ?_⟩
    dsimp only
    have hlast := hw.ended
    rw [Nat.add_assoc _ 1, Nat.add_comm 1] at hlast
    exact hlast

/-- A command without a parameter at the end of the line is split off as a string, though there are characters behind
the line, if none of them is a semicolon. -/
theorem split_left {w : List Nat} (h : x.exec.Text x.iter r) (hn : r.length ≤ maxCmdLen) (hy : commandOf r = some y)
    (he : endsEmpty r = true) (hw : x.exec.Text (x.iter + r.length + 1) w) (hsemi : 59 ∉ w)
    (hlen : w.length ≤ maxCmdLen) : Left y x.split := by
  cases r with
  | nil => cases hy
  | cons c r =>
    have hone := (Option.filter_eq_some_iff.1 hy).1
    suffices hleft : Left y ({ x with cmd := .empty } : Split).oneCmd by
      obtain ⟨hcmpl, hshown, hended⟩ := hleft
      rw [split_eq]
      dsimp only
      rw [hcmpl, if_neg nofun, hended, if_neg (show ¬continues (lookAhead 0) = true by decide), if_pos (by decide)]
      exact ⟨rfl, hshown, hended⟩
    unfold endsEmpty at he
    unfold oneOf at hone
    dsimp only at he
    cases halpha : isAlpha c with
    | true =>
      rw [halpha, if_pos rfl, Bool.and_eq_true, beq_iff_eq, List.isEmpty_iff] at he
      obtain ⟨rfl, rfl⟩ := he
      cases hone
      have hdial : ({ x with cmd := .empty } : Split).oneCmd = ({ x with cmd := .empty } : Split).dial := by
        unfold oneCmd basicCmd
        dsimp only
        rw [h.1]
        rfl
      rw [hdial]
      exact dial_left h hw hsemi hlen
    | false =>
      rw [halpha, if_neg nofun, Bool.and_eq_true, Bool.and_eq_true] at he
      obtain ⟨⟨hand, hup⟩, hany⟩ := he
      rw [halpha, if_neg nofun, if_neg (bne_iff_ne.1 hand)] at hone
      have hnamed : ({ x with cmd := .empty } : Split).oneCmd = ({ x with cmd := .empty } : Split).namedCmd true := by
        unfold oneCmd
        dsimp only
        rw [h.1, halpha, if_neg nofun, if_neg (bne_iff_ne.1 hand)]
      rw [hnamed]
      cases hop : operator (behindName r.tail) with
      | none =>
        rw [hop] at hany
        cases hany
      | some o =>
        rw [hop, Option.any_some, List.isEmpty_iff] at hany
        exact extended_left (x := { x with cmd := .empty }) h (Nat.le_of_succ_le hn) hup hop hany hw hsemi hlen hone

end Split

end Citrine.Aci
