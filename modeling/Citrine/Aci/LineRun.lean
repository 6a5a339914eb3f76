import Citrine.Aci.LineCommands
import Mathlib.Logic.Function.Iterate

/-!
# Splitting a whole command line

`ledit_run_cmd` splits the first command off a line, each `ledit_get_next` one more, until a call fails.  What a call reads
of `execBuffer` is told by the highest index (`Split.lastRead`), and the row of `basic_ATcmd` by the letter it is looked up
with (`Split.rowLetter`).  The calls stay inside of both, hand out the commands of the grammar and fail at the first
ill-formed one exactly when no command of the line strays (`line_split_iff`).
-/

namespace Citrine.Aci

/-! ### What a call reads -/

/-- The highest index that the loop over a name reads. -/
def nameLast (b : Buf) (iter : Nat) (ext : Bool) : Nat → Nat → Nat
  | 0, i => i
  | n + 1, i =>
    if b i = 0 then i
    else if !ext && decide (i > iter) && (!isDigit (b i) || decide (i - iter > maxSNameLen)) then i
    else
      let i := i + 1
      if b i = 0 then i
      else if b i = 61 then if b (i + 1) ≠ 63 then i + 1 else i + 2
      else if b i = 63 then i + 1
      else if b i = 59 then i
      else nameLast b iter ext n i

/-- The highest index that `ledit_get_name_len` reads. -/
def getNameLast (b : Buf) (iter : Nat) (ext : Bool) : Nat :=
  let i := if ext then iter + 1 else iter
  if isUpper (b i) then nameLast b iter ext (maxCmdLen + 1) i else i

/-- The highest index that `ledit_get_para_len` reads. -/
def paraLast (b : Buf) (iter : Nat) : ParamType → Nat
  | .basic => digitsEnd b (maxCmdLen + 1) iter
  | .dial | .ext => paramEnd b (maxCmdLen + 1) iter

namespace Split
variable (x : Split)

/-- The highest index that `ledit_extended_cmd` or `ledit_s_cmd` reads. -/
def namedLast (ext : Bool) : Nat :=
  let len := getNameLen x.exec x.iter ext
  if len ≠ 0 then
    let z := (x.assignName len).extendedType (if ext then .extended else .s)
    max (getNameLast x.exec x.iter ext) (paraLast x.exec z.iter (if ext then .ext else .basic))
  else getNameLast x.exec x.iter ext

/-- The highest index that the function for the command at the iterator reads. -/
def commandLast : Nat :=
  let c := x.exec x.iter
  if isAlpha c then
    match checkValidBasicCmd c with
    | .support => paraLast x.exec (x.iter + 1) .basic
    -- `ledit_dial` reads the character behind the parameter
    | .dial => max (paraLast x.exec (x.iter + 1) .dial) (x.iter + 1 + getParaLen x.exec (x.iter + 1) .dial)
    | .sParam => x.namedLast false
    | .noSupp => x.iter
  else if c = 38 then
    if checkValidAndCmd (x.exec (x.iter + 1)) then paraLast x.exec (x.iter + 2) .basic else x.iter + 1
  else x.namedLast true

/-- The highest index that `ledit_split` reads. -/
def lastRead : Nat :=
  let y := { x with cmd := .empty }.oneCmd
  if y.2 = .fail then x.commandLast else max x.commandLast y.1.iter

/-- The letter that a row of `basic_ATcmd` is looked up with. -/
def rowLetter : Option Nat :=
  let c := x.exec x.iter
  if isAlpha c then some c else if c = 38 then some (x.exec (x.iter + 1)) else none

/-- `ledit_split` reads up to an index of the line, and looks up rows of the table. -/
structure ReadsInside (last : Nat) : Prop where
  buffer : x.lastRead ≤ last
  table : ∀ c ∈ x.rowLetter, isUpper c = true

end Split

/-- A command that is looked up outside of the table: a letter that is no capital, or `&` with none behind it. -/
def offTable : List Nat → Bool
  | [] => false
  | c :: r => isLower c || c == 38 && !isUpper (r.headD 0)

/-- A command for which `ledit_split` reads outside of the line or of the table. -/
def strays (r : List Nat) : Bool := offTable r || endsEmpty r

section
variable {b : Buf} {i c n u : Nat} {q r : List Nat}

private theorem nameLast_le {k : Nat} {e : Bool} (h : b.Text i (u :: r)) :
    nameLast b k e n i ≤ i + (u :: r).length := by
  induction n generalizing i u r with
  | zero => exact Nat.le_add_right _ _
  | succ n ih =>
    rw [List.length_cons]
    cases r with
    | nil =>
      have hend : b (i + 1) = 0 := h.2.2
      unfold nameLast
      dsimp only
      rw [if_pos hend]
      split_ifs <;> omega
    | cons c r =>
      have hnext : b (i + 1 + 1) = 63 → 1 ≤ r.length := fun h63 => by
        refine List.length_pos_iff.2 (mt h.2.2.2.2.first_eq_zero_iff.2 ?_)
        rw [h63]
        decide
      have hrec := ih h.2.2
      rw [List.length_cons] at hrec ⊢
      unfold nameLast
      dsimp only
      split_ifs with h1 h2 h3 h4 h5 h6 h7
      · omega
      · omega
      · omega
      · omega
      · have := hnext (not_not.1 h5)
        omega
      · omega
      · omega
      · omega

private theorem getNameLast_le {e : Bool} (h : b.Text i (u :: r)) : getNameLast b i e ≤ i + (u :: r).length := by
  unfold getNameLast
  dsimp only
  rw [List.length_cons]
  cases e with
  | false =>
    simp only [Bool.false_eq_true, if_false]
    split_ifs
    · exact nameLast_le h
    · omega
  | true =>
    rw [if_pos rfl]
    split_ifs with hup
    · cases r with
      | nil =>
        rw [show b (i + 1) = 0 from h.2.2] at hup
        cases hup
      | cons v r =>
        have := nameLast_le (k := i) (e := true) (n := maxCmdLen + 1) h.2.2
        rw [List.length_cons] at this ⊢
        omega
    · omega

private theorem basicLast_le (h : b.Text i q) (hn : q.length ≤ maxCmdLen) : paraLast b i .basic ≤ i + q.length := by
  unfold paraLast
  dsimp only
  rw [digitsEnd_text h (Nat.le_succ_of_le hn)]
  exact Nat.add_le_add_left (List.takeWhile_sublist _).length_le i

private theorem extLast_le (h : b.Text i q) (hq : q ≠ []) (hn : q.length ≤ maxCmdLen) : paraLast b i .ext ≤ i + q.length := by
  unfold paraLast
  dsimp only
  rw [paramEnd_text h hq (Nat.le_succ_of_le hn)]
  exact Nat.add_le_add_left (List.takeWhile_sublist _).length_le i

/-- The parameter of an extended or a dial command that begins at the end of the line is read beyond it. -/
private theorem lt_extLast (h : b.Text i []) : i < paraLast b i .ext := lt_paramEnd h

end

namespace Split
variable {x : Split} {c : Nat} {r : List Nat}

private theorem length_behindName (r : List Nat) : (behindName r).length ≤ r.length := (List.dropWhile_sublist _).length_le

private theorem s_inside (h : x.exec.Text x.iter (83 :: r)) (hn : r.length ≤ maxCmdLen) :
    x.namedLast false ≤ x.iter + (83 :: r).length := by
  have hname := getNameLast_le (e := false) h
  have hlen := getNameLen_s h hn
  unfold namedLast
  dsimp only
  by_cases hok : (nameOk false 1 (nameOf r) && (operator (behindName r)).isSome) = true
  · rw [if_pos hok, Nat.add_comm] at hlen
    obtain ⟨⟨sType, flag, q⟩, hop⟩ := Option.isSome_iff_exists.1 (Bool.and_eq_true_iff.1 hok).2
    have hsplit : 83 :: r = (83 :: nameOf r) ++ behindName r := congrArg (83 :: ·) (name_append_behind r).symm
    have htext := h
    rw [hsplit] at htext
    obtain ⟨hq, hend, hle⟩ := named_operator (m := .s) htext hop
    rw [← hsplit] at hend
    rw [hlen, if_pos (Nat.succ_ne_zero _)]
    exact max_le hname ((basicLast_le hq (hle.trans ((length_behindName r).trans hn))).trans hend.le)
  · rw [if_neg hok] at hlen
    rw [hlen, if_neg (not_not.2 rfl)]
    exact hname

private theorem extended_inside (h : x.exec.Text x.iter (c :: r)) (hn : r.length ≤ maxCmdLen) :
    x.namedLast true ≤ x.iter + (c :: r).length ↔
      ¬(isUpper (r.headD 0) && (operator (behindName r.tail)).any (·.2.2.isEmpty)) = true := by
  have hname := getNameLast_le (e := true) h
  have hlen := getNameLen_ext h hn
  unfold namedLast
  dsimp only
  by_cases hok : (isUpper (r.headD 0) && (operator (behindName r.tail)).isSome) = true
  · obtain ⟨hup, hsome⟩ := Bool.and_eq_true_iff.1 hok
    rw [if_pos hok, Nat.add_comm] at hlen
    cases r with
    | nil => cases hup
    | cons u r =>
      obtain ⟨⟨sType, flag, q⟩, hop⟩ := Option.isSome_iff_exists.1 hsome
      rw [List.headD_cons, List.tail_cons] at *
      have hsplit : c :: u :: r = (c :: u :: nameOf r) ++ behindName r :=
        congrArg (c :: u :: ·) (name_append_behind r).symm
      have htext := h
      rw [hsplit] at htext
      obtain ⟨hq, hend, hle⟩ := named_operator (m := .extended) htext hop
      rw [← hsplit] at hend
      rw [hlen, if_pos (Nat.succ_ne_zero _), hup, hop]
      by_cases hnil : q = []
      · subst hnil
        refine iff_of_false (fun hmax => ?_) (not_not.2 rfl)
        have hlt := lt_extLast hq
        exact absurd ((le_max_right _ _).trans hmax) (by rw [← hend]; exact Nat.not_le.2 hlt)
      · have hqn : q.length ≤ maxCmdLen := hle.trans ((length_behindName r).trans (Nat.le_of_succ_le hn))
        refine iff_of_true (max_le hname ((extLast_le hq hnil hqn).trans hend.le)) ?_
        rw [Bool.true_and, Option.any_some, List.isEmpty_iff]
        exact hnil
  · rw [if_neg hok] at hlen
    rw [hlen, if_neg (not_not.2 rfl)]
    refine iff_of_true hname fun hany => hok ?_
    rw [Bool.and_eq_true] at hany ⊢
    refine ⟨hany.1, ?_⟩
    cases hop : operator (behindName r.tail) with
    | none =>
      rw [hop] at hany
      exact absurd hany.2 nofun
    | some o => rfl

private theorem dial_inside (h : x.exec.Text x.iter (68 :: r)) (hn : r.length ≤ maxCmdLen) :
    max (paraLast x.exec (x.iter + 1) .dial) (x.iter + 1 + getParaLen x.exec (x.iter + 1) .dial) ≤
      x.iter + (68 :: r).length ↔ r ≠ [] := by
  rw [List.length_cons]
  by_cases hnil : r = []
  · subst hnil
    refine iff_of_false (fun hmax => ?_) (not_not.2 rfl)
    have hlt : x.iter + 1 < paraLast x.exec (x.iter + 1) .dial := lt_paramEnd h.2.2
    have := (le_max_left _ _).trans hmax
    rw [List.length_nil] at this
    omega
  · refine iff_of_true (max_le ?_ ?_) hnil
    · have := extLast_le h.2.2 hnil hn
      unfold paraLast at this ⊢
      dsimp only at this ⊢
      omega
    · have hle : (copied r ++ (fromSemicolon r).take 1).length ≤ r.length := by
        conv => rhs; rw [← until_append_from r]
        unfold copied
        rw [if_neg hnil, List.length_append, List.length_append]
        exact Nat.add_le_add_left (List.take_sublist _ _).length_le _
      rw [dial_len h.2.2 hn fun hr => absurd hr hnil]
      omega

/-- The function for a command stays inside of the line unless the parameter begins at its end. -/
private theorem commandLast_le (h : x.exec.Text x.iter (c :: r)) (hn : r.length ≤ maxCmdLen) :
    x.commandLast ≤ x.iter + (c :: r).length ↔ endsEmpty (c :: r) = false := by
  unfold commandLast endsEmpty
  dsimp only
  rw [h.1]
  cases halpha : isAlpha c with
  | true =>
    simp only [if_true]
    cases hc : checkValidBasicCmd c with
    | noSupp =>
      have h68 : c ≠ 68 := by
        rintro rfl
        cases hc
      rw [beq_eq_false_iff_ne.2 h68]
      exact iff_of_true (Nat.le_add_right _ _) rfl
    | support =>
      have h68 : c ≠ 68 := by
        rintro rfl
        cases hc
      rw [beq_eq_false_iff_ne.2 h68, List.length_cons]
      have hlast := basicLast_le h.2.2 hn
      exact iff_of_true (by dsimp only; omega) rfl
    | dial =>
      obtain rfl := basicCmd_dial hc
      rw [beq_self_eq_true, Bool.true_and, List.isEmpty_eq_false_iff]
      exact dial_inside h hn
    | sParam =>
      obtain rfl := basicCmd_s hc
      exact iff_of_true (s_inside h hn) rfl
  | false =>
    simp only [Bool.false_eq_true, if_false]
    by_cases hand : c = 38
    · subst hand
      refine iff_of_true ?_ rfl
      rw [if_pos rfl, List.length_cons]
      split_ifs with hcheck
      · cases r with
        | nil =>
          rw [show x.exec (x.iter + 1) = 0 from h.2.2] at hcheck
          cases hcheck
        | cons d r =>
          have hlast : paraLast x.exec (x.iter + 2) .basic ≤ x.iter + 2 + r.length :=
            basicLast_le h.2.2.2.2 (Nat.le_of_succ_le hn)
          rw [List.length_cons]
          omega
      · omega
    · rw [if_neg hand, extended_inside h hn, bne_iff_ne.2 hand, Bool.true_and, Bool.not_eq_true]

private theorem lastRead_le (h : x.exec.Text x.iter (c :: r)) (hn : r.length ≤ maxCmdLen) :
    x.lastRead ≤ x.iter + (c :: r).length ↔ endsEmpty (c :: r) = false := by
  rw [← commandLast_le h hn]
  unfold lastRead
  dsimp only
  split_ifs with hfail
  · rfl
  · refine ⟨(le_max_left _ _).trans, fun hle => max_le hle ?_⟩
    have hempty := (commandLast_le h hn).1 hle
    have hone := oneCmd_takes (x := { x with cmd := .empty }) h hn (by rw [hempty]; nofun)
    cases hc : oneOf c r with
    | none =>
      rw [hc] at hone
      exact absurd hone hfail
    | some y =>
      rw [hc] at hone
      have hiter := hone.2.iter
      have hlen := congrArg List.length (oneOf_spells hc)
      rw [List.length_append] at hlen
      rw [hempty, if_neg nofun] at hiter
      rw [hiter, ← hlen]
      dsimp only
      omega

private theorem upper_or_lower (h : isAlpha c = true) : isUpper c = !isLower c := by
  unfold isAlpha at h
  unfold isUpper isLower at *
  simp only [Bool.or_eq_true, Bool.and_eq_true, decide_eq_true_eq] at h
  rcases h with h | h
  · rw [decide_eq_true h.1, decide_eq_true h.2, decide_eq_false (Nat.not_le.2 (by omega : c < 97))]
    rfl
  · rw [decide_eq_true h.1, decide_eq_true h.2, decide_eq_false (Nat.not_le.2 (by omega : 90 < c)), Bool.and_false]
    rfl

private theorem table_iff (h : x.exec.Text x.iter (c :: r)) :
    (∀ d ∈ x.rowLetter, isUpper d = true) ↔ offTable (c :: r) = false := by
  unfold rowLetter offTable
  dsimp only
  rw [h.1, h.2.2.first]
  cases halpha : isAlpha c with
  | true =>
    have hand : c ≠ 38 := by
      rintro rfl
      cases halpha
    simp only [if_true, Option.mem_some_iff, forall_eq', upper_or_lower halpha, beq_eq_false_iff_ne.2 hand, Bool.false_and,
      Bool.or_false, Bool.not_eq_true']
  | false =>
    have hlower : isLower c = false := (Bool.or_eq_false_iff.1 halpha).2
    rw [hlower, Bool.false_or]
    by_cases hand : c = 38
    · simp [hand]
    · simp [hand]

/-- A call reads inside of the line and of the table exactly when the command does not stray. -/
theorem readsInside_iff (h : x.exec.Text x.iter r) (hr : r ≠ []) (hn : r.length ≤ maxCmdLen) :
    x.ReadsInside (x.iter + r.length) ↔ strays r = false := by
  obtain ⟨c, r, rfl⟩ := List.exists_cons_of_ne_nil hr
  unfold strays
  rw [Bool.or_eq_false_iff, ← table_iff h, ← lastRead_le h (Nat.le_of_succ_le hn)]
  exact ⟨fun hin => ⟨hin.table, hin.buffer⟩, fun hin => ⟨hin.2, hin.1⟩⟩

end Split

/-! ### The calls for one line -/

namespace Ledit
variable (s : Ledit)

/-- What `ledit_split` works on. -/
def splitting : Split := ⟨s.execBuffer.getD zeros, s.execBufIter, s.orig, .empty, s.cmdIndex, s.err⟩

/-- The record that the next `ledit_get_next` splits. -/
def next : Ledit :=
  let t := s.split.1
  { t with cmdGetIter := (t.cmdGetIter + 1) % 256, cmdm := none }

/-- The record that `ledit_run_cmd` splits. -/
def first : Ledit := { s with cmdIndex := 1, cmdGetIter := 1, cmdm := none }

/-- What `ledit_run_cmd` answers, and the calls of `ledit_get_next` after it. -/
def answer (n : Nat) : Ledit × LeditRslt := (next^[n] s.first).split

theorem answer_succ (n : Nat) : s.answer (n + 1) = (s.answer n).1.getNext := by
  unfold answer
  rw [Function.iterate_succ_apply']
  rfl

/-- The split of a record reads inside of the line and of the table. -/
def ReadsInside (last : Nat) : Prop :=
  s.execBufIter ≤ last ∧ (s.execBuffer.getD zeros s.execBufIter ≠ 0 → s.splitting.ReadsInside last)

end Ledit

/-- A text begins with commands, and goes on with the rest. -/
inductive Commands : List Nat → List Parsed → List Nat → Prop
  | nil (r : List Nat) : Commands r [] r
  | cons {r rest : List Nat} {y : Parsed} {ys : List Parsed} (h : commandOf r = some y) (hs : Commands y.rest ys rest) :
      Commands r (y :: ys) rest

/-- The calls for a line end, read inside of it and of the table, and hand out its commands in order; the rest of the line
is empty or begins with an ill-formed command.  A dial command has all up to the first semicolon, and is the last one. -/
def SplitsRightly (s : Ledit) (line : List Nat) : Prop :=
  ∃ (cs : List AtCmd) (ys : List Parsed) (rest : List Nat),
    (∀ k, (hk : k < cs.length) → (s.answer k).2 = .cmpl ∧ (s.answer k).1.cmdm = some cs[k]) ∧
    (s.answer cs.length).2 = .fail ∧
    (∀ k ≤ cs.length, (Ledit.next^[k] s.first).ReadsInside line.length) ∧
    Commands line ys rest ∧ commandOf rest = none ∧ cs = ys.map (·.cmd.restoredBy s.orig) ∧
    SameLetters line ((cs.zipWith (fun c y => c.spelling ++ y.sep) ys).flatten ++ rest) ∧
    ∀ y ∈ ys, y.cmd.mType = .dial → y.rest = [] ∧ ∃ d, y.cmd.params = some d ∧ 59 ∉ d.dropLast

section
variable {r rest : List Nat} {y : Parsed} {ys : List Parsed} {t : Ledit}

private theorem spelling_same (orig : Buf) (cmd : AtCmd) : SameLetters cmd.spelling (cmd.restoredBy orig).spelling := by
  unfold AtCmd.restoredBy AtCmd.spelling
  refine .append (.refl _) ?_
  dsimp only
  split_ifs
  · cases cmd.params with
    | none => exact .refl _
    | some d => exact restored_same
  · exact .refl _

private theorem commands_concat (orig : Buf) (h : Commands r ys rest) :
    SameLetters r
      (((ys.map (·.cmd.restoredBy orig)).zipWith (fun c y => c.spelling ++ y.sep) ys).flatten ++ rest) := by
  induction h with
  | nil r => exact .refl r
  | cons hy _ ih =>
    rw [← commandOf_spells hy, List.append_assoc]
    simp only [List.map_cons, List.zipWith_cons_cons, List.flatten_cons, List.append_assoc]
    exact (spelling_same orig _).append ((SameLetters.refl _).append ih)

private theorem until_dropLast (r : List Nat) (h : (fromSemicolon r).tail = []) :
    59 ∉ (untilSemicolon r ++ fromSemicolon r).dropLast := by
  have huntil : 59 ∉ untilSemicolon r := fun hmem => by simpa using List.mem_takeWhile_imp hmem
  cases hf : fromSemicolon r with
  | nil =>
    rw [List.append_nil]
    exact fun hmem => huntil (List.dropLast_sublist _ |>.subset hmem)
  | cons c l =>
    rw [hf] at h
    obtain rfl : l = [] := h
    rw [List.dropLast_concat]
    exact huntil

private theorem dial_of_oneOf {c : Nat} (h : oneOf c r = some y) (hd : y.cmd.mType = .dial) : dialOf r = some y := by
  rcases oneOf_cases h with ⟨d, q, t, m, ⟨-, -, rfl⟩ | ⟨-, -, rfl⟩, rfl⟩ | ⟨-, h⟩ | ⟨-, h⟩ | h
  · cases hd
  · cases hd
  · exact h
  · unfold sOf at h
    split_ifs at h
    obtain ⟨o, -, rfl⟩ := Option.map_eq_some_iff.1 h
    cases hd
  · unfold extendedOf at h
    split_ifs at h
    obtain ⟨o, -, rfl⟩ := Option.map_eq_some_iff.1 h
    cases hd

/-- A dial command takes all up to the first semicolon, and is the last one. -/
theorem commandOf_dial (h : commandOf r = some y) (hd : y.cmd.mType = .dial) :
    y.rest = [] ∧ ∃ d, y.cmd.params = some d ∧ 59 ∉ d.dropLast := by
  cases r with
  | nil => cases h
  | cons c r =>
    have hdial := dial_of_oneOf (Option.filter_eq_some_iff.1 h).1 hd
    unfold dialOf at hdial
    split_ifs at hdial with htail
    cases hdial
    exact ⟨rfl, _, rfl, until_dropLast r htail⟩

private theorem commands_dial (h : Commands r ys rest) :
    ∀ y ∈ ys, y.cmd.mType = .dial → y.rest = [] ∧ ∃ d, y.cmd.params = some d ∧ 59 ∉ d.dropLast := by
  induction h with
  | nil => nofun
  | cons hy _ ih =>
    intro z hz hd
    rcases List.mem_cons.1 hz with rfl | hz
    · exact commandOf_dial hy hd
    · exact ih z hz hd

/-- One call at a text that does not stray. -/
private theorem split_step (h : (t.execBuffer.getD Ledit.zeros).Text t.execBufIter r) (hr : r ≠ [])
    (hn : r.length ≤ maxCmdLen) (hs : strays r = false) :
    t.ReadsInside (t.execBufIter + r.length) ∧
    (commandOf r = none → t.split.2 = .fail) ∧
    ∀ y, commandOf r = some y → t.split.2 = .cmpl ∧ t.split.1.cmdm = some (y.cmd.restoredBy t.orig) ∧
      (t.next.execBuffer.getD Ledit.zeros).Text t.next.execBufIter y.rest ∧
      t.next.execBufIter + y.rest.length = t.execBufIter + r.length ∧ t.next.orig = t.orig := by
  have hne : t.execBuffer.getD Ledit.zeros t.execBufIter ≠ 0 := mt h.first_eq_zero_iff.1 hr
  have hempty : endsEmpty r = false := (Bool.or_eq_false_iff.1 hs).2
  have hin := (Split.readsInside_iff (x := t.splitting) h hr hn).2 hs
  have htakes := Split.split_takes (x := t.splitting) h hr hn (by rw [hempty]; nofun)
  have hsplit : t.split =
      ({ t with
        execBuffer := some t.splitting.split.1.exec
        execBufIter := t.splitting.split.1.iter
        cmdm := some t.splitting.split.1.cmd
        cmdIndex := t.splitting.split.1.cmdIndex
        err := t.splitting.split.1.err }, t.splitting.split.2) := if_neg hne
  refine ⟨⟨Nat.le_add_right _ _, fun _ => hin⟩, fun hnone => ?_, fun y hy => ?_⟩
  · rw [hnone] at htakes
    rw [hsplit]
    exact htakes
  · rw [hy] at htakes
    obtain ⟨hcmpl, htook⟩ := htakes
    have htext := htook.text h (commandOf_spells hy) (by rw [hempty]; nofun)
    have hcmd := htook.cmd
    have hiter := htook.iter
    have hlen := congrArg List.length (commandOf_spells hy)
    rw [List.length_append] at hlen
    unfold handedOut at hcmd
    rw [hempty, if_neg nofun] at hiter hcmd
    unfold Ledit.next
    rw [hsplit]
    refine ⟨hcmpl, congrArg some hcmd, htext, ?_, rfl⟩
    dsimp only
    rw [hiter, ← hlen]
    change t.execBufIter + _ + 0 + _ = _
    omega

theorem Ledit.split_empty (h : t.execBuffer.getD Ledit.zeros t.execBufIter = 0) : t.split.2 = .fail := by
  unfold Ledit.split
  dsimp only
  rw [if_pos h]

/-- The calls for a text of which no command strays. -/
private theorem split_run (h : (t.execBuffer.getD Ledit.zeros).Text t.execBufIter r) (hn : r.length ≤ maxCmdLen)
    (hs : ∀ ys q, Commands r ys q → strays q = false) :
    ∃ ys rest, Commands r ys rest ∧ commandOf rest = none ∧
      (∀ k, (hk : k < ys.length) → (Ledit.next^[k] t).split.2 = .cmpl ∧
        (Ledit.next^[k] t).split.1.cmdm = some (ys[k].cmd.restoredBy t.orig)) ∧
      (Ledit.next^[ys.length] t).split.2 = .fail ∧
      ∀ k ≤ ys.length, (Ledit.next^[k] t).ReadsInside (t.execBufIter + r.length) := by
  induction hlen : r.length using Nat.strongRecOn generalizing r t with
  | ind n ih =>
    subst hlen
    by_cases hr : r = []
    · subst hr
      refine ⟨[], [], .nil [], rfl, nofun, Ledit.split_empty h, fun k hk => ?_⟩
      obtain rfl : k = 0 := Nat.le_zero.1 hk
      exact ⟨le_rfl, fun hne => absurd h hne⟩
    · obtain ⟨hin, hnone, hsome⟩ := split_step h hr hn (hs [] r (.nil r))
      cases hc : commandOf r with
      | none =>
        refine ⟨[], r, .nil r, hc, nofun, hnone hc, fun k hk => ?_⟩
        obtain rfl : k = 0 := Nat.le_zero.1 hk
        exact hin
      | some y =>
        obtain ⟨hcmpl, hcmd, htext, hiter, horig⟩ := hsome y hc
        have hlt := commandOf_shorter hc
        obtain ⟨ys, rest, hys, hrest, hgood, hfail, hreads⟩ :=
          ih y.rest.length hlt htext (hlt.le.trans hn) (fun zs q hzs => hs (y :: zs) q (.cons hc hzs)) rfl
        refine ⟨y :: ys, rest, .cons hc hys, hrest, fun k hk => ?_, hfail, fun k hk => ?_⟩
        · cases k with
          | zero => exact ⟨hcmpl, hcmd⟩
          | succ k =>
            rw [Function.iterate_succ_apply, ← horig]
            exact hgood k (Nat.lt_of_succ_lt_succ hk)
        · cases k with
          | zero => exact hin
          | succ k =>
            rw [Function.iterate_succ_apply, ← hiter]
            exact hreads k (Nat.le_of_succ_le_succ hk)

/-- The commands for which calls read inside of the line do not stray. -/
private theorem strays_of_run {m : Nat} (hc : Commands r ys rest)
    (h : (t.execBuffer.getD Ledit.zeros).Text t.execBufIter r) (hn : r.length ≤ maxCmdLen)
    (hfail : (Ledit.next^[m] t).split.2 = .fail)
    (hin : ∀ k ≤ m, (Ledit.next^[k] t).ReadsInside (t.execBufIter + r.length)) : strays rest = false := by
  induction hc generalizing t m with
  | nil r =>
    by_cases hr : r = []
    · rw [hr]
      rfl
    · exact (Split.readsInside_iff (x := t.splitting) h hr hn).1
        ((hin 0 (Nat.zero_le m)).2 (mt h.first_eq_zero_iff.1 hr))
  | @cons r _ y _ hy _ ih =>
    have hr : r ≠ [] := by
      rintro rfl
      cases hy
    have hs := (Split.readsInside_iff (x := t.splitting) h hr hn).1
      ((hin 0 (Nat.zero_le m)).2 (mt h.first_eq_zero_iff.1 hr))
    obtain ⟨-, -, hsome⟩ := split_step h hr hn hs
    obtain ⟨hcmpl, -, htext, hiter, -⟩ := hsome y hy
    cases m with
    | zero => exact absurd (hfail.symm.trans hcmpl) nofun
    | succ m =>
      refine ih htext ((commandOf_shorter hy).le.trans hn) hfail fun k hk => ?_
      rw [hiter]
      exact hin (k + 1) (Nat.succ_le_succ hk)

end

/-- A line is split rightly exactly when none of the commands that the calls come to strays: none begins with a letter
that is no capital, or with `&` and no capital, and none is an extended or a dial command the parameter of which begins
at the end of the line. -/
theorem line_split_iff (s : Ledit) (b : Buf) (line : List Nat) (hb : s.execBuffer = some b) (hiter : s.execBufIter = 0)
    (hline : b.Text 0 line) (hlen : line.length + 2 ≤ maxCmdLen) :
    SplitsRightly s line ↔ ∀ ys rest, Commands line ys rest → strays rest = false := by
  have htext : (s.first.execBuffer.getD Ledit.zeros).Text s.first.execBufIter line := by
    change (s.execBuffer.getD Ledit.zeros).Text s.execBufIter line
    rw [hb, hiter]
    exact hline
  have hlast : s.first.execBufIter + line.length = line.length := by
    change s.execBufIter + _ = _
    rw [hiter, Nat.zero_add]
  constructor
  · rintro ⟨cs, -, -, -, hfail, hin, -⟩ ys rest hc
    rw [← hlast] at hin
    exact strays_of_run hc htext (by omega) hfail hin
  · intro hs
    obtain ⟨ys, rest, hys, hrest, hgood, hfail, hin⟩ := split_run htext (by omega) hs
    rw [hlast] at hin
    refine ⟨ys.map (·.cmd.restoredBy s.orig), ys, rest, fun k hk => ?_, ?_, ?_, hys, hrest, rfl,
      commands_concat s.orig hys, commands_dial hys⟩
    · rw [List.length_map] at hk
      rw [List.getElem_map]
      exact hgood k hk
    · rw [List.length_map]
      exact hfail
    · rw [List.length_map]
      exact hin

/-- No command of a text strays; `n` is to exceed its length. -/
def straysNowhere : Nat → List Nat → Bool
  | 0, _ => false
  | n + 1, r => !strays r && (commandOf r).all fun y => straysNowhere n y.rest

theorem straysNowhere_commands {n : Nat} {r rest : List Nat} {ys : List Parsed} (h : straysNowhere n r = true)
    (hc : Commands r ys rest) : strays rest = false := by
  induction hc generalizing n with
  | nil r =>
    cases n with
    | zero => cases h
    | succ n => exact (Bool.not_eq_true' _).mp (Bool.and_eq_true_iff.1 h).1
  | cons hy _ ih =>
    cases n with
    | zero => cases h
    | succ n =>
      have hrest := (Bool.and_eq_true_iff.1 h).2
      rw [hy] at hrest
      exact ih hrest

namespace line

/-- The record of a source after a line has been typed. -/
def typed (l : List Nat) : Ledit :=
  { Ledit.getNewSrcMaintain with
    execBuffer := some (.ofList l)
    origBuffer := some (.ofList l)
    state := .runCmd }

/-- `E0+CREG=1;+CGMI;` -/
def wellRead : List Nat := [69, 48, 43, 67, 82, 69, 71, 61, 49, 59, 43, 67, 71, 77, 73, 59]

theorem line_split_iff_run : SplitsRightly (typed wellRead) wellRead :=
  (line_split_iff (typed wellRead) _ wellRead rfl rfl (ofList_text (by decide)) (by decide)).2 fun _ _ h =>
    straysNowhere_commands (n := 17) (by decide +kernel) h

/-- `+CGMI` -/
def unread : List Nat := [43, 67, 71, 77, 73]

/-- Splitting `AT+CGMI` reads the character behind the terminator. -/
theorem readBehind : ¬SplitsRightly (typed unread) unread := by
  rintro ⟨cs, -, -, -, -, hin, -⟩
  have hread := ((hin 0 (Nat.zero_le _)).2 (by decide)).buffer
  revert hread
  decide +kernel

end line

end Citrine.Aci
