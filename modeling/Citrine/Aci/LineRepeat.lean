import Citrine.Aci.LineRun
import Citrine.Aci.LineSources
import Citrine.Lib.Machine

/-!
# Repeating a command line

`A/` splits the line in `execBuffer` once more, from its beginning.  The first splitting has left the buffer as it was but
for the letters of a dial string, so the calls answer as before (`answer_repeat`); but a dial command makes
`ledit_assign_param` look at `origBuffer`, which `ledit_clear_all` and `ledit_repeat` have released
(`line_repeat_iff`).
-/

namespace Citrine.Aci

/-! ### Where the commands of a buffer begin -/

/-- Where the parameter behind a name and its operator begins. -/
def behindOperator (b : Buf) (i : Nat) : Nat :=
  match lookAhead (b i) with
  | .set => if lookAhead (b (i + 1)) = .read then i + 2 else i + 1
  | .read => i + 1
  | _ => i

/-- Where an extended command or `ATSnn` ends. -/
def namedEnd (b : Buf) (i : Nat) (ext : Bool) : Option Nat :=
  let len := getNameLen b i ext
  let j := behindOperator b (i + len)
  let k := j + getParaLen b j (if ext then .ext else .basic)
  if len ≠ 0 then some (if ext ∧ b k ≠ 0 then k + 1 else k) else none

/-- Where the characters of the command at an index end. -/
def commandStop (b : Buf) (i : Nat) : Option Nat :=
  if isAlpha (b i) then
    match checkValidBasicCmd (b i) with
    | .support => some (i + 1 + getParaLen b (i + 1) .basic)
    | .dial =>
      let k := i + 1 + getParaLen b (i + 1) .dial
      if b k ≠ 0 then none else some k
    | .sParam => namedEnd b i false
    | .noSupp => none
  else if b i = 38 then
    if checkValidAndCmd (b (i + 1)) then some (i + 2 + getParaLen b (i + 2) .basic) else none
  else namedEnd b i true

/-- Where the command at an index ends, when the character there may follow a command. -/
def commandEnd (b : Buf) (i : Nat) : Option Nat :=
  (commandStop b i).filter fun k => lookAhead (b k) ∈ [.percent, .and, .plus, .char, .ext, .terminated]

/-- The indices at which commands of a buffer begin, up to the first ill-formed one. -/
inductive Begins (b : Buf) : Nat → Prop
  | first : Begins b 0
  | next {i j : Nat} (h : Begins b i) (hi : b i ≠ 0) (hj : commandEnd b i = some j) : Begins b j

namespace Split
variable {x x' : Split}

/-- Two records of a source that differ in nothing that a command but the dial command goes by. -/
private def Same (x x' : Split) : Prop := x.exec = x'.exec ∧ x.iter = x'.iter ∧ x.cmd = x'.cmd

private theorem Same.assignName (h : Same x x') (len : Nat) : Same (x.assignName len) (x'.assignName len) := by
  obtain ⟨hexec, hiter, hcmd⟩ := h
  unfold Split.assignName
  rw [hexec, hiter, hcmd]
  exact ⟨rfl, rfl, rfl⟩

private theorem Same.setType (h : Same x x') (m : MainType) (t : SubType) (flag : Bool) :
    Same (x.setType m t flag) (x'.setType m t flag) :=
  ⟨h.1, h.2.1, congrArg (fun c : AtCmd => { c with mType := m, sType := t, appendFlag := flag }) h.2.2⟩

private theorem Same.extendedType (h : Same x x') (m : MainType) : Same (x.extendedType m) (x'.extendedType m) := by
  obtain ⟨b, i, o, c, n, e⟩ := x
  obtain ⟨b', i', o', c', n', e'⟩ := x'
  obtain ⟨hexec, hiter, hcmd⟩ := h
  dsimp only at hexec hiter hcmd
  subst hexec hiter hcmd
  unfold Split.extendedType
  dsimp only
  split
  · split_ifs <;> exact ⟨rfl, rfl, rfl⟩
  · exact ⟨rfl, rfl, rfl⟩
  · exact ⟨rfl, rfl, rfl⟩

private theorem Same.assignParam {p : ParamType} (h : Same x x') (hp : p ≠ .dial) :
    Same (x.assignParam p) (x'.assignParam p) := by
  obtain ⟨hexec, hiter, hcmd⟩ := h
  unfold Split.assignParam
  dsimp only
  rw [if_neg hp, if_neg hp, hexec, hiter, hcmd]
  exact ⟨rfl, rfl, rfl⟩

private theorem paramType_ne (ext : Bool) : (if ext then ParamType.ext else .basic) ≠ .dial := by cases ext <;> nofun

private theorem Same.namedCmd (h : Same x x') (ext : Bool) :
    Same (x.namedCmd ext).1 (x'.namedCmd ext).1 ∧ (x.namedCmd ext).2 = (x'.namedCmd ext).2 := by
  have htook := fun len m => ((h.assignName len).extendedType m).assignParam (paramType_ne ext)
  unfold Split.namedCmd
  rw [← h.1, ← h.2.1]
  dsimp only
  by_cases hlen : getNameLen x.exec x.iter ext ≠ 0
  · rw [if_pos hlen, if_pos hlen]
    exact ⟨htook _ _, rfl⟩
  · rw [if_neg hlen, if_neg hlen]
    exact ⟨h, rfl⟩

private theorem Same.letter (h : Same x x') (m : MainType) (t : SubType) :
    Same (((x.setType m t false).assignName 1).assignParam .basic) (((x'.setType m t false).assignName 1).assignParam .basic) :=
  ((h.setType m t false).assignName 1).assignParam nofun

private theorem Same.oneCmd (h : Same x x') (hd : x.exec x.iter ≠ 68) :
    Same x.oneCmd.1 x'.oneCmd.1 ∧ x.oneCmd.2 = x'.oneCmd.2 := by
  unfold Split.oneCmd
  rw [← h.1, ← h.2.1]
  dsimp only
  split_ifs
  · unfold basicCmd
    rw [← h.1, ← h.2.1]
    cases hc : checkValidBasicCmd (x.exec x.iter) with
    | noSupp => exact ⟨h, rfl⟩
    | support => exact ⟨h.letter .basic .set, rfl⟩
    | dial => exact absurd (basicCmd_dial hc) hd
    | sParam => exact h.namedCmd false
  · unfold andBasicCmd
    rw [← h.1, ← h.2.1]
    dsimp only
    have h' : Same { x with iter := x.iter + 1 } { x' with exec := x.exec, iter := x.iter + 1 } := ⟨rfl, rfl, h.2.2⟩
    split_ifs
    · exact ⟨h'.letter .and .query, rfl⟩
    · exact ⟨h', rfl⟩
  · exact h.namedCmd true

/-- What a call does with a command other than a dial command goes by the buffer and the iterator only. -/
private theorem split_same {y : Split} (hexec : x.exec = y.exec) (hiter : x.iter = y.iter) (hd : x.exec x.iter ≠ 68) :
    Same x.split.1 y.split.1 ∧ x.split.2 = y.split.2 := by
  have h : Same { x with cmd := .empty } { y with cmd := .empty } := ⟨hexec, hiter, rfl⟩
  obtain ⟨hone, hrslt⟩ := h.oneCmd hd
  unfold Split.split
  dsimp only
  rw [← hrslt, ← hone.1, ← hone.2.1]
  split_ifs
  · exact ⟨hone, rfl⟩
  · split <;> first | exact ⟨hone, rfl⟩ | exact ⟨⟨rfl, rfl, hone.2.2⟩, rfl⟩

private theorem extendedType_iter (x : Split) (m : MainType) :
    (x.extendedType m).exec = x.exec ∧ (x.extendedType m).iter = behindOperator x.exec x.iter := by
  unfold Split.extendedType behindOperator
  cases lookAhead (x.exec x.iter) with
  | set =>
    dsimp only
    split_ifs <;> exact ⟨rfl, rfl⟩
  | _ => exact ⟨rfl, rfl⟩

/-- What a function leaves of a record for the command that ends at an index, if it ends. -/
private def Stops (x : Split) (stop : Option Nat) (r : Split × LeditRslt) : Prop :=
  match stop with
  | none => r.2 = .fail
  | some k => r.2 = .cmpl ∧ r.1.iter = k ∧ r.1.exec k = x.exec k

private theorem assignParam_iter {p : ParamType} (x : Split) (hp : p ≠ .dial) :
    (x.assignParam p).exec = x.exec ∧
      (x.assignParam p).iter =
        if p = .ext ∧ x.exec (x.iter + getParaLen x.exec x.iter p) ≠ 0 then x.iter + getParaLen x.exec x.iter p + 1
        else x.iter + getParaLen x.exec x.iter p := by
  unfold Split.assignParam
  dsimp only
  rw [if_neg hp]
  exact ⟨rfl, rfl⟩

private theorem namedCmd_stops (x : Split) (ext : Bool) :
    (x.namedCmd ext).1.exec = x.exec ∧ Stops x (namedEnd x.exec x.iter ext) (x.namedCmd ext) := by
  unfold Split.namedCmd namedEnd
  dsimp only
  by_cases hlen : getNameLen x.exec x.iter ext ≠ 0
  · rw [if_pos hlen, if_pos hlen]
    obtain ⟨hexec, hiter⟩ := extendedType_iter (x.assignName (getNameLen x.exec x.iter ext)) (if ext then .extended else .s)
    obtain ⟨hexec', hiter'⟩ := assignParam_iter
      ((x.assignName (getNameLen x.exec x.iter ext)).extendedType (if ext then .extended else .s)) (paramType_ne ext)
    rw [hexec] at hexec' hiter'
    rw [hiter] at hiter'
    refine ⟨hexec', rfl, hiter'.trans ?_, congrFun hexec' _⟩
    cases ext with
    | true =>
      simp only [if_true, true_and]
      rfl
    | false =>
      simp only [Bool.false_eq_true, if_false, reduceCtorEq, false_and]
      rfl
  · rw [if_neg hlen, if_neg hlen]
    exact ⟨rfl, rfl⟩

private theorem letter_stops (x : Split) (m : MainType) (t : SubType) :
    ((((x.setType m t false).assignName 1).assignParam .basic)).exec = x.exec ∧
      ((((x.setType m t false).assignName 1).assignParam .basic)).iter =
        x.iter + 1 + getParaLen x.exec (x.iter + 1) .basic := by
  obtain ⟨hexec, hiter⟩ := assignParam_iter ((x.setType m t false).assignName 1) (p := .basic) nofun
  exact ⟨hexec, hiter⟩

private theorem dial_stops (x : Split) :
    Stops x (let k := x.iter + 1 + getParaLen x.exec (x.iter + 1) .dial
      if x.exec k ≠ 0 then none else some k) x.dial := by
  have hend : restoreDialString x.exec (x.iter + 1) (getParaLen x.exec (x.iter + 1) .dial) x.orig
      (x.iter + 1 + getParaLen x.exec (x.iter + 1) .dial) =
        x.exec (x.iter + 1 + getParaLen x.exec (x.iter + 1) .dial) := restoreDialString_other (Or.inr le_rfl)
  have hdial : x.dial =
      (((x.setType .dial .set false).assignName 1).assignParam .dial,
        if x.exec (x.iter + 1 + getParaLen x.exec (x.iter + 1) .dial) ≠ 0 then .fail else .cmpl) := by
    unfold Split.dial
    dsimp only
    have hat : (((x.setType .dial .set false).assignName 1).assignParam .dial).exec
        (((x.setType .dial .set false).assignName 1).assignParam .dial).iter =
          x.exec (x.iter + 1 + getParaLen x.exec (x.iter + 1) .dial) := hend
    rw [hat]
    split_ifs <;> rfl
  rw [hdial]
  dsimp only
  split_ifs
  · rfl
  · exact ⟨rfl, rfl, hend⟩

private theorem oneCmd_stops (x : Split) :
    (x.exec x.iter ≠ 68 → x.oneCmd.1.exec = x.exec) ∧ Stops x (commandStop x.exec x.iter) x.oneCmd := by
  unfold oneCmd commandStop
  dsimp only
  by_cases halpha : isAlpha (x.exec x.iter) = true
  · rw [if_pos halpha, if_pos halpha]
    unfold basicCmd
    cases hc : checkValidBasicCmd (x.exec x.iter) with
    | noSupp => exact ⟨fun _ => rfl, rfl⟩
    | support =>
      obtain ⟨hexec, hiter⟩ := letter_stops x .basic .set
      exact ⟨fun _ => hexec, rfl, hiter, congrFun hexec _⟩
    | dial => exact ⟨fun h => absurd (basicCmd_dial hc) h, dial_stops x⟩
    | sParam =>
      obtain ⟨hexec, hstops⟩ := namedCmd_stops x false
      exact ⟨fun _ => hexec, hstops⟩
  · rw [if_neg halpha, if_neg halpha]
    by_cases hand : x.exec x.iter = 38
    · rw [if_pos hand, if_pos hand]
      unfold andBasicCmd
      dsimp only
      by_cases hcheck : checkValidAndCmd (x.exec (x.iter + 1)) = true
      · rw [if_pos hcheck, if_pos hcheck]
        obtain ⟨hexec, hiter⟩ := letter_stops { x with iter := x.iter + 1 } .and .query
        exact ⟨fun _ => hexec, rfl, hiter, congrFun hexec _⟩
      · rw [if_neg hcheck, if_neg hcheck]
        exact ⟨fun _ => rfl, rfl⟩
    · rw [if_neg hand, if_neg hand]
      obtain ⟨hexec, hstops⟩ := namedCmd_stops x true
      exact ⟨fun _ => hexec, hstops⟩

/-- Where a call leaves the iterator, and what of the buffer. -/
private theorem split_stops (x : Split) :
    (x.exec x.iter ≠ 68 → x.split.1.exec = x.exec) ∧ Stops x (commandEnd x.exec x.iter) x.split := by
  obtain ⟨hexec, hstops⟩ := oneCmd_stops { x with cmd := .empty }
  unfold Split.split commandEnd
  generalize ({ x with cmd := .empty } : Split).oneCmd = z at hexec hstops
  obtain ⟨z, rslt⟩ := z
  dsimp only at hexec hstops ⊢
  cases hstop : commandStop x.exec x.iter with
  | none =>
    rw [hstop] at hstops
    have hfail : rslt = .fail := hstops
    rw [if_pos hfail]
    exact ⟨hexec, rfl⟩
  | some k =>
    rw [hstop] at hstops
    obtain ⟨hcmpl, hiter, hk⟩ := hstops
    have hfail : ¬rslt = .fail := by
      rw [show rslt = .cmpl from hcmpl]
      nofun
    rw [if_neg hfail, show z.exec z.iter = x.exec k from hiter.symm ▸ hk, Option.filter_some]
    cases lookAhead (x.exec k) <;> first | exact ⟨hexec, rfl, hiter, hk⟩ | exact ⟨hexec, rfl⟩

private theorem dial_exec (x : Split) :
    x.dial.1.exec = restoreDialString x.exec (x.iter + 1) (getParaLen x.exec (x.iter + 1) .dial) x.orig := by
  unfold Split.dial
  dsimp only
  split_ifs <;> rfl

/-- A call at a dial command restores the letters of its parameter. -/
theorem split_dial_exec (x : Split) (h : x.exec x.iter = 68) :
    x.split.1.exec = restoreDialString x.exec (x.iter + 1) (getParaLen x.exec (x.iter + 1) .dial) x.orig := by
  have hone : ({ x with cmd := .empty } : Split).oneCmd = ({ x with cmd := .empty } : Split).dial := by
    unfold oneCmd basicCmd
    dsimp only
    rw [h]
    rfl
  rw [← dial_exec { x with cmd := .empty }]
  unfold Split.split
  rw [hone]
  generalize ({ x with cmd := .empty } : Split).dial = z
  obtain ⟨z, rslt⟩ := z
  dsimp only
  split_ifs
  · rfl
  · cases lookAhead (z.exec z.iter) <;> rfl

end Split

/-! ### The two passes -/

namespace Ledit
variable (s : Ledit)

/-- The buffer that is split. -/
def exec : Buf := s.execBuffer.getD zeros

/-- The record in which `ledit_repeat` has the line run. -/
def again : Ledit := { s with err := .none, lineBuffer := none, origBuffer := none, state := .runCmd }

/-- A call that splits would use a buffer that has been released: `ledit_assign_param` takes the length of the original
line for a dial command. -/
def UsesReleased : Prop := s.execBuffer = none ∨ s.exec s.execBufIter = 68 ∧ s.origBuffer = none

/-- When a dial command is split, each G and I of the dial string gets the case that it has at its position of the
original line. -/
def KeepsLetters : Prop :=
  s.exec s.execBufIter = 68 → ∀ k < getParaLen s.exec (s.execBufIter + 1) .dial,
    isModifier (s.exec (s.execBufIter + 1 + k)) = true →
      s.split.1.exec (s.execBufIter + 1 + k) = s.orig (s.execBufIter + 1 + k)

/-- The first place of the original line that reads like the dial string has each G and I in the case of the dial
string's own position. -/
def PlaceKeeps : Prop :=
  let i := s.execBufIter + 1
  let len := getParaLen s.exec i .dial
  s.exec s.execBufIter = 68 → ∀ k < len, isModifier (s.exec (i + k)) = true →
    ((firstPlace s.orig (s.exec.slice i len)).elim (s.exec (i + k)) fun o => s.orig (letterIndex s.orig k o)) =
      s.orig (i + k)

/-- A completed line is repeated: however many commands have been asked for when it is completed, `A/` has the same
commands split off, without a use of a buffer that has been released. -/
def Repeats (a : Nat) : Prop :=
  ∀ n, (∀ j < n, (s.answer j).2 = .cmpl) →
    let t := (s.answer n).1.clearAll
    t.cmd [a, 47] = t.again.answer 0 ∧
    ∀ k, (∀ j < k, (s.answer j).2 = .cmpl) →
      (t.again.answer k).2 = (s.answer k).2 ∧
      ((s.answer k).2 = .cmpl → (t.again.answer k).1.cmdm = (s.answer k).1.cmdm) ∧
      ¬(next^[k] t.again.first).UsesReleased

variable {s} {t u : Ledit} {b : Buf} {i : Nat}

private theorem split_eq (s : Ledit) :
    s.split = if s.exec s.execBufIter = 0 then (s, .fail)
      else ({ s with
          execBuffer := some s.splitting.split.1.exec
          execBufIter := s.splitting.split.1.iter
          cmdm := some s.splitting.split.1.cmd
          cmdIndex := s.splitting.split.1.cmdIndex
          err := s.splitting.split.1.err }, s.splitting.split.2) := rfl

private theorem keepsLetters_iff (s : Ledit) : s.KeepsLetters ↔ s.PlaceKeeps := by
  refine forall_congr' fun h68 => forall₂_congr fun k hk => forall_congr' fun hm => ?_
  have hexec : s.split.1.exec = restoreDialString s.exec (s.execBufIter + 1)
      (getParaLen s.exec (s.execBufIter + 1) .dial) s.orig := by
    rw [split_eq, if_neg (by rw [h68]; decide)]
    exact Split.split_dial_exec s.splitting h68
  generalize hlen : getParaLen s.exec (s.execBufIter + 1) .dial = len at hk hexec ⊢
  have hslice : ∀ j < len, (s.exec.slice (s.execBufIter + 1) len).getD j 0 = s.exec (s.execBufIter + 1 + j) :=
    fun j hj => getD_slice hj
  have hlength : (s.exec.slice (s.execBufIter + 1) len).length = len := by
    unfold Buf.slice
    rw [List.length_map, List.length_range]
  have hk' : k < (s.exec.slice (s.execBufIter + 1) len).length := hlength.symm ▸ hk
  have hget : (s.exec.slice (s.execBufIter + 1) len)[k] = s.exec (s.execBufIter + 1 + k) := by
    rw [← hslice k hk, List.getD_eq_getElem _ _ hk']
  have hgot := getD_slice (b := restoreDialString s.exec (s.execBufIter + 1) len s.orig) (i := s.execBufIter + 1) hk
  rw [restoreDialString_slice, restored_modifier hk' (by rw [hget]; exact hm), hget] at hgot
  rw [hexec, ← hgot]

/-- Two records that a call treats alike. -/
private structure Alike (t u : Ledit) : Prop where
  exec : t.exec = u.exec
  iter : t.execBufIter = u.execBufIter

/-- Calls at the same index of the same buffer do the same, unless there is a dial command. -/
private theorem Alike.split (h : Alike t u) (hd : t.exec t.execBufIter ≠ 68) :
    t.split.2 = u.split.2 ∧ (t.split.2 = .cmpl → t.split.1.cmdm = u.split.1.cmdm) ∧ t.next.exec = t.exec ∧
      Alike t.next u.next := by
  obtain ⟨hcalls, hrslt⟩ := Split.split_same (x := t.splitting) (y := u.splitting) h.exec h.iter hd
  obtain ⟨hkeeps, -⟩ := Split.split_stops t.splitting
  unfold next
  rw [split_eq t, split_eq u, ← h.exec, ← h.iter]
  split_ifs
  · exact ⟨rfl, nofun, rfl, h.exec, h.iter⟩
  · exact ⟨hrslt, fun _ => congrArg some hcalls.2.2, hkeeps hd, hcalls.1, hcalls.2.1⟩

/-- A call that is answered with a command comes to where the command ends. -/
private theorem next_end (hok : t.split.2 = .cmpl) :
    t.exec t.execBufIter ≠ 0 ∧ commandEnd t.exec t.execBufIter = some t.next.execBufIter := by
  obtain ⟨-, hstops⟩ := Split.split_stops t.splitting
  have hsplit := split_eq t
  by_cases h0 : t.exec t.execBufIter = 0
  · rw [hsplit, if_pos h0] at hok
    cases hok
  · refine ⟨h0, ?_⟩
    rw [if_neg h0] at hsplit
    change Split.Stops t.splitting (commandEnd t.exec t.execBufIter) _ at hstops
    unfold next
    rw [hsplit] at hok ⊢
    cases hend : commandEnd t.exec t.execBufIter with
    | none =>
      rw [hend] at hstops
      exact absurd (hok.symm.trans hstops) nofun
    | some k =>
      rw [hend] at hstops
      exact congrArg some hstops.2.1.symm

/-- The calls of two records at the same index of a buffer go on alike up to a dial command. -/
private theorem run_alike (h : Alike t u) (n : Nat)
    (hd : ∀ j < n, (next^[j] t).exec (next^[j] t).execBufIter ≠ 68) :
    Alike (next^[n] t) (next^[n] u) ∧ (next^[n] t).exec = t.exec := by
  induction n with
  | zero => exact ⟨h, rfl⟩
  | succ n ih =>
    obtain ⟨halike, hexec⟩ := ih fun j hj => hd j (Nat.lt_succ_of_lt hj)
    obtain ⟨-, -, hkeep, hnext⟩ := halike.split (hd n (Nat.lt_succ_self n))
    rw [Function.iterate_succ_apply', Function.iterate_succ_apply']
    exact ⟨hnext, hkeep.trans hexec⟩

/-- Where there is no dial command the calls come to none. -/
private theorem run_begins (hnd : ∀ i, Begins b i → b i ≠ 68) (ht : t.exec = b) (hi : t.execBufIter = 0) (n : Nat)
    (hok : ∀ j < n, (next^[j] t).split.2 = .cmpl) :
    (next^[n] t).exec (next^[n] t).execBufIter ≠ 68 := by
  suffices h : (next^[n] t).exec = b ∧ Begins b (next^[n] t).execBufIter by
    rw [h.1]
    exact hnd _ h.2
  induction n with
  | zero =>
    refine ⟨ht, ?_⟩
    change Begins b t.execBufIter
    rw [hi]
    exact .first
  | succ n ih =>
    obtain ⟨hexec, hbegins⟩ := ih fun j hj => hok j (Nat.lt_succ_of_lt hj)
    have hd : (next^[n] t).exec (next^[n] t).execBufIter ≠ 68 := by
      rw [hexec]
      exact hnd _ hbegins
    obtain ⟨-, -, hkeep, -⟩ := Alike.split (u := next^[n] t) ⟨rfl, rfl⟩ hd
    obtain ⟨h0, hend⟩ := next_end (hok n (Nat.lt_succ_self n))
    rw [Function.iterate_succ_apply']
    rw [hexec] at h0 hend hkeep
    exact ⟨hkeep, .next hbegins h0 hend⟩

/-- The line ends behind a dial command. -/
private theorem dial_end {j : Nat} (h : b i = 68) (hj : commandEnd b i = some j) : b j = 0 := by
  have hstop := (Option.filter_eq_some_iff.1 hj).1
  have hdial : commandStop b i =
      if b (i + 1 + getParaLen b (i + 1) .dial) ≠ 0 then none else some (i + 1 + getParaLen b (i + 1) .dial) := by
    unfold commandStop
    rw [h]
    rfl
  rw [hdial] at hstop
  split_ifs at hstop with hzero
  cases hstop
  exact not_not.1 hzero

/-- The calls come to every command. -/
private theorem run_reaches (ht : t.exec = b) (hi : t.execBufIter = 0) (h : Begins b i) (h0 : b i ≠ 0) :
    ∃ n, (∀ j < n, (next^[j] t).split.2 = .cmpl ∧ (next^[j] t).exec (next^[j] t).execBufIter ≠ 68) ∧
      (next^[n] t).exec = b ∧ (next^[n] t).execBufIter = i := by
  induction h with
  | first => exact ⟨0, nofun, ht, hi⟩
  | @next i j hb hne hj ih =>
    obtain ⟨n, hok, hexec, hiter⟩ := ih hne
    have hat : (next^[n] t).exec (next^[n] t).execBufIter = b i := by rw [hexec, hiter]
    obtain ⟨hkeeps, hstops⟩ := Split.split_stops (next^[n] t).splitting
    have hstops' : Split.Stops (next^[n] t).splitting (commandEnd b i) (next^[n] t).splitting.split := by
      rw [← hexec, ← hiter]
      exact hstops
    have hsplit := split_eq (next^[n] t)
    rw [hj] at hstops'
    rw [if_neg (by rw [hat]; exact hne)] at hsplit
    have h68 : b i ≠ 68 := fun h68 => h0 (dial_end h68 hj)
    refine ⟨n + 1, fun k hk => ?_, ?_, ?_⟩
    · rcases Nat.lt_succ_iff_lt_or_eq.1 hk with hlt | rfl
      · exact hok k hlt
      · rw [hsplit, hat]
        exact ⟨hstops'.1, h68⟩
    · rw [Function.iterate_succ_apply']
      change (next^[n] t).split.1.exec = b
      rw [hsplit]
      exact (hkeeps (hat.trans_ne h68)).trans hexec
    · rw [Function.iterate_succ_apply']
      change (next^[n] t).split.1.execBufIter = j
      rw [hsplit]
      exact hstops'.2.1

private theorem cmdLoop_collect (n c : Nat) (s : Ledit) (cs : List Nat) :
    cmdLoop (n + 1) s .collect (c :: cs) =
      cmdLoop n (s.stateFn c cs).1 (s.stateFn c cs).2.1 (s.stateFn c cs).2.2 := if_pos (Or.inl rfl)

/-- `A/` on a source that waits for a line, after a line that is not empty. -/
private theorem cmd_repeat {a : Nat} (hstate : t.state = .idle) (h0 : t.exec 0 ≠ 0)
    (ha : a = 65 ∨ a = 97) (h3 : t.lineHabit.s3 ≠ a ∧ t.lineHabit.s3 ≠ 47) :
    t.cmd [a, 47] = cleared (t.again.answer 0) := by
  have hidle : stateFn { t with err := .none } a [47] = ({ t with err := .none, state := .prefixA }, .collect, [47]) := by
    unfold stateFn idle
    dsimp only
    rw [hstate]
    dsimp only
    rw [if_neg (Ne.symm h3.1), if_pos ha.symm]
    rfl
  have hprefix : stateFn { t with err := .none, state := .prefixA } 47 [] =
      ({ t with err := .none, state := .repeat }, .exct, []) := by
    unfold stateFn prefixA
    dsimp only
    rw [if_neg (Ne.symm h3.2), if_pos rfl]
    rfl
  have hloop : cmdLoop 4 { t with err := .none } .collect [a, 47] = ({ t with err := .none, state := .repeat }, .exct) := by
    rw [cmdLoop_collect, hidle]
    dsimp only
    rw [cmdLoop_collect, hprefix]
    rfl
  have hrepeat : repeatCmd { t with err := .none, state := .repeat } = (t.again, .exct) := if_pos h0
  unfold cmd
  dsimp only
  have hlen : ¬([a, 47].length = 0 ∨ maxCmdLen < [a, 47].length) := by
    unfold maxCmdLen
    simp
  rw [if_neg (by rw [hstate]; nofun), if_neg hlen]
  change finish (cmdLoop 4 { t with err := .none } .collect [a, 47]) = _
  have hcleared : ∀ s : Ledit, cleared (s, .exct) = (s, .exct) := fun _ => if_neg nofun
  rw [hloop]
  unfold finish
  rw [hcleared]
  dsimp only
  rw [if_neg nofun, if_pos rfl, hrepeat, hcleared]
  dsimp only
  rw [if_neg nofun]
  exact if_pos rfl

private theorem origBuffer_next (t : Ledit) : t.next.origBuffer = t.origBuffer := by
  unfold next
  rw [split_eq]
  split_ifs <;> rfl

private theorem execBuffer_next (h : t.execBuffer ≠ none) : t.next.execBuffer ≠ none := by
  unfold next
  rw [split_eq]
  split_ifs
  · exact h
  · nofun

/-- A line that has been taken, and of which the first command has been split off. -/
structure Accepted (s : Ledit) : Prop where
  iter : s.execBufIter = 0
  rslt : s.runCmd.2 = .cmpl

private theorem lineHabit_next (t : Ledit) : t.next.lineHabit = t.lineHabit := by
  unfold next
  rw [split_eq]
  split_ifs <;> rfl

private theorem iterate_keeps {α : Type} {f : Ledit → α} (hf : ∀ t, f (next t) = f t) (n : Nat) (t : Ledit) :
    f (next^[n] t) = f t := by
  induction n with
  | zero => rfl
  | succ n ih =>
    rw [Function.iterate_succ_apply']
    exact (hf _).trans ih

private theorem iterate_some (h : t.execBuffer ≠ none) (n : Nat) : (next^[n] t).execBuffer ≠ none := by
  induction n with
  | zero => exact h
  | succ n ih =>
    rw [Function.iterate_succ_apply']
    exact execBuffer_next ih

/-- A dial command that the calls come to is looked up in a buffer that has been released when the line is repeated. -/
private theorem dial_uses {a : Nat} (h : Accepted s) (hrepeats : s.Repeats a) (hb : Begins s.exec i) : s.exec i ≠ 68 := by
  intro h68
  obtain ⟨-, hcalls⟩ := hrepeats 0 nofun
  generalize hu : (s.answer 0).1.clearAll.again = u at hcalls
  have huiter : u.first.execBufIter = 0 := by
    rw [← hu]
    rfl
  have huexec : u.first.exec = (s.answer 0).1.exec := by
    rw [← hu]
    rfl
  have horig : ∀ k, (next^[k] u.first).origBuffer = none := fun k =>
    (iterate_keeps origBuffer_next k u.first).trans (by rw [← hu]; rfl)
  by_cases hfirst : s.exec 0 = 68
  · have hsplit : (s.answer 0).1.exec =
        restoreDialString s.exec (s.execBufIter + 1) (getParaLen s.exec (s.execBufIter + 1) .dial) s.orig := by
      have hat : s.first.exec s.first.execBufIter = 68 := by
        rw [show s.first.execBufIter = 0 from h.iter]
        exact hfirst
      change s.first.split.1.exec = _
      rw [split_eq, if_neg (by rw [hat]; decide)]
      exact Split.split_dial_exec s.first.splitting hat
    refine (hcalls 0 nofun).2.2 (Or.inr ⟨?_, horig 0⟩)
    change u.first.exec u.first.execBufIter = 68
    rw [huiter, huexec, hsplit, restoreDialString_other (Or.inl (Nat.succ_pos _))]
    exact hfirst
  · have hne : s.exec i ≠ 0 := by
      rw [h68]
      decide
    obtain ⟨k, hok, hexec, hiter⟩ := run_reaches (t := s.first) rfl h.iter hb hne
    have hkeep : (s.answer 0).1.exec = s.exec := by
      have hat : s.first.exec s.first.execBufIter ≠ 68 := by
        rw [show s.first.execBufIter = 0 from h.iter]
        exact hfirst
      exact (Alike.split (u := s.first) ⟨rfl, rfl⟩ hat).2.2.1
    have halike : Alike s.first u.first := ⟨(huexec.trans hkeep).symm, h.iter.trans huiter.symm⟩
    have hat := (run_alike halike k fun j hj => (hok j hj).2).1
    refine (hcalls k fun j hj => (hok j hj).1).2.2 (Or.inr ⟨?_, horig k⟩)
    rw [← hat.exec, ← hat.iter, hexec, hiter]
    exact h68

/-- A line is repeated, and each G and I of a dial command keeps its case, exactly when the calls come to no dial
command. -/
private theorem repeats_iff {a : Nat} (h : Accepted s) (ha : a = 65 ∨ a = 97)
    (h3 : s.lineHabit.s3 ≠ a ∧ s.lineHabit.s3 ≠ 47) :
    (s.Repeats a ∧ ∀ n, (∀ j < n, (s.answer j).2 = .cmpl) → (next^[n] s.first).KeepsLetters) ↔
      ∀ i, Begins s.exec i → s.exec i ≠ 68 := by
  refine ⟨fun hright i hb => dial_uses h hright.1 hb, fun hnd => ?_⟩
  have hd := run_begins (t := s.first) hnd rfl h.iter
  refine ⟨fun n hn => ?_, fun n hn h68 => absurd h68 (hd n hn)⟩
  have h0 : s.exec 0 ≠ 0 := by
    have hne := (next_end (t := s.first) h.rslt).1
    rw [show s.first.execBufIter = 0 from h.iter] at hne
    exact hne
  have hsome : s.execBuffer ≠ none := by
    intro hnone
    unfold exec at h0
    rw [hnone] at h0
    exact h0 rfl
  have hexec : (s.answer n).1.exec = s.exec := by
    have hn' := (run_alike (t := s.first) (u := s.first) ⟨rfl, rfl⟩ n fun j hj => hd j fun l hl => hn l (hl.trans hj)).2
    exact ((Alike.split (u := next^[n] s.first) ⟨rfl, rfl⟩ (hd n hn)).2.2.1).trans hn'
  dsimp only
  generalize ht : (s.answer n).1.clearAll = t
  have halike : Alike s.first t.again.first := ⟨by rw [← ht]; exact hexec.symm, by rw [← ht]; exact h.iter⟩
  have hrun := fun k (hk : ∀ j < k, (s.answer j).2 = .cmpl) => run_alike halike k fun j hj => hd j fun l hl => hk l (Nat.lt_trans hl hj)
  have hsplit := fun k (hk : ∀ j < k, (s.answer j).2 = .cmpl) => (hrun k hk).1.split (hd k hk)
  have hcmd : t.cmd [a, 47] = cleared (t.again.answer 0) := by
    refine cmd_repeat ?_ ?_ ha ?_
    · rw [← ht]
      rfl
    · rw [← ht]
      exact (congrFun hexec 0).trans_ne h0
    · have habit : t.lineHabit = s.lineHabit := by
        rw [← ht]
        exact (lineHabit_next (next^[n] s.first)).trans (iterate_keeps lineHabit_next n s.first)
      rw [habit]
      exact h3
  refine ⟨?_, fun k hk => ⟨((hsplit k hk).1).symm, fun hok => ((hsplit k hk).2.1 hok).symm, ?_⟩⟩
  · have hok : (t.again.answer 0).2 = .cmpl := ((hsplit 0 nofun).1).symm.trans h.rslt
    rw [hcmd]
    exact if_neg (by rw [hok]; nofun)
  · rintro (hnone | ⟨h68, -⟩)
    · refine iterate_some ?_ k hnone
      have hnext := execBuffer_next (iterate_some (t := s.first) hsome n)
      rw [← ht]
      exact hnext
    · rw [← (hrun k hk).1.exec, ← (hrun k hk).1.iter] at h68
      exact hd k hk h68

/-! ### Completed lines -/

/-- A call leaves the iterator where it is, and takes no line while it goes on. -/
private def Waits (s t : Ledit) (rv : LeditRslt) : Prop :=
  t.execBufIter = s.execBufIter ∧ (rv = .collect ∨ rv = .ignore → t.state ≠ .runCmd)

private theorem character_keeps (s : Ledit) (c : Nat) :
    (s.character c).execBufIter = s.execBufIter ∧ (s.character c).state = s.state := by
  unfold character
  dsimp only
  split_ifs <;> exact ⟨rfl, rfl⟩

private theorem endLine_waits (s : Ledit) : Waits s s.endLine.1 s.endLine.2 := by
  unfold endLine
  dsimp only
  split_ifs
  · exact ⟨rfl, fun h => h.elim nofun nofun⟩
  · exact ⟨rfl, fun h => h.elim nofun nofun⟩

private theorem collectLoop_waits (hs : s.state ≠ .runCmd) (cs : List Nat) :
    Waits s (collectLoop s cs).1 (collectLoop s cs).2.1 := by
  induction cs generalizing s with
  | nil => exact ⟨rfl, fun _ => hs⟩
  | cons c cs ih =>
    unfold collectLoop
    dsimp only
    split_ifs
    · exact ⟨rfl, fun _ => hs⟩
    · exact endLine_waits s
    · exact ih hs
    · exact ⟨rfl, fun _ => nofun⟩
    · exact ih (s := s.backspace) hs
    · obtain ⟨hiter, hstate⟩ := character_keeps s c
      have h := ih (s := s.character c) (by rw [hstate]; exact hs)
      exact ⟨h.1.trans hiter, h.2⟩

private theorem stateFn_waits (hs : s.state ≠ .runCmd) (c : Nat) (cs : List Nat) :
    Waits s (s.stateFn c cs).1 (s.stateFn c cs).2.1 := by
  unfold stateFn
  cases hst : s.state with
  | idle =>
    unfold idle
    dsimp only
    split_ifs
    · exact ⟨rfl, fun _ => hs⟩
    · exact ⟨rfl, fun _ => nofun⟩
    · exact ⟨rfl, fun _ => hs⟩
  | prefixA =>
    unfold prefixA
    dsimp only
    split_ifs
    · exact ⟨rfl, fun _ => hs⟩
    · exact ⟨rfl, fun _ => nofun⟩
    · exact ⟨rfl, fun _ => nofun⟩
    · exact ⟨rfl, fun _ => nofun⟩
    · exact ⟨rfl, fun _ => hs⟩
  | prefixT =>
    dsimp only
    split_ifs
    · exact ⟨rfl, fun _ => hs⟩
    · exact ⟨rfl, fun _ => nofun⟩
    · exact ⟨rfl, fun _ => nofun⟩
  | collect =>
    dsimp only
    unfold collect
    split_ifs
    · exact collectLoop_waits (s := s.clearLineBuf) hs _
    · exact collectLoop_waits hs _
  | «repeat» =>
    unfold repeatCmd
    dsimp only
    split_ifs
    · exact ⟨rfl, fun h => h.elim nofun nofun⟩
    · exact ⟨rfl, fun _ => hs⟩
  | runCmd => exact absurd hst hs

private theorem cmdLoop_stopped {rv : LeditRslt} (h : ¬(rv = .collect ∨ rv = .ignore)) (n : Nat) (s : Ledit)
    (cs : List Nat) : cmdLoop n s rv cs = (s, rv) := by
  cases n with
  | zero => cases cs <;> rfl
  | succ n =>
    cases cs with
    | nil => rfl
    | cons c cs => exact if_neg h

private theorem cmdLoop_waits (hs : s.state ≠ .runCmd) (n : Nat) (rv : LeditRslt) (cs : List Nat) :
    Waits s (cmdLoop n s rv cs).1 (cmdLoop n s rv cs).2 := by
  induction n generalizing s rv cs with
  | zero => exact ⟨by cases cs <;> rfl, fun _ => by cases cs <;> exact hs⟩
  | succ n ih =>
    cases cs with
    | nil => exact ⟨rfl, fun _ => hs⟩
    | cons c cs =>
      unfold cmdLoop
      split_ifs with hgo
      · obtain ⟨hiter, hstate⟩ := stateFn_waits hs c cs
        dsimp only
        by_cases hgo' : (s.stateFn c cs).2.1 = .collect ∨ (s.stateFn c cs).2.1 = .ignore
        · obtain ⟨hiter', hstate'⟩ := ih (hstate hgo') (s.stateFn c cs).2.1 (s.stateFn c cs).2.2
          exact ⟨hiter'.trans hiter, hstate'⟩
        · rw [cmdLoop_stopped hgo']
          exact ⟨hiter, hstate⟩
      · exact ⟨rfl, fun _ => hs⟩

/-- The next command of a record begins its line, unless a line is being run. -/
def Settled (s : Ledit) : Prop := s.state ≠ .runCmd → s.execBufIter = 0

private theorem cleared_settled {r : Ledit × LeditRslt} (h : r.1.Settled) : (cleared r).1.Settled := by
  unfold cleared
  split_ifs
  · exact fun _ => rfl
  · exact h

private theorem split_state (s : Ledit) : s.split.1.state = s.state := by
  rw [split_eq]
  split_ifs <;> rfl

private theorem cleared_iter {r : Ledit × LeditRslt} (h : r.1.execBufIter = 0) : (cleared r).1.execBufIter = 0 := by
  unfold cleared
  split_ifs
  · rfl
  · exact h

private theorem runCmd_settled (h : s.state = .runCmd) : (cleared s.runCmd).1.Settled :=
  cleared_settled fun hne => absurd ((split_state s.first).trans h) hne

private theorem repeatCmd_iter (s : Ledit) : s.repeatCmd.1.execBufIter = s.execBufIter := by
  unfold repeatCmd
  split_ifs <;> rfl

private theorem finish_settled {r : Ledit × LeditRslt} (h : r.1.execBufIter = 0) : (finish r).1.Settled := by
  have hr := cleared_iter h
  unfold finish
  generalize cleared r = x at hr
  obtain ⟨s, rv⟩ := x
  dsimp only at hr ⊢
  by_cases hfail : rv = .fail
  · rw [if_pos hfail]
    exact fun _ => hr
  · rw [if_neg hfail]
    have hy : (if s.state = .repeat then cleared s.repeatCmd else (s, rv)).1.execBufIter = 0 := by
      split_ifs
      · exact cleared_iter ((repeatCmd_iter s).trans hr)
      · exact hr
    generalize (if s.state = .repeat then cleared s.repeatCmd else (s, rv)) = y at hy
    obtain ⟨t, rv'⟩ := y
    dsimp only at hy ⊢
    split_ifs with hfail' hrun
    · exact fun _ => hy
    · exact runCmd_settled hrun
    · exact fun _ => hy

private theorem cmd_settled (h : s.Settled) (chars : List Nat) : (s.cmd chars).1.Settled := by
  unfold cmd
  dsimp only
  split_ifs with hrun hlen
  · exact fun hne => absurd hrun hne
  · exact h
  · exact finish_settled ((cmdLoop_waits (s := { s with err := .none }) hrun _ _ _).1.trans (h hrun))

private theorem textLoop_keeps (s : Ledit) (b : Nat) (cs : List Nat) :
    (textLoop s b cs).1.1.execBufIter = s.execBufIter ∧ (textLoop s b cs).1.1.state = s.state := by
  induction cs generalizing s b with
  | nil => exact ⟨rfl, rfl⟩
  | cons c cs ih =>
    unfold textLoop
    dsimp only
    split_ifs
    all_goals first | exact ⟨rfl, rfl⟩ | exact ih _ _

private theorem text_settled (h : s.Settled) (b : Nat) (chars : List Nat) : (text (s, b) chars).1.1.Settled := by
  unfold text textRun
  dsimp only
  intro hne
  split_ifs at hne ⊢
  · obtain ⟨hiter, hstate⟩ := textLoop_keeps { s with err := .none } b chars
    rw [hstate] at hne
    exact hiter.trans (h hne)
  · obtain ⟨hiter, hstate⟩ := textLoop_keeps { ({ s with err := .none } : Ledit).clearLineBuf with txtChunk := true } 0 chars
    rw [hstate] at hne
    exact hiter.trans (h hne)

private theorem setChar_keeps (v : Nat) (set : LineHabit → LineHabit) (r : Ledit × LeditRslt) :
    (setChar v set r).1.execBufIter = r.1.execBufIter ∧ (setChar v set r).1.state = r.1.state := by
  unfold setChar
  split_ifs <;> exact ⟨rfl, rfl⟩

private theorem setConfig_settled (h : s.Settled) (line : LineConfig) : (s.setConfig line).1.Settled := by
  have hchar : ∀ v set (r : Ledit × LeditRslt), r.1.Settled → (setChar v set r).1.Settled := fun v set r hr hne => by
    obtain ⟨hiter, hstate⟩ := setChar_keeps v set r
    rw [hstate] at hne
    exact hiter.trans (hr hne)
  refine hchar _ _ _ (hchar _ _ _ (hchar _ _ _ (hchar _ _ _ ?_)))
  unfold setAtE
  split_ifs
  · exact h
  · exact h
  · exact h

end Ledit

/-- One source of AT commands. -/
def lineSource : Machine (Option Ledit × Nat) LeditCall := ⟨(· = (none, 0)), fun p c => some (alone p c).1⟩

/-- `ledit_get_next` is called while a line is being run. -/
def inLine (p : Option Ledit × Nat) (c : LeditCall) : Bool := decide (c = .getNext → ∀ s ∈ p.1, s.state = .runCmd)

private theorem serve_settled {s : Ledit} {b : Nat} {c : LeditCall} (h : s.Settled)
    (hok : c = .getNext → s.state = .runCmd) : ∀ t ∈ (s.serve b c).1.1, t.Settled := by
  intro t ht
  cases c with
  | setConfig line =>
    obtain rfl := Option.some.inj ht
    exact Ledit.setConfig_settled h line
  | cmd chars =>
    obtain rfl := Option.some.inj ht
    exact Ledit.cmd_settled h chars
  | text chars =>
    obtain rfl := Option.some.inj ht
    exact Ledit.text_settled h b chars
  | getNext =>
    obtain rfl := Option.some.inj ht
    have hstate := Ledit.split_state { s with cmdGetIter := (s.cmdGetIter + 1) % 256, cmdm := none }
    exact fun hne => absurd (hstate.trans (hok rfl)) hne
  | ctrl ctrl =>
    cases ctrl with
    | removeSrc => cases ht
    | cmpl =>
      obtain rfl := Option.some.inj ht
      exact fun _ => rfl
    | _ =>
      obtain rfl := Option.some.inj ht
      exact h

private theorem entry_settled {src : Option Ledit} (h : ∀ s ∈ src, s.Settled) : (entry src).Settled := by
  cases src with
  | none => exact fun _ => rfl
  | some s => exact h s rfl

/-- A source that is not running a line has the next one split from its beginning. -/
theorem lineSource_settled {p : Option Ledit × Nat} (hp : lineSource.Reach inLine p) : ∀ s ∈ p.1, s.Settled := by
  refine hp.invariant (I := fun p => ∀ s ∈ p.1, s.Settled) ?_ ?_
  · rintro p rfl s hs
    cases hs
  · rintro ⟨src, b⟩ c q h hok hstep
    obtain rfl := Option.some.inj hstep
    cases c with
    | getNext =>
      cases src with
      | none => exact h
      | some s => exact serve_settled (b := b) (c := .getNext) (h s rfl) fun _ => of_decide_eq_true hok rfl s rfl
    | setConfig line => exact serve_settled (entry_settled h) nofun
    | cmd chars => exact serve_settled (entry_settled h) nofun
    | text chars => exact serve_settled (entry_settled h) nofun
    | ctrl ctrl => exact serve_settled (entry_settled h) nofun

/-- A call with the end of a command line leaves the line to be run. -/
structure Ledit.Completes (s : Ledit) (chars : List Nat) (t : Ledit) : Prop where
  state : s.state ≠ .runCmd
  length : chars.length ≠ 0 ∧ chars.length ≤ maxCmdLen
  loop : Ledit.cmdLoop (2 * chars.length) { s with err := .none } .collect chars = (t, .exct)
  run : t.state = .runCmd

private theorem Ledit.Completes.cmd {s t : Ledit} {chars : List Nat} (h : s.Completes chars t) :
    s.cmd chars = Ledit.cleared t.runCmd := by
  have hcleared : Ledit.cleared (t, .exct) = (t, .exct) := if_neg nofun
  have hrepeat : ¬t.state = .repeat := by
    rw [h.run]
    nofun
  unfold Ledit.cmd
  dsimp only
  rw [if_neg h.state, if_neg (by have := h.length; omega), h.loop]
  unfold Ledit.finish
  rw [hcleared]
  dsimp only
  rw [if_neg nofun, if_neg hrepeat]
  dsimp only
  rw [if_neg nofun, if_pos h.run]

/-- When a line has been accepted and completed, `A/` has the same commands split off without the use of a buffer that
has been released, and each G and I of a dial string has got its case, exactly when the calls come to no dial command.
The letters of a dial command get their case exactly when the first place of the original line that reads like the dial
string has them so. -/
theorem line_repeat_iff {p : Option Ledit × Nat} (hp : lineSource.Reach inLine p) {chars : List Nat} {t : Ledit}
    (h : (entry p.1).Completes chars t) (hacc : ((entry p.1).cmd chars).2 = .cmpl) {a : Nat} (ha : a = 65 ∨ a = 97)
    (h3 : t.lineHabit.s3 ≠ a ∧ t.lineHabit.s3 ≠ 47) :
    ((t.Repeats a ∧ ∀ n, (∀ j < n, (t.answer j).2 = .cmpl) → (Ledit.next^[n] t.first).KeepsLetters) ↔
      ∀ i, Begins t.exec i → t.exec i ≠ 68) ∧
    ∀ n, (Ledit.next^[n] t.first).KeepsLetters ↔ (Ledit.next^[n] t.first).PlaceKeeps := by
  have hiter : t.execBufIter = 0 := by
    have hwaits := (Ledit.cmdLoop_waits (s := { entry p.1 with err := .none }) h.state (2 * chars.length) .collect chars).1
    rw [h.loop] at hwaits
    exact hwaits.trans (entry_settled (lineSource_settled hp) h.state)
  have hrslt : t.runCmd.2 = .cmpl := by
    rw [h.cmd] at hacc
    unfold Ledit.cleared at hacc
    split_ifs at hacc
    exact hacc
  exact ⟨Ledit.repeats_iff ⟨hiter, hrslt⟩ ha h3, fun n => Ledit.keepsLetters_iff _⟩

/-- The calls from an index on come to no dial command; `n` bounds their number. -/
def dialFree (b : Buf) : Nat → Nat → Bool
  | 0, _ => false
  | n + 1, i => b i != 68 && (b i == 0 || (commandEnd b i).all (dialFree b n))

theorem dialFree_begins {b : Buf} {n i : Nat} (h : dialFree b n 0 = true) (hb : Begins b i) : b i ≠ 68 := by
  suffices hfree : ∃ m, dialFree b m i = true by
    obtain ⟨m, hm⟩ := hfree
    cases m with
    | zero => cases hm
    | succ m => exact bne_iff_ne.1 (Bool.and_eq_true_iff.1 hm).1
  induction hb with
  | first => exact ⟨n, h⟩
  | @next i j _ hi hj ih =>
    obtain ⟨m, hm⟩ := ih
    cases m with
    | zero => cases hm
    | succ m =>
      have hrest := (Bool.and_eq_true_iff.1 hm).2
      rw [beq_eq_false_iff_ne.2 hi, Bool.false_or, hj] at hrest
      exact ⟨m, hrest⟩

namespace line

/-- The record after a line has been typed, before its commands are split off. -/
def entered (chars : List Nat) : Ledit :=
  (Ledit.cmdLoop (2 * chars.length) .getNewSrcMaintain .collect chars).1

private theorem entered_completes {chars : List Nat} (hlen : chars.length ≠ 0 ∧ chars.length ≤ maxCmdLen)
    (hend : (Ledit.cmdLoop (2 * chars.length) .getNewSrcMaintain .collect chars).2 = .exct)
    (hrun : (entered chars).state = .runCmd) : (entry none).Completes chars (entered chars) :=
  ⟨nofun, hlen, Prod.ext rfl hend, hrun⟩

/-- `AT+CREG=1;E0` and the end of the line -/
def undialled : List Nat := [65, 84, 43, 67, 82, 69, 71, 61, 49, 59, 69, 48, 13]

theorem line_repeat_iff_run :
    (entered undialled).Repeats 65 ∧ ∀ n, (∀ j < n, ((entered undialled).answer j).2 = .cmpl) →
      (Ledit.next^[n] (entered undialled).first).KeepsLetters :=
  (line_repeat_iff (.init rfl) (entered_completes (by decide) (by decide +kernel) (by decide +kernel)) (by decide +kernel)
    (Or.inl rfl) (by decide +kernel)).1.2 fun _ hb => dialFree_begins (n := 5) (by decide +kernel) hb

/-- `ATD5` and the end of the line -/
def dialled : List Nat := [65, 84, 68, 53, 13]

/-- `AT+X="DI1";Di1` and the end of the line -/
def quoted : List Nat := [65, 84, 43, 88, 61, 34, 68, 73, 49, 34, 59, 68, 105, 49, 13]

/-- `ATD5` is not repeated without the use of a buffer that has been released; in the other line the dial command gets
the letter of the text in quotes. -/
theorem dial_repeated :
    ((entry none).cmd dialled).2 = .cmpl ∧ ¬(entered dialled).Repeats 65 ∧
      ¬(Ledit.next^[1] (entered quoted).first).KeepsLetters := by
  refine ⟨by decide +kernel, ?_, ?_⟩
  · intro h
    exact Ledit.dial_uses ⟨by decide +kernel, by decide +kernel⟩ h .first (by decide +kernel)
  · intro h
    have hletter := h (by decide +kernel) 0 (by decide +kernel) (by decide +kernel)
    revert hletter
    decide +kernel

end line

end Citrine.Aci
