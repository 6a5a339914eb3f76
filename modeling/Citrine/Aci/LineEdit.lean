import Citrine.Aci.LineSplit

/-!
# The AT line editor

`line_edit.c`, for one source of AT commands: the state machine of the command mode, which collects a command line, and
the text mode, which collects the text of a short message.  A call works on the octets it is given; what remains of them
when it returns is dropped.
-/

namespace Citrine.Aci

/-- `T_LEDIT` -/
structure LineHabit where
  s3 : Nat
  s4 : Nat
  s5 : Nat
  atE : Bool
  smsEnd : Nat
  deriving DecidableEq, Repr

/-- The state functions. -/
inductive LeditState where
  | idle | prefixA | prefixT | collect | repeat | runCmd
  deriving DecidableEq, Repr

/-- `T_LEDIT_INTERN` -/
structure Ledit where
  isStr : Bool
  copyIter : Nat
  lineBuffer : Option Buf
  origBuffer : Option Buf
  origBufIter : Nat
  execBuffer : Option Buf
  execBufIter : Nat
  smsBuffer : Option (List Nat)
  txtChunk : Bool
  cmdm : Option AtCmd
  cmdIndex : Nat
  cmdGetIter : Nat
  state : LeditState
  lineHabit : LineHabit
  err : LeditErr

namespace Ledit
variable (s : Ledit)

/-! ### Buffers -/

def zeros : Buf := fun _ => 0

/-- The buffer of the line, empty when it is not allocated. -/
def line : Buf := s.lineBuffer.getD zeros

def orig : Buf := s.origBuffer.getD zeros

/-- `ledit_clear_lineBuf` -/
def clearLineBuf : Ledit := { s with lineBuffer := some zeros, origBuffer := some zeros }

/-- Writes a character to both buffers, and steps behind it. -/
def store (o c : Nat) : Ledit :=
  { s with
    origBuffer := s.origBuffer.map fun b => b.put s.origBufIter o
    origBufIter := s.origBufIter + 1
    lineBuffer := s.lineBuffer.map fun b => b.put s.copyIter c
    copyIter := s.copyIter + 1 }

/-- Terminates both buffers. -/
def terminate : Ledit :=
  { s with
    origBuffer := s.origBuffer.map fun b => b.put s.origBufIter 0
    lineBuffer := s.lineBuffer.map fun b => b.put s.copyIter 0 }

def setState (state : LeditState) : Ledit := { s with state := state }

/-- `ledit_clear_all` -/
def clearAll : Ledit :=
  { s with
    cmdm := none
    smsBuffer := none
    lineBuffer := none
    origBuffer := none
    txtChunk := false
    copyIter := 0
    origBufIter := 0
    execBufIter := 0
    cmdGetIter := 0
    cmdIndex := 0
    isStr := false
    state := .idle }

/-- `ledit_initial` -/
def initialHabit : LineHabit := ⟨13, 10, 8, true, 0x1a⟩

/-- `ledit_getNewSrcMaintain` -/
def getNewSrcMaintain : Ledit :=
  { isStr := false, copyIter := 0, lineBuffer := none, origBuffer := none, origBufIter := 0, execBuffer := none,
    execBufIter := 0, smsBuffer := none, txtChunk := false, cmdm := none, cmdIndex := 0, cmdGetIter := 0, state := .idle,
    lineHabit := initialHabit, err := .none }

/-- `ledit_backup` -/
def backup : Ledit := { s with execBuffer := some s.line, lineBuffer := none }

/-! ### Splitting -/

/-- `ledit_split` -/
def split : Ledit × LeditRslt :=
  let exec := s.execBuffer.getD zeros
  if exec s.execBufIter = 0 then (s, .fail)
  else
    let (r, rslt) := Split.split ⟨exec, s.execBufIter, s.orig, .empty, s.cmdIndex, s.err⟩
    ({ s with
        execBuffer := some r.exec
        execBufIter := r.iter
        cmdm := some r.cmd
        cmdIndex := r.cmdIndex
        err := r.err }, rslt)

/-- `ledit_run_cmd` -/
def runCmd : Ledit × LeditRslt := split { s with cmdIndex := 1, cmdGetIter := 1, cmdm := none }

/-! ### The command mode -/

/-- `ledit_idle` -/
def idle (c : Nat) : Ledit × LeditRslt :=
  if c = s.lineHabit.s3 then (s, .ok)
  else if c = 97 ∨ c = 65 then (s.setState .prefixA, .collect)
  else (s, .ignore)

/-- `ledit_prefix_a` -/
def prefixA (c : Nat) : Ledit × LeditRslt :=
  if c = s.lineHabit.s3 then (s, .fail)
  else if c = 47 then (s.setState .repeat, .exct)
  else if c = 116 ∨ c = 84 then (s.setState .prefixT, .collect)
  else if c = s.lineHabit.s5 then (s.setState .idle, .collect)
  else (s, .ignore)

/-- `ledit_repeat` -/
def repeatCmd : Ledit × LeditRslt :=
  if s.execBuffer.getD zeros 0 ≠ 0 then ({ s with lineBuffer := none, origBuffer := none, state := .runCmd }, .exct)
  else (s, .fail)

/-- The end of the line in `ledit_collect`. -/
def endLine : Ledit × LeditRslt :=
  let s := s.terminate
  if s.isStr then ({ s with err := .noValidCommand }, .fail)
  else ({ s.backup with state := .runCmd, origBufIter := 0, copyIter := 0 }, .exct)

/-- A backspace in `ledit_collect`. -/
def backspace : Ledit :=
  { s with
    isStr := if s.orig ((s.origBufIter + 65535) % 65536) = 34 then !s.isStr else s.isStr
    copyIter := s.copyIter - 1
    origBufIter := s.origBufIter - 1 }

/-- A character of the line in `ledit_collect`. -/
def character (c : Nat) : Ledit :=
  if c = 32 then if s.isStr then s.store c c else s
  else if 32 < c ∧ c < 128 then
    let s := if c = 34 then { s with isStr := !s.isStr } else s
    s.store c (if !s.isStr && isLower c then c - 32 else c)
  else s

/-- The loop of `ledit_collect`, with the octets that it leaves. -/
def collectLoop (s : Ledit) : List Nat → Ledit × LeditRslt × List Nat
  | [] => (s.terminate, .collect, [])
  | c :: cs =>
    if s.copyIter + 2 = maxCmdLen ∧ c ≠ s.lineHabit.s3 ∧ c ≠ s.lineHabit.s5 then (s, .ignore, cs)
    else if c = s.lineHabit.s3 then
      let (s, rv) := s.endLine
      (s, rv, cs)
    else if c = s.lineHabit.s4 then collectLoop s cs
    else if c = s.lineHabit.s5 then
      let s := s.backspace
      if s.copyIter = 0 then ((s.setState .prefixT).terminate, .collect, cs) else collectLoop s cs
    else collectLoop (s.character c) cs

/-- `ledit_collect` -/
def collect (cs : List Nat) : Ledit × LeditRslt × List Nat :=
  collectLoop (if s.lineBuffer.isNone then s.clearLineBuf else s) cs

/-- A call of the state function, with the octets that it leaves. -/
def stateFn (c : Nat) (cs : List Nat) : Ledit × LeditRslt × List Nat :=
  match s.state with
  | .idle => let (s, rv) := s.idle c; (s, rv, cs)
  | .prefixA => let (s, rv) := s.prefixA c; (s, rv, cs)
  -- `ledit_prefix_t`, which leaves the first character of a command to `ledit_collect`
  | .prefixT =>
    if c = s.lineHabit.s3 then (s, .ok, cs)
    else if c = s.lineHabit.s5 then (s.setState .prefixA, .collect, cs)
    else (s.setState .collect, .collect, c :: cs)
  | .collect => s.collect (c :: cs)
  | .repeat => let (s, rv) := s.repeatCmd; (s, rv, cs)
  | .runCmd => let (s, rv) := s.runCmd; (s, rv, cs)

/-- The loop of `ledit_cmd`. -/
def cmdLoop : Nat → Ledit → LeditRslt → List Nat → Ledit × LeditRslt
  | n + 1, s, rv, c :: cs =>
    if rv = .collect ∨ rv = .ignore then
      let (s, rv, cs) := s.stateFn c cs
      cmdLoop n s rv cs
    else (s, rv)
  | _, s, rv, _ => (s, rv)

/-- A state function has failed. -/
def cleared (r : Ledit × LeditRslt) : Ledit × LeditRslt := if r.2 = .fail then (r.1.clearAll, .fail) else r

/-- What `ledit_cmd` does after its loop. -/
def finish (r : Ledit × LeditRslt) : Ledit × LeditRslt :=
  let (s, rv) := cleared r
  if rv = .fail then (s, rv)
  else
    let (s, rv) := if s.state = .repeat then cleared s.repeatCmd else (s, rv)
    if rv = .fail then (s, rv)
    else if s.state = .runCmd then cleared s.runCmd else (s, rv)

/-- `ledit_cmd` -/
def cmd (chars : List Nat) : Ledit × LeditRslt :=
  let s := { s with err := .none }
  if s.state = .runCmd then ({ s with err := .lastCmdPending }, .fail)
  else if chars.length = 0 ∨ maxCmdLen < chars.length then ({ s with err := .noValidCommand }, .fail)
  else finish (cmdLoop (2 * chars.length) s .collect chars)

/-- `ledit_get_next` -/
def getNext : Ledit × LeditRslt :=
  split { s with cmdGetIter := (s.cmdGetIter + 1) % 256, cmdm := none }

/-! ### The text mode -/

/-- The end of a text. -/
def endText : Ledit × LeditRslt :=
  let s := s.store 0 0
  ({ s with smsBuffer := some (s.line.str 0), txtChunk := false }, .cmpl)

/-- The loop of `ledit_text`, with the octets from `srcBufIter` on; `beginline` is the first position in the current
line. -/
def textLoop (s : Ledit) (beginline : Nat) : List Nat → (Ledit × Nat) × LeditRslt × List Nat
  | [] => ((s, beginline), .collect, [])
  | c :: cs =>
    if s.copyIter = maxCmdLen ∧ c ≠ 27 ∧ c ≠ s.lineHabit.s5 ∧ c ≠ s.lineHabit.smsEnd then
      ((s, beginline), .ignore, c :: cs)
    else if c = 27 then (({ s with smsBuffer := none, txtChunk := false }, beginline), .esc, c :: cs)
    else if c = s.lineHabit.smsEnd then
      let (s, rv) := s.endText
      ((s, beginline), rv, c :: cs)
    else if c = s.lineHabit.s3 then textLoop (s.store 10 10) (s.copyIter + 1) cs
    else if c = s.lineHabit.s4 then textLoop s beginline cs
    else if c = s.lineHabit.s5 then
      if s.copyIter > beginline then
        (({ s with origBufIter := s.origBufIter - 1, copyIter := s.copyIter - 1 }, beginline), .collect, c :: cs)
      else ((s, beginline), .ignore, c :: cs)
    else textLoop (s.store c c) beginline cs

/-- `ledit_text`, with the octets from `srcBufIter` on -/
def textRun (x : Ledit × Nat) (chars : List Nat) : (Ledit × Nat) × LeditRslt × List Nat :=
  let s := { x.1 with err := .none }
  if s.txtChunk then textLoop s x.2 chars
  else textLoop { s.clearLineBuf with txtChunk := true } 0 chars

/-- `ledit_text`, on a source and on the static `beginline` -/
def text (x : Ledit × Nat) (chars : List Nat) : (Ledit × Nat) × LeditRslt :=
  let (x, rv, _) := textRun x chars
  (x, rv)

/-- `ledit_get_text`, for a text that has been completed -/
def getText : Option (List Nat) := s.smsBuffer

end Ledit

end Citrine.Aci
