/-!
# Splitting an AT command line

`line_split.c`: a command line is split into single commands, one with each call of `ledit_split`.  A buffer is a function
on its indices that is 0 behind its end; characters are given by their codes.
-/

namespace Citrine.Aci

/-! ### Buffers -/

/-- A `char` array. -/
abbrev Buf := Nat → Nat

/-- `MAX_CMD_LEN` -/
def maxCmdLen : Nat := 0x17c

def Buf.put (b : Buf) (i v : Nat) : Buf := fun j => if j = i then v else b j

/-- The octets from an index on. -/
def Buf.slice (b : Buf) (i len : Nat) : List Nat := (List.range len).map fun k => b (i + k)

/-- The string from an index on, up to its terminator or the end of the buffer. -/
def Buf.str (b : Buf) (i : Nat) : List Nat := (b.slice i (maxCmdLen + 1 - i)).takeWhile (· ≠ 0)

/-! ### Characters -/

def isDigit (c : Nat) : Bool := decide (48 ≤ c) && decide (c ≤ 57)
def isUpper (c : Nat) : Bool := decide (65 ≤ c) && decide (c ≤ 90)
def isLower (c : Nat) : Bool := decide (97 ≤ c) && decide (c ≤ 122)
def isAlpha (c : Nat) : Bool := isUpper c || isLower c
def isSpace (c : Nat) : Bool := c == 32 || (decide (9 ≤ c) && decide (c ≤ 13))
def toUpper (c : Nat) : Nat := if isLower c then c - 32 else c

/-- `T_LEDIT_CHAR_TYPE` -/
inductive CharType where
  | terminated | percent | and | plus | comma | number | separator | set | read | char | ext | invalid
  deriving DecidableEq, Repr

/-- `ledit_lookAhead` -/
def lookAhead (c : Nat) : CharType :=
  if c = 0 then .terminated
  else if c = 37 then .percent
  else if c = 38 then .and
  else if c = 43 then .plus
  else if c = 44 then .comma
  else if c = 61 then .set
  else if c = 59 then .separator
  else if c = 63 then .read
  else if isDigit c then .number
  else if isUpper c then .char
  else if (33 ≤ c ∧ c ≤ 95) ∨ (123 ≤ c ∧ c ≤ 127) then .ext
  else .invalid

/-- The first column of `basic_ATcmd`. -/
inductive BasicCmd where
  | noSupp | support | dial | sParam
  deriving DecidableEq, Repr

/-- `ledit_check_valid_basic_cmd` -/
def checkValidBasicCmd (c : Nat) : BasicCmd :=
  if c = 68 then .dial
  else if c = 83 then .sParam
  -- A, B, E, F, H, I, L, M, O, P, Q, T, V, W, X, Z
  else if c ∈ [65, 66, 69, 70, 72, 73, 76, 77, 79, 80, 81, 84, 86, 87, 88, 90] then .support
  else .noSupp

/-- `ledit_check_valid_and_cmd`: C, D, F, K, W -/
def checkValidAndCmd (c : Nat) : Bool := decide (c ∈ [67, 68, 70, 75, 87])

/-! ### Results -/

/-- `T_LEDIT_RSLT` -/
inductive LeditRslt where
  | fail | exct | cmpl | collect | esc | ok | ignore
  deriving DecidableEq, Repr

/-- `T_LEDIT_ERR_CODE` -/
inductive LeditErr where
  | none | noMemory | noMaintenance | noValidCommand | lastCmdPending | unknown
  deriving DecidableEq, Repr

/-- `T_LEDIT_ATCMD_MAINTYPE` -/
inductive MainType where
  | nil | and | basic | dial | extended | s
  deriving DecidableEq, Repr

/-- `T_LEDIT_ATCMD_SUBTYPE` -/
inductive SubType where
  | nil | query | set | test
  deriving DecidableEq, Repr

/-- `T_LEDIT_ATCMD`; the name and the parameters are the octets that have been copied. -/
structure AtCmd where
  mType : MainType
  sType : SubType
  appendFlag : Bool
  name : Option (List Nat)
  params : Option (List Nat)
  deriving DecidableEq, Repr

/-- What `ledit_get_cmd_mem` allocates. -/
def AtCmd.empty : AtCmd := ⟨.nil, .nil, false, none, none⟩

/-- The part of `T_LEDIT_INTERN` that is used to split a line. -/
structure Split where
  exec : Buf
  iter : Nat
  orig : Buf
  cmd : AtCmd
  cmdIndex : Nat
  err : LeditErr

/-! ### Lengths -/

/-- The index of the first octet that is not a digit. -/
def digitsEnd (b : Buf) : Nat → Nat → Nat
  | 0, i => i
  | n + 1, i => if isDigit (b i) then digitsEnd b n (i + 1) else i

/-- The loop over a parameter: it stops at a semicolon, and at a terminator that it has stepped to. -/
def paramEnd (b : Buf) : Nat → Nat → Nat
  | 0, i => i
  | n + 1, i => if b i = 59 then i else if b (i + 1) = 0 then i + 1 else paramEnd b n (i + 1)

/-- `T_LEDIT_PARAM_TYPE` -/
inductive ParamType where
  | basic | dial | ext
  deriving DecidableEq, Repr

/-- `ledit_get_para_len` -/
def getParaLen (b : Buf) (iter : Nat) : ParamType → Nat
  | .basic => digitsEnd b (maxCmdLen + 1) iter - iter
  | .dial =>
    let i := paramEnd b (maxCmdLen + 1) iter
    (if b i = 59 then i + 1 else i) - iter
  | .ext => paramEnd b (maxCmdLen + 1) iter - iter

/-- `LEDIT_MAX_S_NAME_LEN` -/
def maxSNameLen : Nat := 2

/-- The loop over the name of an extended command (`ext`) or of `ATSnn`. -/
def nameEnd (b : Buf) (iter : Nat) (ext : Bool) : Nat → Nat → Nat
  | 0, _ => 0
  | n + 1, i =>
    if b i = 0 then 0
    else if !ext && decide (i > iter) && (!isDigit (b i) || decide (i - iter > maxSNameLen)) then 0
    else
      let i := i + 1
      if b i = 0 then i - iter
      else if b i = 61 then
        if b (i + 1) ≠ 63 then i - iter
        else if b (i + 2) ≠ 0 ∧ b (i + 2) ≠ 59 then 0
        else i - iter
      else if b i = 63 then
        if b (i + 1) ≠ 0 ∧ b (i + 1) ≠ 59 then 0 else i - iter
      else if b i = 59 then i - iter
      else nameEnd b iter ext n i

/-- `ledit_get_name_len` -/
def getNameLen (b : Buf) (iter : Nat) (ext : Bool) : Nat :=
  let i := if ext then iter + 1 else iter
  if isUpper (b i) then nameEnd b iter ext (maxCmdLen + 1) i else 0

/-! ### The letters of a dial string -/

def skipSpaces (b : Buf) : Nat → Nat → Nat
  | 0, i => i
  | n + 1, i => if isSpace (b i) then skipSpaces b n (i + 1) else i

/-- The first `n` characters from `p` on are those of the original dial string from `o` on, up to spaces and case. -/
def matchesDial (exec orig : Buf) : Nat → Nat → Nat → Bool
  | 0, _, _ => true
  | n + 1, p, o =>
    let o := skipSpaces orig (maxCmdLen + 1) o
    if orig o = exec p ∨ (isAlpha (orig o) ∧ isAlpha (exec p) ∧ toUpper (orig o) = toUpper (exec p)) then
      matchesDial exec orig n (p + 1) (o + 1)
    else false

/-- The letters G and I are copied from the original dial string. -/
def copyDial (orig : Buf) : Nat → Nat → Nat → Buf → Buf
  | 0, _, _, exec => exec
  | n + 1, p, o, exec =>
    let o := skipSpaces orig (maxCmdLen + 1) o
    copyDial orig n (p + 1) (o + 1) (if exec p = 71 ∨ exec p = 73 then exec.put p (orig o) else exec)

/-- The loop over the original line. -/
def restoreFrom (exec orig : Buf) (iter len : Nat) : Nat → Nat → Buf
  | 0, _ => exec
  | n + 1, o =>
    if (orig o = 100 ∨ orig o = 68) ∧ matchesDial exec orig len iter (o + 1) then copyDial orig len iter (o + 1) exec
    else restoreFrom exec orig iter len n (o + 1)

/-- `ledit_restore_dial_string` -/
def restoreDialString (exec : Buf) (iter len : Nat) (orig : Buf) : Buf :=
  if (exec.slice iter len).any fun c => c == 71 || c == 73 then restoreFrom exec orig iter len (orig.str 0).length 0
  else exec

/-! ### Commands -/

namespace Split
variable (s : Split)

/-- `ledit_assign_name` -/
def assignName (len : Nat) : Split :=
  { s with cmd := { s.cmd with name := some (s.exec.slice s.iter len) }, iter := s.iter + len }

/-- `ledit_assign_param` -/
def assignParam (pType : ParamType) : Split :=
  let len := getParaLen s.exec s.iter pType
  let exec := if pType = .dial then restoreDialString s.exec s.iter len s.orig else s.exec
  { s with
    exec := exec
    cmd := { s.cmd with params := some (exec.slice s.iter len) }
    iter := if pType = .ext ∧ exec (s.iter + len) ≠ 0 then s.iter + len + 1 else s.iter + len }

def setType (mType : MainType) (sType : SubType) (appendFlag : Bool) : Split :=
  { s with cmd := { s.cmd with mType := mType, sType := sType, appendFlag := appendFlag } }

def failed (err : LeditErr) : Split × LeditRslt := ({ s with err := err }, .fail)

/-- `ledit_extended_type` -/
def extendedType (mType : MainType) : Split :=
  match lookAhead (s.exec s.iter) with
  | .set =>
    if lookAhead (s.exec (s.iter + 1)) = .read then { s with iter := s.iter + 2 }.setType mType .test true
    else { s with iter := s.iter + 1 }.setType mType .set true
  | .read => { s with iter := s.iter + 1 }.setType mType .query true
  | _ => s.setType mType .set false

/-- `ledit_extended_cmd` and `ledit_s_cmd` -/
def namedCmd (ext : Bool) : Split × LeditRslt :=
  let len := getNameLen s.exec s.iter ext
  if len ≠ 0 then
    (((s.assignName len).extendedType (if ext then .extended else .s)).assignParam (if ext then .ext else .basic), .cmpl)
  else s.failed .noValidCommand

/-- `ledit_dial` -/
def dial : Split × LeditRslt :=
  let s := ((s.setType .dial .set false).assignName 1).assignParam .dial
  if s.exec s.iter ≠ 0 then (s, .fail) else (s, .cmpl)

/-- `ledit_and_basic_cmd` -/
def andBasicCmd : Split × LeditRslt :=
  let s := { s with iter := s.iter + 1 }
  if checkValidAndCmd (s.exec s.iter) then (((s.setType .and .query false).assignName 1).assignParam .basic, .cmpl)
  else s.failed .noValidCommand

/-- `ledit_basic_cmd` -/
def basicCmd : Split × LeditRslt :=
  match checkValidBasicCmd (s.exec s.iter) with
  | .support => (((s.setType .basic .set false).assignName 1).assignParam .basic, .cmpl)
  | .dial => s.dial
  | .sParam => s.namedCmd false
  | .noSupp => s.failed .noValidCommand

/-- The single command at the iterator. -/
def oneCmd : Split × LeditRslt :=
  let c := s.exec s.iter
  if isAlpha c then s.basicCmd else if c = 38 then s.andBasicCmd else s.namedCmd true

/-- `ledit_split`, for an iterator that is not at the end of the line -/
def split : Split × LeditRslt :=
  let (s, rslt) := { s with cmd := .empty }.oneCmd
  if rslt = .fail then (s, .fail)
  else
    match lookAhead (s.exec s.iter) with
    | .percent | .and | .plus | .char | .ext => ({ s with cmdIndex := (s.cmdIndex + 1) % 256 }, .cmpl)
    | .terminated => (s, .cmpl)
    | _ => (s, .fail)

end Split

end Citrine.Aci
