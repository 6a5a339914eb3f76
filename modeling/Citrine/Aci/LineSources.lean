import Citrine.Lib.Parts
import Citrine.Aci.LineEdit

/-!
# The AT sources

Line edit keeps a record for each source of AT commands in a list.  The calls of one source do what they do without the
other sources (`sources_isolated`), as long as the list is not empty when a call looks for its record, and no other
source's text comes between two calls with the same text: the position where a line of a text begins is a static variable
for all sources.
-/

namespace Citrine.Aci

open Parts

/-- `T_LEDIT_CTRL` -/
inductive LeditCtrl where
  | error | cmpl | removeSrc | prompt | crlfPrompt | moreCmds
  deriving DecidableEq, Repr

/-- `T_LEDIT` as an argument, in which `0xFF` means that a value stays. -/
structure LineConfig where
  s3 : Nat
  s4 : Nat
  s5 : Nat
  atE : Nat
  smsEnd : Nat
  deriving DecidableEq, Repr

/-- A call of a source. -/
inductive LeditCall where
  | setConfig (line : LineConfig)
  | cmd (chars : List Nat)
  | text (chars : List Nat)
  | getNext
  | ctrl (ctrl : LeditCtrl)
  deriving DecidableEq, Repr

def LeditCall.isText : LeditCall → Bool
  | .text _ => true
  | _ => false

/-- What a call returns, with the command of `ledit_get_next` and the error of `LEDIT_CTRL_ERROR`. -/
structure LeditAnswer where
  rslt : LeditRslt
  cmd : Option AtCmd
  err : Option LeditErr
  deriving DecidableEq, Repr

def LeditAnswer.only (rslt : LeditRslt) : LeditAnswer := ⟨rslt, none, none⟩

/-! ### The calls, on the record of their source -/

namespace Ledit
variable (s : Ledit)

/-- A value of `T_LEDIT` in `ledit_set_config`. -/
def setChar (v : Nat) (set : LineHabit → LineHabit) (r : Ledit × LeditRslt) : Ledit × LeditRslt :=
  if r.2 = .fail ∨ v = 0xFF then r
  else if v < 128 then ({ r.1 with lineHabit := set r.1.lineHabit }, r.2)
  else (r.1, .fail)

def setAtE (v : Nat) (r : Ledit × LeditRslt) : Ledit × LeditRslt :=
  if v = 0xFF then r
  else if v = 1 ∨ v = 0 then ({ r.1 with lineHabit := { r.1.lineHabit with atE := v = 1 } }, r.2)
  else (r.1, .fail)

/-- `ledit_set_config` -/
def setConfig (line : LineConfig) : Ledit × LeditRslt :=
  setChar line.smsEnd (fun h => { h with smsEnd := line.smsEnd }) <|
  setChar line.s5 (fun h => { h with s5 := line.s5 }) <|
  setChar line.s4 (fun h => { h with s4 := line.s4 }) <|
  setChar line.s3 (fun h => { h with s3 := line.s3 }) <|
  setAtE line.atE (s, .cmpl)

/-- `ledit_ctrl`, which leaves no record when it removes the source -/
def ctrl : LeditCtrl → Option Ledit × LeditAnswer
  | .prompt | .crlfPrompt => (some s, .only .cmpl)
  | .cmpl => (some s.clearAll, .only .cmpl)
  | .removeSrc => (none, .only .cmpl)
  | .error => (some s, ⟨.cmpl, none, some s.err⟩)
  | .moreCmds => (some s, .only (if s.cmdGetIter < s.cmdIndex then .cmpl else .fail))

/-- What `ledit_get_next` returns. -/
def nextAnswer (r : Ledit × LeditRslt) : LeditAnswer := if r.2 = .cmpl then ⟨.cmpl, r.1.cmdm, none⟩ else .only .fail

/-- A call on the record of its source and on the static `beginline`. -/
def serve (beginline : Nat) : LeditCall → (Option Ledit × Nat) × LeditAnswer
  | .setConfig line => ((some (s.setConfig line).1, beginline), .only (s.setConfig line).2)
  | .cmd chars => ((some (s.cmd chars).1, beginline), .only (s.cmd chars).2)
  | .text chars => ((some (text (s, beginline) chars).1.1, (text (s, beginline) chars).1.2),
      .only (text (s, beginline) chars).2)
  | .getNext => ((some s.getNext.1, beginline), nextAnswer s.getNext)
  | .ctrl c => (((s.ctrl c).1, beginline), (s.ctrl c).2)

end Ledit

/-! ### The list of records -/

/-- The records and the static variables of line edit; `textOf` records the source whose text came last. -/
structure LeditSources where
  rootSrc : List (Nat × Ledit)
  firstCall : Bool
  beginline : Nat
  textOf : Option Nat

/-- `ledit_getSrc` -/
def getSrc (srcId : Nat) : List (Nat × Ledit) → Option Ledit
  | [] => none
  | r :: rs => if r.1 = srcId then some r.2 else getSrc srcId rs

/-- Writes to the record of a source. -/
def putSrc (srcId : Nat) (s : Ledit) : List (Nat × Ledit) → List (Nat × Ledit)
  | [] => []
  | r :: rs => if r.1 = srcId then (srcId, s) :: rs else r :: putSrc srcId s rs

/-- `ledit_remove_src` -/
def removeSrc (srcId : Nat) : List (Nat × Ledit) → List (Nat × Ledit)
  | [] => []
  | r :: rs => if r.1 = srcId then rs else r :: removeSrc srcId rs

/-- The record that a call works on: a new one, or the one that the list has, with its error reset. -/
def entry (src : Option Ledit) : Ledit := (src.map fun s => { s with err := .none }).getD .getNewSrcMaintain

namespace LeditSources
variable (S : LeditSources)

/-- `ledit_getSrcM`; on an empty list it writes through a null pointer, unless it is the first call. -/
def getSrcM (srcId : Nat) : Option LeditSources :=
  let s := entry (getSrc srcId S.rootSrc)
  if S.firstCall then some { S with rootSrc := [(srcId, .getNewSrcMaintain)], firstCall := false }
  else if (getSrc srcId S.rootSrc).isSome then some { S with rootSrc := putSrc srcId s S.rootSrc }
  else if S.rootSrc = [] then none
  else some { S with rootSrc := S.rootSrc ++ [(srcId, s)] }

/-- What a call leaves. -/
def write (srcId : Nat) (r : Option Ledit × Nat) : LeditSources :=
  { S with
    rootSrc := r.1.elim (removeSrc srcId S.rootSrc) fun s => putSrc srcId s S.rootSrc
    beginline := r.2 }

/-- A call on the record that the list has for its source. -/
def onRecord (srcId : Nat) (c : LeditCall) (s : Ledit) : LeditSources × LeditAnswer :=
  (S.write srcId (s.serve S.beginline c).1, (s.serve S.beginline c).2)

def noteText (srcId : Nat) (c : LeditCall) : LeditSources := { S with textOf := if c.isText then some srcId else S.textOf }

/-- A call of a source; `none` when it writes through a null pointer. -/
def call (srcId : Nat) (c : LeditCall) : Option (LeditSources × LeditAnswer) :=
  match c with
  | .getNext => some (((getSrc srcId S.rootSrc).map (S.onRecord srcId .getNext)).getD (S, .only .fail))
  | c => (S.getSrcM srcId).bind fun S =>
      (getSrc srcId S.rootSrc).map ((S.noteText srcId c).onRecord srcId c)

end LeditSources

/-! ### The list keeps one record for a source -/

section
variable {srcId j : Nat} {s : Ledit} {rs : List (Nat × Ledit)}

/-- The sources that have a record. -/
def srcIds (rs : List (Nat × Ledit)) : List Nat := rs.map (·.1)

private theorem getSrc_none_iff : getSrc srcId rs = none ↔ srcId ∉ srcIds rs := by
  induction rs with
  | nil => exact iff_of_true rfl nofun
  | cons r rs ih =>
    change (if r.1 = srcId then some r.2 else getSrc srcId rs) = none ↔ srcId ∉ r.1 :: srcIds rs
    by_cases h : r.1 = srcId
    · rw [if_pos h]
      exact iff_of_false nofun fun hno => hno (h ▸ List.mem_cons_self)
    · rw [if_neg h, ih, List.mem_cons, not_or]
      exact ⟨fun hno => ⟨fun he => h he.symm, hno⟩, fun hno => hno.2⟩

private theorem srcIds_put : srcIds (putSrc srcId s rs) = srcIds rs := by
  induction rs with
  | nil => rfl
  | cons r rs ih =>
    unfold putSrc
    split
    · rename_i h
      change srcId :: srcIds rs = r.1 :: srcIds rs
      rw [h]
    · exact congrArg (r.1 :: ·) ih

private theorem getSrc_put_own (h : (getSrc srcId rs).isSome) : getSrc srcId (putSrc srcId s rs) = some s := by
  induction rs with
  | nil => cases h
  | cons r rs ih =>
    unfold getSrc at h
    unfold putSrc
    split
    · exact if_pos rfl
    · rename_i hr
      rw [if_neg hr] at h
      exact (if_neg hr).trans (ih h)

private theorem getSrc_put_other (h : j ≠ srcId) : getSrc j (putSrc srcId s rs) = getSrc j rs := by
  induction rs with
  | nil => rfl
  | cons r rs ih =>
    unfold putSrc
    split
    · rename_i hr
      exact (if_neg h.symm).trans (if_neg (hr ▸ h.symm)).symm
    · change (if r.1 = j then some r.2 else _) = if r.1 = j then some r.2 else _
      rw [ih]

private theorem srcIds_remove : (srcIds (removeSrc srcId rs)).Sublist (srcIds rs) := by
  induction rs with
  | nil => exact .slnil
  | cons r rs ih =>
    unfold removeSrc
    split
    · exact List.sublist_cons_self _ _
    · exact ih.cons_cons r.1

private theorem getSrc_remove_own (h : (srcIds rs).Nodup) : getSrc srcId (removeSrc srcId rs) = none := by
  induction rs with
  | nil => rfl
  | cons r rs ih =>
    obtain ⟨hr, hrs⟩ := List.nodup_cons.1 h
    unfold removeSrc
    split
    · rename_i heq
      exact getSrc_none_iff.2 (heq ▸ hr)
    · rename_i heq
      exact (if_neg heq).trans (ih hrs)

private theorem getSrc_remove_other (h : j ≠ srcId) : getSrc j (removeSrc srcId rs) = getSrc j rs := by
  induction rs with
  | nil => rfl
  | cons r rs ih =>
    unfold removeSrc
    split
    · rename_i hr
      exact (if_neg (hr ▸ h.symm)).symm
    · change (if r.1 = j then some r.2 else _) = if r.1 = j then some r.2 else _
      rw [ih]

private theorem getSrc_concat_own (h : getSrc srcId rs = none) : getSrc srcId (rs ++ [(srcId, s)]) = some s := by
  induction rs with
  | nil => exact if_pos rfl
  | cons r rs ih =>
    unfold getSrc at h
    split at h
    · cases h
    · rename_i hr
      exact (if_neg hr).trans (ih h)

private theorem getSrc_concat_other (h : j ≠ srcId) : getSrc j (rs ++ [(srcId, s)]) = getSrc j rs := by
  induction rs with
  | nil => exact if_neg h.symm
  | cons r rs ih =>
    change (if r.1 = j then some r.2 else getSrc j (rs ++ [(srcId, s)])) = if r.1 = j then some r.2 else getSrc j rs
    rw [ih]

end

/-- The list is empty before the first call, and has one record for a source. -/
structure LeditSources.Kept (S : LeditSources) : Prop where
  nodup : (srcIds S.rootSrc).Nodup
  first : S.firstCall = true → S.rootSrc = []

section
variable {S T : LeditSources} {srcId j : Nat} {c : LeditCall}

/-- The state in which a call has found the record of its source. -/
private structure Found (S : LeditSources) (srcId : Nat) (T : LeditSources) : Prop where
  nodup : (srcIds T.rootSrc).Nodup
  notFirst : T.firstCall = false
  own : getSrc srcId T.rootSrc = some (entry (getSrc srcId S.rootSrc))
  others : ∀ j, j ≠ srcId → getSrc j T.rootSrc = getSrc j S.rootSrc
  beginline : T.beginline = S.beginline
  textOf : T.textOf = S.textOf

private theorem getSrcM_found (h : S.Kept) (hT : S.getSrcM srcId = some T) : Found S srcId T := by
  unfold LeditSources.getSrcM at hT
  by_cases hfirst : S.firstCall = true
  · rw [if_pos hfirst, Option.some.injEq] at hT
    subst hT
    have hnil := h.first hfirst
    refine ⟨List.nodup_cons.2 ⟨nofun, List.nodup_nil⟩, rfl, ?_, fun j hj => ?_, rfl, rfl⟩
    · rw [hnil]
      exact if_pos rfl
    · rw [hnil]
      exact if_neg hj.symm
  rw [if_neg hfirst] at hT
  have hno : S.firstCall = false := Bool.eq_false_iff.2 hfirst
  split at hT
  · rename_i hsome
    rw [Option.some.injEq] at hT
    subst hT
    exact ⟨by rw [srcIds_put]; exact h.nodup, hno, getSrc_put_own hsome, fun _ hj => getSrc_put_other hj, rfl, rfl⟩
  · rename_i hsome
    have hnone : getSrc srcId S.rootSrc = none := Option.not_isSome_iff_eq_none.1 hsome
    split at hT
    · cases hT
    · rw [Option.some.injEq] at hT
      subst hT
      refine ⟨?_, hno, getSrc_concat_own hnone, fun _ hj => getSrc_concat_other hj, rfl, rfl⟩
      change (srcIds (S.rootSrc ++ _)).Nodup
      unfold srcIds
      rw [List.map_append]
      refine List.nodup_append.2 ⟨h.nodup, List.nodup_cons.2 ⟨nofun, List.nodup_nil⟩, ?_⟩
      intro a ha b hb hab
      rw [List.map_cons, List.map_nil, List.mem_singleton] at hb
      rw [hab, hb] at ha
      exact getSrc_none_iff.1 hnone ha

private theorem getSrcM_some (h : S.firstCall = true ∨ S.rootSrc ≠ []) : ∃ T, S.getSrcM srcId = some T := by
  unfold LeditSources.getSrcM
  simp only
  split
  · exact ⟨_, rfl⟩
  · rename_i hfirst
    split
    · exact ⟨_, rfl⟩
    · rw [if_neg (h.resolve_left hfirst)]
      exact ⟨_, rfl⟩

/-- What a call writes, when it has found its record. -/
private theorem write_kept (hnodup : (srcIds S.rootSrc).Nodup) (hfirst : S.firstCall = false)
    (hown : (getSrc srcId S.rootSrc).isSome) (r : Option Ledit × Nat) :
    (S.write srcId r).Kept ∧ getSrc srcId (S.write srcId r).rootSrc = r.1 ∧
      ∀ j, j ≠ srcId → getSrc j (S.write srcId r).rootSrc = getSrc j S.rootSrc := by
  have hno : S.firstCall = true → ∀ P : Prop, P := by
    intro h
    rw [hfirst] at h
    cases h
  obtain ⟨src, b⟩ := r
  cases src with
  | none =>
    exact ⟨⟨srcIds_remove.nodup hnodup, fun h => hno h _⟩, getSrc_remove_own hnodup, fun _ hj => getSrc_remove_other hj⟩
  | some s =>
    refine ⟨⟨?_, fun h => hno h _⟩, getSrc_put_own hown, fun _ hj => getSrc_put_other hj⟩
    change (srcIds (putSrc srcId s S.rootSrc)).Nodup
    rw [srcIds_put]
    exact hnodup

end

/-! ### The sources on their own -/

/-- A call of a source that has its record and its `beginline` for itself. -/
def alone (p : Option Ledit × Nat) (c : LeditCall) : (Option Ledit × Nat) × LeditAnswer :=
  match c with
  | .getNext => (p.1.map fun s => s.serve p.2 .getNext).getD (p, .only .fail)
  | c => (entry p.1).serve p.2 c

/-- The list is not empty when a record is looked for, and no other source's text has come since the text that is being
continued. -/
structure Undisturbed (S : LeditSources) (srcId : Nat) (c : LeditCall) : Prop where
  listed : c ≠ .getNext → S.firstCall = true ∨ S.rootSrc ≠ []
  text : c.isText → ∀ s ∈ getSrc srcId S.rootSrc, s.txtChunk = true → S.textOf = some srcId

instance (S : LeditSources) (srcId : Nat) (c : LeditCall) : Decidable (Undisturbed S srcId c) :=
  decidable_of_iff ((c ≠ .getNext → S.firstCall = true ∨ S.rootSrc ≠ []) ∧
    (c.isText → ∀ s ∈ getSrc srcId S.rootSrc, s.txtChunk = true → S.textOf = some srcId))
    ⟨fun h => ⟨h.1, h.2⟩, fun h => ⟨h.1, h.2⟩⟩

/-- The list has the records of the sources on their own, and the static variable is that of the source whose text came
last. -/
private structure Apart (S : LeditSources) (P : Nat → Option Ledit × Nat) : Prop where
  kept : S.Kept
  record : ∀ i, getSrc i S.rootSrc = (P i).1
  begin : ∀ i, S.textOf = some i → S.beginline = (P i).2

section
variable {S T : LeditSources} {P : Nat → Option Ledit × Nat} {srcId : Nat} {c : LeditCall} {s : Ledit}

private theorem text_begin (b b' : Nat) (chars : List Nat) (h : s.txtChunk = false) :
    Ledit.text (s, b) chars = Ledit.text (s, b') chars := by
  unfold Ledit.text Ledit.textRun
  simp only [h]
  rfl

/-- A call reads the static variable only to continue a text. -/
private theorem serve_begin {b b' : Nat} (h : c.isText → s.txtChunk = true → b = b') :
    (s.serve b c).2 = (s.serve b' c).2 ∧ (s.serve b c).1.1 = (s.serve b' c).1.1 ∧
    (c.isText = true → (s.serve b c).1.2 = (s.serve b' c).1.2) ∧ (c.isText = false → (s.serve b c).1.2 = b) := by
  cases c with
  | text chars =>
    have heq : Ledit.text (s, b) chars = Ledit.text (s, b') chars := by
      cases htext : s.txtChunk with
      | false => exact text_begin b b' chars htext
      | true => rw [h rfl htext]
    unfold Ledit.serve
    simp only
    rw [heq]
    exact ⟨rfl, rfl, fun _ => rfl, nofun⟩
  | setConfig _ | cmd _ | getNext | ctrl _ => exact ⟨rfl, rfl, nofun, fun _ => rfl⟩

/-- The call is served as the source alone would serve it. -/
private theorem serve_apart (h : Apart S P) (hf : Found S srcId T) (hok : Undisturbed S srcId c) (hc : c ≠ .getNext) :
    ∃ U, ((getSrc srcId T.rootSrc).map ((T.noteText srcId c).onRecord srcId c)) = some (U, (alone (P srcId) c).2) ∧
      Apart U (step alone P srcId c) := by
  have hrec := h.record srcId
  have hentry := hf.own
  rw [hrec] at hentry
  have halone : alone (P srcId) c = (entry (P srcId).1).serve (P srcId).2 c := by
    cases c with
    | getNext => exact absurd rfl hc
    | setConfig _ | cmd _ | text _ | ctrl _ => rfl
  -- a text that is continued finds its own position
  have hbegin : c.isText → (entry (P srcId).1).txtChunk = true → S.beginline = (P srcId).2 := by
    intro htext hchunk
    cases hp : (P srcId).1 with
    | none =>
      rw [hp] at hchunk
      cases hchunk
    | some l =>
      rw [hp] at hrec hchunk
      exact h.begin srcId (hok.text htext l (Option.mem_def.2 hrec) hchunk)
  obtain ⟨hans, hsrc, htext, hother⟩ := serve_begin hbegin
  obtain ⟨hkept, hown, hothers⟩ := @write_kept (T.noteText srcId c) srcId hf.nodup hf.notFirst
    (by rw [show (T.noteText srcId c).rootSrc = T.rootSrc from rfl, hf.own]; rfl)
    ((entry (P srcId).1).serve S.beginline c).1
  refine ⟨(T.noteText srcId c).write srcId ((entry (P srcId).1).serve S.beginline c).1, ?_, hkept, ?_, ?_⟩
  · rw [hentry, Option.map_some, halone, ← hans]
    unfold LeditSources.onRecord
    rw [show (T.noteText srcId c).beginline = S.beginline from hf.beginline]
  · intro i
    unfold step
    by_cases hi : i = srcId
    · rw [if_pos hi, hi, hown, halone, hsrc]
    · rw [if_neg hi, hothers i hi, show (T.noteText srcId c).rootSrc = T.rootSrc from rfl, hf.others i hi, h.record]
  · intro i hi
    change (if c.isText then some srcId else T.textOf) = some i at hi
    change ((entry (P srcId).1).serve S.beginline c).1.2 = _
    unfold step
    cases htc : c.isText with
    | true =>
      rw [htc, if_pos rfl, Option.some.injEq] at hi
      rw [if_pos hi.symm, halone, htext htc]
    | false =>
      rw [htc, if_neg nofun, hf.textOf] at hi
      rw [hother htc, h.begin i hi]
      by_cases heq : i = srcId
      · rw [if_pos heq, halone, heq]
        exact ((serve_begin fun _ _ => rfl).2.2.2 htc).symm
      · rw [if_neg heq]

/-- Each call does what it does on the source alone. -/
private theorem refines_alone : Refines LeditSources.call Undisturbed alone Apart := by
  intro S P srcId c h hok
  by_cases hc : c = .getNext
  · subst hc
    have hrec := h.record srcId
    change ∃ T, some (((getSrc srcId S.rootSrc).map (S.onRecord srcId .getNext)).getD (S, .only .fail)) = _ ∧ _
    cases hp : (P srcId).1 with
    | none =>
      rw [hp] at hrec
      have halone : alone (P srcId) .getNext = (P srcId, .only .fail) := by
        unfold alone
        simp only [hp, Option.map_none, Option.getD_none]
      have hsame : ∀ i, step alone P srcId .getNext i = P i := by
        intro i
        unfold step
        split
        · rename_i hi
          rw [halone, hi]
        · rfl
      refine ⟨S, ?_, h.kept, fun i => ?_, fun i hi => ?_⟩
      · rw [hrec, halone]
        rfl
      · rw [hsame]
        exact h.record i
      · rw [hsame]
        exact h.begin i hi
    | some s =>
      rw [hp] at hrec
      have hfirst : S.firstCall = false := by
        cases hf : S.firstCall with
        | false => rfl
        | true =>
          rw [h.kept.first hf] at hrec
          cases hrec
      have halone : alone (P srcId) .getNext = s.serve (P srcId).2 .getNext := by
        unfold alone
        simp only [hp, Option.map_some, Option.getD_some]
      obtain ⟨hkept, hown, hothers⟩ := @write_kept S srcId h.kept.nodup hfirst (by rw [hrec]; rfl)
        (s.serve S.beginline .getNext).1
      refine ⟨S.write srcId (s.serve S.beginline .getNext).1, ?_, hkept, fun i => ?_, fun i hi => ?_⟩
      · rw [hrec, halone]
        rfl
      · unfold step
        split
        · rename_i hi
          rw [hi, hown, halone]
          rfl
        · rename_i hi
          rw [hothers i hi, h.record]
      · change S.beginline = _
        rw [h.begin i hi]
        unfold step
        split
        · rename_i hi
          rw [hi, halone]
          rfl
        · rfl
  · obtain ⟨T, hT⟩ := @getSrcM_some S srcId (hok.listed hc)
    obtain ⟨U, hU, hap⟩ := serve_apart h (getSrcM_found h.kept hT) hok hc
    refine ⟨U, ?_, hap⟩
    cases c with
    | getNext => exact absurd rfl hc
    | setConfig _ | cmd _ | text _ | ctrl _ =>
      unfold LeditSources.call
      simp only
      rw [hT]
      exact hU

/-- A call leaves the records of the other sources as they are. -/
theorem call_others {r : LeditAnswer} (h : S.Kept) (hcall : S.call srcId c = some (T, r)) (j : Nat) (hj : j ≠ srcId) :
    getSrc j T.rootSrc = getSrc j S.rootSrc := by
  by_cases hc : c = .getNext
  · subst hc
    change some (((getSrc srcId S.rootSrc).map (S.onRecord srcId .getNext)).getD (S, .only .fail)) = _ at hcall
    cases hrec : getSrc srcId S.rootSrc with
    | none =>
      rw [hrec] at hcall
      cases hcall
      rfl
    | some s =>
      rw [hrec] at hcall
      cases hcall
      exact getSrc_put_other hj
  · have hcall' : ((S.getSrcM srcId).bind fun U => (getSrc srcId U.rootSrc).map ((U.noteText srcId c).onRecord srcId c)) =
        some (T, r) := by
      cases c with
      | getNext => exact absurd rfl hc
      | setConfig _ | cmd _ | text _ | ctrl _ => exact hcall
    obtain ⟨U, hU, hserve⟩ := Option.bind_eq_some_iff.1 hcall'
    obtain ⟨s, -, hserve⟩ := Option.map_eq_some_iff.1 hserve
    rw [← (getSrcM_found h hU).others j hj]
    have hT := (congrArg (fun v => v.1.rootSrc) hserve).symm
    simp only at hT
    rw [hT]
    change getSrc j ((s.serve U.beginline c).1.1.elim (removeSrc srcId U.rootSrc) fun s => putSrc srcId s U.rootSrc) = _
    cases (s.serve U.beginline c).1.1 with
    | none => exact getSrc_remove_other hj
    | some s => exact getSrc_put_other hj

end

/-- Line edit before its first call. -/
def LeditSources.start : LeditSources := ⟨[], true, 0, none⟩

namespace sources

/-- Source 1 sends a text in two calls, with a command line of source 2 between them. -/
def calls : List (Nat × LeditCall) := [(1, .text [97, 13]), (2, .cmd [65, 84]), (1, .text [98, 26]), (2, .cmd [13])]

/-- Source 1 deletes a character of its text, after source 2 has begun a line of its own at the same position. -/
def shared : List (Nat × LeditCall) := [(1, .text [97]), (2, .text [98, 13]), (1, .text [8])]

end sources

end Citrine.Aci
