import Citrine.Aci.LineFollowed

/-!
# Typing a command line

What `ledit_cmd` and `ledit_get_next` hand out for a line that is typed behind `AT`, in calls of any lengths: they are the
commands of the grammar on the text that `ledit_collect` stores (`handsOut_iff`).  Outside of a string the spaces are
dropped and the letters capitalized; the original line keeps the letters as they are typed.
-/

namespace Citrine.Aci

/-! ### Texts that are stored -/

/-- What `ledit_collect` stores for a text. -/
def collected : Bool → List Nat → List (Nat × Nat)
  | _, [] => []
  | str, c :: r => stored str c ++ collected (inString str [c]) r

/-- The original line. -/
def typedText (text : List Nat) : List Nat := (collected false text).map Prod.fst

/-- The line that is split. -/
def storedText (text : List Nat) : List Nat := (collected false text).map Prod.snd

section
variable {str : Bool} {l r text : List Nat} {c : Nat}

theorem collected_append : collected str (l ++ r) = collected str l ++ collected (inString str l) r := by
  induction l generalizing str with
  | nil => rfl
  | cons c l ih =>
    rw [List.cons_append, collected, collected, ih, List.append_assoc]
    rfl

private theorem collected_one (str : Bool) (c : Nat) : collected str [c] = stored str c := List.append_nil _

/-- A character that is not stored is no quotation mark. -/
private theorem inString_of_dropped (h : stored str c = []) : inString str [c] = str := by
  refine if_neg ?_
  rintro rfl
  cases h

private theorem collected_ne_zero : ∀ p ∈ collected str text, p.1 ≠ 0 ∧ p.2 ≠ 0 := by
  induction text generalizing str with
  | nil => nofun
  | cons c r ih =>
    intro p hp
    rcases List.mem_append.1 hp with hp | hp
    · exact stored_ne_zero p hp
    · exact ih p hp

/-- The codes of a line that is split are none of them 0. -/
theorem storedText_ne_zero : ∀ d ∈ storedText text, d ≠ 0 := by
  intro d hd
  obtain ⟨p, hp, rfl⟩ := List.mem_map.1 hd
  exact (collected_ne_zero p hp).2

/-- The codes of the original line are none of them 0. -/
theorem typedText_ne_zero : ∀ c ∈ typedText text, c ≠ 0 := by
  intro c hc
  obtain ⟨p, hp, rfl⟩ := List.mem_map.1 hc
  exact (collected_ne_zero p hp).1

end

/-! ### Typing -/

/-- The record of a source that waits for a line, as `ledit_clear_all` leaves it. -/
structure Ledit.Ready (s : Ledit) : Prop where
  state : s.state = .idle
  line : s.lineBuffer = none
  orig : s.origBuffer = none
  isStr : s.isStr = false
  copyIter : s.copyIter = 0
  origBufIter : s.origBufIter = 0
  execBufIter : s.execBufIter = 0

theorem Ledit.Ready.blank {s : Ledit} (hs : s.Ready) : s.Blank := by
  refine ⟨hs.state, hs.isStr, hs.copyIter, hs.origBufIter, hs.execBufIter, by rw [hs.line, hs.orig], fun j _ => ?_⟩
  unfold Ledit.line Ledit.orig
  rw [hs.line, hs.orig]
  exact ⟨rfl, rfl⟩

/-- Calls that type `AT`, a text and the character that ends the line; the buffer has room for what is stored, and no
character of the line is one of those that S3, S4 and S5 stand for. -/
structure Types (h : LineHabit) (text : List Nat) (calls : List (List Nat)) : Prop where
  whole : ∃ a t, (a = 97 ∨ a = 65) ∧ (t = 116 ∨ t = 84) ∧ (∀ c ∈ a :: t :: text, c ≠ h.s3 ∧ c ≠ h.s4 ∧ c ≠ h.s5) ∧
    calls.flatten = a :: t :: text ++ [h.s3]
  lengths : ∀ p ∈ calls, p ≠ [] ∧ p.length ≤ maxCmdLen
  fits : (collected false text).length + 2 ≤ maxCmdLen

section
variable {h : LineHabit} {l r text : List Nat} {c : Nat} {calls : List (List Nat)}

/-- The characters that are stored have the same quotation marks as what is typed. -/
theorem inString_typedText : inString false (typedText text) = inString false text := by
  have hall : ∀ str, inString str ((collected str text).map Prod.fst) = inString str text := by
    induction text with
    | nil => exact fun _ => rfl
    | cons c r ih =>
      intro str
      rw [show c :: r = [c] ++ r from rfl, inString_append, collected_append, collected_one, List.map_append,
        inString_append]
      rcases stored_cases str c with hc | ⟨d, hc⟩
      · rw [hc, inString_of_dropped hc]
        exact ih str
      · rw [hc]
        exact ih (inString str [c])
  exact hall false

/-- One more character is stored. -/
private theorem typed_key (h4 : c ≠ h.s4) (h5 : c ≠ h.s5) :
    Draft.key h ⟨.collect, collected false l⟩ c = ⟨.collect, collected false (l ++ [c])⟩ := by
  have hstr : inString false (Draft.typed ⟨.collect, collected false l⟩) = inString false l := inString_typedText
  rw [key_collect (show (⟨.collect, collected false l⟩ : Draft).state = .collect from rfl)]
  unfold Draft.character
  dsimp only
  rw [if_neg h4, if_neg h5, hstr, collected_append, collected_one]

private theorem typed_keys (hp : ∀ c ∈ r, c ≠ h.s3 ∧ c ≠ h.s4 ∧ c ≠ h.s5)
    (hfits : (collected false (l ++ r)).length + 2 ≤ maxCmdLen) :
    fitsDraft h ⟨.collect, collected false l⟩ r = true ∧
      r.foldl (Draft.key h) ⟨.collect, collected false l⟩ = ⟨.collect, collected false (l ++ r)⟩ := by
  have hroom : (collected false l).length + 2 ≤ maxCmdLen := by
    rw [collected_append, List.length_append] at hfits
    omega
  induction r generalizing l with
  | nil =>
    rw [List.append_nil]
    exact ⟨decide_eq_true hroom, rfl⟩
  | cons c r ih =>
    obtain ⟨h3, h4, h5⟩ := hp c List.mem_cons_self
    have hsplit : l ++ c :: r = (l ++ [c]) ++ r := by rw [List.append_assoc]; rfl
    rw [hsplit] at hfits ⊢
    have hnext : (collected false (l ++ [c])).length + 2 ≤ maxCmdLen := by
      rw [collected_append, List.length_append] at hfits
      omega
    obtain ⟨hrest, hfold⟩ := ih (fun b hb => hp b (List.mem_cons_of_mem _ hb)) hfits hnext
    rw [List.foldl_cons, fitsDraft, typed_key h4 h5, hrest, decide_eq_true hroom, bne_iff_ne.2 h3]
    exact ⟨rfl, hfold⟩

/-- A line without backspaces that is typed from cleared buffers leaves nothing behind. -/
theorem cleared_clean {s : Ledit} {keys : List Nat} (hs : s.Ready) (ht : Drafts s.lineHabit keys calls)
    (hp : ∀ c ∈ keys, c ≠ s.lineHabit.s5) : (sheet s.lineHabit s.line calls).Clean := by
  have hempty : Sheet.Clean ⟨⟨.idle, []⟩, s.line⟩ := fun j _ =>
    congrArg (fun b : Option Buf => b.getD Ledit.zeros j) hs.line
  refine hempty.all fun c hc => ?_
  rw [ht.whole] at hc
  rcases List.mem_append.1 hc with hc | hc
  · exact Or.inr (hp c hc)
  · exact Or.inl (List.mem_singleton.1 hc)

/-- The draft of a text that is typed behind `AT`. -/
theorem Types.drafts (ht : Types h text calls) :
    ∃ keys, Drafts h keys calls ∧ (∀ c ∈ keys, c ≠ h.s5) ∧
      draft h keys = ⟨if text = [] then .prefixT else .collect, collected false text⟩ := by
  obtain ⟨⟨a, b, ha, hb, hplain, hwhole⟩, hlengths, hfits⟩ := ht
  have ha3 := (hplain a List.mem_cons_self).1
  have hb3 := (hplain b (List.mem_cons_of_mem _ List.mem_cons_self)).1
  have htext : ∀ c ∈ text, c ≠ h.s3 ∧ c ≠ h.s4 ∧ c ≠ h.s5 := fun c hc =>
    hplain c (List.mem_cons_of_mem _ (List.mem_cons_of_mem _ hc))
  have hb47 : b ≠ 47 := by omega
  have hA : Draft.key h ⟨.idle, []⟩ a = ⟨.prefixA, []⟩ := if_pos ha
  have hT : Draft.key h ⟨.prefixA, []⟩ b = ⟨.prefixT, []⟩ := if_pos hb
  have hkeys : fitsDraft h ⟨.prefixT, []⟩ text = true ∧
      text.foldl (Draft.key h) ⟨.prefixT, []⟩ = ⟨if text = [] then .prefixT else .collect, collected false text⟩ := by
    cases text with
    | nil => exact ⟨rfl, rfl⟩
    | cons c r =>
      obtain ⟨h3, h4, h5⟩ := htext c List.mem_cons_self
      obtain ⟨hok, hfold⟩ := typed_keys (l := []) htext hfits
      have hfirst : Draft.key h ⟨.prefixT, []⟩ c = Draft.key h ⟨.collect, []⟩ c := by
        rw [key_prefixT (show (⟨.prefixT, []⟩ : Draft).state = .prefixT from rfl) h5,
          key_collect (show (⟨.collect, []⟩ : Draft).state = .collect from rfl)]
      rw [List.foldl_cons, fitsDraft, hfirst, if_neg (List.cons_ne_nil c r)]
      exact ⟨hok, hfold⟩
  refine ⟨a :: b :: text, ⟨hwhole, hlengths, ?_⟩, fun c hc => (hplain c hc).2.2, ?_⟩
  · rw [fitsDraft, fitsDraft, hA, hT, hkeys.1, bne_iff_ne.2 ha3, bne_iff_ne.2 hb3, beq_eq_false_iff_ne.2 hb47]
    rfl
  · unfold draft
    rw [List.foldl_cons, List.foldl_cons, hA, hT]
    exact hkeys.2

end


/-! ### The commands that are handed out -/

/-- The calls hand out these commands, and no further one. -/
def HandsOut (s : Ledit) (calls : List (List Nat)) (cs : List AtCmd) : Prop :=
  (∀ k, (hk : k < cs.length) → (reply s calls k).2 = .cmpl ∧ (reply s calls k).1.cmdm = some cs[k]) ∧
    (reply s calls cs.length).2 ≠ .cmpl

/-- The commands of the grammar on a text, as they are handed out. -/
inductive Handed (orig : Buf) : List Nat → List AtCmd → Prop
  | stop {r : List Nat} (h : commandOf r = none) : Handed orig r []
  | next {r : List Nat} {y : Parsed} {cs : List AtCmd} (h : commandOf r = some y) (hs : Handed orig y.rest cs) :
      Handed orig r (handedOut orig r y.cmd :: cs)

section
variable {s t u : Ledit} {text r l : List Nat} {y : Parsed} {calls : List (List Nat)} {cs cs' : List AtCmd} {orig : Buf}

/-- Behind a command whose parameter begins at the end of the text there is nothing. -/
theorem endsEmpty_commandOf {y : Parsed} (h : commandOf r = some y) (he : endsEmpty r = true) : y.rest = [] := by
  obtain ⟨z, hz, -, hrest⟩ := Split.endsEmpty_command he
  obtain rfl : y = z := Option.some.inj (h.symm.trans hz)
  exact hrest

/-- One call at a text; if a parameter begins at its end, the buffer is to be 0 behind the terminator. -/
theorem hand_step (h : (t.execBuffer.getD Ledit.zeros).Text t.execBufIter r) (hr : r ≠ []) (hn : r.length ≤ maxCmdLen)
    (hz : endsEmpty r = true → t.execBuffer.getD Ledit.zeros (t.execBufIter + r.length + 1) = 0) :
    (commandOf r = none → t.split.2 = .fail) ∧
    ∀ y, commandOf r = some y → t.split.2 = .cmpl ∧ t.split.1.cmdm = some (handedOut t.orig r y.cmd) ∧
      (t.next.execBuffer.getD Ledit.zeros).Text t.next.execBufIter y.rest ∧
      t.next.execBufIter + y.rest.length = t.execBufIter + r.length + (if endsEmpty r then 1 else 0) ∧
      (∀ j, t.next.execBufIter ≤ j → t.next.execBuffer.getD Ledit.zeros j = t.execBuffer.getD Ledit.zeros j) ∧
      t.next.orig = t.orig := by
  have hne : t.execBuffer.getD Ledit.zeros t.execBufIter ≠ 0 := mt h.first_eq_zero_iff.1 hr
  have htakes := Split.split_takes (x := t.splitting) h hr hn hz
  have hsplit : t.split =
      ({ t with
        execBuffer := some t.splitting.split.1.exec
        execBufIter := t.splitting.split.1.iter
        cmdm := some t.splitting.split.1.cmd
        cmdIndex := t.splitting.split.1.cmdIndex
        err := t.splitting.split.1.err }, t.splitting.split.2) := if_neg hne
  refine ⟨fun hnone => ?_, fun y hy => ?_⟩
  · rw [hnone] at htakes
    rw [hsplit]
    exact htakes
  · rw [hy] at htakes
    obtain ⟨hcmpl, htook⟩ := htakes
    have hspell := commandOf_spells hy
    have hlen := congrArg List.length hspell
    rw [List.length_append] at hlen
    have hiter := htook.iter
    have htext := htook.text h hspell fun he => ⟨endsEmpty_commandOf hy he, hz he⟩
    unfold Ledit.next
    rw [hsplit]
    refine ⟨hcmpl, congrArg some htook.cmd, htext, ?_, htook.behind, rfl⟩
    change t.splitting.split.1.iter + y.rest.length = _
    have hstart : t.splitting.iter = t.execBufIter := rfl
    omega

/-- The letters of a dial command depend on the original line alone. -/
theorem handed_letters (horig : t.orig.Text 0 l) (hl : l.length ≤ maxCmdLen) (hne : ∀ c ∈ l, c ≠ 0)
    (hr : ∀ c ∈ r, c ≠ 0) (hy : commandOf r = some y) : handedOut t.orig r y.cmd = handedOut (.ofList l) r y.cmd := by
  unfold handedOut AtCmd.restoredBy
  dsimp only
  by_cases hd : y.cmd.mType = .dial
  · rw [if_pos hd, if_pos hd]
    cases he : endsEmpty r with
    | true => rfl
    | false =>
      rw [if_neg nofun]
      cases hp : y.cmd.params with
      | none => rfl
      | some d =>
        have hsub : ∀ c ∈ d, c ∈ r := by
          intro c hc
          rw [← commandOf_spells hy]
          unfold AtCmd.spelling
          rw [hp, Option.getD_some]
          exact List.mem_append_left _ (List.mem_append_left _ (List.mem_append_right _ hc))
        rw [Option.map_some, Option.map_some, restored_congr horig (ofList_text hne) hl fun c hc => hr c (hsub c hc)]
  · rw [if_neg hd, if_neg hd]

/-- The calls for a text behind which the buffer is 0. -/
private theorem hand_run (hh : Handed (.ofList l) r cs) (h : (t.execBuffer.getD Ledit.zeros).Text t.execBufIter r)
    (hn : r.length ≤ maxCmdLen) (hz : ∀ j, t.execBufIter + r.length ≤ j → t.execBuffer.getD Ledit.zeros j = 0)
    (horig : t.orig.Text 0 l) (hl : l.length ≤ maxCmdLen) (hne : ∀ c ∈ l, c ≠ 0) (hcodes : ∀ c ∈ r, c ≠ 0) :
    (∀ k, (hk : k < cs.length) → (Ledit.next^[k] t).split.2 = .cmpl ∧ (Ledit.next^[k] t).split.1.cmdm = some cs[k]) ∧
      (Ledit.next^[cs.length] t).split.2 = .fail := by
  induction hh generalizing t with
  | @stop r hnone =>
    refine ⟨nofun, ?_⟩
    by_cases hr : r = []
    · subst hr
      exact Ledit.split_empty h
    · exact (hand_step h hr hn fun _ => hz _ (Nat.le_succ _)).1 hnone
  | @next r y cs hy _ ih =>
    have hr : r ≠ [] := by
      rintro rfl
      cases hy
    obtain ⟨hcmpl, hcmd, htext, hend, hbehind, hsame⟩ := (hand_step h hr hn fun _ => hz _ (Nat.le_succ _)).2 y hy
    have hzero : ∀ j, t.next.execBufIter + y.rest.length ≤ j → t.next.execBuffer.getD Ledit.zeros j = 0 := by
      intro j hj
      rw [hbehind j (by omega)]
      exact hz j (by omega)
    have hrest : ∀ c ∈ y.rest, c ≠ 0 := fun c hc => hcodes c (commandOf_spells hy ▸ List.mem_append_right _ hc)
    obtain ⟨hall, hlast⟩ := ih htext ((commandOf_shorter hy).le.trans hn) hzero (hsame ▸ horig) hrest
    refine ⟨fun k hk => ?_, hlast⟩
    cases k with
    | zero => exact ⟨hcmpl, hcmd.trans (congrArg some (handed_letters horig hl hne hcodes hy))⟩
    | succ k => exact hall k (Nat.lt_of_succ_lt_succ hk)

/-- Every text has commands, be they none. -/
theorem handed_exists (orig : Buf) (r : List Nat) : ∃ cs, Handed orig r cs := by
  induction hlen : r.length using Nat.strongRecOn generalizing r with
  | ind n ih =>
    subst hlen
    cases hc : commandOf r with
    | none => exact ⟨[], .stop hc⟩
    | some y =>
      obtain ⟨cs, hcs⟩ := ih y.rest.length (commandOf_shorter hc) y.rest rfl
      exact ⟨_, .next hc hcs⟩

private theorem HandsOut.le (h : HandsOut s calls cs) (h' : HandsOut s calls cs') : cs.length ≤ cs'.length :=
  Nat.le_of_not_lt fun hlt => h'.2 (h.1 cs'.length hlt).1

/-- The calls determine the commands that they hand out. -/
private theorem HandsOut.unique (h : HandsOut s calls cs) (h' : HandsOut s calls cs') : cs = cs' := by
  refine List.ext_getElem (Nat.le_antisymm (h.le h') (h'.le h)) fun k hk hk' => ?_
  exact Option.some.inj ((h.1 k hk).2.symm.trans (h'.1 k hk').2)

/-- The commands of a text are determined. -/
theorem Handed.unique (h : Handed orig r cs) (h' : Handed orig r cs') : cs = cs' := by
  induction h generalizing cs' with
  | stop hnone =>
    cases h' with
    | stop => rfl
    | next hy => exact absurd (hnone.symm.trans hy) nofun
  | @next r y cs hy _ ih =>
    cases h' with
    | stop hnone => exact absurd (hnone.symm.trans hy) nofun
    | @next _ z cs' hz hs' =>
      obtain rfl : y = z := Option.some.inj (hy.symm.trans hz)
      rw [ih hs']

private theorem reply_eq {n : Nat} (h : reply s calls 0 = u.answer 0) : reply s calls n = u.answer n := by
  induction n with
  | zero => exact h
  | succ n ih =>
    unfold reply
    rw [ih, Ledit.answer_succ]

/-- The calls for a line that is split answer what its splits do, up to the first one that fails. -/
theorem reply_splits {n : Nat} (h : reply s calls 0 = Ledit.cleared u.runCmd)
    (hall : ∀ k < n, (Ledit.next^[k] u.first).split.2 = .cmpl) (hlast : (Ledit.next^[n] u.first).split.2 = .fail) :
    (∀ k < n, reply s calls k = (Ledit.next^[k] u.first).split) ∧ (reply s calls n).2 ≠ .cmpl := by
  cases n with
  | zero =>
    have hfail : u.runCmd.2 = .fail := hlast
    refine ⟨nofun, ?_⟩
    rw [h]
    unfold Ledit.cleared
    rw [if_pos hfail]
    exact nofun
  | succ n =>
    have hcmpl : u.runCmd.2 = .cmpl := hall 0 (Nat.succ_pos n)
    have hstart : reply s calls 0 = u.answer 0 := by
      rw [h]
      unfold Ledit.cleared
      rw [if_neg (by rw [hcmpl]; exact nofun)]
      rfl
    refine ⟨fun k _ => reply_eq hstart, ?_⟩
    rw [reply_eq hstart]
    unfold Ledit.answer
    rw [hlast]
    exact nofun

/-- The commands of the grammar on the text that is stored are handed out, and no others. -/
theorem handsOut_iff (hs : s.Ready) (ht : Types s.lineHabit text calls) (hstr : inString false text = false) :
    ∃ cs, Handed (.ofList (typedText text)) (storedText text) cs ∧ ∀ cs', HandsOut s calls cs' ↔ cs' = cs := by
  obtain ⟨cs, hcs⟩ := handed_exists (.ofList (typedText text)) (storedText text)
  refine ⟨cs, hcs, ?_⟩
  suffices hout : HandsOut s calls cs from fun cs' => ⟨fun h => h.unique hout, fun h => h ▸ hout⟩
  obtain ⟨keys, hdrafts, hplain, hdraft⟩ := ht.drafts
  obtain ⟨hans, hsame⟩ := drafted_calls hs.blank hdrafts
  have hclean := cleared_clean hs hdrafts hplain
  rw [hdraft] at hsame
  generalize sheet s.lineHabit s.line calls = y at hans hsame hclean
  unfold Answers at hans
  rw [hsame] at hans
  by_cases hnil : text = []
  · subst hnil
    rw [if_neg fun hc => nomatch hc.1] at hans
    cases hcs with
    | stop => exact ⟨nofun, hans⟩
    | next h => cases h
  · rw [if_neg hnil, if_pos ⟨rfl, inString_typedText.trans hstr⟩] at hans
    obtain ⟨u, hu, hreply⟩ := hans
    have hline : y.draft.line = storedText text := congrArg Draft.line hsame
    have htyped : y.draft.typed = typedText text := congrArg Draft.typed hsame
    have hlen : (storedText text).length = (collected false text).length := List.length_map _
    have hlen' : (typedText text).length = (collected false text).length := List.length_map _
    have hfits := ht.fits
    have hexec : u.first.execBuffer.getD Ledit.zeros = y.buffer := congrArg (·.getD Ledit.zeros) hu.exec
    have hiter : u.first.execBufIter = 0 := hu.iter
    obtain ⟨hall, hlast⟩ := hand_run (t := u.first) hcs (by rw [hexec, hiter, ← hline]; exact hu.text) (by omega)
      (fun j hj => by
        rw [hexec]
        refine hclean j ?_
        rw [hsame]
        dsimp only
        omega) (htyped ▸ hu.orig) (by omega) typedText_ne_zero storedText_ne_zero
    obtain ⟨hsplits, hend⟩ := reply_splits hreply (fun k hk => (hall k hk).1) hlast
    refine ⟨fun k hk => ?_, hend⟩
    rw [hsplits k hk]
    exact hall k hk

end

end Citrine.Aci
