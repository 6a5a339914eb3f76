import Citrine.Aci.LineTyped

/-!
# Quoted parameters

A parameter in quotation marks that is typed with a command line.  `ledit_collect` leaves the characters of a string as they
are, but `ledit_get_para_len` does not know strings and ends the parameter at a semicolon; and the letters of a dial command
at the end of the line are read from the first place of the line that looks like it, be it in a string.  The parameter and
the other commands come out unchanged exactly when neither happens (`quoted_iff`).
-/

namespace Citrine.Aci

/-! ### Longer texts -/

section
variable {p : Nat → Bool} {l r t w q : List Nat} {c : Nat} {y : Parsed} {ys : List Parsed}

private theorem span_append (h : l.dropWhile p ≠ []) :
    (l ++ t).takeWhile p = l.takeWhile p ∧ (l ++ t).dropWhile p = l.dropWhile p ++ t := by
  induction l with
  | nil => exact absurd rfl h
  | cons c l ih =>
    cases hc : p c with
    | false =>
      rw [List.cons_append, List.takeWhile_cons_of_neg (by rw [hc]; nofun), List.takeWhile_cons_of_neg (by rw [hc]; nofun),
        List.dropWhile_cons_of_neg (by rw [hc]; nofun), List.dropWhile_cons_of_neg (by rw [hc]; nofun)]
      exact ⟨rfl, rfl⟩
    | true =>
      rw [List.dropWhile_cons_of_pos hc] at h
      obtain ⟨htake, hdrop⟩ := ih h
      rw [List.cons_append, List.takeWhile_cons_of_pos hc, List.takeWhile_cons_of_pos hc, List.dropWhile_cons_of_pos hc,
        List.dropWhile_cons_of_pos hc, htake, hdrop]
      exact ⟨rfl, rfl⟩

private theorem closes_append (h : l ≠ []) : closes (l ++ t) = closes l := by
  cases l with
  | nil => exact absurd rfl h
  | cons c l => rfl

private theorem goesOn_append (h : l ≠ []) : goesOn (l ++ t) = goesOn l := by
  cases l with
  | nil => exact absurd rfl h
  | cons c l => rfl

private theorem operator_append {sType : SubType} {flag : Bool} (h : operator w = some (sType, flag, q)) (hq : q ≠ []) :
    operator (w ++ t) = some (sType, flag, q ++ t) := by
  rcases w with _ | ⟨a, w⟩
  · cases h
    exact absurd rfl hq
  by_cases ha : a = 61
  · subst ha
    rcases w with _ | ⟨b, w⟩
    · cases h
      exact absurd rfl hq
    by_cases hb : b = 63
    · subst hb
      change (if closes w then some (SubType.test, true, w) else none) = _ at h
      change (if closes (w ++ t) then some (SubType.test, true, w ++ t) else none) = _
      split_ifs at h with hc
      cases h
      rw [closes_append hq, if_pos hc]
    · have hset : ∀ v, operator (61 :: b :: v) = some (.set, true, b :: v) := fun v => by simp [operator, hb]
      rw [hset] at h
      cases h
      exact hset (w ++ t)
  · by_cases hb : a = 63
    · subst hb
      change (if closes w then some (SubType.query, true, w) else none) = _ at h
      change (if closes (w ++ t) then some (SubType.query, true, w ++ t) else none) = _
      split_ifs at h with hc
      cases h
      rw [closes_append hq, if_pos hc]
    · have hnone : ∀ v, operator (a :: v) = some (.set, false, a :: v) := fun v => by simp [operator, ha, hb]
      rw [hnone] at h
      cases h
      exact hnone (w ++ t)

private theorem behindName_ne {sType : SubType} {flag : Bool} (h : operator (behindName r) = some (sType, flag, q))
    (hq : q ≠ []) : behindName r ≠ [] := by
  intro hnil
  rw [hnil] at h
  cases h
  exact hq rfl

private theorem name_append {sType : SubType} {flag : Bool} (h : operator (behindName r) = some (sType, flag, q))
    (hq : q ≠ []) : nameOf (r ++ t) = nameOf r ∧ operator (behindName (r ++ t)) = some (sType, flag, q ++ t) := by
  obtain ⟨hname, hbehind⟩ := span_append (p := (!isOperator ·)) (t := t) (behindName_ne h hq)
  refine ⟨hname, ?_⟩
  unfold behindName at h ⊢
  rw [hbehind]
  exact operator_append h hq

private theorem basicOf_append (m : MainType) (sType : SubType) (h : (basicOf m sType c r).rest ≠ []) :
    basicOf m sType c (r ++ t) =
      ⟨(basicOf m sType c r).cmd, (basicOf m sType c r).sep, (basicOf m sType c r).rest ++ t⟩ := by
  obtain ⟨htake, hdrop⟩ := span_append (t := t) h
  unfold basicOf
  rw [htake, hdrop]

private theorem dropWhile_ne (h : q.dropWhile p ≠ []) : q ≠ [] := by
  rintro rfl
  exact h rfl

private theorem sOf_append (h : sOf r = some y) (hy : y.rest ≠ []) :
    sOf (r ++ t) = some ⟨y.cmd, y.sep, y.rest ++ t⟩ := by
  unfold sOf at h
  split_ifs at h with hok
  obtain ⟨⟨sType, flag, q⟩, hop, rfl⟩ := Option.map_eq_some_iff.1 h
  obtain ⟨htake, hdrop⟩ := span_append (t := t) hy
  obtain ⟨hname, hbehind⟩ := name_append (t := t) hop (dropWhile_ne hy)
  unfold sOf
  rw [hname, if_pos hok, hbehind, Option.map_some]
  dsimp only
  rw [htake, hdrop]

private theorem extendedOf_append (h : extendedOf c r = some y) (hy : y.rest ≠ []) :
    extendedOf c (r ++ t) = some ⟨y.cmd, y.sep, y.rest ++ t⟩ := by
  unfold extendedOf at h
  split_ifs at h with hup
  obtain ⟨⟨sType, flag, q⟩, hop, rfl⟩ := Option.map_eq_some_iff.1 h
  have hfrom : fromSemicolon q ≠ [] := by
    intro hnil
    exact hy (congrArg List.tail hnil)
  obtain ⟨htake, hdrop⟩ := span_append (t := t) hfrom
  cases r with
  | nil => cases hup
  | cons u r =>
    rw [List.tail_cons] at hop
    obtain ⟨hname, hbehind⟩ := name_append (t := t) hop (dropWhile_ne hfrom)
    have hone : (fromSemicolon q ++ t).take 1 = (fromSemicolon q).take 1 ∧
        (fromSemicolon q ++ t).tail = (fromSemicolon q).tail ++ t := by
      cases hq : fromSemicolon q with
      | nil => exact absurd hq hfrom
      | cons d v => exact ⟨rfl, rfl⟩
    have huntil : untilSemicolon (q ++ t) = untilSemicolon q := htake
    have hfollow : fromSemicolon (q ++ t) = fromSemicolon q ++ t := hdrop
    unfold extendedOf
    rw [List.cons_append, List.headD_cons, List.tail_cons, hname, hbehind, Option.map_some,
      if_pos (show isUpper u = true from hup)]
    dsimp only
    rw [huntil, hfollow, hone.1, hone.2]
    rfl

/-- A command that something follows is not changed by what is appended. -/
private theorem oneOf_append (h : oneOf c r = some y) (hy : y.rest ≠ []) :
    oneOf c (r ++ t) = some ⟨y.cmd, y.sep, y.rest ++ t⟩ := by
  unfold oneOf at h ⊢
  cases halpha : isAlpha c with
  | true =>
    rw [halpha, if_pos rfl] at h
    rw [if_pos rfl]
    cases hc : checkValidBasicCmd c with
    | support =>
      rw [hc] at h
      cases h
      exact congrArg some (basicOf_append _ _ hy)
    | dial =>
      rw [hc] at h
      change dialOf r = some y at h
      unfold dialOf at h
      split_ifs at h
      cases h
      exact absurd rfl hy
    | sParam =>
      rw [hc] at h
      exact sOf_append h hy
    | noSupp =>
      rw [hc] at h
      cases h
  | false =>
    rw [halpha, if_neg nofun] at h
    rw [if_neg nofun]
    by_cases hand : c = 38
    · rw [if_pos hand] at h ⊢
      cases r with
      | nil => cases h
      | cons d r =>
        change (if checkValidAndCmd d then some (basicOf .and .query d r) else none) = _ at h
        change (if checkValidAndCmd d then some (basicOf .and .query d (r ++ t)) else none) = _
        split_ifs at h with hd
        cases h
        rw [if_pos hd]
        exact congrArg some (basicOf_append _ _ hy)
    · rw [if_neg hand] at h ⊢
      exact extendedOf_append h hy

private theorem commandOf_append (h : commandOf r = some y) (hy : y.rest ≠ []) :
    commandOf (r ++ t) = some ⟨y.cmd, y.sep, y.rest ++ t⟩ := by
  cases r with
  | nil => cases h
  | cons c r =>
    obtain ⟨hone, hgo⟩ := Option.filter_eq_some_iff.1 h
    refine Option.filter_eq_some_iff.2 ⟨oneOf_append hone hy, ?_⟩
    dsimp only
    rw [goesOn_append hy]
    exact hgo

/-- Something follows every command in front of a text that is not empty. -/
private theorem commands_ne (h : Commands r ys q) (hq : q ≠ []) : r ≠ [] := by
  cases h with
  | nil => exact hq
  | cons hy _ =>
    rintro rfl
    cases hy

end

/-! ### Letters of dial commands -/

/-- The letter that one of a dial string is read from: that of the first place of the line that reads like the dial
string, or itself if there is none. -/
def dialLetter (line : Buf) (d : List Nat) (k : Nat) : Nat :=
  (firstPlace line d).elim (d.getD k 0) fun o => line (letterIndex line k o)

/-- The letters G and I of the dial commands of a text are the same in two lines. -/
def SameDialled (line line' : Buf) (text : List Nat) : Prop :=
  ∀ ys rest, Commands text ys rest → ∀ y ∈ ys, y.cmd.mType = .dial → ∀ d ∈ y.cmd.params, ∀ k < d.length,
    isModifier (d.getD k 0) = true → dialLetter line d k = dialLetter line' d k

section
variable {orig orig' : Buf} {r q d : List Nat} {y : Parsed} {ys : List Parsed} {cs cs' : List AtCmd}

private theorem restored_letter {k : Nat} (hk : k < d.length) :
    (restored orig d).getD k 0 = if isModifier (d.getD k 0) then dialLetter orig d k else d.getD k 0 := by
  have hget : d.getD k 0 = d[k] := List.getD_eq_getElem _ _ hk
  split_ifs with hm
  · rw [hget] at hm
    rw [restored_modifier hk hm]
    unfold dialLetter
    rw [hget]
  · have hsame : SameLetters d (restored orig d) := restored_same
    have hk' : k < (restored orig d).length := hsame.length_eq ▸ hk
    have hletter := hsame.get hk hk'
    rw [List.get_eq_getElem, List.get_eq_getElem] at hletter
    rw [hget] at hm ⊢
    rw [List.getD_eq_getElem _ _ hk']
    exact hletter.resolve_right fun hc => hm hc.1

private theorem restored_eq_iff : restored orig d = restored orig' d ↔
    ∀ k < d.length, isModifier (d.getD k 0) = true → dialLetter orig d k = dialLetter orig' d k := by
  constructor
  · intro h k hk hm
    have hletter : (restored orig d).getD k 0 = (restored orig' d).getD k 0 := by rw [h]
    rw [restored_letter hk, restored_letter hk, if_pos hm, if_pos hm] at hletter
    exact hletter
  · intro h
    have hsame : SameLetters d (restored orig d) := restored_same
    have hsame' : SameLetters d (restored orig' d) := restored_same
    have hlen := hsame.length_eq
    have hlen' := hsame'.length_eq
    refine List.ext_getElem (hlen.symm.trans hlen') fun k hk hk' => ?_
    have hkd : k < d.length := hlen.symm ▸ hk
    rw [← List.getD_eq_getElem _ 0 hk, ← List.getD_eq_getElem _ 0 hk', restored_letter hkd, restored_letter hkd]
    split_ifs with hm
    · exact h k hkd hm
    · rfl

/-- A command is handed out with two lines alike. -/
private theorem handedOut_eq_iff (h : commandOf r = some y) :
    handedOut orig r y.cmd = handedOut orig' r y.cmd ↔
      (y.cmd.mType = .dial → ∀ d ∈ y.cmd.params, restored orig d = restored orig' d) := by
  unfold handedOut AtCmd.restoredBy
  by_cases hd : y.cmd.mType = .dial
  · dsimp only
    rw [if_pos hd, if_pos hd]
    cases he : endsEmpty r with
    | true =>
      obtain ⟨z, hz, hparams, -⟩ := Split.endsEmpty_command he
      obtain rfl : y = z := Option.some.inj (h.symm.trans hz)
      rw [if_pos rfl, hparams]
      refine iff_of_true rfl fun _ d hmem => ?_
      cases hmem
      rfl
    | false =>
      rw [if_neg nofun]
      obtain ⟨-, d, hparams, -⟩ := commandOf_dial h hd
      rw [hparams]
      constructor
      · intro heq _ e hmem
        cases hmem
        exact Option.some.inj (congrArg AtCmd.params heq)
      · intro hsame
        rw [Option.map_some, Option.map_some, hsame hd d rfl]
  · dsimp only
    rw [if_neg hd, if_neg hd]
    exact iff_of_true rfl fun hc => absurd hc hd

/-- The commands of a text are handed out alike exactly when the letters of its dial commands are. -/
private theorem handed_eq_iff (h : Handed orig r cs) (h' : Handed orig' r cs') : cs = cs' ↔ SameDialled orig orig' r := by
  induction h generalizing cs' with
  | stop hnone =>
    cases h' with
    | stop =>
      refine iff_of_true rfl fun ys rest hys => ?_
      cases hys with
      | nil => exact nofun
      | cons hy => exact absurd (hnone.symm.trans hy) nofun
    | next hy => exact absurd (hnone.symm.trans hy) nofun
  | @next r y cs hy _ ih =>
    cases h' with
    | stop hnone => exact absurd (hnone.symm.trans hy) nofun
    | @next _ z cs' hz hs' =>
      obtain rfl : y = z := Option.some.inj (hy.symm.trans hz)
      rw [List.cons.injEq, handedOut_eq_iff hy, ih hs']
      constructor
      · rintro ⟨hfirst, hrest⟩ ys rest hys z hmem hd d hparams
        cases hys with
        | nil => cases hmem
        | @cons _ _ w ys hw hys =>
          obtain rfl : y = w := Option.some.inj (hy.symm.trans hw)
          rcases List.mem_cons.1 hmem with rfl | hmem
          · exact restored_eq_iff.1 (hfirst hd d hparams)
          · exact hrest ys rest hys z hmem hd d hparams
      · intro hall
        refine ⟨fun hd d hparams => ?_, fun ys rest hys z hmem => ?_⟩
        · exact restored_eq_iff.2 (hall [y] y.rest (.cons hy (.nil _)) y List.mem_cons_self hd d hparams)
        · exact hall (y :: ys) rest (.cons hy hys) z (List.mem_cons_of_mem _ hmem)

/-- The commands in front of a text that is not empty are handed out as they are. -/
private theorem handed_front (hys : Commands r ys q) (hq : q ≠ []) (h : Handed orig r cs) :
    ∃ cs', cs = ys.map (·.cmd) ++ cs' ∧ Handed orig q cs' := by
  induction hys generalizing cs with
  | nil r => exact ⟨cs, rfl, h⟩
  | @cons r q y ys hy hys ih =>
    cases h with
    | stop hnone => exact absurd (hnone.symm.trans hy) nofun
    | @next _ z cs hz hs =>
      obtain rfl : y = z := Option.some.inj (hy.symm.trans hz)
      have hne := commands_ne hys hq
      have hout : handedOut orig r y.cmd = y.cmd := by
        have he : endsEmpty r ≠ true := fun he => hne (endsEmpty_commandOf hy he)
        have hd : y.cmd.mType ≠ .dial := fun hd => hne (commandOf_dial hy hd).1
        unfold handedOut AtCmd.restoredBy
        dsimp only
        rw [if_neg he, if_neg hd]
      obtain ⟨cs', rfl, hcs'⟩ := ih hq hs
      exact ⟨cs', by rw [hout]; rfl, hcs'⟩

private theorem commands_append {t : List Nat} (hys : Commands r ys q) (hq : q ≠ []) :
    ∃ zs, Commands (r ++ t) zs (q ++ t) ∧ zs.map (·.cmd) = ys.map (·.cmd) := by
  induction hys with
  | nil r => exact ⟨[], .nil _, rfl⟩
  | @cons r q y ys hy hys ih =>
    obtain ⟨zs, hzs, hmap⟩ := ih hq
    exact ⟨_ :: zs, .cons (commandOf_append hy (commands_ne hys hq)) hzs, congrArg (y.cmd :: ·) hmap⟩

end

/-! ### Lines with a quoted parameter -/

/-- What stands in front of an extended command, its name, the characters between the quotation marks of its parameter, and
the commands behind it, which a semicolon separates from it. -/
structure QuotedLine where
  front : List Nat
  name : List Nat
  quoted : List Nat
  behind : Option (List Nat)

namespace QuotedLine
variable (l : QuotedLine)

/-- The commands behind the quoted parameter. -/
def others : List Nat := l.behind.getD []

/-- The parameter in quotation marks. -/
def parameter : List Nat := 34 :: l.quoted ++ [34]

/-- The text of the line. -/
def text : List Nat := l.front ++ (l.name ++ (61 :: l.parameter ++ l.behind.elim [] (59 :: ·)))

/-- The command with the quoted parameter. -/
def command : AtCmd := ⟨.extended, .set, true, some (storedText l.name), some l.parameter⟩

/-- Printable characters are quoted; commands stand in front of the name of an extended command, and what is behind it goes
on with a command; no string of the other commands is left open. -/
structure WellFormed (ys : List Parsed) : Prop where
  quoted : ∀ c ∈ l.quoted, 32 ≤ c ∧ c < 128 ∧ c ≠ 34
  name : ∃ p u w, storedText l.name = p :: u :: w ∧ isAlpha p = false ∧ p ≠ 38 ∧ isUpper u = true ∧
    ∀ c ∈ w, isOperator c = false
  front_commands : Commands (storedText (l.front ++ l.name)) ys (storedText l.name)
  others_goesOn : goesOn (storedText l.others) = true
  front_closed : inString false l.front = false
  name_closed : inString false l.name = false
  others_closed : inString false l.others = false

section
variable {l : QuotedLine} {ys : List Parsed} {a b q r : List Nat} {cs : List AtCmd} {orig : Buf}

private theorem storedText_append (h : inString false a = false) : storedText (a ++ b) = storedText a ++ storedText b := by
  unfold storedText
  rw [collected_append, h, List.map_append]

private theorem quoted_stored (h : ∀ c ∈ q, 32 ≤ c ∧ c < 128 ∧ c ≠ 34) :
    inString true q = true ∧ (collected true q).map Prod.snd = q := by
  induction q with
  | nil => exact ⟨rfl, rfl⟩
  | cons c q ih =>
    obtain ⟨hlow, hhigh, hquote⟩ := h c List.mem_cons_self
    obtain ⟨hstr, hstored⟩ := ih fun d hd => h d (List.mem_cons_of_mem _ hd)
    have hone : inString true [c] = true := if_neg hquote
    have hc : (stored true c).map Prod.snd = [c] := by
      unfold stored folded
      rw [hone]
      by_cases h32 : c = 32
      · rw [if_pos h32, if_pos rfl]
        rfl
      · rw [if_neg h32, if_pos ⟨by omega, hhigh⟩]
        rfl
    refine ⟨?_, ?_⟩
    · rw [show c :: q = [c] ++ q from rfl, inString_append, hone]
      exact hstr
    · unfold collected
      rw [List.map_append, hone, hc, hstored]
      rfl

private theorem inString_others (h : l.WellFormed ys) : inString false (l.behind.elim [] (59 :: ·)) = false := by
  have hothers := h.others_closed
  unfold others at hothers
  cases hb : l.behind with
  | none => rfl
  | some r =>
    rw [hb] at hothers
    exact hothers

private theorem stored_behind (l : QuotedLine) :
    storedText (l.behind.elim [] (59 :: ·)) = l.behind.elim [] fun r => 59 :: storedText r := by
  cases l.behind with
  | none => rfl
  | some r => rfl

private theorem stored_parameter (h : l.WellFormed ys) :
    inString false (61 :: l.parameter) = false ∧ storedText (61 :: l.parameter) = 61 :: l.parameter := by
  obtain ⟨hstr, hstored⟩ := quoted_stored h.quoted
  unfold parameter
  have hopen : inString false [61, 34] = true := rfl
  have hsplit : (61 :: (34 :: l.quoted ++ [34]) : List Nat) = [61, 34] ++ (l.quoted ++ [34]) := rfl
  refine ⟨?_, ?_⟩
  · rw [hsplit, inString_append, hopen, inString_append, hstr]
    rfl
  · unfold storedText
    rw [hsplit, collected_append, hopen, collected_append, hstr, List.map_append, List.map_append, hstored]
    rfl

private theorem text_closed (h : l.WellFormed ys) : inString false l.text = false := by
  unfold text
  rw [inString_append, h.front_closed, inString_append, h.name_closed, inString_append, (stored_parameter h).1]
  exact inString_others h

private theorem stored_text (h : l.WellFormed ys) : storedText l.text =
    storedText (l.front ++ l.name) ++ (61 :: (l.parameter ++ l.behind.elim [] fun r => 59 :: storedText r)) := by
  obtain ⟨hclosed, hparam⟩ := stored_parameter h
  unfold text
  rw [storedText_append h.front_closed, storedText_append h.name_closed, storedText_append hclosed, hparam,
    stored_behind l, storedText_append h.front_closed, List.append_assoc]
  rfl

private theorem untilSemicolon_append (h : 59 ∉ q) (hr : r = [] ∨ r.headD 0 = 59) :
    untilSemicolon (q ++ r) = q ∧ fromSemicolon (q ++ r) = r := by
  have htake : ∀ c ∈ q, decide (c ≠ 59) = true := fun c hc => decide_eq_true fun heq => h (heq ▸ hc)
  unfold untilSemicolon fromSemicolon
  rw [List.takeWhile_append_of_pos htake, List.dropWhile_append_of_pos htake]
  rcases hr with rfl | hr
  · exact ⟨List.append_nil q, rfl⟩
  · cases r with
    | nil => cases hr
    | cons c r =>
      obtain rfl : c = 59 := hr
      exact ⟨List.append_nil q, rfl⟩

private theorem behind_operator {w : List Nat} (h : ∀ c ∈ w, isOperator c = false) (t : List Nat) :
    nameOf (w ++ 61 :: t) = w ∧ behindName (w ++ 61 :: t) = 61 :: t := by
  have hpos : ∀ c ∈ w, (!isOperator c) = true := fun c hc => by rw [h c hc]; rfl
  unfold nameOf behindName
  rw [List.takeWhile_append_of_pos hpos, List.dropWhile_append_of_pos hpos]
  exact ⟨List.append_nil w, rfl⟩

private theorem endsEmpty_quoted (h : l.WellFormed ys) (t : List Nat) :
    endsEmpty (storedText l.name ++ 61 :: (l.parameter ++ t)) = false := by
  obtain ⟨p, u, w, hname, halpha, -, -, hw⟩ := h.name
  rw [hname]
  unfold endsEmpty
  dsimp only [List.cons_append]
  rw [halpha, if_neg nofun, List.tail_cons, (behind_operator hw _).2]
  exact Bool.and_false _

/-- The command with the quoted parameter, up to where its parameter ends. -/
private theorem commandOf_quoted (h : l.WellFormed ys) (t : List Nat) :
    commandOf (storedText l.name ++ 61 :: (l.parameter ++ t)) =
      (some (⟨⟨.extended, .set, true, some (storedText l.name), some (untilSemicolon (l.parameter ++ t))⟩,
        (fromSemicolon (l.parameter ++ t)).take 1, (fromSemicolon (l.parameter ++ t)).tail⟩ : Parsed)).filter
          (goesOn ·.rest) := by
  obtain ⟨p, u, w, hname, halpha, hand, hup, hw⟩ := h.name
  obtain ⟨htake, hdrop⟩ := behind_operator hw (l.parameter ++ t)
  have hone : oneOf p (u :: w ++ 61 :: (l.parameter ++ t)) =
      extendedOf p (u :: w ++ 61 :: (l.parameter ++ t)) := by
    unfold oneOf
    rw [halpha, if_neg nofun, if_neg hand]
  rw [hname]
  change (oneOf p (u :: w ++ 61 :: (l.parameter ++ t))).filter _ = _
  rw [hone]
  unfold extendedOf
  rw [List.cons_append, List.headD_cons, List.tail_cons, if_pos hup, htake, hdrop]
  rfl

/-- A parameter that no semicolon ends. -/
private theorem quoted_whole (h : l.WellFormed ys) (hsemi : 59 ∉ l.quoted) :
    ∃ sep, commandOf (storedText l.name ++ 61 :: (l.parameter ++ l.behind.elim [] fun r => 59 :: storedText r)) =
      some ⟨l.command, sep, storedText l.others⟩ := by
  have hparam : 59 ∉ l.parameter := by
    unfold parameter
    intro hmem
    rcases List.mem_append.1 hmem with hmem | hmem
    · rcases List.mem_cons.1 hmem with heq | hmem
      · cases heq
      · exact hsemi hmem
    · cases List.mem_singleton.1 hmem
  have htail : (l.behind.elim [] fun r => 59 :: storedText r) = [] ∨
      (l.behind.elim [] fun r => 59 :: storedText r).headD 0 = 59 := by
    cases l.behind with
    | none => exact Or.inl rfl
    | some r => exact Or.inr rfl
  have hrest : (l.behind.elim [] fun r => 59 :: storedText r).tail = storedText l.others := by
    unfold others
    cases l.behind with
    | none => rfl
    | some r => rfl
  obtain ⟨htake, hdrop⟩ := untilSemicolon_append hparam htail
  refine ⟨(l.behind.elim [] fun r => 59 :: storedText r).take 1, ?_⟩
  rw [commandOf_quoted h, htake, hdrop, hrest, Option.filter_some, if_pos h.others_goesOn]
  rfl

/-- The parameter of a command ends in front of a semicolon. -/
private theorem quoted_cut {y : Parsed} (h : l.WellFormed ys) (t : List Nat) (hsemi : 59 ∈ l.quoted)
    (hy : commandOf (storedText l.name ++ 61 :: (l.parameter ++ t)) = some y) (orig : Buf) (r : List Nat)
    (he : endsEmpty r = false) : handedOut orig r y.cmd ≠ l.command := by
  rw [commandOf_quoted h] at hy
  obtain ⟨hy, -⟩ := Option.filter_eq_some_iff.1 hy
  cases hy
  intro heq
  have hparams : untilSemicolon (l.parameter ++ t) = l.parameter := by
    have hp := congrArg AtCmd.params heq
    unfold handedOut AtCmd.restoredBy at hp
    dsimp only at hp
    rw [he, if_neg nofun, if_neg nofun] at hp
    exact Option.some.inj hp
  have hmem : 59 ∈ untilSemicolon (l.parameter ++ t) := by
    rw [hparams]
    exact List.mem_append_left _ (List.mem_cons_of_mem _ hsemi)
  simpa using List.mem_takeWhile_imp hmem

end

end QuotedLine

/-- The letters of a dial command that is the last one are those that it has without the quoted parameter in front. -/
def QuotedLine.LettersKept (l : QuotedLine) : Prop :=
  SameDialled (.ofList (typedText l.text)) (.ofList (typedText l.others)) (storedText l.others)

/-- The calls for a line hand out the quoted parameter unchanged, and the other commands as without it, exactly when there
is no semicolon in the quotation marks and the letters of a dial command are not read from elsewhere. -/
theorem quoted_iff {s s' : Ledit} {l : QuotedLine} {ys : List Parsed} {calls calls' : List (List Nat)} {cs : List AtCmd}
    (hl : l.WellFormed ys) (hs : s.Ready) (ht : Types s.lineHabit l.text calls) (hs' : s'.Ready)
    (ht' : Types s'.lineHabit l.others calls') (hcs : HandsOut s' calls' cs) :
    HandsOut s calls (ys.map (·.cmd) ++ l.command :: cs) ↔ 59 ∉ l.quoted ∧ l.LettersKept := by
  obtain ⟨all, hall, hiff⟩ := handsOut_iff hs ht (QuotedLine.text_closed hl)
  obtain ⟨cs', hcs', hiff'⟩ := handsOut_iff hs' ht' hl.others_closed
  obtain rfl : cs = cs' := (hiff' cs).1 hcs
  have hname : storedText l.name ≠ [] := by
    obtain ⟨p, u, w, hname, -⟩ := hl.name
    rw [hname]
    exact nofun
  obtain ⟨zs, hzs, hmap⟩ := commands_append hl.front_commands hname
  rw [QuotedLine.stored_text hl] at hall
  obtain ⟨tail, rfl, htail⟩ := handed_front hzs (List.append_ne_nil_of_left_ne_nil hname _) hall
  rw [hiff, hmap, List.append_cancel_left_eq]
  have hempty : endsEmpty (storedText l.name ++ 61 :: (l.parameter ++ l.behind.elim [] fun r => 59 :: storedText r)) =
      false := QuotedLine.endsEmpty_quoted hl _
  by_cases hsemi : 59 ∈ l.quoted
  · refine iff_of_false (fun heq => ?_) fun h => h.1 hsemi
    cases htail with
    | stop => cases heq
    | next hy hs =>
      exact QuotedLine.quoted_cut hl _ hsemi hy _ _ hempty (List.cons.inj heq).1.symm
  · obtain ⟨sep, hwhole⟩ := QuotedLine.quoted_whole hl hsemi
    cases htail with
    | stop hnone => exact absurd (hnone.symm.trans hwhole) nofun
    | @next _ y rest hy hrest =>
      obtain rfl : y = _ := Option.some.inj (hy.symm.trans hwhole)
      have hout : handedOut (.ofList (typedText l.text)) (storedText l.name ++ 61 :: (l.parameter ++
          l.behind.elim [] fun r => 59 :: storedText r)) l.command = l.command := by
        unfold handedOut AtCmd.restoredBy
        rw [hempty]
        rfl
      rw [hout, List.cons.injEq, and_iff_right rfl, eq_comm, handed_eq_iff hrest hcs']
      exact (and_iff_right hsemi).symm

namespace quotation

/-- A source that line edit has not heard of before. -/
abbrev fresh : Ledit := .getNewSrcMaintain

/-- `AT`, a text and the end of the line, in one call. -/
def typing (text : List Nat) : List (List Nat) := [65 :: 84 :: text ++ [13]]

private theorem fresh_ready : fresh.Ready := ⟨rfl, rfl, rfl, rfl, rfl, rfl, rfl⟩

private theorem types_typing {text : List Nat} (hplain : ∀ c ∈ 65 :: 84 :: text, c ≠ 13 ∧ c ≠ 10 ∧ c ≠ 8)
    (hlen : (65 :: 84 :: text ++ [13]).length ≤ maxCmdLen) (hfits : (collected false text).length + 2 ≤ maxCmdLen) :
    Types fresh.lineHabit text (typing text) := by
  refine ⟨⟨65, 84, Or.inr rfl, Or.inr rfl, hplain, List.append_nil _⟩, fun p hp => ?_, hfits⟩
  obtain rfl := List.mem_singleton.1 hp
  exact ⟨nofun, hlen⟩

/-- `+CMGL;+CPBW="a B";+CGMI` -/
def plain : QuotedLine :=
  ⟨[43, 67, 77, 71, 76, 59], [43, 67, 80, 66, 87], [97, 32, 66], some [43, 67, 71, 77, 73]⟩

/-- `+CMGL;` -/
def listing : Parsed := ⟨⟨.extended, .set, false, some [43, 67, 77, 71, 76], some []⟩, [59], [43, 67, 80, 66, 87]⟩

/-- `+CGMI` -/
def asked : AtCmd := ⟨.extended, .set, false, some [43, 67, 71, 77, 73], some [0]⟩

private theorem plain_wellFormed : plain.WellFormed [listing] := by
  refine ⟨by decide, ⟨43, 67, [80, 66, 87], by decide, by decide, by decide, by decide, by decide⟩, ?_, by decide,
    by decide, by decide, by decide⟩
  exact .cons (show commandOf _ = some listing by decide) (.nil _)

private theorem asked_alone : HandsOut fresh (typing plain.others) [asked] := by
  refine ⟨fun k hk => ?_, by decide +kernel⟩
  obtain rfl : k = 0 := Nat.lt_one_iff.1 hk
  exact ⟨by decide +kernel, show _ = some asked by decide +kernel⟩

theorem quoted_iff_plain :
    HandsOut fresh (typing plain.text) ([listing.cmd] ++ plain.command :: [asked]) ↔
      59 ∉ plain.quoted ∧ plain.LettersKept :=
  quoted_iff plain_wellFormed fresh_ready (types_typing (by decide) (by decide) (by decide)) fresh_ready
    (types_typing (by decide) (by decide) (by decide)) asked_alone

/-- `+CPBW="a;B"` -/
def parted : QuotedLine := ⟨[], [43, 67, 80, 66, 87], [97, 59, 66], none⟩

/-- `+CPBW="dG";Dg` -/
def dialled : QuotedLine := ⟨[], [43, 67, 80, 66, 87], [100, 71], some [68, 103]⟩

/-- `Dg` -/
def closedGroup : AtCmd := ⟨.dial, .set, false, some [68], some [103]⟩

/-- The parameter `"a;B"` ends at the semicolon; behind the parameter `"dG"` the dial string `g` has the letter G. -/
theorem quoted_changed :
    (parted.WellFormed [] ∧ Types fresh.lineHabit parted.text (typing parted.text) ∧
      HandsOut fresh (typing parted.others) [] ∧ ¬HandsOut fresh (typing parted.text) [parted.command]) ∧
    (dialled.WellFormed [] ∧ Types fresh.lineHabit dialled.text (typing dialled.text) ∧
      HandsOut fresh (typing dialled.others) [closedGroup] ∧
      ¬HandsOut fresh (typing dialled.text) [dialled.command, closedGroup]) := by
  refine ⟨⟨?_, types_typing (by decide) (by decide) (by decide), ⟨nofun, by decide +kernel⟩, fun h => ?_⟩, ?_,
    types_typing (by decide) (by decide) (by decide), ⟨fun k hk => ?_, by decide +kernel⟩, fun h => ?_⟩
  · exact ⟨by decide, ⟨43, 67, [80, 66, 87], by decide, by decide, by decide, by decide, by decide⟩, .nil _, by decide,
      by decide, by decide, by decide⟩
  · have hcmd := (h.1 0 (by decide)).2
    revert hcmd
    decide +kernel
  · exact ⟨by decide, ⟨43, 67, [80, 66, 87], by decide, by decide, by decide, by decide, by decide⟩, .nil _, by decide,
      by decide, by decide, by decide⟩
  · obtain rfl : k = 0 := Nat.lt_one_iff.1 hk
    exact ⟨by decide +kernel, show _ = some closedGroup by decide +kernel⟩
  · have hcmd := (h.1 1 (by decide)).2
    revert hcmd
    decide +kernel

end quotation

end Citrine.Aci
