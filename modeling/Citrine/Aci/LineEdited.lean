import Citrine.Aci.LineTyped

/-!
# Editing a command line

A line that is typed with backspaces hands out the commands of the text that the backspaces leave, when that is typed
instead of it (`edited_commands`).  This holds if no backspace behind the `A` deletes a character that the editor has
dropped, for it takes the one before from the line, and if no parameter that begins at the end of the line runs into a
deleted semicolon.
-/

namespace Citrine.Aci

/-! ### Texts -/

/-- The text that the backspaces leave of what is typed behind a text. -/
def edited (h : LineHabit) : List Nat → List Nat → List Nat
  | text, [] => text
  | text, c :: keys => edited h (if c = h.s5 then text.dropLast else text ++ [c]) keys

/-- A text behind a draft, without the blanks and the S4 that are not in a string. -/
def unspaced (h : LineHabit) : Draft → List Nat → List Nat
  | _, [] => []
  | d, c :: r =>
    (if (c = 32 ∨ c = h.s4) ∧ inString false d.typed = false then [] else [c]) ++ unspaced h (d.key h c) r

/-- The text that a line of keys comes to. -/
def editedLine (h : LineHabit) (keys : List Nat) : List Nat := unspaced h ⟨.idle, []⟩ (edited h [] keys)

/-- A character that the editor drops behind the `A`. -/
def Draft.drops (h : LineHabit) (d : Draft) (c : Nat) : Bool :=
  match d.state with
  | .idle => false
  | .prefixA => c != 116 && c != 84
  | _ => c == h.s4 || (stored (inString false d.typed) c).isEmpty

/-- No backspace of what is typed behind a text deletes a character that the editor has dropped. -/
def deletesKept (h : LineHabit) : List Nat → List Nat → Bool
  | _, [] => true
  | text, c :: keys =>
    if c = h.s5 then
      (text.getLast?.all fun k => !(draft h text.dropLast).drops h k) && deletesKept h text.dropLast keys
    else deletesKept h (text ++ [c]) keys

/-- S4 and S5 are different, and none of the letters of `AT`. -/
structure LineHabit.Apart (h : LineHabit) : Prop where
  different : h.s4 ≠ h.s5
  s4 : h.s4 ∉ [65, 97, 84, 116]
  s5 : h.s5 ∉ [65, 97, 84, 116]

/-- Two drafts of which the same is split; the one may wait for the first character, while the other has dropped some. -/
structure Draft.Near (d e : Draft) : Prop where
  chars : d.chars = e.chars
  state : d.state = e.state ∨ d.state = .prefixT ∧ e.state = .collect ∧ e.chars = []

section
variable {h : LineHabit} {d e f : Draft} {c k : Nat} {r text keys : List Nat}

private theorem Draft.Near.refl (d : Draft) : d.Near d := ⟨rfl, Or.inl rfl⟩

private theorem Draft.Near.trans (hde : d.Near e) (hef : e.Near f) : d.Near f := by
  refine ⟨hde.chars.trans hef.chars, ?_⟩
  rcases hde.state with hd | ⟨hd, he, hnil⟩
  · rw [hd]
    exact hef.state
  · rcases hef.state with hf | ⟨hf, -⟩
    · exact Or.inr ⟨hd, hf ▸ he, hef.chars ▸ hnil⟩
    · exact absurd (he.symm.trans hf) nofun

private theorem Draft.Near.eq (hde : d.Near e) (hst : e.state ≠ .collect ∨ e.chars ≠ []) : d = e := by
  obtain ⟨hchars, heq | ⟨-, he, hnil⟩⟩ := hde
  · cases d
    cases e
    obtain rfl : _ = _ := hchars
    obtain rfl : _ = _ := heq
    rfl
  · exact absurd hnil (hst.resolve_left fun hne => hne he)

private theorem Draft.Near.key (hde : d.Near e) (h5 : c ≠ h.s5) : (d.key h c).Near (e.key h c) := by
  rcases hde.state with heq | ⟨hd, he, hnil⟩
  · have hsame : d = e := by
      cases d
      cases e
      obtain rfl : _ = _ := hde.chars
      obtain rfl : _ = _ := heq
      rfl
    rw [hsame]
    exact .refl _
  · have hsame : ({ d with state := .collect } : Draft) = e := by
      cases e
      obtain rfl : _ = _ := he
      exact congrArg (Draft.mk .collect) hde.chars
    rw [key_prefixT hd h5, key_collect he, hsame]
    exact .refl _

/-! ### Backspaces -/

private theorem kept_cases (hkept : (k == h.s4 || (stored (inString false d.typed) k).isEmpty) = false) :
    k ≠ h.s4 ∧ ∃ b, stored (inString false d.typed) k = [(k, b)] := by
  rw [Bool.or_eq_false_iff, beq_eq_false_iff_ne, List.isEmpty_eq_false_iff] at hkept
  exact ⟨hkept.1, (stored_cases _ k).resolve_left hkept.2⟩

/-- A backspace takes a character from the line that has been stored last. -/
private theorem stored_undone (hap : h.Apart) (hst : e.state = .collect) (h5 : k ≠ h.s5)
    (hkept : (k == h.s4 || (stored (inString false e.typed) k).isEmpty) = false) (hn : d.Near (e.character h k)) :
    d.key h h.s5 = ⟨if e.chars = [] then .prefixT else .collect, e.chars⟩ := by
  obtain ⟨h4, b, hb⟩ := kept_cases hkept
  have hchar : e.character h k = { e with chars := e.chars ++ [(k, b)] } := by
    unfold Draft.character
    rw [if_neg h4, if_neg h5, hb]
  rw [hchar] at hn
  obtain rfl := hn.eq (Or.inr (List.append_ne_nil_of_right_ne_nil _ (List.cons_ne_nil _ _)))
  rw [key_collect (show (⟨e.state, e.chars ++ [(k, b)]⟩ : Draft).state = .collect from hst)]
  unfold Draft.character
  dsimp only
  rw [if_neg hap.different.symm, if_pos rfl, List.dropLast_concat, hst]

/-- A backspace undoes a character that is not dropped. -/
private theorem undone (hap : h.Apart) (he : e.Sound) (h5 : k ≠ h.s5) (hkept : e.drops h k = false)
    (hn : d.Near (e.key h k)) : (d.key h h.s5).Near e := by
  obtain ⟨h65, h97, h84, h116⟩ : h.s5 ≠ 65 ∧ h.s5 ≠ 97 ∧ h.s5 ≠ 84 ∧ h.s5 ≠ 116 := by
    have hs5 := hap.s5
    simp only [List.mem_cons, List.not_mem_nil, or_false, not_or] at hs5
    exact hs5
  obtain ⟨st, chars⟩ := e
  unfold Draft.drops at hkept
  cases st with
  | idle =>
    have hkey : Draft.key h ⟨.idle, chars⟩ k = if k = 97 ∨ k = 65 then ⟨.prefixA, chars⟩ else ⟨.idle, chars⟩ := rfl
    rw [hkey] at hn
    split_ifs at hn
    · obtain rfl := hn.eq (Or.inl nofun)
      have hback : Draft.key h ⟨.prefixA, chars⟩ h.s5 = ⟨.idle, chars⟩ := by
        change (if h.s5 = 116 ∨ h.s5 = 84 then _ else if h.s5 = h.s5 then _ else _) = _
        rw [if_neg (not_or.2 ⟨h116, h84⟩), if_pos rfl]
      rw [hback]
      exact .refl _
    · obtain rfl := hn.eq (Or.inl nofun)
      have hback : Draft.key h ⟨.idle, chars⟩ h.s5 = ⟨.idle, chars⟩ := if_neg (not_or.2 ⟨h97, h65⟩)
      rw [hback]
      exact .refl _
  | prefixA =>
    have hT : k = 116 ∨ k = 84 := by
      dsimp only at hkept
      simp only [Bool.and_eq_false_iff, bne_eq_false_iff_eq] at hkept
      exact hkept
    have hkey : Draft.key h ⟨.prefixA, chars⟩ k = ⟨.prefixT, chars⟩ := if_pos hT
    rw [hkey] at hn
    obtain rfl := hn.eq (Or.inl nofun)
    have hback : Draft.key h ⟨.prefixT, chars⟩ h.s5 = ⟨.prefixA, chars⟩ := if_pos rfl
    rw [hback]
    exact .refl _
  | prefixT =>
    obtain rfl : chars = [] := he.empty nofun
    rw [key_prefixT rfl h5] at hn
    have hback := stored_undone (e := ⟨.collect, []⟩) hap rfl h5 hkept hn
    rw [if_pos rfl] at hback
    rw [hback]
    exact .refl _
  | collect =>
    rw [key_collect rfl] at hn
    rw [stored_undone hap rfl h5 hkept hn]
    split_ifs with hnil
    · exact ⟨rfl, Or.inr ⟨rfl, rfl, hnil⟩⟩
    · exact .refl _
  | «repeat» => exact absurd rfl he.typing.1
  | runCmd => exact absurd rfl he.typing.2

private theorem draft_concat (text : List Nat) (c : Nat) : draft h (text ++ [c]) = (draft h text).key h c := by
  unfold draft
  rw [List.foldl_append]
  rfl

private theorem edited_plain (hp : ∀ c ∈ text, c ≠ h.s5) : ∀ c ∈ edited h text keys, c ≠ h.s5 := by
  induction keys generalizing text with
  | nil => exact hp
  | cons c keys ih =>
    unfold edited
    split_ifs with h5
    · exact ih fun b hb => hp b (List.dropLast_subset _ hb)
    · refine ih fun b hb => ?_
      rcases List.mem_append.1 hb with hb | hb
      · exact hp b hb
      · obtain rfl := List.mem_singleton.1 hb
        exact h5

/-- The draft of what is typed is that of the text that the backspaces leave. -/
private theorem edited_near (hap : h.Apart) (hp : ∀ c ∈ text, c ≠ h.s5) (hn : d.Near (draft h text))
    (hkept : deletesKept h text keys = true) : (keys.foldl (Draft.key h) d).Near (draft h (edited h text keys)) := by
  induction keys generalizing text d with
  | nil => exact hn
  | cons c keys ih =>
    unfold deletesKept at hkept
    unfold edited
    rw [List.foldl_cons]
    by_cases h5 : c = h.s5
    · rw [if_pos h5, Bool.and_eq_true] at hkept
      rw [if_pos h5]
      refine ih (fun b hb => hp b (List.dropLast_subset _ hb)) ?_ hkept.2
      rw [h5]
      rcases List.eq_nil_or_concat' text with rfl | ⟨l, k, rfl⟩
      · obtain rfl := hn.eq (Or.inl nofun)
        have hs5 := hap.s5
        simp only [List.mem_cons, List.not_mem_nil, or_false, not_or] at hs5
        have hback : Draft.key h ⟨.idle, []⟩ h.s5 = ⟨.idle, []⟩ := if_neg (not_or.2 ⟨hs5.2.1, hs5.1⟩)
        change (Draft.key h ⟨.idle, []⟩ h.s5).Near _
        rw [hback]
        exact .refl _
      · have hlast := hkept.1
        rw [List.getLast?_concat, List.dropLast_concat, Option.all_some, Bool.not_eq_true'] at hlast
        rw [List.dropLast_concat]
        rw [draft_concat] at hn
        exact undone hap (draft_sound l) (hp k (List.mem_append_right _ (List.mem_singleton_self k))) hlast hn
    · rw [if_neg h5] at hkept
      rw [if_neg h5]
      refine ih (fun b hb => ?_) ?_ hkept
      · rcases List.mem_append.1 hb with hb | hb
        · exact hp b hb
        · obtain rfl := List.mem_singleton.1 hb
          exact h5
      · rw [draft_concat]
        exact hn.key h5

/-! ### Blanks -/

private theorem blank_dropped (h5 : c ≠ h.s5) (hc : c = 32 ∨ c = h.s4)
    (hstr : inString false d.typed = false) : d.character h c = d := by
  unfold Draft.character
  by_cases h4 : c = h.s4
  · rw [if_pos h4]
  · obtain rfl := hc.resolve_right h4
    have hnone : stored (inString false d.typed) 32 = [] := by
      rw [hstr]
      rfl
    rw [if_neg h4, if_neg h5, hnone, List.append_nil]

/-- A blank outside of a string is dropped. -/
private theorem blank_near (hap : h.Apart) (hd : d.Sound) (h5 : c ≠ h.s5) (hc : c = 32 ∨ c = h.s4)
    (hstr : inString false d.typed = false) : d.Near (d.key h c) := by
  obtain ⟨h65, h97, h84, h116⟩ : c ≠ 65 ∧ c ≠ 97 ∧ c ≠ 84 ∧ c ≠ 116 := by
    rcases hc with rfl | rfl
    · decide
    · have hs4 := hap.s4
      simp only [List.mem_cons, List.not_mem_nil, or_false, not_or] at hs4
      exact hs4
  have hsame : d.key h c = d → d.Near (d.key h c) := fun heq => heq.symm ▸ .refl d
  cases hst : d.state with
  | idle =>
    refine hsame ?_
    unfold Draft.key
    rw [hst]
    exact if_neg (not_or.2 ⟨h97, h65⟩)
  | prefixA =>
    refine hsame ?_
    unfold Draft.key
    rw [hst]
    dsimp only
    rw [if_neg (not_or.2 ⟨h116, h84⟩), if_neg h5]
  | prefixT =>
    rw [key_prefixT hst h5, blank_dropped (d := { d with state := .collect }) h5 hc hstr]
    exact ⟨rfl, Or.inr ⟨hst, rfl, hd.empty (by rw [hst]; exact nofun)⟩⟩
  | collect =>
    refine hsame ?_
    rw [key_collect hst]
    exact blank_dropped h5 hc hstr
  | «repeat» => exact absurd hst hd.typing.1
  | runCmd => exact absurd hst hd.typing.2

private theorem unspaced_near (hap : h.Apart) (hd : d.Sound) (hp : ∀ c ∈ r, c ≠ h.s5) (hn : e.Near d) :
    ((unspaced h d r).foldl (Draft.key h) e).Near (r.foldl (Draft.key h) d) := by
  induction r generalizing d e with
  | nil => exact hn
  | cons c r ih =>
    have h5 := hp c List.mem_cons_self
    have hrest : ∀ b ∈ r, b ≠ h.s5 := fun b hb => hp b (List.mem_cons_of_mem _ hb)
    unfold unspaced
    rw [List.foldl_cons]
    split_ifs with hblank
    · exact ih (hd.key c) hrest (hn.trans (blank_near hap hd h5 hblank.1 hblank.2))
    · exact ih (hd.key c) hrest (hn.key h5)

private theorem unspaced_subset (d : Draft) : ∀ c ∈ unspaced h d r, c ∈ r := by
  induction r generalizing d with
  | nil => exact nofun
  | cons c r ih =>
    intro b hb
    rcases List.mem_append.1 hb with hb | hb
    · split_ifs at hb
      · cases hb
      · exact List.mem_cons.2 (Or.inl (List.mem_singleton.1 hb))
    · exact List.mem_cons_of_mem _ (ih _ b hb)

/-- Both the keys and the text that they come to have a draft near that of the text with its blanks. -/
private theorem editedLine_near (hap : h.Apart) (hkept : deletesKept h [] keys = true) :
    ∃ e, (draft h keys).Near e ∧ (draft h (editedLine h keys)).Near e :=
  ⟨draft h (edited h [] keys), edited_near hap nofun (.refl _) hkept,
    unspaced_near hap (draft_sound (h := h) []) (edited_plain nofun) (.refl _)⟩

/-! ### Commands -/

/-- The commands of a draft, with their parameters as strings. -/
def Draft.Hands (d : Draft) (cs : List AtCmd) : Prop :=
  if d.state = .collect ∧ inString false d.typed = false then
    ∃ hs, Handed (.ofList d.typed) d.line hs ∧ cs = hs.map AtCmd.shown
  else cs = []

/-- The calls hand out these commands, with their parameters as strings, and no further one. -/
def HandsShown (s : Ledit) (calls : List (List Nat)) (cs : List AtCmd) : Prop :=
  (∀ k, (hk : k < cs.length) → (reply s calls k).2 = .cmpl ∧ (reply s calls k).1.cmdm.map AtCmd.shown = some cs[k]) ∧
    (reply s calls cs.length).2 ≠ .cmpl

private theorem Draft.Near.hands (hn : d.Near e) (cs : List AtCmd) : d.Hands cs ↔ e.Hands cs := by
  obtain ⟨hchars, heq | ⟨hd, he, hnil⟩⟩ := hn
  · have hsame : d = e := by
      cases d
      cases e
      obtain rfl : _ = _ := hchars
      obtain rfl : _ = _ := heq
      rfl
    rw [hsame]
  · unfold Draft.Hands Draft.typed Draft.line
    rw [hd, he, hnil, if_neg (fun hc => nomatch hc.1), if_pos ⟨rfl, rfl⟩]
    constructor
    · rintro rfl
      exact ⟨[], .stop rfl, rfl⟩
    · rintro ⟨hs, hhs, rfl⟩
      cases hhs with
      | stop => rfl
      | next hy => cases hy

/-- No parameter that begins at the end of the line runs into a semicolon behind it. -/
def NoneLeft (y : Sheet) : Prop :=
  ∀ ys rest, Commands y.draft.line ys rest → endsEmpty rest = true → 59 ∉ y.buffer.str (y.draft.line.length + 1)

end

section
variable {n : Nat} {t u : Ledit} {r w l : List Nat} {y : Parsed} {cs hs : List AtCmd} {s : Ledit} {calls : List (List Nat)}

/-- The record of a line that is split, from a text on, with the characters that are left behind the line. -/
private structure Behind (l w : List Nat) (n : Nat) (r : List Nat) (t : Ledit) : Prop where
  text : (t.execBuffer.getD Ledit.zeros).Text t.execBufIter r
  ended : t.execBufIter + r.length = n
  left : (t.execBuffer.getD Ledit.zeros).Text (n + 1) w
  orig : t.orig.Text 0 l

private theorem split_left_step (h : Behind l w n r t) (hn : r.length ≤ maxCmdLen) (hy : commandOf r = some y)
    (he : endsEmpty r = true) (hsemi : 59 ∉ w) (hlen : w.length ≤ maxCmdLen) :
    t.split.2 = .cmpl ∧ t.split.1.cmdm.map AtCmd.shown = some y.cmd.shown ∧ t.next.split.2 = .fail := by
  have hr : r ≠ [] := by
    rintro rfl
    cases hy
  have hne : t.execBuffer.getD Ledit.zeros t.execBufIter ≠ 0 := mt h.text.first_eq_zero_iff.1 hr
  have hsplit : t.split =
      ({ t with
        execBuffer := some t.splitting.split.1.exec
        execBufIter := t.splitting.split.1.iter
        cmdm := some t.splitting.split.1.cmd
        cmdIndex := t.splitting.split.1.cmdIndex
        err := t.splitting.split.1.err }, t.splitting.split.2) := if_neg hne
  have hleft := h.left
  rw [← h.ended] at hleft
  obtain ⟨hcmpl, hshown, hended⟩ := Split.split_left (x := t.splitting) h.text hn hy he hleft hsemi hlen
  refine ⟨?_, ?_, Ledit.split_empty ?_⟩
  · rw [hsplit]
    exact hcmpl
  · rw [hsplit]
    exact congrArg some hshown
  · unfold Ledit.next
    rw [hsplit]
    exact hended

/-- The calls for a line behind which characters are left. -/
private theorem left_run {n : Nat} (hh : Handed (.ofList l) r cs) (h : Behind l w n r t) (hn : r.length ≤ maxCmdLen)
    (hl : l.length ≤ maxCmdLen) (hne : ∀ c ∈ l, c ≠ 0) (hcodes : ∀ c ∈ r, c ≠ 0) (hlen : w.length ≤ maxCmdLen)
    (hleft : ∀ ys rest, Commands r ys rest → endsEmpty rest = true → 59 ∉ w) :
    (∀ k, (hk : k < cs.length) → (Ledit.next^[k] t).split.2 = .cmpl ∧
      (Ledit.next^[k] t).split.1.cmdm.map AtCmd.shown = some cs[k].shown) ∧
      (Ledit.next^[cs.length] t).split.2 = .fail := by
  induction hh generalizing t with
  | @stop r hnone =>
    refine ⟨nofun, ?_⟩
    by_cases hr : r = []
    · subst hr
      exact Ledit.split_empty h.text
    · refine (hand_step h.text hr hn fun he => ?_).1 hnone
      obtain ⟨y, hy, -⟩ := Split.endsEmpty_command he
      exact absurd (hnone.symm.trans hy) nofun
  | @next r y cs hy hrest ih =>
    have hr : r ≠ [] := by
      rintro rfl
      cases hy
    cases he : endsEmpty r with
    | true =>
      -- the last command, which takes what is left behind the line
      obtain ⟨z, hz, hparams, hnil⟩ := Split.endsEmpty_command he
      obtain rfl : y = z := Option.some.inj (hy.symm.trans hz)
      obtain ⟨hcmpl, hshown, hfail⟩ := split_left_step h hn hy he (hleft [] r (.nil r) he) hlen
      have hout : (handedOut (.ofList l) r y.cmd).shown = y.cmd.shown := by
        unfold handedOut AtCmd.restoredBy AtCmd.shown
        dsimp only
        rw [he, if_pos rfl, hparams]
        split_ifs <;> rfl
      rw [hnil] at hrest
      cases hrest with
      | stop =>
        refine ⟨fun k hk => ?_, hfail⟩
        obtain rfl : k = 0 := Nat.lt_one_iff.1 hk
        exact ⟨hcmpl, hshown.trans (congrArg some hout.symm)⟩
      | next hy => cases hy
    | false =>
      obtain ⟨hcmpl, hcmd, htext, hend, hbehind, hsame⟩ :=
        (hand_step h.text hr hn fun hc => nomatch he.symm.trans hc).2 y hy
      rw [he, if_neg nofun, Nat.add_zero, h.ended] at hend
      have hnext : Behind l w n y.rest t.next := by
        refine ⟨htext, hend, h.left.congr fun k hk _ => hbehind k (by omega), ?_⟩
        rw [hsame]
        exact h.orig
      have hsub : ∀ c ∈ y.rest, c ≠ 0 := fun c hc =>
        hcodes c (commandOf_spells hy ▸ List.mem_append_right _ hc)
      obtain ⟨hall, hlast⟩ := ih hnext ((commandOf_shorter hy).le.trans hn) hsub fun ys rest hys =>
        hleft (y :: ys) rest (.cons hy hys)
      refine ⟨fun k hk => ?_, hlast⟩
      cases k with
      | zero =>
        rw [← handed_letters h.orig hl hne hcodes hy]
        refine ⟨hcmpl, ?_⟩
        change t.split.1.cmdm.map AtCmd.shown = _
        rw [hcmd]
        rfl
      | succ k => exact hall k (Nat.lt_of_succ_lt_succ hk)

private theorem HandsShown.le (h : HandsShown s calls cs) (h' : HandsShown s calls hs) : cs.length ≤ hs.length :=
  Nat.le_of_not_lt fun hlt => h'.2 (h.1 hs.length hlt).1

private theorem HandsShown.unique (h : HandsShown s calls cs) (h' : HandsShown s calls hs) : cs = hs := by
  refine List.ext_getElem (Nat.le_antisymm (h.le h') (h'.le h)) fun k hk hk' => ?_
  exact Option.some.inj ((h.1 k hk).2.symm.trans (h'.1 k hk').2)

/-- The calls for a line hand out the commands of its draft. -/
private theorem handsShown_iff {keys : List Nat} (hs : s.Blank) (ht : Drafts s.lineHabit keys calls)
    (hleft : NoneLeft (sheet s.lineHabit s.line calls)) :
    HandsShown s calls cs ↔ (draft s.lineHabit keys).Hands cs := by
  obtain ⟨hans, hdraft⟩ := drafted_calls hs ht
  have hroom := fitsDraft_end ht.fits
  change (draft s.lineHabit keys).chars.length + 2 ≤ maxCmdLen at hroom
  have hsound : (draft s.lineHabit keys).Sound := draft_sound keys
  rw [← hdraft] at hroom hsound ⊢
  generalize sheet s.lineHabit s.line calls = y at hans hleft hroom hsound ⊢
  unfold Answers at hans
  unfold Draft.Hands
  split_ifs at hans ⊢ with hline
  · obtain ⟨u, hu, hreply⟩ := hans
    obtain ⟨ls, hls⟩ := handed_exists (.ofList y.draft.typed) y.draft.line
    have hn : y.draft.line.length = y.draft.chars.length := List.length_map _
    have ht : y.draft.typed.length = y.draft.chars.length := List.length_map _
    have htyped : ∀ c ∈ y.draft.typed, c ≠ 0 := by
      intro c hc
      obtain ⟨p, hp, rfl⟩ := List.mem_map.1 hc
      exact (hsound.codes p hp).1
    have hcodes : ∀ c ∈ y.draft.line, c ≠ 0 := by
      intro c hc
      obtain ⟨p, hp, rfl⟩ := List.mem_map.1 hc
      exact (hsound.codes p hp).2
    have hbehind : Behind y.draft.typed (y.buffer.str (y.draft.line.length + 1)) y.draft.line.length y.draft.line
        u.first := by
      refine ⟨?_, ?_, ?_, hu.orig⟩
      · change (u.execBuffer.getD Ledit.zeros).Text u.execBufIter _
        rw [hu.exec, hu.iter]
        exact hu.text
      · change u.execBufIter + _ = _
        rw [hu.iter, Nat.zero_add]
      · change (u.execBuffer.getD Ledit.zeros).Text _ _
        rw [hu.exec]
        exact str_text (by omega) (hu.high _ (by omega))
    have hlen : (y.buffer.str (y.draft.line.length + 1)).length ≤ maxCmdLen := by
      have htake : (y.buffer.str (y.draft.line.length + 1)).length ≤
          (y.buffer.slice (y.draft.line.length + 1) (maxCmdLen + 1 - (y.draft.line.length + 1))).length :=
        (List.takeWhile_sublist _).length_le
      unfold Buf.slice at htake
      rw [List.length_map, List.length_range] at htake
      omega
    obtain ⟨hall, hlast⟩ := left_run hls hbehind (by omega) (by omega) htyped hcodes hlen hleft
    have hout : HandsShown s calls (ls.map AtCmd.shown) := by
      obtain ⟨hsplits, hend⟩ := reply_splits hreply (fun k hk => (hall k hk).1) hlast
      refine ⟨fun k hk => ?_, ?_⟩
      · rw [List.length_map] at hk
        rw [hsplits k hk, List.getElem_map]
        exact hall k hk
      · rw [List.length_map]
        exact hend
    constructor
    · intro h
      exact ⟨ls, hls, h.unique hout⟩
    · rintro ⟨ls', hls', rfl⟩
      rw [hls'.unique hls]
      exact hout
  · constructor
    · intro h
      cases cs with
      | nil => rfl
      | cons c cs => exact absurd (h.1 0 (Nat.succ_pos _)).1 hans
    · rintro rfl
      exact ⟨nofun, hans⟩

end

/-- A line that is typed without backspaces leaves nothing behind. -/
private theorem plain_noneLeft {s : Ledit} {keys : List Nat} {calls : List (List Nat)} (hs : s.Ready)
    (ht : Drafts s.lineHabit keys calls) (hp : ∀ c ∈ keys, c ≠ s.lineHabit.s5) :
    NoneLeft (sheet s.lineHabit s.line calls) := by
  have hclean := cleared_clean hs ht hp
  have hroom := fitsDraft_end ht.fits
  rw [← draft, ← (drafted_calls hs.blank ht).2] at hroom
  generalize sheet s.lineHabit s.line calls = y at hclean hroom
  intro _ _ _ _
  have hlen : y.draft.line.length = y.draft.chars.length := List.length_map _
  have hnil : y.buffer.str (y.draft.line.length + 1) = [] :=
    Buf.Text.str (l := []) (hclean _ (by omega)) (by rw [List.length_nil]; omega)
  rw [hnil]
  exact List.not_mem_nil

/-- A line that is typed with backspaces hands out the commands of the text that it comes to, if no backspace behind the
`A` deletes a character that the editor has dropped, and no parameter that begins at the end of the line runs into a
semicolon that is left behind it. -/
theorem edited_commands {s s' : Ledit} {keys : List Nat} {calls calls' : List (List Nat)} {cs : List AtCmd}
    (hap : s.lineHabit.Apart) (hs : s.Blank) (ht : Drafts s.lineHabit keys calls) (hs' : s'.Ready)
    (hhabit : s'.lineHabit = s.lineHabit) (ht' : Drafts s.lineHabit (editedLine s.lineHabit keys) calls')
    (hkept : deletesKept s.lineHabit [] keys = true) (hleft : NoneLeft (sheet s.lineHabit s.line calls)) :
    HandsShown s calls cs ↔ HandsShown s' calls' cs := by
  obtain ⟨e, hkeys, hline⟩ := editedLine_near hap hkept
  have hplain : ∀ c ∈ editedLine s.lineHabit keys, c ≠ s.lineHabit.s5 := fun c hc =>
    edited_plain (fun _ hb => absurd hb List.not_mem_nil) c (unspaced_subset _ c hc)
  rw [← hhabit] at ht' hplain hline
  rw [handsShown_iff hs ht hleft, handsShown_iff hs'.blank ht' (plain_noneLeft hs' ht' hplain), hkeys.hands, hline.hands]

namespace editing

/-- A source that line edit has not heard of before. -/
abbrev fresh : Ledit := .getNewSrcMaintain

private theorem fresh_ready : fresh.Ready := ⟨rfl, rfl, rfl, rfl, rfl, rfl, rfl⟩

private theorem fresh_apart : fresh.lineHabit.Apart := ⟨by decide, by decide, by decide⟩

/-- A line that is typed in one call. -/
def atOnce (keys : List Nat) : List (List Nat) := [keys ++ [13]]

private theorem drafts_atOnce {keys : List Nat} (hlen : (keys ++ [13]).length ≤ maxCmdLen)
    (hfits : fitsDraft fresh.lineHabit ⟨.idle, []⟩ keys = true) : Drafts fresh.lineHabit keys (atOnce keys) := by
  refine ⟨List.append_nil _, fun p hp => ?_, hfits⟩
  obtain rfl := List.mem_singleton.1 hp
  exact ⟨List.append_ne_nil_of_right_ne_nil keys (List.cons_ne_nil 13 []), hlen⟩

/-- `at +cGX`, a backspace, `MI;E0`, a backspace and `1` -/
def corrected : List Nat := [97, 116, 32, 43, 99, 71, 88, 8, 77, 73, 59, 69, 48, 8, 49]

theorem edited_commands_corrected :
    HandsShown fresh (atOnce corrected) [⟨.extended, .set, false, some [43, 67, 71, 77, 73], some []⟩,
        ⟨.basic, .set, false, some [69], some [49]⟩] ↔
      HandsShown fresh (atOnce (editedLine fresh.lineHabit corrected))
        [⟨.extended, .set, false, some [43, 67, 71, 77, 73], some []⟩, ⟨.basic, .set, false, some [69], some [49]⟩] :=
  edited_commands fresh_apart fresh_ready.blank (drafts_atOnce (by decide) (by decide +kernel)) fresh_ready rfl
    (drafts_atOnce (by decide +kernel) (by decide +kernel)) (by decide +kernel) fun _ _ _ _ => by decide +kernel

/-- `AT+C`, a blank, a backspace and `GMI` -/
def blankDeleted : List Nat := [65, 84, 43, 67, 32, 8, 71, 77, 73]

/-- `AT+CGMIa;+CFUN=0` and nine backspaces -/
def commandDeleted : List Nat := [65, 84, 43, 67, 71, 77, 73, 97, 59, 43, 67, 70, 85, 78, 61, 48, 8, 8, 8, 8, 8, 8, 8, 8, 8]

/-- `+GMI` -/
def manufacturer : AtCmd := ⟨.extended, .set, false, some [43, 71, 77, 73], some []⟩

/-- `+CGMI` -/
def identification : AtCmd := ⟨.extended, .set, false, some [43, 67, 71, 77, 73], some []⟩

/-- `+CFUN=0` -/
def functionality : AtCmd := ⟨.extended, .set, true, some [43, 67, 70, 85, 78], some [48]⟩

/-- The backspace that deletes a blank takes the `C` from the line; the deleted command `+CFUN=0` is handed out. -/
theorem edited_otherwise :
    (Drafts fresh.lineHabit blankDeleted (atOnce blankDeleted) ∧
      editedLine fresh.lineHabit blankDeleted = [65, 84, 43, 67, 71, 77, 73] ∧
      HandsShown fresh (atOnce blankDeleted) [manufacturer] ∧
      ¬HandsShown fresh (atOnce (editedLine fresh.lineHabit blankDeleted)) [manufacturer]) ∧
    (Drafts fresh.lineHabit commandDeleted (atOnce commandDeleted) ∧
      editedLine fresh.lineHabit commandDeleted = [65, 84, 43, 67, 71, 77, 73] ∧
      HandsShown fresh (atOnce commandDeleted) [identification, functionality] ∧
      ¬HandsShown fresh (atOnce (editedLine fresh.lineHabit commandDeleted)) [identification, functionality]) := by
  refine ⟨⟨drafts_atOnce (by decide) (by decide +kernel), by decide +kernel, ⟨fun k hk => ?_, by decide +kernel⟩,
    fun h => ?_⟩, drafts_atOnce (by decide) (by decide +kernel), by decide +kernel, ⟨fun k hk => ?_, by decide +kernel⟩,
    fun h => ?_⟩
  · obtain rfl : k = 0 := Nat.lt_one_iff.1 hk
    exact ⟨by decide +kernel, show _ = some manufacturer by decide +kernel⟩
  · have hcmd := (h.1 0 (by decide)).2
    revert hcmd
    decide +kernel
  · have hcases : k = 0 ∨ k = 1 := by
      change k < 2 at hk
      omega
    rcases hcases with rfl | rfl
    · exact ⟨by decide +kernel, show _ = some identification by decide +kernel⟩
    · exact ⟨by decide +kernel, show _ = some functionality by decide +kernel⟩
  · have hcmd := (h.1 1 (by decide)).1
    revert hcmd
    decide +kernel

end editing

end Citrine.Aci
