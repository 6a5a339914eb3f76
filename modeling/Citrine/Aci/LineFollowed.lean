import Citrine.Aci.LineDraft

/-!
# Calls with a command line

The record of a source that calls of `ledit_cmd` leave follows the sheet of the line, whatever the lengths of the calls;
what is answered at the end of the line depends on the sheet alone (`drafted_calls`).
-/

namespace Citrine.Aci

open Feed

section
variable {h : LineHabit} {x : Sheet} {s t u : Ledit} {c : Nat} {cs tail : List Nat} {rv : LeditRslt}

/-! ### The record follows the sheet -/

/-- The record of a line that is typed. -/
private structure Follows (h : LineHabit) (x : Sheet) (t : Ledit) : Prop where
  habit : t.lineHabit = h
  state : t.state = x.draft.state
  notRepeat : t.state ≠ .repeat
  notRun : t.state ≠ .runCmd
  empty : x.draft.state ≠ .collect → x.draft.chars = []
  copyIter : t.copyIter = x.draft.chars.length
  origBufIter : t.origBufIter = x.draft.chars.length
  isStr : t.isStr = inString false x.draft.typed
  line : t.line = x.buffer
  stored : ∀ i < x.draft.chars.length, x.buffer i = x.draft.line.getD i 0
  orig : ∀ i < x.draft.chars.length, t.orig i = x.draft.typed.getD i 0
  high : ∀ j, maxCmdLen ≤ j + 2 → x.buffer j = 0 ∧ t.orig j = 0
  both : t.lineBuffer.isNone = t.origBuffer.isNone
  allocated : t.state = .collect → t.lineBuffer.isNone = false
  execBufIter : t.execBufIter = 0

private theorem put_getD {o : Option Buf} (ho : o.isNone = false) (i v : Nat) :
    (o.map fun b => b.put i v).getD Ledit.zeros = (o.getD Ledit.zeros).put i v := by
  cases o with
  | none => cases ho
  | some b => rfl

private theorem getD_snoc {l : List Nat} {v i : Nat} (hi : i < l.length + 1) :
    (l ++ [v]).getD i 0 = if i = l.length then v else l.getD i 0 := by
  split_ifs with heq
  · rw [heq, List.getD_append_right _ _ _ _ le_rfl, Nat.sub_self, List.getD_cons_zero]
  · rw [List.getD_append _ _ _ _ (by omega)]

/-- A character that is stored. -/
private theorem Follows.store {b : Nat} (hf : Follows h x t) (hst : x.draft.state = .collect)
    (hkey : x.draft.key h c = { x.draft with chars := x.draft.chars ++ [(c, b)] })
    (hfits : x.draft.chars.length + 3 ≤ maxCmdLen) :
    Follows h (x.key h c) (({ t with isStr := inString t.isStr [c] } : Ledit).store c b) := by
  have hopen := hf.allocated (hf.state.trans hst)
  have hsheet : x.key h c = ⟨{ x.draft with chars := x.draft.chars ++ [(c, b)] }, x.buffer.put x.draft.chars.length b⟩ := by
    unfold Sheet.key Draft.line
    dsimp only
    rw [hkey]
    dsimp only
    rw [if_pos (by rw [List.length_append, List.length_singleton]; omega), List.map_append, List.getD_append_right _ _ _ _
      (by rw [List.length_map]), List.length_map, Nat.sub_self]
    rfl
  have hlen : (x.draft.chars ++ [(c, b)]).length = x.draft.chars.length + 1 := List.length_append
  rw [hsheet]
  refine ⟨hf.habit, hf.state, hf.notRepeat, hf.notRun, fun hne => absurd hst hne, ?_, ?_, ?_, ?_, ?_, ?_, ?_, ?_, ?_,
    hf.execBufIter⟩
  · exact (congrArg (· + 1) hf.copyIter).trans hlen.symm
  · exact (congrArg (· + 1) hf.origBufIter).trans hlen.symm
  · change inString t.isStr [c] = inString false ((x.draft.chars ++ [(c, b)]).map Prod.fst)
    rw [List.map_append, inString_append, hf.isStr]
    rfl
  · change (t.lineBuffer.map fun b' => b'.put t.copyIter b).getD Ledit.zeros = _
    rw [put_getD hopen, hf.copyIter, ← hf.line]
    rfl
  · intro i hi
    rw [hlen] at hi
    change (if i = x.draft.chars.length then b else x.buffer i) = ((x.draft.chars ++ [(c, b)]).map Prod.snd).getD i 0
    rw [List.map_append, show [(c, b)].map Prod.snd = [b] from rfl, getD_snoc (by rw [List.length_map]; exact hi),
      List.length_map]
    split_ifs with heq
    · rfl
    · exact hf.stored i (by omega)
  · intro i hi
    rw [hlen] at hi
    change (t.origBuffer.map fun b' => b'.put t.origBufIter c).getD Ledit.zeros i =
      ((x.draft.chars ++ [(c, b)]).map Prod.fst).getD i 0
    rw [put_getD (hf.both ▸ hopen), hf.origBufIter, List.map_append, show [(c, b)].map Prod.fst = [c] from rfl,
      getD_snoc (by rw [List.length_map]; exact hi), List.length_map]
    change (if i = x.draft.chars.length then c else t.orig i) = _
    split_ifs with heq
    · rfl
    · exact hf.orig i (by omega)
  · intro j hj
    refine ⟨?_, ?_⟩
    · change (if j = x.draft.chars.length then b else x.buffer j) = 0
      rw [if_neg (by omega)]
      exact (hf.high j hj).1
    · change (t.origBuffer.map fun b' => b'.put t.origBufIter c).getD Ledit.zeros j = 0
      rw [put_getD (hf.both ▸ hopen), hf.origBufIter]
      change (if j = x.draft.chars.length then c else t.orig j) = 0
      rw [if_neg (by omega)]
      exact (hf.high j hj).2
  · change (t.lineBuffer.map _).isNone = (t.origBuffer.map _).isNone
    rw [Option.isNone_map, Option.isNone_map]
    exact hf.both
  · intro _
    change (t.lineBuffer.map _).isNone = false
    rw [Option.isNone_map]
    exact hopen

private theorem maxCmdLen_lt : maxCmdLen < 65535 := by decide

/-- The terminators are written behind the line. -/
private theorem Follows.terminate (hf : Follows h x t) (hst : x.draft.state = .collect) : Follows h x.ended t.terminate := by
  have hopen := hf.allocated (hf.state.trans hst)
  have hsheet : x.ended = ⟨x.draft, x.buffer.put x.draft.chars.length 0⟩ := if_pos hst
  have hput : ∀ {b : Buf} {i j : Nat}, b j = 0 → b.put i 0 j = 0 := by
    intro b i j hb
    change (if j = i then 0 else b j) = 0
    split_ifs
    · rfl
    · exact hb
  have hbelow : ∀ {b : Buf} {i : Nat}, i < x.draft.chars.length → b.put x.draft.chars.length 0 i = b i := fun hi =>
    if_neg (Nat.ne_of_lt hi)
  have horig : t.terminate.orig = t.orig.put x.draft.chars.length 0 := by
    change (t.origBuffer.map fun b => b.put t.origBufIter 0).getD Ledit.zeros = _
    rw [put_getD (hf.both ▸ hopen), hf.origBufIter]
    rfl
  rw [hsheet]
  refine ⟨hf.habit, hf.state, hf.notRepeat, hf.notRun, hf.empty, hf.copyIter, hf.origBufIter, hf.isStr, ?_, ?_, ?_, ?_, ?_,
    ?_, hf.execBufIter⟩
  · change (t.lineBuffer.map fun b => b.put t.copyIter 0).getD Ledit.zeros = _
    rw [put_getD hopen, hf.copyIter, ← hf.line]
    rfl
  · intro i hi
    exact (hbelow hi).trans (hf.stored i hi)
  · intro i hi
    rw [horig, hbelow hi]
    exact hf.orig i hi
  · intro j hj
    rw [horig]
    exact ⟨hput (hf.high j hj).1, hput (hf.high j hj).2⟩
  · change (t.lineBuffer.map _).isNone = (t.origBuffer.map _).isNone
    rw [Option.isNone_map, Option.isNone_map]
    exact hf.both
  · intro _
    change (t.lineBuffer.map _).isNone = false
    rw [Option.isNone_map]
    exact hopen

/-- The last character is taken back. -/
private theorem Follows.takenBack (hf : Follows h x t) (hlen : x.draft.chars.length < maxCmdLen) :
    t.backspace.isStr = inString false (x.draft.chars.dropLast.map Prod.fst) ∧
      t.backspace.copyIter = x.draft.chars.dropLast.length ∧ t.backspace.origBufIter = x.draft.chars.dropLast.length := by
  have hmax := maxCmdLen_lt
  have hcount : x.draft.chars.dropLast.length = x.draft.chars.length - 1 := List.length_dropLast
  refine ⟨?_, ?_, ?_⟩
  · change (if t.orig ((t.origBufIter + 65535) % 65536) = 34 then !t.isStr else t.isStr) = _
    rw [hf.origBufIter, hf.isStr]
    have horig := hf.orig
    have hhigh := hf.high
    unfold Draft.typed at horig ⊢
    rcases List.eq_nil_or_concat' x.draft.chars with hnil | ⟨l, p, hl⟩
    · rw [hnil, List.length_nil, Nat.zero_add]
      rw [if_neg (by rw [(hhigh _ (by omega)).2]; decide)]
      rfl
    · rw [hl] at hlen horig ⊢
      rw [List.length_append, List.length_singleton] at hlen horig ⊢
      have hindex : (l.length + 1 + 65535) % 65536 = l.length := by omega
      rw [hindex, horig l.length (Nat.lt_succ_self _), List.map_append, List.dropLast_concat, inString_append,
        show [p].map Prod.fst = [p.1] from rfl, getD_snoc (by rw [List.length_map]; omega), List.length_map, if_pos rfl]
      unfold inString
      dsimp only [List.foldl]
      by_cases hp : p.1 = 34
      · rw [if_pos hp, if_pos hp, Bool.not_not]
      · rw [if_neg hp, if_neg hp]
  · rw [hcount, ← hf.copyIter]
    rfl
  · rw [hcount, ← hf.origBufIter]
    rfl

private theorem getD_dropLast {l : List Nat} {i : Nat} (hi : i < l.dropLast.length) : l.dropLast.getD i 0 = l.getD i 0 := by
  rcases List.eq_nil_or_concat' l with rfl | ⟨m, v, rfl⟩
  · exact absurd hi (Nat.not_lt_zero i)
  · rw [List.dropLast_concat] at hi ⊢
    exact (List.getD_append _ _ _ _ hi).symm

/-- A backspace that leaves characters of the line. -/
private theorem Follows.backspace (hf : Follows h x t) (hst : x.draft.state = .collect) (h4 : c ≠ h.s4) (h5 : c = h.s5)
    (hlen : x.draft.chars.length < maxCmdLen) (hleft : x.draft.chars.dropLast ≠ []) : Follows h (x.key h c) t.backspace := by
  obtain ⟨hstr, hcopy, horig⟩ := hf.takenBack hlen
  have hkey := character_back hst h4 h5
  rw [if_neg hleft, hst] at hkey
  have hcount : x.draft.chars.dropLast.length ≤ x.draft.chars.length := by rw [List.length_dropLast]; omega
  have hsheet : x.key h c = ⟨⟨.collect, x.draft.chars.dropLast⟩, x.buffer⟩ := by
    unfold Sheet.key
    dsimp only
    rw [hkey]
    dsimp only
    rw [if_neg (by omega), if_neg fun hc => nomatch hc.2]
  rw [hsheet]
  refine ⟨hf.habit, hf.state.trans hst, hf.notRepeat, hf.notRun, fun hne => absurd rfl hne, hcopy, horig, hstr, hf.line, ?_,
    ?_, hf.high, hf.both, hf.allocated, hf.execBufIter⟩
  · intro i hi
    have hi' : i < (x.draft.chars.map Prod.snd).dropLast.length := by rw [← List.map_dropLast, List.length_map]; exact hi
    change x.buffer i = (x.draft.chars.dropLast.map Prod.snd).getD i 0
    rw [List.map_dropLast, getD_dropLast hi']
    exact hf.stored i (Nat.lt_of_lt_of_le hi hcount)
  · intro i hi
    have hi' : i < (x.draft.chars.map Prod.fst).dropLast.length := by rw [← List.map_dropLast, List.length_map]; exact hi
    change t.orig i = (x.draft.chars.dropLast.map Prod.fst).getD i 0
    rw [List.map_dropLast, getD_dropLast hi']
    exact hf.orig i (Nat.lt_of_lt_of_le hi hcount)

/-- A backspace that leaves none. -/
private theorem Follows.emptied (hf : Follows h x t) (hst : x.draft.state = .collect) (h4 : c ≠ h.s4) (h5 : c = h.s5)
    (hlen : x.draft.chars.length < maxCmdLen) (hleft : x.draft.chars.dropLast = []) :
    Follows h (x.key h c) (t.backspace.setState .prefixT).terminate ∧ t.backspace.copyIter = 0 := by
  obtain ⟨hstr, hcopy, horig⟩ := hf.takenBack hlen
  have hopen := hf.allocated (hf.state.trans hst)
  have hkey := character_back hst h4 h5
  rw [if_pos hleft, hleft] at hkey
  rw [hleft] at hstr hcopy horig
  have hsheet : x.key h c = ⟨⟨.prefixT, []⟩, x.buffer.put 0 0⟩ := by
    unfold Sheet.key
    dsimp only
    rw [hkey]
    dsimp only
    rw [if_neg (by rw [List.length_nil]; omega), if_pos ⟨hst, rfl⟩]
  rw [hsheet]
  refine ⟨⟨hf.habit, rfl, nofun, nofun, fun _ => rfl, hcopy, horig, hstr, ?_, fun i hi => absurd hi (Nat.not_lt_zero i),
    fun i hi => absurd hi (Nat.not_lt_zero i), ?_, ?_, nofun, hf.execBufIter⟩, hcopy⟩
  · change (t.lineBuffer.map fun b => b.put t.backspace.copyIter 0).getD Ledit.zeros = _
    rw [put_getD hopen, hcopy, ← hf.line]
    rfl
  · intro j hj
    obtain ⟨hline, ho⟩ := hf.high j hj
    refine ⟨?_, ?_⟩
    · change (if j = 0 then 0 else x.buffer j) = 0
      rw [hline, ite_self]
    · change (t.origBuffer.map fun b => b.put t.backspace.origBufIter 0).getD Ledit.zeros j = 0
      rw [put_getD (hf.both ▸ hopen), horig]
      change (if j = 0 then 0 else t.orig j) = 0
      rw [ho, ite_self]
  · change (t.lineBuffer.map _).isNone = (t.origBuffer.map _).isNone
    rw [Option.isNone_map, Option.isNone_map]
    exact hf.both

/-! ### The calls follow the sheet -/

/-- The loop of `ledit_cmd`, inside of `ledit_collect` if that is the state. -/
private def go (t : Ledit) (cs : List Nat) : Ledit × LeditRslt :=
  if t.state = .collect then loop (t.collect cs).1 (t.collect cs).2.1 (t.collect cs).2.2 else loop t .collect cs

/-- Two results with one record, of which both or none ask for more. -/
private def Alike (r r' : Ledit × LeditRslt) : Prop := r.1 = r'.1 ∧ (r.2 = r'.2 ∨ r.2.goesOn = true ∧ r'.2.goesOn = true)

private theorem Alike.refl (r : Ledit × LeditRslt) : Alike r r := ⟨rfl, Or.inl rfl⟩

private theorem Alike.trans {a b r : Ledit × LeditRslt} (hab : Alike a b) (hbr : Alike b r) : Alike a r := by
  refine ⟨hab.1.trans hbr.1, ?_⟩
  rcases hab.2 with heq | ⟨hg, hg'⟩
  · rw [heq]
    exact hbr.2
  · rcases hbr.2 with heq | ⟨-, hg''⟩
    · exact Or.inr ⟨hg, heq ▸ hg'⟩
    · exact Or.inr ⟨hg, hg''⟩

private theorem loop_go (hrv : rv.goesOn = true) (hne : cs ≠ []) : loop t rv cs = go t cs := by
  unfold go
  split_ifs with hst
  · cases cs with
    | nil => exact absurd rfl hne
    | cons c cs =>
      have hfn : t.stateFn c cs = t.collect (c :: cs) := by
        unfold Ledit.stateFn
        rw [hst]
      rw [loop_cons hrv, hfn]
  · exact loop_collect hrv hne

/-- Between two characters the loop goes on. -/
private theorem loop_alike (hrv : rv.goesOn = true) (hst : t.state = .collect → (t.collect []).1 = t) (cs : List Nat) :
    Alike (loop t rv cs) (go t cs) := by
  cases cs with
  | nil =>
    unfold go
    split_ifs with hc
    · exact ⟨(hst hc).symm, Or.inr ⟨hrv, rfl⟩⟩
    · exact ⟨rfl, Or.inr ⟨hrv, rfl⟩⟩
  | cons c cs =>
    rw [loop_go hrv (List.cons_ne_nil c cs)]
    exact Alike.refl _

private theorem collect_open (hopen : t.lineBuffer.isNone = false) : t.collect = Ledit.collectLoop t := by
  funext cs
  unfold Ledit.collect
  rw [hopen]
  rfl

/-- A single octet, and what follows it. -/
private def Keyed (h : LineHabit) (x : Sheet) (t : Ledit) (c : Nat) : Prop :=
  ∃ t', Follows h (x.key h c) t' ∧ ∀ tail, Alike (go t (c :: tail)) (go t' tail)

private theorem character_dropped (hc : stored t.isStr c = []) : t.character c = t := by
  unfold stored at hc
  unfold Ledit.character
  split_ifs at hc ⊢
  · rfl
  · rfl

private theorem character_stored {d : Nat} (hc : stored t.isStr c = [(c, d)]) :
    t.character c = ({ t with isStr := inString t.isStr [c] } : Ledit).store c d := by
  unfold stored at hc
  unfold Ledit.character
  by_cases h32 : c = 32
  · subst h32
    rw [if_pos rfl] at hc ⊢
    split_ifs at hc with hstr
    cases hc
    rw [if_pos hstr]
    rfl
  · rw [if_neg h32] at hc ⊢
    split_ifs at hc with hrange
    cases hc
    rw [if_pos hrange]
    unfold folded
    by_cases h34 : c = 34
    · subst h34
      rfl
    · have hsame : inString t.isStr [c] = t.isStr := if_neg h34
      rw [hsame]
      simp only [if_neg h34]

/-- A character in `ledit_collect`. -/
private theorem collect_keyed (hf : Follows h x t) (hst : x.draft.state = .collect) (h3 : c ≠ h.s3)
    (hfits : x.draft.chars.length + 2 ≤ maxCmdLen) (hnext : (x.draft.key h c).chars.length + 2 ≤ maxCmdLen) :
    Keyed h x t c := by
  have htst := hf.state.trans hst
  have hopen := hf.allocated htst
  have hgo : ∀ {u : Ledit}, u.state = .collect → u.lineBuffer.isNone = false → ∀ tail,
      go u tail = loop (Ledit.collectLoop u tail).1 (Ledit.collectLoop u tail).2.1 (Ledit.collectLoop u tail).2.2 := by
    intro u hu ho tail
    unfold go
    rw [if_pos hu, collect_open ho]
  have hkey : x.draft.key h c = x.draft.character h c := by
    unfold Draft.key
    rw [hst]
  -- the line is not changed
  have hstay : ∀ {u : Ledit}, Follows h x u → x.draft.key h c = x.draft → (∀ tail, Alike (go t (c :: tail)) (go u tail)) →
      Keyed h x t c := by
    intro u hu hsame hall
    refine ⟨u, ?_, hall⟩
    rw [Sheet.key_same hsame]
    exact hu
  have hloop : ∀ tail, Ledit.collectLoop t (c :: tail) =
      if t.copyIter + 2 = maxCmdLen ∧ c ≠ t.lineHabit.s3 ∧ c ≠ t.lineHabit.s5 then (t, .ignore, tail)
      else if c = t.lineHabit.s3 then (t.endLine.1, t.endLine.2, tail)
      else if c = t.lineHabit.s4 then Ledit.collectLoop t tail
      else if c = t.lineHabit.s5 then
        if t.backspace.copyIter = 0 then ((t.backspace.setState .prefixT).terminate, .collect, tail)
        else Ledit.collectLoop t.backspace tail
      else Ledit.collectLoop (t.character c) tail := fun tail => rfl
  rw [hf.habit] at hloop
  by_cases hfull : t.copyIter + 2 = maxCmdLen ∧ c ≠ h.s3 ∧ c ≠ h.s5
  · -- the buffer is full, and the character none that is stored
    have hsame : x.draft.key h c = x.draft := by
      rw [hkey] at hnext ⊢
      unfold Draft.character at hnext ⊢
      rw [if_neg hfull.2.2] at hnext ⊢
      split_ifs at hnext ⊢ with h4
      · rfl
      · dsimp only at hnext
        rw [List.length_append, ← hf.copyIter] at hnext
        have hnil : stored (inString false x.draft.typed) c = [] := List.length_eq_zero_iff.1 (by omega)
        rw [hnil, List.append_nil]
    refine hstay hf hsame fun tail => ?_
    rw [hgo htst hopen, hloop, if_pos hfull]
    refine loop_alike rfl (fun _ => ?_) tail
    rw [collect_open hopen]
    have hcopy := hf.copyIter
    have hbuf := (hf.high t.copyIter (by omega)).1
    have horig := (hf.high t.origBufIter (by rw [hf.origBufIter, ← hf.copyIter]; omega)).2
    rw [← hf.line] at hbuf
    change t.terminate = t
    unfold Ledit.terminate
    rw [map_put_zero hbuf, map_put_zero horig]
  simp only [if_neg hfull, if_neg h3] at hloop
  by_cases h4 : c = h.s4
  · simp only [if_pos h4] at hloop
    refine hstay hf ?_ fun tail => ?_
    · rw [hkey]
      unfold Draft.character
      rw [if_pos h4]
    · rw [hgo htst hopen, hloop, hgo htst hopen]
      exact Alike.refl _
  simp only [if_neg h4] at hloop
  by_cases h5 : c = h.s5
  · simp only [if_pos h5] at hloop
    by_cases hleft : x.draft.chars.dropLast = []
    · obtain ⟨hnew, hzero⟩ := hf.emptied hst h4 h5 (by omega) hleft
      refine ⟨_, hnew, fun tail => ?_⟩
      rw [hgo htst hopen, hloop, if_pos hzero]
      exact loop_alike rfl (fun hc => nomatch (show LeditState.prefixT = .collect from hc)) tail
    · have hnew := hf.backspace hst h4 h5 (by omega) hleft
      have hcount : t.backspace.copyIter ≠ 0 := by
        rw [(hf.takenBack (by omega)).2.1]
        exact fun hz => hleft (List.length_eq_zero_iff.1 hz)
      refine ⟨_, hnew, fun tail => ?_⟩
      rw [hgo htst hopen, hloop, if_neg hcount]
      rw [hgo (u := t.backspace) htst hopen]
      exact Alike.refl _
  · simp only [if_neg h5] at hloop
    have hchar : x.draft.key h c = { x.draft with chars := x.draft.chars ++ stored (inString false x.draft.typed) c } := by
      rw [hkey]
      unfold Draft.character
      rw [if_neg h4, if_neg h5]
    rcases stored_cases (inString false x.draft.typed) c with hc | ⟨b, hc⟩
    · rw [hc, List.append_nil] at hchar
      refine hstay hf hchar fun tail => ?_
      rw [hgo htst hopen, hloop, character_dropped (by rw [hf.isStr]; exact hc), hgo htst hopen]
      exact Alike.refl _
    · rw [hc] at hchar
      have hroom : x.draft.chars.length + 3 ≤ maxCmdLen := by
        rw [hchar] at hnext
        dsimp only at hnext
        rw [List.length_append, List.length_singleton] at hnext
        omega
      have hnew := hf.store hst hchar hroom
      refine ⟨_, hnew, fun tail => ?_⟩
      rw [hgo htst hopen, hloop, character_stored (by rw [hf.isStr]; exact hc)]
      rw [hgo (u := ({ t with isStr := inString t.isStr [c] } : Ledit).store c b) htst
        ((congrArg (·) (Option.isNone_map)).trans hopen)]
      exact Alike.refl _

/-- A state in front of the line. -/
private theorem Follows.turn (st : LeditState) (hf : Follows h x t) (hst : x.draft.state ≠ .collect) (hcol : st ≠ .collect)
    (hrep : st ≠ .repeat) (hrun : st ≠ .runCmd) (hkey : x.draft.key h c = { x.draft with state := st }) :
    Follows h (x.key h c) (t.setState st) := by
  have hsheet : x.key h c = ⟨{ x.draft with state := st }, x.buffer⟩ := by
    unfold Sheet.key
    dsimp only
    rw [hkey, if_neg (Nat.lt_irrefl _), if_neg fun hc => hst hc.1]
  rw [hsheet]
  exact ⟨hf.habit, rfl, hrep, hrun, fun _ => hf.empty hst, hf.copyIter, hf.origBufIter, hf.isStr, hf.line, hf.stored,
    hf.orig, hf.high, hf.both, fun hc => absurd hc hcol, hf.execBufIter⟩

/-- `ledit_prefix_t` leaves the first character of a command to `ledit_collect`, which allocates the buffers. -/
private theorem Follows.opened (hf : Follows h x t) (hst : x.draft.state = .prefixT) :
    ∃ u, Follows h ⟨{ x.draft with state := .collect }, x.buffer⟩ u ∧ ∀ cs, go (t.setState .collect) cs = go u cs := by
  have hcollect : ∀ cs, go (t.setState .collect) cs = loop ((t.setState .collect).collect cs).1
      ((t.setState .collect).collect cs).2.1 ((t.setState .collect).collect cs).2.2 := fun _ => if_pos rfl
  have hempty : x.draft.chars = [] := hf.empty (by rw [hst]; exact nofun)
  cases hbuf : t.lineBuffer.isNone with
  | false =>
    refine ⟨t.setState .collect, ⟨hf.habit, rfl, nofun, nofun, fun hne => absurd rfl hne, hf.copyIter, hf.origBufIter,
      hf.isStr, hf.line, hf.stored, hf.orig, hf.high, hf.both, fun _ => hbuf, hf.execBufIter⟩, fun _ => rfl⟩
  | true =>
    have hline : Ledit.zeros = x.buffer := by
      rw [← hf.line]
      unfold Ledit.line
      rw [Option.isNone_iff_eq_none.1 hbuf]
      rfl
    refine ⟨(t.setState .collect).clearLineBuf, ⟨hf.habit, rfl, nofun, nofun, fun hne => absurd rfl hne, hf.copyIter,
      hf.origBufIter, hf.isStr, hline, hf.stored, ?_, fun j hj => ⟨(hf.high j hj).1, rfl⟩, rfl, fun _ => rfl,
      hf.execBufIter⟩, fun cs => ?_⟩
    · intro i hi
      dsimp only at hi
      rw [hempty] at hi
      exact absurd hi (Nat.not_lt_zero i)
    · rw [hcollect]
      have hopen : (t.setState .collect).collect cs = Ledit.collectLoop (t.setState .collect).clearLineBuf cs :=
        congrArg (Ledit.collectLoop · cs) (if_pos hbuf)
      unfold go
      rw [if_pos (show (t.setState .collect).clearLineBuf.state = .collect from rfl),
        collect_open (show (t.setState .collect).clearLineBuf.lineBuffer.isNone = false from rfl), hopen]

private theorem go_front (hst : t.state ≠ .collect) (hfn : t.stateFn c tail = (u, rv, tail)) (hrv : rv.goesOn = true)
    (hu : u.state ≠ .collect) : Alike (go t (c :: tail)) (go u tail) := by
  have hstep : go t (c :: tail) = loop u rv tail := by
    unfold go
    rw [if_neg hst, loop_cons rfl, hfn]
  rw [hstep]
  exact loop_alike hrv (fun hc => absurd hc hu) tail

/-- A character in any state. -/
private theorem keyed (hf : Follows h x t) (hfits : fitsDraft h x.draft [c] = true) : Keyed h x t c := by
  unfold fitsDraft fitsDraft at hfits
  simp only [Bool.and_eq_true, decide_eq_true_eq, bne_iff_ne, ne_eq, Bool.not_eq_true', Bool.and_eq_false_iff,
    decide_eq_false_iff_not, beq_eq_false_iff_ne] at hfits
  obtain ⟨⟨⟨hroom, h3⟩, hslash⟩, hnext⟩ := hfits
  have h3' : c ≠ t.lineHabit.s3 := hf.habit ▸ h3
  have hst := hf.state
  cases hd : x.draft.state with
  | idle =>
    have hkey : x.draft.key h c = if c = 97 ∨ c = 65 then { x.draft with state := .prefixA } else x.draft := by
      unfold Draft.key
      rw [hd]
    have hfn : ∀ tail, t.stateFn c tail = if c = 97 ∨ c = 65 then (t.setState .prefixA, .collect, tail) else (t, .ignore, tail) := by
      intro tail
      unfold Ledit.stateFn Ledit.idle
      rw [hst, hd]
      dsimp only
      rw [if_neg h3']
      split_ifs <;> rfl
    have hncol : x.draft.state ≠ .collect := by
      rw [hd]
      decide
    have htst : t.state ≠ .collect := hst ▸ hncol
    by_cases ha : c = 97 ∨ c = 65
    · rw [if_pos ha] at hkey
      simp only [if_pos ha] at hfn
      exact ⟨_, hf.turn .prefixA hncol (by decide) (by decide) (by decide) hkey, fun tail =>
        go_front htst (hfn tail) rfl (show LeditState.prefixA ≠ .collect by decide)⟩
    · rw [if_neg ha] at hkey
      simp only [if_neg ha] at hfn
      refine ⟨t, ?_, fun tail => go_front htst (hfn tail) rfl htst⟩
      rw [Sheet.key_same hkey]
      exact hf
  | prefixA =>
    have hncol : x.draft.state ≠ .collect := by
      rw [hd]
      decide
    have htst : t.state ≠ .collect := hst ▸ hncol
    have h47 : c ≠ 47 := hslash.resolve_left fun hno => hno hd
    have hkey : x.draft.key h c = if c = 116 ∨ c = 84 then { x.draft with state := .prefixT }
        else if c = h.s5 then { x.draft with state := .idle } else x.draft := by
      unfold Draft.key
      rw [hd]
    have hfn : ∀ tail, t.stateFn c tail = if c = 116 ∨ c = 84 then (t.setState .prefixT, .collect, tail)
        else if c = h.s5 then (t.setState .idle, .collect, tail) else (t, .ignore, tail) := by
      intro tail
      unfold Ledit.stateFn Ledit.prefixA
      rw [hst, hd, hf.habit]
      dsimp only
      rw [if_neg h3, if_neg h47]
      split_ifs <;> rfl
    by_cases hT : c = 116 ∨ c = 84
    · rw [if_pos hT] at hkey
      simp only [if_pos hT] at hfn
      exact ⟨_, hf.turn .prefixT hncol (by decide) (by decide) (by decide) hkey, fun tail =>
        go_front htst (hfn tail) rfl (show LeditState.prefixT ≠ .collect by decide)⟩
    rw [if_neg hT] at hkey
    simp only [if_neg hT] at hfn
    by_cases h5 : c = h.s5
    · rw [if_pos h5] at hkey
      simp only [if_pos h5] at hfn
      exact ⟨_, hf.turn .idle hncol (by decide) (by decide) (by decide) hkey, fun tail =>
        go_front htst (hfn tail) rfl (show LeditState.idle ≠ .collect by decide)⟩
    · rw [if_neg h5] at hkey
      simp only [if_neg h5] at hfn
      refine ⟨t, ?_, fun tail => go_front htst (hfn tail) rfl htst⟩
      rw [Sheet.key_same hkey]
      exact hf
  | prefixT =>
    have hncol : x.draft.state ≠ .collect := by
      rw [hd]
      decide
    have htst : t.state ≠ .collect := hst ▸ hncol
    have hkey : x.draft.key h c = if c = h.s5 then { x.draft with state := .prefixA }
        else { x.draft with state := .collect }.character h c := by
      unfold Draft.key
      rw [hd]
    by_cases h5 : c = h.s5
    · rw [if_pos h5] at hkey
      have hfn : ∀ tail, t.stateFn c tail = (t.setState .prefixA, .collect, tail) := by
        intro tail
        unfold Ledit.stateFn
        rw [hst, hd]
        dsimp only
        rw [if_neg h3', hf.habit, if_pos h5]
      exact ⟨_, hf.turn .prefixA hncol (by decide) (by decide) (by decide) hkey, fun tail =>
        go_front htst (hfn tail) rfl (show LeditState.prefixA ≠ .collect by decide)⟩
    · rw [if_neg h5] at hkey
      obtain ⟨u, hu, hgo⟩ := hf.opened hd
      have hsheet : Sheet.key h ⟨{ x.draft with state := .collect }, x.buffer⟩ c = x.key h c := by
        have hstays : (({ x.draft with state := .collect } : Draft).character h c).state ≠ .prefixT := by
          unfold Draft.character
          rw [if_neg h5]
          split_ifs
          · exact show LeditState.collect ≠ .prefixT by decide
          · exact show LeditState.collect ≠ .prefixT by decide
        have hsame : ({ x.draft with state := .collect } : Draft).key h c = x.draft.key h c := hkey.symm
        have hopened : ¬(LeditState.collect = .collect ∧ (x.draft.key h c).state = .prefixT) := fun hc =>
          hstays (hkey ▸ hc.2)
        have hclosed : ¬(x.draft.state = .collect ∧ (x.draft.key h c).state = .prefixT) := fun hc => hncol hc.1
        unfold Sheet.key
        dsimp only
        rw [hsame, if_neg hopened, if_neg hclosed]
      have hstep : ∀ tail, go t (c :: tail) = go (t.setState .collect) (c :: tail) := by
        intro tail
        have hfn : t.stateFn c tail = (t.setState .collect, .collect, c :: tail) := by
          unfold Ledit.stateFn
          rw [hst, hd]
          dsimp only
          rw [if_neg h3', hf.habit, if_neg h5]
        have hleft : go t (c :: tail) = loop (t.setState .collect) .collect (c :: tail) := by
          unfold go
          rw [if_neg htst, loop_cons rfl, hfn]
        rw [hleft]
        exact loop_go rfl (List.cons_ne_nil c tail)
      obtain ⟨t', ht', hall⟩ := collect_keyed hu rfl h3 hroom (by
        change (({ x.draft with state := .collect } : Draft).character h c).chars.length + 2 ≤ maxCmdLen
        rw [← hkey]
        exact hnext)
      refine ⟨t', hsheet ▸ ht', fun tail => ?_⟩
      rw [hstep, hgo]
      exact hall tail
  | collect => exact collect_keyed hf hd h3 hroom hnext
  | «repeat» => exact absurd (hst.trans hd) hf.notRepeat
  | runCmd => exact absurd (hst.trans hd) hf.notRun

/-- The characters of a call, one after the other. -/
private theorem keys_followed (hf : Follows h x t) (hfits : fitsDraft h x.draft cs = true) :
    ∃ u, Follows h (cs.foldl (Sheet.key h) x) u ∧ ∀ tail, Alike (go t (cs ++ tail)) (go u tail) := by
  induction cs generalizing x t with
  | nil => exact ⟨t, hf, fun _ => .refl _⟩
  | cons c cs ih =>
    have hsplit : c :: cs = [c] ++ cs := rfl
    rw [hsplit, fitsDraft_append, Bool.and_eq_true] at hfits
    obtain ⟨u, hu, hone⟩ := keyed hf hfits.1
    have hdraft : (x.key h c).draft = [c].foldl (Draft.key h) x.draft := draft_of_sheet x [c]
    obtain ⟨v, hv, hall⟩ := ih hu (hdraft ▸ hfits.2)
    refine ⟨v, hv, fun tail => ?_⟩
    rw [List.cons_append]
    exact (hone _).trans (hall tail)

private theorem cmd_loop (hrun : t.state ≠ .runCmd) (hne : cs ≠ []) (hlen : cs.length ≤ maxCmdLen) :
    Ledit.cmd t cs = Ledit.finish (go { t with err := .none } cs) := by
  unfold Ledit.cmd
  dsimp only
  rw [if_neg hrun, if_neg (by
    have hpos := List.length_pos_iff.2 hne
    omega), ← loop_go (show LeditRslt.collect.goesOn = true from rfl) hne]
  rfl

private theorem Follows.err (hf : Follows h x t) (e : LeditErr) : Follows h x { t with err := e } :=
  ⟨hf.habit, hf.state, hf.notRepeat, hf.notRun, hf.empty, hf.copyIter, hf.origBufIter, hf.isStr, hf.line, hf.stored,
    hf.orig, hf.high, hf.both, hf.allocated, hf.execBufIter⟩

/-- A call that does not end the line. -/
private theorem call_followed (hf : Follows h x t) (hne : cs ≠ []) (hlen : cs.length ≤ maxCmdLen)
    (hfits : fitsDraft h x.draft cs = true) :
    ∃ u rv, Ledit.cmd t cs = (u, rv) ∧ rv.goesOn = true ∧ Follows h (x.call h cs) u := by
  obtain ⟨u, hu, hall⟩ := keys_followed (hf.err .none) hfits
  have hdone : ∃ v, Follows h (cs.foldl (Sheet.key h) x).ended v ∧ go u [] = (v, .collect) := by
    by_cases hst : u.state = .collect
    · refine ⟨u.terminate, hu.terminate (hu.state.symm.trans hst), ?_⟩
      unfold go
      rw [if_pos hst, collect_open (hu.allocated hst)]
      rfl
    · refine ⟨u, ?_, if_neg hst⟩
      unfold Sheet.ended
      rw [if_neg fun hc => hst (hu.state.trans hc)]
      exact hu
  obtain ⟨v, hv, hgo⟩ := hdone
  obtain ⟨hsame, hrv⟩ := hall []
  rw [List.append_nil, hgo] at hsame hrv
  rw [cmd_loop hf.notRun hne hlen]
  generalize hr : go { t with err := .none } cs = r at hsame hrv
  obtain ⟨w, rv⟩ := r
  obtain rfl : w = v := hsame
  have hgoes : rv.goesOn = true := by
    rcases hrv with heq | ⟨hg, -⟩
    · rw [show rv = .collect from heq]
      rfl
    · exact hg
  refine ⟨w, rv, finish_waiting hgoes hv.notRepeat hv.notRun, hgoes, ?_⟩
  unfold Sheet.call
  rw [fitsDraft_plain hfits]
  exact hv

/-! ### The end of the line -/

/-- A record with a line that is split, the one of a sheet. -/
structure Split.Drafted (y : Sheet) (u : Ledit) : Prop where
  exec : u.execBuffer = some y.buffer
  iter : u.execBufIter = 0
  text : y.buffer.Text 0 y.draft.line
  orig : u.orig.Text 0 y.draft.typed
  high : ∀ j, maxCmdLen ≤ j + 2 → y.buffer j = 0

/-- What the last call for a line answers: the line is split, unless there is none or a string is open. -/
def Answers (y : Sheet) (r : Ledit × LeditRslt) : Prop :=
  if y.draft.state = .collect ∧ inString false y.draft.typed = false then
    ∃ u, Split.Drafted y u ∧ r = Ledit.cleared u.runCmd
  else r.2 ≠ .cmpl

private theorem text_of_getD {b : Buf} {l : List Nat} (hget : ∀ i < l.length, b i = l.getD i 0) (hend : b l.length = 0)
    (hne : ∀ c ∈ l, c ≠ 0) : b.Text 0 l := by
  refine (ofList_text hne).congr fun k _ hk => ?_
  rw [Nat.zero_add] at hk
  rcases Nat.lt_or_eq_of_le hk with hlt | rfl
  · exact hget k hlt
  · rw [hend]
    exact (List.getD_eq_default _ _ le_rfl).symm

/-- The texts of the two buffers at the end of the line. -/
private theorem Follows.texts (hf : Follows h x t) (hx : x.draft.Sound) (hst : x.draft.state = .collect) :
    x.ended.buffer.Text 0 x.draft.line ∧ t.terminate.orig.Text 0 x.draft.typed := by
  have hend := hf.terminate hst
  have hsheet : x.ended = ⟨x.draft, x.buffer.put x.draft.chars.length 0⟩ := if_pos hst
  have horig : t.terminate.orig = t.orig.put x.draft.chars.length 0 := by
    change (t.origBuffer.map fun b => b.put t.origBufIter 0).getD Ledit.zeros = _
    rw [put_getD (hf.both ▸ hf.allocated (hf.state.trans hst)), hf.origBufIter]
    rfl
  have hline : x.draft.line.length = x.draft.chars.length := List.length_map _
  have htyped : x.draft.typed.length = x.draft.chars.length := List.length_map _
  refine ⟨text_of_getD (fun i hi => ?_) ?_ fun c hc => ?_, text_of_getD (fun i hi => ?_) ?_ fun c hc => ?_⟩
  · have hstored := hend.stored i
    rw [hsheet] at hstored ⊢
    exact hstored (hline ▸ hi)
  · rw [hsheet, hline]
    exact if_pos rfl
  · obtain ⟨p, hp, rfl⟩ := List.mem_map.1 hc
    exact (hx.codes p hp).2
  · have hstored := hend.orig i
    rw [hsheet] at hstored
    exact hstored (htyped ▸ hi)
  · rw [horig, htyped]
    exact if_pos rfl
  · obtain ⟨p, hp, rfl⟩ := List.mem_map.1 hc
    exact (hx.codes p hp).1

/-- The character that ends the line. -/
private theorem end_answers (hf : Follows h x t) (hx : x.draft.Sound) :
    (go t [h.s3]).2.goesOn = false ∧ Answers x.ended (Ledit.finish (go t [h.s3])) := by
  have hst := hf.state
  have hhabit := hf.habit
  unfold Answers
  rw [ended_draft]
  have hfront : ∀ rv : LeditRslt, t.state ≠ .collect → rv = .ok ∨ rv = .fail → t.stateFn h.s3 [] = (t, rv, []) →
      (go t [h.s3]).2.goesOn = false ∧ (Ledit.finish (go t [h.s3])).2 ≠ .cmpl := by
    intro rv hcol hrv hfn
    have hgo : go t [h.s3] = (t, rv) := by
      unfold go
      rw [if_neg hcol, loop_cons rfl, hfn]
      rfl
    rw [hgo]
    rcases hrv with rfl | rfl
    · have hfinish : Ledit.finish (t, .ok) = (t, .ok) := by
        unfold Ledit.finish
        rw [show Ledit.cleared (t, .ok) = (t, .ok) from rfl]
        dsimp only
        rw [if_neg (show ¬LeditRslt.ok = .fail by decide), if_neg hf.notRepeat, if_neg (show ¬LeditRslt.ok = .fail by decide),
          if_neg hf.notRun]
      rw [hfinish]
      exact ⟨rfl, show LeditRslt.ok ≠ .cmpl by decide⟩
    · exact ⟨rfl, show LeditRslt.fail ≠ .cmpl by decide⟩
  cases hd : x.draft.state with
  | idle =>
    rw [if_neg fun hc => absurd hc.1 (by decide)]
    refine hfront .ok (by rw [hst, hd]; decide) (Or.inl rfl) ?_
    unfold Ledit.stateFn Ledit.idle
    rw [hst, hd, hhabit]
    dsimp only
    rw [if_pos rfl]
  | prefixA =>
    rw [if_neg fun hc => absurd hc.1 (by decide)]
    refine hfront .fail (by rw [hst, hd]; decide) (Or.inr rfl) ?_
    unfold Ledit.stateFn Ledit.prefixA
    rw [hst, hd, hhabit]
    dsimp only
    rw [if_pos rfl]
  | prefixT =>
    rw [if_neg fun hc => absurd hc.1 (by decide)]
    refine hfront .ok (by rw [hst, hd]; decide) (Or.inl rfl) ?_
    unfold Ledit.stateFn
    rw [hst, hd, hhabit]
    dsimp only
    rw [if_pos rfl]
  | collect =>
    have htst := hst.trans hd
    have hopen := hf.allocated htst
    have hgo : go t [h.s3] = t.endLine := by
      unfold go
      rw [if_pos htst, collect_open hopen]
      unfold Ledit.collectLoop
      rw [hhabit, if_neg fun hfull => hfull.2.1 rfl, if_pos rfl]
      exact loop_nil _ _
    have hstr : t.terminate.isStr = inString false x.draft.typed := hf.isStr
    rw [hgo]
    unfold Ledit.endLine
    dsimp only
    rw [hstr]
    cases hclosed : inString false x.draft.typed with
    | true =>
      rw [if_pos rfl, if_neg fun hc => absurd hc.2 (by decide)]
      exact ⟨rfl, show LeditRslt.fail ≠ .cmpl by decide⟩
    | false =>
      rw [if_neg (by decide), if_pos ⟨rfl, rfl⟩]
      refine ⟨rfl, { t.terminate.backup with state := .runCmd, origBufIter := 0, copyIter := 0 },
        ⟨?_, hf.execBufIter, ?_, ?_, fun j hj => ((hf.terminate hd).high j hj).1⟩, rfl⟩
      · change some t.terminate.line = _
        rw [(hf.terminate hd).line]
      · rw [ended_draft]
        exact (hf.texts hx hd).1
      · rw [ended_draft]
        exact (hf.texts hx hd).2
  | «repeat» => exact absurd (hst.trans hd) hf.notRepeat
  | runCmd => exact absurd (hst.trans hd) hf.notRun

/-- The call that ends the line. -/
private theorem last_followed (hf : Follows h x t) (hx : x.draft.Sound) (hlen : (cs ++ [h.s3]).length ≤ maxCmdLen)
    (hfits : fitsDraft h x.draft cs = true) :
    Answers (x.call h (cs ++ [h.s3])) (Ledit.cmd t (cs ++ [h.s3])) := by
  obtain ⟨u, hu, hall⟩ := keys_followed (hf.err .none) hfits
  have hsound : (cs.foldl (Sheet.key h) x).draft.Sound := by
    rw [draft_of_sheet]
    exact hx.keys cs
  obtain ⟨hstops, hans⟩ := end_answers hu hsound
  have hsame : go { t with err := .none } (cs ++ [h.s3]) = go u [h.s3] := by
    obtain ⟨hrecord, heq | ⟨-, hgo⟩⟩ := hall [h.s3]
    · exact Prod.ext hrecord heq
    · rw [hstops] at hgo
      cases hgo
  rw [call_ended x hfits, cmd_loop hf.notRun (List.append_ne_nil_of_right_ne_nil cs (List.cons_ne_nil h.s3 [])) hlen, hsame]
  exact hans

/-- Calls that type a line and end it. -/
private theorem calls_followed {calls : List (List Nat)} {keys : List Nat} (hf : Follows h x t) (hx : x.draft.Sound)
    (hrv : rv.goesOn = true) (hwhole : calls.flatten = keys ++ [h.s3])
    (hlens : ∀ p ∈ calls, p ≠ [] ∧ p.length ≤ maxCmdLen) (hfits : fitsDraft h x.draft keys = true) :
    Answers (calls.foldl (Sheet.call h) x) (feed Ledit.cmd LeditRslt.goesOn (t, rv) calls) ∧
      (calls.foldl (Sheet.call h) x).draft = keys.foldl (Draft.key h) x.draft := by
  induction calls generalizing x t rv keys with
  | nil => exact absurd hwhole.symm (List.append_ne_nil_of_right_ne_nil keys (List.cons_ne_nil h.s3 []))
  | cons p ps ih =>
    obtain ⟨hne, hlen⟩ := hlens p List.mem_cons_self
    have hrest : ∀ q ∈ ps, q ≠ [] ∧ q.length ≤ maxCmdLen := fun q hq => hlens q (List.mem_cons_of_mem _ hq)
    rw [List.flatten_cons] at hwhole
    rw [List.foldl_cons, feed_cons hrv]
    rcases List.eq_nil_or_concat' ps.flatten with hnil | ⟨l, a, hl⟩
    · obtain rfl : ps = [] := by
        cases ps with
        | nil => rfl
        | cons q qs => exact absurd (List.append_eq_nil_iff.1 hnil).1 (hrest q List.mem_cons_self).1
      rw [hnil, List.append_nil] at hwhole
      subst hwhole
      refine ⟨last_followed hf hx hlen hfits, ?_⟩
      rw [List.foldl_nil, call_ended x hfits, ended_draft, draft_of_sheet]
    · rw [hl, ← List.append_assoc] at hwhole
      obtain ⟨rfl, hlast⟩ := List.append_inj' hwhole rfl
      rw [fitsDraft_append, Bool.and_eq_true] at hfits
      obtain ⟨u, rv', hcmd, hgo, hu⟩ := call_followed hf hne hlen hfits.1
      have hdraft := call_draft x hfits.1
      rw [hcmd, List.foldl_append, ← hdraft]
      exact ih hu (hdraft ▸ hx.keys p) hgo (by rw [hl, hlast]) hrest (hdraft ▸ hfits.2)

end

/-! ### Lines -/

/-- The record of a source that waits for a line; characters of a line that has been taken back may be left in its buffers. -/
structure Ledit.Blank (s : Ledit) : Prop where
  state : s.state = .idle
  isStr : s.isStr = false
  copyIter : s.copyIter = 0
  origBufIter : s.origBufIter = 0
  execBufIter : s.execBufIter = 0
  both : s.lineBuffer.isNone = s.origBuffer.isNone
  high : ∀ j, maxCmdLen ≤ j + 2 → s.line j = 0 ∧ s.orig j = 0

/-- What the calls of `ledit_cmd` answer in the end, and the calls of `ledit_get_next` after them. -/
def reply (s : Ledit) (calls : List (List Nat)) : Nat → Ledit × LeditRslt
  | 0 => feed Ledit.cmd LeditRslt.goesOn (s, .collect) calls
  | n + 1 => (reply s calls n).1.getNext

/-- Calls that type a line and the character that ends it. -/
structure Drafts (h : LineHabit) (keys : List Nat) (calls : List (List Nat)) : Prop where
  whole : calls.flatten = keys ++ [h.s3]
  lengths : ∀ p ∈ calls, p ≠ [] ∧ p.length ≤ maxCmdLen
  fits : fitsDraft h ⟨.idle, []⟩ keys = true

/-- What the calls for a line answer depends on the sheet alone. -/
theorem drafted_calls {s : Ledit} {keys : List Nat} {calls : List (List Nat)} (hs : s.Blank)
    (ht : Drafts s.lineHabit keys calls) :
    Answers (sheet s.lineHabit s.line calls) (reply s calls 0) ∧
      (sheet s.lineHabit s.line calls).draft = draft s.lineHabit keys := by
  have hf : Follows s.lineHabit ⟨⟨.idle, []⟩, s.line⟩ s :=
    ⟨rfl, hs.state, by rw [hs.state]; exact nofun, by rw [hs.state]; exact nofun, fun _ => rfl, hs.copyIter, hs.origBufIter,
      hs.isStr, rfl, fun i hi => absurd hi (Nat.not_lt_zero i), fun i hi => absurd hi (Nat.not_lt_zero i), hs.high, hs.both,
      fun hc => absurd (hs.state.symm.trans hc) nofun, hs.execBufIter⟩
  exact calls_followed hf empty_sound rfl ht.whole ht.lengths ht.fits

end Citrine.Aci
