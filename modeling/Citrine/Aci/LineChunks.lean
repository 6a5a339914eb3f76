import Citrine.Lib.Feed
import Citrine.Aci.LineEdit

/-!
# AT input in pieces

A command line or a text may come in with calls of any lengths.  What the editor makes of it does not depend on the cut,
as long as a backspace is the last octet of its call (`chunks_independent`); otherwise `ledit_text` drops the rest of the
call, and `ledit_collect` leaves the deleted character behind the line.
-/

namespace Citrine.Aci

open Feed

/-- The line or the text is not complete. -/
def LeditRslt.goesOn : LeditRslt → Bool
  | .collect | .ignore => true
  | _ => false

/-! ### The text mode -/

/-- A backspace, and an octet that is refused since the buffer is full, is the last octet of the call. -/
def textFits (h : LineHabit) : Nat → List Nat → Bool
  | _, [] => true
  | n, c :: cs =>
    if n = maxCmdLen ∧ c ≠ 27 ∧ c ≠ h.s5 ∧ c ≠ h.smsEnd then cs.isEmpty
    else if c = 27 ∨ c = h.smsEnd then true
    else if c = h.s3 then textFits h (n + 1) cs
    else if c = h.s4 then textFits h n cs
    else if c = h.s5 then cs.isEmpty
    else textFits h (n + 1) cs

/-- No octet of the call is dropped, unless the text is complete. -/
def TextRead (x : Ledit × Nat) (chars : List Nat) : Prop :=
  (Ledit.textRun x chars).2.1.goesOn = true → (Ledit.textRun x chars).2.2.length ≤ 1

section
variable {s : Ledit} {b c : Nat} {cs : List Nat} {x : Ledit × Nat}

private theorem length_le_one_iff : (c :: cs).length ≤ 1 ↔ cs.isEmpty = true := by
  cases cs with
  | nil => exact iff_of_true (Nat.le_refl _) rfl
  | cons d ds => exact iff_of_false (by simp only [List.length_cons]; omega) nofun

private theorem textLoop_read : ((Ledit.textLoop s b cs).2.1.goesOn = true → (Ledit.textLoop s b cs).2.2.length ≤ 1) ↔
    textFits s.lineHabit s.copyIter cs = true := by
  induction cs generalizing s b with
  | nil => exact iff_of_true (fun _ => Nat.zero_le _) rfl
  | cons c cs ih =>
    unfold Ledit.textLoop textFits
    split
    · exact (forall_prop_of_true rfl).trans length_le_one_iff
    · split
      · rename_i hc
        rw [if_pos (.inl hc)]
        exact iff_of_true nofun rfl
      · rename_i hesc
        split
        · rename_i hc
          rw [if_pos (.inr hc)]
          exact iff_of_true nofun rfl
        · rename_i hend
          rw [if_neg (not_or.2 ⟨hesc, hend⟩)]
          split
          · exact ih
          · split
            · exact ih
            · split
              · split
                · exact (forall_prop_of_true rfl).trans length_le_one_iff
                · exact (forall_prop_of_true rfl).trans length_le_one_iff
              · exact ih

/-- The octets of a call are all read if and only if they meet the condition. -/
theorem textRead_iff : TextRead x cs ↔ textFits x.1.lineHabit x.1.copyIter cs = true := by
  unfold TextRead Ledit.textRun
  simp only
  split
  · exact textLoop_read
  · exact textLoop_read

/-- Where the loop of `ledit_text` starts. -/
private def textStart (x : Ledit × Nat) : Ledit × Nat :=
  if x.1.txtChunk then ({ x.1 with err := .none }, x.2)
  else ({ ({ x.1 with err := .none } : Ledit).clearLineBuf with txtChunk := true }, 0)

private theorem textRun_eq : Ledit.textRun x cs = Ledit.textLoop (textStart x).1 (textStart x).2 cs := by
  unfold Ledit.textRun textStart
  simp only
  split <;> rfl

/-- A text has been started. -/
private def TextReady (x : Ledit × Nat) : Prop := x.1.txtChunk = true ∧ x.1.err = .none

private theorem textStart_ready : TextReady (textStart x) := by
  unfold textStart
  split
  · rename_i h
    exact ⟨h, rfl⟩
  · exact ⟨rfl, rfl⟩

private theorem textStart_of_ready (h : TextReady x) : textStart x = x := by
  obtain ⟨⟨⟩, b⟩ := x
  obtain ⟨h1, h2⟩ := h
  simp only at h1 h2
  subst h1 h2
  rfl

/-- The loop works on the first octet, and then on the others. -/
private theorem textLoop_cons (hready : TextReady (s, b)) (hok : textFits s.lineHabit s.copyIter (c :: cs) = true)
    (hcs : cs ≠ []) :
    ((Ledit.textLoop s b [c]).2.1.goesOn = true → TextReady (Ledit.textLoop s b [c]).1 ∧
      textFits (Ledit.textLoop s b [c]).1.1.lineHabit (Ledit.textLoop s b [c]).1.1.copyIter cs = true ∧
      Ledit.textLoop s b (c :: cs) = Ledit.textLoop (Ledit.textLoop s b [c]).1.1 (Ledit.textLoop s b [c]).1.2 cs) ∧
    ((Ledit.textLoop s b [c]).2.1.goesOn = false →
      (Ledit.textLoop s b (c :: cs)).1 = (Ledit.textLoop s b [c]).1 ∧
      (Ledit.textLoop s b (c :: cs)).2.1 = (Ledit.textLoop s b [c]).2.1) := by
  have hne : cs.isEmpty = false := by
    cases cs with
    | nil => exact absurd rfl hcs
    | cons d ds => rfl
  have h1 : Ledit.textLoop s b (c :: cs) = _ := rfl
  have h2 : Ledit.textLoop s b [c] = _ := rfl
  conv at h1 => rhs; unfold Ledit.textLoop
  conv at h2 => rhs; unfold Ledit.textLoop
  unfold textFits at hok
  rw [hne] at hok
  by_cases hfull : s.copyIter = maxCmdLen ∧ c ≠ 27 ∧ c ≠ s.lineHabit.s5 ∧ c ≠ s.lineHabit.smsEnd
  · rw [if_pos hfull] at hok
    cases hok
  rw [if_neg hfull] at h1 h2 hok
  by_cases hesc : c = 27
  · rw [if_pos hesc] at h1 h2
    rw [h1, h2]
    exact ⟨nofun, fun _ => ⟨rfl, rfl⟩⟩
  rw [if_neg hesc] at h1 h2
  by_cases hend : c = s.lineHabit.smsEnd
  · rw [if_pos hend] at h1 h2
    rw [h1, h2]
    exact ⟨nofun, fun _ => ⟨rfl, rfl⟩⟩
  rw [if_neg hend] at h1 h2
  rw [if_neg (not_or.2 ⟨hesc, hend⟩)] at hok
  by_cases h3 : c = s.lineHabit.s3
  · rw [if_pos h3] at h1 h2 hok
    rw [h1, h2]
    exact ⟨fun _ => ⟨hready, hok, rfl⟩, nofun⟩
  rw [if_neg h3] at h1 h2 hok
  by_cases h4 : c = s.lineHabit.s4
  · rw [if_pos h4] at h1 h2 hok
    rw [h1, h2]
    exact ⟨fun _ => ⟨hready, hok, rfl⟩, nofun⟩
  rw [if_neg h4] at h1 h2 hok
  by_cases h5 : c = s.lineHabit.s5
  · rw [if_pos h5] at hok
    cases hok
  rw [if_neg h5] at h1 h2 hok
  rw [h1, h2]
  exact ⟨fun _ => ⟨hready, hok, rfl⟩, nofun⟩

private theorem text_eq : Ledit.text x cs =
    ((Ledit.textLoop (textStart x).1 (textStart x).2 cs).1, (Ledit.textLoop (textStart x).1 (textStart x).2 cs).2.1) := by
  unfold Ledit.text
  rw [textRun_eq]

/-- A call does what calls with the single octets do. -/
private theorem text_singles {rv : LeditRslt} (hne : cs ≠ []) (hok : TextRead x cs) (hrv : rv.goesOn = true) :
    Ledit.text x cs = feed Ledit.text LeditRslt.goesOn (x, rv) (singles cs) := by
  have hfits : textFits (textStart x).1.lineHabit (textStart x).1.copyIter cs = true := by
    have := textRead_iff.1 hok
    unfold textStart
    split <;> exact this
  clear hok
  induction cs generalizing x rv with
  | nil => exact absurd rfl hne
  | cons c cs ih =>
    change _ = feed Ledit.text LeditRslt.goesOn (x, rv) ([c] :: singles cs)
    rw [feed_cons hrv]
    by_cases hcs : cs = []
    · subst hcs
      rfl
    · have hready := textStart_ready (x := x)
      have hone := @text_eq [c] x
      have hall := @text_eq (c :: cs) x
      obtain ⟨⟨s, b⟩, hu⟩ : ∃ u, textStart x = u := ⟨_, rfl⟩
      rw [hu] at hready hfits hone hall
      obtain ⟨hgo, hstop⟩ := textLoop_cons hready hfits hcs
      rw [hall, hone]
      simp only
      cases hg : (Ledit.textLoop s b [c]).2.1.goesOn with
      | false =>
        obtain ⟨h1, h2⟩ := hstop hg
        rw [feed_stopped hg, h1, h2]
      | true =>
        obtain ⟨hready', hrest, heq⟩ := hgo hg
        have hst := textStart_of_ready hready'
        rw [heq, ← ih hcs hg (by rw [hst]; exact hrest), text_eq, hst]

end

/-! ### The command mode -/

/-- A backspace is the last octet of a call, when there may be a character to delete. -/
def lineFits (h : LineHabit) : LeditState → List Nat → Bool
  | _, [] => true
  | .idle, c :: cs => c == h.s3 || lineFits h (if c = 97 ∨ c = 65 then .prefixA else .idle) cs
  | .prefixA, c :: cs =>
    c == h.s3 || c == 47 ||
      lineFits h (if c = 116 ∨ c = 84 then .prefixT else if c = h.s5 then .idle else .prefixA) cs
  | .prefixT, c :: cs => c == h.s3 || lineFits h (if c = h.s5 then .prefixA else .collect) cs
  | .collect, c :: cs => c == h.s3 || (if c ≠ h.s4 ∧ c = h.s5 then cs.isEmpty else lineFits h .collect cs)
  | .repeat, _ => true
  | .runCmd, _ => true

/-- The buffers are empty behind the characters of the line. -/
structure Ledit.Clean (s : Ledit) : Prop where
  line : ∀ j, s.copyIter ≤ j → s.line j = 0
  orig : ∀ j, s.origBufIter ≤ j → s.orig j = 0

section
variable {s : Ledit} {c : Nat} {cs : List Nat} {rv : LeditRslt}

theorem map_put_zero {o : Option Buf} {i : Nat} (h : o.getD Ledit.zeros i = 0) :
    (o.map fun b => b.put i 0) = o := by
  cases o with
  | none => rfl
  | some b =>
    refine congrArg some (funext fun j => ?_)
    change (if j = i then 0 else b j) = b j
    split
    · rename_i hj
      rw [hj]
      exact h.symm
    · rfl

private theorem terminate_of_clean (h : s.Clean) : s.terminate = s := by
  unfold Ledit.terminate
  rw [map_put_zero (h.line _ (Nat.le_refl _)), map_put_zero (h.orig _ (Nat.le_refl _))]

private theorem map_put_getD (o : Option Buf) (i v j : Nat) (h : o.getD Ledit.zeros j = 0) (hj : j ≠ i) :
    (o.map fun b => b.put i v).getD Ledit.zeros j = 0 := by
  cases o with
  | none => rfl
  | some b =>
    change (if j = i then v else b j) = 0
    rw [if_neg hj]
    exact h

private theorem store_clean (h : s.Clean) (o v : Nat) : (s.store o v).Clean := by
  constructor
  · intro j hj
    change s.copyIter + 1 ≤ j at hj
    exact map_put_getD _ _ _ _ (h.line j (by omega)) (by omega)
  · intro j hj
    change s.origBufIter + 1 ≤ j at hj
    exact map_put_getD _ _ _ _ (h.orig j (by omega)) (by omega)

private theorem character_clean (h : s.Clean) (c : Nat) : (s.character c).Clean := by
  unfold Ledit.character
  split
  · split
    · exact store_clean h _ _
    · exact h
  · split
    · have h' : ({ s with isStr := !s.isStr } : Ledit).Clean := ⟨h.line, h.orig⟩
      split
      · exact store_clean h' _ _
      · exact store_clean h _ _
    · exact h

/-- The deleted character is overwritten by the terminator. -/
private theorem backspace_clean (h : s.Clean) : s.backspace.terminate.Clean := by
  have hput : ∀ (o : Option Buf) (i j : Nat), (∀ k, i ≤ k → o.getD Ledit.zeros k = 0) → i - 1 ≤ j →
      (o.map fun b => b.put (i - 1) 0).getD Ledit.zeros j = 0 := by
    intro o i j ho hj
    by_cases hji : j = i - 1
    · cases o with
      | none => rfl
      | some b => exact if_pos hji
    · exact map_put_getD _ _ _ _ (ho j (by omega)) hji
  exact ⟨fun j hj => hput _ _ j h.line hj, fun j hj => hput _ _ j h.orig hj⟩

/-! ### The loop of `ledit_cmd` -/

private theorem collectLoop_length : (Ledit.collectLoop s cs).2.2.length ≤ cs.length - 1 := by
  induction cs generalizing s with
  | nil => exact Nat.le_refl _
  | cons c cs ih =>
    have hle : cs.length ≤ (c :: cs).length - 1 := by simp only [List.length_cons]; omega
    have hnext : ∀ s : Ledit, (Ledit.collectLoop s cs).2.2.length ≤ (c :: cs).length - 1 := by
      intro s
      have := @ih s
      omega
    unfold Ledit.collectLoop
    split
    · exact hle
    · split
      · exact hle
      · split
        · exact hnext _
        · split
          · simp only
            split
            · exact hle
            · exact hnext _
          · exact hnext _

/-- How many calls of state functions a list of octets needs. -/
private def need (s : Ledit) (cs : List Nat) : Nat := 2 * cs.length - if s.state = .prefixT then 0 else 1

private theorem stateFn_need (s : Ledit) (c : Nat) (cs : List Nat) :
    need (s.stateFn c cs).1 (s.stateFn c cs).2.2 < need s (c :: cs) := by
  have hless : ∀ (t : Ledit) (ds : List Nat), ds.length ≤ cs.length → need t ds < need s (c :: cs) := by
    intro t ds hds
    unfold need
    rw [List.length_cons]
    split <;> split <;> omega
  unfold Ledit.stateFn
  cases hst : s.state with
  | prefixT =>
    simp only
    split
    · exact hless _ _ (Nat.le_refl _)
    · split
      · exact hless _ _ (Nat.le_refl _)
      · unfold need
        rw [if_neg (show (s.setState .collect).state ≠ .prefixT from nofun), if_pos hst, List.length_cons]
        omega
  | collect => exact hless _ _ collectLoop_length
  | idle | prefixA | «repeat» | runCmd => exact hless _ _ (Nat.le_refl _)

private theorem cmdLoop_fuel (n m : Nat) (s : Ledit) (rv : LeditRslt) (cs : List Nat) (hn : need s cs ≤ n)
    (hm : need s cs ≤ m) : Ledit.cmdLoop n s rv cs = Ledit.cmdLoop m s rv cs := by
  have hnil : ∀ k s rv, Ledit.cmdLoop k s rv [] = (s, rv) := by
    intro k s rv
    cases k <;> rfl
  induction n generalizing m s rv cs with
  | zero =>
    cases cs with
    | nil => rw [hnil, hnil]
    | cons c cs =>
      have := stateFn_need s c cs
      omega
  | succ n ih =>
    cases cs with
    | nil => rw [hnil, hnil]
    | cons c cs =>
      have hlt := stateFn_need s c cs
      cases m with
      | zero => omega
      | succ m =>
        unfold Ledit.cmdLoop
        split
        · exact ih m (s.stateFn c cs).1 (s.stateFn c cs).2.1 (s.stateFn c cs).2.2 (by omega) (by omega)
        · rfl

/-- The loop with the calls that its octets need. -/
def loop (s : Ledit) (rv : LeditRslt) (cs : List Nat) : Ledit × LeditRslt := Ledit.cmdLoop (2 * cs.length) s rv cs

private theorem need_le (s : Ledit) (cs : List Nat) : need s cs ≤ 2 * cs.length := Nat.sub_le _ _

private theorem goesOn_iff : rv.goesOn = true ↔ rv = .collect ∨ rv = .ignore := by
  cases rv <;> decide

theorem loop_nil (s : Ledit) (rv : LeditRslt) : loop s rv [] = (s, rv) := rfl

theorem loop_stopped (h : rv.goesOn = false) : loop s rv cs = (s, rv) := by
  have hno : ¬ (rv = .collect ∨ rv = .ignore) := by
    rw [← goesOn_iff, h]
    exact nofun
  cases cs with
  | nil => rfl
  | cons c cs =>
    unfold loop
    rw [List.length_cons, show 2 * (cs.length + 1) = 2 * cs.length + 1 + 1 by omega]
    unfold Ledit.cmdLoop
    rw [if_neg hno]

theorem loop_cons (h : rv.goesOn = true) :
    loop s rv (c :: cs) = loop (s.stateFn c cs).1 (s.stateFn c cs).2.1 (s.stateFn c cs).2.2 := by
  have hlt := stateFn_need s c cs
  have hle := need_le s (c :: cs)
  have heq : Ledit.cmdLoop (2 * cs.length + 1 + 1) s rv (c :: cs) =
      Ledit.cmdLoop (2 * cs.length + 1) (s.stateFn c cs).1 (s.stateFn c cs).2.1 (s.stateFn c cs).2.2 := by
    conv => lhs; unfold Ledit.cmdLoop
    rw [if_pos (goesOn_iff.1 h)]
  unfold loop
  rw [List.length_cons] at hle ⊢
  rw [show 2 * (cs.length + 1) = 2 * cs.length + 1 + 1 by omega, heq]
  exact cmdLoop_fuel _ _ _ _ _ (by omega) (need_le _ _)

/-- The loop goes on with a line that is being typed. -/
private structure Typing (s : Ledit) : Prop where
  err : s.err = .none
  clean : s.Clean
  notRepeat : s.state ≠ .repeat
  notRun : s.state ≠ .runCmd

/-- The line that `ledit_collect` works on. -/
private structure Collecting (s t : Ledit) : Prop where
  clean : t.Clean
  state : t.state = s.state
  habit : t.lineHabit = s.lineHabit
  err : t.err = s.err
  buffer : t.lineBuffer.isNone = s.lineBuffer.isNone

private theorem character_collecting (h : s.Clean) (c : Nat) : Collecting s (s.character c) := by
  refine ⟨character_clean h c, ?_, ?_, ?_, ?_⟩
  all_goals
    unfold Ledit.character Ledit.store
    simp only
    split
    · split <;> simp only [Option.isNone_map]
    · split
      · split <;> simp only [Option.isNone_map]
      · rfl

/-- What `ledit_collect` does with an octet that neither ends the line nor is a backspace. -/
private theorem collectLoop_first (h : s.Clean) (h3 : ¬ c = s.lineHabit.s3)
    (h5 : ¬ (c ≠ s.lineHabit.s4 ∧ c = s.lineHabit.s5)) :
    (∀ cs, Ledit.collectLoop s (c :: cs) = (s, .ignore, cs)) ∨
    ∃ t, Collecting s t ∧ ∀ cs, Ledit.collectLoop s (c :: cs) = Ledit.collectLoop t cs := by
  by_cases hfull : s.copyIter + 2 = maxCmdLen ∧ c ≠ s.lineHabit.s3 ∧ c ≠ s.lineHabit.s5
  · left
    intro cs
    conv => lhs; unfold Ledit.collectLoop
    rw [if_pos hfull]
  right
  by_cases h4 : c = s.lineHabit.s4
  · refine ⟨s, ⟨h, rfl, rfl, rfl, rfl⟩, fun cs => ?_⟩
    conv => lhs; unfold Ledit.collectLoop
    rw [if_neg hfull, if_neg h3, if_pos h4]
  · refine ⟨s.character c, character_collecting h c, fun cs => ?_⟩
    conv => lhs; unfold Ledit.collectLoop
    rw [if_neg hfull, if_neg h3, if_neg h4, if_neg fun h => h5 ⟨h4, h⟩]

private theorem collectLoop_end (h3 : c = s.lineHabit.s3) :
    Ledit.collectLoop s (c :: cs) = (s.endLine.1, s.endLine.2, cs) := by
  unfold Ledit.collectLoop
  rw [if_neg fun hfull => hfull.2.1 h3, if_pos h3]

private theorem endLine_stops (s : Ledit) : s.endLine.2.goesOn = false := by
  unfold Ledit.endLine
  simp only
  split <;> rfl

/-- The line is allocated, and `ledit_collect` is at work. -/
private structure Open (s : Ledit) : Prop where
  typing : Typing s
  state : s.state = .collect
  buffer : s.lineBuffer.isNone = false

private theorem collect_eq (h : Typing s) (hst : s.state = .collect) :
    ∃ t, Open t ∧ t.lineHabit = s.lineHabit ∧ s.collect = Ledit.collectLoop t := by
  cases hb : s.lineBuffer.isNone with
  | false =>
    refine ⟨s, ⟨h, hst, hb⟩, rfl, funext fun cs => ?_⟩
    unfold Ledit.collect
    rw [hb]
    rfl
  | true =>
    refine ⟨s.clearLineBuf, ⟨⟨h.err, ⟨fun _ _ => rfl, fun _ _ => rfl⟩, h.notRepeat, h.notRun⟩, hst, rfl⟩, rfl,
      funext fun cs => ?_⟩
    unfold Ledit.collect
    rw [hb]
    rfl

private theorem collecting_open (h : Open s) {t : Ledit} (ht : Collecting s t) : Open t :=
  ⟨⟨ht.err.trans h.typing.err, ht.clean, by rw [ht.state]; exact h.typing.notRepeat,
    by rw [ht.state]; exact h.typing.notRun⟩, ht.state.trans h.state, ht.buffer.trans h.buffer⟩

/-- The loop of `ledit_cmd` goes on where `ledit_collect` does. -/
private theorem loop_open (h : Open s) (hrv : rv.goesOn = true) (hne : cs ≠ []) :
    loop s rv cs = loop (Ledit.collectLoop s cs).1 (Ledit.collectLoop s cs).2.1 (Ledit.collectLoop s cs).2.2 := by
  cases cs with
  | nil => exact absurd rfl hne
  | cons c cs =>
    have hfn : s.stateFn c cs = Ledit.collectLoop s (c :: cs) := by
      unfold Ledit.stateFn
      rw [h.state]
      simp only
      unfold Ledit.collect
      rw [h.buffer]
      rfl
    rw [loop_cons hrv, hfn]

/-- What the first octet of a call does. -/
private def First (s : Ledit) (rv : LeditRslt) (c : Nat) (cs : List Nat) : Prop :=
  ∃ t rv', loop s rv [c] = (t, rv') ∧ loop s rv (c :: cs) = loop t rv' cs ∧
    (rv'.goesOn = true → Typing t ∧ lineFits t.lineHabit t.state cs = true)

/-- A state function that takes one octet only. -/
private theorem first_of_eq {t : Ledit} {rv' : LeditRslt} (hrv : rv.goesOn = true)
    (heq : ∀ cs, s.stateFn c cs = (t, rv', cs))
    (hgo : rv'.goesOn = true → Typing t ∧ lineFits t.lineHabit t.state cs = true) : First s rv c cs := by
  refine ⟨t, rv', ?_, ?_, hgo⟩
  · rw [loop_cons hrv, heq]
    rfl
  · rw [loop_cons hrv, heq]

private theorem backspace_typing (h : Open s) : Typing s.backspace.terminate :=
  ⟨h.typing.err, backspace_clean h.typing.clean, h.typing.notRepeat, h.typing.notRun⟩

private theorem collectLoop_backspace (h3 : ¬ c = s.lineHabit.s3) (h5 : c ≠ s.lineHabit.s4 ∧ c = s.lineHabit.s5) :
    Ledit.collectLoop s [c] = (s.backspace.terminate, .collect, []) ∨
    Ledit.collectLoop s [c] = ((s.backspace.setState .prefixT).terminate, .collect, []) := by
  unfold Ledit.collectLoop
  rw [if_neg fun hfull => hfull.2.2 h5.2, if_neg h3, if_neg h5.1, if_pos h5.2]
  simp only
  split
  · exact .inr rfl
  · exact .inl rfl

private theorem collect_first (h : Typing s) (hst : s.state = .collect) (hrv : rv.goesOn = true)
    (hok : lineFits s.lineHabit .collect (c :: cs) = true) : First s rv c cs := by
  obtain ⟨t, ht, hhabit, heq⟩ := collect_eq h hst
  rw [← hhabit] at hok
  have hfn : ∀ ds, s.stateFn c ds = Ledit.collectLoop t (c :: ds) := by
    intro ds
    rw [← heq]
    unfold Ledit.stateFn
    rw [hst]
  by_cases h3 : c = t.lineHabit.s3
  · refine first_of_eq hrv (fun ds => (hfn ds).trans (collectLoop_end h3)) fun hgo => ?_
    rw [endLine_stops] at hgo
    cases hgo
  unfold lineFits at hok
  rw [beq_false_of_ne h3, Bool.false_or] at hok
  by_cases h5 : c ≠ t.lineHabit.s4 ∧ c = t.lineHabit.s5
  · rw [if_pos h5] at hok
    cases cs with
    | cons d ds => cases hok
    | nil =>
      have hstep : ∀ u, Ledit.collectLoop t [c] = (u, .collect, []) → loop s rv [c] = (u, .collect) := by
        intro u hu
        rw [loop_cons hrv, hfn, hu]
        rfl
      rcases collectLoop_backspace h3 h5 with hcase | hcase
      · exact ⟨_, _, hstep _ hcase, hstep _ hcase, fun _ => ⟨backspace_typing ht, rfl⟩⟩
      · have hclean : (t.backspace.setState .prefixT).terminate.Clean := by
          have := backspace_clean ht.typing.clean
          exact ⟨this.line, this.orig⟩
        exact ⟨_, _, hstep _ hcase, hstep _ hcase, fun _ => ⟨⟨ht.typing.err, hclean, nofun, nofun⟩, rfl⟩⟩
  · rw [if_neg h5] at hok
    rcases collectLoop_first ht.typing.clean h3 h5 with hcase | ⟨u, hu, hcase⟩
    · refine first_of_eq hrv (fun ds => (hfn ds).trans (hcase ds)) fun _ => ⟨ht.typing, ?_⟩
      rw [ht.state]
      exact hok
    · have hopen := collecting_open ht hu
      have hnil : Ledit.collectLoop u [] = (u, .collect, []) := by
        unfold Ledit.collectLoop
        rw [terminate_of_clean hu.clean]
      refine ⟨u, .collect, ?_, ?_, fun _ => ⟨hopen.typing, ?_⟩⟩
      · rw [loop_cons hrv, hfn, hcase, hnil]
        rfl
      · rw [loop_cons hrv, hfn, hcase]
        by_cases hcs : cs = []
        · rw [hcs, hnil]
        · exact (loop_open hopen rfl hcs).symm
      · rw [hopen.state, hu.habit]
        exact hok

/-- The states before `collect` take one octet after the other. -/
private theorem loop_first (h : Typing s) (hrv : rv.goesOn = true)
    (hok : lineFits s.lineHabit s.state (c :: cs) = true) : First s rv c cs := by
  cases hst : s.state with
  | idle =>
    rw [hst] at hok
    unfold lineFits at hok
    have hfn : ∀ ds, s.stateFn c ds = ((s.idle c).1, (s.idle c).2, ds) := by
      intro ds
      unfold Ledit.stateFn
      rw [hst]
    unfold Ledit.idle at hfn
    by_cases h3 : c = s.lineHabit.s3
    · simp only [if_pos h3] at hfn
      exact first_of_eq hrv hfn nofun
    · simp only [if_neg h3] at hfn
      rw [beq_false_of_ne h3, Bool.false_or] at hok
      split at hok
      · rename_i ha
        simp only [if_pos ha] at hfn
        exact first_of_eq hrv hfn fun _ => ⟨⟨h.err, ⟨h.clean.line, h.clean.orig⟩, nofun, nofun⟩, hok⟩
      · rename_i ha
        simp only [if_neg ha] at hfn
        exact first_of_eq hrv hfn fun _ => ⟨h, by rw [hst]; exact hok⟩
  | prefixA =>
    rw [hst] at hok
    unfold lineFits at hok
    have hfn : ∀ ds, s.stateFn c ds = ((s.prefixA c).1, (s.prefixA c).2, ds) := by
      intro ds
      unfold Ledit.stateFn
      rw [hst]
    unfold Ledit.prefixA at hfn
    by_cases h3 : c = s.lineHabit.s3
    · simp only [if_pos h3] at hfn
      exact first_of_eq hrv hfn nofun
    simp only [if_neg h3] at hfn
    by_cases hrep : c = 47
    · simp only [if_pos hrep] at hfn
      exact first_of_eq hrv hfn nofun
    simp only [if_neg hrep] at hfn
    rw [beq_false_of_ne h3, beq_false_of_ne hrep, Bool.false_or, Bool.false_or] at hok
    split at hok
    · rename_i ht
      simp only [if_pos ht] at hfn
      exact first_of_eq hrv hfn fun _ => ⟨⟨h.err, ⟨h.clean.line, h.clean.orig⟩, nofun, nofun⟩, hok⟩
    rename_i ht
    simp only [if_neg ht] at hfn
    split at hok
    · rename_i h5
      simp only [if_pos h5] at hfn
      exact first_of_eq hrv hfn fun _ => ⟨⟨h.err, ⟨h.clean.line, h.clean.orig⟩, nofun, nofun⟩, hok⟩
    · rename_i h5
      simp only [if_neg h5] at hfn
      exact first_of_eq hrv hfn fun _ => ⟨h, by rw [hst]; exact hok⟩
  | prefixT =>
    rw [hst] at hok
    unfold lineFits at hok
    have hfn : ∀ ds, s.stateFn c ds = if c = s.lineHabit.s3 then (s, .ok, ds)
        else if c = s.lineHabit.s5 then (s.setState .prefixA, .collect, ds)
        else (s.setState .collect, .collect, c :: ds) := by
      intro ds
      unfold Ledit.stateFn
      rw [hst]
    by_cases h3 : c = s.lineHabit.s3
    · simp only [if_pos h3] at hfn
      exact first_of_eq hrv hfn nofun
    simp only [if_neg h3] at hfn
    rw [beq_false_of_ne h3, Bool.false_or] at hok
    by_cases h5 : c = s.lineHabit.s5
    · simp only [if_pos h5] at hfn
      rw [if_pos h5] at hok
      exact first_of_eq hrv hfn fun _ => ⟨⟨h.err, ⟨h.clean.line, h.clean.orig⟩, nofun, nofun⟩, hok⟩
    · -- the octet is left to `ledit_collect`
      simp only [if_neg h5] at hfn
      rw [if_neg h5] at hok
      have hcol : Typing (s.setState .collect) := ⟨h.err, ⟨h.clean.line, h.clean.orig⟩, nofun, nofun⟩
      have hfits : lineFits (s.setState .collect).lineHabit .collect (c :: cs) = true := by
        unfold lineFits
        rw [if_neg fun hb => h5 hb.2, show (s.setState .collect).lineHabit = s.lineHabit from rfl, hok, Bool.or_true]
      have hloop : ∀ ds, loop s rv (c :: ds) = loop (s.setState .collect) .collect (c :: ds) := by
        intro ds
        rw [loop_cons hrv, hfn]
      unfold First
      rw [hloop, hloop]
      exact collect_first hcol rfl rfl hfits
  | collect =>
    rw [hst] at hok
    exact collect_first h hst hrv hok
  | «repeat» => exact absurd hst h.notRepeat
  | runCmd => exact absurd hst h.notRun

private theorem loop_typing (h : Typing s) (hrv : rv.goesOn = true) (hok : lineFits s.lineHabit s.state cs = true) :
    (loop s rv cs).2.goesOn = true → Typing (loop s rv cs).1 := by
  induction cs generalizing s rv with
  | nil => exact fun _ => h
  | cons c cs ih =>
    obtain ⟨t, rv', -, hall, hgo⟩ := loop_first h hrv hok
    rw [hall]
    cases hg : rv'.goesOn with
    | false =>
      rw [loop_stopped hg]
      intro hgo'
      rw [hg] at hgo'
      cases hgo'
    | true => exact ih (hgo hg).1 hg (hgo hg).2

/-- Where no line is at its end, `ledit_cmd` has nothing to do after its loop. -/
theorem finish_waiting (hrv : rv.goesOn = true) (hrep : s.state ≠ .repeat) (hrun : s.state ≠ .runCmd) :
    Ledit.finish (s, rv) = (s, rv) := by
  have hfail : ¬ rv = .fail := by
    intro hf
    rw [hf] at hrv
    cases hrv
  unfold Ledit.finish
  rw [show Ledit.cleared (s, rv) = (s, rv) from if_neg hfail]
  simp only [if_neg hfail, if_neg hrep, if_neg hrun]

private theorem finish_typing (h : Typing s) (hrv : rv.goesOn = true) : Ledit.finish (s, rv) = (s, rv) :=
  finish_waiting hrv h.notRepeat h.notRun

/-- A call with a command line of a length that `ledit_cmd` takes. -/
private theorem cmd_eq (h : Typing s) (hne : cs ≠ []) (hle : cs.length ≤ maxCmdLen) :
    Ledit.cmd s cs = Ledit.finish (loop s .collect cs) := by
  have hlen : ¬ (cs.length = 0 ∨ maxCmdLen < cs.length) := by
    have := List.length_pos_iff.2 hne
    omega
  have herr : ({ s with err := .none } : Ledit) = s := by
    obtain ⟨⟩ := s
    have := h.err
    simp only at this
    rw [this]
  unfold Ledit.cmd
  simp only
  rw [herr, if_neg h.notRun, if_neg hlen]
  rfl

private theorem splitRslt (x : Split) : x.split.2 = .fail ∨ x.split.2 = .cmpl := by
  unfold Split.split
  simp only
  split
  · exact .inl rfl
  · split
    · exact .inr rfl
    · exact .inr rfl
    · exact .inr rfl
    · exact .inr rfl
    · exact .inr rfl
    · exact .inr rfl
    · exact .inl rfl

private theorem runCmd_stops (s : Ledit) : s.runCmd.2.goesOn = false := by
  unfold Ledit.runCmd Ledit.split
  simp only
  split
  · rfl
  · rcases splitRslt ⟨s.execBuffer.getD Ledit.zeros, s.execBufIter, s.orig, .empty, 1, s.err⟩ with h | h
    · exact congrArg LeditRslt.goesOn h
    · exact congrArg LeditRslt.goesOn h

private theorem repeatCmd_stops (s : Ledit) : s.repeatCmd.2.goesOn = false := by
  unfold Ledit.repeatCmd
  split <;> rfl

private theorem cleared_stops {r : Ledit × LeditRslt} (h : r.2.goesOn = false) : (Ledit.cleared r).2.goesOn = false := by
  unfold Ledit.cleared
  split
  · rfl
  · exact h

/-- Once the loop has stopped, `ledit_cmd` does not ask for more. -/
private theorem finish_stops (s : Ledit) (h : rv.goesOn = false) : (Ledit.finish (s, rv)).2.goesOn = false := by
  have hc : (Ledit.cleared (s, rv)).2.goesOn = false := cleared_stops h
  unfold Ledit.finish
  obtain ⟨⟨t, rv'⟩, hu⟩ : ∃ u, Ledit.cleared (s, rv) = u := ⟨_, rfl⟩
  rw [hu] at hc
  rw [hu]
  simp only
  split
  · exact hc
  have hrep : (if t.state = .repeat then Ledit.cleared t.repeatCmd else (t, rv')).2.goesOn = false := by
    split
    · exact cleared_stops (repeatCmd_stops t)
    · exact hc
  obtain ⟨⟨u, rv''⟩, hv⟩ : ∃ v, (if t.state = .repeat then Ledit.cleared t.repeatCmd else (t, rv')) = v := ⟨_, rfl⟩
  rw [hv] at hrep
  rw [hv]
  simp only
  split
  · exact hrep
  · split
    · exact cleared_stops (runCmd_stops u)
    · exact hrep

theorem loop_collect (h : rv.goesOn = true) (hne : cs ≠ []) : loop s rv cs = loop s .collect cs := by
  cases cs with
  | nil => exact absurd rfl hne
  | cons c cs => rw [loop_cons h, loop_cons (show LeditRslt.collect.goesOn = true from rfl)]

/-- A call does what calls with the single octets do. -/
private theorem finish_singles (h : Typing s) (hrv : rv.goesOn = true)
    (hok : lineFits s.lineHabit s.state cs = true) :
    Ledit.finish (loop s rv cs) = feed Ledit.cmd LeditRslt.goesOn (s, rv) (singles cs) := by
  induction cs generalizing s rv with
  | nil => exact finish_typing h hrv
  | cons c cs ih =>
    obtain ⟨t, rv', hone, hall, hgo⟩ := loop_first h hrv hok
    have hcmd : Ledit.cmd s [c] = Ledit.finish (t, rv') := by
      rw [cmd_eq h (List.cons_ne_nil c []) (show 1 ≤ maxCmdLen by decide),
        ← loop_collect hrv (List.cons_ne_nil c []), hone]
    change _ = feed Ledit.cmd LeditRslt.goesOn (s, rv) ([c] :: singles cs)
    rw [feed_cons hrv, hcmd, hall]
    cases hg : rv'.goesOn with
    | false => rw [loop_stopped hg, feed_stopped (finish_stops t hg)]
    | true =>
      obtain ⟨ht, hrest⟩ := hgo hg
      rw [finish_typing ht hg]
      exact ih ht hg hrest

/-- What the calls of `ledit_cmd` leave is clean, and no command is to be repeated. -/
structure Ledit.Quiet (s : Ledit) : Prop where
  clean : s.Clean
  notRepeat : s.state ≠ .repeat

/-- A call of a length that `ledit_cmd` takes, in which a backspace is the last octet. -/
structure CmdFits (s : Ledit) (chars : List Nat) : Prop where
  nonempty : chars ≠ []
  length : chars.length ≤ maxCmdLen
  fits : lineFits s.lineHabit s.state chars = true

private theorem cmd_pending (h : s.state = .runCmd) : Ledit.cmd s cs = ({ s with err := .lastCmdPending }, .fail) := by
  unfold Ledit.cmd
  exact if_pos h

/-- `ledit_cmd` resets the error before anything else. -/
private theorem cmd_err (s : Ledit) (cs : List Nat) : Ledit.cmd s cs = Ledit.cmd { s with err := .none } cs := rfl

private theorem quiet_typing (h : s.Quiet) (hrun : s.state ≠ .runCmd) : Typing { s with err := .none } :=
  ⟨rfl, ⟨h.clean.line, h.clean.orig⟩, h.notRepeat, hrun⟩

/-- A call that fits does what calls with its single octets do. -/
theorem cmd_singles (h : s.Quiet) (hok : CmdFits s cs) (hrv : rv.goesOn = true) :
    Ledit.cmd s cs = feed Ledit.cmd LeditRslt.goesOn (s, rv) (singles cs) := by
  obtain ⟨hne, hle, hfits⟩ := hok
  by_cases hrun : s.state = .runCmd
  · cases cs with
    | nil => exact absurd rfl hne
    | cons c cs =>
      change _ = feed Ledit.cmd LeditRslt.goesOn (s, rv) ([c] :: singles cs)
      rw [feed_cons hrv, cmd_pending hrun, cmd_pending hrun, feed_stopped rfl]
  · have ht := quiet_typing h hrun
    have herr : feed Ledit.cmd LeditRslt.goesOn (s, rv) (singles cs) =
        feed Ledit.cmd LeditRslt.goesOn ({ s with err := .none }, rv) (singles cs) := by
      cases cs with
      | nil => exact absurd rfl hne
      | cons c cs =>
        change feed Ledit.cmd LeditRslt.goesOn (s, rv) ([c] :: singles cs) =
          feed Ledit.cmd LeditRslt.goesOn ({ s with err := .none }, rv) ([c] :: singles cs)
        rw [feed_cons hrv, feed_cons hrv]
        rfl
    rw [cmd_err, cmd_eq ht hne hle, ← loop_collect hrv hne, finish_singles ht hrv hfits, herr]

private theorem cmd_quiet (h : s.Quiet) (hok : CmdFits s cs) (hgo : (Ledit.cmd s cs).2.goesOn = true) :
    (Ledit.cmd s cs).1.Quiet := by
  obtain ⟨hne, hle, hfits⟩ := hok
  by_cases hrun : s.state = .runCmd
  · rw [cmd_pending hrun] at hgo
    cases hgo
  · have ht := quiet_typing h hrun
    rw [cmd_err, cmd_eq ht hne hle] at hgo
    rw [cmd_err, cmd_eq ht hne hle]
    have hlt := loop_typing ht (show LeditRslt.collect.goesOn = true from rfl) hfits
    obtain ⟨⟨t, rv'⟩, hu⟩ : ∃ u, loop { s with err := .none } .collect cs = u := ⟨_, rfl⟩
    rw [hu] at hgo hlt ⊢
    cases hg : rv'.goesOn with
    | false =>
      rw [finish_stops t hg] at hgo
      cases hgo
    | true =>
      have htt := hlt hg
      rw [finish_typing htt hg]
      exact ⟨htt.clean, htt.notRepeat⟩

/-- Calls that fit do what calls with the single octets do. -/
theorem cmd_cut {ps : List (List Nat)} (h : s.Quiet) (hok : Each Ledit.cmd LeditRslt.goesOn CmdFits (s, .collect) ps) :
    feed Ledit.cmd LeditRslt.goesOn (s, .collect) ps = feed Ledit.cmd LeditRslt.goesOn (s, .collect) (singles ps.flatten) :=
  feed_cut (I := Ledit.Quiet) (fun _ _ _ hI hp hr => cmd_singles hI hp hr) (fun _ _ hI hp hgo => cmd_quiet hI hp hgo)
    (fun _ => h) hok

end

/-! ### Cuts -/

/-- A call with a text of which no octet is dropped. -/
def TextFits (x : Ledit × Nat) (chars : List Nat) : Prop := textFits x.1.lineHabit x.1.copyIter chars = true

private theorem each_iff {σ α ρ : Type} {call : σ → List α → σ × ρ} {go : ρ → Bool} {ok ok' : σ → List α → Prop}
    (h : ∀ s p, ok s p ↔ ok' s p) (x : σ × ρ) (ps : List (List α)) : Each call go ok x ps ↔ Each call go ok' x ps := by
  induction ps generalizing x with
  | nil => exact Iff.rfl
  | cons p ps ih => exact forall_congr' fun _ => and_congr (h _ _) (ih _)

private theorem each_nonempty {σ α ρ : Type} {call : σ → List α → σ × ρ} {go : ρ → Bool} {ok : σ → List α → Prop}
    {x : σ × ρ} {ps : List (List α)} (hne : ∀ p ∈ ps, p ≠ []) (h : Each call go ok x ps) :
    Each call go (fun s p => p ≠ [] ∧ ok s p) x ps := by
  induction ps generalizing x with
  | nil => trivial
  | cons p ps ih =>
    intro hgo
    obtain ⟨hp, hps⟩ := h hgo
    exact ⟨⟨hne p List.mem_cons_self, hp⟩, ih (fun q hq => hne q (List.mem_cons_of_mem _ hq)) hps⟩

/-- A command line comes out as if it had been typed in single octets when each call fits.  The calls with a text drop no
octet and leave the text of the single octets exactly when each call has a backspace, and an octet that is refused for
want of room, only at its end. -/
theorem chunks_independent (s : Ledit) (beginline : Nat) (ps : List (List Nat)) (hne : ∀ p ∈ ps, p ≠ []) :
    (s.Quiet → Each Ledit.cmd LeditRslt.goesOn CmdFits (s, .collect) ps →
      feed Ledit.cmd LeditRslt.goesOn (s, .collect) ps =
        feed Ledit.cmd LeditRslt.goesOn (s, .collect) (singles ps.flatten)) ∧
    (Each Ledit.text LeditRslt.goesOn TextRead ((s, beginline), .collect) ps ∧
      feed Ledit.text LeditRslt.goesOn ((s, beginline), .collect) ps =
        feed Ledit.text LeditRslt.goesOn ((s, beginline), .collect) (singles ps.flatten) ↔
      Each Ledit.text LeditRslt.goesOn TextFits ((s, beginline), .collect) ps) := by
  refine ⟨fun hq hok => ?_, ⟨fun h => ?_, fun h => ?_⟩⟩
  · exact cmd_cut hq hok
  · exact (each_iff (fun _ _ => textRead_iff) _ _).1 h.1
  · have hread := (each_iff (fun _ _ => textRead_iff) _ _).2 h
    refine ⟨hread, feed_cut (I := fun _ => True) (fun _ _ _ _ hp hr => ?_) (fun _ _ _ _ _ => trivial) (fun _ => trivial)
      (each_nonempty hne hread)⟩
    exact text_singles hp.1 hp.2 hr

namespace source

/-- A source that line edit has not heard of before. -/
abbrev fresh : Ledit := .getNewSrcMaintain

/-- `AT+CG`, a backspace, `GMI` and the end of the line, in three calls. -/
def pieces : List (List Nat) := [[65, 84, 43], [67, 71, 8], [71, 77, 73, 13]]

theorem pieces_independent :
    fresh.Quiet ∧ Each Ledit.cmd LeditRslt.goesOn CmdFits (fresh, .collect) pieces ∧
    Each Ledit.text LeditRslt.goesOn TextFits ((fresh, 0), .collect) pieces ∧
    feed Ledit.cmd LeditRslt.goesOn (fresh, .collect) pieces =
      feed Ledit.cmd LeditRslt.goesOn (fresh, .collect) (singles pieces.flatten) ∧
    feed Ledit.text LeditRslt.goesOn ((fresh, 0), .collect) pieces =
      feed Ledit.text LeditRslt.goesOn ((fresh, 0), .collect) (singles pieces.flatten) := by
  have hne : ∀ p ∈ pieces, p ≠ [] := by decide
  have hquiet : fresh.Quiet := ⟨⟨fun _ _ => rfl, fun _ _ => rfl⟩, nofun⟩
  have hcmd : Each Ledit.cmd LeditRslt.goesOn CmdFits (fresh, .collect) pieces :=
    fun _ => ⟨⟨nofun, by decide, by decide +kernel⟩, fun _ => ⟨⟨nofun, by decide, by decide +kernel⟩,
      fun _ => ⟨⟨nofun, by decide, by decide +kernel⟩, trivial⟩⟩⟩
  have htext : Each Ledit.text LeditRslt.goesOn TextFits ((fresh, 0), .collect) pieces :=
    fun _ => ⟨by unfold TextFits; decide +kernel, fun _ => ⟨by unfold TextFits; decide +kernel,
      fun _ => ⟨by unfold TextFits; decide +kernel, trivial⟩⟩⟩
  obtain ⟨h1, h2⟩ := chunks_independent fresh 0 pieces hne
  exact ⟨hquiet, hcmd, htext, h1 hquiet hcmd, (h2.2 htext).2⟩

/-- `AT+CGMIa;+CFUN=0`, nine backspaces and the end of the line. -/
def deleted : List Nat :=
  [65, 84, 43, 67, 71, 77, 73, 97, 59, 43, 67, 70, 85, 78, 61, 48, 8, 8, 8, 8, 8, 8, 8, 8, 8, 13]

/-- Of a text in one call, `ledit_text` drops what follows a backspace; of a command line in one call, the command that
follows the line `AT+CGMI` is the deleted `+CFUN`. -/
theorem call_dropped :
    (feed Ledit.text LeditRslt.goesOn ((fresh, 0), .collect) [[97, 8, 98, 26]]).1.1.getText = none ∧
    (feed Ledit.text LeditRslt.goesOn ((fresh, 0), .collect) (singles [97, 8, 98, 26])).1.1.getText = some [98] ∧
    ((feed Ledit.cmd LeditRslt.goesOn (fresh, .collect) [deleted]).1.getNext.1.cmdm.bind (·.name)) =
      some [43, 67, 70, 85, 78] ∧
    ((feed Ledit.cmd LeditRslt.goesOn (fresh, .collect) (singles deleted)).1.getNext.1.cmdm.bind (·.name)) = none := by
  refine ⟨?_, ?_, ?_, ?_⟩ <;> decide +kernel

end source

end Citrine.Aci
