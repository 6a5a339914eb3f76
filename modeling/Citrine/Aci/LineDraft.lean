import Citrine.Aci.LineChunks
import Citrine.Aci.LineRun

/-!
# Drafts of a command line

A line that is typed with backspaces, in calls of any lengths.  `Draft` is what the editor holds of a line: its state, and
the characters that it has stored.  `Sheet` is the draft with the buffer of the line, in which deleted characters stay
behind the line.
-/

namespace Citrine.Aci

/-! ### What is stored of a line -/

/-- Whether one is inside of a string behind a text. -/
def inString (str : Bool) (text : List Nat) : Bool := text.foldl (fun str c => if c = 34 then !str else str) str

/-- A letter outside of a string is capitalized. -/
def folded (str : Bool) (c : Nat) : Nat := if !str && isLower c then c - 32 else c

/-- What `ledit_collect` stores for a character: nothing, or the character as it is typed and as it is split. -/
def stored (str : Bool) (c : Nat) : List (Nat × Nat) :=
  if c = 32 then if str then [(c, c)] else []
  else if 32 < c ∧ c < 128 then [(c, folded (inString str [c]) c)]
  else []

section
variable {str : Bool} {l r : List Nat} {c : Nat}

theorem inString_append : inString str (l ++ r) = inString (inString str l) r := List.foldl_append

/-- A character is dropped, or stored as it is typed. -/
theorem stored_cases (str : Bool) (c : Nat) : stored str c = [] ∨ ∃ d, stored str c = [(c, d)] := by
  unfold stored
  split_ifs
  · exact Or.inr ⟨c, rfl⟩
  · exact Or.inl rfl
  · exact Or.inr ⟨folded (inString str [c]) c, rfl⟩
  · exact Or.inl rfl

private theorem folded_ne_zero (hc : 32 < c) : folded str c ≠ 0 := by
  unfold folded
  split_ifs <;> omega

/-- The codes of what is stored are none of them 0. -/
theorem stored_ne_zero : ∀ p ∈ stored str c, p.1 ≠ 0 ∧ p.2 ≠ 0 := by
  intro p hp
  unfold stored at hp
  split_ifs at hp with h32 hstr hrange
  · obtain rfl := List.mem_singleton.1 hp
    dsimp only
    omega
  · cases hp
  · obtain rfl := List.mem_singleton.1 hp
    exact ⟨Nat.ne_zero_of_lt hrange.1, folded_ne_zero hrange.1⟩
  · cases hp

end

/-! ### Drafts -/

/-- The state of the editor, and what it has stored: each character as it is typed and as it is split. -/
structure Draft where
  state : LeditState
  chars : List (Nat × Nat)
  deriving DecidableEq

namespace Draft
variable (h : LineHabit) (d : Draft)

/-- The original line. -/
def typed : List Nat := d.chars.map Prod.fst

/-- The line that is split. -/
def line : List Nat := d.chars.map Prod.snd

/-- What `ledit_collect` does with a character that does not end the line. -/
def character (c : Nat) : Draft :=
  if c = h.s4 then d
  else if c = h.s5 then ⟨if d.chars.dropLast = [] then .prefixT else d.state, d.chars.dropLast⟩
  else { d with chars := d.chars ++ stored (inString false d.typed) c }

/-- What the editor does with a character that does not end the line. -/
def key (c : Nat) : Draft :=
  match d.state with
  | .idle => if c = 97 ∨ c = 65 then { d with state := .prefixA } else d
  | .prefixA =>
    if c = 116 ∨ c = 84 then { d with state := .prefixT } else if c = h.s5 then { d with state := .idle } else d
  | .prefixT => if c = h.s5 then { d with state := .prefixA } else { d with state := .collect }.character h c
  | _ => d.character h c

end Draft

/-- The draft of a line. -/
def draft (h : LineHabit) (keys : List Nat) : Draft := keys.foldl (Draft.key h) ⟨.idle, []⟩

/-- The buffer always has room for what is stored; no character of the line is S3, and no `/` follows an `A` alone, which
asks for the last line. -/
def fitsDraft (h : LineHabit) : Draft → List Nat → Bool
  | d, [] => decide (d.chars.length + 2 ≤ maxCmdLen)
  | d, c :: keys =>
    decide (d.chars.length + 2 ≤ maxCmdLen) && c != h.s3 && !(decide (d.state = .prefixA) && c == 47) &&
      fitsDraft h (d.key h c) keys

/-- A draft with the buffer of the line. -/
structure Sheet where
  draft : Draft
  buffer : Buf

namespace Sheet
variable (h : LineHabit) (x : Sheet)

/-- A character that is stored is written behind the others; a line from which all has been deleted is terminated. -/
def key (c : Nat) : Sheet :=
  let d := x.draft.key h c
  let n := x.draft.chars.length
  if n < d.chars.length then ⟨d, x.buffer.put n (d.line.getD n 0)⟩
  else if x.draft.state = .collect ∧ d.state = .prefixT then ⟨d, x.buffer.put 0 0⟩
  else ⟨d, x.buffer⟩

/-- At the end of a call the line is terminated. -/
def ended : Sheet :=
  if x.draft.state = .collect then ⟨x.draft, x.buffer.put x.draft.chars.length 0⟩ else x

/-- The characters of a call, but for S3. -/
def call (cs : List Nat) : Sheet := ((cs.filter (· ≠ h.s3)).foldl (Sheet.key h) x).ended

end Sheet

/-- The sheet after calls. -/
def sheet (h : LineHabit) (buffer : Buf) (calls : List (List Nat)) : Sheet :=
  calls.foldl (Sheet.call h) ⟨⟨.idle, []⟩, buffer⟩

section
variable {h : LineHabit} {d : Draft} {x : Sheet} {c : Nat} {cs p : List Nat} {calls : List (List Nat)}

/-! ### Keys -/

theorem key_collect (hst : d.state = .collect) : d.key h c = d.character h c := by
  unfold Draft.key
  rw [hst]

theorem key_prefixT (hst : d.state = .prefixT) (h5 : c ≠ h.s5) :
    d.key h c = Draft.character h { d with state := .collect } c := by
  unfold Draft.key
  rw [hst]
  exact if_neg h5

theorem character_back (hst : d.state = .collect) (h4 : c ≠ h.s4) (h5 : c = h.s5) :
    d.key h c = ⟨if d.chars.dropLast = [] then .prefixT else d.state, d.chars.dropLast⟩ := by
  unfold Draft.key Draft.character
  rw [hst]
  dsimp only
  rw [if_neg h4, if_pos h5]

/-- The characters of a draft are stored behind `AT`, and none of their codes is 0. -/
structure Draft.Sound (d : Draft) : Prop where
  typing : d.state ≠ .repeat ∧ d.state ≠ .runCmd
  empty : d.state ≠ .collect → d.chars = []
  codes : ∀ p ∈ d.chars, p.1 ≠ 0 ∧ p.2 ≠ 0

private theorem character_sound (hd : d.Sound) (hst : d.state = .collect) (c : Nat) : (d.character h c).Sound := by
  unfold Draft.character
  by_cases h4 : c = h.s4
  · rw [if_pos h4]
    exact hd
  rw [if_neg h4]
  by_cases h5 : c = h.s5
  · rw [if_pos h5]
    have hcodes : ∀ p ∈ d.chars.dropLast, p.1 ≠ 0 ∧ p.2 ≠ 0 := fun p hp => hd.codes p (List.dropLast_subset _ hp)
    by_cases hleft : d.chars.dropLast = []
    · rw [if_pos hleft]
      exact ⟨⟨nofun, nofun⟩, fun _ => hleft, hcodes⟩
    · rw [if_neg hleft]
      exact ⟨hd.typing, fun hne => absurd hst hne, hcodes⟩
  · rw [if_neg h5]
    refine ⟨hd.typing, fun hne => absurd hst hne, fun p hp => ?_⟩
    rcases List.mem_append.1 (show p ∈ d.chars ++ stored (inString false d.typed) c from hp) with hp | hp
    · exact hd.codes p hp
    · exact stored_ne_zero p hp

/-- What a key leaves is sound. -/
theorem Draft.Sound.key (hd : d.Sound) (c : Nat) : (d.key h c).Sound := by
  have hfront : ∀ st : LeditState, st ≠ .repeat → st ≠ .runCmd → d.state ≠ .collect → (⟨st, d.chars⟩ : Draft).Sound :=
    fun st hrep hrun hst => ⟨⟨hrep, hrun⟩, fun _ => hd.empty hst, hd.codes⟩
  unfold Draft.key
  cases hst : d.state with
  | idle =>
    dsimp only
    split_ifs
    · exact hfront _ nofun nofun (by rw [hst]; exact nofun)
    · exact hd
  | prefixA =>
    dsimp only
    split_ifs
    · exact hfront _ nofun nofun (by rw [hst]; exact nofun)
    · exact hfront _ nofun nofun (by rw [hst]; exact nofun)
    · exact hd
  | prefixT =>
    dsimp only
    split_ifs
    · exact hfront _ nofun nofun (by rw [hst]; exact nofun)
    · exact character_sound (hfront .collect nofun nofun (by rw [hst]; exact nofun)) rfl c
  | collect => exact character_sound hd hst c
  | «repeat» => exact absurd hst hd.typing.1
  | runCmd => exact absurd hst hd.typing.2

theorem Draft.Sound.keys (hd : d.Sound) (cs : List Nat) : (cs.foldl (Draft.key h) d).Sound := by
  induction cs generalizing d with
  | nil => exact hd
  | cons c cs ih => exact ih (hd.key c)

theorem empty_sound : (⟨.idle, []⟩ : Draft).Sound := ⟨⟨nofun, nofun⟩, fun _ => rfl, nofun⟩

theorem draft_sound (keys : List Nat) : (draft h keys).Sound := empty_sound.keys keys

/-! ### Rooms -/

private theorem fitsDraft_room {keys : List Nat} (hk : fitsDraft h d keys = true) :
    decide (d.chars.length + 2 ≤ maxCmdLen) = true := by
  cases keys with
  | nil => exact hk
  | cons c keys =>
    unfold fitsDraft at hk
    rw [Bool.and_eq_true, Bool.and_eq_true, Bool.and_eq_true] at hk
    exact hk.1.1.1

theorem fitsDraft_append {keys : List Nat} :
    fitsDraft h d (cs ++ keys) = (fitsDraft h d cs && fitsDraft h (cs.foldl (Draft.key h) d) keys) := by
  induction cs generalizing d with
  | nil =>
    change fitsDraft h d keys = (decide (d.chars.length + 2 ≤ maxCmdLen) && fitsDraft h d keys)
    cases hk : fitsDraft h d keys with
    | false => rw [Bool.and_false]
    | true => rw [fitsDraft_room hk, Bool.and_true]
  | cons c cs ih =>
    rw [List.cons_append, List.foldl_cons, fitsDraft, fitsDraft, ih, ← Bool.and_assoc]

/-- The buffer has room for the terminator of the line. -/
theorem fitsDraft_end (hk : fitsDraft h d cs = true) : (cs.foldl (Draft.key h) d).chars.length + 2 ≤ maxCmdLen := by
  have happ := @fitsDraft_append h d cs []
  rw [List.append_nil, hk] at happ
  exact of_decide_eq_true (fitsDraft_room (Bool.and_eq_true_iff.1 happ.symm).2)

theorem draft_of_sheet (x : Sheet) (cs : List Nat) :
    (cs.foldl (Sheet.key h) x).draft = cs.foldl (Draft.key h) x.draft := by
  induction cs generalizing x with
  | nil => rfl
  | cons c cs ih =>
    have hone : (x.key h c).draft = x.draft.key h c := by
      unfold Sheet.key
      dsimp only
      split_ifs <;> rfl
    rw [List.foldl_cons, List.foldl_cons, ih, hone]

theorem fitsDraft_plain (hfits : fitsDraft h d cs = true) : cs.filter (· ≠ h.s3) = cs := by
  rw [List.filter_eq_self]
  induction cs generalizing d with
  | nil => exact nofun
  | cons c cs ih =>
    unfold fitsDraft at hfits
    rw [Bool.and_eq_true, Bool.and_eq_true, Bool.and_eq_true] at hfits
    intro b hb
    rcases List.mem_cons.1 hb with rfl | hb
    · exact decide_eq_true (bne_iff_ne.1 hfits.1.1.2)
    · exact ih hfits.2 b hb

/-! ### Sheets -/

theorem Sheet.key_same (hkey : x.draft.key h c = x.draft) : x.key h c = x := by
  unfold Sheet.key
  dsimp only
  rw [hkey, if_neg (Nat.lt_irrefl _), if_neg fun hc => absurd (hc.1.symm.trans hc.2) nofun]

theorem ended_draft (x : Sheet) : x.ended.draft = x.draft := by
  unfold Sheet.ended
  split_ifs <;> rfl

theorem call_ended (x : Sheet) (hfits : fitsDraft h x.draft cs = true) :
    x.call h (cs ++ [h.s3]) = (cs.foldl (Sheet.key h) x).ended := by
  have hs3 : [h.s3].filter (· ≠ h.s3) = [] := by simp
  unfold Sheet.call
  rw [List.filter_append, fitsDraft_plain hfits, hs3, List.append_nil]

theorem call_draft (x : Sheet) (hfits : fitsDraft h x.draft cs = true) :
    (x.call h cs).draft = cs.foldl (Draft.key h) x.draft := by
  unfold Sheet.call
  rw [ended_draft, draft_of_sheet, fitsDraft_plain hfits]

private theorem key_grows (h5 : c ≠ h.s5) :
    (d.key h c).chars = d.chars ∨ ∃ a, (d.key h c).chars = d.chars ++ [a] := by
  have hchar : ∀ e : Draft, (e.character h c).chars = e.chars ∨ ∃ a, (e.character h c).chars = e.chars ++ [a] := by
    intro e
    unfold Draft.character
    by_cases h4 : c = h.s4
    · rw [if_pos h4]
      exact Or.inl rfl
    · rw [if_neg h4, if_neg h5]
      rcases stored_cases (inString false e.typed) c with hc | ⟨b, hc⟩
      · exact Or.inl (by rw [hc, List.append_nil])
      · exact Or.inr ⟨(c, b), by rw [hc]⟩
  unfold Draft.key
  cases d.state with
  | idle =>
    dsimp only
    split_ifs <;> exact Or.inl rfl
  | prefixA =>
    dsimp only
    split_ifs <;> exact Or.inl rfl
  | prefixT =>
    dsimp only
    rw [if_neg h5]
    exact hchar _
  | collect => exact hchar d
  | «repeat» => exact hchar d
  | runCmd => exact hchar d

/-- Nothing is left behind the line. -/
def Sheet.Clean (x : Sheet) : Prop := ∀ j, x.draft.chars.length ≤ j → x.buffer j = 0

private theorem Sheet.Clean.key (hx : x.Clean) (h5 : c ≠ h.s5) : (x.key h c).Clean := by
  have hzero : ∀ i j, x.draft.chars.length ≤ j → x.buffer.put i 0 j = 0 := by
    intro i j hj
    change (if j = i then 0 else x.buffer j) = 0
    rw [hx j hj, ite_self]
  have hgrows := key_grows (d := x.draft) h5
  unfold Sheet.key
  dsimp only
  generalize x.draft.key h c = e at hgrows
  rcases hgrows with hsame | ⟨a, ha⟩
  · rw [hsame, if_neg (Nat.lt_irrefl _)]
    split_ifs
    · exact fun j hj => hzero 0 j (hsame ▸ hj)
    · exact fun j hj => hx j (hsame ▸ hj)
  · have hlen : e.chars.length = x.draft.chars.length + 1 := by
      rw [ha, List.length_append]
      rfl
    rw [if_pos (by omega)]
    intro j hj
    change e.chars.length ≤ j at hj
    change (if j = x.draft.chars.length then _ else x.buffer j) = 0
    rw [if_neg (by omega)]
    exact hx j (by omega)

private theorem Sheet.Clean.call (hx : x.Clean) (hp : ∀ c ∈ p, c = h.s3 ∨ c ≠ h.s5) : (x.call h p).Clean := by
  have hkeys : ∀ l : List Nat, (∀ c ∈ l, c ≠ h.s5) → ∀ y : Sheet, y.Clean → (l.foldl (Sheet.key h) y).Clean := by
    intro l
    induction l with
    | nil => exact fun _ _ hy => hy
    | cons c l ih =>
      exact fun hl y hy => ih (fun b hb => hl b (List.mem_cons_of_mem _ hb)) _ (hy.key (hl c List.mem_cons_self))
  have hend : ∀ y : Sheet, y.Clean → y.ended.Clean := by
    intro y hy
    unfold Sheet.ended
    split_ifs
    · intro j hj
      change (if j = _ then 0 else y.buffer j) = 0
      rw [hy j hj, ite_self]
    · exact hy
  refine hend _ (hkeys _ (fun c hc => ?_) x hx)
  obtain ⟨hmem, hne⟩ := List.mem_filter.1 hc
  exact (hp c hmem).resolve_left (of_decide_eq_true hne)

/-- Calls without a backspace leave nothing behind the line. -/
theorem Sheet.Clean.all (hx : x.Clean) (hp : ∀ c ∈ calls.flatten, c = h.s3 ∨ c ≠ h.s5) :
    (calls.foldl (Sheet.call h) x).Clean := by
  induction calls generalizing x with
  | nil => exact hx
  | cons p ps ih =>
    rw [List.flatten_cons] at hp
    exact ih (hx.call fun c hc => hp c (List.mem_append_left _ hc)) fun c hc => hp c (List.mem_append_right _ hc)

end

end Citrine.Aci
