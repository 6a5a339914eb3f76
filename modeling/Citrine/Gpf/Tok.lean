import Mathlib.Data.List.Forall2
import Mathlib.Data.List.GetD
import Mathlib.Logic.Function.Basic
import Citrine.Gpf.TokGrammar

/-!
# The parser of configuration strings

`tok.c`: the string is copied to a buffer, in which each call of `tok_next` writes terminators behind the texts that it
returns; the character behind an identifier is remembered until the next token is read.  Every list of entries is returned
entry by entry unless an entry with empty brackets stands in front of another one, and every string comes to its end
(`answers_iff`); but a string of 79 characters that ends with a value is read on behind the buffer.
-/

namespace Citrine.Gpf

/-- The types of tokens. -/
inductive TokType where
  | error | eos | comma | equal | ident | string | lbrack | rbrack
  deriving DecidableEq, Repr

/-- The type of a token. -/
def Token.type : Token → TokType
  | comma => .comma
  | equal => .equal
  | lbrack => .lbrack
  | rbrack => .rbrack
  | ident _ => .ident
  | string _ => .string

/-- The size of `tok_buf`. -/
def tokBufSize : Nat := 80

/-- `tok_dcb`: a pointer into the buffer is an index, and `none` is `NULL`. -/
structure Tok where
  tokbuf : Nat → Nat
  nexttok : Option Nat
  lastchar : Nat

/-- `tok_init` -/
def tokInit (s : Text) : Tok := ⟨fun i => if i < tokBufSize - 1 then s.getD i 0 else 0, some 0, 0⟩

namespace Tok
variable (s : Tok)

/-- A character is read, `none` outside the buffer. -/
def read (i : Nat) : Option Nat := if i < tokBufSize then some (s.tokbuf i) else none

/-- A character is written, `none` outside the buffer. -/
def write (i c : Nat) : Option Tok :=
  if i < tokBufSize then some { s with tokbuf := Function.update s.tokbuf i c } else none

/-- A pointer is moved on. -/
def skipWhile (p : Nat → Bool) : Nat → Nat → Option Nat
  | 0, _ => none
  | n + 1, i => (s.read i).bind fun c => if p c then skipWhile p n (i + 1) else some i

/-- The rounds of a loop that stays in the buffer. -/
def rounds : Nat := 81

/-- The token at an index that is no white space, with the pointer that is returned. -/
def tokenAt (i : Nat) : Option (Tok × TokType × Nat) := do
  let c ← s.read i
  if c = 0 ∨ c = 10 then some ({ s with nexttok := some (i + 1) }, .eos, i)
  else if c = 44 then (s.write i 0).map fun s => ({ s with nexttok := some (i + 1) }, .comma, i)
  else if c = 61 then (s.write i 0).map fun s => ({ s with nexttok := some (i + 1) }, .equal, i)
  else if isLbrack c then (s.write i 0).map fun s => ({ s with nexttok := some (i + 1) }, .lbrack, i)
  else if isRbrack c then (s.write i 0).map fun s => ({ s with nexttok := some (i + 1) }, .rbrack, i)
  else if c = quote then
    let j ← s.skipWhile (fun c => decide (c ≠ 0) && decide (c ≠ quote)) rounds (i + 1)
    let d ← s.read j
    if d ≠ 0 then (s.write j 0).map fun s => ({ s with nexttok := some (j + 1) }, .string, i + 1)
    else some ({ s with nexttok := some j }, .string, i + 1)
  else if tokIssep c then some ({ s with nexttok := some (i + 1) }, .error, i)
  else
    let j ← s.skipWhile (!tokIssep ·) rounds (i + 1)
    let d ← s.read j
    (s.write j 0).map fun s => ({ s with nexttok := some j, lastchar := d }, .ident, i)

/-- The remembered character is put back. -/
def restore (cp : Nat) : Option Tok :=
  if s.lastchar ≠ 0 then (s.write cp s.lastchar).map fun s => { s with lastchar := 0 } else some s

/-- `tok_gettok` -/
def tokGettok : Option (Tok × TokType × Nat) := do
  let cp ← s.nexttok
  let s' ← s.restore cp
  let i ← s'.skipWhile isspace rounds cp
  let r ← s'.tokenAt i
  if s.lastchar ≠ 0 then (r.1.write cp 0).map fun s => (s, r.2) else some r

/-- `nexttok` is set to `NULL`. -/
def stop : Tok := { s with nexttok := none }

/-- The loop of `tok_value`, with the values so far. -/
def valueLoop : Nat → Tok → TokType → Nat → List Nat → Option (Tok × List Nat)
  | 0, _, _, _, _ => none
  | n + 1, s, tok, val, value =>
    if tok = .ident ∨ tok = .string then do
      let r ← s.tokGettok
      if r.2.1 = .comma then
        let q ← r.1.tokGettok
        valueLoop n q.1 q.2.1 q.2.2 (value ++ [val])
      else if r.2.1 = .rbrack then
        let q ← r.1.tokGettok
        if q.2.1 = .comma ∨ q.2.1 = .eos then some (q.1, value ++ [val]) else some (q.1.stop, [])
      else some (r.1.stop, [])
    else some (s.stop, [])

/-- `tok_value`: the values that are counted. -/
def tokValue : Option (Tok × List Nat) := do
  let r ← s.tokGettok
  if r.2.1 = .lbrack then
    let q ← r.1.tokGettok
    valueLoop rounds q.1 q.2.1 q.2.2 []
  else if r.2.1 = .ident ∨ r.2.1 = .string then
    let q ← r.1.tokGettok
    if q.2.1 ≠ .comma ∧ q.2.1 ≠ .eos then some (q.1.stop, []) else some (q.1, [r.2.2])
  else some (r.1.stop, [])

/-- `tok_next`: the keyword and the values, `none` for `TOK_EOCS`. -/
def tokNext : Option (Tok × Option (Nat × List Nat)) :=
  if s.nexttok = none then some (s, none)
  else do
    let r ← s.tokGettok
    if r.2.1 ≠ .ident then some (r.1.stop, none)
    else
      let q ← r.1.tokGettok
      if q.2.1 = .comma then some (q.1, some (r.2.2, []))
      else if q.2.1 = .equal then q.1.tokValue.map fun v => (v.1, some (r.2.2, v.2))
      else if q.2.1 = .eos then some (q.1.stop, some (r.2.2, []))
      else some (q.1.stop, none)

/-- The text that a pointer points to. -/
def textAt : Nat → Nat → Option Text
  | 0, _ => none
  | n + 1, i => (s.read i).bind fun c => if c = 0 then some [] else (textAt n (i + 1)).map (c :: ·)

/-- What is seen of an item when the call returns. -/
def seen (r : Nat × List Nat) : Option Item :=
  (s.textAt rounds r.1).bind fun k => (r.2.mapM (s.textAt rounds)).map fun vs => (k, vs)

/-- The items of repeated calls of `tok_next` up to `TOK_EOCS`. -/
def calls : Nat → Tok → Option (List Item)
  | 0, _ => none
  | n + 1, s => s.tokNext.bind fun r =>
    match r.2 with
    | none => some []
    | some q => (r.1.seen q).bind fun i => (calls n r.1).map (i :: ·)

end Tok

/-- The items that are returned of a string, `none` when the calls come to no end in the buffer. -/
def answers (s : Text) : Option (List Item) := (tokInit s).calls 82

/-! ### Texts in the buffer -/

/-- The buffer holds a text, which a terminator ends. -/
def Holds (b : Nat → Nat) : Nat → Text → Prop
  | i, [] => b i = 0
  | i, c :: r => b i = c ∧ c ≠ 0 ∧ Holds b (i + 1) r

section
variable {b b' : Nat → Nat} {i : Nat} {k : Text}

private theorem Holds.congr (h : Holds b i k) (heq : ∀ j, i ≤ j → j ≤ i + k.length → b' j = b j) : Holds b' i k := by
  induction k generalizing i with
  | nil => exact (heq i (Nat.le_refl _) (Nat.le_refl _)).trans h
  | cons c k ih =>
    refine ⟨(heq i (Nat.le_refl _) (Nat.le_add_right _ _)).trans h.1, h.2.1, ih h.2.2 fun j hj hle => heq j ?_ ?_⟩
    · omega
    · rw [List.length_cons]
      omega

/-- What is left of a text behind its first characters. -/
private theorem Holds.drop {l : Text} (h : Holds b i (l ++ k)) : Holds b (i + l.length) k := by
  induction l generalizing i with
  | nil => exact h
  | cons c l ih =>
    have hrest := ih h.2.2
    rw [List.length_cons, Nat.add_comm l.length 1, ← Nat.add_assoc]
    exact hrest

private theorem Holds.ended (h : Holds b i k) : b (i + k.length) = 0 := by
  have hdrop : Holds b i (k ++ []) := (List.append_nil k).symm ▸ h
  exact hdrop.drop

/-- The first characters of a text are one, when a terminator is behind them. -/
private theorem Holds.take {l : Text} (h : Holds b i (l ++ k)) (heq : ∀ j, i ≤ j → j < i + l.length → b' j = b j)
    (hend : b' (i + l.length) = 0) : Holds b' i l := by
  induction l generalizing i with
  | nil => exact hend
  | cons c l ih =>
    rw [List.length_cons] at heq hend
    refine ⟨(heq i (Nat.le_refl _) (by omega)).trans h.1, h.2.1, ih h.2.2 (fun j hj hlt => heq j (by omega) (by omega)) ?_⟩
    rw [Nat.add_assoc, Nat.add_comm 1]
    exact hend

end

namespace Tok

section
variable {s s' : Tok} {b b' : Nat → Nat} {i j n k p cp size : Nat} {r r' k : Text} {t : Token} {ts : List Token}
  {f : Nat → Bool}

theorem read_inside (h : i < tokBufSize) : s.read i = some (s.tokbuf i) := if_pos h

theorem write_inside (h : i < tokBufSize) {c : Nat} :
    s.write i c = some { s with tokbuf := Function.update s.tokbuf i c } := if_pos h

/-- A pointer is moved over the characters of a text. -/
private theorem skipWhile_eq (h : Holds s.tokbuf i r) (hf : f 0 = false) (hin : i + r.length < tokBufSize)
    (hn : r.length < n) : s.skipWhile f n i = some (i + (r.takeWhile f).length) := by
  induction r generalizing i n with
  | nil =>
    obtain ⟨n, rfl⟩ := Nat.exists_eq_add_one.2 (Nat.zero_lt_of_lt hn)
    have h0 : s.tokbuf i = 0 := h
    unfold skipWhile
    rw [read_inside (Nat.lt_of_le_of_lt (Nat.le_add_right _ _) hin), Option.bind_some, h0, hf]
    rfl
  | cons c r ih =>
    obtain ⟨n, rfl⟩ := Nat.exists_eq_add_one.2 (Nat.zero_lt_of_lt hn)
    rw [List.length_cons] at hin hn
    unfold skipWhile
    rw [read_inside (by omega), Option.bind_some, h.1]
    cases hc : f c with
    | true =>
      rw [if_pos rfl, ih h.2.2 (by omega) (by omega), List.takeWhile_cons_of_pos hc, List.length_cons]
      exact congrArg some (by omega)
    | false =>
      rw [if_neg nofun, List.takeWhile_cons_of_neg (by rw [hc]; exact nofun)]
      rfl

/-- The text of a pointer. -/
private theorem textAt_eq (h : Holds s.tokbuf i k) (hin : i + k.length < tokBufSize) (hn : k.length < n) :
    s.textAt n i = some k := by
  induction k generalizing i n with
  | nil =>
    obtain ⟨n, rfl⟩ := Nat.exists_eq_add_one.2 (Nat.zero_lt_of_lt hn)
    have h0 : s.tokbuf i = 0 := h
    unfold textAt
    rw [read_inside (Nat.lt_of_le_of_lt (Nat.le_add_right _ _) hin), Option.bind_some, h0, if_pos rfl]
  | cons c k ih =>
    obtain ⟨n, rfl⟩ := Nat.exists_eq_add_one.2 (Nat.zero_lt_of_lt hn)
    rw [List.length_cons] at hin hn
    unfold textAt
    rw [read_inside (by omega), Option.bind_some, h.1, if_neg h.2.1, ih h.2.2 (by omega) (by omega)]
    rfl

/-! ### What is left of the string -/

/-- The characters from an index on, and zeros behind them up to the end of the buffer. -/
private structure Left (b : Nat → Nat) (n size : Nat) (r : Text) : Prop where
  chars : Holds b n r
  length : n + r.length = size
  zeros : ∀ j, size ≤ j → j < tokBufSize → b j = 0

/-- The buffer with the remembered character. -/
private def restored (s : Tok) (n : Nat) : Nat → Nat :=
  if s.lastchar ≠ 0 then Function.update s.tokbuf n s.lastchar else s.tokbuf

/-- The scanner stands in front of the rest of a string of `size` characters. -/
private structure Reads (size : Nat) (s : Tok) (n : Nat) (r : Text) : Prop where
  nexttok : s.nexttok = some n
  left : Left (s.restored n) n size r
  sep : s.lastchar ≠ 0 → tokIssep s.lastchar = true ∧ s.tokbuf n = 0

/-- The scanner stands behind the end of the string. -/
private structure Past (size : Nat) (s : Tok) : Prop where
  nexttok : s.nexttok = some (size + 1)
  lastchar : s.lastchar = 0
  zeros : ∀ j, size ≤ j → j < tokBufSize → s.tokbuf j = 0

/-- A pointer to a text that is kept. -/
private structure Shows (s : Tok) (p : Nat) (k : Text) : Prop where
  chars : Holds s.tokbuf p k
  inside : p + k.length < tokBufSize
  behind : ∀ n ∈ s.nexttok, p + k.length ≤ n

/-- No text is changed. -/
private def Keeps (s s' : Tok) : Prop := ∀ p k, s.Shows p k → s'.Shows p k

private theorem Keeps.trans {s'' : Tok} (h : Keeps s s') (h' : Keeps s' s'') : Keeps s s'' :=
  fun p k hk => h' p k (h p k hk)

private theorem Shows.stop (h : s.Shows p k) : s.stop.Shows p k := ⟨h.chars, h.inside, nofun⟩

private theorem keeps_of_le (hn : s.nexttok = some n) (hb : ∀ j < n, s'.tokbuf j = s.tokbuf j)
    (hend : s.tokbuf n = 0 → s'.tokbuf n = 0) (hnext : ∀ m ∈ s'.nexttok, n ≤ m) : Keeps s s' := by
  intro p k hk
  have hle := hk.behind n hn
  refine ⟨?_, hk.inside, fun m hm => hle.trans (hnext m hm)⟩
  have hwhole : Holds s.tokbuf p (k ++ []) := (List.append_nil k).symm ▸ hk.chars
  refine hwhole.take (fun j _ hj => hb j (by omega)) ?_
  rcases Nat.lt_or_eq_of_le hle with hlt | heq
  · rw [hb _ hlt]
    exact hk.chars.ended
  · rw [heq]
    exact hend (heq ▸ hk.chars.ended)

/-! ### The next token -/

private theorem Left.drop {l : Text} (h : Left b n size (l ++ r)) : Left b (n + l.length) size r := by
  refine ⟨h.chars.drop, ?_, h.zeros⟩
  have hlen := h.length
  rw [List.length_append] at hlen
  omega

private theorem Left.congr (h : Left b n size r) (heq : ∀ j, n ≤ j → b' j = b j) : Left b' n size r := by
  refine ⟨h.chars.congr fun j hj _ => heq j hj, h.length, fun j hj hlt => ?_⟩
  have hlen := h.length
  rw [heq j (by omega)]
  exact h.zeros j hj hlt

private theorem Left.nonzero (h : Holds b n r) : ∀ c ∈ r, c ≠ 0 := by
  induction r generalizing n with
  | nil => exact nofun
  | cons c r ih =>
    intro d hd
    rcases List.mem_cons.1 hd with rfl | hd
    · exact h.2.1
    · exact ih h.2.2 d hd

private theorem takeWhile_congr' {f g : Nat → Bool} (h : ∀ c ∈ r, f c = g c) : r.takeWhile f = r.takeWhile g := by
  induction r with
  | nil => rfl
  | cons c r ih =>
    rw [List.takeWhile_cons, List.takeWhile_cons, h c List.mem_cons_self, ih fun d hd => h d (List.mem_cons_of_mem _ hd)]

/-- What reading a token at an index comes to. -/
private structure Takes (s s' : Tok) (i size p : Nat) (c : Nat) (t : Token) (r : Text) : Prop where
  reads : ∃ m, i < m ∧ s'.Reads size m r
  front : ∀ j < i, s'.tokbuf j = s.tokbuf j
  shows : ∀ k, t.value = some k → s'.Shows p k ∧ i ≤ p ∧ (tokIssep c = true → i < p)

private theorem separator_takes {c : Nat} (h : Left s.tokbuf i size (c :: r)) (hlast : s.lastchar = 0)
    (ht : t.value = none) : Takes s ⟨Function.update s.tokbuf i 0, some (i + 1), s.lastchar⟩ i size p c t r := by
  refine ⟨⟨i + 1, Nat.lt_succ_self i, rfl, ?_, fun hne => absurd hlast hne⟩, fun j hj => ?_, fun k hk => ?_⟩
  · have hrest : Left s.tokbuf (i + 1) size r := Left.drop (l := [c]) h
    unfold restored
    rw [if_neg (not_not.2 hlast)]
    exact hrest.congr fun j hj => Function.update_of_ne (by omega) _ _
  · exact Function.update_of_ne (by omega) _ _
  · rw [ht] at hk
    cases hk

private theorem string_takes (h : Left s.tokbuf i size (quote :: r)) (hsize : size < tokBufSize) (hlast : s.lastchar = 0) :
    ∃ s', s.tokenAt i = some (s', .string, i + 1) ∧
      Takes s s' i size (i + 1) quote (.string (r.takeWhile (· ≠ quote))) (r.dropWhile (· ≠ quote)).tail := by
  obtain ⟨k, hk⟩ : ∃ k, r.takeWhile (· ≠ quote) = k := ⟨_, rfl⟩
  obtain ⟨rest, hrest⟩ : ∃ rest, r.dropWhile (· ≠ quote) = rest := ⟨_, rfl⟩
  have hr : r = k ++ rest := by rw [← hk, ← hrest, List.takeWhile_append_dropWhile]
  have hlen := h.length
  rw [List.length_cons, hr, List.length_append] at hlen
  have hinner : Left s.tokbuf (i + 1) size r := Left.drop (l := [quote]) h
  have hbehind : Left s.tokbuf (i + 1 + k.length) size rest := Left.drop (l := k) (hr ▸ hinner)
  have hskip : s.skipWhile (fun c => decide (c ≠ 0) && decide (c ≠ quote)) rounds (i + 1) =
      some (i + 1 + k.length) := by
    rw [skipWhile_eq hinner.chars rfl (by rw [hinner.length]; exact hsize)
      (by have := hinner.length; unfold rounds; unfold tokBufSize at hsize; omega)]
    rw [takeWhile_congr' (g := (· ≠ quote)) fun c hc => ?_, hk]
    rw [decide_eq_true (Left.nonzero hinner.chars c hc), Bool.true_and]
  have hat : s.tokenAt i = (s.read (i + 1 + k.length)).bind fun d =>
      if d ≠ 0 then (s.write (i + 1 + k.length) 0).map fun s =>
        ({ s with nexttok := some (i + 1 + k.length + 1) }, .string, i + 1)
      else some ({ s with nexttok := some (i + 1 + k.length) }, .string, i + 1) := by
    unfold tokenAt
    rw [read_inside (by omega), h.chars.1, hskip]
    rfl
  rw [hat, read_inside (by omega), Option.bind_some, hk, hrest]
  cases rest with
  | nil =>
    have h0 : s.tokbuf (i + 1 + k.length) = 0 := hbehind.chars
    rw [h0, if_neg (not_not.2 rfl)]
    refine ⟨_, rfl, ⟨i + 1 + k.length, by omega, rfl, ?_, fun hne => absurd hlast hne⟩, fun _ _ => rfl, fun k' hk' => ?_⟩
    · unfold restored
      rw [if_neg (not_not.2 hlast)]
      exact hbehind
    · obtain rfl : k = k' := Option.some.inj hk'
      refine ⟨⟨?_, by omega, fun m hm => (Option.some.inj hm).le⟩, by omega, fun _ => Nat.lt_succ_self i⟩
      have hchars := hinner.chars
      rw [hr, List.append_nil] at hchars
      exact hchars
  | cons d rest =>
    have hd : s.tokbuf (i + 1 + k.length) = d := hbehind.chars.1
    rw [hd, if_pos hbehind.chars.2.1, write_inside (by omega)]
    refine ⟨_, rfl, ⟨i + 1 + k.length + 1, by omega, rfl, ?_, fun hne => absurd hlast hne⟩, fun j hj => ?_, fun k' hk' => ?_⟩
    · unfold restored
      rw [if_neg (not_not.2 hlast)]
      have hlast' : Left s.tokbuf (i + 1 + k.length + 1) size rest := Left.drop (l := [d]) hbehind
      exact hlast'.congr fun j hj => Function.update_of_ne (by omega) _ _
    · exact Function.update_of_ne (by omega) _ _
    · obtain rfl : k = k' := Option.some.inj hk'
      refine ⟨⟨?_, by rw [List.length_cons] at hlen; omega, fun m hm => ?_⟩, by omega, fun _ => Nat.lt_succ_self i⟩
      · refine Holds.take (hr ▸ hinner.chars) (fun j _ hj => Function.update_of_ne (by omega) _ _) ?_
        exact Function.update_self _ _ _
      · obtain rfl := Option.some.inj hm
        exact Nat.le_succ _

private theorem ident_takes {c : Nat} (h : Left s.tokbuf i size (c :: r)) (hsize : size < tokBufSize)
    (hc : tokIssep c = false)
    (hat : s.tokenAt i = (s.skipWhile (!tokIssep ·) rounds (i + 1)).bind fun j => (s.read j).bind fun d =>
      (s.write j 0).map fun s => ({ s with nexttok := some j, lastchar := d }, .ident, i)) :
    ∃ s', s.tokenAt i = some (s', .ident, i) ∧
      Takes s s' i size i c (.ident (c :: r.takeWhile (!tokIssep ·))) (r.dropWhile (!tokIssep ·)) := by
  obtain ⟨k, hk⟩ : ∃ k, r.takeWhile (!tokIssep ·) = k := ⟨_, rfl⟩
  obtain ⟨rest, hrest⟩ : ∃ rest, r.dropWhile (!tokIssep ·) = rest := ⟨_, rfl⟩
  have hr : r = k ++ rest := by rw [← hk, ← hrest, List.takeWhile_append_dropWhile]
  have hlen := h.length
  rw [List.length_cons, hr, List.length_append] at hlen
  have hinner : Left s.tokbuf (i + 1) size r := Left.drop (l := [c]) h
  have hbehind : Left s.tokbuf (i + 1 + k.length) size rest := Left.drop (l := k) (hr ▸ hinner)
  have hskip : s.skipWhile (!tokIssep ·) rounds (i + 1) = some (i + 1 + k.length) := by
    rw [skipWhile_eq hinner.chars rfl (by rw [hinner.length]; exact hsize)
      (by have := hinner.length; unfold rounds; unfold tokBufSize at hsize; omega), hk]
  rw [hat, hskip, Option.bind_some, read_inside (by omega), Option.bind_some, write_inside (by omega), hk, hrest]
  have hfront : ∀ j, j < i + 1 + k.length → Function.update s.tokbuf (i + 1 + k.length) 0 j = s.tokbuf j :=
    fun j hj => Function.update_of_ne (by omega) _ _
  refine ⟨_, rfl, ⟨i + 1 + k.length, by omega, rfl, ?_, fun hne => ⟨?_, Function.update_self _ _ _⟩⟩,
    fun j hj => hfront j (by omega), fun k' hk' => ?_⟩
  · unfold restored
    dsimp only
    split
    · -- the remembered character stands in front of what is left
      refine hbehind.congr fun j _ => ?_
      by_cases hj : j = i + 1 + k.length
      · rw [hj, Function.update_self]
      · rw [Function.update_of_ne hj, Function.update_of_ne hj]
    · rename_i h0
      refine hbehind.congr fun j _ => ?_
      by_cases hj : j = i + 1 + k.length
      · rw [hj, Function.update_self]
        exact (not_not.1 h0).symm
      · rw [Function.update_of_ne hj]
  · cases rest with
    | nil => exact absurd hbehind.chars hne
    | cons d rest =>
      have hd : s.tokbuf (i + 1 + k.length) = d := hbehind.chars.1
      have hhead := List.head?_dropWhile_not (!tokIssep ·) r
      rw [hrest] at hhead
      change tokIssep (s.tokbuf (i + 1 + k.length)) = true
      rw [hd]
      simpa using hhead
  · obtain rfl : c :: k = k' := Option.some.inj hk'
    have hwhole : Holds s.tokbuf i ((c :: k) ++ rest) := by
      have hchars := h.chars
      rw [hr] at hchars
      exact hchars
    refine ⟨⟨hwhole.take (fun j _ hj => hfront j ?_) ?_, ?_, fun m hm => ?_⟩, Nat.le_refl i, fun hsep => ?_⟩
    · rw [List.length_cons] at hj
      omega
    · rw [List.length_cons, ← Nat.add_assoc, Nat.add_right_comm]
      exact Function.update_self _ _ _
    · rw [List.length_cons]
      omega
    · obtain rfl := Option.some.inj hm
      rw [List.length_cons]
      omega
    · exact absurd (hc.symm.trans hsep) nofun

/-- The token at an index. -/
private theorem tokenAt_eq {c : Nat} (h : Left s.tokbuf i size (c :: r)) (hsize : size < tokBufSize)
    (hlast : s.lastchar = 0) (hc : isspace c = false) (hl : lex (c :: r) = some (t, r')) :
    ∃ s' p, s.tokenAt i = some (s', t.type, p) ∧ Takes s s' i size p c t r' := by
  have hlen := h.length
  rw [List.length_cons] at hlen
  have hi : i < tokBufSize := by omega
  have hchar : s.tokbuf i = c := h.chars.1
  have hend : ¬(c = 0 ∨ c = 10) := by
    rintro (rfl | rfl)
    · exact h.chars.2.1 rfl
    · cases hc
  unfold lex at hl
  rw [List.dropWhile_cons_of_neg (by rw [hc]; exact nofun)] at hl
  dsimp only at hl
  by_cases h44 : c = 44
  · rw [if_pos h44] at hl
    obtain ⟨rfl, rfl⟩ := Prod.mk.inj (Option.some.inj hl)
    refine ⟨_, i, ?_, separator_takes h hlast rfl⟩
    unfold tokenAt
    rw [read_inside hi, hchar]
    change (if c = 0 ∨ c = 10 then _ else if c = 44 then _ else _) = _
    rw [if_neg hend, if_pos h44, write_inside hi]
    rfl
  rw [if_neg h44] at hl
  by_cases h61 : c = 61
  · rw [if_pos h61] at hl
    obtain ⟨rfl, rfl⟩ := Prod.mk.inj (Option.some.inj hl)
    refine ⟨_, i, ?_, separator_takes h hlast rfl⟩
    unfold tokenAt
    rw [read_inside hi, hchar]
    change (if c = 0 ∨ c = 10 then _ else if c = 44 then _ else if c = 61 then _ else _) = _
    rw [if_neg hend, if_neg h44, if_pos h61, write_inside hi]
    rfl
  rw [if_neg h61] at hl
  by_cases hlb : isLbrack c = true
  · rw [if_pos hlb] at hl
    obtain ⟨rfl, rfl⟩ := Prod.mk.inj (Option.some.inj hl)
    refine ⟨_, i, ?_, separator_takes h hlast rfl⟩
    unfold tokenAt
    rw [read_inside hi, hchar]
    change (if c = 0 ∨ c = 10 then _ else if c = 44 then _ else if c = 61 then _ else if isLbrack c then _ else _) = _
    rw [if_neg hend, if_neg h44, if_neg h61, if_pos hlb, write_inside hi]
    rfl
  rw [if_neg hlb] at hl
  by_cases hrb : isRbrack c = true
  · rw [if_pos hrb] at hl
    obtain ⟨rfl, rfl⟩ := Prod.mk.inj (Option.some.inj hl)
    refine ⟨_, i, ?_, separator_takes h hlast rfl⟩
    unfold tokenAt
    rw [read_inside hi, hchar]
    change (if c = 0 ∨ c = 10 then _ else if c = 44 then _ else if c = 61 then _ else if isLbrack c then _
      else if isRbrack c then _ else _) = _
    rw [if_neg hend, if_neg h44, if_neg h61, if_neg hlb, if_pos hrb, write_inside hi]
    rfl
  rw [if_neg hrb] at hl
  by_cases hq : c = quote
  · rw [if_pos hq] at hl
    obtain ⟨rfl, rfl⟩ := Prod.mk.inj (Option.some.inj hl)
    subst hq
    obtain ⟨s', hs', htakes⟩ := string_takes h hsize hlast
    exact ⟨s', i + 1, hs', htakes⟩
  rw [if_neg hq] at hl
  obtain ⟨rfl, rfl⟩ := Prod.mk.inj (Option.some.inj hl)
  have hsep : tokIssep c = false := by
    unfold tokIssep
    simp only [Bool.or_eq_false_iff, decide_eq_false_iff_not, not_or]
    exact ⟨⟨⟨⟨⟨fun h0 => hend (.inl h0), fun h10 => hend (.inr h10), h44, h61⟩, Bool.eq_false_iff.2 hlb⟩,
      Bool.eq_false_iff.2 hrb⟩, hq⟩, hc⟩
  have hat : s.tokenAt i = (s.skipWhile (!tokIssep ·) rounds (i + 1)).bind fun j => (s.read j).bind fun d =>
      (s.write j 0).map fun s => ({ s with nexttok := some j, lastchar := d }, .ident, i) := by
    unfold tokenAt
    rw [read_inside hi, hchar]
    change (if c = 0 ∨ c = 10 then _ else if c = 44 then _ else if c = 61 then _ else if isLbrack c then _
      else if isRbrack c then _ else if c = quote then _ else if tokIssep c then _ else _) = _
    rw [if_neg hend, if_neg h44, if_neg h61, if_neg hlb, if_neg hrb, if_neg hq, if_neg (by rw [hsep]; exact nofun)]
    rfl
  obtain ⟨s', hs', htakes⟩ := ident_takes h hsize hsep hat
  exact ⟨s', i, hs', htakes⟩

/-- The remembered character is put back, and white space is skipped. -/
private theorem Reads.skip (h : Reads size s n r) (hsize : size < tokBufSize) :
    s.restore n = some ⟨s.restored n, some n, 0⟩ ∧
    skipWhile ⟨s.restored n, some n, 0⟩ isspace rounds n = some (n + (r.takeWhile isspace).length) ∧
    Left (s.restored n) (n + (r.takeWhile isspace).length) size (r.dropWhile isspace) := by
  have hlen := h.left.length
  refine ⟨?_, ?_, ?_⟩
  · unfold restore restored
    split
    · rw [write_inside (by omega), h.nexttok]
      rfl
    · rename_i h0
      rw [← h.nexttok, ← not_not.1 h0]
  · refine skipWhile_eq h.left.chars rfl (by omega) ?_
    unfold rounds
    unfold tokBufSize at hsize
    omega
  · have hleft := h.left
    rw [← List.takeWhile_append_dropWhile (p := isspace) (l := r)] at hleft
    exact hleft.drop

private theorem restored_front (hj : j < n) : s.restored n j = s.tokbuf j := by
  unfold restored
  split
  · exact Function.update_of_ne (Nat.ne_of_lt hj) _ _
  · rfl

private theorem gettok_token (h : Reads size s n r) (hsize : size < tokBufSize) (hl : lex r = some (t, r')) :
    ∃ s' p m, s.tokGettok = some (s', t.type, p) ∧ Reads size s' m r' ∧ Keeps s s' ∧
      ∀ k, t.value = some k → s'.Shows p k := by
  obtain ⟨hrestore, hskip, hleft⟩ := h.skip hsize
  obtain ⟨i, hi⟩ : ∃ i, n + (r.takeWhile isspace).length = i := ⟨_, rfl⟩
  rw [hi] at hskip hleft
  cases hdrop : r.dropWhile isspace with
  | nil =>
    unfold lex at hl
    rw [hdrop] at hl
    cases hl
  | cons c r₀ =>
    have hc : isspace c = false := by
      have hhead := List.head?_dropWhile_not isspace r
      rw [hdrop] at hhead
      exact hhead
    have hl' : lex (c :: r₀) = some (t, r') := by
      unfold lex at hl ⊢
      rw [hdrop] at hl
      rw [List.dropWhile_cons_of_neg (by rw [hc]; exact nofun)]
      exact hl
    rw [hdrop] at hleft
    obtain ⟨s₂, p, hs₂, ⟨m, him, hreads⟩, hfront, hshows⟩ :=
      tokenAt_eq (s := ⟨s.restored n, some n, 0⟩) hleft hsize rfl hc hl'
    have hrun : s.tokGettok = if s.lastchar ≠ 0 then (s₂.write n 0).map fun s => (s, (t.type, p))
        else some (s₂, t.type, p) := by
      unfold tokGettok
      rw [h.nexttok]
      change (s.restore n).bind _ = _
      rw [hrestore]
      change (skipWhile ⟨s.restored n, some n, 0⟩ isspace rounds n).bind _ = _
      rw [hskip]
      change (tokenAt ⟨s.restored n, some n, 0⟩ i).bind _ = _
      rw [hs₂]
      rfl
    have hlen := hleft.length
    rw [List.length_cons] at hlen
    have hkept : ∀ j < n, s₂.tokbuf j = s.tokbuf j := fun j hj => (hfront j (by omega)).trans (restored_front hj)
    have hnext : ∀ q ∈ s₂.nexttok, n ≤ q := by
      intro q hq
      obtain rfl : m = q := Option.some.inj (hreads.nexttok.symm.trans hq)
      omega
    by_cases hlast : s.lastchar = 0
    · rw [if_neg (not_not.2 hlast)] at hrun
      refine ⟨s₂, p, m, hrun, hreads, keeps_of_le h.nexttok hkept (fun h0 => ?_) hnext, fun k hk => (hshows k hk).1⟩
      -- the string goes on, so that no text ends here
      have hchars := h.left.chars
      unfold restored at hchars
      rw [if_neg (not_not.2 hlast)] at hchars
      cases r with
      | nil => cases hdrop
      | cons d r => exact absurd (hchars.1.symm.trans h0) hchars.2.1
    · rw [if_pos hlast, write_inside (by omega)] at hrun
      have hsame : ∀ j, j ≠ n → Function.update s₂.tokbuf n 0 j = s₂.tokbuf j := fun j hj =>
        Function.update_of_ne hj _ _
      refine ⟨_, p, m, hrun, ⟨hreads.nexttok, ?_, fun hne => ?_⟩, ?_, fun k hk => ?_⟩
      · refine hreads.left.congr fun j hj => ?_
        unfold restored
        dsimp only
        split
        · by_cases hjm : j = m
          · rw [hjm, Function.update_self, Function.update_self]
          · rw [Function.update_of_ne hjm, Function.update_of_ne hjm, hsame j (by omega)]
        · exact hsame j (by omega)
      · obtain ⟨hsep, h0⟩ := hreads.sep hne
        exact ⟨hsep, (hsame m (by omega)).trans h0⟩
      · refine keeps_of_le h.nexttok (fun j hj => (hsame j (by omega)).trans (hkept j hj)) (fun _ => ?_) hnext
        exact Function.update_self _ _ _
      · obtain ⟨hshow, hip, hsep⟩ := hshows k hk
        have hnp : n < p := by
          by_cases hin : n = i
          · -- the remembered character is the first one of the token
            refine hin ▸ hsep ?_
            have hfirst : s.restored n n = c := hin ▸ hleft.chars.1
            unfold restored at hfirst
            rw [if_pos hlast, Function.update_self] at hfirst
            exact hfirst ▸ (h.sep hlast).1
          · omega
        exact ⟨hshow.chars.congr fun j hj _ => hsame j (by omega), hshow.inside, hshow.behind⟩

private theorem gettok_eos (h : Reads size s n r) (hsize : size < tokBufSize) (hl : lex r = none) :
    ∃ s' p, s.tokGettok = some (s', .eos, p) ∧ Past size s' ∧ Keeps s s' := by
  obtain ⟨hrestore, hskip, hleft⟩ := h.skip hsize
  have hdrop : r.dropWhile isspace = [] := by
    unfold lex at hl
    split at hl
    · assumption
    · repeat' split at hl
      all_goals cases hl
  rw [hdrop] at hleft
  have hi : n + (r.takeWhile isspace).length = size := hleft.length
  rw [hi] at hskip hleft
  have hn : n ≤ size := by omega
  have hend : s.restored n size = 0 := hleft.chars
  have hat : tokenAt ⟨s.restored n, some n, 0⟩ size = some (⟨s.restored n, some (size + 1), 0⟩, .eos, size) := by
    unfold tokenAt
    rw [read_inside hsize]
    change (if s.restored n size = 0 ∨ s.restored n size = 10 then _ else _) = _
    rw [if_pos (.inl hend)]
  have hrun : s.tokGettok = if s.lastchar ≠ 0 then (write ⟨s.restored n, some (size + 1), 0⟩ n 0).map fun s =>
      (s, (.eos, size)) else some (⟨s.restored n, some (size + 1), 0⟩, .eos, size) := by
    unfold tokGettok
    rw [h.nexttok]
    change (s.restore n).bind _ = _
    rw [hrestore]
    change (skipWhile ⟨s.restored n, some n, 0⟩ isspace rounds n).bind _ = _
    rw [hskip]
    change (tokenAt ⟨s.restored n, some n, 0⟩ size).bind _ = _
    rw [hat]
    rfl
  by_cases hlast : s.lastchar = 0
  · rw [if_neg (not_not.2 hlast)] at hrun
    refine ⟨_, size, hrun, ⟨rfl, rfl, hleft.zeros⟩, keeps_of_le h.nexttok (fun j hj => restored_front hj) (fun h0 => ?_)
      fun m hm => ?_⟩
    · change s.restored n n = 0
      unfold restored
      rw [if_neg (not_not.2 hlast)]
      exact h0
    · obtain rfl := Option.some.inj hm
      omega
  · rw [if_pos hlast, write_inside (by omega)] at hrun
    refine ⟨_, size, hrun, ⟨rfl, rfl, fun j hj hlt => ?_⟩, keeps_of_le h.nexttok (fun j hj => ?_) (fun _ => ?_)
      fun m hm => ?_⟩
    · by_cases hjn : j = n
      · rw [hjn]
        exact Function.update_self _ _ _
      · exact (Function.update_of_ne hjn _ _).trans (hleft.zeros j hj hlt)
    · exact (Function.update_of_ne (Nat.ne_of_lt hj) _ _).trans (restored_front hj)
    · exact Function.update_self _ _ _
    · obtain rfl := Option.some.inj hm
      omega

/-- Behind the end of the string there is another end, or the end of the buffer. -/
private theorem gettok_past (h : Past size s) :
    if size + 1 < tokBufSize then ∃ s' p, s.tokGettok = some (s', .eos, p) else s.tokGettok = none := by
  have hrestore : s.restore (size + 1) = some s := by
    unfold restore
    rw [if_neg (not_not.2 h.lastchar)]
  have hstart : s.tokGettok = (s.skipWhile isspace rounds (size + 1)).bind fun i => (s.tokenAt i).bind fun r =>
      if s.lastchar ≠ 0 then (r.1.write (size + 1) 0).map fun s => (s, r.2) else some r := by
    unfold tokGettok
    rw [h.nexttok]
    change (s.restore (size + 1)).bind _ = _
    rw [hrestore]
    rfl
  split
  · rename_i hlt
    have h0 := h.zeros (size + 1) (Nat.le_succ _) hlt
    have hskip : s.skipWhile isspace rounds (size + 1) = some (size + 1) := by
      change (s.read (size + 1)).bind _ = _
      rw [read_inside hlt, Option.bind_some, h0]
      rfl
    have hat : s.tokenAt (size + 1) = some ({ s with nexttok := some (size + 1 + 1) }, .eos, size + 1) := by
      unfold tokenAt
      rw [read_inside hlt]
      change (if s.tokbuf (size + 1) = 0 ∨ s.tokbuf (size + 1) = 10 then _ else _) = _
      rw [if_pos (.inl h0)]
    rw [hstart, hskip, Option.bind_some, hat, Option.bind_some, if_neg (not_not.2 h.lastchar)]
    exact ⟨_, _, rfl⟩
  · rename_i hge
    rw [hstart]
    change ((s.read (size + 1)).bind _).bind _ = _
    unfold read
    rw [if_neg hge]
    rfl

/-! ### Values -/

/-- The scanner stands in front of tokens. -/
private def Scans (size : Nat) (s : Tok) (ts : List Token) : Prop := ∃ n r, Reads size s n r ∧ Lexes r ts

/-- Where the scanner stands. -/
private def Stands (size : Nat) (s : Tok) : Rest → Prop
  | .stopped => s.nexttok = none
  | .past => Past size s
  | .more ts => Scans size s ts

private theorem keeps_stop (s : Tok) : Keeps s s.stop := fun _ _ h => h.stop

private theorem Scans.cons (h : Scans size s (t :: ts)) (hsize : size < tokBufSize) :
    ∃ s' p, s.tokGettok = some (s', t.type, p) ∧ Scans size s' ts ∧ Keeps s s' ∧ ∀ k, t.value = some k → s'.Shows p k := by
  obtain ⟨n, r, hreads, hlex⟩ := h
  cases hlex with
  | cons hl hrest =>
    obtain ⟨s', p, m, hrun, hreads', hkeeps, hshows⟩ := gettok_token hreads hsize hl
    exact ⟨s', p, hrun, ⟨m, _, hreads', hrest⟩, hkeeps, hshows⟩

private theorem Scans.nil (h : Scans size s []) (hsize : size < tokBufSize) :
    ∃ s' p, s.tokGettok = some (s', .eos, p) ∧ Past size s' ∧ Keeps s s' := by
  obtain ⟨n, r, hreads, hlex⟩ := h
  cases hlex with
  | nil hl => exact gettok_eos hreads hsize hl

private theorem Scans.length_le (h : Scans size s ts) : ts.length ≤ size := by
  obtain ⟨n, r, hreads, hlex⟩ := h
  have hle := hlex.length_le
  have hlen := hreads.left.length
  omega

/-- The token behind the values. -/
private theorem Scans.after (h : Scans size s ts) (hsize : size < tokBufSize) :
    ∃ s' tok p, s.tokGettok = some (s', tok, p) ∧ Keeps s s' ∧
      match afterValues ts with
      | some rest => (tok = .comma ∨ tok = .eos) ∧ Stands size s' rest
      | none => ¬(tok = .comma ∨ tok = .eos) := by
  cases ts with
  | nil =>
    obtain ⟨s', p, hrun, hpast, hkeeps⟩ := h.nil hsize
    exact ⟨s', .eos, p, hrun, hkeeps, .inr rfl, hpast⟩
  | cons t ts =>
    obtain ⟨s', p, hrun, hscans, hkeeps, -⟩ := h.cons hsize
    refine ⟨s', t.type, p, hrun, hkeeps, ?_⟩
    cases t with
    | comma => exact ⟨.inl rfl, hscans⟩
    | equal => exact nofun
    | lbrack => exact nofun
    | rbrack => exact nofun
    | ident k => exact nofun
    | string k => exact nofun

private theorem forall₂_keeps {l : List Nat} {texts : List Text} (h : List.Forall₂ s.Shows l texts) (hk : Keeps s s') :
    List.Forall₂ s'.Shows l texts := h.imp fun p k => hk p k

private theorem type_value : (t.type = .ident ∨ t.type = .string) ↔ ∃ k, t.value = some k := by
  cases t with
  | ident k => exact iff_of_true (.inl rfl) ⟨k, rfl⟩
  | string k => exact iff_of_true (.inr rfl) ⟨k, rfl⟩
  | comma => exact iff_of_false nofun nofun
  | equal => exact iff_of_false nofun nofun
  | lbrack => exact iff_of_false nofun nofun
  | rbrack => exact iff_of_false nofun nofun

private theorem valueLoop_eq {value : List Nat} {texts : List Text} (h : Scans size s ts) (hsize : size < tokBufSize)
    (hn : ts.length < n) (hp : ∀ k, t.value = some k → s.Shows p k) (hvalue : List.Forall₂ s.Shows value texts) :
    ∃ s' vals, valueLoop n s t.type p value = some (s', vals) ∧ Keeps s s' ∧
      match tokenValues (t :: ts) with
      | some q => Stands size s' q.2 ∧ List.Forall₂ s'.Shows vals (texts ++ q.1)
      | none => s'.nexttok = none ∧ vals = [] := by
  induction n generalizing s t ts p value texts with
  | zero => cases hn
  | succ n ih =>
    unfold valueLoop
    by_cases hval : t.type = .ident ∨ t.type = .string
    · rw [if_pos hval]
      obtain ⟨k, hk⟩ := type_value.1 hval
      have hpk := hp k hk
      cases ts with
      | nil =>
        obtain ⟨s', q, hrun, -, hkeeps⟩ := h.nil hsize
        rw [hrun]
        refine ⟨s'.stop, [], rfl, hkeeps.trans (keeps_stop s'), ?_⟩
        unfold tokenValues
        exact ⟨rfl, rfl⟩
      | cons d ts =>
        obtain ⟨s', q, hrun, hscans, hkeeps, -⟩ := h.cons hsize
        rw [hrun]
        have hall : List.Forall₂ s'.Shows (value ++ [p]) (texts ++ [k]) :=
          List.rel_append (forall₂_keeps hvalue hkeeps) (.cons (hkeeps p k hpk) .nil)
        have hstop (hd : d ≠ .comma) (hd' : d ≠ .rbrack) (hdt : d.type ≠ .comma ∧ d.type ≠ .rbrack) :
            ∃ s'' vals, (some (s', d.type, q)).bind (fun r => if r.2.1 = .comma then r.1.tokGettok.bind fun q =>
                valueLoop n q.1 q.2.1 q.2.2 (value ++ [p])
              else if r.2.1 = .rbrack then r.1.tokGettok.bind fun q =>
                if q.2.1 = .comma ∨ q.2.1 = .eos then some (q.1, value ++ [p]) else some (q.1.stop, [])
              else some (r.1.stop, [])) = some (s'', vals) ∧ Keeps s s'' ∧
              match tokenValues (t :: d :: ts) with
              | some q => Stands size s'' q.2 ∧ List.Forall₂ s''.Shows vals (texts ++ q.1)
              | none => s''.nexttok = none ∧ vals = [] := by
          refine ⟨s'.stop, [], ?_, hkeeps.trans (keeps_stop s'), ?_⟩
          · rw [Option.bind_some, if_neg hdt.1, if_neg hdt.2]
          · have hnone : tokenValues (t :: d :: ts) = none := by
              unfold tokenValues
              split
              · rename_i heq
                exact absurd (List.cons.inj (List.cons.inj heq).2).1 hd
              · rename_i heq
                exact absurd (List.cons.inj (List.cons.inj heq).2).1 hd'
              · rfl
            rw [hnone]
            exact ⟨rfl, rfl⟩
        cases d with
        | comma =>
          change ∃ s'' vals, s'.tokGettok.bind (fun q => valueLoop n q.1 q.2.1 q.2.2 (value ++ [p])) = _ ∧ _
          cases ts with
          | nil =>
            obtain ⟨s'', q', hrun', -, hkeeps'⟩ := hscans.nil hsize
            obtain ⟨n, rfl⟩ := Nat.exists_eq_add_one.2 (Nat.zero_lt_of_lt (Nat.lt_of_succ_lt_succ hn))
            rw [hrun']
            refine ⟨s''.stop, [], rfl, (hkeeps.trans hkeeps').trans (keeps_stop s''), ?_⟩
            have hnone : tokenValues [t, .comma] = none := by
              change t.value.bind (fun v => (tokenValues []).map fun r => (v :: r.1, r.2)) = none
              rw [hk]
              rfl
            rw [hnone]
            exact ⟨rfl, rfl⟩
          | cons t' ts =>
            obtain ⟨s'', q', hrun', hscans', hkeeps', hshows'⟩ := hscans.cons hsize
            rw [hrun', Option.bind_some]
            have hlen : ts.length < n := by
              simp only [List.length_cons] at hn
              omega
            obtain ⟨s₃, vals, hloop, hkeeps₃, hres⟩ := ih hscans' hlen hshows' (forall₂_keeps hall hkeeps')
            refine ⟨s₃, vals, hloop, (hkeeps.trans hkeeps').trans hkeeps₃, ?_⟩
            have hmore : tokenValues (t :: .comma :: t' :: ts) = (tokenValues (t' :: ts)).map fun r => (k :: r.1, r.2) := by
              change t.value.bind (fun v => (tokenValues (t' :: ts)).map fun r => (v :: r.1, r.2)) = _
              rw [hk]
              rfl
            rw [hmore]
            cases hq : tokenValues (t' :: ts) with
            | none =>
              rw [hq] at hres
              exact hres
            | some q =>
              rw [hq] at hres
              refine ⟨hres.1, ?_⟩
              have hvals := hres.2
              rw [List.append_assoc] at hvals
              exact hvals
        | rbrack =>
          obtain ⟨s'', tok, q', hrun', hkeeps', hafter⟩ := hscans.after hsize
          change ∃ s'' vals, s'.tokGettok.bind (fun q => if q.2.1 = .comma ∨ q.2.1 = .eos then
            some (q.1, value ++ [p]) else some (q.1.stop, [])) = _ ∧ _
          rw [hrun', Option.bind_some]
          have hone : tokenValues (t :: .rbrack :: ts) = (afterValues ts).map fun r => ([k], r) := by
            change t.value.bind (fun v => (afterValues ts).map fun r => ([v], r)) = _
            rw [hk]
            rfl
          rw [hone]
          cases hq : afterValues ts with
          | none =>
            rw [hq] at hafter
            rw [if_neg hafter]
            exact ⟨s''.stop, [], rfl, (hkeeps.trans hkeeps').trans (keeps_stop s''), rfl, rfl⟩
          | some rest =>
            rw [hq] at hafter
            rw [if_pos hafter.1]
            exact ⟨s'', value ++ [p], rfl, hkeeps.trans hkeeps', hafter.2, forall₂_keeps hall hkeeps'⟩
        | equal => exact hstop nofun nofun ⟨nofun, nofun⟩
        | lbrack => exact hstop nofun nofun ⟨nofun, nofun⟩
        | ident k => exact hstop nofun nofun ⟨nofun, nofun⟩
        | string k => exact hstop nofun nofun ⟨nofun, nofun⟩
    · rw [if_neg hval]
      refine ⟨s.stop, [], rfl, keeps_stop s, ?_⟩
      have hno : t.value = none := by
        cases hv : t.value with
        | none => rfl
        | some k => exact absurd (type_value.2 ⟨k, hv⟩) hval
      have hnone : tokenValues (t :: ts) = none := by
        unfold tokenValues
        split
        · rename_i heq
          rw [← (List.cons.inj heq).1, hno]
          rfl
        · rename_i heq
          rw [← (List.cons.inj heq).1, hno]
          rfl
        · rfl
      rw [hnone]
      exact ⟨rfl, rfl⟩

private theorem type_lbrack : t.type = .lbrack ↔ t = .lbrack := by
  cases t with
  | lbrack => exact iff_of_true rfl rfl
  | comma => exact iff_of_false nofun nofun
  | equal => exact iff_of_false nofun nofun
  | rbrack => exact iff_of_false nofun nofun
  | ident k => exact iff_of_false nofun nofun
  | string k => exact iff_of_false nofun nofun

private theorem tokValue_eq (h : Scans size s ts) (hsize : size < tokBufSize) : ∃ s' vals,
    s.tokValue = some (s', vals) ∧ Keeps s s' ∧ Stands size s' (tokenValue ts).2 ∧
      List.Forall₂ s'.Shows vals (tokenValue ts).1 := by
  cases ts with
  | nil =>
    obtain ⟨s₁, p, hrun, -, hkeeps⟩ := h.nil hsize
    refine ⟨s₁.stop, [], ?_, hkeeps.trans (keeps_stop s₁), rfl, .nil⟩
    unfold tokValue
    rw [hrun]
    rfl
  | cons t ts =>
    obtain ⟨s₁, p, hrun, hscans, hkeeps, hshows⟩ := h.cons hsize
    unfold tokValue tokenValue
    rw [hrun]
    change ∃ s' vals, (if t.type = .lbrack then s₁.tokGettok.bind fun q => valueLoop rounds q.1 q.2.1 q.2.2 []
      else if t.type = .ident ∨ t.type = .string then s₁.tokGettok.bind fun q =>
        if q.2.1 ≠ .comma ∧ q.2.1 ≠ .eos then some (q.1.stop, []) else some (q.1, [p])
      else some (s₁.stop, [])) = _ ∧ _
    dsimp only
    by_cases hl : t = .lbrack
    · rw [if_pos (type_lbrack.2 hl), if_pos hl]
      cases ts with
      | nil =>
        obtain ⟨s₂, q, hrun', -, hkeeps'⟩ := hscans.nil hsize
        rw [hrun']
        exact ⟨s₂.stop, [], rfl, (hkeeps.trans hkeeps').trans (keeps_stop s₂), rfl, .nil⟩
      | cons t' ts =>
        obtain ⟨s₂, q, hrun', hscans', hkeeps', hshows'⟩ := hscans.cons hsize
        rw [hrun', Option.bind_some]
        have hlen : ts.length < rounds := by
          have hle := hscans'.length_le
          unfold rounds
          unfold tokBufSize at hsize
          omega
        obtain ⟨s₃, vals, hloop, hkeeps₃, hres⟩ := valueLoop_eq hscans' hsize hlen hshows' .nil
        refine ⟨s₃, vals, hloop, (hkeeps.trans hkeeps').trans hkeeps₃, ?_⟩
        cases hq : tokenValues (t' :: ts) with
        | none =>
          rw [hq] at hres
          obtain ⟨hstop, rfl⟩ := hres
          exact ⟨hstop, .nil⟩
        | some q =>
          rw [hq] at hres
          exact hres
    · rw [if_neg (mt type_lbrack.1 hl), if_neg hl]
      cases hv : t.value with
      | none =>
        rw [if_neg fun hval => (by
          obtain ⟨k, hk⟩ := type_value.1 hval
          exact absurd (hv.symm.trans hk) nofun)]
        exact ⟨s₁.stop, [], rfl, hkeeps.trans (keeps_stop s₁), rfl, .nil⟩
      | some k =>
        rw [if_pos (type_value.2 ⟨k, hv⟩)]
        obtain ⟨s₂, tok, q, hrun', hkeeps', hafter⟩ := hscans.after hsize
        rw [hrun', Option.bind_some, Option.bind_some]
        dsimp only
        have hcond : (tok ≠ .comma ∧ tok ≠ .eos) ↔ ¬(tok = .comma ∨ tok = .eos) := not_or.symm
        cases hq : afterValues ts with
        | none =>
          rw [hq] at hafter
          rw [if_pos (hcond.2 hafter)]
          exact ⟨s₂.stop, [], rfl, (hkeeps.trans hkeeps').trans (keeps_stop s₂), rfl, .nil⟩
        | some rest =>
          rw [hq] at hafter
          rw [if_neg fun hc => hcond.1 hc hafter.1]
          exact ⟨s₂, [p], rfl, hkeeps.trans hkeeps', hafter.2, .cons (hkeeps' p k (hshows k hv)) .nil⟩

/-! ### Items -/

/-- `tok_next` does what is told by the tokens, and the texts stand in the buffer when it returns. -/
private theorem tokNext_eq (h : Scans size s ts) (hsize : size < tokBufSize) : ∃ s' r, s.tokNext = some (s', r) ∧
    match tokenItem ts with
    | none => r = none
    | some (i, rest) => ∃ keyw vals, r = some (keyw, vals) ∧ s'.Shows keyw i.1 ∧ List.Forall₂ s'.Shows vals i.2 ∧
        Stands size s' rest := by
  have hnext : s.nexttok ≠ none := by
    obtain ⟨n, r, hreads, -⟩ := h
    rw [hreads.nexttok]
    exact nofun
  unfold tokNext
  rw [if_neg hnext]
  cases ts with
  | nil =>
    obtain ⟨s₁, p, hrun, -, -⟩ := h.nil hsize
    rw [hrun]
    exact ⟨s₁.stop, none, rfl, rfl⟩
  | cons t ts =>
    obtain ⟨s₁, p, hrun, hscans, hkeeps, hshows⟩ := h.cons hsize
    rw [hrun]
    change ∃ s' r, (if t.type ≠ .ident then some (s₁.stop, none) else s₁.tokGettok.bind fun q =>
      if q.2.1 = .comma then some (q.1, some (p, []))
      else if q.2.1 = .equal then q.1.tokValue.map fun v => (v.1, some (p, v.2))
      else if q.2.1 = .eos then some (q.1.stop, some (p, []))
      else some (q.1.stop, none)) = _ ∧ _
    cases t with
    | comma => exact ⟨s₁.stop, none, rfl, rfl⟩
    | equal => exact ⟨s₁.stop, none, rfl, rfl⟩
    | lbrack => exact ⟨s₁.stop, none, rfl, rfl⟩
    | rbrack => exact ⟨s₁.stop, none, rfl, rfl⟩
    | string k => exact ⟨s₁.stop, none, rfl, rfl⟩
    | ident k =>
      rw [if_neg (show ¬((Token.ident k).type ≠ TokType.ident) from fun hne => hne rfl)]
      have hk := hshows k rfl
      cases ts with
      | nil =>
        obtain ⟨s₂, q, hrun', -, hkeeps'⟩ := hscans.nil hsize
        rw [hrun']
        exact ⟨s₂.stop, some (p, []), rfl, p, [], rfl, (hkeeps' p k hk).stop, .nil, rfl⟩
      | cons d ts =>
        obtain ⟨s₂, q, hrun', hscans', hkeeps', -⟩ := hscans.cons hsize
        rw [hrun', Option.bind_some]
        have hk' := hkeeps' p k hk
        cases d with
        | comma => exact ⟨s₂, some (p, []), rfl, p, [], rfl, hk', .nil, hscans'⟩
        | equal =>
          obtain ⟨s₃, vals, hvalue, hkeeps₃, hstands, hvals⟩ := tokValue_eq hscans' hsize
          change ∃ s' r, s₂.tokValue.map (fun v => (v.1, some (p, v.2))) = _ ∧ _
          rw [hvalue]
          exact ⟨s₃, some (p, vals), rfl, p, vals, rfl, hkeeps₃ p k hk', hvals, hstands⟩
        | lbrack => exact ⟨s₂.stop, none, rfl, rfl⟩
        | rbrack => exact ⟨s₂.stop, none, rfl, rfl⟩
        | ident l => exact ⟨s₂.stop, none, rfl, rfl⟩
        | string l => exact ⟨s₂.stop, none, rfl, rfl⟩

private theorem Shows.text (h : s.Shows p k) : s.textAt rounds p = some k := by
  refine textAt_eq h.chars h.inside ?_
  have hin := h.inside
  unfold tokBufSize at hin
  unfold rounds
  omega

private theorem seen_eq {vals : List Nat} {item : Item} (hk : s.Shows p item.1) (hv : List.Forall₂ s.Shows vals item.2) :
    s.seen (p, vals) = some item := by
  have hvals : ∀ {l : List Nat} {texts : List Text}, List.Forall₂ s.Shows l texts →
      l.mapM (s.textAt rounds) = some texts := by
    intro l texts h
    induction h with
    | nil => rfl
    | cons hp _ ih => rw [List.mapM_cons, hp.text, ih]; rfl
  unfold seen
  rw [hk.text, Option.bind_some, hvals hv]
  rfl

private theorem calls_stopped (h : s.nexttok = none) : s.calls (n + 1) = some [] := by
  unfold calls tokNext
  rw [if_pos h]
  rfl

private theorem calls_past (h : Past size s) :
    s.calls (n + 1) = if size + 1 < tokBufSize then some [] else none := by
  have hnext : s.nexttok ≠ none := by
    rw [h.nexttok]
    exact nofun
  have hgettok := gettok_past h
  unfold calls tokNext
  rw [if_neg hnext]
  split
  · rename_i hlt
    rw [if_pos hlt] at hgettok
    obtain ⟨s', p, hrun⟩ := hgettok
    rw [hrun]
    rfl
  · rename_i hge
    rw [if_neg hge] at hgettok
    rw [hgettok]
    rfl

/-- Repeated calls return what is told by the tokens. -/
private theorem calls_eq (h : Scans size s ts) (hsize : size < tokBufSize) (hn : ts.length ≤ n) :
    s.calls (n + 2) = if (tokenItems (n + 1) ts).2 = true ∧ ¬size + 1 < tokBufSize then none
      else some (tokenItems (n + 1) ts).1 := by
  induction n generalizing s ts with
  | zero =>
    obtain rfl := List.length_eq_zero_iff.1 (Nat.le_zero.1 hn)
    obtain ⟨s', r, hrun, hr⟩ := tokNext_eq h hsize
    obtain rfl : r = none := hr
    unfold calls
    rw [hrun]
    rfl
  | succ n ih =>
    obtain ⟨s', r, hrun, hr⟩ := tokNext_eq h hsize
    unfold calls tokenItems
    rw [hrun, Option.bind_some]
    cases hitem : tokenItem ts with
    | none =>
      rw [hitem] at hr
      obtain rfl : r = none := hr
      rfl
    | some q =>
      obtain ⟨i, rest⟩ := q
      rw [hitem] at hr
      obtain ⟨keyw, vals, rfl, hkeyw, hvals, hstands⟩ := hr
      change ((s'.seen (keyw, vals)).bind fun i => (s'.calls (n + 2)).map (i :: ·)) = _
      rw [seen_eq hkeyw hvals, Option.bind_some]
      cases rest with
      | stopped =>
        rw [calls_stopped hstands]
        rfl
      | past =>
        rw [calls_past hstands]
        dsimp only
        by_cases hlt : size + 1 < tokBufSize
        · rw [if_pos hlt, if_neg fun hc => hc.2 hlt]
          rfl
        · rw [if_neg hlt, if_pos ⟨rfl, hlt⟩]
          rfl
      | more ts' =>
        have hlt := tokenItem_length hitem
        rw [ih hstands (by omega)]
        dsimp only
        split
        · rfl
        · rfl

end

end Tok

/-! ### Strings -/

section
variable {s : Text} {es : List Entry}

/-- The part of a string that is copied to the buffer. -/
def copied (s : Text) : Text := s.take (tokBufSize - 1)

private theorem holds_getD {b : Nat → Nat} {n : Nat} (h : ∀ c ∈ s, c ≠ 0)
    (hb : ∀ i, n + i < tokBufSize → b (n + i) = s.getD i 0) (hlen : n + s.length < tokBufSize) : Holds b n s := by
  induction s generalizing n with
  | nil => exact hb 0 hlen
  | cons c s ih =>
    rw [List.length_cons] at hlen
    refine ⟨hb 0 (by omega), h c List.mem_cons_self, ih (fun d hd => h d (List.mem_cons_of_mem _ hd)) (fun i hi => ?_)
      (by omega)⟩
    have hnext := hb (i + 1) (by omega)
    rw [Nat.add_assoc, Nat.add_comm 1 i, hnext]
    rfl

private theorem copied_length : (copied s).length < tokBufSize := by
  unfold copied
  rw [List.length_take]
  exact Nat.lt_of_le_of_lt (Nat.min_le_left _ _) (by decide)

/-- The calls return what is told by the tokens of the part that is copied. -/
private theorem answers_eq {ts : List Token} (hs : ∀ c ∈ s, c ≠ 0) (hl : Lexes (copied s) ts) :
    answers s = if (tokenItems 81 ts).2 = true ∧ ¬(copied s).length + 1 < tokBufSize then none
      else some (tokenItems 81 ts).1 := by
  have hsize := copied_length (s := s)
  have hbuf : ∀ i, i < tokBufSize → (tokInit s).tokbuf i = (copied s).getD i 0 := by
    intro i _
    unfold tokInit copied
    dsimp only
    split
    · rename_i hlt
      rw [List.getD_eq_getElem?_getD, List.getD_eq_getElem?_getD, List.getElem?_take_of_lt hlt]
    · rename_i hge
      rw [List.getD_eq_default _ _ (by rw [List.length_take]; omega)]
  have hzeros : ∀ j, (copied s).length ≤ j → j < tokBufSize → (tokInit s).tokbuf j = 0 := by
    intro j hj hlt
    rw [hbuf j hlt]
    exact List.getD_eq_default _ _ hj
  have hholds : Holds (tokInit s).tokbuf 0 (copied s) := by
    refine holds_getD (fun c hc => hs c (List.mem_of_mem_take hc)) (fun i hi => ?_) (by omega)
    rw [Nat.zero_add] at hi ⊢
    exact hbuf i hi
  have hreads : Tok.Reads (copied s).length (tokInit s) 0 (copied s) :=
    ⟨rfl, ⟨hholds, Nat.zero_add _, hzeros⟩, fun hne => absurd rfl hne⟩
  refine Tok.calls_eq ⟨0, copied s, hreads, hl⟩ hsize ?_
  have hle := hl.length_le
  unfold tokBufSize at hsize
  omega

private theorem copied_self (h : s.length < tokBufSize) : copied s = s :=
  List.take_of_length_le (by unfold tokBufSize at h ⊢; omega)

private theorem copied_full : ¬(copied s).length + 1 < tokBufSize ↔ tokBufSize ≤ s.length + 1 := by
  unfold copied tokBufSize
  rw [List.length_take]
  omega

private theorem list_length (hl : Lexes (copied s) (listTokens es)) : (listTokens es).length < 81 := by
  have hle := hl.length_le
  have hlen := copied_length (s := s)
  unfold tokBufSize at hlen
  omega

/-- The entries of a list are returned one by one exactly when no entry with empty brackets stands in front of another one,
and the list is not one of 79 characters that ends with a value.  The calls come to their end in the buffer for every string
but those whose first 79 characters are the tokens of such a list. -/
theorem answers_iff (hs : ∀ c ∈ s, c ≠ 0) :
    (∀ es, Derives es s → s.length < tokBufSize → (answers s = some (es.map Entry.item) ↔
      hidden es = false ∧ (s.length + 1 = tokBufSize → endsValued es = false))) ∧
    (answers s ≠ none ↔ ¬(tokBufSize ≤ s.length + 1 ∧
      ∃ es, es ≠ [] ∧ Lexes (copied s) (listTokens es) ∧ hidden es = false ∧ endsValued es = true)) := by
  constructor
  · intro es ⟨hne, hspelled⟩ hlen
    have hl : Lexes (copied s) (listTokens es) := by
      rw [copied_self hlen]
      exact hspelled.lexes
    have hitems := tokenItems_list hne (list_length hl)
    rw [answers_eq hs hl, copied_self hlen]
    cases hh : hidden es with
    | true =>
      rw [if_pos hh] at hitems
      rw [hitems.2, if_neg fun hc => absurd hc.1 nofun]
      refine iff_of_false (fun heq => ?_) fun hc => absurd hc.1 nofun
      have hlength := congrArg List.length (Option.some.inj heq)
      rw [List.length_map] at hlength
      omega
    | false =>
      rw [if_neg (by rw [hh]; exact nofun)] at hitems
      rw [hitems]
      dsimp only
      by_cases hend : endsValued es = true ∧ ¬s.length + 1 < tokBufSize
      · rw [if_pos hend]
        refine iff_of_false nofun fun hc => ?_
        exact absurd (hend.1.symm.trans (hc.2 (by omega))) nofun
      · rw [if_neg hend]
        refine iff_of_true rfl ⟨rfl, fun heq => Bool.eq_false_iff.2 fun hv => hend ⟨hv, by omega⟩⟩
  · obtain ⟨ts, hl⟩ := lexes_exists (copied s)
    rw [answers_eq hs hl, ← copied_full]
    split
    · rename_i hpast
      refine iff_of_false (fun h => h rfl) fun hno => hno ⟨hpast.2, ?_⟩
      obtain ⟨es, hne, rfl, hh, hv⟩ := tokenItems_past hpast.1
      exact ⟨es, hne, hl, hh, hv⟩
    · rename_i hno
      refine iff_of_true nofun ?_
      rintro ⟨hfull, es, hne, hl', hh, hv⟩
      obtain rfl := hl.unique hl'
      have hitems := tokenItems_list hne (list_length hl)
      rw [if_neg (by rw [hh]; exact nofun)] at hitems
      exact hno ⟨by rw [hitems]; exact hv, hfull⟩

end

namespace strings

/-- The string `a=(),b`. -/
def empty : Text := [97, 61, 40, 41, 44, 98]

/-- The string of 79 characters with `a=` and a value. -/
def long : Text := 97 :: 61 :: List.replicate 77 98

theorem answers_iff_empty :
    (∀ es, Derives es empty → empty.length < tokBufSize → (answers empty = some (es.map Entry.item) ↔
      hidden es = false ∧ (empty.length + 1 = tokBufSize → endsValued es = false))) ∧
    (answers empty ≠ none ↔ ¬(tokBufSize ≤ empty.length + 1 ∧
      ∃ es, es ≠ [] ∧ Lexes (copied empty) (listTokens es) ∧ hidden es = false ∧ endsValued es = true)) :=
  answers_iff (by decide)

private theorem spelled_cons {t : Token} {ts : List Token} {r : Text} (ht : t.Writable) (h : Spelled ts r)
    (hsep : ∀ k, t = .ident k → ∀ c ∈ r.head?, tokIssep c = true) : Spelled (t :: ts) (t.spell ++ r) :=
  .cons (List.forall_mem_nil _) ht h hsep

private theorem spelled_nil : Spelled [] [] := .nil (List.forall_mem_nil _)

private theorem empty_derives : Derives [.values [97] [], .ident [98]] empty := by
  refine ⟨nofun, ?_⟩
  have hb : Spelled [.ident [98]] [98] := spelled_cons ⟨nofun, by decide⟩ spelled_nil nofun
  have hcomma : Spelled [.comma, .ident [98]] [44, 98] := spelled_cons trivial hb nofun
  have hr : Spelled [.rbrack, .comma, .ident [98]] [41, 44, 98] := spelled_cons trivial hcomma nofun
  have hl : Spelled [.lbrack, .rbrack, .comma, .ident [98]] [40, 41, 44, 98] := spelled_cons trivial hr nofun
  have he : Spelled [.equal, .lbrack, .rbrack, .comma, .ident [98]] [61, 40, 41, 44, 98] := spelled_cons trivial hl nofun
  exact spelled_cons ⟨nofun, by decide⟩ he fun _ _ c hc => by
    obtain rfl := Option.some.inj hc
    rfl

private theorem long_derives : Derives [.value [97] (.ident (List.replicate 77 98))] long := by
  refine ⟨nofun, ?_⟩
  have hb : Spelled [.ident (List.replicate 77 98)] (List.replicate 77 98 ++ []) :=
    spelled_cons ⟨nofun, by decide⟩ spelled_nil nofun
  rw [List.append_nil] at hb
  have he : Spelled [.equal, .ident (List.replicate 77 98)] (61 :: List.replicate 77 98) := spelled_cons trivial hb nofun
  exact spelled_cons ⟨nofun, by decide⟩ he fun _ _ c hc => by
    obtain rfl := Option.some.inj hc
    rfl

/-- Of `a=(),b` the entry `b` is not returned; behind a value at the end of 79 characters the buffer is left. -/
theorem entries_lost :
    (Derives [.values [97] [], .ident [98]] empty ∧ empty.length < tokBufSize ∧ answers empty = some [([97], [])]) ∧
    (Derives [.value [97] (.ident (List.replicate 77 98))] long ∧ long.length < tokBufSize ∧ answers long = none) := by
  refine ⟨⟨empty_derives, by decide, ?_⟩, long_derives, by decide, ?_⟩
  · rw [answers_eq (by decide) (by rw [copied_self (by decide)]; exact empty_derives.2.lexes)]
    rfl
  · rw [answers_eq (by decide) (by rw [copied_self (by decide)]; exact long_derives.2.lexes)]
    rfl

end strings

end Citrine.Gpf
