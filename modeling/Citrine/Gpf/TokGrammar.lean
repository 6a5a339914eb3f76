import Mathlib.Data.List.TakeWhile

/-!
# The format of a configuration string

The grammar at the head of `tok.c`: a list of entries (`Entry`) is written as tokens, and the tokens as characters with white
space in between (`Spelled`).  The tokens of any other string are told by `lex`, and what the calls of `tok_next` come to on
a list of tokens by `tokenItems`.
-/

namespace Citrine.Gpf

/-- The characters of a string, which are not 0. -/
abbrev Text := List Nat

/-- `isspace`: the blank and the control characters from the tabulator on. -/
def isspace (c : Nat) : Bool := decide (9 ≤ c ∧ c ≤ 13 ∨ c = 32)

/-- The characters `(`, `<` and `[`. -/
def isLbrack (c : Nat) : Bool := decide (c = 40 ∨ c = 60 ∨ c = 91)

/-- The characters `)`, `>` and `]`. -/
def isRbrack (c : Nat) : Bool := decide (c = 41 ∨ c = 62 ∨ c = 93)

/-- The character of a quotation. -/
def quote : Nat := 34

/-- `tok_issep` -/
def tokIssep (c : Nat) : Bool :=
  decide (c = 0 ∨ c = 10 ∨ c = 44 ∨ c = 61) || isLbrack c || isRbrack c || decide (c = quote) || isspace c

/-! ### Tokens -/

inductive Token where
  | comma | equal | lbrack | rbrack
  | ident (t : Text)
  | string (t : Text)
  deriving DecidableEq, Repr

/-- The first token of a string and what is behind it, `none` when there is only white space. -/
def lex (r : Text) : Option (Token × Text) :=
  match r.dropWhile isspace with
  | [] => none
  | c :: r =>
    if c = 44 then some (.comma, r)
    else if c = 61 then some (.equal, r)
    else if isLbrack c then some (.lbrack, r)
    else if isRbrack c then some (.rbrack, r)
    else if c = quote then some (.string (r.takeWhile (· ≠ quote)), (r.dropWhile (· ≠ quote)).tail)
    else some (.ident (c :: r.takeWhile (!tokIssep ·)), r.dropWhile (!tokIssep ·))

/-- The tokens of a string. -/
inductive Lexes : Text → List Token → Prop where
  | nil {r : Text} : lex r = none → Lexes r []
  | cons {r r' : Text} {t : Token} {ts : List Token} : lex r = some (t, r') → Lexes r' ts → Lexes r (t :: ts)

/-! ### Entries -/

inductive Value where
  | ident (t : Text)
  | string (t : Text)
  deriving DecidableEq, Repr

def Value.text : Value → Text
  | .ident t => t
  | .string t => t

def Value.token : Value → Token
  | .ident t => .ident t
  | .string t => .string t

/-- `Token` in the grammar: an identifier, with a value, or with values in brackets. -/
inductive Entry where
  | ident (k : Text)
  | value (k : Text) (v : Value)
  | values (k : Text) (vs : List Value)
  deriving DecidableEq, Repr

/-- A keyword with its values. -/
abbrev Item := Text × List Text

namespace Entry

/-- What is to be returned of the entry. -/
def item : Entry → Item
  | ident k => (k, [])
  | value k v => (k, [v.text])
  | values k vs => (k, vs.map Value.text)

/-- The values in brackets. -/
def valueTokens : List Value → List Token
  | [] => []
  | [v] => [v.token]
  | v :: vs => v.token :: .comma :: valueTokens vs

def tokens : Entry → List Token
  | ident k => [.ident k]
  | value k v => [.ident k, .equal, v.token]
  | values k vs => .ident k :: .equal :: .lbrack :: (valueTokens vs ++ [.rbrack])

/-- There are brackets, and no value in them. -/
def isEmpty : Entry → Bool
  | values _ [] => true
  | _ => false

/-- The entry has a value. -/
def valued : Entry → Bool
  | ident _ => false
  | value _ _ => true
  | values _ vs => !vs.isEmpty

end Entry

/-- The tokens of `List` in the grammar. -/
def listTokens : List Entry → List Token
  | [] => []
  | [e] => e.tokens
  | e :: es => e.tokens ++ .comma :: listTokens es

namespace Token

/-- How a token is written. -/
def spell : Token → Text
  | comma => [44]
  | equal => [61]
  | lbrack => [40]
  | rbrack => [41]
  | ident t => t
  | string t => quote :: (t ++ [quote])

/-- What may be written. -/
def Writable : Token → Prop
  | ident t => t ≠ [] ∧ ∀ c ∈ t, tokIssep c = false
  | string t => quote ∉ t
  | _ => True

end Token

/-- The tokens are written with white space in between; an identifier ends where a character stands that can be in none. -/
inductive Spelled : List Token → Text → Prop where
  | nil {ws : Text} : (∀ c ∈ ws, isspace c = true) → Spelled [] ws
  | cons {ws r : Text} {t : Token} {ts : List Token} : (∀ c ∈ ws, isspace c = true) → t.Writable → Spelled ts r →
      (∀ k, t = .ident k → ∀ c ∈ r.head?, tokIssep c = true) → Spelled (t :: ts) (ws ++ (t.spell ++ r))

/-- The string is a list of entries. -/
def Derives (es : List Entry) (s : Text) : Prop := es ≠ [] ∧ Spelled (listTokens es) s

/-- An entry with no value in its brackets stands in front of another one. -/
def hidden (es : List Entry) : Bool := es.dropLast.any Entry.isEmpty

/-- The last entry has a value. -/
def endsValued (es : List Entry) : Bool := es.getLast?.any Entry.valued

/-! ### Calls on tokens -/

/-- Where a call leaves the scanner: it is stopped, behind the end of the string, or in front of more tokens. -/
inductive Rest where
  | stopped
  | past
  | more (ts : List Token)
  deriving DecidableEq, Repr

def Token.value : Token → Option Text
  | ident t => some t
  | string t => some t
  | _ => none

/-- What may stand behind the values. -/
def afterValues : List Token → Option Rest
  | [] => some .past
  | .comma :: ts => some (.more ts)
  | _ => none

/-- The loop of `tok_value`, on the tokens behind the bracket. -/
def tokenValues : List Token → Option (List Text × Rest)
  | t :: .comma :: ts => t.value.bind fun v => (tokenValues ts).map fun r => (v :: r.1, r.2)
  | t :: .rbrack :: ts => t.value.bind fun v => (afterValues ts).map fun r => ([v], r)
  | _ => none

/-- `tok_value` on tokens -/
def tokenValue : List Token → List Text × Rest
  | [] => ([], .stopped)
  | t :: ts =>
    if t = .lbrack then (tokenValues ts).getD ([], .stopped)
    else (t.value.bind fun v => (afterValues ts).map fun r => ([v], r)).getD ([], .stopped)

/-- `tok_next` on tokens, `none` for `TOK_EOCS` -/
def tokenItem : List Token → Option (Item × Rest)
  | [.ident k] => some ((k, []), .stopped)
  | .ident k :: .comma :: ts => some ((k, []), .more ts)
  | .ident k :: .equal :: ts => some ((k, (tokenValue ts).1), (tokenValue ts).2)
  | _ => none

/-- The items of at most `n` calls, and whether the last one leaves the scanner behind the end of the string. -/
def tokenItems : Nat → List Token → List Item × Bool
  | 0, _ => ([], false)
  | n + 1, ts =>
    match tokenItem ts with
    | none => ([], false)
    | some (i, .stopped) => ([i], false)
    | some (i, .past) => ([i], true)
    | some (i, .more ts) => (i :: (tokenItems n ts).1, (tokenItems n ts).2)

section
variable {r r' s : Text} {t : Token} {ts ts' : List Token} {e : Entry} {es : List Entry} {i : Item} {n : Nat}
  {v : Value} {vs : List Value} {texts : List Text} {rest : Rest}

/-! ### Strings and tokens -/

private theorem length_dropWhile_le' (p : Nat → Bool) : (r.dropWhile p).length ≤ r.length :=
  (List.dropWhile_suffix p).length_le

theorem lex_length (h : lex r = some (t, r')) : r'.length < r.length := by
  unfold lex at h
  have hle : (r.dropWhile isspace).length ≤ r.length := length_dropWhile_le' _
  cases hd : r.dropWhile isspace with
  | nil =>
    rw [hd] at h
    cases h
  | cons c r₀ =>
    rw [hd] at h hle
    rw [List.length_cons] at hle
    dsimp only at h
    have hlt : r'.length ≤ r₀.length := by
      repeat' split at h
      all_goals
        obtain ⟨-, rfl⟩ := Prod.mk.inj (Option.some.inj h)
      · exact Nat.le_refl _
      · exact Nat.le_refl _
      · exact Nat.le_refl _
      · exact Nat.le_refl _
      · rw [List.length_tail]
        exact (Nat.sub_le _ _).trans (length_dropWhile_le' _)
      · exact length_dropWhile_le' _
    omega

/-- Every string has tokens. -/
theorem lexes_exists (r : Text) : ∃ ts, Lexes r ts := by
  obtain ⟨n, hn⟩ : ∃ n, r.length < n := ⟨_, Nat.lt_succ_self _⟩
  induction n generalizing r with
  | zero => cases hn
  | succ n ih =>
    cases h : lex r with
    | none => exact ⟨[], .nil h⟩
    | some q =>
      obtain ⟨ts, hts⟩ := ih q.2 (Nat.lt_of_lt_of_le (lex_length h) (Nat.le_of_lt_succ hn))
      exact ⟨q.1 :: ts, .cons h hts⟩

theorem Lexes.unique (h : Lexes r ts) (h' : Lexes r ts') : ts = ts' := by
  induction h generalizing ts' with
  | nil hn =>
    cases h' with
    | nil => rfl
    | cons hc => exact absurd (hn.symm.trans hc) nofun
  | cons hc _ ih =>
    cases h' with
    | nil hn => exact absurd (hn.symm.trans hc) nofun
    | cons hc' h' =>
      obtain ⟨rfl, rfl⟩ := Prod.mk.inj (Option.some.inj (hc.symm.trans hc'))
      rw [ih h']

theorem Lexes.length_le (h : Lexes r ts) : ts.length ≤ r.length := by
  induction h with
  | nil => exact Nat.zero_le _
  | cons hc _ ih =>
    have hlt := lex_length hc
    rw [List.length_cons]
    omega

private theorem takeWhile_spell {p : Nat → Bool} {w : Text} (hw : ∀ c ∈ w, p c = true) (hr : ∀ c ∈ r.head?, p c = false) :
    (w ++ r).takeWhile p = w ∧ (w ++ r).dropWhile p = r := by
  rw [List.takeWhile_append_of_pos hw, List.dropWhile_append_of_pos hw]
  cases r with
  | nil => exact ⟨List.append_nil w, rfl⟩
  | cons c r =>
    have hc := hr c rfl
    rw [List.takeWhile_cons_of_neg (by rw [hc]; exact nofun), List.dropWhile_cons_of_neg (by rw [hc]; exact nofun),
      List.append_nil]
    exact ⟨rfl, rfl⟩

/-- A token that is written is read. -/
private theorem lex_spell {ws : Text} (hws : ∀ c ∈ ws, isspace c = true) (ht : t.Writable)
    (hsep : ∀ k, t = .ident k → ∀ c ∈ r.head?, tokIssep c = true) : lex (ws ++ (t.spell ++ r)) = some (t, r) := by
  unfold lex
  rw [List.dropWhile_append_of_pos hws]
  cases t with
  | comma => rfl
  | equal => rfl
  | lbrack => rfl
  | rbrack => rfl
  | string k =>
    have hk : ∀ c ∈ k, decide (c ≠ quote) = true := fun c hc => decide_eq_true fun heq => ht (heq ▸ hc)
    obtain ⟨htake, hdrop⟩ := takeWhile_spell (r := quote :: r) hk fun c hc => by
      obtain rfl := Option.some.inj hc
      rfl
    change (if quote = 44 then _ else if quote = 61 then _ else if isLbrack quote then _ else if isRbrack quote then _
      else if quote = quote then some (Token.string ((k ++ [quote] ++ r).takeWhile _),
        ((k ++ [quote] ++ r).dropWhile _).tail) else _) = _
    rw [if_neg (by decide), if_neg (by decide), if_neg (by decide), if_neg (by decide), if_pos rfl, List.append_assoc]
    change some (Token.string ((k ++ quote :: r).takeWhile _), ((k ++ quote :: r).dropWhile _).tail) = _
    rw [htake, hdrop]
    rfl
  | ident k =>
    obtain ⟨hne, hk⟩ := ht
    obtain ⟨c, k, rfl⟩ := List.exists_cons_of_ne_nil hne
    have hc := hk c List.mem_cons_self
    obtain ⟨htake, hdrop⟩ := takeWhile_spell (p := (!tokIssep ·)) (w := k) (r := r)
      (fun d hd => by rw [hk d (List.mem_cons_of_mem _ hd)]; rfl) fun d hd => by rw [hsep _ rfl d hd]; rfl
    have hplain : isspace c = false ∧ c ≠ 44 ∧ c ≠ 61 ∧ isLbrack c = false ∧ isRbrack c = false ∧ c ≠ quote := by
      unfold tokIssep at hc
      simp only [Bool.or_eq_false_iff, decide_eq_false_iff_not, not_or] at hc
      exact ⟨hc.2, hc.1.1.1.1.2.2.1, hc.1.1.1.1.2.2.2, hc.1.1.1.2, hc.1.1.2, hc.1.2⟩
    obtain ⟨hspace, hcomma, hequal, hl, hr, hquote⟩ := hplain
    change (match ((c :: (k ++ r)).dropWhile isspace) with | [] => none | c :: r => _) = _
    rw [List.dropWhile_cons_of_neg (by rw [hspace]; exact nofun)]
    dsimp only
    rw [if_neg hcomma, if_neg hequal, if_neg (by rw [hl]; exact nofun), if_neg (by rw [hr]; exact nofun), if_neg hquote,
      htake, hdrop]

/-- The tokens that are written are those that are read. -/
theorem Spelled.lexes (h : Spelled ts s) : Lexes s ts := by
  induction h with
  | nil hws =>
    refine .nil ?_
    unfold lex
    rw [List.dropWhile_eq_nil_iff.2 hws]
  | cons hws ht _ hsep ih => exact .cons (lex_spell hws ht hsep) ih

/-! ### Values -/

private theorem afterValues_past : afterValues ts = some .past ↔ ts = [] := by
  unfold afterValues
  split
  · exact iff_of_true rfl rfl
  · exact iff_of_false nofun nofun
  · rename_i hne _
    exact iff_of_false nofun hne

private theorem afterValues_more : afterValues ts = some (.more ts') ↔ ts = .comma :: ts' := by
  unfold afterValues
  split
  · exact iff_of_false nofun nofun
  · rename_i ts
    refine ⟨fun h => ?_, fun h => ?_⟩
    · obtain rfl := Rest.more.inj (Option.some.inj h)
      rfl
    · obtain ⟨-, rfl⟩ := List.cons.inj h
      rfl
  · rename_i hne
    exact iff_of_false nofun fun h => hne ts' h

private theorem value_token : v.token.value = some v.text := by cases v <;> rfl

private theorem token_value (h : t.value = some s) : ∃ v : Value, t = v.token ∧ s = v.text := by
  cases t with
  | ident k => exact ⟨.ident k, rfl, (Option.some.inj h).symm⟩
  | string k => exact ⟨.string k, rfl, (Option.some.inj h).symm⟩
  | comma => cases h
  | equal => cases h
  | lbrack => cases h
  | rbrack => cases h

private theorem token_ne_lbrack : v.token ≠ .lbrack := by cases v <;> exact nofun

/-- Values in brackets are read. -/
private theorem tokenValues_list (h : vs ≠ []) : tokenValues (Entry.valueTokens vs ++ .rbrack :: ts) =
    (afterValues ts).map fun r => (vs.map Value.text, r) := by
  induction vs with
  | nil => exact absurd rfl h
  | cons v vs ih =>
    cases vs with
    | nil =>
      change tokenValues (v.token :: .rbrack :: ts) = _
      unfold tokenValues
      rw [value_token]
      rfl
    | cons w vs =>
      change tokenValues (v.token :: .comma :: (Entry.valueTokens (w :: vs) ++ .rbrack :: ts)) = _
      unfold tokenValues
      rw [value_token, ih (List.cons_ne_nil w vs)]
      cases afterValues ts <;> rfl

/-- What is read as values in brackets. -/
private theorem tokenValues_inv (h : tokenValues ts = some (texts, rest)) : ∃ vs ts', vs ≠ [] ∧
    ts = Entry.valueTokens vs ++ .rbrack :: ts' ∧ afterValues ts' = some rest ∧ texts = vs.map Value.text := by
  induction ts using tokenValues.induct generalizing texts with
  | case1 t ts ih =>
    unfold tokenValues at h
    obtain ⟨s, hs, h⟩ := Option.bind_eq_some_iff.1 h
    obtain ⟨⟨texts', rest'⟩, hr, heq⟩ := Option.map_eq_some_iff.1 h
    obtain ⟨rfl, rfl⟩ := Prod.mk.inj heq
    obtain ⟨v, rfl, rfl⟩ := token_value hs
    obtain ⟨vs, ts', hne, rfl, hafter, rfl⟩ := ih hr
    obtain ⟨w, vs, rfl⟩ := List.exists_cons_of_ne_nil hne
    exact ⟨v :: w :: vs, ts', List.cons_ne_nil v _, rfl, hafter, rfl⟩
  | case2 t ts =>
    unfold tokenValues at h
    obtain ⟨s, hs, h⟩ := Option.bind_eq_some_iff.1 h
    obtain ⟨rest', hr, heq⟩ := Option.map_eq_some_iff.1 h
    obtain ⟨rfl, rfl⟩ := Prod.mk.inj heq
    obtain ⟨v, rfl, rfl⟩ := token_value hs
    exact ⟨[v], ts, List.cons_ne_nil v [], rfl, hr, rfl⟩
  | case3 ts h1 h2 =>
    unfold tokenValues at h
    split at h
    · exact absurd rfl (h1 _ _)
    · exact absurd rfl (h2 _ _)
    · cases h

/-! ### Entries -/

private theorem tokenValue_one : tokenValue (v.token :: ts) =
    ((afterValues ts).map fun r => ([v.text], r)).getD ([], .stopped) := by
  unfold tokenValue
  dsimp only
  rw [if_neg token_ne_lbrack, value_token]
  rfl

private theorem tokenValue_many (h : vs ≠ []) : tokenValue (.lbrack :: (Entry.valueTokens vs ++ .rbrack :: ts)) =
    ((afterValues ts).map fun r => (vs.map Value.text, r)).getD ([], .stopped) := by
  unfold tokenValue
  dsimp only
  rw [if_pos rfl, tokenValues_list h]

/-- An entry in front of another one. -/
private theorem tokenItem_comma : tokenItem (e.tokens ++ .comma :: ts) =
    some (e.item, if e.isEmpty then .stopped else .more ts) := by
  cases e with
  | ident k => rfl
  | value k v =>
    change some ((k, (tokenValue (v.token :: .comma :: ts)).1), (tokenValue (v.token :: .comma :: ts)).2) = _
    rw [tokenValue_one]
    rfl
  | values k vs =>
    cases vs with
    | nil => rfl
    | cons v vs =>
      have hvalues : tokenValue (.lbrack :: (Entry.valueTokens (v :: vs) ++ [.rbrack] ++ .comma :: ts)) =
          ((v :: vs).map Value.text, .more ts) := by
        rw [List.append_assoc]
        exact tokenValue_many (List.cons_ne_nil v vs)
      change some ((k, (tokenValue (.lbrack :: (Entry.valueTokens (v :: vs) ++ [.rbrack] ++ .comma :: ts))).1),
        (tokenValue (.lbrack :: (Entry.valueTokens (v :: vs) ++ [.rbrack] ++ .comma :: ts))).2) = _
      rw [hvalues]
      rfl

/-- The last entry. -/
private theorem tokenItem_last : tokenItem e.tokens = some (e.item, if e.valued then .past else .stopped) := by
  cases e with
  | ident k => rfl
  | value k v =>
    change some ((k, (tokenValue [v.token]).1), (tokenValue [v.token]).2) = _
    rw [tokenValue_one]
    rfl
  | values k vs =>
    cases vs with
    | nil => rfl
    | cons v vs =>
      have hvalues : tokenValue (.lbrack :: (Entry.valueTokens (v :: vs) ++ [.rbrack])) =
          ((v :: vs).map Value.text, .past) := tokenValue_many (List.cons_ne_nil v vs)
      change some ((k, (tokenValue (.lbrack :: (Entry.valueTokens (v :: vs) ++ [.rbrack]))).1),
        (tokenValue (.lbrack :: (Entry.valueTokens (v :: vs) ++ [.rbrack]))).2) = _
      rw [hvalues]
      rfl

private theorem tokenValue_inv (h : tokenValue ts = (texts, rest)) (hrest : rest ≠ .stopped) :
    (∃ (v : Value) (ts' : List Token), ts = v.token :: ts' ∧ afterValues ts' = some rest ∧ texts = [v.text]) ∨
    ∃ vs ts', vs ≠ [] ∧ ts = .lbrack :: (Entry.valueTokens vs ++ .rbrack :: ts') ∧ afterValues ts' = some rest ∧
      texts = vs.map Value.text := by
  cases ts with
  | nil => exact absurd (Prod.mk.inj h).2.symm hrest
  | cons t ts =>
    unfold tokenValue at h
    dsimp only at h
    split at h
    · rename_i hl
      cases hv : tokenValues ts with
      | none =>
        rw [hv] at h
        exact absurd (Prod.mk.inj h).2.symm hrest
      | some q =>
        rw [hv] at h
        obtain rfl : q = (texts, rest) := h
        obtain ⟨vs, ts', hne, rfl, hafter, rfl⟩ := tokenValues_inv hv
        exact .inr ⟨vs, ts', hne, by rw [hl], hafter, rfl⟩
    · cases hq : t.value.bind fun v => (afterValues ts).map fun r => ([v], r) with
      | none =>
        rw [hq] at h
        exact absurd (Prod.mk.inj h).2.symm hrest
      | some q =>
        rw [hq] at h
        obtain rfl : q = (texts, rest) := h
        obtain ⟨s, hs, hmap⟩ := Option.bind_eq_some_iff.1 hq
        obtain ⟨rest', hafter, heq⟩ := Option.map_eq_some_iff.1 hmap
        obtain ⟨rfl, rfl⟩ := Prod.mk.inj heq
        obtain ⟨v, rfl, rfl⟩ := token_value hs
        exact .inl ⟨v, ts, rfl, hafter, rfl⟩

/-- What is read as an entry, when the scanner is not stopped. -/
private theorem tokenItem_inv (h : tokenItem ts = some (i, rest)) (hrest : rest ≠ .stopped) :
    ∃ (e : Entry) (ts' : List Token), e.isEmpty = false ∧ i = e.item ∧ ts = e.tokens ++ ts' ∧ afterValues ts' = some rest ∧
      (rest = .past → e.valued = true) := by
  unfold tokenItem at h
  split at h
  · exact absurd (Prod.mk.inj (Option.some.inj h)).2.symm hrest
  · rename_i k ts
    obtain ⟨rfl, rfl⟩ := Prod.mk.inj (Option.some.inj h)
    exact ⟨.ident k, .comma :: ts, rfl, rfl, rfl, rfl, nofun⟩
  · rename_i k ts
    obtain ⟨rfl, heq⟩ := Prod.mk.inj (Option.some.inj h)
    have hvalue : tokenValue ts = ((tokenValue ts).1, rest) := Prod.ext rfl heq
    rcases tokenValue_inv hvalue hrest with ⟨v, ts', rfl, hafter, htexts⟩ | ⟨vs, ts', hne, rfl, hafter, htexts⟩
    · exact ⟨.value k v, ts', rfl, by rw [htexts]; rfl, rfl, hafter, fun _ => rfl⟩
    · obtain ⟨v, vs, rfl⟩ := List.exists_cons_of_ne_nil hne
      refine ⟨.values k (v :: vs), ts', rfl, by rw [htexts]; rfl, ?_, hafter, fun _ => rfl⟩
      change _ = Token.ident k :: .equal :: .lbrack :: (Entry.valueTokens (v :: vs) ++ [.rbrack] ++ ts')
      rw [List.append_assoc]
      rfl
  · cases h

private theorem tokens_length : 0 < e.tokens.length := by
  cases e <;> exact Nat.succ_pos _

/-- A call takes tokens. -/
theorem tokenItem_length (h : tokenItem ts = some (i, .more ts')) : ts'.length < ts.length := by
  obtain ⟨e, ts'', -, -, rfl, hafter, -⟩ := tokenItem_inv h nofun
  obtain rfl := afterValues_more.1 hafter
  have hpos := tokens_length (e := e)
  rw [List.length_append, List.length_cons]
  omega

/-! ### Lists of entries -/

private theorem listTokens_cons (h : es ≠ []) : listTokens (e :: es) = e.tokens ++ .comma :: listTokens es := by
  obtain ⟨d, es, rfl⟩ := List.exists_cons_of_ne_nil h
  rfl

/-- The items of a list of entries. -/
theorem tokenItems_list (h : es ≠ []) (hn : (listTokens es).length < n) :
    if hidden es then (tokenItems n (listTokens es)).1.length < es.length ∧ (tokenItems n (listTokens es)).2 = false
    else tokenItems n (listTokens es) = (es.map Entry.item, endsValued es) := by
  induction es generalizing n with
  | nil => exact absurd rfl h
  | cons e es ih =>
    obtain ⟨n, rfl⟩ := Nat.exists_eq_add_one.2 (Nat.zero_lt_of_lt hn)
    by_cases hes : es = []
    · subst hes
      rw [if_neg (show ¬hidden [e] = true from nofun)]
      change tokenItems (n + 1) e.tokens = ([e.item], e.valued)
      unfold tokenItems
      rw [tokenItem_last]
      cases e.valued <;> rfl
    · have hlist := listTokens_cons (e := e) hes
      rw [hlist, List.length_append, List.length_cons] at hn
      have hih := ih hes (n := n) (by omega)
      have hhidden : hidden (e :: es) = (e.isEmpty || hidden es) := by
        unfold hidden
        rw [List.dropLast_cons_of_ne_nil hes]
        rfl
      have hends : endsValued (e :: es) = endsValued es := by
        obtain ⟨d, es, rfl⟩ := List.exists_cons_of_ne_nil hes
        rfl
      have hpos : 0 < es.length := List.length_pos_iff.2 hes
      rw [hlist, hhidden, hends]
      unfold tokenItems
      rw [tokenItem_comma]
      cases e.isEmpty with
      | true =>
        refine ⟨?_, rfl⟩
        change 1 < es.length + 1
        omega
      | false =>
        rw [Bool.false_or]
        split
        · rename_i hh
          rw [if_pos hh] at hih
          exact ⟨Nat.succ_lt_succ hih.1, hih.2⟩
        · rename_i hh
          rw [if_neg hh] at hih
          change (e.item :: (tokenItems n (listTokens es)).1, (tokenItems n (listTokens es)).2) = _
          rw [hih]
          rfl

/-- The scanner is left behind the end of the string by lists of entries only. -/
theorem tokenItems_past (h : (tokenItems n ts).2 = true) :
    ∃ es, es ≠ [] ∧ ts = listTokens es ∧ hidden es = false ∧ endsValued es = true := by
  induction n generalizing ts with
  | zero => cases h
  | succ n ih =>
    unfold tokenItems at h
    split at h
    · cases h
    · cases h
    · rename_i i hitem
      obtain ⟨e, ts', -, -, rfl, hafter, hvalued⟩ := tokenItem_inv hitem nofun
      obtain rfl := afterValues_past.1 hafter
      exact ⟨[e], List.cons_ne_nil e [], List.append_nil _, rfl, hvalued rfl⟩
    · rename_i i ts' hitem
      obtain ⟨e, ts'', hempty, -, rfl, hafter, -⟩ := tokenItem_inv hitem nofun
      obtain rfl := afterValues_more.1 hafter
      obtain ⟨es, hne, rfl, hhidden, hends⟩ := ih h
      refine ⟨e :: es, List.cons_ne_nil e es, (listTokens_cons hne).symm, ?_, ?_⟩
      · unfold hidden at hhidden ⊢
        rw [List.dropLast_cons_of_ne_nil hne, List.any_cons, hempty, hhidden]
        rfl
      · obtain ⟨d, es, rfl⟩ := List.exists_cons_of_ne_nil hne
        exact hends

end

end Citrine.Gpf
