import Citrine.Aci.LineSplit
import Mathlib.Data.List.Forall2
import Mathlib.Data.List.GetD
import Mathlib.Data.List.TakeWhile
import Mathlib.Tactic.SplitIfs

/-!
# Command lines as texts

What the loops of `line_split.c` find in a buffer, told by the text from an index on (`Buf.Text`): the digits in front, the
characters before a semicolon, the name of a command.  The letters G and I that `ledit_restore_dial_string` copies are
those of the first place of the original line that reads like the dial string (`restored`).
-/

namespace Citrine.Aci

/-! ### Texts -/

/-- A buffer holds a text from an index on, which a terminator ends. -/
def Buf.Text (b : Buf) : Nat → List Nat → Prop
  | i, [] => b i = 0
  | i, c :: r => b i = c ∧ c ≠ 0 ∧ b.Text (i + 1) r

section
variable {b b' : Buf} {i j n : Nat} {l r : List Nat}

theorem Buf.Text.first (h : b.Text i r) : b i = r.headD 0 := by
  cases r with
  | nil => exact h
  | cons c r => exact h.1

theorem Buf.Text.first_eq_zero_iff (h : b.Text i r) : b i = 0 ↔ r = [] := by
  cases r with
  | nil => exact iff_of_true h rfl
  | cons c r => exact iff_of_false (fun h0 => h.2.1 (h.1.symm.trans h0)) nofun

theorem Buf.Text.drop (h : b.Text i (l ++ r)) : b.Text (i + l.length) r := by
  induction l generalizing i with
  | nil => exact h
  | cons c l ih =>
    have hrest := ih h.2.2
    rw [List.length_cons, Nat.add_comm l.length 1, ← Nat.add_assoc]
    exact hrest

theorem Buf.Text.ended (h : b.Text i r) : b (i + r.length) = 0 := by
  rw [← List.append_nil r] at h
  exact h.drop

theorem Buf.Text.congr (h : b.Text i r) (heq : ∀ k, i ≤ k → k ≤ i + r.length → b' k = b k) : b'.Text i r := by
  induction r generalizing i with
  | nil => exact (heq i le_rfl le_rfl).trans h
  | cons c r ih =>
    refine ⟨(heq i le_rfl (Nat.le_add_right _ _)).trans h.1, h.2.1, ih h.2.2 fun k hk hle => heq k (by omega) ?_⟩
    rw [List.length_cons]
    omega

/-- A buffer with a text at its beginning, 0 behind it. -/
def Buf.ofList (l : List Nat) : Buf := fun i => l.getD i 0

private theorem ofList_append (h : ∀ c ∈ r, c ≠ 0) : (Buf.ofList (l ++ r)).Text l.length r := by
  induction r generalizing l with
  | nil =>
    change (l ++ []).getD l.length 0 = 0
    rw [List.append_nil, List.getD_eq_default _ _ le_rfl]
  | cons c r ih =>
    refine ⟨?_, h c List.mem_cons_self, ?_⟩
    · change (l ++ c :: r).getD l.length 0 = c
      rw [List.getD_append_right _ _ _ _ le_rfl, Nat.sub_self, List.getD_cons_zero]
    · have hrest := ih (l := l ++ [c]) fun d hd => h d (List.mem_cons_of_mem _ hd)
      rw [List.append_assoc, List.length_append] at hrest
      exact hrest

theorem ofList_text (h : ∀ c ∈ r, c ≠ 0) : (Buf.ofList r).Text 0 r := ofList_append (l := []) h

theorem slice_cons (b : Buf) (i n : Nat) : b.slice i (n + 1) = b i :: b.slice (i + 1) n := by
  unfold Buf.slice
  rw [List.range_succ_eq_map, List.map_cons, List.map_map, Nat.add_zero]
  refine congrArg _ (List.map_congr_left fun k _ => congrArg b ?_)
  omega

theorem Buf.Text.slice (h : b.Text i (l ++ r)) : b.slice i l.length = l := by
  induction l generalizing i with
  | nil => rfl
  | cons c l ih => rw [List.length_cons, slice_cons, ih h.2.2, h.1]

theorem slice_append (b : Buf) (i n m : Nat) : b.slice i (n + m) = b.slice i n ++ b.slice (i + n) m := by
  induction n generalizing i with
  | zero =>
    rw [Nat.zero_add]
    rfl
  | succ n ih => rw [Nat.add_right_comm, slice_cons, slice_cons, ih, Nat.add_assoc, Nat.add_comm 1, List.cons_append]

theorem slice_congr (h : ∀ k, i ≤ k → k < i + n → b' k = b k) : b'.slice i n = b.slice i n := by
  unfold Buf.slice
  refine List.map_congr_left fun k hk => h _ (Nat.le_add_right _ _) ?_
  have := List.mem_range.1 hk
  omega

/-! ### Lengths -/

theorem digitsEnd_text (h : b.Text i r) (hn : r.length ≤ n) : digitsEnd b n i = i + (r.takeWhile isDigit).length := by
  induction r generalizing i n with
  | nil =>
    have hi : b i = 0 := h
    cases n with
    | zero => rfl
    | succ n =>
      unfold digitsEnd
      rw [hi, if_neg (by decide)]
      rfl
  | cons c r ih =>
    obtain ⟨n, rfl⟩ := Nat.exists_eq_add_one.2 (Nat.zero_lt_of_lt hn)
    unfold digitsEnd
    rw [h.1]
    cases hc : isDigit c with
    | false => rw [List.takeWhile_cons_of_neg (Bool.eq_false_iff.1 hc), if_neg nofun, List.length_nil, Nat.add_zero]
    | true =>
      rw [List.takeWhile_cons_of_pos hc, if_pos rfl, ih h.2.2 (Nat.le_of_succ_le_succ hn), List.length_cons]
      omega

/-- The characters before a semicolon. -/
def untilSemicolon (r : List Nat) : List Nat := r.takeWhile (· ≠ 59)

/-- A semicolon and what is behind it. -/
def fromSemicolon (r : List Nat) : List Nat := r.dropWhile (· ≠ 59)

theorem until_append_from (r : List Nat) : untilSemicolon r ++ fromSemicolon r = r := List.takeWhile_append_dropWhile

theorem paramEnd_text (h : b.Text i r) (hr : r ≠ []) (hn : r.length ≤ n) :
    paramEnd b n i = i + (untilSemicolon r).length := by
  unfold untilSemicolon
  induction r generalizing i n with
  | nil => exact absurd rfl hr
  | cons c r ih =>
    obtain ⟨n, rfl⟩ := Nat.exists_eq_add_one.2 (Nat.zero_lt_of_lt hn)
    unfold paramEnd
    rw [h.1]
    by_cases hc : c = 59
    · rw [if_pos hc, List.takeWhile_cons_of_neg (by simpa using hc), List.length_nil, Nat.add_zero]
    · rw [if_neg hc, List.takeWhile_cons_of_pos (by simpa using hc), List.length_cons]
      by_cases hrest : r = []
      · rw [if_pos (h.2.2.first_eq_zero_iff.2 hrest), hrest]
        rfl
      · rw [if_neg (mt h.2.2.first_eq_zero_iff.1 hrest), ih h.2.2 hrest (Nat.le_of_succ_le_succ hn)]
        omega

private theorem le_paramEnd (b : Buf) (n i : Nat) : i ≤ paramEnd b n i := by
  induction n generalizing i with
  | zero => exact le_rfl
  | succ n ih =>
    unfold paramEnd
    split_ifs
    · exact le_rfl
    · exact Nat.le_succ i
    · exact (Nat.le_succ i).trans (ih (i + 1))

/-- At a terminator the loop over a parameter steps past it. -/
theorem lt_paramEnd (hi : b i = 0) : i < paramEnd b (n + 1) i := by
  unfold paramEnd
  rw [if_neg (by omega)]
  split_ifs
  · exact Nat.lt_succ_self i
  · exact le_paramEnd b n (i + 1)

theorem paramEnd_empty (hi : b i = 0) (hnext : b (i + 1) = 0) : paramEnd b (n + 1) i = i + 1 := by
  unfold paramEnd
  rw [if_neg (by omega), if_pos hnext]

/-- Behind the terminator the loop over a parameter goes on with the characters that are left there. -/
theorem paramEnd_left {w : List Nat} (hi : b i = 0) (hw : b.Text (i + 1) w) (hsemi : 59 ∉ w) (hn : w.length ≤ n) :
    paramEnd b (n + 1) i = i + 1 + w.length := by
  by_cases hnil : w = []
  · subst hnil
    exact paramEnd_empty hi hw
  · have huntil : untilSemicolon w = w :=
      List.takeWhile_eq_self_iff.2 fun c hc => decide_eq_true fun heq => hsemi (heq ▸ hc)
    unfold paramEnd
    rw [if_neg (by omega), if_neg (mt hw.first_eq_zero_iff.1 hnil), paramEnd_text hw hnil hn, huntil]

/-! ### Names -/

/-- The characters that end a name. -/
def isOperator (c : Nat) : Bool := c == 59 || c == 61 || c == 63

/-- The name in front of a text. -/
def nameOf (r : List Nat) : List Nat := r.takeWhile (!isOperator ·)

/-- What is behind the name. -/
def behindName (r : List Nat) : List Nat := r.dropWhile (!isOperator ·)

theorem name_append_behind (r : List Nat) : nameOf r ++ behindName r = r := List.takeWhile_append_dropWhile

/-- A text that ends, or begins with a semicolon. -/
def closes : List Nat → Bool
  | [] => true
  | c :: _ => c == 59

/-- The operator behind a name, with what follows it. -/
def operator : List Nat → Option (SubType × Bool × List Nat)
  | 61 :: 63 :: r => if closes r then some (.test, true, r) else none
  | 61 :: r => some (.set, true, r)
  | 63 :: r => if closes r then some (.query, true, r) else none
  | r => some (.set, false, r)

private theorem operator_set_isSome (h : b.Text i r) :
    (operator (61 :: r)).isSome = (b i != 63 || b (i + 1) == 0 || b (i + 1) == 59) := by
  cases r with
  | nil =>
    rw [show b i = 0 from h]
    rfl
  | cons c r =>
    rw [h.1, h.2.2.first]
    by_cases hc : c = 63
    · subst hc
      cases r with
      | nil => rfl
      | cons d r =>
        have hd : d ≠ 0 := h.2.2.2.1
        by_cases hd' : d = 59 <;> simp [operator, closes, hd, hd']
    · simp [operator, hc]

private theorem operator_query_isSome (h : b.Text i r) :
    (operator (63 :: r)).isSome = (b i == 0 || b i == 59) := by
  rw [h.first]
  cases r with
  | nil => rfl
  | cons c r =>
    have hc : c ≠ 0 := h.2.1
    by_cases hc' : c = 59 <;> simp [operator, closes, hc, hc']

/-- The name is at its end. -/
private def stops : List Nat → Bool
  | [] => true
  | c :: _ => isOperator c

private theorem nameEnd_step {iter : Nat} {ext : Bool} (hi : b i ≠ 0)
    (hcheck : (!ext && decide (i > iter) && (!isDigit (b i) || decide (i - iter > maxSNameLen))) = false)
    (h : b.Text (i + 1) r) :
    nameEnd b iter ext (n + 1) i =
      if stops r then if (operator r).isSome then i + 1 - iter else 0 else nameEnd b iter ext n (i + 1) := by
  rw [nameEnd, if_neg hi, if_neg (by rw [hcheck]; nofun)]
  dsimp only
  cases r with
  | nil =>
    have hend : b (i + 1) = 0 := h
    rw [if_pos hend]
    rfl
  | cons c r =>
    rw [h.1, if_neg h.2.1]
    by_cases hset : c = 61
    · subst hset
      have hop := operator_set_isSome h.2.2
      rw [if_pos rfl, if_pos (show stops (61 :: r) = true from rfl), hop]
      by_cases hread : b (i + 1 + 1) = 63
      · rw [if_neg (not_not.2 hread), hread]
        by_cases h0 : b (i + 1 + 2) = 0
        · simp [h0]
        · by_cases h59 : b (i + 1 + 2) = 59 <;> simp [h0, h59]
      · rw [if_pos hread]
        simp [hread]
    · rw [if_neg hset]
      by_cases hread : c = 63
      · subst hread
        have hop := operator_query_isSome h.2.2
        rw [if_pos rfl, if_pos (show stops (63 :: r) = true from rfl), hop]
        by_cases h0 : b (i + 1 + 1) = 0
        · simp [h0]
        · by_cases h59 : b (i + 1 + 1) = 59 <;> simp [h0, h59]
      · rw [if_neg hread]
        by_cases hsep : c = 59
        · subst hsep
          rw [if_pos rfl]
          rfl
        · have hstop : stops (c :: r) = false := by simp [stops, isOperator, hset, hread, hsep]
          rw [if_neg hsep, hstop]
          rfl

/-- The characters of a name behind its first ones: `ATSnn` has up to two digits. -/
def nameOk (ext : Bool) : Nat → List Nat → Bool
  | _, [] => true
  | k, c :: w => (ext || k == 0 || isDigit c && decide (k ≤ maxSNameLen)) && nameOk ext (k + 1) w

private theorem nameCheck (ext : Bool) (iter k u : Nat) :
    (!ext && decide (iter + k > iter) && (!isDigit u || decide (iter + k - iter > maxSNameLen))) =
      !(ext || k == 0 || isDigit u && decide (k ≤ maxSNameLen)) := by
  have hk : decide (iter + k > iter) = !(k == 0) := by
    cases k with
    | zero => simp
    | succ k => simp
  have hle : decide (iter + k - iter > maxSNameLen) = !decide (k ≤ maxSNameLen) := by
    rw [Nat.add_sub_cancel_left, ← decide_not]
    exact decide_eq_decide.2 Nat.not_le.symm
  rw [hk, hle]
  cases ext <;> cases (k == 0) <;> cases isDigit u <;> rfl

private theorem nameEnd_text {o k u : Nat} {e : Bool} (h : b.Text (o + k) (u :: r)) (hn : r.length < n) :
    nameEnd b o e n (o + k) =
      if nameOk e k (u :: nameOf r) && (operator (behindName r)).isSome then k + 1 + (nameOf r).length else 0 := by
  induction r generalizing u k n with
  | nil =>
    obtain ⟨n, rfl⟩ := Nat.exists_eq_add_one.2 hn
    have hu : b (o + k) ≠ 0 := h.1 ▸ h.2.1
    have hcheck := nameCheck e o k u
    rw [← h.1] at hcheck
    unfold nameOk
    cases hok : (e || k == 0 || isDigit u && decide (k ≤ maxSNameLen)) with
    | false =>
      rw [h.1] at hcheck
      rw [nameEnd, if_neg hu, h.1, if_pos (by rw [hcheck, hok]; rfl)]
      rfl
    | true =>
      have hk : o + k + 1 - o = k + 1 := by omega
      rw [nameEnd_step hu (by rw [hcheck, h.1, hok]; rfl) h.2.2, hk]
      rfl
  | cons c r ih =>
    obtain ⟨n, rfl⟩ := Nat.exists_eq_add_one.2 (Nat.zero_lt_of_lt hn)
    have hu : b (o + k) ≠ 0 := h.1 ▸ h.2.1
    have hcheck := nameCheck e o k u
    rw [← h.1] at hcheck
    rw [nameOk]
    cases hok : (e || k == 0 || isDigit u && decide (k ≤ maxSNameLen)) with
    | false =>
      rw [h.1] at hcheck
      rw [nameEnd, if_neg hu, h.1, if_pos (by rw [hcheck, hok]; rfl)]
      rfl
    | true =>
      rw [nameEnd_step hu (by rw [hcheck, h.1, hok]; rfl) h.2.2]
      have hk : o + k + 1 - o = k + 1 := by omega
      unfold nameOf behindName
      cases hc : isOperator c with
      | true =>
        have hstop : stops (c :: r) = true := hc
        rw [List.takeWhile_cons_of_neg (by rw [hc]; nofun), List.dropWhile_cons_of_neg (by rw [hc]; nofun), hstop,
          if_pos rfl, hk]
        rfl
      | false =>
        have hstop : stops (c :: r) = false := hc
        rw [List.takeWhile_cons_of_pos (by rw [hc]; rfl), List.dropWhile_cons_of_pos (by rw [hc]; rfl), hstop,
          if_neg nofun, Bool.true_and, List.length_cons]
        have hrec := ih (k := k + 1) h.2.2 (Nat.lt_of_succ_lt_succ hn)
        rw [← Nat.add_assoc] at hrec
        rw [hrec]
        unfold nameOf behindName
        rw [show k + 1 + 1 + (r.takeWhile (!isOperator ·)).length = k + 1 + ((r.takeWhile (!isOperator ·)).length + 1) by omega]

/-- The length of the name of an extended command. -/
theorem getNameLen_ext {p : Nat} (h : b.Text i (p :: r)) (hn : r.length ≤ maxCmdLen) :
    getNameLen b i true =
      if isUpper (r.headD 0) && (operator (behindName r.tail)).isSome then 2 + (nameOf r.tail).length else 0 := by
  change (if isUpper (b (i + 1)) then nameEnd b i true (maxCmdLen + 1) (i + 1) else 0) = _
  rw [h.2.2.first]
  cases r with
  | nil => rfl
  | cons u r =>
    rw [List.headD_cons, List.tail_cons]
    cases hu : isUpper u with
    | false => rfl
    | true =>
      have hok : ∀ k w, nameOk true k w = true := by
        intro k w
        induction w generalizing k with
        | nil => rfl
        | cons c w ih => exact ih (k + 1)
      rw [if_pos rfl, nameEnd_text h.2.2 (Nat.lt_succ_of_le (Nat.le_of_succ_le hn)), hok, Nat.add_comm 1 1]

/-- The length of the name of `ATSnn`. -/
theorem getNameLen_s (h : b.Text i (83 :: r)) (hn : r.length ≤ maxCmdLen) :
    getNameLen b i false =
      if nameOk false 1 (nameOf r) && (operator (behindName r)).isSome then 1 + (nameOf r).length else 0 := by
  have hname := nameEnd_text (o := i) (k := 0) (e := false) h (Nat.lt_succ_of_le hn)
  change (if isUpper (b i) then nameEnd b i false (maxCmdLen + 1) i else 0) = _
  rw [h.1, if_pos (by decide)]
  exact hname.trans (by rw [Nat.zero_add]; rfl)

end

/-! ### The letters of a dial string -/

section
variable {orig exec : Buf} {i j n o p : Nat} {d : List Nat}

/-- The original line reads like a dial string, up to spaces and case. -/
def readsDial (orig : Buf) : List Nat → Nat → Bool
  | [], _ => true
  | c :: d, o =>
    let o := skipSpaces orig (maxCmdLen + 1) o
    if orig o = c ∨ (isAlpha (orig o) ∧ isAlpha c ∧ toUpper (orig o) = toUpper c) then readsDial orig d (o + 1) else false

/-- The dial string with the letters G and I that the original line has from a place on. -/
def lettersFrom (orig : Buf) : List Nat → Nat → List Nat
  | [], _ => []
  | c :: d, o =>
    let o := skipSpaces orig (maxCmdLen + 1) o
    (if c = 71 ∨ c = 73 then orig o else c) :: lettersFrom orig d (o + 1)

/-- The first place from `o` on where the original line has a D with something behind it that reads like the dial
string. -/
def placeFrom (orig : Buf) (d : List Nat) : Nat → Nat → Option Nat
  | 0, _ => none
  | n + 1, o => if (orig o = 100 ∨ orig o = 68) ∧ readsDial orig d (o + 1) then some (o + 1) else placeFrom orig d n (o + 1)

/-- The first place of the original line that reads like the dial string. -/
def firstPlace (orig : Buf) (d : List Nat) : Option Nat := placeFrom orig d (orig.str 0).length 0

/-- A letter that the original line may have in the other case. -/
def isModifier (c : Nat) : Bool := c == 71 || c == 73

/-- The dial string with the letters of the first place. -/
def restored (orig : Buf) (d : List Nat) : List Nat :=
  if d.any isModifier then (firstPlace orig d).elim d fun o => lettersFrom orig d o else d

/-- The index of the k-th letter from a place on. -/
def letterIndex (orig : Buf) : Nat → Nat → Nat
  | 0, o => skipSpaces orig (maxCmdLen + 1) o
  | k + 1, o => letterIndex orig k (skipSpaces orig (maxCmdLen + 1) o + 1)

private theorem matchesDial_eq : matchesDial exec orig n p o = readsDial orig (exec.slice p n) o := by
  induction n generalizing p o with
  | zero => rfl
  | succ n ih =>
    rw [slice_cons]
    unfold matchesDial readsDial
    dsimp only
    rw [ih]

private theorem copyDial_other (h : j < p ∨ p + n ≤ j) : copyDial orig n p o exec j = exec j := by
  induction n generalizing p o exec with
  | zero => rfl
  | succ n ih =>
    unfold copyDial
    dsimp only
    rw [ih (by omega)]
    split_ifs
    · exact if_neg (by omega)
    · rfl

private theorem copyDial_slice : (copyDial orig n p o exec).slice p n = lettersFrom orig (exec.slice p n) o := by
  induction n generalizing p o exec with
  | zero => rfl
  | succ n ih =>
    rw [slice_cons, slice_cons]
    unfold copyDial lettersFrom
    dsimp only
    rw [ih, copyDial_other (Or.inl (Nat.lt_succ_self p))]
    refine congrArg₂ _ ?_ (congrArg (lettersFrom orig · _) (slice_congr fun k hk _ => ?_))
    · split_ifs
      · exact if_pos rfl
      · rfl
    · split_ifs
      · exact if_neg (by omega)
      · rfl

private theorem restoreFrom_slice :
    (restoreFrom exec orig i n m o).slice i n =
      (placeFrom orig (exec.slice i n) m o).elim (exec.slice i n) fun o => lettersFrom orig (exec.slice i n) o := by
  induction m generalizing o with
  | zero => rfl
  | succ m ih =>
    unfold restoreFrom placeFrom
    rw [matchesDial_eq]
    split_ifs
    · exact copyDial_slice
    · exact ih

private theorem restoreFrom_other (h : j < i ∨ i + n ≤ j) : restoreFrom exec orig i n m o j = exec j := by
  induction m generalizing o with
  | zero => rfl
  | succ m ih =>
    unfold restoreFrom
    split_ifs
    · exact copyDial_other h
    · exact ih

/-- Restoring a dial string copies the letters of the first place. -/
theorem restoreDialString_slice : (restoreDialString exec i n orig).slice i n = restored orig (exec.slice i n) := by
  unfold restoreDialString restored isModifier
  split_ifs
  · exact restoreFrom_slice
  · rfl

theorem restoreDialString_other (h : j < i ∨ i + n ≤ j) : restoreDialString exec i n orig j = exec j := by
  unfold restoreDialString
  split_ifs
  · exact restoreFrom_other h
  · rfl

private theorem lettersFrom_modifier {k : Nat} (hk : k < d.length) (hm : isModifier d[k] = true) :
    (lettersFrom orig d o).getD k 0 = orig (letterIndex orig k o) := by
  induction d generalizing k o with
  | nil => exact absurd hk (Nat.not_lt_zero k)
  | cons c d ih =>
    unfold lettersFrom
    dsimp only
    cases k with
    | zero =>
      have hc : c = 71 ∨ c = 73 := by
        unfold isModifier at hm
        simpa using hm
      rw [List.getD_cons_zero, if_pos hc]
      rfl
    | succ k =>
      rw [List.getD_cons_succ]
      exact ih (Nat.lt_of_succ_lt_succ hk) hm

/-- A letter G or I of the dial string is the one at its position of the first place. -/
theorem restored_modifier {k : Nat} (hk : k < d.length) (hm : isModifier d[k] = true) :
    (restored orig d).getD k 0 = (firstPlace orig d).elim d[k] fun o => orig (letterIndex orig k o) := by
  have hany : d.any isModifier = true := List.any_eq_true.2 ⟨d[k], List.getElem_mem hk, hm⟩
  unfold restored
  rw [if_pos hany]
  cases firstPlace orig d with
  | none => exact List.getD_eq_getElem _ _ hk
  | some o => exact lettersFrom_modifier hk hm

theorem getD_slice {b : Buf} {k : Nat} (hk : k < n) : (b.slice i n).getD k 0 = b (i + k) := by
  unfold Buf.slice
  rw [List.getD_eq_getElem _ _ (by rw [List.length_map, List.length_range]; exact hk), List.getElem_map, List.getElem_range]

/-- Two texts are the same but for the case of letters G and I. -/
def SameLetters (d d' : List Nat) : Prop := List.Forall₂ (fun c c' => c' = c ∨ isModifier c ∧ toUpper c' = c) d d'

theorem SameLetters.refl (d : List Nat) : SameLetters d d := by
  induction d with
  | nil => exact List.Forall₂.nil
  | cons c d ih => exact List.Forall₂.cons (Or.inl rfl) ih

theorem SameLetters.append {d e d' e' : List Nat} (h : SameLetters d d') (h' : SameLetters e e') :
    SameLetters (d ++ e) (d' ++ e') := by
  induction h with
  | nil => exact h'
  | cons hc _ ih => exact List.Forall₂.cons hc ih

private theorem lettersFrom_same (h : readsDial orig d o = true) : SameLetters d (lettersFrom orig d o) := by
  induction d generalizing o with
  | nil => exact List.Forall₂.nil
  | cons c d ih =>
    unfold readsDial at h
    unfold lettersFrom
    dsimp only at h ⊢
    split_ifs at h with hc
    refine List.Forall₂.cons ?_ (ih h)
    split_ifs with hmod
    · have hup : toUpper c = c := by rcases hmod with rfl | rfl <;> rfl
      rcases hc with hc | ⟨-, -, hc⟩
      · exact Or.inl hc
      · refine Or.inr ⟨?_, hc.trans hup⟩
        rcases hmod with rfl | rfl <;> rfl
    · exact Or.inl rfl

private theorem placeFrom_reads (h : placeFrom orig d n o = some p) : readsDial orig d p = true := by
  induction n generalizing o with
  | zero => cases h
  | succ n ih =>
    unfold placeFrom at h
    split_ifs at h with hc
    · cases h
      exact hc.2
    · exact ih h

theorem restored_same : SameLetters d (restored orig d) := by
  unfold restored
  split_ifs
  · cases h : firstPlace orig d with
    | none => exact .refl d
    | some o => exact lettersFrom_same (placeFrom_reads h)
  · exact .refl d

/-- The string at a text is the text. -/
theorem Buf.Text.str {b : Buf} {l : List Nat} (h : b.Text i l) (hlen : i + l.length ≤ maxCmdLen) : b.str i = l := by
  have hall : ∀ m, l.length < m → (b.slice i m).takeWhile (· ≠ 0) = l := by
    clear hlen
    induction l generalizing i with
    | nil =>
      intro m hm
      obtain ⟨m, rfl⟩ := Nat.exists_eq_add_one.2 hm
      rw [slice_cons, List.takeWhile_cons_of_neg (by rw [show b i = 0 from h]; decide)]
    | cons c l ih =>
      intro m hm
      obtain ⟨m, rfl⟩ := Nat.exists_eq_add_one.2 (Nat.zero_lt_of_lt hm)
      rw [slice_cons, List.takeWhile_cons_of_pos (by rw [h.1]; exact decide_eq_true h.2.1),
        ih h.2.2 m (Nat.lt_of_succ_lt_succ hm), h.1]
  exact hall _ (by omega)

/-- What is read as a string is a text, if the buffer ends with a terminator. -/
theorem str_text {b : Buf} (hi : i ≤ maxCmdLen) (hend : b (maxCmdLen + 1) = 0) : b.Text i (b.str i) := by
  have hall : ∀ m i, b (i + m) = 0 → b.Text i ((b.slice i m).takeWhile (· ≠ 0)) := by
    intro m
    induction m with
    | zero => exact fun i h => h
    | succ m ih =>
      intro i h
      rw [slice_cons]
      by_cases h0 : b i = 0
      · rw [List.takeWhile_cons_of_neg (by rw [h0]; decide)]
        exact h0
      · rw [List.takeWhile_cons_of_pos (by simpa using h0)]
        refine ⟨rfl, h0, ih (i + 1) ?_⟩
        rw [Nat.add_right_comm]
        exact h
  refine hall _ i ?_
  rw [Nat.add_sub_cancel' (by omega)]
  exact hend

/-- Two buffers hold a text at the same index. -/
private def SameText (b b' : Buf) (o : Nat) (l : List Nat) : Prop := b.Text o l ∧ b'.Text o l

private theorem skipSpaces_same {b b' : Buf} {l : List Nat} (h : SameText b b' o l) :
    ∃ p l', skipSpaces b n o = p ∧ skipSpaces b' n o = p ∧ SameText b b' p l' := by
  induction n generalizing o l with
  | zero => exact ⟨o, l, rfl, rfl, h⟩
  | succ n ih =>
    have hsame : b o = b' o := h.1.first.trans h.2.first.symm
    unfold skipSpaces
    rw [← hsame]
    split_ifs with hsp
    · cases l with
      | nil =>
        rw [show b o = 0 from h.1] at hsp
        cases hsp
      | cons c l => exact ih ⟨h.1.2.2, h.2.2.2⟩
    · exact ⟨o, l, rfl, rfl, h⟩

private theorem readsDial_same {b b' : Buf} {l : List Nat} (h : SameText b b' o l) (hd : ∀ c ∈ d, c ≠ 0) :
    readsDial b d o = readsDial b' d o ∧ (readsDial b d o = true → lettersFrom b d o = lettersFrom b' d o) := by
  induction d generalizing o l with
  | nil => exact ⟨rfl, fun _ => rfl⟩
  | cons c d ih =>
    obtain ⟨p, l', hskip, hskip', hboth⟩ := skipSpaces_same (n := maxCmdLen + 1) h
    have hsame : b p = b' p := hboth.1.first.trans hboth.2.first.symm
    unfold readsDial lettersFrom
    dsimp only
    rw [hskip, hskip', ← hsame]
    by_cases hc : b p = c ∨ (isAlpha (b p) ∧ isAlpha c ∧ toUpper (b p) = toUpper c)
    · rw [if_pos hc, if_pos hc]
      cases l' with
      | nil =>
        -- the dial string has no terminator
        rw [show b p = 0 from hboth.1] at hc
        rcases hc with h0 | ⟨h0, -⟩
        · exact absurd h0.symm (hd c List.mem_cons_self)
        · cases h0
      | cons e l' =>
        obtain ⟨hreads, hletters⟩ := ih ⟨hboth.1.2.2, hboth.2.2.2⟩ fun e he => hd e (List.mem_cons_of_mem _ he)
        refine ⟨hreads, fun h => ?_⟩
        rw [hletters h]
    · rw [if_neg hc, if_neg hc]
      exact ⟨rfl, nofun⟩

private theorem placeFrom_same {b b' : Buf} {l : List Nat} (h : SameText b b' o l) (hd : ∀ c ∈ d, c ≠ 0) :
    placeFrom b d l.length o = placeFrom b' d l.length o ∧
      ∀ p ∈ placeFrom b d l.length o, lettersFrom b d p = lettersFrom b' d p := by
  induction l generalizing o with
  | nil => exact ⟨rfl, nofun⟩
  | cons c l ih =>
    have hrest : SameText b b' (o + 1) l := ⟨h.1.2.2, h.2.2.2⟩
    obtain ⟨hreads, hletters⟩ := readsDial_same hrest hd
    rw [List.length_cons]
    unfold placeFrom
    rw [h.1.1, h.2.1, ← hreads]
    split_ifs with hc
    · refine ⟨rfl, fun p hp => ?_⟩
      cases hp
      exact hletters hc.2
    · exact ih hrest

/-- What is restored of a dial string depends on the original line alone. -/
theorem restored_congr {b b' : Buf} {l : List Nat} (hb : b.Text 0 l) (hb' : b'.Text 0 l) (hlen : l.length ≤ maxCmdLen)
    (hd : ∀ c ∈ d, c ≠ 0) : restored b d = restored b' d := by
  obtain ⟨hplace, hletters⟩ := placeFrom_same ⟨hb, hb'⟩ hd
  unfold restored firstPlace
  rw [hb.str (by omega), hb'.str (by omega), ← hplace]
  split_ifs
  · cases hp : placeFrom b d l.length 0 with
    | none => rfl
    | some o => exact hletters o hp
  · rfl

end

end Citrine.Aci
