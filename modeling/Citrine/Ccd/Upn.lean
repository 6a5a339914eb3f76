import Citrine.Bf.Bitfun

/-!
# Terms in postfix notation

Conditions and numbers of repetitions are calculated by terms in postfix notation (`calcUPN`) over a stack of twenty values.
All operations on the stack go through one check (`stCheck`), that is meant for a push: it sets the overflow flag when there is
no place for one more value, also when a value is taken from the full stack.  So a term is calculated as it should be
(`Pure.eval`) just when it never fills the stack (`calcUPN_iff`).
-/

namespace Citrine.Ccd.Upn

/-! ### Operations -/

/-- The operations of two operands. -/
inductive Binary where
  | add | sub | mul | div | band | bor | and | or | xor | eq | neq | gt | lt
  deriving DecidableEq

/-- The operations that use the stack only. -/
inductive Pure where
  | binary (op : Binary)
  | const (v : BitVec 32)
  | dup
  | swap

/-- The labels that mark a part of a message for its errors. -/
inductive Label where
  | addrInfoPart | distribPart | nonDistribPart | messageEscape | ignore

/-- The operations of a term; `invalid` is any other one. -/
inductive Calc where
  | pure (op : Pure)
  | var (elem : Nat)
  | setBitpos
  | getBitpos
  | keep (reg : Nat)
  | takeL
  | take (reg : Nat)
  | compare (reg : Nat)
  | label (l : Label)
  | load (reg : Nat)
  | store (reg : Nat)
  | invalid

def truth (b : Bool) : BitVec 32 := if b then 1 else 0

/-- The value of an operation; a division is by a number that is not zero. -/
def Binary.apply (op1 op2 : BitVec 32) : Binary → BitVec 32
  | add => op1 + op2
  | sub => op1 - op2
  | mul => op1 * op2
  | div => op1 / op2
  | band => op1 &&& op2
  | bor => op1 ||| op2
  | and => truth (op1 ≠ 0 ∧ op2 ≠ 0)
  | or => truth (op1 ≠ 0 ∨ op2 ≠ 0)
  | xor => truth ((op1 ≠ 0 ∧ op2 = 0) ∨ (op1 = 0 ∧ op2 ≠ 0))
  | eq => truth (op1 = op2)
  | neq => truth (op1 ≠ op2)
  | gt => truth (op2 < op1)
  | lt => truth (op1 < op2)

/-! ### The state -/

/-- The size of a variable of the C-structure. -/
inductive CType where
  | byte | short | long | other

/-- An entry of the element table. -/
structure Melem where
  structOffs : Nat
  optional : Bool
  cType : CType

/-- The errors that are set, with the position. -/
inductive Error where
  | defectCcddata (pos : Nat)
  | labelled (l : Label) (pos : Nat)

/-- The part of `T_CCD_Globs` that terms use, with the two operands of the function. -/
structure Globs where
  sp : Nat
  stack : Nat → BitVec 32
  stackOvfl : Bool
  op1 : BitVec 32
  op2 : BitVec 32
  keepReg : Nat → BitVec 32
  bits : Bf.Globs
  pstruct : Nat → BitVec 8
  errLabel : Option Label
  /-- The `CCD_STORE` registers, if they have been allocated. -/
  sto : Option (Nat → BitVec 32)
  jmpMarkSet : Bool
  errors : List Error

def update (f : Nat → BitVec 32) (i : Nat) (v : BitVec 32) : Nat → BitVec 32 := fun j => if j = i then v else f j

/-! ### The stack -/

/-- `ST_CHECK`, with `MAX_UPN_STACK_SIZE`. -/
def stCheck (act : Globs → Globs) (g : Globs) : Globs :=
  if !g.stackOvfl ∧ g.sp < 20 then act g else { g with stackOvfl := true }

/-- `ST_PUSH` -/
def stPush (v : BitVec 32) : Globs → Globs :=
  stCheck fun g => { g with stack := update g.stack g.sp v, sp := (g.sp + 1) % 256 }

/-- `ST_POP`; `SP` is a `UBYTE`. -/
def stPop (set : BitVec 32 → Globs → Globs) : Globs → Globs :=
  stCheck fun g => set (g.stack ((g.sp + 255) % 256)) { g with sp := (g.sp + 255) % 256 }

/-- `ST_TOP` -/
def stTop (set : BitVec 32 → Globs → Globs) : Globs → Globs := stCheck fun g => set (g.stack (g.sp - 1)) g

def setOp1 (v : BitVec 32) (g : Globs) : Globs := { g with op1 := v }

def setOp2 (v : BitVec 32) (g : Globs) : Globs := { g with op2 := v }

/-! ### Calculation -/

/-- `ccd_setError` with the action `BREAK`, that leaves the coding by a long jump if there is a mark for it. -/
def setErrorBreak (pos : Nat) (g : Globs) : Option Globs :=
  let g := { g with errors := (match g.errLabel with
    | some l => .labelled l pos
    | none => .defectCcddata pos) :: g.errors }
  if g.jmpMarkSet then none else some g

/-- A variable of the C-structure, the least significant octet first. -/
def readVar (pstruct : Nat → BitVec 8) (p : Nat) : CType → BitVec 32
  | .byte => (pstruct p).setWidth 32
  | .short => (pstruct (p + 1) ++ pstruct p).setWidth 32
  | .long => pstruct (p + 3) ++ pstruct (p + 2) ++ (pstruct (p + 1) ++ pstruct p)
  | .other => 0

/-- An operation of two operands. -/
def binary (op : Binary) (g : Globs) : Option Globs :=
  if g.sp ≥ 2 then
    let g := stPop setOp2 g
    match op with
    | .div =>
      if g.op2 = 0 then setErrorBreak g.bits.bitpos g
      else
        let g := stPop setOp1 g
        some (stPush (g.op1 / g.op2) g)
    | op =>
      let g := stPop setOp1 g
      some (stPush (op.apply g.op1 g.op2) g)
  else some g

/-- One operation of `calcUPN`, with `opError`. -/
def calculate (melem : Nat → Melem) (g : Globs) : Calc → Option (Bool × Globs)
  | .pure (.binary op) => (binary op g).map (false, ·)
  | .pure (.const v) => some (false, stPush v g)
  | .pure .dup =>
    if g.sp ≥ 1 then
      let g := stTop setOp1 g
      some (false, stPush g.op1 g)
    else some (false, g)
  | .pure .swap =>
    if g.sp ≥ 2 then
      let g := stPop setOp2 (stPop setOp1 g)
      some (false, stPush g.op2 (stPush g.op1 g))
    else some (false, g)
  | .var elem =>
    let m := melem (elem % 65536)
    if m.optional then
      if g.pstruct m.structOffs = 0 then some (false, stPush 0 g)
      else some (false, stPush (readVar g.pstruct (m.structOffs + 1) m.cType) g)
    else some (false, stPush (readVar g.pstruct m.structOffs m.cType) g)
  | .setBitpos =>
    if g.sp ≥ 1 then
      let g := stPop setOp1 g
      some (false, { g with bits := Bf.setBitpos g.op1.toNat g.bits })
    else some (false, g)
  | .getBitpos => some (false, stPush (BitVec.ofNat 32 g.bits.bitpos) g)
  | .keep reg =>
    if g.sp ≥ 1 then
      let g := stPop setOp1 g
      some (false, { g with keepReg := update g.keepReg reg g.op1 })
    else some (false, g)
  | .takeL => some (false, stPush (g.keepReg 0 * 8) g)
  | .take reg => some (false, stPush (g.keepReg reg) g)
  | .compare reg =>
    if g.sp ≥ 1 then
      let g := stPop setOp1 g
      some (false, if g.keepReg reg < g.op1 then { g with keepReg := update g.keepReg reg g.op1 } else g)
    else some (false, g)
  | .label l => some (false, { g with errLabel := some l })
  | .load reg =>
    if reg < 3 then
      match g.sto with
      | some sto => some (false, stPush (sto reg) { g with op1 := sto reg })
      | none => some (true, g)
    else some (true, g)
  | .store reg =>
    if g.sp ≥ 1 then
      let g := stPop setOp1 g
      if reg < 3 then
        match g.sto with
        | some sto => some (false, { g with sto := some (update sto reg g.op1) })
        -- the registers that are allocated here are not entered into the list
        | none => some (false, g)
      else some (true, g)
    else some (false, g)
  | .invalid => some (true, g)

/-- The loop of `calcUPN`. -/
def operations (melem : Nat → Melem) : List Calc → Globs → Option (Bool × Globs)
  | [], g => some (false, g)
  | c :: cs, g =>
    if g.stackOvfl then some (false, g)
    else (calculate melem g c).bind fun r => if r.1 then some r else operations melem cs r.2

/-- `calcUPN`, for a caller that wants the result: what it returns, the result and the state.  Without a value the function is
left by a long jump. -/
def calcUPN (melem : Nat → Melem) (ops : List Calc) (result : BitVec 32) (g : Globs) : Option (Bool × BitVec 32 × Globs) :=
  (operations melem ops { g with op1 := 0, op2 := 0 }).map fun (opError, g) =>
    if !opError ∧ !g.stackOvfl then
      let g := stPop setOp1 { g with op1 := result }
      (!g.stackOvfl, g.op1, g)
    else (false, result, g)

/-! ### What terms mean -/

/-- An operation on a stack whose first value is the upper one; it needs its operands, and no division is by zero. -/
def Pure.eval : Pure → List (BitVec 32) → Option (List (BitVec 32))
  | binary op, b :: a :: st => if op = .div ∧ b = 0 then none else some (op.apply a b :: st)
  | const v, st => some (v :: st)
  | dup, a :: st => some (a :: a :: st)
  | swap, b :: a :: st => some (a :: b :: st)
  | _, _ => none

/-- A term, from a stack on. -/
def evalTerm : List Pure → List (BitVec 32) → Option (List (BitVec 32))
  | [], st => some st
  | c :: cs, st => (c.eval st).bind (evalTerm cs)

/-- The stack never holds more than some values. -/
def within (n : Nat) : List Pure → List (BitVec 32) → Bool
  | [], st => st.length ≤ n
  | c :: cs, st => st.length ≤ n && (c.eval st).all (within n cs)

/-! ### The stack of the code -/

/-- An array has the values of a stack. -/
def Holds (f : Nat → BitVec 32) : List (BitVec 32) → Prop
  | [] => True
  | x :: st => f st.length = x ∧ Holds f st

/-- The code has a stack, and nothing has overflown. -/
structure Shows (g : Globs) (st : List (BitVec 32)) : Prop where
  sp : g.sp = st.length
  stackOvfl : g.stackOvfl = false
  holds : Holds g.stack st

section
variable {g : Globs} {st st' fin : List (BitVec 32)} {x v : BitVec 32} {c : Pure} {cs : List Pure} {melem : Nat → Melem}

private theorem Holds.update {f : Nat → BitVec 32} {i : Nat} (h : Holds f st) (hi : st.length ≤ i) : Holds (update f i v) st := by
  induction st with
  | nil => exact trivial
  | cons y st ih =>
    have hlt : st.length < i := hi
    refine ⟨?_, ih h.2 (by omega)⟩
    unfold Upn.update
    rw [if_neg (by omega)]
    exact h.1

private theorem stPush_shows (h : Shows g st) (hn : st.length < 20) : Shows (stPush v g) (v :: st) := by
  have hsp := h.sp
  have hpush : stPush v g = { g with stack := update g.stack g.sp v, sp := (g.sp + 1) % 256 } :=
    if_pos ⟨by rw [h.stackOvfl]; rfl, by omega⟩
  rw [hpush]
  refine ⟨?_, h.stackOvfl, ?_, h.holds.update (by omega)⟩
  · change (g.sp + 1) % 256 = st.length + 1
    omega
  · change update g.stack g.sp v st.length = v
    exact if_pos hsp.symm

private theorem stPop_eq (h : Shows g (x :: st)) (hn : st.length + 1 < 20) (set : BitVec 32 → Globs → Globs) :
    stPop set g = set x { g with sp := st.length } := by
  have hsp : g.sp = st.length + 1 := h.sp
  have hpos : (g.sp + 255) % 256 = st.length := by omega
  have hpop : stPop set g = set (g.stack ((g.sp + 255) % 256)) { g with sp := (g.sp + 255) % 256 } :=
    if_pos ⟨by rw [h.stackOvfl]; rfl, by omega⟩
  rw [hpop, hpos, h.holds.1]

private theorem popped_shows (h : Shows g (x :: st)) : Shows { g with sp := st.length } st := ⟨rfl, h.stackOvfl, h.holds.2⟩

private theorem setOp1_shows (h : Shows g st) : Shows (setOp1 x g) st := ⟨h.sp, h.stackOvfl, h.holds⟩

private theorem setOp2_shows (h : Shows g st) : Shows (setOp2 x g) st := ⟨h.sp, h.stackOvfl, h.holds⟩

/-- An overflow stays. -/
private theorem stCheck_stuck {act : Globs → Globs} (h : g.stackOvfl = true) : stCheck act g = g := by
  unfold stCheck
  rw [h, if_neg fun hno => Bool.false_ne_true hno.1]
  cases g
  cases h
  rfl

/-- Nothing is taken from the full stack. -/
private theorem stPop_full {set : BitVec 32 → Globs → Globs} (h : 20 ≤ g.sp) : stPop set g = { g with stackOvfl := true } :=
  if_neg fun hno => absurd hno.2 (by omega)

/-! ### Operations -/

private theorem binary_shows {op : Binary} {a b : BitVec 32} (h : Shows g (b :: a :: st)) (hn : st.length + 2 < 20)
    (hdiv : ¬ (op = .div ∧ b = 0)) : ∃ g', binary op g = some g' ∧ Shows g' (op.apply a b :: st) := by
  have hsp : g.sp = st.length + 2 := h.sp
  have h₂ := setOp2_shows (x := b) (popped_shows h)
  have h₁ := setOp1_shows (x := a) (popped_shows h₂)
  have hpop₂ := stPop_eq h (by exact hn) setOp2
  have hpop₁ := stPop_eq h₂ (by omega) setOp1
  unfold binary
  rw [if_pos (by omega)]
  simp only
  rw [hpop₂, hpop₁]
  cases op with
  | div =>
    have hb : ¬ b = 0 := fun hb => hdiv ⟨rfl, hb⟩
    refine ⟨_, if_neg hb, ?_⟩
    exact stPush_shows h₁ (by omega)
  | _ => exact ⟨_, rfl, stPush_shows h₁ (by omega)⟩

/-- An operation has its effect on a stack that is not full. -/
theorem calculate_shows (melem : Nat → Melem) (h : Shows g st) (hn : st.length < 20) (heval : c.eval st = some st') :
    ∃ g', calculate melem g (.pure c) = some (false, g') ∧ Shows g' st' := by
  have hsp := h.sp
  cases c with
  | binary op =>
    match st, heval with
    | b :: a :: st, heval =>
      have heval : (if op = .div ∧ b = 0 then none else some (op.apply a b :: st)) = some st' := heval
      split at heval
      · cases heval
      · rename_i hdiv
        cases heval
        obtain ⟨g', hg, hshows⟩ := binary_shows h hn hdiv
        refine ⟨g', ?_, hshows⟩
        change (binary op g).map (false, ·) = _
        rw [hg]
        rfl
  | const v =>
    cases heval
    exact ⟨_, rfl, stPush_shows h hn⟩
  | dup =>
    match st, heval with
    | a :: st, heval =>
      cases heval
      have hlen : g.sp = st.length + 1 := hsp
      have htop : stTop setOp1 g = setOp1 a g := by
        have hcheck : stTop setOp1 g = setOp1 (g.stack (g.sp - 1)) g := if_pos ⟨by rw [h.stackOvfl]; rfl, by omega⟩
        rw [hcheck, show g.sp - 1 = st.length by omega, h.holds.1]
      have h₁ := setOp1_shows (x := a) h
      unfold calculate
      rw [if_pos (show g.sp ≥ 1 by omega)]
      simp only
      rw [htop]
      exact ⟨_, rfl, stPush_shows h₁ hn⟩
  | swap =>
    match st, heval with
    | b :: a :: st, heval =>
      cases heval
      have hlen : g.sp = st.length + 2 := hsp
      have hfew : st.length + 2 < 20 := hn
      have h₁ := setOp1_shows (x := b) (popped_shows h)
      have h₂ := setOp2_shows (x := a) (popped_shows h₁)
      have hpop₁ := stPop_eq h hn setOp1
      have hpop₂ := stPop_eq h₁ (by omega) setOp2
      unfold calculate
      rw [if_pos (show g.sp ≥ 2 by omega)]
      simp only
      rw [hpop₁, hpop₂]
      exact ⟨_, rfl, stPush_shows (stPush_shows h₂ (by omega)) (by change st.length + 1 < 20; omega)⟩

private theorem setErrorBreak_stackOvfl {pos : Nat} {g' : Globs} (h : setErrorBreak pos g = some g') :
    g'.stackOvfl = g.stackOvfl := by
  have h : (if g.jmpMarkSet then none else some _) = some g' := h
  split at h
  · cases h
  · cases h
    rfl

private theorem binary_full {op : Binary} {g' : Globs} (hn : 20 ≤ g.sp) (h : binary op g = some g') : g'.stackOvfl = true := by
  obtain ⟨u, hu, hovfl⟩ : ∃ u, stPop setOp2 g = u ∧ u.stackOvfl = true := ⟨_, stPop_full hn, rfl⟩
  have hpop : stPop setOp1 u = u := stCheck_stuck hovfl
  have hpush : ∀ w, stPush w u = u := fun w => stCheck_stuck hovfl
  unfold binary at h
  rw [if_pos (show g.sp ≥ 2 by omega)] at h
  simp only [hu, hpop, hpush] at h
  cases op with
  | div =>
    simp only at h
    split at h
    · exact (setErrorBreak_stackOvfl h).trans hovfl
    · cases h
      exact hovfl
  | _ =>
    cases h
    exact hovfl

/-- An operation on the full stack, that does not need more places, leaves an overflow. -/
theorem calculate_full (h : Shows g st) (hn : st.length = 20) (heval : c.eval st = some st') (hle : st'.length ≤ 20) :
    ∀ r, calculate melem g (.pure c) = some r → r.1 = false ∧ r.2.stackOvfl = true := by
  have hsp := h.sp
  intro r hr
  cases c with
  | binary op =>
    obtain ⟨g', hg, hout⟩ := Option.map_eq_some_iff.1 hr
    cases hout
    exact ⟨rfl, binary_full (by omega) hg⟩
  | const v =>
    cases heval
    exact absurd hle (by rw [List.length_cons]; omega)
  | dup =>
    match st, heval with
    | a :: st, heval =>
      cases heval
      exact absurd hle (by rw [List.length_cons]; omega)
  | swap =>
    obtain ⟨u, hu, hovfl⟩ : ∃ u, stPop setOp1 g = u ∧ u.stackOvfl = true := ⟨_, stPop_full (by omega), rfl⟩
    have hpop : stPop setOp2 u = u := stCheck_stuck hovfl
    have hpush : ∀ w, stPush w u = u := fun w => stCheck_stuck hovfl
    unfold calculate at hr
    rw [if_pos (show g.sp ≥ 2 by omega)] at hr
    simp only [hu, hpop, hpush] at hr
    cases hr
    exact ⟨rfl, hovfl⟩

/-! ### Terms -/

private theorem within_cons {n : Nat} (h : within n (c :: cs) st = true) (heval : c.eval st = some st') :
    st.length ≤ n ∧ within n cs st' = true := by
  obtain ⟨hle, hall⟩ := Bool.and_eq_true_iff.1 h
  rw [heval, Option.all_some] at hall
  exact ⟨of_decide_eq_true hle, hall⟩

private theorem within_length {n : Nat} (h : within n cs st = true) : st.length ≤ n := by
  cases cs with
  | nil => exact of_decide_eq_true h
  | cons c cs => exact of_decide_eq_true (Bool.and_eq_true_iff.1 h).1

/-- A term that does not fill the stack has its effect on it. -/
theorem operations_shows (melem : Nat → Melem) (h : Shows g st) (heval : evalTerm cs st = some fin) (hfit : within 19 cs st = true) :
    ∃ g', operations melem (cs.map .pure) g = some (false, g') ∧ Shows g' fin := by
  induction cs generalizing g st with
  | nil =>
    cases heval
    exact ⟨g, rfl, h⟩
  | cons c cs ih =>
    obtain ⟨st', hc, hcs⟩ := Option.bind_eq_some_iff.1 heval
    obtain ⟨hle, hrest⟩ := within_cons hfit hc
    obtain ⟨g', hg, hshows⟩ := calculate_shows melem h (by omega) hc
    obtain ⟨g'', hg', hfin⟩ := ih hshows hcs hrest
    refine ⟨g'', ?_, hfin⟩
    rw [List.map_cons]
    unfold operations
    rw [h.stackOvfl, if_neg Bool.false_ne_true, hg, Option.bind_some, if_neg Bool.false_ne_true]
    exact hg'

private theorem operations_stuck {ops : List Calc} (h : g.stackOvfl = true) : operations melem ops g = some (false, g) := by
  cases ops with
  | nil => rfl
  | cons c ops => exact if_pos h

/-- A term that fills the stack ends with an overflow. -/
theorem operations_full (h : Shows g st) (heval : evalTerm cs st = some fin) (hfin : fin.length < 20)
    (hfit : within 20 cs st = true) (hfull : within 19 cs st ≠ true) :
    ∀ r, operations melem (cs.map .pure) g = some r → r.1 = false ∧ r.2.stackOvfl = true := by
  induction cs generalizing g st with
  | nil =>
    cases heval
    exact absurd (decide_eq_true (by omega)) hfull
  | cons c cs ih =>
    intro r hr
    obtain ⟨st', hc, hcs⟩ := Option.bind_eq_some_iff.1 heval
    obtain ⟨hle, hrest⟩ := within_cons hfit hc
    rw [List.map_cons] at hr
    unfold operations at hr
    rw [h.stackOvfl, if_neg Bool.false_ne_true] at hr
    if hn : st.length = 20 then
      obtain ⟨q, hq, hr⟩ := Option.bind_eq_some_iff.1 hr
      obtain ⟨herr, hovfl⟩ := calculate_full h hn hc (within_length hrest) q hq
      rw [herr, if_neg Bool.false_ne_true, operations_stuck hovfl] at hr
      cases hr
      exact ⟨rfl, hovfl⟩
    else
      obtain ⟨g', hg, hshows⟩ := calculate_shows melem h (by omega) hc
      rw [hg, Option.bind_some, if_neg Bool.false_ne_true] at hr
      refine ih hshows hcs hrest (fun hno => hfull ?_) r hr
      refine Bool.and_eq_true_iff.2 ⟨decide_eq_true (by omega), ?_⟩
      rw [hc, Option.all_some]
      exact hno

/-- A term with a value is calculated and leaves the stack empty just when it never fills the stack. -/
theorem calcUPN_iff {result : BitVec 32} (heval : evalTerm cs [] = some [v]) (hfit : within 20 cs [] = true) (hsp : g.sp = 0)
    (hovfl : g.stackOvfl = false) :
    (∃ g', calcUPN melem (cs.map .pure) result g = some (true, v, g') ∧ g'.sp = 0 ∧ g'.stackOvfl = false) ↔
      within 19 cs [] = true := by
  have hstart : Shows { g with op1 := 0, op2 := 0 } [] := ⟨hsp, hovfl, trivial⟩
  constructor
  · rintro ⟨g', hcalc, -, -⟩
    refine Decidable.not_not.1 fun hfull => ?_
    obtain ⟨⟨opError, u⟩, hu, hout⟩ := Option.map_eq_some_iff.1 hcalc
    obtain ⟨-, hstuck⟩ := operations_full hstart heval (show 1 < 20 by omega) hfit hfull _ hu
    have hstuck : u.stackOvfl = true := hstuck
    simp only [hstuck, Bool.not_true, Bool.false_eq_true, and_false, if_false] at hout
    cases hout
  · intro hroom
    obtain ⟨g', hops, hshows⟩ := operations_shows melem hstart heval hroom
    have hlast : Shows { g' with op1 := result } [v] := ⟨hshows.sp, hshows.stackOvfl, hshows.holds⟩
    have hpop := stPop_eq hlast (show 0 + 1 < 20 by omega) setOp1
    refine ⟨setOp1 v { g' with op1 := result, sp := 0 }, ?_, rfl, hshows.stackOvfl⟩
    unfold calcUPN
    rw [hops, Option.map_some]
    simp only
    rw [if_pos ⟨rfl, by rw [hshows.stackOvfl]; rfl⟩, hpop]
    change some (!g'.stackOvfl, v, _) = _
    rw [hshows.stackOvfl]
    rfl

/-- A state with an empty stack. -/
def start : Globs :=
  ⟨0, fun _ => 0, false, 0, 0, fun _ => 0, Bf.commonDecodeInit (fun _ => 0) 0, fun _ => 0, none, none, true, []⟩

/-- The difference of 8 and 3, eight times its sum with itself. -/
def someTerm : List Pure := [.const 8, .const 3, .binary .sub, .dup, .binary .add, .const 8, .swap, .binary .mul]

theorem someTerm_calculated : ∃ g', calcUPN (fun _ => ⟨0, false, .byte⟩) (someTerm.map .pure) 0 start = some (true, 80, g') ∧
    g'.sp = 0 ∧ g'.stackOvfl = false :=
  (calcUPN_iff (by decide) (by decide) rfl rfl).2 (by decide)

/-- The sum of twenty ones, that are all on the stack first. -/
def twenty : List Pure := List.replicate 20 (.const 1) ++ List.replicate 19 (.binary .add)

theorem twenty_fails : evalTerm twenty [] = some [20] ∧ within 20 twenty [] = true ∧
    (calcUPN (fun _ => ⟨0, false, .byte⟩) (twenty.map .pure) 0 start).map (·.1) = some false := by
  decide +kernel

end

end Citrine.Ccd.Upn
