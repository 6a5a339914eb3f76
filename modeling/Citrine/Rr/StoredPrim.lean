import Mathlib.Data.List.Perm.Basic
import Mathlib.Logic.Function.Basic
import Mathlib.Tactic.ByContra
import Citrine.Lib.Machine
import Citrine.Lib.RingBuffer

/-!
# Stored primitives

`rr_srv.c`: primitives that RR cannot handle yet wait in a ring buffer until they are sent again.  The handler of such a
primitive may store, clear and send again in turn, so that the loops of `srv_use_stored_prim` can be active one within the
other.  Each primitive stored is numbered, and what becomes of it is recorded under its number.
-/

namespace Citrine.Rr

open RingBuffer

/-! ### The code -/

/-- `MAX_RR_STORED_PRIM` -/
def maxRrStoredPrim : Nat := 10

/-- `MPH_PAGING_IND` -/
def mphPagingInd : Nat := 0x1706

/-- `T_PRIM`: the pointer and the opcode. -/
structure Prim where
  ptr : Nat
  opc : Nat
  deriving DecidableEq, Repr

/-- A primitive with its number. -/
structure Stored where
  no : Nat
  prim : Prim
  deriving DecidableEq, Repr

/-- The fields of `rr_data` and of the entity data that the functions use. -/
structure RrData where
  storedPrim : Nat → Option Stored
  storedPrimIn : Nat
  storedPrimOut : Nat
  storedPrimRead : Nat
  storedPrimWrite : Nat
  pagRec : Bool
  useStoredEntries : Bool

namespace RrData

/-- `srv_store_prim` -/
def storePrim (prim : Stored) (s : RrData) : Bool × RrData :=
  if s.storedPrimRead + s.storedPrimWrite ≥ maxRrStoredPrim then (false, s)
  else
    let storedPrimIn := (s.storedPrimIn + 1) % 256
    (true, { s with
      storedPrim := Function.update s.storedPrim s.storedPrimIn (some prim)
      storedPrimIn := if storedPrimIn = maxRrStoredPrim then 0 else storedPrimIn
      storedPrimWrite := (s.storedPrimWrite + 1) % 256 })

/-- `srv_use_stored_prim` up to its loop, and whether it comes to the loop. -/
def useStoredPrim (s : RrData) : Bool × RrData :=
  let s := { s with useStoredEntries := false }
  if s.storedPrimWrite > 0 then
    (true, { s with storedPrimRead := (s.storedPrimRead + s.storedPrimWrite) % 256, storedPrimWrite := 0 })
  else (false, s)

/-- The loop of `srv_use_stored_prim` up to the call of `rr_pei_primitive`, with its argument; `none` when it ends. -/
def nextStoredPrim (s : RrData) : Option (Option Stored × RrData) :=
  if s.storedPrimRead ≠ 0 then
    let prim := s.storedPrim s.storedPrimOut
    let storedPrimOut := (s.storedPrimOut + 1) % 256
    some (prim, { s with
      storedPrimRead := s.storedPrimRead - 1
      storedPrim := Function.update s.storedPrim s.storedPrimOut none
      storedPrimOut := if storedPrimOut = maxRrStoredPrim then 0 else storedPrimOut
      pagRec := if prim.any fun p => p.prim.opc == mphPagingInd then false else s.pagRec })
  else none

/-- The loop of `srv_clear_stored_prim`, with the primitives released. -/
def clearLoop (opc : Nat) : Nat → Nat → (Nat → Option Stored) → (Nat → Option Stored) × List Stored
  | 0, _, storedPrim => (storedPrim, [])
  | i + 1, out, storedPrim =>
    let next := if out + 1 = maxRrStoredPrim then 0 else out + 1
    match storedPrim out with
    | some p =>
      if p.prim.opc = opc then
        let r := clearLoop opc i next (Function.update storedPrim out none)
        (r.1, p :: r.2)
      else clearLoop opc i next storedPrim
    | none => clearLoop opc i next storedPrim

/-- `srv_clear_stored_prim`, with the primitives released. -/
def clearStoredPrim (opc : Nat) (s : RrData) : RrData × List Stored :=
  if s.storedPrimRead + s.storedPrimWrite > 0 then
    let r := clearLoop opc (s.storedPrimRead + s.storedPrimWrite) s.storedPrimOut s.storedPrim
    ({ s with storedPrim := r.1 }, r.2)
  else (s, [])

/-- The loop of `srv_check_stored_prim`. -/
def checkLoop (opc : Nat) (storedPrim : Nat → Option Stored) : Nat → Nat → Bool
  | 0, _ => false
  | i + 1, out =>
    if (storedPrim out).any fun p => p.prim.opc == opc then true
    else checkLoop opc storedPrim i (if out + 1 = maxRrStoredPrim then 0 else out + 1)

/-- `srv_check_stored_prim` -/
def checkStoredPrim (opc : Nat) (s : RrData) : Bool :=
  if s.storedPrimRead + s.storedPrimWrite > 0 then
    checkLoop opc s.storedPrim (s.storedPrimRead + s.storedPrimWrite) s.storedPrimOut
  else false

end RrData

/-! ### Runs -/

/-- The stored primitives with a record: the primitives stored successfully, by number; those delivered, each with the
number of primitives that were stored when its replay began; and those released, each with the opcode to clear.  A
replay that is active is given by that number, the innermost one first; its loop has called `rr_pei_primitive`. -/
structure Replays where
  data : RrData
  replays : List Nat
  stored : List Prim
  delivered : List (Stored × Nat)
  freed : List (Stored × Nat)

inductive PrimEvent where
  | store (prim : Prim)
  | clear (opc : Nat)
  | use
  /-- `rr_pei_primitive` returns to the innermost replay. -/
  | handled
  deriving DecidableEq, Repr

/-- The loop of a replay goes on: the next primitive is delivered, or the replay ends. -/
def Replays.loop (begin : Nat) (outer : List Nat) (s : Replays) : Replays :=
  match s.data.nextStoredPrim with
  | some (some prim, data) =>
    { s with data := data, replays := begin :: outer, delivered := s.delivered ++ [(prim, begin)] }
  | some (none, data) => { s with data := data, replays := begin :: outer }
  | none => { s with replays := outer }

def Replays.step (s : Replays) : PrimEvent → Option Replays
  | .store prim =>
    match s.data.storePrim ⟨s.stored.length, prim⟩ with
    | (true, data) => some { s with data := data, stored := s.stored ++ [prim] }
    | (false, data) => some { s with data := data }
  | .clear opc =>
    let (data, prims) := s.data.clearStoredPrim opc
    some { s with data := data, freed := s.freed ++ prims.map fun p => (p, opc) }
  | .use =>
    match s.data.useStoredPrim with
    | (true, data) => some (Replays.loop s.stored.length s.replays { s with data := data })
    | (false, data) => some { s with data := data }
  | .handled =>
    match s.replays with
    | [] => none
    | begin :: outer => some (s.loop begin outer)

/-- The runs, from an empty buffer. -/
def storedPrims : Machine Replays PrimEvent where
  init s := s.data.storedPrimIn = 0 ∧ s.data.storedPrimOut = 0 ∧ s.data.storedPrimRead = 0 ∧ s.data.storedPrimWrite = 0 ∧
    (∀ i, s.data.storedPrim i = none) ∧ s.replays = [] ∧ s.stored = [] ∧ s.delivered = [] ∧ s.freed = []
  step := Replays.step

/-! ### The primitives that wait -/

/-- The primitives in a list of slots. -/
def waiting (ring : List (Option Stored)) : List Stored := ring.filterMap id

section
variable {ring ring' done rest : List (Option Stored)} {p q : Stored} {opc : Nat} {slot : Nat → Option Stored} {ri : Nat}

@[simp] theorem waiting_nil : waiting [] = [] := rfl

@[simp] theorem waiting_some : waiting (some p :: ring) = p :: waiting ring := rfl

theorem waiting_append : waiting (ring ++ ring') = waiting ring ++ waiting ring' := List.filterMap_append

private theorem mem_waiting_take {n : Nat} (h : p ∈ waiting (ring.take n)) : p ∈ waiting ring := by
  rw [← List.take_append_drop n ring, waiting_append]
  exact List.mem_append_left _ h

/-- The slots once an opcode is cleared. -/
def clearSlots (opc : Nat) (ring : List (Option Stored)) : List (Option Stored) :=
  ring.map (Option.filter fun p => !p.prim.opc == opc)

private theorem waiting_clearSlots : waiting (clearSlots opc ring) = (waiting ring).filter fun p => !p.prim.opc == opc := by
  induction ring with
  | nil => rfl
  | cons a ring ih =>
    change waiting (Option.filter _ a :: clearSlots opc ring) = _
    cases a with
    | none => exact ih
    | some p =>
      rw [waiting_some, List.filter_cons, ← ih, Option.filter_some]
      split
      · rfl
      · rfl

/-- The loop of `srv_clear_stored_prim` over the slots behind the first ones. -/
private theorem clearLoop_spec (h : Filled slot maxRrStoredPrim ri (done ++ rest)) :
    Filled (RrData.clearLoop opc rest.length (place maxRrStoredPrim ri done.length) slot).1 maxRrStoredPrim ri
        (done ++ clearSlots opc rest) ∧
      (RrData.clearLoop opc rest.length (place maxRrStoredPrim ri done.length) slot).2 =
        (waiting rest).filter fun p => p.prim.opc == opc := by
  induction rest generalizing done slot with
  | nil => exact ⟨h, rfl⟩
  | cons a rest ih =>
    have hlen := h.length_le
    rw [List.length_append, List.length_cons] at hlen
    have ha := h.get done.length (by simp)
    rw [List.getElem_append_right (Nat.le_refl _)] at ha
    simp only [Nat.sub_self, List.getElem_cons_zero] at ha
    have hnext : (if place maxRrStoredPrim ri done.length + 1 = maxRrStoredPrim then 0
        else place maxRrStoredPrim ri done.length + 1) = place maxRrStoredPrim ri (done.length + 1) :=
      next_place_counted h.ri_lt (by omega)
    have hmove : ∀ b, done ++ b :: rest = (done ++ [b]) ++ rest := fun b => by
      rw [List.append_assoc]
      rfl
    rw [List.length_cons]
    unfold RrData.clearLoop
    rw [hnext, ha]
    cases a with
    | none =>
      rw [hmove] at h
      have := ih h
      rw [List.length_append, List.length_singleton, List.append_assoc] at this
      exact this
    | some p =>
      dsimp only
      by_cases hp : p.prim.opc = opc
      · have h' := h.set (Function.update slot (place maxRrStoredPrim ri done.length) none)
          (Function.update_self ..) fun i hi => Function.update_of_ne hi ..
        rw [hmove] at h'
        have := ih h'
        rw [List.length_append, List.length_singleton, List.append_assoc] at this
        rw [if_pos hp]
        refine ⟨?_, ?_⟩
        · have hs : Option.filter (fun p => !p.prim.opc == opc) (some p) = none := by
            simp [Option.filter, hp]
          change Filled _ _ _ (done ++ Option.filter _ (some p) :: clearSlots opc rest)
          rw [hs]
          exact this.1
        · rw [waiting_some, List.filter_cons, if_pos (beq_iff_eq.2 hp)]
          exact congrArg (p :: ·) this.2
      · rw [hmove] at h
        have := ih h
        rw [List.length_append, List.length_singleton, List.append_assoc] at this
        rw [if_neg hp]
        refine ⟨?_, ?_⟩
        · have hs : Option.filter (fun p => !p.prim.opc == opc) (some p) = some p := by
            simp [Option.filter, hp]
          change Filled _ _ _ (done ++ Option.filter _ (some p) :: clearSlots opc rest)
          rw [hs]
          exact this.1
        · rw [waiting_some, List.filter_cons, if_neg (by simpa using hp)]
          exact this.2

end

/-! ### The invariant -/

/-- The ring, and the record of the primitives. -/
structure Replays.Law (s : Replays) (ring : List (Option Stored)) : Prop where
  filled : Filled s.data.storedPrim maxRrStoredPrim s.data.storedPrimOut ring
  count : s.data.storedPrimRead + s.data.storedPrimWrite = ring.length
  storedPrimIn : s.data.storedPrimIn = place maxRrStoredPrim s.data.storedPrimOut ring.length
  /-- A primitive is the one that was stored under its number. -/
  numbered : ∀ p ∈ s.delivered.map Prod.fst ++ s.freed.map Prod.fst ++ waiting ring, s.stored[p.no]? = some p.prim
  /-- Each primitive stored is delivered once, released once or waits once. -/
  once : ((s.delivered.map Prod.fst ++ s.freed.map Prod.fst ++ waiting ring).map Stored.no).Perm
    (List.range s.stored.length)
  order : ((s.delivered.map Prod.fst ++ waiting ring).map Stored.no).Pairwise (· < ·)
  opcode : ∀ r ∈ s.freed, r.1.prim.opc = r.2
  begun : ∀ r ∈ s.delivered, r.1.no < r.2
  /-- What the innermost replay still has to deliver was stored before it began. -/
  old : ∀ b, s.replays.head? = some b → ∀ p ∈ waiting (ring.take s.data.storedPrimRead), p.no < b
  new : ∀ b ∈ s.replays, ∀ p ∈ waiting (ring.drop s.data.storedPrimRead), b ≤ p.no
  begins : ∀ b ∈ s.replays, b ≤ s.stored.length
  idle : s.replays = [] → s.data.storedPrimRead = 0

section
variable {s t : Replays} {ring : List (Option Stored)} {prim : Prim} {p : Stored} {opc begin : Nat} {outer : List Nat}

private theorem Replays.Law.no_lt (h : s.Law ring)
    (hp : p ∈ s.delivered.map Prod.fst ++ s.freed.map Prod.fst ++ waiting ring) : p.no < s.stored.length := by
  have hget := h.numbered p hp
  by_contra hn
  rw [List.getElem?_eq_none (Nat.le_of_not_lt hn)] at hget
  cases hget

/-- A primitive is stored while there is room. -/
private theorem Replays.Law.store (h : s.Law ring) (prim : Prim) (hroom : ring.length < maxRrStoredPrim) :
    Replays.Law
      { s with
        data := (s.data.storePrim ⟨s.stored.length, prim⟩).2
        stored := s.stored ++ [prim] } (ring ++ [some ⟨s.stored.length, prim⟩]) := by
  have hcount := h.count
  have hlt : s.data.storedPrimIn < maxRrStoredPrim := by
    rw [h.storedPrimIn]
    exact place_lt h.filled.ri_lt hroom
  have hin : (if (s.data.storedPrimIn + 1) % 256 = maxRrStoredPrim then 0 else (s.data.storedPrimIn + 1) % 256) =
      next maxRrStoredPrim s.data.storedPrimIn := by
    rw [Nat.mod_eq_of_lt (by unfold maxRrStoredPrim at hlt; omega)]
    rfl
  unfold RrData.storePrim
  rw [if_neg (by omega)]
  dsimp only
  rw [hin]
  have hwait : waiting (ring ++ [some ⟨s.stored.length, prim⟩]) = waiting ring ++ [⟨s.stored.length, prim⟩] := by
    rw [waiting_append]
    rfl
  have hread : s.data.storedPrimRead ≤ ring.length := by omega
  constructor
  case filled =>
    refine h.filled.push _ hroom ?_ fun i hi => ?_
    · rw [← h.storedPrimIn]
      exact Function.update_self ..
    · rw [← h.storedPrimIn] at hi
      exact Function.update_of_ne hi ..
  case count =>
    rw [List.length_append, List.length_singleton]
    change s.data.storedPrimRead + (s.data.storedPrimWrite + 1) % 256 = _
    unfold maxRrStoredPrim at hroom
    omega
  case storedPrimIn =>
    rw [List.length_append, List.length_singleton]
    change next maxRrStoredPrim s.data.storedPrimIn = _
    rw [h.storedPrimIn, next_place_counted h.filled.ri_lt hroom]
  case numbered =>
    intro p hp
    rw [hwait, ← List.append_assoc, List.mem_append, List.mem_singleton] at hp
    change (s.stored ++ [prim])[p.no]? = _
    rcases hp with hp | rfl
    · rw [List.getElem?_append_left (h.no_lt hp)]
      exact h.numbered p hp
    · simp
  case once =>
    rw [hwait, ← List.append_assoc, List.map_append]
    change List.Perm _ (List.range (s.stored ++ [prim]).length)
    rw [List.length_append, List.length_singleton, List.range_succ]
    exact h.once.append_right _
  case order =>
    rw [hwait, ← List.append_assoc, List.map_append, List.pairwise_append]
    refine ⟨h.order, List.pairwise_singleton _ _, fun n hn m hm => ?_⟩
    obtain ⟨p, hp, rfl⟩ := List.mem_map.1 hn
    rw [List.mem_singleton.1 hm]
    refine h.no_lt (p := p) ?_
    rw [List.mem_append] at hp ⊢
    exact hp.imp_left fun hp => List.mem_append_left _ hp
  case opcode => exact h.opcode
  case begun => exact h.begun
  case old =>
    dsimp only
    rw [List.take_append_of_le_length hread]
    exact h.old
  case new =>
    dsimp only
    rw [List.drop_append_of_le_length hread, waiting_append]
    intro b hb p hp
    rcases List.mem_append.1 hp with hp | hp
    · exact h.new b hb p hp
    · rw [List.mem_singleton.1 hp]
      exact h.begins b hb
  case begins =>
    intro b hb
    have := h.begins b hb
    change b ≤ (s.stored ++ [prim]).length
    rw [List.length_append]
    omega
  case idle => exact h.idle

private theorem Replays.Law.clear_eq (h : s.Law ring) (opc : Nat) :
    Filled (s.data.clearStoredPrim opc).1.storedPrim maxRrStoredPrim s.data.storedPrimOut (clearSlots opc ring) ∧
      (∃ f, (s.data.clearStoredPrim opc).1 = { s.data with storedPrim := f }) ∧
      (s.data.clearStoredPrim opc).2 = (waiting ring).filter fun p => p.prim.opc == opc := by
  unfold RrData.clearStoredPrim
  rw [h.count]
  split
  · have hspec := @clearLoop_spec [] ring opc _ _ h.filled
    rw [List.length_nil, place_zero h.filled.ri_lt, List.nil_append] at hspec
    exact ⟨hspec.1, ⟨_, rfl⟩, hspec.2⟩
  · rename_i hempty
    have hnil : ring = [] := List.length_eq_zero_iff.1 (by omega)
    subst hnil
    exact ⟨h.filled, ⟨_, rfl⟩, rfl⟩

/-- An opcode is cleared. -/
private theorem Replays.Law.clear (h : s.Law ring) :
    Replays.Law
      { s with
        data := (s.data.clearStoredPrim opc).1
        freed := s.freed ++ (s.data.clearStoredPrim opc).2.map fun p => (p, opc) } (clearSlots opc ring) := by
  obtain ⟨hfilled, ⟨f, hdata⟩, hfreed⟩ := h.clear_eq opc
  rw [hfreed, hdata]
  rw [hdata] at hfilled
  have hlen : (clearSlots opc ring).length = ring.length := List.length_map _
  have hfst : (((waiting ring).filter fun p => p.prim.opc == opc).map fun p => (p, opc)).map Prod.fst =
      (waiting ring).filter fun p => p.prim.opc == opc := by
    rw [List.map_map]
    exact List.map_id _
  have hsub : ∀ n, ∀ p ∈ waiting (clearSlots opc (ring.take n)), p ∈ waiting (ring.take n) := by
    intro n p hp
    rw [waiting_clearSlots] at hp
    exact List.mem_of_mem_filter hp
  -- what is cleared and what still waits
  have hperm : ((s.freed ++ ((waiting ring).filter fun p => p.prim.opc == opc).map fun p => (p, opc)).map Prod.fst ++
      waiting (clearSlots opc ring)).Perm (s.freed.map Prod.fst ++ waiting ring) := by
    rw [List.map_append, hfst, waiting_clearSlots, List.append_assoc]
    exact (List.filter_append_perm (fun p : Stored => p.prim.opc == opc) (waiting ring)).append_left _
  constructor
  case filled => exact hfilled
  case count => rw [hlen]; exact h.count
  case storedPrimIn => rw [hlen]; exact h.storedPrimIn
  case numbered =>
    intro p hp
    refine h.numbered p ?_
    rw [List.append_assoc] at hp ⊢
    exact (hperm.append_left _).mem_iff.1 hp
  case once =>
    refine List.Perm.trans ?_ h.once
    rw [List.append_assoc, List.append_assoc]
    exact (hperm.append_left _).map _
  case order =>
    refine List.Pairwise.sublist (List.Sublist.map _ (List.Sublist.append_left ?_ _)) h.order
    rw [waiting_clearSlots]
    exact List.filter_sublist
  case opcode =>
    intro r hr
    rcases List.mem_append.1 hr with hr | hr
    · exact h.opcode r hr
    · obtain ⟨p, hp, rfl⟩ := List.mem_map.1 hr
      exact beq_iff_eq.1 (List.mem_filter.1 hp).2
  case begun => exact h.begun
  case old =>
    intro b hb p hp
    refine h.old b hb p ?_
    dsimp only at hp
    unfold clearSlots at hp
    rw [← List.map_take] at hp
    exact hsub _ p hp
  case new =>
    intro b hb p hp
    refine h.new b hb p ?_
    dsimp only at hp
    unfold clearSlots at hp
    rw [← List.map_drop] at hp
    change p ∈ waiting (clearSlots opc _) at hp
    rw [waiting_clearSlots] at hp
    exact List.mem_of_mem_filter hp
  case begins => exact h.begins
  case idle => exact h.idle

/-- A loop goes on: it delivers the next primitive or ends. -/
private theorem Replays.Law.loop (h : Replays.Law { s with replays := begin :: outer } ring) :
    ∃ ring', (s.loop begin outer).Law ring' := by
  unfold Replays.loop RrData.nextStoredPrim
  by_cases hread : s.data.storedPrimRead = 0
  · rw [if_neg (not_not_intro hread)]
    refine ⟨ring, h.filled, h.count, h.storedPrimIn, h.numbered, h.once, h.order, h.opcode, h.begun, ?_, ?_, ?_,
      fun _ => hread⟩
    · dsimp only
      rw [hread]
      intro b hb p hp
      cases hp
    · exact fun b hb => h.new b (List.mem_cons_of_mem _ hb)
    · exact fun b hb => h.begins b (List.mem_cons_of_mem _ hb)
  · rw [if_pos hread]
    have hcount := h.count
    dsimp only at hcount
    cases ring with
    | nil =>
      rw [List.length_nil] at hcount
      omega
    | cons a ring =>
      have hri := h.filled.ri_lt
      have hout : (if (s.data.storedPrimOut + 1) % 256 = maxRrStoredPrim then 0 else (s.data.storedPrimOut + 1) % 256) =
          next maxRrStoredPrim s.data.storedPrimOut := by
        rw [Nat.mod_eq_of_lt (by unfold maxRrStoredPrim at hri; dsimp only at hri; omega)]
        rfl
      obtain ⟨hfirst, hpop⟩ := h.filled.pop (Function.update s.data.storedPrim s.data.storedPrimOut none)
        fun i hi => Function.update_of_ne hi ..
      have hplace := h.filled.place_pop
      have hin := h.storedPrimIn
      dsimp only at hfirst hpop hplace hin
      dsimp only
      rw [hfirst, hout]
      obtain ⟨n, hn⟩ : ∃ n, s.data.storedPrimRead = n + 1 := ⟨s.data.storedPrimRead - 1, by omega⟩
      have hold := h.old begin rfl
      have hnew := h.new
      dsimp only at hold hnew
      rw [hn] at hold hnew hcount ⊢
      rw [List.take_succ_cons] at hold
      rw [List.drop_succ_cons] at hnew
      rw [List.length_cons] at hcount
      have hcount' : n + s.data.storedPrimWrite = ring.length := by omega
      cases a with
      | none =>
        refine ⟨ring, hpop, hcount', hin.trans hplace.symm, h.numbered, h.once, h.order, h.opcode, h.begun, ?_, hnew,
          h.begins, fun hnil => absurd hnil (List.cons_ne_nil _ _)⟩
        intro b hb
        rw [← Option.some.inj hb]
        exact hold
      | some p =>
        rw [waiting_some] at hold
        have heq : ∀ l : List Stored, (s.delivered ++ [(p, begin)]).map Prod.fst ++ l =
            s.delivered.map Prod.fst ++ p :: l := by
          intro l
          rw [List.map_append, List.append_assoc]
          rfl
        have hmove : ((s.delivered ++ [(p, begin)]).map Prod.fst ++ s.freed.map Prod.fst ++ waiting ring).Perm
            (s.delivered.map Prod.fst ++ s.freed.map Prod.fst ++ p :: waiting ring) := by
          rw [List.append_assoc, List.append_assoc, heq]
          exact List.perm_middle.symm.append_left _
        refine ⟨ring, hpop, hcount', hin.trans hplace.symm, fun q hq => ?_, ?_, ?_, h.opcode, fun r hr => ?_, ?_, hnew,
          h.begins, fun hnil => absurd hnil (List.cons_ne_nil _ _)⟩
        · exact h.numbered q (hmove.mem_iff.1 hq)
        · exact (hmove.map _).trans h.once
        · have horder := h.order
          rw [waiting_some] at horder
          dsimp only
          rw [heq]
          exact horder
        · rcases List.mem_append.1 hr with hr | hr
          · exact h.begun r hr
          · rw [List.mem_singleton.1 hr]
            exact hold p List.mem_cons_self
        · intro b hb
          rw [← Option.some.inj hb]
          exact fun q hq => hold q (List.mem_cons_of_mem _ hq)

/-- All primitives that wait are to be sent again, from now on. -/
private theorem Replays.Law.use (h : s.Law ring) (b : Bool) :
    Replays.Law
      { s with
        data := { s.data with
          useStoredEntries := b
          storedPrimRead := (s.data.storedPrimRead + s.data.storedPrimWrite) % 256
          storedPrimWrite := 0 }
        replays := s.stored.length :: s.replays } ring := by
  have hle := h.filled.length_le
  have hread : (s.data.storedPrimRead + s.data.storedPrimWrite) % 256 = ring.length := by
    rw [h.count]
    exact Nat.mod_eq_of_lt (by unfold maxRrStoredPrim at hle; omega)
  refine ⟨h.filled, hread, h.storedPrimIn, h.numbered, h.once, h.order, h.opcode, h.begun, ?_, ?_, ?_,
    fun hnil => absurd hnil (List.cons_ne_nil _ _)⟩
  · intro begin hbegin p hp
    rw [← Option.some.inj hbegin]
    exact h.no_lt (List.mem_append_right _ (mem_waiting_take hp))
  · intro begin _ p hp
    dsimp only at hp
    rw [hread, List.drop_length] at hp
    cases hp
  · intro begin hbegin
    rcases List.mem_cons.1 hbegin with rfl | hbegin
    · exact Nat.le_refl _
    · exact h.begins begin hbegin

/-- Every step keeps the invariant. -/
private theorem Replays.Law.step (h : s.Law ring) (e : PrimEvent) (ht : s.step e = some t) : ∃ ring', t.Law ring' := by
  cases e with
  | store prim =>
    unfold Replays.step at ht
    dsimp only at ht
    by_cases hroom : ring.length < maxRrStoredPrim
    · have hstore := h.store prim hroom
      have htrue : (s.data.storePrim ⟨s.stored.length, prim⟩).1 = true := by
        unfold RrData.storePrim
        rw [h.count, if_neg (Nat.not_le_of_lt hroom)]
      generalize s.data.storePrim ⟨s.stored.length, prim⟩ = r at ht hstore htrue
      obtain ⟨b, data⟩ := r
      dsimp only at htrue
      subst htrue
      exact ⟨_, Option.some.inj ht ▸ hstore⟩
    · have hfull : s.data.storePrim ⟨s.stored.length, prim⟩ = (false, s.data) := by
        unfold RrData.storePrim
        rw [h.count, if_pos (Nat.le_of_not_lt hroom)]
      rw [hfull] at ht
      exact ⟨ring, Option.some.inj ht ▸ h⟩
  | clear opc => exact ⟨_, Option.some.inj ht ▸ h.clear⟩
  | use =>
    unfold Replays.step RrData.useStoredPrim at ht
    dsimp only at ht
    by_cases hwrite : s.data.storedPrimWrite > 0
    · rw [if_pos hwrite] at ht
      have hloop := Replays.Law.loop (s := { s with data := { s.data with
        useStoredEntries := false
        storedPrimRead := (s.data.storedPrimRead + s.data.storedPrimWrite) % 256
        storedPrimWrite := 0 } }) (h.use false)
      exact Option.some.inj ht ▸ hloop
    · rw [if_neg hwrite] at ht
      refine ⟨ring, Option.some.inj ht ▸ ?_⟩
      exact ⟨h.filled, h.count, h.storedPrimIn, h.numbered, h.once, h.order, h.opcode, h.begun, h.old, h.new, h.begins,
        h.idle⟩
  | handled =>
    unfold Replays.step at ht
    cases hr : s.replays with
    | nil =>
      rw [hr] at ht
      cases ht
    | cons begin outer =>
      rw [hr] at ht
      have hs : ({ s with replays := begin :: outer } : Replays) = s := by rw [← hr]
      exact Option.some.inj ht ▸ Replays.Law.loop (hs.symm ▸ h)

private theorem storedPrims_init (h : storedPrims.init s) : s.Law [] := by
  obtain ⟨hin, hout, hread, hwrite, -, hreplays, hstored, hdelivered, hfreed⟩ := h
  have hzero : ∀ P : Stored × Nat → Prop, (∀ r ∈ s.delivered, P r) ∧ ∀ r ∈ s.freed, P r := by
    intro P
    rw [hdelivered, hfreed]
    exact ⟨fun r hr => absurd hr List.not_mem_nil, fun r hr => absurd hr List.not_mem_nil⟩
  refine ⟨?_, ?_, ?_, ?_, ?_, ?_, (hzero _).2, (hzero _).1, ?_, ?_, ?_, fun _ => hread⟩
  · rw [hout]
    exact filled_nil (by decide)
  · rw [hread, hwrite]
    rfl
  · rw [hin, hout]
    rfl
  · rw [hdelivered, hfreed]
    exact fun p hp => absurd hp List.not_mem_nil
  · rw [hdelivered, hfreed, hstored]
    exact List.Perm.refl _
  · rw [hdelivered]
    exact List.Pairwise.nil
  · rw [hreplays]
    exact fun b hb => absurd hb (by simp)
  · rw [hreplays]
    exact fun b hb => absurd hb List.not_mem_nil
  · rw [hreplays]
    exact fun b hb => absurd hb List.not_mem_nil

/-- `srv_check_stored_prim` finds the opcodes that wait. -/
theorem Replays.Law.check (h : s.Law ring) :
    s.data.checkStoredPrim opc = true ↔ ∃ p ∈ waiting ring, p.prim.opc = opc := by
  have hloop : ∀ rest done : List (Option Stored), ring = done ++ rest →
      (RrData.checkLoop opc s.data.storedPrim rest.length (place maxRrStoredPrim s.data.storedPrimOut done.length) = true ↔
        ∃ p ∈ waiting rest, p.prim.opc = opc) := by
    intro rest
    induction rest with
    | nil => exact fun done _ => iff_of_false Bool.false_ne_true fun ⟨p, hp, _⟩ => List.not_mem_nil hp
    | cons a rest ih =>
      intro done hring
      have hfilled := h.filled
      rw [hring] at hfilled
      have hlen := hfilled.length_le
      rw [List.length_append, List.length_cons] at hlen
      have ha := hfilled.get done.length (by simp)
      rw [List.getElem_append_right (Nat.le_refl _)] at ha
      simp only [Nat.sub_self, List.getElem_cons_zero] at ha
      have hnext : (if place maxRrStoredPrim s.data.storedPrimOut done.length + 1 = maxRrStoredPrim then 0
          else place maxRrStoredPrim s.data.storedPrimOut done.length + 1) =
          place maxRrStoredPrim s.data.storedPrimOut (done ++ [a]).length := by
        rw [List.length_append, List.length_singleton]
        exact next_place_counted hfilled.ri_lt (by omega)
      rw [List.length_cons]
      unfold RrData.checkLoop
      rw [hnext, ha]
      have hrest := ih (done ++ [a]) (by rw [hring, List.append_assoc]; rfl)
      cases a with
      | none => exact hrest
      | some p =>
        rw [waiting_some]
        simp only [Option.any_some, beq_iff_eq, List.exists_mem_cons_iff]
        split
        · rename_i hp
          exact iff_of_true rfl (.inl hp)
        · rename_i hp
          rw [hrest, or_iff_right hp]
  have hstart := hloop ring [] rfl
  rw [List.length_nil, place_zero h.filled.ri_lt] at hstart
  unfold RrData.checkStoredPrim
  rw [h.count]
  split
  · exact hstart
  · rename_i hempty
    have hnil : ring = [] := List.length_eq_zero_iff.1 (by omega)
    subst hnil
    exact hstart

end

/-- No primitive has been stored. -/
def noStoredPrims : Replays := ⟨⟨fun _ => none, 0, 0, 0, 0, false, false⟩, [], [], [], []⟩

end Citrine.Rr
