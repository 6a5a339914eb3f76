import Mathlib.Data.List.Nodup
import Citrine.Aci.Tables

/-!
# Collecting the parts of a message

A message arrives in parts, in any order.  Between two arrivals the first `p` parts are in its assembly buffer, and those
that came out of sequence wait in its segment buffer (`Message.Partial`), so that a part that has not arrived before
completes the message if it is the last missing one, and nothing is left behind then (`collect_fresh`).
-/

namespace Citrine.Aci

/-! ### Messages -/

/-- A message in parts; `wide` chooses the user data header with a reference number of 16 bits. -/
structure Message where
  refNum : Nat
  address : List Nat
  wide : Bool
  parts : List (List Nat)
  deriving DecidableEq, Repr

def Message.key (m : Message) : SmsKey := (m.refNum, m.address)

/-- The number of parts. -/
def Message.maxNum (m : Message) : Nat := m.parts.length

/-- The part with a sequence number. -/
def Message.part (m : Message) (seqNum : Nat) : List Nat := m.parts.getD (seqNum - 1) []

structure Message.Wf (m : Message) : Prop where
  pos : 1 ≤ m.maxNum
  max : m.maxNum ≤ concMaxSegs
  part : ∀ part ∈ m.parts, part.length ≤ maxSmLen
  refNum : m.refNum < 65536
  narrow : m.wide = false → m.refNum < 256

/-- The short message that carries a part. -/
def Message.sm (m : Message) (seqNum msgRef stat : Nat) : CmglSm :=
  { udh :=
      if m.wide then [smsIeiConc16Bit, 4, m.refNum / 256, m.refNum % 256, m.maxNum, seqNum]
      else [smsIeiConc8Bit, 3, m.refNum, m.maxNum, seqNum]
    msgRef := msgRef, stat := stat, adress := m.address, data := m.part seqNum }

/-- The parts of a message together are shorter than the memory for them. -/
def Message.fits (m : Message) : Bool := decide (m.parts.flatten.length < maxSmLen * m.maxNum)

/-- A message of which all parts have arrived. -/
def Message.complete (m : Message) (arrived : List Nat) : Bool :=
  (List.range' 1 m.maxNum).all fun i => arrived.contains i

section
variable {keys : List SmsKey} {m : Message} {s t : ConcSms} {p : Nat}

private theorem udhParameters_eq (seqNum msgRef stat : Nat) :
    udhParameters (m.sm seqNum msgRef stat).udh = (m.refNum, m.maxNum, seqNum) := by
  unfold Message.sm udhParameters
  cases hw : m.wide with
  | true =>
    have hdiv := Nat.div_add_mod m.refNum 256
    simp only [if_true, List.getD_cons_zero, List.getD_cons_succ]
    rw [if_neg (by decide), Nat.mul_comm, hdiv]
  | false =>
    simp only [Bool.false_eq_true, if_false, if_true, List.getD_cons_zero, List.getD_cons_succ]

/-! ### A message in progress -/

/-- The assembly buffer with the first parts of a message. -/
def Message.assembly (m : Message) (p : Nat) : SmAssembly :=
  ⟨m.refNum, m.address, p + 1, 0, p, (m.parts.take p).flatten, maxSmLen * m.maxNum⟩

/-- The sequence numbers of the parts that wait. -/
def waitingNums (k : SmsKey) (s : ConcSms) : List Nat := (waitingSegs k s).map SegBufElem.seqNum

/-- The first `p` parts are in the assembly buffer, and parts behind the next one wait. -/
structure Message.Partial (m : Message) (s : ConcSms) (p : Nat) : Prop where
  assembly : getAsBuffer m.key s = if p = 0 then none else some (m.assembly p)
  nodup : (waitingNums m.key s).Nodup
  waiting : ∀ e ∈ waitingSegs m.key s, p + 1 < e.seqNum ∧ e.seqNum ≤ m.maxNum ∧ e.data = m.part e.seqNum

private theorem take_flatten_succ (hp : p < m.maxNum) :
    (m.parts.take (p + 1)).flatten = (m.parts.take p).flatten ++ m.part (p + 1) := by
  have hp' : p < m.parts.length := hp
  unfold Message.part
  rw [List.take_succ_eq_append_getElem hp', List.flatten_append, Nat.add_sub_cancel, List.getD_eq_getElem?_getD,
    List.getElem?_eq_getElem hp', Option.getD_some, List.flatten_singleton]

/-- The next part goes into the assembly buffer. -/
private theorem assembly_append (h : m.Wf) (hp : p < m.maxNum) :
    ((if p = 0 then none else some (m.assembly p)).getD
      (SmAssembly.mk m.key.1 m.key.2 1 m.maxNum 0 [] 0)).alloc.append (m.part (p + 1)) = m.assembly (p + 1) := by
  have hmax : m.maxNum ≤ 10 := h.max
  split
  · rename_i h0
    subst h0
    have hmin : min m.maxNum concMaxSegs = m.maxNum := Nat.min_eq_left h.max
    unfold SmAssembly.alloc SmAssembly.append Message.assembly Message.key
    rw [take_flatten_succ hp]
    simp only [Option.getD_none, if_true, hmin, Nat.sub_self, List.take_zero, List.flatten_nil, List.nil_append]
  · rename_i h0
    unfold SmAssembly.alloc SmAssembly.append Message.assembly
    rw [take_flatten_succ hp]
    have h1 : (p + 1 + 1) % 256 = p + 1 + 1 := Nat.mod_eq_of_lt (by omega)
    have h2 : (p + 1) % 256 = p + 1 := Nat.mod_eq_of_lt (by omega)
    simp only [Option.getD_some, if_neg h0, h1, h2]

private theorem assembly_overrun (hf : m.fits) (p : Nat) : (m.assembly p).overrun = false := by
  unfold Message.fits at hf
  rw [decide_eq_true_eq] at hf
  have hle : (m.parts.take p).flatten.length ≤ m.parts.flatten.length := by
    have hsplit := congrArg (fun l => l.flatten.length) (List.take_append_drop p m.parts)
    simp only [List.flatten_append, List.length_append] at hsplit
    omega
  unfold SmAssembly.overrun
  rw [decide_eq_false_iff_not]
  change ¬ maxSmLen * m.maxNum ≤ (m.parts.take p).flatten.length
  omega

/-- What is left of the waiting parts, once `q` parts are in the assembly buffer. -/
structure Message.Advanced (m : Message) (s t : ConcSms) (p q : Nat) : Prop where
  lt : p < q
  le : q ≤ m.maxNum
  nums : ∀ i, i ∈ waitingNums m.key t ↔ i ∈ waitingNums m.key s ∧ q < i
  passed : ∀ i, p + 1 < i → i ≤ q → i ∈ waitingNums m.key s
  partly : q < m.maxNum → m.Partial t q ∧ q + 1 ∉ waitingNums m.key t
  done : q = m.maxNum → getAsBuffer m.key t = none ∧ getSegBuffer m.key t = none

/-- The loop puts the next part and the waiting ones behind it together. -/
private theorem collectLoop_spec (hm : m.Wf) (hf : m.fits) (hk : m.key ∈ keys) {fuel : Nat} (hT : Tables keys s)
    (hp : p < m.maxNum) (hpart : m.Partial s p) (hfuel : (waitingSegs m.key s).length < fuel)
    (ho : s.overrun = false) :
    ∃ t q, collectLoop m.key m.maxNum fuel (m.part (p + 1)) s =
        (t, if q = m.maxNum then .completed else .continued, if q = m.maxNum then m.parts.flatten else []) ∧
      Tables keys t ∧ Others m.key s t ∧ t.overrun = false ∧ storedSegs m.key t ⊆ storedSegs m.key s ∧
      m.Advanced s t p q := by
  have hmax : m.maxNum ≤ 10 := hm.max
  induction fuel generalizing s p with
  | zero => omega
  | succ fuel ih =>
    have happ : ((getAsBuffer m.key s).getD (SmAssembly.mk m.key.1 m.key.2 1 m.maxNum 0 [] 0)).alloc.append
        (m.part (p + 1)) = m.assembly (p + 1) := by
      rw [hpart.assembly]
      exact assembly_append hm hp
    obtain ⟨u, hadd, hTu, hou, hau, hsu, hcu, hru⟩ := addToAsBuffer_spec hT hk happ
    rw [ho, assembly_overrun hf, Bool.false_or] at hru
    have hwu : waitingSegs m.key u = waitingSegs m.key s := by
      unfold waitingSegs
      rw [hsu]
    have hstu : storedSegs m.key u = storedSegs m.key s := by
      unfold storedSegs
      rw [hcu]
    unfold collectLoop
    rw [hadd]
    have hnext : (m.assembly (p + 1)).nextExpNum = p + 2 := rfl
    have hcount : (m.assembly (p + 1)).segCount = p + 1 := rfl
    simp only [hnext, hcount]
    by_cases hlast : p + 1 = m.maxNum
    · -- the last part
      rw [if_pos (by omega)]
      have hempty : waitingSegs m.key s = [] := by
        refine List.eq_nil_iff_forall_not_mem.2 fun e he => ?_
        have := hpart.waiting e he
        omega
      obtain ⟨v, hrem, hTv, hov, hav, hsv, hcv, hrv⟩ := removeFromAsBuffer_spec hTu hau
      obtain ⟨hTw, how, hst, haw, hsw, hrw⟩ := sortConcatList_spec (k := m.key) hTv
      have hdata : (m.assembly (p + 1)).data = m.parts.flatten := by
        change (m.parts.take (p + 1)).flatten = _
        rw [List.take_of_length_le (Nat.le_of_eq hlast.symm)]
      have hnone : getSegBuffer m.key (sortConcatList m.key v) = none := by
        rw [hsw, hsv]
        refine hTu.waiting_nil.1 ?_
        rw [hwu, hempty]
      rw [hrem, hdata]
      refine ⟨_, m.maxNum, by rw [if_pos rfl, if_pos rfl], hTw, hou.trans (hov.trans how), hrw.trans (hrv.trans hru), ?_,
        by omega, Nat.le_refl _, fun i => ?_, fun i h1 h2 => by omega, fun h => by omega, fun _ => ⟨haw.trans hav, hnone⟩⟩
      · have hcv' : storedSegs m.key v = storedSegs m.key u := by
          unfold storedSegs
          rw [hcv]
        rw [hcv', hstu] at hst
        exact hst
      · have h1 := hTw.waiting_nil.2 hnone
        unfold waitingNums
        rw [h1, hempty]
        exact ⟨fun h => absurd h List.not_mem_nil, fun h => absurd h.1 List.not_mem_nil⟩
    · rw [if_neg (by omega), if_neg (by change ¬ p + 1 = 10; omega)]
      cases hfind : (waitingSegs m.key s).find? (fun e => e.seqNum == p + 2) with
      | none =>
        -- the part behind it has not arrived
        have hnot : ∀ e ∈ waitingSegs m.key s, e.seqNum ≠ p + 2 := by
          intro e he
          have := List.find?_eq_none.1 hfind e he
          rwa [beq_iff_eq] at this
        rw [removeFromSegBuffer_none (by rw [hwu]; exact hnot)]
        have hnums : waitingNums m.key u = waitingNums m.key s := by
          unfold waitingNums
          rw [hwu]
        have hlt : ∀ e ∈ waitingSegs m.key s, p + 2 < e.seqNum := by
          intro e he
          have h1 := hnot e he
          have h2 := hpart.waiting e he
          omega
        refine ⟨u, p + 1, by rw [if_neg hlast, if_neg hlast], hTu, hou, hru, hstu ▸ List.Subset.refl _, by omega, by omega,
          fun i => ?_, fun i h1 h2 => by omega, fun _ => ⟨⟨?_, ?_, ?_⟩, ?_⟩, fun h => absurd h hlast⟩
        · rw [hnums]
          refine ⟨fun h => ⟨h, ?_⟩, fun h => h.1⟩
          obtain ⟨e, he, rfl⟩ := List.mem_map.1 h
          have := hlt e he
          omega
        · rw [hau, if_neg (by omega)]
        · rw [hnums]
          exact hpart.nodup
        · rw [hwu]
          intro e he
          have := hpart.waiting e he
          exact ⟨hlt e he, this.2⟩
        · rw [hnums]
          intro h
          obtain ⟨e, he, h⟩ := List.mem_map.1 h
          exact hnot e he h
      | some e =>
        -- the part behind it waits
        have hseq : e.seqNum = p + 2 := by
          have := List.find?_some hfind
          rwa [beq_iff_eq] at this
        have hmem := List.mem_of_find?_eq_some hfind
        have he := hpart.waiting e hmem
        have hedata : e.data = m.part (p + 1 + 1) := by
          rw [he.2.2, hseq]
        rw [← hwu] at hfind
        obtain ⟨v, hrem, hTv, hov, hwv, hav, hcv, hrv⟩ := removeFromSegBuffer_some hTu hfind
        rw [hwu] at hwv
        obtain ⟨e', before, after, -, hseq', hsplit, herase⟩ := List.exists_of_eraseP hmem
          (p := fun e => e.seqNum == p + 2) (beq_iff_eq.2 hseq)
        rw [beq_iff_eq] at hseq'
        rw [herase] at hwv
        have hnums : waitingNums m.key s = before.map SegBufElem.seqNum ++ (p + 2) :: after.map SegBufElem.seqNum := by
          unfold waitingNums
          rw [hsplit, List.map_append, List.map_cons, hseq']
        have hnumsv : waitingNums m.key v = before.map SegBufElem.seqNum ++ after.map SegBufElem.seqNum := by
          unfold waitingNums
          rw [hwv, List.map_append]
        have hd := hpart.nodup
        rw [hnums, List.nodup_middle, List.nodup_cons, ← hnumsv] at hd
        have hsub : ∀ e ∈ waitingSegs m.key v, e ∈ waitingSegs m.key s ∧ e.seqNum ≠ p + 2 := by
          intro e he
          refine ⟨?_, fun h => hd.1 (h ▸ List.mem_map_of_mem he)⟩
          rw [hwv, List.mem_append] at he
          rw [hsplit, List.mem_append]
          exact he.imp_right (List.mem_cons_of_mem _)
        have hpartv : m.Partial v (p + 1) := by
          refine ⟨?_, hd.2, fun e he => ?_⟩
          · rw [hav, hau, if_neg (by omega)]
          · have h1 := hsub e he
            have h2 := hpart.waiting e h1.1
            exact ⟨by omega, h2.2⟩
        have hlen : (waitingSegs m.key v).length < fuel := by
          rw [hwv]
          rw [hsplit, List.length_append, List.length_cons] at hfuel
          rw [List.length_append]
          omega
        obtain ⟨t, q, hres, hTt, hot, hrt, hst, hadv⟩ := ih hTv (by omega) hpartv hlen (hrv.trans hru)
        have hstv : storedSegs m.key v = storedSegs m.key s := by
          unfold storedSegs
          rw [hcv, hcu]
        rw [hstv] at hst
        rw [hrem]
        simp only
        rw [hedata]
        have hmemv : ∀ i, i ∈ waitingNums m.key s ↔ i = p + 2 ∨ i ∈ waitingNums m.key v := by
          intro i
          rw [hnums, hnumsv]
          simp only [List.mem_append, List.mem_cons]
          exact or_left_comm
        have hlt := hadv.lt
        refine ⟨t, q, hres, hTt, hou.trans (hov.trans hot), hrt, hst, by omega, hadv.le, fun i => ?_,
          fun i h1 h2 => ?_, hadv.partly, hadv.done⟩
        · rw [hadv.nums, hmemv]
          constructor
          · exact fun h => ⟨.inr h.1, h.2⟩
          · rintro ⟨h | h, hi⟩
            · omega
            · exact ⟨h, hi⟩
        · rw [hmemv]
          by_cases hi : i = p + 2
          · exact .inl hi
          · exact .inr (hadv.passed i (by omega) h2)

/-! ### The arrival of a part -/

/-- What the tables hold of a message some parts of which have arrived. -/
structure Message.Holds (m : Message) (arrived : List Nat) (s : ConcSms) : Prop where
  range : ∀ i ∈ arrived, 1 ≤ i ∧ i ≤ m.maxNum
  stored : ∀ e ∈ storedSegs m.key s, e.seqNum ∈ arrived
  state : (m.complete arrived ∧ getAsBuffer m.key s = none ∧ getSegBuffer m.key s = none) ∨
    ∃ p < m.maxNum, m.Partial s p ∧ ∀ i, i ∈ arrived ↔ 1 ≤ i ∧ i ≤ p ∨ i ∈ waitingNums m.key s

theorem complete_iff {arrived : List Nat} : m.complete arrived ↔ ∀ i, 1 ≤ i → i ≤ m.maxNum → i ∈ arrived := by
  unfold Message.complete
  simp only [List.all_eq_true, List.contains_iff_mem, List.mem_range'_1]
  exact ⟨fun h i h1 h2 => h i ⟨h1, by omega⟩, fun h i hi => h i hi.1 (by omega)⟩

theorem Others.holds {m' : Message} {arrived : List Nat} (ho : Others m.key s t) (hne : m'.key ≠ m.key)
    (h : m'.Holds arrived s) : m'.Holds arrived t := by
  have hw : waitingSegs m'.key t = waitingSegs m'.key s := by
    unfold waitingSegs
    rw [ho.segs _ hne]
  have hst : storedSegs m'.key t = storedSegs m'.key s := by
    unfold storedSegs
    rw [ho.conc _ hne]
  refine ⟨h.range, by rw [hst]; exact h.stored, ?_⟩
  rw [ho.assembly _ hne, ho.segs _ hne]
  refine h.state.imp_right fun ⟨p, hp, hpart, hmem⟩ => ⟨p, hp, ⟨?_, ?_, ?_⟩, ?_⟩
  · rw [ho.assembly _ hne]
    exact hpart.assembly
  · unfold waitingNums
    rw [hw]
    exact hpart.nodup
  · rw [hw]
    exact hpart.waiting
  · unfold waitingNums
    rw [hw]
    exact hmem

/-- A part that has not arrived before goes into the concatenation buffer if it is stored. -/
private theorem store_spec (hT : Tables keys s) (hk : m.key ∈ keys) (isStored : Bool) (e : ConcBufElem)
    (hnew : ∀ e' ∈ storedSegs m.key s, e'.seqNum ≠ e.seqNum) :
    ∃ u, (if isStored then addToConcatList m.key m.maxNum e s else (s, true)) = (u, true) ∧
      ∀ full, Tables keys { u with full := full } ∧ Others m.key s { u with full := full } ∧
      storedSegs m.key { u with full := full } ⊆ storedSegs m.key s ++ [e] ∧
      getAsBuffer m.key { u with full := full } = getAsBuffer m.key s ∧
      getSegBuffer m.key { u with full := full } = getSegBuffer m.key s ∧
      ({ u with full := full } : ConcSms).overrun = s.overrun := by
  cases isStored with
  | false =>
    refine ⟨s, rfl, fun full => ⟨⟨hT.assembly, hT.segs, hT.conc, hT.assembly_keys, hT.segs_keys, hT.conc_keys, hT.assembly_length,
      hT.segs_length, hT.conc_length, hT.nonempty⟩, ⟨fun _ _ => rfl, fun _ _ => rfl, fun _ _ => rfl⟩, ?_, rfl, rfl,
      rfl⟩⟩
    exact fun e' he' => List.mem_append_left _ he'
  | true =>
    obtain ⟨u, hadd, hTu, hou, hst, hau, hsu, hru⟩ := @addToConcatList_spec _ _ _ m.maxNum hT hk e hnew
    refine ⟨u, hadd, fun full => ⟨⟨hTu.assembly, hTu.segs, hTu.conc, hTu.assembly_keys, hTu.segs_keys, hTu.conc_keys,
      hTu.assembly_length, hTu.segs_length, hTu.conc_length, hTu.nonempty⟩, ⟨hou.assembly, hou.segs, hou.conc⟩, ?_, hau,
      hsu, hru⟩⟩
    exact fun e' he' => hst ▸ he'

/-- Fewer parts wait than a segment buffer can hold. -/
private theorem waiting_length (hm : m.Wf) (hpart : m.Partial s p) : (waitingSegs m.key s).length < concMaxSegs := by
  have hsub : waitingNums m.key s ⊆ List.range' (p + 2) (m.maxNum - p - 1) := by
    intro i hi
    obtain ⟨e, he, rfl⟩ := List.mem_map.1 hi
    have := hpart.waiting e he
    rw [List.mem_range'_1]
    omega
  have hle := (hpart.nodup.subperm hsub).length_le
  have hmax := hm.max
  have hpos := hm.pos
  unfold waitingNums at hle
  rw [List.length_map, List.length_range'] at hle
  omega

/-- The arrival of a part that has not arrived before. -/
theorem collect_fresh (hm : m.Wf) (hf : m.fits) (hk : m.key ∈ keys) (hT : Tables keys s) (ho : s.overrun = false)
    {arrived : List Nat} (h : m.Holds arrived s) {i : Nat} (h1 : 1 ≤ i) (hn : i ≤ m.maxNum) (hnew : i ∉ arrived)
    (msgRef stat : Nat) {isStored : Bool} {mem : SmsStor} (hmem : isStored = true → mem ≠ .notPresent) :
    ∃ t, collect (m.sm i msgRef stat) isStored mem s =
        (t, if m.complete (arrived ++ [i]) then .completed else .continued,
          if m.complete (arrived ++ [i]) then m.parts.flatten else []) ∧
      Tables keys t ∧ Others m.key s t ∧ t.overrun = false ∧ m.Holds (arrived ++ [i]) t := by
  rcases h.state with ⟨hc, -⟩ | ⟨p, hp, hpart, hiff⟩
  · exact absurd (complete_iff.1 hc i h1 hn) hnew
  have hip : p < i := by
    refine Nat.lt_of_not_le fun hle => hnew ((hiff i).2 (.inl ⟨h1, hle⟩))
  have hrange : ∀ j ∈ arrived ++ [i], 1 ≤ j ∧ j ≤ m.maxNum := by
    intro j hj
    rcases List.mem_append.1 hj with hj | hj
    · exact h.range j hj
    · rw [List.mem_singleton.1 hj]
      exact ⟨h1, hn⟩
  have hnext : ((getAsBuffer m.key s).map SmAssembly.nextExpNum).getD 1 = p + 1 := by
    rw [hpart.assembly]
    split
    · rename_i h0
      rw [h0]
      rfl
    · rfl
  have hvalid : (isStored && mem == .notPresent) = false := by
    cases isStored with
    | false => rfl
    | true => exact beq_eq_false_iff_ne.2 (hmem rfl)
  have hnot : ∀ e' ∈ storedSegs m.key s, e'.seqNum ≠ i := fun e' he' hi => hnew (hi ▸ h.stored e' he')
  obtain ⟨u, hstore, hu⟩ := store_spec hT hk isStored ⟨i, msgRef, stat, mem⟩ hnot
  obtain ⟨hTw, how, hst, haw, hsw, hrw⟩ := hu { u.full with i := 0 }
  obtain ⟨w, hw⟩ : ∃ w : ConcSms, { u with full := { u.full with i := 0 } } = w := ⟨_, rfl⟩
  rw [hw] at hTw how hst haw hsw hrw
  have hcollect : collect (m.sm i msgRef stat) isStored mem s =
      if i > p + 1 then
        ((addToSegBuffer m.key ⟨i, msgRef, stat, m.part i⟩ w).1,
          if (addToSegBuffer m.key ⟨i, msgRef, stat, m.part i⟩ w).2 then .continued else .errBufFull, [])
      else collectLoop m.key m.maxNum ((waitingSegs m.key w).length + 1) (m.part i) w := by
    have hkey : (m.refNum, (m.sm i msgRef stat).adress) = m.key := rfl
    have hfields : (m.sm i msgRef stat).msgRef = msgRef ∧ (m.sm i msgRef stat).stat = stat ∧
        (m.sm i msgRef stat).data = m.part i := ⟨rfl, rfl, rfl⟩
    unfold collect
    simp only [udhParameters_eq, hkey, hnext, hvalid, hfields]
    rw [if_neg (by omega), if_neg Bool.false_ne_true]
    simp only [hstore, Bool.not_true, Bool.false_eq_true, if_false, hw]
  have hww : waitingSegs m.key w = waitingSegs m.key s := by
    unfold waitingSegs
    rw [hsw]
  have hnums : waitingNums m.key w = waitingNums m.key s := by
    unfold waitingNums
    rw [hww]
  have hpartw : m.Partial w p :=
    ⟨haw.trans hpart.assembly, hnums ▸ hpart.nodup, fun e he => hpart.waiting e (hww ▸ he)⟩
  have hstored : ∀ e' ∈ storedSegs m.key w, e'.seqNum ∈ arrived ++ [i] := by
    intro e' he'
    rcases List.mem_append.1 (hst he') with he' | he'
    · exact List.mem_append_left _ (h.stored e' he')
    · rw [List.mem_singleton.1 he']
      exact List.mem_append_right _ (List.mem_singleton_self i)
  rw [hcollect]
  by_cases hseq : i > p + 1
  · -- the part is out of sequence
    rw [if_pos hseq]
    obtain ⟨t, hadd, hTt, hot, hwt, hat, hct, hrt⟩ := addToSegBuffer_spec hTw hk ⟨i, msgRef, stat, m.part i⟩
      (hww ▸ waiting_length hm hpart)
    have hnumst : waitingNums m.key t = waitingNums m.key s ++ [i] := by
      unfold waitingNums
      rw [hwt, hww, List.map_append, List.map_singleton]
    have hnotp : p + 1 ∉ arrived ++ [i] := by
      intro hmem'
      rcases List.mem_append.1 hmem' with hmem' | hmem'
      · rcases (hiff (p + 1)).1 hmem' with h2 | h2
        · omega
        · obtain ⟨e, he, h3⟩ := List.mem_map.1 h2
          have := hpart.waiting e he
          omega
      · have := List.mem_singleton.1 hmem'
        omega
    have hnc : ¬ m.complete (arrived ++ [i]) := fun hc => hnotp (complete_iff.1 hc (p + 1) (by omega) (by omega))
    have hwait : ∀ j ∈ waitingNums m.key s, j ∈ arrived := fun j hj => (hiff j).2 (.inr hj)
    have hstt : storedSegs m.key t = storedSegs m.key w := by
      unfold storedSegs
      rw [hct]
    refine ⟨t, ?_, hTt, how.trans hot, hrt.trans (hrw.trans ho), hrange, hstt ▸ hstored, .inr ⟨p, hp, ⟨?_, ?_, ?_⟩, ?_⟩⟩
    · rw [hadd, if_neg hnc, if_neg hnc]
      rfl
    · exact hat.trans hpartw.assembly
    · rw [hnumst, List.nodup_append]
      refine ⟨hpart.nodup, List.nodup_singleton i, fun j hj k hk hjk => hnew ?_⟩
      rw [← List.mem_singleton.1 hk, ← hjk]
      exact hwait j hj
    · intro e he
      rw [hwt, hww] at he
      rcases List.mem_append.1 he with he | he
      · exact hpart.waiting e he
      · rw [List.mem_singleton.1 he]
        exact ⟨hseq, hn, rfl⟩
    · intro j
      rw [hnumst, List.mem_append, List.mem_append, hiff, or_assoc]
  · -- the part is in sequence
    have hi : i = p + 1 := by omega
    rw [if_neg hseq]
    obtain ⟨t, q, hres, hTt, hot, hrt, hstt, hadv⟩ :=
      collectLoop_spec hm hf hk hTw hp hpartw (Nat.lt_succ_self _) (hrw.trans ho)
    have hlt := hadv.lt
    have hle := hadv.le
    have hmemq : ∀ j, j ∈ arrived ++ [i] ↔ 1 ≤ j ∧ j ≤ q ∨ j ∈ waitingNums m.key t := by
      intro j
      rw [List.mem_append, List.mem_singleton, hiff, hadv.nums, hnums]
      constructor
      · rintro ((h2 | h2) | h2)
        · exact .inl (by omega)
        · by_cases hj : q < j
          · exact .inr ⟨h2, hj⟩
          · obtain ⟨e, he, h3⟩ := List.mem_map.1 h2
            have := hpart.waiting e he
            exact .inl (by omega)
        · exact .inl (by omega)
      · rintro (h2 | h2)
        · by_cases hj : j ≤ p
          · exact .inl (.inl (by omega))
          · by_cases hj' : j = i
            · exact .inr hj'
            · have := hadv.passed j (by omega) h2.2
              rw [hnums] at this
              exact .inl (.inr this)
        · exact .inl (.inr h2.1)
    have hcomplete : m.complete (arrived ++ [i]) = true ↔ q = m.maxNum := by
      rw [complete_iff]
      constructor
      · intro hall
        refine Nat.le_antisymm hle (Nat.le_of_not_lt fun hq => ?_)
        rcases (hmemq (q + 1)).1 (hall (q + 1) (by omega) hq) with h2 | h2
        · omega
        · exact (hadv.partly hq).2 h2
      · rintro rfl j h2 h3
        exact (hmemq j).2 (.inl ⟨h2, h3⟩)
    rw [hi] at hcomplete hmemq hrange hstored ⊢
    refine ⟨t, ?_, hTt, how.trans hot, hrt, hrange, fun e' he' => hstored e' (hstt he'), ?_⟩
    · rw [hres]
      simp only [hcomplete]
    · by_cases hq : q = m.maxNum
      · exact .inl ⟨hcomplete.2 hq, hadv.done hq⟩
      · exact .inr ⟨q, by omega, (hadv.partly (by omega)).1, hmemq⟩

/-- The arrival of a part that is in the assembly buffer. -/
theorem collect_passed {i : Nat} (h : i < ((getAsBuffer m.key s).map SmAssembly.nextExpNum).getD 1)
    (msgRef stat : Nat) (isStored : Bool) (mem : SmsStor) :
    collect (m.sm i msgRef stat) isStored mem s = (s, .errUnkn, []) := by
  have hkey : (m.refNum, (m.sm i msgRef stat).adress) = m.key := rfl
  unfold collect
  simp only [udhParameters_eq, hkey]
  rw [if_pos (.inr (.inr h))]

end

end Citrine.Aci
