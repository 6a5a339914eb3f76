import Citrine.Aci.Collect

/-!
# The parts of several messages

Messages with different reference numbers or senders arrive in parts, and the parts come in any order.  Every message is
handed over once, when its last missing part arrives, and leaves nothing behind (`inbox_correct`).  This needs that a part
arrives again only when it is in the assembly buffer of its message (`Arrival.sound`): a part that waits is not told from
its repetition, so that one of the two is left behind for the next message with this reference number, and a message that
is complete is not known any more.
-/

namespace Citrine.Aci

/-! ### Arrivals -/

/-- The arrival of a part of a message, given by its place in a list of messages. -/
structure Arrival where
  message : Nat
  seqNum : Nat
  msgRef : Nat
  stat : Nat
  isStored : Bool
  mem : SmsStor
  deriving DecidableEq, Repr

/-- What `concSMS_Collect` returned for a part, and whether it changed the tables. -/
structure Outcome where
  message : Nat
  seqNum : Nat
  ret : AssemblyReturn
  data : List Nat
  changed : Bool
  deriving DecidableEq, Repr

/-- The tables and the outcomes so far. -/
structure Inbox where
  sms : ConcSms
  log : List Outcome
  deriving DecidableEq, Repr

/-- The parts of a message that have arrived. -/
def arrivedIn (log : List Outcome) (j : Nat) : List Nat := (log.filter fun o => o.message == j).map Outcome.seqNum

/-- A part arrives; a part that is stored has a place in one of the memories. -/
def Inbox.step (messages : List Message) (s : Inbox) (e : Arrival) : Option Inbox :=
  match messages[e.message]? with
  | none => none
  | some m =>
    if 1 ≤ e.seqNum ∧ e.seqNum ≤ m.maxNum ∧ (e.isStored = true → e.mem ≠ .notPresent) then
      let (sms, ret, data) := collect (m.sm e.seqNum e.msgRef e.stat) e.isStored e.mem s.sms
      some ⟨sms, s.log ++ [⟨e.message, e.seqNum, ret, data, decide (sms ≠ s.sms)⟩]⟩
    else none

def inbox.machine (messages : List Message) : Machine Inbox Arrival where
  init := fun s => s = ⟨concSmsInit, []⟩
  step := Inbox.step messages

/-- The message fits its memory, and a part arrives again only when it is in the assembly buffer of its message. -/
def Arrival.sound (messages : List Message) (s : Inbox) (e : Arrival) : Bool :=
  match messages[e.message]? with
  | none => true
  | some m =>
    m.fits && (!(arrivedIn s.log e.message).contains e.seqNum ||
      decide (e.seqNum < ((getAsBuffer m.key s.sms).map SmAssembly.nextExpNum).getD 1))

/-- What is expected of an arrival, after the parts that have arrived before. -/
structure Message.Right (m : Message) (arrived : List Nat) (o : Outcome) : Prop where
  completed : o.ret = .completed ↔ o.seqNum ∉ arrived ∧ m.complete (arrived ++ [o.seqNum])
  data : o.ret = .completed → o.data = m.parts.flatten
  unchanged : o.seqNum ∈ arrived → o.changed = false

/-- Each message is handed over once, when its last missing part arrives, and leaves nothing behind; a part that arrives
again changes nothing, and nothing is written behind the memory of an assembly buffer. -/
structure Inbox.Correct (messages : List Message) (s : Inbox) : Prop where
  right : ∀ before o, before ++ [o] <+: s.log →
    ∃ m, messages[o.message]? = some m ∧ m.Right (arrivedIn before o.message) o
  once : ∀ (j : Nat) (m : Message), messages[j]? = some m →
    s.log.countP (fun o => o.message == j && o.ret == .completed) = if m.complete (arrivedIn s.log j) then 1 else 0
  clean : ∀ (j : Nat) (m : Message), messages[j]? = some m → m.complete (arrivedIn s.log j) →
    getAsBuffer m.key s.sms = none ∧ getSegBuffer m.key s.sms = none
  inside : s.sms.overrun = false

/-! ### The invariant -/

section
variable {messages : List Message} {s t : Inbox} {j : Nat} {m : Message}

/-- The tables, and what they hold of each message. -/
structure Inbox.Inv (messages : List Message) (s : Inbox) : Prop where
  tables : Tables (messages.map Message.key) s.sms
  holds : ∀ (j : Nat) (m : Message), messages[j]? = some m → m.Holds (arrivedIn s.log j) s.sms
  right : ∀ before o, before ++ [o] <+: s.log →
    ∃ m, messages[o.message]? = some m ∧ m.Right (arrivedIn before o.message) o
  once : ∀ (j : Nat) (m : Message), messages[j]? = some m →
    s.log.countP (fun o => o.message == j && o.ret == .completed) = if m.complete (arrivedIn s.log j) then 1 else 0
  inside : s.sms.overrun = false

private theorem arrivedIn_concat (log : List Outcome) (o : Outcome) (j : Nat) :
    arrivedIn (log ++ [o]) j = if o.message = j then arrivedIn log j ++ [o.seqNum] else arrivedIn log j := by
  unfold arrivedIn
  rw [List.filter_append, List.map_append]
  split
  · rename_i ho
    rw [List.filter_singleton, beq_iff_eq.2 ho]
    rfl
  · rename_i ho
    rw [List.filter_singleton, beq_eq_false_iff_ne.2 ho]
    exact List.append_nil _

private theorem empty_lookup {α : Type} {key : α → SmsKey} (n : Nat) (k : SmsKey) :
    Slots.lookup key k (List.replicate n none) = none := by
  induction n with
  | zero => rfl
  | succ n ih => exact ih

private theorem empty_unique {α : Type} {key : α → SmsKey} (n : Nat) : Slots.Unique key (List.replicate n none) := by
  induction n with
  | zero => exact List.nodup_nil
  | succ n ih => exact ih

private theorem init_inv_inbox (hwf : ∀ m ∈ messages, m.Wf) (hlen : messages.length ≤ maxBufElems) :
    Inbox.Inv messages ⟨concSmsInit, []⟩ := by
  have hpos : ∀ (j : Nat) (m : Message), messages[j]? = some m → 1 ≤ m.maxNum := fun j m hj => (hwf m (List.mem_of_getElem? hj)).pos
  have has : ∀ k, getAsBuffer k concSmsInit = none := empty_lookup _
  have hseg : ∀ k, getSegBuffer k concSmsInit = none := empty_lookup _
  have hconc : ∀ k, getConcBuffer k concSmsInit = none := empty_lookup _
  have hkeys : (messages.map Message.key).length ≤ maxBufElems := by
    rw [List.length_map]
    exact hlen
  have hwait : ∀ k, waitingSegs k concSmsInit = [] := by
    intro k
    unfold waitingSegs
    rw [hseg]
    rfl
  refine ⟨⟨empty_unique _, empty_unique _, empty_unique _, fun k hk => absurd (has k) hk,
    fun k hk => absurd (hseg k) hk, fun k hk => absurd (hconc k) hk, ?_, ?_, ?_, fun k b hb => ?_⟩, ?_, ?_, ?_, rfl⟩
  · exact Nat.le_trans hkeys (Nat.le_of_eq List.length_replicate.symm)
  · exact Nat.le_trans hkeys (Nat.le_of_eq List.length_replicate.symm)
  · exact Nat.le_trans (Nat.le_trans hkeys (by decide)) (Nat.le_of_eq List.length_replicate.symm)
  · rw [hseg] at hb
    cases hb
  · intro j m hj
    have hw := hwait m.key
    refine ⟨fun i hi => absurd hi List.not_mem_nil, ?_, .inr ⟨0, hpos j m hj, ⟨has _, ?_, ?_⟩, fun i => ?_⟩⟩
    · unfold storedSegs
      rw [hconc]
      exact fun e he => absurd he List.not_mem_nil
    · unfold waitingNums
      rw [hw]
      exact List.nodup_nil
    · rw [hw]
      exact fun e he => absurd he List.not_mem_nil
    · unfold waitingNums
      rw [hw]
      refine ⟨fun h => absurd h List.not_mem_nil, ?_⟩
      rintro (h | h)
      · omega
      · exact absurd h List.not_mem_nil
  · intro before o h
    exact absurd (List.prefix_nil.1 h) (List.append_ne_nil_of_right_ne_nil _ (List.cons_ne_nil _ _))
  · intro j m hj
    rw [if_neg]
    · rfl
    · intro hc
      exact absurd (complete_iff.1 hc 1 (Nat.le_refl 1) (hpos j m hj)) List.not_mem_nil

/-- A part that has arrived does not complete its message. -/
private theorem complete_again {arrived : List Nat} {i : Nat} (h : i ∈ arrived) :
    m.complete (arrived ++ [i]) = m.complete arrived := by
  rw [Bool.eq_iff_iff, complete_iff, complete_iff]
  have hmem : ∀ k, k ∈ arrived ++ [i] ↔ k ∈ arrived := by
    intro k
    rw [List.mem_append, List.mem_singleton]
    refine ⟨fun hk => ?_, .inl⟩
    rcases hk with hk | rfl
    · exact hk
    · exact h
  simp only [hmem]

/-- The log with one more outcome. -/
private theorem Inbox.Inv.log (h : s.Inv messages) (hm : messages[j]? = some m) {o : Outcome} (ho : o.message = j)
    (hr : m.Right (arrivedIn s.log j) o) (hrange : 1 ≤ o.seqNum ∧ o.seqNum ≤ m.maxNum) :
    (∀ before o', before ++ [o'] <+: s.log ++ [o] →
      ∃ m, messages[o'.message]? = some m ∧ m.Right (arrivedIn before o'.message) o') ∧
    ∀ (j' : Nat) (m' : Message), messages[j']? = some m' →
      (s.log ++ [o]).countP (fun o => o.message == j' && o.ret == .completed) =
        if m'.complete (arrivedIn (s.log ++ [o]) j') then 1 else 0 := by
  constructor
  · intro before o' hpre
    rcases List.prefix_concat_iff.1 hpre with heq | hpre
    · obtain ⟨rfl, h1⟩ := List.append_inj' heq rfl
      cases h1
      exact ⟨m, ho ▸ hm, ho ▸ hr⟩
    · exact h.right before o' hpre
  · intro j' m' hm'
    rw [List.countP_append, h.once j' m' hm', arrivedIn_concat, List.countP_singleton]
    by_cases hj : o.message = j'
    · obtain rfl : j = j' := ho.symm.trans hj
      rw [hm] at hm'
      cases hm'
      have hcount : (o.message == j && o.ret == .completed) = true ↔
          o.seqNum ∉ arrivedIn s.log j ∧ m.complete (arrivedIn s.log j ++ [o.seqNum]) := by
        rw [Bool.and_eq_true, beq_iff_eq, beq_iff_eq, hr.completed]
        exact and_iff_right ho
      rw [if_pos ho]
      simp only [hcount]
      by_cases hmem : o.seqNum ∈ arrivedIn s.log j
      · have hno : ¬ (o.seqNum ∉ arrivedIn s.log j ∧ m.complete (arrivedIn s.log j ++ [o.seqNum])) :=
          fun h' => h'.1 hmem
        rw [if_neg hno, complete_again hmem, Nat.add_zero]
      · have hnc : ¬ m.complete (arrivedIn s.log j) := fun hc => hmem (complete_iff.1 hc _ hrange.1 hrange.2)
        rw [if_neg hnc, Nat.zero_add]
        by_cases hc : m.complete (arrivedIn s.log j ++ [o.seqNum])
        · rw [if_pos ⟨hmem, hc⟩, if_pos hc]
        · rw [if_neg fun h' => hc h'.2, if_neg hc]
    · have hother : ¬ (o.message == j' && o.ret == .completed) = true := by
        rw [Bool.and_eq_true, beq_iff_eq]
        exact fun h' => hj h'.1
      rw [if_neg hj, if_neg hother, Nat.add_zero]

/-- The entries of a message are its own. -/
private theorem key_inj (hkeys : (messages.map Message.key).Nodup) {j' : Nat} {m' : Message}
    (hm : messages[j]? = some m) (hm' : messages[j']? = some m') (hne : j' ≠ j) : m'.key ≠ m.key := by
  obtain ⟨hlt, rfl⟩ := List.getElem?_eq_some_iff.1 hm
  obtain ⟨hlt', rfl⟩ := List.getElem?_eq_some_iff.1 hm'
  intro hk
  refine hne ((@List.Nodup.getElem_inj_iff _ _ hkeys j' ?_ j ?_).1 ?_)
  · rw [List.length_map]
    exact hlt'
  · rw [List.length_map]
    exact hlt
  · rw [List.getElem_map, List.getElem_map]
    exact hk

/-- A part in the assembly buffer has arrived. -/
private theorem passed_arrived {arrived : List Nat} {sms : ConcSms} (h : m.Holds arrived sms) {i : Nat} (h1 : 1 ≤ i)
    (hi : i < ((getAsBuffer m.key sms).map SmAssembly.nextExpNum).getD 1) : i ∈ arrived := by
  rcases h.state with ⟨-, hn, -⟩ | ⟨p, -, hpart, hiff⟩
  · rw [hn] at hi
    change i < 1 at hi
    omega
  · rw [hpart.assembly] at hi
    split at hi
    · change i < 1 at hi
      omega
    · change i < p + 1 at hi
      exact (hiff i).2 (.inl (by omega))

/-- The arrival of a part of which the message is told. -/
private theorem Inbox.Inv.arrive (hkeys : (messages.map Message.key).Nodup) (h : s.Inv messages)
    (hm : messages[j]? = some m) {o : Outcome} (hj : o.message = j) (hrange : 1 ≤ o.seqNum ∧ o.seqNum ≤ m.maxNum)
    (hr : m.Right (arrivedIn s.log j) o) {sms : ConcSms} (hT : Tables (messages.map Message.key) sms)
    (ho : Others m.key s.sms sms) (hin : sms.overrun = false)
    (hold : m.Holds (arrivedIn s.log j ++ [o.seqNum]) sms) : Inbox.Inv messages ⟨sms, s.log ++ [o]⟩ := by
  have hlog := h.log hm hj hr hrange
  refine ⟨hT, fun j' m' hm' => ?_, hlog.1, hlog.2, hin⟩
  rw [arrivedIn_concat]
  split
  · rename_i hj'
    obtain rfl : j = j' := hj.symm.trans hj'
    rw [hm] at hm'
    cases hm'
    exact hold
  · rename_i hj'
    exact ho.holds (key_inj hkeys hm hm' fun hn => hj' (hj.trans hn.symm)) (h.holds j' m' hm')

private theorem step_inv_inbox (hwf : ∀ m ∈ messages, m.Wf) (hkeys : (messages.map Message.key).Nodup)
    {e : Arrival} (h : s.Inv messages) (hok : e.sound messages s) (hs : s.step messages e = some t) :
    t.Inv messages := by
  unfold Inbox.step at hs
  unfold Arrival.sound at hok
  cases hm : messages[e.message]? with
  | none =>
    rw [hm] at hs
    cases hs
  | some m =>
    rw [hm] at hs hok
    simp only at hs hok
    split at hs
    · rename_i hv
      rw [Bool.and_eq_true, Bool.or_eq_true, Bool.not_eq_true', decide_eq_true_eq] at hok
      have hmem : m ∈ messages := List.mem_of_getElem? hm
      have hold := h.holds _ _ hm
      cases hs
      by_cases hpassed : e.seqNum < ((getAsBuffer m.key s.sms).map SmAssembly.nextExpNum).getD 1
      · -- a part that is in the assembly buffer
        have harr := passed_arrived hold hv.1 hpassed
        rw [collect_passed hpassed]
        refine h.arrive hkeys hm rfl ⟨hv.1, hv.2.1⟩ ⟨?_, fun hn => (by cases hn), fun _ => ?_⟩ h.tables .refl h.inside ?_
        · exact ⟨fun hn => (by cases hn), fun hn => absurd harr hn.1⟩
        · exact decide_eq_false fun hn => hn rfl
        · refine ⟨fun i hi => ?_, fun e' he' => List.mem_append_left _ (hold.stored e' he'), ?_⟩
          · rcases List.mem_append.1 hi with hi | hi
            · exact hold.range i hi
            · rw [List.mem_singleton.1 hi]
              exact ⟨hv.1, hv.2.1⟩
          · refine hold.state.imp (fun hc => ⟨(complete_again harr).trans hc.1, hc.2⟩) ?_
            rintro ⟨p, hp, hpart, hiff⟩
            refine ⟨p, hp, hpart, fun i => ?_⟩
            rw [← hiff, List.mem_append, List.mem_singleton]
            refine ⟨fun hi => ?_, .inl⟩
            rcases hi with hi | rfl
            · exact hi
            · exact harr
      · -- a part that has not arrived before
        have hnew : e.seqNum ∉ arrivedIn s.log e.message := by
          rcases hok.2 with hn | hn
          · rw [← Bool.not_eq_true, List.contains_iff_mem] at hn
            exact hn
          · exact absurd hn hpassed
        obtain ⟨sms, hres, hT, ho, hin, hholds⟩ := collect_fresh (hwf m hmem) hok.1 (List.mem_map_of_mem hmem) h.tables
          h.inside hold hv.1 hv.2.1 hnew e.msgRef e.stat hv.2.2
        rw [hres]
        refine h.arrive hkeys hm rfl ⟨hv.1, hv.2.1⟩ ⟨?_, ?_, fun hn => absurd hn hnew⟩ hT ho hin hholds
        · change (if _ then _ else _) = _ ↔ _ ∧ _
          split
          · rename_i hc
            exact ⟨fun _ => ⟨hnew, hc⟩, fun _ => rfl⟩
          · rename_i hc
            exact ⟨fun hn => (by cases hn), fun hn => absurd hn.2 hc⟩
        · change (if _ then _ else _) = _ → (if _ then _ else _) = _
          split
          · exact fun _ => rfl
          · exact fun hn => (by cases hn)
    · cases hs

end

/-- Every message is handed over once, when its last missing part arrives, whatever the order of the parts. -/
theorem inbox_correct (messages : List Message) (hwf : ∀ m ∈ messages, m.Wf)
    (hkeys : (messages.map Message.key).Nodup) (hlen : messages.length ≤ maxBufElems) {s : Inbox}
    (h : (inbox.machine messages).Reach (Arrival.sound messages) s) : s.Correct messages := by
  have hinv : s.Inv messages := by
    refine h.invariant ?_ fun s e t hs hok hst => step_inv_inbox hwf hkeys hs hok hst
    rintro s rfl
    exact init_inv_inbox hwf hlen
  refine ⟨hinv.right, hinv.once, fun j m hm hc => ?_, hinv.inside⟩
  rcases (hinv.holds j m hm).state with ⟨-, hn⟩ | ⟨p, hp, hpart, hiff⟩
  · exact hn
  · rcases (hiff (p + 1)).1 (complete_iff.1 hc (p + 1) (by omega) hp) with hn | hn
    · omega
    · obtain ⟨e, he, hseq⟩ := List.mem_map.1 hn
      have := hpart.waiting e he
      omega

/-! ### Messages of three parts -/

namespace inbox

/-- A message of three parts of one octet each, with an 8 bit reference number. -/
def three (a b c : Nat) : Message := ⟨1, [43, 49], false, [[a], [b], [c]]⟩

/-- A message of two parts with a 16 bit reference number. -/
def two : Message := ⟨257, [43, 49], true, [[4], [5]]⟩

/-- A part of a message that is not stored. -/
def arrival (message seqNum : Nat) : Arrival := ⟨message, seqNum, 0, 0, false, .notPresent⟩

theorem three_wf (a b c : Nat) : (three a b c).Wf := by
  refine ⟨show 1 ≤ 3 by decide, show 3 ≤ 10 by decide, fun part hp => ?_, show 1 < 65536 by decide,
    fun _ => show 1 < 256 by decide⟩
  have hlen : part.length = 1 := by
    simp only [three, List.mem_cons, List.not_mem_nil, or_false] at hp
    rcases hp with rfl | rfl | rfl
    · rfl
    · rfl
    · rfl
  rw [hlen]
  decide

theorem two_wf : two.Wf := by
  refine ⟨show 1 ≤ 2 by decide, show 2 ≤ 10 by decide, fun part hp => ?_, show 257 < 65536 by decide,
    fun hw => (by cases hw)⟩
  have hlen : part.length = 1 := by
    simp only [two, List.mem_cons, List.not_mem_nil, or_false] at hp
    rcases hp with rfl | rfl
    · rfl
    · rfl
  rw [hlen]
  decide

/-- The parts of two messages out of sequence, one of them repeated. -/
def mixed : List Arrival :=
  [arrival 0 3, ⟨1, 2, 8, 1, true, .sm⟩, arrival 0 1, arrival 0 1, ⟨1, 1, 9, 1, true, .me⟩, arrival 0 2]

private theorem mixed_run : ((machine [three 1 2 3, two]).run (Arrival.sound [three 1 2 3, two]) ⟨concSmsInit, []⟩
    mixed).any (fun s => decide (s.log.map Outcome.ret =
        [.continued, .continued, .continued, .errUnkn, .completed, .completed] ∧
      s.log.map Outcome.data = [[], [], [], [], [4, 5], [1, 2, 3]])) := by
  decide +kernel

theorem correct_mixed : ∃ s : Inbox, s.Correct [three 1 2 3, two] ∧ s.log.map Outcome.ret =
      [.continued, .continued, .continued, .errUnkn, .completed, .completed] ∧
    s.log.map Outcome.data = [[], [], [], [], [4, 5], [1, 2, 3]] := by
  obtain ⟨s, hrun, hend⟩ := (Option.any_eq_true ..).1 mixed_run
  refine ⟨s, inbox_correct _ (fun m hm => ?_) (by decide) (by decide) (.of_run (.init rfl) hrun),
    of_decide_eq_true hend⟩
  simp only [List.mem_cons, List.not_mem_nil, or_false] at hm
  rcases hm with rfl | rfl
  · exact three_wf 1 2 3
  · exact two_wf

/-- The second part of a message arrives twice before the first one. -/
def repeated : List Arrival := [arrival 0 2, arrival 0 2, arrival 0 1, arrival 0 3]

private theorem repeated_isSome : ((machine [three 1 2 3]).run (fun _ _ => true) ⟨concSmsInit, []⟩ repeated).isSome := by
  decide +kernel

/-- What a part of a message completes. -/
def next (m : Message) (seqNum : Nat) (s : ConcSms) : ConcSms × AssemblyReturn × List Nat :=
  collect (m.sm seqNum 0 0) false .notPresent s

/-- One of the two parts stays in the segment buffer, and is put into the next message of the sender with the same
reference number. -/
theorem part_left_behind : (∀ a b c, (three a b c).Wf) ∧ ∃ s : Inbox,
    (machine [three 1 2 3]).Reach (fun _ _ => true) s ∧ ¬ s.Correct [three 1 2 3] ∧
    (next (three 7 8 9) 3 (next (three 7 8 9) 2 (next (three 7 8 9) 1 s.sms).1).1).2 = (.completed, [7, 2, 9]) := by
  have hrun := (Option.some_get repeated_isSome).symm
  refine ⟨three_wf, _, .of_run (.init rfl) hrun, fun h => ?_, by decide +kernel⟩
  have hclean := (h.clean 0 (three 1 2 3) rfl (by decide +kernel)).2
  revert hclean
  decide +kernel

end inbox

end Citrine.Aci
