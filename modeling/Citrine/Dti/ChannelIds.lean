import Citrine.Lib.Machine
import Citrine.Dti.Reconnect
import Mathlib.Data.List.TakeWhile
import Mathlib.Data.Nat.Bitwise
import Mathlib.Tactic.ByContra

/-!
# The ids of the DTI channels

`dti_conn_mng.c` keeps the ids of its channels twice: in the list of the channels, and as bits of `used_dti_channels`, which
only an id that the manager has chosen itself is entered in.  No id is in the list twice; the choice of an id may fail on
one that has been given to the manager.  `dti_conn_close_all_connections` walks along the list from which it erases, and
its walk ends behind the first channel that it erases.
-/

namespace Citrine.Dti

open Keyed

/-- A record of a channel is read or written, or freed. -/
inductive Access where
  | use (dtiId : Nat)
  | free (dtiId : Nat)
  deriving DecidableEq, Repr

namespace Manager
variable (s : Manager)

/-- `get_next_element` on the list of the channels; the previous element is given by its id. -/
def nextChannel : Option Nat → Option Channel
  | none => s.dtiChannelList.head?
  | some prev => (s.dtiChannelList.dropWhile fun c => decide (c.dtiId ≠ prev)).tail.head?

/-- `erase_channel` of a channel is set. -/
def setErase (dtiId : Nat) : Manager :=
  match s.findDtiConn dtiId with
  | none => s
  | some c => s.store { c with eraseChannel := true }

/-- The loop of `dti_conn_close_all_connections`, with the accesses to the records; `none` when it does not end. -/
def closeAllLoop : Nat → Manager → Option Nat → Option (Manager × List Output × List Access)
  | 0, _, _ => none
  | n + 1, s, prev =>
    match s.nextChannel prev with
    | none => some (s, [], [])
    | some c =>
      if c.state = .connected then
        let r := s.dtiConnCloseDpath c.dtiId
        (closeAllLoop n (r.1.setErase c.dtiId) (some c.dtiId)).map fun q =>
          (q.1, r.2.1 ++ q.2.1, .use c.dtiId :: .use c.dtiId :: q.2.2)
      else
        (closeAllLoop n (s.dtiConnEraseEntry c.dtiId) (some c.dtiId)).map fun q =>
          (q.1, q.2.1, .use c.dtiId :: .free c.dtiId :: q.2.2)

/-- `dti_conn_close_all_connections` -/
def dtiConnCloseAllConnections : Option (Manager × List Output × List Access) :=
  closeAllLoop (s.dtiChannelList.length + 1) s none

/-- The ids of the channels. -/
def ids : List Nat := s.dtiChannelList.map Channel.dtiId

end Manager

/-- The calls of the manager. -/
inductive ManagerCall where
  | call (c : Call)
  | eraseEntry (dtiId : Nat)
  | closeAllConnections
  deriving DecidableEq, Repr

/-- The manager from `dti_conn_init` on. -/
def manager : Machine Manager ManagerCall where
  init s := s = .init
  step s e :=
    match e with
    | .call c => some (s.call c).1
    | .eraseEntry dtiId => some (s.dtiConnEraseEntry dtiId)
    | .closeAllConnections => s.dtiConnCloseAllConnections.map (·.1)

/-! ### What is asked of the calls -/

/-- The lowest of the 32 bits that is not set. -/
def Lowest (used i : Nat) : Prop := i < maxDtiConnChannels ∧ used.testBit i = false ∧ ∀ j < i, used.testBit j = true

namespace Manager

/-- `dti_conn_new` adds a channel with an id that none has, the given one if there is one, or fails and changes nothing. -/
structure NewsRightly (s : Manager) (dtiId : Nat) : Prop where
  failed : (s.dtiConnNew dtiId).2 = dtiIdNotpresent → (s.dtiConnNew dtiId).1 = s
  made : (s.dtiConnNew dtiId).2 ≠ dtiIdNotpresent →
    (s.dtiConnNew dtiId).2 ∉ s.ids ∧ (s.dtiConnNew dtiId).1.ids = s.ids ++ [(s.dtiConnNew dtiId).2] ∧
      (dtiId ≠ dtiIdNotpresent → (s.dtiConnNew dtiId).2 = dtiId)

/-- An id that is erased can be given, and be chosen, again. -/
structure ErasesRightly (s : Manager) (dtiId : Nat) : Prop where
  gone : (s.dtiConnEraseEntry dtiId).ids = s.ids.erase dtiId ∧ dtiId ∉ (s.dtiConnEraseEntry dtiId).ids
  clear : dtiId < maxDtiConnChannels → (s.dtiConnEraseEntry dtiId).usedDtiChannels.testBit dtiId = false
  again : ((s.dtiConnEraseEntry dtiId).dtiConnNew dtiId).2 = dtiId

end Manager

/-- A channel that is closed, to be erased when it is disconnected. -/
def Channel.closing (c : Channel) : Channel × List Output :=
  let r := c.enter .disconnecting
  let q := r.1.dtiConnDisconnect
  ({ q.1 with eraseChannel := true }, r.2 ++ q.2)

/-- No record is used after it is freed. -/
def NoUseAfterFree (l : List Access) : Prop :=
  l.Pairwise fun a b => ∀ i, a = .free i → b ≠ .use i ∧ b ≠ .free i

/-- `dti_conn_close_all_connections` closes every channel that is connected and erases every other one. -/
def Manager.ClosesAll (s : Manager) : Prop :=
  ∃ r, s.dtiConnCloseAllConnections = some r ∧
    r.1.dtiChannelList = (s.dtiChannelList.filter fun c => decide (c.state = .connected)).map (·.closing.1) ∧
    r.2.1 = (s.dtiChannelList.filter fun c => decide (c.state = .connected)).flatMap (·.closing.2) ∧
    (∀ c ∈ s.dtiChannelList, c.state ≠ .connected → c.dtiId < maxDtiConnChannels →
      r.1.usedDtiChannels.testBit c.dtiId = false) ∧
    NoUseAfterFree r.2.2

section
variable {s t : Manager} {c d : Channel} {l l' tail : List Channel} {used i k n dtiId : Nat}

/-! ### Choosing an id -/

private theorem bit_lt (h : i < maxDtiConnChannels) : 2 ^ i < 4294967296 := Nat.pow_lt_pow_right (by decide) h

private theorem and_two_pow_eq_zero (h : i < maxDtiConnChannels) :
    (2 ^ i % 4294967296) &&& used = 0 ↔ used.testBit i = false := by
  rw [Nat.mod_eq_of_lt (bit_lt h), Nat.two_pow_and]
  cases used.testBit i with
  | false => exact iff_of_true (by rw [Bool.toNat_false, Nat.mul_zero]) rfl
  | true =>
    refine iff_of_false ?_ nofun
    rw [Bool.toNat_true, Nat.mul_one]
    exact (Nat.two_pow_pos i).ne'

/-- The loop finds the first bit from `i` on that is not set, or comes to the width of the word. -/
private theorem newIdLoop_spec (h : i + n = maxDtiConnChannels) :
    ∃ k, Manager.newIdLoop used (n + 1) i = some k ∧ k ≤ maxDtiConnChannels ∧
      (k < maxDtiConnChannels → used.testBit k = false) ∧ ∀ j, i ≤ j → j < k → used.testBit j = true := by
  induction n generalizing i with
  | zero =>
    obtain rfl : i = maxDtiConnChannels := h
    have hzero : (2 ^ maxDtiConnChannels % 4294967296) &&& used = 0 := Nat.zero_and used
    exact ⟨maxDtiConnChannels, if_pos hzero, Nat.le_refl _, fun hlt => absurd hlt (Nat.lt_irrefl _),
      fun j hj hlt => absurd hlt (Nat.not_lt.2 hj)⟩
  | succ n ih =>
    have hi : i < maxDtiConnChannels := by omega
    unfold Manager.newIdLoop
    by_cases hzero : (2 ^ i % 4294967296) &&& used = 0
    · rw [if_pos hzero]
      exact ⟨i, rfl, hi.le, fun _ => (and_two_pow_eq_zero hi).1 hzero, fun j hj hlt => absurd hlt (Nat.not_lt.2 hj)⟩
    · obtain ⟨k, hk, hle, hclear, hset⟩ := ih (i := i + 1) (by omega)
      rw [if_neg hzero, hk]
      refine ⟨k, rfl, hle, hclear, fun j hj hlt => ?_⟩
      rcases Nat.eq_or_lt_of_le hj with rfl | hj
      · exact (Bool.not_eq_false _).mp (mt (and_two_pow_eq_zero hi).2 hzero)
      · exact hset j hj hlt

private theorem lowest_unique (hi : Lowest used i) (hk : Lowest used k) : i = k := by
  rcases Nat.lt_trichotomy i k with hlt | heq | hlt
  · exact absurd (hi.2.1.symm.trans (hk.2.2 i hlt)) nofun
  · exact heq
  · exact absurd (hk.2.1.symm.trans (hi.2.2 k hlt)) nofun

private theorem find_none_iff : s.findDtiConn dtiId = none ↔ dtiId ∉ s.ids := by
  constructor
  · intro h hmem
    obtain ⟨c, hc, hid⟩ := List.mem_map.1 hmem
    exact find_none h hc hid
  · intro h
    cases hf : s.findDtiConn dtiId with
    | none => rfl
    | some c =>
      obtain ⟨hc, hid⟩ := mem_of_find hf
      exact absurd (List.mem_map.2 ⟨c, hc, hid⟩) h

/-- What `dti_conn_new` does with an id. -/
private theorem new_eq (h : dtiId ≠ dtiIdNotpresent) :
    s.dtiConnNew dtiId =
      if dtiId ∈ s.ids then (s, dtiIdNotpresent)
      else ({ s with dtiChannelList := s.dtiChannelList ++ [.reset dtiId] }, dtiId) := by
  unfold Manager.dtiConnNew
  simp only [if_neg h]
  by_cases hmem : dtiId ∈ s.ids
  · rw [if_pos hmem]
    obtain ⟨c, hc⟩ := Option.ne_none_iff_exists'.1 (mt find_none_iff.1 (not_not.2 hmem))
    rw [hc]
  · rw [if_neg hmem, find_none_iff.2 hmem]

/-- What `dti_conn_new` does with an id of its own choice. -/
private theorem new_chosen : ∃ k, k ≤ maxDtiConnChannels ∧
    (k < maxDtiConnChannels → s.usedDtiChannels.testBit k = false) ∧
    (∀ j < k, s.usedDtiChannels.testBit j = true) ∧
    s.dtiConnNew dtiIdNotpresent =
      let t := { s with usedDtiChannels := s.usedDtiChannels ||| (2 ^ k % 4294967296) }
      if k ∈ s.ids then (t, dtiIdNotpresent)
      else ({ t with dtiChannelList := s.dtiChannelList ++ [.reset k] }, k) := by
  obtain ⟨k, hk, hle, hclear, hset⟩ := @newIdLoop_spec s.usedDtiChannels 0 maxDtiConnChannels rfl
  refine ⟨k, hle, hclear, fun j hj => hset j (Nat.zero_le j) hj, ?_⟩
  have hget : s.getNewDtiId = ({ s with usedDtiChannels := s.usedDtiChannels ||| (2 ^ k % 4294967296) }, k) := by
    unfold Manager.getNewDtiId
    rw [hk]
  have hne : ¬k = dtiIdNotpresent := by
    unfold maxDtiConnChannels at hle
    unfold dtiIdNotpresent
    omega
  have hfind : ∀ used, ({ s with usedDtiChannels := used } : Manager).findDtiConn k = s.findDtiConn k := fun _ => rfl
  unfold Manager.dtiConnNew
  rw [if_pos rfl, hget]
  simp only [if_neg hne, hfind]
  by_cases hmem : k ∈ s.ids
  · rw [if_pos hmem]
    obtain ⟨c, hc⟩ := Option.ne_none_iff_exists'.1 (mt find_none_iff.1 (not_not.2 hmem))
    rw [hc]
  · rw [if_neg hmem, find_none_iff.2 hmem]

/-- A new channel is added rightly unless an id is to be chosen and a channel has the one that is chosen. -/
theorem newsRightly_iff :
    s.NewsRightly dtiId ↔ (dtiId = dtiIdNotpresent → ∀ c ∈ s.dtiChannelList, ¬Lowest s.usedDtiChannels c.dtiId) := by
  by_cases hid : dtiId = dtiIdNotpresent
  · subst hid
    obtain ⟨k, hle, hclear, hset, heq⟩ := new_chosen (s := s)
    have hlow : k < maxDtiConnChannels → Lowest s.usedDtiChannels k := fun hlt => ⟨hlt, hclear hlt, hset⟩
    have hne : k ≠ dtiIdNotpresent := by
      unfold maxDtiConnChannels at hle
      unfold dtiIdNotpresent
      omega
    by_cases hmem : k ∈ s.ids
    · rw [if_pos hmem] at heq
      rcases Nat.lt_or_eq_of_le hle with hlt | hfull
      · refine iff_of_false (fun h => ?_) fun h => ?_
        · have hsame := congrArg Manager.usedDtiChannels (h.failed (by rw [heq]))
          rw [heq] at hsame
          have hbit := congrArg (fun u => Nat.testBit u k) hsame
          have hpow : (2 ^ k % 4294967296).testBit k = true := by
            rw [Nat.mod_eq_of_lt (bit_lt hlt), Nat.testBit_two_pow_self]
          simp only [Nat.testBit_or, hpow, Bool.or_true, hclear hlt] at hbit
          cases hbit
        · obtain ⟨c, hc, rfl⟩ := List.mem_map.1 hmem
          exact h rfl c hc (hlow hlt)
      · have hnot : s.dtiConnNew dtiIdNotpresent = (s, dtiIdNotpresent) := by
          have hzero : s.usedDtiChannels ||| 2 ^ k % 4294967296 = s.usedDtiChannels := by
            rw [hfull]
            exact Nat.or_zero _
          rw [heq, hzero]
        refine iff_of_true ⟨fun _ => by rw [hnot], fun h => absurd (by rw [hnot]) h⟩ fun _ c _ hc => ?_
        exact absurd (hc.2.1.symm.trans (hset _ (hfull ▸ hc.1))) nofun
    · rw [if_neg hmem] at heq
      refine iff_of_true ⟨fun h => ?_, fun _ => ?_⟩ fun _ c hc hcl => ?_
      · rw [heq] at h
        exact absurd h hne
      · rw [heq]
        exact ⟨hmem, List.map_append, fun h => absurd rfl h⟩
      · rcases Nat.lt_or_eq_of_le hle with hlt | hfull
        · exact hmem (List.mem_map.2 ⟨c, hc, lowest_unique hcl (hlow hlt)⟩)
        · exact absurd (hcl.2.1.symm.trans (hset _ (hfull ▸ hcl.1))) nofun
  · have heq := new_eq (s := s) hid
    refine iff_of_true ?_ fun h => absurd h hid
    by_cases hmem : dtiId ∈ s.ids
    · rw [if_pos hmem] at heq
      exact ⟨fun _ => by rw [heq], fun h => absurd (by rw [heq]) h⟩
    · rw [if_neg hmem] at heq
      constructor
      · intro h
        rw [heq] at h
        exact absurd h hid
      · intro _
        rw [heq]
        exact ⟨hmem, List.map_append, fun _ => rfl⟩

/-! ### Erasing -/

private theorem removeDtiId_list : (s.removeDtiId dtiId).dtiChannelList = s.dtiChannelList := by
  unfold Manager.removeDtiId
  split <;> rfl

private theorem erase_ids : (s.dtiConnEraseEntry dtiId).ids = s.ids.erase dtiId := by
  unfold Manager.dtiConnEraseEntry Manager.ids
  rw [removeDtiId_list]
  exact eraseP_keys

private theorem removeDtiId_clear (h : dtiId < maxDtiConnChannels) :
    (s.removeDtiId dtiId).usedDtiChannels.testBit dtiId = false := by
  have hmask : (4294967295 ^^^ 2 ^ dtiId : Nat).testBit dtiId = false := by
    have hones : (4294967295 : Nat).testBit dtiId = true := by
      rw [show (4294967295 : Nat) = 2 ^ 32 - 1 from rfl, Nat.testBit_two_pow_sub_one]
      exact decide_eq_true h
    rw [Nat.testBit_xor, hones, Nat.testBit_two_pow_self]
    rfl
  unfold Manager.removeDtiId
  rw [if_neg (Nat.not_le.2 h)]
  dsimp only
  rw [Nat.testBit_and, hmask, Bool.and_false]

/-- Any channel can be erased, and its id is there to be given or chosen again. -/
theorem erasesRightly (h : s.ids.Nodup) (hid : dtiId ≠ dtiIdNotpresent) : s.ErasesRightly dtiId := by
  have hgone : dtiId ∉ (s.dtiConnEraseEntry dtiId).ids := by
    rw [erase_ids]
    exact h.not_mem_erase
  refine ⟨⟨erase_ids, hgone⟩, removeDtiId_clear, ?_⟩
  rw [new_eq hid, if_neg hgone]

/-! ### Closing all connections -/

private theorem disconnectLoop_keeps (n : Nat) :
    (c.disconnectLoop n).1.dtiId = c.dtiId ∧ (c.disconnectLoop n).1.state = c.state := by
  induction n with
  | zero => exact ⟨rfl, rfl⟩
  | succ n ih => exact ih

private theorem closing_keeps (c : Channel) : c.closing.1.dtiId = c.dtiId ∧ c.closing.1.state = .disconnecting :=
  disconnectLoop_keeps _

private theorem find_mid (h : Distinct Channel.dtiId (l ++ c :: tail)) :
    find Channel.dtiId c.dtiId (l ++ c :: tail) = some c := by
  obtain ⟨d, hd⟩ : ∃ d, find Channel.dtiId c.dtiId (l ++ c :: tail) = some d := by
    refine Option.ne_none_iff_exists'.1 fun hnone => ?_
    exact find_none hnone (List.mem_append_right l List.mem_cons_self) rfl
  obtain ⟨hmem, hid⟩ := mem_of_find hd
  rw [hd, h.eq hmem (List.mem_append_right l List.mem_cons_self) hid]

private theorem put_mid (h : Distinct Channel.dtiId (l ++ c :: tail)) (hd : d.dtiId = c.dtiId) :
    put Channel.dtiId d (l ++ c :: tail) = l ++ d :: tail := by
  have hids : ∀ e ∈ l ++ tail, e.dtiId ≠ c.dtiId := by
    unfold Distinct at h
    rw [List.map_append, List.map_cons] at h
    obtain ⟨-, htail, hapart⟩ := List.nodup_append.1 h
    intro e he heq
    rcases List.mem_append.1 he with he | he
    · exact hapart _ (List.mem_map_of_mem he) _ List.mem_cons_self heq
    · exact (List.nodup_cons.1 htail).1 (heq ▸ List.mem_map_of_mem he)
  have hkeep : ∀ m : List Channel, (∀ e ∈ m, e.dtiId ≠ c.dtiId) →
      m.map (fun e => if e.dtiId = d.dtiId then d else e) = m := fun m hm =>
    (List.map_congr_left fun e he => if_neg (hd ▸ hm e he)).trans (List.map_id' m)
  unfold put
  rw [List.map_append, List.map_cons, hkeep l fun e he => hids e (List.mem_append_left _ he),
    hkeep tail fun e he => hids e (List.mem_append_right _ he), if_pos hd.symm]

private theorem eraseP_mid (h : Distinct Channel.dtiId (l ++ c :: tail)) :
    (l ++ c :: tail).eraseP (fun e => decide (e.dtiId = c.dtiId)) = l ++ tail := by
  have hl : ∀ e ∈ l, ¬decide (e.dtiId = c.dtiId) = true := by
    intro e he heq
    unfold Distinct at h
    rw [List.map_append, List.map_cons] at h
    exact (List.nodup_append.1 h).2.2 _ (List.mem_map_of_mem he) _ List.mem_cons_self (of_decide_eq_true heq)
  have hc : (c :: tail).eraseP (fun e => decide (e.dtiId = c.dtiId)) = tail := List.eraseP_cons_of_pos (by simp)
  rw [List.eraseP_append_right _ hl, hc]

/-- The record of a channel that is closed. -/
private theorem close_eq (h : Distinct Channel.dtiId s.dtiChannelList) (hs : s.dtiChannelList = l ++ c :: tail)
    (hc : c.state = .connected) :
    ((s.dtiConnCloseDpath c.dtiId).1.setErase c.dtiId).dtiChannelList = l ++ c.closing.1 :: tail ∧
      (s.dtiConnCloseDpath c.dtiId).2.1 = c.closing.2 ∧
      ((s.dtiConnCloseDpath c.dtiId).1.setErase c.dtiId).usedDtiChannels = s.usedDtiChannels := by
  have hfind : s.findDtiConn c.dtiId = some c := by
    unfold Manager.findDtiConn
    rw [hs] at h ⊢
    exact find_mid h
  have hne : c.state ≠ .disconnected := by
    rw [hc]
    nofun
  obtain ⟨d, hd⟩ : ∃ d, (c.enter .disconnecting).1.dtiConnDisconnect.1 = d := ⟨_, rfl⟩
  have hid : d.dtiId = c.dtiId := hd ▸ (closing_keeps c).1
  have hclose : s.dtiConnCloseDpath c.dtiId = (s.store d, c.closing.2, true) := by
    unfold Manager.dtiConnCloseDpath
    rw [hfind]
    simp only [if_pos hne]
    rw [hd]
    rfl
  have hstore : (s.store d).dtiChannelList = l ++ d :: tail := by
    unfold Manager.store
    dsimp only
    rw [hs] at h ⊢
    exact put_mid h hid
  have hdist : Distinct Channel.dtiId (l ++ d :: tail) := by
    rw [← hstore]
    exact h.put
  have hfind' : (s.store d).findDtiConn c.dtiId = some d := by
    unfold Manager.findDtiConn
    rw [hstore, ← hid]
    exact find_mid hdist
  have hclosing : c.closing.1 = { d with eraseChannel := true } := by
    rw [← hd]
    rfl
  rw [hclose, hclosing]
  unfold Manager.setErase
  rw [hfind']
  refine ⟨?_, rfl, rfl⟩
  change put Channel.dtiId { d with eraseChannel := true } (s.store d).dtiChannelList = _
  rw [hstore]
  exact put_mid hdist rfl

private theorem next_mid (h : Distinct Channel.dtiId s.dtiChannelList) (hs : s.dtiChannelList = l ++ tail) :
    s.nextChannel (l.getLast?.map Channel.dtiId) = tail.head? := by
  rcases List.eq_nil_or_concat' l with rfl | ⟨l, d, rfl⟩
  · change s.dtiChannelList.head? = _
    rw [hs]
    rfl
  · rw [List.getLast?_concat]
    unfold Manager.nextChannel
    dsimp only [Option.map_some]
    rw [hs] at h ⊢
    rw [List.append_assoc] at h ⊢
    have hl : ∀ e ∈ l, decide (e.dtiId ≠ d.dtiId) = true := by
      intro e he
      unfold Distinct at h
      rw [List.map_append] at h
      exact decide_eq_true fun heq =>
        (List.nodup_append.1 h).2.2 _ (List.mem_map_of_mem he) _ List.mem_cons_self heq
    rw [List.dropWhile_append_of_pos hl]
    change ((d :: tail).dropWhile _).tail.head? = _
    rw [List.dropWhile_cons_of_neg (by simp)]
    rfl

/-- Behind a channel that is erased the walk is at its end. -/
private theorem next_erased (h : dtiId ∉ s.ids) : s.nextChannel (some dtiId) = none := by
  have hall : s.dtiChannelList.dropWhile (fun c => decide (c.dtiId ≠ dtiId)) = [] :=
    List.dropWhile_eq_nil_iff.2 fun c hc => decide_eq_true fun heq => h (heq ▸ List.mem_map_of_mem hc)
  unfold Manager.nextChannel
  dsimp only
  rw [hall]
  rfl

/-- What is left of the channels behind the connected ones that have been closed: the next one is erased. -/
private def afterErase (s : Manager) : List Channel → Manager × List Access
  | [] => (s, [])
  | c :: _ => (s.removeDtiId c.dtiId, [.use c.dtiId, .free c.dtiId])

/-- The walk along connected channels. -/
private theorem closeAllLoop_eq (h : Distinct Channel.dtiId s.dtiChannelList)
    (hs : s.dtiChannelList = l' ++ (l ++ tail)) (hl : ∀ c ∈ l, c.state = .connected)
    (htail : ∀ c ∈ tail.head?, c.state ≠ .connected) (hn : (l ++ tail).length < n) :
    ∃ r, Manager.closeAllLoop n s (l'.getLast?.map Channel.dtiId) = some r ∧
      r.1.dtiChannelList = l' ++ (l.map (·.closing.1) ++ tail.tail) ∧ r.2.1 = l.flatMap (·.closing.2) ∧
      r.1.usedDtiChannels = (afterErase s tail).1.usedDtiChannels ∧
      r.2.2 = l.flatMap (fun c => [.use c.dtiId, .use c.dtiId]) ++ (afterErase s tail).2 := by
  induction l generalizing s l' n with
  | nil =>
    obtain ⟨n, rfl⟩ := Nat.exists_eq_add_one.2 (Nat.zero_lt_of_lt hn)
    have hnext := next_mid h hs
    unfold Manager.closeAllLoop
    rw [hnext]
    cases tail with
    | nil =>
      refine ⟨_, rfl, ?_, rfl, rfl, rfl⟩
      exact hs
    | cons c rest =>
      have hc : c.state ≠ .connected := htail c rfl
      obtain ⟨n, rfl⟩ := Nat.exists_eq_add_one.2 (Nat.zero_lt_of_lt (Nat.lt_of_succ_lt_succ hn))
      have hlist : (s.dtiConnEraseEntry c.dtiId).dtiChannelList = l' ++ rest := by
        unfold Manager.dtiConnEraseEntry
        rw [removeDtiId_list]
        dsimp only
        rw [hs] at h ⊢
        exact eraseP_mid h
      have hnot : c.dtiId ∉ (s.dtiConnEraseEntry c.dtiId).ids := by
        rw [erase_ids]
        exact List.Nodup.not_mem_erase h
      have hend : Manager.closeAllLoop (n + 1) (s.dtiConnEraseEntry c.dtiId) (some c.dtiId) =
          some (s.dtiConnEraseEntry c.dtiId, [], []) := by
        unfold Manager.closeAllLoop
        rw [next_erased hnot]
      change ∃ r, (if c.state = .connected then _ else
        (Manager.closeAllLoop (n + 1) (s.dtiConnEraseEntry c.dtiId) (some c.dtiId)).map _) = some r ∧ _
      rw [if_neg hc, hend]
      refine ⟨_, rfl, hlist, rfl, ?_, rfl⟩
      change (Manager.removeDtiId { s with dtiChannelList := _ } c.dtiId).usedDtiChannels =
        (s.removeDtiId c.dtiId).usedDtiChannels
      unfold Manager.removeDtiId
      split <;> rfl
  | cons c l ih =>
    obtain ⟨n, rfl⟩ := Nat.exists_eq_add_one.2 (Nat.zero_lt_of_lt hn)
    have hc := hl c List.mem_cons_self
    have hnext := next_mid h hs
    have hmid : s.dtiChannelList = l' ++ c :: (l ++ tail) := hs
    obtain ⟨hlist, hout, hused⟩ := close_eq h hmid hc
    obtain ⟨t, ht⟩ : ∃ t, (s.dtiConnCloseDpath c.dtiId).1.setErase c.dtiId = t := ⟨_, rfl⟩
    rw [ht] at hlist hused
    have hsnoc : t.dtiChannelList = (l' ++ [c.closing.1]) ++ (l ++ tail) := by
      rw [hlist, List.append_assoc]
      rfl
    have hdist : Distinct Channel.dtiId t.dtiChannelList := by
      unfold Distinct at h ⊢
      rw [hs] at h
      rw [hlist]
      simp only [List.map_append, List.map_cons, List.cons_append] at h ⊢
      rw [(closing_keeps c).1]
      exact h
    obtain ⟨r, hr, hrlist, hrout, hrused, hracc⟩ :=
      ih hdist hsnoc (fun d hd => hl d (List.mem_cons_of_mem _ hd)) (Nat.lt_of_succ_lt_succ hn)
    rw [List.getLast?_concat, Option.map_some, (closing_keeps c).1] at hr
    unfold Manager.closeAllLoop
    rw [hnext]
    change ∃ q, (if c.state = .connected then (Manager.closeAllLoop n ((s.dtiConnCloseDpath c.dtiId).1.setErase c.dtiId)
      (some c.dtiId)).map _ else _) = some q ∧ _
    rw [if_pos hc, ht, hr]
    have hafter : (afterErase t tail).1.usedDtiChannels = (afterErase s tail).1.usedDtiChannels ∧
        (afterErase t tail).2 = (afterErase s tail).2 := by
      cases tail with
      | nil => exact ⟨hused, rfl⟩
      | cons d rest =>
        refine ⟨?_, rfl⟩
        change (t.removeDtiId d.dtiId).usedDtiChannels = (s.removeDtiId d.dtiId).usedDtiChannels
        unfold Manager.removeDtiId
        split
        · exact hused
        · dsimp only
          rw [hused]
    refine ⟨_, rfl, ?_, ?_, hrused.trans hafter.1, ?_⟩
    · change r.1.dtiChannelList = _
      rw [hrlist, List.append_assoc]
      rfl
    · change (s.dtiConnCloseDpath c.dtiId).2.1 ++ r.2.1 = _
      rw [hout, hrout]
      rfl
    · change Access.use c.dtiId :: Access.use c.dtiId :: r.2.2 = _
      rw [hracc, hafter.2]
      rfl

private theorem noUse_uses (l : List Channel) :
    ∀ a ∈ l.flatMap (fun c => [Access.use c.dtiId, .use c.dtiId]), ∀ i, a ≠ .free i := by
  intro a ha i hi
  obtain ⟨c, -, hc⟩ := List.mem_flatMap.1 ha
  rw [hi] at hc
  simp at hc

private theorem noUse_append {l₁ l₂ : List Access} (h₁ : ∀ a ∈ l₁, ∀ i, a ≠ .free i) (h₂ : NoUseAfterFree l₂) :
    NoUseAfterFree (l₁ ++ l₂) := by
  have hfirst : ∀ m : List Access, (∀ a ∈ m, ∀ i, a ≠ .free i) → NoUseAfterFree m := by
    intro m hm
    induction m with
    | nil => exact .nil
    | cons a m ih =>
      refine .cons (fun b _ i hi => absurd hi (hm a List.mem_cons_self i)) ?_
      exact ih fun b hb => hm b (List.mem_cons_of_mem _ hb)
  exact List.pairwise_append.2 ⟨hfirst l₁ h₁, h₂, fun a ha b _ i hi => absurd hi (h₁ a ha i)⟩

private theorem noUse_afterErase (s : Manager) (tail : List Channel) : NoUseAfterFree (afterErase s tail).2 := by
  cases tail with
  | nil => exact .nil
  | cons c rest => exact .cons (fun b _ i hi => nomatch hi) (.cons nofun .nil)

/-- The channels in front of the first one that is not connected, and what the closing of all connections does. -/
private theorem closeAll_spec (h : s.ids.Nodup) : ∃ (l tail : List Channel) (r : Manager × List Output × List Access),
    s.dtiChannelList = l ++ tail ∧ (∀ c ∈ l, c.state = .connected) ∧ (∀ c ∈ tail.head?, c.state ≠ .connected) ∧
      s.dtiConnCloseAllConnections = some r ∧
      r.1.dtiChannelList = l.map (·.closing.1) ++ tail.tail ∧ r.2.1 = l.flatMap (·.closing.2) ∧
      r.1.usedDtiChannels = (afterErase s tail).1.usedDtiChannels ∧ NoUseAfterFree r.2.2 := by
  obtain ⟨p, hp⟩ : ∃ p : Channel → Bool, (fun c => decide (c.state = .connected)) = p := ⟨_, rfl⟩
  obtain ⟨l, hlist⟩ : ∃ l, s.dtiChannelList.takeWhile p = l := ⟨_, rfl⟩
  obtain ⟨tail, htail⟩ : ∃ tail, s.dtiChannelList.dropWhile p = tail := ⟨_, rfl⟩
  have hs : s.dtiChannelList = l ++ tail := by
    rw [← hlist, ← htail, List.takeWhile_append_dropWhile]
  have hl : ∀ c ∈ l, c.state = .connected := by
    intro c hc
    rw [← hlist] at hc
    have hpc : p c = true := List.mem_takeWhile_imp hc
    rw [← hp] at hpc
    exact of_decide_eq_true hpc
  have hhead : ∀ c ∈ tail.head?, c.state ≠ .connected := by
    intro c hc hconn
    have hnot := List.head?_dropWhile_not p s.dtiChannelList
    rw [htail, Option.mem_def.1 hc] at hnot
    have hpc : p c = true := by
      rw [← hp]
      exact decide_eq_true hconn
    exact absurd (hpc.symm.trans hnot) nofun
  obtain ⟨r, hr, hrlist, hrout, hrused, hracc⟩ :=
    closeAllLoop_eq (n := s.dtiChannelList.length + 1) h (show s.dtiChannelList = [] ++ (l ++ tail) from hs) hl hhead (hs ▸ Nat.lt_succ_self _)
  exact ⟨l, tail, r, hs, hl, hhead, hr, hrlist, hrout, hrused,
    hracc ▸ noUse_append (noUse_uses l) (noUse_afterErase s tail)⟩

/-- All connections are closed rightly exactly when no channel but the last one is not connected. -/
theorem closesAll_iff (h : s.ids.Nodup) :
    s.ClosesAll ↔ ∀ c ∈ s.dtiChannelList.dropLast, c.state = .connected := by
  obtain ⟨l, tail, r, hs, hl, hhead, hr, hrlist, hrout, hrused, hracc⟩ := closeAll_spec h
  have hfilter : (l.filter fun c => decide (c.state = .connected)) = l :=
    List.filter_eq_self.2 fun c hc => decide_eq_true (hl c hc)
  have hright (hlast : (tail.filter fun c => decide (c.state = .connected)) = []) (htail : tail.tail = [])
      (hbit : ∀ c ∈ tail, c.dtiId < maxDtiConnChannels → r.1.usedDtiChannels.testBit c.dtiId = false) : s.ClosesAll := by
    refine ⟨r, hr, ?_, ?_, fun c hc hstate => ?_, hracc⟩
    · rw [hrlist, hs, List.filter_append, hfilter, hlast, htail, List.append_nil, List.append_nil]
    · rw [hrout, hs, List.filter_append, hfilter, hlast, List.append_nil]
    · rw [hs] at hc
      rcases List.mem_append.1 hc with hc | hc
      · exact absurd (hl c hc) hstate
      · exact hbit c hc
  cases tail with
  | nil =>
    refine iff_of_true (hright rfl rfl nofun) fun c hc => hl c ?_
    rw [List.append_nil] at hs
    exact hs ▸ List.dropLast_subset _ hc
  | cons c rest =>
    have hstate : c.state ≠ .connected := hhead c rfl
    cases rest with
    | nil =>
      refine iff_of_true (hright (by rw [List.filter_cons_of_neg (by simpa using hstate), List.filter_nil]) rfl ?_) ?_
      · intro d hd hid
        obtain rfl := List.mem_singleton.1 hd
        rw [hrused]
        exact removeDtiId_clear hid
      · rw [hs, List.dropLast_concat]
        exact hl
    | cons d rest =>
      refine iff_of_false (fun hcloses => ?_) fun hall => hstate (hall c ?_)
      · obtain ⟨r', hr', hlist', -⟩ := hcloses
        obtain rfl : r' = r := Option.some.inj (hr'.symm.trans hr)
        rw [hrlist] at hlist'
        -- the channel behind the erased one has been left as it was
        have hd : d ∈ (s.dtiChannelList.filter fun c => decide (c.state = .connected)).map (·.closing.1) :=
          hlist' ▸ List.mem_append_right _ List.mem_cons_self
        obtain ⟨e, he, hde⟩ := List.mem_map.1 hd
        obtain ⟨he, hconn⟩ := List.mem_filter.1 he
        obtain ⟨hid, hdis⟩ := closing_keeps e
        rw [hde] at hid hdis
        have hmem : d ∈ s.dtiChannelList := hs ▸ List.mem_append_right _ (List.mem_cons_of_mem _ List.mem_cons_self)
        obtain rfl : d = e := Distinct.eq (show Distinct Channel.dtiId s.dtiChannelList from h) hmem he hid
        exact absurd (hdis.symm.trans (of_decide_eq_true hconn)) nofun
      · rw [hs, List.dropLast_append_of_ne_nil (List.cons_ne_nil c _)]
        exact List.mem_append_right _ List.mem_cons_self

/-! ### Runs -/

/-- No id is twice in the list, and none is the number for no channel. -/
private def Numbered (s : Manager) : Prop := s.ids.Nodup ∧ dtiIdNotpresent ∉ s.ids

private theorem Numbered.of_sublist (h : Numbered s) (ht : t.ids.Sublist s.ids) : Numbered t :=
  ⟨h.1.sublist ht, fun hmem => h.2 (ht.subset hmem)⟩

private theorem Numbered.of_eq (h : Numbered s) (ht : t.ids = s.ids) : Numbered t := h.of_sublist (ht ▸ List.Sublist.refl _)

private theorem ids_store : (s.store c).ids = s.ids := put_keys

private theorem sublist_store : (s.store c).ids.Sublist s.ids := by
  rw [ids_store]

private theorem ids_setErase : (s.setErase dtiId).ids = s.ids := by
  unfold Manager.setErase
  split
  · rfl
  · exact ids_store

private theorem ids_closeDpath : (s.dtiConnCloseDpath dtiId).1.ids = s.ids := by
  unfold Manager.dtiConnCloseDpath
  split
  · rfl
  · split
    · exact ids_store
    · rfl

private theorem ids_estDpath {e : EntityList} {mode : ConnMode} {cb : Option ConnCb} :
    (s.dtiConnEstDpath dtiId e mode cb).1.ids = s.ids := by
  unfold Manager.dtiConnEstDpath
  split
  · rfl
  · split
    · rfl
    · split
      · exact ids_store
      · exact ids_store

private theorem ids_eraseEntry : (s.dtiConnEraseEntry dtiId).ids.Sublist s.ids := by
  rw [erase_ids]
  exact List.erase_sublist

private theorem ids_entityDisconnected {e : EntityId} : (s.dtiConnEntityDisconnected k e).1.ids.Sublist s.ids := by
  unfold Manager.dtiConnEntityDisconnected
  split
  · exact List.Sublist.refl _
  · dsimp only
    split
    · split
      · exact sublist_store
      · split
        · exact ids_eraseEntry.trans sublist_store
        · exact sublist_store
    · exact sublist_store

private theorem ids_entityConnected {e : EntityId} {result : ConnResult} :
    (s.dtiConnEntityConnected k e result).1.ids.Sublist s.ids := by
  unfold Manager.dtiConnEntityConnected
  split
  · exact List.Sublist.refl _
  · split
    · dsimp only
      rw [ids_closeDpath]
      exact ids_entityDisconnected
    · exact sublist_store

private theorem ids_closeAll {prev : Option Nat} {r : Manager × List Output × List Access}
    (h : Manager.closeAllLoop n s prev = some r) : r.1.ids.Sublist s.ids := by
  induction n generalizing s prev r with
  | zero => cases h
  | succ n ih =>
    unfold Manager.closeAllLoop at h
    split at h
    · obtain rfl := Option.some.inj h
      exact List.Sublist.refl _
    · split at h
      · obtain ⟨q, hq, rfl⟩ := Option.map_eq_some_iff.1 h
        have hsub := ih hq
        rw [ids_setErase, ids_closeDpath] at hsub
        exact hsub
      · obtain ⟨q, hq, rfl⟩ := Option.map_eq_some_iff.1 h
        exact (ih hq).trans ids_eraseEntry

private theorem Numbered.new (h : Numbered s) : Numbered (s.dtiConnNew dtiId).1 := by
  have happend : ∀ {u : Manager} {i : Nat}, u.ids = s.ids ++ [i] → i ∉ s.ids → i ≠ dtiIdNotpresent → Numbered u := by
    intro u i hu hi hne
    refine ⟨?_, fun hmem => ?_⟩
    · rw [hu]
      exact List.nodup_append.2 ⟨h.1, List.nodup_singleton _, fun a ha b hb heq =>
        hi (List.mem_singleton.1 hb ▸ heq ▸ ha)⟩
    · rw [hu] at hmem
      rcases List.mem_append.1 hmem with hmem | hmem
      · exact h.2 hmem
      · exact hne (List.mem_singleton.1 hmem).symm
  by_cases hid : dtiId = dtiIdNotpresent
  · obtain ⟨k, hle, -, -, heq⟩ := new_chosen (s := s)
    have hne : k ≠ dtiIdNotpresent := by
      unfold maxDtiConnChannels at hle
      unfold dtiIdNotpresent
      omega
    rw [hid, heq]
    by_cases hmem : k ∈ s.ids
    · rw [if_pos hmem]
      exact h.of_eq rfl
    · rw [if_neg hmem]
      exact happend List.map_append hmem hne
  · rw [new_eq hid]
    by_cases hmem : dtiId ∈ s.ids
    · rw [if_pos hmem]
      exact h
    · rw [if_neg hmem]
      exact happend List.map_append hmem hid

private theorem Numbered.step {e : ManagerCall} (h : Numbered s) (ht : manager.step s e = some t) : Numbered t := by
  cases e with
  | call c =>
    obtain rfl : (s.call c).1 = t := Option.some.inj ht
    cases c with
    | new id => exact h.new
    | estDpath id l mode cb => exact h.of_eq ids_estDpath
    | closeDpath id => exact h.of_eq ids_closeDpath
    | entityConnected linkId e result => exact h.of_sublist ids_entityConnected
    | entityDisconnected linkId e => exact h.of_sublist ids_entityDisconnected
  | eraseEntry id =>
    obtain rfl : s.dtiConnEraseEntry id = t := Option.some.inj ht
    exact h.of_sublist ids_eraseEntry
  | closeAllConnections =>
    obtain ⟨r, hr, rfl⟩ := Option.map_eq_some_iff.1 ht
    exact h.of_sublist (ids_closeAll hr)

private theorem numbered (h : manager.Reach (fun _ _ => true) s) : Numbered s :=
  h.invariant (I := Numbered) (fun s (hs : s = .init) => hs ▸ ⟨.nil, nofun⟩) fun _ _ _ hs _ ht => hs.step ht

/-- In every run no two channels have the same id, and any of them can be erased and its id be used again.  A new channel is
added rightly unless an id is to be chosen and a channel has the one that is chosen; all connections are closed rightly
exactly when no channel but the last one is not connected. -/
theorem channelIds_iff (h : manager.Reach (fun _ _ => true) s) :
    s.ids.Nodup ∧
    (∀ dtiId, s.NewsRightly dtiId ↔
      (dtiId = dtiIdNotpresent → ∀ c ∈ s.dtiChannelList, ¬Lowest s.usedDtiChannels c.dtiId)) ∧
    (∀ c ∈ s.dtiChannelList, s.ErasesRightly c.dtiId) ∧
    (s.ClosesAll ↔ ∀ c ∈ s.dtiChannelList.dropLast, c.state = .connected) := by
  obtain ⟨hnodup, hpresent⟩ := numbered h
  refine ⟨hnodup, fun id => newsRightly_iff, fun c hc => erasesRightly hnodup fun heq => ?_, closesAll_iff hnodup⟩
  exact hpresent (heq ▸ List.mem_map_of_mem hc)

end

namespace channels

/-- The manager after two channels have been given to it. -/
def given : Manager := ⟨0, [.reset 0, .reset 1], ⟨none, 0, []⟩⟩

private theorem given_reach : manager.Reach (fun _ _ => true) given := by
  have hrun : manager.run (fun _ _ => true) .init [.call (.new 0), .call (.new 1)] = some given := rfl
  exact Machine.Reach.of_run (.init rfl) hrun

theorem channelIds_iff_given :
    given.ids.Nodup ∧
    (∀ dtiId, given.NewsRightly dtiId ↔
      (dtiId = dtiIdNotpresent → ∀ c ∈ given.dtiChannelList, ¬Lowest given.usedDtiChannels c.dtiId)) ∧
    (∀ c ∈ given.dtiChannelList, given.ErasesRightly c.dtiId) ∧
    (given.ClosesAll ↔ ∀ c ∈ given.dtiChannelList.dropLast, c.state = .connected) :=
  channelIds_iff given_reach

/-- With the channels 0 and 1 given to the manager, the id that it chooses is 0 and no channel is added; when all connections
are closed, one of the two channels is left. -/
theorem given_kept : ∃ s, manager.Reach (fun _ _ => true) s ∧
    (¬s.NewsRightly dtiIdNotpresent ∧ s.getNewDtiId.2 ∈ s.ids ∧ (s.dtiConnNew dtiIdNotpresent).1.usedDtiChannels ≠ 0) ∧
    ¬s.ClosesAll ∧ s.dtiConnCloseAllConnections.map (·.1.ids) = some [1] := by
  refine ⟨given, given_reach, ⟨fun h => ?_, by decide, by decide⟩, fun h => ?_, by decide⟩
  · exact newsRightly_iff.1 h rfl (.reset 0) List.mem_cons_self ⟨by decide, by decide, nofun⟩
  · exact absurd ((closesAll_iff (by decide)).1 h (.reset 0) List.mem_cons_self) nofun

end channels

end Citrine.Dti
