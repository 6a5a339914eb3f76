import Mathlib.Tactic.ByContra
import Mathlib.Tactic.SplitIfs
import Citrine.Comlib.ClList

/-!
# Frequency hopping lists

`rr_srv.c`: `srv_create_chan_mob_alloc` picks the channels of a cell channel list whose ranks a mobile allocation names,
and takes them for a hopping list when they lie in one band.  The channels are picked by a scan over all channels with a
counter (`choose`); the bands they lie in are collected as flags, in which GSM 850 and GSM 900 are one.
-/

namespace Citrine.Rr

open Bits Comlib

/-! ### The code -/

/-- The values of `std`. -/
inductive Std where
  | notPresent | gsm900 | egsm | gsm1900 | gsm1800 | dual | dualEgsm | gsm850 | dualUs | gsm850_1800 | gsm900_1900
  | gsm850_900_1800 | gsm850_900_1900
  deriving DecidableEq, Repr

/-- `NOT_PRESENT_8BIT` -/
def notPresent8Bit : Nat := 0xFF

def lowChannel900 : Nat := 0x1
def highChannel900 : Nat := 0x7c
def lowChannelEgsm : Nat := 0x3cf
def highChannelEgsm : Nat := 0x400
def lowChannel1900 : Nat := 0x200
def highChannel1900 : Nat := 0x32a
def lowChannel1800 : Nat := 0x200
def highChannel1800 : Nat := 0x375
def lowChannel850 : Nat := 0x80
def highChannel850 : Nat := 0xfb

def unknownBandUsed : Nat := 0
def invalidBandUsed : Nat := 1
def lowBandUsed : Nat := 2
def highBandUsed : Nat := 4
def extBandUsed : Nat := 8

/-- `INRANGE`, with its unsigned differences. -/
def inrange (min x max : Nat) : Bool := decide ((x + (2 ^ 32 - min)) % 2 ^ 32 ≤ max - min)

/-- `for_check_frequency` -/
def forCheckFrequency (std : Std) (channel : Nat) : Nat :=
  if channel ≥ highChannelEgsm then unknownBandUsed
  else
    let internal := if channel = channel0 then channel0Internal else channel
    match std with
    | .notPresent => invalidBandUsed
    | .gsm900 => if inrange lowChannel900 channel highChannel900 then lowBandUsed else invalidBandUsed
    | .egsm =>
      if inrange lowChannel900 internal highChannel900 then lowBandUsed
      else if inrange lowChannelEgsm internal highChannelEgsm then extBandUsed
      else invalidBandUsed
    | .gsm1900 => if inrange lowChannel1900 channel highChannel1900 then highBandUsed else invalidBandUsed
    | .gsm1800 => if inrange lowChannel1800 channel highChannel1800 then highBandUsed else invalidBandUsed
    | .dual =>
      if inrange lowChannel900 channel highChannel900 then lowBandUsed
      else if inrange lowChannel1800 channel highChannel1800 then highBandUsed
      else invalidBandUsed
    | .dualEgsm =>
      if inrange lowChannel900 internal highChannel900 then lowBandUsed
      else if inrange lowChannel1800 internal highChannel1800 then highBandUsed
      else if inrange lowChannelEgsm internal highChannelEgsm then extBandUsed
      else invalidBandUsed
    | .gsm850 => if inrange lowChannel850 channel highChannel850 then lowBandUsed else invalidBandUsed
    | .dualUs =>
      if inrange lowChannel850 channel highChannel850 then lowBandUsed
      else if inrange lowChannel1900 channel highChannel1900 then highBandUsed
      else invalidBandUsed
    | .gsm850_1800 =>
      if inrange lowChannel850 channel highChannel850 then lowBandUsed
      else if inrange lowChannel1800 channel highChannel1800 then highBandUsed
      else invalidBandUsed
    | .gsm900_1900 =>
      if inrange lowChannel900 internal highChannel900 then lowBandUsed
      else if inrange lowChannel1900 internal highChannel1900 then highBandUsed
      else if inrange lowChannelEgsm internal highChannelEgsm then extBandUsed
      else invalidBandUsed
    | .gsm850_900_1800 =>
      if inrange lowChannel900 internal highChannel900 then lowBandUsed
      else if inrange lowChannel1800 internal highChannel1800 then highBandUsed
      else if inrange lowChannelEgsm internal highChannelEgsm then extBandUsed
      else if inrange lowChannel850 internal highChannel850 then lowBandUsed
      else invalidBandUsed
    | .gsm850_900_1900 =>
      if inrange lowChannel900 internal highChannel900 then lowBandUsed
      else if inrange lowChannel1900 internal highChannel1900 then highBandUsed
      else if inrange lowChannelEgsm internal highChannelEgsm then extBandUsed
      else if inrange lowChannel850 internal highChannel850 then lowBandUsed
      else invalidBandUsed

/-- `srv_compare_used_frequency_bands` -/
def srvCompareUsedFrequencyBands (std : Std) (frequencyBandsUsed : Nat) : Nat :=
  if frequencyBandsUsed = lowBandUsed then
    match std with
    | .gsm900 | .egsm | .gsm850 | .dual | .dualEgsm | .dualUs | .gsm850_1800 | .gsm900_1900 | .gsm850_900_1800
    | .gsm850_900_1900 => 1
    | _ => 0
  else if frequencyBandsUsed = highBandUsed then
    match std with
    | .gsm1800 | .gsm1900 | .dual | .dualEgsm | .dualUs | .gsm850_1800 | .gsm900_1900 | .gsm850_900_1800
    | .gsm850_900_1900 => 1
    | _ => 0
  else if frequencyBandsUsed = extBandUsed ∨ frequencyBandsUsed = lowBandUsed ||| extBandUsed then
    match std with
    | .egsm | .dualEgsm | .gsm900_1900 | .gsm850_900_1800 | .gsm850_900_1900 => 1
    | _ => 0
  else 0

/-- `srv_get_channel` -/
def srvGetChannel (list : Octets) (channel : Nat) : Nat := (scrChannelBit list channel .getChannelBit).1

/-- `srv_set_channel` -/
def srvSetChannel (list : Octets) (channel : Nat) : Octets := (scrChannelBit list channel .setChannelBit).2

/-- The variables of `srv_create_chan_mob_alloc`. -/
structure MobAllocScan where
  maIndex : Nat
  maValue : Nat
  x : Nat
  freqBandUsed : Nat
  list : Octets

/-- The loop of `srv_create_chan_mob_alloc` over the last `n` channels; an error is the early `return FALSE`. -/
def scanChannels (std : Std) (clist : Octets) (mobileAlloc : Nat → Nat) :
    Nat → Nat → MobAllocScan → Except Octets MobAllocScan
  | 0, _, s => .ok s
  | n + 1, arfcn, s =>
    let s := if srvGetChannel clist arfcn ≠ 0 then { s with x := (s.x + 1) % 256 } else s
    if s.x = s.maValue then
      let bandUsed := forCheckFrequency std arfcn
      if bandUsed ≤ invalidBandUsed then .error s.list
      else
        let s : MobAllocScan :=
          { s with
            freqBandUsed := s.freqBandUsed ||| bandUsed
            list := srvSetChannel s.list arfcn
            maValue := mobileAlloc s.maIndex
            maIndex := s.maIndex + 1 }
        if s.maValue = notPresent8Bit then .ok s else scanChannels std clist mobileAlloc n (arfcn + 1) s
    else scanChannels std clist mobileAlloc n (arfcn + 1) s

/-- The part of `srv_create_chan_mob_alloc` that adds channel 0, when it is needed. -/
def scanChannel0 (std : Std) (clist : Octets) (s : MobAllocScan) : Except Octets MobAllocScan :=
  if s.maValue ≠ notPresent8Bit then
    let s := if srvGetChannel clist channel0 ≠ 0 then { s with x := (s.x + 1) % 256 } else s
    if s.x = s.maValue then
      let s := { s with list := srvSetChannel s.list channel0 }
      if forCheckFrequency std channel0 ≤ invalidBandUsed then .error s.list
      else .ok { s with freqBandUsed := s.freqBandUsed ||| extBandUsed }
    else .ok s
  else .ok s

/-- `srv_create_chan_mob_alloc`: its result, and the hopping list. -/
def srvCreateChanMobAlloc (std : Std) (clist : Octets) (mobileAlloc : Nat → Nat) : Nat × Octets :=
  let s : MobAllocScan := ⟨1, mobileAlloc 0, 0, 0, fun _ => 0⟩
  if s.maValue ≠ notPresent8Bit then
    match scanChannels std clist mobileAlloc (highChannelEgsm - lowChannel900) lowChannel900 s with
    | .error list => (0, list)
    | .ok s =>
      match scanChannel0 std clist s with
      | .error list => (0, list)
      | .ok s => (srvCompareUsedFrequencyBands std s.freqBandUsed, s.list)
  else (0, s.list)

/-! ### What a hopping list is -/

/-- A mobile allocation: the ranks of channels, in ascending order. -/
structure MobileAlloc where
  ranks : List Nat
  ascending : ranks.Pairwise (· < ·)
  range : ∀ r ∈ ranks, 1 ≤ r ∧ r < notPresent8Bit

/-- The octets of a mobile allocation, with the end identifier. -/
def MobileAlloc.octets (ma : MobileAlloc) (i : Nat) : Nat := ma.ranks.getD i notPresent8Bit

/-- The channels of a cell channel list by rank: those from 1 to 1023 in ascending order, and channel 0 as the last one. -/
def ranked (clist : Octets) : List Nat :=
  (List.range' 1 1023).filter (inList clist) ++ if inList clist channel0 then [channel0] else []

/-- A channel has a rank that the mobile allocation names. -/
def Named (clist : Octets) (ma : MobileAlloc) (channel : Nat) : Prop :=
  ∃ i, (ranked clist)[i]? = some channel ∧ i + 1 ∈ ma.ranks

/-- The frequency bands. -/
inductive Band where
  | gsm850 | gsm900 | egsm900 | dcs1800 | pcs1900
  deriving DecidableEq, Repr

/-- The channels of a band. -/
def Band.Has : Band → Nat → Prop
  | .gsm850, c => 128 ≤ c ∧ c ≤ 251
  | .gsm900, c => 1 ≤ c ∧ c ≤ 124
  | .egsm900, c => c ≤ 124 ∨ 975 ≤ c ∧ c ≤ 1023
  | .dcs1800, c => 512 ≤ c ∧ c ≤ 885
  | .pcs1900, c => 512 ≤ c ∧ c ≤ 810

/-- The bands that a standard supports; GSM 900 with its extension is one band. -/
def Std.bands : Std → List Band
  | .notPresent => []
  | .gsm900 => [.gsm900]
  | .egsm => [.egsm900]
  | .gsm1900 => [.pcs1900]
  | .gsm1800 => [.dcs1800]
  | .dual => [.gsm900, .dcs1800]
  | .dualEgsm => [.egsm900, .dcs1800]
  | .gsm850 => [.gsm850]
  | .dualUs => [.gsm850, .pcs1900]
  | .gsm850_1800 => [.gsm850, .dcs1800]
  | .gsm900_1900 => [.egsm900, .pcs1900]
  | .gsm850_900_1800 => [.gsm850, .egsm900, .dcs1800]
  | .gsm850_900_1900 => [.gsm850, .egsm900, .pcs1900]

/-! ### The scan -/

/-- The channels picked from a list by ranks in ascending order, with `n` channels in front of the list. -/
def choose : List Nat → Nat → List Nat → List Nat
  | [], _, _ => []
  | _ :: _, _, [] => []
  | c :: l, n, r :: ranks => if n + 1 = r then c :: choose l (n + 1) ranks else choose l (n + 1) (r :: ranks)

section
variable {std : Std} {clist : Octets} {ma : MobileAlloc} {l l' ranks done : List Nat} {n k c r : Nat}

@[simp] theorem choose_nil_ranks : choose l n [] = [] := by
  cases l <;> rfl

private theorem choose_cons : choose (c :: l) n (r :: ranks) =
    if n + 1 = r then c :: choose l (n + 1) ranks else choose l (n + 1) (r :: ranks) := rfl

private theorem choose_append :
    choose (l ++ l') n ranks = choose l n ranks ++ choose l' (n + l.length) (ranks.drop (choose l n ranks).length) := by
  induction l generalizing n ranks with
  | nil => rfl
  | cons c l ih =>
    cases ranks with
    | nil => simp
    | cons r ranks =>
      have hlen : n + (c :: l).length = n + 1 + l.length := by
        rw [List.length_cons]
        omega
      rw [List.cons_append, hlen, choose_cons, choose_cons]
      split
      · rw [ih, List.cons_append, List.length_cons, List.drop_succ_cons]
      · exact ih

/-- What is picked are the elements whose ranks are named. -/
theorem mem_choose (hasc : ranks.Pairwise (· < ·)) (hn : ∀ r ∈ ranks, n < r) :
    c ∈ choose l n ranks ↔ ∃ i, l[i]? = some c ∧ n + i + 1 ∈ ranks := by
  induction l generalizing n ranks with
  | nil =>
    refine iff_of_false List.not_mem_nil ?_
    rintro ⟨i, hi, -⟩
    rw [List.getElem?_nil] at hi
    cases hi
  | cons d l ih =>
    cases ranks with
    | nil =>
      rw [choose_nil_ranks]
      refine iff_of_false List.not_mem_nil ?_
      rintro ⟨i, -, hi⟩
      exact List.not_mem_nil hi
    | cons r ranks =>
      have hr := hn r List.mem_cons_self
      obtain ⟨hlt, hrest⟩ := List.pairwise_cons.1 hasc
      have hsplit : ∀ P : Nat → Nat → Prop, (∃ i, (d :: l)[i]? = some c ∧ P i c) ↔
          (c = d ∧ P 0 c) ∨ ∃ i, l[i]? = some c ∧ P (i + 1) c := by
        intro P
        constructor
        · rintro ⟨i, hi, hP⟩
          cases i with
          | zero =>
            rw [List.getElem?_cons_zero, Option.some.injEq] at hi
            exact .inl ⟨hi.symm, hP⟩
          | succ i => exact .inr ⟨i, by rwa [List.getElem?_cons_succ] at hi, hP⟩
        · rintro (⟨rfl, hP⟩ | ⟨i, hi, hP⟩)
          · exact ⟨0, rfl, hP⟩
          · exact ⟨i + 1, by rwa [List.getElem?_cons_succ], hP⟩
      rw [hsplit fun i _ => n + i + 1 ∈ r :: ranks]
      have hshift : ∀ i, n + (i + 1) + 1 = n + 1 + i + 1 := fun i => by omega
      simp only [hshift, Nat.add_zero]
      rw [choose_cons]
      split
      · rename_i heq
        subst heq
        rw [List.mem_cons, ih hrest fun r' hr' => hlt r' hr']
        have hne : ∀ i, n + 1 + i + 1 ∈ (n + 1) :: ranks ↔ n + 1 + i + 1 ∈ ranks := by
          intro i
          rw [List.mem_cons, or_iff_right (by omega)]
        simp only [hne, List.mem_cons_self, and_true]
      · rename_i hne
        have hnot : n + 1 ∉ r :: ranks := by
          rw [List.mem_cons]
          rintro (h | h)
          · exact hne h
          · have := hlt _ h
            omega
        rw [ih hasc fun r' hr' => ?_]
        · simp only [hnot, and_false, false_or]
        · rcases List.mem_cons.1 hr' with rfl | h
          · omega
          · have := hlt _ h
            omega

/-- The flags of channels. -/
def flags (std : Std) (l : List Nat) (f : Nat) : Nat := l.foldl (fun f c => f ||| forCheckFrequency std c) f

/-- A channel is in a supported band. -/
def Supported (std : Std) (c : Nat) : Prop := invalidBandUsed < forCheckFrequency std c

instance : Decidable (Supported std c) := inferInstanceAs (Decidable (_ < _))

private theorem setChannels_snoc (done : List Nat) (c : Nat) : srvSetChannel (setChannels done) c = setChannels (done ++ [c]) := by
  unfold setChannels
  rw [List.foldl_append]
  rfl

private theorem srvGetChannel_iff : srvGetChannel clist c ≠ 0 ↔ inList clist c = true := by
  have hle : srvGetChannel clist c ≤ 1 := by
    unfold srvGetChannel scrChannelBit getBit
    dsimp only
    split_ifs <;> simp
  change _ ↔ (srvGetChannel clist c == 1) = true
  rw [beq_iff_eq]
  omega

private theorem MobileAlloc.octets_eq (ma : MobileAlloc) {ranks : List Nat} (h : ma.ranks.drop k = r :: ranks) :
    ma.octets k = r ∧ ma.ranks.drop (k + 1) = ranks ∧ r < 255 := by
  have hget : ma.ranks[k]? = some r := by
    rw [← List.head?_drop, h]
    rfl
  refine ⟨?_, ?_, ?_⟩
  · unfold MobileAlloc.octets
    rw [List.getD_eq_getElem?_getD, hget]
    rfl
  · rw [← List.drop_drop, h]
    rfl
  · exact (ma.range r (List.mem_of_getElem? hget)).2

private theorem MobileAlloc.octets_end (ma : MobileAlloc) (h : ma.ranks.drop k = []) : ma.octets k = notPresent8Bit := by
  unfold MobileAlloc.octets
  rw [List.getD_eq_getElem?_getD, ← List.head?_drop, h]
  rfl

/-- The state of the scan once some channels are picked, with the ranks that are left. -/
structure Picked (std : Std) (ma : MobileAlloc) (n : Nat) (done : List Nat) (s : MobAllocScan) : Prop where
  maIndex : s.maIndex = done.length + 1
  maValue : s.maValue = ma.octets done.length
  x : s.maValue ≠ notPresent8Bit → s.x = n ∧ n < s.maValue
  freqBandUsed : s.freqBandUsed = flags std done 0
  list : s.list = setChannels done

private theorem Picked.rest {s : MobAllocScan} (h : Picked std ma n done s) (hv : s.maValue ≠ notPresent8Bit) :
    ∃ ranks, ma.ranks.drop done.length = s.maValue :: ranks ∧ s.x = n ∧ n < s.maValue ∧ s.maValue < 255 := by
  cases hd : ma.ranks.drop done.length with
  | nil => exact absurd (h.maValue.trans (ma.octets_end hd)) hv
  | cons r ranks =>
    obtain ⟨hr, -, hlt⟩ := ma.octets_eq hd
    rw [h.maValue, hr]
    exact ⟨ranks, rfl, (h.x hv).1, hr ▸ h.maValue ▸ (h.x hv).2, hlt⟩

/-- The next channel is counted. -/
private theorem Picked.count {s : MobAllocScan} (h : Picked std ma n done s) (hn : n + 1 < s.maValue)
    (hv : s.maValue ≠ notPresent8Bit) : Picked std ma (n + 1) done { s with x := (s.x + 1) % 256 } := by
  obtain ⟨-, -, hx, -, hlt⟩ := h.rest hv
  refine ⟨h.maIndex, h.maValue, fun _ => ⟨?_, hn⟩, h.freqBandUsed, h.list⟩
  change (s.x + 1) % 256 = n + 1
  rw [hx, Nat.mod_eq_of_lt (by omega)]

/-- A channel is picked. -/
private theorem Picked.pick {s : MobAllocScan} {x : Nat} (h : Picked std ma n done s) (hv : s.maValue ≠ notPresent8Bit)
    (hn : n + 1 = s.maValue) (hx : x = n + 1) :
    Picked std ma (n + 1) (done ++ [c])
      ⟨s.maIndex + 1, ma.octets s.maIndex, x, s.freqBandUsed ||| forCheckFrequency std c, srvSetChannel s.list c⟩ := by
  obtain ⟨ranks, hd, -, -, -⟩ := h.rest hv
  obtain ⟨-, hd', -⟩ := ma.octets_eq hd
  refine ⟨?_, ?_, fun hv' => ⟨hx, ?_⟩, ?_, ?_⟩
  · rw [h.maIndex, List.length_append, List.length_singleton]
  · rw [h.maIndex, List.length_append, List.length_singleton]
  · rw [h.maIndex] at hv' ⊢
    cases ranks with
    | nil => exact absurd (ma.octets_end hd') hv'
    | cons r' ranks =>
      obtain ⟨hr', -, -⟩ := ma.octets_eq hd'
      have hasc := List.Pairwise.sublist (List.drop_sublist done.length ma.ranks) ma.ascending
      rw [hd, List.pairwise_cons] at hasc
      change n + 1 < ma.octets (done.length + 1)
      rw [hr', hn]
      exact hasc.1 r' List.mem_cons_self
  · rw [h.freqBandUsed]
    unfold flags
    rw [List.foldl_append]
    rfl
  · rw [h.list, setChannels_snoc]

/-- The scan of some channels picks what the ranks that are left name, unless a channel picked is not supported. -/
theorem scanChannels_spec (clist : Octets) {s : MobAllocScan} (m arfcn : Nat) (h : Picked std ma n done s)
    (hv : s.maValue ≠ notPresent8Bit) :
    let l := (List.range' arfcn m).filter (inList clist)
    let sel := choose l n (ma.ranks.drop done.length)
    if ∀ c ∈ sel, Supported std c then
      ∃ t, scanChannels std clist ma.octets m arfcn s = .ok t ∧ Picked std ma (n + l.length) (done ++ sel) t
    else ∃ list, scanChannels std clist ma.octets m arfcn s = .error list := by
  induction m generalizing n done s arfcn with
  | zero =>
    dsimp only
    rw [List.range'_zero, List.filter_nil]
    unfold choose
    rw [if_pos fun c hc => absurd hc List.not_mem_nil, List.append_nil]
    exact ⟨s, rfl, h⟩
  | succ m ih =>
    obtain ⟨ranks, hd, hx, hlt, hlt'⟩ := h.rest hv
    dsimp only
    rw [List.range'_succ, List.filter_cons]
    unfold scanChannels
    by_cases hin : inList clist arfcn = true
    · rw [if_pos hin, if_pos (srvGetChannel_iff.2 hin), hd, choose_cons]
      have hx' : (s.x + 1) % 256 = n + 1 := by
        rw [hx, Nat.mod_eq_of_lt (by omega)]
      have hlen : ∀ l : List Nat, n + (arfcn :: l).length = n + 1 + l.length := fun l => by
        rw [List.length_cons]
        omega
      by_cases heq : n + 1 = s.maValue
      · rw [if_pos heq]
        dsimp only
        rw [if_pos (hx'.trans heq)]
        by_cases hsup : Supported std arfcn
        · -- the channel is picked
          rw [if_neg (Nat.not_le_of_lt hsup)]
          have hp := h.pick (c := arfcn) hv heq hx'
          obtain ⟨-, hd', -⟩ := ma.octets_eq hd
          by_cases hend : ma.octets s.maIndex = notPresent8Bit
          · have hranks : ranks = [] := by
              cases ranks with
              | nil => rfl
              | cons r' ranks =>
                obtain ⟨hr', -, hlt⟩ := ma.octets_eq hd'
                rw [h.maIndex, hr'] at hend
                exact absurd hend (Nat.ne_of_lt hlt)
            rw [if_pos hend, hranks, choose_nil_ranks, if_pos (by simpa using hsup)]
            refine ⟨_, rfl, hp.maIndex, hp.maValue, fun hne => absurd hend hne, hp.freqBandUsed, hp.list⟩
          · rw [if_neg hend]
            have hih := ih (arfcn + 1) hp hend
            rw [List.length_append, List.length_singleton, hd'] at hih
            simp only [List.forall_mem_cons, hsup, true_and, hlen]
            simp only [List.append_assoc, List.singleton_append] at hih
            exact hih
        · rw [if_pos (Nat.le_of_not_lt hsup), if_neg fun hall => hsup (hall arfcn List.mem_cons_self)]
          exact ⟨_, rfl⟩
      · rw [if_neg heq]
        have hskip : ¬(s.x + 1) % 256 = s.maValue := by rwa [hx']
        dsimp only
        rw [if_neg hskip, hlen]
        have hih := ih (arfcn + 1) (h.count (by omega) hv) hv
        rw [hd] at hih
        exact hih
    · rw [if_neg hin, if_neg (mt srvGetChannel_iff.1 hin)]
      have hskip : ¬s.x = s.maValue := by omega
      dsimp only
      rw [if_neg hskip]
      exact ih (arfcn + 1) h hv

/-- The channels that a mobile allocation names. -/
def named (clist : Octets) (ma : MobileAlloc) : List Nat := choose (ranked clist) 0 ma.ranks

theorem mem_named : c ∈ named clist ma ↔ Named clist ma c := by
  unfold named Named
  rw [mem_choose ma.ascending fun r hr => (ma.range r hr).1]
  simp only [Nat.zero_add]

private theorem supported_zero (h : Supported std channel0) : forCheckFrequency std channel0 = extBandUsed := by
  revert h
  cases std <;> decide

/-- The scan ends with channel 0. -/
private theorem scanChannel0_spec (clist : Octets) {s : MobAllocScan} (h : Picked std ma n done s) :
    let sel := choose (if inList clist channel0 then [channel0] else []) n (ma.ranks.drop done.length)
    if ∀ c ∈ sel, Supported std c then
      ∃ t, scanChannel0 std clist s = .ok t ∧ t.freqBandUsed = flags std (done ++ sel) 0 ∧ t.list = setChannels (done ++ sel)
    else ∃ list, scanChannel0 std clist s = .error list := by
  have hnone : choose (if inList clist channel0 then [channel0] else []) n (ma.ranks.drop done.length) = [] →
      scanChannel0 std clist s = .ok s ∨ (∃ x, scanChannel0 std clist s = .ok { s with x := x }) →
      let sel := choose (if inList clist channel0 then [channel0] else []) n (ma.ranks.drop done.length)
      if ∀ c ∈ sel, Supported std c then
        ∃ t, scanChannel0 std clist s = .ok t ∧ t.freqBandUsed = flags std (done ++ sel) 0 ∧
          t.list = setChannels (done ++ sel)
      else ∃ list, scanChannel0 std clist s = .error list := by
    intro hsel hres
    dsimp only
    rw [hsel, if_pos fun c hc => absurd hc List.not_mem_nil, List.append_nil]
    rcases hres with hres | ⟨x, hres⟩
    · exact ⟨s, hres, h.freqBandUsed, h.list⟩
    · exact ⟨_, hres, h.freqBandUsed, h.list⟩
  by_cases hv : s.maValue = notPresent8Bit
  · refine hnone ?_ (.inl (if_neg (not_not_intro hv)))
    cases hd : ma.ranks.drop done.length with
    | nil => exact choose_nil_ranks
    | cons r ranks =>
      obtain ⟨hr, -, hlt⟩ := ma.octets_eq hd
      rw [h.maValue, hr] at hv
      exact absurd hv (Nat.ne_of_lt hlt)
  obtain ⟨ranks, hd, hx, hlt, hlt'⟩ := h.rest hv
  rw [hd] at hnone ⊢
  unfold scanChannel0 at hnone ⊢
  rw [if_pos hv] at hnone ⊢
  cases hin : inList clist channel0 with
  | false =>
    have hget : ¬srvGetChannel clist channel0 ≠ 0 := by
      rw [srvGetChannel_iff, hin]
      exact Bool.false_ne_true
    have hskip : ¬s.x = s.maValue := by omega
    rw [hin, if_neg hget] at hnone
    rw [if_neg hget]
    dsimp only at hnone ⊢
    rw [if_neg hskip] at hnone ⊢
    exact hnone rfl (.inl rfl)
  | true =>
    have hx' : (s.x + 1) % 256 = n + 1 := by
      rw [hx, Nat.mod_eq_of_lt (by omega)]
    have hget := srvGetChannel_iff.2 hin
    rw [hin, if_pos hget] at hnone
    rw [if_pos hget]
    dsimp only at hnone ⊢
    rw [hx'] at hnone ⊢
    by_cases heq : n + 1 = s.maValue
    · rw [if_pos heq, if_pos rfl, choose_cons, if_pos heq]
      unfold choose
      by_cases hsup : Supported std channel0
      · rw [if_pos (by simpa using hsup), if_neg (Nat.not_le_of_lt hsup)]
        refine ⟨_, rfl, ?_, ?_⟩
        · unfold flags
          rw [List.foldl_append, List.foldl_cons, List.foldl_nil, supported_zero hsup, h.freqBandUsed]
          rfl
        · rw [h.list, setChannels_snoc]
      · rw [if_neg (by simpa using hsup), if_pos (Nat.le_of_not_lt hsup)]
        exact ⟨_, rfl⟩
    · rw [if_neg heq] at hnone ⊢
      refine hnone ?_ (.inr ⟨n + 1, rfl⟩)
      rw [if_pos rfl, choose_cons, if_neg heq]
      rfl

/-- The result and the hopping list. -/
theorem srvCreateChanMobAlloc_spec (std : Std) (clist : Octets) (ma : MobileAlloc) :
    if (∀ c ∈ named clist ma, Supported std c) ∧ ma.ranks ≠ [] then
      srvCreateChanMobAlloc std clist ma.octets =
        (srvCompareUsedFrequencyBands std (flags std (named clist ma) 0), setChannels (named clist ma))
    else (srvCreateChanMobAlloc std clist ma.octets).1 = 0 := by
  unfold srvCreateChanMobAlloc
  dsimp only
  cases hr : ma.ranks with
  | nil =>
    have hv : ma.octets 0 = notPresent8Bit := by
      refine ma.octets_end ?_
      rw [hr]
      rfl
    rw [if_neg fun h => h.2 rfl, if_neg (not_not_intro hv)]
  | cons r ranks =>
    have hdrop : ma.ranks.drop 0 = r :: ranks := hr
    obtain ⟨h0, -, hlt⟩ := ma.octets_eq hdrop
    have hv : ma.octets 0 ≠ notPresent8Bit := by
      rw [h0]
      exact Nat.ne_of_lt hlt
    have hpos : 0 < ma.octets 0 := by
      rw [h0]
      exact (ma.range r (hr ▸ List.mem_cons_self)).1
    have hstart : Picked std ma 0 [] ⟨1, ma.octets 0, 0, 0, fun _ => 0⟩ := ⟨rfl, rfl, fun _ => ⟨rfl, hpos⟩, rfl, rfl⟩
    have hscan := scanChannels_spec clist 1023 1 hstart hv
    have hnamed : named clist ma = choose ((List.range' 1 1023).filter (inList clist)) 0 ma.ranks ++
        choose (if inList clist channel0 then [channel0] else []) ((List.range' 1 1023).filter (inList clist)).length
          (ma.ranks.drop (choose ((List.range' 1 1023).filter (inList clist)) 0 ma.ranks).length) := by
      unfold named ranked
      rw [choose_append, Nat.zero_add]
    dsimp only at hscan
    rw [List.length_nil, List.drop_zero, Nat.zero_add] at hscan
    rw [if_pos hv, hnamed, show highChannelEgsm - lowChannel900 = 1023 from rfl,
      show lowChannel900 = 1 from rfl]
    generalize choose ((List.range' 1 1023).filter (inList clist)) 0 ma.ranks = sel at hscan ⊢
    split at hscan
    · rename_i hsup
      obtain ⟨t, ht, hp⟩ := hscan
      have hzero := scanChannel0_spec clist hp
      dsimp only at hzero
      rw [List.nil_append] at hzero
      rw [ht]
      generalize choose (if inList clist channel0 then [channel0] else []) _ (ma.ranks.drop sel.length) = sel0 at hzero ⊢
      split at hzero
      · rename_i hsup0
        obtain ⟨u, hu, hf, hl⟩ := hzero
        rw [if_pos ⟨List.forall_mem_append.2 ⟨hsup, hsup0⟩, List.cons_ne_nil r ranks⟩]
        dsimp only
        rw [hu, ← hf, ← hl]
      · rename_i hsup0
        obtain ⟨list, hu⟩ := hzero
        rw [if_neg fun h => hsup0 (List.forall_mem_append.1 h.1).2]
        dsimp only
        rw [hu]
    · rename_i hsup
      obtain ⟨list, ht⟩ := hscan
      rw [if_neg fun h => hsup (List.forall_mem_append.1 h.1).1, ht]

end

/-! ### The bands -/

section
variable {std : Std} {b b' : Band} {l : List Nat} {c d : Nat}

/-- The bands with the flag `HIGH_BAND_USED`. -/
def Band.high : Band → Bool
  | .dcs1800 | .pcs1900 => true
  | .gsm850 | .gsm900 | .egsm900 => false

theorem inrange_eq {min max : Nat} (hc : c < 65536) (h : min ≤ max) (hmax : max < 65536) :
    inrange min c max = true ↔ min ≤ c ∧ c ≤ max := by
  unfold inrange
  rw [decide_eq_true_iff]
  omega

/-- A channel is classified by the band it lies in. -/
private theorem forCheckFrequency_cases (std : Std) (hc : c < 1024) :
    (∃ b ∈ std.bands, b.Has c ∧
      (forCheckFrequency std c = highBandUsed ∧ b.high = true ∨
        forCheckFrequency std c = lowBandUsed ∧ b.high = false ∨
        forCheckFrequency std c = extBandUsed ∧ b = .egsm900)) ∨
      forCheckFrequency std c = invalidBandUsed ∧ ∀ b ∈ std.bands, ¬b.Has c := by
  have hno : ¬c ≥ highChannelEgsm := Nat.not_le_of_lt hc
  have hint : (if c = channel0 then channel0Internal else c) < 65536 := by
    unfold channel0Internal
    split <;> omega
  unfold forCheckFrequency
  rw [if_neg hno]
  dsimp only
  have h900 := inrange_eq hint (by decide : lowChannel900 ≤ highChannel900) (by decide)
  have h1900 := inrange_eq hint (by decide : lowChannel1900 ≤ highChannel1900) (by decide)
  have h1800 := inrange_eq hint (by decide : lowChannel1800 ≤ highChannel1800) (by decide)
  have h850 := inrange_eq hint (by decide : lowChannel850 ≤ highChannel850) (by decide)
  have hegsm := inrange_eq hint (by decide : lowChannelEgsm ≤ highChannelEgsm) (by decide)
  have g900 := inrange_eq (c := c) (by omega) (by decide : lowChannel900 ≤ highChannel900) (by decide)
  have g1900 := inrange_eq (c := c) (by omega) (by decide : lowChannel1900 ≤ highChannel1900) (by decide)
  have g1800 := inrange_eq (c := c) (by omega) (by decide : lowChannel1800 ≤ highChannel1800) (by decide)
  have g850 := inrange_eq (c := c) (by omega) (by decide : lowChannel850 ≤ highChannel850) (by decide)
  simp only [h900, h1900, h1800, h850, hegsm, g900, g1900, g1800, g850]
  clear h900 h1900 h1800 h850 hegsm g900 g1900 g1800 g850
  unfold channel0 channel0Internal lowChannel900 highChannel900 lowChannel1800 highChannel1800 lowChannel1900
    highChannel1900 lowChannel850 highChannel850 lowChannelEgsm highChannelEgsm
  cases std
  case notPresent => exact .inr ⟨rfl, fun b hb => absurd hb List.not_mem_nil⟩
  all_goals
    simp only [Std.bands, List.mem_cons, List.not_mem_nil, or_false, exists_eq_or_imp, exists_eq_left, forall_eq_or_imp,
      forall_eq, Band.Has, Band.high]
    split_ifs <;>
      simp [highBandUsed, lowBandUsed, extBandUsed, invalidBandUsed] <;> omega

/-- The flags of some bands. -/
private def flagsOf (low high ext : Bool) : Nat :=
  (if low then lowBandUsed else 0) ||| (if high then highBandUsed else 0) ||| if ext then extBandUsed else 0

private theorem flagsOf_or (low high ext : Bool) {k : Nat} (hk : k = highBandUsed ∨ k = lowBandUsed ∨ k = extBandUsed) :
    flagsOf low high ext ||| k = flagsOf (low || k == lowBandUsed) (high || k == highBandUsed) (ext || k == extBandUsed) := by
  rcases hk with rfl | rfl | rfl <;> revert low high ext <;> decide

private theorem supported_cases (hc : c < 1024) (h : Supported std c) : forCheckFrequency std c = highBandUsed ∨
    forCheckFrequency std c = lowBandUsed ∨ forCheckFrequency std c = extBandUsed := by
  rcases forCheckFrequency_cases std hc with ⟨b, -, -, hk⟩ | ⟨hk, -⟩
  · exact hk.imp And.left (Or.imp And.left And.left)
  · unfold Supported at h
    rw [hk] at h
    exact absurd h (Nat.lt_irrefl _)

private theorem flags_eq (hl : ∀ c ∈ l, c < 1024) (hs : ∀ c ∈ l, Supported std c) (low high ext : Bool) :
    flags std l (flagsOf low high ext) =
      flagsOf (low || l.any fun c => forCheckFrequency std c == lowBandUsed)
        (high || l.any fun c => forCheckFrequency std c == highBandUsed)
        (ext || l.any fun c => forCheckFrequency std c == extBandUsed) := by
  induction l generalizing low high ext with
  | nil => simp [flags]
  | cons c l ih =>
    have hk := supported_cases (hl c List.mem_cons_self) (hs c List.mem_cons_self)
    change flags std l (flagsOf low high ext ||| forCheckFrequency std c) = _
    rw [flagsOf_or low high ext hk,
      ih (fun d hd => hl d (List.mem_cons_of_mem c hd)) fun d hd => hs d (List.mem_cons_of_mem c hd)]
    simp only [List.any_cons, Bool.or_assoc]

/-- Flags of bands that the standard has are those of one band, when GSM 850 and GSM 900 are taken as one. -/
private theorem compare_iff : ∀ low high ext : Bool, (low = true → ∃ b ∈ std.bands, b.high = false) →
    (high = true → ∃ b ∈ std.bands, b.high = true) → (ext = true → Band.egsm900 ∈ std.bands) →
    (srvCompareUsedFrequencyBands std (flagsOf low high ext) ≠ 0 ↔ high = !(low || ext)) := by
  cases std <;> decide

/-- A standard with both GSM 850 and GSM 900. -/
def Std.both : Std → Bool
  | .gsm850_900_1800 | .gsm850_900_1900 => true
  | _ => false

/-- Channels of GSM 850 and of GSM 900, and of no other band. -/
def MixedLow (std : Std) (P : Nat → Prop) : Prop :=
  std.both = true ∧ (∀ c, P c → Band.gsm850.Has c ∨ Band.egsm900.Has c) ∧ (∃ c, P c ∧ Band.gsm850.Has c) ∧
    ∃ c, P c ∧ Band.egsm900.Has c

/-- All channels lie in one band that the standard supports. -/
def OneBand (std : Std) (P : Nat → Prop) : Prop := ∃ b ∈ std.bands, ∀ c, P c → b.Has c

private theorem bands_eq : ∀ b ∈ std.bands, ∀ b' ∈ std.bands, b.high = b'.high →
    b = b' ∨ std.both = true ∧ b.high = false ∧ (b = .gsm850 ∧ b' = .egsm900 ∨ b = .egsm900 ∧ b' = .gsm850) := by
  cases std <;> decide

private theorem band_unique (hb : b ∈ std.bands) (hb' : b' ∈ std.bands) (h : b.Has c) (h' : b'.Has c) : b = b' := by
  have hhigh : b.high = b'.high := by
    cases b <;> cases b' <;> simp [Band.Has, Band.high] at h h' ⊢ <;> omega
  rcases bands_eq b hb b' hb' hhigh with heq | ⟨-, -, ⟨rfl, rfl⟩ | ⟨rfl, rfl⟩⟩
  · exact heq
  · simp only [Band.Has] at h h'
    omega
  · simp only [Band.Has] at h h'
    omega

private theorem mem_both (h : std.both = true) : Band.gsm850 ∈ std.bands ∧ Band.egsm900 ∈ std.bands := by
  revert h
  cases std <;> decide

/-- The band of a supported channel. -/
private theorem band_of (hc : c < 1024) (h : Supported std c) : ∃ b ∈ std.bands, b.Has c ∧
    (b.high = true ↔ forCheckFrequency std c = highBandUsed) ∧ (forCheckFrequency std c = extBandUsed → b = .egsm900) := by
  rcases forCheckFrequency_cases std hc with ⟨b, hb, hbc, hk⟩ | ⟨hk, -⟩
  · refine ⟨b, hb, hbc, ?_⟩
    rcases hk with ⟨hk, hhigh⟩ | ⟨hk, hhigh⟩ | ⟨hk, rfl⟩
    · rw [hk, hhigh]
      exact ⟨iff_of_true rfl rfl, fun h => absurd h (by decide)⟩
    · rw [hk, hhigh]
      exact ⟨iff_of_false (by decide) (by decide), fun h => absurd h (by decide)⟩
    · rw [hk]
      exact ⟨iff_of_false (by decide) (by decide), fun _ => rfl⟩
  · exact absurd hk (Nat.ne_of_gt h)

/-- The flags of supported channels are accepted when all or none are the high one. -/
private theorem compare_flags (hl : ∀ c ∈ l, c < 1024) (hne : l ≠ []) (hs : ∀ c ∈ l, Supported std c) :
    srvCompareUsedFrequencyBands std (flags std l 0) ≠ 0 ↔
      (∀ c ∈ l, forCheckFrequency std c = highBandUsed) ∨ ∀ c ∈ l, forCheckFrequency std c ≠ highBandUsed := by
  have hflags := flags_eq hl hs false false false
  rw [Bool.false_or, Bool.false_or, Bool.false_or] at hflags
  change srvCompareUsedFrequencyBands std (flags std l (flagsOf false false false)) ≠ 0 ↔ _
  have hany : ∀ k, (l.any fun c => forCheckFrequency std c == k) = true ↔ ∃ c ∈ l, forCheckFrequency std c = k := by
    intro k
    rw [List.any_eq_true]
    simp only [beq_iff_eq]
  rw [hflags, compare_iff]
  · have hlow : ((l.any fun c => forCheckFrequency std c == lowBandUsed) ||
        l.any fun c => forCheckFrequency std c == extBandUsed) = true ↔
        ∃ c ∈ l, forCheckFrequency std c ≠ highBandUsed := by
      rw [Bool.or_eq_true, hany, hany]
      constructor
      · rintro (⟨c, hc, hk⟩ | ⟨c, hc, hk⟩)
        · exact ⟨c, hc, by rw [hk]; decide⟩
        · exact ⟨c, hc, by rw [hk]; decide⟩
      · rintro ⟨c, hc, hk⟩
        rcases supported_cases (hl c hc) (hs c hc) with h | h | h
        · exact absurd h hk
        · exact .inl ⟨c, hc, h⟩
        · exact .inr ⟨c, hc, h⟩
    rw [Bool.eq_not, ne_eq, Bool.eq_iff_iff, hany, hlow]
    obtain ⟨c₀, hc₀⟩ := List.exists_mem_of_ne_nil l hne
    constructor
    · intro h
      by_cases hhigh : ∃ c ∈ l, forCheckFrequency std c = highBandUsed
      · left
        intro c hc
        by_contra hk
        exact h (iff_of_true hhigh ⟨c, hc, hk⟩)
      · right
        exact fun c hc hk => hhigh ⟨c, hc, hk⟩
    · rintro (h | h) hiff
      · obtain ⟨c, hc, hk⟩ := hiff.1 ⟨c₀, hc₀, h c₀ hc₀⟩
        exact hk (h c hc)
      · obtain ⟨c, hc, hk⟩ := hiff.2 ⟨c₀, hc₀, h c₀ hc₀⟩
        exact h c hc hk
  · intro h
    obtain ⟨c, hc, hk⟩ := (hany _).1 h
    obtain ⟨b, hb, -, hhigh, -⟩ := band_of (hl c hc) (hs c hc)
    refine ⟨b, hb, Bool.eq_false_iff.2 fun h => ?_⟩
    rw [hhigh, hk] at h
    cases h
  · intro h
    obtain ⟨c, hc, hk⟩ := (hany _).1 h
    obtain ⟨b, hb, -, hhigh, -⟩ := band_of (hl c hc) (hs c hc)
    exact ⟨b, hb, hhigh.2 hk⟩
  · intro h
    obtain ⟨c, hc, hk⟩ := (hany _).1 h
    obtain ⟨b, hb, -, -, hext⟩ := band_of (hl c hc) (hs c hc)
    exact hext hk ▸ hb

/-- All or none of some supported channels are in the high band if they lie in one band, or in GSM 850 and GSM 900. -/
private theorem all_or_none_iff (hl : ∀ c ∈ l, c < 1024) (hne : l ≠ []) (hs : ∀ c ∈ l, Supported std c) :
    ((∀ c ∈ l, forCheckFrequency std c = highBandUsed) ∨ ∀ c ∈ l, forCheckFrequency std c ≠ highBandUsed) ↔
      OneBand std (· ∈ l) ∨ MixedLow std (· ∈ l) := by
  have hband := fun c hc => band_of (hl c hc) (hs c hc)
  obtain ⟨c₀, hc₀⟩ := List.exists_mem_of_ne_nil l hne
  obtain ⟨b₀, hb₀, hbc₀, hhigh₀, -⟩ := hband c₀ hc₀
  have hall : ∀ b ∈ std.bands, (∀ c ∈ l, b.Has c) → ((∀ c ∈ l, forCheckFrequency std c = highBandUsed) ∨
      ∀ c ∈ l, forCheckFrequency std c ≠ highBandUsed) := by
    intro b hb h
    have heq : ∀ c ∈ l, b.high = true ↔ forCheckFrequency std c = highBandUsed := by
      intro c hc
      obtain ⟨b', hb', hbc', hhigh', -⟩ := hband c hc
      rw [band_unique hb hb' (h c hc) hbc']
      exact hhigh'
    cases hhigh : b.high with
    | true => exact .inl fun c hc => (heq c hc).1 hhigh
    | false => exact .inr fun c hc hk => Bool.false_ne_true (hhigh.symm.trans ((heq c hc).2 hk))
  constructor
  · intro h
    have hsame : ∀ c ∈ l, ∃ b ∈ std.bands, b.Has c ∧ b₀.high = b.high := by
      intro c hc
      obtain ⟨b, hb, hbc, hhigh, -⟩ := hband c hc
      refine ⟨b, hb, hbc, Bool.eq_iff_iff.2 ?_⟩
      rw [hhigh, hhigh₀]
      rcases h with h | h
      · exact iff_of_true (h c₀ hc₀) (h c hc)
      · exact iff_of_false (h c₀ hc₀) (h c hc)
    by_cases hone : ∀ c ∈ l, b₀.Has c
    · exact .inl ⟨b₀, hb₀, hone⟩
    · right
      obtain ⟨c₁, hc₁, hno⟩ : ∃ c ∈ l, ¬b₀.Has c := by
        by_contra hno
        exact hone fun c hc => by_contra fun h => hno ⟨c, hc, h⟩
      obtain ⟨b₁, hb₁, hbc₁, heq₁⟩ := hsame c₁ hc₁
      have hmix : std.both = true ∧ (b₀ = .gsm850 ∧ b₁ = .egsm900 ∨ b₀ = .egsm900 ∧ b₁ = .gsm850) := by
        rcases bands_eq b₀ hb₀ b₁ hb₁ heq₁ with rfl | ⟨hboth, -, hpair⟩
        · exact absurd hbc₁ hno
        · exact ⟨hboth, hpair⟩
      obtain ⟨hboth, hpair⟩ := hmix
      have hlow : ∀ c ∈ l, Band.gsm850.Has c ∨ Band.egsm900.Has c := by
        intro c hc
        obtain ⟨b, hb, hbc, heq⟩ := hsame c hc
        rcases bands_eq b₀ hb₀ b hb heq with rfl | ⟨-, -, ⟨-, rfl⟩ | ⟨-, rfl⟩⟩
        · rcases hpair with ⟨rfl, -⟩ | ⟨rfl, -⟩
          · exact .inl hbc
          · exact .inr hbc
        · exact .inr hbc
        · exact .inl hbc
      rcases hpair with ⟨rfl, rfl⟩ | ⟨rfl, rfl⟩
      · exact ⟨hboth, hlow, ⟨c₀, hc₀, hbc₀⟩, c₁, hc₁, hbc₁⟩
      · exact ⟨hboth, hlow, ⟨c₁, hc₁, hbc₁⟩, c₀, hc₀, hbc₀⟩
  · rintro (⟨b, hb, h⟩ | ⟨hboth, hlow, -, -⟩)
    · exact hall b hb h
    · right
      intro c hc hk
      obtain ⟨b, hb, hbc, hhigh, -⟩ := hband c hc
      obtain ⟨h850, h900⟩ := mem_both hboth
      have hb' := hhigh.2 hk
      rcases hlow c hc with h | h
      · rw [band_unique hb h850 hbc h] at hb'
        cases hb'
      · rw [band_unique hb h900 hbc h] at hb'
        cases hb'

private theorem supported_of_has (hc : c < 1024) (hb : b ∈ std.bands) (h : b.Has c) : Supported std c := by
  rcases forCheckFrequency_cases std hc with ⟨b', -, -, hk⟩ | ⟨-, hno⟩
  · unfold Supported
    rcases hk with ⟨hk, -⟩ | ⟨hk, -⟩ | ⟨hk, -⟩ <;> rw [hk] <;> decide
  · exact absurd h (hno b hb)

end

/-! ### The hopping list -/

/-- When the result is not zero, the hopping list has the channels that the mobile allocation names, and they lie in one
band that the standard supports. -/
def HoppingListRight (std : Std) (clist : Octets) (ma : MobileAlloc) : Prop :=
  let (result, list) := srvCreateChanMobAlloc std clist ma.octets
  result ≠ 0 → (∀ c < 1024, inList list c = true ↔ Named clist ma c) ∧ OneBand std (Named clist ma)

section
variable {std : Std} {clist : Octets} {ma : MobileAlloc} {c : Nat}

private theorem named_lt (hc : c ∈ named clist ma) : c < 1024 := by
  obtain ⟨i, hi, -⟩ := mem_named.1 hc
  have hmem := List.mem_of_getElem? hi
  unfold ranked at hmem
  rcases List.mem_append.1 hmem with h | h
  · have := List.mem_range'_1.1 (List.mem_filter.1 h).1
    omega
  · split at h
    · rw [List.mem_singleton.1 h]
      decide
    · cases h

/-- When the result is not zero. -/
theorem srvCreateChanMobAlloc_ne_zero_iff (std : Std) (clist : Octets) (ma : MobileAlloc) : (srvCreateChanMobAlloc std clist ma.octets).1 ≠ 0 ↔
    (∃ c, Named clist ma c) ∧ (OneBand std (Named clist ma) ∨ MixedLow std (Named clist ma)) := by
  have hspec := srvCreateChanMobAlloc_spec std clist ma
  have hP : Named clist ma = (· ∈ named clist ma) := by
    funext c
    exact propext mem_named.symm
  rw [hP]
  split at hspec
  · rename_i h
    rw [hspec]
    dsimp only
    by_cases hne : named clist ma = []
    · rw [hne]
      refine iff_of_false (not_not_intro ?_) fun h => ?_
      · cases std <;> rfl
      · obtain ⟨c, hc⟩ := h.1
        cases hc
    · rw [compare_flags (fun c hc => named_lt hc) hne h.1, all_or_none_iff (fun c hc => named_lt hc) hne h.1,
        and_iff_right (List.exists_mem_of_ne_nil _ hne)]
  · rename_i h
    rw [hspec]
    refine iff_of_false (fun h => h rfl) ?_
    rintro ⟨⟨c, hc⟩, hband⟩
    refine h ⟨fun d hd => ?_, fun hr => ?_⟩
    · rcases hband with ⟨b, hb, hall⟩ | ⟨hboth, hlow, -, -⟩
      · exact supported_of_has (named_lt hd) hb (hall d hd)
      · obtain ⟨h850, h900⟩ := mem_both hboth
        rcases hlow d hd with h | h
        · exact supported_of_has (named_lt hd) h850 h
        · exact supported_of_has (named_lt hd) h900 h
    · unfold named at hc
      rw [hr, choose_nil_ranks] at hc
      cases hc

/-- The channels of a hopping list. -/
theorem srvCreateChanMobAlloc_list (h : (srvCreateChanMobAlloc std clist ma.octets).1 ≠ 0) (hc : c < 1024) :
    inList (srvCreateChanMobAlloc std clist ma.octets).2 c = true ↔ Named clist ma c := by
  have hspec := srvCreateChanMobAlloc_spec std clist ma
  split at hspec
  · rw [hspec, ← mem_named]
    exact inList_setChannels (fun c hc => named_lt hc) hc
  · exact absurd hspec h

end

/-- The hopping list is right, unless the mobile allocation names channels of both GSM 850 and GSM 900 and no others, with a
standard that has both. -/
theorem srvCreateChanMobAlloc_right_iff (std : Std) (clist : Octets) (ma : MobileAlloc) :
    HoppingListRight std clist ma ↔ ¬MixedLow std (Named clist ma) := by
  have hiff := srvCreateChanMobAlloc_ne_zero_iff std clist ma
  constructor
  · rintro h hmix
    have hne := hiff.2 ⟨hmix.2.2.1.imp fun c hc => hc.1, .inr hmix⟩
    obtain ⟨-, b, hb, hall⟩ := h hne
    obtain ⟨hboth, -, ⟨c, hc, h850⟩, d, hd, h900⟩ := hmix
    obtain ⟨hb850, hb900⟩ := mem_both hboth
    have hc' := band_unique hb hb850 (hall c hc) h850
    have hd' := band_unique hb hb900 (hall d hd) h900
    rw [hc'] at hd'
    cases hd'
  · intro h hne
    refine ⟨fun c hc => srvCreateChanMobAlloc_list hne hc, ?_⟩
    exact (hiff.1 hne).2.resolve_right h

/-- Channel 10 of GSM 900 and channel 200 of GSM 850 are taken for one band. -/
theorem mixed_low_accepted :
    ¬HoppingListRight .gsm850_900_1800 (setChannels [10, 200])
      ⟨[1, 2], by decide, by decide⟩ := by
  intro h
  have hne : (srvCreateChanMobAlloc .gsm850_900_1800 (setChannels [10, 200])
    (MobileAlloc.octets ⟨[1, 2], by decide, by decide⟩)).1 ≠ 0 := by decide +kernel
  obtain ⟨-, b, -, hall⟩ := h hne
  have h10 := hall 10 ⟨0, by decide +kernel, by decide⟩
  have h200 := hall 200 ⟨1, by decide +kernel, by decide⟩
  cases b <;> simp [Band.Has] at h10 h200

end Citrine.Rr
