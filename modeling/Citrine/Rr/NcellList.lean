import Citrine.Rr.Hopping
import Mathlib.Logic.Function.Basic

/-!
# Filtering neighbour cell lists

`srv_remove_frequencies_in_array_gen` of `rr_srv.c` removes the channels from an array that no supported band has.  The
array is compacted in place: an entry is written to the slot that the kept entries have reached, and the ranges of a
standard have no channel in common, so that this slot is never behind the entry that is read (`testRanges_eq`).
-/

namespace Citrine.Rr

/-! ### The code -/

/-- `NOT_PRESENT_16BIT` -/
def notPresent16Bit : Nat := 0xFFFF

/-- `local_std`: the configured standard, or the band that a dynamic configuration restricts it to. -/
def localStd (std : Std) (setBand : Nat) : Std :=
  if setBand = 1 then .gsm900 else if setBand = 2 then .gsm1800 else std

/-- The arrays `low` and `high`. -/
def Std.ranges : Std → List (Nat × Nat)
  | .notPresent => []
  | .dual => [(lowChannel1800, highChannel1800), (lowChannel900, highChannel900)]
  | .dualEgsm =>
    [(lowChannel900 - 1, highChannel900), (lowChannelEgsm, highChannelEgsm - 1), (lowChannel1800, highChannel1800)]
  | .dualUs => [(lowChannel1900, highChannel1900), (lowChannel850, highChannel850)]
  | .egsm => [(lowChannelEgsm, highChannelEgsm - 1), (lowChannel900 - 1, highChannel900)]
  | .gsm900 => [(lowChannel900, highChannel900)]
  | .gsm1800 => [(lowChannel1800, highChannel1800)]
  | .gsm1900 => [(lowChannel1900, highChannel1900)]
  | .gsm850 => [(lowChannel850, highChannel850)]
  | .gsm850_1800 => [(lowChannel1800, highChannel1800), (lowChannel850, highChannel850)]
  | .gsm900_1900 =>
    [(lowChannel900 - 1, highChannel900), (lowChannelEgsm, highChannelEgsm - 1), (lowChannel1900, highChannel1900)]
  | .gsm850_900_1800 =>
    [(lowChannel900 - 1, highChannel900), (lowChannelEgsm, highChannelEgsm - 1), (lowChannel1800, highChannel1800),
      (lowChannel850, highChannel850)]
  | .gsm850_900_1900 =>
    [(lowChannel900 - 1, highChannel900), (lowChannelEgsm, highChannelEgsm - 1), (lowChannel1900, highChannel1900),
      (lowChannel850, highChannel850)]

/-- The array with the indices `in` and `out`; `slots` is the number of slots up to the last one that has been read or
written. -/
structure ArfcnScan where
  arfcnList : Nat → Nat
  input : Nat
  out : Nat
  slots : Nat

namespace ArfcnScan

/-- The slot is read or written. -/
def touch (s : ArfcnScan) (i : Nat) : ArfcnScan := { s with slots := max s.slots (i + 1) }

/-- The entry that is read is kept. -/
def keep (s : ArfcnScan) : ArfcnScan :=
  { s.touch s.out with
    arfcnList := Function.update s.arfcnList s.out (s.arfcnList s.input)
    out := s.out + 1 }

/-- A round of the loop over the ranges. -/
def testRange (s : ArfcnScan) (r : Nat × Nat) : ArfcnScan :=
  if inrange r.1 (s.arfcnList s.input) r.2 then s.keep else s

/-- The loop over the ranges, from the last one on. -/
def testRanges (ranges : List (Nat × Nat)) (s : ArfcnScan) : ArfcnScan := ranges.reverse.foldl testRange s

/-- The loop over the entries; its condition reads an entry before it looks at the index. -/
def scan (ranges : List (Nat × Nat)) (cArfcnList : Nat) : Nat → ArfcnScan → ArfcnScan
  | 0, s => s
  | n + 1, s =>
    let s := s.touch s.input
    if s.arfcnList s.input ≠ notPresent16Bit ∧ s.input < cArfcnList then
      let s := s.testRanges ranges
      scan ranges cArfcnList n { s with input := s.input + 1 }
    else s

end ArfcnScan

/-- `srv_remove_frequencies_in_array_gen`: the result, and the array with the slots it has used -/
def srvRemoveFrequenciesInArrayGen (std : Std) (setBand : Nat) (arfcnList : Nat → Nat) (cArfcnList : Nat) :
    Nat × ArfcnScan :=
  let ranges := (localStd std setBand).ranges
  let s : ArfcnScan := ⟨arfcnList, 0, 0, 0⟩
  if ranges ≠ [] then
    let s := s.scan ranges cArfcnList (cArfcnList + 1)
    (s.out % 256, { s.touch s.out with arfcnList := Function.update s.arfcnList s.out notPresent16Bit })
  else (s.out % 256, s)

/-- `srv_remove_frequencies_in_array`; the number of slots is `MAX_NEIGHBOURCELLS` -/
def srvRemoveFrequenciesInArray (std : Std) (setBand : Nat) (arfcnList : Nat → Nat) : Nat × ArfcnScan :=
  srvRemoveFrequenciesInArrayGen std setBand arfcnList 0x21

/-! ### What is kept -/

/-- The channels of an array, which end at a terminator or with its last slot. -/
def arfcns (arfcnList : Nat → Nat) (c : Nat) : List Nat :=
  ((List.range c).map arfcnList).takeWhile (· ≠ notPresent16Bit)

/-- A band that is not excluded has the channel. -/
def Std.Serves (std : Std) (channel : Nat) : Prop := ∃ b ∈ std.bands, b.Has channel

instance (b : Band) (c : Nat) : Decidable (b.Has c) :=
  match b with
  | .gsm850 => inferInstanceAs (Decidable (128 ≤ c ∧ c ≤ 251))
  | .gsm900 => inferInstanceAs (Decidable (1 ≤ c ∧ c ≤ 124))
  | .egsm900 => inferInstanceAs (Decidable (c ≤ 124 ∨ 975 ≤ c ∧ c ≤ 1023))
  | .dcs1800 => inferInstanceAs (Decidable (512 ≤ c ∧ c ≤ 885))
  | .pcs1900 => inferInstanceAs (Decidable (512 ≤ c ∧ c ≤ 810))

instance (std : Std) : DecidablePred std.Serves := fun c => inferInstanceAs (Decidable (∃ b ∈ std.bands, b.Has c))

/-- The channel lies in a range of the standard. -/
def Std.served (std : Std) (channel : Nat) : Bool := std.ranges.any fun r => inrange r.1 channel r.2

section
variable {std : Std} {s : ArfcnScan} {l : List (Nat × Nat)} {arfcnList : Nat → Nat} {r r' : Nat × Nat}
  {c i n setBand : Nat}

/-- The channels in the ranges of a standard are those of its bands. -/
theorem served_iff (hc : c < 65536) : std.served c = true ↔ std.Serves c := by
  have h900 : inrange lowChannel900 c highChannel900 = true ↔ 1 ≤ c ∧ c ≤ 124 := inrange_eq hc (by decide) (by decide)
  have hshift : inrange (lowChannel900 - 1) c highChannel900 = true ↔ 0 ≤ c ∧ c ≤ 124 :=
    inrange_eq hc (by decide) (by decide)
  have h1900 : inrange lowChannel1900 c highChannel1900 = true ↔ 512 ≤ c ∧ c ≤ 810 :=
    inrange_eq hc (by decide) (by decide)
  have h1800 : inrange lowChannel1800 c highChannel1800 = true ↔ 512 ≤ c ∧ c ≤ 885 :=
    inrange_eq hc (by decide) (by decide)
  have h850 : inrange lowChannel850 c highChannel850 = true ↔ 128 ≤ c ∧ c ≤ 251 :=
    inrange_eq hc (by decide) (by decide)
  have hegsm : inrange lowChannelEgsm c (highChannelEgsm - 1) = true ↔ 975 ≤ c ∧ c ≤ 1023 :=
    inrange_eq hc (by decide) (by decide)
  unfold Std.served Std.Serves
  cases std
  case notPresent => exact iff_of_false nofun fun h => nomatch h.choose_spec.1
  all_goals
    simp only [Std.ranges, Std.bands, List.any_cons, List.any_nil, Bool.or_false, Bool.or_eq_true, List.mem_cons,
      List.not_mem_nil, or_false, exists_eq_or_imp, exists_eq_left, Band.Has, h900, hshift, h1900, h1800, h850, hegsm]
  all_goals omega

/-- Two ranges without a common channel. -/
private def Apart (r r' : Nat × Nat) : Prop := r.2 < r'.1 ∨ r'.2 < r.1

/-- A range of channels. -/
private def Proper (r : Nat × Nat) : Prop := r.1 ≤ r.2 ∧ r.2 < 65536

instance : DecidableRel Apart := fun r r' => inferInstanceAs (Decidable (r.2 < r'.1 ∨ r'.2 < r.1))

instance : DecidablePred Proper := fun r => inferInstanceAs (Decidable (r.1 ≤ r.2 ∧ r.2 < 65536))

private theorem ranges_apart (std : Std) : std.ranges.Pairwise Apart ∧ ∀ r ∈ std.ranges, Proper r := by
  cases std <;> decide

private theorem apart_inrange (hc : c < 65536) (hr : Proper r) (hr' : Proper r') (h : Apart r r')
    (hin : inrange r.1 c r.2 = true) : inrange r'.1 c r'.2 = false := by
  rw [Bool.eq_false_iff]
  intro hin'
  have h1 := (inrange_eq hc hr.1 hr.2).1 hin
  have h2 := (inrange_eq hc hr'.1 hr'.2).1 hin'
  unfold Apart at h
  omega

private theorem keep_entry : s.keep.arfcnList s.keep.input = s.arfcnList s.input := by
  unfold ArfcnScan.keep ArfcnScan.touch
  dsimp only
  by_cases h : s.input = s.out
  · rw [← h, Function.update_self]
  · rw [Function.update_of_ne h]

private theorem foldl_none (h : ∀ r ∈ l, inrange r.1 (s.arfcnList s.input) r.2 = false) :
    l.foldl ArfcnScan.testRange s = s := by
  induction l with
  | nil => rfl
  | cons r l ih =>
    have hr : s.testRange r = s := if_neg (by rw [h r List.mem_cons_self]; nofun)
    rw [List.foldl_cons, hr]
    exact ih fun r' hr' => h r' (List.mem_cons_of_mem _ hr')

private theorem foldl_apart (hl : l.Pairwise Apart) (hp : ∀ r ∈ l, Proper r) (hc : s.arfcnList s.input < 65536) :
    l.foldl ArfcnScan.testRange s =
      if l.any fun r => inrange r.1 (s.arfcnList s.input) r.2 then s.keep else s := by
  induction l with
  | nil => rfl
  | cons r l ih =>
    obtain ⟨hr, hl⟩ := List.pairwise_cons.1 hl
    rw [List.foldl_cons, List.any_cons]
    cases hin : inrange r.1 (s.arfcnList s.input) r.2 with
    | true =>
      have hkeep : s.testRange r = s.keep := if_pos hin
      rw [hkeep, Bool.true_or, if_pos rfl]
      refine foldl_none fun r' hr' => ?_
      rw [keep_entry]
      exact apart_inrange hc (hp r List.mem_cons_self) (hp r' (List.mem_cons_of_mem _ hr')) (hr r' hr') hin
    | false =>
      have hleave : s.testRange r = s := if_neg (by rw [hin]; nofun)
      rw [hleave, Bool.false_or]
      exact ih hl fun r' hr' => hp r' (List.mem_cons_of_mem _ hr')

/-- An entry is kept once when its channel is supported. -/
theorem testRanges_eq (std : Std) (hc : s.arfcnList s.input < 65536) :
    s.testRanges std.ranges = if std.served (s.arfcnList s.input) then s.keep else s := by
  obtain ⟨hpair, hproper⟩ := ranges_apart std
  have hsymm : ∀ r r', Apart r' r → Apart r r' := fun _ _ => Or.symm
  unfold ArfcnScan.testRanges Std.served
  rw [foldl_apart (List.pairwise_reverse.2 (hpair.imp (hsymm _ _))) (fun r hr => hproper r (List.mem_reverse.1 hr)) hc,
    List.any_reverse]

/-! ### The loop -/

/-- Before a round: the slots up to `out` hold what is kept of the entries in front of `in`, and the entries from there on
are as they were. -/
private structure Scanned (arfcnList : Nat → Nat) (std : Std) (s : ArfcnScan) : Prop where
  out_le : s.out ≤ s.input
  rest : ∀ j, s.input ≤ j → s.arfcnList j = arfcnList j
  kept : (List.range s.out).map s.arfcnList = ((List.range s.input).map arfcnList).filter std.served
  present : ∀ j < s.input, arfcnList j ≠ notPresent16Bit
  slots : s.slots ≤ s.input

private theorem Scanned.keep (h : Scanned arfcnList std s) (hin : std.served (arfcnList s.input) = true)
    (hpres : arfcnList s.input ≠ notPresent16Bit) :
    Scanned arfcnList std { (s.touch s.input).keep with input := s.input + 1 } := by
  have hentry : s.arfcnList s.input = arfcnList s.input := h.rest _ (Nat.le_refl _)
  have hout := h.out_le
  refine ⟨Nat.succ_le_succ hout, fun j hj => ?_, ?_, fun j hj => ?_, ?_⟩
  · have hne : j ≠ s.out := by
      have : s.input + 1 ≤ j := hj
      omega
    exact (Function.update_of_ne hne _ _).trans (h.rest j (Nat.le_of_succ_le hj))
  · change (List.range (s.out + 1)).map (Function.update s.arfcnList s.out (s.arfcnList s.input)) =
      ((List.range (s.input + 1)).map arfcnList).filter std.served
    have hsame : (List.range s.out).map (Function.update s.arfcnList s.out (s.arfcnList s.input)) =
        (List.range s.out).map s.arfcnList :=
      List.map_congr_left fun j hj => Function.update_of_ne (Nat.ne_of_lt (List.mem_range.1 hj)) _ _
    rw [List.range_succ, List.map_append, hsame, List.range_succ, List.map_append, List.filter_append, h.kept]
    refine congrArg _ ?_
    rw [List.map_singleton, List.map_singleton, Function.update_self, hentry, List.filter_cons_of_pos hin,
      List.filter_nil]
  · rcases Nat.lt_succ_iff_lt_or_eq.1 hj with hj | rfl
    · exact h.present j hj
    · exact hpres
  · have hslots := h.slots
    change max (max s.slots (s.input + 1)) (s.out + 1) ≤ s.input + 1
    omega

private theorem Scanned.leave (h : Scanned arfcnList std s) (hin : std.served (arfcnList s.input) = false)
    (hpres : arfcnList s.input ≠ notPresent16Bit) :
    Scanned arfcnList std { s.touch s.input with input := s.input + 1 } := by
  refine ⟨Nat.le_succ_of_le h.out_le, fun j hj => h.rest j (Nat.le_of_succ_le hj), ?_, fun j hj => ?_, ?_⟩
  · have hdrop : ¬std.served (arfcnList s.input) = true := by
      rw [hin]
      nofun
    change _ = ((List.range (s.input + 1)).map arfcnList).filter std.served
    rw [List.range_succ, List.map_append, List.filter_append, List.map_singleton, List.filter_cons_of_neg hdrop,
      List.filter_nil, List.append_nil]
    exact h.kept
  · rcases Nat.lt_succ_iff_lt_or_eq.1 hj with hj | rfl
    · exact h.present j hj
    · exact hpres
  · have hslots := h.slots
    change max s.slots (s.input + 1) ≤ s.input + 1
    omega

/-- Where the loop stops, it has read an entry that is a terminator, or the slot behind the last one. -/
private theorem scan_stops (h : Scanned arfcnList std s) (hlist : ∀ j < c, arfcnList j < 65536) (hi : s.input ≤ c)
    (hn : c < s.input + n) :
    ∃ t, Scanned arfcnList std t ∧ s.scan std.ranges c n = t.touch t.input ∧ t.input ≤ c ∧
      (t.input < c → arfcnList t.input = notPresent16Bit) := by
  induction n generalizing s with
  | zero => exact absurd hn (Nat.not_lt.2 hi)
  | succ n ih =>
    have hentry : s.arfcnList s.input = arfcnList s.input := h.rest _ (Nat.le_refl _)
    unfold ArfcnScan.scan
    dsimp only
    by_cases hgo : (s.touch s.input).arfcnList (s.touch s.input).input ≠ notPresent16Bit ∧ (s.touch s.input).input < c
    · rw [if_pos hgo]
      have hpres : arfcnList s.input ≠ notPresent16Bit := fun heq => hgo.1 (hentry.trans heq)
      have hlt : s.input < c := hgo.2
      have hchan : (s.touch s.input).arfcnList (s.touch s.input).input < 65536 := hentry.symm ▸ hlist s.input hlt
      have hserved : std.served ((s.touch s.input).arfcnList (s.touch s.input).input) = std.served (arfcnList s.input) :=
        congrArg std.served hentry
      rw [testRanges_eq std hchan, hserved]
      cases hin : std.served (arfcnList s.input) with
      | true =>
        have hnext := h.keep hin hpres
        rw [if_pos rfl]
        exact ih hnext hlt (by change c < s.input + 1 + n; omega)
      | false =>
        have hnext := h.leave hin hpres
        rw [if_neg nofun]
        exact ih hnext hlt (by change c < s.input + 1 + n; omega)
    · rw [if_neg hgo]
      refine ⟨s, h, rfl, hi, fun hlt => ?_⟩
      by_contra hpres
      exact hgo ⟨fun heq => hpres (hentry.symm.trans heq), hlt⟩

private theorem arfcns_ended (hpres : ∀ j < i, arfcnList j ≠ notPresent16Bit) (hi : i < c)
    (hend : arfcnList i = notPresent16Bit) : arfcns arfcnList c = (List.range i).map arfcnList := by
  obtain ⟨k, rfl⟩ := Nat.exists_eq_add_of_lt hi
  unfold arfcns
  rw [Nat.add_assoc, List.range_add, List.map_append, List.range_succ_eq_map, List.map_cons, List.map_cons, Nat.add_zero,
    List.takeWhile_append_of_pos, List.takeWhile_cons_of_neg, List.append_nil]
  · rw [hend]
    simp
  · intro ch hch
    obtain ⟨j, hj, rfl⟩ := List.mem_map.1 hch
    exact decide_eq_true (hpres j (List.mem_range.1 hj))

end

/-! ### The result -/

/-- The function returns the number of the entries that it keeps, leaves those of supported bands in order and none more
often than it was there, and uses no slot but those of the array. -/
structure FiltersRightly (std : Std) (setBand : Nat) (arfcnList : Nat → Nat) (cArfcnList : Nat) (r : Nat × ArfcnScan) :
    Prop where
  count : r.1 = ((arfcns arfcnList cArfcnList).filter fun ch => (localStd std setBand).Serves ch).length
  list : arfcns r.2.arfcnList cArfcnList = (arfcns arfcnList cArfcnList).filter fun ch => (localStd std setBand).Serves ch
  often : ∀ ch, (arfcns r.2.arfcnList cArfcnList).count ch ≤ (arfcns arfcnList cArfcnList).count ch
  slots : r.2.slots ≤ cArfcnList
  others : ∀ i, cArfcnList ≤ i → r.2.arfcnList i = arfcnList i

/-- An array of channels is filtered rightly exactly when it has a terminator: of an array that is full, the slot behind
the last one is read. -/
theorem ncellList_iff (std : Std) (setBand : Nat) (arfcnList : Nat → Nat) (cArfcnList : Nat)
    (hstd : localStd std setBand ≠ .notPresent) (hc : cArfcnList < 256)
    (hlist : ∀ i < cArfcnList, arfcnList i < 65536) :
    FiltersRightly std setBand arfcnList cArfcnList
        (srvRemoveFrequenciesInArrayGen std setBand arfcnList cArfcnList) ↔
      ∃ i < cArfcnList, arfcnList i = notPresent16Bit := by
  have hstart : Scanned arfcnList (localStd std setBand) ⟨arfcnList, 0, 0, 0⟩ :=
    ⟨Nat.le_refl _, fun _ _ => rfl, rfl, nofun, Nat.le_refl _⟩
  obtain ⟨t, ht, heq, hle, hstop⟩ := scan_stops hstart hlist (Nat.zero_le _) (by omega : cArfcnList < 0 + (cArfcnList + 1))
  have hranges : (localStd std setBand).ranges ≠ [] := by
    cases h : localStd std setBand
    case notPresent => exact absurd h hstd
    all_goals nofun
  unfold srvRemoveFrequenciesInArrayGen
  dsimp only
  rw [if_pos hranges, heq]
  have hout := ht.out_le
  have hslots := ht.slots
  constructor
  · intro h
    have hused : max (max t.slots (t.input + 1)) (t.out + 1) ≤ cArfcnList := h.slots
    have hlt : t.input < cArfcnList := by omega
    exact ⟨t.input, hlt, hstop hlt⟩
  · rintro ⟨i, hi, hend⟩
    have hlt : t.input < cArfcnList := by
      by_contra hge
      exact ht.present i (by omega) hend
    have hentries := arfcns_ended ht.present hlt (hstop hlt)
    have hserves : ((List.range t.input).map arfcnList).filter (localStd std setBand).served =
        (arfcns arfcnList cArfcnList).filter fun ch => (localStd std setBand).Serves ch := by
      rw [hentries]
      refine List.filter_congr fun ch hch => ?_
      obtain ⟨j, hj, rfl⟩ := List.mem_map.1 hch
      have hchan := hlist j (Nat.lt_trans (List.mem_range.1 hj) hlt)
      rw [Bool.eq_iff_iff, served_iff hchan, decide_eq_true_iff]
    have hkept := ht.kept.trans hserves
    have hlen := congrArg List.length hkept
    rw [List.length_map, List.length_range] at hlen
    have hsame : (List.range t.out).map (Function.update t.arfcnList t.out notPresent16Bit) =
        (List.range t.out).map t.arfcnList :=
      List.map_congr_left fun j hj => Function.update_of_ne (Nat.ne_of_lt (List.mem_range.1 hj)) _ _
    have hafter : arfcns (Function.update t.arfcnList t.out notPresent16Bit) cArfcnList =
        (arfcns arfcnList cArfcnList).filter fun ch => (localStd std setBand).Serves ch := by
      rw [arfcns_ended (fun j hj => ?_) (by omega) (Function.update_self ..), hsame, hkept]
      rw [Function.update_of_ne (Nat.ne_of_lt hj)]
      have hmem : t.arfcnList j ∈ (List.range t.out).map t.arfcnList := List.mem_map_of_mem (List.mem_range.2 hj)
      rw [ht.kept] at hmem
      obtain ⟨k, hk, hkj⟩ := List.mem_map.1 (List.mem_of_mem_filter hmem)
      rw [← hkj]
      exact ht.present k (List.mem_range.1 hk)
    refine ⟨?_, hafter, fun ch => ?_, ?_, fun j hj => ?_⟩
    · rw [← hlen]
      exact Nat.mod_eq_of_lt (by change t.out < 256; omega)
    · change (arfcns (Function.update t.arfcnList t.out notPresent16Bit) cArfcnList).count ch ≤ _
      rw [hafter]
      exact List.filter_sublist.count_le ch
    · change max (max t.slots (t.input + 1)) (t.out + 1) ≤ cArfcnList
      omega
    · have hne : j ≠ t.out := by omega
      exact (Function.update_of_ne hne _ _).trans (ht.rest j (by omega))

namespace ncells

/-- Channels 5, 600 and 200, and a terminator. -/
def mixed : Nat → Nat := fun i => [5, 600, 200].getD i notPresent16Bit

theorem ncellList_iff_run :
    FiltersRightly .dualEgsm 0 mixed 4 (srvRemoveFrequenciesInArrayGen .dualEgsm 0 mixed 4) :=
  (ncellList_iff .dualEgsm 0 mixed 4 (by decide) (by decide) (by decide)).2 ⟨3, by decide, rfl⟩

/-- Two channels that fill their array. -/
def full : Nat → Nat := fun i => [5, 600].getD i 0

/-- Of a full array with nothing to remove, the slot behind the last one is read and overwritten. -/
theorem full_overwritten :
    ¬FiltersRightly .dualEgsm 0 full 2 (srvRemoveFrequenciesInArrayGen .dualEgsm 0 full 2) ∧
      (srvRemoveFrequenciesInArrayGen .dualEgsm 0 full 2).2.arfcnList 2 = notPresent16Bit := by
  refine ⟨fun h => ?_, by decide⟩
  have hslots := h.slots
  revert hslots
  decide

end ncells

end Citrine.Rr
