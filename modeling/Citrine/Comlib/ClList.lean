import Mathlib.Data.List.Basic
import Mathlib.Logic.Function.Basic
import Citrine.Lib.Bits

/-!
# Channel lists

`cl_list.c`: a set of channels is a bitmap of 128 octets, in which channel 0 has an internal number behind all others and
the highest number the first bit.  `srv_create_list` converts it to an array, behind channels that the array holds
already.  The array is the memory from its first element on, whatever lies behind its end included.
-/

namespace Citrine.Comlib

open Bits

/-- `BITOFFSET_LIST` -/
def bitOffsetList : Nat := 1024

/-- `T_LIST_MAX_SIZE` -/
def tListMaxSize : Nat := 128

/-- `CHANNEL_0` -/
def channel0 : Nat := 0

/-- `CHANNEL_0_INTERNAL` -/
def channel0Internal : Nat := 0x400

/-- `NOT_PRESENT_16BIT` -/
def notPresent16Bit : Nat := 0xFFFF

/-- `ByteBitMask` -/
def byteBitMask : List (BitVec 8) := [0x80, 0x40, 0x20, 0x10, 0x08, 0x04, 0x02, 0x1]

/-- `setBit` -/
def setBit (bitstream : Octets) (bitindex : Nat) : Octets :=
  Function.update bitstream (bitindex / 8) (bitstream (bitindex / 8) ||| byteBitMask.getD (bitindex % 8) 0)

/-- `resetBit` -/
def resetBit (bitstream : Octets) (bitindex : Nat) : Octets :=
  Function.update bitstream (bitindex / 8) (bitstream (bitindex / 8) &&& ~~~byteBitMask.getD (bitindex % 8) 0)

/-- `getBit` -/
def getBit (bitstream : Octets) (bitindex : Nat) : Nat :=
  if bitstream (bitindex / 8) ≠ 0 then
    if bitstream (bitindex / 8) &&& byteBitMask.getD (bitindex % 8) 0 ≠ 0 then 1 else 0
  else 0

inductive ChannelMode where
  | setChannelBit | resetChannelBit | getChannelBit | checkChannel
  deriving DecidableEq, Repr

/-- `scr_channel_bit`, for a channel number that is not negative. -/
def scrChannelBit (list : Octets) (channel : Nat) (mode : ChannelMode) : Nat × Octets :=
  let channel := if channel = channel0 then channel0Internal else channel
  if channel ≤ bitOffsetList then
    let bitposition := bitOffsetList - channel
    match mode with
    | .setChannelBit => (0, setBit list bitposition)
    | .resetChannelBit => (0, resetBit list bitposition)
    | .getChannelBit => (getBit list bitposition, list)
    | .checkChannel => (1, list)
  else (0, list)

/-- `srv_is_not_in_list` for the last `n` of the elements, from `i` on. -/
def srvIsNotInList (channels : Nat → Nat) (newChannel : Nat) : Nat → Nat → Bool
  | 0, _ => true
  | n + 1, i =>
    if channels i = notPresent16Bit then true
    else if channels i = newChannel then false
    else srvIsNotInList channels newChannel n (i + 1)

/-- The array and the number of its channels; `parray` points to the element behind them. -/
structure Conversion where
  array : Nat → Nat
  i : Nat

/-- The loop over the bits of an octet in `srv_create_list`, from `BitOffset` on down. -/
def addBits (startIndex size idx : Nat) (byteValue : BitVec 8) : Nat → Conversion → Conversion
  | 0, s => s
  | bitOffset + 1, s =>
    let left := byteValue.setWidth 32 &&& (0xfe#32 <<< (7 - bitOffset)) ≠ 0
    if byteValue.setWidth 32 &&& (0x01#32 <<< (7 - bitOffset)) ≠ 0 then
      let s := { s with array := Function.update s.array s.i (bitOffsetList - (bitOffset + idx * 8)) }
      if startIndex = 0 ∨ srvIsNotInList s.array (s.array s.i) startIndex 0 then
        let s := { s with i := s.i + 1 }
        if size ≤ s.i then s
        else if left then addBits startIndex size idx byteValue bitOffset s
        else s
      else if left then addBits startIndex size idx byteValue bitOffset s
      else s
    else addBits startIndex size idx byteValue bitOffset s

/-- The loop over the octets in `srv_create_list`, from the last one on down. -/
def addOctets (startIndex size : Nat) (list : Octets) : Nat → Conversion → Conversion
  | 0, s => s
  | idx + 1, s =>
    if s.i < size then
      addOctets startIndex size list idx (if list idx ≠ 0 then addBits startIndex size idx (list idx) 8 s else s)
    else s

/-- `srv_create_list`: the number of channels, and the array. -/
def srvCreateList (list : Octets) (channelArray : Nat → Nat) (size : Nat) (zeroAtStart : Bool) (startIndex : Nat) :
    Nat × (Nat → Nat) :=
  let s := addOctets startIndex size list tListMaxSize ⟨channelArray, startIndex⟩
  let array :=
    if s.i ≠ startIndex ∧ s.array (s.i - 1) = channel0Internal then
      let array := Function.update s.array (s.i - 1) channel0
      -- `memmove` of all but the last element by one
      if zeroAtStart ∧ 1 < s.i then
        Function.update (fun j => if 1 ≤ j ∧ j < s.i then array (j - 1) else array j) 0 channel0
      else array
    else s.array
  (s.i, if s.i < size then Function.update array s.i notPresent16Bit else array)

/-! ### What the conversion is for -/

/-- A channel is in the bitmap. -/
def inList (list : Octets) (channel : Nat) : Bool := (scrChannelBit list channel .getChannelBit).1 == 1

/-- The channels of the bitmap but 0 that the array does not hold yet, in ascending order. -/
def newChannels (list : Octets) (pre : List Nat) : List Nat :=
  (List.range' 1 1023).filter fun c => inList list c && !pre.contains c

/-- What the array should hold: its channels and the new ones, with a new channel 0 in front of all or at the end, as
many as it can hold. -/
def channelList (list : Octets) (pre : List Nat) (size : Nat) (zeroAtStart : Bool) : List Nat :=
  let channels := pre ++ newChannels list pre
  (if inList list channel0 && !pre.contains channel0 then
    if zeroAtStart then channel0 :: channels else channels ++ [channel0]
  else channels).take size

/-- The array holds a list, is terminated when it is not full, and what lies behind its end is as before. -/
structure Converted (channelArray : Nat → Nat) (size : Nat) (channels : List Nat) (r : Nat × (Nat → Nat)) : Prop where
  number : r.1 = channels.length
  content : (List.range channels.length).map r.2 = channels
  terminated : channels.length < size → r.2 channels.length = notPresent16Bit
  present : ∀ c ∈ channels, c ≠ notPresent16Bit
  behind : ∀ j, size ≤ j → r.2 j = channelArray j

/-! ### Bits -/

private theorem mask_and : ∀ x : BitVec 8, ∀ r < 8, x &&& byteBitMask.getD r 0 ≠ 0 ↔ x.getMsbD r = true := by
  decide +kernel

private theorem mask_or : ∀ r < 8, ∀ k < 8, (byteBitMask.getD r 0).getMsbD k = decide (k = r) := by
  decide +kernel

private theorem bit_mask : ∀ x : BitVec 8, ∀ b < 8,
    x.setWidth 32 &&& (0x01#32 <<< (7 - b)) ≠ 0 ↔ x.getMsbD b = true := by
  decide +kernel

private theorem left_mask : ∀ x : BitVec 8, ∀ b < 8,
    x.setWidth 32 &&& (0xfe#32 <<< (7 - b)) ≠ 0 ↔ ∃ k < b, x.getMsbD k = true := by
  decide +kernel

/-- The place of a channel in the bitmap. -/
def bitposition (channel : Nat) : Nat :=
  bitOffsetList - if channel = channel0 then channel0Internal else channel

private theorem getBit_eq (list : Octets) (p : Nat) : getBit list p = (bitAt list p).toNat := by
  have hmask := mask_and (list (p / 8)) (p % 8) (Nat.mod_lt _ (by decide))
  unfold getBit bitAt
  by_cases hz : list (p / 8) = 0
  · rw [if_neg (not_not_intro hz), hz]
    simp
  · rw [if_pos hz]
    cases hb : (list (p / 8)).getMsbD (p % 8) with
    | true => rw [if_pos (hmask.2 hb)]; rfl
    | false => rw [if_neg (mt hmask.1 (by simp [hb]))]; rfl

private theorem bitAt_setBit (list : Octets) (p q : Nat) :
    bitAt (setBit list p) q = (decide (q = p) || bitAt list q) := by
  unfold bitAt setBit
  by_cases ho : q / 8 = p / 8
  · rw [ho, Function.update_self, BitVec.getMsbD_or, mask_or _ (Nat.mod_lt _ (by decide)) _ (Nat.mod_lt _ (by decide)),
      Bool.or_comm]
    congr 1
    have : q % 8 = p % 8 ↔ q = p := by omega
    simp only [this]
  · have hne : q ≠ p := by
      rintro rfl
      exact ho rfl
    rw [Function.update_of_ne ho]
    simp [hne]

private theorem channel_le {c : Nat} (hc : c < 1024) :
    (if c = channel0 then channel0Internal else c) ≤ bitOffsetList := by
  unfold channel0 channel0Internal bitOffsetList
  split <;> omega

theorem inList_eq {list : Octets} {c : Nat} (hc : c < 1024) : inList list c = bitAt list (bitposition c) := by
  unfold inList scrChannelBit
  dsimp only
  rw [if_pos (channel_le hc)]
  dsimp only
  rw [getBit_eq]
  unfold bitposition
  cases bitAt list _ <;> rfl

private theorem set_eq {list : Octets} {c : Nat} (hc : c < 1024) :
    (scrChannelBit list c .setChannelBit).2 = setBit list (bitposition c) := by
  unfold scrChannelBit
  dsimp only
  rw [if_pos (channel_le hc)]
  rfl

private theorem bitposition_inj {c d : Nat} (hc : c < 1024) (hd : d < 1024) (h : bitposition c = bitposition d) :
    c = d := by
  unfold bitposition bitOffsetList channel0 channel0Internal at h
  split at h <;> split at h <;> omega

private theorem bitposition_pos {c : Nat} (h0 : c ≠ 0) : bitposition c = 1024 - c := by
  unfold bitposition channel0
  rw [if_neg h0]
  rfl

/-! ### The loops -/

section
variable {pre t l : List Nat} {size idx p q n : Nat} {orig : Nat → Nat} {s : Conversion} {list : Octets} {P : Nat → Bool}

/-- The array holds a list so far. -/
private structure Holding (orig : Nat → Nat) (size : Nat) (s : Conversion) (l : List Nat) : Prop where
  number : s.i = l.length
  content : ∀ j (h : j < l.length), s.array j = l.get ⟨j, h⟩
  room : l.length ≤ size
  behind : ∀ j, size ≤ j → s.array j = orig j

/-- The channels of the places below one, in the order of the conversion. -/
private def above (P : Nat → Bool) : Nat → List Nat
  | 0 => []
  | p + 1 => (if P p then [1024 - p] else []) ++ above P p

private theorem above_split (h : q ≤ p) : ∃ x, above P p = x ++ above P q := by
  induction p with
  | zero => exact ⟨[], by rw [Nat.le_zero.1 h]; rfl⟩
  | succ p ih =>
    rcases Nat.lt_or_ge p q with hlt | hge
    · exact ⟨[], by rw [show p + 1 = q by omega]; rfl⟩
    · obtain ⟨x, hx⟩ := ih hge
      exact ⟨(if P p then [1024 - p] else []) ++ x, by rw [above, hx, List.append_assoc]⟩

private theorem above_skip (h : q ≤ p) (hP : ∀ j, q ≤ j → j < p → P j = false) : above P p = above P q := by
  induction p with
  | zero => rw [Nat.le_zero.1 h]
  | succ p ih =>
    rcases Nat.lt_or_ge p q with hlt | hge
    · rw [show p + 1 = q by omega]
    · rw [above, hP p hge (Nat.lt_succ_self p)]
      exact ih hge fun j hj hjp => hP j hj (Nat.lt_succ_of_lt hjp)

/-- The places from one on are converted, as many as the array can hold. -/
private def Inv (pre : List Nat) (orig : Nat → Nat) (size : Nat) (P : Nat → Bool) (p : Nat) (s : Conversion) : Prop :=
  ∃ t, t ++ above P p = above P 1024 ∧ Holding orig size s (pre ++ t.take (size - pre.length))

private theorem Inv.full (h : Inv pre orig size P p s) (hf : size ≤ s.i) (hq : q ≤ p) : Inv pre orig size P q s := by
  obtain ⟨t, ht, hs⟩ := h
  obtain ⟨x, hx⟩ := above_split (P := P) hq
  have hn := hs.number
  have hlen : size - pre.length ≤ t.length := by
    rw [List.length_append, List.length_take] at hn
    omega
  refine ⟨t ++ x, by rw [List.append_assoc, ← hx, ht], ?_⟩
  rwa [List.take_append_of_le_length hlen]

private theorem Inv.skip (h : Inv pre orig size P p s) (hq : q ≤ p) (hP : ∀ j, q ≤ j → j < p → P j = false) :
    Inv pre orig size P q s := by
  obtain ⟨t, ht, hs⟩ := h
  exact ⟨t, by rw [← above_skip hq hP, ht], hs⟩

/-- An element behind the list is written. -/
private theorem Holding.write (h : Holding orig size s l) (hlt : s.i < size) (v : Nat) :
    Holding orig size ⟨Function.update s.array s.i v, s.i⟩ l ∧
      Holding orig size ⟨Function.update s.array s.i v, s.i + 1⟩ (l ++ [v]) := by
  have hn := h.number
  have hkeep : ∀ j (hj : j < l.length), Function.update s.array s.i v j = l.get ⟨j, hj⟩ := fun j hj => by
    rw [Function.update_of_ne (by omega), h.content j hj]
  have hbehind : ∀ j, size ≤ j → Function.update s.array s.i v j = orig j := fun j hj => by
    rw [Function.update_of_ne (by omega), h.behind j hj]
  refine ⟨⟨hn, hkeep, h.room, hbehind⟩, ⟨by simp [hn], fun j hj => ?_, by simp; omega, hbehind⟩⟩
  rw [List.length_append, List.length_singleton] at hj
  dsimp only
  by_cases hjl : j < l.length
  · rw [hkeep j hjl]
    simp [List.getElem_append_left hjl]
  · have hji : j = s.i := by omega
    subst hji
    rw [Function.update_self]
    simp [hn]

private theorem srvIsNotInList_eq {channels : Nat → Nat} {c i : Nat}
    (hp : ∀ j < n, channels (i + j) ≠ notPresent16Bit) :
    srvIsNotInList channels c n i = true ↔ ∀ j < n, channels (i + j) ≠ c := by
  induction n generalizing i with
  | zero => exact iff_of_true rfl fun j hj => absurd hj (Nat.not_lt_zero j)
  | succ n ih =>
    have hshift : ∀ j, i + 1 + j = i + (j + 1) := fun j => by omega
    unfold srvIsNotInList
    rw [if_neg (show channels i ≠ notPresent16Bit from hp 0 (Nat.succ_pos n))]
    by_cases hc : channels i = c
    · rw [if_pos hc]
      exact iff_of_false Bool.false_ne_true fun h => h 0 (Nat.succ_pos n) hc
    · rw [if_neg hc, ih fun j hj => by rw [hshift]; exact hp (j + 1) (by omega)]
      constructor
      · intro h j hj
        cases j with
        | zero => exact hc
        | succ j =>
          rw [← hshift]
          exact h j (by omega)
      · intro h j hj
        rw [hshift]
        exact h (j + 1) (by omega)

/-- The test whether a channel is new. -/
private theorem Holding.isNew (h : Holding orig size s (pre ++ t)) (hpre : ∀ c ∈ pre, c < 1024) (c : Nat) :
    (pre.length = 0 ∨ srvIsNotInList s.array c pre.length 0) ↔ pre.contains c = false := by
  have hcontent : ∀ j (hj : j < pre.length), s.array (0 + j) = pre.get ⟨j, hj⟩ := fun j hj => by
    have hlen : j < (pre ++ t).length := by
      rw [List.length_append]
      omega
    rw [Nat.zero_add, h.content j hlen]
    simp [List.getElem_append_left hj]
  have hnp : ∀ j < pre.length, s.array (0 + j) ≠ notPresent16Bit := fun j hj => by
    rw [hcontent j hj]
    have := hpre _ (List.get_mem pre ⟨j, hj⟩)
    unfold notPresent16Bit
    omega
  rw [srvIsNotInList_eq hnp]
  constructor
  · rintro (h0 | hall)
    · rw [List.length_eq_zero_iff.1 h0]
      rfl
    · rw [← Bool.not_eq_true, List.contains_iff_mem]
      intro hc
      obtain ⟨j, hj⟩ := List.get_of_mem hc
      exact hall j.1 j.2 ((hcontent j.1 j.2).trans hj)
  · intro hc
    refine .inr fun j hj hjc => ?_
    rw [hcontent j hj] at hjc
    have hmem := List.get_mem pre ⟨j, hj⟩
    rw [hjc] at hmem
    rw [List.contains_iff_mem.2 hmem] at hc
    cases hc

end

/-! ### The invariant of the loops -/

section
variable {pre t l : List Nat} {size idx p q n : Nat} {orig : Nat → Nat} {s : Conversion} {list : Octets}

/-- A place whose channel is to be converted. -/
private def wanted (list : Octets) (pre : List Nat) (p : Nat) : Bool := bitAt list p && !pre.contains (1024 - p)

private theorem bitAt_octet (list : Octets) {b : Nat} (hb : b < 8) : bitAt list (8 * idx + b) = (list idx).getMsbD b := by
  unfold bitAt
  rw [show (8 * idx + b) / 8 = idx by omega, show (8 * idx + b) % 8 = b by omega]

/-- What is wanted is put into the array; what is not is left out. -/
private theorem addBits_step {b : Nat} (hpre : ∀ c ∈ pre, c < 1024)
    (h : Inv pre orig size (wanted list pre) (8 * idx + b + 1) s) (hlt : s.i < size) (hb : b < 8) :
    let v := bitOffsetList - (b + idx * 8)
    let w : Conversion := ⟨Function.update s.array s.i v, s.i⟩
    ((list idx).getMsbD b = false → Inv pre orig size (wanted list pre) (8 * idx + b) s) ∧
      ((list idx).getMsbD b = true →
        ((pre.length = 0 ∨ srvIsNotInList w.array (w.array w.i) pre.length 0) →
          Inv pre orig size (wanted list pre) (8 * idx + b) ⟨w.array, w.i + 1⟩) ∧
        (¬(pre.length = 0 ∨ srvIsNotInList w.array (w.array w.i) pre.length 0) →
          Inv pre orig size (wanted list pre) (8 * idx + b) w)) := by
  intro v w
  obtain ⟨t, ht, hs⟩ := h
  have hn := hs.number
  rw [List.length_append, List.length_take] at hn
  have hshort : t.length < size - pre.length := by omega
  have hv : v = 1024 - (8 * idx + b) := by
    change 1024 - (b + idx * 8) = _
    omega
  obtain ⟨hw, hw'⟩ := hs.write hlt v
  have hself : w.array w.i = v := Function.update_self ..
  have hnew := hw.isNew hpre v
  rw [above] at ht
  refine ⟨fun hbit => ⟨t, ?_, hs⟩, fun hbit => ⟨fun hin => ⟨t ++ [v], ?_, ?_⟩, fun hin => ⟨t, ?_, hw⟩⟩⟩
  · have hno : wanted list pre (8 * idx + b) = false := by
      unfold wanted
      rw [bitAt_octet list hb, hbit]
      rfl
    simpa [hno] using ht
  · rw [hself] at hin
    have hyes : wanted list pre (8 * idx + b) = true := by
      unfold wanted
      rw [bitAt_octet list hb, hbit, ← hv, hnew.1 hin]
      rfl
    rw [hyes, ← hv] at ht
    rw [List.append_assoc]
    exact ht
  · rw [List.take_of_length_le (by simp; omega), ← List.append_assoc]
    rwa [List.take_of_length_le (Nat.le_of_lt hshort)] at hw'
  · rw [hself] at hin
    have hno : wanted list pre (8 * idx + b) = false := by
      unfold wanted
      rw [← hv]
      cases hc : pre.contains v with
      | true => exact Bool.and_false _
      | false => exact absurd (hnew.2 hc) hin
    simpa [hno] using ht

private theorem addBits_inv {k : Nat} (hk : k ≤ 8) (hpre : ∀ c ∈ pre, c < 1024)
    (h : Inv pre orig size (wanted list pre) (8 * idx + k) s) (hlt : s.i < size) :
    Inv pre orig size (wanted list pre) (8 * idx) (addBits pre.length size idx (list idx) k s) := by
  induction k generalizing s with
  | zero => exact h
  | succ b ih =>
    have hb : b < 8 := hk
    obtain ⟨hclear, hset⟩ := addBits_step hpre h hlt hb
    have hrest : ∀ u : Conversion, Inv pre orig size (wanted list pre) (8 * idx + b) u → u.i < size →
        Inv pre orig size (wanted list pre) (8 * idx)
          (if (list idx).setWidth 32 &&& (0xfe#32 <<< (7 - b)) ≠ 0 then addBits pre.length size idx (list idx) b u
            else u) := by
      intro u hu hult
      split
      · exact ih (by omega) hu hult
      · rename_i hleft
        refine hu.skip (Nat.le_add_right _ b) fun j hj hjb => ?_
        have hbit : (list idx).getMsbD (j - 8 * idx) = false := by
          rw [← Bool.not_eq_true]
          exact fun hc => hleft ((left_mask (list idx) b hb).2 ⟨j - 8 * idx, by omega, hc⟩)
        unfold wanted
        rw [show j = 8 * idx + (j - 8 * idx) by omega, bitAt_octet list (by omega), hbit]
        rfl
    unfold addBits
    dsimp only
    by_cases hbit : (list idx).getMsbD b = true
    · rw [if_pos ((bit_mask _ b hb).2 hbit)]
      obtain ⟨hyes, hno⟩ := hset hbit
      split
      · rename_i hin
        split
        · rename_i hfull
          exact (hyes hin).full hfull (Nat.le_add_right _ b)
        · rename_i hroom
          exact hrest _ (hyes hin) (Nat.lt_of_not_le hroom)
      · rename_i hin
        exact hrest _ (hno hin) hlt
    · rw [if_neg (mt (bit_mask _ b hb).1 hbit)]
      exact ih (by omega) (hclear (by simpa using hbit)) hlt

private theorem addOctets_inv (list : Octets) (hpre : ∀ c ∈ pre, c < 1024) (h : Inv pre orig size (wanted list pre) (8 * n) s) :
    Inv pre orig size (wanted list pre) 0 (addOctets pre.length size list n s) := by
  induction n generalizing s with
  | zero => exact h
  | succ n ih =>
    unfold addOctets
    split
    · rename_i hlt
      refine ih ?_
      split
      · exact addBits_inv (Nat.le_refl 8) hpre h hlt
      · rename_i hz
        refine h.skip (by omega) fun j hj hjn => ?_
        unfold wanted
        rw [show j = 8 * n + (j - 8 * n) by omega, bitAt_octet list (by omega), not_not.1 hz]
        simp
    · rename_i hfull
      exact h.full (Nat.le_of_not_lt hfull) (Nat.zero_le _)

/-- The channels in the order of the conversion: those but 0 in ascending order, then 0 under its internal number. -/
private theorem above_channels (list : Octets) (hpre : ∀ c ∈ pre, c < 1024) :
    above (wanted list pre) 1024 = newChannels list pre ++ if inList list channel0 then [channel0Internal] else [] := by
  have hstep : ∀ n ≤ 1023, above (wanted list pre) (n + 1) =
      ((List.range' (1024 - n) n).filter fun c => inList list c && !pre.contains c) ++
        above (wanted list pre) 1 := by
    intro n hn
    induction n with
    | zero => rfl
    | succ n ih =>
      have hc : 1024 - (n + 1) < 1024 ∧ 1024 - (n + 1) ≠ 0 := by omega
      rw [above, ih (by omega), show 1024 - n = 1024 - (n + 1) + 1 by omega, List.range'_succ, List.filter_cons,
        inList_eq hc.1, bitposition_pos hc.2, show 1024 - (1024 - (n + 1)) = n + 1 by omega]
      unfold wanted
      split
      · rfl
      · rfl
  have hlast : above (wanted list pre) 1 = if inList list channel0 then [channel0Internal] else [] := by
    have hno : pre.contains 1024 = false := by
      rw [← Bool.not_eq_true, List.contains_iff_mem]
      intro hc
      exact absurd (hpre 1024 hc) (by decide)
    rw [inList_eq (by decide : channel0 < 1024)]
    change (if bitAt list 0 && !pre.contains 1024 then [1024] else []) ++ [] = _
    rw [hno, Bool.not_false, Bool.and_true, List.append_nil]
    rfl
  rw [hstep 1023 (by decide), hlast]
  rfl

end

/-! ### The conversion -/

section
variable {pre l : List Nat} {size : Nat} {orig : Nat → Nat} {s : Conversion} {list : Octets} {zeroAtStart : Bool}

/-- The end of the list is marked. -/
private theorem Holding.finish (h : Holding orig size s l) (hl : ∀ c ∈ l, c ≤ 1024) :
    Converted orig size l (s.i, if s.i < size then Function.update s.array s.i notPresent16Bit else s.array) := by
  have hn := h.number
  have hkeep : ∀ j, j ≠ s.i → (if s.i < size then Function.update s.array s.i notPresent16Bit else s.array) j = s.array j := by
    intro j hj
    split
    · exact Function.update_of_ne hj ..
    · rfl
  constructor
  case number => exact hn
  case content =>
    refine List.ext_getElem (by simp) fun j hj hjl => ?_
    rw [List.getElem_map, List.getElem_range]
    exact (hkeep j (by omega)).trans (h.content j hjl)
  case terminated =>
    intro hlt
    dsimp only
    rw [← hn] at hlt ⊢
    rw [if_pos hlt, Function.update_self]
  case present =>
    intro c hc
    have := hl c hc
    unfold notPresent16Bit
    omega
  case behind =>
    intro j hj
    have hroom := h.room
    by_cases hji : j = s.i
    · dsimp only
      rw [if_neg (by omega), h.behind j hj]
    · exact (hkeep j hji).trans (h.behind j hj)

theorem mem_newChannels {c : Nat} : c ∈ newChannels list pre ↔ (c ≠ 0 ∧ c < 1024) ∧ inList list c = true ∧ c ∉ pre := by
  unfold newChannels
  rw [List.mem_filter, List.mem_range'_1, Bool.and_eq_true, Bool.not_eq_true', ← Bool.not_eq_true,
    List.contains_iff_mem]
  have hrange : 1 ≤ c ∧ c < 1 + 1023 ↔ c ≠ 0 ∧ c < 1024 := by omega
  rw [hrange]

/-- What the array holds: channel 0 is put in only when it fits behind all others, and even when it was there. -/
def convertedList (list : Octets) (pre : List Nat) (size : Nat) (zeroAtStart : Bool) : List Nat :=
  let channels := pre ++ newChannels list pre
  if inList list channel0 && decide (channels.length < size) then
    if zeroAtStart then channel0 :: channels else channels ++ [channel0]
  else channels.take size

/-- What the loops leave. -/
private theorem addOctets_holding (list : Octets) (hlt : pre.length < size) (hpre : ∀ c ∈ pre, c < 1024)
    (horig : (List.range pre.length).map orig = pre) :
    Holding orig size (addOctets pre.length size list tListMaxSize ⟨orig, pre.length⟩)
      (pre ++ (newChannels list pre ++ if inList list channel0 then [channel0Internal] else []).take
        (size - pre.length)) := by
  have hstart : Holding orig size ⟨orig, pre.length⟩ (pre ++ ([] : List Nat).take (size - pre.length)) := by
    rw [List.take_nil, List.append_nil]
    refine ⟨rfl, fun j hj => ?_, Nat.le_of_lt hlt, fun _ _ => rfl⟩
    have hget := List.getElem_of_eq horig (i := j) (by simpa using hj)
    rw [List.getElem_map, List.getElem_range] at hget
    exact hget
  obtain ⟨t, ht, hs⟩ := addOctets_inv (n := 128) list hpre ⟨[], List.nil_append _, hstart⟩
  rw [above_channels list hpre] at ht
  change t ++ [] = _ at ht
  rw [List.append_nil] at ht
  rw [← ht]
  exact hs

/-- A list that ends with channel 0 under its internal number. -/
private theorem Holding.zero (h : Holding orig size s (l ++ [channel0Internal])) (hl : ∀ c ∈ l, c < 1024) :
    Converted orig size (if zeroAtStart then channel0 :: l else l ++ [channel0])
      (s.i, if s.i < size then Function.update
        (if zeroAtStart ∧ 1 < s.i then
          Function.update (fun j => if 1 ≤ j ∧ j < s.i then Function.update s.array (s.i - 1) channel0 (j - 1)
            else Function.update s.array (s.i - 1) channel0 j) 0 channel0
        else Function.update s.array (s.i - 1) channel0) s.i notPresent16Bit
      else if zeroAtStart ∧ 1 < s.i then
          Function.update (fun j => if 1 ≤ j ∧ j < s.i then Function.update s.array (s.i - 1) channel0 (j - 1)
            else Function.update s.array (s.i - 1) channel0 j) 0 channel0
        else Function.update s.array (s.i - 1) channel0) := by
  have hn := h.number
  have hroom := h.room
  rw [List.length_append, List.length_singleton] at hn hroom
  have hcontent : ∀ j (hj : j < l.length), s.array j = l.get ⟨j, hj⟩ := fun j hj => by
    rw [h.content j (by simp; omega)]
    simp [List.getElem_append_left hj]
  have hzero : Holding orig size ⟨Function.update s.array (s.i - 1) channel0, s.i⟩ (l ++ [channel0]) := by
    refine ⟨by simp [hn], fun j hj => ?_, by simpa using hroom, fun j hj => ?_⟩
    · rw [List.length_append, List.length_singleton] at hj
      dsimp only
      by_cases hjl : j < l.length
      · rw [Function.update_of_ne (by omega), hcontent j hjl]
        simp [List.getElem_append_left hjl]
      · have hji : j = s.i - 1 := by omega
        subst hji
        rw [Function.update_self]
        simp [hn]
    · dsimp only
      rw [Function.update_of_ne (by omega), h.behind j hj]
  by_cases hz : zeroAtStart = true ∧ 1 < s.i
  · simp only [hz.1, hz.2, and_self, if_true]
    have hshift : Holding orig size ⟨Function.update (fun j => if 1 ≤ j ∧ j < s.i then
        Function.update s.array (s.i - 1) channel0 (j - 1) else Function.update s.array (s.i - 1) channel0 j) 0 channel0,
        s.i⟩ (channel0 :: l) := by
      refine ⟨by simp [hn], fun j hj => ?_, by simpa using hroom, fun j hj => ?_⟩
      · rw [List.length_cons] at hj
        dsimp only
        cases j with
        | zero =>
          rw [Function.update_self]
          rfl
        | succ j =>
          rw [Function.update_of_ne (Nat.succ_ne_zero j), if_pos (by omega), Function.update_of_ne (by omega)]
          exact hcontent j (by omega)
      · dsimp only
        rw [Function.update_of_ne (by omega), if_neg (by omega), Function.update_of_ne (by omega), h.behind j hj]
    refine hshift.finish fun c hc => ?_
    rcases List.mem_cons.1 hc with rfl | hc
    · exact Nat.zero_le _
    · exact Nat.le_of_lt (hl c hc)
  · simp only [if_neg hz]
    have hsame : (if zeroAtStart = true then channel0 :: l else l ++ [channel0]) = l ++ [channel0] := by
      split
      · rename_i hzs
        have hi : ¬1 < s.i := fun hi => hz ⟨hzs, hi⟩
        have hnil : l = [] := List.length_eq_zero_iff.1 (by omega)
        rw [hnil]
        rfl
      · rfl
    rw [hsame]
    refine hzero.finish fun c hc => ?_
    rcases List.mem_append.1 hc with hc | hc
    · exact Nat.le_of_lt (hl c hc)
    · rw [List.mem_singleton.1 hc]
      exact Nat.zero_le _

/-- What `srv_create_list` leaves. -/
theorem srvCreateList_converted (list : Octets) (zeroAtStart : Bool) (hlt : pre.length < size) (hpre : ∀ c ∈ pre, c < 1024)
    (horig : (List.range pre.length).map orig = pre) :
    Converted orig size (convertedList list pre size zeroAtStart)
      (srvCreateList list orig size zeroAtStart pre.length) := by
  have hs := addOctets_holding list hlt hpre horig
  unfold srvCreateList convertedList
  generalize addOctets pre.length size list tListMaxSize ⟨orig, pre.length⟩ = s at hs ⊢
  dsimp only
  have hall : ∀ c ∈ pre ++ newChannels list pre, c < 1024 := by
    intro c hc
    rcases List.mem_append.1 hc with hc | hc
    · exact hpre c hc
    · exact (mem_newChannels.1 hc).1.2
  by_cases hz : inList list channel0 = true ∧ (pre ++ newChannels list pre).length < size
  · rw [if_pos (by simpa using hz)]
    rw [if_pos hz.1, List.take_of_length_le (by have := hz.2; simp at this ⊢; omega), ← List.append_assoc] at hs
    have hn := hs.number
    have hlast : s.i ≠ pre.length ∧ s.array (s.i - 1) = channel0Internal := by
      rw [List.length_append, List.length_append, List.length_singleton] at hn
      refine ⟨by omega, ?_⟩
      rw [hs.content (s.i - 1) (by simp; omega)]
      simp [hn]
    rw [if_pos hlast]
    exact hs.zero hall
  · rw [if_neg (by simpa using hz)]
    have htake : pre ++ (newChannels list pre ++ if inList list channel0 then [channel0Internal] else []).take
        (size - pre.length) = (pre ++ newChannels list pre).take size := by
      conv_rhs => rw [List.take_append, List.take_of_length_le (Nat.le_of_lt hlt)]
      congr 1
      by_cases hin : inList list channel0 = true
      · have hfull : ¬(pre ++ newChannels list pre).length < size := fun hc => hz ⟨hin, hc⟩
        rw [List.length_append] at hfull
        rw [List.take_append_of_le_length (by omega)]
      · rw [if_neg hin, List.append_nil]
    rw [htake] at hs
    have hno : ¬(s.i ≠ pre.length ∧ s.array (s.i - 1) = channel0Internal) := by
      rintro ⟨hne, hlast⟩
      have hn := hs.number
      have hpos : s.i - 1 < ((pre ++ newChannels list pre).take size).length := by
        rw [List.length_take, List.length_append] at hn ⊢
        omega
      rw [hs.content (s.i - 1) hpos] at hlast
      have hmem := List.get_mem _ ⟨s.i - 1, hpos⟩
      rw [hlast] at hmem
      exact absurd (hall _ (List.mem_of_mem_take hmem)) (by decide)
    rw [if_neg hno]
    exact hs.finish fun c hc => Nat.le_of_lt (hall c (List.mem_of_mem_take hc))

end

/-! ### When channel 0 is treated like the others -/

section
variable {pre l m cs : List Nat} {size : Nat} {orig : Nat → Nat} {list : Octets} {zeroAtStart : Bool}
  {r : Nat × (Nat → Nat)}

/-- Channel 0 is not in the bitmap; or the array holds it already and is full before it is reached; or it is new and
either fits behind all others or is not to be put in front. -/
def ZeroFits (list : Octets) (pre : List Nat) (size : Nat) (zeroAtStart : Bool) : Prop :=
  inList list channel0 = false ∨
    (channel0 ∈ pre ∧ size ≤ (pre ++ newChannels list pre).length) ∨
    (channel0 ∉ pre ∧ ((pre ++ newChannels list pre).length < size ∨ zeroAtStart = false))

private theorem Converted.eq (h : Converted orig size l r) (h' : Converted orig size m r) : l = m := by
  have hc := h.content
  rw [← h.number, h'.number, h'.content] at hc
  exact hc.symm

private theorem convertedList_eq_iff (hlt : pre.length < size) :
    convertedList list pre size zeroAtStart = channelList list pre size zeroAtStart ↔
      ZeroFits list pre size zeroAtStart := by
  unfold convertedList channelList ZeroFits
  dsimp only
  have hzero : ∀ c ∈ newChannels list pre, c ≠ channel0 := fun c hc => (mem_newChannels.1 hc).1.1
  generalize hn : newChannels list pre = new at hzero
  cases hin : inList list channel0 with
  | false => simp
  | true =>
    have hlen : (pre ++ new).length = pre.length + new.length := List.length_append
    by_cases hp : channel0 ∈ pre
    · rw [List.contains_iff_mem.2 hp]
      simp only [hp, not_true_eq_false, false_and, or_false, true_and, Bool.true_eq_false, false_or, Bool.not_true,
        Bool.and_false, Bool.false_eq_true, if_false, Bool.true_and]
      by_cases hfull : (pre ++ new).length < size
      · refine iff_of_false (fun heq => ?_) (Nat.not_le.2 hfull)
        rw [decide_eq_true hfull, if_pos rfl, List.take_of_length_le (Nat.le_of_lt hfull)] at heq
        have := congrArg List.length heq
        split at this <;> simp at this
      · rw [decide_eq_false hfull]
        exact iff_of_true rfl (Nat.le_of_not_lt hfull)
    · have hpc : pre.contains channel0 = false := by
        rw [← Bool.not_eq_true, List.contains_iff_mem]
        exact hp
      rw [hpc]
      simp only [hp, not_false_eq_true, true_and, false_and, false_or, Bool.true_eq_false, Bool.not_false, Bool.and_true,
        if_true, Bool.true_and]
      by_cases hfull : (pre ++ new).length < size
      · rw [decide_eq_true hfull, if_pos rfl]
        refine iff_of_true (List.take_of_length_le ?_).symm (.inl hfull)
        split
        · exact hfull
        · rw [List.length_append]
          exact hfull
      · rw [decide_eq_false hfull]
        simp only [hfull, false_or, Bool.false_eq_true, if_false]
        cases zeroAtStart with
        | false =>
          refine iff_of_true ?_ rfl
          rw [if_neg Bool.false_ne_true, List.take_append_of_le_length (Nat.le_of_not_lt hfull)]
        | true =>
          refine iff_of_false (fun heq => ?_) (by decide)
          have hmem : channel0 ∈ (pre ++ new).take size := by
            rw [heq, if_pos rfl]
            obtain ⟨k, rfl⟩ : ∃ k, size = k + 1 := ⟨size - 1, by omega⟩
            exact List.mem_cons_self
          rcases List.mem_append.1 (List.mem_of_mem_take hmem) with h | h
          · exact hp h
          · exact hzero _ h rfl

/-! ### A set of channels and back -/

/-- `srv_clear_list` and `srv_set_channel` for each channel. -/
def setChannels (channels : List Nat) : Octets :=
  channels.foldl (fun list channel => (scrChannelBit list channel .setChannelBit).2) fun _ => 0

private theorem bitAt_setChannels (hcs : ∀ c ∈ cs, c < 1024) (list : Octets) (p : Nat) :
    bitAt (cs.foldl (fun list channel => (scrChannelBit list channel .setChannelBit).2) list) p =
      (cs.any (fun c => bitposition c == p) || bitAt list p) := by
  induction cs generalizing list with
  | nil => rfl
  | cons c cs ih =>
    rw [List.foldl_cons, ih fun d hd => hcs d (List.mem_cons_of_mem _ hd), set_eq (hcs c List.mem_cons_self), bitAt_setBit,
      List.any_cons, Bool.or_left_comm, Bool.or_assoc]
    congr 1
    rw [Bool.eq_iff_iff, decide_eq_true_iff, beq_iff_eq]
    exact eq_comm

theorem inList_setChannels (hcs : ∀ c ∈ cs, c < 1024) {c : Nat} (hc : c < 1024) :
    inList (setChannels cs) c = true ↔ c ∈ cs := by
  unfold setChannels
  rw [inList_eq hc, bitAt_setChannels hcs]
  have hz : bitAt (fun _ => 0) (bitposition c) = false := by simp [bitAt]
  rw [hz, Bool.or_false, List.any_eq_true]
  constructor
  · rintro ⟨d, hd, hpos⟩
    exact bitposition_inj (hcs d hd) hc (beq_iff_eq.1 hpos) ▸ hd
  · exact fun h => ⟨c, h, beq_self_eq_true _⟩

/-- Lists of the same channels give the same bitmap. -/
private theorem setChannels_congr (hl : ∀ c ∈ l, c < 1024) (hm : ∀ c ∈ m, c < 1024) (h : ∀ c, c ∈ l ↔ c ∈ m) :
    setChannels l = setChannels m := by
  funext i
  refine BitVec.eq_of_getMsbD_eq fun k hk => ?_
  have hbit : ∀ a : Octets, bitAt a (8 * i + k) = (a i).getMsbD k := fun a => bitAt_octet a hk
  rw [← hbit, ← hbit]
  unfold setChannels
  rw [bitAt_setChannels hl, bitAt_setChannels hm, Bool.eq_iff_iff]
  simp only [Bool.or_eq_true, List.any_eq_true, h]

/-- The channels of a bitmap that fits into the array are all converted. -/
private theorem mem_convertedList (hroom : (List.range 1024).countP (inList list) ≤ size) {c : Nat} (hc : c < 1024) :
    c ∈ convertedList list [] size zeroAtStart ↔ inList list c = true := by
  have hnew : newChannels list [] = (List.range' 1 1023).filter (inList list) := by
    unfold newChannels
    simp
  have hcount : (List.range 1024).countP (inList list) =
      (newChannels list []).length + if inList list channel0 = true then 1 else 0 := by
    rw [hnew, ← List.countP_eq_length_filter, List.range_eq_range', show 1024 = 1023 + 1 from rfl, List.range'_succ,
      List.countP_cons]
    rfl
  rw [hcount] at hroom
  have hmem : c ∈ newChannels list [] ↔ c ≠ 0 ∧ inList list c = true := by
    rw [mem_newChannels]
    simp [hc]
  unfold convertedList
  dsimp only
  rw [List.nil_append]
  cases hin : inList list channel0 with
  | false =>
    rw [hin] at hroom
    rw [Bool.false_and, if_neg Bool.false_ne_true, List.take_of_length_le (by simpa using hroom), hmem]
    refine ⟨fun h => h.2, fun h => ⟨?_, h⟩⟩
    rintro rfl
    rw [show inList list 0 = inList list channel0 from rfl, hin] at h
    cases h
  | true =>
    rw [hin, if_pos rfl] at hroom
    rw [decide_eq_true (by omega), Bool.and_self, if_pos rfl]
    have hboth : (c = channel0 ∨ c ∈ newChannels list []) ↔ inList list c = true := by
      rw [hmem]
      constructor
      · rintro (rfl | h)
        · exact hin
        · exact h.2
      · intro h
        by_cases h0 : c = 0
        · exact .inl h0
        · exact .inr ⟨h0, h⟩
    split
    · rw [List.mem_cons, hboth]
    · rw [List.mem_append, List.mem_singleton, or_comm, hboth]

/-- Behind channels that the array holds, the channels of the bitmap that are new are converted as they should if and only
if channel 0 fits; and the channels that are set in an empty bitmap, converted and set again, give the same bitmap when
the array has room for them. -/
theorem srvCreateList_converts_iff (hlt : pre.length < size) (hpre : ∀ c ∈ pre, c < 1024)
    (horig : (List.range pre.length).map orig = pre) :
    (Converted orig size (channelList list pre size zeroAtStart)
        (srvCreateList list orig size zeroAtStart pre.length) ↔ ZeroFits list pre size zeroAtStart) ∧
      ∀ cs : List Nat, (∀ c ∈ cs, c < 1024) → (List.range 1024).countP (inList (setChannels cs)) ≤ size →
        let r := srvCreateList (setChannels cs) orig size zeroAtStart 0
        setChannels ((List.range r.1).map r.2) = setChannels cs := by
  constructor
  · have hconv := srvCreateList_converted list zeroAtStart hlt hpre horig
    rw [← convertedList_eq_iff hlt]
    constructor
    · exact fun h => hconv.eq h
    · exact fun h => h ▸ hconv
  · intro cs hcs hroom
    dsimp only
    have hconv : Converted orig size (convertedList (setChannels cs) [] size zeroAtStart)
        (srvCreateList (setChannels cs) orig size zeroAtStart 0) :=
      srvCreateList_converted _ _ (Nat.lt_of_le_of_lt (Nat.zero_le _) hlt) (fun c hc => by cases hc) rfl
    have hr := hconv.content
    rw [← hconv.number] at hr
    rw [hr]
    have hlow : ∀ c ∈ convertedList (setChannels cs) [] size zeroAtStart, c < 1024 := by
      intro c hc
      unfold convertedList at hc
      dsimp only at hc
      have hnew : ∀ d ∈ [] ++ newChannels (setChannels cs) [], d < 1024 := fun d hd => (mem_newChannels.1 hd).1.2
      split at hc
      · split at hc
        · rcases List.mem_cons.1 hc with rfl | hc
          · decide
          · exact hnew c hc
        · rcases List.mem_append.1 hc with hc | hc
          · exact hnew c hc
          · rw [List.mem_singleton.1 hc]
            decide
      · exact hnew c (List.mem_of_mem_take hc)
    refine setChannels_congr hlow hcs fun c => ?_
    constructor
    · intro hc
      exact (inList_setChannels hcs (hlow c hc)).1 ((mem_convertedList hroom (hlow c hc)).1 hc)
    · intro hc
      exact (mem_convertedList hroom (hcs c hc)).2 ((inList_setChannels hcs (hcs c hc)).2 hc)

end

theorem srvCreateList_converts_iff_run :
    Converted (fun j => [5, 700].getD j 9) 4 [0, 5, 700, 8] (srvCreateList (setChannels [8, 700, 0])
      (fun j => [5, 700].getD j 9) 4 true 2) := by
  have hset : channelList (setChannels [8, 700, 0]) [5, 700] 4 true = [0, 5, 700, 8] := by decide +kernel
  have hfits : ZeroFits (setChannels [8, 700, 0]) [5, 700] 4 true := .inr (.inr (by decide +kernel))
  have hpre : ∀ c ∈ [5, 700], c < 1024 := by decide
  exact hset ▸ (srvCreateList_converts_iff (by decide) hpre rfl).1.2 hfits

/-- The array holds channel 0 and gets it once more; and channel 0 is lost that should stand in front of a full
array. -/
theorem srvCreateList_zero_wrong :
    (¬Converted (fun j => [0].getD j 9) 3 (channelList (setChannels [0, 7]) [0] 3 false)
        (srvCreateList (setChannels [0, 7]) (fun j => [0].getD j 9) 3 false 1)) ∧
      ¬Converted (fun _ => 9) 1 (channelList (setChannels [0, 7]) [] 1 true)
        (srvCreateList (setChannels [0, 7]) (fun _ => 9) 1 true 0) := by
  constructor
  · intro h
    have hnumber := h.number
    revert hnumber
    decide +kernel
  · intro h
    have hcontent := h.content
    revert hcontent
    decide +kernel

end Citrine.Comlib
