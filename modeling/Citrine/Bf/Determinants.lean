import Citrine.Bf.Writing

/-!
# Determinants

The numbers that stand before a variable part of an encoding: the normally small numbers and the lengths of open types
(`cdc_com.c`).  A small number is read back below 64 (`normallySmall_roundTrip_iff`); for larger ones the writer gives
the length five bits, where the reader takes six.  The length of an open type is read back below 2^14
(`openTypeLength_roundTrip_iff`); above, the writer takes it and drops the highest bit.
-/

namespace Citrine.Bf

open Bits

/-- The number of significant bits of a number. -/
def significantBits (v : Nat) : Nat := if v = 0 then 0 else v.log2 + 1

section
variable (g : Globs)

/-- `Read_NormallySmallNonNegativeWholeNr` -/
def readNormallySmallNonNegativeWholeNr : Nat × Globs :=
  let bit := readBit g
  if bit.1 = 0 then getBits bit.2 6
  else
    let valueLength := getBits (incBitpos 1 bit.2) 6
    getBits valueLength.2 valueLength.1

/-- `Write_NormallySmallNonNegativeWholeNr`, with the table `bitSize` that it uses. -/
def writeNormallySmallNonNegativeWholeNr (bitSize : Nat → Nat) (v : BitVec 32) : Globs :=
  if v.toNat < 64 then writeVal (writeBit g false) v 6
  else writeVal (writeVal (writeVal g 2 2) (BitVec.ofNat 32 (bitSize v.toNat)) 5) v (bitSize v.toNat)

/-- `Read_OpenTpye_Length` -/
def readOpenTpyeLength : Nat × Globs :=
  let bit := readBit g
  if bit.1 = 0 then getBits bit.2 7
  else
    let bit := readBit bit.2
    if bit.1 = 0 then getBits bit.2 14 else (0, bit.2)

/-- `Write_OpenTpye_Length` -/
def writeOpenTpyeLength (v : BitVec 32) : Globs :=
  if v.toNat < 128 then writeVal g v 8
  else if v.toNat < 0x8000 then writeVal (writeVal g 2 2) v 14
  else g

end

/-- What has been written from the position on is read back up to its end, which is not before the beginning. -/
def RoundTrip (g w : Globs) (read : Globs → Nat × Globs) (v : Nat) : Prop :=
  g.bitpos ≤ w.bitpos ∧ ∀ r, At r w.bitbuf g.bitpos → (read r).1 = v ∧ (read r).2.bitpos = w.bitpos

section
variable {g w r : Globs} {v : BitVec 32} {p : Nat} {b : Octets}

/-! ### Normally small numbers -/

private theorem small_writes (ha : Aligned g) (hz : ZeroFrom g.bitbuf g.bitpos) (hp : g.bitpos + 7 < 65536) :
    Writes g 1 0 (writeBit g false) ∧ Writes (writeBit g false) 6 v.toNat (writeVal (writeBit g false) v 6) := by
  have hbit := writeBit_writes ha (by omega) false
  have ho := (writeBit_aligned (g := g) false).offs
  refine ⟨hbit, writeVal_writes (writeBit_aligned false) (hbit.zeroFrom hz) v 6 (by omega) ?_⟩
  rw [hbit.bitpos]
  omega

/-- A number behind a zero. -/
theorem At.readSmall (hr : At r b p) (hp : p + 7 < 65536) (hflag : field b p 1 = 0) :
    (readNormallySmallNonNegativeWholeNr r).1 = field b (p + 1) 6 ∧ At (readNormallySmallNonNegativeWholeNr r).2 b (p + 7) := by
  obtain ⟨hbit, hnext⟩ := hr.readBit (by omega)
  unfold readNormallySmallNonNegativeWholeNr
  simp only
  rw [hbit, if_pos hflag]
  exact hnext.getBits 6 (by omega) (by omega)

/-- Numbers below 64 are read back. -/
private theorem small_roundTrip (ha : Aligned g) (hz : ZeroFrom g.bitbuf g.bitpos) (hv : v.toNat < 64) (hp : g.bitpos + 7 < 65536)
    (bitSize : Nat → Nat) :
    RoundTrip g (writeNormallySmallNonNegativeWholeNr g bitSize v) readNormallySmallNonNegativeWholeNr v.toNat := by
  obtain ⟨hflag, hvalue⟩ := small_writes (v := v) ha hz hp
  have hend := hvalue.bitpos
  have hmid := hflag.bitpos
  unfold writeNormallySmallNonNegativeWholeNr
  rw [if_pos hv]
  refine ⟨by omega, fun r hr => ?_⟩
  have hzero : field (writeVal (writeBit g false) v 6).bitbuf g.bitpos 1 = 0 := by
    rw [hvalue.written.before (by omega)]
    exact hflag.written.field.trans (Nat.zero_mod _)
  obtain ⟨hread, hstop⟩ := hr.readSmall (by omega) hzero
  have hpos := hstop.bitpos
  refine ⟨?_, by omega⟩
  rw [hread, ← hmid, hvalue.written.field]
  exact Nat.mod_eq_of_lt (by omega)

/-- Where the reader of a number behind a one stops. -/
theorem At.readLarge_bitpos (hr : At r b p) (hp : p + 8 < 65536) (hflag : field b p 1 = 1) :
    (readNormallySmallNonNegativeWholeNr r).2.bitpos =
      if field b (p + 2) 6 ≤ 32 then (p + 8 + field b (p + 2) 6) % 65536 else p + 8 := by
  obtain ⟨hbit, hnext⟩ := hr.readBit (by omega)
  obtain ⟨hvalue, hend⟩ := (hnext.incBitpos (n := 1) (by omega)).getBits 6 (by omega) (by omega)
  unfold readNormallySmallNonNegativeWholeNr
  simp only
  rw [hbit, hflag, if_neg (by omega), getBits_bitpos, hvalue, hend.bitpos]

/-- A number behind a one. -/
theorem At.readLarge (hr : At r b p) (hflag : field b p 1 = 1) (hlen : field b (p + 2) 6 ≤ 32)
    (hp : p + 8 + field b (p + 2) 6 < 65536) :
    (readNormallySmallNonNegativeWholeNr r).1 = field b (p + 8) (field b (p + 2) 6) := by
  obtain ⟨hbit, hnext⟩ := hr.readBit (by omega)
  obtain ⟨hvalue, hend⟩ := (hnext.incBitpos (n := 1) (by omega)).getBits 6 (by omega) (by omega)
  unfold readNormallySmallNonNegativeWholeNr
  simp only
  rw [hbit, hflag, if_neg (by omega), hvalue]
  exact (hend.getBits _ hlen (by omega)).1

/-- The writer of a larger number gives its length five bits, and the reader takes six. -/
private theorem large_not_roundTrip {n : Nat} (ha : Aligned g) (hz : ZeroFrom g.bitbuf g.bitpos) (hn : 7 ≤ n ∧ n ≤ 16) :
    ¬ RoundTrip g (writeVal (writeVal (writeVal g 2 2) (BitVec.ofNat 32 n) 5) v n) readNormallySmallNonNegativeWholeNr v.toNat := by
  rintro ⟨hforward, hread⟩
  have hoffs := ha.offs
  have hlt := ha.bitpos
  have ha₂ : Aligned (writeVal g 2 2) := writeVal_aligned _ _ (by omega)
  have hoffs₂ := ha₂.offs
  have ha₅ : Aligned (writeVal (writeVal g 2 2) (BitVec.ofNat 32 n) 5) := writeVal_aligned _ _ (by omega)
  have hoffs₅ := ha₅.offs
  have hend₂ : (writeVal g 2 2).bitpos = (g.bitpos + 2) % 65536 := writeVal_bitpos _ _ (by omega)
  have hend₅ := writeVal_bitpos (g := writeVal g 2 2) (BitVec.ofNat 32 n) 5 (by omega)
  have hend := writeVal_bitpos (g := writeVal (writeVal g 2 2) (BitVec.ofNat 32 n) 5) v n (by omega)
  have hroom : g.bitpos + 7 + n < 65536 := by omega
  have hflags := writeVal_writes ha hz 2 2 (by omega) (by omega)
  have hsize := writeVal_writes ha₂ (hflags.zeroFrom hz) (BitVec.ofNat 32 n) 5 (by omega) (by omega)
  have hvalue := writeVal_writes ha₅ (hsize.zeroFrom (hflags.zeroFrom hz)) v n (by omega) (by omega)
  generalize hw : writeVal (writeVal (writeVal g 2 2) (BitVec.ofNat 32 n) 5) v n = w at *
  have htwo : field w.bitbuf g.bitpos 2 = 2 := by
    rw [hvalue.written.before (by omega), hsize.written.before (by omega), hflags.written.field]
    rfl
  have hfive : field w.bitbuf (g.bitpos + 2) 5 = n := by
    rw [hvalue.written.before (by omega), ← hflags.bitpos, hsize.written.field, BitVec.toNat_ofNat]
    omega
  have hfirst : field w.bitbuf g.bitpos 1 = 1 := by
    have hsucc : field w.bitbuf g.bitpos 2 = 2 * field w.bitbuf g.bitpos 1 + (bitAt w.bitbuf (g.bitpos + 1)).toNat := field_succ
    have := Bool.toNat_lt (bitAt w.bitbuf (g.bitpos + 1))
    omega
  have hsix : field w.bitbuf (g.bitpos + 2) 6 =
      2 * field w.bitbuf (g.bitpos + 2) 5 + (bitAt w.bitbuf (g.bitpos + 2 + 5)).toNat := field_succ
  have hbit := Bool.toNat_lt (bitAt w.bitbuf (g.bitpos + 2 + 5))
  have hstop := (hread _ (commonDecodeInit_at hlt)).2
  rw [(commonDecodeInit_at hlt).readLarge_bitpos (by omega) hfirst] at hstop
  split at hstop <;> omega

/-- A number is read back just when it is below 64. -/
theorem normallySmall_roundTrip_iff (ha : Aligned g) (hz : ZeroFrom g.bitbuf g.bitpos) (hv : v.toNat < 65536) :
    RoundTrip g (writeNormallySmallNonNegativeWholeNr g significantBits v) readNormallySmallNonNegativeWholeNr v.toNat ↔
      v.toNat < 64 ∧ g.bitpos + 7 < 65536 := by
  have hlt := ha.bitpos
  constructor
  · intro h
    if hsmall : v.toNat < 64 then
      refine ⟨hsmall, ?_⟩
      have hforward := h.1
      unfold writeNormallySmallNonNegativeWholeNr at hforward
      have ho := (writeBit_aligned (g := g) false).offs
      rw [if_pos hsmall, writeVal_bitpos _ _ (by omega), show (writeBit g false).bitpos = (g.bitpos + 1) % 65536 from rfl] at hforward
      omega
    else
      have hlow : 6 ≤ v.toNat.log2 := (Nat.le_log2 (by omega)).2 (by omega)
      have hhigh : v.toNat.log2 < 16 := (Nat.log2_lt (by omega)).2 (by omega)
      unfold writeNormallySmallNonNegativeWholeNr significantBits at h
      rw [if_neg hsmall, if_neg (by omega)] at h
      exact absurd h (large_not_roundTrip ha hz (by omega))
  · rintro ⟨hsmall, hp⟩
    exact small_roundTrip ha hz hsmall hp _

/-! ### Lengths of open types -/

/-- The length of an open type in the buffer, and where its contents begin. -/
def openType (b : Octets) (p : Nat) : Nat × Nat := if field b p 1 = 0 then (field b (p + 1) 7, p + 8) else (field b (p + 2) 14, p + 16)

theorem At.readOpenTpyeLength (hr : At r b p) (hp : (openType b p).2 < 65536) (hflags : field b p 1 = 0 ∨ field b (p + 1) 1 = 0) :
    (readOpenTpyeLength r).1 = (openType b p).1 ∧ At (readOpenTpyeLength r).2 b (openType b p).2 := by
  unfold openType at hp ⊢
  unfold Bf.readOpenTpyeLength
  simp only
  split at hp
  · rename_i hflag
    obtain ⟨hbit, hnext⟩ := hr.readBit (by simp only at hp; omega)
    rw [hbit, if_pos hflag, if_pos hflag]
    exact hnext.getBits 7 (by omega) hp
  · rename_i hflag
    simp only at hp
    obtain ⟨hbit, hnext⟩ := hr.readBit (by omega)
    obtain ⟨hbit₂, hnext₂⟩ := hnext.readBit (by omega)
    rw [hbit, if_neg hflag, hbit₂, if_pos (hflags.resolve_left hflag), if_neg hflag]
    exact hnext₂.getBits 14 (by omega) hp

private theorem open_short (ha : Aligned g) (hz : ZeroFrom g.bitbuf g.bitpos) (hv : v.toNat < 128) (hp : g.bitpos + 8 < 65536) :
    RoundTrip g (writeVal g v 8) readOpenTpyeLength v.toNat := by
  have ho := ha.offs
  have hvalue := writeVal_writes ha hz v 8 (by omega) hp
  have hend := hvalue.bitpos
  refine ⟨by omega, fun r hr => ?_⟩
  have hall := hvalue.written.field
  have hsplit : field (writeVal g v 8).bitbuf g.bitpos 8 =
      field (writeVal g v 8).bitbuf g.bitpos 1 * 2 ^ 7 + field (writeVal g v 8).bitbuf (g.bitpos + 1) 7 :=
    field_add (m := 1) (n := 7)
  have hlow := field_lt (b := (writeVal g v 8).bitbuf) (p := g.bitpos + 1) (n := 7)
  have hflag : field (writeVal g v 8).bitbuf g.bitpos 1 = 0 := by omega
  have hopen : openType (writeVal g v 8).bitbuf g.bitpos = (field (writeVal g v 8).bitbuf (g.bitpos + 1) 7, g.bitpos + 8) := if_pos hflag
  obtain ⟨hread, hstop⟩ := hr.readOpenTpyeLength (by rw [hopen]; exact hp) (.inl hflag)
  have hpos := hstop.bitpos
  rw [hopen] at hread hpos
  simp only at hread hpos
  exact ⟨by omega, by omega⟩

private theorem open_long (ha : Aligned g) (hz : ZeroFrom g.bitbuf g.bitpos) (hp : g.bitpos + 16 < 65536) {n : Nat} :
    RoundTrip g (writeVal (writeVal g 2 2) v 14) readOpenTpyeLength n ↔ n = v.toNat % 16384 := by
  have ho := ha.offs
  have ha₂ : Aligned (writeVal g 2 2) := writeVal_aligned _ _ (by omega)
  have ho₂ := ha₂.offs
  have hflags := writeVal_writes ha hz 2 2 (by omega) (by omega)
  have hmid := hflags.bitpos
  have hvalue := writeVal_writes ha₂ (hflags.zeroFrom hz) v 14 (by omega) (by omega)
  have hend := hvalue.bitpos
  have htwo : field (writeVal (writeVal g 2 2) v 14).bitbuf g.bitpos 2 = 2 := by
    rw [hvalue.written.before (by omega), hflags.written.field]
    rfl
  have hlong : field (writeVal (writeVal g 2 2) v 14).bitbuf (g.bitpos + 2) 14 = v.toNat % 16384 := by
    rw [← hmid]
    exact hvalue.written.field
  generalize writeVal (writeVal g 2 2) v 14 = w at *
  rw [show (2 : Nat) = 1 + 1 from rfl, field_add] at htwo
  have hsecond := field_lt (b := w.bitbuf) (p := g.bitpos + 1) (n := 1)
  have hread : ∀ r, At r w.bitbuf g.bitpos →
      (readOpenTpyeLength r).1 = v.toNat % 16384 ∧ (readOpenTpyeLength r).2.bitpos = w.bitpos := by
    intro r hr
    have hopen : openType w.bitbuf g.bitpos = (field w.bitbuf (g.bitpos + 2) 14, g.bitpos + 16) := if_neg (by omega)
    obtain ⟨hvalue, hstop⟩ := hr.readOpenTpyeLength (by rw [hopen]; exact hp) (.inr (by omega))
    have hpos := hstop.bitpos
    rw [hopen] at hvalue hpos
    exact ⟨hvalue.trans hlong, by simp only at hpos; omega⟩
  constructor
  · rintro ⟨_, h⟩
    have hat := commonDecodeInit_at (b := w.bitbuf) ha.bitpos
    rw [← (h _ hat).1, (hread _ hat).1]
  · rintro rfl
    exact ⟨by omega, hread⟩

/-- A length that the writer takes is read back just when it is below 2^14. -/
theorem openTypeLength_roundTrip_iff (ha : Aligned g) (hz : ZeroFrom g.bitbuf g.bitpos) (hv : v.toNat < 0x8000) :
    RoundTrip g (writeOpenTpyeLength g v) readOpenTpyeLength v.toNat ↔
      v.toNat < 0x4000 ∧ g.bitpos + (if v.toNat < 128 then 8 else 16) < 65536 := by
  have hlt := ha.bitpos
  have ho := ha.offs
  unfold writeOpenTpyeLength
  if hshort : v.toNat < 128 then
    rw [if_pos hshort, if_pos hshort]
    refine ⟨fun h => ⟨by omega, ?_⟩, fun h => open_short ha hz hshort h.2⟩
    have hforward := h.1
    rw [writeVal_bitpos _ _ (by omega)] at hforward
    omega
  else
    have ho₂ := (writeVal_aligned (g := g) 2 2 (by omega)).offs
    rw [if_neg hshort, if_pos hv, if_neg hshort]
    constructor
    · intro h
      have hforward := h.1
      rw [writeVal_bitpos _ _ (by omega), writeVal_bitpos _ _ (by omega)] at hforward
      have hroom : g.bitpos + 16 < 65536 := by omega
      have := (open_long ha hz hroom).1 h
      omega
    · rintro ⟨hv, hroom⟩
      exact (open_long ha hz hroom).2 (Nat.mod_eq_of_lt hv).symm

/-- The numbers and the lengths that are read back. -/
theorem determinants_roundTrip_iff (ha : Aligned g) (hz : ZeroFrom g.bitbuf g.bitpos) (v : BitVec 32) :
    (v.toNat < 65536 →
      (RoundTrip g (writeNormallySmallNonNegativeWholeNr g significantBits v) readNormallySmallNonNegativeWholeNr v.toNat ↔
        v.toNat < 64 ∧ g.bitpos + 7 < 65536)) ∧
    (v.toNat < 0x8000 →
      (RoundTrip g (writeOpenTpyeLength g v) readOpenTpyeLength v.toNat ↔
        v.toNat < 0x4000 ∧ g.bitpos + (if v.toNat < 128 then 8 else 16) < 65536)) :=
  ⟨normallySmall_roundTrip_iff ha hz, openTypeLength_roundTrip_iff ha hz⟩

/-- The number 63 and the length 300. -/
theorem some_determinants : RoundTrip (blank 5) (writeNormallySmallNonNegativeWholeNr (blank 5) significantBits 63)
      readNormallySmallNonNegativeWholeNr 63 ∧
    RoundTrip (blank 5) (writeOpenTpyeLength (blank 5) 300) readOpenTpyeLength 300 :=
  ⟨((determinants_roundTrip_iff setBitpos_aligned blank_zero 63).1 (by decide)).2 ⟨by decide, by decide⟩,
    ((determinants_roundTrip_iff setBitpos_aligned blank_zero 300).2 (by decide)).2 ⟨by decide, by decide⟩⟩

/-- The number 64 is not read back. -/
theorem sixtyFour_lost : ¬ RoundTrip (blank 0) (writeNormallySmallNonNegativeWholeNr (blank 0) significantBits 64)
    readNormallySmallNonNegativeWholeNr 64 := by
  rintro ⟨_, h⟩
  have hstop := (h _ (commonDecodeInit_at (by decide))).2
  revert hstop
  decide +kernel

end

end Citrine.Bf
