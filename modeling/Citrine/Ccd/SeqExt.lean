import Citrine.Bf.Determinants

/-!
# Extensible sequences

The decoding of an extensible SEQUENCE of unaligned PER (`cdc_asn1_seq_ext_decode`): the bitmap of its extension additions comes
from a peer that knows fewer or more of them.  A `Trace` tells which bits have been taken for the bitmap and where open types have
been decoded or skipped, and the trace of an encoding (`wire`) says where they are.  The two agree when the bitmap has at least as
many bits as there are known additions, at most 64, and an addition that has a default value instead of a flag is present; with
fewer bits the counter of the unknown additions is negative and the loop that skips them goes on (`versions_iff`).
-/

namespace Citrine.Ccd.SeqExt

open Bits Bf

/-! ### The state -/

/-- The bit buffer and the C-structure, with the pointer into it. -/
structure Globs where
  bits : Bf.Globs
  memory : Octets
  pstruct : Nat
  pstructOffs : Nat

/-- An element of a sequence, with its decoding function.  An integer with a default value has no flag of its own. -/
structure Elem where
  optional : Bool
  isDefault : Bool
  pointer : Bool
  structOffs : Nat
  decode : Globs → Globs

/-- An extensible SEQUENCE: the elements before and behind `ext_begin`, with the places of the additions in their order. -/
structure Sequence where
  root : List Elem
  additions : List Elem
  cSize : Nat
  few : additions.length < 65536
  inOrder : additions.Pairwise fun e e' => e.structOffs < e'.structOffs

def readBit (g : Globs) : Nat × Globs :=
  let r := Bf.readBit g.bits
  (r.1, { g with bits := r.2 })

/-- Some octets of the structure are set. -/
def Globs.put (g : Globs) (offs : Nat) (octets : List (BitVec 8)) : Globs :=
  { g with memory := fun i => if g.pstruct + offs ≤ i then octets.getD (i - (g.pstruct + offs)) (g.memory i) else g.memory i }

/-- Whether an element has a bit in the bitmap. -/
def Elem.counted (e : Elem) : Bool := e.optional || e.isDefault

/-- The bit of an element is read and stored, for a pointer as a pointer that is not null. -/
def Elem.readFlag (e : Elem) (g : Globs) : Globs :=
  let bit := readBit g
  if e.optional ∧ e.pointer then bit.2.put e.structOffs (if bit.1 ≠ 0 then [0xff, 0xff, 0, 0] else [0, 0, 0, 0])
  else bit.2.put e.structOffs [BitVec.ofNat 8 bit.1]

/-- `Read_SEQ_BitMap` -/
def readSeqBitMap : List Elem → Globs → Globs
  | [], g => g
  | e :: es, g => readSeqBitMap es (if e.counted then e.readFlag g else g)

/-- `cdc_isPresent` -/
def cdcIsPresent (e : Elem) (g : Globs) : Bool × Globs :=
  if e.optional then (g.memory (g.pstruct + g.pstructOffs) ≠ 0, { g with pstructOffs := g.pstructOffs + 1 }) else (true, g)

/-! ### The extension part -/

/-- What has been taken for what: the positions of the bits of the bitmap, the additions that have been decoded and those that
have been skipped, with the positions of their contents, and the end.  This is not in the code. -/
structure Trace where
  bitmap : List Nat
  decoded : List (Nat × Nat)
  skipped : List Nat
  stop : Nat

/-- The loop over the known additions, that counts those with a bit. -/
def knownBits : List Elem → Int → Int → Globs → List Nat × Globs
  | [], _, _, g => ([], g)
  | e :: es, unknownExtNr, bmpLen, g =>
    if unknownExtNr < bmpLen then
      if e.counted then
        let r := knownBits es (unknownExtNr + 1) bmpLen (e.readFlag g)
        (g.bits.bitpos :: r.1, r.2)
      else knownBits es unknownExtNr bmpLen g
    else ([], g)

/-- The loop over the bits of unknown additions; those that are set are counted in a `UBYTE`. -/
def unknownBits : Nat → Nat → Globs → List Nat × Nat × Globs
  | 0, tmpBmpLen, g => ([], tmpBmpLen, g)
  | n + 1, tmpBmpLen, g =>
    let bit := readBit g
    let r := unknownBits n (if bit.1 ≠ 0 then (tmpBmpLen + 1) % 256 else tmpBmpLen) bit.2
    (g.bits.bitpos :: r.1, r.2)

/-- The loop that decodes the known additions, from the one with the given index on. -/
def decodeKnown : Nat → List Elem → Globs → List (Nat × Nat) × Globs
  | _, [], g => ([], g)
  | i, e :: es, g =>
    let present := cdcIsPresent e { g with pstructOffs := e.structOffs }
    if present.1 then
      let len := readOpenTpyeLength present.2.bits
      let finalBP := 8 * len.1 + len.2.bitpos
      let g := e.decode { present.2 with bits := len.2 }
      let r := decodeKnown (i + 1) es { g with bits := Bf.setBitpos finalBP g.bits }
      ((i, len.2.bitpos) :: r.1, r.2)
    else decodeKnown (i + 1) es present.2

/-- The loop that skips unknown additions. -/
def skipUnknown : Nat → Globs → List Nat × Globs
  | 0, g => ([], g)
  | n + 1, g =>
    let opLen := readOpenTpyeLength g.bits
    let r := skipUnknown n { g with bits := Bf.incBitpos (8 * opLen.1) opLen.2 }
    (opLen.2.bitpos :: r.1, r.2)

/-- The extension part of one sequence.  `unknownExt_nr` is an `int`, and it wraps around where the loop takes it below zero. -/
def extension (s : Sequence) (g : Globs) : Trace × Globs :=
  let len := readNormallySmallNonNegativeWholeNr g.bits
  let bmpLen := BitVec.ofNat 32 (len.1 + 1)
  let known := knownBits s.additions 0 bmpLen.toInt { g with bits := len.2 }
  let unknownExtNr := bmpLen - BitVec.ofNat 32 s.additions.length
  let unknown :=
    if 0 < unknownExtNr.toInt then unknownBits unknownExtNr.toNat 0 known.2 else ([], unknownExtNr.toNat, known.2)
  let decoded := decodeKnown 0 s.additions unknown.2.2
  let skipped := skipUnknown unknown.2.1 decoded.2
  (⟨known.1 ++ unknown.1, decoded.1, skipped.1, skipped.2.bits.bitpos⟩, skipped.2)

/-! ### The sequences -/

/-- The bitmap and the elements of the extension root. -/
def rootPart (s : Sequence) (g : Globs) : Globs := s.root.foldl (fun g e => e.decode g) (readSeqBitMap s.root g)

/-- One sequence. -/
def sequence (s : Sequence) (g : Globs) : Option Trace × Globs :=
  let bit := readBit g
  let g := rootPart s bit.2
  let r := if bit.1 = 1 then (some (extension s g).1, (extension s g).2) else (none, g)
  (r.1, { r.2 with pstruct := r.2.pstruct + s.cSize })

/-- The loop over the sequences. -/
def sequences (s : Sequence) : Nat → Globs → List (Option Trace) × Globs
  | 0, g => ([], g)
  | n + 1, g =>
    let r := sequence s g
    let rs := sequences s n r.2
    (r.1 :: rs.1, rs.2)

/-- `cdc_asn1_seq_ext_decode`, for the number of sequences that `PER_CommonBegin` has found. -/
def cdcAsn1SeqExtDecode (s : Sequence) (maxRep : Nat) (g : Globs) : List (Option Trace) × Globs :=
  let r := sequences s maxRep { g with pstruct := g.pstruct + g.pstructOffs }
  (r.1, { r.2 with pstruct := g.pstruct })

/-! ### The encoding -/

/-- The positions of bits that come behind their number, and where they end: the number takes one octet or two, and from 2^14 on
the bits come in fragments. -/
def fragments (q n : Nat) : List Nat × Nat :=
  if n < 128 then (List.range' (q + 8) n, q + 8 + n)
  else if n < 16384 then (List.range' (q + 16) n, q + 16 + n)
  else
    let m := 16384 * min 4 (n / 16384)
    let rest := fragments (q + 8 + m) (n - m)
    (List.range' (q + 8) m ++ rest.1, rest.2)
termination_by n
decreasing_by omega

/-- The number is there. -/
def AnnouncedLength (b : Octets) (q n : Nat) : Prop :=
  if n < 128 then field b q 1 = 0 ∧ field b (q + 1) 7 = n
  else if n < 16384 then field b q 2 = 2 ∧ field b (q + 2) 14 = n
  else
    let m := min 4 (n / 16384)
    field b q 2 = 3 ∧ field b (q + 2) 6 = m ∧ AnnouncedLength b (q + 8 + 16384 * m) (n - 16384 * m)
termination_by n
decreasing_by omega

/-- The positions of the bits of a bitmap that begins with its length, and where it ends. -/
def bitmap (q n : Nat) : List Nat × Nat := if n ≤ 64 then (List.range' (q + 7) n, q + 7 + n) else fragments (q + 1) n

/-- The length of the bitmap is there, as a normally small length. -/
def Announced (b : Octets) (q n : Nat) : Prop :=
  if n ≤ 64 then field b q 1 = 0 ∧ field b (q + 1) 6 = n - 1 else field b q 1 = 1 ∧ AnnouncedLength b (q + 1) n

/-- The encoding of an addition. -/
structure OpenType where
  index : Nat
  start : Nat
  contents : Nat
  stop : Nat
  deriving DecidableEq

/-- The open types for the bits of a bitmap that are set, and where they end. -/
def openTypes (b : Octets) : Nat → Nat → List Nat → List OpenType × Nat
  | q, _, [] => ([], q)
  | q, i, p :: ps =>
    if bitAt b p then
      let len := openType b q
      let r := openTypes b (len.2 + 8 * len.1) (i + 1) ps
      (⟨i, q, len.2, len.2 + 8 * len.1⟩ :: r.1, r.2)
    else openTypes b q (i + 1) ps

section
variable (s : Sequence) (b : Octets) (q n : Nat)

/-- The additions that the decoder knows. -/
def known : List OpenType × Nat := openTypes b (bitmap q n).2 0 ((bitmap q n).1.take s.additions.length)

/-- The other additions. -/
def unknown : List OpenType × Nat :=
  openTypes b (known s b q n).2 s.additions.length ((bitmap q n).1.drop s.additions.length)

/-- The trace of the encoding. -/
def wire : Trace where
  bitmap := (bitmap q n).1
  decoded := (known s b q n).1.map fun o => (o.index, o.contents)
  skipped := (unknown s b q n).1.map (·.contents)
  stop := (unknown s b q n).2

/-- An extension part with a bitmap of `n` bits begins at `q`: the lengths are there, the decoders of the known additions stay inside
of their open types, and all ends before the last position. -/
structure Encoded : Prop where
  some : 1 ≤ n
  announced : Announced b q n
  lengths : ∀ o, o ∈ (known s b q n).1 ∨ o ∈ (unknown s b q n).1 → field b o.start 1 = 0 ∨ field b (o.start + 1) 1 = 0
  decodes : ∀ o, o ∈ (known s b q n).1 → ∀ e, s.additions[o.index]? = .some e → ∀ g : Globs, At g.bits b o.contents →
    ∃ p, p ≤ o.stop ∧ At (e.decode g).bits b p
  fits : (unknown s b q n).2 < 65536

/-- Every known addition has a bit in the bitmap, the bitmap is not longer than 64 bits, and an addition without a flag is there. -/
def Fits : Prop :=
  s.additions.length ≤ n ∧ n ≤ 64 ∧
    ∀ i e, s.additions[i]? = some e → e.optional = true ∨ (e.isDefault = true ∧ bitAt b (q + 7 + i) = true)

end

/-- The decoders of the additions leave the flags of later additions and the pointer to the C-structure alone. -/
structure Sequence.Confined (s : Sequence) : Prop where
  flags : s.additions.Pairwise fun e e' => ∀ g, (e.decode g).memory (g.pstruct + e'.structOffs) = g.memory (g.pstruct + e'.structOffs)
  pstruct : ∀ e, e ∈ s.additions → ∀ g, (e.decode g).pstruct = g.pstruct

/-! ### The bitmap -/

section
variable {b : Octets} {g : Globs} {e : Elem} {es : List Elem} {p q i n : Nat}

private theorem field_bit : field b p 1 = (bitAt b p).toNat := Nat.zero_add _

private theorem put_below {octets : List (BitVec 8)} {offs a : Nat} (h : a < g.pstruct + offs) : (g.put offs octets).memory a = g.memory a :=
  if_neg (Nat.not_le_of_lt h)

private theorem put_here {c : BitVec 8} {octets : List (BitVec 8)} {offs : Nat} :
    (g.put offs (c :: octets)).memory (g.pstruct + offs) = c := by
  unfold Globs.put
  simp only
  rw [if_pos (Nat.le_refl _), Nat.sub_self, List.getD_cons_zero]

/-- The flag of an element says what its bit says. -/
private theorem readFlag_spec (hat : At g.bits b p) (hp : p + 1 < 65536) :
    At (e.readFlag g).bits b (p + 1) ∧ (e.readFlag g).pstruct = g.pstruct ∧
      ((e.readFlag g).memory (g.pstruct + e.structOffs) ≠ 0 ↔ bitAt b p = true) ∧
      ∀ a, a < g.pstruct + e.structOffs → (e.readFlag g).memory a = g.memory a := by
  obtain ⟨hbit, hnext⟩ := hat.readBit hp
  have hbit : (readBit g).1 = (bitAt b p).toNat := hbit.trans field_bit
  have hsame : (readBit g).2.pstruct = g.pstruct := rfl
  unfold Elem.readFlag
  simp only
  split
  · refine ⟨hnext, rfl, ?_, fun a ha => put_below ha⟩
    rw [hbit, ← hsame]
    cases bitAt b p
    · rw [if_neg (by decide), put_here]
      decide
    · rw [if_pos (by decide), put_here]
      decide
  · refine ⟨hnext, rfl, ?_, fun a ha => put_below ha⟩
    rw [hbit, ← hsame, put_here]
    cases bitAt b p <;> decide

/-- The bits of the known additions are read one after the other. -/
private theorem knownBits_spec (nr bmpLen : Int) (hall : ∀ e, e ∈ es → e.counted = true) (hnr : nr + es.length ≤ bmpLen)
    (hsorted : es.Pairwise fun e e' => e.structOffs < e'.structOffs) (hat : At g.bits b p) (hp : p + es.length < 65536) :
    (knownBits es nr bmpLen g).1 = List.range' p es.length ∧ At (knownBits es nr bmpLen g).2.bits b (p + es.length) ∧
      (knownBits es nr bmpLen g).2.pstruct = g.pstruct ∧
      (∀ i e, es[i]? = some e →
        ((knownBits es nr bmpLen g).2.memory (g.pstruct + e.structOffs) ≠ 0 ↔ bitAt b (p + i) = true)) ∧
      ∀ a, (∀ e, e ∈ es → a < g.pstruct + e.structOffs) → (knownBits es nr bmpLen g).2.memory a = g.memory a := by
  induction es generalizing nr g p with
  | nil => exact ⟨rfl, hat, rfl, fun i e h => by simp at h, fun _ _ => rfl⟩
  | cons e es ih =>
    rw [List.length_cons] at hnr hp ⊢
    obtain ⟨hlater, hsorted⟩ := List.pairwise_cons.1 hsorted
    obtain ⟨hnext, hsame, hflag, hbelow⟩ := readFlag_spec (e := e) hat (by omega)
    obtain ⟨hplaces, hend, hpstruct, hflags, hkept⟩ := ih (nr + 1) (fun e he => hall e (List.mem_cons_of_mem _ he)) (by omega)
      hsorted hnext (by omega)
    unfold knownBits
    rw [if_pos (by omega), if_pos (hall e List.mem_cons_self)]
    simp only
    refine ⟨?_, ?_, hpstruct.trans hsame, fun i e' he' => ?_, fun a ha => ?_⟩
    · rw [hplaces, hat.bitpos, List.range'_succ]
    · rw [show p + (es.length + 1) = p + 1 + es.length by omega]
      exact hend
    · rw [hsame] at hflags hkept
      match i with
      | 0 =>
        cases he'
        rw [hkept _ fun e' he' => Nat.add_lt_add_left (hlater e' he') _]
        exact hflag
      | i + 1 =>
        rw [show p + (i + 1) = p + 1 + i by omega]
        exact hflags i e' he'
    · rw [hsame] at hkept
      rw [hkept a fun e' he' => ha e' (List.mem_cons_of_mem _ he'), hbelow a (ha e List.mem_cons_self)]

/-- The bits of the unknown additions are read and counted. -/
private theorem unknownBits_spec (count : Nat) (hat : At g.bits b p) (hp : p + n < 65536) (hcount : count + n < 256) :
    (unknownBits n count g).1 = List.range' p n ∧ (unknownBits n count g).2.1 = count + (List.range' p n).countP (bitAt b) ∧
      At (unknownBits n count g).2.2.bits b (p + n) ∧ (unknownBits n count g).2.2.memory = g.memory ∧
      (unknownBits n count g).2.2.pstruct = g.pstruct := by
  induction n generalizing count g p with
  | zero => exact ⟨rfl, rfl, hat, rfl, rfl⟩
  | succ n ih =>
    obtain ⟨hbit, hnext⟩ := hat.readBit (by omega)
    have hbit : (readBit g).1 = (bitAt b p).toNat := hbit.trans field_bit
    have hnew : (if (readBit g).1 ≠ 0 then (count + 1) % 256 else count) = count + (bitAt b p).toNat := by
      rw [hbit]
      cases bitAt b p
      · exact if_neg (by decide)
      · exact (if_pos (by decide)).trans (Nat.mod_eq_of_lt (by omega))
    have hle : (bitAt b p).toNat ≤ 1 := Bool.toNat_le _
    obtain ⟨hplaces, hsum, hend, hmemory, hpstruct⟩ := ih (g := (readBit g).2) (count + (bitAt b p).toNat) hnext (by omega)
      (by omega)
    unfold unknownBits
    simp only
    rw [hnew, List.range'_succ, hplaces, hat.bitpos, hsum, List.countP_cons]
    refine ⟨rfl, ?_, ?_, hmemory, hpstruct⟩
    · cases bitAt b p
      · simp
      · simp only [Bool.toNat_true, if_true]
        omega
    · rw [show p + (n + 1) = p + 1 + n by omega]
      exact hend

/-! ### The open types -/

private theorem openType_end : q ≤ (openType b q).2 := by
  unfold openType
  split <;> simp only <;> omega

variable {l : List Nat}

/-- The open types lie one behind the other. -/
private theorem openTypes_end : q ≤ (openTypes b q i l).2 := by
  induction l generalizing q i with
  | nil => exact Nat.le_refl q
  | cons p l ih =>
    unfold openTypes
    split
    · have hlen := openType_end (b := b) (q := q)
      have hrest := ih (q := (openType b q).2 + 8 * (openType b q).1) (i := i + 1)
      simp only
      omega
    · exact ih

private theorem openTypes_index {o : OpenType} (h : o ∈ (openTypes b q i l).1) : i ≤ o.index := by
  induction l generalizing q i with
  | nil => cases h
  | cons p l ih =>
    unfold openTypes at h
    split at h
    · rcases List.mem_cons.1 h with rfl | h
      · exact Nat.le_refl i
      · have := ih h
        omega
    · have := ih h
      omega

/-- Unknown additions are skipped. -/
private theorem skipUnknown_spec (hat : At g.bits b q)
    (hlengths : ∀ o, o ∈ (openTypes b q i l).1 → field b o.start 1 = 0 ∨ field b (o.start + 1) 1 = 0)
    (hstop : (openTypes b q i l).2 < 65536) :
    (skipUnknown (l.countP (bitAt b)) g).1 = (openTypes b q i l).1.map (·.contents) ∧
      At (skipUnknown (l.countP (bitAt b)) g).2.bits b (openTypes b q i l).2 := by
  induction l generalizing g q i with
  | nil => exact ⟨rfl, hat⟩
  | cons p l ih =>
    unfold openTypes at hlengths hstop ⊢
    rw [List.countP_cons]
    split at hlengths
    · rename_i hset
      simp only [if_pos hset] at hlengths hstop ⊢
      have hmore := openTypes_end (b := b) (q := (openType b q).2 + 8 * (openType b q).1) (i := i + 1) (l := l)
      obtain ⟨hlen, hcontents⟩ := hat.readOpenTpyeLength (by omega) (hlengths _ List.mem_cons_self)
      unfold skipUnknown
      simp only [hlen]
      obtain ⟨hrest, hend⟩ := ih (g := { g with bits := Bf.incBitpos (8 * (openType b q).1) (readOpenTpyeLength g.bits).2 })
        (hcontents.incBitpos (by omega)) (fun o ho => hlengths o (List.mem_cons_of_mem _ ho)) hstop
      refine ⟨?_, hend⟩
      rw [hrest, hcontents.bitpos, List.map_cons]
    · rename_i hclear
      simp only [if_neg hclear, Nat.add_zero] at hstop ⊢
      exact ih hat hlengths hstop

/-- Whether an addition is taken to be present. -/
private theorem cdcIsPresent_spec : (cdcIsPresent e { g with pstructOffs := e.structOffs }).1 =
      (!e.optional || decide (g.memory (g.pstruct + e.structOffs) ≠ 0)) ∧
    (cdcIsPresent e { g with pstructOffs := e.structOffs }).2.bits = g.bits ∧
    (cdcIsPresent e { g with pstructOffs := e.structOffs }).2.memory = g.memory ∧
    (cdcIsPresent e { g with pstructOffs := e.structOffs }).2.pstruct = g.pstruct := by
  unfold cdcIsPresent
  split
  · rename_i h
    exact ⟨by rw [h]; rfl, rfl, rfl, rfl⟩
  · rename_i h
    exact ⟨by rw [Bool.eq_false_iff.2 h]; rfl, rfl, rfl, rfl⟩

/-- The known additions that are present are decoded, each in its open type. -/
private theorem decodeKnown_spec (hat : At g.bits b q)
    (hflags : ∀ j e, es[j]? = some e → (!e.optional || decide (g.memory (g.pstruct + e.structOffs) ≠ 0)) = bitAt b (p + j))
    (hlengths : ∀ o, o ∈ (openTypes b q i (List.range' p es.length)).1 → field b o.start 1 = 0 ∨ field b (o.start + 1) 1 = 0)
    (hdecodes : ∀ o, o ∈ (openTypes b q i (List.range' p es.length)).1 → ∀ e, es[o.index - i]? = some e →
      ∀ g : Globs, At g.bits b o.contents → ∃ p, p ≤ o.stop ∧ At (e.decode g).bits b p)
    (hkeep : es.Pairwise fun e e' => ∀ g, (e.decode g).memory (g.pstruct + e'.structOffs) = g.memory (g.pstruct + e'.structOffs))
    (hpstruct : ∀ e, e ∈ es → ∀ g, (e.decode g).pstruct = g.pstruct)
    (hstop : (openTypes b q i (List.range' p es.length)).2 < 65536) :
    (decodeKnown i es g).1 = (openTypes b q i (List.range' p es.length)).1.map (fun o => (o.index, o.contents)) ∧
      At (decodeKnown i es g).2.bits b (openTypes b q i (List.range' p es.length)).2 := by
  induction es generalizing g q i p with
  | nil => exact ⟨rfl, hat⟩
  | cons e es ih =>
    obtain ⟨hkeep, hkeeps⟩ := List.pairwise_cons.1 hkeep
    obtain ⟨hpresent, hbits, hmemory, hsame⟩ := cdcIsPresent_spec (e := e) (g := g)
    have hhere : (!e.optional || decide (g.memory (g.pstruct + e.structOffs) ≠ 0)) = bitAt b p := hflags 0 e rfl
    have hrests : ∀ e, e ∈ es → ∀ g, (e.decode g).pstruct = g.pstruct := fun e he => hpstruct e (List.mem_cons_of_mem _ he)
    rw [List.length_cons, List.range'_succ] at hlengths hdecodes hstop ⊢
    unfold openTypes at hlengths hdecodes hstop ⊢
    unfold decodeKnown
    simp only
    rw [hpresent, hhere]
    generalize (cdcIsPresent e { g with pstructOffs := e.structOffs }).2 = g₁ at hbits hmemory hsame ⊢
    rw [← hbits] at hat
    split at hlengths
    · rename_i hset
      simp only [if_pos hset] at hdecodes hstop ⊢
      have hmore := openTypes_end (b := b) (q := (openType b q).2 + 8 * (openType b q).1) (i := i + 1)
        (l := List.range' (p + 1) es.length)
      obtain ⟨hlen, hcontents⟩ := hat.readOpenTpyeLength (by omega) (hlengths _ List.mem_cons_self)
      obtain ⟨p', hp', hdecoded⟩ := hdecodes _ List.mem_cons_self e (by rw [Nat.sub_self]; rfl)
        { g₁ with bits := (readOpenTpyeLength g₁.bits).2 } hcontents
      have hkept := fun e' he' => hkeep e' he' { g₁ with bits := (readOpenTpyeLength g₁.bits).2 }
      have hstays := hpstruct e List.mem_cons_self { g₁ with bits := (readOpenTpyeLength g₁.bits).2 }
      generalize e.decode { g₁ with bits := (readOpenTpyeLength g₁.bits).2 } = g₂ at hdecoded hkept hstays ⊢
      rw [hlen, hcontents.bitpos, show 8 * (openType b q).1 + (openType b q).2 = (openType b q).2 + 8 * (openType b q).1 by omega]
      have hlater : ∀ j e', es[j]? = some e' →
          (!e'.optional || decide (g₂.memory (g₂.pstruct + e'.structOffs) ≠ 0)) = bitAt b (p + 1 + j) := by
        intro j e' he'
        have hflag : g₂.memory (g.pstruct + e'.structOffs) = g.memory (g.pstruct + e'.structOffs) := by
          rw [← hsame, ← hmemory]
          exact hkept e' (List.mem_of_getElem? he')
        rw [hstays.trans hsame, hflag, hflags (j + 1) e' he', show p + (j + 1) = p + 1 + j by omega]
      obtain ⟨hrest, hend⟩ := ih (g := { g₂ with bits := Bf.setBitpos ((openType b q).2 + 8 * (openType b q).1) g₂.bits })
        (hdecoded.setBitpos hp' (by omega)) hlater (fun o ho => hlengths o (List.mem_cons_of_mem _ ho))
        (fun o ho e' he' => hdecodes o (List.mem_cons_of_mem _ ho) e' (by
          have hle := openTypes_index ho
          rw [show o.index - i = o.index - (i + 1) + 1 by omega]
          exact he')) hkeeps hrests hstop
      refine ⟨?_, hend⟩
      rw [hrest, List.map_cons]
    · rename_i hclear
      simp only [if_neg hclear] at hdecodes hstop ⊢
      refine ih hat (fun j e' he' => ?_) hlengths (fun o ho e' he' => ?_) hkeeps hrests hstop
      · rw [hmemory, hsame, hflags (j + 1) e' he', show p + (j + 1) = p + 1 + j by omega]
      · have hle := openTypes_index ho
        refine hdecodes o ho e' ?_
        rw [show o.index - i = o.index - (i + 1) + 1 by omega]
        exact he'

/-! ### The extension part -/

variable {s : Sequence}

private theorem bitmap_short (hn : n ≤ 64) : bitmap q n = (List.range' (q + 7) n, q + 7 + n) := if_pos hn

private theorem known_short (hk : s.additions.length ≤ n) (hn : n ≤ 64) :
    known s b q n = openTypes b (q + 7 + n) 0 (List.range' (q + 7) s.additions.length) := by
  unfold known
  rw [bitmap_short hn]
  simp only
  rw [List.take_range'_of_length_ge hk]

private theorem unknown_short (hn : n ≤ 64) :
    unknown s b q n =
      openTypes b (known s b q n).2 s.additions.length (List.range' (q + 7 + s.additions.length) (n - s.additions.length)) := by
  unfold unknown
  rw [bitmap_short hn]
  simp only
  rw [List.drop_range', Nat.mul_one]

/-- What is counted of the bitmap after its length has been read. -/
private theorem counts {k : Nat} (hk : k ≤ n) (hn : n ≤ 64) :
    (BitVec.ofNat 32 n).toInt = n ∧ (BitVec.ofNat 32 n - BitVec.ofNat 32 k).toInt = ((n - k : Nat) : Int) ∧
      (BitVec.ofNat 32 n - BitVec.ofNat 32 k).toNat = n - k := by
  have hsub : BitVec.ofNat 32 n - BitVec.ofNat 32 k = BitVec.ofNat 32 (n - k) := by
    apply BitVec.eq_of_toNat_eq
    rw [BitVec.toNat_sub, BitVec.toNat_ofNat, BitVec.toNat_ofNat, BitVec.toNat_ofNat]
    omega
  have hint : ∀ m, m ≤ 64 → (BitVec.ofNat 32 m).toInt = m := fun m hm => by
    have hnat : (BitVec.ofNat 32 m).toNat = m := Nat.mod_eq_of_lt (by omega)
    rw [BitVec.toInt_eq_toNat_of_lt (by omega), hnat]
  refine ⟨hint n hn, ?_, ?_⟩
  · rw [hsub]
    exact hint _ (by omega)
  · rw [hsub, BitVec.toNat_ofNat]
    omega

/-- With a fitting bitmap the decoder follows the encoding. -/
private theorem extension_spec (hc : s.Confined) (h : Encoded s b q n) (hat : At g.bits b q) (hfits : Fits s b q n) :
    (extension s g).1 = wire s b q n ∧ At (extension s g).2.bits b (wire s b q n).stop := by
  obtain ⟨hk, hn, hall⟩ := hfits
  have hsome := h.some
  have hstop := h.fits
  have hannounced := h.announced
  unfold Announced at hannounced
  rw [if_pos hn] at hannounced
  have hlist := known_short (b := b) (q := q) hk hn
  have hlist' := unknown_short (s := s) (b := b) (q := q) hn
  have hbegin := openTypes_end (b := b) (q := q + 7 + n) (i := 0) (l := List.range' (q + 7) s.additions.length)
  have hmiddle := openTypes_end (b := b) (q := (known s b q n).2) (i := s.additions.length)
    (l := List.range' (q + 7 + s.additions.length) (n - s.additions.length))
  rw [← hlist] at hbegin
  rw [← hlist'] at hmiddle
  obtain ⟨hlen, hplace⟩ := hat.readSmall (by omega) hannounced.1
  obtain ⟨hbmp, hint, hnat⟩ := counts hk hn
  have hcounted : ∀ e, e ∈ s.additions → e.counted = true := by
    intro e he
    obtain ⟨i, hi⟩ := List.mem_iff_getElem?.1 he
    unfold Elem.counted
    rcases hall i e hi with ho | ⟨hd, -⟩
    · rw [ho, Bool.true_or]
    · rw [hd, Bool.or_true]
  obtain ⟨hknown, hafter, hpstruct, hflags, -⟩ := knownBits_spec (g := { g with bits := (readNormallySmallNonNegativeWholeNr g.bits).2 })
    0 n hcounted (by omega) s.inOrder hplace (by omega)
  have hchoice : ∀ g₁, (if 0 < (BitVec.ofNat 32 n - BitVec.ofNat 32 s.additions.length).toInt then
      unknownBits (BitVec.ofNat 32 n - BitVec.ofNat 32 s.additions.length).toNat 0 g₁
      else ([], (BitVec.ofNat 32 n - BitVec.ofNat 32 s.additions.length).toNat, g₁)) =
        unknownBits (n - s.additions.length) 0 g₁ := by
    intro g₁
    rw [hint, hnat]
    split
    · rfl
    · rw [show n - s.additions.length = 0 by omega]
      rfl
  unfold extension
  simp only
  rw [hlen, hannounced.2, show n - 1 + 1 = n by omega, hbmp, hchoice]
  generalize knownBits s.additions 0 n { g with bits := (readNormallySmallNonNegativeWholeNr g.bits).2 } = r₁ at hknown hafter hpstruct hflags ⊢
  obtain ⟨hunknown, hcount, hread, hmemory, hsame⟩ := unknownBits_spec (n := n - s.additions.length) 0 hafter (by omega) (by omega)
  generalize unknownBits (n - s.additions.length) 0 r₁.2 = r₂ at hunknown hcount hread hmemory hsame ⊢
  rw [show q + 7 + s.additions.length + (n - s.additions.length) = q + 7 + n by omega] at hread
  have hpresent : ∀ j e, s.additions[j]? = some e →
      (!e.optional || decide (r₂.2.2.memory (r₂.2.2.pstruct + e.structOffs) ≠ 0)) = bitAt b (q + 7 + j) := by
    intro j e he
    rw [hmemory, hsame, hpstruct]
    have hflag := hflags j e he
    rcases hall j e he with ho | ⟨-, hset⟩
    · rw [ho, Bool.not_true, Bool.false_or]
      exact Bool.eq_iff_iff.2 (decide_eq_true_iff.trans hflag)
    · rw [hset, decide_eq_true (hflag.2 hset), Bool.or_true]
  have hlengths := h.lengths
  have hdecodes := h.decodes
  rw [hlist] at hlengths hdecodes
  obtain ⟨hdecoded, hfollow⟩ := decodeKnown_spec (i := 0) hread hpresent (fun o ho => hlengths o (.inl ho)) hdecodes hc.flags
    hc.pstruct (by rw [← hlist]; omega)
  generalize decodeKnown 0 s.additions r₂.2.2 = r₃ at hdecoded hfollow ⊢
  rw [← hlist] at hdecoded hfollow
  rw [hlist'] at hlengths hstop
  obtain ⟨hskipped, hend⟩ := skipUnknown_spec hfollow (fun o ho => hlengths o (.inr ho)) hstop
  rw [hcount, Nat.zero_add]
  refine ⟨?_, ?_⟩
  · unfold wire
    rw [hknown, hunknown, hdecoded, hskipped, hend.bitpos, ← hlist', bitmap_short hn, List.range'_append_1,
      show s.additions.length + (n - s.additions.length) = n by omega]
  · rw [← hlist'] at hend
    exact hend

/-! ### Bitmaps that do not fit -/

private theorem knownBits_length (es : List Elem) (nr bmpLen : Int) : (knownBits es nr bmpLen g).1.length ≤ es.countP Elem.counted ∧
    ((knownBits es nr bmpLen g).1.length : Int) ≤ max 0 (bmpLen - nr) := by
  induction es generalizing nr g with
  | nil => exact ⟨Nat.le_refl 0, Int.le_max_left 0 _⟩
  | cons e es ih =>
    unfold knownBits
    rw [List.countP_cons]
    split
    · split
      · rename_i hcounted
        obtain ⟨hle, hle'⟩ := ih (nr + 1) (g := e.readFlag g)
        simp only [List.length_cons]
        omega
      · obtain ⟨hle, hle'⟩ := ih nr (g := g)
        omega
    · exact ⟨Nat.zero_le _, Int.le_max_left 0 _⟩

private theorem knownBits_head (es : List Elem) (nr bmpLen : Int) : (∀ p, (knownBits es nr bmpLen g).1.head? = some p → p = g.bits.bitpos) ∧
    ((knownBits es nr bmpLen g).1 = [] → (knownBits es nr bmpLen g).2.bits = g.bits) := by
  induction es generalizing nr g with
  | nil => exact ⟨nofun, fun _ => rfl⟩
  | cons e es ih =>
    unfold knownBits
    split
    · split
      · exact ⟨fun p h => (Option.some.inj h).symm, nofun⟩
      · exact ih _
    · exact ⟨nofun, fun _ => rfl⟩

private theorem unknownBits_length {count : Nat} : (unknownBits n count g).1.length = n ∧
    ∀ p, (unknownBits n count g).1.head? = some p → p = g.bits.bitpos := by
  constructor
  · induction n generalizing count g with
    | zero => rfl
    | succ n ih =>
      unfold unknownBits
      exact congrArg (· + 1) ih
  · intro p h
    cases n with
    | zero => cases h
    | succ n => exact (Option.some.inj h).symm

private theorem skipUnknown_length : (skipUnknown n g).1.length = n := by
  induction n generalizing g with
  | zero => rfl
  | succ n ih =>
    unfold skipUnknown
    exact congrArg (· + 1) ih

/-- The bits that are taken for the bitmap begin behind the number that has been read. -/
private theorem extension_head (h : (extension s g).1.bitmap.head? = some p) :
    p = (readNormallySmallNonNegativeWholeNr g.bits).2.bitpos := by
  unfold extension at h
  simp only at h
  obtain ⟨hhead, hempty⟩ := knownBits_head s.additions 0
    (BitVec.ofNat 32 ((readNormallySmallNonNegativeWholeNr g.bits).1 + 1)).toInt
    (g := { g with bits := (readNormallySmallNonNegativeWholeNr g.bits).2 })
  generalize knownBits s.additions 0 _ { g with bits := (readNormallySmallNonNegativeWholeNr g.bits).2 } = r₁ at hhead hempty h
  rw [List.head?_append] at h
  cases hr : r₁.1 with
  | nil =>
    rw [hr, List.head?_nil, Option.none_or] at h
    split at h
    · rw [(unknownBits_length).2 p h, hempty hr]
    · cases h
  | cons p' ps =>
    rw [hr, List.head?_cons, Option.some_or] at h
    exact hhead p (by rw [hr]; exact h)

/-- There are not more of them than the number says. -/
private theorem extension_length {value : Nat} (hvalue : (readNormallySmallNonNegativeWholeNr g.bits).1 = value)
    (hsmall : value < 1024) : (extension s g).1.bitmap.length ≤ value + 1 := by
  have hfew := s.few
  unfold extension
  simp only [hvalue]
  have hnat : (BitVec.ofNat 32 (value + 1)).toNat = value + 1 := Nat.mod_eq_of_lt (by omega)
  have hint : (BitVec.ofNat 32 (value + 1)).toInt = (value + 1 : Nat) := by
    rw [BitVec.toInt_eq_toNat_of_lt (by omega), hnat]
  have hrest : (BitVec.ofNat 32 (value + 1) - BitVec.ofNat 32 s.additions.length).toNat ≤ value + 1 - s.additions.length ∨
      (BitVec.ofNat 32 (value + 1) - BitVec.ofNat 32 s.additions.length).toInt < 0 := by
    rw [BitVec.toInt_eq_toNat_cond, BitVec.toNat_sub, hnat, BitVec.toNat_ofNat]
    split <;> omega
  obtain ⟨hcounted, hlimit⟩ := knownBits_length s.additions 0 (BitVec.ofNat 32 (value + 1)).toInt
    (g := { g with bits := (readNormallySmallNonNegativeWholeNr g.bits).2 })
  have hcount := List.countP_le_length (p := Elem.counted) (l := s.additions)
  rw [List.length_append]
  split
  · rw [unknownBits_length.1]
    omega
  · rw [List.length_nil]
    omega

private theorem fragments_spec : (fragments q n).1.length = n ∧ q + 8 + n ≤ (fragments q n).2 ∧
    (0 < n → (fragments q n).1.head? = some (if 128 ≤ n ∧ n < 16384 then q + 16 else q + 8)) := by
  have hfirst : ∀ p m, 0 < m → (List.range' p m).head? = some p := fun p m hm => by
    rw [show m = m - 1 + 1 by omega, List.range'_succ, List.head?_cons]
  induction q, n using fragments.induct with
  | case1 q n hshort =>
    unfold fragments
    rw [if_pos hshort, if_neg (by omega)]
    exact ⟨List.length_range', Nat.le_refl _, hfirst _ _⟩
  | case2 q n hshort hmiddle =>
    unfold fragments
    rw [if_neg hshort, if_pos hmiddle, if_pos (by omega)]
    exact ⟨List.length_range', by simp only; omega, hfirst _ _⟩
  | case3 q n hshort hmiddle m ih =>
    have hm : 0 < m ∧ m ≤ n := by omega
    unfold fragments
    rw [if_neg hshort, if_neg hmiddle, if_neg (by omega)]
    refine ⟨?_, ?_, fun _ => ?_⟩
    · rw [List.length_append, List.length_range', ih.1]
      omega
    · exact Nat.le_trans (by omega) ih.2.1
    · rw [List.head?_append, hfirst _ _ hm.1, Option.some_or]

/-- The length of a bitmap of more than 64 bits is misread. -/
private theorem long_bitmap (h : Encoded s b q n) (hat : At g.bits b q) (hn : 64 < n) : (extension s g).1.bitmap ≠ (bitmap q n).1 := by
  intro heq
  have hannounced := h.announced
  unfold Announced at hannounced
  rw [if_neg (by omega)] at hannounced
  obtain ⟨hflag, hannounced⟩ := hannounced
  have hlong : bitmap q n = fragments (q + 1) n := if_neg (by omega)
  obtain ⟨hlength, hend, hhead⟩ := fragments_spec (q := q + 1) (n := n)
  rw [← hlong] at hlength hend hhead
  rw [← heq] at hlength hhead
  have hknown : (bitmap q n).2 ≤ (known s b q n).2 := openTypes_end
  have hunknown : (known s b q n).2 ≤ (unknown s b q n).2 := openTypes_end
  have hfits := h.fits
  have hplace := hat.readLarge_bitpos (by omega) hflag
  have hfirst := extension_head (hhead (by omega))
  unfold AnnouncedLength at hannounced
  split at hannounced
  · rename_i hshort
    have hseven : field b (q + 2) 7 = 2 * field b (q + 2) 6 + (bitAt b (q + 2 + 6)).toNat := field_succ
    have hbit : (bitAt b (q + 2 + 6)).toNat ≤ 1 := Bool.toNat_le _
    have hwhole : field b (q + 2) 7 = n := hannounced.2
    rw [if_neg (by omega), hplace] at hfirst
    split at hfirst <;> omega
  · rename_i hmany
    have htwo : field b (q + 1) 2 = 2 * field b (q + 1) 1 + (bitAt b (q + 2)).toNat := field_succ
    have hsix : field b (q + 2) 6 = field b (q + 2) 1 * 32 + field b (q + 3) 5 := field_add (m := 1) (n := 5)
    have hone : field b (q + 2) 1 = (bitAt b (q + 2)).toNat := field_bit
    have hbit : (bitAt b (q + 2)).toNat ≤ 1 := Bool.toNat_le _
    have hfirst' : field b (q + 1) 1 < 2 := field_lt
    have hfive : field b (q + 3) 5 < 32 := field_lt
    split at hannounced
    · rename_i hmiddle
      have htwo' : field b (q + 1) 2 = 2 := hannounced.1
      have hsplit : field b (q + 3) 14 = field b (q + 3) 5 * 512 + field b (q + 8) 9 := field_add (m := 5) (n := 9)
      have hwhole : field b (q + 3) 14 = n := hannounced.2
      have hnine : field b (q + 8) 9 < 512 := field_lt
      rw [if_pos (by omega), hplace, if_pos (by omega)] at hfirst
      -- only for a length field of nine bits the bitmap begins where it should
      have hlen : field b (q + 2) 6 = 9 := by omega
      have hvalue := hat.readLarge hflag (by omega) (by omega)
      rw [hlen] at hvalue
      have hcount := extension_length (s := s) hvalue (by omega)
      omega
    · have htwo' : field b (q + 1) 2 = 3 := hannounced.1
      rw [if_neg (by omega), hplace] at hfirst
      split at hfirst <;> omega

/-- With a bitmap from an older peer the loop that skips unknown additions goes on. -/
private theorem older_skipped (h : Encoded s b q n) (hat : At g.bits b q) (hn : n ≤ 64) (hk : n < s.additions.length) :
    (extension s g).1.skipped ≠ (wire s b q n).skipped := by
  intro heq
  have hfew := s.few
  have hannounced := h.announced
  have hsome := h.some
  unfold Announced at hannounced
  rw [if_pos hn] at hannounced
  have hend := h.fits
  have hknown : (bitmap q n).2 ≤ (known s b q n).2 := openTypes_end
  have hunknown : (known s b q n).2 ≤ (unknown s b q n).2 := openTypes_end
  rw [bitmap_short hn] at hknown
  have hlen := (hat.readSmall (by simp only at hknown; omega) hannounced.1).1
  have hnone : (wire s b q n).skipped = [] := by
    unfold wire unknown
    rw [bitmap_short hn]
    simp only
    rw [List.drop_eq_nil_of_le (by rw [List.length_range']; omega)]
    rfl
  have hlength : (extension s g).1.skipped.length = 0 := by rw [heq, hnone, List.length_nil]
  unfold extension at hlength
  simp only [skipUnknown_length, hlen, hannounced.2, show n - 1 + 1 = n by omega] at hlength
  have hnat : (BitVec.ofNat 32 n - BitVec.ofNat 32 s.additions.length).toNat = 4294967296 + n - s.additions.length := by
    rw [BitVec.toNat_sub, BitVec.toNat_ofNat, BitVec.toNat_ofNat]
    omega
  have hneg : ¬ 0 < (BitVec.ofNat 32 n - BitVec.ofNat 32 s.additions.length).toInt := by
    have hpow : ((2 ^ 32 : Nat) : Int) = 4294967296 := rfl
    rw [BitVec.toInt_eq_toNat_cond, hnat, if_neg (by omega), hpow]
    omega
  rw [if_neg hneg] at hlength
  simp only [hnat] at hlength
  omega

/-- An addition without a bit in the bitmap makes the bitmap too short. -/
private theorem uncounted_bitmap (h : Encoded s b q n) (hat : At g.bits b q) (hk : s.additions.length ≤ n) (hn : n ≤ 64)
    (he : e ∈ s.additions) (hcounted : e.counted = false) : (extension s g).1.bitmap ≠ (bitmap q n).1 := by
  intro heq
  have hannounced := h.announced
  have hsome := h.some
  unfold Announced at hannounced
  rw [if_pos hn] at hannounced
  have hend := h.fits
  have hknown : (bitmap q n).2 ≤ (known s b q n).2 := openTypes_end
  have hunknown : (known s b q n).2 ≤ (unknown s b q n).2 := openTypes_end
  rw [bitmap_short hn] at hknown
  have hlen := (hat.readSmall (by simp only at hknown; omega) hannounced.1).1
  have hlength : (extension s g).1.bitmap.length = n := by rw [heq, bitmap_short hn, List.length_range']
  unfold extension at hlength
  obtain ⟨hbmp, hint, hnat⟩ := counts hk hn
  simp only [hlen, hannounced.2, show n - 1 + 1 = n by omega, hint, hnat, List.length_append] at hlength
  have hcount := (knownBits_length s.additions 0 (BitVec.ofNat 32 n).toInt
    (g := { g with bits := (readNormallySmallNonNegativeWholeNr g.bits).2 })).1
  have hmissing : s.additions.countP Elem.counted < s.additions.length := by
    refine Nat.lt_of_le_of_ne List.countP_le_length fun hall => ?_
    exact Bool.false_ne_true (hcounted.symm.trans (List.countP_eq_length.1 hall e he))
  split at hlength
  · rw [unknownBits_length.1] at hlength
    omega
  · rw [List.length_nil] at hlength
    omega

/-- An addition without a flag is always decoded. -/
private theorem decodeKnown_index {j : Nat} (he : es[j]? = some e) (ho : e.optional = false) :
    i + j ∈ (decodeKnown i es g).1.map (·.1) := by
  induction es generalizing i j g with
  | nil => simp at he
  | cons e' es ih =>
    unfold decodeKnown
    simp only
    rw [(cdcIsPresent_spec (e := e') (g := g)).1]
    match j with
    | 0 =>
      cases he
      rw [if_pos (by rw [ho]; rfl)]
      exact List.mem_cons_self
    | j + 1 =>
      have hi : i + (j + 1) = i + 1 + j := by omega
      rw [hi]
      split
      · exact List.mem_cons_of_mem _ (ih he)
      · exact ih he

private theorem openTypes_set {o : OpenType} (h : o ∈ (openTypes b q i (List.range' p n)).1) : bitAt b (p + (o.index - i)) = true := by
  induction n generalizing q i p with
  | zero => cases h
  | succ n ih =>
    rw [List.range'_succ] at h
    unfold openTypes at h
    split at h
    · rename_i hset
      rcases List.mem_cons.1 h with rfl | h
      · rw [Nat.sub_self]
        exact hset
      · have hle := openTypes_index h
        rw [show p + (o.index - i) = p + 1 + (o.index - (i + 1)) by omega]
        exact ih h
    · have hle := openTypes_index h
      rw [show p + (o.index - i) = p + 1 + (o.index - (i + 1)) by omega]
      exact ih h

/-- The decoder follows the encoding just when the bitmap fits. -/
theorem extension_iff (hc : s.Confined) (h : Encoded s b q n) (hat : At g.bits b q) :
    (extension s g).1 = wire s b q n ↔ Fits s b q n := by
  refine ⟨fun heq => ?_, fun hfits => (extension_spec hc h hat hfits).1⟩
  have hn : n ≤ 64 := Nat.le_of_not_lt fun hlong => long_bitmap (g := g) h hat hlong (congrArg Trace.bitmap heq)
  have hk : s.additions.length ≤ n := Nat.le_of_not_lt fun hold => older_skipped (g := g) h hat hn hold (congrArg Trace.skipped heq)
  refine ⟨hk, hn, fun i e he => ?_⟩
  cases ho : e.optional with
  | true => exact .inl rfl
  | false =>
    refine .inr ?_
    cases hd : e.isDefault with
    | false =>
      have hcounted : e.counted = false := by
        unfold Elem.counted
        rw [ho, hd]
        rfl
      exact absurd (congrArg Trace.bitmap heq) (uncounted_bitmap h hat hk hn (List.mem_of_getElem? he) hcounted)
    | true =>
      refine ⟨rfl, ?_⟩
      have hindex : 0 + i ∈ (wire s b q n).decoded.map (·.1) := by
        rw [← heq]
        exact decodeKnown_index he ho
      unfold wire at hindex
      rw [List.map_map, known_short hk hn] at hindex
      obtain ⟨o, ho, hi⟩ := List.mem_map.1 hindex
      have hset := openTypes_set ho
      have hi : o.index = 0 + i := hi
      rwa [show o.index - 0 = i by omega] at hset

/-! ### Sequences -/

/-- A sequence of the encoding: where its root ends, and the number of bits of its bitmap if it has extensions. -/
structure Coded where
  rootEnd : Nat
  extended : Option Nat

/-- The trace of the encoding of a sequence. -/
def Coded.trace (s : Sequence) (b : Octets) (c : Coded) : Option Trace := c.extended.map (wire s b c.rootEnd)

/-- Where the sequence ends. -/
def Coded.stop (s : Sequence) (b : Octets) (c : Coded) : Nat := ((c.trace s b).map (·.stop)).getD c.rootEnd

/-- Sequences one behind the other: the bit for extensions, the root, that is decoded up to its end, and the extension part. -/
def EncodedFrom (s : Sequence) (b : Octets) : Nat → List Coded → Prop
  | _, [] => True
  | p, c :: cs => p + 1 < 65536 ∧ field b p 1 = (if c.extended.isSome then 1 else 0) ∧
      (∀ g : Globs, At g.bits b (p + 1) → At (rootPart s g).bits b c.rootEnd) ∧
      (∀ n, c.extended = some n → Encoded s b c.rootEnd n) ∧ EncodedFrom s b (c.stop s b) cs

/-- Where the last sequence ends. -/
def lastStop (s : Sequence) (b : Octets) : Nat → List Coded → Nat
  | p, [] => p
  | _, c :: cs => lastStop s b (c.stop s b) cs

variable {c : Coded} {cs : List Coded}

/-- One sequence is decoded as it is encoded just when its bitmap fits. -/
private theorem sequence_iff (hc : s.Confined) (h : EncodedFrom s b p (c :: cs)) (hat : At g.bits b p) :
    ((sequence s g).1 = c.trace s b ↔ ∀ n, c.extended = some n → Fits s b c.rootEnd n) ∧
      ((∀ n, c.extended = some n → Fits s b c.rootEnd n) → At (sequence s g).2.bits b (c.stop s b)) := by
  obtain ⟨hp, hbit, hroot, hext, -⟩ := h
  obtain ⟨hread, hnext⟩ := hat.readBit hp
  have hread : (readBit g).1 = field b p 1 := hread
  have hrooted := hroot (readBit g).2 hnext
  unfold sequence Coded.trace Coded.stop Coded.trace
  simp only [hread, hbit]
  cases hn : c.extended with
  | none =>
    rw [if_neg (by decide)]
    exact ⟨iff_of_true rfl nofun, fun _ => hrooted⟩
  | some n =>
    have hencoded := hext n hn
    rw [if_pos (by rfl)]
    have hiff := extension_iff hc hencoded hrooted
    have hfits : (∀ m, some n = some m → Fits s b c.rootEnd m) ↔ Fits s b c.rootEnd n :=
      ⟨fun h => h n rfl, fun h m hm => Option.some.inj hm ▸ h⟩
    rw [hfits]
    refine ⟨?_, fun h => (extension_spec hc hencoded hrooted h).2⟩
    rw [← hiff]
    exact ⟨Option.some.inj, congrArg some⟩

private theorem sequences_iff (hc : s.Confined) (h : EncodedFrom s b p cs) (hat : At g.bits b p) :
    ((sequences s cs.length g).1 = cs.map (Coded.trace s b) ∧ (sequences s cs.length g).2.bits.bitpos = lastStop s b p cs) ↔
      ∀ c, c ∈ cs → ∀ n, c.extended = some n → Fits s b c.rootEnd n := by
  induction cs generalizing g p with
  | nil => exact iff_of_true ⟨rfl, hat.bitpos⟩ (fun c hc => absurd hc List.not_mem_nil)
  | cons c cs ih =>
    obtain ⟨htrace, hstop⟩ := sequence_iff hc h hat
    rw [List.length_cons]
    unfold sequences
    simp only [List.map_cons, List.cons.injEq, List.forall_mem_cons]
    rw [htrace, and_assoc]
    refine and_congr_right fun hfits => ?_
    exact ih h.2.2.2.2 (hstop hfits)

/-- The decoder takes every sequence of the encoding for what it is, and stops at the end, just when the bitmaps of all of them fit. -/
theorem versions_iff (hc : s.Confined) (h : EncodedFrom s b p cs) (hat : At g.bits b p) :
    ((cdcAsn1SeqExtDecode s cs.length g).1 = cs.map (Coded.trace s b) ∧
        (cdcAsn1SeqExtDecode s cs.length g).2.bits.bitpos = lastStop s b p cs) ↔
      ∀ c, c ∈ cs → ∀ n, c.extended = some n → Fits s b c.rootEnd n :=
  sequences_iff (g := { g with pstruct := g.pstruct + g.pstructOffs }) hc h hat

/-! ### Two peers -/

/-- An optional octet. -/
def octetElem (offs : Nat) : Elem where
  optional := true
  isDefault := false
  pointer := false
  structOffs := offs
  decode g :=
    let r := Bf.decodeByteNumber g.bits 8
    { g with bits := r.2 }.put (offs + 1) [BitVec.ofNat 8 r.1]

/-- A sequence with an empty root and one addition. -/
def oneAddition : Sequence := ⟨[], [octetElem 0], 2, by decide, List.pairwise_singleton _ _⟩

/-- A sequence with an empty root and two additions. -/
def twoAdditions : Sequence := ⟨[], [octetElem 0, octetElem 2], 4, by decide, by simp [octetElem]⟩

/-- A buffer of some octets. -/
def buffer (octets : List Nat) : Octets := fun k => BitVec.ofNat 8 (octets.getD k 0)

theorem oneAddition_confined : oneAddition.Confined :=
  ⟨List.pairwise_singleton _ _, fun _ he _ => by rw [List.mem_singleton.1 he]; rfl⟩

theorem twoAdditions_confined : twoAdditions.Confined := by
  refine ⟨?_, fun e he g => ?_⟩
  · refine List.pairwise_cons.2 ⟨fun e' he' g => ?_, List.pairwise_singleton _ _⟩
    rw [List.mem_singleton.1 he']
    change (if g.pstruct + 1 ≤ g.pstruct + 2 then _ else _) = _
    rw [if_pos (by omega)]
    have hbehind : 1 ≤ g.pstruct + 2 - (g.pstruct + 1) := by omega
    rw [List.getD_eq_getElem?_getD, List.getElem?_eq_none hbehind]
    rfl
  · rcases List.mem_cons.1 he with rfl | he
    · rfl
    · rw [List.mem_singleton.1 he]
      rfl

private theorem octetElem_inside {offs : Nat} (hat : At g.bits b p) (hp : p + 8 < 65536) :
    At ((octetElem offs).decode g).bits b (p + 8) := (hat.decodeByteNumber 8 (by omega) hp).2

/-- The message of a newer peer, with two bits in its bitmap. -/
def newerPeer : Octets := buffer [0x81, 0xc0, 0x6a, 0x80, 0x55, 0x40]

/-- The known addition is decoded and the other one skipped. -/
theorem newerPeer_followed :
    (cdcAsn1SeqExtDecode oneAddition 1 ⟨commonDecodeInit newerPeer 0, fun _ => 0, 0, 0⟩).1 = [some ⟨[8, 9], [(0, 18)], [34], 42⟩] ∧
      (cdcAsn1SeqExtDecode oneAddition 1 ⟨commonDecodeInit newerPeer 0, fun _ => 0, 0, 0⟩).2.bits.bitpos = 42 := by
  have hknown : known oneAddition newerPeer 1 2 = ([⟨0, 10, 18, 26⟩], 26) := by decide +kernel
  have hunknown : unknown oneAddition newerPeer 1 2 = ([⟨1, 26, 34, 42⟩], 42) := by decide +kernel
  have hencoded : Encoded oneAddition newerPeer 1 2 := by
    refine ⟨by decide, ⟨by decide +kernel, by decide +kernel⟩, fun o ho => ?_, fun o ho e he g hat => ?_, by rw [hunknown]; decide⟩
    · rw [hknown, hunknown] at ho
      rcases ho with ho | ho
      · rw [List.mem_singleton.1 ho]
        exact .inl (by decide +kernel)
      · rw [List.mem_singleton.1 ho]
        exact .inl (by decide +kernel)
    · rw [hknown] at ho
      rw [List.mem_singleton.1 ho] at he hat ⊢
      cases he
      exact ⟨26, Nat.le_refl _, octetElem_inside hat (by decide)⟩
  have henc : EncodedFrom oneAddition newerPeer 0 [⟨1, some 2⟩] :=
    ⟨by decide, by decide +kernel, fun g hat => hat, fun n hn => by cases hn; exact hencoded, trivial⟩
  have hfits : Fits oneAddition newerPeer 1 2 := by
    refine ⟨by decide, by decide, fun i e he => ?_⟩
    match i, he with
    | 0, he =>
      cases he
      exact .inl rfl
  have htrace : Coded.trace oneAddition newerPeer ⟨1, some 2⟩ = some ⟨[8, 9], [(0, 18)], [34], 42⟩ := by
    refine congrArg some ?_
    unfold wire
    rw [hknown, hunknown]
    rfl
  have hall : ∀ c, c ∈ [(⟨1, some 2⟩ : Coded)] → ∀ n, c.extended = some n → Fits oneAddition newerPeer c.rootEnd n := by
    intro c hc n hn
    rw [List.mem_singleton.1 hc] at hn ⊢
    cases hn
    exact hfits
  obtain ⟨hdecoded, hstop⟩ := (versions_iff (g := ⟨commonDecodeInit newerPeer 0, fun _ => 0, 0, 0⟩) oneAddition_confined henc
    (commonDecodeInit_at (p := 0) (by decide))).2 hall
  refine ⟨hdecoded.trans (congrArg (· :: []) htrace), hstop.trans ?_⟩
  change (Option.map (·.stop) (Coded.trace oneAddition newerPeer ⟨1, some 2⟩)).getD 1 = 42
  rw [htrace]
  rfl

/-- The message of an older peer, with one bit in its bitmap. -/
def olderPeer : Octets := buffer [0x80, 0x80, 0xd5, 0]

/-- A decoder that knows one addition more than the older peer does not stop at the end of the message. -/
theorem olderPeer_not_followed :
    (cdcAsn1SeqExtDecode twoAdditions 1 ⟨commonDecodeInit olderPeer 0, fun _ => 0, 0, 0⟩).1 ≠ [some (wire twoAdditions olderPeer 1 1)] := by
  have hknown : known twoAdditions olderPeer 1 1 = ([⟨0, 9, 17, 25⟩], 25) := by decide +kernel
  have hunknown : unknown twoAdditions olderPeer 1 1 = ([], 25) := by decide +kernel
  have hencoded : Encoded twoAdditions olderPeer 1 1 := by
    refine ⟨by decide, ⟨by decide +kernel, by decide +kernel⟩, fun o ho => ?_, fun o ho e he g hat => ?_, by rw [hunknown]; decide⟩
    · rw [hknown, hunknown] at ho
      rcases ho with ho | ho
      · rw [List.mem_singleton.1 ho]
        exact .inl (by decide +kernel)
      · cases ho
    · rw [hknown] at ho
      rw [List.mem_singleton.1 ho] at he hat ⊢
      cases he
      exact ⟨25, Nat.le_refl _, octetElem_inside hat (by decide)⟩
  have hat : At (commonDecodeInit olderPeer 0) olderPeer 0 := commonDecodeInit_at (by decide)
  have henc : EncodedFrom twoAdditions olderPeer 0 [⟨1, some 1⟩] :=
    ⟨by decide, by decide +kernel, fun g hat => hat, fun n hn => by cases hn; exact hencoded, trivial⟩
  have hone := (sequence_iff (g := ⟨commonDecodeInit olderPeer 0, fun _ => 0, 0, 0⟩) twoAdditions_confined henc hat).1
  intro heq
  have hfits : Fits twoAdditions olderPeer 1 1 := hone.1 (List.cons.inj heq).1 1 rfl
  exact absurd hfits.1 (by decide)

end

end Citrine.Ccd.SeqExt
