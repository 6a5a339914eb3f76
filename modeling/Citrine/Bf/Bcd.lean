import Citrine.Bf.Writing

/-!
# BCD numbers

The coding of digit strings (`cdc_BCD_encode`, `cdc_BCD_decode`).  Two digits share an octet, the later one in the higher half,
so the index into the digits hops back and forth; in the mode for odd numbers the first digit has an octet for itself, whose
lower half belongs to others.  The nibble at each place of the encoding (`nibble`) is written and read in the same order
(`order`), and a number comes back with all its digits (`bcd_roundTrip`).
-/

namespace Citrine.Bf

open Bits

/-- What the functions use of an element of repetition type 'i' whose repetitions are not calculated, with the size of its
variable. -/
structure Melem where
  maxRepeat : Nat
  optional : Bool
  bSize : Nat
  /-- The repetitions are a `USHORT`. -/
  repeats : maxRepeat < 65536
  /-- A digit has four bits. -/
  nibble : bSize = 4

/-- The part of the C-structure for an element, with whatever lies behind the digits. -/
structure Number where
  valid : Bool
  count : Nat
  digits : Nat → BitVec 8

/-- The faults that the functions record. -/
inductive Fault where
  | errMaxRepeat
  | errPatternMismatch (pos : Nat)
  deriving DecidableEq

/-- The next digit. -/
def hop (startDigit k : Nat) : Nat :=
  if startDigit = 1 then if k % 2 = 0 then k - 1 else k + 3
  else if k % 2 = 1 then k - 1 else k + 3

/-! ### Encoding -/

/-- The loop `while (--repeat>1)`, with the value that `repeat` has afterwards. -/
def writeOdd (digits : Nat → BitVec 8) : Nat → Nat → Globs → Nat × Nat × Globs
  | 0, k, g => (0, k, g)
  | r + 1, k, g => if r > 1 then writeOdd digits r (hop 1 k) (codeByteNumber g 4 (digits k)) else (r, k, g)

/-- The loop `while (repeat-- > 1)`. -/
def writeEven (digits : Nat → BitVec 8) (startDigit : Nat) : Nat → Nat → Globs → Nat × Globs
  | 0, k, g => (k, g)
  | r + 1, k, g =>
    if r + 1 > 1 then writeEven digits startDigit r (hop startDigit k) (codeByteNumber g 4 (digits k)) else (k, g)

/-- `cdc_BCD_encode` -/
def bcdEncode (e : Melem) (startDigit : Nat) (c : Number) (g : Globs) : Globs × List Fault :=
  if e.optional && !c.valid then (g, [])
  else
    let count := if e.maxRepeat > 255 then c.count % 65536 else c.count % 256
    let rep := min count e.maxRepeat
    let faults := if rep < count then [.errMaxRepeat] else []
    if rep = 0 then (g, faults)
    else if startDigit = 1 then
      let fullBitsNeeded := rep % 2 = 0
      let (rep, k, g) := writeOdd c.digits rep 2 (incBitpos 4 (codeByteNumber g 4 (c.digits 0)))
      if rep = 0 then (g, faults)
      else if fullBitsNeeded then (codeByteNumber (codeByteNumber g 4 0xf) 4 (c.digits (hop 1 k)), faults)
      else (codeByteNumber g 4 (c.digits k), faults)
    else
      let fullBitsNeeded := rep % 2 = 1
      let (k, g) := writeEven c.digits startDigit rep 1 g
      if fullBitsNeeded then
        (codeByteNumber (codeByteNumber g 4 (if startDigit ≠ 2 then 0xf else 0)) 4 (c.digits (hop startDigit k)), faults)
      else (codeByteNumber g 4 (c.digits k), faults)

/-! ### Decoding -/

/-- `ccd_calculateRep`, for such an element. -/
def calculateRep (e : Melem) (maxBitpos : Nat) (g : Globs) : Nat :=
  min e.maxRepeat ((((maxBitpos : Int) - g.bitpos).tdiv e.bSize % 4294967296).toNat)

/-- The loop that reads digits. -/
def readDigits (startDigit : Nat) : Nat → Nat → (Nat → BitVec 8) → Globs → (Nat → BitVec 8) × Globs
  | 0, _, digits, g => (digits, g)
  | n + 1, k, digits, g =>
    let digit := decodeByteNumber g 4
    readDigits startDigit n (hop startDigit k) (fun i => if i = k then BitVec.ofNat 8 digit.1 else digits i) digit.2

/-- The number of digits is stored into the variable for it. -/
def storeCount (e : Melem) (rep : Nat) : Nat := if e.maxRepeat > 255 then rep % 65536 else rep % 256

/-- `cdc_BCD_decode`, over what the C-structure holds before.  Without any nibble the code looks at the octet before the digits
instead of the first one. -/
def bcdDecode (e : Melem) (startDigit maxBitpos : Nat) (c : Number) (g : Globs) : Number × Globs × List Fault :=
  let valid := e.optional || c.valid
  if startDigit = 1 then
    let first := decodeByteNumber g 4
    let g := incBitpos 4 first.2
    let rep := calculateRep e maxBitpos g
    let (digits, g) := readDigits 1 rep 2 (fun i => if i = 0 then BitVec.ofNat 8 first.1 else c.digits i) g
    let rep := if rep % 2 = 0 ∧ digits rep ≠ 0xf then rep + 1 else rep
    (⟨valid, storeCount e rep, digits⟩, g, [])
  else
    let rep := calculateRep e maxBitpos g
    let nibblesToRead := if rep % 2 = 1 then rep + 1 else rep
    let (digits, g) := readDigits startDigit nibblesToRead 1 c.digits g
    if rep % 2 = 1 then
      (⟨valid, storeCount e rep, digits⟩, g,
        if digits rep ≠ 0xf ∧ startDigit = 0 then [.errPatternMismatch ((g.bitpos + 65536 - 8) % 65536)] else [])
    else (⟨valid, storeCount e (if digits (rep - 1) = 0xf then rep - 1 else rep), digits⟩, g, [])

/-! ### The order of the digits -/

/-- The digit whose place is a nibble of the encoding. -/
def order (startDigit j : Nat) : Nat :=
  if startDigit = 1 then if j % 2 = 0 then j else j - 2
  else if j % 2 = 0 then j + 1 else j - 1

/-- A nibble of the encoding of some digits; the second one is left out when the first digit has an octet for itself. -/
def nibble (startDigit n : Nat) (digits : Nat → BitVec 8) (j : Nat) : Nat :=
  if startDigit = 1 ∧ j = 1 then 0
  else if order startDigit j < n then (digits (order startDigit j)).toNat
  else 0xf

/-- The number of nibbles that some digits take. -/
def nibbles (startDigit n : Nat) : Nat := if startDigit = 1 then 2 * (n / 2 + 1) else 2 * ((n + 1) / 2)

section
variable {s n j k m r p : Nat} {digits d : Nat → BitVec 8} {f : Nat → Nat} {g g' g'' : Globs} {b : Octets}

theorem hop_order (hj : s = 1 → 2 ≤ j) : hop s (order s j) = order s (j + 1) := by
  unfold hop order
  split
  · have := hj ‹_›
    split
    · split <;> omega
    · split <;> split <;> omega
  · split
    · split <;> split <;> omega
    · split <;> split <;> omega

theorem order_inj (hj : s = 1 → 2 ≤ j) (hk : s = 1 → 2 ≤ k) (h : order s j = order s k) : j = k := by
  unfold order at h
  split at h
  · have := hj ‹_›
    have := hk ‹_›
    split at h <;> split at h <;> omega
  · split at h <;> split at h <;> omega

/-! ### What the encoder writes -/

/-- Some nibbles have been written, and nothing behind them. -/
structure Wrote (g g' : Globs) (m : Nat) (f : Nat → Nat) : Prop where
  aligned : Aligned g'
  nibbles : ∀ j, j < m → field g'.bitbuf (g.bitpos + 4 * j) 4 = f j
  bitpos : g'.bitpos = g.bitpos + 4 * m
  zero : ZeroFrom g'.bitbuf g'.bitpos

theorem wrote_nothing (ha : Aligned g) (hz : ZeroFrom g.bitbuf g.bitpos) : Wrote g g 0 f :=
  ⟨ha, fun _ hj => absurd hj (Nat.not_lt_zero _), rfl, hz⟩

theorem Wrote.code {x : BitVec 8} (h : Wrote g g' m f) (hx : x.toNat = f m) (hf : f m < 16)
    (hp : g.bitpos + 4 * (m + 1) < 65536) : Wrote g (codeByteNumber g' 4 x) (m + 1) f := by
  have hpos := h.bitpos
  have hw := codeByteNumber_writes h.aligned h.zero 4 x (by omega) (by omega) (by omega)
  refine ⟨codeByteNumber_aligned, fun j hj => ?_, by rw [hw.bitpos]; omega, hw.zeroFrom h.zero⟩
  if hjm : j = m then
    rw [hjm, ← hpos, hw.written.field, hx]
    exact Nat.mod_eq_of_lt hf
  else
    rw [hw.written.before (by omega)]
    exact h.nibbles j (by omega)

theorem Wrote.skip (h : Wrote g g' m f) (hf : f m = 0) (hp : g.bitpos + 4 * (m + 1) < 65536) :
    Wrote g (incBitpos 4 g') (m + 1) f := by
  have hpos := h.bitpos
  have hend : (g'.bitpos + 4) % 65536 = g'.bitpos + 4 := Nat.mod_eq_of_lt (by omega)
  refine ⟨setBitpos_aligned, fun j hj => ?_, by rw [incBitpos_bitpos]; omega, fun i hi => h.zero i ?_⟩
  · rw [incBitpos_bitbuf]
    if hjm : j = m then
      rw [hjm, hf, ← hpos]
      have hzero : ∀ i, field g'.bitbuf g'.bitpos i = 0 := by
        intro i
        induction i with
        | zero => rfl
        | succ i ih =>
          rw [field_succ, ih, h.zero _ (by omega)]
          rfl
      exact hzero 4
    else exact h.nibbles j (by omega)
  · rw [incBitpos_bitpos] at hi
    omega

private theorem nibble_digit (h : order s j < n) (hj : s = 1 → 2 ≤ j) : nibble s n d j = (d (order s j)).toNat := by
  unfold nibble
  rw [if_neg (by omega), if_pos h]

private theorem nibble_filler (h : order s j = n) (hj : s = 1 → 2 ≤ j) : nibble s n d j = 15 := by
  unfold nibble
  rw [if_neg (by omega), if_neg (by omega)]

private theorem nibble_first (h : 1 ≤ n) : nibble 1 n d 0 = (d 0).toNat := by
  unfold nibble
  rw [if_neg (by omega)]
  exact if_pos h

/-- A digit is written at its place. -/
private theorem Wrote.digit (h : Wrote g g' m (nibble s n d)) (hd : ∀ i, i < n → (d i).toNat < 10) (hm : s = 1 → 2 ≤ m)
    (ho : order s m < n) (hp : g.bitpos + 4 * (m + 1) < 65536) :
    Wrote g (codeByteNumber g' 4 (d (order s m))) (m + 1) (nibble s n d) := by
  have hnib := nibble_digit (d := d) ho hm
  have := hd _ ho
  exact h.code hnib.symm (by omega) hp

private theorem Wrote.filler (h : Wrote g g' m (nibble s n d)) (hm : s = 1 → 2 ≤ m) (ho : order s m = n)
    (hp : g.bitpos + 4 * (m + 1) < 65536) : Wrote g (codeByteNumber g' 4 0xf) (m + 1) (nibble s n d) := by
  have hnib := nibble_filler (d := d) ho hm
  exact h.code (x := 0xf) hnib.symm (by omega) hp

private theorem writeEven_wrote (hs : s ≠ 1) (hd : ∀ i, i < n → (d i).toNat < 10) (h : Wrote g g' m (nibble s n d))
    (ho : ∀ t, m ≤ t → t < m + r → order s t < n) (hp : g.bitpos + 4 * (m + r) < 65536) :
    (writeEven d s (r + 1) (order s m) g').1 = order s (m + r) ∧
      Wrote g (writeEven d s (r + 1) (order s m) g').2 (m + r) (nibble s n d) := by
  induction r generalizing m g' with
  | zero => exact ⟨rfl, h⟩
  | succ r ih =>
    have hnext := h.digit hd (fun h1 => absurd h1 hs) (ho m (by omega) (by omega)) (by omega)
    have hrest := ih hnext (fun t ht ht' => ho t (by omega) (by omega)) (by omega)
    unfold writeEven
    rw [if_pos (by omega), hop_order fun h1 => absurd h1 hs]
    rwa [show m + 1 + r = m + (r + 1) by omega] at hrest

private theorem writeOdd_wrote (hd : ∀ i, i < n → (d i).toNat < 10) (h : Wrote g g' m (nibble 1 n d)) (hm : 2 ≤ m)
    (ho : ∀ t, m ≤ t → t < m + r → order 1 t < n) (hp : g.bitpos + 4 * (m + r) < 65536) :
    (writeOdd d (r + 2) (order 1 m) g').1 = 1 ∧ (writeOdd d (r + 2) (order 1 m) g').2.1 = order 1 (m + r) ∧
      Wrote g (writeOdd d (r + 2) (order 1 m) g').2.2 (m + r) (nibble 1 n d) := by
  induction r generalizing m g' with
  | zero => exact ⟨rfl, rfl, h⟩
  | succ r ih =>
    have hnext := h.digit hd (fun _ => hm) (ho m (by omega) (by omega)) (by omega)
    have hrest := ih hnext (by omega) (fun t ht ht' => ho t (by omega) (by omega)) (by omega)
    unfold writeOdd
    rw [if_pos (by omega), hop_order fun _ => hm]
    rwa [show m + 1 + r = m + (r + 1) by omega] at hrest

/-- A number whose digits can be coded. -/
structure Codable (e : Melem) (startDigit : Nat) (c : Number) : Prop where
  valid : e.optional → c.valid
  pos : 1 ≤ c.count
  le : c.count ≤ e.maxRepeat
  digits : ∀ i, i < c.count → (c.digits i).toNat < 10
  mode : startDigit ≤ 2
  even : startDigit = 2 → c.count % 2 = 0

variable {e : Melem} {c : Number}

private theorem Codable.present (hc : Codable e s c) : (e.optional && !c.valid) = false := by
  cases ho : e.optional with
  | false => rfl
  | true =>
    rw [hc.valid ho]
    rfl

private theorem count_kept (hc : c.count ≤ e.maxRepeat) :
    (if e.maxRepeat > 255 then c.count % 65536 else c.count % 256) = c.count := by
  have := e.repeats
  split <;> omega

private theorem encode_odd (hc : Codable e 1 c) (ha : Aligned g) (hz : ZeroFrom g.bitbuf g.bitpos)
    (hp : g.bitpos + 4 * nibbles 1 c.count < 65536) :
    Wrote g (bcdEncode e 1 c g).1 (nibbles 1 c.count) (nibble 1 c.count c.digits) ∧ (bcdEncode e 1 c g).2 = [] := by
  have hpos := hc.pos
  have hlen : nibbles 1 c.count = 2 * (c.count / 2 + 1) := rfl
  rw [hlen] at hp ⊢
  unfold bcdEncode
  rw [hc.present, if_neg Bool.false_ne_true]
  simp only
  rw [count_kept hc.le, Nat.min_eq_left hc.le, if_neg (Nat.lt_irrefl _), if_neg (by omega), if_pos trivial]
  -- the first digit and the half octet that is left out
  have hfirst : nibble 1 c.count c.digits 0 = (c.digits 0).toNat := nibble_first hpos
  have hdigit := hc.digits 0 hpos
  have htwo : Wrote g (incBitpos 4 (codeByteNumber g 4 (c.digits 0))) 2 (nibble 1 c.count c.digits) :=
    ((wrote_nothing ha hz).code hfirst.symm (by omega) (by omega)).skip rfl (by omega)
  if hone : c.count = 1 then
    rw [hone] at htwo ⊢
    exact ⟨htwo, rfl⟩
  else
    obtain ⟨hrep, hk, hloop⟩ := writeOdd_wrote (r := c.count - 2) hc.digits htwo (by omega)
      (fun t ht ht' => by unfold order; split <;> split <;> omega) (by omega)
    rw [show c.count - 2 + 2 = c.count by omega, show order 1 2 = 2 from rfl] at hrep hk hloop
    rw [show 2 + (c.count - 2) = c.count by omega] at hk hloop
    rw [hrep, hk, if_neg (by omega)]
    split
    · rename_i heven
      have hf := hloop.filler (fun _ => by omega) (by unfold order; rw [if_pos rfl, if_pos heven]) (by omega)
      have hl := hf.digit hc.digits (fun _ => by omega) (by unfold order; rw [if_pos rfl, if_neg (by omega)]; omega) (by omega)
      rw [hop_order fun _ => by omega]
      rw [show 2 * (c.count / 2 + 1) = c.count + 1 + 1 by omega]
      exact ⟨hl, rfl⟩
    · have hl := hloop.digit hc.digits (fun _ => by omega) (by unfold order; rw [if_pos rfl, if_neg (by omega)]; omega) (by omega)
      rw [show 2 * (c.count / 2 + 1) = c.count + 1 by omega]
      exact ⟨hl, rfl⟩

private theorem encode_even (hc : Codable e s c) (hs : s ≠ 1) (ha : Aligned g) (hz : ZeroFrom g.bitbuf g.bitpos)
    (hp : g.bitpos + 4 * nibbles s c.count < 65536) :
    Wrote g (bcdEncode e s c g).1 (nibbles s c.count) (nibble s c.count c.digits) ∧ (bcdEncode e s c g).2 = [] := by
  have hpos := hc.pos
  have hlen : nibbles s c.count = 2 * ((c.count + 1) / 2) := if_neg hs
  rw [hlen] at hp ⊢
  unfold bcdEncode
  rw [hc.present, if_neg Bool.false_ne_true]
  simp only
  rw [count_kept hc.le, Nat.min_eq_left hc.le, if_neg (Nat.lt_irrefl _), if_neg (by omega), if_neg hs]
  have hlater : ∀ m, s = 1 → 2 ≤ m := fun m h1 => absurd h1 hs
  obtain ⟨hk, hloop⟩ := writeEven_wrote (r := c.count - 1) hs hc.digits (wrote_nothing ha hz)
    (fun t ht ht' => by unfold order; rw [if_neg hs]; split <;> omega) (by omega)
  have hstart : order s 0 = 1 := by
    unfold order
    rw [if_neg hs]
    rfl
  rw [show c.count - 1 + 1 = c.count by omega, hstart, Nat.zero_add] at hk hloop
  rw [hk]
  split
  · rename_i hodd
    have hmode : s ≠ 2 := by
      intro htwo
      have := hc.even htwo
      omega
    have hf := hloop.filler (hlater _) (by unfold order; rw [if_neg hs, if_pos (by omega)]; omega) (by omega)
    have hl := hf.digit hc.digits (hlater _) (by unfold order; rw [if_neg hs, if_neg (by omega)]; omega) (by omega)
    rw [hop_order (hlater _), if_pos hmode, show 2 * ((c.count + 1) / 2) = c.count - 1 + 1 + 1 by omega]
    exact ⟨hl, rfl⟩
  · have hl := hloop.digit hc.digits (hlater _) (by unfold order; rw [if_neg hs, if_neg (by omega)]; omega) (by omega)
    rw [show 2 * ((c.count + 1) / 2) = c.count - 1 + 1 by omega]
    exact ⟨hl, rfl⟩

/-- The encoder writes the digits in their order. -/
theorem bcdEncode_wrote (hc : Codable e s c) (ha : Aligned g) (hz : ZeroFrom g.bitbuf g.bitpos)
    (hp : g.bitpos + 4 * nibbles s c.count < 65536) :
    Wrote g (bcdEncode e s c g).1 (nibbles s c.count) (nibble s c.count c.digits) ∧ (bcdEncode e s c g).2 = [] := by
  if hs : s = 1 then
    subst hs
    exact encode_odd hc ha hz hp
  else exact encode_even hc hs ha hz hp

/-! ### What the decoder reads -/

private theorem readDigits_spec (hr : At g b (p + 4 * j)) (hj : s = 1 → 2 ≤ j) (hp : p + 4 * (j + m) < 65536) :
    (∀ t, j ≤ t → t < j + m → (readDigits s m (order s j) d g).1 (order s t) = BitVec.ofNat 8 (field b (p + 4 * t) 4)) ∧
      (∀ x, (∀ t, j ≤ t → t < j + m → order s t ≠ x) → (readDigits s m (order s j) d g).1 x = d x) ∧
      At (readDigits s m (order s j) d g).2 b (p + 4 * (j + m)) := by
  induction m generalizing j d g with
  | zero => exact ⟨fun t ht ht' => absurd ht (by omega), fun _ _ => rfl, hr⟩
  | succ m ih =>
    obtain ⟨hvalue, hnext⟩ := hr.decodeByteNumber 4 (by omega) (by omega)
    rw [show p + 4 * j + 4 = p + 4 * (j + 1) by omega] at hnext
    unfold readDigits
    simp only
    rw [hvalue, hop_order hj]
    obtain ⟨hread, hother, hend⟩ := ih (d := fun i => if i = order s j then BitVec.ofNat 8 (field b (p + 4 * j) 4) else d i) hnext
      (fun h1 => by have := hj h1; omega) (by omega)
    rw [show j + 1 + m = j + (m + 1) by omega] at hread hother hend
    refine ⟨fun t ht ht' => ?_, fun x hx => ?_, hend⟩
    · if htj : t = j then
        rw [htj, hother _ fun u hu _ heq => ?_, if_pos rfl]
        have := order_inj (fun h1 => by have := hj h1; omega) hj heq
        omega
      else exact hread t (by omega) ht'
    · rw [hother x fun t ht ht' => hx t (by omega) ht', if_neg fun heq => hx j (by omega) (by omega) heq.symm]

private theorem calculateRep_eq (maxBitpos : Nat) (h : g.bitpos + 4 * m = maxBitpos) (hp : maxBitpos < 65536) :
    calculateRep e maxBitpos g = min e.maxRepeat m := by
  have hdiff : (maxBitpos : Int) - g.bitpos = ((4 * m : Nat) : Int) := by omega
  unfold calculateRep
  rw [hdiff, e.nibble, ← Int.ofNat_tdiv, Nat.mul_div_cancel_left _ (by omega : 0 < 4)]
  congr 1
  omega

/-- The number has come back, and the decoder is at the end. -/
structure Decoded (c : Number) (stop : Nat) (out : Number × Globs × List Fault) : Prop where
  count : out.1.count = c.count
  digits : ∀ i, i < c.count → out.1.digits i = c.digits i
  bitpos : out.2.1.bitpos = stop
  faults : out.2.2 = []

private theorem ofNat_digit (h : order s j < n) (hj : s = 1 → 2 ≤ j) : BitVec.ofNat 8 (nibble s n d j) = d (order s j) := by
  rw [nibble_digit h hj, BitVec.ofNat_toNat, BitVec.setWidth_eq]

private theorem digit_ne {x : BitVec 8} (h : x.toNat < 10) : x ≠ 0xf := by
  rintro rfl
  exact absurd h (by decide)

private theorem decode_odd {old : Number} (hc : Codable e 1 c) (hr : At g b p)
    (hb : ∀ j, j < nibbles 1 c.count → field b (p + 4 * j) 4 = nibble 1 c.count c.digits j)
    (hp : p + 4 * nibbles 1 c.count < 65536) : Decoded c (p + 4 * nibbles 1 c.count) (bcdDecode e 1 (p + 4 * nibbles 1 c.count) old g) := by
  have hpos := hc.pos
  have hle := hc.le
  have hlen : nibbles 1 c.count = 2 + 2 * (c.count / 2) := by
    unfold nibbles
    rw [if_pos rfl]
    omega
  obtain ⟨hvalue, hnext⟩ := hr.decodeByteNumber 4 (by omega) (by omega)
  have htwo := hnext.incBitpos (n := 4) (by omega)
  rw [show p + 4 + 4 = p + 4 * 2 by omega] at htwo
  have hfirst : field b p 4 = (c.digits 0).toNat := by
    have := hb 0 (by omega)
    rwa [nibble_first hpos] at this
  have hrep := calculateRep_eq (e := e) (g := incBitpos 4 (decodeByteNumber g 4).2) (m := 2 * (c.count / 2))
    (p + 4 * nibbles 1 c.count) (by rw [htwo.bitpos, hlen]; omega) hp
  rw [Nat.min_eq_right (by omega)] at hrep
  obtain ⟨hread, hother, hend⟩ := readDigits_spec (s := 1) (m := 2 * (c.count / 2))
    (d := fun i => if i = 0 then BitVec.ofNat 8 (decodeByteNumber g 4).1 else old.digits i) htwo (fun _ => by omega) (by omega)
  rw [show order 1 2 = 2 from rfl] at hread hother hend
  unfold bcdDecode
  rw [if_pos rfl]
  simp only
  rw [hrep]
  generalize readDigits 1 (2 * (c.count / 2)) 2 (fun i => if i = 0 then BitVec.ofNat 8 (decodeByteNumber g 4).1 else old.digits i)
    (incBitpos 4 (decodeByteNumber g 4).2) = out at *
  have hdigits : ∀ i, i < c.count → out.1 i = c.digits i := by
    intro i hi
    if hzero : i = 0 then
      rw [hzero, hother 0 fun t ht _ => by unfold order; rw [if_pos rfl]; split <;> omega, if_pos rfl, hvalue, hfirst,
        BitVec.ofNat_toNat, BitVec.setWidth_eq]
    else
      obtain ⟨t, ht, ht', ho⟩ : ∃ t, 2 ≤ t ∧ t < 2 + 2 * (c.count / 2) ∧ order 1 t = i := by
        if heven : i % 2 = 0 then
          exact ⟨i, by omega, by omega, by unfold order; rw [if_pos rfl, if_pos heven]⟩
        else
          exact ⟨i + 2, by omega, by omega, by unfold order; rw [if_pos rfl, if_neg (by omega)]; omega⟩
      rw [← ho, hread t ht ht', hb t (by omega), ofNat_digit (by omega) fun _ => ht]
  have hcount : (if 2 * (c.count / 2) % 2 = 0 ∧ out.1 (2 * (c.count / 2)) ≠ 0xf then 2 * (c.count / 2) + 1 else 2 * (c.count / 2)) =
      c.count := by
    if heven : c.count % 2 = 0 then
      have ho : order 1 (2 * (c.count / 2)) = c.count := by
        unfold order
        rw [if_pos rfl, if_pos (by omega)]
        omega
      have hfill : out.1 (2 * (c.count / 2)) = 0xf := by
        have hlast := hread (2 * (c.count / 2)) (by omega) (by omega)
        rw [ho, hb _ (by omega), nibble_filler ho fun _ => by omega] at hlast
        rw [show 2 * (c.count / 2) = c.count by omega, hlast]
        rfl
      rw [if_neg fun h => h.2 hfill]
      omega
    else
      have hlast := hdigits (2 * (c.count / 2)) (by omega)
      rw [if_pos ⟨by omega, by rw [hlast]; exact digit_ne (hc.digits _ (by omega))⟩]
      omega
  rw [hcount]
  refine ⟨count_kept hle, hdigits, ?_, rfl⟩
  rw [hend.bitpos, hlen]

private theorem decode_even {old : Number} (hc : Codable e s c) (hs : s ≠ 1) (hr : At g b p)
    (hb : ∀ j, j < nibbles s c.count → field b (p + 4 * j) 4 = nibble s c.count c.digits j)
    (hp : p + 4 * nibbles s c.count < 65536) : Decoded c (p + 4 * nibbles s c.count) (bcdDecode e s (p + 4 * nibbles s c.count) old g) := by
  have hpos := hc.pos
  have hle := hc.le
  have hlen : nibbles s c.count = 2 * ((c.count + 1) / 2) := if_neg hs
  have hlater : ∀ m, s = 1 → 2 ≤ m := fun m h1 => absurd h1 hs
  have hrep := calculateRep_eq (e := e) (g := g) (m := nibbles s c.count) (p + 4 * nibbles s c.count)
    (by rw [hr.bitpos]) hp
  have hstart : order s 0 = 1 := by
    unfold order
    rw [if_neg hs]
    rfl
  obtain ⟨hread, _, hend⟩ := readDigits_spec (j := 0) (m := nibbles s c.count) (d := old.digits) hr (fun h1 => absurd h1 hs) (by omega)
  rw [hstart, Nat.zero_add] at hread hend
  -- the last nibble belongs to the string although the repetitions end before it
  have hround : (if calculateRep e (p + 4 * nibbles s c.count) g % 2 = 1 then calculateRep e (p + 4 * nibbles s c.count) g + 1
      else calculateRep e (p + 4 * nibbles s c.count) g) = nibbles s c.count := by
    rw [hrep]
    split <;> omega
  unfold bcdDecode
  rw [if_neg hs]
  simp only
  rw [hround]
  generalize readDigits s (nibbles s c.count) 1 old.digits g = out at *
  have hdigits : ∀ i, i < c.count → out.1 i = c.digits i := by
    intro i hi
    obtain ⟨t, ht, ho⟩ : ∃ t, t < nibbles s c.count ∧ order s t = i := by
      if heven : i % 2 = 0 then
        exact ⟨i + 1, by omega, by unfold order; rw [if_neg hs, if_neg (by omega)]; omega⟩
      else
        exact ⟨i - 1, by omega, by unfold order; rw [if_neg hs, if_pos (by omega)]; omega⟩
    rw [← ho, hread t (Nat.zero_le _) ht, hb t ht, ofNat_digit (by omega) (hlater _)]
  have hfiller : c.count % 2 = 1 → out.1 c.count = 0xf := by
    intro hodd
    have ho : order s (c.count - 1) = c.count := by
      unfold order
      rw [if_neg hs, if_pos (by omega)]
      omega
    have hlast := hread (c.count - 1) (Nat.zero_le _) (by omega)
    rw [ho, hb _ (by omega), nibble_filler ho (hlater _)] at hlast
    exact hlast
  rw [hrep]
  split
  · have hn : min e.maxRepeat (nibbles s c.count) = c.count := by omega
    rw [hn, if_neg fun h => h.1 (hfiller (by omega))]
    exact ⟨count_kept hle, hdigits, hend.bitpos, rfl⟩
  · have hcount : (if out.1 (min e.maxRepeat (nibbles s c.count) - 1) = 0xf then min e.maxRepeat (nibbles s c.count) - 1
        else min e.maxRepeat (nibbles s c.count)) = c.count := by
      have hmin : min e.maxRepeat (nibbles s c.count) = nibbles s c.count := by omega
      rw [hmin]
      if hodd : c.count % 2 = 1 then
        have hn : nibbles s c.count - 1 = c.count := by omega
        rw [hn, if_pos (hfiller hodd)]
      else
        have hn : nibbles s c.count = c.count := by omega
        rw [hn, hdigits _ (by omega), if_neg (digit_ne (hc.digits _ (by omega)))]
    rw [hcount]
    exact ⟨count_kept hle, hdigits, hend.bitpos, rfl⟩

/-- The last high nibble of the encoding. -/
private theorem last_high (hc : Codable e s c) :
    nibble s c.count c.digits (nibbles s c.count - 2) = 0xf ↔ if s = 1 then c.count % 2 = 0 else c.count % 2 = 1 := by
  have hpos := hc.pos
  have hdigit : ∀ j, (s = 1 → 2 ≤ j) → order s j < c.count → nibble s c.count c.digits j ≠ 0xf := by
    intro j hj ho
    rw [nibble_digit ho hj]
    have := hc.digits _ ho
    omega
  if hs : s = 1 then
    subst hs
    rw [if_pos rfl, show nibbles 1 c.count - 2 = 2 * (c.count / 2) by unfold nibbles; rw [if_pos rfl]; omega]
    have ho : order 1 (2 * (c.count / 2)) = 2 * (c.count / 2) := by
      unfold order
      rw [if_pos rfl, if_pos (by omega)]
    if heven : c.count % 2 = 0 then exact iff_of_true (nibble_filler (by omega) fun _ => by omega) heven
    else
      refine iff_of_false ?_ heven
      if hone : c.count = 1 then
        have := hc.digits 0 hpos
        rw [hone, nibble_first (by omega)]
        omega
      else exact hdigit _ (fun _ => by omega) (by omega)
  else
    have hlater : ∀ m, s = 1 → 2 ≤ m := fun m h1 => absurd h1 hs
    have hlen : nibbles s c.count = 2 * ((c.count + 1) / 2) := if_neg hs
    have ho : order s (nibbles s c.count - 2) = nibbles s c.count - 1 := by
      unfold order
      rw [if_neg hs, if_pos (by omega)]
      omega
    rw [if_neg hs]
    if hodd : c.count % 2 = 1 then exact iff_of_true (nibble_filler (by omega) (hlater _)) hodd
    else exact iff_of_false (hdigit _ (hlater _) (by omega)) hodd

/-- A number of digits below 10 comes back from its encoding, in each of the modes, and the filler stands in the last high nibble
just when the digits leave it free. -/
theorem bcd_roundTrip (hc : Codable e s c) (ha : Aligned g) (hz : ZeroFrom g.bitbuf g.bitpos)
    (hp : g.bitpos + 4 * nibbles s c.count < 65536) :
    (bcdEncode e s c g).2 = [] ∧ (bcdEncode e s c g).1.bitpos = g.bitpos + 4 * nibbles s c.count ∧
      (field (bcdEncode e s c g).1.bitbuf ((bcdEncode e s c g).1.bitpos - 8) 4 = 0xf ↔
        if s = 1 then c.count % 2 = 0 else c.count % 2 = 1) ∧
      ∀ old r, At r (bcdEncode e s c g).1.bitbuf g.bitpos →
        Decoded c (bcdEncode e s c g).1.bitpos (bcdDecode e s (bcdEncode e s c g).1.bitpos old r) := by
  obtain ⟨hwrote, hfaults⟩ := bcdEncode_wrote hc ha hz hp
  have hpos := hc.pos
  have htwo : 2 ≤ nibbles s c.count := by
    unfold nibbles
    split <;> omega
  refine ⟨hfaults, hwrote.bitpos, ?_, fun old r hr => ?_⟩
  · rw [hwrote.bitpos, show g.bitpos + 4 * nibbles s c.count - 8 = g.bitpos + 4 * (nibbles s c.count - 2) by omega,
      hwrote.nibbles _ (by omega)]
    exact last_high hc
  · rw [hwrote.bitpos]
    if hs : s = 1 then
      subst hs
      exact decode_odd hc hr hwrote.nibbles hp
    else exact decode_even hc hs hr hwrote.nibbles hp

/-- A number of up to three digits, and the digits 1, 2 and 3. -/
def threeDigits : Melem × Number := (⟨3, true, 4, by decide, rfl⟩, ⟨true, 3, fun i => BitVec.ofNat 8 (i + 1)⟩)

private theorem threeDigits_codable : Codable threeDigits.1 0 threeDigits.2 :=
  ⟨fun _ => rfl, by decide, by decide, by decide, by decide, fun h => absurd h (by decide)⟩

theorem threeDigits_back : Decoded threeDigits.2 24 (bcdDecode threeDigits.1 0 24 ⟨true, 0, fun _ => 0⟩
    (commonDecodeInit (bcdEncode threeDigits.1 0 threeDigits.2 (blank 8)).1.bitbuf 8)) := by
  have hback := bcd_roundTrip (g := blank 8) threeDigits_codable setBitpos_aligned blank_zero (by decide)
  have hend : (bcdEncode threeDigits.1 0 threeDigits.2 (blank 8)).1.bitpos = 24 := hback.2.1
  rw [← hend]
  exact hback.2.2.2 ⟨true, 0, fun _ => 0⟩ _ (commonDecodeInit_at (by decide))

end

end Citrine.Bf
