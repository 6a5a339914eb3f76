import Mathlib.Data.List.GetD
import Mathlib.Tactic.IntervalCases
import Citrine.Lib.Feistel

/-!
# Enciphering with DES

`cl_des.c`: one block of eight octets is enciphered or deciphered.  The arrays of single bits are vectors of truth
values, the tables count from 1 as in the source.  Deciphering goes through the rounds of `Citrine.Feistel` with the keys
in reverse order, so that it gives back what was enciphered (`clDes_inverse`), and with every bit of key and block
turned round the enciphered block is turned round as well (`clDes_complement`).
-/

namespace Citrine.Comlib.Des

open Feistel

/-- An array of single bits. -/
abbrev Bits (n : Nat) := Vector Bool n

/-- The eight octets of a message or a key. -/
abbrev Block := Vector (BitVec 8) 8

/-- `CL_DES_ENCRYPTION` -/
def desEncryption : BitVec 8 := 1

/-- `CL_DES_DECRYPTION` -/
def desDecryption : BitVec 8 := 2

/-! ### The tables -/

/-- `shtamt` -/
def shtamt : List Nat := [
  1, 1, 2, 2, 2, 2, 2, 2, 1, 2, 2, 2, 2, 2, 2, 1]

/-- `iporder` -/
def iporder : List Nat := [
  58, 50, 42, 34, 26, 18, 10, 2, 60, 52, 44, 36, 28, 20, 12, 4, 62, 54, 46, 38, 30, 22, 14, 6, 64, 56, 48, 40,
  32, 24, 16, 8, 57, 49, 41, 33, 25, 17, 9, 1, 59, 51, 43, 35, 27, 19, 11, 3, 61, 53, 45, 37, 29, 21, 13, 5,
  63, 55, 47, 39, 31, 23, 15, 7]

/-- `pc1` -/
def pc1 : List Nat := [
  57, 49, 41, 33, 25, 17, 9, 1, 58, 50, 42, 34, 26, 18, 10, 2, 59, 51, 43, 35, 27, 19, 11, 3, 60, 52, 44, 36,
  63, 55, 47, 39, 31, 23, 15, 7, 62, 54, 46, 38, 30, 22, 14, 6, 61, 53, 45, 37, 29, 21, 13, 5, 28, 20, 12, 4]

/-- `pc2` -/
def pc2 : List Nat := [
  14, 17, 11, 24, 1, 5, 3, 28, 15, 6, 21, 10, 23, 19, 12, 4, 26, 8, 16, 7, 27, 20, 13, 2, 41, 52, 31, 37, 47,
  55, 30, 40, 51, 45, 33, 48, 44, 49, 39, 56, 34, 53, 46, 42, 50, 36, 29, 32]

/-- `e` -/
def expansion : List Nat := [
  32, 1, 2, 3, 4, 5, 4, 5, 6, 7, 8, 9, 8, 9, 10, 11, 12, 13, 12, 13, 14, 15, 16, 17, 16, 17, 18, 19, 20, 21,
  20, 21, 22, 23, 24, 25, 24, 25, 26, 27, 28, 29, 28, 29, 30, 31, 32, 1]

/-- `sp` -/
def sp : List Nat := [
  16, 7, 20, 21, 29, 12, 28, 17, 1, 15, 23, 26, 5, 18, 31, 10, 2, 8, 24, 14, 32, 27, 3, 9, 19, 13, 30, 6, 22,
  11, 4, 25]

/-- `ipinv` -/
def ipinv : List Nat := [
  40, 8, 48, 16, 56, 24, 64, 32, 39, 7, 47, 15, 55, 23, 63, 31, 38, 6, 46, 14, 54, 22, 62, 30, 37, 5, 45, 13,
  53, 21, 61, 29, 36, 4, 44, 12, 52, 20, 60, 28, 35, 3, 43, 11, 51, 19, 59, 27, 34, 2, 42, 10, 50, 18, 58, 26,
  33, 1, 41, 9, 49, 17, 57, 25]

/-- `s`, without the two entries that the source leaves at 0 in every row -/
def sbox : List (List Nat) := [
  [14, 4, 13, 1, 2, 15, 11, 8, 3, 10, 6, 12, 5, 9, 0, 7, 0, 15, 7, 4, 14, 2, 13, 1, 10, 6, 12, 11, 9, 5, 3, 8,
   4, 1, 14, 8, 13, 6, 2, 11, 15, 12, 9, 7, 3, 10, 5, 0, 15, 12, 8, 2, 4, 9, 1, 7, 5, 11, 3, 14, 10, 0, 6, 13],
  [15, 1, 8, 14, 6, 11, 3, 4, 9, 7, 2, 13, 12, 0, 5, 10, 3, 13, 4, 7, 15, 2, 8, 14, 12, 0, 1, 10, 6, 9, 11, 5,
   0, 14, 7, 11, 10, 4, 13, 1, 5, 8, 12, 6, 9, 3, 2, 15, 13, 8, 10, 1, 3, 15, 4, 2, 11, 6, 7, 12, 0, 5, 14, 9],
  [10, 0, 9, 14, 6, 3, 15, 5, 1, 13, 12, 7, 11, 4, 2, 8, 13, 7, 0, 9, 3, 4, 6, 10, 2, 8, 5, 14, 12, 11, 15, 1,
   13, 6, 4, 9, 8, 15, 3, 0, 11, 1, 2, 12, 5, 10, 14, 7, 1, 10, 13, 0, 6, 9, 8, 7, 4, 15, 14, 3, 11, 5, 2, 12],
  [7, 13, 14, 3, 0, 6, 9, 10, 1, 2, 8, 5, 11, 12, 4, 15, 13, 8, 11, 5, 6, 15, 0, 3, 4, 7, 2, 12, 1, 10, 14, 9,
   10, 6, 9, 0, 12, 11, 7, 13, 15, 1, 3, 14, 5, 2, 8, 4, 3, 15, 0, 6, 10, 1, 13, 8, 9, 4, 5, 11, 12, 7, 2, 14],
  [2, 12, 4, 1, 7, 10, 11, 6, 8, 5, 3, 15, 13, 0, 14, 9, 14, 11, 2, 12, 4, 7, 13, 1, 5, 0, 15, 10, 3, 9, 8, 6,
   4, 2, 1, 11, 10, 13, 7, 8, 15, 9, 12, 5, 6, 3, 0, 14, 11, 8, 12, 7, 1, 14, 2, 13, 6, 15, 0, 9, 10, 4, 5, 3],
  [12, 1, 10, 15, 9, 2, 6, 8, 0, 13, 3, 4, 14, 7, 5, 11, 10, 15, 4, 2, 7, 12, 9, 5, 6, 1, 13, 14, 0, 11, 3, 8,
   9, 14, 15, 5, 2, 8, 12, 3, 7, 0, 4, 10, 1, 13, 11, 6, 4, 3, 2, 12, 9, 5, 15, 10, 11, 14, 1, 7, 6, 0, 8, 13],
  [4, 11, 2, 14, 15, 0, 8, 13, 3, 12, 9, 7, 5, 10, 6, 1, 13, 0, 11, 7, 4, 9, 1, 10, 14, 3, 5, 12, 2, 15, 8, 6,
   1, 4, 11, 13, 12, 3, 7, 14, 10, 15, 6, 8, 0, 5, 9, 2, 6, 11, 13, 8, 1, 4, 10, 7, 9, 5, 0, 15, 14, 2, 3, 12],
  [13, 2, 8, 4, 6, 15, 11, 1, 10, 9, 3, 14, 5, 0, 12, 7, 1, 15, 13, 8, 10, 3, 7, 4, 12, 5, 6, 11, 0, 14, 9, 2,
   7, 11, 4, 1, 9, 12, 14, 2, 0, 6, 10, 13, 15, 3, 5, 8, 2, 1, 14, 7, 4, 10, 8, 13, 15, 12, 9, 0, 3, 5, 6, 11]]

/-! ### The functions -/

variable {m n : Nat}

/-- The bits at the places that a table names. -/
def pick (table : List Nat) (b : Bits n) : Bits m := Vector.ofFn fun z => b.getD (table.getD z 0 - 1) false

/-- `des_hex2bin8`, for all octets of a block -/
def desHex2bin8 (hex : Block) : Bits 64 := Vector.ofFn fun i => (hex.getD (i / 8) 0).getMsbD (i % 8)

/-- `des_hex2bin4`: the bit `j` of the four -/
def desHex2bin4 (hex j : Nat) : Bool := hex.testBit (3 - j)

/-- A bit as an octet. -/
def bit (b : Bool) : BitVec 8 := if b then 1 else 0

/-- `des_bin2hex`, for the eight bits from the place `p` on -/
def desBin2hex (b : Bits n) (p : Nat) : BitVec 8 :=
  let m i := bit (b.getD (p + i) false)
  m 0 <<< 7 ||| m 1 <<< 6 ||| m 2 <<< 5 ||| m 3 <<< 4 ||| m 4 <<< 3 ||| m 5 <<< 2 ||| m 6 <<< 1 ||| m 7

/-- `des_shift` -/
def desShift (src : Bits 56) (sht : Nat) : Bits 56 :=
  Vector.ofFn fun i : Fin 56 =>
    let at' k := src.getD k false
    if i.1 < 28 - sht ∨ 28 ≤ i.1 ∧ i.1 < 56 - sht then at' (i + sht)
    else if sht = 1 then if i.1 = 27 then at' 0 else at' 28
    else if i.1 = 26 then at' 0
    else if i.1 = 27 then at' 1
    else if i.1 = 54 then at' 28
    else at' 29

/-- `des_indx`, for the six bits from the place `p` on -/
def desIndx (b : Bits n) (p : Nat) : Nat :=
  let m i := (b.getD (p + i) false).toNat
  (m 0 * 2 + m 5) * 16 + (m 1 * 8 + m 2 * 4 + m 3 * 2 + m 4)

/-- The subkeys, from the halves `cd` and the amounts they are still to be shifted by. -/
def subkeys (cd : Bits 56) : List Nat → List (Bits 48)
  | [] => []
  | sht :: rest => pick pc2 (desShift cd sht) :: subkeys (desShift cd sht) rest

/-- The sixteen subkeys of a key. -/
def deskey (key : Block) : List (Bits 48) := subkeys (pick pc1 (desHex2bin8 key)) shtamt

/-- What a round adds to the left half: the expanded right half with the subkey, through the S boxes and permuted. -/
def scramble (key : Bits 48) (r : Bits 32) : Bits 32 :=
  let xorres : Bits 48 := Vector.ofFn fun z => (pick expansion r : Bits 48).getD z false != key.getD z false
  let scale : Bits 32 := Vector.ofFn fun z =>
    desHex2bin4 ((sbox.getD (z / 4) []).getD (desIndx xorres (z / 4 * 6)) 0) (z % 4)
  pick sp scale

/-- Two halves, bit by bit. -/
def xor (a b : Bits 32) : Bits 32 := Vector.ofFn fun z => a.getD z false != b.getD z false

/-- Step 2 of `cl_des`, with the keys in the order in which the rounds use them. -/
def encode (keys : List (Bits 48)) (msg : Block) : Block :=
  let ip : Bits 64 := pick iporder (desHex2bin8 msg)
  let lr : Bits 32 × Bits 32 := (Vector.ofFn fun y => ip.getD y false, Vector.ofFn fun y => ip.getD (y + 32) false)
  let (l, r) := rounds xor scramble keys lr
  let rl : Bits 64 := Vector.ofFn fun z => if z.1 < 32 then r.getD z false else l.getD (z - 32) false
  let encpt : Bits 64 := pick ipinv rl
  Vector.ofFn fun z => desBin2hex encpt (8 * z)

/-- `cl_des` -/
def clDes (inMsg key : Block) (code : BitVec 8) : Block :=
  encode ((List.range 16).map fun y =>
    (deskey key).getD (if code = desEncryption then y else 15 - y) (Vector.replicate 48 false)) inMsg

/-! ### Deciphering -/

private theorem getD_of_lt {v : Vector α n} {d : α} {i : Nat} (h : i < n) : v.getD i d = v[i] := by
  have hs : i < v.toArray.size := by rwa [v.size_toArray]
  exact dif_pos hs

private theorem ofFn_getD (f : Fin n → α) {d : α} {i : Nat} (h : i < n) : (Vector.ofFn f).getD i d = f ⟨i, h⟩ := by
  rw [getD_of_lt h, Vector.getElem_ofFn]

theorem xor_xor (a b : Bits 32) : xor (xor a b) b = a := by
  refine Vector.ext fun i hi => ?_
  unfold xor
  rw [Vector.getElem_ofFn, ofFn_getD _ hi, getD_of_lt hi, getD_of_lt hi]
  cases a[i] <;> cases b[i] <;> rfl

/-- The initial permutation undoes the final one. -/
private theorem pick_inverse (b : Bits 64) : (pick iporder (pick ipinv b : Bits 64) : Bits 64) = b := by
  have htable : ∀ z : Fin 64, iporder.getD z 0 - 1 < 64 ∧ ipinv.getD (iporder.getD z 0 - 1) 0 - 1 = z := by decide
  refine Vector.ext fun i hi => ?_
  unfold pick
  obtain ⟨hlt, heq⟩ := htable ⟨i, hi⟩
  rw [Vector.getElem_ofFn, ofFn_getD _ hlt, heq, getD_of_lt hi]

/-- The final permutation undoes the initial one. -/
private theorem pick_inverse' (b : Bits 64) : (pick ipinv (pick iporder b : Bits 64) : Bits 64) = b := by
  have htable : ∀ z : Fin 64, ipinv.getD z 0 - 1 < 64 ∧ iporder.getD (ipinv.getD z 0 - 1) 0 - 1 = z := by decide
  refine Vector.ext fun i hi => ?_
  unfold pick
  obtain ⟨hlt, heq⟩ := htable ⟨i, hi⟩
  rw [Vector.getElem_ofFn, ofFn_getD _ hlt, heq, getD_of_lt hi]

private theorem desBin2hex_msb {b : Bits n} {p i : Nat} (hi : i < 8) :
    (desBin2hex b p).getMsbD i = b.getD (p + i) false := by
  have hbits : ∀ m0 m1 m2 m3 m4 m5 m6 m7 : Bool,
      ∀ i : Fin 8, (bit m0 <<< 7 ||| bit m1 <<< 6 ||| bit m2 <<< 5 ||| bit m3 <<< 4 ||| bit m4 <<< 3 ||| bit m5 <<< 2 |||
        bit m6 <<< 1 ||| bit m7).getMsbD i = [m0, m1, m2, m3, m4, m5, m6, m7].getD i false := by decide
  have h := hbits (b.getD (p + 0) false) (b.getD (p + 1) false) (b.getD (p + 2) false) (b.getD (p + 3) false)
    (b.getD (p + 4) false) (b.getD (p + 5) false) (b.getD (p + 6) false) (b.getD (p + 7) false) ⟨i, hi⟩
  refine h.trans ?_
  interval_cases i <;> rfl

/-- The octets of a block, put together from bits. -/
private def octets (b : Bits 64) : Block := Vector.ofFn fun z => desBin2hex b (8 * z)

private theorem bits_octets (b : Bits 64) : desHex2bin8 (octets b) = b := by
  refine Vector.ext fun i hi => ?_
  unfold desHex2bin8 octets
  rw [Vector.getElem_ofFn, ofFn_getD _ (by omega), desBin2hex_msb (Nat.mod_lt _ (by omega)),
    Nat.div_add_mod, getD_of_lt hi]

private theorem octets_bits (msg : Block) : octets (desHex2bin8 msg) = msg := by
  refine Vector.ext fun z hz => ?_
  unfold octets desHex2bin8
  rw [Vector.getElem_ofFn]
  refine BitVec.eq_of_getMsbD_eq fun i hi => ?_
  rw [desBin2hex_msb hi, ofFn_getD _ (by omega), getD_of_lt (by omega)]
  simp only
  rw [show (8 * z + i) % 8 = i by omega]
  congr 2
  omega

/-- The halves of a block. -/
private def halves (b : Bits 64) : Bits 32 × Bits 32 :=
  (Vector.ofFn fun y => b.getD y false, Vector.ofFn fun y => b.getD (y + 32) false)

/-- A block of two halves, in reverse order. -/
private def joined (lr : Bits 32 × Bits 32) : Bits 64 :=
  Vector.ofFn fun z => if z.1 < 32 then lr.2.getD z false else lr.1.getD (z - 32) false

private theorem halves_joined (lr : Bits 32 × Bits 32) : halves (joined lr) = lr.swap := by
  unfold halves joined
  refine Prod.ext (Vector.ext fun i hi => ?_) (Vector.ext fun i hi => ?_)
  · rw [Vector.getElem_ofFn, ofFn_getD _ (by omega), if_pos hi, getD_of_lt hi]
    rfl
  · rw [Vector.getElem_ofFn, ofFn_getD _ (by omega), if_neg (by simp), getD_of_lt (by simp; omega)]
    simp

private theorem joined_halves (b : Bits 64) : joined (halves b).swap = b := by
  unfold joined halves
  refine Vector.ext fun i hi => ?_
  rw [Vector.getElem_ofFn]
  simp only [Prod.fst_swap, Prod.snd_swap]
  split
  · rename_i h
    rw [ofFn_getD _ h, getD_of_lt hi]
  · rename_i h
    rw [ofFn_getD _ (by omega), getD_of_lt (by simp only; omega)]
    congr 1
    simp only
    omega

private theorem encode_eq (keys : List (Bits 48)) (msg : Block) :
    encode keys msg = octets (pick ipinv (joined (rounds xor scramble keys (halves (pick iporder (desHex2bin8 msg)))))) :=
  rfl

/-- The rounds with the keys in reverse order decipher. -/
theorem encode_reverse (keys : List (Bits 48)) (msg : Block) : encode keys.reverse (encode keys msg) = msg := by
  rw [encode_eq, encode_eq, bits_octets, pick_inverse, halves_joined, rounds_reverse xor_xor, joined_halves,
    pick_inverse', octets_bits]

private theorem length_deskey (key : Block) : (deskey key).length = 16 := rfl

private theorem order_encryption (key : Block) (d : Bits 48) :
    ((List.range 16).map fun y => (deskey key).getD (if desEncryption = desEncryption then y else 15 - y) d) = deskey key := by
  refine List.ext_getElem (by rw [List.length_map, List.length_range, length_deskey]) fun i hi hk => ?_
  rw [List.getElem_map, List.getElem_range, if_pos rfl, List.getD_eq_getElem _ _ hk]

private theorem order_decryption (key : Block) {code : BitVec 8} (h : code ≠ desEncryption) (d : Bits 48) :
    ((List.range 16).map fun y => (deskey key).getD (if code = desEncryption then y else 15 - y) d) = (deskey key).reverse := by
  have hlen := length_deskey key
  refine List.ext_getElem (by rw [List.length_map, List.length_range, List.length_reverse, hlen]) fun i hi hk => ?_
  rw [List.getElem_map, List.getElem_range, if_neg h, List.getElem_reverse, List.getD_eq_getElem _ _ (by omega)]
  congr 1

/-- `CL_DES_ENCRYPTION` and any other code are inverse to each other: what one of them makes of a block, the other makes the
block of again. -/
theorem clDes_inverse (msg key : Block) (code : BitVec 8) (h : code ≠ desEncryption) :
    clDes (clDes msg key desEncryption) key code = msg ∧ clDes (clDes msg key code) key desEncryption = msg := by
  unfold clDes
  rw [order_encryption, order_decryption key h]
  refine ⟨encode_reverse _ msg, ?_⟩
  have hback := encode_reverse (deskey key).reverse msg
  rwa [List.reverse_reverse] at hback

theorem clDes_inverse_decryption (msg key : Block) :
    clDes (clDes msg key desEncryption) key desDecryption = msg ∧
      clDes (clDes msg key desDecryption) key desEncryption = msg :=
  clDes_inverse msg key desDecryption (by decide)

/-! ### Turning all bits round -/

/-- All bits turned round. -/
def Bits.not (b : Bits n) : Bits n := b.map (!·)

/-- All bits of a block turned round. -/
def complement (msg : Block) : Block := msg.map (~~~·)

private theorem not_getD {b : Bits n} {i : Nat} (h : i < n) : b.not.getD i false = !b.getD i false := by
  rw [getD_of_lt h, getD_of_lt h]
  exact Vector.getElem_map _ h

private theorem pick_not {table : List Nat} {b : Bits n} (h : ∀ z : Fin m, table.getD z 0 - 1 < n) :
    (pick table b.not : Bits m) = (pick table b : Bits m).not := by
  refine Vector.ext fun i hi => ?_
  unfold pick Bits.not
  rw [Vector.getElem_map, Vector.getElem_ofFn, Vector.getElem_ofFn]
  exact not_getD (h ⟨i, hi⟩)

private theorem desHex2bin8_complement (msg : Block) : desHex2bin8 (complement msg) = (desHex2bin8 msg).not := by
  refine Vector.ext fun i hi => ?_
  unfold desHex2bin8 complement Bits.not
  rw [Vector.getElem_map, Vector.getElem_ofFn, Vector.getElem_ofFn, getD_of_lt (by simp only; omega),
    getD_of_lt (by simp only; omega), Vector.getElem_map, BitVec.getMsbD_not]
  simp only [Nat.mod_lt i (show 8 > 0 by omega), decide_true, Bool.true_and]

private theorem octets_not (b : Bits 64) : octets b.not = complement (octets b) := by
  rw [← octets_bits (complement (octets b)), desHex2bin8_complement, bits_octets]

private theorem desShift_not (b : Bits 56) (sht : Nat) : desShift b.not sht = (desShift b sht).not := by
  refine Vector.ext fun i hi => ?_
  unfold desShift
  simp only [Bits.not, Vector.getElem_map, Vector.getElem_ofFn]
  have hnot {k : Nat} (hk : k < 56) : (b.map (!·)).getD k false = !b.getD k false := not_getD hk
  split
  · exact hnot (by omega)
  · split
    · split
      · exact hnot (by omega)
      · exact hnot (by omega)
    · split
      · exact hnot (by omega)
      · split
        · exact hnot (by omega)
        · split
          · exact hnot (by omega)
          · exact hnot (by omega)

private theorem subkeys_not (cd : Bits 56) (shts : List Nat) : subkeys cd.not shts = (subkeys cd shts).map Bits.not := by
  induction shts generalizing cd with
  | nil => rfl
  | cons sht rest ih =>
    unfold subkeys
    rw [desShift_not, pick_not (by decide), ih]
    rfl

private theorem deskey_complement (key : Block) : deskey (complement key) = (deskey key).map Bits.not := by
  unfold deskey
  rw [desHex2bin8_complement, pick_not (by decide)]
  exact subkeys_not _ _

/-- A round does not see that key and right half are turned round. -/
private theorem scramble_not (key : Bits 48) (r : Bits 32) : scramble key.not r.not = scramble key r := by
  have hxor (z : Fin 48) : ((pick expansion r.not : Bits 48).getD z false != key.not.getD z false) =
      ((pick expansion r : Bits 48).getD z false != key.getD z false) := by
    rw [pick_not (by decide), not_getD z.2, not_getD z.2]
    cases (pick expansion r : Bits 48).getD z false <;> cases key.getD z false <;> rfl
  unfold scramble
  simp only [hxor]

private theorem xor_not (a b : Bits 32) : xor a.not b = (xor a b).not := by
  refine Vector.ext fun i hi => ?_
  unfold xor Bits.not
  rw [Vector.getElem_map, Vector.getElem_ofFn, Vector.getElem_ofFn]
  have hnot : (a.map (!·)).getD i false = !a.getD i false := not_getD hi
  rw [hnot]
  cases a.getD i false <;> cases b.getD i false <;> rfl

private theorem halves_not (b : Bits 64) : halves b.not = (halves b).map Bits.not Bits.not := by
  unfold halves
  refine Prod.ext (Vector.ext fun i hi => ?_) (Vector.ext fun i hi => ?_)
  · simp only [Prod.map, Bits.not, Vector.getElem_map, Vector.getElem_ofFn]
    exact not_getD (by omega)
  · simp only [Prod.map, Bits.not, Vector.getElem_map, Vector.getElem_ofFn]
    exact not_getD (by omega)

private theorem joined_not (lr : Bits 32 × Bits 32) : joined (lr.map Bits.not Bits.not) = (joined lr).not := by
  unfold joined
  refine Vector.ext fun i hi => ?_
  simp only [Prod.map, Bits.not, Vector.getElem_map, Vector.getElem_ofFn]
  split
  · rename_i h
    exact not_getD h
  · exact not_getD (by omega)

private theorem encode_complement (keys : List (Bits 48)) (msg : Block) :
    encode (keys.map Bits.not) (complement msg) = complement (encode keys msg) := by
  rw [encode_eq, encode_eq, desHex2bin8_complement, pick_not (by decide), halves_not, rounds_map scramble_not xor_not,
    joined_not, pick_not (by decide), octets_not]

/-- With all bits of message and key turned round, all bits of the result are turned round. -/
theorem clDes_complement (msg key : Block) (code : BitVec 8) :
    clDes (complement msg) (complement key) code = complement (clDes msg key code) := by
  unfold clDes
  by_cases h : code = desEncryption
  · subst h
    rw [order_encryption, order_encryption, deskey_complement, encode_complement]
  · rw [order_decryption _ h, order_decryption _ h, deskey_complement, ← List.map_reverse, encode_complement]

end Citrine.Comlib.Des
