import Mathlib.Algebra.Group.Nat.Defs
import Mathlib.Data.Nat.Basic
import Citrine.Lib.Absorb
import Citrine.Lib.While

/-!
# Message digests

`cl_md5.c` computes the digest of a message that lies in memory as a whole, and writes the padding of the last block itself.
A message of at least 64 octets whose last block is filled to 56 octets or more is given no block for the padding: what
`cl_md5` takes in of it (`taken`) ends with the 56th octet of that block and the length, whatever follows (`clMd5_taken`).
-/

namespace Citrine.Comlib.Md5

open Absorb

/-- One octet. -/
abbrev Byte := BitVec 8

/-- `UINT` -/
abbrev Word := BitVec 32

/-- The four words `state` of `MD5_CTX`. -/
structure Words where
  a : Word
  b : Word
  c : Word
  d : Word
  deriving DecidableEq, Repr

/-! ### The functions -/

/-- `F` -/
def f (x y z : Word) : Word := x &&& y ||| ~~~x &&& z

/-- `G` -/
def g (x y z : Word) : Word := x &&& z ||| y &&& ~~~z

/-- `H` -/
def h (x y z : Word) : Word := x ^^^ y ^^^ z

/-- `I` -/
def i (x y z : Word) : Word := y ^^^ (x ||| ~~~z)

/-- `ROTATE_LEFT` -/
def rotateLeft' (x : Word) (n : Nat) : Word := x <<< n ||| x >>> (32 - n)

/-- `cl_md5_enc` -/
def clMd5Enc (input : List Word) : List Byte :=
  input.flatMap fun w : Word => [w.setWidth 8, (w >>> 8).setWidth 8, (w >>> 16).setWidth 8, (w >>> 24).setWidth 8]

/-- `cl_md5_dec`: the word `k` of the input -/
def clMd5Dec (input : List Byte) (k : Nat) : Word :=
  let at' j := (input.getD (4 * k + j) 0).setWidth 32
  at' 0 ||| at' 1 <<< 8 ||| at' 2 <<< 16 ||| at' 3 <<< 24

/-- The rounds of `cl_md5_transform`: the basic function, the four rotations used in turn, and for each step the index of
the word and the constant. -/
def steps : List ((Word → Word → Word → Word) × List Nat × List (Nat × Word)) := [
  (f, [7, 12, 17, 22], [
    (0, 0xd76aa478), (1, 0xe8c7b756), (2, 0x242070db), (3, 0xc1bdceee),
    (4, 0xf57c0faf), (5, 0x4787c62a), (6, 0xa8304613), (7, 0xfd469501),
    (8, 0x698098d8), (9, 0x8b44f7af), (10, 0xffff5bb1), (11, 0x895cd7be),
    (12, 0x6b901122), (13, 0xfd987193), (14, 0xa679438e), (15, 0x49b40821)]),
  (g, [5, 9, 14, 20], [
    (1, 0xf61e2562), (6, 0xc040b340), (11, 0x265e5a51), (0, 0xe9b6c7aa),
    (5, 0xd62f105d), (10, 0x2441453), (15, 0xd8a1e681), (4, 0xe7d3fbc8),
    (9, 0x21e1cde6), (14, 0xc33707d6), (3, 0xf4d50d87), (8, 0x455a14ed),
    (13, 0xa9e3e905), (2, 0xfcefa3f8), (7, 0x676f02d9), (12, 0x8d2a4c8a)]),
  (h, [4, 11, 16, 23], [
    (5, 0xfffa3942), (8, 0x8771f681), (11, 0x6d9d6122), (14, 0xfde5380c),
    (1, 0xa4beea44), (4, 0x4bdecfa9), (7, 0xf6bb4b60), (10, 0xbebfbc70),
    (13, 0x289b7ec6), (0, 0xeaa127fa), (3, 0xd4ef3085), (6, 0x4881d05),
    (9, 0xd9d4d039), (12, 0xe6db99e5), (15, 0x1fa27cf8), (2, 0xc4ac5665)]),
  (i, [6, 10, 15, 21], [
    (0, 0xf4292244), (7, 0x432aff97), (14, 0xab9423a7), (5, 0xfc93a039),
    (12, 0x655b59c3), (3, 0x8f0ccc92), (10, 0xffeff47d), (1, 0x85845dd1),
    (8, 0x6fa87e4f), (15, 0xfe2ce6e0), (6, 0xa3014314), (13, 0x4e0811a1),
    (4, 0xf7537e82), (11, 0xbd3af235), (2, 0x2ad7d2bb), (9, 0xeb86d391)])]

/-- `FF`, `GG`, `HH` and `II`; the source names the words round one place further with every step. -/
def step (fn : Word → Word → Word → Word) (s : Words) (x : Word) (shift : Nat) (ac : Word) : Words :=
  ⟨s.d, rotateLeft' (s.a + (fn s.b s.c s.d + x + ac)) shift + s.b, s.b, s.c⟩

/-- `cl_md5_transform` -/
def clMd5Transform (state : Words) (block : List Byte) : Words :=
  let s := steps.foldl (fun s (fn, shifts, entries) =>
    entries.zipIdx.foldl (fun s ((k, ac), n) => step fn s (clMd5Dec block k) (shifts.getD (n % 4) 0) ac) s) state
  ⟨state.a + s.a, state.b + s.b, state.c + s.c, state.d + s.d⟩

/-- The magic initialization constants. -/
def start : Words := ⟨0x67452301, 0xefcdab89, 0x98badcfe, 0x10325476⟩

/-- `memcpy` and `memset` into a buffer. -/
def put (buf : List Byte) (p : Nat) (l : List Byte) : List Byte := buf.take p ++ l ++ buf.drop (p + l.length)

/-- The four words as octets. -/
def digest (s : Words) : List Byte := clMd5Enc [s.a, s.b, s.c, s.d]

/-- `PROCESS_MSG` -/
def processMsg (buffer : List Byte) (state : Words) (bits : List Byte) : List Byte :=
  digest (clMd5Transform state (put buffer 56 bits))

/-- `strlen` of the octets of a string and what lies behind them -/
def strlen (input : List Byte) : Nat := (input.takeWhile (· ≠ 0)).length

/-- `cl_md5`: the octets of the digest; `junk` is what the buffer on the stack happens to hold. -/
def clMd5 (input : List Byte) (len : Word) (junk : List Byte) : List Byte :=
  let len := if len = 0 then BitVec.ofNat 32 (strlen input) else len
  let count0 := len <<< 3
  let count1 := (if count0 < len <<< 3 then 1 else 0 : Word) + len >>> 29
  let bits := clMd5Enc [count0, count1]
  let n := len.toNat
  if n < 56 then
    let buffer := put (put (put junk 0 (input.take n)) n [0x80]) (n + 1) (List.replicate (55 - n) 0)
    processMsg buffer start bits
  else if n < 64 then
    let buffer := put (put (put junk 0 (input.take n)) n [0x80]) (n + 1) (List.replicate (63 - n) 0)
    let state := clMd5Transform start buffer
    processMsg (put buffer 0 (List.replicate 56 0)) state bits
  else
    let buffer := put junk 0 (input.take 64)
    let first := clMd5Transform start buffer
    let (ind, state) :=
      if 120 ≤ n then
        While.loop (fun (ind, _) => decide (ind + 63 < n))
          (fun (ind, state) => (ind + 64, clMd5Transform state ((input.drop ind).take 64))) n (64, first)
      else (64, first)
    let buffer := put (put buffer 0 ((input.drop ind).take (n - ind))) (n - ind) [0x80]
    let buffer := if n - ind ≤ 55 then put buffer (n - ind + 1) (List.replicate (55 - (n - ind)) 0) else buffer
    processMsg buffer state bits

/-! ### The digest of a message -/

/-- The number of bits of a message of `n` octets as eight octets, the low one first. -/
def lengthOctets (n : Nat) : List Byte := (List.range 8).map fun k => (BitVec.ofNat 64 (8 * n)).extractLsb' (8 * k) 8

/-- A message with its padding: a bit 1, bits 0 up to the 56th octet of a block, and the number of bits. -/
def padded (m : List Byte) : List Byte :=
  m ++ 0x80 :: List.replicate ((119 - m.length % 64) % 64) 0 ++ lengthOctets m.length

/-- The digest of a list of blocks. -/
def digestOf (l : List Byte) : List Byte := digest (absorb clMd5Transform 64 (l.length / 64) l start)

/-- The message digest. -/
def md5 (m : List Byte) : List Byte := digestOf (padded m)

/-- The message that `cl_md5` is called with. -/
def message (input : List Byte) (len : Word) : List Byte := input.take (if len = 0 then strlen input else len.toNat)

/-- What `cl_md5` takes in of a message. -/
def taken (m : List Byte) : List Byte :=
  if m.length < 64 ∨ m.length % 64 < 56 then padded m
  else m.take (m.length / 64 * 64 + 56) ++ lengthOctets m.length

theorem length_lengthOctets (n : Nat) : (lengthOctets n).length = 8 := by
  unfold lengthOctets
  rw [List.length_map, List.length_range]

/-- The two words of `count` hold the number of bits. -/
private theorem count_octets (len : Word) :
    clMd5Enc [len <<< 3, (if len <<< 3 < len <<< 3 then 1 else 0 : Word) + len >>> 29] = lengthOctets len.toNat := by
  have hlen := len.isLt
  rw [if_neg (by simp), show (0 : Word) + len >>> 29 = len >>> 29 from BitVec.zero_add _]
  unfold clMd5Enc lengthOctets
  simp only [List.flatMap_cons, List.flatMap_nil, List.cons_append, List.nil_append, List.range_succ, List.range_zero,
    List.map_cons, List.map_nil]
  simp only [List.cons.injEq, and_true]
  refine ⟨?_, ?_, ?_, ?_, ?_, ?_, ?_, ?_⟩
  all_goals
    apply BitVec.eq_of_toNat_eq
    simp only [BitVec.toNat_setWidth, BitVec.toNat_ushiftRight, BitVec.toNat_shiftLeft, BitVec.extractLsb'_toNat,
      BitVec.toNat_ofNat, Nat.shiftRight_eq_div_pow, Nat.shiftLeft_eq]
    omega

private theorem put_append (a b l : List Byte) : put (a ++ b) a.length l = a ++ l ++ b.drop l.length := by
  unfold put
  rw [List.take_left' rfl, ← List.drop_drop, List.drop_left' rfl]

private theorem put_begin (b l : List Byte) : put b 0 l = l ++ b.drop l.length := put_append [] b l

/-- A part of a message, the bit 1 and what follows are written to the buffer one after the other. -/
private theorem put_filled (b r z : List Byte) :
    put (put (put b 0 r) r.length [0x80]) (r.length + 1) z = r ++ 0x80 :: z ++ b.drop (r.length + 1 + z.length) := by
  rw [put_begin, put_append]
  have h := put_append (r ++ [0x80]) ((b.drop r.length).drop 1) z
  rw [List.length_append] at h
  refine h.trans ?_
  rw [List.append_assoc r, List.drop_drop, List.drop_drop, Nat.add_assoc]
  rfl

private theorem length_put {b l : List Byte} {p : Nat} (h : p + l.length ≤ b.length) : (put b p l).length = b.length := by
  unfold put
  rw [List.length_append, List.length_append, List.length_take, List.length_drop]
  omega

private theorem processMsg_of {a b bits : List Byte} (s : Words) (ha : a.length = 56) (hb : b.length = 8) (hbits : bits.length = 8) :
    processMsg (a ++ b) s bits = digest (clMd5Transform s (a ++ bits)) := by
  unfold processMsg
  rw [← ha, put_append, List.drop_eq_nil_of_le (by omega), List.append_nil]

/-- The last block has room for the padding. -/
private theorem processMsg_padded {b r bits : List Byte} (s : Words) (hb : b.length = 64) (hr : r.length ≤ 55)
    (hbits : bits.length = 8) :
    processMsg (put (put (put b 0 r) r.length [0x80]) (r.length + 1) (List.replicate (55 - r.length) 0)) s bits =
      digest (clMd5Transform s (r ++ 0x80 :: List.replicate (55 - r.length) 0 ++ bits)) := by
  rw [put_filled]
  refine processMsg_of s ?_ ?_ hbits
  · rw [List.length_append, List.length_cons, List.length_replicate]
    omega
  · rw [List.length_drop, List.length_replicate]
    omega

/-- The last block has no room for the padding, and none is made. -/
private theorem processMsg_lost {b r bits : List Byte} (s : Words) (hb : b.length = 64) (hr : 56 ≤ r.length) (hr' : r.length < 64)
    (hbits : bits.length = 8) :
    processMsg (put (put b 0 r) r.length [0x80]) s bits = digest (clMd5Transform s (r.take 56 ++ bits)) := by
  have hfilled : put (put b 0 r) r.length [0x80] = r.take 56 ++ (r.drop 56 ++ 0x80 :: b.drop (r.length + 1)) := by
    have h := put_filled b r []
    rw [List.length_nil, Nat.add_zero] at h
    have hput (x : List Byte) (p : Nat) : put x p [] = x := by
      unfold put
      rw [List.append_nil, List.length_nil, Nat.add_zero, List.take_append_drop]
    rw [hput] at h
    rw [h, ← List.append_assoc, List.take_append_drop, List.append_assoc]
    rfl
  rw [hfilled]
  refine processMsg_of s ?_ ?_ hbits
  · rw [List.length_take]
    omega
  · rw [List.length_append, List.length_drop, List.length_cons, List.length_drop]
    omega

/-- The blocks that come before the last one. -/
private theorem middle_eq {input : List Byte} {n : Nat} (hn : 64 ≤ n) :
    (if 120 ≤ n then
      While.loop (fun (ind, _) => decide (ind + 63 < n))
        (fun (ind, state) => (ind + 64, clMd5Transform state ((input.drop ind).take 64))) n
          (64, clMd5Transform start (input.take 64))
      else (64, clMd5Transform start (input.take 64))) =
    (n / 64 * 64, absorb clMd5Transform 64 (n / 64) (input.take n) start) := by
  have hsame {k : Nat} (hk : k * 64 ≤ n) :
      absorb clMd5Transform 64 k (input.take n) start = absorb clMd5Transform 64 k input start := by
    refine absorb_congr ?_ start
    rw [List.take_take, Nat.min_eq_left hk]
  split
  · obtain ⟨⟨k, hk, hle, hst⟩, hc⟩ := @While.rule _ (fun x : Nat × Words => decide (x.1 + 63 < n))
      (fun x => (x.1 + 64, clMd5Transform x.2 ((input.drop x.1).take 64)))
      (fun x => ∃ k, x.1 = k * 64 ∧ x.1 ≤ n ∧ x.2 = absorb clMd5Transform 64 k input start)
      (fun x => n - x.1)
      (fun x ⟨k, hk, hle, hst⟩ hc => by
        have hlt := of_decide_eq_true hc
        refine ⟨⟨k + 1, by simp only; omega, by simp only; omega, ?_⟩, by simp only; omega⟩
        rw [absorb_add, absorb_one, hk, hst])
      (n := n) (s := (64, clMd5Transform start (input.take 64))) ⟨1, rfl, hn, rfl⟩ (by simp only; omega)
    have hlast := of_decide_eq_false hc
    have hkn : k = n / 64 := by omega
    refine Prod.ext (hk.trans (by rw [hkn])) (hst.trans ?_)
    rw [hkn, hsame (by omega)]
  · rw [hsame (by omega), show n / 64 = 1 by omega]
    rfl

/-- The digest of the first blocks of a message and one more. -/
private theorem digestOf_snoc {m z : List Byte} (hz : (m.drop (m.length / 64 * 64)).length + z.length = 64) :
    digestOf (m ++ z) = digest (clMd5Transform (absorb clMd5Transform 64 (m.length / 64) m start)
      (m.drop (m.length / 64 * 64) ++ z)) := by
  have hm : m.length / 64 * 64 ≤ m.length := Nat.div_mul_le_self ..
  rw [List.length_drop] at hz
  unfold digestOf
  rw [List.length_append, show (m.length + z.length) / 64 = m.length / 64 + 1 by omega, absorb_add, absorb_one,
    List.drop_append_of_le_length hm, List.take_of_length_le (by rw [List.length_append, List.length_drop]; omega)]
  congr 2
  refine absorb_congr ?_ start
  rw [List.take_append_of_le_length hm]

private theorem drop_blocks (m : List Byte) : (m.drop (m.length / 64 * 64)).length = m.length % 64 := by
  rw [List.length_drop]
  omega

/-- A message whose last block has room for the padding. -/
private theorem digestOf_padded {m : List Byte} (h : m.length % 64 ≤ 55) :
    md5 m = digest (clMd5Transform (absorb clMd5Transform 64 (m.length / 64) m start)
      (m.drop (m.length / 64 * 64) ++ 0x80 :: List.replicate (55 - m.length % 64) 0 ++ lengthOctets m.length)) := by
  unfold md5 padded
  rw [show (119 - m.length % 64) % 64 = 55 - m.length % 64 by omega, List.append_assoc, digestOf_snoc, List.append_assoc]
  rw [drop_blocks, List.length_append, List.length_cons, List.length_replicate, length_lengthOctets]
  omega

/-- A short message whose padding takes a block of its own. -/
private theorem digestOf_padded_twice {m : List Byte} (h : 56 ≤ m.length) (h' : m.length < 64) :
    md5 m = digest (clMd5Transform (clMd5Transform start (m ++ 0x80 :: List.replicate (63 - m.length) 0))
      (List.replicate 56 0 ++ lengthOctets m.length)) := by
  have hfirst : (m ++ 0x80 :: List.replicate (63 - m.length) (0 : Byte)).length = 64 := by
    rw [List.length_append, List.length_cons, List.length_replicate]
    omega
  have hlast : (List.replicate 56 (0 : Byte) ++ lengthOctets m.length).length = 64 := by
    rw [List.length_append, List.length_replicate, length_lengthOctets]
  have hsplit : padded m = (m ++ 0x80 :: List.replicate (63 - m.length) 0) ++ (List.replicate 56 0 ++ lengthOctets m.length) := by
    unfold padded
    rw [show (119 - m.length % 64) % 64 = 63 - m.length + 56 by omega, ← List.replicate_append_replicate]
    simp only [List.append_assoc, List.cons_append]
  unfold md5 digestOf
  rw [hsplit, List.length_append, hfirst, hlast]
  change digest (absorb clMd5Transform 64 (1 + 1) _ start) = _
  rw [absorb_add, absorb_one, absorb_one, List.take_left' hfirst, List.drop_left' (by omega), List.take_of_length_le (by omega)]

/-- A message of which the end of the last block is left out. -/
private theorem digestOf_lost {m : List Byte} (h : 56 ≤ m.length % 64) (n : Nat) :
    digestOf (m.take (m.length / 64 * 64 + 56) ++ lengthOctets n) =
      digest (clMd5Transform (absorb clMd5Transform 64 (m.length / 64) m start)
        ((m.drop (m.length / 64 * 64)).take 56 ++ lengthOctets n)) := by
  have hlen : (m.take (m.length / 64 * 64 + 56)).length = m.length / 64 * 64 + 56 := by
    rw [List.length_take]
    omega
  have hquot : (m.length / 64 * 64 + 56) / 64 = m.length / 64 := by omega
  have hrest : (m.take (m.length / 64 * 64 + 56)).drop (m.length / 64 * 64) = (m.drop (m.length / 64 * 64)).take 56 := by
    rw [List.drop_take, Nat.add_sub_cancel_left]
  rw [digestOf_snoc]
  · rw [hlen, hquot, hrest]
    congr 2
    refine absorb_congr ?_ start
    rw [List.take_take, Nat.min_eq_left (by omega)]
  · rw [hlen, hquot, hrest, List.length_take, drop_blocks, length_lengthOctets]
    omega

/-- What `cl_md5` computes is the digest of what it takes in of the message. -/
theorem clMd5_taken (input : List Byte) (len : Word) (junk : List Byte) (hinput : input.length < 2 ^ 32)
    (hlen : len.toNat ≤ input.length) (hjunk : junk.length = 64) :
    clMd5 input len junk = digestOf (taken (message input len)) := by
  have hstr : strlen input ≤ input.length := (List.takeWhile_sublist _).length_le
  unfold clMd5 message
  simp only
  rw [count_octets]
  have hn : (if len = 0 then BitVec.ofNat 32 (strlen input) else len).toNat = if len = 0 then strlen input else len.toNat := by
    split
    · rw [BitVec.toNat_ofNat, Nat.mod_eq_of_lt (by omega)]
    · rfl
  rw [hn]
  have hm : (input.take (if len = 0 then strlen input else len.toNat)).length = if len = 0 then strlen input else len.toNat := by
    rw [List.length_take, Nat.min_eq_left]
    split
    · exact hstr
    · exact hlen
  generalize (if len = 0 then strlen input else len.toNat) = n at hm
  have hle : n ≤ input.length := by
    rw [List.length_take] at hm
    omega
  have hbits := length_lengthOctets n
  have hsmall (hn : n < 64) : taken (input.take n) = padded (input.take n) := if_pos (.inl (by rw [hm]; exact hn))
  split
  · rename_i h
    have hdrop : (input.take n).drop ((input.take n).length / 64 * 64) = input.take n := by
      rw [hm, show n / 64 * 64 = 0 by omega, List.drop_zero]
    have hzero : (input.take n).length / 64 = 0 := by omega
    rw [hsmall (by omega)]
    refine Eq.trans ?_ (digestOf_padded (by omega)).symm
    rw [hdrop, hzero, hm, show n % 64 = n by omega]
    have hpad := processMsg_padded (r := input.take n) start hjunk (by omega) hbits
    rwa [hm] at hpad
  · split
    · rename_i h h'
      rw [hsmall h']
      refine Eq.trans ?_ (digestOf_padded_twice (by omega) (by omega)).symm
      have hfilled := put_filled junk (input.take n) (List.replicate (63 - n) 0)
      have hend : junk.drop (n + 1 + (List.replicate (63 - n) (0 : Byte)).length) = [] :=
        List.drop_eq_nil_of_le (by rw [List.length_replicate]; omega)
      rw [hm, hend, List.append_nil] at hfilled
      rw [hfilled, put_begin, hm]
      refine processMsg_of _ (List.length_replicate ..) ?_ hbits
      rw [List.length_drop, List.length_append, List.length_cons, List.length_replicate, List.length_replicate, hm]
      omega
    · rename_i h h'
      have hfirst : put junk 0 (input.take 64) = input.take 64 := by
        rw [put_begin, List.drop_eq_nil_of_le, List.append_nil]
        rw [List.length_take, hjunk]
        omega
      rw [hfirst, middle_eq (by omega)]
      simp only
      have hrest : (input.drop (n / 64 * 64)).take (n - n / 64 * 64) = (input.take n).drop (n / 64 * 64) := List.drop_take.symm
      have hlast : ((input.take n).drop (n / 64 * 64)).length = n - n / 64 * 64 := by rw [List.length_drop, hm]
      have hblock : (input.take 64).length = 64 := by
        rw [List.length_take]
        omega
      rw [hrest]
      split
      · rename_i hroom
        have htaken : taken (input.take n) = padded (input.take n) := if_pos (.inr (by omega))
        rw [htaken]
        refine Eq.trans ?_ (digestOf_padded (by omega)).symm
        rw [hm, show n % 64 = n - n / 64 * 64 by omega]
        have hpad := processMsg_padded (absorb clMd5Transform 64 (n / 64) (input.take n) start) hblock (hlast ▸ hroom) hbits
        rwa [hlast] at hpad
      · rename_i hroom
        have htaken : taken (input.take n) = (input.take n).take (n / 64 * 64 + 56) ++ lengthOctets n := by
          unfold taken
          rw [if_neg (by omega), hm]
        have hlost := digestOf_lost (m := input.take n) (by omega) n
        rw [hm] at hlost
        rw [htaken, hlost]
        have hblock' := processMsg_lost (r := (input.take n).drop (n / 64 * 64))
          (absorb clMd5Transform 64 (n / 64) (input.take n) start) hblock (by omega) (by omega) hbits
        rwa [hlast] at hblock'

/-- `cl_md5` computes the message digest of every message that is shorter than a block or leaves room for the padding in its
last block.  Of any other message it leaves out what comes behind the 56th octet of the last block, and the padding. -/
theorem clMd5_answers (input : List Byte) (len : Word) (junk : List Byte) (hinput : input.length < 2 ^ 32)
    (hlen : len.toNat ≤ input.length) (hjunk : junk.length = 64) :
    let m := message input len
    (m.length < 64 ∨ m.length % 64 < 56 → clMd5 input len junk = md5 m) ∧
      (64 ≤ m.length ∧ 56 ≤ m.length % 64 →
        clMd5 input len junk = digestOf (m.take (m.length / 64 * 64 + 56) ++ lengthOctets m.length)) := by
  intro m
  rw [clMd5_taken input len junk hinput hlen hjunk]
  refine ⟨fun h => ?_, fun h => ?_⟩
  · change digestOf (taken m) = _
    rw [show taken m = padded m from if_pos h]
    rfl
  · change digestOf (taken m) = _
    rw [show taken m = m.take (m.length / 64 * 64 + 56) ++ lengthOctets m.length from if_neg (by omega)]

theorem clMd5_answers_abc :
    clMd5 [0x61, 0x62, 0x63, 0] 0 (List.replicate 64 0xff) = md5 (message [0x61, 0x62, 0x63, 0] 0) :=
  (clMd5_answers [0x61, 0x62, 0x63, 0] 0 (List.replicate 64 0xff) (by decide) (by decide) (by decide)).1 (by decide)

end Citrine.Comlib.Md5
