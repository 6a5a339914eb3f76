import Citrine.Lib.Bits

/-!
# Reading and writing bits

The functions of `bitfun.c` that read and write up to 32 bits at the position of the bit buffer.  The readers keep the last
octets that they have put together in two caches, together with the octet where they have read them; a reader of more bits
than fit into a word takes the first octet by itself and fills the cache from the next octet on (`longFill`).
-/

namespace Citrine.Bf

open Bits

/-- The part of `T_CCD_Globs` that belongs to the bit buffer. -/
structure Globs where
  bitbuf : Octets
  bitpos : Nat
  bytepos : Nat
  byteoffs : Nat
  lastbytepos16 : Nat
  lastbytepos32 : Nat
  last16Bit : BitVec 16
  last32Bit : BitVec 32
  /-- Whether `last32Bit` has been filled from the octet behind `lastbytepos32`; this is not in the code. -/
  longFill : Bool

/-- `bf_setBitpos`; `bitpos` is a `USHORT`. -/
def setBitpos (n : Nat) (g : Globs) : Globs :=
  { g with bitpos := n % 65536, bytepos := n % 65536 / 8, byteoffs := n % 65536 % 8 }

/-- `bf_incBitpos` -/
def incBitpos (n : Nat) (g : Globs) : Globs := setBitpos (g.bitpos + n) g

/-- `ccd_common_decode_init`, for a message that begins at bit `o_buf` of the buffer. -/
def commonDecodeInit (buf : Octets) (oBuf : Nat) : Globs :=
  incBitpos oBuf ⟨buf, 0, 0, 0, 0xffff, 0xffff, 0, 0, false⟩

/-! ### Reading -/

section
variable (g : Globs)

/-- Two octets from the position on, as a `USHORT`. -/
def conv16 (k : Nat) : BitVec 16 := g.bitbuf k ++ g.bitbuf (k + 1)

/-- Four octets, as a `ULONG`. -/
def conv32 (k : Nat) : BitVec 32 := g.bitbuf k ++ g.bitbuf (k + 1) ++ (g.bitbuf (k + 2) ++ g.bitbuf (k + 3))

/-- The two octets from the cache, that is filled if it has others. -/
def cached16 : BitVec 16 × Globs :=
  if g.lastbytepos16 ≠ g.bytepos then
    (conv16 g g.bytepos, { g with lastbytepos16 := g.bytepos, last16Bit := conv16 g g.bytepos })
  else (g.last16Bit, g)

/-- The four octets from the cache; a long read fills it from the next octet on. -/
def cached32 (long : Bool) : BitVec 32 × Globs :=
  let k := if long then g.bytepos + 1 else g.bytepos
  if g.lastbytepos32 ≠ g.bytepos then
    (conv32 g k, { g with lastbytepos32 := g.bytepos, last32Bit := conv32 g k, longFill := long })
  else (g.last32Bit, g)

/-- Up to eight bits. -/
def readByte (len : Nat) : Nat × Globs :=
  let c := cached16 g
  (((c.1 >>> (16 - (g.byteoffs + len))) &&& mask 16 len).toNat, incBitpos len c.2)

/-- Bits that are in the four octets from the position on. -/
def readShort (len : Nat) : Nat × Globs :=
  let c := cached32 g false
  (((c.1 >>> (32 - (g.byteoffs + len))) &&& mask 32 len).toNat, incBitpos len c.2)

/-- Bits that reach into a fifth octet. -/
def readLong (len : Nat) : Nat × Globs :=
  let firstByte := (g.bitbuf g.bytepos <<< g.byteoffs) &&& ~~~(mask 8 g.byteoffs)
  let c := cached32 g true
  let w := if g.byteoffs = 0 then c.1 >>> 8 else c.1 >>> (8 - g.byteoffs)
  let w : BitVec 32 := ((octet w 0 &&& mask 8 g.byteoffs) ||| firstByte) ++ w.setWidth 24
  (((w >>> (32 - len)) &&& mask 32 len).toNat, incBitpos len c.2)

/-- `bf_readBit` -/
def readBit : Nat × Globs :=
  (if g.bitbuf g.bytepos &&& BitVec.twoPow 8 (7 - g.byteoffs) ≠ 0 then 1 else 0, incBitpos 1 g)

/-- `bf_readBits`, for up to 32 bits. -/
def readBits (len : Nat) : Nat × Globs :=
  if len ≤ 8 then readByte g len
  else if len + g.byteoffs ≤ 32 then readShort g len
  else readLong g len

/-- `bf_getBits` -/
def getBits (len : Nat) : Nat × Globs :=
  if len ≤ 8 then readByte g len
  else if len ≤ 24 then readShort g len
  else if len ≤ 32 then readLong g len
  else (0, g)

/-- `bf_decodeByteNumber` -/
def decodeByteNumber (len : Nat) : Nat × Globs :=
  (((conv16 g g.bytepos >>> (16 - (g.byteoffs + len))) &&& mask 16 len).toNat % 256, incBitpos len g)

/-- `bf_decodeShortNumber` -/
def decodeShortNumber (len : Nat) : Nat × Globs :=
  (((conv32 g g.bytepos >>> (32 - (g.byteoffs + len))) &&& mask 32 len).toNat, incBitpos len g)

/-! ### Writing -/

/-- `bf_writeBit` -/
def writeBit (bit : Bool) : Globs :=
  let x := BitVec.twoPow 8 (7 - g.byteoffs)
  incBitpos 1 { g with bitbuf := setAt g.bitbuf g.bytepos (if bit then g.bitbuf g.bytepos ||| x else g.bitbuf g.bytepos &&& ~~~x) }

/-- The octets of a word are stored by or-operations, the third and the fourth one only if `wBits` reaches them. -/
def orOctets (b : Octets) (k : Nat) (w : BitVec 32) (wBits : Nat) : Octets :=
  let b := orAt (orAt b k (octet w 0)) (k + 1) (octet w 1)
  if wBits > 16 then
    let b := orAt b (k + 2) (octet w 2)
    if wBits > 24 then orAt b (k + 3) (octet w 3) else b
  else b

/-- The first part of `bf_writeBits`, for more than 24 bits; it leaves the pointer into the buffer at the fifth octet. -/
def writeFive (len : Nat) (v : BitVec 32) : Octets :=
  let w := (v &&& mask 32 len) <<< (32 - len)
  let b := orAt g.bitbuf g.bytepos ((octet w 0 >>> g.byteoffs) &&& mask 8 (8 - g.byteoffs))
  let u := w <<< (8 - g.byteoffs)
  let b := setAt (setAt (setAt b (g.bytepos + 1) (octet u 0)) (g.bytepos + 2) (octet u 1)) (g.bytepos + 3) (octet u 2)
  if len + g.byteoffs > 32 then setAt b (g.bytepos + 4) (octet u 3) else b

/-- `bf_writeBits`, for up to 32 bits of a variable.  The language does not define a shift of a `ULONG` by 32 or more; `shl` is
whatever the shift does. -/
def writeBits (shl : BitVec 32 → Nat → BitVec 32) (len : Nat) (v : BitVec 32) : Globs :=
  let wBits := len + g.byteoffs
  let b := if len > 24 then writeFive g len v else g.bitbuf
  let k := if len > 24 then g.bytepos + 4 else g.bytepos
  let b :=
    if len > 8 then
      let c : BitVec 32 := if len > 16 then v else (v.setWidth 16).setWidth 32
      orOctets b k (shl (c &&& mask 32 len) ((4294967296 + 32 - wBits) % 4294967296)) wBits
    else
      let c : BitVec 16 := (((v.setWidth 8).setWidth 16 : BitVec 16) &&& mask 16 len) <<< (16 - wBits)
      let b := orAt b k (octet c 0)
      if wBits > 8 then orAt b (k + 1) (octet c 1) else b
  incBitpos len { g with bitbuf := b }

/-- `bf_codeByteNumber` -/
def codeByteNumber (len : Nat) (v : BitVec 8) : Globs :=
  let c : BitVec 16 := (v.setWidth 16 : BitVec 16) <<< (16 - len - g.byteoffs)
  let b := orAt g.bitbuf g.bytepos (octet c 0)
  incBitpos len { g with bitbuf := if g.byteoffs + len > 8 then orAt b (g.bytepos + 1) (octet c 1) else b }

/-- `bf_writeVal` -/
def writeVal (v : BitVec 32) (bSize : Nat) : Globs :=
  let bitSum := bSize + g.byteoffs
  if bitSum ≤ 8 then
    incBitpos bSize { g with bitbuf := orAt g.bitbuf g.bytepos ((v.setWidth 8 &&& mask 8 bSize) <<< (8 - bitSum)) }
  else if bitSum ≤ 16 then
    let c : BitVec 16 := (v.setWidth 16 &&& mask 16 bSize) <<< (16 - bitSum)
    incBitpos bSize { g with bitbuf := orAt (orAt g.bitbuf g.bytepos (octet c 0)) (g.bytepos + 1) (octet c 1) }
  else if bitSum ≤ 32 then
    incBitpos bSize { g with bitbuf := orOctets g.bitbuf g.bytepos ((v &&& mask 32 bSize) <<< (32 - bitSum)) bitSum }
  else if bitSum < 40 then
    let w := v <<< (32 - bSize)
    let b := orAt g.bitbuf g.bytepos ((octet w 0 >>> g.byteoffs) &&& mask 8 (8 - g.byteoffs))
    let u := w <<< (8 - g.byteoffs)
    incBitpos bSize { g with
      bitbuf := orAt (orAt (orAt (orAt b (g.bytepos + 1) (octet u 0)) (g.bytepos + 2) (octet u 1)) (g.bytepos + 3) (octet u 2))
        (g.bytepos + 4) (octet u 3) }
  else g

end

end Citrine.Bf
