import Mathlib.Algebra.GroupWithZero.Nat

/-!
# The buffers of the RVF

`rvf_buffer.c`: memory pools that are cut into chunks, each a header (`T_RVF_INTERNAL_BUF`, 12 octets) with its memory
behind it.  The memory is one of words at octet addresses; a header is given by its address, and 0 is `NULL`.  The two
lowest bits of the size of a chunk are flags, one for the chunk itself and one for the chunk in front of it.
-/

namespace Citrine.Rvf

/-! ### Sizes and flags -/

/-- `sizeof(T_RVF_INTERNAL_BUF)` -/
def headerSize : Nat := 12

/-- `RVF_MIN_USABLE_SIZE` -/
def minUsableSize : Nat := headerSize + 4

/-- `RVF_NB_FREE_LISTS` -/
def nbFreeLists : Nat := 32

/-- `REQ2SIZE`, with the overhead of the corruption check -/
def req2Size (size : Nat) : Nat := (size + 3 + 4) % 2 ^ 32 / 4 * 4

/-- `RVF_BUF_LIST_INDEX` -/
def bufListIndex (size : Nat) : Nat :=
  if size < 256 then size / 2 ^ 5
  else if size < 1280 then 8 + (size - 256) / 2 ^ 7
  else if size < 5376 then 16 + (size - 1280) / 2 ^ 9
  else if size < 136448 then 24 + (size - 5376) / 2 ^ 14
  else 31

/-- The size in the word of a header, without its flags. -/
def maskSize (w : Nat) : Nat := w / 4 * 4

/-- `RVF_BUF_IS_LINKED` -/
def isLinked (w : Nat) : Bool := w % 2 == 1

/-- `RVF_SET_BUF_LINKED` -/
def setLinked (w : Nat) : Nat := w / 2 * 2 + 1

/-- `RVF_SET_BUF_UNLINKED` -/
def setUnlinked (w : Nat) : Nat := w / 2 * 2

/-- `RVF_IS_PREV_IN_USE` -/
def isPrevInUse (w : Nat) : Bool := w / 2 % 2 == 1

/-- `RVF_SET_PREV_IN_USE` -/
def setPrevInUse (w : Nat) : Nat := w / 4 * 4 + 2 + w % 2

/-- `RVF_SET_PREV_FREE` -/
def setPrevFree (w : Nat) : Nat := w / 4 * 4 + w % 2

/-- `SETSIZE`, for a size that is a multiple of 4 -/
def setSize (w size : Nat) : Nat := w % 4 + size

/-! ### The memory -/

/-- The memory, the lists of free buffers and the last split-off buffer. -/
structure RvfMem where
  mem : Nat → Nat
  lists : Nat → Nat
  lastRemainder : Nat

/-- `T_RVF_POOL` -/
structure RvfPool where
  startAddress : Nat
  poolSize : Nat
  deriving DecidableEq, Repr

namespace RvfMem
variable (s : RvfMem)

def store (a v : Nat) : RvfMem := { s with mem := fun x => if x = a then v else s.mem x }

def setList (i v : Nat) : RvfMem := { s with lists := fun j => if j = i then v else s.lists j }

def setLastRemainder (p : Nat) : RvfMem := { s with lastRemainder := p }

/-- `GETSIZE` -/
def getSize (p : Nat) : Nat := maskSize (s.mem p)

def pNext (p : Nat) : Nat := s.mem (p + 4)

def pPrev (p : Nat) : Nat := s.mem (p + 8)

/-- `NEXTCHUNK` -/
def nextChunk (p : Nat) : Nat := p + s.getSize p + headerSize

/-- The place of `ENDSIZE`. -/
def endSize (p : Nat) : Nat := p + s.getSize p + headerSize - 4

/-! ### The lists of free buffers -/

/-- Removes a buffer from its list. -/
def unlink (i p : Nat) : RvfMem :=
  let s := if s.pPrev p ≠ 0 then s.store (s.pPrev p + 4) (s.pNext p) else s.setList i (s.pNext p)
  if s.pNext p ≠ 0 then s.store (s.pNext p + 8) (s.pPrev p) else s

/-- Removes the first buffer from a list. -/
def unlinkFirst (i p : Nat) : RvfMem :=
  let s := s.setList i (s.pNext p)
  if s.pNext p ≠ 0 then s.store (s.pNext p + 8) 0 else s

/-- Inserts a buffer in front of a list. -/
def enqueue (i p : Nat) : RvfMem :=
  let s := s.store (p + 4) (s.lists i)
  let s := s.setList i p
  let s := s.store (p + 8) 0
  if s.pNext p ≠ 0 then s.store (s.pNext p + 8) p else s

/-- `_rvf_init_free_queue` -/
def initFreeQueue (size pMem : Nat) : RvfMem :=
  let size := (size + 3) / 4 * 4
  let hdr := pMem
  let s := s.store hdr (size - headerSize - 4)
  let s := s.store (hdr + 8) 0
  let s := s.store hdr (setPrevInUse (s.mem hdr))
  let s := s.store (s.nextChunk hdr) 0
  let s := s.store (s.endSize hdr) (s.mem hdr)
  let listIdx := bufListIndex (s.mem hdr)
  let s := s.store (hdr + 4) (s.lists listIdx)
  let s := s.setList listIdx hdr
  s.setLastRemainder hdr

/-! ### `_find_buf` -/

/-- The free part of a buffer becomes a new free buffer; `remove` takes the buffer from its list. -/
def splitBuf (remove : RvfMem → RvfMem) (p size : Nat) : RvfMem :=
  let newBuf := p + size + headerSize
  let s := s.store newBuf (s.getSize p - size - headerSize)
  let s := s.store (s.endSize newBuf) (s.mem newBuf)
  let s := remove s
  let s := s.store (p + 4) 0
  let s := s.store p (setSize (s.mem p) size)
  let s := s.store (s.endSize p) size
  let s := s.enqueue (bufListIndex (s.mem newBuf)) newBuf
  let s := s.store newBuf (setPrevInUse (s.mem newBuf))
  s.setLastRemainder newBuf

/-- The entire buffer is returned. -/
def entireBuf (remove : RvfMem → RvfMem) (p : Nat) : RvfMem :=
  let s := remove s
  let s := s.store (p + 4) 0
  s.store (s.nextChunk p) (setPrevInUse (s.mem (s.nextChunk p)))

/-- The loop of `_find_buf` over the last `n` lists. -/
def searchLists (size : Nat) : Nat → RvfMem → RvfMem × Nat
  | 0, s => (s, 0)
  | n + 1, s =>
    let idx := nbFreeLists - (n + 1)
    let p := s.lists idx
    if p ≠ 0 ∧ s.getSize p ≥ size then
      if s.getSize p ≥ (size + minUsableSize) % 2 ^ 32 then (s.splitBuf (fun s => s.unlinkFirst idx p) p size, p)
      else
        let s := s.entireBuf (fun s => s.unlinkFirst idx p) p
        (if s.lastRemainder = p then s.setLastRemainder 0 else s, p)
    else searchLists size n s

/-- `_find_buf` -/
def findBuf (size : Nat) : RvfMem × Nat :=
  if size = 0 then (s, 0)
  else
    let size := req2Size size
    let idx := bufListIndex size
    if s.lists idx = 0 ∨ s.getSize (s.lists idx) < size then
      let p := s.lastRemainder
      if p ≠ 0 then
        if s.getSize p ≥ size then
          let remove := fun s : RvfMem => s.unlink (bufListIndex (s.getSize p)) p
          if s.getSize p ≥ (size + minUsableSize) % 2 ^ 32 then (s.splitBuf remove p size, p)
          else ((s.entireBuf remove p).setLastRemainder 0, p)
        else searchLists size (nbFreeLists - idx) (s.setLastRemainder 0)
      else searchLists size (nbFreeLists - idx) s
    else searchLists size (nbFreeLists - idx) s

/-! ### `_release_buf` -/

/-- `_rvf_chk_buf_damage`, for the header of a buffer -/
def chkBufDamage (p : Nat) : Bool :=
  let bptr := p + headerSize
  let lg := bptr + s.getSize p - 4
  bptr % 2 == 1 || lg == 0 || s.mem lg != s.getSize p

/-- Merges a buffer with its left neighbour. -/
def mergeLeft (p : Nat) : RvfMem × Nat :=
  if isPrevInUse (s.mem p) then (s, p)
  else
    let leftBufSize := s.mem (p - 4)
    let leftBuf := p - leftBufSize - headerSize
    let s := s.unlink (bufListIndex leftBufSize) leftBuf
    let s := s.store leftBuf (setSize (s.mem leftBuf) (leftBufSize + s.getSize p + headerSize))
    let s := s.store (s.nextChunk p) (setPrevFree (s.mem (s.nextChunk p)))
    (s, leftBuf)

/-- Merges a buffer with its right neighbour. -/
def mergeRight (p : Nat) : RvfMem :=
  if s.getSize (s.nextChunk p) ≠ 0 then
    let rightBuf := s.nextChunk p
    if isPrevInUse (s.mem (s.nextChunk rightBuf)) then s
    else
      let rightBufSize := s.getSize rightBuf
      let s := s.unlink (bufListIndex rightBufSize) rightBuf
      let s := s.store p (setSize (s.mem p) (rightBufSize + s.getSize p + headerSize))
      if s.lastRemainder = rightBuf then s.setLastRemainder p else s
  else s

/-- The buffer goes into the list of its size. -/
def enqueueFree (p : Nat) : RvfMem :=
  let s := s.enqueue (bufListIndex (s.getSize p)) p
  let s := s.store (s.endSize p) (s.getSize p)
  s.store (s.nextChunk p) (setPrevFree (s.mem (s.nextChunk p)))

/-- `_release_buf` -/
def releaseBuf (p : Nat) : RvfMem × Bool :=
  if s.chkBufDamage p then (s, false)
  else if !isPrevInUse (s.mem (s.nextChunk p)) then (s, false)
  else if isLinked (s.mem p) then (s, false)
  else
    let (s, p) := s.mergeLeft p
    ((s.mergeRight p).enqueueFree p, true)

end RvfMem

end Citrine.Rvf
