import Citrine.Ffs.Open
import Citrine.Lib.Chunks
import Citrine.Lib.Machine
import Mathlib.Algebra.GroupWithZero.Nat

/-!
# Reading and writing a file

A file is opened, written, read, truncated and closed through a descriptor of `ffs.c`, whose buffer holds one chunk of the file
while it is being changed, and written and read as a whole while it is not open.  The data of a file is in its chunks, in the
order of `segment_next` from `seghead` on, which are named here by their places in this order; the inodes and the journal behind
them are those of the other modules.  An allocation may fail, and then changes nothing.

Positions are natural numbers: the file pointer is never in front of the buffer that it writes to.
-/

namespace Citrine.Ffs

/-- `EFFS_FILETOOBIG` -/
def effsFiletoobig : Int := -21
/-- `EFFS_BADFD` -/
def effsBadfd : Int := -25

/-- `wch`: 0, a chunk of the file, or an inode that has been replaced or removed since. -/
inductive WorkChunk where
  | none
  | chunk (i : Nat)
  | replaced
  deriving DecidableEq

/-- An open file: its chunks, and its `struct file_descriptor_s`. -/
structure Stream where
  chunks : List (List (BitVec 8))
  options : BitVec 8
  fp : Nat
  size : Nat
  wfp : Nat
  dirty : Bool
  wch : WorkChunk
  buf : List (BitVec 8)

inductive File where
  | closed (chunks : List (List (BitVec 8)))
  | opened (s : Stream)

/-! ### The chunks -/

/-- `segfile_seek`, from a chunk on: what it returns, the chunk, and the offset in it. -/
def segfileSeek (targetOffset : Nat) : List (List (BitVec 8)) → Nat → Nat → Nat × Nat × Nat
  -- there is always a first chunk
  | [], i, privCount => (privCount, i, 0)
  | [c], i, privCount =>
    if targetOffset < privCount + c.length then (targetOffset, i, targetOffset - privCount)
    else (privCount + c.length, i, c.length)
  | c :: d :: cs, i, privCount =>
    if targetOffset < privCount + c.length then (targetOffset, i, targetOffset - privCount)
    else segfileSeek targetOffset (d :: cs) (i + 1) (privCount + c.length)

/-- `segment_read` -/
def segmentRead (chunks : List (List (BitVec 8))) (i size offset : Nat) : List (BitVec 8) :=
  ((chunkAt chunks i).drop offset).take size

/-- `segment_next`.  Behind the last chunk it is called with 0 once more, and what it then gives is not used. -/
def nextChunk (chunks : List (List (BitVec 8))) (i : Option Nat) : Option Nat :=
  i.bind fun i => if i + 1 < chunks.length then some (i + 1) else none

/-- `object_datasize`: `segfile_seek` up to the end. -/
def objectDatasize (chunks : List (List (BitVec 8))) : Nat := (chunks.map List.length).sum

/-! ### The descriptor -/

section
variable (chunkSizeMax : Nat)

/-- `is_offset_in_buf` -/
def Stream.isOffsetInBuf (s : Stream) (offset : Nat) : Bool :=
  s.dirty && decide (s.wfp ≤ offset) && decide (offset < s.wfp + chunkSizeMax)

/-- The part of the buffer that is valid. -/
def Stream.chunkSize (s : Stream) : Nat :=
  if chunkSizeMax < s.size - s.wfp then chunkSizeMax else s.size - s.wfp

/-- The chunks with the data that `datasync` stores. -/
def Stream.store (s : Stream) (data : List (BitVec 8)) : List (List (BitVec 8)) :=
  match s.wch with
  | .none => s.chunks ++ [data]
  | .chunk i => s.chunks.set i data
  -- no segment any more, so that it is the first chunk that is updated
  | .replaced => s.chunks.set 0 data

/-- `datasync`; `alloc` is what `segment_create` or `object_create` returns. -/
def Stream.datasync (alloc : Int) (s : Stream) : Int × Stream :=
  if ¬s.dirty then (effsOk, s)
  else if alloc < 0 then (alloc, s)
  else (effsOk, { s with chunks := s.store (s.buf.take (s.chunkSize chunkSizeMax)), dirty := false, wch := .none })

/-- The buffer is not dirty, and gets the chunk that `fp` points to. -/
def Stream.load (s : Stream) : Stream :=
  let (_, i, chunkOffset) := segfileSeek s.fp s.chunks 0 0
  if (s.size = s.fp ∧ chunkOffset = chunkSizeMax) ∨ s.size = 0 then { s with wfp := s.size, wch := .none }
  else { s with
    buf := splice s.buf 0 (segmentRead s.chunks i s.buf.length 0)
    wfp := s.fp - chunkOffset
    wch := .chunk i }

/-- Data is copied to the buffer: how much, and the descriptor. -/
def Stream.fill (s : Stream) (src : List (BitVec 8)) : Nat × Stream :=
  let fpOffset := s.fp - s.wfp
  let size := if src.length ≤ chunkSizeMax - fpOffset then src.length else chunkSizeMax - fpOffset
  (size, { s with
    dirty := true
    buf := splice s.buf fpOffset (src.take size)
    fp := s.fp + size
    size := if s.size < s.fp + size then s.fp + size else s.size })

/-- The loop of `ffs_write_b`; the allocations are numbered by its rounds. -/
def Stream.writeLoop (alloc : Nat → Int) : Nat → Nat → Stream → List (BitVec 8) → Option (Int × Stream)
  | 0, _, _, _ => none
  | fuel + 1, k, s, src =>
    let (size, s) := (if s.dirty then s else s.load chunkSizeMax).fill chunkSizeMax src
    let (error, s) := if s.wfp + chunkSizeMax ≤ s.fp then s.datasync chunkSizeMax (alloc k) else (effsOk, s)
    if error < 0 then some (error, s)
    else if src.drop size = [] then some (effsOk, s)
    else Stream.writeLoop alloc fuel (k + 1) s (src.drop size)

/-- `ffs_write_b` -/
def Stream.ffsWrite (alloc : Nat → Int) (s : Stream) (src : List (BitVec 8)) : Option (Int × Stream) :=
  if ¬isOpenOption s.options ffsOWronly then some (effsInvalid, s)
  else
    let s := if isOpenOption s.options ffsOAppend then { s with fp := s.size } else s
    -- a read has moved fp out of the buffer
    let (error, s) := if s.wfp + chunkSizeMax ≤ s.fp then s.datasync chunkSizeMax (alloc 0) else (effsOk, s)
    if error < 0 then some (error, s)
    else
      (s.writeLoop chunkSizeMax alloc (src.length + 1) 1 src).map fun (error, s) =>
        (if error < 0 then error else src.length, s)

/-- The loop of `stream_read`, with what has been copied. -/
def Stream.readLoop (size : Nat) : Nat → Option Nat → Nat → Stream → List (BitVec 8) → Option (List (BitVec 8) × Stream)
  | 0, _, _, _, _ => none
  | fuel + 1, i, offset, s, dst =>
    let data :=
      if s.isOffsetInBuf chunkSizeMax s.fp then
        let offset := s.fp - s.wfp
        some ((s.buf.drop offset).take (min (min (size - dst.length) (chunkSizeMax - offset)) (s.size - s.fp)))
      else i.map fun i => segmentRead s.chunks i (size - dst.length) offset
    match data with
    -- there is no chunk to read
    | none => none
    | some data =>
      let s := { s with fp := s.fp + data.length }
      let dst := dst ++ data
      if dst.length ≠ size ∧ s.fp < s.size then Stream.readLoop size fuel (nextChunk s.chunks i) 0 s dst else some (dst, s)

/-- `stream_read` -/
def Stream.streamRead (s : Stream) (size : Nat) : Option (Int × List (BitVec 8) × Stream) :=
  if ¬isOpenOption s.options ffsORdonly then some (effsInvalid, [], s)
  else if s.size ≤ s.fp then some (0, [], s)
  else
    let (_, i, offset) := segfileSeek s.fp s.chunks 0 0
    (s.readLoop chunkSizeMax size (s.chunks.length + 1) (some i) offset []).map fun (dst, s) => (dst.length, dst, s)

/-- The offset that `ffs_seek_b` is to go to. -/
def seekTarget (fp size : Nat) (offset whence : Int) : Option Int :=
  if whence = 0 then if offset < 0 ∨ size < offset then none else some offset
  else if whence = 1 then if fp + offset < 0 ∨ size < fp + offset then none else some (fp + offset)
  else if whence = 2 then if 0 < offset ∨ size < -offset then none else some (offset + size)
  else none

/-- `ffs_seek_b` -/
def Stream.ffsSeek (alloc : Int) (s : Stream) (offset whence : Int) : Int × Stream :=
  match seekTarget s.fp s.size offset whence with
  | none => (effsInvalid, s)
  | some fpNew =>
    let (error, s) := if s.isOffsetInBuf chunkSizeMax fpNew.toNat then (effsOk, s) else s.datasync chunkSizeMax alloc
    if error < 0 then (error, s) else (fpNew, { s with fp := fpNew.toNat })

/-- The file is cut at a chunk, which is replaced or removed. -/
def Stream.cut (s : Stream) (i : Nat) (last : List (List (BitVec 8))) (length : Nat) : Stream :=
  { s with
    chunks := s.chunks.take i ++ last
    size := length
    wch := match s.wch with
      | .chunk j => if i ≤ j then .replaced else .chunk j
      | wch => wch }

/-- `object_truncate` of an open file; `prealloc` is what `data_prealloc` returns. -/
def Stream.objectTruncate (prealloc alloc : Int) (s : Stream) (length : Int) : Int × Stream :=
  if length < 0 then (effsInvalid, s)
  else if ¬isOpenOption s.options ffsOWronly then (effsInvalid, s)
  else if length < s.fp then (effsInvalid, s)
  else
    let length := length.toNat
    let (flength, i, segmentOffset) := segfileSeek length s.chunks 0 0
    if s.isOffsetInBuf chunkSizeMax length then
      (effsOk, { s with
        size := if s.size < length then s.size else length
        chunks := if s.wch = .chunk i then s.chunks.take (i + 1) else s.chunks })
    else if flength < length then (effsOk, s)
    else if prealloc ≤ 0 then (effsNospace, s)
    else if i ≠ 0 then
      if segmentOffset = 0 then (effsOk, s.cut i [] length)
      else if alloc < 0 then (alloc, s)
      else (effsOk, s.cut i [(chunkAt s.chunks i).take segmentOffset] length)
    -- the first chunk, which is no segment
    else if alloc < 0 then (alloc, s)
    else (effsOk, s.cut 0 [(chunkAt s.chunks 0).take length] length)

/-! ### The whole file -/

/-- The loop of `file_read` -/
def readChunks : List (List (BitVec 8)) → Nat → List (BitVec 8)
  | [], _ => []
  | c :: cs, size => if cs ≠ [] ∧ c.length < size then c ++ readChunks cs (size - c.length) else c.take size

/-- `file_read` of a file that is not open for writing -/
def fileRead (chunks : List (List (BitVec 8))) (size : Nat) : Int × List (BitVec 8) :=
  let data := readChunks chunks size
  (if size < objectDatasize chunks then effsFiletoobig else data.length, data)

/-- The loop of `ffs_file_write_b` -/
def appendChunks (alloc : Nat → Int) : Nat → Nat → List (BitVec 8) → List (List (BitVec 8)) → Int × List (List (BitVec 8))
  | 0, _, _, chunks => (effsOk, chunks)
  | fuel + 1, k, src, chunks =>
    if src = [] then (effsOk, chunks)
    else if alloc k < 0 then (alloc k, chunks)
    else appendChunks alloc fuel (k + 1) (src.drop chunkSizeMax) (chunks ++ [src.take chunkSizeMax])

/-- `ffs_file_write_b` for a file that exists; `isOpen` says that a descriptor names it, `readonly` is what `is_readonly`
returns. -/
def ffsFileWrite (bytesFree : Int) (isOpen : Bool) (readonly : Int) (alloc : Nat → Int) (chunks : List (List (BitVec 8)))
    (src : List (BitVec 8)) (option : BitVec 16) : Int × List (List (BitVec 8)) :=
  if bytesFree < src.length then (effsNospace, chunks)
  else if isOpenOption option ffsOCreate ∧ isOpenOption option ffsOExcl then (effsExists, chunks)
  else if isOpen then (effsLocked, chunks)
  else if readonly < 0 then (readonly, chunks)
  else if alloc 0 < 0 then (alloc 0, chunks)
  else appendChunks chunkSizeMax alloc src.length 1 (src.drop chunkSizeMax) [src.take chunkSizeMax]

end

/-! ### The calls -/

/-- `ffs_open_b` for a file that exists and is not open: `fdi` is a free descriptor, `memory` the memory for the buffer. -/
def ffsOpen (alloc : Int) (chunks : List (List (BitVec 8))) (option : BitVec 16) (fdi : Option Nat) (readonly : Int)
    (memory : Option (List (BitVec 8))) : Int × File :=
  let opened (chunks : List (List (BitVec 8))) (fdi : Nat) : Int × File :=
    let size := objectDatasize chunks
    let s : Stream :=
      { chunks, options := option.truncate 8, fp := if isOpenOption option ffsOAppend then size else 0, size, wfp := 0,
        dirty := false, wch := .none, buf := memory.getD [] }
    if isOpenOption option ffsOWronly ∧ memory = none then (effsMemory, .closed chunks)
    else (fdi + ffsFdOffset, .opened s)
  if ¬isOpenOption option ffsORdonly ∧ ¬isOpenOption option ffsOWronly then (effsInvalid, .closed chunks)
  else if isOpenOption option ffsORdonly ∧ ¬isOpenOption option ffsOWronly ∧ option ≠ BitVec.ofNat 16 ffsORdonly then
    (effsInvalid, .closed chunks)
  else
    match fdi with
    | none => (effsNumfd, .closed chunks)
    | some fdi =>
      if isOpenOption option ffsOWronly ∧ isOpenOption option (ffsOCreate ||| ffsOExcl) then (effsExists, .closed chunks)
      else if isOpenOption option ffsOWronly ∧ readonly < 0 then (readonly, .closed chunks)
      else if isOpenOption option ffsOTrunc then
        if alloc < 0 then (alloc, .closed chunks) else opened [[]] fdi
      else opened chunks fdi

/-- The calls for one file, with what the rest of the system answers. -/
inductive StreamCall where
  | open (option : BitVec 16) (fdi : Option Nat) (readonly : Int) (memory : Option (List (BitVec 8)))
  | close
  | write (src : List (BitVec 8))
  | read (size : Nat)
  | seek (offset whence : Int)
  | ftruncate (prealloc length : Int)
  | fdatasync
  | fileWrite (option : BitVec 16) (bytesFree readonly : Int) (src : List (BitVec 8))
  | fileRead (size : Nat)

/-- A call, with what its allocations return. -/
structure StreamEvent where
  call : StreamCall
  alloc : Nat → Int

/-- What a call returns, the data that is read, and the file.  There is one descriptor for the file, so that a call that opens
it once more is left out unless it is refused. -/
def File.after (chunkSizeMax : Nat) (f : File) (e : StreamEvent) : Option (Int × List (BitVec 8) × File) :=
  match e.call, f with
  | .open option fdi readonly memory, .closed chunks =>
    let (ret, f) := ffsOpen (e.alloc 0) chunks option fdi readonly memory
    some (ret, [], f)
  | .open _ _ _ _, .opened _ => none
  | .fileWrite option bytesFree readonly src, .closed chunks =>
    let (ret, chunks) := ffsFileWrite chunkSizeMax bytesFree false readonly e.alloc chunks src option
    some (ret, [], .closed chunks)
  | .fileWrite option bytesFree readonly src, .opened s =>
    let (ret, chunks) := ffsFileWrite chunkSizeMax bytesFree true readonly e.alloc s.chunks src option
    some (ret, [], .opened { s with chunks })
  | .fileRead size, .closed chunks =>
    let (ret, data) := fileRead chunks size
    some (ret, data, .closed chunks)
  | .fileRead size, .opened s =>
    if isOpenOption s.options ffsOWronly then some (effsLocked, [], .opened s)
    else
      let (ret, data) := fileRead s.chunks size
      some (ret, data, .opened s)
  | _, .closed chunks => some (effsBadfd, [], .closed chunks)
  | .close, .opened s =>
    let (error, s) := if isOpenOption s.options ffsOWronly then s.datasync chunkSizeMax (e.alloc 0) else (effsOk, s)
    some (if error < 0 then (error, [], .opened s) else (effsOk, [], .closed s.chunks))
  | .write src, .opened s => (s.ffsWrite chunkSizeMax e.alloc src).map fun (ret, s) => (ret, [], .opened s)
  | .read size, .opened s => (s.streamRead chunkSizeMax size).map fun (ret, data, s) => (ret, data, .opened s)
  | .seek offset whence, .opened s =>
    let (ret, s) := s.ffsSeek chunkSizeMax (e.alloc 0) offset whence
    some (ret, [], .opened s)
  | .ftruncate prealloc length, .opened s =>
    let (ret, s) := s.objectTruncate chunkSizeMax prealloc (e.alloc 0) length
    some (ret, [], .opened s)
  | .fdatasync, .opened s =>
    let (ret, s) := s.datasync chunkSizeMax (e.alloc 0)
    some (ret, [], .opened s)

/-- A file that exists, and all calls for it. -/
def streams (chunkSizeMax : Nat) : Machine File StreamEvent where
  init f := ∃ chunks, f = .closed chunks ∧ Tidy chunkSizeMax chunks
  step f e := (f.after chunkSizeMax e).map fun (_, _, f) => f

/-! ### What a file holds -/

section
variable (m : Nat)

/-- The place of the chunk that is in the buffer. -/
def Stream.place (s : Stream) : Nat :=
  match s.wch with
  | .none => s.chunks.length
  | .chunk i => i
  | .replaced => 0

/-- The chunk that is in the buffer. -/
def Stream.held (s : Stream) : List (BitVec 8) := s.buf.take (s.chunkSize m)

/-- The chunks of a file with the one in the buffer. -/
def Stream.whole (s : Stream) : List (List (BitVec 8)) := if s.dirty then putChunk s.chunks s.place (s.held m) else s.chunks

/-- What a file is for: a list of octets, and a place in it if the file is open. -/
inductive View where
  | closed (octets : List (BitVec 8))
  | opened (octets : List (BitVec 8)) (pointer : Nat) (options : BitVec 8)

def File.view : File → View
  | .closed chunks => .closed chunks.flatten
  | .opened s => .opened (s.whole m).flatten s.fp s.options

/-- What is in the chunks of a file. -/
def File.stored : File → List (BitVec 8)
  | .closed chunks => chunks.flatten
  | .opened s => s.chunks.flatten

/-- A call may fail. -/
def StreamEvent.Excused (e : StreamEvent) : Prop :=
  (∃ k, e.alloc k < 0) ∨
    match e.call with
    | .open _ fdi readonly memory => fdi = none ∨ readonly < 0 ∨ memory = none
    | .ftruncate prealloc _ => prealloc ≤ 0
    | .fileWrite _ bytesFree readonly src => bytesFree < src.length ∨ readonly < 0
    | _ => False

/-- The options that a file is not opened with when it exists. -/
def Refused (option : BitVec 16) : Prop :=
  (¬isOpenOption option ffsORdonly ∧ ¬isOpenOption option ffsOWronly) ∨
  (isOpenOption option ffsORdonly ∧ ¬isOpenOption option ffsOWronly ∧ option ≠ BitVec.ofNat 16 ffsORdonly) ∨
  (isOpenOption option ffsOWronly ∧ isOpenOption option (ffsOCreate ||| ffsOExcl))

/-- What a call is to do and to return. -/
def View.Answers (v : View) (e : StreamEvent) (ret : Int) (data : List (BitVec 8)) (v' : View) : Prop :=
  match e.call, v with
  | .open option _ _ _, .closed l =>
    let l' := if isOpenOption option ffsOTrunc then [] else l
    (0 ≤ ret ∧ v' = .opened l' (if isOpenOption option ffsOAppend then l'.length else 0) (option.truncate 8)) ∨
      (ret < 0 ∧ (Refused option ∨ e.Excused) ∧ (v' = v ∨ v' = .closed l'))
  | .open _ _ _ _, .opened _ _ _ => False
  | .fileWrite option _ _ src, .closed _ =>
    (ret = effsOk ∧ v' = .closed src) ∨
      (ret < 0 ∧ ((isOpenOption option ffsOCreate ∧ isOpenOption option ffsOExcl) ∨ e.Excused) ∧
        (v' = v ∨ ∃ k, v' = .closed (src.take k)))
  | .fileWrite _ _ _ _, .opened _ _ _ => ret < 0 ∧ v' = v
  | .fileRead size, .closed l =>
    data = l.take size ∧ v' = v ∧ ret = if size < l.length then effsFiletoobig else l.length
  | .fileRead size, .opened l _ options =>
    if isOpenOption options ffsOWronly then ret = effsLocked ∧ v' = v
    else data = l.take size ∧ v' = v ∧ ret = if size < l.length then effsFiletoobig else l.length
  | _, .closed _ => ret = effsBadfd ∧ v' = v
  | .close, .opened l _ _ => (ret = effsOk ∧ v' = .closed l) ∨ (ret < 0 ∧ e.Excused ∧ v' = v)
  | .write src, .opened l pointer options =>
    if ¬isOpenOption options ffsOWronly then ret = effsInvalid ∧ v' = v
    else
      let start := if isOpenOption options ffsOAppend then l.length else pointer
      ∃ k, k ≤ src.length ∧ v' = .opened (splice l start (src.take k)) (start + k) options ∧
        ((ret = src.length ∧ k = src.length) ∨ (ret < 0 ∧ e.Excused))
  | .read size, .opened l pointer options =>
    if ¬isOpenOption options ffsORdonly then ret = effsInvalid ∧ v' = v
    else data = (l.drop pointer).take size ∧ ret = data.length ∧ v' = .opened l (pointer + data.length) options
  | .seek offset whence, .opened l pointer options =>
    match seekTarget pointer l.length offset whence with
    | none => ret = effsInvalid ∧ v' = v
    | some target => (ret = target ∧ v' = .opened l target.toNat options) ∨ (ret < 0 ∧ e.Excused ∧ v' = v)
  | .ftruncate _ length, .opened l pointer options =>
    if length < 0 ∨ ¬isOpenOption options ffsOWronly ∨ length < pointer then ret = effsInvalid ∧ v' = v
    else (ret = effsOk ∧ v' = .opened (l.take length.toNat) pointer options) ∨ (ret < 0 ∧ e.Excused ∧ v' = v)
  | .fdatasync, .opened _ _ _ => (ret = effsOk ∧ v' = v) ∨ (ret < 0 ∧ e.Excused ∧ v' = v)

/-- A call does what it is to do, and `ffs_fdatasync` also puts it into the chunks. -/
def File.Right (f : File) (e : StreamEvent) : Prop :=
  ∃ ret data f', f.after m e = some (ret, data, f') ∧ (f.view m).Answers e ret data (f'.view m) ∧
    (e.call = .fdatasync → ret = effsOk → ∀ l pointer options, f'.view m = .opened l pointer options → f'.stored = l)

/-- A truncation to the end of the last chunk when this chunk is full and is in the buffer: the chunk is replaced, but not what
the buffer is for. -/
def Stream.Replaces (s : Stream) (length : Int) : Prop :=
  s.dirty = true ∧ s.place + 1 = s.chunks.length ∧ (chunkAt s.chunks s.place).length = m ∧ length = s.wfp + m

instance (s : Stream) (length : Int) : Decidable (s.Replaces m length) :=
  inferInstanceAs (Decidable (_ ∧ _))

/-- The buffer has room for a chunk, a file is opened once, and no truncation replaces the chunk in the buffer. -/
def File.sound (f : File) (e : StreamEvent) : Bool :=
  match e.call, f with
  | .open _ _ _ memory, .closed _ => decide (∀ b, memory = some b → m ≤ b.length)
  | .open _ _ _ _, .opened _ => false
  | .ftruncate _ length, .opened s => !decide (s.Replaces m length)
  | _, _ => true

end

end Citrine.Ffs
