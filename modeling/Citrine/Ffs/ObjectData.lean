import Mathlib.Logic.Function.Basic
import Citrine.Ffs.Block
import Citrine.Ffs.Journal
import Citrine.Ffs.Stream
import Citrine.Lib.Machine

/-!
# The data of an object in the flash

An object begins with its name, which ends with a zero, unless it is a segment.  The data behind it ends with a zero too, and is
found from its end: the size of the data is not stored.  In the same way `block_used` finds the end of what is used in a block,
which the running system counts.  Both rest on space that is erased, and only what is erased can be written.
-/

namespace Citrine.Ffs

/-- `EFFS_BADNAME` -/
def effsBadname : Int := -12
/-- `EFFS_NAMETOOLONG` -/
def effsNametoolong : Int := -16

/-! ### The driver -/

/-- What is in the flash, by addresses. -/
abbrev Octets := Nat → BitVec 8

/-- `lo | (hi << 8)` -/
def halfword (hi lo : BitVec 8) : BitVec 16 := hi ++ lo

/-- `ffsdrv_amd_write_halfword`: a bit that is 0 is not set again, and nothing is written then. -/
def writeHalfword (mem : Octets) (addr : Nat) (value : BitVec 16) : Octets :=
  if ~~~(halfword (mem (addr + 1)) (mem addr)) &&& value ≠ 0 then mem
  else Function.update (Function.update mem addr (value.truncate 8)) (addr + 1) ((value >>> 8).truncate 8)

/-- `ffsdrv_write_byte` -/
def writeByte (mem : Octets) (dst : Nat) (value : BitVec 8) : Octets :=
  if dst % 2 = 1 then writeHalfword mem (dst - 1) (halfword value (mem (dst - 1)))
  else writeHalfword mem dst (halfword (mem (dst + 1)) value)

/-- The rest of `ffsdrv_generic_write`, from an even address on. -/
def writeHalfwords (mem : Octets) (dst : Nat) : List (BitVec 8) → Octets
  | [] => mem
  | [x] => writeByte mem dst x
  | x :: y :: src => writeHalfwords (writeHalfword mem dst (halfword y x)) (dst + 2) src

/-- `ffsdrv_generic_write`; `size` has 16 bits. -/
def genericWrite (mem : Octets) (dst : Nat) (src : List (BitVec 8)) : Octets :=
  match src.take (src.length % 65536) with
  | [] => mem
  | x :: src => if dst % 2 = 1 then writeHalfwords (writeByte mem dst x) (dst + 1) src else writeHalfwords mem dst (x :: src)

/-! ### Creating objects -/

/-- A character that a name may have. -/
def isFilenameChar (c : BitVec 8) : Bool :=
  (decide (0x61 ≤ c) && decide (c ≤ 0x7a)) || (decide (0x41 ≤ c) && decide (c ≤ 0x5a)) ||
    (decide (0x30 ≤ c) && decide (c ≤ 0x39)) || [0x2e, 0x2c, 0x5f, 0x2d, 0x2b, 0x25, 0x24, 0x23].contains c

/-- `is_filename`, of the characters in front of the terminating zero -/
def isFilename (filenameMax : Nat) (s : List (BitVec 8)) : Int :=
  if s.dropWhile isFilenameChar ≠ [] then effsBadname
  else if filenameMax < s.length then effsNametoolong
  else if s.length = 0 then effsBadname
  else s.length

/-- `FFS_JOURNAL_NAME` -/
def ffsJournalName : List (BitVec 8) := [0x2e, 0x6a, 0x6f, 0x75, 0x72, 0x6e, 0x61, 0x6c]

/-- The characters of a string, without the zero. -/
structure CString where
  octets : List (BitVec 8)
  nonzero : ∀ c ∈ octets, c ≠ 0

/-- An object: what its inode says of the data, and what it was created with. -/
structure DataObject where
  isSegment : Bool
  location : Nat
  size : Nat
  name : List (BitVec 8)
  data : List (BitVec 8)

/-- A data block, from its header on, with `bstat[b].used` and the objects that have been created in it. -/
structure DataBlock where
  mem : Octets
  used : Nat
  objects : List DataObject

section
variable (blocksize filenameMax : Nat)

/-- `object_create` in a block; `result` is what `chunk_alloc` returns.  The block is not taken when there is no room in it. -/
def DataBlock.objectCreate (b : DataBlock) (isRoot : Bool) (name : CString) (buf : Option (List (BitVec 8))) (size : Nat)
    (result : Int) : Option (Int × DataBlock) :=
  let namelength := if isRoot then (name.octets.length : Int) else isFilename filenameMax name.octets
  if namelength < 0 then some (namelength, b)
  else if name.octets ≠ ffsJournalName ∧ buf = none ∧ 0 < size then some (effsInvalid, b)
  else
    let realsize := atomalign (namelength.toNat + 1 + size + if 0 < size then 1 else 0)
    if result < 0 then some (result, b)
    else if blocksize < b.used + realsize then none
    else
      -- the journal file is created as empty
      let data := if name.octets = ffsJournalName then [] else (buf.getD []).take size
      let dataaddr := b.used + namelength.toNat + 1
      let mem := genericWrite b.mem b.used (name.octets ++ [0])
      let mem := if 0 < size then writeByte (genericWrite mem dataaddr data) (dataaddr + size) 0 else mem
      let data := if name.octets = ffsJournalName then List.replicate size 0xff else data
      some (result, ⟨mem, b.used + realsize, ⟨false, b.used, realsize, name.octets, data⟩ :: b.objects⟩)

/-- `segment_create` in a block -/
def DataBlock.segmentCreate (b : DataBlock) (buf : List (BitVec 8)) (size : Nat) (result : Int) :
    Option (Int × DataBlock) :=
  let realsize := atomalign (size + 1)
  if result < 0 then some (result, b)
  else if blocksize < b.used + realsize then none
  else
    let mem := writeByte (genericWrite b.mem b.used (buf.take size)) (b.used + size) 0
    some (result, ⟨mem, b.used + realsize, ⟨true, b.used, realsize, [], buf.take size⟩ :: b.objects⟩)

end

/-! ### Reading -/

/-- `while (*p) p++`, given up after some octets -/
def scanUp (mem : Octets) : Nat → Nat → Option Nat
  | 0, _ => none
  | fuel + 1, p => if mem p = 0 then some p else scanUp mem fuel (p + 1)

/-- `while (*q) q--` -/
def scanDown (mem : Octets) : Nat → Option Nat
  | 0 => if mem 0 = 0 then some 0 else none
  | q + 1 => if mem (q + 1) = 0 then some (q + 1) else scanDown mem q

/-- `segment_datasize` -/
def segmentDatasize (mem : Octets) (o : DataObject) : Option Int :=
  (if o.isSegment then some ((o.location : Int) - 1) else (scanUp mem o.size o.location).map Int.ofNat).bind fun p =>
    (scanDown mem (o.location + o.size - 1)).map fun (q : Nat) =>
      let size := (q : Int) - p
      if 0 < size then size - 1 else size

/-- `addr2data` -/
def addr2data (mem : Octets) (o : DataObject) : Option Nat :=
  if o.isSegment then some o.location else (scanUp mem o.size o.location).map (· + 1)

/-- `segment_read` in the flash -/
def segmentReadAt (mem : Octets) (o : DataObject) (size offset : Nat) : Option (List (BitVec 8)) :=
  (segmentDatasize mem o).bind fun chunkSize =>
    (addr2data mem o).map fun p =>
      (List.range (if chunkSize - offset < size then chunkSize - offset else size).toNat).map fun k => mem (p + offset + k)

/-- All octets of an atom are erased: `q[0] & q[1] & q[2] & q[3]` is all ones. -/
def atomErased (mem : Octets) (k : Nat) : Bool := (List.range 16).all fun j => mem (16 * k + j) == 0xff

/-- The loop of `block_used`, from the last atom down. -/
def lastAtom (mem : Octets) : Nat → Nat
  | 0 => 0
  | k + 1 => if atomErased mem (k + 1) then lastAtom mem k else k + 1

/-- `block_used` -/
def blockUsed (mem : Octets) (blocksize : Nat) : Nat :=
  let q := lastAtom mem (blocksize / 16 - 1)
  atomalign (16 * if atomErased mem q then q else q + 1)

/-! ### Runs -/

/-- Objects and segments are created in a block. -/
inductive DataEvent where
  | objectCreate (isRoot : Bool) (name : CString) (buf : Option (List (BitVec 8))) (size : Nat) (result : Int)
  | segmentCreate (buf : List (BitVec 8)) (size : Nat) (result : Int)

/-- A block that has been allocated for data, and all that is created in it. -/
def dataBlocks (blocksize filenameMax : Nat) : Machine DataBlock DataEvent where
  init b := b.used = bheaderSize ∧ b.objects = [] ∧ (∃ i, i < bheaderSize ∧ b.mem i ≠ 0xff) ∧
    ∀ i, bheaderSize ≤ i → i < blocksize → b.mem i = 0xff
  step b
    | .objectCreate isRoot name buf size result =>
      (b.objectCreate blocksize filenameMax isRoot name buf size result).map Prod.snd
    | .segmentCreate buf size result => (b.segmentCreate blocksize buf size result).map Prod.snd

/-- The buffers hold the data, and the sizes fit into 16 bits. -/
def DataEvent.sound : DataEvent → Bool
  | .objectCreate _ name buf size _ =>
    decide (name.octets.length + 1 < 65536) && decide (size < 65536) && buf.all fun d => decide (size ≤ d.length)
  | .segmentCreate buf size _ => decide (size < 65536) && decide (size ≤ buf.length)

/-! ### Writing to erased space -/

/-- Octets are put to the flash. -/
def Octets.put (mem : Octets) (dst : Nat) (src : List (BitVec 8)) : Octets := fun i =>
  if dst ≤ i ∧ i < dst + src.length then src.getD (i - dst) 0 else mem i

section
variable {mem : Octets} {dst addr n k : Nat} {hi lo x : BitVec 8} {src : List (BitVec 8)}

/-- Space that is erased. -/
def Octets.Erased (mem : Octets) (dst n : Nat) : Prop := ∀ i, dst ≤ i → i < dst + n → mem i = 0xff

private theorem put_nil : mem.put dst [] = mem := by
  funext i
  exact if_neg (by rw [List.length_nil]; omega)

private theorem put_cons : Octets.put (Function.update mem dst x) (dst + 1) src = mem.put dst (x :: src) := by
  funext i
  unfold Octets.put
  rw [List.length_cons]
  rcases Nat.lt_trichotomy i dst with hlt | rfl | hgt
  · rw [if_neg (by omega), if_neg (by omega), Function.update_of_ne (Nat.ne_of_lt hlt)]
  · rw [if_neg (by omega), if_pos (by omega), Function.update_self, Nat.sub_self, List.getD_cons_zero]
  · by_cases hin : i < dst + 1 + src.length
    · rw [if_pos (by omega), if_pos (by omega), show i - dst = i - (dst + 1) + 1 by omega, List.getD_cons_succ]
    · rw [if_neg (by omega), if_neg (by omega), Function.update_of_ne (Nat.ne_of_gt hgt)]

private theorem halfword_low : (halfword hi lo).truncate 8 = lo := BitVec.setWidth_append_eq_right

private theorem halfword_high : (halfword hi lo >>> 8).truncate 8 = hi := by
  unfold halfword
  ext i h
  simp only [BitVec.truncate_eq_setWidth, BitVec.getElem_setWidth, BitVec.getLsbD_ushiftRight, BitVec.getLsbD_append]
  rw [if_neg (by omega), Nat.add_sub_cancel_left]
  exact BitVec.getLsbD_eq_getElem h

/-- A halfword is written if no bit of it has to be set. -/
private theorem writeHalfword_eq (hhi : ~~~(mem (addr + 1)) &&& hi = 0) (hlo : ~~~(mem addr) &&& lo = 0) :
    writeHalfword mem addr (halfword hi lo) = Function.update (Function.update mem addr lo) (addr + 1) hi := by
  have hzero : ~~~(halfword (mem (addr + 1)) (mem addr)) &&& halfword hi lo = 0 := by
    unfold halfword
    rw [BitVec.not_append, BitVec.and_append, hhi, hlo]
    rfl
  unfold writeHalfword
  rw [if_neg (fun hne => hne hzero), halfword_low, halfword_high]

private theorem erased_and (h : mem addr = 0xff) : ~~~(mem addr) &&& x = 0 := by
  rw [h]
  exact BitVec.zero_and

/-- An octet that is erased is written, and the one beside it is written as it is. -/
private theorem writeByte_eq (h : mem dst = 0xff) : writeByte mem dst x = Function.update mem dst x := by
  have hself (a : Nat) : ~~~(mem a) &&& mem a = 0 := BitVec.not_and_self _
  unfold writeByte
  by_cases hodd : dst % 2 = 1
  · obtain ⟨a, rfl⟩ : ∃ a, dst = a + 1 := ⟨dst - 1, by omega⟩
    rw [if_pos hodd, Nat.add_sub_cancel, writeHalfword_eq (erased_and h) (hself a), Function.update_eq_self]
  · rw [if_neg hodd, writeHalfword_eq (hself (dst + 1)) (erased_and h)]
    have hne : dst + 1 ≠ dst := Nat.succ_ne_self dst
    rw [show mem (dst + 1) = Function.update mem dst x (dst + 1) from (Function.update_of_ne hne _ _).symm,
      Function.update_eq_self]

private theorem erased_update (h : mem.Erased dst (n + 1)) : Octets.Erased (Function.update mem dst x) (dst + 1) n := by
  intro i hlow hhigh
  rw [Function.update_of_ne (by omega)]
  exact h i (by omega) (by omega)

private theorem writeHalfwords_eq (h : mem.Erased dst src.length) : writeHalfwords mem dst src = mem.put dst src := by
  induction mem, dst, src using writeHalfwords.induct with
  | case1 => exact put_nil.symm
  | case2 mem dst x =>
    rw [writeHalfwords, writeByte_eq (h dst (Nat.le_refl _) (Nat.lt_succ_self _)), ← put_cons, put_nil]
  | case3 mem dst x y src ih =>
    have hlow := h dst (Nat.le_refl _) (by simp)
    have hhigh := h (dst + 1) (Nat.le_succ _) (by simp)
    rw [writeHalfword_eq (erased_and hhigh) (erased_and hlow)] at ih
    rw [writeHalfwords, writeHalfword_eq (erased_and hhigh) (erased_and hlow), ih (erased_update (erased_update h)),
      put_cons, put_cons]

/-- Data that is written to erased space is there then, and nothing else has changed. -/
private theorem genericWrite_eq (h : mem.Erased dst src.length) (hlen : src.length < 65536) :
    genericWrite mem dst src = mem.put dst src := by
  unfold genericWrite
  rw [Nat.mod_eq_of_lt hlen, List.take_length]
  cases src with
  | nil => exact put_nil.symm
  | cons x src =>
    by_cases hodd : dst % 2 = 1
    · rw [← put_cons, ← writeHalfwords_eq (erased_update h), ← writeByte_eq (h dst (Nat.le_refl _) (by simp))]
      exact if_pos hodd
    · rw [← writeHalfwords_eq h]
      exact if_neg hodd

end

/-! ### Objects -/

/-- What is in the flash of an object: the name and the data with their zeros, no data where there is none. -/
def DataObject.image (o : DataObject) : List (BitVec 8) :=
  (if o.isSegment then [] else o.name ++ [0]) ++ if o.isSegment ∨ o.data ≠ [] then o.data ++ [0] else []

/-- An object is in the flash as it was created, and the rest of its space is erased. -/
structure DataObject.Stored (mem : Octets) (o : DataObject) : Prop where
  name : o.isSegment = false → ∀ c ∈ o.name, c ≠ 0
  fits : o.image.length ≤ o.size
  content : ∀ k, k < o.size → mem (o.location + k) = o.image.getD k 0xff

section
variable {mem mem' : Octets} {o : DataObject} {p q z fuel : Nat}

private theorem scanUp_eq (hle : p ≤ z) (hfuel : z < p + fuel) (hz : mem z = 0) (hne : ∀ i, p ≤ i → i < z → mem i ≠ 0) :
    scanUp mem fuel p = some z := by
  induction fuel generalizing p with
  | zero => omega
  | succ fuel ih =>
    unfold scanUp
    rcases Nat.eq_or_lt_of_le hle with rfl | hlt
    · exact if_pos hz
    · rw [if_neg (hne p (Nat.le_refl _) hlt)]
      exact ih hlt (by omega) fun i hi => hne i (by omega)

private theorem scanDown_eq (hle : z ≤ q) (hz : mem z = 0) (hne : ∀ i, z < i → i ≤ q → mem i ≠ 0) :
    scanDown mem q = some z := by
  induction q with
  | zero =>
    obtain rfl : z = 0 := Nat.le_zero.1 hle
    exact if_pos hz
  | succ q ih =>
    unfold scanDown
    rcases Nat.eq_or_lt_of_le hle with rfl | hlt
    · exact if_pos hz
    · rw [if_neg (hne (q + 1) hlt (Nat.le_refl _))]
      exact ih (by omega) fun i hi hiq => hne i hi (by omega)

/-- Where the data of an object begins. -/
private def DataObject.start (o : DataObject) : Nat := if o.isSegment then 0 else o.name.length + 1

private theorem length_image : o.image.length = o.start + if o.isSegment ∨ o.data ≠ [] then o.data.length + 1 else 0 := by
  unfold DataObject.image DataObject.start
  rw [List.length_append]
  cases o.isSegment <;> by_cases hdata : o.data = [] <;> simp [hdata]

/-- The image ends with a zero. -/
private theorem image_last : ∃ l, o.image = l ++ [0] := by
  unfold DataObject.image
  by_cases hdata : o.isSegment ∨ o.data ≠ []
  · rw [if_pos hdata, ← List.append_assoc]
    exact ⟨_, rfl⟩
  · rw [if_neg hdata, List.append_nil, if_neg fun hseg => hdata (.inl hseg)]
    exact ⟨_, rfl⟩

/-- The name, and its zero. -/
private theorem getD_image_name (hseg : o.isSegment = false) {k : Nat} (hk : k ≤ o.name.length) :
    o.image.getD k 0xff = (o.name ++ [0]).getD k 0xff := by
  unfold DataObject.image
  rw [if_neg (by simp [hseg]), List.getD_append _ _ _ _ (by rw [List.length_append]; exact Nat.lt_succ_of_le hk)]

private theorem getD_image_data {k : Nat} (hk : k < o.data.length) :
    o.image.getD (o.start + k) 0xff = o.data.getD k 0xff := by
  have hdata : o.data ≠ [] := List.ne_nil_of_length_pos (by omega)
  have hlen : (if o.isSegment then [] else o.name ++ [0]).length = o.start := by
    unfold DataObject.start
    cases o.isSegment <;> simp
  unfold DataObject.image
  rw [if_pos (show o.isSegment = true ∨ o.data ≠ [] from .inr hdata), List.getD_append_right _ _ _ _ (by omega), hlen,
    Nat.add_sub_cancel_left, List.getD_append _ _ _ _ hk]

/-- The end of an object is found from the end of its space. -/
private theorem DataObject.Stored.scanDown_end (h : o.Stored mem) :
    scanDown mem (o.location + o.size - 1) = some (o.location + (o.image.length - 1)) := by
  obtain ⟨l, hl⟩ := image_last (o := o)
  have hlen : o.image.length = l.length + 1 := by
    rw [hl, List.length_append, List.length_singleton]
  have hfits := h.fits
  refine scanDown_eq (by omega) ?_ fun i hi hiq => ?_
  · rw [h.content _ (by omega), hlen, Nat.add_sub_cancel, hl, List.getD_append_right _ _ _ _ (Nat.le_refl _), Nat.sub_self]
    rfl
  · obtain ⟨k, rfl⟩ : ∃ k, i = o.location + k := ⟨i - o.location, by omega⟩
    rw [h.content _ (by omega), List.getD_eq_default _ _ (by omega)]
    decide

/-- The zero behind the name is found from the beginning. -/
private theorem DataObject.Stored.scanUp_name (h : o.Stored mem) (hseg : o.isSegment = false) :
    scanUp mem o.size o.location = some (o.location + o.name.length) := by
  have hfits := h.fits
  have hlen := length_image (o := o)
  have hstart : o.start = o.name.length + 1 := if_neg (by simp [hseg])
  refine scanUp_eq (by omega) (by omega) ?_ fun i hi hiz => ?_
  · rw [h.content _ (by omega), getD_image_name hseg (Nat.le_refl _), List.getD_append_right _ _ _ _ (Nat.le_refl _),
      Nat.sub_self]
    rfl
  · obtain ⟨k, rfl⟩ : ∃ k, i = o.location + k := ⟨i - o.location, by omega⟩
    have hk : k < o.name.length := by omega
    rw [h.content _ (by omega), getD_image_name hseg (by omega), List.getD_append _ _ _ _ hk, List.getD_eq_getElem _ _ hk]
    exact h.name hseg _ (List.getElem_mem hk)

/-- `segment_datasize` finds the size of the data. -/
theorem DataObject.Stored.datasize (h : o.Stored mem) : segmentDatasize mem o = some (o.data.length : Int) := by
  have hfits := h.fits
  have hlen := length_image (o := o)
  unfold segmentDatasize
  cases hseg : o.isSegment with
  | true =>
    have hstart : o.start = 0 := if_pos hseg
    rw [if_pos rfl, h.scanDown_end, Option.bind_some, Option.map_some]
    rw [if_pos (.inl hseg)] at hlen
    rw [if_pos (by omega)]
    congr 1
    omega
  | false =>
    have hstart : o.start = o.name.length + 1 := if_neg (by simp [hseg])
    rw [if_neg Bool.false_ne_true, h.scanDown_end, h.scanUp_name hseg, Option.map_some, Option.bind_some, Option.map_some]
    simp only [Int.ofNat_eq_natCast]
    by_cases hdata : o.data = []
    · rw [if_neg (by simp [hseg, hdata])] at hlen
      rw [if_neg (by omega), hdata, List.length_nil]
      congr 1
      omega
    · rw [if_pos (.inr hdata)] at hlen
      rw [if_pos (by omega)]
      congr 1
      omega

private theorem DataObject.Stored.data_start (h : o.Stored mem) : addr2data mem o = some (o.location + o.start) := by
  unfold addr2data DataObject.start
  cases hseg : o.isSegment with
  | true => rfl
  | false =>
    rw [if_neg Bool.false_ne_true, if_neg Bool.false_ne_true, h.scanUp_name hseg]
    rfl

/-- `segment_read` reads the data. -/
theorem DataObject.Stored.read (h : o.Stored mem) {offset : Nat} (hoffset : offset ≤ o.data.length) (size : Nat) :
    segmentReadAt mem o size offset = some ((o.data.drop offset).take size) := by
  have hfits := h.fits
  have hlen := length_image (o := o)
  obtain ⟨n, hn⟩ : ∃ n, min size (o.data.length - offset) = n := ⟨_, rfl⟩
  have hcount : (if (o.data.length : Int) - offset < size then (o.data.length : Int) - offset else size).toNat = n := by
    split <;> omega
  unfold segmentReadAt
  rw [h.datasize, h.data_start, Option.bind_some, Option.map_some, hcount]
  refine congrArg some (List.ext_getElem ?_ fun k hk hk' => ?_)
  · rw [List.length_map, List.length_range, List.length_take, List.length_drop]
    omega
  · rw [List.length_map, List.length_range] at hk
    have hdata : o.data ≠ [] := List.ne_nil_of_length_pos (by omega)
    rw [if_pos (.inr hdata)] at hlen
    rw [List.getElem_map, List.getElem_range, List.getElem_take, List.getElem_drop,
      show o.location + o.start + offset + k = o.location + (o.start + (offset + k)) by omega, h.content _ (by omega),
      getD_image_data (by omega), List.getD_eq_getElem _ _ (by omega)]

end

/-! ### Blocks -/

/-- A data block: what is used are whole atoms, the last of which is not erased, and the rest is erased. -/
structure DataBlock.InOrder (blocksize : Nat) (b : DataBlock) : Prop where
  aligned : b.used % 16 = 0
  last : ∃ i, b.used ≤ i + 16 ∧ i < b.used ∧ b.mem i ≠ 0xff
  fits : b.used ≤ blocksize
  erased : ∀ i, b.used ≤ i → i < blocksize → b.mem i = 0xff
  objects : ∀ o ∈ b.objects, o.location + o.size ≤ b.used ∧ o.Stored b.mem

section
variable {mem : Octets} {a n : Nat} {x y : List (BitVec 8)}

private theorem put_append : (mem.put a x).put (a + x.length) y = mem.put a (x ++ y) := by
  funext i
  unfold Octets.put
  rw [List.length_append]
  by_cases hy : a + x.length ≤ i ∧ i < a + x.length + y.length
  · rw [if_pos hy, if_pos (by omega), List.getD_append_right _ _ _ _ (by omega)]
    congr 1
    omega
  · rw [if_neg hy]
    by_cases hx : a ≤ i ∧ i < a + x.length
    · rw [if_pos hx, if_pos (by omega), List.getD_append _ _ _ _ (by omega)]
    · rw [if_neg hx, if_neg (by omega)]

private theorem put_singleton {c : BitVec 8} : mem.put a [c] = Function.update mem a c := by
  rw [← put_cons, put_nil]

private theorem put_erased (h : mem.Erased a n) : mem.put a (List.replicate n 0xff) = mem := by
  funext i
  unfold Octets.put
  rw [List.length_replicate]
  split
  · rename_i hi
    rw [List.getD_eq_getElem _ _ (by rw [List.length_replicate]; omega), List.getElem_replicate]
    exact (h i hi.1 hi.2).symm
  · rfl

private theorem put_behind (h : mem.Erased (a + x.length) n) : (mem.put a x).Erased (a + x.length) n := by
  intro i hlow hhigh
  unfold Octets.put
  rw [if_neg (by omega)]
  exact h i hlow hhigh

/-- Data is written, and a zero behind it. -/
private theorem write_ended (h : mem.Erased a (x.length + 1)) (hlen : x.length < 65536) :
    writeByte (genericWrite mem a x) (a + x.length) 0 = mem.put a (x ++ [0]) := by
  have hdata : mem.Erased a x.length := fun i hlow hhigh => h i hlow (by omega)
  have hend : mem.Erased (a + x.length) 1 := fun i hlow hhigh => h i (by omega) (by omega)
  rw [genericWrite_eq hdata hlen, writeByte_eq (put_behind hend _ (Nat.le_refl _) (Nat.lt_succ_self _)), ← put_singleton,
    put_append]

private theorem atomalign_spec (n : Nat) : n ≤ atomalign n ∧ atomalign n < n + 16 ∧ atomalign n % 16 = 0 := by
  unfold atomalign
  omega

private theorem isFilename_length {filenameMax : Nat} {s : List (BitVec 8)} (h : ¬isFilename filenameMax s < 0) :
    isFilename filenameMax s = s.length := by
  unfold isFilename at h ⊢
  split at h
  · exact absurd (show effsBadname < 0 by decide) h
  · split at h
    · exact absurd (show effsNametoolong < 0 by decide) h
    · split at h
      · exact absurd (show effsBadname < 0 by decide) h
      · rename_i h1 h2 h3
        rw [if_neg h1, if_neg h2, if_neg h3]

end

section
variable {blocksize filenameMax : Nat} {b : DataBlock} {o : DataObject}

/-- An object is put behind the others. -/
private theorem DataBlock.InOrder.create (h : b.InOrder blocksize) (hlocation : o.location = b.used)
    (hsize : o.size = atomalign o.image.length) (hfits : b.used + o.size ≤ blocksize)
    (hname : o.isSegment = false → ∀ c ∈ o.name, c ≠ 0) :
    DataBlock.InOrder blocksize ⟨b.mem.put b.used o.image, b.used + o.size, o :: b.objects⟩ := by
  obtain ⟨hle, hlt, hmod⟩ := atomalign_spec o.image.length
  have haligned := h.aligned
  obtain ⟨l, hl⟩ := image_last (o := o)
  have hlen : o.image.length = l.length + 1 := by
    rw [hl, List.length_append, List.length_singleton]
  rw [← hsize] at hle hlt hmod
  refine ⟨?_, ⟨b.used + l.length, ?_, ?_, ?_⟩, hfits, fun i hlow hhigh => ?_, fun o' ho' => ?_⟩
  · show (b.used + o.size) % 16 = 0
    omega
  · show b.used + o.size ≤ b.used + l.length + 16
    omega
  · show b.used + l.length < b.used + o.size
    omega
  · show b.mem.put b.used o.image (b.used + l.length) ≠ 0xff
    unfold Octets.put
    rw [if_pos (by omega), Nat.add_sub_cancel_left, hl, List.getD_append_right _ _ _ _ (Nat.le_refl _), Nat.sub_self]
    decide
  · show b.mem.put b.used o.image i = 0xff
    have hlow : b.used + o.size ≤ i := hlow
    unfold Octets.put
    rw [if_neg (by omega)]
    exact h.erased i (by omega) hhigh
  · rcases List.mem_cons.1 ho' with rfl | hmem
    · refine ⟨Nat.le_of_eq (by rw [hlocation]), hname, hle, fun k hk => ?_⟩
      show b.mem.put b.used o'.image (o'.location + k) = _
      rw [hlocation]
      unfold Octets.put
      by_cases hin : k < o'.image.length
      · rw [if_pos (by omega), Nat.add_sub_cancel_left, List.getD_eq_getElem _ _ hin, List.getD_eq_getElem _ _ hin]
      · rw [if_neg (by omega), List.getD_eq_default _ _ (by omega)]
        exact h.erased _ (by omega) (by omega)
    · -- the objects in front are where they were
      obtain ⟨hfront, hstored⟩ := h.objects o' hmem
      refine ⟨Nat.le_trans hfront (Nat.le_add_right _ _), hstored.name, hstored.fits, fun k hk => ?_⟩
      show b.mem.put b.used o.image (o'.location + k) = _
      unfold Octets.put
      rw [if_neg (by omega)]
      exact hstored.content k hk

private theorem segmentCreate_inOrder (h : b.InOrder blocksize) {buf : List (BitVec 8)} {size : Nat} {result ret : Int}
    {b' : DataBlock} (hsize : size < 65536) (hbuf : size ≤ buf.length)
    (hstep : b.segmentCreate blocksize buf size result = some (ret, b')) : b'.InOrder blocksize := by
  unfold DataBlock.segmentCreate at hstep
  simp only at hstep
  split at hstep
  · cases hstep
    exact h
  · split at hstep
    · cases hstep
    · rename_i hroom
      cases hstep
      have hlen : (buf.take size).length = size := by
        rw [List.length_take]
        omega
      have hle := (atomalign_spec (size + 1)).1
      have herased : b.mem.Erased b.used (size + 1) := fun i hlow hhigh => h.erased i hlow (by omega)
      have himage : DataObject.image ⟨true, b.used, atomalign (size + 1), [], buf.take size⟩ = buf.take size ++ [0] := by
        unfold DataObject.image
        rw [if_pos rfl, if_pos (.inl rfl), List.nil_append]
      have hmem : writeByte (genericWrite b.mem b.used (buf.take size)) (b.used + size) 0 =
          b.mem.put b.used (buf.take size ++ [0]) := by
        have hwrite := @write_ended b.mem b.used (buf.take size) (hlen.symm ▸ herased) (by omega)
        rwa [hlen] at hwrite
      rw [hmem, ← himage]
      refine h.create (o := ⟨true, b.used, atomalign (size + 1), [], buf.take size⟩) rfl ?_ (Nat.le_of_not_lt hroom)
        fun hseg => absurd hseg (by simp)
      rw [himage, List.length_append, hlen]
      rfl

/-- The data behind the name, which is not written for the journal file. -/
private theorem write_data {mem : Octets} {a size : Nat} {data stored : List (BitVec 8)} (h : mem.Erased a (size + 1))
    (hsize : size < 65536) (hlen : stored.length = size)
    (hdata : data = stored ∨ (data = [] ∧ stored = List.replicate size 0xff)) :
    writeByte (genericWrite mem a data) (a + size) 0 = mem.put a (stored ++ [0]) := by
  subst hlen
  rcases hdata with rfl | ⟨rfl, hstored⟩
  · exact write_ended h hsize
  · have herased : mem.Erased a stored.length := fun i hlow hhigh => h i hlow (by omega)
    have hend := h (a + stored.length) (by omega) (by omega)
    have hput : mem.put a stored = mem := by
      rw [hstored]
      exact put_erased herased
    rw [← put_append, hput, put_singleton, ← writeByte_eq hend]
    rfl

private theorem objectCreate_inOrder (h : b.InOrder blocksize) {isRoot : Bool} {name : CString}
    {buf : Option (List (BitVec 8))} {size : Nat} {result ret : Int} {b' : DataBlock} (hname : name.octets.length + 1 < 65536)
    (hsize : size < 65536) (hbuf : ∀ d, buf = some d → size ≤ d.length)
    (hstep : b.objectCreate blocksize filenameMax isRoot name buf size result = some (ret, b')) : b'.InOrder blocksize := by
  unfold DataBlock.objectCreate at hstep
  obtain ⟨namelength, hnl⟩ : ∃ namelength,
      (if isRoot then (name.octets.length : Int) else isFilename filenameMax name.octets) = namelength := ⟨_, rfl⟩
  simp only [hnl] at hstep
  by_cases hneg : namelength < 0
  · rw [if_pos hneg] at hstep
    cases hstep
    exact h
  rw [if_neg hneg] at hstep
  have hnamelength : namelength.toNat = name.octets.length := by
    cases isRoot with
    | true => rw [← hnl, if_pos rfl, Int.toNat_natCast]
    | false =>
      rw [if_neg Bool.false_ne_true] at hnl
      rw [← hnl] at hneg ⊢
      rw [isFilename_length hneg, Int.toNat_natCast]
  by_cases hinvalid : name.octets ≠ ffsJournalName ∧ buf = none ∧ 0 < size
  · rw [if_pos hinvalid] at hstep
    cases hstep
    exact h
  rw [if_neg hinvalid] at hstep
  by_cases hfails : result < 0
  · rw [if_pos hfails] at hstep
    cases hstep
    exact h
  rw [if_neg hfails, hnamelength] at hstep
  obtain ⟨data, hdata⟩ : ∃ data, (if name.octets = ffsJournalName then [] else (buf.getD []).take size) = data := ⟨_, rfl⟩
  obtain ⟨stored, hstored⟩ : ∃ stored,
      (if name.octets = ffsJournalName then List.replicate size 0xff else data) = stored := ⟨_, rfl⟩
  rw [hdata, hstored] at hstep
  have hkind : (data = stored ∨ (data = [] ∧ stored = List.replicate size 0xff)) ∧ stored.length = size := by
    by_cases hjournal : name.octets = ffsJournalName
    · rw [if_pos hjournal] at hdata hstored
      exact ⟨.inr ⟨hdata.symm, hstored.symm⟩, by rw [← hstored, List.length_replicate]⟩
    · rw [if_neg hjournal] at hdata hstored
      refine ⟨.inl hstored, ?_⟩
      rw [← hstored, ← hdata, List.length_take]
      cases hb : buf with
      | none =>
        have hzero : ¬0 < size := fun hpos => hinvalid ⟨hjournal, hb, hpos⟩
        omega
      | some d =>
        have hle : size ≤ d.length := hbuf d hb
        exact Nat.min_eq_left hle
  obtain ⟨hkind, hlen⟩ := hkind
  obtain ⟨realsize, hrealsize⟩ : ∃ realsize,
      atomalign (name.octets.length + 1 + size + if 0 < size then 1 else 0) = realsize := ⟨_, rfl⟩
  rw [hrealsize] at hstep
  by_cases hroom : blocksize < b.used + realsize
  · rw [if_pos hroom] at hstep
    cases hstep
  rw [if_neg hroom] at hstep
  -- what is written is the image of the object
  have himage : DataObject.image ⟨false, b.used, realsize, name.octets, stored⟩ =
      name.octets ++ [0] ++ if 0 < size then stored ++ [0] else [] := by
    unfold DataObject.image
    rw [if_neg Bool.false_ne_true]
    by_cases hpos : 0 < size
    · rw [if_pos hpos, if_pos (.inr (List.ne_nil_of_length_pos (hlen ▸ hpos)))]
    · have hnil : stored = [] := List.eq_nil_of_length_eq_zero (by omega)
      rw [if_neg hpos, if_neg (by simp [hnil])]
  have hmem : (if 0 < size then
        writeByte (genericWrite (genericWrite b.mem b.used (name.octets ++ [0])) (b.used + name.octets.length + 1) data)
          (b.used + name.octets.length + 1 + size) 0
      else genericWrite b.mem b.used (name.octets ++ [0])) =
      b.mem.put b.used (DataObject.image ⟨false, b.used, realsize, name.octets, stored⟩) := by
    have hle := (atomalign_spec (name.octets.length + 1 + size + if 0 < size then 1 else 0)).1
    rw [hrealsize] at hle
    have hnlen : (name.octets ++ [0]).length = name.octets.length + 1 := by
      rw [List.length_append, List.length_singleton]
    have hfirst : b.mem.Erased b.used (name.octets ++ [0]).length := fun i hlow hhigh => h.erased i hlow (by omega)
    rw [genericWrite_eq hfirst (by omega), himage]
    by_cases hpos : 0 < size
    · rw [if_pos hpos] at hle ⊢
      have hrest : b.mem.Erased (b.used + (name.octets ++ [0]).length) (size + 1) := fun i hlow hhigh =>
        h.erased i (by omega) (by omega)
      have hwrite := write_data (put_behind hrest) hsize hlen hkind
      rw [put_append, hnlen] at hwrite
      rw [if_pos hpos]
      exact hwrite
    · rw [if_neg hpos, if_neg hpos, List.append_nil]
  rw [hmem] at hstep
  cases hstep
  refine h.create (o := ⟨false, b.used, realsize, name.octets, stored⟩) rfl ?_ (Nat.le_of_not_lt hroom)
    fun _ => name.nonzero
  rw [himage, List.length_append, List.length_append, List.length_singleton]
  show realsize = _
  rw [← hrealsize]
  by_cases hpos : 0 < size
  · rw [if_pos hpos, if_pos hpos, List.length_append, hlen]
    rfl
  · rw [if_neg hpos, if_neg hpos, List.length_nil, Nat.eq_zero_of_not_pos hpos]

/-- A block stays in order whatever is created in it. -/
private theorem reach_inOrder (hsize : bheaderSize ≤ blocksize)
    (h : (dataBlocks blocksize filenameMax).Reach (fun _ e => e.sound) b) : b.InOrder blocksize := by
  refine h.invariant (fun b hinit => ?_) fun b e b' hb hs hstep => ?_
  · obtain ⟨hused, hobjects, ⟨i, hi, hheader⟩, herased⟩ := hinit
    refine ⟨by rw [hused]; rfl, ⟨i, ?_, ?_, hheader⟩, by rw [hused]; exact hsize, ?_, ?_⟩
    · rw [hused]
      exact Nat.le_add_left _ _
    · rw [hused]
      exact hi
    · rw [hused]
      exact herased
    · rw [hobjects]
      exact fun o ho => absurd ho List.not_mem_nil
  · cases e with
    | objectCreate isRoot name buf size result =>
      obtain ⟨⟨ret, b''⟩, hcreate, rfl⟩ := Option.map_eq_some_iff.1 hstep
      have hs : (decide (name.octets.length + 1 < 65536) && decide (size < 65536) &&
        buf.all fun d => decide (size ≤ d.length)) = true := hs
      rw [Bool.and_eq_true, Bool.and_eq_true, decide_eq_true_iff, decide_eq_true_iff] at hs
      refine objectCreate_inOrder hb hs.1.1 hs.1.2 (fun d hd => ?_) hcreate
      have hall := hs.2
      rw [hd] at hall
      exact of_decide_eq_true hall
    | segmentCreate buf size result =>
      obtain ⟨⟨ret, b''⟩, hcreate, rfl⟩ := Option.map_eq_some_iff.1 hstep
      have hs : (decide (size < 65536) && decide (size ≤ buf.length)) = true := hs
      rw [Bool.and_eq_true, decide_eq_true_iff, decide_eq_true_iff] at hs
      exact segmentCreate_inOrder hb hs.1 hs.2 hcreate

/-- A block with a file of three octets in it. -/
def oneObject : DataBlock :=
  ⟨writeByte (genericWrite (genericWrite (fun i => if i = 0 then 0x46 else 0xff) 16 [0x61, 0]) 18 [1, 2, 3]) 21 0, 32,
    [⟨false, 16, 16, [0x61], [1, 2, 3]⟩]⟩

private theorem oneObject_name : ∀ c ∈ [(0x61 : BitVec 8)], c ≠ 0 := by decide

private theorem oneObject_reach : (dataBlocks 64 20).Reach (fun _ e => e.sound) oneObject :=
  .step (s := ⟨fun i => if i = 0 then 0x46 else 0xff, 16, []⟩)
    (e := .objectCreate false ⟨[0x61], oneObject_name⟩ (some [1, 2, 3]) 3 5)
    (.init ⟨rfl, rfl, ⟨0, by decide, by decide⟩, fun _ hi _ => if_neg (Nat.ne_of_gt (Nat.lt_of_lt_of_le (by decide) hi))⟩)
    rfl rfl

private theorem lastAtom_eq {mem : Octets} {j n : Nat} (hle : j ≤ n)
    (herased : ∀ k, j < k → k ≤ n → atomErased mem k = true) (hlast : atomErased mem j = false) : lastAtom mem n = j := by
  induction n with
  | zero => exact (Nat.le_zero.1 hle).symm
  | succ n ih =>
    unfold lastAtom
    rcases Nat.eq_or_lt_of_le hle with rfl | hlt
    · rw [hlast]
      rfl
    · rw [herased (n + 1) hlt (Nat.le_refl _)]
      exact ih (by omega) fun k hk hkn => herased k hk (by omega)

end

end Citrine.Ffs
