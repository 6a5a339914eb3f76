import Mathlib.Tactic.IntervalCases

/-!
# The parameters of the file system

`fs_params_init` computes the limits of the file system from the size and the number of the blocks, and takes options
from the name of the root directory.  It lowers limits one after the other, and with three blocks the last of these
steps breaks what the step before it has seen to (`params_consistent_iff`).
-/

namespace Citrine.Ffs

/-! ### The types of the parameters -/

/-- A value stored as `int8`. -/
def int8 (x : Int) : Int := Int.bmod x (2 ^ 8)
/-- A value stored as `int16`, the type `iref_t`. -/
def int16 (x : Int) : Int := Int.bmod x (2 ^ 16)
/-- A value stored as `int`. -/
def int32 (x : Int) : Int := Int.bmod x (2 ^ 32)
/-- A value stored as `uint8`. -/
def uint8 (x : Int) : Int := x % 2 ^ 8
/-- A value computed as `uint32`. -/
def uint32 (x : Int) : Int := x % 2 ^ 32

theorem int16_of_range {x : Int} (h : -2 ^ 15 ≤ x) (h' : x < 2 ^ 15) : int16 x = x :=
  Int.bmod_eq_of_le (by omega) (by omega)

theorem int32_of_range {x : Int} (h : -2 ^ 31 ≤ x) (h' : x < 2 ^ 31) : int32 x = x :=
  Int.bmod_eq_of_le (by omega) (by omega)

theorem uint32_of_range {x : Int} (h : 0 ≤ x) (h' : x < 2 ^ 32) : uint32 x = x := Int.emod_eq_of_lt h h'

/-! ### Constants -/

/-- `FFS_INODES_MAX` -/
def ffsInodesMax : Int := 2048
/-- `sizeof(struct inode_s)` -/
def inodeSize : Int := 16
/-- `sizeof(struct journal_s)` -/
def journalEntrySize : Int := 16
/-- `FFS_FILENAME_MAX` -/
def ffsFilenameMax : Int := 20
/-- `FFS_PATH_DEPTH_MAX` -/
def ffsPathDepthMax : Int := 6
/-- `FFS_FD_MAX` -/
def ffsFdMax : Int := 4
/-- `FFS_JOURNAL_SIZE_IN256THS` -/
def ffsJournalSizeIn256ths : Int := 16
/-- `FFS_JOURNAL_SIZE_MIN` -/
def ffsJournalSizeMin : Int := 1024
/-- `FFS_JOURNAL_MARGIN` -/
def ffsJournalMargin : Int := 4
/-- `1 << FFS_ATOM_LOG2` -/
def atomsize : Int := 16

/-! ### The defaults -/

/-- The device: its blocks have a power of two of octets. -/
structure Dev where
  numblocks : Nat
  blocksizeLd : Nat
  numblocks_lt : numblocks < 256
  blocksizeLd_lt : blocksizeLd < 32

/-- The size of a block. -/
def Dev.blocksize (dev : Dev) : Int := 2 ^ dev.blocksizeLd

section
variable (dev : Dev)

/-- The default of `fs.blocks_free_min`. -/
def Dev.blocksFreeMin : Int := if 2 < dev.numblocks then 1 else 0

/-- `numdatablocks` -/
def Dev.numdatablocks : Int := dev.numblocks - dev.blocksFreeMin - 1

/-- The default of `fs.inodes_max`. -/
def Dev.inodesMax : Int :=
  let inodesMax := int16 (dev.blocksize / inodeSize)
  if ffsInodesMax < inodesMax then ffsInodesMax else inodesMax

/-- The first value of `fs.objects_max`. -/
def Dev.objectsFirst : Int := dev.inodesMax.tdiv 2

/-- The default of `fs.chunk_size_max`. -/
def Dev.chunkSizeMax : Int :=
  if 1024 * 1024 < uint32 (dev.numblocks * dev.blocksize) then 8192
  else if dev.blocksize / 8 < 2048 then dev.blocksize / 8 else 2048

/-- The default of `fs.journal_size`. -/
def Dev.journalSize : Int :=
  let journalSize := uint32 (ffsJournalSizeIn256ths * dev.blocksize) / 256
  if journalSize < ffsJournalSizeMin then ffsJournalSizeMin else journalSize

/-- The first value of `fs.block_files_max`, for the entries of a journal. -/
def Dev.blockFilesFirst : Int := dev.journalSize / journalEntrySize - ffsJournalMargin - 2

/-- The default of `fs.block_files_max`. -/
def Dev.blockFilesMax : Int :=
  if dev.objectsFirst.tdiv 2 < int16 dev.blockFilesFirst then dev.objectsFirst.tdiv 2 - 4 else int16 dev.blockFilesFirst

/-- The default of `fs.objects_max`, which is lowered to what the data blocks can hold. -/
def Dev.objectsMax : Int :=
  if dev.numdatablocks * dev.blockFilesMax < dev.objectsFirst then
    int16 (dev.numdatablocks * dev.blockFilesMax + 10)
  else dev.objectsFirst

/-- What the default of `fs.reserved_space` is the sum of. -/
def Dev.reservedSum : Int :=
  dev.blocksize / 2 + uint32 (dev.numdatablocks * dev.blocksize) / 16 + uint32 (2 * dev.journalSize)

/-- The parameters of `fs`, and the number of blocks, which an option can change. -/
structure Params where
  numblocks : Int
  filenameMax : Int
  pathDepthMax : Int
  fdMax : Int
  flags : Int
  testflags : Int
  lostThreshold : Int
  blocksFreeMin : Int
  inodesMax : Int
  objectsMax : Int
  blockFilesMax : Int
  blockFilesReserved : Int
  chunkSizeMax : Int
  fdBufSize : Int
  journalSize : Int
  reservedSpace : Int
  filesizeMax : Int
  chunkSizeMin : Int
  deriving DecidableEq, Repr

/-- The parameters before the options; the last ones are computed later. -/
def Dev.defaults : Params where
  numblocks := dev.numblocks
  filenameMax := ffsFilenameMax
  pathDepthMax := ffsPathDepthMax
  fdMax := ffsFdMax
  flags := 0
  testflags := 0
  lostThreshold := 256 - 256 / 10
  blocksFreeMin := dev.blocksFreeMin
  inodesMax := dev.inodesMax
  objectsMax := dev.objectsMax
  blockFilesMax := dev.blockFilesMax
  blockFilesReserved := 0
  chunkSizeMax := dev.chunkSizeMax
  fdBufSize := dev.chunkSizeMax
  journalSize := dev.journalSize
  reservedSpace := int32 dev.reservedSum
  filesizeMax := 0
  chunkSizeMin := 0

/-! ### The options -/

/-- The text behind the second slash of the name. -/
def behindSlashes : Nat → List Char → List Char
  | _, [] => []
  | n, c :: p => if c = '/' then (if n + 1 = 2 then p else behindSlashes (n + 1) p) else behindSlashes n p

/-- The value of an option, and the text behind it. -/
def optionValue : Int → List Char → Int × List Char
  | n, [] => (n, [])
  | n, c :: p =>
    if '0' ≤ c ∧ c ≤ '9' then optionValue (uint32 (10 * n + (c.toNat - '0'.toNat : Nat))) p else (n, c :: p)

/-- An option replaces a parameter. -/
def Params.option (q : Params) (opt : Char) (n : Int) : Params :=
  match opt with
  | 'b' => { q with numblocks := uint8 n }
  | 'm' => { q with blocksFreeMin := int8 n }
  | 'i' => { q with inodesMax := int16 n }
  | 'o' => { q with objectsMax := int16 n }
  | 'n' => { q with filenameMax := uint8 n }
  | 'f' => { q with blockFilesMax := int16 n }
  | 'd' => { q with fdMax := uint8 n }
  | 's' => { q with fdBufSize := int32 n }
  | 't' => { q with lostThreshold := uint8 n }
  | 'z' => { q with flags := uint8 n }
  | 'j' => { q with journalSize := n }
  | 'c' => { q with chunkSizeMax := int32 n }
  | 'r' => { q with reservedSpace := int32 n }
  | _ => q

/-- The options of a text, which has at most so many characters. -/
def Params.options : Nat → Params → List Char → Params
  | 0, q, _ => q
  | _ + 1, q, [] => q
  | fuel + 1, q, opt :: p => (q.option opt (optionValue 0 p).1).options fuel (optionValue 0 p).2

/-! ### `fs_params_init` -/

/-- The parameters that depend on the options. -/
def Dev.adjusted (q : Params) : Params :=
  if q.journalSize = 0 then
    { q with blockFilesMax := q.objectsMax.tdiv 2, reservedSpace := 0, blockFilesReserved := 0 }
  else
    let q := if q.journalSize < ffsJournalSizeMin
      then { q with journalSize := uint32 (q.journalSize * dev.blocksize) / 256 } else q
    let q := if uint32 q.reservedSpace < uint32 (2 * q.journalSize)
      then { q with reservedSpace := int32 (uint32 (q.reservedSpace * dev.blocksize) / 256) } else q
    { q with blockFilesReserved := 2 }

/-- What is left for the data of a file, before the chunks are counted. -/
def Dev.filesizeSum (q : Params) : Int :=
  dev.numdatablocks * dev.blocksize - q.reservedSpace - dev.numdatablocks * 16 - ffsFilenameMax

/-- What is left when the chunks are counted. -/
def Dev.filesizeLeft (q : Params) : Int :=
  let filesizeMax := int32 (dev.filesizeSum q)
  filesizeMax - (filesizeMax.tdiv q.chunkSizeMax * atomsize + atomsize)

/-- `fs_params_init`, for the name of the root directory. -/
def Dev.fsParamsInit (p : List Char) : Params :=
  let options := behindSlashes 0 p
  let q := dev.adjusted (dev.defaults.options options.length options)
  { q with
    filesizeMax := int32 (dev.filesizeLeft q)
    chunkSizeMin := dev.numdatablocks.tdiv q.objectsMax }

end

/-! ### What the parameters have to satisfy -/

/-- The limits that the comments of `fs_params_init` call for. -/
structure Consistent (dev : Dev) (q : Params) : Prop where
  objects : q.objectsMax ≤ q.inodesMax - q.blockFilesMax
  filesPos : 0 < q.blockFilesMax
  files : q.blockFilesMax < q.objectsMax.tdiv 2
  inodes : 16 + q.inodesMax * inodeSize ≤ dev.blocksize
  journalPos : 0 < q.journalSize
  journalAligned : q.journalSize % atomsize = 0
  chunkPos : 0 < q.chunkSizeMax
  chunkAligned : q.chunkSizeMax % atomsize = 0

/-- The values that are stored fit the types of their fields, and the products those they are computed in. -/
structure NoOverflow (dev : Dev) (q : Params) : Prop where
  inodes : dev.blocksize / inodeSize < 2 ^ 15
  total : dev.numblocks * dev.blocksize < 2 ^ 32
  journal : ffsJournalSizeIn256ths * dev.blocksize < 2 ^ 32
  files : 0 ≤ dev.blockFilesFirst ∧ dev.blockFilesFirst < 2 ^ 15
  objects : dev.numdatablocks * dev.blockFilesMax < dev.objectsFirst →
    dev.numdatablocks * dev.blockFilesMax + 10 < 2 ^ 15
  data : dev.numdatablocks * dev.blocksize < 2 ^ 32
  reserved : dev.reservedSum < 2 ^ 31
  filesize : -2 ^ 31 ≤ dev.filesizeSum q ∧ dev.filesizeSum q < 2 ^ 31
  left : -2 ^ 31 ≤ dev.filesizeLeft q ∧ dev.filesizeLeft q < 2 ^ 31

section
variable {dev : Dev} {q : Params} {p : List Char}

/-- A journal file always has some room. -/
private theorem journalSize_ge (dev : Dev) : 1024 ≤ dev.journalSize := by
  unfold Dev.journalSize ffsJournalSizeMin
  dsimp only
  split <;> omega

/-- What the defaults become when there are no options. -/
private theorem adjusted_defaults (dev : Dev) : (dev.adjusted dev.defaults).objectsMax = dev.objectsMax ∧
    (dev.adjusted dev.defaults).inodesMax = dev.inodesMax ∧
    (dev.adjusted dev.defaults).blockFilesMax = dev.blockFilesMax ∧
    (dev.adjusted dev.defaults).journalSize = dev.journalSize ∧
    (dev.adjusted dev.defaults).chunkSizeMax = dev.chunkSizeMax := by
  have hjournal := journalSize_ge dev
  have heq : dev.defaults.journalSize = dev.journalSize := by simp only [Dev.defaults]
  have hzero : ¬dev.defaults.journalSize = 0 := by
    rw [heq]
    omega
  have hmin : ¬dev.defaults.journalSize < ffsJournalSizeMin := by
    rw [heq]
    unfold ffsJournalSizeMin
    omega
  unfold Dev.adjusted
  rw [if_neg hzero]
  dsimp only
  rw [if_neg hmin]
  split <;> simp [Dev.defaults]

private theorem fsParamsInit_eq (hp : behindSlashes 0 p = []) : dev.fsParamsInit p =
    { dev.adjusted dev.defaults with
      filesizeMax := int32 (dev.filesizeLeft (dev.adjusted dev.defaults))
      chunkSizeMin := dev.numdatablocks.tdiv (dev.adjusted dev.defaults).objectsMax } := by
  unfold Dev.fsParamsInit
  rw [hp]
  rfl

/-- The block sizes for which as many inodes as there may be fit into a block and into their type. -/
private theorem blocksizeLd_of (hfit : 16 + dev.inodesMax * inodeSize ≤ dev.blocksize)
    (hstored : dev.blocksize / inodeSize < 2 ^ 15) : 16 ≤ dev.blocksizeLd ∧ dev.blocksizeLd ≤ 18 := by
  have hlt := dev.blocksizeLd_lt
  unfold Dev.inodesMax at hfit
  unfold Dev.blocksize at hfit hstored
  generalize dev.blocksizeLd = k at hlt hfit hstored
  constructor
  · by_contra hsmall
    have hk : k < 16 := not_le.1 hsmall
    interval_cases k <;> exact absurd hfit (by decide)
  · by_contra hlarge
    have hk : 18 < k := not_le.1 hlarge
    interval_cases k <;> exact absurd hstored (by decide)

/-- The values that do not depend on the number of blocks. -/
private structure Sized (dev : Dev) : Prop where
  blocksize : 65536 ≤ dev.blocksize ∧ dev.blocksize ≤ 262144 ∧ dev.blocksize / 16 < 2 ^ 15
  inodes : dev.inodesMax = 2048
  objects : dev.objectsFirst = 1024
  journal : 4096 ≤ dev.journalSize ∧ dev.journalSize ≤ 16384 ∧ dev.journalSize % 16 = 0
  journalProduct : ffsJournalSizeIn256ths * dev.blocksize < 2 ^ 32
  filesFirst : 0 ≤ dev.blockFilesFirst ∧ dev.blockFilesFirst < 2 ^ 15
  files : 250 ≤ dev.blockFilesMax ∧ dev.blockFilesMax ≤ 508

private theorem sized (h : 16 ≤ dev.blocksizeLd) (h' : dev.blocksizeLd ≤ 18) : Sized dev := by
  have hinodes : dev.inodesMax = 2048 := by
    unfold Dev.inodesMax Dev.blocksize
    generalize dev.blocksizeLd = k at h h'
    interval_cases k <;> decide
  have hobjects : dev.objectsFirst = 1024 := by
    unfold Dev.objectsFirst
    rw [hinodes]
    decide
  refine ⟨?_, hinodes, hobjects, ?_, ?_, ?_, ?_⟩
  · unfold Dev.blocksize
    generalize dev.blocksizeLd = k at h h'
    interval_cases k <;> decide
  · unfold Dev.journalSize Dev.blocksize
    generalize dev.blocksizeLd = k at h h'
    interval_cases k <;> decide
  · unfold Dev.blocksize
    generalize dev.blocksizeLd = k at h h'
    interval_cases k <;> decide
  · unfold Dev.blockFilesFirst Dev.journalSize Dev.blocksize
    generalize dev.blocksizeLd = k at h h'
    interval_cases k <;> decide
  · unfold Dev.blockFilesMax Dev.blockFilesFirst Dev.journalSize Dev.blocksize
    rw [hobjects]
    generalize dev.blocksizeLd = k at h h'
    interval_cases k <;> decide

private theorem numdatablocks_eq (hn : 2 < dev.numblocks) : dev.numdatablocks = dev.numblocks - 2 := by
  unfold Dev.numdatablocks Dev.blocksFreeMin
  rw [if_pos hn]
  omega

/-- Every data block counts at least twice the half of the files of a block. -/
private theorem limits_iff (hs : Sized dev) (hn : 2 < dev.numblocks) :
    (dev.objectsMax ≤ dev.inodesMax - dev.blockFilesMax ∧ dev.blockFilesMax < dev.objectsMax.tdiv 2) ↔
      4 ≤ dev.numblocks := by
  have hdata := numdatablocks_eq hn
  obtain ⟨hlow, hhigh⟩ := hs.files
  have htdiv : ∀ x : Int, 0 ≤ x → x.tdiv 2 = x / 2 := fun x hx => Int.tdiv_eq_ediv_of_nonneg hx
  unfold Dev.objectsMax
  rw [hs.inodes, hs.objects]
  constructor
  · rintro ⟨-, hfiles⟩
    by_contra hfew
    have hone : dev.numdatablocks = 1 := by omega
    rw [hone, Int.one_mul, if_pos (by omega), int16_of_range (by omega) (by omega), htdiv _ (by omega)] at hfiles
    omega
  · intro hfour
    have htwo : 2 * dev.blockFilesMax ≤ dev.numdatablocks * dev.blockFilesMax :=
      Int.mul_le_mul_of_nonneg_right (by omega) (by omega)
    generalize dev.numdatablocks * dev.blockFilesMax = total at htwo
    split
    · rw [int16_of_range (by omega) (by omega), htdiv _ (by omega)]
      omega
    · rw [htdiv _ (by omega)]
      omega

/-- The reserved space stays at its default. -/
private theorem adjusted_reserved (hj : 2 * dev.journalSize < 2 ^ 32) (hsum : dev.reservedSum < 2 ^ 31)
    (hmore : 2 * dev.journalSize ≤ dev.reservedSum) :
    (dev.adjusted dev.defaults).reservedSpace = dev.reservedSum := by
  have hjournal := journalSize_ge dev
  have heq : dev.defaults.journalSize = dev.journalSize := by simp only [Dev.defaults]
  have hres : dev.defaults.reservedSpace = dev.reservedSum := by
    simp only [Dev.defaults]
    exact int32_of_range (by omega) hsum
  have hzero : ¬dev.defaults.journalSize = 0 := by
    rw [heq]
    omega
  have hmin : ¬dev.defaults.journalSize < ffsJournalSizeMin := by
    rw [heq]
    unfold ffsJournalSizeMin
    omega
  unfold Dev.adjusted
  rw [if_neg hzero]
  dsimp only
  rw [if_neg hmin, hres, heq, uint32_of_range (by omega) (by omega), uint32_of_range (by omega) hj, if_neg (by omega)]
  exact hres

private theorem sized_noOverflow (hs : Sized dev) (hn : 2 < dev.numblocks) :
    NoOverflow dev (dev.adjusted dev.defaults) := by
  have hdata := numdatablocks_eq hn
  have hlt := dev.numblocks_lt
  obtain ⟨hlow, hhigh, hinodes⟩ := hs.blocksize
  obtain ⟨hjlow, hjhigh, -⟩ := hs.journal
  have htotal : dev.numblocks * dev.blocksize ≤ 255 * 262144 :=
    Int.mul_le_mul (by omega) hhigh (by omega) (by omega)
  have hdatable : dev.numdatablocks * dev.blocksize ≤ 255 * 262144 :=
    Int.mul_le_mul (by omega) hhigh (by omega) (by omega)
  have hdatapos : 0 ≤ dev.numdatablocks * dev.blocksize := Int.mul_nonneg (by omega) (by omega)
  have hsum : 2 * dev.journalSize ≤ dev.reservedSum ∧ dev.reservedSum < 2 ^ 23 := by
    unfold Dev.reservedSum
    rw [uint32_of_range hdatapos (by omega), uint32_of_range (by omega) (by omega)]
    omega
  have hreserved := adjusted_reserved (by omega) (by omega) hsum.1
  have hfilesize : -2 ^ 24 ≤ dev.filesizeSum (dev.adjusted dev.defaults) ∧
      dev.filesizeSum (dev.adjusted dev.defaults) < 2 ^ 26 := by
    unfold Dev.filesizeSum ffsFilenameMax
    rw [hreserved]
    omega
  refine ⟨hinodes, by omega, hs.journalProduct, hs.filesFirst, fun h => ?_, by omega, by omega, by omega, ?_⟩
  · rw [hs.objects] at h
    omega
  · unfold Dev.filesizeLeft atomsize
    rw [int32_of_range (by omega) (by omega)]
    dsimp only
    have habs := Int.natAbs_tdiv_le_natAbs (dev.filesizeSum (dev.adjusted dev.defaults))
      (dev.adjusted dev.defaults).chunkSizeMax
    omega

private theorem NoOverflow.rest (h : NoOverflow dev q) (filesizeMax chunkSizeMin : Int) :
    NoOverflow dev { q with filesizeMax := filesizeMax, chunkSizeMin := chunkSizeMin } := by
  obtain ⟨hinodes, htotal, hjournal, hfiles, hobjects, hdata, hreserved, hfilesize, hleft⟩ := h
  have hsum : dev.filesizeSum { q with filesizeMax := filesizeMax, chunkSizeMin := chunkSizeMin } =
      dev.filesizeSum q := rfl
  refine ⟨hinodes, htotal, hjournal, hfiles, hobjects, hdata, hreserved, hsum ▸ hfilesize, ?_⟩
  unfold Dev.filesizeLeft at hleft ⊢
  rw [hsum]
  exact hleft

/-- Without options the parameters are consistent if and only if there are four blocks or more, of 64 to 256 KiB. -/
theorem params_consistent_iff (hn : 2 < dev.numblocks) (hp : behindSlashes 0 p = []) :
    Consistent dev (dev.fsParamsInit p) ∧ NoOverflow dev (dev.fsParamsInit p) ↔
      16 ≤ dev.blocksizeLd ∧ dev.blocksizeLd ≤ 18 ∧ 4 ≤ dev.numblocks := by
  obtain ⟨hobjects, hinodes, hfiles, hjournal, hchunk⟩ := adjusted_defaults dev
  rw [fsParamsInit_eq hp]
  constructor
  · rintro ⟨hc, ho⟩
    have hfit := hc.inodes
    dsimp only at hfit
    rw [hinodes] at hfit
    obtain ⟨hlow, hhigh⟩ := blocksizeLd_of hfit ho.inodes
    have hlimits := hc.objects
    have hhalf := hc.files
    dsimp only at hlimits hhalf
    rw [hobjects, hinodes, hfiles] at hlimits
    rw [hobjects, hfiles] at hhalf
    exact ⟨hlow, hhigh, (limits_iff (sized hlow hhigh) hn).1 ⟨hlimits, hhalf⟩⟩
  · rintro ⟨hlow, hhigh, hfour⟩
    have hs := sized hlow hhigh
    have ho := sized_noOverflow hs hn
    obtain ⟨hlimits, hhalf⟩ := (limits_iff hs hn).2 hfour
    have hsize := hs.blocksize
    have hjs := hs.journal
    have hfs := hs.files
    have hchunks : 0 < dev.chunkSizeMax ∧ dev.chunkSizeMax % 16 = 0 := by
      unfold Dev.chunkSizeMax
      split
      · decide
      · rw [if_neg (by omega)]
        decide
    refine ⟨⟨?_, ?_, ?_, ?_, ?_, ?_, ?_, ?_⟩, ho.rest _ _⟩
    · dsimp only
      rw [hobjects, hinodes, hfiles]
      exact hlimits
    · dsimp only
      rw [hfiles]
      omega
    · dsimp only
      rw [hobjects, hfiles]
      exact hhalf
    · dsimp only
      rw [hinodes, hs.inodes]
      unfold inodeSize
      omega
    · dsimp only
      rw [hjournal]
      omega
    · dsimp only
      rw [hjournal]
      exact hjs.2.2
    · dsimp only
      rw [hchunk]
      exact hchunks.1
    · dsimp only
      rw [hchunk]
      exact hchunks.2

end

/-! ### Three blocks -/

/-- Three blocks of 64 KiB. -/
def threeBlocks : Dev := ⟨3, 16, by decide, by decide⟩

/-- A block may have 250 files, and there may be 260 objects. -/
theorem threeBlocks_inconsistent : behindSlashes 0 ['/'] = [] ∧
    ¬(Consistent threeBlocks (threeBlocks.fsParamsInit ['/']) ∧
      NoOverflow threeBlocks (threeBlocks.fsParamsInit ['/'])) := by
  refine ⟨rfl, fun h => ?_⟩
  have hfiles := h.1.files
  have hmax : (threeBlocks.fsParamsInit ['/']).blockFilesMax = 250 := by decide
  have hobjects : (threeBlocks.fsParamsInit ['/']).objectsMax = 260 := by decide
  rw [hmax, hobjects] at hfiles
  exact absurd hfiles (by decide)

/-- Seven blocks of 64 KiB. -/
theorem sevenBlocks_consistent :
    Consistent ⟨7, 16, by decide, by decide⟩ (Dev.fsParamsInit ⟨7, 16, by decide, by decide⟩ ['/']) ∧
      NoOverflow ⟨7, 16, by decide, by decide⟩ (Dev.fsParamsInit ⟨7, 16, by decide, by decide⟩ ['/']) :=
  (params_consistent_iff (by decide) rfl).2 (by decide)

end Citrine.Ffs
