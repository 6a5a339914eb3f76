import Citrine.Ffs.Block
import Citrine.Ffs.Errors

/-!
# The ages of the blocks

When the file system is started, `blocks_fsck` reads the headers of all blocks, and finds the greatest of their ages,
which wrap.  A block that is formatted later on gets an age from the one it has had, or if it has had none from this
greatest one.
-/

namespace Citrine.Ffs

/-! ### Blocks are formatted and freed -/

/-- `BLOCK_MAGIC_LOW` -/
def blockMagicLow : BitVec 16 := 0x6646
/-- `BLOCK_MAGIC_HIGH` -/
def blockMagicHigh : BitVec 16 := 0x2373
/-- `OLD_BLOCK_MAGIC_LOW` -/
def oldBlockMagicLow : BitVec 16 := 0x5346
/-- `OLD_FFS_FORMAT_VERSION` -/
def oldFfsFormatVersion : BitVec 16 := 0x0100
/-- `FFS_FORMAT_VERSION` -/
def ffsFormatVersion : BitVec 16 := 0x0210
/-- `FLASH_NULL16` -/
def flashNull16 : BitVec 16 := 0xffff
/-- `BLOCK_COMMIT_BASE` -/
def blockCommitBase : BitVec 8 := 0x20
/-- `BLOCK_COMMIT_BEFORE` -/
def blockCommitBefore : BitVec 8 := 0x21
/-- `BLOCK_COMMIT_NO_VALID` -/
def blockCommitNoValid : BitVec 8 := 0x22
/-- `BLOCK_COMMIT_OLD_FREE` -/
def blockCommitOldFree : BitVec 8 := 0x23

/-- The header of an erased block. -/
def erased : BlockHeader := ⟨flashNull16, flashNull16, flashNull16, flashNull16, flashNull16⟩

/-- The age that follows an age; 0 is left out. -/
def ageAfter (age : BitVec 16) : BitVec 16 := if age + 1 = 0 then 1 else age + 1

/-- `block_preformat` -/
def State.blockPreformat (f : State) (b : Nat) (age : BitVec 16) : State :=
  let age' := if age = 0 then f.fs.ageMax else ageAfter age
  let f := if age ≠ 0 ∧ age = f.fs.ageMax then { f with fs := { f.fs with ageMax := age' } } else f
  let f := f.setHeader b fun h =>
    { h with age := age', version := ffsFormatVersion, magicLow := blockMagicLow, magicHigh := blockMagicHigh }
  let f := f.setStat b fun _ => ⟨0, 0, bfIsEmpty, 0⟩
  f.blockFlagsWrite b bfFree

/-- `block_reclaim` -/
def State.blockReclaim (f : State) (b : Nat) : State :=
  if f.fs.initerror = effsInvalid then f
  else if f.fs.testflags &&& blockCommitBase ≠ 0 ∧ f.fs.testflags ≠ blockCommitOldFree then f
  else
    let age := (f.header b).age
    let f := f.setHeader b fun _ => erased
    f.blockPreformat b age

/-- `block_free` -/
def State.blockFree (f : State) (b : Nat) : State := (f.blockFlagsWrite b bfLost).blockReclaim b

/-- `inodes_set` -/
def State.inodesSet (f : State) (b : Int) : State := { f with fs := { f.fs with inodes := b } }

/-- `block_commit` -/
def State.blockCommit (f : State) : State :=
  let oldinodes := f.fs.inodes
  if f.fs.testflags = blockCommitBefore then f else
  let f := f.blockFlagsWrite oldinodes.toNat bfLost
  if f.fs.testflags = blockCommitNoValid then f else
  let f := f.blockFlagsWrite f.fs.newinodes.toNat bfInodes
  let f := f.setStat f.fs.newinodes.toNat fun s => { s with lost := 0, objects := 1 }
  let f := f.inodesSet f.fs.newinodes
  f.blockFree oldinodes.toNat

section
variable {f : State} {b c : Nat}

private theorem blockReclaim_others (h : c ≠ b) :
    (f.blockReclaim b).bstat c = f.bstat c ∧ (f.blockReclaim b).fs.inodes = f.fs.inodes := by
  unfold State.blockReclaim
  split
  · exact ⟨rfl, rfl⟩
  · split
    · exact ⟨rfl, rfl⟩
    · unfold State.blockPreformat
      dsimp only
      refine ⟨?_, ?_⟩
      · split <;> simp [State.blockFlagsWrite, State.setStat, State.setHeader, Function.update_of_ne h]
      · split <;> rfl

/-- When a block is freed the records of the others stay. -/
theorem blockFree_others (h : c ≠ b) :
    (f.blockFree b).bstat c = f.bstat c ∧ (f.blockFree b).fs.inodes = f.fs.inodes := by
  obtain ⟨hstat, hinodes⟩ := blockReclaim_others (f := f.blockFlagsWrite b bfLost) h
  refine ⟨hstat.trans ?_, hinodes⟩
  simp [State.blockFlagsWrite, State.setStat, State.setHeader, Function.update_of_ne h]

/-- The block of the copies becomes the block of the inodes. -/
theorem blockCommit_spec (hbefore : f.fs.testflags ≠ blockCommitBefore)
    (hvalid : f.fs.testflags ≠ blockCommitNoValid) (hne : f.fs.newinodes.toNat ≠ f.fs.inodes.toNat) :
    f.blockCommit.fs.inodes = f.fs.newinodes ∧
      (f.blockCommit.bstat f.fs.newinodes.toNat).used = (f.bstat f.fs.newinodes.toNat).used ∧
      (f.blockCommit.bstat f.fs.newinodes.toNat).lost = 0 := by
  unfold State.blockCommit
  dsimp only
  rw [if_neg hbefore, if_neg (by exact hvalid)]
  obtain ⟨hstat, hinodes⟩ := blockFree_others (f := (((f.blockFlagsWrite f.fs.inodes.toNat bfLost).blockFlagsWrite
    f.fs.newinodes.toNat bfInodes).setStat f.fs.newinodes.toNat
      fun s => { s with lost := 0, objects := 1 }).inodesSet f.fs.newinodes) hne
  refine ⟨hinodes, ?_, ?_⟩
  · refine (congrArg BlockStat.used hstat).trans ?_
    simp [State.inodesSet, State.blockFlagsWrite, State.setStat, State.setHeader, Function.update_of_ne hne]
  · refine (congrArg BlockStat.lost hstat).trans ?_
    simp [State.inodesSet, State.setStat]

end

/-! ### `blocks_fsck` -/

/-- `age_distance` -/
def ageDistance (x y : BitVec 16) : BitVec 16 :=
  let a := x - y
  if 0x8000 < a then -a else a

/-- The variables of `blocks_fsck` for the ages. -/
structure AgeScan where
  ageMin : BitVec 16
  ageMax : BitVec 16
  ageDist : BitVec 16
  deriving DecidableEq, Repr

/-- The age of a block with a valid header. -/
def AgeScan.visit (r : AgeScan) (age : BitVec 16) : AgeScan :=
  if r.ageMin = 0 then { r with ageMin := age, ageMax := age }
  else
    let ageDistMin := ageDistance age r.ageMin
    let ageDistMax := ageDistance age r.ageMax
    if r.ageDist < ageDistMin ∨ r.ageDist < ageDistMax then
      if ageDistMin < ageDistMax then { r with ageDist := ageDistMax, ageMin := age }
      else { r with ageDist := ageDistMin, ageMax := age }
    else r

/-- The greatest age, when all blocks have been visited. -/
def AgeScan.greatest (r : AgeScan) : BitVec 16 :=
  let r := if r.ageMax = 0 then { r with ageMax := blockAgeMax, ageMin := blockAgeMax } else r
  if 0x8000 < r.ageMax - r.ageMin then r.ageMin else r.ageMax

/-- The variables of `blocks_fsck` with the state of the file system. -/
structure Fsck where
  ffs : State
  ages : AgeScan
  bToClean : Int
  bInodeLost : Int

/-- The header has the magic of a block. -/
def BlockHeader.Valid (h : BlockHeader) : Prop := h.magicLow = blockMagicLow ∧ h.magicHigh = blockMagicHigh

instance (h : BlockHeader) : Decidable h.Valid := inferInstanceAs (Decidable (_ ∧ _))

/-- A block whose header is not valid: of an old format, empty or bad. -/
def State.invalidRound (f : State) (b : Nat) : State :=
  let h := f.header b
  -- the magic of an old header is where the version and the age are now
  if h.version = oldBlockMagicLow ∧ h.age = oldFfsFormatVersion then
    let f := { f with fs := { f.fs with format := h.age } }
    f.setStat b fun s => { s with flags := bfIsData }
  else if h = erased then f.setStat b fun s => { s with used := 0, lost := 0, flags := bfIsEmpty }
  else (f.setHeader b fun h => { h with age := 0 }).blockFree b

/-- A block whose header is valid, by its state. -/
def Fsck.validRound (s : Fsck) (blockUsed : Nat → Int) (b : Nat) : Fsck :=
  let f := { s.ffs with fs := { s.ffs.fs with format := (s.ffs.header b).version } }
  if f.isBlock b bfIsFree then { s with ffs := f.setStat b fun r => { r with used := 0, lost := 0 } }
  else
    let f := f.setStat b fun r => { r with used := blockUsed b, lost := blockUsed b - bheaderSize }
    if f.isBlock b bfIsData then { s with ffs := f }
    else if f.isBlock b bfIsCleaning then { s with ffs := f, bToClean := b + 1 }
    else if f.isBlock b bfIsCopying then { s with ffs := { f with fs := { f.fs with newinodes := b } } }
    else if f.isBlock b bfIsInodes then { s with ffs := { f with fs := { f.fs with inodes := b } } }
    else if f.isBlock b bfIsInodesLost then { s with ffs := f, bInodeLost := b }
    else { s with ffs := f.blockFree b }

/-- One round of the first loop of `blocks_fsck`. -/
def Fsck.round (blockUsed : Nat → Int) (s : Fsck) (b : Nat) : Fsck :=
  let f := s.ffs.setStat b fun _ => ⟨s.ffs.blocksize, s.ffs.blocksize, (s.ffs.header b).flags, 0⟩
  if (f.header b).Valid then
    let s := { s with ffs := f }.validRound blockUsed b
    { s with ages := s.ages.visit (s.ffs.header b).age }
  else { s with ffs := f.invalidRound b }

/-- One round of the second loop, which formats the empty blocks. -/
def State.emptyRound (blockUsed : Nat → Int) (f : State) (b : Nat) : State :=
  if f.isBlock b bfIsEmpty then
    let f := f.setStat b fun r => { r with used := blockUsed b }
    if blockUsed b = 0 then f.blockPreformat b 0 else f.blockFree b
  else f

/-- The end of `blocks_fsck`: which block holds the inodes. -/
def State.fsckInodes (f : State) (bInodeLost bToClean : Int) : Int × State :=
  let checked := fun f : State =>
    if f.fs.format >>> 8 ≠ ffsFormatVersion >>> 8 then (effsBadformat, f) else (bToClean, f)
  if 0 ≤ f.fs.inodes then
    let f := if 0 ≤ f.fs.newinodes then f.blockFree f.fs.newinodes.toNat else f
    checked (f.inodesSet f.fs.inodes)
  else if 0 ≤ f.fs.newinodes ∧ 0 ≤ bInodeLost then
    checked ({ f with fs := { f.fs with inodes := bInodeLost } }.blockCommit)
  else (effsNoformat, f)

/-- `blocks_fsck`; `blockUsed` is what `block_used` finds in a block. -/
def State.blocksFsck (f : State) (blockUsed : Nat → Int) : Int × State :=
  let f := { f with fs := { f.fs with format := 0, inodes := -1, newinodes := -1 } }
  let s := (List.range f.numblocks).foldl (Fsck.round blockUsed) ⟨f, ⟨0, 0, 0⟩, effsOk, -1⟩
  let f := { s.ffs with fs := { s.ffs.fs with ageMax := s.ages.greatest } }
  let f := (List.range f.numblocks).foldl (State.emptyRound blockUsed) f
  f.fsckInodes s.bInodeLost s.bToClean

/-- `ffs_initialize` up to the end of `blocks_fsck`. -/
def State.initializeBlocks (f : State) (blockUsed : Nat → Int) : Int × State :=
  { f with fs := { f.fs with initerror := effsInvalid, testflags := 0 } }.blocksFsck blockUsed

/-! ### The scan of the ages -/

section
variable {base x y age lo hi : BitVec 16} {s : Set (BitVec 16)} {r : AgeScan}

/-- The distance of two ages in a window. -/
private theorem ageDistance_toNat (hx : ahead base x < 0x8000) (hy : ahead base y < 0x8000) :
    (ageDistance x y).toNat =
      if ahead base y ≤ ahead base x then ahead base x - ahead base y else ahead base y - ahead base x := by
  have hyx := ahead_eq base y x
  have hsub : (x - y).toNat = ahead y x := rfl
  unfold ageDistance
  simp only [BitVec.lt_def, hsub]
  split
  · rename_i hfar
    have hfar' : 0x8000 < ahead y x := hfar
    rw [BitVec.toNat_neg, hsub]
    split at hyx <;> split <;> omega
  · rename_i hnear
    have hnear' : ¬0x8000 < ahead y x := hnear
    rw [hsub]
    split at hyx <;> split <;> omega

/-- The variables hold the first and the last of the ages, in one order or the other. -/
private structure Spans (base : BitVec 16) (s : Set (BitVec 16)) (r : AgeScan) (lo hi : BitVec 16) : Prop where
  first : lo ∈ s
  last : hi ∈ s
  ends : r.ageMin = lo ∧ r.ageMax = hi ∨ r.ageMin = hi ∧ r.ageMax = lo
  dist : r.ageDist.toNat = ahead base hi - ahead base lo
  within : ∀ a ∈ s, ahead base lo ≤ ahead base a ∧ ahead base a ≤ ahead base hi

private theorem visit_first (h : r = ⟨0, 0, 0⟩) (age : BitVec 16) : Spans base {age} (r.visit age) age age := by
  subst h
  refine ⟨rfl, rfl, .inl ⟨rfl, rfl⟩, ?_, ?_⟩
  · rw [Nat.sub_self]
    rfl
  · rintro a rfl
    exact ⟨Nat.le_refl _, Nat.le_refl _⟩

private theorem visit_spans (h : Spans base s r lo hi) (hpos : ∀ a ∈ s, a ≠ 0) (hw : Window s base 0x8000)
    (hage : ahead base age < 0x8000) : ∃ lo hi, Spans base (insert age s) (r.visit age) lo hi := by
  obtain ⟨hfirst, hlast, hends, hdist, hwithin⟩ := h
  have hlo := hw lo hfirst
  have hhi := hw hi hlast
  have hle := (hwithin hi hlast).1
  have hmin : r.ageMin ≠ 0 := by
    rcases hends with ⟨h, -⟩ | ⟨h, -⟩
    · exact h ▸ hpos lo hfirst
    · exact h ▸ hpos hi hlast
  have hdlo := ageDistance_toNat hage hlo
  have hdhi := ageDistance_toNat hage hhi
  have hold : ∀ a ∈ s, a ∈ insert age s := fun a => Set.mem_insert_of_mem age
  -- an age outside of the span becomes its first or its last one
  have hbefore : ahead base age < ahead base lo → ∀ a ∈ insert age s,
      ahead base age ≤ ahead base a ∧ ahead base a ≤ ahead base hi := by
    rintro hlt a (rfl | ha)
    · omega
    · have := hwithin a ha
      omega
  have hbehind : ahead base hi < ahead base age → ∀ a ∈ insert age s,
      ahead base lo ≤ ahead base a ∧ ahead base a ≤ ahead base age := by
    rintro hlt a (rfl | ha)
    · omega
    · have := hwithin a ha
      omega
  have hinside : ahead base lo ≤ ahead base age → ahead base age ≤ ahead base hi → ∀ a ∈ insert age s,
      ahead base lo ≤ ahead base a ∧ ahead base a ≤ ahead base hi := by
    rintro hlt hgt a (rfl | ha)
    · exact ⟨hlt, hgt⟩
    · exact hwithin a ha
  have hnew : age ∈ insert age s := Set.mem_insert age s
  unfold AgeScan.visit
  rw [if_neg hmin]
  simp only [BitVec.lt_def]
  rcases Nat.lt_or_ge (ahead base age) (ahead base lo) with hlt | hge
  · rw [if_neg (by omega)] at hdlo hdhi
    rcases hends with ⟨h1, h2⟩ | ⟨h1, h2⟩
    · rw [h1, h2, hdlo, hdhi, hdist, if_pos (by omega)]
      split
      · exact ⟨age, hi, hnew, hold hi hlast, .inl ⟨rfl, rfl⟩, hdhi, hbefore hlt⟩
      · have hone : lo = hi := ahead_inj (by omega : ahead base lo = ahead base hi)
        exact ⟨age, hi, hnew, hold hi hlast, .inr ⟨hone, rfl⟩, hone ▸ hdlo, hbefore hlt⟩
    · rw [h1, h2, hdlo, hdhi, hdist, if_pos (by omega), if_neg (by omega)]
      exact ⟨age, hi, hnew, hold hi hlast, .inr ⟨rfl, rfl⟩, hdhi, hbefore hlt⟩
  · rw [if_pos hge] at hdlo
    rcases Nat.lt_or_ge (ahead base hi) (ahead base age) with hgt | hle'
    · rw [if_pos (by omega)] at hdhi
      rcases hends with ⟨h1, h2⟩ | ⟨h1, h2⟩
      · rw [h1, h2, hdlo, hdhi, hdist, if_pos (by omega), if_neg (by omega)]
        exact ⟨lo, age, hold lo hfirst, hnew, .inl ⟨rfl, rfl⟩, hdlo, hbehind hgt⟩
      · rw [h1, h2, hdlo, hdhi, hdist, if_pos (by omega)]
        split
        · exact ⟨lo, age, hold lo hfirst, hnew, .inr ⟨rfl, rfl⟩, hdlo, hbehind hgt⟩
        · have hone : lo = hi := ahead_inj (by omega : ahead base lo = ahead base hi)
          exact ⟨lo, age, hold lo hfirst, hnew, .inl ⟨hone.symm, rfl⟩, hone ▸ hdhi, hbehind hgt⟩
    · have hdhi' : (ageDistance age hi).toNat = ahead base hi - ahead base age := by
        rw [hdhi]
        split <;> omega
      rcases hends with ⟨h1, h2⟩ | ⟨h1, h2⟩
      · rw [h1, h2, hdlo, hdhi', hdist, if_neg (by omega)]
        exact ⟨lo, hi, hold lo hfirst, hold hi hlast, .inl ⟨h1, h2⟩, hdist, hinside hge hle'⟩
      · rw [h1, h2, hdlo, hdhi', hdist, if_neg (by omega)]
        exact ⟨lo, hi, hold lo hfirst, hold hi hlast, .inr ⟨h1, h2⟩, hdist, hinside hge hle'⟩

/-- The greatest age of the scan is the last one. -/
private theorem greatest_eq (h : Spans base s r lo hi) (hpos : ∀ a ∈ s, a ≠ 0) (hw : Window s base 0x8000) :
    r.greatest = hi := by
  have hlo := hw lo h.first
  have hhi := hw hi h.last
  have hle := (h.within hi h.last).1
  have hlohi : ahead lo hi = ahead base hi - ahead base lo := by
    rw [ahead_eq base lo hi, if_pos hle]
  have hhilo := ahead_eq base hi lo
  unfold AgeScan.greatest
  rcases h.ends with ⟨h1, h2⟩ | ⟨h1, h2⟩
  · have hmax : r.ageMax ≠ 0 := h2 ▸ hpos hi h.last
    have hnear : ¬0x8000#16 < hi - lo := by
      rw [BitVec.lt_def]
      change ¬0x8000 < ahead lo hi
      omega
    rw [if_neg hmax]
    change (if 0x8000#16 < r.ageMax - r.ageMin then r.ageMin else r.ageMax) = hi
    rw [h1, h2, if_neg hnear]
  · have hmax : r.ageMax ≠ 0 := h2 ▸ hpos lo h.first
    rw [if_neg hmax]
    change (if 0x8000#16 < r.ageMax - r.ageMin then r.ageMin else r.ageMax) = hi
    rw [h1, h2]
    split
    · rfl
    · rename_i hnear
      have hnear' : ¬0x8000 < ahead hi lo := by
        rw [BitVec.lt_def] at hnear
        exact hnear
      have hsame : ahead base lo = ahead base hi := by
        split at hhilo <;> omega
      exact ahead_inj hsame

end

/-! ### The loops -/

/-- The ages of the blocks with a valid header. -/
def State.validAges (f : State) : Set (BitVec 16) :=
  {a | ∃ b, b < f.numblocks ∧ (f.header b).Valid ∧ (f.header b).age = a}

section
variable {f : State} {s : Fsck} {b c n : Nat} {base : BitVec 16} {blockUsed : Nat → Int}

/-- While the file system is started no block is erased. -/
private theorem blockFree_starting (h : f.fs.initerror = effsInvalid) (b : Nat) :
    f.blockFree b = f.blockFlagsWrite b bfLost := if_pos h

/-- What a round does not change. -/
private structure Beside (f f' : State) (b : Nat) : Prop where
  numblocks : f'.numblocks = f.numblocks
  initerror : f'.fs.initerror = f.fs.initerror
  header : ∀ c, c ≠ b → f'.header c = f.header c

private theorem invalidRound_beside (h : f.fs.initerror = effsInvalid) : Beside f (f.invalidRound b) b := by
  unfold State.invalidRound
  dsimp only
  split
  · exact ⟨rfl, rfl, fun _ _ => rfl⟩
  · split
    · exact ⟨rfl, rfl, fun _ _ => rfl⟩
    · rw [blockFree_starting (by exact h)]
      refine ⟨rfl, rfl, fun c hc => ?_⟩
      rw [blockFlagsWrite_header_ne _ _ hc, setHeader_header_ne _ _ hc]

private theorem validRound_beside (h : f.fs.initerror = effsInvalid) (ages : AgeScan) (bToClean bInodeLost : Int)
    (blockUsed : Nat → Int) (b : Nat) :
    Beside f (Fsck.validRound ⟨f, ages, bToClean, bInodeLost⟩ blockUsed b).ffs b ∧
      (Fsck.validRound ⟨f, ages, bToClean, bInodeLost⟩ blockUsed b).ages = ages ∧
      ((Fsck.validRound ⟨f, ages, bToClean, bInodeLost⟩ blockUsed b).ffs.header b).age = (f.header b).age := by
  unfold Fsck.validRound
  dsimp only
  split
  · exact ⟨⟨rfl, rfl, fun _ _ => rfl⟩, rfl, rfl⟩
  · split
    · exact ⟨⟨rfl, rfl, fun _ _ => rfl⟩, rfl, rfl⟩
    split
    · exact ⟨⟨rfl, rfl, fun _ _ => rfl⟩, rfl, rfl⟩
    split
    · exact ⟨⟨rfl, rfl, fun _ _ => rfl⟩, rfl, rfl⟩
    split
    · exact ⟨⟨rfl, rfl, fun _ _ => rfl⟩, rfl, rfl⟩
    split
    · exact ⟨⟨rfl, rfl, fun _ _ => rfl⟩, rfl, rfl⟩
    · rw [blockFree_starting (by exact h)]
      refine ⟨⟨rfl, rfl, fun c hc => ?_⟩, rfl, blockFlagsWrite_age ..⟩
      rw [blockFlagsWrite_header_ne _ _ hc]
      rfl

private theorem Beside.of_setStat {f' : State} {g : BlockStat → BlockStat} (h : Beside (f.setStat b g) f' b) :
    Beside f f' b := ⟨h.numblocks, h.initerror, h.header⟩

private theorem round_beside (blockUsed : Nat → Int) (b : Nat) (h : s.ffs.fs.initerror = effsInvalid) :
    Beside s.ffs (s.round blockUsed b).ffs b ∧ (s.round blockUsed b).ages =
      if (s.ffs.header b).Valid then s.ages.visit (s.ffs.header b).age else s.ages := by
  unfold Fsck.round
  dsimp only
  rw [setStat_header]
  split
  · obtain ⟨hbeside, hages, hage⟩ := validRound_beside
      (f := s.ffs.setStat b fun _ => ⟨s.ffs.blocksize, s.ffs.blocksize, (s.ffs.header b).flags, 0⟩)
      h s.ages s.bToClean s.bInodeLost blockUsed b
    refine ⟨hbeside.of_setStat, ?_⟩
    dsimp only
    rw [hages, hage]
    rfl
  · exact ⟨(invalidRound_beside (by exact h)).of_setStat, rfl⟩

/-- The ages of the blocks below a number that have a valid header. -/
private def agesBelow (f : State) (n : Nat) : Set (BitVec 16) :=
  {a | ∃ b, b < n ∧ (f.header b).Valid ∧ (f.header b).age = a}

private theorem agesBelow_succ (h : (f.header n).Valid) :
    agesBelow f (n + 1) = insert (f.header n).age (agesBelow f n) := by
  ext a
  constructor
  · rintro ⟨b, hb, hvalid, rfl⟩
    rcases Nat.lt_or_eq_of_le (Nat.le_of_lt_succ hb) with hlt | rfl
    · exact .inr ⟨b, hlt, hvalid, rfl⟩
    · exact .inl rfl
  · rintro (rfl | ⟨b, hb, hvalid, rfl⟩)
    · exact ⟨n, by omega, h, rfl⟩
    · exact ⟨b, by omega, hvalid, rfl⟩

private theorem agesBelow_skip (h : ¬(f.header n).Valid) : agesBelow f (n + 1) = agesBelow f n := by
  ext a
  constructor
  · rintro ⟨b, hb, hvalid, rfl⟩
    rcases Nat.lt_or_eq_of_le (Nat.le_of_lt_succ hb) with hlt | rfl
    · exact ⟨b, hlt, hvalid, rfl⟩
    · exact absurd hvalid h
  · rintro ⟨b, hb, hvalid, rfl⟩
    exact ⟨b, by omega, hvalid, rfl⟩

/-- What is known when the blocks below a number have been visited. -/
private structure Visited (f : State) (base : BitVec 16) (n : Nat) (s : Fsck) : Prop where
  numblocks : s.ffs.numblocks = f.numblocks
  initerror : s.ffs.fs.initerror = effsInvalid
  header : ∀ b, n ≤ b → s.ffs.header b = f.header b
  ages : agesBelow f n = ∅ ∧ s.ages = ⟨0, 0, 0⟩ ∨ ∃ lo hi, Spans base (agesBelow f n) s.ages lo hi

private theorem round_visited (h : Visited f base n s) (hn : n < f.numblocks) (hpos : ∀ a ∈ f.validAges, a ≠ 0)
    (hw : Window f.validAges base 0x8000) : Visited f base (n + 1) (s.round blockUsed n) := by
  have hbelow : ∀ a ∈ agesBelow f n, a ∈ f.validAges := by
    rintro a ⟨b, hb, hvalid, rfl⟩
    exact ⟨b, by omega, hvalid, rfl⟩
  obtain ⟨hbeside, hages⟩ := round_beside blockUsed n h.initerror
  refine ⟨hbeside.numblocks.trans h.numblocks, hbeside.initerror.trans h.initerror, fun b hb => ?_, ?_⟩
  · rw [hbeside.header b (by omega), h.header b (by omega)]
  · rw [hages, h.header n (Nat.le_refl n)]
    by_cases hvalid : (f.header n).Valid
    · have hage : (f.header n).age ∈ f.validAges := ⟨n, hn, hvalid, rfl⟩
      rw [if_pos hvalid, agesBelow_succ hvalid]
      right
      rcases h.ages with ⟨hempty, hstart⟩ | ⟨lo, hi, hspan⟩
      · rw [hempty, insert_empty_eq]
        exact ⟨_, _, visit_first hstart _⟩
      · exact visit_spans hspan (fun a ha => hpos a (hbelow a ha)) (fun a ha => hw a (hbelow a ha)) (hw _ hage)
    · rw [if_neg hvalid, agesBelow_skip hvalid]
      exact h.ages

private theorem loop_visited (blockUsed : Nat → Int) (h : Visited f base 0 s) (hn : n ≤ f.numblocks) (hpos : ∀ a ∈ f.validAges, a ≠ 0)
    (hw : Window f.validAges base 0x8000) : Visited f base n ((List.range n).foldl (Fsck.round blockUsed) s) := by
  induction n with
  | zero => exact h
  | succ n ih =>
    rw [List.range_succ, List.foldl_append, List.foldl_cons, List.foldl_nil]
    exact round_visited (ih (by omega)) (by omega) hpos hw

/-! ### What does not change the greatest age -/

/-- A step in which no block is erased, and the greatest age stays. -/
private def Starting (f f' : State) : Prop :=
  f.fs.initerror = effsInvalid → f'.fs.initerror = effsInvalid ∧ f'.fs.ageMax = f.fs.ageMax

private theorem blockFree_keeps (f : State) (b : Nat) : Starting f (f.blockFree b) := by
  intro h
  rw [blockFree_starting h]
  exact ⟨h, rfl⟩

private theorem blockPreformat_keeps (f : State) (b : Nat) : Starting f (f.blockPreformat b 0) := fun h => ⟨h, rfl⟩

private theorem emptyRound_keeps (blockUsed : Nat → Int) (f : State) (b : Nat) : Starting f (f.emptyRound blockUsed b) := by
  intro h
  unfold State.emptyRound
  dsimp only
  split
  · split
    · exact blockPreformat_keeps _ b h
    · exact blockFree_keeps _ b h
  · exact ⟨h, rfl⟩

private theorem emptyLoop_keeps (blockUsed : Nat → Int) (f : State) (l : List Nat) : Starting f (l.foldl (State.emptyRound blockUsed) f) := by
  induction l generalizing f with
  | nil => exact fun h => ⟨h, rfl⟩
  | cons b l ih =>
    intro h
    have hround := emptyRound_keeps blockUsed f b h
    have hrest := ih _ hround.1
    exact ⟨hrest.1, hrest.2.trans hround.2⟩

private theorem fsckInodes_keeps (f : State) (bInodeLost bToClean : Int) :
    Starting f (f.fsckInodes bInodeLost bToClean).2 := by
  intro h
  unfold State.fsckInodes
  dsimp only
  split
  · split <;> split
    · exact ⟨(blockFree_keeps f _ h).1, (blockFree_keeps f _ h).2⟩
    · exact ⟨(blockFree_keeps f _ h).1, (blockFree_keeps f _ h).2⟩
    · exact ⟨h, rfl⟩
    · exact ⟨h, rfl⟩
  · split
    · have hcommit : Starting f ({ f with fs := { f.fs with inodes := bInodeLost } }.blockCommit) := by
        intro h
        unfold State.blockCommit
        dsimp only
        split
        · exact ⟨h, rfl⟩
        split
        · exact ⟨h, rfl⟩
        · exact blockFree_keeps _ _ h
      split
      · exact hcommit h
      · exact hcommit h
    · exact ⟨h, rfl⟩

/-! ### The greatest age -/

theorem blockPreformat_age (f : State) (b : Nat) (age : BitVec 16) :
    ((f.blockPreformat b age).header b).age = if age = 0 then f.fs.ageMax else ageAfter age := by
  unfold State.blockPreformat
  dsimp only
  rw [blockFlagsWrite_age, setStat_header, setHeader_header]

private theorem ahead_ageAfter {a age : BitVec 16} (h : ahead a age < 0x7fff) :
    ahead a age < ahead a (ageAfter age) ∧ ahead a (ageAfter age) ≤ ahead a age + 2 := by
  have ha : a.toNat < 65536 := a.isLt
  have hage : age.toNat < 65536 := age.isLt
  have hnext : (age + 1).toNat = (age.toNat + 1) % 65536 := BitVec.toNat_add ..
  have hone : (1 : BitVec 16).toNat = 1 := rfl
  unfold ageAfter
  rw [ahead_toNat] at h ⊢
  rw [ahead_toNat]
  split
  · rename_i hwrap
    rw [hwrap] at hnext
    have hzero : (0 : BitVec 16).toNat = 0 := rfl
    rw [hone]
    omega
  · rename_i hwrap
    have hne : (age + 1).toNat ≠ 0 := fun h => hwrap (BitVec.eq_of_toNat_eq h)
    rw [hnext] at hne ⊢
    omega

/-- After the blocks have been read `fs.age_max` is the newest of the ages. -/
theorem initializeBlocks_newest (hpos : ∀ a ∈ f.validAges, a ≠ 0) (hw : Window f.validAges base 0x8000)
    (hex : f.validAges.Nonempty) : Newest f.validAges (f.initializeBlocks blockUsed).2.fs.ageMax := by
  unfold State.initializeBlocks State.blocksFsck
  dsimp only
  have hstart : Visited f base 0 ⟨{ f with fs := { f.fs with
      initerror := effsInvalid, testflags := 0, format := 0, inodes := -1, newinodes := -1 } }, ⟨0, 0, 0⟩, effsOk, -1⟩ := by
    refine ⟨rfl, rfl, fun _ _ => rfl, .inl ⟨Set.eq_empty_of_forall_notMem ?_, rfl⟩⟩
    rintro a ⟨b, hb, -⟩
    omega
  have hloop := loop_visited blockUsed hstart (Nat.le_refl _) hpos hw
  generalize hs : (List.range f.numblocks).foldl (Fsck.round blockUsed) _ = s at hloop ⊢
  have hages : agesBelow f f.numblocks = f.validAges := rfl
  rcases hloop.ages with ⟨hempty, -⟩ | ⟨lo, hi, hspan⟩
  · rw [← hages, hempty] at hex
    exact absurd hex Set.not_nonempty_empty
  · rw [hages] at hspan
    have hempties := emptyLoop_keeps blockUsed { s.ffs with fs := { s.ffs.fs with ageMax := s.ages.greatest } }
      (List.range s.ffs.numblocks) hloop.initerror
    have hinodes := fsckInodes_keeps _ s.bInodeLost s.bToClean hempties.1
    rw [hinodes.2, hempties.2]
    change Newest f.validAges s.ages.greatest
    rw [greatest_eq hspan hpos hw]
    exact (newest_iff hw).2 ⟨hspan.last, fun b hb => (hspan.within b hb).2⟩

/-- The greatest age is found, and a block that is formatted without an age of its own gets this age.  A block that has
had an age gets a newer one; if it has had the greatest one, its age is newer than all others and becomes the greatest
one. -/
theorem fsck_ages (hpos : ∀ a ∈ f.validAges, a ≠ 0) (hw : Window f.validAges base 0x7fff)
    (hex : f.validAges.Nonempty) {f' : State} (hf : (f.initializeBlocks blockUsed).2 = f') (b : Nat) :
    Newest f.validAges f'.fs.ageMax ∧ ((f'.blockPreformat b 0).header b).age = f'.fs.ageMax ∧
      (∀ age, age ≠ 0 → Newer age ((f'.blockPreformat b age).header b).age) ∧
      (∀ a ∈ f.validAges, Newer a ((f'.blockPreformat b f'.fs.ageMax).header b).age) ∧
      (f'.blockPreformat b f'.fs.ageMax).fs.ageMax = ((f'.blockPreformat b f'.fs.ageMax).header b).age := by
  have hw' : Window f.validAges base 0x8000 := fun a ha => (hw a ha).trans (by decide)
  have hnewest : Newest f.validAges f'.fs.ageMax := hf ▸ initializeBlocks_newest hpos hw' hex
  have hmax : f'.fs.ageMax ≠ 0 := hpos _ hnewest.1
  refine ⟨hnewest, ?_, fun age hage => ?_, fun a ha => ?_, ?_⟩
  · rw [blockPreformat_age, if_pos rfl]
  · have hstep := ahead_ageAfter ((ahead_self age).trans_lt (by decide : 0 < 0x7fff))
    rw [ahead_self] at hstep
    rw [blockPreformat_age, if_neg hage]
    exact ⟨hstep.1, hstep.2.trans (by decide)⟩
  · have hplace := hw a ha
    have hplace' := hw _ hnewest.1
    have hle := ((newest_iff hw').1 hnewest).2 a ha
    have hahead := ahead_eq base a f'.fs.ageMax
    rw [if_pos hle] at hahead
    have hstep := ahead_ageAfter (by omega : ahead a f'.fs.ageMax < 0x7fff)
    rw [blockPreformat_age, if_neg hmax]
    exact ⟨by omega, (by omega : ahead a (ageAfter f'.fs.ageMax) ≤ 2 ^ 15)⟩
  · rw [blockPreformat_age, if_neg hmax]
    unfold State.blockPreformat
    dsimp only
    rw [blockFlagsWrite_fs, setStat_fs, setHeader_fs, if_pos ⟨hmax, rfl⟩, if_neg hmax]

end

/-! ### A block that had no age -/

/-- The greatest age is found, and whatever block is formatted then, without an age of its own or with the one it has
had, gets a newer age than all. -/
def AgesRecovered (f f' : State) : Prop :=
  Newest f.validAges f'.fs.ageMax ∧ ∀ b, b < f'.numblocks → ∀ age, age = 0 ∨ age = (f'.header b).age →
    ∀ a ∈ f.validAges, Newer a ((f'.blockPreformat b age).header b).age

/-- A device with a block of inodes, and one in the given state. -/
def twoBlocks (first : BitVec 16) (second : BlockHeader) : State where
  numblocks := 2
  blocksize := 0x10000
  header b := if b = 0 then ⟨blockMagicLow, blockMagicHigh, ffsFormatVersion, first, bfIsInodes⟩ else second
  bstat _ := ⟨0, 0, 0, 0⟩
  fs := ⟨-1, -1, 0, 0, 0, 0, 0⟩
  numblocks_le := by decide

private theorem twoBlocks_ages {first a : BitVec 16} {second : BlockHeader}
    (h : a ∈ (twoBlocks first second).validAges) : a = first ∨ second.Valid ∧ a = second.age := by
  obtain ⟨b, hb, hvalid, rfl⟩ := h
  have hlt : b < 2 := hb
  rcases (by omega : b = 0 ∨ b = 1) with rfl | rfl
  · exact .inl rfl
  · exact .inr ⟨hvalid, rfl⟩

/-- A block with the age 5 and an erased one: the erased block gets the age 5, too. -/
theorem erased_same_age : (∀ a ∈ (twoBlocks 5 erased).validAges, a ≠ 0) ∧
    Window (twoBlocks 5 erased).validAges 5 0x7fff ∧
    ¬AgesRecovered (twoBlocks 5 erased) ((twoBlocks 5 erased).initializeBlocks fun _ => 0).2 := by
  have hone : ∀ {a}, a ∈ (twoBlocks 5 erased).validAges → a = 5 := by
    intro a ha
    rcases twoBlocks_ages ha with h | ⟨h, -⟩
    · exact h
    · exact absurd h (by decide)
  refine ⟨fun a ha => ?_, fun a ha => ?_, fun h => ?_⟩
  · rw [hone ha]
    decide
  · rw [hone ha]
    decide
  · have hnew := h.2 1 (by decide) 0 (.inl rfl) 5 ⟨0, by decide, by decide, rfl⟩
    have hage : ((((twoBlocks 5 erased).initializeBlocks fun _ => 0).2.blockPreformat 1 0).header 1).age = 5 := by
      decide
    rw [hage] at hnew
    exact absurd hnew.1 (by decide)

/-- A block of the greatest age before the wrap, and one behind it. -/
theorem wrapped_newest : Newest
    (twoBlocks 0xffff ⟨blockMagicLow, blockMagicHigh, ffsFormatVersion, 3, bfIsData⟩).validAges
    ((twoBlocks 0xffff ⟨blockMagicLow, blockMagicHigh, ffsFormatVersion, 3, bfIsData⟩).initializeBlocks
      fun _ => 16).2.fs.ageMax := by
  have htwo : ∀ {a}, a ∈ (twoBlocks 0xffff ⟨blockMagicLow, blockMagicHigh, ffsFormatVersion, 3, bfIsData⟩).validAges →
      a = 0xffff ∨ a = 3 := fun ha => (twoBlocks_ages ha).imp_right And.right
  have hw : Window (twoBlocks 0xffff ⟨blockMagicLow, blockMagicHigh, ffsFormatVersion, 3, bfIsData⟩).validAges
      0xffff 0x7fff := by
    intro a ha
    rcases htwo ha with rfl | rfl <;> decide
  have hpos : ∀ a ∈ (twoBlocks 0xffff ⟨blockMagicLow, blockMagicHigh, ffsFormatVersion, 3, bfIsData⟩).validAges,
      a ≠ 0 := by
    intro a ha
    rcases htwo ha with rfl | rfl <;> decide
  exact (fsck_ages hpos hw ⟨3, 1, by decide, by decide, rfl⟩ rfl 0).1

end Citrine.Ffs
