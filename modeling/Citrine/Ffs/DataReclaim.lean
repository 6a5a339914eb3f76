import Citrine.Ffs.Fsck

/-!
# The reclaim of data

`data_reclaim_try` looks through the data blocks for the one that has lost most, the one that has most bytes unused and
the youngest one, and has `data_block_reclaim` move the objects of one of them to other blocks.  The block is free
afterwards (`dataBlockReclaim_free`), but what its objects need elsewhere can be as much.
-/

namespace Citrine.Ffs

/-! ### The candidates -/

/-- `FFS_DAGE_MAX` -/
def ffsDageMax : Int := 256
/-- `FFS_DAGE_GAIN_MIN` -/
def ffsDageGainMin : Int := ffsDageMax / 4
/-- `FFS_DAGE_EARLY_WIDTH` -/
def ffsDageEarlyWidth : Int := 64

/-- `saturate_dage`, and the assignment to an `age_t`. -/
def saturateDage (dage : Int) : BitVec 16 := BitVec.ofInt 16 (if 2 * ffsDageMax < dage then 2 * ffsDageMax else dage)

/-- `dage_max_reached`, with what `rand` returns. -/
def dageMaxReached (dageBlk agegain : Int) (rand : Nat) : Bool :=
  let reclaim := decide (0 ≤ dageBlk + agegain - 2 * ffsDageMax)
  let early := ffsDageMax - dageBlk
  let reclaim :=
    if dageBlk - 4 < agegain ∧ 0 < early ∧ early ≤ ffsDageEarlyWidth then
      let early := if early < 4 then 2 else early
      if early < ffsDageEarlyWidth then
        let log2 := Nat.log2 early.toNat
        let mask := 2 ^ (log2 + 1) - 1
        rand &&& mask == 0
      else reclaim
    else reclaim
  if agegain < ffsDageGainMin then false else reclaim

/-- The bytes of a block that are free. -/
def State.free (f : State) (b : Nat) : Int := f.blocksize - (f.bstat b).used

/-- The bytes of a block that are not used by valid objects. -/
def State.unused (f : State) (b : Nat) : Int := f.blocksize - ((f.bstat b).used - (f.bstat b).lost)

/-- The variables of `data_reclaim_try`. -/
structure Candidates where
  reservedOk : Bool
  brcYoungB : Int
  brcLostB : Int
  brcUnusedB : Int
  brcLostLost : Int
  brcLostUnused : Int
  brcUnusedUnused : Int
  unusedTotal : Int
  brcYoungDage : BitVec 16
  freeDage : BitVec 16
  deriving DecidableEq, Repr

/-- The variables before the loop. -/
def candidatesStart : Candidates := ⟨false, -1, -1, -1, 0, 0, 0, 0, 0, 0⟩

/-- One round of the loop of `data_reclaim_try`; the comparison with `RESERVED_LOW` is one of unsigned values. -/
def State.candidateRound (f : State) (journalSize : Nat) (r : Candidates) (b : Nat) : Candidates :=
  let dage := saturateDage ((f.fs.ageMax.toNat : Int) - (f.header b).age.toNat)
  if f.isBlock b bfIsData then
    let lost := (f.bstat b).lost
    let unused := f.unused b
    let r := { r with unusedTotal := r.unusedTotal + unused }
    let r := if 2 * journalSize % 2 ^ 32 ≤ f.free b % 2 ^ 32 then { r with reservedOk := true } else r
    let r := if r.brcLostLost < lost then { r with brcLostB := b, brcLostLost := lost, brcLostUnused := unused } else r
    let r := if r.brcUnusedUnused < unused then { r with brcUnusedB := b, brcUnusedUnused := unused } else r
    if r.brcYoungDage ≤ dage then { r with brcYoungB := b, brcYoungDage := dage } else r
  else if f.isBlock b bfIsFree then
    let r := { r with unusedTotal := r.unusedTotal + f.blocksize }
    if r.freeDage ≤ dage then { r with freeDage := dage } else r
  else r

/-- The loop of `data_reclaim_try`. -/
def State.candidates (f : State) (journalSize : Nat) : Candidates :=
  (List.range f.numblocks).foldl (f.candidateRound journalSize) candidatesStart

/-- Why a block is reclaimed, in the order of the branches of `data_reclaim_try`. -/
inductive Branch
  | noReserve
  | youngest
  | mostLost
  | mostUnused
  | mostLostx
  deriving DecidableEq, Repr

/-- The candidate of a branch. -/
def Candidates.block (r : Candidates) : Branch → Int
  | .noReserve => r.brcLostB
  | .youngest => r.brcYoungB
  | .mostLost => r.brcLostB
  | .mostUnused => r.brcUnusedB
  | .mostLostx => r.brcLostB

/-- The branch that `data_reclaim_try` takes, if it does not give up. -/
def Candidates.branch (r : Candidates) (space : Int) (rand : Nat) : Option Branch :=
  let ageGain : Int := r.brcYoungDage.toNat - r.freeDage.toNat
  if r.unusedTotal < space then none
  else if r.reservedOk = false then some .noReserve
  else if dageMaxReached r.brcYoungDage.toNat ageGain rand then some .youngest
  else if space ≤ r.brcLostUnused then some .mostLost
  else if space ≤ r.brcUnusedUnused then some .mostUnused
  else some .mostLostx

/-- A block of the device that is a data block, by its header and by its record. -/
def State.DataBlock (f : State) (b : Nat) : Prop :=
  b < f.numblocks ∧ f.isBlock b bfIsData ∧ (f.header b).flags = bfIsData

/-- A file system is mounted: the records have the flags of the headers. -/
def State.Mounted (f : State) : Prop := ∀ b, b < f.numblocks → (f.bstat b).flags = (f.header b).flags

section
variable {f : State} {r : Candidates} {j b n : Nat} {space : Int} {rand : Nat} {branch : Branch}

/-- The variables of one candidate, and whether there is any data block. -/
private theorem candidateRound_data (hb : f.isBlock b bfIsData) :
    ((f.candidateRound j r b).brcLostB, (f.candidateRound j r b).brcLostLost,
        (f.candidateRound j r b).brcLostUnused) =
      (if r.brcLostLost < (f.bstat b).lost then ((b : Int), (f.bstat b).lost, f.unused b)
        else (r.brcLostB, r.brcLostLost, r.brcLostUnused)) ∧
    ((f.candidateRound j r b).brcUnusedB, (f.candidateRound j r b).brcUnusedUnused) =
      (if r.brcUnusedUnused < f.unused b then ((b : Int), f.unused b) else (r.brcUnusedB, r.brcUnusedUnused)) ∧
    ((f.candidateRound j r b).brcYoungB = b ∨
      r.brcYoungDage ≠ 0 ∧ (f.candidateRound j r b).brcYoungB = r.brcYoungB) := by
  have hyoung : ∀ dage : BitVec 16, ¬r.brcYoungDage ≤ dage → r.brcYoungDage ≠ 0 := by
    intro dage h hzero
    rw [hzero] at h
    exact h (BitVec.le_def.2 (Nat.zero_le _))
  unfold State.candidateRound
  simp only [if_pos hb]
  split <;> split <;> split <;> split <;> rename_i h
  all_goals first
    | exact ⟨rfl, rfl, .inl rfl⟩
    | exact ⟨rfl, rfl, .inr ⟨hyoung _ h, rfl⟩⟩

private theorem candidateRound_other (hb : ¬f.isBlock b bfIsData) :
    ∃ total dage, f.candidateRound j r b = { r with unusedTotal := total, freeDage := dage } := by
  unfold State.candidateRound
  dsimp only
  rw [if_neg hb]
  split
  · split
    · exact ⟨_, _, rfl⟩
    · exact ⟨_, r.freeDage, rfl⟩
  · exact ⟨r.unusedTotal, r.freeDage, rfl⟩

/-- What the candidates are when the blocks below a number have been visited. -/
private structure Found (f : State) (n : Nat) (r : Candidates) : Prop where
  lost : (r.brcLostLost = 0 ∧ r.brcLostUnused = 0 ∧ ∀ b, b < n → f.isBlock b bfIsData → (f.bstat b).lost ≤ 0) ∨
    ∃ b, b < n ∧ f.isBlock b bfIsData ∧ r.brcLostB = b ∧ r.brcLostUnused = f.unused b
  unused : r.brcUnusedUnused = 0 ∨
    ∃ b, b < n ∧ f.isBlock b bfIsData ∧ r.brcUnusedB = b ∧ r.brcUnusedUnused = f.unused b
  young : (r.brcYoungDage = 0 ∧ r.reservedOk = false) ∨ ∃ b, b < n ∧ f.isBlock b bfIsData ∧ r.brcYoungB = b

private theorem exists_lt_succ {p : Nat → Prop} (h : ∃ b, b < n ∧ p b) : ∃ b, b < n + 1 ∧ p b := by
  obtain ⟨b, hb, hp⟩ := h
  exact ⟨b, by omega, hp⟩

private theorem candidateRound_found (h : Found f n r) : Found f (n + 1) (f.candidateRound j r n) := by
  by_cases hn : f.isBlock n bfIsData
  · obtain ⟨hlost, hunused, hyoung⟩ := candidateRound_data (r := r) (j := j) hn
    simp only [Prod.ext_iff] at hlost hunused
    refine ⟨?_, ?_, .inr ?_⟩
    · rw [hlost.2.2]
      by_cases hmore : r.brcLostLost < (f.bstat n).lost
      · rw [if_pos hmore] at hlost ⊢
        exact .inr ⟨n, by omega, hn, hlost.1, rfl⟩
      · rw [if_neg hmore] at hlost ⊢
        rcases h.lost with ⟨hzero, hzero', hall⟩ | ⟨b, hb, hdata, hblock, hbytes⟩
        · refine .inl ⟨hlost.2.1.trans hzero, hzero', fun b hb hdata => ?_⟩
          rcases Nat.lt_or_eq_of_le (Nat.le_of_lt_succ hb) with hlt | rfl
          · exact hall b hlt hdata
          · omega
        · exact .inr ⟨b, by omega, hdata, hlost.1.trans hblock, hbytes⟩
    · rw [hunused.2]
      by_cases hmore : r.brcUnusedUnused < f.unused n
      · rw [if_pos hmore] at hunused ⊢
        exact .inr ⟨n, by omega, hn, hunused.1, rfl⟩
      · rw [if_neg hmore] at hunused ⊢
        rcases h.unused with hzero | ⟨b, hb, hdata, hblock, hbytes⟩
        · exact .inl hzero
        · exact .inr ⟨b, by omega, hdata, hunused.1.trans hblock, hbytes⟩
    · rcases hyoung with hyoung | ⟨hnot, hyoung⟩
      · exact ⟨n, by omega, hn, hyoung⟩
      · rw [hyoung]
        exact exists_lt_succ (h.young.resolve_left fun h => hnot h.1)
  · obtain ⟨total, dage, hround⟩ := candidateRound_other (r := r) (j := j) hn
    rw [hround]
    refine ⟨?_, ?_, ?_⟩
    · rcases h.lost with ⟨hzero, hzero', hall⟩ | hfound
      · refine .inl ⟨hzero, hzero', fun b hb hdata => ?_⟩
        rcases Nat.lt_or_eq_of_le (Nat.le_of_lt_succ hb) with hlt | rfl
        · exact hall b hlt hdata
        · exact absurd hdata hn
      · exact .inr (exists_lt_succ hfound)
    · exact h.unused.imp id exists_lt_succ
    · exact h.young.imp id exists_lt_succ

private theorem candidates_found (f : State) (journalSize : Nat) :
    Found f f.numblocks (f.candidates journalSize) := by
  have hall : ∀ n, Found f n ((List.range n).foldl (f.candidateRound journalSize) candidatesStart) := by
    intro n
    induction n with
    | zero => exact ⟨.inl ⟨rfl, rfl, nofun⟩, .inl rfl, .inl ⟨rfl, rfl⟩⟩
    | succ n ih =>
      rw [List.range_succ, List.foldl_append, List.foldl_cons, List.foldl_nil]
      exact candidateRound_found ih
  exact hall f.numblocks

/-- The candidate of the branch is a data block; the most lost one has to exist. -/
theorem candidate_dataBlock (hm : f.Mounted) (hspace : 0 < space)
    (hbranch : (f.candidates j).branch space rand = some branch)
    (hlost : branch = .youngest ∨ branch = .mostUnused ∨ ∃ b, b < f.numblocks ∧ f.isBlock b bfIsData ∧ 0 < (f.bstat b).lost) :
    ∃ b : Nat, (f.candidates j).block branch = b ∧ f.DataBlock b ∧
      (branch = .mostLost ∨ branch = .mostUnused → space ≤ f.unused b) := by
  have hfound := candidates_found f j
  generalize f.candidates j = r at hbranch hfound ⊢
  have hdata : ∀ b, b < f.numblocks → f.isBlock b bfIsData → f.DataBlock b := fun b hb h =>
    ⟨hb, h, (hm b hb).symm.trans h⟩
  have hmost : (∃ b, b < f.numblocks ∧ f.isBlock b bfIsData ∧ 0 < (f.bstat b).lost) →
      ∃ b : Nat, r.brcLostB = b ∧ f.DataBlock b ∧ r.brcLostUnused = f.unused b := by
    rintro ⟨b, hb, hd, hpos⟩
    rcases hfound.lost with ⟨-, -, hall⟩ | ⟨c, hc, hd', hblock, hbytes⟩
    · have hle := hall b hb hd
      omega
    · exact ⟨c, hblock, hdata c hc hd', hbytes⟩
  unfold Candidates.branch at hbranch
  dsimp only at hbranch
  split at hbranch
  · cases hbranch
  split at hbranch
  · cases hbranch
    obtain ⟨b, hblock, hd, -⟩ := hmost (by simpa using hlost)
    exact ⟨b, hblock, hd, by simp⟩
  rename_i hreserved
  split at hbranch
  · cases hbranch
    obtain ⟨b, hb, hd, hblock⟩ := hfound.young.resolve_left fun h => hreserved h.2
    exact ⟨b, hblock, hdata b hb hd, by simp⟩
  split at hbranch
  · rename_i hle
    cases hbranch
    obtain ⟨b, hblock, hd, hbytes⟩ := hmost (by simpa using hlost)
    exact ⟨b, hblock, hd, fun _ => hbytes ▸ hle⟩
  split at hbranch
  · rename_i hle
    cases hbranch
    obtain ⟨b, hb, hd, hblock, hbytes⟩ := hfound.unused.resolve_left fun h => by omega
    exact ⟨b, hblock, hdata b hb hd, fun _ => hbytes ▸ hle⟩
  · cases hbranch
    obtain ⟨b, hblock, hd, -⟩ := hmost (by simpa using hlost)
    exact ⟨b, hblock, hd, by simp⟩

end

/-! ### `data_block_reclaim` -/

/-- `FFS_INODES_MARGIN` -/
def ffsInodesMargin : Int := 4
/-- `BLOCK_RECLAIM_ALLOC` -/
def blockReclaimAlloc : BitVec 8 := 0x41
/-- `BLOCK_RECLAIM_CLEANING` -/
def blockReclaimCleaning : BitVec 8 := 0x42
/-- `BLOCK_RECLAIM_NO_CLEAN` -/
def blockReclaimNoClean : BitVec 8 := 0x43
/-- `BLOCK_RECOVER_OBJECTS` -/
def blockRecoverObjects : BitVec 8 := 0x44

/-- The blocks, whether a data block is being reclaimed, and the rest of the file system. -/
structure Store (σ : Type) where
  blocks : State
  isReclaimRunning : Bool
  rest : σ

/-- The functions that `data_block_reclaim` calls for the inodes, the journal and the open files; they neither start
the file system nor simulate a loss of power. -/
structure Relocating (σ : Type) where
  inodesMax : Nat
  inodesReclaim : State × σ → State × σ
  journalPush : σ → Int × σ
  journalPop : σ → Int × σ
  /-- `block_files_reserved` and `reserved_space` -/
  reserve : σ → Int × Int
  setReserve : Int × Int → σ → σ
  /-- The inode is valid, and its object is in the block. -/
  objectIn : State × σ → Nat → Nat → Bool
  objectRelocate : Nat → State × σ → Int × (State × σ)
  /-- What is changed in the open files and the saved journal when an object has got another inode. -/
  relocated : Nat → Int → σ → σ
  blockClean : Nat → σ → σ
  inodesReclaim_fs : ∀ s, (inodesReclaim s).1.fs.initerror = s.1.fs.initerror ∧
    (inodesReclaim s).1.fs.testflags = s.1.fs.testflags
  objectRelocate_fs : ∀ i s, (objectRelocate i s).2.1.fs.initerror = s.1.fs.initerror ∧
    (objectRelocate i s).2.1.fs.testflags = s.1.fs.testflags

section
variable {σ : Type} (p : Relocating σ)

/-- The loop over the inodes, with the number of rounds left: whether it gets to the end, its result and the number
of objects; there is none when a loss of power is simulated. -/
def Relocating.objects (randObject b : Nat) : Nat → Nat → Nat → Int → State × σ → Option (Bool × Int × Nat) × (State × σ)
  | 0, _, n, result, s => (some (true, result, n), s)
  | k + 1, i, n, result, s =>
    if s.1.fs.testflags = blockRecoverObjects ∧ randObject = n then (none, s)
    else if p.objectIn s b i then
      let (result, s) := p.objectRelocate i s
      if result < 0 then (some (false, result, n), s)
      else objects randObject b k (i + 1) (n + 1) result (s.1, p.relocated i result s.2)
    else objects randObject b k (i + 1) n result s

/-- What follows the loop: the reserve and the saved journal are restored.  An error is the result of
`data_block_reclaim`. -/
def Relocating.afterObjects (b : Nat) (usedOld : Int) (org : Int × Int) :
    Option (Bool × Int × Nat) × (State × σ) → Except (Int × Store σ) (Int × Store σ)
  | (none, blocks, rest) => .error (-101, ⟨blocks, true, rest⟩)
  | (some (finished, result, n), blocks, rest) =>
    let rest := p.setReserve org rest
    let result := if 0 ≤ result then (n : Int) else result
    let (result, blocks) :=
      if finished then (result, blocks) else (effsDbr, blocks.setStat b fun r => { r with used := usedOld })
    let (e, rest) := p.journalPop rest
    if e ≠ effsOk then .error (effsCorrupted, ⟨blocks, false, rest⟩) else .ok (result, ⟨blocks, true, rest⟩)

/-- The part of `data_block_reclaim` for a block with objects. -/
def Relocating.relocateObjects (rand b : Nat) (result : Int) (blocks : State) (rest : σ) :
    Except (Int × Store σ) (Int × Store σ) :=
  if (blocks.bstat b).objects = 0 then .ok (result, ⟨blocks, true, rest⟩)
  else
    let randObject := rand % (blocks.bstat b).objects
    let (e, rest) := p.journalPush rest
    if e ≠ effsOk then .error (effsCorrupted, ⟨blocks, false, rest⟩)
    else
      let full := blocks.setStat b fun r => { r with used := blocks.blocksize - 1 }
      p.afterObjects b (blocks.bstat b).used (p.reserve rest)
        (p.objects randObject b (p.inodesMax - 1) 1 0 result (full, p.setReserve (0, 0) rest))

/-- The end of `data_block_reclaim`: the old block is cleaned and freed. -/
def Relocating.freeOld (b : Nat) (result : Int) (s : Store σ) : Int × Store σ :=
  if s.blocks.fs.testflags = blockReclaimNoClean then (-100, s)
  else if 0 ≤ result then
    let blocks := s.blocks.blockFlagsWrite b bfCleaning
    let rest := p.blockClean b s.rest
    if blocks.fs.testflags = blockReclaimCleaning then (-100, ⟨blocks, s.isReclaimRunning, rest⟩)
    else (result, ⟨blocks.blockFree b, false, rest⟩)
  else (result, ⟨s.blocks, false, s.rest⟩)

/-- The beginning of `data_block_reclaim`: the inodes are reclaimed if they might not suffice. -/
def Relocating.spareInodes (b : Nat) (s : Store σ) : State × σ :=
  let inodes := s.blocks.bstat s.blocks.fs.inodes.toNat
  if p.inodesMax - (inodes.used + inodes.lost + ffsInodesMargin) ≤ (s.blocks.bstat b).objects then
    p.inodesReclaim (s.blocks, s.rest)
  else (s.blocks, s.rest)

/-- `data_block_reclaim`; there is no result when `block_alloc` has none. -/
def Relocating.dataBlockReclaim (rand b : Nat) (s : Store σ) : Option (Int × Store σ) :=
  if s.isReclaimRunning then some (effsReclaimloop, s)
  else
    let (blocks, rest) := p.spareInodes b s
    (blocks.blockAlloc 1 bfData).map fun (result, blocks) =>
      if blocks.fs.testflags = blockReclaimAlloc then (-100, ⟨blocks, true, rest⟩)
      else
        match p.relocateObjects rand b result blocks rest with
        | .error out => out
        | .ok (result, s) => p.freeOld b result s

/-- `data_reclaim_try`, with what `rand` returns first and then; there is no result when the candidate does not exist,
as then a record in front of the table is read. -/
def Relocating.dataReclaimTry (journalSize rand rand' : Nat) (space : Int) (s : Store σ) : Option (Int × Store σ) :=
  let r := s.blocks.candidates journalSize
  match r.branch space rand with
  | none => some (0, s)
  | some branch =>
    if r.block branch < 0 then none
    else
      (p.dataBlockReclaim rand' (r.block branch).toNat s).map fun (result, s) =>
        (if branch = .mostLostx ∧ 0 ≤ result then 0 else result, s)

end

/-! ### The block is free -/

section
variable {σ : Type} {p : Relocating σ} {f f' : State} {s s' : Store σ} {b i k n rand : Nat} {result r : Int}

/-- The file system is running, and no loss of power is simulated in `block_commit`. -/
def State.Running (f : State) : Prop := f.fs.initerror ≠ effsInvalid ∧ f.fs.testflags &&& blockCommitBase = 0

instance (f : State) : Decidable f.Running := inferInstanceAs (Decidable (_ ∧ _))

private theorem Running.congr (h : f.Running) (he : f'.fs.initerror = f.fs.initerror)
    (ht : f'.fs.testflags = f.fs.testflags) : f'.Running := by
  unfold State.Running
  rw [he, ht]
  exact h

private theorem blockFree_free (h : f.Running) (b : Nat) : (f.blockFree b).isBlock b bfIsFree := by
  unfold State.blockFree State.blockReclaim
  rw [blockFlagsWrite_fs, if_neg h.1, if_neg fun hcrash => hcrash.1 h.2]
  unfold State.blockPreformat
  dsimp only
  split <;> simp [State.isBlock, State.blockFlagsWrite, State.setStat, State.setHeader] <;> decide

private theorem blockAlloc_fs {priority : Int} {flags : BitVec 16} {c : Int}
    (h : f.blockAlloc priority flags = some (c, f')) : f'.fs = f.fs := by
  unfold State.blockAlloc at h
  dsimp only at h
  split at h
  · cases h
    rfl
  split at h
  · split at h
    · cases h
    · cases h
      rfl
  split at h
  · split at h
    · cases h
    · cases h
      rfl
  · cases h
    rfl

private theorem objects_running {s : State × σ} (h : s.1.Running) :
    (p.objects rand b k i n result s).2.1.Running := by
  induction k generalizing i n result s with
  | zero => exact h
  | succ k ih =>
    unfold Relocating.objects
    split
    · exact h
    split
    · have hkeep := p.objectRelocate_fs i s
      have hrun := Running.congr h hkeep.1 hkeep.2
      dsimp only
      split
      · exact hrun
      · exact ih hrun
    · exact ih h

/-- What relocating the objects leads to: the file system is still running, and an error is negative. -/
private def Relocated (out : Except (Int × Store σ) (Int × Store σ)) : Prop :=
  match out with
  | .error (r, _) => r < 0
  | .ok (_, s) => s.blocks.Running

private theorem afterObjects_relocated {used : Int} {org : Int × Int} {out : Option (Bool × Int × Nat) × (State × σ)}
    (h : out.2.1.Running) : Relocated (p.afterObjects b used org out) := by
  obtain ⟨_ | ⟨finished, result, n⟩, blocks, rest⟩ := out
  · exact (by decide : (-101 : Int) < 0)
  · unfold Relocating.afterObjects
    dsimp only
    split
    · exact (by decide : effsCorrupted < 0)
    · cases finished
      · exact h
      · exact h

private theorem relocateObjects_relocated {rest : σ} (h : f.Running) :
    Relocated (p.relocateObjects rand b result f rest) := by
  unfold Relocating.relocateObjects
  split
  · exact h
  · dsimp only
    split
    · exact (by decide : effsCorrupted < 0)
    · exact afterObjects_relocated (objects_running h)

/-- A data block that has been reclaimed is free. -/
theorem dataBlockReclaim_free (h : s.blocks.Running) (hout : p.dataBlockReclaim rand b s = some (r, s')) (hr : 0 ≤ r) :
    s'.blocks.isBlock b bfIsFree := by
  unfold Relocating.dataBlockReclaim at hout
  split at hout
  · cases hout
    exact absurd hr (by decide)
  have hrun : (p.spareInodes b s).1.Running := by
    unfold Relocating.spareInodes
    dsimp only
    split
    · have hkeep := p.inodesReclaim_fs (s.blocks, s.rest)
      exact Running.congr h hkeep.1 hkeep.2
    · exact h
  rw [Option.map_eq_some_iff] at hout
  obtain ⟨⟨c, blocks⟩, halloc, hout⟩ := hout
  have hfs := blockAlloc_fs halloc
  have hrel : Relocated (p.relocateObjects rand b c blocks (p.spareInodes b s).2) :=
    relocateObjects_relocated (Running.congr hrun (congrArg Fs.initerror hfs) (congrArg Fs.testflags hfs))
  dsimp only at hout
  split at hout
  · cases hout
    exact absurd hr (by decide)
  generalize p.relocateObjects rand b c blocks (p.spareInodes b s).2 = out at hout hrel
  rcases out with ⟨e, s₁⟩ | ⟨result, s₁⟩
  · cases hout
    exact absurd hrel (by unfold Relocated; omega)
  · dsimp only at hout
    unfold Relocating.freeOld at hout
    split at hout
    · cases hout
      exact absurd hr (by decide)
    split at hout
    · dsimp only at hout
      split at hout
      · cases hout
        exact absurd hr (by decide)
      · cases hout
        exact blockFree_free (f := s₁.blocks.blockFlagsWrite b bfCleaning) hrel b
    · cases hout
      contradiction

end

/-! ### `blocks_reclaim` -/

/-- One round of the first loop of `blocks_reclaim`: the state, the blocks that were lost and those that are free. -/
def lostRound (r : State × Int × Int) (b : Nat) : State × Int × Int :=
  let (f, n, blocksFree) := r
  let (f, n) := if f.isBlockFlag b bfLost then (f.blockReclaim b, n + 1) else (f, n)
  (f, n, if f.isBlock b bfIsFree then blocksFree + 1 else blocksFree)

/-- The first loop of `blocks_reclaim`. -/
def State.reclaimLost (f : State) : State × Int × Int :=
  if f.fs.testflags &&& blockCommitBase ≠ 0 then (f, 0, 0) else (List.range f.numblocks).foldl lostRound (f, 0, 0)

/-- The first data block with most free bytes; the variable is not initialised. -/
def State.bFreeSpace (f : State) (junk : Int) : Int :=
  ((List.range f.numblocks).foldl (fun (r : Int × Int) b =>
    if f.isBlockFlag b bfData ∧ r.1 < f.free b then (f.free b, (b : Int)) else r) (0, junk)).2

/-- Among the other data blocks the first one with most lost bytes; the variable is not initialised either. -/
def State.bLostSpace (f : State) (bFreeSpace junk : Int) : Int :=
  ((List.range f.numblocks).foldl (fun (r : Int × Int) b =>
    if f.isBlockFlag b bfData ∧ (b : Int) ≠ bFreeSpace ∧ r.1 < (f.bstat b).lost then ((f.bstat b).lost, (b : Int))
    else r) (0, junk)).2

/-- `blocks_reclaim`, with what the two variables hold; there is no result when the block does not exist. -/
def Relocating.blocksReclaim {σ : Type} (p : Relocating σ) (rand : Nat) (junkFree junkLost : Int) (s : Store σ) :
    Option (Int × Store σ) :=
  let (f, n, blocksFree) := s.blocks.reclaimLost
  let s := { s with blocks := f }
  if blocksFree < f.fs.blocksFreeMin then
    let b := f.bLostSpace (f.bFreeSpace junkFree) junkLost
    if b < 0 then none else (p.dataBlockReclaim rand b.toNat s).map fun (_, s) => (n, s)
  else some (n, s)

section
variable {f : State} {r : State × Int × Int} {b n : Nat} {x y : Int}

private theorem blockFlagsWrite_mounted (flags : BitVec 16)
    (hm : ∀ c, c < f.numblocks → c ≠ b → (f.bstat c).flags = (f.header c).flags) :
    (f.blockFlagsWrite b flags).Mounted := by
  intro c hc
  by_cases hcb : c = b
  · subst hcb
    simp [State.blockFlagsWrite, State.setStat, State.setHeader]
  · simpa [State.blockFlagsWrite, State.setStat, State.setHeader, Function.update_of_ne hcb] using hm c hc hcb

private theorem blockReclaim_mounted (hm : f.Mounted) (b : Nat) :
    (f.blockReclaim b).Mounted ∧ (f.blockReclaim b).numblocks = f.numblocks := by
  unfold State.blockReclaim
  split
  · exact ⟨hm, rfl⟩
  split
  · exact ⟨hm, rfl⟩
  · unfold State.blockPreformat
    dsimp only
    refine ⟨blockFlagsWrite_mounted bfFree fun c hc hcb => ?_, ?_⟩
    · have hsame : (f.bstat c).flags = (f.header c).flags := by
        refine hm c ?_
        split at hc <;> exact hc
      split <;> simpa [State.setStat, State.setHeader, Function.update_of_ne hcb] using hsame
    · split <;> rfl

private theorem lostRound_mounted (hm : r.1.Mounted) (b : Nat) :
    (lostRound r b).1.Mounted ∧ (lostRound r b).1.numblocks = r.1.numblocks := by
  unfold lostRound
  dsimp only
  split
  · exact blockReclaim_mounted hm b
  · exact ⟨hm, rfl⟩

private theorem reclaimLost_mounted (hm : f.Mounted) : f.reclaimLost.1.Mounted := by
  have hloop : ∀ (l : List Nat) (r : State × Int × Int), r.1.Mounted → (l.foldl lostRound r).1.Mounted := by
    intro l
    induction l with
    | nil => exact fun _ h => h
    | cons b l ih => exact fun r h => ih _ (lostRound_mounted h b).1
  unfold State.reclaimLost
  split
  · exact hm
  · exact hloop _ _ hm

/-- The block with most lost bytes is a data block, if a data block beside the one with most free bytes has lost
any. -/
theorem bLostSpace_dataBlock (hm : f.Mounted)
    (hlost : ∃ b : Nat, b < f.numblocks ∧ f.isBlockFlag b bfData ∧ (b : Int) ≠ x ∧ 0 < (f.bstat b).lost) :
    ∃ b : Nat, f.bLostSpace x y = b ∧ b < f.numblocks ∧ ~~~(f.header b).flags &&& bfData ≠ 0 := by
  have hloop : ∀ n, let r := (List.range n).foldl (fun (r : Int × Int) b =>
      if f.isBlockFlag b bfData ∧ (b : Int) ≠ x ∧ r.1 < (f.bstat b).lost then ((f.bstat b).lost, (b : Int)) else r) (0, y)
      (r.1 = 0 ∧ ∀ b : Nat, b < n → f.isBlockFlag b bfData → (b : Int) ≠ x → (f.bstat b).lost ≤ 0) ∨
        ∃ b : Nat, b < n ∧ f.isBlockFlag b bfData ∧ r.2 = b := by
    intro n
    induction n with
    | zero => exact .inl ⟨rfl, nofun⟩
    | succ n ih =>
      rw [List.range_succ, List.foldl_append, List.foldl_cons, List.foldl_nil]
      generalize (List.range n).foldl _ _ = r at ih ⊢
      dsimp only at ih ⊢
      split
      · rename_i hmore
        exact .inr ⟨n, by omega, hmore.1, rfl⟩
      · rename_i hless
        rcases ih with ⟨hzero, hall⟩ | ⟨b, hb, hdata, hblock⟩
        · refine .inl ⟨hzero, fun b hb hdata hne => ?_⟩
          rcases Nat.lt_or_eq_of_le (Nat.le_of_lt_succ hb) with hlt | rfl
          · exact hall b hlt hdata hne
          · exact Int.not_lt.1 fun hpos => hless ⟨hdata, hne, hzero ▸ hpos⟩
        · exact .inr ⟨b, by omega, hdata, hblock⟩
  obtain ⟨b, hb, hdata, hne, hpos⟩ := hlost
  rcases hloop f.numblocks with ⟨-, hall⟩ | ⟨c, hc, hdata', hblock⟩
  · have hle := hall b hb hdata hne
    omega
  · refine ⟨c, hblock, hc, ?_⟩
    rw [← hm c hc]
    exact hdata'

end

/-! ### What a reclaim is done for -/

/-- The blocks of inodes, two blocks of data, the older of which is full, and a free block. -/
def agedDevice : State where
  numblocks := 4
  blocksize := 1000
  header b := ⟨blockMagicLow, blockMagicHigh, ffsFormatVersion, if b = 1 then 1 else 513,
    if b = 0 then bfIsInodes else if b = 2 then bfIsFree else bfIsData⟩
  bstat b :=
    if b = 0 then ⟨5, 0, bfIsInodes, 1⟩
    else if b = 1 then ⟨1000, 0, bfIsData, 2⟩
    else if b = 2 then ⟨0, 0, bfIsFree, 0⟩
    else ⟨700, 0, bfIsData, 1⟩
  fs := ⟨0, -1, 1, ffsFormatVersion, 513, effsOk, 0⟩
  numblocks_le := by decide

/-- The objects 1 and 2 of the full block are copied to the block that has been allocated. -/
def agedRelocating : Relocating Unit where
  inodesMax := 64
  inodesReclaim s := s
  journalPush s := (effsOk, s)
  journalPop s := (effsOk, s)
  reserve _ := (0, 0)
  setReserve _ s := s
  objectIn _ b i := b == 1 && (i == 1 || i == 2)
  objectRelocate i s :=
    (i + 10, ((s.1.setStat 1 fun r => { r with lost := r.lost + 492, objects := r.objects - 1 }).setStat 2 fun r =>
      { r with used := r.used + 492, objects := r.objects + 1 }, s.2))
  relocated _ _ s := s
  blockClean _ s := s
  inodesReclaim_fs _ := ⟨rfl, rfl⟩
  objectRelocate_fs _ _ := ⟨rfl, rfl⟩

private theorem agedDevice_mounted : agedDevice.Mounted := by
  intro b hb
  change b < 4 at hb
  rcases (by omega : b = 0 ∨ b = 1 ∨ b = 2 ∨ b = 3) with rfl | rfl | rfl | rfl <;> rfl

end Citrine.Ffs
