import Mathlib.Logic.Function.Basic
import Citrine.Lib.Serial

/-!
# The blocks of the flash file system

A block of the flash has a header, and a record in the table `bstat`.  Its flags are cleared one by one while it goes
from one state to the next.  A free block is taken by `block_alloc` for data or for inodes.
-/

namespace Citrine.Ffs

/-! ### The headers and the table -/

/-- `BF_LOST` -/
def bfLost : BitVec 16 := 0x80
/-- `BF_FREE` -/
def bfFree : BitVec 16 := 0x40
/-- `BF_DATA` -/
def bfData : BitVec 16 := 0x02
/-- `BF_CLEANING` -/
def bfCleaning : BitVec 16 := 0x01
/-- `BF_INODES` -/
def bfInodes : BitVec 16 := 0x10
/-- `BF_COPYING` -/
def bfCopying : BitVec 16 := 0x04

/-- `BF_IS_EMPTY` -/
def bfIsEmpty : BitVec 16 := ~~~0
/-- `BF_IS_FREE` -/
def bfIsFree : BitVec 16 := ~~~bfFree
/-- `BF_IS_DATA` -/
def bfIsData : BitVec 16 := ~~~(bfFree ||| bfData)
/-- `BF_IS_CLEANING` -/
def bfIsCleaning : BitVec 16 := ~~~(bfFree ||| bfData ||| bfCleaning)
/-- `BF_IS_COPYING` -/
def bfIsCopying : BitVec 16 := ~~~(bfFree ||| bfCopying)
/-- `BF_IS_INODES` -/
def bfIsInodes : BitVec 16 := ~~~(bfFree ||| bfCopying ||| bfInodes)
/-- `BF_IS_INODES_LOST` -/
def bfIsInodesLost : BitVec 16 := ~~~(bfFree ||| bfCopying ||| bfInodes ||| bfLost)

/-- `struct block_header_s` -/
structure BlockHeader where
  magicLow : BitVec 16
  magicHigh : BitVec 16
  version : BitVec 16
  age : BitVec 16
  flags : BitVec 16
  deriving DecidableEq, Repr

/-- `struct block_stat_s` -/
structure BlockStat where
  used : Int
  lost : Int
  flags : BitVec 16
  objects : Nat
  deriving DecidableEq, Repr

/-- `BHEADER_SIZE` -/
def bheaderSize : Nat := 16
/-- `BLOCK_AGE_MAX` -/
def blockAgeMax : BitVec 16 := 0xffff
/-- `FFS_BLOCKS_MAX` -/
def ffsBlocksMax : Nat := 128

/-- The members of `fs` that the functions of blocks use. -/
structure Fs where
  inodes : Int
  newinodes : Int
  blocksFreeMin : Int
  format : BitVec 16
  ageMax : BitVec 16
  initerror : Int
  testflags : BitVec 8
  deriving DecidableEq, Repr

/-- The blocks of the device with their headers in the flash, the table `bstat` and `fs`. -/
structure State where
  numblocks : Nat
  blocksize : Nat
  header : Nat → BlockHeader
  bstat : Nat → BlockStat
  fs : Fs
  numblocks_le : numblocks ≤ ffsBlocksMax

/-- `is_block` -/
def State.isBlock (f : State) (b : Nat) (state : BitVec 16) : Prop := (f.bstat b).flags = state

instance (f : State) (b : Nat) (state : BitVec 16) : Decidable (f.isBlock b state) :=
  inferInstanceAs (Decidable (_ = _))

/-- `is_block_flag` -/
def State.isBlockFlag (f : State) (b : Nat) (bits : BitVec 16) : Prop := ~~~(f.bstat b).flags &&& bits ≠ 0

instance (f : State) (b : Nat) (bits : BitVec 16) : Decidable (f.isBlockFlag b bits) :=
  inferInstanceAs (Decidable (_ ≠ _))

/-- A record of the table is changed. -/
def State.setStat (f : State) (b : Nat) (g : BlockStat → BlockStat) : State :=
  { f with bstat := Function.update f.bstat b (g (f.bstat b)) }

/-- A header is written. -/
def State.setHeader (f : State) (b : Nat) (g : BlockHeader → BlockHeader) : State :=
  { f with header := Function.update f.header b (g (f.header b)) }

/-- `block_flags_write` -/
def State.blockFlagsWrite (f : State) (b : Nat) (flags : BitVec 16) : State :=
  let f := f.setStat b fun r => { r with flags := r.flags &&& ~~~flags }
  f.setHeader b fun h => { h with flags := (f.bstat b).flags }

section
variable (f : State) (b c : Nat) (flags : BitVec 16) (g : BlockStat → BlockStat) (k : BlockHeader → BlockHeader)

@[simp]
theorem setStat_header : (f.setStat b g).header = f.header := rfl

@[simp]
theorem setStat_fs : (f.setStat b g).fs = f.fs := rfl

@[simp]
theorem setHeader_fs : (f.setHeader b k).fs = f.fs := rfl

@[simp]
theorem setHeader_header : (f.setHeader b k).header b = k (f.header b) := Function.update_self ..

theorem setHeader_header_ne {b c : Nat} (h : c ≠ b) : (f.setHeader b k).header c = f.header c :=
  Function.update_of_ne h ..

@[simp]
theorem blockFlagsWrite_fs : (f.blockFlagsWrite b flags).fs = f.fs := rfl

theorem blockFlagsWrite_header_ne {b c : Nat} (h : c ≠ b) : (f.blockFlagsWrite b flags).header c = f.header c :=
  Function.update_of_ne h ..

@[simp]
theorem blockFlagsWrite_age : ((f.blockFlagsWrite b flags).header c).age = (f.header c).age := by
  by_cases h : c = b
  · subst h
    simp [State.blockFlagsWrite]
  · rw [blockFlagsWrite_header_ne _ _ h]

end

/-! ### `block_alloc` -/

/-- The local variables of `block_alloc`; `blocks_free` is a `bref_t`. -/
structure AllocScan where
  bMin : Int
  bMax : Int
  ageMin : BitVec 16
  ageMax : BitVec 16
  blocksFree : Int
  deriving DecidableEq, Repr

/-- The variables before the loop. -/
def allocStart : AllocScan := ⟨-1, -1, blockAgeMax, 0, 0⟩

/-- One round of the loop of `block_alloc`. -/
def State.allocRound (f : State) (i : Nat) (r : AllocScan) : AllocScan :=
  if f.isBlock i bfIsFree then
    let age := (f.header i).age
    let r := { r with blocksFree := Int.bmod (r.blocksFree + 1) 256 }
    let r := if age ≤ r.ageMin then { r with bMin := i, ageMin := age } else r
    if r.ageMax ≤ age then { r with bMax := i, ageMax := age } else r
  else r

/-- The loop of `block_alloc`, which goes down to block 0. -/
def State.allocLoop (f : State) : Nat → AllocScan → AllocScan
  | 0, r => r
  | i + 1, r => f.allocLoop i (f.allocRound i r)

/-- The block that the ages of the free blocks give. -/
def AllocScan.block (r : AllocScan) : Int :=
  if r.bMin ≠ -1 then (if (r.ageMax.toNat : Int) - r.ageMin.toNat < 0x8000 then r.bMin else r.bMax) else r.bMin

/-- `block_alloc`; there is no result when a record in front of the table is written. -/
def State.blockAlloc (f : State) (priority : Int) (flags : BitVec 16) : Option (Int × State) :=
  let r := f.allocLoop f.numblocks allocStart
  let b := r.block
  if r.blocksFree ≤ f.fs.blocksFreeMin - priority then some (-1, f)
  else if flags = bfData then
    if b < 0 then none
    else
      let f := f.setStat b.toNat fun s => { s with used := bheaderSize, lost := 0, objects := 0 }
      some (b, f.blockFlagsWrite b.toNat bfData)
  else if flags = bfCopying then
    if b < 0 then none
    else
      let f := f.blockFlagsWrite b.toNat bfCopying
      some (b, f.setStat b.toNat fun s => { s with used := 0, lost := 0, objects := 1 })
  else some (b, f)

/-! ### What the loop finds -/

/-- The block is one of the device and free. -/
def State.FreeBlock (f : State) (b : Nat) : Prop := b < f.numblocks ∧ f.isBlock b bfIsFree

/-- The number of free blocks. -/
def State.freeCount (f : State) : Nat := (List.range f.numblocks).countP fun b => decide (f.isBlock b bfIsFree)

/-- The ages of the free blocks. -/
def State.freeAges (f : State) : Set (BitVec 16) := {a | ∃ b, f.FreeBlock b ∧ (f.header b).age = a}

section
variable {f : State} {r : AllocScan} {n i lo hi b : Nat}

private def State.freeFrom (f : State) (n : Nat) : Nat :=
  (List.range' n (f.numblocks - n)).countP fun b => decide (f.isBlock b bfIsFree)

private theorem freeFrom_pred (h : i < f.numblocks) :
    f.freeFrom i = (if f.isBlock i bfIsFree then 1 else 0) + f.freeFrom (i + 1) := by
  obtain ⟨k, hk⟩ : ∃ k, f.numblocks - i = k + 1 := ⟨f.numblocks - i - 1, by omega⟩
  have hk' : f.numblocks - (i + 1) = k := by omega
  unfold State.freeFrom
  rw [hk, hk', List.range'_succ, List.countP_cons, Nat.add_comm]
  simp

/-- The variables name a block of the least age and one of the greatest age among the free ones from one on. -/
private structure Extremes (f : State) (n : Nat) (r : AllocScan) (lo hi : Nat) : Prop where
  loFree : f.FreeBlock lo
  hiFree : f.FreeBlock hi
  bMin : r.bMin = lo
  bMax : r.bMax = hi
  ageMin : r.ageMin = (f.header lo).age
  ageMax : r.ageMax = (f.header hi).age
  least : ∀ b, n ≤ b → f.FreeBlock b → (f.header lo).age.toNat ≤ (f.header b).age.toNat
  greatest : ∀ b, n ≤ b → f.FreeBlock b → (f.header b).age.toNat ≤ (f.header hi).age.toNat

/-- What the variables are when the blocks from one on have been visited. -/
private def Scanned (f : State) (n : Nat) (r : AllocScan) : Prop :=
  r.blocksFree = Int.bmod (f.freeFrom n) 256 ∧
    ((∀ b, n ≤ b → ¬f.FreeBlock b) ∧ { r with blocksFree := 0 } = allocStart ∨ ∃ lo hi, Extremes f n r lo hi)

private theorem forall_ge {p : Nat → Prop} (hi : p i) (h : ∀ b, i + 1 ≤ b → p b) : ∀ b, i ≤ b → p b := by
  intro b hb
  rcases Nat.lt_or_eq_of_le hb with hlt | rfl
  · exact h b hlt
  · exact hi

private theorem extremes_free (h : Extremes f (i + 1) r lo hi) (hi' : i < f.numblocks) (hfree : f.isBlock i bfIsFree) :
    ∃ lo hi, Extremes f i (f.allocRound i r) lo hi := by
  have hblock : f.FreeBlock i := ⟨hi', hfree⟩
  have hmin := h.ageMin
  have hmax := h.ageMax
  unfold State.allocRound
  rw [if_pos hfree]
  simp only [BitVec.le_def]
  split <;> split <;> rename_i hle hge
  · refine ⟨i, i, hblock, hblock, rfl, rfl, rfl, rfl, ?_, ?_⟩
    · refine forall_ge (fun _ => Nat.le_refl _) fun b hb hf => ?_
      exact (hmin ▸ hle).trans (h.least b hb hf)
    · refine forall_ge (fun _ => Nat.le_refl _) fun b hb hf => ?_
      exact (h.greatest b hb hf).trans (hmax ▸ hge)
  · refine ⟨i, hi, hblock, h.hiFree, rfl, h.bMax, rfl, h.ageMax, ?_, ?_⟩
    · refine forall_ge (fun _ => Nat.le_refl _) fun b hb hf => ?_
      exact (hmin ▸ hle).trans (h.least b hb hf)
    · refine forall_ge (fun _ => ?_) h.greatest
      exact hmax ▸ Nat.le_of_not_le hge
  · refine ⟨lo, i, h.loFree, hblock, h.bMin, rfl, h.ageMin, rfl, ?_, ?_⟩
    · refine forall_ge (fun _ => ?_) h.least
      exact hmin ▸ Nat.le_of_not_le hle
    · refine forall_ge (fun _ => Nat.le_refl _) fun b hb hf => ?_
      exact (h.greatest b hb hf).trans (hmax ▸ hge)
  · refine ⟨lo, hi, h.loFree, h.hiFree, h.bMin, h.bMax, h.ageMin, h.ageMax, ?_, ?_⟩
    · refine forall_ge (fun _ => ?_) h.least
      exact hmin ▸ Nat.le_of_not_le hle
    · refine forall_ge (fun _ => ?_) h.greatest
      exact hmax ▸ Nat.le_of_not_le hge

private theorem extremes_first (hno : ∀ b, i + 1 ≤ b → ¬f.FreeBlock b) (hr : { r with blocksFree := 0 } = allocStart)
    (hi' : i < f.numblocks) (hfree : f.isBlock i bfIsFree) : ∃ lo hi, Extremes f i (f.allocRound i r) lo hi := by
  have hblock : f.FreeBlock i := ⟨hi', hfree⟩
  have hmin : r.ageMin = blockAgeMax := congrArg AllocScan.ageMin hr
  have hmax : r.ageMax = 0 := congrArg AllocScan.ageMax hr
  have hle : (f.header i).age.toNat ≤ blockAgeMax.toNat := Nat.le_of_lt_succ (f.header i).age.isLt
  unfold State.allocRound
  rw [if_pos hfree]
  simp only [BitVec.le_def, hmin, hmax, if_pos hle]
  refine ⟨i, i, hblock, hblock, rfl, rfl, rfl, rfl, ?_, ?_⟩
  · exact forall_ge (fun _ => Nat.le_refl _) fun b hb hf => absurd hf (hno b hb)
  · exact forall_ge (fun _ => Nat.le_refl _) fun b hb hf => absurd hf (hno b hb)

private theorem allocRound_count (f : State) (i : Nat) (r : AllocScan) : (f.allocRound i r).blocksFree =
    if f.isBlock i bfIsFree then Int.bmod (r.blocksFree + 1) 256 else r.blocksFree := by
  unfold State.allocRound
  split
  · dsimp only
    split <;> split <;> rfl
  · rfl

private theorem bmod_succ (n : Nat) : Int.bmod (Int.bmod n 256 + 1) 256 = Int.bmod ((1 + n : Nat) : Int) 256 := by
  simp [Int.add_comm]

private theorem allocRound_scanned (hi : i < f.numblocks) (h : Scanned f (i + 1) r) :
    Scanned f i (f.allocRound i r) := by
  obtain ⟨hcount, hr⟩ := h
  have hpred := freeFrom_pred hi
  refine ⟨?_, ?_⟩
  · rw [allocRound_count, hpred, hcount]
    split
    · exact bmod_succ _
    · rw [Nat.zero_add]
  · by_cases hfree : f.isBlock i bfIsFree
    · right
      rcases hr with ⟨hno, hr⟩ | ⟨lo, hi', hr⟩
      · exact extremes_first hno hr hi hfree
      · exact extremes_free hr hi hfree
    · have hsame : f.allocRound i r = r := if_neg hfree
      rw [hsame]
      have hi : ¬f.FreeBlock i := fun h => hfree h.2
      rcases hr with ⟨hno, hr⟩ | ⟨lo, hi', hr⟩
      · exact .inl ⟨forall_ge hi hno, hr⟩
      · refine .inr ⟨lo, hi', { hr with least := ?_, greatest := ?_ }⟩
        · exact forall_ge (fun hf => absurd hf hi) hr.least
        · exact forall_ge (fun hf => absurd hf hi) hr.greatest

private theorem allocLoop_scanned (hn : n ≤ f.numblocks) (h : Scanned f n r) : Scanned f 0 (f.allocLoop n r) := by
  induction n generalizing r with
  | zero => exact h
  | succ i ih => exact ih (by omega) (allocRound_scanned (by omega) h)

private theorem start_scanned (f : State) : Scanned f f.numblocks allocStart := by
  refine ⟨?_, .inl ⟨fun b hb hf => absurd hf.1 (by omega), rfl⟩⟩
  unfold State.freeFrom
  rw [Nat.sub_self, List.range'_zero, List.countP_nil]
  decide

/-- The blocks that the loop finds. -/
private theorem allocLoop_spec (f : State) : (f.allocLoop f.numblocks allocStart).blocksFree = Int.bmod f.freeCount 256 ∧
    ((∀ b, ¬f.FreeBlock b) ∧ { f.allocLoop f.numblocks allocStart with blocksFree := 0 } = allocStart ∨
      ∃ lo hi, Extremes f 0 (f.allocLoop f.numblocks allocStart) lo hi) := by
  obtain ⟨hcount, hr⟩ := allocLoop_scanned (Nat.le_refl _) (start_scanned f)
  rw [State.freeFrom, Nat.sub_zero, ← List.range_eq_range'] at hcount
  exact ⟨hcount, hr.imp_left fun h => ⟨fun b => h.1 b (Nat.zero_le b), h.2⟩⟩

end

/-! ### Which block is allocated -/

/-- What an allocation gives: the oldest free block is taken for what has been asked for, and the reserve is kept for
callers that are not privileged. -/
structure Allocated (f : State) (priority : Int) (flags : BitVec 16) (b : Nat) (f' : State) : Prop where
  free : f.FreeBlock b
  oldest : Oldest f.freeAges (f.header b).age
  taken : ¬f'.isBlock b bfIsFree
  flags : f'.isBlock b (bfIsFree &&& ~~~flags)
  others : ∀ c, c ≠ b → f'.bstat c = f.bstat c ∧ f'.header c = f.header c
  reserve : priority = 0 → f.fs.blocksFreeMin ≤ f'.freeCount

/-- A call either returns a negative value and changes nothing, or allocates a block. -/
def AllocLaw (f : State) (priority : Int) (flags : BitVec 16) (out : Option (Int × State)) : Prop :=
  (∃ b, b < 0 ∧ out = some (b, f)) ∨ ∃ (b : Nat) (f' : State), out = some (↑b, f') ∧ Allocated f priority flags b f'

/-- The call is refused for want of free blocks. -/
def State.Refused (f : State) (priority : Int) : Prop := Int.bmod f.freeCount 256 ≤ f.fs.blocksFreeMin - priority

/-- The free blocks that are half of the range above another free one have one age. -/
def State.OneAbove (f : State) : Prop :=
  ∀ i j k, f.FreeBlock i → f.FreeBlock j → f.FreeBlock k →
    (f.header i).age.toNat + 0x8000 ≤ (f.header j).age.toNat →
    (f.header i).age.toNat + 0x8000 ≤ (f.header k).age.toNat → (f.header j).age = (f.header k).age

/-- What the free blocks and the request have to be for the call to keep the law. -/
def State.Allocatable (f : State) (priority : Int) (flags : BitVec 16) : Prop :=
  f.Refused priority ∨ (∀ b, ¬f.FreeBlock b) ∧ flags ≠ bfData ∧ flags ≠ bfCopying ∨
    (∃ b, f.FreeBlock b) ∧ (flags = bfData ∨ flags = bfCopying) ∧ f.OneAbove

section
variable {f f' : State} {r : AllocScan} {lo hi b : Nat} {base : BitVec 16} {flags : BitVec 16} {priority : Int}

private theorem ahead_free (h : Window f.freeAges base 0x8000) {i : Nat} (hi : f.FreeBlock i) :
    ahead base (f.header i).age < 0x8000 := h _ ⟨i, hi, rfl⟩

/-- As long as the numbers do not spread over half of the range the least one is the oldest. -/
private theorem oldest_least (h : Extremes f 0 r lo hi)
    (hspread : (f.header hi).age.toNat < (f.header lo).age.toNat + 0x8000) : Oldest f.freeAges (f.header lo).age := by
  refine ⟨⟨lo, h.loFree, rfl⟩, ?_⟩
  rintro - ⟨b, hb, rfl⟩
  have hle := h.least b (Nat.zero_le b) hb
  have hge := h.greatest b (Nat.zero_le b) hb
  rw [ahead_toNat]
  omega

/-- Otherwise the greatest one is the oldest only if no other one is above. -/
private theorem oldest_greatest (hw : Window f.freeAges base 0x8000) (h : Extremes f 0 r lo hi)
    (hspread : (f.header lo).age.toNat + 0x8000 ≤ (f.header hi).age.toNat) :
    Oldest f.freeAges (f.header hi).age ↔ f.OneAbove := by
  have htop : ∀ a : BitVec 16, a.toNat < 65536 := fun a => a.isLt
  constructor
  · intro hold
    have hone : ∀ i j, f.FreeBlock j → (f.header i).age.toNat + 0x8000 ≤ (f.header j).age.toNat →
        (f.header j).age = (f.header hi).age := by
      intro i j hj hij
      have hlt := hold.2 _ ⟨j, hj, rfl⟩
      have hge := h.greatest j (Nat.zero_le j) hj
      have := htop (f.header hi).age
      rw [ahead_toNat] at hlt
      refine BitVec.eq_of_toNat_eq ?_
      omega
    intro i j k _ hj hk hij hik
    rw [hone i j hj hij, hone i k hk hik]
  · intro habove
    refine ⟨⟨hi, h.hiFree, rfl⟩, ?_⟩
    rintro - ⟨b, hb, rfl⟩
    by_cases hfar : (f.header lo).age.toNat + 0x8000 ≤ (f.header b).age.toNat
    · rw [habove lo hi b h.loFree h.hiFree hb hspread hfar, ahead_self]
      decide
    · have hle := h.least b (Nat.zero_le b) hb
      have hge := h.greatest b (Nat.zero_le b) hb
      have hlo' := ahead_free hw h.loFree
      have hhi' := ahead_free hw h.hiFree
      have hb' := ahead_free hw hb
      have h1 := ahead_eq base (f.header lo).age (f.header b).age
      have h2 := ahead_eq base (f.header lo).age (f.header hi).age
      have h3 := ahead_eq base (f.header hi).age (f.header b).age
      have ht := htop (f.header hi).age
      rw [ahead_toNat] at h1 h2 h3 ⊢
      split at h1 <;> split at h2 <;> split at h3 <;> omega

private theorem spread_iff {a c : Nat} : (c : Int) - a < 0x8000 ↔ c < a + 0x8000 := by omega

/-- The loop's choice is the oldest free block if and only if the ages allow it. -/
private theorem block_oldest (hw : Window f.freeAges base 0x8000) (h : Extremes f 0 r lo hi) :
    ∃ b : Nat, r.block = b ∧ f.FreeBlock b ∧ (Oldest f.freeAges (f.header b).age ↔ f.OneAbove) := by
  have hmin : r.bMin ≠ -1 := by
    rw [h.bMin]
    omega
  unfold AllocScan.block
  rw [if_pos hmin, h.ageMin, h.ageMax]
  by_cases hspread : (f.header hi).age.toNat < (f.header lo).age.toNat + 0x8000
  · rw [if_pos (spread_iff.2 hspread)]
    refine ⟨lo, h.bMin, h.loFree, iff_of_true (oldest_least h hspread) fun i j k hi' hj _ hij => ?_⟩
    have hle := h.least i (Nat.zero_le i) hi'
    have hge := h.greatest j (Nat.zero_le j) hj
    omega
  · rw [if_neg (mt spread_iff.1 hspread)]
    exact ⟨hi, h.bMax, h.hiFree, oldest_greatest hw h (Nat.le_of_not_lt hspread)⟩

private theorem countP_remove {p q : Nat → Bool} (hp : p b = true) (hq : q b = false) (h : ∀ c, c ≠ b → q c = p c)
    (n : Nat) : (List.range n).countP p = (List.range n).countP q + if b < n then 1 else 0 := by
  induction n with
  | zero => rfl
  | succ n ih =>
    rw [List.range_succ, List.countP_append, List.countP_append, ih, List.countP_singleton, List.countP_singleton]
    rcases Nat.lt_trichotomy b n with hlt | rfl | hgt
    · rw [h n (by omega), if_pos hlt, if_pos (by omega : b < n + 1)]
      omega
    · simp [hp, hq]
    · rw [h n (by omega), if_neg (by omega), if_neg (by omega : ¬b < n + 1)]
      omega

/-- A state in which a free block has been taken. -/
private theorem allocated_iff (hnum : f'.numblocks = f.numblocks) (hb : f.FreeBlock b)
    (hok : flags = bfData ∨ flags = bfCopying) (hflags : (f'.bstat b).flags = (f.bstat b).flags &&& ~~~flags)
    (hothers : ∀ c, c ≠ b → f'.bstat c = f.bstat c ∧ f'.header c = f.header c) (hres : ¬f.Refused priority) :
    Allocated f priority flags b f' ↔ Oldest f.freeAges (f.header b).age := by
  refine ⟨Allocated.oldest, fun hold => ?_⟩
  have hstate : f'.isBlock b (bfIsFree &&& ~~~flags) := by
    unfold State.isBlock
    rw [hflags, hb.2]
  have htaken : ¬f'.isBlock b bfIsFree := by
    intro h
    have heq : bfIsFree &&& ~~~flags = bfIsFree := hstate.symm.trans h
    rcases hok with rfl | rfl
    · exact absurd heq (by decide)
    · exact absurd heq (by decide)
  refine ⟨hb, hold, htaken, hstate, hothers, fun hp => ?_⟩
  have hcount := countP_remove (p := fun c => decide (f.isBlock c bfIsFree)) (q := fun c => decide (f'.isBlock c bfIsFree))
    (decide_eq_true hb.2) (decide_eq_false htaken) (fun c hc => decide_eq_decide.2 (by rw [State.isBlock, State.isBlock, (hothers c hc).1]))
    f.numblocks
  rw [if_pos hb.1] at hcount
  have hle : f.freeCount ≤ f.numblocks := (List.countP_le_length).trans (by rw [List.length_range])
  have hmax := f.numblocks_le
  unfold ffsBlocksMax at hmax
  unfold State.Refused State.freeCount at hres
  unfold State.freeCount at hle ⊢
  rw [hnum]
  rw [hp, Int.bmod_def] at hres
  split at hres <;> omega

private theorem block_free (hr : (∀ b, ¬f.FreeBlock b) ∧ { r with blocksFree := 0 } = allocStart ∨
    ∃ lo hi, Extremes f 0 r lo hi) : (∀ b, ¬f.FreeBlock b) ∧ r.block = -1 ∨ ∃ b : Nat, r.block = b ∧ f.FreeBlock b := by
  rcases hr with ⟨hno, hr⟩ | ⟨lo, hi, h⟩
  · have hmin : r.bMin = -1 := congrArg AllocScan.bMin hr
    refine .inl ⟨hno, ?_⟩
    unfold AllocScan.block
    rw [hmin]
    rfl
  · have hmin : r.bMin ≠ -1 := by
      rw [h.bMin]
      omega
    right
    unfold AllocScan.block
    rw [if_pos hmin]
    split
    · exact ⟨lo, h.bMin, h.loFree⟩
    · exact ⟨hi, h.bMax, h.hiFree⟩

/-- A block for the copies of inodes is refused, or it is one of the free blocks. -/
theorem blockAlloc_copying (hreserve : priority ≤ f.fs.blocksFreeMin ∨ ∃ b, f.FreeBlock b) :
    f.Refused priority ∧ f.blockAlloc priority bfCopying = some (-1, f) ∨
      ¬f.Refused priority ∧ ∃ b : Nat, f.FreeBlock b ∧ f.blockAlloc priority bfCopying =
        some (↑b, (f.blockFlagsWrite b bfCopying).setStat b fun s => { s with used := 0, lost := 0, objects := 1 }) := by
  obtain ⟨hcount, hfound⟩ := allocLoop_spec f
  unfold State.blockAlloc
  simp only [hcount]
  by_cases hres : f.Refused priority
  · exact .inl ⟨hres, if_pos hres⟩
  rw [if_neg (id hres : ¬Int.bmod f.freeCount 256 ≤ f.fs.blocksFreeMin - priority),
    if_neg (by decide : bfCopying ≠ bfData), if_pos trivial]
  rcases block_free hfound with ⟨hno, -⟩ | ⟨b, hblock, hb⟩
  · exfalso
    rcases hreserve with hmin | ⟨b, hb⟩
    · refine hres ?_
      have hzero : f.freeCount = 0 := by
        rw [State.freeCount, List.countP_eq_zero]
        intro b hb
        simpa using fun h => hno b ⟨List.mem_range.1 hb, h⟩
      unfold State.Refused
      rw [hzero]
      change 0 ≤ _
      omega
    · exact hno b hb
  · rw [hblock, if_neg (by omega), Int.toNat_natCast]
    exact .inr ⟨hres, b, hb, rfl⟩

/-- `block_alloc` keeps the law if and only if it refuses the request, or there is no free block and nothing is asked
for, or there is one and those half of the range above another one have one age. -/
theorem blockAlloc_law_iff (hw : Window f.freeAges base 0x8000) :
    AllocLaw f priority flags (f.blockAlloc priority flags) ↔ f.Allocatable priority flags := by
  obtain ⟨hcount, hfound⟩ := allocLoop_spec f
  unfold State.blockAlloc State.Allocatable
  simp only [hcount]
  by_cases hres : f.Refused priority
  · rw [if_pos (id hres : Int.bmod f.freeCount 256 ≤ f.fs.blocksFreeMin - priority)]
    exact iff_of_true (.inl ⟨-1, by omega, rfl⟩) (.inl hres)
  rw [if_neg (id hres : ¬Int.bmod f.freeCount 256 ≤ f.fs.blocksFreeMin - priority)]
  rcases hfound with ⟨hno, hr⟩ | ⟨lo, hi, hr⟩
  · have hblock : (f.allocLoop f.numblocks allocStart).block = -1 := by
      have hmin : (f.allocLoop f.numblocks allocStart).bMin = -1 := congrArg AllocScan.bMin hr
      unfold AllocScan.block
      rw [hmin]
      rfl
    have hnone : ¬AllocLaw f priority flags none := by
      rintro (⟨b, -, h⟩ | ⟨b, f', h, -⟩)
      · cases h
      · cases h
    have hex : ¬∃ b, f.FreeBlock b := fun ⟨b, hb⟩ => hno b hb
    simp only [hblock, hres, hex, false_and, or_false, false_or]
    by_cases hdata : flags = bfData
    · simp [hdata, hno, hdata ▸ hnone]
    · by_cases hcopy : flags = bfCopying
      · simp [hcopy, hno, hcopy ▸ hnone, show bfCopying ≠ bfData by decide]
      · simp only [if_neg hdata, if_neg hcopy]
        exact iff_of_true (.inl ⟨-1, by omega, rfl⟩) ⟨hno, hdata, hcopy⟩
  · obtain ⟨b, hblock, hb, hold⟩ := block_oldest hw hr
    have hex : ∃ b, f.FreeBlock b := ⟨b, hb⟩
    have hno : ¬∀ b, ¬f.FreeBlock b := fun h => h b hb
    have hneg : ¬(b : Int) < 0 := by omega
    have hlaw : ∀ {f' : State}, AllocLaw f priority flags (some ((b : Int), f')) ↔ Allocated f priority flags b f' := by
      intro f'
      constructor
      · rintro (⟨c, hc, h⟩ | ⟨c, f'', h, ha⟩)
        · cases h
          omega
        · have hcb := (Prod.mk.inj (Option.some.inj h)).1
          have hff := (Prod.mk.inj (Option.some.inj h)).2
          have : b = c := by omega
          rw [this, hff]
          exact ha
      · exact fun h => .inr ⟨b, f', rfl, h⟩
    simp only [hblock, hres, hex, hno, hneg, true_and, false_and, false_or, if_false, Int.toNat_natCast]
    by_cases hdata : flags = bfData
    · rw [if_pos hdata, hlaw, ← hold]
      simp only [hdata, true_or, true_and]
      refine allocated_iff rfl hb (.inl rfl) ?_ ?_ hres
      · simp [State.blockFlagsWrite, State.setStat, State.setHeader]
      · intro c hc
        simp [State.blockFlagsWrite, State.setStat, State.setHeader, Function.update_of_ne hc]
    · rw [if_neg hdata]
      by_cases hcopy : flags = bfCopying
      · rw [if_pos hcopy, hlaw, ← hold]
        simp only [hcopy, or_true, true_and]
        refine allocated_iff rfl hb (.inr rfl) ?_ ?_ hres
        · simp [State.blockFlagsWrite, State.setStat, State.setHeader]
        · intro c hc
          simp [State.blockFlagsWrite, State.setStat, State.setHeader, Function.update_of_ne hc]
      · rw [if_neg hcopy, hlaw]
        simp only [hdata, hcopy, or_self, false_and, iff_false]
        exact fun h => h.taken hb.2

end

/-! ### Three free blocks around the wrap -/

/-- A device whose blocks are all free. -/
def freeDevice (n : Nat) (hn : n ≤ ffsBlocksMax) (age : Nat → BitVec 16) : State where
  numblocks := n
  blocksize := 0x10000
  header b := ⟨0x6646, 0x2373, 0x0210, age b, bfIsFree⟩
  bstat _ := ⟨0, 0, bfIsFree, 0⟩
  fs := ⟨-1, -1, 1, 0x0210, blockAgeMax, 0, 0⟩
  numblocks_le := hn

/-- Two blocks before the wrap and one behind it. -/
def wrapped : State := freeDevice 3 (by decide) fun b => if b = 0 then 65530 else if b = 1 then 65534 else 3

theorem wrapped_window : Window wrapped.freeAges 65530 0x8000 := by
  rintro - ⟨b, hb, rfl⟩
  have hlt : b < 3 := hb.1
  rcases (by omega : b = 0 ∨ b = 1 ∨ b = 2) with rfl | rfl | rfl <;> decide

/-- One block is in reserve, and the block of age 65534 is allocated, though one of age 65530 is free. -/
theorem wrapped_youngest :
    Window wrapped.freeAges 65530 0x8000 ∧ ¬AllocLaw wrapped 0 bfData (wrapped.blockAlloc 0 bfData) := by
  refine ⟨wrapped_window, ?_⟩
  have hout : (wrapped.blockAlloc 0 bfData).map Prod.fst = some 1 := by decide
  rintro (⟨b, hb, h⟩ | ⟨b, f', h, ha⟩)
  · rw [h] at hout
    have hone : b = 1 := Option.some.inj hout
    omega
  · rw [h] at hout
    have hb : b = 1 := Int.ofNat_inj.1 (Option.some.inj hout)
    subst hb
    have hlt := ha.oldest.2 65530 ⟨0, ⟨by decide, by decide⟩, rfl⟩
    exact absurd hlt (by decide)

/-- Without the block behind the wrap the older one is allocated. -/
theorem unwrapped_allocated :
    AllocLaw (freeDevice 2 (by decide) fun b => if b = 0 then 65530 else 65534) 0 bfData
      ((freeDevice 2 (by decide) fun b => if b = 0 then 65530 else 65534).blockAlloc 0 bfData) := by
  have hw : Window (freeDevice 2 (by decide) fun b => if b = 0 then 65530 else 65534).freeAges 65530 0x8000 := by
    rintro - ⟨b, hb, rfl⟩
    have hlt : b < 2 := hb.1
    rcases (by omega : b = 0 ∨ b = 1) with rfl | rfl <;> decide
  refine (blockAlloc_law_iff hw).2 (.inr (.inr ⟨⟨0, by decide, by decide⟩, .inl rfl, ?_⟩))
  intro i j k hi hj _ hij
  have hi' : i < 2 := hi.1
  have hj' : j < 2 := hj.1
  exfalso
  rcases (by omega : i = 0 ∨ i = 1) with rfl | rfl <;> rcases (by omega : j = 0 ∨ j = 1) with rfl | rfl <;>
    exact absurd hij (by decide)

end Citrine.Ffs
