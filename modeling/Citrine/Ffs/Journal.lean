import Mathlib.Logic.Function.Basic
import Citrine.Ffs.Errors
import Citrine.Ffs.InodeForest
import Citrine.Ffs.Params
import Citrine.Lib.Machine
import Citrine.Lib.Outcome

/-!
# The journal

Before the inode of an object is written, an entry with what is to be written is added to the journal file, and when
the file system is started an entry that has not been done is done again.  The journal file is an object itself: when
it is nearly full it is replaced by a new one, and the reclaim of its block relocates it.
-/

namespace Citrine.Ffs

/-! ### The entries -/

/-- `JOURNAL_IS_EMPTY` -/
def journalIsEmpty : BitVec 8 := 0xff
/-- `JOURNAL_IS_WRITING` -/
def journalIsWriting : BitVec 8 := 0xfd
/-- `JOURNAL_IS_READY` -/
def journalIsReady : BitVec 8 := 0xf9
/-- `JOURNAL_IS_DONE` -/
def journalIsDone : BitVec 8 := 0xf1

/-- `OF_MASK` -/
def ofMask : BitVec 8 := 0xf0
/-- `OF_READONLY` -/
def ofReadonly : BitVec 8 := 0x10

/-- `struct journal_s`, without the place of the object in its directory. -/
structure JournalEntry where
  state : BitVec 8
  flags : BitVec 8
  i : Nat
  oldi : Nat
  location : Nat
  size : Nat
  repli : Nat
  deriving DecidableEq, Repr

/-- An entry in space that is erased. -/
def erasedEntry : JournalEntry := ⟨0xff, 0xff, 0xffff, 0xffff, 0xffffffff, 0xffff, 0xffff⟩

/-- `journalEntrySize` as a natural number. -/
def entrySize : Nat := 16
/-- `sizeof (FFS_JOURNAL_NAME)` -/
def journalNameSize : Nat := 9
/-- `JOURNAL_POS_INITIAL` -/
def journalPosInitial : Nat := 12

/-- `atomalign`, for atoms of 16 octets. -/
def atomalign (size : Nat) : Nat := (size + 15) / 16 * 16

/-- A write to the journal: the inode of the journal file at that time, and the position. -/
structure JournalWrite where
  file : Inode
  pos : Nat
  deriving DecidableEq, Repr

/-- What is in the flash, as far as the journal goes: the inodes, the entries by the location of the journal file and the
position in it, and the locations of objects that have the name of the journal file; with the parameters. -/
structure JournalFlash where
  inodes : Inodes
  entries : Nat → Nat → JournalEntry
  isJournal : Nat → Bool
  inodesMax : Nat
  blocksFreeMin : Int
  journalSize : Nat
  /-- The entries that have been written. -/
  written : List JournalWrite

/-- The flash with the members of `fs` that belong to the journal. -/
structure Journaling extends JournalFlash where
  ijournal : Nat
  journalPos : Nat
  journal : JournalEntry
  /-- At how many more tests power is not lost, if it ever is. -/
  power : Option Nat

/-- An object for which space and an inode have been allocated; when the inodes have been reclaimed for it, the deleted
ones that are still linked. -/
structure Allocation where
  i : Nat
  location : Nat
  size : Nat
  reclaimed : Option (List Nat)
  deriving DecidableEq, Repr

/-- What a function of the journal leads to. -/
abbrev Journaled := Outcome Journaling Journaling

namespace Journaling

section
variable (s : Journaling)

/-- An inode is written. -/
def setInode (i : Nat) (g : Inode → Inode) : Journaling :=
  { s with inodes := Function.update s.inodes i (g (s.inodes i)) }

/-- An entry is written. -/
def setEntry (location pos : Nat) (e : JournalEntry) : Journaling :=
  { s with entries := Function.update s.entries location (Function.update (s.entries location) pos e) }

/-- `JOURNAL_TEST`: one of the points at which a loss of power is simulated. -/
def test : Journaled :=
  match s.power with
  | none => .done s
  | some 0 => .lost s
  | some (n + 1) => .done { s with power := some n }

/-- `journal_begin` -/
def journalBegin (oldi : Nat) : Journaling :=
  if oldi = 0 then { s with journal := ⟨journalIsEmpty, 0xff, 0, 0, 0, 0, 0⟩ }
  else
    let oldip := s.inodes oldi
    { s with journal := ⟨journalIsEmpty, oldip.flags, 0, oldi, oldip.location, oldip.size, 0⟩ }

/-- The object type of a new object. -/
def setType (type : BitVec 8) : Journaling :=
  if type ≠ 0 ∧ s.journal.oldi = 0 then
    { s with journal := { s.journal with flags := s.journal.flags &&& ofMask ||| type } }
  else s

/-- An inode is erased. -/
def eraseInode (i : Nat) : Journaling := s.setInode i fun ip => { ip with flags := otErased }

/-- `object_remove` for the inodes of an object; the journal file cannot be removed. -/
def objectRemove (removed : List Nat) : Journaled :=
  if s.ijournal ∈ removed then .impossible
  else
    .done (removed.foldl (fun s i =>
      let s := s.journalBegin i
      { s with journal := { s.journal with location := 0 } }.eraseInode i) s)

/-- `journal_commit`, with the inodes of the object that is replaced. -/
def journalCommit (type : BitVec 8) (removed : List Nat) : Journaled := do
  let s ←
    (if s.journal.i ≠ 0 then do
      let s := s.setType type
      let s := s.setInode s.journal.i fun ip => { ip with location := s.journal.location, size := s.journal.size }
      let s ← s.test
      pure (s.setInode s.journal.i fun ip => { ip with flags := s.journal.flags })
    else pure s : Journaled)
  if s.journal.oldi ≠ 0 then
    let s := s.eraseInode s.journal.oldi
    if 0 < s.journal.repli then s.objectRemove removed else pure s
  else pure s

/-- The entry is written to the journal file, in two steps. -/
def journalWrite (location pos : Nat) : Journaled := do
  let s :=
    if s.journal.state = journalIsEmpty then
      let e := { s.journal with state := journalIsWriting }
      { s.setEntry location pos e with journal := e, written := ⟨s.inodes s.ijournal, pos⟩ :: s.written }
    else s
  let s ← s.test
  if s.journal.state = journalIsWriting then
    let s := { s with journal := { s.journal with state := journalIsReady } }
    pure (s.setEntry location pos { s.entries location pos with state := journalIsReady })
  else pure s

/-- The journal file is full up to the margin; the comparison is one of unsigned values. -/
def nearFull : Prop := uint32 (s.journalSize - ffsJournalMargin * journalEntrySize) ≤ s.journalPos

instance : Decidable s.nearFull := inferInstanceAs (Decidable (_ ≤ _))

/-- What `inodes_reclaim` does to the inodes, as far as the journal goes. -/
def inodesReclaim (linked : List Nat) : Journaling :=
  { s with inodes := fun i => if (s.inodes i).isObjectValid ∨ i ∈ linked then s.inodes i else erasedInode }

/-- Whether an object can get an inode and space: the inode is not in use, and neither is the space, unless an object
that is not the journal file keeps that of its old inode. -/
def Offers (a : Allocation) (isJournal : Bool) : Prop :=
  0 < a.i ∧ a.i < s.inodesMax ∧ ¬(s.inodes a.i).isObjectValid ∧
    ∀ j, j < s.inodesMax → (s.inodes j).isObjectValid → (s.inodes j).location = a.location →
      isJournal = false ∧ j = s.journal.oldi

instance (a : Allocation) (isJournal : Bool) : Decidable (s.Offers a isJournal) :=
  inferInstanceAs (Decidable (_ ∧ _ ∧ _ ∧ _))

/-- `object_create` for what has been allocated; a journal file is created empty. -/
def objectCreate (a : Allocation) (isJournal : Bool) : Journaled :=
  if s.Offers a isJournal then
    let size := if isJournal then atomalign (journalNameSize + s.journalSize + 1) else a.size
    let s := (a.reclaimed.map s.inodesReclaim).getD s
    .done
      { s with
        journal := { s.journal with i := a.i, location := a.location, size := size }
        isJournal := Function.update s.isJournal a.location isJournal
        entries := if isJournal then Function.update s.entries a.location fun _ => erasedEntry else s.entries }
  else .impossible

/-- `journal_create`, with what ends the journalled operation; without an allocation `object_create` fails. -/
def journalCreate (journalEnd : Journaling → Journaled) (alloc : Option Allocation) (oldi : Nat) :
    Outcome Journaling (Int × Journaling) :=
  if s.journalSize = 0 then pure (0, s)
  else if s.blocksFreeMin = 0 then pure (0, s)
  else
    let s := s.journalBegin oldi
    match alloc with
    | none => pure (effsNospace, s)
    | some a => do
      let s ← s.objectCreate a true
      let s := { s with journal := { s.journal with flags := s.journal.flags &&& ~~~ofReadonly } }
      if oldi ≠ 0 then
        let s ← journalEnd s
        pure ((a.i : Int), s)
      else
        let s ← s.journalCommit otFile []
        pure ((a.i : Int), { s with journalPos := journalPosInitial })

/-- The body of `journal_end`, with what creates a new journal file. -/
def journalEndWith (create : Journaling → Outcome Journaling (Int × Journaling)) (type : BitVec 8)
    (removed : List Nat) : Journaled := do
  let location := (s.inodes s.ijournal).location
  let pos := s.journalPos
  let s := s.setType type
  if s.ijournal = 0 then s.journalCommit 0 removed
  else do
    let s ← s.test
    let s ← s.journalWrite location pos
    let s ← s.test
    let s ← s.journalCommit 0 removed
    let s ← s.test
    let s := s.setEntry location pos { s.entries location pos with state := journalIsDone }
    let s ← s.test
    let s := { s with journalPos := s.journalPos + entrySize }
    let s ←
      (if s.nearFull ∧ s.journal.oldi ≠ s.ijournal then do
        let (_, s) ← create s
        pure s
      else pure s : Journaled)
    if s.journal.oldi = s.ijournal then
      pure { s with journalPos := journalPosInitial, ijournal := s.journal.i }
    else pure s

end

/-- `journal_end`, with the inodes of the object that is replaced and the allocations for the journal files that it
creates. -/
def journalEnd : List (Option Allocation) → BitVec 8 → List Nat → Journaling → Journaled
  | [], type, removed, s => s.journalEndWith (fun s => s.journalCreate pure none s.ijournal) type removed
  | alloc :: creates, type, removed, s =>
    s.journalEndWith (fun s => s.journalCreate (journalEnd creates 0 []) alloc s.ijournal) type removed

/-! ### Operations and restarts -/

/-- An object that `data_block_reclaim` relocates. -/
structure Relocation where
  oldi : Nat
  alloc : Option Allocation
  creates : List (Option Allocation)

/-- `object_relocate` for a valid object; the saved entry `fs.ojournal` follows the object. -/
def objectRelocate (s : Journaling × JournalEntry) (r : Relocation) : Outcome Journaling (Journaling × JournalEntry) :=
  let (s, o) := s
  if ¬(s.inodes r.oldi).isObjectValid then .impossible
  else
    let s := s.journalBegin r.oldi
    match r.alloc with
    | none => pure (s, o)
    | some a => do
      let s ← s.objectCreate a (s.isJournal (s.inodes r.oldi).location)
      let s ← journalEnd r.creates 0 [] s
      let o := if o.oldi = r.oldi then { o with oldi := a.i, location := a.location } else o
      let o := if o.repli = r.oldi then { o with repli := a.i } else o
      pure (s, o)

/-- A journalled operation: the object that it updates, the objects that are relocated meanwhile, what it gets, whether
it has the name of the journal file, its type, the object that it replaces, and the allocations for journal files. -/
structure Update where
  oldi : Nat
  relocations : List Relocation
  alloc : Option Allocation
  isJournal : Bool
  type : BitVec 8
  repli : Nat
  removed : List Nat
  creates : List (Option Allocation)

/-- A journalled operation, between `journal_begin` and `journal_end`; the journal file cannot be updated. -/
def update (u : Update) (s : Journaling) : Journaled := do
  let s := s.journalBegin u.oldi
  -- `journal_push`, the reclaim of a block, and `journal_pop`
  let (s, o) ← u.relocations.foldlM objectRelocate (s, { s.journal with repli := u.repli })
  let s := { s with journal := o }
  if s.journal.oldi = s.ijournal then .impossible
  else
    match u.alloc with
    | none => pure s
    | some a => do
      let s ← s.objectCreate a u.isJournal
      journalEnd u.creates u.type u.removed s

/-- The inode of the journal file that `inodes_fsck` finds. -/
def findJournal (s : Journaling) : Nat :=
  (List.range s.inodesMax).foldl (fun found i =>
    if i ≠ 0 ∧ (s.inodes i).isObjectValid ∧ ¬(s.inodes i).isObject otSegment ∧ s.isJournal (s.inodes i).location then i
    else found) 0

/-- The first entry from one on that is not done, among so many. -/
def firstUndone (f : Nat → JournalEntry) : Nat → Nat → Option Nat
  | 0, _ => none
  | fuel + 1, j =>
    if (f (journalPosInitial + entrySize * j)).state = journalIsDone then firstUndone f fuel (j + 1) else some j

/-- What is given at a restart: a bound on the entries that are read, the allocations for journal files, and the inodes
of the object that is replaced. -/
structure Restart where
  fuel : Nat
  first : Option Allocation
  creates : List (Option Allocation)
  recreates : List (Option Allocation)
  removed : List Nat

/-- The first entry that is not done: it is left, done again, or passed over. -/
def journalResume (creates : List (Option Allocation)) (removed : List Nat) (location : Nat) (s : Journaling) :
    Outcome Journaling (Int × Journaling) :=
  let e := s.entries location s.journalPos
  if e.state = journalIsEmpty then pure (effsOk, s)
  else if e.state = journalIsReady then do
    let s ← journalEnd creates 0 removed { s with journal := e }
    pure (1, s)
  else
    let s := s.setEntry location s.journalPos { e with state := journalIsDone }
    pure (effsOk, { s with journalPos := s.journalPos + entrySize })

/-- The end of `journal_init`: a journal file of another size is replaced. -/
def journalResize (recreates : List (Option Allocation)) (ip : Nat) (r : Int) (s : Journaling) :
    Outcome Journaling (Int × Journaling) :=
  if (s.inodes ip).size ≠ s.journalSize + atomalign (journalNameSize + 1) then do
    let (r, s) ←
      match recreates with
      | [] => s.journalCreate pure none s.ijournal
      | alloc :: recreates => s.journalCreate (journalEnd recreates 0 []) alloc s.ijournal
    if r ≤ 0 then pure (r, { s with ijournal := 0 }) else pure (r, s)
  else pure (r, s)

/-- `journal_init`.  The inode is read where it was before a journal file has been created; when the scan does not end
within the bound the result is impossible. -/
def journalInit (r : Restart) (i : Nat) (s : Journaling) : Outcome Journaling (Int × Journaling) := do
  let (found, s) ← (if i = 0 then s.journalCreate pure r.first 0 else pure ((i : Int), s) : Outcome _ (Int × Journaling))
  if found ≤ 0 then pure (found, { s with ijournal := 0 })
  else
    let location := (s.inodes i).location
    match firstUndone (s.entries location) r.fuel 0 with
    | none => .impossible
    | some j => do
      let s := { s with ijournal := found.toNat, journalPos := journalPosInitial + entrySize * j }
      let (e, s) ← s.journalResume r.creates r.removed location
      s.journalResize r.recreates i e

end Journaling

/-! ### Runs -/

/-- What happens to the file system: an operation, a removal of an object or a restart; power may be lost at a test. -/
inductive JournalEvent
  | update (power : Option Nat) (u : Journaling.Update)
  | remove (removed : List Nat)
  | restart (power : Option Nat) (r : Journaling.Restart)

/-- The state after an operation, and whether the file system is running. -/
def ended : Journaled → Option (Journaling × Bool)
  | .impossible => none
  | .lost s => some (s, false)
  | .done s => some (s, true)

/-- The state after a restart. -/
def restarted : Outcome Journaling (Int × Journaling) → Option (Journaling × Bool)
  | .impossible => none
  | .lost s => some (s, false)
  | .done (e, s) => some (s, decide (0 ≤ e))

/-- One event. -/
def journalStep (x : Journaling × Bool) : JournalEvent → Option (Journaling × Bool)
  | .update power u => if x.2 then ended (Journaling.update u { x.1 with power := power }) else none
  | .remove removed => if x.2 then ended (x.1.objectRemove removed) else none
  | .restart power r =>
    let i := Journaling.findJournal x.1
    restarted (Journaling.journalInit r i { x.1 with ijournal := i, power := power })

/-- The journal file has just been created by `fs_format`, and the file system is going to be started. -/
def formatted (x : Journaling × Bool) : Prop :=
  ∃ (s s' : Journaling) (a : Allocation), s.written = [] ∧
    (∀ j, (s.inodes j).isObjectValid → j < s.inodesMax ∧ s.isJournal (s.inodes j).location = false) ∧
    0 < a.i ∧ s.journalCreate pure (some a) 0 = .done ((a.i : Int), s') ∧ x = ({ s' with ijournal := a.i }, false)

/-- The file system with its journal, for the size of the journal file. -/
def journalMachine (journalSize : Nat) : Machine (Journaling × Bool) JournalEvent :=
  ⟨fun x => formatted x ∧ x.1.journalSize = journalSize, journalStep⟩

end Citrine.Ffs
