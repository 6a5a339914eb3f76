import Citrine.Ffs.Journal

/-!
# The journal file

One journal file is valid at any time, and its entries are done up to one that may be pending; behind that one they are
erased (`JournalFlash.Kept`).  While the file system runs the pending entry is erased and there is room behind it for
the entry with which the journal file itself is replaced (`Journaling.Mounted`); when power is lost the pending entry
can be left, done again or passed over (`JournalFlash.Recoverable`).  The end of an operation leads from the first to
one of the two, when a new journal file gets its space (`journalEnd_ordinary`, `journalEnd_renewal`).
-/

namespace Citrine.Ffs

/-! ### The journal file -/

/-- The position of an entry in the journal file. -/
def entryPos (k : Nat) : Nat := journalPosInitial + entrySize * k

/-- A write lies in the data area of a valid journal file. -/
structure JournalWrite.Inside (w : JournalWrite) (journalSize : Nat) : Prop where
  valid : w.file.isObjectValid
  size : w.file.size = atomalign (journalNameSize + journalSize + 1)
  start : journalPosInitial ≤ w.pos
  stop : w.pos + entrySize ≤ journalNameSize + journalSize

namespace JournalFlash

section
variable (F : JournalFlash)

/-- The end of the data area of the journal file. -/
def dataEnd : Nat := journalNameSize + F.journalSize

/-- An entry of a journal file. -/
def entry (g k : Nat) : JournalEntry := F.entries (F.inodes g).location (entryPos k)

/-- An inode is one of a journal file. -/
structure IsFile (g : Nat) : Prop where
  pos : 0 < g
  bound : g < F.inodesMax
  type : (F.inodes g).isObject otFile
  size : (F.inodes g).size = atomalign (journalNameSize + F.journalSize + 1)
  name : F.isJournal (F.inodes g).location = true

/-- There is one journal file, all entries before one are done and all behind it erased, and what has been written was
inside. -/
structure Kept (g k : Nat) : Prop extends F.IsFile g where
  least : 64 ≤ F.journalSize
  range : F.journalSize < 2 ^ 32
  free : F.blocksFreeMin ≠ 0
  others : ∀ j, (F.inodes j).isObjectValid →
    j < F.inodesMax ∧ (j ≠ g → F.isJournal (F.inodes j).location = false)
  before : ∀ m, m < k → (F.entry g m).state = journalIsDone
  after : ∀ m, k < m → F.entry g m = erasedEntry
  inside : ∀ w ∈ F.written, w.Inside F.journalSize

/-- An entry for an object that is not the journal file. -/
structure Ordinary (g : Nat) (e : JournalEntry) : Prop where
  old : e.oldi ≠ g
  new : e.i ≠ 0 → e.i ≠ g ∧ e.i < F.inodesMax ∧ F.isJournal e.location = false

/-- An entry with which the journal file is replaced by an empty one. -/
structure Renewal (g : Nat) (e : JournalEntry) : Prop where
  old : e.oldi = g
  repli : e.repli = 0
  pos : 0 < e.i
  bound : e.i < F.inodesMax
  unused : ¬(F.inodes e.i).isObjectValid
  type : e.flags &&& otMask = otFile
  size : e.size = atomalign (journalNameSize + F.journalSize + 1)
  name : F.isJournal e.location = true
  elsewhere : ∀ j, (F.inodes j).isObjectValid → (F.inodes j).location ≠ e.location
  empty : ∀ pos, F.entries e.location pos = erasedEntry

/-- An entry that can be done again. -/
def Pending (g : Nat) (e : JournalEntry) : Prop := F.Ordinary g e ∨ F.Renewal g e

/-- What is left when power is lost: the first entry that is not done is inside, and it is erased, or half written, or
it can be done again. -/
def Recoverable : Prop :=
  ∃ g k, F.Kept g k ∧ entryPos k + entrySize ≤ F.dataEnd ∧ (F.entry g k).state ≠ journalIsDone ∧
    ((F.entry g k).state = journalIsEmpty → F.entry g k = erasedEntry) ∧
    ((F.entry g k).state = journalIsReady → F.Pending g (F.entry g k))

end

end JournalFlash

namespace Journaling

section
variable (s : Journaling)

/-- The file system runs with a journal file, and the position is that of an entry. -/
structure At (g k : Nat) : Prop extends s.toJournalFlash.Kept g k where
  file : s.ijournal = g
  position : s.journalPos = entryPos k

/-- The entry at the position is erased. -/
structure Clean (g k : Nat) : Prop extends s.At g k where
  erased : s.entry g k = erasedEntry

/-- The file system runs, and there is room for an entry and for the one that replaces the journal file. -/
def Mounted : Prop := ∃ g k, s.Clean g k ∧ entryPos k + 2 * entrySize ≤ s.dataEnd

/-- The entry at the position is ready, and it is being done. -/
structure Doing (g place length k : Nat) (e : JournalEntry) : Prop extends s.At g k where
  place : (s.inodes g).location = place
  length : s.journalSize = length
  fits : entryPos k + entrySize ≤ s.dataEnd
  entry : s.entry g k = e
  ready : e.state = journalIsReady

end

end Journaling

/-! ### The parts of a state -/

theorem entryPos_succ (k : Nat) : entryPos (k + 1) = entryPos k + entrySize := by
  simp only [entryPos, entrySize]
  omega

theorem entryPos_ne {m k : Nat} (h : m ≠ k) : entryPos m ≠ entryPos k := by
  simp only [entryPos, entrySize]
  omega

theorem erased_invalid : ¬erasedInode.isObjectValid := by decide

section
variable {s : Journaling} {g place length k : Nat} {e : JournalEntry}

theorem JournalFlash.IsFile.valid {F : JournalFlash} (h : F.IsFile g) : (F.inodes g).isObjectValid :=
  Inode.valid_file h.type

theorem entry_setInode {j m : Nat} {f : Inode → Inode} (hj : j ≠ g) :
    (s.setInode j f).entry g m = s.entry g m := by
  have hg : (s.setInode j f).inodes g = s.inodes g := Function.update_of_ne (Ne.symm hj) _ _
  unfold JournalFlash.entry
  rw [hg]
  rfl

private theorem kept_setInode {j : Nat} {f : Inode → Inode} (h : s.Kept g k) (hj : j ≠ g)
    (hf : (f (s.inodes j)).isObjectValid → j < s.inodesMax ∧ s.isJournal (f (s.inodes j)).location = false) :
    (s.setInode j f).Kept g k := by
  have hg : (s.setInode j f).inodes g = s.inodes g := Function.update_of_ne (Ne.symm hj) _ _
  refine ⟨⟨h.pos, h.bound, by rw [hg]; exact h.type, by rw [hg]; exact h.size, by rw [hg]; exact h.name⟩, h.least,
    h.range, h.free, fun i hi => ?_, fun m hm => by rw [entry_setInode hj]; exact h.before m hm,
    fun m hm => by rw [entry_setInode hj]; exact h.after m hm, h.inside⟩
  by_cases hij : i = j
  · subst hij
    have heq : (s.setInode i f).inodes i = f (s.inodes i) := Function.update_self _ _ _
    rw [heq] at hi ⊢
    exact ⟨(hf hi).1, fun _ => (hf hi).2⟩
  · have heq : (s.setInode j f).inodes i = s.inodes i := Function.update_of_ne hij _ _
    rw [heq] at hi ⊢
    exact h.others i hi

theorem kept_eraseInode {j : Nat} (h : s.Kept g k) (hj : j ≠ g) : (s.eraseInode j).Kept g k :=
  kept_setInode h hj fun hvalid => absurd (show otErased &&& otMask = otErased by decide) hvalid.2

theorem entry_setEntry (e : JournalEntry) :
    (s.setEntry (s.inodes g).location (entryPos k) e).entry g k = e := by
  unfold JournalFlash.entry Journaling.setEntry
  simp

theorem entry_setEntry_of_ne {location pos m : Nat} (h : location = (s.inodes g).location → pos ≠ entryPos m) :
    (s.setEntry location pos e).entry g m = s.entry g m := by
  unfold JournalFlash.entry Journaling.setEntry
  dsimp only
  by_cases hloc : location = (s.inodes g).location
  · rw [hloc, Function.update_self, Function.update_of_ne (h hloc).symm]
  · rw [Function.update_of_ne (Ne.symm hloc)]

theorem kept_setEntry {location pos : Nat} (h : s.Kept g k)
    (hpos : location = (s.inodes g).location → pos = entryPos k) : (s.setEntry location pos e).Kept g k := by
  have hentry : ∀ m, m ≠ k → (s.setEntry location pos e).entry g m = s.entry g m := fun m hm =>
    entry_setEntry_of_ne fun hloc => by rw [hpos hloc]; exact entryPos_ne (Ne.symm hm)
  exact ⟨⟨h.pos, h.bound, h.type, h.size, h.name⟩, h.least, h.range, h.free, h.others,
    fun m hm => by rw [hentry m (by omega)]; exact h.before m hm,
    fun m hm => by rw [hentry m (by omega)]; exact h.after m hm, h.inside⟩

theorem kept_advance (h : s.Kept g k) (hdone : (s.entry g k).state = journalIsDone) : s.Kept g (k + 1) := by
  refine ⟨h.toIsFile, h.least, h.range, h.free, h.others, fun m hm => ?_, fun m hm => h.after m (by omega), h.inside⟩
  by_cases hmk : m = k
  · rw [hmk]
    exact hdone
  · exact h.before m (by omega)

private theorem kept_written {w : JournalWrite} (h : s.Kept g k) (hw : w.Inside s.journalSize) :
    ({ s with written := w :: s.written } : Journaling).Kept g k := by
  refine ⟨⟨h.pos, h.bound, h.type, h.size, h.name⟩, h.least, h.range, h.free, h.others, h.before, h.after,
    fun w' hw' => ?_⟩
  rcases List.mem_cons.1 hw' with rfl | hw'
  · exact hw
  · exact h.inside w' hw'

theorem kept_first {F : JournalFlash} {i : Nat} (hfile : F.IsFile i) (hleast : 64 ≤ F.journalSize)
    (hrange : F.journalSize < 2 ^ 32) (hfree : F.blocksFreeMin ≠ 0)
    (hothers : ∀ j, (F.inodes j).isObjectValid → j ≠ i →
      j < F.inodesMax ∧ F.isJournal (F.inodes j).location = false)
    (hempty : ∀ pos, F.entries (F.inodes i).location pos = erasedEntry)
    (hinside : ∀ w ∈ F.written, w.Inside F.journalSize) : F.Kept i 0 ∧ F.entry i 0 = erasedEntry := by
  refine ⟨⟨hfile, hleast, hrange, hfree, fun j hj => ?_, fun m hm => absurd hm (Nat.not_lt_zero m), fun m _ => hempty _,
    hinside⟩, hempty _⟩
  by_cases hji : j = i
  · exact ⟨by rw [hji]; exact hfile.bound, fun hne => absurd hji hne⟩
  · exact ⟨(hothers j hj hji).1, fun _ => (hothers j hj hji).2⟩

private theorem clean_recoverable (h : s.Kept g k) (herased : s.entry g k = erasedEntry)
    (hfits : entryPos k + entrySize ≤ s.dataEnd) : s.Recoverable := by
  refine ⟨g, k, h, hfits, ?_, fun _ => herased, fun hready => ?_⟩
  · rw [herased]
    decide
  · rw [herased] at hready
    exact absurd hready (by decide)

theorem Journaling.Mounted.recoverable (h : s.Mounted) : s.Recoverable := by
  obtain ⟨g, k, h, hroom⟩ := h
  exact clean_recoverable h.toKept h.erased (by omega)

private theorem Journaling.Doing.recoverable (h : s.Doing g place length k e) (hpending : s.Pending g e) : s.Recoverable := by
  refine ⟨g, k, h.toKept, h.fits, ?_, fun hempty => ?_, fun _ => ?_⟩
  · rw [h.entry, h.ready]
    decide
  · rw [h.entry, h.ready] at hempty
    exact absurd hempty (by decide)
  · rw [h.entry]
    exact hpending

end

/-! ### The steps of an operation -/

namespace Journaling

section
variable {s : Journaling} {g place length k : Nat} {e : JournalEntry}

theorem test_meets {C : Journaling → Prop} (hC : C s) :
    s.test.Meets (fun s' => ∃ p, s' = { s with power := p }) C := by
  unfold test
  cases s.power with
  | none => exact ⟨s.power, rfl⟩
  | some n =>
    cases n with
    | zero => exact hC
    | succ n => exact ⟨some n, rfl⟩

private theorem setType_eq {type : BitVec 8} (h : type ≠ 0 → s.journal.oldi ≠ 0) : s.setType type = s := by
  unfold setType
  rw [if_neg]
  rintro ⟨htype, hold⟩
  exact h htype hold

private theorem Doing.setInode {j : Nat} {f : Inode → Inode} (h : s.Doing g place length k e) (hj : j ≠ g)
    (hf : (f (s.inodes j)).isObjectValid → j < s.inodesMax ∧ s.isJournal (f (s.inodes j)).location = false) :
    (s.setInode j f).Doing g place length k e := by
  have hg : (s.setInode j f).inodes g = s.inodes g := Function.update_of_ne (Ne.symm hj) _ _
  refine ⟨⟨kept_setInode h.toKept hj hf, h.file, h.position⟩, by rw [hg]; exact h.place, h.length, h.fits,
    (entry_setInode hj).trans h.entry, h.ready⟩

private theorem Doing.eraseInode {j : Nat} (h : s.Doing g place length k e) (hj : j ≠ g) : (s.eraseInode j).Doing g place length k e :=
  h.setInode hj fun hvalid => absurd (show otErased &&& otMask = otErased by decide) hvalid.2

private theorem Doing.setJournal (h : s.Doing g place length k e) (e' : JournalEntry) :
    ({ s with journal := e' } : Journaling).Doing g place length k e :=
  ⟨⟨h.toKept, h.file, h.position⟩, h.place, h.length, h.fits, h.entry, h.ready⟩

private theorem Doing.setPower (h : s.Doing g place length k e) (p : Option Nat) :
    ({ s with power := p } : Journaling).Doing g place length k e :=
  ⟨⟨h.toKept, h.file, h.position⟩, h.place, h.length, h.fits, h.entry, h.ready⟩

theorem journalBegin_spec (i : Nat) : ∃ e' : JournalEntry, s.journalBegin i = { s with journal := e' } ∧
    e'.oldi = i ∧ e'.state = journalIsEmpty ∧ e'.repli = 0 ∧ (i ≠ 0 → e'.flags = (s.inodes i).flags) := by
  unfold journalBegin
  split
  · rename_i hi
    exact ⟨_, rfl, hi.symm, rfl, rfl, fun h => absurd hi h⟩
  · exact ⟨_, rfl, rfl, rfl, rfl, fun _ => rfl⟩

/-- The removal of an object keeps what does not depend on the entry in the memory and on other inodes. -/
theorem objectRemove_keeps {I : Journaling → Prop} {C : Journaling → Prop} {removed : List Nat}
    (herase : ∀ s i, i ≠ g → I s → I (s.eraseInode i)) (hjournal : ∀ s e', I s → I { s with journal := e' })
    (hfile : s.ijournal = g) (h : I s) :
    (s.objectRemove removed).Meets (fun s' => I s' ∧ (s.journal.oldi ≠ g → s'.journal.oldi ≠ g)) C := by
  unfold objectRemove
  split
  · trivial
  rename_i hremoved
  rw [hfile] at hremoved
  change _ ∧ _
  induction removed generalizing s with
  | nil => exact ⟨h, fun hold => hold⟩
  | cons i removed ih =>
    rw [List.mem_cons, not_or] at hremoved
    have hi : i ≠ g := Ne.symm hremoved.1
    obtain ⟨e', heq, holdi, -⟩ := journalBegin_spec (s := s) i
    rw [List.foldl_cons, heq]
    have hstep := herase _ i hi (hjournal s { e' with location := 0 } h)
    obtain ⟨hI, hlast⟩ := ih (s := ({ s with journal := { e' with location := 0 } } : Journaling).eraseInode i)
      hfile hstep hremoved.2
    exact ⟨hI, fun _ => hlast (by change e'.oldi ≠ g; rw [holdi]; exact hi)⟩

/-- What is done for an object leaves the journal file. -/
private theorem journalCommit_ordinary {removed : List Nat} (h : s.Doing g place length k e) (hordinary : s.Ordinary g e)
    (hjournal : s.journal = e) :
    (s.journalCommit 0 removed).Meets (fun s' => s'.Doing g place length k e ∧ s'.Ordinary g e ∧ s'.journal.oldi ≠ g)
      (·.Recoverable) := by
  subst hjournal
  unfold journalCommit
  refine Outcome.Meets.bind
    (P := fun s' : Journaling => s'.Doing g place length k s.journal ∧ s'.Ordinary g s.journal ∧ s'.journal = s.journal) ?_ ?_
  · split
    · rename_i hi
      obtain ⟨hig, hbound, hname⟩ := hordinary.new hi
      simp only [setType_eq fun hne => absurd rfl hne]
      have hwritten := h.setInode hig (f := fun ip => { ip with location := s.journal.location, size := s.journal.size })
        fun _ => ⟨hbound, hname⟩
      refine (test_meets (hwritten.recoverable (.inl ⟨hordinary.old, hordinary.new⟩))).bind ?_
      rintro s' ⟨p, rfl⟩
      refine ⟨(hwritten.setPower p).setInode hig fun _ => ⟨hbound, ?_⟩, ⟨hordinary.old, hordinary.new⟩, rfl⟩
      change s.isJournal (Function.update s.inodes s.journal.i _ s.journal.i).location = false
      rw [Function.update_self]
      exact hname
    · exact ⟨h, hordinary, rfl⟩
  · rintro s' ⟨hdoing, hord, hj⟩
    rw [← hj] at hdoing hord ⊢
    have hold := hord.old
    split
    · have herased := hdoing.eraseInode hold
      dsimp only
      split
      · refine (objectRemove_keeps (I := fun t => t.Doing g place length k s'.journal ∧ t.Ordinary g s'.journal)
          (fun t i hi ht => ⟨ht.1.eraseInode hi, ⟨ht.2.old, ht.2.new⟩⟩)
          (fun t e' ht => ⟨ht.1.setJournal e', ht.2⟩) herased.file ⟨herased, ⟨hord.old, hord.new⟩⟩).mono ?_ (fun _ h => h)
        rintro t ⟨⟨ht, hordinary⟩, hlast⟩
        exact ⟨ht, hordinary, hlast hold⟩
      · exact ⟨herased, ⟨hord.old, hord.new⟩, hold⟩
    · exact ⟨hdoing, hord, hold⟩

/-- The journal file has been replaced, and the old one is still that of the operation. -/
private structure Renewed (s : Journaling) (g : Nat) (e : JournalEntry) : Prop where
  kept : s.Kept e.i 0
  erased : s.entry e.i 0 = erasedEntry
  location : (s.inodes e.i).location = e.location
  file : s.ijournal = g
  journal : s.journal = e

theorem first_recoverable (h : s.Kept g 0) (herased : s.entry g 0 = erasedEntry) : s.Recoverable := by
  refine clean_recoverable h herased ?_
  have := h.least
  simp only [entryPos, entrySize, journalPosInitial, JournalFlash.dataEnd, journalNameSize]
  omega

private theorem Renewed.recoverable (h : s.Renewed g e) : s.Recoverable := first_recoverable h.kept h.erased

/-- The new journal file takes the place of the old one. -/
private theorem journalCommit_renewal {removed : List Nat} (h : s.Doing g place length k e) (hrenewal : s.Renewal g e)
    (hjournal : s.journal = e) :
    (s.journalCommit 0 removed).Meets (fun s' => s'.Renewed g e) (·.Recoverable) := by
  have hig : e.i ≠ g := fun hig => hrenewal.unused (by rw [hig]; exact h.toKept.toIsFile.valid)
  have hold : e.oldi ≠ 0 := by
    rw [hrenewal.old]
    exact Nat.ne_of_gt h.pos
  unfold journalCommit
  rw [if_pos (by rw [hjournal]; exact Nat.ne_of_gt hrenewal.pos)]
  have hset : s.setType 0 = s := by simp [setType]
  simp only [hset, hjournal]
  have hwritten : (s.setInode e.i fun ip => { ip with location := e.location, size := e.size }).Doing g place length k e :=
    h.setInode hig fun hvalid => absurd hvalid hrenewal.unused
  refine Outcome.Meets.bind
    (P := fun s' : Journaling => ∃ p, s' = { s with
      inodes := Function.update s.inodes e.i
        { s.inodes e.i with location := e.location, size := e.size, flags := e.flags }
      power := p }) ?_ ?_
  · refine (test_meets (hwritten.recoverable (.inr ?_))).bind ?_
    · have hvalid : ∀ j, (Function.update s.inodes e.i
          { s.inodes e.i with location := e.location, size := e.size } j).isObjectValid →
          j ≠ e.i ∧ (s.inodes j).isObjectValid := by
        intro j hj
        by_cases hji : j = e.i
        · subst hji
          rw [Function.update_self] at hj
          exact absurd hj hrenewal.unused
        · rw [Function.update_of_ne hji] at hj
          exact ⟨hji, hj⟩
      refine ⟨hrenewal.old, hrenewal.repli, hrenewal.pos, hrenewal.bound, fun hj => (hvalid _ hj).1 rfl,
        hrenewal.type, hrenewal.size, hrenewal.name, fun j hj => ?_, hrenewal.empty⟩
      obtain ⟨hji, hj⟩ := hvalid j hj
      change (Function.update s.inodes e.i _ j).location ≠ e.location
      rw [Function.update_of_ne hji]
      exact hrenewal.elsewhere j hj
    · rintro s' ⟨p, rfl⟩
      refine ⟨p, ?_⟩
      simp [setInode, hjournal]
  · rintro s' ⟨p, rfl⟩
    simp only [hjournal]
    rw [if_pos hold, if_neg (by change ¬0 < e.repli; rw [hrenewal.repli]; decide), hrenewal.old]
    change Renewed _ g e
    set ip : Inode := { s.inodes e.i with location := e.location, size := e.size, flags := e.flags } with hip
    set t := Function.update (Function.update s.inodes e.i ip) g { Function.update s.inodes e.i ip g with flags := otErased }
      with ht
    have hnew : t e.i = ip := by
      rw [ht, Function.update_of_ne hig, Function.update_self]
    have hothers : ∀ j, (t j).isObjectValid → j ≠ e.i → j ≠ g ∧ t j = s.inodes j := by
      intro j hj hji
      by_cases hjg : j = g
      · subst hjg
        rw [ht, Function.update_self] at hj
        exact absurd (show otErased &&& otMask = otErased by decide) hj.2
      · exact ⟨hjg, by rw [ht, Function.update_of_ne hjg, Function.update_of_ne hji]⟩
    have hfirst : ({ s with inodes := t, power := p, journal := e } : Journaling).Kept e.i 0 ∧
        ({ s with inodes := t, power := p, journal := e } : Journaling).entry e.i 0 = erasedEntry := by
      refine kept_first ⟨hrenewal.pos, hrenewal.bound, ?_, ?_, ?_⟩ h.least h.range h.free (fun j hj hji => ?_)
        (fun pos => ?_) h.inside
      · change (t e.i).isObject otFile
        rw [hnew]
        exact hrenewal.type
      · change (t e.i).size = _
        rw [hnew]
        exact hrenewal.size
      · change s.isJournal (t e.i).location = true
        rw [hnew]
        exact hrenewal.name
      · change (t j).isObjectValid at hj
        obtain ⟨hjg, heq⟩ := hothers j hj hji
        rw [heq] at hj
        refine ⟨(h.others j hj).1, ?_⟩
        change s.isJournal (t j).location = false
        rw [heq]
        exact (h.others j hj).2 hjg
      · change s.entries (t e.i).location pos = erasedEntry
        rw [hnew]
        exact hrenewal.empty pos
    refine ⟨hfirst.1, hfirst.2, ?_, h.file, rfl⟩
    change (t e.i).location = e.location
    rw [hnew]

private theorem pending_write {F F' : JournalFlash} (h : F.Kept g k) (hpending : F.Pending g e)
    (hinodes : F'.inodes = F.inodes) (hmax : F'.inodesMax = F.inodesMax) (hname : F'.isJournal = F.isJournal)
    (hsize : F'.journalSize = F.journalSize)
    (hentries : ∀ location, location ≠ (F.inodes g).location → F'.entries location = F.entries location) :
    F'.Pending g e := by
  rcases hpending with hordinary | hrenewal
  · exact .inl ⟨hordinary.old, by rw [hmax, hname]; exact hordinary.new⟩
  · have hne : e.location ≠ (F.inodes g).location := (hrenewal.elsewhere g h.toIsFile.valid).symm
    refine .inr ⟨hrenewal.old, hrenewal.repli, hrenewal.pos, by rw [hmax]; exact hrenewal.bound,
      by rw [hinodes]; exact hrenewal.unused, hrenewal.type, by rw [hsize]; exact hrenewal.size,
      by rw [hname]; exact hrenewal.name, by rw [hinodes]; exact hrenewal.elsewhere, fun pos => ?_⟩
    rw [hentries _ hne]
    exact hrenewal.empty pos

private theorem pending_state {F : JournalFlash} (h : F.Pending g e) (state : BitVec 8) :
    F.Pending g { e with state := state } := by
  rcases h with h | h
  · exact .inl ⟨h.old, h.new⟩
  · exact .inr ⟨h.old, h.repli, h.pos, h.bound, h.unused, h.type, h.size, h.name, h.elsewhere, h.empty⟩

/-- An entry is written where the file is erased, or it is ready already. -/
def Begun (s : Journaling) (g k : Nat) : Prop :=
  s.journal.state = journalIsEmpty ∧ s.entry g k = erasedEntry ∨
    s.journal.state = journalIsReady ∧ s.entry g k = s.journal

/-- The entry is written inside the journal file. -/
private theorem journalWrite_doing (h : s.At g k) (hfits : entryPos k + entrySize ≤ s.dataEnd)
    (hbegun : s.Begun g k) (hpending : s.Pending g s.journal) :
    (s.journalWrite (s.inodes g).location (entryPos k)).Meets
      (fun s' => s'.Doing g (s.inodes g).location s.journalSize k { s.journal with state := journalIsReady } ∧
        s'.journal = { s.journal with state := journalIsReady } ∧
        s'.Pending g { s.journal with state := journalIsReady })
      (·.Recoverable) := by
  unfold journalWrite
  rcases hbegun with ⟨hempty, herased⟩ | ⟨hready, hentry⟩
  · simp only [hempty, if_true]
    set e := { s.journal with state := journalIsWriting } with he
    have hkept : ({ s.setEntry (s.inodes g).location (entryPos k) e with
        journal := e, written := ⟨s.inodes s.ijournal, entryPos k⟩ :: s.written } : Journaling).Kept g k := by
      refine kept_written (s := s.setEntry (s.inodes g).location (entryPos k) e)
        (kept_setEntry h.toKept fun _ => rfl) ⟨?_, ?_, ?_, hfits⟩
      · rw [h.file]
        exact h.toKept.toIsFile.valid
      · rw [h.file]
        exact h.size
      · simp only [entryPos]
        omega
    have hwriting : ({ s.setEntry (s.inodes g).location (entryPos k) e with
        journal := e, written := ⟨s.inodes s.ijournal, entryPos k⟩ :: s.written } : Journaling).entry g k = e :=
      entry_setEntry (s := s) (g := g) (k := k) e
    refine (test_meets ⟨g, k, hkept, hfits, ?_, ?_, ?_⟩).bind ?_
    · rintro s' ⟨p, rfl⟩
      rw [if_pos rfl]
      refine ⟨⟨⟨kept_setEntry (s := { s.setEntry (s.inodes g).location (entryPos k) e with
        journal := _, written := _, power := p }) hkept fun _ => rfl, h.file, h.position⟩, rfl, rfl, hfits, ?_, rfl⟩, rfl, ?_⟩
      · refine (entry_setEntry (s := { s.setEntry (s.inodes g).location (entryPos k) e with
          journal := _, written := _, power := p }) (g := g) (k := k) _).trans ?_
        change ({ ({ s.setEntry (s.inodes g).location (entryPos k) e with
          journal := e, written := ⟨s.inodes s.ijournal, entryPos k⟩ :: s.written } : Journaling).entry g k with
            state := journalIsReady } : JournalEntry) = _
        rw [hwriting]
      · refine pending_write h.toKept (pending_state hpending _) rfl rfl rfl rfl fun location hlocation => ?_
        exact (Function.update_of_ne hlocation _ _).trans (Function.update_of_ne hlocation _ _)
    · rw [hwriting]
      exact show journalIsWriting ≠ journalIsDone by decide
    · intro h
      rw [hwriting] at h
      exact absurd h (show journalIsWriting ≠ journalIsEmpty by decide)
    · intro h
      rw [hwriting] at h
      exact absurd h (show journalIsWriting ≠ journalIsReady by decide)
  · simp only [hready, show journalIsReady ≠ journalIsEmpty by decide, if_false]
    have hdoing : s.Doing g (s.inodes g).location s.journalSize k s.journal := ⟨h, rfl, rfl, hfits, hentry, hready⟩
    refine (test_meets (hdoing.recoverable hpending)).bind ?_
    rintro s' ⟨p, rfl⟩
    rw [if_neg (by change s.journal.state ≠ journalIsWriting; rw [hready]; decide)]
    have heq : ({ s.journal with state := journalIsReady } : JournalEntry) = s.journal := by rw [← hready]
    rw [heq]
    exact ⟨hdoing.setPower p, rfl, hpending⟩

theorem reclaimed_objects (a : Allocation) : ∃ t : Inodes,
    (a.reclaimed.map s.inodesReclaim).getD s = { s with inodes := t } ∧
      (∀ j, (t j).isObjectValid → t j = s.inodes j) ∧ ∀ j, (s.inodes j).isObjectValid → t j = s.inodes j := by
  cases a.reclaimed with
  | none => exact ⟨s.inodes, rfl, fun _ _ => rfl, fun _ _ => rfl⟩
  | some linked =>
    refine ⟨_, rfl, fun j hj => ?_, fun j hj => if_pos (.inl hj)⟩
    split at hj
    · rename_i hkept
      exact if_pos hkept
    · exact absurd hj erased_invalid

/-- The objects and the journal file are the same after an object has got its space, and the entry at the position is
still erased. -/
private theorem clean_create {t : Inodes} {a : Allocation} {isJournal : Bool} (h : s.Clean g k)
    (ht : ∀ j, (t j).isObjectValid → t j = s.inodes j) (ht' : ∀ j, (s.inodes j).isObjectValid → t j = s.inodes j)
    (hold : isJournal = false → s.journal.oldi ≠ g) (ha : s.Offers a isJournal) (e' : JournalEntry) :
    ({ s with
      inodes := t
      journal := e'
      isJournal := Function.update s.isJournal a.location isJournal
      entries := if isJournal then Function.update s.entries a.location fun _ => erasedEntry else s.entries }
        : Journaling).Clean g k := by
  have hvalid := h.toKept.toIsFile.valid
  have hg := ht' g hvalid
  have hne : (s.inodes g).location ≠ a.location := fun hlocation => by
    obtain ⟨hfalse, hj⟩ := ha.2.2.2 g h.bound hvalid hlocation
    exact hold hfalse hj.symm
  have hentry : ∀ m, (if isJournal then Function.update s.entries a.location fun _ => erasedEntry else s.entries)
      (t g).location (entryPos m) = s.entry g m := fun m => by
    rw [hg]
    split
    · rw [Function.update_of_ne hne]
      rfl
    · rfl
  refine ⟨⟨⟨⟨h.pos, h.bound, ?_, ?_, ?_⟩, h.least, h.range, h.free, fun j hj => ?_,
    fun m hm => (congrArg JournalEntry.state (hentry m)).trans (h.before m hm), fun m hm => (hentry m).trans (h.after m hm),
    h.inside⟩, h.file, h.position⟩, (hentry k).trans h.erased⟩
  · change (t g).isObject otFile
    rw [hg]
    exact h.type
  · change (t g).size = _
    rw [hg]
    exact h.size
  · change Function.update s.isJournal a.location isJournal (t g).location = true
    rw [hg, Function.update_of_ne hne]
    exact h.name
  · have heq := ht j hj
    change (t j).isObjectValid at hj
    rw [heq] at hj
    obtain ⟨hbound, hname⟩ := h.others j hj
    refine ⟨hbound, fun hjg => ?_⟩
    change Function.update s.isJournal a.location isJournal (t j).location = false
    rw [heq]
    by_cases hlocation : (s.inodes j).location = a.location
    · rw [hlocation, Function.update_self]
      exact (ha.2.2.2 j hbound hj hlocation).1
    · rw [Function.update_of_ne hlocation]
      exact hname hjg

/-- An object other than the journal file is created. -/
theorem objectCreate_ordinary {a : Allocation} {C : Journaling → Prop} (h : s.Clean g k)
    (hold : s.journal.oldi ≠ g) :
    (s.objectCreate a false).Meets (fun s' => s'.Clean g k ∧ s'.Ordinary g s'.journal ∧
      s'.journal.state = s.journal.state ∧ s'.journal.oldi = s.journal.oldi ∧ s'.journalSize = s.journalSize) C := by
  unfold objectCreate
  split
  · rename_i ha
    obtain ⟨t, hreclaimed, ht, ht'⟩ := reclaimed_objects (s := s) a
    simp only [hreclaimed]
    refine ⟨clean_create h ht ht' (fun _ => hold) ha _, ⟨hold, fun _ => ⟨fun hag => ?_, ha.2.1, ?_⟩⟩, rfl, rfl, rfl⟩
    · exact ha.2.2.1 (by rw [show a.i = g from hag]; exact h.toKept.toIsFile.valid)
    · exact Function.update_self _ _ _
  · trivial

/-- A new journal file is created, and it is empty. -/
theorem objectCreate_renewal {a : Allocation} {C : Journaling → Prop} (h : s.Clean g k)
    (hold : s.journal.oldi = g) (hrepli : s.journal.repli = 0) (htype : s.journal.flags &&& otMask = otFile) :
    (s.objectCreate a true).Meets (fun s' => s'.Clean g k ∧ s'.Renewal g s'.journal ∧
      s'.journal.state = s.journal.state ∧ s'.journal.i = a.i ∧ s'.journalSize = s.journalSize) C := by
  unfold objectCreate
  split
  · rename_i ha
    obtain ⟨t, hreclaimed, ht, ht'⟩ := reclaimed_objects (s := s) a
    simp only [hreclaimed]
    refine ⟨clean_create h ht ht' (fun hfalse => absurd hfalse (by decide)) ha _, ⟨hold, hrepli, ha.1, ha.2.1,
      fun hvalid => ?_, htype, rfl, Function.update_self _ _ _, fun j hj hlocation => ?_, fun pos => ?_⟩, rfl, rfl, rfl⟩
    · exact ha.2.2.1 (by rw [← ht a.i hvalid]; exact hvalid)
    · have heq := ht j hj
      change (t j).isObjectValid at hj
      change (t j).location = a.location at hlocation
      rw [heq] at hj hlocation
      exact absurd (ha.2.2.2 j (h.others j hj).1 hj hlocation).1 (by decide)
    · change Function.update s.entries a.location (fun _ => erasedEntry) a.location pos = erasedEntry
      rw [Function.update_self]
  · trivial

private theorem begun_recoverable (h : s.At g k) (hfits : entryPos k + entrySize ≤ s.dataEnd) (hbegun : s.Begun g k)
    (hpending : s.Pending g s.journal) : s.Recoverable := by
  rcases hbegun with ⟨-, herased⟩ | ⟨hready, hentry⟩
  · exact clean_recoverable h.toKept herased hfits
  · exact Doing.recoverable ⟨h, rfl, rfl, hfits, hentry, hready⟩ hpending

/-- The journalled operation is carried out when its entry is ready. -/
private theorem journalWrite_then {rest : Journaling → Journaled} {P : Journaling → Prop} {location pos : Nat}
    (h : s.At g k) (hlocation : location = (s.inodes g).location) (hpos : pos = entryPos k)
    (hfits : entryPos k + entrySize ≤ s.dataEnd) (hbegun : s.Begun g k) (hpending : s.Pending g s.journal)
    (hrest : ∀ s', s'.Doing g location s.journalSize k s'.journal → s'.Pending g s'.journal →
      s'.journal.oldi = s.journal.oldi → (rest s').Meets P (·.Recoverable)) :
    (do
      let s₁ ← s.test
      let s₂ ← s₁.journalWrite location pos
      let s₃ ← s₂.test
      rest s₃ : Journaled).Meets P (·.Recoverable) := by
  subst hlocation hpos
  refine (test_meets (begun_recoverable h hfits hbegun hpending)).bind ?_
  rintro s₁ ⟨p₁, rfl⟩
  refine (journalWrite_doing (s := { s with power := p₁ }) ⟨h.toKept, h.file, h.position⟩ hfits hbegun hpending).bind ?_
  rintro s₂ ⟨hdoing, hjournal, hready⟩
  refine (test_meets (hdoing.recoverable hready)).bind ?_
  rintro s₃ ⟨p₃, rfl⟩
  rw [← hjournal] at hdoing hready
  refine hrest _ (hdoing.setPower p₃) hready ?_
  change s₂.journal.oldi = _
  rw [hjournal]

/-- The end of an operation on the journal file itself. -/
private theorem journalEndWith_renewal {create : Journaling → Outcome Journaling (Int × Journaling)} {type : BitVec 8}
    {removed : List Nat} (h : s.At g k) (hfits : entryPos k + entrySize ≤ s.dataEnd) (hbegun : s.Begun g k)
    (hrenewal : s.Renewal g s.journal) :
    (s.journalEndWith create type removed).Meets (fun s' => s'.Mounted ∧ s'.journal.oldi ≠ s'.ijournal)
      (·.Recoverable) := by
  have hset : s.setType type = s := setType_eq fun _ => by
    rw [hrenewal.old]
    exact Nat.ne_of_gt h.pos
  have hfile : g ≠ 0 := Nat.ne_of_gt h.pos
  unfold journalEndWith
  simp only [hset, h.file, h.position, if_neg hfile]
  refine journalWrite_then h rfl rfl hfits hbegun (.inr hrenewal) fun s₃ hdoing hpending hold => ?_
  have hrenewal : s₃.Renewal g s₃.journal := hpending.resolve_left fun ho => ho.old (hold.trans hrenewal.old)
  have hplace : s₃.journal.location ≠ (s.inodes g).location := by
    rw [← hdoing.place]
    exact (hrenewal.elsewhere g hdoing.toKept.toIsFile.valid).symm
  have hnew : s₃.journal.i ≠ g := fun hig => hrenewal.unused (by rw [hig]; exact hdoing.toKept.toIsFile.valid)
  refine (journalCommit_renewal hdoing hrenewal rfl).bind fun s₄ h₄ => ?_
  refine (test_meets h₄.recoverable).bind ?_
  rintro s₅ ⟨p, rfl⟩
  have hdone : ∀ e, ({ s₄ with power := p }.setEntry (s.inodes g).location (entryPos k) e).Renewed g s₃.journal := by
    intro e
    have hne : (s.inodes g).location = (s₄.inodes s₃.journal.i).location → False := fun heq =>
      hplace (h₄.location.symm.trans heq.symm)
    exact ⟨kept_setEntry (s := { s₄ with power := p }) h₄.kept fun heq => absurd heq hne,
      (entry_setEntry_of_ne (s := { s₄ with power := p }) fun heq => absurd heq hne).trans h₄.erased, h₄.location,
      h₄.file, h₄.journal⟩
  refine (test_meets (hdone _).recoverable).bind ?_
  rintro s₆ ⟨p', rfl⟩
  have h₅ := hdone { s₄.entries (s.inodes g).location (entryPos k) with state := journalIsDone }
  generalize ({ s₄ with power := p } : Journaling).setEntry (s.inodes g).location (entryPos k) _ = s₅ at h₅ ⊢
  have hcommitted : s₅.journal.oldi = s₅.ijournal := by rw [h₅.journal, h₅.file, hrenewal.old]
  rw [if_neg fun hnear => hnear.2 hcommitted]
  change Outcome.Meets (if s₅.journal.oldi = s₅.ijournal then _ else _) _ _
  rw [if_pos hcommitted]
  refine ⟨⟨s₃.journal.i, 0, ⟨⟨h₅.kept, ?_, rfl⟩, h₅.erased⟩, ?_⟩, ?_⟩
  · change s₅.journal.i = _
    rw [h₅.journal]
  · have := h₅.kept.least
    simp only [entryPos, entrySize, journalPosInitial, JournalFlash.dataEnd, journalNameSize]
    omega
  · change s₅.journal.oldi ≠ s₅.journal.i
    rw [h₅.journal, hrenewal.old]
    exact Ne.symm hnew

theorem journalEnd_renewal {creates : List (Option Allocation)} {type : BitVec 8} {removed : List Nat}
    (h : s.At g k) (hfits : entryPos k + entrySize ≤ s.dataEnd) (hbegun : s.Begun g k)
    (hrenewal : s.Renewal g s.journal) :
    (journalEnd creates type removed s).Meets (fun s' => s'.Mounted ∧ s'.journal.oldi ≠ s'.ijournal)
      (·.Recoverable) := by
  cases creates with
  | nil => exact journalEndWith_renewal h hfits hbegun hrenewal
  | cons alloc creates => exact journalEndWith_renewal h hfits hbegun hrenewal

private theorem type_readonly (flags : BitVec 8) : flags &&& ~~~ofReadonly &&& otMask = flags &&& otMask := by
  rw [BitVec.and_assoc]
  rfl

/-- The journal file is replaced. -/
theorem journalCreate_mounted {creates : List (Option Allocation)} {a : Allocation} (h : s.Clean g k)
    (hfits : entryPos k + entrySize ≤ s.dataEnd) :
    (s.journalCreate (journalEnd creates 0 []) (some a) g).Meets
      (fun x => 0 < x.1 ∧ x.2.Mounted ∧ x.2.journal.oldi ≠ x.2.ijournal) (·.Recoverable) := by
  have hg : g ≠ 0 := Nat.ne_of_gt h.pos
  obtain ⟨e', hbegin, hold, hempty, hrepli, hflags⟩ := journalBegin_spec (s := s) g
  unfold journalCreate
  rw [if_neg (by have := h.least; omega), if_neg h.free, hbegin]
  dsimp only
  have hclean : ({ s with journal := e' } : Journaling).Clean g k := ⟨⟨h.toKept, h.file, h.position⟩, h.erased⟩
  refine (objectCreate_renewal hclean hold hrepli ?_).bind ?_
  · change e'.flags &&& otMask = otFile
    rw [hflags hg]
    exact h.type
  · rintro s' ⟨hcreated, hrenewal, hstate, hi, hsize⟩
    rw [if_pos hg]
    have hrenewal' : s'.Renewal g { s'.journal with flags := s'.journal.flags &&& ~~~ofReadonly } :=
      ⟨hrenewal.old, hrenewal.repli, hrenewal.pos, hrenewal.bound, hrenewal.unused,
        (type_readonly _).trans hrenewal.type, hrenewal.size, hrenewal.name, hrenewal.elsewhere, hrenewal.empty⟩
    refine (journalEnd_renewal
      (s := { s' with journal := { s'.journal with flags := s'.journal.flags &&& ~~~ofReadonly } })
      ⟨hcreated.toKept, hcreated.file, hcreated.position⟩ ?_ (.inl ⟨hstate.trans hempty, hcreated.erased⟩)
      hrenewal').bind ?_
    · change entryPos k + entrySize ≤ journalNameSize + s'.journalSize
      rw [hsize]
      exact hfits
    · rintro t ⟨hmounted, hne⟩
      refine ⟨?_, hmounted, hne⟩
      change 0 < (a.i : Int)
      rw [← hi]
      exact Int.natCast_pos.2 hrenewal.pos

private theorem setType_spec (type : BitVec 8) : ∃ e' : JournalEntry, s.setType type = { s with journal := e' } ∧
    e'.oldi = s.journal.oldi ∧ e'.i = s.journal.i ∧ e'.location = s.journal.location ∧
    e'.state = s.journal.state ∧ (type = 0 → e' = s.journal) := by
  unfold setType
  split
  · rename_i h
    exact ⟨_, rfl, rfl, rfl, rfl, rfl, fun htype => absurd htype h.1⟩
  · exact ⟨_, rfl, rfl, rfl, rfl, rfl, fun _ => rfl⟩

private theorem Doing.done {pos : Nat} (h : s.Doing g place length k e) (e' : JournalEntry) (hpos : pos = entryPos k)
    (hdone : e'.state = journalIsDone) :
    (s.setEntry place pos e').Kept g (k + 1) ∧ (s.setEntry place pos e').entry g (k + 1) = erasedEntry := by
  have hplace := h.place
  subst hpos
  subst hplace
  have hkept : (s.setEntry (s.inodes g).location (entryPos k) e').Kept g k := kept_setEntry h.toKept fun _ => rfl
  refine ⟨kept_advance hkept ?_, hkept.after (k + 1) (Nat.lt_succ_self k)⟩
  rw [entry_setEntry]
  exact hdone

private theorem not_nearFull (h : s.At g k) (hnear : ¬s.nearFull) : entryPos k + 2 * entrySize ≤ s.dataEnd := by
  have hleast := h.least
  have hrange := h.range
  unfold nearFull at hnear
  rw [uint32_of_range (by unfold ffsJournalMargin journalEntrySize; omega)
    (by unfold ffsJournalMargin journalEntrySize; omega), h.position] at hnear
  unfold ffsJournalMargin journalEntrySize at hnear
  simp only [entryPos, entrySize, journalPosInitial, JournalFlash.dataEnd, journalNameSize] at hnear ⊢
  omega

/-- The journal file is replaced when it is nearly full. -/
private theorem renewed_mounted {a : Allocation} {creates : List (Option Allocation)} (h : s.Clean g k)
    (hfits : entryPos k + entrySize ≤ s.dataEnd) (hold : s.journal.oldi ≠ g) :
    (do
      let s' ←
        (if s.nearFull ∧ s.journal.oldi ≠ s.ijournal then do
          let (_, s') ← s.journalCreate (journalEnd creates 0 []) (some a) s.ijournal
          pure s'
        else pure s : Journaled)
      if s'.journal.oldi = s'.ijournal then
        pure { s' with journalPos := journalPosInitial, ijournal := s'.journal.i }
      else pure s' : Journaled).Meets (fun s' => s'.Mounted ∧ s'.journal.oldi ≠ s'.ijournal) (·.Recoverable) := by
  rw [h.file]
  refine Outcome.Meets.bind (P := fun s' : Journaling => s'.Mounted ∧ s'.journal.oldi ≠ s'.ijournal) ?_ ?_
  · split
    · refine (journalCreate_mounted h hfits).bind ?_
      rintro ⟨r, t⟩ ⟨-, hmounted⟩
      exact hmounted
    · rename_i hnear
      refine ⟨⟨g, k, h, not_nearFull h.toAt fun hfull => hnear ⟨hfull, hold⟩⟩, ?_⟩
      rw [h.file]
      exact hold
  · rintro s' ⟨hmounted, hne⟩
    rw [if_neg hne]
    exact ⟨hmounted, hne⟩

/-- The end of an operation on another object, when a new journal file gets its space. -/
theorem journalEnd_ordinary {a : Allocation} {creates : List (Option Allocation)} {type : BitVec 8}
    {removed : List Nat} (h : s.At g k) (hroom : entryPos k + 2 * entrySize ≤ s.dataEnd) (hbegun : s.Begun g k)
    (htype : s.journal.state = journalIsReady → type = 0) (hordinary : s.Ordinary g s.journal) :
    (journalEnd (some a :: creates) type removed s).Meets (fun s' => s'.Mounted ∧ s'.journal.oldi ≠ s'.ijournal)
      (·.Recoverable) := by
  obtain ⟨e', hset, hold, hi, hlocation, hstate, heq⟩ := setType_spec (s := s) type
  have hfile : g ≠ 0 := Nat.ne_of_gt h.pos
  unfold journalEnd journalEndWith
  simp only [hset]
  rw [if_neg (by rw [h.file]; exact hfile)]
  have hbegun' : ({ s with journal := e' } : Journaling).Begun g k := by
    rcases hbegun with ⟨hempty, herased⟩ | ⟨hready, hentry⟩
    · exact .inl ⟨hstate.trans hempty, herased⟩
    · exact .inr ⟨hstate.trans hready, hentry.trans (heq (htype hready)).symm⟩
  have hordinary' : ({ s with journal := e' } : Journaling).Ordinary g e' := by
    refine ⟨by rw [hold]; exact hordinary.old, ?_⟩
    rw [hi, hlocation]
    exact hordinary.new
  refine journalWrite_then (s := { s with journal := e' }) ⟨h.toKept, h.file, h.position⟩ (by rw [h.file]) h.position
    (Nat.le_trans (Nat.add_le_add_left (by decide) _) hroom) hbegun' (.inl hordinary')
    fun s₃ hdoing hpending hold₃ => ?_
  have hordinary₃ : s₃.Ordinary g s₃.journal :=
    hpending.resolve_right fun hr => hordinary'.old (hold₃.symm.trans hr.old)
  refine (journalCommit_ordinary hdoing hordinary₃ rfl).bind ?_
  rintro s₄ ⟨hdoing₄, hordinary₄, hold₄⟩
  refine (test_meets (hdoing₄.recoverable (.inl hordinary₄))).bind ?_
  rintro s₅ ⟨p, rfl⟩
  obtain ⟨hkept, herased⟩ := (hdoing₄.setPower p).done
    { s₄.entries (s.inodes s.ijournal).location s.journalPos with state := journalIsDone } h.position rfl
  have hnext : entryPos (k + 1) + entrySize ≤ journalNameSize + s₄.journalSize := by
    rw [entryPos_succ, hdoing₄.length]
    exact (Nat.add_assoc _ _ _).trans_le hroom
  have hposition : s₄.journalPos + entrySize = entryPos (k + 1) := by rw [hdoing₄.position, entryPos_succ]
  refine (test_meets (clean_recoverable hkept herased hnext)).bind ?_
  rintro s₆ ⟨p', rfl⟩
  have hclean : ({ ({ s₄ with power := p } : Journaling).setEntry (s.inodes s.ijournal).location s.journalPos
      { s₄.entries (s.inodes s.ijournal).location s.journalPos with state := journalIsDone } with
      power := p', journalPos := s₄.journalPos + entrySize } : Journaling).Clean g (k + 1) :=
    ⟨⟨hkept, hdoing₄.file, hposition⟩, herased⟩
  exact renewed_mounted hclean hnext hold₄

end

end Journaling

end Citrine.Ffs
