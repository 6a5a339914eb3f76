import Citrine.Ffs.JournalFile

/-!
# The journal file over runs

The journal file contains its entries over all runs of operations, removals and restarts in which a new journal file
gets its space, no other object has the name of the journal file, and no restart finds the margin used up
(`journal_contained`).  An operation whose journal file does not get its space loses it (`newFile_lost`).
-/

namespace Citrine.Ffs

/-! ### The condition on the steps -/

/-- The first journal file that is created gets its space. -/
def created : List (Option Allocation) → Bool
  | some _ :: _ => true
  | _ => false

/-- How many entries have to fit from the first one on that is not done: the entry itself, one for the replacement of
the journal file and, when it is passed over, one in its place. -/
def needed (g : Nat) (e : JournalEntry) : Nat :=
  if e.state = journalIsEmpty then 2 else if e.state = journalIsReady then if e.oldi = g then 1 else 2 else 3

/-- There is room behind the first entry of the journal file that is not done. -/
def roomLeft (s : Journaling) : Bool :=
  let g := s.findJournal
  match (List.range s.journalSize).find? fun k => decide ((s.entry g k).state ≠ journalIsDone) with
  | none => true
  | some k => decide (entryPos k + needed g (s.entry g k) * entrySize ≤ s.dataEnd)

/-- New journal files get their space, no other object has their name, and a restart finds room. -/
def contains (x : Journaling × Bool) : JournalEvent → Bool
  | .update _ u => !u.isJournal && created u.creates && u.relocations.all fun r => created r.creates
  | .remove _ => true
  | .restart _ r => created r.creates && created r.recreates && roomLeft x.1

/-! ### Operations -/

namespace Journaling

section
variable {s : Journaling} {g k : Nat}

private theorem created_cons {creates : List (Option Allocation)} (h : created creates) :
    ∃ a rest, creates = some a :: rest := by
  match creates, h with
  | some a :: rest, _ => exact ⟨a, rest, rfl⟩

private theorem journalEnd_mounted {creates : List (Option Allocation)} {type : BitVec 8} {removed : List Nat}
    (h : s.Clean g k) (hroom : entryPos k + 2 * entrySize ≤ s.dataEnd) (hempty : s.journal.state = journalIsEmpty)
    (hpending : s.Pending g s.journal) (hcreated : created creates) :
    (journalEnd creates type removed s).Meets (fun s' => s'.Mounted) (·.Recoverable) := by
  obtain ⟨a, rest, rfl⟩ := created_cons hcreated
  rcases hpending with hordinary | hrenewal
  · refine (journalEnd_ordinary h.toAt hroom (.inl ⟨hempty, h.erased⟩) (fun hready => ?_) hordinary).mono
      (fun _ h => h.1) (fun _ h => h)
    rw [hempty] at hready
    exact absurd hready (by decide)
  · exact (journalEnd_renewal h.toAt (Nat.le_trans (Nat.add_le_add_left (by decide) _) hroom)
      (.inl ⟨hempty, h.erased⟩) hrenewal).mono (fun _ h => h.1) (fun _ h => h)

private theorem objectRelocate_mounted {o : JournalEntry} {r : Relocation} (h : s.Mounted)
    (hempty : o.state = journalIsEmpty) (hcreated : created r.creates) :
    (objectRelocate (s, o) r).Meets (fun x => x.1.Mounted ∧ x.2.state = journalIsEmpty) (·.Recoverable) := by
  obtain ⟨g, k, h, hroom⟩ := h
  unfold objectRelocate
  dsimp only
  split
  · trivial
  rename_i hvalid
  rw [Decidable.not_not] at hvalid
  obtain ⟨e', hbegin, hold, hstate, hrepli, hflags⟩ := journalBegin_spec (s := s) r.oldi
  rw [hbegin]
  have hclean : ({ s with journal := e' } : Journaling).Clean g k := ⟨⟨h.toKept, h.file, h.position⟩, h.erased⟩
  cases r.alloc with
  | none => exact ⟨⟨g, k, hclean, hroom⟩, hempty⟩
  | some a =>
    dsimp only
    refine Outcome.Meets.bind (P := fun s' : Journaling => s'.Clean g k ∧ s'.journalSize = s.journalSize ∧
      s'.journal.state = journalIsEmpty ∧ s'.Pending g s'.journal) ?_ ?_
    · by_cases hg : r.oldi = g
      · subst hg
        rw [show s.isJournal (s.inodes r.oldi).location = true from h.name]
        refine (objectCreate_renewal hclean hold hrepli ?_).mono ?_ (fun _ h => h)
        · change e'.flags &&& otMask = otFile
          rw [hflags (Nat.ne_of_gt h.pos)]
          exact h.type
        · rintro s' ⟨hcreated, hrenewal, hs, -, hsize⟩
          exact ⟨hcreated, hsize, hs.trans hstate, .inr hrenewal⟩
      · rw [(h.others r.oldi hvalid).2 hg]
        refine (objectCreate_ordinary hclean (by change e'.oldi ≠ g; rw [hold]; exact hg)).mono ?_ (fun _ h => h)
        rintro s' ⟨hcreated, hordinary, hs, -, hsize⟩
        exact ⟨hcreated, hsize, hs.trans hstate, .inl hordinary⟩
    · rintro s' ⟨hclean', hsize, hs, hpending⟩
      have hroom' : entryPos k + 2 * entrySize ≤ s'.dataEnd := by
        unfold JournalFlash.dataEnd at hroom ⊢
        rw [hsize]
        exact hroom
      refine (journalEnd_mounted hclean' hroom' hs hpending hcreated).bind ?_
      intro t ht
      refine ⟨ht, ?_⟩
      dsimp only
      split <;> split <;> exact hempty

private theorem update_mounted {u : Update} (h : s.Mounted) (hname : u.isJournal = false)
    (hcreated : created u.creates) (hrelocations : ∀ r ∈ u.relocations, created r.creates) :
    (update u s).Meets (fun s' => s'.Mounted) (·.Recoverable) := by
  obtain ⟨e', hbegin, -, hstate, -, -⟩ := journalBegin_spec (s := s) u.oldi
  unfold update
  rw [hbegin]
  refine Outcome.Meets.bind
    (P := fun x : Journaling × JournalEntry => x.1.Mounted ∧ x.2.state = journalIsEmpty) ?_ ?_
  · refine Outcome.Meets.foldlM u.relocations ?_ ⟨?_, hstate⟩
    · rintro ⟨s', o⟩ r hr ⟨hmounted, hempty⟩
      exact objectRelocate_mounted hmounted hempty (hrelocations r hr)
    · obtain ⟨g, k, h, hroom⟩ := h
      exact ⟨g, k, ⟨⟨h.toKept, h.file, h.position⟩, h.erased⟩, hroom⟩
  · rintro ⟨s', o⟩ ⟨⟨g, k, h, hroom⟩, hempty⟩
    dsimp only
    have hclean : ({ s' with journal := o } : Journaling).Clean g k := ⟨⟨h.toKept, h.file, h.position⟩, h.erased⟩
    split
    · trivial
    rename_i hne
    rw [h.file] at hne
    cases u.alloc with
    | none => exact ⟨g, k, hclean, hroom⟩
    | some a =>
      dsimp only
      rw [hname]
      refine (objectCreate_ordinary hclean hne).bind ?_
      rintro t ⟨hcreate, hordinary, ht, -, hsize⟩
      refine journalEnd_mounted hcreate ?_ (ht.trans hempty) (.inl hordinary) hcreated
      unfold JournalFlash.dataEnd at hroom ⊢
      rw [hsize]
      exact hroom

private theorem objectRemove_mounted {removed : List Nat} (h : s.Mounted) :
    (s.objectRemove removed).Meets (fun s' => s'.Mounted) (·.Recoverable) := by
  obtain ⟨g, k, h, hroom⟩ := h
  refine (objectRemove_keeps (g := g)
    (I := fun s' => s'.Clean g k ∧ entryPos k + 2 * entrySize ≤ s'.dataEnd)
    (fun s' i hi h' => ⟨⟨⟨kept_eraseInode h'.1.toKept hi, h'.1.file, h'.1.position⟩,
      (entry_setInode hi).trans h'.1.erased⟩, h'.2⟩)
    (fun s' e' h' => ⟨⟨⟨h'.1.toKept, h'.1.file, h'.1.position⟩, h'.1.erased⟩, h'.2⟩) h.file ⟨h, hroom⟩).mono
    (fun s' h' => ⟨g, k, h'.1⟩) (fun _ h => h)

/-! ### Restarts -/

private theorem foldl_last {p : Nat → Prop} [DecidablePred p] {n : Nat} (h : ∀ i, i < n → p i → i = g) (hg : p g) :
    (List.range n).foldl (fun found i => if p i then i else found) 0 = if g < n then g else 0 := by
  induction n with
  | zero => rfl
  | succ n ih =>
    rw [List.range_succ, List.foldl_append, ih fun i hi => h i (by omega), List.foldl_cons, List.foldl_nil]
    by_cases hn : p n
    · rw [if_pos hn, if_pos (by rw [h n (by omega) hn]; omega), h n (by omega) hn]
    · have hne : g ≠ n := fun hgn => hn (hgn ▸ hg)
      rw [if_neg hn]
      split
      · rw [if_pos (by omega)]
      · rw [if_neg (by omega)]

private theorem findJournal_eq (h : s.Kept g k) : s.findJournal = g := by
  unfold findJournal
  rw [foldl_last (g := g), if_pos h.bound]
  · rintro i hi ⟨-, hvalid, -, hname⟩
    by_contra hne
    rw [(h.others i hvalid).2 hne] at hname
    exact absurd hname (by decide)
  · refine ⟨Nat.ne_of_gt h.pos, h.toIsFile.valid, fun hsegment => ?_, h.name⟩
    exact absurd (Inode.isObject_unique h.type hsegment) (by decide)

private theorem firstUndone_eq {f : Nat → JournalEntry} {j : Nat} (fuel : Nat)
    (hdone : ∀ m, m < k → (f (entryPos m)).state = journalIsDone) (hk : (f (entryPos k)).state ≠ journalIsDone) (hj : j ≤ k) :
    firstUndone f fuel j = if k < j + fuel then some k else none := by
  induction fuel generalizing j with
  | zero => rw [if_neg (by omega)]; rfl
  | succ fuel ih =>
    change (if (f (entryPos j)).state = journalIsDone then firstUndone f fuel (j + 1) else some j) = _
    by_cases hjk : j = k
    · subst hjk
      rw [if_neg hk, if_pos (by omega)]
    · rw [if_pos (hdone j (by omega)), ih (by omega)]
      simp only [show j + 1 + fuel = j + (fuel + 1) by omega]

private theorem roomLeft_at (h : s.Kept g k) (hfits : entryPos k + entrySize ≤ s.dataEnd)
    (hundone : (s.entry g k).state ≠ journalIsDone) (hroom : roomLeft s) :
    entryPos k + needed g (s.entry g k) * entrySize ≤ s.dataEnd := by
  have hk : k < s.journalSize := by
    simp only [entryPos, entrySize, journalPosInitial, JournalFlash.dataEnd, journalNameSize] at hfits
    omega
  have hfind : ((List.range s.journalSize).find? fun k => decide ((s.entry g k).state ≠ journalIsDone)) = some k := by
    rw [List.find?_range_eq_some]
    refine ⟨decide_eq_true hundone, List.mem_range.2 hk, fun m hm => ?_⟩
    simp [h.before m hm]
  unfold roomLeft at hroom
  rw [findJournal_eq h] at hroom
  dsimp only at hroom
  rw [hfind] at hroom
  exact of_decide_eq_true hroom

/-- The first entry that is not done is left, done again or passed over. -/
private theorem journalResume_mounted {creates : List (Option Allocation)} {removed : List Nat} (h : s.At g k)
    (hfits : entryPos k + entrySize ≤ s.dataEnd)
    (hempty : (s.entry g k).state = journalIsEmpty → s.entry g k = erasedEntry)
    (hready : (s.entry g k).state = journalIsReady → s.Pending g (s.entry g k))
    (hcreated : created creates) (hroom : entryPos k + needed g (s.entry g k) * entrySize ≤ s.dataEnd) :
    (s.journalResume creates removed (s.inodes g).location).Meets (fun x => 0 ≤ x.1 ∧ x.2.Mounted)
      (·.Recoverable) := by
  have hentry : s.entries (s.inodes g).location s.journalPos = s.entry g k := by
    unfold JournalFlash.entry
    rw [h.position]
  unfold journalResume
  simp only [hentry]
  unfold needed at hroom
  split
  · rename_i he
    rw [if_pos he] at hroom
    exact ⟨Int.le_refl 0, g, k, ⟨h, hempty he⟩, hroom⟩
  · rename_i he
    rw [if_neg he] at hroom
    split
    · rename_i hr
      rw [if_pos hr] at hroom
      refine Outcome.Meets.bind (P := fun s' : Journaling => s'.Mounted) ?_ fun s' h' => ⟨Int.zero_le_ofNat 1, h'⟩
      have hat : ({ s with journal := s.entry g k } : Journaling).At g k := ⟨h.toKept, h.file, h.position⟩
      rcases hready hr with hordinary | hrenewal
      · rw [if_neg hordinary.old] at hroom
        obtain ⟨a, rest, rfl⟩ := created_cons hcreated
        exact (journalEnd_ordinary hat hroom (.inr ⟨hr, rfl⟩) (fun _ => rfl) hordinary).mono (fun _ h => h.1)
          (fun _ h => h)
      · exact (journalEnd_renewal hat hfits (.inr ⟨hr, rfl⟩) hrenewal).mono (fun _ h => h.1) (fun _ h => h)
    · rename_i hr
      rw [if_neg hr] at hroom
      have hposition : s.journalPos + entrySize = entryPos (k + 1) := by rw [h.position, entryPos_succ]
      have hdone : (s.setEntry (s.inodes g).location s.journalPos { s.entry g k with state := journalIsDone }).entry g k =
          { s.entry g k with state := journalIsDone } := by
        rw [h.position]
        exact entry_setEntry _
      have hkept := kept_advance
        (kept_setEntry (e := { s.entry g k with state := journalIsDone }) h.toKept fun _ => h.position)
        (congrArg JournalEntry.state hdone)
      refine ⟨Int.le_refl 0, g, k + 1, ⟨⟨hkept, h.file, hposition⟩, ?_⟩, ?_⟩
      · refine (entry_setEntry_of_ne fun _ => ?_).trans (h.after (k + 1) (Nat.lt_succ_self k))
        rw [h.position]
        exact entryPos_ne (Nat.ne_of_lt (Nat.lt_succ_self k))
      · rw [entryPos_succ]
        change entryPos k + entrySize + 2 * entrySize ≤ s.dataEnd
        omega

/-- A journal file of another size is replaced. -/
private theorem journalResize_mounted {recreates : List (Option Allocation)} {i : Nat} {r : Int} (h : s.Mounted)
    (hr : 0 ≤ r) (hcreated : created recreates) :
    (journalResize recreates i r s).Meets (fun x => 0 ≤ x.1 ∧ x.2.Mounted) (·.Recoverable) := by
  obtain ⟨g, k, h, hroom⟩ := h
  obtain ⟨a, rest, rfl⟩ := created_cons hcreated
  unfold journalResize
  split
  · dsimp only
    rw [h.file]
    refine (journalCreate_mounted h (Nat.le_trans (Nat.add_le_add_left (by decide) _) hroom)).bind ?_
    rintro ⟨r', t⟩ ⟨hr', hmounted, -⟩
    dsimp only
    rw [if_neg (Int.not_le.2 hr')]
    exact ⟨Int.le_of_lt hr', hmounted⟩
  · exact ⟨hr, g, k, h, hroom⟩

/-- After a restart the file system runs, or power has been lost again. -/
private theorem journalInit_mounted {r : Restart} (h : s.Recoverable) (hcreated : created r.creates)
    (hrecreated : created r.recreates) (hroom : roomLeft s) :
    (journalInit r s.findJournal { s with ijournal := s.findJournal }).Meets (fun x => 0 ≤ x.1 ∧ x.2.Mounted)
      (·.Recoverable) := by
  obtain ⟨g, k, h, hfits, hundone, hempty, hready⟩ := h
  have hg := findJournal_eq h
  have hfirst := firstUndone_eq r.fuel (fun m hm => h.before m hm) hundone (Nat.zero_le k)
  have hroom := roomLeft_at h hfits hundone hroom
  rw [hg]
  unfold journalInit
  refine Outcome.Meets.bind (P := fun x : Int × Journaling => x = ((g : Int), { s with ijournal := g })) ?_ ?_
  · rw [if_neg (Nat.ne_of_gt h.pos)]
    rfl
  rintro _ rfl
  dsimp only
  rw [if_neg (by have := h.pos; omega), hfirst]
  by_cases hfuel : k < 0 + r.fuel
  · rw [if_pos hfuel]
    have hat : ({ s with ijournal := (g : Int).toNat, journalPos := entryPos k } : Journaling).At g k := ⟨h, rfl, rfl⟩
    refine (journalResume_mounted hat hfits hempty hready hcreated hroom).bind ?_
    rintro ⟨e, t⟩ ⟨he, hmounted⟩
    exact journalResize_mounted hmounted he hrecreated
  · rw [if_neg hfuel]
    trivial

/-! ### A new file system -/

/-- The journal file of a new file system has got its space. -/
private structure Fresh (s : Journaling) : Prop where
  old : s.journal.oldi = 0
  pos : 0 < s.journal.i
  bound : s.journal.i < s.inodesMax
  size : s.journal.size = atomalign (journalNameSize + s.journalSize + 1)
  name : s.isJournal s.journal.location = true
  empty : ∀ pos, s.entries s.journal.location pos = erasedEntry
  free : s.blocksFreeMin ≠ 0
  others : ∀ j, (s.inodes j).isObjectValid → j < s.inodesMax ∧ s.isJournal (s.inodes j).location = false
  unwritten : s.written = []

private theorem objectCreate_fresh {a : Allocation} {C : Journaling → Prop} (hold : s.journal.oldi = 0)
    (hfree : s.blocksFreeMin ≠ 0) (hwritten : s.written = [])
    (hothers : ∀ j, (s.inodes j).isObjectValid → j < s.inodesMax ∧ s.isJournal (s.inodes j).location = false) :
    (s.objectCreate a true).Meets (fun s' => s'.Fresh ∧ s'.journal.i = a.i) C := by
  unfold objectCreate
  split
  · rename_i ha
    obtain ⟨t, hreclaimed, ht, ht'⟩ := reclaimed_objects (s := s) a
    simp only [hreclaimed]
    refine ⟨⟨hold, ha.1, ha.2.1, rfl, Function.update_self _ _ _, fun pos => ?_, hfree, fun j hj => ?_, hwritten⟩, rfl⟩
    · change Function.update s.entries a.location (fun _ => erasedEntry) a.location pos = erasedEntry
      rw [Function.update_self]
    · have heq := ht j hj
      change (t j).isObjectValid at hj
      rw [heq] at hj
      obtain ⟨hbound, hname⟩ := hothers j hj
      refine ⟨hbound, ?_⟩
      change Function.update s.isJournal a.location true (t j).location = false
      rw [heq, Function.update_of_ne fun hlocation => ?_]
      · exact hname
      · exact absurd (ha.2.2.2 j hbound hj hlocation).1 (by decide)
  · trivial

private theorem type_file (flags : BitVec 8) : (flags &&& ofMask ||| otFile) &&& otMask = otFile := by
  rw [BitVec.and_comm, BitVec.and_or_distrib_left, BitVec.and_comm, BitVec.and_assoc]
  simp [ofMask, otMask, otFile]

private theorem Fresh.commit {i : Nat} (h : s.Fresh) (hi : s.journal.i = i) :
    (s.journalCommit otFile []).Meets (fun s' => 64 ≤ s'.journalSize → s'.journalSize < 2 ^ 32 →
      s'.Kept i 0 ∧ s'.entry i 0 = erasedEntry) (fun _ => True) := by
  subst hi
  unfold journalCommit
  rw [if_pos (Nat.ne_of_gt h.pos)]
  have hset : s.setType otFile =
      { s with journal := { s.journal with flags := s.journal.flags &&& ofMask ||| otFile } } :=
    if_pos ⟨by decide, h.old⟩
  rw [hset]
  refine Outcome.Meets.bind (P := fun s' : Journaling => ∃ p, s' = { s with
    inodes := Function.update s.inodes s.journal.i
      { s.inodes s.journal.i with
        location := s.journal.location
        size := s.journal.size
        flags := s.journal.flags &&& ofMask ||| otFile }
    journal := { s.journal with flags := s.journal.flags &&& ofMask ||| otFile }
    power := p }) ?_ ?_
  · refine (test_meets trivial).bind ?_
    rintro s' ⟨p, rfl⟩
    refine ⟨p, ?_⟩
    simp [setInode]
  · rintro s' ⟨p, rfl⟩
    rw [if_neg (by rw [Decidable.not_not]; exact h.old)]
    intro hleast hrange
    set ip : Inode := { s.inodes s.journal.i with
        location := s.journal.location
        size := s.journal.size
        flags := s.journal.flags &&& ofMask ||| otFile } with hip
    have hnew : Function.update s.inodes s.journal.i ip s.journal.i = ip := Function.update_self _ _ _
    refine kept_first ⟨h.pos, h.bound, ?_, ?_, ?_⟩ hleast hrange h.free (fun j hj hji => ?_) (fun pos => ?_) ?_
    · change (Function.update s.inodes s.journal.i ip s.journal.i).isObject otFile
      rw [hnew]
      exact type_file _
    · change (Function.update s.inodes s.journal.i ip s.journal.i).size = _
      rw [hnew]
      exact h.size
    · change s.isJournal (Function.update s.inodes s.journal.i ip s.journal.i).location = true
      rw [hnew]
      exact h.name
    · change (Function.update s.inodes s.journal.i ip j).isObjectValid at hj
      change j < s.inodesMax ∧ s.isJournal (Function.update s.inodes s.journal.i ip j).location = false
      rw [Function.update_of_ne hji] at hj ⊢
      exact h.others j hj
    · change s.entries (Function.update s.inodes s.journal.i ip s.journal.i).location pos = erasedEntry
      rw [hnew]
      exact h.empty pos
    · intro w hw
      change w ∈ s.written at hw
      rw [h.unwritten] at hw
      cases hw

/-- The journal file of a new file system. -/
private theorem journalCreate_fresh {a : Allocation} (hwritten : s.written = [])
    (hothers : ∀ j, (s.inodes j).isObjectValid → j < s.inodesMax ∧ s.isJournal (s.inodes j).location = false) :
    (s.journalCreate pure (some a) 0).Meets (fun x => 0 < x.1 → 64 ≤ x.2.journalSize → x.2.journalSize < 2 ^ 32 →
      x.2.Kept a.i 0 ∧ x.2.entry a.i 0 = erasedEntry) (fun _ => True) := by
  unfold journalCreate
  split
  · exact fun h => absurd h (Int.lt_irrefl 0)
  split
  · exact fun h => absurd h (Int.lt_irrefl 0)
  rename_i hfree
  obtain ⟨e', hbegin, hold, -⟩ := journalBegin_spec (s := s) 0
  rw [hbegin]
  refine (objectCreate_fresh (s := { s with journal := e' }) hold hfree hwritten hothers).bind ?_
  rintro s' ⟨hfresh, hi⟩
  rw [if_neg (by decide)]
  have hfresh' : ({ s' with journal := { s'.journal with flags := s'.journal.flags &&& ~~~ofReadonly } }
      : Journaling).Fresh := ⟨hfresh.old, hfresh.pos, hfresh.bound, hfresh.size, hfresh.name, hfresh.empty, hfresh.free,
        hfresh.others, hfresh.unwritten⟩
  refine (hfresh'.commit hi).bind ?_
  intro t ht _ hleast hrange
  exact ht hleast hrange

end

end Journaling

/-! ### Runs -/

section
variable {x y : Journaling × Bool} {journalSize : Nat}

/-- What has been written is inside the journal file, the search for the first entry that is not done ends inside it, and
while the file system runs the position is that of the first entry that has not been written. -/
structure Contained (x : Journaling × Bool) : Prop where
  written : ∀ w ∈ x.1.written, w.Inside x.1.journalSize
  scan : ∃ k, entryPos k + entrySize ≤ x.1.dataEnd ∧ ∀ fuel, k < fuel →
    Journaling.firstUndone (x.1.entries (x.1.inodes x.1.findJournal).location) fuel 0 = some k
  file : x.2 → x.1.IsFile x.1.ijournal ∧ x.1.findJournal = x.1.ijournal
  position : x.2 → ∃ k, x.1.journalPos = entryPos k ∧ entryPos k + entrySize ≤ x.1.dataEnd ∧
    (∀ m, m < k → (x.1.entry x.1.ijournal m).state = journalIsDone) ∧
    ∀ m, k ≤ m → x.1.entry x.1.ijournal m = erasedEntry

private def Safe (x : Journaling × Bool) : Prop := x.1.Recoverable ∧ (x.2 → x.1.Mounted)

private theorem safe_of_meets {o : Journaled} (h : o.Meets (fun s => s.Mounted) (·.Recoverable)) (hend : ended o = some x) :
    Safe x := by
  cases o with
  | impossible => cases hend
  | lost s =>
    cases hend
    exact ⟨h, fun hrunning => absurd hrunning Bool.false_ne_true⟩
  | done s =>
    cases hend
    exact ⟨Journaling.Mounted.recoverable h, fun _ => h⟩

private theorem mounted_power {s : Journaling} (h : s.Mounted) (power : Option Nat) :
    ({ s with power := power } : Journaling).Mounted := by
  obtain ⟨g, k, h, hroom⟩ := h
  exact ⟨g, k, ⟨⟨h.toKept, h.file, h.position⟩, h.erased⟩, hroom⟩

private theorem safe_step {event : JournalEvent} (h : Safe x) (hok : contains x event)
    (hstep : journalStep x event = some y) : Safe y := by
  cases event with
  | update power u =>
    simp only [contains, Bool.and_eq_true, Bool.not_eq_true', List.all_eq_true] at hok
    obtain ⟨⟨hname, hcreated⟩, hrelocations⟩ := hok
    change (if x.2 then ended (Journaling.update u { x.1 with power := power }) else none) = some y at hstep
    split at hstep
    · rename_i hrunning
      exact safe_of_meets (Journaling.update_mounted (mounted_power (h.2 hrunning) power) hname hcreated hrelocations) hstep
    · cases hstep
  | remove removed =>
    change (if x.2 then ended (x.1.objectRemove removed) else none) = some y at hstep
    split at hstep
    · rename_i hrunning
      exact safe_of_meets (Journaling.objectRemove_mounted (h.2 hrunning)) hstep
    · cases hstep
  | restart power r =>
    simp only [contains, Bool.and_eq_true] at hok
    obtain ⟨⟨hcreated, hrecreated⟩, hroom⟩ := hok
    have hinit := Journaling.journalInit_mounted (s := { x.1 with power := power }) h.1 hcreated hrecreated hroom
    change restarted (Journaling.journalInit r x.1.findJournal
      { x.1 with ijournal := x.1.findJournal, power := power }) = some y at hstep
    change (Journaling.journalInit r x.1.findJournal
      { x.1 with ijournal := x.1.findJournal, power := power }).Meets _ _ at hinit
    generalize Journaling.journalInit r x.1.findJournal { x.1 with ijournal := x.1.findJournal, power := power } = o
      at hinit hstep
    cases o with
    | impossible => cases hstep
    | lost s =>
      cases hstep
      exact ⟨hinit, fun hrunning => absurd hrunning Bool.false_ne_true⟩
    | done r =>
      cases hstep
      exact ⟨hinit.2.recoverable, fun _ => hinit.2⟩

private theorem safe_formatted (h : formatted x) (hleast : 64 ≤ x.1.journalSize) (hrange : x.1.journalSize < 2 ^ 32) :
    Safe x := by
  obtain ⟨s, s', a, hwritten, hothers, ha, hcreate, rfl⟩ := h
  refine ⟨?_, fun hrunning => absurd hrunning Bool.false_ne_true⟩
  have hfresh := Journaling.journalCreate_fresh (a := a) hwritten hothers
  rw [hcreate] at hfresh
  obtain ⟨hkept, herased⟩ := hfresh (Int.natCast_pos.2 ha) hleast hrange
  exact Journaling.first_recoverable (s := { s' with ijournal := a.i }) hkept herased

private theorem Safe.contained (h : Safe x) : Contained x := by
  obtain ⟨g, k, hkept, hfits, hundone, -⟩ := h.1
  refine ⟨hkept.inside, ⟨k, hfits, fun fuel hfuel => ?_⟩, fun hrunning => ?_, fun hrunning => ?_⟩
  · rw [Journaling.findJournal_eq hkept, Journaling.firstUndone_eq fuel (fun m hm => hkept.before m hm) hundone (Nat.zero_le k)]
    exact if_pos (by omega)
  · obtain ⟨g', k', h', -⟩ := h.2 hrunning
    rw [h'.file]
    exact ⟨h'.toKept.toIsFile, Journaling.findJournal_eq h'.toKept⟩
  · obtain ⟨g', k', h', hroom⟩ := h.2 hrunning
    refine ⟨k', h'.position, by omega, ?_⟩
    rw [h'.file]
    refine ⟨h'.before, fun m hm => ?_⟩
    by_cases hmk : m = k'
    · rw [hmk]
      exact h'.erased
    · exact h'.after m (by omega)

/-- The journal file contains its entries in all runs in which new journal files get their space, no other object has
the name of the journal file, and every restart finds room for the entries that it may need. -/
theorem journal_contained (hleast : 64 ≤ journalSize) (hrange : journalSize < 2 ^ 32)
    (h : (journalMachine journalSize).Reach contains x) : Contained x := by
  refine Safe.contained (h.invariant (I := Safe) ?_ ?_)
  · rintro y ⟨hy, hsize⟩
    exact safe_formatted hy (by rw [hsize]; exact hleast) (by rw [hsize]; exact hrange)
  · intro y e z hy hok hz
    exact safe_step hy hok hz

end

/-! ### A journal file that is not replaced -/

/-- A new file system with room for two entries before the margin. -/
def newFlash : Journaling where
  inodes _ := erasedInode
  entries _ _ := erasedEntry
  isJournal _ := false
  inodesMax := 8
  blocksFreeMin := 1
  journalSize := 96
  written := []
  ijournal := 0
  journalPos := 0
  journal := erasedEntry
  power := none

/-- The journal file is created as object 1. -/
def newFile : Journaling × Bool :=
  match newFlash.journalCreate pure (some ⟨1, 0x10, 0, none⟩) 0 with
  | .done (_, s) => ({ s with ijournal := 1 }, false)
  | _ => (newFlash, false)

/-- The file system is started and two files are created, with what a new journal file gets. -/
def twoFiles (alloc : Option Allocation) : List JournalEvent :=
  [.restart none ⟨1, none, [alloc], [alloc], []⟩,
    .update none ⟨0, [], some ⟨2, 0x20, 16, none⟩, false, otFile, 0, [], [alloc]⟩,
    .update none ⟨0, [], some ⟨3, 0x30, 16, none⟩, false, otFile, 0, [], [alloc]⟩]

private theorem newFile_init : (journalMachine 96).init newFile :=
  ⟨⟨newFlash, _, ⟨1, 0x10, 0, none⟩, rfl, fun j hj => absurd hj erased_invalid, by decide, rfl, rfl⟩, rfl⟩

/-- With space for a new journal file it becomes object 4. -/
theorem newFile_contained : ∃ x, (journalMachine 96).run contains newFile (twoFiles (some ⟨4, 0x40, 0, none⟩)) = some x ∧
    x.1.ijournal = 4 ∧ x.1.written.length = 3 ∧ Contained x := by
  have hrun : (((journalMachine 96).run contains newFile (twoFiles (some ⟨4, 0x40, 0, none⟩))).map
      fun x => (x.1.ijournal, x.1.written.length)) = some (4, 3) := by decide +kernel
  obtain ⟨x, hx, heq⟩ := Option.map_eq_some_iff.1 hrun
  refine ⟨x, hx, congrArg Prod.fst heq, congrArg Prod.snd heq, ?_⟩
  exact journal_contained (by decide) (by decide) ((Machine.Reach.init newFile_init).of_run hx)

/-- Without space for a new journal file there is none any more, and the old one is still valid. -/
theorem newFile_lost : ∃ x, (journalMachine 96).Reach (fun _ _ => true) x ∧ x.2 ∧ x.1.ijournal = 0 ∧
    (x.1.inodes 1).isObjectValid ∧ ¬Contained x := by
  have hrun : (((journalMachine 96).run (fun _ _ => true) newFile (twoFiles none)).map
      fun x => (x.2, x.1.ijournal, decide (x.1.inodes 1).isObjectValid)) = some (true, 0, true) := by decide +kernel
  obtain ⟨x, hx, heq⟩ := Option.map_eq_some_iff.1 hrun
  simp only [Prod.mk.injEq] at heq
  refine ⟨x, (Machine.Reach.init newFile_init).of_run hx, heq.1, heq.2.1, of_decide_eq_true heq.2.2, fun h => ?_⟩
  have hpos := (h.file heq.1).1.pos
  rw [heq.2.1] at hpos
  exact Nat.lt_irrefl 0 hpos

end Citrine.Ffs
