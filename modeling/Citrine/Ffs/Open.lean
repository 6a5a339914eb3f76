import Mathlib.Logic.Function.Basic
import Citrine.Ffs.Errors

/-!
# Opening a file

`ffs_open_b` looks for a free descriptor, finds or creates the file, and fills in the descriptor on the way.  Whether a
descriptor is free is seen from its options, whether an object is open from the objects that the descriptors name.  A
call that fails has to leave both as they were (`openB_fails_clean_iff`).  The steps in between may move objects, which
are then renamed in all descriptors.
-/

namespace Citrine.Ffs

/-! ### The descriptors -/

/-- `struct file_descriptor_s`; there is no buffer when it is NULL. -/
structure FileDescriptor where
  buf : Option Nat
  seghead : Int
  wch : Int
  fp : Int
  wfp : Int
  size : Int
  options : BitVec 8
  dirty : Int
  deriving DecidableEq, Repr

/-- The table `fs.fd`. -/
structure Fds where
  fdMax : Nat
  fd : Nat → FileDescriptor

/-- `FFS_O_CREATE` -/
def ffsOCreate : Nat := 0x01
/-- `FFS_O_APPEND` -/
def ffsOAppend : Nat := 0x02
/-- `FFS_O_EXCL` -/
def ffsOExcl : Nat := 0x04
/-- `FFS_O_TRUNC` -/
def ffsOTrunc : Nat := 0x08
/-- `FFS_O_RDONLY` -/
def ffsORdonly : Nat := 0x10
/-- `FFS_O_WRONLY` -/
def ffsOWronly : Nat := 0x20

/-- `FFS_FD_OFFSET` -/
def ffsFdOffset : Int := 49

/-- `is_open_option` -/
def isOpenOption {w : Nat} (options : BitVec w) (flags : Nat) : Bool :=
  options &&& BitVec.ofNat w flags == BitVec.ofNat w flags

/-- `get_fdi` -/
def Fds.getFdi (t : Fds) (i : Int) : Option Nat :=
  if 0 < i then (List.range t.fdMax).find? fun j => (t.fd j).seghead == i else none

/-- `is_fd_valid` -/
def Fds.isFdValid (t : Fds) (j : Nat) : Bool := decide (j < t.fdMax) && (t.fd j).options != 0

/-- The loop that looks for a free descriptor. -/
def Fds.firstFree (t : Fds) : Option Nat := (List.range t.fdMax).find? fun j => (t.fd j).options == 0

/-- A descriptor is changed. -/
def Fds.set (t : Fds) (j : Nat) (g : FileDescriptor → FileDescriptor) : Fds :=
  { t with fd := Function.update t.fd j (g (t.fd j)) }

/-- An object has been moved, and the descriptors name the new one. -/
def FileDescriptor.moved (d : FileDescriptor) (i result : Int) : FileDescriptor :=
  { d with
    seghead := if i = d.seghead then result else d.seghead
    wch := if i = d.wch then result else d.wch }

/-- What `data_block_reclaim` does with the descriptors for the objects that it moves. -/
def Fds.move (t : Fds) (moves : List (Int × Int)) : Fds :=
  { t with fd := fun j => moves.foldl (fun d m => d.moved m.1 m.2) (t.fd j) }

/-! ### `ffs_open_b` -/

/-- What a step returns, which objects it has moved, and the file system behind it. -/
structure Moved (σ : Type) where
  result : Int
  moves : List (Int × Int)
  rest : σ

/-- The steps of `ffs_open_b` outside of the table, for one path; the file system has the type `σ`. -/
structure OpenSteps (σ : Type) where
  initerror : σ → Int
  objectLookup : σ → Int
  isFilename : σ → Int
  /-- `journal_begin(0)` and `object_create(name, 0, 0, -dir)` -/
  create : σ → Moved σ
  /-- `journal_end(OT_FILE)` -/
  journalEndFile : σ → Moved σ
  isReadonly : σ → Int → Int
  isDir : σ → Int → Bool
  /-- `fs.i_backup = segment_next(i)`, `journal_begin(i)` and `object_create(name, 0, 0, -dir)` -/
  replace : σ → Int → Moved σ
  /-- `fs.link_child = 0` and `journal_end(0)` -/
  journalEnd : σ → Moved σ
  iBackup : σ → Int
  objectRemove : σ → Int → Moved σ
  segfileSeek : σ → Int → Int
  malloc : σ → Option Nat

/-- The end of a call: what it returns, the table, and all objects that have been moved. -/
structure Opened where
  result : Int
  fds : Fds
  moves : List (Int × Int)

section
variable {σ : Type} (steps : OpenSteps σ)

/-- The buffer is allocated, and the descriptor filled in. -/
def OpenSteps.finish (option : BitVec 16) (fdi : Nat) (i : Int) (t : Fds) (moves : List (Int × Int)) (w : σ) : Opened :=
  let save := fun t : Fds => t.set fdi fun d => { d with seghead := i, options := option.truncate 8 }
  if isOpenOption option ffsOWronly then
    match steps.malloc w with
    | none => ⟨effsMemory, t.set fdi fun d => { d with buf := none }, moves⟩
    | some buf => ⟨fdi + ffsFdOffset, save (t.set fdi fun d => { d with buf := some buf }), moves⟩
  else ⟨fdi + ffsFdOffset, save t, moves⟩

/-- The file does not exist. -/
def OpenSteps.createFile (option : BitVec 16) (fdi : Nat) (t : Fds) (w : σ) : Opened :=
  if isOpenOption option (ffsOCreate ||| ffsOWronly) then
    if steps.isFilename w < 0 then ⟨steps.isFilename w, t, []⟩
    else
      let c := steps.create w
      let t := t.move c.moves
      if c.result < 0 then ⟨c.result, t, c.moves⟩
      else
        let e := steps.journalEndFile c.rest
        let t := t.move e.moves
        let t := t.set fdi fun d => { d with seghead := c.result }
        steps.finish option fdi c.result t (c.moves ++ e.moves) e.rest
  else ⟨effsNotfound, t, []⟩

/-- The file is written from its beginning. -/
def OpenSteps.truncateFile (option : BitVec 16) (fdi : Nat) (i : Int) (t : Fds) (w : σ) : Opened :=
  let c := steps.replace w i
  let t := t.move c.moves
  if c.result < 0 then ⟨c.result, t, c.moves⟩
  else
    let e := steps.journalEnd c.rest
    let t := t.move e.moves
    let append := fun t : Fds =>
      if isOpenOption option ffsOAppend then t.set fdi fun d => { d with fp := d.size } else t
    if 0 < steps.iBackup e.rest then
      let r := steps.objectRemove e.rest (steps.iBackup e.rest)
      let t := t.move r.moves
      if r.result < 0 then ⟨r.result, t, c.moves ++ e.moves ++ r.moves⟩
      else steps.finish option fdi c.result (append t) (c.moves ++ e.moves ++ r.moves) r.rest
    else steps.finish option fdi c.result (append t) (c.moves ++ e.moves) e.rest

/-- The object exists. -/
def OpenSteps.openObject (option : BitVec 16) (fdi : Nat) (i : Int) (t : Fds) (w : σ) : Opened :=
  let rest := fun i : Int =>
    if steps.isDir w i then ⟨effsNotafile, t, []⟩
    else if isOpenOption option ffsOTrunc then steps.truncateFile option fdi i t w
    else
      let t := t.set fdi fun d => { d with size := steps.segfileSeek w i }
      let t := if isOpenOption option ffsOAppend then t.set fdi fun d => { d with fp := d.size } else t
      steps.finish option fdi i t [] w
  if isOpenOption option ffsOWronly then
    if isOpenOption option (ffsOCreate ||| ffsOExcl) then ⟨effsExists, t, []⟩
    else if steps.isReadonly w i < 0 then ⟨steps.isReadonly w i, t, []⟩
    else rest (steps.isReadonly w i)
  else rest i

/-- The options of a call do not go together. -/
def wrongOption (option : BitVec 16) : Bool :=
  !isOpenOption option ffsORdonly && !isOpenOption option ffsOWronly ||
    isOpenOption option ffsORdonly && !isOpenOption option ffsOWronly && option != BitVec.ofNat 16 ffsORdonly

/-- The object is open already, and one of the two writes. -/
def Fds.locked (t : Fds) (option : BitVec 16) (i : Int) : Bool :=
  match t.getFdi i with
  | none => false
  | some other => isOpenOption (t.fd other).options ffsOWronly || isOpenOption option ffsOWronly

/-- `ffs_open_b` -/
def OpenSteps.openB (t : Fds) (option : BitVec 16) (w : σ) : Opened :=
  if steps.initerror w ≠ 0 then ⟨steps.initerror w, t, []⟩
  else if wrongOption option then ⟨effsInvalid, t, []⟩
  else
    match t.firstFree with
    | none => ⟨effsNumfd, t, []⟩
    | some fdi =>
      let i := steps.objectLookup w
      if i < 0 ∧ i ≠ effsNotfound then ⟨i, t, []⟩
      else if i ≠ effsNotfound ∧ t.locked option i then ⟨effsLocked, t, []⟩
      else
        let t := t.set fdi fun d => { d with fp := 0, size := 0, wfp := 0, dirty := 0 }
        if i = effsNotfound then steps.createFile option fdi t w
        else steps.openObject option fdi i t w

end

/-! ### What a failing call leaves behind -/

/-- The tables do not differ in what the file system sees: the options and objects of all descriptors, and all of the
descriptors in use. -/
structure Fds.Same (t t' : Fds) : Prop where
  fdMax : t'.fdMax = t.fdMax
  seghead : ∀ j, (t'.fd j).seghead = (t.fd j).seghead
  options : ∀ j, (t'.fd j).options = (t.fd j).options
  used : ∀ j, (t.fd j).options ≠ 0 → t'.fd j = t.fd j

/-- A call that fails leaves the table as it was before, but for the objects that have been moved. -/
def FailsClean (t : Fds) (out : Opened) : Prop := out.result < 0 → (t.move out.moves).Same out.fds

/-- The call creates a file and then gets no buffer for it, and its object is not the one that the free descriptor has
named before. -/
def CreatedUnbuffered {σ : Type} (steps : OpenSteps σ) (t : Fds) (option : BitVec 16) (w : σ) : Prop :=
  steps.initerror w = 0 ∧ isOpenOption option (ffsOCreate ||| ffsOWronly) = true ∧
    steps.objectLookup w = effsNotfound ∧ 0 ≤ steps.isFilename w ∧ 0 ≤ (steps.create w).result ∧
    steps.malloc (steps.journalEndFile (steps.create w).rest).rest = none ∧
    ∃ fdi, t.firstFree = some fdi ∧
      ((t.move ((steps.create w).moves ++ (steps.journalEndFile (steps.create w).rest).moves)).fd fdi).seghead ≠
        (steps.create w).result

section
variable {σ : Type} {steps : OpenSteps σ} {t t' : Fds} {fdi : Nat} {g : FileDescriptor → FileDescriptor}
  {ms ns : List (Int × Int)} {option : BitVec 16} {w : σ} {i : Int}

theorem Fds.Same.refl (t : Fds) : t.Same t := ⟨rfl, fun _ => rfl, fun _ => rfl, fun _ _ => rfl⟩

theorem Fds.Same.trans {t'' : Fds} (h : t.Same t') (h' : t'.Same t'') : t.Same t'' := by
  refine ⟨h'.fdMax.trans h.fdMax, fun j => (h'.seghead j).trans (h.seghead j),
    fun j => (h'.options j).trans (h.options j), fun j hj => ?_⟩
  rw [h'.used j (by rw [h.options j]; exact hj), h.used j hj]

/-- Nothing is reported as open that has not been before, and nothing has been closed. -/
theorem Fds.Same.getFdi (h : t.Same t') (i : Int) : t'.getFdi i = t.getFdi i := by
  unfold Fds.getFdi
  simp only [h.fdMax, h.seghead]

theorem Fds.Same.isFdValid (h : t.Same t') (j : Nat) : t'.isFdValid j = t.isFdValid j := by
  unfold Fds.isFdValid
  rw [h.fdMax, h.options]

/-- The next call finds the same free descriptor. -/
theorem Fds.Same.firstFree (h : t.Same t') : t'.firstFree = t.firstFree := by
  unfold Fds.firstFree
  simp only [h.fdMax, h.options]

private theorem moves_fields (ms : List (Int × Int)) (d : FileDescriptor) :
    (ms.foldl (fun d m => d.moved m.1 m.2) d).options = d.options ∧
      ∀ d' : FileDescriptor, d'.seghead = d.seghead →
        (ms.foldl (fun d m => d.moved m.1 m.2) d').seghead = (ms.foldl (fun d m => d.moved m.1 m.2) d).seghead := by
  induction ms generalizing d with
  | nil => exact ⟨rfl, fun _ h => h⟩
  | cons m ms ih =>
    refine ⟨(ih (d.moved m.1 m.2)).1, fun d' h => (ih (d.moved m.1 m.2)).2 _ ?_⟩
    change (d'.moved m.1 m.2).seghead = (d.moved m.1 m.2).seghead
    simp only [FileDescriptor.moved, h]

theorem Fds.Same.move (h : t.Same t') (ms : List (Int × Int)) : (t.move ms).Same (t'.move ms) := by
  refine ⟨h.fdMax, fun j => (moves_fields ms _).2 _ (h.seghead j), fun j => ?_, fun j hj => ?_⟩
  · exact ((moves_fields ms _).1.trans (h.options j)).trans (moves_fields ms _).1.symm
  · have hused : (t.fd j).options ≠ 0 := by
      rw [← (moves_fields ms (t.fd j)).1]
      exact hj
    change ms.foldl _ (t'.fd j) = ms.foldl _ (t.fd j)
    rw [h.used j hused]

theorem Fds.move_append : t.move (ms ++ ns) = (t.move ms).move ns := by
  unfold Fds.move
  simp only [List.foldl_append]

theorem Fds.move_options (j : Nat) : ((t.move ms).fd j).options = (t.fd j).options := (moves_fields ms _).1

/-- A free descriptor may be changed, as long as it stays free and names the same object. -/
theorem Fds.same_set (hfree : (t.fd fdi).options = 0) (hseg : (g (t.fd fdi)).seghead = (t.fd fdi).seghead)
    (hopt : (g (t.fd fdi)).options = (t.fd fdi).options) : t.Same (t.set fdi g) := by
  refine ⟨rfl, fun j => ?_, fun j => ?_, fun j hj => ?_⟩
  · by_cases h : j = fdi
    · subst h
      simp [Fds.set, hseg]
    · simp [Fds.set, Function.update_of_ne h]
  · by_cases h : j = fdi
    · subst h
      simp [Fds.set, hopt]
    · simp [Fds.set, Function.update_of_ne h]
  · have h : j ≠ fdi := by
      rintro rfl
      exact hj hfree
    simp [Fds.set, Function.update_of_ne h]

/-- A call that has not failed yet: the descriptor is still free, and the tables are the same but for what has been
moved. -/
private structure Ready (t : Fds) (fdi : Nat) (ms : List (Int × Int)) (t' : Fds) : Prop where
  same : (t.move ms).Same t'
  free : (t'.fd fdi).options = 0

private theorem Ready.set (h : Ready t fdi ms t') (hseg : (g (t'.fd fdi)).seghead = (t'.fd fdi).seghead)
    (hopt : (g (t'.fd fdi)).options = (t'.fd fdi).options) : Ready t fdi ms (t'.set fdi g) := by
  refine ⟨h.same.trans (Fds.same_set h.free hseg hopt), ?_⟩
  simp [Fds.set, hopt, h.free]

private theorem Ready.moved (h : Ready t fdi ms t') (ns : List (Int × Int)) : Ready t fdi (ms ++ ns) (t'.move ns) := by
  refine ⟨?_, ?_⟩
  · rw [Fds.move_append]
    exact h.same.move ns
  · rw [Fds.move_options]
    exact h.free

private theorem Ready.clean (h : Ready t fdi ms t') (result : Int) : FailsClean t ⟨result, t', ms⟩ := fun _ => h.same

private theorem opened_clean (t : Fds) (t' : Fds) (ms : List (Int × Int)) :
    FailsClean t ⟨fdi + ffsFdOffset, t', ms⟩ := by
  intro h
  have hpos : (0 : Int) ≤ fdi + ffsFdOffset := by
    unfold ffsFdOffset
    omega
  exact absurd h (Int.not_lt.2 hpos)

private theorem finish_clean (h : Ready t fdi ms t') : FailsClean t (steps.finish option fdi i t' ms w) := by
  unfold OpenSteps.finish
  dsimp only
  split
  · split
    · exact (h.set (by rfl) (by rfl)).clean _
    · exact opened_clean t _ ms
  · exact opened_clean t _ ms

private theorem truncateFile_clean (h : Ready t fdi [] t') :
    FailsClean t (steps.truncateFile option fdi i t' w) := by
  have happend : ∀ {ms : List (Int × Int)} {t'' : Fds}, Ready t fdi ms t'' →
      Ready t fdi ms (if isOpenOption option ffsOAppend then t''.set fdi fun d => { d with fp := d.size } else t'') := by
    intro ms t'' h
    split
    · exact h.set rfl rfl
    · exact h
  have hc := h.moved (steps.replace w i).moves
  have he := hc.moved (steps.journalEnd (steps.replace w i).rest).moves
  unfold OpenSteps.truncateFile
  dsimp only
  split
  · exact hc.clean _
  · split
    · have hr := he.moved (steps.objectRemove (steps.journalEnd (steps.replace w i).rest).rest
        (steps.iBackup (steps.journalEnd (steps.replace w i).rest).rest)).moves
      split
      · exact hr.clean _
      · exact finish_clean (happend hr)
    · exact finish_clean (happend he)

private theorem openObject_clean (h : Ready t fdi [] t') :
    FailsClean t (steps.openObject option fdi i t' w) := by
  have hrest : ∀ i : Int, FailsClean t (if steps.isDir w i then ⟨effsNotafile, t', []⟩
      else if isOpenOption option ffsOTrunc then steps.truncateFile option fdi i t' w
      else
        let t := t'.set fdi fun d => { d with size := steps.segfileSeek w i }
        let t := if isOpenOption option ffsOAppend then t.set fdi fun d => { d with fp := d.size } else t
        steps.finish option fdi i t [] w) := by
    intro i
    split
    · exact h.clean _
    · split
      · exact truncateFile_clean h
      · have hsize := h.set (g := fun d => { d with size := steps.segfileSeek w i }) rfl rfl
        dsimp only
        split
        · exact finish_clean (hsize.set (by rfl) (by rfl))
        · exact finish_clean hsize
  unfold OpenSteps.openObject
  dsimp only
  split
  · split
    · exact h.clean _
    · split
      · exact h.clean _
      · exact hrest _
  · exact hrest i


/-- A file is created in the descriptor: the call leaves a trace if and only if there is no buffer. -/
private theorem createFile_clean_iff (h : Ready t fdi [] t') (hopt : isOpenOption option (ffsOCreate ||| ffsOWronly) = true)
    (hwrite : isOpenOption option ffsOWronly = true) (hname : 0 ≤ steps.isFilename w)
    (hcreate : 0 ≤ (steps.create w).result) :
    FailsClean t (steps.createFile option fdi t' w) ↔
      ¬(steps.malloc (steps.journalEndFile (steps.create w).rest).rest = none ∧
        ((t.move ((steps.create w).moves ++ (steps.journalEndFile (steps.create w).rest).moves)).fd fdi).seghead ≠
          (steps.create w).result) := by
  have he := (h.moved (steps.create w).moves).moved (steps.journalEndFile (steps.create w).rest).moves
  rw [List.nil_append] at he
  unfold OpenSteps.createFile
  rw [if_pos hopt, if_neg (Int.not_lt.2 hname)]
  dsimp only
  rw [if_neg (Int.not_lt.2 hcreate)]
  unfold OpenSteps.finish
  dsimp only
  rw [if_pos hwrite]
  cases hbuf : steps.malloc (steps.journalEndFile (steps.create w).rest).rest with
  | some buf =>
    refine iff_of_true (opened_clean t _ _) fun h => ?_
    cases h.1
  | none =>
    simp only [true_and, not_not]
    have hsame := he.same.seghead fdi
    constructor
    · intro hclean
      have hneg : effsMemory < 0 := by decide
      have hseg := (hclean hneg).seghead fdi
      simp only [Fds.set, Function.update_self] at hseg
      exact hseg.symm
    · intro hseg _
      have hset := he.set (g := fun d => { d with seghead := (steps.create w).result })
        (by rw [hsame, hseg]) rfl
      exact (hset.set (g := fun d => { d with buf := none }) rfl rfl).same

private theorem isOpenOption_write (h : isOpenOption option (ffsOCreate ||| ffsOWronly) = true) :
    isOpenOption option ffsOWronly = true := by
  unfold isOpenOption at h ⊢
  rw [beq_iff_eq] at h ⊢
  have hmask : BitVec.ofNat 16 ffsOWronly = BitVec.ofNat 16 (ffsOCreate ||| ffsOWronly) &&& BitVec.ofNat 16 ffsOWronly := by
    decide
  rw [hmask, ← BitVec.and_assoc, h]

private theorem firstFree_free (h : t.firstFree = some fdi) : (t.fd fdi).options = 0 := by
  have := List.find?_some h
  rwa [beq_iff_eq] at this

/-- A call of `ffs_open_b` that fails leaves the descriptors as they were, unless it has created the file and then gets
no buffer. -/
theorem openB_fails_clean_iff (steps : OpenSteps σ) (t : Fds) (option : BitVec 16) (w : σ) :
    FailsClean t (steps.openB t option w) ↔ ¬CreatedUnbuffered steps t option w := by
  have hclean : ∀ result, FailsClean t ⟨result, t, []⟩ := fun _ _ => Fds.Same.refl t
  unfold OpenSteps.openB CreatedUnbuffered
  by_cases hinit : steps.initerror w ≠ 0
  · rw [if_pos hinit]
    exact iff_of_true (hclean _) fun h => hinit h.1
  rw [if_neg hinit]
  by_cases hwrong : wrongOption option = true
  · rw [if_pos hwrong]
    refine iff_of_true (hclean _) fun h => ?_
    unfold wrongOption at hwrong
    rw [isOpenOption_write h.2.1] at hwrong
    simp at hwrong
  rw [if_neg hwrong]
  cases hfirst : t.firstFree with
  | none =>
    refine iff_of_true (hclean _) fun h => ?_
    obtain ⟨fdi, hfdi, -⟩ := h.2.2.2.2.2.2
    cases hfdi
  | some fdi =>
    dsimp only
    by_cases herr : steps.objectLookup w < 0 ∧ steps.objectLookup w ≠ effsNotfound
    · rw [if_pos herr]
      exact iff_of_true (hclean _) fun h => herr.2 h.2.2.1
    rw [if_neg herr]
    by_cases hlocked : steps.objectLookup w ≠ effsNotfound ∧ t.locked option (steps.objectLookup w)
    · rw [if_pos hlocked]
      exact iff_of_true (hclean _) fun h => hlocked.1 h.2.2.1
    rw [if_neg hlocked]
    have hready : Ready t fdi [] (t.set fdi fun d => { d with fp := 0, size := 0, wfp := 0, dirty := 0 }) :=
      Ready.set ⟨Fds.Same.refl t, firstFree_free hfirst⟩ rfl rfl
    by_cases hfound : steps.objectLookup w ≠ effsNotfound
    · rw [if_neg hfound]
      exact iff_of_true (openObject_clean hready) fun h => hfound h.2.2.1
    have hmissing := Decidable.not_not.1 hfound
    rw [if_pos hmissing]
    cases hopt : isOpenOption option (ffsOCreate ||| ffsOWronly) with
    | false =>
      unfold OpenSteps.createFile
      rw [hopt]
      exact iff_of_true (hready.clean _) fun h => Bool.false_ne_true h.2.1
    | true =>
      rcases Int.lt_or_le (steps.isFilename w) 0 with hname | hname
      · unfold OpenSteps.createFile
        rw [if_pos hopt, if_pos hname]
        exact iff_of_true (hready.clean _) fun h => Int.not_le.2 hname h.2.2.2.1
      rcases Int.lt_or_le (steps.create w).result 0 with hcreate | hcreate
      · unfold OpenSteps.createFile
        rw [if_pos hopt, if_neg (Int.not_lt.2 hname)]
        dsimp only
        rw [if_pos hcreate]
        exact iff_of_true ((hready.moved _).clean _) fun h => Int.not_le.2 hcreate h.2.2.2.2.1
      · rw [createFile_clean_iff hready hopt (isOpenOption_write hopt) hname hcreate]
        simp [Decidable.not_not.1 hinit, hmissing, hname, hcreate]

end

/-! ### A file that is created without a buffer -/

/-- A table of four free descriptors. -/
def closedFds : Fds := ⟨4, fun _ => ⟨none, 0, 0, 0, 0, 0, 0, 0⟩⟩

/-- The file does not exist and is created as object 7, and there is no memory left. -/
def noMemory : OpenSteps Unit where
  initerror _ := 0
  objectLookup _ := effsNotfound
  isFilename _ := 1
  create _ := ⟨7, [], ()⟩
  journalEndFile _ := ⟨0, [], ()⟩
  isReadonly _ i := i
  isDir _ _ := false
  replace _ _ := ⟨7, [], ()⟩
  journalEnd _ := ⟨0, [], ()⟩
  iBackup _ := 0
  objectRemove _ _ := ⟨0, [], ()⟩
  segfileSeek _ _ := 0
  malloc _ := none

/-- The call fails, and the object is reported as open. -/
theorem noMemory_open : (noMemory.openB closedFds 0x21 ()).result = effsMemory ∧
    (noMemory.openB closedFds 0x21 ()).fds.getFdi 7 = some 0 ∧
    ¬FailsClean closedFds (noMemory.openB closedFds 0x21 ()) := by
  refine ⟨by decide, by decide, fun h => ?_⟩
  have hseg := (h (by decide)).seghead 0
  exact absurd hseg (by decide)

end Citrine.Ffs
