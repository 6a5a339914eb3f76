import Mathlib.Data.List.Nodup
import Mathlib.Data.BitVec

/-!
# The forest of inodes

The objects of a directory hang on its inode: the first one by the link to the child, and each by the link to the
sibling of the one before.  The further segments of a file hang on it by links to the child.  Inodes of objects that
have been deleted or replaced stay in between (`Holds`, `Chain`), and are passed over.
-/

namespace Citrine.Ffs

/-! ### Inodes -/

/-- `OT_ERASED` -/
def otErased : BitVec 8 := 0
/-- `OT_FILE` -/
def otFile : BitVec 8 := 1
/-- `OT_DIR` -/
def otDir : BitVec 8 := 2
/-- `OT_LINK` -/
def otLink : BitVec 8 := 3
/-- `OT_SEGMENT` -/
def otSegment : BitVec 8 := 4
/-- `OT_MAX` -/
def otMax : BitVec 8 := 4
/-- `OT_MASK` -/
def otMask : BitVec 8 := 7

/-- `struct inode_s`; a link that is `IREF_NULL` is no link. -/
structure Inode where
  size : Nat
  flags : BitVec 8
  child : Option Nat
  sibling : Option Nat
  location : Nat
  sequence : Nat
  updates : Nat
  deriving DecidableEq, Repr

/-- An inode of an erased block. -/
def erasedInode : Inode := ⟨0xffff, 0xff, none, none, 0xffffffff, 0xffff, 0xffff⟩

/-- `is_object` -/
def Inode.isObject (ip : Inode) (type : BitVec 8) : Prop := ip.flags &&& otMask = type

instance (ip : Inode) (type : BitVec 8) : Decidable (ip.isObject type) := inferInstanceAs (Decidable (_ = _))

/-- `is_object_valid` -/
def Inode.isObjectValid (ip : Inode) : Prop := ip.flags &&& otMask ≤ otMax ∧ ip.flags &&& otMask ≠ otErased

instance (ip : Inode) : Decidable ip.isObjectValid := inferInstanceAs (Decidable (_ ∧ _))

section
variable {ip : Inode} {a b : BitVec 8}

theorem Inode.isObject_unique (ha : ip.isObject a) (hb : ip.isObject b) : a = b := ha.symm.trans hb

private theorem valid_of (h : ip.isObject a) (ha : a ≤ otMax ∧ a ≠ otErased) : ip.isObjectValid := by
  unfold Inode.isObjectValid
  rw [h]
  exact ha

theorem Inode.valid_file (h : ip.isObject otFile) : ip.isObjectValid := valid_of h (by decide)

theorem Inode.valid_dir (h : ip.isObject otDir) : ip.isObjectValid := valid_of h (by decide)

theorem Inode.valid_link (h : ip.isObject otLink) : ip.isObjectValid := valid_of h (by decide)

theorem Inode.valid_segment (h : ip.isObject otSegment) : ip.isObjectValid := valid_of h (by decide)

end

/-- The inode of the same object without its links. -/
def Inode.unlinked (ip : Inode) : Inode := { ip with child := none, sibling := none }

/-- The inodes of a block, by their numbers. -/
abbrev Inodes := Nat → Inode

/-! ### The segments of a file -/

/-- The segments behind a link.  A segment that has been replaced is linked to its successor as to a sibling, and one
that has been removed may still be linked to a child. -/
inductive Chain (t : Inodes) : Option Nat → List Nat → Prop
  | nil : Chain t none []
  | segment {i : Nat} {segments : List Nat} (htype : (t i).isObject otSegment)
      (hnext : Chain t (t i).child segments) : Chain t (some i) (i :: segments)
  | replaced {i j : Nat} {segments : List Nat} (hdeleted : ¬(t i).isObjectValid) (hsibling : (t i).sibling = some j)
      (hnext : Chain t (some j) segments) : Chain t (some i) segments
  | removed {i : Nat} {segments : List Nat} (hdeleted : ¬(t i).isObjectValid) (hsibling : (t i).sibling = none)
      (hnext : Chain t (t i).child segments) : Chain t (some i) segments

/-- The loops of `segment_next`, from an inode on that has just been read.  An inode that is not valid leads to its
sibling, and if it is the last one to its child. -/
def segmentLoop (t : Inodes) : Nat → Nat → Option (Option Nat)
  | 0, _ => none
  | fuel + 1, i =>
    if (t i).isObjectValid then some (some i)
    else
      match (t i).sibling with
      | some j => segmentLoop t fuel j
      | none =>
        match (t i).child with
        | some c => segmentLoop t fuel c
        | none => some none

/-- `segment_next`; there is no result when the loops do not end in so many rounds. -/
def segmentNext (t : Inodes) (fuel : Nat) (i : Nat) : Option (Option Nat) :=
  if (t i).isObject otDir then some none
  else
    match (t i).child with
    | none => some none
    | some c => segmentLoop t fuel c

section
variable {t : Inodes} {l : Option Nat} {segments : List Nat} {i : Nat}

theorem Chain.unique {segments' : List Nat} (h : Chain t l segments) (h' : Chain t l segments') :
    segments = segments' := by
  induction h generalizing segments' with
  | nil => cases h'; rfl
  | segment htype hnext ih =>
    cases h' with
    | segment _ hnext' => rw [ih hnext']
    | replaced hdeleted _ _ => exact absurd (Inode.valid_segment htype) hdeleted
    | removed hdeleted _ _ => exact absurd (Inode.valid_segment htype) hdeleted
  | replaced hdeleted hsibling hnext ih =>
    cases h' with
    | segment htype _ => exact absurd (Inode.valid_segment htype) hdeleted
    | replaced _ hsibling' hnext' =>
      rw [hsibling] at hsibling'
      cases hsibling'
      exact ih hnext'
    | removed _ hsibling' _ =>
      rw [hsibling] at hsibling'
      cases hsibling'
  | removed hdeleted hsibling hnext ih =>
    cases h' with
    | segment htype _ => exact absurd (Inode.valid_segment htype) hdeleted
    | replaced _ hsibling' _ =>
      rw [hsibling] at hsibling'
      cases hsibling'
    | removed _ _ hnext' => exact ih hnext'

private theorem Chain.segmentLoop (h : Chain t l segments) :
    ∃ n, ∀ m, n ≤ m → ∀ i, l = some i → segmentLoop t m i = some segments.head? := by
  induction h with
  | nil => exact ⟨0, fun _ _ _ hi => by cases hi⟩
  | segment htype _ _ =>
    refine ⟨1, fun m hm i hi => ?_⟩
    obtain ⟨m, rfl⟩ : ∃ k, m = k + 1 := ⟨m - 1, by omega⟩
    cases hi
    exact if_pos (Inode.valid_segment htype)
  | replaced hdeleted hsibling _ ih =>
    obtain ⟨n, hn⟩ := ih
    refine ⟨n + 1, fun m hm i hi => ?_⟩
    obtain ⟨m, rfl⟩ : ∃ k, m = k + 1 := ⟨m - 1, by omega⟩
    cases hi
    rw [Ffs.segmentLoop, if_neg hdeleted, hsibling]
    exact hn m (by omega) _ rfl
  | removed hdeleted hsibling hnext ih =>
    obtain ⟨n, hn⟩ := ih
    refine ⟨n + 1, fun m hm i hi => ?_⟩
    obtain ⟨m, rfl⟩ : ∃ k, m = k + 1 := ⟨m - 1, by omega⟩
    cases hi
    rw [Ffs.segmentLoop, if_neg hdeleted, hsibling]
    cases hchild : (t _).child with
    | none =>
      rw [hchild] at hnext
      cases hnext
      rfl
    | some c => exact hn m (by omega) c hchild

/-- The next segment is the first one of those behind the child. -/
theorem Chain.segmentNext (h : Chain t (t i).child segments) (htype : ¬(t i).isObject otDir) :
    ∃ n, ∀ m, n ≤ m → segmentNext t m i = some segments.head? := by
  obtain ⟨n, hn⟩ := h.segmentLoop
  refine ⟨n, fun m hm => ?_⟩
  unfold Ffs.segmentNext
  rw [if_neg htype]
  cases hchild : (t i).child with
  | none =>
    rw [hchild] at h
    cases h
    rfl
  | some c => exact hn m hm c hchild

end

/-! ### The objects of a directory -/

/-- The objects of a directory in their order: directories with their own objects, files with their further segments,
and links. -/
inductive Forest
  | nil
  | dir (i : Nat) (objects next : Forest)
  | file (i : Nat) (segments : List Nat) (next : Forest)
  | link (i : Nat) (next : Forest)

/-- All inodes of a forest. -/
def Forest.inodes : Forest → List Nat
  | .nil => []
  | .dir i objects next => i :: (objects.inodes ++ next.inodes)
  | .file i segments next => i :: (segments ++ next.inodes)
  | .link i next => i :: next.inodes

/-- The first object of a forest. -/
def Forest.first : Forest → Option Nat
  | .nil => none
  | .dir i _ _ => some i
  | .file i _ _ => some i
  | .link i _ => some i

/-- The objects behind a link.  An inode that has been deleted leads to its sibling. -/
inductive Holds (t : Inodes) : Option Nat → Forest → Prop
  | nil : Holds t none .nil
  | deleted {i : Nat} {next : Forest} (hdeleted : ¬(t i).isObjectValid) (hnext : Holds t (t i).sibling next) :
      Holds t (some i) next
  | dir {i : Nat} {objects next : Forest} (htype : (t i).isObject otDir) (hobjects : Holds t (t i).child objects)
      (hnext : Holds t (t i).sibling next) : Holds t (some i) (.dir i objects next)
  | file {i : Nat} {segments : List Nat} {next : Forest} (htype : (t i).isObject otFile)
      (hsegments : Chain t (t i).child segments) (hnext : Holds t (t i).sibling next) :
      Holds t (some i) (.file i segments next)
  | link {i : Nat} {next : Forest} (htype : (t i).isObject otLink) (hchild : (t i).child = none)
      (hnext : Holds t (t i).sibling next) : Holds t (some i) (.link i next)

section
variable {t : Inodes} {l : Option Nat} {f : Forest} {i : Nat}

/-- A link leads to one forest only. -/
theorem Holds.unique {f' : Forest} (h : Holds t l f) (h' : Holds t l f') : f = f' := by
  induction h generalizing f' with
  | nil => cases h'; rfl
  | deleted hdeleted hnext ih =>
    cases h' with
    | deleted _ hnext' => exact ih hnext'
    | dir htype _ _ => exact absurd (Inode.valid_dir htype) hdeleted
    | file htype _ _ => exact absurd (Inode.valid_file htype) hdeleted
    | link htype _ _ => exact absurd (Inode.valid_link htype) hdeleted
  | dir htype hobjects hnext ihobjects ih =>
    cases h' with
    | deleted hdeleted _ => exact absurd (Inode.valid_dir htype) hdeleted
    | dir _ hobjects' hnext' => rw [ihobjects hobjects', ih hnext']
    | file htype' _ _ => exact absurd (Inode.isObject_unique htype htype') (by decide)
    | link htype' _ _ => exact absurd (Inode.isObject_unique htype htype') (by decide)
  | file htype hsegments hnext ih =>
    cases h' with
    | deleted hdeleted _ => exact absurd (Inode.valid_file htype) hdeleted
    | dir htype' _ _ => exact absurd (Inode.isObject_unique htype htype') (by decide)
    | file _ hsegments' hnext' => rw [hsegments.unique hsegments', ih hnext']
    | link htype' _ _ => exact absurd (Inode.isObject_unique htype htype') (by decide)
  | link htype hchild hnext ih =>
    cases h' with
    | deleted hdeleted _ => exact absurd (Inode.valid_link htype) hdeleted
    | dir htype' _ _ => exact absurd (Inode.isObject_unique htype htype') (by decide)
    | file htype' _ _ => exact absurd (Inode.isObject_unique htype htype') (by decide)
    | link _ _ hnext' => rw [ih hnext']

end

end Citrine.Ffs
