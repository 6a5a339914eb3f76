import Mathlib.Data.Set.Card
import Citrine.Ffs.Fsck
import Citrine.Ffs.InodeForest

/-!
# The reclaim of inodes

`inodes_reclaim` copies the inodes of the objects that are still valid to a new block, each to its old place, and
leaves out the others.  The copy holds the same forest (`inodesRecurse_compacted`), with no inode between its objects.
-/

namespace Citrine.Ffs

/-! ### `inodes_recurse` -/

/-- The block that is written to, and the member `used` of its record. -/
structure Copy where
  new : Inodes
  used : Int

/-- The inode is copied, except for its links. -/
def Copy.copy (s : Copy) (old : Inodes) (i : Nat) : Copy where
  new := Function.update s.new i
    { s.new i with
      location := (old i).location
      size := (old i).size
      flags := (old i).flags
      sequence := (old i).sequence
      updates := (old i).updates }
  used := s.used + 1

/-- The link that is written next: the source has the number of its inode, negative for the link to the child. -/
inductive Prev
  | child (i : Nat)
  | sibling (i : Nat)

/-- The inode of the link. -/
def Prev.inode : Prev → Nat
  | .child i => i
  | .sibling i => i

/-- The link of an inode is set. -/
def Prev.set : Prev → Inode → Option Nat → Inode
  | .child _, ip, l => { ip with child := l }
  | .sibling _, ip, l => { ip with sibling := l }

/-- The previous inode is linked to an inode. -/
def Copy.link (s : Copy) (pi : Prev) (i : Nat) : Copy :=
  { s with new := Function.update s.new pi.inode (pi.set (s.new pi.inode) (some i)) }

/-- What is done with the inode that a link leads to, if there is one. -/
def whenLinked (l : Option Nat) (s : Copy) (f : Nat → Option Copy) : Option Copy :=
  match l with
  | none => some s
  | some i => f i

/-- The loops that follow a segment head, from an inode on that has just been read. -/
def followSegments (old : Inodes) : Nat → Nat → Nat → Copy → Option Copy
  | 0, _, _, _ => none
  | fuel + 1, pis, i, s =>
    if (old i).isObjectValid then
      let s := (s.copy old i).link (.child pis) i
      whenLinked (old i).child s fun c => followSegments old fuel i c s
    else
      match (old i).sibling with
      | some j => followSegments old fuel pis j s
      | none => whenLinked (old i).child s fun c => followSegments old fuel pis c s

mutual

/-- `inodes_recurse`; there is no result when it does not end within so many nested calls and rounds. -/
def inodesRecurse (old : Inodes) : Nat → Nat → Copy → Option Copy
  | 0, _, _ => none
  | fuel + 1, i, s =>
    let s := s.copy old i
    whenLinked (old i).child s fun c => objectLoop old fuel (.child i) c s

/-- The loop of `inodes_recurse` over the objects of a directory. -/
def objectLoop (old : Inodes) : Nat → Prev → Nat → Copy → Option Copy
  | 0, _, _, _ => none
  | fuel + 1, pi, i, s =>
    if (old i).isObjectValid then
      (if (old i).isObject otDir then inodesRecurse old fuel i s else some (s.copy old i)).bind fun s =>
      let s := s.link pi i
      (if (old i).child ≠ none ∧ (old i).isObject otFile then
        whenLinked (old i).child s fun c => followSegments old fuel i c s else some s).bind fun s =>
      whenLinked (old i).sibling s fun j => objectLoop old fuel (.sibling i) j s
    else whenLinked (old i).sibling s fun j => objectLoop old fuel pi j s

end

/-! ### What a copy holds -/

/-- The segments have been copied, and each is linked to the one behind it. -/
def LaidChain (old new : Inodes) : List Nat → Prop
  | [] => True
  | i :: segments => new i = { (old i).unlinked with child := segments.head? } ∧ LaidChain old new segments

/-- The objects have been copied, and are linked without anything in between. -/
def Laid (old new : Inodes) : Forest → Prop
  | .nil => True
  | .dir i objects next => new i = { old i with child := objects.first, sibling := next.first } ∧
      Laid old new objects ∧ Laid old new next
  | .file i segments next => new i = { old i with child := segments.head?, sibling := next.first } ∧
      LaidChain old new segments ∧ Laid old new next
  | .link i next => new i = { old i with child := none, sibling := next.first } ∧ Laid old new next

section
variable {old new new' : Inodes} {segments : List Nat} {f : Forest}

theorem LaidChain.congr (h : LaidChain old new segments) (hsame : ∀ i ∈ segments, new' i = new i) :
    LaidChain old new' segments := by
  induction segments with
  | nil => trivial
  | cons i segments ih =>
    refine ⟨?_, ih h.2 fun j hj => hsame j (List.mem_cons_of_mem _ hj)⟩
    rw [hsame i List.mem_cons_self]
    exact h.1

theorem Laid.congr (h : Laid old new f) (hsame : ∀ i ∈ f.inodes, new' i = new i) : Laid old new' f := by
  induction f with
  | nil => trivial
  | dir i objects next ihobjects ihnext =>
    refine ⟨?_, ihobjects h.2.1 fun j hj => hsame j ?_, ihnext h.2.2 fun j hj => hsame j ?_⟩
    · rw [hsame i List.mem_cons_self]
      exact h.1
    · exact List.mem_cons_of_mem _ (List.mem_append_left _ hj)
    · exact List.mem_cons_of_mem _ (List.mem_append_right _ hj)
  | file i segments next ihnext =>
    refine ⟨?_, h.2.1.congr fun j hj => hsame j ?_, ihnext h.2.2 fun j hj => hsame j ?_⟩
    · rw [hsame i List.mem_cons_self]
      exact h.1
    · exact List.mem_cons_of_mem _ (List.mem_append_left _ hj)
    · exact List.mem_cons_of_mem _ (List.mem_append_right _ hj)
  | link i next ihnext =>
    refine ⟨?_, ihnext h.2 fun j hj => hsame j (List.mem_cons_of_mem _ hj)⟩
    rw [hsame i List.mem_cons_self]
    exact h.1

end

/-! ### What the loops write -/

/-- The inodes can be copied behind the link: none of them has been written, nor has the link. -/
structure Blank (inodes : List Nat) (pi : Prev) (s : Copy) : Prop where
  nodup : (pi.inode :: inodes).Nodup
  erased : ∀ i ∈ inodes, s.new i = erasedInode
  unset : pi.set (s.new pi.inode) none = s.new pi.inode

/-- The inodes have been copied, the link leads to the first one, and nothing else has been written. -/
structure Written (inodes : List Nat) (pi : Prev) (first : Option Nat) (s s' : Copy) : Prop where
  used : s'.used = s.used + inodes.length
  others : ∀ j, j ∉ inodes → j ≠ pi.inode → s'.new j = s.new j
  prev : s'.new pi.inode = pi.set (s.new pi.inode) first

section
variable {old : Inodes} {s s' : Copy} {i j : Nat} {pi : Prev} {l : Option Nat} {segments : List Nat} {f : Forest}

private theorem copy_self (h : s.new i = erasedInode) : (s.copy old i).new i = (old i).unlinked := by
  unfold Copy.copy
  dsimp only
  rw [Function.update_self, h]
  rfl

private theorem copy_ne (h : j ≠ i) : (s.copy old i).new j = s.new j := Function.update_of_ne h ..

private theorem link_self : (s.link pi i).new pi.inode = pi.set (s.new pi.inode) (some i) := Function.update_self ..

private theorem link_ne (h : j ≠ pi.inode) : (s.link pi i).new j = s.new j := Function.update_of_ne h ..

private theorem written_nil (h : Blank [] pi s) : Written [] pi none s s :=
  ⟨(Int.add_zero _).symm, fun _ _ _ => rfl, h.unset.symm⟩

/-- An inode that is copied and linked, and what is written behind one of its own links. -/
private theorem Written.copy_link {inodes : List Nat} {first : Option Nat} {pj : Prev} (hpj : pj.inode = i)
    (hb : Blank (i :: inodes) pi s) (h : Written inodes pj first ((s.copy old i).link pi i) s') :
    Written (i :: inodes) pi (some i) s s' ∧ s'.new i = pj.set (old i).unlinked first := by
  have hnodup := hb.nodup
  rw [List.nodup_cons, List.mem_cons, not_or] at hnodup
  obtain ⟨⟨hne, hnot⟩, -⟩ := hnodup
  refine ⟨⟨?_, fun j hj hjp => ?_, ?_⟩, ?_⟩
  · rw [h.used, List.length_cons]
    change s.used + 1 + inodes.length = s.used + (inodes.length + 1 : Nat)
    omega
  · rw [List.mem_cons, not_or] at hj
    rw [h.others j hj.2 (hpj ▸ hj.1), link_ne hjp, copy_ne hj.1]
  · rw [h.others _ hnot (hpj ▸ hne), link_self, copy_ne hne]
  · have hprev := h.prev
    rw [hpj, link_ne (Ne.symm hne), copy_self (hb.erased i List.mem_cons_self)] at hprev
    exact hprev

private theorem Blank.copy_link {inodes : List Nat} (hb : Blank (i :: inodes) pi s) (old : Inodes) (pj : Prev)
    (hpj : pj.inode = i) : Blank inodes pj ((s.copy old i).link pi i) := by
  have hnodup := hb.nodup
  rw [List.nodup_cons, List.mem_cons, not_or] at hnodup
  obtain ⟨⟨hne, hnot⟩, hrest⟩ := hnodup
  refine ⟨hpj ▸ hrest, fun j hj => ?_, ?_⟩
  · have hji : j ≠ i := by
      rintro rfl
      exact (List.nodup_cons.1 hrest).1 hj
    have hjp : j ≠ pi.inode := by
      rintro rfl
      exact hnot hj
    rw [link_ne hjp, copy_ne hji]
    exact hb.erased j (List.mem_cons_of_mem _ hj)
  · rw [hpj, link_ne (Ne.symm hne), copy_self (hb.erased i List.mem_cons_self)]
    cases pj <;> rfl

/-- The further segments of a file are copied behind its head. -/
theorem followSegments_spec (h : Chain old l segments) : ∃ n, ∀ m, n ≤ m → ∀ pis s, Blank segments (.child pis) s →
    ∃ s', whenLinked l s (fun i => followSegments old m pis i s) = some s' ∧
      Written segments (.child pis) segments.head? s s' ∧ LaidChain old s'.new segments := by
  induction h with
  | nil => exact ⟨0, fun _ _ _ s hb => ⟨s, rfl, written_nil hb, trivial⟩⟩
  | @segment i segments htype _ ih =>
    obtain ⟨n, hn⟩ := ih
    refine ⟨n + 1, fun m hm pis s hb => ?_⟩
    obtain ⟨m, rfl⟩ : ∃ k, m = k + 1 := ⟨m - 1, by omega⟩
    obtain ⟨s', hs', hw, hl⟩ := hn m (by omega) i _ (hb.copy_link old (.child i) rfl)
    obtain ⟨hw', hself⟩ := hw.copy_link (i := i) rfl hb
    refine ⟨s', ?_, hw', hself, hl⟩
    change followSegments old (m + 1) pis i s = some s'
    rw [followSegments, if_pos (Inode.valid_segment htype)]
    exact hs'
  | replaced hdeleted hsibling _ ih =>
    obtain ⟨n, hn⟩ := ih
    refine ⟨n + 1, fun m hm pis s hb => ?_⟩
    obtain ⟨m, rfl⟩ : ∃ k, m = k + 1 := ⟨m - 1, by omega⟩
    obtain ⟨s', hs', hw, hl⟩ := hn m (by omega) pis s hb
    refine ⟨s', ?_, hw, hl⟩
    change followSegments old (m + 1) pis _ s = some s'
    rw [followSegments, if_neg hdeleted, hsibling]
    exact hs'
  | removed hdeleted hsibling _ ih =>
    obtain ⟨n, hn⟩ := ih
    refine ⟨n + 1, fun m hm pis s hb => ?_⟩
    obtain ⟨m, rfl⟩ : ∃ k, m = k + 1 := ⟨m - 1, by omega⟩
    obtain ⟨s', hs', hw, hl⟩ := hn m (by omega) pis s hb
    refine ⟨s', ?_, hw, hl⟩
    change followSegments old (m + 1) pis _ s = some s'
    rw [followSegments, if_neg hdeleted, hsibling]
    exact hs'

/-- What is written behind the child and then behind the sibling of an inode. -/
private theorem Written.siblings {inodes inodes' : List Nat} {first' : Option Nat} {s₁ s₂ : Copy}
    (hb : Blank (i :: (inodes ++ inodes')) pi s)
    (h₁ : Written (i :: inodes) pi (some i) s s₁) (h₂ : Written inodes' (.sibling i) first' s₁ s₂) :
    Written (i :: (inodes ++ inodes')) pi (some i) s s₂ ∧ (∀ j ∈ inodes, s₂.new j = s₁.new j) ∧
      s₂.new i = { s₁.new i with sibling := first' } := by
  have hnodup := hb.nodup
  rw [List.nodup_cons, List.mem_cons, not_or, List.mem_append, not_or] at hnodup
  obtain ⟨⟨hne, hnot, hnot'⟩, hrest⟩ := hnodup
  rw [List.nodup_cons, List.mem_append, not_or] at hrest
  obtain ⟨⟨hi, hi'⟩, happ⟩ := hrest
  refine ⟨⟨?_, fun j hj hjp => ?_, ?_⟩, fun j hj => ?_, h₂.prev⟩
  · rw [h₂.used, h₁.used, List.length_cons, List.length_cons, List.length_append]
    omega
  · rw [List.mem_cons, not_or, List.mem_append, not_or] at hj
    rw [h₂.others j hj.2.2 hj.1, h₁.others j ?_ hjp]
    rw [List.mem_cons, not_or]
    exact ⟨hj.1, hj.2.1⟩
  · rw [h₂.others _ hnot' hne, h₁.prev]
  · refine h₂.others j (fun hj' => ?_) ?_
    · exact (List.nodup_append.1 happ).2.2 j hj j hj' rfl
    · rintro rfl
      exact hi hj

private theorem Blank.siblings {inodes inodes' : List Nat} {s₁ : Copy} (hb : Blank (i :: (inodes ++ inodes')) pi s)
    (h₁ : Written (i :: inodes) pi (some i) s s₁) (hset : (s₁.new i).sibling = none) :
    Blank inodes' (.sibling i) s₁ := by
  have hnodup := hb.nodup
  rw [List.nodup_cons, List.mem_cons, not_or, List.mem_append, not_or] at hnodup
  obtain ⟨⟨hne, hnot, hnot'⟩, hrest⟩ := hnodup
  rw [List.nodup_cons, List.mem_append, not_or] at hrest
  obtain ⟨⟨hi, hi'⟩, happ⟩ := hrest
  have happ' := List.nodup_append.1 happ
  refine ⟨List.nodup_cons.2 ⟨hi', happ'.2.1⟩, fun j hj => ?_, ?_⟩
  · rw [h₁.others j ?_ ?_]
    · exact hb.erased j (List.mem_cons_of_mem _ (List.mem_append_right _ hj))
    · rw [List.mem_cons, not_or]
      refine ⟨?_, fun hj' => happ'.2.2 j hj' j hj rfl⟩
      rintro rfl
      exact hi' hj
    · rintro rfl
      exact hnot' hj
  · change { s₁.new i with sibling := none } = s₁.new i
    rw [← hset]

private theorem Blank.front {inodes inodes' : List Nat} (hb : Blank (i :: (inodes ++ inodes')) pi s) :
    Blank (i :: inodes) pi s := by
  refine ⟨?_, fun j hj => hb.erased j ?_, hb.unset⟩
  · refine hb.nodup.sublist ?_
    exact ((List.sublist_append_left inodes inodes').cons_cons i).cons_cons _
  · rcases List.mem_cons.1 hj with rfl | hj
    · exact List.mem_cons_self
    · exact List.mem_cons_of_mem _ (List.mem_append_left _ hj)

/-- A directory is linked after its objects have been copied. -/
private theorem Written.link_behind {inodes : List Nat} {first : Option Nat} (hb : Blank (i :: inodes) pi s)
    (h : Written inodes (.child i) first (s.copy old i) s') :
    Written (i :: inodes) pi (some i) s (s'.link pi i) ∧ (∀ j ∈ inodes, (s'.link pi i).new j = s'.new j) ∧
      (s'.link pi i).new i = { (old i).unlinked with child := first } := by
  have hnodup := hb.nodup
  rw [List.nodup_cons, List.mem_cons, not_or] at hnodup
  obtain ⟨⟨hne, hnot⟩, -⟩ := hnodup
  have hprev := h.prev
  refine ⟨⟨?_, fun j hj hjp => ?_, ?_⟩, fun j hj => link_ne ?_, ?_⟩
  · change s'.used = _
    rw [h.used, List.length_cons]
    change s.used + 1 + inodes.length = s.used + (inodes.length + 1 : Nat)
    omega
  · rw [List.mem_cons, not_or] at hj
    rw [link_ne hjp, h.others j hj.2 hj.1, copy_ne hj.1]
  · rw [link_self, h.others _ hnot hne, copy_ne hne]
  · rintro rfl
    exact hnot hj
  · rw [link_ne (Ne.symm hne)]
    exact hprev.trans (by rw [Prev.inode, copy_self (hb.erased i List.mem_cons_self)]; rfl)

private theorem Blank.behind {inodes : List Nat} (hb : Blank (i :: inodes) pi s) :
    Blank inodes (.child i) (s.copy old i) := by
  have hnodup := (List.nodup_cons.1 hb.nodup).2
  refine ⟨hnodup, fun j hj => ?_, ?_⟩
  · rw [copy_ne, hb.erased j (List.mem_cons_of_mem _ hj)]
    rintro rfl
    exact (List.nodup_cons.1 hnodup).1 hj
  · change { (s.copy old i).new i with child := none } = (s.copy old i).new i
    rw [copy_self (hb.erased i List.mem_cons_self)]
    rfl

/-- The objects behind a link are copied behind another one. -/
theorem objectLoop_spec (h : Holds old l f) : ∃ n, ∀ m, n ≤ m → ∀ pi s, Blank f.inodes pi s →
    ∃ s', whenLinked l s (fun i => objectLoop old m pi i s) = some s' ∧ Written f.inodes pi f.first s s' ∧
      Laid old s'.new f := by
  induction h with
  | nil => exact ⟨0, fun _ _ _ s hb => ⟨s, rfl, written_nil hb, trivial⟩⟩
  | deleted hdeleted _ ih =>
    obtain ⟨n, hn⟩ := ih
    refine ⟨n + 1, fun m hm pi s hb => ?_⟩
    obtain ⟨m, rfl⟩ : ∃ k, m = k + 1 := ⟨m - 1, by omega⟩
    obtain ⟨s', hs', hw, hl⟩ := hn m (by omega) pi s hb
    refine ⟨s', ?_, hw, hl⟩
    change objectLoop old (m + 1) pi _ s = some s'
    rw [objectLoop, if_neg hdeleted]
    exact hs'
  | @dir i objects next htype _ _ ihobjects ih =>
    obtain ⟨n, hn⟩ := ihobjects
    obtain ⟨n', hn'⟩ := ih
    refine ⟨n + n' + 2, fun m hm pi s hb => ?_⟩
    obtain ⟨m, rfl⟩ : ∃ k, m = k + 2 := ⟨m - 2, by omega⟩
    obtain ⟨s₁, hs₁, hw₁, hl₁⟩ := hn m (by omega) (.child i) (s.copy old i) hb.front.behind
    obtain ⟨hw₂, hkeep₂, hself₂⟩ := hw₁.link_behind hb.front
    obtain ⟨s₃, hs₃, hw₃, hl₃⟩ := hn' (m + 1) (by omega) (.sibling i) (s₁.link pi i)
      (hb.siblings hw₂ (by rw [hself₂]; rfl))
    obtain ⟨hw, hkeep, hself⟩ := Written.siblings hb hw₂ hw₃
    have hfile : ¬(old i).isObject otFile := fun h => absurd (Inode.isObject_unique htype h) (by decide)
    refine ⟨s₃, ?_, hw, ?_, ?_, hl₃⟩
    · change objectLoop old (m + 1 + 1) pi i s = some s₃
      rw [objectLoop, if_pos (Inode.valid_dir htype), if_pos htype, inodesRecurse, hs₁, Option.bind_some]
      dsimp only
      rw [if_neg fun h => hfile h.2, Option.bind_some]
      exact hs₃
    · rw [hself, hself₂]
      rfl
    · exact hl₁.congr fun j hj => (hkeep j hj).trans (hkeep₂ j hj)
  | @file i segments next htype hsegments _ ih =>
    obtain ⟨n, hn⟩ := followSegments_spec hsegments
    obtain ⟨n', hn'⟩ := ih
    refine ⟨n + n' + 1, fun m hm pi s hb => ?_⟩
    obtain ⟨m, rfl⟩ : ∃ k, m = k + 1 := ⟨m - 1, by omega⟩
    obtain ⟨s₁, hs₁, hw₁, hl₁⟩ := hn m (by omega) i _ (hb.front.copy_link old (.child i) rfl)
    obtain ⟨hw₂, hself₂⟩ := hw₁.copy_link (i := i) rfl hb.front
    obtain ⟨s₃, hs₃, hw₃, hl₃⟩ := hn' m (by omega) (.sibling i) s₁ (hb.siblings hw₂ (by rw [hself₂]; rfl))
    obtain ⟨hw, hkeep, hself⟩ := Written.siblings hb hw₂ hw₃
    have hdir : ¬(old i).isObject otDir := fun h => absurd (Inode.isObject_unique htype h) (by decide)
    refine ⟨s₃, ?_, hw, ?_, hl₁.congr hkeep, hl₃⟩
    · change objectLoop old (m + 1) pi i s = some s₃
      rw [objectLoop, if_pos (Inode.valid_file htype), if_neg hdir, Option.bind_some]
      dsimp only
      have hfollow : (if (old i).child ≠ none ∧ (old i).isObject otFile then
          whenLinked (old i).child ((s.copy old i).link pi i)
            fun c => followSegments old m i c ((s.copy old i).link pi i)
          else some ((s.copy old i).link pi i)) = some s₁ := by
        cases hchild : (old i).child with
        | none =>
          rw [hchild] at hs₁
          rw [if_neg fun h => h.1 rfl]
          exact hs₁
        | some c =>
          rw [hchild] at hs₁
          rw [if_pos ⟨nofun, htype⟩]
          exact hs₁
      rw [hfollow, Option.bind_some]
      exact hs₃
    · rw [hself, hself₂]
      rfl
  | @link i next htype hchild _ ih =>
    obtain ⟨n, hn⟩ := ih
    refine ⟨n + 1, fun m hm pi s hb => ?_⟩
    obtain ⟨m, rfl⟩ : ∃ k, m = k + 1 := ⟨m - 1, by omega⟩
    obtain ⟨s₁, hs₁, hw₁, hl₁⟩ := hn m (by omega) (.sibling i) _ (hb.copy_link old (.sibling i) rfl)
    obtain ⟨hw, hself⟩ := hw₁.copy_link (i := i) rfl hb
    have hdir : ¬(old i).isObject otDir := fun h => absurd (Inode.isObject_unique htype h) (by decide)
    refine ⟨s₁, ?_, hw, ?_, hl₁⟩
    · change objectLoop old (m + 1) pi i s = some s₁
      rw [objectLoop, if_pos (Inode.valid_link htype), if_neg hdir, Option.bind_some]
      dsimp only
      rw [if_neg fun h => h.1 hchild, Option.bind_some]
      exact hs₁
    · exact hself

end

/-! ### The forest of the copy -/

section
variable {old new : Inodes} {l : Option Nat} {segments : List Nat} {f : Forest} {i j : Nat}

private theorem Chain.segment_of_mem (h : Chain old l segments) : ∀ i ∈ segments, (old i).isObject otSegment := by
  induction h with
  | nil => nofun
  | segment htype _ ih => exact List.forall_mem_cons.2 ⟨htype, ih⟩
  | replaced _ _ _ ih => exact ih
  | removed _ _ _ ih => exact ih

private theorem LaidChain.chain (h : LaidChain old new segments) (htype : ∀ i ∈ segments, (old i).isObject otSegment) :
    Chain new segments.head? segments := by
  induction segments with
  | nil => exact Chain.nil
  | cons i segments ih =>
    rw [List.forall_mem_cons] at htype
    refine Chain.segment ?_ ?_
    · unfold Inode.isObject
      rw [h.1]
      exact htype.1
    · rw [h.1]
      exact ih h.2 htype.2

/-- The copy of the objects behind a link holds the same objects. -/
theorem Laid.holds (h : Holds old l f) (hl : Laid old new f) : Holds new f.first f := by
  induction h with
  | nil => exact Holds.nil
  | deleted _ _ ih => exact ih hl
  | dir htype _ _ ihobjects ih =>
    refine Holds.dir ?_ ?_ ?_
    · unfold Inode.isObject
      rw [hl.1]
      exact htype
    · rw [hl.1]
      exact ihobjects hl.2.1
    · rw [hl.1]
      exact ih hl.2.2
  | file htype hsegments _ ih =>
    refine Holds.file ?_ ?_ ?_
    · unfold Inode.isObject
      rw [hl.1]
      exact htype
    · rw [hl.1]
      exact hl.2.1.chain hsegments.segment_of_mem
    · rw [hl.1]
      exact ih hl.2.2
  | link htype _ _ ih =>
    refine Holds.link ?_ ?_ ?_
    · unfold Inode.isObject
      rw [hl.1]
      exact htype
    · rw [hl.1]
    · rw [hl.1]
      exact ih hl.2

/-- All inodes of a forest are valid. -/
theorem Holds.valid (h : Holds old l f) : ∀ i ∈ f.inodes, (old i).isObjectValid := by
  induction h with
  | nil => nofun
  | deleted _ _ ih => exact ih
  | dir htype _ _ ihobjects ih =>
    exact List.forall_mem_cons.2 ⟨Inode.valid_dir htype, List.forall_mem_append.2 ⟨ihobjects, ih⟩⟩
  | file htype hsegments _ ih =>
    refine List.forall_mem_cons.2 ⟨Inode.valid_file htype, List.forall_mem_append.2 ⟨fun i hi => ?_, ih⟩⟩
    exact Inode.valid_segment (hsegments.segment_of_mem i hi)
  | link htype _ _ ih => exact List.forall_mem_cons.2 ⟨Inode.valid_link htype, ih⟩

private theorem Forest.first_mem (h : f.first = some i) : i ∈ f.inodes := by
  cases f with
  | nil => cases h
  | dir | file | link =>
    cases h
    exact List.mem_cons_self

/-- The record of an inode has been copied, and its links lead to inodes that have been copied. -/
private structure Kept (old new : Inodes) (inodes : List Nat) (i : Nat) : Prop where
  record : (new i).unlinked = (old i).unlinked
  child : ∀ j, (new i).child = some j → j ∈ inodes
  sibling : ∀ j, (new i).sibling = some j → j ∈ inodes

private theorem Kept.mono {inodes inodes' : List Nat} (h : Kept old new inodes i) (hsub : ∀ j ∈ inodes, j ∈ inodes') :
    Kept old new inodes' i :=
  ⟨h.record, fun j hj => hsub j (h.child j hj), fun j hj => hsub j (h.sibling j hj)⟩

private theorem LaidChain.kept (h : LaidChain old new segments) : ∀ i ∈ segments, Kept old new segments i := by
  induction segments with
  | nil => nofun
  | cons i segments ih =>
    refine List.forall_mem_cons.2 ⟨⟨?_, fun j hj => ?_, fun j hj => ?_⟩, fun j hj => ?_⟩
    · rw [h.1]
      rfl
    · rw [h.1] at hj
      exact List.mem_cons_of_mem _ (List.mem_of_mem_head? (Option.mem_def.2 hj))
    · rw [h.1] at hj
      cases hj
    · exact (ih h.2 j hj).mono fun _ => List.mem_cons_of_mem _

private theorem Laid.kept (h : Laid old new f) : ∀ i ∈ f.inodes, Kept old new f.inodes i := by
  induction f with
  | nil => nofun
  | dir i objects next ihobjects ihnext =>
    have hfront : ∀ j ∈ objects.inodes, j ∈ (Forest.dir i objects next).inodes := fun j hj =>
      List.mem_cons_of_mem _ (List.mem_append_left _ hj)
    have hback : ∀ j ∈ next.inodes, j ∈ (Forest.dir i objects next).inodes := fun j hj =>
      List.mem_cons_of_mem _ (List.mem_append_right _ hj)
    refine List.forall_mem_cons.2 ⟨⟨?_, fun j hj => ?_, fun j hj => ?_⟩, List.forall_mem_append.2 ⟨?_, ?_⟩⟩
    · rw [h.1]
      rfl
    · rw [h.1] at hj
      exact hfront j (Forest.first_mem hj)
    · rw [h.1] at hj
      exact hback j (Forest.first_mem hj)
    · exact fun j hj => (ihobjects h.2.1 j hj).mono hfront
    · exact fun j hj => (ihnext h.2.2 j hj).mono hback
  | file i segments next ihnext =>
    have hfront : ∀ j ∈ segments, j ∈ (Forest.file i segments next).inodes := fun j hj =>
      List.mem_cons_of_mem _ (List.mem_append_left _ hj)
    have hback : ∀ j ∈ next.inodes, j ∈ (Forest.file i segments next).inodes := fun j hj =>
      List.mem_cons_of_mem _ (List.mem_append_right _ hj)
    refine List.forall_mem_cons.2 ⟨⟨?_, fun j hj => ?_, fun j hj => ?_⟩, List.forall_mem_append.2 ⟨?_, ?_⟩⟩
    · rw [h.1]
      rfl
    · rw [h.1] at hj
      exact hfront j (List.mem_of_mem_head? (Option.mem_def.2 hj))
    · rw [h.1] at hj
      exact hback j (Forest.first_mem hj)
    · exact fun j hj => (h.2.1.kept j hj).mono hfront
    · exact fun j hj => (ihnext h.2.2 j hj).mono hback
  | link i next ihnext =>
    have hback : ∀ j ∈ next.inodes, j ∈ (Forest.link i next).inodes := fun j hj => List.mem_cons_of_mem _ hj
    refine List.forall_mem_cons.2 ⟨⟨?_, fun j hj => ?_, fun j hj => ?_⟩, fun j hj => ?_⟩
    · rw [h.1]
      rfl
    · rw [h.1] at hj
      cases hj
    · rw [h.1] at hj
      exact hback j (Forest.first_mem hj)
    · exact (ihnext h.2 j hj).mono hback

/-- The same segments are behind the inode in both blocks. -/
private def SameChain (old new : Inodes) (i : Nat) : Prop :=
  (old i).isObject otDir ∨ ∃ segments, Chain old (old i).child segments ∧ Chain new (new i).child segments

private theorem Chain.same (h : Chain old l segments) (hl : LaidChain old new segments) :
    ∀ i ∈ segments, SameChain old new i := by
  induction h with
  | nil => nofun
  | segment _ hnext ih =>
    refine List.forall_mem_cons.2 ⟨.inr ⟨_, hnext, ?_⟩, ih hl.2⟩
    rw [hl.1]
    exact hl.2.chain hnext.segment_of_mem
  | replaced _ _ _ ih => exact ih hl
  | removed _ _ _ ih => exact ih hl

private theorem Holds.same (h : Holds old l f) (hl : Laid old new f) : ∀ i ∈ f.inodes, SameChain old new i := by
  induction h with
  | nil => nofun
  | deleted _ _ ih => exact ih hl
  | dir htype _ _ ihobjects ih =>
    exact List.forall_mem_cons.2 ⟨.inl htype, List.forall_mem_append.2 ⟨ihobjects hl.2.1, ih hl.2.2⟩⟩
  | file _ hsegments _ ih =>
    refine List.forall_mem_cons.2 ⟨.inr ⟨_, hsegments, ?_⟩, ?_⟩
    · rw [hl.1]
      exact hl.2.1.chain hsegments.segment_of_mem
    · exact List.forall_mem_append.2 ⟨hsegments.same hl.2.1, ih hl.2.2⟩
  | link _ hchild _ ih =>
    refine List.forall_mem_cons.2 ⟨.inr ⟨[], ?_, ?_⟩, ih hl.2⟩
    · rw [hchild]
      exact Chain.nil
    · rw [hl.1]
      exact Chain.nil

end

/-! ### `inodes_reclaim` -/

/-- The root leads to the objects of a forest, and every valid inode is the root or in the forest. -/
structure WellFormed (t : Inodes) (root : Nat) (f : Forest) : Prop where
  directory : (t root).isObject otDir
  objects : Holds t (t root).child f
  nodup : (root :: f.inodes).Nodup
  complete : ∀ i, (t i).isObjectValid → i ∈ root :: f.inodes

/-- The new inodes are the valid ones of the old block: the root leads to the same objects, each has its record, its
segments and its place, and no link leads to anything else. -/
structure Compacted (old new : Inodes) (root : Nat) (f : Forest) : Prop where
  objects : Holds new (new root).child f
  valid : ∀ i, (new i).isObjectValid ↔ (old i).isObjectValid
  records : ∀ i, (old i).isObjectValid → (new i).unlinked = (old i).unlinked
  dropped : ∀ i, ¬(old i).isObjectValid → new i = erasedInode
  links : ∀ i j, (new i).child = some j ∨ (new i).sibling = some j → (new j).isObjectValid
  segments : ∀ i, (old i).isObjectValid →
    ∃ n, ∀ m, n ≤ m → ∃ l, segmentNext old m i = some l ∧ segmentNext new m i = some l

section
variable {old new : Inodes} {root : Nat} {f : Forest} {i : Nat}

private theorem erasedInode_not_valid : ¬erasedInode.isObjectValid := by decide

private theorem isObject_congr {ip ip' : Inode} (h : ip'.unlinked = ip.unlinked) (type : BitVec 8) :
    ip'.isObject type ↔ ip.isObject type := by
  have hflags : ip'.unlinked.flags = ip.unlinked.flags := congrArg Inode.flags h
  change ip'.flags = ip.flags at hflags
  unfold Inode.isObject
  rw [hflags]

private theorem isObjectValid_congr {ip ip' : Inode} (h : ip'.unlinked = ip.unlinked) :
    ip'.isObjectValid ↔ ip.isObjectValid := by
  have hflags : ip'.unlinked.flags = ip.unlinked.flags := congrArg Inode.flags h
  change ip'.flags = ip.flags at hflags
  unfold Inode.isObjectValid
  rw [hflags]

/-- Where the same segments are behind an inode, `segment_next` finds the same one. -/
private theorem SameChain.segmentNext (h : SameChain old new i) (hrecord : (new i).unlinked = (old i).unlinked) :
    ∃ n, ∀ m, n ≤ m → ∃ l, segmentNext old m i = some l ∧ segmentNext new m i = some l := by
  by_cases hdir : (old i).isObject otDir
  · exact ⟨0, fun _ _ => ⟨none, if_pos hdir, if_pos ((isObject_congr hrecord _).2 hdir)⟩⟩
  · obtain ⟨segments, hold, hnew⟩ := h.resolve_left hdir
    obtain ⟨n, hn⟩ := hold.segmentNext hdir
    obtain ⟨n', hn'⟩ := hnew.segmentNext (mt (isObject_congr hrecord _).1 hdir)
    exact ⟨n + n', fun m hm => ⟨segments.head?, hn m (by omega), hn' m (by omega)⟩⟩

private theorem compacted (hw : WellFormed old root f) (hl : Laid old new f)
    (hroot : new root = { (old root).unlinked with child := f.first })
    (hothers : ∀ i, i ∉ root :: f.inodes → new i = erasedInode) : Compacted old new root f := by
  have hvalid : ∀ i ∈ root :: f.inodes, (old i).isObjectValid :=
    List.forall_mem_cons.2 ⟨Inode.valid_dir hw.directory, hw.objects.valid⟩
  have hkept : ∀ i ∈ root :: f.inodes, Kept old new f.inodes i := by
    refine List.forall_mem_cons.2 ⟨⟨?_, fun j hj => ?_, fun j hj => ?_⟩, hl.kept⟩
    · rw [hroot]
      rfl
    · rw [hroot] at hj
      exact Forest.first_mem hj
    · rw [hroot] at hj
      cases hj
  have hsame : ∀ i ∈ root :: f.inodes, SameChain old new i :=
    List.forall_mem_cons.2 ⟨.inl hw.directory, hw.objects.same hl⟩
  have hiff : ∀ i, (new i).isObjectValid ↔ (old i).isObjectValid := by
    intro i
    by_cases hi : i ∈ root :: f.inodes
    · exact isObjectValid_congr (hkept i hi).record
    · rw [hothers i hi]
      exact iff_of_false erasedInode_not_valid (mt (hw.complete i) hi)
  refine ⟨?_, hiff, fun i hi => (hkept i (hw.complete i hi)).record, fun i hi => hothers i (mt (hvalid i) hi), ?_, ?_⟩
  · rw [hroot]
    exact hl.holds hw.objects
  · intro i j hj
    by_cases hi : i ∈ root :: f.inodes
    · refine (hiff j).2 (hw.objects.valid j ?_)
      rcases hj with hj | hj
      · exact (hkept i hi).child j hj
      · exact (hkept i hi).sibling j hj
    · rw [hothers i hi] at hj
      rcases hj with hj | hj <;> cases hj
  · exact fun i hi => (hsame i (hw.complete i hi)).segmentNext (hkept i (hw.complete i hi)).record

/-- The valid inodes are copied from the root on, and counted. -/
theorem inodesRecurse_compacted (hw : WellFormed old root f) : ∃ n, ∀ m, n ≤ m →
    ∃ s, inodesRecurse old m root ⟨fun _ => erasedInode, 0⟩ = some s ∧ Compacted old s.new root f ∧
      s.used = (root :: f.inodes).length := by
  obtain ⟨n, hn⟩ := objectLoop_spec hw.objects
  refine ⟨n + 1, fun m hm => ?_⟩
  obtain ⟨m, rfl⟩ : ∃ k, m = k + 1 := ⟨m - 1, by omega⟩
  have hself : (Copy.copy ⟨fun _ => erasedInode, 0⟩ old root).new root = (old root).unlinked := copy_self rfl
  have hblank : Blank f.inodes (.child root) (Copy.copy ⟨fun _ => erasedInode, 0⟩ old root) := by
    refine ⟨hw.nodup, fun i hi => ?_, ?_⟩
    · rw [copy_ne]
      rintro rfl
      exact (List.nodup_cons.1 hw.nodup).1 hi
    · change { (Copy.copy ⟨fun _ => erasedInode, 0⟩ old root).new root with child := none } =
        (Copy.copy ⟨fun _ => erasedInode, 0⟩ old root).new root
      rw [hself]
      rfl
  obtain ⟨s, hs, hwritten, hl⟩ := hn m (by omega) _ _ hblank
  refine ⟨s, hs, compacted hw hl ?_ fun i hi => ?_, ?_⟩
  · refine hwritten.prev.trans ?_
    rw [Prev.inode, hself]
    rfl
  · rw [List.mem_cons, not_or] at hi
    rw [hwritten.others i hi.2 hi.1, copy_ne hi.1]
  · rw [hwritten.used, List.length_cons]
    change 0 + 1 + (f.inodes.length : Int) = (f.inodes.length + 1 : Nat)
    omega

end

/-- `inodes_reclaim`, with the inodes of each block; they are erased with the block. -/
def State.inodesReclaim (fuel : Nat) (f : State) (flash : Nat → Inodes) (root : Nat) :
    Option (Int × State × (Nat → Inodes)) :=
  if f.fs.initerror ≠ effsOk then some (f.fs.initerror, f, flash)
  else
    (f.blockAlloc 1 bfCopying).bind fun (b, f) =>
    let f := { f with fs := { f.fs with newinodes := b } }
    if b < 0 then some (effsNoblocks, f, flash)
    else
      let f := f.setStat b.toNat fun r => { r with used := 0 }
      (inodesRecurse (flash f.fs.inodes.toNat) fuel root ⟨flash b.toNat, 0⟩).map fun s =>
      let f := f.setStat b.toNat fun r => { r with used := s.used }
      let flash := Function.update flash b.toNat s.new
      let keep := f.fs.testflags &&& blockCommitBase ≠ 0 ∧ f.fs.testflags ≠ blockCommitOldFree
      (effsOk, f.blockCommit,
        if keep then flash else Function.update flash f.fs.inodes.toNat fun _ => erasedInode)

/-- The block of the inodes is another one, it has the compacted inodes, and its record counts them. -/
structure Reclaimed (f : State) (flash : Nat → Inodes) (root : Nat) (objects : Forest) (f' : State)
    (flash' : Nat → Inodes) : Prop where
  moved : f'.fs.inodes ≠ f.fs.inodes
  compacted : Compacted (flash f.fs.inodes.toNat) (flash' f'.fs.inodes.toNat) root objects
  used : (f'.bstat f'.fs.inodes.toNat).used = {i | (flash' f'.fs.inodes.toNat i).isObjectValid}.ncard
  lost : (f'.bstat f'.fs.inodes.toNat).lost = 0

section
variable {f : State} {flash : Nat → Inodes} {root : Nat} {objects : Forest}

private theorem Compacted.ncard_valid {old new : Inodes} (hw : WellFormed old root objects)
    (hc : Compacted old new root objects) :
    {i | (new i).isObjectValid}.ncard = (root :: objects.inodes).length := by
  have hset : {i | (new i).isObjectValid} = ((root :: objects.inodes).toFinset : Set Nat) := by
    ext i
    rw [Set.mem_ofPred_eq, hc.valid i, Finset.mem_coe, List.mem_toFinset]
    refine ⟨hw.complete i, fun hi => ?_⟩
    rcases List.mem_cons.1 hi with rfl | hi
    · exact Inode.valid_dir hw.directory
    · exact hw.objects.valid i hi
  rw [hset, Set.ncard_coe_finset, List.toFinset_card_of_nodup hw.nodup]

private theorem erase_other {p : Prop} [Decidable p] {b c : Nat} (h : b ≠ c) :
    (if p then flash else Function.update flash c fun _ => erasedInode) b = flash b := by
  split
  · rfl
  · rw [Function.update_of_ne h]

private theorem reclaimed {f' : State} {flash' : Nat → Inodes} {b : Nat} {new : Inodes}
    (hw : WellFormed (flash f.fs.inodes.toNat) root objects)
    (hc : Compacted (flash f.fs.inodes.toNat) new root objects) (hne : b ≠ f.fs.inodes.toNat)
    (hset : f'.fs.inodes = b) (hflash : flash' b = new) (hused : (f'.bstat b).used = (root :: objects.inodes).length)
    (hlost : (f'.bstat b).lost = 0) : Reclaimed f flash root objects f' flash' := by
  have hblock : f'.fs.inodes.toNat = b := by rw [hset, Int.toNat_natCast]
  refine ⟨fun h => ?_, ?_, ?_, ?_⟩
  · rw [hset] at h
    exact hne (h ▸ rfl)
  · rw [hblock, hflash]
    exact hc
  · rw [hblock, hflash, hc.ncard_valid hw]
    exact hused
  · rw [hblock]
    exact hlost

/-- For every block of inodes that is well formed, `inodes_reclaim` succeeds when the file system has been started
and a block is to be had, and the inodes are the same ones but for those that have been deleted; otherwise it leaves
the inodes as they are. -/
theorem inodesReclaim_preserves (hinodes : f.isBlock f.fs.inodes.toNat bfIsInodes)
    (hw : WellFormed (flash f.fs.inodes.toNat) root objects)
    (herased : ∀ b, f.isBlock b bfIsFree → flash b = fun _ => erasedInode)
    (hreserve : 1 ≤ f.fs.blocksFreeMin ∨ ∃ b, f.FreeBlock b)
    (hbefore : f.fs.testflags ≠ blockCommitBefore) (hvalid : f.fs.testflags ≠ blockCommitNoValid) :
    ∃ n, ∀ m, n ≤ m → ∃ e f' flash', f.inodesReclaim m flash root = some (e, f', flash') ∧
      (e = effsOk ↔ f.fs.initerror = effsOk ∧ ¬f.Refused 1) ∧
      (e = effsOk → Reclaimed f flash root objects f' flash') ∧
      (e ≠ effsOk → flash' = flash ∧ f'.fs.inodes = f.fs.inodes) := by
  by_cases hinit : f.fs.initerror = effsOk
  · obtain ⟨n, hn⟩ := inodesRecurse_compacted hw
    refine ⟨n, fun m hm => ?_⟩
    unfold State.inodesReclaim
    rw [if_neg (not_not.2 hinit)]
    rcases blockAlloc_copying hreserve with ⟨hrefused, halloc⟩ | ⟨hrefused, b, hb, halloc⟩
    · rw [halloc, Option.bind_some]
      refine ⟨effsNoblocks, _, flash, if_pos (by decide), ?_, ?_, fun _ => ⟨rfl, rfl⟩⟩
      · exact iff_of_false (by decide) fun h => h.2 hrefused
      · exact fun h => absurd h (by decide)
    · have hne : b ≠ f.fs.inodes.toNat := by
        rintro rfl
        exact absurd (hinodes.symm.trans hb.2) (by decide)
      obtain ⟨s, hs, hc, hused⟩ := hn m hm
      rw [halloc, Option.bind_some]
      dsimp only
      rw [if_neg (by omega), Int.toNat_natCast, herased b hb.2]
      simp only [setStat_fs, blockFlagsWrite_fs]
      rw [hs, Option.map_some]
      obtain ⟨hset, hcount, hlost⟩ := blockCommit_spec (f := ({ (f.blockFlagsWrite b bfCopying).setStat b
        (fun s => { s with used := 0, lost := 0, objects := 1 }) with
          fs := { f.fs with newinodes := b } }.setStat b (fun r => { r with used := 0 })).setStat b
            fun r => { r with used := s.used }) hbefore hvalid (by exact hne)
      refine ⟨_, _, _, rfl, iff_of_true rfl ⟨hinit, hrefused⟩, fun _ => ?_, fun h => absurd rfl h⟩
      refine reclaimed hw hc hne hset ?_ ?_ hlost
      · exact (erase_other hne).trans (Function.update_self ..)
      · rw [← hused]
        refine hcount.trans ?_
        simp [State.setStat]
  · refine ⟨0, fun m _ => ⟨f.fs.initerror, f, flash, if_pos hinit, ?_, fun h => absurd h hinit, fun _ => ⟨rfl, rfl⟩⟩⟩
    exact iff_of_false hinit fun h => hinit h.1

end

/-! ### A deleted first object, a replaced segment and a directory -/

/-- A directory whose first object has been deleted: behind it are a file with a segment that has been replaced, and a
directory with a link. -/
def deletedFirst : Inodes
  | 1 => ⟨1, otDir, some 2, none, 0x10, 1, 0⟩
  | 2 => ⟨9, otErased, none, some 3, 0x11, 2, 0⟩
  | 3 => ⟨9, otFile, some 4, some 6, 0x12, 3, 1⟩
  | 4 => ⟨9, otErased, none, some 5, 0x13, 4, 0⟩
  | 5 => ⟨9, otSegment, none, none, 0x14, 5, 0⟩
  | 6 => ⟨9, otDir, some 7, none, 0x15, 6, 0⟩
  | 7 => ⟨9, otLink, none, none, 0x16, 7, 0⟩
  | _ => erasedInode

/-- The objects that are left. -/
def leftObjects : Forest := .file 3 [5] (.dir 6 (.link 7 .nil) .nil)

private theorem inodesDevice_blocks : 3 ≤ ffsBlocksMax := by decide

/-- Three blocks, the first of which has the inodes. -/
def inodesDevice : State where
  numblocks := 3
  blocksize := 0x10000
  header b := ⟨blockMagicLow, blockMagicHigh, ffsFormatVersion, 1, if b = 0 then bfIsInodes else bfIsFree⟩
  bstat b := if b = 0 then ⟨7, 2, bfIsInodes, 1⟩ else ⟨0, 0, bfIsFree, 0⟩
  fs := ⟨0, -1, 1, ffsFormatVersion, 1, effsOk, 0⟩
  numblocks_le := inodesDevice_blocks

/-- The inodes of the blocks. -/
def inodesFlash (b : Nat) : Inodes := if b = 0 then deletedFirst else fun _ => erasedInode

private theorem deletedFirst_wellFormed : WellFormed (inodesFlash 0) 1 leftObjects := by
  change WellFormed deletedFirst 1 leftObjects
  refine ⟨by decide, ?_, by decide, fun i hi => ?_⟩
  · have hlink : Holds deletedFirst (some 7) (.link 7 .nil) := Holds.link (by decide) rfl Holds.nil
    have hdir : Holds deletedFirst (some 6) (.dir 6 (.link 7 .nil) .nil) := Holds.dir (by decide) hlink Holds.nil
    have hsegment : Chain deletedFirst (some 5) [5] := Chain.segment (by decide) Chain.nil
    have hsegments : Chain deletedFirst (some 4) [5] := Chain.replaced (by decide) rfl hsegment
    exact Holds.deleted (by decide) (Holds.file (by decide) hsegments hdir)
  · match i, hi with
    | 1, _ => decide
    | 3, _ => decide
    | 5, _ => decide
    | 6, _ => decide
    | 7, _ => decide
    | 0, h | 2, h | 4, h => exact absurd h (by decide)
    | n + 8, h => exact absurd h erasedInode_not_valid

/-- The inodes are reclaimed to another block. -/
theorem deletedFirst_reclaimed : ∃ n, ∀ m, n ≤ m → ∃ e f' flash',
    inodesDevice.inodesReclaim m inodesFlash 1 = some (e, f', flash') ∧ e = effsOk ∧
      Reclaimed inodesDevice inodesFlash 1 leftObjects f' flash' := by
  have herased : ∀ b, inodesDevice.isBlock b bfIsFree → inodesFlash b = fun _ => erasedInode := by
    intro b hb
    refine if_neg ?_
    rintro rfl
    exact absurd hb (by decide)
  have hfree : ¬inodesDevice.Refused 1 := by
    unfold State.Refused
    decide
  obtain ⟨n, hn⟩ := inodesReclaim_preserves (f := inodesDevice) (by decide) deletedFirst_wellFormed herased
    (.inl (by decide)) (by decide) (by decide)
  refine ⟨n, fun m hm => ?_⟩
  obtain ⟨e, f', flash', hout, hok, hreclaimed, -⟩ := hn m hm
  have he : e = effsOk := hok.2 ⟨rfl, hfree⟩
  exact ⟨e, f', flash', hout, he, hreclaimed he⟩

end Citrine.Ffs
