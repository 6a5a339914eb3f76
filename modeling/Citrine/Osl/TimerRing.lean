import Mathlib.Data.List.Nodup
import Mathlib.Data.List.Perm.Subperm
import Citrine.Lib.Circle
import Citrine.Osl.Tim

/-!
# The ring of running timers

The remaining ticks along the ring add up to the time from `t_start_ticks` to the deadline of each timer
(`Tim.Ring`).  Here is what taking a timer out of the ring and putting one into it do to that, as long as no timer
behind the head is overdue.
-/

namespace Citrine.Osl

/-! ### Delays -/

/-- The ticks along a list lead from `base` to the offset of each member. -/
def Delays (r off : Nat → Nat) : Nat → List Nat → Prop
  | _, [] => True
  | base, x :: l => base + r x = off x ∧ Delays r off (off x) l

/-- The offset at the end of a list. -/
def endOffset (off : Nat → Nat) : Nat → List Nat → Nat
  | base, [] => base
  | _, x :: l => endOffset off (off x) l

section
variable {r r' off off' : Nat → Nat} {base : Nat} {l m : List Nat}

theorem delays_append : Delays r off base (l ++ m) ↔ Delays r off base l ∧ Delays r off (endOffset off base l) m := by
  induction l generalizing base with
  | nil => exact ⟨fun h => ⟨trivial, h⟩, fun h => h.2⟩
  | cons x l ih => simp only [List.cons_append, Delays, ih, endOffset, and_assoc]

theorem endOffset_append : endOffset off base (l ++ m) = endOffset off (endOffset off base l) m := by
  induction l generalizing base with
  | nil => rfl
  | cons x l ih => exact ih

theorem Delays.congr (h : Delays r off base l) (hr : ∀ x ∈ l, r' x = r x) (ho : ∀ x ∈ l, off' x = off x) :
    Delays r' off' base l := by
  induction l generalizing base with
  | nil => trivial
  | cons x l ih =>
    refine ⟨by rw [hr x (List.mem_cons_self ..), ho x (List.mem_cons_self ..)]; exact h.1, ?_⟩
    rw [ho x (List.mem_cons_self ..)]
    exact ih h.2 (fun y hy => hr y (List.mem_cons_of_mem _ hy)) fun y hy => ho y (List.mem_cons_of_mem _ hy)

/-- The offsets grow along the list. -/
theorem Delays.base_le (h : Delays r off base l) : ∀ x ∈ l, base ≤ off x := by
  induction l generalizing base with
  | nil => exact fun x hx => by cases hx
  | cons y l ih =>
    intro x hx
    have h1 := h.1
    rcases List.mem_cons.1 hx with rfl | hx
    · omega
    · exact Nat.le_trans (by omega) (ih h.2 x hx)

/-- The offsets and their base may be counted from a later time. -/
theorem Delays.shift (h : Delays r off base l) {d base' : Nat} (hb : base' + d = base)
    (ho : ∀ x ∈ l, off x = off' x + d) : Delays r off' base' l := by
  induction l generalizing base base' with
  | nil => trivial
  | cons x l ih =>
    have hx := ho x (List.mem_cons_self ..)
    have h1 := h.1
    refine ⟨by omega, ih h.2 hx.symm fun y hy => ho y (List.mem_cons_of_mem _ hy)⟩

/-- Where all offsets are the same, no ticks are between them. -/
theorem delays_const (h : ∀ x ∈ l, off x = base) : Delays r off base l ↔ ∀ x ∈ l, r x = 0 := by
  induction l with
  | nil => exact ⟨fun _ x hx => absurd hx List.not_mem_nil, fun _ => trivial⟩
  | cons x l ih =>
    have hx := h x (List.mem_cons_self ..)
    have hl := ih fun y hy => h y (List.mem_cons_of_mem _ hy)
    unfold Delays
    rw [hx, hl, List.forall_mem_cons]
    constructor
    · rintro ⟨h0, hrest⟩
      exact ⟨by omega, hrest⟩
    · rintro ⟨h0, hrest⟩
      exact ⟨by omega, hrest⟩

/-- Where no ticks are between the offsets, they are the same. -/
theorem Delays.same (h : Delays r off base l) (hr : ∀ x ∈ l, r x = 0) :
    (∀ x ∈ l, off x = base) ∧ endOffset off base l = base := by
  induction l generalizing base with
  | nil => exact ⟨fun x hx => absurd hx List.not_mem_nil, rfl⟩
  | cons x l ih =>
    have hx : off x = base := by
      have h0 := hr x (List.mem_cons_self ..)
      have h1 := h.1
      omega
    have hl := ih h.2 fun y hy => hr y (List.mem_cons_of_mem _ hy)
    rw [hx] at hl
    refine ⟨List.forall_mem_cons.2 ⟨hx, hl.1⟩, ?_⟩
    unfold endOffset
    rw [hx]
    exact hl.2

end

/-! ### The ring -/

/-- `2 ^ 31`: the relative times that the service is used with are below it. -/
def maxTicks : Nat := 0x80000000

/-- The remaining ticks of a timer. -/
def Tim.ticks (s : Tim) (x : Nat) : Nat := (s.timer x).rTicks

/-- The time from `t_start_ticks` to the deadline of a timer. -/
def Tim.offset (s : Tim) (x : Nat) : Nat := s.deadline x - s.startTime

/-- The running timers are the members of the list, in the order of their deadlines. -/
structure Tim.Ring (s : Tim) (l : List Nat) : Prop where
  head : s.running = l.head?
  circle : Circle s.next s.prev l
  nodup : l.Nodup
  active : ∀ x, (s.timer x).status = .active ↔ x ∈ l
  handles : ∀ x ∈ l, x ≤ s.maxSimultaneousTimer
  delays : Delays s.ticks s.offset 0 l
  sorted : l.Pairwise fun x y => s.deadline x ≤ s.deadline y
  small : ∀ x ∈ l, s.offset x < maxTicks
  periods : ∀ x ∈ l, (s.timer x).pTicks < maxTicks
  start : s.startTime % wordSize = s.startTicks ∧ s.startTime ≤ s.clock

section
variable {s t : Tim} {l pre post : List Nat} {x : Nat}

theorem Tim.Ring.length_le (h : s.Ring l) : l.length ≤ s.maxSimultaneousTimer + 1 := by
  have hsub : l ⊆ List.range (s.maxSimultaneousTimer + 1) := fun x hx =>
    List.mem_range.2 (Nat.lt_succ_of_le (h.handles x hx))
  have hle := (h.nodup.subperm hsub).length_le
  rwa [List.length_range] at hle

/-- What the ring does not depend on may change. -/
theorem Tim.Ring.congr (h : s.Ring l) (hrun : t.running = s.running) (hn : t.next = s.next) (hp : t.prev = s.prev)
    (ht : t.timer = s.timer) (hm : t.maxSimultaneousTimer = s.maxSimultaneousTimer) (hd : t.deadline = s.deadline)
    (hst : t.startTime = s.startTime) (hsti : t.startTicks = s.startTicks) (hc : s.clock ≤ t.clock) : t.Ring l := by
  have hticks : t.ticks = s.ticks := by
    funext x
    unfold Tim.ticks
    rw [ht]
  have hoff : t.offset = s.offset := by
    funext x
    unfold Tim.offset
    rw [hd, hst]
  refine ⟨hrun.trans h.head, ?_, h.nodup, ?_, ?_, ?_, ?_, ?_, ?_, ?_, ?_⟩
  · rw [hn, hp]
    exact h.circle
  · rw [ht]
    exact h.active
  · rw [hm]
    exact h.handles
  · rw [hticks, hoff]
    exact h.delays
  · rw [hd]
    exact h.sorted
  · rw [hoff]
    exact h.small
  · rw [ht]
    exact h.periods
  · rw [hst, hsti]
    exact h.start.1
  · rw [hst]
    exact Nat.le_trans h.start.2 hc

/-- The successor of a member inside the list. -/
theorem Tim.Ring.next_inner (h : s.Ring (pre ++ x :: post)) {n : Nat} (hp : post.head? = some n) :
    s.next x = some n := by
  cases post with
  | nil => cases hp
  | cons m post =>
    cases hp
    have hc := h.circle.rotate
    rw [List.cons_append, List.cons_append] at hc
    exact hc.next_eq

/-- The successor of the last member is the head. -/
theorem Tim.Ring.next_last (h : s.Ring (pre ++ [x])) : s.next x = s.running := by
  have hc := h.circle.rotate
  rw [h.head]
  cases pre with
  | nil => exact (circle_singleton.1 hc).1
  | cons m pre => exact hc.next_eq

end

/-! ### What stays -/

/-- An entry without its ticks and its status. -/
def TimerEntry.settings (e : TimerEntry) : TimerEntry := { e with rTicks := 0, status := .free }

/-- Work on the ring: it changes no settings, frees no timer, and takes no time. -/
structure Tim.Keeps (s t : Tim) : Prop where
  settings : ∀ x, (t.timer x).settings = (s.timer x).settings
  free : ∀ x, (t.timer x).status = .free ↔ (s.timer x).status = .free
  clock : t.clock = s.clock
  access : t.access = s.access
  maxSimultaneousTimer : t.maxSimultaneousTimer = s.maxSimultaneousTimer
  nextTHandle : t.nextTHandle = s.nextTHandle

section
variable {s t u : Tim} {x y v : Nat} {m : List Nat}

theorem Tim.Keeps.trans (h : s.Keeps t) (h' : t.Keeps u) : s.Keeps u :=
  ⟨fun x => (h'.settings x).trans (h.settings x), fun x => (h'.free x).trans (h.free x), h'.clock.trans h.clock,
    h'.access.trans h.access, h'.maxSimultaneousTimer.trans h.maxSimultaneousTimer,
    h'.nextTHandle.trans h.nextTHandle⟩

theorem Tim.Keeps.pTicks (h : s.Keeps t) (x : Nat) : (t.timer x).pTicks = (s.timer x).pTicks := by
  have := congrArg TimerEntry.pTicks (h.settings x)
  exact this

/-- A step that does not touch the entries. -/
theorem Tim.Keeps.of_timer (h : t.timer = s.timer) (hc : t.clock = s.clock) (ha : t.access = s.access)
    (hm : t.maxSimultaneousTimer = s.maxSimultaneousTimer) (hn : t.nextTHandle = s.nextTHandle) : s.Keeps t :=
  ⟨fun x => by rw [h], fun x => by rw [h], hc, ha, hm, hn⟩

theorem unlink_keeps : s.Keeps (s.unlink x) := .of_timer rfl rfl rfl rfl rfl

theorem link_keeps : s.Keeps (s.link x y) := .of_timer rfl rfl rfl rfl rfl

theorem setStart_keeps : s.Keeps s.setStart := .of_timer rfl rfl rfl rfl rfl

theorem setDeadline_keeps : s.Keeps (s.setDeadline x v) := .of_timer rfl rfl rfl rfl rfl

theorem resetTimer_keeps : s.Keeps (s.resetTimer v) := by
  unfold Tim.resetTimer
  split
  · exact .of_timer rfl rfl rfl rfl rfl
  · exact .of_timer rfl rfl rfl rfl rfl

private theorem setTicks_timer : (s.setTicks x v).timer = write s.timer x { s.timer x with rTicks := v } := rfl

private theorem setStatus_timer {st : TimerStatus} :
    (s.setStatus x st).timer = write s.timer x { s.timer x with status := st } := rfl

theorem setTicks_keeps : s.Keeps (s.setTicks x v) := by
  have hkeep : ∀ y, ((s.setTicks x v).timer y).settings = (s.timer y).settings ∧
      ((s.setTicks x v).timer y).status = (s.timer y).status := by
    intro y
    rw [setTicks_timer]
    by_cases hy : y = x
    · rw [hy, write_same]
      exact ⟨rfl, rfl⟩
    · rw [write_other _ _ hy]
      exact ⟨rfl, rfl⟩
  exact ⟨fun y => (hkeep y).1, fun y => by rw [(hkeep y).2], rfl, rfl, rfl, rfl⟩

theorem setStatus_keeps {st : TimerStatus} (hx : (s.timer x).status ≠ .free) (hst : st ≠ .free) :
    s.Keeps (s.setStatus x st) := by
  have hkeep : ∀ y, ((s.setStatus x st).timer y).settings = (s.timer y).settings ∧
      (((s.setStatus x st).timer y).status = .free ↔ (s.timer y).status = .free) := by
    intro y
    rw [setStatus_timer]
    by_cases hy : y = x
    · rw [hy, write_same]
      exact ⟨rfl, fun h => absurd h hst, fun h => absurd h hx⟩
    · rw [write_other _ _ hy]
      exact ⟨rfl, Iff.rfl⟩
  exact ⟨fun y => (hkeep y).1, fun y => (hkeep y).2, rfl, rfl, rfl, rfl⟩

@[simp] theorem setTicks_ticks_same : (s.setTicks x v).ticks x = v := by
  rw [Tim.ticks, setTicks_timer, write_same]

theorem setTicks_ticks_other (h : y ≠ x) : (s.setTicks x v).ticks y = s.ticks y := by
  rw [Tim.ticks, setTicks_timer, write_other _ _ h, Tim.ticks]

@[simp] theorem setTicks_status : ((s.setTicks x v).timer y).status = (s.timer y).status := by
  rw [setTicks_timer]
  by_cases h : y = x
  · rw [h, write_same]
  · rw [write_other _ _ h]

@[simp] theorem setStatus_ticks {st : TimerStatus} : (s.setStatus x st).ticks y = s.ticks y := by
  rw [Tim.ticks, setStatus_timer, Tim.ticks]
  by_cases h : y = x
  · rw [h, write_same]
  · rw [write_other _ _ h]

@[simp] theorem setStatus_status_same {st : TimerStatus} : ((s.setStatus x st).timer x).status = st := by
  rw [setStatus_timer, write_same]

theorem setStatus_status_other {st : TimerStatus} (h : y ≠ x) :
    ((s.setStatus x st).timer y).status = (s.timer y).status := by
  rw [setStatus_timer, write_other _ _ h]

/-- What `unlink` does to a circle. -/
theorem unlink_circle (hc : Circle s.next s.prev (x :: m)) (hd : (x :: m).Nodup) (hm : m ≠ []) :
    Circle (s.unlink x).next (s.unlink x).prev m ∧ s.next x = m.head? := by
  cases m with
  | nil => exact absurd rfl hm
  | cons b m =>
    obtain ⟨last, hprev, hnext, h⟩ := hc.remove hd
    refine ⟨?_, hnext⟩
    simp only [Tim.unlink, writeAt, hprev, hnext]
    rw [hprev, hnext] at h
    exact h

/-- What `link` does to a circle. -/
theorem link_circle (hc : Circle s.next s.prev (y :: m)) (hd : (y :: m).Nodup) (hx : x ∉ y :: m) :
    Circle (s.link x y).next (s.link x y).prev (x :: y :: m) := by
  obtain ⟨last, hprev, h⟩ := hc.insert hd hx
  simp only [Tim.link, writeAt, hprev]
  rw [hprev] at h
  exact h

end

/-! ### Taking a timer out -/

section
variable {s : Tim} {l pre post : List Nat} {x : Nat}

/-- The end of `os_remove_timer_from_list`. -/
private def Tim.leave (s : Tim) (x : Nat) : Tim :=
  { s.setStatus x .used with next := write s.next x none, prev := write s.prev x none }

private theorem leave_keeps (hx : (s.timer x).status = .active) : s.Keeps (s.leave x) :=
  (setStatus_keeps (by rw [hx]; exact TimerStatus.noConfusion) TimerStatus.noConfusion).trans
    (.of_timer rfl rfl rfl rfl rfl)

private theorem leave_circle (hc : Circle s.next s.prev l) (hx : x ∉ l) :
    Circle (s.leave x).next (s.leave x).prev l :=
  hc.congr (fun _ hy => write_other _ _ fun h => hx (h ▸ hy)) fun _ hy => write_other _ _ fun h => hx (h ▸ hy)

private theorem leave_status {y : Nat} :
    ((s.leave x).timer y).status = if y = x then .used else (s.timer y).status := by
  change ((s.setStatus x .used).timer y).status = _
  split
  · rename_i h
    rw [h, setStatus_status_same]
  · rename_i h
    exact setStatus_status_other h

private theorem leave_ticks {y : Nat} : (s.leave x).ticks y = s.ticks y := setStatus_ticks

/-- The statuses when one member has left. -/
private theorem active_without (ha : ∀ y, (s.timer y).status = .active ↔ y ∈ pre ++ x :: post)
    (hd : (pre ++ x :: post).Nodup) (y : Nat) :
    (if y = x then TimerStatus.used else (s.timer y).status) = .active ↔ y ∈ pre ++ post := by
  have hx : x ∉ pre ++ post := by
    rw [List.nodup_middle, List.nodup_cons] at hd
    exact hd.1
  split
  · rename_i h
    subst h
    exact ⟨fun h => (by cases h), fun h => absurd h hx⟩
  · rename_i h
    rw [ha y, List.mem_append, List.mem_append, List.mem_cons]
    constructor
    · rintro (h' | h' | h')
      · exact .inl h'
      · exact absurd h' h
      · exact .inr h'
    · rintro (h' | h')
      · exact .inl h'
      · exact .inr (.inr h')

/-- Taking a timer out changes no deadline and calls nothing. -/
theorem osRemoveTimerFromList_frame (x : Nat) (s : Tim) :
    (osRemoveTimerFromList x s).deadline = s.deadline ∧ (osRemoveTimerFromList x s).calls = s.calls := by
  have hreset : ∀ (t : Tim) v, (t.resetTimer v).deadline = t.deadline ∧ (t.resetTimer v).calls = t.calls := by
    intro t v
    unfold Tim.resetTimer
    split
    · exact ⟨rfl, rfl⟩
    · exact ⟨rfl, rfl⟩
  have hhead : (s.removeHead x).deadline = s.deadline ∧ (s.removeHead x).calls = s.calls := by
    have harm : ∀ (t : Tim) h, (t.setStart.resetTimer (t.timer h).rTicks).deadline = t.deadline ∧
        (t.setStart.resetTimer (t.timer h).rTicks).calls = t.calls := fun t h => hreset _ _
    unfold Tim.removeHead
    cases s.next x with
    | none =>
      dsimp only
      split
      · exact ⟨rfl, rfl⟩
      · exact harm _ _
    | some n =>
      dsimp only
      split
      · split
        · exact ⟨rfl, rfl⟩
        · exact ⟨rfl, rfl⟩
      · split
        · exact harm _ _
        · exact harm _ _
  have hlast : ∀ t : Tim, (if t.next x ≠ some x then t.unlink x else t).deadline = t.deadline ∧
      (if t.next x ≠ some x then t.unlink x else t).calls = t.calls := by
    intro t
    split
    · exact ⟨rfl, rfl⟩
    · exact ⟨rfl, rfl⟩
  unfold osRemoveTimerFromList
  refine ⟨(hlast _).1.trans ?_, (hlast _).2.trans ?_⟩
  · split
    · split
      · rfl
      · split <;> rfl
    · exact hhead.1
  · split
    · split
      · rfl
      · split <;> rfl
    · exact hhead.2

/-- A timer leaves that is not the head of the ring. -/
private theorem remove_inner (h : s.Ring (pre ++ x :: post)) (hpre : pre ≠ []) :
    (osRemoveTimerFromList x s).Ring (pre ++ post) ∧ s.Keeps (osRemoveTimerFromList x s) ∧
      (osRemoveTimerFromList x s).timerCb = s.timerCb ∧ (osRemoveTimerFromList x s).startTime = s.startTime := by
  have hd := h.nodup
  rw [List.nodup_middle, List.nodup_cons] at hd
  have hhead : s.running = (pre ++ post).head? := by
    rw [h.head]
    cases pre with
    | nil => exact absurd rfl hpre
    | cons a pre => rfl
  have hne : s.running ≠ some x := by
    intro hx
    rw [hhead] at hx
    exact hd.1 (List.mem_of_head? hx)
  have hpp : post ++ pre ≠ [] := fun hnil => hpre (List.append_eq_nil_iff.1 hnil).2
  have hc := h.circle.rotate
  have hdc : (x :: (post ++ pre)).Nodup := by
    rw [List.nodup_cons]
    exact ⟨fun hx => hd.1 ((List.perm_append_comm.mem_iff).1 hx), (List.perm_append_comm.nodup_iff).1 hd.2⟩
  rw [List.cons_append] at hc
  -- the ticks of the timer behind it
  obtain ⟨u, hu, huk, hun, hup, hur, huc, hus, hustat, hut⟩ : ∃ u : Tim,
      osRemoveTimerFromList x s = (if u.next x ≠ some x then u.unlink x else u).leave x ∧ s.Keeps u ∧
      u.next = s.next ∧ u.prev = s.prev ∧ u.running = s.running ∧ u.timerCb = s.timerCb ∧
      (u.startTime = s.startTime ∧ u.startTicks = s.startTicks) ∧
      (∀ y, (u.timer y).status = (s.timer y).status) ∧ Delays u.ticks s.offset 0 (pre ++ post) := by
    unfold osRemoveTimerFromList
    rw [if_pos hne]
    have hdel := h.delays
    rw [delays_append] at hdel
    cases post with
    | nil =>
      rw [h.next_last]
      have hrun : ∃ a, s.running = some a := by
        rw [hhead]
        cases pre with
        | nil => exact absurd rfl hpre
        | cons a pre => exact ⟨a, rfl⟩
      obtain ⟨a, ha⟩ := hrun
      rw [ha]
      simp only [ne_eq, not_true_eq_false, if_false]
      refine ⟨s, rfl, .of_timer rfl rfl rfl rfl rfl, rfl, rfl, ha ▸ rfl, rfl, ⟨rfl, rfl⟩, fun y => rfl, ?_⟩
      rw [List.append_nil]
      exact hdel.1
    | cons n post =>
      have hnext := h.next_inner (n := n) rfl
      have hnrun : some n ≠ s.running := by
        intro hn
        rw [h.head] at hn
        cases pre with
        | nil => exact hpre rfl
        | cons a pre =>
          cases hn
          rw [List.cons_append, List.nodup_cons] at hd
          exact hd.2.1 (by simp)
      rw [hnext]
      simp only [hnrun, ne_eq, not_false_eq_true, if_true]
      refine ⟨_, rfl, setTicks_keeps, rfl, rfl, rfl, rfl, ⟨rfl, rfl⟩, fun y => setTicks_status, ?_⟩
      obtain ⟨hd1, hx1, hn1, hd2⟩ := hdel
      have hsmall := h.small n (by simp)
      have hnx : n ∉ pre ∧ n ∉ post := by
        have := hd.2
        rw [List.nodup_middle, List.nodup_cons, List.mem_append, not_or] at this
        exact this.1
      have hsum : addWord (s.timer n).rTicks (s.timer x).rTicks = s.ticks n + s.ticks x := by
        unfold addWord
        rw [Nat.mod_eq_of_lt]
        · rfl
        · have h1 : maxTicks < wordSize := by decide
          change s.ticks n + s.ticks x < _
          omega
      rw [delays_append]
      refine ⟨hd1.congr (fun y hy => setTicks_ticks_other fun hyn => hnx.1 (hyn ▸ hy)) fun _ _ => rfl, ?_,
        hd2.congr (fun y hy => setTicks_ticks_other fun hyn => hnx.2 (hyn ▸ hy)) fun _ _ => rfl⟩
      rw [setTicks_ticks_same, hsum]
      omega
  have hunlink := unlink_circle (s := u) (by rw [hun, hup]; exact hc) hdc hpp
  have hself : u.next x ≠ some x := by
    rw [hunlink.2]
    intro hx
    rw [List.nodup_cons] at hdc
    exact hdc.1 (List.mem_of_head? hx)
  rw [if_pos hself] at hu
  have hkeeps : s.Keeps (osRemoveTimerFromList x s) := by
    rw [hu]
    refine huk.trans (unlink_keeps.trans (leave_keeps ?_))
    exact (hustat x).trans ((h.active x).2 (by simp))
  refine ⟨?_, hkeeps, by rw [hu]; exact huc, by rw [hu]; exact hus.1⟩
  have hmem : ∀ y ∈ pre ++ post, y ∈ pre ++ x :: post := fun y hy => by
    rw [List.mem_append] at hy ⊢
    exact hy.imp_right (List.mem_cons_of_mem _)
  have hoff : ∀ y, (osRemoveTimerFromList x s).offset y = s.offset y := by
    intro y
    unfold Tim.offset
    rw [(osRemoveTimerFromList_frame x s).1, hu]
    change _ - u.startTime = _
    rw [hus.1]
  constructor
  · rw [hu]
    exact hur.trans hhead
  · rw [hu]
    refine leave_circle ?_ hd.1
    exact hunlink.1.rotate
  · exact hd.2
  · intro y
    rw [hu, leave_status]
    change (if y = x then TimerStatus.used else (u.timer y).status) = _ ↔ _
    rw [hustat]
    exact active_without h.active h.nodup y
  · intro y hy
    rw [hkeeps.maxSimultaneousTimer]
    exact h.handles y (hmem y hy)
  · refine hut.congr (fun y _ => ?_) fun y _ => hoff y
    rw [hu, leave_ticks]
    rfl
  · rw [(osRemoveTimerFromList_frame x s).1]
    exact h.sorted.sublist (List.Sublist.append (List.Sublist.refl _) (List.sublist_cons_self _ _))
  · intro y hy
    rw [hoff]
    exact h.small y (hmem y hy)
  · intro y hy
    rw [hkeeps.pTicks]
    exact h.periods y (hmem y hy)
  · rw [hkeeps.clock, hu]
    change u.startTime % wordSize = u.startTicks ∧ u.startTime ≤ _
    rw [hus.1, hus.2]
    exact h.start

/-- The ticks up to the deadline of the timer behind the head, as the code computes them. -/
private theorem rest_ticks (hs : s.startTime % wordSize = s.startTicks ∧ s.startTime ≤ s.clock) {a b d : Nat}
    (hd : s.startTime + a + b = d) (hc : s.clock < d) (hb : d < s.startTime + wordSize) :
    subWord (addWord (addWord s.startTicks a) b) s.retrieveClock = d - s.clock := by
  have h := hs.1
  unfold subWord addWord Tim.retrieveClock
  unfold wordSize at *
  omega

private theorem removeHead_last (hx : s.next x = some x) :
    s.removeHead x = { s with running := none, timerCb := none } := by
  unfold Tim.removeHead
  rw [hx]
  simp only [if_pos, Tim.disableTimer]

private theorem removeHead_next {n v : Nat} (hn : s.next x = some n) (hnx : n ≠ x)
    (hv : subWord (addWord (addWord s.startTicks (s.timer x).rTicks) (s.timer n).rTicks) s.retrieveClock = v)
    (h0 : v ≠ 0) :
    s.removeHead x = { (s.setTicks n v).setStart with running := some n, timerCb := some (s.clock + v) } := by
  have hticks : (write s.timer n { s.timer n with rTicks := v } n).rTicks = v := by rw [write_same]
  unfold Tim.removeHead
  rw [hn]
  simp only [if_neg hnx, hv, Tim.setTicks, Tim.setStart, Tim.disableTimer, Tim.resetTimer, hticks, if_neg h0]
  rfl

/-- The head leaves, while the timer behind it is not yet due. -/
private theorem remove_head (h : s.Ring (x :: post)) (hdue : ∀ n, post.head? = some n → s.clock < s.deadline n) :
    (osRemoveTimerFromList x s).Ring post ∧ s.Keeps (osRemoveTimerFromList x s) ∧
      (osRemoveTimerFromList x s).timerCb = post.head?.map s.deadline ∧
      (post ≠ [] → (osRemoveTimerFromList x s).startTime = s.clock) := by
  have hrun : s.running = some x := h.head
  have hd := h.nodup
  rw [List.nodup_cons] at hd
  have hact : (s.timer x).status = .active := (h.active x).2 (List.mem_cons_self ..)
  have hactive := @active_without _ [] _ _ h.active h.nodup
  obtain ⟨hx, hdel⟩ := h.delays
  have hframe := osRemoveTimerFromList_frame x s
  have hoff : ∀ y, (osRemoveTimerFromList x s).offset y = s.deadline y - (osRemoveTimerFromList x s).startTime := by
    intro y
    unfold Tim.offset
    rw [hframe.1]
  cases post with
  | nil =>
    have hself : s.next x = some x := (circle_singleton.1 h.circle).1
    have hu : osRemoveTimerFromList x s = Tim.leave { s with running := none, timerCb := none } x := by
      unfold osRemoveTimerFromList
      rw [if_neg (not_not_intro hrun), removeHead_last hself]
      simp only [hself, ne_eq, not_true_eq_false, if_false]
      rfl
    rw [hu]
    refine ⟨⟨rfl, trivial, List.nodup_nil, fun y => ?_, fun y hy => absurd hy List.not_mem_nil, trivial,
      List.Pairwise.nil, fun y hy => absurd hy List.not_mem_nil, fun y hy => absurd hy List.not_mem_nil,
      h.start⟩, ?_, rfl, fun hn => absurd rfl hn⟩
    · rw [leave_status]
      exact hactive y
    · exact Tim.Keeps.trans (t := { s with running := none, timerCb := none }) (.of_timer rfl rfl rfl rfl rfl)
        (leave_keeps hact)
  | cons n rest =>
    have hn := h.circle.next_eq
    have hnx : n ≠ x := fun hnx => hd.1 (hnx ▸ List.mem_cons_self ..)
    have hclock := hdue n rfl
    have hsmall := h.small n (by simp)
    have hlt : maxTicks < wordSize := by decide
    have hst := h.start.2
    have hoffn : s.offset n = s.deadline n - s.startTime := rfl
    have hn1 : s.offset x + s.ticks n = s.offset n := hdel.1
    have hv := rest_ticks h.start (a := (s.timer x).rTicks) (b := (s.timer n).rTicks) (d := s.deadline n)
      (by
        change s.startTime + s.ticks x + s.ticks n = _
        omega) hclock (by omega)
    have hhead := removeHead_next hn hnx hv (by omega)
    let u : Tim := { (s.setTicks n (s.deadline n - s.clock)).setStart with
      running := some n, timerCb := some (s.clock + (s.deadline n - s.clock)) }
    have hunlink := unlink_circle (s := u) (x := x) (m := n :: rest) h.circle h.nodup (List.cons_ne_nil _ _)
    have hu : osRemoveTimerFromList x s = (u.unlink x).leave x := by
      unfold osRemoveTimerFromList
      rw [if_neg (not_not_intro hrun), hhead]
      have hself : u.next x ≠ some x := by
        change s.next x ≠ some x
        rw [hn]
        exact fun heq => hnx (Option.some.inj heq)
      change (if u.next x ≠ some x then u.unlink x else u).leave x = _
      rw [if_pos hself]
    have hku : s.Keeps u := setTicks_keeps.trans (.of_timer rfl rfl rfl rfl rfl)
    have hstat : ∀ y, (u.timer y).status = (s.timer y).status := fun y => setTicks_status
    have hkeeps : s.Keeps (osRemoveTimerFromList x s) := by
      rw [hu]
      exact hku.trans (unlink_keeps.trans (leave_keeps ((hstat x).trans hact)))
    have hstart : (osRemoveTimerFromList x s).startTime = s.clock := by
      rw [hu]
      rfl
    have hsorted := List.pairwise_cons.1 (List.pairwise_cons.1 h.sorted).2
    have hlater : ∀ y ∈ n :: rest, s.offset y = (osRemoveTimerFromList x s).offset y + (s.clock - s.startTime) := by
      intro y hy
      rw [hoff, hstart]
      unfold Tim.offset
      rcases List.mem_cons.1 hy with rfl | hy
      · omega
      · have := hsorted.1 y hy
        omega
    refine ⟨?_, hkeeps, ?_, fun _ => hstart⟩
    · constructor
      · rw [hu]
        rfl
      · rw [hu]
        exact leave_circle hunlink.1 hd.1
      · exact hd.2
      · intro y
        rw [hu, leave_status]
        change (if y = x then TimerStatus.used else (u.timer y).status) = _ ↔ _
        rw [hstat]
        exact hactive y
      · intro y hy
        rw [hkeeps.maxSimultaneousTimer]
        exact h.handles y (List.mem_cons_of_mem _ hy)
      · have hnr : n ∉ rest := (List.nodup_cons.1 hd.2).1
        have htn : (osRemoveTimerFromList x s).ticks n = s.deadline n - s.clock := by
          rw [hu, leave_ticks]
          exact setTicks_ticks_same
        refine ⟨?_, ?_⟩
        · rw [htn, hoff, hstart]
          omega
        · have hrest := hdel.2.shift (hlater n (List.mem_cons_self ..)).symm fun y hy =>
            hlater y (List.mem_cons_of_mem _ hy)
          refine hrest.congr (fun y hy => ?_) fun _ _ => rfl
          rw [hu, leave_ticks]
          exact setTicks_ticks_other fun hyn => hnr (hyn ▸ hy)
      · rw [hframe.1]
        exact (List.pairwise_cons.1 h.sorted).2
      · intro y hy
        have h1 := hlater y hy
        have h2 := h.small y (List.mem_cons_of_mem _ hy)
        omega
      · intro y hy
        rw [hkeeps.pTicks]
        exact h.periods y (List.mem_cons_of_mem _ hy)
      · rw [hkeeps.clock, hstart]
        refine ⟨?_, Nat.le_refl _⟩
        rw [hu]
        rfl
    · rw [hu]
      change some (s.clock + (s.deadline n - s.clock)) = some (s.deadline n)
      congr 1
      omega

/-- The hardware timer is set for the deadline of the head. -/
def Tim.Armed (s : Tim) : Prop := s.timerCb = s.running.map s.deadline

/-- When the head of the ring leaves, the timer behind it must not be due. -/
def Tim.removable (s : Tim) (x : Nat) : Bool :=
  s.running != some x ||
    match s.next x with
    | none => true
    | some n => n == x || decide (s.clock < s.deadline n)

/-- What `os_remove_timer_from_list` does to a ring. -/
structure Tim.Removed (s t : Tim) (x : Nat) (pre post : List Nat) : Prop where
  ring : t.Ring (pre ++ post)
  armed : t.Armed
  keeps : s.Keeps t
  deadline : t.deadline = s.deadline
  calls : t.calls = s.calls
  used : (t.timer x).status = .used
  start : pre ++ post = [] ∨ (pre = [] ∧ t.startTime = s.clock) ∨ (pre ≠ [] ∧ t.startTime = s.startTime)

/-- Taking a timer out of the ring leaves the others as they are. -/
theorem remove_ring (h : s.Ring l) (ha : s.Armed) (hx : (s.timer x).status = .active) (hr : s.removable x) :
    ∃ pre post, l = pre ++ x :: post ∧ s.Removed (osRemoveTimerFromList x s) x pre post := by
  obtain ⟨pre, post, rfl⟩ := List.append_of_mem ((h.active x).1 hx)
  refine ⟨pre, post, rfl, ?_⟩
  obtain ⟨hd, hcalls⟩ := osRemoveTimerFromList_frame x s
  have hused : ((osRemoveTimerFromList x s).timer x).status = .used := setStatus_status_same
  cases pre with
  | nil =>
    have hdue : ∀ n, post.head? = some n → s.clock < s.deadline n := by
      intro n hn
      cases post with
      | nil => cases hn
      | cons m post =>
        cases hn
        have hnx : (n == x) = false := by
          have hd := (List.nodup_cons.1 h.nodup).1
          simp only [List.mem_cons, not_or] at hd
          exact beq_eq_false_iff_ne.2 (Ne.symm hd.1)
        unfold Tim.removable at hr
        rw [h.circle.next_eq] at hr
        have hrun : s.running = some x := h.head
        simpa only [hrun, bne_self_eq_false, hnx, Bool.false_or, decide_eq_true_eq] using hr
    obtain ⟨hring, hkeeps, hcb, hstart⟩ := remove_head h hdue
    refine ⟨hring, ?_, hkeeps, hd, hcalls, hused, ?_⟩
    · unfold Tim.Armed
      rw [hd, hcb, hring.head]
    · cases post with
      | nil => exact .inl rfl
      | cons n post => exact .inr (.inl ⟨rfl, hstart (List.cons_ne_nil _ _)⟩)
  | cons a pre =>
    obtain ⟨hring, hkeeps, hcb, hstart⟩ := remove_inner h (List.cons_ne_nil a pre)
    refine ⟨hring, ?_, hkeeps, hd, hcalls, hused, .inr (.inr ⟨List.cons_ne_nil _ _, hstart⟩)⟩
    unfold Tim.Armed
    rw [hd, hcb, ha, hring.head, h.head]
    rfl

end

end Citrine.Osl
