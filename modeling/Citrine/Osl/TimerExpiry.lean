import Citrine.Osl.TimerRing

/-!
# Starting and expiring timers

What `os_add_timer_to_list` and `os_Timeout` do to the ring of running timers.  A new timer goes behind those that are
due no later than it (`add_ring`); `os_Timeout` takes the timers off that are due and puts the periodic ones back in
(`timeout_ring`).
-/

namespace Citrine.Osl

/-! ### When the head is overdue -/

/-- The head of the ring is not overdue. -/
def Tim.onTime (s : Tim) : Bool :=
  match s.running with
  | none => true
  | some h => decide (s.clock ≤ s.startTime + (s.timer h).rTicks)

/-- No running timer is due later than the head. -/
def Tim.allSame (s : Tim) : Bool :=
  match s.running with
  | none => true
  | some h =>
    (List.range (s.maxSimultaneousTimer + 1)).all fun x =>
      (s.timer x).status != .active || decide (s.deadline x ≤ s.deadline h)

/-- When a timer is put into the ring, the head must not be overdue, unless all timers are due together. -/
def Tim.addable (s : Tim) : Bool := s.onTime || (s.allSame && decide (s.clock < s.startTime + wordSize))

section
variable {s t u : Tim} {l before after rest : List Nat} {x h place ticks : Nat}

theorem allSame_iff (hr : s.Ring (h :: rest)) :
    s.allSame ↔ ∀ y ∈ h :: rest, s.deadline y ≤ s.deadline h := by
  have hrun : s.running = some h := hr.head
  unfold Tim.allSame
  rw [hrun]
  simp only [List.all_eq_true, List.mem_range, Bool.or_eq_true, bne_iff_ne, decide_eq_true_eq]
  constructor
  · intro hall y hy
    rcases hall y (Nat.lt_succ_of_le (hr.handles y hy)) with hn | hle
    · exact absurd ((hr.active y).2 hy) hn
    · exact hle
  · intro hall y _
    by_cases hy : (s.timer y).status = .active
    · exact .inr (hall y ((hr.active y).1 hy))
    · exact .inl hy

/-! ### Putting a timer in -/

/-- The ticks of the head are counted from now on. -/
private theorem rebase_ring (hr : s.Ring (h :: rest)) (hadd : s.addable) {r : Nat} (hv : leftTicks (s.timer h).rTicks s.retrieveClock s.startTicks = r) :
    ((s.setTicks h r).setStart).Ring (h :: rest) := by
  have hrun : s.running = some h := hr.head
  have hd := List.nodup_cons.1 hr.nodup
  have hx : 0 + s.ticks h = s.offset h := hr.delays.1
  have hst := hr.start
  have hoff : ∀ y, s.offset y = s.deadline y - s.startTime := fun _ => rfl
  have hticks : s.ticks h = (s.timer h).rTicks := rfl
  have hsmall := hr.small h (List.mem_cons_self ..)
  have hsorted := List.pairwise_cons.1 hr.sorted
  have hlt : s.clock < s.startTime + wordSize := by
    have hmax : maxTicks < wordSize := by decide
    unfold Tim.addable Tim.onTime at hadd
    rw [hrun] at hadd
    simp only [Bool.or_eq_true, Bool.and_eq_true, decide_eq_true_eq] at hadd
    omega
  have helapsed : subWord s.retrieveClock s.startTicks = s.clock - s.startTime := by
    have hs1 := hst.1
    unfold subWord Tim.retrieveClock
    unfold wordSize at *
    omega
  have hr1 : r = s.offset h - (s.clock - s.startTime) := by
    rw [← hv]
    unfold leftTicks
    simp only [helapsed]
    split
    · omega
    · omega
  -- the offsets from now on
  have hnew : ∀ y, ((s.setTicks h r).setStart).offset y = s.deadline y - s.clock := fun _ => rfl
  have hnewoff : ∀ y, ((s.setTicks h r).setStart).offset y = s.offset y - (s.clock - s.startTime) := by
    intro y
    rw [hnew, hoff]
    omega
  have hdelays : Delays ((s.setTicks h r).setStart).ticks ((s.setTicks h r).setStart).offset 0 (h :: rest) := by
    have hother : ∀ y ∈ rest, ((s.setTicks h r).setStart).ticks y = s.ticks y := fun y hy =>
      setTicks_ticks_other fun hyh => hd.1 (hyh ▸ hy)
    refine ⟨?_, ?_⟩
    · rw [show ((s.setTicks h r).setStart).ticks h = r from setTicks_ticks_same, hnewoff]
      omega
    · have hcase : s.clock - s.startTime ≤ s.offset h ∨ ∀ y ∈ h :: rest, s.deadline y ≤ s.deadline h := by
        unfold Tim.addable at hadd
        rw [Bool.or_eq_true, Bool.and_eq_true] at hadd
        rcases hadd with hon | ⟨hall, -⟩
        · left
          unfold Tim.onTime at hon
          rw [hrun] at hon
          simp only [decide_eq_true_eq] at hon
          omega
        · exact .inr ((allSame_iff hr).1 hall)
      rcases hcase with hle | hall
      · refine (hr.delays.2.shift (d := s.clock - s.startTime) ?_ fun y hy => ?_).congr hother fun _ _ => rfl
        · rw [hnewoff]
          omega
        · have hbase := hr.delays.2.base_le y hy
          rw [hnewoff]
          omega
      · have hsame : ∀ y ∈ rest, s.deadline y = s.deadline h := fun y hy =>
          Nat.le_antisymm (hall y (List.mem_cons_of_mem _ hy)) (hsorted.1 y hy)
        have hzero := (@delays_const _ _ (s.offset h) _ fun y hy => by rw [hoff, hsame y hy, hoff]).1 hr.delays.2
        refine (delays_const fun y hy => by rw [hnew, hsame y hy, hnew]).2 fun y hy => ?_
        rw [hother y hy]
        exact hzero y hy
  refine ⟨hrun, hr.circle, hr.nodup, fun y => ?_, hr.handles, hdelays, hr.sorted, fun y hy => ?_, fun y hy => ?_,
    rfl, Nat.le_refl _⟩
  · rw [← hr.active y]
    change ((s.setTicks h r).timer y).status = _ ↔ _
    rw [setTicks_status]
  · have := hr.small y hy
    rw [hnewoff]
    omega
  · have hkeeps : s.Keeps ((s.setTicks h r).setStart) := setTicks_keeps.trans setStart_keeps
    rw [hkeeps.pTicks]
    exact hr.periods y hy

/-- The end of `os_add_timer_to_list`. -/
private def Tim.enter (s : Tim) (x place ticks : Nat) : Tim := ((s.link x place).setTicks x ticks).setStatus x .active

private theorem enter_keeps (hx : (s.timer x).status ≠ .free) : s.Keeps (s.enter x place ticks) := by
  have hk : s.Keeps ((s.link x place).setTicks x ticks) := link_keeps.trans setTicks_keeps
  refine hk.trans (setStatus_keeps ?_ TimerStatus.noConfusion)
  rw [setTicks_status]
  exact hx

private theorem enter_ticks {y : Nat} : (s.enter x place ticks).ticks y = if y = x then ticks else s.ticks y := by
  unfold Tim.enter
  rw [setStatus_ticks]
  split
  · rename_i h
    rw [h, setTicks_ticks_same]
  · rename_i h
    rw [setTicks_ticks_other h]
    rfl

private theorem enter_status {y : Nat} :
    ((s.enter x place ticks).timer y).status = if y = x then .active else (s.timer y).status := by
  unfold Tim.enter
  split
  · rename_i h
    rw [h, setStatus_status_same]
  · rename_i h
    rw [setStatus_status_other h, setTicks_status]
    rfl

/-- A timer enters the ring between those due before it and those due after it. -/
private theorem enter_ring (hc : Circle s.next s.prev (before ++ after)) (hd : (before ++ after).Nodup)
    (hx : x ∉ before ++ after) (hplace : (after ++ before).head? = some place)
    (hhead : s.running = (before ++ x :: after).head?) (hact : ∀ y, (s.timer y).status = .active ↔ y ∈ before ++ after)
    (hh : ∀ y ∈ before ++ x :: after, y ≤ s.maxSimultaneousTimer) (hbefore : Delays s.ticks s.offset 0 before)
    (hticks : endOffset s.offset 0 before + ticks = s.offset x) (hafter : Delays s.ticks s.offset (s.offset x) after)
    (hsort : (before ++ x :: after).Pairwise fun y z => s.deadline y ≤ s.deadline z)
    (hsmall : ∀ y ∈ before ++ x :: after, s.offset y < maxTicks)
    (hperiods : ∀ y ∈ before ++ x :: after, (s.timer y).pTicks < maxTicks)
    (hstart : s.startTime % wordSize = s.startTicks ∧ s.startTime ≤ s.clock) (hfree : (s.timer x).status ≠ .free) :
    (s.enter x place ticks).Ring (before ++ x :: after) := by
  have hmem : ∀ {y}, y ∈ before ++ x :: after ↔ y = x ∨ y ∈ before ++ after := by
    intro y
    simp only [List.mem_append, List.mem_cons]
    exact or_left_comm
  have hperm : ∀ {y}, y ∈ after ++ before ↔ y ∈ before ++ after := by
    intro y
    exact List.perm_append_comm.mem_iff
  have hcircle : Circle (s.link x place).next (s.link x place).prev (before ++ x :: after) := by
    have hrot := hc.rotate
    have hda : (after ++ before).Nodup := (List.perm_append_comm.nodup_iff).1 hd
    obtain ⟨m, hm⟩ : ∃ m, after ++ before = place :: m := by
      cases hl : after ++ before with
      | nil => rw [hl] at hplace; cases hplace
      | cons a m => rw [hl] at hplace; cases hplace; exact ⟨m, rfl⟩
    have hxm : x ∉ place :: m := by
      rw [← hm]
      exact fun h => hx (hperm.1 h)
    rw [hm] at hrot hda
    have hlink := link_circle hrot hda hxm
    rw [← hm, ← List.cons_append] at hlink
    exact hlink.rotate
  have hne : ∀ y ∈ before ++ after, y ≠ x := fun y hy hyx => hx (hyx ▸ hy)
  refine ⟨hhead, hcircle, ?_, fun y => ?_, hh, ?_, hsort, hsmall, fun y hy => ?_, hstart⟩
  · rw [List.nodup_middle, List.nodup_cons]
    exact ⟨hx, hd⟩
  · rw [enter_status, hmem]
    split
    · rename_i h
      exact ⟨fun _ => .inl h, fun _ => rfl⟩
    · rename_i h
      rw [hact]
      exact ⟨.inr, fun h' => h'.resolve_left h⟩
  · have hother : ∀ y ∈ before ++ after, (s.enter x place ticks).ticks y = s.ticks y := fun y hy => by
      rw [enter_ticks, if_neg (hne y hy)]
    rw [delays_append]
    refine ⟨hbefore.congr (fun y hy => hother y (List.mem_append_left _ hy)) fun _ _ => rfl, ?_,
      hafter.congr (fun y hy => hother y (List.mem_append_right _ hy)) fun _ _ => rfl⟩
    rw [enter_ticks, if_pos rfl]
    exact hticks
  · rw [(enter_keeps hfree).pTicks]
    exact hperiods y hy

/-- The loop of `os_add_timer_to_list` finds the first timer that is due later. -/
private theorem findPlace_eq {fuel : Nat} (hr : s.Ring (before ++ place :: after)) (hrun : s.running = some h)
    (hfuel : after.length < fuel) (hend : endOffset s.offset 0 before ≤ ticks)
    (hbefore : ∀ y ∈ before, s.offset y ≤ ticks) :
    (∃ before' place' after', before ++ place :: after = before' ++ place' :: after' ∧
      findPlace s fuel (ticks - endOffset s.offset 0 before) place (s.timer place).rTicks =
        some (place', ticks - endOffset s.offset 0 before', false) ∧
      endOffset s.offset 0 before' ≤ ticks ∧ ticks < s.offset place' ∧ ∀ y ∈ before', s.offset y ≤ ticks) ∨
    (findPlace s fuel (ticks - endOffset s.offset 0 before) place (s.timer place).rTicks =
        some (h, ticks - endOffset s.offset 0 (before ++ place :: after), true) ∧
      endOffset s.offset 0 (before ++ place :: after) ≤ ticks ∧
      ∀ y ∈ before ++ place :: after, s.offset y ≤ ticks) := by
  induction fuel generalizing before place after with
  | zero => omega
  | succ fuel ih =>
    have hdel := (delays_append.1 hr.delays).2.1
    have hticks : s.ticks place = (s.timer place).rTicks := rfl
    have hsub : ticks - endOffset s.offset 0 before - (s.timer place).rTicks = ticks - s.offset place := by omega
    have hlast : endOffset s.offset 0 (before ++ [place]) = s.offset place := by
      rw [endOffset_append]
      rfl
    unfold findPlace
    by_cases hge : ticks - endOffset s.offset 0 before ≥ (s.timer place).rTicks
    · rw [if_pos hge]
      have hle : s.offset place ≤ ticks := by omega
      have hall : ∀ y ∈ before ++ [place], s.offset y ≤ ticks := by
        intro y hy
        rcases List.mem_append.1 hy with hy | hy
        · exact hbefore y hy
        · rw [List.mem_singleton.1 hy]
          exact hle
      cases after with
      | nil =>
        right
        rw [hr.next_last, hrun]
        simp only [if_pos, hsub, hlast]
        exact ⟨trivial, hle, hall⟩
      | cons n after =>
        have hn : s.next place = some n := hr.next_inner rfl
        have hnr : s.running ≠ some n := by
          rw [hr.head]
          intro hhead
          have hd := hr.nodup
          cases before with
          | nil =>
            have : place = n := Option.some.inj hhead
            rw [List.nil_append, List.nodup_cons] at hd
            exact hd.1 (this ▸ List.mem_cons_self ..)
          | cons b before =>
            have : b = n := Option.some.inj hhead
            rw [List.cons_append, List.nodup_cons] at hd
            exact hd.1 (by rw [this]; simp)
        rw [hn]
        simp only [if_neg hnr, hsub]
        have hassoc : before ++ place :: n :: after = (before ++ [place]) ++ n :: after := by
          rw [List.append_assoc, List.singleton_append]
        rw [← hlast, hassoc]
        rw [hassoc] at hr
        refine ih hr ?_ (by rw [hlast]; exact hle) hall
        rw [List.length_cons] at hfuel
        omega
    · rw [if_neg hge]
      exact .inl ⟨before, place, after, rfl, rfl, hend, by omega, hbefore⟩

/-- The deadline of a timer outside the ring does not matter to it. -/
private theorem Tim.Ring.set_deadline (hr : s.Ring l) (hx : x ∉ l) (d : Nat) : (s.setDeadline x d).Ring l := by
  have hd : ∀ y ∈ l, (s.setDeadline x d).deadline y = s.deadline y := fun y hy =>
    write_other _ _ fun hyx => hx (hyx ▸ hy)
  have hoff : ∀ y ∈ l, (s.setDeadline x d).offset y = s.offset y := fun y hy => by
    unfold Tim.offset
    rw [hd y hy]
    rfl
  refine ⟨hr.head, hr.circle, hr.nodup, hr.active, hr.handles, hr.delays.congr (fun _ _ => rfl) hoff, ?_,
    fun y hy => ?_, hr.periods, hr.start⟩
  · refine hr.sorted.imp_of_mem fun {y z} hy hz hyz => ?_
    rw [hd y hy, hd z hz]
    exact hyz
  · rw [hoff y hy]
    exact hr.small y hy

theorem Tim.Ring.resetTimer (hr : s.Ring l) (v : Nat) : (s.resetTimer v).Ring l := by
  unfold Tim.resetTimer
  split
  · exact hr
  · exact hr.congr rfl rfl rfl rfl rfl rfl rfl rfl (Nat.le_refl _)

/-- What `os_add_timer_to_list` and the setting of the hardware timer behind it do. -/
structure Tim.Added (s t : Tim) (x n : Nat) (before after : List Nat) : Prop where
  ring : t.Ring (before ++ x :: after)
  armed : t.Armed
  keeps : s.Keeps t
  deadline : t.deadline = write s.deadline x (s.clock + n)
  calls : t.calls = s.calls
  startTime : t.startTime = s.clock

/-- A timer enters the ring in front of the first one that is due later. -/
private theorem enter_inner {w : Tim} {n k : Nat} (hr : s.Ring (before ++ place :: after))
    (hx : x ∉ before ++ place :: after) (hox : s.offset x = n) (hpos : n ≠ 0) (hn : n < maxTicks)
    (hk : endOffset s.offset 0 before + k = n) (hbefore : ∀ y ∈ before, s.offset y ≤ n) (hplace : n < s.offset place)
    (hle : x ≤ s.maxSimultaneousTimer) (hp : (s.timer x).pTicks < maxTicks) (hfree : (s.timer x).status ≠ .free)
    (hw : w.timer = (s.setTicks place (s.ticks place - k)).timer) (hnext : w.next = s.next) (hprev : w.prev = s.prev)
    (hdead : w.deadline = s.deadline) (hst : w.startTime = s.startTime) (hsti : w.startTicks = s.startTicks)
    (hclock : w.clock = s.clock) (hmax : w.maxSimultaneousTimer = s.maxSimultaneousTimer)
    (hrun : w.running = (before ++ x :: place :: after).head?) :
    (w.enter x place k).Ring (before ++ x :: place :: after) := by
  have hoff : w.offset = s.offset := by
    funext y
    unfold Tim.offset
    rw [hdead, hst]
  have hticks : ∀ y, y ≠ place → w.ticks y = s.ticks y := fun y hy => by
    unfold Tim.ticks
    rw [hw]
    exact setTicks_ticks_other hy
  have htp : w.ticks place = s.ticks place - k := by
    unfold Tim.ticks
    rw [hw]
    exact setTicks_ticks_same
  have hstat : ∀ y, (w.timer y).status = (s.timer y).status := fun y => by
    rw [hw]
    exact setTicks_status
  have hperiod : ∀ y, (w.timer y).pTicks = (s.timer y).pTicks := fun y => by
    rw [hw]
    exact setTicks_keeps.pTicks y
  have hd := hr.nodup
  rw [List.nodup_middle, List.nodup_cons] at hd
  have hnp : ∀ y ∈ before ++ after, y ≠ place := fun y hy hyp => hd.1 (hyp ▸ hy)
  obtain ⟨hdb, hdp, hda⟩ := delays_append.1 hr.delays
  have hmem : ∀ {y}, y ∈ before ++ x :: place :: after ↔ y = x ∨ y ∈ before ++ place :: after := by
    intro y
    simp only [List.mem_append, List.mem_cons]
    exact or_left_comm
  have hdx : ∀ y, s.deadline y - s.startTime = s.offset y := fun _ => rfl
  have hxd := hdx x
  refine enter_ring ?_ hr.nodup hx rfl hrun (fun y => ?_) (fun y hy => ?_) ?_ ?_ ?_ ?_ (fun y hy => ?_)
    (fun y hy => ?_) ?_ ?_
  · rw [hnext, hprev]
    exact hr.circle
  · rw [hstat]
    exact hr.active y
  · rw [hmax]
    rcases hmem.1 hy with rfl | hy
    · exact hle
    · exact hr.handles y hy
  · rw [hoff]
    exact hdb.congr (fun y hy => hticks y (hnp y (List.mem_append_left _ hy))) fun _ _ => rfl
  · rw [hoff, hox]
    exact hk
  · rw [hoff]
    refine ⟨by rw [htp]; omega, ?_⟩
    exact hda.congr (fun y hy => hticks y (hnp y (List.mem_append_right _ hy))) fun _ _ => rfl
  · rw [hdead]
    have hsort := List.pairwise_append.1 hr.sorted
    have hsortp := List.pairwise_cons.1 hsort.2.1
    have hpd := hdx place
    rw [List.pairwise_append, List.pairwise_cons]
    refine ⟨hsort.1, ⟨fun y hy => ?_, hsort.2.1⟩, fun y hy z hz => ?_⟩
    · rcases List.mem_cons.1 hy with rfl | hy
      · omega
      · have := hsortp.1 y hy
        omega
    · rcases List.mem_cons.1 hz with rfl | hz
      · have h1 := hbefore y hy
        have h2 := hdx y
        omega
      · exact hsort.2.2 y hy z hz
  · rw [hoff]
    rcases hmem.1 hy with rfl | hy
    · rw [hox]
      exact hn
    · exact hr.small y hy
  · rw [hperiod]
    rcases hmem.1 hy with rfl | hy
    · exact hp
    · exact hr.periods y hy
  · rw [hst, hsti, hclock]
    exact hr.start
  · rw [hstat]
    exact hfree

/-- A timer enters the ring behind the last one. -/
private theorem enter_end {n k : Nat} (hr : s.Ring l) (hx : x ∉ l) (hox : s.offset x = n) (hpos : n ≠ 0)
    (hn : n < maxTicks) (hk : endOffset s.offset 0 l + k = n) (hbefore : ∀ y ∈ l, s.offset y ≤ n)
    (hplace : l.head? = some place) (hle : x ≤ s.maxSimultaneousTimer) (hp : (s.timer x).pTicks < maxTicks)
    (hfree : (s.timer x).status ≠ .free) : (s.enter x place k).Ring (l ++ [x]) := by
  have hdx : ∀ y, s.deadline y - s.startTime = s.offset y := fun _ => rfl
  have hxd := hdx x
  have hmem : ∀ {y}, y ∈ l ++ [x] ↔ y ∈ l ∨ y = x := by
    intro y
    rw [List.mem_append, List.mem_singleton]
  refine enter_ring (by rw [List.append_nil]; exact hr.circle) (by rw [List.append_nil]; exact hr.nodup)
    (by rw [List.append_nil]; exact hx) hplace ?_ (fun y => ?_) (fun y hy => ?_) hr.delays ?_ trivial ?_
    (fun y hy => ?_) (fun y hy => ?_) hr.start hfree
  · rw [hr.head]
    cases l with
    | nil => cases hplace
    | cons a l => rfl
  · rw [List.append_nil]
    exact hr.active y
  · rcases hmem.1 hy with hy | rfl
    · exact hr.handles y hy
    · exact hle
  · rw [hox]
    exact hk
  · rw [List.pairwise_append]
    refine ⟨hr.sorted, List.pairwise_singleton .., fun y hy z hz => ?_⟩
    rw [List.mem_singleton.1 hz]
    have h1 := hbefore y hy
    have h2 := hdx y
    omega
  · rcases hmem.1 hy with hy | rfl
    · exact hr.small y hy
    · rw [hox]
      exact hn
  · rcases hmem.1 hy with hy | rfl
    · exact hr.periods y hy
    · exact hp

private theorem add_running {atEnd : Bool} {k n r : Nat} (hrun : s.running = some h)
    (hn : (if ticks = 0 then 1 else ticks) = n) (hv : leftTicks (s.timer h).rTicks s.retrieveClock s.startTicks = r)
    (hu : ((s.setDeadline x (s.clock + n)).setTicks h r).setStart = u)
    (hfind : findPlace u (u.maxSimultaneousTimer + 1) n h r = some (place, k, atEnd)) :
    osAddTimerToList x ticks s = some (u.insert x h place k atEnd) := by
  have hrun' : ∀ d, (s.setDeadline x d).running = some h := fun _ => hrun
  have hv' : ∀ d, leftTicks ((s.setDeadline x d).timer h).rTicks (s.setDeadline x d).retrieveClock
      (s.setDeadline x d).startTicks = r := fun _ => hv
  unfold osAddTimerToList
  simp only [hn, hrun', hv', hu, hfind, Option.map_some]

private theorem insert_end {k : Nat} : s.insert x h place k true = (s.enter x place k, 0) := rfl

private theorem insert_inner {k : Nat} (hne : place ≠ h) :
    s.insert x h place k false = ((s.setTicks place ((s.timer place).rTicks - k)).enter x place k, 0) := by
  have hb : (false || place != h) = true := by rw [Bool.false_or, bne_iff_ne]; exact hne
  unfold Tim.insert
  simp only [hb, Bool.false_eq_true, if_true, if_false]
  rfl

private theorem insert_head {k : Nat} :
    s.insert x h h k false =
      (Tim.enter { (s.setTicks h ((s.timer h).rTicks - k)).setStart with running := some x, timerCb := none } x h k, k) := by
  have hb : (false || h != h) = false := by rw [Bool.false_or, bne_self_eq_false]
  unfold Tim.insert
  simp only [hb, Bool.false_eq_true, if_false]
  rfl

/-- What is left when the ring, the deadline and the hardware timer are known. -/
private theorem Tim.Added.of_enter {w : Tim} {n k v : Nat} (hring : (w.enter x place k).Ring (before ++ x :: after))
    (hk : s.Keeps w) (hfree : (s.timer x).status ≠ .free) (hd : w.deadline = write s.deadline x (s.clock + n))
    (hc : w.calls = s.calls) (hst : w.startTime = s.clock)
    (harm : (w.resetTimer v).timerCb = w.running.map w.deadline) :
    s.Added ((w.enter x place k).resetTimer v) x n before after := by
  have hcb : ((w.enter x place k).resetTimer v).timerCb = (w.resetTimer v).timerCb ∧
      ((w.enter x place k).resetTimer v).running = w.running ∧
      ((w.enter x place k).resetTimer v).deadline = w.deadline ∧
      ((w.enter x place k).resetTimer v).calls = w.calls ∧
      ((w.enter x place k).resetTimer v).startTime = w.startTime := by
    unfold Tim.resetTimer
    split
    · exact ⟨rfl, rfl, rfl, rfl, rfl⟩
    · exact ⟨rfl, rfl, rfl, rfl, rfl⟩
  refine ⟨hring.resetTimer v, ?_, hk.trans ((enter_keeps ?_).trans resetTimer_keeps), hcb.2.2.1.trans hd,
    hcb.2.2.2.1.trans hc, hcb.2.2.2.2.trans hst⟩
  · unfold Tim.Armed
    rw [hcb.1, hcb.2.1, hcb.2.2.1]
    exact harm
  · rw [ne_eq, hk.free]
    exact hfree

/-- A timer becomes the only member of the ring. -/
private theorem add_first {n : Nat} (hr : s.Ring []) (hk : s.Keeps u) (htimer : u.timer = s.timer)
    (hnext : u.next x = some x) (hprev : u.prev x = some x) (hrun : u.running = some x)
    (hd : u.deadline = write s.deadline x (s.clock + n)) (hcalls : u.calls = s.calls) (hpos : n ≠ 0)
    (hn : n < maxTicks) (hle : x ≤ s.maxSimultaneousTimer) (hp : (s.timer x).pTicks < maxTicks)
    (hfree : (s.timer x).status ≠ .free) :
    s.Added (((u.setTicks x n).setStart.setStatus x .active).resetTimer n) x n [] [] := by
  obtain ⟨t, ht⟩ : ∃ t, (u.setTicks x n).setStart.setStatus x .active = t := ⟨_, rfl⟩
  have hkt : s.Keeps t := by
    rw [← ht]
    refine hk.trans ((setTicks_keeps.trans setStart_keeps).trans (setStatus_keeps ?_ TimerStatus.noConfusion))
    change ((u.setTicks x n).timer x).status ≠ _
    rw [setTicks_status, ne_eq, hk.free]
    exact hfree
  have hdt : t.deadline = write s.deadline x (s.clock + n) := by rw [← ht]; exact hd
  have hct : t.calls = s.calls ∧ t.startTime = t.clock ∧ t.startTicks = t.clock % wordSize ∧ t.running = some x ∧
      t.next = u.next ∧ t.prev = u.prev := by
    rw [← ht]
    exact ⟨hcalls, rfl, rfl, hrun, rfl, rfl⟩
  have hticks : t.ticks x = n := by
    rw [← ht, setStatus_ticks]
    exact setTicks_ticks_same
  have hoff : t.offset x = n := by
    unfold Tim.offset
    rw [hdt, write_same, hct.2.1, hkt.clock]
    omega
  have hring : t.Ring [x] := by
    refine ⟨hct.2.2.2.1, ?_, List.nodup_singleton x, fun y => ?_, fun y hy => ?_, ⟨by omega, trivial⟩,
      List.pairwise_singleton .., fun y hy => ?_, fun y hy => ?_, ?_⟩
    · rw [hct.2.2.2.2.1, hct.2.2.2.2.2]
      exact circle_singleton.2 ⟨hnext, hprev⟩
    · rw [List.mem_singleton]
      constructor
      · intro hy
        by_cases hyx : y = x
        · exact hyx
        · rw [← ht, setStatus_status_other hyx] at hy
          change ((u.setTicks x n).timer y).status = _ at hy
          rw [setTicks_status, htimer] at hy
          exact absurd ((hr.active y).1 hy) List.not_mem_nil
      · rintro rfl
        rw [← ht]
        exact setStatus_status_same
    · rw [List.mem_singleton.1 hy, hkt.maxSimultaneousTimer]
      exact hle
    · rw [List.mem_singleton.1 hy, hoff]
      exact hn
    · rw [List.mem_singleton.1 hy, hkt.pTicks]
      exact hp
    · rw [hct.2.1, hct.2.2.1]
      exact ⟨rfl, Nat.le_refl _⟩
  rw [ht]
  have hset : t.resetTimer n = { t with timerCb := some (t.clock + n) } := if_neg hpos
  refine ⟨hring.resetTimer n, ?_, hkt.trans resetTimer_keeps, ?_, ?_, ?_⟩
  · unfold Tim.Armed
    rw [hset]
    change some (t.clock + n) = t.running.map t.deadline
    rw [hct.2.2.2.1, hdt, hkt.clock]
    exact congrArg some (write_same ..).symm
  · rw [hset]
    exact hdt
  · rw [hset]
    exact hct.1
  · rw [hset]
    exact hct.2.1.trans hkt.clock

/-- A timer that is put into the ring is due after its ticks, and the others stay as they are. -/
theorem add_ring (hr : s.Ring l) (ha : s.Armed) (hadd : s.addable) (hx : (s.timer x).status = .used)
    (hle : x ≤ s.maxSimultaneousTimer) (ht : ticks < maxTicks) (hp : (s.timer x).pTicks < maxTicks) :
    ∃ t v before after, osAddTimerToList x ticks s = some (t, v) ∧ l = before ++ after ∧
      s.Added (t.resetTimer v) x (if ticks = 0 then 1 else ticks) before after := by
  have hxl : x ∉ l := fun h => by
    have := (hr.active x).2 h
    rw [hx] at this
    cases this
  have hfree : (s.timer x).status ≠ .free := by
    rw [hx]
    exact TimerStatus.noConfusion
  have hpos : (if ticks = 0 then 1 else ticks) ≠ 0 := by split <;> omega
  have hsmall : (if ticks = 0 then 1 else ticks) < maxTicks := by
    have : 1 < maxTicks := by decide
    split <;> omega
  generalize hn : (if ticks = 0 then 1 else ticks) = n at hpos hsmall ⊢
  cases l with
  | nil =>
    have hrun : s.running = none := hr.head
    let u : Tim := { s.setDeadline x (s.clock + n) with
      next := write s.next x (some x), prev := write s.prev x (some x), running := some x }
    refine ⟨(u.setTicks x n).setStart.setStatus x .active, n, [], [], ?_, rfl, ?_⟩
    · have hrun' : ∀ d, (s.setDeadline x d).running = none := fun _ => hrun
      unfold osAddTimerToList
      simp only [hn, hrun']
      rfl
    · have hsu : s.Keeps u := .of_timer rfl rfl rfl rfl rfl
      exact add_first hr hsu rfl (write_same ..) (write_same ..) rfl rfl rfl hpos hsmall hle hp hfree
  | cons h rest =>
    have hrun : s.running = some h := hr.head
    obtain ⟨r, hv⟩ : ∃ r, leftTicks (s.timer h).rTicks s.retrieveClock s.startTicks = r := ⟨_, rfl⟩
    obtain ⟨u, hu⟩ : ∃ u, ((s.setDeadline x (s.clock + n)).setTicks h r).setStart = u := ⟨_, rfl⟩
    have hur : u.Ring (h :: rest) := by
      rw [← hu]
      exact (rebase_ring hr hadd hv).set_deadline hxl _
    have huk : s.Keeps u := by
      rw [← hu]
      exact setDeadline_keeps.trans (setTicks_keeps.trans setStart_keeps)
    have hud : u.deadline = write s.deadline x (s.clock + n) := by rw [← hu]; rfl
    have hux : u.offset x = n := by
      rw [← hu]
      change write s.deadline x (s.clock + n) x - s.clock = n
      rw [write_same]
      omega
    have huc : u.calls = s.calls ∧ u.startTime = s.clock ∧ u.timerCb = s.timerCb ∧ u.running = s.running := by
      rw [← hu]
      exact ⟨rfl, rfl, rfl, rfl⟩
    have hticks : r = (u.timer h).rTicks := by
      rw [← hu]
      exact (setTicks_ticks_same (s := s.setDeadline x (s.clock + n))).symm
    have hufree : (u.timer x).status ≠ .free := by
      rw [ne_eq, huk.free]
      exact hfree
    have hup : (u.timer x).pTicks < maxTicks := by
      rw [huk.pTicks]
      exact hp
    have hule : x ≤ u.maxSimultaneousTimer := by
      rw [huk.maxSimultaneousTimer]
      exact hle
    have harm : u.timerCb = u.running.map u.deadline := by
      rw [huc.2.2.1, huc.2.2.2, hud, ha, hrun]
      refine congrArg some (write_other _ _ fun hhx => hxl ?_).symm
      rw [← hhx]
      exact List.mem_cons_self ..
    have hfind := @findPlace_eq _ [] _ _ _ n (u.maxSimultaneousTimer + 1) hur
      (huc.2.2.2.trans hrun) (by have := hur.length_le; rw [List.length_cons] at this; omega) (Nat.zero_le _)
      (fun y hy => absurd hy List.not_mem_nil)
    change (∃ before' place' after', _ ∧ findPlace u _ (n - 0) h _ = _ ∧ _) ∨ findPlace u _ (n - 0) h _ = _ ∧ _ at hfind
    rw [Nat.sub_zero, ← hticks] at hfind
    rcases hfind with ⟨before, place, after, hl, hfind, hend, hlt, hbefore⟩ | ⟨hfind, hend, hbefore⟩
    · rw [List.nil_append] at hl
      rw [hl] at hur hxl
      cases before with
      | nil =>
        have hph : place = h := (List.cons.inj hl).1.symm
        subst hph
        have hres := add_running hrun hn hv hu hfind
        rw [insert_head] at hres
        refine ⟨_, _, [], place :: after, hres, hl, ?_⟩
        · have hstart := hur.start
          have hnow : u.startTime = u.clock := huc.2.1.trans huk.clock.symm
          refine @Tim.Added.of_enter _ [] _ _ _ _ _ _ _ ?_ (huk.trans ?_) hfree hud huc.1 huk.clock ?_
          · refine enter_inner hur hxl hux hpos hsmall (by omega) hbefore hlt hule hup hufree rfl rfl rfl rfl hnow.symm
              ?_ rfl rfl rfl
            change u.clock % wordSize = u.startTicks
            rw [← hnow]
            exact hstart.1
          · exact setTicks_keeps.trans (setStart_keeps.trans (.of_timer rfl rfl rfl rfl rfl))
          · rw [show n - endOffset u.offset 0 [] = n from rfl, Tim.resetTimer, if_neg hpos]
            change some (u.clock + n) = some (u.deadline x)
            rw [hud, write_same, huk.clock]
      | cons b before =>
        have hbh : b = h := (List.cons.inj hl).1.symm
        have hne : place ≠ h := by
          rintro rfl
          have hd := hur.nodup
          rw [List.cons_append, List.nodup_cons] at hd
          exact hd.1 (by rw [hbh]; simp)
        have hres := add_running hrun hn hv hu hfind
        rw [insert_inner hne] at hres
        refine ⟨_, _, b :: before, place :: after, hres, hl, ?_⟩
        · refine Tim.Added.of_enter ?_ (huk.trans setTicks_keeps) hfree hud huc.1 huc.2.1 ?_
          · refine enter_inner hur hxl hux hpos hsmall (by omega) hbefore hlt hule hup hufree rfl rfl rfl rfl rfl rfl rfl
              rfl ?_
            rw [hbh]
            exact huc.2.2.2.trans hrun
          · exact harm
    · have hres := add_running hrun hn hv hu hfind
      rw [insert_end] at hres
      refine ⟨_, _, h :: rest, [], hres, by rw [List.append_nil], ?_⟩
      · refine Tim.Added.of_enter ?_ huk hfree hud huc.1 huc.2.1 harm
        refine enter_end hur hxl hux hpos hsmall ?_ hbefore rfl hule hup hufree
        have : endOffset u.offset 0 ([] ++ h :: rest) = endOffset u.offset 0 (h :: rest) := rfl
        omega

/-! ### Taking the expired timers off -/

theorem Tim.Keeps.callOf (hk : s.Keeps t) (y : Nat) : t.callOf y = s.callOf y := by
  have hs := hk.settings y
  unfold TimerEntry.settings at hs
  rw [TimerEntry.mk.injEq] at hs
  unfold Tim.callOf
  simp only [hk.clock, hs.1, hs.2.1, hs.2.2.1, hs.2.2.2.1]

/-- What the loop of `os_Timeout` does to the timers at the front of the ring. -/
structure Tim.Expired (s t : Tim) (fired left : List Nat) : Prop where
  circle : Circle t.next t.prev left
  running : t.running = left.head?
  keeps : s.Keeps t
  deadline : t.deadline = s.deadline
  ticks : t.ticks = s.ticks
  used : ∀ y ∈ fired, (t.timer y).status = .used
  others : ∀ y, y ∉ fired → (t.timer y).status = (s.timer y).status
  start : t.startTime = s.startTime ∧ t.startTicks = s.startTicks
  timerCb : t.timerCb = s.timerCb
  calls : t.calls = s.calls ++ fired.map s.callOf

private theorem callback_keeps : s.Keeps (s.callback x) := .of_timer rfl rfl rfl rfl rfl

private theorem setStatus_used (hfree : (s.timer x).status ≠ .free) :
    s.Keeps (s.setStatus x .used) := setStatus_keeps hfree TimerStatus.noConfusion

private theorem Tim.Expired.of_last (hk : s.Keeps t) (ht : t.timer = (s.setStatus x .used).timer)
    (hc : Circle t.next t.prev rest) (hrun : t.running = rest.head?) (hd : t.deadline = s.deadline)
    (hst : t.startTime = s.startTime ∧ t.startTicks = s.startTicks) (hcb : t.timerCb = s.timerCb)
    (hcalls : t.calls = s.calls ++ [s.callOf x]) : s.Expired t [x] rest := by
  refine ⟨hc, hrun, hk, hd, ?_, fun y hy => ?_, fun y hy => ?_, hst, hcb, hcalls⟩
  · funext y
    unfold Tim.ticks
    rw [ht]
    exact setStatus_ticks
  · rw [List.mem_singleton.1 hy, ht]
    exact setStatus_status_same
  · rw [ht]
    exact setStatus_status_other fun hyx => hy (hyx ▸ List.mem_singleton_self _)

private theorem periodic_filter (p : Nat → Bool) (pList fired : List Nat) :
    (if p x then pList ++ [x] else pList) ++ fired.filter p = pList ++ (x :: fired).filter p := by
  rw [List.filter_cons]
  split
  · rw [List.append_assoc, List.singleton_append]
  · rfl

/-- The loop ends with the first timer whose ticks are not 0. -/
private theorem expire_eq {fuel : Nat} {pList : List Nat} (hc : Circle s.next s.prev (x :: rest))
    (hd : (x :: rest).Nodup) (hfuel : rest.length < fuel) (hfree : ∀ y ∈ x :: rest, (s.timer y).status ≠ .free) :
    ∃ t fired left v, rest = fired ++ left ∧
      expire fuel x pList s =
        some (t, pList ++ (x :: fired).filter fun y => (s.timer y).pTicks ≠ 0, v) ∧
      (∀ y ∈ fired, s.ticks y = 0) ∧ (∀ n, left.head? = some n → s.ticks n ≠ 0 ∧ v = s.ticks n) ∧
      (left = [] → v = 0) ∧ s.Expired t (x :: fired) left := by
  induction rest generalizing s x fuel pList with
  | nil =>
    obtain ⟨fuel, rfl⟩ : ∃ k, fuel = k + 1 := ⟨fuel - 1, by omega⟩
    have hnext : s.next x = some x := (circle_singleton.1 hc).1
    have hk := setStatus_used (hfree x (List.mem_cons_self ..))
    refine ⟨({ s.setStatus x .used with running := none } : Tim).callback x, [], [], 0, rfl, ?_,
      fun y hy => absurd hy List.not_mem_nil, fun n hn => (by cases hn), fun _ => rfl, ?_⟩
    · unfold expire
      have hnext' : (s.setStatus x .used).next x = some x := hnext
      simp only [hnext', if_true]
      rw [← periodic_filter, List.filter_nil, List.append_nil]
      simp only [decide_eq_true_eq]
    · refine .of_last (hk.trans (.of_timer rfl rfl rfl rfl rfl)) rfl trivial rfl rfl ⟨rfl, rfl⟩ rfl ?_
      exact congrArg (fun c => s.calls ++ [c]) (hk.callOf x)
  | cons n rest ih =>
    obtain ⟨fuel, rfl⟩ : ∃ k, fuel = k + 1 := ⟨fuel - 1, by omega⟩
    have hd' := List.nodup_cons.1 hd
    have hnx : n ≠ x := fun h => hd'.1 (h ▸ List.mem_cons_self ..)
    have hk := setStatus_used (hfree x (List.mem_cons_self ..))
    have hnext : (s.setStatus x .used).next x = some n := hc.next_eq
    have hunlink := (unlink_circle (s := s.setStatus x .used) hc hd (List.cons_ne_nil _ _)).1
    have hticks : (((s.setStatus x .used).unlink x).timer n).rTicks = s.ticks n := setStatus_ticks
    have hcall : (s.setStatus x .used).callOf x = s.callOf x := hk.callOf x
    unfold expire
    simp only [hnext, if_neg hnx, hticks]
    by_cases hn : s.ticks n = 0
    · simp only [hn, ne_eq, not_true_eq_false, if_false]
      obtain ⟨u, hu⟩ : ∃ u, ((s.setStatus x .used).unlink x).callback x = u := ⟨_, rfl⟩
      have hsu : s.Keeps u := by
        rw [← hu]
        exact hk.trans ((unlink_keeps (x := x)).trans callback_keeps)
      have hut : u.ticks = s.ticks := by
        funext y
        rw [← hu]
        exact setStatus_ticks
      have hus : (u.timer x).status = .used ∧ ∀ y, y ≠ x → (u.timer y).status = (s.timer y).status := by
        rw [← hu]
        exact ⟨setStatus_status_same, fun y hy => setStatus_status_other hy⟩
      have hurest : u.deadline = s.deadline ∧ (u.startTime = s.startTime ∧ u.startTicks = s.startTicks) ∧
          u.timerCb = s.timerCb ∧ u.calls = s.calls ++ [s.callOf x] := by
        rw [← hu, ← hcall]
        exact ⟨rfl, ⟨rfl, rfl⟩, rfl, rfl⟩
      obtain ⟨t, fired, left, v, hl, hexp, hzero, hleft, hnil, he⟩ :=
        @ih u n fuel (if (s.timer x).pTicks = 0 then pList else pList ++ [x])
        (by rw [← hu]; exact hunlink) hd'.2 (by rw [List.length_cons] at hfuel; omega)
        (fun y hy => by
          rw [ne_eq, hsu.free]
          exact hfree y (List.mem_cons_of_mem _ hy))
      refine ⟨t, n :: fired, left, v, by rw [hl, List.cons_append], ?_, ?_, ?_, hnil, ?_⟩
      · rw [← periodic_filter]
        simp only [hsu.pTicks] at hexp
        simp only [decide_eq_true_eq, ite_not, hu]
        exact hexp
      · intro y hy
        rcases List.mem_cons.1 hy with rfl | hy
        · exact hn
        · rw [← hut]
          exact hzero y hy
      · rw [← hut]
        exact hleft
      · have hxnot : x ∉ n :: fired := fun hx => hd'.1 (by rw [hl]; exact List.mem_append_left left hx)
        refine ⟨he.circle, he.running, hsu.trans he.keeps, he.deadline.trans hurest.1, he.ticks.trans hut,
          fun y hy => ?_, fun y hy => ?_, ⟨he.start.1.trans hurest.2.1.1, he.start.2.trans hurest.2.1.2⟩,
          he.timerCb.trans hurest.2.2.1, ?_⟩
        · rcases List.mem_cons.1 hy with rfl | hy
          · rw [he.others y hxnot]
            exact hus.1
          · exact he.used y hy
        · rw [List.mem_cons, not_or] at hy
          rw [he.others y hy.2]
          exact hus.2 y hy.1
        · have hmap : (n :: fired).map u.callOf = (n :: fired).map s.callOf :=
            List.map_congr_left fun y _ => hsu.callOf y
          rw [he.calls, hurest.2.2.2, hmap, List.append_assoc]
          rfl
    · simp only [hn, ne_eq, not_false_eq_true, if_true]
      refine ⟨({ (s.setStatus x .used).unlink x with running := some n } : Tim).callback x, [], n :: rest, s.ticks n,
        rfl, ?_, fun y hy => absurd hy List.not_mem_nil, fun m hm => ?_, fun h => (by cases h), ?_⟩
      · rw [← periodic_filter, List.filter_nil, List.append_nil]
        simp only [decide_eq_true_eq]
      · cases hm
        exact ⟨hn, rfl⟩
      · refine .of_last ?_ rfl hunlink rfl rfl ⟨rfl, rfl⟩ rfl ?_
        · exact hk.trans ((unlink_keeps (x := x)).trans (.of_timer rfl rfl rfl rfl rfl))
        · exact congrArg (fun c => s.calls ++ [c]) hcall

/-! ### `os_Timeout` -/

theorem addable_of_now (h : s.running = none ∨ s.startTime = s.clock) : s.addable := by
  unfold Tim.addable Tim.onTime
  rcases h with h | h
  · rw [h]
    rfl
  · rw [Bool.or_eq_true]
    left
    split
    · rfl
    · rw [decide_eq_true_eq, h]
      omega

theorem onTime_iff (hr : s.Ring (h :: rest)) : s.onTime ↔ s.clock ≤ s.startTime + s.offset h := by
  have hrun : s.running = some h := hr.head
  have hx : 0 + s.ticks h = s.offset h := hr.delays.1
  unfold Tim.onTime
  rw [hrun, ← hx, Nat.zero_add]
  exact decide_eq_true_iff

/-- The periodic timers go back into the ring, each one period from now. -/
private theorem restart_ring {pList : List Nat} (hr : s.Ring l) (ha : s.Armed)
    (hnow : s.running = none ∨ s.startTime = s.clock) (hd : pList.Nodup)
    (hp : ∀ x ∈ pList, (s.timer x).status = .used ∧ x ≤ s.maxSimultaneousTimer ∧ (s.timer x).pTicks ≠ 0 ∧
      (s.timer x).pTicks < maxTicks) :
    ∃ t l', restart pList s = some t ∧ t.Ring l' ∧ t.Armed ∧ s.Keeps t ∧ t.calls = s.calls ∧
      (∀ x, x ∈ l' ↔ x ∈ l ∨ x ∈ pList) ∧ (∀ x ∈ pList, t.deadline x = s.clock + (s.timer x).pTicks) ∧
      ∀ x, x ∉ pList → t.deadline x = s.deadline x := by
  induction pList generalizing s l with
  | nil =>
    refine ⟨s, l, rfl, hr, ha, .of_timer rfl rfl rfl rfl rfl, rfl, fun x => ?_, fun x hx => absurd hx List.not_mem_nil,
      fun x _ => rfl⟩
    simp only [List.not_mem_nil, or_false]
  | cons x pList ih =>
    obtain ⟨hx, hle, h0, hper⟩ := hp x (List.mem_cons_self ..)
    rw [List.nodup_cons] at hd
    obtain ⟨t, v, before, after, hadd, hl, hadded⟩ := add_ring hr ha (addable_of_now hnow) hx hle hper hper
    rw [if_neg h0] at hadded
    have hk := hadded.keeps
    obtain ⟨u, hu⟩ : ∃ u, t.resetTimer v = u := ⟨_, rfl⟩
    rw [hu] at hadded hk
    have hmem : ∀ y, y ∈ before ++ x :: after ↔ y = x ∨ y ∈ l := by
      intro y
      rw [hl]
      simp only [List.mem_append, List.mem_cons]
      exact or_left_comm
    have hrest : ∀ y ∈ pList, (u.timer y).status = .used ∧ y ≤ u.maxSimultaneousTimer ∧ (u.timer y).pTicks ≠ 0 ∧
        (u.timer y).pTicks < maxTicks := by
      intro y hy
      obtain ⟨hy1, hy2, hy3, hy4⟩ := hp y (List.mem_cons_of_mem _ hy)
      rw [hk.maxSimultaneousTimer, hk.pTicks]
      refine ⟨?_, hy2, hy3, hy4⟩
      have hnf : (u.timer y).status ≠ .free := by
        rw [ne_eq, hk.free, hy1]
        exact TimerStatus.noConfusion
      have hna : (u.timer y).status ≠ .active := by
        rw [ne_eq, hadded.ring.active, hmem]
        rintro (rfl | hyl)
        · exact hd.1 hy
        · rw [← hr.active, hy1] at hyl
          cases hyl
      cases hs : (u.timer y).status with
      | free => exact absurd hs hnf
      | used => rfl
      | active => exact absurd hs hna
    obtain ⟨w, l', hw, hring, harm, hkw, hcalls, hl', hdp, hdn⟩ := ih hadded.ring hadded.armed
      (.inr (hadded.startTime.trans hk.clock.symm)) hd.2 hrest
    refine ⟨w, l', ?_, hring, harm, hk.trans hkw, hcalls.trans hadded.calls, fun y => ?_, fun y hy => ?_, fun y hy => ?_⟩
    · unfold restart
      rw [hadd, Option.bind_some, hu]
      exact hw
    · rw [hl', hmem, List.mem_cons]
      constructor
      · rintro ((h | h) | h)
        · exact .inr (.inl h)
        · exact .inl h
        · exact .inr (.inr h)
      · rintro (h | h | h)
        · exact .inl (.inr h)
        · exact .inl (.inl h)
        · exact .inr h
    · rcases List.mem_cons.1 hy with rfl | hy
      · rw [hdn y hd.1, hadded.deadline, write_same]
      · rw [hdp y hy, hk.clock, hk.pTicks]
    · rw [List.mem_cons, not_or] at hy
      rw [hdn y hy.2, hadded.deadline, write_other _ _ hy.1]

/-- When the ring is not late, `os_Timeout` takes off just the timers that are due. -/
private theorem expired_due {fired left : List Nat} (hr : s.Ring (h :: (fired ++ left)))
    (hdue : s.deadline h ≤ s.clock) (hprompt : s.onTime || s.allSame) (hzero : ∀ y ∈ fired, s.ticks y = 0)
    (hleft : ∀ n, left.head? = some n → s.ticks n ≠ 0) :
    (∀ y ∈ h :: fired, s.deadline y ≤ s.clock) ∧ (∀ y ∈ left, s.clock < s.deadline y) ∧
      (left ≠ [] → s.offset h = s.clock - s.startTime) := by
  have hrun : s.running = some h := hr.head
  have hoff : ∀ y, s.offset y = s.deadline y - s.startTime := fun _ => rfl
  have hst := hr.start.2
  have hx : 0 + s.ticks h = s.offset h := hr.delays.1
  have hdel := delays_append.1 hr.delays.2
  obtain ⟨hsame, hend⟩ := hdel.1.same hzero
  rw [hend] at hdel
  have hho := hoff h
  have hfired : ∀ y ∈ h :: fired, s.deadline y ≤ s.clock := by
    intro y hy
    rcases List.mem_cons.1 hy with rfl | hy
    · exact hdue
    · have h1 := hsame y hy
      have h2 := hoff y
      omega
  cases left with
  | nil => exact ⟨hfired, fun y hy => absurd hy List.not_mem_nil, fun hn => absurd rfl hn⟩
  | cons n left =>
    have hn := hleft n rfl
    have hno : s.offset h + s.ticks n = s.offset n := hdel.2.1
    have hnd := hoff n
    have hsort := List.pairwise_cons.1 hr.sorted
    have hontime : s.clock ≤ s.startTime + s.ticks h := by
      rw [Bool.or_eq_true] at hprompt
      rcases hprompt with hon | hall
      · unfold Tim.onTime at hon
        rw [hrun] at hon
        exact of_decide_eq_true hon
      · have h1 := (allSame_iff hr).1 hall n (by simp)
        have h2 := hsort.1 n (by simp)
        omega
    have hsortn := List.pairwise_cons.1 (List.pairwise_append.1 hsort.2).2.1
    refine ⟨hfired, fun y hy => ?_, fun _ => by omega⟩
    rcases List.mem_cons.1 hy with rfl | hy
    · omega
    · have := hsortn.1 y hy
      omega

/-- The timers behind the expired ones make up a ring whose ticks count from now. -/
private theorem left_ring {fired left : List Nat} (hr : s.Ring (h :: (fired ++ left))) (hdue : s.deadline h ≤ s.clock)
    (hprompt : s.onTime || s.allSame) (hzero : ∀ y ∈ fired, s.ticks y = 0)
    (hleft : ∀ n, left.head? = some n → s.ticks n ≠ 0) (he : s.Expired t (h :: fired) left) :
    (if left = [] then t else t.setStart).Ring left := by
  obtain ⟨-, hlater, hnow⟩ := expired_due hr hdue hprompt hzero hleft
  have hd := List.nodup_cons.1 hr.nodup
  have hmem : ∀ {y}, y ∈ left → y ∈ h :: (fired ++ left) := fun hy =>
    List.mem_cons_of_mem _ (List.mem_append_right _ hy)
  have hactive : ∀ y, (t.timer y).status = .active ↔ y ∈ left := by
    intro y
    by_cases hy : y ∈ h :: fired
    · rw [he.used y hy]
      refine ⟨fun hs => (by cases hs), fun hyl => ?_⟩
      rcases List.mem_cons.1 hy with rfl | hy
      · exact absurd (List.mem_append_right _ hyl) hd.1
      · exact absurd rfl ((List.nodup_append.1 hd.2).2.2 y hy y hyl)
    · rw [he.others y hy, hr.active, ← List.cons_append, List.mem_append]
      exact ⟨fun h' => h'.resolve_left hy, .inr⟩
  split
  · rename_i hnil
    subst hnil
    refine ⟨he.running, he.circle, List.nodup_nil, hactive, fun y hy => absurd hy List.not_mem_nil, trivial, .nil,
      fun y hy => absurd hy List.not_mem_nil, fun y hy => absurd hy List.not_mem_nil, ?_⟩
    rw [he.start.1, he.start.2, he.keeps.clock]
    exact hr.start
  · rename_i hnil
    have hoff : ∀ y, t.setStart.offset y = s.deadline y - s.clock := by
      intro y
      change t.deadline y - t.clock = _
      rw [he.deadline, he.keeps.clock]
    have hsub := List.pairwise_append.1 (List.pairwise_cons.1 hr.sorted).2
    refine ⟨he.running, he.circle, (List.nodup_append.1 hd.2).2.1, hactive, fun y hy => ?_, ?_, ?_, fun y hy => ?_,
      fun y hy => ?_, rfl, Nat.le_refl _⟩
    · rw [show t.setStart.maxSimultaneousTimer = s.maxSimultaneousTimer from he.keeps.maxSimultaneousTimer]
      exact hr.handles y (hmem hy)
    · have hdel := delays_append.1 hr.delays.2
      have hend := (hdel.1.same hzero).2
      rw [hend] at hdel
      have hshift := @Delays.shift _ _ t.setStart.offset _ _ hdel.2 (s.clock - s.startTime) 0
        (by rw [hnow hnil]; omega) fun y hy => by
          have h1 := hlater y hy
          have h2 := hr.start.2
          rw [hoff]
          unfold Tim.offset
          omega
      refine hshift.congr (fun y _ => ?_) fun _ _ => rfl
      exact congrFun he.ticks y
    · rw [show t.setStart.deadline = s.deadline from he.deadline]
      exact hsub.2.1
    · have h1 := hr.small y (hmem hy)
      have h2 := hr.start.2
      rw [hoff]
      unfold Tim.offset at h1
      omega
    · have : (t.setStart.timer y).pTicks = (s.timer y).pTicks := he.keeps.pTicks y
      rw [this]
      exact hr.periods y (hmem hy)

/-- The ring before the periodic timers go back into it. -/
private theorem rearm {fired left : List Nat} {v : Nat} (hr : s.Ring (h :: (fired ++ left)))
    (hdue : s.deadline h ≤ s.clock) (hprompt : s.onTime || s.allSame) (hzero : ∀ y ∈ fired, s.ticks y = 0)
    (hleft : ∀ n, left.head? = some n → s.ticks n ≠ 0 ∧ v = s.ticks n) (hnil : left = [] → v = 0)
    (hcb : s.timerCb = none) (he : s.Expired t (h :: fired) left) :
    ∃ u, (if v = 0 then t else t.setStart.resetTimer v) = u ∧ u.Ring left ∧ u.Armed ∧ t.Keeps u ∧
      u.deadline = s.deadline ∧ u.calls = t.calls ∧ u.timer = t.timer ∧ (u.running = none ∨ u.startTime = u.clock) := by
  have hring := left_ring hr hdue hprompt hzero (fun n hn => (hleft n hn).1) he
  cases left with
  | nil =>
    rw [if_pos (hnil rfl)]
    rw [if_pos rfl] at hring
    refine ⟨t, rfl, hring, ?_, .of_timer rfl rfl rfl rfl rfl, he.deadline, rfl, rfl, .inl hring.head⟩
    unfold Tim.Armed
    rw [hring.head, he.timerCb, hcb]
    rfl
  | cons n left =>
    obtain ⟨hn, hv⟩ := hleft n rfl
    obtain ⟨-, hlater, hnow⟩ := expired_due hr hdue hprompt hzero fun m hm => (hleft m hm).1
    have hv0 : v ≠ 0 := by omega
    rw [if_neg hv0]
    rw [if_neg (List.cons_ne_nil _ _)] at hring
    have hset : t.setStart.resetTimer v = { t.setStart with timerCb := some (t.clock + v) } := if_neg hv0
    refine ⟨_, rfl, hring.resetTimer v, ?_, setStart_keeps.trans resetTimer_keeps, ?_, ?_, ?_, .inr ?_⟩
    · have hdel := delays_append.1 hr.delays.2
      rw [(hdel.1.same hzero).2, hnow (List.cons_ne_nil _ _)] at hdel
      have hnd : s.clock - s.startTime + s.ticks n = s.deadline n - s.startTime := hdel.2.1
      have hst := hr.start.2
      have hclock := hlater n (List.mem_cons_self ..)
      unfold Tim.Armed
      rw [hset]
      change some (t.clock + v) = t.running.map t.deadline
      rw [he.running, he.deadline, he.keeps.clock]
      refine congrArg some ?_
      omega
    · rw [hset]
      exact he.deadline
    · rw [hset]
      rfl
    · rw [hset]
      rfl
    · rw [hset]
      rfl

/-- What an `os_Timeout` does that is not late. -/
structure Tim.Timeout (s t : Tim) (l l' fired : List Nat) : Prop where
  due : ∀ x, x ∈ fired ↔ x ∈ l ∧ s.deadline x ≤ s.clock
  nodup : fired.Nodup
  ring : t.Ring l'
  armed : t.Armed
  keeps : s.Keeps t
  calls : t.calls = s.calls ++ fired.map s.callOf
  members : ∀ x, x ∈ l' ↔ x ∈ l ∧ (s.clock < s.deadline x ∨ (s.timer x).pTicks ≠ 0)
  periodic : ∀ x ∈ fired, (s.timer x).pTicks ≠ 0 → t.deadline x = s.clock + (s.timer x).pTicks
  others : ∀ x, x ∉ fired → t.deadline x = s.deadline x

/-- `os_Timeout` calls the timers that are due, each once, and puts the periodic ones back into the ring. -/
theorem timeout_ring {e : Nat} (hr : s.Ring l) (ha : s.Armed) (hacc : s.access = none) (hcb : s.timerCb = some e)
    (hle : e ≤ s.clock) (hprompt : s.onTime || s.allSame) :
    ∃ t l' fired, osTimeout s = some t ∧ s.Timeout t l l' fired := by
  cases l with
  | nil =>
    rw [ha, hr.head] at hcb
    cases hcb
  | cons h rest =>
    have hrun : s.running = some h := hr.head
    have hdue : s.deadline h ≤ s.clock := by
      rw [ha, hrun] at hcb
      cases hcb
      exact hle
    obtain ⟨u, hu⟩ : ∃ u, s.disableTimer = u := ⟨_, rfl⟩
    have hur : u.Ring (h :: rest) := by
      rw [← hu]
      exact hr.congr rfl rfl rfl rfl rfl rfl rfl rfl (Nat.le_refl _)
    have hsu : s.Keeps u := by
      rw [← hu]
      exact .of_timer rfl rfl rfl rfl rfl
    have hud : u.deadline = s.deadline ∧ u.calls = s.calls ∧ u.timerCb = none ∧ u.running = s.running ∧
        u.timer = s.timer ∧ u.onTime = s.onTime ∧ u.allSame = s.allSame := by
      rw [← hu]
      exact ⟨rfl, rfl, rfl, rfl, rfl, rfl, rfl⟩
    have hstat : ∀ y ∈ h :: rest, (u.timer y).status ≠ .free := by
      intro y hy
      rw [(hur.active y).2 hy]
      exact TimerStatus.noConfusion
    have hlen := hur.length_le
    rw [List.length_cons] at hlen
    obtain ⟨t, fired, left, v, hl, hexp, hzero, hleft, hnil, he⟩ := @expire_eq _ _ _ (u.maxSimultaneousTimer + 1) []
      hur.circle hur.nodup (by omega) hstat
    subst hl
    have hdue' : u.deadline h ≤ u.clock := by
      rw [hud.1, hsu.clock]
      exact hdue
    have hprompt' : u.onTime || u.allSame := by
      rw [hud.2.2.2.2.2.1, hud.2.2.2.2.2.2]
      exact hprompt
    obtain ⟨w, hw, hwr, hwa, hkw, hwd, hwc, hwt, hwnow⟩ := rearm hur hdue' hprompt' hzero hleft hnil hud.2.2.1 he
    obtain ⟨hfired, hlater, -⟩ := expired_due hur hdue' hprompt' hzero fun n hn => (hleft n hn).1
    have hkuw := he.keeps.trans hkw
    have hksw := hsu.trans hkuw
    have hdw := List.nodup_append.1 (show ((h :: fired) ++ left).Nodup from hur.nodup)
    have hfired' : ∀ x, x ∈ h :: fired ↔ x ∈ h :: (fired ++ left) ∧ s.deadline x ≤ s.clock := by
      intro x
      rw [← hud.1, ← hsu.clock, ← List.cons_append, List.mem_append]
      constructor
      · exact fun hx => ⟨.inl hx, hfired x hx⟩
      · rintro ⟨hx | hx, hle'⟩
        · exact hx
        · have := hlater x hx
          omega
    have hperiod : ∀ x, x ∈ (h :: fired).filter (fun y => (u.timer y).pTicks ≠ 0) ↔
        x ∈ h :: fired ∧ (s.timer x).pTicks ≠ 0 := by
      intro x
      rw [List.mem_filter, decide_eq_true_eq, hsu.pTicks]
    obtain ⟨r, l', hr', hrr, hra, hkr, hrc, hmem, hdp, hdn⟩ := @restart_ring _ _
      ((h :: fired).filter fun y => (u.timer y).pTicks ≠ 0) hwr hwa hwnow (hdw.1.filter _) (fun x hx => by
        have hx' := (hperiod x).1 hx
        have hxl : x ∈ h :: (fired ++ left) := List.mem_append_left left hx'.1
        rw [hwt, he.used x hx'.1, hkuw.maxSimultaneousTimer, he.keeps.pTicks, hsu.pTicks]
        refine ⟨rfl, hur.handles x hxl, hx'.2, ?_⟩
        have := hur.periods x hxl
        rwa [hsu.pTicks] at this)
    have hksr := hksw.trans hkr
    refine ⟨r, l', h :: fired, ?_, hfired', hdw.1, hrr, hra, hksr, ?_, fun x => ?_, fun x hx hp => ?_,
      fun x hx => ?_⟩
    · have hacc' : s.access.isSome = false := by rw [hacc]; rfl
      unfold osTimeout
      rw [hacc']
      simp only [Bool.false_eq_true, if_false, hu, hud.2.2.2.1.trans hrun, hexp, Option.bind_some, List.nil_append, hw]
      exact hr'
    · have hmap : (h :: fired).map u.callOf = (h :: fired).map s.callOf :=
        List.map_congr_left fun y _ => hsu.callOf y
      rw [hrc, hwc, he.calls, hmap, hud.2.1]
    · have hx := hlater x
      rw [hsu.clock, hud.1] at hx
      rw [hmem, hperiod, hfired', ← List.cons_append, List.mem_append]
      constructor
      · rintro (hl | ⟨⟨hl, -⟩, hp⟩)
        · exact ⟨.inr hl, .inl (hx hl)⟩
        · exact ⟨hl, .inr hp⟩
      · rintro ⟨hl | hl, hp⟩
        · have hle' := ((hfired' x).1 hl).2
          exact .inr ⟨⟨.inl hl, hle'⟩, hp.resolve_left (by omega)⟩
        · exact .inl hl
    · rw [hdp x ((hperiod x).2 ⟨hx, hp⟩), hksw.clock, hksw.pTicks]
    · rw [hdn x fun hx' => hx ((hperiod x).1 hx').1, hwd, hud.1]

end

end Citrine.Osl
