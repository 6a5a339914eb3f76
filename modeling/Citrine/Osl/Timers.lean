import Citrine.Osl.TimerExpiry

/-!
# Runs of the timer service

To its users the service is a deadline for each running timer (`Tim.due`), and each call and each `os_Timeout` has one
effect on these (`Tim.Effect`).  The ring, the free handles and the hardware timer keep to it in all runs in which
`os_Timeout` comes in time and the head of the ring is not overdue when the ring is changed (`Tim.sound`).
-/

namespace Citrine.Osl

/-! ### The service as its users see it -/

/-- The deadline of a timer, if it runs. -/
def Tim.due (s : Tim) (x : Nat) : Option Nat := if (s.timer x).status = .active then some (s.deadline x) else none

/-- The relative times of a request are below `2 ^ 31` ticks. -/
def TimerRequest.small (multiplier : Nat) : TimerRequest → Bool
  | .start _ _ _ _ initialTime rescheduleTime =>
    decide (timeToSystemTicks multiplier initialTime < maxTicks) &&
      decide (timeToSystemTicks multiplier rescheduleTime < maxTicks)
  | .stop _ => true

def TimEvent.small (multiplier : Nat) : TimEvent → Bool
  | .begin r => r.small multiplier
  | _ => true

/-- What a request that has been accepted does. -/
def Tim.Served (multiplier : Nat) (s t : Tim) : TimerRequest → Prop
  | .start x task entity index initialTime rescheduleTime =>
    t.due = write s.due x (some (s.clock + max 1 (timeToSystemTicks multiplier initialTime))) ∧
      (t.timer x).settings = { (s.timer x).settings with
        taskHandle := task, entityHandle := entity, tIndex := index
        pTicks := timeToSystemTicks multiplier rescheduleTime } ∧
      ∀ y, y ≠ x → (t.timer y).settings = (s.timer y).settings
  | .stop x => t.due = write s.due x none ∧ ∀ y, (t.timer y).settings = (s.timer y).settings

/-- What an `os_Timeout` does: the timers that are due are called, each once, and the periodic ones among them are due
again one period later. -/
def Tim.TimedOut (s t : Tim) : Prop :=
  ∃ fired : List Nat, fired.Nodup ∧ (∀ x, x ∈ fired ↔ ∃ d, s.due x = some d ∧ d ≤ s.clock) ∧
    t.calls = s.calls ++ fired.map s.callOf ∧ (∀ x, (t.timer x).settings = (s.timer x).settings) ∧
    ∀ x, t.due x =
      if x ∈ fired then
        if (s.timer x).pTicks = 0 then none else some (s.clock + (s.timer x).pTicks)
      else s.due x

/-- What a step does. -/
def Tim.Effect (multiplier : Nat) (s t : Tim) : TimEvent → Prop
  | .finish => t.calls = s.calls ∧ ∃ r, s.access = some r ∧ s.Served multiplier t r
  | .timeout => s.TimedOut t
  | _ => t.calls = s.calls ∧ t.due = s.due ∧
    ∀ x, s.due x ≠ none → (t.timer x).settings = (s.timer x).settings

/-! ### When the code does it -/

/-- No running timer but `x` is due later than the head. -/
def Tim.sameBut (s : Tim) (x : Nat) : Bool :=
  match s.running with
  | none => true
  | some h =>
    (List.range (s.maxSimultaneousTimer + 1)).all fun y =>
      y == x || (s.timer y).status != .active || decide (s.deadline y ≤ s.deadline h)

/-- A timer is started while the head is not overdue, unless it is itself the head or all others are due together. -/
def Tim.startable (s : Tim) (x : Nat) : Bool :=
  s.running == some x || s.onTime || (s.sameBut x && decide (s.clock < s.startTime + wordSize))

/-- `os_Timeout` comes outside the calls and when the head is due, unless all timers are due together; timers are
started and stopped while no timer behind the head is due. -/
def Tim.sound (s : Tim) : TimEvent → Bool
  | .finish =>
    match s.access with
    | none => true
    | some r =>
      ((s.timer r.timer).status != .active || s.removable r.timer) &&
        match r with
        | .start x _ _ _ _ _ => s.startable x
        | .stop _ => true
  | .timeout => s.access.isNone && (s.onTime || s.allSame)
  | _ => true

/-- The state of the service: the running timers are a circle in the order of their deadlines, the hardware timer is
set for the first of them, and each step that is made in time has its effect. -/
structure Tim.Sound (multiplier : Nat) (s : Tim) : Prop where
  ring : ∃ l, s.Ring l
  armed : s.Armed
  effect : ∀ {e t}, e.small multiplier → s.sound e → s.step multiplier e = some t → s.Effect multiplier t e
  /-- The calls and `os_Timeout` return. -/
  returns : ∀ {e}, s.sound e →
    (e = .finish ∧ s.access ≠ none ∨ e = .timeout ∧ ∃ d, s.timerCb = some d ∧ d ≤ s.clock) →
      ∃ t, s.step multiplier e = some t

/-! ### The invariant -/

/-- A handle, where 0 is none. -/
def handle (h : Nat) : Option Nat := if h = 0 then none else some h

structure Tim.Inv (multiplier n : Nat) (s : Tim) (l free : List Nat) : Prop where
  ring : s.Ring l
  armed : s.Armed
  max : s.maxSimultaneousTimer = n
  chain : Chain (fun x => handle (s.timer x).nextTHandle) (handle s.nextTHandle) free
  nodup : free.Nodup
  zero : (s.timer 0).status = .free
  free : ∀ x ∈ free, 0 < x ∧ x ≤ n ∧ (s.timer x).status = .free
  access : ∀ r, s.access = some r → r.timer ≤ n ∧ (s.timer r.timer).status ≠ .free ∧ r.small multiplier

section
variable {multiplier n : Nat} {s t : Tim} {l l' free : List Nat} {x : Nat}

private theorem Tim.Keeps.nextTHandle_eq (hk : s.Keeps t) (x : Nat) :
    (t.timer x).nextTHandle = (s.timer x).nextTHandle := by
  have := congrArg TimerEntry.nextTHandle (hk.settings x)
  exact this

/-- Work on the ring keeps the free handles. -/
private theorem Tim.Inv.of_keeps (h : s.Inv multiplier n l free) (hk : s.Keeps t) (hr : t.Ring l') (ha : t.Armed) :
    t.Inv multiplier n l' free := by
  refine ⟨hr, ha, hk.maxSimultaneousTimer.trans h.max, ?_, h.nodup, (hk.free 0).2 h.zero, fun x hx => ?_,
    fun r hracc => ?_⟩
  · rw [hk.nextTHandle]
    refine h.chain.congr fun x _ => ?_
    rw [hk.nextTHandle_eq]
  · obtain ⟨h0, hn, hf⟩ := h.free x hx
    exact ⟨h0, hn, (hk.free x).2 hf⟩
  · rw [hk.access] at hracc
    obtain ⟨hn, hf, hsm⟩ := h.access r hracc
    exact ⟨hn, fun hfree => hf ((hk.free _).1 hfree), hsm⟩

private theorem due_of_ring (hr : s.Ring l) : s.due x = if x ∈ l then some (s.deadline x) else none := by
  unfold Tim.due
  simp only [hr.active]

/-! ### Calls -/

private theorem startable_head {h : Nat} {rest : List Nat} (hr : s.Ring (h :: rest)) (hx : x ≠ h)
    (hs : s.startable x) : s.clock ≤ s.startTime + s.offset h ∨
      ((∀ y ∈ h :: rest, y ≠ x → s.deadline y ≤ s.deadline h) ∧ s.clock < s.startTime + wordSize) := by
  have hrun : s.running = some h := hr.head
  unfold Tim.startable at hs
  rw [Bool.or_eq_true, Bool.or_eq_true, Bool.and_eq_true, onTime_iff hr, hrun, beq_iff_eq, decide_eq_true_eq] at hs
  rcases hs with (hs | hs) | ⟨hs, hw⟩
  · exact absurd (Option.some.inj hs).symm hx
  · exact .inl hs
  · refine .inr ⟨fun y hy hyx => ?_, hw⟩
    unfold Tim.sameBut at hs
    rw [hrun] at hs
    simp only [List.all_eq_true, List.mem_range, Bool.or_eq_true, bne_iff_ne, beq_iff_eq, decide_eq_true_eq] at hs
    rcases hs y (Nat.lt_succ_of_le (hr.handles y hy)) with (h1 | h1) | h1
    · exact absurd h1 hyx
    · exact absurd ((hr.active y).2 hy) h1
    · exact h1

/-- A ring that is left when `x` has been taken out takes `x` again. -/
private theorem addable_of_startable (hr : s.Ring l) (hr' : t.Ring l') (hs : s.startable x)
    (hmem : ∀ y, y ∈ l' ↔ y ∈ l ∧ y ≠ x) (hd : t.deadline = s.deadline) (hc : t.clock = s.clock)
    (hstart : l' = [] ∨ t.startTime = t.clock ∨ (l'.head? = l.head? ∧ t.startTime = s.startTime)) : t.addable := by
  rcases hstart with hnil | hnow | ⟨hhead, hst⟩
  · refine addable_of_now (.inl ?_)
    rw [hr'.head, hnil]
    rfl
  · exact addable_of_now (.inr hnow)
  · cases l' with
    | nil => exact addable_of_now (.inl hr'.head)
    | cons h rest' =>
      cases l with
      | nil => cases hhead
      | cons h' rest =>
        cases hhead
        have hx : x ≠ h := Ne.symm ((hmem h).1 (List.mem_cons_self ..)).2
        have hoff : t.offset h = s.offset h := by
          unfold Tim.offset
          rw [hd, hst]
        unfold Tim.addable
        rw [Bool.or_eq_true, Bool.and_eq_true, onTime_iff hr', allSame_iff hr', decide_eq_true_eq, hoff, hd, hc, hst]
        refine (startable_head hr hx hs).imp_right fun ⟨hall, hw⟩ => ⟨fun y hy => ?_, hw⟩
        exact hall y ((hmem y).1 hy).1 ((hmem y).1 hy).2

/-- `removeActive` takes a timer out of the ring, if it is in it. -/
private theorem removeActive_spec (hr : s.Ring l) (ha : s.Armed)
    (hrem : (s.timer x).status ≠ .active ∨ s.removable x) :
    ∃ l', (removeActive x s).Ring l' ∧ (removeActive x s).Armed ∧ s.Keeps (removeActive x s) ∧
      (removeActive x s).deadline = s.deadline ∧ (removeActive x s).calls = s.calls ∧
      (∀ y, y ∈ l' ↔ y ∈ l ∧ y ≠ x) ∧
      (l' = [] ∨ (removeActive x s).startTime = (removeActive x s).clock ∨
        (l'.head? = l.head? ∧ (removeActive x s).startTime = s.startTime)) := by
  unfold removeActive
  split
  · rename_i hx
    obtain ⟨pre, post, rfl, h⟩ := remove_ring hr ha hx (hrem.resolve_left (not_not_intro hx))
    have hd := hr.nodup
    rw [List.nodup_middle, List.nodup_cons] at hd
    refine ⟨pre ++ post, h.ring, h.armed, h.keeps, h.deadline, h.calls, fun y => ?_, ?_⟩
    · have hne : y ∈ pre ++ post → y ≠ x := fun hy hyx => hd.1 (hyx ▸ hy)
      simp only [List.mem_append, List.mem_cons] at hne ⊢
      constructor
      · exact fun hy => ⟨hy.imp_right .inr, hne hy⟩
      · rintro ⟨hy | hy | hy, hyx⟩
        · exact .inl hy
        · exact absurd hy hyx
        · exact .inr hy
    · rw [h.keeps.clock]
      rcases h.start with hnil | ⟨-, hst⟩ | ⟨hpre, hst⟩
      · exact .inl hnil
      · exact .inr (.inl hst)
      · refine .inr (.inr ⟨?_, hst⟩)
        cases pre with
        | nil => exact absurd rfl hpre
        | cons a pre => rfl
  · rename_i hx
    refine ⟨l, hr, ha, .of_timer rfl rfl rfl rfl rfl, rfl, rfl, fun y => ?_, .inr (.inr ⟨rfl, rfl⟩)⟩
    constructor
    · exact fun hy => ⟨hy, fun hyx => hx ((hr.active x).2 (hyx ▸ hy))⟩
    · exact fun hy => hy.1

private theorem setUp_timer {task entity index p : Nat} : (s.setUp x task entity index p).timer =
    write s.timer x { s.timer x with taskHandle := task, entityHandle := entity, tIndex := index, pTicks := p } := rfl

private theorem setUp_status {task entity index p y : Nat} :
    ((s.setUp x task entity index p).timer y).status = (s.timer y).status := by
  rw [setUp_timer]
  by_cases hy : y = x
  · rw [hy, write_same]
  · rw [write_other _ _ hy]

/-- The entries outside a ring may change, as long as they do not become active. -/
private theorem Tim.Ring.set_entry {e : TimerEntry} (hr : s.Ring l) (hx : x ∉ l) (he : e.status ≠ .active) :
    ({ s with timer := write s.timer x e } : Tim).Ring l := by
  have hother : ∀ y ∈ l, write s.timer x e y = s.timer y := fun y hy => write_other _ _ fun hyx => hx (hyx ▸ hy)
  refine ⟨hr.head, hr.circle, hr.nodup, fun y => ?_, hr.handles, hr.delays.congr (fun y hy => ?_) fun _ _ => rfl,
    hr.sorted, hr.small, fun y hy => ?_, hr.start⟩
  · change (write s.timer x e y).status = .active ↔ y ∈ l
    by_cases hy : y = x
    · rw [hy, write_same]
      exact ⟨fun h => absurd h he, fun h => absurd h hx⟩
    · rw [write_other _ _ hy]
      exact hr.active y
  · exact congrArg TimerEntry.rTicks (hother y hy)
  · change (write s.timer x e y).pTicks < maxTicks
    rw [hother y hy]
    exact hr.periods y hy

private theorem setUp_ring {task entity index p : Nat} (hr : s.Ring l) (hx : x ∉ l) :
    (s.setUp x task entity index p).Ring l :=
  hr.set_entry hx fun h => hx ((hr.active x).1 h)

private theorem max_one (k : Nat) : (if k = 0 then 1 else k) = max 1 k := by
  split <;> omega

/-- The work of `os_StartTimer`. -/
private theorem start_spec {task entity index initialTime rescheduleTime : Nat} (hr : s.Ring l) (ha : s.Armed)
    (hrem : (s.timer x).status ≠ .active ∨ s.removable x) (hs : s.startable x) (hx : x ≤ s.maxSimultaneousTimer)
    (hfree : (s.timer x).status ≠ .free)
    (hsmall : (TimerRequest.start x task entity index initialTime rescheduleTime).small multiplier) :
    ∃ t l', osStartTimer multiplier x task entity index initialTime rescheduleTime s = some t ∧ t.Ring l' ∧ t.Armed ∧
      t.calls = s.calls ∧ t.access = s.access ∧ t.maxSimultaneousTimer = s.maxSimultaneousTimer ∧
      t.nextTHandle = s.nextTHandle ∧ (∀ y, (t.timer y).status = .free ↔ (s.timer y).status = .free) ∧
      s.Served multiplier t (.start x task entity index initialTime rescheduleTime) := by
  unfold TimerRequest.small at hsmall
  rw [Bool.and_eq_true, decide_eq_true_eq, decide_eq_true_eq] at hsmall
  obtain ⟨l₁, hr₁, ha₁, hk₁, hd₁, hc₁, hmem, hst⟩ := removeActive_spec hr ha hrem
  obtain ⟨w, hw⟩ : ∃ w, removeActive x s = w := ⟨_, rfl⟩
  rw [hw] at hr₁ ha₁ hk₁ hd₁ hc₁ hst
  have hxl : x ∉ l₁ := fun h => ((hmem x).1 h).2 rfl
  obtain ⟨p, hp⟩ : ∃ p, timeToSystemTicks multiplier rescheduleTime = p := ⟨_, rfl⟩
  obtain ⟨u, hu⟩ : ∃ u, w.setUp x task entity index p = u := ⟨_, rfl⟩
  have hur : u.Ring l₁ := by
    rw [← hu]
    exact setUp_ring hr₁ hxl
  have hua : u.Armed := by
    rw [← hu]
    exact ha₁
  have hux : (u.timer x).status = .used := by
    have hnf : (u.timer x).status ≠ .free := by
      rw [← hu, setUp_status, ne_eq, hk₁.free]
      exact hfree
    have hna : (u.timer x).status ≠ .active := by
      rw [ne_eq, hur.active]
      exact hxl
    cases h : (u.timer x).status with
    | free => exact absurd h hnf
    | used => rfl
    | active => exact absurd h hna
  have hu₁ : u.deadline = s.deadline ∧ u.clock = s.clock ∧ u.startTime = w.startTime ∧
      u.calls = s.calls ∧ u.access = s.access ∧ u.maxSimultaneousTimer = s.maxSimultaneousTimer ∧
      u.nextTHandle = s.nextTHandle := by
    rw [← hu]
    exact ⟨hd₁, hk₁.clock, rfl, hc₁, hk₁.access, hk₁.maxSimultaneousTimer, hk₁.nextTHandle⟩
  have hadd : u.addable := by
    refine addable_of_startable hr hur hs hmem hu₁.1 hu₁.2.1 ?_
    rw [hu₁.2.1, hu₁.2.2.1, ← hk₁.clock]
    exact hst
  have hpx : (u.timer x).pTicks = p := by
    rw [← hu, setUp_timer, write_same]
  obtain ⟨t, v, before, after, hres, hl, hadded⟩ := @add_ring _ _ _ (timeToSystemTicks multiplier initialTime) hur hua
    hadd hux (by rw [hu₁.2.2.2.2.2.1]; exact hx) hsmall.1 (by rw [hpx, ← hp]; exact hsmall.2)
  have hk := hadded.keeps
  refine ⟨t.resetTimer v, before ++ x :: after, ?_, hadded.ring, hadded.armed, hadded.calls.trans hu₁.2.2.2.1,
    hk.access.trans hu₁.2.2.2.2.1, hk.maxSimultaneousTimer.trans hu₁.2.2.2.2.2.1,
    hk.nextTHandle.trans hu₁.2.2.2.2.2.2, fun y => ?_, ?_, ?_, fun y hy => ?_⟩
  · unfold osStartTimer
    simp only [hp, hw, hu, hres, Option.map_some]
  · rw [hk.free, ← hu, setUp_status, hk₁.free]
  · funext y
    have hmem' : y ∈ before ++ x :: after ↔ y = x ∨ y ∈ l₁ := by
      rw [hl]
      simp only [List.mem_append, List.mem_cons]
      exact or_left_comm
    rw [due_of_ring hadded.ring, hadded.deadline, hu₁.1, hu₁.2.1]
    by_cases hy : y = x
    · rw [if_pos (hmem'.2 (.inl hy)), hy, write_same, write_same, max_one]
    · rw [write_other _ _ hy, write_other _ _ hy, due_of_ring hr]
      have : y ∈ before ++ x :: after ↔ y ∈ l := by
        rw [hmem', hmem]
        exact ⟨fun h => (h.resolve_left hy).1, fun h => .inr ⟨h, hy⟩⟩
      simp only [this]
  · rw [hk.settings, ← hu, setUp_timer, write_same]
    have := hk₁.settings x
    unfold TimerEntry.settings at this ⊢
    rw [TimerEntry.mk.injEq] at this
    simp only [this.2.2.2.1, this.2.2.2.2.2.2.2, hp]
  · rw [hk.settings, ← hu, setUp_timer, write_other _ _ hy]
    exact hk₁.settings y

/-- A request is served. -/
private theorem finish_spec (h : s.Inv multiplier n l free) {r : TimerRequest} (hacc : s.access = some r)
    (hs : s.sound .finish) :
    ∃ t l', s.step multiplier .finish = some t ∧ t.Inv multiplier n l' free ∧ t.calls = s.calls ∧
      s.Served multiplier t r := by
  obtain ⟨hle, hfree, hsmall⟩ := h.access r hacc
  unfold Tim.sound at hs
  simp only [hacc, Bool.and_eq_true, Bool.or_eq_true, bne_iff_ne] at hs
  obtain ⟨hrem, hst⟩ := hs
  have hle' : r.timer ≤ s.maxSimultaneousTimer := by rw [h.max]; exact hle
  cases r with
  | stop x =>
    change (s.timer x).status ≠ .active ∨ s.removable x at hrem
    obtain ⟨l', hr', ha', hk, hd, hc, hmem, -⟩ := removeActive_spec h.ring h.armed hrem
    have hinv := h.of_keeps hk hr' ha'
    refine ⟨{ removeActive x s with access := none }, l', ?_, ⟨hr'.congr rfl rfl rfl rfl rfl rfl rfl rfl (Nat.le_refl _),
      ha', hinv.max, hinv.chain, hinv.nodup, hinv.zero, hinv.free, fun r hr => (by cases hr)⟩, hc, ?_, hk.settings⟩
    · unfold Tim.step
      rw [hacc]
      rfl
    · have hdue : ({ removeActive x s with access := none } : Tim).due = (removeActive x s).due := rfl
      rw [hdue]
      funext y
      rw [due_of_ring hr', hd]
      by_cases hy : y = x
      · rw [if_neg fun hyl => ((hmem y).1 hyl).2 hy, hy, write_same]
      · rw [write_other _ _ hy, due_of_ring h.ring]
        have : y ∈ l' ↔ y ∈ l := by
          rw [hmem]
          exact ⟨fun h => h.1, fun h => ⟨h, hy⟩⟩
        simp only [this]
  | start x task entity index initialTime rescheduleTime =>
    change (s.timer x).status ≠ .free at hfree
    change (s.timer x).status ≠ .active ∨ s.removable x at hrem
    change x ≤ s.maxSimultaneousTimer at hle'
    obtain ⟨t, l', hres, hr', ha', hc, hta, htm, htn, htf, hserved⟩ := start_spec h.ring h.armed hrem hst hle' hfree hsmall
    have hnext : ∀ y, (t.timer y).nextTHandle = (s.timer y).nextTHandle := by
      intro y
      by_cases hy : y = x
      · have := congrArg TimerEntry.nextTHandle hserved.2.1
        rw [hy]
        exact this
      · have := congrArg TimerEntry.nextTHandle (hserved.2.2 y hy)
        exact this
    refine ⟨{ t with access := none }, l', ?_, ⟨hr'.congr rfl rfl rfl rfl rfl rfl rfl rfl (Nat.le_refl _), ha',
      htm.trans h.max, ?_, h.nodup, (htf 0).2 h.zero, fun y hy => ?_, fun r hr => (by cases hr)⟩, hc, hserved⟩
    · unfold Tim.step
      rw [hacc]
      change (osStartTimer multiplier x task entity index initialTime rescheduleTime s).map _ = _
      rw [hres]
      rfl
    · change Chain (fun y => handle (t.timer y).nextTHandle) (handle t.nextTHandle) free
      rw [htn]
      refine h.chain.congr fun y _ => ?_
      rw [hnext]
    · obtain ⟨h0, hn, hf⟩ := h.free y hy
      exact ⟨h0, hn, (htf y).2 hf⟩

/-- An `os_Timeout` in time. -/
private theorem timeout_spec (h : s.Inv multiplier n l free) (hs : s.sound .timeout) {e : Nat}
    (hcb : s.timerCb = some e) (he : e ≤ s.clock) :
    ∃ t l', s.step multiplier .timeout = some t ∧ t.Inv multiplier n l' free ∧ s.TimedOut t := by
  unfold Tim.sound at hs
  rw [Bool.and_eq_true] at hs
  have hacc : s.access = none := Option.isNone_iff_eq_none.1 hs.1
  obtain ⟨t, l', fired, ht, hto⟩ := timeout_ring h.ring h.armed hacc hcb he hs.2
  refine ⟨t, l', ?_, h.of_keeps hto.keeps hto.ring hto.armed, fired, hto.nodup, fun x => ?_, hto.calls,
    hto.keeps.settings, fun x => ?_⟩
  · unfold Tim.step
    rw [hcb]
    simp only [he, if_true]
    exact ht
  · rw [hto.due, due_of_ring h.ring]
    constructor
    · rintro ⟨hx, hd⟩
      exact ⟨s.deadline x, if_pos hx, hd⟩
    · rintro ⟨d, hx, hd⟩
      split at hx
      · rename_i hxl
        cases hx
        exact ⟨hxl, hd⟩
      · cases hx
  · rw [due_of_ring hto.ring, due_of_ring h.ring]
    by_cases hx : x ∈ fired
    · have hx' := (hto.due x).1 hx
      rw [if_pos hx]
      by_cases hp : (s.timer x).pTicks = 0
      · rw [if_pos hp, if_neg]
        rw [hto.members]
        rintro ⟨-, hlt | hp'⟩
        · omega
        · exact hp' hp
      · rw [if_neg hp, if_pos ((hto.members x).2 ⟨hx'.1, .inr hp⟩), hto.periodic x hx hp]
    · rw [if_neg hx, hto.others x hx]
      have : x ∈ l' ↔ x ∈ l := by
        rw [hto.members]
        refine ⟨fun h => h.1, fun hxl => ⟨hxl, .inl ?_⟩⟩
        exact Nat.lt_of_not_le fun hle => hx ((hto.due x).2 ⟨hxl, hle⟩)
      simp only [this]

/-- A call changes the entry of a timer that does not run, and the free handles. -/
private theorem entry_spec {e : TimerEntry} {free' : List Nat} (h : s.Inv multiplier n l free)
    (hacc : s.access = none) (hx : (s.timer x).status ≠ .active) (he : e.status ≠ .active)
    (ht : t.timer = write s.timer x e) (hnext : t.next = s.next) (hprev : t.prev = s.prev)
    (hrun : t.running = s.running) (hmax : t.maxSimultaneousTimer = s.maxSimultaneousTimer)
    (hd : t.deadline = s.deadline) (hst : t.startTime = s.startTime ∧ t.startTicks = s.startTicks)
    (hc : t.clock = s.clock) (hcb : t.timerCb = s.timerCb) (hcalls : t.calls = s.calls) (hta : t.access = s.access)
    (hchain : Chain (fun y => handle (write s.timer x e y).nextTHandle) (handle t.nextTHandle) free')
    (hnodup : free'.Nodup) (hzero : (write s.timer x e 0).status = .free)
    (hfree : ∀ y ∈ free', 0 < y ∧ y ≤ n ∧ (write s.timer x e y).status = .free) :
    t.Inv multiplier n l free' ∧ t.calls = s.calls ∧ t.due = s.due ∧
      ∀ y, s.due y ≠ none → (t.timer y).settings = (s.timer y).settings := by
  have hxl : x ∉ l := fun hxl => hx ((h.ring.active x).2 hxl)
  have hring : t.Ring l := (h.ring.set_entry hxl he).congr hrun hnext hprev ht hmax hd hst.1 hst.2 (Nat.le_of_eq hc.symm)
  rw [← ht] at hchain hzero hfree
  refine ⟨⟨hring, ?_, hmax.trans h.max, hchain, hnodup, hzero, hfree, fun r hr => ?_⟩, hcalls, ?_, fun y hy => ?_⟩
  · unfold Tim.Armed
    rw [hcb, hrun, hd]
    exact h.armed
  · rw [hta, hacc] at hr
    cases hr
  · funext y
    rw [due_of_ring hring, due_of_ring h.ring, hd]
  · rw [ht, write_other]
    rintro rfl
    exact hy (if_neg hx)

private theorem create_spec (h : s.Inv multiplier n l free) (hacc : s.access = none) (timeoutProc : Nat) :
    ∃ free', (osCreateTimer timeoutProc s).Inv multiplier n l free' ∧
      s.Effect multiplier (osCreateTimer timeoutProc s) (.create timeoutProc) := by
  unfold osCreateTimer
  split
  · exact ⟨free, h, rfl, rfl, fun _ _ => rfl⟩
  · rename_i h0
    obtain ⟨x, hx⟩ : ∃ x, s.nextTHandle = x := ⟨_, rfl⟩
    have hchain := h.chain
    have hnodup := h.nodup
    have hfree := h.free
    rw [hx, show handle x = some x from if_neg (hx ▸ h0)] at hchain
    cases free with
    | nil => exact absurd hchain.of_nil (Option.some_ne_none x)
    | cons y free =>
      obtain ⟨hyx, hrest⟩ := hchain.of_cons
      cases hyx
      rw [List.nodup_cons] at hnodup
      obtain ⟨hpos, -, hstat⟩ := hfree x (List.mem_cons_self ..)
      have hne : ∀ y ∈ free, y ≠ x := fun y hy hyx => hnodup.1 (hyx ▸ hy)
      simp only [hx]
      refine ⟨free, entry_spec (x := x) (e := { s.timer x with status := .used, timeoutProc := timeoutProc }) h hacc
        (by rw [hstat]; exact TimerStatus.noConfusion) TimerStatus.noConfusion rfl rfl rfl rfl rfl rfl ⟨rfl, rfl⟩ rfl
        rfl rfl rfl (hrest.congr fun y hy => ?_) hnodup.2 ?_ fun y hy => ?_⟩
      · rw [write_other _ _ (hne y hy)]
      · rw [write_other _ _ (by omega)]
        exact h.zero
      · rw [write_other _ _ (hne y hy)]
        exact hfree y (List.mem_cons_of_mem _ hy)

private theorem destroy_spec (h : s.Inv multiplier n l free) (hacc : s.access = none) (x : Nat) :
    ∃ free', (osDestroyTimer x s).Inv multiplier n l free' ∧
      s.Effect multiplier (osDestroyTimer x s) (.destroy x) := by
  unfold osDestroyTimer
  split
  · exact ⟨free, h, rfl, rfl, fun _ _ => rfl⟩
  · split
    · exact ⟨free, h, rfl, rfl, fun _ _ => rfl⟩
    · rename_i hle hused
      have hstat : (s.timer x).status = .used := Decidable.not_not.1 hused
      have hxf : x ∉ free := fun hxf => by
        have := (h.free x hxf).2.2
        rw [hstat] at this
        cases this
      have hne : ∀ y ∈ free, y ≠ x := fun y hy hyx => hxf (hyx ▸ hy)
      have hx0 : x ≠ 0 := by
        rintro rfl
        rw [h.zero] at hstat
        cases hstat
      refine ⟨x :: free, entry_spec (x := x) (e := { s.timer x with nextTHandle := s.nextTHandle, status := .free }) h
        hacc (by rw [hstat]; exact TimerStatus.noConfusion) TimerStatus.noConfusion rfl rfl rfl rfl rfl rfl ⟨rfl, rfl⟩
        rfl rfl rfl rfl ?_ (List.nodup_cons.2 ⟨hxf, h.nodup⟩) ?_ fun y hy => ?_⟩
      · rw [show handle x = some x from if_neg hx0]
        refine .cons ?_
        rw [write_same]
        refine h.chain.congr fun y hy => ?_
        rw [write_other _ _ (hne y hy)]
      · rw [write_other _ _ (Ne.symm hx0)]
        exact h.zero
      · rcases List.mem_cons.1 hy with rfl | hy
        · rw [write_same]
          have := h.max
          exact ⟨by omega, by omega, rfl⟩
        · rw [write_other _ _ (hne y hy)]
          exact h.free y hy

private theorem begin_spec (h : s.Inv multiplier n l free) {r : TimerRequest} (hr : r.small multiplier) :
    (beginRequest r s).Inv multiplier n l free ∧ s.Effect multiplier (beginRequest r s) (.begin r) := by
  unfold beginRequest
  split
  · exact ⟨h, rfl, rfl, fun _ _ => rfl⟩
  · split
    · exact ⟨h, rfl, rfl, fun _ _ => rfl⟩
    · rename_i hle hfree
      refine ⟨⟨h.ring.congr rfl rfl rfl rfl rfl rfl rfl rfl (Nat.le_refl _), h.armed, h.max, h.chain, h.nodup, h.zero,
        h.free, fun r' hr' => ?_⟩, rfl, rfl, fun _ _ => rfl⟩
      cases hr'
      exact ⟨by rw [← h.max]; omega, hfree, hr⟩

/-- A step that is made in time keeps the invariant and has its effect. -/
private theorem tim_step_inv {e : TimEvent} (h : s.Inv multiplier n l free) (hsmall : e.small multiplier)
    (hs : s.sound e) (ht : s.step multiplier e = some t) :
    (∃ l' free', t.Inv multiplier n l' free') ∧ s.Effect multiplier t e := by
  have hguard : ∀ {u : Tim}, (if s.access.isSome then none else some u) = some t → s.access = none ∧ u = t := by
    intro u hu
    split at hu
    · cases hu
    · rename_i hacc
      exact ⟨Option.not_isSome_iff_eq_none.1 hacc, Option.some.inj hu⟩
  cases e with
  | create timeoutProc =>
    obtain ⟨hacc, rfl⟩ := hguard ht
    obtain ⟨free', hinv, heff⟩ := create_spec h hacc timeoutProc
    exact ⟨⟨l, free', hinv⟩, heff⟩
  | destroy x =>
    obtain ⟨hacc, rfl⟩ := hguard ht
    obtain ⟨free', hinv, heff⟩ := destroy_spec h hacc x
    exact ⟨⟨l, free', hinv⟩, heff⟩
  | begin r =>
    obtain ⟨hacc, rfl⟩ := hguard ht
    obtain ⟨hinv, heff⟩ := begin_spec h hsmall
    exact ⟨⟨l, free, hinv⟩, heff⟩
  | finish =>
    cases hacc : s.access with
    | none =>
      unfold Tim.step at ht
      rw [hacc] at ht
      cases ht
    | some r =>
      obtain ⟨u, l', hu, hinv, hcalls, hserved⟩ := finish_spec h hacc hs
      obtain rfl : u = t := Option.some.inj (hu.symm.trans ht)
      exact ⟨⟨l', free, hinv⟩, hcalls, r, hacc, hserved⟩
  | tick =>
    cases ht
    exact ⟨⟨l, free, h.ring.congr rfl rfl rfl rfl rfl rfl rfl rfl (Nat.le_succ _), h.armed, h.max, h.chain, h.nodup,
      h.zero, h.free, h.access⟩, rfl, rfl, fun _ _ => rfl⟩
  | timeout =>
    cases hcb : s.timerCb with
    | none =>
      unfold Tim.step at ht
      rw [hcb] at ht
      cases ht
    | some d =>
      have hd : d ≤ s.clock := by
        unfold Tim.step at ht
        simp only [hcb] at ht
        split at ht
        · assumption
        · cases ht
      obtain ⟨u, l', hu, hinv, hto⟩ := timeout_spec h hs hcb hd
      obtain rfl : u = t := Option.some.inj (hu.symm.trans ht)
      exact ⟨⟨l', free, hinv⟩, hto⟩

/-- The handles of a new table. -/
private theorem chain_handles {nf : Nat → Option Nat}
    (hnf : ∀ x, 0 < x → x ≤ n → nf x = handle (if 0 < x ∧ x < n then x + 1 else 0)) {k i : Nat} (hi : 0 < i)
    (h : i + k = n) : Chain nf (handle i) (List.range' i (k + 1)) := by
  induction k generalizing i with
  | zero =>
    rw [show handle i = some i from if_neg (by omega)]
    refine .cons ?_
    rw [hnf i hi (by omega), if_neg (by omega)]
    exact .nil
  | succ k ih =>
    rw [List.range'_succ, show handle i = some i from if_neg (by omega)]
    refine .cons ?_
    rw [hnf i hi (by omega), if_pos (by omega)]
    exact ih (by omega) (by omega)

private theorem tim_start_inv (h : (timers.machine multiplier n).init s) :
    ∃ l free, s.Inv multiplier n l free := by
  have h : osTimInit n s := h
  have hpos := h.pos
  refine ⟨[], List.range' 1 n, ⟨h.running, trivial, List.nodup_nil, fun x => ?_, fun x hx => absurd hx List.not_mem_nil, trivial, .nil,
    fun x hx => absurd hx List.not_mem_nil, fun x hx => absurd hx List.not_mem_nil, ?_⟩, ?_, h.maxSimultaneousTimer,
    ?_, List.nodup_range', h.free 0, fun x hx => ?_, fun r hr => ?_⟩
  · rw [h.free x]
    exact ⟨fun hs => (by cases hs), fun hx => absurd hx List.not_mem_nil⟩
  · rw [h.startTicks]
    exact h.startTime
  · unfold Tim.Armed
    rw [h.timerCb, h.running]
    rfl
  · obtain ⟨k, rfl⟩ : ∃ k, n = k + 1 := ⟨n - 1, by omega⟩
    rw [h.nextTHandle]
    exact chain_handles (fun x _ hx => congrArg handle (h.handles x hx)) (by omega) (by omega)
  · rw [List.mem_range'_1] at hx
    exact ⟨by omega, by omega, h.free x⟩
  · rw [h.access] at hr
    cases hr

private theorem Tim.Inv.sound (h : s.Inv multiplier n l free) : s.Sound multiplier := by
  refine ⟨⟨l, h.ring⟩, h.armed, fun hsmall hs ht => (tim_step_inv h hsmall hs ht).2, fun {e} hs he => ?_⟩
  rcases he with ⟨rfl, hacc⟩ | ⟨rfl, d, hcb, hd⟩
  · obtain ⟨r, hr⟩ := Option.ne_none_iff_exists'.1 hacc
    obtain ⟨t, l', ht, -⟩ := finish_spec h hr hs
    exact ⟨t, ht⟩
  · obtain ⟨t, l', ht, -⟩ := timeout_spec h hs hcb hd
    exact ⟨t, ht⟩

end

/-! ### Runs -/

/-- A new service with three timers. -/
def timers.three : Tim :=
  { timer := fun x => ⟨0, 0, 0, 0, 0, 0, .free, if 0 < x ∧ x < 3 then x + 1 else 0⟩
    next := fun _ => none, prev := fun _ => none, running := none, startTicks := 0, nextTHandle := 1
    usedTimers := 0, maxUsedTimers := 0, maxSimultaneousTimer := 3, access := none, timerCb := none, clock := 0
    startTime := 0, deadline := fun _ => 0, calls := [] }

/-- Two timers: the first runs for 46 ms, which are 10 ticks, and the second for 92 ms. -/
def timers.pair (rescheduleTime : Nat) : List TimEvent :=
  [.create 7, .create 8, .begin (.start 1 4 5 6 46 rescheduleTime), .finish, .begin (.start 2 4 5 7 92 0), .finish]

/-- `os_Timeout` comes after 10 ticks. -/
def timers.timely : List TimEvent := timers.pair 46 ++ List.replicate 10 .tick ++ [.timeout]

/-- `os_Timeout` comes after 10 ticks, but then a timer is being started. -/
def timers.held : List TimEvent :=
  timers.pair 0 ++ List.replicate 10 .tick ++ [.create 9, .begin (.start 3 4 5 8 500 0), .timeout, .finish, .tick, .timeout]

private theorem three_init : (timers.machine 14199 3).init timers.three := by
  refine ⟨by decide, rfl, fun x => rfl, fun x _ => rfl, rfl, rfl, rfl, ⟨rfl, rfl⟩, rfl, rfl, ⟨rfl, Nat.le_refl _⟩, rfl⟩

private theorem timely_isSome : ((timers.machine 14199 3).run (fun s e => e.small 14199 && s.sound e) timers.three
    timers.timely).isSome := by
  decide +kernel

private theorem held_isSome : ((timers.machine 14199 3).run (fun _ e => e.small 14199) timers.three
    timers.held).isSome := by
  decide +kernel

end Citrine.Osl
