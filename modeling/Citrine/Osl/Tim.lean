import Citrine.Lib.Machine
import Citrine.Osl.Com

/-!
# The timer service of the OSL

`os_tim_ir.c`: a ring of running timers with their remaining ticks, each after the one before it, and one hardware
timer for the head of the ring.  A call of `os_StartTimer` or `os_StopTimer` sets `t_list_access` in one step and does
its work in another, so that ticks and `os_Timeout` can come in between; the semaphore keeps other calls out.
The clock counts without end, and the code sees its low 32 bits.  The state also records what the code does not: the
deadline of each timer, `t_start_ticks` without its wrap, and the calls of the timeout functions.
-/

namespace Citrine.Osl

/-! ### The state -/

/-- `TMR_FREE`, `TMR_USED`, `TMR_ACTIVE` -/
inductive TimerStatus where
  | free | used | active
  deriving DecidableEq, Repr

/-- `T_OS_TIMER_TABLE_ENTRY` without its links, and `next_t_handle` of `T_OS_TIMER_ENTRY`. -/
structure TimerEntry where
  taskHandle : Nat
  entityHandle : Nat
  tIndex : Nat
  timeoutProc : Nat
  rTicks : Nat
  pTicks : Nat
  status : TimerStatus
  nextTHandle : Nat
  deriving DecidableEq, Repr

/-- A call of a timeout function. -/
structure Callback where
  timer : Nat
  time : Nat
  timeoutProc : Nat
  taskHandle : Nat
  entityHandle : Nat
  tIndex : Nat
  deriving DecidableEq, Repr

/-- A call of `os_StartTimer` or `os_StopTimer` that has set `t_list_access`. -/
inductive TimerRequest where
  | start (timer task entity index initialTime rescheduleTime : Nat)
  | stop (timer : Nat)
  deriving DecidableEq, Repr

/-- The data of the timer service. -/
structure Tim where
  timer : Nat → TimerEntry
  next : Nat → Option Nat
  prev : Nat → Option Nat
  /-- `t_running` -/
  running : Option Nat
  /-- `t_start_ticks` -/
  startTicks : Nat
  nextTHandle : Nat
  usedTimers : Nat
  maxUsedTimers : Nat
  /-- `MaxSimultaneousTimer` -/
  maxSimultaneousTimer : Nat
  /-- `t_list_access`, with the call that has set it. -/
  access : Option TimerRequest
  /-- `os_timer_cb`: the time at which it expires, if it is enabled. -/
  timerCb : Option Nat
  clock : Nat
  startTime : Nat
  deadline : Nat → Nat
  calls : List Callback

/-- `2 ^ 32` -/
def wordSize : Nat := 0x100000000

/-- The sum of two words. -/
def addWord (a b : Nat) : Nat := (a + b) % wordSize

/-- The difference of two words. -/
def subWord (a b : Nat) : Nat := (a + wordSize - b) % wordSize

/-- `NU_Retrieve_Clock` -/
def Tim.retrieveClock (s : Tim) : Nat := s.clock % wordSize

/-- Writes through a pointer; through a null pointer the model writes nothing. -/
def writeAt {α : Type} (f : Nat → α) (p : Option Nat) (v : α) : Nat → α :=
  match p with
  | some i => write f i v
  | none => f

/-- Sets the remaining ticks of a timer. -/
def Tim.setTicks (s : Tim) (x ticks : Nat) : Tim :=
  { s with timer := write s.timer x { s.timer x with rTicks := ticks } }

/-- Sets the status of a timer. -/
def Tim.setStatus (s : Tim) (x : Nat) (status : TimerStatus) : Tim :=
  { s with timer := write s.timer x { s.timer x with status := status } }

/-- `NU_Reset_Timer`, unless the ticks are 0. -/
def Tim.resetTimer (s : Tim) (ticks : Nat) : Tim :=
  if ticks = 0 then s else { s with timerCb := some (s.clock + ticks) }

/-- The hardware timer is not enabled. -/
def Tim.disableTimer (s : Tim) : Tim := { s with timerCb := none }

/-- `t_start_ticks = c_ticks` -/
def Tim.setStart (s : Tim) : Tim := { s with startTicks := s.retrieveClock, startTime := s.clock }

/-- Records the deadline of a timer. -/
def Tim.setDeadline (s : Tim) (x d : Nat) : Tim := { s with deadline := write s.deadline x d }

/-! ### The ring -/

/-- `timer->prev->next = timer->next; timer->next->prev = timer->prev;` -/
def Tim.unlink (s : Tim) (x : Nat) : Tim :=
  { s with next := writeAt s.next (s.prev x) (s.next x), prev := writeAt s.prev (s.next x) (s.prev x) }

/-- The links of a new timer in front of another. -/
def Tim.link (s : Tim) (x place : Nat) : Tim :=
  { s with
    next := writeAt (write s.next x (some place)) (s.prev place) (some x)
    prev := write (write s.prev x (s.prev place)) place (some x) }

/-- The head of the ring is given up. -/
def Tim.removeHead (s : Tim) (x : Nat) : Tim :=
  let s :=
    match s.next x with
    | none => s
    | some n =>
      if n = x then { s with running := none }
      else
        { s.setTicks n (subWord (addWord (addWord s.startTicks (s.timer x).rTicks) (s.timer n).rTicks)
            s.retrieveClock) with
          running := some n }
  let s := s.disableTimer
  match s.running with
  | none => s
  | some h => s.setStart.resetTimer (s.timer h).rTicks

/-- `os_remove_timer_from_list` -/
def osRemoveTimerFromList (x : Nat) (s : Tim) : Tim :=
  let s :=
    if s.running ≠ some x then
      match s.next x with
      | none => s
      | some n =>
        if s.next x ≠ s.running then s.setTicks n (addWord (s.timer n).rTicks (s.timer x).rTicks) else s
    else s.removeHead x
  let s := if s.next x ≠ some x then s.unlink x else s
  { s.setStatus x .used with next := write s.next x none, prev := write s.prev x none }

/-- The loop of `os_add_timer_to_list`: the timer in front of which the new one goes, the ticks that are left, and
whether the loop has come round to the head. -/
def findPlace (s : Tim) : Nat → Nat → Nat → Nat → Option (Nat × Nat × Bool)
  | 0, _, _, _ => none
  | fuel + 1, ticks, tList, r1Ticks =>
    if ticks ≥ r1Ticks then
      match s.next tList with
      | none => none
      | some n =>
        if s.running = some n then some (n, ticks - r1Ticks, true)
        else findPlace s fuel (ticks - r1Ticks) n (s.timer n).rTicks
    else some (tList, ticks, false)

/-- `r1_ticks`: the ticks that are left of the head, 0 if it is overdue. -/
def leftTicks (rTicks cTicks startTicks : Nat) : Nat :=
  let eTicks := subWord cTicks startTicks
  if rTicks ≥ eTicks then rTicks - eTicks else 0

/-- A timer goes into the ring in front of another; `at_end` is the jump to `out`. -/
def Tim.insert (s : Tim) (x head place ticks : Nat) (atEnd : Bool) : Tim × Nat :=
  let s := if atEnd then s else s.setTicks place ((s.timer place).rTicks - ticks)
  let s' := if atEnd || place != head then s else { s.setStart with running := some x, timerCb := none }
  let returnTicks := if atEnd || place != head then 0 else ticks
  (((s'.link x place).setTicks x ticks).setStatus x .active, returnTicks)

/-- `os_add_timer_to_list`, with the ticks it returns. -/
def osAddTimerToList (x ticks : Nat) (s : Tim) : Option (Tim × Nat) :=
  let ticks := if ticks = 0 then 1 else ticks
  let s := s.setDeadline x (s.clock + ticks)
  match s.running with
  | some head =>
    let r1Ticks := leftTicks (s.timer head).rTicks s.retrieveClock s.startTicks
    let s := (s.setTicks head r1Ticks).setStart
    (findPlace s (s.maxSimultaneousTimer + 1) ticks head r1Ticks).map fun p => s.insert x head p.1 p.2.1 p.2.2
  | none =>
    let s := { s with next := write s.next x (some x), prev := write s.prev x (some x), running := some x }
    some ((s.setTicks x ticks).setStart.setStatus x .active, ticks)

/-! ### `os_Timeout` -/

/-- The call of the timeout function of a timer. -/
def Tim.callOf (s : Tim) (x : Nat) : Callback :=
  let t := s.timer x
  ⟨x, s.clock, t.timeoutProc, t.taskHandle, t.entityHandle, t.tIndex⟩

/-- `timeout_func(task_handle, e_handle, t_index)` -/
def Tim.callback (s : Tim) (x : Nat) : Tim := { s with calls := s.calls ++ [s.callOf x] }

/-- The loop of `os_Timeout` over the timers that expire; `pList` are the periodic ones among them, and the last
component of the result are the ticks of the new head. -/
def expire : Nat → Nat → List Nat → Tim → Option (Tim × List Nat × Nat)
  | 0, _, _, _ => none
  | fuel + 1, x, pList, s =>
    let pList := if (s.timer x).pTicks ≠ 0 then pList ++ [x] else pList
    let s := s.setStatus x .used
    match s.next x with
    | none => none
    | some n =>
      if n = x then some ({ s with running := none }.callback x, pList, 0)
      else
        let s := s.unlink x
        if (s.timer n).rTicks ≠ 0 then some ({ s with running := some n }.callback x, pList, (s.timer n).rTicks)
        else expire fuel n pList (s.callback x)

/-- The loop of `os_Timeout` over the periodic timers. -/
def restart : List Nat → Tim → Option Tim
  | [], s => some s
  | x :: rest, s =>
    (osAddTimerToList x (s.timer x).pTicks s).bind fun p => restart rest (p.1.resetTimer p.2)

/-- `os_Timeout` -/
def osTimeout (s : Tim) : Option Tim :=
  if s.access.isSome then
    some { s with
      startTicks := addWord s.startTicks 1, startTime := s.startTime + 1, timerCb := some (s.clock + 1) }
  else
    let s := s.disableTimer
    match s.running with
    | none => some s
    | some head =>
      (expire (s.maxSimultaneousTimer + 1) head [] s).bind fun p =>
        restart p.2.1 (if p.2.2 = 0 then p.1 else p.1.setStart.resetTimer p.2.2)

/-! ### Calls -/

/-- `os_CreateTimer`; without a free timer it returns an error. -/
def osCreateTimer (timeoutProc : Nat) (s : Tim) : Tim :=
  if s.nextTHandle = 0 then s
  else
    let x := s.nextTHandle
    let usedTimers := s.usedTimers + 1
    { s with
      timer := write s.timer x { s.timer x with status := .used, timeoutProc := timeoutProc }
      nextTHandle := (s.timer x).nextTHandle
      usedTimers := usedTimers
      maxUsedTimers := if s.maxUsedTimers < usedTimers then usedTimers else s.maxUsedTimers }

/-- `os_DestroyTimer`; a timer that runs is not destroyed. -/
def osDestroyTimer (x : Nat) (s : Tim) : Tim :=
  if x > s.maxSimultaneousTimer then s
  else if (s.timer x).status ≠ .used then s
  else
    { s with
      timer := write s.timer x { s.timer x with nextTHandle := s.nextTHandle, status := .free }
      nextTHandle := x
      usedTimers := s.usedTimers - 1 }

/-- `TimerHandle` -/
def TimerRequest.timer : TimerRequest → Nat
  | .start x _ _ _ _ _ => x
  | .stop x => x

/-- The beginning of `os_StartTimer` and `os_StopTimer`, up to `t_list_access = 1`. -/
def beginRequest (r : TimerRequest) (s : Tim) : Tim :=
  if r.timer > s.maxSimultaneousTimer then s
  else if (s.timer r.timer).status = .free then s
  else { s with access := some r }

/-- `if (timer->status == TMR_ACTIVE) os_remove_timer_from_list(timer);` -/
def removeActive (x : Nat) (s : Tim) : Tim :=
  if (s.timer x).status = .active then osRemoveTimerFromList x s else s

/-- The fields of a timer that `os_StartTimer` sets. -/
def Tim.setUp (s : Tim) (x task entity index pTicks : Nat) : Tim :=
  { s with
    timer := write s.timer x { s.timer x with
      taskHandle := task, entityHandle := entity, tIndex := index, pTicks := pTicks } }

/-- `os_StartTimer` behind `t_list_access = 1`. -/
def osStartTimer (multiplier x task entity index initialTime rescheduleTime : Nat) (s : Tim) : Option Tim :=
  let s := (removeActive x s).setUp x task entity index (timeToSystemTicks multiplier rescheduleTime)
  (osAddTimerToList x (timeToSystemTicks multiplier initialTime) s).map fun p => p.1.resetTimer p.2

/-- The work of a call, up to `t_list_access = 0`. -/
def finishRequest (multiplier : Nat) (r : TimerRequest) (s : Tim) : Option Tim :=
  let s' :=
    match r with
    | .start x task entity index initialTime rescheduleTime =>
      osStartTimer multiplier x task entity index initialTime rescheduleTime s
    | .stop x => some (removeActive x s)
  s'.map fun s => { s with access := none }

/-! ### The system -/

inductive TimEvent where
  | create (timeoutProc : Nat)
  | destroy (timer : Nat)
  | begin (r : TimerRequest)
  | finish
  | tick
  | timeout
  deriving DecidableEq, Repr

/-- A step.  The semaphore lets one call in at a time; `os_Timeout` is called when the hardware timer has expired. -/
def Tim.step (multiplier : Nat) (s : Tim) : TimEvent → Option Tim
  | .create timeoutProc => if s.access.isSome then none else some (osCreateTimer timeoutProc s)
  | .destroy x => if s.access.isSome then none else some (osDestroyTimer x s)
  | .begin r => if s.access.isSome then none else some (beginRequest r s)
  | .finish =>
    match s.access with
    | none => none
    | some r => finishRequest multiplier r s
  | .tick => some { s with clock := s.clock + 1 }
  | .timeout =>
    match s.timerCb with
    | none => none
    | some e => if e ≤ s.clock then osTimeout s else none

/-- `os_TimInit`, for a table of `n` timers whose other data is arbitrary. -/
structure osTimInit (n : Nat) (s : Tim) : Prop where
  pos : 0 < n
  maxSimultaneousTimer : s.maxSimultaneousTimer = n
  free : ∀ x, (s.timer x).status = .free
  handles : ∀ x ≤ n, (s.timer x).nextTHandle = if 0 < x ∧ x < n then x + 1 else 0
  running : s.running = none
  startTicks : s.startTicks = 0
  nextTHandle : s.nextTHandle = 1
  usedTimers : s.usedTimers = 0 ∧ s.maxUsedTimers = 0
  access : s.access = none
  timerCb : s.timerCb = none
  /-- The clock may show anything. -/
  startTime : s.startTime % wordSize = 0 ∧ s.startTime ≤ s.clock
  calls : s.calls = []

/-- The runs of a timer service with `n` timers. -/
def timers.machine (multiplier n : Nat) : Machine Tim TimEvent where
  init := osTimInit n
  step := Tim.step multiplier

end Citrine.Osl
