import Mathlib.Algebra.Group.Nat.Defs
import Citrine.Lib.Machine
import Citrine.Lib.Memory

/-!
# Message queues of the OSL

`os_SendToQueue` and `os_ReceiveFromQueue` (`os_com_ir.c`) on one queue, which `InitQueueMemory` and
`os_CreateQueue` (`os_com_fl.c`) have set up, and `ObtainSemaphoreCB` (`os_sem_ir.c`).  Tasks and interrupts call them
in any order; a call is cut at its calls of the RTOS, a semaphore being a count of units and the section between
`TCT_System_Protect` and `TCT_System_Unprotect` one step.  Pointers into the queue memory are the numbers of its
elements, and those into a ring the positions behind its `pStart`.
-/

namespace Citrine.Osl

/-! ### The queue -/

/-- `OS_QDATA` -/
structure OsQdata where
  flags : BitVec 16
  data16 : BitVec 16
  data32 : BitVec 32
  time : BitVec 32
  eId : BitVec 32
  ptr : BitVec 32
  deriving DecidableEq, Repr

/-- `T_QDATA_ELEMENT` without its link. -/
abbrev Elements := Nat → OsQdata

/-- `T_QUEUE`, with the slots that its pointers point to. -/
structure TQueue where
  pWrite : Nat
  pRead : Nat
  slots : Nat → Nat

/-- The priorities from `OS_MIN_PRIORITY` to `OS_MAX_PRIORITY`. -/
inductive Priority where
  | normal | urgent
  deriving DecidableEq, Repr

/-- The order in which `os_ReceiveFromQueue` looks at the priorities. -/
def Priority.descending : List Priority := [.urgent, .normal]

/-- `T_QUEUE_MSG`, less the time at which it was stored. -/
structure TQueueMsg where
  type : BitVec 16
  opc : BitVec 32
  ptr : BitVec 32
  deriving DecidableEq, Repr

/-- `T_OS_COM_TABLE_ENTRY`.  The link `pNext` of the elements is a memory of its own, and of the two semaphores it
is the counts that matter. -/
structure ComTableEntry where
  queue : Priority → TQueue
  element : Elements
  pNext : Nat → Option Nat
  pFreeElement : Option Nat
  entries : Nat
  maxUsed : Nat
  freeSem : Nat
  usedSem : Nat
  currentMsg : TQueueMsg

/-- `InitQueueMemory` and the creation of the semaphores in `os_CreateQueue`, which refuses a queue without entries;
the memory of the elements and the slots holds anything. -/
def osCreateQueue (entries : Nat) (element : Elements) (slots : Priority → Nat → Nat) (msg : TQueueMsg) :
    Option ComTableEntry :=
  if entries = 0 then none
  else some {
    queue := fun p => { pWrite := 0, pRead := 0, slots := slots p }
    element := element
    pNext := fun i => if i < entries - 1 then some (i + 1) else none
    pFreeElement := some 0
    entries := entries
    maxUsed := 0
    freeSem := entries
    usedSem := 0
    currentMsg := msg }

/-! ### The protected sections -/

/-- The protected section of `os_SendToQueue`.  With no free element it would follow a null pointer. -/
def enqueue (prio : Priority) (msg : OsQdata) (t : ComTableEntry) : Option ComTableEntry :=
  match t.pFreeElement with
  | none => none
  | some elem =>
    let queue := t.queue prio
    let slots := write queue.slots queue.pWrite elem
    let watmark := (t.entries - t.freeSem) % 65536
    some { t with
      pFreeElement := t.pNext elem
      element := write t.element elem msg
      queue := write t.queue prio
        { queue with slots := slots, pWrite := advance (t.entries + 1) queue.pWrite }
      maxUsed := if t.maxUsed < watmark then watmark else t.maxUsed }

/-- The protected section of `os_ReceiveFromQueue`, with the priority and the message; `none` when all rings are
empty. -/
def dequeue (t : ComTableEntry) : Option (Priority × OsQdata × ComTableEntry) :=
  match Priority.descending.find? fun p => (t.queue p).pWrite != (t.queue p).pRead with
  | none => none
  | some p =>
    let queue := t.queue p
    let elem := queue.slots queue.pRead
    let msg := t.element elem
    some (p, msg, { t with
      element := write t.element elem { msg with data16 := 0 }
      pNext := write t.pNext elem t.pFreeElement
      pFreeElement := some elem
      queue := write t.queue p { queue with pRead := advance (t.entries + 1) queue.pRead }
      currentMsg := { type := msg.data16, opc := msg.data32, ptr := msg.ptr } })

/-! ### Calls -/

/-- A call of one of the two functions. -/
inductive Call where
  | send (prio : Priority) (msg : OsQdata)
  | receive
  deriving DecidableEq, Repr

/-- What a call returns. -/
inductive Result where
  | ok | waited | timeout | error
  | received (msg : OsQdata)
  deriving DecidableEq, Repr

/-- `OS_SUSPEND` and `NU_SUSPEND` -/
def osSuspend : Nat := 0xffffffff

/-- `TIME_TO_SYSTEM_TICKS` with `os_time_to_tick_multiplier`. -/
def timeToSystemTicks (multiplier time : Nat) : Nat :=
  ((time % 65536 * multiplier + 0x8000) / 65536 + time / 65536 * multiplier) % 2 ^ 32

/-- The first `nu_timeout` of `ObtainSemaphoreCB`; the wait is checked when a message is sent. -/
def nuTimeout (multiplier timeout : Nat) (waitCheck : Bool) : Nat :=
  if timeout ≠ osSuspend then timeToSystemTicks multiplier timeout else if waitCheck then 1 else osSuspend

/-- Where a task or interrupt stands. -/
inductive Task where
  | returned (r : Result)
  /-- In `NU_Obtain_Semaphore`, with the `nu_timeout` and the result so far. -/
  | obtaining (call : Call) (nuTimeout : Nat) (ret : Result)
  /-- With a unit of the semaphore, in front of the protected section. -/
  | holding (call : Call) (ret : Result)
  /-- Behind the protected section, in front of `ReleaseSemaphoreCB`. -/
  | releasing (call : Call) (ret : Result)
  deriving DecidableEq, Repr

/-- `wait_check` -/
def Call.waitCheck : Call → Bool
  | .send _ _ => true
  | .receive => false

/-- `NU_Obtain_Semaphore` has returned `NU_TIMEOUT` or `NU_UNAVAILABLE`. -/
def unavailable (call : Call) (nuTimeout : Nat) : Task :=
  if nuTimeout = 1 ∧ call.waitCheck then .obtaining call osSuspend .waited else .returned .timeout

/-! ### The system -/

/-- One queue, the tasks and interrupts that use it, and two records: the messages that sends have put into the
queue and those that receives have taken out of it. -/
structure System where
  table : ComTableEntry
  tasks : List Task
  accepted : List (Priority × OsQdata)
  delivered : List (Priority × OsQdata)

/-- The steps of task or interrupt `i`. -/
inductive SystemEvent where
  | send (i : Nat) (prio : Priority) (suspend : Nat) (msg : OsQdata)
  | receive (i : Nat) (timeout : Nat)
  /-- `NU_Obtain_Semaphore` returns `NU_SUCCESS`. -/
  | obtained (i : Nat)
  /-- It returns `NU_TIMEOUT` or `NU_UNAVAILABLE`. -/
  | unavailable (i : Nat)
  /-- It returns `NU_INVALID_SUSPEND`. -/
  | invalidSuspend (i : Nat)
  | protect (i : Nat)
  | release (i : Nat)
  deriving DecidableEq, Repr

/-- Puts a task where it goes to. -/
def System.go (s : System) (i : Nat) (t : Task) : System := { s with tasks := s.tasks.set i t }

/-- The semaphore that a call obtains. -/
def ComTableEntry.units (t : ComTableEntry) : Call → Nat
  | .send _ _ => t.freeSem
  | .receive => t.usedSem

/-- A unit is taken from the semaphore that a call obtains. -/
def ComTableEntry.obtain (t : ComTableEntry) : Call → ComTableEntry
  | .send _ _ => { t with freeSem := t.freeSem - 1 }
  | .receive => { t with usedSem := t.usedSem - 1 }

/-- A unit is given to the semaphore that a call releases. -/
def ComTableEntry.release (t : ComTableEntry) : Call → ComTableEntry
  | .send _ _ => { t with usedSem := t.usedSem + 1 }
  | .receive => { t with freeSem := t.freeSem + 1 }

/-- The protected section of a call. -/
def System.protect (s : System) (i : Nat) (call : Call) (ret : Result) : Option System :=
  match call with
  | .send prio msg =>
    (enqueue prio msg s.table).map fun t =>
      { s.go i (.releasing call ret) with table := t, accepted := s.accepted ++ [(prio, msg)] }
  | .receive =>
    match dequeue s.table with
    | some (p, msg, t) =>
      some { s.go i (.releasing call (.received msg)) with table := t, delivered := s.delivered ++ [(p, msg)] }
    | none => some (s.go i (.releasing call .error))

/-- A step. -/
def System.step (multiplier : Nat) (s : System) : SystemEvent → Option System
  | .send i prio suspend msg =>
    match s.tasks[i]? with
    | some (.returned _) =>
      some (s.go i (.obtaining (.send prio msg) (nuTimeout multiplier suspend true) .ok))
    | _ => none
  | .receive i timeout =>
    match s.tasks[i]? with
    | some (.returned _) =>
      some { s.go i (.obtaining .receive (nuTimeout multiplier timeout false) .ok) with
        table := { s.table with currentMsg := { s.table.currentMsg with type := 0 } } }
    | _ => none
  | .obtained i =>
    match s.tasks[i]? with
    | some (.obtaining call _ ret) =>
      if s.table.units call = 0 then none
      else some { s.go i (.holding call ret) with table := s.table.obtain call }
    | _ => none
  | .unavailable i =>
    match s.tasks[i]? with
    | some (.obtaining call timeout _) =>
      if s.table.units call = 0 ∧ timeout ≠ osSuspend then some (s.go i (Osl.unavailable call timeout)) else none
    | _ => none
  | .invalidSuspend i =>
    match s.tasks[i]? with
    | some (.obtaining call timeout ret) => if timeout = 0 then none else some (s.go i (.obtaining call 0 ret))
    | _ => none
  | .protect i =>
    match s.tasks[i]? with
    | some (.holding call ret) => s.protect i call ret
    | _ => none
  | .release i =>
    match s.tasks[i]? with
    | some (.releasing call ret) => some { s.go i (.returned ret) with table := s.table.release call }
    | _ => none

/-- The runs on a new queue with `entries` entries, with any number of tasks and interrupts. -/
def queue.machine (multiplier entries : Nat) : Machine System SystemEvent where
  init s :=
    (∃ element slots msg, osCreateQueue entries element slots msg = some s.table) ∧
      (∀ t ∈ s.tasks, ∃ r, t = .returned r) ∧ s.accepted = [] ∧ s.delivered = []
  step := System.step multiplier

end Citrine.Osl
