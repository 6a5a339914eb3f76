import Mathlib.Data.List.Nodup
import Mathlib.Tactic.ByContra
import Citrine.Lib.ForwardList
import Citrine.Lib.Machine
import Citrine.Rvf.Buffer

/-!
# Queues of buffers

`rvf_enqueue`, `rvf_enqueue_head`, `rvf_dequeue` and `rvf_remove_from_queue` (`rvf_buffer.c`).  A queue points to the
memory of its first and of its last buffer, while the headers of the buffers, 12 octets in front of their memory, point
to each other; 0 is `NULL`.  The lowest bit of the size in a header says whether the buffer is in a queue.
-/

namespace Citrine.Rvf

/-- `T_RVF_BUFFER_Q` -/
structure BufferQ where
  pFirst : Nat
  pLast : Nat
  count : Nat
  deriving DecidableEq, Repr

/-- `T_RVF_RET`, what these functions use of it. -/
inductive RvfRet where
  | ok | memoryErr | internalErr
  deriving DecidableEq, Repr

/-- The memory with the queues in it. -/
structure Queues where
  mem : Nat → Nat
  q : Nat → BufferQ

/-- `USER2MEM` -/
def user2Mem (pBuf : Nat) : Nat := pBuf - headerSize

/-- `MEM2USER` -/
def mem2User (pHdr : Nat) : Nat := pHdr + headerSize

namespace Queues
variable (s : Queues)

/-- `p_next` of a header. -/
def pNext (p : Nat) : Nat := s.mem (p + 4)

/-- `RVF_BUF_IS_LINKED` -/
def linked (p : Nat) : Bool := isLinked (s.mem p)

def store (a v : Nat) : Queues := { s with mem := fun x => if x = a then v else s.mem x }

def setPNext (p v : Nat) : Queues := s.store (p + 4) v

def setQ (k : Nat) (q : BufferQ) : Queues := { s with q := fun j => if j = k then q else s.q j }

/-- `RVF_SET_BUF_LINKED` and `RVF_SET_BUF_UNLINKED` -/
def mark (p : Nat) (linked : Bool) : Queues :=
  s.store p (if linked then setLinked (s.mem p) else setUnlinked (s.mem p))

/-- `rvf_enqueue` -/
def rvfEnqueue (k pBuf : Nat) : RvfRet × Queues :=
  let pHdr := user2Mem pBuf
  if s.linked pHdr then (.memoryErr, s)
  else
    let q := s.q k
    let (s, q) :=
      if q.pFirst ≠ 0 then (s.setPNext (q.pLast - headerSize) pHdr, q) else (s, { q with pFirst := pBuf })
    let s := s.setQ k { q with pLast := pBuf, count := (q.count + 1) % 65536 }
    let s := s.setPNext pHdr 0
    (.ok, s.mark pHdr true)

/-- `rvf_dequeue`: the buffer, or `NULL`. -/
def rvfDequeue (k : Nat) : Nat × Queues :=
  let q := s.q k
  if q.count = 0 then (0, s)
  else
    let pHdr := user2Mem q.pFirst
    let q :=
      if s.pNext pHdr ≠ 0 then { q with pFirst := s.pNext pHdr + headerSize }
      else { q with pFirst := 0, pLast := 0 }
    let s := s.setQ k { q with count := (q.count + 65535) % 65536 }
    let s := s.setPNext pHdr 0
    (mem2User pHdr, s.mark pHdr false)

/-- `rvf_enqueue_head` -/
def rvfEnqueueHead (k pBuf : Nat) : RvfRet × Queues :=
  let pHdr := user2Mem pBuf
  if s.linked pHdr then (.memoryErr, s)
  else
    let q := s.q k
    let (s, q) :=
      if q.pFirst ≠ 0 then (s.setPNext pHdr (q.pFirst - headerSize), { q with pFirst := pBuf })
      else (s.setPNext pHdr 0, { q with pFirst := pBuf, pLast := pBuf })
    let s := s.setQ k { q with count := (q.count + 1) % 65536 }
    (.ok, s.mark pHdr true)

/-- The loop of `rvf_remove_from_queue`: the header in front of the target, or the last one. -/
def findBefore (pTarget : Nat) : Nat → Nat → Nat
  | 0, pHdr => pHdr
  | fuel + 1, pHdr =>
    if s.pNext pHdr ≠ pTarget ∧ s.pNext pHdr ≠ 0 then findBefore pTarget fuel (s.pNext pHdr) else pHdr

/-- `rvf_remove_from_queue`.  The loop follows the queue, which has `count` buffers.  The pointer to the last buffer
is computed in units of a header, not of an octet. -/
def rvfRemoveFromQueue (k pBuf : Nat) : RvfRet × Queues :=
  let q := s.q k
  if q.count = 0 then (.internalErr, s)
  else
    let pTarget := user2Mem pBuf
    let pHdr := user2Mem q.pFirst
    if pHdr = pTarget then (.ok, (s.rvfDequeue k).2)
    else
      let pHdr := s.findBefore pTarget q.count pHdr
      if s.pNext pHdr = 0 then (.internalErr, s)
      else
        let s := s.setPNext pHdr (s.pNext pTarget)
        let q := { q with count := (q.count + 65535) % 65536 }
        let q := if q.pLast = pBuf then { q with pLast := pHdr + headerSize * headerSize } else q
        let s := s.setQ k q
        let s := s.setPNext pTarget 0
        (.ok, s.mark pTarget false)

end Queues

/-! ### Runs -/

inductive QueueCall where
  | enqueue (k pHdr : Nat)
  | enqueueHead (k pHdr : Nat)
  | dequeue (k : Nat)
  | remove (k pHdr : Nat)
  deriving DecidableEq, Repr

/-- What a call returns. -/
inductive QueueRet where
  | ret (r : RvfRet)
  | buf (p : Nat)
  deriving DecidableEq, Repr

/-- One call, for the buffer with a given header. -/
def Queues.call (s : Queues) : QueueCall → QueueRet × Queues
  | .enqueue k p => let (r, s) := s.rvfEnqueue k (mem2User p); (.ret r, s)
  | .enqueueHead k p => let (r, s) := s.rvfEnqueueHead k (mem2User p); (.ret r, s)
  | .dequeue k => let (b, s) := s.rvfDequeue k; (.buf b, s)
  | .remove k p => let (r, s) := s.rvfRemoveFromQueue k (mem2User p); (.ret r, s)

/-- The buffer a call is about. -/
def QueueCall.header : QueueCall → Option Nat
  | .enqueue _ p | .enqueueHead _ p | .remove _ p => some p
  | .dequeue _ => none

/-- The queues as lists of headers. -/
abbrev Contents := Nat → List Nat

def Contents.set (c : Contents) (k : Nat) (l : List Nat) : Contents := fun j => if j = k then l else c j

/-- What a queue is for: the same call on lists.  `queued` says that a buffer is in some queue. -/
def Contents.call (c : Contents) (queued : Nat → Bool) : QueueCall → QueueRet × Contents
  | .enqueue k p => if queued p then (.ret .memoryErr, c) else (.ret .ok, c.set k (c k ++ [p]))
  | .enqueueHead k p => if queued p then (.ret .memoryErr, c) else (.ret .ok, c.set k (p :: c k))
  | .dequeue k =>
    match c k with
    | [] => (.buf 0, c)
    | p :: l => (.buf (mem2User p), c.set k l)
  | .remove k p => if p ∈ c k then (.ret .ok, c.set k ((c k).erase p)) else (.ret .internalErr, c)

/-- The headers of the buffers do not overlap, and none of them is at the address of `NULL`. -/
structure Apart (bufs : Nat → Prop) : Prop where
  pos : ∀ p, bufs p → 0 < p
  far : ∀ p q, bufs p → bufs q → p ≠ q → p + headerSize ≤ q ∨ q + headerSize ≤ p

/-- The queues hold the lists: the pointers, the counts and the marks say so. -/
structure Queues.Law (bufs : Nat → Prop) (s : Queues) (c : Contents) : Prop where
  path : ∀ k, Path 0 s.pNext ((c k).headD 0) (c k)
  first : ∀ k, (s.q k).pFirst = ((c k).head?.map mem2User).getD 0
  last : ∀ k, (s.q k).pLast = ((c k).getLast?.map mem2User).getD 0
  count : ∀ k, (s.q k).count = (c k).length
  small : ∀ k, (c k).length < 65536
  linked : ∀ p, bufs p → (s.linked p ↔ ∃ k, p ∈ c k)
  mem : ∀ k p, p ∈ c k → bufs p
  nodup : ∀ k, (c k).Nodup
  disjoint : ∀ j k p, p ∈ c j → p ∈ c k → j = k

/-- The queues and the lists they should hold. -/
structure Shared where
  queues : Queues
  contents : Contents

/-- One call on both. -/
def Shared.call (s : Shared) (e : QueueCall) : Shared :=
  { queues := (s.queues.call e).2, contents := (s.contents.call s.queues.linked e).2 }

/-- The runs of calls for the buffers `bufs`, from empty queues and unlinked buffers. -/
def queue.machine (bufs : Nat → Prop) [DecidablePred bufs] : Machine Shared QueueCall where
  init s := (∀ k, s.queues.q k = ⟨0, 0, 0⟩) ∧ (∀ p, bufs p → s.queues.linked p = false) ∧ ∀ k, s.contents k = []
  step s e := if ∀ p ∈ e.header, bufs p then some (s.call e) else none

/-- The buffer to be removed is not the last one behind another one, and the count does not wrap. -/
def Shared.sound (s : Shared) : QueueCall → Bool
  | .enqueue k p | .enqueueHead k p => s.queues.linked p || decide ((s.queues.q k).count + 1 < 65536)
  | .dequeue _ => true
  | .remove k p => (s.queues.q k).pLast != mem2User p || (s.queues.q k).pFirst == mem2User p

/-! ### The memory -/

@[simp] theorem user2Mem_mem2User (p : Nat) : user2Mem (mem2User p) = p := Nat.add_sub_cancel p headerSize

theorem mem2User_inj {p q : Nat} : mem2User p = mem2User q ↔ p = q := Nat.add_left_inj

theorem mem2User_ne_zero (p : Nat) : mem2User p ≠ 0 := Nat.succ_ne_zero _

namespace Queues
variable {bufs : Nat → Prop} {s s' : Queues} {p q : Nat}

theorem pNext_setPNext (v : Nat) : (s.setPNext p v).pNext q = if q = p then v else s.pNext q := by
  simp only [setPNext, store, pNext, Nat.add_right_cancel_iff]

theorem linked_setPNext (hb : Apart bufs) (hp : bufs p) (hq : bufs q) (v : Nat) :
    (s.setPNext p v).linked q = s.linked q := by
  have hne : q ≠ p + 4 := by
    rintro rfl
    have := hb.far p (p + 4) hp hq (by omega)
    simp only [headerSize] at this
    omega
  simp only [setPNext, store, linked, hne, if_false]

theorem pNext_mark (hb : Apart bufs) (hp : bufs p) (hq : bufs q) (b : Bool) : (s.mark p b).pNext q = s.pNext q := by
  have hne : q + 4 ≠ p := by
    rintro rfl
    have := hb.far q (q + 4) hq hp (by omega)
    simp only [headerSize] at this
    omega
  simp only [mark, store, pNext, hne, if_false]

theorem linked_mark (b : Bool) : (s.mark p b).linked q = if q = p then b else s.linked q := by
  unfold mark store linked
  dsimp only
  split
  · cases b
    · simp [setUnlinked, isLinked]
    · simp [setLinked, isLinked]
  · rfl

@[simp] theorem pNext_setQ (k : Nat) (x : BufferQ) : (s.setQ k x).pNext p = s.pNext p := rfl

@[simp] theorem linked_setQ (k : Nat) (x : BufferQ) : (s.setQ k x).linked p = s.linked p := rfl

@[simp] theorem q_setQ (k j : Nat) (x : BufferQ) : (s.setQ k x).q j = if j = k then x else s.q j := rfl

@[simp] theorem q_setPNext (v : Nat) : (s.setPNext p v).q = s.q := rfl

@[simp] theorem q_mark (b : Bool) : (s.mark p b).q = s.q := rfl

end Queues

/-! ### One queue changes -/

section
variable {bufs : Nat → Prop} {s s' : Queues} {c : Contents} {k p : Nat} {x : BufferQ} {l : List Nat}

/-- One queue gets another list, and the others keep theirs. -/
private theorem Queues.Law.update (h : s.Law bufs c) (hq : ∀ j, s'.q j = if j = k then x else s.q j)
    (hother : ∀ j, j ≠ k → ∀ a ∈ c j, s'.pNext a = s.pNext a) (hpath : Path 0 s'.pNext (l.headD 0) l)
    (hfirst : x.pFirst = (l.head?.map mem2User).getD 0) (hlast : x.pLast = (l.getLast?.map mem2User).getD 0)
    (hcount : x.count = l.length) (hsmall : l.length < 65536) (hlinked : ∀ a, bufs a → (s'.linked a ↔ a ∈ l ∨ ∃ j, j ≠ k ∧ a ∈ c j))
    (hmem : ∀ a ∈ l, bufs a) (hnodup : l.Nodup) (hdisj : ∀ a ∈ l, ∀ j, j ≠ k → a ∉ c j) :
    s'.Law bufs (c.set k l) := by
  have hset : ∀ j, c.set k l j = if j = k then l else c j := fun _ => rfl
  refine ⟨fun j => ?_, fun j => ?_, fun j => ?_, fun j => ?_, fun j => ?_, fun a ha => ?_, fun j a ha => ?_,
    fun j => ?_, fun i j a hi hj => ?_⟩
  · rw [hset]
    split
    · exact hpath
    · rename_i hj
      exact (h.path j).congr (hother j hj)
  · rw [hset, hq]
    split
    · exact hfirst
    · exact h.first j
  · rw [hset, hq]
    split
    · exact hlast
    · exact h.last j
  · rw [hset, hq]
    split
    · exact hcount
    · exact h.count j
  · rw [hset]
    split
    · exact hsmall
    · exact h.small j
  · rw [hlinked a ha]
    constructor
    · rintro (hal | ⟨j, hj, haj⟩)
      · exact ⟨k, by rw [hset, if_pos rfl]; exact hal⟩
      · exact ⟨j, by rw [hset, if_neg hj]; exact haj⟩
    · rintro ⟨j, haj⟩
      rw [hset] at haj
      split at haj
      · exact .inl haj
      · rename_i hj
        exact .inr ⟨j, hj, haj⟩
  · rw [hset] at ha
    split at ha
    · exact hmem a ha
    · exact h.mem j a ha
  · rw [hset]
    split
    · exact hnodup
    · exact h.nodup j
  · rw [hset] at hi hj
    split at hi <;> split at hj
    · rename_i hik hjk
      rw [hik, hjk]
    · rename_i hjk
      exact absurd hj (hdisj a hi j hjk)
    · rename_i hik _
      exact absurd hi (hdisj a hj i hik)
    · exact h.disjoint i j a hi hj

private theorem Queues.Law.linked_iff (h : s.Law bufs c) (hp : bufs p) :
    s.linked p ↔ p ∈ c k ∨ ∃ j, j ≠ k ∧ p ∈ c j := by
  rw [h.linked p hp]
  constructor
  · rintro ⟨j, hj⟩
    by_cases hjk : j = k
    · exact .inl (hjk ▸ hj)
    · exact .inr ⟨j, hjk, hj⟩
  · rintro (hk | ⟨j, -, hj⟩)
    · exact ⟨k, hk⟩
    · exact ⟨j, hj⟩

private theorem Queues.Law.not_mem (h : s.Law bufs c) (hp : bufs p) (hl : s.linked p = false) (j : Nat) : p ∉ c j := by
  intro hj
  rw [(h.linked p hp).2 ⟨j, hj⟩] at hl
  cases hl

end

/-! ### Appending -/

section
variable {bufs : Nat → Prop} {s : Queues} {c : Contents} {k p z : Nat} {l : List Nat}

private theorem Queues.Law.first_zero (h : s.Law bufs c) : (s.q k).pFirst = 0 ↔ c k = [] := by
  rw [h.first]
  cases c k with
  | nil => simp
  | cons a l => simp [mem2User_ne_zero]

private theorem linked_new {s' : Queues} (h : s.Law bufs c) (hl : ∀ a, a ∈ l ↔ a = p ∨ a ∈ c k)
    (hs : ∀ a, bufs a → s'.linked a = if a = p then true else s.linked a) (a : Nat) (ha : bufs a) :
    s'.linked a ↔ a ∈ l ∨ ∃ j, j ≠ k ∧ a ∈ c j := by
  rw [hs a ha, hl]
  split
  · rename_i hap
    exact iff_of_true rfl (.inl (.inl hap))
  · rename_i hap
    rw [h.linked_iff (k := k) ha]
    simp only [hap, false_or]

private theorem append_new (h : s.Law bufs c) (hp : bufs p) (hl : s.linked p = false) :
    (c k ++ [p]).Nodup ∧ (∀ a ∈ c k ++ [p], bufs a) ∧ ∀ a ∈ c k ++ [p], ∀ j, j ≠ k → a ∉ c j := by
  refine ⟨?_, fun a ha => ?_, fun a ha j hj haj => ?_⟩
  · rw [List.nodup_append]
    refine ⟨h.nodup k, List.nodup_singleton p, fun a ha b hb hab => ?_⟩
    rw [List.mem_singleton] at hb
    exact h.not_mem hp hl k (hb ▸ hab ▸ ha)
  · rw [List.mem_append, List.mem_singleton] at ha
    rcases ha with ha | rfl
    · exact h.mem k a ha
    · exact hp
  · rw [List.mem_append, List.mem_singleton] at ha
    rcases ha with ha | rfl
    · exact hj (h.disjoint j k a haj ha)
    · exact h.not_mem hp hl j haj

/-- `rvf_enqueue` on an empty queue. -/
private theorem rvfEnqueue_empty (hl : s.linked p = false) (hz : (s.q k).pFirst = 0) :
    s.rvfEnqueue k (mem2User p) = (.ok, ((s.setQ k ⟨mem2User p, mem2User p, ((s.q k).count + 1) % 65536⟩).setPNext p
      0).mark p true) := by
  unfold Queues.rvfEnqueue
  simp only [user2Mem_mem2User, hl, hz, ne_eq, not_true, if_false, Bool.false_eq_true]

/-- `rvf_enqueue` behind the last buffer. -/
private theorem rvfEnqueue_behind (hl : s.linked p = false) (hz : (s.q k).pFirst ≠ 0)
    (hlast : (s.q k).pLast = mem2User z) :
    s.rvfEnqueue k (mem2User p) = (.ok, (((s.setPNext z p).setQ k ⟨(s.q k).pFirst, mem2User p,
      ((s.q k).count + 1) % 65536⟩).setPNext p 0).mark p true) := by
  have hz' : mem2User z - headerSize = z := user2Mem_mem2User z
  unfold Queues.rvfEnqueue
  simp only [user2Mem_mem2User, hl, hz, hlast, hz', ne_eq, not_false_eq_true, if_true, if_false, Bool.false_eq_true]

theorem Queues.Law.enqueue (hb : Apart bufs) (h : s.Law bufs c) (hp : bufs p) (hl : s.linked p = false)
    (hc : (s.q k).count + 1 < 65536) :
    (s.rvfEnqueue k (mem2User p)).1 = .ok ∧ (s.rvfEnqueue k (mem2User p)).2.Law bufs (c.set k (c k ++ [p])) := by
  have hlen : ((s.q k).count + 1) % 65536 = (c k ++ [p]).length := by
    rw [Nat.mod_eq_of_lt hc, h.count, List.length_append]
    rfl
  have hsmall : (c k ++ [p]).length < 65536 := by
    rw [← hlen]
    exact Nat.mod_lt _ (by decide)
  obtain ⟨hnodup, hmem, hdisj⟩ := append_new (k := k) h hp hl
  have hnew : ∀ a, a ∈ c k ++ [p] ↔ a = p ∨ a ∈ c k := fun a => by
    rw [List.mem_append, List.mem_singleton]
    exact or_comm
  rcases List.eq_nil_or_concat (c k) with hk | ⟨l, z, hk⟩
  · rw [rvfEnqueue_empty hl (h.first_zero.2 hk)]
    refine ⟨rfl, h.update (fun j => rfl) (fun j _ a ha => ?_) ?_ ?_ ?_ hlen hsmall
      (linked_new h hnew fun a ha => ?_) hmem hnodup hdisj⟩
    · rw [Queues.pNext_mark hb hp (h.mem j a ha), Queues.pNext_setPNext, if_neg, Queues.pNext_setQ]
      rintro rfl
      exact h.not_mem hp hl j ha
    · rw [hk]
      refine ⟨rfl, (Nat.ne_of_gt (hb.pos p hp)), ?_⟩
      change _ = 0
      rw [Queues.pNext_mark hb hp hp, Queues.pNext_setPNext, if_pos rfl]
    · rw [hk]
      rfl
    · rw [hk]
      rfl
    · rw [Queues.linked_mark, Queues.linked_setPNext hb hp ha, Queues.linked_setQ]
  · have hkz : c k = l ++ [z] := hk.trans (List.concat_eq_append ..)
    have hne : c k ≠ [] := by simp [hkz]
    have hzk : z ∈ c k := by simp [hkz]
    have hz := h.mem k z hzk
    have hlast : (s.q k).pLast = mem2User z := by simp [h.last, hkz]
    have hpz : p ≠ z := by
      rintro rfl
      exact h.not_mem hp hl k hzk
    rw [rvfEnqueue_behind hl (mt h.first_zero.1 hne) hlast]
    have hnext : ∀ a, bufs a → ((((s.setPNext z p).setQ k ⟨(s.q k).pFirst, mem2User p,
        ((s.q k).count + 1) % 65536⟩).setPNext p 0).mark p true).pNext a =
        if a = p then 0 else if a = z then p else s.pNext a := fun a ha => by
      rw [Queues.pNext_mark hb hp ha, Queues.pNext_setPNext, Queues.pNext_setQ, Queues.pNext_setPNext]
    refine ⟨rfl, h.update (fun j => rfl) (fun j hj a ha => ?_) ?_ ?_ ?_ hlen hsmall
      (linked_new h hnew fun a ha => ?_) hmem hnodup hdisj⟩
    · rw [hnext a (h.mem j a ha), if_neg, if_neg]
      · rintro rfl
        exact hj (h.disjoint j k a ha hzk)
      · rintro rfl
        exact h.not_mem hp hl j ha
    · have hpath := h.path k
      have hnd := h.nodup k
      have hhead : (c k ++ [p]).headD 0 = (c k).headD 0 := by
        cases hck : c k with
        | nil => exact absurd hck hne
        | cons a m => rfl
      rw [hhead, hkz, List.append_assoc]
      rw [hkz] at hpath hnd
      refine hpath.snoc (Nat.ne_of_gt (hb.pos p hp)) (fun a ha => ?_) ?_ ?_
      · have hak : a ∈ c k := by simp [hkz, ha]
        rw [hnext a (h.mem k a hak), if_neg, if_neg]
        · rintro rfl
          exact (List.nodup_append.1 hnd).2.2 a ha a (List.mem_singleton_self a) rfl
        · rintro rfl
          exact h.not_mem hp hl k hak
      · rw [hnext z hz, if_neg (Ne.symm hpz), if_pos rfl]
      · rw [hnext p hp, if_pos rfl]
    · rw [List.head?_append_of_ne_nil _ hne]
      exact h.first k
    · simp
    · rw [Queues.linked_mark, Queues.linked_setPNext hb hp ha, Queues.linked_setQ, Queues.linked_setPNext hb hz ha]

end

/-! ### Prepending -/

section
variable {bufs : Nat → Prop} {s : Queues} {c : Contents} {k p z : Nat} {l : List Nat}

private theorem push_new (h : s.Law bufs c) (hp : bufs p) (hl : s.linked p = false) :
    (p :: c k).Nodup ∧ (∀ a ∈ p :: c k, bufs a) ∧ ∀ a ∈ p :: c k, ∀ j, j ≠ k → a ∉ c j := by
  refine ⟨List.nodup_cons.2 ⟨h.not_mem hp hl k, h.nodup k⟩, fun a ha => ?_, fun a ha j hj haj => ?_⟩
  · rcases List.mem_cons.1 ha with rfl | ha
    · exact hp
    · exact h.mem k a ha
  · rcases List.mem_cons.1 ha with rfl | ha
    · exact h.not_mem hp hl j haj
    · exact hj (h.disjoint j k a haj ha)

/-- The header of the first buffer, 0 for an empty queue. -/
private theorem Queues.Law.first_header (h : s.Law bufs c) :
    (if (s.q k).pFirst ≠ 0 then (s.q k).pFirst - headerSize else 0) = (c k).headD 0 := by
  rw [h.first]
  cases c k with
  | nil => rfl
  | cons a l => exact if_pos (mem2User_ne_zero a)

/-- `rvf_enqueue_head`, whatever the queue holds. -/
private theorem rvfEnqueueHead_eq (hl : s.linked p = false) :
    s.rvfEnqueueHead k (mem2User p) = (.ok, ((s.setPNext p
      (if (s.q k).pFirst ≠ 0 then (s.q k).pFirst - headerSize else 0)).setQ k ⟨mem2User p,
      if (s.q k).pFirst ≠ 0 then (s.q k).pLast else mem2User p, ((s.q k).count + 1) % 65536⟩).mark p true) := by
  unfold Queues.rvfEnqueueHead
  simp only [user2Mem_mem2User, hl, Bool.false_eq_true, if_false]
  by_cases hz : (s.q k).pFirst ≠ 0
  · simp only [hz, if_true, ne_eq, not_false_eq_true]
  · simp only [hz, if_false]

theorem Queues.Law.enqueueHead (hb : Apart bufs) (h : s.Law bufs c) (hp : bufs p) (hl : s.linked p = false)
    (hc : (s.q k).count + 1 < 65536) :
    (s.rvfEnqueueHead k (mem2User p)).1 = .ok ∧
      (s.rvfEnqueueHead k (mem2User p)).2.Law bufs (c.set k (p :: c k)) := by
  have hlen : ((s.q k).count + 1) % 65536 = (p :: c k).length := by
    rw [Nat.mod_eq_of_lt hc, h.count]
    rfl
  have hsmall : (p :: c k).length < 65536 := by
    rw [← hlen]
    exact Nat.mod_lt _ (by decide)
  obtain ⟨hnodup, hmem, hdisj⟩ := push_new (k := k) h hp hl
  rw [rvfEnqueueHead_eq hl, h.first_header]
  have hother : ∀ j, ∀ a ∈ c j, (((s.setPNext p ((c k).headD 0)).setQ k ⟨mem2User p,
      if (s.q k).pFirst ≠ 0 then (s.q k).pLast else mem2User p, ((s.q k).count + 1) % 65536⟩).mark p true).pNext a =
      s.pNext a := fun j a ha => by
    rw [Queues.pNext_mark hb hp (h.mem j a ha), Queues.pNext_setQ, Queues.pNext_setPNext, if_neg]
    rintro rfl
    exact h.not_mem hp hl j ha
  refine ⟨rfl, h.update (fun j => rfl) (fun j _ a ha => hother j a ha) ?_ rfl ?_ hlen hsmall
    (linked_new h (fun a => List.mem_cons) fun a ha => ?_) hmem hnodup hdisj⟩
  · refine (h.path k).push (Nat.ne_of_gt (hb.pos p hp)) (hother k) ?_
    rw [List.headD_cons, Queues.pNext_mark hb hp hp, Queues.pNext_setQ, Queues.pNext_setPNext, if_pos rfl]
  · have hz := h.first_zero (k := k)
    have hlast := h.last k
    cases hck : c k with
    | nil =>
      dsimp only
      rw [if_neg (not_not_intro (hz.2 hck))]
      rfl
    | cons a l =>
      dsimp only
      rw [if_pos (mt hz.1 (by simp [hck])), hlast, hck]
      rfl
  · rw [Queues.linked_mark, Queues.linked_setQ, Queues.linked_setPNext hb hp ha]

end

/-! ### Taking out -/

section
variable {bufs : Nat → Prop} {s : Queues} {c : Contents} {k p z : Nat} {l m : List Nat}

private theorem linked_without {s' : Queues} (h : s.Law bufs c) (hpk : p ∈ c k) (hl : ∀ a, a ∈ l ↔ a ∈ c k ∧ a ≠ p)
    (hs : ∀ a, bufs a → s'.linked a = if a = p then false else s.linked a) (a : Nat) (ha : bufs a) :
    s'.linked a ↔ a ∈ l ∨ ∃ j, j ≠ k ∧ a ∈ c j := by
  rw [hs a ha, hl]
  split
  · rename_i hap
    refine iff_of_false Bool.false_ne_true ?_
    rintro (⟨-, hne⟩ | ⟨j, hj, haj⟩)
    · exact hne hap
    · exact hj (h.disjoint j k p (hap ▸ haj) hpk)
  · rename_i hap
    rw [h.linked_iff (k := k) ha]
    simp only [ne_eq, hap, not_false_eq_true, and_true]

/-- What a list without one of its members inherits. -/
private theorem drop_old (h : s.Law bufs c) (hk : c k = l ++ p :: m) :
    (l ++ m).Nodup ∧ (∀ a ∈ l ++ m, bufs a) ∧ (∀ a ∈ l ++ m, ∀ j, j ≠ k → a ∉ c j) ∧
      (∀ a, a ∈ l ++ m ↔ a ∈ c k ∧ a ≠ p) ∧ (l ++ m).length + 1 = (c k).length := by
  have hnd := h.nodup k
  rw [hk, List.nodup_middle, List.nodup_cons] at hnd
  have hin : ∀ a, a ∈ l ++ m → a ∈ c k := fun a ha => by
    rw [hk, List.mem_append, List.mem_cons]
    rcases List.mem_append.1 ha with ha | ha
    · exact .inl ha
    · exact .inr (.inr ha)
  refine ⟨hnd.2, fun a ha => h.mem k a (hin a ha), fun a ha j hj haj => hj (h.disjoint j k a haj (hin a ha)),
    fun a => ⟨fun ha => ⟨hin a ha, ?_⟩, ?_⟩, ?_⟩
  · rintro rfl
    exact hnd.1 ha
  · rintro ⟨ha, hne⟩
    rw [hk, List.mem_append, List.mem_cons] at ha
    rw [List.mem_append]
    rcases ha with ha | ha | ha
    · exact .inl ha
    · exact absurd ha hne
    · exact .inr ha
  · rw [hk]
    simp only [List.length_append, List.length_cons]
    omega

/-- `rvf_dequeue` of a queue that is not empty. -/
private theorem rvfDequeue_eq (hc : (s.q k).count ≠ 0) (hf : (s.q k).pFirst = mem2User p) :
    s.rvfDequeue k = (mem2User p, ((s.setQ k
      (if s.pNext p ≠ 0 then ⟨mem2User (s.pNext p), (s.q k).pLast, ((s.q k).count + 65535) % 65536⟩
        else ⟨0, 0, ((s.q k).count + 65535) % 65536⟩)).setPNext p 0).mark p false) := by
  unfold Queues.rvfDequeue
  simp only [hc, if_false, hf, user2Mem_mem2User]
  by_cases hn : s.pNext p ≠ 0
  · simp only [hn, if_true, ne_eq, not_false_eq_true]
    rfl
  · simp only [hn, if_false]

theorem Queues.Law.dequeue (hb : Apart bufs) (h : s.Law bufs c) (hk : c k = p :: l) :
    (s.rvfDequeue k).1 = mem2User p ∧ (s.rvfDequeue k).2.Law bufs (c.set k l) := by
  have hpk : p ∈ c k := by simp [hk]
  have hp := h.mem k p hpk
  have hfirst : (s.q k).pFirst = mem2User p := by rw [h.first, hk]; rfl
  have hcount : (s.q k).count = l.length + 1 := by rw [h.count, hk]; rfl
  have hsmall := h.small k
  rw [hk, List.length_cons] at hsmall
  obtain ⟨hnodup, hmem, hdisj, hold, -⟩ := drop_old (l := []) h hk
  have hpath := h.path k
  rw [hk] at hpath
  have hnext : s.pNext p = l.headD 0 := hpath.2.2.begin
  have hdec : ((s.q k).count + 65535) % 65536 = l.length := by omega
  rw [rvfDequeue_eq (by omega) hfirst, hdec, hnext]
  have hother : ∀ j, ∀ a ∈ c j, a ≠ p → ((((s.setQ k (if l.headD 0 ≠ 0 then
      ⟨mem2User (l.headD 0), (s.q k).pLast, l.length⟩ else ⟨0, 0, l.length⟩)).setPNext p 0).mark p false).pNext a =
      s.pNext a) := fun j a ha hne => by
    rw [Queues.pNext_mark hb hp (h.mem j a ha), Queues.pNext_setPNext, if_neg hne, Queues.pNext_setQ]
  refine ⟨rfl, h.update (fun j => rfl) (fun j hj a ha => hother j a ha ?_) ?_ ?_ ?_ ?_ (by omega)
    (linked_without h hpk hold fun a ha => ?_) hmem hnodup hdisj⟩
  · rintro rfl
    exact hj (h.disjoint j k a ha hpk)
  · have hl : Path 0 s.pNext (l.headD 0) l := hnext ▸ hpath.2.2
    exact hl.congr fun a ha => hother k a ((hold a).1 ha).1 ((hold a).1 ha).2
  · cases l with
    | nil => rfl
    | cons b l =>
      rw [if_pos]
      · rfl
      · exact Nat.ne_of_gt (hb.pos b (hmem b List.mem_cons_self))
  · cases l with
    | nil => rfl
    | cons b l =>
      rw [if_pos]
      · dsimp only
        rw [h.last, hk]
        rfl
      · exact Nat.ne_of_gt (hb.pos b (hmem b List.mem_cons_self))
  · split <;> rfl
  · rw [Queues.linked_mark, Queues.linked_setPNext hb hp ha, Queues.linked_setQ]

end

/-! ### Removing -/

section
variable {bufs : Nat → Prop} {s : Queues} {c : Contents} {k p z : Nat} {l m : List Nat}

/-- The loop stops at the header in front of the target, when the target lies on the path. -/
private theorem findBefore_front {a : Nat} (h : Path 0 s.pNext a (l ++ z :: p :: m)) (hp : p ∉ l) (hz : p ≠ z)
    {n : Nat} (hn : l.length < n) : s.findBefore p n a = z := by
  induction l generalizing a n with
  | nil =>
    obtain ⟨rfl, -, hnext, -⟩ := h
    cases n with
    | zero => cases hn
    | succ n =>
      unfold Queues.findBefore
      rw [if_neg fun hc => hc.1 hnext]
  | cons b l ih =>
    obtain ⟨rfl, -, hrest⟩ := h
    rw [List.mem_cons, not_or] at hp
    cases n with
    | zero => cases hn
    | succ n =>
      have hbegin : s.pNext a = (l ++ z :: p :: m).headD 0 := hrest.begin
      have hmem : s.pNext a ∈ l ++ [z] := by
        rw [hbegin]
        cases l with
        | nil => exact List.mem_singleton_self z
        | cons b l => exact List.mem_cons_self
      have hne : s.pNext a ≠ p := by
        intro hap
        rw [hap, List.mem_append, List.mem_singleton] at hmem
        exact hmem.elim hp.2 hz
      have hnz : s.pNext a ≠ 0 := hrest.ne_null (by
        rcases List.mem_append.1 hmem with h' | h'
        · exact List.mem_append_left _ h'
        · rw [List.mem_singleton.1 h']
          exact List.mem_append_right _ List.mem_cons_self)
      unfold Queues.findBefore
      rw [if_pos ⟨hne, hnz⟩]
      exact ih hrest hp.2 (Nat.lt_of_succ_lt_succ hn)

/-- The loop stops at the last header, when the target does not lie on the path. -/
private theorem findBefore_last {a : Nat} (h : Path 0 s.pNext a (l ++ [z])) (hp : p ∉ l ++ [z]) {n : Nat}
    (hn : l.length < n) : s.findBefore p n a = z := by
  induction l generalizing a n with
  | nil =>
    obtain ⟨rfl, -, hnext⟩ := h
    cases n with
    | zero => cases hn
    | succ n =>
      unfold Queues.findBefore
      rw [if_neg fun hc => hc.2 hnext]
  | cons b l ih =>
    obtain ⟨rfl, -, hrest⟩ := h
    rw [List.cons_append, List.mem_cons, not_or] at hp
    cases n with
    | zero => cases hn
    | succ n =>
      have hbegin : s.pNext a = (l ++ [z]).headD 0 := hrest.begin
      have hmem : s.pNext a ∈ l ++ [z] := by
        rw [hbegin]
        cases l with
        | nil => exact List.mem_singleton_self z
        | cons b l => exact List.mem_cons_self
      unfold Queues.findBefore
      rw [if_pos ⟨fun hap => hp.2 (hap ▸ hmem), hrest.ne_null hmem⟩]
      exact ih hrest hp.2 (Nat.lt_of_succ_lt_succ hn)

private theorem Queues.Law.begins (h : s.Law bufs c) (hk : c k ≠ []) :
    user2Mem (s.q k).pFirst = (c k).headD 0 ∧ (c k).headD 0 ∈ c k := by
  rw [h.first]
  cases hck : c k with
  | nil => exact absurd hck hk
  | cons a l => exact ⟨user2Mem_mem2User a, List.mem_cons_self⟩

/-- A buffer that is not in the queue. -/
theorem Queues.Law.remove_absent (h : s.Law bufs c) (hp : p ∉ c k) :
    s.rvfRemoveFromQueue k (mem2User p) = (.internalErr, s) := by
  unfold Queues.rvfRemoveFromQueue
  simp only [user2Mem_mem2User]
  rcases List.eq_nil_or_concat (c k) with hk | ⟨l, z, hk⟩
  · have hz : (s.q k).count = 0 := by rw [h.count, hk]; rfl
    rw [if_pos hz]
  · have hkz : c k = l ++ [z] := hk.trans (List.concat_eq_append ..)
    have hcount : (s.q k).count = l.length + 1 := by rw [h.count, hkz, List.length_append]; rfl
    obtain ⟨hfirst, hin⟩ := h.begins (k := k) (by simp [hkz])
    have hne : (c k).headD 0 ≠ p := fun he => hp (he ▸ hin)
    have hpath := h.path k
    have hlast : s.findBefore p (s.q k).count ((c k).headD 0) = z := by
      rw [hcount]
      rw [hkz] at hpath hp ⊢
      exact findBefore_last hpath hp (Nat.lt_succ_self _)
    have hend : s.pNext z = 0 := by
      rw [hkz] at hpath
      exact hpath.split.2
    rw [if_neg (by omega), hfirst, if_neg hne, hlast, if_pos hend]

/-- The first buffer of the queue. -/
theorem Queues.Law.remove_first (hb : Apart bufs) (h : s.Law bufs c) (hk : c k = p :: l) :
    (s.rvfRemoveFromQueue k (mem2User p)).1 = .ok ∧
      (s.rvfRemoveFromQueue k (mem2User p)).2.Law bufs (c.set k l) := by
  have hfirst : (s.q k).pFirst = mem2User p := by rw [h.first, hk]; rfl
  have hcount : (s.q k).count = l.length + 1 := by rw [h.count, hk]; rfl
  have hret : s.rvfRemoveFromQueue k (mem2User p) = (.ok, (s.rvfDequeue k).2) := by
    unfold Queues.rvfRemoveFromQueue
    simp only [hfirst, if_true]
    rw [if_neg (by omega)]
  rw [hret]
  exact ⟨rfl, (h.dequeue hb hk).2⟩

/-- Two neighbours in a queue, and what lies around them. -/
private theorem Queues.Law.neighbours (h : s.Law bufs c) (hk : c k = l ++ z :: p :: m) :
    (p ∉ l ∧ p ≠ z ∧ p ∉ m) ∧ z ∉ l ∧ z ∉ m := by
  have hnd := h.nodup k
  rw [hk, List.nodup_append, List.nodup_cons, List.nodup_cons] at hnd
  refine ⟨⟨fun hl => hnd.2.2 p hl p (by simp) rfl, ?_, hnd.2.1.2.1⟩, fun hl => hnd.2.2 z hl z (by simp) rfl,
    fun hm => hnd.2.1.1 (List.mem_cons_of_mem _ hm)⟩
  rintro rfl
  exact hnd.2.1.1 List.mem_cons_self

private theorem Queues.Law.last_iff (h : s.Law bufs c) (hk : c k = l ++ z :: p :: m) :
    (s.q k).pLast = mem2User p ↔ m = [] := by
  rw [h.last, hk]
  rcases List.eq_nil_or_concat m with rfl | ⟨m', y, hm⟩
  · simp
  · have hmy : m = m' ++ [y] := hm.trans (List.concat_eq_append ..)
    have hyp : y ≠ p := by
      rintro rfl
      exact (h.neighbours hk).1.2.2 (by simp [hmy])
    have hend : l ++ z :: p :: m = (l ++ z :: p :: m') ++ [y] := by simp [hmy]
    rw [hend, List.getLast?_concat, Option.map_some, Option.getD_some, mem2User_inj]
    exact iff_of_false hyp (by simp [hmy])

/-- What is left of the queue without a buffer behind another one. -/
private theorem rvfRemoveFromQueue_eq (h : s.Law bufs c) (hk : c k = l ++ z :: p :: m) :
    s.rvfRemoveFromQueue k (mem2User p) = (.ok, (((s.setPNext z (s.pNext p)).setQ k ⟨(s.q k).pFirst,
      if m = [] then z + headerSize * headerSize else (s.q k).pLast, (c k).length - 1⟩).setPNext p 0).mark p false) := by
  have hpath := h.path k
  have hnd := h.nodup k
  have hsmall := h.small k
  have hcount : (s.q k).count = l.length + m.length + 2 := by
    rw [h.count, hk, List.length_append, List.length_cons, List.length_cons]
    omega
  rw [h.count] at hcount
  have hpl := (h.neighbours hk).1
  have hfirst := (h.begins (k := k) (by simp [hk])).1
  have hne : (c k).headD 0 ≠ p := by
    intro he
    rw [hk] at he
    cases l with
    | nil => exact hpl.2.1 he.symm
    | cons b l => exact hpl.1 (he ▸ List.mem_cons_self)
  have hbefore : s.findBefore p (c k).length ((c k).headD 0) = z := by
    rw [hcount]
    rw [hk] at hpath ⊢
    exact findBefore_front hpath hpl.1 hpl.2.1 (by omega)
  have hnext : s.pNext z = p ∧ p ≠ 0 := by
    rw [hk] at hpath
    exact ⟨hpath.split.2.1, hpath.split.2.2.1⟩
  have hlast := h.last_iff hk
  have hdec : ((c k).length + 65535) % 65536 = (c k).length - 1 := by omega
  unfold Queues.rvfRemoveFromQueue
  simp only [user2Mem_mem2User, h.count, hdec]
  rw [if_neg (by omega), hfirst, if_neg hne, hbefore, hnext.1, if_neg hnext.2]
  by_cases hm : m = []
  · simp only [hlast.2 hm, hm, if_true]
  · simp only [mt hlast.1 hm, hm, if_false]

/-- A buffer in the middle of the queue. -/
theorem Queues.Law.remove_middle (hb : Apart bufs) (h : s.Law bufs c) (hk : c k = l ++ z :: p :: m) (hm : m ≠ []) :
    (s.rvfRemoveFromQueue k (mem2User p)).1 = .ok ∧
      (s.rvfRemoveFromQueue k (mem2User p)).2.Law bufs (c.set k (l ++ z :: m)) := by
  have hpk : p ∈ c k := by simp [hk]
  have hzk : z ∈ c k := by simp [hk]
  have hp := h.mem k p hpk
  have hz := h.mem k z hzk
  have hk' : c k = (l ++ [z]) ++ p :: m := by simp [hk]
  have hold := drop_old h hk'
  rw [show l ++ [z] ++ m = l ++ z :: m by simp] at hold
  obtain ⟨hnodup, hmem, hdisj, hold, hlen⟩ := hold
  have hsmall := h.small k
  have hzp : z ≠ p := ((hold z).1 (by simp)).2
  rw [rvfRemoveFromQueue_eq h hk, if_neg hm]
  have hnext : ∀ a, bufs a → ((((s.setPNext z (s.pNext p)).setQ k ⟨(s.q k).pFirst, (s.q k).pLast,
      (c k).length - 1⟩).setPNext p 0).mark p false).pNext a =
      if a = p then 0 else if a = z then s.pNext p else s.pNext a := fun a ha => by
    rw [Queues.pNext_mark hb hp ha, Queues.pNext_setPNext, Queues.pNext_setQ, Queues.pNext_setPNext]
  have hkeep : ∀ j, ∀ a ∈ c j, a ≠ p → a ≠ z → ((((s.setPNext z (s.pNext p)).setQ k ⟨(s.q k).pFirst, (s.q k).pLast,
      (c k).length - 1⟩).setPNext p 0).mark p false).pNext a = s.pNext a := fun j a ha hne hnz => by
    rw [hnext a (h.mem j a ha), if_neg hne, if_neg hnz]
  obtain ⟨-, hzl, hzm⟩ := h.neighbours hk
  refine ⟨rfl, h.update (fun j => rfl) (fun j hj a ha => hkeep j a ha ?_ ?_) ?_ ?_ ?_ ?_ (by omega)
    (linked_without h hpk hold fun a ha => ?_) hmem hnodup hdisj⟩
  · rintro rfl
    exact hj (h.disjoint j k a ha hpk)
  · rintro rfl
    exact hj (h.disjoint j k a ha hzk)
  · have hhead : (l ++ z :: m).headD 0 = (c k).headD 0 := by
      rw [hk]
      cases l <;> rfl
    have hpath : Path 0 s.pNext ((l ++ z :: m).headD 0) (l ++ z :: p :: m) := by
      rw [hhead, ← hk]
      exact h.path k
    refine hpath.drop (fun a ha => hkeep k a (by simp [hk, ha]) ((hold a).1 (by simp [ha])).2 ?_)
      (fun a ha => hkeep k a (by simp [hk, ha]) ((hold a).1 (by simp [ha])).2 ?_) ?_
    · rintro rfl
      exact hzl ha
    · rintro rfl
      exact hzm ha
    · rw [hnext z hz, if_neg hzp, if_pos rfl]
  · dsimp only
    rw [h.first, hk]
    cases l <;> rfl
  · dsimp only
    rw [h.last, hk]
    obtain ⟨y, m, rfl⟩ := List.exists_cons_of_ne_nil hm
    simp [List.getLast?_append, List.getLast?_cons]
  · dsimp only
    omega
  · rw [Queues.linked_mark, Queues.linked_setPNext hb hp ha, Queues.linked_setQ, Queues.linked_setPNext hb hz ha]

end

/-! ### The calls -/

section
variable {bufs : Nat → Prop} {s : Queues} {c : Contents} {k p z : Nat} {l m : List Nat}

/-- Where a member of a queue lies: in front, or behind another one. -/
private theorem Queues.Law.lies (h : s.Law bufs c) (hp : p ∈ c k) :
    (∃ m, c k = p :: m ∧ (c k).erase p = m) ∨
      ∃ l z m, c k = l ++ z :: p :: m ∧ (c k).erase p = l ++ z :: m := by
  obtain ⟨l, m, hk⟩ := List.append_of_mem hp
  have hnd := h.nodup k
  rw [hk, List.nodup_append] at hnd
  have hpl : p ∉ l := fun hl => hnd.2.2 p hl p List.mem_cons_self rfl
  have herase : (c k).erase p = l ++ m := by
    rw [hk, List.erase_append_right _ hpl, List.erase_cons_head]
  rcases List.eq_nil_or_concat l with rfl | ⟨l', z, hl⟩
  · exact .inl ⟨m, hk, herase⟩
  · rw [List.concat_eq_append] at hl
    exact .inr ⟨l', z, m, by simp [hk, hl], by simp [herase, hl]⟩

/-- Which removals are sound: all but those of the last buffer behind another one. -/
private theorem Queues.Law.removal (h : s.Law bufs c) (hk : c k = l ++ z :: p :: m) :
    ((s.q k).pLast ≠ mem2User p ∨ (s.q k).pFirst = mem2User p) ↔ m ≠ [] := by
  have hfirst : (s.q k).pFirst ≠ mem2User p := by
    have hpl := (h.neighbours hk).1
    rw [h.first, hk]
    cases l with
    | nil => exact fun he => hpl.2.1 (mem2User_inj.1 he).symm
    | cons b l => exact fun he => hpl.1 (mem2User_inj.1 he ▸ List.mem_cons_self)
  rw [or_iff_left hfirst, ne_eq, h.last_iff hk]

/-- The removal of the last buffer behind another one leaves a queue with a wrong last buffer. -/
private theorem Queues.Law.remove_last (h : s.Law bufs c) (hk : c k = l ++ [z, p]) :
    ¬(s.rvfRemoveFromQueue k (mem2User p)).2.Law bufs (c.set k (l ++ [z])) := by
  intro hlaw
  have hlast := hlaw.last k
  rw [rvfRemoveFromQueue_eq h hk, show c.set k (l ++ [z]) k = l ++ [z] from if_pos rfl, List.getLast?_concat] at hlast
  simp only [Queues.q_mark, Queues.q_setPNext, Queues.q_setQ, if_true] at hlast
  have : z + headerSize * headerSize = z + headerSize := hlast
  simp only [headerSize] at this
  omega

/-- A count that wraps is not the length of the queue. -/
private theorem not_law_of_count {s' : Queues} (hc : ¬(s.q k).count + 1 < 65536)
    (hs : (s'.q k).count = ((s.q k).count + 1) % 65536) (hl : l.length = (s.q k).count + 1) :
    ¬s'.Law bufs (c.set k l) := by
  intro hlaw
  have hcount := hlaw.count k
  have hsmall := hlaw.small k
  rw [show c.set k l k = l from if_pos rfl] at hcount hsmall
  omega

private theorem count_rvfEnqueue (hl : s.linked p = false) :
    ((s.rvfEnqueue k (mem2User p)).2.q k).count = ((s.q k).count + 1) % 65536 := by
  by_cases hz : (s.q k).pFirst = 0
  · rw [rvfEnqueue_empty hl hz]
    simp
  · unfold Queues.rvfEnqueue
    simp [hl, hz]

private theorem count_rvfEnqueueHead (hl : s.linked p = false) :
    ((s.rvfEnqueueHead k (mem2User p)).2.q k).count = ((s.q k).count + 1) % 65536 := by
  rw [rvfEnqueueHead_eq hl]
  simp

/-- A call does what it does to lists, if and only if it is sound. -/
theorem call_law {s : Shared} (hb : Apart bufs) (h : s.queues.Law bufs s.contents) (e : QueueCall)
    (he : ∀ p ∈ e.header, bufs p) :
    ((s.queues.call e).1 = (s.contents.call s.queues.linked e).1 ∧
      (s.call e).queues.Law bufs (s.call e).contents) ↔ s.sound e := by
  obtain ⟨q, c⟩ := s
  simp only [Shared.call, Shared.sound, Queues.call, Contents.call] at h he ⊢
  cases e with
  | enqueue k p =>
    have hp : bufs p := he p rfl
    dsimp only
    cases hl : q.linked p with
    | true =>
      have hret : q.rvfEnqueue k (mem2User p) = (.memoryErr, q) := by
        unfold Queues.rvfEnqueue
        simp [hl]
      rw [hret]
      simp only [if_true, true_and, Bool.true_or, iff_true]
      exact h
    | false =>
      simp only [Bool.false_eq_true, if_false, Bool.false_or, decide_eq_true_eq]
      constructor
      · rintro ⟨-, hlaw⟩
        by_contra hc
        refine not_law_of_count (s := q) hc (count_rvfEnqueue hl) ?_ hlaw
        rw [h.count, List.length_append]
        rfl
      · intro hc
        obtain ⟨hr, hlaw⟩ := h.enqueue hb hp hl hc
        exact ⟨by rw [hr], hlaw⟩
  | enqueueHead k p =>
    have hp : bufs p := he p rfl
    dsimp only
    cases hl : q.linked p with
    | true =>
      have hret : q.rvfEnqueueHead k (mem2User p) = (.memoryErr, q) := by
        unfold Queues.rvfEnqueueHead
        simp [hl]
      rw [hret]
      simp only [if_true, true_and, Bool.true_or, iff_true]
      exact h
    | false =>
      simp only [Bool.false_eq_true, if_false, Bool.false_or, decide_eq_true_eq]
      constructor
      · rintro ⟨-, hlaw⟩
        by_contra hc
        refine not_law_of_count (s := q) hc (count_rvfEnqueueHead hl) ?_ hlaw
        rw [h.count, List.length_cons]
      · intro hc
        obtain ⟨hr, hlaw⟩ := h.enqueueHead hb hp hl hc
        exact ⟨by rw [hr], hlaw⟩
  | dequeue k =>
    dsimp only
    simp only [iff_true]
    cases hk : c k with
    | nil =>
      have hz : (q.q k).count = 0 := by rw [h.count, hk]; rfl
      have hret : q.rvfDequeue k = (0, q) := by
        unfold Queues.rvfDequeue
        simp only [hz, if_true]
      rw [hret]
      exact ⟨rfl, h⟩
    | cons p l =>
      obtain ⟨hr, hlaw⟩ := h.dequeue hb hk
      exact ⟨by rw [hr], hlaw⟩
  | remove k p =>
    dsimp only
    by_cases hpk : p ∈ c k
    · simp only [hpk, if_true, Bool.or_eq_true, bne_iff_ne, beq_iff_eq]
      rcases h.lies hpk with ⟨m, hk, herase⟩ | ⟨l, z, m, hk, herase⟩
      · obtain ⟨hr, hlaw⟩ := h.remove_first hb hk
        rw [herase, hr]
        exact iff_of_true ⟨rfl, hlaw⟩ (.inr (by rw [h.first, hk]; rfl))
      · rw [h.removal hk, herase]
        constructor
        · rintro ⟨-, hlaw⟩ rfl
          exact h.remove_last hk hlaw
        · intro hm
          obtain ⟨hr, hlaw⟩ := h.remove_middle hb hk hm
          exact ⟨by rw [hr], hlaw⟩
    · rw [h.remove_absent hpk]
      simp only [hpk, if_false]
      refine iff_of_true ⟨trivial, h⟩ ?_
      rw [Bool.or_eq_true, bne_iff_ne]
      refine .inl fun hlast => ?_
      rw [h.last] at hlast
      cases hg : (c k).getLast? with
      | none =>
        rw [hg] at hlast
        exact mem2User_ne_zero p hlast.symm
      | some z =>
        rw [hg] at hlast
        have hzp : z = p := mem2User_inj.1 hlast
        exact hpk (hzp ▸ List.mem_of_getLast? hg)

end

/-! ### The runs -/

section
variable {bufs : Nat → Prop} [DecidablePred bufs]

private theorem law_init {s : Shared} (h : (queue.machine bufs).init s) : s.queues.Law bufs s.contents := by
  obtain ⟨hq, hl, hc⟩ := h
  constructor
  case path => intro k; rw [hc]; rfl
  case first => intro k; rw [hq, hc]; rfl
  case last => intro k; rw [hq, hc]; rfl
  case count => intro k; rw [hq, hc]; rfl
  case small => intro k; rw [hc]; exact Nat.succ_pos _
  case linked =>
    intro p hp
    rw [hl p hp]
    refine iff_of_false Bool.false_ne_true ?_
    rintro ⟨k, hk⟩
    rw [hc] at hk
    cases hk
  case mem =>
    intro k p hp
    rw [hc] at hp
    cases hp
  case nodup => intro k; rw [hc]; exact List.nodup_nil
  case disjoint =>
    intro j k p hp
    rw [hc] at hp
    cases hp

/-- In the runs without the removal of a last buffer behind another one and without a count that wraps, the queues hold
the lists of their buffers.  Such a call returns what it returns on lists and leaves the queues so; no other call
does. -/
theorem queues_are_lists (hb : Apart bufs) {s : Shared} (hs : (queue.machine bufs).Reach Shared.sound s) :
    s.queues.Law bufs s.contents ∧ ∀ e : QueueCall, (∀ p ∈ e.header, bufs p) →
      (((s.queues.call e).1 = (s.contents.call s.queues.linked e).1 ∧
        (s.call e).queues.Law bufs (s.call e).contents) ↔ s.sound e) := by
  have hlaw : s.queues.Law bufs s.contents := by
    refine hs.invariant (I := fun s => s.queues.Law bufs s.contents) (fun s h => law_init h) fun s e t h hok hstep => ?_
    unfold queue.machine at hstep
    dsimp only at hstep
    split at hstep
    · rename_i he
      rw [Option.some.injEq] at hstep
      exact hstep ▸ ((call_law hb h e he).2 hok).2
    · cases hstep
  exact ⟨hlaw, fun e he => call_law hb hlaw e he⟩

end

/-- Three buffers of the same size, and empty queues. -/
def threeBuffers (p : Nat) : Prop := p ∈ [100, 200, 300]

instance : DecidablePred threeBuffers := fun p => inferInstanceAs (Decidable (p ∈ [100, 200, 300]))

def emptyQueues : Shared := ⟨⟨fun _ => 88, fun _ => ⟨0, 0, 0⟩⟩, fun _ => []⟩

private theorem threeBuffers_apart : Apart threeBuffers := by
  have hpos : ∀ p ∈ [100, 200, 300], 0 < p := by decide
  have hfar : ∀ p ∈ [100, 200, 300], ∀ q ∈ [100, 200, 300], p ≠ q → p + headerSize ≤ q ∨ q + headerSize ≤ p := by decide
  exact ⟨hpos, fun p q hp hq => hfar p hp q hq⟩

private theorem emptyQueues_init : (queue.machine threeBuffers).init emptyQueues :=
  have hl : isLinked 88 = false := by decide
  ⟨fun _ => rfl, fun _ _ => hl, fun _ => rfl⟩

theorem queues_are_lists_run :
    ∃ s, (queue.machine threeBuffers).run Shared.sound emptyQueues
        [.enqueue 0 100, .enqueueHead 0 200, .enqueue 0 300, .remove 0 100, .enqueue 0 100] = some s ∧
      s.contents 0 = [200, 300, 100] ∧ s.queues.Law threeBuffers s.contents ∧
      (s.queues.call (.dequeue 0)).1 = .buf 212 := by
  have hrun : (queue.machine threeBuffers).run Shared.sound emptyQueues
    [.enqueue 0 100, .enqueueHead 0 200, .enqueue 0 300, .remove 0 100, .enqueue 0 100] = some _ := rfl
  refine ⟨_, hrun, rfl, ?_⟩
  obtain ⟨hlaw, hcall⟩ := queues_are_lists threeBuffers_apart (Machine.Reach.of_run (.init emptyQueues_init) hrun)
  exact ⟨hlaw, ((hcall (.dequeue 0) (fun _ h => by cases h)).2 rfl).1⟩

/-- After the removal of the last of two buffers, an append is lost: the count says two, but nothing is linked behind
the first buffer. -/
theorem queue_append_lost :
    ∃ s, (queue.machine threeBuffers).run (fun _ _ => true) emptyQueues
        [.enqueue 0 100, .enqueue 0 200, .remove 0 200, .enqueue 0 300] = some s ∧
      s.contents 0 = [100, 300] ∧ (s.queues.q 0).count = 2 ∧ s.queues.pNext 100 = 0 ∧
      ¬s.queues.Law threeBuffers s.contents := by
  refine ⟨_, rfl, rfl, rfl, rfl, fun hlaw => ?_⟩
  have hpath := hlaw.path 0
  exact absurd hpath.2.2.1 (by decide)

end Citrine.Rvf
