import Citrine.Osl.Com

/-!
# A queue delivers what it accepts

The free list and the rings always divide the elements of a queue among themselves, and a unit of a semaphore stands
for a free element or a message, or for a call that is about to take or has just put one (`System.Inv`).  So no
protected section finds its list empty, and the messages of each priority come out as they went in
(`queue_sound`).
-/

namespace Citrine.Osl

/-! ### What a queue holds -/

/-- The elements in a ring of `m` slots. -/
def TQueue.elements (m : Nat) (q : TQueue) : List Nat := ring q.slots m q.pRead ((q.pWrite + m - q.pRead) % m)

/-- The elements that wait with a priority. -/
def ComTableEntry.waiting (t : ComTableEntry) (p : Priority) : List Nat := (t.queue p).elements (t.entries + 1)

/-- The messages that wait with a priority, in their order. -/
def ComTableEntry.present (t : ComTableEntry) (p : Priority) : List OsQdata := (t.waiting p).map t.element

/-- All waiting elements. -/
def ComTableEntry.used (t : ComTableEntry) : List Nat := t.waiting .urgent ++ t.waiting .normal

/-- The free list and the rings divide the elements among themselves. -/
def ComTableEntry.Partition (t : ComTableEntry) (n : Nat) : Prop :=
  ∃ free, Chain t.pNext t.pFreeElement free ∧ (free ++ t.used).Perm (List.range n)

/-- The messages of one priority in a record. -/
def ofPriority (p : Priority) (l : List (Priority × OsQdata)) : List OsQdata :=
  (l.filter fun x => x.1 == p).map Prod.snd

/-- The priority above. -/
def Priority.above : Priority → List Priority
  | .urgent => []
  | .normal => [.urgent]

/-- What is promised of a queue with `n` entries. -/
structure System.Sound (multiplier n : Nat) (s : System) : Prop where
  partition : s.table.Partition n
  /-- What was accepted has been delivered, or it waits, in order. -/
  inOrder : ∀ p, ofPriority p s.accepted = ofPriority p s.delivered ++ s.table.present p
  /-- A send puts its message, as it is, behind those of its priority. -/
  puts : ∀ {i prio msg ret}, s.tasks[i]? = some (.holding (.send prio msg) ret) →
    ∃ t, s.step multiplier (.protect i) = some t ∧ t.accepted = s.accepted ++ [(prio, msg)] ∧
      t.delivered = s.delivered ∧ t.tasks[i]? = some (.releasing (.send prio msg) ret)
  /-- A receive takes the first message of the highest priority that is present. -/
  takes : ∀ {i ret}, s.tasks[i]? = some (.holding .receive ret) →
    ∃ t p msg rest, s.step multiplier (.protect i) = some t ∧ s.table.present p = msg :: rest ∧
      (∀ q ∈ p.above, s.table.present q = []) ∧ t.delivered = s.delivered ++ [(p, msg)] ∧
      t.accepted = s.accepted ∧ t.tasks[i]? = some (.releasing .receive (.received msg))
  /-- Without an entry a send returns a timeout, or it waits if it was told so; the queue stays as it is. -/
  refuses : ∀ {i prio msg timeout ret t}, s.tasks[i]? = some (.obtaining (.send prio msg) timeout ret) →
    s.step multiplier (.unavailable i) = some t →
      t.table = s.table ∧ t.accepted = s.accepted ∧ t.delivered = s.delivered ∧
        (t.tasks[i]? = some (.returned .timeout) ∨
          timeout = 1 ∧ t.tasks[i]? = some (.obtaining (.send prio msg) osSuspend .waited))

/-! ### Rings -/

/-- The pointers of a ring are inside of it. -/
structure TQueue.Wf (m : Nat) (q : TQueue) : Prop where
  pRead : q.pRead < m
  pWrite : q.pWrite < m

section
variable {m : Nat} {q : TQueue}

private theorem TQueue.Wf.count (h : q.Wf m) :
    (q.pWrite + m - q.pRead) % m < m ∧ (q.pRead + (q.pWrite + m - q.pRead) % m) % m = q.pWrite := by
  have h1 := h.pRead
  have h2 := h.pWrite
  refine ⟨Nat.mod_lt _ (by omega), ?_⟩
  rw [Nat.add_mod_mod, show q.pRead + (q.pWrite + m - q.pRead) = q.pWrite + m by omega, Nat.add_mod_right,
    Nat.mod_eq_of_lt h2]

/-- The number of elements is the distance of the pointers. -/
private theorem TQueue.Wf.distance (h : q.Wf m) {k : Nat} (hk : k < m) (hw : q.pWrite = (q.pRead + k) % m) :
    (q.pWrite + m - q.pRead) % m = k := by
  have h1 := h.pRead
  rcases Nat.lt_or_ge (q.pRead + k) m with hlt | hge
  · rw [hw, Nat.mod_eq_of_lt hlt, show q.pRead + k + m - q.pRead = k + m by omega, Nat.add_mod_right,
      Nat.mod_eq_of_lt hk]
  · rw [hw, Nat.mod_eq_sub_mod hge, Nat.mod_eq_of_lt (a := q.pRead + k - m) (by omega),
      show q.pRead + k - m + m - q.pRead = k by omega, Nat.mod_eq_of_lt hk]

private theorem TQueue.Wf.push (h : q.Wf m) (hk : (q.elements m).length + 1 < m) (e : Nat) :
    let q' : TQueue := { q with slots := write q.slots q.pWrite e, pWrite := advance m q.pWrite }
    q'.Wf m ∧ q'.elements m = q.elements m ++ [e] := by
  intro q'
  obtain ⟨-, hw⟩ := h.count
  rw [TQueue.elements, ring_length] at hk
  have hwf : q'.Wf m := ⟨h.pRead, advance_lt h.pWrite⟩
  have hadv : q'.pWrite = (q'.pRead + ((q.pWrite + m - q.pRead) % m + 1)) % m := by
    change advance m q.pWrite = _
    rw [advance_eq h.pWrite, ← hw, Nat.mod_add_mod, Nat.add_assoc, hw]
  refine ⟨hwf, ?_⟩
  unfold TQueue.elements
  rw [hwf.distance hk hadv]
  have hpush := @ring_push _ q.slots m q.pRead _ e (Nat.lt_of_succ_lt hk)
  rw [hw] at hpush
  exact hpush

private theorem TQueue.Wf.pop (h : q.Wf m) (hne : q.pWrite ≠ q.pRead) :
    let q' : TQueue := { q with pRead := advance m q.pRead }
    q'.Wf m ∧ q.elements m = q.slots q.pRead :: q'.elements m := by
  intro q'
  obtain ⟨hlt, hw⟩ := h.count
  have hwf : q'.Wf m := ⟨advance_lt h.pRead, h.pWrite⟩
  refine ⟨hwf, ?_⟩
  unfold TQueue.elements
  generalize hk : (q.pWrite + m - q.pRead) % m = k at hlt hw
  cases k with
  | zero =>
    rw [Nat.add_zero, Nat.mod_eq_of_lt h.pRead] at hw
    exact absurd hw.symm hne
  | succ k =>
    rw [ring_cons h.pRead]
    have hadv : q'.pWrite = (q'.pRead + k) % m := by
      change q.pWrite = (advance m q.pRead + k) % m
      rw [advance_eq h.pRead, Nat.mod_add_mod, Nat.add_assoc, Nat.add_comm 1 k, hw]
    rw [hwf.distance (by omega) hadv]

/-- A ring is empty when its pointers meet. -/
private theorem TQueue.Wf.elements_nil (h : q.Wf m) : q.elements m = [] ↔ q.pWrite = q.pRead := by
  constructor
  · intro hnil
    refine Decidable.byContradiction fun hne => ?_
    rw [(h.pop hne).2] at hnil
    cases hnil
  · intro heq
    unfold TQueue.elements
    rw [heq, Nat.add_sub_cancel_left, Nat.mod_self, ring_zero]

end

/-! ### The protected sections -/

/-- A table whose rings are sound and whose elements are divided, with the free list `free`. -/
structure ComTableEntry.Holds (t : ComTableEntry) (n : Nat) (free : List Nat) : Prop where
  entries : t.entries = n
  wf : ∀ p, (t.queue p).Wf (n + 1)
  chain : Chain t.pNext t.pFreeElement free
  perm : (free ++ t.used).Perm (List.range n)

section
variable {n : Nat} {free : List Nat} {t : ComTableEntry}

private theorem ComTableEntry.Holds.nodup (h : t.Holds n free) : (free ++ t.used).Nodup :=
  h.perm.nodup_iff.2 List.nodup_range

private theorem ComTableEntry.mem_used {p : Priority} {e : Nat} (h : e ∈ t.waiting p) : e ∈ t.used := by
  unfold used
  cases p with
  | urgent => exact List.mem_append_left _ h
  | normal => exact List.mem_append_right _ h

private theorem ComTableEntry.waiting_length_le (p : Priority) : (t.waiting p).length ≤ t.used.length := by
  unfold used
  rw [List.length_append]
  cases p with
  | urgent => exact Nat.le_add_right ..
  | normal => exact Nat.le_add_left ..

/-- The elements that wait change in one ring only, and there by one element at an end. -/
private theorem used_perm {t t' : ComTableEntry} {p : Priority} {e : Nat}
    (hp : (t'.waiting p).Perm (e :: t.waiting p)) (ho : ∀ q, q ≠ p → t'.waiting q = t.waiting q) :
    t'.used.Perm (e :: t.used) := by
  unfold ComTableEntry.used
  cases p with
  | urgent =>
    rw [ho .normal (by decide)]
    exact hp.append_right _
  | normal =>
    rw [ho .urgent (by decide)]
    exact (hp.append_left _).trans List.perm_middle

/-- What `os_SendToQueue` does to the table. -/
private theorem enqueue_holds {e : Nat} (h : t.Holds n (e :: free)) (prio : Priority) (msg : OsQdata) :
    ∃ t', enqueue prio msg t = some t' ∧ t'.Holds n free ∧ t'.freeSem = t.freeSem ∧ t'.usedSem = t.usedSem ∧
      t'.used.length = t.used.length + 1 ∧
      ∀ p, t'.present p = t.present p ++ if p = prio then [msg] else [] := by
  obtain ⟨hfree, hchain⟩ := h.chain.of_cons
  have hnodup := h.nodup
  rw [List.cons_append, List.nodup_cons] at hnodup
  have hlen := h.perm.length_eq
  rw [List.cons_append, List.length_cons, List.length_append, List.length_range] at hlen
  have hpush := (h.wf prio).push (e := e) (by
    have := t.waiting_length_le prio
    unfold ComTableEntry.waiting at this
    rw [h.entries] at this
    omega)
  simp only at hpush
  unfold enqueue
  rw [hfree]
  refine ⟨_, rfl, ?_⟩
  generalize ht' : ({ t with
    pFreeElement := t.pNext e, element := write t.element e msg
    queue := write t.queue prio { t.queue prio with
      slots := write (t.queue prio).slots (t.queue prio).pWrite e
      pWrite := advance (t.entries + 1) (t.queue prio).pWrite }
    maxUsed := if t.maxUsed < (t.entries - t.freeSem) % 65536 then (t.entries - t.freeSem) % 65536
      else t.maxUsed } : ComTableEntry) = t'
  have hentries : t'.entries = t.entries := by rw [← ht']
  have hqueue : t'.queue prio = { t.queue prio with
      slots := write (t.queue prio).slots (t.queue prio).pWrite e
      pWrite := advance (n + 1) (t.queue prio).pWrite } := by
    rw [← ht', ← h.entries]
    exact write_same ..
  have hother : ∀ p, p ≠ prio → t'.queue p = t.queue p := by
    intro p hp
    rw [← ht']
    exact write_other _ _ hp
  have hwp : t'.waiting prio = t.waiting prio ++ [e] := by
    unfold ComTableEntry.waiting
    rw [hentries, h.entries, hqueue]
    exact hpush.2
  have hwo : ∀ p, p ≠ prio → t'.waiting p = t.waiting p := by
    intro p hp
    unfold ComTableEntry.waiting
    rw [hentries, hother p hp]
  have hperm : t'.used.Perm (e :: t.used) := by
    refine used_perm ?_ hwo
    rw [hwp]
    exact List.perm_append_comm
  have hel : ∀ b, b ≠ e → t'.element b = t.element b := by
    intro b hb
    rw [← ht']
    exact write_other _ _ hb
  refine ⟨⟨hentries.trans h.entries, fun p => ?_, by rw [← ht']; exact hchain, ?_⟩, by rw [← ht'], by rw [← ht'],
    by rw [hperm.length_eq, List.length_cons], fun p => ?_⟩
  · by_cases hp : p = prio
    · rw [hp, hqueue]
      exact hpush.1
    · rw [hother p hp]
      exact h.wf p
  · exact ((hperm.append_left _).trans List.perm_middle).trans h.perm
  · have hmap : (t.waiting p).map t'.element = (t.waiting p).map t.element := by
      refine List.map_congr_left fun b hb => hel b fun hbe => hnodup.1 ?_
      exact List.mem_append_right _ (hbe ▸ t.mem_used hb)
    unfold ComTableEntry.present
    by_cases hp : p = prio
    · subst hp
      rw [hwp, List.map_append, hmap, if_pos rfl, ← ht']
      simp
    · rw [hwo p hp, hmap, if_neg hp, List.append_nil]

/-- The ring of the highest priority that is not empty. -/
private theorem find_descending (hwf : ∀ p, (t.queue p).Wf (t.entries + 1)) (hne : t.used ≠ []) :
    ∃ p, Priority.descending.find? (fun p => (t.queue p).pWrite != (t.queue p).pRead) = some p ∧
      (t.queue p).pWrite ≠ (t.queue p).pRead ∧ ∀ q ∈ p.above, t.waiting q = [] := by
  unfold Priority.descending
  rw [List.find?_cons]
  split
  · rename_i hu
    exact ⟨.urgent, rfl, by simpa using hu, fun q hq => by cases hq⟩
  · rename_i hu
    have heq : (t.queue .urgent).pWrite = (t.queue .urgent).pRead := by simpa using hu
    have hnil : t.waiting .urgent = [] := (hwf .urgent).elements_nil.2 heq
    have hnormal : (t.queue .normal).pWrite ≠ (t.queue .normal).pRead := by
      intro h
      refine hne ?_
      unfold ComTableEntry.used
      rw [hnil, List.nil_append]
      exact (hwf .normal).elements_nil.2 h
    refine ⟨.normal, ?_, hnormal, fun q hq => ?_⟩
    · rw [List.find?_cons, bne_iff_ne.2 hnormal]
    · cases List.mem_singleton.1 hq
      exact hnil

/-- What `os_ReceiveFromQueue` does to the table. -/
private theorem dequeue_holds (h : t.Holds n free) (hne : t.used ≠ []) :
    ∃ p msg t' e, dequeue t = some (p, msg, t') ∧ t'.Holds n (e :: free) ∧ t'.freeSem = t.freeSem ∧
      t'.usedSem = t.usedSem ∧ t.used.length = t'.used.length + 1 ∧ t.present p = msg :: t'.present p ∧
      (∀ q, q ≠ p → t'.present q = t.present q) ∧ ∀ q ∈ p.above, t.present q = [] := by
  obtain ⟨p, hfind, hends, habove⟩ := find_descending (fun p => h.entries ▸ h.wf p) hne
  have hpop := (h.wf p).pop hends
  simp only at hpop
  generalize he : (t.queue p).slots (t.queue p).pRead = e at hpop
  obtain ⟨t', hdeq, ht'⟩ : ∃ t', dequeue t = some (p, t.element e, t') ∧ { t with
      element := write t.element e { t.element e with data16 := 0 }
      pNext := write t.pNext e t.pFreeElement, pFreeElement := some e
      queue := write t.queue p { t.queue p with pRead := advance (t.entries + 1) (t.queue p).pRead }
      currentMsg := { type := (t.element e).data16, opc := (t.element e).data32, ptr := (t.element e).ptr } } = t' := by
    unfold dequeue
    rw [hfind]
    subst he
    exact ⟨_, rfl, rfl⟩
  refine ⟨p, t.element e, t', e, hdeq, ?_⟩
  have hentries : t'.entries = t.entries := by rw [← ht']
  have hqueue : t'.queue p = { t.queue p with pRead := advance (n + 1) (t.queue p).pRead } := by
    rw [← ht', ← h.entries]
    exact write_same ..
  have hother : ∀ q, q ≠ p → t'.queue q = t.queue q := by
    intro q hq
    rw [← ht']
    exact write_other _ _ hq
  have hwp : t.waiting p = e :: t'.waiting p := by
    unfold ComTableEntry.waiting
    rw [hentries, h.entries, hqueue]
    exact hpop.2
  have hwo : ∀ q, q ≠ p → t'.waiting q = t.waiting q := by
    intro q hq
    unfold ComTableEntry.waiting
    rw [hentries, hother q hq]
  have hperm : t.used.Perm (e :: t'.used) := by
    refine used_perm ?_ fun q hq => (hwo q hq).symm
    rw [hwp]
  have hall : (free ++ t.used).Perm (e :: (free ++ t'.used)) := (hperm.append_left _).trans List.perm_middle
  have hnodup := hall.nodup_iff.1 h.nodup
  rw [List.nodup_cons] at hnodup
  have hmap : ∀ q, (t'.waiting q).map t'.element = (t'.waiting q).map t.element := by
    intro q
    refine List.map_congr_left fun b hb => ?_
    rw [← ht']
    exact write_other _ _ fun hbe => hnodup.1 (List.mem_append_right _ (hbe ▸ t'.mem_used hb))
  refine ⟨⟨hentries.trans h.entries, fun q => ?_, ?_, ?_⟩, by rw [← ht'], by rw [← ht'],
    by rw [hperm.length_eq, List.length_cons], ?_, fun q hq => ?_, fun q hq => ?_⟩
  · by_cases hq : q = p
    · rw [hq, hqueue]
      exact hpop.1
    · rw [hother q hq]
      exact h.wf q
  · rw [← ht']
    exact h.chain.push fun hmem => hnodup.1 (List.mem_append_left _ hmem)
  · rw [List.cons_append]
    exact hall.symm.trans h.perm
  · unfold ComTableEntry.present
    rw [hwp, List.map_cons, hmap]
  · unfold ComTableEntry.present
    rw [hmap, hwo q hq]
  · unfold ComTableEntry.present
    rw [habove q hq, List.map_nil]

end

/-! ### The invariant -/

/-- The task has a unit of the semaphore of free elements in its hands. -/
def Task.ofFree : Task → Bool
  | .holding (.send _ _) _ | .releasing .receive _ => true
  | _ => false

/-- The task has a unit of the semaphore of messages in its hands. -/
def Task.ofUsed : Task → Bool
  | .holding .receive _ | .releasing (.send _ _) _ => true
  | _ => false

structure System.Inv (n : Nat) (s : System) (free : List Nat) : Prop where
  holds : s.table.Holds n free
  free : s.table.freeSem + s.tasks.countP Task.ofFree = free.length
  used : s.table.usedSem + s.tasks.countP Task.ofUsed = s.table.used.length
  inOrder : ∀ p, ofPriority p s.accepted = ofPriority p s.delivered ++ s.table.present p

section
variable {n multiplier : Nat} {free : List Nat} {s t : System}

/-- Moving a task changes a count by that task. -/
private theorem go_countP {i : Nat} {u v : Task} (f : Task → Bool) (h : s.tasks[i]? = some u) :
    (s.go i v).tasks.countP f + (f u).toNat = s.tasks.countP f + (f v).toNat := by
  obtain ⟨hlt, hu⟩ := List.getElem?_eq_some_iff.1 h
  have hpos : (if f s.tasks[i] then 1 else 0) ≤ s.tasks.countP f := by
    split
    · exact List.countP_pos_iff.2 ⟨_, List.getElem_mem hlt, by assumption⟩
    · exact Nat.zero_le _
  unfold System.go
  simp only
  rw [List.countP_set hlt]
  rw [hu] at hpos ⊢
  cases hfu : f u <;> cases hfv : f v <;> simp only [hfu, if_true, if_false, Bool.false_eq_true, Bool.toNat_true,
    Bool.toNat_false] at hpos ⊢ <;> omega

private theorem go_getElem? {i : Nat} {u v : Task} (h : s.tasks[i]? = some u) : (s.go i v).tasks[i]? = some v := by
  obtain ⟨hlt, -⟩ := List.getElem?_eq_some_iff.1 h
  exact List.getElem?_set_self hlt

private theorem countP_pos {i : Nat} {u : Task} {f : Task → Bool} (h : s.tasks[i]? = some u) (hf : f u) :
    0 < s.tasks.countP f :=
  List.countP_pos_iff.2 ⟨u, List.mem_of_getElem? h, hf⟩

private theorem ofPriority_append (p : Priority) (l : List (Priority × OsQdata)) (q : Priority) (msg : OsQdata) :
    ofPriority p (l ++ [(q, msg)]) = ofPriority p l ++ if p = q then [msg] else [] := by
  unfold ofPriority
  rw [List.filter_append, List.map_append]
  congr 1
  by_cases h : p = q
  · subst h
    simp
  · rw [if_neg h, List.filter_cons_of_neg (by simpa using fun hq => h hq.symm)]
    rfl

/-- The protected section of a send that has its unit. -/
private theorem protect_send (h : s.Inv n free) {i : Nat} {prio : Priority} {msg : OsQdata} {ret : Result}
    (ht : s.tasks[i]? = some (.holding (.send prio msg) ret)) :
    ∃ t free', s.protect i (.send prio msg) ret = some t ∧ t.Inv n free' ∧ t.accepted = s.accepted ++ [(prio, msg)] ∧
      t.delivered = s.delivered ∧ t.tasks[i]? = some (.releasing (.send prio msg) ret) := by
  have hpos := countP_pos (f := Task.ofFree) ht rfl
  have hfree := h.free
  cases free with
  | nil => rw [List.length_nil] at hfree; omega
  | cons e free =>
    obtain ⟨tab, henq, hholds, hf, hu, hlen, hpres⟩ := enqueue_holds h.holds prio msg
    have hcf := go_countP (v := .releasing (.send prio msg) ret) Task.ofFree ht
    have hcu := go_countP (v := .releasing (.send prio msg) ret) Task.ofUsed ht
    simp only [Task.ofFree, Task.ofUsed, Bool.toNat_true, Bool.toNat_false] at hcf hcu
    refine ⟨{ s.go i (.releasing (.send prio msg) ret) with
      table := tab, accepted := s.accepted ++ [(prio, msg)] }, free, by rw [System.protect, henq]; rfl, ⟨hholds, ?_, ?_, fun p => ?_⟩, rfl, rfl, go_getElem? ht⟩
    · rw [List.length_cons] at hfree
      simp only [hf]
      omega
    · have := h.used
      simp only [hu, hlen]
      omega
    · simp only [System.go]
      rw [ofPriority_append, hpres, h.inOrder p, List.append_assoc]

/-- The protected section of a receive that has its unit. -/
private theorem protect_receive (h : s.Inv n free) {i : Nat} {ret : Result}
    (ht : s.tasks[i]? = some (.holding .receive ret)) :
    ∃ t free' p msg rest, s.protect i .receive ret = some t ∧ t.Inv n free' ∧ s.table.present p = msg :: rest ∧
      (∀ q ∈ p.above, s.table.present q = []) ∧ t.delivered = s.delivered ++ [(p, msg)] ∧
      t.accepted = s.accepted ∧ t.tasks[i]? = some (.releasing .receive (.received msg)) := by
  have hpos := countP_pos (f := Task.ofUsed) ht rfl
  have hused := h.used
  have hne : s.table.used ≠ [] := by
    intro hnil
    rw [hnil, List.length_nil] at hused
    omega
  obtain ⟨p, msg, tab, e, hdeq, hholds, hf, hu, hlen, hpres, hother, habove⟩ := dequeue_holds h.holds hne
  have hcf := go_countP (v := .releasing .receive (.received msg)) Task.ofFree ht
  have hcu := go_countP (v := .releasing .receive (.received msg)) Task.ofUsed ht
  simp only [Task.ofFree, Task.ofUsed, Bool.toNat_true, Bool.toNat_false] at hcf hcu
  refine ⟨{ s.go i (.releasing .receive (.received msg)) with
    table := tab, delivered := s.delivered ++ [(p, msg)] }, e :: free, p, msg, tab.present p,
    by rw [System.protect, hdeq], ⟨hholds, ?_, ?_, fun q => ?_⟩, hpres,
    habove, rfl, rfl, go_getElem? ht⟩
  · have := h.free
    simp only [hf, List.length_cons]
    omega
  · simp only [hu]
    omega
  · simp only [System.go]
    rw [ofPriority_append, h.inOrder q, List.append_assoc]
    congr 1
    by_cases hq : q = p
    · rw [hq, hpres, if_pos rfl, List.singleton_append]
    · rw [hother q hq, if_neg hq, List.nil_append]

/-- A step that leaves the lists alone and moves a unit between a semaphore and the hands of a task. -/
private theorem System.Inv.moved (h : s.Inv n free) {i : Nat} {u v : Task} (ht : s.tasks[i]? = some u)
    {tab : ComTableEntry} (hq : tab.queue = s.table.queue) (he : tab.element = s.table.element)
    (hn : tab.pNext = s.table.pNext) (hp : tab.pFreeElement = s.table.pFreeElement)
    (hent : tab.entries = s.table.entries)
    (hf : tab.freeSem + v.ofFree.toNat = s.table.freeSem + u.ofFree.toNat)
    (hu : tab.usedSem + v.ofUsed.toNat = s.table.usedSem + u.ofUsed.toNat) :
    ({ s.go i v with table := tab } : System).Inv n free := by
  have hw : tab.waiting = s.table.waiting := by
    funext p
    unfold ComTableEntry.waiting
    rw [hq, hent]
  have hused : tab.used = s.table.used := by
    unfold ComTableEntry.used
    rw [hw]
  have hcf := go_countP (v := v) Task.ofFree ht
  have hcu := go_countP (v := v) Task.ofUsed ht
  have h1 := h.free
  have h2 := h.used
  refine ⟨⟨hent.trans h.holds.entries, fun p => ?_, ?_, ?_⟩, ?_, ?_, fun p => ?_⟩
  · simp only [hq]
    exact h.holds.wf p
  · simp only [hn, hp]
    exact h.holds.chain
  · simp only [hused]
    exact h.holds.perm
  · simp only
    omega
  · simp only [hused]
    omega
  · have hpres : tab.present p = s.table.present p := by
      unfold ComTableEntry.present
      rw [hw, he]
    simp only [hpres]
    exact h.inOrder p

/-- Every step keeps the invariant. -/
private theorem queue_step_inv {e : SystemEvent} (h : s.Inv n free) (ht : s.step multiplier e = some t) :
    ∃ free', t.Inv n free' := by
  cases e with
  | send i prio suspend msg =>
    simp only [System.step] at ht
    split at ht
    · rename_i r hr
      cases ht
      exact ⟨free, h.moved hr rfl rfl rfl rfl rfl rfl rfl⟩
    · cases ht
  | receive i timeout =>
    simp only [System.step] at ht
    split at ht
    · rename_i r hr
      cases ht
      exact ⟨free, h.moved hr rfl rfl rfl rfl rfl rfl rfl⟩
    · cases ht
  | obtained i =>
    simp only [System.step] at ht
    split at ht
    · rename_i call timeout ret hr
      split at ht
      · cases ht
      · rename_i hpos
        cases ht
        refine ⟨free, h.moved hr ?_ ?_ ?_ ?_ ?_ ?_ ?_⟩ <;> cases call <;> try rfl
        · exact Nat.sub_add_cancel (Nat.pos_of_ne_zero hpos)
        · exact Nat.sub_add_cancel (Nat.pos_of_ne_zero hpos)
    · cases ht
  | unavailable i =>
    simp only [System.step] at ht
    split at ht
    · rename_i call timeout ret hr
      split at ht
      · cases ht
        have hnone : (unavailable call timeout).ofFree = false ∧ (unavailable call timeout).ofUsed = false := by
          unfold unavailable
          split <;> exact ⟨rfl, rfl⟩
        exact ⟨free, h.moved hr rfl rfl rfl rfl rfl (by rw [hnone.1]; rfl) (by rw [hnone.2]; rfl)⟩
      · cases ht
    · cases ht
  | invalidSuspend i =>
    simp only [System.step] at ht
    split at ht
    · rename_i call timeout ret hr
      split at ht
      · cases ht
      · cases ht
        exact ⟨free, h.moved hr rfl rfl rfl rfl rfl rfl rfl⟩
    · cases ht
  | protect i =>
    simp only [System.step] at ht
    split at ht
    · rename_i call ret hr
      cases call with
      | send prio msg =>
        obtain ⟨t', free', ht', hinv, -⟩ := protect_send h hr
        rw [ht', Option.some.injEq] at ht
        exact ⟨free', ht ▸ hinv⟩
      | receive =>
        obtain ⟨t', free', p, msg, rest, ht', hinv, -⟩ := protect_receive h hr
        rw [ht', Option.some.injEq] at ht
        exact ⟨free', ht ▸ hinv⟩
    · cases ht
  | release i =>
    simp only [System.step] at ht
    split at ht
    · rename_i call ret hr
      cases ht
      refine ⟨free, h.moved hr ?_ ?_ ?_ ?_ ?_ ?_ ?_⟩ <;> cases call <;> rfl
    · cases ht

/-- The free list of a new queue. -/
private theorem chain_range {next : Nat → Option Nat} (hnext : ∀ i, next i = if i < n - 1 then some (i + 1) else none)
    {k i : Nat} (h : i + (k + 1) = n) : Chain next (some i) (List.range' i (k + 1)) := by
  induction k generalizing i with
  | zero =>
    refine .cons ?_
    rw [hnext, if_neg (by omega)]
    exact .nil
  | succ k ih =>
    rw [List.range'_succ]
    refine .cons ?_
    rw [hnext, if_pos (by omega)]
    exact ih (by omega)

private theorem queue_start_inv (h : (queue.machine multiplier n).init s) : ∃ free, s.Inv n free := by
  obtain ⟨⟨element, slots, msg, htab⟩, htasks, hacc, hdel⟩ := h
  unfold osCreateQueue at htab
  split at htab
  · cases htab
  rename_i hn
  rw [Option.some.injEq] at htab
  have hnil : ∀ p, s.table.waiting p = [] := by
    intro p
    rw [← htab]
    unfold ComTableEntry.waiting TQueue.elements
    simp
  have hused : s.table.used = [] := by
    unfold ComTableEntry.used
    rw [hnil, hnil, List.append_nil]
  have hzero : ∀ f : Task → Bool, (∀ r, f (.returned r) = false) → s.tasks.countP f = 0 := by
    intro f hf
    refine List.countP_eq_zero.2 fun u hu => ?_
    obtain ⟨r, rfl⟩ := htasks u hu
    rw [hf]
    exact Bool.false_ne_true
  refine ⟨List.range n, ⟨⟨by rw [← htab], fun p => ?_, ?_, ?_⟩, ?_, ?_, fun p => ?_⟩⟩
  · rw [← htab]
    exact ⟨Nat.succ_pos n, Nat.succ_pos n⟩
  · obtain ⟨k, rfl⟩ : ∃ k, n = k + 1 := ⟨n - 1, by omega⟩
    rw [← htab, List.range_eq_range']
    exact chain_range (fun i => rfl) (by omega)
  · rw [hused, List.append_nil]
  · rw [hzero _ fun r => rfl, List.length_range, ← htab]
    rfl
  · rw [hzero _ fun r => rfl, hused, ← htab]
    rfl
  · rw [hacc, hdel]
    unfold ComTableEntry.present
    rw [hnil]
    rfl

/-! ### The theorem -/

private theorem System.Inv.sound (h : s.Inv n free) : s.Sound multiplier n := by
  refine ⟨⟨free, h.holds.chain, h.holds.perm⟩, h.inOrder, fun {i prio msg ret} hi => ?_, fun {i ret} hi => ?_,
    fun {i prio msg timeout ret t} hi ht => ?_⟩
  · obtain ⟨t, free', ht, -, hacc, hdel, hgo⟩ := protect_send h hi
    exact ⟨t, by simp only [System.step, hi]; exact ht, hacc, hdel, hgo⟩
  · obtain ⟨t, free', p, msg, rest, ht, -, hpres, habove, hdel, hacc, hgo⟩ := protect_receive h hi
    exact ⟨t, p, msg, rest, by simp only [System.step, hi]; exact ht, hpres, habove, hdel, hacc, hgo⟩
  · simp only [System.step, hi] at ht
    split at ht
    · cases ht
      refine ⟨rfl, rfl, rfl, ?_⟩
      rw [go_getElem? hi]
      unfold unavailable
      split
      · rename_i hone
        exact .inr ⟨hone.1, rfl⟩
      · exact .inl rfl
    · cases ht

/-- In every run on a queue: the elements are divided between the free list and the rings, each message that was
accepted waits or has been delivered, as it is and in the order of its priority, a receive takes the first message of
the highest priority present, and a send that gets no entry changes nothing. -/
theorem queue_sound (h : (queue.machine multiplier n).Reach (fun _ _ => true) s) : s.Sound multiplier n := by
  have hinv : ∃ free, s.Inv n free :=
    h.invariant (fun s hs => queue_start_inv hs) fun s e t hs _ ht => by
      obtain ⟨free, hs⟩ := hs
      exact queue_step_inv hs ht
  obtain ⟨free, hinv⟩ := hinv
  exact hinv.sound

end

/-! ### A run -/

/-- Two tasks and a queue with two entries. -/
def queue.pair : System :=
  { table := (osCreateQueue 2 (fun _ => ⟨0, 0, 0, 0, 0, 0⟩) (fun _ _ => 0) ⟨0, 0, 0⟩).get rfl
    tasks := [.returned .ok, .returned .ok], accepted := [], delivered := [] }

/-- An urgent message overtakes a normal one; the third message gets no entry. -/
def queue.overtaking : List SystemEvent :=
  [.send 0 .normal osSuspend ⟨0, 1, 0, 0, 0, 0⟩, .obtained 0, .protect 0, .send 1 .urgent 0 ⟨0, 2, 0, 0, 0, 0⟩,
    .obtained 1, .release 0, .protect 1, .send 0 .normal 0 ⟨0, 3, 0, 0, 0, 0⟩, .unavailable 0, .release 1,
    .receive 0 osSuspend, .obtained 0, .protect 0, .release 0]

private theorem overtaking_isSome :
    ((queue.machine 14199 2).run (fun _ _ => true) queue.pair queue.overtaking).isSome := by
  decide +kernel

theorem queue_sound_overtaking : ∃ s : System, s.Sound 14199 2 ∧
    s.accepted = [(.normal, ⟨0, 1, 0, 0, 0, 0⟩), (.urgent, ⟨0, 2, 0, 0, 0, 0⟩)] ∧
    s.delivered = [(.urgent, ⟨0, 2, 0, 0, 0, 0⟩)] := by
  have hinit : (queue.machine 14199 2).init queue.pair := by
    refine ⟨⟨_, _, _, rfl⟩, fun t ht => ?_, rfl, rfl⟩
    simp only [queue.pair, List.mem_cons, List.not_mem_nil, or_false, or_self] at ht
    exact ⟨.ok, ht⟩
  have hrun := (Option.some_get overtaking_isSome).symm
  exact ⟨_, queue_sound (.of_run (.init hinit) hrun), by decide +kernel, by decide +kernel⟩

end Citrine.Osl
