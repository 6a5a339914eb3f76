import Citrine.Aci.AciLst
import Citrine.Lib.ForwardList
import Citrine.Lib.Machine
import Mathlib.Data.List.Nodup
import Mathlib.Data.List.Perm.Basic
import Mathlib.Tactic.SplitIfs

/-!
# The nodes of an ACI list

`aci_lst.c` on the nodes themselves: the header, which is the first node, the nodes that are allocated and their fields.
The nodes chained from the header on hold the messages of a sequence, and the functions on them do what the functions on
the sequence do (`Represents`, `call_answers`).  Only `remove_element` calls the criterion with a message that is `NULL`,
on a list without messages.
-/

namespace Citrine.Aci

/-- The nodes of a list by their addresses, of which 0 is `NULL`. -/
structure AciNodes (α : Type) where
  list : Nat
  used : List Nat
  msg : Nat → Option α
  next : Nat → Nat

/-- The answer to a call. -/
inductive ListReply (α : Type) where
  | done (b : Bool)
  | message (m : Option α)
  deriving DecidableEq, Repr

/-- A call for a list; `node` is the address that `ACI_MALLOC` returns. -/
inductive ListCall (α : Type) where
  | insert (buffer : α) (node : Nat)
  | insertShift (buffer : α)
  | remove (testCriterium : Option α → Bool)
  | removeFirst
  | find (testCriterium : Option α → Bool)
  | findNext (prevElem : Option α) (testCriterium : Option α → Bool)
  | getNext (prevElem : Option α)

/-- The answer, the messages that the criterion has been called with, and the nodes afterwards. -/
structure ListResult (α : Type) where
  reply : ListReply α
  tested : List (Option α)
  nodes : AciNodes α

namespace AciNodes
variable {α : Type} (x : AciNodes α)

def setMsg (p : Nat) (m : Option α) : AciNodes α := { x with msg := fun q => if q = p then m else x.msg q }

def setNext (p n : Nat) : AciNodes α := { x with next := fun q => if q = p then n else x.next q }

/-- `ACI_MALLOC` -/
def malloc (p : Nat) : AciNodes α := { x with used := p :: x.used }

/-- `ACI_MFREE` -/
def mfree (p : Nat) : AciNodes α := { x with used := x.used.erase p }

/-- A loop that takes more rounds than there are nodes does not end. -/
def rounds : Nat := x.used.length + 1

/-- `new_list`, with what the new node holds before. -/
def newList (p : Nat) (msg : Nat → Option α) (next : Nat → Nat) : AciNodes α :=
  ((⟨p, [p], msg, next⟩ : AciNodes α).setMsg p none).setNext p 0

/-! ### Inserting -/

/-- The loop to the last node. -/
def lastNode : Nat → Nat → Option Nat
  | 0, _ => none
  | n + 1, current => if x.next current ≠ 0 then lastNode n (x.next current) else some current

/-- `insert_list` -/
def insertList (buffer : Option α) (newElem : Nat) : Option (Bool × AciNodes α) :=
  if x.list = 0 then some (false, x)
  else if x.msg x.list = none then some (true, x.setMsg x.list buffer)
  else
    let x := ((x.malloc newElem).setMsg newElem buffer).setNext newElem 0
    (x.lastNode x.rounds x.list).map fun current => (true, x.setNext current newElem)

/-- `insert_shift_list`: the second node becomes the last one, and its message moves to the header. -/
def insertShiftList (buffer : Option α) : Option (Bool × AciNodes α) :=
  if x.list = 0 then some (false, x)
  else if x.msg x.list = none then some (true, x.setMsg x.list buffer)
  else if x.next x.list = 0 then some (false, x)
  else
    let newElem := x.next x.list
    let x := x.setMsg x.list (x.msg newElem)
    let x := x.setNext x.list (x.next newElem)
    let x := (x.setMsg newElem buffer).setNext newElem 0
    (x.lastNode x.rounds x.list).map fun current => (true, x.setNext current newElem)

/-! ### Removing -/

/-- The loop of `remove_element`: `previous` and `current`, and what the criterion has been called with. -/
def search (testCriterium : Option α → Bool) : Nat → Nat → Nat → Option ((Nat × Nat) × List (Option α))
  | 0, _, _ => none
  | n + 1, previous, current =>
    if current = 0 then some ((previous, current), [])
    else if testCriterium (x.msg current) then some ((previous, current), [x.msg current])
    else (search testCriterium n current (x.next current)).map fun r => (r.1, x.msg current :: r.2)

/-- `remove_element` behind its loop. -/
def takeOut (previous current : Nat) : Option α × AciNodes α :=
  if current = 0 then (none, x)
  else if x.msg current = none then (none, x)
  else if previous = 0 then
    if x.next current = 0 then (x.msg current, x.setMsg current none)
    else
      let next := x.next current
      (x.msg current, ((x.setMsg current (x.msg next)).setNext current (x.next next)).mfree next)
  else (x.msg current, (x.setNext previous (x.next current)).mfree current)

/-- `remove_element` -/
def removeElement (testCriterium : Option α → Bool) : Option (List (Option α) × Option α × AciNodes α) :=
  (x.search testCriterium x.rounds 0 x.list).map fun r => (r.2, x.takeOut r.1.1 r.1.2)

/-- `remove_first_element` -/
def removeFirstElement : Option α × AciNodes α :=
  if x.list = 0 ∨ x.msg x.list = none then (none, x)
  else
    let msg := x.msg x.list
    let x := x.setMsg x.list none
    if x.next x.list = 0 then (msg, x)
    else
      let next := x.next x.list
      (msg, ((x.setNext x.list (x.next next)).setMsg x.list (x.msg next)).mfree next)

/-! ### Finding -/

/-- The loops of `find_element` and `find_next_element`; the first one stays at a node without a message. -/
def findFrom (checked : Bool) (testCriterium : Option α → Bool) : Nat → Nat → Option (Option α × List (Option α))
  | 0, _ => none
  | n + 1, current =>
    if checked = true ∧ x.msg current = none then findFrom checked testCriterium n current
    else if testCriterium (x.msg current) then some (x.msg current, [x.msg current])
    else if x.next current ≠ 0 then
      (findFrom checked testCriterium n (x.next current)).map fun r => (r.1, x.msg current :: r.2)
    else some (none, [x.msg current])

/-- `find_element` -/
def findElement (testCriterium : Option α → Bool) : Option (Option α × List (Option α)) :=
  if x.list = 0 ∨ x.msg x.list = none then some (none, []) else x.findFrom true testCriterium x.rounds x.list

variable [DecidableEq α]

/-- The loop to the node with the previous element. -/
def nodeWith (prevElem : Option α) : Nat → Nat → Option Nat
  | 0, _ => none
  | n + 1, current =>
    if current = 0 then some current
    else if x.msg current = prevElem then some current
    else nodeWith prevElem n (x.next current)

/-- `find_next_element` -/
def findNextElement (prevElem : Option α) (testCriterium : Option α → Bool) : Option (Option α × List (Option α)) :=
  if x.list = 0 ∨ x.msg x.list = none then some (none, [])
  else if prevElem = none then x.findFrom false testCriterium x.rounds x.list
  else
    (x.nodeWith prevElem x.rounds x.list).bind fun current =>
      if current = 0 ∨ x.next current = 0 then some (none, [])
      else x.findFrom false testCriterium x.rounds (x.next current)

/-- `get_next_element` -/
def getNextElement (prevElem : Option α) : Option (Option α) :=
  if x.list = 0 ∨ x.msg x.list = none then some none
  else if prevElem = none then some (x.msg x.list)
  else
    (x.nodeWith prevElem x.rounds x.list).map fun current =>
      if current = 0 ∨ x.next current = 0 then none else x.msg (x.next current)

/-- The address is free for a new node. -/
def Allows : ListCall α → Prop
  | .insert _ node => node ≠ 0 ∧ node ∉ x.used
  | _ => True

instance (c : ListCall α) : Decidable (x.Allows c) := by
  cases c <;> unfold Allows <;> infer_instance

/-- A call; `none` when it does not end. -/
def call : ListCall α → Option (ListResult α)
  | .insert buffer node => (x.insertList (some buffer) node).map fun r => ⟨.done r.1, [], r.2⟩
  | .insertShift buffer => (x.insertShiftList (some buffer)).map fun r => ⟨.done r.1, [], r.2⟩
  | .remove test => (x.removeElement test).map fun r => ⟨.message r.2.1, r.1, r.2.2⟩
  | .removeFirst => some ⟨.message x.removeFirstElement.1, [], x.removeFirstElement.2⟩
  | .find test => (x.findElement test).map fun r => ⟨.message r.1, r.2, x⟩
  | .findNext prev test => (x.findNextElement prev test).map fun r => ⟨.message r.1, r.2, x⟩
  | .getNext prev => (x.getNextElement prev).map fun m => ⟨.message m, [], x⟩

/-- What calls of `get_next_element`, each with the result of the one before, return up to `NULL`. -/
def visited : Nat → Option α → List α
  | 0, _ => []
  | n + 1, prev =>
    match x.getNextElement prev with
    | some (some m) => m :: visited n (some m)
    | _ => []

end AciNodes

/-! ### The sequence of a list -/

/-- What is behind an element of a sequence, all of it when no element is given. -/
def behind {α : Type} [DecidableEq α] (l : List α) : Option α → List α
  | none => l
  | some p => (l.dropWhile (· ≠ p)).tail

/-- What a call answers for a sequence, and the sequence afterwards.  `insert_shift_list` drops the oldest element for the
new one, and refuses it when there is only one. -/
def ListCall.answer {α : Type} [DecidableEq α] (l : List α) : ListCall α → ListReply α × List α
  | .insert buffer _ => (.done true, l ++ [buffer])
  | .insertShift buffer =>
    match l with
    | [] => (.done true, [buffer])
    | [_] => (.done false, l)
    | _ :: r => (.done true, r ++ [buffer])
  | .remove test => (.message (l.find? fun a => test (some a)), l.eraseP fun a => test (some a))
  | .removeFirst => (.message l.head?, l.tail)
  | .find test => (.message (l.find? fun a => test (some a)), l)
  | .findNext prev test => (.message ((behind l prev).find? fun a => test (some a)), l)
  | .getNext prev => (.message (behind l prev).head?, l)

namespace AciNodes
variable {α : Type} {x : AciNodes α} {ps pre post : List Nat} {l : List α} {p q d n : Nat} {m : Option α}

/-- The nodes of a list from the header on. -/
structure Chained (x : AciNodes α) (ps : List Nat) : Prop where
  path : Path 0 x.next x.list ps
  nodup : ps.Nodup
  used : x.used.Perm ps

/-- The nodes of a list hold the messages of a sequence; only the header of the empty one has none. -/
def Represents (x : AciNodes α) (l : List α) : Prop := ∃ ps, x.Chained ps ∧ ps.map x.msg = AciList.of l

private theorem of_ne_nil (l : List α) : AciList.of l ≠ [] := by
  cases l <;> nofun

private theorem map_setMsg (h : p ∉ ps) : ps.map (x.setMsg p m).msg = ps.map x.msg :=
  List.map_congr_left fun q hq => if_neg (show q ≠ p from fun heq => h (heq ▸ hq))

private theorem setMsg_self : (x.setMsg p m).msg p = m := if_pos rfl

private theorem setNext_self : (x.setNext p q).next p = q := if_pos rfl

private theorem setNext_other (h : d ≠ p) : (x.setNext p q).next d = x.next d := if_neg h

private theorem Chained.setMsg (h : x.Chained ps) : (x.setMsg p m).Chained ps := ⟨h.path, h.nodup, h.used⟩

private theorem Chained.length_lt (h : x.Chained ps) : ps.length < x.rounds := by
  rw [← h.used.length_eq]
  exact Nat.lt_succ_self _

/-- The node behind another one is taken out of the chain and freed. -/
private theorem Chained.unlink (h : x.Chained (pre ++ q :: d :: post)) :
    ((x.setNext q (x.next d)).mfree d).Chained (pre ++ q :: post) := by
  have hnodup := List.nodup_append.1 h.nodup
  have hq : q ∉ pre := fun hmem => hnodup.2.2 q hmem q List.mem_cons_self rfl
  have hqd := List.nodup_cons.1 hnodup.2.1
  have hsub : (pre ++ q :: post).Sublist (pre ++ q :: d :: post) :=
    (List.Sublist.refl pre).append (.cons_cons q (List.sublist_cons_self d post))
  refine ⟨h.path.drop (fun c hc => setNext_other fun heq => hq (heq ▸ hc))
    (fun c hc => setNext_other fun heq => hqd.1 (heq ▸ List.mem_cons_of_mem _ hc)) setNext_self, h.nodup.sublist hsub, ?_⟩
  have herase : (pre ++ q :: d :: post).erase d = pre ++ q :: post := by
    have hd : d ∉ pre := fun hmem => hnodup.2.2 d hmem d (List.mem_cons_of_mem _ List.mem_cons_self) rfl
    have hqd' : q ≠ d := fun heq => hqd.1 (heq ▸ List.mem_cons_self)
    rw [List.erase_append_right _ hd, List.erase_cons_tail (by simpa using hqd'), List.erase_cons_head]
  rw [← herase]
  exact h.used.erase d

/-- A free node is put behind the last one. -/
private theorem Chained.link (h : x.Chained (pre ++ [q])) (hd : d ≠ 0) (hnew : d ∉ pre ++ [q]) :
    (((x.malloc d).setNext d 0).setNext q d).Chained (pre ++ [q, d]) := by
  have hq : q ∉ pre := fun hmem => (List.nodup_append.1 h.nodup).2.2 q hmem q List.mem_cons_self rfl
  have hdq : d ≠ q := fun heq => hnew (heq ▸ List.mem_append_right _ List.mem_cons_self)
  have hsnoc : pre ++ [q, d] = (pre ++ [q]) ++ [d] := (List.append_assoc pre [q] [d]).symm
  refine ⟨h.path.snoc hd (fun c hc => ?_) setNext_self ((setNext_other hdq).trans setNext_self), ?_, ?_⟩
  · have hcq : c ≠ q := fun heq => hq (heq ▸ hc)
    have hcd : c ≠ d := fun heq => hnew (heq ▸ List.mem_append_left _ hc)
    exact (setNext_other hcq).trans (setNext_other hcd)
  · rw [hsnoc]
    exact List.nodup_append.2 ⟨h.nodup, List.nodup_singleton d, fun a ha b hb hab =>
      hnew (List.mem_singleton.1 hb ▸ hab ▸ ha)⟩
  · rw [hsnoc]
    exact ((h.used.cons d).trans (List.perm_append_singleton d _).symm)

private theorem lastNode_path (h : Path 0 x.next p (pre ++ [q])) (hn : pre.length < n) : x.lastNode n p = some q := by
  induction pre generalizing p n with
  | nil =>
    obtain ⟨n, rfl⟩ := Nat.exists_eq_add_one.2 hn
    obtain ⟨rfl, -, hend⟩ := h
    exact if_neg (not_not.2 hend)
  | cons c pre ih =>
    obtain ⟨n, rfl⟩ := Nat.exists_eq_add_one.2 (Nat.zero_lt_of_lt hn)
    obtain ⟨rfl, -, hrest⟩ := h
    have hnext : x.next p ≠ 0 := by
      rw [Ne, hrest.null_iff]
      exact List.append_ne_nil_of_right_ne_nil _ nofun
    unfold lastNode
    rw [if_pos hnext]
    exact ih hrest (Nat.lt_of_succ_lt_succ hn)

private theorem Represents.cases (h : x.Represents l) :
    x.list ≠ 0 ∧ ((l = [] ∧ x.Chained [x.list] ∧ x.msg x.list = none) ∨
      ∃ a r qs, l = a :: r ∧ x.Chained (x.list :: qs) ∧ x.msg x.list = some a ∧ qs.map x.msg = r.map some) := by
  obtain ⟨ps, hc, hm⟩ := h
  cases ps with
  | nil => exact absurd hm.symm (of_ne_nil l)
  | cons p qs =>
    obtain ⟨hp, hne, -⟩ := hc.path
    subst hp
    refine ⟨hne, ?_⟩
    cases l with
    | nil =>
      obtain ⟨hmsg, hqs⟩ := List.cons.inj hm
      obtain rfl := List.map_eq_nil_iff.1 hqs
      exact Or.inl ⟨rfl, hc, hmsg⟩
    | cons a r =>
      obtain ⟨hmsg, hqs⟩ := List.cons.inj hm
      exact Or.inr ⟨a, r, qs, rfl, hc, hmsg, hqs⟩

private theorem represents_cons {a : α} {r : List α} (hc : x.Chained (p :: ps)) (hp : x.msg p = some a)
    (hps : ps.map x.msg = r.map some) : x.Represents (a :: r) :=
  ⟨p :: ps, hc, congrArg₂ List.cons hp hps⟩

/-- A new list is empty. -/
theorem newList_represents (hp : p ≠ 0) (msg : Nat → Option α) (next : Nat → Nat) :
    (newList p msg next).Represents [] :=
  ⟨[p], ⟨⟨rfl, hp, if_pos rfl⟩, List.nodup_singleton p, .refl _⟩, congrArg (· :: []) (if_pos rfl)⟩

/-! ### Inserting -/

private theorem insert_answer (h : x.Represents l) (hp : p ≠ 0) (hnew : p ∉ x.used) (b : α) :
    ∃ y, x.insertList (some b) p = some (true, y) ∧ y.Represents (l ++ [b]) := by
  obtain ⟨hlist, ⟨rfl, hc, hmsg⟩ | ⟨a, r, qs, rfl, hc, hmsg, hqs⟩⟩ := h.cases
  · unfold insertList
    rw [if_neg hlist, if_pos hmsg]
    exact ⟨_, rfl, represents_cons hc.setMsg setMsg_self rfl⟩
  · obtain ⟨pre, q, hpre⟩ := (List.eq_nil_or_concat' (x.list :: qs)).resolve_left nofun
    have hnew' : p ∉ x.list :: qs := fun hmem => hnew (hc.used.mem_iff.2 hmem)
    have hwas := hc
    rw [hpre] at hc hnew'
    have hlink := (hc.setMsg (p := p) (m := some b)).link hp hnew'
    have hlast : (((x.malloc p).setMsg p (some b)).setNext p 0).lastNode
        (((x.malloc p).setMsg p (some b)).setNext p 0).rounds x.list = some q := by
      have hpath : Path 0 (((x.malloc p).setMsg p (some b)).setNext p 0).next x.list (pre ++ [q]) :=
        hc.path.congr fun c hcm => setNext_other fun heq => hnew' (heq ▸ hcm)
      have hlen := hc.length_lt
      rw [List.length_append, List.length_singleton] at hlen
      refine lastNode_path hpath ?_
      change pre.length < x.used.length + 1 + 1
      unfold rounds at hlen
      omega
    have hne : ¬x.msg x.list = none := by
      rw [hmsg]
      nofun
    unfold insertList
    rw [if_neg hlist, if_neg hne]
    refine ⟨_, congrArg (Option.map _) hlast, ?_⟩
    have hsnoc : pre ++ [q, p] = x.list :: (qs ++ [p]) := by
      rw [← List.cons_append, hpre, List.append_assoc]
      rfl
    rw [hsnoc] at hlink
    have hpn : x.list ≠ p := fun heq => hnew (hc.used.mem_iff.2 (by rw [← hpre, heq]; exact List.mem_cons_self))
    have hqn : p ∉ qs := fun hmem => hnew (hwas.used.mem_iff.2 (List.mem_cons_of_mem _ hmem))
    refine represents_cons (p := x.list) hlink ((if_neg hpn).trans hmsg) ?_
    change (qs ++ [p]).map _ = (r ++ [b]).map some
    rw [List.map_append, List.map_append, ← hqs]
    exact congrArg₂ _ (map_setMsg hqn) (congrArg (· :: []) setMsg_self)

/-! ### Removing -/

private theorem search_none {test : Option α → Bool} (h : Path 0 x.next p ps) (hn : ps.length < n)
    (hno : ∀ c ∈ ps, test (x.msg c) = false) :
    ∃ r, x.search test n q p = some ((r, 0), ps.map x.msg) := by
  induction ps generalizing p q n with
  | nil =>
    obtain ⟨n, rfl⟩ := Nat.exists_eq_add_one.2 hn
    obtain rfl : p = 0 := h
    exact ⟨q, rfl⟩
  | cons c ps ih =>
    obtain ⟨n, rfl⟩ := Nat.exists_eq_add_one.2 (Nat.zero_lt_of_lt hn)
    obtain ⟨rfl, hp, hrest⟩ := h
    have hcur : ¬test (x.msg p) = true := by
      rw [hno p List.mem_cons_self]
      nofun
    obtain ⟨r, hr⟩ := ih hrest (Nat.lt_of_succ_lt_succ hn) (fun d hd => hno d (List.mem_cons_of_mem _ hd)) (q := p)
    unfold search
    rw [if_neg hp, if_neg hcur, hr]
    exact ⟨r, rfl⟩

private theorem search_some {test : Option α → Bool} (h : Path 0 x.next p (pre ++ d :: post))
    (hn : (pre ++ d :: post).length < n) (hno : ∀ c ∈ pre, test (x.msg c) = false) (hd : test (x.msg d) = true) :
    x.search test n q p = some ((pre.getLastD q, d), (pre ++ [d]).map x.msg) := by
  induction pre generalizing p q n with
  | nil =>
    obtain ⟨n, rfl⟩ := Nat.exists_eq_add_one.2 (Nat.zero_lt_of_lt hn)
    obtain ⟨rfl, hp, -⟩ := h
    unfold search
    rw [if_neg hp, if_pos hd]
    rfl
  | cons c pre ih =>
    obtain ⟨n, rfl⟩ := Nat.exists_eq_add_one.2 (Nat.zero_lt_of_lt hn)
    obtain ⟨rfl, hp, hrest⟩ := h
    have hcur : ¬test (x.msg p) = true := by
      rw [hno p List.mem_cons_self]
      nofun
    unfold search
    rw [if_neg hp, if_neg hcur,
      ih hrest (Nat.lt_of_succ_lt_succ hn) fun d hd => hno d (List.mem_cons_of_mem _ hd)]
    cases pre <;> rfl

private theorem none_notMem_map (l : List α) : none ∉ l.map some := by
  intro h
  obtain ⟨a, -, ha⟩ := List.mem_map.1 h
  cases ha

/-- The header takes over the message of the second node, or keeps none. -/
private theorem takeOut_first (h : x.Chained (d :: post)) {a : α} (hd : x.msg d = some a) {r : List α}
    (hpost : post.map x.msg = r.map some) : ∃ y, x.takeOut 0 d = (some a, y) ∧ y.Represents r := by
  have hlist := h.path.1
  have hd0 : ¬d = 0 := h.path.2.1
  have hne : ¬x.msg d = none := by
    rw [hd]
    nofun
  unfold takeOut
  rw [if_neg hd0, if_neg hne, if_pos rfl, hd]
  cases post with
  | nil =>
    obtain rfl := List.map_eq_nil_iff.1 hpost.symm
    rw [if_pos (show x.next d = 0 from h.path.2.2)]
    exact ⟨_, rfl, [d], h.setMsg, congrArg (· :: []) setMsg_self⟩
  | cons e post =>
    obtain ⟨hnext, he0, -⟩ := h.path.2.2
    cases r with
    | nil => cases hpost
    | cons b r =>
      obtain ⟨he, hrest⟩ := List.cons.inj hpost
      rw [if_neg (hnext ▸ he0)]
      dsimp only
      rw [hnext, he]
      have hdp : d ∉ post := fun hmem => (List.nodup_cons.1 h.nodup).1 (List.mem_cons_of_mem _ hmem)
      have hunlink := (show (x.setMsg d (some b)).Chained ([] ++ d :: e :: post) from h.setMsg).unlink
      exact ⟨_, rfl, represents_cons hunlink setMsg_self ((map_setMsg hdp).trans hrest)⟩

private theorem takeOut_behind (h : x.Chained (pre ++ q :: d :: post)) {a : α} (hd : x.msg d = some a) {r : List α}
    (hr : r ≠ []) (hmap : (pre ++ q :: post).map x.msg = r.map some) :
    ∃ y, x.takeOut q d = (some a, y) ∧ y.Represents r := by
  have hq0 : ¬q = 0 := h.path.ne_null (List.mem_append_right _ List.mem_cons_self)
  have hd0 : ¬d = 0 := h.path.ne_null (List.mem_append_right _ (List.mem_cons_of_mem _ List.mem_cons_self))
  have hne : ¬x.msg d = none := by
    rw [hd]
    nofun
  unfold takeOut
  rw [if_neg hd0, if_neg hne, if_neg hq0, hd]
  exact ⟨_, rfl, _, h.unlink, hmap.trans (AciList.of_ne_nil hr).symm⟩

private theorem remove_answer (h : x.Represents l) (test : Option α → Bool) :
    ∃ tested y, x.removeElement test = some (tested, l.find? (fun a => test (some a)), y) ∧
      y.Represents (l.eraseP fun a => test (some a)) ∧ (none ∈ tested ↔ l = []) := by
  have hrep := h
  obtain ⟨ps, hc, hm⟩ := h
  have hlen := hc.length_lt
  unfold removeElement
  cases hl : l with
  | nil =>
    subst hl
    obtain ⟨-, ⟨-, hc, hmsg⟩ | ⟨a, r, qs, hnil, -⟩⟩ := hrep.cases
    · have hlen := hc.length_lt
      cases ht : test none with
      | true =>
        rw [search_some (show Path 0 x.next x.list ([] ++ [x.list]) from hc.path) hlen nofun (by rw [hmsg]; exact ht)]
        refine ⟨[x.msg x.list], x, ?_, hrep, iff_of_true (by rw [hmsg]; exact List.mem_cons_self) rfl⟩
        change some ([x.msg x.list], x.takeOut 0 x.list) = _
        unfold takeOut
        rw [if_neg hc.path.2.1, if_pos hmsg]
        rfl
      | false =>
        obtain ⟨r, hr⟩ := search_none (q := 0) hc.path hlen fun c hcm => by
          rw [List.mem_singleton.1 hcm, hmsg]
          exact ht
        rw [hr]
        exact ⟨[x.msg x.list], x, rfl, hrep, iff_of_true (by rw [hmsg]; exact List.mem_cons_self) rfl⟩
    · cases hnil
  | cons b m =>
    rw [← hl]
    have hne : l ≠ [] := by
      rw [hl]
      nofun
    rw [AciList.of_ne_nil hne] at hm
    cases hfind : l.find? fun a => test (some a) with
    | none =>
      have hno : ∀ c ∈ ps, test (x.msg c) = false := by
        intro c hcm
        have hmem : x.msg c ∈ l.map some := hm ▸ List.mem_map_of_mem hcm
        obtain ⟨a, ha, hac⟩ := List.mem_map.1 hmem
        rw [← hac]
        exact Bool.eq_false_iff.2 (List.find?_eq_none.1 hfind a ha)
      obtain ⟨r, hr⟩ := search_none (q := 0) hc.path hlen hno
      have herase : l.eraseP (fun a => test (some a)) = l :=
        List.eraseP_of_forall_not fun a ha => List.find?_eq_none.1 hfind a ha
      rw [hr, herase, hm]
      exact ⟨l.map some, x, rfl, hrep, iff_of_false (none_notMem_map l) hne⟩
    | some a =>
      obtain ⟨ha, l₁, l₂, rfl, hl₁⟩ := List.find?_eq_some_iff_append.1 hfind
      rw [List.map_append, List.map_cons] at hm
      obtain ⟨pre, rest, rfl, hpre, hrest⟩ := List.map_eq_append_iff.1 hm
      obtain ⟨d, post, rfl, hd, hpost⟩ := List.map_eq_cons_iff.1 hrest
      have hno : ∀ c ∈ pre, test (x.msg c) = false := by
        intro c hcm
        have hmem : x.msg c ∈ l₁.map some := hpre ▸ List.mem_map_of_mem hcm
        obtain ⟨e, he, hec⟩ := List.mem_map.1 hmem
        rw [← hec]
        exact (Bool.not_eq_true' _).mp (hl₁ e he)
      have herase : (l₁ ++ a :: l₂).eraseP (fun a => test (some a)) = l₁ ++ l₂ := by
        have hl₁' : ∀ e ∈ l₁, ¬test (some e) = true := fun e he => by simpa using hl₁ e he
        rw [List.eraseP_append_right _ hl₁', List.eraseP_cons_of_pos (p := fun a => test (some a)) ha]
      have htested : (pre ++ [d]).map x.msg = (l₁ ++ [a]).map some := by
        rw [List.map_append, List.map_append, hpre]
        exact congrArg (_ ++ [·]) hd
      rw [search_some hc.path hlen hno (by rw [hd]; exact ha), herase, htested]
      have htake : ∃ y, x.takeOut (pre.getLastD 0) d = (some a, y) ∧ y.Represents (l₁ ++ l₂) := by
        rcases List.eq_nil_or_concat' pre with rfl | ⟨pre, q, rfl⟩
        · obtain rfl := List.map_eq_nil_iff.1 hpre.symm
          exact takeOut_first hc hd hpost
        · rw [List.getLastD_concat]
          rw [List.append_assoc] at hc
          refine takeOut_behind hc hd ?_ ?_
          · intro hnil
            rw [(List.append_eq_nil_iff.1 hnil).1] at hpre
            simp at hpre
          · rw [List.map_append (f := some), ← hpre, ← hpost, ← List.map_append, List.append_assoc]
            rfl
      obtain ⟨y, hy, hrep⟩ := htake
      exact ⟨(l₁ ++ [a]).map some, y, congrArg (fun r => some (_, r)) hy, hrep,
        iff_of_false (none_notMem_map _) hne⟩

/-- The first message is taken out as one that meets a criterion is. -/
private theorem removeFirst_eq (hlist : x.list ≠ 0) (hmsg : x.msg x.list ≠ none) (hnext : x.next x.list ≠ x.list) :
    x.removeFirstElement = x.takeOut 0 x.list := by
  have hne : ¬(x.list = 0 ∨ x.msg x.list = none) := not_or.2 ⟨hlist, hmsg⟩
  unfold removeFirstElement takeOut
  rw [if_neg hne, if_neg hlist, if_neg hmsg, if_pos rfl]
  dsimp only
  by_cases hend : x.next x.list = 0
  · rw [if_pos hend]
    exact if_pos hend
  · rw [if_neg hend]
    refine (if_neg hend).trans (congrArg (Prod.mk _) ?_)
    have hother : (x.setMsg x.list none).msg (x.next x.list) = x.msg (x.next x.list) := if_neg hnext
    have htwice : (((x.setMsg x.list none).setNext x.list (x.next (x.next x.list))).setMsg x.list
        (x.msg (x.next x.list))).msg = (x.setMsg x.list (x.msg (x.next x.list))).msg := by
      funext q
      change (if q = x.list then _ else if q = x.list then none else x.msg q) = if q = x.list then _ else x.msg q
      split_ifs <;> rfl
    change AciNodes.mk _ _ (((x.setMsg x.list none).setNext x.list (x.next (x.next x.list))).setMsg x.list
      ((x.setMsg x.list none).msg (x.next x.list))).msg _ = AciNodes.mk _ _ _ _
    rw [hother, htwice]
    rfl

private theorem removeFirst_answer (h : x.Represents l) :
    x.removeFirstElement.1 = l.head? ∧ x.removeFirstElement.2.Represents l.tail := by
  obtain ⟨hlist, ⟨rfl, hc, hmsg⟩ | ⟨a, r, qs, rfl, hc, hmsg, hqs⟩⟩ := h.cases
  · unfold removeFirstElement
    rw [if_pos (Or.inr hmsg)]
    exact ⟨rfl, h⟩
  · have hnext : x.next x.list ≠ x.list := by
      intro heq
      have hbegin := hc.path.2.2.begin
      cases qs with
      | nil => exact hlist (heq.symm.trans hbegin)
      | cons q qs => exact (List.nodup_cons.1 hc.nodup).1 (heq.symm.trans hbegin ▸ List.mem_cons_self)
    obtain ⟨y, hy, hrep⟩ := takeOut_first hc hmsg hqs
    rw [removeFirst_eq hlist (by rw [hmsg]; nofun) hnext, hy]
    exact ⟨rfl, hrep⟩

/-! ### Finding -/

private theorem findFrom_path {checked : Bool} (h : Path 0 x.next p ps) (hps : ps ≠ []) (hn : ps.length ≤ n)
    (hm : ps.map x.msg = l.map some) (test : Option α → Bool) :
    ∃ tested, x.findFrom checked test n p = some (l.find? (fun a => test (some a)), tested) ∧ none ∉ tested := by
  induction ps generalizing p l n with
  | nil => exact absurd rfl hps
  | cons c ps ih =>
    obtain ⟨n, rfl⟩ := Nat.exists_eq_add_one.2 (Nat.zero_lt_of_lt hn)
    obtain ⟨rfl, -, hrest⟩ := h
    cases l with
    | nil => cases hm
    | cons a r =>
      obtain ⟨hmsg, hmap⟩ := List.cons.inj hm
      have hchecked : ¬(checked = true ∧ x.msg p = none) := by
        rw [hmsg]
        exact fun h => nomatch h.2
      have hsingle : none ∉ [some a] := fun h => nomatch List.mem_singleton.1 h
      unfold findFrom
      rw [if_neg hchecked, hmsg]
      by_cases ht : test (some a) = true
      · rw [if_pos ht, List.find?_cons_of_pos (p := fun a => test (some a)) ht]
        exact ⟨_, rfl, hsingle⟩
      · rw [if_neg ht, List.find?_cons_of_neg (p := fun a => test (some a)) ht]
        by_cases hend : ps = []
        · subst hend
          obtain rfl := List.map_eq_nil_iff.1 hmap.symm
          rw [if_neg (not_not.2 (show x.next p = 0 from hrest))]
          exact ⟨_, rfl, hsingle⟩
        · obtain ⟨tested, heq, hno⟩ := ih hrest hend (Nat.le_of_succ_le_succ hn) hmap
          rw [if_pos (mt hrest.null_iff.1 hend), heq]
          exact ⟨some a :: tested, rfl, fun h => (List.mem_cons.1 h).elim nofun hno⟩

private theorem find_answer (h : x.Represents l) (test : Option α → Bool) :
    ∃ tested, x.findElement test = some (l.find? (fun a => test (some a)), tested) ∧ none ∉ tested := by
  obtain ⟨hlist, ⟨rfl, hc, hmsg⟩ | ⟨a, r, qs, rfl, hc, hmsg, hqs⟩⟩ := h.cases
  · unfold findElement
    rw [if_pos (Or.inr hmsg)]
    exact ⟨[], rfl, nofun⟩
  · have hne : ¬(x.list = 0 ∨ x.msg x.list = none) := by
      rw [hmsg]
      exact not_or.2 ⟨hlist, nofun⟩
    have hmap : (x.list :: qs).map x.msg = (a :: r).map some := congrArg₂ List.cons hmsg hqs
    unfold findElement
    rw [if_neg hne]
    exact findFrom_path hc.path nofun hc.length_lt.le hmap test

section
variable [DecidableEq α]

private theorem insertShift_answer (h : x.Represents l) (b : α) :
    ∃ r, x.insertShiftList (some b) = some r ∧ ListReply.done r.1 = (ListCall.answer l (.insertShift b)).1 ∧
      r.2.Represents (ListCall.answer l (.insertShift b)).2 := by
  obtain ⟨hlist, ⟨rfl, hc, hmsg⟩ | ⟨a, r, qs, rfl, hc, hmsg, hqs⟩⟩ := h.cases
  · unfold insertShiftList
    rw [if_neg hlist, if_pos hmsg]
    exact ⟨_, rfl, rfl, represents_cons hc.setMsg setMsg_self rfl⟩
  · have hne : ¬x.msg x.list = none := by
      rw [hmsg]
      nofun
    unfold insertShiftList
    rw [if_neg hlist, if_neg hne]
    cases qs with
    | nil =>
      obtain rfl := List.map_eq_nil_iff.1 hqs.symm
      rw [if_pos (show x.next x.list = 0 from hc.path.2.2)]
      exact ⟨_, rfl, rfl, h⟩
    | cons d qs =>
      obtain ⟨hnext, hd0, -⟩ := hc.path.2.2
      cases r with
      | nil => cases hqs
      | cons c r =>
        obtain ⟨hd, hrest⟩ := List.cons.inj hqs
        rw [if_neg (hnext ▸ hd0)]
        dsimp only
        rw [hnext, hd]
        have hnodup := List.nodup_cons.1 hc.nodup
        have hdh : x.list ≠ d := fun heq => hnodup.1 (heq ▸ List.mem_cons_self)
        have hdq : d ∉ qs := (List.nodup_cons.1 hnodup.2).1
        have hnew : d ∉ x.list :: qs := fun hmem => (List.mem_cons.1 hmem).elim (hdh ·.symm) hdq
        -- the second node is taken out, and put behind the last one
        have hfirst : (x.setMsg x.list (some c)).Chained ([] ++ x.list :: d :: qs) := hc.setMsg
        have hshort := hfirst.unlink.setMsg (p := d) (m := some b)
        obtain ⟨pre, q, hpre⟩ := (List.eq_nil_or_concat' (x.list :: qs)).resolve_left nofun
        change Chained _ (x.list :: qs) at hshort
        rw [hpre] at hshort hnew
        have hlink := hshort.link hd0 hnew
        have hsnoc : pre ++ [q, d] = x.list :: (qs ++ [d]) := by
          rw [← List.cons_append, hpre, List.append_assoc]
          rfl
        rw [hsnoc] at hlink
        have hlast : ((((x.setMsg x.list (some c)).setNext x.list (x.next d)).setMsg d (some b)).setNext d 0).lastNode
            x.rounds x.list = some q := by
          have hpath : Path 0 ((((x.setMsg x.list (some c)).setNext x.list (x.next d)).setMsg d (some b)).setNext d
              0).next x.list (pre ++ [q]) :=
            hshort.path.congr fun e he => setNext_other fun heq => hnew (heq ▸ he)
          refine lastNode_path hpath ?_
          have hlen := hc.length_lt
          have hlen' := congrArg List.length hpre
          simp only [List.length_append, List.length_cons, List.length_nil] at hlen hlen'
          omega
        refine ⟨_, congrArg (Option.map _) hlast, rfl, ?_⟩
        have hchain : (((((x.setMsg x.list (some c)).setNext x.list (x.next d)).setMsg d (some b)).setNext d
            0).setNext q d).Chained (x.list :: (qs ++ [d])) :=
          ⟨hlink.path, hlink.nodup, hc.used.trans ((List.perm_append_singleton d qs).symm.cons x.list)⟩
        refine represents_cons hchain ?_ ?_
        · change (if x.list = d then _ else if x.list = x.list then some c else x.msg x.list) = some c
          rw [if_neg hdh, if_pos rfl]
        · have hhq : x.list ∉ qs := fun hmem => hnodup.1 (List.mem_cons_of_mem _ hmem)
          change (qs ++ [d]).map _ = (r ++ [b]).map some
          have hqs' := ((map_setMsg (x := x.setMsg x.list (some c)) (m := some b) hdq).trans (map_setMsg hhq)).trans hrest
          rw [List.map_append, List.map_append]
          exact congrArg₂ _ hqs' (congrArg (· :: []) setMsg_self)

private theorem nodeWith_path (h : Path 0 x.next p ps) (hn : ps.length < n) (hm : ps.map x.msg = l.map some) (a : α) :
    ∃ c qs, x.nodeWith (some a) n p = some c ∧ qs.length ≤ ps.length ∧ qs.map x.msg = (behind l (some a)).map some ∧
      (c = 0 ∧ qs = [] ∨ c ≠ 0 ∧ Path 0 x.next (x.next c) qs) := by
  induction ps generalizing p l n with
  | nil =>
    obtain ⟨n, rfl⟩ := Nat.exists_eq_add_one.2 hn
    obtain rfl := List.map_eq_nil_iff.1 hm.symm
    obtain rfl : p = 0 := h
    exact ⟨0, [], rfl, le_rfl, rfl, Or.inl ⟨rfl, rfl⟩⟩
  | cons c ps ih =>
    obtain ⟨n, rfl⟩ := Nat.exists_eq_add_one.2 (Nat.zero_lt_of_lt hn)
    obtain ⟨rfl, hp, hrest⟩ := h
    cases l with
    | nil => cases hm
    | cons e r =>
      obtain ⟨hmsg, hmap⟩ := List.cons.inj hm
      unfold nodeWith
      rw [if_neg hp, hmsg]
      unfold behind
      dsimp only
      by_cases he : e = a
      · rw [if_pos (congrArg some he), List.dropWhile_cons_of_neg (by simpa using he)]
        exact ⟨p, ps, rfl, Nat.le_succ _, hmap, Or.inr ⟨hp, hrest⟩⟩
      · rw [if_neg (mt Option.some.inj he), List.dropWhile_cons_of_pos (by simpa using he)]
        obtain ⟨c, qs, hc, hle, hq⟩ := ih hrest (Nat.lt_of_succ_lt_succ hn) hmap
        exact ⟨c, qs, hc, hle.trans (Nat.le_succ _), hq⟩

private theorem findNext_answer (h : x.Represents l) (prev : Option α) (test : Option α → Bool) :
    ∃ tested, x.findNextElement prev test = some ((behind l prev).find? (fun a => test (some a)), tested) ∧
      none ∉ tested := by
  obtain ⟨hlist, ⟨rfl, hc, hmsg⟩ | ⟨a, r, qs, rfl, hc, hmsg, hqs⟩⟩ := h.cases
  · unfold findNextElement
    rw [if_pos (Or.inr hmsg)]
    cases prev <;> exact ⟨[], rfl, nofun⟩
  · have hne : ¬(x.list = 0 ∨ x.msg x.list = none) := by
      rw [hmsg]
      exact not_or.2 ⟨hlist, nofun⟩
    have hmap : (x.list :: qs).map x.msg = (a :: r).map some := congrArg₂ List.cons hmsg hqs
    unfold findNextElement
    rw [if_neg hne]
    cases prev with
    | none =>
      rw [if_pos rfl]
      exact findFrom_path hc.path nofun hc.length_lt.le hmap test
    | some b =>
      obtain ⟨c, ps, hnode, hle, hps, hcase⟩ := nodeWith_path hc.path hc.length_lt hmap b
      rw [if_neg nofun, hnode, Option.bind_some]
      have hend : c = 0 ∨ x.next c = 0 ↔ ps = [] := by
        rcases hcase with ⟨hc0, hnil⟩ | ⟨hc0, hpath⟩
        · exact iff_of_true (Or.inl hc0) hnil
        · rw [or_iff_right hc0]
          exact hpath.null_iff
      by_cases hnil : ps = []
      · rw [if_pos (hend.2 hnil)]
        rw [hnil] at hps
        rw [List.map_eq_nil_iff.1 hps.symm]
        exact ⟨[], rfl, nofun⟩
      · rw [if_neg (mt hend.1 hnil)]
        obtain ⟨-, hpath⟩ := hcase.resolve_left fun h => hnil h.2
        exact findFrom_path hpath hnil (hle.trans hc.length_lt.le) hps test

private theorem getNext_answer (h : x.Represents l) (prev : Option α) :
    x.getNextElement prev = some (behind l prev).head? := by
  obtain ⟨hlist, ⟨rfl, hc, hmsg⟩ | ⟨a, r, qs, rfl, hc, hmsg, hqs⟩⟩ := h.cases
  · unfold getNextElement
    rw [if_pos (Or.inr hmsg)]
    cases prev <;> rfl
  · have hne : ¬(x.list = 0 ∨ x.msg x.list = none) := by
      rw [hmsg]
      exact not_or.2 ⟨hlist, nofun⟩
    have hmap : (x.list :: qs).map x.msg = (a :: r).map some := congrArg₂ List.cons hmsg hqs
    unfold getNextElement
    rw [if_neg hne]
    cases prev with
    | none => exact congrArg some hmsg
    | some b =>
      obtain ⟨c, ps, hnode, -, hps, hcase⟩ := nodeWith_path hc.path hc.length_lt hmap b
      rw [if_neg nofun, hnode]
      refine congrArg some ?_
      dsimp only
      rcases hcase with ⟨hc0, rfl⟩ | ⟨hc0, hpath⟩
      · rw [if_pos (Or.inl hc0), List.map_eq_nil_iff.1 hps.symm]
        rfl
      · cases ps with
        | nil =>
          rw [if_pos (Or.inr (show x.next c = 0 from hpath)), List.map_eq_nil_iff.1 hps.symm]
          rfl
        | cons e ps =>
          obtain ⟨he, he0, -⟩ := hpath
          cases hb : behind (a :: r) (some b) with
          | nil =>
            rw [hb] at hps
            cases hps
          | cons m l =>
            rw [hb] at hps
            rw [if_neg (not_or.2 ⟨hc0, he ▸ he0⟩), he]
            exact (List.cons.inj hps).1

end

end AciNodes

/-! ### Calls in any order -/

/-- The call is one of `remove_element`. -/
def ListCall.removes {α : Type} : ListCall α → Bool
  | .remove _ => true
  | _ => false

section
variable {α : Type} [DecidableEq α]

/-- The calls for a list made by `new_list`, with messages that are not `NULL`. -/
def aciLists (α : Type) [DecidableEq α] : Machine (AciNodes α) (ListCall α) where
  init x := ∃ p msg next, p ≠ 0 ∧ x = AciNodes.newList p msg next
  step x c := if x.Allows c then (x.call c).map (·.nodes) else none

namespace AciNodes

/-- A call ends with the answer for the sequence, leaves nodes that represent the sequence afterwards, and has called the
criterion with messages only. -/
def Right (x : AciNodes α) (l : List α) (c : ListCall α) : Prop :=
  ∃ r, x.call c = some r ∧ r.reply = (c.answer l).1 ∧ r.nodes.Represents (c.answer l).2 ∧ none ∉ r.tested

/-- The calls of `get_next_element` visit each element once, in order, and end. -/
def Enumerates (x : AciNodes α) (l : List α) : Prop := ∀ n, l.length < n → x.visited n none = l

variable {x : AciNodes α} {l v w : List α} {c : ListCall α} {prev : Option α} {a : α} {n m : Nat}

/-- What a call does. -/
theorem call_answers (h : x.Represents l) (hc : x.Allows c) :
    ∃ r, x.call c = some r ∧ r.reply = (c.answer l).1 ∧ r.nodes.Represents (c.answer l).2 ∧
      (none ∈ r.tested ↔ c.removes = true ∧ l = []) := by
  have hnone : ∀ b : Bool, b = false → ((none : Option α) ∈ ([] : List (Option α)) ↔ b = true ∧ l = []) := by
    rintro b rfl
    exact iff_of_false nofun (fun h => nomatch h.1)
  cases c with
  | insert b p =>
    obtain ⟨y, hy, hrep⟩ := insert_answer h hc.1 hc.2 b
    unfold call
    dsimp only
    rw [hy]
    exact ⟨_, rfl, rfl, hrep, hnone _ rfl⟩
  | insertShift b =>
    obtain ⟨r, hr, hreply, hrep⟩ := insertShift_answer h b
    unfold call
    dsimp only
    rw [hr]
    exact ⟨_, rfl, hreply, hrep, hnone _ rfl⟩
  | remove test =>
    obtain ⟨tested, y, hy, hrep, htested⟩ := remove_answer h test
    unfold call
    dsimp only
    rw [hy]
    exact ⟨_, rfl, rfl, hrep, htested.trans (and_iff_right rfl).symm⟩
  | removeFirst =>
    obtain ⟨hm, hrep⟩ := removeFirst_answer h
    exact ⟨_, rfl, congrArg _ hm, hrep, hnone _ rfl⟩
  | find test =>
    obtain ⟨tested, heq, hno⟩ := find_answer h test
    unfold call
    dsimp only
    rw [heq]
    exact ⟨_, rfl, rfl, h, iff_of_false hno (fun h => nomatch h.1)⟩
  | findNext prev test =>
    obtain ⟨tested, heq, hno⟩ := findNext_answer h prev test
    unfold call
    dsimp only
    rw [heq]
    exact ⟨_, rfl, rfl, h, iff_of_false hno (fun h => nomatch h.1)⟩
  | getNext prev =>
    unfold call
    dsimp only
    rw [getNext_answer h prev]
    exact ⟨_, rfl, rfl, h, hnone _ rfl⟩

/-- In every state that calls lead to, the nodes represent a sequence. -/
theorem represents_of_reach (h : (aciLists α).Reach (fun _ _ => true) x) : ∃ l, x.Represents l := by
  refine h.invariant (I := fun x => ∃ l, x.Represents l) ?_ ?_
  · rintro _ ⟨p, msg, next, hp, rfl⟩
    exact ⟨[], newList_represents hp msg next⟩
  · rintro x c y ⟨l, hl⟩ - hstep
    unfold aciLists at hstep
    dsimp only at hstep
    split_ifs at hstep with hc
    obtain ⟨r, hr, -, hrep, -⟩ := call_answers hl hc
    rw [hr] at hstep
    cases hstep
    exact ⟨_, hrep⟩

/-! ### Enumerating -/

private theorem visited_succ (h : x.Represents l) :
    x.visited (n + 1) prev =
      match (behind l prev).head? with
      | some a => a :: x.visited n (some a)
      | none => [] := by
  conv_lhs => unfold visited
  rw [getNext_answer h prev]
  cases (behind l prev).head? <;> rfl

private theorem visited_behind (h : x.Represents l) (hl : l.Nodup) (hv : behind l prev = v) (hn : v.length < n) :
    x.visited n prev = v := by
  induction v generalizing n prev with
  | nil =>
    obtain ⟨n, rfl⟩ := Nat.exists_eq_add_one.2 hn
    rw [visited_succ h, hv]
    rfl
  | cons a v ih =>
    obtain ⟨n, rfl⟩ := Nat.exists_eq_add_one.2 (Nat.zero_lt_of_lt hn)
    rw [visited_succ h, hv]
    refine congrArg (a :: ·) (ih ?_ (Nat.lt_of_succ_lt_succ hn))
    have hsuf : (a :: v) <:+ l := by
      rw [← hv]
      cases prev with
      | none => exact List.suffix_refl l
      | some p => exact (List.tail_suffix _).trans (List.dropWhile_suffix _)
    obtain ⟨u, rfl⟩ := hsuf
    have hu : ∀ b ∈ u, decide (b ≠ a) = true := fun b hb =>
      decide_eq_true ((List.nodup_append.1 hl).2.2 b hb a List.mem_cons_self)
    unfold behind
    dsimp only
    rw [List.dropWhile_append_of_pos hu, List.dropWhile_cons_of_neg (by simp)]
    rfl

/-- What is visited goes by the previous element only. -/
private theorem visited_unique (h : x.Represents l) (hv : x.visited n prev = v) (hn : v.length < n)
    (hw : x.visited m prev = w) (hm : w.length < m) : v = w := by
  induction v generalizing n m prev w with
  | nil =>
    obtain ⟨n, rfl⟩ := Nat.exists_eq_add_one.2 hn
    obtain ⟨m, rfl⟩ := Nat.exists_eq_add_one.2 (Nat.zero_lt_of_lt hm)
    rw [visited_succ h] at hv hw
    cases hb : (behind l prev).head? with
    | none =>
      rw [hb] at hw
      exact hw
    | some b =>
      rw [hb] at hv
      cases hv
  | cons a v ih =>
    obtain ⟨n, rfl⟩ := Nat.exists_eq_add_one.2 (Nat.zero_lt_of_lt hn)
    obtain ⟨m, rfl⟩ := Nat.exists_eq_add_one.2 (Nat.zero_lt_of_lt hm)
    rw [visited_succ h] at hv hw
    cases hb : (behind l prev).head? with
    | none =>
      rw [hb] at hv
      cases hv
    | some b =>
      rw [hb] at hv hw
      dsimp only at hv hw
      obtain ⟨rfl, hv'⟩ := List.cons.inj hv
      subst hw
      exact congrArg _ (ih hv' (Nat.lt_of_succ_lt_succ hn) rfl (Nat.lt_of_succ_lt_succ hm))

private theorem visited_from (h : x.Represents l) {u : List α} (hv : x.visited n prev = u ++ a :: w)
    (hn : (u ++ a :: w).length < n) : ∃ m, x.visited m (some a) = w ∧ w.length < m := by
  induction u generalizing n prev with
  | nil =>
    obtain ⟨n, rfl⟩ := Nat.exists_eq_add_one.2 (Nat.zero_lt_of_lt hn)
    rw [visited_succ h] at hv
    cases hb : (behind l prev).head? with
    | none =>
      rw [hb] at hv
      cases hv
    | some b =>
      rw [hb] at hv
      obtain ⟨rfl, hv'⟩ := List.cons.inj hv
      exact ⟨n, hv', Nat.lt_of_succ_lt_succ hn⟩
  | cons c u ih =>
    obtain ⟨n, rfl⟩ := Nat.exists_eq_add_one.2 (Nat.zero_lt_of_lt hn)
    rw [visited_succ h] at hv
    cases hb : (behind l prev).head? with
    | none =>
      rw [hb] at hv
      cases hv
    | some b =>
      rw [hb] at hv
      obtain ⟨rfl, hv'⟩ := List.cons.inj hv
      exact ih hv' (Nat.lt_of_succ_lt_succ hn)

/-- What is visited up to an end has no element twice. -/
private theorem visited_nodup (h : x.Represents l) (hv : x.visited n prev = v) (hn : v.length < n) : v.Nodup := by
  induction v generalizing n prev with
  | nil => exact List.nodup_nil
  | cons a v ih =>
    obtain ⟨m, hm, hlt⟩ := visited_from h (u := []) hv hn
    refine List.nodup_cons.2 ⟨fun hmem => ?_, ih hm hlt⟩
    obtain ⟨u, w, rfl⟩ := List.append_of_mem hmem
    obtain ⟨k, hk, hklt⟩ := visited_from h hm hlt
    have hlen := congrArg List.length (visited_unique h hm hlt hk hklt)
    rw [List.length_append, List.length_cons] at hlen
    omega

/-- An enumeration visits each element once exactly when no element is in the list twice. -/
theorem enumerates_iff (h : x.Represents l) : x.Enumerates l ↔ l.Nodup :=
  ⟨fun he => visited_nodup h (he _ (Nat.lt_succ_self _)) (Nat.lt_succ_self _),
    fun hl _ hn => visited_behind h hl rfl hn⟩

end AciNodes

end

namespace listNodes

/-- A new list. -/
def made : AciNodes Nat := .newList 1 (fun _ => none) fun _ => 0

end listNodes

end Citrine.Aci
