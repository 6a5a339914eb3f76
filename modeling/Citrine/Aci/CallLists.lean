import Mathlib.Data.List.Perm.Subperm
import Mathlib.Data.List.Range
import Mathlib.Logic.Function.Basic
import Citrine.Lib.Keyed
import Citrine.Lib.Links
import Citrine.Lib.Machine

/-!
# The lists of calls

`phb.c`: the numbers last dialled, received and missed are elements of one table, each list on a doubly linked chain of its
own.  What a list of calls is for is to have the last calls, the latest first and no number twice (`addCall`, `deleteCall`).
The chain is such a list as long as the table has room and a list that is full has more than one element
(`callLists_iff`); a call that is added to an empty list is written in front of the table as well.
-/

namespace Citrine.Aci.Phb

/-- `MAX_RDM_RECORDS` -/
def maxRdmRecords : Nat := 30

/-- `UNUSED_INDEX` -/
def unusedIndex : Int := -1

/-- `UNUSED_BYTE_INDEX` -/
def unusedByteIndex : Int := 0xFF

/-- `PHB_PACKED_NUM_LEN`, with `PHONEBOOK_EXTENSION` -/
def phbPackedNumLen : Nat := 22

/-- `MAX_PHB_NUM_LEN`, with `PHONEBOOK_EXTENSION` -/
def maxPhbNumLen : Nat := 45

/-- The conversion to `UBYTE`. -/
def ubyte (i : Int) : Int := i % 256

/-! ### Records -/

/-- What `T_PHB_RECORD` and `T_RDM_RECORD` tell of a call. -/
structure CallRecord where
  tagLen : Nat
  tag : List Nat
  year : Nat
  month : Nat
  day : Nat
  hour : Nat
  minute : Nat
  second : Nat
  len : Nat
  tonNpi : Nat
  number : List Nat
  ccId : Nat
  line : Nat
  deriving DecidableEq, Repr

/-- A call that is added: its number is in the octets for it. -/
structure PhbRecord where
  call : CallRecord
  length : call.number.length = phbPackedNumLen
  digits : call.len ≤ phbPackedNumLen

/-- `T_RDM_RECORD` -/
structure RdmRecord where
  index : Nat
  call : CallRecord

inductive CallType where
  | ldn | lrn | lmn
  deriving DecidableEq, Repr

/-- `T_PHB_RDM_ELEMENT` -/
structure RdmElement where
  free : Bool
  type : CallType
  prevRcd : Int
  nextRcd : Int
  entry : RdmRecord

/-- `cmhPHB_convertBCD2char` -/
def cmhPHBConvertBCD2char (bcd : Nat) : Char :=
  if bcd ≤ 9 then Char.ofNat (bcd + 48)
  else if bcd = 10 then '*'
  else if bcd = 11 then '#'
  else if bcd = 12 then 'P'
  else if bcd = 13 then '?'
  else if bcd = 14 then 'E'
  else Char.ofNat 0

/-- The loop of `cmhPHB_getAdrStr` over the digits. -/
def getAdrStrLoop (maxIdx : Nat) : List Nat → Bool → Nat → List Char
  | [], _, _ => []
  | bcd :: rest, ignoreNext, strIdx =>
    if strIdx < maxIdx then
      if bcd = 15 then []
      else if ignoreNext then getAdrStrLoop maxIdx rest false strIdx
      else if cmhPHBConvertBCD2char bcd = 'E' then getAdrStrLoop maxIdx rest true strIdx
      else cmhPHBConvertBCD2char bcd :: getAdrStrLoop maxIdx rest false (strIdx + 1)
    else []

/-- `cmhPHB_getAdrStr` of the number; the octets behind it, `subaddr`, are `0xFF`. -/
def CallRecord.adrStr (c : CallRecord) : List Char :=
  getAdrStrLoop (maxPhbNumLen - 1)
    ((List.range c.len).flatMap fun i => [c.number.getD i 0xFF % 16, c.number.getD i 0xFF / 16 % 16]) false 0

/-! ### One of the lists -/

/-- `phb_l_element` with what lies around it, and the list's part of `phb_ctb`.  `strayed`: during the call an element has
been read or written that is not in the table. -/
structure Book where
  type : CallType
  maxRcd : Int
  usedRcd : Int
  firstRcd : Int
  element : Int → RdmElement
  strayed : Bool

inductive PhbReturn where
  | ok | fail
  deriving DecidableEq, Repr

/-- An index of the table. -/
def InTable (i : Int) : Prop := 0 ≤ i ∧ i < maxRdmRecords

instance (i : Int) : Decidable (InTable i) := inferInstanceAs (Decidable (_ ∧ _))

namespace Book
variable (s : Book)

/-- An element is read. -/
def touch (i : Int) : Book := { s with strayed := s.strayed || !decide (InTable i) }

/-- An element is written. -/
def set (i : Int) (f : RdmElement → RdmElement) : Book :=
  { s.touch i with element := Function.update s.element i (f (s.element i)) }

def setPrev (i v : Int) : Book := s.set i fun e => { e with prevRcd := v }

def setNext (i v : Int) : Book := s.set i fun e => { e with nextRcd := v }

def setIndex (i : Int) (k : Nat) : Book := s.set i fun e => { e with entry := { e.entry with index := k } }

/-- The rounds in which a chain that ends comes to its end: its links are octets. -/
def rounds : Nat := 256

/-- The loop of `pb_create_l_memory` from `i` on. -/
def firstFree : Nat → Int → Option Int
  | 0, _ => none
  | n + 1, i => if (s.element i).free then some i else firstFree n (i + 1)

/-- What `memset` leaves of an entry. -/
def erased : RdmRecord :=
  ⟨0xFF, ⟨0xFF, List.replicate 20 0xFF, 0xFF, 0xFF, 0xFF, 0xFF, 0xFF, 0xFF, 0xFF, 0xFF,
    List.replicate phbPackedNumLen 0xFF, 0xFF, 0xFF⟩⟩

/-- `pb_create_l_memory`, `none` when no element is free -/
def pbCreateLMemory : Option (Book × Int) :=
  (s.firstFree maxRdmRecords 0).map fun i => (s.set i fun e => { e with entry := erased, free := false }, i)

/-- The loop of `pb_search_number` for the lists of calls. -/
def searchLoop (number : List Char) : Nat → Book → Int → Option (Book × Option RdmRecord)
  | 0, _, _ => none
  | n + 1, s, cur =>
    if cur = unusedByteIndex then some (s, none)
    else if (s.element cur).entry.call.adrStr = number then some (s.touch cur, some (s.element cur).entry)
    else searchLoop number n (s.touch cur) (s.element cur).nextRcd

/-- `pb_search_number`: the record that is found. -/
def pbSearchNumber (number : List Char) : Option (Book × Option RdmRecord) :=
  if s.usedRcd = 0 then some (s, none) else searchLoop number rounds s (ubyte s.firstRcd)

/-- `pb_l_rcd_chain` -/
def pbLRcdChain (prevIndex curIndex nextIndex : Int) : Book :=
  let s := s.touch curIndex
  let e := s.element curIndex
  if e.prevRcd = unusedByteIndex ∧ e.nextRcd = unusedByteIndex then { s with firstRcd := unusedIndex }
  else if e.prevRcd ≠ unusedByteIndex ∧ e.nextRcd = unusedByteIndex then
    (s.setNext prevIndex unusedByteIndex).setPrev curIndex unusedByteIndex
  else if e.prevRcd = unusedByteIndex ∧ e.nextRcd ≠ unusedByteIndex then
    { (s.setPrev nextIndex unusedByteIndex).setNext curIndex unusedByteIndex with firstRcd := ubyte nextIndex }
  else
    let s := s.setNext prevIndex (s.element curIndex).nextRcd
    let s := s.setPrev nextIndex (s.element curIndex).prevRcd
    s.setPrev curIndex unusedByteIndex

/-- The loop that numbers the elements of the chain. -/
def renumber : Nat → Book → Int → Nat → Option Book
  | 0, _, _, _ => none
  | n + 1, s, cur, new =>
    if cur = unusedByteIndex then some s
    else
      let s := s.setIndex cur (new % 256)
      renumber n s (s.element cur).nextRcd (new + 1)

/-- The body of the loop of `pb_delete_record`, at the element that is to be deleted. -/
def deleteElement (cur : Int) : Option Book :=
  let s := s.set cur fun e => { e with free := true }
  let s := s.pbLRcdChain (s.element cur).prevRcd cur (s.element cur).nextRcd
  let s := { s with usedRcd := s.usedRcd - 1 }
  renumber rounds s (ubyte s.firstRcd) 1

/-- The loop of `pb_delete_record`. -/
def deleteLoop (index : Nat) : Nat → Book → Int → Option (Book × PhbReturn)
  | 0, _, _ => none
  | n + 1, s, cur =>
    if cur = unusedByteIndex then some (s, .fail)
    else if (s.element cur).entry.index = index then ((s.touch cur).deleteElement cur).map fun s => (s, .ok)
    else deleteLoop index n (s.touch cur) (s.element cur).nextRcd

/-- `pb_delete_record` -/
def pbDeleteRecord (index : Nat) : Option (Book × PhbReturn) := deleteLoop index rounds s (ubyte s.firstRcd)

/-- The loop of `pb_add_record` to the last element. -/
def lastLoop : Nat → Book → Int → Option (Book × Int)
  | 0, _, _ => none
  | n + 1, s, cur =>
    if (s.element cur).nextRcd ≠ unusedByteIndex then lastLoop n (s.touch cur) (s.element cur).nextRcd
    else some (s.touch cur, cur)

/-- `pb_add_record` from the copy of the record on. -/
def enter (cur : Int) (call : CallRecord) : Option (Book × PhbReturn) :=
  let s := s.set cur fun e => { e with type := s.type, entry := { e.entry with call := call } }
  let s := s.setPrev cur unusedByteIndex
  let s := if s.firstRcd = cur then s.setNext cur unusedByteIndex else s.setNext cur (ubyte s.firstRcd)
  let s := if s.firstRcd ≠ unusedByteIndex then s.setPrev s.firstRcd (ubyte cur) else s
  let s := { s with firstRcd := cur }
  (renumber rounds s cur 1).map fun s => (s, .ok)

/-- The last element is taken off the chain. -/
def recycle (cur : Int) : Book :=
  let s := s.touch cur
  if (s.element cur).prevRcd ≠ unusedByteIndex then s.setNext (s.element cur).prevRcd unusedByteIndex else s

/-- The part of `pb_add_record` that deletes the number. -/
def dropNumber (number : List Char) : Option Book := do
  let (s, found) ← s.pbSearchNumber number
  match found with
  | some e => (s.pbDeleteRecord e.index).map (·.1)
  | none => some s

/-- The part of `pb_add_record` behind it. -/
def place (call : CallRecord) : Option (Book × PhbReturn) := do
  if s.maxRcd ≤ s.usedRcd then
    if s.firstRcd = unusedIndex then some (s, .fail)
    else
      let (s, cur) ← lastLoop rounds s s.firstRcd
      (s.recycle cur).enter cur call
  else
    match s.pbCreateLMemory with
    | none => some (s, .fail)
    | some (s, cur) =>
      let s := { s with usedRcd := s.usedRcd + 1 }
      s.enter cur call

/-- `pb_add_record` for the lists of calls -/
def pbAddRecord (entry : PhbRecord) : Option (Book × PhbReturn) :=
  (s.dropNumber entry.call.adrStr).bind fun s => s.place entry.call

end Book

/-! ### What the lists are for -/

/-- The calls without the latest one with the number. -/
def without (c : CallRecord) (l : List CallRecord) : List CallRecord :=
  l.eraseP fun d => decide (d.adrStr = c.adrStr)

/-- A call is added: its number goes from where it was, and the oldest call when the list is full. -/
def addCall (maxRcd : Int) (c : CallRecord) (l : List CallRecord) : List CallRecord :=
  c :: if maxRcd ≤ (without c l).length then (without c l).dropLast else without c l

/-- The call at a position is deleted. -/
def deleteCall (index : Nat) (l : List CallRecord) : List CallRecord := if index = 0 then l else l.eraseIdx (index - 1)

namespace Book
variable (s : Book)

/-- The links of the chain, from the first element on. -/
def next (i : Int) : Int := if i = unusedByteIndex then ubyte s.firstRcd else (s.element i).nextRcd

def prev (i : Int) : Int := (s.element i).prevRcd

/-- Elements of the table are linked. -/
structure Linked (ids : List Int) : Prop where
  links : Linear unusedByteIndex s.next s.prev ids
  inside : ∀ i ∈ ids, InTable i
  first : s.firstRcd = ids.head?.getD unusedIndex

/-- The chain has the calls, and their positions are in it. -/
structure Chain (ids : List Int) (l : List CallRecord) : Prop extends s.Linked ids where
  used : ∀ i ∈ ids, (s.element i).free = false
  calls : ids.map (fun i => (s.element i).entry.call) = l
  positions : ids.map (fun i => (s.element i).entry.index) = List.range' 1 l.length
  count : s.usedRcd = l.length

/-- The chain is a list of calls. -/
structure Represents (l : List CallRecord) : Prop where
  chain : ∃ ids, s.Chain ids l
  bounded : l.length ≤ s.maxRcd
  distinct : (l.map CallRecord.adrStr).Nodup

end Book

/-! ### Calls -/

inductive CallListCall where
  | add (entry : PhbRecord)
  | delete (index : Nat)

/-- The chain with the list that it is to be. -/
structure CallList where
  book : Book
  calls : List CallRecord

namespace CallList
variable (s : CallList)

/-- What is done to the chain. -/
def code : CallListCall → Option (Book × PhbReturn)
  | .add entry => { s.book with strayed := false }.pbAddRecord entry
  | .delete index => { s.book with strayed := false }.pbDeleteRecord index

/-- What is to be done to the list. -/
def wanted : CallListCall → List CallRecord
  | .add entry => addCall s.book.maxRcd entry.call s.calls
  | .delete index => deleteCall index s.calls

/-- A position that is deleted is one of the list. -/
def answer : CallListCall → PhbReturn
  | .add _ => .ok
  | .delete index => if 1 ≤ index ∧ index ≤ s.calls.length then .ok else .fail

/-- The call does to the chain what it is to do to the list, and accesses the table only. -/
structure Right (e : CallListCall) : Prop where
  done : ∃ t, s.code e = some (t, s.answer e) ∧ t.Represents (s.wanted e) ∧ t.strayed = false

/-- An element of the table is free. -/
def room : Bool := (List.range maxRdmRecords).any fun i => (s.book.element i).free

/-- The call does not come to the end of the table, and the oldest call is not the only one. -/
def fits : CallListCall → Bool
  | .add entry =>
    if s.book.maxRcd ≤ (without entry.call s.calls).length then decide (2 ≤ s.book.maxRcd)
    else s.room || decide (without entry.call s.calls ≠ s.calls)
  | .delete _ => true

/-- The list is not empty when a call is put in front of it. -/
def occupied : CallListCall → Bool
  | .add entry => decide (without entry.call s.calls ≠ [])
  | .delete _ => true

end CallList

/-- One of the lists, from one that has been read on. -/
def callLists : Machine CallList CallListCall where
  init s := 1 ≤ s.book.maxRcd ∧ s.book.Represents s.calls
  step s e := (s.code e).map fun r => ⟨r.1, s.wanted e⟩


/-! ### Elements -/

namespace Book

section
variable {s t u : Book} {i j k v cur a : Int} {ids m m' : List Int} {f : RdmElement → RdmElement} {n new : Nat}
  {l l' : List CallRecord} {c : CallRecord} {number : List Char}

theorem touch_inside (h : InTable i) : s.touch i = s := by
  unfold touch
  rw [decide_eq_true h, Bool.not_true, Bool.or_false]

theorem set_inside (h : InTable i) :
    s.set i f = { s with element := Function.update s.element i (f (s.element i)) } := by
  unfold set
  rw [touch_inside h]

private theorem inside_ne (h : InTable i) : i ≠ unusedByteIndex := by
  unfold InTable maxRdmRecords at h
  unfold unusedByteIndex
  omega

private theorem ubyte_inside (h : InTable i) : ubyte i = i := by
  unfold InTable maxRdmRecords at h
  unfold ubyte
  omega

private theorem next_inside (h : InTable i) : s.next i = (s.element i).nextRcd := if_neg (inside_ne h)

private theorem next_first : s.next unusedByteIndex = ubyte s.firstRcd := if_pos rfl

/-! ### Loops -/

theorem searchLoop_eq (h : Path unusedByteIndex s.next cur m) (hin : ∀ i ∈ m, InTable i) (hn : m.length < n) :
    searchLoop number n s cur = some (s, (m.find? fun i => decide ((s.element i).entry.call.adrStr = number)).map
      fun i => (s.element i).entry) := by
  induction m generalizing cur n with
  | nil =>
    obtain ⟨n, rfl⟩ := Nat.exists_eq_add_one.2 (Nat.zero_lt_of_lt hn)
    exact if_pos h
  | cons i m ih =>
    obtain ⟨n, rfl⟩ := Nat.exists_eq_add_one.2 (Nat.zero_lt_of_lt hn)
    obtain ⟨rfl, hne, hpath⟩ := h
    have hi := hin _ List.mem_cons_self
    unfold searchLoop
    rw [if_neg hne, touch_inside hi]
    by_cases heq : (s.element cur).entry.call.adrStr = number
    · rw [if_pos heq, List.find?_cons_of_pos (p := fun i => decide ((s.element i).entry.call.adrStr = number))
        (decide_eq_true heq)]
      rfl
    · rw [if_neg heq, List.find?_cons_of_neg (p := fun i => decide ((s.element i).entry.call.adrStr = number))
        (by simpa using heq)]
      rw [next_inside hi] at hpath
      exact ih hpath (fun j hj => hin j (List.mem_cons_of_mem _ hj)) (Nat.lt_of_succ_lt_succ hn)

theorem deleteLoop_eq {index : Nat} (h : Path unusedByteIndex s.next cur m) (hin : ∀ i ∈ m, InTable i)
    (hn : m.length < n) :
    deleteLoop index n s cur = match m.find? fun i => decide ((s.element i).entry.index = index) with
      | none => some (s, .fail)
      | some i => (s.deleteElement i).map fun s => (s, .ok) := by
  induction m generalizing cur n with
  | nil =>
    obtain ⟨n, rfl⟩ := Nat.exists_eq_add_one.2 (Nat.zero_lt_of_lt hn)
    exact if_pos h
  | cons i m ih =>
    obtain ⟨n, rfl⟩ := Nat.exists_eq_add_one.2 (Nat.zero_lt_of_lt hn)
    obtain ⟨rfl, hne, hpath⟩ := h
    have hi := hin _ List.mem_cons_self
    unfold deleteLoop
    rw [if_neg hne, touch_inside hi]
    by_cases heq : (s.element cur).entry.index = index
    · rw [if_pos heq, List.find?_cons_of_pos (p := fun i => decide ((s.element i).entry.index = index))
        (decide_eq_true heq)]
    · rw [if_neg heq, List.find?_cons_of_neg (p := fun i => decide ((s.element i).entry.index = index))
        (by simpa using heq)]
      rw [next_inside hi] at hpath
      exact ih hpath (fun j hj => hin j (List.mem_cons_of_mem _ hj)) (Nat.lt_of_succ_lt_succ hn)

theorem lastLoop_eq (h : Path unusedByteIndex s.next cur (m ++ [a])) (hin : ∀ i ∈ m ++ [a], InTable i)
    (hn : m.length < n) : lastLoop n s cur = some (s, a) := by
  induction m generalizing cur n with
  | nil =>
    obtain ⟨n, rfl⟩ := Nat.exists_eq_add_one.2 (Nat.zero_lt_of_lt hn)
    obtain ⟨rfl, -, hend⟩ := h
    have ha := hin _ List.mem_cons_self
    rw [next_inside ha] at hend
    have hlast : (s.element cur).nextRcd = unusedByteIndex := hend
    unfold lastLoop
    rw [if_neg (not_not.2 hlast), touch_inside ha]
  | cons i m ih =>
    obtain ⟨n, rfl⟩ := Nat.exists_eq_add_one.2 (Nat.zero_lt_of_lt hn)
    obtain ⟨rfl, -, hpath⟩ := h
    have hi := hin _ List.mem_cons_self
    rw [next_inside hi] at hpath
    have hmore : (s.element cur).nextRcd ≠ unusedByteIndex := by
      intro heq
      have hnil := (hpath.null_iff).1 heq
      exact absurd hnil (List.append_ne_nil_of_right_ne_nil m (List.cons_ne_nil a []))
    unfold lastLoop
    rw [if_pos hmore, touch_inside hi]
    exact ih hpath (fun j hj => hin j (List.mem_cons_of_mem _ hj)) (Nat.lt_of_succ_lt_succ hn)

/-- Elements are numbered from `new` on. -/
def numbered (s : Book) (new : Nat) (m : List Int) : Book :=
  { s with element := fun i => if i ∈ m then
      { s.element i with entry := { (s.element i).entry with index := (new + m.idxOf i) % 256 } } else s.element i }

private theorem numbered_nil : s.numbered new [] = s := by
  unfold numbered
  simp only [List.not_mem_nil, if_false]

private theorem numbered_cons (hi : InTable i) (hm : i ∉ m) :
    (s.setIndex i (new % 256)).numbered (new + 1) m = s.numbered new (i :: m) := by
  unfold numbered setIndex
  rw [set_inside hi]
  refine congrArg (fun e => { s with element := e }) (funext fun j => ?_)
  dsimp only
  by_cases hj : j = i
  · subst hj
    rw [if_neg hm, if_pos List.mem_cons_self, Function.update_self, List.idxOf_cons_self]
    rfl
  · rw [Function.update_of_ne hj]
    by_cases hmem : j ∈ m
    · rw [if_pos hmem, if_pos (List.mem_cons_of_mem _ hmem), List.idxOf_cons_ne _ (Ne.symm hj), Nat.succ_eq_add_one,
        ← Nat.add_assoc, Nat.add_right_comm]
    · rw [if_neg hmem, if_neg (mt (List.mem_cons.1 ·) (not_or.2 ⟨hj, hmem⟩))]

theorem renumber_eq (h : Path unusedByteIndex s.next cur m) (hin : ∀ i ∈ m, InTable i) (hnodup : m.Nodup)
    (hn : m.length < n) : renumber n s cur new = some (s.numbered new m) := by
  induction m generalizing s cur n new with
  | nil =>
    obtain ⟨n, rfl⟩ := Nat.exists_eq_add_one.2 (Nat.zero_lt_of_lt hn)
    rw [numbered_nil]
    exact if_pos h
  | cons i m ih =>
    obtain ⟨n, rfl⟩ := Nat.exists_eq_add_one.2 (Nat.zero_lt_of_lt hn)
    obtain ⟨rfl, hne, hpath⟩ := h
    have hi := hin _ List.mem_cons_self
    have hlinks : ∀ b, ((s.setIndex cur (new % 256)).element b).nextRcd = (s.element b).nextRcd := by
      intro b
      unfold setIndex
      rw [set_inside hi]
      dsimp only
      by_cases hb : b = cur
      · rw [hb, Function.update_self]
      · rw [Function.update_of_ne hb]
    have hrest : Path unusedByteIndex (s.setIndex cur (new % 256)).next (s.next cur) m := by
      refine hpath.congr fun b hb => ?_
      have hb := hin b (List.mem_cons_of_mem _ hb)
      rw [next_inside hb, next_inside hb, hlinks]
    unfold renumber
    rw [if_neg hne]
    dsimp only
    rw [hlinks, ← next_inside hi, ← numbered_cons hi (List.nodup_cons.1 hnodup).1]
    exact ih hrest (fun j hj => hin j (List.mem_cons_of_mem _ hj)) (List.nodup_cons.1 hnodup).2
      (Nat.lt_of_succ_lt_succ hn)

/-! ### Links -/

/-- Nothing but links is changed. -/
private structure Frame (s t : Book) : Prop where
  type : t.type = s.type
  maxRcd : t.maxRcd = s.maxRcd
  usedRcd : t.usedRcd = s.usedRcd
  strayed : t.strayed = s.strayed
  entry : ∀ b, (t.element b).entry = (s.element b).entry
  free : ∀ b, (t.element b).free = (s.element b).free

private theorem Frame.refl (s : Book) : Frame s s := ⟨rfl, rfl, rfl, rfl, fun _ => rfl, fun _ => rfl⟩

private theorem Frame.trans (h : Frame s t) (h' : Frame t u) : Frame s u :=
  ⟨h'.type.trans h.type, h'.maxRcd.trans h.maxRcd, h'.usedRcd.trans h.usedRcd, h'.strayed.trans h.strayed,
    fun b => (h'.entry b).trans (h.entry b), fun b => (h'.free b).trans (h.free b)⟩

private theorem Frame.first (h : Frame s t) : Frame s { t with firstRcd := v } :=
  ⟨h.type, h.maxRcd, h.usedRcd, h.strayed, h.entry, h.free⟩

private theorem setNext_frame (hi : InTable i) : Frame s (s.setNext i v) := by
  unfold setNext
  rw [set_inside hi]
  refine ⟨rfl, rfl, rfl, rfl, fun b => ?_, fun b => ?_⟩ <;> dsimp only <;> by_cases hb : b = i
  · rw [hb, Function.update_self]
  · rw [Function.update_of_ne hb]
  · rw [hb, Function.update_self]
  · rw [Function.update_of_ne hb]

private theorem setPrev_frame (hi : InTable i) : Frame s (s.setPrev i v) := by
  unfold setPrev
  rw [set_inside hi]
  refine ⟨rfl, rfl, rfl, rfl, fun b => ?_, fun b => ?_⟩ <;> dsimp only <;> by_cases hb : b = i
  · rw [hb, Function.update_self]
  · rw [Function.update_of_ne hb]
  · rw [hb, Function.update_self]
  · rw [Function.update_of_ne hb]

private theorem setNext_next (hi : i ≠ unusedByteIndex) (b : Int) :
    (s.setNext i v).next b = if b = i then v else s.next b := by
  by_cases hb : b = unusedByteIndex
  · subst hb
    rw [next_first, if_neg hi.symm, next_first]
    rfl
  · unfold next setNext set
    rw [if_neg hb, if_neg hb]
    dsimp only
    split
    · rename_i hbi
      rw [hbi, Function.update_self]
    · rename_i hbi
      rw [Function.update_of_ne hbi]

private theorem setNext_prev (b : Int) : (s.setNext i v).prev b = s.prev b := by
  unfold prev setNext set
  dsimp only
  by_cases hb : b = i
  · rw [hb, Function.update_self]
  · rw [Function.update_of_ne hb]

private theorem setPrev_prev (b : Int) : (s.setPrev i v).prev b = if b = i then v else s.prev b := by
  unfold prev setPrev set
  dsimp only
  split
  · rename_i hbi
    rw [hbi, Function.update_self]
  · rename_i hbi
    rw [Function.update_of_ne hbi]

private theorem setPrev_next (b : Int) : (s.setPrev i v).next b = s.next b := by
  by_cases hb : b = unusedByteIndex
  · subst hb
    rfl
  · unfold next setPrev set
    rw [if_neg hb, if_neg hb]
    dsimp only
    by_cases hbi : b = i
    · rw [hbi, Function.update_self]
    · rw [Function.update_of_ne hbi]

/-- Where the pointer to the first element is set. -/
private theorem next_setFirst (b : Int) :
    ({ s with firstRcd := v } : Book).next b = if b = unusedByteIndex then ubyte v else s.next b := by
  by_cases hb : b = unusedByteIndex
  · rw [if_pos hb]
    exact if_pos hb
  · rw [if_neg hb]
    exact (if_neg hb).trans (if_neg hb).symm

/-- `pb_l_rcd_chain` takes an element off the chain. -/
private theorem Linked.unlink (h : s.Linked (m ++ a :: m')) :
    (s.pbLRcdChain (s.prev a) a (s.next a)).Linked (m ++ m') ∧ Frame s (s.pbLRcdChain (s.prev a) a (s.next a)) := by
  have hmem : a ∈ m ++ a :: m' := List.mem_append_right _ List.mem_cons_self
  have ha := h.inside a hmem
  obtain ⟨hprev, hnext, hpa, hna⟩ := h.links.neighbours hmem
  obtain ⟨hbp, hbn⟩ := h.links.beside
  have hin : ∀ i ∈ m ++ m', InTable i := fun i hi =>
    h.inside i ((List.Sublist.append_left (List.sublist_cons_self a m') m).subset hi)
  have herase : (m ++ a :: m').erase a = m ++ m' := by
    have hnot : a ∉ m := fun hin =>
      (List.nodup_append.1 (List.nodup_cons.1 h.links.nodup).2).2.2 a hin a List.mem_cons_self rfl
    rw [List.erase_append_right _ hnot, List.erase_cons_head]
  obtain ⟨t, ht⟩ : ∃ t, s.pbLRcdChain (s.prev a) a (s.next a) = t := ⟨_, rfl⟩
  rw [ht]
  suffices hlinks : Frame s t ∧ (∀ b, b ≠ a → t.next b = if b = s.prev a then s.next a else s.next b) ∧
      (∀ b, b ≠ a → b ≠ unusedByteIndex → t.prev b = if b = s.next a then s.prev a else s.prev b) ∧
      t.firstRcd = (m ++ m').head?.getD unusedIndex by
    obtain ⟨hframe, hn, hp, hfirst⟩ := hlinks
    refine ⟨⟨herase ▸ h.links.erase hmem (fun b _ hb => hn b hb) fun b hb hne => hp b hne ?_, hin, hfirst⟩, hframe⟩
    rintro rfl
    exact (List.nodup_cons.1 h.links.nodup).1 hb
  unfold pbLRcdChain at ht
  rw [touch_inside ha] at ht
  have hnextRcd : (s.element a).nextRcd = s.next a := (next_inside ha).symm
  have hprevRcd : (s.element a).prevRcd = s.prev a := rfl
  dsimp only at ht
  rw [hnextRcd, hprevRcd] at ht
  have hfirst := h.first
  rcases List.eq_nil_or_concat' m with rfl | ⟨m, x, rfl⟩
  · change s.prev a = unusedByteIndex at hbp
    cases m' with
    | nil =>
      -- the only element
      change s.next a = unusedByteIndex at hbn
      rw [if_pos ⟨hbp, hbn⟩] at ht
      subst ht
      refine ⟨(Frame.refl s).first, fun b hb => ?_, fun b hb hne => ?_, rfl⟩
      · rw [next_setFirst, hbp, hbn]
        rfl
      · rw [hbn, if_neg hne]
        rfl
    | cons y m' =>
      -- the first one
      change s.next a = y at hbn
      have hy := hin y List.mem_cons_self
      rw [if_neg fun hc => inside_ne hy (hbn ▸ hc.2), if_neg fun hc => hc.1 hbp,
        if_pos ⟨hbp, hbn ▸ inside_ne hy⟩] at ht
      subst ht
      rw [hbn] at hna ⊢
      refine ⟨((setPrev_frame hy).trans (setNext_frame ha)).first, fun b hb => ?_, fun b hb hne => ?_, ?_⟩
      · rw [next_setFirst, setNext_next (inside_ne ha), setPrev_next, if_neg hb, hbp, ubyte_inside hy, ubyte_inside hy]
      · change ((s.setPrev y unusedByteIndex).setNext a unusedByteIndex).prev b = _
        rw [setNext_prev, setPrev_prev, hbp]
      · exact ubyte_inside hy
  · rw [List.getLast?_concat] at hbp
    change s.prev a = x at hbp
    have hx := hin x (List.mem_append_left _ (List.mem_append_right _ List.mem_cons_self))
    have hhead : ∀ l : List Int, ((m ++ [x] ++ l).head?).getD unusedIndex = ((m ++ [x]).head?).getD unusedIndex := by
      intro l
      cases m <;> rfl
    rw [hhead] at hfirst
    rw [hhead]
    cases m' with
    | nil =>
      -- the last one
      change s.next a = unusedByteIndex at hbn
      rw [if_neg fun hc => inside_ne hx (hbp ▸ hc.1), if_pos ⟨hbp ▸ inside_ne hx, hbn⟩] at ht
      subst ht
      rw [hbp]
      refine ⟨(setNext_frame hx).trans (setPrev_frame ha), fun b hb => ?_, fun b hb hne => ?_, ?_⟩
      · rw [setPrev_next, setNext_next (inside_ne hx), hbn]
      · rw [setPrev_prev, setNext_prev, if_neg hb, hbn, if_neg hne]
      · exact hfirst
    | cons y m' =>
      change s.next a = y at hbn
      have hy := hin y (List.mem_append_right _ List.mem_cons_self)
      have hpy := inside_ne hy
      have hpx := inside_ne hx
      rw [if_neg fun hc => hpx (hbp ▸ hc.1), if_neg fun hc => hpy (hbn ▸ hc.2), if_neg fun hc => hpx (hbp ▸ hc.1)] at ht
      have hkeep : ((s.setNext (s.prev a) (s.next a)).element a).prevRcd = s.prev a := by
        rw [hbp]
        exact (setNext_prev a).trans hbp
      rw [hkeep] at ht
      subst ht
      rw [hbp, hbn]
      refine ⟨((setNext_frame hx).trans (setPrev_frame hy)).trans (setPrev_frame ha), fun b hb => ?_,
        fun b hb hne => ?_, ?_⟩
      · rw [setPrev_next, setPrev_next, setNext_next (inside_ne hx)]
      · rw [setPrev_prev, if_neg hb, setPrev_prev, setNext_prev]
      · exact hfirst

/-- Only the links and the pointer to the first element matter to a chain. -/
private theorem Linked.congr (h : s.Linked ids) (hn : t.next = s.next) (hp : t.prev = s.prev)
    (hf : t.firstRcd = s.firstRcd) : t.Linked ids :=
  ⟨by rw [hn, hp]; exact h.links, h.inside, hf.trans h.first⟩

private theorem Linked.nodup (h : s.Linked ids) : ids.Nodup := (List.nodup_cons.1 h.links.nodup).2

private theorem length_le (hnodup : m.Nodup) (hin : ∀ i ∈ m, InTable i) : m.length ≤ maxRdmRecords := by
  have hsub : m ⊆ (List.range maxRdmRecords).map Int.ofNat := by
    intro i hi
    obtain ⟨h0, hlt⟩ := hin i hi
    refine List.mem_map.2 ⟨i.toNat, List.mem_range.2 ?_, ?_⟩
    · omega
    · exact Int.toNat_of_nonneg h0
  have hlen := (List.subperm_of_subset hnodup hsub).length_le
  rw [List.length_map, List.length_range] at hlen
  exact hlen

private theorem Linked.length_lt (h : s.Linked ids) : ids.length < rounds :=
  Nat.lt_of_le_of_lt (length_le h.nodup h.inside) (by decide)

/-- The chain, followed from its first element on. -/
private theorem Linked.path (h : s.Linked ids) : Path unusedByteIndex s.next (ubyte s.firstRcd) ids := by
  have hpath := h.links.path
  rw [next_first] at hpath
  exact hpath

private theorem numbered_entry (i : Int) : ((s.numbered new m).element i).entry.call = (s.element i).entry.call ∧
    ((s.numbered new m).element i).free = (s.element i).free ∧
    ((s.numbered new m).element i).prevRcd = (s.element i).prevRcd ∧
    ((s.numbered new m).element i).nextRcd = (s.element i).nextRcd := by
  unfold numbered
  dsimp only
  split
  · exact ⟨rfl, rfl, rfl, rfl⟩
  · exact ⟨rfl, rfl, rfl, rfl⟩

private theorem Linked.numbered (h : s.Linked ids) : (s.numbered new m).Linked ids := by
  refine h.congr (funext fun b => ?_) (funext fun b => (numbered_entry b).2.2.1) rfl
  unfold next
  rw [(numbered_entry b).2.2.2]
  rfl

private theorem numbered_positions (hnodup : m.Nodup) (hlen : m.length ≤ maxRdmRecords) :
    m.map (fun i => ((s.numbered 1 m).element i).entry.index) = List.range' 1 m.length := by
  unfold maxRdmRecords at hlen
  refine List.ext_getElem (by rw [List.length_map, List.length_range']) fun k hk _ => ?_
  rw [List.length_map] at hk
  rw [List.getElem_map, List.getElem_range']
  unfold numbered
  dsimp only
  rw [if_pos (List.getElem_mem hk)]
  dsimp only
  rw [hnodup.idxOf_getElem k hk]
  omega

/-- The elements are numbered, and the chain is the list. -/
private theorem Linked.chain (h : s.Linked ids) (hused : ∀ i ∈ ids, (s.element i).free = false)
    (hcalls : ids.map (fun i => (s.element i).entry.call) = l) (hcount : s.usedRcd = l.length) :
    (s.numbered 1 ids).Chain ids l := by
  have hlen : l.length = ids.length := by rw [← hcalls, List.length_map]
  refine ⟨h.numbered, fun i hi => (numbered_entry i).2.1.trans (hused i hi), ?_, ?_, hcount⟩
  · rw [← hcalls]
    exact List.map_congr_left fun i _ => (numbered_entry i).1
  · rw [hlen]
    exact numbered_positions h.nodup (length_le h.nodup h.inside)

/-! ### Deleting -/

/-- The element is taken off the chain, and those that are left are numbered. -/
private theorem Chain.deleted (h : s.Chain (m ++ a :: m') l) : ∃ t, s.deleteElement a = some t ∧
    t.Chain (m ++ m') (l.eraseIdx m.length) ∧ t.maxRcd = s.maxRcd ∧ t.strayed = s.strayed ∧ (t.element a).free = true := by
  have ha := h.inside a (List.mem_append_right _ List.mem_cons_self)
  obtain ⟨s', hs'⟩ : ∃ s' : Book, s.set a (fun e => { e with free := true }) = s' := ⟨_, rfl⟩
  have helem : ∀ b, (s'.element b).entry = (s.element b).entry ∧ (s'.element b).prevRcd = (s.element b).prevRcd ∧
      (s'.element b).nextRcd = (s.element b).nextRcd ∧ (b ≠ a → (s'.element b).free = (s.element b).free) := by
    intro b
    rw [← hs', set_inside ha]
    dsimp only
    by_cases hb : b = a
    · rw [hb, Function.update_self]
      exact ⟨rfl, rfl, rfl, fun hne => absurd rfl hne⟩
    · rw [Function.update_of_ne hb]
      exact ⟨rfl, rfl, rfl, fun _ => rfl⟩
  have hsame : s'.maxRcd = s.maxRcd ∧ s'.usedRcd = s.usedRcd ∧ s'.strayed = s.strayed ∧ s'.firstRcd = s.firstRcd ∧
      (s'.element a).free = true := by
    rw [← hs', set_inside ha]
    refine ⟨rfl, rfl, rfl, rfl, ?_⟩
    dsimp only
    rw [Function.update_self]
  have hlinked : s'.Linked (m ++ a :: m') := by
    refine h.toLinked.congr (funext fun b => ?_) (funext fun b => (helem b).2.1) hsame.2.2.2.1
    unfold next
    rw [(helem b).2.2.1, hsame.2.2.2.1]
  obtain ⟨hun, hframe⟩ := hlinked.unlink
  obtain ⟨t, ht⟩ : ∃ t, s'.pbLRcdChain (s'.prev a) a (s'.next a) = t := ⟨_, rfl⟩
  rw [ht] at hun hframe
  have hnot : a ∉ m ++ m' := by
    have hn := h.toLinked.nodup
    rw [List.nodup_middle] at hn
    exact (List.nodup_cons.1 hn).1
  have hlinked' : ({ t with usedRcd := t.usedRcd - 1 } : Book).Linked (m ++ m') := hun.congr rfl rfl rfl
  have hrun : s.deleteElement a = some (({ t with usedRcd := t.usedRcd - 1 } : Book).numbered 1 (m ++ m')) := by
    unfold deleteElement
    dsimp only
    have hnext : (s'.element a).nextRcd = s'.next a := (next_inside ha).symm
    have hchain : s'.pbLRcdChain (s'.element a).prevRcd a (s'.next a) = t := ht
    rw [hs', hnext, hchain]
    exact renumber_eq hlinked'.path hlinked'.inside hlinked'.nodup hlinked'.length_lt
  have hpositions : l = (m ++ a :: m').map fun i => (s.element i).entry.call := h.calls.symm
  refine ⟨_, hrun, hlinked'.chain (fun i hi => ?_) ?_ ?_, hframe.maxRcd.trans hsame.1, hframe.strayed.trans hsame.2.2.1, ?_⟩
  · have hia : i ≠ a := fun heq => hnot (heq ▸ hi)
    refine (hframe.free i).trans (((helem i).2.2.2 hia).trans (h.used i ?_))
    exact (List.Sublist.append_left (List.sublist_cons_self a m') m).subset hi
  · have hcall : ∀ i, (t.element i).entry.call = (s.element i).entry.call := fun i => by
      rw [hframe.entry i, (helem i).1]
    change (m ++ m').map (fun i => (t.element i).entry.call) = _
    rw [List.map_congr_left fun i _ => hcall i, hpositions, List.map_append, List.map_append, List.map_cons,
      List.eraseIdx_append_of_length_le (by rw [List.length_map]), List.length_map, Nat.sub_self]
    rfl
  · change t.usedRcd - 1 = _
    have hcount := h.count
    have hlen : l.length = m.length + (m'.length + 1) := by
      rw [hpositions, List.length_map, List.length_append, List.length_cons]
    rw [hframe.usedRcd, hsame.2.1, hcount, List.length_eraseIdx, if_pos (by omega)]
    omega
  · exact ((numbered_entry a).2.1.trans (hframe.free a)).trans hsame.2.2.2.2

private theorem Chain.position (h : s.Chain (m ++ a :: m') l) : (s.element a).entry.index = m.length + 1 := by
  have hlen : l.length = (m ++ a :: m').length := by rw [← h.calls, List.length_map]
  have hget := congrArg (fun q => q[m.length]?) h.positions
  rw [List.getElem?_map, List.getElem?_append_right (Nat.le_refl _), Nat.sub_self, List.getElem?_range' (by
    rw [hlen, List.length_append, List.length_cons]
    omega)] at hget
  have heq : (s.element a).entry.index = 1 + 1 * m.length := Option.some.inj hget
  omega

/-- `pb_delete_record` deletes the call at the position. -/
theorem Chain.delete (h : s.Chain ids l) (index : Nat) : ∃ t ids', s.pbDeleteRecord index =
      some (t, if 1 ≤ index ∧ index ≤ l.length then .ok else .fail) ∧ t.Chain ids' (deleteCall index l) ∧
    t.maxRcd = s.maxRcd ∧ t.strayed = s.strayed ∧
    (1 ≤ index ∧ index ≤ l.length → ∃ i, InTable i ∧ (t.element i).free = true) := by
  have hlen : l.length = ids.length := by rw [← h.calls, List.length_map]
  have hloop : s.pbDeleteRecord index = _ := deleteLoop_eq h.path h.inside h.toLinked.length_lt
  cases hfind : ids.find? fun i => decide ((s.element i).entry.index = index) with
  | none =>
    have hnot : ¬(1 ≤ index ∧ index ≤ l.length) := by
      intro hpos
      have hk : index - 1 < ids.length := by omega
      have hsplit : ids.take (index - 1) ++ ids[index - 1] :: ids.drop (index - 1 + 1) = ids := by
        rw [← List.drop_eq_getElem_cons hk, List.take_append_drop]
      have hat := Chain.position (m := ids.take (index - 1)) (hsplit.symm ▸ h)
      rw [List.length_take, Nat.min_eq_left hk.le] at hat
      exact List.find?_eq_none.1 hfind _ (List.getElem_mem hk) (decide_eq_true (by omega))
    rw [hfind] at hloop
    refine ⟨s, ids, ?_, ?_, rfl, rfl, fun hpos => absurd hpos hnot⟩
    · rw [hloop, if_neg hnot]
    · have hsame : deleteCall index l = l := by
        unfold deleteCall
        split
        · rfl
        · exact List.eraseIdx_of_length_le (by omega)
      rw [hsame]
      exact h
  | some a =>
    obtain ⟨hat, m, m', rfl, -⟩ := List.find?_eq_some_iff_append.1 hfind
    have hindex := h.position
    rw [of_decide_eq_true hat] at hindex
    have hpos : 1 ≤ index ∧ index ≤ l.length := by
      rw [hlen, List.length_append, List.length_cons]
      omega
    obtain ⟨t, ht, hchain, hmax, hstrayed, hfree⟩ := h.deleted
    rw [hfind] at hloop
    have hdelete : deleteCall index l = l.eraseIdx m.length := by
      unfold deleteCall
      rw [if_neg (by omega), hindex, Nat.add_sub_cancel]
    refine ⟨t, m ++ m', ?_, hdelete ▸ hchain, hmax, hstrayed, fun _ => ⟨a, ?_, hfree⟩⟩
    · rw [hloop, if_pos hpos]
      dsimp only
      rw [ht]
      rfl
    · exact h.inside a (List.mem_append_right _ List.mem_cons_self)

/-- A number that is added is deleted first. -/
private theorem Chain.dropped (h : s.Chain ids l) (c : CallRecord) : ∃ t ids', s.dropNumber c.adrStr = some t ∧
    t.Chain ids' (without c l) ∧ t.maxRcd = s.maxRcd ∧ t.strayed = s.strayed ∧
    (without c l = l ∧ t = s ∨ without c l ≠ l ∧ ∃ i, InTable i ∧ (t.element i).free = true) := by
  have hsearch : s.pbSearchNumber c.adrStr = some (s, (ids.find? fun i =>
      decide ((s.element i).entry.call.adrStr = c.adrStr)).map fun i => (s.element i).entry) := by
    unfold pbSearchNumber
    split
    · rename_i hzero
      have hnil : ids = [] := by
        have hlen : l.length = ids.length := by rw [← h.calls, List.length_map]
        have hcount := h.count
        exact List.length_eq_zero_iff.1 (by omega)
      rw [hnil]
      rfl
    · exact searchLoop_eq h.path h.inside h.toLinked.length_lt
  unfold dropNumber
  rw [hsearch]
  cases hfind : ids.find? fun i => decide ((s.element i).entry.call.adrStr = c.adrStr) with
  | none =>
    have hsame : without c l = l := by
      refine List.eraseP_of_forall_not fun d hd => ?_
      rw [← h.calls] at hd
      obtain ⟨i, hi, rfl⟩ := List.mem_map.1 hd
      exact List.find?_eq_none.1 hfind i hi
    refine ⟨s, ids, rfl, ?_, rfl, rfl, .inl ⟨hsame, rfl⟩⟩
    rw [hsame]
    exact h
  | some a =>
    obtain ⟨hat, m, m', rfl, hfront⟩ := List.find?_eq_some_iff_append.1 hfind
    obtain ⟨t, ids', ht, hchain, hmax, hstrayed, hfree⟩ := h.delete (s.element a).entry.index
    have hl : l = m.map (fun i => (s.element i).entry.call) ++ (s.element a).entry.call ::
        m'.map (fun i => (s.element i).entry.call) := by
      rw [← h.calls, List.map_append, List.map_cons]
    have hwithout : without c l = deleteCall (s.element a).entry.index l := by
      unfold without deleteCall
      rw [h.position, if_neg (Nat.succ_ne_zero _), Nat.add_sub_cancel, hl,
        List.eraseP_append_right _ (fun d hd => ?_), List.eraseP_cons_of_pos (p := fun d : CallRecord => decide (d.adrStr = c.adrStr)) hat,
        List.eraseIdx_append_of_length_le (by rw [List.length_map]), List.length_map, Nat.sub_self]
      · rfl
      · obtain ⟨i, hi, rfl⟩ := List.mem_map.1 hd
        have hno := hfront i hi
        simpa using hno
    have hpos : 1 ≤ (s.element a).entry.index ∧ (s.element a).entry.index ≤ l.length := by
      rw [h.position, hl, List.length_append, List.length_map, List.length_cons]
      omega
    refine ⟨t, ids', ?_, hwithout ▸ hchain, hmax, hstrayed, .inr ⟨fun heq => ?_, hfree hpos⟩⟩
    · change (s.pbDeleteRecord (s.element a).entry.index).map (·.1) = some t
      rw [ht]
      rfl
    · have hlen := congrArg List.length heq
      rw [hwithout] at hlen
      unfold deleteCall at hlen
      rw [if_neg (by omega), List.length_eraseIdx, if_pos (by omega)] at hlen
      omega

/-! ### Adding -/

/-- A record is put in front of a chain that its element is not on. -/
private theorem Linked.enter (h : s.Linked m) (ha : InTable a) (hm : a ∉ m) (c : CallRecord) : ∃ w : Book,
    s.enter a c = some (w.numbered 1 (a :: m), .ok) ∧ w.Linked (a :: m) ∧
      ((w.element a).entry.call = c ∧ (w.element a).free = (s.element a).free) ∧
      (∀ b ∈ m, (w.element b).entry = (s.element b).entry ∧ (w.element b).free = (s.element b).free) ∧
      w.usedRcd = s.usedRcd ∧ w.maxRcd = s.maxRcd ∧ w.strayed = (s.strayed || decide (m = [])) := by
  have hne : s.firstRcd ≠ a := by
    rw [h.first]
    cases m with
    | nil =>
      intro heq
      have h0 := ha.1
      rw [← heq] at h0
      exact absurd h0 (by decide)
    | cons b m => exact fun heq => hm (heq ▸ List.mem_cons_self)
  have hfirst : s.firstRcd ≠ unusedByteIndex := by
    rw [h.first]
    cases m with
    | nil => decide
    | cons b m => exact inside_ne (h.inside b List.mem_cons_self)
  obtain ⟨u, hu⟩ : ∃ u : Book, s.set a (fun e => { e with type := s.type, entry := { e.entry with call := c } }) = u :=
    ⟨_, rfl⟩
  have hset : u.firstRcd = s.firstRcd ∧ u.usedRcd = s.usedRcd ∧ u.maxRcd = s.maxRcd ∧ u.strayed = s.strayed := by
    rw [← hu, set_inside ha]
    exact ⟨rfl, rfl, rfl, rfl⟩
  have helem : ∀ b, (u.element b).free = (s.element b).free ∧ (u.element b).prevRcd = (s.element b).prevRcd ∧
      (u.element b).nextRcd = (s.element b).nextRcd ∧ (b ≠ a → (u.element b).entry = (s.element b).entry) := by
    intro b
    rw [← hu, set_inside ha]
    dsimp only
    by_cases hb : b = a
    · rw [hb, Function.update_self]
      exact ⟨rfl, rfl, rfl, fun hne => absurd rfl hne⟩
    · rw [Function.update_of_ne hb]
      exact ⟨rfl, rfl, rfl, fun _ => rfl⟩
  have hcall : (u.element a).entry.call = c := by
    rw [← hu, set_inside ha]
    dsimp only
    rw [Function.update_self]
  have hul : u.Linked m := by
    refine h.congr (funext fun b => ?_) (funext fun b => (helem b).2.1) hset.1
    unfold next
    rw [(helem b).2.2.1, hset.1]
  obtain ⟨v, hv⟩ : ∃ v, (u.setPrev a unusedByteIndex).setNext a (ubyte (u.setPrev a unusedByteIndex).firstRcd) = v :=
    ⟨_, rfl⟩
  have hvf : Frame u v := hv ▸ (setPrev_frame ha).trans (setNext_frame ha)
  obtain ⟨w, hw⟩ : ∃ w : Book, ({ v.setPrev v.firstRcd (ubyte a) with firstRcd := a } : Book) = w := ⟨_, rfl⟩
  have hvfirst : v.firstRcd = s.firstRcd := by
    rw [← hv]
    exact hset.1
  have hwn : ∀ b, w.next b = if b = unusedByteIndex then a else if b = a then s.next unusedByteIndex else u.next b := by
    intro b
    rw [← hw, next_setFirst, ubyte_inside ha, setPrev_next, ← hv, setNext_next (inside_ne ha), setPrev_next, next_first,
      ← hset.1]
    rfl
  have hwp : ∀ b, w.prev b = if b = s.firstRcd then a else if b = a then unusedByteIndex else u.prev b := by
    intro b
    rw [← hw]
    change (v.setPrev v.firstRcd (ubyte a)).prev b = _
    rw [setPrev_prev, ubyte_inside ha, hvfirst, ← hv, setNext_prev, setPrev_prev]
  have hnull : a ∉ unusedByteIndex :: m := fun hmem => (List.mem_cons.1 hmem).elim (inside_ne ha) hm
  have hwl : w.Linked (a :: m) := by
    refine ⟨hul.links.push hnull ?_ ?_ ?_ (fun b hb => ?_) fun b hb => ?_, fun b hb => ?_, by rw [← hw]; rfl⟩
    · rw [hwn, if_pos rfl]
    · rw [hwn, if_neg (inside_ne ha), if_pos rfl, next_first, next_first, hset.1]
    · rw [hwp, if_neg hne.symm, if_pos rfl]
    · rw [hwn, if_neg (inside_ne (h.inside b hb)), if_neg (fun heq : b = a => hm (heq ▸ hb))]
    · have hb' : s.firstRcd = u.next unusedByteIndex := by
        rw [next_first, hset.1, h.first]
        cases m with
        | nil => cases hb
        | cons d m => exact (ubyte_inside (h.inside d List.mem_cons_self)).symm
      rw [hwp, hb', if_neg (fun heq : b = a => hm (heq ▸ hb))]
    · rcases List.mem_cons.1 hb with rfl | hb
      · exact ha
      · exact h.inside b hb
  have hwe : ∀ b, (w.element b).entry = (u.element b).entry ∧ (w.element b).free = (u.element b).free := by
    intro b
    rw [← hw, ← hvf.entry, ← hvf.free]
    change ((v.setPrev v.firstRcd (ubyte a)).element b).entry = _ ∧ ((v.setPrev v.firstRcd (ubyte a)).element b).free = _
    unfold setPrev set
    dsimp only
    by_cases hb : b = v.firstRcd
    · rw [hb, Function.update_self]
      exact ⟨rfl, rfl⟩
    · rw [Function.update_of_ne hb]
      exact ⟨rfl, rfl⟩
  have hws : w.usedRcd = v.usedRcd ∧ w.maxRcd = v.maxRcd ∧ w.strayed = (v.strayed || !decide (InTable v.firstRcd)) := by
    rw [← hw]
    exact ⟨rfl, rfl, rfl⟩
  have hstray : (!decide (InTable v.firstRcd)) = decide (m = []) := by
    rw [hvfirst, h.first]
    cases m with
    | nil => decide
    | cons b m =>
      rw [decide_eq_false (List.cons_ne_nil b m)]
      exact congrArg Bool.not (decide_eq_true (h.inside b List.mem_cons_self))
  have hgo : renumber rounds ({ v.setPrev v.firstRcd (ubyte a) with firstRcd := a } : Book) a 1 =
      some (w.numbered 1 (a :: m)) := by
    rw [hw]
    have hpath := hwl.path
    rw [hwl.first] at hpath
    change Path unusedByteIndex w.next (ubyte a) (a :: m) at hpath
    rw [ubyte_inside ha] at hpath
    exact renumber_eq hpath hwl.inside hwl.nodup hwl.length_lt
  have hrun : s.enter a c = some (w.numbered 1 (a :: m), .ok) := by
    unfold Book.enter
    dsimp only
    rw [hu, if_neg (show (u.setPrev a unusedByteIndex).firstRcd ≠ a from hset.1.symm ▸ hne)]
    rw [hv, if_pos (hvfirst.symm ▸ hfirst)]
    exact congrArg (Option.map fun s => (s, PhbReturn.ok)) hgo
  refine ⟨w, hrun, hwl, ⟨?_, (hwe a).2.trans (helem a).1⟩, fun b hb => ⟨(hwe b).1.trans ((helem b).2.2.2 ?_),
    (hwe b).2.trans (helem b).1⟩, ?_, ?_, ?_⟩
  · rw [(hwe a).1]
    exact hcall
  · rintro rfl
    exact hm hb
  · rw [hws.1, hvf.usedRcd, hset.2.1]
  · rw [hws.2.1, hvf.maxRcd, hset.2.2.1]
  · rw [hws.2.2, hvf.strayed, hset.2.2.2, hstray]

private theorem firstFree_some (h : s.firstFree n i = some j) : i ≤ j ∧ j < i + n ∧ (s.element j).free = true := by
  induction n generalizing i with
  | zero => cases h
  | succ n ih =>
    unfold firstFree at h
    split at h
    · rename_i hfree
      obtain rfl := Option.some.inj h
      exact ⟨by omega, by omega, hfree⟩
    · obtain ⟨hle, hlt, hfree⟩ := ih h
      exact ⟨by omega, by omega, hfree⟩

private theorem firstFree_none (h : s.firstFree n i = none) (hle : i ≤ j) (hlt : j < i + n) :
    (s.element j).free = false := by
  induction n generalizing i with
  | zero => omega
  | succ n ih =>
    unfold firstFree at h
    split at h
    · cases h
    · rename_i hfree
      by_cases hj : j = i
      · rw [hj]
        exact Bool.eq_false_iff.2 hfree
      · exact ih h (by omega) (by omega)

/-- An element is free, and is taken. -/
private theorem Chain.create (h : s.Chain ids l) (hroom : ∃ i, InTable i ∧ (s.element i).free = true) :
    ∃ u a, s.pbCreateLMemory = some (u, a) ∧ InTable a ∧ a ∉ ids ∧ u.Linked ids ∧ (u.element a).free = false ∧
      (∀ b ∈ ids, u.element b = s.element b) ∧ u.usedRcd = s.usedRcd ∧ u.maxRcd = s.maxRcd ∧ u.strayed = s.strayed := by
  cases hfirst : s.firstFree maxRdmRecords 0 with
  | none =>
    obtain ⟨i, hi, hfree⟩ := hroom
    have hused := firstFree_none hfirst hi.1 (by have := hi.2; omega)
    exact absurd (hfree.symm.trans hused) nofun
  | some a =>
    obtain ⟨h0, hlt, hfree⟩ := firstFree_some hfirst
    have ha : InTable a := ⟨h0, by omega⟩
    have hnot : a ∉ ids := fun hmem => absurd (hfree.symm.trans (h.used a hmem)) nofun
    obtain ⟨u, hu⟩ : ∃ u : Book, s.set a (fun e => { e with entry := erased, free := false }) = u := ⟨_, rfl⟩
    have hcreate : s.pbCreateLMemory = some (u, a) := by
      unfold pbCreateLMemory
      rw [hfirst, ← hu]
      rfl
    have helem : ∀ b, (u.element b).prevRcd = (s.element b).prevRcd ∧ (u.element b).nextRcd = (s.element b).nextRcd ∧
        (b ≠ a → u.element b = s.element b) := by
      intro b
      rw [← hu, set_inside ha]
      dsimp only
      by_cases hb : b = a
      · rw [hb, Function.update_self]
        exact ⟨rfl, rfl, fun hne => absurd rfl hne⟩
      · rw [Function.update_of_ne hb]
        exact ⟨rfl, rfl, fun _ => rfl⟩
    have hset : u.firstRcd = s.firstRcd ∧ u.usedRcd = s.usedRcd ∧ u.maxRcd = s.maxRcd ∧ u.strayed = s.strayed ∧
        (u.element a).free = false := by
      rw [← hu, set_inside ha]
      refine ⟨rfl, rfl, rfl, rfl, ?_⟩
      dsimp only
      rw [Function.update_self]
    refine ⟨u, a, hcreate, ha, hnot, ?_, hset.2.2.2.2, fun b hb => (helem b).2.2 fun heq => hnot (heq ▸ hb),
      hset.2.1, hset.2.2.1, hset.2.2.2.1⟩
    refine h.toLinked.congr (funext fun b => ?_) (funext fun b => (helem b).1) hset.1
    unfold next
    rw [(helem b).2.1, hset.1]

/-- A list that is not full gets an element. -/
private theorem Chain.placed_new (h : s.Chain ids l) (hspace : s.usedRcd < s.maxRcd)
    (hroom : ∃ i, InTable i ∧ (s.element i).free = true) : ∃ t ids', s.place c = some (t, .ok) ∧ t.Chain ids' (c :: l) ∧
      t.maxRcd = s.maxRcd ∧ t.strayed = (s.strayed || decide (l = [])) := by
  obtain ⟨u, a, hu, ha, hnot, hlinked, hfree, hkeep, hused, hmax, hstrayed⟩ := h.create hroom
  have hlinked' : ({ u with usedRcd := u.usedRcd + 1 } : Book).Linked ids := hlinked.congr rfl rfl rfl
  obtain ⟨w, hw, hwl, ⟨hcall, hwfree⟩, hrest, hwused, hwmax, hwstrayed⟩ := hlinked'.enter ha hnot c
  have hnil : decide (ids = []) = decide (l = []) := by
    rw [← h.calls]
    simp only [List.map_eq_nil_iff]
  refine ⟨_, a :: ids, ?_, hwl.chain (fun i hi => ?_) ?_ ?_, hwmax.trans hmax, ?_⟩
  · unfold place
    rw [if_neg (Int.not_le.2 hspace), hu]
    exact hw
  · rcases List.mem_cons.1 hi with rfl | hi
    · exact hwfree.trans hfree
    · refine (hrest i hi).2.trans ?_
      change (u.element i).free = false
      rw [hkeep i hi]
      exact h.used i hi
  · rw [List.map_cons, hcall, ← h.calls]
    refine congrArg (c :: ·) (List.map_congr_left fun i hi => ?_)
    rw [(hrest i hi).1]
    change (u.element i).entry.call = _
    rw [hkeep i hi]
  · rw [hwused, List.length_cons]
    change u.usedRcd + 1 = _
    rw [hused, h.count]
    rfl
  · change w.strayed = _
    rw [hwstrayed, hnil]
    change (u.strayed || _) = _
    rw [hstrayed]

/-- The last element of a list that is full is put in front. -/
private theorem Chain.placed_last (h : s.Chain ids l) (hfull : s.maxRcd ≤ s.usedRcd) (hmore : 2 ≤ l.length) :
    ∃ t ids', s.place c = some (t, .ok) ∧ t.Chain ids' (c :: l.dropLast) ∧ t.maxRcd = s.maxRcd ∧
      t.strayed = s.strayed := by
  have hlen : l.length = ids.length := by rw [← h.calls, List.length_map]
  obtain rfl | ⟨m, a, rfl⟩ := List.eq_nil_or_concat' ids
  · rw [List.length_nil] at hlen
    omega
  have hm : m ≠ [] := by
    rintro rfl
    rw [List.length_append, List.length_nil, List.length_singleton] at hlen
    omega
  have hmem : a ∈ m ++ [a] := List.mem_append_right _ List.mem_cons_self
  have ha := h.inside a hmem
  have hnot : a ∉ m := fun hin => (List.nodup_append.1 h.toLinked.nodup).2.2 a hin a List.mem_cons_self rfl
  obtain ⟨hbp, hbn⟩ := h.links.beside (l := m) (m := [])
  change s.next a = unusedByteIndex at hbn
  have hprev : s.prev a ∈ m := by
    rw [hbp, List.getLast?_eq_some_getLast hm]
    exact List.getLast_mem hm
  have hp := h.inside _ (List.mem_append_left [a] hprev)
  have hfirst : InTable s.firstRcd := by
    rw [h.first]
    cases m with
    | nil => exact absurd rfl hm
    | cons b m => exact h.inside b List.mem_cons_self
  have hlast : lastLoop rounds s s.firstRcd = some (s, a) := by
    have hpath := h.path
    rw [ubyte_inside hfirst] at hpath
    refine lastLoop_eq hpath h.inside (Nat.lt_of_le_of_lt ?_ h.toLinked.length_lt)
    rw [List.length_append]
    omega
  have hrecycle : s.recycle a = s.setNext (s.prev a) unusedByteIndex := by
    unfold recycle
    rw [touch_inside ha]
    exact if_pos (inside_ne hp)
  have hframe := setNext_frame (s := s) (v := unusedByteIndex) hp
  have hlinked : (s.setNext (s.prev a) unusedByteIndex).Linked m := by
    have herase : (m ++ [a]).erase a = m := by
      rw [List.erase_append_right _ hnot, List.erase_cons_head, List.append_nil]
    refine ⟨herase ▸ h.links.erase hmem (fun b _ _ => ?_) fun b hb _ => ?_, fun b hb =>
      h.inside b (List.mem_append_left _ hb), ?_⟩
    · rw [setNext_next (inside_ne hp), hbn]
    · rw [setNext_prev, hbn, if_neg (inside_ne (h.inside b hb))]
    · refine h.first.trans ?_
      cases m with
      | nil => exact absurd rfl hm
      | cons b m => rfl
  obtain ⟨w, hw, hwl, ⟨hcall, hwfree⟩, hrest, hwused, hwmax, hwstrayed⟩ := hlinked.enter ha hnot c
  have hcalls : m.map (fun i => (s.element i).entry.call) = l.dropLast := by
    rw [← h.calls, List.map_append]
    exact List.dropLast_concat.symm
  refine ⟨_, a :: m, ?_, hwl.chain (fun i hi => ?_) ?_ ?_, hwmax.trans hframe.maxRcd, ?_⟩
  · unfold place
    have hne : s.firstRcd ≠ unusedIndex := fun heq => absurd (heq ▸ hfirst.1) (by decide)
    rw [if_pos hfull, if_neg hne, hlast]
    change (s.recycle a).enter a c = _
    rw [hrecycle]
    exact hw
  · have hfree : (s.element i).free = false := by
      refine h.used i ?_
      rcases List.mem_cons.1 hi with rfl | hi
      · exact hmem
      · exact List.mem_append_left _ hi
    rcases List.mem_cons.1 hi with rfl | hi
    · exact (hwfree.trans (hframe.free i)).trans hfree
    · exact ((hrest i hi).2.trans (hframe.free i)).trans hfree
  · rw [List.map_cons, hcall, ← hcalls]
    refine congrArg (c :: ·) (List.map_congr_left fun i hi => ?_)
    rw [(hrest i hi).1, hframe.entry]
  · rw [hwused, hframe.usedRcd, h.count, List.length_cons, List.length_dropLast]
    omega
  · change w.strayed = _
    rw [hwstrayed, hframe.strayed, decide_eq_false hm, Bool.or_false]

/-- When no element is free a list that is not full stays as it is. -/
private theorem placed_none (hspace : s.usedRcd < s.maxRcd) (hroom : ∀ i, InTable i → (s.element i).free = false) :
    s.place c = some (s, .fail) := by
  have hcreate : s.pbCreateLMemory = none := by
    unfold pbCreateLMemory
    cases hfirst : s.firstFree maxRdmRecords 0 with
    | none => rfl
    | some a =>
      obtain ⟨h0, hlt, hfree⟩ := firstFree_some hfirst
      exact absurd (hfree.symm.trans (hroom a ⟨h0, by omega⟩)) nofun
  unfold place
  rw [if_neg (Int.not_le.2 hspace), hcreate]

/-- The only element of a list that is full is linked to itself. -/
private theorem Chain.placed_only (h : s.Chain [a] l) (hfull : s.maxRcd ≤ s.usedRcd) :
    ∃ t, s.place c = some (t, .ok) ∧ t.firstRcd = a ∧ t.prev a = a := by
  have ha := h.inside a List.mem_cons_self
  have hfirst : s.firstRcd = a := h.first
  have hprev : (s.element a).prevRcd = unusedByteIndex := h.links.first.2
  have hnext : (s.element a).nextRcd = unusedByteIndex := by
    rw [← next_inside ha]
    exact (h.links.beside (l := []) (m := [])).2
  have hlast : lastLoop rounds s s.firstRcd = some (s, a) := by
    rw [hfirst]
    change (if (s.element a).nextRcd ≠ unusedByteIndex then _ else some (s.touch a, a)) = _
    rw [if_neg (not_not.2 hnext), touch_inside ha]
  have hrecycle : s.recycle a = s := by
    unfold recycle
    rw [touch_inside ha]
    exact if_neg (not_not.2 hprev)
  obtain ⟨u, hu⟩ : ∃ u : Book, s.set a (fun e => { e with type := s.type, entry := { e.entry with call := c } }) = u :=
    ⟨_, rfl⟩
  have hset : u.firstRcd = a := by
    rw [← hu]
    exact hfirst
  obtain ⟨v, hv⟩ : ∃ v, (u.setPrev a unusedByteIndex).setNext a unusedByteIndex = v := ⟨_, rfl⟩
  have hvfirst : v.firstRcd = a := by
    rw [← hv]
    exact hset
  obtain ⟨w, hw⟩ : ∃ w : Book, ({ v.setPrev v.firstRcd (ubyte a) with firstRcd := a } : Book) = w := ⟨_, rfl⟩
  have hwnext : w.next a = unusedByteIndex := by
    rw [← hw, next_setFirst, if_neg (inside_ne ha), setPrev_next, ← hv, setNext_next (inside_ne ha), if_pos rfl]
  have hwprev : w.prev a = a := by
    rw [← hw]
    change (v.setPrev v.firstRcd (ubyte a)).prev a = a
    rw [setPrev_prev, hvfirst, if_pos rfl, ubyte_inside ha]
  have hgo : renumber rounds ({ v.setPrev v.firstRcd (ubyte a) with firstRcd := a } : Book) a 1 =
      some (w.numbered 1 [a]) := by
    rw [hw]
    have hpath : Path unusedByteIndex w.next a [a] := ⟨rfl, inside_ne ha, hwnext⟩
    exact renumber_eq hpath h.inside (List.nodup_singleton a) (show 1 < rounds by decide)
  refine ⟨w.numbered 1 [a], ?_, ?_, (numbered_entry a).2.2.1.trans hwprev⟩
  · unfold place
    rw [if_pos hfull, if_neg fun heq => absurd (heq ▸ hfirst ▸ ha.1) (by decide), hlast]
    change (s.recycle a).enter a c = _
    rw [hrecycle]
    unfold Book.enter
    dsimp only
    rw [hu, if_pos (show (u.setPrev a unusedByteIndex).firstRcd = a from hset), hv,
      if_pos (hvfirst.symm ▸ inside_ne ha)]
    exact congrArg (Option.map fun s => (s, PhbReturn.ok)) hgo
  · change w.firstRcd = a
    rw [← hw]

end

end Book

/-! ### Lists -/

section
variable {s t : CallList} {l : List CallRecord} {c : CallRecord} {entry : PhbRecord} {e : CallListCall} {max : Int}

private theorem without_numbers : (without c l).map CallRecord.adrStr = (l.map CallRecord.adrStr).erase c.adrStr :=
  Keyed.eraseP_keys

private theorem without_length : (without c l).length ≤ l.length := List.eraseP_sublist.length_le

private theorem addCall_length (hmax : 1 ≤ max) (h : l.length ≤ max) : (addCall max c l).length ≤ max := by
  have hle : (without c l).length ≤ l.length := without_length
  unfold addCall
  rw [List.length_cons]
  split
  · rw [List.length_dropLast]
    omega
  · omega

private theorem addCall_distinct (h : (l.map CallRecord.adrStr).Nodup) :
    ((addCall max c l).map CallRecord.adrStr).Nodup := by
  have hgone : c.adrStr ∉ (without c l).map CallRecord.adrStr := by
    rw [without_numbers]
    exact h.not_mem_erase
  have hdist : ((without c l).map CallRecord.adrStr).Nodup := h.sublist (List.eraseP_sublist.map _)
  have hsub : (if max ≤ (without c l).length then (without c l).dropLast else without c l).Sublist (without c l) := by
    split
    · exact List.dropLast_sublist _
    · exact List.Sublist.refl _
  unfold addCall
  rw [List.map_cons, List.nodup_cons]
  exact ⟨fun hmem => hgone ((hsub.map _).subset hmem), hdist.sublist (hsub.map _)⟩

private theorem deleteCall_sublist (index : Nat) : (deleteCall index l).Sublist l := by
  unfold deleteCall
  split
  · exact List.Sublist.refl _
  · exact List.eraseIdx_sublist l _

private theorem room_iff : s.room = true ↔ ∃ i, InTable i ∧ (s.book.element i).free = true := by
  unfold CallList.room
  rw [List.any_eq_true]
  constructor
  · rintro ⟨i, hi, hfree⟩
    have hlt := List.mem_range.1 hi
    exact ⟨i, ⟨by omega, by omega⟩, hfree⟩
  · rintro ⟨i, ⟨h0, hlt⟩, hfree⟩
    refine ⟨i.toNat, List.mem_range.2 (by omega), ?_⟩
    rw [Int.toNat_of_nonneg h0]
    exact hfree

/-- A call that fits is added. -/
private theorem add_done (h : s.book.Represents s.calls) (hmax : 1 ≤ s.book.maxRcd) (hfits : s.fits (.add entry) = true) :
    ∃ t, s.book.pbAddRecord entry = some (t, .ok) ∧
      t.Represents (addCall s.book.maxRcd entry.call s.calls) ∧ t.maxRcd = s.book.maxRcd ∧
      t.strayed = (s.book.strayed || decide (without entry.call s.calls = [])) := by
  obtain ⟨⟨ids, hchain⟩, hbound, hdist⟩ := h
  obtain ⟨u, ids', hdrop, hu, humax, hustrayed, hroom⟩ := hchain.dropped entry.call
  have hadd : s.book.pbAddRecord entry = u.place entry.call := by
    unfold Book.pbAddRecord
    rw [hdrop]
    rfl
  unfold CallList.fits at hfits
  dsimp only at hfits
  by_cases hfull : s.book.maxRcd ≤ (without entry.call s.calls).length
  · rw [if_pos hfull] at hfits
    have hmore := of_decide_eq_true hfits
    obtain ⟨t, ids'', ht, htc, htmax, htstrayed⟩ := hu.placed_last (c := entry.call)
      (by rw [hu.count, humax]; exact hfull) (by omega)
    have hne : without entry.call s.calls ≠ [] := by
      intro heq
      rw [heq, List.length_nil] at hfull
      omega
    have hwanted : addCall s.book.maxRcd entry.call s.calls =
        entry.call :: (without entry.call s.calls).dropLast := by
      unfold addCall
      rw [if_pos hfull]
    refine ⟨t, hadd.trans ht, ⟨⟨ids'', hwanted ▸ htc⟩, ?_, addCall_distinct hdist⟩, htmax.trans humax, ?_⟩
    · rw [htmax, humax]
      exact addCall_length hmax hbound
    · rw [htstrayed, hustrayed, decide_eq_false hne, Bool.or_false]
  · rw [if_neg hfull] at hfits
    have hfree : ∃ i, InTable i ∧ (u.element i).free = true := by
      rcases hroom with ⟨heq, rfl⟩ | ⟨-, hfree⟩
      · rcases Bool.or_eq_true_iff.1 hfits with hroom | hne
        · exact room_iff.1 hroom
        · exact absurd heq (of_decide_eq_true hne)
      · exact hfree
    obtain ⟨t, ids'', ht, htc, htmax, htstrayed⟩ := hu.placed_new (c := entry.call)
      (by rw [hu.count, humax]; exact Int.not_le.1 hfull) hfree
    have hwanted : addCall s.book.maxRcd entry.call s.calls = entry.call :: without entry.call s.calls := by
      unfold addCall
      rw [if_neg hfull]
    refine ⟨t, hadd.trans ht, ⟨⟨ids'', hwanted ▸ htc⟩, ?_, addCall_distinct hdist⟩, htmax.trans humax, ?_⟩
    · rw [htmax, humax]
      exact addCall_length hmax hbound
    · rw [htstrayed, hustrayed]

private theorem delete_done (h : s.book.Represents s.calls) (index : Nat) :
    ∃ t, s.book.pbDeleteRecord index = some (t, s.answer (.delete index)) ∧
      t.Represents (deleteCall index s.calls) ∧ t.maxRcd = s.book.maxRcd ∧ t.strayed = s.book.strayed := by
  obtain ⟨⟨ids, hchain⟩, hbound, hdist⟩ := h
  obtain ⟨t, ids', ht, htc, htmax, htstrayed, -⟩ := hchain.delete index
  have hsub := deleteCall_sublist (l := s.calls) index
  refine ⟨t, ht, ⟨⟨ids', htc⟩, ?_, hdist.sublist (hsub.map _)⟩, htmax, htstrayed⟩
  rw [htmax]
  have hle := hsub.length_le
  omega

private theorem represents_fresh (h : s.book.Represents s.calls) :
    ({ s.book with strayed := false } : Book).Represents s.calls := by
  obtain ⟨⟨ids, hchain⟩, hbound, hdist⟩ := h
  exact ⟨⟨ids, ⟨hchain.toLinked.congr rfl rfl rfl, hchain.used, hchain.calls, hchain.positions, hchain.count⟩⟩, hbound, hdist⟩

/-- A call that fits does to the chain what it is to do to the list; it is right unless the list is empty. -/
private theorem step_done (h : s.book.Represents s.calls) (hmax : 1 ≤ s.book.maxRcd) (hfits : s.fits e = true) :
    ∃ t, s.code e = some (t, s.answer e) ∧ t.Represents (s.wanted e) ∧ t.maxRcd = s.book.maxRcd ∧
      t.strayed = !s.occupied e := by
  have hfresh := represents_fresh h
  cases e with
  | add entry =>
    obtain ⟨t, ht, hrep, htmax, htstrayed⟩ :=
      add_done (s := ⟨{ s.book with strayed := false }, s.calls⟩) hfresh hmax hfits
    refine ⟨t, ht, hrep, htmax, htstrayed.trans ?_⟩
    change (false || decide (without entry.call s.calls = [])) = !decide (without entry.call s.calls ≠ [])
    rw [Bool.false_or, decide_not, Bool.not_not]
  | delete index =>
    obtain ⟨t, ht, hrep, htmax, htstrayed⟩ := delete_done (s := ⟨{ s.book with strayed := false }, s.calls⟩) hfresh index
    exact ⟨t, ht, hrep, htmax, htstrayed⟩

/-- A call that does not fit is not done. -/
private theorem not_right (h : s.book.Represents s.calls) (hmax : 1 ≤ s.book.maxRcd) (hfits : s.fits e = false) :
    ¬s.Right e := by
  cases e with
  | delete index => cases hfits
  | add entry =>
    rintro ⟨t, ht, htrep, -⟩
    obtain ⟨⟨ids, hchain⟩, hbound, -⟩ := represents_fresh h
    obtain ⟨u, ids', hdrop, hu, humax, -, hroom⟩ := hchain.dropped entry.call
    have hadd : s.code (.add entry) = u.place entry.call := by
      change Option.bind _ _ = _
      rw [hdrop]
      rfl
    rw [hadd] at ht
    unfold CallList.fits at hfits
    dsimp only at hfits
    by_cases hfull : s.book.maxRcd ≤ (without entry.call s.calls).length
    · -- the only element is linked to itself
      rw [if_pos hfull] at hfits
      have hone := of_decide_eq_false hfits
      have hle := without_length (c := entry.call) (l := s.calls)
      have hlen : (without entry.call s.calls).length = ids'.length := by rw [← hu.calls, List.length_map]
      change (s.calls.length : Int) ≤ s.book.maxRcd at hbound
      obtain ⟨a, rfl⟩ := List.length_eq_one_iff.1 (show ids'.length = 1 by omega)
      obtain ⟨t', ht', hfirst, hprev⟩ := hu.placed_only (c := entry.call) (by rw [hu.count, humax]; exact hfull)
      obtain rfl : t' = t := (Prod.mk.inj (Option.some.inj (ht'.symm.trans ht))).1
      obtain ⟨ids'', htc⟩ := htrep.chain
      have ha := hu.inside a List.mem_cons_self
      cases ids'' with
      | nil =>
        have hneg : a = unusedIndex := hfirst.symm.trans htc.first
        exact absurd (hneg ▸ ha.1) (by decide)
      | cons b rest =>
        obtain rfl : a = b := hfirst.symm.trans htc.first
        have hend : t'.prev a = unusedByteIndex := htc.links.first.2
        have hself : a = unusedByteIndex := hprev.symm.trans hend
        unfold InTable maxRdmRecords at ha
        rw [hself] at ha
        exact absurd ha.2 (by decide)
    · -- no element is free
      rw [if_neg hfull] at hfits
      obtain ⟨hroom', hsame⟩ := Bool.or_eq_false_iff.1 hfits
      have hwithout := not_not.1 (of_decide_eq_false hsame)
      rcases hroom with ⟨-, rfl⟩ | ⟨hne, -⟩
      · have hused : ∀ i, InTable i → (s.book.element i).free = false := fun i hi =>
          Bool.eq_false_iff.2 fun hfree => Bool.eq_false_iff.1 hroom' (room_iff.2 ⟨i, hi, hfree⟩)
        have hnone := Book.placed_none (s := { s.book with strayed := false }) (c := entry.call)
          (by rw [hu.count, humax]; exact Int.not_le.1 hfull) hused
        rw [hnone] at ht
        exact absurd (Prod.mk.inj (Option.some.inj ht)).2 nofun
      · exact hne hwithout

end

namespace calls

/-- An empty list, with a table in which no element is used. -/
def empty (maxRcd : Int) : CallList :=
  ⟨⟨.ldn, maxRcd, 0, unusedIndex, fun _ => ⟨true, .ldn, 0xFF, 0xFF, Book.erased⟩, false⟩, []⟩

/-- A call of a number of one digit. -/
def dialled (digit : Nat) : PhbRecord :=
  ⟨⟨0, List.replicate 20 0xFF, 25, 1, 1, 0, 0, 0, 1, 0x81, (0xF0 + digit) :: List.replicate 21 0xFF, 0xFF, 1⟩, rfl,
    show 1 ≤ phbPackedNumLen by decide⟩

private theorem empty_represents {maxRcd : Int} (h : 0 ≤ maxRcd) : (empty maxRcd).book.Represents (empty maxRcd).calls :=
  ⟨⟨[], ⟨linear_nil rfl, nofun, rfl⟩, nofun, rfl, rfl, rfl⟩, h, .nil⟩

end calls

end Citrine.Aci.Phb
