import Citrine.Dti.SendQueue
import Citrine.Lib.ForwardList
import Mathlib.Data.List.Nodup

/-!
# The chain of the send queue

The packets of a send queue are chained by their own field `link_id`, which is 0 in the last one.  The functions of the
queue walk along this chain; what they do to it is what the functions on the list of the packets do (`Chain.Holds`).
-/

namespace Citrine.Dti

/-- The fields of the packets and those of the link that the queue uses; a packet is its address, which is not 0. -/
structure Chain where
  linkId : Nat → Nat
  dtiDataInd : Nat
  queueLen : Nat

namespace Chain

/-- The search for the last packet, with the count of the packets in an octet; `none` when a bound of rounds is not
enough. -/
def searchLast (linkId : Nat → Nat) : Nat → Nat → Nat → Option (Nat × Nat)
  | 0, _, _ => none
  | n + 1, ind, chk => if linkId ind ≠ 0 then searchLast linkId n (linkId ind) ((chk + 1) % 256) else some (ind, chk)

def setLinkId (c : Chain) (ind value : Nat) : Chain :=
  { c with linkId := fun i => if i = ind then value else c.linkId i }

/-- `put_dti_data_ind_in_queue` -/
def putDtiDataInd (n : Nat) (c : Chain) (p : Nat) : Option Chain :=
  let c := c.setLinkId p 0
  if c.queueLen = 0 then some { c with dtiDataInd := p, queueLen := 1 }
  else
    (searchLast c.linkId n c.dtiDataInd 1).map fun (ind, chk) =>
      let c := c.setLinkId ind p
      if chk ≠ c.queueLen then c else { c with queueLen := (c.queueLen + 1) % 256 }

/-- `get_dti_data_ind_from_queue` -/
def getDtiDataInd (c : Chain) : Chain × Option Nat :=
  if c.queueLen = 0 then (c, none)
  else ({ c with queueLen := c.queueLen - 1, dtiDataInd := c.linkId c.dtiDataInd }, some c.dtiDataInd)

/-- The search of `get_last_dti_data_ind_from_queue` for the field that points to the last packet: that of the link, or
that of a packet. -/
def searchField (c : Chain) : Nat → Option Nat → Option (Option Nat)
  | 0, _ => none
  | n + 1, field =>
    let ind := (field.map c.linkId).getD c.dtiDataInd
    if c.linkId ind ≠ 0 then c.searchField n (some ind) else some field

/-- `get_last_dti_data_ind_from_queue` -/
def getLastDtiDataInd (n : Nat) (c : Chain) : Option Chain :=
  if c.queueLen = 0 then some c
  else
    (c.searchField n none).map fun field =>
      let c := { c with queueLen := c.queueLen - 1 }
      match field with
      | none => { c with dtiDataInd := 0 }
      | some ind => c.setLinkId ind 0

/-- The packets that `free_dti_data_ind_packets_queue` frees. -/
def freed (linkId : Nat → Nat) : Nat → Nat → Option (List Nat)
  | 0, _ => none
  | n + 1, ind =>
    if ind = 0 then some []
    else if linkId ind ≠ 0 then (freed linkId n (linkId ind)).map (ind :: ·) else some [ind]

/-- The chain is that of the packets in the queue of a link. -/
structure Holds (c : Chain) (l : Link) : Prop where
  path : Citrine.Path 0 c.linkId c.dtiDataInd l.dtiDataInd
  len : c.queueLen = l.queueLen
  nodup : l.dtiDataInd.Nodup

variable {c : Chain} {l : Link} {linkId : Nat → Nat} {p ind n chk : Nat} {pre inds : List Nat}

private theorem searchLast_path (chk : Nat) (h : Citrine.Path 0 linkId ind (inds ++ [p])) (hn : inds.length < n)
    (hchk : chk < 256) :
    searchLast linkId n ind chk = some (p, (chk + inds.length) % 256) := by
  induction inds generalizing ind n chk with
  | nil =>
    obtain ⟨m, rfl⟩ := Nat.exists_eq_add_one.2 hn
    obtain ⟨rfl, -, hend⟩ := h
    have hlast : searchLast linkId (m + 1) ind chk = some (ind, chk) := if_neg (not_not.2 hend)
    rw [hlast, List.length_nil, Nat.add_zero, Nat.mod_eq_of_lt hchk]
  | cons i inds ih =>
    obtain ⟨m, rfl⟩ := Nat.exists_eq_add_one.2 (Nat.zero_lt_of_lt hn)
    obtain ⟨rfl, -, hrest⟩ := h
    have hnext : linkId ind ≠ 0 := by
      rw [Ne, hrest.null_iff]
      exact List.append_ne_nil_of_right_ne_nil _ nofun
    have hgo : searchLast linkId (m + 1) ind chk = searchLast linkId m (linkId ind) ((chk + 1) % 256) :=
      if_pos hnext
    rw [List.length_cons] at hn
    rw [hgo, List.length_cons, ih _ hrest (Nat.lt_of_succ_lt_succ hn) (Nat.mod_lt _ (by decide)), Nat.mod_add_mod,
      Nat.add_assoc, Nat.add_comm 1]

private theorem setLinkId_other {i value : Nat} (h : i ≠ ind) : (c.setLinkId ind value).linkId i = c.linkId i := if_neg h

private theorem setLinkId_self {value : Nat} : (c.setLinkId ind value).linkId ind = value := if_pos rfl

/-- A new packet is put behind the last one. -/
theorem Holds.put (h : c.Holds l) (hp : p ≠ 0) (hnew : p ∉ l.dtiDataInd) (hlen : l.queueLen ≠ 0 → l.dtiDataInd ≠ [])
    (hn : l.dtiDataInd.length ≤ n) : ∃ d, c.putDtiDataInd n p = some d ∧ d.Holds (l.putDtiDataInd p) := by
  have hpath : Citrine.Path 0 (c.setLinkId p 0).linkId c.dtiDataInd l.dtiDataInd :=
    h.path.congr fun a ha => setLinkId_other fun heq => hnew (heq ▸ ha)
  unfold putDtiDataInd Link.putDtiDataInd
  have hlen0 : (c.setLinkId p 0).queueLen = l.queueLen := h.len
  dsimp only
  rw [hlen0]
  by_cases hzero : l.queueLen = 0
  · rw [if_pos hzero, if_pos hzero]
    exact ⟨_, rfl, ⟨rfl, hp, setLinkId_self⟩, rfl, List.nodup_singleton p⟩
  · obtain ⟨inds, z, hz⟩ := (List.eq_nil_or_concat' l.dtiDataInd).resolve_left (hlen hzero)
    have hnodup := h.nodup
    rw [hz] at hpath hn hnew hnodup ⊢
    rw [List.length_append, List.length_singleton] at hn
    have hnodup' : (inds ++ [z] ++ [p]).Nodup :=
      List.nodup_append.2 ⟨hnodup, List.nodup_singleton p, fun a ha b hb hab =>
        hnew (List.mem_singleton.1 hb ▸ hab ▸ ha)⟩
    have hzp : z ≠ p := fun heq => hnew (heq ▸ List.mem_append_right _ List.mem_cons_self)
    have hznot : z ∉ inds := fun hmem =>
      (List.nodup_append.1 hnodup).2.2 z hmem z List.mem_cons_self rfl
    have hpath' : Citrine.Path 0 ((c.setLinkId p 0).setLinkId z p).linkId c.dtiDataInd (inds ++ [z, p]) :=
      hpath.snoc hp (fun a ha => setLinkId_other fun heq => hznot (heq ▸ ha)) setLinkId_self
        ((setLinkId_other hzp.symm).trans setLinkId_self)
    have hsearch := searchLast_path 1 hpath (Nat.lt_of_succ_le hn) (by decide)
    rw [Nat.add_comm 1] at hsearch
    rw [if_neg hzero, if_neg hzero, List.length_append, List.length_singleton]
    refine ⟨_, congrArg (Option.map _) hsearch, ?_⟩
    rw [List.append_assoc] at hnodup' ⊢
    dsimp only
    have hlen' : ((c.setLinkId p 0).setLinkId z p).queueLen = l.queueLen := h.len
    rw [hlen']
    split
    · exact ⟨hpath', h.len, hnodup'⟩
    · exact ⟨hpath', rfl, hnodup'⟩

/-- The first packet is taken. -/
theorem Holds.get (h : c.Holds l) (hlen : l.queueLen ≠ 0 → l.dtiDataInd ≠ []) :
    c.getDtiDataInd.1.Holds l.getDtiDataInd.1 ∧ c.getDtiDataInd.2 = l.getDtiDataInd.2 := by
  unfold getDtiDataInd Link.getDtiDataInd
  by_cases hzero : l.queueLen = 0
  · rw [if_pos (h.len.trans hzero), if_pos hzero]
    exact ⟨h, rfl⟩
  · rw [if_neg (h.len ▸ hzero), if_neg hzero]
    obtain ⟨i, inds, hi⟩ := List.exists_cons_of_ne_nil (hlen hzero)
    have hpath := h.path
    have hnodup := h.nodup
    rw [hi] at hpath hnodup ⊢
    obtain ⟨rfl, -, hrest⟩ := hpath
    exact ⟨⟨hrest, by rw [h.len], (List.nodup_cons.1 hnodup).2⟩, rfl⟩

private theorem searchField_path (field : Option Nat)
    (h : Citrine.Path 0 c.linkId ((field.map c.linkId).getD c.dtiDataInd) (inds ++ [p])) (hn : inds.length < n) :
    c.searchField n field = some (inds.getLast?.or field) := by
  induction inds generalizing field n with
  | nil =>
    obtain ⟨m, rfl⟩ := Nat.exists_eq_add_one.2 hn
    have hend := h.2.2
    exact if_neg (not_not.2 (h.1 ▸ hend))
  | cons i inds ih =>
    obtain ⟨m, rfl⟩ := Nat.exists_eq_add_one.2 (Nat.zero_lt_of_lt hn)
    obtain ⟨hi, -, hrest⟩ := h
    have hnext : c.linkId ((field.map c.linkId).getD c.dtiDataInd) ≠ 0 := by
      rw [hi, Ne, hrest.null_iff]
      exact List.append_ne_nil_of_right_ne_nil _ nofun
    have hgo : c.searchField (m + 1) field = c.searchField m (some i) :=
      (if_pos hnext).trans (congrArg (fun ind => c.searchField m (some ind)) hi)
    rw [hgo, ih (some i) hrest (Nat.lt_of_succ_lt_succ hn), List.getLast?_cons]
    cases inds.getLast? <;> rfl

/-- The last packet is taken. -/
theorem Holds.getLast (h : c.Holds l) (hlen : l.queueLen ≠ 0 → l.dtiDataInd ≠ []) (hn : l.dtiDataInd.length ≤ n) :
    ∃ d, c.getLastDtiDataInd n = some d ∧ d.Holds l.getLastDtiDataInd := by
  unfold getLastDtiDataInd Link.getLastDtiDataInd
  by_cases hzero : l.queueLen = 0
  · rw [if_pos (h.len.trans hzero), if_pos hzero]
    exact ⟨c, rfl, h⟩
  · obtain ⟨inds, z, hz⟩ := (List.eq_nil_or_concat' l.dtiDataInd).resolve_left (hlen hzero)
    have hpath := h.path
    have hnodup := h.nodup
    rw [hz] at hpath hn hnodup
    rw [List.length_append, List.length_singleton] at hn
    have hsearch := searchField_path none hpath (Nat.lt_of_succ_le hn)
    rw [Option.or_none] at hsearch
    rw [if_neg (h.len ▸ hzero), if_neg hzero, hz, List.dropLast_concat]
    refine ⟨_, congrArg (Option.map _) hsearch, ?_⟩
    have hsub : inds.Nodup := (List.nodup_append.1 hnodup).1
    rcases List.eq_nil_or_concat' inds with rfl | ⟨inds', y, rfl⟩
    · exact ⟨rfl, congrArg (· - 1) h.len, hsub⟩
    · rw [List.getLast?_concat]
      rw [List.append_assoc] at hpath
      have hy : y ∉ inds' := fun hmem => (List.nodup_append.1 hsub).2.2 y hmem y List.mem_cons_self rfl
      exact ⟨hpath.splice (fun a ha => setLinkId_other fun heq => hy (heq ▸ ha)) setLinkId_self,
        congrArg (· - 1) h.len, hsub⟩

/-- All packets of the queue are freed, each of them once. -/
theorem freed_path (h : Citrine.Path 0 linkId ind inds) (hn : inds.length < n) : freed linkId n ind = some inds := by
  induction inds generalizing ind n with
  | nil =>
    obtain ⟨m, rfl⟩ := Nat.exists_eq_add_one.2 hn
    exact if_pos h
  | cons i inds ih =>
    obtain ⟨m, rfl⟩ := Nat.exists_eq_add_one.2 (Nat.zero_lt_of_lt hn)
    obtain ⟨rfl, hind, hrest⟩ := h
    unfold freed
    rw [if_neg hind]
    by_cases hnext : linkId ind = 0
    · rw [if_neg (not_not.2 hnext), (hrest.null_iff.1 hnext)]
    · rw [if_pos hnext, ih hrest (Nat.lt_of_succ_lt_succ hn)]
      rfl

end Chain

end Citrine.Dti
