import Citrine.Lib.RingBuffer
import Citrine.Lib.Machine

/-!
# The ring buffer of frame descriptors

`cl_ribu.c`: the indices of the ring buffer and the frame descriptors that are copied into it.  The indices and the
fill count are octets.  `cl_ribu_write_index` advances the write index before it looks whether the buffer is full,
and answers a full buffer with the index 0, which is a slot of the buffer like any other.
-/

namespace Citrine.Comlib

open RingBuffer

/-- One octet. -/
abbrev Octet := BitVec 8

/-- `T_RIBU` -/
structure Ribu where
  ri : Nat
  wi : Nat
  depth : Nat
  filled : Nat
  deriving DecidableEq, Repr

/-- `T_FD`; `buf` is the whole buffer. -/
structure FrameDesc where
  type : Octet
  status : Octet
  len : Nat
  buf : List Octet
  deriving DecidableEq, Repr

/-- `T_RIBU_FD` -/
structure RibuFd where
  idx : Ribu
  pFDv : List FrameDesc
  deriving DecidableEq, Repr

/-- `cl_ribu_init` -/
def clRibuInit (depth : Nat) : Ribu := { ri := 0, wi := 0, depth := depth, filled := 0 }

/-- `cl_ribu_create`; `fresh` is what the allocated frame descriptors happen to hold. -/
def clRibuCreate (fresh : List FrameDesc) : RibuFd := { idx := clRibuInit fresh.length, pFDv := fresh }

/-- `cl_ribu_read_index` -/
def clRibuReadIndex (ribu : Ribu) : Nat × Ribu :=
  let ri := (ribu.ri + 1) % 256
  (ribu.ri, { ribu with ri := if ri = ribu.depth then 0 else ri, filled := (ribu.filled + 255) % 256 })

/-- `cl_ribu_write_index` -/
def clRibuWriteIndex (ribu : Ribu) : Nat × Ribu :=
  let wi := (ribu.wi + 1) % 256
  let advanced := { ribu with wi := if wi = ribu.depth then 0 else wi }
  -- the buffer is full
  if advanced.ri = advanced.wi then (0, advanced)
  else (ribu.wi, { advanced with filled := (ribu.filled + 1) % 256 })

/-- `cl_ribu_data_avail` -/
def clRibuDataAvail (ribu : RibuFd) : Bool := ribu.idx.ri != ribu.idx.wi

/-- `cl_ribu_get_new_frame_desc`: the place of the frame descriptor, `none` for `NULL`. -/
def clRibuGetNewFrameDesc (ribu : RibuFd) : Option Nat × RibuFd :=
  let (wi, idx) := clRibuWriteIndex ribu.idx
  (if wi ≥ idx.depth then none else some wi, { ribu with idx := idx })

/-- The assignments and the `memcpy` of `cl_ribu_put`. -/
def FrameDesc.copy (fd dst : FrameDesc) : FrameDesc :=
  { type := fd.type, status := fd.status, len := fd.len, buf := fd.buf.take fd.len ++ dst.buf.drop fd.len }

/-- `cl_ribu_put` -/
def clRibuPut (fd : FrameDesc) (ribu : RibuFd) : RibuFd :=
  match clRibuGetNewFrameDesc ribu with
  | (none, ribu) => ribu
  | (some wi, ribu) => { ribu with pFDv := ribu.pFDv.modify wi fd.copy }

/-- `cl_ribu_get`: the frame descriptor as it is when the function returns. -/
def clRibuGet (ribu : RibuFd) : Option FrameDesc × RibuFd :=
  let (ri, idx) := clRibuReadIndex ribu.idx
  (ribu.pFDv[ri]?, { ribu with idx := idx })

/-- The frame of a descriptor. -/
structure Frame where
  type : Octet
  status : Octet
  data : List Octet
  deriving DecidableEq, Repr

def FrameDesc.frame (fd : FrameDesc) : Frame := { type := fd.type, status := fd.status, data := fd.buf.take fd.len }

/-! ### Runs -/

/-- A ring buffer with the frames that a queue of `depth - 1` places has accepted, those that still wait there, and
those that `cl_ribu_get` has returned. -/
structure Queued where
  ribu : RibuFd
  accepted : List Frame
  waiting : List Frame
  returned : List (Option Frame)
  deriving DecidableEq, Repr

inductive RibuEvent where
  | put (fd : FrameDesc)
  | get
  deriving DecidableEq, Repr

/-- All places of the queue are taken. -/
def Queued.full (s : Queued) : Bool := s.waiting.length + 1 == s.ribu.idx.depth

/-- One call.  The frame that is put has its octets and fits a buffer of `buflen` octets, and `cl_ribu_get` is called
only when data are available. -/
def Queued.step (buflen : Nat) (s : Queued) : RibuEvent → Option Queued
  | .put fd =>
    if fd.len ≤ fd.buf.length ∧ fd.len ≤ buflen then
      let t := { s with ribu := clRibuPut fd s.ribu }
      some (if s.full then t
        else { t with accepted := s.accepted ++ [fd.frame], waiting := s.waiting ++ [fd.frame] })
    else none
  | .get =>
    if clRibuDataAvail s.ribu then
      let (fd, ribu) := clRibuGet s.ribu
      some { s with
        ribu := ribu, waiting := s.waiting.tail, returned := s.returned ++ [fd.map FrameDesc.frame] }
    else none

def Queued.start (fresh : List FrameDesc) : Queued :=
  { ribu := clRibuCreate fresh, accepted := [], waiting := [], returned := [] }

/-- The runs of a ring buffer of at least two frame descriptors. -/
def ribu.machine (buflen : Nat) : Machine Queued RibuEvent where
  init s := ∃ fresh : List FrameDesc, 2 ≤ fresh.length ∧ fresh.length < 256 ∧ s = Queued.start fresh
  step := Queued.step buflen

/-- The law of the queue. -/
structure Queued.Law (s : Queued) : Prop where
  order : s.returned ++ s.waiting.map some = s.accepted.map some
  avail : clRibuDataAvail s.ribu ↔ s.waiting ≠ []
  filled : s.ribu.idx.filled = s.waiting.length

/-- A put into a full buffer is refused: the frames and the indices stay. -/
def Queued.Refuses (s : Queued) : Prop := ∀ fd, s.full → clRibuPut fd s.ribu = s.ribu

/-- No put is made into a full buffer. -/
def Queued.hasRoom (s : Queued) : RibuEvent → Bool
  | .put _ => !s.full
  | .get => true

/-! ### What the calls do -/

/-- The frame in a slot. -/
def RibuFd.slot (ribu : RibuFd) (i : Nat) : Option Frame := ribu.pFDv[i]?.map FrameDesc.frame

/-- What every step with room keeps. -/
structure Queued.Inv (s : Queued) : Prop where
  holds : Holds s.ribu.slot s.ribu.idx.depth s.ribu.idx.ri s.ribu.idx.wi (s.waiting.map some)
  slots : s.ribu.pFDv.length = s.ribu.idx.depth
  two : 2 ≤ s.ribu.idx.depth
  depth : s.ribu.idx.depth < 256
  filled : s.ribu.idx.filled = s.waiting.length
  order : s.returned ++ s.waiting.map some = s.accepted.map some

private theorem octet_next {depth i : Nat} (hi : i < depth) (hd : depth < 256) :
    (if (i + 1) % 256 = depth then 0 else (i + 1) % 256) = next depth i := by
  rw [Nat.mod_eq_of_lt (show i + 1 < 256 by omega)]
  rfl

private theorem frame_copy (fd dst : FrameDesc) (h : fd.len ≤ fd.buf.length) : (fd.copy dst).frame = fd.frame := by
  simp [FrameDesc.copy, FrameDesc.frame, h]

variable {s : Queued}

private theorem Queued.Inv.wi_lt (h : s.Inv) : s.ribu.idx.wi < s.ribu.idx.depth := h.holds.wi_lt

private theorem Queued.Inv.full_iff (h : s.Inv) :
    s.ribu.idx.ri = next s.ribu.idx.depth s.ribu.idx.wi ↔ s.waiting.length + 1 = s.ribu.idx.depth := by
  rw [h.holds.full_iff, List.length_map]

private theorem Queued.Inv.law (h : s.Inv) : s.Law := by
  refine ⟨h.order, ?_, h.filled⟩
  have he := h.holds.empty_iff
  simp only [List.map_eq_nil_iff] at he
  unfold clRibuDataAvail
  rw [bne_iff_ne, ne_eq, he]

/-- A put into a buffer with room. -/
private theorem clRibuPut_room (h : s.Inv) (hr : s.waiting.length + 1 ≠ s.ribu.idx.depth) (fd : FrameDesc) :
    clRibuPut fd s.ribu =
      { idx := { s.ribu.idx with
          wi := next s.ribu.idx.depth s.ribu.idx.wi, filled := (s.ribu.idx.filled + 1) % 256 }
        pFDv := s.ribu.pFDv.modify s.ribu.idx.wi fd.copy } := by
  have hn := octet_next h.wi_lt h.depth
  have hne : ¬ s.ribu.idx.ri = next s.ribu.idx.depth s.ribu.idx.wi := fun he => hr (h.full_iff.1 he)
  unfold clRibuPut clRibuGetNewFrameDesc clRibuWriteIndex
  simp only [hn, hne, if_false]
  rw [if_neg (by have := h.wi_lt; omega)]

/-- A put into a full buffer: the indices are equal afterwards. -/
private theorem clRibuPut_full (h : s.Inv) (hf : s.waiting.length + 1 = s.ribu.idx.depth) (fd : FrameDesc) :
    clRibuDataAvail (clRibuPut fd s.ribu) = false := by
  have hn := octet_next h.wi_lt h.depth
  have he := h.full_iff.2 hf
  have hpos : ¬ 0 ≥ s.ribu.idx.depth := by have := h.wi_lt; omega
  unfold clRibuPut clRibuGetNewFrameDesc clRibuWriteIndex
  simp only [hn, ← he, if_true, hpos, if_false]
  simp [clRibuDataAvail]

private theorem Queued.Inv.put (h : s.Inv) (hr : s.waiting.length + 1 ≠ s.ribu.idx.depth) {fd : FrameDesc}
    (hfd : fd.len ≤ fd.buf.length) :
    ({ s with
      ribu := clRibuPut fd s.ribu, accepted := s.accepted ++ [fd.frame]
      waiting := s.waiting ++ [fd.frame] } : Queued).Inv := by
  have hlt := h.holds.length_lt
  rw [List.length_map] at hlt
  have hw := h.wi_lt
  rw [clRibuPut_room h hr fd]
  refine ⟨?_, by simp [h.slots], h.two, h.depth, ?_, ?_⟩
  · have hp := h.holds.push (RibuFd.slot
        { idx := { s.ribu.idx with
            wi := next s.ribu.idx.depth s.ribu.idx.wi, filled := (s.ribu.idx.filled + 1) % 256 }
          pFDv := s.ribu.pFDv.modify s.ribu.idx.wi fd.copy })
      (a := some fd.frame) (by rw [List.length_map]; omega) ?_ ?_
    · simpa using hp
    · have hget : s.ribu.idx.wi < s.ribu.pFDv.length := by rw [h.slots]; exact hw
      simp [RibuFd.slot, List.getElem?_eq_getElem hget, frame_copy fd _ hfd]
    · intro i hi
      simp [RibuFd.slot, Ne.symm hi]
  · have hd := h.depth
    have hf := h.filled
    simp only [List.length_append, List.length_singleton]
    omega
  · simp only [List.map_append, ← List.append_assoc, h.order, List.map_cons, List.map_nil]

private theorem Queued.Inv.get (h : s.Inv) (ha : clRibuDataAvail s.ribu) :
    ({ s with
      ribu := (clRibuGet s.ribu).2, waiting := s.waiting.tail
      returned := s.returned ++ [(clRibuGet s.ribu).1.map FrameDesc.frame] } : Queued).Inv := by
  have hne := h.law.avail.1 ha
  obtain ⟨f, rest, hw⟩ : ∃ f rest, s.waiting = f :: rest := List.exists_cons_of_ne_nil hne
  have hh := h.holds
  have hf := h.filled
  have hord := h.order
  rw [hw] at hh hf hord
  obtain ⟨hslot, hpop⟩ := hh.pop
  have hn := octet_next hh.ri_lt h.depth
  have hd := h.depth
  have hlen := hh.length_lt
  simp only [List.map_cons, List.length_cons, List.length_map] at hlen
  have hget : (clRibuGet s.ribu).2 =
      { s.ribu with idx := { s.ribu.idx with
          ri := next s.ribu.idx.depth s.ribu.idx.ri, filled := (s.ribu.idx.filled + 255) % 256 } } := by
    unfold clRibuGet clRibuReadIndex
    simp only [hn]
  have hret : (clRibuGet s.ribu).1.map FrameDesc.frame = some f := hslot
  rw [hget, hret, hw]
  refine ⟨hpop, h.slots, h.two, h.depth, ?_, ?_⟩
  · simp only [List.length_cons, List.tail_cons] at hf ⊢
    omega
  · rw [← hord]
    simp

private theorem start_inv {fresh : List FrameDesc} (h2 : 2 ≤ fresh.length) (h : fresh.length < 256) :
    (Queued.start fresh).Inv :=
  ⟨holds_nil (by simp [Queued.start, clRibuCreate, clRibuInit]; omega), rfl, h2, h, rfl, rfl⟩

private theorem ribu_step_inv {buflen : Nat} {e : RibuEvent} {t : Queued} (h : s.Inv) (hok : s.hasRoom e)
    (ht : s.step buflen e = some t) : t.Inv := by
  cases e with
  | put fd =>
    have hroom : s.full = false := by simpa [Queued.hasRoom] using hok
    have hne : s.waiting.length + 1 ≠ s.ribu.idx.depth := by simpa [Queued.full] using hroom
    simp only [Queued.step] at ht
    split at ht
    · rename_i hfd
      simp only [hroom, Bool.false_eq_true, if_false, Option.some.injEq] at ht
      exact ht ▸ h.put hne hfd.1
    · cases ht
  | get =>
    simp only [Queued.step] at ht
    split at ht
    · rename_i ha
      simp only [Option.some.injEq] at ht
      exact ht ▸ h.get ha
    · cases ht

/-- In every run without a put into a full buffer the ring buffer is a queue; and the first put into a full buffer
makes it look empty. -/
theorem ribu_fifo {buflen : Nat} {s : Queued} (h : (ribu.machine buflen).Reach Queued.hasRoom s) :
    s.Law ∧ ∀ fd, s.full → clRibuDataAvail (clRibuPut fd s.ribu) = false ∧ s.waiting ≠ [] := by
  have hinv : s.Inv := by
    refine h.invariant (I := Queued.Inv) ?_ fun s e t hs hok ht => ribu_step_inv hs hok ht
    rintro s ⟨fresh, h2, hlt, rfl⟩
    exact start_inv h2 hlt
  refine ⟨hinv.law, fun fd hf => ?_⟩
  have hfull : s.waiting.length + 1 = s.ribu.idx.depth := by simpa [Queued.full] using hf
  refine ⟨clRibuPut_full hinv hfull fd, fun hw => ?_⟩
  have h2 := hinv.two
  rw [hw, List.length_nil] at hfull
  omega

/-- A frame of one octet. -/
def ribu.oneOctet (octet : Octet) : FrameDesc := { type := 1, status := 0, len := 1, buf := [octet] }

/-- Two frame descriptors. -/
def ribu.two : Queued := Queued.start [ribu.oneOctet 0, ribu.oneOctet 0]

private theorem ribu_two_init (buflen : Nat) : (ribu.machine buflen).init ribu.two :=
  ⟨[ribu.oneOctet 0, ribu.oneOctet 0], by decide, by decide, rfl⟩

private theorem ribu_put_get_isSome : ((ribu.machine 1).run Queued.hasRoom ribu.two
    [.put (ribu.oneOctet 7), .get, .put (ribu.oneOctet 8)]).isSome := by decide

/-- A frame is put and fetched, and another one is put. -/
theorem ribu_fifo_run : ∃ s : Queued, (ribu.machine 1).Reach Queued.hasRoom s ∧ s.Law ∧
    ∀ fd, s.full → clRibuDataAvail (clRibuPut fd s.ribu) = false ∧ s.waiting ≠ [] := by
  obtain ⟨s, hs⟩ := Option.isSome_iff_exists.1 ribu_put_get_isSome
  have hr : (ribu.machine 1).Reach Queued.hasRoom s := .of_run (.init (ribu_two_init 1)) hs
  exact ⟨s, hr, ribu_fifo hr⟩

private theorem ribu_overrun : ((ribu.machine 1).run (fun _ _ => true) ribu.two
      [.put (ribu.oneOctet 7), .put (ribu.oneOctet 8)]).map (fun s => (clRibuDataAvail s.ribu, s.waiting, s.ribu.idx.filled)) =
    some (false, [(ribu.oneOctet 7).frame], 1) := by decide

/-- Two frames are put into a buffer of two descriptors: the first one is lost, and the buffer looks empty. -/
theorem ribu_frame_lost : ∃ s : Queued, (ribu.machine 1).Reach (fun _ _ => true) s ∧
    ¬ (clRibuDataAvail s.ribu ↔ s.waiting ≠ []) ∧
    ∃ s₀ : Queued, (ribu.machine 1).Reach (fun _ _ => true) s₀ ∧ ¬ s₀.Refuses := by
  obtain ⟨s, hs, hv⟩ := Option.map_eq_some_iff.1 ribu_overrun
  simp only [Prod.mk.injEq] at hv
  have hput : (ribu.machine 1).run (fun _ _ => true) ribu.two [.put (ribu.oneOctet 7)] =
      some ((ribu.two.step 1 (.put (ribu.oneOctet 7))).getD ribu.two) := by decide
  refine ⟨s, .of_run (.init (ribu_two_init 1)) hs, ?_, _, .of_run (.init (ribu_two_init 1)) hput, fun h => ?_⟩
  · rw [hv.1, hv.2.1]
    simp
  · have := h (ribu.oneOctet 8) (by decide)
    revert this
    decide

end Citrine.Comlib
