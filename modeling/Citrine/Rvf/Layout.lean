import Mathlib.Algebra.GroupWithZero.Nat
import Mathlib.Data.List.Basic

/-!
# Areas that are tiled by chunks

A chunk is a header with the memory behind it, and an area is tiled by chunks one behind the other, up to an end marker
(`Tiles`).  No two free chunks are next to each other (`Coalesced`).
-/

namespace Citrine.Rvf

/-- A chunk, with the flag for the chunk in front of it. -/
structure Chunk where
  addr : Nat
  size : Nat
  prevUsed : Bool
  used : Bool
  deriving DecidableEq, Repr

/-- The address behind a chunk. -/
def Chunk.stop (c : Chunk) : Nat := c.addr + c.size + 12

/-- The chunks from an address up to another one; the flags are those of the chunks in front of the two addresses. -/
def Tiles : Nat → Bool → List Chunk → Nat → Bool → Prop
  | a, u, [], e, w => a = e ∧ u = w
  | a, u, c :: cs, e, w =>
    c.addr = a ∧ c.prevUsed = u ∧ 4 ≤ c.size ∧ c.size % 4 = 0 ∧ Tiles c.stop c.used cs e w

/-- No free chunk is behind another one. -/
def Coalesced : Bool → List Chunk → Prop
  | _, [] => True
  | u, c :: cs => (u = true ∨ c.used = true) ∧ Coalesced c.used cs

section
variable {a e : Nat} {u w : Bool} {c d : Chunk} {cs xs ys : List Chunk}

theorem tiles_append : Tiles a u (xs ++ ys) e w ↔ ∃ b v, Tiles a u xs b v ∧ Tiles b v ys e w := by
  induction xs generalizing a u with
  | nil =>
    constructor
    · exact fun h => ⟨a, u, ⟨rfl, rfl⟩, h⟩
    · rintro ⟨b, v, ⟨rfl, rfl⟩, h⟩
      exact h
  | cons c xs ih =>
    constructor
    · rintro ⟨h1, h2, h3, h4, h⟩
      obtain ⟨b, v, hb, hv⟩ := ih.1 h
      exact ⟨b, v, ⟨h1, h2, h3, h4, hb⟩, hv⟩
    · rintro ⟨b, v, ⟨h1, h2, h3, h4, hb⟩, hv⟩
      exact ⟨h1, h2, h3, h4, ih.2 ⟨b, v, hb, hv⟩⟩

theorem Tiles.le (h : Tiles a u cs e w) : a ≤ e := by
  induction cs generalizing a u with
  | nil => exact Nat.le_of_eq h.1
  | cons c cs ih =>
    obtain ⟨rfl, -, -, -, h⟩ := h
    have := ih h
    unfold Chunk.stop at this
    omega

/-- A chunk lies between the two addresses. -/
theorem Tiles.bounds (h : Tiles a u cs e w) (hc : c ∈ cs) : a ≤ c.addr ∧ c.stop ≤ e ∧ 4 ≤ c.size ∧ c.size % 4 = 0 := by
  induction cs generalizing a u with
  | nil => cases hc
  | cons d cs ih =>
    obtain ⟨rfl, -, h4, h5, h⟩ := h
    rcases List.mem_cons.1 hc with rfl | hc
    · exact ⟨Nat.le_refl _, h.le, h4, h5⟩
    · have := ih h hc
      unfold Chunk.stop at this ⊢
      omega

/-- Two chunks do not overlap. -/
theorem Tiles.apart (h : Tiles a u cs e w) (hc : c ∈ cs) (hd : d ∈ cs) :
    c = d ∨ c.stop ≤ d.addr ∨ d.stop ≤ c.addr := by
  induction cs generalizing a u with
  | nil => cases hc
  | cons x cs ih =>
    obtain ⟨-, -, -, -, h⟩ := h
    rcases List.mem_cons.1 hc with rfl | hc'
    · rcases List.mem_cons.1 hd with rfl | hd'
      · exact .inl rfl
      · exact .inr (.inl (h.bounds hd').1)
    · rcases List.mem_cons.1 hd with rfl | hd'
      · exact .inr (.inr (h.bounds hc').1)
      · exact ih h hc' hd'

/-- The chunks and their headers fill the place between the two addresses. -/
theorem Tiles.sum (h : Tiles a u cs e w) : a + (cs.map fun c => c.size + 12).sum = e := by
  induction cs generalizing a u with
  | nil => exact h.1
  | cons c cs ih =>
    obtain ⟨rfl, -, -, -, h⟩ := h
    have := ih h
    rw [List.map_cons, List.sum_cons]
    unfold Chunk.stop at this
    omega

/-- The chunks around one of them. -/
theorem Tiles.focus (h : Tiles a u (xs ++ c :: ys) e w) :
    Tiles a u xs c.addr c.prevUsed ∧ Tiles c.stop c.used ys e w ∧ 4 ≤ c.size ∧ c.size % 4 = 0 := by
  obtain ⟨b, v, hx, rfl, rfl, h4, h5, hy⟩ := tiles_append.1 h
  exact ⟨hx, hy, h4, h5⟩

theorem Coalesced.weaken (h : Coalesced u cs) : Coalesced true cs := by
  cases cs with
  | nil => trivial
  | cons c cs => exact ⟨.inl rfl, h.2⟩

/-- A chunk between two lists of chunks; a free one is between chunks in use. -/
theorem coalesced_append (ht : Tiles a u xs e w) :
    Coalesced u (xs ++ ys) ↔ Coalesced u xs ∧ Coalesced w ys := by
  induction xs generalizing a u with
  | nil =>
    obtain ⟨-, rfl⟩ := ht
    exact (and_iff_right trivial).symm
  | cons c xs ih =>
    obtain ⟨-, -, -, -, ht⟩ := ht
    rw [List.cons_append]
    change _ ∧ Coalesced c.used (xs ++ ys) ↔ (_ ∧ _) ∧ _
    rw [ih ht, and_assoc]

end

end Citrine.Rvf
