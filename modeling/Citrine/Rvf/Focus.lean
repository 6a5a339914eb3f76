import Citrine.Rvf.FreeLists

/-!
# A chunk and the heap around it

`Focused` describes a heap around one chunk that is in the middle of a change: the chunks in front of it and behind it
and those of the other areas are as they should be, and the chunk itself is only known by its header.  Each step of the
functions on buffers leads from one such description to another.
-/

namespace Citrine.Rvf

/-! ### Flags -/

section
variable {w : Nat}

/-- `RVF_SET_PREV_IN_USE` or `RVF_SET_PREV_FREE` -/
def setPrev (b : Bool) (w : Nat) : Nat := if b then setPrevInUse w else setPrevFree w

theorem maskSize_setPrev (b : Bool) : maskSize (setPrev b w) = maskSize w := by
  cases b with
  | true =>
    change (w / 4 * 4 + 2 + w % 2) / 4 * 4 = w / 4 * 4
    omega
  | false =>
    change (w / 4 * 4 + w % 2) / 4 * 4 = w / 4 * 4
    omega

theorem isLinked_setPrev (b : Bool) : isLinked (setPrev b w) = isLinked w := by
  unfold isLinked
  cases b with
  | true =>
    rw [show setPrev true w = w / 4 * 4 + 2 + w % 2 from rfl, show (w / 4 * 4 + 2 + w % 2) % 2 = w % 2 by omega]
  | false => rw [show setPrev false w = w / 4 * 4 + w % 2 from rfl, show (w / 4 * 4 + w % 2) % 2 = w % 2 by omega]

theorem isPrevInUse_setPrev (b : Bool) : isPrevInUse (setPrev b w) = b := by
  unfold isPrevInUse
  cases b with
  | true =>
    rw [show setPrev true w = w / 4 * 4 + 2 + w % 2 from rfl, show (w / 4 * 4 + 2 + w % 2) / 2 % 2 = 1 by omega]
    rfl
  | false =>
    rw [show setPrev false w = w / 4 * 4 + w % 2 from rfl, show (w / 4 * 4 + w % 2) / 2 % 2 = 0 by omega]
    rfl

theorem setSize_flags {n : Nat} (hn : n % 4 = 0) :
    maskSize (setSize w n) = n ∧ isLinked (setSize w n) = isLinked w ∧ isPrevInUse (setSize w n) = isPrevInUse w := by
  unfold maskSize isLinked isPrevInUse setSize
  rw [show (w % 4 + n) % 2 = w % 2 by omega, show (w % 4 + n) / 2 % 2 = w / 2 % 2 by omega]
  exact ⟨by omega, rfl, rfl⟩

end

/-! ### Areas -/

/-- An area with its chunks, up to its end marker; the flag is that of the last chunk. -/
structure Area where
  start : Nat
  stop : Nat
  chunks : List Chunk
  used : Bool
  deriving DecidableEq, Repr

def Area.Apart (A B : Area) : Prop := A.stop + 4 ≤ B.start ∨ B.stop + 4 ≤ A.start

instance : Std.Symm Area.Apart := ⟨fun _ _ h => Or.symm h⟩

/-- The areas do not overlap, and each is tiled by its chunks. -/
structure Areas (areas : List Area) : Prop where
  tiles : ∀ A ∈ areas, Tiles A.start true A.chunks A.stop A.used
  coalesced : ∀ A ∈ areas, Coalesced true A.chunks
  pos : ∀ A ∈ areas, 0 < A.start ∧ A.stop + 4 ≤ 2 ^ 32
  apart : areas.Pairwise Area.Apart

/-- The header of a chunk. -/
structure Head (m : Nat → Nat) (c : Chunk) : Prop where
  size : maskSize (m c.addr) = c.size
  prev : isPrevInUse (m c.addr) = c.prevUsed
  unlinked : c.used = false → isLinked (m c.addr) = false

/-- A free chunk has its size at its end. -/
def EndSize (m : Nat → Nat) (c : Chunk) : Prop := c.used = false → m (c.addr + c.size + 8) = c.size

/-- The end marker of an area. -/
def marker (used : Bool) : Nat := if used then 2 else 0

/-! ### The focus -/

/-- A chunk of an area, with the chunks in front of it and behind it; `used` is the flag in the chunk behind it. -/
structure Focus where
  start : Nat
  stop : Nat
  addr : Nat
  size : Nat
  front : List Chunk
  back : List Chunk
  prevUsed : Bool
  used : Bool
  lastUsed : Bool

def Focus.chunk (f : Focus) (used : Bool) : Chunk := ⟨f.addr, f.size, f.prevUsed, used⟩

/-- The other chunks. -/
def Focus.Live (f : Focus) (rest : List Area) (c : Chunk) : Prop :=
  c ∈ f.front ∨ c ∈ f.back ∨ ∃ A ∈ rest, c ∈ A.chunks

structure Focus.Shape (f : Focus) (rest : List Area) : Prop where
  front : Tiles f.start true f.front f.addr f.prevUsed
  back : Tiles (f.addr + f.size + 12) f.used f.back f.stop f.lastUsed
  frontCoalesced : Coalesced true f.front
  backCoalesced : Coalesced true f.back
  size : 4 ≤ f.size
  mod : f.size % 4 = 0
  pos : 0 < f.start ∧ f.stop + 4 ≤ 2 ^ 32
  areas : Areas rest
  away : ∀ A ∈ rest, f.stop + 4 ≤ A.start ∨ A.stop + 4 ≤ f.start

section
variable {f : Focus} {rest : List Area} {c d : Chunk}

/-- Where a chunk lies. -/
private theorem Focus.Shape.place (h : f.Shape rest) (hc : f.Live rest c) :
    4 ≤ c.size ∧ (f.start ≤ c.addr ∧ c.stop ≤ f.addr ∨ f.addr + f.size + 12 ≤ c.addr ∧ c.stop ≤ f.stop ∨
      ∃ A ∈ rest, A.start ≤ c.addr ∧ c.stop ≤ A.stop) := by
  rcases hc with hc | hc | ⟨A, hA, hc⟩
  · have := h.front.bounds hc
    exact ⟨this.2.2.1, .inl ⟨this.1, this.2.1⟩⟩
  · have := h.back.bounds hc
    exact ⟨this.2.2.1, .inr (.inl ⟨this.1, this.2.1⟩)⟩
  · have := (h.areas.tiles A hA).bounds hc
    exact ⟨this.2.2.1, .inr (.inr ⟨A, hA, this.1, this.2.1⟩)⟩

/-- The other chunks do not reach into the one in the middle. -/
theorem Focus.Shape.outside (h : f.Shape rest) (hc : f.Live rest c) :
    c.stop ≤ f.addr ∨ f.addr + f.size + 12 ≤ c.addr := by
  have hfront := h.front.le
  have hback := h.back.le
  rcases (h.place hc).2 with h1 | h1 | ⟨A, hA, h1⟩
  · exact .inl h1.2
  · exact .inr h1.1
  · rcases h.away A hA with h2 | h2
    · exact .inr (by omega)
    · exact .inl (by omega)

/-- The chunks do not overlap. -/
theorem Focus.Shape.spaced (h : f.Shape rest) (b : Bool) : Spaced fun c => f.Live rest c ∨ c = f.chunk b := by
  have hfront := h.front.le
  have hback := h.back.le
  have hpos := h.pos
  have hsize := h.size
  refine ⟨fun c hc => ?_, fun c hc => ?_, fun c d hc hd => ?_⟩
  · rcases hc with hc | rfl
    · exact (h.place hc).1
    · exact h.size
  · rcases hc with hc | rfl
    · rcases (h.place hc).2 with h1 | h1 | ⟨A, hA, h1⟩
      · omega
      · omega
      · have := (h.areas.pos A hA).1
        omega
    · change 0 < f.addr
      omega
  · rcases hc with hc | rfl
    · rcases hd with hd | rfl
      · -- two of the other chunks
        rcases hc with hc' | hc' | ⟨A, hA, hc'⟩
        · rcases hd with hd' | hd' | ⟨B, hB, hd'⟩
          · exact h.front.apart hc' hd'
          · have h1 := h.front.bounds hc'
            have h2 := h.back.bounds hd'
            exact .inr (.inl (by omega))
          · have h1 := h.front.bounds hc'
            have h2 := (h.areas.tiles B hB).bounds hd'
            have h3 := h.away B hB
            exact .inr (by omega)
        · rcases hd with hd' | hd' | ⟨B, hB, hd'⟩
          · have h1 := h.back.bounds hc'
            have h2 := h.front.bounds hd'
            exact .inr (.inr (by omega))
          · exact h.back.apart hc' hd'
          · have h1 := h.back.bounds hc'
            have h2 := (h.areas.tiles B hB).bounds hd'
            have h3 := h.away B hB
            exact .inr (by omega)
        · have h1 := (h.areas.tiles A hA).bounds hc'
          have h3 := h.away A hA
          rcases hd with hd' | hd' | ⟨B, hB, hd'⟩
          · have h2 := h.front.bounds hd'
            exact .inr (by omega)
          · have h2 := h.back.bounds hd'
            exact .inr (by omega)
          · have h2 := (h.areas.tiles B hB).bounds hd'
            by_cases hAB : A = B
            · rw [← hAB] at hd'
              exact (h.areas.tiles A hA).apart hc' hd'
            · have h4 : A.stop + 4 ≤ B.start ∨ B.stop + 4 ≤ A.start := h.areas.apart.forall hA hB hAB
              exact .inr (by omega)
      · exact .inr (h.outside hc)
    · rcases hd with hd | rfl
      · exact .inr (h.outside hd).symm
      · exact .inl rfl

/-- The markers do not lie in a chunk. -/
theorem Focus.Shape.marker_outside (h : f.Shape rest) {b : Bool} (hc : f.Live rest c ∨ c = f.chunk b) :
    (f.stop < c.addr ∨ c.stop ≤ f.stop) ∧ ∀ A ∈ rest, A.stop < c.addr ∨ c.stop ≤ A.stop := by
  have hfront := h.front.le
  have hback := h.back.le
  rcases hc with hc | rfl
  · have hsize := (h.place hc).1
    rcases (h.place hc).2 with h1 | h1 | ⟨A, hA, h1⟩
    · refine ⟨.inr (by omega), fun B hB => ?_⟩
      have := h.away B hB
      have hle := (h.areas.tiles B hB).le
      unfold Chunk.stop at *
      omega
    · refine ⟨.inr (by omega), fun B hB => ?_⟩
      have := h.away B hB
      have hle := (h.areas.tiles B hB).le
      unfold Chunk.stop at *
      omega
    · have h2 := h.away A hA
      refine ⟨by omega, fun B hB => ?_⟩
      by_cases hAB : A = B
      · exact .inr (by rw [← hAB]; exact h1.2)
      · have h4 : A.stop + 4 ≤ B.start ∨ B.stop + 4 ≤ A.start := h.areas.apart.forall hA hB hAB
        have hle := (h.areas.tiles B hB).le
        omega
  · refine ⟨.inr (by change f.addr + f.size + 12 ≤ f.stop; omega), fun B hB => ?_⟩
    have h1 := h.away B hB
    have hle := (h.areas.tiles B hB).le
    change B.stop < f.addr ∨ f.addr + f.size + 12 ≤ B.stop
    omega

end

end Citrine.Rvf
