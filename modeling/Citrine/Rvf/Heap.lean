import Citrine.Lib.Machine
import Citrine.Rvf.Alloc

/-!
# The heap of the RVF

Pools are set up, buffers are found and released in any order, and their owners write to them.  After each call the heap
is sound (`heap_sound`), if no list gets a second pool while it holds a buffer, no request is so big that `REQ2SIZE` wraps,
and the first call after a pool has been set up is a request that is served from this pool (`HeapOp.sound`).
-/

namespace Citrine.Rvf

/-! ### Runs -/

/-- The heap with the pools that are set up, the buffers that are held (by the addresses of their headers) and what the
last `_find_buf` returned. -/
structure Heap where
  rvf : RvfMem
  pools : List RvfPool
  held : List Nat
  returned : Nat

inductive HeapOp where
  | setUp (size pMem : Nat)
  | find (size : Nat)
  | release (p : Nat)
  /-- The owner of a buffer writes a word of it. -/
  | write (a v : Nat)
  /-- The owner of a buffer marks it as linked or not. -/
  | link (p : Nat) (linked : Bool)
  deriving DecidableEq, Repr

/-- The size of a pool, rounded up. -/
def poolSize (size : Nat) : Nat := (size + 3) / 4 * 4

/-- The memory may become a new pool: it is in the address space, and no other pool is there. -/
def Heap.vacant (s : Heap) (size pMem : Nat) : Bool :=
  pMem != 0 && pMem % 4 == 0 && decide (20 ≤ poolSize size) && decide (pMem + poolSize size ≤ 2 ^ 32) &&
    s.pools.all fun q =>
      decide (q.startAddress + q.poolSize ≤ pMem) || decide (pMem + poolSize size ≤ q.startAddress)

def Heap.step (s : Heap) : HeapOp → Option Heap
  | .setUp size pMem =>
    if s.vacant size pMem then
      some { s with rvf := s.rvf.initFreeQueue size pMem, pools := ⟨pMem, poolSize size⟩ :: s.pools }
    else none
  | .find size =>
    if size < 2 ^ 32 then
      let (rvf, p) := s.rvf.findBuf size
      some { s with rvf := rvf, held := if p = 0 then s.held else p :: s.held, returned := p }
    else none
  | .release p =>
    if p ∈ s.held then
      let (rvf, ok) := s.rvf.releaseBuf p
      some { s with rvf := rvf, held := if ok then s.held.erase p else s.held }
    else none
  | .write a v =>
    if a % 4 = 0 ∧ s.held.any fun p => decide (p + 4 ≤ a) && decide (a < p + s.rvf.getSize p + headerSize) then
      some { s with rvf := s.rvf.store a v }
    else none
  | .link p linked =>
    if p ∈ s.held then
      let w := s.rvf.mem p
      some { s with rvf := s.rvf.store p (if linked then setLinked w else setUnlinked w) }
    else none

/-- At first there is no pool, and the memory holds anything. -/
def heap.machine : Machine Heap HeapOp where
  init := fun s => s.rvf.lists = (fun _ => 0) ∧ s.rvf.lastRemainder = 0 ∧ s.pools = [] ∧ s.held = []
  step := Heap.step

/-- A call of `_find_buf` or `_release_buf`. -/
def HeapOp.isCall : HeapOp → Bool
  | .find _ | .release _ => true
  | _ => false

/-- The pool is one free buffer, with the words that `_rvf_init_free_queue` has written. -/
def RvfPool.asSetUp (q : RvfPool) (s : RvfMem) : Bool :=
  s.mem q.startAddress == q.poolSize - 16 + 2 && s.mem (q.startAddress + q.poolSize - 4) == 0 &&
    s.mem (q.startAddress + q.poolSize - 8) == q.poolSize - 16 + 2

/-- A request is served from the last remainder: it is not empty, it fits, and the list of its size has no other first
buffer that is big enough. -/
def RvfMem.fromLast (s : RvfMem) (size : Nat) : Bool :=
  let first := s.lists (bufListIndex (req2Size size))
  decide (0 < size) && decide (req2Size size ≤ s.getSize s.lastRemainder) &&
    (first == s.lastRemainder || first == 0 || decide (s.getSize first < req2Size size))

/-- A pool is set up for an empty list, a request does not wrap, and a pool that is as it was set up is the one that the
next request is served from. -/
def HeapOp.sound (s : Heap) : HeapOp → Bool
  | .setUp size _ => s.rvf.lists (bufListIndex (poolSize size - 16)) == 0
  | .find size =>
    decide (size + 7 < 2 ^ 32) && s.pools.all fun q =>
      !q.asSetUp s.rvf || (q.startAddress == s.rvf.lastRemainder && s.rvf.fromLast size)
  | .release _ => s.pools.all fun q => !q.asSetUp s.rvf
  | _ => true

/-- The pool of an area, with its end marker. -/
def Area.pool (A : Area) : RvfPool := ⟨A.start, A.stop + 4 - A.start⟩

/-- The pools are tiled by chunks, and the heap is intact. -/
structure Heap.Sound (s : Heap) (areas : List Area) : Prop where
  pools : (areas.map Area.pool).Perm s.pools
  intact : Intact s.rvf s.held areas
  sum : ∀ A ∈ areas, (A.chunks.map fun c => c.size + 12).sum + 4 = A.pool.poolSize

/-! ### The invariant -/

/-- The area of a pool that is as it was set up. -/
structure Area.AsSetUp (A : Area) (m : Nat → Nat) : Prop where
  chunks : A.chunks = [⟨A.start, A.stop - A.start - 12, true, false⟩]
  used : A.used = false
  first : m A.start = A.stop - A.start - 12 + 2
  last : m (A.stop - 4) = A.stop - A.start - 12 + 2

structure Heap.Inv (s : Heap) (areas : List Area) : Prop where
  pools : (areas.map Area.pool).Perm s.pools
  layout : Layout s.rvf s.held areas
  ends : ∀ A ∈ areas, (∀ c ∈ A.chunks, EndSize s.rvf.mem c) ∨ A.AsSetUp s.rvf.mem

section
variable {s t : Heap} {areas rest : List Area} {A : Area} {c : Chunk}

private theorem init_inv_heap (h : heap.machine.init s) : s.Inv [] := by
  obtain ⟨hl, hlast, hp, hh⟩ := h
  have hno : ∀ c, ¬ InAreas [] c := fun c ⟨_, hA, _⟩ => List.not_mem_nil hA
  refine ⟨by rw [hp]; exact .refl _, ⟨⟨?_, ?_, ?_, List.Pairwise.nil⟩, fun c hc => absurd hc (hno c), ?_, fun i _ => ?_,
    .inl hlast, fun a => ?_, by rw [hh]; exact List.nodup_nil⟩, ?_⟩
  · exact fun A hA => absurd hA List.not_mem_nil
  · exact fun A hA => absurd hA List.not_mem_nil
  · exact fun A hA => absurd hA List.not_mem_nil
  · exact fun A hA => absurd hA List.not_mem_nil
  · refine ⟨[], linear_nil (by change s.rvf.lists i = 0; rw [hl]), fun a => ?_⟩
    exact ⟨fun hn => absurd hn List.not_mem_nil, fun ⟨c, hc, _⟩ => absurd hc (hno c)⟩
  · rw [hh]
    exact ⟨fun hn => absurd hn List.not_mem_nil, fun ⟨c, hc, _⟩ => absurd hc (hno c)⟩
  · exact fun A hA => absurd hA List.not_mem_nil

/-- A flagged area is a pool that is as it was set up. -/
private theorem asSetUp_pool (h : Layout s.rvf s.held areas) (hA : A ∈ areas) (hset : A.AsSetUp s.rvf.mem) :
    A.pool.asSetUp s.rvf = true := by
  have hle := (h.shape.tiles A hA).le
  have hb := (h.shape.tiles A hA).bounds (hset.chunks ▸ List.mem_singleton_self _)
  unfold Chunk.stop at hb
  simp only at hb
  have hstop := h.markers A hA
  rw [hset.used] at hstop
  have h1 : A.start + (A.stop + 4 - A.start) - 4 = A.stop := by omega
  have h2 : A.start + (A.stop + 4 - A.start) - 8 = A.stop - 4 := by omega
  have h3 : A.stop + 4 - A.start - 16 + 2 = A.stop - A.start - 12 + 2 := by omega
  unfold RvfPool.asSetUp Area.pool
  simp only [h1, h2, h3, hset.first, hset.last, hstop, beq_self_eq_true, Bool.true_and, Bool.and_true]
  rfl

/-- The flag in a size does not change its list. -/
private theorem bufListIndex_flag {k : Nat} (hmod : k % 4 = 0) : bufListIndex (k + 2) = bufListIndex k := by
  unfold bufListIndex
  by_cases h1 : k < 256
  · rw [if_pos (show k + 2 < 256 by omega), if_pos h1]
    omega
  · rw [if_neg (show ¬ k + 2 < 256 by omega), if_neg h1]
    by_cases h2 : k < 1280
    · rw [if_pos (show k + 2 < 1280 by omega), if_pos h2]
      omega
    · rw [if_neg (show ¬ k + 2 < 1280 by omega), if_neg h2]
      by_cases h3 : k < 5376
      · rw [if_pos (show k + 2 < 5376 by omega), if_pos h3]
        omega
      · rw [if_neg (show ¬ k + 2 < 5376 by omega), if_neg h3]
        by_cases h4 : k < 136448
        · rw [if_pos (show k + 2 < 136448 by omega), if_pos h4]
          omega
        · rw [if_neg (show ¬ k + 2 < 136448 by omega), if_neg h4]

/-- The words after a pool has been set up. -/
private theorem initFreeQueue_words {u : RvfMem} {size p k : Nat} (hk : poolSize size = k + 16) (hmod : k % 4 = 0)
    (h4 : 4 ≤ k) (hl : u.lists (bufListIndex k) = 0) :
    (∀ a, (u.initFreeQueue size p).mem a = if a = p + 4 then 0 else if a = p + k + 8 then k + 2
      else if a = p + k + 12 then 0 else if a = p then k + 2 else if a = p + 8 then 0 else u.mem a) ∧
    (∀ i, (u.initFreeQueue size p).lists i = if i = bufListIndex k then p else u.lists i) ∧
    (u.initFreeQueue size p).lastRemainder = p := by
  have hsz : (size + 3) / 4 * 4 - headerSize - 4 = k := by
    unfold poolSize at hk
    unfold headerSize
    omega
  obtain ⟨u1, hu1⟩ : ∃ u1, (u.store p k).store (p + 8) 0 = u1 := ⟨_, rfl⟩
  have hm1 : ∀ a, u1.mem a = if a = p + 8 then 0 else if a = p then k else u.mem a := by
    intro a
    rw [← hu1]
    rfl
  have hw : setPrevInUse (u1.mem p) = k + 2 := by
    rw [hm1, if_neg (by omega), if_pos rfl]
    unfold setPrevInUse
    omega
  obtain ⟨u2, hu2⟩ : ∃ u2, u1.store p (k + 2) = u2 := ⟨_, rfl⟩
  have hm2 : ∀ a, u2.mem a = if a = p then k + 2 else u1.mem a := by
    intro a
    rw [← hu2]
    rfl
  have hg2 : u2.getSize p = k := by
    unfold RvfMem.getSize maskSize
    rw [hm2, if_pos rfl]
    omega
  obtain ⟨u3, hu3⟩ : ∃ u3, u2.store (p + k + 12) 0 = u3 := ⟨_, rfl⟩
  have hm3 : ∀ a, u3.mem a = if a = p + k + 12 then 0 else u2.mem a := by
    intro a
    rw [← hu3]
    rfl
  have hp3 : u3.mem p = k + 2 := by
    rw [hm3, if_neg (by omega), hm2, if_pos rfl]
  have hend : u3.endSize p = p + k + 8 := by
    unfold RvfMem.endSize RvfMem.getSize maskSize headerSize
    rw [hp3]
    omega
  obtain ⟨u4, hu4⟩ : ∃ u4, u3.store (p + k + 8) (k + 2) = u4 := ⟨_, rfl⟩
  have hm4 : ∀ a, u4.mem a = if a = p + k + 8 then k + 2 else u3.mem a := by
    intro a
    rw [← hu4]
    rfl
  have hp4 : u4.mem p = k + 2 := by
    rw [hm4, if_neg (by omega), hp3]
  have hl4 : ∀ i, u4.lists i = u.lists i := by
    intro i
    rw [← hu4, ← hu3, ← hu2, ← hu1]
    rfl
  have hidx := bufListIndex_flag hmod
  have hnext : u2.nextChunk p = p + k + 12 := by
    unfold RvfMem.nextChunk headerSize
    rw [hg2]
  have hres : u.initFreeQueue size p =
      ((u4.store (p + 4) 0).setList (bufListIndex k) p).setLastRemainder p := by
    unfold RvfMem.initFreeQueue
    simp only [hsz, hu1, hw, hu2, hnext, hu3, hend, hp3, hu4, hp4, hidx, hl4, hl]
  rw [hres]
  refine ⟨fun a => ?_, fun i => ?_, rfl⟩
  · change (if a = p + 4 then 0 else u4.mem a) = _
    rw [hm4, hm3, hm2, hm1]
    by_cases ha : a = p
    · simp only [if_pos ha]
    · simp only [if_neg ha]
  · change (if i = bufListIndex k then p else u4.lists i) = _
    rw [hl4]

/-- A pool is set up. -/
private theorem setUp_inv {size p : Nat} (h : s.Inv areas) (hv : s.vacant size p = true)
    (hl : s.rvf.lists (bufListIndex (poolSize size - 16)) = 0) :
    Heap.Inv { s with rvf := s.rvf.initFreeQueue size p, pools := ⟨p, poolSize size⟩ :: s.pools }
      (⟨p, p + poolSize size - 4, [⟨p, poolSize size - 16, true, false⟩], false⟩ :: areas) := by
  unfold Heap.vacant at hv
  simp only [Bool.and_eq_true, bne_iff_ne, ne_eq, beq_iff_eq, decide_eq_true_eq, List.all_eq_true, Bool.or_eq_true] at hv
  obtain ⟨⟨⟨⟨hp0, -⟩, h20⟩, hbound⟩, hvac⟩ := hv
  have hpm : poolSize size % 4 = 0 := by
    unfold poolSize
    omega
  obtain ⟨k, hk⟩ : ∃ k, poolSize size = k + 16 := ⟨poolSize size - 16, by omega⟩
  rw [hk] at hvac hbound hpm h20 hl ⊢
  rw [show k + 16 - 16 = k by omega] at hl ⊢
  rw [show p + (k + 16) - 4 = p + k + 12 by omega]
  obtain ⟨hmem, hlists, hlast⟩ := initFreeQueue_words (p := p) hk (by omega) (by omega) hl
  obtain ⟨u, hu⟩ : ∃ u, s.rvf.initFreeQueue size p = u := ⟨_, rfl⟩
  rw [hu] at hmem hlists hlast ⊢
  have hL := h.layout
  -- the other areas are away from the new one
  have haway : ∀ A ∈ areas, p + k + 16 ≤ A.start ∨ A.stop + 4 ≤ p := by
    intro A hA
    have hle := (hL.shape.tiles A hA).le
    have := hvac A.pool (h.pools.mem_iff.1 (List.mem_map_of_mem hA))
    unfold Area.pool at this
    simp only at this
    omega
  have hplace : ∀ c, InAreas areas c → 4 ≤ c.size ∧ (p + k + 16 ≤ c.addr ∨ c.addr + c.size + 16 ≤ p) := by
    rintro c ⟨A, hA, hc⟩
    have h1 := (hL.shape.tiles A hA).bounds hc
    have h2 := haway A hA
    unfold Chunk.stop at h1
    omega
  have hkeep : ∀ a, p + k + 16 ≤ a ∨ a < p → u.mem a = s.rvf.mem a := by
    intro a ha
    rw [hmem, if_neg (by omega), if_neg (by omega), if_neg (by omega), if_neg (by omega), if_neg (by omega)]
  have hin : ∀ c, InAreas (⟨p, p + k + 12, [⟨p, k, true, false⟩], false⟩ :: areas) c ↔
      c = ⟨p, k, true, false⟩ ∨ InAreas areas c := by
    intro c
    constructor
    · rintro ⟨A, hA, hc⟩
      rcases List.mem_cons.1 hA with rfl | hA
      · exact .inl (List.mem_singleton.1 hc)
      · exact .inr ⟨A, hA, hc⟩
    · rintro (rfl | ⟨A, hA, hc⟩)
      · exact ⟨_, List.mem_cons_self, List.mem_singleton_self _⟩
      · exact ⟨A, List.mem_cons_of_mem _ hA, hc⟩
  have hp : u.mem p = k + 2 := by
    rw [hmem, if_neg (by omega), if_neg (by omega), if_neg (by omega), if_pos rfl]
  have hend : u.mem (p + k + 8) = k + 2 := by
    rw [hmem, if_neg (by omega), if_pos rfl]
  refine ⟨?_, ⟨⟨?_, ?_, ?_, List.pairwise_cons.2 ⟨fun A hA => ?_, hL.shape.apart⟩⟩, fun c hc => ?_, ?_, fun i hi => ?_, ?_,
    fun a => ?_, hL.nodup⟩, ?_⟩
  · rw [List.map_cons]
    have : Area.pool ⟨p, p + k + 12, [⟨p, k, true, false⟩], false⟩ = ⟨p, k + 16⟩ := by
      unfold Area.pool
      simp only [RvfPool.mk.injEq, true_and]
      omega
    rw [this]
    exact h.pools.cons _
  · refine List.forall_mem_cons.2 ⟨⟨rfl, rfl, show 4 ≤ k by omega, show k % 4 = 0 by omega, rfl, rfl⟩, hL.shape.tiles⟩
  · exact List.forall_mem_cons.2 ⟨⟨.inl rfl, trivial⟩, hL.shape.coalesced⟩
  · exact List.forall_mem_cons.2 ⟨⟨by change 0 < p; omega, by change p + k + 12 + 4 ≤ _; omega⟩, hL.shape.pos⟩
  · have := haway A hA
    change p + k + 12 + 4 ≤ A.start ∨ A.stop + 4 ≤ p
    omega
  · rcases (hin c).1 hc with rfl | hc
    · refine ⟨?_, ?_, fun _ => ?_⟩
      · change maskSize (u.mem p) = k
        rw [hp]
        unfold maskSize
        omega
      · change isPrevInUse (u.mem p) = true
        rw [hp]
        unfold isPrevInUse
        rw [show (k + 2) / 2 % 2 = 1 by omega]
        rfl
      · change isLinked (u.mem p) = false
        rw [hp]
        unfold isLinked
        rw [show (k + 2) % 2 = 0 by omega]
        rfl
    · have hw : u.mem c.addr = s.rvf.mem c.addr := by
        have := hplace c hc
        exact hkeep _ (by omega)
      have h3 := hL.heads c hc
      exact ⟨by rw [hw]; exact h3.size, by rw [hw]; exact h3.prev, by rw [hw]; exact h3.unlinked⟩
  · refine List.forall_mem_cons.2 ⟨?_, fun A hA => ?_⟩
    · change u.mem (p + k + 12) = marker false
      rw [hmem, if_neg (by omega), if_neg (by omega), if_pos rfl]
      rfl
    · have h1 := haway A hA
      have h2 := (hL.shape.tiles A hA).le
      rw [hkeep _ (by omega)]
      exact hL.markers A hA
  · obtain ⟨l, hlin, hmemb⟩ := hL.lists i hi
    have hother : Linear 0 (s.rvf.nextIn i) s.rvf.pPrev l → u.lists i = s.rvf.lists i →
        Linear 0 (u.nextIn i) u.pPrev l := by
      intro hlin hli
      refine hlin.congr (fun b hb => ?_) fun b hb => ?_
      · rcases List.mem_cons.1 hb with rfl | hb
        · exact hli
        · obtain ⟨c, hc, -, rfl, -⟩ := (hmemb b).1 hb
          have := hplace c hc
          unfold RvfMem.nextIn
          by_cases h0 : c.addr = 0
          · rw [if_pos h0, if_pos h0]
            exact hli
          · rw [if_neg h0, if_neg h0]
            exact hkeep _ (by omega)
      · obtain ⟨c, hc, -, rfl, -⟩ := (hmemb b).1 hb
        have := hplace c hc
        exact hkeep _ (by omega)
    by_cases hik : i = bufListIndex k
    · -- the list of the new chunk was empty
      have hnil : l = [] := hlin.empty_iff.1 (by change s.rvf.lists i = 0; rw [hik]; exact hl)
      rw [hnil] at hlin hmemb
      refine ⟨[p], (@linear_nil _ _ (s.rvf.nextIn i) s.rvf.pPrev (hlin.empty_iff.2 rfl)).push ?_ ?_ ?_ ?_
        (fun b hb => absurd hb List.not_mem_nil) fun b hb => absurd hb List.not_mem_nil, fun a => ?_⟩
      · exact fun hn => hp0 (List.mem_singleton.1 hn)
      · change u.lists i = p
        rw [hlists, if_pos hik]
      · have h0 : s.rvf.nextIn i 0 = 0 := hlin.empty_iff.2 rfl
        rw [h0]
        unfold RvfMem.nextIn
        rw [if_neg hp0]
        change u.mem (p + 4) = 0
        rw [hmem, if_pos rfl]
      · change u.mem (p + 8) = 0
        rw [hmem, if_neg (by omega), if_neg (by omega), if_neg (by omega), if_neg (by omega), if_pos rfl]
      · rw [List.mem_singleton]
        constructor
        · rintro rfl
          exact ⟨_, (hin _).2 (.inl rfl), rfl, rfl, hik.symm⟩
        · rintro ⟨c, hc, hf, ha, hi'⟩
          rcases (hin c).1 hc with rfl | hc
          · exact ha.symm
          · exact absurd ((hmemb a).2 ⟨c, hc, hf, ha, hi'⟩) List.not_mem_nil
    · refine ⟨l, hother hlin (by rw [hlists, if_neg hik]), fun a => (hmemb a).trans ?_⟩
      constructor
      · rintro ⟨c, hc, h'⟩
        exact ⟨c, (hin c).2 (.inr hc), h'⟩
      · rintro ⟨c, hc, hf, ha, hi'⟩
        rcases (hin c).1 hc with rfl | hc
        · exact absurd hi'.symm hik
        · exact ⟨c, hc, hf, ha, hi'⟩
  · exact .inr ⟨_, (hin _).2 (.inl rfl), rfl, hlast.symm⟩
  · change a ∈ s.held ↔ _
    rw [hL.buffers]
    constructor
    · rintro ⟨c, hc, h'⟩
      exact ⟨c, (hin c).2 (.inr hc), h'⟩
    · rintro ⟨c, hc, hcu, ha⟩
      rcases (hin c).1 hc with rfl | hc
      · cases hcu
      · exact ⟨c, hc, hcu, ha⟩
  · refine List.forall_mem_cons.2 ⟨.inr ⟨?_, rfl, ?_, ?_⟩, fun A hA => ?_⟩
    · change [(⟨p, k, true, false⟩ : Chunk)] = [⟨p, p + k + 12 - p - 12, true, false⟩]
      rw [show p + k + 12 - p - 12 = k by omega]
    · change u.mem p = p + k + 12 - p - 12 + 2
      rw [hp]
      omega
    · change u.mem (p + k + 12 - 4) = p + k + 12 - p - 12 + 2
      rw [show p + k + 12 - 4 = p + k + 8 by omega, hend]
      omega
    · have h1 := haway A hA
      have h2 := (hL.shape.tiles A hA).le
      refine (h.ends A hA).imp (fun hA' c hc hf => ?_) fun hset => ⟨hset.chunks, hset.used, ?_, ?_⟩
      · have := hplace c ⟨A, hA, hc⟩
        change u.mem _ = _
        rw [hkeep _ (by omega)]
        exact hA' c hc hf
      · change u.mem A.start = _
        rw [hkeep _ (by omega)]
        exact hset.first
      · have hb := (hL.shape.tiles A hA).bounds (hset.chunks ▸ List.mem_singleton_self _)
        unfold Chunk.stop at hb
        simp only at hb
        change u.mem (A.stop - 4) = _
        rw [hkeep _ (by omega)]
        exact hset.last

/-- The owner of a buffer writes a word; the size and the flag for the chunk in front stay in the header. -/
private theorem owner_inv {a v : Nat} (h : s.Inv areas) (hc : InAreas areas c) (hu : c.used = true)
    (h1 : c.addr ≤ a) (h2 : a < c.addr + c.size + 12)
    (hv : a = c.addr → maskSize v = maskSize (s.rvf.mem a) ∧ isPrevInUse v = isPrevInUse (s.rvf.mem a)) :
    Heap.Inv { s with rvf := s.rvf.store a v } areas := by
  obtain ⟨A, rest, xs, ys, hperm, hA⟩ := exists_focus hc
  have hL := h.layout
  obtain ⟨hshape, -, -, hiff, -⟩ := live_focus (hL.perm hperm).shape hA
  obtain ⟨f, hf⟩ : ∃ f, A.focus xs c ys = f := ⟨_, rfl⟩
  have hfa : f.addr = c.addr ∧ f.size = c.size ∧ f.stop = A.stop := by
    rw [← hf]
    exact ⟨rfl, rfl, rfl⟩
  rw [hf] at hshape hiff
  have hin : ∀ d, InAreas areas d ↔ d = c ∨ f.Live rest d := by
    intro d
    rw [← hiff]
    unfold InAreas
    simp only [hperm.mem_iff]
  obtain ⟨u, hu'⟩ : ∃ u, s.rvf.store a v = u := ⟨_, rfl⟩
  have hmem : ∀ b, u.mem b = if b = a then v else s.rvf.mem b := by
    intro b
    rw [← hu']
    rfl
  -- the words of the other chunks and the markers are not written
  have hkeep : ∀ b, f.Word rest b → u.mem b = s.rvf.mem b := by
    intro b hb
    have := hshape.word_outside hb
    rw [hmem, if_neg (by omega)]
  have hends : ∀ d, InAreas areas d → EndSize s.rvf.mem d → EndSize u.mem d := by
    intro d hd he hdf
    rcases (hin d).1 hd with rfl | hd
    · rw [hu] at hdf
      cases hdf
    · rw [hkeep _ (.inr (.inr ⟨d, hd, .inr ⟨hdf, rfl⟩⟩))]
      exact he hdf
  rw [hu']
  refine ⟨h.pools, ⟨hL.shape, fun d hd => ?_, fun B hB => ?_, hL.lists.congr ?_ (fun i => ?_) fun b hb => ?_, ?_, hL.buffers,
    hL.nodup⟩, fun B hB => ?_⟩
  · have h3 := hL.heads d hd
    rcases (hin d).1 hd with rfl | hd'
    · by_cases ha : a = d.addr
      · have hva := hv ha
        have hw : u.mem d.addr = v := by
          rw [hmem, if_pos ha.symm]
        rw [ha] at hva
        exact ⟨by rw [hw, hva.1]; exact h3.size, by rw [hw, hva.2]; exact h3.prev, fun hn => by rw [hu] at hn; cases hn⟩
      · have hw : u.mem d.addr = s.rvf.mem d.addr := by
          rw [hmem, if_neg (Ne.symm ha)]
        exact ⟨by rw [hw]; exact h3.size, by rw [hw]; exact h3.prev, by rw [hw]; exact h3.unlinked⟩
    · have hw := hkeep d.addr (.inr (.inr ⟨d, hd', .inl rfl⟩))
      exact ⟨by rw [hw]; exact h3.size, by rw [hw]; exact h3.prev, by rw [hw]; exact h3.unlinked⟩
  · have hB' : B = A ∨ B ∈ rest := List.mem_cons.1 (hperm.mem_iff.1 hB)
    rw [hkeep]
    · exact hL.markers B hB
    · rcases hB' with rfl | hB'
      · exact .inl hfa.2.2.symm
      · exact .inr (.inl ⟨B, hB', rfl⟩)
  · have hs := hshape.spaced c.used
    have hsub : ∀ d, InAreas areas d → f.Live rest d ∨ d = f.chunk c.used := by
      intro d hd
      refine ((hin d).1 hd).symm.imp_right fun hdc => ?_
      rw [hdc, ← hf]
      rfl
    exact ⟨fun d hd => hs.size d (hsub d hd), fun d hd => hs.pos d (hsub d hd),
      fun d e hd he => hs.apart d e (hsub d hd) (hsub e he)⟩
  · rw [← hu']
    rfl
  · obtain ⟨d, hd, hdf, hb⟩ := hb
    rcases (hin d).1 hd with rfl | hd'
    · rw [hu] at hdf
      cases hdf
    · have h4 := hshape.outside hd'
      have h5 := (hshape.spaced false).size d (.inl hd')
      unfold Chunk.stop at h4
      rw [hmem, if_neg (by omega)]
  · rw [← hu']
    exact hL.last
  · refine (h.ends B hB).imp (fun hB' d hd => hends d ⟨B, hB, hd⟩ (hB' d hd)) fun hset => ?_
    have hd : (⟨B.start, B.stop - B.start - 12, true, false⟩ : Chunk) ∈ B.chunks :=
      hset.chunks ▸ List.mem_singleton_self _
    have hlive : f.Live rest ⟨B.start, B.stop - B.start - 12, true, false⟩ := by
      refine ((hin _).1 ⟨B, hB, hd⟩).resolve_left fun hn => ?_
      rw [← hn] at hu
      cases hu
    have hb := (hL.shape.tiles B hB).bounds hd
    unfold Chunk.stop at hb
    simp only at hb
    refine ⟨hset.chunks, hset.used, ?_, ?_⟩
    · change u.mem B.start = _
      rw [hkeep _ (.inr (.inr ⟨_, hlive, .inl rfl⟩))]
      exact hset.first
    · change u.mem (B.stop - 4) = _
      rw [hkeep _ (.inr (.inr ⟨_, hlive, .inr ⟨rfl, ?_⟩⟩))]
      · exact hset.last
      · change B.stop - 4 = B.start + (B.stop - B.start - 12) + 8
        omega

/-- When no pool is as it was set up, the heap is intact. -/
private theorem Heap.Inv.intact (h : s.Inv areas) (hno : ∀ A ∈ areas, ¬ A.AsSetUp s.rvf.mem) :
    Intact s.rvf s.held areas :=
  ⟨h.layout, fun c ⟨A, hA, hc⟩ => (h.ends A hA).resolve_right (hno A hA) c hc⟩

private theorem pools_of_spans {areas' : List Area} {pools : List RvfPool} (h : (areas.map Area.pool).Perm pools)
    (hs : (areas'.map Area.span).Perm (areas.map Area.span)) : (areas'.map Area.pool).Perm pools := by
  have hmap : ∀ l : List Area, l.map Area.pool = (l.map Area.span).map fun q => ⟨q.1, q.2 + 4 - q.1⟩ := by
    intro l
    rw [List.map_map]
    rfl
  rw [hmap] at h ⊢
  exact (hs.map _).trans h

private theorem Intact.sound {pools : List RvfPool} {rvf : RvfMem} {held : List Nat} {returned : Nat}
    (h : Intact rvf held areas) (hp : (areas.map Area.pool).Perm pools) :
    Heap.Sound ⟨rvf, pools, held, returned⟩ areas := by
  refine ⟨hp, h, fun A hA => ?_⟩
  have hsum := (h.shape.tiles A hA).sum
  unfold Area.pool
  simp only
  omega

theorem Heap.Sound.inv (h : s.Sound areas) : s.Inv areas :=
  ⟨h.pools, h.intact.toLayout, fun A hA => .inl fun c hc => h.intact.ends c ⟨A, hA, hc⟩⟩

/-- A buffer that is found: it was free before, and it is as big as requested. -/
structure Heap.Found (s t : Heap) (areas areas' : List Area) (size : Nat) : Prop where
  free : ∃ c, InAreas areas c ∧ c.used = false ∧ c.addr = t.returned ∧ size ≤ c.size
  buffer : ∃ c, InAreas areas' c ∧ c.used = true ∧ c.addr = t.returned ∧ size ≤ c.size

/-- A call of `_find_buf` gives a sound heap. -/
private theorem find_sound {size : Nat} (h : s.Inv areas) (hok : HeapOp.sound s (.find size) = true)
    (hs : s.step (.find size) = some t) :
    ∃ areas', t.Sound areas' ∧ (t.returned ≠ 0 → s.Found t areas areas' size) := by
  unfold HeapOp.sound at hok
  simp only at hok
  rw [Bool.and_eq_true, decide_eq_true_eq, List.all_eq_true] at hok
  obtain ⟨hsize, hpools⟩ := hok
  unfold Heap.step at hs
  simp only at hs
  rw [if_pos (by omega)] at hs
  cases hs
  by_cases hno : ∀ A ∈ areas, ¬ A.AsSetUp s.rvf.mem
  · -- no pool is as it was set up
    rcases findBuf_spec (h.intact hno) hsize with ⟨h0, hI⟩ | ⟨h0, areas', hserved⟩
    · refine ⟨areas, ?_, fun hn => absurd h0 hn⟩
      rw [if_pos h0]
      exact hI.sound h.pools
    · rw [if_neg h0]
      refine ⟨areas', hserved.intact.sound (pools_of_spans h.pools hserved.spans), fun _ => ?_⟩
      exact ⟨hserved.free, hserved.buffer⟩
  · -- the request is served from the pool that is as it was set up
    have hex : ∃ A ∈ areas, A.AsSetUp s.rvf.mem := by
      exact Classical.byContradiction fun hn => hno fun A hA hset => hn ⟨A, hA, hset⟩
    have hlast : ∀ A ∈ areas, A.AsSetUp s.rvf.mem → A.start = s.rvf.lastRemainder ∧ s.rvf.fromLast size = true := by
      intro A hA hset
      have := hpools A.pool (h.pools.mem_iff.1 (List.mem_map_of_mem hA))
      rw [asSetUp_pool h.layout hA hset, Bool.not_true, Bool.false_or, Bool.and_eq_true, beq_iff_eq] at this
      exact this
    obtain ⟨A, hA, hset⟩ := hex
    obtain ⟨hAl, hfrom⟩ := hlast A hA hset
    unfold RvfMem.fromLast at hfrom
    simp only [Bool.and_eq_true, decide_eq_true_eq, Bool.or_eq_true, beq_iff_eq] at hfrom
    obtain ⟨⟨hpos, hfit⟩, hlist⟩ := hfrom
    rw [or_assoc] at hlist
    have hends : ∀ c, InAreas areas c → c.addr ≠ s.rvf.lastRemainder → EndSize s.rvf.mem c := by
      rintro c ⟨B, hB, hc⟩ hne
      rcases h.ends B hB with hB' | hB'
      · exact hB' c hc
      · rw [hB'.chunks] at hc
        refine absurd ?_ hne
        rw [List.mem_singleton.1 hc]
        exact (hlast B hB hB').1
    have hq0 : s.rvf.lastRemainder ≠ 0 := by
      have := (h.layout.shape.pos A hA).1
      omega
    obtain ⟨hret, areas', hserved⟩ := findBuf_fresh h.layout hsize hpos hends rfl hq0 hfit hlist
    rw [hret, if_neg hq0]
    refine ⟨areas', hserved.intact.sound (pools_of_spans h.pools hserved.spans), fun _ => ?_⟩
    exact ⟨hserved.free, hserved.buffer⟩

/-- A call of `_release_buf` gives a sound heap. -/
private theorem release_sound {p : Nat} (h : s.Inv areas) (hok : HeapOp.sound s (.release p) = true)
    (hs : s.step (.release p) = some t) : ∃ areas', t.Sound areas' := by
  unfold HeapOp.sound at hok
  simp only at hok
  rw [List.all_eq_true] at hok
  have hno : ∀ A ∈ areas, ¬ A.AsSetUp s.rvf.mem := by
    intro A hA hset
    have := hok A.pool (h.pools.mem_iff.1 (List.mem_map_of_mem hA))
    rw [asSetUp_pool h.layout hA hset] at this
    cases this
  unfold Heap.step at hs
  simp only at hs
  split at hs
  · rename_i hp
    cases hs
    rcases releaseBuf_spec (h.intact hno) hp with heq | ⟨hok, areas', hI, hspans⟩
    · rw [heq]
      exact ⟨areas, (h.intact hno).sound h.pools⟩
    · rw [hok]
      exact ⟨areas', hI.sound (pools_of_spans h.pools hspans)⟩
  · cases hs

private theorem step_inv_heap {e : HeapOp} (h : s.Inv areas) (hok : e.sound s = true) (hs : s.step e = some t) :
    ∃ areas', t.Inv areas' := by
  cases e with
  | setUp size p =>
    unfold Heap.step at hs
    simp only at hs
    split at hs
    · rename_i hv
      cases hs
      exact ⟨_, setUp_inv h hv (beq_iff_eq.1 hok)⟩
    · cases hs
  | find size =>
    obtain ⟨areas', ht, -⟩ := find_sound h hok hs
    exact ⟨areas', ht.inv⟩
  | release p =>
    obtain ⟨areas', ht⟩ := release_sound h hok hs
    exact ⟨areas', ht.inv⟩
  | write a v =>
    unfold Heap.step at hs
    simp only at hs
    split at hs
    · rename_i hv
      cases hs
      obtain ⟨p, hp, hpa⟩ := List.any_eq_true.1 hv.2
      rw [Bool.and_eq_true, decide_eq_true_eq, decide_eq_true_eq] at hpa
      obtain ⟨c, hc, hu, rfl⟩ := (h.layout.buffers p).1 hp
      have hsz : s.rvf.getSize c.addr = c.size := (h.layout.heads c hc).size
      rw [hsz] at hpa
      unfold headerSize at hpa
      exact ⟨areas, owner_inv h hc hu (by omega) hpa.2 fun hn => by omega⟩
    · cases hs
  | link p linked =>
    unfold Heap.step at hs
    simp only at hs
    split at hs
    · rename_i hp
      cases hs
      obtain ⟨c, hc, hu, rfl⟩ := (h.layout.buffers p).1 hp
      refine ⟨areas, owner_inv h hc hu (Nat.le_refl _) (by omega) fun _ => ?_⟩
      unfold maskSize isPrevInUse
      cases linked with
      | true =>
        change (_ / 2 * 2 + 1) / 4 * 4 = _ ∧ ((_ / 2 * 2 + 1) / 2 % 2 == 1) = _
        rw [show ∀ w, (w / 2 * 2 + 1) / 4 * 4 = w / 4 * 4 by omega, show ∀ w, (w / 2 * 2 + 1) / 2 = w / 2 by omega]
        exact ⟨rfl, rfl⟩
      | false =>
        change (_ / 2 * 2) / 4 * 4 = _ ∧ ((_ / 2 * 2) / 2 % 2 == 1) = _
        rw [show ∀ w, (w / 2 * 2) / 4 * 4 = w / 4 * 4 by omega, show ∀ w, (w / 2 * 2) / 2 = w / 2 by omega]
        exact ⟨rfl, rfl⟩
    · cases hs

end

/-- After each call the pools are tiled by chunks, the free ones are in their lists, and a buffer that is found was free
before and is as big as requested. -/
theorem heap_sound {s t : Heap} {e : HeapOp} (h : heap.machine.Reach HeapOp.sound s) (hok : e.sound s = true)
    (hcall : e.isCall = true) (hs : heap.machine.step s e = some t) :
    ∃ areas areas', Layout s.rvf s.held areas ∧ t.Sound areas' ∧
      ∀ size, e = .find size → t.returned ≠ 0 → s.Found t areas areas' size := by
  have hinv : ∃ areas, s.Inv areas := by
    refine h.invariant (I := fun s => ∃ areas, s.Inv areas) (fun s hs => ⟨[], init_inv_heap hs⟩) ?_
    rintro s e t ⟨areas, hs⟩ hok hst
    exact step_inv_heap hs hok hst
  obtain ⟨areas, hinv⟩ := hinv
  cases e with
  | find size =>
    obtain ⟨areas', ht, hfound⟩ := find_sound hinv hok hs
    refine ⟨areas, areas', hinv.layout, ht, fun size' he => ?_⟩
    cases he
    exact hfound
  | release p =>
    obtain ⟨areas', ht⟩ := release_sound hinv hok hs
    exact ⟨areas, areas', hinv.layout, ht, fun size he => (by cases he)⟩
  | setUp => cases hcall
  | write => cases hcall
  | link => cases hcall

/-! ### A pool of 200 octets -/

namespace heap

def empty : Heap := ⟨⟨fun _ => 0, fun _ => 0, 0⟩, [], [], 0⟩

private theorem empty_init : machine.init empty := ⟨rfl, rfl, rfl, rfl⟩

/-- A pool is set up, three buffers are found, two of them are released. -/
def traffic : List HeapOp :=
  [.setUp 200 0x1000, .find 20, .find 30, .find 10, .write 0x1014 7, .release 0x1000, .release 0x1024]

private theorem traffic_run : (machine.run HeapOp.sound empty traffic).any (fun s => HeapOp.sound s (.find 60) &&
    (machine.step s (.find 60)).any fun t => decide (t.pools = [⟨0x1000, 200⟩] ∧ t.returned = 0x1000)) := by
  decide +kernel

/-- The two buffers have become one, and it is found again. -/
theorem sound_traffic : ∃ (t : Heap) (areas' : List Area), t.Sound areas' ∧ t.pools = [⟨0x1000, 200⟩] ∧
    t.returned = 0x1000 := by
  obtain ⟨s, hrun, hs⟩ := (Option.any_eq_true ..).1 traffic_run
  obtain ⟨hok, hs⟩ := (Bool.and_eq_true ..).mp hs
  obtain ⟨t, hnext, hend⟩ := (Option.any_eq_true ..).1 hs
  obtain ⟨-, areas', -, hsound, -⟩ := heap_sound (e := .find 60) (.of_run (.init empty_init) hrun) hok rfl hnext
  exact ⟨t, areas', hsound, of_decide_eq_true hend⟩

/-- A pool is set up, and a request is too big for it. -/
def tooBig : List HeapOp := [.setUp 200 0x1000, .find 1000]

private theorem tooBig_isSome : (machine.run (fun _ _ => true) empty tooBig).isSome := by decide +kernel

/-- The free buffer of the pool has a flag in the word at its end; taken as a whole, it cannot be released any more. -/
theorem end_flag : ∃ s : Heap, machine.Reach (fun _ _ => true) s ∧ s.returned = 0 ∧ (∀ areas, ¬ s.Sound areas) ∧
    (s.rvf.findBuf 180).2 = 0x1000 ∧ ((s.rvf.findBuf 180).1.releaseBuf 0x1000).2 = false := by
  have hrun := (Option.some_get tooBig_isSome).symm
  refine ⟨_, .of_run (.init empty_init) hrun, by decide +kernel, fun areas h => ?_, by decide +kernel, by decide +kernel⟩
  have hp : areas.map Area.pool = [⟨0x1000, 200⟩] := by
    rw [← List.perm_singleton]
    exact h.pools.trans (by rw [show Heap.pools _ = [⟨0x1000, 200⟩] by decide +kernel])
  obtain ⟨A, rest, rfl⟩ := List.exists_cons_of_length_pos (l := areas) (by
    have := congrArg List.length hp
    simp only [List.length_map, List.length_singleton] at this
    omega)
  rw [List.map_cons, List.cons.injEq] at hp
  have hA : A ∈ A :: rest := List.mem_cons_self
  have hstart : A.start = 0x1000 := congrArg RvfPool.startAddress hp.1
  have hstop : A.stop + 4 - A.start = 200 := congrArg RvfPool.poolSize hp.1
  have htiles := h.intact.shape.tiles A hA
  have hmark := h.intact.markers A hA
  have hle := htiles.le
  rw [show A.stop = 0x10c4 by omega] at htiles hmark
  rw [hstart] at htiles
  -- the first chunk is as big as the pool, and nothing marks it as in use
  cases hcs : A.chunks with
  | nil =>
    rw [hcs] at htiles
    exact absurd htiles.1 (by decide)
  | cons c cs =>
    have hc : InAreas (A :: rest) c := ⟨A, hA, hcs ▸ List.mem_cons_self⟩
    rw [hcs] at htiles
    obtain ⟨haddr, -, -, -, htiles⟩ := htiles
    have hsize := (h.intact.heads c hc).size
    rw [haddr] at hsize
    have hsz : c.size = 184 := hsize.symm.trans (by decide +kernel)
    unfold Chunk.stop at htiles
    rw [haddr, hsz] at htiles
    have hused : c.used = false := by
      cases cs with
      | nil =>
        rw [htiles.2]
        refine Bool.eq_false_iff.2 fun hu => ?_
        rw [hu] at hmark
        revert hmark
        decide +kernel
      | cons d ds =>
        have := (htiles.2.2.2.2).le
        obtain ⟨hd, -, h4, -, -⟩ := htiles
        unfold Chunk.stop at this
        omega
    have hend := h.intact.ends c hc hused
    rw [haddr, hsz] at hend
    revert hend
    decide +kernel

end heap

end Citrine.Rvf
