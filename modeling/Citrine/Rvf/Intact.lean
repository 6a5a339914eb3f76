import Citrine.Rvf.Merge

/-!
# The heap between two calls

Between two calls the areas are tiled by chunks with their headers, every free chunk is in the list of its size, and the
chunks in use are the buffers that are held (`Layout`); in an intact heap every free chunk has its size at its end
(`Intact`).  A chunk is taken into the focus (`Layout.focus`), and given back free or in use.
-/

namespace Citrine.Rvf

/-- The chunks of the areas. -/
def InAreas (areas : List Area) (c : Chunk) : Prop := ∃ A ∈ areas, c ∈ A.chunks

/-- The heap, up to the sizes at the ends of free chunks. -/
structure Layout (s : RvfMem) (held : List Nat) (areas : List Area) : Prop where
  shape : Areas areas
  heads : ∀ c, InAreas areas c → Head s.mem c
  markers : ∀ A ∈ areas, s.mem A.stop = marker A.used
  lists : Listed s (InAreas areas)
  last : s.lastRemainder = 0 ∨ ∃ c, InAreas areas c ∧ c.used = false ∧ c.addr = s.lastRemainder
  buffers : ∀ a, a ∈ held ↔ ∃ c, InAreas areas c ∧ c.used = true ∧ c.addr = a
  nodup : held.Nodup

/-- The heap between two calls. -/
structure Intact (s : RvfMem) (held : List Nat) (areas : List Area) : Prop extends Layout s held areas where
  ends : ∀ c, InAreas areas c → EndSize s.mem c

/-- A chunk of an area in the middle. -/
def Area.focus (A : Area) (xs : List Chunk) (c : Chunk) (ys : List Chunk) : Focus :=
  ⟨A.start, A.stop, c.addr, c.size, xs, ys, c.prevUsed, c.used, A.used⟩

/-- The area with the chunk from the middle. -/
def Focus.area (f : Focus) (b : Bool) : Area :=
  ⟨f.start, f.stop, f.front ++ f.chunk b :: f.back, f.lastUsed⟩

section
variable {f : Focus} {A : Area} {areas rest : List Area} {c d : Chunk} {s t : RvfMem} {held : List Nat}
  {xs ys : List Chunk} {b : Bool}

private theorem inAreas_perm {areas' : List Area} (hp : areas.Perm areas') (c : Chunk) :
    InAreas areas c ↔ InAreas areas' c := by
  unfold InAreas
  simp only [hp.mem_iff]

/-- The order of the areas does not matter. -/
theorem Layout.perm {areas' : List Area} (h : Layout s held areas) (hp : areas.Perm areas') : Layout s held areas' := by
  have hiff := inAreas_perm hp
  refine ⟨⟨fun A hA => h.shape.tiles A (hp.mem_iff.2 hA), fun A hA => h.shape.coalesced A (hp.mem_iff.2 hA),
    fun A hA => h.shape.pos A (hp.mem_iff.2 hA), h.shape.apart.perm hp fun h => Or.symm h⟩,
    fun c hc => h.heads c ((hiff c).2 hc), fun A hA => h.markers A (hp.mem_iff.2 hA), h.lists.sized fun i a => ?_, ?_,
    fun a => ?_, h.nodup⟩
  · unfold Sized
    simp only [hiff]
  · simp only [← hiff]
    exact h.last
  · rw [h.buffers]
    simp only [hiff]

theorem Intact.perm {areas' : List Area} (h : Intact s held areas) (hp : areas.Perm areas') : Intact s held areas' :=
  ⟨h.toLayout.perm hp, fun c hc => h.ends c ((inAreas_perm hp c).2 hc)⟩

/-- An area with a chunk can be put first, and its chunks around the chunk are known. -/
theorem exists_focus (hc : InAreas areas c) :
    ∃ A rest xs ys, areas.Perm (A :: rest) ∧ A.chunks = xs ++ c :: ys := by
  obtain ⟨A, hA, hcA⟩ := hc
  obtain ⟨l, m, rfl⟩ := List.append_of_mem hA
  obtain ⟨xs, ys, hxy⟩ := List.append_of_mem hcA
  exact ⟨A, l ++ m, xs, ys, List.perm_middle, hxy⟩

/-- The chunk in the middle and the other ones. -/
theorem live_focus (h : Areas (A :: rest)) (hA : A.chunks = xs ++ c :: ys) :
    (A.focus xs c ys).Shape rest ∧ Coalesced c.used ys ∧ (c.prevUsed = true ∨ c.used = true) ∧
      (∀ d, InAreas (A :: rest) d ↔ d = c ∨ (A.focus xs c ys).Live rest d) ∧ ¬ (A.focus xs c ys).Live rest c := by
  have hmem : A ∈ A :: rest := List.mem_cons_self
  have ht := h.tiles A hmem
  have hco := h.coalesced A hmem
  rw [hA] at ht hco
  obtain ⟨hx, hy, h4, hm⟩ := ht.focus
  have hco' := (coalesced_append hx).1 hco
  have hap := List.pairwise_cons.1 h.apart
  have hshape : (A.focus xs c ys).Shape rest :=
    ⟨hx, hy, hco'.1, hco'.2.2.weaken, h4, hm, h.pos A hmem,
      ⟨fun B hB => h.tiles B (List.mem_cons_of_mem _ hB), fun B hB => h.coalesced B (List.mem_cons_of_mem _ hB),
        fun B hB => h.pos B (List.mem_cons_of_mem _ hB), hap.2⟩, hap.1⟩
  refine ⟨hshape, hco'.2.2, hco'.2.1, fun d => ?_, hshape.not_live c.used⟩
  constructor
  · rintro ⟨B, hB, hd⟩
    rcases List.mem_cons.1 hB with rfl | hB
    · rw [hA] at hd
      rcases List.mem_append.1 hd with hd | hd
      · exact .inr (.inl hd)
      · exact (List.mem_cons.1 hd).imp_right fun hd => .inr (.inl hd)
    · exact .inr (.inr (.inr ⟨B, hB, hd⟩))
  · rintro (rfl | hd | hd | ⟨B, hB, hd⟩)
    · exact ⟨A, hmem, hA ▸ List.mem_append_right _ List.mem_cons_self⟩
    · exact ⟨A, hmem, hA ▸ List.mem_append_left _ hd⟩
    · exact ⟨A, hmem, hA ▸ List.mem_append_right _ (List.mem_cons_of_mem _ hd)⟩
    · exact ⟨B, List.mem_cons_of_mem _ hB, hd⟩

/-- A chunk is taken into the focus. -/
theorem Layout.focus (h : Layout s held (A :: rest)) (hA : A.chunks = xs ++ c :: ys)
    (hends : ∀ d, (A.focus xs c ys).Live rest d → EndSize s.mem d) (hunl : isLinked (s.mem c.addr) = false) :
    Focused s (held.erase c.addr) rest (A.focus xs c ys) (!c.used) ∧
      isPrevInUse (s.mem c.addr) = (A.focus xs c ys).prevUsed := by
  obtain ⟨hshape, -, -, hiff, hnot⟩ := live_focus h.shape hA
  have hc : InAreas (A :: rest) c := (hiff c).2 (.inl rfl)
  have hsep : ∀ d, (A.focus xs c ys).Live rest d → d.addr ≠ c.addr := by
    intro d hd hda
    have h1 := hshape.outside hd
    have h2 := (hshape.spaced c.used).size d (.inl hd)
    change d.stop ≤ c.addr ∨ c.addr + c.size + 12 ≤ d.addr at h1
    unfold Chunk.stop at h1
    omega
  refine ⟨⟨hshape, (h.heads c hc).size, hunl, fun d hd => h.heads d ((hiff d).2 (.inr hd)), hends,
    h.markers A List.mem_cons_self, fun B hB => h.markers B (List.mem_cons_of_mem _ hB), h.lists.sized fun i a => ?_,
    fun a => ?_, h.nodup.erase _⟩, (h.heads c hc).prev⟩
  · constructor
    · rintro ⟨d, hd, hf, ha, hi⟩
      rcases (hiff d).1 hd with rfl | hd
      · have hd : d = (A.focus xs d ys).chunk false := by
          unfold Focus.chunk Area.focus
          rw [← hf]
        exact ⟨d, .inr ⟨by rw [hf]; rfl, hd⟩, hf, ha, hi⟩
      · exact ⟨d, .inl hd, hf, ha, hi⟩
    · rintro ⟨d, hd | ⟨hn, rfl⟩, hf, ha, hi⟩
      · exact ⟨d, (hiff d).2 (.inr hd), hf, ha, hi⟩
      · rw [Bool.not_eq_true'] at hn
        exact ⟨c, hc, hn, ha, hi⟩
  · rw [h.nodup.mem_erase_iff, h.buffers]
    constructor
    · rintro ⟨hne, d, hd, hu, rfl⟩
      rcases (hiff d).1 hd with rfl | hd
      · exact absurd rfl hne
      · exact ⟨d, hd, hu, rfl⟩
    · rintro ⟨d, hd, hu, rfl⟩
      exact ⟨hsep d hd, d, (hiff d).2 (.inr hd), hu, rfl⟩

/-- What the last remainder may be, with a chunk in the middle. -/
def Focus.Last (f : Focus) (rest : List Area) (x : Nat) : Prop :=
  x = 0 ∨ ∃ c, f.Live rest c ∧ c.used = false ∧ c.addr = x

/-- The chunk in the middle is given back. -/
private theorem Focused.close (h : Focused s held rest f (!b)) (hprev : isPrevInUse (s.mem f.addr) = f.prevUsed)
    (hend : b = false → s.mem (f.addr + f.size + 8) = f.size) (hused : f.used = b)
    (hco : (f.prevUsed = true ∨ b = true) ∧ Coalesced b f.back)
    (hlast : f.Last rest s.lastRemainder ∨ b = false ∧ s.lastRemainder = f.addr) :
    Intact s (if b then f.addr :: held else held) (f.area b :: rest) := by
  have hiff : ∀ c, InAreas (f.area b :: rest) c ↔ c = f.chunk b ∨ f.Live rest c := by
    intro c
    constructor
    · rintro ⟨B, hB, hc⟩
      rcases List.mem_cons.1 hB with rfl | hB
      · rcases List.mem_append.1 hc with hc | hc
        · exact .inr (.inl hc)
        · exact (List.mem_cons.1 hc).imp_right fun hc => .inr (.inl hc)
      · exact .inr (.inr (.inr ⟨B, hB, hc⟩))
    · rintro (rfl | hc | hc | ⟨B, hB, hc⟩)
      · exact ⟨_, List.mem_cons_self, List.mem_append_right _ List.mem_cons_self⟩
      · exact ⟨_, List.mem_cons_self, List.mem_append_left _ hc⟩
      · exact ⟨_, List.mem_cons_self, List.mem_append_right _ (List.mem_cons_of_mem _ hc)⟩
      · exact ⟨B, List.mem_cons_of_mem _ hB, hc⟩
  have hsep : ∀ c, f.Live rest c → c.addr ≠ f.addr := by
    intro c hc hca
    have h1 := h.shape.outside hc
    have h2 := (h.shape.spaced b).size c (.inl hc)
    unfold Chunk.stop at h1
    omega
  have htiles : Tiles f.start true (f.front ++ f.chunk b :: f.back) f.stop f.lastUsed := by
    refine tiles_append.2 ⟨_, _, h.shape.front, rfl, rfl, h.shape.size, h.shape.mod, ?_⟩
    change Tiles (f.addr + f.size + 12) b f.back f.stop f.lastUsed
    rw [← hused]
    exact h.shape.back
  refine ⟨⟨⟨?_, ?_, ?_, List.pairwise_cons.2 ⟨h.shape.away, h.shape.areas.apart⟩⟩, fun c hc => ?_, ?_, h.lists.sized
    fun i a => ?_, ?_, fun a => ?_, ?_⟩, fun c hc hf => ?_⟩
  · exact List.forall_mem_cons.2 ⟨htiles, h.shape.areas.tiles⟩
  · exact List.forall_mem_cons.2 ⟨(coalesced_append h.shape.front).2 ⟨h.shape.frontCoalesced, hco⟩,
      h.shape.areas.coalesced⟩
  · exact List.forall_mem_cons.2 ⟨h.shape.pos, h.shape.areas.pos⟩
  · rcases (hiff c).1 hc with rfl | hc
    · exact ⟨h.size, hprev, fun _ => h.unlinked⟩
    · exact h.heads c hc
  · exact List.forall_mem_cons.2 ⟨h.stop, h.markers⟩
  · constructor
    · rintro ⟨c, hc | ⟨hb, rfl⟩, hf, ha, hi⟩
      · exact ⟨c, (hiff c).2 (.inr hc), hf, ha, hi⟩
      · rw [Bool.not_eq_true'] at hb
        exact ⟨f.chunk b, (hiff _).2 (.inl rfl), hb, ha, hi⟩
    · rintro ⟨c, hc, hf, ha, hi⟩
      rcases (hiff c).1 hc with rfl | hc
      · change b = false at hf
        exact ⟨f.chunk false, .inr ⟨by rw [hf]; rfl, rfl⟩, rfl, ha, hi⟩
      · exact ⟨c, .inl hc, hf, ha, hi⟩
  · rcases hlast with (h0 | ⟨c, hc, hf, ha⟩) | ⟨hb, hl⟩
    · exact .inl h0
    · exact .inr ⟨c, (hiff c).2 (.inr hc), hf, ha⟩
    · exact .inr ⟨f.chunk b, (hiff _).2 (.inl rfl), hb, hl.symm⟩
  · cases b with
    | true =>
      rw [if_pos rfl, List.mem_cons, h.buffers]
      constructor
      · rintro (rfl | ⟨c, hc, hu, ha⟩)
        · exact ⟨f.chunk true, (hiff _).2 (.inl rfl), rfl, rfl⟩
        · exact ⟨c, (hiff c).2 (.inr hc), hu, ha⟩
      · rintro ⟨c, hc, hu, ha⟩
        rcases (hiff c).1 hc with rfl | hc
        · exact .inl ha.symm
        · exact .inr ⟨c, hc, hu, ha⟩
    | false =>
      rw [if_neg Bool.false_ne_true, h.buffers]
      constructor
      · rintro ⟨c, hc, hu, ha⟩
        exact ⟨c, (hiff c).2 (.inr hc), hu, ha⟩
      · rintro ⟨c, hc, hu, ha⟩
        rcases (hiff c).1 hc with rfl | hc
        · cases hu
        · exact ⟨c, hc, hu, ha⟩
  · cases b with
    | true =>
      refine List.nodup_cons.2 ⟨fun hmem => ?_, h.nodup⟩
      obtain ⟨c, hc, -, ha⟩ := (h.buffers _).1 hmem
      exact hsep c hc ha
    | false => exact h.nodup
  · rcases (hiff c).1 hc with rfl | hc
    · exact hend hf
    · exact h.ends c hc hf

/-- The chunk in the middle is given back as a free one. -/
theorem Focused.close_free (h : Focused s held rest f true) (hprev : isPrevInUse (s.mem f.addr) = f.prevUsed)
    (hend : s.mem (f.addr + f.size + 8) = f.size) (hused : f.used = false) (hpu : f.prevUsed = true)
    (hco : Coalesced false f.back) (hlast : f.Last rest s.lastRemainder ∨ s.lastRemainder = f.addr) :
    Intact s held (f.area false :: rest) :=
  Focused.close (b := false) h hprev (fun _ => hend) hused ⟨.inl hpu, hco⟩ (hlast.imp_right fun hl => ⟨rfl, hl⟩)

/-- The chunk in the middle is given back as one in use. -/
theorem Focused.close_used (h : Focused s held rest f false) (hprev : isPrevInUse (s.mem f.addr) = f.prevUsed)
    (hused : f.used = true) (hlast : f.Last rest s.lastRemainder) :
    Intact s (f.addr :: held) (f.area true :: rest) :=
  Focused.close (b := true) h hprev (fun hn => (by cases hn)) hused ⟨.inr rfl, h.shape.backCoalesced⟩ (.inl hlast)

end

end Citrine.Rvf
