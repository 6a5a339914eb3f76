import Citrine.Rvf.Steps

/-!
# Flags, merging and splitting

The flag of the chunk in the middle is kept in the chunk behind it (`Focused.mark`).  The chunk is merged with a free
neighbour (`Focused.absorbRight`, `Focused.absorbLeft`), or cut in two (`Focused.split`).
-/

namespace Citrine.Rvf

/-- The flag in the chunk behind the one in the middle is set. -/
def Focus.mark (f : Focus) (b : Bool) : Focus :=
  match f.back with
  | [] => { f with used := b, lastUsed := b }
  | d :: ys => { f with used := b, back := { d with prevUsed := b } :: ys }

section
variable {f : Focus} {rest : List Area} {c d : Chunk} {s t : RvfMem} {held : List Nat} {listed : Bool} {xs ys : List Chunk}

theorem Focus.mark_addr (f : Focus) (b : Bool) : (f.mark b).addr = f.addr ∧ (f.mark b).size = f.size ∧
    (f.mark b).prevUsed = f.prevUsed ∧ (f.mark b).used = b ∧ (f.mark b).front = f.front ∧ (f.mark b).start = f.start ∧
    (f.mark b).stop = f.stop := by
  unfold Focus.mark
  split
  · exact ⟨rfl, rfl, rfl, rfl, rfl, rfl, rfl⟩
  · exact ⟨rfl, rfl, rfl, rfl, rfl, rfl, rfl⟩

/-- The chunk behind the one in the middle and the other ones. -/
theorem Focus.Shape.live_back (h : f.Shape rest) (hback : f.back = d :: ys) :
    (∀ c, f.Live rest c ↔ c = d ∨ Focus.Live { f with back := ys } rest c) ∧
      ¬ Focus.Live { f with back := ys } rest d := by
  have hb := h.back
  rw [hback] at hb
  obtain ⟨hda, -, hd4, -, hys⟩ := hb
  refine ⟨fun c => ?_, ?_⟩
  · unfold Focus.Live
    rw [hback, List.mem_cons]
    exact ⟨fun hc => by tauto, fun hc => by tauto⟩
  · have hle := h.front.le
    rintro (hc | hc | ⟨A, hA, hc⟩)
    · have := (h.front.bounds hc).2.1
      unfold Chunk.stop at this
      omega
    · have := (hys.bounds hc).1
      unfold Chunk.stop at this
      omega
    · have h1 := (h.areas.tiles A hA).bounds hc
      have h2 := h.away A hA
      have h3 := hys.le
      unfold Chunk.stop at *
      omega

/-- The chunk in front of the one in the middle and the other ones. -/
theorem Focus.Shape.live_front (h : f.Shape rest) (hfront : f.front = xs ++ [d]) :
    (∀ c, f.Live rest c ↔ c = d ∨ Focus.Live { f with front := xs } rest c) ∧
      ¬ Focus.Live { f with front := xs } rest d := by
  have hb := h.front
  rw [hfront] at hb
  obtain ⟨hxs, hd, hd4, -⟩ := hb.focus
  have hstop := hd.le
  refine ⟨fun c => ?_, ?_⟩
  · unfold Focus.Live
    rw [hfront, List.mem_append, List.mem_singleton]
    exact ⟨fun hc => by tauto, fun hc => by tauto⟩
  · have hle := h.back.le
    have hle' := hxs.le
    unfold Chunk.stop at hstop
    rintro (hc | hc | ⟨A, hA, hc⟩)
    · have := (hxs.bounds hc).2.1
      unfold Chunk.stop at this
      omega
    · have := (h.back.bounds hc).1
      omega
    · have h1 := (h.areas.tiles A hA).bounds hc
      have h2 := h.away A hA
      unfold Chunk.stop at *
      omega

/-- The end marker is behind the chunk. -/
private theorem mark_stop (h : Focused s held rest f listed) (hback : f.back = []) (b : Bool) :
    Focused (s.store f.stop (setPrev b (s.mem f.stop))) held rest { f with used := b, lastUsed := b } listed := by
  have hb := h.shape.back
  rw [hback] at hb
  have haddr : f.addr < f.stop := by
    have := hb.1
    omega
  have hne : ∀ c, f.Linked rest listed c → f.stop < c.addr ∨ c.stop ≤ f.stop :=
    fun c hc => (h.shape.marker_outside (b := false) (hc.imp_right And.right)).1
  have hsize := @Focus.Shape.spaced_linked _ _ listed h.shape
  refine ⟨⟨h.shape.front, ?_, h.shape.frontCoalesced, h.shape.backCoalesced, h.shape.size, h.shape.mod, h.shape.pos,
    h.shape.areas, h.shape.away⟩, ?_, ?_, fun c hc => ?_, fun c hc hf => ?_, ?_, fun A hA => ?_,
    h.lists.congr hsize (fun _ => rfl) fun a ha => ?_, h.buffers, h.nodup⟩
  · change Tiles _ b f.back f.stop b
    rw [hback]
    exact ⟨hb.1, rfl⟩
  · rw [RvfMem.store_mem, if_neg (by change f.addr ≠ f.stop; omega)]
    exact h.size
  · rw [RvfMem.store_mem, if_neg (by change f.addr ≠ f.stop; omega)]
    exact h.unlinked
  · have h1 := hne c (.inl hc)
    have h2 := hsize.size c (.inl hc)
    have h3 := h.heads c hc
    have h4 : (s.store f.stop (setPrev b (s.mem f.stop))).mem c.addr = s.mem c.addr := by
      unfold Chunk.stop at h1
      rw [RvfMem.store_mem, if_neg (by omega)]
    exact ⟨by rw [h4]; exact h3.size, by rw [h4]; exact h3.prev, by rw [h4]; exact h3.unlinked⟩
  · have h1 := hne c (.inl hc)
    unfold Chunk.stop at h1
    rw [RvfMem.store_mem, if_neg (by omega)]
    exact h.ends c hc hf
  · rw [RvfMem.store_mem, if_pos rfl, h.stop]
    cases b with
    | true =>
      cases f.lastUsed with
      | true => rfl
      | false => rfl
    | false =>
      cases f.lastUsed with
      | true => rfl
      | false => rfl
  · have h1 := h.shape.away A hA
    have h2 := (h.shape.areas.tiles A hA).le
    have h3 := h.shape.front.le
    rw [RvfMem.store_mem, if_neg (by omega)]
    exact h.markers A hA
  · rw [RvfMem.store_mem, if_neg]
    rintro rfl
    obtain ⟨c, hc, -, ha⟩ := ha
    have h1 := hne c hc
    have h2 := hsize.size c hc
    unfold Chunk.stop at h1
    omega

/-- Another chunk is behind the chunk. -/
private theorem mark_next (h : Focused s held rest f listed) (hback : f.back = d :: ys) (b : Bool) :
    Focused (s.store d.addr (setPrev b (s.mem d.addr))) held rest
      { f with used := b, back := { d with prevUsed := b } :: ys } listed := by
  have hb := h.shape.back
  rw [hback] at hb
  obtain ⟨hda, hdp, hd4, hdm, hys⟩ := hb
  have hdl : f.Live rest d := .inr (.inl (hback ▸ List.mem_cons_self))
  have hsp := @Focus.Shape.spaced_linked _ _ listed h.shape
  obtain ⟨g, hg⟩ : ∃ g : Focus, { f with used := b, back := { d with prevUsed := b } :: ys } = g := ⟨_, rfl⟩
  rw [hg]
  obtain ⟨hlive, hnot⟩ := h.shape.live_back hback
  have hgc' : ∀ c, g.Live rest c ↔ c = { d with prevUsed := b } ∨ Focus.Live { f with back := ys } rest c := by
    intro c
    rw [← hg]
    unfold Focus.Live
    rw [List.mem_cons]
    exact ⟨fun hc => by tauto, fun hc => by tauto⟩
  have hgl : ∀ c, g.Live rest c → c = { d with prevUsed := b } ∨ f.Live rest c ∧ c ≠ d :=
    fun c hc => ((hgc' c).1 hc).imp_right fun hc => ⟨(hlive c).2 (.inr hc), fun hcd => hnot (hcd ▸ hc)⟩
  have hfl : ∀ c, f.Live rest c → c = d ∨ g.Live rest c :=
    fun c hc => ((hlive c).1 hc).imp_right fun hc => (hgc' c).2 (.inr hc)
  have hgd : g.Live rest { d with prevUsed := b } := by
    rw [← hg]
    exact .inr (.inl List.mem_cons_self)
  have hgc : ∀ b', g.chunk b' = f.chunk b' := by
    intro b'
    rw [← hg]
    rfl
  -- the word that is written is the header of the chunk behind
  have hfar : ∀ c, f.Linked rest listed c → c ≠ d → c.stop ≤ d.addr ∨ d.addr < c.addr := by
    intro c hc hne
    rcases hsp.apart c d hc (.inl hdl) with h1 | h1 | h1
    · exact absurd h1 hne
    · exact .inl h1
    · refine .inr ?_
      unfold Chunk.stop at h1
      omega
  obtain ⟨t, ht⟩ : ∃ t, s.store d.addr (setPrev b (s.mem d.addr)) = t := ⟨_, rfl⟩
  have hmem : ∀ a, t.mem a = if a = d.addr then setPrev b (s.mem d.addr) else s.mem a := by
    intro a
    rw [← ht]
    rfl
  have hlists : ∀ i, t.lists i = s.lists i := by
    intro i
    rw [← ht]
    rfl
  rw [ht]
  have hstop := (h.shape.marker_outside (b := false) (.inl hdl))
  have hsized : ∀ i a, Sized (f.Linked rest listed) i a ↔ Sized (g.Linked rest listed) i a := by
    intro i a
    unfold Focus.Linked
    rw [hgc]
    constructor
    · rintro ⟨c, hc | hc, hf, ha, hi⟩
      · rcases hfl c hc with rfl | hc
        · exact ⟨_, .inl hgd, hf, ha, hi⟩
        · exact ⟨c, .inl hc, hf, ha, hi⟩
      · exact ⟨c, .inr hc, hf, ha, hi⟩
    · rintro ⟨c, hc | hc, hf, ha, hi⟩
      · rcases hgl c hc with rfl | hc
        · exact ⟨d, .inl hdl, hf, ha, hi⟩
        · exact ⟨c, .inl hc.1, hf, ha, hi⟩
      · exact ⟨c, .inr hc, hf, ha, hi⟩
  refine ⟨?_, ?_, ?_, fun c hc => ?_, fun c hc hf => ?_, ?_, fun A hA => ?_, (h.lists.congr hsp hlists fun a ha => ?_).sized
    hsized, fun a => ?_, h.nodup⟩
  · rw [← hg]
    refine ⟨h.shape.front, ⟨hda, rfl, hd4, hdm, hys⟩, h.shape.frontCoalesced, ⟨.inl rfl, ?_⟩, h.shape.size, h.shape.mod,
      h.shape.pos, h.shape.areas, h.shape.away⟩
    have := h.shape.backCoalesced
    rw [hback] at this
    exact this.2
  · rw [← hg, hmem]
    change maskSize (if f.addr = d.addr then _ else s.mem f.addr) = f.size
    rw [if_neg (by omega)]
    exact h.size
  · rw [← hg, hmem]
    change isLinked (if f.addr = d.addr then _ else s.mem f.addr) = false
    rw [if_neg (by omega)]
    exact h.unlinked
  · rcases hgl c hc with rfl | ⟨hc, hne⟩
    · have hd := h.heads d hdl
      have hw : t.mem d.addr = setPrev b (s.mem d.addr) := by
        rw [hmem, if_pos rfl]
      refine ⟨?_, ?_, fun hf => ?_⟩
      · change maskSize (t.mem d.addr) = d.size
        rw [hw, maskSize_setPrev]
        exact hd.size
      · change isPrevInUse (t.mem d.addr) = b
        rw [hw, isPrevInUse_setPrev]
      · change isLinked (t.mem d.addr) = false
        rw [hw, isLinked_setPrev]
        exact hd.unlinked hf
    · have h1 := hfar c (.inl hc) hne
      have hw : t.mem c.addr = s.mem c.addr := by
        unfold Chunk.stop at h1
        rw [hmem, if_neg (by omega)]
      have h3 := h.heads c hc
      exact ⟨by rw [hw]; exact h3.size, by rw [hw]; exact h3.prev, by rw [hw]; exact h3.unlinked⟩
  · rcases hgl c hc with rfl | ⟨hc, hne⟩
    · rw [hmem]
      change (if d.addr + d.size + 8 = d.addr then _ else s.mem (d.addr + d.size + 8)) = d.size
      rw [if_neg (by omega)]
      exact h.ends d hdl hf
    · have h1 := hfar c (.inl hc) hne
      unfold Chunk.stop at h1
      rw [hmem, if_neg (by omega)]
      exact h.ends c hc hf
  · rw [← hg, hmem]
    change (if f.stop = d.addr then _ else s.mem f.stop) = marker f.lastUsed
    rw [if_neg (by have := hstop.1; unfold Chunk.stop at this; omega)]
    exact h.stop
  · have := hstop.2 A hA
    unfold Chunk.stop at this
    rw [hmem, if_neg (by omega)]
    exact h.markers A hA
  · rw [hmem, if_neg]
    rintro rfl
    obtain ⟨c, hc, -, ha⟩ := ha
    by_cases hcd : c = d
    · rw [hcd] at ha
      omega
    · have h1 := hfar c hc hcd
      have h2 := hsp.size c hc
      unfold Chunk.stop at h1
      omega
  · rw [h.buffers]
    constructor
    · rintro ⟨c, hc, hu, ha⟩
      rcases hfl c hc with rfl | hc
      · exact ⟨_, hgd, hu, ha⟩
      · exact ⟨c, hc, hu, ha⟩
    · rintro ⟨c, hc, hu, ha⟩
      rcases hgl c hc with rfl | hc
      · exact ⟨d, hdl, hu, ha⟩
      · exact ⟨c, hc.1, hu, ha⟩

/-- The flag in the chunk behind the one in the middle is set. -/
theorem Focused.mark (h : Focused s held rest f listed) (b : Bool) :
    Focused (s.store (f.addr + f.size + 12) (setPrev b (s.mem (f.addr + f.size + 12)))) held rest (f.mark b) listed := by
  unfold Focus.mark
  split
  · rename_i hback
    have hb := h.shape.back
    rw [hback] at hb
    rw [hb.1]
    exact mark_stop h hback b
  · rename_i d ys hback
    have hb := h.shape.back
    rw [hback] at hb
    rw [← hb.1]
    exact mark_next h hback b

/-- The chunks keep their places and are in use or free as before. -/
theorem Focus.mark_live {x : Nat} (b : Bool) (h : ∃ c, f.Live rest c ∧ c.used = false ∧ c.addr = x) :
    ∃ c, (f.mark b).Live rest c ∧ c.used = false ∧ c.addr = x := by
  obtain ⟨c, hc, hf, ha⟩ := h
  unfold Focus.mark
  split
  · exact ⟨c, hc, hf, ha⟩
  · rename_i d ys hback
    rcases hc with hc | hc | hc
    · exact ⟨c, .inl hc, hf, ha⟩
    · rw [hback] at hc
      rcases List.mem_cons.1 hc with rfl | hc
      · exact ⟨{ c with prevUsed := b }, .inr (.inl List.mem_cons_self), hf, ha⟩
      · exact ⟨c, .inr (.inl (List.mem_cons_of_mem _ hc)), hf, ha⟩
    · exact ⟨c, .inr (.inr hc), hf, ha⟩

/-- The chunk behind stays in use or free. -/
theorem Focus.mark_coalesced {u : Bool} (b : Bool) : Coalesced u (f.mark b).back ↔ Coalesced u f.back := by
  unfold Focus.mark
  split
  · exact Iff.rfl
  · rename_i hback
    rw [hback]
    exact Iff.rfl

/-! ### Merging -/

/-- Another free chunk is taken out of its list. -/
theorem unlink_live (h : Focused s held rest f false) (hd : f.Live rest d) (hf : d.used = false) :
    Listed (s.unlink (bufListIndex d.size) d.addr) (fun c => f.Live rest c ∧ c ≠ d) ∧
    (∀ a, f.Word rest a ∨ a = f.addr → (s.unlink (bufListIndex d.size) d.addr).mem a = s.mem a) ∧
    (s.unlink (bufListIndex d.size) d.addr).lastRemainder = s.lastRemainder := by
  obtain ⟨hlists, hmem, hlast⟩ := unlink_spec h.lists h.shape.spaced_linked (.inl hd) hf
  refine ⟨hlists.sized fun i a => ?_, fun a ha => hmem a fun hn => ?_, hlast⟩
  · constructor
    · rintro ⟨c, ⟨hc | ⟨hn, -⟩, hne⟩, hcf, ha, hi⟩
      · exact ⟨c, ⟨hc, hne⟩, hcf, ha, hi⟩
      · cases hn
    · rintro ⟨c, ⟨hc, hne⟩, hcf, ha, hi⟩
      exact ⟨c, ⟨.inl hc, hne⟩, hcf, ha, hi⟩
  · obtain ⟨c, hc, hcf, hca⟩ := hn
    have hlw : LinkWord (f.Linked rest false) a := ⟨c, hc.1, hcf, hca⟩
    rcases ha with ha | rfl
    · exact h.shape.word_not_link ha hlw
    · exact h.shape.addr_not_link hlw

/-- What is common to the two ways to merge: the neighbour is out of its list, and a header that is not one of the
other chunks is written. -/
private theorem absorb (h : Focused s held rest f false) (hd : f.Live rest d) (hdf : d.used = false) {g : Focus}
    {v : Nat} (hshape : g.Shape rest) (hgf : ∀ c, f.Live rest c ↔ c = d ∨ g.Live rest c) (hgd : ¬ g.Live rest d)
    (haddr : g.addr = f.addr ∨ g.addr = d.addr) (hstop : g.stop = f.stop) (hlast : g.lastUsed = f.lastUsed)
    (hsize : maskSize v = g.size) (hunl : isLinked v = false) :
    Focused ((s.unlink (bufListIndex d.size) d.addr).store g.addr v) held rest g false ∧
      ((s.unlink (bufListIndex d.size) d.addr).store g.addr v).lastRemainder = s.lastRemainder := by
  obtain ⟨hlists, hmem, hl⟩ := unlink_live h hd hdf
  obtain ⟨u, hu⟩ : ∃ u, s.unlink (bufListIndex d.size) d.addr = u := ⟨_, rfl⟩
  rw [hu] at hlists hmem hl ⊢
  have hkeep : ∀ a, g.Word rest a → (u.store g.addr v).mem a = s.mem a := by
    intro a ha
    have hout := hshape.word_outside ha
    have hsz := hshape.size
    rw [RvfMem.store_mem, if_neg (by omega)]
    refine hmem a (.inl ?_)
    rcases ha with ha | ha | ⟨c, hc, ha⟩
    · exact .inl (ha.trans hstop)
    · exact .inr (.inl ha)
    · exact .inr (.inr ⟨c, (hgf c).2 (.inr hc), ha⟩)
  have hiff : ∀ c, f.Live rest c ∧ c ≠ d ↔ g.Linked rest false c := by
    intro c
    rw [hgf]
    constructor
    · rintro ⟨hc | hc, hne⟩
      · exact absurd hc hne
      · exact .inl hc
    · rintro (hc | ⟨hn, -⟩)
      · exact ⟨.inr hc, fun hcd => hgd (hcd ▸ hc)⟩
      · cases hn
  have hlists' : Listed u (g.Linked rest false) := by
    refine hlists.sized fun i a => ?_
    constructor
    · rintro ⟨c, hc, hcf, ha, hi⟩
      exact ⟨c, (hiff c).1 hc, hcf, ha, hi⟩
    · rintro ⟨c, hc, hcf, ha, hi⟩
      exact ⟨c, (hiff c).2 hc, hcf, ha, hi⟩
  have hhead : (u.store g.addr v).mem g.addr = v := by
    rw [RvfMem.store_mem, if_pos rfl]
  refine ⟨⟨hshape, by rw [hhead, hsize], by rw [hhead, hunl], fun c hc => ?_, fun c hc hf => ?_, ?_, fun A hA => ?_,
    hlists'.congr hshape.spaced_linked (fun _ => rfl) fun a ha => ?_, fun a => ?_, h.nodup⟩, hl⟩
  · have hw := hkeep c.addr (.inr (.inr ⟨c, hc, .inl rfl⟩))
    have h3 := h.heads c ((hgf c).2 (.inr hc))
    exact ⟨by rw [hw]; exact h3.size, by rw [hw]; exact h3.prev, by rw [hw]; exact h3.unlinked⟩
  · rw [hkeep _ (.inr (.inr ⟨c, hc, .inr ⟨hf, rfl⟩⟩))]
    exact h.ends c ((hgf c).2 (.inr hc)) hf
  · rw [hkeep _ (.inl rfl), hstop, hlast]
    exact h.stop
  · rw [hkeep _ (.inr (.inl ⟨A, hA, rfl⟩))]
    exact h.markers A hA
  · rw [RvfMem.store_mem, if_neg]
    rintro rfl
    exact hshape.addr_not_link ha
  · rw [h.buffers]
    constructor
    · rintro ⟨c, hc, hcu, ha⟩
      rcases (hgf c).1 hc with rfl | hc
      · rw [hdf] at hcu
        cases hcu
      · exact ⟨c, hc, hcu, ha⟩
    · rintro ⟨c, hc, hcu, ha⟩
      exact ⟨c, (hgf c).2 (.inr hc), hcu, ha⟩

/-- The chunk is merged with the free one behind it. -/
theorem Focused.absorbRight (h : Focused s held rest f false) (hback : f.back = d :: ys) (hd : d.used = false) :
    Focused ((s.unlink (bufListIndex d.size) d.addr).store f.addr (setSize (s.mem f.addr) (d.size + f.size + 12)))
        held rest { f with size := d.size + f.size + 12, used := false, back := ys } false ∧
      ((s.unlink (bufListIndex d.size) d.addr).store f.addr
        (setSize (s.mem f.addr) (d.size + f.size + 12))).lastRemainder = s.lastRemainder := by
  obtain ⟨hlive, hnot⟩ := h.shape.live_back hback
  have hb := h.shape.back
  have hc := h.shape.backCoalesced
  rw [hback] at hb hc
  obtain ⟨hda, hdp, hd4, hdm, hys⟩ := hb
  have hmod := h.shape.mod
  have hflags := setSize_flags (w := s.mem f.addr) (n := d.size + f.size + 12) (by omega)
  refine absorb h (.inr (.inl (hback ▸ List.mem_cons_self))) hd
    (g := { f with size := d.size + f.size + 12, used := false, back := ys }) ⟨h.shape.front, ?_,
    h.shape.frontCoalesced, hc.2.weaken, ?_, ?_, h.shape.pos, h.shape.areas, h.shape.away⟩ hlive hnot (.inl rfl) rfl rfl
    hflags.1 (hflags.2.1.trans h.unlinked)
  · rw [hd] at hys
    have hstop : f.addr + (d.size + f.size + 12) + 12 = d.stop := by
      unfold Chunk.stop
      omega
    change Tiles (f.addr + (d.size + f.size + 12) + 12) false ys f.stop f.lastUsed
    rw [hstop]
    exact hys
  · change 4 ≤ d.size + f.size + 12
    omega
  · change (d.size + f.size + 12) % 4 = 0
    omega

/-- The chunk is merged with the free one in front of it. -/
theorem Focused.absorbLeft (h : Focused s held rest f false) (hfront : f.front = xs ++ [d]) (hd : d.used = false) :
    Focused ((s.unlink (bufListIndex d.size) d.addr).store d.addr (setSize (s.mem d.addr) (d.size + f.size + 12)))
        held rest { f with addr := d.addr, size := d.size + f.size + 12, front := xs, prevUsed := d.prevUsed } false ∧
      ((s.unlink (bufListIndex d.size) d.addr).store d.addr
        (setSize (s.mem d.addr) (d.size + f.size + 12))).lastRemainder = s.lastRemainder := by
  obtain ⟨hlive, hnot⟩ := h.shape.live_front hfront
  have hb := h.shape.front
  have hc := h.shape.frontCoalesced
  rw [hfront] at hb hc
  obtain ⟨hxs, ⟨hstop, -⟩, hd4, hdm⟩ := hb.focus
  have hmod := h.shape.mod
  have hdl : f.Live rest d := .inl (hfront ▸ List.mem_append_right _ (List.mem_singleton_self d))
  have hflags := setSize_flags (w := s.mem d.addr) (n := d.size + f.size + 12) (by omega)
  unfold Chunk.stop at hstop
  refine absorb h hdl hd
    (g := { f with addr := d.addr, size := d.size + f.size + 12, front := xs, prevUsed := d.prevUsed }) ⟨hxs, ?_,
    ((coalesced_append hxs).1 hc).1, h.shape.backCoalesced, ?_, ?_, h.shape.pos, h.shape.areas, h.shape.away⟩ hlive hnot
    (.inr rfl) rfl rfl hflags.1 (hflags.2.1.trans ((h.heads d hdl).unlinked hd))
  · have haddr : d.addr + (d.size + f.size + 12) + 12 = f.addr + f.size + 12 := by omega
    change Tiles (d.addr + (d.size + f.size + 12) + 12) f.used f.back f.stop f.lastUsed
    rw [haddr]
    exact h.shape.back
  · change 4 ≤ d.size + f.size + 12
    omega
  · change (d.size + f.size + 12) % 4 = 0
    omega

/-! ### Splitting -/

/-- The chunk is cut: its first part is in use, the second one is the chunk in the middle now. -/
theorem Focused.split (h : Focused s held rest f false) {n : Nat} (h4 : 4 ≤ n) (hmod : n % 4 = 0)
    (hn : n + 16 ≤ f.size) (hprev : isPrevInUse (s.mem f.addr) = f.prevUsed)
    (hsize : maskSize (s.mem (f.addr + n + 12)) = f.size - n - 12)
    (hunl : isLinked (s.mem (f.addr + n + 12)) = false) :
    Focused (s.store f.addr (setSize (s.mem f.addr) n)) (f.addr :: held) rest
      { f with
        addr := f.addr + n + 12, size := f.size - n - 12, prevUsed := true
        front := f.front ++ [⟨f.addr, n, f.prevUsed, true⟩] } false := by
  have hfm := h.shape.mod
  have hflags := setSize_flags (w := s.mem f.addr) hmod
  obtain ⟨g, hg⟩ : ∃ g : Focus, { f with
      addr := f.addr + n + 12, size := f.size - n - 12, prevUsed := true
      front := f.front ++ [⟨f.addr, n, f.prevUsed, true⟩] } = g := ⟨_, rfl⟩
  have hlive : ∀ c, g.Live rest c ↔ c = ⟨f.addr, n, f.prevUsed, true⟩ ∨ f.Live rest c := by
    intro c
    rw [← hg]
    unfold Focus.Live
    rw [List.mem_append, List.mem_singleton]
    exact ⟨fun hc => by tauto, fun hc => by tauto⟩
  have hhead : (s.store f.addr (setSize (s.mem f.addr) n)).mem f.addr = setSize (s.mem f.addr) n := by
    rw [RvfMem.store_mem, if_pos rfl]
  have hkeep : ∀ a, f.Word rest a ∨ a = f.addr + n + 12 →
      (s.store f.addr (setSize (s.mem f.addr) n)).mem a = s.mem a := by
    intro a ha
    rw [RvfMem.store_mem, if_neg]
    rintro rfl
    rcases ha with ha | ha
    · have := h.shape.word_outside ha
      omega
    · omega
  rw [hg]
  have hga : g.addr = f.addr + n + 12 ∧ g.size = f.size - n - 12 ∧ g.stop = f.stop ∧ g.lastUsed = f.lastUsed := by
    rw [← hg]
    exact ⟨rfl, rfl, rfl, rfl⟩
  refine ⟨?_, ?_, ?_, fun c hc => ?_, fun c hc hf => ?_, ?_, fun A hA => ?_, ?_, fun a => ?_, ?_⟩
  · rw [← hg]
    refine ⟨tiles_append.2 ⟨_, _, h.shape.front, rfl, rfl, h4, hmod, rfl, rfl⟩, ?_,
      (coalesced_append h.shape.front).2 ⟨h.shape.frontCoalesced, .inr rfl, trivial⟩, h.shape.backCoalesced, ?_, ?_,
      h.shape.pos, h.shape.areas, h.shape.away⟩
    · change Tiles (f.addr + n + 12 + (f.size - n - 12) + 12) _ _ _ _
      rw [show f.addr + n + 12 + (f.size - n - 12) + 12 = f.addr + f.size + 12 by omega]
      exact h.shape.back
    · change 4 ≤ f.size - n - 12
      omega
    · change (f.size - n - 12) % 4 = 0
      omega
  · rw [hga.1, hga.2.1, hkeep _ (.inr rfl), hsize]
  · rw [hga.1, hkeep _ (.inr rfl), hunl]
  · rcases (hlive c).1 hc with rfl | hc
    · refine ⟨?_, ?_, fun hn => (by cases hn)⟩
      · change maskSize ((s.store f.addr _).mem f.addr) = n
        rw [hhead]
        exact hflags.1
      · change isPrevInUse ((s.store f.addr _).mem f.addr) = f.prevUsed
        rw [hhead, hflags.2.2]
        exact hprev
    · have hw := hkeep c.addr (.inl (.inr (.inr ⟨c, hc, .inl rfl⟩)))
      have h3 := h.heads c hc
      exact ⟨by rw [hw]; exact h3.size, by rw [hw]; exact h3.prev, by rw [hw]; exact h3.unlinked⟩
  · rcases (hlive c).1 hc with rfl | hc
    · cases hf
    · rw [hkeep _ (.inl (.inr (.inr ⟨c, hc, .inr ⟨hf, rfl⟩⟩)))]
      exact h.ends c hc hf
  · rw [hga.2.2.1, hga.2.2.2, hkeep _ (.inl (.inl rfl))]
    exact h.stop
  · rw [hkeep _ (.inl (.inr (.inl ⟨A, hA, rfl⟩)))]
    exact h.markers A hA
  · have hlists : Listed (s.store f.addr (setSize (s.mem f.addr) n)) (f.Linked rest false) := by
      refine h.lists.congr h.shape.spaced_linked (fun _ => rfl) fun a ha => ?_
      rw [RvfMem.store_mem, if_neg]
      rintro rfl
      exact h.shape.addr_not_link ha
    refine hlists.sized fun i a => ?_
    constructor
    · rintro ⟨c, hc | ⟨hn, -⟩, hcf, ha, hi⟩
      · exact ⟨c, .inl ((hlive c).2 (.inr hc)), hcf, ha, hi⟩
      · cases hn
    · rintro ⟨c, hc | ⟨hn, -⟩, hcf, ha, hi⟩
      · rcases (hlive c).1 hc with rfl | hc
        · cases hcf
        · exact ⟨c, .inl hc, hcf, ha, hi⟩
      · cases hn
  · rw [List.mem_cons, h.buffers]
    constructor
    · rintro (rfl | ⟨c, hc, hu, ha⟩)
      · exact ⟨_, (hlive _).2 (.inl rfl), rfl, rfl⟩
      · exact ⟨c, (hlive c).2 (.inr hc), hu, ha⟩
    · rintro ⟨c, hc, hu, ha⟩
      rcases (hlive c).1 hc with rfl | hc
      · exact .inl ha.symm
      · exact .inr ⟨c, hc, hu, ha⟩
  · refine List.nodup_cons.2 ⟨fun hmem => ?_, h.nodup⟩
    obtain ⟨c, hc, -, ha⟩ := (h.buffers _).1 hmem
    have h1 := h.shape.outside hc
    have h2 := (h.shape.spaced false).size c (.inl hc)
    unfold Chunk.stop at h1
    omega

end

end Citrine.Rvf
