import Citrine.Rvf.Intact

/-!
# `_find_buf` and `_release_buf`

Each of the two functions leads from an intact heap to an intact heap (`findBuf_spec`, `releaseBuf_spec`).
-/

namespace Citrine.Rvf

/-- The place of an area. -/
def Area.span (A : Area) : Nat × Nat := (A.start, A.stop)

section
variable {f : Focus} {A : Area} {areas rest : List Area} {c d : Chunk} {s t : RvfMem} {held : List Nat}
  {xs ys : List Chunk} {listed : Bool} {n : Nat}

private theorem maskSize_of_mod (h : n % 4 = 0) : maskSize n = n := by
  unfold maskSize
  omega

private theorem isLinked_of_mod (h : n % 4 = 0) : isLinked n = false := by
  unfold isLinked
  rw [show n % 2 = 0 by omega]
  rfl

theorem Focused.setLast (h : Focused s held rest f listed) (p : Nat) :
    Focused (s.setLastRemainder p) held rest f listed :=
  h.frame (h.lists.congr h.shape.spaced_linked (fun _ => rfl) fun _ _ => rfl) h.size h.unlinked fun _ _ => rfl

/-- A free chunk is taken into the focus. -/
private theorem Layout.focus_free (h : Layout s held (A :: rest)) (hA : A.chunks = xs ++ c :: ys) (hf : c.used = false)
    (hends : ∀ d, (A.focus xs c ys).Live rest d → EndSize s.mem d) :
    Focused s held rest (A.focus xs c ys) true ∧ isPrevInUse (s.mem c.addr) = c.prevUsed := by
  obtain ⟨-, -, -, hiff, -⟩ := live_focus h.shape hA
  have hc : InAreas (A :: rest) c := (hiff c).2 (.inl rfl)
  obtain ⟨F0, hprev⟩ := h.focus hA hends ((h.heads c hc).unlinked hf)
  have hheld : held.erase c.addr = held := by
    refine List.erase_of_not_mem fun hmem => ?_
    obtain ⟨d, hd, hu, hda⟩ := (h.buffers _).1 hmem
    rcases (hiff d).1 hd with rfl | hd
    · rw [hf] at hu
      cases hu
    · have h1 := F0.shape.outside hd
      have h2 := (F0.shape.spaced false).size d (.inl hd)
      change d.stop ≤ c.addr ∨ c.addr + c.size + 12 ≤ d.addr at h1
      unfold Chunk.stop at h1
      omega
  rw [hheld, hf] at F0
  exact ⟨F0, hprev⟩

/-- The free part of a chunk becomes a new free chunk. -/
private theorem splitBuf_spec (h : Layout s held (A :: rest)) (hA : A.chunks = xs ++ c :: ys) (hf : c.used = false)
    (hends : ∀ d, (A.focus xs c ys).Live rest d → EndSize s.mem d) (h4 : 4 ≤ n) (hmod : n % 4 = 0)
    (hn : n + 16 ≤ c.size) {remove : RvfMem → RvfMem}
    (hrem : ∀ t : RvfMem, t.mem c.addr = s.mem c.addr → t.mem (c.addr + 8) = s.mem (c.addr + 8) →
      remove t = t.unlink (bufListIndex c.size) c.addr) :
    ∃ areas', Intact (s.splitBuf remove c.addr n) (c.addr :: held) areas' ∧
      areas'.map Area.span = (A :: rest).map Area.span ∧ InAreas areas' ⟨c.addr, n, c.prevUsed, true⟩ := by
  obtain ⟨-, hco, -, -, -⟩ := live_focus h.shape hA
  obtain ⟨F0, hprev0⟩ := h.focus_free hA hf hends
  have hcm : c.size % 4 = 0 := F0.shape.mod
  obtain ⟨p, hp⟩ : ∃ p, c.addr = p := ⟨_, rfl⟩
  obtain ⟨k, hk⟩ : ∃ k, c.size - n - 12 = k := ⟨_, rfl⟩
  have hkm : k % 4 = 0 := by omega
  obtain ⟨g, hg⟩ : ∃ g, A.focus xs c ys = g := ⟨_, rfl⟩
  have hga : g.addr = p ∧ g.size = c.size ∧ g.prevUsed = c.prevUsed ∧ g.used = false ∧ g.front = xs ∧ g.back = ys := by
    rw [← hg]
    exact ⟨hp, rfl, rfl, hf, rfl, rfl⟩
  rw [hg] at F0
  rw [hp] at hprev0 hrem ⊢
  obtain ⟨hgp, hgs, hgu, hgused, hgf, hgb⟩ := hga
  -- the header and the end of the new chunk
  obtain ⟨s1, hs1⟩ : ∃ s1, s.store (p + n + 12) k = s1 := ⟨_, rfl⟩
  obtain ⟨s2, hs2⟩ : ∃ s2, s1.store (p + c.size + 8) k = s2 := ⟨_, rfl⟩
  have F1 : Focused s1 held rest g true :=
    hs1 ▸ F0.store_inside (by omega) (fun _ => by omega) (by omega)
  have F2 : Focused s2 held rest g true :=
    hs2 ▸ F1.store_inside (by omega) (fun _ => by omega) (by omega)
  have hm2 : ∀ a, s2.mem a = if a = p + c.size + 8 then k else if a = p + n + 12 then k else s.mem a := by
    intro a
    rw [← hs2, ← hs1]
    rfl
  -- the chunk is taken out of its list
  obtain ⟨s3, hs3⟩ : ∃ s3, s2.unlink (bufListIndex c.size) p = s3 := ⟨_, rfl⟩
  have hF3 := F2.unlink
  rw [hgs, hgp, hs3] at hF3
  obtain ⟨F3, hm3, -⟩ := hF3
  have hrem2 : remove s2 = s3 := by
    rw [← hs3]
    refine hrem s2 ?_ ?_
    · rw [hm2, if_neg (by omega), if_neg (by omega)]
    · rw [hm2, if_neg (by omega), if_neg (by omega)]
  obtain ⟨s4, hs4⟩ : ∃ s4, s3.store (p + 4) 0 = s4 := ⟨_, rfl⟩
  have F4 : Focused s4 held rest g false :=
    hs4 ▸ F3.store_inside (by omega) (fun hn => (by cases hn)) (by omega)
  have hm4 : ∀ a, p ≤ a → a < p + c.size + 12 → a ≠ p + 4 → s4.mem a = s2.mem a := by
    intro a h1 h2 h3
    rw [← hs4, RvfMem.store_mem, if_neg h3, hm3 a h1 h2]
  have hnb4 : s4.mem (p + n + 12) = k := by
    rw [hm4 _ (by omega) (by omega) (by omega), hm2, if_neg (by omega), if_pos rfl]
  have hp4 : s4.mem p = s.mem p := by
    rw [hm4 _ (by omega) (by omega) (by omega), hm2, if_neg (by omega), if_neg (by omega)]
  -- the chunk is cut
  obtain ⟨s5, hs5⟩ : ∃ s5, s4.store p (setSize (s4.mem p) n) = s5 := ⟨_, rfl⟩
  obtain ⟨g', hg'⟩ : ∃ g' : Focus, { g with
      addr := g.addr + n + 12, size := g.size - n - 12, prevUsed := true
      front := g.front ++ [⟨g.addr, n, g.prevUsed, true⟩] } = g' := ⟨_, rfl⟩
  have F5 := F4.split h4 hmod (by omega) (by rw [hgp, hp4, hgu]; exact hprev0)
    (by rw [hgp, hnb4, hgs, hk]; exact maskSize_of_mod hkm) (by rw [hgp, hnb4]; exact isLinked_of_mod hkm)
  have hg'a : g'.addr = p + n + 12 ∧ g'.size = k ∧ g'.prevUsed = true ∧ g'.used = false ∧ g'.back = ys ∧
      g'.start = A.start ∧ g'.stop = A.stop ∧ (⟨p, n, c.prevUsed, true⟩ : Chunk) ∈ g'.front := by
    rw [← hg']
    refine ⟨by rw [← hgp], by rw [← hk, ← hgs], rfl, hgused, hgb, by rw [← hg]; rfl, by rw [← hg]; rfl, ?_⟩
    change _ ∈ g.front ++ [⟨g.addr, n, g.prevUsed, true⟩]
    rw [hgp, hgu]
    exact List.mem_append_right _ (List.mem_singleton_self _)
  rw [hg', hgp, hs5] at F5
  obtain ⟨hga', hgs', hgu', hgused', hgb', hgst', hgsp', hgfr'⟩ := hg'a
  have hm5 : ∀ a, a ≠ p → s5.mem a = s4.mem a := by
    intro a ha
    rw [← hs5, RvfMem.store_mem, if_neg ha]
  have hsz5 : s5.getSize p = n := by
    unfold RvfMem.getSize
    rw [← hs5, RvfMem.store_mem, if_pos rfl]
    exact (setSize_flags hmod).1
  obtain ⟨s6, hs6⟩ : ∃ s6, s5.store (p + n + 8) n = s6 := ⟨_, rfl⟩
  have F6 : Focused s6 (p :: held) rest g' false :=
    hs6 ▸ F5.store_used (.inl hgfr') rfl (show p < p + n + 8 by omega) (show p + n + 8 < p + n + 12 by omega)
  have hm6 : ∀ a, a ≠ p → a ≠ p + n + 8 → s6.mem a = s4.mem a := by
    intro a h1 h2
    rw [← hs6, RvfMem.store_mem, if_neg h2, hm5 a h1]
  -- the new chunk goes into its list
  obtain ⟨s7, hs7⟩ : ∃ s7, s6.enqueue (bufListIndex k) (p + n + 12) = s7 := ⟨_, rfl⟩
  have hF7 := F6.enqueue
  rw [hgs', hga', hs7] at hF7
  obtain ⟨F7, hh7, hm7, -⟩ := hF7
  have hnb7 : s7.mem (p + n + 12) = k := by
    rw [hh7, hm6 _ (by omega) (by omega), hnb4]
  obtain ⟨s8, hs8⟩ : ∃ s8, s7.store (p + n + 12) (setPrevInUse (s7.mem (p + n + 12))) = s8 := ⟨_, rfl⟩
  have hword : maskSize (setPrev true k) = k ∧ isLinked (setPrev true k) = false :=
    ⟨(maskSize_setPrev true).trans (maskSize_of_mod hkm), (isLinked_setPrev true).trans (isLinked_of_mod hkm)⟩
  have F8 : Focused s8 (p :: held) rest g' true := by
    have := F7.store_header (v := setPrev true k) (by rw [hgs']; exact hword.1) hword.2
    rw [hga'] at this
    rw [← hs8, hnb7]
    exact this
  have hres : s.splitBuf remove p n = s8.setLastRemainder (p + n + 12) := by
    have hsz : s.getSize p = c.size := by
      have := F0.size
      rw [hgp, hgs] at this
      exact this
    have hnb1 : s1.mem (p + n + 12) = k := by
      rw [← hs1, RvfMem.store_mem, if_pos rfl]
    have hend1 : s1.endSize (p + n + 12) = p + c.size + 8 := by
      unfold RvfMem.endSize RvfMem.getSize headerSize
      rw [hnb1, maskSize_of_mod hkm]
      omega
    have hend5 : s5.endSize p = p + n + 8 := by
      unfold RvfMem.endSize headerSize
      rw [hsz5]
      omega
    have hnb6 : s6.mem (p + n + 12) = k := by
      rw [hm6 _ (by omega) (by omega), hnb4]
    unfold RvfMem.splitBuf headerSize
    simp only [hsz, hk, hs1, hend1, hnb1, hs2, hrem2, hs4, hs5, hend5, hs6, hnb6, hs7, hs8]
  rw [hres]
  refine ⟨g'.area false :: rest, (F8.setLast (p + n + 12)).close_free ?_ ?_ hgused' hgu' ?_ (.inr hga'.symm), ?_, ?_⟩
  · change isPrevInUse (s8.mem g'.addr) = g'.prevUsed
    rw [hga', hgu', ← hs8, RvfMem.store_mem, if_pos rfl]
    exact isPrevInUse_setPrev true
  · change s8.mem (g'.addr + g'.size + 8) = g'.size
    rw [hga', hgs', ← hs8, RvfMem.store_mem, if_neg (by omega), hm7 _ (by omega) (by omega),
      hm6 _ (by omega) (by omega), hm4 _ (by omega) (by omega) (by omega), hm2, if_pos (by omega)]
  · rw [hgb']
    exact hf ▸ hco
  · rw [List.map_cons, List.map_cons]
    unfold Area.span Focus.area
    rw [hgst', hgsp']
  · exact ⟨_, List.mem_cons_self, List.mem_append_left _ hgfr'⟩

/-- An entire chunk is returned. -/
private theorem entireBuf_spec (h : Layout s held (A :: rest)) (hA : A.chunks = xs ++ c :: ys) (hf : c.used = false)
    (hends : ∀ d, (A.focus xs c ys).Live rest d → EndSize s.mem d) {remove : RvfMem → RvfMem}
    (hrem : remove s = s.unlink (bufListIndex c.size) c.addr) :
    ∃ areas', (∀ x, x = 0 ∨ x ≠ c.addr ∧ (∃ d, InAreas (A :: rest) d ∧ d.used = false ∧ d.addr = x) →
        Intact ((s.entireBuf remove c.addr).setLastRemainder x) (c.addr :: held) areas') ∧
      areas'.map Area.span = (A :: rest).map Area.span ∧ InAreas areas' ⟨c.addr, c.size, c.prevUsed, true⟩ := by
  obtain ⟨-, -, -, hiff, -⟩ := live_focus h.shape hA
  obtain ⟨F0, hprev0⟩ := h.focus_free hA hf hends
  obtain ⟨p, hp⟩ : ∃ p, c.addr = p := ⟨_, rfl⟩
  obtain ⟨g, hg⟩ : ∃ g, A.focus xs c ys = g := ⟨_, rfl⟩
  have hga : g.addr = p ∧ g.size = c.size ∧ g.prevUsed = c.prevUsed ∧ g.start = A.start ∧ g.stop = A.stop := by
    rw [← hg]
    exact ⟨hp, rfl, rfl, rfl, rfl⟩
  rw [hg] at F0 hiff
  rw [hp] at hprev0 hrem ⊢
  obtain ⟨hgp, hgs, hgu, hgst, hgsp⟩ := hga
  have hgsz := F0.shape.size
  obtain ⟨s1, hs1⟩ : ∃ s1, s.unlink (bufListIndex c.size) p = s1 := ⟨_, rfl⟩
  have hF1 := F0.unlink
  rw [hgs, hgp, hs1] at hF1
  obtain ⟨F1, hm1, -⟩ := hF1
  rw [hs1] at hrem
  obtain ⟨s2, hs2⟩ : ∃ s2, s1.store (p + 4) 0 = s2 := ⟨_, rfl⟩
  have F2 : Focused s2 held rest g false :=
    hs2 ▸ F1.store_inside (by omega) (fun hn => (by cases hn)) (by omega)
  have hp2 : s2.mem p = s.mem p := by
    rw [← hs2, RvfMem.store_mem, if_neg (by omega), hm1 p (Nat.le_refl _) (by omega)]
  obtain ⟨s3, hs3⟩ : ∃ s3, s2.store (p + c.size + 12) (setPrev true (s2.mem (p + c.size + 12))) = s3 := ⟨_, rfl⟩
  have F3 := F2.mark true
  rw [hgp, hgs, hs3] at F3
  have hres : s.entireBuf remove p = s3 := by
    have hnext : s2.nextChunk p = p + c.size + 12 := by
      have := F2.size
      rw [hgp, hgs] at this
      unfold RvfMem.nextChunk RvfMem.getSize headerSize
      rw [this]
    unfold RvfMem.entireBuf
    simp only [hrem, hs2, hnext]
    exact hs3
  obtain ⟨hma, hms, hmu, hmused, hmf, hmst, hmsp⟩ := g.mark_addr true
  rw [hgp] at hma
  rw [hgs] at hms
  rw [hgu] at hmu
  have hp3 : isPrevInUse (s3.mem p) = c.prevUsed := by
    rw [← hs3, RvfMem.store_mem, if_neg (by omega), hp2]
    exact hprev0
  rw [hres]
  refine ⟨(g.mark true).area true :: rest, fun x hx => ?_, ?_, ⟨_, List.mem_cons_self, ?_⟩⟩
  · have hclose := (F3.setLast x).close_used (by rw [hma, hmu]; exact hp3) hmused ?_
    · rw [hma] at hclose
      exact hclose
    · refine hx.imp_right ?_
      rintro ⟨hne, d, hd, hdf, hda⟩
      refine Focus.mark_live true ⟨d, ?_, hdf, hda⟩
      rcases (hiff d).1 hd with rfl | hd
      · exact absurd (hda.symm.trans hp) hne
      · exact hd
  · rw [List.map_cons, List.map_cons]
    unfold Area.span Focus.area
    rw [hmst, hmsp, hgst, hgsp]
  · refine List.mem_append_right _ ?_
    have hchunk : (⟨p, c.size, c.prevUsed, true⟩ : Chunk) = (g.mark true).chunk true := by
      unfold Focus.chunk
      rw [hma, hms, hmu]
    rw [hchunk]
    exact List.mem_cons_self

/-! ### `_find_buf` -/

/-- A free chunk of the old areas is a buffer of at least the given size now. -/
structure Served (t : RvfMem) (held : List Nat) (areas : List Area) (p n : Nat) (areas' : List Area) : Prop where
  intact : Intact t (p :: held) areas'
  spans : (areas'.map Area.span).Perm (areas.map Area.span)
  free : ∃ c, InAreas areas c ∧ c.used = false ∧ c.addr = p ∧ n ≤ c.size
  buffer : ∃ c, InAreas areas' c ∧ c.used = true ∧ c.addr = p ∧ n ≤ c.size

/-- A chunk is small against the memory. -/
private theorem Layout.size_lt (h : Layout s held areas) (hc : InAreas areas c) :
    0 < c.addr ∧ c.size + 16 < 2 ^ 32 ∧ s.getSize c.addr = c.size := by
  obtain ⟨A, hA, hcA⟩ := hc
  have h1 := (h.shape.tiles A hA).bounds hcA
  have h2 := h.shape.pos A hA
  have h3 := (h.heads c ⟨A, hA, hcA⟩).size
  unfold Chunk.stop at h1
  exact ⟨by omega, by omega, h3⟩

/-- Two chunks at one place are the same. -/
theorem Layout.addr_inj (h : Layout s held areas) (hc : InAreas areas c) (hd : InAreas areas d)
    (hcd : c.addr = d.addr) : c = d := by
  obtain ⟨A, rest, xs, ys, hperm, hA⟩ := exists_focus hd
  obtain ⟨hshape, -, -, hiff, -⟩ := live_focus (h.perm hperm).shape hA
  obtain ⟨B, hB, hcB⟩ := hc
  refine ((hiff c).1 ⟨B, hperm.mem_iff.1 hB, hcB⟩).resolve_right fun hlive => ?_
  have h1 := hshape.outside hlive
  have h2 := (hshape.spaced false).size c (.inl hlive)
  change c.stop ≤ d.addr ∨ d.addr + d.size + 12 ≤ c.addr at h1
  unfold Chunk.stop at h1
  omega

/-- A request is served from a free chunk that is big enough. -/
private theorem serve (h : Layout s held areas) (hc : InAreas areas c) (hf : c.used = false)
    (hends : ∀ d, InAreas areas d → d ≠ c → EndSize s.mem d) (h4 : 4 ≤ n) (hmod : n % 4 = 0) (hn : n ≤ c.size)
    {remove : RvfMem → RvfMem}
    (hrem : ∀ t : RvfMem, t.mem c.addr = s.mem c.addr → t.mem (c.addr + 8) = s.mem (c.addr + 8) →
      remove t = t.unlink (bufListIndex c.size) c.addr)
    {x : Nat} (hx : x = 0 ∨ x ≠ c.addr ∧ ∃ d, InAreas areas d ∧ d.used = false ∧ d.addr = x) :
    ∃ areas', Served (if s.getSize c.addr ≥ (n + minUsableSize) % 2 ^ 32 then s.splitBuf remove c.addr n
      else (s.entireBuf remove c.addr).setLastRemainder x) held areas c.addr n areas' := by
  obtain ⟨A, rest, xs, ys, hperm, hA⟩ := exists_focus hc
  have hL := h.perm hperm
  have hin : ∀ d, InAreas (A :: rest) d ↔ InAreas areas d := by
    intro d
    unfold InAreas
    simp only [hperm.mem_iff]
  obtain ⟨-, -, -, hiff, hnot⟩ := live_focus hL.shape hA
  have hends' : ∀ d, (A.focus xs c ys).Live rest d → EndSize s.mem d := by
    intro d hd
    exact hends d ((hin d).1 ((hiff d).2 (.inr hd))) fun hdc => hnot (hdc ▸ hd)
  obtain ⟨-, hlt, hsz⟩ := h.size_lt hc
  have hwrap : (n + minUsableSize) % 2 ^ 32 = n + 16 := Nat.mod_eq_of_lt (by unfold minUsableSize headerSize; omega)
  have hspans : ∀ {areas' : List Area}, areas'.map Area.span = (A :: rest).map Area.span →
      (areas'.map Area.span).Perm (areas.map Area.span) := fun he => he ▸ (hperm.map Area.span).symm
  rw [hsz, hwrap]
  split
  · rename_i hge
    obtain ⟨areas', hI, hspan, hbuf⟩ := splitBuf_spec hL hA hf hends' h4 hmod hge hrem
    exact ⟨areas', hI, hspans hspan, ⟨c, hc, hf, rfl, hn⟩, _, hbuf, rfl, rfl, Nat.le_refl n⟩
  · obtain ⟨areas', hI, hspan, hbuf⟩ := entireBuf_spec hL hA hf hends' (hrem s rfl rfl)
    refine ⟨areas', hI x (hx.imp_right fun ⟨hne, d, hd, h'⟩ => ⟨hne, d, (hin d).2 hd, h'⟩), hspans hspan,
      ⟨c, hc, hf, rfl, hn⟩, _, hbuf, rfl, rfl, hn⟩

/-- A list whose first chunk is big enough. -/
private theorem serve_first (h : Layout s held areas) {i : Nat} (hi : i < nbFreeLists) (h0 : s.lists i ≠ 0)
    (hge : n ≤ s.getSize (s.lists i)) (h4 : 4 ≤ n) (hmod : n % 4 = 0)
    (hends : ∀ d, InAreas areas d → d.addr ≠ s.lists i → EndSize s.mem d) :
    ∃ areas', Served (if s.getSize (s.lists i) ≥ (n + minUsableSize) % 2 ^ 32 then
        s.splitBuf (fun s' => s'.unlinkFirst i (s.lists i)) (s.lists i) n
      else
        if (s.entireBuf (fun s' => s'.unlinkFirst i (s.lists i)) (s.lists i)).lastRemainder = s.lists i then
          (s.entireBuf (fun s' => s'.unlinkFirst i (s.lists i)) (s.lists i)).setLastRemainder 0
        else s.entireBuf (fun s' => s'.unlinkFirst i (s.lists i)) (s.lists i)) held areas (s.lists i) n areas' := by
  obtain ⟨⟨c, hc, hf, hca, hci⟩, hprev⟩ := h.lists.first hi h0
  obtain ⟨p, hp⟩ : ∃ p, s.lists i = p := ⟨_, rfl⟩
  rw [hp] at hca hprev hge hends ⊢
  have hsz := (h.size_lt hc).2.2
  rw [hca] at hsz
  have hrem : ∀ t : RvfMem, t.mem c.addr = s.mem c.addr → t.mem (c.addr + 8) = s.mem (c.addr + 8) →
      (fun s' : RvfMem => s'.unlinkFirst i p) t = t.unlink (bufListIndex c.size) c.addr := by
    intro t _ h8
    rw [hci, hca]
    refine unlinkFirst_eq ?_
    rw [hca] at h8
    exact h8.trans hprev
  have hlastE : (s.entireBuf (fun s' => s'.unlinkFirst i p) p).lastRemainder = s.lastRemainder := unlinkFirst_last i p
  obtain ⟨x, hx⟩ : ∃ x, (if s.lastRemainder = p then 0 else s.lastRemainder) = x := ⟨_, rfl⟩
  have hxok : x = 0 ∨ x ≠ c.addr ∧ ∃ d, InAreas areas d ∧ d.used = false ∧ d.addr = x := by
    rw [← hx]
    split
    · exact .inl rfl
    · rename_i hne
      exact h.last.imp_right fun hd => ⟨fun hn => hne (hn.trans hca), hd⟩
  have hserve := serve h hc hf (fun d hd hdc => hends d hd fun hda => hdc (h.addr_inj hd hc (hda.trans hca.symm))) h4
    hmod (by omega) hrem hxok
  rw [hca] at hserve
  have hif : (if (s.entireBuf (fun s' => s'.unlinkFirst i p) p).lastRemainder = p then
        (s.entireBuf (fun s' => s'.unlinkFirst i p) p).setLastRemainder 0
      else s.entireBuf (fun s' => s'.unlinkFirst i p) p) =
      (s.entireBuf (fun s' => s'.unlinkFirst i p) p).setLastRemainder x := by
    rw [← hx, hlastE]
    split
    · rfl
    · unfold RvfMem.setLastRemainder
      rw [← hlastE]
  rw [hif]
  exact hserve

/-- The search through the lists. -/
private theorem searchLists_spec (h : Intact s held areas) (h4 : 4 ≤ n) (hmod : n % 4 = 0) (k : Nat) :
    RvfMem.searchLists n k s = (s, 0) ∨
      (RvfMem.searchLists n k s).2 ≠ 0 ∧
        ∃ areas', Served (RvfMem.searchLists n k s).1 held areas (RvfMem.searchLists n k s).2 n areas' := by
  induction k with
  | zero => exact .inl rfl
  | succ k ih =>
    unfold RvfMem.searchLists
    simp only
    split
    · rename_i hfit
      have hserve := serve_first h.toLayout (i := nbFreeLists - (k + 1)) (by unfold nbFreeLists; omega) hfit.1 hfit.2 h4
        hmod fun d hd _ => h.ends d hd
      refine .inr ⟨?_, ?_⟩
      · split
        · exact hfit.1
        · exact hfit.1
      · split
        · rename_i hge
          rw [if_pos hge] at hserve
          exact hserve
        · rename_i hge
          rw [if_neg hge] at hserve
          exact hserve
    · exact ih

/-- The last remainder is big enough. -/
private theorem serve_last (h : Layout s held areas) {p : Nat} (hp : s.lastRemainder = p) (h0 : p ≠ 0)
    (hge : n ≤ s.getSize p) (h4 : 4 ≤ n) (hmod : n % 4 = 0)
    (hends : ∀ d, InAreas areas d → d.addr ≠ p → EndSize s.mem d) :
    ∃ areas', Served (if s.getSize p ≥ (n + minUsableSize) % 2 ^ 32 then
        s.splitBuf (fun s' : RvfMem => s'.unlink (bufListIndex (s'.getSize p)) p) p n
      else (s.entireBuf (fun s' : RvfMem => s'.unlink (bufListIndex (s'.getSize p)) p) p).setLastRemainder 0)
      held areas p n areas' := by
  obtain ⟨c, hc, hf, hca⟩ := h.last.resolve_left (by rw [hp]; exact h0)
  rw [hp] at hca
  have hsz := (h.size_lt hc).2.2
  have hrem : ∀ t : RvfMem, t.mem c.addr = s.mem c.addr → t.mem (c.addr + 8) = s.mem (c.addr + 8) →
      (fun s' : RvfMem => s'.unlink (bufListIndex (s'.getSize p)) p) t = t.unlink (bufListIndex c.size) c.addr := by
    intro t ht _
    have hts : t.getSize c.addr = c.size := by
      unfold RvfMem.getSize at hsz ⊢
      rw [ht, hsz]
    rw [← hca]
    simp only [hts]
  rw [hca] at hsz
  have hserve := serve h hc hf (fun d hd hdc => hends d hd fun hda => hdc (h.addr_inj hd hc (hda.trans hca.symm))) h4
    hmod (by omega) hrem (.inl rfl)
  rw [hca] at hserve
  exact hserve

private theorem Served.mono {p m : Nat} {areas' : List Area} (h : Served t held areas p n areas') (hm : m ≤ n) :
    Served t held areas p m areas' :=
  ⟨h.intact, h.spans, h.free.imp fun _ ⟨h1, h2, h3, h4⟩ => ⟨h1, h2, h3, Nat.le_trans hm h4⟩,
    h.buffer.imp fun _ ⟨h1, h2, h3, h4⟩ => ⟨h1, h2, h3, Nat.le_trans hm h4⟩⟩

theorem Intact.setLast_zero (h : Intact s held areas) : Intact (s.setLastRemainder 0) held areas := by
  have hspaced : Listed (s.setLastRemainder 0) (InAreas areas) := h.lists
  exact ⟨⟨h.shape, h.heads, h.markers, hspaced, .inl rfl, h.buffers, h.nodup⟩, h.ends⟩

/-- What `REQ2SIZE` gives for a size that does not wrap. -/
private theorem req2Size_spec {size : Nat} (h0 : 0 < size) (h : size + 7 < 2 ^ 32) :
    4 ≤ req2Size size ∧ req2Size size % 4 = 0 ∧ size ≤ req2Size size := by
  have hmod : (size + 3 + 4) % 2 ^ 32 = size + 7 := by
    rw [Nat.mod_eq_of_lt (by omega)]
  unfold req2Size
  rw [hmod]
  omega

/-- A buffer is found in an intact heap. -/
theorem findBuf_spec {size : Nat} (h : Intact s held areas) (hsize : size + 7 < 2 ^ 32) :
    ((s.findBuf size).2 = 0 ∧ Intact (s.findBuf size).1 held areas) ∨
      ((s.findBuf size).2 ≠ 0 ∧
        ∃ areas', Served (s.findBuf size).1 held areas (s.findBuf size).2 size areas') := by
  unfold RvfMem.findBuf
  split
  · exact .inl ⟨rfl, h⟩
  · rename_i hs0
    obtain ⟨h4, hmod, hle⟩ := req2Size_spec (Nat.pos_of_ne_zero hs0) hsize
    obtain ⟨n, hn⟩ : ∃ n, req2Size size = n := ⟨_, rfl⟩
    simp only [hn]
    rw [hn] at h4 hmod hle
    -- the search through the lists, once it is reached
    have hsearch : ∀ t : RvfMem, Intact t held areas → ∀ k,
        (RvfMem.searchLists n k t).2 = 0 ∧ Intact (RvfMem.searchLists n k t).1 held areas ∨
          (RvfMem.searchLists n k t).2 ≠ 0 ∧ ∃ areas',
            Served (RvfMem.searchLists n k t).1 held areas (RvfMem.searchLists n k t).2 size areas' := by
      intro t ht k
      rcases searchLists_spec ht h4 hmod k with heq | ⟨hne, areas', hserved⟩
      · rw [heq]
        exact .inl ⟨rfl, ht⟩
      · exact .inr ⟨hne, areas', hserved.mono hle⟩
    split
    · split
      · rename_i hl0
        split
        · rename_i hge
          obtain ⟨areas', hserve⟩ := serve_last h.toLayout rfl hl0 hge h4 hmod fun d hd _ => h.ends d hd
          refine .inr ?_
          split
          · rename_i hge'
            rw [if_pos hge'] at hserve
            exact ⟨hl0, areas', hserve.mono hle⟩
          · rename_i hge'
            rw [if_neg hge'] at hserve
            exact ⟨hl0, areas', hserve.mono hle⟩
        · exact hsearch _ h.setLast_zero _
      · exact hsearch _ h _
    · exact hsearch _ h _

/-- The first request after a pool has been set up is served from this pool. -/
theorem findBuf_fresh {size q : Nat} (h : Layout s held areas) (hsize : size + 7 < 2 ^ 32) (h0 : 0 < size)
    (hends : ∀ c, InAreas areas c → c.addr ≠ q → EndSize s.mem c) (hq : s.lastRemainder = q) (hq0 : q ≠ 0)
    (hfit : req2Size size ≤ s.getSize q)
    (hlist : s.lists (bufListIndex (req2Size size)) = q ∨ s.lists (bufListIndex (req2Size size)) = 0 ∨
      s.getSize (s.lists (bufListIndex (req2Size size))) < req2Size size) :
    (s.findBuf size).2 = q ∧ ∃ areas', Served (s.findBuf size).1 held areas q size areas' := by
  obtain ⟨h4, hmod, hle⟩ := req2Size_spec h0 hsize
  unfold RvfMem.findBuf
  rw [if_neg (by omega)]
  obtain ⟨n, hn⟩ : ∃ n, req2Size size = n := ⟨_, rfl⟩
  simp only [hn]
  rw [hn] at h4 hmod hle hfit hlist
  have hi := bufListIndex_lt n
  obtain ⟨i, hidx⟩ : ∃ i, bufListIndex n = i := ⟨_, rfl⟩
  rw [hidx] at hlist hi ⊢
  by_cases hfirst : s.lists i = 0 ∨ s.getSize (s.lists i) < n
  · rw [if_pos hfirst, hq, if_pos hq0, if_pos hfit]
    obtain ⟨areas', hserve⟩ := serve_last h hq hq0 hfit h4 hmod hends
    split
    · rename_i hge
      rw [if_pos hge] at hserve
      exact ⟨rfl, areas', hserve.mono hle⟩
    · rename_i hge
      rw [if_neg hge] at hserve
      exact ⟨rfl, areas', hserve.mono hle⟩
  · -- the pool is the first one of the list
    rw [if_neg hfirst]
    have hlq : s.lists i = q := hlist.resolve_right hfirst
    obtain ⟨k, hk⟩ : ∃ k, nbFreeLists - i = k + 1 := ⟨nbFreeLists - i - 1, by omega⟩
    have hik : nbFreeLists - (k + 1) = i := by omega
    rw [hk]
    unfold RvfMem.searchLists
    simp only [hik]
    rw [hlq, if_pos ⟨hq0, hfit⟩]
    obtain ⟨areas', hserve⟩ := serve_first h hi (by rw [hlq]; exact hq0) (by rw [hlq]; exact hfit) h4 hmod
      (by rw [hlq]; exact hends)
    rw [hlq] at hserve
    split
    · rename_i hge
      rw [if_pos hge] at hserve
      exact ⟨rfl, areas', hserve.mono hle⟩
    · rename_i hge
      rw [if_neg hge] at hserve
      exact ⟨rfl, areas', hserve.mono hle⟩

/-! ### `_release_buf` -/

/-- The flag for the chunks in front of an address is in the word there. -/
private theorem flag_at {m : Nat → Nat} {a e : Nat} {u w : Bool} {cs : List Chunk} (ht : Tiles a u cs e w)
    (hheads : ∀ c ∈ cs, Head m c) (he : m e = marker w) : isPrevInUse (m a) = u := by
  cases cs with
  | nil =>
    obtain ⟨rfl, rfl⟩ := ht
    rw [he]
    cases u with
    | true => rfl
    | false => rfl
  | cons c cs =>
    obtain ⟨rfl, rfl, -⟩ := ht
    exact (hheads c List.mem_cons_self).prev

/-- The chunk in the middle is merged with its left neighbour, if that is free. -/
private theorem mergeLeft_spec (F : Focused s held rest f false) (hprev : isPrevInUse (s.mem f.addr) = f.prevUsed)
    (hlast : f.Last rest s.lastRemainder) :
    ∃ g, (s.mergeLeft f.addr).2 = g.addr ∧ Focused (s.mergeLeft f.addr).1 held rest g false ∧
      isPrevInUse ((s.mergeLeft f.addr).1.mem g.addr) = true ∧ g.prevUsed = true ∧
      (g.Last rest (s.mergeLeft f.addr).1.lastRemainder ∨ (s.mergeLeft f.addr).1.lastRemainder = g.addr) ∧
      g.start = f.start ∧ g.stop = f.stop := by
  unfold RvfMem.mergeLeft
  by_cases hu : f.prevUsed = true
  · rw [if_pos (hprev.trans hu)]
    exact ⟨f, rfl, F, hprev.trans hu, hu, .inl hlast, rfl, rfl⟩
  · rw [if_neg (by rw [hprev]; exact hu)]
    have hu' : f.prevUsed = false := eq_false_of_ne_true hu
    have hfront := F.shape.front
    have hco := F.shape.frontCoalesced
    rw [hu'] at hfront
    obtain ⟨xs, d, hxs⟩ : ∃ xs d, f.front = xs ++ [d] := by
      cases hl : f.front with
      | nil =>
        rw [hl] at hfront
        cases hfront.2
      | cons c cs => exact ⟨_, _, (List.dropLast_append_getLast (List.cons_ne_nil c cs)).symm⟩
    rw [hxs] at hfront hco
    obtain ⟨hx, ⟨hstop, hd⟩, hd4, -⟩ := hfront.focus
    have hdu : d.prevUsed = true := by
      have := ((coalesced_append hx).1 hco).2.1
      rw [hd] at this
      exact this.resolve_right Bool.false_ne_true
    have hdl : f.Live rest d := .inl (hxs ▸ List.mem_append_right _ (List.mem_singleton_self d))
    unfold Chunk.stop at hstop
    have hsize : s.mem (f.addr - 4) = d.size := by
      rw [show f.addr - 4 = d.addr + d.size + 8 by omega]
      exact F.ends d hdl hd
    have haddr : f.addr - d.size - 12 = d.addr := by omega
    obtain ⟨hFa, hla⟩ := F.absorbLeft hxs hd
    obtain ⟨-, hkeep, -⟩ := unlink_live F hdl hd
    obtain ⟨u, hu⟩ : ∃ u, s.unlink (bufListIndex d.size) d.addr = u := ⟨_, rfl⟩
    rw [hu] at hFa hla hkeep
    have hud : u.mem d.addr = s.mem d.addr := hkeep _ (.inl (.inr (.inr ⟨d, hdl, .inl rfl⟩)))
    have hua : u.getSize f.addr = f.size := by
      unfold RvfMem.getSize
      rw [hkeep _ (.inr rfl)]
      exact F.size
    obtain ⟨v, hv⟩ : ∃ v, u.store d.addr (setSize (s.mem d.addr) (d.size + f.size + 12)) = v := ⟨_, rfl⟩
    rw [hv] at hFa hla
    have hvn : v.nextChunk f.addr = d.addr + (d.size + f.size + 12) + 12 := by
      have hvf : v.getSize f.addr = f.size := by
        unfold RvfMem.getSize at hua ⊢
        rw [← hv, RvfMem.store_mem, if_neg (by omega), hua]
      unfold RvfMem.nextChunk headerSize
      rw [hvf]
      omega
    have hmark := hFa.mark false
    obtain ⟨g, hg⟩ : ∃ g : Focus,
        { f with addr := d.addr, size := d.size + f.size + 12, front := xs, prevUsed := d.prevUsed } = g := ⟨_, rfl⟩
    rw [hg] at hFa hmark
    have hga : g.addr = d.addr ∧ g.size = d.size + f.size + 12 ∧ g.prevUsed = true ∧ g.start = f.start ∧
        g.stop = f.stop := by
      rw [← hg]
      exact ⟨rfl, rfl, hdu, rfl, rfl⟩
    obtain ⟨hma, -, hmu, -, -, hmst, hmsp⟩ := g.mark_addr false
    have hres : v.store (d.addr + (d.size + f.size + 12) + 12)
        (setPrevFree (v.mem (d.addr + (d.size + f.size + 12) + 12))) =
        v.store (g.addr + g.size + 12) (setPrev false (v.mem (g.addr + g.size + 12))) := by
      rw [hga.1, hga.2.1]
      rfl
    have hheader : headerSize = 12 := rfl
    have hvd : v.mem d.addr = setSize (s.mem d.addr) (d.size + f.size + 12) := by
      rw [← hv, RvfMem.store_mem, if_pos rfl]
    simp only [hheader, hsize, haddr, hu, hud, hua, hv, hvn, hres]
    refine ⟨g.mark false, hga.1.symm.trans hma.symm, hmark, ?_, hmu.trans hga.2.2.1, ?_, hmst.trans hga.2.2.2.1,
      hmsp.trans hga.2.2.2.2⟩
    · have hmod := F.shape.mod
      have hdm := (hfront.bounds (List.mem_append_right xs (List.mem_singleton_self d))).2.2.2
      rw [hma, hga.1, RvfMem.store_mem, if_neg (by omega), hvd,
        (setSize_flags (show (d.size + f.size + 12) % 4 = 0 by omega)).2.2]
      exact (F.heads d hdl).prev.trans hdu
    · change (g.mark false).Last rest v.lastRemainder ∨ v.lastRemainder = (g.mark false).addr
      rw [hla, hma, hga.1]
      rcases hlast with h0 | ⟨c, hc, hcf, hca⟩
      · exact .inl (.inl h0)
      · rcases ((F.shape.live_front hxs).1 c).1 hc with rfl | hc
        · exact .inr hca.symm
        · refine .inl (.inr (Focus.mark_live false ⟨c, ?_, hcf, hca⟩))
          rw [← hg]
          exact hc

/-- The chunk in the middle is merged with its right neighbour, if that is free. -/
private theorem mergeRight_spec (F : Focused s held rest f false) (hprev : isPrevInUse (s.mem f.addr) = f.prevUsed)
    (hlast : f.Last rest s.lastRemainder ∨ s.lastRemainder = f.addr) :
    ∃ g, g.addr = f.addr ∧ Focused (s.mergeRight f.addr) held rest g false ∧
      isPrevInUse ((s.mergeRight f.addr).mem g.addr) = g.prevUsed ∧ g.prevUsed = f.prevUsed ∧ Coalesced false g.back ∧
      (g.Last rest (s.mergeRight f.addr).lastRemainder ∨ (s.mergeRight f.addr).lastRemainder = g.addr) ∧
      g.start = f.start ∧ g.stop = f.stop := by
  have hnext : s.nextChunk f.addr = f.addr + f.size + 12 := by
    have := F.size
    unfold RvfMem.nextChunk RvfMem.getSize headerSize
    rw [this]
  have hback := F.shape.back
  have hco := F.shape.backCoalesced
  unfold RvfMem.mergeRight
  rw [hnext]
  cases hb : f.back with
  | nil =>
    -- the end of the area
    rw [hb] at hback
    have h0 : s.getSize (f.addr + f.size + 12) = 0 := by
      unfold RvfMem.getSize
      rw [hback.1, F.stop]
      cases f.lastUsed with
      | true => rfl
      | false => rfl
    rw [if_neg (by rw [h0]; exact fun hn => hn rfl)]
    exact ⟨f, rfl, F, hprev, rfl, hb ▸ trivial, hlast, rfl, rfl⟩
  | cons d ys =>
    rw [hb] at hback hco
    obtain ⟨hda, -, hd4, hdm, hys⟩ := hback
    have hdl : f.Live rest d := .inr (.inl (hb ▸ List.mem_cons_self))
    have hdsz : s.getSize d.addr = d.size := (F.heads d hdl).size
    have hdn : s.nextChunk d.addr = d.stop := by
      unfold RvfMem.nextChunk headerSize
      rw [hdsz]
      rfl
    have hflag : isPrevInUse (s.mem d.stop) = d.used := by
      refine flag_at hys (fun c hc => F.heads c (.inr (.inl (hb ▸ List.mem_cons_of_mem _ hc)))) F.stop
    rw [← hda, if_pos (by rw [hdsz]; omega)]
    simp only [hdn, hflag]
    by_cases hd : d.used = true
    · rw [if_pos hd]
      exact ⟨f, rfl, F, hprev, rfl, by rw [hb]; exact ⟨.inr hd, hco.2⟩, hlast, rfl, rfl⟩
    · rw [if_neg hd]
      have hd' : d.used = false := eq_false_of_ne_true hd
      obtain ⟨hFa, hla⟩ := F.absorbRight hb hd'
      obtain ⟨-, hkeep, -⟩ := unlink_live F hdl hd'
      obtain ⟨u, hu⟩ : ∃ u, s.unlink (bufListIndex d.size) d.addr = u := ⟨_, rfl⟩
      rw [hu] at hFa hla hkeep
      have huf : u.mem f.addr = s.mem f.addr := hkeep _ (.inr rfl)
      have hus : u.getSize f.addr = f.size := by
        unfold RvfMem.getSize
        rw [huf]
        exact F.size
      obtain ⟨v, hv⟩ : ∃ v, u.store f.addr (setSize (s.mem f.addr) (d.size + f.size + 12)) = v := ⟨_, rfl⟩
      rw [hv] at hFa hla
      have hheader : headerSize = 12 := rfl
      simp only [hdsz, hu, huf, hus, hheader, hv]
      obtain ⟨w, hw⟩ : ∃ w, (if v.lastRemainder = d.addr then v.setLastRemainder f.addr else v) = w := ⟨_, rfl⟩
      rw [hw]
      have hwm : w.mem = v.mem := by
        rw [← hw]
        split
        · rfl
        · rfl
      have hFw : Focused w held rest { f with size := d.size + f.size + 12, used := false, back := ys } false := by
        rw [← hw]
        split
        · exact hFa.setLast f.addr
        · exact hFa
      refine ⟨{ f with size := d.size + f.size + 12, used := false, back := ys }, rfl, hFw, ?_, rfl, hd' ▸ hco.2, ?_,
        rfl, rfl⟩
      · have hmod := F.shape.mod
        change isPrevInUse (w.mem f.addr) = f.prevUsed
        rw [hwm, ← hv, RvfMem.store_mem, if_pos rfl,
          (setSize_flags (show (d.size + f.size + 12) % 4 = 0 by omega)).2.2]
        exact hprev
      · rw [← hw, hla]
        split
        · exact .inr rfl
        · rename_i hne
          rw [hla]
          refine hlast.imp_left fun hl => hl.imp_right fun ⟨c, hc, hcf, hca⟩ => ⟨c, ?_, hcf, hca⟩
          refine (((F.shape.live_back hb).1 c).1 hc).resolve_left fun hcd => hne ?_
          rw [← hca, hcd]

/-- The chunk in the middle is free again. -/
private theorem enqueueFree_spec (F : Focused s held rest f false) (hprev : isPrevInUse (s.mem f.addr) = f.prevUsed)
    (hpu : f.prevUsed = true) (hco : Coalesced false f.back)
    (hlast : f.Last rest s.lastRemainder ∨ s.lastRemainder = f.addr) :
    Intact (s.enqueueFree f.addr) held ((f.mark false).area false :: rest) := by
  have hsz : s.getSize f.addr = f.size := F.size
  have h4 := F.shape.size
  obtain ⟨F1, hh1, -, hl1⟩ := F.enqueue
  obtain ⟨s1, hs1⟩ : ∃ s1, s.enqueue (bufListIndex f.size) f.addr = s1 := ⟨_, rfl⟩
  rw [hs1] at F1 hh1 hl1
  have hsz1 : s1.getSize f.addr = f.size := F1.size
  have hend1 : s1.endSize f.addr = f.addr + f.size + 8 := by
    unfold RvfMem.endSize headerSize
    rw [hsz1]
    omega
  obtain ⟨s2, hs2⟩ : ∃ s2, s1.store (f.addr + f.size + 8) f.size = s2 := ⟨_, rfl⟩
  have F2 : Focused s2 held rest f true :=
    hs2 ▸ F1.store_inside (by omega) (fun _ => by omega) (by omega)
  have hnext2 : s2.nextChunk f.addr = f.addr + f.size + 12 := by
    have := F2.size
    unfold RvfMem.nextChunk RvfMem.getSize headerSize
    rw [this]
  obtain ⟨s3, hs3⟩ : ∃ s3, s2.store (f.addr + f.size + 12) (setPrev false (s2.mem (f.addr + f.size + 12))) = s3 :=
    ⟨_, rfl⟩
  have F3 := F2.mark false
  rw [hs3] at F3
  have hres : s.enqueueFree f.addr = s3 := by
    unfold RvfMem.enqueueFree
    simp only [hsz, hs1, hend1, hsz1, hs2, hnext2]
    exact hs3
  obtain ⟨hma, hms, hmu, hmused, -, -, -⟩ := f.mark_addr false
  rw [hres]
  refine F3.close_free ?_ ?_ hmused (hmu.trans hpu) ((Focus.mark_coalesced false).2 hco) ?_
  · rw [hma, hmu, ← hs3, RvfMem.store_mem, if_neg (by omega), ← hs2, RvfMem.store_mem, if_neg (by omega), hh1]
    exact hprev
  · rw [hma, hms, ← hs3, RvfMem.store_mem, if_neg (by omega), ← hs2, RvfMem.store_mem, if_pos rfl]
  · have hl3 : s3.lastRemainder = s.lastRemainder := by
      rw [← hl1, ← hs3, ← hs2]
      rfl
    rw [hl3, hma]
    exact hlast.imp_left fun hl => hl.imp_right fun hc => Focus.mark_live false hc

/-- A buffer is released. -/
theorem releaseBuf_spec {p : Nat} (h : Intact s held areas) (hp : p ∈ held) :
    s.releaseBuf p = (s, false) ∨
      (s.releaseBuf p).2 = true ∧ ∃ areas', Intact (s.releaseBuf p).1 (held.erase p) areas' ∧
        (areas'.map Area.span).Perm (areas.map Area.span) := by
  obtain ⟨c, hc, hu, rfl⟩ := (h.buffers p).1 hp
  obtain ⟨A, rest, xs, ys, hperm, hA⟩ := exists_focus hc
  have hI := h.perm hperm
  obtain ⟨-, -, -, hiff, -⟩ := live_focus hI.shape hA
  unfold RvfMem.releaseBuf
  split
  · exact .inl rfl
  · split
    · exact .inl rfl
    · split
      · exact .inl rfl
      · rename_i hlinked
        refine .inr ⟨rfl, ?_⟩
        obtain ⟨F, hprev⟩ := hI.toLayout.focus hA (fun d hd => hI.ends d ((hiff d).2 (.inr hd)))
          (eq_false_of_ne_true hlinked)
        rw [hu] at F
        obtain ⟨f, hf⟩ : ∃ f, A.focus xs c ys = f := ⟨_, rfl⟩
        have hfa : f.addr = c.addr ∧ f.start = A.start ∧ f.stop = A.stop := by
          rw [← hf]
          exact ⟨rfl, rfl, rfl⟩
        rw [hf] at F hprev hiff
        rw [← hfa.1] at hprev ⊢
        have hlast : f.Last rest s.lastRemainder := by
          refine hI.last.imp_right fun ⟨d, hd, hdf, hda⟩ => ⟨d, ?_, hdf, hda⟩
          refine ((hiff d).1 hd).resolve_left fun hdc => ?_
          rw [hdc, hu] at hdf
          cases hdf
        obtain ⟨g, hga, Fg, hgprev, hgu, hglast, hgst, hgsp⟩ := mergeLeft_spec F hprev hlast
        obtain ⟨u, q, huq⟩ : ∃ u q, s.mergeLeft f.addr = (u, q) := ⟨_, _, rfl⟩
        rw [huq] at hga Fg hgprev hglast ⊢
        simp only at hga Fg hgprev hglast ⊢
        rw [hga]
        obtain ⟨k, hka, Fk, hkprev, hku, hkco, hklast, hkst, hksp⟩ := mergeRight_spec Fg (hgprev.trans hgu.symm) hglast
        have hfree := enqueueFree_spec Fk hkprev (hku.trans hgu) hkco hklast
        rw [hka] at hfree
        rw [hfa.1]
        refine ⟨_, hfree, ?_⟩
        obtain ⟨-, -, -, -, -, hmst, hmsp⟩ := k.mark_addr false
        have hspan : ((k.mark false).area false).span = A.span := by
          unfold Area.span Focus.area
          rw [hmst, hmsp, hkst, hksp, hgst, hgsp, hfa.2.1, hfa.2.2]
        rw [List.map_cons, hspan, ← List.map_cons]
        exact (hperm.map Area.span).symm

end

end Citrine.Rvf
