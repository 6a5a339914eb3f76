import Citrine.Rvf.Focus

/-!
# The steps of a change

What each step of the functions on buffers does to a heap around the chunk that is changed (`Focused`).
-/

namespace Citrine.Rvf

/-! ### The heap around a chunk -/

/-- The words of the other chunks and of the markers. -/
def Focus.Word (f : Focus) (rest : List Area) (a : Nat) : Prop :=
  a = f.stop ∨ (∃ A ∈ rest, a = A.stop) ∨
    ∃ c, f.Live rest c ∧ (a = c.addr ∨ c.used = false ∧ a = c.addr + c.size + 8)

/-- The chunks in the lists. -/
def Focus.Linked (f : Focus) (rest : List Area) (listed : Bool) (c : Chunk) : Prop :=
  f.Live rest c ∨ listed = true ∧ c = f.chunk false

/-- The heap around a chunk that is known by its header, and is in the list of its size if it is `listed`. -/
structure Focused (s : RvfMem) (held : List Nat) (rest : List Area) (f : Focus) (listed : Bool) : Prop where
  shape : f.Shape rest
  size : maskSize (s.mem f.addr) = f.size
  unlinked : isLinked (s.mem f.addr) = false
  heads : ∀ c, f.Live rest c → Head s.mem c
  ends : ∀ c, f.Live rest c → EndSize s.mem c
  stop : s.mem f.stop = marker f.lastUsed
  markers : ∀ A ∈ rest, s.mem A.stop = marker A.used
  lists : Listed s (f.Linked rest listed)
  buffers : ∀ a, a ∈ held ↔ ∃ c, f.Live rest c ∧ c.used = true ∧ c.addr = a
  nodup : held.Nodup

section
variable {f : Focus} {rest : List Area} {c d : Chunk} {s t : RvfMem} {held : List Nat} {listed : Bool} {a v : Nat}

theorem Focus.Shape.spaced_linked (h : f.Shape rest) : Spaced (f.Linked rest listed) := by
  have hs := h.spaced false
  have hsub : ∀ c, f.Linked rest listed c → f.Live rest c ∨ c = f.chunk false := fun c hc => hc.imp_right And.right
  exact ⟨fun c hc => hs.size c (hsub c hc), fun c hc => hs.pos c (hsub c hc),
    fun c d hc hd => hs.apart c d (hsub c hc) (hsub d hd)⟩

/-- The words are not in the chunk in the middle. -/
theorem Focus.Shape.word_outside (h : f.Shape rest) (hw : f.Word rest a) :
    a < f.addr ∨ f.addr + f.size + 12 ≤ a := by
  have hm := h.marker_outside (b := false) (.inr rfl)
  rcases hw with rfl | ⟨A, hA, rfl⟩ | ⟨c, hc, hw⟩
  · exact hm.1
  · exact hm.2 A hA
  · have h1 := h.outside hc
    unfold Chunk.stop at h1
    omega

/-- The words are not behind the header of a chunk in use. -/
theorem Focus.Shape.word_used (h : f.Shape rest) (hw : f.Word rest a) (hd : f.Live rest d) (hu : d.used = true) :
    a ≤ d.addr ∨ d.stop ≤ a := by
  have hm := h.marker_outside (b := false) (.inl hd)
  rcases hw with rfl | ⟨A, hA, rfl⟩ | ⟨c, hc, hw⟩
  · omega
  · have := hm.2 A hA
    omega
  · rcases (h.spaced false).apart c d (.inl hc) (.inl hd) with rfl | h1 | h1
    · rcases hw with hw | ⟨hf, -⟩
      · omega
      · rw [hu] at hf
        cases hf
    · unfold Chunk.stop at h1
      omega
    · unfold Chunk.stop at h1
      exact .inr (by unfold Chunk.stop; omega)

/-- The words are not those that link free chunks. -/
theorem Focus.Shape.word_not_link (h : f.Shape rest) (hw : f.Word rest a) : ¬ LinkWord (f.Linked rest listed) a := by
  rintro ⟨c, hc, hf, ha⟩
  have hc' : f.Live rest c ∨ c = f.chunk false := hc.imp_right And.right
  have hsize := (h.spaced false).size c hc'
  have hm := h.marker_outside (b := false) hc'
  unfold Chunk.stop at hm
  rcases hw with rfl | ⟨A, hA, rfl⟩ | ⟨d, hd, hw⟩
  · omega
  · have := hm.2 A hA
    omega
  · have hsized := (h.spaced false).size d (.inl hd)
    rcases (h.spaced false).apart c d hc' (.inl hd) with rfl | h1 | h1
    · omega
    · unfold Chunk.stop at h1
      omega
    · unfold Chunk.stop at h1
      omega

/-- The header in the middle is not a word that links a free chunk. -/
theorem Focus.Shape.addr_not_link (h : f.Shape rest) : ¬ LinkWord (f.Linked rest listed) f.addr := by
  rintro ⟨c, hc, -, ha⟩
  rcases hc with hc | ⟨-, rfl⟩
  · have h1 := h.outside hc
    have h2 := (h.spaced false).size c (.inl hc)
    unfold Chunk.stop at h1
    omega
  · change f.addr = f.addr + 4 ∨ f.addr = f.addr + 8 at ha
    omega

/-- A change that leaves the words of the other chunks. -/
theorem Focused.frame {l : Bool} (h : Focused s held rest f listed) (hlists : Listed t (f.Linked rest l))
    (hsize : maskSize (t.mem f.addr) = f.size) (hunl : isLinked (t.mem f.addr) = false)
    (hm : ∀ a, f.Word rest a → t.mem a = s.mem a) : Focused t held rest f l := by
  refine ⟨h.shape, hsize, hunl, fun c hc => ?_, fun c hc hf => ?_, ?_, fun A hA => ?_, hlists, h.buffers, h.nodup⟩
  · have hc1 := h.heads c hc
    have hw := hm c.addr (.inr (.inr ⟨c, hc, .inl rfl⟩))
    exact ⟨by rw [hw]; exact hc1.size, by rw [hw]; exact hc1.prev, by rw [hw]; exact hc1.unlinked⟩
  · rw [hm _ (.inr (.inr ⟨c, hc, .inr ⟨hf, rfl⟩⟩))]
    exact h.ends c hc hf
  · rw [hm _ (.inl rfl)]
    exact h.stop
  · rw [hm _ (.inr (.inl ⟨A, hA, rfl⟩))]
    exact h.markers A hA

/-- A word of the chunk in the middle is written. -/
theorem Focused.store_inside (h : Focused s held rest f listed) (h1 : f.addr < a)
    (h2 : listed = true → f.addr + 12 ≤ a) (h3 : a < f.addr + f.size + 12) :
    Focused (s.store a v) held rest f listed := by
  refine h.frame (h.lists.congr h.shape.spaced_linked (fun _ => rfl) fun b hb => ?_) ?_ ?_ fun b hb => ?_
  · rw [RvfMem.store_mem, if_neg]
    rintro rfl
    obtain ⟨c, hc, hf, hb⟩ := hb
    rcases hc with hc | ⟨hl, rfl⟩
    · have h4 := h.shape.outside hc
      have h5 := (h.shape.spaced false).size c (.inl hc)
      unfold Chunk.stop at h4
      omega
    · have := h2 hl
      change b = f.addr + 4 ∨ b = f.addr + 8 at hb
      omega
  · rw [RvfMem.store_mem, if_neg (by omega)]
    exact h.size
  · rw [RvfMem.store_mem, if_neg (by omega)]
    exact h.unlinked
  · rw [RvfMem.store_mem, if_neg]
    rintro rfl
    have := h.shape.word_outside hb
    omega

/-- A word of another chunk that is in use is written. -/
theorem Focused.store_used (h : Focused s held rest f listed) (hd : f.Live rest d) (hu : d.used = true)
    (h1 : d.addr < a) (h2 : a < d.stop) : Focused (s.store a v) held rest f listed := by
  have hd' := h.shape.outside hd
  refine h.frame (h.lists.congr h.shape.spaced_linked (fun _ => rfl) fun b hb => ?_) ?_ ?_ fun b hb => ?_
  · rw [RvfMem.store_mem, if_neg]
    rintro rfl
    obtain ⟨c, hc, hf, hb⟩ := hb
    have hsize := h.shape.spaced_linked.size c hc
    rcases h.shape.spaced_linked.apart c d hc (.inl hd) with rfl | h4 | h4
    · rw [hu] at hf
      cases hf
    · unfold Chunk.stop at h4
      omega
    · omega
  · rw [RvfMem.store_mem, if_neg (by omega)]
    exact h.size
  · rw [RvfMem.store_mem, if_neg (by omega)]
    exact h.unlinked
  · rw [RvfMem.store_mem, if_neg]
    rintro rfl
    have := h.shape.word_used hb hd hu
    omega

/-- The header of the chunk in the middle is written. -/
theorem Focused.store_header (h : Focused s held rest f listed) (hsize : maskSize v = f.size)
    (hunl : isLinked v = false) : Focused (s.store f.addr v) held rest f listed := by
  refine h.frame (h.lists.congr h.shape.spaced_linked (fun _ => rfl) fun b hb => ?_) ?_ ?_ fun b hb => ?_
  · rw [RvfMem.store_mem, if_neg]
    rintro rfl
    exact h.shape.addr_not_link hb
  · rw [RvfMem.store_mem, if_pos rfl]
    exact hsize
  · rw [RvfMem.store_mem, if_pos rfl]
    exact hunl
  · rw [RvfMem.store_mem, if_neg]
    rintro rfl
    have := h.shape.word_outside hb
    omega

theorem Focus.Shape.not_live (h : f.Shape rest) (b : Bool) : ¬ f.Live rest (f.chunk b) := by
  intro hc
  have h1 := h.outside hc
  change f.addr + f.size + 12 ≤ f.addr ∨ f.addr + f.size + 12 ≤ f.addr at h1
  omega

/-- The chunk in the middle is taken out of its list. -/
theorem Focused.unlink (h : Focused s held rest f true) :
    Focused (s.unlink (bufListIndex f.size) f.addr) held rest f false ∧
      (∀ a, f.addr ≤ a → a < f.addr + f.size + 12 →
        (s.unlink (bufListIndex f.size) f.addr).mem a = s.mem a) ∧
      (s.unlink (bufListIndex f.size) f.addr).lastRemainder = s.lastRemainder := by
  have hsz := h.shape.size
  obtain ⟨hlists, hmem, hlast⟩ := unlink_spec h.lists h.shape.spaced_linked (c := f.chunk false) (.inr ⟨rfl, rfl⟩) rfl
  have hsub : ∀ a, LinkWord (fun d => f.Linked rest true d ∧ d ≠ f.chunk false) a → LinkWord (f.Linked rest true) a :=
    fun a ⟨c, hc, hf, ha⟩ => ⟨c, hc.1, hf, ha⟩
  have hown : ∀ a, f.addr ≤ a → a < f.addr + f.size + 12 →
      (s.unlink (bufListIndex f.size) f.addr).mem a = s.mem a := by
    intro a h1 h2
    refine hmem a fun hn => ?_
    obtain ⟨c, ⟨hc, hne⟩, hf, ha⟩ := hn
    rcases hc with hc | ⟨-, hc⟩
    · have h4 := h.shape.outside hc
      have h5 := (h.shape.spaced false).size c (.inl hc)
      unfold Chunk.stop at h4
      omega
    · exact hne hc
  have haddr := hown f.addr (Nat.le_refl _) (by omega)
  refine ⟨h.frame (hlists.sized fun i a => ?_) ?_ ?_ fun a ha => ?_, hown, hlast⟩
  · constructor
    · rintro ⟨c, ⟨hc | ⟨-, hc⟩, hne⟩, hf, ha, hi⟩
      · exact ⟨c, .inl hc, hf, ha, hi⟩
      · exact absurd hc hne
    · rintro ⟨c, hc | ⟨hn, -⟩, hf, ha, hi⟩
      · exact ⟨c, ⟨.inl hc, fun hcc => h.shape.not_live false (hcc ▸ hc)⟩, hf, ha, hi⟩
      · cases hn
  · exact haddr ▸ h.size
  · exact haddr ▸ h.unlinked
  · exact hmem a fun hn => h.shape.word_not_link ha (hsub _ hn)

/-- The chunk in the middle is put into the list of its size. -/
theorem Focused.enqueue (h : Focused s held rest f false) :
    Focused (s.enqueue (bufListIndex f.size) f.addr) held rest f true ∧
      (s.enqueue (bufListIndex f.size) f.addr).mem f.addr = s.mem f.addr ∧
      (∀ a, f.addr + 12 ≤ a → a < f.addr + f.size + 12 →
        (s.enqueue (bufListIndex f.size) f.addr).mem a = s.mem a) ∧
      (s.enqueue (bufListIndex f.size) f.addr).lastRemainder = s.lastRemainder := by
  have hiff : ∀ c, (f.Linked rest false c ∨ c = f.chunk false) ↔ f.Linked rest true c := by
    intro c
    constructor
    · rintro ((hc | ⟨hn, -⟩) | hc)
      · exact .inl hc
      · cases hn
      · exact .inr ⟨rfl, hc⟩
    · rintro (hc | ⟨-, hc⟩)
      · exact .inl (.inl hc)
      · exact .inr hc
  have hspaced : Spaced fun d => f.Linked rest false d ∨ d = f.chunk false := by
    have hs := @Focus.Shape.spaced_linked _ _ true h.shape
    exact ⟨fun c hc => hs.size c ((hiff c).1 hc), fun c hc => hs.pos c ((hiff c).1 hc),
      fun c d hc hd => hs.apart c d ((hiff c).1 hc) ((hiff d).1 hd)⟩
  have hnot : ¬ f.Linked rest false (f.chunk false) := by
    rintro (hc | ⟨hn, -⟩)
    · exact h.shape.not_live false hc
    · cases hn
  obtain ⟨hlists, hmem, hlast⟩ := enqueue_spec h.lists hspaced hnot rfl
  have hsub : ∀ a, LinkWord (fun d => f.Linked rest false d ∨ d = f.chunk false) a → LinkWord (f.Linked rest true) a :=
    fun a ⟨c, hc, hf, ha⟩ => ⟨c, (hiff c).1 hc, hf, ha⟩
  have haddr := hmem f.addr fun hn => h.shape.addr_not_link (hsub _ hn)
  refine ⟨h.frame (hlists.sized fun i a => ?_) ?_ ?_ fun a ha => ?_, haddr, fun a h1 h2 => ?_, hlast⟩
  · constructor
    · rintro ⟨c, hc, hf, ha, hi⟩
      exact ⟨c, (hiff c).1 hc, hf, ha, hi⟩
    · rintro ⟨c, hc, hf, ha, hi⟩
      exact ⟨c, (hiff c).2 hc, hf, ha, hi⟩
  · exact haddr ▸ h.size
  · exact haddr ▸ h.unlinked
  · exact hmem a fun hn => h.shape.word_not_link ha (hsub _ hn)
  · refine hmem a fun hn => ?_
    obtain ⟨c, hc, hf, ha⟩ := hsub _ hn
    rcases hc with hc | ⟨-, rfl⟩
    · have h4 := h.shape.outside hc
      have h5 := (h.shape.spaced false).size c (.inl hc)
      unfold Chunk.stop at h4
      omega
    · change a = f.addr + 4 ∨ a = f.addr + 8 at ha
      omega

end

end Citrine.Rvf
