import Citrine.Lib.Links
import Citrine.Rvf.Buffer
import Citrine.Rvf.Layout

/-!
# The lists of free chunks

Every free chunk is in the list of its size (`Listed`).  A chunk is taken out of its list or put in front of it without
a change to the other words of the chunks (`unlink_spec`, `enqueue_spec`).
-/

namespace Citrine.Rvf

@[simp] theorem RvfMem.store_mem (s : RvfMem) (a v b : Nat) : (s.store a v).mem b = if b = a then v else s.mem b := rfl

@[simp] theorem RvfMem.setList_lists (s : RvfMem) (i v j : Nat) :
    (s.setList i v).lists j = if j = i then v else s.lists j := rfl

/-- The chunks do not overlap, and none is at `NULL`. -/
structure Spaced (L : Chunk → Prop) : Prop where
  size : ∀ c, L c → 4 ≤ c.size
  pos : ∀ c, L c → 0 < c.addr
  apart : ∀ c d, L c → L d → c = d ∨ c.stop ≤ d.addr ∨ d.stop ≤ c.addr

/-- The pointer to the next chunk, and for `NULL` to the first one of a list. -/
def RvfMem.nextIn (s : RvfMem) (i a : Nat) : Nat := if a = 0 then s.lists i else s.pNext a

/-- The free chunks of a list, by their size. -/
def Sized (L : Chunk → Prop) (i a : Nat) : Prop := ∃ c, L c ∧ c.used = false ∧ c.addr = a ∧ bufListIndex c.size = i

/-- Each free chunk is in the list of its size, and the lists hold nothing else. -/
def Listed (s : RvfMem) (L : Chunk → Prop) : Prop :=
  ∀ i, i < nbFreeLists → ∃ l, Linear 0 (s.nextIn i) s.pPrev l ∧ ∀ a, a ∈ l ↔ Sized L i a

section
variable {L : Chunk → Prop} {s t : RvfMem} {c d : Chunk}

theorem bufListIndex_lt (size : Nat) : bufListIndex size < nbFreeLists := by
  unfold bufListIndex nbFreeLists
  split
  · omega
  · split
    · omega
    · split
      · omega
      · split
        · omega
        · omega

/-- The words of a free chunk that link it. -/
def LinkWord (L : Chunk → Prop) (a : Nat) : Prop := ∃ c, L c ∧ c.used = false ∧ (a = c.addr + 4 ∨ a = c.addr + 8)

/-- Only the link words matter to the lists. -/
theorem Listed.congr (h : Listed s L) (hs : Spaced L) (hl : ∀ i, t.lists i = s.lists i)
    (hm : ∀ a, LinkWord L a → t.mem a = s.mem a) : Listed t L := by
  intro i hi
  obtain ⟨l, hlin, hmem⟩ := h i hi
  refine ⟨l, hlin.congr (fun b hb => ?_) fun b hb => ?_, hmem⟩
  · rcases List.mem_cons.1 hb with rfl | hb
    · exact hl i
    · obtain ⟨c, hc, hf, rfl, -⟩ := (hmem b).1 hb
      have hpos := hs.pos c hc
      unfold RvfMem.nextIn
      rw [if_neg (by omega), if_neg (by omega)]
      exact hm _ ⟨c, hc, hf, .inl rfl⟩
  · obtain ⟨c, hc, hf, rfl, -⟩ := (hmem b).1 hb
    exact hm _ ⟨c, hc, hf, .inr rfl⟩

/-- Only the places and sizes of the free chunks matter to the lists. -/
theorem Listed.sized {M : Chunk → Prop} (h : Listed s L) (hm : ∀ i a, Sized L i a ↔ Sized M i a) : Listed s M := by
  intro i hi
  obtain ⟨l, hlin, hmem⟩ := h i hi
  exact ⟨l, hlin, fun a => (hmem a).trans (hm i a)⟩

/-- The first chunk of a list. -/
theorem Listed.first (h : Listed s L) {i : Nat} (hi : i < nbFreeLists) (h0 : s.lists i ≠ 0) :
    Sized L i (s.lists i) ∧ s.pPrev (s.lists i) = 0 := by
  obtain ⟨l, hlin, hmem⟩ := h i hi
  cases l with
  | nil => exact absurd (hlin.empty_iff.2 rfl) h0
  | cons b l =>
    have hb := hlin.first
    have h1 : s.lists i = b := hb.1
    rw [h1]
    exact ⟨(hmem b).1 List.mem_cons_self, hb.2⟩

private theorem Spaced.addr_inj (hs : Spaced L) (hc : L c) (hd : L d) (h : c.addr = d.addr) : c = d := by
  have h1 := hs.size c hc
  have h2 := hs.size d hd
  rcases hs.apart c d hc hd with h3 | h3 | h3
  · exact h3
  · unfold Chunk.stop at h3
    omega
  · unfold Chunk.stop at h3
    omega

/-- A neighbour in a list is no chunk or another free chunk. -/
private def Neighbour (L : Chunk → Prop) (c : Chunk) (x : Nat) : Prop :=
  x = 0 ∨ ∃ d, L d ∧ d.used = false ∧ d ≠ c ∧ d.addr = x ∧ bufListIndex d.size = bufListIndex c.size

private theorem Listed.neighbours (h : Listed s L) (hs : Spaced L) (hc : L c) (hf : c.used = false) :
    Neighbour L c (s.pPrev c.addr) ∧ Neighbour L c (s.pNext c.addr) := by
  obtain ⟨l, hlin, hmem⟩ := h _ (bufListIndex_lt c.size)
  obtain ⟨hp, hn, hpa, hna⟩ := hlin.neighbours ((hmem c.addr).2 ⟨c, hc, hf, rfl, rfl⟩)
  have hpos := hs.pos c hc
  have hnext : s.nextIn (bufListIndex c.size) c.addr = s.pNext c.addr := by
    unfold RvfMem.nextIn
    rw [if_neg (by omega)]
  rw [hnext] at hn hna
  constructor
  · refine hp.imp_right fun hx => ?_
    obtain ⟨d, hd, hdf, hda, hdi⟩ := (hmem _).1 hx
    exact ⟨d, hd, hdf, fun hdc => hpa (by rw [← hda, hdc]), hda, hdi⟩
  · refine hn.imp_right fun hx => ?_
    obtain ⟨d, hd, hdf, hda, hdi⟩ := (hmem _).1 hx
    exact ⟨d, hd, hdf, fun hdc => hna (by rw [← hda, hdc]), hda, hdi⟩

/-- The places of link words of different chunks are different. -/
private theorem Spaced.links_apart (hs : Spaced L) (hc : L c) (hd : L d) (h : c ≠ d) :
    c.addr ≠ d.addr ∧ c.addr ≠ d.addr + 4 ∧ c.addr + 4 ≠ d.addr ∧ c.addr + 4 ≠ d.addr + 8 ∧ c.addr + 8 ≠ d.addr + 4 := by
  have h1 := hs.size c hc
  have h2 := hs.size d hd
  rcases hs.apart c d hc hd with h3 | h3 | h3
  · exact absurd h3 h
  · unfold Chunk.stop at h3
    omega
  · unfold Chunk.stop at h3
    omega

/-- The words of the memory and the lists when a chunk is taken out. -/
private theorem unlink_words (hs : Spaced L) (hc : L c) {x z i : Nat} (hx : s.pPrev c.addr = x)
    (hz : s.pNext c.addr = z) (hxn : Neighbour L c x) :
    (∀ a, (s.unlink i c.addr).mem a = if z ≠ 0 ∧ a = z + 8 then x else if x ≠ 0 ∧ a = x + 4 then z else s.mem a) ∧
    (∀ j, (s.unlink i c.addr).lists j = if x = 0 ∧ j = i then z else s.lists j) ∧
    (s.unlink i c.addr).lastRemainder = s.lastRemainder := by
  obtain ⟨u, hu⟩ : ∃ u, (if x ≠ 0 then s.store (x + 4) z else s.setList i z) = u := ⟨_, rfl⟩
  have humem : ∀ a, u.mem a = if x ≠ 0 ∧ a = x + 4 then z else s.mem a := by
    intro a
    rw [← hu]
    by_cases h0 : x = 0
    · rw [if_neg fun h => h h0, if_neg fun h => h.1 h0]
      rfl
    · rw [if_pos h0, RvfMem.store_mem]
      simp only [ne_eq, h0, not_false_eq_true, true_and]
  have hulists : ∀ j, u.lists j = if x = 0 ∧ j = i then z else s.lists j := by
    intro j
    rw [← hu]
    by_cases h0 : x = 0
    · rw [if_neg fun h => h h0, RvfMem.setList_lists]
      simp only [h0, true_and]
    · rw [if_pos h0, if_neg fun h => h0 h.1]
      rfl
  have hulast : u.lastRemainder = s.lastRemainder := by
    rw [← hu]
    split
    · rfl
    · rfl
  -- the links of the chunk itself are not written
  have hown : c.addr + 4 ≠ x + 4 ∧ c.addr + 8 ≠ x + 4 ∨ x = 0 := by
    rcases hxn with h0 | ⟨d, hd, -, hdc, rfl, -⟩
    · exact .inr h0
    · have := hs.links_apart hc hd (Ne.symm hdc)
      exact .inl (by omega)
  have hun : u.pNext c.addr = z ∧ u.pPrev c.addr = x := by
    unfold RvfMem.pNext RvfMem.pPrev at *
    rw [humem, humem]
    rcases hown with ⟨h1, h2⟩ | h0
    · rw [if_neg fun h => h1 h.2, if_neg fun h => h2 h.2]
      exact ⟨hz, hx⟩
    · rw [if_neg fun h => h.1 h0, if_neg fun h => h.1 h0]
      exact ⟨hz, hx⟩
  have hunlink : s.unlink i c.addr = if z ≠ 0 then u.store (z + 8) x else u := by
    unfold RvfMem.unlink
    simp only [hx, hz, hu, hun.1, hun.2]
  rw [hunlink]
  refine ⟨fun a => ?_, fun j => ?_, ?_⟩
  · by_cases h0 : z = 0
    · rw [if_neg fun h => h h0, if_neg fun h => h.1 h0, humem]
    · rw [if_pos h0, RvfMem.store_mem, humem]
      simp only [ne_eq, h0, not_false_eq_true, true_and]
  · rw [← hulists]
    split
    · rfl
    · rfl
  · rw [← hulast]
    split
    · rfl
    · rfl

/-- A free chunk is taken out of its list. -/
theorem unlink_spec (h : Listed s L) (hs : Spaced L) (hc : L c) (hf : c.used = false) :
    Listed (s.unlink (bufListIndex c.size) c.addr) (fun d => L d ∧ d ≠ c) ∧
    (∀ a, ¬ LinkWord (fun d => L d ∧ d ≠ c) a → (s.unlink (bufListIndex c.size) c.addr).mem a = s.mem a) ∧
    (s.unlink (bufListIndex c.size) c.addr).lastRemainder = s.lastRemainder := by
  obtain ⟨hxn, hzn⟩ := h.neighbours hs hc hf
  obtain ⟨x, hx⟩ : ∃ x, s.pPrev c.addr = x := ⟨_, rfl⟩
  obtain ⟨z, hz⟩ : ∃ z, s.pNext c.addr = z := ⟨_, rfl⟩
  rw [hx] at hxn
  rw [hz] at hzn
  obtain ⟨hmem, hlists, hlast⟩ := unlink_words (i := bufListIndex c.size) hs hc hx hz hxn
  obtain ⟨t, ht⟩ : ∃ t, s.unlink (bufListIndex c.size) c.addr = t := ⟨_, rfl⟩
  rw [ht] at hmem hlists hlast ⊢
  refine ⟨fun i hi => ?_, fun a ha => ?_, hlast⟩
  · obtain ⟨l, hlin, hl⟩ := h i hi
    -- the words of another free chunk
    have hword : ∀ b, b ∈ l → b ≠ c.addr → b ≠ 0 ∧ (t.mem (b + 4) = if b = x then z else s.mem (b + 4)) ∧
        (t.mem (b + 8) = if b = z then x else s.mem (b + 8)) := by
      intro b hb hbc
      obtain ⟨d, hd, hdf, rfl, -⟩ := (hl b).1 hb
      have hpos := hs.pos d hd
      have hfar : ∀ y, Neighbour L c y → y ≠ 0 → d.addr + 4 ≠ y + 8 ∧ d.addr + 8 ≠ y + 4 := by
        intro y hy h0
        obtain ⟨e, he, -, -, rfl, -⟩ := hy.resolve_left h0
        by_cases hde : d = e
        · rw [hde]
          omega
        · have := hs.links_apart hd he hde
          omega
      refine ⟨by omega, ?_, ?_⟩
      · rw [hmem, if_neg fun hn => (hfar z hzn hn.1).1 hn.2]
        by_cases hbx : d.addr = x
        · rw [if_pos ⟨by omega, by omega⟩, if_pos hbx]
        · rw [if_neg fun hn => hbx (by omega), if_neg hbx]
      · rw [hmem]
        by_cases hbz : d.addr = z
        · rw [if_pos ⟨by omega, by omega⟩, if_pos hbz]
        · rw [if_neg fun hn => hbz (by omega), if_neg fun hn => (hfar x hxn hn.1).2 hn.2, if_neg hbz]
    have hsized : ∀ a, Sized (fun d => L d ∧ d ≠ c) i a ↔ a ≠ c.addr ∧ Sized L i a := by
      intro a
      constructor
      · rintro ⟨d, ⟨hd, hdc⟩, hdf, rfl, hdi⟩
        exact ⟨fun hda => hdc (hs.addr_inj hd hc hda), d, hd, hdf, rfl, hdi⟩
      · rintro ⟨hne, d, hd, hdf, rfl, hdi⟩
        exact ⟨d, ⟨hd, fun hdc => hne (by rw [hdc])⟩, hdf, rfl, hdi⟩
    have hcpos := hs.pos c hc
    by_cases hci : bufListIndex c.size = i
    · -- the list of the chunk
      have hcl : c.addr ∈ l := (hl c.addr).2 ⟨c, hc, hf, rfl, hci⟩
      have hnext : s.nextIn i c.addr = z := by
        unfold RvfMem.nextIn
        rw [if_neg (by omega), hz]
      refine ⟨l.erase c.addr, hlin.erase hcl (fun b hb hbc => ?_) fun b hb hbc => ?_, fun a => ?_⟩
      · rw [hnext, hx]
        rcases List.mem_cons.1 hb with rfl | hb
        · change t.lists i = _
          rw [hlists, hci]
          by_cases hx0 : x = 0
          · rw [if_pos ⟨hx0, rfl⟩, if_pos hx0.symm]
          · rw [if_neg fun hn => hx0 hn.1, if_neg (Ne.symm hx0)]
            rfl
        · obtain ⟨hb0, hb4, -⟩ := hword b hb hbc
          unfold RvfMem.nextIn
          rw [if_neg hb0, if_neg hb0]
          exact hb4
      · rw [hnext, hx]
        exact (hword b hb hbc).2.2
      · rw [hsized, ← hl, List.Nodup.mem_erase_iff (List.nodup_cons.1 hlin.nodup).2]
    · -- another list
      have hother : ∀ b ∈ l, b ≠ c.addr ∧ b ≠ x ∧ b ≠ z := by
        intro b hb
        obtain ⟨d, hd, hdf, rfl, hdi⟩ := (hl b).1 hb
        have hn : ∀ y, Neighbour L c y → d.addr ≠ y := by
          rintro y (rfl | ⟨e, he, -, -, rfl, hei⟩) hda
          · have := hs.pos d hd
            omega
          · rw [hs.addr_inj hd he hda] at hdi
            exact hci (hei.symm.trans hdi)
        refine ⟨fun hda => ?_, hn x hxn, hn z hzn⟩
        rw [hs.addr_inj hd hc hda] at hdi
        exact hci hdi
      refine ⟨l, hlin.congr (fun b hb => ?_) fun b hb => ?_, fun a => ?_⟩
      · rcases List.mem_cons.1 hb with rfl | hb
        · change t.lists i = s.lists i
          rw [hlists, if_neg fun hn => hci hn.2.symm]
        · have hob := hother b hb
          obtain ⟨hb0, hb4, -⟩ := hword b hb hob.1
          rw [if_neg hob.2.1] at hb4
          unfold RvfMem.nextIn
          rw [if_neg hb0, if_neg hb0]
          exact hb4
      · have hob := hother b hb
        have hb8 := (hword b hb hob.1).2.2
        rw [if_neg hob.2.2] at hb8
        exact hb8
      · rw [hsized, hl]
        refine ⟨fun hn => ⟨?_, hn⟩, fun hn => hn.2⟩
        exact (hother a ((hl a).2 hn)).1
  · -- only link words are written
    have hnot : ∀ y, Neighbour L c y → y ≠ 0 → a ≠ y + 4 ∧ a ≠ y + 8 := by
      intro y hy h0
      obtain ⟨d, hd, hdf, hdc, rfl, -⟩ := hy.resolve_left h0
      exact ⟨fun hn => ha ⟨d, ⟨hd, hdc⟩, hdf, .inl hn⟩, fun hn => ha ⟨d, ⟨hd, hdc⟩, hdf, .inr hn⟩⟩
    rw [hmem, if_neg fun hn => (hnot z hzn hn.1).2 hn.2, if_neg fun hn => (hnot x hxn hn.1).1 hn.2]

/-- The first chunk of a list is taken out in the same way. -/
theorem unlinkFirst_eq {i p : Nat} (h : s.pPrev p = 0) : s.unlinkFirst i p = s.unlink i p := by
  unfold RvfMem.unlinkFirst RvfMem.unlink
  rw [h]
  have h8 : (s.setList i (s.pNext p)).pPrev p = 0 := h
  simp only [ne_eq, not_true_eq_false, if_false, h8]

theorem unlinkFirst_last (i p : Nat) : (s.unlinkFirst i p).lastRemainder = s.lastRemainder := by
  unfold RvfMem.unlinkFirst
  simp only
  split
  · rfl
  · rfl

private theorem enqueue_words {i p h : Nat} (hh : s.lists i = h) :
    (∀ a, (s.enqueue i p).mem a =
      if h ≠ 0 ∧ a = h + 8 then p else if a = p + 8 then 0 else if a = p + 4 then h else s.mem a) ∧
    (∀ j, (s.enqueue i p).lists j = if j = i then p else s.lists j) ∧
    (s.enqueue i p).lastRemainder = s.lastRemainder := by
  obtain ⟨u, hu⟩ : ∃ u, ((s.store (p + 4) h).setList i p).store (p + 8) 0 = u := ⟨_, rfl⟩
  have humem : ∀ a, u.mem a = if a = p + 8 then 0 else if a = p + 4 then h else s.mem a := by
    intro a
    rw [← hu]
    rfl
  have hun : u.pNext p = h := by
    unfold RvfMem.pNext
    rw [humem, if_neg (by omega), if_pos rfl]
  have henq : s.enqueue i p = if h ≠ 0 then u.store (h + 8) p else u := by
    unfold RvfMem.enqueue
    simp only [hh, hu, hun]
  rw [henq]
  refine ⟨fun a => ?_, fun j => ?_, ?_⟩
  · by_cases h0 : h = 0
    · rw [if_neg fun hn => hn h0, if_neg fun hn => hn.1 h0, humem]
    · rw [if_pos h0, RvfMem.store_mem, humem]
      simp only [ne_eq, h0, not_false_eq_true, true_and]
  · have hulists : u.lists j = if j = i then p else s.lists j := by
      rw [← hu]
      rfl
    rw [← hulists]
    split
    · rfl
    · rfl
  · have hulast : u.lastRemainder = s.lastRemainder := by
      rw [← hu]
      rfl
    rw [← hulast]
    split
    · rfl
    · rfl

/-- A free chunk is put in front of the list of its size. -/
theorem enqueue_spec (h : Listed s L) (hs : Spaced fun d => L d ∨ d = c) (hc : ¬ L c) (hf : c.used = false) :
    Listed (s.enqueue (bufListIndex c.size) c.addr) (fun d => L d ∨ d = c) ∧
    (∀ a, ¬ LinkWord (fun d => L d ∨ d = c) a → (s.enqueue (bufListIndex c.size) c.addr).mem a = s.mem a) ∧
    (s.enqueue (bufListIndex c.size) c.addr).lastRemainder = s.lastRemainder := by
  obtain ⟨x, hx⟩ : ∃ x, s.lists (bufListIndex c.size) = x := ⟨_, rfl⟩
  obtain ⟨hmem, hlists, hlast⟩ := enqueue_words (p := c.addr) hx
  obtain ⟨t, ht⟩ : ∃ t, s.enqueue (bufListIndex c.size) c.addr = t := ⟨_, rfl⟩
  rw [ht] at hmem hlists hlast ⊢
  have hcpos := hs.pos c (.inr rfl)
  have hxn : x ≠ 0 → ∃ d, L d ∧ d.used = false ∧ d.addr = x ∧ bufListIndex d.size = bufListIndex c.size := by
    intro h0
    rw [← hx] at h0 ⊢
    obtain ⟨d, hd, hdf, hda, hdi⟩ := (h.first (bufListIndex_lt c.size) h0).1
    exact ⟨d, hd, hdf, hda, hdi⟩
  have hsep : ∀ d, L d → d.addr ≠ c.addr := fun d hd hda => hc (hs.addr_inj (.inl hd) (.inr rfl) hda ▸ hd)
  have hlinks : ∀ d, L d → d.addr + 4 ≠ c.addr + 8 ∧ d.addr + 8 ≠ c.addr + 4 := by
    intro d hd
    have := hs.links_apart (.inl hd) (.inr rfl) fun hdc => hc (hdc ▸ hd)
    omega
  have hsized : ∀ i a, Sized (fun d => L d ∨ d = c) i a ↔ (a = c.addr ∧ bufListIndex c.size = i) ∨ Sized L i a := by
    intro i a
    constructor
    · rintro ⟨d, hd | rfl, hdf, rfl, hdi⟩
      · exact .inr ⟨d, hd, hdf, rfl, hdi⟩
      · exact .inl ⟨rfl, hdi⟩
    · rintro (⟨rfl, hi⟩ | ⟨d, hd, hdf, rfl, hdi⟩)
      · exact ⟨c, .inr rfl, hf, rfl, hi⟩
      · exact ⟨d, .inl hd, hdf, rfl, hdi⟩
  refine ⟨fun i hi => ?_, fun a ha => ?_, hlast⟩
  · obtain ⟨l, hlin, hl⟩ := h i hi
    have hword : ∀ b ∈ l, b ≠ 0 ∧ b ≠ c.addr ∧ t.mem (b + 4) = s.mem (b + 4) ∧
        t.mem (b + 8) = if b = x then c.addr else s.mem (b + 8) := by
      intro b hb
      obtain ⟨d, hd, hdf, rfl, -⟩ := (hl b).1 hb
      have hpos := hs.pos d (.inl hd)
      have h1 := hsep d hd
      have h2 := hlinks d hd
      have hfar : x ≠ 0 → d.addr + 4 ≠ x + 8 := by
        intro h0
        obtain ⟨e, he, -, rfl, -⟩ := hxn h0
        by_cases hde : d = e
        · rw [hde]
          omega
        · have := hs.links_apart (.inl hd) (.inl he) hde
          omega
      refine ⟨by omega, h1, ?_, ?_⟩
      · rw [hmem, if_neg fun hn => hfar hn.1 hn.2, if_neg (by omega), if_neg (by omega)]
      · rw [hmem]
        by_cases hdx : d.addr = x
        · rw [if_pos ⟨by omega, by omega⟩, if_pos hdx]
        · rw [if_neg fun hn => hdx (by omega), if_neg (by omega), if_neg (by omega), if_neg hdx]
    have hown : t.mem (c.addr + 4) = x ∧ t.mem (c.addr + 8) = 0 := by
      have hx4 : x ≠ 0 → c.addr + 4 ≠ x + 8 ∧ c.addr ≠ x := by
        intro h0
        obtain ⟨e, he, -, rfl, -⟩ := hxn h0
        have h1 := hlinks e he
        have h2 := hsep e he
        omega
      rw [hmem, hmem]
      refine ⟨?_, ?_⟩
      · rw [if_neg fun hn => (hx4 hn.1).1 hn.2, if_neg (by omega), if_pos rfl]
      · rw [if_neg fun hn => (hx4 hn.1).2 (by omega), if_pos rfl]
    have h0l : 0 ∉ l := (List.nodup_cons.1 hlin.nodup).1
    by_cases hci : bufListIndex c.size = i
    · -- the list of the chunk
      have hnew : c.addr ∉ 0 :: l := by
        intro hmem'
        rcases List.mem_cons.1 hmem' with hn | hn
        · omega
        · exact (hword _ hn).2.1 rfl
      have hfirst : s.nextIn i 0 = x := by
        rw [← hci]
        exact hx
      refine ⟨c.addr :: l, hlin.push hnew ?_ ?_ hown.2 (fun b hb => ?_) fun b hb => ?_, fun a => ?_⟩
      · change t.lists i = _
        rw [hlists, if_pos hci.symm]
      · rw [hfirst]
        unfold RvfMem.nextIn
        rw [if_neg (by omega)]
        exact hown.1
      · obtain ⟨hb0, -, hb4, -⟩ := hword b hb
        unfold RvfMem.nextIn
        rw [if_neg hb0, if_neg hb0]
        exact hb4
      · rw [hfirst]
        exact (hword b hb).2.2.2
      · rw [hsized, List.mem_cons, hl]
        simp only [hci, and_true]
    · -- another list
      refine ⟨l, hlin.congr (fun b hb => ?_) fun b hb => ?_, fun a => ?_⟩
      · rcases List.mem_cons.1 hb with rfl | hb
        · change t.lists i = s.lists i
          rw [hlists, if_neg (Ne.symm hci)]
        · obtain ⟨hb0, -, hb4, -⟩ := hword b hb
          unfold RvfMem.nextIn
          rw [if_neg hb0, if_neg hb0]
          exact hb4
      · have hb8 := (hword b hb).2.2.2
        have hbx : b ≠ x := by
          intro hbx
          have h0 := (hword b hb).1
          rw [hbx] at h0 hb
          obtain ⟨d, hd, -, hda, hdi⟩ := hxn h0
          obtain ⟨e, he, -, hea, hei⟩ := (hl x).1 hb
          rw [hs.addr_inj (.inl hd) (.inl he) (hda.trans hea.symm)] at hdi
          exact hci (hdi.symm.trans hei)
        rw [if_neg hbx] at hb8
        exact hb8
      · rw [hsized, hl]
        exact ⟨.inr, fun hn => hn.resolve_left fun hn => hci hn.2⟩
  · rw [hmem, if_neg, if_neg, if_neg]
    · exact fun hn => ha ⟨c, .inr rfl, hf, .inl hn⟩
    · exact fun hn => ha ⟨c, .inr rfl, hf, .inr hn⟩
    · rintro ⟨h0, rfl⟩
      obtain ⟨d, hd, hdf, hda, -⟩ := hxn h0
      exact ha ⟨d, .inl hd, hdf, .inr (by omega)⟩

end

end Citrine.Rvf
