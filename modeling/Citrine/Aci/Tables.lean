import Citrine.Aci.ConcSms

/-!
# The tables of the concatenation

What each operation of `conc_sms.c` does to the entries of its own message, for tables that have a slot for every
message (`Tables`); the entries of the other messages stay as they are (`Others`).
-/

namespace Citrine.Aci

/-- The tables hold entries of the given messages only, one for each, and have a slot for each. -/
structure Tables (keys : List SmsKey) (s : ConcSms) : Prop where
  assembly : s.assemblyList.Unique SmAssembly.key
  segs : s.segBufList.Unique SegBuf.key
  conc : s.concBufList.Unique ConcBuf.key
  assembly_keys : ∀ k, getAsBuffer k s ≠ none → k ∈ keys
  segs_keys : ∀ k, getSegBuffer k s ≠ none → k ∈ keys
  conc_keys : ∀ k, getConcBuffer k s ≠ none → k ∈ keys
  assembly_length : keys.length ≤ s.assemblyList.length
  segs_length : keys.length ≤ s.segBufList.length
  conc_length : keys.length ≤ s.concBufList.length
  /-- A segment buffer in use holds a segment. -/
  nonempty : ∀ k b, getSegBuffer k s = some b → b.list ≠ []

/-- The entries of the other messages are the same. -/
structure Others (k : SmsKey) (s t : ConcSms) : Prop where
  assembly : ∀ k', k' ≠ k → getAsBuffer k' t = getAsBuffer k' s
  segs : ∀ k', k' ≠ k → getSegBuffer k' t = getSegBuffer k' s
  conc : ∀ k', k' ≠ k → getConcBuffer k' t = getConcBuffer k' s

section
variable {keys : List SmsKey} {k : SmsKey} {s t u : ConcSms} {seqNum maxNum : Nat} {data : List Nat}

theorem Others.refl : Others k s s := ⟨fun _ _ => rfl, fun _ _ => rfl, fun _ _ => rfl⟩

theorem Others.trans (h : Others k s t) (h' : Others k t u) : Others k s u :=
  ⟨fun k' hk => (h'.assembly k' hk).trans (h.assembly k' hk), fun k' hk => (h'.segs k' hk).trans (h.segs k' hk),
    fun k' hk => (h'.conc k' hk).trans (h.conc k' hk)⟩

/-- The segments that wait are those of the segment buffer, if there is one. -/
theorem Tables.waiting_nil (h : Tables keys s) : waitingSegs k s = [] ↔ getSegBuffer k s = none := by
  unfold waitingSegs
  cases hb : getSegBuffer k s with
  | none => exact ⟨fun _ => rfl, fun _ => rfl⟩
  | some b => exact ⟨fun hn => absurd hn (h.nonempty k b hb), fun hn => (by cases hn)⟩

/-! ### The assembly buffer -/

/-- The table of assembly buffers after a write for one message. -/
private theorem Tables.set_assembly (h : Tables keys s) (hk : k ∈ keys) {l : Slots SmAssembly} {o : Bool}
    (hu : l.Unique SmAssembly.key) (hlen : l.length = s.assemblyList.length)
    (hl : ∀ k', k' ≠ k → l.lookup SmAssembly.key k' = getAsBuffer k' s) :
    Tables keys { s with assemblyList := l, overrun := o } ∧ Others k s { s with assemblyList := l, overrun := o } := by
  refine ⟨⟨hu, h.segs, h.conc, fun k' hk' => ?_, h.segs_keys, h.conc_keys, ?_, h.segs_length, h.conc_length,
    h.nonempty⟩, hl, fun _ _ => rfl, fun _ _ => rfl⟩
  · by_cases hkk : k' = k
    · exact hkk ▸ hk
    · refine h.assembly_keys k' ?_
      rw [← hl k' hkk]
      exact hk'
  · change keys.length ≤ l.length
    rw [hlen]
    exact h.assembly_length

/-- A segment goes into the assembly buffer of its message. -/
theorem addToAsBuffer_spec (h : Tables keys s) (hk : k ∈ keys) {a : SmAssembly}
    (ha : ((getAsBuffer k s).getD (SmAssembly.mk k.1 k.2 1 maxNum 0 [] 0)).alloc.append data = a) :
    ∃ t, addToAsBuffer k maxNum data s = some (t, a) ∧ Tables keys t ∧ Others k s t ∧ getAsBuffer k t = some a ∧
      getSegBuffer k t = getSegBuffer k s ∧ getConcBuffer k t = getConcBuffer k s ∧
      t.overrun = (s.overrun || a.overrun) := by
  have hkeep : ∀ b : SmAssembly, b.key = k → (b.alloc.append data).key = k := by
    intro b hb
    rw [← hb]
    unfold SmAssembly.alloc
    split
    · rfl
    · rfl
  unfold addToAsBuffer
  cases hb : getAsBuffer k s with
  | some b =>
    rw [hb, Option.getD_some] at ha
    have hkey : ∀ c, some a = some c → c.key = k := by
      intro c hc
      cases hc
      rw [← ha]
      exact hkeep b (Slots.lookup_key hb)
    obtain ⟨ht, ho⟩ := h.set_assembly hk (o := s.overrun || a.overrun) (h.assembly.assign hkey) Slots.length_change
      fun k' hk' => Slots.lookup_assign_other hkey hk'
    refine ⟨_, by rw [← ha], ht, ho, ?_, rfl, rfl, rfl⟩
    exact Slots.lookup_assign_same h.assembly hkey (by rw [show s.assemblyList.lookup _ k = some b from hb]; simp)
  | none =>
    rw [hb, Option.getD_none] at ha
    have hkey : a.key = k := by
      rw [← ha]
      exact hkeep _ rfl
    have hnone : s.assemblyList.lookup SmAssembly.key a.key = none := hkey ▸ hb
    obtain ⟨l, hl⟩ := Slots.put_isSome h.assembly hnone h.assembly_keys (by rw [hkey]; exact hk) h.assembly_length
    have hlook : ∀ k', l.lookup SmAssembly.key k' = if a.key = k' then some a else s.assemblyList.lookup _ k' :=
      fun k' => Slots.lookup_put hl hnone
    obtain ⟨ht, ho⟩ := h.set_assembly hk (o := s.overrun || a.overrun) (h.assembly.put hl hnone) (Slots.length_put hl)
      fun k' hk' => by rw [hlook, if_neg (by rw [hkey]; exact Ne.symm hk')]; rfl
    refine ⟨_, ?_, ht, ho, (hlook k).trans (if_pos hkey), rfl, rfl, rfl⟩
    simp only [ha, hl, Option.map_some]

/-- A message that is complete leaves its assembly buffer. -/
theorem removeFromAsBuffer_spec (h : Tables keys s) {a : SmAssembly} (ha : getAsBuffer k s = some a) :
    ∃ t, removeFromAsBuffer k s = (t, a.data) ∧ Tables keys t ∧ Others k s t ∧ getAsBuffer k t = none ∧
      getSegBuffer k t = getSegBuffer k s ∧ getConcBuffer k t = getConcBuffer k s ∧ t.overrun = s.overrun := by
  have hkey : ∀ c : SmAssembly, none = some c → c.key = k := fun c hc => by cases hc
  obtain ⟨ht, ho⟩ := h.set_assembly (h.assembly_keys k (by rw [ha]; exact Option.some_ne_none a)) (o := s.overrun)
    (h.assembly.assign hkey) Slots.length_change fun k' hk' => Slots.lookup_assign_other hkey hk'
  refine ⟨_, ?_, ht, ho, ?_, rfl, rfl, rfl⟩
  · unfold removeFromAsBuffer
    rw [ha]
  · exact Slots.lookup_assign_same h.assembly hkey (by
      rw [show s.assemblyList.lookup _ k = some a from ha]
      exact Option.some_ne_none a)

/-! ### The segment buffer -/

/-- The table of segment buffers after a write for one message. -/
private theorem Tables.set_segs (h : Tables keys s) (hk : k ∈ keys) {l : Slots SegBuf}
    (hu : l.Unique SegBuf.key) (hlen : l.length = s.segBufList.length)
    (hl : ∀ k', k' ≠ k → l.lookup SegBuf.key k' = getSegBuffer k' s)
    (hne : ∀ b, l.lookup SegBuf.key k = some b → b.list ≠ []) :
    Tables keys { s with segBufList := l } ∧ Others k s { s with segBufList := l } := by
  refine ⟨⟨h.assembly, hu, h.conc, h.assembly_keys, fun k' hk' => ?_, h.conc_keys, h.assembly_length, ?_,
    h.conc_length, fun k' b hb => ?_⟩, fun _ _ => rfl, hl, fun _ _ => rfl⟩
  · by_cases hkk : k' = k
    · exact hkk ▸ hk
    · refine h.segs_keys k' ?_
      rw [← hl k' hkk]
      exact hk'
  · change keys.length ≤ l.length
    rw [hlen]
    exact h.segs_length
  · by_cases hkk : k' = k
    · exact hne b (hkk ▸ hb)
    · refine h.nonempty k' b ?_
      rw [← hl k' hkk]
      exact hb

private theorem waiting_of_some {b : SegBuf} (hb : getSegBuffer k s = some b) : waitingSegs k s = b.list := by
  unfold waitingSegs
  rw [hb]
  rfl

/-- A segment waits in the segment buffer of its message. -/
theorem addToSegBuffer_spec (h : Tables keys s) (hk : k ∈ keys) (e : SegBufElem)
    (hlen : (waitingSegs k s).length < concMaxSegs) :
    ∃ t, addToSegBuffer k e s = (t, true) ∧ Tables keys t ∧ Others k s t ∧
      waitingSegs k t = waitingSegs k s ++ [e] ∧ getAsBuffer k t = getAsBuffer k s ∧
      getConcBuffer k t = getConcBuffer k s ∧ t.overrun = s.overrun := by
  unfold addToSegBuffer
  cases hb : getSegBuffer k s with
  | some b =>
    rw [waiting_of_some hb] at hlen ⊢
    have hbk : b.key = k := Slots.lookup_key hb
    have hkey : ∀ c : SegBuf, some { b with list := b.list ++ [e] } = some c → c.key = k := by
      intro c hc
      cases hc
      exact hbk
    have hsame := Slots.lookup_assign_same h.segs hkey (by
      rw [show s.segBufList.lookup _ k = some b from hb]
      exact Option.some_ne_none b)
    obtain ⟨ht, ho⟩ := h.set_segs hk (h.segs.assign hkey) Slots.length_change
      (fun k' hk' => Slots.lookup_assign_other hkey hk') fun c hc => by
        rw [hsame] at hc
        cases hc
        exact List.append_ne_nil_of_right_ne_nil _ (List.cons_ne_nil _ _)
    refine ⟨_, if_neg (Nat.not_le_of_lt hlen), ht, ho, ?_, rfl, rfl, rfl⟩
    change ((Slots.lookup SegBuf.key k _).map SegBuf.list).getD [] = _
    rw [hsame]
    rfl
  | none =>
    have hw : waitingSegs k s = [] := by
      unfold waitingSegs
      rw [hb]
      rfl
    obtain ⟨l, hl⟩ := Slots.put_isSome (a := SegBuf.mk k.1 k.2 [e]) h.segs hb h.segs_keys hk h.segs_length
    have hlook : ∀ k', l.lookup SegBuf.key k' = if k = k' then some (SegBuf.mk k.1 k.2 [e])
        else s.segBufList.lookup _ k' := fun k' => Slots.lookup_put hl hb
    have hsame := (hlook k).trans (if_pos rfl)
    obtain ⟨ht, ho⟩ := h.set_segs hk (h.segs.put hl hb) (Slots.length_put hl)
      (fun k' hk' => by rw [hlook, if_neg (Ne.symm hk')]; rfl) fun c hc => by
        rw [hsame] at hc
        cases hc
        exact List.cons_ne_nil _ _
    refine ⟨_, ?_, ht, ho, ?_, rfl, rfl, rfl⟩
    · rw [hl]
    · rw [hw, List.nil_append]
      change ((Slots.lookup SegBuf.key k _).map SegBuf.list).getD [] = _
      rw [hsame]
      rfl

theorem removeFromSegBuffer_none (h : ∀ e ∈ waitingSegs k s, e.seqNum ≠ seqNum) :
    removeFromSegBuffer k seqNum s = none := by
  unfold removeFromSegBuffer
  cases hb : getSegBuffer k s with
  | none => rfl
  | some b =>
    rw [waiting_of_some hb] at h
    have hf : b.list.find? (fun e => e.seqNum == seqNum) = none := by
      rw [List.find?_eq_none]
      intro e he
      rw [beq_iff_eq]
      exact h e he
    simp only [hf]

/-- A waiting segment leaves the segment buffer. -/
theorem removeFromSegBuffer_some (h : Tables keys s) {e : SegBufElem}
    (he : (waitingSegs k s).find? (fun e => e.seqNum == seqNum) = some e) :
    ∃ t, removeFromSegBuffer k seqNum s = some (t, e) ∧ Tables keys t ∧ Others k s t ∧
      waitingSegs k t = (waitingSegs k s).eraseP (fun e => e.seqNum == seqNum) ∧ getAsBuffer k t = getAsBuffer k s ∧
      getConcBuffer k t = getConcBuffer k s ∧ t.overrun = s.overrun := by
  unfold removeFromSegBuffer
  cases hb : getSegBuffer k s with
  | none =>
    unfold waitingSegs at he
    rw [hb] at he
    cases he
  | some b =>
    rw [waiting_of_some hb] at he ⊢
    simp only [he]
    obtain ⟨list, hlist⟩ : ∃ list, b.list.eraseP (fun e => e.seqNum == seqNum) = list := ⟨_, rfl⟩
    obtain ⟨v, hv⟩ : ∃ v, (if list.isEmpty then none else some { b with list := list }) = v := ⟨_, rfl⟩
    rw [hlist, hv]
    have hbk : b.key = k := Slots.lookup_key hb
    have hvb : ∀ c, v = some c → c.key = k ∧ c.list = list ∧ list ≠ [] := by
      intro c hc
      rw [← hv] at hc
      split at hc
      · cases hc
      · rename_i hne
        cases hc
        exact ⟨hbk, rfl, fun hn => hne (by rw [hn]; rfl)⟩
    have hkey : ∀ c, v = some c → c.key = k := fun c hc => (hvb c hc).1
    have hsame := Slots.lookup_assign_same h.segs hkey (by
      rw [show s.segBufList.lookup _ k = some b from hb]
      exact Option.some_ne_none b)
    obtain ⟨ht, ho⟩ := h.set_segs (h.segs_keys k (by rw [hb]; exact Option.some_ne_none b)) (h.segs.assign hkey)
      Slots.length_change (fun k' hk' => Slots.lookup_assign_other hkey hk') fun c hc => by
        rw [hsame] at hc
        rw [(hvb c hc).2.1]
        exact (hvb c hc).2.2
    refine ⟨_, rfl, ht, ho, ?_, rfl, rfl, rfl⟩
    change ((Slots.lookup SegBuf.key k _).map SegBuf.list).getD [] = list
    rw [hsame, ← hv]
    split
    · rename_i hemp
      exact (List.isEmpty_iff.1 hemp).symm
    · rfl

/-! ### The concatenation buffer -/

/-- The table of concatenation buffers after a write for one message. -/
private theorem Tables.set_conc (h : Tables keys s) (hk : k ∈ keys) {l : Slots ConcBuf} {n : Nat}
    (hu : l.Unique ConcBuf.key) (hlen : l.length = s.concBufList.length)
    (hl : ∀ k', k' ≠ k → l.lookup ConcBuf.key k' = getConcBuffer k' s) :
    Tables keys { s with concBufList := l, elemCount := n } ∧
      Others k s { s with concBufList := l, elemCount := n } := by
  refine ⟨⟨h.assembly, h.segs, hu, h.assembly_keys, h.segs_keys, fun k' hk' => ?_, h.assembly_length, h.segs_length,
    ?_, h.nonempty⟩, fun _ _ => rfl, fun _ _ => rfl, hl⟩
  · by_cases hkk : k' = k
    · exact hkk ▸ hk
    · refine h.conc_keys k' ?_
      rw [← hl k' hkk]
      exact hk'
  · change keys.length ≤ l.length
    rw [hlen]
    exact h.conc_length

/-- The segments of a message in the concatenation buffer. -/
def storedSegs (k : SmsKey) (s : ConcSms) : List ConcBufElem := ((getConcBuffer k s).map ConcBuf.list).getD []

private theorem stored_of_some {b : ConcBuf} (hb : getConcBuffer k s = some b) : storedSegs k s = b.list := by
  unfold storedSegs
  rw [hb]
  rfl

/-- A segment that is not yet stored goes into the concatenation buffer. -/
theorem addToConcatList_spec (h : Tables keys s) (hk : k ∈ keys) (e : ConcBufElem)
    (hnew : ∀ e' ∈ storedSegs k s, e'.seqNum ≠ e.seqNum) :
    ∃ t, addToConcatList k maxNum e s = (t, true) ∧ Tables keys t ∧ Others k s t ∧
      storedSegs k t = storedSegs k s ++ [e] ∧ getAsBuffer k t = getAsBuffer k s ∧
      getSegBuffer k t = getSegBuffer k s ∧ t.overrun = s.overrun := by
  unfold addToConcatList
  cases hb : getConcBuffer k s with
  | some b =>
    rw [stored_of_some hb] at hnew ⊢
    have hbk : b.key = k := Slots.lookup_key hb
    have hkey : ∀ c : ConcBuf, some { b with list := b.list ++ [e] } = some c → c.key = k := by
      intro c hc
      cases hc
      exact hbk
    have hsame := Slots.lookup_assign_same h.conc hkey (by
      rw [show s.concBufList.lookup _ k = some b from hb]
      exact Option.some_ne_none b)
    obtain ⟨ht, ho⟩ := h.set_conc hk (n := (s.elemCount + 1) % 256) (h.conc.assign hkey) Slots.length_change
      fun k' hk' => Slots.lookup_assign_other hkey hk'
    have hany : (b.list.any fun e' => e'.seqNum == e.seqNum) = false := by
      rw [List.any_eq_false]
      intro e' he'
      rw [beq_iff_eq]
      exact hnew e' he'
    refine ⟨_, ?_, ht, ho, ?_, rfl, rfl, rfl⟩
    · simp only [hany, Bool.false_eq_true, if_false]
    · change ((Slots.lookup ConcBuf.key k _).map ConcBuf.list).getD [] = _
      rw [hsame]
      rfl
  | none =>
    have hw : storedSegs k s = [] := by
      unfold storedSegs
      rw [hb]
      rfl
    obtain ⟨l, hl⟩ := Slots.put_isSome (a := ConcBuf.mk k.1 k.2 maxNum [e]) h.conc hb h.conc_keys hk h.conc_length
    have hlook : ∀ k', l.lookup ConcBuf.key k' = if k = k' then some (ConcBuf.mk k.1 k.2 maxNum [e])
        else s.concBufList.lookup _ k' := fun k' => Slots.lookup_put hl hb
    obtain ⟨ht, ho⟩ := h.set_conc hk (n := (s.elemCount + 1) % 256) (h.conc.put hl hb) (Slots.length_put hl)
      fun k' hk' => by rw [hlook, if_neg (Ne.symm hk')]; rfl
    refine ⟨_, ?_, ht, ho, ?_, rfl, rfl, rfl⟩
    · rw [hl]
    · rw [hw, List.nil_append]
      change ((Slots.lookup ConcBuf.key k _).map ConcBuf.list).getD [] = _
      rw [hlook, if_pos rfl]
      rfl

private theorem sortConcBuf_subset {n : Nat} {l : List ConcBufElem} {recNum : Nat} : sortConcBuf n l recNum ⊆ l := by
  induction n generalizing l recNum with
  | zero => exact List.nil_subset _
  | succ n ih =>
    unfold sortConcBuf
    simp only
    split
    · exact fun e he => List.eraseP_subset (ih he)
    · rename_i e he
      refine List.cons_subset.2 ⟨List.mem_of_find?_eq_some he, fun e he => List.eraseP_subset (ih he)⟩

/-- The concatenation buffer is put in order. -/
theorem sortConcatList_spec (h : Tables keys s) :
    Tables keys (sortConcatList k s) ∧ Others k s (sortConcatList k s) ∧
      storedSegs k (sortConcatList k s) ⊆ storedSegs k s ∧
      getAsBuffer k (sortConcatList k s) = getAsBuffer k s ∧
      getSegBuffer k (sortConcatList k s) = getSegBuffer k s ∧ (sortConcatList k s).overrun = s.overrun := by
  unfold sortConcatList
  cases hb : getConcBuffer k s with
  | none => exact ⟨h, .refl, List.Subset.refl _, rfl, rfl, rfl⟩
  | some b =>
    have hbk : b.key = k := Slots.lookup_key hb
    have hkey : ∀ c : ConcBuf, some { b with list := sortConcBuf b.list.length b.list 0 } = some c → c.key = k := by
      intro c hc
      cases hc
      exact hbk
    have hsame := Slots.lookup_assign_same h.conc hkey (by
      rw [show s.concBufList.lookup _ k = some b from hb]
      exact Option.some_ne_none b)
    obtain ⟨ht, ho⟩ := h.set_conc (h.conc_keys k (by rw [hb]; exact Option.some_ne_none b)) (n := s.elemCount)
      (h.conc.assign hkey) Slots.length_change fun k' hk' => Slots.lookup_assign_other hkey hk'
    refine ⟨ht, ho, ?_, rfl, rfl, rfl⟩
    rw [stored_of_some hb]
    change ((Slots.lookup ConcBuf.key k _).map ConcBuf.list).getD [] ⊆ _
    rw [hsame]
    exact sortConcBuf_subset

end

end Citrine.Aci
