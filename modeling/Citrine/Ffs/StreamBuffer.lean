import Citrine.Ffs.Stream

/-!
# The buffer of an open file

While a file is being changed its buffer holds one chunk, with full ones in front of it, and the descriptor says which one it
is (`Stream.Held`); otherwise all octets are in the chunks.  Each operation of a descriptor keeps this (`Stream.Valid`) and is
said what it does to the chunks with the one in the buffer (`Stream.whole`), which `datasync` does not change.
-/

namespace Citrine.Ffs

/-! ### The places of the chunks -/

section
variable {cs : List (List (BitVec 8))} {t i priv : Nat}

/-- The chunk of an offset, or the last one. -/
private theorem segfileSeek_aux (h : cs ≠ []) :
    ∃ j o, segfileSeek t cs i priv = (min t (priv + cs.flatten.length), i + j, o) ∧ j < cs.length ∧
      (priv ≤ t → (t < priv + cs.flatten.length ∧ priv + startOf cs j + o = t ∧ o < (chunkAt cs j).length) ∨
        (priv + cs.flatten.length ≤ t ∧ j + 1 = cs.length ∧ o = (chunkAt cs j).length)) := by
  induction cs generalizing i priv with
  | nil => exact absurd rfl h
  | cons c cs ih =>
    have hlen : (c :: cs).flatten.length = c.length + cs.flatten.length := by
      rw [List.flatten_cons, List.length_append]
    by_cases hlt : t < priv + c.length
    · refine ⟨0, t - priv, ?_, Nat.zero_lt_succ _, fun hle => .inl ⟨by omega, ?_, ?_⟩⟩
      · rw [Nat.min_eq_left (by omega)]
        cases cs <;> exact if_pos hlt
      · rw [startOf_zero]
        omega
      · show t - priv < c.length
        omega
    · cases cs with
      | nil =>
        refine ⟨0, c.length, ?_, Nat.zero_lt_succ _, fun hle => .inr ⟨?_, rfl, rfl⟩⟩
        · rw [hlen, List.flatten_nil, List.length_nil, Nat.add_zero, Nat.min_eq_right (by omega)]
          exact if_neg hlt
        · rw [hlen, List.flatten_nil, List.length_nil]
          omega
      | cons d cs =>
        obtain ⟨j, o, heq, hj, hplace⟩ := @ih (i + 1) (priv + c.length) (List.cons_ne_nil d cs)
        have hstart : startOf (c :: d :: cs) (j + 1) = c.length + startOf (d :: cs) j := by
          unfold startOf
          rw [List.take_succ_cons, List.flatten_cons, List.length_append]
        refine ⟨j + 1, o, ?_, Nat.succ_lt_succ hj, fun hle => ?_⟩
        · rw [segfileSeek, if_neg hlt, heq, hlen]
          rw [Nat.add_assoc, show i + 1 + j = i + (j + 1) by omega]
        · rw [hstart, hlen]
          rcases hplace (by omega) with ⟨hlt', hpos, ho⟩ | ⟨hge, hlast, ho⟩
          · exact .inl ⟨by omega, by omega, ho⟩
          · exact .inr ⟨by omega, congrArg (· + 1) hlast, ho⟩

/-- `segfile_seek` finds the chunk of an offset, or the last one. -/
theorem segfileSeek_spec (h : cs ≠ []) (t : Nat) :
    ∃ i o, segfileSeek t cs 0 0 = (min t cs.flatten.length, i, o) ∧ i < cs.length ∧
      ((t < cs.flatten.length ∧ startOf cs i + o = t ∧ o < (chunkAt cs i).length) ∨
        (cs.flatten.length ≤ t ∧ i + 1 = cs.length ∧ o = (chunkAt cs i).length)) := by
  obtain ⟨j, o, heq, hj, hplace⟩ := @segfileSeek_aux cs t 0 0 h
  rw [Nat.zero_add, Nat.zero_add] at heq
  refine ⟨j, o, heq, hj, ?_⟩
  rcases hplace (Nat.zero_le t) with ⟨hlt, hpos, ho⟩ | ⟨hge, hlast, ho⟩
  · exact .inl ⟨by omega, by omega, ho⟩
  · exact .inr ⟨by omega, hlast, ho⟩

theorem objectDatasize_eq : objectDatasize cs = cs.flatten.length := List.length_flatten.symm

end

/-! ### The buffer -/

/-- The buffer of a file that is being changed: it holds a chunk at its place, with full ones in front of it, and one that is
full if there are others behind it. -/
structure Stream.Held (m : Nat) (s : Stream) : Prop where
  room : m ≤ s.buf.length
  start : s.wfp = startOf s.chunks s.place
  near : s.wfp ≤ s.fp
  work : s.wch ≠ .replaced
  inside : s.place ≤ s.chunks.length
  chunk : ∀ i, s.wch = .chunk i → i < s.chunks.length
  front : ∀ i, i + 1 = s.place → (chunkAt s.chunks i).length = m ∨ startOf s.chunks s.place = 0
  back : s.place + 1 < s.chunks.length → (chunkAt s.chunks s.place).length = m ∧ s.wfp + m ≤ s.size

/-- The descriptor of an open file. -/
structure Stream.Valid (m : Nat) (s : Stream) : Prop where
  tidy : Tidy m s.chunks
  room : isOpenOption s.options ffsOWronly = true → m ≤ s.buf.length
  writer : s.dirty = true → isOpenOption s.options ffsOWronly = true
  reach : s.fp ≤ s.size
  size : s.size = (s.whole m).flatten.length
  held : s.dirty = true → s.Held m

section
variable {m : Nat} {s : Stream}

private theorem chunkSize_le : s.chunkSize m ≤ m := by
  unfold Stream.chunkSize
  split <;> omega

theorem chunkSize_eq : s.chunkSize m = min (s.size - s.wfp) m := by
  unfold Stream.chunkSize
  split <;> omega

theorem place_none (h : s.wch = .none) : s.place = s.chunks.length := by
  unfold Stream.place
  rw [h]

theorem place_chunk {i : Nat} (h : s.wch = .chunk i) : s.place = i := by
  unfold Stream.place
  rw [h]

theorem whole_clean (h : s.dirty = false) : s.whole m = s.chunks := if_neg (by simp [h])

private theorem whole_dirty (h : s.dirty = true) : s.whole m = putChunk s.chunks s.place (s.held m) := if_pos h

private theorem Stream.Held.length (h : s.Held m) : (s.held m).length = s.chunkSize m := by
  unfold Stream.held
  have := h.room
  have := chunkSize_le (s := s) (m := m)
  rw [List.length_take]
  omega

private theorem Stream.Held.full (h : s.Held m) (hback : s.place + 1 < s.chunks.length) : (s.held m).length = m := by
  have := (h.back hback).2
  rw [h.length, chunkSize_eq]
  omega

private theorem Stream.Held.tidy (h : s.Held m) (ht : Tidy m s.chunks) : Tidy m (putChunk s.chunks s.place (s.held m)) :=
  ht.putChunk h.inside (h.length ▸ chunkSize_le) h.front fun hback => ⟨h.full hback, (h.back hback).1⟩

theorem Stream.Valid.whole (h : s.Valid m) : Tidy m (s.whole m) := by
  cases hdirty : s.dirty with
  | false =>
    rw [whole_clean hdirty]
    exact h.tidy
  | true =>
    rw [whole_dirty hdirty]
    exact (h.held hdirty).tidy h.tidy

/-- The chunks with one put in its place are those that `datasync` leaves. -/
private theorem Stream.Held.store (h : s.Held m) (data : List (BitVec 8)) :
    s.store data = putChunk s.chunks s.place data := by
  unfold Stream.store
  cases hwch : s.wch with
  | none => rw [place_none hwch, putChunk_append]
  | chunk i => rw [place_chunk hwch, putChunk_set (h.chunk i hwch)]
  | replaced => exact absurd hwch h.work

/-- The chunks hold what the buffer held. -/
def Stream.synced (m : Nat) (s : Stream) : Stream :=
  { s with chunks := s.whole m, dirty := false, wch := if s.dirty then .none else s.wch }

theorem Stream.Valid.synced (h : s.Valid m) : (s.synced m).Valid m :=
  ⟨h.whole, h.room, fun hd => absurd hd Bool.false_ne_true, h.reach, h.size, fun hd => absurd hd Bool.false_ne_true⟩

/-- The file pointer is moved, not in front of the buffer. -/
theorem Stream.Valid.moved (h : s.Valid m) {fp : Nat} (hreach : fp ≤ s.size) (hnear : s.dirty = true → s.wfp ≤ fp) :
    Stream.Valid m { s with fp := fp } := by
  refine ⟨h.tidy, h.room, h.writer, hreach, h.size, fun hd => ?_⟩
  have hheld := h.held hd
  exact ⟨hheld.room, hheld.start, hnear hd, hheld.work, hheld.inside, hheld.chunk, hheld.front, hheld.back⟩

private theorem whole_synced : (s.synced m).whole m = s.whole m := rfl

/-- `datasync` does this, or it fails. -/
theorem datasync_cases (h : s.Valid m) (alloc : Int) :
    s.datasync m alloc = (effsOk, s.synced m) ∨ (alloc < 0 ∧ s.datasync m alloc = (alloc, s)) := by
  unfold Stream.datasync
  cases hdirty : s.dirty with
  | false =>
    refine .inl ?_
    rw [if_pos (by simp)]
    unfold Stream.synced
    rw [whole_clean hdirty, hdirty]
    obtain ⟨chunks, options, fp, size, wfp, dirty, wch, buf⟩ := s
    cases hdirty
    rfl
  | true =>
    rw [if_neg (by simp)]
    by_cases halloc : alloc < 0
    · exact .inr ⟨halloc, if_pos halloc⟩
    · refine .inl ?_
      unfold Stream.synced
      rw [if_neg halloc, whole_dirty hdirty, hdirty]
      rw [(h.held hdirty).store]
      rfl

end

/-! ### Writing -/

section
variable {m : Nat} {s : Stream} {src : List (BitVec 8)}

/-- A buffer that was not dirty gets the chunk of the file pointer. -/
private theorem load_spec (hm : 0 < m) (h : s.Valid m) (hclean : s.dirty = false)
    (hwriter : isOpenOption s.options ffsOWronly = true) :
    Stream.Valid m { s.load m with dirty := true } ∧
      (Stream.whole m { s.load m with dirty := true }).flatten = s.chunks.flatten ∧
      (s.load m).fp = s.fp ∧ (s.load m).options = s.options ∧ s.fp < (s.load m).wfp + m := by
  have hsize : s.size = s.chunks.flatten.length := by
    rw [h.size, whole_clean hclean]
  have hreach := h.reach
  have hroom := h.room hwriter
  obtain ⟨i, o, hseek, hi, hplace⟩ := segfileSeek_spec h.tidy.some s.fp
  unfold Stream.load
  rw [hseek]
  simp only
  by_cases hnew : (s.size = s.fp ∧ o = m) ∨ s.size = 0
  · -- a new chunk behind the others, the last of which is full
    have hfull (j : Nat) (hj : j + 1 = s.chunks.length) :
        (chunkAt s.chunks j).length = m ∨ startOf s.chunks s.chunks.length = 0 := by
      rw [startOf_length]
      rcases hnew with ⟨hend, ho⟩ | hzero
      · rcases hplace with ⟨hlt, _, _⟩ | ⟨_, hlast, hlen⟩
        · omega
        · obtain rfl : j = i := by omega
          exact .inl (hlen ▸ ho)
      · exact .inr (by omega)
    have hheld : Stream.held m { s with wfp := s.size, wch := .none, dirty := true } = [] := by
      have hzero : Stream.chunkSize m { s with wfp := s.size, wch := .none, dirty := true } = 0 := by
        rw [chunkSize_eq]
        show min (s.size - s.size) m = 0
        omega
      unfold Stream.held
      rw [hzero, List.take_zero]
    have hwhole : (Stream.whole m { s with wfp := s.size, wch := .none, dirty := true }).flatten = s.chunks.flatten := by
      rw [whole_dirty rfl, hheld]
      show (putChunk s.chunks s.chunks.length []).flatten = s.chunks.flatten
      rw [putChunk_append, List.flatten_append, List.flatten_singleton, List.append_nil]
    rw [if_pos hnew]
    refine ⟨⟨h.tidy, h.room, fun _ => hwriter, hreach, ?_, fun _ => ?_⟩, hwhole, rfl, rfl, ?_⟩
    · rw [hwhole]
      exact hsize
    · refine ⟨hroom, hsize.trans startOf_length.symm, ?_,
        show WorkChunk.none ≠ .replaced by decide, Nat.le_refl _, fun _ hi => ?_, hfull,
        fun hback => absurd hback (Nat.not_succ_lt_self)⟩
      · show s.size ≤ s.fp
        rcases hnew with ⟨hend, _⟩ | hzero <;> omega
      · cases hi
    · show s.fp < s.size + m
      omega
  · -- the chunk of the file pointer, or the last one, which is not full
    have hstart : startOf s.chunks i + o = s.fp := by
      rcases hplace with ⟨_, hpos, _⟩ | ⟨hend, hlast, ho⟩
      · exact hpos
      · have hsucc := startOf_succ hi
        rw [hlast, startOf_length] at hsucc
        omega
    have hshort := h.tidy.short i hi
    have hread : segmentRead s.chunks i s.buf.length 0 = chunkAt s.chunks i := by
      unfold segmentRead
      rw [List.drop_zero, List.take_of_length_le (by omega)]
    have hnext := startOf_succ hi
    have hfull (hlast : i + 1 < s.chunks.length) : (chunkAt s.chunks i).length = m := by
      refine h.tidy.full_of hlast ?_
      rcases hplace with ⟨_, _, ho⟩ | ⟨_, hend, _⟩ <;> omega
    have hlen : min (s.size - (s.fp - o)) m = (chunkAt s.chunks i).length := by
      by_cases hlast : i + 1 < s.chunks.length
      · have := hfull hlast
        have hle : startOf s.chunks (i + 1) ≤ s.chunks.flatten.length := startOf_le_length
        omega
      · rw [show i + 1 = s.chunks.length by omega, startOf_length] at hnext
        omega
    have hheld : Stream.held m { s with
        buf := splice s.buf 0 (chunkAt s.chunks i), wfp := s.fp - o, wch := .chunk i, dirty := true } = chunkAt s.chunks i := by
      unfold Stream.held
      rw [chunkSize_eq]
      show (splice s.buf 0 (chunkAt s.chunks i)).take (min (s.size - (s.fp - o)) m) = chunkAt s.chunks i
      rw [hlen]
      unfold splice
      rw [List.take_zero, List.nil_append, List.take_left']
      rfl
    have hwhole : (Stream.whole m { s with
        buf := splice s.buf 0 (chunkAt s.chunks i), wfp := s.fp - o, wch := .chunk i, dirty := true }) = s.chunks := by
      rw [whole_dirty rfl, hheld]
      exact putChunk_self hi
    have hbuf : m ≤ (splice s.buf 0 (chunkAt s.chunks i)).length := by
      rw [length_splice (Nat.zero_le _)]
      omega
    rw [if_neg hnew, hread]
    refine ⟨⟨h.tidy, fun _ => hbuf, fun _ => hwriter, hreach, ?_, fun _ => ?_⟩, congrArg List.flatten hwhole, rfl, rfl, ?_⟩
    · rw [hwhole]
      exact hsize
    · refine ⟨hbuf, ?_, Nat.sub_le _ _, show WorkChunk.chunk i ≠ .replaced by simp, Nat.le_of_lt hi, fun j hj => ?_,
        fun j hj => ?_, fun hback => ⟨hfull hback, ?_⟩⟩
      · show s.fp - o = startOf s.chunks i
        omega
      · cases hj
        exact hi
      · have hj : j + 1 = i := hj
        subst hj
        exact h.tidy.full j hi
      · have hback : i + 1 < s.chunks.length := hback
        have := hfull hback
        have hle : startOf s.chunks (i + 1) ≤ s.chunks.flatten.length := startOf_le_length
        show s.fp - o + m ≤ s.size
        omega
    · show s.fp < s.fp - o + m
      rcases hplace with ⟨_, _, ho⟩ | ⟨hend, hlast, ho⟩
      · omega
      · have hne : ¬(s.size = s.fp ∧ o = m) := fun hc => hnew (.inl hc)
        omega

end

/-- Data is copied to the buffer. -/
private def Stream.copied (s : Stream) (d : List (BitVec 8)) : Stream :=
  { s with
    dirty := true
    buf := splice s.buf (s.fp - s.wfp) d
    fp := s.fp + d.length
    size := if s.size < s.fp + d.length then s.fp + d.length else s.size }

section
variable {m : Nat} {s : Stream} {src d : List (BitVec 8)}

private theorem copied_size : (s.copied d).size = max s.size (s.fp + d.length) := by
  show (if s.size < s.fp + d.length then s.fp + d.length else s.size) = max s.size (s.fp + d.length)
  split <;> omega

/-- What is copied to the buffer is written to the file. -/
private theorem copied_octets (h : s.Valid m) (hdirty : s.dirty = true) (hfit : s.fp - s.wfp + d.length ≤ m) :
    ((s.copied d).whole m).flatten = splice (s.whole m).flatten s.fp d := by
  have hheld := h.held hdirty
  have hnear := hheld.near
  have hreach := h.reach
  have hroom := hheld.room
  have hlen := hheld.length
  have hcs := chunkSize_eq (s := s) (m := m)
  have hcs' : (s.copied d).chunkSize m = max (s.chunkSize m) (s.fp - s.wfp + d.length) := by
    rw [chunkSize_eq, copied_size, hcs]
    show min (max s.size (s.fp + d.length) - s.wfp) m = _
    omega
  have hbuf : (s.copied d).held m = splice (s.held m) (s.fp - s.wfp) d := by
    unfold Stream.held
    rw [hcs']
    exact take_splice (by omega) (by omega)
  have hwfp : (s.chunks.take s.place).flatten.length = s.wfp := hheld.start.symm
  rw [whole_dirty rfl, whole_dirty hdirty, hbuf, flatten_putChunk, flatten_putChunk]
  have hmiddle := splice_middle (a := (s.chunks.take s.place).flatten) (l := s.held m) (p := s.fp - s.wfp) (d := d)
    (c := (s.chunks.drop (s.place + 1)).flatten) (by omega) (by
      by_cases hback : s.place + 1 < s.chunks.length
      · have := hheld.full hback
        exact .inl (by omega)
      · rw [List.drop_eq_nil_of_le (by omega)]
        exact .inr rfl)
  rw [hwfp, show s.wfp + (s.fp - s.wfp) = s.fp by omega] at hmiddle
  exact hmiddle.symm

private theorem copied_valid (h : s.Valid m) (hdirty : s.dirty = true) (hfit : s.fp - s.wfp + d.length ≤ m) :
    (s.copied d).Valid m := by
  have hheld := h.held hdirty
  have hnear := hheld.near
  have hreach := h.reach
  have hroom := hheld.room
  have hsize := copied_size (s := s) (d := d)
  have hbuf : m ≤ (s.copied d).buf.length := by
    show m ≤ (splice s.buf (s.fp - s.wfp) d).length
    rw [length_splice (by omega)]
    omega
  have hfp : (s.copied d).fp = s.fp + d.length := rfl
  refine ⟨h.tidy, fun _ => hbuf, fun _ => h.writer hdirty, by omega, ?_, fun _ => ?_⟩
  · rw [copied_octets h hdirty hfit, length_splice (by rw [← h.size]; exact hreach), ← h.size]
    exact hsize
  · refine ⟨hbuf, hheld.start, ?_, hheld.work, hheld.inside, hheld.chunk, hheld.front, fun hback => ?_⟩
    · show s.wfp ≤ s.fp + d.length
      omega
    · obtain ⟨hfull, hle⟩ := hheld.back hback
      refine ⟨hfull, ?_⟩
      rw [hsize]
      show s.wfp + m ≤ max s.size (s.fp + d.length)
      omega

/-- How much is copied in a round: all, or up to the end of the buffer. -/
private theorem fill_eq (src : List (BitVec 8)) (hfp : s.fp < s.wfp + m) (hnear : s.wfp ≤ s.fp) :
    ∃ n, s.fill m src = (n, s.copied (src.take n)) ∧ n ≤ src.length ∧ (src ≠ [] → 0 < n) ∧ s.fp - s.wfp + n ≤ m ∧
      (n < src.length → s.wfp + m ≤ s.fp + n) := by
  obtain ⟨n, hn⟩ : ∃ n, n = if src.length ≤ m - (s.fp - s.wfp) then src.length else m - (s.fp - s.wfp) := ⟨_, rfl⟩
  have hcases : (src.length ≤ m - (s.fp - s.wfp) ∧ n = src.length) ∨
      (m - (s.fp - s.wfp) < src.length ∧ n = m - (s.fp - s.wfp)) := by
    rw [hn]
    split <;> omega
  refine ⟨n, ?_, by omega, fun hsrc => ?_, by omega, by omega⟩
  · have hlen : (src.take n).length = n := by
      rw [List.length_take]
      omega
    unfold Stream.fill Stream.copied
    simp only [← hn, hlen]
  · have := List.length_pos_iff.2 hsrc
    omega

end

section
variable {m : Nat} {s : Stream} {src : List (BitVec 8)} {alloc : Nat → Int}

/-- What writing some data comes to: all of it is written, or an allocation fails and a part of it is. -/
private def PartWritten (m : Nat) (s : Stream) (src : List (BitVec 8)) (alloc : Nat → Int) (error : Int)
    (s' : Stream) : Prop :=
  ∃ k, k ≤ src.length ∧ s'.Valid m ∧ s'.options = s.options ∧ s'.fp = s.fp + k ∧
    (s'.whole m).flatten = splice (s.whole m).flatten s.fp (src.take k) ∧
    ((error = effsOk ∧ k = src.length) ∨ (error < 0 ∧ ∃ j, alloc j < 0))

/-- The buffer that a round copies to, as one that holds a chunk already. -/
private theorem ready_spec (src : List (BitVec 8)) (hm : 0 < m) (h : s.Valid m)
    (hwriter : isOpenOption s.options ffsOWronly = true) (hfp : s.dirty = true → s.fp < s.wfp + m) :
    ∃ r : Stream, (if s.dirty then s else s.load m).fill m src = r.fill m src ∧ r.Valid m ∧ r.dirty = true ∧
      (r.whole m).flatten = (s.whole m).flatten ∧ r.fp = s.fp ∧ r.options = s.options ∧ r.fp < r.wfp + m := by
  cases hdirty : s.dirty with
  | true => exact ⟨s, by rw [if_pos rfl], h, hdirty, rfl, rfl, rfl, hfp hdirty⟩
  | false =>
    obtain ⟨hv, hoct, hrfp, hopt, hlt⟩ := load_spec hm h hdirty hwriter
    refine ⟨{ s.load m with dirty := true }, ?_, hv, rfl, ?_, hrfp, hopt, ?_⟩
    · -- a round sets `dirty` itself
      rw [if_neg Bool.false_ne_true]
      rfl
    · rw [hoct, whole_clean hdirty]
    · show (s.load m).fp < (s.load m).wfp + m
      rw [hrfp]
      exact hlt

/-- The data that a round has copied is written to the file, and the buffer is full or nothing is left. -/
private theorem round_spec (src : List (BitVec 8)) (hm : 0 < m) (h : s.Valid m)
    (hwriter : isOpenOption s.options ffsOWronly = true) (hfp : s.dirty = true → s.fp < s.wfp + m) :
    ∃ n t, (if s.dirty then s else s.load m).fill m src = (n, t) ∧ n ≤ src.length ∧ (src ≠ [] → 0 < n) ∧ t.Valid m ∧
      t.options = s.options ∧ t.fp = s.fp + n ∧
      (t.whole m).flatten = splice (s.whole m).flatten s.fp (src.take n) ∧ (n < src.length → t.wfp + m ≤ t.fp) := by
  obtain ⟨r, heq, hv, hdirty, hoct, hrfp, hopt, hlt⟩ := ready_spec src hm h hwriter hfp
  obtain ⟨n, hfill, hn, hpos, hfit, hmore⟩ := fill_eq src hlt (hv.held hdirty).near
  have hlen : (src.take n).length = n := by
    rw [List.length_take]
    omega
  refine ⟨n, r.copied (src.take n), heq.trans hfill, hn, hpos, copied_valid hv hdirty (by omega), hopt, ?_, ?_,
    fun hlt => ?_⟩
  · show r.fp + (src.take n).length = s.fp + n
    rw [hlen, hrfp]
  · rw [copied_octets hv hdirty (by omega), hoct, hrfp]
  · show r.wfp + m ≤ r.fp + (src.take n).length
    rw [hlen]
    exact hmore hlt

/-- The rest is written behind what has been written. -/
private theorem written_behind {t t' : Stream} {n : Nat} {error : Int} (h : s.Valid m) (hn : n ≤ src.length)
    (hopt : t.options = s.options) (hfp : t.fp = s.fp + n)
    (hoct : (t.whole m).flatten = splice (s.whole m).flatten s.fp (src.take n))
    (hrest : PartWritten m t (src.drop n) alloc error t') : PartWritten m s src alloc error t' := by
  obtain ⟨k, hk, hv, hopt', hfp', hoct', hend⟩ := hrest
  rw [List.length_drop] at hk
  have hlen : (src.take n).length = n := by
    rw [List.length_take]
    omega
  have hsplice := splice_splice (d := src.take n) (e := (src.drop n).take k) (h.size ▸ h.reach)
  rw [hlen] at hsplice
  refine ⟨n + k, by omega, hv, hopt'.trans hopt, by omega, ?_, ?_⟩
  · rw [hoct', hoct, hfp, hsplice, ← List.take_add]
  · rcases hend with ⟨hok, hall⟩ | hfail
    · rw [List.length_drop] at hall
      exact .inl ⟨hok, by omega⟩
    · exact .inr hfail

/-- The loop writes all of the data unless an allocation fails. -/
private theorem writeLoop_spec (src : List (BitVec 8)) (alloc : Nat → Int) (hm : 0 < m) {fuel j : Nat} (h : s.Valid m)
    (hwriter : isOpenOption s.options ffsOWronly = true) (hfp : s.dirty = true → s.fp < s.wfp + m)
    (hfuel : src.length < fuel) :
    ∃ error s', s.writeLoop m alloc fuel j src = some (error, s') ∧ PartWritten m s src alloc error s' := by
  induction fuel generalizing j s src with
  | zero => exact absurd hfuel (Nat.not_lt_zero _)
  | succ fuel ih =>
    obtain ⟨n, t, hfill, hn, hpos, hv, hopt, htfp, hoct, hmore⟩ := round_spec src hm h hwriter hfp
    unfold Stream.writeLoop
    simp only [hfill]
    by_cases hfull : t.wfp + m ≤ t.fp
    · rcases datasync_cases hv (alloc j) with hsync | ⟨halloc, hsync⟩
      · -- the chunk is stored, and the rest begins a new one
        simp only [if_pos hfull, hsync, if_neg (show ¬effsOk < 0 by decide)]
        by_cases hrest : src.drop n = []
        · have := List.drop_eq_nil_iff.1 hrest
          refine ⟨effsOk, t.synced m, if_pos hrest, n, hn, hv.synced, hopt, htfp, ?_, .inl ⟨rfl, by omega⟩⟩
          rw [whole_synced, hoct]
        · rw [if_neg hrest]
          have hne : src ≠ [] := fun hnil => hrest (by rw [hnil, List.drop_nil])
          have hlt := hpos hne
          obtain ⟨error, s', heq, hwritten⟩ := @ih (t.synced m) (src.drop n) (j + 1) hv.synced
            (show isOpenOption t.options ffsOWronly = true from hopt ▸ hwriter)
            (fun hd => absurd hd Bool.false_ne_true) (by rw [List.length_drop]; omega)
          exact ⟨error, s', heq, written_behind (t := t.synced m) h hn hopt htfp (whole_synced ▸ hoct) hwritten⟩
      · simp only [if_pos hfull, hsync, if_pos halloc]
        exact ⟨alloc j, t, rfl, n, hn, hv, hopt, htfp, hoct, .inr ⟨halloc, j, halloc⟩⟩
    · -- there is room left, so that nothing else is
      have hall : n = src.length := by
        by_contra hne
        exact hfull (hmore (by omega))
      simp only [if_neg hfull, if_neg (show ¬effsOk < 0 by decide)]
      refine ⟨effsOk, t, if_pos (List.drop_eq_nil_of_le (Nat.le_of_eq hall.symm)), n, hn, hv, hopt, htfp, hoct, ?_⟩
      exact .inl ⟨rfl, hall⟩

/-- What is written by `ffs_write` goes to the file pointer, or to the end of a file that is appended to. -/
theorem ffsWrite_spec (src : List (BitVec 8)) (alloc : Nat → Int) (hm : 0 < m) (h : s.Valid m)
    (hwriter : isOpenOption s.options ffsOWronly = true) :
    ∃ ret s', s.ffsWrite m alloc src = some (ret, s') ∧ s'.Valid m ∧ s'.options = s.options ∧
      ∃ k, k ≤ src.length ∧ s'.fp = (if isOpenOption s.options ffsOAppend then s.size else s.fp) + k ∧
        (s'.whole m).flatten =
          splice (s.whole m).flatten (if isOpenOption s.options ffsOAppend then s.size else s.fp) (src.take k) ∧
        ((ret = src.length ∧ k = src.length) ∨ (ret < 0 ∧ ∃ j, alloc j < 0)) := by
  obtain ⟨a, ha, hv, hopt, hoct, hfp⟩ : ∃ a : Stream,
      (if isOpenOption s.options ffsOAppend then { s with fp := s.size } else s) = a ∧ a.Valid m ∧ a.options = s.options ∧
      (a.whole m).flatten = (s.whole m).flatten ∧ a.fp = if isOpenOption s.options ffsOAppend then s.size else s.fp := by
    by_cases happend : isOpenOption s.options ffsOAppend = true
    · exact ⟨_, if_pos happend, h.moved (Nat.le_refl _) fun hd => Nat.le_trans (h.held hd).near h.reach, rfl, rfl,
        (if_pos happend).symm⟩
    · exact ⟨_, if_neg happend, h, rfl, rfl, (if_neg happend).symm⟩
  rw [← hfp, ← hoct, ← hopt]
  have hstart : a.fp ≤ (a.whole m).flatten.length := hv.size ▸ hv.reach
  -- the buffer is stored if the file pointer is behind it
  obtain ⟨error, b, hb, hready⟩ : ∃ error b,
      (if a.wfp + m ≤ a.fp then a.datasync m (alloc 0) else (effsOk, a)) = (error, b) ∧
      ((error = effsOk ∧ b.Valid m ∧ b.options = a.options ∧ b.fp = a.fp ∧ (b.whole m).flatten = (a.whole m).flatten ∧
        (b.dirty = true → b.fp < b.wfp + m)) ∨ (error < 0 ∧ alloc 0 < 0 ∧ b = a)) := by
    by_cases hout : a.wfp + m ≤ a.fp
    · rcases datasync_cases hv (alloc 0) with hsync | ⟨halloc, hsync⟩
      · exact ⟨_, _, (if_pos hout).trans hsync, .inl ⟨rfl, hv.synced, rfl, rfl, rfl, fun hd => absurd hd Bool.false_ne_true⟩⟩
      · exact ⟨_, _, (if_pos hout).trans hsync, .inr ⟨halloc, halloc, rfl⟩⟩
    · exact ⟨_, _, if_neg hout, .inl ⟨rfl, hv, rfl, rfl, rfl, fun _ => by omega⟩⟩
  unfold Stream.ffsWrite
  rw [if_neg (by simp [hwriter])]
  simp only [ha, hb]
  rcases hready with ⟨rfl, hbv, hbopt, hbfp, hboct, hbdirty⟩ | ⟨herror, halloc, rfl⟩
  · obtain ⟨error, t, hloop, k, hk, htv, htopt, htfp, htoct, hend⟩ := @writeLoop_spec m b src alloc hm _ 1
      hbv (hbopt ▸ hopt ▸ hwriter) hbdirty (Nat.lt_succ_self _)
    rw [if_neg (show ¬effsOk < 0 by decide), hloop]
    refine ⟨if error < 0 then error else src.length, t, rfl, htv, htopt.trans hbopt, k, hk, by omega, ?_, ?_⟩
    · rw [htoct, hboct, hbfp]
    · rcases hend with ⟨rfl, hall⟩ | ⟨herror, hfail⟩
      · exact .inl ⟨if_neg (show ¬effsOk < 0 by decide), hall⟩
      · exact .inr ⟨(if_pos herror).symm ▸ herror, hfail⟩
  · refine ⟨error, b, if_pos herror, hv, rfl, 0, Nat.zero_le _, rfl, ?_, .inr ⟨herror, 0, halloc⟩⟩
    rw [List.take_zero, splice_nil]

end

/-! ### Reading -/

section
variable {m : Nat} {s : Stream} {i : Option Nat} {j o offset size : Nat}

/-- A chunk of the file has a segment, unless it is a new one. -/
private def Stream.Covered (s : Stream) (j : Nat) : Prop := s.dirty = true → j = s.place → s.place + 1 < s.chunks.length

private theorem length_whole (h : s.Valid m) (hdirty : s.dirty = true) :
    (s.whole m).length = max s.chunks.length (s.place + 1) := by
  rw [whole_dirty hdirty]
  exact length_putChunk (h.held hdirty).inside

private theorem covered_of_ne (hne : s.dirty = true → j ≠ s.place) : s.Covered j := fun hd hj => absurd hj (hne hd)

/-- The chunk in front of another one of the file has a segment. -/
private theorem covered_front (h : s.Valid m) (hj : j + 1 < (s.whole m).length) : s.Covered j := by
  intro hdirty hplace
  rw [length_whole h hdirty] at hj
  omega

/-- The chunks of the file are where those on the flash are. -/
private theorem Stream.Covered.place (h : s.Valid m) (hj : j < (s.whole m).length) (hc : s.Covered j) :
    j < s.chunks.length ∧ startOf s.chunks j = startOf (s.whole m) j ∧
      (chunkAt s.chunks j).length = (chunkAt (s.whole m) j).length ∧
      ((s.dirty = true → j ≠ s.place) → chunkAt s.chunks j = chunkAt (s.whole m) j) := by
  cases hdirty : s.dirty with
  | false =>
    rw [whole_clean hdirty] at hj ⊢
    exact ⟨hj, rfl, rfl, fun _ => rfl⟩
  | true =>
    have hheld := h.held hdirty
    have hinside := hheld.inside
    rw [length_whole h hdirty] at hj
    rw [whole_dirty hdirty, chunkAt_putChunk hinside]
    rcases Nat.lt_trichotomy j s.place with hlt | heq | hgt
    · rw [startOf_putChunk hinside (by omega), if_neg (by omega)]
      exact ⟨by omega, rfl, rfl, fun _ => rfl⟩
    · have hback := hc hdirty heq
      rw [heq, startOf_putChunk hinside (Nat.le_refl _), if_pos rfl]
      exact ⟨by omega, rfl, (hheld.back hback).1.trans (hheld.full hback).symm, fun hne => absurd rfl (hne rfl)⟩
    · have hback : s.place + 1 < s.chunks.length := by omega
      rw [startOf_putChunk_behind (by omega) ((hheld.full hback).trans (hheld.back hback).1.symm), if_neg (by omega)]
      exact ⟨by omega, rfl, rfl, fun _ => rfl⟩

/-- What `is_offset_in_buf` is asked for. -/
private theorem isOffsetInBuf_iff (h : s.Valid m) (hj : j < (s.whole m).length) (ho : o < (chunkAt (s.whole m) j).length)
    (hpos : startOf (s.whole m) j + o = s.fp) :
    s.isOffsetInBuf m s.fp = true ↔ s.dirty = true ∧ j = s.place := by
  unfold Stream.isOffsetInBuf
  rw [Bool.and_eq_true, Bool.and_eq_true, decide_eq_true_iff, decide_eq_true_iff, and_assoc]
  refine and_congr_right fun hdirty => ?_
  have hheld := h.held hdirty
  have hinside := hheld.inside
  have hnext := startOf_succ hj
  have hstart : startOf (s.whole m) s.place = s.wfp := by
    rw [whole_dirty hdirty, startOf_putChunk hinside (Nat.le_refl _)]
    exact hheld.start.symm
  have hat : chunkAt (s.whole m) s.place = s.held m := by
    rw [whole_dirty hdirty, chunkAt_putChunk hinside, if_pos rfl]
  have hlen := length_whole h hdirty
  have hshort : (s.held m).length ≤ m := hheld.length ▸ chunkSize_le
  rcases Nat.lt_trichotomy j s.place with hlt | heq | hgt
  · have hle : startOf (s.whole m) (j + 1) ≤ startOf (s.whole m) s.place := startOf_le hlt
    exact ⟨fun hin => by omega, fun heq => by omega⟩
  · rw [heq, hat] at ho
    rw [heq] at hpos
    exact ⟨fun _ => heq, fun _ => by omega⟩
  · -- a chunk behind the buffer, which is full then
    have hfull := hheld.full (by omega)
    have hnextp := startOf_succ (show s.place < (s.whole m).length by omega)
    rw [hat] at hnextp
    have hle : startOf (s.whole m) (s.place + 1) ≤ startOf (s.whole m) j := startOf_le hgt
    exact ⟨fun hin => by omega, fun heq => by omega⟩

/-- What a round reads: the rest of a chunk of the file, or as much of it as is asked for. -/
private theorem round_data (h : s.Valid m) (hj : j < (s.whole m).length) (ho : o < (chunkAt (s.whole m) j).length)
    (hpos : startOf (s.whole m) j + o = s.fp) (hi : s.Covered j → i = some j ∧ offset = o) (n : Nat) :
    (if s.isOffsetInBuf m s.fp then
        some ((s.buf.drop (s.fp - s.wfp)).take (min (min n (m - (s.fp - s.wfp))) (s.size - s.fp)))
      else i.map fun i => segmentRead s.chunks i n offset) = some (((chunkAt (s.whole m) j).drop o).take n) := by
  have hbuf := isOffsetInBuf_iff h hj ho hpos
  by_cases hin : s.isOffsetInBuf m s.fp = true
  · obtain ⟨hdirty, rfl⟩ := hbuf.1 hin
    have hheld := h.held hdirty
    have hat : chunkAt (s.whole m) s.place = s.held m := by
      rw [whole_dirty hdirty, chunkAt_putChunk hheld.inside, if_pos rfl]
    have hstart : startOf (s.whole m) s.place = s.wfp := by
      rw [whole_dirty hdirty, startOf_putChunk hheld.inside (Nat.le_refl _)]
      exact hheld.start.symm
    have hcs := chunkSize_eq (s := s) (m := m)
    rw [if_pos hin, hat, show s.fp - s.wfp = o by omega]
    unfold Stream.held
    rw [List.drop_take, List.take_take]
    congr 2
    omega
  · have hne : s.dirty = true → j ≠ s.place := fun hdirty heq => hin (hbuf.2 ⟨hdirty, heq⟩)
    obtain ⟨rfl, rfl⟩ := hi (covered_of_ne hne)
    rw [if_neg hin, Option.map_some]
    unfold segmentRead
    rw [((covered_of_ne hne).place h hj).2.2.2 hne]

/-- The loop reads what is asked for, or what there is of it. -/
private theorem readLoop_spec (size : Nat) (dst : List (BitVec 8)) (hm : 0 < m) {fuel : Nat} (h : s.Valid m)
    (hj : j < (s.whole m).length) (ho : o < (chunkAt (s.whole m) j).length) (hpos : startOf (s.whole m) j + o = s.fp)
    (hi : s.Covered j → i = some j ∧ offset = o) (hdst : dst.length ≤ size) (hfuel : (s.whole m).length ≤ j + fuel) :
    s.readLoop m size fuel i offset dst =
      some (dst ++ ((s.whole m).flatten.drop s.fp).take (size - dst.length),
        { s with fp := s.fp + (((s.whole m).flatten.drop s.fp).take (size - dst.length)).length }) := by
  induction fuel generalizing s i j o offset dst with
  | zero => omega
  | succ fuel ih =>
    obtain ⟨n, hn⟩ : ∃ n, size - dst.length = n := ⟨_, rfl⟩
    obtain ⟨d, hd⟩ : ∃ d, ((chunkAt (s.whole m) j).drop o).take n = d := ⟨_, rfl⟩
    have hdata := round_data h hj ho hpos hi n
    have hrest := drop_flatten hj (Nat.le_of_lt ho)
    have hdlen : d.length = min n ((chunkAt (s.whole m) j).length - o) := by
      rw [← hd, List.length_take, List.length_drop]
    have hnext := startOf_succ hj
    have hsize := h.size
    have hle : startOf (s.whole m) (j + 1) ≤ (s.whole m).flatten.length := startOf_le_length
    rw [hpos] at hrest
    unfold Stream.readLoop
    simp only [hn, hdata, hd, List.length_append]
    by_cases hmore : dst.length + d.length ≠ size ∧ s.fp + d.length < s.size
    · -- the rest of the chunk has been read, and there is another one
      obtain ⟨hshort, hlt⟩ := hmore
      have hall : d = (chunkAt (s.whole m) j).drop o := by
        rw [← hd, List.take_of_length_le]
        rw [List.length_drop]
        omega
      have hfp : startOf (s.whole m) (j + 1) + 0 = s.fp + d.length := by omega
      obtain ⟨hj', ho'⟩ := h.whole.next hm (i := j + 1) (by omega) (by omega)
      have hi' (hc : s.Covered (j + 1)) : nextChunk s.chunks i = some (j + 1) ∧ 0 = 0 := by
        rw [(hi (covered_front h hj')).1]
        exact ⟨if_pos (hc.place h hj').1, rfl⟩
      have hmoved : Stream.Valid m { s with fp := s.fp + d.length } :=
        h.moved (Nat.le_of_lt hlt) fun hd => Nat.le_trans (h.held hd).near (Nat.le_add_right _ _)
      have hloop := @ih { s with fp := s.fp + d.length } (nextChunk s.chunks i) (j + 1) 0 0 (dst ++ d) hmoved hj' ho' hfp
        hi' (by rw [List.length_append]; omega) (show (s.whole m).length ≤ j + 1 + fuel by omega)
      have hwhole : Stream.whole m { s with fp := s.fp + d.length } = s.whole m := rfl
      rw [if_pos ⟨hshort, hlt⟩, hloop, hwhole]
      have htake : ((s.whole m).flatten.drop s.fp).take n =
          d ++ ((s.whole m).flatten.drop (s.fp + d.length)).take (size - (dst ++ d).length) := by
        rw [List.length_append, show n = d.length + (size - (dst.length + d.length)) by omega, List.take_add,
          List.drop_drop, hrest, ← hall, List.take_left]
      rw [htake]
      simp only [List.append_assoc, List.length_append, Nat.add_assoc]
    · -- nothing more is asked for, or the file has ended
      have htake : ((s.whole m).flatten.drop s.fp).take n = d := by
        rw [hrest]
        by_cases hlt : dst.length + d.length = size
        · rw [List.take_append_of_le_length]
          · exact hd
          · rw [List.length_drop]
            omega
        · have hend : s.size ≤ s.fp + d.length := by
            by_contra hgt
            exact hmore ⟨hlt, by omega⟩
          have hlen := congrArg List.length hrest
          rw [List.length_drop, List.length_append, List.length_drop] at hlen
          have hnil : ((s.whole m).drop (j + 1)).flatten = [] := List.eq_nil_of_length_eq_zero (by omega)
          rw [hnil, List.append_nil]
          exact hd
      rw [if_neg hmore, htake]

/-- What is read by `ffs_read`: as much of the file as is asked for and as there is. -/
theorem streamRead_spec (size : Nat) (hm : 0 < m) (h : s.Valid m) (hreader : isOpenOption s.options ffsORdonly = true) :
    s.streamRead m size = some (((((s.whole m).flatten.drop s.fp).take size).length : Int),
      ((s.whole m).flatten.drop s.fp).take size,
      { s with fp := s.fp + (((s.whole m).flatten.drop s.fp).take size).length }) := by
  unfold Stream.streamRead
  rw [if_neg (by simp [hreader])]
  have hsize := h.size
  by_cases hend : s.size ≤ s.fp
  · rw [if_pos hend, List.drop_eq_nil_of_le (by omega), List.take_nil]
    rfl
  · obtain ⟨j, o, _, hj, hplace⟩ := segfileSeek_spec h.whole.some s.fp
    obtain ⟨i, offset, hseek, hi, hplace'⟩ := segfileSeek_spec h.tidy.some s.fp
    rcases hplace with ⟨_, hpos, ho⟩ | ⟨hge, _, _⟩
    · -- the place on the flash is that in the file, unless the chunk is a new one
      have hsame (hc : s.Covered j) : some i = some j ∧ offset = o := by
        obtain ⟨hj', hstart, hlen, _⟩ := hc.place h hj
        have hnext := startOf_succ hj'
        have hle : startOf s.chunks (j + 1) ≤ s.chunks.flatten.length := startOf_le_length
        rcases hplace' with ⟨_, hpos', ho'⟩ | ⟨hge', _, _⟩
        · obtain ⟨rfl, rfl⟩ := place_unique hi hj' ho' (hlen ▸ ho) (by omega)
          exact ⟨rfl, rfl⟩
        · omega
      have hfuel : (s.whole m).length ≤ j + (s.chunks.length + 1) := by
        cases hdirty : s.dirty with
        | false =>
          rw [whole_clean hdirty]
          omega
        | true =>
          have := (h.held hdirty).inside
          rw [length_whole h hdirty]
          omega
      have hloop := readLoop_spec size [] hm h hj ho hpos hsame (Nat.zero_le _) hfuel
      rw [List.nil_append, List.length_nil, Nat.sub_zero] at hloop
      rw [if_neg hend, hseek]
      simp only [hloop, Option.map_some]
    · omega

end

/-! ### Seeking and truncating -/

section
variable {m : Nat} {s : Stream}

private theorem seekTarget_le {fp size : Nat} {offset whence target : Int}
    (h : seekTarget fp size offset whence = some target) : 0 ≤ target ∧ target ≤ size := by
  unfold seekTarget at h
  split at h
  · split at h
    · cases h
    · cases h
      omega
  · split at h
    · split at h
      · cases h
      · cases h
        omega
    · split at h
      · split at h
        · cases h
        · cases h
          omega
      · cases h

/-- What `ffs_seek` comes to: the file pointer is moved, or the buffer cannot be stored. -/
theorem ffsSeek_spec (alloc : Int) (h : s.Valid m) {offset whence target : Int}
    (htarget : seekTarget s.fp s.size offset whence = some target) :
    ∃ ret s', s.ffsSeek m alloc offset whence = (ret, s') ∧ s'.Valid m ∧ s'.options = s.options ∧ s'.whole m = s.whole m ∧
      ((ret = target ∧ s'.fp = target.toNat) ∨ (ret < 0 ∧ alloc < 0 ∧ s'.fp = s.fp)) := by
  have hle := seekTarget_le htarget
  unfold Stream.ffsSeek
  rw [htarget]
  simp only
  by_cases hin : s.isOffsetInBuf m target.toNat = true
  · have hnear : s.wfp ≤ target.toNat := by
      unfold Stream.isOffsetInBuf at hin
      rw [Bool.and_eq_true, Bool.and_eq_true, decide_eq_true_iff] at hin
      exact hin.1.2
    rw [if_pos hin, if_neg (show ¬effsOk < 0 by decide)]
    exact ⟨_, _, rfl, h.moved (by omega) fun _ => hnear, rfl, rfl, .inl ⟨rfl, rfl⟩⟩
  · rw [if_neg hin]
    rcases datasync_cases h alloc with hsync | ⟨halloc, hsync⟩
    · rw [hsync, if_neg (show ¬effsOk < 0 by decide)]
      exact ⟨_, _, rfl, h.synced.moved (show target.toNat ≤ s.size by omega) fun hd => absurd hd Bool.false_ne_true, rfl, rfl,
        .inl ⟨rfl, rfl⟩⟩
    · rw [hsync, if_pos halloc]
      exact ⟨_, _, rfl, h, rfl, rfl, .inr ⟨halloc, halloc, rfl⟩⟩

/-- What is in front of the buffer and what is in it, when the chunk in it is the last one or what is behind does not count. -/
private theorem take_whole (h : s.Valid m) (hdirty : s.dirty = true) {length : Nat} (hlow : s.wfp ≤ length)
    (hhigh : length ≤ s.wfp + m) :
    (s.whole m).flatten.take length = (s.chunks.take s.place).flatten ++ (s.held m).take (length - s.wfp) := by
  have hheld := h.held hdirty
  have hwfp : (s.chunks.take s.place).flatten.length = s.wfp := hheld.start.symm
  rw [whole_dirty hdirty, flatten_putChunk, List.take_append, List.take_of_length_le (by omega), hwfp]
  by_cases hback : s.place + 1 < s.chunks.length
  · have hfull := hheld.full hback
    rw [List.take_append_of_le_length (by omega)]
  · rw [List.drop_eq_nil_of_le (by omega), List.flatten_nil, List.append_nil]

/-- The file ends in the buffer. -/
private theorem truncated_buffer (h : s.Valid m) (hdirty : s.dirty = true) {length : Nat} {chunks : List (List (BitVec 8))}
    (hlow : s.wfp ≤ length) (hhigh : length < s.wfp + m) (hfp : s.fp ≤ length)
    (hchunks : chunks = s.chunks.take (s.place + 1)) :
    let s' : Stream := { s with size := if s.size < length then s.size else length, chunks := chunks }
    s'.Valid m ∧ (s'.whole m).flatten = (s.whole m).flatten.take length := by
  intro s'
  have hheld := h.held hdirty
  have hreach := h.reach
  have hsize : s'.size = min length s.size := by
    show (if s.size < length then s.size else length) = min length s.size
    split <;> omega
  have hplace : s'.place = s.place := by
    cases hwch : s.wch with
    | none =>
      rw [place_none (s := s') hwch, place_none hwch]
      show chunks.length = s.chunks.length
      rw [hchunks, place_none hwch, List.take_of_length_le (Nat.le_succ _)]
    | chunk i => rw [place_chunk (s := s') hwch, place_chunk hwch]
    | replaced => exact absurd hwch hheld.work
  have htake : s'.chunks.take s.place = s.chunks.take s.place := by
    show chunks.take s.place = s.chunks.take s.place
    rw [hchunks, List.take_take, Nat.min_eq_left (Nat.le_succ _)]
  have hstart : startOf s'.chunks s.place = startOf s.chunks s.place := congrArg (List.length ∘ List.flatten) htake
  have hlen : s'.chunks.length = min (s.place + 1) s.chunks.length := by
    show chunks.length = _
    rw [hchunks, List.length_take]
  have hheld' : s'.held m = (s.held m).take (length - s.wfp) := by
    unfold Stream.held
    rw [chunkSize_eq, chunkSize_eq, hsize, List.take_take]
    show s.buf.take (min (min length s.size - s.wfp) m) = _
    congr 1
    omega
  have hoct : (s'.whole m).flatten = (s.whole m).flatten.take length := by
    rw [take_whole h hdirty hlow (Nat.le_of_lt hhigh), whole_dirty (s := s') hdirty, flatten_putChunk, hplace, htake,
      hheld', List.drop_eq_nil_of_le (by omega), List.flatten_nil, List.append_nil]
  have hinside := hheld.inside
  refine ⟨⟨?_, h.room, h.writer, ?_, ?_, fun _ => ?_⟩, hoct⟩
  · show Tidy m chunks
    rw [hchunks]
    exact h.tidy.take (Nat.succ_pos _)
  · show s.fp ≤ s'.size
    omega
  · rw [hoct, List.length_take, ← h.size]
    exact hsize
  · refine ⟨hheld.room, ?_, hheld.near, hheld.work, ?_, fun i hi => ?_, fun i hi => ?_, fun hback => ?_⟩
    · rw [hplace, hstart]
      exact hheld.start
    · omega
    · have := hheld.chunk i hi
      have := place_chunk hi
      omega
    · rw [hplace] at hi
      rw [hplace, hstart]
      show (chunkAt chunks i).length = m ∨ _
      rw [hchunks, chunkAt_take (by omega)]
      exact hheld.front i hi
    · omega

/-- The file is cut behind the buffer. -/
private theorem truncated_cut (h : s.Valid m) {length i o : Nat} {last : List (List (BitVec 8))} (hi : i < s.chunks.length)
    (hpos : startOf s.chunks i + o = length) (ho : o ≤ (chunkAt s.chunks i).length) (hfp : s.fp ≤ length)
    (hbehind : s.dirty = true → s.place < i)
    (hlast : last = [(chunkAt s.chunks i).take o] ∨ (o = 0 ∧ 0 < i ∧ last = [])) :
    (s.cut i last length).Valid m ∧ ((s.cut i last length).whole m).flatten = (s.whole m).flatten.take length := by
  obtain ⟨s', hs'⟩ : ∃ s', s.cut i last length = s' := ⟨_, rfl⟩
  have hchunks : s'.chunks = s.chunks.take i ++ last := hs' ▸ rfl
  have hlastflat : last.flatten = (chunkAt s.chunks i).take o := by
    rcases hlast with rfl | ⟨rfl, _, rfl⟩
    · exact List.flatten_singleton
    · rfl
  have htidy : Tidy m s'.chunks := by
    rw [hchunks]
    rcases hlast with rfl | ⟨_, hpos, rfl⟩
    · refine h.tidy.cut hi ?_
      have := h.tidy.short i hi
      rw [List.length_take]
      omega
    · rw [List.append_nil]
      exact h.tidy.take hpos
  -- the buffer stays where it is
  have hkept : s.dirty = true → s'.wch = .chunk s.place ∧ s'.place = s.place ∧ s.place + 1 < s.chunks.length ∧
      s.wfp + m ≤ length := by
    intro hdirty
    have hp := hbehind hdirty
    have hheld := h.held hdirty
    obtain ⟨p, hwch⟩ : ∃ p, s.wch = .chunk p := by
      cases hwch : s.wch with
      | none =>
        rw [place_none hwch] at hp
        omega
      | chunk p => exact ⟨p, rfl⟩
      | replaced => exact absurd hwch hheld.work
    have hplace := place_chunk hwch
    have hcut : s'.wch = .chunk p := by
      rw [← hs']
      unfold Stream.cut
      rw [hwch]
      exact if_neg (by omega)
    have hnext := startOf_succ (show s.place < s.chunks.length by omega)
    have hle : startOf s.chunks (s.place + 1) ≤ startOf s.chunks i := startOf_le hp
    have hfull := (hheld.back (by omega)).1
    have hstart := hheld.start
    exact ⟨hplace.symm ▸ hcut, (place_chunk hcut).trans hplace.symm, by omega, by omega⟩
  have hheldeq : s.dirty = true → s'.held m = s.held m := by
    intro hdirty
    obtain ⟨_, _, hback, hle⟩ := hkept hdirty
    have := (h.held hdirty).back hback
    have hsize : s'.size = length := hs' ▸ rfl
    have hwfp : s'.wfp = s.wfp := hs' ▸ rfl
    have hbuf : s'.buf = s.buf := hs' ▸ rfl
    unfold Stream.held
    rw [chunkSize_eq, chunkSize_eq, hsize, hwfp, hbuf]
    congr 1
    omega
  have hdirty' : s'.dirty = s.dirty := hs' ▸ rfl
  have hne : s.dirty = true → i ≠ s.place := fun hdirty => Nat.ne_of_gt (hbehind hdirty)
  have hwhole : s'.whole m = (s.whole m).take i ++ last := by
    cases hdirty : s.dirty with
    | false => rw [whole_clean (hdirty'.trans hdirty), whole_clean hdirty, hchunks]
    | true =>
      obtain ⟨_, hplace, _, _⟩ := hkept hdirty
      rw [whole_dirty (hdirty'.trans hdirty), whole_dirty hdirty, hplace, hheldeq hdirty, hchunks,
        putChunk_take_append (hbehind hdirty) (Nat.le_of_lt hi)]
  have hi' : i < (s.whole m).length := by
    cases hdirty : s.dirty with
    | false => rwa [whole_clean hdirty]
    | true =>
      rw [length_whole h hdirty]
      omega
  obtain ⟨_, hstart, _, hat⟩ := (covered_of_ne hne).place h hi'
  have hnext := startOf_succ hi'
  have hle : startOf (s.whole m) (i + 1) ≤ (s.whole m).flatten.length := startOf_le_length
  rw [← hat hne] at hnext
  have hoct : (s'.whole m).flatten = (s.whole m).flatten.take length := by
    have hcut := take_flatten hi' (hat hne ▸ ho)
    rw [← hat hne, ← hstart, hpos] at hcut
    rw [hwhole, List.flatten_append, hlastflat, hcut]
  rw [hs']
  refine ⟨⟨htidy, hs' ▸ h.room, hs' ▸ h.writer, hs' ▸ hfp, ?_, fun hd => ?_⟩, hoct⟩
  · rw [hoct, List.length_take, ← hs']
    show length = _
    omega
  · have hdirty := hdirty'.symm.trans hd
    obtain ⟨hwch, hplace, hback, hfit⟩ := hkept hdirty
    have hp := hbehind hdirty
    have hheld := h.held hdirty
    have hinside : s.place < s'.chunks.length := by
      rw [hchunks, List.length_append, List.length_take]
      rcases hlast with rfl | ⟨_, _, rfl⟩ <;> simp only [List.length_cons, List.length_nil] <;> omega
    refine ⟨hs' ▸ hheld.room, ?_, hs' ▸ hheld.near, ?_, ?_, fun j hj => ?_, fun j hj => ?_, fun _ => ?_⟩
    · rw [hplace, hchunks, startOf_take_append (Nat.le_of_lt hp) (Nat.le_of_lt hi), ← hheld.start, ← hs']
      rfl
    · rw [hwch]
      exact WorkChunk.noConfusion
    · omega
    · have := place_chunk hj
      omega
    · rw [hplace] at hj
      rw [hplace, hchunks, startOf_take_append (Nat.le_of_lt hp) (Nat.le_of_lt hi),
        chunkAt_take_append (by omega) (Nat.le_of_lt hi)]
      exact hheld.front j hj
    · rw [hplace, hchunks, chunkAt_take_append hp (Nat.le_of_lt hi), ← hs']
      exact ⟨(hheld.back hback).1, hfit⟩

/-- The chunk of a place in the buffer is the one that is in it, if this has a segment. -/
private theorem seek_buffer (h : s.Valid m) (hdirty : s.dirty = true) {length i o p : Nat} (hwch : s.wch = .chunk p)
    (hlow : s.wfp ≤ length) (hhigh : length < s.wfp + m) (hi : i < s.chunks.length)
    (hseek : (length < s.chunks.flatten.length ∧ startOf s.chunks i + o = length ∧ o < (chunkAt s.chunks i).length) ∨
      (s.chunks.flatten.length ≤ length ∧ i + 1 = s.chunks.length ∧ o = (chunkAt s.chunks i).length)) : i = s.place := by
  have hheld := h.held hdirty
  have hp : s.place < s.chunks.length := place_chunk hwch ▸ hheld.chunk p hwch
  have hnext := startOf_succ hp
  have hstart := hheld.start
  by_cases hback : s.place + 1 < s.chunks.length
  · have hfull := (hheld.back hback).1
    have hle : startOf s.chunks (s.place + 1) ≤ s.chunks.flatten.length := startOf_le_length
    rcases hseek with ⟨_, hpos, ho⟩ | ⟨hge, _, _⟩
    · exact (place_unique (q := length - s.wfp) hi hp ho (by omega) (by omega)).1
    · omega
  · rw [show s.place + 1 = s.chunks.length by omega, startOf_length] at hnext
    rcases hseek with ⟨hlt, hpos, ho⟩ | ⟨_, hlast, _⟩
    · exact (place_unique (q := length - s.wfp) hi hp ho (by omega) (by omega)).1
    · omega

/-- Behind the buffer, a place on the flash is in a chunk behind the one in the buffer. -/
private theorem seek_behind (hm : 0 < m) (h : s.Valid m) (hdirty : s.dirty = true) {length i o : Nat}
    (hout : s.wfp + m ≤ length) (hlength : length ≤ s.chunks.flatten.length) (hsound : ¬s.Replaces m length)
    (hi : i < s.chunks.length)
    (hseek : (length < s.chunks.flatten.length ∧ startOf s.chunks i + o = length ∧ o < (chunkAt s.chunks i).length) ∨
      (s.chunks.flatten.length ≤ length ∧ i + 1 = s.chunks.length ∧ o = (chunkAt s.chunks i).length)) : s.place < i := by
  have hheld := h.held hdirty
  have hinside := hheld.inside
  have hstart := hheld.start
  have hnexti := startOf_succ hi
  rcases Nat.eq_or_lt_of_le hinside with hnew | hp
  · rw [hnew, startOf_length] at hstart
    omega
  · have hnext := startOf_succ hp
    by_cases hback : s.place + 1 < s.chunks.length
    · have hfull := (hheld.back hback).1
      by_contra hle
      have hmono : startOf s.chunks (i + 1) ≤ startOf s.chunks (s.place + 1) := startOf_le (by omega)
      omega
    · -- the last chunk is full and in the buffer
      have hlast : s.place + 1 = s.chunks.length := by omega
      have hshort := h.tidy.short s.place hp
      rw [hlast, startOf_length] at hnext
      exact absurd ⟨hdirty, hlast, by omega, by omega⟩ hsound

/-- There is nothing behind the end of the flash and of the buffer. -/
theorem size_behind (h : s.Valid m) {n : Nat} (hflash : s.chunks.flatten.length ≤ n)
    (hout : s.dirty = true → s.wfp + m ≤ n) : (s.whole m).flatten.length ≤ n := by
  cases hdirty : s.dirty with
  | false => rwa [whole_clean hdirty]
  | true =>
    have hheld := h.held hdirty
    have hout := hout hdirty
    by_cases hback : s.place + 1 < s.chunks.length
    · have hlen := length_whole h hdirty
      rw [Nat.max_eq_left (by omega)] at hlen
      rw [← startOf_length, hlen, whole_dirty hdirty,
        startOf_putChunk_behind (by omega) ((hheld.full hback).trans (hheld.back hback).1.symm), startOf_length]
      exact hflash
    · have hwfp : (s.chunks.take s.place).flatten.length = s.wfp := hheld.start.symm
      have hshort : (s.held m).length ≤ m := hheld.length ▸ chunkSize_le
      rw [whole_dirty hdirty, flatten_putChunk, List.drop_eq_nil_of_le (by omega), List.flatten_nil, List.append_nil,
        List.length_append]
      omega

/-- What `ffs_ftruncate` comes to: the file ends where it is to end, or there is no space. -/
theorem objectTruncate_spec (prealloc alloc : Int) (hm : 0 < m) (h : s.Valid m)
    (hwriter : isOpenOption s.options ffsOWronly = true) {length : Int} (hfp : s.fp ≤ length) (hsound : ¬s.Replaces m length) :
    ∃ ret s', s.objectTruncate m prealloc alloc length = (ret, s') ∧ s'.Valid m ∧ s'.options = s.options ∧ s'.fp = s.fp ∧
      ((ret = effsOk ∧ (s'.whole m).flatten = (s.whole m).flatten.take length.toNat) ∨
        (ret < 0 ∧ (prealloc ≤ 0 ∨ alloc < 0) ∧ s' = s)) := by
  obtain ⟨n, rfl⟩ : ∃ n : Nat, length = n := ⟨length.toNat, by omega⟩
  obtain ⟨i, o, hseek, hi, hplace⟩ := segfileSeek_spec h.tidy.some n
  unfold Stream.objectTruncate
  rw [if_neg (by omega), if_neg (by simp [hwriter]), if_neg (by omega)]
  simp only [Int.toNat_natCast, hseek]
  by_cases hin : s.isOffsetInBuf m n = true
  · -- the file ends in the buffer
    rw [if_pos hin]
    unfold Stream.isOffsetInBuf at hin
    rw [Bool.and_eq_true, Bool.and_eq_true, decide_eq_true_iff, decide_eq_true_iff] at hin
    obtain ⟨⟨hdirty, hlow⟩, hhigh⟩ := hin
    have hchunks : (if s.wch = .chunk i then s.chunks.take (i + 1) else s.chunks) = s.chunks.take (s.place + 1) := by
      cases hwch : s.wch with
      | none => rw [if_neg (by simp), place_none hwch, List.take_of_length_le (Nat.le_succ _)]
      | chunk p =>
        have heq := seek_buffer h hdirty hwch hlow hhigh hi hplace
        have hp := place_chunk hwch
        rw [if_pos (by rw [← hp, heq]), heq]
      | replaced => exact absurd hwch (h.held hdirty).work
    obtain ⟨hv, hoct⟩ := truncated_buffer h hdirty hlow hhigh (by omega) hchunks
    exact ⟨_, _, rfl, hv, rfl, rfl, .inl ⟨rfl, hoct⟩⟩
  · rw [if_neg hin]
    have hout : s.dirty = true → s.wfp + m ≤ n := by
      intro hdirty
      have hnear := (h.held hdirty).near
      unfold Stream.isOffsetInBuf at hin
      rw [Bool.and_eq_true, Bool.and_eq_true, decide_eq_true_iff, decide_eq_true_iff] at hin
      by_contra hlt
      exact hin ⟨⟨hdirty, by omega⟩, by omega⟩
    by_cases hbeyond : min n s.chunks.flatten.length < n
    · -- the file ends in front of it already
      have hall := size_behind h (n := n) (by omega) hout
      rw [if_pos hbeyond]
      exact ⟨_, _, rfl, h, rfl, rfl, .inl ⟨rfl, (List.take_of_length_le hall).symm⟩⟩
    · have hlength : n ≤ s.chunks.flatten.length := by omega
      have hpos : startOf s.chunks i + o = n ∧ o ≤ (chunkAt s.chunks i).length := by
        rcases hplace with ⟨_, hpos, ho⟩ | ⟨hge, hlast, ho⟩
        · exact ⟨hpos, Nat.le_of_lt ho⟩
        · have hnext := startOf_succ hi
          rw [hlast, startOf_length] at hnext
          exact ⟨by omega, Nat.le_of_eq ho⟩
      have hbehind (hdirty : s.dirty = true) : s.place < i := seek_behind hm h hdirty (hout hdirty) hlength hsound hi hplace
      have hcut (last : List (List (BitVec 8)))
          (hlast : last = [(chunkAt s.chunks i).take o] ∨ (o = 0 ∧ 0 < i ∧ last = [])) :=
        truncated_cut h hi hpos.1 hpos.2 (by omega) hbehind hlast
      rw [if_neg hbeyond]
      by_cases hprealloc : prealloc ≤ 0
      · rw [if_pos hprealloc]
        exact ⟨_, _, rfl, h, rfl, rfl, .inr ⟨by decide, .inl hprealloc, rfl⟩⟩
      · rw [if_neg hprealloc]
        have hfails (halloc : alloc < 0) : ∃ ret s', (alloc, s) = (ret, s') ∧ s'.Valid m ∧ s'.options = s.options ∧
            s'.fp = s.fp ∧ ((ret = effsOk ∧ (s'.whole m).flatten = (s.whole m).flatten.take n) ∨
              (ret < 0 ∧ (prealloc ≤ 0 ∨ alloc < 0) ∧ s' = s)) :=
          ⟨_, _, rfl, h, rfl, rfl, .inr ⟨halloc, .inr halloc, rfl⟩⟩
        by_cases hfirst : i ≠ 0
        · rw [if_pos hfirst]
          by_cases hzero : o = 0
          · rw [if_pos hzero]
            obtain ⟨hv, hoct⟩ := hcut [] (.inr ⟨hzero, Nat.pos_of_ne_zero hfirst, rfl⟩)
            exact ⟨_, _, rfl, hv, rfl, rfl, .inl ⟨rfl, hoct⟩⟩
          · rw [if_neg hzero]
            by_cases halloc : alloc < 0
            · rw [if_pos halloc]
              exact hfails halloc
            · obtain ⟨hv, hoct⟩ := hcut _ (.inl rfl)
              rw [if_neg halloc]
              exact ⟨_, _, rfl, hv, rfl, rfl, .inl ⟨rfl, hoct⟩⟩
        · obtain rfl : i = 0 := by omega
          rw [if_neg hfirst]
          by_cases halloc : alloc < 0
          · rw [if_pos halloc]
            exact hfails halloc
          · obtain ⟨hv, hoct⟩ := hcut _ (.inl rfl)
            rw [startOf_zero, Nat.zero_add] at hpos
            rw [if_neg halloc, ← hpos.1]
            rw [hpos.1] at hv hoct ⊢
            exact ⟨_, _, rfl, hv, rfl, rfl, .inl ⟨rfl, hoct⟩⟩

end

end Citrine.Ffs
