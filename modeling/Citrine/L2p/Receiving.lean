import Citrine.L2p.Sending

/-!
# What a frame brings

`L2P_Receive` reads the octets of the stream from the segments of a frame.  It takes all of them, unless a segment ends with
the last octet of the tag: then it does not go on to the next segment, and the rest of the frame is lost (`Receiver.frame`).
-/

namespace Citrine.L2p

open While

/-! ### Segments -/

/-- A segment that is not the last one ends behind `n` octets. -/
def cutsAt : List (List Nat) → Nat → Bool
  | [], _ => false
  | z :: zs, n => (decide (z.length = n) && !zs.isEmpty) || (decide (z.length < n) && cutsAt zs (n - z.length))

/-- The octets that can still be read. -/
def RxFrame.avail (f : RxFrame) : List Nat := if f.rxReadPtr then f.seg ++ f.segs.flatten else []

/-- The segments of a frame of a size, as far as they have been read. -/
structure RxFrame.Fits (f : RxFrame) (total : Nat) : Prop where
  count : f.totalSegSize + f.segs.flatten.length = total
  left : f.rxReadPtr = true → f.seg ≠ []
  pos : ∀ z ∈ f.segs, z ≠ []

/-- The segments that can still be read. -/
def RxFrame.weight (f : RxFrame) : Nat := if f.rxReadPtr then f.segs.length + 1 else 0

section
variable {f : RxFrame} {z : List Nat} {zs : List (List Nat)} {total k n d : Nat} {o : List Nat}

private theorem cutsAt_cons : cutsAt (z :: zs) n =
    ((decide (z.length = n) && !zs.isEmpty) || (decide (z.length < n) && cutsAt zs (n - z.length))) := rfl

private theorem cutsAt_short (h : z.length < n) : cutsAt (z :: zs) n = cutsAt zs (n - z.length) := by
  rw [cutsAt_cons, decide_eq_false (show ¬ z.length = n by omega), decide_eq_true h, Bool.false_and, Bool.false_or,
    Bool.true_and]

private theorem cutsAt_end : cutsAt (z :: zs) z.length = !zs.isEmpty := by
  rw [cutsAt_cons, decide_eq_true rfl, decide_eq_false (Nat.lt_irrefl _), Bool.false_and, Bool.or_false, Bool.true_and]

private theorem cutsAt_inside (h : n < z.length) : cutsAt (z :: zs) n = false := by
  rw [cutsAt_cons, decide_eq_false (show ¬ z.length = n by omega), decide_eq_false (show ¬ z.length < n by omega),
    Bool.false_and, Bool.false_and, Bool.false_or]

/-- The cuts of what is left when a part of a segment has been read. -/
private theorem cutsAt_drop (h : k < z.length) : cutsAt (z.drop k :: zs) n = cutsAt (z :: zs) (k + n) := by
  rw [cutsAt_cons, cutsAt_cons, List.length_drop, decide_eq_decide.2 (show z.length - k = n ↔ z.length = k + n by omega),
    decide_eq_decide.2 (show z.length - k < n ↔ z.length < k + n by omega),
    show k + n - z.length = n - (z.length - k) by omega]

/-- A cut is before the end. -/
private theorem cutsAt_lt (hpos : ∀ z ∈ zs, z ≠ []) (h : cutsAt zs n = true) : n < zs.flatten.length := by
  induction zs generalizing n with
  | nil => cases h
  | cons z zs ih =>
    rw [List.flatten_cons, List.length_append]
    rcases Nat.lt_trichotomy z.length n with hlt | heq | hgt
    · rw [cutsAt_short hlt] at h
      have := ih (fun y hy => hpos y (List.mem_cons_of_mem _ hy)) h
      omega
    · rw [← heq, cutsAt_end] at h
      cases zs with
      | nil => cases h
      | cons y ys =>
        have := List.length_pos_iff.2 (hpos y (List.mem_cons_of_mem _ List.mem_cons_self))
        rw [List.flatten_cons, List.length_append]
        omega
    · omega

theorem read_full (h : f.seg.length ≤ d) : f.read d = ({ f with rxReadPtr := false, seg := [] }, f.seg) := by
  unfold RxFrame.read
  simp only [if_pos h, decide_eq_true h, Bool.not_true]
  rw [List.drop_length, List.take_length]

theorem read_part (h : ¬ f.seg.length ≤ d) :
    f.read d = ({ f with rxReadPtr := true, seg := f.seg.drop d }, f.seg.take d) := by
  unfold RxFrame.read
  simp only [if_neg h, decide_eq_false h, Bool.not_false]

/-- The frame control bytes are read, and a segment with more octets is begun. -/
theorem readCntrl_spec (h : f.Fits total) (hp : f.rxReadPtr = true) (hk : k < (f.seg ++ f.segs.flatten).length)
    (hn : f.segs.length + 1 < n) :
    ∃ g : RxFrame, readCntrl n f k o = (g, o ++ (f.seg ++ f.segs.flatten).take k) ∧ g.Fits total ∧ g.rxReadPtr = true ∧
      g.seg ++ g.segs.flatten = (f.seg ++ f.segs.flatten).drop k ∧ g.segs.length ≤ f.segs.length ∧
      ∀ d, 0 < d → cutsAt (g.seg :: g.segs) d = cutsAt (f.seg :: f.segs) (k + d) := by
  induction n generalizing f k o with
  | zero => omega
  | succ n ih =>
    cases k with
    | zero => exact ⟨f, by rw [List.take_zero, List.append_nil]; rfl, h, hp, rfl, Nat.le_refl _, fun d _ => by rw [Nat.zero_add]⟩
    | succ k =>
      have hcount := h.count
      have hpos := h.pos
      unfold readCntrl
      simp only
      by_cases hfull : f.seg.length ≤ k + 1
      · rw [read_full hfull]
        simp only [Bool.false_eq_true, if_false]
        cases hs : f.segs with
        | nil =>
          rw [hs, List.flatten_nil, List.append_nil] at hk
          omega
        | cons y ys =>
          rw [hs] at hpos hcount hk hn
          rw [List.flatten_cons, List.length_append] at hcount
          rw [List.flatten_cons, List.length_append, List.length_append] at hk
          rw [List.length_cons] at hn
          unfold RxFrame.nextSeg
          simp only
          obtain ⟨g, hread, hg, hgp, hrest, hle, hcut⟩ := @ih ⟨true, y, f.totalSegSize + y.length, ys⟩ (k + 1 - f.seg.length)
            (o ++ f.seg) ⟨by change f.totalSegSize + y.length + ys.flatten.length = total; omega,
              fun _ => hpos y List.mem_cons_self, fun x hx => hpos x (List.mem_cons_of_mem _ hx)⟩ rfl
            (by change _ < (y ++ ys.flatten).length; rw [List.length_append]; omega)
            (by change ys.length + 1 < n; omega)
          refine ⟨g, ?_, hg, hgp, ?_, Nat.le_succ_of_le hle, fun d hd => ?_⟩
          · rw [hread, List.flatten_cons, List.append_assoc]
            change (g, o ++ (f.seg ++ (y ++ ys.flatten).take (k + 1 - f.seg.length))) = _
            rw [@List.take_append _ f.seg, List.take_of_length_le hfull]
          · rw [hrest, List.flatten_cons, @List.drop_append _ f.seg, List.drop_eq_nil_of_le hfull, List.nil_append]
          · rw [hcut d hd, cutsAt_short (show f.seg.length < k + 1 + d by omega),
              show k + 1 + d - f.seg.length = k + 1 - f.seg.length + d by omega]
      · rw [read_part hfull]
        have hdone : ∀ (g : RxFrame) (o' : List Nat), readCntrl n g 0 o' = (g, o') := by
          intro g o'
          cases n <;> rfl
        have hlen : (f.seg.take (k + 1)).length = k + 1 := by
          rw [List.length_take]
          omega
        simp only [if_true, hlen, Nat.sub_self]
        rw [hdone]
        refine ⟨{ f with rxReadPtr := true, seg := f.seg.drop (k + 1) }, ?_, ⟨hcount, fun _ => ?_, hpos⟩, rfl, ?_,
          Nat.le_refl _, fun d _ => cutsAt_drop (by omega)⟩
        · rw [List.take_append_of_le_length (by omega)]
        · change f.seg.drop (k + 1) ≠ []
          intro hnil
          have := congrArg List.length hnil
          rw [List.length_drop, List.length_nil] at this
          omega
        · rw [List.drop_append_of_le_length (by omega)]

end

/-! ### The loops -/

/-- The control block after some octets of a stream, for a message with a size of its data. -/
structure ControlBlock.Got (b : ControlBlock) (muxId size : Nat) (y : List Nat) : Prop where
  le : y.length ≤ size + 4
  tag : b.receivedCmdTag = y.take 4
  buf : ∃ o, b.rxBuf = some o ∧ (4 ≤ y.length → o = y.drop 4)
  tagReceived : b.cmdTagReceived = decide (4 ≤ y.length)
  bytes : b.bytesToBeRead = if 4 ≤ y.length then size + 4 - y.length else 4 - y.length
  size : b.dataSize = size
  muxId : b.muxId = muxId

/-- While a frame is read, from octets of the stream in the segments `segs`: `k` octets have been read, and if the segment
ends with the last octet of the tag, the rest is lost. -/
structure Receiver.Reading (s : Receiver) (muxId size : Nat) (y : List Nat) (segs : List (List Nat)) (k : Nat) : Prop where
  got : s.block.Got muxId size (y ++ segs.flatten.take k)
  fits : s.frame.Fits s.totalsize
  le : k ≤ segs.flatten.length
  avail : s.frame.rxReadPtr = true → s.frame.seg ++ s.frame.segs.flatten = segs.flatten.drop k ∧
    ∀ d, 0 < d → cutsAt (s.frame.seg :: s.frame.segs) d = cutsAt segs (k + d)
  ended : s.frame.rxReadPtr = false → k = segs.flatten.length ∨ (y.length + k = 4 ∧ cutsAt segs k = true)
  cut : y.length < 4 → cutsAt segs (4 - y.length) = true →
    y.length + k < 4 ∨ (y.length + k = 4 ∧ s.frame.rxReadPtr = false)

section
variable {s : Receiver} {muxId size k : Nat} {y : List Nat} {segs : List (List Nat)}

/-- The octets that a round reads. -/
private theorem body_read : (s.frame.read s.block.bytesToBeRead).2 =
    s.frame.seg.take (min s.frame.seg.length s.block.bytesToBeRead) := by
  unfold RxFrame.read
  simp only
  split
  · rw [Nat.min_eq_left (by assumption)]
  · rw [Nat.min_eq_right (by omega)]

private theorem read_length :
    (s.frame.read s.block.bytesToBeRead).2.length = min s.frame.seg.length s.block.bytesToBeRead := by
  rw [body_read, List.length_take]
  omega

private theorem store_tagReceived (o : List Nat) : (s.store o).cmdTagReceived = s.block.cmdTagReceived := by
  unfold Receiver.store
  split <;> rfl

/-- A round adds the octets that it reads to those of the stream. -/
private theorem body_got {o : List Nat} (h : s.block.Got muxId size y)
    (ho : s.frame.seg.take (min s.frame.seg.length s.block.bytesToBeRead) = o) :
    s.body.block.Got muxId size (y ++ o) := by
  have hbytes := h.bytes
  have hle := h.le
  have hlen : o.length = min s.frame.seg.length s.block.bytesToBeRead := by
    rw [← ho, List.length_take]
    omega
  obtain ⟨old, hbuf, hdata⟩ := h.buf
  have htag := h.tagReceived
  unfold Receiver.body
  simp only
  rw [body_read, ho]
  by_cases h4 : 4 ≤ y.length
  · -- the octets are data
    rw [if_pos h4] at hbytes
    rw [decide_eq_true h4] at htag
    have hst : s.store o = { s.block with rxBuf := some (old ++ o) } := by
      unfold Receiver.store
      rw [if_pos htag, hbuf]
      rfl
    rw [hst]
    simp only [htag, Bool.true_eq_false, and_false, if_false]
    refine ⟨?_, ?_, ⟨_, rfl, fun _ => ?_⟩, ?_, ?_, h.size, h.muxId⟩
    · rw [List.length_append]
      omega
    · rw [List.take_append_of_le_length h4]
      exact h.tag
    · rw [hdata h4, List.drop_append_of_le_length h4]
    · change true = _
      rw [decide_eq_true (by rw [List.length_append]; omega)]
    · change s.block.bytesToBeRead - o.length = _
      rw [List.length_append, if_pos (by omega)]
      omega
  · rw [if_neg h4] at hbytes
    rw [decide_eq_false h4] at htag
    have hst : s.store o = { s.block with receivedCmdTag := y ++ o } := by
      unfold Receiver.store
      rw [htag, if_neg nofun, h.tag, List.take_of_length_le (by omega)]
    have htake : (y ++ o).take 4 = y ++ o := List.take_of_length_le (by rw [List.length_append]; omega)
    rw [hst]
    simp only [htag, and_true]
    split
    · -- the tag is complete
      rename_i hzero
      have hlen4 : (y ++ o).length = 4 := by
        rw [List.length_append]
        omega
      refine ⟨by omega, htake.symm, ⟨[], ?_, fun _ => ?_⟩, ?_, ?_, h.size, h.muxId⟩
      · change s.block.rxBuf.map _ = _
        rw [hbuf]
        rfl
      · rw [List.drop_eq_nil_of_le (by omega)]
      · rw [hlen4]
        rfl
      · change s.block.dataSize = _
        rw [hlen4, h.size]
        rfl
    · rename_i hzero
      have hlen4 : (y ++ o).length < 4 := by
        rw [List.length_append]
        omega
      refine ⟨by omega, htake.symm, ⟨old, hbuf, fun hno => by omega⟩, ?_, ?_, h.size, h.muxId⟩
      · change false = _
        rw [decide_eq_false (by omega)]
      · change s.block.bytesToBeRead - o.length = _
        rw [if_neg (by omega), List.length_append]
        omega

/-- The frame after a round. -/
private theorem body_frame : s.body.frame =
    (if !(s.frame.read s.block.bytesToBeRead).1.rxReadPtr &&
        decide ((s.frame.read s.block.bytesToBeRead).1.totalSegSize < s.totalsize) &&
        decide (s.block.bytesToBeRead - min s.frame.seg.length s.block.bytesToBeRead ≠ 0) then
      (s.frame.read s.block.bytesToBeRead).1.nextSeg
    else (s.frame.read s.block.bytesToBeRead).1) ∧ s.body.totalsize = s.totalsize := by
  unfold Receiver.body
  simp only
  rw [read_length]
  split <;> exact ⟨rfl, rfl⟩

/-- A round reads a part of the segment, or goes on to the next one, or stops at the end of the segment. -/
private theorem body_cases (h : s.frame.Fits s.totalsize) (hp : s.frame.rxReadPtr = true) :
    (s.block.bytesToBeRead < s.frame.seg.length ∧
      s.body.frame = { s.frame with seg := s.frame.seg.drop s.block.bytesToBeRead }) ∨
    (s.frame.seg.length ≤ s.block.bytesToBeRead ∧
      ((∃ z zs, s.frame.segs = z :: zs ∧ s.body.frame = ⟨true, z, s.frame.totalSegSize + z.length, zs⟩ ∧
        s.block.bytesToBeRead ≠ s.frame.seg.length) ∨
      (s.body.frame = { s.frame with rxReadPtr := false, seg := [] } ∧
        (s.frame.segs = [] ∨ s.block.bytesToBeRead = s.frame.seg.length)))) := by
  rw [body_frame.1]
  have hcount := h.count
  by_cases hfull : s.frame.seg.length ≤ s.block.bytesToBeRead
  · right
    refine ⟨hfull, ?_⟩
    rw [read_full hfull, Nat.min_eq_left hfull]
    simp only [Bool.not_false, Bool.true_and]
    cases hs : s.frame.segs with
    | nil =>
      right
      rw [hs, List.flatten_nil, List.length_nil] at hcount
      rw [decide_eq_false (show ¬ s.frame.totalSegSize < s.totalsize by omega), Bool.false_and, if_neg nofun]
      exact ⟨rfl, .inl rfl⟩
    | cons z zs =>
      have hz := List.length_pos_iff.2 (h.pos z (hs ▸ List.mem_cons_self))
      rw [hs, List.flatten_cons, List.length_append] at hcount
      rw [decide_eq_true (show s.frame.totalSegSize < s.totalsize by omega), Bool.true_and]
      by_cases hleft : s.block.bytesToBeRead - s.frame.seg.length = 0
      · right
        rw [decide_eq_false (fun hno => hno hleft), if_neg nofun]
        exact ⟨rfl, .inr (by omega)⟩
      · left
        rw [decide_eq_true hleft, if_pos rfl]
        refine ⟨z, zs, rfl, ?_, by omega⟩
        unfold RxFrame.nextSeg
        simp only
  · left
    refine ⟨by omega, ?_⟩
    rw [read_part hfull]
    simp only [Bool.not_true, Bool.false_and, Bool.false_eq_true, if_false, hp]

theorem Receiver.Reading.body (h : s.Reading muxId size y segs k) (hp : s.frame.rxReadPtr = true)
    (hb : 0 < s.block.bytesToBeRead) (hsize : y.length + segs.flatten.length ≤ size + 4) :
    ∃ k', s.body.Reading muxId size y segs k' := by
  obtain ⟨havail, hcuts⟩ := h.avail hp
  have hle := h.le
  have hbytes := h.got.bytes
  have hpos := h.fits.pos
  have hcount := h.fits.count
  have hseg := List.length_pos_iff.2 (h.fits.left hp)
  obtain ⟨n, hn⟩ : ∃ n, min s.frame.seg.length s.block.bytesToBeRead = n := ⟨_, rfl⟩
  have hlen := congrArg List.length havail
  rw [List.length_append, List.length_drop] at hlen
  have hk : (segs.flatten.take k).length = k := by
    rw [List.length_take]
    omega
  rw [List.length_append, hk] at hbytes
  have htake : s.frame.seg.take n = (segs.flatten.drop k).take n := by
    rw [← havail, List.take_append_of_le_length (by omega)]
  have hgot : s.body.block.Got muxId size (y ++ segs.flatten.take (k + n)) := by
    have := body_got h.got (by rw [hn, htake])
    rwa [List.append_assoc, ← List.take_add] at this
  have htotal := (@body_frame s).2
  have hcutn := hcuts n (by omega)
  -- the tag does not end at a cut with octets of the segment to come
  have hcut4 : y.length < 4 → cutsAt segs (4 - y.length) = true → y.length + k < 4 := by
    intro h4 hcut
    rcases h.cut h4 hcut with hlt | ⟨-, hno⟩
    · exact hlt
    · rw [hp] at hno
      cases hno
  have hatcut : y.length < 4 → cutsAt segs (4 - y.length) = true → y.length + k + n = 4 →
      cutsAt (s.frame.seg :: s.frame.segs) n = true := by
    intro h4 hcut heq
    rw [hcutn, show k + n = 4 - y.length by omega]
    exact hcut
  rcases body_cases h.fits hp with ⟨hlt, hf⟩ | ⟨hfull, ⟨z, zs, hs, hf, hne⟩ | ⟨hf, hend⟩⟩
  · have hnb : n = s.block.bytesToBeRead := by omega
    refine ⟨k + n, hgot, ?_, by omega, fun _ => ⟨?_, fun d _ => ?_⟩, fun hno => ?_, fun h4 hcut => ?_⟩
    · rw [hf, htotal]
      refine ⟨hcount, fun _ hnil => ?_, hpos⟩
      have := congrArg List.length hnil
      change (s.frame.seg.drop _).length = 0 at this
      rw [List.length_drop] at this
      omega
    · rw [hf, ← List.drop_drop, ← havail, hnb, List.drop_append_of_le_length (by omega)]
    · rw [hf, ← hnb]
      change cutsAt (s.frame.seg.drop n :: s.frame.segs) d = _
      rw [cutsAt_drop (by omega), Nat.add_assoc, hcuts _ (by omega)]
    · rw [hf] at hno
      change s.frame.rxReadPtr = false at hno
      rw [hp] at hno
      cases hno
    · left
      have hk4 := hcut4 h4 hcut
      by_cases heq : y.length + k + n = 4
      · have := hatcut h4 hcut heq
        rw [cutsAt_inside (by omega)] at this
        cases this
      · rw [if_neg (by omega)] at hbytes
        omega
  · have hnl : n = s.frame.seg.length := by omega
    rw [hs] at hpos hcount
    rw [List.flatten_cons, List.length_append] at hcount
    refine ⟨k + n, hgot, ?_, by omega, fun _ => ⟨?_, fun d hd => ?_⟩, fun hno => ?_, fun h4 hcut => ?_⟩
    · rw [hf, htotal]
      refine ⟨?_, fun _ => hpos z List.mem_cons_self, fun x hx => hpos x (List.mem_cons_of_mem _ hx)⟩
      change s.frame.totalSegSize + z.length + zs.flatten.length = s.totalsize
      omega
    · rw [hf, ← List.drop_drop, ← havail, hnl, List.drop_left, hs]
      rfl
    · rw [hf, Nat.add_assoc, ← hcuts _ (by omega)]
      have hshort : s.frame.seg.length < n + d := by omega
      rw [cutsAt_short hshort, hs, hnl, Nat.add_sub_cancel_left]
    · rw [hf] at hno
      cases hno
    · left
      have hk4 := hcut4 h4 hcut
      rw [if_neg (by omega)] at hbytes
      omega
  · have hnl : n = s.frame.seg.length := by omega
    have hptr : s.body.frame.rxReadPtr = false := by rw [hf]
    refine ⟨k + n, hgot, ?_, by omega, fun hno => ?_, fun _ => ?_, fun h4 hcut => ?_⟩
    · rw [hf, htotal]
      exact ⟨hcount, nofun, hpos⟩
    · rw [hptr] at hno
      cases hno
    · by_cases hnil : s.frame.segs = []
      · left
        rw [hnil, List.flatten_nil, List.length_nil] at hlen
        omega
      · have hbn := hend.resolve_left hnil
        have hcut : cutsAt segs (k + n) = true := by
          rw [← hcutn, hnl, cutsAt_end]
          cases hss : s.frame.segs with
          | nil => exact absurd hss hnil
          | cons z zs => rfl
        split at hbytes
        · left
          omega
        · exact .inr ⟨by omega, hcut⟩
    · have hk4 := hcut4 h4 hcut
      rw [if_neg (by omega)] at hbytes
      rcases Nat.lt_or_ge (y.length + (k + n)) 4 with hlt | hge
      · exact .inl hlt
      · exact .inr ⟨by omega, hptr⟩

private theorem body_tagReceived : s.body.block.cmdTagReceived =
    (s.block.cmdTagReceived || decide (s.block.bytesToBeRead - min s.frame.seg.length s.block.bytesToBeRead = 0)) := by
  unfold Receiver.body
  simp only [read_length, store_tagReceived]
  split
  · rename_i h
    rw [decide_eq_true h.1, Bool.or_true]
  · rename_i h
    change s.block.cmdTagReceived = _
    cases htag : s.block.cmdTagReceived with
    | true => rfl
    | false => rw [decide_eq_false fun hzero => h ⟨hzero, htag⟩, Bool.or_false]

private theorem body_bytesToBeRead (h : s.block.cmdTagReceived = true) : s.body.block.bytesToBeRead =
    s.block.bytesToBeRead - min s.frame.seg.length s.block.bytesToBeRead := by
  unfold Receiver.body
  simp only [read_length, store_tagReceived]
  rw [if_neg fun hno => Bool.noConfusion (h.symm.trans hno.2)]

/-- The rounds that a loop may still take. -/
def Receiver.weight (s : Receiver) : Nat :=
  s.frame.weight + (if s.block.cmdTagReceived then 0 else 2) + if s.block.bytesToBeRead = 0 then 0 else 1

theorem Receiver.weight_le (s : Receiver) : s.weight ≤ s.rounds := by
  have hw : s.frame.weight ≤ s.frame.segs.length + 1 := by
    unfold RxFrame.weight
    split <;> omega
  unfold Receiver.weight Receiver.rounds
  split <;> split <;> omega

theorem Receiver.Reading.weight_lt (h : s.Reading muxId size y segs k) (hp : s.frame.rxReadPtr = true)
    (hb : 0 < s.block.bytesToBeRead) : s.body.weight < s.weight := by
  have hone : ∀ n : Nat, (if n = 0 then 0 else 1) ≤ 1 := by
    intro n
    split <;> omega
  have hbody := hone s.body.block.bytesToBeRead
  have hw : s.frame.weight = s.frame.segs.length + 1 := if_pos hp
  unfold Receiver.weight
  rw [body_tagReceived, if_neg (show ¬ s.block.bytesToBeRead = 0 by omega), hw]
  rcases body_cases h.fits hp with ⟨hlt, hf⟩ | ⟨hfull, hf⟩
  · have hwb : s.body.frame.weight = s.frame.segs.length + 1 := by
      rw [hf]
      exact if_pos hp
    have hmin : s.block.bytesToBeRead - min s.frame.seg.length s.block.bytesToBeRead = 0 := by omega
    rw [hwb, hmin, decide_eq_true rfl, Bool.or_true, if_pos rfl]
    cases htag : s.block.cmdTagReceived with
    | true =>
      rw [body_bytesToBeRead htag, hmin]
      simp only [if_true]
      omega
    | false =>
      simp only [Bool.false_eq_true, if_false]
      omega
  · have hwb : s.body.frame.weight < s.frame.segs.length + 1 := by
      rcases hf with ⟨z, zs, hs, hf, -⟩ | ⟨hf, -⟩
      · rw [hf, hs]
        exact Nat.lt_succ_self _
      · rw [hf]
        exact Nat.succ_pos _
    cases htag : s.block.cmdTagReceived with
    | true =>
      rw [Bool.true_or]
      omega
    | false =>
      rw [Bool.false_or, if_neg (show ¬ (false = true) from nofun)]
      split <;> omega

/-- The loop over the tag keeps what has been read in order. -/
theorem Receiver.Reading.tagLoop (h : s.Reading muxId size y segs k) (hsize : y.length + segs.flatten.length ≤ size + 4) :
    ∃ k', s.tagLoop.Reading muxId size y segs k' :=
  (@While.rule _ Receiver.tagOpen Receiver.body (fun s => ∃ k, s.Reading muxId size y segs k) Receiver.weight
    (fun s ⟨k, hk⟩ hc => by
      unfold Receiver.tagOpen at hc
      rw [Bool.and_eq_true, Bool.not_eq_true'] at hc
      have hpos : 0 < s.block.bytesToBeRead := by
        have hbytes := hk.got.bytes
        have htag := hc.2
        rw [hk.got.tagReceived, decide_eq_false_iff_not] at htag
        rw [if_neg htag] at hbytes
        omega
      exact ⟨hk.body hc.1 hpos hsize, hk.weight_lt hc.1 hpos⟩) _ s ⟨k, h⟩ s.weight_le).1

/-- The octets of the frame have been read, unless a segment ends with the tag and others follow. -/
theorem Receiver.Reading.dataLoop (h : s.Reading muxId size y segs k) (hpos : ∀ z ∈ segs, z ≠ [])
    (hsize : y.length + segs.flatten.length ≤ size + 4) :
    (¬ (y.length < 4 ∧ cutsAt segs (4 - y.length) = true) → s.dataLoop.block.Got muxId size (y ++ segs.flatten)) ∧
    (y.length < 4 ∧ cutsAt segs (4 - y.length) = true →
      ∃ k', k' < segs.flatten.length ∧ 4 ≤ y.length + k' ∧ s.dataLoop.block.Got muxId size (y ++ segs.flatten.take k')) := by
  obtain ⟨⟨k', hk'⟩, hend⟩ := @While.rule _ Receiver.dataOpen Receiver.body
    (fun s => ∃ k, s.Reading muxId size y segs k) Receiver.weight
    (fun s ⟨k, hk⟩ hc => by
      unfold Receiver.dataOpen at hc
      rw [Bool.and_eq_true, decide_eq_true_eq] at hc
      exact ⟨hk.body hc.2 hc.1 hsize, hk.weight_lt hc.2 hc.1⟩) _ s ⟨k, h⟩ s.weight_le
  change s.dataLoop.Reading muxId size y segs k' at hk'
  change s.dataLoop.dataOpen = false at hend
  unfold Receiver.dataOpen at hend
  rw [Bool.and_eq_false_iff, decide_eq_false_iff_not] at hend
  have hle := hk'.le
  have hbytes := hk'.got.bytes
  have hlen : (y ++ segs.flatten.take k').length = y.length + k' := by
    rw [List.length_append, List.length_take]
    omega
  rw [hlen] at hbytes
  have hover : k' = segs.flatten.length ∨ (y.length + k' = 4 ∧ cutsAt segs k' = true) := by
    rcases hend with hend | hend
    · split at hbytes
      · exact .inl (by omega)
      · omega
    · exact hk'.ended hend
  refine ⟨fun hno => ?_, fun ⟨h4, hcut⟩ => ?_⟩
  · have hall : k' = segs.flatten.length := by
      rcases hover with hall | ⟨h4, hcut⟩
      · exact hall
      · by_cases hy : y.length < 4
        · exact absurd ⟨hy, by rw [show 4 - y.length = k' by omega]; exact hcut⟩ hno
        · have hk0 : k' = 0 := by omega
          rw [hk0] at hcut
          cases segs with
          | nil => cases hcut
          | cons z zs =>
            have := List.length_pos_iff.2 (hpos z List.mem_cons_self)
            rw [cutsAt_inside this] at hcut
            cases hcut
    have hgot := hk'.got
    rwa [hall, List.take_length] at hgot
  · have hlt := cutsAt_lt hpos hcut
    refine ⟨k', ?_, ?_, hk'.got⟩
    · rcases hk'.cut h4 hcut with hk | ⟨hk, -⟩ <;> omega
    · rcases hover with hall | ⟨h4', -⟩ <;> omega

end

end Citrine.L2p
