import Citrine.L2p.L2p

/-!
# What a frame carries

`L2P_Send` writes the tag and the data as one stream.  Wherever a segment or a frame ends, the next frame goes on at the
position that has been reached (`Sender.At`), so a frame carries as many octets of the stream as its buffer has room for.
-/

namespace Citrine.L2p

open While

/-! ### Buffers -/

/-- The octets that can still be written. -/
def TxBuf.room (b : TxBuf) : Nat := if b.txWritePtr then b.remainingSegSize + b.segs.sum else 0

/-- The segments of a buffer of a size, as long as there is room. -/
structure TxBuf.Fits (b : TxBuf) (total : Nat) : Prop where
  count : b.totalSegSize + b.segs.sum = total
  full : b.txWritePtr = false → b.segs = []
  left : b.txWritePtr = true → 0 < b.remainingSegSize
  pos : ∀ z ∈ b.segs, 0 < z

/-- The segments that can still be written to. -/
def TxBuf.weight (b : TxBuf) : Nat := if b.txWritePtr then b.segs.length + 1 else 0

/-- A write, after which the next segment is begun when the old one is full and was not the last. -/
def TxBuf.put (b : TxBuf) (total : Nat) (dataPtr : List Nat) (dataSize : Nat) : TxBuf :=
  let r := b.write dataPtr dataSize
  if !r.1.txWritePtr && decide (r.1.totalSegSize < total) then r.1.nextSeg else r.1

section
variable {b : TxBuf} {total dataSize : Nat} {dataPtr : List Nat}

private theorem sum_eq_zero {l : List Nat} (h : ∀ z ∈ l, 0 < z) (hs : l.sum = 0) : l = [] := by
  cases l with
  | nil => rfl
  | cons z zs =>
    have := h z List.mem_cons_self
    rw [List.sum_cons] at hs
    omega

theorem write_full (h : b.remainingSegSize ≤ dataSize) :
    b.write dataPtr dataSize =
      ({ b with
          txWritePtr := false
          remainingSegSize := 0
          frame := b.frame ++ dataPtr.take b.remainingSegSize }, b.remainingSegSize) := by
  unfold TxBuf.write
  simp only [if_pos h, decide_eq_true h, Bool.not_true, Nat.sub_self]

theorem write_part (h : ¬ b.remainingSegSize ≤ dataSize) :
    b.write dataPtr dataSize =
      ({ b with
          txWritePtr := true
          remainingSegSize := b.remainingSegSize - dataSize
          frame := b.frame ++ dataPtr.take dataSize }, dataSize) := by
  unfold TxBuf.write
  simp only [if_neg h, decide_eq_false h, Bool.not_false]

theorem write_snd : (b.write dataPtr dataSize).2 = min b.remainingSegSize dataSize := by
  unfold TxBuf.write
  simp only
  split <;> omega

private theorem put_next {z : Nat} {zs : List Nat} (h : b.remainingSegSize ≤ dataSize) (hs : b.segs = z :: zs)
    (hlt : b.totalSegSize < total) :
    b.put total dataPtr dataSize =
      ⟨true, z, b.totalSegSize + z, zs, b.frame ++ dataPtr.take b.remainingSegSize⟩ := by
  unfold TxBuf.put
  simp only
  rw [write_full h]
  simp only [Bool.not_false, Bool.true_and, decide_eq_true hlt, if_true]
  unfold TxBuf.nextSeg
  simp only [hs]

private theorem put_last (h : b.remainingSegSize ≤ dataSize) (hlt : ¬ b.totalSegSize < total) :
    b.put total dataPtr dataSize = ⟨false, 0, b.totalSegSize, b.segs, b.frame ++ dataPtr.take b.remainingSegSize⟩ := by
  unfold TxBuf.put
  simp only
  rw [write_full h]
  simp only [decide_eq_false hlt, Bool.and_false, Bool.false_eq_true, if_false]

private theorem put_part (h : ¬ b.remainingSegSize ≤ dataSize) :
    b.put total dataPtr dataSize =
      ⟨true, b.remainingSegSize - dataSize, b.totalSegSize, b.segs, b.frame ++ dataPtr.take dataSize⟩ := by
  unfold TxBuf.put
  simp only
  rw [write_part h]
  simp only [Bool.not_true, Bool.false_and, Bool.false_eq_true, if_false]

/-- A write keeps the segments in order, and uses the room that it needs. -/
theorem TxBuf.Fits.put (h : b.Fits total) (hp : b.txWritePtr = true) (dataPtr : List Nat) (dataSize : Nat) :
    (b.put total dataPtr dataSize).Fits total ∧
    (b.put total dataPtr dataSize).frame = b.frame ++ dataPtr.take (min b.remainingSegSize dataSize) ∧
    (b.put total dataPtr dataSize).room + min b.remainingSegSize dataSize = b.room ∧
    (b.remainingSegSize ≤ dataSize → (b.put total dataPtr dataSize).weight < b.weight) ∧
    (dataSize < b.remainingSegSize → (b.put total dataPtr dataSize).weight = b.weight) := by
  have hcount := h.count
  have hpos := h.pos
  have hroom : b.room = b.remainingSegSize + b.segs.sum := if_pos hp
  have hweight : b.weight = b.segs.length + 1 := if_pos hp
  rw [hroom, hweight]
  by_cases hfull : b.remainingSegSize ≤ dataSize
  · rw [Nat.min_eq_left hfull]
    by_cases hlt : b.totalSegSize < total
    · cases hs : b.segs with
      | nil =>
        rw [hs, List.sum_nil] at hcount
        omega
      | cons z zs =>
        rw [put_next hfull hs hlt]
        rw [hs] at hpos hcount
        rw [List.sum_cons] at hcount ⊢
        refine ⟨⟨?_, nofun, fun _ => hpos z List.mem_cons_self, fun y hy => hpos y (List.mem_cons_of_mem _ hy)⟩, rfl, ?_,
          fun _ => Nat.lt_succ_self _, fun hno => absurd hfull (Nat.not_le.2 hno)⟩
        · change b.totalSegSize + z + zs.sum = total
          omega
        · change z + zs.sum + b.remainingSegSize = b.remainingSegSize + (z + zs.sum)
          omega
    · have hnil : b.segs = [] := sum_eq_zero hpos (by omega)
      rw [put_last hfull hlt]
      refine ⟨⟨hcount, fun _ => hnil, nofun, hpos⟩, rfl, ?_, fun _ => Nat.succ_pos _,
        fun hno => absurd hfull (Nat.not_le.2 hno)⟩
      change 0 + b.remainingSegSize = b.remainingSegSize + b.segs.sum
      rw [hnil, List.sum_nil, Nat.zero_add, Nat.add_zero]
  · rw [Nat.min_eq_right (by omega), put_part hfull]
    refine ⟨⟨hcount, nofun, fun _ => ?_, hpos⟩, rfl, ?_, fun hno => absurd hno hfull, fun _ => rfl⟩
    · change 0 < b.remainingSegSize - dataSize
      omega
    · change b.remainingSegSize - dataSize + b.segs.sum + dataSize = b.remainingSegSize + b.segs.sum
      omega

/-- The frame control bytes are written, and a segment with room for more is begun. -/
theorem writeCntrl_spec {n : Nat} {o : List Nat} (h : b.Fits total) (hp : b.txWritePtr = true) (hroom : o.length < b.room)
    (hn : b.weight < n) :
    (writeCntrl n b o).Fits total ∧ (writeCntrl n b o).txWritePtr = true ∧ (writeCntrl n b o).frame = b.frame ++ o ∧
    (writeCntrl n b o).room + o.length = b.room ∧ (writeCntrl n b o).segs.length ≤ b.segs.length := by
  have hbroom : b.room = b.remainingSegSize + b.segs.sum := if_pos hp
  have hweight : b.weight = b.segs.length + 1 := if_pos hp
  induction n generalizing b o with
  | zero => omega
  | succ n ih =>
    cases o with
    | nil => exact ⟨h, hp, (List.append_nil _).symm, rfl, Nat.le_refl _⟩
    | cons c cs =>
      have hcount := h.count
      have hpos := h.pos
      rw [List.length_cons] at hroom ⊢
      unfold writeCntrl
      simp only
      by_cases hfull : b.remainingSegSize ≤ cs.length + 1
      · rw [write_full hfull]
        simp only [Bool.false_eq_true, if_false]
        cases hs : b.segs with
        | nil =>
          rw [hs, List.sum_nil] at hbroom
          omega
        | cons z zs =>
          rw [hs] at hpos hcount hbroom hweight
          rw [List.sum_cons] at hcount hbroom
          rw [List.length_cons] at hweight
          unfold TxBuf.nextSeg
          simp only
          have hlen : ((c :: cs).drop b.remainingSegSize).length = cs.length + 1 - b.remainingSegSize := by
            rw [List.length_drop, List.length_cons]
          obtain ⟨hf, hptr, hframe, hr, hle⟩ := @ih
            ⟨true, z, b.totalSegSize + z, zs, b.frame ++ (c :: cs).take b.remainingSegSize⟩
            ((c :: cs).drop b.remainingSegSize)
            ⟨by change b.totalSegSize + z + zs.sum = total; omega, nofun, fun _ => hpos z List.mem_cons_self,
              fun y hy => hpos y (List.mem_cons_of_mem _ hy)⟩ rfl
            (by rw [hlen]; change _ < z + zs.sum; omega) (by change zs.length + 1 < n; omega) rfl rfl
          refine ⟨hf, hptr, ?_, ?_, Nat.le_succ_of_le hle⟩
          · rw [hframe, List.append_assoc, List.take_append_drop]
          · rw [hlen] at hr
            change _ = z + zs.sum at hr
            omega
      · rw [write_part hfull]
        simp only [if_true]
        rw [show (c :: cs).drop (cs.length + 1) = [] from List.drop_length, show (c :: cs).take (cs.length + 1) = c :: cs
          from List.take_length (l := c :: cs)]
        have hdone : ∀ b' : TxBuf, writeCntrl n b' [] = b' := by
          intro b'
          cases n <;> rfl
        rw [hdone]
        refine ⟨⟨hcount, nofun, fun _ => ?_, hpos⟩, rfl, rfl, ?_, Nat.le_refl _⟩
        · change 0 < b.remainingSegSize - (cs.length + 1)
          omega
        · change b.remainingSegSize - (cs.length + 1) + b.segs.sum + (cs.length + 1) = b.room
          omega

end

/-! ### The stream of a message -/

/-- The tag and the data, as they are sent. -/
def Message.stream (m : Message) : List Nat := octets32 m.dataTag ++ m.data

theorem Message.stream_length (m : Message) : m.stream.length = m.dataLen + 4 := by
  unfold Message.stream
  rw [List.length_append, Nat.add_comm]
  rfl

/-- The sender goes on with a position of the stream. -/
structure Sender.At (s : Sender) (m : Message) (x : Nat) : Prop where
  le : x ≤ m.stream.length
  length : (s.dataToBeWritten.getD []).length = s.bytesToBeWritten
  tag : s.cmdTagWritten = decide (4 ≤ x)
  rest : s.dataToBeWritten.getD [] ++ (if 4 ≤ x then [] else m.data) = m.stream.drop x
  null : s.dataToBeWritten = none ↔ 4 ≤ x ∧ m.dataBuf = none

section
variable {m : Message} {s : Sender} {x : Nat}

/-- The octets that the pointer stands at, before and behind the end of the tag. -/
theorem Sender.At.bytes (h : s.At m x) :
    s.bytesToBeWritten = if 4 ≤ x then m.stream.length - x else 4 - x := by
  have hlen := congrArg List.length h.rest
  rw [List.length_append, h.length, List.length_drop, m.stream_length] at hlen
  rw [m.stream_length]
  split
  · rename_i hx
    rw [if_pos hx, List.length_nil] at hlen
    omega
  · rename_i hx
    rw [if_neg hx] at hlen
    change s.bytesToBeWritten + m.dataLen = _ at hlen
    omega

theorem body_buf : (s.body m).buf = s.buf.put s.totalBufSize (s.dataToBeWritten.getD []) s.bytesToBeWritten := by
  unfold Sender.body TxBuf.put
  simp only
  split <;> rfl

theorem body_bytesRemaining : (s.body m).bytesRemainingToBeSent =
    (s.bytesRemainingToBeSent + 65536 - min s.buf.remainingSegSize s.bytesToBeWritten) % 65536 := by
  unfold Sender.body
  simp only [write_snd]
  split <;> rfl

theorem body_fixed : (s.body m).totalBufSize = s.totalBufSize ∧ (s.body m).frameType = s.frameType ∧
    (s.body m).frameId = s.frameId := by
  unfold Sender.body
  simp only
  split <;> exact ⟨rfl, rfl, rfl⟩

/-- A round writes the octets that the segment has room for, from the position on. -/
theorem Sender.At.body (h : s.At m x) :
    (s.body m).At m (x + min s.buf.remainingSegSize s.bytesToBeWritten) ∧
    (s.dataToBeWritten.getD []).take (min s.buf.remainingSegSize s.bytesToBeWritten) =
      (m.stream.drop x).take (min s.buf.remainingSegSize s.bytesToBeWritten) := by
  have hbytes := h.bytes
  have hlen := m.stream_length
  have hle := h.le
  obtain ⟨n, hn⟩ : ∃ n, min s.buf.remainingSegSize s.bytesToBeWritten = n := ⟨_, rfl⟩
  have hnle : n ≤ s.bytesToBeWritten := by omega
  have hgetD : ∀ k, (s.dataToBeWritten.map (·.drop k)).getD [] = (s.dataToBeWritten.getD []).drop k := by
    intro k
    cases s.dataToBeWritten with
    | none => exact List.drop_nil.symm
    | some o => rfl
  have htake : (s.dataToBeWritten.getD []).take n = (m.stream.drop x).take n := by
    rw [← h.rest, List.take_append_of_le_length (by rw [h.length]; exact hnle)]
  have hdrop : m.stream.drop (x + n) = (s.dataToBeWritten.getD []).drop n ++ (if 4 ≤ x then [] else m.data) := by
    rw [← List.drop_drop, ← h.rest, List.drop_append_of_le_length (by rw [h.length]; exact hnle)]
  rw [hn]
  refine ⟨?_, htake⟩
  unfold Sender.body
  simp only [write_snd, hn]
  split
  · -- the tag is complete, and the data follow
    rename_i hswitch
    obtain ⟨hzero, htag⟩ := hswitch
    change s.cmdTagWritten = false at htag
    have hx : ¬ 4 ≤ x := by
      rw [h.tag] at htag
      exact of_decide_eq_false htag
    rw [if_neg hx] at hbytes hdrop
    have hx4 : x + n = 4 := by omega
    have hnil : (s.dataToBeWritten.getD []).drop n = [] := by
      refine List.drop_eq_nil_of_le ?_
      rw [h.length]
      omega
    refine ⟨by omega, rfl, ?_, ?_, ?_⟩
    · rw [hx4]
      rfl
    · rw [hdrop, hnil, hx4]
      exact List.append_nil _
    · rw [hx4]
      exact ⟨fun hnone => ⟨Nat.le_refl 4, hnone⟩, fun hnone => hnone.2⟩
  · rename_i hno
    have hiff : 4 ≤ x + n ↔ 4 ≤ x := by
      refine ⟨fun h4 => Classical.byContradiction fun hx => hno ?_, fun h4 => by omega⟩
      rw [if_neg hx] at hbytes
      refine ⟨by omega, ?_⟩
      rw [h.tag, decide_eq_false hx]
    refine ⟨?_, ?_, ?_, ?_, ?_⟩
    · split at hbytes <;> omega
    · change ((s.dataToBeWritten.map (·.drop n)).getD []).length = s.bytesToBeWritten - n
      rw [hgetD, List.length_drop, h.length]
    · change s.cmdTagWritten = _
      rw [h.tag]
      exact decide_eq_decide.2 hiff.symm
    · change (s.dataToBeWritten.map (·.drop n)).getD [] ++ _ = _
      rw [hgetD, hdrop]
      simp only [hiff]
    · change s.dataToBeWritten.map (·.drop n) = none ↔ _
      rw [Option.map_eq_none_iff, h.null, hiff]

end

/-! ### The loops -/

/-- While a frame is filled: what has been written since the frame control bytes, and how much room is left. -/
structure Sender.Filling (s : Sender) (m : Message) (header : List Nat) (x room left k : Nat) (t : Sender) : Prop where
  at_ : s.At m (x + k)
  fits : s.buf.Fits s.totalBufSize
  frame : s.buf.frame = header ++ (m.stream.drop x).take k
  room : s.buf.room + k = room
  left : (s.bytesRemainingToBeSent + k) % 65536 = left
  word : s.bytesRemainingToBeSent < 65536
  frameType : s.frameType = t.frameType
  frameId : s.frameId = t.frameId
  total : s.totalBufSize = t.totalBufSize

section
variable {m : Message} {header : List Nat} {x room left k : Nat} {t s : Sender}

theorem Sender.Filling.body (h : s.Filling m header x room left k t) (hp : s.buf.txWritePtr = true)
    (hroom : room < 65536) : ∃ k', (s.body m).Filling m header x room left k' t := by
  obtain ⟨hat, htake⟩ := h.at_.body
  obtain ⟨hfits, hframe, hr, -, -⟩ := h.fits.put hp (s.dataToBeWritten.getD []) s.bytesToBeWritten
  obtain ⟨n, hn⟩ : ∃ n, min s.buf.remainingSegSize s.bytesToBeWritten = n := ⟨_, rfl⟩
  have hk := h.room
  have hword := h.word
  have hleft := h.left
  rw [hn] at hat htake hframe hr
  obtain ⟨htotal, htype, hid⟩ := @body_fixed m s
  refine ⟨k + n, ?_, ?_, ?_, ?_, ?_, ?_, htype.trans h.frameType, hid.trans h.frameId, htotal.trans h.total⟩
  · rw [← Nat.add_assoc]
    exact hat
  · rw [body_buf, htotal]
    exact hfits
  · rw [body_buf, hframe, h.frame, htake, List.append_assoc, List.take_add, List.drop_drop]
  · rw [body_buf]
    omega
  · rw [body_bytesRemaining, hn]
    omega
  · rw [body_bytesRemaining]
    exact Nat.mod_lt _ (by decide)

/-- The rounds that a loop may still take. -/
def Sender.weight (s : Sender) : Nat :=
  s.buf.weight + (if s.cmdTagWritten then 0 else 2) + if s.bytesToBeWritten = 0 then 0 else 1

private theorem body_tag : (s.body m).cmdTagWritten =
    (s.cmdTagWritten || decide (s.bytesToBeWritten - min s.buf.remainingSegSize s.bytesToBeWritten = 0)) := by
  unfold Sender.body
  simp only [write_snd]
  split
  · rename_i h
    rw [decide_eq_true h.1, Bool.or_true]
  · rename_i h
    change s.cmdTagWritten = _
    cases htag : s.cmdTagWritten with
    | true => rfl
    | false => rw [decide_eq_false fun hzero => h ⟨hzero, htag⟩, Bool.or_false]

private theorem body_bytes (h : s.cmdTagWritten = true) :
    (s.body m).bytesToBeWritten = s.bytesToBeWritten - min s.buf.remainingSegSize s.bytesToBeWritten := by
  unfold Sender.body
  simp only [write_snd]
  rw [if_neg fun hno => Bool.noConfusion (h.symm.trans hno.2)]

theorem Sender.Filling.weight_lt (h : s.Filling m header x room left k t) (hp : s.buf.txWritePtr = true)
    (hb : 0 < s.bytesToBeWritten) : (s.body m).weight < s.weight := by
  obtain ⟨-, -, -, hless, hsame⟩ := h.fits.put hp (s.dataToBeWritten.getD []) s.bytesToBeWritten
  have hone : ∀ n : Nat, (if n = 0 then 0 else 1) ≤ 1 := by
    intro n
    split <;> omega
  have hbody := hone (s.body m).bytesToBeWritten
  unfold Sender.weight
  rw [body_buf, body_tag, if_neg (show ¬ s.bytesToBeWritten = 0 by omega)]
  cases htag : s.cmdTagWritten with
  | true =>
    rw [Bool.true_or, if_pos rfl, body_bytes htag]
    by_cases hfull : s.buf.remainingSegSize ≤ s.bytesToBeWritten
    · have := hless hfull
      have := hone (s.bytesToBeWritten - min s.buf.remainingSegSize s.bytesToBeWritten)
      omega
    · rw [hsame (by omega), if_pos (show s.bytesToBeWritten - min s.buf.remainingSegSize s.bytesToBeWritten = 0 by omega)]
      omega
  | false =>
    rw [Bool.false_or, if_neg (show ¬ (false = true) from nofun)]
    by_cases hfull : s.buf.remainingSegSize ≤ s.bytesToBeWritten
    · have := hless hfull
      split <;> omega
    · rw [hsame (by omega), if_pos (decide_eq_true (show _ = 0 by omega))]
      omega

theorem Sender.weight_le (s : Sender) : s.weight ≤ s.rounds := by
  have hw : s.buf.weight ≤ s.buf.segs.length + 1 := by
    unfold TxBuf.weight
    split <;> omega
  unfold Sender.weight Sender.rounds
  split <;> split <;> omega

/-- The tag is not complete as long as there are octets of it to write. -/
theorem Sender.Filling.tag_pos (h : s.Filling m header x room left k t) (htag : s.cmdTagWritten = false) :
    0 < s.bytesToBeWritten := by
  have hbytes := h.at_.bytes
  have hx : ¬ 4 ≤ x + k := by
    rw [h.at_.tag] at htag
    exact of_decide_eq_false htag
  rw [if_neg hx] at hbytes
  omega

/-- The loop over the tag ends with the tag or with the frame. -/
theorem Sender.Filling.tagLoop (h : s.Filling m header x room left k t) (hroom : room < 65536) :
    ∃ k', (s.tagLoop m).Filling m header x room left k' t ∧ (k' = room ∨ 4 ≤ x + k') := by
  obtain ⟨⟨k', hk'⟩, hend⟩ := @While.rule _ Sender.tagOpen (Sender.body m)
    (fun s => ∃ k, s.Filling m header x room left k t) Sender.weight
    (fun s ⟨k, hk⟩ hc => by
      unfold Sender.tagOpen at hc
      rw [Bool.and_eq_true, Bool.not_eq_true'] at hc
      exact ⟨hk.body hc.1 hroom, hk.weight_lt hc.1 (hk.tag_pos hc.2)⟩) _ s ⟨k, h⟩ s.weight_le
  refine ⟨k', hk', ?_⟩
  change (s.tagLoop m).tagOpen = false at hend
  unfold Sender.tagOpen at hend
  rw [Bool.and_eq_false_iff, Bool.not_eq_false'] at hend
  rcases hend with hend | hend
  · left
    have := hk'.room
    unfold TxBuf.room at this
    change (if (s.tagLoop m).buf.txWritePtr then _ else _) + k' = room at this
    rw [hend, if_neg nofun] at this
    omega
  · right
    have htag := hk'.at_.tag
    change (s.tagLoop m).cmdTagWritten = _ at htag
    rw [htag] at hend
    exact of_decide_eq_true hend

/-- The loop over the data ends with the message or with the frame. -/
theorem Sender.Filling.dataLoop (h : s.Filling m header x room left k t) (hroom : room < 65536) :
    (s.dataLoop m).Filling m header x room left (min room (m.stream.length - x)) t := by
  obtain ⟨⟨k', hk'⟩, hend⟩ := @While.rule _ Sender.dataOpen (Sender.body m)
    (fun s => ∃ k, s.Filling m header x room left k t) Sender.weight
    (fun s ⟨k, hk⟩ hc => by
      unfold Sender.dataOpen at hc
      rw [Bool.and_eq_true, decide_eq_true_eq] at hc
      exact ⟨hk.body hc.2 hroom, hk.weight_lt hc.2 hc.1⟩) _ s ⟨k, h⟩ s.weight_le
  change (s.dataLoop m).Filling m header x room left k' t at hk'
  change (s.dataLoop m).dataOpen = false at hend
  unfold Sender.dataOpen at hend
  have hle := hk'.at_.le
  have hk : k' ≤ room := by
    have := hk'.room
    omega
  have heq : min room (m.stream.length - x) = k' := by
    rw [Bool.and_eq_false_iff, decide_eq_false_iff_not] at hend
    rcases hend with hend | hend
    · have hbytes := hk'.at_.bytes
      split at hbytes <;> omega
    · have := hk'.room
      unfold TxBuf.room at this
      rw [hend, if_neg nofun] at this
      omega
  rw [heq]
  exact hk'

/-- The sender between two frames. -/
def Sender.Begun (s : Sender) (m : Message) (x : Nat) : Prop :=
  (x = 0 ∧ s.frameType = .unknown ∧ s.cmdTagWritten = false) ∨ (0 < x ∧ s.At m x ∧ s.frameType ≠ .unknown)

/-- The control bytes of a frame that starts a message. -/
def FrameControlBytes.starts (c : FrameControlBytes) : Prop := c.frameType = .start ∨ c.frameType = .complete

theorem octets_length (c : FrameControlBytes) : c.octets.length = frameControlSize := rfl

private theorem nextType_first (h : s.frameType = .unknown) (n : Nat) :
    s.nextType n = .complete ∨ s.nextType n = .start := by
  unfold Sender.nextType
  rw [if_pos h, if_pos h]
  split
  · exact .inl rfl
  · exact .inr rfl

private theorem nextType_later (h : s.frameType ≠ .unknown) (n : Nat) :
    ¬ (s.nextType n = .complete ∨ s.nextType n = .start) ∧ s.nextType n ≠ .unknown := by
  unfold Sender.nextType
  rw [if_neg h, if_neg h]
  split
  · exact ⟨nofun, nofun⟩
  · exact ⟨nofun, nofun⟩

/-- A frame is begun with its control bytes, and the rest of the buffer is for the stream. -/
theorem Sender.Begun.frame (h : s.Begun m x) {z : Nat} {zs : List Nat} (hpos : ∀ y ∈ z :: zs, 0 < y)
    (hsize : frameControlSize < (z :: zs).sum) (hword : s.bytesRemainingToBeSent < 65536) (hsum : (z :: zs).sum < 65536) :
    ∃ k, ((s.beginFrame m z zs).beginTag m).Filling m (s.cntrlBytes m (z :: zs).sum).octets x
        ((z :: zs).sum - frameControlSize) s.bytesRemainingToBeSent k (s.beginFrame m z zs) ∧
      (x = 0 → k = (z :: zs).sum - frameControlSize ∨ 4 ≤ k) ∧ (0 < x → k = 0) := by
  have htotal : z + zs.sum = (z :: zs).sum := List.sum_cons.symm
  have hbuf : TxBuf.Fits ⟨true, z, z, zs, []⟩ (z :: zs).sum :=
    ⟨htotal, nofun, fun _ => hpos z List.mem_cons_self, fun y hy => hpos y (List.mem_cons_of_mem _ hy)⟩
  obtain ⟨hfits, -, hframe, hroom, -⟩ := writeCntrl_spec (n := zs.length + 2)
    (o := (s.cntrlBytes m (z :: zs).sum).octets) hbuf rfl (by rw [octets_length]; change 8 < z + zs.sum; rw [htotal]; exact hsize)
    (Nat.lt_succ_self _)
  have hb : (s.beginFrame m z zs).buf = writeCntrl (zs.length + 2) ⟨true, z, z, zs, []⟩
      (s.cntrlBytes m (z :: zs).sum).octets := by
    unfold Sender.beginFrame
    simp only
    rw [htotal]
  have hbt : (s.beginFrame m z zs).totalBufSize = (z :: zs).sum := htotal
  have htype : (s.beginFrame m z zs).frameType = s.nextType (z :: zs).sum := by
    unfold Sender.beginFrame
    simp only
    rw [htotal]
  rw [octets_length, show TxBuf.room ⟨true, z, z, zs, []⟩ = (z :: zs).sum from htotal] at hroom
  rw [List.nil_append] at hframe
  -- the buffer is ready for the stream, whatever the pointer stands at
  have hfill : ∀ (t : Sender), t.At m x → t.buf = (s.beginFrame m z zs).buf →
      t.totalBufSize = (s.beginFrame m z zs).totalBufSize → t.bytesRemainingToBeSent = s.bytesRemainingToBeSent →
      t.frameType = (s.beginFrame m z zs).frameType → t.frameId = (s.beginFrame m z zs).frameId →
      t.Filling m (s.cntrlBytes m (z :: zs).sum).octets x ((z :: zs).sum - frameControlSize) s.bytesRemainingToBeSent 0
        (s.beginFrame m z zs) := by
    intro t hat htb htt htr hty hti
    refine ⟨hat, ?_, ?_, ?_, ?_, by rw [htr]; exact hword, hty, hti, htt⟩
    · rw [htb, hb, htt, hbt]
      exact hfits
    · rw [htb, hb, hframe]
      exact (List.append_nil _).symm
    · rw [htb, hb]
      omega
    · rw [htr]
      omega
  unfold Sender.beginTag
  rw [htype]
  rcases h with ⟨hx, hunknown, htag⟩ | ⟨hx, hat, hknown⟩
  · rw [if_pos (nextType_first hunknown _)]
    have hat : ({ s.beginFrame m z zs with bytesToBeWritten := 4, dataToBeWritten := some (octets32 m.dataTag) } :
        Sender).At m x := by
      rw [hx]
      exact ⟨Nat.zero_le _, rfl, htag, rfl, ⟨nofun, fun hno => absurd hno.1 (by decide)⟩⟩
    obtain ⟨k, hk, hend⟩ := (hfill _ hat rfl rfl rfl rfl rfl).tagLoop (by omega)
    refine ⟨k, hk, fun _ => ?_, fun hno => by omega⟩
    rwa [hx, Nat.zero_add] at hend
  · rw [if_neg (nextType_later hknown _).1]
    exact ⟨0, hfill _ ⟨hat.le, hat.length, hat.tag, hat.rest, hat.null⟩ rfl rfl rfl rfl rfl, fun hno => by omega,
      fun _ => rfl⟩

end

/-! ### The frames of a message -/

/-- The octets of the message that the first `i` frames carry. -/
def filled (cb : TxCallbacks) (maxMTU : Nat) (m : Message) : Nat → Nat
  | 0 => 0
  | i + 1 =>
    let x := filled cb maxMTU m i
    x + min ((cb.getTxBuf i (frameSizeReq maxMTU ((m.stream.length - x) % 65536))).sum - frameControlSize)
      (m.stream.length - x)

/-- The buffer for a frame. -/
def txBuffer (cb : TxCallbacks) (maxMTU : Nat) (m : Message) (i : Nat) : List Nat :=
  cb.getTxBuf i (frameSizeReq maxMTU ((m.stream.length - filled cb maxMTU m i) % 65536))

/-- Every buffer has segments with room for more than the control bytes, of a size of 16 bits, and is sent. -/
structure TxCallbacks.Valid (cb : TxCallbacks) : Prop where
  pos : ∀ i n, ∀ z ∈ cb.getTxBuf i n, 0 < z
  size : ∀ i n, frameControlSize < (cb.getTxBuf i n).sum
  word : ∀ i n, (cb.getTxBuf i n).sum < 65536
  sent : ∀ i, cb.sendFrame i = 0

/-- Frames that carry the stream of a message from a position up to another. -/
inductive Carries (m : Message) : Nat → List (List Nat) → Nat → Prop where
  | nil (x : Nat) : Carries m x [] x
  | cons {x y : Nat} {fs : List (List Nat)} (c : FrameControlBytes) (n : Nat) : c.muxId = m.muxId →
      c.dataLen = m.dataLen → (c.starts ↔ x = 0) → (x = 0 → c.frameId = 0) → 0 < n → x + n ≤ m.stream.length →
      Carries m (x + n) fs y → Carries m x ((c.octets ++ (m.stream.drop x).take n) :: fs) y

section
variable {cb : TxCallbacks} {maxMTU : Nat} {m : Message} {s : Sender} {i n : Nat} {o : List (List Nat)}

theorem filled_le (i : Nat) : filled cb maxMTU m i ≤ m.stream.length := by
  induction i with
  | zero => exact Nat.zero_le _
  | succ i ih =>
    unfold filled
    simp only
    omega

/-- The sender before the frame with a number. -/
private structure Turn (cb : TxCallbacks) (maxMTU : Nat) (m : Message) (i : Nat) (s : Sender) : Prop where
  begun : s.Begun m (filled cb maxMTU m i)
  left : s.bytesRemainingToBeSent = (m.stream.length - filled cb maxMTU m i) % 65536
  id : filled cb maxMTU m i = 0 → s.frameId = 0

private theorem sendLoop_done (h : s.bytesRemainingToBeSent = 0) :
    sendLoop cb maxMTU m (n + 1) i s o = some (o, .success) := by
  unfold sendLoop
  exact if_pos h

private theorem sendLoop_eq {z : Nat} {zs : List Nat} (hcb : cb.Valid) (hleft : s.bytesRemainingToBeSent ≠ 0)
    (hz : cb.getTxBuf i (frameSizeReq maxMTU s.bytesRemainingToBeSent) = z :: zs) :
    sendLoop cb maxMTU m (n + 1) i s o =
      if ((s.beginFrame m z zs).beginTag m).dataToBeWritten = none then some (o, .invalidParameter)
      else sendLoop cb maxMTU m n (i + 1)
        { ((s.beginFrame m z zs).beginTag m).dataLoop m with
          frameId := ((((s.beginFrame m z zs).beginTag m).dataLoop m).frameId + 1) % 256 }
        (o ++ [(((s.beginFrame m z zs).beginTag m).dataLoop m).buf.frame]) := by
  have hsent : ¬ cb.sendFrame i ≠ 0 := fun hne => hne (hcb.sent i)
  conv => lhs; unfold sendLoop
  rw [if_neg hleft, hz]
  simp only
  rw [if_neg hsent]

/-- One round of the loop over the frames. -/
private theorem sendLoop_frame (h : Turn cb maxMTU m i s) (hcb : cb.Valid) (hleft : s.bytesRemainingToBeSent ≠ 0) :
    (filled cb maxMTU m i = 0 ∧ m.dataBuf = none ∧ frameControlSize + 4 ≤ (txBuffer cb maxMTU m i).sum ∧
      sendLoop cb maxMTU m (n + 1) i s o = some (o, .invalidParameter)) ∨
    (¬ (filled cb maxMTU m i = 0 ∧ m.dataBuf = none ∧ frameControlSize + 4 ≤ (txBuffer cb maxMTU m i).sum) ∧
      ∃ (t : Sender) (c : FrameControlBytes) (k : Nat), Turn cb maxMTU m (i + 1) t ∧ filled cb maxMTU m (i + 1) = filled cb maxMTU m i + k ∧ 0 < k ∧
        k + frameControlSize ≤ (txBuffer cb maxMTU m i).sum ∧
        c.muxId = m.muxId ∧ c.dataLen = m.dataLen ∧ (c.starts ↔ filled cb maxMTU m i = 0) ∧ c.frameId = s.frameId ∧
        sendLoop cb maxMTU m (n + 1) i s o = sendLoop cb maxMTU m n (i + 1) t
          (o ++ [c.octets ++ (m.stream.drop (filled cb maxMTU m i)).take k])) := by
  have hlen := m.stream_length
  have hnext : filled cb maxMTU m (i + 1) = filled cb maxMTU m i +
      min ((txBuffer cb maxMTU m i).sum - frameControlSize) (m.stream.length - filled cb maxMTU m i) := rfl
  have hbuf : cb.getTxBuf i (frameSizeReq maxMTU s.bytesRemainingToBeSent) = txBuffer cb maxMTU m i := by
    rw [h.left]
    rfl
  have hpos : ∀ z ∈ txBuffer cb maxMTU m i, 0 < z := hcb.pos _ _
  have hsize : frameControlSize < (txBuffer cb maxMTU m i).sum := hcb.size _ _
  have hword : (txBuffer cb maxMTU m i).sum < 65536 := hcb.word _ _
  have hl := h.left
  have hle := @filled_le cb maxMTU m i
  obtain ⟨x, hx⟩ : ∃ x, filled cb maxMTU m i = x := ⟨_, rfl⟩
  have hbegun := h.begun
  rw [hx] at hnext hl hle hbegun ⊢
  cases hz : txBuffer cb maxMTU m i with
  | nil =>
    rw [hz, List.sum_nil] at hsize
    omega
  | cons z zs =>
    rw [hz] at hpos hsize hword hnext
    obtain ⟨k, hk, hfirst, hlater⟩ := hbegun.frame hpos hsize (by rw [hl]; exact Nat.mod_lt _ (by decide)) hword
    have hnone := hk.at_.null
    have hkroom := hk.room
    rw [sendLoop_eq hcb hleft (hbuf.trans hz)]
    by_cases hnull : x = 0 ∧ m.dataBuf = none ∧ frameControlSize + 4 ≤ (z :: zs).sum
    · left
      obtain ⟨hx0, hdata, hroom⟩ := hnull
      refine ⟨hx0, hdata, hroom, ?_⟩
      rw [if_pos (hnone.2 ⟨?_, hdata⟩)]
      rcases hfirst hx0 with hk' | hk' <;> omega
    · right
      refine ⟨hnull, ?_⟩
      -- the message is complete when the pointer is `NULL`
      rw [if_neg]
      · have hdone := hk.dataLoop (by omega)
        obtain ⟨d, hd⟩ : ∃ d, ((s.beginFrame m z zs).beginTag m).dataLoop m = d := ⟨_, rfl⟩
        obtain ⟨l, hl'⟩ : ∃ l, min ((z :: zs).sum - frameControlSize) (m.stream.length - x) = l := ⟨_, rfl⟩
        rw [hd, hl'] at hdone
        rw [hl'] at hnext
        rw [hd, hdone.frame]
        have hlpos : 0 < l := by omega
        have htype : (s.beginFrame m z zs).frameType = s.nextType (z :: zs).sum := by
          unfold Sender.beginFrame
          simp only
          rw [show z + zs.sum = (z :: zs).sum from List.sum_cons.symm]
        have hknown : d.frameType ≠ .unknown := by
          rw [hdone.frameType, htype]
          rcases hbegun with ⟨-, hu, -⟩ | ⟨-, -, hu⟩
          · rcases nextType_first hu (z :: zs).sum with h' | h' <;> rw [h'] <;> exact nofun
          · exact (nextType_later hu _).2
        refine ⟨{ d with frameId := (d.frameId + 1) % 256 }, s.cntrlBytes m (z :: zs).sum, l, ⟨?_, ?_, fun hno => ?_⟩, hnext,
          hlpos, by omega, rfl, rfl, ?_, rfl, rfl⟩
        · right
          rw [hnext]
          exact ⟨by omega, ⟨hdone.at_.le, hdone.at_.length, hdone.at_.tag, hdone.at_.rest, hdone.at_.null⟩, hknown⟩
        · change d.bytesRemainingToBeSent = _
          rw [hnext]
          have h1 := hdone.left
          have h2 := hdone.word
          omega
        · omega
        · change s.nextType (z :: zs).sum = .start ∨ s.nextType (z :: zs).sum = .complete ↔ _
          rcases hbegun with ⟨hx0, hu, -⟩ | ⟨hx0, -, hu⟩
          · exact iff_of_true (nextType_first hu _).symm hx0
          · exact iff_of_false (fun hno => (nextType_later hu _).1 hno.symm) (by omega)
      · rw [hnone]
        rintro ⟨h4, hdata⟩
        have hdl : m.dataLen = 0 := by
          unfold Message.dataLen Message.data
          rw [hdata]
          rfl
        by_cases hx0 : x = 0
        · exact hnull ⟨hx0, hdata, by omega⟩
        · have := hlater (by omega)
          omega

private theorem filled_pos (hcb : cb.Valid) (hi : 0 < i) : 0 < filled cb maxMTU m i := by
  cases i with
  | zero => omega
  | succ i =>
    have hsize : frameControlSize < (cb.getTxBuf i (frameSizeReq maxMTU
      ((m.stream.length - filled cb maxMTU m i) % 65536))).sum := hcb.size _ _
    have hlen := m.stream_length
    have hle := @filled_le cb maxMTU m i
    unfold filled
    simp only
    omega

/-- The pointer to the data is `NULL`, and the tag fits into the first frame. -/
def NullData (cb : TxCallbacks) (maxMTU : Nat) (m : Message) : Prop :=
  m.dataBuf = none ∧ frameControlSize + 4 ≤ (txBuffer cb maxMTU m 0).sum

/-- What the loop sends, from the frame with a number on. -/
private structure Sent (cb : TxCallbacks) (maxMTU : Nat) (m : Message) (i j : Nat) (fs : List (List Nat)) : Prop where
  le : i ≤ j
  carries : Carries m (filled cb maxMTU m i) fs (filled cb maxMTU m j)
  done : (m.stream.length - filled cb maxMTU m j) % 65536 = 0
  more : ∀ k, i ≤ k → k < j → (m.stream.length - filled cb maxMTU m k) % 65536 ≠ 0
  length : fs.length = j - i
  size : ∀ (k : Nat) (f : List Nat), fs[k]? = some f → f.length ≤ (txBuffer cb maxMTU m (i + k)).sum

private theorem sendLoop_run (h : Turn cb maxMTU m i s) (hcb : cb.Valid) (hdata : ¬ NullData cb maxMTU m)
    (hn : m.stream.length - filled cb maxMTU m i < n) :
    ∃ j fs, sendLoop cb maxMTU m n i s o = some (o ++ fs, .success) ∧ Sent cb maxMTU m i j fs := by
  induction n generalizing i s o with
  | zero => omega
  | succ n ih =>
    by_cases hleft : s.bytesRemainingToBeSent = 0
    · refine ⟨i, [], ?_, Nat.le_refl _, .nil _, ?_, fun k hk hki => by omega, (Nat.sub_self i).symm, nofun⟩
      · rw [sendLoop_done hleft, List.append_nil]
      · rw [← h.left]
        exact hleft
    · rcases sendLoop_frame (n := n) (o := o) h hcb hleft with
        ⟨hx, hnone, hroom, -⟩ | ⟨-, t, c, l, ht, hnext, hl, hsize, hmux, hlen, hstarts, hid, hloop⟩
      · cases i with
        | zero => exact absurd ⟨hnone, hroom⟩ hdata
        | succ i =>
          have := @filled_pos cb maxMTU m (i + 1) hcb (Nat.succ_pos i)
          omega
      · have hle := @filled_le cb maxMTU m (i + 1)
        obtain ⟨j, fs, hrun, hs⟩ := ih (o := o ++ [c.octets ++ (m.stream.drop (filled cb maxMTU m i)).take l]) ht
          (by omega)
        have hij := hs.le
        refine ⟨j, (c.octets ++ (m.stream.drop (filled cb maxMTU m i)).take l) :: fs, ?_, by omega, ?_, hs.done, ?_, ?_, ?_⟩
        · rw [hloop, hrun, List.append_assoc]
          rfl
        · refine .cons c l hmux hlen hstarts (fun hx => hid.trans (h.id hx)) hl (by omega) ?_
          rw [← hnext]
          exact hs.carries
        · intro k hk hkj
          rcases Nat.eq_or_lt_of_le hk with heq | hlt
          · rw [← heq, ← h.left]
            exact hleft
          · exact hs.more k hlt hkj
        · rw [List.length_cons, hs.length]
          omega
        · intro k f hf
          cases k with
          | zero =>
            rw [List.getElem?_cons_zero, Option.some.injEq] at hf
            rw [← hf, List.length_append, octets_length, List.length_take, Nat.add_zero]
            omega
          | succ k =>
            rw [List.getElem?_cons_succ] at hf
            have := hs.size k f hf
            rwa [Nat.add_assoc, Nat.add_comm 1 k] at this

/-- `L2P_Send` sends frames that carry the message from its beginning on, up to the first position that leaves a multiple of
65536 octets; with a `NULL` pointer to the data it gives up when the tag is in the first frame. -/
theorem l2pSend_spec (cb : TxCallbacks) (maxMTU : Nat) (m : Message) (hcb : cb.Valid) :
    (NullData cb maxMTU m ∧ l2pSend cb maxMTU m = some ([], .invalidParameter)) ∨
    (¬ NullData cb maxMTU m ∧ ∃ j fs, l2pSend cb maxMTU m = some (fs, .success) ∧
      Carries m 0 fs (filled cb maxMTU m j) ∧ (m.stream.length - filled cb maxMTU m j) % 65536 = 0 ∧
      (∀ k, k < j → (m.stream.length - filled cb maxMTU m k) % 65536 ≠ 0) ∧ fs.length = j ∧
      ∀ (k : Nat) (f : List Nat), fs[k]? = some f → f.length ≤ (txBuffer cb maxMTU m k).sum) := by
  have hlen := m.stream_length
  have hturn : Turn cb maxMTU m 0 m.sender :=
    ⟨.inl ⟨rfl, rfl, rfl⟩, by rw [hlen]; rfl, fun _ => rfl⟩
  by_cases hdata : NullData cb maxMTU m
  · refine .inl ⟨hdata, ?_⟩
    have hdl : m.dataLen = 0 := by
      unfold Message.dataLen Message.data
      rw [hdata.1]
      rfl
    have hleft : m.sender.bytesRemainingToBeSent ≠ 0 := by
      rw [hturn.left, hlen, hdl]
      exact nofun
    rcases sendLoop_frame (n := m.dataLen + 4) (o := []) hturn hcb hleft with ⟨-, -, -, h⟩ | ⟨hno, -⟩
    · exact h
    · exact absurd ⟨rfl, hdata⟩ hno
  · obtain ⟨j, fs, hrun, hs⟩ := sendLoop_run (n := m.dataLen + 5) (o := []) hturn hcb hdata (by rw [hlen]; omega)
    refine .inr ⟨hdata, j, fs, hrun, hs.carries, hs.done, fun k hk => hs.more k (Nat.zero_le _) hk, hs.length, fun k f hf => ?_⟩
    have := hs.size k f hf
    rwa [Nat.zero_add] at this

end

end Citrine.L2p
