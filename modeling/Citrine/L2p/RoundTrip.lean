import Citrine.L2p.Receiving

/-!
# Messages over layer 2

A message is delivered exactly once, with the last of its frames, whatever the segments of the buffers on both sides
(`messages_delivered`): unless the 16 bits for its length and its tag overflow, or its data are a `NULL` pointer, or a
received segment ends with the tag while data follow in the frame.
-/

namespace Citrine.L2p

/-! ### One frame -/

section
variable {b : ControlBlock} {c : FrameControlBytes} {segs : List (List Nat)} {p y : List Nat} {muxId size : Nat}

private theorem ofOctets_octets (c : FrameControlBytes) :
    FrameControlBytes.ofOctets c.octets =
      ⟨c.frameType, c.frameId % 256, c.protocolId % 256, c.muxId % 256, c.dataLen % 65536, c.frameLen % 65536⟩ := by
  have htype : FrameType.ofCode c.frameType.code = c.frameType := by cases c.frameType <;> rfl
  have hword : ∀ n, ofOctets (octets16 n) = n % 65536 := by
    intro n
    change n % 256 + 256 * (n / 256 % 256 + 256 * 0) = n % 65536
    omega
  have hdata : FrameControlBytes.ofOctets c.octets =
      ⟨.ofCode c.frameType.code, c.frameId % 256, c.protocolId % 256, c.muxId % 256, ofOctets (octets16 c.dataLen),
        ofOctets (octets16 c.frameLen)⟩ := rfl
  rw [hdata, htype, hword, hword]

private theorem ofOctets_octets32 (n : Nat) (h : n < 4294967296) : ofOctets (octets32 n) = n := by
  change n % 256 + 256 * (n / 256 % 256 + 256 * (n / 65536 % 256 + 256 * (n / 16777216 % 256 + 256 * 0))) = n
  omega

/-- A segment ends with the last octet of the tag, and the frame goes on. -/
def cutsTag (x : Nat) (segs : List (List Nat)) : Bool := decide (x < 4) && cutsAt segs (frameControlSize + (4 - x))

/-- What the loops start with. -/
private theorem reading_begin {g : RxFrame} {total : Nat} (hgot : b.Got muxId size y) (hg : g.Fits total)
    (hp : g.rxReadPtr = true) : (Receiver.mk b g total).Reading muxId size y (g.seg :: g.segs) 0 := by
  refine ⟨?_, hg, Nat.zero_le _, fun _ => ⟨rfl, fun d _ => by rw [Nat.zero_add]⟩, fun hno => ?_, fun h4 _ => .inl h4⟩
  · rw [List.take_zero, List.append_nil]
    exact hgot
  · change g.rxReadPtr = false at hno
    rw [hp] at hno
    cases hno

/-- A frame starts a message, or goes on with one. -/
private def Fit (b : ControlBlock) (c : FrameControlBytes) (muxId size : Nat) (y : List Nat) : Prop :=
  (c.starts ∧ c.frameId = 0 ∧ y = [] ∧ c.muxId % 256 = muxId ∧ c.dataLen % 65536 = size) ∨ (¬ c.starts ∧ b.Got muxId size y)

/-- A frame brings its octets of the stream, or loses what follows the tag. -/
private theorem l2pReceive_spec (h : Fit b c muxId size y) (hsegs : segs.flatten = c.octets ++ p) (hp : p ≠ [])
    (hne : ∀ z ∈ segs, z ≠ []) (hsize : y.length + p.length ≤ size + 4) :
    ∃ (d : ControlBlock) (z : List Nat), d.Got muxId size z ∧ (cutsTag y.length segs = false → z = y ++ p) ∧
      (cutsTag y.length segs = true → 4 ≤ z.length ∧ z.length < y.length + p.length) ∧
      l2pReceive b segs = if d.bytesToBeRead = 0 then (d.reset, .success, some d.message) else (d, .success, none) := by
  have hplen := List.length_pos_iff.2 hp
  cases segs with
  | nil =>
    have := congrArg List.length hsegs
    rw [List.flatten_nil, List.length_append, octets_length] at this
    exact absurd this (by change ¬ 0 = 8 + p.length; omega)
  | cons seg rest =>
    have hseg : seg ≠ [] := hne seg List.mem_cons_self
    have htotal : (seg :: rest).flatten.length = frameControlSize + p.length := by
      rw [hsegs, List.length_append, octets_length]
    have hflat : seg ++ rest.flatten = c.octets ++ p := by rw [← hsegs, List.flatten_cons]
    obtain ⟨g, hread, hg, hgp, havail, -, hcuts⟩ := readCntrl_spec (n := rest.length + 2) (k := frameControlSize) (o := [])
      (show (RxFrame.mk true seg seg.length rest).Fits (seg :: rest).flatten.length from
        ⟨by rw [List.flatten_cons, List.length_append], fun _ => hseg, fun x hx => hne x (List.mem_cons_of_mem _ hx)⟩) rfl
      (by change 8 < (seg ++ rest.flatten).length; rw [hflat, List.length_append, octets_length]; change 8 < 8 + p.length; omega)
      (Nat.lt_succ_self _)
    change readCntrl (rest.length + 2) ⟨true, seg, seg.length, rest⟩ frameControlSize [] =
      (g, [] ++ (seg ++ rest.flatten).take frameControlSize) at hread
    change g.seg ++ g.segs.flatten = (seg ++ rest.flatten).drop frameControlSize at havail
    rw [hflat, List.nil_append, List.take_left' (octets_length c)] at hread
    rw [hflat, List.drop_left' (octets_length c)] at havail
    have hgflat : (g.seg :: g.segs).flatten = p := by rw [List.flatten_cons, havail]
    have hgne : ∀ z ∈ g.seg :: g.segs, z ≠ [] := by
      intro z hz
      rcases List.mem_cons.1 hz with rfl | hz
      · exact hg.left hgp
      · exact hg.pos z hz
    have hgsize : y.length + (g.seg :: g.segs).flatten.length ≤ size + 4 := by rw [hgflat]; exact hsize
    obtain ⟨s, hs⟩ : ∃ s, Receiver.beginTag ⟨b.beginMessage (.ofOctets c.octets), g, (seg :: rest).flatten.length⟩
        (.ofOctets c.octets) = s := ⟨_, rfl⟩
    have hreading : ∃ k, s.Reading muxId size y (g.seg :: g.segs) k := by
      rw [← hs, ofOctets_octets]
      unfold Receiver.beginTag ControlBlock.beginMessage
      rcases h with ⟨hstarts, hid, hy, hmux, hlen⟩ | ⟨hstarts, hgot⟩
      · rw [if_pos (show _ ∨ _ from hstarts.symm), if_pos ⟨by rw [hid], hstarts⟩]
        refine (reading_begin (y := y) ?_ hg hgp).tagLoop hgsize
        rw [hy]
        exact ⟨Nat.zero_le _, rfl, ⟨_, rfl, fun hno => absurd hno (by decide)⟩, rfl, rfl, hlen, hmux⟩
      · rw [if_neg (show ¬ (_ ∨ _) from fun hno => hstarts hno.symm), if_neg fun hno => hstarts hno.2]
        exact ⟨0, reading_begin hgot hg hgp⟩
    obtain ⟨k, hk⟩ := hreading
    obtain ⟨hall, hlost⟩ := hk.dataLoop hgne hgsize
    rw [hgflat] at hall hlost
    have hcut : (y.length < 4 ∧ cutsAt (g.seg :: g.segs) (4 - y.length) = true) ↔ cutsTag y.length (seg :: rest) = true := by
      unfold cutsTag
      rw [Bool.and_eq_true, decide_eq_true_eq]
      refine and_congr_right fun h4 => ?_
      rw [hcuts _ (by omega)]
    have hrecv : l2pReceive b (seg :: rest) = if s.dataLoop.block.bytesToBeRead = 0
        then (s.dataLoop.block.reset, .success, some s.dataLoop.block.message) else (s.dataLoop.block, .success, none) := by
      have hnot : ¬ ((seg :: rest).flatten.length ≤ frameControlSize ∨ seg = []) := by
        rintro (hno | hno)
        · rw [htotal] at hno
          change 8 + p.length ≤ 8 at hno
          omega
        · exact hseg hno
      unfold l2pReceive
      simp only
      rw [if_neg hnot, hread]
      simp only
      rw [hs]
    by_cases hc : cutsTag y.length (seg :: rest) = true
    · obtain ⟨k', hk', h4, hgot⟩ := hlost (hcut.2 hc)
      have hlen : (y ++ p.take k').length = y.length + k' := by
        rw [List.length_append, List.length_take]
        omega
      exact ⟨_, _, hgot, fun hno => absurd hc (by rw [hno]; exact nofun), fun _ => ⟨by omega, by omega⟩, hrecv⟩
    · exact ⟨_, _, hall fun hno => hc (hcut.1 hno), fun _ => rfl, fun hno => absurd hno hc, hrecv⟩

end

/-! ### The frames of a message -/

/-- No segment of the received frames ends with the tag before its frame does; `x` octets of the stream have been received
before them. -/
def tagWhole : Nat → List (List (List Nat)) → Bool
  | _, [] => true
  | x, segs :: rest => !cutsTag x segs && tagWhole (x + (segs.flatten.length - frameControlSize)) rest

/-- What `Msg_Rxd_Cb` should be given for a message. -/
def Message.received (m : Message) : RxMessage := ⟨m.muxId, m.dataTag, m.data, m.dataLen⟩

/-- The values of a message are of the types of the parameters. -/
structure Message.Valid (m : Message) : Prop where
  muxId : m.muxId < 256
  dataTag : m.dataTag < 4294967296
  dataLen : m.dataLen < 65536

section
variable {b : ControlBlock} {m : Message} {cuts : List (List (List Nat))} {x y : Nat} {z : List Nat}

/-- With its last octet, the message is complete. -/
private theorem message_eq (hm : m.Valid) (h : b.Got m.muxId m.dataLen m.stream) : b.message = m.received := by
  have htag : (octets32 m.dataTag).length = 4 := rfl
  obtain ⟨o, hbuf, hdata⟩ := h.buf
  have ho : o = m.data := by
    rw [hdata (by rw [m.stream_length]; omega)]
    exact List.drop_left' htag
  have hcmd : b.receivedCmdTag = octets32 m.dataTag := by
    rw [h.tag]
    exact List.take_left' htag
  unfold ControlBlock.message Message.received
  rw [hcmd, ofOctets_octets32 _ hm.dataTag, h.muxId, h.size, hbuf, ho]
  change RxMessage.mk m.muxId m.dataTag (m.data.take m.data.length) m.dataLen = _
  rw [List.take_length]

/-- The message is complete with its last octet, not before. -/
private theorem bytes_zero (h : b.Got m.muxId m.dataLen z) : b.bytesToBeRead = 0 ↔ z.length = m.stream.length := by
  have hle := h.le
  rw [h.bytes, m.stream_length]
  split <;> omega

/-- A frame that goes on with a message is not the first one. -/
private theorem fit_of_carries {c : FrameControlBytes} (hm : m.Valid) (hmux : c.muxId = m.muxId) (hlen : c.dataLen = m.dataLen)
    (hstarts : c.starts ↔ x = 0) (hid : x = 0 → c.frameId = 0) (hgot : (x = 0 ∧ z = []) ∨ (0 < x ∧ b.Got m.muxId m.dataLen z)) :
    Fit b c m.muxId m.dataLen z := by
  rcases hgot with ⟨hx, hz⟩ | ⟨hx, hgot⟩
  · exact .inl ⟨hstarts.2 hx, hid hx, hz, by rw [hmux, Nat.mod_eq_of_lt hm.muxId], by rw [hlen, Nat.mod_eq_of_lt hm.dataLen]⟩
  · exact .inr ⟨fun hno => absurd (hstarts.1 hno) (by omega), hgot⟩

private theorem part_ne {n : Nat} (hn : 0 < n) (hle : x + n ≤ m.stream.length) :
    ((m.stream.drop x).take n).length = n ∧ (m.stream.drop x).take n ≠ [] := by
  have hlen : ((m.stream.drop x).take n).length = n := by
    rw [List.length_take, List.length_drop]
    omega
  refine ⟨hlen, fun hno => ?_⟩
  rw [hno] at hlen
  change 0 = n at hlen
  omega

private theorem receiveAll_cons (b : ControlBlock) (segs : List (List Nat)) (rest : List (List (List Nat))) :
    (receiveAll b (segs :: rest)).2 = (l2pReceive b segs).2.2 :: (receiveAll (l2pReceive b segs).1 rest).2 := rfl

/-- When octets of the data are lost, the message never becomes complete. -/
private theorem receive_lost (hm : m.Valid) (h : Carries m x (cuts.map List.flatten) y) (hne : ∀ f ∈ cuts, ∀ s ∈ f, s ≠ [])
    (hgot : b.Got m.muxId m.dataLen z) (h4 : 4 ≤ z.length) (hlt : z.length < x) :
    (receiveAll b cuts).2 = List.replicate cuts.length none := by
  induction cuts generalizing x b z with
  | nil => rfl
  | cons segs rest ih =>
    rw [List.map_cons] at h
    generalize hf : segs.flatten :: rest.map List.flatten = fs at h
    cases h with
    | nil => cases hf
    | cons c n hmux hlen hstarts hid hn hle hrest =>
      obtain ⟨hflat, hfs⟩ := List.cons.inj hf
      rw [← hfs] at hrest
      obtain ⟨hplen, hp⟩ := part_ne hn hle
      have hstream := m.stream_length
      obtain ⟨d, z', hd, hwhole, -, hrecv⟩ := l2pReceive_spec
        (fit_of_carries hm hmux hlen hstarts hid (.inr ⟨by omega, hgot⟩)) hflat hp (hne segs List.mem_cons_self)
        (by rw [hplen]; omega)
      have hcut : cutsTag z.length segs = false := by
        unfold cutsTag
        rw [decide_eq_false (show ¬ z.length < 4 by omega), Bool.false_and]
      have hz' : z'.length = z.length + n := by rw [hwhole hcut, List.length_append, hplen]
      have hmore : ¬ d.bytesToBeRead = 0 := by
        rw [bytes_zero hd]
        omega
      rw [receiveAll_cons, hrecv, if_neg hmore]
      exact congrArg (none :: ·) (ih hrest (fun f hf => hne f (List.mem_cons_of_mem _ hf)) hd (by omega) (by omega))

/-- The frames that carry a message up to some position give the message with the last of them, if that is its end and no
segment ends with the tag. -/
private theorem receive_carried (hm : m.Valid) (h : Carries m x (cuts.map List.flatten) y)
    (hne : ∀ f ∈ cuts, ∀ s ∈ f, s ≠ []) (hx : x < m.stream.length)
    (hgot : x = 0 ∨ (0 < x ∧ b.Got m.muxId m.dataLen (m.stream.take x))) :
    (receiveAll b cuts).2 = if y = m.stream.length ∧ tagWhole x cuts = true
      then List.replicate (cuts.length - 1) none ++ [some m.received] else List.replicate cuts.length none := by
  induction cuts generalizing x b with
  | nil =>
    cases h
    rw [if_neg fun hno => absurd hno.1 (Nat.ne_of_lt hx)]
    rfl
  | cons segs rest ih =>
    rw [List.map_cons] at h
    generalize hf : segs.flatten :: rest.map List.flatten = fs at h
    cases h with
    | nil => cases hf
    | cons c n hmux hlen hstarts hid hn hle hrest =>
      obtain ⟨hflat, hfs⟩ := List.cons.inj hf
      rw [← hfs] at hrest
      obtain ⟨hplen, hp⟩ := part_ne hn hle
      have hstream := m.stream_length
      have hxlen : (m.stream.take x).length = x := by
        rw [List.length_take]
        omega
      have hfit : Fit b c m.muxId m.dataLen (m.stream.take x) := by
        refine fit_of_carries hm hmux hlen hstarts hid (hgot.imp_left fun hx0 => ⟨hx0, ?_⟩)
        rw [hx0, List.take_zero]
      obtain ⟨d, z, hd, hwhole, hlost, hrecv⟩ := l2pReceive_spec hfit hflat hp (hne segs List.mem_cons_self)
        (by rw [hplen, hxlen]; omega)
      rw [hxlen] at hwhole hlost
      have hnext : segs.flatten.length - frameControlSize = n := by
        rw [hflat, List.length_append, octets_length, hplen, Nat.add_sub_cancel_left]
      have hrne : ∀ f ∈ rest, ∀ s ∈ f, s ≠ [] := fun f hf => hne f (List.mem_cons_of_mem _ hf)
      rw [receiveAll_cons, hrecv]
      cases hcut : cutsTag x segs with
      | true =>
        -- the rest of the frame is lost, and with it the message
        obtain ⟨h4, hlt⟩ := hlost hcut
        rw [hplen] at hlt
        have hmore : ¬ d.bytesToBeRead = 0 := by
          rw [bytes_zero hd]
          omega
        have hno : tagWhole x (segs :: rest) = false := by
          unfold tagWhole
          rw [hcut, Bool.not_true, Bool.false_and]
        rw [if_neg hmore, if_neg fun h => Bool.noConfusion (hno.symm.trans h.2)]
        exact congrArg (none :: ·) (receive_lost hm hrest hrne hd h4 hlt)
      | false =>
        have hz : z = m.stream.take (x + n) := by rw [hwhole hcut, List.take_add]
        have htag : tagWhole x (segs :: rest) = tagWhole (x + n) rest := by
          conv => lhs; unfold tagWhole
          rw [hcut, hnext, Bool.not_false, Bool.true_and]
        rw [hz] at hd
        have hzlen : (m.stream.take (x + n)).length = x + n := by
          rw [List.length_take]
          omega
        rw [htag]
        rcases Nat.lt_or_eq_of_le hle with hlt | heq
        · have hmore : ¬ d.bytesToBeRead = 0 := by
            rw [bytes_zero hd, hzlen]
            omega
          rw [if_neg hmore]
          change none :: (receiveAll d rest).2 = _
          rw [ih hrest hrne hlt (.inr ⟨by omega, hd⟩)]
          split
          · rename_i hall
            have hrest0 : rest ≠ [] := by
              intro hnil
              rw [hnil] at hrest
              cases hrest
              omega
            obtain ⟨k, hk⟩ := Nat.exists_eq_succ_of_ne_zero fun h0 => hrest0 (List.length_eq_zero_iff.1 h0)
            rw [List.length_cons, hk, Nat.add_sub_cancel, Nat.succ_sub_one, List.replicate_succ, List.cons_append]
          · rfl
        · have hnil : rest = [] := by
            generalize hf' : rest.map List.flatten = fs' at hrest
            cases hrest with
            | nil => exact List.map_eq_nil_iff.1 hf'
            | cons c' n' _ _ _ _ hn' hle' _ => omega
          have hy : y = m.stream.length := by
            rw [hnil] at hrest
            cases hrest
            exact heq
          rw [if_pos ((bytes_zero hd).2 (by rw [hzlen, heq])), hnil, if_pos ⟨hy, rfl⟩]
          rw [heq, List.take_length] at hd
          change some d.message :: [] = _
          rw [message_eq hm hd]
          rfl

end

/-! ### Messages -/

/-- A message with the callbacks it is sent with, and the segments in which its frames are received. -/
structure Transfer where
  cb : TxCallbacks
  maxMTU : Nat
  message : Message
  cuts : List (List (List Nat))
  callbacks : cb.Valid
  mtu : frameControlSize < maxMTU
  valid : message.Valid
  frames : ∃ status, l2pSend cb maxMTU message = some (cuts.map List.flatten, status)
  segs : ∀ f ∈ cuts, ∀ z ∈ f, z ≠ []

namespace Transfer
variable (t : Transfer)

/-- The results of the calls of `L2P_Receive` for a message that is delivered once, with the last frame. -/
def delivered : List (Option RxMessage) := List.replicate (t.cuts.length - 1) none ++ [some t.message.received]

/-- After some number of frames, 65536 octets of the stream are left: more than `bytesRemainingToBeSent` can count. -/
def Overflows : Prop := ∃ i, filled t.cb t.maxMTU t.message i + 65536 = t.message.stream.length

/-- The data are not a `NULL` pointer that is reached in the first frame, their length and that of the tag can be counted,
and no segment ends with the tag before its frame does. -/
structure Whole : Prop where
  data : ¬ NullData t.cb t.maxMTU t.message
  length : ¬ t.Overflows
  tag : tagWhole 0 t.cuts = true

end Transfer

/-- Messages that are sent one after the other. -/
def receiveEach : ControlBlock → List Transfer → List (List (Option RxMessage))
  | _, [] => []
  | b, t :: ts => (receiveAll b t.cuts).2 :: receiveEach (receiveAll b t.cuts).1 ts

/-- Every message has a frame and is delivered once, with its last frame. -/
def Delivers (b : ControlBlock) (ts : List Transfer) : Prop :=
  (∀ t ∈ ts, t.cuts ≠ []) ∧ receiveEach b ts = ts.map Transfer.delivered

section
variable {b : ControlBlock} {t : Transfer}

private theorem replicate_ne {n k : Nat} {r : RxMessage} :
    List.replicate n none ≠ List.replicate k none ++ [some r] := by
  intro h
  have hmem : some r ∈ List.replicate n (none : Option RxMessage) := by
    rw [h]
    exact List.mem_append_right _ List.mem_cons_self
  cases List.eq_of_mem_replicate hmem

/-- One message, whatever has been received before it. -/
private theorem delivered_iff : (t.cuts ≠ [] ∧ (receiveAll b t.cuts).2 = t.delivered) ↔ t.Whole := by
  have hlen := t.message.stream_length
  have hword := t.valid.dataLen
  obtain ⟨status, hsend⟩ := t.frames
  rcases l2pSend_spec t.cb t.maxMTU t.message t.callbacks with ⟨hnull, hrun⟩ | ⟨hdata, j, fs, hrun, hcarries, hdone, hmore, hj, -⟩
  · rw [hrun] at hsend
    have hnil : t.cuts = [] := List.map_eq_nil_iff.1 (congrArg Prod.fst (Option.some.inj hsend)).symm
    exact iff_of_false (fun hno => hno.1 hnil) fun hno => hno.data hnull
  · rw [hrun] at hsend
    have hfs : fs = t.cuts.map List.flatten := congrArg Prod.fst (Option.some.inj hsend)
    rw [hfs] at hcarries
    have hle := @filled_le t.cb t.maxMTU t.message j
    have hrecv := receive_carried (b := b) t.valid hcarries t.segs (by omega) (.inl rfl)
    -- the sender stops at the end, or where 65536 octets are left
    have hover : filled t.cb t.maxMTU t.message j = t.message.stream.length ↔ ¬ t.Overflows := by
      constructor
      · rintro hall ⟨i, hi⟩
        rcases Nat.lt_or_ge i j with hlt | hge
        · have := hmore i hlt
          omega
        · have hmono : ∀ k, filled t.cb t.maxMTU t.message j ≤ filled t.cb t.maxMTU t.message (j + k) := by
            intro k
            induction k with
            | zero => exact Nat.le_refl _
            | succ k ih => exact Nat.le_trans ih (Nat.le_add_right _ _)
          have := hmono (i - j)
          rw [show j + (i - j) = i by omega] at this
          omega
      · intro hno
        have : filled t.cb t.maxMTU t.message j + 65536 ≠ t.message.stream.length := fun heq => hno ⟨j, heq⟩
        omega
    rw [hrecv]
    by_cases hwhole : filled t.cb t.maxMTU t.message j = t.message.stream.length ∧ tagWhole 0 t.cuts = true
    · rw [if_pos hwhole]
      have hcuts : t.cuts ≠ [] := by
        intro hnil
        rw [hnil] at hcarries
        generalize filled t.cb t.maxMTU t.message j = y at hcarries hwhole
        cases hcarries
        have := hwhole.1
        omega
      exact iff_of_true ⟨hcuts, rfl⟩ ⟨hdata, hover.1 hwhole.1, hwhole.2⟩
    · rw [if_neg hwhole]
      exact iff_of_false (fun hno => replicate_ne hno.2) fun hno => hwhole ⟨hover.2 hno.length, hno.tag⟩

private theorem delivers_iff (ts : List Transfer) : Delivers b ts ↔ ∀ t ∈ ts, t.Whole := by
  induction ts generalizing b with
  | nil => exact ⟨fun _ t ht => (List.not_mem_nil ht).elim, fun _ => ⟨fun t ht => (List.not_mem_nil ht).elim, rfl⟩⟩
  | cons t ts ih =>
    unfold Delivers receiveEach
    rw [List.map_cons, List.cons.injEq, List.forall_mem_cons, List.forall_mem_cons, ← ih (b := (receiveAll b t.cuts).1),
      ← delivered_iff (b := b)]
    exact ⟨fun ⟨⟨h1, h2⟩, h3, h4⟩ => ⟨⟨h1, h3⟩, h2, h4⟩, fun ⟨⟨h1, h3⟩, h2, h4⟩ => ⟨⟨h1, h2⟩, h3, h4⟩⟩

end

/-- `L2P_Send` ends, and sends no frame that is longer than its buffer; and messages that are sent one after the other are
all delivered, each once and with the last of its frames, exactly when all of them are `Whole`. -/
theorem messages_delivered (b : ControlBlock) (ts : List Transfer) :
    (∀ t ∈ ts, ∃ fs status, l2pSend t.cb t.maxMTU t.message = some (fs, status) ∧
      ∀ (k : Nat) (f : List Nat), fs[k]? = some f → f.length ≤ (txBuffer t.cb t.maxMTU t.message k).sum) ∧
    (Delivers b ts ↔ ∀ t ∈ ts, t.Whole) := by
  refine ⟨fun t _ => ?_, delivers_iff ts⟩
  rcases l2pSend_spec t.cb t.maxMTU t.message t.callbacks with ⟨-, hrun⟩ | ⟨-, j, fs, hrun, -, -, -, -, hsize⟩
  · exact ⟨_, _, hrun, nofun⟩
  · exact ⟨_, _, hrun, hsize⟩

/-- Five octets with a tag, sent in one frame, and the segments in which the frame is received. -/
def fiveOctets (segs : List (List Nat)) (hflat : segs.flatten = [4, 0, 0, 7, 5, 0, 17, 0, 4, 3, 2, 1, 1, 2, 3, 4, 5])
    (hsegs : ∀ z ∈ segs, z ≠ []) : Transfer where
  cb := ⟨fun _ _ => [3, 6, 40], fun _ => 0⟩
  maxMTU := 1000
  message := ⟨7, 0x01020304, some [1, 2, 3, 4, 5]⟩
  cuts := [segs]
  callbacks :=
    ⟨fun _ _ => show ∀ z ∈ [3, 6, 40], 0 < z by decide, fun _ _ => show frameControlSize < [3, 6, 40].sum by decide,
      fun _ _ => show [3, 6, 40].sum < 65536 by decide, fun _ => rfl⟩
  mtu := by decide
  valid := ⟨by decide, by decide, by decide⟩
  frames := ⟨.success, by rw [List.map_cons, hflat]; decide⟩
  segs := fun f hf => by
    rw [List.mem_singleton.1 hf]
    exact hsegs

/-- The control block after `L2P_Initialize`. -/
def ControlBlock.initial : ControlBlock := ⟨none, 0, false, 0, [], 0⟩

/-- In one segment, the five octets are delivered, and again when they are sent again. -/
theorem five_delivered : Delivers .initial
    [fiveOctets [[4, 0, 0, 7, 5, 0, 17, 0, 4, 3, 2, 1, 1, 2, 3, 4, 5]] (by decide) (by decide),
      fiveOctets [[4, 0, 0, 7, 5, 0], [17, 0, 4, 3, 2], [1, 1, 2], [3, 4, 5]] (by decide) (by decide)] := by
  refine (messages_delivered _ _).2.2 fun t ht => ?_
  have hlength : ∀ n : Nat, ¬ n + 65536 = 9 := by
    intro n
    omega
  rcases List.mem_cons.1 ht with ht | ht
  · rw [ht]
    exact ⟨fun hno => absurd hno.1 nofun, fun ⟨_, hi⟩ => hlength _ hi, by decide⟩
  · rw [List.mem_singleton.1 ht]
    exact ⟨fun hno => absurd hno.1 nofun, fun ⟨_, hi⟩ => hlength _ hi, by decide⟩

/-- When the first segment ends with the tag, the data are lost: there is no message. -/
theorem five_lost :
    receiveEach .initial [fiveOctets [[4, 0, 0, 7, 5, 0, 17, 0, 4, 3, 2, 1], [1, 2, 3, 4, 5]] (by decide) (by decide)] =
      [[none]] ∧
    (fiveOctets [[4, 0, 0, 7, 5, 0, 17, 0, 4, 3, 2, 1], [1, 2, 3, 4, 5]] (by decide) (by decide)).delivered =
      [some ⟨7, 0x01020304, [1, 2, 3, 4, 5], 5⟩] := by
  decide

end Citrine.L2p
