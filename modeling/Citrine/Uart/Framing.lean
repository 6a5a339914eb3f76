import Mathlib.Data.List.Flatten
import Citrine.Uart.Rxf

/-!
# From one multiplexer to the other

The frames that `tx_proc_output` makes of the data of several DLCs are what `rx_proc_input` finds in the octets, however they
are cut into fragments and calls.  `Parted` tells how the data of a DLC is divided into frames: as `frame_size` is an octet,
no frame is ended by an `n1` above 255, and what is longer than `n1` is then refused by the receiver as a whole.
-/

namespace Citrine.Uart

open Rxf (frames judge channel onChannel headerFor)

/-- The FCS that is sent makes the FCS of the receiver good. -/
theorem fcsNext_complement (f : Octet) : fcsNext f (0xff - f) = goodFcs := by
  revert f
  decide

/-- A flag is no changed character, if the flow control characters do not become one. -/
private theorem change_ne_flag {cfg : Txf.Config} (hxon : cfg.xon ≠ 0x5e) (hxoff : cfg.xoff ≠ 0x5e) (c : Octet)
    (h : Txf.special cfg c = true) : Txf.change c ≠ hdlcFlag := by
  intro hflag
  have hc : c = 0x5e := by
    have hback : Txf.change (Txf.change c) = c := by
      unfold Txf.change
      rw [BitVec.xor_assoc, BitVec.xor_self, BitVec.xor_zero]
    rw [← hback, hflag]
    decide
  rcases of_decide_eq_true h with hs | hs | hs | hs
  · rw [hc] at hs
    exact absurd hs (by decide)
  · rw [hc] at hs
    exact absurd hs (by decide)
  · exact hxon (hs.symm.trans hc)
  · exact hxoff (hs.symm.trans hc)

section
variable {rx : Rxf.Config} {live : Nat → Bool} {tx : Txf.Config} {sc : Stuffing.Scan Octet}

/-- A frame that is sent is the next that the receiver judges. -/
theorem frames_frame (hxon : tx.xon ≠ 0x5e) (hxoff : tx.xoff ≠ 0x5e) (fields rest : List Octet) :
    frames rx live sc (Txf.frame tx fields ++ rest) =
      (sc.content.bind (judge rx live)).toList ++ ((judge rx live fields).toList ++ frames rx live ⟨some [], false⟩ rest) := by
  have hchange (c : Octet) : Txf.change (Txf.change c) = c := by
    unfold Txf.change
    rw [BitVec.xor_assoc, BitVec.xor_self, BitVec.xor_zero]
  have hscan := @Stuffing.scan_frame _ _ hdlcFlag hdlcEscape Txf.change (Txf.special tx) sc
    ⟨by simp [Txf.special], by simp [Txf.special]⟩ (by decide) hchange (change_ne_flag hxon hxoff) fields
  unfold frames Txf.frame
  rw [Stuffing.scan_append, hscan, List.filterMap_append, List.filterMap_append, List.append_assoc]
  congr 1
  · cases sc.content with
    | none => rfl
    | some t => cases hj : judge rx live t <;> simp [hj]

end

/-! ### The data of a DLC -/

/-- Data divided into the information fields of frames, and what is left of it. -/
inductive Parted (n1 : Nat) : List Octet → List (List Octet) → List Octet → Prop
  | nil (data : List Octet) : Parted n1 data [] data
  | cons {data rest : List Octet} {parts : List (List Octet)} : data ≠ [] →
    Parted n1 (data.drop (Txf.infoLength n1 data.length)) parts rest →
    Parted n1 data (data.take (Txf.infoLength n1 data.length) :: parts) rest

section
variable {n1 : Nat} {data rest : List Octet} {parts : List (List Octet)}

theorem Parted.flatten (h : Parted n1 data parts rest) : parts.flatten ++ rest = data := by
  induction h with
  | nil data => rfl
  | cons hne hp ih => rw [List.flatten_cons, List.append_assoc, ih, List.take_append_drop]

/-- An octet counts the information field, if `n1` is one. -/
theorem Parted.fits (h : Parted n1 data parts rest) (hn : 0 < n1 ∧ n1 < 256) {p : List Octet} (hp : p ∈ parts) :
    p.length ≤ n1 := by
  induction h with
  | nil => cases hp
  | cons hne hparts ih =>
    rcases List.mem_cons.1 hp with rfl | hp
    · rw [List.length_take]
      unfold Txf.infoLength
      rw [if_pos hn.2]
      omega
    · exact ih hp

theorem Parted.ne_nil (h : Parted n1 data parts rest) {p : List Octet} (hp : p ∈ parts) : p ≠ [] := by
  induction h with
  | nil => cases hp
  | cons hne hparts ih =>
    rcases List.mem_cons.1 hp with rfl | hp
    · have hpos := List.length_pos_iff.2 hne
      rw [← List.length_pos_iff, List.length_take]
      unfold Txf.infoLength
      split <;> omega
    · exact ih hp

/-- Nothing has been left out, if the whole is the same. -/
private theorem filter_flatten {f : List Octet → Bool} (hne : ∀ p ∈ parts, p ≠ [])
    (h : (parts.filter f).flatten = parts.flatten) : ∀ p ∈ parts, f p = true := by
  induction parts with
  | nil => exact nofun
  | cons q qs ih =>
    rw [List.filter_cons] at h
    split at h
    · rename_i hq
      rw [List.flatten_cons, List.flatten_cons] at h
      intro p hp
      rcases List.mem_cons.1 hp with rfl | hp
      · exact hq
      · exact ih (fun p hp => hne p (List.mem_cons_of_mem _ hp)) (List.append_cancel_left h) p hp
    · have hle := (List.filter_sublist (p := f) (l := qs)).flatten.length_le
      have hpos := List.length_pos_iff.2 (hne q List.mem_cons_self)
      rw [h, List.flatten_cons, List.length_append] at hle
      omega

/-- No information field is longer than `n1`, if there is little data or if an octet can count up to `n1`. -/
theorem Parted.fits_iff (h : Parted n1 data parts []) :
    (∀ p ∈ parts, p.length ≤ n1) ↔ data.length ≤ n1 ∨ (0 < n1 ∧ n1 < 256) := by
  have hflat := h.flatten
  rw [List.append_nil] at hflat
  constructor
  · intro hfit
    by_contra hno
    cases h with
    | nil => exact hno (.inl (Nat.zero_le _))
    | cons hne hp =>
      have hfirst := hfit _ List.mem_cons_self
      have hpos := List.length_pos_iff.2 hne
      rw [List.length_take] at hfirst
      unfold Txf.infoLength at hfirst
      split at hfirst <;> omega
  · rintro (hle | hn) p hp
    · rw [← hflat] at hle
      exact Nat.le_trans (List.sublist_flatten_of_mem hp).length_le hle
    · exact h.fits hn hp

end

/-! ### The line -/

/-- The DLCs send frames in some order; each call of `tx_proc_output` has fragments of the ring buffer with room for its
frame. -/
inductive Sends (n1 : Nat) (xon xoff : Octet) (dlci : Nat → Octet) : (Nat → Txf.Source) → List Octet → (Nat → Txf.Source) → Prop
  | nil (dlcs : Nat → Txf.Source) : Sends n1 xon xoff dlci dlcs [] dlcs
  | call (dlcs dlcs' : Nat → Txf.Source) (inst ndest : Nat) (size : Nat → Nat) (dest : Nat → Nat → Octet)
    (src : Txf.Source) (ring : Txf.Ring) (nullRead : Bool) (rest : List Octet) :
    Txf.txProcOutput ⟨n1, xon, xoff, some (dlci inst)⟩ (dlcs inst) ndest size dest = (src, ring, nullRead) →
    ring.fault = false → Sends n1 xon xoff dlci (write dlcs inst src) rest dlcs' →
    Sends n1 xon xoff dlci dlcs (Txf.octets ring.dest (fun j => size j - ring.size j) ndest ++ rest) dlcs'

/-- A call without data writes nothing, and one with data writes a frame. -/
private theorem txProcOutput_data {n1 : Nat} {xon xoff dlci : Octet} {src src' : Txf.Source} {ndest : Nat} {size : Nat → Nat}
    {dest : Nat → Nat → Octet} {ring : Txf.Ring} {nullRead : Bool}
    (h : Txf.txProcOutput ⟨n1, xon, xoff, some dlci⟩ src ndest size dest = (src', ring, nullRead)) (hroom : ring.fault = false) :
    (src.rest = [] ∧ src'.rest = [] ∧ Txf.octets ring.dest (fun j => size j - ring.size j) ndest = []) ∨
    (src.rest ≠ [] ∧ src'.rest = src.rest.drop (Txf.infoLength n1 src.rest.length) ∧
      Txf.octets ring.dest (fun j => size j - ring.size j) ndest =
        Txf.frame ⟨n1, xon, xoff, some dlci⟩ ((dlci <<< 2 ||| uartEA) :: uihDataFrame ::
          src.rest.take (Txf.infoLength n1 src.rest.length) ++ [Txf.fcsField (dlci <<< 2 ||| uartEA) uihDataFrame])) := by
  cases hrest : src.rest with
  | nil =>
    have hchain : src.settle.chain = [] := by
      rw [← Txf.Source.settle_settled.rest_nil, Txf.Source.settle_rest, hrest]
    unfold Txf.txProcOutput at h
    simp only [hchain, if_pos] at h
    cases h
    refine .inl ⟨rfl, by rw [Txf.Source.settle_rest, hrest], ?_⟩
    unfold Txf.octets
    simp only [Nat.sub_self, List.range_zero, List.map_nil]
    exact List.flatMap_eq_nil_iff.2 fun _ _ => rfl
  | cons c cs =>
    have hframe := Txf.txProcOutput_frame ⟨n1, xon, xoff, some dlci⟩ src ndest size dest (dlci <<< 2 ||| uartEA) uihDataFrame
      (c :: cs) (by rw [hrest]; rfl)
    rw [h] at hframe
    exact .inr ⟨List.cons_ne_nil _ _, hframe.2.1, (hframe.2.2.2 hroom).1⟩

/-- The DLCI is found in the address field again. -/
private theorem address_dlci (d : Octet) (h : d.toNat < 64) :
    (d <<< 2 ||| uartEA) >>> 2 = d ∧ (d <<< 2 ||| uartEA) &&& uartEA = uartEA := by
  revert d
  decide

section
variable {rx : Rxf.Config} {live : Nat → Bool} {a c : Octet} {info : List Octet}

/-- What the receiver makes of a frame of the transmitter. -/
private theorem judge_sent (ha : a &&& uartEA = uartEA) (hne : info ≠ []) :
    judge rx live (a :: c :: info ++ [Txf.fcsField a c]) =
      if info.length ≤ rx.n1 then (channel rx live a c).map fun inst => (inst, headerFor inst a c ++ info) else none := by
  have hpos := List.length_pos_iff.2 hne
  change judge rx live (a :: c :: (info ++ [Txf.fcsField a c])) = _
  rw [Rxf.judge_snoc]
  exact if_congr ⟨fun h => h.2.1, fun h => ⟨ha, h, fun he => by omega, fcsNext_complement _⟩⟩ rfl rfl

variable {n1 : Nat} {xon xoff : Octet} {dlci : Nat → Octet} {dlcs dlcs' : Nat → Txf.Source} {out : List Octet} {inst dlc : Nat}

/-- The channel of a DLC is given the frames that the DLC sends, except for those that are too long. -/
private theorem sends_frames (sc : Stuffing.Scan Octet) (h : Sends n1 xon xoff dlci dlcs out dlcs') (hxon : xon ≠ 0x5e) (hxoff : xoff ≠ 0x5e)
    (hdlci : ∀ k, (dlci k).toNat < 64) (hzero : dlci dlc ≠ 0) (hinst : rx.dlcInstance (dlci dlc) = inst)
    (hother : ∀ k, k ≠ dlc → rx.dlcInstance (dlci k) ≠ inst) (hdata : inst < Rxf.controlInstance) (hlive : live inst = true)
    (hsc : sc.content.bind (judge rx live) = none) :
    ∃ parts, Parted n1 (dlcs dlc).rest parts (dlcs' dlc).rest ∧
      onChannel inst (frames rx live sc out) = parts.filter fun p => decide (p.length ≤ rx.n1) := by
  induction h generalizing sc with
  | nil dlcs => exact ⟨[], .nil _, rfl⟩
  | call dlcs dlcs' k ndest size dest src ring nullRead rest hcall hroom hsends ih =>
    rcases txProcOutput_data hcall hroom with ⟨hnone, hnone', hout⟩ | ⟨hne, hrest, hout⟩
    · obtain ⟨parts, hparted, hgiven⟩ := ih sc hsc
      refine ⟨parts, ?_, by rwa [hout, List.nil_append]⟩
      by_cases hk : dlc = k
      · rw [hk, write_same, hnone', ← hnone, ← hk] at hparted
        exact hparted
      · rwa [write_other _ _ hk] at hparted
    · obtain ⟨parts, hparted, hgiven⟩ := ih ⟨some [], false⟩ rfl
      obtain ⟨haddr, hea⟩ := address_dlci (dlci k) (hdlci k)
      have hk1 : (dlcs k).rest.take (Txf.infoLength n1 (dlcs k).rest.length) ≠ [] := by
        have hpos := List.length_pos_iff.2 hne
        rw [← List.length_pos_iff, List.length_take]
        unfold Txf.infoLength
        split <;> omega
      rw [hout, frames_frame hxon hxoff, hsc, judge_sent hea hk1]
      simp only [Option.toList_none, List.nil_append]
      rw [Rxf.onChannel_append, hgiven]
      by_cases hk : dlc = k
      · subst hk
        have hchan : channel rx live (dlci dlc <<< 2 ||| uartEA) uihDataFrame = some inst := by
          unfold channel
          rw [haddr, hinst, if_pos ⟨rfl, hzero, Nat.ne_of_lt (Nat.lt_trans hdata (by decide)), hlive⟩]
        have hheader : headerFor inst (dlci dlc <<< 2 ||| uartEA) uihDataFrame = [] := if_neg (Nat.ne_of_lt hdata)
        rw [write_same, hrest] at hparted
        refine ⟨_, .cons hne hparted, ?_⟩
        rw [hchan, Option.map_some, hheader, List.nil_append, List.filter_cons]
        by_cases hfit : ((dlcs dlc).rest.take (Txf.infoLength n1 (dlcs dlc).rest.length)).length ≤ rx.n1
        · rw [if_pos hfit, if_pos (decide_eq_true hfit)]
          simp [onChannel]
        · rw [if_neg hfit, if_neg (by simpa using hfit)]
          rfl
      · rw [write_other _ _ hk] at hparted
        refine ⟨parts, hparted, ?_⟩
        have hchan : channel rx live (dlci k <<< 2 ||| uartEA) uihDataFrame ≠ some inst := by
          unfold channel
          rw [haddr]
          split
          · exact fun h => hother k (Ne.symm hk) (Option.some.inj h)
          · split
            · exact fun h => absurd (Option.some.inj h) (Nat.ne_of_gt hdata)
            · exact nofun
        cases hc : channel rx live (dlci k <<< 2 ||| uartEA) uihDataFrame with
        | none => simp [onChannel]
        | some i =>
          have hi : i ≠ inst := fun h => hchan (by rw [hc, h])
          split <;> simp [onChannel, hi]

/-- In every run in which the octets of the other multiplexer have arrived and are read, a data channel has been given exactly
the data of its DLC, if and only if the data is not longer than `n1` or an octet can count up to `n1`. -/
theorem data_received (dlc : Nat) {l : Rxf.Line} (h : (Rxf.line rx live).Reach (fun _ _ => true) l)
    (hs : Sends n1 xon xoff dlci dlcs out dlcs') (hn1 : rx.n1 = n1) (hxon : xon ≠ 0x5e) (hxoff : xoff ≠ 0x5e)
    (hdlci : ∀ k, (dlci k).toNat < 64) (hzero : dlci dlc ≠ 0) (hinst : rx.dlcInstance (dlci dlc) = inst)
    (hother : ∀ k, k ≠ dlc → rx.dlcInstance (dlci k) ≠ inst) (hdata : inst < Rxf.controlInstance) (hlive : live inst = true)
    (harrived : l.arrived = out) (hunread : l.unread = []) (hsent : (dlcs' dlc).rest = []) :
    (l.taken inst ++ l.pending inst).flatten = (dlcs dlc).rest ↔
      (dlcs dlc).rest.length ≤ n1 ∨ (0 < n1 ∧ n1 < 256) := by
  obtain ⟨parts, hparted, hgiven⟩ := sends_frames ⟨none, false⟩ hs hxon hxoff hdlci hzero hinst hother hdata hlive rfl
  obtain ⟨more, hmore, hnone, -⟩ := (Rxf.frames_received h).1 inst
  rw [hnone hunread, List.append_nil, harrived, hgiven, hn1] at hmore
  rw [hsent] at hparted
  have hflat := hparted.flatten
  rw [List.append_nil] at hflat
  rw [← hmore, ← hparted.fits_iff, ← hflat]
  constructor
  · intro hall p hp
    exact of_decide_eq_true (filter_flatten (fun p hp => hparted.ne_nil hp) hall p hp)
  · intro hfit
    rw [List.filter_eq_self.2 fun p hp => decide_eq_true (hfit p hp)]

end

/-- The octets of a DLC with two octets of data. -/
def twoOctets : List Octet :=
  let (_, ring, _) := Txf.txProcOutput ⟨31, 0x11, 0x13, some 1⟩ ⟨[[0x41, 0x7e]], 0⟩ 2 (fun j => if j = 0 then 3 else 20) fun _ _ => 0
  Txf.octets ring.dest (fun j => (if j = 0 then 3 else 20) - ring.size j) 2

theorem data_received_two : ∃ l, (Rxf.line Rxf.oneChannel fun _ => true).Reach (fun _ _ => true) l ∧
    l.arrived = twoOctets ∧ (l.taken 0 ++ l.pending 0).flatten = [0x41, 0x7e] := by
  have hrun : ((Rxf.line Rxf.oneChannel fun _ => true).run (fun _ _ => true) Rxf.opened [.read [twoOctets]]).any
      (fun l => decide (l.arrived = twoOctets ++ [] ∧ l.unread = [])) = true := by decide +kernel
  obtain ⟨l, hl, hfin⟩ := (Option.any_eq_true ..).1 hrun
  obtain ⟨harrived, hunread⟩ := of_decide_eq_true hfin
  have hinit : (Rxf.line Rxf.oneChannel fun _ => true).init Rxf.opened :=
    ⟨.inl rfl, rfl, rfl, rfl, fun _ => rfl, fun _ =>
      ⟨show Rxf.Process.ready ≠ .complete by decide, iff_of_true rfl (show Rxf.Process.ready ≠ .stop by decide), rfl⟩⟩
  have hreach := Machine.Reach.of_run (.init hinit) hl
  have hsends : Sends 31 0x11 0x13 (fun k => if k = 0 then 1 else 2) (fun _ => ⟨[[0x41, 0x7e]], 0⟩) (twoOctets ++ []) _ :=
    Sends.call _ _ 0 2 (fun j => if j = 0 then 3 else 20) (fun _ _ => 0) _ _ _ [] rfl (by decide +kernel) (.nil _)
  refine ⟨l, hreach, harrived.trans (List.append_nil _), ?_⟩
  refine (data_received 0 hreach hsends rfl (by decide) (by decide) (fun k => ?_) (by decide) rfl (fun k hk => ?_)
    (by decide) rfl harrived hunread ?_).2 (.inl (by decide))
  · split <;> decide
  · simp only
    rw [if_neg hk]
    decide
  · rw [write_same]
    decide +kernel

end Citrine.Uart
