import Citrine.Comlib.Des

/-!
# The IMEI of the phone

`cl_imei.c` for a phone whose manufacturer has stored the IMEI enciphered with the id of the chip (`CONFIG_TARGET_PIRELLI`).
The record is accepted if the id that is enciphered behind the IMEI is the one of the chip, so exactly if the two blocks
are what `cl_des` makes of the IMEI and the id (`pirelliGetImeisv_ok_iff`).  A phone answers a run of calls from what it
has read: with the IMEI it has read last, where the caller is content with a stored one (`imei_answers`).
-/

namespace Citrine.Comlib.Imei

open Des

/-! ### The functions -/

/-- `CL_IMEI_OK` -/
def imeiOk : Int := 0

/-- `CL_IMEI_ERROR` -/
def imeiError : Int := -1

/-- `CL_IMEI_INVALID_DIE_ID` -/
def imeiInvalidDieId : Int := -2

/-- `CL_IMEI_READ_IMEI_FAILED` -/
def imeiReadImeiFailed : Int := -3

/-- `CL_IMEI_GET_STORED_IMEI` -/
def imeiGetStoredImei : BitVec 8 := 1

/-- `C_DEFAULT_IMEISV_DSAMPLE` -/
def defaultImeisvDsample : Block := #v[0x00, 0x44, 0x00, 0x00, 0x35, 0x01, 0x11, 0x20]

/-- What a file or the factory data is read to: the value that reading it returns, and what the buffer holds then. -/
structure Reading (α : Type) where
  ret : Int
  buf : α

/-- What one call can read: `/etc/IMEISV`, `/pcm/IMEI` and the factory data. -/
structure Sources where
  etc : Reading Block
  pcm : Reading Block
  isdid : Reading (Block × Block)

/-- `get_dieID`: the low octets of the four registers, each with an octet 0 behind it -/
def getDieID (reg : Fin 4 → BitVec 8) : Block :=
  Vector.ofFn fun i => if i.1 % 2 = 0 then reg ⟨i / 2, by omega⟩ else 0

/-- `pirelli_get_imeisv`: the value returned, and the buffer -/
def pirelliGetImeisv (reg : Fin 4 → BitVec 8) (inBufSize : Nat) (outBuf : Block) (isdid : Reading (Block × Block)) :
    Int × Block :=
  if inBufSize < 8 then (imeiError, outBuf)
  else if 0 ≤ isdid.ret then
    let rDieId := getDieID reg
    let imei := clDes isdid.buf.1 rDieId desDecryption
    let dDieId := clDes isdid.buf.2 rDieId desDecryption
    if dDieId = rDieId then (imeiOk, imei) else (imeiInvalidDieId, imei)
  else (imeiReadImeiFailed, outBuf)

/-- `stored_imei` and `imei_flag` -/
structure Store where
  storedImei : Block
  imeiFlag : Bool

/-- The digits of every octet exchanged. -/
def swapDigits (buf : Block) : Block := buf.map fun b : BitVec 8 => (b &&& 0xf0) >>> 4 ||| (b &&& 0x0f) <<< 4

/-- `cl_get_imeisv`: what is stored afterwards, the value returned, and the buffer -/
def clGetImeisv (reg : Fin 4 → BitVec 8) (s : Store) (imeiBufSize : Nat) (imeiType : BitVec 8) (src : Sources) :
    Store × Int × Block :=
  if imeiType = imeiGetStoredImei ∧ s.imeiFlag = true then (s, imeiOk, s.storedImei)
  else if 0 ≤ src.etc.ret then (⟨src.etc.buf, true⟩, imeiOk, src.etc.buf)
  else if 0 ≤ src.pcm.ret then (⟨swapDigits src.pcm.buf, true⟩, imeiOk, swapDigits src.pcm.buf)
  else
    let (ret, imei) := pirelliGetImeisv reg imeiBufSize src.etc.buf src.isdid
    if ret = imeiOk then (⟨imei, true⟩, ret, imei) else (s, ret, defaultImeisvDsample)

/-! ### What is accepted -/

/-- The manufacturer's record of the IMEI `x`, for the chip with the id `dieId`. -/
def factoryRecord (dieId x : Block) : Block × Block := (clDes x dieId desEncryption, clDes dieId dieId desEncryption)

private theorem deciphered_iff {c k x : Block} : clDes c k desDecryption = x ↔ c = clDes x k desEncryption := by
  refine ⟨fun h => ?_, fun h => ?_⟩
  · rw [← h]
    exact (clDes_inverse_decryption c k).2.symm
  · rw [h]
    exact (clDes_inverse_decryption x k).1

/-- Exactly the record of an IMEI for this chip is accepted, and the IMEI is given. -/
theorem pirelliGetImeisv_ok_iff (reg : Fin 4 → BitVec 8) (size : Nat) (out : Block) (isdid : Reading (Block × Block)) (x : Block) :
    pirelliGetImeisv reg size out isdid = (imeiOk, x) ↔
      8 ≤ size ∧ 0 ≤ isdid.ret ∧ isdid.buf = factoryRecord (getDieID reg) x := by
  unfold pirelliGetImeisv factoryRecord
  rw [show ∀ p q : Block, isdid.buf = (p, q) ↔ isdid.buf.1 = p ∧ isdid.buf.2 = q from fun p q => Prod.ext_iff]
  simp only
  rw [← deciphered_iff, ← deciphered_iff]
  split
  · exact ⟨fun h => absurd (Prod.ext_iff.1 h).1 (show imeiError ≠ imeiOk by decide), fun h => absurd h.1 (by omega)⟩
  · rename_i hs
    split
    · rename_i hr
      split
      · rename_i hd
        refine ⟨fun h => ⟨by omega, hr, (Prod.ext_iff.1 h).2, hd⟩, fun h => ?_⟩
        rw [h.2.2.1]
      · rename_i hd
        exact ⟨fun h => absurd (Prod.ext_iff.1 h).1 (show imeiInvalidDieId ≠ imeiOk by decide), fun h => absurd h.2.2.2 hd⟩
    · rename_i hr
      exact ⟨fun h => absurd (Prod.ext_iff.1 h).1 (show imeiReadImeiFailed ≠ imeiOk by decide), fun h => absurd h.2.1 hr⟩

/-! ### A run of calls -/

/-- A call of `cl_get_imeisv`, and what it can read. -/
structure Call where
  imeiBufSize : Nat
  imeiType : BitVec 8
  src : Sources

/-- The sources of a call give the IMEI `x`. -/
inductive Holds (reg : Fin 4 → BitVec 8) (c : Call) (x : Block) : Prop
  | etc : 0 ≤ c.src.etc.ret → c.src.etc.buf = x → Holds reg c x
  | pcm : c.src.etc.ret < 0 → 0 ≤ c.src.pcm.ret → swapDigits c.src.pcm.buf = x → Holds reg c x
  | factory : c.src.etc.ret < 0 → c.src.pcm.ret < 0 → 8 ≤ c.imeiBufSize → 0 ≤ c.src.isdid.ret →
    c.src.isdid.buf = factoryRecord (getDieID reg) x → Holds reg c x

/-- After the calls, the last one first, the IMEI `x` is remembered. -/
def Remembers (reg : Fin 4 → BitVec 8) : List Call → Block → Prop
  | [], _ => False
  | c :: cs, x =>
    (c.imeiType = imeiGetStoredImei ∧ ∃ y, Remembers reg cs y) ∧ Remembers reg cs x ∨
    ¬(c.imeiType = imeiGetStoredImei ∧ ∃ y, Remembers reg cs y) ∧
      (Holds reg c x ∨ (¬∃ y, Holds reg c y) ∧ Remembers reg cs x)

/-- What a call is to be answered with, after other calls: what is remembered if that will do, and else what it reads. -/
def Due (reg : Fin 4 → BitVec 8) (cs : List Call) (c : Call) (x : Block) : Prop :=
  (c.imeiType = imeiGetStoredImei ∧ ∃ y, Remembers reg cs y) ∧ Remembers reg cs x ∨
  ¬(c.imeiType = imeiGetStoredImei ∧ ∃ y, Remembers reg cs y) ∧ Holds reg c x

/-- What is stored after the calls, the last one first. -/
def stored (reg : Fin 4 → BitVec 8) (s : Store) : List Call → Store
  | [] => s
  | c :: cs => (clGetImeisv reg (stored reg s cs) c.imeiBufSize c.imeiType c.src).1

variable {reg : Fin 4 → BitVec 8} {s : Store} {c : Call} {x y : Block}

private theorem clGetImeisv_kept (h : c.imeiType = imeiGetStoredImei ∧ s.imeiFlag = true) :
    clGetImeisv reg s c.imeiBufSize c.imeiType c.src = (s, imeiOk, s.storedImei) := if_pos h

private theorem clGetImeisv_read (h : ¬(c.imeiType = imeiGetStoredImei ∧ s.imeiFlag = true)) (hx : Holds reg c x) :
    clGetImeisv reg s c.imeiBufSize c.imeiType c.src = (⟨x, true⟩, imeiOk, x) := by
  unfold clGetImeisv
  rw [if_neg h]
  cases hx with
  | etc he hb => rw [if_pos he, hb]
  | pcm he hp hb => rw [if_neg (by omega), if_pos hp, hb]
  | factory he hp hs hr hb =>
    have hok := (pirelliGetImeisv_ok_iff reg c.imeiBufSize c.src.etc.buf c.src.isdid x).2 ⟨hs, hr, hb⟩
    rw [if_neg (by omega), if_neg (by omega), hok]
    exact if_pos rfl

private theorem clGetImeisv_failed (h : ¬(c.imeiType = imeiGetStoredImei ∧ s.imeiFlag = true)) (hx : ∀ x, ¬Holds reg c x) :
    (clGetImeisv reg s c.imeiBufSize c.imeiType c.src).1 = s ∧
      (clGetImeisv reg s c.imeiBufSize c.imeiType c.src).2.1 ≠ imeiOk := by
  have he : ¬0 ≤ c.src.etc.ret := fun he => hx _ (.etc he rfl)
  have hp : ¬0 ≤ c.src.pcm.ret := fun hp => hx _ (.pcm (by omega) hp rfl)
  have hf : (pirelliGetImeisv reg c.imeiBufSize c.src.etc.buf c.src.isdid).1 ≠ imeiOk := by
    intro hok
    obtain ⟨hs, hr, hb⟩ := (pirelliGetImeisv_ok_iff ..).1 (Prod.ext hok rfl)
    exact hx _ (.factory (by omega) (by omega) hs hr hb)
  unfold clGetImeisv
  rw [if_neg h, if_neg he, if_neg hp]
  simp only
  rw [if_neg hf]
  exact ⟨rfl, hf⟩

private theorem Holds.unique (hx : Holds reg c x) (hy : Holds reg c y) : x = y := by
  have h : ¬(c.imeiType = imeiGetStoredImei ∧ (Store.mk x false).imeiFlag = true) := fun h => Bool.noConfusion h.2
  exact congrArg (fun r => r.2.2) ((clGetImeisv_read h hx).symm.trans (clGetImeisv_read h hy))

private theorem stored_iff (hs : s.imeiFlag = false) (cs : List Call) :
    ((stored reg s cs).imeiFlag = true ∧ (stored reg s cs).storedImei = x) ↔ Remembers reg cs x := by
  induction cs generalizing x with
  | nil => exact ⟨fun h => Bool.noConfusion (hs.symm.trans h.1), fun h => h.elim⟩
  | cons c cs ih =>
    have hflag : (∃ y, Remembers reg cs y) ↔ (stored reg s cs).imeiFlag = true :=
      ⟨fun ⟨_, h⟩ => (ih.2 h).1, fun h => ⟨_, ih.1 ⟨h, rfl⟩⟩⟩
    unfold Remembers stored
    rw [hflag]
    by_cases h : c.imeiType = imeiGetStoredImei ∧ (stored reg s cs).imeiFlag = true
    · rw [clGetImeisv_kept h]
      exact ih.trans ⟨fun hr => .inl ⟨h, hr⟩, fun hr => hr.elim And.right fun hr => absurd h hr.1⟩
    · by_cases hx : ∃ y, Holds reg c y
      · obtain ⟨y, hy⟩ := hx
        rw [clGetImeisv_read h hy]
        refine ⟨fun he => .inr ⟨h, .inl (he.2 ▸ hy)⟩, fun hr => ⟨rfl, ?_⟩⟩
        rcases hr with hr | ⟨_, hr | hr⟩
        · exact absurd hr.1 h
        · exact hy.unique hr
        · exact absurd ⟨y, hy⟩ hr.1
      · rw [(clGetImeisv_failed h fun y hy => hx ⟨y, hy⟩).1]
        refine ih.trans ⟨fun hr => .inr ⟨h, .inr ⟨hx, hr⟩⟩, fun hr => ?_⟩
        rcases hr with hr | ⟨_, hr | hr⟩
        · exact absurd hr.1 h
        · exact absurd ⟨x, hr⟩ hx
        · exact hr.2

/-- After any calls, a call that may be content with a stored IMEI is answered with the one that was read last, if there
is one; and any other call with what its sources hold, the factory record only if it has been enciphered for this chip. -/
theorem imei_answers (reg : Fin 4 → BitVec 8) (first : Block) (cs : List Call) (c : Call) (x : Block) :
    (clGetImeisv reg (stored reg ⟨first, false⟩ cs) c.imeiBufSize c.imeiType c.src).2 = (imeiOk, x) ↔ Due reg cs c x := by
  have hstored {y : Block} : ((stored reg ⟨first, false⟩ cs).imeiFlag = true ∧
      (stored reg ⟨first, false⟩ cs).storedImei = y) ↔ Remembers reg cs y := stored_iff rfl cs
  have hflag : (∃ y, Remembers reg cs y) ↔ (stored reg ⟨first, false⟩ cs).imeiFlag = true :=
    ⟨fun ⟨_, h⟩ => (hstored.2 h).1, fun h => ⟨_, hstored.1 ⟨h, rfl⟩⟩⟩
  unfold Due
  rw [hflag]
  by_cases h : c.imeiType = imeiGetStoredImei ∧ (stored reg ⟨first, false⟩ cs).imeiFlag = true
  · rw [clGetImeisv_kept h]
    refine ⟨fun he => .inl ⟨h, hstored.1 ⟨h.2, (Prod.ext_iff.1 he).2⟩⟩, fun hr => ?_⟩
    rcases hr with hr | hr
    · exact Prod.ext rfl (hstored.2 hr.2).2
    · exact absurd h hr.1
  · by_cases hx : ∃ y, Holds reg c y
    · obtain ⟨y, hy⟩ := hx
      rw [clGetImeisv_read h hy]
      refine ⟨fun he => .inr ⟨h, (show y = x from (Prod.ext_iff.1 he).2) ▸ hy⟩, fun hr => ?_⟩
      rcases hr with hr | hr
      · exact absurd hr.1 h
      · exact Prod.ext rfl (hy.unique hr.2)
    · refine ⟨fun he => absurd (Prod.ext_iff.1 he).1 (clGetImeisv_failed h fun y hy => hx ⟨y, hy⟩).2, fun hr => ?_⟩
      rcases hr with hr | hr
      · exact absurd hr.1 h
      · exact absurd ⟨x, hr.2⟩ hx

end Citrine.Comlib.Imei
