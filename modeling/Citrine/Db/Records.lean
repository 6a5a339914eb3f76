import Citrine.Lib.Bits
import Citrine.Lib.Machine
import Citrine.Lib.Memory
import Citrine.Lib.Splice

/-!
# The records of a field

`db_write_record`, `db_delete_record` and `db_read_record` of `db.c` on one field of a database, with its user data file, the
bitmap of its used records in RAM and in the file of the database, and what is read back from the files when the data base
module is started again.  Every access of a call to the flash may fail; an access that fails leaves the file as it was.

Records are numbered from 1 on.  The numbers that are given are those of the field, or 0 for a new record; the code does not
check this.
-/

namespace Citrine.Db

open Bits

/-- `DB_OK`, `DB_FAIL`, `DB_FAIL_FS`, `DB_FULL`, `DB_INVALID_SIZE`, `DB_EMPTY_RECORD` and `DB_HISTORY_FULL` -/
def dbOk : Int := 0
def dbFail : Int := -1
def dbFailFs : Int := -2
def dbFull : Int := -3
def dbInvalidSize : Int := -8
def dbEmptyRecord : Int := -9
def dbHistoryFull : Int := -12

/-- `DB_MAX_AFFECTED` -/
def dbMaxAffected : Nat := 5

/-- `MAX_NUM_RECORDS` -/
def maxNumRecords : Nat := 254

/-- What becomes of an access to the flash. -/
inductive Access where
  | done
  | fail
  | failFs
  deriving DecidableEq

def Access.code : Access → Int
  | .done => dbOk
  | .fail => dbFail
  | .failFs => dbFailFs

/-! ### The bitmap -/

/-- `db_get_bit_in_bitmap` -/
def dbGetBitInBitmap (bitmap : Octets) (position : Nat) : Bool :=
  let position := (position + 65535) % 65536
  bitmap (position / 8) &&& (0x80#8 >>> (position % 8)) != 0

/-- `db_set_bit_in_bitmap` -/
def dbSetBitInBitmap (bitmap : Octets) (position : Nat) (value : Bool) : Octets :=
  if position = 0 then bitmap
  else
    let position := (position + 65535) % 65536
    let mask := 0x80#8 >>> (position % 8)
    if value then setAt bitmap (position / 8) (bitmap (position / 8) ||| mask)
    else setAt bitmap (position / 8) (bitmap (position / 8) &&& ~~~mask)

/-- `db_search_bit_in_bitmap`, for at most `maxNumRecords` records -/
def dbSearchBitInBitmap (bitmap : Octets) (maxRecord : Nat) (value : Bool) : Nat :=
  ((List.range maxRecord).find? fun i => dbGetBitInBitmap bitmap (i + 1) == value).elim 0 (· + 1)

/-! ### The field -/

/-- `T_DBM_FIELDRECORD` and the marks of its database, the user data file, and the bitmap with the mark in the file of the
database. -/
structure Field where
  fieldId : Nat
  recordSize : Nat
  numOfRecords : Nat
  usedRecords : Nat
  recordBitMap : Octets
  clean : Bool
  nextRecordNum : Nat
  dbClean : Bool
  tracked : Bool
  userData : List (BitVec 8)
  fieldData : Octets × Bool

/-- `DB_History_log`: the fields and their records -/
abbrev HistoryLog := List (Nat × Nat)

/-- `update_history_log` -/
def Field.updateHistoryLog (f : Field) (log : HistoryLog) (recordNum : Nat) : Int × HistoryLog :=
  if ¬f.tracked then (dbOk, log)
  else if (f.fieldId, recordNum) ∈ log then (dbOk, log)
  else if log.length = dbMaxAffected then (dbHistoryFull, log)
  else (dbOk, log ++ [(f.fieldId, recordNum)])

/-- The position in the user data file; the number is an octet. -/
def position (recordNum recordSize offset : Nat) : Int := (((recordNum % 256 : Nat) : Int) - 1) * recordSize + offset

/-- `read_write_user_record_from_FFS` for reading -/
def readUserRecord (access : Access) (file : List (BitVec 8)) (recordNum recordSize offset length : Nat) :
    Int × List (BitVec 8) :=
  let pos := position recordNum recordSize offset
  if access ≠ .done then (access.code, [])
  -- ffs_seek does not go behind the end of the file
  else if pos < 0 ∨ file.length < pos then (dbFail, [])
  else (dbOk, (file.drop pos.toNat).take length)

/-- `read_write_user_record_from_FFS` for writing -/
def writeUserRecord (access : Access) (file : List (BitVec 8)) (recordNum recordSize offset : Nat) (data : List (BitVec 8)) :
    Int × List (BitVec 8) :=
  let pos := position recordNum recordSize offset
  if access ≠ .done then (access.code, file)
  else if pos < 0 ∨ file.length < pos then (dbFail, file)
  else (dbOk, splice file pos.toNat data)

/-- Dummies are written in front of a new record; the counter is an octet. -/
def fillRecords (flash : Nat → Access) (recordSize : Nat) : Nat → Nat → Nat → List (BitVec 8) → Int × Nat × List (BitVec 8)
  | 0, _, k, file => (dbOk, k, file)
  | n + 1, recCtr, k, file =>
    let (code, file) := writeUserRecord (flash k) file recCtr recordSize 0 (List.replicate recordSize 0xff)
    if code ≠ dbOk then (code, k + 1, file) else fillRecords flash recordSize n ((recCtr + 1) % 256) (k + 1) file

/-- The end of a call: the history log is updated. -/
def Field.logged (f : Field) (log : HistoryLog) (recordNum : Nat) (good : Int) : Int × Field × HistoryLog :=
  let (code, log) := f.updateHistoryLog log recordNum
  (if code ≠ dbOk then code else good, f, log)

/-- The bitmap with a record set or cleared, in the file of the database and in RAM. -/
def Field.marked (f : Field) (recordNum : Nat) (value : Bool) : Field :=
  { f with
    fieldData := (dbSetBitInBitmap f.recordBitMap recordNum value, false)
    clean := false
    recordBitMap := dbSetBitInBitmap f.recordBitMap recordNum value
    dbClean := false }

/-- `db_write_record` for a record that is new; the accesses to the flash are numbered. -/
def Field.writeNew (f : Field) (flash : Nat → Access) (log : HistoryLog) (recordNum offset : Nat) (data : List (BitVec 8)) :
    Int × Field × HistoryLog :=
  let (code, k, file) := fillRecords flash f.recordSize (recordNum - f.nextRecordNum) f.nextRecordNum 0 f.userData
  if code ≠ dbOk then (code, { f with userData := file }, log)
  else
    let (code, file) := writeUserRecord (flash k) file recordNum f.recordSize 0
      (splice (List.replicate f.recordSize 0xff) offset data)
    if code ≠ dbOk then (code, { f with userData := file }, log)
    else if flash (k + 1) ≠ .done then ((flash (k + 1)).code, { f with userData := file }, log)
    else
      let f := { f.marked recordNum true with
        userData := file
        usedRecords := (f.usedRecords + 1) % 256
        nextRecordNum := (if f.nextRecordNum < recordNum + 1 then recordNum + 1 else f.nextRecordNum) % 256 }
      f.logged log recordNum recordNum

/-- `db_write_record` for a record that exists, if it is to be changed. -/
def Field.overwrite (f : Field) (flash : Nat → Access) (log : HistoryLog) (recordNum offset : Nat) (data : List (BitVec 8)) :
    Int × Field × HistoryLog :=
  let (code, file) := writeUserRecord (flash 1) f.userData recordNum f.recordSize offset data
  let f := { f with userData := file }
  if code ≠ dbOk then (code, f, log)
  else if ¬f.tracked then (recordNum, f, log)
  -- the mark in the file is reset already
  else if ¬f.dbClean then f.logged log recordNum recordNum
  else if flash 2 ≠ .done then ((flash 2).code, f, log)
  else Field.logged { f with fieldData := (f.recordBitMap, false), clean := false, dbClean := false } log recordNum recordNum

/-- `db_write_record`; the length is that of the data. -/
def Field.dbWriteRecord (f : Field) (flash : Nat → Access) (log : HistoryLog) (recordNum offset : Nat)
    (buffer : List (BitVec 8)) : Int × Field × HistoryLog :=
  if f.recordSize < offset + buffer.length then (dbInvalidSize, f, log)
  else if recordNum = 0 then
    let recordNum := dbSearchBitInBitmap f.recordBitMap f.numOfRecords false
    if recordNum = 0 then (dbFull, f, log) else f.writeNew flash log recordNum offset buffer
  else if dbGetBitInBitmap f.recordBitMap recordNum then
    let (code, data) := readUserRecord (flash 0) f.userData recordNum f.recordSize offset buffer.length
    if code ≠ dbOk then (code, f, log)
    -- the same data is not written
    else if data = buffer then (dbOk, f, log)
    else f.overwrite flash log recordNum offset buffer
  else f.writeNew flash log recordNum offset buffer

/-- `db_delete_record` -/
def Field.dbDeleteRecord (f : Field) (flash : Nat → Access) (log : HistoryLog) (recordNum : Nat) : Int × Field × HistoryLog :=
  if ¬dbGetBitInBitmap f.recordBitMap recordNum then (dbOk, f, log)
  else if flash 0 ≠ .done then ((flash 0).code, f, log)
  else Field.logged { f.marked recordNum false with usedRecords := (f.usedRecords + 255) % 256 } log recordNum dbOk

/-- `db_read_record`: the data that is read -/
def Field.dbReadRecord (f : Field) (flash : Nat → Access) (recordNum offset length : Nat) : Int × List (BitVec 8) :=
  if ¬dbGetBitInBitmap f.recordBitMap recordNum then (dbEmptyRecord, [])
  else if f.recordSize < offset + length then (dbInvalidSize, [])
  else
    let (code, data) := readUserRecord (flash 0) f.userData recordNum f.recordSize offset length
    if code ≠ dbOk then (code, []) else (recordNum, data)

/-- `init_RAM_with_FFS`: the field record is made of the files again, the mark of the database among them. -/
def Field.initRamWithFfs (f : Field) (dbClean : Bool) : Field :=
  { f with
    recordBitMap := f.fieldData.1
    clean := f.fieldData.2
    dbClean := dbClean && f.fieldData.2
    usedRecords := (List.range f.numOfRecords).countP fun i => dbGetBitInBitmap f.fieldData.1 (i + 1)
    nextRecordNum := (f.userData.length / f.recordSize + 1) % 256 }

/-! ### What the calls mean -/

/-- What is in the records. -/
abbrev Store := Nat → Option (List (BitVec 8))

/-- Data is put into a record; what is new of the record is 0xff. -/
def Store.put (size : Nat) (t : Store) (n offset : Nat) (data : List (BitVec 8)) : Store :=
  write t n (some (splice ((t n).getD (List.replicate size 0xff)) offset data))

/-- What is in the records of a field. -/
def Field.contents (f : Field) : Store := fun r =>
  if 1 ≤ r ∧ r ≤ f.numOfRecords ∧ dbGetBitInBitmap f.recordBitMap r then some (recordAt f.recordSize f.userData (r - 1)) else none

/-- A call for the field: the module is started again, after `db_exit`, or the marks are changed by `db_flush` and by calls for
other fields. -/
inductive Call where
  | write (recordNum offset : Nat) (buffer : List (BitVec 8))
  | delete (recordNum : Nat)
  | read (recordNum offset length : Nat)
  | restart (dbClean : Bool)
  | mark (clean dbClean stored : Bool)

/-- A call, with its accesses to the flash and the history log that it finds. -/
structure Event where
  call : Call
  flash : Nat → Access
  log : HistoryLog

/-- What is returned, the data that is read, and the field after a call. -/
def Field.after (f : Field) (e : Event) : Int × List (BitVec 8) × Field :=
  match e.call with
  | .write recordNum offset buffer =>
    let (ret, f, _) := f.dbWriteRecord e.flash e.log recordNum offset buffer
    (ret, [], f)
  | .delete recordNum =>
    let (ret, f, _) := f.dbDeleteRecord e.flash e.log recordNum
    (ret, [], f)
  | .read recordNum offset length =>
    let (ret, data) := f.dbReadRecord e.flash recordNum offset length
    (ret, data, f)
  | .restart dbClean => (dbOk, [], f.initRamWithFfs dbClean)
  | .mark clean dbClean stored => (dbOk, [], { f with clean, dbClean, fieldData := (f.fieldData.1, stored) })

/-- The number that is given is one of a record of the field, or 0 for a new record. -/
def Field.names (f : Field) (e : Event) : Bool :=
  match e.call with
  | .write recordNum _ _ => decide (recordNum ≤ f.numOfRecords)
  | .delete recordNum => decide (1 ≤ recordNum ∧ recordNum ≤ f.numOfRecords)
  | .read recordNum _ _ => decide (1 ≤ recordNum ∧ recordNum ≤ f.numOfRecords)
  | _ => true

/-- A field after `db_create_field`, and all calls for it. -/
def records : Machine Field Event where
  init f := 0 < f.recordSize ∧ f.numOfRecords ≤ maxNumRecords ∧ f.usedRecords = 0 ∧ (∀ i, f.recordBitMap i = 0) ∧
    f.nextRecordNum = 1 ∧ f.userData = [] ∧ f.fieldData.1 = f.recordBitMap
  step f e := some (f.after e).2.2

/-- A call may fail: an access to the flash fails, or there is no room in the history log. -/
def Field.Excused (f : Field) (e : Event) : Prop :=
  (∃ k, e.flash k ≠ .done) ∨ (f.tracked = true ∧ e.log.length = dbMaxAffected)

/-- The record that a call writes: a new one is the first that is free. -/
def Field.Chosen (f : Field) (recordNum n : Nat) : Prop :=
  if recordNum = 0 then 1 ≤ n ∧ n ≤ f.numOfRecords ∧ f.contents n = none ∧ ∀ m, 1 ≤ m → m < n → f.contents m ≠ none
  else n = recordNum

/-- What a call answers, and what it does to the records: all of what it is to do, or nothing. -/
def Field.Right (f : Field) (e : Event) : Prop :=
  let (ret, data, f') := f.after e
  match e.call with
  | .write recordNum offset buffer =>
    if f.recordSize < offset + buffer.length then ret = dbInvalidSize ∧ f'.contents = f.contents
    else (recordNum = 0 ∧ (∀ m, 1 ≤ m → m ≤ f.numOfRecords → f.contents m ≠ none) ∧ ret = dbFull ∧ f'.contents = f.contents) ∨
      ∃ n, f.Chosen recordNum n ∧
        ((ret = n ∧ f'.contents = f.contents.put f.recordSize n offset buffer) ∨
          (ret = dbOk ∧ recordNum ≠ 0 ∧ f'.contents = f.contents ∧
            (f.contents n).map (fun c => (c.drop offset).take buffer.length) = some buffer) ∨
          (ret < 0 ∧ f.Excused e ∧ (f'.contents = f.contents ∨ f'.contents = f.contents.put f.recordSize n offset buffer)))
  | .delete recordNum =>
    (ret = dbOk ∧ f'.contents = Citrine.write f.contents recordNum none) ∨
      (ret < 0 ∧ f.Excused e ∧ (f'.contents = f.contents ∨ f'.contents = Citrine.write f.contents recordNum none))
  | .read recordNum offset length =>
    f'.contents = f.contents ∧
      match f.contents recordNum with
      | none => ret = dbEmptyRecord
      | some c =>
        if f.recordSize < offset + length then ret = dbInvalidSize
        else (ret = recordNum ∧ data = (c.drop offset).take length) ∨ (ret < 0 ∧ e.flash 0 ≠ .done)
  | _ => ret = dbOk ∧ f'.contents = f.contents

/-! ### The bits -/

section
variable {bitmap : Octets} {n i : Nat}

private theorem mask_eq (h : i < 8) : (0x80#8 >>> i) = BitVec.twoPow 8 (7 - i) := by
  have hall : ∀ j : Fin 8, (0x80#8 >>> j.val) = BitVec.twoPow 8 (7 - j.val) := by decide
  exact hall ⟨i, h⟩

theorem dbGetBitInBitmap_eq (hn : 1 ≤ n) (hmax : n < 65536) : dbGetBitInBitmap bitmap n = bitAt bitmap (n - 1) := by
  have hpos : (n + 65535) % 65536 = n - 1 := by omega
  unfold dbGetBitInBitmap bitAt
  simp only [hpos]
  rw [mask_eq (Nat.mod_lt _ (by decide)), Bool.eq_iff_iff, bne_iff_ne, and_twoPow_ne (Nat.mod_lt _ (by decide))]

theorem bitAt_dbSetBitInBitmap (hn : 1 ≤ n) (hmax : n < 65536) (value : Bool) :
    bitAt (dbSetBitInBitmap bitmap n value) i = if i = n - 1 then value else bitAt bitmap i := by
  have hpos : (n + 65535) % 65536 = n - 1 := by omega
  have hmask {j : Nat} (hj : j < 8) : (0x80#8 >>> ((n - 1) % 8)).getMsbD j = decide (j = (n - 1) % 8) := by
    have hall : ∀ k j : Fin 8, (0x80#8 >>> k.val).getMsbD j.val = decide (j.val = k.val) := by decide
    exact hall ⟨(n - 1) % 8, Nat.mod_lt _ (by decide)⟩ ⟨j, hj⟩
  have hi : i % 8 < 8 := Nat.mod_lt _ (by decide)
  unfold dbSetBitInBitmap
  rw [if_neg (by omega)]
  simp only [hpos]
  cases value with
  | true =>
    rw [if_pos rfl, bitAt_setAt, BitVec.getMsbD_or, hmask hi]
    by_cases hd : i / 8 = (n - 1) / 8
    · rw [if_pos hd]
      unfold bitAt
      rw [hd]
      by_cases hm : i = n - 1
      · rw [if_pos hm]
        simp [hm]
      · rw [if_neg hm, decide_eq_false (by omega), Bool.or_false]
    · rw [if_neg hd, if_neg (by omega)]
  | false =>
    rw [if_neg Bool.false_ne_true, bitAt_setAt, BitVec.getMsbD_and, BitVec.getMsbD_not, hmask hi]
    by_cases hd : i / 8 = (n - 1) / 8
    · rw [if_pos hd]
      unfold bitAt
      rw [hd]
      by_cases hm : i = n - 1
      · rw [if_pos hm]
        simp [hm]
      · rw [if_neg hm, decide_eq_true hi, decide_eq_false (by omega)]
        simp
    · rw [if_neg hd, if_neg (by omega)]

/-- The search ends at the first free record. -/
theorem dbSearchBitInBitmap_cases (bitmap : Octets) (num : Nat) :
    (dbSearchBitInBitmap bitmap num false = 0 ∧ ∀ m, 1 ≤ m → m ≤ num → dbGetBitInBitmap bitmap m = true) ∨
    ∃ n, dbSearchBitInBitmap bitmap num false = n ∧ 1 ≤ n ∧ n ≤ num ∧ dbGetBitInBitmap bitmap n = false ∧
      ∀ m, 1 ≤ m → m < n → dbGetBitInBitmap bitmap m = true := by
  unfold dbSearchBitInBitmap
  cases hfind : (List.range num).find? fun i => dbGetBitInBitmap bitmap (i + 1) == false with
  | none =>
    refine .inl ⟨rfl, fun m hm hle => ?_⟩
    have hno := List.find?_eq_none.1 hfind (m - 1) (List.mem_range.2 (by omega))
    rw [Nat.sub_add_cancel hm] at hno
    simpa using hno
  | some i =>
    obtain ⟨hbit, hmem, hless⟩ := List.find?_range_eq_some.1 hfind
    refine .inr ⟨i + 1, rfl, by omega, List.mem_range.1 hmem, by simpa using hbit, fun m hm hlt => ?_⟩
    have hless' := hless (m - 1) (by omega)
    rw [Nat.sub_add_cancel hm] at hless'
    simpa using hless'

end

section
variable {bitmap : Octets} {n i num : Nat}

theorem dbGet_dbSet (hn : 1 ≤ n) (hmax : n < 65536) (hi : 1 ≤ i) (himax : i < 65536) (value : Bool) :
    dbGetBitInBitmap (dbSetBitInBitmap bitmap n value) i = if i = n then value else dbGetBitInBitmap bitmap i := by
  rw [dbGetBitInBitmap_eq hi himax, dbGetBitInBitmap_eq hi himax, bitAt_dbSetBitInBitmap hn hmax]
  by_cases h : i = n
  · rw [if_pos h, if_pos (by omega)]
  · rw [if_neg h, if_neg (by omega)]

/-- The number of records in a bitmap. -/
def usedIn (bitmap : Octets) (num : Nat) : Nat := (List.range num).countP fun i => dbGetBitInBitmap bitmap (i + 1)

private theorem usedIn_le : usedIn bitmap num ≤ num := by
  unfold usedIn
  exact Nat.le_trans List.countP_le_length (Nat.le_of_eq List.length_range)

private theorem countP_flip {p q : Nat → Bool} {k m : Nat} (hk : k < m) (hsame : ∀ j < m, j ≠ k → q j = p j)
    (hp : p k = false) (hq : q k = true) : (List.range m).countP q = (List.range m).countP p + 1 := by
  induction m with
  | zero => omega
  | succ m ih =>
    rw [List.range_succ, List.countP_append, List.countP_append, List.countP_singleton, List.countP_singleton]
    by_cases hkm : k = m
    · subst hkm
      have hbelow : (List.range k).countP q = (List.range k).countP p := by
        refine List.countP_congr fun j hj => ?_
        have hj := List.mem_range.1 hj
        rw [hsame j (by omega) (by omega)]
      rw [hbelow, hp, hq, if_pos rfl, if_neg Bool.false_ne_true]
    · rw [ih (by omega) fun j hj hne => hsame j (by omega) hne, hsame m (by omega) (Ne.symm hkm)]
      omega

/-- A record that is new is counted. -/
private theorem usedIn_set (hn : 1 ≤ n) (hle : n ≤ num) (hnum : num ≤ maxNumRecords)
    (hbit : dbGetBitInBitmap bitmap n = false) :
    usedIn (dbSetBitInBitmap bitmap n true) num = usedIn bitmap num + 1 := by
  unfold maxNumRecords at hnum
  have hpred : n - 1 + 1 = n := by omega
  refine countP_flip (k := n - 1) (by omega) (fun j hj hne => ?_) ?_ ?_
  · rw [dbGet_dbSet hn (by omega) (by omega) (by omega), if_neg (by omega)]
  · rw [hpred, hbit]
  · rw [hpred, dbGet_dbSet hn (by omega) hn (by omega), if_pos rfl]

/-- A record that is deleted is counted no more. -/
private theorem usedIn_clear (hn : 1 ≤ n) (hle : n ≤ num) (hnum : num ≤ maxNumRecords)
    (hbit : dbGetBitInBitmap bitmap n = true) :
    usedIn bitmap num = usedIn (dbSetBitInBitmap bitmap n false) num + 1 := by
  unfold maxNumRecords at hnum
  have hpred : n - 1 + 1 = n := by omega
  refine countP_flip (k := n - 1) (by omega) (fun j hj hne => ?_) ?_ ?_
  · rw [dbGet_dbSet hn (by omega) (by omega) (by omega), if_neg (by omega)]
  · rw [hpred, dbGet_dbSet hn (by omega) hn (by omega), if_pos rfl]
  · rw [hpred, hbit]

end

/-! ### Accesses to the user data file -/

section
variable {access : Access} {file data : List (BitVec 8)} {r size offset length : Nat}

private theorem Access.code_neg (h : access ≠ .done) : access.code < 0 := by
  cases access with
  | done => exact absurd rfl h
  | fail => decide
  | failFs => decide

private theorem position_eq (hr : 1 ≤ r) (hmax : r < 256) : position r size offset = (((r - 1) * size + offset : Nat) : Int) := by
  obtain ⟨q, rfl⟩ : ∃ q, r = q + 1 := ⟨r - 1, by omega⟩
  unfold position
  rw [Nat.mod_eq_of_lt hmax]
  simp only [Nat.add_sub_cancel, Int.natCast_add, Int.natCast_one, Int.natCast_mul, Int.add_sub_cancel]

private theorem writeUserRecord_eq (hr : 1 ≤ r) (hmax : r < 256) (hpos : (r - 1) * size + offset ≤ file.length) :
    writeUserRecord access file r size offset data =
      if access = .done then (dbOk, splice file ((r - 1) * size + offset) data) else (access.code, file) := by
  unfold writeUserRecord
  rw [position_eq hr hmax]
  by_cases hdone : access = .done
  · rw [if_neg (not_not.2 hdone), if_neg (by omega), if_pos hdone, Int.toNat_natCast]
  · rw [if_pos hdone, if_neg hdone]

private theorem readUserRecord_eq (hr : 1 ≤ r) (hmax : r < 256) (hpos : (r - 1) * size + offset ≤ file.length) :
    readUserRecord access file r size offset length =
      if access = .done then (dbOk, (file.drop ((r - 1) * size + offset)).take length) else (access.code, []) := by
  unfold readUserRecord
  rw [position_eq hr hmax]
  by_cases hdone : access = .done
  · rw [if_neg (not_not.2 hdone), if_neg (by omega), if_pos hdone, Int.toNat_natCast]
  · rw [if_pos hdone, if_neg hdone]

/-- What is read of a record. -/
private theorem take_drop_recordAt (h : offset + length ≤ size) :
    (file.drop (r * size + offset)).take length = ((recordAt size file r).drop offset).take length := by
  refine List.ext_getElem? fun i => ?_
  rw [List.getElem?_take, List.getElem?_take, List.getElem?_drop, List.getElem?_drop, getElem?_recordAt, Nat.add_assoc]
  by_cases hi : i < length
  · rw [if_pos hi, if_pos hi, if_pos (by omega)]
  · rw [if_neg hi, if_neg hi]

end

section
variable {flash : Nat → Access} {size : Nat}

/-- A record at the end of a file of whole records, or before it, leaves a file of whole records. -/
private theorem length_grown {m r : Nat} {file data : List (BitVec 8)} (hlen : file.length = m * size) (hr : 1 ≤ r)
    (hdata : data.length = size) (hpos : (r - 1) * size + 0 ≤ file.length) :
    (splice file ((r - 1) * size + 0) data).length = max m r * size := by
  have hnext : (r - 1) * size + size = r * size := by
    rw [← Nat.succ_mul]
    congr 1
    omega
  rw [length_splice hpos, hlen, hdata, Nat.add_zero, hnext, Nat.mul_max_mul_right]

private theorem fillRecords_succ {n recCtr k : Nat} {file : List (BitVec 8)} (hr : 1 ≤ recCtr) (hmax : recCtr < 256)
    (hpos : (recCtr - 1) * size + 0 ≤ file.length) :
    fillRecords flash size (n + 1) recCtr k file =
      if flash k = .done then
        fillRecords flash size n ((recCtr + 1) % 256) (k + 1)
          (splice file ((recCtr - 1) * size + 0) (List.replicate size 0xff))
      else ((flash k).code, k + 1, file) := by
  rw [fillRecords, writeUserRecord_eq hr hmax hpos]
  by_cases hdone : flash k = .done
  · rw [if_pos hdone, if_pos hdone]
    exact if_neg (not_not.2 rfl)
  · have hneg := Access.code_neg hdone
    rw [if_neg hdone, if_neg hdone]
    exact if_pos (show (flash k).code ≠ 0 by omega)

/-- The dummies fill the file up to the new record, and leave the records in front of them. -/
private theorem fillRecords_spec (flash : Nat → Access) (n : Nat) {recCtr k m : Nat} {file : List (BitVec 8)}
    (hlen : file.length = m * size) (hctr : 1 ≤ recCtr) (hle : recCtr ≤ m + 1) (hmax : recCtr + n < 256) :
    ∃ m' code k' file', fillRecords flash size n recCtr k file = (code, k', file') ∧
      file'.length = m' * size ∧ m ≤ m' ∧ m' ≤ max m (recCtr + n - 1) ∧
      (∀ q, q + 1 < recCtr → recordAt size file' q = recordAt size file q) ∧
      ((code = dbOk ∧ recCtr + n ≤ m' + 1) ∨ (code < 0 ∧ ∃ j, flash j ≠ .done)) := by
  induction n generalizing recCtr k m file with
  | zero => exact ⟨m, dbOk, k, file, rfl, hlen, Nat.le_refl m, Nat.le_max_left m _, fun q hq => rfl, .inl ⟨rfl, hle⟩⟩
  | succ n ih =>
    have hpos : (recCtr - 1) * size + 0 ≤ file.length := by
      rw [hlen]
      exact Nat.mul_le_mul_right size (by omega)
    rw [fillRecords_succ hctr (by omega) hpos]
    by_cases hdone : flash k = .done
    · rw [if_pos hdone, Nat.mod_eq_of_lt (show recCtr + 1 < 256 by omega)]
      have hgrown := length_grown hlen hctr (List.length_replicate (a := (0xff : BitVec 8))) hpos
      obtain ⟨m', code, k', file', heq, hlen', hge, hbound, hkept, hcode⟩ :=
        @ih (recCtr + 1) (k + 1) _ _ hgrown (by omega) (by omega) (by omega)
      refine ⟨m', code, k', file', heq, hlen', by omega, by omega, fun q hq => ?_, ?_⟩
      · rw [hkept q (by omega)]
        exact recordAt_splice_other (by omega) hpos (Nat.le_of_eq (by rw [List.length_replicate, Nat.zero_add]))
      · rcases hcode with ⟨hok, hfar⟩ | hfail
        · exact .inl ⟨hok, by omega⟩
        · exact .inr hfail
    · rw [if_neg hdone]
      exact ⟨m, _, _, _, rfl, hlen, Nat.le_refl m, Nat.le_max_left m _, fun q hq => rfl,
        .inr ⟨Access.code_neg hdone, k, hdone⟩⟩

end

/-! ### The field in a run -/

/-- The field record in RAM, its copy in the files, and the user data file agree. -/
structure Field.Valid (f : Field) : Prop where
  size : 0 < f.recordSize
  num : f.numOfRecords ≤ maxNumRecords
  stored : f.fieldData.1 = f.recordBitMap
  used : f.usedRecords = usedIn f.recordBitMap f.numOfRecords
  next : 1 ≤ f.nextRecordNum
  file : ∃ n, f.userData.length = n * f.recordSize ∧ f.nextRecordNum ≤ n + 1 ∧ n ≤ f.numOfRecords
  below : ∀ r, 1 ≤ r → r ≤ f.numOfRecords → dbGetBitInBitmap f.recordBitMap r = true → r < f.nextRecordNum

section
variable {f f' : Field} {r : Nat}

private theorem contents_used (hr : 1 ≤ r) (hle : r ≤ f.numOfRecords) (hbit : dbGetBitInBitmap f.recordBitMap r = true) :
    f.contents r = some (recordAt f.recordSize f.userData (r - 1)) := if_pos ⟨hr, hle, hbit⟩

private theorem contents_free (hbit : dbGetBitInBitmap f.recordBitMap r = false) : f.contents r = none :=
  if_neg fun h => Bool.false_ne_true (hbit.symm.trans h.2.2)

private theorem bit_of_contents (hr : 1 ≤ r) (hle : r ≤ f.numOfRecords) :
    f.contents r ≠ none ↔ dbGetBitInBitmap f.recordBitMap r = true := by
  cases hbit : dbGetBitInBitmap f.recordBitMap r with
  | false => simp [contents_free hbit]
  | true => simp [contents_used hr hle hbit]

/-- Two fields with the same bits and the same records that are used. -/
private theorem contents_same (hsize : f'.recordSize = f.recordSize) (hnum : f'.numOfRecords = f.numOfRecords)
    (hbit : 1 ≤ r → r ≤ f.numOfRecords → dbGetBitInBitmap f'.recordBitMap r = dbGetBitInBitmap f.recordBitMap r)
    (hrec : 1 ≤ r → r ≤ f.numOfRecords → dbGetBitInBitmap f.recordBitMap r = true →
      recordAt f.recordSize f'.userData (r - 1) = recordAt f.recordSize f.userData (r - 1)) :
    f'.contents r = f.contents r := by
  unfold Field.contents
  rw [hsize, hnum]
  by_cases hin : 1 ≤ r ∧ r ≤ f.numOfRecords
  · rw [hbit hin.1 hin.2]
    by_cases hused : dbGetBitInBitmap f.recordBitMap r = true
    · rw [if_pos ⟨hin.1, hin.2, hused⟩, if_pos ⟨hin.1, hin.2, hused⟩, hrec hin.1 hin.2 hused]
    · rw [if_neg fun h => hused h.2.2, if_neg fun h => hused h.2.2]
  · rw [if_neg fun h => hin ⟨h.1, h.2.1⟩, if_neg fun h => hin ⟨h.1, h.2.1⟩]

private theorem contents_write {v : Option (List (BitVec 8))} (hat : f'.contents r = v)
    (hother : ∀ i, i ≠ r → f'.contents i = f.contents i) : f'.contents = write f.contents r v := by
  funext i
  unfold write
  split
  · rename_i hi
    rw [hi, hat]
  · rename_i hi
    exact hother i hi

/-- Any file with whole records up to the next one will do. -/
private theorem Field.Valid.withFile (hv : f.Valid) {file : List (BitVec 8)} {m : Nat}
    (hlen : file.length = m * f.recordSize) (hnext : f.nextRecordNum ≤ m + 1) (hm : m ≤ f.numOfRecords) :
    Field.Valid { f with userData := file } :=
  ⟨hv.size, hv.num, hv.stored, hv.used, hv.next, ⟨m, hlen, hnext, hm⟩, hv.below⟩

/-- A file that holds the records that are used is as good as the one before it. -/
private theorem Field.Valid.grown (hv : f.Valid) {file : List (BitVec 8)} {m : Nat} (hlen : file.length = m * f.recordSize)
    (hnext : f.nextRecordNum ≤ m + 1) (hm : m ≤ f.numOfRecords)
    (hkept : ∀ i, 1 ≤ i → i ≤ f.numOfRecords → dbGetBitInBitmap f.recordBitMap i = true →
      recordAt f.recordSize file (i - 1) = recordAt f.recordSize f.userData (i - 1)) :
    Field.Valid { f with userData := file } ∧ Field.contents { f with userData := file } = f.contents := by
  refine ⟨hv.withFile hlen hnext hm, ?_⟩
  funext i
  exact contents_same rfl rfl (fun _ _ => rfl) (hkept i)

end

section
variable {f : Field} {flash : Nat → Access} {log : HistoryLog} {r offset : Nat} {data : List (BitVec 8)}

private theorem updateHistoryLog_cases (f : Field) (log : HistoryLog) (r : Nat) :
    (f.updateHistoryLog log r).1 = dbOk ∨
      ((f.updateHistoryLog log r).1 < 0 ∧ f.tracked = true ∧ log.length = dbMaxAffected) := by
  unfold Field.updateHistoryLog
  split
  · exact .inl rfl
  · rename_i htracked
    split
    · exact .inl rfl
    · split
      · rename_i hfull
        exact .inr ⟨show dbHistoryFull < 0 by decide, by simpa using htracked, hfull⟩
      · exact .inl rfl

/-- What a call comes to that is to change the records: it does so and gives back `good`, or it fails and did so or not. -/
private def Comes (f : Field) (flash : Nat → Access) (log : HistoryLog) (good : Int) (t : Store)
    (res : Int × Field × HistoryLog) : Prop :=
  res.2.1.Valid ∧ ((res.1 = good ∧ res.2.1.contents = t) ∨
    (res.1 < 0 ∧ ((∃ k, flash k ≠ .done) ∨ (f.tracked = true ∧ log.length = dbMaxAffected)) ∧
      (res.2.1.contents = f.contents ∨ res.2.1.contents = t)))

private theorem ne_dbOk {code : Int} (h : code < 0) : code ≠ dbOk := by
  unfold dbOk
  omega

private theorem comes_failed {t : Store} {good : Int} {k : Nat} {f' : Field} (hfail : flash k ≠ .done) (hv : f'.Valid)
    (hsame : f'.contents = f.contents) : Comes f flash log good t ((flash k).code, f', log) :=
  ⟨hv, .inr ⟨Access.code_neg hfail, .inl ⟨k, hfail⟩, .inl hsame⟩⟩

/-- The history log is the last that a call writes. -/
private theorem comes_logged {t : Store} {good : Int} {f' : Field} (hv : f'.Valid) (ht : f'.contents = t)
    (htracked : f'.tracked = f.tracked) : Comes f flash log good t (f'.logged log r good) := by
  refine ⟨hv, ?_⟩
  unfold Field.logged
  simp only
  rcases updateHistoryLog_cases f' log r with hok | ⟨hneg, htr, hfull⟩
  · rw [if_neg (not_not.2 hok)]
    exact .inl ⟨rfl, ht⟩
  · rw [if_pos (ne_dbOk hneg)]
    exact .inr ⟨hneg, .inr ⟨htracked ▸ htr, hfull⟩, .inr ht⟩

/-- A new record, behind the dummies. -/
private theorem valid_added {file : List (BitVec 8)} {m : Nat} (hv : f.Valid) (hr : 1 ≤ r) (hle : r ≤ f.numOfRecords)
    (hbit : dbGetBitInBitmap f.recordBitMap r = false) (hlen : file.length = m * f.recordSize) (hnext : f.nextRecordNum ≤ m + 1)
    (hrm : r ≤ m) (hm : m ≤ f.numOfRecords) :
    Field.Valid { f.marked r true with
      userData := file
      usedRecords := (f.usedRecords + 1) % 256
      nextRecordNum := (if f.nextRecordNum < r + 1 then r + 1 else f.nextRecordNum) % 256 } := by
  have hnum : f.numOfRecords ≤ 254 := hv.num
  have hone := hv.next
  have hfits : (if f.nextRecordNum < r + 1 then r + 1 else f.nextRecordNum) < 256 := by
    split <;> omega
  have hused := usedIn_set hr hle hv.num hbit
  have hcount : usedIn f.recordBitMap f.numOfRecords + 1 ≤ f.numOfRecords := by
    rw [← hused]
    exact usedIn_le
  refine ⟨hv.size, hv.num, rfl, ?_, ?_, ⟨m, hlen, ?_, hm⟩, fun i hi hile hset => ?_⟩
  · show (f.usedRecords + 1) % 256 = usedIn (dbSetBitInBitmap f.recordBitMap r true) f.numOfRecords
    rw [hused, hv.used]
    omega
  · show 1 ≤ (if f.nextRecordNum < r + 1 then r + 1 else f.nextRecordNum) % 256
    rw [Nat.mod_eq_of_lt hfits]
    split <;> omega
  · show (if f.nextRecordNum < r + 1 then r + 1 else f.nextRecordNum) % 256 ≤ m + 1
    rw [Nat.mod_eq_of_lt hfits]
    split <;> omega
  · show i < (if f.nextRecordNum < r + 1 then r + 1 else f.nextRecordNum) % 256
    have hile : i ≤ f.numOfRecords := hile
    have hset : dbGetBitInBitmap (dbSetBitInBitmap f.recordBitMap r true) i = true := hset
    rw [dbGet_dbSet hr (by omega) hi (by omega)] at hset
    rw [Nat.mod_eq_of_lt hfits]
    by_cases hir : i = r
    · split <;> omega
    · rw [if_neg hir] at hset
      have := hv.below i hi hile hset
      split <;> omega

/-- A new record. -/
private theorem writeNew_comes (hv : f.Valid) (hr : 1 ≤ r) (hle : r ≤ f.numOfRecords)
    (hbit : dbGetBitInBitmap f.recordBitMap r = false) (hsize : offset + data.length ≤ f.recordSize) :
    Comes f flash log r (f.contents.put f.recordSize r offset data) (f.writeNew flash log r offset data) := by
  obtain ⟨m, hlen, hnext, hm⟩ := hv.file
  have hnum : f.numOfRecords ≤ 254 := hv.num
  have hone := hv.next
  obtain ⟨m', code, k', file', hfill, hlen', hge, hbound, hkept, hcode⟩ :=
    fillRecords_spec flash (r - f.nextRecordNum) (k := 0) hlen hv.next hnext (by omega)
  have hfront (i : Nat) (hi : 1 ≤ i) (hile : i ≤ f.numOfRecords) (hused : dbGetBitInBitmap f.recordBitMap i = true) :
      recordAt f.recordSize file' (i - 1) = recordAt f.recordSize f.userData (i - 1) := by
    have := hv.below i hi hile hused
    exact hkept (i - 1) (by omega)
  obtain ⟨hv', hsame⟩ := hv.grown hlen' (by omega) (by omega) hfront
  unfold Field.writeNew
  rw [hfill]
  rcases hcode with ⟨rfl, hfar⟩ | ⟨hneg, hfail⟩
  · -- the dummies are written, and the file ends at the new record or behind it
    have hpos : (r - 1) * f.recordSize + 0 ≤ file'.length := by
      rw [hlen']
      exact Nat.mul_le_mul_right _ (by omega)
    have hrecord : (splice (List.replicate f.recordSize (0xff : BitVec 8)) offset data).length = f.recordSize := by
      rw [length_splice (by rw [List.length_replicate]; omega), List.length_replicate]
      omega
    simp only
    rw [if_neg (not_not.2 rfl), writeUserRecord_eq hr (by omega) hpos]
    by_cases hdone : flash k' = .done
    · have hgrown := length_grown hlen' hr hrecord hpos
      have hfront' (i : Nat) (hi : 1 ≤ i) (hile : i ≤ f.numOfRecords) (hused : dbGetBitInBitmap f.recordBitMap i = true) :
          recordAt f.recordSize (splice file' ((r - 1) * f.recordSize + 0)
            (splice (List.replicate f.recordSize 0xff) offset data)) (i - 1) =
          recordAt f.recordSize f.userData (i - 1) := by
        have hne : i ≠ r := fun h => Bool.false_ne_true (hbit.symm.trans (h ▸ hused))
        rw [recordAt_splice_other (by omega) hpos (by omega), hfront i hi hile hused]
      rw [if_pos hdone]
      simp only
      rw [if_neg (not_not.2 rfl)]
      by_cases hdone' : flash (k' + 1) = .done
      · rw [if_neg (not_not.2 hdone')]
        refine comes_logged (valid_added hv hr hle hbit hgrown (by omega) (by omega) (by omega)) ?_ rfl
        refine contents_write ?_ fun i hne => ?_
        · have hset : dbGetBitInBitmap (dbSetBitInBitmap f.recordBitMap r true) r = true :=
            (dbGet_dbSet hr (by omega) hr (by omega) true).trans (if_pos rfl)
          rw [contents_free hbit]
          exact Eq.trans (if_pos ⟨hr, hle, hset⟩) (congrArg some (recordAt_splice_whole hpos hrecord))
        · refine contents_same rfl rfl (fun hi hile => ?_) (hfront' i)
          exact (dbGet_dbSet hr (by omega) hi (Nat.lt_of_le_of_lt hile (by omega)) true).trans (if_neg hne)
      · rw [if_pos hdone']
        obtain ⟨hv'', hsame'⟩ := hv.grown hgrown (by omega) (by omega) hfront'
        exact comes_failed hdone' hv'' hsame'
    · rw [if_neg hdone]
      simp only
      rw [if_pos (ne_dbOk (Access.code_neg hdone))]
      exact comes_failed hdone hv' hsame
  · simp only
    rw [if_pos (ne_dbOk hneg)]
    exact ⟨hv', .inr ⟨hneg, .inl hfail, .inl hsame⟩⟩

/-- A record that is changed. -/
private theorem overwrite_comes (hv : f.Valid) (hr : 1 ≤ r) (hle : r ≤ f.numOfRecords)
    (hbit : dbGetBitInBitmap f.recordBitMap r = true) (hsize : offset + data.length ≤ f.recordSize) :
    Comes f flash log r (f.contents.put f.recordSize r offset data) (f.overwrite flash log r offset data) := by
  obtain ⟨m, hlen, hnext, hm⟩ := hv.file
  have hnum : f.numOfRecords ≤ 254 := hv.num
  have hlt := hv.below r hr hle hbit
  have hrecord : (r - 1 + 1) * f.recordSize ≤ f.userData.length := by
    rw [hlen]
    exact Nat.mul_le_mul_right _ (by omega)
  have hpos : (r - 1) * f.recordSize + offset ≤ f.userData.length := by
    rw [Nat.succ_mul] at hrecord
    omega
  unfold Field.overwrite
  rw [writeUserRecord_eq hr (by omega) hpos]
  by_cases hdone : flash 1 = .done
  · rw [if_pos hdone]
    simp only
    rw [if_neg (not_not.2 rfl)]
    have hgrown : (splice f.userData ((r - 1) * f.recordSize + offset) data).length = m * f.recordSize := by
      rw [length_splice hpos, ← hlen]
      rw [Nat.succ_mul] at hrecord
      omega
    have hother (i : Nat) (hi : 1 ≤ i) (hne : i ≠ r) :
        recordAt f.recordSize (splice f.userData ((r - 1) * f.recordSize + offset) data) (i - 1) =
          recordAt f.recordSize f.userData (i - 1) := recordAt_splice_other (by omega) hpos hsize
    have hput : Field.contents { f with userData := splice f.userData ((r - 1) * f.recordSize + offset) data } =
        f.contents.put f.recordSize r offset data := by
      refine contents_write ?_ fun i hne => contents_same rfl rfl (fun _ _ => rfl) fun hi hile _ => hother i hi hne
      rw [contents_used hr hle hbit]
      exact Eq.trans (if_pos ⟨hr, hle, hbit⟩) (congrArg some (recordAt_splice_same hrecord hsize))
    have hv' := hv.withFile hgrown hnext hm
    by_cases htracked : f.tracked = true
    · rw [if_neg (not_not.2 htracked)]
      by_cases hclean : f.dbClean = true
      · rw [if_neg (not_not.2 hclean)]
        by_cases hdone' : flash 2 = .done
        · rw [if_neg (not_not.2 hdone')]
          exact comes_logged ⟨hv'.size, hv'.num, rfl, hv'.used, hv'.next, hv'.file, hv'.below⟩ hput rfl
        · rw [if_pos hdone']
          exact ⟨hv', .inr ⟨Access.code_neg hdone', .inl ⟨2, hdone'⟩, .inr hput⟩⟩
      · rw [if_pos hclean]
        exact comes_logged hv' hput rfl
    · rw [if_pos htracked]
      exact ⟨hv', .inl ⟨rfl, hput⟩⟩
  · rw [if_neg hdone]
    simp only
    rw [if_pos (ne_dbOk (Access.code_neg hdone))]
    exact comes_failed hdone hv rfl

/-- A record that is deleted. -/
private theorem dbDeleteRecord_comes (hv : f.Valid) (hr : 1 ≤ r) (hle : r ≤ f.numOfRecords) :
    Comes f flash log dbOk (write f.contents r none) (f.dbDeleteRecord flash log r) := by
  have hnum : f.numOfRecords ≤ 254 := hv.num
  unfold Field.dbDeleteRecord
  by_cases hbit : dbGetBitInBitmap f.recordBitMap r = true
  · rw [if_neg (not_not.2 hbit)]
    by_cases hdone : flash 0 = .done
    · rw [if_neg (not_not.2 hdone)]
      refine comes_logged ⟨hv.size, hv.num, rfl, ?_, hv.next, hv.file, fun i hi hile hset => ?_⟩ ?_ rfl
      · have hused := usedIn_clear hr hle hv.num hbit
        have hcount : usedIn f.recordBitMap f.numOfRecords ≤ f.numOfRecords := usedIn_le
        show (f.usedRecords + 255) % 256 = usedIn (dbSetBitInBitmap f.recordBitMap r false) f.numOfRecords
        rw [hv.used]
        omega
      · have hset : dbGetBitInBitmap (dbSetBitInBitmap f.recordBitMap r false) i = true := hset
        have hile : i ≤ f.numOfRecords := hile
        rw [dbGet_dbSet hr (by omega) hi (by omega)] at hset
        by_cases hir : i = r
        · rw [if_pos hir] at hset
          cases hset
        · rw [if_neg hir] at hset
          exact hv.below i hi hile hset
      · refine contents_write ?_ fun i hne => contents_same rfl rfl (fun hi hile => ?_) fun _ _ _ => rfl
        · exact contents_free ((dbGet_dbSet hr (by omega) hr (by omega) false).trans (if_pos rfl))
        · exact (dbGet_dbSet hr (by omega) hi (Nat.lt_of_le_of_lt hile (by omega)) false).trans (if_neg hne)
    · rw [if_pos hdone]
      exact comes_failed hdone hv rfl
  · rw [if_pos hbit]
    exact ⟨hv, .inl ⟨rfl, contents_write (contents_free (Bool.eq_false_iff.2 hbit)) fun _ _ => rfl⟩⟩

end

section
variable {f : Field} {r offset length : Nat} {flash : Nat → Access}

/-- What the file holds of a record that is used. -/
private theorem readUserRecord_used (hv : f.Valid) (hr : 1 ≤ r) (hle : r ≤ f.numOfRecords)
    (hbit : dbGetBitInBitmap f.recordBitMap r = true) (hsize : offset + length ≤ f.recordSize) :
    readUserRecord (flash 0) f.userData r f.recordSize offset length =
      if flash 0 = .done then (dbOk, ((recordAt f.recordSize f.userData (r - 1)).drop offset).take length)
      else ((flash 0).code, []) := by
  obtain ⟨m, hlen, hnext, hm⟩ := hv.file
  have hnum : f.numOfRecords ≤ 254 := hv.num
  have hlt := hv.below r hr hle hbit
  have hrecord : (r - 1 + 1) * f.recordSize ≤ f.userData.length := by
    rw [hlen]
    exact Nat.mul_le_mul_right _ (by omega)
  rw [Nat.succ_mul] at hrecord
  rw [readUserRecord_eq hr (by omega) (by omega), take_drop_recordAt hsize]

/-- What `db_write_record` answers to a call that has chosen a record. -/
private def Wrote (f : Field) (e : Event) (recordNum offset : Nat) (buffer : List (BitVec 8)) (ret : Int) (f' : Field) : Prop :=
  ∃ n, f.Chosen recordNum n ∧
    ((ret = n ∧ f'.contents = f.contents.put f.recordSize n offset buffer) ∨
      (ret = dbOk ∧ recordNum ≠ 0 ∧ f'.contents = f.contents ∧
        (f.contents n).map (fun c => (c.drop offset).take buffer.length) = some buffer) ∨
      (ret < 0 ∧ f.Excused e ∧ (f'.contents = f.contents ∨ f'.contents = f.contents.put f.recordSize n offset buffer)))

private theorem wrote_of_comes {e : Event} {n : Nat} {buffer : List (BitVec 8)} {res : Int × Field × HistoryLog}
    (hchosen : f.Chosen n r) (h : Comes f e.flash e.log r (f.contents.put f.recordSize r offset buffer) res) :
    res.2.1.Valid ∧ Wrote f e n offset buffer res.1 res.2.1 := by
  obtain ⟨hv, hdone | hfailed⟩ := h
  · exact ⟨hv, r, hchosen, .inl hdone⟩
  · exact ⟨hv, r, hchosen, .inr (.inr hfailed)⟩

/-- `db_write_record` -/
private theorem write_right {n : Nat} {buffer : List (BitVec 8)} {log : HistoryLog} (hv : f.Valid) (hn : n ≤ f.numOfRecords) :
    (f.after ⟨.write n offset buffer, flash, log⟩).2.2.Valid ∧ f.Right ⟨.write n offset buffer, flash, log⟩ := by
  unfold Field.Right Field.after
  simp only
  unfold Field.dbWriteRecord
  by_cases hbig : f.recordSize < offset + buffer.length
  · simp only [if_pos hbig]
    exact ⟨hv, trivial, trivial⟩
  simp only [if_neg hbig]
  have hsize : offset + buffer.length ≤ f.recordSize := by omega
  by_cases hzero : n = 0
  · subst hzero
    simp only [if_pos]
    rcases dbSearchBitInBitmap_cases f.recordBitMap f.numOfRecords with ⟨hfull, hall⟩ | ⟨r, hfound, hr, hle, hbit, hless⟩
    · simp only [hfull, if_pos]
      exact ⟨hv, .inl ⟨trivial, fun m hm hle => (bit_of_contents hm hle).2 (hall m hm hle), trivial, trivial⟩⟩
    · have hchosen : f.Chosen 0 r :=
        ⟨hr, hle, contents_free hbit, fun m hm hlt => (bit_of_contents hm (by omega)).2 (hless m hm hlt)⟩
      simp only [hfound, if_neg (show ¬r = 0 by omega)]
      obtain ⟨hv', hwrote⟩ := wrote_of_comes (e := ⟨.write 0 offset buffer, flash, log⟩) hchosen
        (writeNew_comes hv hr hle hbit hsize)
      exact ⟨hv', .inr hwrote⟩
  · have hchosen : f.Chosen n n := (if_neg hzero).mpr rfl
    have hone : 1 ≤ n := Nat.pos_of_ne_zero hzero
    simp only [if_neg hzero]
    by_cases hbit : dbGetBitInBitmap f.recordBitMap n = true
    · rw [if_pos hbit, readUserRecord_used hv hone hn hbit hsize]
      by_cases hdone : flash 0 = .done
      · rw [if_pos hdone]
        simp only
        rw [if_neg (not_not.2 rfl)]
        split
        · -- the record holds the data already
          rename_i hsame
          refine ⟨hv, .inr ⟨n, hchosen, .inr (.inl ⟨rfl, hzero, rfl, ?_⟩)⟩⟩
          rw [contents_used hone hn hbit, Option.map_some, hsame]
        · obtain ⟨hv', hwrote⟩ := wrote_of_comes (e := ⟨.write n offset buffer, flash, log⟩) hchosen
            (overwrite_comes hv hone hn hbit hsize)
          exact ⟨hv', .inr hwrote⟩
      · rw [if_neg hdone]
        simp only
        rw [if_pos (ne_dbOk (Access.code_neg hdone))]
        obtain ⟨hv', hwrote⟩ := wrote_of_comes (e := ⟨.write n offset buffer, flash, log⟩) hchosen (comes_failed hdone hv rfl)
        exact ⟨hv', .inr hwrote⟩
    · rw [if_neg hbit]
      obtain ⟨hv', hwrote⟩ := wrote_of_comes (e := ⟨.write n offset buffer, flash, log⟩) hchosen
        (writeNew_comes hv hone hn (Bool.eq_false_iff.2 hbit) hsize)
      exact ⟨hv', .inr hwrote⟩

/-- `db_read_record` -/
private theorem read_right {log : HistoryLog} (hv : f.Valid) (hr : 1 ≤ r) (hle : r ≤ f.numOfRecords) :
    f.Right ⟨.read r offset length, flash, log⟩ := by
  unfold Field.Right Field.after
  simp only
  unfold Field.dbReadRecord
  by_cases hbit : dbGetBitInBitmap f.recordBitMap r = true
  · rw [if_neg (not_not.2 hbit), contents_used hr hle hbit]
    refine ⟨trivial, ?_⟩
    by_cases hbig : f.recordSize < offset + length
    · simp only [if_pos hbig]
    · simp only [if_neg hbig]
      rw [readUserRecord_used hv hr hle hbit (by omega)]
      by_cases hdone : flash 0 = .done
      · rw [if_pos hdone]
        simp only
        rw [if_neg (not_not.2 rfl)]
        exact .inl ⟨rfl, rfl⟩
      · rw [if_neg hdone]
        simp only
        rw [if_pos (ne_dbOk (Access.code_neg hdone))]
        exact .inr ⟨Access.code_neg hdone, hdone⟩
  · rw [if_pos hbit, contents_free (Bool.eq_false_iff.2 hbit)]
    exact ⟨trivial, rfl⟩

/-- The field record that is made of the files is the one there was, but for the next record number. -/
private theorem restart_right (hv : f.Valid) (dbClean : Bool) :
    (f.initRamWithFfs dbClean).Valid ∧ (f.initRamWithFfs dbClean).contents = f.contents := by
  obtain ⟨m, hlen, hnext, hm⟩ := hv.file
  have hnum : f.numOfRecords ≤ 254 := hv.num
  have hcount : (f.userData.length / f.recordSize + 1) % 256 = m + 1 := by
    rw [hlen, Nat.mul_div_cancel m hv.size]
    omega
  refine ⟨⟨hv.size, hv.num, rfl, rfl, ?_, ⟨m, hlen, ?_, hm⟩, fun i hi hle hbit => ?_⟩, ?_⟩
  · show 1 ≤ (f.userData.length / f.recordSize + 1) % 256
    omega
  · show (f.userData.length / f.recordSize + 1) % 256 ≤ m + 1
    omega
  · have hbit : dbGetBitInBitmap f.fieldData.1 i = true := hbit
    have := hv.below i hi hle (hv.stored ▸ hbit)
    show i < (f.userData.length / f.recordSize + 1) % 256
    omega
  · funext i
    refine contents_same rfl rfl (fun _ _ => ?_) fun _ _ _ => rfl
    show dbGetBitInBitmap f.fieldData.1 i = dbGetBitInBitmap f.recordBitMap i
    rw [hv.stored]

/-- Each call answers as it should, and leaves a field that is valid. -/
theorem Field.Valid.right (hv : f.Valid) {e : Event} (h : f.names e = true) : (f.after e).2.2.Valid ∧ f.Right e := by
  obtain ⟨call, flash, log⟩ := e
  cases call with
  | write n offset buffer => exact write_right hv (of_decide_eq_true h)
  | delete n =>
    obtain ⟨hr, hle⟩ : 1 ≤ n ∧ n ≤ f.numOfRecords := of_decide_eq_true h
    obtain ⟨hv', hcomes⟩ : Comes f flash log dbOk (write f.contents n none) (f.dbDeleteRecord flash log n) :=
      dbDeleteRecord_comes hv hr hle
    exact ⟨hv', hcomes⟩
  | read n offset length =>
    obtain ⟨hr, hle⟩ : 1 ≤ n ∧ n ≤ f.numOfRecords := of_decide_eq_true h
    exact ⟨hv, read_right hv hr hle⟩
  | restart dbClean =>
    obtain ⟨hv', hsame⟩ := restart_right hv dbClean
    exact ⟨hv', rfl, hsame⟩
  | mark clean dbClean stored => exact ⟨⟨hv.size, hv.num, hv.stored, hv.used, hv.next, hv.file, hv.below⟩, rfl, rfl⟩

end

/-- A field that was just created is valid. -/
private theorem valid_of_init {f : Field} (h : records.init f) : f.Valid := by
  obtain ⟨hsize, hnum, hused, hbits, hnext, hfile, hstored⟩ := h
  have hfree (r : Nat) : dbGetBitInBitmap f.recordBitMap r = false := by
    unfold dbGetBitInBitmap
    simp [hbits]
  refine ⟨hsize, hnum, hstored, ?_, by omega, ⟨0, ?_, by omega, Nat.zero_le _⟩, fun r _ _ hbit => ?_⟩
  · unfold usedIn
    simp only [hfree]
    rw [hused, List.countP_false]
    rfl
  · rw [hfile, Nat.zero_mul]
    rfl
  · rw [hfree] at hbit
    cases hbit

private theorem used_eq {f : Field} (hv : f.Valid) :
    f.usedRecords = (List.range f.numOfRecords).countP fun i => (f.contents (i + 1)).isSome := by
  rw [hv.used]
  refine List.countP_congr fun i hi => ?_
  have hi := List.mem_range.1 hi
  rw [Option.isSome_iff_ne_none, bit_of_contents (by omega) (by omega)]

/-- A field of three records, of which the last is written first. -/
def lastWritten : Field :=
  Field.after
    { fieldId := 7, recordSize := 2, numOfRecords := 3, usedRecords := 0, recordBitMap := fun _ => 0, clean := true,
      nextRecordNum := 1, dbClean := true, tracked := true, userData := [], fieldData := (fun _ => 0, true) }
    { call := .write 3 0 [0x21, 0x43], flash := fun _ => .done, log := [] } |>.2.2

end Citrine.Db
