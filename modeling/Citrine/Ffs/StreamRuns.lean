import Citrine.Ffs.StreamBuffer

/-!
# A file over runs

A file that is written, read, truncated and synchronized in any order is a list of octets with a place in it, whatever of it is
in the buffer and in the chunks, and whatever allocations fail (`streams_right`).  One truncation is left out: it replaces the
chunk in the buffer, which is then put in place of the first one (`replaced_misplaced`).
-/

namespace Citrine.Ffs

/-! ### The whole file -/

section
variable {m : Nat} {cs : List (List (BitVec 8))} {src : List (BitVec 8)} {alloc : Nat → Int}

private theorem readChunks_eq (size : Nat) : readChunks cs size = cs.flatten.take size := by
  induction cs generalizing size with
  | nil => exact List.take_nil.symm
  | cons c cs ih =>
    rw [readChunks, List.flatten_cons, List.take_append]
    by_cases hmore : cs ≠ [] ∧ c.length < size
    · rw [if_pos hmore, ih, List.take_of_length_le (Nat.le_of_lt hmore.2)]
    · rw [if_neg hmore]
      by_cases hnil : cs = []
      · rw [hnil, List.flatten_nil, List.take_nil, List.append_nil]
      · have hle : size ≤ c.length := by
          by_contra hlt
          exact hmore ⟨hnil, by omega⟩
        rw [Nat.sub_eq_zero_of_le hle, List.take_zero, List.append_nil]

private theorem fileRead_eq (size : Nat) :
    fileRead cs size = (if size < cs.flatten.length then effsFiletoobig else cs.flatten.length, cs.flatten.take size) := by
  unfold fileRead
  simp only [readChunks_eq, objectDatasize_eq]
  by_cases hlt : size < cs.flatten.length
  · rw [if_pos hlt, if_pos hlt]
  · rw [if_neg hlt, if_neg hlt, List.take_of_length_le (by omega)]

/-- A piece that something is left behind is a whole one. -/
private theorem full_piece (hrest : src.drop m ≠ []) : (src.take m).length = m := by
  have hlt : m < src.length := by
    by_contra hle
    exact hrest (List.drop_eq_nil_of_le (by omega))
  rw [List.length_take]
  omega

/-- The loop stores all of the data unless an allocation fails. -/
private theorem appendChunks_spec (alloc : Nat → Int) (fuel k : Nat) (hm : 0 < m) (ht : Tidy m cs)
    (hlast : src ≠ [] → ∀ i, i + 1 = cs.length → (chunkAt cs i).length = m) (hfuel : src.length ≤ fuel) :
    ∃ error cs' n, appendChunks m alloc fuel k src cs = (error, cs') ∧ Tidy m cs' ∧ cs'.flatten = cs.flatten ++ src.take n ∧
      ((error = effsOk ∧ src.length ≤ n) ∨ (error < 0 ∧ ∃ j, alloc j < 0)) := by
  induction fuel generalizing k src cs with
  | zero => exact ⟨_, _, 0, rfl, ht, (List.append_nil _).symm, .inl ⟨rfl, hfuel⟩⟩
  | succ fuel ih =>
    unfold appendChunks
    by_cases hnil : src = []
    · subst hnil
      exact ⟨_, _, 0, if_pos rfl, ht, (List.append_nil _).symm, .inl ⟨rfl, Nat.le_refl _⟩⟩
    · rw [if_neg hnil]
      by_cases halloc : alloc k < 0
      · exact ⟨_, _, 0, if_pos halloc, ht, (List.append_nil _).symm, .inr ⟨halloc, k, halloc⟩⟩
      · have hshort : (src.take m).length ≤ m := by
          rw [List.length_take]
          omega
        have hpos := List.length_pos_iff.2 hnil
        -- a chunk that another one is put behind is full
        have hfull (hrest : src.drop m ≠ []) (i : Nat) (hi : i + 1 = (cs ++ [src.take m]).length) :
            (chunkAt (cs ++ [src.take m]) i).length = m := by
          rw [List.length_append, List.length_singleton, Nat.add_right_cancel_iff] at hi
          rw [← putChunk_append, chunkAt_putChunk (Nat.le_refl _), if_pos hi, full_piece hrest]
        obtain ⟨error, cs', n, heq, hv, hoct, hend⟩ := @ih (cs ++ [src.take m]) (src.drop m) (k + 1)
          (ht.append hshort fun i hi => .inl (hlast hnil i hi)) hfull (by rw [List.length_drop]; omega)
        rw [if_neg halloc]
        refine ⟨error, cs', m + n, heq, hv, ?_, hend.imp_left fun ⟨hok, hall⟩ => ⟨hok, ?_⟩⟩
        · rw [hoct, List.flatten_append, List.flatten_singleton, List.append_assoc, List.take_add]
        · rw [List.length_drop] at hall
          omega

private theorem ffsFileWrite_locked (bytesFree readonly : Int) (alloc : Nat → Int) (src : List (BitVec 8))
    (option : BitVec 16) (cs : List (List (BitVec 8))) :
    ∃ ret, ffsFileWrite m bytesFree true readonly alloc cs src option = (ret, cs) ∧ ret < 0 := by
  unfold ffsFileWrite
  by_cases hspace : bytesFree < src.length
  · exact ⟨_, if_pos hspace, by decide⟩
  rw [if_neg hspace]
  by_cases hexists : isOpenOption option ffsOCreate ∧ isOpenOption option ffsOExcl
  · exact ⟨_, if_pos hexists, by decide⟩
  rw [if_neg hexists]
  exact ⟨_, if_pos rfl, by decide⟩

/-- What `ffs_file_write` comes to: the file is the data, or the beginning of it, or it is what it was. -/
private theorem ffsFileWrite_spec (bytesFree readonly : Int) (alloc : Nat → Int) (src : List (BitVec 8))
    (option : BitVec 16) (hm : 0 < m) (ht : Tidy m cs) :
    ∃ ret cs', ffsFileWrite m bytesFree false readonly alloc cs src option = (ret, cs') ∧ Tidy m cs' ∧
      ((ret = effsOk ∧ cs'.flatten = src) ∨
        (ret < 0 ∧ ((isOpenOption option ffsOCreate ∧ isOpenOption option ffsOExcl) ∨
          ((∃ j, alloc j < 0) ∨ bytesFree < src.length ∨ readonly < 0)) ∧ (cs' = cs ∨ ∃ n, cs'.flatten = src.take n))) := by
  unfold ffsFileWrite
  by_cases hspace : bytesFree < src.length
  · exact ⟨_, _, if_pos hspace, ht, .inr ⟨by decide, .inr (.inr (.inl hspace)), .inl rfl⟩⟩
  rw [if_neg hspace]
  by_cases hexists : isOpenOption option ffsOCreate ∧ isOpenOption option ffsOExcl
  · exact ⟨_, _, if_pos hexists, ht, .inr ⟨by decide, .inl hexists, .inl rfl⟩⟩
  rw [if_neg hexists, if_neg Bool.false_ne_true]
  by_cases hreadonly : readonly < 0
  · exact ⟨_, _, if_pos hreadonly, ht, .inr ⟨hreadonly, .inr (.inr (.inr hreadonly)), .inl rfl⟩⟩
  rw [if_neg hreadonly]
  by_cases halloc : alloc 0 < 0
  · exact ⟨_, _, if_pos halloc, ht, .inr ⟨halloc, .inr (.inl ⟨0, halloc⟩), .inl rfl⟩⟩
  rw [if_neg halloc]
  have hshort : (src.take m).length ≤ m := by
    rw [List.length_take]
    omega
  have hfull (hrest : src.drop m ≠ []) (i : Nat) (hi : i + 1 = [src.take m].length) :
      (chunkAt [src.take m] i).length = m := by
    obtain rfl : i = 0 := Nat.succ.inj hi
    exact full_piece hrest
  obtain ⟨error, cs', n, heq, hv, hoct, hend⟩ := appendChunks_spec alloc src.length 1 hm
    (tidy_singleton hshort) hfull (by rw [List.length_drop]; omega)
  rw [List.flatten_singleton, ← List.take_add] at hoct
  rcases hend with ⟨rfl, hall⟩ | ⟨herror, hfail⟩
  · rw [List.length_drop] at hall
    exact ⟨_, _, heq, hv, .inl ⟨rfl, by rw [hoct, List.take_of_length_le (by omega)]⟩⟩
  · exact ⟨_, _, heq, hv, .inr ⟨herror, .inr (.inl hfail), .inr ⟨_, hoct⟩⟩⟩

end

/-! ### Opening -/

section
variable {m : Nat} {cs : List (List (BitVec 8))} {option : BitVec 16}

private theorem isOpenOption_iff {w flags : Nat} {options : BitVec w} (h : flags < 2 ^ w) :
    isOpenOption options flags = true ↔ options.toNat &&& flags = flags := by
  unfold isOpenOption
  rw [beq_iff_eq, ← BitVec.toNat_inj, BitVec.toNat_and, BitVec.toNat_ofNat, Nat.mod_eq_of_lt h]

/-- The options of a descriptor are those that the file is opened with. -/
private theorem isOpenOption_truncate {flags : Nat} (h : flags < 2 ^ 8) :
    isOpenOption (option.truncate 8) flags = true ↔ isOpenOption option flags = true := by
  rw [isOpenOption_iff h, isOpenOption_iff (Nat.lt_of_lt_of_le h (by decide)), BitVec.truncate_eq_setWidth,
    BitVec.toNat_setWidth]
  have heq : option.toNat % 2 ^ 8 &&& flags = option.toNat &&& flags := by
    refine Nat.eq_of_testBit_eq fun i => ?_
    rw [Nat.testBit_and, Nat.testBit_and, Nat.testBit_mod_two_pow]
    by_cases hi : i < 8
    · simp only [hi, decide_true, Bool.true_and]
    · have hpow : 2 ^ 8 ≤ 2 ^ i := Nat.pow_le_pow_right (by decide) (by omega)
      have hzero : flags.testBit i = false := Nat.testBit_lt_two_pow (Nat.lt_of_lt_of_le h hpow)
      rw [hzero, Bool.and_false, Bool.and_false]
  rw [heq]

/-- A descriptor for a file that has just been opened. -/
private def Stream.fresh (option : BitVec 16) (memory : Option (List (BitVec 8))) (cs : List (List (BitVec 8))) : Stream :=
  { chunks := cs, options := option.truncate 8, fp := if isOpenOption option ffsOAppend then objectDatasize cs else 0,
    size := objectDatasize cs, wfp := 0, dirty := false, wch := .none, buf := memory.getD [] }

private theorem fresh_valid (ht : Tidy m cs) {memory : Option (List (BitVec 8))}
    (hmemory : ∀ b, memory = some b → m ≤ b.length) (hsome : ¬(isOpenOption option ffsOWronly ∧ memory = none)) :
    (Stream.fresh option memory cs).Valid m := by
  refine ⟨ht, fun hwriter => ?_, fun hd => absurd hd Bool.false_ne_true, ?_, objectDatasize_eq,
    fun hd => absurd hd Bool.false_ne_true⟩
  · have hwriter := (isOpenOption_truncate (by decide)).1 hwriter
    cases hmem : memory with
    | none => exact absurd ⟨hwriter, hmem⟩ hsome
    | some b => exact hmemory b hmem
  · show (if isOpenOption option ffsOAppend then objectDatasize cs else 0) ≤ objectDatasize cs
    split <;> omega

/-- What `ffs_open` comes to. -/
private theorem ffsOpen_spec (alloc : Int) (option : BitVec 16) (fdi : Option Nat) (readonly : Int)
    {memory : Option (List (BitVec 8))} (ht : Tidy m cs) (hmemory : ∀ b, memory = some b → m ≤ b.length) :
    (∃ ret s, ffsOpen alloc cs option fdi readonly memory = (ret, .opened s) ∧ 0 ≤ ret ∧ s.Valid m ∧
      s.options = option.truncate 8 ∧
      (s.whole m).flatten = (if isOpenOption option ffsOTrunc then [] else cs.flatten) ∧
      s.fp = if isOpenOption option ffsOAppend then s.size else 0) ∨
    (∃ ret cs', ffsOpen alloc cs option fdi readonly memory = (ret, .closed cs') ∧ ret < 0 ∧ Tidy m cs' ∧
      (Refused option ∨ alloc < 0 ∨ fdi = none ∨ readonly < 0 ∨ memory = none) ∧
      (cs' = cs ∨ (cs' = [[]] ∧ isOpenOption option ffsOTrunc = true))) := by
  unfold ffsOpen Refused
  simp only
  by_cases hneither : ¬isOpenOption option ffsORdonly ∧ ¬isOpenOption option ffsOWronly
  · exact .inr ⟨_, _, if_pos hneither, by decide, ht, .inl (.inl hneither), .inl rfl⟩
  rw [if_neg hneither]
  by_cases hother : isOpenOption option ffsORdonly ∧ ¬isOpenOption option ffsOWronly ∧ option ≠ BitVec.ofNat 16 ffsORdonly
  · exact .inr ⟨_, _, if_pos hother, by decide, ht, .inl (.inr (.inl hother)), .inl rfl⟩
  rw [if_neg hother]
  cases hfdi : fdi with
  | none => exact .inr ⟨_, _, rfl, by decide, ht, .inr (.inr (.inl rfl)), .inl rfl⟩
  | some fdi =>
    simp only
    by_cases hexists : isOpenOption option ffsOWronly ∧ isOpenOption option (ffsOCreate ||| ffsOExcl)
    · exact .inr ⟨_, _, if_pos hexists, by decide, ht, .inl (.inr (.inr hexists)), .inl rfl⟩
    rw [if_neg hexists]
    by_cases hreadonly : isOpenOption option ffsOWronly ∧ readonly < 0
    · exact .inr ⟨_, _, if_pos hreadonly, hreadonly.2, ht, .inr (.inr (.inr (.inl hreadonly.2))), .inl rfl⟩
    rw [if_neg hreadonly]
    have hret : (0 : Int) ≤ fdi + ffsFdOffset := by
      unfold ffsFdOffset
      omega
    by_cases htrunc : isOpenOption option ffsOTrunc = true
    · rw [if_pos htrunc, if_pos htrunc]
      have hempty : Tidy m [([] : List (BitVec 8))] := tidy_singleton (Nat.zero_le m)
      by_cases halloc : alloc < 0
      · exact .inr ⟨_, _, if_pos halloc, halloc, ht, .inr (.inl halloc), .inl rfl⟩
      rw [if_neg halloc]
      by_cases hnone : isOpenOption option ffsOWronly ∧ memory = none
      · exact .inr ⟨_, _, if_pos hnone, by decide, hempty, .inr (.inr (.inr (.inr hnone.2))), .inr ⟨rfl, htrunc⟩⟩
      · exact .inl ⟨_, _, if_neg hnone, hret, fresh_valid hempty hmemory hnone, rfl, rfl, rfl⟩
    · rw [if_neg htrunc, if_neg htrunc]
      by_cases hnone : isOpenOption option ffsOWronly ∧ memory = none
      · exact .inr ⟨_, _, if_pos hnone, by decide, ht, .inr (.inr (.inr (.inr hnone.2))), .inl rfl⟩
      · exact .inl ⟨_, _, if_neg hnone, hret, fresh_valid ht hmemory hnone, rfl, rfl, rfl⟩

end

/-! ### The calls of a run -/

section
variable {m : Nat} {f : File}

/-- A file whose chunks and whose descriptor are in order. -/
private def File.Valid (m : Nat) : File → Prop
  | .closed chunks => Tidy m chunks
  | .opened s => s.Valid m

/-- What every call comes to. -/
private def Comes (m : Nat) (f : File) (e : StreamEvent) : Prop :=
  ∃ ret data f', f.after m e = some (ret, data, f') ∧ (f.view m).Answers e ret data (f'.view m) ∧ f'.Valid m ∧
    (e.call = .fdatasync → ret = effsOk → ∀ l pointer options, f'.view m = .opened l pointer options → f'.stored = l)

/-- A call that is not `ffs_fdatasync`. -/
private theorem comes_of {e : StreamEvent} (ret : Int) (data : List (BitVec 8)) (f' : File)
    (hafter : f.after m e = some (ret, data, f')) (hanswers : (f.view m).Answers e ret data (f'.view m)) (hv : f'.Valid m)
    (hcall : e.call ≠ .fdatasync) : Comes m f e :=
  ⟨ret, data, f', hafter, hanswers, hv, fun hc => absurd hc hcall⟩

private theorem view_opened {s : Stream} : (File.opened s).view m = .opened (s.whole m).flatten s.fp s.options := rfl

private theorem open_comes {alloc : Nat → Int} {option : BitVec 16} {fdi : Option Nat} {readonly : Int}
    {memory : Option (List (BitVec 8))} (h : f.Valid m) (hs : f.sound m ⟨.open option fdi readonly memory, alloc⟩) :
    Comes m f ⟨.open option fdi readonly memory, alloc⟩ := by
  cases f with
  | opened s => cases hs
  | closed chunks =>
    have hmemory := of_decide_eq_true hs
    rcases ffsOpen_spec (alloc 0) option fdi readonly h hmemory with
      ⟨ret, s, heq, hret, hv, hopt, hoct, hfp⟩ | ⟨ret, cs, heq, hret, ht, hwhy, hcs⟩
    · refine comes_of ret [] (.opened s) ?_ (.inl ⟨hret, ?_⟩) hv (by simp)
      · exact congrArg (fun r => some (r.1, [], r.2)) heq
      · rw [view_opened, hopt, hfp, hv.size, hoct]
    · refine comes_of ret [] (.closed cs) ?_ (.inr ⟨hret, ?_, ?_⟩) ht (by simp)
      · exact congrArg (fun r => some (r.1, [], r.2)) heq
      · rcases hwhy with hrefused | halloc | hwhy
        · exact .inl hrefused
        · exact .inr (.inl ⟨0, halloc⟩)
        · exact .inr (.inr hwhy)
      · rcases hcs with rfl | ⟨rfl, htrunc⟩
        · exact .inl rfl
        · exact .inr (congrArg View.closed (if_pos htrunc).symm)

private theorem fileWrite_comes (hm : 0 < m) {alloc : Nat → Int} {option : BitVec 16} {bytesFree readonly : Int}
    {src : List (BitVec 8)} (h : f.Valid m) : Comes m f ⟨.fileWrite option bytesFree readonly src, alloc⟩ := by
  cases f with
  | opened s =>
    obtain ⟨ret, heq, hret⟩ := ffsFileWrite_locked (m := m) bytesFree readonly alloc src option s.chunks
    refine comes_of ret [] (.opened s) ?_ ⟨hret, rfl⟩ h (by simp)
    exact congrArg (fun r => some (r.1, [], File.opened { s with chunks := r.2 })) heq
  | closed chunks =>
    obtain ⟨ret, cs, heq, ht, hend⟩ := ffsFileWrite_spec bytesFree readonly alloc src option hm h
    refine comes_of ret [] (.closed cs) ?_ ?_ ht (by simp)
    · exact congrArg (fun r => some (r.1, [], File.closed r.2)) heq
    · rcases hend with ⟨hret, hoct⟩ | ⟨hret, hwhy, hcs⟩
      · exact .inl ⟨hret, congrArg View.closed hoct⟩
      · refine .inr ⟨hret, hwhy, ?_⟩
        rcases hcs with rfl | ⟨n, hoct⟩
        · exact .inl rfl
        · exact .inr ⟨n, congrArg View.closed hoct⟩

private theorem fileRead_comes {alloc : Nat → Int} {size : Nat} (h : f.Valid m) : Comes m f ⟨.fileRead size, alloc⟩ := by
  cases f with
  | closed chunks =>
    refine comes_of ((fileRead chunks size).1) ((fileRead chunks size).2) (.closed chunks) rfl ?_ h (by simp)
    rw [fileRead_eq]
    exact ⟨rfl, rfl, rfl⟩
  | opened s =>
    by_cases hwriter : isOpenOption s.options ffsOWronly = true
    · refine comes_of effsLocked [] (.opened s) (if_pos hwriter) ?_ h (by simp)
      show if _ then _ else _
      rw [if_pos hwriter]
      exact ⟨rfl, rfl⟩
    · -- nothing is in the buffer of a file that is read only
      have hclean : s.dirty = false := Bool.eq_false_iff.2 fun hd => hwriter (h.writer hd)
      refine comes_of ((fileRead s.chunks size).1) ((fileRead s.chunks size).2) (.opened s)
        (if_neg hwriter) ?_ h (by simp)
      show if _ then _ else _
      rw [if_neg hwriter, whole_clean hclean, fileRead_eq]
      exact ⟨rfl, rfl, rfl⟩

private theorem close_comes {alloc : Nat → Int} (h : f.Valid m) : Comes m f ⟨.close, alloc⟩ := by
  cases f with
  | closed chunks => exact comes_of _ _ _ rfl ⟨rfl, rfl⟩ h (by simp)
  | opened s =>
    by_cases hwriter : isOpenOption s.options ffsOWronly = true
    · rcases datasync_cases h (alloc 0) with hsync | ⟨halloc, hsync⟩
      · refine comes_of effsOk [] (.closed (s.whole m)) ?_ (.inl ⟨rfl, rfl⟩) h.whole (by simp)
        simp only [File.after, if_pos hwriter, hsync, if_neg (show ¬effsOk < 0 by decide)]
        rfl
      · refine comes_of (alloc 0) [] (.opened s) ?_ (.inr ⟨halloc, .inl ⟨0, halloc⟩, rfl⟩) h (by simp)
        simp only [File.after, if_pos hwriter, hsync, if_pos halloc]
    · have hclean : s.dirty = false := Bool.eq_false_iff.2 fun hd => hwriter (h.writer hd)
      refine comes_of effsOk [] (.closed s.chunks) ?_ (.inl ⟨rfl, ?_⟩) h.tidy (by simp)
      · simp only [File.after, if_neg hwriter, if_neg (show ¬effsOk < 0 by decide)]
      · rw [whole_clean hclean]
        rfl

private theorem write_comes (hm : 0 < m) {alloc : Nat → Int} {src : List (BitVec 8)} (h : f.Valid m) :
    Comes m f ⟨.write src, alloc⟩ := by
  cases f with
  | closed chunks => exact comes_of _ _ _ rfl ⟨rfl, rfl⟩ h (by simp)
  | opened s =>
    by_cases hwriter : isOpenOption s.options ffsOWronly = true
    · obtain ⟨ret, s', heq, hv, hopt, k, hk, hfp, hoct, hend⟩ := ffsWrite_spec src alloc hm h hwriter
      refine comes_of ret [] (.opened s') ?_ ?_ hv (by simp)
      · exact congrArg (Option.map fun r => (r.1, [], File.opened r.2)) heq
      · show if _ then _ else _
        rw [if_neg (by simp [hwriter]), ← h.size]
        refine ⟨k, hk, ?_, hend.imp_right fun ⟨hret, hfail⟩ => ⟨hret, .inl hfail⟩⟩
        rw [view_opened, hoct, hfp, hopt]
    · refine comes_of effsInvalid [] (.opened s) ?_ ?_ h (by simp)
      · have heq : s.ffsWrite m alloc src = some (effsInvalid, s) := if_pos hwriter
        exact congrArg (Option.map fun r => (r.1, [], File.opened r.2)) heq
      · show if _ then _ else _
        rw [if_pos hwriter]
        exact ⟨rfl, rfl⟩

private theorem read_comes (hm : 0 < m) {alloc : Nat → Int} {size : Nat} (h : f.Valid m) :
    Comes m f ⟨.read size, alloc⟩ := by
  cases f with
  | closed chunks => exact comes_of _ _ _ rfl ⟨rfl, rfl⟩ h (by simp)
  | opened s =>
    by_cases hreader : isOpenOption s.options ffsORdonly = true
    · obtain ⟨data, hdata⟩ : ∃ data, ((s.whole m).flatten.drop s.fp).take size = data := ⟨_, rfl⟩
      have heq := streamRead_spec size hm h hreader
      have hsize := h.size
      have hreach := h.reach
      have hlen : data.length ≤ s.size - s.fp := by
        rw [← hdata, List.length_take, List.length_drop]
        omega
      rw [hdata] at heq
      have hv := h.moved (show s.fp + data.length ≤ s.size by omega) fun hd =>
        Nat.le_trans (h.held hd).near (Nat.le_add_right _ _)
      refine comes_of data.length data (.opened { s with fp := s.fp + data.length }) ?_ ?_ hv (by simp)
      · exact congrArg (Option.map fun r => (r.1, r.2.1, File.opened r.2.2)) heq
      · show if _ then _ else _
        rw [if_neg (by simp [hreader])]
        exact ⟨hdata.symm, rfl, rfl⟩
    · refine comes_of effsInvalid [] (.opened s) ?_ ?_ h (by simp)
      · have heq : s.streamRead m size = some (effsInvalid, [], s) := if_pos hreader
        exact congrArg (Option.map fun r => (r.1, r.2.1, File.opened r.2.2)) heq
      · show if _ then _ else _
        rw [if_pos hreader]
        exact ⟨rfl, rfl⟩

private theorem seek_comes {alloc : Nat → Int} {offset whence : Int} (h : f.Valid m) :
    Comes m f ⟨.seek offset whence, alloc⟩ := by
  cases f with
  | closed chunks => exact comes_of _ _ _ rfl ⟨rfl, rfl⟩ h (by simp)
  | opened s =>
    have hsize : (s.whole m).flatten.length = s.size := h.size.symm
    cases htarget : seekTarget s.fp s.size offset whence with
    | none =>
      refine comes_of effsInvalid [] (.opened s) ?_ ?_ h (by simp)
      · have heq : s.ffsSeek m (alloc 0) offset whence = (effsInvalid, s) := by
          unfold Stream.ffsSeek
          rw [htarget]
        exact congrArg (fun r => some (r.1, [], File.opened r.2)) heq
      · simp only [View.Answers, view_opened, hsize, htarget, and_self]
    | some target =>
      obtain ⟨ret, s', heq, hv, hopt, hwhole, hend⟩ := ffsSeek_spec (alloc 0) h htarget
      refine comes_of ret [] (.opened s') ?_ ?_ hv (by simp)
      · exact congrArg (fun r => some (r.1, [], File.opened r.2)) heq
      · simp only [View.Answers, view_opened, hsize, htarget]
        rcases hend with ⟨hret, hfp⟩ | ⟨hret, halloc, hfp⟩
        · exact .inl ⟨hret, by rw [hwhole, hfp, hopt]⟩
        · exact .inr ⟨hret, .inl ⟨0, halloc⟩, by rw [hwhole, hfp, hopt]⟩

private theorem ftruncate_comes (hm : 0 < m) {alloc : Nat → Int} {prealloc length : Int} (h : f.Valid m)
    (hs : f.sound m ⟨.ftruncate prealloc length, alloc⟩) : Comes m f ⟨.ftruncate prealloc length, alloc⟩ := by
  cases f with
  | closed chunks => exact comes_of _ _ _ rfl ⟨rfl, rfl⟩ h (by simp)
  | opened s =>
    have hsound : ¬s.Replaces m length := of_decide_eq_false (Bool.not_eq_true' _ ▸ hs)
    by_cases hinvalid : length < 0 ∨ ¬isOpenOption s.options ffsOWronly ∨ length < s.fp
    · refine comes_of effsInvalid [] (.opened s) ?_ ?_ h (by simp)
      · have heq : s.objectTruncate m prealloc (alloc 0) length = (effsInvalid, s) := by
          unfold Stream.objectTruncate
          by_cases hneg : length < 0
          · exact if_pos hneg
          rw [if_neg hneg]
          by_cases hwriter : ¬isOpenOption s.options ffsOWronly
          · exact if_pos hwriter
          rw [if_neg hwriter]
          exact if_pos ((hinvalid.resolve_left hneg).resolve_left hwriter)
        exact congrArg (fun r => some (r.1, [], File.opened r.2)) heq
      · show if _ then _ else _
        rw [if_pos hinvalid]
        exact ⟨rfl, rfl⟩
    · rw [not_or, not_or, Decidable.not_not] at hinvalid
      obtain ⟨ret, s', heq, hv, hopt, hfp, hend⟩ := objectTruncate_spec prealloc (alloc 0) hm h hinvalid.2.1
        (by omega) hsound
      refine comes_of ret [] (.opened s') ?_ ?_ hv (by simp)
      · exact congrArg (fun r => some (r.1, [], File.opened r.2)) heq
      · show if _ then _ else _
        rw [if_neg (by rw [not_or, not_or, Decidable.not_not]; exact hinvalid)]
        rcases hend with ⟨hret, hoct⟩ | ⟨hret, hwhy, rfl⟩
        · exact .inl ⟨hret, by rw [view_opened, hoct, hfp, hopt]⟩
        · refine .inr ⟨hret, ?_, rfl⟩
          rcases hwhy with hprealloc | halloc
          · exact .inr hprealloc
          · exact .inl ⟨0, halloc⟩

private theorem fdatasync_comes {alloc : Nat → Int} (h : f.Valid m) : Comes m f ⟨.fdatasync, alloc⟩ := by
  cases f with
  | closed chunks => exact ⟨effsBadfd, [], _, rfl, ⟨rfl, rfl⟩, h, fun _ hret => absurd hret (by decide)⟩
  | opened s =>
    rcases datasync_cases h (alloc 0) with hsync | ⟨halloc, hsync⟩
    · refine ⟨effsOk, [], .opened (s.synced m), ?_, .inl ⟨rfl, rfl⟩, h.synced, fun _ _ l pointer options hview => ?_⟩
      · exact congrArg (fun r => some (r.1, [], File.opened r.2)) hsync
      · cases hview
        rfl
    · refine ⟨alloc 0, [], .opened s, ?_, .inr ⟨halloc, .inl ⟨0, halloc⟩, rfl⟩, h, fun _ hret => ?_⟩
      · exact congrArg (fun r => some (r.1, [], File.opened r.2)) hsync
      · rw [hret] at halloc
        exact absurd halloc (by decide)

private theorem every_comes (hm : 0 < m) {e : StreamEvent} (h : f.Valid m) (hs : f.sound m e) : Comes m f e := by
  obtain ⟨call, alloc⟩ := e
  cases call with
  | «open» option fdi readonly memory => exact open_comes h hs
  | close => exact close_comes h
  | write src => exact write_comes hm h
  | read size => exact read_comes hm h
  | seek offset whence => exact seek_comes h
  | ftruncate prealloc length => exact ftruncate_comes hm h hs
  | fdatasync => exact fdatasync_comes h
  | fileWrite option bytesFree readonly src => exact fileWrite_comes hm h
  | fileRead size => exact fileRead_comes h

/-- The chunks and the descriptor of a file are in order in every run. -/
private theorem reach_valid (hm : 0 < m) (h : (streams m).Reach (File.sound m) f) : f.Valid m := by
  refine h.invariant (fun f hinit => ?_) fun f e f' hv hs hstep => ?_
  · obtain ⟨chunks, rfl, ht⟩ := hinit
    exact ht
  · obtain ⟨ret, data, g, hafter, _, hg, _⟩ := every_comes hm hv hs
    have hstep : (f.after m e).map (fun r => r.2.2) = some f' := hstep
    rw [hafter] at hstep
    cases hstep
    exact hg

/-- In every run, a call does to the octets of the file and to the file pointer what it is to do, wherever the octets are. -/
theorem streams_right (hm : 0 < m) (h : (streams m).Reach (File.sound m) f) {e : StreamEvent} (hs : f.sound m e) :
    f.Right m e := by
  obtain ⟨ret, data, f', hafter, hanswers, _, hstored⟩ := every_comes hm (reach_valid hm h) hs
  exact ⟨ret, data, f', hafter, hanswers, hstored⟩

/-- A file of two full chunks behind an empty one, while the last of them is changed. -/
def lastChanged : Stream :=
  { chunks := [[], [1, 2, 3, 4], [5, 6, 7, 8]], options := 0x31, fp := 5, size := 8, wfp := 4, dirty := true, wch := .chunk 2,
    buf := [50, 6, 7, 8] }

private theorem lastChanged_reach : (streams 4).Reach (File.sound 4) (.opened lastChanged) :=
  .of_run (.init ⟨[[]], rfl, tidy_singleton (Nat.zero_le 4)⟩)
    (show (streams 4).run (File.sound 4) (.closed [[]])
      [⟨.open 0x31 (some 0) 0 (some [0, 0, 0, 0]), fun _ => 1⟩, ⟨.write [1, 2, 3, 4, 5, 6, 7, 8], fun _ => 1⟩,
        ⟨.seek 4 0, fun _ => 1⟩, ⟨.write [50], fun _ => 1⟩] = some (.opened lastChanged) by rfl)

theorem streams_right_lastChanged : File.Right 4 (.opened lastChanged) ⟨.read 9, fun _ => 1⟩ :=
  streams_right (by decide) lastChanged_reach rfl

end

/-! ### The truncation that is left out -/

section
variable {m : Nat} {s : Stream}

/-- A truncation to where the file ends on the flash, while the last chunk is full and in the buffer: the buffer is stored in
front of the file then, in place of its first chunk. -/
theorem replaced_misplaced (hm : 0 < m) (h : (streams m).Reach (File.sound m) (.opened s)) {length prealloc : Int}
    (hr : s.Replaces m length) (hplace : 0 < s.place) (hprealloc : 0 < prealloc) {a b : Nat → Int} (ha : 0 ≤ a 0)
    (hb : 0 ≤ b 0) :
    ∃ f f', (File.opened s).after m ⟨.ftruncate prealloc length, a⟩ = some (effsOk, [], f) ∧
      f.after m ⟨.fdatasync, b⟩ = some (effsOk, [], f') ∧ f'.stored = s.buf.take m ++ (s.chunks.drop 1).flatten := by
  have hv : s.Valid m := reach_valid hm h
  obtain ⟨hdirty, hlast, hfull, rfl⟩ := hr
  have hheld := hv.held hdirty
  have hp : s.place < s.chunks.length := by omega
  have hstart := hheld.start
  have hend := startOf_succ hp
  rw [hlast, startOf_length] at hend
  have hsize := size_behind hv (n := s.wfp + m) (by omega) fun _ => Nat.le_refl _
  have hreach := hv.reach
  rw [← hv.size] at hsize
  have hwch : s.wch = .chunk s.place := by
    cases hwch : s.wch with
    | none =>
      rw [place_none hwch] at hp
      omega
    | chunk i => rw [place_chunk hwch]
    | replaced => exact absurd hwch hheld.work
  -- the last chunk is replaced by itself
  have hcut : s.objectTruncate m prealloc (a 0) ((s.wfp + m : Nat) : Int) =
      (effsOk, s.cut s.place [(chunkAt s.chunks s.place).take m] (s.wfp + m)) := by
    obtain ⟨i, o, hseek, hi, hat⟩ := segfileSeek_spec hv.tidy.some (s.wfp + m)
    have hout : ¬s.isOffsetInBuf m (s.wfp + m) = true := by
      unfold Stream.isOffsetInBuf
      rw [Bool.and_eq_true, decide_eq_true_iff]
      omega
    rcases hat with ⟨hlt, _, _⟩ | ⟨_, hi', ho⟩
    · omega
    · obtain rfl : i = s.place := by omega
      unfold Stream.objectTruncate
      rw [if_neg (by omega), if_neg (by simp [hv.writer hdirty]), if_neg (by omega)]
      simp only [Int.toNat_natCast, hseek]
      rw [if_neg hout, if_neg (by omega), if_neg (by omega), if_pos (by omega), if_neg (by omega), if_neg (by omega), ho,
        hfull]
  have hsame : s.chunks.take s.place ++ [(chunkAt s.chunks s.place).take m] = s.chunks := by
    have hself := putChunk_self hp
    unfold putChunk at hself
    rw [List.drop_eq_nil_of_le (by omega)] at hself
    rw [List.take_of_length_le (Nat.le_of_eq hfull), hself]
  have hreplaced : s.cut s.place [(chunkAt s.chunks s.place).take m] (s.wfp + m) =
      { s with size := s.wfp + m, wch := .replaced } := by
    unfold Stream.cut
    simp only [hsame, hwch, Nat.le_refl, if_true]
  have hsync : Stream.datasync m (b 0) { s with size := s.wfp + m, wch := .replaced } =
      (effsOk, { s with chunks := s.chunks.set 0 (s.buf.take m), size := s.wfp + m, dirty := false, wch := .none }) := by
    have hcs : Stream.chunkSize m { s with size := s.wfp + m, wch := .replaced } = m := by
      rw [chunkSize_eq]
      show min (s.wfp + m - s.wfp) m = m
      omega
    unfold Stream.datasync
    rw [if_neg (by simp [hdirty]), if_neg (by omega), hcs]
    rfl
  refine ⟨.opened { s with size := s.wfp + m, wch := .replaced }, .opened { s with
    chunks := s.chunks.set 0 (s.buf.take m), size := s.wfp + m, dirty := false, wch := .none }, ?_, ?_, ?_⟩
  · simp only [File.after]
    rw [← Int.natCast_add, hcut, hreplaced]
  · simp only [File.after, hsync]
  · show (s.chunks.set 0 (s.buf.take m)).flatten = _
    rw [← putChunk_set (by omega), flatten_putChunk]
    rfl

theorem replaced_misplaced_lastChanged :
    ∃ f f', (File.opened lastChanged).after 4 ⟨.ftruncate 1 8, fun _ => 1⟩ = some (effsOk, [], f) ∧
      f.after 4 ⟨.fdatasync, fun _ => 1⟩ = some (effsOk, [], f') ∧
      f'.stored = [50, 6, 7, 8] ++ [1, 2, 3, 4, 5, 6, 7, 8] :=
  replaced_misplaced (by decide) lastChanged_reach (by decide) (by decide) (by decide) (by decide) (by decide)

end

end Citrine.Ffs
