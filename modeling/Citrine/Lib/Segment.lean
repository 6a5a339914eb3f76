/-!
# Segmentation and reassembly

A message is cut into chunks; every chunk but the last goes out with the more flag set.  The receiver collects
chunks and completes a message at a chunk without the flag.  The key fact is `reassemble_prefix`: from a prefix of
the segments of some messages the receiver completes a prefix of the messages.
-/

namespace Citrine

variable {α : Type}

/-- A chunk with its more flag. -/
abbrev Segment (α : Type) := List α × Bool

/-- The segments of one message. -/
def marked : List (List α) → List (Segment α)
  | [] => []
  | [c] => [(c, false)]
  | c :: d :: cs => (c, true) :: marked (d :: cs)

/-- The segments of a list of messages. -/
def segments (msgs : List (List (List α))) : List (Segment α) := msgs.flatMap marked

/-- What a receiver has: the completed messages and the beginning of the next one. -/
structure Assembly (α : Type) where
  complete : List (List α)
  rest : List α
  deriving DecidableEq

/-- The receiver takes one segment. -/
def Assembly.take (a : Assembly α) (s : Segment α) : Assembly α :=
  if s.2 then { a with rest := a.rest ++ s.1 } else { complete := a.complete ++ [a.rest ++ s.1], rest := [] }

/-- What the receiver has after a list of segments. -/
def reassemble (l : List (Segment α)) : Assembly α := l.foldl Assembly.take ⟨[], []⟩

@[simp] theorem reassemble_nil : reassemble ([] : List (Segment α)) = ⟨[], []⟩ := rfl

theorem reassemble_append_singleton (l : List (Segment α)) (s : Segment α) :
    reassemble (l ++ [s]) = (reassemble l).take s := by
  simp [reassemble]

private theorem foldl_complete_prefix (l : List (Segment α)) (a : Assembly α) :
    a.complete <+: (l.foldl Assembly.take a).complete := by
  induction l generalizing a with
  | nil => exact List.prefix_rfl
  | cons s l ih =>
    refine List.IsPrefix.trans ?_ (ih (a.take s))
    unfold Assembly.take
    split
    · exact List.prefix_rfl
    · exact List.prefix_append _ _

private theorem foldl_marked {chunks : List (List α)} (h : chunks ≠ []) (a : Assembly α) :
    (marked chunks).foldl Assembly.take a = ⟨a.complete ++ [a.rest ++ chunks.flatten], []⟩ := by
  induction chunks generalizing a with
  | nil => exact absurd rfl h
  | cons c cs ih =>
    cases cs with
    | nil => simp [marked, Assembly.take]
    | cons d cs =>
      have hm : marked (c :: d :: cs) = (c, true) :: marked (d :: cs) := rfl
      rw [hm, List.foldl_cons, ih (by simp)]
      simp [Assembly.take]

private theorem foldl_segments {msgs : List (List (List α))} (h : ∀ m ∈ msgs, m ≠ []) (done : List (List α)) :
    (segments msgs).foldl Assembly.take ⟨done, []⟩ = ⟨done ++ msgs.map List.flatten, []⟩ := by
  induction msgs generalizing done with
  | nil => simp [segments]
  | cons m ms ih =>
    have hs : segments (m :: ms) = marked m ++ segments ms := rfl
    rw [hs, List.foldl_append, foldl_marked (h m (by simp)), ih (fun x hx => h x (by simp [hx]))]
    simp

/-- All segments together give back the messages. -/
theorem reassemble_segments {msgs : List (List (List α))} (h : ∀ m ∈ msgs, m ≠ []) :
    reassemble (segments msgs) = ⟨msgs.map List.flatten, []⟩ := by
  unfold reassemble
  rw [foldl_segments h]
  rfl

/-- A receiver that got a prefix of the segments has completed a prefix of the messages. -/
theorem reassemble_prefix {msgs : List (List (List α))} (h : ∀ m ∈ msgs, m ≠ []) {l : List (Segment α)}
    (hl : l <+: segments msgs) : (reassemble l).complete <+: msgs.map List.flatten := by
  obtain ⟨l', hl'⟩ := hl
  have hp := foldl_complete_prefix l' (reassemble l)
  unfold reassemble at hp
  rw [← List.foldl_append, hl'] at hp
  have hs := reassemble_segments h
  unfold reassemble at hs
  rw [hs] at hp
  exact hp

/-! ### Chunks of a fixed size -/

/-- A message in chunks of `n`; the last one may be shorter. -/
def chunks (n : Nat) (l : List α) : List (List α) :=
  if 0 < n ∧ n < l.length then l.take n :: chunks n (l.drop n) else [l]
termination_by l.length
decreasing_by
  rename_i h
  rw [List.length_drop]
  omega

theorem chunks_of_le {n : Nat} {l : List α} (h : l.length ≤ n) : chunks n l = [l] := by
  unfold chunks
  rw [if_neg (by omega)]

theorem chunks_of_lt {n : Nat} {l : List α} (hn : 0 < n) (h : n < l.length) :
    chunks n l = l.take n :: chunks n (l.drop n) := by
  rw [chunks, if_pos ⟨hn, h⟩]

theorem chunks_ne_nil (n : Nat) (l : List α) : chunks n l ≠ [] := by
  unfold chunks
  split <;> simp

/-- The chunks of a message are the message. -/
theorem flatten_chunks (n : Nat) (l : List α) : (chunks n l).flatten = l := by
  induction l using chunks.induct n with
  | case1 l h ih => rw [chunks_of_lt h.1 h.2, List.flatten_cons, ih, List.take_append_drop]
  | case2 l h =>
    unfold chunks
    rw [if_neg h]
    simp

/-- The segments of a message that fits one chunk. -/
theorem marked_chunks_of_le {n : Nat} {l : List α} (h : l.length ≤ n) : marked (chunks n l) = [(l, false)] := by
  rw [chunks_of_le h]
  rfl

/-- The segments of a longer message. -/
theorem marked_chunks_of_lt {n : Nat} {l : List α} (hn : 0 < n) (h : n < l.length) :
    marked (chunks n l) = (l.take n, true) :: marked (chunks n (l.drop n)) := by
  rw [chunks_of_lt hn h]
  cases hc : chunks n (l.drop n) with
  | nil => exact absurd hc (chunks_ne_nil n _)
  | cons d cs => rfl

/-- No chunk is longer than the chunk size. -/
theorem length_le_of_mem_marked_chunks {n : Nat} {l : List α} (hn : 0 < n) {s : Segment α}
    (h : s ∈ marked (chunks n l)) : s.1.length ≤ n := by
  induction l using chunks.induct n with
  | case1 l hl ih =>
    rw [marked_chunks_of_lt hl.1 hl.2] at h
    rcases List.mem_cons.1 h with rfl | h
    · exact List.length_take_le n l
    · exact ih h
  | case2 l hl =>
    have hle : l.length ≤ n := by omega
    rw [marked_chunks_of_le hle, List.mem_singleton] at h
    subst h
    exact hle

end Citrine
