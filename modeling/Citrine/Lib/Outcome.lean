/-!
# Computations that power may interrupt

A computation ends with a result, or with the state in which power was lost.  What holds at the end has two parts, one
for each of the two (`Outcome.Meets`), and the second has to hold at every point at which power may be lost.
-/

namespace Citrine

/-- The end of a computation; one that asks for something that its surroundings cannot give is impossible. -/
inductive Outcome (σ α : Type) where
  | impossible
  | lost (s : σ)
  | done (a : α)

namespace Outcome

variable {σ α β : Type}

/-- A computation that goes on after another one has been done. -/
def andThen (x : Outcome σ α) (f : α → Outcome σ β) : Outcome σ β :=
  match x with
  | impossible => impossible
  | lost s => lost s
  | done a => f a

instance : Monad (Outcome σ) where
  pure := done
  bind := andThen

/-- What holds when the computation is done, and what when power is lost. -/
def Meets (x : Outcome σ α) (P : α → Prop) (C : σ → Prop) : Prop :=
  match x with
  | impossible => True
  | lost s => C s
  | done a => P a

variable {x : Outcome σ α} {f : α → Outcome σ β} {P P' : α → Prop} {Q : β → Prop} {C C' : σ → Prop}

theorem Meets.bind (h : x.Meets P C) (hf : ∀ a, P a → (f a).Meets Q C) : (x >>= f).Meets Q C := by
  cases x with
  | impossible => trivial
  | lost s => exact h
  | done a => exact hf a h

theorem Meets.mono (h : x.Meets P C) (hP : ∀ a, P a → P' a) (hC : ∀ s, C s → C' s) : x.Meets P' C' := by
  cases x with
  | impossible => trivial
  | lost s => exact hC s h
  | done a => exact hP a h

/-- A computation that is done for each element of a list keeps what each of them keeps. -/
theorem Meets.foldlM {I : α → Prop} {g : α → β → Outcome σ α} (l : List β)
    (hg : ∀ a b, b ∈ l → I a → (g a b).Meets I C) {a : α} (h : I a) : (l.foldlM g a).Meets I C := by
  induction l generalizing a with
  | nil => exact h
  | cons b l ih =>
    rw [List.foldlM_cons]
    exact (hg a b List.mem_cons_self h).bind fun a' h' => ih (fun a b hb => hg a b (List.mem_cons_of_mem _ hb)) h'

end Outcome

end Citrine
