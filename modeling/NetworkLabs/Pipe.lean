import Mathlib.Data.List.Infix

/-! A pipe with one buffer: filled when empty, emptied as a whole, or closed. -/
namespace Pipe

/-- What went in, what came out, and what is kept in between; `none` once it is closed. -/
structure State (α : Type) where
  received : List α
  sent : List α
  kept : Option (List α)

variable {α : Type} {s t : State α}

inductive Step : State α → State α → Prop
  | stay (s : State α) : Step s s
  | fill (s : State α) (xs : List α) (h : s.kept = some []) :
      Step s ⟨s.received ++ xs, s.sent, some xs⟩
  | drain (s : State α) (xs : List α) (h : s.kept = some xs) :
      Step s ⟨s.received, s.sent ++ xs, some []⟩
  | close (s : State α) : Step s ⟨s.received, s.sent, none⟩

/-- Nothing is lost, repeated or reordered on the way. -/
def InOrder (s : State α) : Prop :=
  match s.kept with
  | some xs => s.received = s.sent ++ xs
  | none => s.sent <+: s.received

theorem InOrder.sent_initial (h : InOrder s) : s.sent <+: s.received := by
  unfold InOrder at h
  split at h
  · exact ⟨_, h.symm⟩
  · exact h

theorem inOrder_step (h : Step s t) (hs : InOrder s) : InOrder t := by
  cases h with
  | stay => exact hs
  | fill xs hk =>
    simp only [InOrder, hk] at hs ⊢
    simp [hs]
  | drain xs hk =>
    simp only [InOrder, hk] at hs ⊢
    simp [hs]
  | close => exact hs.sent_initial

end Pipe
