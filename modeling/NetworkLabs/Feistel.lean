import Mathlib.Data.List.Iterate
import Mathlib.Data.List.Nodup
import Mathlib.Data.List.Range
import Mathlib.Data.Nat.ModEq
import Mathlib.Data.List.Perm.Subperm
import Mathlib.Tactic.Common

/-! Balanced Feistel networks, and walks along a counter that keep the wanted states. -/
namespace Feistel

variable {α : Type*} {mix : α → α → α} {F : Nat → α → α} {b : α × α}

/-- One round: the halves change places, and one is mixed with the image of the other. -/
def round (mix : α → α → α) (F : Nat → α → α) (i : Nat) (b : α × α) : α × α :=
  (b.2, mix b.1 (F i b.2))

def unround (mix : α → α → α) (F : Nat → α → α) (i : Nat) (b : α × α) : α × α :=
  (mix b.2 (F i b.1), b.1)

/-- The rounds below `n`, one after the other. -/
def rounds (mix : α → α → α) (F : Nat → α → α) : Nat → α × α → α × α
  | 0, b => b
  | n + 1, b => round mix F n (rounds mix F n b)

/-- They are undone from the last to the first. -/
def unrounds (mix : α → α → α) (F : Nat → α → α) : Nat → α × α → α × α
  | 0, b => b
  | n + 1, b => unrounds mix F n (unround mix F n b)

theorem unround_round (hmix : ∀ x y, mix (mix x y) y = x) (i : Nat) (b : α × α) :
    unround mix F i (round mix F i b) = b := by
  simp only [unround, round, hmix]

theorem unrounds_rounds (hmix : ∀ x y, mix (mix x y) y = x) (n : Nat) (b : α × α) :
    unrounds mix F n (rounds mix F n b) = b := by
  induction n with
  | zero => rfl
  | succ n ih => rw [rounds, unrounds, unround_round hmix, ih]

section
variable {P : α → Prop}

/-- Both halves stay where mixing does not lead out of. -/
theorem rounds_closed (hP : ∀ i x y, P x → P y → P (mix x (F i y))) (n : Nat)
    (hb : P b.1 ∧ P b.2) : P (rounds mix F n b).1 ∧ P (rounds mix F n b).2 := by
  induction n with
  | zero => exact hb
  | succ n ih => exact ⟨ih.2, hP n _ _ ih.1 ih.2⟩

end

end Feistel

namespace Walk

variable {σ : Type*} {next : σ → σ} {wanted : σ → Bool} {s t u x : σ} {xs : List σ}

/-- The first wanted state from `s` on and the one behind it, if `fuel` states suffice. -/
def draw (next : σ → σ) (wanted : σ → Bool) : Nat → σ → Option (σ × σ)
  | 0, _ => none
  | fuel + 1, s => if wanted s then some (s, next s) else draw next wanted fuel (next s)

/-- One draw after the other. -/
inductive Draws (next : σ → σ) (wanted : σ → Bool) : σ → List σ → σ → Prop
  | nil {s : σ} : Draws next wanted s [] s
  | cons {s t u x : σ} {xs : List σ} (fuel : Nat) (h : draw next wanted fuel s = some (x, t))
      (hxs : Draws next wanted t xs u) : Draws next wanted s (x :: xs) u

theorem draw_mono {fuel fuel' : Nat} (hle : fuel ≤ fuel') {r : σ × σ}
    (h : draw next wanted fuel s = some r) : draw next wanted fuel' s = some r := by
  induction fuel generalizing fuel' s with
  | zero => cases h
  | succ fuel ih =>
    obtain ⟨fuel', rfl⟩ : ∃ k, fuel' = k + 1 := ⟨fuel' - 1, by omega⟩
    unfold draw at h ⊢
    split at h
    · rename_i hs
      rw [if_pos hs]
      exact h
    · rename_i hs
      rw [if_neg hs]
      exact ih (by omega) h

/-- Draws pass over a state that is not wanted. -/
theorem Draws.skip (hs : wanted s = false) (h : Draws next wanted (next s) xs u) :
    ∃ t, Draws next wanted s xs t := by
  cases h with
  | nil => exact ⟨s, .nil⟩
  | cons fuel h hxs =>
    refine ⟨u, .cons (fuel + 1) ?_ hxs⟩
    rw [draw, if_neg (by simp [hs])]
    exact h

/-- The draws from a state on are the wanted ones of any number of states. -/
theorem draws_iterate (next : σ → σ) (wanted : σ → Bool) (s : σ) (n : Nat) :
    ∃ t, Draws next wanted s ((List.iterate next s n).filter wanted) t := by
  induction n generalizing s with
  | zero => exact ⟨s, .nil⟩
  | succ n ih =>
    obtain ⟨t, ht⟩ := ih (next s)
    rw [List.iterate]
    cases hs : wanted s with
    | false =>
      rw [List.filter_cons_of_neg (by simp [hs])]
      exact ht.skip hs
    | true =>
      rw [List.filter_cons_of_pos hs]
      exact ⟨t, .cons 1 (by rw [draw, if_pos hs]) ht⟩

/-- Draws of the same number are the same. -/
theorem Draws.eq_of_length {ys : List σ} (h : Draws next wanted s xs t)
    (h' : Draws next wanted s ys u) (hlength : xs.length = ys.length) : xs = ys := by
  induction h generalizing ys with
  | nil => exact (List.eq_nil_of_length_eq_zero hlength.symm).symm
  | cons fuel hdraw _ ih =>
    cases h' with
    | nil => cases hlength
    | cons fuel' hdraw' hxs' =>
      have hmax := draw_mono (Nat.le_max_left fuel fuel') hdraw
      have hmax' := draw_mono (Nat.le_max_right fuel fuel') hdraw'
      cases hmax.symm.trans hmax'
      rw [ih hxs' (by simpa using hlength)]

/-- A function with period `n` that is one-to-one on a period takes every value below `n` once on
any `n` consecutive numbers, if it takes no others. -/
theorem perm_of_period {f : Nat → Nat} {n : Nat} (hlt : ∀ i, f i < n)
    (hperiod : ∀ i, f (i % n) = f i)
    (hinj : ∀ i j, i < n → j < n → f i = f j → i = j) (start : Nat) :
    ((List.range' start n).map f).Perm (List.range n) := by
  have hpos : ∀ i, i % n < n := fun i => Nat.mod_lt i (Nat.lt_of_le_of_lt (Nat.zero_le _) (hlt 0))
  have hnodup : ((List.range' start n).map f).Nodup := by
    apply List.Nodup.map_on
    · intro i hi j hj heq
      rw [← hperiod i, ← hperiod j] at heq
      have hmod : i % n = j % n := hinj _ _ (hpos i) (hpos j) heq
      rw [List.mem_range'_1] at hi hj
      exact Nat.ModEq.eq_of_abs_lt hmod (by rw [abs_lt]; omega)
    · exact List.nodup_range'
  apply (List.subperm_of_subset hnodup _).perm_of_length_le
  · simp
  · intro x hx
    obtain ⟨i, -, rfl⟩ := List.mem_map.mp hx
    exact List.mem_range.mpr (hlt i)

end Walk
