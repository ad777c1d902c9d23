import Mathlib.Data.Finset.Card
import Mathlib.Tactic.Common

/-! A loop over finitely many states stops within as many passes as there are states, or never. -/
namespace Orbit

variable {α : Type*} {next : α → Option α} {a b : α} {n k : Nat}

/-- Whether the loop is over within `n` passes. -/
def stops (next : α → Option α) : Nat → α → Bool
  | 0, _ => false
  | n + 1, a =>
    match next a with
    | none => true
    | some b => stops next n b

theorem stops_succ (h : next a = some b) : stops next (n + 1) a = stops next n b := by
  rw [stops, h]

theorem stops_mono (hle : n ≤ k) (h : stops next n a) : stops next k a := by
  induction n generalizing a k with
  | zero => cases h
  | succ n ih =>
    obtain ⟨k, rfl⟩ := Nat.exists_eq_add_of_le' (Nat.lt_of_lt_of_le n.succ_pos hle)
    cases hnext : next a with
    | none => simp [stops, hnext]
    | some b =>
      rw [stops_succ hnext] at h ⊢
      exact ih (by omega) h

/-- The loop goes on `k` times. -/
def Takes (next : α → Option α) (a : α) (k : Nat) : Prop := stops next (k + 1) a ∧ ¬ stops next k a

theorem Takes.unique (h : Takes next a n) (h' : Takes next a k) : n = k := by
  rcases Nat.lt_trichotomy n k with hlt | rfl | hlt
  · exact absurd (stops_mono hlt h.1) h'.2
  · rfl
  · exact absurd (stops_mono hlt h'.1) h.2

theorem exists_takes (h : stops next n a) : ∃ k, Takes next a k := by
  induction n with
  | zero => cases h
  | succ n ih =>
    by_cases hn : stops next n a
    · exact ih hn
    · exact ⟨n, h, hn⟩

variable {P : α → Prop}

/-- Where it always goes on and stays, it is never over. -/
theorem not_stops (hgoes : ∀ x, P x → ∃ y, next x = some y ∧ P y) (h : P a) : ¬ stops next n a := by
  induction n generalizing a with
  | zero => exact Bool.false_ne_true
  | succ n ih =>
    obtain ⟨b, hnext, hb⟩ := hgoes a h
    rw [stops_succ hnext]
    exact ih hb

/-- The states from which it goes on are all different. -/
theorem Takes.states (hclosed : ∀ x y, P x → next x = some y → P y) (hP : P a)
    (h : Takes next a k) : ∃ as : List α, as.length = k ∧ as.Nodup ∧
      ∀ x ∈ as, P x ∧ (next x).isSome ∧ ∃ j, j ≤ k ∧ Takes next x j := by
  induction k generalizing a with
  | zero => exact ⟨[], rfl, .nil, fun x hx => by cases hx⟩
  | succ k ih =>
    cases hnext : next a with
    | none =>
      refine absurd ?_ h.2
      simp [stops, hnext]
    | some b =>
      have hb : Takes next b k := by
        rw [Takes, stops_succ hnext, stops_succ hnext] at h
        exact h
      obtain ⟨as, hlength, hnodup, has⟩ := ih (hclosed a b hP hnext) hb
      refine ⟨a :: as, by rw [List.length_cons, hlength], .cons (fun hmem => ?_) hnodup, ?_⟩
      · obtain ⟨-, -, j, hj, htakes⟩ := has a hmem
        have heq := htakes.unique h
        omega
      · intro x hx
        rcases List.mem_cons.mp hx with rfl | hx
        · exact ⟨hP, by rw [hnext]; rfl, k + 1, Nat.le_refl _, h⟩
        · obtain ⟨hPx, hsome, j, hj, htakes⟩ := has x hx
          exact ⟨hPx, hsome, j, by omega, htakes⟩

theorem stops_card (s : Finset α) (hclosed : ∀ x y, P x → next x = some y → P y)
    (hs : ∀ x, P x → (next x).isSome → x ∈ s) (hP : P a) (h : stops next n a) :
    stops next (s.card + 1) a := by
  classical
  obtain ⟨k, htakes⟩ := exists_takes h
  obtain ⟨as, rfl, hnodup, has⟩ := htakes.states hclosed hP
  have hsub : as.toFinset ⊆ s := by
    intro x hx
    obtain ⟨hPx, hsome, -⟩ := has x (List.mem_toFinset.mp hx)
    exact hs x hPx hsome
  have hcard := Finset.card_le_card hsub
  rw [List.toFinset_card_of_nodup hnodup] at hcard
  exact stops_mono (by omega) htakes.1

end Orbit
