import Mathlib.Data.Multiset.MapFold
import Mathlib.Data.Multiset.AddSub
import Mathlib.Tactic.Common

/-! Jobs that are attempted again and again, with a wait behind each attempt. -/
namespace Retry

structure Attempt (κ : Type*) where
  key : κ
  thrown : Bool
  time : Int

/-- A job with the number of its attempts so far and, while it waits, until when. -/
structure Job (κ : Type*) where
  key : κ
  attempts : Nat
  waits : Option Int

variable {κ : Type*} [DecidableEq κ] {timeout : Int} {limit : Nat} {js : Multiset (Job κ)}
  {as : List (Attempt κ)} {j : Job κ} {k : κ} {c : Nat} {w : Option Int} {issued issued' : κ → Prop}

/-- The attempts at one job. -/
def made (as : List (Attempt κ)) (k : κ) : List (Attempt κ) := as.filter fun a => a.key = k

/-- A job knows the number of the attempts at it, and while it waits it does so until `timeout`
after each of them. -/
structure Job.Right (timeout : Int) (limit : Nat) (as : List (Attempt κ)) (j : Job κ) : Prop where
  attempts : (made as j.key).length = j.attempts
  limit : j.attempts ≤ limit
  waits : ∀ t, j.waits = some t → ∀ a ∈ made as j.key, a.time + timeout ≤ t

/-- Jobs and attempts have keys that were issued, and no two jobs have the same one. -/
structure Balanced (issued : κ → Prop) (timeout : Int) (limit : Nat) (js : Multiset (Job κ))
    (as : List (Attempt κ)) : Prop where
  attempted : ∀ a ∈ as, issued a.key
  known : ∀ j ∈ js, issued j.key
  nodup : (js.map Job.key).Nodup
  right : ∀ j ∈ js, j.Right timeout limit as

theorem made_append (as bs : List (Attempt κ)) (k : κ) :
    made (as ++ bs) k = made as k ++ made bs k := List.filter_append as bs

theorem made_of_ne {a : Attempt κ} (h : a.key ≠ k) : made [a] k = [] := by
  simp [made, h]

theorem made_self (a : Attempt κ) : made [a] a.key = [a] := by
  simp [made]

theorem balanced_zero : Balanced issued timeout limit 0 [] := by
  refine ⟨?_, ?_, ?_, ?_⟩ <;> simp

theorem balanced_cons : Balanced issued timeout limit (j ::ₘ js) as ↔
    (issued j.key ∧ j.key ∉ js.map Job.key) ∧ j.Right timeout limit as ∧
      Balanced issued timeout limit js as := by
  constructor
  · intro h
    have hself := Multiset.mem_cons_self j js
    have hnodup := h.nodup
    rw [Multiset.map_cons, Multiset.nodup_cons] at hnodup
    exact ⟨⟨h.known j hself, hnodup.1⟩, h.right j hself, h.attempted,
      fun j' hj' => h.known j' (Multiset.mem_cons_of_mem hj'), hnodup.2,
      fun j' hj' => h.right j' (Multiset.mem_cons_of_mem hj')⟩
  · rintro ⟨⟨hissued, hkey⟩, hright, hjs⟩
    refine ⟨hjs.attempted, fun j' hj' => ?_, ?_, fun j' hj' => ?_⟩
    · rcases Multiset.mem_cons.mp hj' with rfl | hj'
      · exact hissued
      · exact hjs.known j' hj'
    · rw [Multiset.map_cons, Multiset.nodup_cons]
      exact ⟨hkey, hjs.nodup⟩
    · rcases Multiset.mem_cons.mp hj' with rfl | hj'
      · exact hright
      · exact hjs.right j' hj'

namespace Balanced

theorem mono (h : Balanced issued timeout limit js as) (hk : ∀ k, issued k → issued' k) :
    Balanced issued' timeout limit js as :=
  ⟨fun a ha => hk _ (h.attempted a ha), fun j hj => hk _ (h.known j hj), h.nodup, h.right⟩

theorem drop (h : Balanced issued timeout limit (j ::ₘ js) as) :
    Balanced issued timeout limit js as := (balanced_cons.mp h).2.2

/-- A new job has a key that was not issued before. -/
theorem issue (h : Balanced issued timeout limit js as) (hnew : ¬ issued k)
    (hk : ∀ k, issued k → issued' k) (hissued : issued' k) :
    Balanced issued' timeout limit (⟨k, 0, none⟩ ::ₘ js) as := by
  have hmade : made as k = [] := by
    rw [made, List.filter_eq_nil_iff]
    intro a ha heq
    exact hnew (of_decide_eq_true heq ▸ h.attempted a ha)
  have hkey : k ∉ js.map Job.key := by
    intro hmem
    obtain ⟨j, hj, rfl⟩ := Multiset.mem_map.mp hmem
    exact hnew (h.known j hj)
  refine balanced_cons.mpr ⟨⟨hissued, hkey⟩, ⟨?_, Nat.zero_le _, nofun⟩, h.mono hk⟩
  rw [hmade, List.length_nil]

/-- An attempt counts for its own job alone. -/
theorem attempt (h : Balanced issued timeout limit (⟨k, c, w⟩ ::ₘ js) as) (hlimit : c < limit)
    (thrown : Bool) (time : Int) :
    Balanced issued timeout limit (⟨k, c + 1, none⟩ ::ₘ js) (as ++ [⟨k, thrown, time⟩]) := by
  obtain ⟨⟨hissued, hkey⟩, hright, hjs⟩ := balanced_cons.mp h
  refine balanced_cons.mpr ⟨⟨hissued, hkey⟩, ⟨?_, hlimit, nofun⟩, fun a ha => ?_, hjs.known,
    hjs.nodup, fun j hj => ?_⟩
  · rw [made_append, made_self ⟨k, thrown, time⟩, List.length_append, hright.attempts]
    rfl
  · rcases List.mem_append.mp ha with ha | ha
    · exact hjs.attempted a ha
    · obtain rfl := List.mem_singleton.mp ha
      exact hissued
  · have hmem := Multiset.mem_map_of_mem Job.key hj
    have hne : k ≠ j.key := by
      rintro rfl
      exact hkey hmem
    have hother : made (as ++ [⟨k, thrown, time⟩]) j.key = made as j.key := by
      rw [made_append, made_of_ne hne, List.append_nil]
    obtain ⟨hattempts, hlimit', hwaits⟩ := hjs.right j hj
    exact ⟨hother ▸ hattempts, hlimit', hother ▸ hwaits⟩

theorem sleep (h : Balanced issued timeout limit (⟨k, c, w⟩ ::ₘ js) as) {time : Int}
    (hpast : ∀ a ∈ as, a.time ≤ time) :
    Balanced issued timeout limit (⟨k, c, some (time + timeout)⟩ ::ₘ js) as := by
  obtain ⟨hkey, hright, hjs⟩ := balanced_cons.mp h
  refine balanced_cons.mpr ⟨hkey, ⟨hright.attempts, hright.limit, fun t ht a ha => ?_⟩, hjs⟩
  have hle := hpast a (List.mem_of_mem_filter ha)
  cases ht
  omega

theorem wake (h : Balanced issued timeout limit (⟨k, c, w⟩ ::ₘ js) as) :
    Balanced issued timeout limit (⟨k, c, none⟩ ::ₘ js) as := by
  obtain ⟨hkey, hright, hjs⟩ := balanced_cons.mp h
  exact balanced_cons.mpr ⟨hkey, ⟨hright.attempts, hright.limit, nofun⟩, hjs⟩

end Balanced

/-- The attempts that went through. -/
def through (as : List (Attempt κ)) (k : κ) : List (Attempt κ) :=
  (made as k).filter fun a => a.thrown = false

/-- All went through exactly if none was thrown. -/
theorem length_through_iff {n : Nat} (h : (made as k).length = n) :
    (through as k).length = n ↔ ∀ a ∈ as, a.key = k → a.thrown = false := by
  rw [through, ← h, List.length_filter_eq_length_iff]
  simp [made]

end Retry
