import Mathlib.Order.Lattice
import Mathlib.Data.List.Basic

/-! Maps as lists of entries in the order of their keys. -/

structure OrderedMap (κ ν : Type*) [LinearOrder κ] where
  entries : List (κ × ν)
  sorted : entries.Pairwise fun a b => a.1 < b.1

namespace OrderedMap

variable {κ ν : Type*} [LinearOrder κ] {k : κ} {v : ν} {e : κ × ν} {es : List (κ × ν)}
  {m : OrderedMap κ ν}

def insertEntry (k : κ) (v : ν) : List (κ × ν) → List (κ × ν)
  | [] => [(k, v)]
  | e :: es =>
    if k < e.1 then (k, v) :: e :: es
    else if k = e.1 then (k, v) :: es
    else e :: insertEntry k v es

theorem mem_insertEntry (hs : es.Pairwise fun a b => a.1 < b.1) :
    e ∈ insertEntry k v es ↔ e = (k, v) ∨ (e ∈ es ∧ e.1 ≠ k) := by
  induction es with
  | nil => simp [insertEntry]
  | cons e' es ih =>
    obtain ⟨hlt, hs⟩ := List.pairwise_cons.mp hs
    rw [insertEntry]
    split
    · rename_i hk
      have hne : ∀ e ∈ e' :: es, e.1 ≠ k := by
        intro e he
        rcases List.mem_cons.mp he with rfl | he
        · exact ne_of_gt hk
        · exact ne_of_gt (lt_trans hk (hlt e he))
      rw [List.mem_cons]
      exact or_congr_right ⟨fun he => ⟨he, hne e he⟩, And.left⟩
    split
    · rename_i hk
      have hne : ∀ e ∈ es, e.1 ≠ k := fun e he => hk ▸ ne_of_gt (hlt e he)
      rw [List.mem_cons, List.mem_cons]
      refine or_congr_right ⟨fun he => ⟨.inr he, hne e he⟩, ?_⟩
      rintro ⟨rfl | he, hek⟩
      · exact absurd hk.symm hek
      · exact he
    · rename_i hk
      rw [List.mem_cons, List.mem_cons, ih hs]
      constructor
      · rintro (rfl | rfl | ⟨he, hek⟩)
        · exact .inr ⟨.inl rfl, Ne.symm hk⟩
        · exact .inl rfl
        · exact .inr ⟨.inr he, hek⟩
      · rintro (rfl | ⟨rfl | he, hek⟩)
        · exact .inr (.inl rfl)
        · exact .inl rfl
        · exact .inr (.inr ⟨he, hek⟩)

theorem sorted_insertEntry (hs : es.Pairwise fun a b => a.1 < b.1) (k : κ) (v : ν) :
    (insertEntry k v es).Pairwise fun a b => a.1 < b.1 := by
  induction es with
  | nil => simp [insertEntry]
  | cons e es ih =>
    obtain ⟨hlt, hes⟩ := List.pairwise_cons.mp hs
    rw [insertEntry]
    split
    · rename_i hk
      refine List.pairwise_cons.mpr ⟨fun e' he' => ?_, hs⟩
      rcases List.mem_cons.mp he' with rfl | he'
      · exact hk
      · exact lt_trans hk (hlt e' he')
    split
    · rename_i hk
      exact List.pairwise_cons.mpr ⟨fun e' he' => hk ▸ hlt e' he', hes⟩
    · rename_i hle hk
      refine List.pairwise_cons.mpr ⟨fun e' he' => ?_, ih hes⟩
      rcases (mem_insertEntry hes).mp he' with rfl | ⟨he', -⟩
      · exact lt_of_le_of_ne (not_lt.mp hle) (Ne.symm hk)
      · exact hlt e' he'

def empty : OrderedMap κ ν := ⟨[], .nil⟩

def put (m : OrderedMap κ ν) (k : κ) (v : ν) : OrderedMap κ ν :=
  ⟨insertEntry k v m.entries, sorted_insertEntry m.sorted k v⟩

def remove (m : OrderedMap κ ν) (k : κ) : OrderedMap κ ν :=
  ⟨m.entries.filter fun e => e.1 ≠ k, m.sorted.filter _⟩

theorem mem_put : e ∈ (m.put k v).entries ↔ e = (k, v) ∨ (e ∈ m.entries ∧ e.1 ≠ k) :=
  mem_insertEntry m.sorted

theorem mem_remove : e ∈ (m.remove k).entries ↔ e ∈ m.entries ∧ e.1 ≠ k := by
  simp [remove]

end OrderedMap
