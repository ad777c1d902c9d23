import Mathlib.Logic.Function.Iterate
import NetworkLabs.Dns.Records
import NetworkLabs.Selection

/-! The places of the records of a packet, and the loops over them. -/
namespace NetworkLabs.Dns

open Selection Function

variable {data : List UInt8} {p q n j k fuel : Nat}

namespace Label

theorem skip_le (data : List UInt8) (p : Nat) : skip data p ≤ data.length := by
  unfold skip
  split
  · exact Nat.le_refl _
  · split
    · split
      · exact Nat.le_refl _
      · split
        · exact Nat.le_refl _
        · omega
    · exact Nat.le_refl _

theorem expand_le (n p : Nat) : (expand data n p).2 ≤ data.length := by
  fun_induction expand data n p with
  | case1 | case2 | case4 | case6 => exact Nat.le_refl _
  | case3 n p b hb hlabel hlong =>
    obtain ⟨hlt, -⟩ := List.getElem?_eq_some_iff.mp hb
    dsimp only
    omega
  | case5 _ _ _ _ _ _ _ _ ih => exact ih

end Label

namespace Domain

theorem skipLoop_bounds (hp : p < data.length) :
    p < skipLoop data fuel p ∧ skipLoop data fuel p ≤ data.length := by
  induction fuel generalizing p with
  | zero => exact ⟨hp, Nat.le_refl _⟩
  | succ fuel ih =>
    unfold skipLoop
    split
    · exact ⟨hp, Nat.le_refl _⟩
    · rename_i b _
      by_cases hshort : b.toNat < 64
      · rw [if_pos hshort]
        by_cases hroot : b.toNat = 0
        · rw [if_pos hroot]
          omega
        · rw [if_neg hroot]
          by_cases hfits : b.toNat < data.length - (p + 1)
          · rw [if_pos hfits]
            have hrest : p + 1 + b.toNat < data.length := by omega
            have hih := ih hrest
            omega
          · rw [if_neg hfits]
            omega
      · rw [if_neg hshort]
        by_cases hreserved : b.toNat < 192
        · rw [if_pos hreserved]
          omega
        · rw [if_neg hreserved]
          by_cases htwo : data.length - p < 2
          · rw [if_pos htwo]
            omega
          · rw [if_neg htwo]
            omega

theorem skip_bounds (hp : p < data.length) : p < skip data p ∧ skip data p ≤ data.length :=
  skipLoop_bounds hp

end Domain

namespace Record

/-- The next record is further behind, and not behind the end. -/
theorem skip_bounds (hp : p < data.length) : p < skip data p ∧ skip data p ≤ data.length := by
  obtain ⟨hlt, hle⟩ := Domain.skip_bounds hp
  unfold skip len
  dsimp only
  by_cases hfour : data.length - Domain.skip data p < 4
  · rw [if_pos hfour]
    omega
  rw [if_neg hfour]
  by_cases hquestion : Domain.skip data p + 4 ≤ qend data
  · rw [if_pos hquestion]
    omega
  rw [if_neg hquestion]
  by_cases hsix : data.length - (Domain.skip data p + 4) < 6
  · rw [if_pos hsix]
    omega
  rw [if_neg hsix]
  by_cases hrd : data.length - (Domain.skip data p + 10) < number data 2 (Domain.skip data p + 8)
  · rw [if_pos hrd]
    omega
  · rw [if_neg hrd]
    omega

theorem parse_dn {r : Record} (h : parse data p = .ok r) : r.dn = p ∧ p < data.length := by
  unfold parse at h
  dsimp only at h
  split at h
  · cases h
  rename_i hp
  refine ⟨?_, by omega⟩
  split at h
  · cases h
    rfl
  split at h
  · cases h
  split at h
  · cases h
  · cases h
    rfl

end Record

/-- In a packet of less than 65536 bytes the places that the loops come to fit in an
`unsigned short`. -/
theorem places_short (hshort : data.length < 65536) (hp : p < data.length) :
    Label.skip data p < 65536 ∧ (Label.expand data n p).2 < 65536 ∧ Domain.skip data p < 65536 ∧
      Record.skip data p < 65536 :=
  ⟨Nat.lt_of_le_of_lt (Label.skip_le data p) hshort,
    Nat.lt_of_le_of_lt (Label.expand_le n p) hshort,
    Nat.lt_of_le_of_lt (Domain.skip_bounds hp).2 hshort,
    Nat.lt_of_le_of_lt (Record.skip_bounds hp).2 hshort⟩

/-- The places of the records from `p` on. -/
def places (data : List UInt8) : Nat → Nat → List Nat
  | 0, _ => []
  | n + 1, p => if p < data.length then p :: places data n (Record.skip data p) else []

theorem places_congr (n k : Nat) (hn : data.length - p ≤ n) (hk : data.length - p ≤ k) :
    places data n p = places data k p := by
  induction n generalizing p k with
  | zero =>
    cases k with
    | zero => rfl
    | succ k => rw [places, places, if_neg (by omega)]
  | succ n ih =>
    cases k with
    | zero => rw [places, places, if_neg (by omega)]
    | succ k =>
      unfold places
      by_cases hp : p < data.length
      · have hskip := Record.skip_bounds hp
        rw [if_pos hp, if_pos hp, ih k (by omega) (by omega)]
      · rw [if_neg hp, if_neg hp]

/-- All the places from `p` on. -/
def placesFrom (data : List UInt8) (p : Nat) : List Nat := places data data.length p

theorem placesFrom_of_lt (hp : p < data.length) :
    placesFrom data p = p :: placesFrom data (Record.skip data p) := by
  have hskip := Record.skip_bounds hp
  obtain ⟨n, hn⟩ : ∃ n, data.length = n + 1 := ⟨data.length - 1, by omega⟩
  unfold placesFrom
  rw [places_congr _ (n + 1) (by omega) (by omega), places, if_pos hp,
    places_congr n data.length (by omega) (by omega)]

theorem placesFrom_of_le (hp : data.length ≤ p) : placesFrom data p = [] := by
  rw [placesFrom, places_congr _ 0 (by omega) (by omega), places]

theorem mem_places (h : q ∈ places data n p) : p ≤ q ∧ q < data.length := by
  induction n generalizing p with
  | zero => cases h
  | succ n ih =>
    unfold places at h
    split at h
    · rename_i hp
      have hskip := Record.skip_bounds hp
      rcases List.mem_cons.mp h with rfl | h
      · exact ⟨Nat.le_refl _, hp⟩
      · have hrest := ih h
        omega
    · cases h

/-- What follows a record from `p` on are records from `p` on. -/
theorem places_skip_subset (hn : data.length - p ≤ n) (hq : q ∈ places data n p) :
    placesFrom data (Record.skip data q) ⊆ places data n p := by
  induction n generalizing p with
  | zero => cases hq
  | succ n ih =>
    unfold places at hq ⊢
    split at hq
    · rename_i hp
      have hskip := Record.skip_bounds hp
      rw [if_pos hp]
      rcases List.mem_cons.mp hq with rfl | hq
      · rw [placesFrom, places_congr data.length n (by omega) (by omega)]
        exact List.subset_cons_self _ _
      · exact fun x hx => List.mem_cons_of_mem p (ih (by omega) hq hx)
    · cases hq

theorem places_pairwise (data : List UInt8) (n p : Nat) : (places data n p).Pairwise (· < ·) := by
  induction n generalizing p with
  | zero => exact .nil
  | succ n ih =>
    unfold places
    split
    · rename_i hp
      refine .cons (fun q hq => ?_) (ih _)
      exact Nat.lt_of_lt_of_le (Record.skip_bounds hp).1 (mem_places hq).1
    · exact .nil

namespace Iter

variable {i : Iter} {look : Nat → Option (Option Record)} {want : Nat → Option Record} {r : Record}
  {rs : List Record}

theorem seek_eq (n p : Nat) (hlook : ∀ q ∈ places data n p, look q = some (want q)) :
    seek data look n p = some ((places data n p).filterMap want).head? := by
  induction n generalizing p with
  | zero => rfl
  | succ n ih =>
    unfold places at hlook
    unfold seek places
    split
    · rename_i hp
      rw [if_pos hp] at hlook
      obtain ⟨hfirst, hrest⟩ := List.forall_mem_cons.mp hlook
      rw [hfirst, Option.bind_some]
      cases hw : want p with
      | none => simp only [List.filterMap_cons, hw, ih _ hrest]
      | some rr => simp only [List.filterMap_cons, hw, List.head?_cons]
    · rfl

theorem least_eq (sort : Record → Record → Int) (n p : Nat) (r : Record)
    (hlook : ∀ q ∈ places data n p, look q = some (want q)) : least data look sort n p r =
      some (((places data n p).filterMap want).foldl (keep fun a b => sort a b < 0) r) := by
  induction n generalizing p r with
  | zero => rfl
  | succ n ih =>
    unfold places at hlook
    unfold least places
    split
    · rename_i hp
      rw [if_pos hp] at hlook
      obtain ⟨hfirst, hrest⟩ := List.forall_mem_cons.mp hlook
      rw [hfirst, Option.bind_some]
      cases hw : want p with
      | none => simp only [List.filterMap_cons, hw, ih _ _ hrest]
      | some rr =>
        simp only [List.filterMap_cons, hw, ih _ _ hrest, List.foldl_cons, keep, decide_eq_true_eq]
    · rfl

/-- Behind the first wanted record stand the others. -/
theorem filterMap_tail (hdn : ∀ p r, want p = some r → r.dn = p) (hn : data.length - p ≤ n)
    (h : (places data n p).filterMap want = r :: rs) :
    (placesFrom data (Record.skip data r.dn)).filterMap want = rs := by
  induction n generalizing p with
  | zero => cases h
  | succ n ih =>
    unfold places at h
    split at h
    · rename_i hp
      have hskip := Record.skip_bounds hp
      cases hw : want p with
      | none =>
        rw [List.filterMap_cons, hw] at h
        exact ih (by omega) h
      | some rr =>
        rw [List.filterMap_cons, hw] at h
        obtain ⟨rfl, rfl⟩ := List.cons.inj h
        rw [hdn p rr hw, placesFrom, places_congr _ n (by omega) (by omega)]
    · cases h

end Iter

end NetworkLabs.Dns
