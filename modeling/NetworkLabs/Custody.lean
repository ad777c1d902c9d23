import NetworkLabs.Transition
import Mathlib.Data.Multiset.AddSub

/-! Resources that are handed out and given back. -/
namespace Custody

open Transition

inductive Use (ρ : Type*)
  | acquire (r : ρ)
  | release (r : ρ)
deriving DecidableEq

def Use.resource {ρ : Type*} : Use ρ → ρ
  | .acquire r => r
  | .release r => r

variable {ρ : Type*} {held held' rest : Multiset ρ} {us us' : List (Use ρ)} {u : Use ρ} {r : ρ}

/-- What is held before and after a use. Only what is held can be given back. -/
inductive Tr : Multiset ρ → Use ρ → Multiset ρ → Prop
  | acquire {held : Multiset ρ} {r : ρ} : Tr held (.acquire r) (r ::ₘ held)
  | release {held : Multiset ρ} {r : ρ} : Tr (r ::ₘ held) (.release r) held

def lts : LTS (Multiset ρ) (Use ρ) := ⟨Tr⟩

/-- The runs in which nothing is handed out that is held. -/
def exclusive : LTS (Multiset ρ) (Use ρ) := lts.guard fun held u => ∀ r, u = .acquire r → r ∉ held

/-- The last use of the resource was to acquire it. -/
def Outstanding (us : List (Use ρ)) (r : ρ) : Prop :=
  ∃ pre post, us = pre ++ .acquire r :: post ∧ .release r ∉ post

/-- What is handed out is not outstanding. -/
def Fresh (us : List (Use ρ)) : Prop :=
  ∀ pre r post, us = pre ++ .acquire r :: post → ¬ Outstanding pre r

/-- Others may hold something at the same time. -/
theorem mTr_add (h : lts.MTr held us held') (rest : Multiset ρ) :
    lts.MTr (held + rest) us (held' + rest) := by
  induction h with
  | refl => exact .refl
  | stepL hs _ ih =>
    cases hs with
    | acquire => exact .stepL .acquire (Multiset.cons_add _ _ _ ▸ ih)
    | release => exact Multiset.cons_add _ _ _ ▸ .stepL .release ih

theorem mTr_acquire (r : ρ) : lts.MTr held [.acquire r] (r ::ₘ held) := .single .acquire

theorem mTr_release (r : ρ) : lts.MTr (r ::ₘ held) [.release r] held := .single .release

theorem exclusive_nodup (h : exclusive.MTr held us held') (hn : held.Nodup) : held'.Nodup := by
  induction h with
  | refl => exact hn
  | stepL hs _ ih =>
    obtain ⟨hs, hfresh⟩ := hs
    cases hs with
    | acquire => exact ih (Multiset.nodup_cons.mpr ⟨hfresh _ rfl, hn⟩)
    | release => exact ih (Multiset.nodup_cons.mp hn).2

theorem Fresh.left (h : Fresh (us ++ us')) : Fresh us := by
  rintro pre r post rfl
  exact h pre r (post ++ us') (by simp)

theorem Outstanding.snoc (h : Outstanding us r) (hu : u ≠ .release r) :
    Outstanding (us ++ [u]) r := by
  obtain ⟨pre, post, rfl, hpost⟩ := h
  exact ⟨pre, post ++ [u], by simp, by simp [hpost, hu.symm]⟩

/-- What is held was handed out and not given back since. -/
theorem outstanding_of_mem (h : exclusive.MTr 0 us held) (hr : r ∈ held) : Outstanding us r := by
  induction us using List.reverseRecOn generalizing held with
  | nil =>
    cases h
    cases Multiset.notMem_zero _ hr
  | append_singleton us u ih =>
    obtain ⟨held', hus, hu⟩ := h.split
    cases hu with
    | stepL hu hrefl =>
      cases hrefl
      have hn := exclusive_nodup hus Multiset.nodup_zero
      obtain ⟨hu, -⟩ := hu
      cases hu with
      | @acquire _ r' =>
        rcases Multiset.mem_cons.mp hr with rfl | hr
        · exact ⟨us, [], rfl, by simp⟩
        · exact (ih hus hr).snoc (by simp)
      | @release _ r' =>
        apply (ih hus (Multiset.mem_cons_of_mem hr)).snoc
        rintro ⟨⟩
        exact (Multiset.nodup_cons.mp hn).1 hr

theorem mem_of_not_released (h : lts.MTr held us held') (hr : r ∈ held) (hu : .release r ∉ us) :
    r ∈ held' := by
  induction h with
  | refl => exact hr
  | stepL hs _ ih =>
    obtain ⟨hne, hrest⟩ := List.ne_and_not_mem_of_not_mem_cons hu
    cases hs with
    | acquire => exact ih (Multiset.mem_cons_of_mem hr) hrest
    | release =>
      refine ih ((Multiset.mem_cons.mp hr).resolve_left ?_) hrest
      rintro rfl
      exact hne rfl

theorem mem_of_outstanding (h : lts.MTr held us held') (hr : Outstanding us r) : r ∈ held' := by
  obtain ⟨pre, post, rfl, hpost⟩ := hr
  obtain ⟨_, -, hacquire⟩ := h.split
  cases hacquire with
  | stepL hs hrest =>
    cases hs
    exact mem_of_not_released hrest (Multiset.mem_cons_self _ _) hpost

/-- Whatever is handed out is given back once before it is handed out again. -/
theorem alternating [DecidableEq ρ] (h : exclusive.MTr 0 us held) (r : ρ) : ∃ n,
    us.filter (fun u => u.resource = r) = (List.replicate n [.acquire r, .release r]).flatten ++
      if r ∈ held then [.acquire r] else [] := by
  induction us using List.reverseRecOn generalizing held with
  | nil =>
    cases h
    exact ⟨0, rfl⟩
  | append_singleton us u ih =>
    obtain ⟨before, hus, hu⟩ := h.split
    obtain ⟨n, hn⟩ := ih hus
    rw [List.filter_append, hn]
    have hnodup := exclusive_nodup hus Multiset.nodup_zero
    cases hu with
    | stepL hu hrefl =>
      cases hrefl
      obtain ⟨hu, hfresh⟩ := hu
      cases hu with
      | @acquire _ r' =>
        by_cases hr : r' = r
        · subst hr
          have hnot := hfresh _ rfl
          refine ⟨n, ?_⟩
          simp [hnot, Use.resource]
        · refine ⟨n, ?_⟩
          simp [hr, Ne.symm hr, Use.resource]
      | @release _ r' =>
        by_cases hr : r' = r
        · subst hr
          have hgone := (Multiset.nodup_cons.mp hnodup).1
          refine ⟨n + 1, ?_⟩
          simp [hgone, Use.resource, List.replicate_succ']
        · refine ⟨n, ?_⟩
          simp [hr, Ne.symm hr, Use.resource]

/-- If nothing is handed out twice at a time, nothing is held twice. -/
theorem exclusive_of_fresh (h : lts.MTr 0 us held) (hf : Fresh us) : exclusive.MTr 0 us held := by
  induction us using List.reverseRecOn generalizing held with
  | nil =>
    cases h
    exact .refl
  | append_singleton us u ih =>
    obtain ⟨held', hus, hu⟩ := h.split
    have hexclusive := ih hus hf.left
    cases hu with
    | stepL hu hrefl =>
      cases hrefl
      refine hexclusive.append (.single ⟨hu, ?_⟩)
      rintro r rfl hr
      exact hf us r [] rfl (outstanding_of_mem hexclusive hr)

theorem fresh_of_nodup (h : us.Nodup) : Fresh us := by
  rintro pre r post rfl ⟨pre', post', rfl, -⟩
  simp [List.nodup_append] at h

end Custody
