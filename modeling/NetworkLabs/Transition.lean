import Mathlib.Data.List.Infix

/-! Labelled transition systems: finite traces, inductive invariants, guarded runs, refinement. -/
namespace Transition

/-- A labelled transition system. Executable systems enter through `ofStep`. -/
structure LTS (State : Type*) (Label : Type*) where
  Tr : State → Label → State → Prop

namespace LTS

variable {State Label State' Label' : Type*} {lts : LTS State Label} {lts' : LTS State' Label'}
  {s t u : State} {a : Label} {xs ys : List Label}

/-- The system of a partial step function; `none` is a disabled action. -/
def ofStep (step : State → Label → Option State) : LTS State Label :=
  ⟨fun s a t => step s a = some t⟩

@[simp] theorem ofStep_tr {step : State → Label → Option State} :
    (ofStep step).Tr s a t ↔ step s a = some t := Iff.rfl

/-- Finite traces, one label per transition. -/
inductive MTr (lts : LTS State Label) : State → List Label → State → Prop
  | refl {s : State} : MTr lts s [] s
  | stepL {s t u : State} {a : Label} {xs : List Label} :
      lts.Tr s a t → MTr lts t xs u → MTr lts s (a :: xs) u

theorem MTr.single (h : lts.Tr s a t) : lts.MTr s [a] t := .stepL h .refl

theorem MTr.append (h : lts.MTr s xs t) (h' : lts.MTr t ys u) : lts.MTr s (xs ++ ys) u := by
  induction h with
  | refl => exact h'
  | stepL hs _ ih => exact .stepL hs (ih h')

theorem MTr.split (h : lts.MTr s (xs ++ ys) u) : ∃ t, lts.MTr s xs t ∧ lts.MTr t ys u := by
  induction xs generalizing s with
  | nil => exact ⟨s, .refl, h⟩
  | cons a xs ih =>
    cases h with
    | stepL hs h =>
      obtain ⟨t, hxs, hys⟩ := ih h
      exact ⟨t, .stepL hs hxs, hys⟩

/-- Execute a list of labels, if none of them is disabled. -/
def run (step : State → Label → Option State) (s : State) : List Label → Option State
  | [] => some s
  | a :: xs => (step s a).bind fun t => run step t xs

theorem mTr_of_run {step : State → Label → Option State} (h : run step s xs = some t) :
    (ofStep step).MTr s xs t := by
  induction xs generalizing s with
  | nil =>
    cases h
    exact .refl
  | cons a xs ih =>
    obtain ⟨u, hu, ht⟩ := Option.bind_eq_some_iff.mp h
    exact .stepL hu (ih ht)

/-- The state a list of labels leads to, where it is a trace. -/
def after (step : State → Label → Option State) (s : State) (xs : List Label) : State :=
  (run step s xs).getD s

theorem mTr_after {step : State → Label → Option State} (h : (run step s xs).isSome) :
    (ofStep step).MTr s xs (after step s xs) := by
  obtain ⟨t, ht⟩ := Option.isSome_iff_exists.mp h
  simpa [after, ht] using mTr_of_run ht

theorem run_of_mTr {step : State → Label → Option State} (h : (ofStep step).MTr s xs t) :
    run step s xs = some t := by
  induction h with
  | refl => rfl
  | stepL h _ ih =>
    have hs : step _ _ = some _ := h
    simpa [run, hs] using ih

/-- A predicate that every transition preserves. -/
def TrInv (lts : LTS State Label) (p : State → Prop) : Prop :=
  ∀ s a t, lts.Tr s a t → p s → p t

theorem mTr_of_trInv {p : State → Prop} (hp : lts.TrInv p) (h : lts.MTr s xs t) (hs : p s) :
    p t := by
  induction h with
  | refl => exact hs
  | stepL h _ ih => exact ih (hp _ _ _ h hs)

/-- The runs whose every step meets a condition on the state before it and its label. -/
def guard (lts : LTS State Label) (c : State → Label → Prop) : LTS State Label :=
  ⟨fun s a t => lts.Tr s a t ∧ c s a⟩

theorem MTr.of_guard {c : State → Label → Prop} (h : (lts.guard c).MTr s xs t) :
    lts.MTr s xs t := by
  induction h with
  | refl => exact .refl
  | stepL h _ ih => exact .stepL h.1 ih

theorem MTr.guard_imp {c c' : State → Label → Prop} (h : (lts.guard c).MTr s xs t)
    (hc : ∀ s a, c s a → c' s a) : (lts.guard c').MTr s xs t := by
  induction h with
  | refl => exact .refl
  | stepL h _ ih => exact .stepL ⟨h.1, hc _ _ h.2⟩ ih

/-- Execute a list of labels as long as a test allows them. -/
theorem mTr_guard_of_run {step : State → Label → Option State} {c : State → Label → Bool}
    (h : run (fun s a => if c s a then step s a else none) s xs = some t) :
    ((ofStep step).guard fun s a => c s a).MTr s xs t := by
  induction xs generalizing s with
  | nil =>
    cases h
    exact .refl
  | cons a xs ih =>
    obtain ⟨u, hu, ht⟩ := Option.bind_eq_some_iff.mp h
    simp only [Option.ite_none_right_eq_some] at hu
    exact .stepL ⟨hu.2, hu.1⟩ (ih ht)

theorem mTr_guard_after {step : State → Label → Option State} {c : State → Label → Bool}
    (h : (run (fun s a => if c s a then step s a else none) s xs).isSome) :
    ((ofStep step).guard fun s a => c s a).MTr s xs (after step s xs) := by
  obtain ⟨t, ht⟩ := Option.isSome_iff_exists.mp h
  have hg := mTr_guard_of_run ht
  simpa [after, run_of_mTr hg.of_guard] using hg

section Tally
variable {step : State → Label → Option State} {f : State → Label → Int}

/-- The sum of `f` over the steps of an execution. -/
def tally (step : State → Label → Option State) (f : State → Label → Int) (s : State) :
    List Label → Int
  | [] => 0
  | a :: xs => f s a + ((step s a).map fun t => tally step f t xs).getD 0

/-- A measure that every step lowers by `f` is lowered by the tally of the run. -/
theorem mTr_tally {inv : State → Prop} {m : State → Int} (hinv : (ofStep step).TrInv inv)
    (hm : ∀ s a t, step s a = some t → inv s → m t = m s - f s a)
    (h : (ofStep step).MTr s xs t) (hs : inv s) : m t = m s - tally step f s xs := by
  induction h with
  | refl => simp [tally]
  | @stepL s t u a xs h _ ih =>
    have hst : step s a = some t := h
    have hlow := hm s a t hst hs
    have hrest := ih (hinv s a t h hs)
    simp only [tally, hst, Option.map_some, Option.getD_some]
    omega

end Tally

/-- Under an invariant `inv`, every transition of `lts` is seen through `view` as one
transition of `lts'` with an allowed label. -/
def Refines (lts : LTS State Label) (inv : State → Prop) (view : State → State')
    (allowed : Label → Label' → Prop) (lts' : LTS State' Label') : Prop :=
  ∀ s a t, lts.Tr s a t → inv s → ∃ b, allowed a b ∧ lts'.Tr (view s) b (view t)

/-- A refinement carries every invariant of the abstract system, restricted to the
allowed labels, back to the traces of the concrete one. -/
theorem Refines.mTr_inv {inv : State → Prop} {view : State → State'}
    {allowed : Label → Label' → Prop} {p : State' → Prop} (hr : lts.Refines inv view allowed lts')
    (hinv : lts.TrInv inv) (hp : ∀ a ∈ xs, ∀ b, allowed a b → ∀ v w, lts'.Tr v b w → p v → p w)
    (h : lts.MTr s xs t) (hs : inv s) (hps : p (view s)) : p (view t) := by
  induction h with
  | refl => exact hps
  | @stepL s t u a xs hst htu ih =>
    obtain ⟨b, hb, hv⟩ := hr s a t hst hs
    have hpt := hp a List.mem_cons_self b hb _ _ hv hps
    exact ih (fun a' ha' => hp a' (List.mem_cons_of_mem _ ha')) (hinv s a t hst hs) hpt

end LTS

/-- A property of every initial part of a history. -/
def Always {ε : Type*} (p : List ε → Prop) (es : List ε) : Prop := ∀ xs, xs <+: es → p xs

theorem always_snoc {ε : Type*} {p : List ε → Prop} {es : List ε} {e : ε} :
    Always p (es ++ [e]) ↔ Always p es ∧ p (es ++ [e]) := by
  simp only [Always, List.prefix_concat_iff]
  grind

/-- A property that each event keeps exactly under a condition holds through a history exactly if
the condition holds of each of its events. -/
theorem always_iff_of_step {ε : Type*} {p : List ε → Prop} {c : List ε → ε → Prop} (h0 : p [])
    (hstep : ∀ xs a, p xs → (p (xs ++ [a]) ↔ c xs a)) (xs : List ε) :
    Always p xs ↔ ∀ ys a, ys ++ [a] <+: xs → c ys a := by
  induction xs using List.reverseRecOn with
  | nil => simp [Always, h0]
  | append_singleton xs a ih =>
    have hlast : ∀ ys b, ys ++ [b] <+: xs ++ [a] ↔ (ys = xs ∧ b = a) ∨ ys ++ [b] <+: xs := by
      intro ys b
      rw [List.prefix_concat_iff]
      simp
    simp only [always_snoc, ih, hlast]
    constructor
    · rintro ⟨hxs, hpa⟩ ys b (⟨rfl, rfl⟩ | h)
      · exact (hstep ys b (ih.mpr hxs ys List.prefix_rfl)).mp hpa
      · exact hxs ys b h
    · intro h
      have hxs : ∀ ys b, ys ++ [b] <+: xs → c ys b := fun ys b hb => h ys b (.inr hb)
      exact ⟨hxs, (hstep xs a (ih.mpr hxs xs List.prefix_rfl)).mpr (h xs a (.inl ⟨rfl, rfl⟩))⟩

/-- The same for a machine that is never stuck, with an invariant of its states. -/
theorem always_foldl_iff {State Label : Type*} (step : State → Label → State) {s₀ : State}
    (inv p : State → Prop) (c : State → Label → Prop) (hinv : ∀ s a, inv s → inv (step s a))
    (h0 : inv s₀) (hp : p s₀) (hstep : ∀ s a, inv s → p s → (p (step s a) ↔ c s a))
    (xs : List Label) :
    Always (fun ys => p (ys.foldl step s₀)) xs ↔
      ∀ ys a, ys ++ [a] <+: xs → c (ys.foldl step s₀) a := by
  have hrun : ∀ ys : List Label, inv (ys.foldl step s₀) := by
    intro ys
    induction ys using List.reverseRecOn with
    | nil => exact h0
    | append_singleton ys a ih => simpa using hinv _ a ih
  apply always_iff_of_step hp
  intro ys a hys
  rw [List.foldl_append]
  exact hstep _ a (hrun ys) hys

section
variable {ε α β : Type*} {x : Except ε α} {b : β}

/-- A fallible step goes through exactly if its parts do. -/
theorem bind_eq_ok {f : α → Except ε β} : x.bind f = .ok b ↔ ∃ a, x = .ok a ∧ f a = .ok b := by
  cases x with
  | error e => simp [Except.bind]
  | ok a => simp [Except.bind]

theorem map_eq_ok {f : α → β} : x.map f = .ok b ↔ ∃ a, x = .ok a ∧ f a = b := by
  cases x with
  | error e => simp [Except.map]
  | ok a => simp [Except.map]

end

end Transition
