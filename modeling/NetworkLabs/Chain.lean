import Mathlib.Data.List.Basic
import Mathlib.Tactic.Common

/-! Sequences kept in a store piece by piece, where one may go on inside another, and a directory
of the places where they start. -/
namespace Chain

/-- What stands at a place: the end, an item and the place of the next one, or a reference to
another place. -/
inductive Cell (α : Type*)
  | stop
  | item (a : α) (next : Nat)
  | jump (target : Nat)
deriving DecidableEq

variable {α : Type*} {cell cell' : Nat → Option (Cell α)} {ok ok' : Nat → List α → Prop}
  {i j k l p q r t : Nat} {a : α} {xs ys : List α} {names names' : List (List α)}
  {slots slots' : List (Nat × List α)}

/-- `k` references lead from `p` to `q`, where none stands. -/
inductive Jumps (cell : Nat → Option (Cell α)) : Nat → Nat → Nat → Prop
  | here {p : Nat} {c : Cell α} (hp : cell p = some c) (hc : ∀ t, c ≠ .jump t) : Jumps cell 0 p p
  | jump {k p q t : Nat} (hp : cell p = some (.jump t)) (h : Jumps cell k t q) :
      Jumps cell (k + 1) p q

/-- From `p` on the store spells the items; wherever one is looked up, the number of references on
the way to it and what is still to come are as `ok` says. -/
inductive Spells (cell : Nat → Option (Cell α)) (ok : Nat → List α → Prop) : Nat → List α → Prop
  | stop {p : Nat} (hp : cell p = some .stop) : Spells cell ok p []
  | item {k p q next : Nat} {a : α} {xs : List α} (hp : Jumps cell k p q)
      (hq : cell q = some (.item a next)) (hok : ok k (a :: xs)) (h : Spells cell ok next xs) :
      Spells cell ok p (a :: xs)

/-- The other store has at least what this one has. -/
def Extends (cell cell' : Nat → Option (Cell α)) : Prop :=
  ∀ p c, cell p = some c → cell' p = some c

theorem Extends.refl (cell : Nat → Option (Cell α)) : Extends cell cell := fun _ _ h => h

theorem Jumps.unique (h : Jumps cell k p q) (h' : Jumps cell l p r) : k = l ∧ q = r := by
  induction h generalizing l r with
  | here hp hc =>
    cases h' with
    | here => exact ⟨rfl, rfl⟩
    | jump hp' => exact absurd (Option.some.inj (hp.symm.trans hp')) (hc _)
  | jump hp _ ih =>
    cases h' with
    | here hp' hc => exact absurd (Option.some.inj (hp'.symm.trans hp)) (hc _)
    | jump hp' h' =>
      cases hp.symm.trans hp'
      obtain ⟨rfl, rfl⟩ := ih h'
      exact ⟨rfl, rfl⟩

theorem Jumps.extend (hext : Extends cell cell') (h : Jumps cell k p q) : Jumps cell' k p q := by
  induction h with
  | here hp hc => exact .here (hext _ _ hp) hc
  | jump hp _ ih => exact .jump (hext _ _ hp) ih

/-- The items stand one behind the other from `p` to `r`. -/
inductive Items (cell : Nat → Option (Cell α)) : Nat → List α → Nat → Prop
  | nil {p : Nat} : Items cell p [] p
  | cons {p r next : Nat} {a : α} {xs : List α} (hp : cell p = some (.item a next))
      (h : Items cell next xs r) : Items cell p (a :: xs) r

theorem jumps_item {next : Nat} (h : cell p = some (.item a next)) : Jumps cell 0 p p := by
  apply Jumps.here h
  intro t ht
  cases ht

/-- A place spells one sequence only. -/
theorem Spells.unique (h : Spells cell ok p xs) (h' : Spells cell ok' p ys) : xs = ys := by
  induction h generalizing ys with
  | stop hp =>
    cases h' with
    | stop => rfl
    | item hjumps hq =>
      cases hjumps with
      | here => cases hp.symm.trans hq
      | jump hp' => cases hp.symm.trans hp'
  | item hjumps hq _ _ ih =>
    cases h' with
    | stop hp' =>
      cases hjumps with
      | here => cases hp'.symm.trans hq
      | jump hp => cases hp'.symm.trans hp
    | item hjumps' hq' _ h' =>
      obtain ⟨rfl, rfl⟩ := hjumps.unique hjumps'
      cases hq.symm.trans hq'
      rw [ih h']

theorem Spells.extend (hext : Extends cell cell') (h : Spells cell ok p xs) :
    Spells cell' ok p xs := by
  induction h with
  | stop hp => exact .stop (hext _ _ hp)
  | item hp hq hok _ ih => exact .item (hp.extend hext) (hext _ _ hq) hok ih

theorem Spells.mono (hok : ∀ k xs, ok k xs → ok' k xs) (h : Spells cell ok p xs) :
    Spells cell ok' p xs := by
  induction h with
  | stop hp => exact .stop hp
  | item hp hq hk _ ih => exact .item hp hq (hok _ _ hk) ih

/-- A reference spells what its target spells. -/
theorem Spells.jump (h : Spells cell ok t xs) (hne : xs ≠ []) (hp : cell p = some (.jump t))
    (hok : ∀ k ys, ok k ys → ok' k ys) (hfirst : ∀ k q, Jumps cell k t q → ok' (k + 1) xs) :
    Spells cell ok' p xs := by
  cases h with
  | stop => exact absurd rfl hne
  | item ht hq _ h => exact .item (.jump hp ht) hq (hfirst _ _ ht) (h.mono hok)

/-- An earlier sequence ends with this one. -/
def Earlier (names : List (List α)) (i : Nat) (xs : List α) : Prop :=
  ∃ j n, j < i ∧ names[j]? = some n ∧ xs <:+ n

/-- Two references in a row lead only to what an earlier sequence has too. -/
def Shallow (names : List (List α)) (i k : Nat) (xs : List α) : Prop :=
  k ≤ 2 ∧ (k = 2 → Earlier names i xs)

/-- Every sequence has grown at its front, if at all. -/
def Grown (names names' : List (List α)) : Prop :=
  ∀ (j : Nat) n, names[j]? = some n → ∃ n', names'[j]? = some n' ∧ n <:+ n'

theorem Earlier.mono (h : Earlier names i xs) (hle : i ≤ j) (hgrown : Grown names names') :
    Earlier names' j xs := by
  obtain ⟨m, n, hm, hn, hxs⟩ := h
  obtain ⟨n', hn', hsub⟩ := hgrown m n hn
  exact ⟨m, n', by omega, hn', hxs.trans hsub⟩

theorem Shallow.mono (h : Shallow names i k xs) (hle : i ≤ j) (hgrown : Grown names names') :
    Shallow names' j k xs :=
  ⟨h.1, fun hk => (h.2 hk).mono hle hgrown⟩

theorem Grown.refl (names : List (List α)) : Grown names names :=
  fun _ n hn => ⟨n, hn, List.suffix_rfl⟩

theorem Grown.append (names rest : List (List α)) : Grown names (names ++ rest) := by
  intro j n hn
  obtain ⟨hlt, -⟩ := List.getElem?_eq_some_iff.mp hn
  exact ⟨n, (List.getElem?_append_left hlt).trans hn, List.suffix_rfl⟩

theorem Grown.set (hi : names[i]? = some xs) (hsub : xs <:+ ys) : Grown names (names.set i ys) := by
  intro j n hn
  by_cases hj : i = j
  · subst hj
    obtain ⟨hlt, -⟩ := List.getElem?_eq_some_iff.mp hi
    cases hi.symm.trans hn
    exact ⟨ys, List.getElem?_set_self hlt, hsub⟩
  · exact ⟨n, (List.getElem?_set_ne hj).trans hn, List.suffix_rfl⟩

/-- The sequence at a place of the directory: where two references in a row are met, and where it
starts with one, an earlier one has what follows. -/
structure Indexed (cell : Nat → Option (Cell α)) (names : List (List α)) (i p : Nat)
    (xs : List α) : Prop where
  spells : Spells cell (Shallow names i) p xs
  start : ∀ k q, Jumps cell k p q → 1 ≤ k → Earlier names i xs

/-- The places where the sequences start, with what stands there. -/
def Directory (cell : Nat → Option (Cell α)) (slots : List (Nat × List α)) : Prop :=
  ∀ (i : Nat) p xs, slots[i]? = some (p, xs) → Indexed cell (slots.map Prod.snd) i p xs

/-- `p` is where the first sequence that ends with `xs` has it. -/
structure First (cell : Nat → Option (Cell α)) (slots : List (Nat × List α)) (i p : Nat)
    (xs : List α) : Prop where
  spells : Spells cell (Shallow (slots.map Prod.snd) i) p xs
  slot : ∃ s n, slots[i]? = some (s, n) ∧ xs <:+ n
  first : ¬ Earlier (slots.map Prod.snd) i xs

theorem Indexed.mono (h : Indexed cell names i p xs) (hext : Extends cell cell') (hle : i ≤ j)
    (hgrown : Grown names names') : Indexed cell' names' j p xs := by
  refine ⟨(h.spells.extend hext).mono fun _ _ hs => hs.mono hle hgrown, fun k q hj hk => ?_⟩
  cases h.spells with
  | stop hp =>
    cases hj with
    | here => omega
    | jump hp' => cases (hext _ _ hp).symm.trans hp'
  | item hp =>
    obtain ⟨rfl, rfl⟩ := hj.unique (hp.extend hext)
    exact (h.start _ _ hp hk).mono hle hgrown

/-- The first of them is at most one reference away. -/
theorem First.jumps_le (h : First cell slots i p xs) (hne : xs ≠ []) (hj : Jumps cell k p q) :
    k ≤ 1 := by
  cases h.spells with
  | stop => exact absurd rfl hne
  | item hp _ hok =>
    obtain ⟨rfl, rfl⟩ := hj.unique hp
    by_contra hk
    exact h.first (hok.2 (by have := hok.1; omega))

/-- A reference to the first of them is shallow at any later place of the directory, and at the
place that it refers to. -/
theorem First.jump_shallow (hdir : Directory cell slots) (h : First cell slots i t xs)
    (hne : xs ≠ []) (hj : i < j ∨ ∃ n, slots[j]? = some (t, n))
    (hgrown : Grown (slots.map Prod.snd) names) (hk : Jumps cell k t q) :
    i ≤ j ∧ Shallow names j (k + 1) xs := by
  obtain ⟨s, n, hs, hsub⟩ := h.slot
  have hlate (hlt : i < j) : Earlier names j xs := by
    obtain ⟨n', hn', hsub'⟩ := hgrown i n (by simp [hs])
    exact ⟨i, n', hlt, hn', hsub.trans hsub'⟩
  have hle1 := h.jumps_le hne hk
  rcases hj with hlt | ⟨n', hn'⟩
  · exact ⟨by omega, by omega, fun _ => hlate hlt⟩
  · have hown := hdir j t n' hn'
    obtain rfl : n' = xs := hown.spells.unique h.spells
    rcases Nat.lt_trichotomy i j with hlt | rfl | hgt
    · exact ⟨by omega, by omega, fun _ => hlate hlt⟩
    · refine ⟨Nat.le_refl i, by omega, fun hk2 => ?_⟩
      exact absurd (hown.start k q hk (by omega)) h.first
    · exact absurd ⟨j, n', hgt, by simp [hn'], List.suffix_rfl⟩ h.first

theorem Directory.extend (h : Directory cell slots) (hext : Extends cell cell') :
    Directory cell' slots :=
  fun i p xs hi => (h i p xs hi).mono hext (Nat.le_refl i) (.refl _)

theorem Directory.append (h : Directory cell slots)
    (hnew : Indexed cell ((slots ++ [(p, xs)]).map Prod.snd) slots.length p xs) :
    Directory cell (slots ++ [(p, xs)]) := by
  intro i s n hi
  rcases Nat.lt_or_ge i slots.length with hlt | hge
  · rw [List.getElem?_append_left hlt] at hi
    apply (h i s n hi).mono (fun _ _ hc => hc) (Nat.le_refl i)
    rw [List.map_append]
    exact .append _ _
  · rw [List.getElem?_append_right hge, List.getElem?_singleton] at hi
    split at hi
    · cases hi
      obtain rfl : i = slots.length := by omega
      exact hnew
    · cases hi

theorem Directory.set (h : Directory cell slots) (hi : slots[i]? = some (t, ys)) (hsub : ys <:+ xs)
    (hnew : Indexed cell ((slots.set i (p, xs)).map Prod.snd) i p xs) :
    Directory cell (slots.set i (p, xs)) := by
  intro j s n hj
  by_cases hij : i = j
  · subst hij
    rw [List.getElem?_set_self (List.getElem?_eq_some_iff.mp hi).1] at hj
    cases hj
    exact hnew
  · rw [List.getElem?_set_ne hij] at hj
    apply (h j s n hj).mono (fun _ _ hc => hc) (Nat.le_refl j)
    rw [List.map_set]
    exact .set (by simp [hi]) hsub

theorem Items.spells (h : Items cell p xs r) (hok : ∀ zs, ok 0 zs) (hr : Spells cell ok r ys) :
    Spells cell ok p (xs ++ ys) := by
  induction h with
  | nil => exact hr
  | cons hp _ ih => exact .item (jumps_item hp) hp (hok _) (ih hr)

theorem Items.jumps_eq (h : Items cell p xs r) (hne : xs ≠ []) (hj : Jumps cell k p q) : k = 0 := by
  cases h with
  | nil => exact absurd rfl hne
  | cons hp => exact (hj.unique (jumps_item hp)).1

theorem shallow_zero (names : List (List α)) (i : Nat) (xs : List α) : Shallow names i 0 xs :=
  ⟨by omega, by omega⟩

section
variable (hdir : Directory cell slots) (hext : Extends cell cell')
include hdir hext

/-- A sequence written out in full takes a new place of the directory. -/
theorem Directory.append_items (hp : Items cell' p xs r) (hr : cell' r = some .stop) :
    Directory cell' (slots ++ [(p, xs)]) := by
  apply (hdir.extend hext).append
  constructor
  · rw [← List.append_nil xs]
    exact hp.spells (shallow_zero _ _) (.stop hr)
  · intro k q hj hk
    by_cases hne : xs = []
    · subst hne
      cases hp
      cases hj with
      | here => omega
      | jump hp' => cases hr.symm.trans hp'
    · rw [hp.jumps_eq hne hj] at hk
      omega

variable (h : First cell slots i t xs) (hne : xs ≠ []) (hp : Items cell' p ys r)
  (hr : cell' r = some (.jump t))
include h hne hp hr

theorem Directory.spells_jump (hj : i < j ∨ ∃ n, slots[j]? = some (t, n))
    (hgrown : Grown (slots.map Prod.snd) names) :
    Spells cell' (Shallow names j) p (ys ++ xs) := by
  apply hp.spells (shallow_zero _ _)
  apply (h.spells.extend hext).jump hne hr
  · intro k zs hk
    cases h.spells with
    | stop => exact absurd rfl hne
    | item ht => exact hk.mono (h.jump_shallow hdir hne hj hgrown ht).1 hgrown
  · intro k q hk
    cases h.spells with
    | stop => exact absurd rfl hne
    | item ht =>
      obtain ⟨rfl, rfl⟩ := hk.unique (ht.extend hext)
      exact (h.jump_shallow hdir hne hj hgrown ht).2

/-- A sequence that goes on with a reference can take a new place of the directory. -/
theorem Directory.append_jump : Directory cell' (slots ++ [(p, ys ++ xs)]) := by
  have hgrown : Grown (slots.map Prod.snd) ((slots ++ [(p, ys ++ xs)]).map Prod.snd) := by
    rw [List.map_append]
    exact .append _ _
  obtain ⟨s, n, hs, hsub⟩ := h.slot
  have hlt := (List.getElem?_eq_some_iff.mp hs).1
  apply (hdir.extend hext).append
  refine ⟨hdir.spells_jump hext h hne hp hr (.inl hlt) hgrown, fun k q hj hk => ?_⟩
  cases ys with
  | nil =>
    obtain ⟨n', hn', hsub'⟩ := hgrown i n (by simp [hs])
    exact ⟨i, n', hlt, hn', hsub.trans hsub'⟩
  | cons y ys =>
    rw [hp.jumps_eq (List.cons_ne_nil _ _) hj] at hk
    omega

/-- It can take the place of the sequence that it refers to as well. -/
theorem Directory.set_jump {n : List α} (hj : slots[j]? = some (t, n)) (hys : ys ≠ []) :
    Directory cell' (slots.set j (p, ys ++ xs)) := by
  obtain rfl : n = xs := (hdir j t n hj).spells.unique h.spells
  have hgrown : Grown (slots.map Prod.snd) ((slots.set j (p, ys ++ n)).map Prod.snd) := by
    rw [List.map_set]
    exact .set (by simp [hj]) (List.suffix_append _ _)
  apply (hdir.extend hext).set hj (List.suffix_append _ _)
  refine ⟨hdir.spells_jump hext h hne hp hr (.inr ⟨n, hj⟩) hgrown, fun k q hjumps hk => ?_⟩
  rw [hp.jumps_eq hys hjumps] at hk
  omega

end

end Chain
