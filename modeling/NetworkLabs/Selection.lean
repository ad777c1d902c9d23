import Mathlib.Order.Lattice
import Mathlib.Algebra.GroupWithZero.Nat
import Mathlib.Data.List.Basic
import Mathlib.Data.List.Pairwise
import Mathlib.Data.List.Perm.Basic
import Mathlib.Data.List.Nodup
import Mathlib.Tactic.Common

/-! Going through a list in the order of a key without sorting it: each time the least element
behind the last one is looked for. -/
namespace Selection

variable {α κ : Type*} [LinearOrder κ] {key : α → κ} {before : α → α → Bool} {xs ys : List α}
  {m x : α} {n : Nat}

/-- `before` compares keys. -/
def Orders (before : α → α → Bool) (key : α → κ) : Prop := ∀ a b, before a b ↔ key a < key b

/-- The one of two that comes first, the older one if none does. -/
def keep (before : α → α → Bool) (r x : α) : α := if before x r then x else r

/-- The element that comes first. -/
def first (before : α → α → Bool) : List α → Option α
  | [] => none
  | x :: xs => some (xs.foldl (keep before) x)

/-- One element after the other, `n` at most. -/
def listing (before : α → α → Bool) : Nat → List α → List α
  | 0, _ => []
  | n + 1, xs =>
    match first before xs with
    | none => []
    | some m => m :: listing before n (xs.filter (before m))

/-- What is left behind the first `n` of them. -/
def rest (before : α → α → Bool) : Nat → List α → List α
  | 0, xs => xs
  | n + 1, xs =>
    match first before xs with
    | none => xs
    | some m => rest before n (xs.filter (before m))

theorem listing_none (h : first before xs = none) (n : Nat) : listing before n xs = [] := by
  cases n with
  | zero => rfl
  | succ n => rw [listing, h]

theorem listing_some (h : first before xs = some m) (n : Nat) :
    listing before (n + 1) xs = m :: listing before n (xs.filter (before m)) := by
  rw [listing, h]

theorem listing_add (n k : Nat) (xs : List α) :
    listing before (n + k) xs = listing before n xs ++ listing before k (rest before n xs) := by
  induction n generalizing xs with
  | zero => rw [Nat.zero_add, listing, rest, List.nil_append]
  | succ n ih =>
    rw [Nat.add_right_comm, rest]
    cases hm : first before xs with
    | none => simp only [listing_none hm, List.nil_append]
    | some m => simp only [listing_some hm, ih, List.cons_append]

/-- What several goes yield that take up to so many elements each. -/
def pieces (before : α → α → Bool) : List Nat → List α → List (List α)
  | [], _ => []
  | n :: ns, xs => listing before n xs :: pieces before ns (rest before n xs)

theorem flatten_pieces (ns : List Nat) (xs : List α) :
    (pieces before ns xs).flatten = listing before ns.sum xs := by
  induction ns generalizing xs with
  | nil => rfl
  | cons n ns ih => rw [pieces, List.flatten_cons, ih, List.sum_cons, listing_add]

theorem keep_spec (ho : Orders before key) (r x : α) :
    (keep before r x = r ∨ keep before r x = x) ∧ key (keep before r x) ≤ key r ∧
      key (keep before r x) ≤ key x := by
  unfold keep
  split
  · rename_i h
    exact ⟨.inr rfl, le_of_lt ((ho x r).mp h), le_refl _⟩
  · rename_i h
    exact ⟨.inl rfl, le_refl _, le_of_not_gt fun hlt => h ((ho x r).mpr hlt)⟩

theorem foldl_keep (ho : Orders before key) (xs : List α) (r : α) :
    (xs.foldl (keep before) r = r ∨ xs.foldl (keep before) r ∈ xs) ∧
      key (xs.foldl (keep before) r) ≤ key r ∧
      ∀ x ∈ xs, key (xs.foldl (keep before) r) ≤ key x := by
  induction xs generalizing r with
  | nil => exact ⟨.inl rfl, le_refl _, fun x hx => by cases hx⟩
  | cons y ys ih =>
    obtain ⟨hmem, hle, hall⟩ := ih (keep before r y)
    obtain ⟨hkeep, hr, hy⟩ := keep_spec ho r y
    refine ⟨?_, hle.trans hr, fun x hx => ?_⟩
    · rcases hmem with heq | hmem
      · rw [List.foldl_cons, heq]
        rcases hkeep with hkeep | hkeep
        · exact .inl hkeep
        · rw [hkeep]
          exact .inr List.mem_cons_self
      · exact .inr (List.mem_cons_of_mem y hmem)
    · rcases List.mem_cons.mp hx with rfl | hx
      · exact hle.trans hy
      · exact hall x hx

theorem first_spec (ho : Orders before key) (h : first before xs = some m) :
    m ∈ xs ∧ ∀ x ∈ xs, key m ≤ key x := by
  cases xs with
  | nil => cases h
  | cons y ys =>
    obtain rfl := Option.some.inj h
    obtain ⟨hmem, hle, hall⟩ := foldl_keep ho ys y
    refine ⟨?_, fun x hx => ?_⟩
    · rcases hmem with heq | hmem
      · rw [heq]
        exact List.mem_cons_self
      · exact List.mem_cons_of_mem y hmem
    · rcases List.mem_cons.mp hx with rfl | hx
      · exact hle
      · exact hall x hx

theorem first_eq_none (h : first before xs = none) : xs = [] := by
  cases xs with
  | nil => rfl
  | cons x xs => cases h

/-- Among what is behind an element, what is behind a later one is the same as among all. -/
theorem filter_behind (ho : Orders before key) (h : before m x) (xs : List α) :
    (xs.filter (before m)).filter (before x) = xs.filter (before x) := by
  rw [List.filter_filter]
  apply List.filter_congr
  intro y _
  by_cases hy : before x y
  · rw [hy, (ho m y).mpr (((ho m x).mp h).trans ((ho x y).mp hy))]
    rfl
  · simp [hy]

theorem mem_listing (ho : Orders before key) (h : x ∈ listing before n xs) : x ∈ xs := by
  induction n generalizing xs with
  | zero => cases h
  | succ n ih =>
    unfold listing at h
    split at h
    · cases h
    · rename_i m hm
      rcases List.mem_cons.mp h with rfl | h
      · exact (first_spec ho hm).1
      · exact List.mem_of_mem_filter (ih h)

theorem listing_pairwise (ho : Orders before key) (n : Nat) (xs : List α) :
    (listing before n xs).Pairwise fun a b => key a < key b := by
  induction n generalizing xs with
  | zero => exact .nil
  | succ n ih =>
    unfold listing
    split
    · exact .nil
    · refine .cons (fun y hy => ?_) (ih _)
      exact (ho _ y).mp (List.mem_filter.mp (mem_listing ho hy)).2

theorem length_filter_first (ho : Orders before key) (h : first before xs = some m) :
    (xs.filter (before m)).length < xs.length := by
  apply List.length_filter_lt_length_iff_exists.mpr
  exact ⟨m, (first_spec ho h).1, fun hm => lt_irrefl _ ((ho m m).mp hm)⟩

/-- Every key of the list comes up. -/
theorem exists_mem_listing (ho : Orders before key) (hn : xs.length ≤ n) (hx : x ∈ xs) :
    ∃ m ∈ listing before n xs, key m = key x := by
  induction n generalizing xs with
  | zero => exact absurd (List.length_pos_of_mem hx) (by omega)
  | succ n ih =>
    cases hm : first before xs with
    | none => exact absurd hx (first_eq_none hm ▸ List.not_mem_nil)
    | some m =>
      rw [listing_some hm]
      rcases eq_or_lt_of_le ((first_spec ho hm).2 x hx) with heq | hlt
      · exact ⟨m, List.mem_cons_self, heq⟩
      · have hlength := length_filter_first ho hm
        have hn' : (xs.filter (before m)).length ≤ n := by omega
        obtain ⟨m', hm', hkey⟩ := ih hn'
          (List.mem_filter.mpr ⟨hx, (ho m x).mpr hlt⟩)
        exact ⟨m', List.mem_cons_of_mem m hm', hkey⟩

theorem listing_eq_take (ho : Orders before key) (k : Nat) (hn : xs.length ≤ n) :
    listing before k xs = (listing before n xs).take k := by
  induction k generalizing n xs with
  | zero => rfl
  | succ k ih =>
    cases n with
    | zero => rw [List.eq_nil_of_length_eq_zero (Nat.le_zero.mp hn)]; rfl
    | succ n =>
      cases hm : first before xs with
      | none => rw [listing_none hm, listing_none hm, List.take_nil]
      | some m =>
        have hlength := length_filter_first ho hm
        have hn' : (xs.filter (before m)).length ≤ n := by omega
        rw [listing_some hm, listing_some hm, List.take_succ_cons, ih hn']

/-- If no two elements have the same key, each of them comes up once. -/
theorem listing_perm (ho : Orders before key) (hn : xs.length ≤ n) (hnodup : xs.Nodup)
    (hinj : ∀ a ∈ xs, ∀ b ∈ xs, key a = key b → a = b) : (listing before n xs).Perm xs := by
  have hlisting : (listing before n xs).Nodup := by
    apply (listing_pairwise ho n xs).imp
    intro a b hab heq
    subst heq
    exact lt_irrefl _ hab
  apply (List.perm_ext_iff_of_nodup hlisting hnodup).mpr
  intro x
  refine ⟨mem_listing ho, fun hx => ?_⟩
  obtain ⟨m, hm, hkey⟩ := exists_mem_listing ho hn hx
  rw [← hinj m (mem_listing ho hm) x hx hkey]
  exact hm

/-- In a list that is in order the first element comes first, and the others are behind it. -/
theorem first_of_pairwise (ho : Orders before key)
    (h : (x :: xs).Pairwise fun a b => key a < key b) :
    first before (x :: xs) = some x ∧ (x :: xs).filter (before x) = xs := by
  obtain ⟨hx, -⟩ := List.pairwise_cons.mp h
  obtain ⟨m, hm⟩ : ∃ m, first before (x :: xs) = some m := ⟨_, rfl⟩
  obtain ⟨hmem, hall⟩ := first_spec ho hm
  constructor
  · rcases List.mem_cons.mp hmem with rfl | hmem
    · exact hm
    · exact absurd (hall x List.mem_cons_self) (not_le_of_gt (hx m hmem))
  · rw [List.filter_cons_of_neg fun hself => lt_irrefl _ ((ho x x).mp hself)]
    exact List.filter_eq_self.mpr fun y hy => (ho x y).mpr (hx y hy)

/-- Such a list is gone through as it is. -/
theorem listing_of_pairwise (ho : Orders before key) (hn : xs.length ≤ n)
    (h : xs.Pairwise fun a b => key a < key b) : listing before n xs = xs := by
  induction n generalizing xs with
  | zero => rw [List.eq_nil_of_length_eq_zero (Nat.le_zero.mp hn), listing]
  | succ n ih =>
    cases xs with
    | nil => rfl
    | cons x xs =>
      obtain ⟨hfirst, hfilter⟩ := first_of_pairwise ho h
      rw [listing_some hfirst, hfilter, ih (by simpa using hn) (List.pairwise_cons.mp h).2]

end Selection
