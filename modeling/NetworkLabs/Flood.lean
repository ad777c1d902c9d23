import NetworkLabs.Transition
import Mathlib.Combinatorics.SimpleGraph.Acyclic
import Mathlib.Data.Multiset.Count
import Mathlib.Data.Multiset.AddSub

/-! Flooding a forest: every node passes each token on to all its neighbours but the one it
came from. -/
namespace Flood

open SimpleGraph

section Forest
variable {V : Type} {G : SimpleGraph V} {o u u' w : V}

/-- `w` is a neighbour of `u` and one edge further from `o`. -/
structure Child (G : SimpleGraph V) (o u w : V) : Prop where
  reach : G.Reachable o u
  adj : G.Adj u w
  dist : G.dist o w = G.dist o u + 1

theorem Child.reachable (h : Child G o u w) : G.Reachable o w := h.reach.trans h.adj.reachable

theorem Child.ne_root (h : Child G o u w) : w ≠ o := by
  rintro rfl
  have := h.dist
  simp at this

theorem child_root (h : G.Adj o w) : Child G o o w :=
  ⟨.refl o, h, by simp [dist_eq_one_iff_adj.mpr h]⟩

theorem child_or_child (hG : G.IsAcyclic) (hr : G.Reachable o u) (h : G.Adj u w) :
    Child G o u w ∨ Child G o w u := by
  rcases hG.dist_eq_dist_add_one_of_adj_of_reachable o h hr with hd | hd
  · exact Or.inr ⟨hr.trans h.reachable, h.symm, hd⟩
  · exact Or.inl ⟨hr, h, hd⟩

/-- In a forest a node has one parent at most. -/
theorem Child.unique (hG : G.IsAcyclic) (h : Child G o u w) (h' : Child G o u' w) : u = u' := by
  obtain ⟨p, hp, -⟩ := h.reachable.exists_path_of_dist
  have parent_last : ∀ v, Child G o v w → v = p.penultimate := by
    intro v hv
    obtain ⟨q, hq, hlen⟩ := hv.reach.exists_path_of_dist
    have hnot : w ∉ q.support := by
      intro hw
      classical
      have hle := (dist_le (q.takeUntil w hw)).trans (q.length_takeUntil_le_length hw)
      have := hv.dist
      omega
    exact hG.eq_penultimate_of_adj_end hp hv.adj.symm
      (hG.mem_support_of_ne_mem_support_of_adj_of_isPath hp hq hv.adj.symm hnot)
  exact (parent_last u h).trans (parent_last u' h').symm

theorem exists_parent (hG : G.IsAcyclic) (hr : G.Reachable o w) (hne : w ≠ o) :
    ∃ u, Child G o u w := by
  obtain ⟨p, -, hlen⟩ := hr.exists_path_of_dist
  have hnil : ¬ p.Nil := Walk.not_nil_of_ne hne.symm
  have hadj := p.adj_penultimate hnil
  have hle := dist_le p.dropLast
  refine ⟨p.penultimate, ?_⟩
  rcases child_or_child hG hr hadj.symm with hc | hc
  · have hd := hc.dist
    have := p.length_dropLast_add_one hnil
    omega
  · exact hc

/-- Induction from the root of a tree to its nodes. -/
theorem reachable_induction (hG : G.IsAcyclic) {P : V → Prop} (h0 : P o)
    (hstep : ∀ u w, Child G o u w → P u → P w) (hr : G.Reachable o w) : P w := by
  induction hd : G.dist o w using Nat.strong_induction_on generalizing w with
  | _ d ih =>
    by_cases hne : w = o
    · exact hne ▸ h0
    · obtain ⟨u, hu⟩ := exists_parent hG hr hne
      have hdu := hu.dist
      exact hstep u w hu (ih _ (by omega) hu.reach rfl)

end Forest

/-- `arrivals v` are the tokens that entered at `v` or came from a neighbour. `owed u w`
are those `u` has still to send to `w`, `wire u w` those on their way. `intact` is lost
with the first token. -/
structure State (V τ : Type) where
  arrivals : V → Multiset (Option V × τ)
  owed : V → V → Multiset τ
  wire : V → V → Multiset τ
  intact : Prop

variable {V τ : Type} [DecidableEq V] [DecidableEq τ] {G : SimpleGraph V} {origin : τ → V}
  {s t : State V τ} {u v w : V} {x y : τ}

inductive Step (G : SimpleGraph V) (origin : τ → V) (s t : State V τ) : Prop
  | idle (harr : ∀ v, t.arrivals v = s.arrivals v)
      (howed : ∀ u w, G.Adj u w → t.owed u w = s.owed u w)
      (hwire : ∀ u w, G.Adj u w → t.wire u w = s.wire u w) (hint : t.intact → s.intact)
  | enter (x : τ) (fresh : (none, x) ∉ s.arrivals (origin x))
      (harr : ∀ v, t.arrivals v = s.arrivals v + if v = origin x then {(none, x)} else 0)
      (howed : ∀ u w, G.Adj u w → t.owed u w = s.owed u w + if u = origin x then {x} else 0)
      (hwire : ∀ u w, G.Adj u w → t.wire u w = s.wire u w) (hint : t.intact → s.intact)
  | send (u w : V) (x : τ) (harr : ∀ v, t.arrivals v = s.arrivals v)
      (howed : ∀ u' w', G.Adj u' w' →
        s.owed u' w' = t.owed u' w' + if u' = u ∧ w' = w then {x} else 0)
      (hwire : ∀ u' w', G.Adj u' w' →
        t.wire u' w' = s.wire u' w' + if u' = u ∧ w' = w then {x} else 0)
      (hint : t.intact → s.intact)
  | take (u v : V) (x : τ) (hadj : G.Adj u v)
      (harr : ∀ v', t.arrivals v' = s.arrivals v' + if v' = v then {(some u, x)} else 0)
      (howed : ∀ u' w', G.Adj u' w' →
        t.owed u' w' = s.owed u' w' + if u' = v ∧ w' ≠ u then {x} else 0)
      (hwire : ∀ u' w', G.Adj u' w' →
        s.wire u' w' = t.wire u' w' + if u' = u ∧ w' = v then {x} else 0)
      (hint : t.intact → s.intact)
  | drop (harr : ∀ v, t.arrivals v = s.arrivals v)
      (howed : ∀ u w, G.Adj u w → t.owed u w = s.owed u w)
      (hwire : ∀ u w, G.Adj u w → t.wire u w ≤ s.wire u w) (hint : ¬ t.intact)

/-- Copies of `x` that have left `u` for `w` or have to. -/
def State.along (s : State V τ) (u w : V) (x : τ) : Nat :=
  (s.owed u w).count x + (s.wire u w).count x + (s.arrivals w).count (some u, x)

/-- Arrivals of `x` at `u` that `u` passes on to `w`. -/
def State.due (s : State V τ) (u w : V) (x : τ) : Nat :=
  (s.arrivals u).countP fun a => a.2 = x ∧ a.1 ≠ some w

/-- Every token entered once, moves away from its origin only, and no node sends a
neighbour more of it than is due. -/
structure Flooding (G : SimpleGraph V) (origin : τ → V) (s : State V τ) : Prop where
  entered : ∀ v x, (none, x) ∈ s.arrivals v → v = origin x
  once : ∀ v x, (s.arrivals v).count (none, x) ≤ 1
  neighbour : ∀ u v x, (some u, x) ∈ s.arrivals v → G.Adj u v
  outward : ∀ u w x, G.Adj u w → s.along u w x ≠ 0 → Child G (origin x) u w
  bounded : ∀ u w x, G.Adj u w → s.along u w x ≤ s.due u w x
  conserved : s.intact → ∀ u w x, G.Adj u w → s.along u w x = s.due u w x

section Singleton
variable {α : Type} {P : Prop} [Decidable P] {a b : α}

theorem mem_ite : a ∈ (if P then ({b} : Multiset α) else 0) ↔ P ∧ a = b := by
  by_cases hP : P <;> simp [hP]

theorem count_ite [DecidableEq α] :
    (if P then ({b} : Multiset α) else 0).count a = if P ∧ a = b then 1 else 0 := by
  by_cases hP : P <;> simp [hP, Multiset.count_singleton]

theorem countP_ite {p : α → Prop} [DecidablePred p] :
    (if P then ({b} : Multiset α) else 0).countP p = if P ∧ p b then 1 else 0 := by
  by_cases hP : P
  · by_cases hb : p b <;> simp [hP, hb, ← Multiset.cons_zero, Multiset.countP_cons_of_pos,
      Multiset.countP_cons_of_neg]
  · simp [hP]

end Singleton

/-- What a step adds to the copies of a token on an edge it adds to what is due there,
unless it loses some. -/
structure Flow (G : SimpleGraph V) (origin : τ → V) (s t : State V τ) (d : V → V → τ → Nat) :
    Prop where
  due : ∀ u w y, G.Adj u w → t.due u w y = s.due u w y + d u w y
  along_le : ∀ u w y, G.Adj u w → t.along u w y ≤ s.along u w y + d u w y
  along : t.intact → s.intact ∧ ∀ u w y, G.Adj u w → t.along u w y = s.along u w y + d u w y
  outward : ∀ u w y, G.Adj u w → d u w y ≠ 0 → Child G (origin y) u w

theorem Flow.of_eq {d : V → V → τ → Nat} (hint : t.intact → s.intact)
    (due : ∀ u w y, G.Adj u w → t.due u w y = s.due u w y + d u w y)
    (along : ∀ u w y, G.Adj u w → t.along u w y = s.along u w y + d u w y)
    (outward : ∀ u w y, G.Adj u w → d u w y ≠ 0 → Child G (origin y) u w) : Flow G origin s t d :=
  ⟨due, fun u w y h => (along u w y h).le, fun ht => ⟨hint ht, along⟩, outward⟩

theorem exists_flow (hG : G.IsAcyclic) (h : Step G origin s t) (hs : Flooding G origin s) :
    ∃ d, Flow G origin s t d := by
  cases h with
  | idle harr howed hwire hint =>
    refine ⟨fun _ _ _ => 0, .of_eq hint ?_ ?_ (by simp)⟩
    · intro u w y _
      simp [State.due, harr]
    · intro u w y h
      simp [State.along, harr, howed u w h, hwire u w h]
  | enter x fresh harr howed hwire hint =>
    refine ⟨fun u _ y => if u = origin x ∧ y = x then 1 else 0, .of_eq hint ?_ ?_ ?_⟩
    · intro u w y _
      simp [State.due, harr, countP_ite, eq_comm]
    · intro u w y h
      have hnone : (if w = origin x then ({(none, x)} : Multiset (Option V × τ)) else 0).count
          (some u, y) = 0 := by simp [count_ite]
      simp only [State.along, harr, howed u w h, hwire u w h, Multiset.count_add, count_ite, hnone]
      omega
    · intro u w y h hd
      obtain ⟨rfl, rfl⟩ : u = origin x ∧ y = x := by simpa using hd
      exact child_root h
  | send u v x harr howed hwire hint =>
    refine ⟨fun _ _ _ => 0, .of_eq hint ?_ ?_ (by simp)⟩
    · intro u w y _
      simp [State.due, harr]
    · intro u w y h
      simp only [State.along, harr, howed u w h, hwire u w h, Multiset.count_add]
      omega
  | take u v x hadj harr howed hwire hint =>
    refine ⟨fun u' w' y => if (u' = v ∧ w' ≠ u) ∧ y = x then 1 else 0, .of_eq hint ?_ ?_ ?_⟩
    · intro u' w' y _
      simp only [State.due, harr, Multiset.countP_add, countP_ite]
      grind
    · intro u' w' y h
      have harrived : (if w' = v then ({(some u, x)} : Multiset (Option V × τ)) else 0).count
          (some u', y) = if (u' = u ∧ w' = v) ∧ y = x then 1 else 0 := by
        rw [count_ite]
        grind
      simp only [State.along, harr, howed u' w' h, hwire u' w' h, Multiset.count_add, count_ite,
        harrived]
      omega
    · intro u' w' y h hd
      obtain ⟨rfl, hne, rfl⟩ : u' = v ∧ w' ≠ u ∧ y = x := by simpa using hd
      have hon : s.along u u' y ≠ 0 := by
        simp [State.along, hwire u u' hadj]
      have hparent := hs.outward u u' y hadj hon
      apply (child_or_child hG hparent.reachable h).resolve_right
      exact fun hc => hne (hc.unique hG hparent)
  | drop harr howed hwire hint =>
    refine ⟨fun _ _ _ => 0, ?_, ?_, fun ht => (hint ht).elim, by simp⟩
    · intro u w y _
      simp [State.due, harr]
    · intro u w y h
      have := Multiset.count_le_of_le y (hwire u w h)
      simp [State.along, harr, howed u w h]
      omega

theorem flooding_step (hG : G.IsAcyclic) (h : Step G origin s t) (hs : Flooding G origin s) :
    Flooding G origin t := by
  obtain ⟨d, hd⟩ := exists_flow hG h hs
  have harrived : ∀ a v, a ∈ t.arrivals v → a ∈ s.arrivals v ∨
      (∃ x, a = (none, x) ∧ v = origin x) ∨ ∃ u x, a = (some u, x) ∧ G.Adj u v := by
    intro a v ha
    cases h with
    | idle harr | send _ _ _ harr | drop harr => exact Or.inl (harr v ▸ ha)
    | enter x _ harr =>
      rw [harr, Multiset.mem_add, mem_ite] at ha
      exact ha.imp_right fun h => Or.inl ⟨x, h.2, h.1⟩
    | take u v x hadj harr =>
      rw [harr, Multiset.mem_add, mem_ite] at ha
      rcases ha with ha | ⟨rfl, rfl⟩
      · exact Or.inl ha
      · exact Or.inr (Or.inr ⟨u, x, rfl, hadj⟩)
  refine ⟨?_, ?_, ?_, ?_, ?_, ?_⟩
  · intro v x hx
    rcases harrived _ v hx with hx | ⟨y, he, hv⟩ | ⟨u, y, he, -⟩
    · exact hs.entered v x hx
    · cases he
      exact hv
    · cases he
  · intro v y
    have hle := hs.once v y
    cases h with
    | idle harr | send _ _ _ harr | drop harr => rwa [harr]
    | enter x fresh harr =>
      rw [harr, Multiset.count_add, count_ite]
      split
      · rename_i hv
        obtain ⟨rfl, he⟩ := hv
        rw [he, Multiset.count_eq_zero.mpr fresh]
      · exact hle
    | take u v x hadj harr =>
      rw [harr, Multiset.count_add, count_ite]
      simpa using hle
  · intro u v x hx
    rcases harrived _ v hx with hx | ⟨y, he, -⟩ | ⟨u', y, he, hadj⟩
    · exact hs.neighbour u v x hx
    · cases he
    · cases he
      exact hadj
  · intro u w x h hne
    by_cases hz : d u w x = 0
    · have := hd.along_le u w x h
      exact hs.outward u w x h (by omega)
    · exact hd.outward u w x h hz
  · intro u w x h
    have := hs.bounded u w x h
    rw [hd.due u w x h]
    exact (hd.along_le u w x h).trans (by omega)
  · intro hint u w x h
    obtain ⟨hint, heq⟩ := hd.along hint
    rw [heq u w x h, hd.due u w x h, hs.conserved hint u w x h]

/-- Arrivals of `x` at `v` from anywhere. -/
def State.total (s : State V τ) (v : V) (x : τ) : Nat := (s.arrivals v).countP fun a => a.2 = x

/-- Arrivals of `x` at `v` from a neighbour. -/
def State.accepted (s : State V τ) (v : V) (x : τ) : Nat :=
  (s.arrivals v).countP fun a => a.2 = x ∧ a.1 ≠ none

theorem Flooding.child_of_arrival (hs : Flooding G origin s) (h : (some u, x) ∈ s.arrivals v) :
    Child G (origin x) u v := by
  apply hs.outward u v x (hs.neighbour u v x h)
  have := Multiset.one_le_count_iff_mem.mpr h
  simp only [State.along]
  omega

theorem Flooding.due_eq_total (hs : Flooding G origin s)
    (hc : Child G (origin x) u w) : s.due u w x = s.total u x := by
  apply Multiset.countP_congr rfl
  rintro ⟨source, y⟩ ha
  simp only [eq_iff_iff, and_iff_left_iff_imp]
  rintro rfl rfl
  have hback := hs.child_of_arrival ha
  have := hback.dist
  have := hc.dist
  omega

/-- A token reaches a node from its parent only. -/
theorem Flooding.total_eq_count (hs : Flooding G origin s) (hG : G.IsAcyclic)
    (hc : Child G (origin x) u w) : s.total w x = (s.arrivals w).count (some u, x) := by
  apply Multiset.countP_congr rfl
  rintro ⟨source, y⟩ ha
  simp only [eq_iff_iff, Prod.mk.injEq]
  constructor
  · rintro rfl
    cases source with
    | none => exact (hc.ne_root (hs.entered w y ha)).elim
    | some v => exact ⟨by rw [hc.unique hG (hs.child_of_arrival ha)], rfl⟩
  · rintro ⟨-, rfl⟩
    rfl

theorem Flooding.total_root (hs : Flooding G origin s) :
    s.total (origin x) x = (s.arrivals (origin x)).count (none, x) := by
  apply Multiset.countP_congr rfl
  rintro ⟨source, y⟩ ha
  simp only [eq_iff_iff, Prod.mk.injEq]
  constructor
  · rintro rfl
    cases source with
    | none => exact ⟨rfl, rfl⟩
    | some v => exact ((hs.child_of_arrival ha).ne_root rfl).elim
  · rintro ⟨-, rfl⟩
    rfl

theorem Flooding.accepted_root (hs : Flooding G origin s) : s.accepted (origin x) x = 0 := by
  rw [State.accepted, Multiset.countP_eq_zero]
  rintro ⟨_ | u, y⟩ ha ⟨rfl, hne⟩
  · exact hne rfl
  · exact (hs.child_of_arrival ha).ne_root rfl

theorem Flooding.accepted_eq_total (hs : Flooding G origin s) (hv : v ≠ origin x) :
    s.accepted v x = s.total v x := by
  apply Multiset.countP_congr rfl
  rintro ⟨source, y⟩ ha
  simp only [eq_iff_iff, and_iff_left_iff_imp]
  rintro rfl rfl
  exact hv (hs.entered v y ha)

theorem Flooding.accepted_unreachable (hs : Flooding G origin s)
    (hv : ¬ G.Reachable (origin x) v) : s.accepted v x = 0 := by
  rw [State.accepted, Multiset.countP_eq_zero]
  rintro ⟨_ | u, y⟩ ha ⟨rfl, hne⟩
  · exact hne rfl
  · exact hv (hs.child_of_arrival ha).reachable

theorem Flooding.total_le_one (hs : Flooding G origin s) (hG : G.IsAcyclic)
    (hv : G.Reachable (origin x) v) : s.total v x ≤ 1 := by
  refine reachable_induction hG (P := fun v => s.total v x ≤ 1) ?_ ?_ hv
  · rw [hs.total_root]
    exact hs.once _ _
  · intro u w hc hu
    have hle := hs.bounded u w x hc.adj
    rw [hs.due_eq_total hc] at hle
    rw [hs.total_eq_count hG hc]
    exact (Nat.le_add_left _ _).trans (hle.trans hu)

/-- At most one copy of a token is ever accepted at a node. -/
theorem Flooding.accepted_le_one (hs : Flooding G origin s) (hG : G.IsAcyclic) (v : V) (x : τ) :
    s.accepted v x ≤ 1 := by
  by_cases hv : v = origin x
  · rw [hv, hs.accepted_root]
    exact Nat.zero_le 1
  · by_cases hr : G.Reachable (origin x) v
    · exact hs.accepted_eq_total hv ▸ hs.total_le_one hG hr
    · rw [hs.accepted_unreachable hr]
      exact Nat.zero_le 1

/-- When nothing is owed or on its way, every other node of the tree has the token. -/
theorem Flooding.accepted_quiet (hs : Flooding G origin s) (hG : G.IsAcyclic) (hi : s.intact)
    (howed : ∀ u w, G.Adj u w → s.owed u w = 0) (hwire : ∀ u w, G.Adj u w → s.wire u w = 0)
    (hx : (none, x) ∈ s.arrivals (origin x)) (hr : G.Reachable (origin x) v)
    (hv : v ≠ origin x) : s.accepted v x = 1 := by
  rw [hs.accepted_eq_total hv]
  refine reachable_induction hG (P := fun v => s.total v x = 1) ?_ ?_ hr
  · have hone := Multiset.one_le_count_iff_mem.mpr hx
    have := hs.once (origin x) x
    rw [hs.total_root]
    omega
  · intro u w hc hu
    have heq := hs.conserved hi u w x hc.adj
    rw [hs.due_eq_total hc] at heq
    rw [hs.total_eq_count hG hc]
    simpa [State.along, howed u w hc.adj, hwire u w hc.adj, hu] using heq

end Flood
