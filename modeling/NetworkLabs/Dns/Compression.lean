import NetworkLabs.Dns.Names
import Mathlib.Data.List.TakeWhile

/-! The body of a packet as a store of labels, and what the search of `dns_d_comp` finds in it. -/
namespace NetworkLabs.Dns

open Chain

variable {data data' dst bs : List UInt8} {l : List UInt8} {ls : List (List UInt8)}
  {p q k n t ptrs : Nat} {a : List UInt8} {hi lo : UInt8} {ok : Nat → List (List UInt8) → Prop}
  {c : Nat → Option (Cell (List UInt8))}

/-- The bytes stand at `p`. -/
def Placed (data : List UInt8) (p : Nat) (bs : List UInt8) : Prop := bs <+: data.drop p

/-- What stands at a place behind the header, the letters of a label without their case. -/
def cell (data : List UInt8) (p : Nat) : Option (Cell (List UInt8)) :=
  if p < 12 then none
  else
    match data[p]? with
    | none => none
    | some b =>
      if b.toNat = 0 then some .stop
      else if b.toNat < 64 then
        let l := (data.drop (p + 1)).take b.toNat
        if l.length = b.toNat ∧ 0 ∉ l then some (.item (lower l) (p + 1 + b.toNat)) else none
      else if b.toNat < 192 then none
      else data[p + 1]?.map fun lo => .jump (pointer b lo)

/-- A label as the loops can compare it. -/
def Legible (l : List UInt8) : Prop := l.length < 64 ∧ 0 ∉ l

theorem Plain.legible (h : Plain l) : Legible l := ⟨h.short, h.noNul⟩

theorem placed_append (p : Nat) (as bs : List UInt8) :
    Placed data p (as ++ bs) ↔ Placed data p as ∧ Placed data (p + as.length) bs := by
  constructor
  · rintro ⟨rest, hrest⟩
    refine ⟨⟨bs ++ rest, by rw [← hrest, List.append_assoc]⟩, rest, ?_⟩
    rw [← List.drop_drop, ← hrest, List.append_assoc, List.drop_left]
  · rintro ⟨⟨as', has⟩, bs', hbs⟩
    rw [← List.drop_drop, ← has, List.drop_left] at hbs
    exact ⟨bs', by rw [← has, ← hbs, List.append_assoc]⟩

theorem Placed.getElem? {b : UInt8} (h : Placed data p (b :: bs)) : data[p]? = some b := by
  obtain ⟨rest, hrest⟩ := h
  rw [← List.head?_drop, ← hrest]
  rfl

theorem placed_of_getElem? {b : UInt8} (h : data[p]? = some b) : Placed data p [b] := by
  obtain ⟨hlt, rfl⟩ := List.getElem?_eq_some_iff.mp h
  rw [Placed, List.drop_eq_getElem_cons hlt]
  exact ⟨_, rfl⟩

theorem Placed.take (h : Placed data p bs) : (data.drop p).take bs.length = bs :=
  (List.prefix_iff_eq_take.mp h).symm

theorem Placed.le (h : Placed data p bs) (hne : bs ≠ []) : p + bs.length ≤ data.length := by
  have hle := h.length_le
  have hpos := List.length_pos_iff.mpr hne
  rw [List.length_drop] at hle
  omega

theorem Placed.second {b c : UInt8} (h : Placed data p (b :: c :: bs)) : data[p + 1]? = some c :=
  ((placed_append p [b] (c :: bs)).mp h).2.getElem?

theorem placed_wire : Placed data p (wire l) ↔
    data[p]? = some (UInt8.ofNat l.length) ∧ Placed data (p + 1) l := by
  rw [wire, ← List.singleton_append, placed_append]
  exact ⟨fun h => ⟨h.1.getElem?, h.2⟩, fun h => ⟨placed_of_getElem? h.1, h.2⟩⟩

theorem toNat_length (h : l.length < 64) : (UInt8.ofNat l.length).toNat = l.length := by
  rw [UInt8.toNat_ofNat']
  omega

theorem toNat_pos (h : l.length < 64) (hne : l ≠ []) : (UInt8.ofNat l.length).toNat ≠ 0 := by
  rw [toNat_length h]
  exact fun h => hne (List.eq_nil_of_length_eq_zero h)

namespace Label

/-- The label at a place that is not reached through a pointer; the root has none. -/
theorem expand_wire (h : Placed data p (wire l)) (hl : l.length < 64) :
    expand data ptrs p = (l, p + 1 + l.length) := by
  obtain ⟨hp, hlabel⟩ := placed_wire.mp h
  have hle := h.le (List.cons_ne_nil _ _)
  rw [length_wire] at hle
  unfold expand
  simp only [hp, toNat_length hl]
  rw [if_pos hl, if_neg (by omega), hlabel.take]

theorem expand_pointer (h : Placed data p [hi, lo]) (hhi : 192 ≤ hi.toNat) :
    expand data (ptrs + 1) p = expand data ptrs (pointer hi lo) := by
  rw [expand]
  simp only [h.getElem?, h.second]
  rw [if_neg (by omega), if_neg (by omega)]

end Label

theorem cell_wire (hp : 12 ≤ p) (h : Placed data p (wire l)) (hl : Legible l) (hne : l ≠ []) :
    cell data p = some (.item (lower l) (p + 1 + l.length)) := by
  obtain ⟨hb, hlabel⟩ := placed_wire.mp h
  have hpos := toNat_pos hl.1 hne
  rw [toNat_length hl.1] at hpos
  unfold cell
  rw [if_neg (by omega)]
  simp only [hb, toNat_length hl.1, hlabel.take]
  rw [if_neg hpos, if_pos hl.1, if_pos ⟨trivial, hl.2⟩]

theorem cell_root (hp : 12 ≤ p) (h : Placed data p [0]) : cell data p = some .stop := by
  unfold cell
  rw [if_neg (by omega)]
  simp [h.getElem?]

theorem cell_pointer (hp : 12 ≤ p) (h : Placed data p [hi, lo]) (hhi : 192 ≤ hi.toNat) :
    cell data p = some (.jump (pointer hi lo)) := by
  unfold cell
  rw [if_neg (by omega)]
  simp only [h.getElem?, h.second, Option.map_some]
  rw [if_neg (by omega), if_neg (by omega), if_neg (by omega)]

/-- What a place can hold. -/
theorem cell_cases {c : Cell (List UInt8)} (h : cell data p = some c) : 12 ≤ p ∧
    (c = .stop ∧ Placed data p [0] ∨
      (∃ l, c = .item (lower l) (p + 1 + l.length) ∧ Placed data p (wire l) ∧ Legible l ∧
        l ≠ []) ∨
      ∃ hi lo, c = .jump (pointer hi lo) ∧ Placed data p [hi, lo] ∧ 192 ≤ hi.toNat) := by
  unfold cell at h
  split at h
  · cases h
  rename_i hp
  refine ⟨by omega, ?_⟩
  split at h
  · cases h
  rename_i b hb
  split at h
  · rename_i hzero
    cases h
    obtain rfl : b = 0 := UInt8.toNat_inj.mp hzero
    exact .inl ⟨rfl, placed_of_getElem? hb⟩
  rename_i hzero
  split at h
  · rename_i hshort
    dsimp only at h
    split at h
    · rename_i hl
      obtain ⟨hlength, hnul⟩ := hl
      cases h
      refine .inr (.inl ⟨_, by rw [hlength], ?_, ⟨by omega, hnul⟩, ?_⟩)
      · rw [placed_wire, hlength, UInt8.ofNat_toNat]
        exact ⟨hb, List.take_prefix _ _⟩
      · intro hnil
        rw [hnil] at hlength
        exact hzero hlength.symm
    · cases h
  · split at h
    · cases h
    · rename_i hhi
      obtain ⟨lo, hlo, rfl⟩ := Option.map_eq_some_iff.mp h
      refine .inr (.inr ⟨b, lo, rfl, ?_, by omega⟩)
      exact (placed_append p [b] [lo]).mpr ⟨placed_of_getElem? hb, placed_of_getElem? hlo⟩

/-- The body of a packet stays as it is, and may be followed by more. -/
def Keeps (data data' : List UInt8) : Prop :=
  ∀ p, 12 ≤ p → p < data.length → data'[p]? = data[p]?

theorem Keeps.placed (h : Keeps data data') (hp : 12 ≤ p) (hbs : Placed data p bs) :
    Placed data' p bs := by
  rw [Placed, List.prefix_iff_getElem?] at hbs ⊢
  intro i hi
  have hget := hbs i hi
  rw [List.getElem?_drop] at hget ⊢
  rw [h (p + i) (by omega) (List.getElem?_eq_some_iff.mp hget).1, hget]

theorem Keeps.extends (h : Keeps data data') : Extends (cell data) (cell data') := by
  intro p c hc
  obtain ⟨hp, ⟨rfl, hroot⟩ | ⟨l, rfl, hl, hlegible, hne⟩ | ⟨hi, lo, rfl, hjump, hhi⟩⟩ :=
    cell_cases hc
  · exact cell_root hp (h.placed hp hroot)
  · exact cell_wire hp (h.placed hp hl) hlegible hne
  · exact cell_pointer hp (h.placed hp hjump) hhi

namespace Label

theorem expand_jumps (h : Jumps (cell data) k p q) (hk : k ≤ ptrs) :
    expand data ptrs p = expand data (ptrs - k) q := by
  induction h generalizing ptrs with
  | here => rfl
  | jump hp _ ih =>
    obtain ⟨ptrs, rfl⟩ : ∃ m, ptrs = m + 1 := ⟨ptrs - 1, by omega⟩
    obtain ⟨-, ⟨hc, -⟩ | ⟨l, hc, -⟩ | ⟨hi, lo, hc, hplaced, hhi⟩⟩ := cell_cases hp
    · cases hc
    · cases hc
    · cases hc
      rw [expand_pointer hplaced hhi, ih (by omega), Nat.add_sub_add_right]

/-- The next label of a name, and the place where its rest stands. -/
theorem expand_cons (hc : Extends c (cell data)) (h : Spells c ok p (a :: ls))
    (hok : ∀ k xs, ok k xs → k ≤ ptrs) : ∃ l n, expand data ptrs p = (l, n) ∧ a = lower l ∧
      Legible l ∧ l ≠ [] ∧ Spells c ok n ls := by
  cases h with
  | item hp hq hk hls =>
    obtain ⟨-, ⟨hcell, -⟩ | ⟨l, hcell, hplaced, hl, hne⟩ | ⟨hi, lo, hcell, -⟩⟩ :=
      cell_cases (hc _ _ hq)
    · cases hcell
    · cases hcell
      refine ⟨l, _, ?_, rfl, hl, hne, hls⟩
      rw [expand_jumps (hp.extend hc) (hok _ _ hk), expand_wire hplaced hl.1]
    · cases hcell

theorem expand_nil (hc : Extends c (cell data)) (h : Spells c ok p []) :
    expand data ptrs p = ([], p + 1) := by
  cases h with
  | stop hp =>
    obtain ⟨-, ⟨-, hplaced⟩ | ⟨l, hcell, -⟩ | ⟨hi, lo, hcell, -⟩⟩ := cell_cases (hc _ _ hp)
    · exact expand_wire (l := []) hplaced (by decide)
    · cases hcell
    · cases hcell

end Label

theorem sameText_iff {l l' : List UInt8} (hl : 0 ∉ l) (hl' : 0 ∉ l') :
    sameText l l' = true ↔ lower l = lower l' := by
  have hself (m : List UInt8) (hm : 0 ∉ m) : cstring m = m := by
    rw [cstring, List.takeWhile_eq_self_iff]
    intro b hb
    simp only [ne_eq, decide_not, Bool.not_eq_true', decide_eq_false_iff_not]
    rintro rfl
    exact hm hb
  rw [sameText, hself l hl, hself l' hl', beq_iff_eq, lower, lower]

theorem expand_wireName (ptrs : Nat) (h : Placed dst p (wireName (l :: ls)))
    (hl : l.length < 64) :
    Label.expand dst ptrs p = (l, p + 1 + l.length) ∧
      Placed dst (p + 1 + l.length) (wireName ls) := by
  rw [wireName_cons, placed_append, length_wire] at h
  refine ⟨Label.expand_wire h.1 hl, ?_⟩
  rw [Nat.add_assoc, Nat.add_comm 1]
  exact h.2

theorem expand_root (h : Placed dst p (wireName [])) : Label.expand dst ptrs p = ([], p + 1) :=
  Label.expand_wire (l := []) h (by decide)

namespace Domain

variable {as : List (List UInt8)} {xs : List (List UInt8)} {fuel ax ay b_y bp : Nat}

/-- The comparison is over at the end of the new name or with one of its labels; both names are at
their ends only if they are the same. -/
theorem compare_spells (hc : Extends c (cell data)) (hok : ∀ k xs, ok k xs → k ≤ maxPtrs)
    (has : ∀ l ∈ as, Plain l) (hfuel : as.length < fuel) (ha : Placed dst ay (wireName as))
    (hb : Spells c ok b_y xs) :
    ∃ r, compare dst data fuel (Label.expand dst maxPtrs ay) (Label.expand data maxPtrs b_y) =
        some r ∧ (r.1 = [] ∨ r.1 ∈ as) ∧ (r.1 = [] → r.2 = [] → as.map lower = xs) := by
  induction as generalizing fuel ay b_y xs with
  | nil =>
    obtain ⟨fuel, rfl⟩ : ∃ m, fuel = m + 1 := ⟨fuel - 1, by omega⟩
    rw [expand_root ha, compare, if_neg (by simp)]
    refine ⟨_, rfl, .inl rfl, fun _ hnil => ?_⟩
    cases xs with
    | nil => rfl
    | cons x xs =>
      obtain ⟨l, n, hexpand, -, -, hne, -⟩ := Label.expand_cons hc hb hok
      rw [hexpand] at hnil
      exact absurd hnil hne
  | cons l as ih =>
    obtain ⟨fuel, rfl⟩ : ∃ m, fuel = m + 1 := ⟨fuel - 1, by omega⟩
    obtain ⟨hl, has⟩ := List.forall_mem_cons.mp has
    obtain ⟨hexpand, ha⟩ := expand_wireName maxPtrs ha hl.short
    have hmem : l = [] ∨ l ∈ l :: as := .inr List.mem_cons_self
    rw [hexpand, compare]
    cases xs with
    | nil =>
      rw [Label.expand_nil hc hb, if_neg (by simp)]
      exact ⟨_, rfl, hmem, fun hnil => absurd hnil hl.nonempty⟩
    | cons x xs =>
      obtain ⟨l', n, hexpand', rfl, hl', hne', hb⟩ := Label.expand_cons hc hb hok
      rw [hexpand']
      by_cases hsame : sameText l l' = true
      · rw [if_pos ⟨hl.nonempty, hne', hsame⟩]
        obtain ⟨r, hr, hlabel, hend⟩ := ih has (by simpa using hfuel) ha hb
        refine ⟨r, hr, hlabel.imp id (List.mem_cons_of_mem l), fun h h' => ?_⟩
        rw [List.map_cons, hend h h', (sameText_iff hl.noNul hl'.2).mp hsame]
      · rw [if_neg fun h => hsame h.2.2]
        exact ⟨_, rfl, hmem, fun hnil => absurd hnil hl.nonempty⟩

/-- Once a comparison has failed behind the first label, the search goes on with a later label, or
with none. -/
def Stale (as : List (List UInt8)) (a : List UInt8) : Prop := a = [] ∨ a ∈ as

/-- Then it finds nothing. -/
theorem walk_stale (hc : Extends c (cell data)) (hok : ∀ k xs, ok k xs → k ≤ maxPtrs)
    (has : ∀ l ∈ as, Plain l) (hax : Placed dst ax (wireName as)) (hb : Spells c ok bp xs)
    (hxs : xs.Nodup) (hfuel : xs.length + as.length + 1 < fuel) (ha : Stale as a) :
    ∃ a', walk dst data ax fuel a bp = some (.inl a') ∧ Stale as a' := by
  induction xs generalizing fuel a bp with
  | nil =>
    obtain ⟨fuel, rfl⟩ : ∃ m, fuel = m + 1 := ⟨fuel - 1, by omega⟩
    rw [walk, Label.expand_nil hc hb]
    exact ⟨a, rfl, ha⟩
  | cons x xs ih =>
    obtain ⟨fuel, rfl⟩ : ∃ m, fuel = m + 1 := ⟨fuel - 1, by omega⟩
    rw [List.length_cons] at hfuel
    have hx := (List.nodup_cons.mp hxs).1
    obtain ⟨l', n, hexpand, rfl, hl', hne', hb⟩ := Label.expand_cons hc hb hok
    have hcompare : ∃ r, compare dst data fuel (a, ax) (l', n) = some r ∧ Stale as r.1 ∧
        ¬ (r.1 = [] ∧ r.2 = []) := by
      obtain ⟨fuel, rfl⟩ : ∃ m, fuel = m + 1 := ⟨fuel - 1, by omega⟩
      rw [compare]
      split
      · rename_i hsame
        obtain ⟨hne, -, hsame⟩ := hsame
        have hmem : a ∈ as := ha.resolve_left hne
        have hrest : as.length < fuel := by omega
        obtain ⟨r, hr, hlabel, hend⟩ := compare_spells hc hok has hrest hax hb
        refine ⟨r, hr, hlabel, fun h => hx ?_⟩
        rw [← hend h.1 h.2, ← (sameText_iff (has a hmem).noNul hl'.2).mp hsame]
        exact List.mem_map_of_mem hmem
      · exact ⟨_, rfl, ha, fun h => hne' h.2⟩
    obtain ⟨r, hr, hstale, hnot⟩ := hcompare
    rw [walk, hexpand]
    simp only [if_neg hne', hr, Option.bind_some]
    rw [if_neg fun h => hnot ⟨h.1, h.2.1⟩]
    exact ih hb (List.nodup_cons.mp hxs).2 (by omega) hstale

/-- Before that, it finds the rest of a name that is the new name's rest, or it goes on as before if
the name does not end so. -/
theorem walk_fresh (hc : Extends c (cell data)) (hok : ∀ k xs, ok k xs → k ≤ maxPtrs)
    (hl : Plain l) (has : ∀ l ∈ as, Plain l) (hax : Placed dst ax (wireName as))
    (hb : Spells c ok bp xs) (hxs : xs.Nodup) (hfuel : xs.length + as.length + 2 < fuel) :
    ∃ r, walk dst data ax fuel l bp = some r ∧
      ((∃ t, r = .inr t ∧ t ≤ 0x3fff ∧ Spells c ok t ((l :: as).map lower) ∧
          (l :: as).map lower <:+ xs) ∨
        r = .inl l ∧ ¬ (l :: as).map lower <:+ xs ∨ ∃ a, r = .inl a ∧ Stale as a) := by
  induction xs generalizing fuel bp with
  | nil =>
    obtain ⟨fuel, rfl⟩ : ∃ m, fuel = m + 1 := ⟨fuel - 1, by omega⟩
    rw [walk, Label.expand_nil hc hb]
    exact ⟨_, rfl, .inr (.inl ⟨rfl, by simp⟩)⟩
  | cons x xs ih =>
    obtain ⟨fuel, rfl⟩ : ∃ m, fuel = m + 2 := ⟨fuel - 2, by omega⟩
    rw [List.length_cons] at hfuel
    have hxs' := (List.nodup_cons.mp hxs).2
    obtain ⟨l', n, hexpand, rfl, hl', hne', hrest⟩ := Label.expand_cons hc hb hok
    rw [walk, hexpand]
    simp only [if_neg hne']
    rw [compare]
    by_cases hsame : sameText l l' = true
    · have hlower := (sameText_iff hl.noNul hl'.2).mp hsame
      have hcompare : as.length < fuel := by omega
      obtain ⟨r, hr, hlabel, hend⟩ := compare_spells hc hok has hcompare hax hrest
      simp only [if_pos (show l ≠ [] ∧ l' ≠ [] ∧ sameText l l' = true from
        ⟨hl.nonempty, hne', hsame⟩), hr, Option.bind_some]
      split
      · rename_i hfound
        have heq : (l :: as).map lower = lower l' :: xs := by
          rw [List.map_cons, hend hfound.1 hfound.2.1, hlower]
        rw [heq]
        exact ⟨_, rfl, .inl ⟨bp, rfl, hfound.2.2, hb, List.suffix_rfl⟩⟩
      · have hbound : xs.length + as.length + 1 < fuel + 1 := by omega
        obtain ⟨a, ha, hstale⟩ := walk_stale hc hok has hax hrest hxs' hbound hlabel
        exact ⟨_, ha, .inr (.inr ⟨a, rfl, hstale⟩)⟩
    · simp only [if_neg (show ¬ (l ≠ [] ∧ l' ≠ [] ∧ sameText l l' = true) from
        fun h => hsame h.2.2), Option.bind_some]
      rw [if_neg fun h => hne' h.2.1]
      have hbound : xs.length + as.length + 2 < fuel + 1 := by omega
      obtain ⟨r, hr, h⟩ := ih hrest hxs' hbound
      refine ⟨r, hr, ?_⟩
      rcases h with ⟨t, rfl, ht, hspells, hsub⟩ | ⟨rfl, hsub⟩ | hstale
      · exact .inl ⟨t, rfl, ht, hspells, hsub.trans (List.suffix_cons _ _)⟩
      · refine .inr (.inl ⟨rfl, fun h => ?_⟩)
        rcases List.suffix_cons_iff.mp h with heq | h
        · rw [List.map_cons, List.cons.injEq] at heq
          exact hsame ((sameText_iff hl.noNul hl'.2).mpr heq.1)
        · exact hsub h
      · exact .inr (.inr hstale)

variable {slots : List (Nat × List (List UInt8))} {ap walkFuel : Nat}

theorem shallow_le (names : List (List (List UInt8))) (i : Nat) :
    ∀ k xs, Shallow names i k xs → k ≤ maxPtrs :=
  fun _ _ h => h.1.trans (by decide)

theorem walks_stale (hc : Extends c (cell data)) {rest : List (Nat × List (List UInt8))}
    (hspells : ∀ s ∈ rest, Spells c (fun k _ => k ≤ 2) s.1 s.2)
    (htame : ∀ s ∈ rest, s.2.Nodup ∧ s.2.length + as.length + 1 < fuel) (has : ∀ l ∈ as, Plain l)
    (hax : Placed dst ax (wireName as)) (ha : Stale as a) :
    ∃ a', walks fuel dst data ax a (rest.map Prod.fst) = some (.inl a') := by
  induction rest generalizing a with
  | nil => exact ⟨a, rfl⟩
  | cons s rest ih =>
    obtain ⟨hs, hspells⟩ := List.forall_mem_cons.mp hspells
    obtain ⟨⟨hnodup, hbound⟩, htame⟩ := List.forall_mem_cons.mp htame
    obtain ⟨a', hwalk, ha'⟩ :=
      walk_stale hc (fun _ _ hk => Nat.le_trans hk (by decide)) has hax hs hnodup hbound ha
    rw [List.map_cons, walks, hwalk]
    exact ih hspells htame ha'

/-- The slots are searched in order, so what is found is the first. -/
theorem walks_fresh (hc : Extends c (cell data)) (hdir : Directory c slots)
    (htame : ∀ s ∈ slots, s.2.Nodup ∧ s.2.length + as.length + 2 < fuel) (hl : Plain l)
    (has : ∀ l ∈ as, Plain l) (hax : Placed dst ax (wireName as))
    {done rest : List (Nat × List (List UInt8))} (hsplit : slots = done ++ rest)
    (hearlier : ¬ Earlier (slots.map Prod.snd) done.length ((l :: as).map lower)) :
    ∃ r, walks fuel dst data ax l (rest.map Prod.fst) = some r ∧
      ∀ t, r = .inr t → t ≤ 0x3fff ∧ ∃ i, First c slots i t ((l :: as).map lower) := by
  induction rest generalizing done with
  | nil => exact ⟨_, rfl, fun t ht => by cases ht⟩
  | cons s rest ih =>
    have hs : slots[done.length]? = some s := by simp [hsplit]
    have hmem (x) (hx : x ∈ s :: rest) : x ∈ slots := hsplit ▸ List.mem_append_right done hx
    obtain ⟨hnodup, hbound⟩ := htame s (hmem s List.mem_cons_self)
    obtain ⟨r, hwalk, hr⟩ := walk_fresh hc (shallow_le _ _) hl has hax (hdir _ _ _ hs).spells hnodup
      hbound
    rw [List.map_cons, walks, hwalk]
    rcases hr with ⟨t, rfl, ht, hspells, hsub⟩ | ⟨rfl, hsub⟩ | ⟨a, rfl, hstale⟩
    · refine ⟨_, rfl, fun t' ht' => ?_⟩
      cases ht'
      exact ⟨ht, done.length, hspells, ⟨s.1, s.2, hs, hsub⟩, hearlier⟩
    · apply ih (show slots = (done ++ [s]) ++ rest by rw [hsplit, List.append_assoc]; rfl)
      rintro ⟨j, n, hj, hn, hsuf⟩
      rw [List.length_append, List.length_singleton] at hj
      rcases Nat.lt_or_ge j done.length with hlt | hge
      · exact hearlier ⟨j, n, hlt, hn, hsuf⟩
      · obtain rfl : j = done.length := by omega
        rw [List.getElem?_map, hs, Option.map_some, Option.some.injEq] at hn
        rw [← hn] at hsuf
        exact hsub hsuf
    · have hspells (x) (hx : x ∈ rest) : Spells c (fun k _ => k ≤ 2) x.1 x.2 := by
        obtain ⟨i, hi⟩ := List.mem_iff_getElem?.mp (hmem x (List.mem_cons_of_mem s hx))
        exact (hdir i x.1 x.2 hi).spells.mono fun _ _ h => h.1
      have hshort (x) (hx : x ∈ rest) : x.2.Nodup ∧ x.2.length + as.length + 1 < fuel := by
        have h := htame x (hmem x (List.mem_cons_of_mem s hx))
        exact ⟨h.1, by omega⟩
      obtain ⟨a', ha'⟩ := walks_stale hc hspells hshort has hax hstale
      exact ⟨_, ha', fun t ht => by cases ht⟩

/-- Where the new name goes on with a pointer, its rest is what stands at the target. -/
theorem search_spec (hc : Extends c (cell data)) (hdir : Directory c slots)
    (htame : ∀ s ∈ slots, s.2.Nodup ∧ s.2.length + as.length + 2 < walkFuel)
    (has : ∀ l ∈ as, Plain l) (hap : Placed dst ap (wireName as)) (hfuel : as.length < fuel) :
    ∃ r, search walkFuel dst data (slots.map Prod.fst) fuel ap = some r ∧
      ∀ ap' t, r = some (ap', t) → t ≤ 0x3fff ∧ ∃ pre rest i, as = pre ++ rest ∧ rest ≠ [] ∧
        ap' = ap + (pre.flatMap wire).length ∧ First c slots i t (rest.map lower) := by
  induction as generalizing fuel ap with
  | nil =>
    obtain ⟨fuel, rfl⟩ : ∃ m, fuel = m + 1 := ⟨fuel - 1, by omega⟩
    rw [search, expand_root hap]
    exact ⟨_, rfl, fun ap' t h => by cases h⟩
  | cons l as ih =>
    obtain ⟨fuel, rfl⟩ : ∃ m, fuel = m + 1 := ⟨fuel - 1, by omega⟩
    obtain ⟨hl, has⟩ := List.forall_mem_cons.mp has
    rw [List.length_cons] at hfuel htame
    obtain ⟨hexpand, hap⟩ := expand_wireName maxPtrs hap hl.short
    have hbound (s) (hs : s ∈ slots) := And.imp_right
      (fun h : s.2.length + (as.length + 1) + 2 < walkFuel =>
        show s.2.length + as.length + 2 < walkFuel by omega) (htame s hs)
    obtain ⟨r, hr, hfound⟩ := walks_fresh hc hdir hbound hl has hap
      (show slots = [] ++ slots from rfl)
      (by rintro ⟨j, n, hj, -⟩; exact absurd hj (Nat.not_lt_zero j))
    rw [search, hexpand]
    simp only [if_neg hl.nonempty, hr, Option.bind_some]
    cases r with
    | inl a =>
      have hrest : as.length < fuel := by omega
      obtain ⟨r, hr, hspec⟩ := ih hbound has hap hrest
      refine ⟨r, hr, fun ap' t h => ?_⟩
      obtain ⟨ht, pre, rest, i, rfl, hne, rfl, hfirst⟩ := hspec ap' t h
      refine ⟨ht, l :: pre, rest, i, rfl, hne, ?_, hfirst⟩
      rw [List.flatMap_cons, List.length_append, length_wire]
      omega
    | inr t =>
      obtain ⟨ht, i, hfirst⟩ := hfound t rfl
      refine ⟨_, rfl, fun ap' t' h => ?_⟩
      cases h
      exact ⟨ht, [], l :: as, i, rfl, List.cons_ne_nil _ _, by simp, hfirst⟩

end Domain

end NetworkLabs.Dns
