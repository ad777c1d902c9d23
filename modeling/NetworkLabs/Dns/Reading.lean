import NetworkLabs.Dns.Dictionary

/-! How the names of a packet are read and passed over. -/
namespace NetworkLabs.Dns

open Chain

variable {data bs text : List UInt8} {ls : List (List UInt8)} {xs : List (List UInt8)}
  {p q k nptrs fuel : Nat} {slots : List (Nat × List (List UInt8))}
  {ok : Nat → List (List UInt8) → Prop} {c : Nat → Option (Cell (List UInt8))}

theorem lower_append (s t : List UInt8) : lower (s ++ t) = lower s ++ lower t := List.map_append

namespace Domain

theorem expandLoop_jumps (h : Jumps (cell data) k p q) (hk : nptrs + k ≤ maxPtrs) :
    expandLoop data (fuel + k) nptrs p text = expandLoop data fuel (nptrs + k) q text := by
  induction h generalizing nptrs with
  | here => rfl
  | @jump k p q t hp _ ih =>
    obtain ⟨-, ⟨hc, -⟩ | ⟨l, hc, -⟩ | ⟨hi, lo, hc, hplaced, hhi⟩⟩ := cell_cases hp
    · cases hc
    · cases hc
    · cases hc
      rw [← Nat.add_assoc, expandLoop]
      simp only [hplaced.getElem?, hplaced.second]
      rw [if_neg (by omega), if_neg (by omega), if_neg (by omega), ih (by omega)]
      rw [Nat.add_assoc, Nat.add_comm 1]

theorem expandLoop_root (h : Placed data p [0]) :
    expandLoop data (fuel + 1) nptrs p text = some (.ok (if text = [] then [dot] else text)) := by
  rw [expandLoop]
  simp [h.getElem?]

theorem expandLoop_wire {l : List UInt8} (h : Placed data p (wire l)) (hl : l.length < 64)
    (hne : l ≠ []) : expandLoop data (fuel + 1) nptrs p text =
      expandLoop data fuel 0 (p + 1 + l.length) (text ++ l ++ [dot]) := by
  obtain ⟨hb, hlabel⟩ := placed_wire.mp h
  have hpos := toNat_pos hl hne
  have hle := h.le (List.cons_ne_nil _ _)
  rw [toNat_length hl] at hpos
  rw [length_wire] at hle
  rw [expandLoop]
  simp only [hb, toNat_length hl, hlabel.take]
  rw [if_pos hl, if_neg hpos, if_neg (by omega)]

/-- A name is read label by label, the letters in whatever case they were stored. -/
theorem expandLoop_spells (h : Spells (cell data) ok p xs) (hok : ∀ k xs, ok k xs → k ≤ 2)
    (hfuel : 3 * xs.length < fuel) (hne : text ++ xs.flatten ≠ []) :
    ∃ t, expandLoop data fuel 0 p text = some (.ok t) ∧ lower t = lower text ++ dotted xs := by
  induction h generalizing fuel text with
  | stop hp =>
    obtain ⟨fuel, rfl⟩ : ∃ m, fuel = m + 1 := ⟨fuel - 1, by omega⟩
    obtain ⟨-, ⟨-, hplaced⟩ | ⟨l, hc, -⟩ | ⟨hi, lo, hc, -⟩⟩ := cell_cases hp
    · rw [expandLoop_root hplaced, if_neg (by simpa using hne)]
      exact ⟨text, rfl, (List.append_nil _).symm⟩
    · cases hc
    · cases hc
  | @item k p q next a xs hp hq hk h ih =>
    have hk2 := hok _ _ hk
    rw [List.length_cons] at hfuel
    obtain ⟨fuel, rfl⟩ : ∃ m, fuel = m + 1 + k := ⟨fuel - 1 - k, by omega⟩
    obtain ⟨-, ⟨hc, -⟩ | ⟨l, hc, hplaced, hl, hlne⟩ | ⟨hi, lo, hc, -⟩⟩ := cell_cases hq
    · cases hc
    · cases hc
      have hptrs : 0 + k ≤ maxPtrs := by
        rw [Nat.zero_add]
        exact hk2.trans (by decide)
      rw [expandLoop_jumps hp hptrs, expandLoop_wire hplaced hl.1 hlne]
      have hrest : 3 * xs.length < fuel := by omega
      obtain ⟨t, ht, hlower⟩ := ih hrest (show text ++ l ++ [dot] ++ xs.flatten ≠ [] by simp)
      refine ⟨t, ht, ?_⟩
      rw [hlower, lower_append, lower_append, dotted, dotted, List.flatMap_cons]
      simp only [List.append_assoc]
      rfl
    · cases hc

theorem expand_spells (h : Spells (cell data) ok p xs) (hok : ∀ k xs, ok k xs → k ≤ 2)
    (hfuel : 3 * xs.length < fuel) : ∃ t, expand fuel data p = some (.ok t) ∧
      lower t = if xs = [] then [dot] else dotted xs := by
  cases xs with
  | nil =>
    cases h with
    | stop hp =>
      obtain ⟨fuel, rfl⟩ : ∃ m, fuel = m + 1 := ⟨fuel - 1, by omega⟩
      obtain ⟨-, ⟨-, hplaced⟩ | ⟨l, hc, -⟩ | ⟨hi, lo, hc, -⟩⟩ := cell_cases hp
      · rw [expand, expandLoop_root hplaced, if_pos rfl, if_pos rfl]
        exact ⟨_, rfl, rfl⟩
      · cases hc
      · cases hc
  | cons x xs =>
    have hne : [] ++ (x :: xs).flatten ≠ [] := by
      obtain ⟨l, n, -, rfl, -, hne, -⟩ := Label.expand_cons (.refl _) h hok
      simp [lower, hne]
    obtain ⟨t, ht, hlower⟩ := expandLoop_spells h hok hfuel hne
    rw [if_neg (List.cons_ne_nil _ _)]
    exact ⟨t, ht, hlower⟩

theorem skipLoop_labels (hls : ∀ l ∈ ls, Plain l) {b : UInt8}
    (h : Placed data p (ls.flatMap wire ++ b :: bs)) :
    skipLoop data (fuel + ls.length) p = skipLoop data fuel (p + (ls.flatMap wire).length) := by
  induction ls generalizing p with
  | nil => rfl
  | cons l ls ih =>
    obtain ⟨hl, hls⟩ := List.forall_mem_cons.mp hls
    rw [List.flatMap_cons, List.append_assoc, placed_append, length_wire] at h
    have hle := h.2.le (by simp)
    rw [List.length_append, List.length_cons] at hle
    have hpos := toNat_pos hl.short hl.nonempty
    rw [toNat_length hl.short] at hpos
    rw [List.length_cons, ← Nat.add_assoc, skipLoop]
    simp only [(placed_wire.mp h.1).1, toNat_length hl.short]
    rw [if_pos hl.short, if_neg hpos, if_pos (by omega), Nat.add_assoc, Nat.add_comm 1, ih hls h.2,
      List.flatMap_cons, List.length_append, length_wire, Nat.add_assoc]

/-- The name of a record is passed over as far as its bytes go. -/
theorem skip_encoding (hls : ∀ l ∈ ls, Plain l) (henc : Encoding c slots ls bs)
    (h : Placed data p bs) : skip data p = p + bs.length := by
  cases henc with
  | full =>
    have hlength := h.le (by simp [wireName])
    have hcount := length_flatMap_le hls
    rw [length_wireName] at hlength
    obtain ⟨fuel, hfuel⟩ : ∃ m, data.length = m + 1 + ls.length :=
      ⟨data.length - 1 - ls.length, by omega⟩
    have hroot := ((placed_append p _ _).mp h).2
    rw [skip, hfuel, skipLoop_labels hls h, skipLoop, length_wireName]
    simp only [hroot.getElem?]
    rw [if_pos (by decide), if_pos (by decide), Nat.add_assoc]
  | @pointer i t pre rest hne ht =>
    have hpre : ∀ l ∈ pre, Plain l := fun l hl => hls l (List.mem_append_left rest hl)
    have htwo : (pointerBytes t).length = 2 := rfl
    have hlength := h.le (by simp [pointerBytes])
    have hcount := length_flatMap_le hpre
    rw [List.length_append, htwo] at hlength
    obtain ⟨fuel, hfuel⟩ : ∃ m, data.length = m + 1 + pre.length :=
      ⟨data.length - 1 - pre.length, by omega⟩
    have hpointer := ((placed_append p _ _).mp h).2
    have hhigh := toNat_high t
    rw [skip, hfuel, skipLoop_labels hpre h, skipLoop]
    simp only [hpointer.getElem?]
    rw [if_neg (by omega), if_neg (by omega), if_neg (by omega), List.length_append, htwo,
      Nat.add_assoc]

end Domain

variable {P P' : Packet} {nm : Name} {dn : List UInt8} {names : List (Nat × Name)}

theorem lower_dotted (ls : List (List UInt8)) : lower (dotted ls) = dotted (ls.map lower) := by
  induction ls with
  | nil => rfl
  | cons l ls ih =>
    rw [dotted, List.flatMap_cons, lower_append, lower_append, ← dotted, ih, List.map_cons, dotted,
      dotted, List.flatMap_cons]
    rfl

/-- A name that stands in a packet is read as it was given, but for the case of letters. -/
theorem expand_name (h : Spells (cell data) (fun k _ => k ≤ 2) p (nm.labels.map lower))
    (hfuel : 3 * nm.labels.length < fuel) :
    ∃ t, Domain.expand fuel data p = some (.ok t) ∧ lower t = lower nm.text := by
  obtain ⟨t, ht, hlower⟩ := Domain.expand_spells h (fun _ _ hk => hk) (by simpa using hfuel)
  refine ⟨t, ht, ?_⟩
  rw [hlower, Name.text]
  by_cases hls : nm.labels = []
  · rw [if_pos (by simpa using hls), if_pos hls]
    rfl
  · rw [if_neg (by simpa using hls), if_neg hls, lower_dotted]

theorem plain_of_letter {b : UInt8} (hnul : b ≠ 0) (hdot : b ≠ dot) : Plain [b] where
  nonempty := List.cons_ne_nil _ _
  short := Nat.lt_of_lt_of_le (by decide : 1 < 64) le_rfl
  noNul := by simpa using Ne.symm hnul
  noDot := by simpa using Ne.symm hdot

namespace Packet

/-- A pushed name, and the bytes of the packet that it takes. -/
structure Site where
  start : Nat
  stop : Nat
  name : Name

/-- The bytes that some name takes. -/
def owned (sites : List Site) (q : Nat) : Prop := ∃ x ∈ sites, x.start ≤ q ∧ q < x.stop

/-- A packet of less than 65536 bytes that grows from `dns_p_init` on: names are pushed to it, other
bytes are stored behind them, and all that belongs to no name may be overwritten. `sites` says where
the names are. -/
inductive Grown (fuel : Nat) : Packet → List Site → Prop
  | init (spare : List UInt8) (hfuel : 12 + spare.length ≤ fuel)
      (hsize : 12 + spare.length < 65536) : Grown fuel (init spare) []
  | name {P P' : Packet} {sites : List Site} {nm : Name} {dn : List UInt8}
      (h : Grown fuel P sites) (hdn : nm.Given dn)
      (hpush : Domain.push fuel P dn = some (none, P')) :
      Grown fuel P' (⟨P.data.length, P'.data.length, nm⟩ :: sites)
  | other {P P' : Packet} {sites : List Site} (h : Grown fuel P sites)
      (hdict : P'.dict = P.dict) (hsize : P'.size = P.size)
      (hagree : Agree (owned sites) P.data P'.data)
      (hle : P.data.length ≤ P'.data.length) : Grown fuel P' sites

/-- What the next steps leave as it is: the names can be read from their own bytes. -/
structure Standing (P : Packet) (sites : List Site) (x : Site) : Prop where
  stop : x.stop ≤ P.data.length
  short : 2 * x.name.labels.length < P.size
  spells : Spells (within (owned sites) P.data) (fun k _ => k ≤ 2) x.start (x.name.labels.map lower)

theorem Standing.agree {sites sites' : List Site} {x : Site} (h : Standing P sites x)
    (hagree : Agree (owned sites) P.data P'.data) (hsub : ∀ q, owned sites q → owned sites' q)
    (hle : P.data.length ≤ P'.data.length) (hsize : P'.size = P.size) : Standing P' sites' x :=
  ⟨h.stop.trans hle, hsize ▸ h.short, h.spells.extend (hagree.extends hsub)⟩

theorem Grown.held {sites : List Site} (h : Grown fuel P sites) : P.size ≤ fuel ∧
    (∃ slots, Held (owned sites) P slots) ∧ ∀ x ∈ sites, Standing P sites x := by
  induction h with
  | init spare hfuel => exact ⟨hfuel, ⟨[], held_init _ spare⟩, fun x hx => by cases hx⟩
  | @name P P' sites nm dn _ hdn hpush ih =>
    obtain ⟨hfuel, ⟨slots, hheld⟩, hsites⟩ := ih
    obtain ⟨e, P'', hpush', ⟨-, bs, hwritten⟩ | ⟨rfl, -⟩⟩ :=
      hheld.push rfl rfl (fun _ _ => rfl) hdn hfuel
    · cases hpush.symm.trans hpush'
      have hlength : P'.data.length = P.data.length + bs.length := by
        rw [hwritten.data, List.length_append]
      have hagree : Agree (owned sites) P.data P'.data := by
        rintro q ⟨x, hx, -, hlt⟩
        rw [hwritten.data, List.getElem?_append_left (Nat.lt_of_lt_of_le hlt (hsites x hx).stop)]
      have hsub (q : Nat) (hq : owned sites q) :
          owned (⟨P.data.length, P'.data.length, nm⟩ :: sites) q :=
        hq.imp fun _ hx => hx.imp_left (List.mem_cons_of_mem _)
      obtain ⟨hheld', hspells⟩ := hwritten.settle P' _ hagree hsub
        ⟨[], by rw [hwritten.data]; simp⟩
        (fun q hle hlt => ⟨_, List.mem_cons_self, hle, hlength ▸ hlt⟩) rfl hwritten.size
      refine ⟨hwritten.size ▸ hfuel, hheld', fun x hx => ?_⟩
      rcases List.mem_cons.mp hx with rfl | hx
      · have hfits := hwritten.fits
        refine ⟨Nat.le_refl _, ?_, hspells⟩
        rw [hwritten.size]
        show 2 * nm.labels.length < P.size
        omega
      · exact (hsites x hx).agree hagree hsub (by omega) hwritten.size
    · cases hpush.symm.trans hpush'
  | other _ hdict hsize hagree hle ih =>
    obtain ⟨hfuel, ⟨slots, hheld⟩, hsites⟩ := ih
    exact ⟨hsize ▸ hfuel, ⟨slots, hheld.agree hdict hsize hagree fun _ hq => hq⟩,
      fun x hx => (hsites x hx).agree hagree (fun _ hq => hq) hle hsize⟩

/-- However it grew, the next name is stored or there is no room for it, and all the names in it are
read as they were given, but for the case of letters. -/
theorem Grown.read_back {sites : List Site} (h : Grown fuel P sites) (hfuel : 2 * P.size ≤ fuel) :
    (∀ (nm : Name) dn, nm.Given dn → ∃ P', Domain.push fuel P dn = some (none, P') ∨
      Domain.push fuel P dn = some (some .nobufs, P')) ∧
    ∀ x ∈ sites, ∃ t, Domain.expand fuel P.data x.start = some (.ok t) ∧
      lower t = lower x.name.text := by
  obtain ⟨hsize, ⟨slots, hheld⟩, hsites⟩ := h.held
  refine ⟨fun nm dn hdn => ?_, fun x hx => ?_⟩
  · obtain ⟨e, P', hpush, ⟨rfl, -⟩ | ⟨rfl, -⟩⟩ := hheld.push rfl rfl (fun _ _ => rfl) hdn hsize
    · exact ⟨P', .inl hpush⟩
    · exact ⟨P', .inr hpush⟩
  · obtain ⟨-, hshort, hspells⟩ := hsites x hx
    exact expand_name (hspells.extend (within_extends _ _)) (by omega)

def Name.letters (a b : UInt8) (h : (a ≠ 0 ∧ a ≠ dot) ∧ b ≠ 0 ∧ b ≠ dot)
    (hne : tolower a ≠ tolower b) : Name where
  labels := [[a], [b]]
  plain := by
    intro l hl
    rcases List.mem_pair.mp hl with rfl | rfl
    · exact plain_of_letter h.1.1 h.1.2
    · exact plain_of_letter h.2.1 h.2.2
  distinct := by simpa [lower] using hne

/-- The packet that a.b. was pushed to, then two bytes and then c.b. without its last dot. -/
def twoNames : Packet :=
  ⟨[0, 0, 0, 0, 0, 0, 0, 0, 0, 0, 0, 0, 1, 97, 1, 98, 0, 7, 7, 1, 99, 192, 14],
    List.replicate 7 0, [12, 19], .zero, by decide⟩

/-- Afterwards a count is set in the header, and the two bytes are overwritten. -/
def overwritten : Packet :=
  { twoNames with
    data := [0, 0, 0, 0, 0, 1, 0, 0, 0, 0, 0, 0, 1, 97, 1, 98, 0, 192, 3, 1, 99, 192, 14]
    header := by decide }

theorem Grown.read_back_twoNames :
    (∀ (nm : Name) dn, nm.Given dn → ∃ P', Domain.push 60 overwritten dn = some (none, P') ∨
      Domain.push 60 overwritten dn = some (some .nobufs, P')) ∧
    ∀ x ∈ [(⟨19, 23, Name.letters 99 98 (by decide) (by decide)⟩ : Site),
        ⟨12, 17, Name.letters 97 98 (by decide) (by decide)⟩],
      ∃ t, Domain.expand 60 overwritten.data x.start = some (.ok t) ∧
        lower t = lower x.name.text := by
  have hone : Grown 60 ((Packet.init (List.replicate 18 0)).put [1, 97, 1, 98, 0] |>.dictadd 12)
      [⟨12, 17, Name.letters 97 98 (by decide) (by decide)⟩] :=
    .name (.init (List.replicate 18 0) (by decide) (by decide)) (.inl rfl) rfl
  have hbytes : Grown 60
      (((Packet.init (List.replicate 18 0)).put [1, 97, 1, 98, 0] |>.dictadd 12).put [7, 7])
      [⟨12, 17, Name.letters 97 98 (by decide) (by decide)⟩] := by
    refine .other hone rfl rfl ?_ (by decide)
    rintro q ⟨x, hx, hle, hlt⟩
    obtain rfl := List.mem_singleton.mp hx
    exact List.getElem?_append_left hlt
  have htwo : Grown 60 twoNames [⟨19, 23, Name.letters 99 98 (by decide) (by decide)⟩,
      ⟨12, 17, Name.letters 97 98 (by decide) (by decide)⟩] :=
    .name hbytes (show Name.Given _ [99, 46, 98] from .inr ⟨by simp [Name.letters], rfl⟩) rfl
  have hover : Grown 60 overwritten [⟨19, 23, Name.letters 99 98 (by decide) (by decide)⟩,
      ⟨12, 17, Name.letters 97 98 (by decide) (by decide)⟩] := by
    refine .other htwo rfl rfl ?_ (Nat.le_refl _)
    have hsame : ∀ q < 23, (19 ≤ q ∨ 12 ≤ q ∧ q < 17) →
        overwritten.data[q]? = twoNames.data[q]? := by
      decide
    rintro q ⟨x, hx, hle, hlt⟩
    rcases List.mem_pair.mp hx with rfl | rfl
    · exact hsame q hlt (.inl hle)
    · exact hsame q (Nat.lt_trans hlt (by decide)) (.inr ⟨hle, hlt⟩)
  exact hover.read_back (by decide)

-- x.w., y.y.z. and x.y.z. are pushed in turn: the label that the first walk has stopped at is
-- compared again, so a name with a label that comes twice makes the last one read as y.y.z.
example : (do
    let (_, P) ← Domain.push 80 (.init (List.replicate 40 0)) [120, 46, 119, 46]
    let (_, P) ← Domain.push 80 P [121, 46, 121, 46, 122, 46]
    let (_, P) ← Domain.push 80 P [120, 46, 121, 46, 122, 46]
    Domain.expand 80 P.data 24) = some (.ok [121, 46, 121, 46, 122, 46]) := by decide +kernel

end Packet

end NetworkLabs.Dns
