import NetworkLabs.Dns.Sections

/-! Which records the iterator of a packet yields, and in which order. -/
namespace NetworkLabs.Dns

open Selection

variable {data : List UInt8} {P : Packet} {i : Iter} {κ : Type*} [LinearOrder κ] {key : Record → κ}
  {look : Nat → Option (Option Record)} {want : Nat → Option Record} {m r : Record}
  {ys : List Record} {p q n fuel : Nat}

namespace Iter

/-- The record at `p` if the iterator wants it, and none if its name cannot be read to the end. -/
def found (fuel : Nat) (P : Packet) (i : Iter) (p : Nat) : Option Record :=
  (i.look fuel P p).getD none

/-- The records that the iterator wants, in the order of the packet. -/
def wanted (fuel : Nat) (P : Packet) (i : Iter) : List Record :=
  (placesFrom P.data 12).filterMap (i.found fuel P)

def order (i : Iter) : Record → Record → Int := i.sort.getD packetOrder

def before (i : Iter) (a b : Record) : Bool := i.order a b < 0

/-- No place in the packet leaves the range of `unsigned short`, and the names of its records can
be read to their ends if the iterator looks for a name. -/
structure Readable (fuel : Nat) (P : Packet) (i : Iter) : Prop where
  short : P.data.length < 65536
  names : i.name = none ∨ ∀ p ∈ placesFrom P.data 12, (Domain.expand fuel P.data p).isSome

/-- The records are sorted by this key. -/
structure Sorts (i : Iter) (key : Record → κ) : Prop where
  lt : ∀ a b, i.order a b < 0 ↔ key a < key b
  gt : ∀ a b, 0 < i.order a b ↔ key b < key a

theorem Sorts.orders (h : i.Sorts key) : Orders i.before key := by
  intro a b
  rw [before, decide_eq_true_eq]
  exact h.lt a b

theorem sorts_packet (h : i.sort = none) : i.Sorts Record.dn := by
  constructor
  · intro a b
    rw [order, h, Option.getD_none, packetOrder]
    omega
  · intro a b
    rw [order, h, Option.getD_none, packetOrder]
    omega

theorem look_eq (h : i.Readable fuel P) (hp : p ∈ placesFrom P.data 12) :
    i.look fuel P p = some (i.found fuel P p) := by
  have hsome : (i.look fuel P p).isSome := by
    unfold look
    split
    · rfl
    · rename_i rr hrr
      rw [Option.isSome_map]
      unfold wants
      split
      · rfl
      split
      · rfl
      split
      · rfl
      rcases h.names with hnone | hall
      · rw [hnone]
        rfl
      · split
        · rfl
        · rw [Option.isSome_map]
          dsimp only
          rw [(Record.parse_dn hrr).1]
          exact hall p hp
  obtain ⟨r, hr⟩ := Option.isSome_iff_exists.mp hsome
  rw [found, hr, Option.getD_some]

/-- What is found is the record at that place, with its section, and it is wanted. -/
theorem found_cases (h : i.found fuel P p = some r) : ∃ rr, Record.parse P.data p = .ok rr ∧
    r = { rr with sec := P.sectionAt p } ∧ i.wants fuel P.data r = some true := by
  unfold found look at h
  split at h
  · cases h
  · rename_i rr hrr
    dsimp only at h
    cases hw : i.wants fuel P.data { rr with sec := P.sectionAt p } with
    | none =>
      rw [hw] at h
      cases h
    | some b =>
      rw [hw] at h
      cases b with
      | false => cases h
      | true =>
        cases h
        exact ⟨rr, hrr, rfl, hw⟩

theorem found_spec (h : i.found fuel P p = some r) :
    r.dn = p ∧ p < P.data.length ∧
      ∃ rr, Record.parse P.data p = .ok rr ∧ r = { rr with sec := P.sectionAt p } := by
  obtain ⟨rr, hrr, rfl, -⟩ := found_cases h
  have hdn := Record.parse_dn hrr
  exact ⟨hdn.1, hdn.2, rr, hrr, rfl⟩

theorem mem_wanted (h : r ∈ i.wanted fuel P) :
    r.dn ∈ placesFrom P.data 12 ∧ i.found fuel P r.dn = some r := by
  obtain ⟨p, hmem, hp⟩ := List.mem_filterMap.mp h
  rw [(found_spec hp).1]
  exact ⟨hmem, hp⟩

/-- A record of a section that is not asked for is not wanted. -/
theorem found_none (hsec : i.sec ≠ 0) (h : P.sectionAt p &&& i.sec = 0) :
    i.found fuel P p = none := by
  unfold found look
  split
  · rfl
  · unfold wants
    dsimp only
    rw [if_pos ⟨hsec, h⟩]
    rfl

theorem filterMap_pairwise (hdn : ∀ p r, want p = some r → r.dn = p) (n p : Nat) :
    ((places data n p).filterMap want).Pairwise fun a b => a.dn < b.dn := by
  apply List.Pairwise.filterMap want _ (places_pairwise data n p)
  intro p q hlt a ha b hb
  rw [hdn p a ha, hdn q b hb]
  exact hlt

/-- Where the first of some records stands. -/
def spot (P : Packet) (i : Iter) (ys : List Record) : Nat :=
  match first i.before ys with
  | none => P.data.length
  | some m => m.dn

/-- The loops find the record that comes first. -/
theorem choose_eq (hlook : ∀ q ∈ placesFrom P.data p, look q = some (want q))
    (hdn : ∀ p r, want p = some r → r.dn = p) : i.choose P.data look p =
      some (i.spot P ((placesFrom P.data p).filterMap want)) := by
  rw [choose, seek_eq _ _ hlook, Option.bind_some, placesFrom, spot]
  cases hys : (places P.data P.data.length p).filterMap want with
  | nil => rfl
  | cons r rs =>
    rw [List.head?_cons]
    cases hsort : i.sort with
    | none =>
      have hpairwise : ((places P.data P.data.length p).filterMap want).Pairwise
          fun a b => a.dn < b.dn := filterMap_pairwise hdn _ _
      rw [hys] at hpairwise
      simp only [(first_of_pairwise (sorts_packet hsort).orders hpairwise).1]
    | some sort =>
      have hr : r.dn ∈ placesFrom P.data p := by
        obtain ⟨q, hq, hqr⟩ := List.mem_filterMap.mp (hys ▸ List.mem_cons_self (l := rs))
        rw [hdn q r hqr]
        exact hq
      have hrest := places_skip_subset (Nat.sub_le _ _) hr
      simp only [least_eq sort _ _ r fun q hq => hlook q (hrest hq)]
      have htail := filterMap_tail hdn (Nat.sub_le _ _) hys
      rw [placesFrom] at htail
      rw [htail, Option.map_some]
      have hbefore : i.before = fun a b => decide (sort a b < 0) := by
        funext a b
        rw [before, order, hsort, Option.getD_some]
      rw [hbefore, first]

/-- In the order of the packet it is enough to look behind a record. -/
theorem filter_behind_place (hdn : ∀ p r, want p = some r → r.dn = p) (hn : data.length - p ≤ n)
    (hq : q ∈ places data n p) :
    ((places data n p).filterMap want).filter (fun r => q < r.dn) =
      ((placesFrom data (Record.skip data q)).filterMap want).filter (fun r => q < r.dn) := by
  induction n generalizing p with
  | zero => cases hq
  | succ n ih =>
    unfold places at hq ⊢
    split at hq
    · rename_i hp
      have hskip := Record.skip_bounds hp
      rw [if_pos hp]
      have hle : p ≤ q := by
        rcases List.mem_cons.mp hq with rfl | hq
        · exact Nat.le_refl _
        · have := (mem_places hq).1
          omega
      have hdrop : ((p :: places data n (Record.skip data p)).filterMap want).filter
          (fun r => q < r.dn) =
            ((places data n (Record.skip data p)).filterMap want).filter (fun r => q < r.dn) := by
        cases hw : want p with
        | none => rw [List.filterMap_cons_none hw]
        | some r =>
          rw [List.filterMap_cons_some hw, List.filter_cons_of_neg]
          rw [hdn p r hw, decide_eq_true_eq]
          omega
      rw [hdrop]
      rcases List.mem_cons.mp hq with rfl | hq
      · rw [placesFrom, places_congr n data.length (by omega) (by omega)]
      · exact ih (by omega) hq
    · cases hq

/-- Records that are not wanted may be passed over at the start. -/
theorem filterMap_place (j : Nat)
    (h : ∀ k < j, place data k < data.length → want (place data k) = none) :
    (placesFrom data (place data j)).filterMap want = (placesFrom data 12).filterMap want := by
  induction j with
  | zero => rfl
  | succ j ih =>
    rw [← ih fun k hk => h k (by omega)]
    by_cases hj : place data j < data.length
    · rw [placesFrom_place hj, List.filterMap_cons_none (h j (Nat.lt_add_one j) hj)]
    · rw [place_succ, advance, if_neg hj]

theorem placesFrom_place_subset (j : Nat) :
    placesFrom data (place data j) ⊆ placesFrom data 12 := by
  induction j with
  | zero => exact List.Subset.refl _
  | succ j ih =>
    by_cases hj : place data j < data.length
    · rw [placesFrom_place hj] at ih
      exact fun x hx => ih (List.mem_cons_of_mem _ hx)
    · rw [place_succ, advance, if_neg hj]
      exact ih

/-- So it does not matter that the search begins where the memo says. -/
theorem filterMap_base (hsound : P.Sound) :
    placesFrom P.data (i.base P) ⊆ placesFrom P.data 12 ∧
    (placesFrom P.data (i.base P)).filterMap (i.found fuel P) = i.wanted fuel P := by
  have hnone (sec : Nat) (hsec : i.sec &&& sec ≠ 0) (j : Nat)
      (hearlier : ∀ k < j, Packet.sectionOf P.data k &&& i.sec = 0) :
      placesFrom P.data (place P.data j) ⊆ placesFrom P.data 12 ∧
      (placesFrom P.data (place P.data j)).filterMap (i.found fuel P) = i.wanted fuel P := by
    refine ⟨placesFrom_place_subset j, ?_⟩
    apply filterMap_place
    intro k hk hlt
    apply found_none
    · rintro hzero
      rw [hzero, Nat.zero_and] at hsec
      exact hsec rfl
    · rw [hsound.sectionAt hlt]
      exact hearlier k hk
  have hself : placesFrom P.data 12 ⊆ placesFrom P.data 12 ∧
      (placesFrom P.data 12).filterMap (i.found fuel P) = i.wanted fuel P :=
    ⟨List.Subset.refl _, rfl⟩
  rcases hsound with hzero | hstudied
  · obtain ⟨hqd, han, hns, har⟩ : P.memo.qd = ⟨0, 0⟩ ∧ P.memo.an = ⟨0, 0⟩ ∧ P.memo.ns = ⟨0, 0⟩ ∧
        P.memo.ar = ⟨0, 0⟩ := by
      simpa [Packet.extents] using hzero
    rw [base, hqd, han, hns, har, if_neg (fun h => h.2 rfl), if_neg (fun h => h.2 rfl),
      if_neg (fun h => h.2 rfl), if_neg (fun h => h.2 rfl)]
    exact hself
  · have hpos (j : Nat) : place P.data j ≠ 0 := by
      have : place P.data 0 ≤ place P.data j := place_le (Nat.zero_le j)
      have hfirst : place P.data 0 = 12 := rfl
      omega
    obtain ⟨hqd, han, hns, har⟩ : P.memo.qd.base = 12 ∧
        P.memo.an.base = place P.data (Packet.qdEnd P.data) ∧
        P.memo.ns.base = place P.data (Packet.anEnd P.data) ∧
        P.memo.ar.base = place P.data (Packet.nsEnd P.data) := by
      simp only [Packet.extents, Packet.studied, Prod.mk.injEq] at hstudied
      obtain ⟨h1, h2, h3, h4⟩ := hstudied
      rw [h1, h2, h3, h4]
      exact ⟨rfl, rfl, rfl, rfl⟩
    rw [base, hqd, han, hns, har]
    by_cases h1 : i.sec &&& qd ≠ 0
    · rw [if_pos ⟨h1, by decide⟩]
      exact hself
    rw [if_neg fun h => h1 h.1]
    rw [not_not, Nat.and_comm] at h1
    by_cases h2 : i.sec &&& an ≠ 0
    · rw [if_pos ⟨h2, hpos _⟩]
      apply hnone an h2
      intro k hk
      rw [Packet.sectionOf, if_pos hk, h1]
    rw [if_neg fun h => h2 h.1]
    rw [not_not, Nat.and_comm] at h2
    by_cases h3 : i.sec &&& ns ≠ 0
    · rw [if_pos ⟨h3, hpos _⟩]
      apply hnone ns h3
      intro k hk
      unfold Packet.sectionOf
      split
      · exact h1
      · exact h2
    rw [if_neg fun h => h3 h.1]
    rw [not_not, Nat.and_comm] at h3
    by_cases h4 : i.sec &&& ar ≠ 0
    · rw [if_pos ⟨h4, hpos _⟩]
      apply hnone ar h4
      intro k hk
      unfold Packet.sectionOf
      split
      · exact h1
      · split
        · exact h2
        · exact h3
    · rw [if_neg fun h => h4 h.1]
      exact hself

theorem start_eq (hsound : P.Sound) (h : i.Readable fuel P) :
    i.start fuel P = some (i.spot P (i.wanted fuel P)) := by
  obtain ⟨hplaces, hwanted⟩ := filterMap_base (i := i) hsound
  rw [start, choose_eq (fun q hq => look_eq h (hplaces hq)) (fun p r hr => (found_spec hr).1),
    hwanted]

theorem next_eq (h : i.Readable fuel P) (hsorts : i.Sorts key) (hm : m ∈ i.wanted fuel P) :
    i.next fuel P m.dn = some (i.spot P ((i.wanted fuel P).filter (i.before m))) := by
  obtain ⟨hmem, hfound⟩ := mem_wanted hm
  obtain ⟨-, -, rr, hrr, hm'⟩ := found_spec hfound
  have hbehind (b : Record) : decide (0 < i.sort.getD packetOrder b m) = i.before m b := by
    rw [before, decide_eq_decide]
    exact (hsorts.gt b m).trans (hsorts.lt m b).symm
  have hlook (p : Nat) (hp : p ∈ placesFrom P.data 12) :
      (i.look fuel P p).map (·.filter (i.before m)) =
        some ((i.found fuel P p).filter (i.before m)) := by
    rw [look_eq h hp, Option.map_some]
  have hdn (p : Nat) (r : Record) (hr : (i.found fuel P p).filter (i.before m) = some r) :
      r.dn = p := (found_spec (Option.filter_eq_some_iff.mp hr).1).1
  have hfilter (ps : List Nat) : ps.filterMap (fun p => (i.found fuel P p).filter (i.before m)) =
      (ps.filterMap (i.found fuel P)).filter (i.before m) := by
    rw [List.filter_filterMap]
  rw [next, hrr]
  dsimp only
  rw [← hm']
  simp only [hbehind]
  have hplaces : placesFrom P.data (if i.sort.isNone then Record.skip P.data m.dn else 12) ⊆
      placesFrom P.data 12 := by
    split
    · exact places_skip_subset (Nat.sub_le _ _) hmem
    · exact List.Subset.refl _
  rw [choose_eq (fun q hq => hlook q (hplaces hq)) hdn, hfilter]
  congr 2
  split
  · rename_i hnone
    have hsort : i.sort = none := by simpa using hnone
    have hbefore : i.before m = fun r => decide (m.dn < r.dn) := by
      funext r
      rw [before, decide_eq_decide]
      exact (sorts_packet hsort).lt m r
    rw [hbefore]
    exact (filter_behind_place (fun p r hr => (found_spec hr).1) (Nat.sub_le _ _) hmem).symm
  · rfl

/-- The calls of `dns_rr_grep` with these limits, one after the other. -/
def calls (fuel : Nat) (P : Packet) (i : Iter) : Option Nat → List Nat → Option (List (List Record))
  | _, [] => some []
  | state, lim :: lims =>
    (i.grep fuel P lim state).bind fun r =>
      (i.calls fuel P (some r.2) lims).map (r.1 :: ·)

/-- The wanted records that the iterator has not yet come to. -/
def Left (fuel : Nat) (P : Packet) (i : Iter) (ys : List Record) : Prop :=
  ∀ m ∈ ys, m ∈ i.wanted fuel P ∧ ys.filter (i.before m) = (i.wanted fuel P).filter (i.before m)

theorem left_filter (hsorts : i.Sorts key) (m : Record) :
    i.Left fuel P ((i.wanted fuel P).filter (i.before m)) := by
  intro x hx
  obtain ⟨hmem, hbehind⟩ := List.mem_filter.mp hx
  exact ⟨hmem, filter_behind hsorts.orders hbehind _⟩

theorem left_rest (hsorts : i.Sorts key) (n : Nat) (h : i.Left fuel P ys) :
    i.Left fuel P (rest i.before n ys) := by
  induction n generalizing ys with
  | zero => exact h
  | succ n ih =>
    unfold rest
    split
    · exact h
    · rename_i m hm
      rw [(h m (first_spec hsorts.orders hm).1).2]
      exact ih (left_filter hsorts m)

theorem grepLoop_eq (h : i.Readable fuel P) (hsorts : i.Sorts key) (hys : i.Left fuel P ys)
    (lim : Nat) : i.grepLoop fuel P lim (i.spot P ys) =
      some (listing i.before lim ys, i.spot P (rest i.before lim ys)) := by
  induction lim generalizing ys with
  | zero => rfl
  | succ lim ih =>
    cases hm : first i.before ys with
    | none =>
      have hspot : i.spot P ys = P.data.length := by rw [spot, hm]
      rw [grepLoop, hspot, if_neg (Nat.lt_irrefl _), listing_none hm, rest, hm, hspot]
    | some m =>
      have hspot : i.spot P ys = m.dn := by rw [spot, hm]
      obtain ⟨hmem, hfilter⟩ := hys m (first_spec hsorts.orders hm).1
      obtain ⟨-, hlt, rr, hrr, hm'⟩ := found_spec (mem_wanted hmem).2
      rw [grepLoop, hspot, if_pos hlt, hrr]
      dsimp only
      rw [next_eq h hsorts hmem, Option.bind_some, ih (left_filter hsorts m), Option.map_some,
        ← hm', listing_some hm, rest, hm, ← hfilter]

theorem calls_left (h : i.Readable fuel P) (hsorts : i.Sorts key) (hys : i.Left fuel P ys)
    (lims : List Nat) :
    i.calls fuel P (some (i.spot P ys)) lims = some (pieces i.before lims ys) := by
  induction lims generalizing ys with
  | nil => rfl
  | cons lim lims ih =>
    rw [calls, grep, Option.bind_some, grepLoop_eq h hsorts hys, Option.bind_some,
      ih (left_rest hsorts lim hys), Option.map_some, pieces]

/-- However the calls are cut, they go through the wanted records by their keys. -/
theorem calls_eq (hsound : P.Sound) (h : i.Readable fuel P) (hsorts : i.Sorts key)
    (lims : List Nat) :
    i.calls fuel P none lims = some (pieces i.before lims (i.wanted fuel P)) := by
  have hleft : i.Left fuel P (i.wanted fuel P) := fun m hm => ⟨hm, rfl⟩
  rw [← calls_left h hsorts hleft lims]
  cases lims with
  | nil => rfl
  | cons lim lims => rw [calls, calls, grep, grep, start_eq hsound h]

/-- A memo that is right makes no difference to what is wanted. -/
theorem wanted_congr {P' : Packet} (hsound : P.Sound) (hsound' : P'.Sound)
    (hdata : P'.data = P.data) : i.wanted fuel P' = i.wanted fuel P := by
  unfold wanted
  rw [hdata]
  apply List.filterMap_congr
  intro p hp
  obtain ⟨j, -, rfl⟩ := exists_place (j := 0) hp
  have hlt := (mem_places hp).2
  have hsection : P'.sectionAt (place P.data j) = P.sectionAt (place P.data j) := by
    rw [hsound.sectionAt hlt, ← hdata, hsound'.sectionAt (hdata ▸ hlt)]
  unfold found look
  rw [hdata, hsection]

/-- In the order of the packet, the wanted records come each of them once. -/
theorem calls_in_order (hsound : P.Sound) (h : i.Readable fuel P) (hsort : i.sort = none)
    (lims : List Nat) : ∃ rs, i.calls fuel P none lims = some rs ∧
      rs.flatten = (i.wanted fuel P).take lims.sum := by
  have hsorts := sorts_packet hsort
  have hpairwise : (i.wanted fuel P).Pairwise fun a b => a.dn < b.dn :=
    filterMap_pairwise (fun p r hr => (found_spec hr).1) _ _
  refine ⟨_, calls_eq hsound h hsorts lims, ?_⟩
  rw [flatten_pieces, listing_eq_take hsorts.orders _ (Nat.le_refl _),
    listing_of_pairwise hsorts.orders (Nat.le_refl _) hpairwise]

/-- Whether a packet that was received is studied first or not, and however the calls are cut,
`dns_rr_grep` yields the wanted records in the order of the packet, each of them once. -/
theorem calls_packet (hblank : P.memo = .zero) (h : i.Readable fuel P) (hsort : i.sort = none)
    (lims : List Nat) : ∃ rs, i.calls fuel P none lims = some rs ∧
      i.calls fuel P.study none lims = some rs ∧
      rs.flatten = (i.wanted fuel P).take lims.sum := by
  have hsound := Packet.sound_of_blank hblank
  obtain ⟨hstudied, hdata⟩ := P.study_sound
  have hsorts := sorts_packet hsort
  have h' : i.Readable fuel P.study := ⟨hdata ▸ h.short, hdata ▸ h.names⟩
  obtain ⟨rs, hcalls, hflatten⟩ := calls_in_order hsound h hsort lims
  refine ⟨rs, hcalls, ?_, hflatten⟩
  rw [← hcalls, calls_eq hstudied h' hsorts lims, calls_eq hsound h hsorts lims,
    wanted_congr hsound hstudied hdata]

/-- An answer with two addresses for the name that was asked about. -/
def twoAddresses : Packet :=
  ⟨[0, 1, 129, 128, 0, 1, 0, 2, 0, 0, 0, 0, 1, 97, 0, 0, 1, 0, 1,
    192, 12, 0, 1, 0, 1, 0, 0, 0, 60, 0, 4, 192, 0, 2, 1,
    192, 12, 0, 1, 0, 1, 0, 0, 0, 60, 0, 4, 192, 0, 2, 2], [], [], .zero, by decide⟩

/-- The records of type A that are no questions, as `parseDNS` looks for them. -/
def addresses : Iter := ⟨allSections - qd, none, typeA, 0, none⟩

/-- And those of them that have this name. -/
def addressesOf (name : List UInt8) : Iter := { addresses with name := some name }

/-- Both addresses are those of A. -/
theorem calls_packet_addresses :
    ((addressesOf [65, 46]).wanted 40 twoAddresses).map Record.dn = [19, 35] ∧
    ∃ rs, (addressesOf [65, 46]).calls 40 twoAddresses none [1, 1] = some rs ∧
      (addressesOf [65, 46]).calls 40 twoAddresses.study none [1, 1] = some rs ∧
      rs.flatten = ((addressesOf [65, 46]).wanted 40 twoAddresses).take [1, 1].sum :=
  ⟨by decide, calls_packet rfl ⟨by decide, .inr (by decide)⟩ rfl [1, 1]⟩

end Iter

end NetworkLabs.Dns
