import NetworkLabs.Dns.Building

/-! What was pushed to a packet is what the iterator yields of it. -/
namespace NetworkLabs.Dns

open Chain BigEndian Packet

variable {P R : Packet} {data body bs text : List UInt8} {s : Sheet} {e : Entry} {es : List Entry}
  {nm : Name} {i : Iter} {p q j n k size room fuel : Nat}

theorem length_labels_le (hls : ∀ l ∈ nm.labels, l ≠ []) :
    2 * nm.labels.length ≤ nm.text.length := by
  have hdotted (ls : List (List UInt8)) (hls : ∀ l ∈ ls, l ≠ []) :
      2 * ls.length ≤ (dotted ls).length := by
    induction ls with
    | nil => exact Nat.le_refl _
    | cons l ls ih =>
      obtain ⟨hl, hls⟩ := List.forall_mem_cons.mp hls
      have hpos := List.length_pos_iff.mpr hl
      have hrest := ih hls
      rw [dotted, List.flatMap_cons, ← dotted, List.length_append, List.length_append,
        List.length_singleton, List.length_cons]
      omega
  rw [Name.text]
  split
  · rename_i hnil
    rw [hnil]
    exact Nat.zero_le _
  · exact hdotted _ hls

/-- The name is read as it was given. -/
theorem NameAt.expand (h : NameAt data p nm bs) (hname : nm.text.length ≤ maxName)
    (hfuel : 382 ≤ fuel) :
    ∃ t, Domain.expand fuel data p = some (.ok t) ∧ nm.Reads t ∧ t.length ≤ maxName := by
  have hlabels := length_labels_le fun l hl => (nm.plain l hl).nonempty
  have hmax : maxName = 255 := rfl
  have hlt : 3 * nm.labels.length < fuel := by omega
  obtain ⟨t, ht, hlower⟩ := expand_name h.spells hlt
  refine ⟨t, ht, hlower, ?_⟩
  have hlen : (lower t).length = (lower nm.text).length := congrArg List.length hlower
  rw [lower, lower, List.length_map, List.length_map] at hlen
  omega

namespace Any

theorem parseHost_spec (h : NameAt data p nm bs) (hname : nm.text.length ≤ maxName)
    (hfuel : 382 ≤ fuel) : ∃ t, parseHost fuel data p = some (.ok t) ∧ nm.Reads t := by
  obtain ⟨t, ht, hreads, hle⟩ := h.expand hname hfuel
  refine ⟨t, ?_, hreads⟩
  rw [parseHost, ht, Option.map_some]
  dsimp only
  rw [if_neg (by omega)]

/-- The pieces of a text are put together again. -/
theorem parseTexts_spec (hk : text.length ≤ k) (hn : (texts k text).length ≤ n)
    (hroom : text.length ≤ room) : parseTexts n (texts k text) room = .ok text := by
  induction k generalizing text n room with
  | zero =>
    obtain rfl := List.length_eq_zero_iff.mp (Nat.le_zero.mp hk)
    cases n <;> rfl
  | succ k ih =>
    rw [texts] at hn ⊢
    split at hn
    · rename_i htext
      rw [if_pos htext, htext]
      cases n <;> rfl
    · rename_i htext
      have hpos := List.length_pos_iff.mpr htext
      rw [List.length_cons, List.length_append, List.length_take] at hn
      obtain ⟨n, rfl⟩ : ∃ m, n = m + 1 := ⟨n - 1, by omega⟩
      have hpiece : (UInt8.ofNat (min 255 text.length)).toNat = (text.take 255).length := by
        rw [List.length_take, UInt8.toNat_ofNat_of_lt' (by rw [UInt8.size]; omega)]
      have hdrop : (text.drop 255).length ≤ k := by
        rw [List.length_drop]
        omega
      rw [if_neg htext, parseTexts, hpiece, List.take_left, List.drop_left, List.length_append,
        List.length_take]
      have hrest : (text.drop 255).length ≤ room - min 255 text.length := by
        rw [List.length_drop]
        omega
      rw [if_neg (by omega), ih hdrop (by omega) hrest]
      exact congrArg Except.ok (List.take_append_drop 255 text)

/-- The data of a record is read as it was given. -/
theorem parse_spec {c : Content} {rr : Record} (hfits : c.Fits size rr.type)
    (hplaced : Placed data rr.rd body) (hlen : rr.rdLen = body.length)
    (hholds : Holds data rr.rd body c) (hfuel : 382 ≤ fuel) :
    ∃ any, parse fuel size data rr = some (.ok any) ∧ Content.Rel Name.Reads c any := by
  have hrdata : (data.drop rr.rd).take rr.rdLen = body := by
    rw [hlen, hplaced.take]
  unfold parse
  dsimp only
  simp only [hrdata]
  cases c with
  | a addr =>
    obtain rfl : body = encode 4 addr.toNat := hholds
    rw [length_encode] at hlen
    have hnumber := number_placed 4 _ hplaced addr.toNat_lt
    rw [if_pos (show rr.type = typeA from hfits), hlen, if_neg (by simp), hnumber,
      UInt32.ofNat_toNat]
    exact ⟨_, rfl, .a addr⟩
  | aaaa addr =>
    obtain rfl : body = addr.1 := hholds
    have hlen' : rr.rdLen = 16 := hlen.trans addr.2
    rw [show rr.type = typeAaaa from hfits, if_neg (by decide), if_pos rfl, dif_pos ⟨addr.2, hlen'⟩]
    exact ⟨_, rfl, .aaaa addr⟩
  | mx preference nm =>
    obtain ⟨htype, hname⟩ := hfits
    obtain ⟨bs, rfl, hat⟩ := hholds
    have hpos := hat.length_pos
    have hnumber := number_placed 2 _ ((placed_append _ _ _).mp hplaced).1 preference.toNat_lt
    obtain ⟨t, ht, hreads⟩ := parseHost_spec hat hname hfuel
    rw [List.length_append, length_encode] at hlen
    rw [htype, if_neg (by decide), if_neg (by decide), if_pos rfl, if_neg (by omega), ht, hnumber,
      UInt16.ofNat_toNat]
    exact ⟨_, rfl, .mx preference hreads⟩
  | host nm =>
    obtain ⟨htype, hname⟩ := hfits
    obtain ⟨t, ht, hreads⟩ := parseHost_spec hholds hname hfuel
    have hothers : rr.type ≠ typeA ∧ rr.type ≠ typeAaaa ∧ rr.type ≠ typeMx := by
      rcases htype with htype | htype | htype <;> rw [htype] <;> decide
    rw [if_neg hothers.1, if_neg hothers.2.1, if_neg hothers.2.2, if_pos htype, ht]
    exact ⟨_, rfl, .host hreads⟩
  | txt text =>
    obtain ⟨htype, hle⟩ := hfits
    obtain rfl : body = texts text.length text := hholds
    have hothers : rr.type ≠ typeA ∧ rr.type ≠ typeAaaa ∧ rr.type ≠ typeMx ∧
        ¬ (rr.type = typeNs ∨ rr.type = typeCname ∨ rr.type = typePtr) := by
      rcases htype with htype | htype <;> rw [htype] <;> decide
    rw [if_neg hothers.1, if_neg hothers.2.1, if_neg hothers.2.2.1, if_neg hothers.2.2.2,
      if_pos htype, parseTexts_spec (Nat.le_refl _) (Nat.le_of_eq hlen.symm) hle]
    exact ⟨_, rfl, .txt text⟩
  | rdata bs =>
    obtain ⟨htype, hleft, hle⟩ := hfits
    obtain rfl : body = bs := hholds
    simp only [List.mem_cons, List.not_mem_nil, or_false, not_or] at htype
    obtain ⟨h1, h2, h3, h4, h5, h6, h7, h8⟩ := htype
    rw [if_neg h1, if_neg h2, if_neg h3, if_neg (by simp [h4, h5, h6]), if_neg (by simp [h7, h8]),
      if_neg hleft, if_neg (by omega)]
    exact ⟨_, rfl, .rdata body⟩

end Any

/-- The record is what was pushed: its fields, its name and its data. -/
structure Entry.Read (fuel size : Nat) (data : List UInt8) (e : Entry) (rr : Record) : Prop where
  sec : rr.sec = e.sec
  type : rr.type = e.type
  cls : rr.cls = e.cls
  name : ∃ t, Domain.expand fuel data rr.dn = some (.ok t) ∧ e.name.Reads t
  ttl : e.sec ≠ qd → rr.ttl = e.storedTtl
  content : e.sec ≠ qd → ∃ any, Any.parse fuel size data rr = some (.ok any) ∧
    Content.Rel Name.Reads e.content any

theorem Entry.Valid.storedTtl_lt (h : e.Valid size) : e.storedTtl < 2 ^ 32 := by
  have httl := h.ttl_lt
  unfold Entry.storedTtl
  split <;> omega

/-- A record that stands in the packet can be read. -/
theorem Stands.parse (h : Stands data p e q) (hle : q ≤ data.length) (hvalid : e.Valid size)
    (hquestion : e.sec = qd → q ≤ qend data) (hrecord : e.sec ≠ qd → qend data ≤ p)
    (hfuel : 382 ≤ fuel) : ∃ rr, Record.parse data p = .ok rr ∧
      Entry.Read fuel size data e { rr with sec := e.sec } := by
  obtain ⟨bs, hname, -⟩ := id h
  obtain ⟨t, ht, hreads, -⟩ := hname.expand hvalid.name_le hfuel
  obtain ⟨r, hr, hfields, hrest⟩ := h.skip
  have hlt := h.lt
  have hskip := (Domain.skip_bounds (show p < data.length by omega)).1
  obtain ⟨htype, hcls⟩ := (placed_append _ _ _).mp hfields
  have htype := number_placed 2 _ htype hvalid.type_lt
  have hcls := number_placed 2 _ hcls hvalid.cls_lt
  rw [length_encode] at hcls
  rw [hr] at hskip
  rw [Record.parse, hr]
  dsimp only
  by_cases hsec : e.sec = qd
  · have hend := hquestion hsec
    rw [if_pos hsec] at hrest
    rw [if_neg (by omega), if_pos (by omega), htype, hcls]
    exact ⟨_, rfl, rfl, rfl, rfl, ⟨t, ht, hreads⟩, fun h => absurd hsec h, fun h => absurd hsec h⟩
  · have hend := hrecord hsec
    rw [if_neg hsec] at hrest
    obtain ⟨body, hq, hlt, hplaced, hholds⟩ := hrest
    have hrdLen := number_rdLen hlt hplaced
    obtain ⟨httl, hbody⟩ := (placed_append _ _ _).mp hplaced
    have httl := number_placed 4 _ httl hvalid.storedTtl_lt
    have hbody := ((placed_append _ _ _).mp hbody).2
    rw [length_encode, length_encode, Nat.add_assoc, Nat.add_assoc] at hbody
    rw [if_neg (by omega), if_neg (by omega), if_neg (by omega), hrdLen, if_neg (by omega), htype,
      hcls, httl]
    have hstored : (if e.type = typeOpt then e.storedTtl else min e.storedTtl 0x7fffffff) =
        e.storedTtl := by
      unfold Entry.storedTtl
      split <;> omega
    rw [hstored]
    refine ⟨_, rfl, rfl, rfl, rfl, ⟨t, ht, hreads⟩, fun _ => rfl, fun _ => ?_⟩
    exact Any.parse_spec (hvalid.fits hsec) hbody rfl hholds hfuel

namespace Iter

/-- Whether the iterator wants a record with the fields of this one. -/
def accepts (i : Iter) (e : Entry) : Bool :=
  (i.sec = 0 ∨ e.sec &&& i.sec ≠ 0) ∧ (i.type = 0 ∨ e.type = i.type ∨ i.type = typeAll) ∧
    (i.cls = 0 ∨ e.cls = i.cls ∨ i.cls = classAny)

theorem wants_eq {rr : Record} (hname : i.name = none) (hsec : rr.sec = e.sec)
    (htype : rr.type = e.type) (hcls : rr.cls = e.cls) :
    i.wants fuel data rr = some (i.accepts e) := by
  unfold wants accepts
  rw [hsec, htype, hcls, hname]
  by_cases h1 : i.sec ≠ 0 ∧ e.sec &&& i.sec = 0
  · rw [if_pos h1, decide_eq_false (fun h => h.1.elim h1.1 fun h => h h1.2)]
  rw [if_neg h1]
  by_cases h2 : i.type ≠ 0 ∧ e.type ≠ i.type ∧ i.type ≠ typeAll
  · rw [if_pos h2, decide_eq_false (fun h => h.2.1.elim h2.1 fun h => h.elim h2.2.1 h2.2.2)]
  rw [if_neg h2]
  by_cases h3 : i.cls ≠ 0 ∧ e.cls ≠ i.cls ∧ i.cls ≠ classAny
  · rw [if_pos h3, decide_eq_false (fun h => h.2.2.elim h3.1 fun h => h.elim h3.2.1 h3.2.2)]
  · rw [if_neg h3, decide_eq_true]
    refine ⟨?_, ?_, ?_⟩ <;> tauto

variable (hdata : R.data = data) (hsound : R.Sound) (hlaid : s.Laid data data.length)
  (hvalid : ∀ e ∈ s.all, e.Valid size) (hname : i.name = none) (hfuel : 382 ≤ fuel)

include hdata hsound hlaid hvalid hname hfuel

/-- At its place, a record that is wanted is found. -/
theorem found_entry (he : s.all[j]? = some e) : ∃ rr, Entry.Read fuel size data e rr ∧
    i.found fuel R (place data j) = if i.accepts e then some rr else none := by
  have hstands := hlaid.stands he
  have hsection := hlaid.sectionOf he
  have hj := (List.getElem?_eq_some_iff.mp he).1
  have hle : place data (j + 1) ≤ data.length := by
    rw [← hlaid.place_end]
    exact place_le hj
  have hquestion : e.sec = qd → place data (j + 1) ≤ qend data := by
    intro hsec
    rw [hlaid.qend_eq]
    exact place_le ((Sheet.question_iff he).mp hsec)
  have hrecord : e.sec ≠ qd → qend data ≤ place data j := by
    intro hsec
    rw [hlaid.qend_eq]
    exact place_le (Nat.le_of_not_lt fun hlt => hsec ((Sheet.question_iff he).mpr hlt))
  obtain ⟨rr, hrr, hread⟩ :=
    hstands.parse hle (hvalid e (List.mem_of_getElem? he)) hquestion hrecord hfuel
  refine ⟨_, hread, ?_⟩
  have hlt := hstands.lt
  have hat : R.sectionAt (place data j) = e.sec := by
    rw [← hdata] at hle hlt hsection ⊢
    rw [hsound.sectionAt (by omega), hsection]
  rw [found, look, hdata, hrr]
  dsimp only
  rw [hat, wants_eq hname hread.sec hread.type hread.cls]
  rfl

theorem wanted_from (n j : Nat) (hn : j + n = s.all.length) :
    List.Forall₂ (Entry.Read fuel size data) ((s.all.drop j).filter i.accepts)
      ((placesFrom data (place data j)).filterMap (i.found fuel R)) := by
  induction n generalizing j with
  | zero =>
    rw [← Nat.add_zero j, hn, List.drop_length, hlaid.place_end, placesFrom_of_le (Nat.le_refl _)]
    exact .nil
  | succ n ih =>
    have hj : j < s.all.length := by omega
    have he := List.getElem?_eq_getElem hj
    obtain ⟨rr, hread, hfound⟩ := found_entry hdata hsound hlaid hvalid hname hfuel he
    have hlt : place data j < data.length := by
      have hstands := (hlaid.stands he).lt
      have hle : place data (j + 1) ≤ place data s.all.length := place_le hj
      rw [hlaid.place_end] at hle
      omega
    rw [placesFrom_place hlt, List.drop_eq_getElem_cons hj, List.filterMap_cons, hfound,
      List.filter_cons]
    have hrest := ih (j + 1) (by omega)
    by_cases haccepts : i.accepts s.all[j]
    · rw [if_pos haccepts, if_pos haccepts]
      exact .cons hread hrest
    · rw [if_neg haccepts, if_neg haccepts]
      exact hrest

end Iter

/-- What was pushed to a packet, one record after the other, comes out of it again: of its own
packet or of one that was received with the same bytes, and however the calls are cut. -/
theorem Pushed.retrieved (h : Pushed fuel size P es) (hname : i.name = none) (hsort : i.sort = none)
    (hfuel : 382 ≤ n) :
    (∀ (e : Entry) dn any, e.name.Given dn → Content.Rel Name.Given e.content any →
      ∃ o, P.push fuel e.sec dn e.type e.cls e.ttl any = some o) ∧
    P.Sound ∧ ∀ R : Packet, R.data = P.data → R.Sound →
      ∃ rs, List.Forall₂ (Entry.Read n size P.data) (es.filter i.accepts) rs ∧
        ∀ lims, ∃ rss, i.calls n R none lims = some rss ∧ rss.flatten = rs.take lims.sum := by
  obtain ⟨hsize, hpushFuel, hvalid, s, rfl, hbuilt⟩ := h.built
  refine ⟨fun e dn any hdn hany => push_returns hbuilt.kept hpushFuel hdn hany, hbuilt.sound,
    fun R hdata hsound => ⟨i.wanted n R, ?_, fun lims => ?_⟩⟩
  · have hwanted :=
      Iter.wanted_from hdata hsound hbuilt.laid hvalid hname hfuel _ 0 (Nat.zero_add _)
    rw [← hdata] at hwanted ⊢
    exact hwanted
  · have hshort : R.data.length < 65536 := by
      rw [Packet.size, ← hdata] at hsize
      omega
    exact Iter.calls_in_order hsound ⟨hshort, .inl hname⟩ hsort lims

def nameA : Name where
  labels := [[97]]
  plain := by
    intro l hl
    rw [List.mem_singleton.mp hl]
    exact plain_of_letter (by decide) (by decide)
  distinct := by decide

def questionA : Entry := ⟨qd, nameA, typeA, 1, 0, .rdata []⟩

def answerA : Entry := ⟨an, nameA, typeA, 1, 60, .a 3221225985⟩

/-- The question for the address of a. -/
def asked : Packet :=
  ⟨[0, 0, 0, 0, 0, 1, 0, 0, 0, 0, 0, 0, 1, 97, 0, 0, 1, 0, 1], List.replicate 33 0, [12],
    ⟨⟨12, 19⟩, ⟨19, 19⟩, ⟨19, 19⟩, ⟨19, 19⟩, ⟨0, 0, 0⟩⟩, by decide⟩

/-- And the answer 192.0.2.1. -/
def answered : Packet :=
  ⟨[0, 0, 0, 0, 0, 1, 0, 1, 0, 0, 0, 0, 1, 97, 0, 0, 1, 0, 1,
    192, 12, 0, 1, 0, 1, 0, 0, 0, 60, 0, 4, 192, 0, 2, 1], List.replicate 17 0, [12, 19],
    ⟨⟨12, 19⟩, ⟨19, 35⟩, ⟨35, 35⟩, ⟨35, 35⟩, ⟨0, 0, 0⟩⟩, by decide⟩

theorem pushed_answered : Pushed 60 255 answered [questionA, answerA] := by
  have hinit : Pushed 60 255 (Packet.init (List.replicate 40 0)) [] :=
    .init _ (by decide) (by decide)
  have hvalidQ : questionA.Valid 255 :=
    ⟨by decide, by decide, by decide, by decide, fun h => absurd rfl h⟩
  have hvalidA : answerA.Valid 255 := ⟨by decide, by decide, by decide, by decide, fun _ => rfl⟩
  have hask : (Packet.init (List.replicate 40 0)).push 60 qd nameA.text 1 1 0 (.rdata []) =
      some (none, asked) := rfl
  have hasked := hinit.push hvalidQ (.inl rfl) (fun h => absurd rfl h) hask
  exact hasked.push hvalidA (.inl rfl) (fun _ => .a 3221225985) rfl

theorem Pushed.retrieved_answered :
    (∀ (e : Entry) dn any, e.name.Given dn → Content.Rel Name.Given e.content any →
      ∃ o, answered.push 60 e.sec dn e.type e.cls e.ttl any = some o) ∧
    answered.Sound ∧ ∀ R : Packet, R.data = answered.data → R.Sound →
      ∃ rs, List.Forall₂ (Entry.Read 382 255 answered.data) [answerA] rs ∧
        ∀ lims, ∃ rss, Iter.addresses.calls 382 R none lims = some rss ∧
          rss.flatten = rs.take lims.sum :=
  pushed_answered.retrieved (i := Iter.addresses) rfl rfl (Nat.le_refl _)

end NetworkLabs.Dns
