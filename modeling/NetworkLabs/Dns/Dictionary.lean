import NetworkLabs.Dns.Compression

/-! A name that is pushed to a packet can be read there, and so can every name that was pushed
before. -/
namespace NetworkLabs.Dns

open Chain

variable {data data' dst bs dn : List UInt8} {ls pre rest : List (List UInt8)}
  {p q r t i fuel : Nat} {slots : List (Nat × List (List UInt8))} {nm : Name} {dict : List Nat}
  {c : Nat → Option (Cell (List UInt8))} {xs : List (List UInt8)}

/-- The place behind what stands at `p`. -/
def past (p : Nat) : Cell (List UInt8) → Nat
  | .stop => p + 1
  | .item _ next => next
  | .jump _ => p + 2

/-- The two packets have the same owned bytes. -/
def Agree (owned : Nat → Prop) (data data' : List UInt8) : Prop :=
  ∀ q, owned q → data'[q]? = data[q]?

open Classical in
/-- What stands at a place if all its bytes are owned. -/
noncomputable def within (owned : Nat → Prop) (data : List UInt8) (p : Nat) :
    Option (Cell (List UInt8)) :=
  (cell data p).filter fun a => ∀ q, p ≤ q → q < past p a → owned q

section Owned
variable {owned owned' : Nat → Prop}

theorem within_eq_some {a : Cell (List UInt8)} : within owned data p = some a ↔
    cell data p = some a ∧ ∀ q, p ≤ q → q < past p a → owned q := by
  simp only [within, Option.filter_eq_some_iff, decide_eq_true_eq]

theorem within_extends (owned : Nat → Prop) (data : List UInt8) :
    Extends (within owned data) (cell data) :=
  fun _ _ h => (within_eq_some.mp h).1

theorem Agree.placed (h : Agree owned data data') (hbs : Placed data p bs)
    (hown : ∀ q, p ≤ q → q < p + bs.length → owned q) : Placed data' p bs := by
  rw [Placed, List.prefix_iff_getElem?] at hbs ⊢
  intro i hi
  have hget := hbs i hi
  rw [List.getElem?_drop] at hget ⊢
  rw [h (p + i) (hown _ (by omega) (by omega)), hget]

/-- What is read of owned bytes alone is read of them wherever they are the same. -/
theorem Agree.extends (h : Agree owned data data') (hsub : ∀ q, owned q → owned' q) :
    Extends (within owned data) (within owned' data') := by
  intro p a ha
  obtain ⟨hcell, hown⟩ := within_eq_some.mp ha
  refine within_eq_some.mpr ⟨?_, fun q hpq hq => hsub q (hown q hpq hq)⟩
  obtain ⟨hp, ⟨rfl, hroot⟩ | ⟨l, rfl, hl, hlegible, hne⟩ | ⟨hi, lo, rfl, hjump, hhi⟩⟩ :=
    cell_cases hcell
  · exact cell_root hp (h.placed hroot hown)
  · apply cell_wire hp (h.placed hl _) hlegible hne
    intro q hpq hq
    rw [length_wire] at hq
    exact hown q hpq (by simp only [past]; omega)
  · exact cell_pointer hp (h.placed hjump hown) hhi

/-- Labels whose bytes are all owned. -/
theorem items_within (h : Items (cell data) p xs r) (hown : ∀ q, p ≤ q → q < r → owned q) :
    p ≤ r ∧ Items (within owned data) p xs r := by
  induction h with
  | nil => exact ⟨Nat.le_refl _, .nil⟩
  | @cons p r next a xs hp _ ih =>
    have hlt : p < next := by
      obtain ⟨-, ⟨hc, -⟩ | ⟨l, hc, -⟩ | ⟨hi, lo, hc, -⟩⟩ := cell_cases hp
      · cases hc
      · cases hc
        omega
      · cases hc
    obtain ⟨hle, hitems⟩ := ih fun q hpq hq => hown q (by omega) hq
    refine ⟨by omega, .cons (within_eq_some.mpr ⟨hp, fun q hpq hq => ?_⟩) hitems⟩
    exact hown q hpq (Nat.lt_of_lt_of_le hq hle)

end Owned

def pointerBytes (t : Nat) : List UInt8 := [UInt8.ofNat (192 + t / 256 % 64), UInt8.ofNat t]

/-- The bytes of a name: all its labels, or some of them and a pointer to the first place where the
rest stands. -/
inductive Encoding (c : Nat → Option (Cell (List UInt8))) (slots : List (Nat × List (List UInt8))) :
    List (List UInt8) → List UInt8 → Prop
  | full (ls : List (List UInt8)) : Encoding c slots ls (wireName ls)
  | pointer {i t : Nat} (pre rest : List (List UInt8)) (hne : rest ≠ []) (ht : t ≤ 0x3fff)
      (h : First c slots i t (rest.map lower)) :
      Encoding c slots (pre ++ rest) (pre.flatMap wire ++ pointerBytes t)

theorem toNat_high (t : Nat) : 192 ≤ (UInt8.ofNat (192 + t / 256 % 64)).toNat := by
  rw [UInt8.toNat_ofNat']
  omega

theorem pointer_bytes (ht : t ≤ 0x3fff) :
    pointer (UInt8.ofNat (192 + t / 256 % 64)) (UInt8.ofNat t) = t := by
  rw [pointer, UInt8.toNat_ofNat', UInt8.toNat_ofNat']
  omega

namespace Domain

theorem take_set_set (w : List UInt8) (x y hi lo : UInt8) (tail : List UInt8) :
    (((w ++ x :: y :: tail).set w.length hi).set (w.length + 1) lo).take (w.length + 2) =
      w ++ [hi, lo] := by
  simp [List.take_append, List.take_of_length_le]

/-- The rest of the labels gives way to the pointer. -/
theorem set_pointer (hne : rest ≠ []) (tail : List UInt8) :
    (((wireName (pre ++ rest) ++ tail).set (pre.flatMap wire).length
        (UInt8.ofNat (192 + t / 256 % 64))).set ((pre.flatMap wire).length + 1)
        (UInt8.ofNat t)).take ((pre.flatMap wire).length + 2) =
      pre.flatMap wire ++ pointerBytes t := by
  obtain ⟨x, y, more, hmore⟩ : ∃ x y more, wireName rest = x :: y :: more := by
    obtain ⟨l, rest, rfl⟩ := List.exists_cons_of_ne_nil hne
    rw [wireName_cons, wire, List.cons_append]
    obtain ⟨y, more, hy⟩ : ∃ y more, l ++ wireName rest = y :: more :=
      List.exists_cons_of_length_pos (by simp [wireName])
    exact ⟨_, y, more, by rw [hy]⟩
  rw [wireName_append, hmore, List.append_assoc, List.cons_append, List.cons_append]
  exact take_set_set _ _ _ _ _ _

theorem comp_spec (dst : List UInt8) (hc : Extends c (cell data)) (hdir : Directory c slots)
    (hdn : nm.Given dn)
    (hfuel : (wireName nm.labels).length ≤ dst.length → nm.labels.length < fuel ∧
      ∀ s ∈ slots, s.2.Nodup ∧ s.2.length + nm.labels.length + 2 < fuel) :
    ∃ dst' len, comp fuel dst dn data (slots.map Prod.fst) = some (dst', len) ∧
      dst'.length = dst.length ∧ 0 < len ∧ (len ≤ dst.length →
        (wireName nm.labels).length ≤ dst.length ∧
          Encoding c slots nm.labels (dst'.take len)) := by
  have hpos : 0 < (wireName nm.labels).length := by simp [wireName]
  rcases Nat.lt_or_ge dst.length (wireName nm.labels).length with hlt | hle
  · have hcount := write_long dst hdn
    have hcomp : comp fuel dst dn data (slots.map Prod.fst) = some (write dst dn) := by
      simp only [comp]
      rw [if_neg (by omega)]
    refine ⟨(write dst dn).1, (write dst dn).2, hcomp, length_write _ _, by omega, fun h => ?_⟩
    omega
  · simp only [comp, write_name hdn hle]
    have hlength : (wireName nm.labels ++ dst.drop (wireName nm.labels).length).length =
        dst.length := by
      simp
      omega
    split
    · obtain ⟨hlabels, hslots⟩ := hfuel hle
      obtain ⟨r, hr, hfound⟩ := search_spec hc hdir hslots nm.plain
        (show Placed (wireName nm.labels ++ dst.drop (wireName nm.labels).length) 0
          (wireName nm.labels) from List.prefix_append _ _) hlabels
      rw [hr]
      cases r with
      | none =>
        refine ⟨_, _, rfl, hlength, hpos, fun _ => ⟨hle, ?_⟩⟩
        rw [List.take_left]
        exact .full _
      | some r =>
        obtain ⟨ap, t⟩ := r
        obtain ⟨ht, pre, rest, i, hls, hne, hap, hfirst⟩ := hfound ap t rfl
        rw [Nat.zero_add] at hap
        subst hap
        refine ⟨_, _, rfl, ?_, by omega, fun _ => ⟨hle, ?_⟩⟩
        · rw [List.length_set, List.length_set, hlength]
        · rw [hls, set_pointer hne]
          exact .pointer pre rest hne ht hfirst
    · exact ⟨_, _, rfl, hlength, hpos, fun _ => ⟨hle, by rw [List.take_left]; exact .full _⟩⟩

end Domain

theorem length_flatMap_le (hls : ∀ l ∈ ls, Plain l) : 2 * ls.length ≤ (ls.flatMap wire).length := by
  induction ls with
  | nil => exact Nat.le_refl _
  | cons l ls ih =>
    obtain ⟨hl, hls⟩ := List.forall_mem_cons.mp hls
    have hpos := List.length_pos_iff.mpr hl.nonempty
    have hrest := ih hls
    rw [List.flatMap_cons, List.length_append, length_wire, List.length_cons]
    omega

/-- Labels that stand in a packet are items there. -/
theorem items_wire (hp : 12 ≤ p) (hls : ∀ l ∈ ls, Plain l) (h : Placed data p (ls.flatMap wire)) :
    Items (cell data) p (ls.map lower) (p + (ls.flatMap wire).length) := by
  induction ls generalizing p with
  | nil => exact .nil
  | cons l ls ih =>
    obtain ⟨hl, hls⟩ := List.forall_mem_cons.mp hls
    rw [List.flatMap_cons, placed_append, length_wire] at h
    rw [List.flatMap_cons, List.length_append, length_wire]
    have hitems := ih (by omega) hls h.2
    rw [Nat.add_assoc] at hitems
    apply Items.cons (cell_wire hp h.1 hl.legible hl.nonempty)
    rwa [Nat.add_assoc, Nat.add_comm 1]

namespace Packet

theorem label_skip {l : List UInt8} (hl : Plain l) (h : Placed data p (wire l)) :
    Label.skip data p = p + 1 + l.length := by
  have hle := h.le (List.cons_ne_nil _ _)
  have hpos := List.length_pos_iff.mpr hl.nonempty
  rw [length_wire] at hle
  unfold Label.skip
  simp only [(placed_wire.mp h).1, toNat_length hl.short]
  rw [if_pos hl.short, if_neg (by omega), if_neg (by omega)]

theorem label_skip_root (h : Placed data p [0]) : Label.skip data p = data.length := by
  unfold Label.skip
  simp [h.getElem?]

theorem label_skip_pointer {hi lo : UInt8} (h : Placed data p [hi, lo]) (hhi : 192 ≤ hi.toNat) :
    Label.skip data p = data.length := by
  unfold Label.skip
  simp only [h.getElem?]
  rw [if_neg (by omega)]

theorem dictLoop_end (fuel : Nat) : dictLoop data dict q (fuel + 1) data.length = none := by
  simp [dictLoop]

/-- The loop passes over the labels. -/
theorem dictLoop_labels (hls : ∀ l ∈ ls, Plain l) (h : Placed data p (ls.flatMap wire)) :
    dictLoop data dict q (fuel + ls.length) p =
      dictLoop data dict q fuel (p + (ls.flatMap wire).length) := by
  induction ls generalizing p with
  | nil => rfl
  | cons l ls ih =>
    obtain ⟨hl, hls⟩ := List.forall_mem_cons.mp hls
    rw [List.flatMap_cons, placed_append, length_wire] at h
    have hshort := toNat_length hl.short
    have hlt := hl.short
    rw [List.length_cons, ← Nat.add_assoc, dictLoop, label_skip hl h.1]
    simp only [(placed_wire.mp h.1).1]
    rw [if_neg (by omega)]
    dsimp only
    rw [Nat.add_assoc, Nat.add_comm 1, ih hls h.2, List.flatMap_cons, List.length_append,
      length_wire, Nat.add_assoc]

theorem dictLoop_root (h : Placed data r [0]) : dictLoop data dict q (fuel + 2) r = none := by
  rw [dictLoop, label_skip_root h, dictLoop_end]
  simp [h.getElem?]

/-- At a pointer, the slot of its target is looked for. -/
theorem dictLoop_pointer {hi lo : UInt8} (h : Placed data r [hi, lo]) (hhi : 192 ≤ hi.toNat) :
    dictLoop data dict q (fuel + 2) r =
      if r ≠ q then (dict.idxOf? (pointer hi lo)).map (dict.set · q) else none := by
  rw [dictLoop, label_skip_pointer h hhi, dictLoop_end]
  simp only [h.getElem?, h.second, hhi, true_and, Option.bind_some]
  by_cases hr : r ≠ q
  · rw [if_pos hr, if_pos hr]
    cases dict.idxOf? (pointer hi lo) <;> rfl
  · rw [if_neg hr, if_neg hr]

end Packet

open Packet

variable {owned owned' : Nat → Prop}

/-- A name that no slot is given up for takes a new one, if there is one. -/
theorem recorded_new (hloop : dictLoop data' (slots.map Prod.fst) p (data'.length + 1) p = none)
    (hdir : Directory c slots) (hnew : Directory c (slots ++ [(p, xs)])) :
    ∃ slots', recorded data' (slots.map Prod.fst) p = slots'.map Prod.fst ∧
      Directory c slots' ∧ ∀ s ∈ slots', s ∈ slots ∨ s.2 = xs := by
  rw [recorded, hloop, Option.getD_none]
  split
  · refine ⟨slots ++ [(p, xs)], by simp, hnew, fun s hs => ?_⟩
    rcases List.mem_append.mp hs with hs | hs
    · exact .inl hs
    · exact .inr (congrArg Prod.snd (List.mem_singleton.mp hs))
  · exact ⟨slots, rfl, hdir, fun s hs => .inl hs⟩

/-- Once the name stands at `p` in bytes that it owns, it can be read there, and the slots that are
recorded point to names. The bytes that belong to no name need not be final yet. -/
theorem recorded_spec (hext : Extends c (within owned data)) (hdir : Directory c slots)
    (hls : ∀ l ∈ ls, Plain l) (henc : Encoding c slots ls bs) (hp : 12 ≤ p)
    (hplaced : Placed data p bs) (hown : ∀ q, p ≤ q → q < p + bs.length → owned q)
    (hplaced' : Placed data' p bs) :
    Spells (within owned data) (fun k _ => k ≤ 2) p (ls.map lower) ∧
      ∃ slots', recorded data' (slots.map Prod.fst) p = slots'.map Prod.fst ∧
        Directory (within owned data) slots' ∧ ∀ s ∈ slots', s ∈ slots ∨ s.2 = ls.map lower := by
  cases henc with
  | full =>
    rw [wireName, List.length_append, List.length_singleton] at hown
    rw [wireName, placed_append] at hplaced hplaced'
    obtain ⟨-, hitems⟩ := items_within (items_wire hp hls hplaced.1)
      fun q hpq hq => hown q hpq (by omega)
    have hroot : within owned data (p + (ls.flatMap wire).length) = some .stop :=
      within_eq_some.mpr ⟨cell_root (by omega) hplaced.2,
        fun q hpq hq => hown q (by omega) (by simp only [past] at hq; omega)⟩
    have hlength := hplaced'.2.le (List.cons_ne_nil _ _)
    have hcount := length_flatMap_le hls
    obtain ⟨fuel, hfuel⟩ : ∃ m, data'.length + 1 = m + 2 + ls.length :=
      ⟨data'.length - 1 - ls.length, by rw [List.length_singleton] at hlength; omega⟩
    refine ⟨?_, recorded_new ?_ (hdir.extend hext) (hdir.append_items hext hitems hroot)⟩
    · rw [← List.append_nil (ls.map lower)]
      exact hitems.spells (fun _ => Nat.zero_le 2) (.stop hroot)
    · rw [hfuel, dictLoop_labels hls hplaced'.1, dictLoop_root hplaced'.2]
  | @pointer i t pre rest hne ht hfirst =>
    have hpre : ∀ l ∈ pre, Plain l := fun l hl => hls l (List.mem_append_left rest hl)
    have htwo : (pointerBytes t).length = 2 := rfl
    rw [List.length_append, htwo] at hown
    rw [placed_append] at hplaced hplaced'
    obtain ⟨-, hitems⟩ := items_within (items_wire hp hpre hplaced.1)
      fun q hpq hq => hown q hpq (by omega)
    have hjump : within owned data (p + (pre.flatMap wire).length) = some (.jump t) := by
      refine within_eq_some.mpr ⟨?_, fun q hpq hq => hown q (by omega) ?_⟩
      · rw [cell_pointer (by omega) hplaced.2 (toNat_high t), pointer_bytes ht]
      · simp only [past] at hq
        omega
    have hne' : rest.map lower ≠ [] := by simpa using hne
    have hlength := hplaced'.2.le (List.cons_ne_nil _ _)
    have hcount := length_flatMap_le hpre
    obtain ⟨fuel, hfuel⟩ : ∃ m, data'.length + 1 = m + 2 + pre.length :=
      ⟨data'.length - 1 - pre.length, by omega⟩
    have hloop : dictLoop data' (slots.map Prod.fst) p (data'.length + 1) p =
        if p + (pre.flatMap wire).length ≠ p then
          ((slots.map Prod.fst).idxOf? t).map ((slots.map Prod.fst).set · p) else none := by
      rw [hfuel, dictLoop_labels hpre hplaced'.1, dictLoop_pointer hplaced'.2 (toNat_high t),
        pointer_bytes ht]
    obtain ⟨s, n, hslot, -⟩ := hfirst.slot
    rw [List.map_append]
    refine ⟨?_, ?_⟩
    · exact (hdir.spells_jump hext hfirst hne' hitems hjump
        (.inl (List.getElem?_eq_some_iff.mp hslot).1) (.refl _)).mono fun _ _ h => h.1
    · have hnew := hdir.append_jump hext hfirst hne' hitems hjump
      by_cases hnil : pre = []
      · apply recorded_new _ (hdir.extend hext) hnew
        rw [hloop, hnil, if_neg (by simp)]
      · have hpos := Domain.length_flatMap_wire hpre hnil
        rw [if_pos (by omega)] at hloop
        cases hidx : (slots.map Prod.fst).idxOf? t with
        | none =>
          apply recorded_new _ (hdir.extend hext) hnew
          rw [hloop, hidx, Option.map_none]
        | some j =>
          obtain ⟨hlt, htarget, -⟩ := List.idxOf?_eq_some_iff.mp hidx
          rw [List.length_map] at hlt
          rw [List.getElem_map] at htarget
          have hj : slots[j]? = some (t, slots[j].2) := by
            rw [List.getElem?_eq_getElem hlt, ← htarget]
          refine ⟨_, ?_, hdir.set_jump hext hfirst hne' hitems hjump hj (by simpa using hnil), ?_⟩
          · rw [recorded, hloop, hidx, Option.map_some, Option.getD_some, List.map_set]
          · intro s hs
            exact (List.mem_or_eq_of_mem_set hs).imp id (congrArg Prod.snd)

variable {P P' : Packet}

/-- The slots of a packet point to names that stand in owned bytes. -/
structure Held (owned : Nat → Prop) (P : Packet) (slots : List (Nat × List (List UInt8))) :
    Prop where
  dict : P.dict = slots.map Prod.fst
  directory : Directory (within owned P.data) slots
  tame : ∀ s ∈ slots, s.2.Nodup ∧ 2 * s.2.length < P.size

theorem held_init (owned : Nat → Prop) (spare : List UInt8) : Held owned (init spare) [] := by
  refine ⟨rfl, fun i p xs h => ?_, fun s h => ?_⟩
  · cases h
  · cases h

theorem length_encoding (h : Encoding c slots ls bs) : 0 < bs.length := by
  cases h with
  | full => simp [wireName]
  | pointer => simp [pointerBytes]

theorem keeps_append (data bs : List UInt8) : Keeps data (data ++ bs) :=
  fun _ _ hlt => List.getElem?_append_left hlt

theorem Keeps.trans {data'' : List UInt8} (h : Keeps data data') (h' : Keeps data' data'')
    (hle : data.length ≤ data'.length) : Keeps data data'' :=
  fun p hp hlt => (h' p hp (by omega)).trans (h p hp hlt)

/-- Whatever is stored in bytes that are not owned, the slots point to names. -/
theorem Held.agree (h : Held owned P slots) (hdict : P'.dict = P.dict) (hsize : P'.size = P.size)
    (hagree : Agree owned P.data P'.data) (hsub : ∀ q, owned q → owned' q) :
    Held owned' P' slots :=
  ⟨hdict.trans h.dict, h.directory.extend (hagree.extends hsub), fun s hs => hsize ▸ h.tame s hs⟩

theorem size_put (P : Packet) (hle : bs.length ≤ P.spare.length) : (P.put bs).size = P.size := by
  simp only [size, put, List.length_append, List.length_drop]
  omega

/-- A name was pushed behind `Q`, which has the names of `P`: its bytes, and what can be read once
they are in place and owned too. -/
structure Written (owned : Nat → Prop) (P Q Q' : Packet) (nm : Name) (bs : List UInt8) : Prop where
  data : Q'.data = Q.data ++ bs
  fits : 2 * nm.labels.length + 13 ≤ P.size
  size : Q'.size = P.size
  memo : Q'.memo = Q.memo
  encoding : ∃ c slots, Encoding c slots nm.labels bs
  settle : ∀ (R : Packet) (owned' : Nat → Prop), Agree owned P.data R.data →
    (∀ q, owned q → owned' q) → Placed R.data Q.data.length bs →
    (∀ q, Q.data.length ≤ q → q < Q.data.length + bs.length → owned' q) → R.dict = Q'.dict →
    R.size = P.size → (∃ slots, Held owned' R slots) ∧
      Spells (within owned' R.data) (fun k _ => k ≤ 2) Q.data.length (nm.labels.map lower)

/-- A push stores the name, or there is no room for the name and the packet stays as it is. -/
theorem Held.push {Q : Packet} (h : Held owned P slots) (hdict : Q.dict = P.dict)
    (hsize : Q.size = P.size) (hagree : Agree owned P.data Q.data) (hdn : nm.Given dn)
    (hfuel : P.size ≤ fuel) :
    ∃ e Q', Domain.push fuel Q dn = some (e, Q') ∧
      (e = none ∧ (∃ bs, Written owned P Q Q' nm bs) ∨
        e = some .nobufs ∧ ∃ spare, Q' = { Q with spare := spare } ∧
          spare.length = Q.spare.length) := by
  have hheader := Q.header
  have hlabels := length_flatMap_le nm.plain
  have hbound (hroom : (wireName nm.labels).length ≤ Q.spare.length) :
      2 * nm.labels.length + 13 ≤ P.size := by
    rw [Domain.length_wireName] at hroom
    rw [← hsize, Packet.size]
    omega
  have hcells : Extends (within owned P.data) (cell Q.data) := fun p a ha =>
    within_extends owned Q.data p a (hagree.extends (fun _ hq => hq) p a ha)
  obtain ⟨dst, len, hcomp, hdst, hpos, henc⟩ := Domain.comp_spec Q.spare
    hcells h.directory hdn fun hroom => by
      have hfits := hbound hroom
      have hfuel' : nm.labels.length < fuel := by omega
      refine ⟨hfuel', fun s hs => ⟨(h.tame s hs).1, ?_⟩⟩
      have hs := (h.tame s hs).2
      omega
  rw [← h.dict, ← hdict] at hcomp
  rw [Domain.push, hcomp, Option.map_some]
  dsimp only
  rw [if_neg (by omega)]
  by_cases hroom : dst.length < len
  · rw [if_pos hroom]
    exact ⟨_, _, rfl, .inr ⟨rfl, dst, rfl, hdst⟩⟩
  · rw [if_neg hroom]
    obtain ⟨hfits, henc⟩ := henc (by omega)
    have hfits := hbound hfits
    refine ⟨_, _, rfl, .inl ⟨rfl, dst.take len, rfl, hfits, ?_, rfl, ⟨_, slots, henc⟩, ?_⟩⟩
    · apply (size_put { Q with spare := dst } (by simp)).trans
      rw [← hsize, Packet.size, Packet.size, hdst]
    · intro R owned' hR hsub hplaced hown hRdict hRsize
      obtain ⟨hspells, slots', hslots', hdir, hmem⟩ := recorded_spec (hR.extends hsub) h.directory
        nm.plain henc hheader hplaced hown
        (show Placed (Q.data ++ dst.take len) _ _ from ⟨[], by simp⟩)
      refine ⟨⟨slots', ?_, hdir, fun s hs => ?_⟩, hspells⟩
      · rw [hRdict, ← hslots', ← h.dict, ← hdict]
        rfl
      · rw [hRsize]
        rcases hmem s hs with hs | hs
        · exact h.tame s hs
        · rw [hs, List.length_map]
          exact ⟨nm.distinct, by omega⟩

/-- The bytes behind the header. -/
def Packet.body (P : Packet) (q : Nat) : Prop := 12 ≤ q ∧ q < P.data.length

/-- The slots of a packet point to names. -/
def Kept (P : Packet) (slots : List (Nat × List (List UInt8))) : Prop := Held P.body P slots

theorem kept_init (spare : List UInt8) : Kept (init spare) [] := held_init _ spare

theorem agree_body (h : Keeps P.data P'.data) : Agree P.body P.data P'.data :=
  fun q hq => h q hq.1 hq.2

/-- Whatever else is stored behind the names or in the header, the slots point to names. -/
theorem Kept.keep (h : Kept P slots) (hdict : P'.dict = P.dict) (hsize : P'.size = P.size)
    (hkeeps : Keeps P.data P'.data) (hle : P.data.length ≤ P'.data.length) : Kept P' slots :=
  h.agree hdict hsize (agree_body hkeeps) fun _ hq => ⟨hq.1, Nat.lt_of_lt_of_le hq.2 hle⟩

theorem Kept.push {Q : Packet} (h : Kept P slots) (hdict : Q.dict = P.dict)
    (hsize : Q.size = P.size) (hkeeps : Keeps P.data Q.data) (hdn : nm.Given dn)
    (hfuel : P.size ≤ fuel) :
    ∃ e Q', Domain.push fuel Q dn = some (e, Q') ∧
      (e = none ∧ (∃ bs, Written P.body P Q Q' nm bs) ∨
        e = some .nobufs ∧ ∃ spare, Q' = { Q with spare := spare } ∧
          spare.length = Q.spare.length) :=
  Held.push h hdict hsize (agree_body hkeeps) hdn hfuel

/-- Once a name was pushed and nothing before it is overwritten, it can be read. -/
theorem Written.settled {Q Q' R : Packet} (h : Written P.body P Q Q' nm bs)
    (hkeeps : Keeps P.data R.data) (hle : P.data.length ≤ R.data.length)
    (hplaced : Placed R.data Q.data.length bs) (hdict : R.dict = Q'.dict)
    (hsize : R.size = P.size) : (∃ slots, Kept R slots) ∧
      Spells (cell R.data) (fun k _ => k ≤ 2) Q.data.length (nm.labels.map lower) := by
  have hheader := Q.header
  obtain ⟨_, _, henc⟩ := h.encoding
  have hbehind := hplaced.le (List.length_pos_iff.mp (length_encoding henc))
  obtain ⟨hheld, hspells⟩ := h.settle R R.body (agree_body hkeeps)
    (fun q hq => ⟨hq.1, Nat.lt_of_lt_of_le hq.2 hle⟩) hplaced
    (fun q hpq hq => ⟨by omega, by omega⟩) hdict hsize
  exact ⟨hheld, hspells.extend (within_extends _ _)⟩

end NetworkLabs.Dns
