import NetworkLabs.Dns.Storing

/-! A packet as a sheet of records in its four sections. -/
namespace NetworkLabs.Dns

open Chain BigEndian Packet Function

variable {data data' : List UInt8} {e : Entry} {es : List Entry} {p q m m' j : Nat}

theorem Stands.skip (h : Stands data p e q) : ∃ r, Domain.skip data p = r ∧
    Placed data r (encode 2 e.type ++ encode 2 e.cls) ∧
    if e.sec = qd then q = r + 4
    else ∃ body, q = r + 10 + body.length ∧ body.length < 65536 ∧
      Placed data (r + 4) (encode 4 e.storedTtl ++ (encode 2 body.length ++ body)) ∧
      Holds data (r + 10) body e.content := by
  obtain ⟨bs, hname, hfields, hrest⟩ := h
  obtain ⟨c, slots, henc⟩ := hname.encoding
  exact ⟨_, Domain.skip_encoding e.name.plain henc hname.placed, hfields, hrest⟩

theorem number_rdLen {body : List UInt8} {ttl : Nat} (hlt : body.length < 65536)
    (h : Placed data (p + 4) (encode 4 ttl ++ (encode 2 body.length ++ body))) :
    number data 2 (p + 8) = body.length := by
  obtain ⟨-, hrest⟩ := (placed_append _ _ _).mp h
  obtain ⟨hlen, -⟩ := (placed_append _ _ _).mp hrest
  rw [length_encode] at hlen
  exact number_placed 2 body.length hlen hlt

/-- The bytes say where a record ends. -/
theorem Stands.unique (h : Stands data p e m) (h' : Stands data p e m') : m = m' := by
  obtain ⟨r, hr, -, hrest⟩ := h.skip
  obtain ⟨r', hr', -, hrest'⟩ := h'.skip
  obtain rfl := hr.symm.trans hr'
  split at hrest
  · rename_i hsec
    rw [if_pos hsec] at hrest'
    omega
  · rename_i hsec
    rw [if_neg hsec] at hrest'
    obtain ⟨body, hm, hlt, hplaced, -⟩ := hrest
    obtain ⟨body', hm', hlt', hplaced', -⟩ := hrest'
    have hlen := number_rdLen hlt hplaced
    have hlen' := number_rdLen hlt' hplaced'
    omega

theorem Lays.unique (h : Lays data p es m) (h' : Lays data p es m') : m = m' := by
  induction es generalizing p with
  | nil => exact h.symm.trans h'
  | cons e es ih =>
    obtain ⟨n, hstands, hlays⟩ := h
    obtain ⟨n', hstands', hlays'⟩ := h'
    obtain rfl := hstands.unique hstands'
    exact ih hlays hlays'

theorem Stands.advance_question (h : Stands data p e q) (hsec : e.sec = qd) (hq : q ≤ qend data)
    (hle : q ≤ data.length) : advance data p = q := by
  obtain ⟨r, hr, -, hrest⟩ := h.skip
  have hlt := h.lt
  rw [if_pos hsec] at hrest
  rw [advance, if_pos (by omega), Record.skip, Record.len]
  dsimp only
  rw [hr, if_neg (by omega), if_pos (by omega)]
  omega

theorem Stands.advance_record (h : Stands data p e q) (hsec : e.sec ≠ qd) (hp : qend data ≤ p)
    (hle : q ≤ data.length) : advance data p = q := by
  obtain ⟨r, hr, -, hrest⟩ := h.skip
  have hlt := h.lt
  rw [if_neg hsec] at hrest
  obtain ⟨body, hq, hbody, hplaced, -⟩ := hrest
  have hpr : p < data.length := by omega
  have hskip := (Domain.skip_bounds hpr).1
  rw [hr] at hskip
  rw [advance, if_pos hpr, Record.skip, Record.len]
  dsimp only
  rw [hr, number_rdLen hbody hplaced, if_neg (by omega), if_neg (by omega), if_neg (by omega),
    if_neg (by omega)]
  omega

theorem Lays.questions (h : Lays data p es q) (hsec : ∀ e ∈ es, e.sec = qd)
    (hq : q ≤ qend data) (hle : q ≤ data.length) : (advance data)^[es.length] p = q := by
  induction es generalizing p with
  | nil => exact h
  | cons e es ih =>
    obtain ⟨m, hstands, hlays⟩ := h
    obtain ⟨he, hes⟩ := List.forall_mem_cons.mp hsec
    have hm := hlays.le
    rw [List.length_cons, iterate_succ_apply,
      hstands.advance_question he (by omega) (by omega)]
    exact ih hlays hes

theorem Lays.records (h : Lays data p es q) (hsec : ∀ e ∈ es, e.sec ≠ qd)
    (hp : qend data ≤ p) (hle : q ≤ data.length) : (advance data)^[es.length] p = q := by
  induction es generalizing p with
  | nil => exact h
  | cons e es ih =>
    obtain ⟨m, hstands, hlays⟩ := h
    obtain ⟨he, hes⟩ := List.forall_mem_cons.mp hsec
    have hm := hlays.le
    have hlt := hstands.lt
    rw [List.length_cons, iterate_succ_apply, hstands.advance_record he hp (by omega)]
    exact ih hlays hes (by omega)

/-- The questions end where they were laid. -/
theorem Lays.qend (h : Lays data p es q) (hsec : ∀ e ∈ es, e.sec = qd) (hle : q ≤ data.length) :
    qendLoop data es.length p = q := by
  induction es generalizing p with
  | nil =>
    obtain rfl : p = q := h
    exact Nat.min_eq_left hle
  | cons e es ih =>
    obtain ⟨m, hstands, hlays⟩ := h
    obtain ⟨he, hes⟩ := List.forall_mem_cons.mp hsec
    obtain ⟨r, hr, -, hrest⟩ := hstands.skip
    have hm := hlays.le
    have hlt := hstands.lt
    rw [if_pos he] at hrest
    rw [List.length_cons, qendLoop, if_pos (by omega)]
    dsimp only
    rw [hr, if_neg (by omega), ← hrest]
    exact ih hlays hes

/-- The records by sections. -/
structure Sheet where
  qds : List Entry
  ans : List Entry
  nss : List Entry
  ars : List Entry
  inQd : ∀ e ∈ qds, e.sec = qd
  inAn : ∀ e ∈ ans, e.sec = an
  inNs : ∀ e ∈ nss, e.sec = ns
  inAr : ∀ e ∈ ars, e.sec = ar

namespace Sheet

variable {s : Sheet}

def records (s : Sheet) : List Entry := s.ans ++ (s.nss ++ s.ars)

def all (s : Sheet) : List Entry := s.qds ++ s.records

/-- The header has the numbers of the records. -/
structure Counted (data : List UInt8) (s : Sheet) : Prop where
  qds : countAt data qd = s.qds.length
  ans : countAt data an = s.ans.length
  nss : countAt data ns = s.nss.length
  ars : countAt data ar = s.ars.length

theorem no_questions (s : Sheet) : ∀ e ∈ s.records, e.sec ≠ qd := by
  intro e he
  rcases List.mem_append.mp he with he | he
  · rw [s.inAn e he]
    decide
  rcases List.mem_append.mp he with he | he
  · rw [s.inNs e he]
    decide
  · rw [s.inAr e he]
    decide

/-- The questions come first. -/
theorem question_iff (he : s.all[j]? = some e) : e.sec = qd ↔ j < s.qds.length := by
  rw [all] at he
  constructor
  · intro hsec
    by_contra hle
    rw [List.getElem?_append_right (Nat.le_of_not_lt hle)] at he
    exact s.no_questions e (List.mem_of_getElem? he) hsec
  · intro hlt
    rw [List.getElem?_append_left hlt] at he
    exact s.inQd e (List.mem_of_getElem? he)

/-- The records of a sheet stand in the packet and are counted. -/
structure Laid (data : List UInt8) (s : Sheet) (q : Nat) : Prop where
  counted : s.Counted data
  lays : Lays data 12 s.all q
  le : q ≤ data.length

theorem count_single (data : List UInt8) {sec : Nat}
    (hsec : sec = qd ∨ sec = an ∨ sec = ns ∨ sec = ar) : count data sec = countAt data sec := by
  rcases hsec with rfl | rfl | rfl | rfl
  · rfl
  · exact Nat.zero_add _
  · exact Nat.zero_add _
  · exact Nat.zero_add _

theorem Counted.ends (h : s.Counted data) : qdEnd data = s.qds.length ∧
    anEnd data = s.qds.length + s.ans.length ∧
    nsEnd data = s.qds.length + s.ans.length + s.nss.length ∧ arEnd data = s.all.length := by
  have hqd : qdEnd data = s.qds.length := (count_single data (.inl rfl)).trans h.qds
  have han : count data an = s.ans.length := (count_single data (.inr (.inl rfl))).trans h.ans
  have hns : count data ns = s.nss.length :=
    (count_single data (.inr (.inr (.inl rfl)))).trans h.nss
  have har : count data ar = s.ars.length :=
    (count_single data (.inr (.inr (.inr rfl)))).trans h.ars
  refine ⟨hqd, by rw [anEnd, hqd, han], by rw [nsEnd, anEnd, hqd, han, hns], ?_⟩
  rw [arEnd, nsEnd, anEnd, hqd, han, hns, har, all, records]
  simp only [List.length_append, Nat.add_assoc]

namespace Laid

/-- The questions end where `dns_p_qend` finds it. -/
theorem split (h : s.Laid data q) :
    Lays data 12 s.qds (qend data) ∧ Lays data (qend data) s.records q := by
  obtain ⟨m, hqds, hrecords⟩ := lays_append.mp h.lays
  have hm := hrecords.le
  have hle := h.le
  have hqend : qend data = m := by
    rw [qend, show count data qd = s.qds.length from h.counted.ends.1]
    exact hqds.qend s.inQd (by omega)
  rw [hqend]
  exact ⟨hqds, hrecords⟩

/-- The first records reach to where the next one is looked for. -/
theorem place (h : s.Laid data q) (hj : j ≤ s.all.length) :
    Lays data 12 (s.all.take j) (place data j) := by
  obtain ⟨hqds, hrecords⟩ := h.split
  have hle := h.le
  rcases Nat.le_total j s.qds.length with hfirst | hbehind
  · rw [← List.take_append_drop j s.qds] at hqds
    obtain ⟨m, htake, hdrop⟩ := lays_append.mp hqds
    have hm := hdrop.le
    have hend := hrecords.le
    have hplace := htake.questions (fun e he => s.inQd e (List.mem_of_mem_take he)) (by omega)
      (by omega)
    rw [List.length_take, Nat.min_eq_left hfirst] at hplace
    rw [all, List.take_append_of_le_length hfirst, Dns.place, hplace]
    exact htake
  · obtain ⟨k, rfl⟩ := Nat.exists_eq_add_of_le hbehind
    have hk : k ≤ s.records.length := by
      rw [all, List.length_append] at hj
      omega
    have hend := hrecords.le
    rw [← List.take_append_drop k s.records] at hrecords
    obtain ⟨m, htake, hdrop⟩ := lays_append.mp hrecords
    have hm := hdrop.le
    have hplace := htake.records (fun e he => s.no_questions e (List.mem_of_mem_take he))
      (Nat.le_refl _) (by omega)
    have hquestions := hqds.questions s.inQd (Nat.le_refl _) (by omega)
    rw [List.length_take, Nat.min_eq_left hk] at hplace
    rw [all, List.take_length_add_append, Dns.place, Nat.add_comm, iterate_add_apply, hquestions,
      hplace]
    exact lays_append.mpr ⟨_, hqds, htake⟩

theorem place_end (h : s.Laid data q) : Dns.place data s.all.length = q := by
  have hplace := h.place (Nat.le_refl _)
  rw [List.take_length] at hplace
  exact hplace.unique h.lays

theorem qend_eq (h : s.Laid data q) : qend data = Dns.place data s.qds.length := by
  have hplace := h.place (j := s.qds.length) (by simp [all])
  rw [all, List.take_left] at hplace
  exact h.split.1.unique hplace

theorem stands (h : s.Laid data q) (he : s.all[j]? = some e) :
    Stands data (Dns.place data j) e (Dns.place data (j + 1)) := by
  obtain ⟨hlt, rfl⟩ := List.getElem?_eq_some_iff.mp he
  have hnext := h.place hlt
  rw [List.take_add_one, he, lays_append] at hnext
  obtain ⟨m, htake, n, hstands, rfl⟩ := hnext
  rw [htake.unique (h.place (Nat.le_of_lt hlt))] at hstands
  exact hstands

theorem sectionOf (h : s.Laid data q) (he : s.all[j]? = some e) : sectionOf data j = e.sec := by
  obtain ⟨hqd, han, hns, har⟩ := h.counted.ends
  have hall := (List.getElem?_eq_some_iff.mp he).1
  rw [Packet.sectionOf, hqd, han, hns, har]
  by_cases h1 : j < s.qds.length
  · rw [all, List.getElem?_append_left h1] at he
    rw [if_pos h1, s.inQd e (List.mem_of_getElem? he)]
  rw [all, List.getElem?_append_right (Nat.le_of_not_lt h1), records] at he
  rw [if_neg h1]
  by_cases h2 : j < s.qds.length + s.ans.length
  · rw [List.getElem?_append_left (by omega)] at he
    rw [if_pos h2, s.inAn e (List.mem_of_getElem? he)]
  rw [List.getElem?_append_right (by omega)] at he
  rw [if_neg h2]
  by_cases h3 : j < s.qds.length + s.ans.length + s.nss.length
  · rw [List.getElem?_append_left (by omega)] at he
    rw [if_pos h3, s.inNs e (List.mem_of_getElem? he)]
  · rw [List.getElem?_append_right (by omega)] at he
    rw [if_neg h3, if_pos hall, s.inAr e (List.mem_of_getElem? he)]

/-- Bytes behind the records do not move them. -/
theorem place_eq (h : s.Laid data q) {s' : Sheet} (h' : s'.Laid data' m) (hkeeps : Keeps data data')
    (hj : j ≤ s.all.length) (htake : s'.all.take j = s.all.take j) (hj' : j ≤ s'.all.length) :
    Dns.place data' j = Dns.place data j := by
  have hplace' := h'.place hj'
  rw [htake] at hplace'
  exact hplace'.unique ((h.place hj).keep (Nat.le_refl _) hkeeps)

theorem studied (h : s.Laid data q) : studied data =
    (⟨12, Dns.place data s.qds.length⟩,
      ⟨Dns.place data s.qds.length, Dns.place data (s.qds.length + s.ans.length)⟩,
      ⟨Dns.place data (s.qds.length + s.ans.length),
        Dns.place data (s.qds.length + s.ans.length + s.nss.length)⟩,
      ⟨Dns.place data (s.qds.length + s.ans.length + s.nss.length), q⟩) := by
  obtain ⟨hqd, han, hns, har⟩ := h.counted.ends
  rw [Packet.studied, hqd, han, hns, har, h.place_end]

end Laid

end Sheet

end NetworkLabs.Dns
