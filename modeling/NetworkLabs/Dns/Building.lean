import NetworkLabs.Dns.Sheets

/-! How a packet is built: every record that `dns_p_push` takes comes behind the others, is counted
in its section, and the memo goes along. -/
namespace NetworkLabs.Dns

open Chain BigEndian Packet

variable {P P' Q : Packet} {bs dn data : List UInt8} {s : Sheet} {e : Entry} {any : Any}
  {p q v sec type cls ttl size fuel : Nat}

namespace Packet

theorem number_patch (hp : p + 2 ≤ P.data.length) (hv : v < 65536) :
    number (P.patch p v).data 2 p = v := by
  obtain ⟨x, rest, hx⟩ : ∃ x rest, P.data.drop p = x :: rest := by
    apply List.exists_cons_of_length_pos
    rw [List.length_drop]
    omega
  obtain ⟨y, rest, rfl⟩ : ∃ y rest', rest = y :: rest' := by
    apply List.exists_cons_of_length_pos
    have hlen := congrArg List.length hx
    rw [List.length_drop, List.length_cons] at hlen
    omega
  have hdata : P.data = P.data.take p ++ x :: y :: rest := by
    rw [← hx, List.take_append_drop]
  have hlen : (P.data.take p).length = p := by
    rw [List.length_take]
    omega
  have hpatch := data_patch (v := v) hdata
  rw [hlen] at hpatch
  apply number_placed 2 v _ hv
  rw [hpatch]
  refine ⟨rest, ?_⟩
  rw [List.drop_left' hlen]

theorem number_patch_ne (h : q + 2 ≤ p ∨ p + 2 ≤ q) :
    number (P.patch p v).data 2 q = number P.data 2 q := by
  have hget (i : Nat) (hi : i < 2) : (P.patch p v).data[q + i]? = P.data[q + i]? := by
    rw [patch, List.getElem?_set_ne (by omega), List.getElem?_set_ne (by omega)]
  have htake : ((P.patch p v).data.drop q).take 2 = (P.data.drop q).take 2 := by
    apply List.ext_getElem?
    intro i
    rw [List.getElem?_take, List.getElem?_take]
    split
    · rename_i hi
      rw [List.getElem?_drop, List.getElem?_drop, hget i hi]
    · rfl
  rw [number, htake, number]

theorem keeps_patch (hp : p + 2 ≤ 12) : Keeps P.data (P.patch p v).data := by
  intro i hi _
  rw [patch, List.getElem?_set_ne (by omega), List.getElem?_set_ne (by omega)]

theorem length_patch : (P.patch p v).data.length = P.data.length := by
  rw [patch, List.length_set, List.length_set]

/-- Where the number of the records of a section is. -/
def fieldOf (sec : Nat) : Nat :=
  if sec = qd then 4 else if sec = an then 6 else if sec = ns then 8 else 10

theorem increment_eq (hsec : sec = qd ∨ sec = an ∨ sec = ns ∨ sec = ar) :
    P.increment sec = P.patch (fieldOf sec) (countAt P.data sec + 1) := by
  rcases hsec with rfl | rfl | rfl | rfl
  · rfl
  · rfl
  · rfl
  · rfl

theorem countAt_eq (hsec : sec = qd ∨ sec = an ∨ sec = ns ∨ sec = ar) :
    countAt data sec = number data 2 (fieldOf sec) := by
  rcases hsec with rfl | rfl | rfl | rfl
  · rfl
  · rfl
  · rfl
  · rfl

theorem fieldOf_le (sec : Nat) : fieldOf sec + 2 ≤ 12 := by
  unfold fieldOf
  split
  · omega
  split
  · omega
  split
  · omega
  · omega

theorem fieldOf_ne {sec' : Nat} (hsec : sec = qd ∨ sec = an ∨ sec = ns ∨ sec = ar)
    (hsec' : sec' = qd ∨ sec' = an ∨ sec' = ns ∨ sec' = ar) (hne : sec' ≠ sec) :
    fieldOf sec' + 2 ≤ fieldOf sec ∨ fieldOf sec + 2 ≤ fieldOf sec' := by
  rcases hsec with rfl | rfl | rfl | rfl <;> rcases hsec' with rfl | rfl | rfl | rfl <;>
    first | exact absurd rfl hne | decide

/-- One record more in this section, and in no other. -/
theorem countAt_increment (hsec : sec = qd ∨ sec = an ∨ sec = ns ∨ sec = ar)
    (hlt : countAt P.data sec + 1 < 65536) {sec' : Nat}
    (hsec' : sec' = qd ∨ sec' = an ∨ sec' = ns ∨ sec' = ar) :
    countAt (P.increment sec).data sec' = countAt P.data sec' + if sec' = sec then 1 else 0 := by
  have hheader := P.header
  rw [increment_eq hsec, countAt_eq hsec']
  by_cases heq : sec' = sec
  · obtain rfl := heq
    have hfield := fieldOf_le sec'
    rw [number_patch (by omega) hlt, if_pos rfl]
  · rw [if_neg heq, countAt_eq hsec']
    exact number_patch_ne (fieldOf_ne hsec hsec' heq)

theorem study_rest (P : Packet) : P.study.dict = P.dict ∧ P.study.spare = P.spare := by
  unfold study
  dsimp only
  split
  · exact ⟨rfl, rfl⟩
  · exact ⟨rfl, rfl⟩

/-- What a memo says about the sections. -/
def spans (m : Memo) : Extent × Extent × Extent × Extent := (m.qd, m.an, m.ns, m.ar)

/-- The packet with the memo from which the extents are moved. -/
def noted (P : Packet) (sec : Nat) : Packet := if baseOf P.memo sec = 0 then P.study else P

theorem noted_rest (P : Packet) (sec : Nat) : (P.noted sec).data = P.data ∧
    (P.noted sec).dict = P.dict ∧ (P.noted sec).spare = P.spare := by
  unfold noted
  split
  · exact ⟨P.study_sound.2, P.study_rest⟩
  · exact ⟨rfl, rfl, rfl⟩

theorem enter_spec {dn : Nat} (h : Q.enter sec dn type cls ttl = (none, P')) :
    (sec = qd ∨ sec = an ∨ sec = ns ∨ sec = ar) ∧ count Q.data (behind sec) = 0 ∧
      P'.data = (Q.increment sec).data ∧ P'.dict = Q.dict ∧ P'.spare = Q.spare ∧
      P'.extents = spans (moved (Q.noted sec).memo sec Q.data.length) := by
  unfold enter at h
  split at h
  · cases h
  rename_i hsec
  split at h
  · cases h
  rename_i hbehind
  have hfour : sec = qd ∨ sec = an ∨ sec = ns ∨ sec = ar := by
    by_contra hnot
    simp only [not_or] at hnot
    exact hsec hnot
  refine ⟨hfour, by_contra hbehind, ?_⟩
  obtain ⟨hdata, hdict, hspare⟩ := Q.noted_rest sec
  have hincrement : ((Q.noted sec).increment sec).data = (Q.increment sec).data := by
    rw [increment_eq hfour, increment_eq hfour]
    simp only [patch, hdata]
  have hrest : ((Q.noted sec).increment sec).dict = Q.dict ∧
      ((Q.noted sec).increment sec).spare = Q.spare ∧
      ((Q.noted sec).increment sec).memo = (Q.noted sec).memo ∧
      ((Q.noted sec).increment sec).data.length = Q.data.length := by
    rw [increment_eq hfour]
    exact ⟨hdict, hspare, rfl, length_patch.trans (congrArg _ hdata)⟩
  obtain ⟨hdict', hspare', hmemo', hlength'⟩ := hrest
  have hspans : spans (moved ((Q.noted sec).increment sec).memo sec
      ((Q.noted sec).increment sec).data.length) =
      spans (moved (Q.noted sec).memo sec Q.data.length) := by
    rw [hmemo', hlength']
  by_cases hopt : sec = ar ∧ type = typeOpt ∧
      (moved ((Q.noted sec).increment sec).memo sec
        ((Q.noted sec).increment sec).data.length).opt.p = 0
  · have hfirst := (if_pos hopt).symm.trans h
    cases hfirst
    exact ⟨hincrement, hdict', hspare', hspans⟩
  · have hother := (if_neg hopt).symm.trans h
    cases hother
    exact ⟨hincrement, hdict', hspare', hspans⟩

end Packet

namespace Sheet

/-- A record has come into a section behind which nothing is. -/
structure Added (s : Sheet) (e : Entry) (s' : Sheet) : Prop where
  all : s'.all = s.all ++ [e]
  counts : s'.qds.length = s.qds.length + (if e.sec = qd then 1 else 0) ∧
    s'.ans.length = s.ans.length + (if e.sec = an then 1 else 0) ∧
    s'.nss.length = s.nss.length + (if e.sec = ns then 1 else 0) ∧
    s'.ars.length = s.ars.length + (if e.sec = ar then 1 else 0)
  behind : (e.sec = qd → s.ans = []) ∧ (e.sec = qd ∨ e.sec = an → s.nss = []) ∧
    (e.sec = qd ∨ e.sec = an ∨ e.sec = ns → s.ars = [])

theorem exists_added (hsec : e.sec = qd ∨ e.sec = an ∨ e.sec = ns ∨ e.sec = ar)
    (h : s.Counted data) (hbehind : count data (behind e.sec) = 0) : ∃ s', s.Added e s' := by
  obtain ⟨hqd, han, hns, har⟩ := h
  rcases hsec with hsec | hsec | hsec | hsec
  · rw [hsec] at hbehind
    have hzero : 0 + countAt data an + countAt data ns + countAt data ar = 0 := hbehind
    have hans : s.ans = [] := List.length_eq_zero_iff.mp (by omega)
    have hnss : s.nss = [] := List.length_eq_zero_iff.mp (by omega)
    have hars : s.ars = [] := List.length_eq_zero_iff.mp (by omega)
    refine ⟨{ s with qds := s.qds ++ [e], inQd := ?_ }, ?_, ?_, ?_⟩
    · simpa [or_imp, forall_and, hsec] using s.inQd
    · simp [Sheet.all, records, hans, hnss, hars]
    · simp [hsec, qd, an, ns, ar]
    · exact ⟨fun _ => hans, fun _ => hnss, fun _ => hars⟩
  · rw [hsec] at hbehind
    have hzero : 0 + 0 + countAt data ns + countAt data ar = 0 := hbehind
    have hnss : s.nss = [] := List.length_eq_zero_iff.mp (by omega)
    have hars : s.ars = [] := List.length_eq_zero_iff.mp (by omega)
    refine ⟨{ s with ans := s.ans ++ [e], inAn := ?_ }, ?_, ?_, ?_⟩
    · simpa [or_imp, forall_and, hsec] using s.inAn
    · simp [Sheet.all, records, hnss, hars]
    · simp [hsec, qd, an, ns, ar]
    · exact ⟨fun h => by simp [hsec, qd, an] at h, fun _ => hnss, fun _ => hars⟩
  · rw [hsec] at hbehind
    have hzero : 0 + 0 + 0 + countAt data ar = 0 := hbehind
    have hars : s.ars = [] := List.length_eq_zero_iff.mp (by omega)
    refine ⟨{ s with nss := s.nss ++ [e], inNs := ?_ }, ?_, ?_, ?_⟩
    · simpa [or_imp, forall_and, hsec] using s.inNs
    · simp [Sheet.all, records, hars]
    · simp [hsec, qd, an, ns, ar]
    · exact ⟨fun h => by simp [hsec, qd, ns] at h, fun h => by simp [hsec, qd, an, ns] at h,
        fun _ => hars⟩
  · refine ⟨{ s with ars := s.ars ++ [e], inAr := ?_ }, ?_, ?_, ?_⟩
    · simpa [or_imp, forall_and, hsec] using s.inAr
    · simp [Sheet.all, records]
    · simp [hsec, qd, an, ns, ar]
    · exact ⟨fun h => by simp [hsec, qd, ar] at h, fun h => by simp [hsec, qd, an, ar] at h,
        fun h => by simp [hsec, qd, an, ns, ar] at h⟩

end Sheet

/-- The extents are moved to where the sections end now. -/
theorem spans_moved {m : Memo} {s' : Sheet} {data' : List UInt8} (hadded : s.Added e s')
    (hsec : e.sec = qd ∨ e.sec = an ∨ e.sec = ns ∨ e.sec = ar) (h : s.Laid data q)
    (h' : s'.Laid data' p) (hkeeps : Keeps data data') (hspans : spans m = studied data) :
    spans (moved m e.sec p) = studied data' := by
  have hplace (j : Nat) (hj : j ≤ s.all.length) : place data' j = place data j := by
    apply h.place_eq h' hkeeps hj
    · rw [hadded.all, List.take_append_of_le_length hj]
    · rw [hadded.all, List.length_append]
      omega
  have hend := h'.place_end
  have hall : s.all.length = s.qds.length + (s.ans.length + (s.nss.length + s.ars.length)) := by
    simp [Sheet.all, Sheet.records]
  obtain ⟨hqds, hans, hnss, hars⟩ := hadded.counts
  obtain ⟨hnoAns, hnoNss, hnoArs⟩ := hadded.behind
  rw [hadded.all, List.length_append, List.length_singleton, hall] at hend
  rw [h.studied] at hspans
  rw [h'.studied, hqds, hans, hnss]
  obtain ⟨hq, ha, hn, hr⟩ := by simpa only [spans, Prod.mk.injEq] using hspans
  rcases hsec with hsec | hsec | hsec | hsec
  · have hb : s.ans.length = 0 := List.length_eq_zero_iff.mpr (hnoAns hsec)
    have hc : s.nss.length = 0 := List.length_eq_zero_iff.mpr (hnoNss (.inl hsec))
    have hd : s.ars.length = 0 := List.length_eq_zero_iff.mpr (hnoArs (.inl hsec))
    rw [hb, hc, hd] at hend
    simpa [hsec, spans, moved, qd, an, ns, hq, hb, hc] using hend.symm
  · have hc : s.nss.length = 0 := List.length_eq_zero_iff.mpr (hnoNss (.inr hsec))
    have hd : s.ars.length = 0 := List.length_eq_zero_iff.mpr (hnoArs (.inr (.inl hsec)))
    have hfirst := hplace s.qds.length (by omega)
    rw [hc, hd] at hend
    simpa [hsec, spans, moved, qd, an, ns, hq, ha, hc, hfirst, Nat.add_assoc] using hend.symm
  · have hd : s.ars.length = 0 := List.length_eq_zero_iff.mpr (hnoArs (.inr (.inr hsec)))
    have hfirst := hplace s.qds.length (by omega)
    have hsecond := hplace (s.qds.length + s.ans.length) (by omega)
    rw [hd] at hend
    simpa [hsec, spans, moved, qd, an, ns, hq, ha, hn, hfirst, hsecond, Nat.add_assoc]
      using hend.symm
  · have hfirst := hplace s.qds.length (by omega)
    have hsecond := hplace (s.qds.length + s.ans.length) (by omega)
    have hthird := hplace (s.qds.length + s.ans.length + s.nss.length) (by omega)
    simp [hsec, spans, moved, qd, an, ns, ar, hq, ha, hn, hr, hfirst, hsecond, hthird]

/-- The packet has these records, and what it knows about them is right. -/
structure Built (P : Packet) (s : Sheet) : Prop where
  laid : s.Laid P.data P.data.length
  kept : ∃ slots, Kept P slots
  sound : P.Sound

theorem built_init (spare : List UInt8) :
    Built (init spare) ⟨[], [], [], [], by simp, by simp, by simp, by simp⟩ :=
  ⟨⟨⟨rfl, rfl, rfl, rfl⟩, rfl, Nat.le_refl _⟩, ⟨[], kept_init spare⟩, sound_of_blank rfl⟩

theorem countAt_append (hsec : sec = qd ∨ sec = an ∨ sec = ns ∨ sec = ar) (hle : 12 ≤ data.length)
    (bs : List UInt8) : countAt (data ++ bs) sec = countAt data sec := by
  have hfield := fieldOf_le sec
  rw [countAt_eq hsec, countAt_eq hsec, number, number, List.drop_append_of_le_length (by omega),
    List.take_append_of_le_length (by rw [List.length_drop]; omega)]

theorem Sheet.Counted.append (h : s.Counted data) (hle : 12 ≤ data.length) (bs : List UInt8) :
    s.Counted (data ++ bs) :=
  ⟨(countAt_append (.inl rfl) hle bs).trans h.qds,
    (countAt_append (.inr (.inl rfl)) hle bs).trans h.ans,
    (countAt_append (.inr (.inr (.inl rfl))) hle bs).trans h.nss,
    (countAt_append (.inr (.inr (.inr rfl))) hle bs).trans h.ars⟩

theorem Sheet.Counted.le (h : s.Counted data)
    (hsec : sec = qd ∨ sec = an ∨ sec = ns ∨ sec = ar) : countAt data sec ≤ s.all.length := by
  have hall : s.all.length = s.qds.length + (s.ans.length + (s.nss.length + s.ars.length)) := by
    simp [all, records]
  obtain ⟨hqds, hans, hnss, hars⟩ := h
  rcases hsec with rfl | rfl | rfl | rfl <;> omega

theorem Sheet.Counted.increment {s' : Sheet} (h : s.Counted Q.data) (hadded : s.Added e s')
    (hsec : e.sec = qd ∨ e.sec = an ∨ e.sec = ns ∨ e.sec = ar)
    (hlt : countAt Q.data e.sec + 1 < 65536) : s'.Counted (Q.increment e.sec).data := by
  obtain ⟨hqds, hans, hnss, hars⟩ := hadded.counts
  refine ⟨?_, ?_, ?_, ?_⟩
  · rw [countAt_increment hsec hlt (.inl rfl), h.qds, hqds]
    simp only [eq_comm]
  · rw [countAt_increment hsec hlt (.inr (.inl rfl)), h.ans, hans]
    simp only [eq_comm]
  · rw [countAt_increment hsec hlt (.inr (.inr (.inl rfl))), h.nss, hnss]
    simp only [eq_comm]
  · rw [countAt_increment hsec hlt (.inr (.inr (.inr rfl))), h.ars, hars]
    simp only [eq_comm]

/-- The extents to be moved are those of the records that are there. -/
theorem Built.spans_noted (h : Built P s) (happended : Appended P Q bs)
    (hsec : sec = qd ∨ sec = an ∨ sec = ns ∨ sec = ar) :
    ∃ data, s.Laid data P.data.length ∧ Keeps data Q.data ∧ data.length ≤ Q.data.length ∧
      spans (Q.noted sec).memo = studied data := by
  unfold noted
  split
  · refine ⟨Q.data, ⟨?_, ?_, ?_⟩, fun _ _ _ => rfl, Nat.le_refl _,
      Q.study_extents.1⟩
    · rw [happended.data]
      exact h.laid.counted.append P.header bs
    · exact h.laid.lays.keep (Nat.le_refl _) happended.keeps
    · rw [happended.length]
      exact Nat.le_add_right _ _
  · rename_i hbase
    refine ⟨P.data, h.laid, happended.keeps, by rw [happended.length]; omega, ?_⟩
    rw [happended.memo] at hbase ⊢
    rcases h.sound with hzero | hstudied
    · obtain ⟨hqd, han, hns, har⟩ := by simpa only [Packet.extents, Prod.mk.injEq] using hzero
      refine absurd ?_ hbase
      rcases hsec with rfl | rfl | rfl | rfl
      · exact congrArg Extent.base hqd
      · exact congrArg Extent.base han
      · exact congrArg Extent.base hns
      · exact congrArg Extent.base har
    · exact hstudied

/-- One record more. -/
theorem Built.push (h : Built P s) (hfuel : P.size ≤ fuel) (hsize : P.size < 65536)
    (hdn : e.name.Given dn) (hany : e.sec ≠ qd → Content.Rel Name.Given e.content any)
    (hpush : P.push fuel e.sec dn e.type e.cls e.ttl any = some (none, P')) :
    P'.size = P.size ∧ ∃ s' : Sheet, s'.all = s.all ++ [e] ∧ Built P' s' := by
  obtain ⟨Q, bs, ttl, happended, hstands, henter⟩ :=
    push_stands h.kept hfuel hsize hdn hany hpush
  obtain ⟨hsec, hbehind, hdata, hdict, hspare, hspans⟩ := enter_spec henter
  have hcounted : s.Counted Q.data := by
    rw [happended.data]
    exact h.laid.counted.append P.header bs
  obtain ⟨s', hadded⟩ := Sheet.exists_added hsec hcounted hbehind
  obtain ⟨data, hlaid, hmoves, hle, hnoted⟩ := h.spans_noted happended hsec
  have hkeeps : Keeps Q.data P'.data := by
    rw [hdata, increment_eq hsec]
    exact keeps_patch (fieldOf_le _)
  have hlength : P'.data.length = Q.data.length := by
    rw [hdata, increment_eq hsec]
    exact length_patch
  have hlt : countAt Q.data e.sec + 1 < 65536 := by
    have hcount := hcounted.le hsec
    have hlays := h.laid.lays.le
    have hsize' : P.size = P.data.length + P.spare.length := rfl
    omega
  have hPQ := happended.length
  have hlaid' : s'.Laid P'.data P'.data.length := by
    refine ⟨?_, ?_, Nat.le_refl _⟩
    · rw [hdata]
      exact hcounted.increment hadded hsec hlt
    · rw [hadded.all, lays_append, hlength]
      have hlays := h.laid.lays.keep (Nat.le_refl _) happended.keeps
      exact ⟨_, hlays.keep (Nat.le_refl _) hkeeps, _, hstands.keep P.header hkeeps, rfl⟩
  have hsize' : P'.size = Q.size := by
    rw [Packet.size, Packet.size, hlength, hspare]
  obtain ⟨slots, hkept⟩ := happended.kept
  refine ⟨hsize'.trans happended.size, s', hadded.all, hlaid',
    ⟨slots, hkept.keep hdict hsize' hkeeps hlength.ge⟩, .inr ?_⟩
  rw [hspans, ← hlength]
  exact spans_moved hadded hsec hlaid hlaid' (hmoves.trans hkeeps hle) hnoted

/-- A packet into which records were pushed, one after the other, and none was refused. -/
inductive Pushed (fuel size : Nat) : Packet → List Entry → Prop
  | init (spare : List UInt8) (hsize : 12 + spare.length < 65536)
      (hfuel : 12 + spare.length ≤ fuel) : Pushed fuel size (init spare) []
  | push {P P' : Packet} {es : List Entry} {e : Entry} {dn : List UInt8} {any : Any}
      (h : Pushed fuel size P es) (hvalid : e.Valid size) (hdn : e.name.Given dn)
      (hany : e.sec ≠ qd → Content.Rel Name.Given e.content any)
      (hpush : P.push fuel e.sec dn e.type e.cls e.ttl any = some (none, P')) :
      Pushed fuel size P' (es ++ [e])

theorem Pushed.built {es : List Entry} (h : Pushed fuel size P es) :
    P.size < 65536 ∧ P.size ≤ fuel ∧ (∀ e ∈ es, e.Valid size) ∧
      ∃ s : Sheet, s.all = es ∧ Built P s := by
  induction h with
  | init spare hsize hfuel =>
    have hinit : (Packet.init spare).size = 12 + spare.length := by
      simp [Packet.init, Packet.size]
    exact ⟨hinit ▸ hsize, hinit ▸ hfuel, by simp, _, rfl, built_init spare⟩
  | push _ hvalid hdn hany hpush ih =>
    obtain ⟨hsize, hfuel, hes, s, rfl, hbuilt⟩ := ih
    obtain ⟨hsize', s', hall, hbuilt'⟩ := hbuilt.push hfuel hsize hdn hany hpush
    refine ⟨hsize' ▸ hsize, hsize' ▸ hfuel, ?_, s', hall, hbuilt'⟩
    intro e he
    rcases List.mem_append.mp he with he | he
    · exact hes e he
    · rw [List.mem_singleton.mp he]
      exact hvalid

end NetworkLabs.Dns
