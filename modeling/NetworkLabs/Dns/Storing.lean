import NetworkLabs.Dns.Layout

/-! What `dns_p_push` stores: the record that was given, behind those that are there. -/
namespace NetworkLabs.Dns

open Chain BigEndian

variable {P P' P'' Q : Packet} {bs cs as front dn data : List UInt8} {nm : Name}
  {p q n v fuel room sec : Nat}

/-- `P'` is `P` with bytes behind it, and its slots point to names. -/
structure Appended (P P' : Packet) (bs : List UInt8) : Prop where
  data : P'.data = P.data ++ bs
  size : P'.size = P.size
  memo : P'.memo = P.memo
  kept : ∃ slots, Kept P' slots

theorem Appended.keeps (h : Appended P P' bs) : Keeps P.data P'.data := by
  rw [h.data]
  exact keeps_append _ _

theorem Appended.trans (h : Appended P P' bs) (h' : Appended P' P'' cs) :
    Appended P P'' (bs ++ cs) :=
  ⟨by rw [h'.data, h.data, List.append_assoc], h'.size.trans h.size, h'.memo.trans h.memo, h'.kept⟩

theorem appended_put (h : ∃ slots, Kept P slots) (hle : bs.length ≤ P.spare.length) :
    Appended P (P.put bs) bs := by
  obtain ⟨slots, hkept⟩ := h
  have hsize := size_put P hle
  exact ⟨rfl, hsize, rfl, slots, hkept.keep rfl hsize (keeps_append _ _) (by simp [Packet.put])⟩

theorem Appended.placed (h : Appended P P' bs) : Placed P'.data P.data.length bs := by
  rw [h.data]
  exact ⟨[], by simp⟩

theorem Appended.length (h : Appended P P' bs) : P'.data.length = P.data.length + bs.length := by
  rw [h.data, List.length_append]

namespace Domain

theorem push_spec (h : ∃ slots, Kept P slots) (hdn : nm.Given dn) (hfuel : P.size ≤ fuel)
    (hpush : push fuel P dn = some (none, P')) :
    ∃ bs, Appended P P' bs ∧ NameAt P'.data P.data.length nm bs := by
  obtain ⟨slots, hkept⟩ := h
  obtain ⟨e, P'', hpush', ⟨-, bs, hwritten⟩ | ⟨rfl, -⟩⟩ :=
    hkept.push rfl rfl (fun _ _ _ => rfl) hdn hfuel
  · cases hpush.symm.trans hpush'
    have hkeeps : Keeps P.data P'.data := hwritten.data ▸ keeps_append _ _
    have hplaced : Placed P'.data P.data.length bs := ⟨[], by rw [hwritten.data]; simp⟩
    have hlength : P.data.length ≤ P'.data.length := by simp [hwritten.data]
    obtain ⟨hkept', hspells⟩ := hwritten.settled hkeeps hlength hplaced rfl hwritten.size
    exact ⟨bs, ⟨hwritten.data, hwritten.size, hwritten.memo, hkept'⟩, hwritten.encoding,
      hplaced, hspells⟩
  · cases hpush.symm.trans hpush'

end Domain

theorem set_two (as : List UInt8) (x y u v : UInt8) (cs : List UInt8) :
    ((as ++ x :: y :: cs).set as.length u).set (as.length + 1) v = as ++ u :: v :: cs := by
  induction as with
  | nil => rfl
  | cons a as ih =>
    rw [List.cons_append, List.length_cons, List.set_cons_succ, List.set_cons_succ, ih]
    rfl

namespace Packet

theorem data_patch {x y : UInt8} (h : P.data = as ++ x :: y :: cs) :
    (P.patch as.length v).data = as ++ (encode 2 v ++ cs) := by
  have hset := set_two as x y (UInt8.ofNat (v / 256)) (UInt8.ofNat v) cs
  rw [← h] at hset
  exact hset

end Packet

namespace Any

/-- A host is stored behind its length and what stands before it. -/
theorem pushHost_spec (hP : ∃ slots, Kept P slots) (hdn : nm.Given dn) (hfuel : P.size ≤ fuel)
    (hroom : front.length + 2 ≤ room) (h : pushHost fuel P room front dn = some (none, P')) :
    ∃ bs, Appended P P' (encode 2 (front.length + bs.length) ++ (front ++ bs)) ∧
      NameAt P'.data (P.data.length + 2 + front.length) nm bs := by
  obtain ⟨slots, hkept⟩ := hP
  unfold pushHost at h
  split at h
  · cases h
  rename_i hspare
  obtain ⟨x, y, hxy⟩ : ∃ x y, P.spare.take 2 = [x, y] := by
    apply List.length_eq_two.mp
    rw [List.length_take]
    omega
  rw [hxy] at h
  have hle : ([x, y] ++ front).length ≤ P.spare.length := by
    rw [List.length_append, List.length_cons, List.length_singleton]
    omega
  have hsize := size_put P hle
  obtain ⟨e, Q', hpush, hcase⟩ :=
    hkept.push (P := P) (Q := P.put ([x, y] ++ front)) rfl hsize (keeps_append _ _) hdn hfuel
  rw [hpush, Option.map_some] at h
  rcases hcase with ⟨rfl, bs, hwritten⟩ | ⟨rfl, -⟩
  · cases h
    have hdata : Q'.data = P.data ++ x :: y :: (front ++ bs) := by
      rw [hwritten.data]
      simp [Packet.put]
    have hlen : Q'.data.length - P.data.length - 2 = front.length + bs.length := by
      rw [hdata]
      simp only [List.length_append, List.length_cons]
      omega
    rw [hlen]
    have hpatch := Packet.data_patch (v := front.length + bs.length) hdata
    have hplaced : Placed (P.data ++ (encode 2 (front.length + bs.length) ++ (front ++ bs)))
        (P.put ([x, y] ++ front)).data.length bs := by
      refine ⟨[], ?_⟩
      simp only [Packet.put, List.length_append, List.length_cons, List.length_nil]
      rw [← List.append_assoc, ← List.append_assoc, List.drop_left' (by simp)]
      simp
    rw [← hpatch] at hplaced
    have hkeeps : Keeps P.data (Q'.patch P.data.length (front.length + bs.length)).data := by
      rw [hpatch]
      exact keeps_append _ _
    have hsize' : (Q'.patch P.data.length (front.length + bs.length)).size = P.size := by
      rw [← hwritten.size]
      simp [Packet.size, Packet.patch]
    have hlength : P.data.length ≤
        (Q'.patch P.data.length (front.length + bs.length)).data.length := by simp [hpatch]
    obtain ⟨hkept', hspells⟩ := hwritten.settled hkeeps hlength hplaced rfl hsize'
    have hfront : P.data.length + 2 + front.length = (P.put ([x, y] ++ front)).data.length := by
      simp [Packet.put]
      omega
    rw [hfront]
    exact ⟨bs, ⟨hpatch, hsize', hwritten.memo, hkept'⟩, hwritten.encoding, hplaced, hspells⟩
  · cases h

theorem pushBytes_spec (hP : ∃ slots, Kept P slots) (h : pushBytes P bs = (none, P')) :
    Appended P P' (encode 2 bs.length ++ bs) := by
  unfold pushBytes at h
  split at h
  · cases h
  · cases h
    apply appended_put hP
    rw [List.length_append, length_encode]
    omega

theorem pushTexts_spec (hP : ∃ slots, Kept P slots) (h : pushTexts n P data = (none, P')) :
    Appended P P' (texts n data) := by
  induction n generalizing P data with
  | zero =>
    cases h
    exact ⟨(List.append_nil _).symm, rfl, rfl, hP⟩
  | succ n ih =>
    unfold pushTexts at h
    unfold texts
    split at h
    · rename_i hdata
      cases h
      rw [if_pos hdata]
      exact ⟨(List.append_nil _).symm, rfl, rfl, hP⟩
    rename_i hdata
    dsimp only at h
    split at h
    · cases h
    rename_i hspare
    split at h
    · cases h
    rename_i hroom
    have hpos := List.length_pos_iff.mpr hspare
    have hfirst : Appended P (P.put [UInt8.ofNat (min 255 data.length)])
        [UInt8.ofNat (min 255 data.length)] := appended_put hP hpos
    have hle : (data.take (min 255 data.length)).length ≤
        (P.put [UInt8.ofNat (min 255 data.length)]).spare.length := by
      rw [List.length_take]
      omega
    have hpiece := appended_put hfirst.kept hle
    have hrest := ih (hfirst.trans hpiece).kept h
    rw [← List.take_eq_take_min] at hpiece hrest
    rw [← List.drop_eq_drop_min] at hrest
    rw [if_neg hdata]
    exact (hfirst.trans hpiece).trans hrest

theorem length_texts (hn : data.length ≤ n) :
    (texts n data).length = data.length + (data.length + 254) / 255 := by
  induction n generalizing data with
  | zero =>
    obtain rfl := List.length_eq_zero_iff.mp (Nat.le_zero.mp hn)
    rfl
  | succ n ih =>
    unfold texts
    split
    · rename_i hdata
      rw [hdata]
      rfl
    · rename_i hdata
      have hpos := List.length_pos_iff.mpr hdata
      have hrest : (data.drop 255).length ≤ n := by
        rw [List.length_drop]
        omega
      rw [List.length_cons, List.length_append, ih hrest, List.length_take, List.length_drop]
      omega

theorem pushTxt_spec (hP : ∃ slots, Kept P slots) (h : pushTxt P data = (none, P')) :
    Appended P P' (encode 2 (texts data.length data).length ++ texts data.length data) := by
  unfold pushTxt at h
  split at h
  · cases h
  rename_i hroom
  dsimp only at h
  rw [← length_texts (Nat.le_refl data.length)] at h
  have hnumber : Appended P (P.put (encode 2 (texts data.length data).length))
      (encode 2 (texts data.length data).length) := by
    apply appended_put hP
    rw [length_encode]
    omega
  split at h
  · cases h
  · rename_i Q hpush
    cases h
    exact hnumber.trans (pushTexts_spec hnumber.kept hpush)

/-- The loops over a name come to an end, whether there is room for it or not. -/
theorem push_returns {c : Content} {any : Any} (hP : ∃ slots, Kept P slots)
    (hrel : Content.Rel Name.Given c any) (hfuel : P.size ≤ fuel) :
    ∃ o, any.push fuel P = some o := by
  have hhost (room : Nat) {front dn : List UInt8} {nm : Name} (hroom : front.length + 2 ≤ room)
      (hdn : nm.Given dn) : ∃ o, pushHost fuel P room front dn = some o := by
    obtain ⟨slots, hkept⟩ := hP
    unfold pushHost
    split
    · exact ⟨_, rfl⟩
    · have hle : (P.spare.take 2 ++ front).length ≤ P.spare.length := by
        rw [List.length_append, List.length_take]
        omega
      obtain ⟨e, Q, hpush, -⟩ := hkept.push (P := P) (Q := P.put (P.spare.take 2 ++ front)) rfl
        (size_put P hle) (keeps_append _ _) hdn hfuel
      rw [hpush]
      exact ⟨_, rfl⟩
  cases hrel with
  | mx preference hdn => exact hhost 5 (by simp) hdn
  | host hdn => exact hhost 3 (by simp) hdn
  | a addr => exact ⟨_, rfl⟩
  | aaaa addr => exact ⟨_, rfl⟩
  | txt data => exact ⟨_, rfl⟩
  | rdata data => exact ⟨_, rfl⟩

/-- The data of a record is stored behind its length. -/
theorem push_spec {c : Content} {any : Any} (hP : ∃ slots, Kept P slots)
    (hrel : Content.Rel Name.Given c any) (hfuel : P.size ≤ fuel)
    (h : any.push fuel P = some (none, P')) :
    ∃ body, Appended P P' (encode 2 body.length ++ body) ∧
      Holds P'.data (P.data.length + 2) body c := by
  cases hrel with
  | a addr => exact ⟨_, pushBytes_spec hP (Option.some.inj h), rfl⟩
  | aaaa addr => exact ⟨_, pushBytes_spec hP (Option.some.inj h), rfl⟩
  | mx preference hdn =>
    obtain ⟨bs, happended, hname⟩ := pushHost_spec hP hdn hfuel (by simp) h
    refine ⟨encode 2 preference.toNat ++ bs, ?_, bs, rfl, ?_⟩
    · rw [List.length_append]
      exact happended
    · rw [length_encode] at hname
      exact hname
  | host hdn =>
    obtain ⟨bs, happended, hname⟩ := pushHost_spec hP hdn hfuel (by simp) h
    rw [List.length_nil, Nat.zero_add, List.nil_append] at happended
    exact ⟨bs, happended, hname⟩
  | txt data => exact ⟨_, pushTxt_spec hP (Option.some.inj h), rfl⟩
  | rdata data => exact ⟨_, pushBytes_spec hP (Option.some.inj h), rfl⟩

end Any

namespace Packet

theorem of_undo {o : Outcome} (h : P.undo o = (none, P')) : o = (none, P') := by
  obtain ⟨e, Q⟩ := o
  cases e with
  | none => exact h
  | some e => cases h

theorem push_returns {e : Entry} {any : Any} (hP : ∃ slots, Kept P slots) (hfuel : P.size ≤ fuel)
    (hdn : e.name.Given dn) (hany : Content.Rel Name.Given e.content any) :
    ∃ o, P.push fuel e.sec dn e.type e.cls e.ttl any = some o := by
  obtain ⟨slots, hkept⟩ := id hP
  obtain ⟨err, P₁, hname, -⟩ := hkept.push rfl rfl (fun _ _ _ => rfl) hdn hfuel
  rw [push, hname, Option.bind_some]
  cases err with
  | some err => exact ⟨_, rfl⟩
  | none =>
    obtain ⟨bs, happended, -⟩ := Domain.push_spec hP hdn hfuel hname
    dsimp only
    split
    · exact ⟨_, rfl⟩
    rename_i hfour
    have hfields : Appended P₁ (P₁.put (encode 2 e.type ++ encode 2 e.cls))
        (encode 2 e.type ++ encode 2 e.cls) := by
      apply appended_put happended.kept
      rw [List.length_append, length_encode, length_encode]
      omega
    split
    · exact ⟨_, rfl⟩
    split
    · exact ⟨_, rfl⟩
    rename_i hsix
    have httl : Appended (P₁.put (encode 2 e.type ++ encode 2 e.cls))
        ((P₁.put (encode 2 e.type ++ encode 2 e.cls)).put (encode 4 e.storedTtl))
        (encode 4 e.storedTtl) := by
      apply appended_put hfields.kept
      rw [length_encode]
      omega
    have hsize := ((happended.trans hfields).trans httl).size
    obtain ⟨o, hbody⟩ := Any.push_returns httl.kept hany (hsize ▸ hfuel)
    exact ⟨_, congrArg (Option.map _) hbody⟩

/-- The record stands behind the others before it is counted. -/
theorem push_stands {e : Entry} {any : Any} (hP : ∃ slots, Kept P slots) (hfuel : P.size ≤ fuel)
    (hsize : P.size < 65536) (hdn : e.name.Given dn)
    (hany : e.sec ≠ qd → Content.Rel Name.Given e.content any)
    (hpush : P.push fuel e.sec dn e.type e.cls e.ttl any = some (none, P')) :
    ∃ Q bs ttl, Appended P Q bs ∧ Stands Q.data P.data.length e Q.data.length ∧
      Q.enter e.sec P.data.length e.type e.cls ttl = (none, P') := by
  unfold push at hpush
  cases hname : Domain.push fuel P dn with
  | none =>
    rw [hname] at hpush
    cases hpush
  | some o =>
    obtain ⟨err, P₁⟩ := o
    rw [hname, Option.bind_some] at hpush
    cases err with
    | some err => cases hpush
    | none =>
      obtain ⟨bs, happended, hat⟩ := Domain.push_spec hP hdn hfuel hname
      dsimp only at hpush
      split at hpush
      · cases hpush
      rename_i hfour
      have hfields : Appended P₁ (P₁.put (encode 2 e.type ++ encode 2 e.cls))
          (encode 2 e.type ++ encode 2 e.cls) := by
        apply appended_put happended.kept
        rw [List.length_append, length_encode, length_encode]
        omega
      generalize P₁.put (encode 2 e.type ++ encode 2 e.cls) = P₂ at hpush hfields
      have hboth := happended.trans hfields
      have hlen := hboth.length
      rw [List.length_append, List.length_append, length_encode, length_encode] at hlen
      split at hpush
      · rename_i hsec
        have henter := of_undo (Option.some.inj hpush)
        refine ⟨P₂, _, _, hboth, ⟨bs, ?_, ?_, ?_⟩, henter⟩
        · exact hat.keep P.header hfields.keeps
        · rw [← happended.length]
          exact hfields.placed
        · rw [if_pos hsec]
          omega
      · rename_i hsec
        split at hpush
        · cases hpush
        rename_i hsix
        have httl : Appended P₂ (P₂.put (encode 4 e.storedTtl)) (encode 4 e.storedTtl) := by
          apply appended_put hfields.kept
          rw [length_encode]
          omega
        have hstored : (if e.type = typeOpt then e.ttl else min e.ttl 0x7fffffff) = e.storedTtl :=
          rfl
        rw [hstored] at hpush
        generalize P₂.put (encode 4 e.storedTtl) = P₃ at hpush httl
        cases hbody : any.push fuel P₃ with
        | none =>
          rw [hbody] at hpush
          cases hpush
        | some o =>
          obtain ⟨err, P₄⟩ := o
          rw [hbody, Option.map_some] at hpush
          cases err with
          | some err => cases Option.some.inj hpush
          | none =>
            have henter := of_undo (Option.some.inj hpush)
            have hthree := hboth.trans httl
            have hfuel' : P₃.size ≤ fuel := hthree.size ▸ hfuel
            obtain ⟨body, hdata, hholds⟩ := Any.push_spec httl.kept (hany hsec) hfuel' hbody
            have hall := hthree.trans hdata
            have hlen₃ := httl.length
            have hlen₄ := hdata.length
            have hsize₄ := hall.size
            rw [length_encode] at hlen₃
            rw [List.length_append, length_encode] at hlen₄
            have hbound : P₄.data.length ≤ P₄.size := Nat.le_add_right _ _
            refine ⟨P₄, _, _, hall, ⟨bs, ?_, ?_, ?_⟩, henter⟩
            · exact hat.keep P.header ((hfields.trans httl).trans hdata).keeps
            · rw [← happended.length]
              exact (httl.trans hdata).keeps.placed P₁.header hfields.placed
            · rw [if_neg hsec]
              refine ⟨body, by omega, by omega, ?_, ?_⟩
              · have hplaced := (httl.trans hdata).placed
                rwa [show P₂.data.length = P.data.length + bs.length + 4 by omega] at hplaced
              · rwa [show P₃.data.length + 2 = P.data.length + bs.length + 10 by omega] at hholds

end Packet

end NetworkLabs.Dns
