import NetworkLabs.Finder.Presence

/-! Which datagrams are taken for messages: the buffer goes from one datagram to the next. -/
namespace NetworkLabs.Finder

open Transition

def Reception.payload : Reception → Option (List UInt8)
  | .datagram _ _ payload => some payload
  | .timedOut => none

/-- The payloads that came so far. -/
def payloads (xs : List Reception) : List (List UInt8) := xs.filterMap Reception.payload

/-- The last byte that came at a place, zero if none did. -/
def carried (ps : List (List UInt8)) (k : Nat) : UInt8 := (ps.filterMap fun p => p[k]?).getLastD 0

/-- A payload that is not the message and looks like it: one that goes on after it, or the first
bytes of it where the earlier payloads left the others. -/
def Mistaken (ps : List (List UInt8)) (payload message : List UInt8) : Prop :=
  payload ≠ message ∧ (message <+: payload ∨ (payload <+: message ∧
    ∀ k, payload.length ≤ k → k < 5 → message[k]? = some (carried ps k)))

namespace Work

/-- The program once it has received the payload. -/
def delivered (s : Work) (payload : List UInt8) : App :=
  { s.announce.app with buf := received s.announce.app.buf payload }

/-- The `switch` puts the sender into the table. -/
def Inserts (s : Work) (wait : Int) (source : String) (payload : List UInt8) : Prop :=
  ∃ known, (s.delivered payload).record source (s.now + wait) = some known ∧
    (source, s.now + wait) ∈ known.entries

/-- The `switch` takes the sender out of the table, if it is there. -/
def Removes (s : Work) (wait : Int) (source : String) (payload : List UInt8) : Prop :=
  ∃ known, (s.delivered payload).record source (s.now + wait) = some known ∧
    ∀ time, (source, time) ∉ known.entries

/-- The last reception is taken for what its payload is, if it is a datagram. -/
def Recognises (now : Int) (xs : List Reception) : Prop :=
  ∀ ys wait source payload s, xs = ys ++ [.datagram wait source payload] →
    lts.MTr (start now) ys s →
      (s.Inserts wait source payload ↔ payload = pingMessage) ∧
        (s.Removes wait source payload ↔ payload = exitMessage)

/-- The last reception is no datagram that is mistaken for a message. -/
def Unmistaken (xs : List Reception) : Prop :=
  ∀ ys wait source payload, xs = ys ++ [.datagram wait source payload] →
    ¬ Mistaken (payloads ys) payload pingMessage ∧ ¬ Mistaken (payloads ys) payload exitMessage

variable {s t : Work} {r : Reception} {xs ys : List Reception} {now : Int} {source : String}
  {buf payload message : List UInt8} {ps : List (List UInt8)}

theorem carried_concat (ps : List (List UInt8)) (p : List UInt8) (k : Nat) :
    carried (ps ++ [p]) k = (p[k]?).getD (carried ps k) := by
  unfold carried
  cases h : p[k]? with
  | none => simp [h]
  | some b => simp [h]

theorem getElem?_received (buf payload : List UInt8) {k : Nat} (hk : k < 5) :
    (received buf payload)[k]? = if k < payload.length then payload[k]? else buf[k]? := by
  rw [received, List.getElem?_append, List.length_take]
  by_cases hlt : k < payload.length
  · rw [if_pos (by omega), if_pos hlt, List.getElem?_take_of_lt hk]
  · have hplace : min payload.length 5 + (k - min 5 payload.length) = k := by omega
    rw [if_neg (by omega), if_neg hlt, List.getElem?_drop, hplace]

/-- What makes the buffer a message. -/
theorem received_eq_iff (h : buf.length = 5) (hm : message.length = 5) :
    received buf payload = message ↔ message <+: payload ∨ (payload <+: message ∧
      ∀ k, payload.length ≤ k → k < 5 → message[k]? = buf[k]?) := by
  by_cases hlength : 5 ≤ payload.length
  · rw [received_of_le h hlength, List.prefix_iff_eq_take, hm]
    constructor
    · intro heq
      exact .inl heq.symm
    · rintro (heq | ⟨hpre, -⟩)
      · exact heq.symm
      · have hle := hpre.length_le
        rw [hpre.eq_of_length (by omega), ← hm, List.take_length]
  · have hnot : ¬ message <+: payload := by
      intro hpre
      have hle := hpre.length_le
      omega
    rw [or_iff_right hnot]
    constructor
    · rintro rfl
      refine ⟨?_, fun k hk hk5 => ?_⟩
      · rw [received, List.take_of_length_le (by omega)]
        exact List.prefix_append _ _
      · rw [getElem?_received buf payload hk5, if_neg (by omega)]
    · rintro ⟨hpre, hrest⟩
      apply List.ext_getElem?
      intro k
      by_cases hk : k < 5
      · rw [getElem?_received buf payload hk]
        split
        · rename_i hlt
          exact (List.prefix_iff_getElem?.mp hpre k hlt ▸ List.getElem?_eq_getElem hlt)
        · exact (hrest k (by omega) hk).symm
      · have hleft := length_received payload h
        rw [List.getElem?_eq_none (by omega), List.getElem?_eq_none (by omega)]

/-- The buffer holds the last byte that came at each place. -/
structure Carries (s : Work) (ps : List (List UInt8)) : Prop where
  length : s.app.buf.length = 5
  bytes : ∀ k, k < 5 → s.app.buf[k]? = some (carried ps k)

theorem carries_start (now : Int) : (start now).Carries [] := by
  apply Carries.mk
  · rfl
  · intro k hk
    simp only [start, App.initial]
    rw [List.getElem?_replicate, if_pos hk]
    rfl

theorem carries_step (h : s.iterate r = .ok t) (hs : s.Carries ps) :
    t.Carries (ps ++ r.payload.toList) := by
  rcases iterate_cases h with ⟨rfl, rfl⟩ | ⟨wait, source, payload, app, lines, rfl, hparse, rfl⟩
  · rw [Reception.payload, Option.toList_none, List.append_nil]
    exact ⟨by simpa using hs.length, by simpa using hs.bytes⟩
  · have hbuf : app.buf = received s.app.buf payload := by
      simpa using (parseRecvPacket_buf hparse).1
    rw [Reception.payload, Option.toList_some]
    refine ⟨?_, fun k hk => ?_⟩
    · rw [hbuf]
      exact length_received payload hs.length
    · rw [hbuf, getElem?_received _ payload hk, carried_concat]
      split
      · rename_i hlt
        simp [hlt]
      · rename_i hle
        rw [hs.bytes k hk, List.getElem?_eq_none (by omega), Option.getD_none]

theorem carries_of_run (h : lts.MTr s xs t) (hs : s.Carries ps) :
    t.Carries (ps ++ payloads xs) := by
  induction h generalizing ps with
  | refl => simpa [payloads] using hs
  | @stepL s u t r xs hstep _ ih =>
    have hrest := ih (carries_step hstep.2 hs)
    have hpayloads : payloads (r :: xs) = r.payload.toList ++ payloads xs := by
      unfold payloads
      cases hr : r.payload with
      | none => simp [hr]
      | some payload => simp [hr]
    rw [hpayloads, ← List.append_assoc]
    exact hrest

theorem pingMessage_ne_exitMessage : pingMessage ≠ exitMessage := by decide

theorem inserts_iff (wait : Int) (source : String) :
    s.Inserts wait source payload ↔ received s.app.buf payload = pingMessage := by
  unfold Inserts App.record delivered
  rw [announce_buf]
  constructor
  · rintro ⟨known, hrecord, hmem⟩
    split at hrecord
    · assumption
    split at hrecord
    · cases hrecord
      exact absurd rfl (OrderedMap.mem_remove.mp hmem).2
    · cases hrecord
  · intro hping
    rw [if_pos hping]
    exact ⟨_, rfl, OrderedMap.mem_put.mpr (.inl rfl)⟩

theorem removes_iff (wait : Int) (source : String) :
    s.Removes wait source payload ↔ received s.app.buf payload = exitMessage := by
  unfold Removes App.record delivered
  rw [announce_buf]
  constructor
  · rintro ⟨known, hrecord, hnone⟩
    split at hrecord
    · cases hrecord
      exact absurd (OrderedMap.mem_put.mpr (.inl rfl)) (hnone (s.now + wait))
    split at hrecord
    · assumption
    · cases hrecord
  · intro hexit
    rw [if_neg (hexit ▸ pingMessage_ne_exitMessage.symm), if_pos hexit]
    refine ⟨_, rfl, fun time hmem => ?_⟩
    exact (OrderedMap.mem_remove.mp hmem).2 rfl

/-- A message is recognised; something else is not unless it is mistaken for it. -/
theorem Carries.recognised_iff (hs : s.Carries ps) (hm : message.length = 5) :
    (received s.app.buf payload = message ↔ payload = message) ↔ ¬ Mistaken ps payload message := by
  have hcarried : (∀ k, payload.length ≤ k → k < 5 → message[k]? = s.app.buf[k]?) ↔
      ∀ k, payload.length ≤ k → k < 5 → message[k]? = some (carried ps k) := by
    constructor
    · intro h k hk hk5
      rw [h k hk hk5, hs.bytes k hk5]
    · intro h k hk hk5
      rw [h k hk hk5, hs.bytes k hk5]
  have hself : payload = message → received s.app.buf payload = message := by
    rintro rfl
    exact (received_eq_iff hs.length hm).mpr (.inl List.prefix_rfl)
  rw [Mistaken, ← hcarried, ← received_eq_iff hs.length hm]
  constructor
  · rintro h ⟨hne, hreceived⟩
    exact hne (h.mp hreceived)
  · intro h
    refine ⟨fun hreceived => ?_, hself⟩
    by_contra hne
    exact h ⟨hne, hreceived⟩

theorem carries_of_start (h : lts.MTr (start now) xs s) : s.Carries (payloads xs) := by
  simpa using carries_of_run h (carries_start now)

theorem recognises_iff (h : lts.MTr (start now) ys s) (wait : Int) (source : String)
    (payload : List UInt8) :
    ((s.Inserts wait source payload ↔ payload = pingMessage) ∧
        (s.Removes wait source payload ↔ payload = exitMessage)) ↔
      ¬ Mistaken (payloads ys) payload pingMessage ∧
        ¬ Mistaken (payloads ys) payload exitMessage := by
  have hcarries := carries_of_start h
  rw [inserts_iff, removes_iff, hcarries.recognised_iff rfl, hcarries.recognised_iff rfl]

/-- In a run and at the datagram after it, every datagram is taken for what its payload is, if and
only if none is mistaken for a message. -/
theorem recognition_iff (h : lts.MTr (start now) xs s) (r : Reception) :
    Always (Recognises now) (xs ++ [r]) ↔ Always Unmistaken (xs ++ [r]) := by
  constructor
  · rintro hrecognises _ hpre ys wait source payload rfl
    have hys : ys <+: xs := by
      rcases List.prefix_concat_iff.mp hpre with heq | hpre
      · exact (List.append_inj_left' heq rfl) ▸ List.prefix_rfl
      · exact (List.prefix_append ys _).trans hpre
    obtain ⟨zs, rfl⟩ := hys
    obtain ⟨t, ht, -⟩ := h.split
    exact (recognises_iff ht wait source payload).mp
      (hrecognises _ hpre ys wait source payload t rfl ht)
  · rintro hunmistaken _ hpre ys wait source payload t rfl ht
    exact (recognises_iff ht wait source payload).mpr
      (hunmistaken _ hpre ys wait source payload rfl)

/-- A payload of five bytes replaces the whole buffer. -/
theorem not_mistaken_of_length (hp : payload.length = 5) (hm : message.length = 5) :
    ¬ Mistaken ps payload message := by
  rintro ⟨hne, hpre | ⟨hpre, -⟩⟩
  · exact hne (hpre.eq_of_length (hm.trans hp.symm)).symm
  · exact hne (hpre.eq_of_length (hp.trans hm.symm))

theorem unmistaken_of_length (h : ∀ payload ∈ payloads xs, payload.length = 5) :
    Always Unmistaken xs := by
  rintro _ ⟨zs, rfl⟩ ys wait source payload rfl
  have hp : payload.length = 5 := by
    apply h
    simp [payloads, Reception.payload]
  exact ⟨not_mistaken_of_length hp rfl, not_mistaken_of_length hp rfl⟩

/-- A program announces itself. -/
theorem mTr_announced : lts.MTr (start 0) [.datagram 100 "10.0.0.1" pingMessage]
    ⟨⟨OrderedMap.empty.put "10.0.0.1" 100, pingMessage, false⟩, 100, [0]⟩ :=
  .single ⟨⟨by decide, by decide⟩, rfl⟩

/-- It leaves again. -/
theorem recognition_leaving : Always (Recognises 0)
    ([.datagram 100 "10.0.0.1" pingMessage] ++ [.datagram 100 "10.0.0.1" exitMessage]) := by
  apply (recognition_iff mTr_announced (.datagram 100 "10.0.0.1" exitMessage)).mpr
  apply unmistaken_of_length
  decide

/-- An empty datagram from somewhere else finds the announcement in the buffer. -/
theorem not_recognition_empty : ¬ ∀ now xs s r, lts.MTr (start now) xs s →
    Always (Recognises now) (xs ++ [r]) := by
  intro hall
  have hrecognises := hall 0 _ _ (.datagram 100 "10.0.0.2" []) mTr_announced _ List.prefix_rfl
    _ 100 "10.0.0.2" [] _ rfl mTr_announced
  have hunmistaken := (recognises_iff mTr_announced 100 "10.0.0.2" []).mp hrecognises
  apply hunmistaken.1
  refine ⟨by decide, .inr ⟨List.nil_prefix, fun k _ hk => ?_⟩⟩
  revert k
  decide

end Work

end NetworkLabs.Finder
