import NetworkLabs.Proxy.Entitlement

/-! A greeting that comes in pieces, and what the proxy makes of it. -/
namespace NetworkLabs.Proxy

/-- The bytes that a round of `CS_INCOMING` reads. -/
def Round.bytes (round : Round) : List UInt8 :=
  if (round.1 .client).pollin then round.2.got else []

def arrived (rounds : List Round) : List UInt8 := rounds.flatMap Round.bytes

/-- The client is there, and a read returns something of what it sent. -/
def Round.Healthy (round : Round) : Prop :=
  (round.1 .client).pollhup = false ∧ ((round.1 .client).pollin = true → round.2.got ≠ [])

theorem Answers.got_le (ans : Answers) : ans.got.length ≤ bufferSize := by
  unfold Answers.got
  cases ans.read .client with
  | none => exact Nat.zero_le _
  | some bs => exact bs.property

theorem Round.bytes_le (round : Round) : round.bytes.length ≤ bufferSize := by
  unfold Round.bytes
  split
  · exact round.2.got_le
  · exact Nat.zero_le _

namespace Connection

/-- The rounds of `CS_INCOMING`, until there is a decision. -/
def negotiating (c : Connection) : List Round → Handled
  | [] => .ok (.stay c, [])
  | round :: rest => (c.incoming (round.1 .client) round.2).bind fun r =>
    match r.1 with
    | .stay c' =>
      if c'.status = .incoming then
        (c'.negotiating rest).map fun r' => (r'.1, r.2 ++ r'.2)
      else .ok r
    | .drop _ _ => .ok r

/-- What a connection comes to: its status, or nothing where it is dropped. -/
def Fate.verdict : Fate → Option Status
  | .stay c => some c.status
  | .drop _ _ => none

def verdict (c : Connection) (rounds : List Round) : Except Fault (Option Status) :=
  (c.negotiating rounds).map fun r => Fate.verdict r.1

/-- What the program makes of the bytes of a greeting, with the number of methods a `char`. -/
def judged : List UInt8 → Option Status
  | version :: n :: methods =>
    if char version ≠ 5 then none
    else if (methods.length : Int) ≥ char n then
      some (if 0 ∈ methods.take (char n).toNat then .authSuccess else .authFailure)
    else some .incoming
  | _ => some .incoming

/-- Nothing is decided before the whole greeting is there, and then by its methods. -/
structure Negotiates (c : Connection) (rounds : List Round) (methods : List UInt8) : Prop where
  waits : ∀ pre, pre <+: rounds → (arrived pre).length < 2 + methods.length →
    c.verdict pre = .ok (some .incoming)
  decides : c.verdict rounds =
    .ok (some (if 0 ∈ methods then .authSuccess else .authFailure))

/-- A connection that does not begin with the version 5 is dropped at its second byte. -/
def Refuses (c : Connection) (rounds : List Round) : Prop :=
  ∀ pre, pre <+: rounds → c.verdict pre =
    .ok (if (arrived pre).length < 2 then some .incoming else none)

variable {c : Connection} {round : Round} {rounds pre post : List Round} {bs : List UInt8}

theorem Holds.offersNoAuth_iff {version n : UInt8} {methods : List UInt8}
    (h : c.Holds (version :: n :: methods)) (hle : (methods.length : Int) ≥ char n) :
    c.offersNoAuth = true ↔ 0 ∈ methods.take (char n).toNat := by
  have hn : n = c.clientBuf 1 := Option.some.inj (h.buffer 1 (by simp))
  have hroom : 2 + (char n).toNat ≤ (version :: n :: methods).length := by
    simp only [List.length_cons]
    omega
  have hbytes := h.bytes_eq hroom
  rw [List.drop_succ_cons, List.drop_succ_cons, List.drop_zero] at hbytes
  rw [← hbytes, offersNoAuth, ← hn]
  simp [Buffer.bytes, Nat.add_comm 2]

/-- The greeting in the buffer is judged by its bytes. -/
theorem Holds.verdict_greeting (h : c.Holds bs) (hs : c.status = .incoming) :
    Fate.verdict c.greeting = judged bs ∧ (judged bs = some .incoming → c.greeting = .stay c) := by
  have hcount := h.count
  match bs with
  | [] =>
    have hlt : ¬ c.currBufClient ≥ 2 := by simp [hcount]
    simp only [greeting, if_neg hlt, judged, Fate.verdict, hs, and_self, implies_true]
  | [b] =>
    have hlt : ¬ c.currBufClient ≥ 2 := by simp [hcount]
    simp only [greeting, if_neg hlt, judged, Fate.verdict, hs, and_self, implies_true]
  | version :: n :: methods =>
    have hge : c.currBufClient ≥ 2 := by
      simp only [hcount, List.length_cons]
      omega
    have h0 : version = c.clientBuf 0 := Option.some.inj (h.buffer 0 (by simp))
    have h1 : n = c.clientBuf 1 := Option.some.inj (h.buffer 1 (by simp))
    have hiff : c.currBufClient ≥ 2 + char n ↔ (methods.length : Int) ≥ char n := by
      simp only [hcount, List.length_cons]
      omega
    simp only [greeting, if_pos hge, judged, ← h0, ← h1, hiff]
    split
    · simp [Fate.verdict]
    split
    · rename_i hle
      have hoffers := h.offersNoAuth_iff hle
      simp only [Fate.verdict, hoffers]
      refine ⟨trivial, fun hno => ?_⟩
      split at hno <;> cases hno
    · simp [Fate.verdict, hs]

theorem negotiating_append (hs : c.status = .incoming) (post : List Round) :
    c.negotiating (pre ++ post) = (c.negotiating pre).bind fun r =>
      match r.1 with
      | .stay c' =>
        if c'.status = .incoming then (c'.negotiating post).map fun r' => (r'.1, r.2 ++ r'.2)
        else .ok r
      | .drop _ _ => .ok r := by
  induction pre generalizing c with
  | nil =>
    simp only [List.nil_append, negotiating, Except.bind, if_pos hs]
    cases c.negotiating post <;> rfl
  | cons round pre ih =>
    simp only [List.cons_append, negotiating]
    cases c.incoming (round.1 .client) round.2 with
    | error e => rfl
    | ok r =>
      rcases r with ⟨c' | ⟨c', server⟩, es⟩
      · by_cases hs' : c'.status = .incoming
        · simp only [Except.bind, if_pos hs', ih hs']
          cases c'.negotiating pre with
          | error e => rfl
          | ok r' =>
            rcases r' with ⟨c'' | ⟨c'', server⟩, es'⟩
            · by_cases hs'' : c''.status = .incoming
              · simp only [Except.map, if_pos hs'']
                cases c''.negotiating post <;> simp
              · simp only [Except.map, if_neg hs'']
            · rfl
        · simp only [Except.bind, if_neg hs']
      · rfl

/-- The record is still in `CS_INCOMING`, and has collected some bytes. -/
structure Awaits (c : Connection) (bs : List UInt8) : Prop where
  holds : c.Holds bs
  status : c.status = .incoming

/-- A round ends as its bytes and those before them are judged. -/
theorem Awaits.incoming (h : c.Awaits bs) (hr : round.Healthy) (hw : judged bs = some .incoming)
    (hfits : bs.length + round.bytes.length ≤ bufferSize) :
    ∃ fate es, c.incoming (round.1 .client) round.2 = .ok (fate, es) ∧
      Fate.verdict fate = judged (bs ++ round.bytes) ∧
      (judged (bs ++ round.bytes) = some .incoming →
        ∃ c', fate = .stay c' ∧ c'.Awaits (bs ++ round.bytes)) := by
  obtain ⟨hhup, hgot⟩ := hr
  unfold Round.bytes at hfits ⊢
  unfold Connection.incoming
  rw [hhup]
  cases hin : (round.1 .client).pollin with
  | false =>
    refine ⟨.stay c, [], rfl, ?_, fun _ => ⟨c, rfl, ?_⟩⟩
    · simp [Fate.verdict, h.status, hw]
    · simpa using h
  | true =>
    have hne := hgot hin
    simp only [hin, if_true] at hfits
    have hread := readCount_of_ne hne
    have hpos : ¬ readCount (round.2.read .client) = 0 := by
      rw [hread]
      simpa using hne
    have hholds := h.holds.appended hne hfits
    obtain ⟨hverdict, hstay⟩ := hholds.verdict_greeting h.status
    simp only [Bool.false_eq_true, if_false, if_true, if_neg hpos,
      append_of_fits (h.holds.readFits hne hfits), Except.map]
    exact ⟨_, _, rfl, hverdict, fun hno => ⟨_, hstay hno, hholds, h.status⟩⟩

/-- Rounds after each of which there is no decision. -/
theorem Awaits.run (h : c.Awaits []) (hrounds : ∀ round ∈ rounds, round.Healthy)
    (hfits : (arrived rounds).length ≤ bufferSize)
    (hw : ∀ pre, pre <+: rounds → judged (arrived pre) = some .incoming) :
    ∃ c' es, c.negotiating rounds = .ok (.stay c', es) ∧ c'.Awaits (arrived rounds) := by
  induction rounds using List.reverseRecOn with
  | nil => exact ⟨c, [], rfl, h⟩
  | append_singleton rounds round ih =>
    have harrived : arrived (rounds ++ [round]) = arrived rounds ++ round.bytes := by
      simp [arrived]
    rw [harrived, List.length_append] at hfits
    obtain ⟨c', es, hrun, hc'⟩ := ih (fun r hr => hrounds r (List.mem_append_left _ hr)) (by omega)
      fun pre hpre => hw pre (hpre.trans (List.prefix_append _ _))
    obtain ⟨fate, es', hround, -, hstay⟩ := hc'.incoming (hrounds round (by simp))
      (hw rounds (List.prefix_append _ _)) hfits
    obtain ⟨c'', rfl, hc''⟩ := hstay (harrived ▸ hw _ List.prefix_rfl)
    rw [negotiating_append h.status, hrun, harrived]
    exact ⟨c'', es ++ (es' ++ []), by
      simp only [Except.bind, if_pos hc'.status, negotiating, hround, if_pos hc''.status]
      rfl, hc''⟩

theorem verdict_waits (h : c.Awaits []) (hrounds : ∀ round ∈ rounds, round.Healthy)
    (hfits : (arrived rounds).length ≤ bufferSize)
    (hw : ∀ pre, pre <+: rounds → judged (arrived pre) = some .incoming) :
    c.verdict rounds = .ok (some .incoming) := by
  obtain ⟨c', es, hrun, hc'⟩ := h.run hrounds hfits hw
  simp only [verdict, hrun, Except.map, Fate.verdict, hc'.status]

/-- The first round after which there is a decision ends the negotiation. -/
theorem verdict_decided (h : c.Awaits []) (hrounds : ∀ r ∈ pre ++ round :: post, r.Healthy)
    (hfits : (arrived pre).length + round.bytes.length ≤ bufferSize)
    (hw : ∀ pre', pre' <+: pre → judged (arrived pre') = some .incoming)
    (hd : judged (arrived pre ++ round.bytes) ≠ some .incoming) :
    c.verdict (pre ++ round :: post) = .ok (judged (arrived pre ++ round.bytes)) := by
  obtain ⟨c', es, hrun, hc'⟩ := h.run (fun r hr => hrounds r (List.mem_append_left _ hr)) (by omega)
    hw
  obtain ⟨fate, es', hround, hverdict, -⟩ := hc'.incoming (hrounds round (by simp))
    (hw pre List.prefix_rfl) hfits
  rw [verdict, negotiating_append h.status, hrun]
  simp only [Except.bind, if_pos hc'.status, negotiating, hround]
  rw [← hverdict] at hd ⊢
  cases fate with
  | drop _ _ => rfl
  | stay c'' =>
    have hne : ¬ c''.status = .incoming := fun hs => hd (by simp [Fate.verdict, hs])
    simp only [if_neg hne, Except.map]

/-- A read that does not fit into the buffer. -/
theorem verdict_overflow (h : c.Awaits []) (hrounds : ∀ r ∈ pre ++ round :: post, r.Healthy)
    (hpre : (arrived pre).length ≤ bufferSize)
    (hfits : ¬ (arrived pre).length + round.bytes.length ≤ bufferSize)
    (hw : ∀ pre', pre' <+: pre → judged (arrived pre') = some .incoming) :
    c.verdict (pre ++ round :: post) = .error .copy := by
  obtain ⟨c', es, hrun, hc'⟩ := h.run (fun r hr => hrounds r (List.mem_append_left _ hr)) hpre hw
  obtain ⟨hhup, hgot⟩ := hrounds round (by simp)
  have hin : (round.1 .client).pollin = true := by
    by_contra hno
    simp [Round.bytes, hno, hpre] at hfits
  have hne := hgot hin
  have hread := readCount_of_ne hne
  have hpos : ¬ readCount (round.2.read .client) = 0 := by
    rw [hread]
    simpa using hne
  have hnot : ¬ c'.ReadFits round.2 := by
    have hcount := hc'.holds.count
    simp only [Round.bytes, hin, if_true] at hfits
    rw [ReadFits, hread]
    omega
  have hround : c'.incoming (round.1 .client) round.2 = .error .copy := by
    simp only [Connection.incoming, hhup, hin, Bool.false_eq_true, if_false, if_true, if_neg hpos,
      append_of_not_fits hnot]
    rfl
  rw [verdict, negotiating_append h.status, hrun]
  simp only [Except.bind, if_pos hc'.status, negotiating, hround]
  rfl

theorem arrived_snoc (pre : List Round) (round : Round) :
    arrived (pre ++ [round]) = arrived pre ++ round.bytes := by
  simp [arrived]

theorem arrived_mono (h : pre <+: rounds) : arrived pre <+: arrived rounds := by
  obtain ⟨post, rfl⟩ := h
  exact ⟨arrived post, by simp [arrived]⟩

theorem fits_of_arrived (h : (arrived rounds).length ≤ bufferSize)
    (hpre : pre ++ [round] <+: rounds) :
    (arrived pre).length + round.bytes.length ≤ bufferSize := by
  have hle := (arrived_mono hpre).length_le
  rw [arrived_snoc, List.length_append] at hle
  omega

/-- Where nothing is decided before `k` bytes and the same behind them, it is decided so. -/
theorem verdict_crossing {k : Nat} {v : Option Status} (h : c.Awaits [])
    (hrounds : ∀ r ∈ rounds, r.Healthy) (hk : 0 < k) (hle : k ≤ (arrived rounds).length)
    (hw : ∀ pre, pre <+: rounds → (arrived pre).length < k → judged (arrived pre) = some .incoming)
    (hd : ∀ pre, pre <+: rounds → k ≤ (arrived pre).length → judged (arrived pre) = v)
    (hv : v ≠ some .incoming)
    (hfits : ∀ pre round, pre ++ [round] <+: rounds → (arrived pre).length < k →
      (arrived pre).length + round.bytes.length ≤ bufferSize) : c.verdict rounds = .ok v := by
  obtain ⟨pre, round, post, rfl, hlt, hle⟩ := exists_crossing Round.bytes k hk rounds hle
  have hsnoc : pre ++ [round] <+: pre ++ round :: post := ⟨post, by simp⟩
  have hjudged : judged (arrived pre ++ round.bytes) = v := by
    rw [← arrived_snoc]
    exact hd _ hsnoc hle
  have hwait : ∀ pre', pre' <+: pre → judged (arrived pre') = some .incoming := by
    intro pre' hpre'
    exact hw pre' (hpre'.trans (List.prefix_append _ _))
      ((arrived_mono hpre').length_le.trans_lt hlt)
  rw [verdict_decided h hrounds (hfits pre round hsnoc hlt) hwait (hjudged ▸ hv), hjudged]

theorem judged_of_short (h : bs.length < 2) : judged bs = some .incoming := by
  match bs with
  | [] | [_] => rfl
  | _ :: _ :: _ =>
    simp only [List.length_cons] at h
    omega

/-- What there is of a greeting once it has two bytes. -/
theorem prefix_of_greeting {version n : UInt8} {methods : List UInt8}
    (h : bs <+: version :: n :: methods) (h2 : 2 ≤ bs.length) :
    ∃ offered, bs = version :: n :: offered ∧ offered <+: methods := by
  match bs with
  | [] | [_] => simp at h2
  | _ :: _ :: offered =>
    obtain ⟨hversion, hrest⟩ := List.cons_prefix_cons.mp h
    obtain ⟨hn, hoffered⟩ := List.cons_prefix_cons.mp hrest
    exact ⟨offered, by rw [hversion, hn], hoffered⟩

section Greeting
variable {n : UInt8} {methods : List UInt8}

/-- A count that is a positive `char` is waited for. -/
theorem judged_of_less (h : bs <+: 5 :: n :: methods) (hlen : methods.length = n.toNat)
    (hn : n.toNat ≤ 127) (hlt : bs.length < 2 + methods.length) : judged bs = some .incoming := by
  by_cases h2 : 2 ≤ bs.length
  · obtain ⟨offered, rfl, -⟩ := prefix_of_greeting h h2
    have hchar : char n = n.toNat := (char_eq n).trans (if_pos hn)
    simp only [List.length_cons] at hlt
    have hnot : ¬ (offered.length : Int) ≥ char n := by omega
    simp only [judged, if_neg hnot]
    rfl
  · exact judged_of_short (Nat.not_le.mp h2)

theorem judged_of_whole (hlen : methods.length = n.toNat) (hn : n.toNat ≤ 127) :
    judged (5 :: n :: methods) = some (if 0 ∈ methods then .authSuccess else .authFailure) := by
  have hchar : char n = n.toNat := (char_eq n).trans (if_pos hn)
  have hge : (methods.length : Int) ≥ char n := by omega
  have htake : methods.take (char n).toNat = methods := List.take_of_length_le (by omega)
  simp only [judged, if_pos hge, htake]
  rfl

/-- A count that is a negative `char` is not waited for, and no method is looked at. -/
theorem judged_of_many (h : bs <+: 5 :: n :: methods) (hn : ¬ n.toNat ≤ 127) (h2 : 2 ≤ bs.length) :
    judged bs = some .authFailure := by
  obtain ⟨offered, rfl, -⟩ := prefix_of_greeting h h2
  have hlt := n.toNat_lt
  have hchar : char n = n.toNat - 256 := (char_eq n).trans (if_neg hn)
  have hge : (offered.length : Int) ≥ char n := by omega
  have hnone : (char n).toNat = 0 := by omega
  simp only [judged, if_pos hge, hnone, List.take_zero]
  rfl

theorem negotiates_of_few (h : c.Awaits []) (hrounds : ∀ round ∈ rounds, round.Healthy)
    (harrived : arrived rounds = 5 :: n :: methods) (hlen : methods.length = n.toNat)
    (hn : n.toNat ≤ 127) : c.Negotiates rounds methods := by
  have hsize : (arrived rounds).length = 2 + methods.length := by
    rw [harrived, List.length_cons, List.length_cons]
    omega
  have hwait : ∀ pre, pre <+: rounds → (arrived pre).length < 2 + methods.length →
      judged (arrived pre) = some .incoming :=
    fun pre hpre hlt => judged_of_less (harrived ▸ arrived_mono hpre) hlen hn hlt
  have hbuffer : 2 + methods.length ≤ bufferSize := by
    unfold bufferSize
    omega
  constructor
  · intro pre hpre hlt
    refine verdict_waits h (fun r hr => hrounds r (hpre.subset hr)) (by omega) ?_
    intro pre' hpre'
    have hle := (arrived_mono hpre').length_le
    exact hwait pre' (hpre'.trans hpre) (by omega)
  · have hjudged := judged_of_whole hlen hn
    refine verdict_crossing h hrounds (by omega) hsize.ge hwait ?_ (by split <;> simp)
      fun pre round hpre _ => fits_of_arrived (by omega) hpre
    intro pre hpre hle
    rw [(arrived_mono hpre).eq_of_length_le (hsize.trans_le hle), harrived]
    exact hjudged

/-- With a negative count the connection fails as soon as the count is there. -/
theorem verdict_of_many (h : c.Awaits []) (hrounds : ∀ round ∈ rounds, round.Healthy)
    (harrived : arrived rounds <+: 5 :: n :: methods) (hlen : methods.length ≤ 255)
    (hn : ¬ n.toNat ≤ 127) (h2 : 2 ≤ (arrived rounds).length) :
    c.verdict rounds = .ok (some .authFailure) := by
  have hsize := harrived.length_le
  simp only [List.length_cons] at hsize
  apply verdict_crossing h hrounds (by omega) h2
  · exact fun pre _ hlt => judged_of_short hlt
  · exact fun pre hpre hle => judged_of_many ((arrived_mono hpre).trans harrived) hn hle
  · simp
  · intro pre round hpre _
    apply fits_of_arrived _ hpre
    unfold bufferSize
    omega

theorem negotiates_iff (h : c.Awaits []) (hrounds : ∀ round ∈ rounds, round.Healthy)
    (harrived : arrived rounds = 5 :: n :: methods) (hlen : methods.length = n.toNat) :
    c.Negotiates rounds methods ↔ n.toNat ≤ 127 ∨ (0 ∉ methods ∧
      ∀ pre, pre <+: rounds → 2 ≤ (arrived pre).length → arrived pre = arrived rounds) := by
  by_cases hn : n.toNat ≤ 127
  · exact iff_of_true (negotiates_of_few h hrounds harrived hlen hn) (.inl hn)
  rw [or_iff_right hn]
  have hbyte := n.toNat_lt
  have hsize : (arrived rounds).length = 2 + methods.length := by
    rw [harrived, List.length_cons, List.length_cons]
    omega
  have hfails : ∀ pre, pre <+: rounds → 2 ≤ (arrived pre).length →
      c.verdict pre = .ok (some .authFailure) := fun pre hpre h2 =>
    verdict_of_many h (fun r hr => hrounds r (hpre.subset hr)) (harrived ▸ arrived_mono hpre)
      (by omega) hn h2
  have hwhole := hfails rounds List.prefix_rfl (by omega)
  constructor
  · rintro ⟨hwaits, hdecides⟩
    refine ⟨fun hmem => ?_, fun pre hpre h2 => ?_⟩
    · rw [hwhole, if_pos hmem] at hdecides
      cases hdecides
    · apply (arrived_mono hpre).eq_of_length_le
      by_contra hlt
      have hno := hwaits pre hpre (by omega)
      rw [hfails pre hpre h2] at hno
      cases hno
  · rintro ⟨hmem, hlast⟩
    refine ⟨fun pre hpre hlt => ?_, ?_⟩
    · have hshort : (arrived pre).length < 2 := by
        by_contra h2
        have heq := congrArg List.length (hlast pre hpre (by omega))
        omega
      refine verdict_waits h (fun r hr => hrounds r (hpre.subset hr)) ?_ fun pre' hpre' => ?_
      · unfold bufferSize
        omega
      · have hle := (arrived_mono hpre').length_le
        exact judged_of_short (by omega)
    · rw [hwhole, if_neg hmem]

end Greeting

/-- Another version is seen at the second byte. -/
theorem judged_of_version {b : UInt8} {rest : List UInt8} (h : bs <+: b :: rest) (hb : b ≠ 5)
    (h2 : 2 ≤ bs.length) : judged bs = none := by
  match bs with
  | [] | [_] => simp at h2
  | version :: n :: _ =>
    obtain ⟨hversion, -⟩ := List.cons_prefix_cons.mp h
    have hchar : char version ≠ 5 := by
      intro heq
      exact hb (hversion ▸ eq_of_char (n := 5) (by decide) heq)
    simp only [judged, if_pos hchar]

/-- Behind a single byte comes a read that fills a whole buffer. -/
def Overfills (rounds : List Round) : Prop :=
  ∃ pre round, pre ++ [round] <+: rounds ∧ (arrived pre).length = 1 ∧
    round.bytes.length = bufferSize

theorem refuses_iff {b : UInt8} {rest : List UInt8} (h : c.Awaits [])
    (hrounds : ∀ round ∈ rounds, round.Healthy) (harrived : arrived rounds = b :: rest)
    (hb : b ≠ 5) : c.Refuses rounds ↔ ¬ Overfills rounds := by
  have hshort : ∀ {pre : List Round}, (arrived pre).length < 2 →
      ∀ pre', pre' <+: pre → judged (arrived pre') = some .incoming := by
    intro pre hlt pre' hpre'
    have hle := (arrived_mono hpre').length_le
    exact judged_of_short (by omega)
  constructor
  · rintro hrefuses ⟨pre, round, hpre, h1, hfull⟩
    have hhealthy : ∀ r ∈ pre ++ round :: [], r.Healthy := fun r hr => hrounds r (hpre.subset hr)
    have hcopy := verdict_overflow h hhealthy
      (by simp [h1, bufferSize]) (by simp [h1, hfull]) (hshort (by omega))
    rw [hrefuses _ hpre] at hcopy
    cases hcopy
  · intro hnot pre hpre
    have hhealthy : ∀ r ∈ pre, r.Healthy := fun r hr => hrounds r (hpre.subset hr)
    by_cases h2 : (arrived pre).length < 2
    · rw [if_pos h2]
      refine verdict_waits h hhealthy ?_ (hshort h2)
      unfold bufferSize
      omega
    rw [if_neg h2]
    apply verdict_crossing h hhealthy (by omega) (Nat.not_lt.mp h2)
    · exact fun pre' _ hlt => judged_of_short hlt
    · intro pre' hpre' hle
      have hsome := arrived_mono (hpre'.trans hpre)
      rw [harrived] at hsome
      exact judged_of_version hsome hb hle
    · simp
    · intro pre' round hpre' hlt
      have hread := round.bytes_le
      by_contra hover
      exact hnot ⟨pre', round, hpre'.trans hpre, by omega, by omega⟩

/-- A greeting that comes in pieces is waited for and then decided by its methods, exactly if its
count is no negative `char`, or if it has no method 0 and comes at once but for its first byte.
Another version is refused at its second byte, unless the read of that byte overfills the
buffer. -/
theorem negotiation_iff (h : c.Awaits []) (hrounds : ∀ round ∈ rounds, round.Healthy) :
    (∀ n methods, arrived rounds = 5 :: n :: methods → methods.length = n.toNat →
      (c.Negotiates rounds methods ↔ n.toNat ≤ 127 ∨ (0 ∉ methods ∧
        ∀ pre, pre <+: rounds → 2 ≤ (arrived pre).length → arrived pre = arrived rounds))) ∧
    ∀ b rest, arrived rounds = b :: rest → b ≠ 5 → (c.Refuses rounds ↔ ¬ Overfills rounds) :=
  ⟨fun _ _ harrived hlen => negotiates_iff h hrounds harrived hlen,
    fun _ _ harrived hb => refuses_iff h hrounds harrived hb⟩

/-- The record that `accept` leaves. -/
def accepted : Connection := ⟨4, 0, .incoming, 0, 0, 1000, fun _ => 0, fun _ => 0, none⟩

theorem awaits_accepted : accepted.Awaits [] := ⟨⟨rfl, nofun⟩, rfl⟩

/-- The client has sent these bytes. -/
def sending (bytes : Chunk) : Round := (fun _ => ⟨true, false, false⟩, .reading bytes)

theorem healthy_sending {bytes : Chunk} (h : bytes.val ≠ []) : (sending bytes).Healthy :=
  ⟨rfl, fun _ => h⟩

theorem negotiates_in_two : accepted.Negotiates [sending ⟨[5], Chunk.version_fits⟩,
    sending ⟨[1, 0], by simp [bufferSize]⟩] [0] := by
  refine ((negotiation_iff awaits_accepted ?_).1 1 [0] rfl rfl).mpr (.inl (by decide))
  intro round hround
  rcases List.mem_pair.mp hround with rfl | rfl <;> exact healthy_sending (by simp)

/-- A greeting with 128 times the method 0. -/
def manyMethods : Round :=
  sending ⟨5 :: 128 :: List.replicate 128 0, by simp [bufferSize]⟩

theorem not_negotiates_manyMethods : ¬ ∀ c rounds n methods, Awaits c [] →
    (∀ round ∈ rounds, round.Healthy) → arrived rounds = 5 :: n :: methods →
      methods.length = n.toNat → c.Negotiates rounds methods := by
  intro hall
  have hhealthy : ∀ round ∈ [manyMethods], round.Healthy := by
    intro round hround
    rw [List.mem_singleton.mp hround]
    exact healthy_sending (by simp)
  have harrived : arrived [manyMethods] = 5 :: 128 :: List.replicate 128 0 := rfl
  have hlen : (List.replicate 128 (0 : UInt8)).length = (128 : UInt8).toNat := List.length_replicate
  have hmany := hall accepted [manyMethods] _ _ awaits_accepted hhealthy harrived hlen
  rcases (negotiates_iff awaits_accepted hhealthy harrived hlen).mp hmany with hfew | ⟨hzero, -⟩
  · exact absurd hfew (by decide)
  · exact hzero (by simp)

end Connection

end NetworkLabs.Proxy
