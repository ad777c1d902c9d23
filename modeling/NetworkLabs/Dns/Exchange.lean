import Mathlib.Data.Set.Basic
import NetworkLabs.Dns.Socket
import NetworkLabs.Dns.Retrieval

/-! What `dns_so_check` lets through: an answer to the query that was asked, in one piece. -/
namespace NetworkLabs.Dns

open BigEndian

/-- How many states are still to come, with this one; from `idle` none is come to. -/
def SoState.left : SoState → Nat
  | .idle => 0
  | .udpInit => 10
  | .udpConn => 9
  | .udpSend => 8
  | .udpRecv => 7
  | .udpDone => 6
  | .tcpInit => 5
  | .tcpConn => 4
  | .tcpSend => 3
  | .tcpRecv => 2
  | .tcpDone => 1

namespace Socket

variable {so so' so₀ : Socket} {k k' : Kernel} {r : Option SoError} {e : SoError}
  {inbound bs total data : List UInt8} {heard heard' : Set (List UInt8)}
  {wire : List (Option UInt8)} {rs : List Reply} {fuel n base : Nat}

/-- What was asked, and what stays while `dns_so_check` goes on. -/
def question (so : Socket) : SoType × List UInt8 × List UInt8 × Nat × Nat × Nat × Packet :=
  (so.type, so.qid, so.qname, so.qlen, so.qtype, so.qclass, so.query)

theorem verify_congr (h : so'.question = so.question) :
    so'.verify fuel data = so.verify fuel data := by
  obtain ⟨-, hqid, hqname, hqlen, hqtype, hqclass, -⟩ := by
    simpa only [question, Prod.mk.injEq] using h
  unfold verify
  rw [hqid, hqname, hqlen, hqtype, hqclass]

theorem call_inbound (k : Kernel) : k.call.2.inbound = k.inbound := by
  unfold Kernel.call
  split <;> rfl

/-- What was read of the TCP connection, which has brought `total` and will bring `inbound`: a part
of the length, or the length and a part of the answer. -/
def Framed (so : Socket) (total inbound : List UInt8) : Prop :=
  (so.apos < 2 ∧ so.alen = 0 ∧ so.answer.length ≤ so.room ∧ so.front.length = so.apos ∧
      total = so.front ++ inbound) ∨
    (so.front.length = 2 ∧ so.apos = 2 + so.answer.length ∧ so.answer.length ≤ so.alen ∧
      so.alen ≤ so.room ∧ so.alen = decode so.front ∧ total = so.front ++ (so.answer ++ inbound))

theorem Framed.receive (h : so.Framed total (bs ++ inbound)) (hne : bs ≠ [])
    (hle : bs.length ≤ so.alen + 2 - so.apos) : (so.receive bs).Framed total inbound := by
  have hpos := List.length_pos_iff.mpr hne
  rcases h with ⟨hapos, halen, hroom, hfront, htotal⟩ |
    ⟨hfront, hapos, hanswer, hroom, halen, htotal⟩
  · have hdrop : bs.drop (2 - so.apos) = [] := List.drop_eq_nil_of_le (by omega)
    have htake : bs.take (2 - so.apos) = bs := List.take_of_length_le (by omega)
    have hlength : (so.front ++ bs).length = so.apos + bs.length := by
      rw [List.length_append, hfront]
    unfold Socket.receive
    dsimp only
    rw [htake]
    by_cases htwo : 2 ≤ so.apos + bs.length
    · rw [if_pos ⟨halen, htwo⟩]
      refine .inr ⟨?_, ?_, Nat.zero_le _, Nat.le_max_left _ _, rfl, ?_⟩
      · show (so.front ++ bs).length = 2
        omega
      · show so.apos + bs.length = 2 + 0
        omega
      · rw [htotal, ← List.append_assoc]
        rfl
    · rw [if_neg fun h => htwo h.2]
      refine .inl ⟨Nat.lt_of_not_le htwo, halen, ?_, hlength, by rw [htotal, ← List.append_assoc]⟩
      rw [hdrop, List.append_nil]
      exact hroom
  · have hzero : 2 - so.apos = 0 := by omega
    unfold Socket.receive
    dsimp only
    rw [hzero, List.take_zero, List.append_nil, List.drop_zero, if_neg fun h => by omega]
    refine .inr ⟨hfront, ?_, ?_, hroom, halen, ?_⟩
    · show so.apos + bs.length = 2 + (so.answer ++ bs).length
      rw [List.length_append]
      omega
    · show (so.answer ++ bs).length ≤ so.alen
      rw [List.length_append]
      omega
    · show total = so.front ++ ((so.answer ++ bs) ++ inbound)
      rw [htotal, List.append_assoc so.answer]

theorem receive_rest (so : Socket) (bs : List UInt8) :
    (so.receive bs).question = so.question ∧ (so.receive bs).state = so.state := by
  unfold Socket.receive
  dsimp only
  split <;> exact ⟨rfl, rfl⟩

/-- However the connection cuts its bytes, and however often the loop is left, what was read is the
beginning of what it brings, and a whole answer once the loop is done. -/
theorem recvLoop_framed (h : so.Framed total inbound)
    (hloop : recvLoop so inbound wire rs = (r, so', k')) :
    so'.Framed total k'.inbound ∧ so'.question = so.question ∧ so'.state = so.state ∧
      (r = none → so'.alen + 2 ≤ so'.apos) := by
  induction rs generalizing so inbound with
  | nil =>
    cases hloop
    refine ⟨h, rfl, rfl, fun hr => ?_⟩
    by_contra hlt
    rw [if_pos (by omega)] at hr
    cases hr
  | cons reply rs ih =>
    unfold recvLoop at hloop
    split at hloop
    · rename_i hlt
      split at hloop
      · cases hloop
        exact ⟨h, rfl, rfl, fun hr => by cases hr⟩
      · dsimp only at hloop
        split at hloop
        · cases hloop
          exact ⟨h, rfl, rfl, fun hr => by cases hr⟩
        · rename_i hne
          have hinbound := List.take_append_drop (min reply.count (so.alen + 2 - so.apos)) inbound
          rw [List.length_take, ← List.drop_eq_drop_min] at hloop
          rw [← hinbound] at h
          have hreceive := h.receive hne (by
            rw [List.length_take]
            omega)
          obtain ⟨hframed, hquestion, hstate, hdone⟩ := ih hreceive hloop
          obtain ⟨hquestion', hstate'⟩ := receive_rest so
            (inbound.take (min reply.count (so.alen + 2 - so.apos)))
          exact ⟨hframed, hquestion.trans hquestion', hstate.trans hstate', hdone⟩
    · rename_i hge
      cases hloop
      exact ⟨h, rfl, rfl, fun _ => Nat.le_of_not_lt hge⟩

theorem sendLoop_rest (hloop : sendLoop base so inbound wire rs = (r, so', k')) :
    so' = { so with qout := so'.qout } ∧ k'.inbound = inbound := by
  induction rs generalizing so wire with
  | nil =>
    cases hloop
    exact ⟨rfl, rfl⟩
  | cons reply rs ih =>
    unfold sendLoop at hloop
    split at hloop
    · split at hloop
      · cases hloop
        exact ⟨rfl, rfl⟩
      · obtain ⟨hso, hinbound⟩ := ih hloop
        exact ⟨hso, hinbound⟩
    · cases hloop
      exact ⟨rfl, rfl⟩

theorem sendLoop_replies (hloop : sendLoop base so inbound wire rs = (r, so', k')) :
    k'.replies <:+ rs ∧ (r = some .intr → k'.replies.length < rs.length) := by
  induction rs generalizing so wire with
  | nil =>
    cases hloop
    refine ⟨List.suffix_refl _, fun hr => ?_⟩
    split at hr <;> cases hr
  | cons reply rs ih =>
    unfold sendLoop at hloop
    split at hloop
    · split at hloop
      · cases hloop
        exact ⟨List.suffix_cons _ _, fun _ => Nat.lt_succ_self _⟩
      · obtain ⟨hsuffix, -⟩ := ih hloop
        exact ⟨hsuffix.trans (List.suffix_cons _ _),
          fun _ => Nat.lt_succ_of_le hsuffix.length_le⟩
    · cases hloop
      exact ⟨List.suffix_refl _, fun hr => by cases hr⟩

theorem recvLoop_replies (hloop : recvLoop so inbound wire rs = (r, so', k')) :
    k'.replies <:+ rs ∧ (r = some .intr → k'.replies.length < rs.length) := by
  induction rs generalizing so inbound with
  | nil =>
    cases hloop
    refine ⟨List.suffix_refl _, fun hr => ?_⟩
    split at hr <;> cases hr
  | cons reply rs ih =>
    unfold recvLoop at hloop
    split at hloop
    · split at hloop
      · cases hloop
        exact ⟨List.suffix_cons _ _, fun _ => Nat.lt_succ_self _⟩
      · dsimp only at hloop
        split at hloop
        · cases hloop
          exact ⟨List.suffix_cons _ _, fun hr => by cases hr⟩
        · obtain ⟨hsuffix, -⟩ := ih hloop
          exact ⟨hsuffix.trans (List.suffix_cons _ _),
            fun _ => Nat.lt_succ_of_le hsuffix.length_le⟩
    · cases hloop
      exact ⟨List.suffix_refl _, fun hr => by cases hr⟩

theorem Framed.fits (h : so.Framed total inbound) : so.answer.length ≤ so.room := by
  rcases h with ⟨-, -, hle, -⟩ | ⟨-, -, hle, hroom, -⟩
  · exact hle
  · exact hle.trans hroom

/-- The bytes read are the length of the answer and the answer. -/
theorem Framed.whole (h : so.Framed total inbound) (hdone : so.alen + 2 ≤ so.apos) :
    total = encode 2 so.answer.length ++ (so.answer ++ inbound) := by
  rcases h with ⟨hapos, -⟩ | ⟨hfront, hapos, hle, -, halen, htotal⟩
  · omega
  · have hlength : so.answer.length = decode so.front := by omega
    have hencode := encode_decode so.front
    rw [hfront, ← hlength] at hencode
    rw [hencode]
    exact htotal

theorem Framed.length_lt (h : so.Framed total inbound) (hdone : so.alen + 2 ≤ so.apos) :
    so.answer.length < 65536 := by
  rcases h with ⟨hapos, -⟩ | ⟨hfront, -, hle, -, halen, -⟩
  · omega
  · have hlt := decode_lt so.front
    rw [hfront] at hlt
    omega

/-- What `dns_so_verify` can come to: some test fails, the name has no end or cannot be read, or all
is as it was asked. -/
theorem verify_cases (so : Socket) (fuel : Nat) (data : List UInt8) :
    so.verify fuel data = some (some .unknown) ∨ header data = so.qid ∧ count data qd ≠ 0 ∧
      ∃ rr, Record.parse data 12 = .ok rr ∧ rr.type = so.qtype ∧ rr.cls = so.qclass ∧
        (Domain.expand fuel data rr.dn = none ∧ so.verify fuel data = none ∨
          so.verify fuel data = some (some .illegal) ∨
          ∃ t, Domain.expand fuel data rr.dn = some (.ok t) ∧ t.length ≤ maxName ∧
            t.length = so.qlen ∧ sameText so.qname t ∧ so.verify fuel data = some none) := by
  unfold verify
  split
  · exact .inl rfl
  rename_i hid
  split
  · exact .inl rfl
  rename_i hcount
  split
  · exact .inl rfl
  rename_i rr hparse
  split
  · exact .inl rfl
  rename_i hfields
  rw [not_or, Decidable.not_not, Decidable.not_not] at hfields
  have htests : header data = so.qid := (Decidable.not_not.mp hid).symm
  cases hname : Domain.expand fuel data rr.dn with
  | none => exact .inr ⟨htests, hcount, rr, hparse, hfields.1, hfields.2, .inl ⟨hname, rfl⟩⟩
  | some name =>
    cases name with
    | error e => exact .inr ⟨htests, hcount, rr, hparse, hfields.1, hfields.2, .inr (.inl rfl)⟩
    | ok t =>
      simp only [Option.map_some]
      split
      · exact .inl rfl
      rename_i hlength
      split
      · rename_i hsame
        exact .inr ⟨htests, hcount, rr, hparse, hfields.1, hfields.2,
          .inr (.inr ⟨t, hname, by omega, by omega, hsame, rfl⟩)⟩
      · exact .inl rfl

theorem verify_ne_intr (h : so.verify fuel data = some (some e)) : e ≠ .intr := by
  rintro rfl
  rcases verify_cases so fuel data with
      hv | ⟨-, -, rr, -, -, -, ⟨-, hv⟩ | hv | ⟨t, -, -, -, -, hv⟩⟩ <;>
    rw [h] at hv <;> cases hv

/-- This call of `dns_so_check` comes to a `recv` that gives it a datagram with these bytes. -/
inductive Hears (fuel : Nat) (data : List UInt8) : Socket → Kernel → Prop
  | recv {so : Socket} {k : Kernel} (hstate : so.state = .udpRecv)
      (herror : k.call.1.error = none) (hbytes : k.call.1.bytes = data) : Hears fuel data so k
  | later {so so' : Socket} {k k' : Kernel} (hgoes : ∀ rest, turn fuel rest so k = rest so' k')
      (h : Hears fuel data so' k') : Hears fuel data so k

/-- The answer is one of these datagrams, as far as its buffer takes it. -/
def Heard (so : Socket) (heard : Set (List UInt8)) : Prop :=
  ∃ data ∈ heard, so.answer = data.take so.room

/-- What holds between the turns of `dns_so_check`, of the datagrams that were heard so far. -/
structure Inv (fuel : Nat) (so₀ : Socket) (total : List UInt8) (heard : Set (List UInt8))
    (so : Socket) (inbound : List UInt8) : Prop where
  question : so.question = so₀.question
  verified : so.state = .udpDone →
    12 ≤ so.answer.length ∧ so.verify fuel so.answer = some none ∧ so.Heard heard
  framed : so.Framed total inbound
  unread : so.state ≠ .tcpRecv → so.state ≠ .tcpDone → so.apos = 0
  whole : so.state = .tcpDone → so.alen + 2 ≤ so.apos

theorem Inv.mono (h : Inv fuel so₀ total heard so inbound) (hsubset : heard ⊆ heard') :
    Inv fuel so₀ total heard' so inbound := by
  refine ⟨h.question, fun hs => ?_, h.framed, h.unread, h.whole⟩
  obtain ⟨hlong, hverify, data, hdata, heq⟩ := h.verified hs
  exact ⟨hlong, hverify, data, hsubset hdata, heq⟩

/-- The answer is one to what was asked: a datagram that is not cut off, unless there is to be no
TCP, or the whole next message of the TCP connection. -/
structure Accepts (fuel : Nat) (so₀ : Socket) (total : List UInt8) (heard : Set (List UInt8))
    (so : Socket) (inbound : List UInt8) : Prop where
  question : so.question = so₀.question
  verified : 12 ≤ so.answer.length ∧ so.verify fuel so.answer = some none
  fits : so.answer.length ≤ so.room
  whole : so.state = .udpDone ∧ (truncated so.answer = false ∨ so.type = .dgram) ∧ so.Heard heard ∨
    so.state = .tcpDone ∧ total = encode 2 so.answer.length ++ (so.answer ++ inbound)

/-- The invariant holds of what is left, and a success is an answer. -/
def Good (fuel : Nat) (so₀ : Socket) (total : List UInt8) (heard : Set (List UInt8))
    (o : Option Result) : Prop :=
  ∀ r so k, o = some (r, so, k) → Inv fuel so₀ total heard so k.inbound ∧
    (r = none → Accepts fuel so₀ total heard so k.inbound)

/-- To another state in which nothing is read of the connection. -/
theorem Inv.move (h : Inv fuel so₀ total heard so inbound) (hrecv : so.state ≠ .tcpRecv)
    (hdone : so.state ≠ .tcpDone) {next : SoState} (hudp : next ≠ .udpDone)
    (htcp : next ≠ .tcpDone) (tcp : Bool) :
    Inv fuel so₀ total heard { so with state := next, tcp := tcp } inbound :=
  ⟨h.question, fun hs => absurd hs hudp, h.framed, fun _ _ => h.unread hrecv hdone,
    fun hs => absurd hs htcp⟩

theorem call_cases (k : Kernel) : k.call = (⟨some .again, 0, []⟩, k) ∨
    ∃ r rs, k.replies = r :: rs ∧ k.call = (r, { k with replies := rs }) := by
  unfold Kernel.call
  split
  · exact .inl rfl
  · rename_i r rs heq
    exact .inr ⟨r, rs, heq, rfl⟩

theorem call_suffix (k : Kernel) : k.call.2.replies <:+ k.replies := by
  rcases call_cases k with hcall | ⟨r, rs, hreplies, hcall⟩
  · have hsame : k.call.2.replies = k.replies := congrArg (fun c => c.2.replies) hcall
    exact ⟨[], hsame⟩
  · rw [hcall, hreplies]
    exact List.suffix_cons r rs

/-- Unless the call would block, a reply is used up. -/
theorem call_uses (h : k.call.1.error ≠ some .again) :
    k.call.1 ∈ k.replies ∧ k.call.2.replies.length < k.replies.length := by
  rcases call_cases k with hcall | ⟨r, rs, hreplies, hcall⟩
  · rw [hcall] at h
    exact absurd rfl h
  · rw [hcall, hreplies]
    exact ⟨List.mem_cons_self, Nat.lt_succ_self _⟩

/-- From a turn of `dns_so_check` to the next one a reply is used up or a later state is come to,
and as long as a datagram may come its buffer stays. -/
structure Sooner (so' : Socket) (k' : Kernel) (so : Socket) (k : Kernel) : Prop where
  less : k'.replies.length + so'.state.left < k.replies.length + so.state.left
  replies : k'.replies <:+ k.replies
  room : SoState.udpRecv.left ≤ so'.state.left →
    SoState.udpRecv.left ≤ so.state.left ∧ so'.room = so.room

theorem Sooner.later (hreplies : k'.replies <:+ k.replies) (hless : so'.state.left < so.state.left)
    (hroom : SoState.udpRecv.left ≤ so'.state.left → so'.room = so.room) : Sooner so' k' so k := by
  have hlength := hreplies.length_le
  exact ⟨by omega, hreplies, fun h => ⟨by omega, hroom h⟩⟩

theorem Sooner.retry (hreplies : k'.replies <:+ k.replies)
    (huses : k'.replies.length < k.replies.length) (hstate : so'.state = so.state)
    (hroom : SoState.udpRecv.left ≤ so'.state.left → so'.room = so.room) : Sooner so' k' so k := by
  refine ⟨?_, hreplies, fun h => ⟨?_, hroom h⟩⟩
  · rw [hstate]
    omega
  · rw [← hstate]
    exact h

/-- The answers that can still come: datagrams, as far as the buffer takes them, and the next
message of the TCP connection. -/
def Comes (total : List UInt8) (so : Socket) (k : Kernel) (data : List UInt8) : Prop :=
  (SoState.udpRecv.left ≤ so.state.left ∧
      ∃ r ∈ k.replies, r.error = none ∧ data = r.bytes.take so.room) ∨
    data.length < 65536 ∧ ∃ rest, total = encode 2 data.length ++ (data ++ rest)

theorem Comes.sooner (h : Comes total so' k' data) (hsooner : Sooner so' k' so k) :
    Comes total so k data := by
  rcases h with ⟨hleft, r, hr, herror, hdata⟩ | h
  · obtain ⟨hleft', hroom⟩ := hsooner.room hleft
    rw [hroom] at hdata
    exact .inl ⟨hleft', r, hsooner.replies.subset hr, herror, hdata⟩
  · exact .inr h

/-- What one turn comes to, whatever `dns_so_check` does after it: another turn, a result, or an
answer that `dns_so_verify` does not get to the end of. -/
inductive Turn (fuel : Nat) (so₀ : Socket) (total : List UInt8) (heard : Set (List UInt8))
    (so : Socket) (k : Kernel) (f : Rest → Option Result) : Prop
  | goesOn (so' : Socket) (k' : Kernel) (h : Inv fuel so₀ total heard so' k'.inbound)
      (hsooner : Sooner so' k' so k) (heq : ∀ rest, f rest = rest so' k')
  | returns (r : Option SoError) (so' : Socket) (k' : Kernel)
      (h : Inv fuel so₀ total heard so' k'.inbound)
      (haccepts : r = none → Accepts fuel so₀ total heard so' k'.inbound)
      (heq : ∀ rest, f rest = some (r, so', k'))
  | stuck (data : List UInt8) (hcomes : Comes total so k data)
      (hverify : so₀.verify fuel data = none) (heq : ∀ rest, f rest = none)

theorem Turn.congr {f g : Rest → Option Result} (h : Turn fuel so₀ total heard so k f)
    (heq : ∀ rest, g rest = f rest) : Turn fuel so₀ total heard so k g := by
  obtain rfl : g = f := funext heq
  exact h

/-- On to a later state in which nothing is read of the connection. -/
theorem Turn.move {f : Rest → Option Result} (h : Inv fuel so₀ total heard so k'.inbound)
    (hrecv : so.state ≠ .tcpRecv) (hdone : so.state ≠ .tcpDone) (next : SoState)
    (hudp : next ≠ .udpDone) (htcp : next ≠ .tcpDone) (hless : next.left < so.state.left)
    (hreplies : k'.replies <:+ k.replies) (tcp : Bool)
    (heq : ∀ rest, f rest = rest { so with state := next, tcp := tcp } k') :
    Turn fuel so₀ total heard so k f :=
  .goesOn _ k' (h.move hrecv hdone hudp htcp tcp) (.later hreplies hless fun _ => rfl) heq

theorem fail_turn (h : Inv fuel so₀ total heard so' k'.inbound) (e : SoError)
    (hsooner : e = .intr → Sooner so' k' so k) :
    Turn fuel so₀ total heard so k fun rest => fail rest e so' k' := by
  by_cases he : e = .intr
  · exact .goesOn so' k' h (hsooner he) fun rest => if_pos he
  · exact .returns (some e.settled) so' k' h (fun hr => by cases hr) fun rest => if_neg he

/-- A call fails; the socket is as it was, but for what belongs to the connection. -/
theorem call_turn (herror : k.call.1.error = some e)
    (h : Inv fuel so₀ total heard so' k.call.2.inbound) (hstate : so'.state = so.state)
    (hroom : so'.room = so.room) :
    Turn fuel so₀ total heard so k fun rest => fail rest e so' k.call.2 := by
  refine fail_turn h e fun he => ?_
  have hagain : k.call.1.error ≠ some .again := by simp [herror, he]
  exact .retry (call_suffix k) (call_uses hagain).2 hstate fun _ => hroom

theorem step_turn (h : Inv fuel so₀ total heard so k.inbound) (hrecv : so.state ≠ .tcpRecv)
    (hdone : so.state ≠ .tcpDone) {next : SoState} (hudp : next ≠ .udpDone)
    (htcp : next ≠ .tcpDone) (hless : next.left < so.state.left) :
    Turn fuel so₀ total heard so k fun rest => step rest so k next := by
  rw [← call_inbound k] at h
  cases herror : k.call.1.error with
  | some e =>
    refine (call_turn herror h rfl rfl).congr fun rest => ?_
    rw [step, herror]
  | none =>
    refine .move h hrecv hdone next hudp htcp hless (call_suffix k) so.tcp fun rest => ?_
    rw [step, herror]

theorem udpRecv_turn (h : Inv fuel so₀ total heard so k.inbound) (hstate : so.state = .udpRecv)
    (hheard : k.call.1.error = none → k.call.1.bytes ∈ heard) :
    Turn fuel so₀ total heard so k fun rest => udpRecv fuel rest so k := by
  have hapos := h.unread (by simp [hstate]) (by simp [hstate])
  rw [← call_inbound k] at h
  cases herror : k.call.1.error with
  | some e =>
    refine (call_turn herror h rfl rfl).congr fun rest => ?_
    rw [udpRecv, herror]
  | none =>
    have hagain : k.call.1.error ≠ some .again := by simp [herror]
    obtain ⟨hmem, huses⟩ := call_uses hagain
    have hframed : Framed { so with answer := k.call.1.bytes.take so.room } total
        k.call.2.inbound := by
      rcases h.framed with ⟨hlt, hzero, -, hlength, htotal⟩ | ⟨-, hbad, -⟩
      · refine .inl ⟨hlt, hzero, ?_, hlength, htotal⟩
        rw [List.length_take]
        exact Nat.min_le_left _ _
      · omega
    have hinv : Inv fuel so₀ total heard { so with answer := k.call.1.bytes.take so.room }
        k.call.2.inbound :=
      ⟨h.question, fun hs => absurd (hstate.symm.trans hs) (by simp), hframed, h.unread, h.whole⟩
    have hretry : Sooner { so with answer := k.call.1.bytes.take so.room } k.call.2 so k :=
      .retry (call_suffix k) huses rfl fun _ => rfl
    by_cases hlong : (k.call.1.bytes.take so.room).length < 12
    · refine .goesOn _ _ hinv hretry fun rest => ?_
      simp only [udpRecv, herror, if_pos hlong]
    cases hverify : verify fuel { so with answer := k.call.1.bytes.take so.room }
        (k.call.1.bytes.take so.room) with
    | none =>
      have hleft : SoState.udpRecv.left ≤ so.state.left := by rw [hstate]
      refine .stuck _ (.inl ⟨hleft, _, hmem, herror, rfl⟩) ?_ fun rest => ?_
      · rw [← verify_congr hinv.question]
        exact hverify
      · simp only [udpRecv, herror, if_neg hlong, hverify, Option.bind_none]
    | some v =>
      cases v with
      | some e =>
        refine .goesOn _ _ hinv hretry fun rest => ?_
        simp only [udpRecv, herror, if_neg hlong, hverify, Option.bind_some]
      | none =>
        have hnext : Inv fuel so₀ total heard
            { so with answer := k.call.1.bytes.take so.room, state := .udpDone } k.call.2.inbound :=
          ⟨h.question, fun _ => ⟨Nat.le_of_not_lt hlong, hverify, _, hheard herror, rfl⟩, hframed,
            fun _ _ => hapos, fun hs => absurd hs (by simp)⟩
        refine .goesOn _ _ hnext (.later (call_suffix k) (by simp [hstate, SoState.left])
          fun _ => rfl) fun rest => ?_
        simp only [udpRecv, herror, if_neg hlong, hverify, Option.bind_some]

theorem udpDone_turn (h : Inv fuel so₀ total heard so k.inbound) (hstate : so.state = .udpDone) :
    Turn fuel so₀ total heard so k fun rest => udpDone rest so k := by
  by_cases hplain : truncated so.answer = false ∨ so.type = .dgram
  · obtain ⟨hlong, hverify, hheard⟩ := h.verified hstate
    exact .returns none so k h (fun _ => ⟨h.question, ⟨hlong, hverify⟩, h.framed.fits,
      .inl ⟨hstate, hplain, hheard⟩⟩) fun rest => if_pos hplain
  · have hless : SoState.tcpInit.left < so.state.left := by simp [hstate, SoState.left]
    exact .move h (by simp [hstate]) (by simp [hstate]) .tcpInit (by simp) (by simp) hless
      (List.suffix_refl _) so.tcp fun rest => if_neg hplain

theorem tcpInit_turn (h : Inv fuel so₀ total heard so k.inbound) (hstate : so.state = .tcpInit) :
    Turn fuel so₀ total heard so k fun rest => tcpInit rest so k := by
  have hrecv : so.state ≠ .tcpRecv := by simp [hstate]
  have hdone : so.state ≠ .tcpDone := by simp [hstate]
  by_cases hkeep : so.tcp ∧ k.call.1.error = none
  · have hless : SoState.tcpSend.left < so.state.left := by simp [hstate, SoState.left]
    rw [← call_inbound k] at h
    exact .move h hrecv hdone .tcpSend (by simp) (by simp) hless (call_suffix k) so.tcp
      fun rest => if_pos hkeep
  obtain ⟨k₁, hk₁, hinbound, hsuffix⟩ : ∃ k₁, (if so.tcp then k.call.2 else k) = k₁ ∧
      k₁.inbound = k.inbound ∧ k₁.replies <:+ k.replies := by
    split
    · exact ⟨_, rfl, call_inbound k, call_suffix k⟩
    · exact ⟨_, rfl, rfl, List.suffix_refl _⟩
  rw [← hinbound, ← call_inbound k₁] at h
  have hreplies := (call_suffix k₁).trans hsuffix
  cases herror : k₁.call.1.error with
  | some e =>
    have hudp : so.state ≠ .udpDone := by simp [hstate]
    have hinv : Inv fuel so₀ total heard { so with tcp := false } k₁.call.2.inbound :=
      h.move hrecv hdone hudp hdone false
    refine (fail_turn hinv e fun he => ?_).congr fun rest => ?_
    · have huses := (call_uses (by simp [herror, he] : k₁.call.1.error ≠ some .again)).2
      exact .retry hreplies (Nat.lt_of_lt_of_le huses hsuffix.length_le) rfl fun _ => rfl
    · simp only [tcpInit, if_neg hkeep, hk₁, herror]
  | none =>
    have hless : SoState.tcpConn.left < so.state.left := by simp [hstate, SoState.left]
    refine .move h hrecv hdone .tcpConn (by simp) (by simp) hless hreplies true fun rest => ?_
    simp only [tcpInit, if_neg hkeep, hk₁, herror]

theorem tcpConn_turn (h : Inv fuel so₀ total heard so k.inbound) (hstate : so.state = .tcpConn) :
    Turn fuel so₀ total heard so k fun rest => tcpConn rest so k := by
  have hrecv : so.state ≠ .tcpRecv := by simp [hstate]
  have hdone : so.state ≠ .tcpDone := by simp [hstate]
  have hless : SoState.tcpSend.left < so.state.left := by simp [hstate, SoState.left]
  by_cases hconn : k.call.1.error = some .isConn
  · rw [← call_inbound k] at h
    exact .move h hrecv hdone .tcpSend (by simp) (by simp) hless (call_suffix k) so.tcp
      fun rest => if_pos hconn
  · exact (step_turn h hrecv hdone (by simp) (by simp) hless).congr fun rest => if_neg hconn

theorem tcpDone_turn (h : Inv fuel so₀ total heard so k.inbound) (hstate : so.state = .tcpDone) :
    Turn fuel so₀ total heard so k fun rest => tcpDone fuel rest so k := by
  obtain ⟨so₁, hso₁, hinv, hstate₁⟩ : ∃ so₁,
      (if so.type = .stream then so else { so with tcp := false }) = so₁ ∧
        Inv fuel so₀ total heard so₁ k.inbound ∧ so₁.state = .tcpDone := by
    split
    · exact ⟨so, rfl, h, hstate⟩
    · exact ⟨_, rfl, ⟨h.question, h.verified, h.framed, h.unread, h.whole⟩, hstate⟩
  by_cases hlong : so₁.answer.length < 12
  · refine .returns (some .illegal) so₁ k hinv (fun hr => by cases hr) fun rest => ?_
    simp only [tcpDone, hso₁, if_pos hlong]
  have htotal := hinv.framed.whole (hinv.whole hstate₁)
  cases hverify : so₁.verify fuel so₁.answer with
  | none =>
    refine .stuck so₁.answer (.inr ⟨hinv.framed.length_lt (hinv.whole hstate₁), _, htotal⟩) ?_
      fun rest => ?_
    · rw [← verify_congr hinv.question]
      exact hverify
    · simp only [tcpDone, hso₁, if_neg hlong, hverify, Option.bind_none]
  | some v =>
    cases v with
    | some e =>
      have hne : e ≠ .intr := verify_ne_intr hverify
      refine (fail_turn hinv e fun he => absurd he hne).congr fun rest => ?_
      simp only [tcpDone, hso₁, if_neg hlong, hverify, Option.bind_some]
    | none =>
      refine .returns none so₁ k hinv (fun _ => ⟨hinv.question, ⟨Nat.le_of_not_lt hlong, hverify⟩,
        hinv.framed.fits, .inr ⟨hstate₁, htotal⟩⟩) fun rest => ?_
      simp only [tcpDone, hso₁, if_neg hlong, hverify, Option.bind_some]

theorem tcpSend_spec {so₁ : Socket} {k₁ : Kernel} (h : Inv fuel so₀ total heard so k.inbound)
    (hsend : so.tcpSend k = (r, so₁, k₁)) : Inv fuel so₀ total heard so₁ k₁.inbound ∧
      so₁.state = so.state ∧ so₁.room = so.room := by
  obtain ⟨hso, hinbound⟩ := sendLoop_rest hsend
  rw [hso, hinbound]
  exact ⟨⟨h.question, h.verified, h.framed, h.unread, h.whole⟩, rfl, rfl⟩

/-- What was read of the connection is kept, and once it is a whole answer the state can be left. -/
theorem tcpRecv_spec {so₁ : Socket} {k₁ : Kernel} (h : Inv fuel so₀ total heard so k.inbound)
    (hstate : so.state = .tcpRecv) (hrecv : so.tcpRecv k = (r, so₁, k₁)) :
    so₁.state = .tcpRecv ∧ Inv fuel so₀ total heard so₁ k₁.inbound ∧
      (r = none → Inv fuel so₀ total heard { so₁ with state := .tcpDone } k₁.inbound) := by
  obtain ⟨hframed, hquestion, hstate₁, hdone⟩ := recvLoop_framed h.framed hrecv
  rw [hstate] at hstate₁
  refine ⟨hstate₁, ⟨hquestion.trans h.question, fun hs => ?_, hframed,
    fun hs => absurd hstate₁ hs, fun hs => ?_⟩, fun hr => ⟨hquestion.trans h.question,
    fun hs => absurd hs (by simp), hframed, fun _ hs => absurd rfl hs, fun _ => hdone hr⟩⟩
  · cases hstate₁.symm.trans hs
  · cases hstate₁.symm.trans hs

theorem turn_cases (h : Inv fuel so₀ total heard so k.inbound)
    (hheard : ∀ data, Hears fuel data so k → data ∈ heard) :
    Turn fuel so₀ total heard so k fun rest => turn fuel rest so k := by
  unfold turn
  cases hstate : so.state with
  | idle => exact fail_turn h .unknown fun he => absurd he (by simp)
  | udpInit =>
    have hless : SoState.udpConn.left < so.state.left := by simp [hstate, SoState.left]
    exact .move h (by simp [hstate]) (by simp [hstate]) .udpConn (by simp) (by simp) hless
      (List.suffix_refl _) so.tcp fun rest => rfl
  | udpConn =>
    have hless : SoState.udpSend.left < so.state.left := by simp [hstate, SoState.left]
    exact step_turn h (by simp [hstate]) (by simp [hstate]) (by simp) (by simp) hless
  | udpSend =>
    have hless : SoState.udpRecv.left < so.state.left := by simp [hstate, SoState.left]
    exact step_turn h (by simp [hstate]) (by simp [hstate]) (by simp) (by simp) hless
  | udpRecv => exact udpRecv_turn h hstate fun herror => hheard _ (.recv hstate herror rfl)
  | udpDone => exact udpDone_turn h hstate
  | tcpInit => exact tcpInit_turn h hstate
  | tcpConn => exact tcpConn_turn h hstate
  | tcpDone => exact tcpDone_turn h hstate
  | tcpSend =>
    cases hsend : so.tcpSend k with
    | mk r p =>
      obtain ⟨so₁, k₁⟩ := p
      obtain ⟨hinv, hstate₁, hroom⟩ := tcpSend_spec h hsend
      obtain ⟨hreplies, hintr⟩ := sendLoop_replies hsend
      cases r with
      | some e =>
        exact fail_turn hinv e fun he =>
          .retry hreplies (hintr (by rw [he])) hstate₁ fun _ => hroom
      | none =>
        rw [hstate] at hstate₁
        have hnext : Inv fuel so₀ total heard { so₁ with state := .tcpRecv } k₁.inbound :=
          hinv.move (by simp [hstate₁]) (by simp [hstate₁]) (by simp) (by simp) so₁.tcp
        exact .goesOn _ _ hnext (.later hreplies (by simp [hstate, SoState.left])
          fun _ => hroom) fun rest => rfl
  | tcpRecv =>
    cases hrecv : so.tcpRecv k with
    | mk r p =>
      obtain ⟨so₁, k₁⟩ := p
      obtain ⟨hstate₁, hinv, hnext⟩ := tcpRecv_spec h hstate hrecv
      obtain ⟨hreplies, hintr⟩ := recvLoop_replies hrecv
      cases r with
      | some e =>
        refine fail_turn hinv e fun he =>
          .retry hreplies (hintr (by rw [he])) (hstate₁.trans hstate.symm) fun hleft => ?_
        rw [hstate₁] at hleft
        exact absurd hleft (by decide)
      | none =>
        exact .goesOn _ _ (hnext rfl) (.later hreplies (by simp [hstate, SoState.left])
          fun hleft => absurd hleft (by simp [SoState.left])) fun rest => rfl

/-- The invariant is kept from turn to turn. -/
theorem check_good (n : Nat) (h : Inv fuel so₀ total heard so k.inbound)
    (hheard : ∀ data, Hears fuel data so k → data ∈ heard) :
    Good fuel so₀ total heard (check fuel n so k) := by
  induction n generalizing so k with
  | zero =>
    intro r so' k' heq
    cases heq
  | succ n ih =>
    rw [check]
    cases turn_cases h hheard with
    | goesOn so' k' h' _ heq =>
      rw [heq]
      exact ih h' fun data hdata => hheard data (.later heq hdata)
    | returns r so' k' h' haccepts heq =>
      rw [heq]
      intro r₁ so₁ k₁ hresult
      cases hresult
      exact ⟨h', haccepts⟩
    | stuck _ _ _ heq =>
      rw [heq]
      intro r so' k' hresult
      cases hresult

/-- Within as many turns as there are replies and states, `dns_so_check` returns or is given what
`dns_so_verify` does not get to the end of. -/
theorem check_within (h : Inv fuel so₀ total heard so k.inbound)
    (hn : k.replies.length + so.state.left < n) : (check fuel n so k).isSome ∨
      ∃ data, Comes total so k data ∧ so₀.verify fuel data = none := by
  replace h := h.mono (Set.subset_univ heard)
  induction n generalizing so k with
  | zero => omega
  | succ n ih =>
    rw [check]
    cases turn_cases h fun data _ => Set.mem_univ data with
    | goesOn so' k' h' hsooner heq =>
      have hless := hsooner.less
      rw [heq]
      rcases ih (by omega) h' with hsome | ⟨data, hcomes, hverify⟩
      · exact .inl hsome
      · exact .inr ⟨data, hcomes.sooner hsooner, hverify⟩
    | returns r so' k' _ _ heq =>
      rw [heq]
      exact .inl rfl
    | stuck data hcomes hverify _ => exact .inr ⟨data, hcomes, hverify⟩

/-- Calls of `dns_so_check`, whatever they return; `inbound` is what the TCP connection still brings
behind what they read, `heard` are the datagrams they were given. -/
inductive Calls (fuel : Nat) (so₀ : Socket) (total : List UInt8) :
    Set (List UInt8) → Socket → List UInt8 → Prop
  | submitted : Calls fuel so₀ total ∅ so₀ total
  | call {heard : Set (List UInt8)} {so so' : Socket} {k k' : Kernel} {r : Option SoError} {n : Nat}
      (h : Calls fuel so₀ total heard so k.inbound)
      (hcheck : check fuel n so k = some (r, so', k')) :
      Calls fuel so₀ total (heard ∪ {data | Hears fuel data so k}) so' k'.inbound

theorem call_good (h : Inv fuel so₀ total heard so k.inbound)
    (hcheck : check fuel n so k = some (r, so', k')) :
    Inv fuel so₀ total (heard ∪ {data | Hears fuel data so k}) so' k'.inbound ∧
      (r = none → Accepts fuel so₀ total (heard ∪ {data | Hears fuel data so k}) so' k'.inbound) :=
  check_good n (h.mono Set.subset_union_left) (fun _ hdata => .inr hdata) _ _ _ hcheck

theorem Calls.inv (h : Calls fuel so₀ total heard so inbound)
    (hinit : Inv fuel so₀ total ∅ so₀ total) : Inv fuel so₀ total heard so inbound := by
  induction h with
  | submitted => exact hinit
  | call _ hcheck ih => exact (call_good ih hcheck).1

/-- The packet answers the question: it has its id, and a question of the same type and class and
with the same name, as `strcasecmp` compares the texts of the two up to their first NUL. -/
structure Answers (fuel : Nat) (id question answer : List UInt8) : Prop where
  length : 12 ≤ answer.length
  id : header answer = id
  counted : count answer qd ≠ 0
  question : ∃ r r' t t', Record.parse question 12 = .ok r ∧ Record.parse answer 12 = .ok r' ∧
    r'.type = r.type ∧ r'.cls = r.cls ∧ Domain.expand fuel question r.dn = some (.ok t) ∧
    Domain.expand fuel answer r'.dn = some (.ok t') ∧ t.length ≤ maxName ∧
    t'.length = t.length ∧ sameText t t'

theorem verify_spec (h : so.verify fuel data = some none) : header data = so.qid ∧
    count data qd ≠ 0 ∧ ∃ r t, Record.parse data 12 = .ok r ∧ r.type = so.qtype ∧
      r.cls = so.qclass ∧ Domain.expand fuel data r.dn = some (.ok t) ∧ t.length ≤ maxName ∧
      t.length = so.qlen ∧ sameText so.qname t := by
  rcases verify_cases so fuel data with hv | ⟨hid, hcount, r, hparse, htype, hcls, hname⟩
  · rw [h] at hv
    cases hv
  · rcases hname with ⟨-, hv⟩ | hv | ⟨t, hname, hmax, hlength, hsame, -⟩
    · rw [h] at hv
      cases hv
    · rw [h] at hv
      cases hv
    · exact ⟨hid, hcount, r, t, hparse, htype, hcls, hname, hmax, hlength, hsame⟩

theorem submit_spec {Q : Packet} (h : submit fuel so Q = some (none, so₀)) :
    Inv fuel so₀ total ∅ so₀ total ∧ so₀.qid = header so₀.query.data ∧
      so₀.query.data.drop 2 = Q.data.drop 2 ∧ ∃ r t, Record.parse Q.data 12 = .ok r ∧
        so₀.qtype = r.type ∧ so₀.qclass = r.cls ∧ Domain.expand fuel Q.data r.dn = some (.ok t) ∧
        so₀.qlen = t.length ∧ so₀.qname = t.take maxName := by
  unfold submit at h
  split at h
  · cases h
  rename_i r hr
  obtain ⟨name, hname, h⟩ := Option.bind_eq_some_iff.mp h
  cases name with
  | error e => cases h
  | ok t =>
    obtain ⟨⟨Q', qids⟩, hidentify, h⟩ := Option.map_eq_some_iff.mp h
    have hdrop : Q'.data.drop 2 = Q.data.drop 2 := by
      unfold identify at hidentify
      split at hidentify
      · obtain ⟨⟨m, qids'⟩, -, hQ⟩ := Option.map_eq_some_iff.mp hidentify
        cases hQ
        rfl
      · cases hidentify
        rfl
    have hstart (type : SoType) :
        (if type = .stream then SoState.tcpInit else .udpInit) ≠ .udpDone ∧
        (if type = .stream then SoState.tcpInit else .udpInit) ≠ .tcpDone := by
      cases type <;> decide
    cases h
    exact ⟨⟨rfl, fun hs => absurd hs (hstart _).1,
      .inl ⟨Nat.zero_lt_two, rfl, Nat.zero_le _, rfl, rfl⟩, fun _ _ => rfl,
      fun hs => absurd hs (hstart _).2⟩, rfl, hdrop, r, t, hr, rfl, rfl, hname, rfl, rfl⟩

/-- Whatever the system replies and however often `dns_so_check` is called, what it takes in the end
is an answer to the query: one datagram that a `recv` of these calls gave it, or the next message of
the TCP connection and no byte more. -/
theorem Calls.accepts {Q : Packet} {old : Socket} (hsubmit : submit fuel old Q = some (none, so₀))
    (hcalls : Calls fuel so₀ total heard so' k'.inbound)
    (hcheck : check fuel n so' k' = some (none, so, k)) :
    so.query = so₀.query ∧ so.query.data.drop 2 = Q.data.drop 2 ∧
      Answers fuel (header so.query.data) Q.data so.answer ∧ so.answer.length ≤ so.room ∧
      (so.state = .udpDone ∧ (truncated so.answer = false ∨ so.type = .dgram) ∧
          so.Heard (heard ∪ {data | Hears fuel data so' k'}) ∨
        so.state = .tcpDone ∧ total = encode 2 so.answer.length ++ (so.answer ++ k.inbound)) := by
  obtain ⟨hinit, hid, hdrop, r, t, hr, htype, hcls, hname, hlen, hqname⟩ :=
    submit_spec hsubmit
  obtain ⟨hquestion, ⟨hlong, hverify⟩, hfits, hwhole⟩ :=
    (call_good (hcalls.inv hinit) hcheck).2 rfl
  rw [verify_congr hquestion] at hverify
  obtain ⟨hheader, hcount, r', t', hr', htype', hcls', hname', hmax, hlength, hsame⟩ :=
    verify_spec hverify
  have hquery : so.query = so₀.query := by
    simp only [question, Prod.mk.injEq] at hquestion
    exact hquestion.2.2.2.2.2.2
  have htext : so₀.qname = t := by
    rw [hqname]
    exact List.take_of_length_le (by omega)
  rw [htext] at hsame
  refine ⟨hquery, by rw [hquery, hdrop], ⟨hlong, ?_, hcount, r, r', t, t', hr, hr', ?_, ?_, hname,
    hname', by omega, by omega, hsame⟩, hfits, hwhole⟩
  · rw [hheader, hid, hquery]
  · rw [htype', htype]
  · rw [hcls', hcls]

/-- A query for the address of a. with the id 7. -/
def querySeven : Packet :=
  ⟨[7, 0, 0, 0, 0, 1, 0, 0, 0, 0, 0, 0, 1, 97, 0, 0, 1, 0, 1], [], [12], .zero, by decide⟩

/-- An answer to it that has no record, and these flags. -/
def answerSeven (flags : UInt8) : List UInt8 :=
  [7, 0, flags, 0, 0, 1, 0, 0, 0, 0, 0, 0, 1, 65, 0, 0, 1, 0, 1]

/-- A new socket that was asked it. -/
def askedSeven : Socket :=
  ⟨.any, false, ⟨0, 1, 0, 0, 0, .init (fun _ => 0) 0⟩, .udpInit, [7, 0], [97, 46], 2, 1, 1,
    querySeven, 0, [], [], 768, 0, 0⟩

def okay : Reply := ⟨none, 0, []⟩

/-- Two datagrams come, one too short and one cut off. -/
def firstReplies : List Reply :=
  [okay, okay, ⟨none, 0, [1, 2, 3]⟩, ⟨none, 0, answerSeven 2⟩, okay, ⟨some .inProgress, 0, []⟩]

def connectingSeven : Socket :=
  { askedSeven with state := .tcpConn, tcp := true, answer := answerSeven 2 }

/-- Over TCP, the length comes byte by byte, with a call in between that would block. -/
def receivingSeven : Socket :=
  { connectingSeven with state := .tcpRecv, qout := 21, front := [0], apos := 1 }

def lastReplies : List Reply :=
  [⟨some .intr, 0, []⟩, ⟨none, 1, []⟩, ⟨none, 7, []⟩, ⟨none, 100, []⟩]

def doneSeven : Socket :=
  { receivingSeven with
    state := .tcpDone, tcp := false, front := [0, 19], answer := answerSeven 0, alen := 19
    apos := 21 }

theorem Calls.accepts_doneSeven : doneSeven.query = querySeven ∧
    doneSeven.query.data.drop 2 = querySeven.data.drop 2 ∧
    Answers 20 (header doneSeven.query.data) querySeven.data doneSeven.answer ∧
    doneSeven.answer.length ≤ doneSeven.room ∧ doneSeven.state = .tcpDone ∧
      [0, 19] ++ answerSeven 0 ++ [1, 2, 3] =
        encode 2 doneSeven.answer.length ++ (doneSeven.answer ++ [1, 2, 3]) := by
  have hsubmit : submit 20 askedSeven querySeven = some (none, askedSeven) := rfl
  have hfirst : check 20 20 askedSeven ⟨firstReplies, [0, 19] ++ answerSeven 0 ++ [1, 2, 3], []⟩ =
      some (some .again, connectingSeven, ⟨[], [0, 19] ++ answerSeven 0 ++ [1, 2, 3], []⟩) := rfl
  have hsecond : check 20 20 connectingSeven
      ⟨[okay, ⟨none, 100, []⟩, ⟨none, 1, []⟩], [0, 19] ++ answerSeven 0 ++ [1, 2, 3], []⟩ =
      some (some .again, receivingSeven, ⟨[], [19] ++ answerSeven 0 ++ [1, 2, 3],
        ([0, 19] ++ querySeven.data).map some⟩) := rfl
  have hthird : check 20 20 receivingSeven ⟨lastReplies, [19] ++ answerSeven 0 ++ [1, 2, 3], []⟩ =
      some (none, doneSeven, ⟨[], [1, 2, 3], []⟩) := rfl
  have hcalls : Calls 20 askedSeven ([0, 19] ++ answerSeven 0 ++ [1, 2, 3]) _ connectingSeven
      ([0, 19] ++ answerSeven 0 ++ [1, 2, 3]) := Calls.submitted.call hfirst
  have hcalls' : Calls 20 askedSeven ([0, 19] ++ answerSeven 0 ++ [1, 2, 3]) _ receivingSeven
      ([19] ++ answerSeven 0 ++ [1, 2, 3]) := hcalls.call hsecond
  obtain ⟨hquery, hdrop, hanswers, hfits, hwhole⟩ := hcalls'.accepts hsubmit hthird
  exact ⟨hquery, hdrop, hanswers, hfits, hwhole.resolve_left fun h => by cases h.1⟩

end Socket

end NetworkLabs.Dns
