import NetworkLabs.UdpChat.Datagram
import NetworkLabs.UdpChat.Solo

/-! What any bytes from anywhere can do to a node. -/
namespace NetworkLabs.UdpChat

open Transition

variable {Addr : Type} {cs : Charset} {dd : DecimalDigits} {n : Node Addr (List Char)}
  {source : Endpoint Addr} {bytes : List UInt8} {env : Env} {type : Char} {s : List Char}

/-- The datagrams that a chat program builds: a message of `Sender.run`, a confirmation of
`Reciever.run`, a registration of `Server.connect`. -/
inductive WellFormed (cs : Charset) : List UInt8 → Prop
  | message (uid : Nat) (message : List Char) (pos : 1 ≤ uid) (lt : uid < 2 ^ 63) :
      WellFormed cs (Sender.datagram cs uid message)
  | confirm : WellFormed cs (cs.encode [Message.typeConfirm])
  | register (name : List Char) : WellFormed cs (cs.encode (Message.typeRegister :: name))

namespace Reciever

/-- The payload as the abstract node reads it. No uid below zero is ever expected. -/
def payload (cs : Charset) (dd : DecimalDigits) (bytes : List UInt8) : Payload (List Char) :=
  match text cs bytes with
  | .error _ => .unreadable
  | .ok [] => .unreadable
  | .ok (type :: s) =>
    if type = Message.typeMessage then
      match uid dd s with
      | .error _ => .badMessage
      | .ok i => if 0 ≤ i then .message i.toNat (behind s ':') else .other
    else if type = Message.typeConfirm then .confirm
    else if type = Message.typeRegister then .register (String.ofList s)
    else .other

/-- The thread goes on with `n`, or an exception ends it. -/
def settle (n : Node Addr (List Char)) :
    Except Thrown (Node Addr (List Char)) → Node Addr (List Char)
  | .ok n' => n'
  | .error _ => { n with reciever := .crashed }

/-- How many steps are left in the iteration. -/
def left : RecieverPc Addr (List Char) → Nat
  | .put .. => 4
  | .confirm .. => 3
  | .update _ | .reply _ => 2
  | .check => 1
  | .receive | .finished | .crashed => 0

/-- The rest of an iteration, when no other thread moves. -/
def finish (env : Nat → Env) : Nat → Node Addr (List Char) → Node Addr (List Char)
  | 0, n => n
  | k + 1, n =>
    if left n.reciever = 0 then n
    else
      match step n (env k) with
      | none => n
      | some (n', _) => finish env k n'

theorem step_isSome (env : Env) (h : 0 < left n.reciever) : (step n env).isSome = true := by
  cases hn : n.reciever with
  | receive | finished | crashed => simp [hn, left] at h
  | confirm | reply =>
    simp only [step, hn, Node.quiet]
    split <;> rfl
  | put | update | check =>
    simp only [step, hn]
    rfl

/-- What a step does to the lists. -/
theorem step_spec {n' : Node Addr (List Char)} {out : Option (Send Addr (List Char))}
    (h : step n env = some (n', out)) (hpos : 0 < left n.reciever) :
    left n'.reciever < left n.reciever ∧ n'.reciever ≠ .crashed ∧ n'.nodes = n.nodes ∧
      (left n.reciever < 4 → n'.messageQueue = n.messageQueue) := by
  unfold step at h
  cases hn : n.reciever with
  | receive | finished | crashed => simp [hn, left] at hpos
  | put client e uid text =>
    simp only [hn, Node.quiet] at h
    cases h
    exact ⟨by simp [left], nofun, rfl, fun hlt => absurd hlt (Nat.lt_irrefl 4)⟩
  | confirm client e =>
    simp only [hn] at h
    split at h <;> cases h <;> exact ⟨by simp [left], nofun, rfl, fun _ => rfl⟩
  | update client =>
    simp only [hn] at h
    cases h
    exact ⟨by simp [left], nofun, rfl, fun _ => rfl⟩
  | reply newNode =>
    simp only [hn] at h
    split at h <;> cases h <;> exact ⟨by simp [left], nofun, rfl, fun _ => rfl⟩
  | check =>
    simp only [hn] at h
    cases h
    cases n.recieverStopping with
    | false => exact ⟨by simp [left], nofun, rfl, fun _ => rfl⟩
    | true => exact ⟨by simp [left], nofun, rfl, fun _ => rfl⟩

/-- The rest of an iteration comes to its end, and but for a message that is put into the queue it
changes no list. -/
theorem finish_spec (env : Nat → Env) (k : Nat) (h : left n.reciever ≤ k)
    (hn : n.reciever ≠ .crashed) :
    ((finish env k n).reciever = .receive ∨ (finish env k n).reciever = .finished) ∧
      (finish env k n).nodes = n.nodes ∧
      (left n.reciever < 4 → (finish env k n).messageQueue = n.messageQueue) := by
  have hzero : ∀ n : Node Addr (List Char), left n.reciever = 0 → n.reciever ≠ .crashed →
      n.reciever = .receive ∨ n.reciever = .finished := by
    intro n h hn
    cases hpc : n.reciever <;> simp_all [left]
  induction k generalizing n with
  | zero => exact ⟨hzero n (Nat.le_zero.mp h) hn, rfl, fun _ => rfl⟩
  | succ k ih =>
    rw [finish]
    split
    · rename_i hleft
      exact ⟨hzero n hleft hn, rfl, fun _ => rfl⟩
    · rename_i hleft
      have hpos : 0 < left n.reciever := Nat.pos_of_ne_zero hleft
      obtain ⟨⟨n', out⟩, hstep⟩ := Option.isSome_iff_exists.mp (step_isSome (env k) hpos)
      obtain ⟨hlt, hcrashed, hnodes, hqueue⟩ := step_spec hstep hpos
      obtain ⟨hend, hnodes', hqueue'⟩ := ih (by omega) hcrashed
      simp only [hstep]
      refine ⟨hend, hnodes'.trans hnodes, fun hless => ?_⟩
      exact (hqueue' (by omega)).trans (hqueue hless)

theorem finish_check (env : Nat → Env) (h : n.reciever = .check) :
    finish env 4 n = { n with
      reciever := if n.recieverStopping then .finished else .receive } := by
  have hleft : left n.reciever = 1 := by rw [h, left]
  rw [finish, if_neg (by omega)]
  simp only [step, h, Node.quiet]
  cases n.recieverStopping <;> rfl

variable [DecidableEq Addr]

/-- An iteration of the loop of `Reciever.run` that gets a datagram. -/
def iteration (cs : Charset) (dd : DecimalDigits) (n : Node Addr (List Char))
    (source : Endpoint Addr) (bytes : List UInt8) (env : Nat → Env) :
    Except Thrown (Node Addr (List Char)) :=
  (receiveDatagram cs dd n source bytes (env 4)).map (finish env 4)

/-- What is in the buffer before the first NUL. -/
def Reads (cs : Charset) (bytes : List UInt8) (s : List Char) : Prop :=
  (∃ rest, cs.decode (buffer bytes) = s ++ '\x00' :: rest) ∧ '\x00' ∉ s

/-- What is before the first colon is the number `i`. -/
def Numbered (dd : DecimalDigits) (s : List Char) (i : Int) : Prop :=
  ∃ number rest, s = number ++ ':' :: rest ∧ ':' ∉ number ∧ dd.parseInt number = some i

/-- The payload has a first character before a NUL in the buffer. A message that is not ignored has
a number, and only a message, a confirmation and a registration as a chat program builds them is
taken for one. -/
def Harmless (cs : Charset) (dd : DecimalDigits) (n : Node Addr (List Char))
    (source : Endpoint Addr) (bytes : List UInt8) (draw : Nat) : Prop :=
  ∃ type s, Reads cs bytes (type :: s) ∧
    (type = Message.typeMessage → ∀ client, n.findNode source = some client →
      n.failPercent < draw → ∃ i, Numbered dd s i ∧
        (((n.heap client).expectedID : Int) = i → WellFormed cs bytes)) ∧
    (type = Message.typeConfirm → (n.findNode source).isSome = true → WellFormed cs bytes) ∧
    (type = Message.typeRegister → WellFormed cs bytes)

/-- The neighbours, their counters and the queue are as they were. -/
def Unchanged (n n' : Node Addr (List Char)) : Prop :=
  n'.nodes = n.nodes ∧ n'.heap = n.heap ∧ n'.messageQueue = n.messageQueue

/-- The iteration ends without an exception, and what is not a datagram of the protocol changes
neither the neighbours nor their counters nor the queue. -/
def Endures (cs : Charset) (dd : DecimalDigits) (n : Node Addr (List Char))
    (source : Endpoint Addr) (bytes : List UInt8) (env : Nat → Env) : Prop :=
  ∃ n', iteration cs dd n source bytes env = .ok n' ∧
    (n'.reciever = .receive ∨ n'.reciever = .finished) ∧
    (¬ WellFormed cs bytes → Unchanged n n')

theorem reads_iff : Reads cs bytes s ↔ text cs bytes = .ok s := by
  constructor
  · rintro ⟨⟨rest, hrest⟩, hs⟩
    rw [text, hrest, before_append hs]
  · intro h
    obtain ⟨hrest, hs⟩ := of_before h
    exact ⟨⟨_, hrest⟩, hs⟩

theorem numbered_iff {i : Int} : Numbered dd s i ↔ uid dd s = .ok i := by
  constructor
  · rintro ⟨number, rest, rfl, hcolon, hi⟩
    rw [uid, before_append hcolon]
    change parseInt dd number = _
    rw [parseInt, hi]
  · intro h
    obtain ⟨number, hnumber, hi⟩ := of_bind h
    obtain ⟨hrest, hcolon⟩ := of_before hnumber
    refine ⟨number, _, hrest, hcolon, ?_⟩
    unfold parseInt at hi
    split at hi
    · cases hi
    · cases hi
      assumption

theorem receiveDatagram_of_text (h : text cs bytes = .ok (type :: s)) :
    receiveDatagram cs dd n source bytes env = switch dd n source env type s := by
  rw [receiveDatagram, h]
  rfl

theorem uid_le {i : Int} (h : uid dd s = .ok i) : i ≤ maxInt := by
  obtain ⟨number, rest, -, -, hi⟩ := numbered_iff.mpr h
  exact DecimalDigits.parseInt_le hi

theorem receive_typeMessage (hpc : n.reciever = .receive) :
    receive n source (match uid dd s with
      | .error _ => .badMessage
      | .ok i => if 0 ≤ i then .message i.toNat (behind s ':') else .other) env =
    some (settle n (switch dd n source env Message.typeMessage s)) := by
  rw [switch, if_pos rfl]
  cases huid : uid dd s with
  | error e =>
    cases hfind : n.findNode source with
    | none => simp only [receive, hpc, hfind, settle]
    | some client =>
      by_cases hdraw : env.draw > n.failPercent
      · simp only [receive, hpc, hfind, if_pos hdraw, Except.map, settle]
      · simp only [receive, hpc, hfind, if_neg hdraw, settle]
  | ok i =>
    have hle := uid_le huid
    by_cases hi : 0 ≤ i
    · have hmax : ¬ maxInt < i.toNat := by omega
      cases hfind : n.findNode source with
      | none => simp only [if_pos hi, receive, hpc, hfind, settle]
      | some client =>
        have huid' : ((n.heap client).expectedID : Int) = i ↔
            (n.heap client).expectedID = i.toNat := by omega
        by_cases hdraw : env.draw > n.failPercent
        · simp only [if_pos hi, receive, hpc, hfind, if_pos hdraw, if_neg hmax, Except.map, settle,
            huid']
          split <;> rfl
        · simp only [if_pos hi, receive, hpc, hfind, if_neg hdraw, settle]
    · cases hfind : n.findNode source with
      | none => simp only [if_neg hi, receive, hpc, settle]
      | some client =>
        have huid' : ¬ ((n.heap client).expectedID : Int) = i := by omega
        by_cases hdraw : env.draw > n.failPercent
        · simp only [if_neg hi, receive, hpc, if_pos hdraw, Except.map, settle, if_neg huid']
        · simp only [if_neg hi, receive, hpc, if_neg hdraw, settle]

/-- On bytes, the thread does what the abstract node does on what they say. -/
theorem receive_payload (hpc : n.reciever = .receive) : receive n source (payload cs dd bytes) env =
    some (settle n (receiveDatagram cs dd n source bytes env)) := by
  unfold payload
  cases htext : text cs bytes with
  | error e => simp [receive, hpc, receiveDatagram, htext, bind, Except.bind, settle]
  | ok u =>
    cases u with
    | nil => simp [receive, hpc, receiveDatagram, htext, bind, Except.bind, settle, charAtZero]
    | cons type s =>
      rw [receiveDatagram_of_text htext]
      by_cases hmessage : type = Message.typeMessage
      · subst hmessage
        simp only [if_true]
        exact receive_typeMessage hpc
      simp only [switch, if_neg hmessage]
      by_cases hconfirm : type = Message.typeConfirm
      · simp only [if_pos hconfirm, receive, hpc]
        cases n.findNode source with
        | none => rfl
        | some client => rfl
      simp only [if_neg hconfirm]
      by_cases hregister : type = Message.typeRegister
      · simp only [if_pos hregister, receive, hpc, settle]
      · simp only [if_neg hregister, receive, hpc, settle]

omit [DecidableEq Addr] in
theorem unchanged_check (env : Nat → Env) (n : Node Addr (List Char)) :
    Unchanged n (finish env 4 { n with reciever := .check }) := by
  rw [finish_check env rfl]
  exact ⟨rfl, rfl, rfl⟩

omit [DecidableEq Addr] in
theorem not_unchanged_accept (env : Nat → Env) (client : Ref) (i : Nat) (message : List Char) :
    ¬ Unchanged n (finish env 4 (accept n client source i message)) := by
  rintro ⟨-, -, hqueue⟩
  have hspec := finish_spec (n := { n with
    messageQueue := n.messageQueue.put ⟨some source.address, source.port, message⟩
    accepted := n.accepted ++ [(client, i, message)]
    reciever := .confirm client source }) env 3 (Nat.le_refl 3) nofun
  have hput := (hspec.2.2 (by simp [left])).symm.trans hqueue
  have hlength := congrArg (fun q => q.container.length) hput
  simp [Storage.put] at hlength

omit [DecidableEq Addr] in
theorem not_unchanged_confirm (env : Nat → Env) (client : Ref) :
    ¬ Unchanged n (finish env 4 { n.modify client (·.updateLastDelivered) with
      reciever := .check }) := by
  rw [finish_check env rfl]
  rintro ⟨-, hheap, -⟩
  have hclient := congrArg NodeInfo.lastDelivered (congrFun hheap client)
  simp [NodeInfo.updateLastDelivered] at hclient

omit [DecidableEq Addr] in
theorem not_unchanged_register (env : Nat → Env) (info : NodeInfo Addr) :
    ¬ Unchanged n (finish env 4 { n.alloc info with
      nodes := n.nodes ++ [n.allocated], reciever := .reply n.allocated }) := by
  rintro ⟨hnodes, -, -⟩
  have hspec := finish_spec (n := { n.alloc info with
    nodes := n.nodes ++ [n.allocated], reciever := .reply n.allocated })
    env 4 (by simp [left]) nofun
  rw [hspec.2.1] at hnodes
  simp at hnodes

theorem switch_pc {n' : Node Addr (List Char)} (h : switch dd n source env type s = .ok n') :
    n'.reciever ≠ .crashed := by
  unfold switch at h
  split at h
  · split at h
    · cases h
      simp
    split at h
    · cases huid : uid dd s with
      | error e =>
        rw [huid] at h
        cases h
      | ok i =>
        rw [huid] at h
        cases h
        dsimp only
        split <;> simp [accept]
    · cases h
      simp
  split at h
  · split at h <;> cases h <;> simp
  split at h <;> cases h <;> simp

/-- A payload that can be read is endured as its switch allows. -/
theorem endures_iff_of_text {env : Nat → Env} (htext : text cs bytes = .ok (type :: s)) :
    Endures cs dd n source bytes env ↔ ∃ n', switch dd n source (env 4) type s = .ok n' ∧
      (¬ WellFormed cs bytes → Unchanged n (finish env 4 n')) := by
  rw [Endures, iteration, receiveDatagram_of_text htext]
  cases hswitch : switch dd n source (env 4) type s with
  | error e =>
    constructor
    · rintro ⟨n', h, -⟩
      cases h
    · rintro ⟨n', h, -⟩
      cases h
  | ok n₁ =>
    have hleft : left n₁.reciever ≤ 4 := by
      cases n₁.reciever <;> simp [left]
    obtain ⟨hend, -⟩ := finish_spec env 4 hleft (switch_pc hswitch)
    constructor
    · rintro ⟨n', h, -, hsame⟩
      cases h
      exact ⟨n₁, rfl, hsame⟩
    · rintro ⟨n', h, hsame⟩
      cases h
      exact ⟨_, rfl, hend, hsame⟩

theorem endured_message (env : Nat → Env) :
    (∃ n', switch dd n source (env 4) Message.typeMessage s = .ok n' ∧
      (¬ WellFormed cs bytes → Unchanged n (finish env 4 n'))) ↔
    ∀ client, n.findNode source = some client → n.failPercent < (env 4).draw →
      ∃ i, Numbered dd s i ∧
        (((n.heap client).expectedID : Int) = i → WellFormed cs bytes) := by
  simp only [switch, if_true]
  cases hfind : n.findNode source with
  | none => exact iff_of_true ⟨_, rfl, fun _ => unchanged_check env n⟩ (by simp)
  | some client =>
    by_cases hdraw : n.failPercent < (env 4).draw
    · simp only [gt_iff_lt, hdraw, if_true, Option.some.injEq, forall_eq', true_imp_iff,
        numbered_iff]
      cases huid : uid dd s with
      | error e =>
        apply iff_of_false
        · rintro ⟨n', h, -⟩
          cases h
        · rintro ⟨i, h, -⟩
          cases h
      | ok i =>
        by_cases hexpected : ((n.heap client).expectedID : Int) = i
        · simp only [Except.map, Except.ok.injEq, exists_eq_left', hexpected, true_imp_iff]
          constructor
          · intro hsame
            by_contra hwf
            exact not_unchanged_accept env client _ _ (hsame hwf)
          · exact fun hwf hnot => absurd hwf hnot
        · simp only [Except.map, Except.ok.injEq, exists_eq_left', hexpected, false_imp_iff,
            iff_true]
          exact fun _ => unchanged_check env n
    · simp only [gt_iff_lt, hdraw, if_false]
      exact iff_of_true ⟨_, rfl, fun _ => unchanged_check env n⟩ fun _ _ h => absurd h id

theorem endured_confirm (env : Nat → Env) :
    (∃ n', switch dd n source (env 4) Message.typeConfirm s = .ok n' ∧
      (¬ WellFormed cs bytes → Unchanged n (finish env 4 n'))) ↔
    ((n.findNode source).isSome = true → WellFormed cs bytes) := by
  have hmessage : Message.typeConfirm ≠ Message.typeMessage := by decide
  simp only [switch, if_neg hmessage, if_true]
  cases hfind : n.findNode source with
  | none => exact iff_of_true ⟨_, rfl, fun _ => unchanged_check env n⟩ (by simp)
  | some client =>
    simp only [Except.ok.injEq, exists_eq_left', Option.isSome_some, true_imp_iff]
    constructor
    · intro hsame
      by_contra hwf
      exact not_unchanged_confirm env client (hsame hwf)
    · exact fun hwf hnot => absurd hwf hnot

theorem endured_register (env : Nat → Env) :
    (∃ n', switch dd n source (env 4) Message.typeRegister s = .ok n' ∧
      (¬ WellFormed cs bytes → Unchanged n (finish env 4 n'))) ↔ WellFormed cs bytes := by
  have hmessage : Message.typeRegister ≠ Message.typeMessage := by decide
  have hconfirm : Message.typeRegister ≠ Message.typeConfirm := by decide
  simp only [switch, if_neg hmessage, if_neg hconfirm, if_true, Except.ok.injEq, exists_eq_left']
  constructor
  · intro hsame
    by_contra hwf
    exact not_unchanged_register env _ (hsame hwf)
  · exact fun hwf hnot => absurd hwf hnot

theorem endured_other (env : Nat → Env) (hmessage : type ≠ Message.typeMessage)
    (hconfirm : type ≠ Message.typeConfirm) (hregister : type ≠ Message.typeRegister) :
    ∃ n', switch dd n source (env 4) type s = .ok n' ∧
      (¬ WellFormed cs bytes → Unchanged n (finish env 4 n')) := by
  simp only [switch, if_neg hmessage, if_neg hconfirm, if_neg hregister]
  exact ⟨_, rfl, fun _ => unchanged_check env n⟩

theorem harmless_iff_of_text {draw : Nat} (htext : text cs bytes = .ok (type :: s)) :
    Harmless cs dd n source bytes draw ↔
      (type = Message.typeMessage → ∀ client, n.findNode source = some client →
        n.failPercent < draw → ∃ i, Numbered dd s i ∧
          (((n.heap client).expectedID : Int) = i → WellFormed cs bytes)) ∧
      (type = Message.typeConfirm → (n.findNode source).isSome = true → WellFormed cs bytes) ∧
      (type = Message.typeRegister → WellFormed cs bytes) := by
  constructor
  · rintro ⟨type', s', hreads, h⟩
    cases htext.symm.trans (reads_iff.mp hreads)
    exact h
  · exact fun h => ⟨type, s, reads_iff.mpr htext, h⟩

/-- A payload without a first character ends the thread. -/
theorem not_endures_of_text {env : Nat → Env} (h : ∀ type s, text cs bytes ≠ .ok (type :: s)) :
    ¬ Endures cs dd n source bytes env := by
  rintro ⟨n', hn, -⟩
  rw [iteration] at hn
  obtain ⟨n₁, hn₁, -⟩ := of_bind (f := fun n₁ => .ok (finish env 4 n₁)) hn
  obtain ⟨u, htext, hn₁⟩ := of_bind hn₁
  obtain ⟨c, htype, -⟩ := of_bind hn₁
  exact h c _ (of_charAtZero htype ▸ htext)

theorem not_harmless_of_text {draw : Nat} (h : ∀ type s, text cs bytes ≠ .ok (type :: s)) :
    ¬ Harmless cs dd n source bytes draw := by
  rintro ⟨type, s, hreads, -⟩
  exact h type s (reads_iff.mp hreads)

/-- An empty datagram is a buffer of NULs. -/
theorem text_empty (cs : Charset) : text cs [] = .ok [] := by
  have h : text cs (cs.encode []) = .ok [] :=
    text_encode (by rw [Charset.encode_nil]; decide) List.not_mem_nil
  rwa [Charset.encode_nil] at h

/-- Exactly the harmless datagrams are endured. -/
theorem endures_iff (cs : Charset) (dd : DecimalDigits) (n : Node Addr (List Char))
    (source : Endpoint Addr) (bytes : List UInt8) (env : Nat → Env) :
    Endures cs dd n source bytes env ↔ Harmless cs dd n source bytes (env 4).draw := by
  by_cases hread : ∃ type s, text cs bytes = .ok (type :: s)
  · obtain ⟨type, s, htext⟩ := hread
    rw [endures_iff_of_text htext, harmless_iff_of_text htext]
    by_cases hmessage : type = Message.typeMessage
    · subst hmessage
      rw [endured_message]
      exact ⟨fun h => ⟨fun _ => h, nofun, nofun⟩, fun h => h.1 rfl⟩
    by_cases hconfirm : type = Message.typeConfirm
    · subst hconfirm
      rw [endured_confirm]
      exact ⟨fun h => ⟨nofun, fun _ => h, nofun⟩, fun h => h.2.1 rfl⟩
    by_cases hregister : type = Message.typeRegister
    · subst hregister
      rw [endured_register]
      exact ⟨fun h => ⟨nofun, nofun, fun _ => h⟩, fun h => h.2.2 rfl⟩
    · exact iff_of_true (endured_other env hmessage hconfirm hregister)
        ⟨fun h => absurd h hmessage, fun h => absurd h hconfirm, fun h => absurd h hregister⟩
  · have hread' : ∀ type s, text cs bytes ≠ .ok (type :: s) :=
      fun type s h => hread ⟨type, s, h⟩
    exact iff_of_false (not_endures_of_text hread') (not_harmless_of_text hread')

/-- An empty datagram from anywhere ends the thread of a node that has just been started. -/
theorem not_endures_empty : ¬ ∀ (cs : Charset) (dd : DecimalDigits)
    (n₀ n : Node Nat (List Char)) (xs : List (Node.Action Nat (List Char)))
    (source : Endpoint Nat) (bytes : List UInt8) (env : Nat → Env), n₀.Started →
    Node.lts.MTr n₀ xs n → n.reciever = .receive → Endures cs dd n source bytes env := by
  intro hall
  have hstart : (Server.start ⟨0, 1⟩ "a" 0 : Node Nat (List Char)).Started := .alone _ _ _
  have hendures := hall .utf8 .ascii _ _ [] ⟨0, 2⟩ [] (fun _ => .calm 0) hstart .refl rfl
  refine not_endures_of_text (fun type s h => ?_) hendures
  rw [text_empty] at h
  cases h

omit [DecidableEq Addr] in
/-- A message that fits is for the abstract node what `Sender.run` meant. -/
theorem payload_datagram {id : Nat} {message : List Char} (hid : id ≤ DecimalDigits.intMax)
    (hfits : Fits cs id message) (hnul : '\x00' ∉ message) :
    payload cs dd (Sender.datagram cs id message) = .message id message := by
  have hcolon : ':' ∉ Nat.toDigits 10 id := Sender.notMem_toDigits rfl
  have htext : text cs (Sender.datagram cs id message) = .ok (Sender.text id message) :=
    text_encode (fits_iff.mp hfits) (mt Sender.nul_mem_text.mp hnul)
  simp only [payload, htext, Sender.text, if_true, uid_toDigits, if_pos hid, behind_append hcolon,
    Int.natCast_nonneg, Int.toNat_natCast]

omit [DecidableEq Addr] in
theorem payload_confirm : payload cs dd (cs.encode [Message.typeConfirm]) = .confirm := by
  have hlength : (cs.encode [Message.typeConfirm]).length = 1 := by
    rw [cs.encode_ascii _ (by decide), List.length_singleton]
  have hfits : (cs.encode [Message.typeConfirm]).length < bufferSize := by
    rw [hlength, bufferSize]
    omega
  have htext : text cs (cs.encode [Message.typeConfirm]) = .ok [Message.typeConfirm] :=
    text_encode hfits (by simp [Message.typeConfirm])
  have hmessage : Message.typeConfirm ≠ Message.typeMessage := by decide
  simp only [payload, htext, if_neg hmessage, if_true]

end Reciever

end NetworkLabs.UdpChat
