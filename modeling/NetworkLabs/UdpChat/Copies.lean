import NetworkLabs.UdpChat.SendFailure

/-! What a second copy of a datagram does. -/
namespace NetworkLabs.UdpChat

open Transition CountAck

variable {Addr τ : Type} {n n' : Node Addr τ} {env : Env} {thread : Thread}
  {out : Option (Send Addr τ)} {source : Endpoint Addr} {p : Payload τ} {r q : Ref}

namespace Node

/-- The Reciever has finished with a datagram at once, and nothing but its own place changed. -/
def Untouched (n n' : Node Addr τ) : Prop :=
  ∃ pc, (pc = .check ∨ pc = .crashed) ∧ n' = { n with reciever := pc }

/-- What handling a datagram should leave as it is the second time. -/
def Unchanged (n n' : Node Addr τ) : Prop :=
  n'.nodes = n.nodes ∧ n'.heap = n.heap ∧ n'.messageQueue = n.messageQueue

section Steps
variable [DecidableEq Addr]

/-- The first copy, handled before `n`, was a message that was taken in, and its sender is still
the same neighbour at `n'`; or the sender of a confirmation is no neighbour at `n'`. -/
def TakenOnce (n n' : Node Addr τ) (source : Endpoint Addr) : Payload τ → Prop
  | .message uid text => ∃ q, n.reciever = .put q source uid text ∧
      ∀ q', n'.findNode source = some q' → q' = q
  | .confirm => n'.findNode source = none
  | .register _ => False
  | .badMessage | .other | .unreadable => True

theorem mem_printed_step {uid : Nat} (h : n.step thread env = some (n', out))
    (hx : uid ∈ n.printed q) : uid ∈ n'.printed q := by
  cases thread with
  | main =>
    obtain ⟨queue, pc, stopping, stopping', rfl, -⟩ := Main.act_of_step h
    exact hx
  | sender => cases Sender.act_of_step h <;> exact hx
  | checker => cases Checker.act_of_step h <;> exact hx
  | reciever =>
    have hact := Reciever.act_of_step h
    rcases List.mem_append.mp hx with haccepted | hprinting
    · apply List.mem_append_left _
      cases hact with
      | put pc =>
        simp only [acceptedFrom, List.filterMap_append, List.map_append, List.mem_append]
        exact .inl haccepted
      | _ => exact haccepted
    · cases hact with
      | @put client source uid' text pc =>
        simp only [pc, RecieverPc.printing] at hprinting
        split at hprinting
        · rename_i hc
          rw [List.mem_singleton.mp hprinting]
          simp [printed, acceptedFrom, hc]
        · cases hprinting
      | timeout pc | confirmed pc | unconfirmed pc | update pc | replied pc | unreplied pc
      | check pc =>
        simp [pc, RecieverPc.printing] at hprinting

/-- What was printed once stays on record. -/
theorem mem_printed_next {a : Action Addr τ} {uid : Nat} (h : n.next a = some n')
    (hx : uid ∈ n.printed q) : uid ∈ n'.printed q := by
  cases a with
  | readLine line =>
    obtain rfl := Main.eq_of_readLine h
    exact hx
  | thread thread env =>
    obtain ⟨out, hstep⟩ := step_of_next h
    exact mem_printed_step hstep hx
  | receive source p env =>
    have haccepted : uid ∈ (n.acceptedFrom q).map Prod.fst := by
      cases Reciever.took_of_receive h with
      | passed pc | accepted pc | delivered pc | registered pc =>
        simpa [printed, pc, RecieverPc.printing] using hx
    have hsame : n'.accepted = n.accepted := (Reciever.receive_kept h).2.1
    apply List.mem_append_left _
    rw [acceptedFrom, hsame]
    exact haccepted

variable {m n₁ n₂ n₃ n₄ : Node Addr τ} {xs ys : List (Action Addr τ)} {env' : Env}

theorem mem_printed_run {uid : Nat} (h : lts.MTr n xs n') (hx : uid ∈ n.printed q) :
    uid ∈ n'.printed q := by
  refine LTS.mTr_of_trInv (p := fun n => uid ∈ n.printed q) ?_ h hx
  intro n a n' hnext hx
  exact mem_printed_next hnext hx

/-- A message is taken in, or leaves no trace. -/
theorem taken_or_untouched {uid : Nat} {text : τ}
    (h : Reciever.receive n source (.message uid text) env = some n') :
    (∃ q, n'.reciever = .put q source uid text) ∨ n.Untouched n' := by
  cases Reciever.took_of_receive h with
  | passed pc ends => exact .inr ⟨_, ends, rfl⟩
  | accepted pc sent =>
    cases sent
    exact .inl ⟨_, rfl⟩
  | delivered pc sent | registered pc sent => cases sent

/-- Once a uid was printed, no message with it is taken in on the same link. -/
theorem Numbering.untouched_of_printed (hn : n.Numbering) {uid : Nat} {text : τ}
    (h : Reciever.receive n source (.message uid text) env = some n')
    (hprinted : ∀ q, n.findNode source = some q → uid ∈ n.printed q) : n.Untouched n' := by
  cases Reciever.took_of_receive h with
  | passed pc ends => exact ⟨_, ends, rfl⟩
  | @accepted client uid' text' pc sent found expected =>
    cases sent
    have hlt := hn.wf.nodes_lt client (findNode_some found).1
    have hmem : uid ∈ (n.acceptedFrom client).map Prod.fst := by
      simpa [printed, pc, RecieverPc.printing] using hprinted client found
    obtain ⟨x, hx, rfl⟩ := List.mem_map.mp hmem
    have hbelow := (hn.increasing client hlt).below x hx
    have hidle : (n.rx client).phase = .idle := by simp [rx, pc, RecieverPc.phase]
    rw [hidle, Phase.pending, Nat.add_zero] at hbelow
    exact absurd expected (Nat.ne_of_gt hbelow)
  | delivered pc sent | registered pc sent => cases sent

/-- A datagram that is no message and does not register leaves no trace, unless it confirms. -/
theorem untouched_of_plain (h : Reciever.receive n source p env = some n')
    (hmessage : ∀ uid text, p ≠ .message uid text) (hregister : ∀ name, p ≠ .register name)
    (hconfirm : p = .confirm → n.findNode source = none) : n.Untouched n' := by
  cases Reciever.took_of_receive h with
  | passed pc ends => exact ⟨_, ends, rfl⟩
  | accepted pc sent => exact absurd sent (hmessage _ _)
  | delivered pc sent found =>
    rw [hconfirm sent] at found
    cases found
  | registered pc sent => exact absurd sent (hregister _)

/-- The copy of a datagram that was taken in once changes nothing, as long as no confirmation
failed to be sent; and a message that was not taken in changed nothing either. -/
theorem copy_untouched (hm : m.Started)
    (h : (lts.guard fun n a => n.confirmsThrough a).MTr m xs n₁)
    (hfirst : Reciever.receive n₁ source p env = some n₂)
    (hlater : (lts.guard fun n a => n.confirmsThrough a).MTr n₂ ys n₃)
    (hcopy : Reciever.receive n₃ source p env' = some n₄) :
    (∀ uid text, p = .message uid text →
      (∃ q, n₂.reciever = .put q source uid text) ∨ n₁.Untouched n₂) ∧
    (TakenOnce n₂ n₃ source p → n₃.Untouched n₄) := by
  have hrun : (lts.guard fun n a => n.confirmsThrough a).MTr m (xs ++ .receive source p env :: ys)
      n₃ := h.append (.stepL ⟨hfirst, rfl⟩ hlater)
  have hnumbering := numbering_run hm hrun
  refine ⟨?_, ?_⟩
  · rintro uid text rfl
    exact taken_or_untouched hfirst
  · intro htaken
    cases p with
    | message uid text =>
      obtain ⟨q, hpc, hsame⟩ := htaken
      apply hnumbering.untouched_of_printed hcopy
      intro q' hfind
      obtain rfl := hsame q' hfind
      apply mem_printed_run hlater.of_guard
      simp [printed, hpc, RecieverPc.printing]
    | register name => exact htaken.elim
    | confirm => exact untouched_of_plain hcopy (by simp) (by simp) fun _ => htaken
    | badMessage | other | unreadable =>
      exact untouched_of_plain hcopy (by simp) (by simp) (by simp)

end Steps

/-- A child that ignores every second datagram, and a message that comes in twice. -/
def deafChild : Node Nat String := Server.connect (Server.start ⟨1, 7⟩ "child" 50) ⟨0, 7⟩ "parent"

def heard : Node Nat String :=
  LTS.after next deafChild [.receive ⟨0, 7⟩ (.message 1 "hi") (.calm 0)]

def answered : Node Nat String :=
  LTS.after next heard (List.replicate 4 (.thread .reciever (.calm 0)))

def heardTwice : Node Nat String :=
  LTS.after next answered [.receive ⟨0, 7⟩ (.message 1 "hi") (.calm 0)]

theorem started_deafChild : deafChild.Started := .connected ⟨1, 7⟩ ⟨0, 7⟩ "child" "parent" 50

theorem copy_untouched_heardTwice : answered.Untouched heardTwice := by
  have hlater : (lts.guard fun n a => n.confirmsThrough a).MTr heard
      (List.replicate 4 (.thread .reciever (.calm 0))) answered := LTS.mTr_guard_after (by decide)
  have htaken : TakenOnce heard answered ⟨0, 7⟩ (.message 1 "hi") := by
    refine ⟨0, rfl, ?_⟩
    intro q hq
    exact (Option.some.inj hq).symm
  have hfirst : Reciever.receive deafChild ⟨0, 7⟩ (.message 1 "hi") (.calm 0) = some heard := rfl
  have hcopy : Reciever.receive answered ⟨0, 7⟩ (.message 1 "hi") (.calm 0) = some heardTwice := rfl
  exact (copy_untouched started_deafChild .refl hfirst hlater hcopy).2 htaken

/-- The first copy is ignored as if it were lost. -/
def ignored : Node Nat String :=
  LTS.after next deafChild [.receive ⟨0, 7⟩ (.message 1 "hi") ⟨0, false, 0⟩]

def waiting : Node Nat String := LTS.after next ignored [.thread .reciever (.calm 0)]

/-- The second copy is taken in, and goes to the queue. -/
def takenIn : List (Action Nat String) :=
  .receive ⟨0, 7⟩ (.message 1 "hi") (.calm 0) :: List.replicate 1 (.thread .reciever (.calm 0))

theorem not_unchanged_copy :
    ¬ ∀ (xs ys : List (Action Nat String)) (n₁ n₂ n₃ n₄ : Node Nat String)
        (source : Endpoint Nat) (p : Payload String) (env env' : Env) (k : Nat),
      lts.MTr deafChild xs n₁ → Reciever.receive n₁ source p env = some n₂ → lts.MTr n₂ ys n₃ →
        lts.MTr n₃ (.receive source p env' :: List.replicate k (.thread .reciever env')) n₄ →
          n₃.Unchanged n₄ := by
  intro hall
  have hlater : lts.MTr ignored [.thread .reciever (.calm 0)] waiting := LTS.mTr_after (by decide)
  have hcopy : lts.MTr waiting takenIn (LTS.after next waiting takenIn) := LTS.mTr_after (by decide)
  have hsame := hall [] _ deafChild ignored waiting _ ⟨0, 7⟩ (.message 1 "hi") ⟨0, false, 0⟩
    (.calm 0) 1 .refl rfl hlater hcopy
  have hqueue : (LTS.after next waiting takenIn).messageQueue ≠ waiting.messageQueue := by decide
  exact hqueue hsame.2.2

end Node

end NetworkLabs.UdpChat
