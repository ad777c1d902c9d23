import NetworkLabs.UdpChat.LinkRefinement
import Mathlib.Data.List.Perm.Basic

/-! One session of a link: what holds while neither node registers with the other again. -/
namespace NetworkLabs.UdpChat.Link

open Transition CountAck

variable {Addr τ : Type} [DecidableEq Addr] {addr : Side → Endpoint Addr} {s t : Link Addr τ}
  {i : Side} {r q : Ref}

/-- Side `i` has the one NodeInfo `r` for the other side, which has the one NodeInfo `q`
for side `i`, and no registration is in flight between them. -/
structure Session (addr : Side → Endpoint Addr) (i : Side) (r q : Ref) (s : Link Addr τ) :
    Prop where
  wf : ∀ j, (s.node j).Wf
  tx_peer : (s.node i).Peer (addr i.other) r
  rx_peer : (s.node i.other).Peer (addr i) q
  sent : ((s.node i).heap r).sent = ((s.node i).issuedTo r).length
  noRegister : ∀ j name, (j, Payload.register name) ∉ s.net

omit [DecidableEq Addr] in
/-- Replacing one node keeps the session if the node kept its part of it. -/
theorem session_set {j : Side} {n : Node Addr τ} {net : List (Side × Payload τ)}
    (hs : Session addr i r q s) (hw : n.Wf)
    (hp : ∀ c, (s.node j).Peer (addr j.other) c → n.Peer (addr j.other) c ∧
      (((s.node j).heap c).sent = ((s.node j).issuedTo c).length →
        (n.heap c).sent = (n.issuedTo c).length))
    (hnet : ∀ j name, (j, Payload.register name) ∉ net) :
    Session addr i r q (s.commit j n net) := by
  have hwf : ∀ k, ((s.commit j n net).node k).Wf := by
    intro k
    rcases Side.eq_or_eq_other j k with rfl | rfl
    · simpa using hw
    · simpa using hs.wf _
  rcases Side.eq_or_eq_other i j with rfl | rfl
  · obtain ⟨hpr, hsent⟩ := hp r hs.tx_peer
    exact ⟨hwf, by simpa using hpr, by simpa using hs.rx_peer, by simpa using hsent hs.sent, hnet⟩
  · obtain ⟨hpr, -⟩ := hp q (by simpa using hs.rx_peer)
    exact ⟨hwf, by simpa using hs.tx_peer, by simpa using hpr, by simpa using hs.sent, hnet⟩

theorem carried_noRegister {thread : Thread} {env : Env} {j : Side} {n n' : Node Addr τ}
    {out : Option (Send Addr τ)} (h : n.step thread env = some (n', out)) (k : Side)
    (name : String) :
    (k, Payload.register name) ∉ carried addr j out := by
  intro hm
  unfold carried at hm
  split at hm
  · split at hm
    · simp only [List.mem_singleton, Prod.mk.injEq] at hm
      exact Node.step_out h rfl name hm.2.symm
    · simp at hm
  · simp at hm

theorem session_step {a : Action Addr τ} (h : step addr s a = some t)
    (hs : Session addr i r q s) : Session addr i r q t := by
  cases act_of_step h with
  | @readLine j line n hn =>
    refine session_set hs (Main.wf_readLine hn (hs.wf j))
      (fun c hc => ⟨Main.peer_readLine hn hc, ?_⟩) hs.noRegister
    cases Main.eq_of_readLine hn
    exact id
  | @thread j thread env n out calm hn =>
    refine session_set hs (Node.wf_step hn (hs.wf j))
      (fun c hc => ⟨Node.peer_step hn hc, Node.step_sent hn⟩) ?_
    intro k name hm
    rcases List.mem_append.mp hm with hm | hm
    · exact hs.noRegister k name hm
    · exact carried_noRegister hn k name hm
  | @receive j k env p n hk hn =>
    have hreg : ∀ name, p = .register name → addr j.other ≠ addr j.other := by
      rintro name rfl
      exact (hs.noRegister _ name (List.mem_of_getElem? hk)).elim
    refine session_set hs (Reciever.wf_receive hn (hs.wf j))
      (fun c hc => ⟨Reciever.peer_receive hn hreg hc, Reciever.receive_sent hn hc.lt⟩) ?_
    exact fun k name hm => hs.noRegister k name (List.mem_of_mem_eraseIdx hm)
  | @outside j source p env n hj hn =>
    exact session_set hs (Reciever.wf_receive hn (hs.wf j))
      (fun c hc => ⟨Reciever.peer_receive hn (fun _ _ => hj) hc, Reciever.receive_sent hn hc.lt⟩)
      hs.noRegister
  | lose =>
    exact ⟨hs.wf, hs.tx_peer, hs.rx_peer, hs.sent,
      fun k name hm => hs.noRegister k name (List.mem_of_mem_eraseIdx hm)⟩
  | duplicate hd =>
    refine ⟨hs.wf, hs.tx_peer, hs.rx_peer, hs.sent, ?_⟩
    intro k name hm
    rcases List.mem_append.mp hm with hm | hm
    · exact hs.noRegister k name hm
    · rw [List.mem_singleton] at hm
      exact hs.noRegister k name (hm ▸ List.mem_of_getElem? hd)

theorem session_trInv : (lts addr).TrInv (Session (τ := τ) addr i r q) :=
  fun _ _ _ h hs => session_step h hs

/-- Confirmations are repeated only where the network duplicates a datagram. -/
def allowed : Action Addr τ → Label → Prop
  | .duplicate _, _ => True
  | _, b => b ≠ .repeatAck

omit [DecidableEq Addr] in
theorem view_commit_self (n : Node Addr τ) (net : List (Side × Payload τ)) :
    (s.commit i n net).view i r q =
      ⟨n.tx r, (s.node i.other).rx q, {x | (i.other, Payload.message x.1 x.2) ∈ net},
        net.countP fun d => decide (d.1 = i) && d.2.isConfirm⟩ := by
  simp [Link.view]

omit [DecidableEq Addr] in
theorem view_commit_other (n : Node Addr τ) (net : List (Side × Payload τ)) :
    (s.commit i.other n net).view i r q =
      ⟨(s.node i).tx r, n.rx q, {x | (i.other, Payload.message x.1 x.2) ∈ net},
        net.countP fun d => decide (d.1 = i) && d.2.isConfirm⟩ := by
  simp [Link.view]

/-- What side `i` sends adds at most its message to the data and no confirmation for itself. -/
theorem mem_carried {out : Option (Send Addr τ)} {x : Nat × τ}
    (h : (i.other, Payload.message x.1 x.2) ∈ carried addr i out) :
    emitted (addr i.other) out = some x := by
  unfold carried at h
  split at h
  · split at h
    · rename_i target p ht
      simp only [List.mem_singleton, Prod.mk.injEq] at h
      obtain ⟨-, rfl⟩ := h
      simp [emitted, ht]
    · simp at h
  · simp at h

theorem countP_carried_self (out : Option (Send Addr τ)) :
    ((carried addr i out).countP fun d => decide (d.1 = i) && d.2.isConfirm) = 0 := by
  rw [List.countP_eq_zero]
  intro d hd
  unfold carried at hd
  split at hd
  · split at hd
    · simp only [List.mem_singleton] at hd
      simp [hd]
    · simp at hd
  · simp at hd

/-- What the other side sends adds no message for itself and at most its confirmation. -/
theorem countP_carried_other (out : Option (Send Addr τ)) :
    ((carried addr i.other out).countP fun d => decide (d.1 = i) && d.2.isConfirm) =
      confirms (addr i) out := by
  unfold carried
  split
  · rename_i target p
    cases p <;> by_cases ht : target = addr i <;> simp [confirms, ht, Payload.isConfirm]
  · rename_i hout
    cases out with
    | none => simp [confirms]
    | some o =>
      obtain ⟨target, packet⟩ := o
      cases packet with
      | datagram p => exact (hout target p rfl).elim
      | name w => simp [confirms]

theorem not_mem_carried_other (out : Option (Send Addr τ)) (p : Payload τ) :
    (i.other, p) ∉ carried addr i.other out := by
  unfold carried
  split
  · split <;> simp
  · simp

/-- Taking one datagram out of flight cannot add confirmations, and takes one away if it
was one. -/
theorem confirms_eraseIdx (net : List (Side × Payload τ)) (k : Nat) :
    ((net.eraseIdx k).countP fun d => decide (d.1 = i) && d.2.isConfirm) ≤
      net.countP fun d => decide (d.1 = i) && d.2.isConfirm :=
  (List.eraseIdx_sublist net k).countP_le

theorem confirms_eraseIdx_lt {net : List (Side × Payload τ)} {k : Nat}
    (h : net[k]? = some (i, .confirm)) :
    ((net.eraseIdx k).countP fun d => decide (d.1 = i) && d.2.isConfirm) <
      net.countP fun d => decide (d.1 = i) && d.2.isConfirm := by
  obtain ⟨hk, he⟩ := List.getElem?_eq_some_iff.mp h
  have hp := (List.getElem_cons_eraseIdx_perm hk).countP_eq
    (fun d => decide (d.1 = i) && d.2.isConfirm)
  rw [← hp, he]
  simp [Payload.isConfirm]

omit [DecidableEq Addr] in
theorem confirms_eq_zero {net : List (Side × Payload τ)} (h : (i, Payload.confirm) ∉ net) :
    (net.countP fun d => decide (d.1 = i) && d.2.isConfirm) = 0 := by
  rw [List.countP_eq_zero]
  rintro ⟨j, p⟩ hd hc
  cases p <;> simp_all [Payload.isConfirm]

/-- Every action on two nodes is one step of the abstract transfer on each of their links. -/
theorem refines : (lts addr).Refines (Session (τ := τ) addr i r q) (fun s => s.view i r q) allowed
    (CountAck.lts τ) := by
  intro s a t h hs
  change step addr s a = some t at h
  change ∃ b, allowed a b ∧ Step (s.view i r q) b (t.view i r q)
  have hsub : ∀ k, {x : Nat × τ | (i.other, Payload.message x.1 x.2) ∈ s.net.eraseIdx k} ⊆
      (s.view i r q).data := fun k x hx => List.mem_of_mem_eraseIdx hx
  cases act_of_step h with
  | @readLine j line n hn =>
    refine ⟨.lose, by simp [allowed], ?_⟩
    have hkept : n.tx = (s.node j).tx ∧ n.rx = (s.node j).rx := by
      cases Main.eq_of_readLine hn
      exact ⟨rfl, rfl⟩
    rcases Side.eq_or_eq_other i j with rfl | rfl
    · rw [view_commit_self, hkept.1]
      exact .lose subset_rfl le_rfl
    · rw [view_commit_other, hkept.2]
      exact .lose subset_rfl le_rfl
  | @thread j thread env n out calm hn =>
    rcases Side.eq_or_eq_other i j with rfl | rfl
    · refine ⟨.send, by simp [allowed], ?_⟩
      rw [view_commit_self]
      apply Step.send (Node.step_tx hn calm (hs.wf j) hs.tx_peer hs.sent)
      · intro x hx
        rcases List.mem_append.mp hx with hx | hx
        · exact Or.inl hx
        · exact Or.inr (mem_carried hx)
      · simp [Link.view, List.countP_append, countP_carried_self]
    · refine ⟨.recv, by simp [allowed], ?_⟩
      rw [view_commit_other]
      have hm := Node.step_rx hn calm (hs.wf i.other) hs.rx_peer
      apply Step.recv hm (by simp)
      · intro x hx
        rcases List.mem_append.mp hx with hx | hx
        · exact hx
        · exact (not_mem_carried_other out _ hx).elim
      · simp [Link.view, List.countP_append, countP_carried_other]
  | @receive j k env p n hk hn =>
    have hreg : ∀ name, p ≠ .register name := by
      rintro name rfl
      exact hs.noRegister _ name (List.mem_of_getElem? hk)
    rcases Side.eq_or_eq_other i j with rfl | rfl
    · rcases Reciever.receive_peer hn (hs.wf j) hs.tx_peer hreg with ⟨htx, -⟩ | ⟨x, -, htx, -⟩ |
        ⟨rfl, htx, -⟩
      · refine ⟨.lose, by simp [allowed], ?_⟩
        rw [view_commit_self, htx]
        exact .lose (hsub k) (confirms_eraseIdx _ _)
      · refine ⟨.lose, by simp [allowed], ?_⟩
        rw [view_commit_self, htx]
        exact .lose (hsub k) (confirms_eraseIdx _ _)
      · refine ⟨.acked, by simp [allowed], ?_⟩
        rw [view_commit_self, htx]
        exact .acked (hsub k) (confirms_eraseIdx_lt hk)
    · rw [Side.other_other] at hn
      rcases Reciever.receive_peer hn (hs.wf i.other) hs.rx_peer hreg with ⟨-, hrx⟩ |
        ⟨x, rfl, -, hrx⟩ | ⟨-, -, hrx⟩
      · refine ⟨.lose, by simp [allowed], ?_⟩
        rw [view_commit_other, hrx]
        exact .lose (hsub k) (confirms_eraseIdx _ _)
      · refine ⟨.recv, by simp [allowed], ?_⟩
        rw [view_commit_other]
        refine .recv hrx ?_ (hsub k) (confirms_eraseIdx _ _)
        rintro y ⟨⟩
        exact List.mem_of_getElem? hk
      · refine ⟨.lose, by simp [allowed], ?_⟩
        rw [view_commit_other, hrx]
        exact .lose (hsub k) (confirms_eraseIdx _ _)
  | @outside j source p env n hj hn =>
    refine ⟨.lose, by simp [allowed], ?_⟩
    rcases Side.eq_or_eq_other i j with rfl | rfl
    · rw [view_commit_self, (Reciever.receive_outside hn hs.tx_peer hj).1]
      exact .lose subset_rfl le_rfl
    · rw [Side.other_other] at hj
      rw [view_commit_other, (Reciever.receive_outside hn hs.rx_peer hj).2]
      exact .lose subset_rfl le_rfl
  | lose =>
    exact ⟨.lose, by simp [allowed], .lose (hsub _) (confirms_eraseIdx _ _)⟩
  | duplicate hd =>
    refine ⟨.repeatAck, trivial, .repeatAck ?_⟩
    intro x hx
    rcases List.mem_append.mp hx with hx | hx
    · exact hx
    · rw [List.mem_singleton] at hx
      exact List.mem_of_getElem? (hx ▸ hd)

end NetworkLabs.UdpChat.Link
