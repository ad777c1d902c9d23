import NetworkLabs.UdpChat.Network
import NetworkLabs.UdpChat.Delivery

/-! A forest of chat nodes floods every typed line to its tree exactly once. -/
namespace NetworkLabs.UdpChat.Net

open Transition Flood

variable {Addr Text : Type} [DecidableEq Addr] {s t : Net Addr Text}
  {u v w : Endpoint Addr} {G : SimpleGraph (Endpoint Addr)}

/-- The messages that have a uid and were not received yet. -/
def flight (s : Net Addr Text) (u w : Endpoint Addr) : List (Nat × Line Addr Text) :=
  s.link u w ++ (s.node u).leaving w

def ids (ms : List (Nat × Line Addr Text)) : Multiset (Endpoint Addr × Nat) := ms.map (·.2.id)

/-- The network as a flood of line ids. -/
def view (s : Net Addr Text) : Flood.State (Endpoint Addr) (Endpoint Addr × Nat) where
  arrivals v := Multiset.ofList ((s.typed v).map fun l => (none, l.id)) + (s.node v).arrived
  owed u w := (s.node u).owed w
  wire u w := ids (s.flight u w) + (s.node w).entering u
  intact := ∀ v, (s.node v).reciever ≠ .crashed

/-- The uids run from the awaited one to the last one issued. -/
def Consecutive (uids : List Nat) (next last : Nat) : Prop :=
  uids = List.range' next uids.length ∧ next + uids.length = last + 1

omit [DecidableEq Addr] in
theorem Consecutive.snoc {uids : List Nat} {next last : Nat} (h : Consecutive uids next last) :
    Consecutive (uids ++ [last + 1]) next (last + 1) := by
  obtain ⟨hu, hl⟩ := h
  refine ⟨?_, by simp; omega⟩
  rw [List.length_append, List.length_singleton, List.range'_1_concat, ← hu, hl]

theorem Consecutive.cons {uid : Nat} {uids : List Nat} {next last : Nat}
    (h : Consecutive (uid :: uids) next last) : uid = next ∧ Consecutive uids (next + 1) last := by
  obtain ⟨hu, hl⟩ := h
  rw [List.length_cons, List.range'_succ, List.cons.injEq] at hu
  exact ⟨hu.1, hu.2, by simp at hl; omega⟩

/-- Each node keeps the neighbours that the forest gives it, the uids in flight are
consecutive unless the receiver died, and lines are numbered in the order typed. -/
structure Steady (G : SimpleGraph (Endpoint Addr)) (s : Net Addr Text) : Prop where
  static : ∀ v, (s.node v).Static (G.neighborSet v)
  consecutive : ∀ u w, G.Adj u w → ∀ r ∈ (s.node u).nodes, ((s.node u).heap r).endpoint = w →
    ∀ q ∈ (s.node w).nodes, ((s.node w).heap q).endpoint = u →
    (s.node w).reciever ≠ .crashed →
    Consecutive ((s.flight u w).map Prod.fst) ((s.node w).awaited q) ((s.node u).heap r).sent
  numbered : ∀ v i (h : i < (s.typed v).length), (s.typed v)[i].id = (v, i)

section Commit
variable {out : Node.Outcome Addr (Line Addr Text)}

@[simp] theorem commit_node_self : (s.commit v out).node v = out.1 := by simp [commit]

theorem commit_node_of_ne (h : u ≠ v) : (s.commit v out).node u = s.node u := by simp [commit, h]

@[simp] theorem commit_typed : (s.commit v out).typed = s.typed := rfl

theorem commit_flight_self : (s.commit v out).flight v w =
    s.link v w ++ ((emitted w out.2).toList ++ out.1.leaving w) := by
  simp [flight, commit]

theorem commit_flight_of_ne (h : u ≠ v) : (s.commit v out).flight u w = s.flight u w := by
  simp [flight, commit, h]

end Commit

/-- A node acted on what it has, and its Reciever still awaits the same uids. -/
theorem steady_commit {out : Node.Outcome Addr (Line Addr Text)} (hs : Steady G s)
    (hst : out.1.Static (G.neighborSet v)) (hsame : (s.node v).SameNodes out.1)
    (haw : out.1.reciever ≠ .crashed →
      (s.node v).reciever ≠ .crashed ∧ ∀ q, out.1.awaited q = (s.node v).awaited q)
    (htx : ∀ w, G.Adj v w → ∀ r ∈ (s.node v).nodes, ((s.node v).heap r).endpoint = w → ∀ next,
      Consecutive ((s.flight v w).map Prod.fst) next ((s.node v).heap r).sent →
      Consecutive (((s.commit v out).flight v w).map Prod.fst) next (out.1.heap r).sent) :
    Steady G (s.commit v out) := by
  refine ⟨?_, ?_, hs.numbered⟩
  · intro w
    by_cases hw : w = v
    · subst hw
      simpa using hst
    · rw [commit_node_of_ne hw]
      exact hs.static w
  · intro u w hadj r hr hre q hq hqe hcrash
    by_cases hu : u = v
    · subst hu
      have hne : w ≠ u := hadj.ne.symm
      rw [commit_node_self] at hr hre ⊢
      rw [commit_node_of_ne hne] at hq hqe hcrash ⊢
      rw [hsame.nodes] at hr
      rw [hsame.endpoint] at hre
      exact htx w hadj r hr hre _ (hs.consecutive u w hadj r hr hre q hq hqe hcrash)
    · rw [commit_node_of_ne hu] at hr hre ⊢
      rw [commit_flight_of_ne hu]
      by_cases hw : w = v
      · subst hw
        rw [commit_node_self] at hq hqe hcrash ⊢
        rw [hsame.nodes] at hq
        rw [hsame.endpoint] at hqe
        obtain ⟨hcrash, hawait⟩ := haw hcrash
        rw [hawait]
        exact hs.consecutive u w hadj r hr hre q hq hqe hcrash
      · rw [commit_node_of_ne hw] at hq hqe hcrash ⊢
        exact hs.consecutive u w hadj r hr hre q hq hqe hcrash

/-- A Sender's action moves lines along the links of its node. -/
theorem sender_flight {env : Env} {out : Node.Outcome Addr (Line Addr Text)}
    (h : Sender.step (s.node v) env = some out) (hf : env.sendFails = false)
    (hs : (s.node v).Static (G.neighborSet v)) :
    ((∀ w, G.Adj v w → out.1.owed w = (s.node v).owed w) ∧
        (∀ w, (s.commit v out).flight v w = s.flight v w) ∧
        ∀ r, (out.1.heap r).sent = ((s.node v).heap r).sent) ∨
      ∃ c ∈ (s.node v).nodes, ∃ line : Line Addr Text,
        (∀ w, (s.node v).owed w =
          out.1.owed w + if w = ((s.node v).heap c).endpoint then {line.id} else 0) ∧
        (∀ w, (s.commit v out).flight v w = s.flight v w ++
          if w = ((s.node v).heap c).endpoint then [(((s.node v).heap c).sent + 1, line)] else []) ∧
        ∀ r, (out.1.heap r).sent = ((s.node v).heap r).sent + if r = c then 1 else 0 := by
  obtain ⟨n', out⟩ := out
  cases Sender.step_move h hf hs with
  | pass howed hleaving hsent =>
    refine Or.inl ⟨fun w hw => howed w hw, fun w => ?_, hsent⟩
    rw [commit_flight_self, hleaving]
    rfl
  | issue c line hc hout howed hleaving hsent =>
    refine Or.inr ⟨c, hc, line, howed, fun w => ?_, hsent⟩
    subst hout
    rw [commit_flight_self, hleaving, flight, ← List.append_assoc]
    simp [emitted]

theorem sender_step {env : Env} (h : step s (.sender v env) = some t) (hs : Steady G s) :
    Steady G t ∧ Flood.Step G Prod.fst s.view t.view := by
  simp only [step] at h
  split at h
  · cases h
  rename_i hf
  obtain ⟨out, hout, rfl⟩ := Option.map_eq_some_iff.mp h
  obtain ⟨hst, hsame, hrec, harr, hawait⟩ := Sender.step_static hout (hs.static v)
  have hentering : ∀ e, out.1.entering e = (s.node v).entering e := by
    intro e
    simp [Node.entering, hrec]
  have harrivals : ∀ w, (s.commit v out).view.arrivals w = s.view.arrivals w := by
    intro w
    by_cases hw : w = v
    · subst hw
      simp [view, harr]
    · simp [view, commit_node_of_ne hw]
  have hin : ∀ w, ∀ e, ((s.commit v out).node w).entering e = (s.node w).entering e := by
    intro w e
    by_cases hw : w = v
    · subst hw
      simp [hentering]
    · simp [commit_node_of_ne hw]
  have hint : (s.commit v out).view.intact → s.view.intact := by
    intro hi w
    by_cases hw : w = v
    · subst hw
      simpa [hrec] using hi w
    · simpa [commit_node_of_ne hw] using hi w
  rcases sender_flight hout (by simpa using hf) (hs.static v) with
    ⟨howed, hflight, hsent⟩ | ⟨c, hc, line, howed, hflight, hsent⟩
  · constructor
    · refine steady_commit hs hst hsame (fun hn => ⟨hrec ▸ hn, hawait⟩) ?_
      intro w _ r _ _ next hnext
      rw [hflight, hsent]
      exact hnext
    · refine .idle harrivals ?_ ?_ hint
      · intro u w hadj
        by_cases hu : u = v
        · subst hu
          simpa [view] using howed w hadj
        · simp [view, commit_node_of_ne hu]
      · intro u w hadj
        by_cases hu : u = v
        · subst hu
          simp [view, hflight, hin]
        · simp [view, commit_flight_of_ne hu, hin]
  · constructor
    · refine steady_commit hs hst hsame (fun hn => ⟨hrec ▸ hn, hawait⟩) ?_
      intro w _ r hr hre next hnext
      rw [hflight, hsent]
      by_cases hrc : r = c
      · subst hrc
        simpa [hre] using hnext.snoc
      · have hne : w ≠ ((s.node v).heap c).endpoint := by
          rintro rfl
          exact hrc ((hs.static v).inj r hr c hc hre)
        simpa [hne, hrc] using hnext
    · refine .send v ((s.node v).heap c).endpoint line.id harrivals ?_ ?_ hint
      · intro u w _
        by_cases hu : u = v
        · subst hu
          simpa [view] using howed w
        · simp [view, commit_node_of_ne hu, hu]
      · intro u w _
        by_cases hu : u = v
        · subst hu
          by_cases hw : w = ((s.node u).heap c).endpoint
          · simp [view, hflight, hin, hw, ids, ← Multiset.coe_add, add_right_comm]
          · simp [view, hflight, hin, hw]
        · simp [view, commit_flight_of_ne hu, hin, hu]

theorem flight_of_sameTx (out : Node.Outcome Addr (Line Addr Text))
    (htx : (s.node v).SameTx out.1) (hout : ∀ e, emitted e out.2 = none) (u w : Endpoint Addr) :
    (s.commit v out).flight u w = s.flight u w := by
  by_cases hu : u = v
  · subst hu
    rw [commit_flight_self, hout, htx.leaving]
    rfl
  · rw [commit_flight_of_ne hu]

theorem effect_step {n : Node Addr (Line Addr Text)} {o : Option (Send Addr (Line Addr Text))}
    (he : Reciever.Effect (G.neighborSet v) (s.node v) n) (hnone : ∀ e, emitted e o = none)
    (hs : Steady G s) :
    Steady G (s.commit v (n, o)) ∧ Flood.Step G Prod.fst s.view (s.commit v (n, o)).view := by
  obtain ⟨hmove, hst, hsame, htx, hawait, halive, halive'⟩ := he
  have hflight := flight_of_sameTx (n, o) htx hnone
  have hint : (s.commit v (n, o)).view.intact → s.view.intact := by
    intro hi w
    by_cases hw : w = v
    · exact hw ▸ halive
    · simpa [commit_node_of_ne hw] using hi w
  constructor
  · refine steady_commit hs hst hsame (fun _ => ⟨halive, hawait⟩) ?_
    intro w _ r _ _ next hnext
    rw [hflight, htx.sent]
    exact hnext
  · cases hmove with
    | pass howed hentering harrived =>
      refine .idle ?_ ?_ ?_ hint
      · intro w
        by_cases hw : w = v
        · subst hw
          simp [view, harrived]
        · simp [view, commit_node_of_ne hw]
      · intro u w _
        by_cases hu : u = v
        · subst hu
          simp [view, howed]
        · simp [view, commit_node_of_ne hu]
      · intro u w _
        by_cases hw : w = v
        · subst hw
          simp [view, hflight, hentering]
        · simp [view, hflight, commit_node_of_ne hw]
    | take source line hsrc howed hentering harrived =>
      refine .take source v line.id (G.adj_symm hsrc) ?_ ?_ ?_ hint
      · intro w
        by_cases hw : w = v
        · subst hw
          simp [view, harrived, ← add_assoc]
        · simp [view, commit_node_of_ne hw, hw]
      · intro u w _
        by_cases hu : u = v
        · subst hu
          simp [view, howed]
        · simp [view, commit_node_of_ne hu, hu]
      · intro u w _
        by_cases hw : w = v
        · subst hw
          simp [view, hflight, hentering, ← add_assoc]
        · simp [view, hflight, commit_node_of_ne hw, hw]

theorem reciever_step {env : Env} (h : step s (.reciever v env) = some t) (hs : Steady G s) :
    Steady G t ∧ Flood.Step G Prod.fst s.view t.view := by
  simp only [step] at h
  split at h
  · cases h
  · rename_i hf
    obtain ⟨⟨n, o⟩, hout, rfl⟩ := Option.map_eq_some_iff.mp h
    obtain ⟨he, hnone⟩ := Reciever.step_effect hout (by simpa using hf) (hs.static v)
    exact effect_step he hnone hs

theorem confirm_step {env : Env} (h : step s (.confirm u v env) = some t) (hs : Steady G s) :
    Steady G t ∧ Flood.Step G Prod.fst s.view t.view := by
  obtain ⟨n, hn, rfl⟩ := Option.map_eq_some_iff.mp h
  exact effect_step (Reciever.confirm_effect hn (hs.static v)) (fun _ => rfl) hs

/-- A line with the next number enters the flood at the node it was typed at. -/
theorem typed_step {line : Line Addr Text} {n : Node Addr (Line Addr Text)}
    (hn : Main.readLine (s.node v) line = some n) (hid : line.id = (v, (s.typed v).length))
    (ht : t = { s.commit v (n, none) with
      typed := Function.update s.typed v (s.typed v ++ [line]) }) (hs : Steady G s) :
    Steady G t ∧ Flood.Step G Prod.fst s.view t.view := by
  obtain ⟨hsend, hrec, hheap, hnodes, hacc, howed⟩ := Main.readLine_lines hn
  have hflight : ∀ u w, t.flight u w = s.flight u w := by
    intro u w
    have htx : (s.node v).SameTx n := Node.sameTx_of_heap hsend (by simp [hheap]) (by simp [hheap])
    rw [ht]
    exact flight_of_sameTx (n, none) htx (fun _ => rfl) u w
  have hnode : t.node v = n := by simp [ht]
  have hother : ∀ w, w ≠ v → t.node w = s.node w ∧ t.typed w = s.typed w := by
    intro w hw
    simp [ht, hw, commit_node_of_ne hw]
  have htyped : t.typed v = s.typed v ++ [line] := by simp [ht]
  have hsame : (s.node v).SameNodes n := ⟨hnodes, by simp [hheap]⟩
  have hsteady : Steady G (s.commit v (n, none)) := by
    refine steady_commit hs ?_ hsame ?_ ?_
    · exact (hs.static v).congr hsame (by simpa [hsend] using (hs.static v).refs)
        (by simpa [hrec] using (hs.static v).handling)
    · simp [hrec, Node.awaited, hheap]
    · intro w _ r _ _ next hnext
      have heq : (s.commit v (n, none)).flight v w = s.flight v w := by
        rw [← hflight, ht]
        rfl
      simpa [heq, hheap] using hnext
  constructor
  · refine ⟨?_, ?_, ?_⟩
    · rw [ht]
      exact hsteady.static
    · rw [ht]
      exact hsteady.consecutive
    · intro w i hi
      by_cases hw : w = v
      · subst hw
        simp only [htyped, List.length_append, List.length_singleton] at hi ⊢
        rcases Nat.lt_succ_iff_lt_or_eq.mp hi with hlt | rfl
        · rw [List.getElem_append_left hlt]
          exact hs.numbered w i hlt
        · simp [hid]
      · simp only [(hother w hw).2] at hi ⊢
        exact hs.numbered w i hi
  · refine .enter line.id ?_ ?_ ?_ ?_ ?_
    · intro hmem
      rw [hid] at hmem
      simp only [view, Node.arrived, Multiset.mem_add, Multiset.mem_coe, List.mem_map] at hmem
      rcases hmem with ⟨l, hl, he⟩ | ⟨x, hx, he⟩
      · obtain ⟨i, hi, rfl⟩ := List.mem_iff_getElem.mp hl
        have := hs.numbered v i hi
        simp only [Prod.mk.injEq, true_and, this] at he
        omega
      · simp at he
    · intro w
      by_cases hw : w = v
      · subst hw
        simp [view, hnode, htyped, Node.arrived, hacc, hheap, hid, ← Multiset.coe_add,
          add_right_comm]
      · simp [view, (hother w hw).1, (hother w hw).2, hw, hid]
    · intro u w _
      by_cases hu : u = v
      · subst hu
        simp [view, hnode, howed, hid]
      · simp [view, (hother u hu).1, hu, hid]
    · intro u w _
      by_cases hw : w = v
      · subst hw
        simp [view, hflight, hnode, Node.entering, hrec]
      · simp [view, hflight, (hother w hw).1]
    · intro hi w
      have hiw := hi w
      by_cases hw : w = v
      · subst hw
        simpa [view, hnode, hrec] using hiw
      · simpa [view, (hother w hw).1] using hiw

theorem readLine_step {text : Text} (h : step s (.readLine v text) = some t) (hs : Steady G s) :
    Steady G t ∧ Flood.Step G Prod.fst s.view t.view := by
  obtain ⟨n, hn, rfl⟩ := Option.map_eq_some_iff.mp h
  exact typed_step hn rfl rfl hs

/-- `v` took the oldest message off the link from `u`, and its Reciever is at `pc`. -/
def delivered (s : Net Addr Text) (u v : Endpoint Addr) (rest : List (Nat × Line Addr Text))
    (pc : RecieverPc Addr (Line Addr Text)) : Net Addr Text :=
  { s.commit v ({ s.node v with reciever := pc }, none) with
    link := Function.update s.link u (Function.update (s.link u) v rest) }

section Delivered
variable {rest : List (Nat × Line Addr Text)} {pc : RecieverPc Addr (Line Addr Text)}
  {m : Nat × Line Addr Text}

theorem delivered_node_self :
    (s.delivered u v rest pc).node v = { s.node v with reciever := pc } := by
  simp [delivered]

theorem delivered_node_of_ne (h : w ≠ v) : (s.delivered u v rest pc).node w = s.node w := by
  simp [delivered, commit_node_of_ne h]

theorem delivered_leaving (x y : Endpoint Addr) :
    ((s.delivered u v rest pc).node x).leaving y = (s.node x).leaving y := by
  by_cases hx : x = v
  · subst hx
    rw [delivered_node_self]
    rfl
  · rw [delivered_node_of_ne hx]

theorem delivered_flight (pc : RecieverPc Addr (Line Addr Text)) (h : s.link u v = m :: rest) :
    s.flight u v = m :: (s.delivered u v rest pc).flight u v := by
  rw [flight, flight, delivered_leaving, h]
  simp [delivered]

theorem delivered_flight_of_ne {x y : Endpoint Addr} (h : ¬ (x = u ∧ y = v)) :
    (s.delivered u v rest pc).flight x y = s.flight x y := by
  rw [flight, flight, delivered_leaving]
  by_cases hx : x = u
  · have hy : y ≠ v := fun hy => h ⟨hx, hy⟩
    simp [delivered, hx, hy]
  · simp [delivered, hx]

theorem delivered_ids (pc : RecieverPc Addr (Line Addr Text)) (h : s.link u v = m :: rest)
    (x y : Endpoint Addr) :
    ids (s.flight x y) = ids ((s.delivered u v rest pc).flight x y) +
      if x = u ∧ y = v then {m.2.id} else 0 := by
  by_cases hxy : x = u ∧ y = v
  · obtain ⟨rfl, rfl⟩ := hxy
    rw [delivered_flight pc h]
    simp [ids, ← Multiset.cons_coe, add_comm]
  · simp [delivered_flight_of_ne hxy, hxy]

theorem delivered_owed (x y : Endpoint Addr) :
    ((s.delivered u v rest pc).node x).owed y = (s.node x).owed y := by
  by_cases hx : x = v
  · subst hx
    rw [delivered_node_self]
    rfl
  · rw [delivered_node_of_ne hx]

theorem delivered_arrivals (x : Endpoint Addr) :
    (s.delivered u v rest pc).view.arrivals x = s.view.arrivals x := by
  by_cases hx : x = v
  · subst hx
    simp only [view, delivered_node_self]
    rfl
  · simp only [view, delivered_node_of_ne hx]
    rfl

theorem delivered_static (hs : (s.node v).Static (G.neighborSet v))
    (hpc : ∀ c e, pc.handling = some (c, e) →
      c ∈ (s.node v).nodes ∧ ((s.node v).heap c).endpoint = e) :
    ((s.delivered u v rest pc).node v).Static (G.neighborSet v) := by
  rw [delivered_node_self]
  exact hs.congr ⟨rfl, fun _ => rfl⟩ hs.refs hpc

/-- Only the link from `u` and what `v` awaits on it may change. -/
theorem steady_delivered (hs : Steady G s)
    (hpc : ∀ c e, pc.handling = some (c, e) →
      c ∈ (s.node v).nodes ∧ ((s.node v).heap c).endpoint = e)
    (hrec : (s.node v).reciever ≠ .crashed)
    (hu : pc ≠ .crashed → G.Adj u v → ∀ q ∈ (s.node v).nodes, ((s.node v).heap q).endpoint = u →
      ∀ last, Consecutive ((s.flight u v).map Prod.fst) ((s.node v).awaited q) last →
        Consecutive (((s.delivered u v rest pc).flight u v).map Prod.fst)
          (Node.awaited { s.node v with reciever := pc } q) last)
    (hother : ∀ q ∈ (s.node v).nodes, ((s.node v).heap q).endpoint ≠ u →
      Node.awaited { s.node v with reciever := pc } q = (s.node v).awaited q) :
    Steady G (s.delivered u v rest pc) := by
  have hheap : ∀ x r, ((s.delivered u v rest pc).node x).heap r = (s.node x).heap r := by
    intro x r
    by_cases hx : x = v
    · subst hx
      rw [delivered_node_self]
    · rw [delivered_node_of_ne hx]
  have hnodes : ∀ x, ((s.delivered u v rest pc).node x).nodes = (s.node x).nodes := by
    intro x
    by_cases hx : x = v
    · subst hx
      rw [delivered_node_self]
    · rw [delivered_node_of_ne hx]
  refine ⟨?_, ?_, hs.numbered⟩
  · intro x
    by_cases hx : x = v
    · subst hx
      exact delivered_static (hs.static x) hpc
    · rw [delivered_node_of_ne hx]
      exact hs.static x
  · intro x y hadj r hr hre q hq hqe hcrash
    rw [hnodes] at hr hq
    rw [hheap] at hre hqe ⊢
    by_cases hy : y = v
    · subst hy
      have hold := hs.consecutive x y hadj r hr hre q hq hqe hrec
      rw [delivered_node_self] at hcrash ⊢
      by_cases hx : x = u
      · subst hx
        exact hu hcrash hadj q hq hqe _ hold
      · rw [delivered_flight_of_ne (fun h => hx h.1), hother q hq (hqe ▸ hx)]
        exact hold
    · rw [delivered_node_of_ne hy] at hcrash ⊢
      rw [delivered_flight_of_ne (fun h => hy h.2)]
      exact hs.consecutive x y hadj r hr hre q hq hqe hcrash

end Delivered

/-- The first uid on a link is the one its receiver awaits. -/
theorem awaited_of_link {uid : Nat} {line : Line Addr Text} {rest : List (Nat × Line Addr Text)}
    {q : Ref} (hs : Steady G s) (hadj : G.Adj u v) (hlink : s.link u v = (uid, line) :: rest)
    (hq : q ∈ (s.node v).nodes) (hqe : ((s.node v).heap q).endpoint = u)
    (hrec : (s.node v).reciever ≠ .crashed) : uid = (s.node v).awaited q := by
  obtain ⟨r, hr, hre⟩ := (hs.static u).ref v hadj
  have hc := hs.consecutive u v hadj r hr hre q hq hqe hrec
  rw [delivered_flight .check hlink] at hc
  exact hc.cons.1

theorem deliver_step {env : Env} (h : step s (.deliver u v env) = some t) (hs : Steady G s) :
    Steady G t ∧ Flood.Step G Prod.fst s.view t.view := by
  simp only [step] at h
  split at h <;> try contradiction
  rename_i uid line rest hlink
  split at h <;> try contradiction
  rename_i hdraw
  obtain ⟨n, hn, rfl⟩ := Option.map_eq_some_iff.mp h
  have hst := hs.static v
  rcases Reciever.receive_message hn hdraw hst with ⟨hpc, ⟨hnot, rfl⟩ | ⟨q, hq, hqe, hcase⟩⟩
  · have hnadj : ¬ G.Adj u v := fun hadj => hnot (G.adj_symm hadj)
    change Steady G (s.delivered u v rest .check) ∧
      Flood.Step G Prod.fst s.view (s.delivered u v rest .check).view
    refine ⟨steady_delivered hs (by simp [RecieverPc.handling]) (by simp [hpc])
      (fun _ hadj => (hnadj hadj).elim) (fun q _ _ => by simp [Node.awaited, hpc]),
      .idle delivered_arrivals (fun x y _ => delivered_owed x y) ?_ ?_⟩
    · intro x y hadj
      have hother : ¬ (x = u ∧ y = v) := by
        rintro ⟨rfl, rfl⟩
        exact hnadj hadj
      simp only [view]
      rw [delivered_flight_of_ne hother]
      by_cases hy : y = v
      · subst hy
        simp [delivered_node_self, Node.entering, hpc]
      · rw [delivered_node_of_ne hy]
    · intro hi x
      by_cases hx : x = v
      · subst hx
        simp [hpc]
      · simpa [view, delivered_node_of_ne hx] using hi x
  · have hadj : G.Adj u v := (hqe ▸ hst.mem q hq : u ∈ G.neighborSet v).symm
    have huid := awaited_of_link hs hadj hlink hq hqe (by simp [hpc])
    have hawait : (s.node v).awaited q = ((s.node v).heap q).recieved := by
      simp [Node.awaited, hpc]
    rcases hcase with rfl | ⟨-, rfl⟩ | ⟨hne, -⟩
    · change Steady G (s.delivered u v rest .crashed) ∧
        Flood.Step G Prod.fst s.view (s.delivered u v rest .crashed).view
      refine ⟨steady_delivered hs (by simp [RecieverPc.handling]) (by simp [hpc])
        (fun hne => (hne rfl).elim) (fun q _ _ => by simp [Node.awaited, hpc]),
        .drop delivered_arrivals (fun x y _ => delivered_owed x y) ?_ ?_⟩
      · intro x y _
        simp only [view, delivered_ids .crashed hlink x y]
        by_cases hy : y = v
        · subst hy
          simp [delivered_node_self, Node.entering, hpc]
        · simp [delivered_node_of_ne hy, hy]
      · intro hi
        exact hi v (by rw [delivered_node_self])
    · change Steady G (s.delivered u v rest (.put q u uid line)) ∧
        Flood.Step G Prod.fst s.view (s.delivered u v rest (.put q u uid line)).view
      refine ⟨steady_delivered hs ?_ (by simp [hpc]) ?_ ?_,
        .idle delivered_arrivals (fun x y _ => delivered_owed x y) ?_ ?_⟩
      · rintro c e ⟨⟩
        exact ⟨hq, hqe⟩
      · intro _ _ q' hq' hqe' last hc
        obtain rfl := hst.inj q hq q' hq' (hqe.trans hqe'.symm)
        rw [delivered_flight (.put q u uid line) hlink] at hc
        simpa [Node.awaited, hpc] using hc.cons.2
      · intro q' _ hqe'
        have hqq : q ≠ q' := fun heq => hqe' (heq ▸ hqe)
        simp [Node.awaited, hpc, hqq]
      · intro x y _
        simp only [view, delivered_ids (.put q u uid line) hlink x y]
        by_cases hy : y = v
        · subst hy
          simp [delivered_node_self, Node.entering, hpc, eq_comm]
        · simp [delivered_node_of_ne hy, hy]
      · intro hi x
        by_cases hx : x = v
        · subst hx
          simp [hpc]
        · simpa [view, delivered_node_of_ne hx] using hi x
    · exact (hne (hawait.symm.trans huid.symm)).elim

/-- Every step of the network is a step of the flood. -/
theorem steady_step {a : Action Addr Text} (h : step s a = some t) (hs : Steady G s) :
    Steady G t ∧ Flood.Step G Prod.fst s.view t.view := by
  cases a with
  | readLine v text => exact readLine_step h hs
  | sender v env => exact sender_step h hs
  | reciever v env => exact reciever_step h hs
  | deliver u v env => exact deliver_step h hs
  | confirm u v env => exact confirm_step h hs

theorem flooding_trInv (hG : G.IsAcyclic) :
    LTS.TrInv lts fun s : Net Addr Text => Steady G s ∧ Flooding G Prod.fst s.view := by
  rintro s a t h ⟨hs, hf⟩
  obtain ⟨ht, hstep⟩ := steady_step h hs
  exact ⟨ht, flooding_step hG hstep hf⟩

/-- Nodes that know the neighbours the forest gives them and have done nothing yet. -/
structure Started (G : SimpleGraph (Endpoint Addr)) (s : Net Addr Text) : Prop where
  static : ∀ v, (s.node v).Static (G.neighborSet v)
  sender : ∀ v, (s.node v).sender = .get
  reciever : ∀ v, (s.node v).reciever = .receive
  messageQueue : ∀ v, (s.node v).messageQueue.container = []
  counters : ∀ v, ∀ r ∈ (s.node v).nodes,
    ((s.node v).heap r).sent = 0 ∧ ((s.node v).heap r).recieved = 1
  accepted : ∀ v, (s.node v).accepted = []
  link : ∀ u v, s.link u v = []
  typed : ∀ v, s.typed v = []

/-- All queues and links are empty, and no thread holds a message it took out of one. -/
structure Quiet (G : SimpleGraph (Endpoint Addr)) (s : Net Addr Text) : Prop where
  messageQueue : ∀ v, (s.node v).messageQueue.container = []
  sender : ∀ v, (s.node v).sender.broadcasting = false
  reciever : ∀ v, (s.node v).reciever.betweenIterations = true
  link : ∀ u v, G.Adj u v → s.link u v = []

/-- How often node `v` has accepted the line that was typed as number `k` at `o`. -/
def acceptances (s : Net Addr Text) (v o : Endpoint Addr) (k : Nat) : Nat :=
  (s.node v).accepted.countP fun a => a.2.2.id = (o, k)

theorem view_accepted (s : Net Addr Text) (v o : Endpoint Addr) (k : Nat) :
    s.view.accepted v (o, k) = s.acceptances v o k := by
  simp [State.accepted, view, Node.arrived, acceptances, List.countP_map,
    Function.comp_def]

theorem Started.steady (hs : Started G s) : Steady G s := by
  refine ⟨hs.static, ?_, by simp [hs.typed]⟩
  intro u w _ r hr _ q hq _ _
  simp [flight, hs.link, Node.leaving, hs.sender, Node.awaited, hs.reciever, Consecutive,
    (hs.counters u r hr).1, (hs.counters w q hq).2]

theorem Started.flooding (hs : Started G s) : Flooding G Prod.fst s.view := by
  have harr : ∀ v, s.view.arrivals v = 0 := by
    simp [view, hs.typed, Node.arrived, hs.accepted]
  have hzero : ∀ u w x, s.view.along u w x = 0 := by
    intro u w x
    simp [State.along, harr]
    simp [view, Node.owed, hs.messageQueue, hs.sender, SenderPc.passing, flight, hs.link, ids,
      Node.leaving, Node.entering, hs.reciever]
  refine ⟨by simp [harr], by simp [harr], by simp [harr], ?_, ?_, ?_⟩
  · intro u w x _ hne
    exact (hne (hzero u w x)).elim
  · intro u w x _
    rw [hzero]
    exact Nat.zero_le _
  · intro _ u w x _
    simp [hzero, State.due, harr]

theorem Quiet.empty (hq : Quiet G s) (u w : Endpoint Addr) (h : G.Adj u w) :
    s.view.owed u w = 0 ∧ s.view.wire u w = 0 := by
  have hsend := hq.sender u
  have hrec := hq.reciever w
  constructor
  · have hpass : (s.node u).sender.passing = none := by
      cases hpc : (s.node u).sender <;> simp_all [SenderPc.broadcasting, SenderPc.passing]
    simp [view, Node.owed, hq.messageQueue, hpass]
  · have hleave : (s.node u).leaving w = [] := by
      cases hpc : (s.node u).sender <;> simp_all [SenderPc.broadcasting, Node.leaving]
    have henter : (s.node w).entering u = 0 := by
      cases hpc : (s.node w).reciever <;> simp_all [RecieverPc.betweenIterations, Node.entering]
    simp [view, flight, hq.link u w h, hleave, henter, ids]

theorem Quiet.intact (hq : Quiet G s) : s.view.intact := by
  intro v hc
  have := hq.reciever v
  simp [hc, RecieverPc.betweenIterations] at this

/-- In a forest of nodes a typed line is accepted once at most by every other node and never
where it was typed; when everything is empty, exactly the rest of its tree has it. -/
theorem flooded_once {xs : List (Action Addr Text)} {o : Endpoint Addr} {k : Nat}
    (hG : G.IsAcyclic) (hs : Started G s) (h : lts.MTr s xs t) (hk : k < (t.typed o).length) :
    (∀ v, v ≠ o → t.acceptances v o k ≤ 1) ∧ t.acceptances o o k = 0 ∧
      (Quiet G t → ∀ v, v ≠ o →
        (G.Reachable o v → t.acceptances v o k = 1) ∧
        (¬ G.Reachable o v → t.acceptances v o k = 0)) := by
  obtain ⟨hst, hf⟩ := LTS.mTr_of_trInv (flooding_trInv hG) h ⟨hs.steady, hs.flooding⟩
  have hentered : (none, (o, k)) ∈ t.view.arrivals o := by
    have hid := hst.numbered o k hk
    simp only [view, Multiset.mem_add, Multiset.mem_coe, List.mem_map]
    exact Or.inl ⟨_, List.getElem_mem hk, by rw [hid]⟩
  refine ⟨fun v _ => ?_, ?_, fun hq v hv => ⟨fun hr => ?_, fun hr => ?_⟩⟩
  · rw [← view_accepted]
    exact hf.accepted_le_one hG v (o, k)
  · rw [← view_accepted]
    exact hf.accepted_root
  · rw [← view_accepted]
    exact hf.accepted_quiet hG hq.intact (fun u w h => (hq.empty u w h).1)
      (fun u w h => (hq.empty u w h).2) hentered hr hv
  · rw [← view_accepted]
    exact hf.accepted_unreachable hr

/-- The node that acts. -/
def Action.actor : Action Addr Text → Endpoint Addr
  | .readLine v _ | .sender v _ | .reciever v _ | .deliver _ v _ | .confirm _ v _ => v

theorem step_node_of_ne {a : Action Addr Text} (h : step s a = some t) (hv : v ≠ a.actor) :
    t.node v = s.node v := by
  cases a with
  | readLine w text | confirm u w env =>
    obtain ⟨n, -, rfl⟩ := Option.map_eq_some_iff.mp h
    exact commit_node_of_ne hv
  | sender w env | reciever w env =>
    simp only [step] at h
    split at h
    · cases h
    · obtain ⟨out, -, rfl⟩ := Option.map_eq_some_iff.mp h
      exact commit_node_of_ne hv
  | deliver u w env =>
    simp only [step] at h
    (repeat' split at h) <;> try contradiction
    obtain ⟨n, -, rfl⟩ := Option.map_eq_some_iff.mp h
    exact commit_node_of_ne hv

/-- A node that never acts stays as it is. -/
theorem mTr_node_of_ne {xs : List (Action Addr Text)} (h : lts.MTr s xs t)
    (hv : ∀ a ∈ xs, v ≠ a.actor) : t.node v = s.node v := by
  induction h with
  | refl => rfl
  | stepL h _ ih =>
    rw [ih fun a ha => hv a (List.mem_cons_of_mem _ ha)]
    exact step_node_of_ne h (hv _ List.mem_cons_self)

omit [DecidableEq Addr] in
theorem static_start {τ : Type} (self : Endpoint Addr) (name : String) (failPercent : Nat) :
    (Server.start self name failPercent : Node Addr τ).Static ∅ := by
  constructor <;> simp [Server.start, SenderPc.refs, RecieverPc.handling]

omit [DecidableEq Addr] in
theorem static_connect {τ : Type} (self e : Endpoint Addr) (name reply : String)
    (failPercent : Nat) :
    (Server.connect (Server.start self name failPercent) e reply : Node Addr τ).Static {e} := by
  have hnodes : (Server.connect (Server.start self name failPercent) e reply : Node Addr τ).nodes =
      [0] := rfl
  have hend : ((Server.connect (Server.start self name failPercent) e reply : Node Addr τ).heap
      0).endpoint = e := rfl
  refine ⟨?_, ?_, ?_, ?_, ?_, ?_⟩ <;> try simp [hnodes, hend]
  · intro r hr
    cases hr
  · rintro c e' ⟨⟩

/-- Two nodes that know each other among nodes that know nobody. -/
def couple (v : Endpoint Nat) : Node Nat (Line Nat String) :=
  if v = ⟨1, 5000⟩ then Server.connect (Server.start v "a" 0) ⟨2, 5000⟩ "b"
  else if v = ⟨2, 5000⟩ then Server.connect (Server.start v "b" 0) ⟨1, 5000⟩ "a"
  else Server.start v "" 0

def coupleGraph : SimpleGraph (Endpoint Nat) := SimpleGraph.edge ⟨1, 5000⟩ ⟨2, 5000⟩

theorem coupleGraph_adj {u v : Endpoint Nat} : coupleGraph.Adj u v ↔
    u = ⟨1, 5000⟩ ∧ v = ⟨2, 5000⟩ ∨ u = ⟨2, 5000⟩ ∧ v = ⟨1, 5000⟩ := by
  simp only [coupleGraph, SimpleGraph.edge_adj]
  grind

theorem coupleGraph_isAcyclic : coupleGraph.IsAcyclic := by
  have h := (SimpleGraph.isAcyclic_add_edge_iff_of_not_reachable
    (G := (⊥ : SimpleGraph (Endpoint Nat))) ⟨1, 5000⟩ ⟨2, 5000⟩ (by simp)).mpr
      SimpleGraph.isAcyclic_bot
  simpa [coupleGraph] using h

def coupleStart : Net Nat String := ⟨couple, fun _ _ => [], fun _ => []⟩

/-- A line typed at the first node, until both have nothing left to do. -/
def coupleRun : List (Action Nat String) :=
  [.readLine ⟨1, 5000⟩ "hi", .sender ⟨1, 5000⟩ (.calm 0), .sender ⟨1, 5000⟩ (.calm 0),
    .sender ⟨1, 5000⟩ (.calm 0), .deliver ⟨1, 5000⟩ ⟨2, 5000⟩ (.calm 0),
    .reciever ⟨2, 5000⟩ (.calm 0), .reciever ⟨2, 5000⟩ (.calm 0), .reciever ⟨2, 5000⟩ (.calm 0),
    .sender ⟨2, 5000⟩ (.calm 0), .sender ⟨2, 5000⟩ (.calm 0), .sender ⟨2, 5000⟩ (.calm 0),
    .sender ⟨2, 5000⟩ (.calm 0), .sender ⟨1, 5000⟩ (.calm 0), .sender ⟨1, 5000⟩ (.calm 0),
    .sender ⟨1, 5000⟩ (.calm 0)]

theorem started_couple : Started coupleGraph coupleStart := by
  have hcases : ∀ v : Endpoint Nat, v = ⟨1, 5000⟩ ∨ v = ⟨2, 5000⟩ ∨
      (couple v = Server.start v "" 0 ∧ coupleGraph.neighborSet v = ∅) := by
    intro v
    by_cases ha : v = ⟨1, 5000⟩
    · exact Or.inl ha
    · by_cases hb : v = ⟨2, 5000⟩
      · exact Or.inr (Or.inl hb)
      · refine Or.inr (Or.inr ⟨by simp [couple, ha, hb], ?_⟩)
        ext w
        simp [coupleGraph_adj, ha, hb]
  have hset : coupleGraph.neighborSet ⟨1, 5000⟩ = {⟨2, 5000⟩} ∧
      coupleGraph.neighborSet ⟨2, 5000⟩ = {⟨1, 5000⟩} := by
    constructor <;>
    · ext w
      simp [coupleGraph_adj]
  refine ⟨?_, ?_, ?_, ?_, ?_, ?_, fun _ _ => rfl, fun _ => rfl⟩
  · intro v
    rcases hcases v with rfl | rfl | ⟨hn, hs⟩
    · rw [hset.1]
      exact static_connect ⟨1, 5000⟩ ⟨2, 5000⟩ "a" "b" 0
    · rw [hset.2]
      exact static_connect ⟨2, 5000⟩ ⟨1, 5000⟩ "b" "a" 0
    · change (couple v).Static (coupleGraph.neighborSet v)
      rw [hs, hn]
      exact static_start v "" 0
  case refine_5 =>
    intro v r hr
    rcases hcases v with rfl | rfl | ⟨hn, -⟩
    · obtain rfl : r = 0 := List.mem_singleton.mp hr
      exact ⟨rfl, rfl⟩
    · obtain rfl : r = 0 := List.mem_singleton.mp hr
      exact ⟨rfl, rfl⟩
    · change r ∈ (couple v).nodes at hr
      rw [hn] at hr
      cases hr
  all_goals
    intro v
    rcases hcases v with rfl | rfl | ⟨hn, -⟩
    · rfl
    · rfl
    · simp only [coupleStart, hn]
      rfl

def coupleEnd : Net Nat String := LTS.after step coupleStart coupleRun

theorem quiet_couple (h : lts.MTr coupleStart coupleRun coupleEnd) :
    Quiet coupleGraph coupleEnd := by
  have hcases : ∀ v : Endpoint Nat, v = ⟨1, 5000⟩ ∨ v = ⟨2, 5000⟩ ∨
      coupleEnd.node v = Server.start v "" 0 := by
    intro v
    by_cases ha : v = ⟨1, 5000⟩
    · exact Or.inl ha
    · by_cases hb : v = ⟨2, 5000⟩
      · exact Or.inr (Or.inl hb)
      · refine Or.inr (Or.inr ?_)
        rw [mTr_node_of_ne h]
        · simp [coupleStart, couple, ha, hb]
        · simp [coupleRun, Action.actor, ha, hb]
  refine ⟨?_, ?_, ?_, ?_⟩
  case refine_4 =>
    intro u v hadj
    rcases coupleGraph_adj.mp hadj with ⟨rfl, rfl⟩ | ⟨rfl, rfl⟩ <;> rfl
  all_goals
    intro v
    rcases hcases v with rfl | rfl | hn
    · rfl
    · rfl
    · rw [hn]
      rfl

theorem flooded_once_couple :
    coupleEnd.acceptances ⟨2, 5000⟩ ⟨1, 5000⟩ 0 = 1 ∧
      coupleEnd.acceptances ⟨1, 5000⟩ ⟨1, 5000⟩ 0 = 0 := by
  have h : lts.MTr coupleStart coupleRun coupleEnd := LTS.mTr_after (by decide)
  obtain ⟨-, hroot, hall⟩ := flooded_once (o := ⟨1, 5000⟩) (k := 0) coupleGraph_isAcyclic
    started_couple h (by decide)
  refine ⟨(hall (quiet_couple h) ⟨2, 5000⟩ (by decide)).1 ?_, hroot⟩
  exact (coupleGraph_adj.mpr (by simp)).reachable

end NetworkLabs.UdpChat.Net
