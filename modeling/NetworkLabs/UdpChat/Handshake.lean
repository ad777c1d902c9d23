import NetworkLabs.UdpChat.Restart

/-! The registration of a child with its parent, in any order of sends and deliveries. -/
namespace NetworkLabs.UdpChat

open Transition

variable {Addr τ : Type} {n n' : Node Addr τ} {env : Env} {thread : Thread}
  {out : Option (Send Addr τ)} {source e : Endpoint Addr} {p : Payload τ} {packet : Packet τ}

/-- What begins with one of the three type letters. -/
def Payload.typed : Payload τ → Bool
  | .message _ _ | .badMessage | .confirm | .register _ => true
  | .other | .unreadable => false

section Replies
variable [DecidableEq Addr]

/-- The Sender or the Checker is about to send a message to `e`. -/
def Node.sending (n : Node Addr τ) (e : Endpoint Addr) : Thread → Bool
  | .sender =>
    match n.sender with
    | .send _ _ client _ => decide ((n.heap client).endpoint = e)
    | _ => false
  | .checker =>
    match n.checker with
    | .send task => decide ((n.heap task.node).endpoint = e)
    | _ => false
  | .main | .reciever => false

/-- The Reciever is about to send the name to `e`. -/
def Node.replying (n : Node Addr τ) (e : Endpoint Addr) : Bool :=
  match n.reciever with
  | .reply newNode => decide ((n.heap newNode).endpoint = e)
  | _ => false

theorem Node.step_name (h : n.step thread env = some (n', out)) : n'.name = n.name := by
  cases thread with
  | main =>
    obtain ⟨queue, pc, stopping, stopping', rfl, -⟩ := Main.act_of_step h
    rfl
  | sender => cases Sender.act_of_step h <;> rfl
  | checker => cases Checker.act_of_step h <;> rfl
  | reciever => cases Reciever.act_of_step h <;> rfl

/-- No thread begins a reply: only a registration that comes in does. -/
theorem Node.step_replying (h : n.step thread env = some (n', out)) (hr : n'.replying e = true) :
    n.replying e = true := by
  have hend := (step_heap h).2.1
  have same (hpc : n'.reciever = n.reciever) : n.replying e = true := by
    simpa only [replying, hpc, hend] using hr
  cases thread with
  | main =>
    obtain ⟨queue, pc, stopping, stopping', rfl, -⟩ := Main.act_of_step h
    exact same rfl
  | sender => cases Sender.act_of_step h <;> exact same rfl
  | checker => cases Checker.act_of_step h <;> exact same rfl
  | reciever =>
    cases Reciever.act_of_step h with
    | check pc goesOn => rcases goesOn with ⟨rfl, -⟩ | ⟨rfl, -⟩ <;> simp [replying] at hr
    | _ => simp [replying] at hr

/-- What a thread may send: a message, a confirmation, or the reply that it was about to send. -/
theorem Node.step_sends (h : n.step thread env = some (n', some ⟨e, packet⟩)) :
    ((∃ uid text, packet = .datagram (.message uid text)) ∧ n.sending e thread = true ∧
      env.sendFails = false) ∨
    (packet = .datagram .confirm ∧ ∃ c, n.reciever.handling = some (c, e)) ∨
    (packet = .name n.name ∧ n.replying e = true ∧ n'.replying e = false) := by
  cases thread with
  | main =>
    obtain ⟨queue, pc, stopping, stopping', rfl, ho⟩ := Main.act_of_step h
    cases ho
  | sender =>
    cases Sender.act_of_step h with
    | sent pc sends => exact .inl ⟨⟨_, _, rfl⟩, by simp [sending, pc], sends⟩
  | checker =>
    cases Checker.act_of_step h with
    | sent pc sends => exact .inl ⟨⟨_, _, rfl⟩, by simp [sending, pc], sends⟩
  | reciever =>
    cases Reciever.act_of_step h with
    | @confirmed client source pc => exact .inr (.inl ⟨rfl, client, by rw [pc]; rfl⟩)
    | @replied newNode pc => exact .inr (.inr ⟨rfl, by simp [replying, pc], by simp [replying]⟩)

theorem Reciever.receive_name (h : Reciever.receive n source p env = some n') :
    n'.name = n.name := by
  cases took_of_receive h <;> rfl

theorem Reciever.receive_replying (h : Reciever.receive n source p env = some n')
    (hr : n'.replying e = true) : source = e ∧ ∃ name, p = .register name := by
  cases took_of_receive h with
  | passed pc ends => rcases ends with rfl | rfl <;> simp [Node.replying] at hr
  | accepted => simp [Node.replying, accept] at hr
  | delivered => simp [Node.replying] at hr
  | @registered name pc sent => exact ⟨by simpa [Node.replying] using hr, name, sent⟩

theorem Reciever.receive_handling (h : Reciever.receive n source p env = some n') {c : Ref}
    (hc : n'.reciever.handling = some (c, e)) : source = e ∧ ∃ uid text, p = .message uid text := by
  cases took_of_receive h with
  | passed pc ends => rcases ends with rfl | rfl <;> simp [RecieverPc.handling] at hc
  | @accepted client uid text pc sent =>
    simp only [accept, RecieverPc.handling, Option.some.injEq, Prod.mk.injEq] at hc
    exact ⟨hc.2, uid, text, sent⟩
  | delivered | registered => simp [RecieverPc.handling] at hc

end Replies

namespace Restart

variable {s t : Restart Addr τ} {addr : Side → Endpoint Addr} {w : Wire τ}
  {net : List (Side × Packet τ)}

/-- One start of the child, and a network that repeats nothing and lets no other node in. -/
def once : Action Addr τ → Bool
  | .stop | .duplicate _ | .connectOutside _ => false
  | _ => true

/-- The child takes the parent's name as the answer, and its Reciever reads no name as a datagram
that means something. -/
def Answered (w : Wire τ) (s t : Restart Addr τ) : Action Addr τ → Prop
  | .connect k => s.net[k]? = some (.b, .name s.a.name)
  | .connectOutside _ => False
  | .receive .b k _ => ∀ text, s.net[k]? = some (.b, .name text) →
      (w.read text).typed = false ∧
        ∀ n, s.b = .up n → ∃ pc, t.b = .up { n with reciever := pc }
  | _ => True

/-- A registration on its way to the parent, or a name on its way to the child. -/
def isGreeting : Side × Packet τ → Bool
  | (.a, .datagram (.register _)) | (.b, .name _) => true
  | _ => false

def isName : Side × Packet τ → Bool
  | (.b, .name _) => true
  | _ => false

/-- A datagram on its way to the child. -/
def isChilds : Side × Packet τ → Bool
  | (.b, _) => true
  | (.a, _) => false

/-- The child waits for its answer. -/
def waiting (s : Restart Addr τ) : Bool :=
  match s.b with
  | .connecting _ => true
  | _ => false

section Steps
variable [DecidableEq Addr]

/-- What keeps the parent's messages behind its name. Nothing of an earlier start is under way when
the child starts. While it waits and the name is not in flight, neither the Sender nor the Checker
sends to it. What the network delivers to the waiting child comes from the parent and is the oldest
datagram in flight to it, the name is not lost ahead of a message, and no registration and no name
is repeated. -/
def inTurn (addr : Side → Endpoint Addr) (s : Restart Addr τ) : Action Addr τ → Bool
  | .start _ _ => s.net.isEmpty && !s.a.replying (addr .b) &&
      s.a.reciever.handling.all fun h => decide (h.2 ≠ addr .b)
  | .thread .a thread env =>
    !(s.waiting && s.a.sending (addr .b) thread && !env.sendFails) || s.net.any isName
  | .connect k => (s.net.take k).all fun d => !isChilds d
  | .connectOutside _ => false
  | .lose k => !(s.waiting && s.net[k]?.any isName) || s.net.all fun d => !isMessage d
  | .duplicate k => !s.net[k]?.any isGreeting
  | _ => true

/-- How many registrations and answers are under way between the two. -/
def greetings (addr : Side → Endpoint Addr) (s : Restart Addr τ) : Nat :=
  s.net.countP isGreeting + (s.a.replying (addr .b)).toNat

/-- While the child connects, it has sent nothing but its registration, and what is in flight to
it begins with the name. -/
structure Connecting (addr : Side → Endpoint Addr) (s : Restart Addr τ) : Prop where
  first : ∀ d, s.net.find? isChilds = some d → d = (.b, .name s.a.name)
  greetings : s.greetings addr ≤ 1
  toParent : ∀ packet, (Side.a, packet) ∈ s.net → ∃ name, packet = .datagram (.register name)
  toChild : ∀ packet, (Side.b, packet) ∈ s.net →
    packet = .name s.a.name ∨ ∃ uid text, packet = .datagram (.message uid text)
  handling : ∀ c, s.a.reciever.handling ≠ some (c, addr .b)

/-- Once it is connected, nobody registers or is answered any more. -/
structure Connected (addr : Side → Endpoint Addr) (s : Restart Addr τ) (n : Node Addr τ) :
    Prop where
  wf : n.Wf
  greetings : s.greetings addr = 0
  noName : ∀ text, (Side.a, Packet.name text) ∉ s.net
  noRegister : ∀ name, (Side.b, Packet.datagram (.register name)) ∉ s.net
  replying : n.replying (addr .a) = false

/-- The registration at each stage of the child. -/
inductive Greeting (addr : Side → Endpoint Addr) (s : Restart Addr τ) : Prop
  | down (wf : s.a.Wf) (hb : s.b = .down)
  | connecting {name : String} {failPercent : Nat} (wf : s.a.Wf)
      (hb : s.b = .connecting (Server.start (addr .b) name failPercent)) (h : s.Connecting addr)
  | connected {n : Node Addr τ} (wf : s.a.Wf) (hb : s.b = .up n) (h : s.Connected addr n)

theorem carried_cases (addr : Side → Endpoint Addr) (i : Side) (out : Option (Send Addr τ)) :
    carried addr i out = [] ∨
      ∃ packet, out = some ⟨addr i.other, packet⟩ ∧ carried addr i out = [(i.other, packet)] := by
  unfold carried
  split
  · split
    · rename_i target packet ht
      exact .inr ⟨packet, by rw [ht], rfl⟩
    · exact .inl rfl
  · exact .inl rfl

omit [DecidableEq Addr] in
theorem mem_of_find_isChilds {d : Side × Packet τ} (h : net.find? isChilds = some d) :
    ∃ packet, d = (.b, packet) ∧ (.b, packet) ∈ net := by
  obtain ⟨⟨_ | _, packet⟩, rfl⟩ : ∃ d', d' = d := ⟨d, rfl⟩
  · cases List.find?_some h
  · exact ⟨packet, rfl, List.mem_of_find?_eq_some h⟩

omit [DecidableEq Addr] in
/-- Taking out a datagram leaves the oldest one to the child what it was, if it was another. -/
theorem find_isChilds_eraseIdx {k : Nat} {d : Side × Packet τ} (hk : net[k]? = some d)
    (hd : isChilds d = true → net.find? isChilds ≠ some d) :
    (net.eraseIdx k).find? isChilds = net.find? isChilds := by
  obtain ⟨hlt, hget⟩ := List.getElem?_eq_some_iff.mp hk
  have hsplit : net = net.take k ++ d :: net.drop (k + 1) := by
    rw [← hget, ← List.drop_eq_getElem_cons hlt, List.take_append_drop]
  have hfind : net.find? isChilds =
      ((net.take k).find? isChilds).or ((d :: net.drop (k + 1)).find? isChilds) := by
    rw [← List.find?_append, ← hsplit]
  rw [List.eraseIdx_eq_take_drop_succ, List.find?_append, hfind]
  cases hbefore : (net.take k).find? isChilds with
  | some d' => rfl
  | none =>
    cases hchild : isChilds d with
    | false => rw [List.find?_cons_of_neg (by simp [hchild])]
    | true =>
      have hfirst : net.find? isChilds = some d := by
        rw [hfind, hbefore, List.find?_cons_of_pos hchild, Option.none_or]
      exact absurd hfirst (hd hchild)

omit [DecidableEq Addr] in
/-- What is sent behind a datagram to the child is not the oldest one to it. -/
theorem find_isChilds_append {packet : Packet τ} (net' : List (Side × Packet τ))
    (h : (.b, packet) ∈ net) : (net ++ net').find? isChilds = net.find? isChilds := by
  cases hfind : net.find? isChilds with
  | none => exact absurd rfl (List.find?_eq_none.mp hfind _ h)
  | some d => rw [List.find?_append, hfind, Option.some_or]

theorem replying_receive {a' : Node Addr τ} (h : Reciever.receive n source p env = some a')
    (hp : source = e → ∀ name, p ≠ .register name) : a'.replying e = false := by
  by_contra hr
  obtain ⟨hsource, name, hname⟩ := Reciever.receive_replying h (by simpa using hr)
  exact hp hsource name hname

/-- What the parent sends to the child adds no greeting but the answer it owed. -/
theorem greetings_thread {a' : Node Addr τ} (h : s.a.step thread env = some (a', out)) :
    greetings addr (s.commit .a a' (s.net ++ carried addr .a out)) ≤ greetings addr s := by
  have hreplying : (a'.replying (addr .b)).toNat ≤ (s.a.replying (addr .b)).toNat := by
    cases hr : a'.replying (addr .b) with
    | false => exact Nat.zero_le _
    | true => rw [Node.step_replying h hr]
  simp only [greetings, commit, List.countP_append]
  rcases carried_cases addr .a out with hnil | ⟨packet, rfl, hone⟩
  · rw [hnil, List.countP_nil]
    omega
  · rw [hone, List.countP_singleton]
    rcases Node.step_sends h with ⟨⟨uid, text, rfl⟩, -⟩ | ⟨rfl, -⟩ | ⟨rfl, howed, hdone⟩
    · simp only [Side.other, isGreeting]
      simpa using hreplying
    · simp only [Side.other, isGreeting]
      simpa using hreplying
    · simp [Side.other, isGreeting] at howed hdone ⊢
      simp [howed, hdone]

/-- The parent acted, or something happened to the datagrams in flight. -/
theorem Connecting.thread_a {a' : Node Addr τ} (hs : s.Connecting addr)
    (h : s.a.step thread env = some (a', out)) (hw : s.waiting = true)
    (hc : inTurn addr s (.thread .a thread env) = true) :
    (s.commit .a a' (s.net ++ carried addr .a out)).Connecting addr := by
  refine ⟨?_, (greetings_thread h).trans hs.greetings, ?_, ?_, ?_⟩
  · intro d hd
    simp only [commit, Node.step_name h] at hd ⊢
    rcases carried_cases addr .a out with hnil | ⟨packet, rfl, hone⟩
    · rw [hnil, List.append_nil] at hd
      exact hs.first d hd
    rcases Node.step_sends h with ⟨-, hsending, hsent⟩ | ⟨-, c, hc⟩ | ⟨rfl, -⟩
    · -- a message goes out only behind the name
      have hname : s.net.any isName = true := by
        simpa [inTurn, hw, hsent, show s.a.sending (addr .b) thread = true from hsending] using hc
      obtain ⟨⟨_ | _, _ | text⟩, hmem, hd'⟩ := List.any_eq_true.mp hname <;> try cases hd'
      rw [find_isChilds_append _ hmem] at hd
      exact hs.first d hd
    · exact absurd hc (hs.handling c)
    · rw [hone, List.find?_append, Option.or_eq_some_iff] at hd
      rcases hd with hd | ⟨-, hd⟩
      · exact hs.first d hd
      · exact (List.mem_singleton.mp (List.mem_of_find?_eq_some hd))
  · intro packet hm
    rcases List.mem_append.mp hm with hm | hm
    · exact hs.toParent packet hm
    · cases (mem_carried hm).1
  · intro packet hm
    simp only [commit, Node.step_name h]
    rcases List.mem_append.mp hm with hm | hm
    · exact hs.toChild packet hm
    · obtain ⟨-, rfl⟩ := mem_carried hm
      rcases Node.step_sends h with ⟨hmessage, -⟩ | ⟨-, c, hc⟩ | ⟨hname, -⟩
      · exact .inr hmessage
      · exact absurd hc (hs.handling c)
      · exact .inl hname
  · intro c hc
    exact hs.handling c (Node.step_handling h hc)

theorem Connected.thread_a {a' : Node Addr τ} (hs : s.Connected addr n)
    (h : s.a.step thread env = some (a', out)) :
    (s.commit .a a' (s.net ++ carried addr .a out)).Connected addr n := by
  refine ⟨hs.wf, Nat.le_zero.mp (hs.greetings ▸ greetings_thread h), ?_, ?_, hs.replying⟩
  · intro text hm
    rcases List.mem_append.mp hm with hm | hm
    · exact hs.noName text hm
    · cases (mem_carried hm).1
  · intro name hm
    rcases List.mem_append.mp hm with hm | hm
    · exact hs.noRegister name hm
    · exact carried_not_register h hm name rfl

theorem Connected.thread_b (hs : s.Connected addr n) (h : n.step thread env = some (n', out)) :
    (s.commit .b n' (s.net ++ carried addr .b out)).Connected addr n' := by
  have hnew : ∀ packet, (Side.a, packet) ∈ carried addr .b out →
      (∀ name, packet ≠ .datagram (.register name)) ∧ ∀ text, packet ≠ .name text := by
    intro packet hm
    refine ⟨fun name => carried_not_register h hm name, ?_⟩
    rintro text rfl
    obtain ⟨-, rfl⟩ := mem_carried hm
    rcases Node.step_sends h with ⟨⟨_, _, hp⟩, -⟩ | ⟨hp, -⟩ | ⟨-, howed, -⟩
    · cases hp
    · cases hp
    · rw [show Side.b.other = .a from rfl, hs.replying] at howed
      cases howed
  refine ⟨Node.wf_step h hs.wf, ?_, ?_, ?_, ?_⟩
  · have hzero : (carried addr .b out).countP isGreeting = 0 := by
      rw [List.countP_eq_zero]
      rintro ⟨j, packet⟩ hm hgreeting
      obtain rfl : j = .a := (mem_carried hm).1
      unfold isGreeting at hgreeting
      split at hgreeting
      · rename_i name hd
        exact (hnew _ hm).1 name (congrArg Prod.snd hd)
      · rename_i text hd
        cases congrArg Prod.fst hd
      · cases hgreeting
    have hold := hs.greetings
    simp only [Restart.greetings, commit, List.countP_append, hzero, Nat.add_zero] at hold ⊢
    exact hold
  · intro text hm
    rcases List.mem_append.mp hm with hm | hm
    · exact hs.noName text hm
    · exact (hnew _ hm).2 text rfl
  · intro name hm
    rcases List.mem_append.mp hm with hm | hm
    · exact hs.noRegister name hm
    · exact carried_not_register h hm name rfl
  · by_contra hr
    have howed := Node.step_replying h (by simpa using hr)
    rw [hs.replying] at howed
    cases howed

/-- Nothing new is under way when datagrams are only taken out. -/
theorem greetings_drop {a' : Node Addr τ} (b' : Process Addr τ) (session' : Option Ref)
    (hnet : net.Sublist s.net) (hr : a'.replying (addr .b) = false) :
    greetings addr ⟨a', b', net, session'⟩ ≤ greetings addr s := by
  simp only [Restart.greetings, hr, Bool.toNat_false, Nat.add_zero]
  exact Nat.le_trans hnet.countP_le (Nat.le_add_right _ _)

/-- The parent handles a datagram of another node. -/
theorem Connecting.outside {a' : Node Addr τ} (hs : s.Connecting addr)
    (h : Reciever.receive s.a source p env = some a') (hp : source ≠ addr .b) :
    (s.commit .a a' s.net).Connecting addr := by
  have hr : a'.replying (addr .b) = false := replying_receive h fun he => absurd he hp
  have hname := Reciever.receive_name h
  refine ⟨?_, (greetings_drop _ _ (.refl _) hr).trans hs.greetings, hs.toParent, ?_, ?_⟩
  · simpa only [commit, hname] using hs.first
  · simpa only [commit, hname] using hs.toChild
  · intro c hc
    exact hp (Reciever.receive_handling h hc).1

/-- The registration comes in, and is answered next. -/
theorem Connecting.register {a' : Node Addr τ} {k : Nat} {name : String} {session' : Option Ref}
    (hs : s.Connecting addr) (hk : s.net[k]? = some (.a, .datagram (.register name)))
    (h : Reciever.receive s.a (addr .b) (.register name) env = some a') :
    Connecting addr { s.commit .a a' (s.net.eraseIdx k) with session := session' } := by
  have hcount : (s.net.eraseIdx k).countP isGreeting + 1 = s.net.countP isGreeting :=
    countP_eraseIdx_add_one hk rfl
  refine ⟨?_, ?_, ?_, ?_, ?_⟩
  · intro d hd
    simp only [commit, Reciever.receive_name h]
    exact hs.first d ((find_isChilds_eraseIdx hk (by simp [isChilds])).symm.trans hd)
  · have hold := hs.greetings
    have hone : (a'.replying (addr .b)).toNat ≤ 1 := Bool.toNat_le _
    simp only [Restart.greetings, commit] at hold ⊢
    omega
  · exact fun packet hm => hs.toParent packet (List.mem_of_mem_eraseIdx hm)
  · intro packet hm
    simp only [commit, Reciever.receive_name h]
    exact hs.toChild packet (List.mem_of_mem_eraseIdx hm)
  · intro c hc
    obtain ⟨-, uid, text, hp⟩ := Reciever.receive_handling h hc
    cases hp

theorem Connected.receive_a {a' : Node Addr τ} {session' : Option Ref} (hs : s.Connected addr n)
    (h : Reciever.receive s.a source p env = some a') (hnet : net.Sublist s.net)
    (hp : source = addr .b → ∀ name, p ≠ .register name) :
    Connected addr { s.commit .a a' net with session := session' } n := by
  have hle := greetings_drop s.b session' hnet (replying_receive h hp)
  refine ⟨hs.wf, Nat.le_zero.mp (hs.greetings ▸ hle), ?_, ?_, hs.replying⟩
  · exact fun text hm => hs.noName text (hnet.subset hm)
  · exact fun name hm => hs.noRegister name (hnet.subset hm)

theorem Connected.receive_b {session' : Option Ref} (hs : s.Connected addr n)
    (h : Reciever.receive n source p env = some n') (hnet : net.Sublist s.net)
    (hp : source = addr .a → ∀ name, p ≠ .register name) :
    Connected addr { s.commit .b n' net with session := session' } n' := by
  refine ⟨Reciever.wf_receive h hs.wf, ?_, ?_, ?_, replying_receive h hp⟩
  · have hold := hs.greetings
    have hle := hnet.countP_le (p := isGreeting)
    simp only [Restart.greetings, commit] at hold ⊢
    omega
  · exact fun text hm => hs.noName text (hnet.subset hm)
  · exact fun name hm => hs.noRegister name (hnet.subset hm)

/-- The answer comes in, and with it the last greeting is gone. -/
theorem Connecting.connect {k : Nat} {failPercent : Nat} {name reply : String}
    (hs : s.Connecting addr) (hk : s.net[k]? = some (.b, .name s.a.name)) :
    Connected addr { s with
      b := .up (Server.connect (Server.start (addr .b) name failPercent) (addr .a) reply)
      net := s.net.eraseIdx k }
      (Server.connect (Server.start (addr .b) name failPercent) (addr .a) reply) := by
  have hcount : (s.net.eraseIdx k).countP isGreeting + 1 = s.net.countP isGreeting :=
    countP_eraseIdx_add_one hk rfl
  have hold := hs.greetings
  refine ⟨(Server.fresh_connect (addr .b) (addr .a) name reply failPercent).wf, ?_, ?_, ?_, rfl⟩
  · simp only [Restart.greetings] at hold ⊢
    omega
  · intro text hm
    obtain ⟨_, hp⟩ := hs.toParent _ (List.mem_of_mem_eraseIdx hm)
    cases hp
  · intro name hm
    rcases hs.toChild _ (List.mem_of_mem_eraseIdx hm) with hp | ⟨_, _, hp⟩
    · cases hp
    · cases hp

theorem Connecting.start {name : String} {failPercent : Nat}
    (hc : inTurn addr s (.start name failPercent) = true) :
    Connecting addr { s with
      b := .connecting (Server.start (addr .b) name failPercent)
      net := s.net ++ [(.a, .datagram (.register name))]
      session := none } := by
  simp only [inTurn, Bool.and_eq_true, List.isEmpty_iff, Bool.not_eq_true'] at hc
  obtain ⟨⟨hnet, hr⟩, hhandling⟩ := hc
  refine ⟨?_, ?_, ?_, ?_, ?_⟩
  · simp [hnet, isChilds]
  · simp [Restart.greetings, hnet, hr, isGreeting]
  · intro packet hm
    simp only [hnet, List.nil_append, List.mem_singleton, Prod.mk.injEq, true_and] at hm
    exact ⟨name, hm⟩
  · intro packet hm
    simp [hnet] at hm
  · intro c he
    simp [he] at hhandling

/-- A child that is up has been told the name. -/
theorem Greeting.of_up (hs : s.Greeting addr) (hup : s.b = .up n) :
    s.a.Wf ∧ s.Connected addr n := by
  cases hs with
  | down wf hb => cases hb.symm.trans hup
  | connecting wf hb hc => cases hb.symm.trans hup
  | connected wf hb hc =>
    cases hb.symm.trans hup
    exact ⟨wf, hc⟩

theorem Greeting.readLine {line : τ} {i : Side} (hs : s.Greeting addr) (hn : s.node i = some n)
    (h : Main.readLine n line = some n') : Greeting addr (s.commit i n' s.net) := by
  obtain rfl := Main.eq_of_readLine h
  cases i with
  | a =>
    cases hn
    cases hs with
    | down wf hb => exact .down (Main.wf_readLine h wf) hb
    | connecting wf hb hc =>
      exact .connecting (Main.wf_readLine h wf) hb
        ⟨hc.first, hc.greetings, hc.toParent, hc.toChild, hc.handling⟩
    | connected wf hb hc =>
      exact .connected (Main.wf_readLine h wf) hb
        ⟨hc.wf, hc.greetings, hc.noName, hc.noRegister, hc.replying⟩
  | b =>
    obtain ⟨wf, hc⟩ := hs.of_up (up_of_node hn)
    exact .connected wf rfl
      ⟨Main.wf_readLine h hc.wf, hc.greetings, hc.noName, hc.noRegister, hc.replying⟩

theorem Greeting.act {i : Side} (hs : s.Greeting addr) (hn : s.node i = some n)
    (h : n.step thread env = some (n', out)) (hturn : inTurn addr s (.thread i thread env) = true) :
    Greeting addr (s.commit i n' (s.net ++ carried addr i out)) := by
  cases i with
  | a =>
    cases hn
    cases hs with
    | down wf hb => exact .down (Node.wf_step h wf) hb
    | connecting wf hb hc =>
      exact .connecting (Node.wf_step h wf) hb (hc.thread_a h (by simp [waiting, hb]) hturn)
    | connected wf hb hc => exact .connected (Node.wf_step h wf) hb (hc.thread_a h)
  | b =>
    obtain ⟨wf, hc⟩ := hs.of_up (up_of_node hn)
    exact .connected wf rfl (hc.thread_b h)

/-- After the child is connected nothing in flight is a greeting. -/
theorem Connected.not_greeting (hs : s.Connected addr n) {d : Side × Packet τ} (hd : d ∈ s.net) :
    isGreeting d = false := by
  have hzero : s.net.countP isGreeting = 0 := by
    have hold := hs.greetings
    simp only [Restart.greetings] at hold
    omega
  simpa using List.countP_eq_zero.mp hzero d hd

theorem Greeting.receive {i : Side} {k : Nat} {packet : Packet τ} (hs : s.Greeting addr)
    (hn : s.node i = some n) (hk : s.net[k]? = some (i, packet))
    (h : Reciever.receive n (addr i.other) (w.payload packet) env = some n') :
    Greeting addr { s.commit i n' (s.net.eraseIdx k) with
      session := s.registered i (w.payload packet) } := by
  have hmem := List.mem_of_getElem? hk
  have hnet := List.eraseIdx_sublist s.net k
  cases i with
  | a =>
    cases hn
    have hwf := fun wf => Reciever.wf_receive h wf
    cases hs with
    | down wf hb => exact .down (hwf wf) hb
    | connecting wf hb hc =>
      obtain ⟨name, rfl⟩ := hc.toParent packet hmem
      exact .connecting (hwf wf) hb (hc.register hk h)
    | connected wf hb hc =>
      refine .connected (hwf wf) hb (hc.receive_a h hnet ?_)
      intro _ name hp
      cases packet with
      | datagram p =>
        obtain rfl : p = .register name := hp
        cases hc.not_greeting hmem
      | name text => exact hc.noName text hmem
  | b =>
    obtain ⟨wf, hc⟩ := hs.of_up (up_of_node hn)
    refine .connected wf rfl (hc.receive_b h hnet ?_)
    intro _ name hp
    cases packet with
    | datagram p =>
      obtain rfl : p = .register name := hp
      exact hc.noRegister name hmem
    | name text => cases hc.not_greeting hmem

theorem Greeting.outside {i : Side} (hs : s.Greeting addr) (hn : s.node i = some n)
    (hsource : source ≠ addr i.other) (h : Reciever.receive n source p env = some n') :
    Greeting addr (s.commit i n' s.net) := by
  cases i with
  | a =>
    cases hn
    have hwf := fun wf => Reciever.wf_receive h wf
    cases hs with
    | down wf hb => exact .down (hwf wf) hb
    | connecting wf hb hc => exact .connecting (hwf wf) hb (hc.outside h hsource)
    | connected wf hb hc =>
      exact .connected (hwf wf) hb (hc.receive_a h (.refl _) fun he => absurd he hsource)
  | b =>
    obtain ⟨wf, hc⟩ := hs.of_up (up_of_node hn)
    exact .connected wf rfl (hc.receive_b h (.refl _) fun he => absurd he hsource)

/-- The oldest datagram in flight to the child is its answer. -/
theorem Connecting.name_of_inTurn {k : Nat} {packet : Packet τ} (hs : s.Connecting addr)
    (hk : s.net[k]? = some (.b, packet)) (hc : inTurn addr s (.connect k) = true) :
    packet = .name s.a.name := by
  obtain ⟨hlt, hget⟩ := List.getElem?_eq_some_iff.mp hk
  have hbefore : (s.net.take k).find? isChilds = none := by
    rw [List.find?_eq_none]
    intro d hd
    simpa using List.all_eq_true.mp hc d hd
  have hfirst : s.net.find? isChilds = some (.b, packet) := by
    rw [← List.take_append_drop k s.net, List.find?_append, hbefore,
      List.drop_eq_getElem_cons hlt, hget]
    rfl
  exact congrArg Prod.snd (hs.first _ hfirst)

theorem Greeting.connect {k : Nat} {packet : Packet τ} (hs : s.Greeting addr)
    (hb : s.b = .connecting n) (hk : s.net[k]? = some (.b, packet))
    (hc : inTurn addr s (.connect k) = true) (reply : String) : Greeting addr { s with
      b := .up (Server.connect n (addr .a) reply), net := s.net.eraseIdx k } := by
  cases hs with
  | down wf hb' => cases hb.symm.trans hb'
  | connecting wf hb' hcon =>
    cases hb.symm.trans hb'
    obtain rfl := hcon.name_of_inTurn hk hc
    exact .connected wf rfl (hcon.connect hk)
  | connected wf hb' hcon => cases hb.symm.trans hb'

/-- What is left in flight to the child still begins with its answer. -/
theorem Connecting.first_lose {k : Nat} (hs : s.Connecting addr) (hw : s.waiting = true)
    (hc : inTurn addr s (.lose k) = true) (d : Side × Packet τ)
    (hd : (s.net.eraseIdx k).find? isChilds = some d) : d = (.b, .name s.a.name) := by
  cases hk : s.net[k]? with
  | none =>
    rw [List.eraseIdx_of_length_le (List.getElem?_eq_none_iff.mp hk)] at hd
    exact hs.first d hd
  | some lost =>
    cases hname : isName lost with
    | false =>
      refine hs.first d ((find_isChilds_eraseIdx hk fun _ hfirst => ?_).symm.trans hd)
      rw [hs.first lost hfirst] at hname
      cases hname
    | true =>
      -- no message is in flight, so what is left to the child is a name too
      simp only [inTurn, hw, hk, Option.any_some, hname, Bool.and_self, Bool.not_true,
        Bool.false_or, List.all_eq_true, Bool.not_eq_true'] at hc
      obtain ⟨packet, rfl, hm⟩ := mem_of_find_isChilds hd
      have hmem := List.mem_of_mem_eraseIdx hm
      rcases hs.toChild packet hmem with rfl | ⟨uid, text, rfl⟩
      · rfl
      · cases hc _ hmem

theorem Greeting.lose {k : Nat} (hs : s.Greeting addr) (hc : inTurn addr s (.lose k) = true) :
    Greeting addr { s with net := s.net.eraseIdx k } := by
  have hnet := List.eraseIdx_sublist s.net k
  have hle := hnet.countP_le (p := isGreeting)
  cases hs with
  | down wf hb => exact .down wf hb
  | connecting wf hb hcon =>
    refine .connecting wf hb
      ⟨hcon.first_lose (by simp [waiting, hb]) hc, ?_, ?_, ?_, hcon.handling⟩
    · exact (Nat.add_le_add_right hle _).trans hcon.greetings
    · exact fun packet hm => hcon.toParent packet (hnet.subset hm)
    · exact fun packet hm => hcon.toChild packet (hnet.subset hm)
  | connected wf hb hcon =>
    refine .connected wf hb ⟨hcon.wf, ?_, ?_, ?_, hcon.replying⟩
    · exact Nat.le_zero.mp (hcon.greetings ▸ Nat.add_le_add_right hle _)
    · exact fun text hm => hcon.noName text (hnet.subset hm)
    · exact fun name hm => hcon.noRegister name (hnet.subset hm)

/-- A datagram that is no greeting may come twice. -/
theorem Greeting.duplicate {k : Nat} {d : Side × Packet τ} (hs : s.Greeting addr)
    (hk : s.net[k]? = some d) (hc : inTurn addr s (.duplicate k) = true) :
    Greeting addr { s with net := s.net ++ [d] } := by
  have hd : isGreeting d = false := by simpa [inTurn, hk] using hc
  have hmem := List.mem_of_getElem? hk
  have hcount : (s.net ++ [d]).countP isGreeting = s.net.countP isGreeting := by
    simp [List.countP_append, hd]
  have hsub {d' : Side × Packet τ} (hm : d' ∈ s.net ++ [d]) : d' ∈ s.net := by
    rcases List.mem_append.mp hm with hm | hm
    · exact hm
    · exact List.mem_singleton.mp hm ▸ hmem
  cases hs with
  | down wf hb => exact .down wf hb
  | connecting wf hb hcon =>
    refine .connecting wf hb ⟨?_, ?_, ?_, ?_, hcon.handling⟩
    · obtain ⟨_ | _, packet⟩ := d
      · obtain ⟨name, rfl⟩ := hcon.toParent packet hmem
        cases hd
      · intro d' hfind
        exact hcon.first d' ((find_isChilds_append _ hmem).symm.trans hfind)
    · simpa only [Restart.greetings, hcount] using hcon.greetings
    · exact fun packet hm => hcon.toParent packet (hsub hm)
    · exact fun packet hm => hcon.toChild packet (hsub hm)
  | connected wf hb hcon =>
    refine .connected wf hb ⟨hcon.wf, ?_, ?_, ?_, hcon.replying⟩
    · simpa only [Restart.greetings, hcount] using hcon.greetings
    · exact fun text hm => hcon.noName text (hsub hm)
    · exact fun name hm => hcon.noRegister name (hsub hm)

theorem Greeting.wf (hs : s.Greeting addr) : s.a.Wf := by
  cases hs <;> assumption

/-- Every step in turn keeps the greetings apart from the messages. -/
theorem greeting_step {a : Action Addr τ} (h : step w addr s a = some t)
    (hc : inTurn addr s a = true) (hs : Greeting addr s) : Greeting addr t := by
  cases act_of_step h with
  | readLine hn hline => exact hs.readLine hn hline
  | thread hn hstep => exact hs.act hn hstep hc
  | receive hn hk hrec => exact hs.receive hn hk hrec
  | outside hn hsource hrec => exact hs.outside hn hsource hrec
  | start hb => exact .connecting hs.wf rfl (Connecting.start hc)
  | connect hb hk => exact hs.connect hb hk hc _
  | connectOutside hb => cases hc
  | stop => exact .down hs.wf rfl
  | lose => exact hs.lose hc
  | duplicate hk => exact hs.duplicate hk hc

/-- In a step in turn, whatever the child takes is the answer it should be. -/
theorem Greeting.answers {a : Action Addr τ} (h : step w addr s a = some t)
    (hc : inTurn addr s a = true) (hs : Greeting addr s) : Answered w s t a := by
  cases act_of_step h with
  | @connect k n packet hb hk =>
    cases hs with
    | down wf hb' => cases hb.symm.trans hb'
    | connecting wf hb' hcon =>
      obtain rfl := hcon.name_of_inTurn hk hc
      exact hk
    | connected wf hb' hcon => cases hb.symm.trans hb'
  | connectOutside hb => cases hc
  | @receive i k env packet n n' hn hk hrec =>
    cases i with
    | a => exact trivial
    | b =>
      intro text hname
      obtain ⟨wf, hcon⟩ := hs.of_up (up_of_node hn)
      cases hcon.not_greeting (List.mem_of_getElem? hname)
  | _ => exact trivial

/-- In every run whose steps are in turn, the child takes the reply as the answer and no name is
read as anything else. -/
theorem answered (hw : s.a.Wf) (hb : s.b = .down) {xs : List (Action Addr τ)} {a : Action Addr τ}
    {u : Restart Addr τ} (h : ((lts w addr).guard fun s a => inTurn addr s a).MTr s xs t)
    (hstep : ((lts w addr).guard fun s a => inTurn addr s a).Tr t a u) : Answered w t u a := by
  have hinv : ((lts w addr).guard fun s a => inTurn addr s a).TrInv (Greeting addr) :=
    fun _ _ _ htr hg => greeting_step htr.1 htr.2 hg
  have hg := LTS.mTr_of_trInv hinv h (.down hw hb)
  exact hg.answers hstep.1 hstep.2

end Steps

/-- The first letter is the type; a text that holds no colon has no uid. -/
def letterWire : Wire String where
  write := pairWire.write
  read text :=
    match text.toList with
    | [] => .unreadable
    | 'M' :: _ => .badMessage
    | 'C' :: _ => .confirm
    | 'R' :: name => .register (String.ofList name)
    | _ => .other

/-- The parent is called Carl. -/
def carl : Restart Nat String := ⟨Server.start (Link.pairAddr .a) "Carl" 0, .down, [], none⟩

theorem wf_carl : carl.a.Wf :=
  ⟨by simp [carl, Server.start], by simp [carl, Server.start],
    by simp [carl, Server.start, SenderPc.refs],
    by simp [carl, Server.start, Node.tasks, Storage.empty, CheckerPc.hand],
    by simp [carl, Server.start, RecieverPc.handling]⟩

/-- A line sent behind the name stays behind it. -/
theorem answered_carl :
    ∃ u, Answered letterWire (LTS.after (step letterWire Link.pairAddr) carl
      (joined.take 4 ++ spoken "hi" 0)) u (.connect 0) :=
  ⟨_, answered wf_carl rfl (LTS.mTr_guard_after (by decide +kernel)) ⟨rfl, by decide +kernel⟩⟩

/-- The registration comes in, a line is sent to the new neighbour, and only then its answer. -/
def overtaken : List (Action Nat String) :=
  [.start "kid" 0, .receive .a 0 (.calm 0)] ++ spoken "hi" 0 ++ [.thread .a .reciever (.calm 0)]

theorem not_answered_overtaken :
    ¬ ∀ xs t a u, ((lts letterWire Link.pairAddr).guard fun _ a => once a).MTr carl xs t →
      step letterWire Link.pairAddr t a = some u → Answered letterWire t u a := by
  intro hall
  have htaken := hall overtaken _ (.connect 0) _ (LTS.mTr_guard_after (by decide +kernel)) rfl
  have hmessage : (LTS.after (step letterWire Link.pairAddr) carl overtaken).net[0]? =
      some (.b, .datagram (.message 1 "hi")) := rfl
  cases hmessage.symm.trans htaken

/-- Carl's name then confirms a message that was never sent. -/
example : ((LTS.after (step letterWire Link.pairAddr) carl
    (overtaken ++ [.connect 0, .receive .b 0 (.calm 0)])).node .b).map
      (fun n => (n.heap 0).lastDelivered) = some 1 := by decide +kernel

end Restart

end NetworkLabs.UdpChat
