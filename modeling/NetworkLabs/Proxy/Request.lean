import NetworkLabs.Proxy.Bounds
import NetworkLabs.Proxy.Relay
import Mathlib.Data.List.TakeWhile

/-! A request that comes in pieces, as the proxy reads it. -/
namespace NetworkLabs.Proxy

/-- What a request asks to be connected to. -/
inductive Target
  | address (ip port : List UInt8)
  | domain (name port : List UInt8)

namespace Target

/-- The `CONNECT` request of version 5 for a target. -/
def request : Target → List UInt8
  | .address ip port => [5, 1, 0, 1] ++ (ip ++ port)
  | .domain name port => [5, 1, 0, 3, UInt8.ofNat name.length] ++ (name ++ port)

def WellFormed : Target → Prop
  | .address ip port => ip.length = 4 ∧ port.length = 2
  | .domain name port => 1 ≤ name.length ∧ name.length ≤ 255 ∧ 0 ∉ name ∧ port.length = 2

/-- Where a connection for the target may go, when a lookup of its name finds `records`. -/
def Admits (records : List (List UInt8)) : Target → List UInt8 → List UInt8 → Prop
  | .address ip port, ip', port' => ip' = ip ∧ port' = port
  | .domain _ port, ip', port' => ip' ∈ records ∧ port' = port

/-- The names that are looked up for a target. -/
def Names : Target → List UInt8 → Prop
  | .address _ _, _ => False
  | .domain name _, name' => name' = name

end Target

/-- The event is a step towards the target. -/
def Event.acts : Event → Bool
  | .connect _ _ _ _ | .stub _ | .submit _ _ => true
  | _ => false

abbrev Round := (Peer → Revents) × Answers

namespace Connection

/-- A read in `CS_SOCK_REQUEST` when the version and the command are right. -/
def requested (c : Connection) (ans : Answers) : Handled :=
  (c.append ans).bind fun c' =>
    (c'.parseRequest ans).map fun r => (r.1, c.readEvent .client ans :: r.2)

/-- The reads of `CS_SOCK_REQUEST`, until the request was acted on. -/
def reading (c : Connection) : List Answers → Handled
  | [] => .ok (.stay c, [])
  | ans :: rest => (c.requested ans).bind fun r =>
    match r.1 with
    | .stay c' =>
      if c'.status = .sockRequest then
        (c'.reading rest).map fun r' => (r'.1, r.2 ++ r'.2)
      else .ok r
    | .drop _ _ => .ok r

/-- The rounds of `CS_RESOLVING`, until the lookup has ended. -/
def lookingUp (c : Connection) : List Round → Fate × List Event
  | [] => (.stay c, [])
  | round :: rest =>
    let r := c.resolving round.1 round.2
    match r.1 with
    | .stay c' =>
      if c'.status = .resolving then ((c'.lookingUp rest).1, r.2 ++ (c'.lookingUp rest).2) else r
    | .drop _ _ => r

/-- A request from its first read to the end of its lookup. -/
def exchange (c : Connection) (reads : List Answers) (rounds : List Round) : Handled :=
  (c.reading reads).map fun r =>
    match r.1 with
    | .stay c' =>
      if c'.status = .resolving then
        ((c'.lookingUp rounds).1, r.2 ++ (c'.lookingUp rounds).2)
      else r
    | .drop _ _ => r

end Connection

/-- The bytes that a read returned. -/
def Answers.got (ans : Answers) : List UInt8 := ((ans.read .client).map Subtype.val).getD []

/-- The lookup ends with an answer. -/
def answered : List Round → Bool
  | [] => false
  | (rev, ans) :: rest =>
    if (rev .client).pollout then
      ans.dnsCheck = 0 || (ans.dnsCheck = Connection.eagain && ans.dnsElapsed ≤ 30 && answered rest)
    else answered rest

/-- A lookup of the name was started by the last of the reads. -/
def Target.Started (reads : List Answers) : Target → Prop
  | .address _ _ => False
  | .domain _ _ => ∃ pre last, reads = pre ++ [last] ∧ Connection.lookupStarted last = true

/-- A server is found for the target, a lookup of its name giving `records`. -/
def Target.Found (reads : List Answers) (rounds : List Round) (records : List (List UInt8)) :
    Target → Prop
  | .address _ _ => True
  | .domain name port => (Target.domain name port).Started reads ∧ answered rounds ∧ records ≠ []

/-- The proxy steps towards the target exactly once the whole request has arrived, looks up its
name only, and connects to an address that is admitted, if one is found. -/
structure Exact (q : Target) (records : List (List UInt8)) (sought found : Prop) (es : List Event) :
    Prop where
  whole : ∀ pre e post, es = pre ++ e :: post → e.acts = true → received .client pre = q.request
  acted : received .client es = q.request → ∃ e ∈ es, e.acts = true
  named : ∀ R name, Event.submit R name ∈ es → q.Names name
  looked : sought → ∃ R name, Event.submit R name ∈ es
  admitted : ∀ fd ip port ok, Event.connect fd ip port ok ∈ es → q.Admits records ip port
  connected : found → ∃ fd ip port ok, Event.connect fd ip port ok ∈ es

/-- The name has a length that is no negative `char`, and no read but the last one brings the
request to where the name seems to be complete. -/
def Target.Intact (reads : List Answers) : Target → Prop
  | .address _ _ => True
  | .domain name _ => name.length ≤ 127 ∧ ∀ pre post, reads = pre ++ post → post ≠ [] →
      (pre.flatMap Answers.got).length < max 5 (name.length + 2)

/-- In a list of sizes that adds up to `t` or more there is one that crosses `t`. -/
theorem exists_crossing {α : Type} (f : α → List UInt8) (t : Nat) (ht : 0 < t) (xs : List α)
    (h : t ≤ (xs.flatMap f).length) : ∃ pre x post, xs = pre ++ x :: post ∧
      (pre.flatMap f).length < t ∧ t ≤ ((pre ++ [x]).flatMap f).length := by
  induction xs using List.reverseRecOn with
  | nil =>
    simp only [List.flatMap_nil, List.length_nil] at h
    omega
  | append_singleton xs x ih =>
    by_cases hxs : t ≤ (xs.flatMap f).length
    · obtain ⟨pre, y, post, rfl, hlt, hle⟩ := ih hxs
      exact ⟨pre, y, post ++ [x], by simp, hlt, hle⟩
    · exact ⟨xs, x, [], rfl, Nat.not_le.mp hxs, h⟩

namespace Connection

variable {c : Connection} {ans : Answers} {bs : List UInt8} {reads : List Answers} {q : Target}

/-- What was read of a request is in the buffer. -/
structure Holds (c : Connection) (bs : List UInt8) : Prop where
  count : c.currBufClient = bs.length
  buffer : ∀ k, k < bs.length → bs[k]? = some (c.clientBuf k)

theorem got_of_ne (h : ans.got ≠ []) :
    ∃ bs : Chunk, ans.read .client = some bs ∧ bs.val = ans.got := by
  cases hread : ans.read .client with
  | none => simp [Answers.got, hread] at h
  | some bs => exact ⟨bs, rfl, by simp [Answers.got, hread]⟩

theorem readCount_of_ne (h : ans.got ≠ []) : readCount (ans.read .client) = ans.got.length := by
  obtain ⟨chunk, hread, hval⟩ := got_of_ne h
  simp [readCount, hread, hval]

theorem Holds.readFits (h : c.Holds bs) (hgot : ans.got ≠ [])
    (hle : bs.length + ans.got.length ≤ bufferSize) : c.ReadFits ans := by
  have hcount := h.count
  rw [ReadFits, readCount_of_ne hgot]
  omega

theorem Holds.appended (h : c.Holds bs) (hgot : ans.got ≠ [])
    (hle : bs.length + ans.got.length ≤ bufferSize) : (c.appended ans).Holds (bs ++ ans.got) := by
  have hn := readCount_of_ne hgot
  have hcount := h.count
  have hsize : (sizeT (ans.got.length : Int) : Int) = ans.got.length :=
    sizeT_of_nonneg (by omega) (by omega)
  constructor
  · simp only [Connection.appended, hn, hcount, List.length_append]
    omega
  · intro k hk
    rw [List.length_append] at hk
    simp only [Connection.appended, Buffer.copied, hn, hsize, hcount]
    by_cases hold : k < bs.length
    · rw [List.getElem?_append_left hold, if_neg (by omega)]
      exact h.buffer k hold
    · obtain ⟨chunk, hread, hval⟩ := got_of_ne hgot
      rw [List.getElem?_append_right (by omega), if_pos (by omega), Int.toNat_natCast]
      have hk' : k - bs.length < ans.got.length := by omega
      simp only [hread, readByte, hval, List.getD_eq_getElem?_getD]
      simp [hk']

theorem requested_of_waiting (hf : c.ReadFits ans) (hw : (c.appended ans).Waiting) :
    c.requested ans = .ok (.stay (c.appended ans), [c.readEvent .client ans]) := by
  simp only [requested, append_of_fits hf, Except.bind, parseRequest_of_waiting hw, Except.map]

/-- The record after some reads that were not acted on. -/
def collected (c : Connection) (reads : List Answers) : Connection := reads.foldl appended c

theorem collected_append (pre post : List Answers) :
    c.collected (pre ++ post) = (c.collected pre).collected post := List.foldl_append

theorem collected_fields (c : Connection) (reads : List Answers) :
    (c.collected reads).clientSocket = c.clientSocket ∧ (c.collected reads).status = c.status ∧
      (c.collected reads).currBufServer = c.currBufServer := by
  induction reads generalizing c with
  | nil => exact ⟨rfl, rfl, rfl⟩
  | cons ans reads ih => exact ih (c.appended ans)

theorem Holds.collected (h : c.Holds []) (hgot : ∀ ans ∈ reads, ans.got ≠ [])
    (hle : (reads.flatMap Answers.got).length ≤ bufferSize) :
    (c.collected reads).Holds (reads.flatMap Answers.got) := by
  induction reads using List.reverseRecOn with
  | nil => exact h
  | append_singleton reads ans ih =>
    rw [List.flatMap_append, List.length_append] at hle
    have hprev := ih (fun a ha => hgot a (List.mem_append_left _ ha)) (by omega)
    have hlast := hprev.appended (hgot ans (by simp)) (by simpa using hle)
    rw [collected_append, List.flatMap_append, List.flatMap_singleton]
    exact hlast

/-- Reads that leave the request waiting are collected. -/
theorem reading_of_waiting (hs : c.status = .sockRequest) (rest : List Answers)
    (h : ∀ pre ans post, reads = pre ++ ans :: post → (c.collected pre).ReadFits ans ∧
      ((c.collected pre).appended ans).Waiting) :
    c.reading (reads ++ rest) = ((c.collected reads).reading rest).map fun r =>
      (r.1, reads.map (c.readEvent .client) ++ r.2) := by
  induction reads generalizing c with
  | nil =>
    simp only [List.nil_append, collected, List.foldl_nil, List.map_nil]
    cases c.reading rest <;> rfl
  | cons ans reads ih =>
    obtain ⟨hf, hw⟩ : c.ReadFits ans ∧ (c.appended ans).Waiting := h [] ans reads rfl
    have hrest := @ih (c.appended ans) hs fun pre a post hreads => h (ans :: pre) a post
      (by simp [hreads])
    simp only [List.cons_append, reading, requested_of_waiting hf hw, Except.bind]
    rw [if_pos (show (c.appended ans).status = .sockRequest from hs), hrest]
    change _ = (((c.appended ans).collected reads).reading rest).map _
    cases ((c.appended ans).collected reads).reading rest <;> rfl

/-- A length byte as the program sees it. -/
theorem char_ofNat : ∀ n < 256, char (UInt8.ofNat n) = if n ≤ 127 then (n : Int) else n - 256 := by
  decide +kernel

theorem nameArrived_iff {n : Nat} (h : c.Holds bs) (hle : bs.length ≤ bufferSize) (hn : n < 256)
    (hbyte : c.clientBuf 4 = UInt8.ofNat n) :
    c.nameArrived = true ↔ n ≤ 127 ∧ n + 2 ≤ bs.length ∨ 254 ≤ n ∧ n - 254 ≤ bs.length := by
  have hcount := h.count
  have hsize := sizeT_of_nonneg (n := c.currBufClient) (by omega) (by omega)
  rw [nameArrived, decide_eq_true_iff, hbyte, char_ofNat n hn]
  unfold bufferSize at hle
  unfold sizeT at hsize ⊢
  split <;> omega

/-- A byte of the request that has arrived. -/
theorem Holds.byte (h : c.Holds bs) (hp : bs <+: q.request) {k : Nat} (hk : k < bs.length) :
    q.request[k]? = some (c.clientBuf k) := by
  obtain ⟨rest, hrest⟩ := hp
  rw [← hrest, List.getElem?_append_left hk]
  exact h.buffer k hk

theorem Holds.not_rejected (h : c.Holds bs) (hp : bs <+: q.request) : c.rejected = false := by
  have hcount := h.count
  by_cases h2 : 2 ≤ bs.length
  · have h0 := h.byte hp (k := 0) (by omega)
    have h1 := h.byte hp (k := 1) (by omega)
    have hbytes : c.clientBuf 0 = 5 ∧ c.clientBuf 1 = 1 := by
      cases q <;> exact ⟨(Option.some.inj h0).symm, (Option.some.inj h1).symm⟩
    simp only [rejected, hbytes.1, hbytes.2]
    simp [char]
  · simp only [rejected, Bool.and_eq_false_iff, decide_eq_false_iff_not]
    omega

theorem bytes_eq_iff {b : Buffer} {start : Nat} (xs : List UInt8) :
    b.bytes start xs.length = xs ↔ ∀ k, k < xs.length → xs[k]? = some (b (start + k)) := by
  constructor
  · intro h k hk
    have hget := congrArg (fun l => l[k]?) h
    simpa [Buffer.bytes, hk] using hget.symm
  · intro h
    apply List.ext_getElem?
    intro k
    by_cases hk : k < xs.length
    · rw [h k hk]
      simp [Buffer.bytes, hk]
    · simp [Buffer.bytes, hk]

/-- A part of the request in the buffer. -/
theorem Holds.bytes_part (h : c.Holds bs) (pre part post : List UInt8)
    (hbs : bs = pre ++ (part ++ post)) :
    c.clientBuf.bytes pre.length part.length = part := by
  apply (bytes_eq_iff part).mpr
  intro k hk
  have hlen : pre.length + k < bs.length := by
    simp only [hbs, List.length_append]
    omega
  rw [← h.buffer _ hlen, hbs, List.getElem?_append_right (by omega), Nat.add_sub_cancel_left,
    List.getElem?_append_left hk]

theorem Holds.bytes_eq (h : c.Holds bs) {start n : Nat} (hle : start + n ≤ bs.length) :
    c.clientBuf.bytes start n = (bs.drop start).take n := by
  have hpart := h.bytes_part (bs.take start) ((bs.drop start).take n) (bs.drop (start + n))
    (by simp [← List.drop_drop])
  rwa [List.length_take, List.length_take, List.length_drop, Nat.min_eq_left (by omega),
    Nat.min_eq_left (by omega)] at hpart

theorem bytes_add (b : Buffer) (start m n : Nat) :
    b.bytes start (m + n) = b.bytes start m ++ b.bytes (start + m) n := by
  simp [Buffer.bytes, List.range_add, List.map_map, Function.comp_def, Nat.add_assoc]

section Address
variable {ip port : List UInt8}

theorem Holds.type_address (h : c.Holds bs) (hp : bs <+: (Target.address ip port).request)
    (h5 : 5 ≤ bs.length) : char (c.clientBuf 3) = 1 := by
  have hbyte := h.byte hp (k := 3) (by omega)
  simp only [Target.request, List.cons_append, List.getElem?_cons_succ, List.getElem?_cons_zero,
    Option.some.injEq] at hbyte
  rw [← hbyte]
  decide

theorem Holds.waiting_address (h : c.Holds bs) (hp : bs <+: (Target.address ip port).request)
    (hlt : bs.length < 10) : c.Waiting := by
  have hcount := h.count
  by_cases h5 : 5 ≤ bs.length
  · exact .inr (.inl ⟨h.type_address hp h5, by omega⟩)
  · exact .inl (by omega)

/-- With the whole request the address and the port are in their places. -/
theorem Holds.bytes_address (h : c.Holds (Target.address ip port).request)
    (hq : (Target.address ip port).WellFormed) :
    c.clientBuf.bytes 4 4 = ip ∧ c.clientBuf.bytes 8 2 = port := by
  have hip := h.bytes_part [5, 1, 0, 1] ip port rfl
  have hport := h.bytes_part ([5, 1, 0, 1] ++ ip) port [] (by simp [Target.request])
  rw [List.length_append] at hport
  rw [hq.1] at hip hport
  rw [hq.2] at hport
  exact ⟨hip, hport⟩

end Address

section Domain
variable {name port : List UInt8}

theorem length_request_domain (hq : (Target.domain name port).WellFormed) :
    (Target.domain name port).request.length = name.length + 7 := by
  simp only [Target.request, List.length_append, List.length_cons, List.length_nil, hq.2.2.2]
  omega

theorem Holds.bytes_domain (h : c.Holds bs) (hp : bs <+: (Target.domain name port).request)
    (h5 : 5 ≤ bs.length) :
    char (c.clientBuf 3) = 3 ∧ c.clientBuf 4 = UInt8.ofNat name.length := by
  have h3 := h.byte hp (k := 3) (by omega)
  have h4 := h.byte hp (k := 4) (by omega)
  simp only [Target.request, List.cons_append, List.getElem?_cons_succ, List.getElem?_cons_zero,
    Option.some.injEq] at h3 h4
  rw [← h3, ← h4]
  exact ⟨by decide, rfl⟩

theorem Holds.waiting_domain (h : c.Holds bs) (hp : bs <+: (Target.domain name port).request)
    (hq : (Target.domain name port).WellFormed)
    (hlt : bs.length < 5 ∨ name.length < 254 ∧ (127 < name.length ∨ bs.length < name.length + 2)) :
    c.Waiting := by
  have hcount := h.count
  have hle := hp.length_le
  rw [length_request_domain hq] at hle
  have h255 := hq.2.1
  by_cases h5 : 5 ≤ bs.length
  · obtain ⟨h3, h4⟩ := h.bytes_domain hp h5
    have harrived := nameArrived_iff h (by unfold bufferSize; omega) (by omega) h4
    refine .inr (.inr ⟨h3, Bool.eq_false_iff.mpr fun ha => ?_⟩)
    have := harrived.mp ha
    omega
  · exact .inl (by omega)

theorem Holds.arrived_domain (h : c.Holds bs) (hp : bs <+: (Target.domain name port).request)
    (hq : (Target.domain name port).WellFormed) (h5 : 5 ≤ bs.length)
    (hle : name.length ≤ 127 ∧ name.length + 2 ≤ bs.length ∨ 254 ≤ name.length) :
    c.nameArrived = true := by
  have hbound := hp.length_le
  rw [length_request_domain hq] at hbound
  have h255 := hq.2.1
  refine (nameArrived_iff h ?_ ?_ (h.bytes_domain hp h5).2).mpr ?_
  · unfold bufferSize
    omega
  · omega
  · omega

/-- With a whole request the name and the port are where the lookup takes them from. -/
theorem Holds.lookup {hd rest : List UInt8} (h : c.Holds (hd ++ (name ++ (port ++ rest))))
    (hhd : hd.length = 5) (hname : char (c.clientBuf 4) = name.length) (hport : port.length = 2)
    (ans : Answers) : (c.queried ans).serverBuf.bytes 0 2 = port ∧
      (c.queried ans).clientBuf.string = name.takeWhile (· ≠ 0) := by
  have hle := (char_bounds (c.clientBuf 4)).2
  have hlength : sizeT (char (c.clientBuf 4)) = name.length := by
    rw [hname]
    unfold sizeT
    omega
  have hnames := h.bytes_part hd name (port ++ rest) rfl
  have hports := h.bytes_part (hd ++ name) port rest (by simp)
  rw [bytes_eq_iff] at hnames hports
  constructor
  · rw [← hport, bytes_eq_iff]
    intro k hk
    rw [hports k hk, List.length_append, hhd]
    simp only [queried, hlength, Buffer.copied]
    rw [if_pos (by omega)]
    congr 2
    omega
  · have hbuffer : (c.queried ans).clientBuf.bytes 0 bufferSize = name ++ 0 ::
        (c.queried ans).clientBuf.bytes (name.length + 1) (bufferSize - name.length - 1) := by
      have hsplit : bufferSize = name.length + (1 + (bufferSize - name.length - 1)) := by
        unfold bufferSize
        omega
      conv_lhs => rw [hsplit]
      rw [bytes_add, bytes_add, Nat.zero_add]
      have hmoved : (c.queried ans).clientBuf.bytes 0 name.length = name := by
        rw [bytes_eq_iff]
        intro k hk
        rw [hnames k hk, hhd]
        simp only [queried, hlength, Buffer.copied]
        rw [if_neg (by omega), if_pos (by omega), Nat.zero_add]
        rfl
      have hzero : (c.queried ans).clientBuf.bytes name.length 1 = [0] := by
        simp [queried, hlength, Buffer.copied, Buffer.bytes]
      rw [hmoved, hzero]
      rfl
    rw [Buffer.string, hbuffer, List.takeWhile_append]
    split
    · rename_i hall
      have heq := (List.takeWhile_prefix (fun b : UInt8 => b ≠ 0) (l := name)).eq_of_length hall
      rw [heq]
      simp
    · rfl

theorem Holds.lookup_domain (h : c.Holds (Target.domain name port).request)
    (hq : (Target.domain name port).WellFormed) (hle : name.length ≤ 127) (ans : Answers) :
    (c.queried ans).serverBuf.bytes 0 2 = port ∧ (c.queried ans).clientBuf.string = name := by
  have h4 := (h.bytes_domain List.prefix_rfl (by rw [length_request_domain hq]; omega)).2
  have hwhole : c.Holds ([5, 1, 0, 3, UInt8.ofNat name.length] ++ (name ++ (port ++ []))) := by
    simpa [Target.request] using h
  have hlookup := hwhole.lookup rfl (by rw [h4, char_ofNat _ (by omega), if_pos hle]) hq.2.2.2 ans
  refine ⟨hlookup.1, hlookup.2.trans (List.takeWhile_eq_self_iff.mpr fun b hb => ?_)⟩
  have hne : b ≠ 0 := fun hb0 => hq.2.2.1 (hb0 ▸ hb)
  simpa using hne

end Domain

section Reading
variable {pre : List Answers} {last : Answers}

/-- Nothing happens for a request as long as what was read of it is waiting. -/
theorem reading_of_quiet (post : List Answers) (hs : c.status = .sockRequest)
    (h0 : c.currBufClient = 0)
    (hgot : ∀ ans ∈ pre, ans.got ≠ []) (hp : pre.flatMap Answers.got <+: q.request)
    (hsize : q.request.length ≤ bufferSize)
    (hwait : ∀ (d : Connection) bs, d.Holds bs → bs <+: q.request →
      bs.length ≤ (pre.flatMap Answers.got).length → d.Waiting) :
    c.reading (pre ++ post) = ((c.collected pre).reading post).map fun r =>
      (r.1, pre.map (c.readEvent .client) ++ r.2) := by
  have hempty : c.Holds [] := ⟨h0, nofun⟩
  apply reading_of_waiting hs post
  intro init ans rest hsplit
  have hbytes : pre.flatMap Answers.got =
      (init ++ [ans]).flatMap Answers.got ++ rest.flatMap Answers.got := by
    simp [hsplit]
  have hle := hp.length_le
  have hinit : (init.flatMap Answers.got).length + ans.got.length ≤ bufferSize := by
    rw [hbytes, List.length_append, List.flatMap_append, List.length_append,
      List.flatMap_singleton] at hle
    omega
  have hholds : (c.collected init).Holds (init.flatMap Answers.got) :=
    hempty.collected (fun a ha => hgot a (by simp [hsplit, ha])) (by omega)
  have hne := hgot ans (by simp [hsplit])
  have happended := hholds.appended hne hinit
  refine ⟨hholds.readFits hne hinit, hwait _ _ happended ?_ ?_⟩
  · refine List.IsPrefix.trans ⟨rest.flatMap Answers.got, ?_⟩ hp
    simp [hbytes]
  · rw [hbytes]
    simp

/-- A read after which the request is not waiting any more is acted on. -/
theorem reading_of_acting {d : Connection} {post : List Answers} (hf : d.ReadFits last)
    (hr : ∀ c' es, (d.appended last).parseRequest last = .ok (.stay c', es) →
      c'.status ≠ .sockRequest) :
    d.reading (last :: post) = ((d.appended last).parseRequest last).map fun r =>
      (r.1, d.readEvent .client last :: r.2) := by
  simp only [reading, requested, append_of_fits hf, Except.bind]
  cases hp : (d.appended last).parseRequest last with
  | error e => rfl
  | ok r =>
    obtain ⟨fate, es⟩ := r
    cases fate with
    | stay c' => exact if_neg (hr c' es hp)
    | drop c' server => rfl

end Reading

end Connection

end NetworkLabs.Proxy
