import NetworkLabs.Chat.MessageStorage
import NetworkLabs.Transition

/-! The client of the fourth server: it fetches messages page by page while others post. -/
namespace NetworkLabs.Chat

open Transition

/-- `getAll` of the fourth server, which knows no special count. -/
def MessageStorage.getPage (s : MessageStorage) (offset count : Int) : Option (List Message) :=
  let start := max (min offset s.currID) 0
  let stop := max (min (int32 (offset + count)) s.currID) 0
  subList s.sorted start stop

/-- Where the client is: between two calls of `updateMessages`, before request `i` of
`getMessages`, or gone with an exception. -/
inductive ClientPc
  | idle
  | requesting (startOffset i : Int)
  | disconnected
deriving DecidableEq

/-- `lastMessage` is the local variable of `work`; `printed` is what was printed so far. -/
structure Client where
  pc : ClientPc
  messages : List Message
  printed : List Message
  lastMessage : Int

/-- What a request comes to: an `IOException`, a status other than 200, an answer. -/
inductive Reply
  | ioException
  | refused
  | answered
deriving DecidableEq

namespace MessageStorage

variable {s : MessageStorage} {all : List Message}

/-- The store holds a history that its counter counts. -/
structure Stored (s : MessageStorage) (all : List Message) : Prop where
  numbered : s.Numbered all
  currID : s.currID = all.length
  bound : s.currID ≤ maxInt

theorem stored_empty : empty.Stored [] :=
  ⟨numbered_empty, rfl, show (0 : Int) ≤ maxInt by decide⟩

theorem Stored.create (h : s.Stored all) (hc : s.currID < maxInt) (text : String) (authorID : Nat) :
    (s.create text authorID).Stored (all ++ [⟨s.currID, text, authorID⟩]) := by
  have hput := h.numbered.put h.currID text authorID
  have h0 := h.currID
  have hnext : int32 (s.currID + 1) = s.currID + 1 := int32_of_nonneg (by omega) (by omega)
  refine ⟨⟨hput.entries, hput.ids⟩, ?_, ?_⟩
  · simp only [MessageStorage.create, increment, put, hnext, List.length_append,
      List.length_singleton]
    omega
  · simp only [MessageStorage.create, increment, put, hnext]
    omega

/-- A range whose end does not overflow. -/
theorem Stored.getPage (h : s.Stored all) {offset : Int} (h0 : 0 ≤ offset)
    (hmax : offset + 100 ≤ maxInt) :
    s.getPage offset 100 = some ((all.drop offset.toNat).take 100) := by
  have hcurr := h.currID
  have hsum : int32 (offset + 100) = offset + 100 := int32_of_nonneg (by omega) hmax
  simp only [MessageStorage.getPage, hsum, h.numbered.sorted, subList, hcurr]
  rcases le_total offset all.length with hle | hle
  · have hstart : max (min offset all.length) 0 = offset := by omega
    rw [hstart, if_pos (by omega)]
    rcases le_total (offset + 100) all.length with hfull | hshort
    · have hcount : (max (min (offset + 100) ↑all.length) 0 - offset).toNat = 100 := by omega
      rw [hcount]
    · rw [List.take_of_length_le (by rw [List.length_drop]; omega),
        List.take_of_length_le (by rw [List.length_drop]; omega)]
  · have hstart : max (min offset all.length) 0 = all.length := by omega
    have hdrop : all.drop offset.toNat = [] := List.drop_eq_nil_of_le (by omega)
    rw [hstart, if_pos (by omega)]
    simp [hdrop]

/-- The offset of a page, though it may overflow: at worst the page is refused. -/
theorem Stored.getPage_int32 (h : s.Stored all) {offset : Int} (h0 : 0 ≤ offset)
    (hmax : offset ≤ maxInt + 100) :
    s.getPage (int32 offset) 100 = none ∨
      s.getPage (int32 offset) 100 = some ((all.drop offset.toNat).take 100) := by
  have hcurr := h.currID
  have hbound := h.bound
  by_cases hover : offset + 100 ≤ maxInt
  · rw [int32_of_nonneg h0 (by omega), h.getPage h0 hover]
    exact .inr rfl
  · -- the end of the range is negative now, so the range is empty or ends before it starts
    have hstop : max (min (int32 (int32 offset + 100)) s.currID) 0 = 0 := by
      have hneg : int32 (int32 offset + 100) < 0 := by
        unfold maxInt at hover hmax
        simp only [int32, Int.bmod_def]
        omega
      omega
    have hstart : 0 < max (min (int32 offset) s.currID) 0 ∨ s.currID ≤ offset := by
      unfold maxInt at hbound hmax hover
      simp only [int32, Int.bmod_def]
      omega
    simp only [MessageStorage.getPage, hstop, subList]
    rcases hstart with hpos | hend
    · exact .inl (if_neg (by omega))
    · have hdrop : all.drop offset.toNat = [] := List.drop_eq_nil_of_le (by omega)
      rcases Int.lt_or_le 0 (max (min (int32 offset) s.currID) 0) with hpos | hzero
      · exact .inl (if_neg (by omega))
      · rw [if_pos (by omega)]
        simp [hdrop]

end MessageStorage

namespace Client

/-- The rest of `updateMessages` after `getMessages`. -/
def print (c : Client) (startOffset : Int) : Client :=
  { c with
    pc := .idle
    printed := c.printed ++ c.messages.drop startOffset.toNat
    lastMessage := c.messages.length }

/-- The head of the loop in `getMessages`. -/
def loop (c : Client) (startOffset i : Int) (buffer : List Message) : Client :=
  if i = 0 ∨ buffer ≠ [] then { c with pc := .requesting startOffset i } else c.print startOffset

def updateMessages (c : Client) : Option Client :=
  match c.pc with
  | .idle => some { c with pc := .requesting c.lastMessage 0 }
  | _ => none

/-- One request for a page. An `IOException` leaves `i` as it is and the buffer empty. -/
def request (c : Client) (messages : MessageStorage) (r : Reply) : Option Client :=
  match c.pc with
  | .requesting startOffset i =>
    match r with
    | .ioException => some (c.loop startOffset i [])
    | .refused => some { c with pc := .disconnected }
    | .answered =>
      match messages.getPage (int32 (100 * i + startOffset)) 100 with
      | none => some { c with pc := .disconnected }
      | some buffer =>
        some ({ c with messages := c.messages ++ buffer }.loop startOffset (int32 (i + 1)) buffer)
  | _ => none

end Client

/-- The store of the server and one client. -/
structure Sync where
  server : MessageStorage
  client : Client

namespace Sync

inductive Action
  | create (text : String) (authorID : Nat)
  | updateMessages
  | request (r : Reply)
deriving DecidableEq

variable {s t : Sync} {a : Action} {xs : List Action} {server : MessageStorage}
  {all : List Message}

def step (s : Sync) : Action → Option Sync
  | .create text authorID => some { s with server := s.server.create text authorID }
  | .updateMessages => s.client.updateMessages.map fun c => { s with client := c }
  | .request r => (s.client.request s.server r).map fun c => { s with client := c }

def lts : LTS Sync Action := .ofStep step

/-- A client that has just logged in. -/
def start (server : MessageStorage) : Sync := ⟨server, ⟨.idle, [], [], 0⟩⟩

/-- The client holds the first messages of the server, numbered from zero, and printed none of
them twice. -/
structure Synchronised (s : Sync) : Prop where
  messages : s.client.messages <+: s.server.sorted
  ids : ∃ k : Nat, s.client.messages.map Message.id = (List.range k).map Int.ofNat
  once : s.client.printed.Nodup

/-- A request is answered with nothing if a page before it was not full, and `currID` does not
overflow. -/
def steady (s : Sync) : Action → Bool
  | .request .answered =>
    match s.client.pc with
    | .requesting startOffset i =>
      s.client.messages.length = 100 * i + startOffset ∨ s.server.currID ≤ 100 * i + startOffset
    | _ => true
  | .create _ _ => s.server.currID < maxInt
  | _ => true

/-- The client holds the first messages of `all` and asks behind them for more. -/
structure Synced (s : Sync) (all : List Message) : Prop where
  server : s.server.Stored all
  messages : s.client.messages <+: all
  printed : match s.client.pc with
    | .idle =>
      s.client.printed = s.client.messages ∧ s.client.lastMessage = s.client.messages.length
    | .requesting startOffset i =>
      s.client.printed = s.client.messages.take startOffset.toNat ∧ 0 ≤ startOffset ∧
        startOffset ≤ s.client.messages.length ∧ 0 ≤ i ∧
          s.client.messages.length ≤ 100 * i + startOffset ∧
          100 * i + startOffset < all.length + 100
    | .disconnected => s.client.printed <+: s.client.messages

theorem synced_create (hc : s.server.currID < maxInt) (hs : s.Synced all) (text : String)
    (authorID : Nat) :
    Synced { s with server := s.server.create text authorID }
      (all ++ [⟨s.server.currID, text, authorID⟩]) := by
  refine ⟨hs.server.create hc text authorID, hs.messages.trans (List.prefix_append _ _), ?_⟩
  have hprinted := hs.printed
  split at hprinted <;> rename_i hpc <;> simp only [hpc]
  · exact hprinted
  · rw [List.length_append, List.length_singleton]
    obtain ⟨htake, hstart, hle, hi, hlen, hmax⟩ := hprinted
    exact ⟨htake, hstart, hle, hi, hlen, by omega⟩
  · exact hprinted

theorem synced_updateMessages {c : Client} (h : s.client.updateMessages = some c)
    (hs : s.Synced all) : Synced { s with client := c } all := by
  unfold Client.updateMessages at h
  split at h <;> cases h
  rename_i hpc
  have hprinted := hs.printed
  simp only [hpc] at hprinted
  have hle := hs.messages.length_le
  refine ⟨hs.server, hs.messages, ?_⟩
  simp only [hprinted.2]
  refine ⟨?_, by omega, by omega, Int.le_refl 0, by omega, by omega⟩
  rw [hprinted.1, Int.toNat_natCast, List.take_length]

/-- The end of `updateMessages` prints what was fetched since it began. -/
theorem synced_print {c : Client} {startOffset : Int} (hserver : s.server.Stored all)
    (hmessages : c.messages <+: all) (hprinted : c.printed = c.messages.take startOffset.toNat) :
    Synced { s with client := c.print startOffset } all := by
  refine ⟨hserver, hmessages, ?_⟩
  simp only [Client.print, hprinted, List.take_append_drop, and_self]

theorem synced_request {c : Client} {r : Reply} (hc : s.steady (.request r) = true)
    (h : s.client.request s.server r = some c) (hs : s.Synced all) :
    Synced { s with client := c } all := by
  have hprinted := hs.printed
  unfold Client.request at h
  split at h
  case h_2 => cases h
  case h_1 startOffset i hpc =>
  simp only [hpc] at hprinted
  obtain ⟨hprinted, hstart, hle, hi, hlen, hmax⟩ := hprinted
  cases r with
  | ioException =>
    cases h
    unfold Client.loop
    split
    · exact ⟨hs.server, hs.messages, hprinted, hstart, hle, hi, hlen, hmax⟩
    · exact synced_print hs.server hs.messages hprinted
  | refused =>
    cases h
    refine ⟨hs.server, hs.messages, ?_⟩
    rw [hprinted]
    exact List.take_prefix _ _
  | answered =>
    simp only [steady, hpc, decide_eq_true_eq] at hc
    have hcurr := hs.server.currID
    have hbound := hs.server.bound
    simp only at h
    split at h <;> cases h
    · refine ⟨hs.server, hs.messages, ?_⟩
      rw [hprinted]
      exact List.take_prefix _ _
    rename_i buffer hpage
    have hbuffer : buffer = (all.drop (100 * i + startOffset).toNat).take 100 := by
      have hoffset := hs.server.getPage_int32 (show 0 ≤ 100 * i + startOffset by omega) (by omega)
      rw [hpage] at hoffset
      simpa using hoffset
    -- the page goes on where the list ends, or there is nothing on it
    have hmessages : s.client.messages ++ buffer <+: all := by
      rcases hc with heq | hend
      · have hdrop : (100 * i + startOffset).toNat = s.client.messages.length := by omega
        rw [hbuffer, hdrop]
        nth_rewrite 2 [← List.take_append_drop s.client.messages.length all]
        rw [← List.prefix_iff_eq_take.mp hs.messages]
        exact (List.prefix_append_right_inj _).mpr (List.take_prefix _ _)
      · rw [hbuffer, List.drop_eq_nil_of_le (by omega), List.take_nil, List.append_nil]
        exact hs.messages
    have htake : (s.client.messages ++ buffer).take startOffset.toNat =
        s.client.messages.take startOffset.toNat := List.take_append_of_le_length (by omega)
    have hnext : int32 (i + 1) = i + 1 := int32_of_nonneg (by omega) (by unfold maxInt at *; omega)
    unfold Client.loop
    split
    · rename_i hmore
      have hpos : 0 < buffer.length := List.length_pos_of_ne_nil (hmore.resolve_left (by omega))
      have hsize : buffer.length ≤ 100 ∧
        buffer.length ≤ all.length - (100 * i + startOffset).toNat := by
        rw [hbuffer, List.length_take, List.length_drop]
        omega
      refine ⟨hs.server, hmessages, ?_⟩
      simp only [htake, hprinted, hnext, List.length_append, true_and]
      omega
    · exact synced_print hs.server hmessages (by rw [htake, hprinted])

theorem synced_step (h : s.step a = some t) (hc : s.steady a = true) (hs : s.Synced all) :
    ∃ all', t.Synced all' := by
  cases a with
  | create text authorID =>
    cases h
    exact ⟨_, synced_create (of_decide_eq_true hc) hs text authorID⟩
  | updateMessages =>
    obtain ⟨c, hupdate, rfl⟩ := Option.map_eq_some_iff.mp h
    exact ⟨all, synced_updateMessages hupdate hs⟩
  | request r =>
    obtain ⟨c, hrequest, rfl⟩ := Option.map_eq_some_iff.mp h
    exact ⟨all, synced_request hc hrequest hs⟩

/-- The runs in which every request and every post is steady. -/
def steadyLts : LTS Sync Action := lts.guard fun s a => s.steady a

theorem synced_start (h : server.Stored all) : (start server).Synced all :=
  ⟨h, List.nil_prefix, rfl, rfl⟩

theorem Synced.synchronised (h : s.Synced all) : s.Synchronised := by
  have hnodup : all.Nodup :=
    h.server.numbered.pairwise.imp fun hlt heq => absurd hlt (by rw [heq]; exact Int.lt_irrefl _)
  have hprinted : s.client.printed <+: s.client.messages := by
    have hprinted := h.printed
    split at hprinted
    · rw [hprinted.1]
    · rw [hprinted.1]
      exact List.take_prefix _ _
    · exact hprinted
  refine ⟨?_, ⟨s.client.messages.length, ?_⟩, ?_⟩
  · rw [h.server.numbered.sorted]
    exact h.messages
  · have hids := h.server.numbered.map_id_take h.messages.length_le
    rwa [← List.prefix_iff_eq_take.mp h.messages] at hids
  · exact hnodup.sublist (hprinted.trans h.messages).sublist

/-- As long as no short page is followed by a page with messages, the client holds the first
messages of the server and prints each of them once. -/
theorem synchronised_of_steady (hs : server.Stored all) (h : steadyLts.MTr (start server) xs t) :
    t.Synchronised := by
  obtain ⟨all', hsynced⟩ := LTS.mTr_of_trInv (p := fun s => ∃ all, s.Synced all)
    (fun _ _ _ htr ⟨_, hs⟩ => synced_step htr.1 htr.2 hs) h ⟨all, synced_start hs⟩
  exact hsynced.synchronised

/-- One message, and a second one between two calls of `updateMessages`. -/
def twoCalls : List Action :=
  [.create "a" 0, .updateMessages, .request .ioException, .request .answered, .request .answered,
    .create "b" 0, .updateMessages, .request .answered, .request .answered]

theorem synchronised_of_steady_twoCalls :
    (LTS.after step (start .empty) twoCalls).Synchronised ∧
      (LTS.after step (start .empty) twoCalls).client.printed.map Message.id = [0, 1] := by
  have hrun : LTS.run (fun s a => if steady s a then step s a else none) (start .empty) twoCalls =
      some (LTS.after step (start .empty) twoCalls) := rfl
  exact ⟨synchronised_of_steady MessageStorage.stored_empty (LTS.mTr_guard_of_run hrun), by decide⟩

theorem step_answered {startOffset i : Int} (hs : s.server.Stored all)
    (hpc : s.client.pc = .requesting startOffset i) (h0 : 0 ≤ 100 * i + startOffset)
    (hmax : 100 * i + startOffset + 100 ≤ maxInt) :
    step s (.request .answered) = some ⟨s.server,
      ({ s.client with messages := s.client.messages ++
          (all.drop (100 * i + startOffset).toNat).take 100 } : Client).loop startOffset
          (int32 (i + 1))
        ((all.drop (100 * i + startOffset).toNat).take 100)⟩ := by
  have hoffset : int32 (100 * i + startOffset) = 100 * i + startOffset :=
    int32_of_nonneg h0 (by omega)
  simp only [step, Client.request, hpc, hoffset, hs.getPage h0 hmax, Option.map_some]

/-- A server after `k` posts of nothing, and its messages. -/
def posts : Nat → MessageStorage
  | 0 => .empty
  | k + 1 => (posts k).create "" 0

def history (k : Nat) : List Message := (List.range k).map fun j : Nat => ⟨(j : Int), "", 0⟩

theorem stored_posts {k : Nat} (hk : k ≤ maxInt) : (posts k).Stored (history k) := by
  induction k with
  | zero => exact MessageStorage.stored_empty
  | succ k ih =>
    have hprev := ih (by omega)
    have hcurr : (posts k).currID = k := by simpa [history] using hprev.currID
    have hnext := hprev.create (by omega) "" 0
    rw [hcurr] at hnext
    simpa [posts, history, List.range_succ] using hnext

/-- After a page of 99 messages two more are posted. -/
def shortPage : List Action :=
  [.updateMessages, .request .answered, .create "" 0, .create "" 0, .request .answered,
    .request .answered]

/-- The client missed the message with id 99. -/
def skipped : Sync where
  server := posts 101
  client := ⟨.idle, history 99 ++ [⟨100, "", 0⟩], history 99 ++ [⟨100, "", 0⟩], 100⟩

/-- The client before request `i` of its first call, with `k` messages on the server. -/
def fetching (k : Nat) (i : Int) (messages : List Message) : Sync where
  server := posts k
  client := ⟨.requesting 0 i, messages, [], 0⟩

theorem mTr_shortPage : lts.MTr (start (posts 99)) shortPage skipped := by
  have hserver : ∀ k : Nat, k ≤ 101 → (posts k).Stored (history k) := fun k hk =>
    stored_posts (Int.le_trans (Int.ofNat_le.mpr hk) (by decide))
  have hfirst : step (fetching 99 0 []) (.request .answered) = some
    (fetching 99 1 (history 99)) := by
    rw [step_answered (hserver 99 (by decide)) rfl (by decide) (by decide)]
    rfl
  have hsecond : step (fetching 101 1 (history 99)) (.request .answered) =
      some (fetching 101 2 (history 99 ++ [⟨100, "", 0⟩])) := by
    rw [step_answered (hserver 101 (by decide)) rfl (by decide) (by decide)]
    rfl
  have hthird : step (fetching 101 2 (history 99 ++ [⟨100, "", 0⟩])) (.request .answered) =
      some skipped := by
    rw [step_answered (hserver 101 (by decide)) rfl (by decide) (by decide)]
    rfl
  exact .stepL rfl (.stepL hfirst (.stepL rfl (.stepL rfl (.stepL hsecond (.stepL hthird .refl)))))

/-- A page that is not full, before two more posts, makes the client skip a message. -/
theorem not_synchronised_shortPage : (posts 99).Stored (history 99) ∧
    lts.MTr (start (posts 99)) shortPage skipped ∧ skipped.client.pc = .idle ∧
      ¬ skipped.Synchronised := by
  refine ⟨stored_posts (by decide), mTr_shortPage, rfl, ?_⟩
  rintro ⟨-, ⟨k, hk⟩, -⟩
  have hlen := congrArg List.length hk
  rw [List.length_map, List.length_map, List.length_range] at hlen
  have hlast : (skipped.client.messages.map Message.id)[99]? = some 100 := rfl
  rw [hk, ← hlen] at hlast
  cases hlast

end Sync

end NetworkLabs.Chat
