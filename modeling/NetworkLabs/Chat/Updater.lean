import NetworkLabs.Chat.MessageStorage
import NetworkLabs.Transition

/-! The WebSocket push: subscribers read the messages while others post them. -/
namespace NetworkLabs.Chat

open Transition

/-- Where `onFullTextMessage` is between its calls on the message storage: before the first
`size()`, before the first `getAll()`, asleep, before the `getAll()` of a tick, or gone with an
exception. -/
inductive UpdaterPc
  | connecting
  | sized (n : Int)
  | sleeping (n : Int)
  | ticked (n currSize : Int)
  | failed
deriving DecidableEq

/-- A subscriber with the lists of messages that were sent to it. -/
structure Updater where
  pc : UpdaterPc
  sent : List (List Message)

namespace Updater

/-- A call of `size()`. -/
def size (u : Updater) (size : Int) : Option Updater :=
  match u.pc with
  | .connecting => some { u with pc := .sized size }
  | .sleeping n => some { u with pc := if n < size then .ticked n size else .sleeping n }
  | _ => none

/-- A call of `getAll()` and the sending of what it returned. -/
def getAll (u : Updater) (messages : MessageStorage) : Option Updater :=
  match u.pc with
  | .sized n =>
    match messages.getAll 0 (-1) with
    | some batch => some ⟨.sleeping n, u.sent ++ [batch]⟩
    | none => some { u with pc := .failed }
  | .ticked n currSize =>
    match messages.getAll n (currSize - n) with
    | some batch => some ⟨.sleeping currSize, u.sent ++ [batch]⟩
    | none => some { u with pc := .failed }
  | _ => none

end Updater

/-- All subscribers, and the one post that is under way: `posting` says that its message is in
the map and `currID` is not incremented yet. -/
structure Push (ι : Type) where
  messages : MessageStorage
  posting : Bool
  updater : ι → Updater

namespace Push

inductive Action (ι : Type)
  | put (text : String) (authorID : Nat)
  | increment
  | size (i : ι)
  | getAll (i : ι)

variable {ι : Type} [DecidableEq ι] {s t : Push ι} {a : Action ι} {xs : List (Action ι)} {i : ι}

def step (s : Push ι) : Action ι → Option (Push ι)
  | .put text authorID =>
    if s.posting then none
    else some { s with messages := s.messages.put text authorID, posting := true }
  | .increment =>
    if s.posting then some { s with messages := s.messages.increment, posting := false } else none
  | .size i => ((s.updater i).size s.messages.size).map fun u =>
      { s with updater := Function.update s.updater i u }
  | .getAll i => ((s.updater i).getAll s.messages).map fun u =>
      { s with updater := Function.update s.updater i u }

def lts : LTS (Push ι) (Action ι) := .ofStep step

/-- No message yet, and nobody was sent anything. -/
def initial : Push ι := ⟨.empty, false, fun _ => ⟨.connecting, []⟩⟩

/-- What was sent to a subscriber are the messages with the first ids, in order and once each. -/
def ExactlyOnce (s : Push ι) (i : ι) : Prop :=
  ∃ k : Nat, (s.updater i).sent.flatten.map Message.id = (List.range k).map Int.ofNat ∧
    ∀ m ∈ (s.updater i).sent.flatten, s.messages.messageMap.lookup m.id = some m

/-- The first `getAll()` finds as many messages as the `size()` before it, the one of a tick
finds them all counted in `currID`, and `currID` does not overflow. -/
def timely (s : Push ι) : Action ι → Bool
  | .getAll i =>
    match (s.updater i).pc with
    | .sized n => n = s.messages.messageMap.entries.length
    | .ticked _ currSize => currSize ≤ s.messages.currID
    | _ => true
  | .increment => s.messages.currID < maxInt
  | _ => true

/-- A subscriber was sent the messages before its cursor. -/
def Caught (all : List Message) (u : Updater) : Prop :=
  match u.pc with
  | .connecting => u.sent.flatten = []
  | .sized n => u.sent.flatten = [] ∧ 0 ≤ n ∧ n ≤ all.length
  | .sleeping n => u.sent.flatten = all.take n.toNat ∧ 0 ≤ n ∧ n ≤ all.length
  | .ticked n currSize => u.sent.flatten = all.take n.toNat ∧ 0 ≤ n ∧ n < currSize ∧
      currSize ≤ all.length
  | .failed => ∃ k : Nat, u.sent.flatten = all.take k ∧ k ≤ all.length

/-- Every subscriber was sent the messages before its cursor, out of `all`. -/
structure Following (s : Push ι) (all : List Message) : Prop where
  numbered : s.messages.Numbered all
  currID : s.messages.currID = all.length - if s.posting then 1 else 0
  bound : s.messages.currID ≤ maxInt
  caught : ∀ i, Caught all (s.updater i)

theorem caught_append {all : List Message} {u : Updater} (m : Message) (h : Caught all u) :
    Caught (all ++ [m]) u := by
  have htake : ∀ k, k ≤ all.length → (all ++ [m]).take k = all.take k := fun k hk =>
    List.take_append_of_le_length hk
  unfold Caught at h ⊢
  split at h
  · exact h
  · refine ⟨h.1, h.2.1, ?_⟩
    rw [List.length_append, List.length_singleton]
    omega
  · refine ⟨?_, h.2.1, ?_⟩
    · rw [htake _ (by omega)]
      exact h.1
    · rw [List.length_append, List.length_singleton]
      omega
  · refine ⟨?_, h.2.1, h.2.2.1, ?_⟩
    · rw [htake _ (by omega)]
      exact h.1
    · rw [List.length_append, List.length_singleton]
      omega
  · obtain ⟨k, hk, hle⟩ := h
    refine ⟨k, ?_, ?_⟩
    · rw [htake _ hle]
      exact hk
    · rw [List.length_append, List.length_singleton]
      omega

theorem caught_size {all : List Message} {u v : Updater} {n : Int} (hn : 0 ≤ n ∧ n ≤ all.length)
    (h : u.size n = some v) (hu : Caught all u) : Caught all v := by
  unfold Updater.size at h
  split at h
  · rename_i hpc
    simp only [Caught, hpc] at hu
    cases h
    exact ⟨hu, hn⟩
  · rename_i m hpc
    simp only [Caught, hpc] at hu
    cases h
    unfold Caught
    split <;> rename_i heq <;> split at heq <;> cases heq
    · exact hu
    · exact ⟨hu.1, hu.2.1, by assumption, hn.2⟩
  · cases h

omit [DecidableEq ι] in
/-- The cursor moves on with what is sent. -/
theorem caught_getAll {all : List Message} {u : Updater} (hs : s.Following all)
    (hc : s.timely (.getAll i) = true) (h : (s.updater i).getAll s.messages = some u) :
    Caught all u := by
  have hu := hs.caught i
  unfold Updater.getAll at h
  unfold timely at hc
  split at h
  · rename_i n hpc
    simp only [Caught, hpc, decide_eq_true_eq] at hu hc
    rw [hs.numbered.length] at hc
    simp only [MessageStorage.getAll, hs.numbered.sorted, if_true] at h
    cases h
    refine ⟨?_, hu.2.1, hu.2.2⟩
    simp [hu.1, hc]
  · rename_i n currSize hpc
    simp only [Caught, hpc, decide_eq_true_eq] at hu hc
    obtain ⟨hsent, h0, hlt, hlen⟩ := hu
    rw [hs.numbered.getAll h0 hlt hc hlen hs.bound] at h
    cases h
    refine ⟨?_, by omega, hlen⟩
    have hsum : currSize.toNat = n.toNat + (currSize - n).toNat := by omega
    rw [hsum, List.take_add]
    simp [hsent]
  · cases h

theorem following_update {all : List Message} {u : Updater} (hs : s.Following all)
    (hu : Caught all u) : Following { s with updater := Function.update s.updater i u } all := by
  refine ⟨hs.numbered, hs.currID, hs.bound, ?_⟩
  intro j
  by_cases hj : j = i
  · subst hj
    simpa using hu
  · simpa [hj] using hs.caught j

theorem following_step (h : s.step a = some t) (hc : s.timely a = true) {all : List Message}
    (hs : s.Following all) : ∃ all', t.Following all' := by
  cases a with
  | put text authorID =>
    simp only [step] at h
    split at h <;> cases h
    rename_i hidle
    have hcurr : s.messages.currID = all.length := by simpa [hidle] using hs.currID
    refine ⟨_, hs.numbered.put hcurr text authorID, ?_, hs.bound,
      fun i => caught_append _ (hs.caught i)⟩
    simpa [MessageStorage.put] using hcurr
  | increment =>
    simp only [step] at h
    split at h <;> cases h
    rename_i hposting
    have hcurr := hs.currID
    simp only [hposting, if_true] at hcurr
    have hmax : s.messages.currID < maxInt := of_decide_eq_true hc
    have hnext : int32 (s.messages.currID + 1) = s.messages.currID + 1 :=
      int32_of_nonneg (by omega) (by omega)
    refine ⟨all, ⟨hs.numbered.entries, hs.numbered.ids⟩, ?_, ?_, hs.caught⟩
    · simp only [MessageStorage.increment, hnext, Bool.false_eq_true, if_false]
      omega
    · simp only [MessageStorage.increment, hnext]
      omega
  | size i =>
    obtain ⟨u, hu, rfl⟩ := Option.map_eq_some_iff.mp h
    refine ⟨all, following_update hs (caught_size ?_ hu (hs.caught i))⟩
    rw [MessageStorage.size, hs.numbered.length]
    unfold maxInt
    omega
  | getAll i =>
    obtain ⟨u, hu, rfl⟩ := Option.map_eq_some_iff.mp h
    exact ⟨all, following_update hs (caught_getAll hs hc hu)⟩

/-- The runs in which every call and every increment is timely. -/
def timelyLts : LTS (Push ι) (Action ι) := lts.guard fun s a => s.timely a

omit [DecidableEq ι] in
theorem following_initial : (initial : Push ι).Following [] :=
  ⟨MessageStorage.numbered_empty, rfl, show (0 : Int) ≤ maxInt by decide, fun _ => rfl⟩

theorem following_reachable (h : timelyLts.MTr initial xs t) : ∃ all, t.Following all :=
  LTS.mTr_of_trInv (p := fun s => ∃ all, s.Following all)
    (fun _ _ _ htr ⟨_, hs⟩ => following_step htr.1 htr.2 hs) h ⟨[], following_initial⟩

theorem Caught.take {all : List Message} {u : Updater} (h : Caught all u) :
    ∃ k, k ≤ all.length ∧ u.sent.flatten = all.take k := by
  unfold Caught at h
  split at h
  · exact ⟨0, Nat.zero_le _, h⟩
  · exact ⟨0, Nat.zero_le _, h.1⟩
  · exact ⟨_, by omega, h.1⟩
  · exact ⟨_, by omega, h.1⟩
  · obtain ⟨k, hk, hle⟩ := h
    exact ⟨k, hle, hk⟩

/-- While the calls are timely, every subscriber is sent every message once and in order. -/
theorem exactlyOnce_of_timely (h : timelyLts.MTr initial xs t) (i : ι) : t.ExactlyOnce i := by
  obtain ⟨all, hf⟩ := following_reachable h
  obtain ⟨k, hk, hsent⟩ := (hf.caught i).take
  refine ⟨k, ?_, ?_⟩
  · rw [hsent, hf.numbered.map_id_take hk]
  · intro m hm
    rw [hsent] at hm
    exact hf.numbered.lookup (List.mem_of_mem_take hm)

/-- One subscriber: a message before the connection, one after it. -/
def twoPosts : List (Action Unit) :=
  [.put "a" 0, .increment, .size (), .getAll (), .put "b" 0, .increment, .size (), .getAll ()]

def afterTwoPosts : Push Unit := LTS.after step initial twoPosts

theorem exactlyOnce_of_timely_twoPosts :
    afterTwoPosts.ExactlyOnce () ∧
      ((afterTwoPosts.updater ()).sent.map fun batch => batch.map Message.id) = [[0], [1]] := by
  have hrun :
    LTS.run (fun s a => if Push.timely s a then Push.step s a else none) initial twoPosts =
      some afterTwoPosts := rfl
  exact ⟨exactlyOnce_of_timely (LTS.mTr_guard_of_run hrun) (), by decide⟩

/-- A message that is posted while the subscriber connects is sent twice. -/
def postWhileConnecting : List (Action Unit) :=
  [.size (), .put "a" 0, .increment, .getAll (), .size (), .getAll ()]

theorem ids_postWhileConnecting :
    ((LTS.after step initial postWhileConnecting).updater ()).sent.flatten.map Message.id =
    [0, 0] := by
  decide

theorem not_exactlyOnce_postWhileConnecting :
    lts.MTr initial postWhileConnecting (LTS.after step initial postWhileConnecting) ∧
      ¬ (LTS.after step initial postWhileConnecting).ExactlyOnce () := by
  refine ⟨LTS.mTr_after (by decide), ?_⟩
  rintro ⟨k, hk, -⟩
  rw [ids_postWhileConnecting] at hk
  have hlen := congrArg List.length hk
  simp only [List.length_map, List.length_range, List.length_cons, List.length_nil] at hlen
  rw [← hlen] at hk
  exact absurd hk (by decide)

end Push

end NetworkLabs.Chat
