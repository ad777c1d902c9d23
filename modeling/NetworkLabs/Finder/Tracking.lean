import NetworkLabs.Finder.Presence

/-! What the table of programs says after any sequence of messages. -/
namespace NetworkLabs.Finder

open Transition

inductive Message
  | ping
  | exit
deriving DecidableEq

def Message.bytes : Message → List UInt8
  | .ping => pingMessage
  | .exit => exitMessage

/-- A message with its sender, and the readings of the clock while it is handled. -/
structure Datagram where
  address : String
  message : Message
  time : Int
  currTime : Int
deriving DecidableEq

/-- The clock does not go back. -/
def Nondecreasing (ds : List Datagram) : Prop :=
  (ds.flatMap fun d => [d.time, d.currTime]).Pairwise (· ≤ ·)

/-- The last datagram from an address. -/
def lastFrom (address : String) (ds : List Datagram) : Option Datagram :=
  (ds.filter fun d => d.address = address).getLast?

/-- The last datagram from the address was `pingMessage`, less than `expiry` before. -/
def Live (ds : List Datagram) (currTime : Int) (address : String) : Prop :=
  ∃ d, lastFrom address ds = some d ∧ d.message = .ping ∧ currTime - d.time < expiry

/-- The last datagram from some address was `pingMessage`, and since then it was silent for
`expiry` or longer. -/
def Overdue (ds : List Datagram) (currTime : Int) : Prop :=
  ∃ address d, lastFrom address ds = some d ∧ d.message = .ping ∧ expiry ≤ currTime - d.time

namespace App

def call (s : App) (d : Datagram) : Except Thrown (App × List String) :=
  ({ s with buf := received s.buf d.message.bytes } : App).parseRecvPacket d.address d.time
    d.currTime

/-- One call after the other, as long as none throws. -/
def calls (s : App) : List Datagram → Except Thrown App
  | [] => .ok s
  | d :: ds => (s.call d).bind fun r => r.1.calls ds

/-- The call for `d` after those for `ds`: none throws, and the programs that are live are the
ones in the table and the ones printed, in the order of their addresses. -/
def Tracks (ds : List Datagram) (d : Datagram) : Prop :=
  ∃ s t lines, initial.calls ds = .ok s ∧ s.call d = .ok (t, lines) ∧
    (∀ address, (∃ time, (address, time) ∈ t.knownPrograms.entries) ↔
      Live (ds ++ [d]) d.currTime address) ∧
    ∃ printed, lines = "List of active programs" ::
        (if printed = [] then ["No copies detected"] else []) ++ printed ∧
      printed.Pairwise (· < ·) ∧
      ∀ address, address ∈ printed ↔ Live (ds ++ [d]) d.currTime address

variable {s t : App} {d : Datagram} {ds xs : List Datagram} {address : String} {lines : List String}

theorem calls_concat (s : App) (ds : List Datagram) (d : Datagram) :
    s.calls (ds ++ [d]) = (s.calls ds).bind fun t => (t.call d).map Prod.fst := by
  induction ds generalizing s with
  | nil =>
    simp only [List.nil_append, calls, Except.bind]
    cases s.call d <;> rfl
  | cons e ds ih =>
    simp only [List.cons_append, calls]
    cases s.call e with
    | error e => rfl
    | ok r => exact ih r.1

/-- What the `switch` makes of the table. -/
def recorded (s : App) (d : Datagram) : OrderedMap String Int :=
  match d.message with
  | .ping => s.knownPrograms.put d.address d.time
  | .exit => s.knownPrograms.remove d.address

theorem length_bytes (m : Message) : m.bytes.length = 5 := by
  cases m <;> rfl

theorem received_bytes {buf : List UInt8} (h : buf.length = 5) (m : Message) :
    received buf m.bytes = m.bytes :=
  received_of_length h (length_bytes m)

theorem record_bytes (h : s.buf = d.message.bytes) :
    s.record d.address d.time = some (s.recorded d) := by
  cases hm : d.message with
  | ping =>
    have hbuf : s.buf = pingMessage := by rw [h, hm]; rfl
    simp only [record, recorded, hm, if_pos hbuf]
  | exit =>
    have hbuf : s.buf = exitMessage := by rw [h, hm]; rfl
    have hne : s.buf ≠ pingMessage := by
      rw [hbuf]
      decide
    simp only [record, recorded, hm, if_neg hne, if_pos hbuf]

/-- A call that finds no entry to clear. -/
theorem call_of_none (h : s.buf.length = 5) (hnone : expired (s.recorded d) d.currTime = none) :
    s.call d = .ok ({ s with knownPrograms := s.recorded d, buf := d.message.bytes },
      "List of active programs" ::
        (if (s.recorded d).entries = [] then ["No copies detected"] else []) ++
          (s.recorded d).entries.map Prod.fst) := by
  have hrecord : ({ s with buf := d.message.bytes } : App).record d.address d.time =
      some (s.recorded d) := record_bytes rfl
  simp only [call, received_bytes h, parseRecvPacket, hrecord, hnone]

theorem call_of_some {e : String × Int} (h : s.buf.length = 5)
    (hsome : expired (s.recorded d) d.currTime = some e) :
    s.call d = .error .concurrentModification := by
  have hrecord : ({ s with buf := d.message.bytes } : App).record d.address d.time =
      some (s.recorded d) := record_bytes rfl
  simp only [call, received_bytes h, parseRecvPacket, hrecord, hsome]

theorem expired_eq_none_iff {known : OrderedMap String Int} {currTime : Int} :
    expired known currTime = none ↔ ∀ e ∈ known.entries, currTime - e.2 < expiry := by
  simp [expired]

theorem lastFrom_concat (address : String) (ds : List Datagram) (d : Datagram) :
    lastFrom address (ds ++ [d]) =
      if d.address = address then some d else lastFrom address ds := by
  unfold lastFrom
  rw [List.filter_append]
  by_cases h : d.address = address
  · simp [h]
  · simp [h]

/-- The table holds the time of every `pingMessage` that is the last datagram from its address. -/
structure Knows (s : App) (ds : List Datagram) : Prop where
  buffer : s.buf.length = 5
  entries : ∀ address time, (address, time) ∈ s.knownPrograms.entries ↔
    ∃ d, lastFrom address ds = some d ∧ d.message = .ping ∧ d.time = time

theorem knows_initial : initial.Knows [] := by
  apply Knows.mk
  · rfl
  · intro address time
    simp [initial, OrderedMap.empty, lastFrom]

/-- The table that the sweep goes through. -/
theorem Knows.recorded (h : s.Knows ds) (d : Datagram) (address : String) (time : Int) :
    (address, time) ∈ (s.recorded d).entries ↔
      ∃ e, lastFrom address (ds ++ [d]) = some e ∧ e.message = .ping ∧ e.time = time := by
  have hold := h.entries address time
  rw [lastFrom_concat]
  cases hm : d.message with
  | ping =>
    simp only [App.recorded, hm, OrderedMap.mem_put, Prod.mk.injEq]
    split
    · rename_i haddress
      subst haddress
      simp [hm, eq_comm]
    · rename_i hne
      simp [hold, Ne.symm hne]
  | exit =>
    simp only [App.recorded, hm, OrderedMap.mem_remove]
    split
    · rename_i haddress
      subst haddress
      simp [hm]
    · rename_i hne
      simp [hold, Ne.symm hne]

theorem Knows.expired_iff (h : s.Knows ds) (d : Datagram) :
    expired (s.recorded d) d.currTime = none ↔ ¬ Overdue (ds ++ [d]) d.currTime := by
  rw [expired_eq_none_iff]
  constructor
  · rintro hnone ⟨address, e, hlast, hping, hlate⟩
    have hmem := (h.recorded d address e.time).mpr ⟨e, hlast, hping, rfl⟩
    have hrecent := hnone _ hmem
    simp only at hrecent
    omega
  · rintro hnone ⟨address, time⟩ hmem
    obtain ⟨e, hlast, hping, rfl⟩ := (h.recorded d address time).mp hmem
    by_contra hlate
    exact hnone ⟨address, e, hlast, hping, Int.not_lt.mp hlate⟩

/-- The call goes through exactly if nothing is overdue, and then the table is right again. -/
theorem Knows.call_ok (h : s.Knows ds) (hd : ¬ Overdue (ds ++ [d]) d.currTime) :
    ∃ t, s.call d = .ok (t, "List of active programs" ::
        (if t.knownPrograms.entries = [] then ["No copies detected"] else []) ++
          t.knownPrograms.entries.map Prod.fst) ∧ t.Knows (ds ++ [d]) := by
  have hnone := (h.expired_iff d).mpr hd
  refine ⟨{ s with knownPrograms := s.recorded d, buf := d.message.bytes }, ?_, ?_, ?_⟩
  · exact call_of_none h.buffer hnone
  · exact length_bytes d.message
  · exact h.recorded d

theorem Knows.of_call (h : s.Knows ds) (hd : s.call d = .ok (t, lines)) :
    ¬ Overdue (ds ++ [d]) d.currTime := by
  apply (h.expired_iff d).mp
  cases hexpired : expired (s.recorded d) d.currTime with
  | none => rfl
  | some e =>
    rw [call_of_some h.buffer hexpired] at hd
    cases hd

theorem knows_of_calls (h : initial.calls ds = .ok s) : s.Knows ds := by
  induction ds using List.reverseRecOn generalizing s with
  | nil =>
    cases h
    exact knows_initial
  | append_singleton ds d ih =>
    rw [calls_concat] at h
    obtain ⟨t, hcalls, h⟩ := bind_eq_ok.mp h
    obtain ⟨r, hcall, rfl⟩ := map_eq_ok.mp h
    have hknows := ih hcalls
    obtain ⟨u, hu, hknows'⟩ := hknows.call_ok (hknows.of_call hcall)
    rw [hu] at hcall
    cases hcall
    exact hknows'

/-- As long as nothing is overdue, no call throws. -/
theorem calls_ok (xs : List Datagram)
    (h : ∀ ds d, ds ++ [d] <+: xs → ¬ Overdue (ds ++ [d]) d.currTime) :
    ∃ s, initial.calls xs = .ok s := by
  induction xs using List.reverseRecOn with
  | nil => exact ⟨initial, rfl⟩
  | append_singleton xs d ih =>
    obtain ⟨s, hs⟩ := ih fun ds e hpre => h ds e (hpre.trans (List.prefix_append xs [d]))
    obtain ⟨t, ht, -⟩ := (knows_of_calls hs).call_ok (h xs d List.prefix_rfl)
    refine ⟨t, ?_⟩
    rw [calls_concat, hs]
    simp only [Except.bind, ht, Except.map]

/-- Nothing is overdue, so every known program is live. -/
theorem Knows.live_iff (h : t.Knows ds) {currTime : Int} (hd : ¬ Overdue ds currTime)
    (address : String) :
    (∃ time, (address, time) ∈ t.knownPrograms.entries) ↔ Live ds currTime address := by
  constructor
  · rintro ⟨time, hmem⟩
    obtain ⟨e, hlast, hping, rfl⟩ := (h.entries address time).mp hmem
    refine ⟨e, hlast, hping, ?_⟩
    by_contra hlate
    exact hd ⟨address, e, hlast, hping, Int.not_lt.mp hlate⟩
  · rintro ⟨e, hlast, hping, -⟩
    exact ⟨e.time, (h.entries address e.time).mpr ⟨e, hlast, hping, rfl⟩⟩

theorem tracks_of_calls (hs : initial.calls ds = .ok s)
    (hd : ¬ Overdue (ds ++ [d]) d.currTime) : Tracks ds d := by
  obtain ⟨t, hcall, hknows⟩ := (knows_of_calls hs).call_ok hd
  have hlive := hknows.live_iff hd
  refine ⟨s, t, _, hs, hcall, hlive, t.knownPrograms.entries.map Prod.fst, ?_, ?_, ?_⟩
  · simp only [List.map_eq_nil_iff]
  · exact List.pairwise_map.mpr t.knownPrograms.sorted
  · intro address
    rw [← hlive address]
    simp

theorem not_overdue_of_tracks (h : Tracks ds d) : ¬ Overdue (ds ++ [d]) d.currTime := by
  obtain ⟨s, t, lines, hs, hcall, -⟩ := h
  exact (knows_of_calls hs).of_call hcall

/-- For any messages at any times: every call goes through and leaves and prints exactly the live
programs, if and only if at no call a program that announced itself last has been silent for
`expiry`. -/
theorem tracks_iff (xs : List Datagram) :
    (∀ ds d, ds ++ [d] <+: xs → Tracks ds d) ↔
      ∀ ds d, ds ++ [d] <+: xs → ¬ Overdue (ds ++ [d]) d.currTime := by
  constructor
  · intro h ds d hpre
    exact not_overdue_of_tracks (h ds d hpre)
  · intro h ds d hpre
    obtain ⟨s, hs⟩ := calls_ok ds fun ds' e hpre' =>
      h ds' e (hpre'.trans ((List.prefix_append ds [d]).trans hpre))
    exact tracks_of_calls hs (h ds d hpre)

/-- A program announces itself, and five minutes later another one does. -/
def silence : List Datagram :=
  [⟨"10.0.0.1", .ping, 0, 0⟩, ⟨"10.0.0.2", .ping, 300000, 300000⟩]

/-- The entry of the first is removed while the table is printed. -/
theorem not_tracks_silence :
    ¬ ∀ xs, Nondecreasing xs → ∀ ds d, ds ++ [d] <+: xs → Tracks ds d := by
  intro h
  have hclock : Nondecreasing silence := by
    unfold Nondecreasing silence
    decide
  have htracks := h silence hclock [⟨"10.0.0.1", .ping, 0, 0⟩]
    ⟨"10.0.0.2", .ping, 300000, 300000⟩ (List.prefix_refl _)
  apply not_overdue_of_tracks htracks
  exact ⟨"10.0.0.1", ⟨"10.0.0.1", .ping, 0, 0⟩, by decide, rfl, by decide⟩

end App

end NetworkLabs.Finder
