import NetworkLabs.Finder.App

/-! How often a running program announces itself. -/
namespace NetworkLabs.Finder

open Transition

/-- The time for which datagrams have come without a timeout between them. -/
def quiet (xs : List Reception) : Int := xs.foldl (fun q r => match r with
  | .datagram wait _ _ => q + wait
  | .timedOut => 0) 0

/-- The datagrams of a run from `now` on, each with its time, address and payload. -/
def heard (now : Int) : List Reception → List (Int × String × List UInt8)
  | [] => []
  | r :: rs => (match r with
    | .datagram wait address payload => [(now + wait, address, payload)]
    | .timedOut => []) ++ heard (now + r.wait) rs

/-- A payload that fills the buffer leaves nothing of what was in it. -/
theorem received_of_le {buf payload : List UInt8} (h : buf.length = 5) (hp : 5 ≤ payload.length) :
    received buf payload = payload.take 5 := by
  have hdrop : buf.drop (min payload.length 5) = [] := List.drop_eq_nil_of_le (by omega)
  rw [received, hdrop, List.append_nil]

theorem received_of_length {buf payload : List UInt8} (h : buf.length = 5)
    (hp : payload.length = 5) : received buf payload = payload := by
  rw [received_of_le h (Nat.le_of_eq hp.symm), List.take_of_length_le (Nat.le_of_eq hp)]

theorem length_received {buf : List UInt8} (payload : List UInt8) (h : buf.length = 5) :
    (received buf payload).length = 5 := by
  rw [received, List.length_append, List.length_take, List.length_drop]
  omega

namespace Work

/-- `pingMessage` was sent less than `expiry` ago. -/
def Announced (s : Work) (time : Int) : Prop := ∃ t ∈ s.sent, t ≤ time ∧ time - t < expiry

/-- The handling of `r` clears the entry of `address`. -/
def Drops (s : Work) (r : Reception) (address : String) : Prop :=
  ∃ wait source payload known time, r = .datagram wait source payload ∧
    ({ s.announce.app with buf := received s.announce.app.buf payload } : App).record source
      (s.now + wait) = some known ∧ App.expired known (s.now + wait) = some (address, time)

/-- A program in some state of its run has heard, with `r`, every announcement that `s` has sent
from `address` since that program was started. -/
def Hears (s : Work) (address : String) (peer : Work) (r : Reception) : Prop :=
  ∃ now ys, lts.MTr (start now) ys peer ∧ r.InTime ∧
    ∀ t ∈ s.sent, now < t → t ≤ peer.now + r.wait →
      (t, address, pingMessage) ∈ heard now (ys ++ [r])

/-- What is asked for while `s` waits for `r`. -/
def Present (s : Work) (address : String) (r : Reception) : Prop :=
  ∀ time, s.now ≤ time → time ≤ s.now + r.wait → s.Announced time ∧
    ∀ peer r', s.Hears address peer r' → peer.now + r'.wait = time → ¬ peer.Drops r' address

variable {s t peer : Work} {r : Reception} {xs ys : List Reception} {now : Int} {address : String}

theorem quiet_append_datagram (xs : List Reception) (wait : Int) (source : String)
    (payload : List UInt8) : quiet (xs ++ [.datagram wait source payload]) = quiet xs + wait := by
  simp [quiet]

theorem quiet_append_timedOut (xs : List Reception) : quiet (xs ++ [.timedOut]) = 0 := by
  simp [quiet]

/-- What `parseRecvPacket` does when it does not throw. -/
theorem parseRecvPacket_cases {app app' : App} {source : String} {time currTime : Int}
    {lines : List String} (h : app.parseRecvPacket source time currTime = .ok (app', lines)) :
    (app.record source time = none ∧ app' = app) ∨
    ∃ known, app.record source time = some known ∧ app' = { app with knownPrograms := known } := by
  unfold App.parseRecvPacket at h
  split at h
  · cases h
    exact .inl ⟨‹_›, rfl⟩
  split at h
  · cases h
  · cases h
    exact .inr ⟨_, ‹_›, rfl⟩

theorem parseRecvPacket_buf {app app' : App} {source : String} {time currTime : Int}
    {lines : List String} (h : app.parseRecvPacket source time currTime = .ok (app', lines)) :
    app'.buf = app.buf ∧ app'.timeoutReached = app.timeoutReached := by
  rcases parseRecvPacket_cases h with ⟨-, rfl⟩ | ⟨known, -, rfl⟩
  · exact ⟨rfl, rfl⟩
  · exact ⟨rfl, rfl⟩

@[simp] theorem announce_now (s : Work) : s.announce.now = s.now := by
  unfold announce
  split <;> rfl

@[simp] theorem announce_buf (s : Work) : s.announce.app.buf = s.app.buf := by
  unfold announce
  split <;> rfl

@[simp] theorem announce_knownPrograms (s : Work) :
    s.announce.app.knownPrograms = s.app.knownPrograms := by
  unfold announce
  split <;> rfl

theorem announce_timeoutReached (s : Work) : s.announce.app.timeoutReached = false := by
  unfold announce
  split
  · rfl
  · exact Bool.eq_false_of_not_eq_true ‹_›

theorem announce_of_not (h : s.app.timeoutReached = false) : s.announce = s := by
  simp [announce, h]

/-- Every iteration that does not throw. -/
theorem iterate_cases (h : s.iterate r = .ok t) :
    (r = .timedOut ∧ t = { s.announce with
      app := { s.announce.app with timeoutReached := true }, now := s.now + r.wait }) ∨
    ∃ wait source payload app lines, r = .datagram wait source payload ∧
      ({ s.announce.app with buf := received s.announce.app.buf payload } : App).parseRecvPacket
        source (s.now + wait) (s.now + wait) = .ok (app, lines) ∧
      t = { s.announce with app := app, now := s.now + wait } := by
  unfold iterate at h
  cases r with
  | timedOut =>
    cases h
    exact .inl ⟨rfl, by rw [announce_now]⟩
  | datagram wait source payload =>
    simp only [Reception.wait, announce_now] at h
    obtain ⟨⟨app, lines⟩, hparse, rfl⟩ := map_eq_ok.mp h
    exact .inr ⟨wait, source, payload, app, lines, rfl, hparse, rfl⟩

/-- The last announcement was at the last timeout. -/
structure Announcing (s : Work) (q : Int) : Prop where
  nonneg : 0 ≤ q
  sent : s.now - q ∈ s.announce.sent
  last : ∀ time ∈ s.announce.sent, time ≤ s.now - q

theorem announcing_start (now : Int) : (start now).Announcing 0 := by
  refine ⟨Int.le_refl 0, ?_, ?_⟩
  · simp [start, announce, App.initial]
  · simp [start, announce, App.initial]

theorem announcing_step (hr : r.InTime) (h : s.iterate r = .ok t) (hs : s.Announcing (quiet xs)) :
    t.Announcing (quiet (xs ++ [r])) := by
  obtain ⟨hnonneg, hsent, hlast⟩ := hs
  rcases iterate_cases h with ⟨rfl, rfl⟩ | ⟨wait, source, payload, app, lines, rfl, hparse, rfl⟩
  · rw [quiet_append_timedOut]
    have hwait : 0 ≤ Reception.timedOut.wait := hr.1
    refine ⟨Int.le_refl 0, ?_, ?_⟩
    · simp [announce]
    · intro time htime
      simp only [announce, if_true, List.mem_append, List.mem_singleton] at htime
      rcases htime with htime | rfl
      · have hle := hlast time htime
        simp only
        omega
      · simp
  · rw [quiet_append_datagram]
    have hwait : 0 ≤ wait := hr.1
    have happ : app.timeoutReached = false :=
      (parseRecvPacket_buf hparse).2.trans (announce_timeoutReached s)
    have hstay : announce { s.announce with app := app, now := s.now + wait } =
        { s.announce with app := app, now := s.now + wait } := announce_of_not happ
    refine ⟨by omega, ?_, ?_⟩
    · rw [hstay]
      have htime : s.now + wait - (quiet xs + wait) = s.now - quiet xs := by omega
      simp only [htime]
      exact hsent
    · rw [hstay]
      intro time htime
      have hle := hlast time htime
      simp only
      omega

theorem announcing_of_run (h : lts.MTr s xs t) (hs : s.Announcing (quiet ys)) :
    t.Announcing (quiet (ys ++ xs)) := by
  induction h generalizing ys with
  | refl => simpa using hs
  | stepL hstep _ ih => simpa using ih (announcing_step hstep.1 hstep.2 hs)

/-- The entry of `address` is as new as each of `times`. -/
structure Fresh (address : String) (times : List Int) (s : Work) : Prop where
  buffer : s.app.buf.length = 5
  past : ∀ time ∈ times, time ≤ s.now
  entry : ∀ v, (address, v) ∈ s.app.knownPrograms.entries → ∀ time ∈ times, time ≤ v

/-- The times of the announcements from `address`. -/
def pings (address : String) (es : List (Int × String × List UInt8)) : List Int :=
  es.filterMap fun e => if e.2 = (address, pingMessage) then some e.1 else none

theorem mem_pings {es : List (Int × String × List UInt8)} {time : Int} :
    time ∈ pings address es ↔ (time, address, pingMessage) ∈ es := by
  simp [pings]

theorem heard_cons (now : Int) (r : Reception) (rs : List Reception) :
    heard now (r :: rs) = heard now [r] ++ heard (now + r.wait) rs := by
  simp [heard]

theorem now_of_iterate (h : s.iterate r = .ok t) : t.now = s.now + r.wait := by
  rcases iterate_cases h with ⟨rfl, rfl⟩ | ⟨wait, source, payload, app, lines, rfl, -, rfl⟩
  · rfl
  · rfl

theorem heard_append (h : lts.MTr s xs t) (ys : List Reception) :
    heard s.now (xs ++ ys) = heard s.now xs ++ heard t.now ys := by
  induction h with
  | refl => rfl
  | stepL hstep _ ih =>
    have hnow := now_of_iterate hstep.2
    rw [List.cons_append, heard_cons, ← hnow, ih, ← List.append_assoc, hnow, ← heard_cons]

theorem mem_pings_datagram {wait time : Int} {source : String} {payload : List UInt8} :
    time ∈ pings address (heard now [.datagram wait source payload]) ↔
      time = now + wait ∧ source = address ∧ payload = pingMessage := by
  rw [mem_pings]
  simp [heard, eq_comm]

/-- What `record` makes of a table: of each announcement so far, the entry of `address` is at least
as new. -/
theorem entry_record {wait : Int} {source : String} {payload : List UInt8} {times : List Int}
    {known : OrderedMap String Int} (hwait : 0 ≤ wait) (hs : s.Fresh address times)
    (h : ({ s.announce.app with buf := received s.announce.app.buf payload } : App).record source
      (s.now + wait) = some known) (v : Int) (hv : (address, v) ∈ known.entries) (time : Int)
    (htime : time ∈ times ++ pings address (heard s.now [.datagram wait source payload])) :
    time ≤ v := by
  rw [List.mem_append, mem_pings_datagram] at htime
  have hother : (address, v) ∈ s.app.knownPrograms.entries → address ≠ source → time ≤ v := by
    intro hold hne
    rcases htime with htime | ⟨-, hsource, -⟩
    · exact hs.entry v hold time htime
    · exact absurd hsource.symm hne
  unfold App.record at h
  simp only [announce_knownPrograms] at h
  split at h
  · obtain rfl := Option.some.inj h
    rcases OrderedMap.mem_put.mp hv with heq | ⟨hold, hne⟩
    · obtain ⟨-, rfl⟩ := Prod.mk.inj heq
      rcases htime with htime | ⟨rfl, -⟩
      · have hle := hs.past time htime
        omega
      · exact Int.le_refl _
    · exact hother hold hne
  split at h
  · obtain rfl := Option.some.inj h
    obtain ⟨hold, hne⟩ := OrderedMap.mem_remove.mp hv
    exact hother hold hne
  · cases h

theorem fresh_step {times : List Int} (hr : r.InTime) (h : s.iterate r = .ok t)
    (hs : s.Fresh address times) : t.Fresh address (times ++ pings address (heard s.now [r])) := by
  have hnow := now_of_iterate h
  have hwait := hr.1
  rcases iterate_cases h with ⟨rfl, rfl⟩ | ⟨wait, source, payload, app, lines, rfl, hparse, rfl⟩
  · have hpings : pings address (heard s.now [.timedOut]) = [] := rfl
    rw [hpings, List.append_nil]
    refine ⟨by simpa using hs.buffer, fun time htime => ?_, by simpa using hs.entry⟩
    have hle := hs.past time htime
    rw [hnow]
    omega
  · simp only [Reception.wait] at hnow hwait
    have hlength : (received s.announce.app.buf payload).length = 5 :=
      length_received payload (by simpa using hs.buffer)
    refine ⟨?_, fun time htime => ?_, ?_⟩
    · simpa [(parseRecvPacket_buf hparse).1] using hlength
    · rcases List.mem_append.mp htime with htime | htime
      · have hle := hs.past time htime
        simp only
        omega
      · obtain ⟨rfl, -⟩ := mem_pings_datagram.mp htime
        exact Int.le_refl _
    · rcases parseRecvPacket_cases hparse with ⟨hnone, rfl⟩ | ⟨known, hsome, rfl⟩
      · intro v hv time htime
        rcases List.mem_append.mp htime with htime | htime
        · exact hs.entry v (by simpa using hv) time htime
        · obtain ⟨-, -, rfl⟩ := mem_pings_datagram.mp htime
          rw [App.record, received_of_length (by simpa using hs.buffer) rfl, if_pos rfl] at hnone
          cases hnone
      · exact fun v hv time htime => entry_record hwait hs hsome v hv time htime

/-- No entry is older than the program. -/
theorem fresh_start (address : String) (now : Int) : (start now).Fresh address [now] :=
  ⟨rfl, by simp [start], nofun⟩

theorem fresh_of_run {times : List Int} (h : lts.MTr s xs t) (hs : s.Fresh address times) :
    t.Fresh address (times ++ pings address (heard s.now xs)) := by
  induction h generalizing times with
  | refl => simpa [heard, pings] using hs
  | stepL hstep _ ih =>
    have hrest := ih (fresh_step hstep.1 hstep.2 hs)
    rw [now_of_iterate hstep.2, List.append_assoc, pings, pings, ← List.filterMap_append,
      ← heard_cons] at hrest
    exact hrest

/-- Who hears an announcement in time does not drop the program. -/
theorem not_drops_of_announced (h : s.Announced (peer.now + r.wait))
    (hears : s.Hears address peer r) : ¬ peer.Drops r address := by
  obtain ⟨sent, hsent, hpast, hrecent⟩ := h
  obtain ⟨now', ys, hrun, hr, hheard⟩ := hears
  rintro ⟨wait, source, payload, known, v, rfl, hrecord, hexpired⟩
  have hmem := List.mem_of_find?_eq_some hexpired
  have hlate := List.find?_some hexpired
  have hfresh := fresh_of_run hrun (fresh_start address now')
  have hentry := entry_record hr.1 hfresh hrecord v hmem
  simp only [decide_eq_true_eq, Reception.wait] at hlate hrecent
  by_cases hstarted : now' < sent
  · have hping := hheard sent hsent hstarted hpast
    have hsplit : heard now' (ys ++ [.datagram wait source payload]) =
      heard now' ys ++ heard peer.now [.datagram wait source payload] := heard_append hrun _
    rw [hsplit, ← mem_pings, pings, List.filterMap_append] at hping
    have hle := hentry sent (List.append_assoc _ _ _ ▸ List.mem_append_right _ hping)
    omega
  · have hle := hentry now' (by simp)
    omega

theorem announced_iff (hr : r.InTime) (hs : s.Announcing (quiet xs)) :
    (∀ time, s.now ≤ time → time ≤ s.now + r.wait → s.announce.Announced time) ↔
      quiet xs + r.wait < expiry := by
  have hwait := hr.1
  constructor
  · intro h
    obtain ⟨sent, hsent, -, hrecent⟩ := h (s.now + r.wait) (by omega) (Int.le_refl _)
    have hlast := hs.last sent hsent
    omega
  · intro h time hle hle'
    have hnonneg := hs.nonneg
    exact ⟨_, hs.sent, by omega, by omega⟩

/-- In every state of every run the program is present until the next reception exactly if the waits
for the datagrams since the last timeout and the wait in progress, whatever ends it, take less than
`expiry`. -/
theorem presence (h : lts.MTr (start now) xs s) (hr : r.InTime) (address : String) :
    s.announce.Present address r ↔ quiet xs + r.wait < expiry := by
  have hstart : (start now).Announcing (quiet []) := announcing_start now
  have hannouncing : s.Announcing (quiet xs) := announcing_of_run h hstart
  rw [← announced_iff hr hannouncing, Present, announce_now]
  constructor
  · exact fun hpresent time hle hle' => (hpresent time hle hle').1
  · intro hannounced time hle hle'
    refine ⟨hannounced time hle hle', ?_⟩
    rintro peer r' hears rfl
    exact not_drops_of_announced (hannounced _ hle hle') hears

/-- The first timeout passes before another program leaves. -/
theorem presence_afterTimeout :
    (announce ⟨⟨.empty, List.replicate 5 0, true⟩, 5000, [0]⟩).Present "10.0.0.2"
      (.datagram 100 "10.0.0.1" exitMessage) := by
  have hrun : lts.MTr (start 0) [.timedOut] ⟨⟨.empty, List.replicate 5 0, true⟩, 5000, [0]⟩ :=
    .single ⟨⟨by decide, by decide⟩, rfl⟩
  exact (presence hrun ⟨by decide, by decide⟩ "10.0.0.2").mpr (by decide)

/-- `"Hello"`. -/
def hello : List UInt8 := [72, 101, 108, 108, 111]

/-- Something that is no message comes every four seconds. -/
theorem mTr_chatter (n : Nat) : lts.MTr ⟨⟨.empty, hello, false⟩, now, [0]⟩
    (List.replicate n (.datagram 4000 "10.0.0.1" hello))
    ⟨⟨.empty, hello, false⟩, now + n * 4000, [0]⟩ := by
  induction n generalizing now with
  | zero => simpa using LTS.MTr.refl
  | succ n ih =>
    have htime : now + (n + 1 : Nat) * 4000 = now + 4000 + n * 4000 := by omega
    rw [List.replicate_succ, htime]
    exact .stepL ⟨⟨by decide, by decide⟩, rfl⟩ ih

/-- After 75 such datagrams the program has been silent for five minutes. -/
theorem not_presence : ¬ ∀ now xs s r address, lts.MTr (start now) xs s → r.InTime →
    s.announce.Present address r := by
  intro hall
  have hfirst : lts.MTr (start 0) [.datagram 4000 "10.0.0.1" hello]
    ⟨⟨.empty, hello, false⟩, 4000, [0]⟩ := .single ⟨⟨by decide, by decide⟩, rfl⟩
  have hpresent := hall _ _ _ (.datagram 4000 "10.0.0.1" hello) "10.0.0.2"
    (hfirst.append (mTr_chatter 73)) ⟨by decide, by decide⟩
  obtain ⟨sent, hsent, -, hrecent⟩ := (hpresent 300000 (by decide) (by decide)).1
  obtain rfl := List.mem_singleton.mp hsent
  exact absurd hrecent (by decide)

end Work

end NetworkLabs.Finder
