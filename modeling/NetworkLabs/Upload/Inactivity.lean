import NetworkLabs.Upload.Exactness

/-! When a transfer is given up for inactivity. -/
namespace NetworkLabs.Upload

open Transition ConnectionTask

/-- A transfer with the time, and the time of the last byte, or of the beginning before there is
one. -/
structure Timed where
  transfer : Transfer
  now : Int
  last : Int

namespace Timed

/-- How time goes on. Chunks are handled as they come, and a read that gets nothing ends after
`tickTime`. -/
inductive Paced (now last : Int) : Action → Int → Int → Prop
  | begun {r : Fetch} {now' : Int} (le : now ≤ now') : Paced now last (.readSize r now') now' now'
  | chunk {k : Nat} {stored : Bool} {now' : Int} (le : now ≤ now') (soon : now' ≤ now + tickTime) :
      Paced now last (.read (.got k) stored now' now') now' now'
  | tick {stored : Bool} {checked : Int} :
      Paced now last (.read .tick stored checked (now + tickTime)) (now + tickTime) last
  | other {a : Action} {now' : Int} (le : now ≤ now') (size : ∀ r n, a ≠ .readSize r n)
      (read : ∀ r stored checked n, a = .read r stored checked n → r = .closed ∨ r = .failed) :
      Paced now last a now' last

structure Tr (decode : List UInt8 → Name) (s : Timed) (a : Action) (t : Timed) : Prop where
  step : s.transfer.step decode a = some t.transfer
  paced : Paced s.now s.last a t.now t.last

def lts (decode : List UInt8 → Name) : LTS Timed Action := ⟨Tr decode⟩

def start (input : List UInt8) (fs : FileSystem) (now : Int) : Timed :=
  ⟨Transfer.start input fs, now, now⟩

def pc (s : Timed) : Pc := s.transfer.task.pc

/-- The transfer is given up for inactivity. -/
def Aborts (s t : Timed) : Prop :=
  (∃ size lastTime, s.pc = .receive size lastTime) ∧ t.pc = .cleanup .timeout

/-- No chunk comes when the last look at the clock is more than `timeout` ago, and the last byte
before eight ticks in a row came soon enough after it. -/
def Timely (s : Timed) : Action → Prop
  | .read (.got _) stored _ now =>
    stored = true → ∀ size lastTime, s.pc = .receive size lastTime → now - lastTime ≤ timeout
  | .read .tick _ _ now => ∀ size lastTime, s.pc = .receive size lastTime →
      now = s.last + 8 * tickTime → s.last - lastTime ≤ timeout - 8 * tickTime
  | _ => True

/-- The clock was looked at no more than a tick before the last byte, and only ticks have come
since that byte. -/
structure Waiting (s : Timed) (lastTime : Int) : Prop where
  looked : lastTime ≤ s.last
  recent : s.last ≤ lastTime + tickTime
  ticks : ∃ n : Nat, s.now = s.last + n * tickTime
  alive : s.now - lastTime ≤ timeout

/-- The invariant of the receiving loop. -/
def Inv (s : Timed) : Prop := ∀ size lastTime, s.pc = .receive size lastTime → s.Waiting lastTime

variable {decode : List UInt8 → Name} {s t : Timed} {a : Action} {xs : List Action}
  {input : List UInt8} {fs : FileSystem} {now : Int}

theorem lastTime_of_loop {size size' lastTime lastTime' : Int}
    (h : loop size lastTime = .receive size' lastTime') : lastTime' = lastTime := by
  unfold loop at h
  split at h <;> cases h
  rfl

theorem loop_ne_timeout (size lastTime : Int) : loop size lastTime ≠ .cleanup .timeout := by
  unfold loop
  split <;> exact nofun

/-- What a chunk comes to. -/
theorem received_pc (task : ConnectionTask) (fs : FileSystem) (k : Nat) (size lastTime : Int)
    (stored : Bool) (now : Int) : (task.received fs k size lastTime stored now now).1.pc =
      if stored = true then
        if now - lastTime > timeout then .cleanup .timeout
        else loop (size - k) (if now - lastTime > tickTime then now else lastTime)
      else .cleanup .ioError := by
  cases stored with
  | false => rfl
  | true =>
    have hlt : tickTime < timeout := by decide
    simp only [received, if_true, update]
    by_cases hout : now - lastTime > timeout
    · have htick : now - lastTime > tickTime := by omega
      simp only [if_pos hout, if_pos htick]
    · by_cases htick : now - lastTime > tickTime
      · simp only [if_neg hout, if_pos htick]
      · simp only [if_neg hout, if_neg htick]

section Paced
variable {now' last last' n checked : Int} {r : Fetch} {k : Nat} {stored : Bool}

theorem Paced.of_readSize (h : Paced now last (.readSize r n) now' last') :
    now' = n ∧ last' = n := by
  cases h with
  | begun => exact ⟨rfl, rfl⟩
  | other le hsize => exact absurd rfl (hsize _ _)

theorem Paced.of_got (h : Paced now last (.read (.got k) stored checked n) now' last') :
    checked = n ∧ now' = n ∧ last' = n ∧ now ≤ n := by
  cases h with
  | chunk le => exact ⟨rfl, rfl, rfl, le⟩
  | other le hsize hread => rcases hread _ _ _ _ rfl with h | h <;> cases h

theorem Paced.of_tick (h : Paced now last (.read .tick stored checked n) now' last') :
    n = now + tickTime ∧ now' = n ∧ last' = last := by
  cases h with
  | tick => exact ⟨rfl, rfl, rfl⟩
  | other le hsize hread => rcases hread _ _ _ _ rfl with h | h <;> cases h

end Paced

theorem waiting_of_new (transfer : Transfer) {now lastTime : Int} (hlooked : lastTime ≤ now)
    (hrecent : now ≤ lastTime + tickTime) : Waiting ⟨transfer, now, now⟩ lastTime := by
  have halive : now - lastTime ≤ timeout := by
    unfold timeout
    unfold tickTime at hrecent
    omega
  exact ⟨hlooked, hrecent, ⟨0, by simp⟩, halive⟩

theorem Waiting.le_now {lastTime : Int} (h : s.Waiting lastTime) : s.last ≤ s.now := by
  obtain ⟨n, hn⟩ := h.ticks
  unfold tickTime at hn
  omega

theorem inv_step (h : Tr decode s a t) (hs : s.Inv) : t.Inv := by
  obtain ⟨⟨task, fs⟩, now', last'⟩ := t
  obtain ⟨hstep, hpaced⟩ := h
  intro size lastTime hpc
  simp only [pc] at hpaced hpc
  cases Transfer.call_of_step hstep with
  | named | unnamed | taken | parsed | created | refused | unsized | timedOut | broken | deleted
  | kept | responded => cases hpc
  | sized =>
    obtain ⟨rfl, rfl⟩ := hpaced.of_readSize
    simp only at hpc
    obtain rfl := lastTime_of_loop hpc
    exact waiting_of_new _ (Int.le_refl _) (by simp [tickTime])
  | @got k size' lastTime' checked time stored hpc' =>
    obtain ⟨rfl, rfl, rfl, hle⟩ := hpaced.of_got
    have hreceived := hpc.symm.trans (received_pc _ _ k size' lastTime' stored _)
    split at hreceived
    case isFalse => cases hreceived
    split at hreceived
    case isTrue => cases hreceived
    have hlast := lastTime_of_loop hreceived.symm
    split at hlast
    · obtain rfl := hlast
      exact waiting_of_new _ (Int.le_refl _) (by simp [tickTime])
    · rename_i hrecent
      obtain rfl := hlast
      have hwaiting := hs _ _ hpc'
      have hlooked := hwaiting.looked
      have hnow := hwaiting.le_now
      exact waiting_of_new _ (by omega) (by omega)
  | ticked hpc' le =>
    obtain ⟨rfl, rfl, rfl⟩ := hpaced.of_tick
    obtain ⟨hlooked, hrecent, ⟨n, hn⟩, -⟩ := hs _ _ hpc'
    cases hpc'.symm.trans hpc
    refine ⟨hlooked, hrecent, ⟨n + 1, ?_⟩, le⟩
    simp only [tickTime] at hn ⊢
    omega

theorem inv_start : (start input fs now).Inv := nofun

theorem inv_of_run {s₀ : Timed} (h : (lts decode).MTr s₀ xs s) (hs : s₀.Inv) : s.Inv :=
  LTS.mTr_of_trInv (fun _ _ _ hstep => inv_step hstep) h hs

theorem not_aborts_of_pc (h : ∀ size lastTime, s.pc ≠ .receive size lastTime) : ¬ s.Aborts t :=
  fun ha => ha.1.elim fun _ hpc => hpc.elim fun _ hpc => h _ _ hpc

/-- A chunk never justifies it. -/
theorem aborts_of_chunk {size lastTime now' last' : Int} {k : Nat} {stored : Bool}
    (hpc : s.pc = .receive size lastTime) : s.Aborts
      ⟨⟨(s.transfer.task.received s.transfer.fs k size lastTime stored now' now').1,
        (s.transfer.task.received s.transfer.fs k size lastTime stored now' now').2⟩, now', last'⟩ ↔
      stored = true ∧ timeout < now' - lastTime := by
  rw [Aborts, and_iff_right ⟨size, lastTime, hpc⟩]
  simp only [pc, received_pc]
  split
  · split
    · exact iff_of_true rfl ⟨‹_›, ‹_›⟩
    · rename_i hstored hlt
      exact iff_of_false (loop_ne_timeout _ _) fun hlate => hlt hlate.2
  · rename_i hstored
    simp [hstored]

/-- A step that gives up for inactivity does so late enough exactly if it is timely. -/
theorem justified_iff (h : Tr decode s a t) (hs : s.Inv) :
    (s.Aborts t → timeout < t.now - t.last) ↔ s.Timely a := by
  obtain ⟨⟨task, fs⟩, now', last'⟩ := t
  obtain ⟨hstep, hpaced⟩ := h
  simp only at hpaced
  cases Transfer.call_of_step hstep with
  | named hpc | unnamed hpc | taken hpc | parsed hpc | created hpc | refused hpc | sized hpc
  | unsized hpc | deleted hpc | kept hpc | responded hpc =>
    refine iff_of_true (fun ha => absurd ha (not_aborts_of_pc fun _ _ hreceive => ?_)) trivial
    cases hpc.symm.trans hreceive
  | @got k size lastTime checked time stored hpc =>
    obtain ⟨rfl, rfl, rfl, -⟩ := hpaced.of_got
    rw [aborts_of_chunk hpc]
    have hnever : ¬ timeout < last' - last' := by simp [timeout]
    simp only [hnever, imp_false, Timely]
    constructor
    · intro hno hstored size' lastTime' hpc'
      cases hpc.symm.trans hpc'
      by_contra hlt
      exact hno ⟨hstored, Int.not_le.mp hlt⟩
    · rintro htimely ⟨hstored, hlt⟩
      have hle := htimely hstored _ _ hpc
      omega
  | ticked hpc le =>
    obtain ⟨rfl, rfl, rfl⟩ := hpaced.of_tick
    refine iff_of_true (fun ha => ?_) fun size' lastTime' hpc' hnow => ?_
    · cases hpc.symm.trans ha.2
    · cases hpc.symm.trans hpc'
      omega
  | timedOut hpc lt =>
    obtain ⟨rfl, rfl, rfl⟩ := hpaced.of_tick
    obtain ⟨-, hrecent, ⟨n, hn⟩, -⟩ := hs _ _ hpc
    have haborts : s.Aborts ⟨⟨{ s.transfer.task with pc := .cleanup .timeout }, s.transfer.fs⟩,
      s.now + tickTime, s.last⟩ := ⟨⟨_, _, hpc⟩, rfl⟩
    simp only [haborts, true_imp_iff, Timely]
    unfold tickTime timeout at *
    constructor
    · intro hlate size' lastTime' hpc' hnow
      omega
    · intro htimely
      have hle := htimely _ _ hpc
      omega
  | broken hpc fails =>
    refine iff_of_true (fun ha => nomatch ha.2) ?_
    rcases fails with rfl | rfl <;> trivial

/-- Nothing but ticks. -/
def ticks (now : Int) (n : Nat) : List Action := (List.range n).map fun i : Nat =>
  .read .tick true (now + (i + 1) * tickTime) (now + (i + 1) * tickTime)

theorem ticks_succ (now : Int) (n : Nat) : ticks now (n + 1) = ticks now n ++
    [.read .tick true (now + n * tickTime + tickTime) (now + n * tickTime + tickTime)] := by
  have htime : now + (n + 1 : Int) * tickTime = now + n * tickTime + tickTime := by
    unfold tickTime
    omega
  rw [ticks, List.range_succ, List.map_append, List.map_singleton, htime]
  rfl

theorem tr_tick {size lastTime : Int} (hpc : s.pc = .receive size lastTime)
    (h : ¬ s.now + tickTime - lastTime > timeout) :
    Tr decode s (.read .tick true (s.now + tickTime) (s.now + tickTime))
      ⟨s.transfer, s.now + tickTime, s.last⟩ := by
  refine ⟨?_, .tick⟩
  unfold pc at hpc
  simp only [Transfer.step, ConnectionTask.step, hpc, update, if_neg h, Option.map_some]

theorem tr_timeout {size lastTime : Int} (hpc : s.pc = .receive size lastTime)
    (h : s.now + tickTime - lastTime > timeout) :
    Tr decode s (.read .tick true (s.now + tickTime) (s.now + tickTime))
      ⟨⟨{ s.transfer.task with pc := .cleanup .timeout }, s.transfer.fs⟩, s.now + tickTime,
        s.last⟩ := by
  refine ⟨?_, .tick⟩
  unfold pc at hpc
  simp only [Transfer.step, ConnectionTask.step, hpc, update, if_pos h, Option.map_some]

/-- Ticks change nothing up to the timeout. -/
theorem mTr_ticks {size lastTime : Int} (n : Nat) (hpc : s.pc = .receive size lastTime)
    (h : s.now + n * tickTime - lastTime ≤ timeout) :
    (lts decode).MTr s (ticks s.now n) ⟨s.transfer, s.now + n * tickTime, s.last⟩ := by
  induction n with
  | zero =>
    have hnow : s.now + (0 : Nat) * tickTime = s.now := by simp
    rw [hnow]
    exact .refl
  | succ n ih =>
    have htime : s.now + (n + 1 : Nat) * tickTime = s.now + n * tickTime + tickTime := by
      unfold tickTime
      omega
    rw [htime] at h ⊢
    rw [ticks_succ]
    have hpos : 0 < tickTime := by decide
    refine (ih (by omega)).append (.single ?_)
    exact tr_tick (s := ⟨s.transfer, s.now + n * tickTime, s.last⟩) hpc (by simpa using h)

/-- The first tick behind the timeout ends the transfer. -/
theorem mTr_timeout {size lastTime : Int} (n : Nat) (hpc : s.pc = .receive size lastTime)
    (h : s.now + n * tickTime - lastTime ≤ timeout)
    (hlt : timeout < s.now + n * tickTime + tickTime - lastTime) :
    (lts decode).MTr s (ticks s.now (n + 1))
      ⟨⟨{ s.transfer.task with pc := .cleanup .timeout }, s.transfer.fs⟩,
        s.now + n * tickTime + tickTime, s.last⟩ := by
  rw [ticks_succ]
  exact (mTr_ticks n hpc h).append
    (.single (tr_timeout (s := ⟨s.transfer, s.now + n * tickTime, s.last⟩) hpc hlt))

/-- When nothing comes any more, the transfer is given up in time. -/
theorem aborts_of_ticks {size lastTime : Int} (hpc : s.pc = .receive size lastTime) (hs : s.Inv) :
    ∃ n t, (lts decode).MTr s (ticks s.now n) t ∧ t.pc = .cleanup .timeout ∧ t.last = s.last ∧
      t.now - t.last ≤ timeout + 2 * tickTime := by
  have hwaiting := hs _ _ hpc
  have halive := hwaiting.alive
  have hlooked := hwaiting.looked
  have hrun : (lts decode).MTr s _ _ :=
    mTr_timeout ((timeout - (s.now - lastTime)) / tickTime).toNat hpc
      (by unfold tickTime; omega) (by unfold tickTime; omega)
  refine ⟨_, _, hrun, rfl, rfl, ?_⟩
  simp only [tickTime]
  omega

/-- In every state of every run a step gives up late enough exactly if it is timely, and when
nothing comes any more the transfer is given up in time. -/
theorem inactivity (h : (lts decode).MTr (start input fs now) xs s) :
    (∀ a t, (lts decode).Tr s a t → ((s.Aborts t → timeout < t.now - t.last) ↔ s.Timely a)) ∧
    ∀ size lastTime, s.pc = .receive size lastTime → ∃ n t,
      (lts decode).MTr s (ticks s.now n) t ∧ t.pc = .cleanup .timeout ∧ t.last = s.last ∧
        t.now - t.last ≤ timeout + 2 * tickTime := by
  have hinv := inv_of_run h inv_start
  refine ⟨fun a t hstep => justified_iff hstep hinv, fun size lastTime hpc => ?_⟩
  exact aborts_of_ticks hpc hinv

/-- The time on its own. -/
def clock : LTS (Int × Int) Action := ⟨fun s a t => Paced s.1 s.2 a t.1 t.2⟩

theorem mTr_of_clock {v w : Transfer} {time time' : Int × Int}
    (h : (Transfer.lts decode).MTr v xs w) (ht : clock.MTr time xs time') :
    (lts decode).MTr ⟨v, time.1, time.2⟩ xs ⟨w, time'.1, time'.2⟩ := by
  induction h generalizing time with
  | refl =>
    cases ht
    exact .refl
  | @stepL v u _ a _ hstep _ ih =>
    cases ht with
    | @stepL _ time _ _ _ hpaced hrest =>
      have htr : Tr decode ⟨v, _, _⟩ a ⟨u, time.1, time.2⟩ := ⟨hstep, hpaced⟩
      exact .stepL htr (ih hrest)

/-- A client that declares five bytes and sends one. -/
def oneOfFive : List UInt8 := Client.nameBlock [97] ++ (writeLong 5 ++ [1])

/-- The transfer of it that begins at time 0. -/
def begun : Timed where
  transfer := ⟨⟨[1], .receive 5 0, ['a'], (Transfer.noUploads.create ['a']).2, false⟩,
    (Transfer.noUploads.create ['a']).1⟩
  now := 0
  last := 0

theorem mTr_begun : (lts Transfer.ascii).MTr (start oneOfFive Transfer.noUploads 0)
    [.readName .ok, .parse, .create true, .readSize .ok 0] begun := by
  have hhead : (Client.nameBlock [97]).length = bufferSize :=
    Client.length_nameBlock (by decide)
  have hpos : 0 < 5 := by decide
  have hnew : Transfer.noUploads.exists? (baseName (Transfer.ascii (Client.nameBlock [97]))) =
      false := by
    rw [Transfer.baseName_a]
    decide
  have hopen := Transfer.mTr_opening [1] hhead hpos (by decide) hnew
    (by rw [Transfer.baseName_a]; decide)
  rw [Transfer.baseName_a] at hopen
  have hother : ∀ {a : Action}, (∀ r n, a ≠ .readSize r n) →
      (∀ r stored checked n, a ≠ .read r stored checked n) → Paced 0 0 a 0 0 := fun h h' =>
    .other (Int.le_refl 0) h fun r stored checked n heq => absurd heq (h' r stored checked n)
  have hclock : clock.MTr (0, 0) [.readName .ok, .parse, .create true, .readSize .ok 0] (0, 0) :=
    .stepL (t := (0, 0)) (hother nofun nofun) (.stepL (t := (0, 0)) (hother nofun nofun)
      (.stepL (t := (0, 0)) (hother nofun nofun) (.stepL (t := (0, 0)) (.begun (Int.le_refl 0))
        .refl)))
  exact mTr_of_clock hopen hclock

theorem inactivity_begun : begun.pc = .receive 5 0 ∧
    (∀ a t, (lts Transfer.ascii).Tr begun a t →
      ((begun.Aborts t → timeout < t.now - t.last) ↔ begun.Timely a)) ∧
    ∃ n t, (lts Transfer.ascii).MTr begun (ticks 0 n) t ∧ t.pc = .cleanup .timeout ∧
      t.last = 0 ∧ t.now - t.last ≤ timeout + 2 * tickTime :=
  ⟨rfl, (inactivity mTr_begun).1, (inactivity mTr_begun).2 5 0 rfl⟩

/-- The transfer of it when the byte has come after two seconds. -/
def oneByte : Timed where
  transfer := ⟨(begun.transfer.task.received begun.transfer.fs 1 5 0 true 2000 2000).1,
    (begun.transfer.task.received begun.transfer.fs 1 5 0 true 2000 2000).2⟩
  now := 2000
  last := 2000

/-- Nothing follows: the transfer is given up 24 seconds after the byte. -/
theorem not_justified_oneOfFive : ¬ ∀ input fs now xs s a t,
    (lts Transfer.ascii).MTr (start input fs now) xs s → (lts Transfer.ascii).Tr s a t →
      s.Aborts t → timeout < t.now - t.last := by
  intro hall
  have hpc : oneByte.pc = .receive 4 0 := rfl
  have hchunk : Tr Transfer.ascii begun (.read (.got 1) true 2000 2000) oneByte :=
    ⟨rfl, .chunk (by decide) (by decide)⟩
  have hticks : (lts Transfer.ascii).MTr oneByte (ticks 2000 7) ⟨oneByte.transfer, 23000, 2000⟩ :=
    mTr_ticks 7 hpc (by decide)
  have hlast : (lts Transfer.ascii).Tr ⟨oneByte.transfer, 23000, 2000⟩
      (.read .tick true 26000 26000) _ := tr_timeout hpc (by decide)
  have hlate := hall _ _ _ _ _ _ _ ((mTr_begun.append (.single hchunk)).append hticks) hlast
    ⟨⟨4, 0, rfl⟩, rfl⟩
  exact absurd hlate (by decide)

end Timed

end NetworkLabs.Upload
