import NetworkLabs.Upload.Exactness

/-! What the client is told, and what became of its file. -/
namespace NetworkLabs.Upload

open Transition FileSystem

/-- How the task left its `try` block, once it has. -/
def Pc.ending : Pc → Option Ending
  | .cleanup e | .respond e | .closed e => some e
  | _ => none

namespace Transfer

open ConnectionTask

variable {decode : List UInt8 → Name} {before : FileSystem} {input : List UInt8} {s t : Transfer}
  {a : Action} {xs : List Action} {e : Ending}

/-- The size that the client declares. -/
def declared (input : List UInt8) : Int := readLong ((input.drop bufferSize).take 8)

/-- What the client sends after its header. -/
def rest (input : List UInt8) : List UInt8 := (input.drop bufferSize).drop 8

/-- A file that was not there before the upload is there, and all the declared bytes were
received into it. -/
structure Arrived (before : FileSystem) (input : List UInt8) (t : Transfer) : Prop where
  created : before.uploads (entry t.task.filename) = none
  received : (declared input).toNat ≤ (rest input).length
  stored : ∃ bytes, t.fs.content t.task.filename = some bytes ∧
    (rest input).take (declared input).toNat <+: bytes

/-- The call comes out well: the name is new and can be created, nothing fails or ends early,
and the clock stays below the timeout. -/
def Succeeds (s : Transfer) : Action → Prop
  | .readName r | .readSize r _ => r = .ok
  | .parse => ∀ name, s.task.pc = .parse name → s.fs.exists? (baseName name) = false
  | .create ok => ok ∧ s.task.filename.all (· ≠ Char.ofNat 0)
  | .read r stored checked now => ∀ size lastTime, s.task.pc = .receive size lastTime →
    match r with
    | .got _ => stored ∧ (checked - lastTime > tickTime → now - lastTime ≤ timeout)
    | .tick => now - lastTime ≤ timeout
    | .closed | .failed => False
  | .cleanup | .respond => True

/-- The task has left its `try` block by an exception. -/
def Failed (s : Transfer) : Prop := ∃ e, s.task.pc.ending = some e ∧ e ≠ .completed

theorem not_failed_of_ending (h : s.task.pc.ending = none) : ¬ s.Failed := by
  simp [Failed, h]

theorem failed_iff (h : s.task.pc.ending = some e) : s.Failed ↔ e ≠ .completed := by
  simp [Failed, h]

theorem not_failed_loop (size lastTime : Int) (h : s.task.pc = loop size lastTime) :
    ¬ s.Failed := by
  unfold loop at h
  split at h <;> simp [Failed, Pc.ending, h]

/-- A read that brought bytes went well if they were stored in time. -/
theorem received_failed_iff (task : ConnectionTask) (fs fs' : FileSystem) (k : Nat)
    (size lastTime : Int) (stored : Bool) (checked now : Int) :
    ¬ Failed ⟨(task.received fs k size lastTime stored checked now).1, fs'⟩ ↔
      stored ∧ (checked - lastTime > tickTime → now - lastTime ≤ timeout) := by
  cases stored with
  | false => simp [Failed, received, Pc.ending]
  | true =>
    by_cases htick : checked - lastTime > tickTime
    · by_cases hlate : now - lastTime > timeout
      · simp only [received, if_true, if_pos htick, update, if_pos hlate]
        simp only [Failed, Pc.ending, Option.some.injEq, exists_eq_left', htick, true_implies,
          true_and]
        simpa using Int.add_lt_of_lt_sub_right hlate
      · have hgoes : ¬ Failed ⟨(task.received fs k size lastTime true checked now).1, fs'⟩ := by
          apply not_failed_loop (size - k) now
          simp only [received, if_true, if_pos htick, update, if_neg hlate]
        simpa [hgoes] using fun _ => Int.not_lt.mp hlate
    · have hgoes : ¬ Failed ⟨(task.received fs k size lastTime true checked now).1, fs'⟩ := by
        apply not_failed_loop (size - k) lastTime
        simp only [received, if_true, if_neg htick]
      simp [hgoes, htick]

/-- A call that comes out well is one after which the upload goes on or has ended normally. -/
theorem succeeds_iff (h : s.step decode a = some t) (hs : ¬ s.Failed) :
    s.Succeeds a ↔ ¬ t.Failed := by
  obtain ⟨task, fs⟩ := t
  cases call_of_step h with
  | named | created | ticked | taken | refused => simp_all [Succeeds, Failed, Pc.ending]
  | unnamed hpc fails ending | unsized hpc fails ending =>
    rcases ending with rfl | rfl <;> simp [Succeeds, Failed, Pc.ending, fails]
  | timedOut hpc late =>
    simp [Succeeds, Failed, Pc.ending, hpc]
    omega
  | parsed hpc new =>
    simp [Succeeds, Failed, Pc.ending, hpc, new]
  | sized =>
    generalize readLong (s.task.input.take 8) = size
    simpa [Succeeds] using not_failed_loop size _ rfl
  | got hpc range =>
    rw [received_failed_iff]
    simp [Succeeds, hpc]
  | broken hpc fails =>
    rcases fails with rfl | rfl <;> simp [Succeeds, Failed, Pc.ending, hpc]
  | deleted hpc | kept hpc | responded hpc =>
    simpa [Succeeds, Failed, Pc.ending, hpc] using hs

theorem failed_step (h : s.step decode a = some t) (hs : s.Failed) : t.Failed := by
  obtain ⟨task, fs⟩ := t
  cases call_of_step h with
  | deleted hpc | kept hpc | responded hpc => simpa [Failed, Pc.ending, hpc] using hs
  | _ => simp_all [Failed, Pc.ending]

/-- The calls all come out well exactly if the upload does not fail. -/
theorem mTr_guard_iff (h : (lts decode).MTr s xs t) (hs : ¬ s.Failed) :
    ((lts decode).guard Succeeds).MTr s xs t ↔ ¬ t.Failed := by
  have hfailed : (lts decode).TrInv Failed := fun _ _ _ h => failed_step h
  induction h with
  | refl => exact ⟨fun _ => hs, fun _ => .refl⟩
  | @stepL s u t a xs hstep hrest ih =>
    constructor
    · intro hg
      have hinv : ((lts decode).guard Succeeds).TrInv fun s => ¬ s.Failed :=
        fun _ _ _ h hs => (succeeds_iff h.1 hs).mp h.2
      exact LTS.mTr_of_trInv (p := fun s : Transfer => ¬ s.Failed) hinv hg hs
    · intro ht
      have hu : ¬ u.Failed := fun hu => ht (LTS.mTr_of_trInv hfailed hrest hu)
      exact .stepL ⟨hstep, (succeeds_iff hstep hs).mpr hu⟩ ((ih hu).mpr ht)

/-- What is known of the directory and of the stream on the way: the entry of the upload was not
there before, and is there only from the creation of the file to its deletion. -/
def Booked (before : FileSystem) (input : List UInt8) (s : Transfer) : Prop :=
  match s.task.pc with
  | .readName => s.task.filename = [] ∧ s.fs.uploads = before.uploads ∧ s.task.input = input
  | .parse _ => s.task.filename = [] ∧ s.fs.uploads = before.uploads ∧
      bufferSize ≤ input.length ∧ s.task.input = input.drop bufferSize
  | .create => s.fs.exists? s.task.filename = false ∧ s.fs.uploads = before.uploads ∧
      bufferSize ≤ input.length ∧ s.task.input = input.drop bufferSize
  | .readSize => s.task.filename ≠ [] ∧ before.uploads (entry s.task.filename) = none ∧
      bufferSize ≤ input.length ∧ s.task.input = input.drop bufferSize
  | .receive _ _ => s.task.filename ≠ [] ∧ before.uploads (entry s.task.filename) = none ∧
      bufferSize + 8 ≤ input.length
  | .cleanup e =>
    if e = .completed then
      before.uploads (entry s.task.filename) = none ∧ bufferSize + 8 ≤ input.length
    else e.requestCleanup ∧ s.task.filename ≠ [] ∨ s.fs.uploads = before.uploads
  | .respond e | .closed e =>
    if e = .completed then
      before.uploads (entry s.task.filename) = none ∧ bufferSize + 8 ≤ input.length
    else s.fs.uploads (entry s.task.filename) = none ∨ s.fs.uploads = before.uploads

theorem booked_loop (size lastTime : Int) (hpc : s.task.pc = loop size lastTime)
    (hname : s.task.filename ≠ []) (hnew : before.uploads (entry s.task.filename) = none)
    (hle : bufferSize + 8 ≤ input.length) : Booked before input s := by
  unfold loop at hpc
  unfold Booked
  split at hpc <;> simp [hpc, hname, hnew, hle]

theorem free_of_not_exists {fs : FileSystem} {name : Name} (h : fs.exists? name = false) :
    name ≠ [] ∧ fs.uploads (entry name) = none := by
  simp only [exists?, Bool.or_eq_false_iff, decide_eq_false_iff_not, Option.isSome_eq_false_iff,
    Option.isNone_iff_eq_none] at h
  refine ⟨fun hname => h.1.1.1 ?_, h.2⟩
  simp [hname, entry]

theorem booked_received {task : ConnectionTask} {fs : FileSystem} {k : Nat} {size lastTime : Int}
    {stored : Bool} (checked now : Int) (hname : task.filename ≠ [])
    (hnew : before.uploads (entry task.filename) = none) (hle : bufferSize + 8 ≤ input.length) :
    Booked before input ⟨(task.received fs k size lastTime stored checked now).1,
      (task.received fs k size lastTime stored checked now).2⟩ := by
  have hnext : ∀ lastTime' (h : Handle) (fs' : FileSystem), Booked before input
      ⟨{ task with input := task.input.drop k, handle := h, pc := loop (size - k) lastTime' },
      fs'⟩ :=
    fun lastTime' _ _ => booked_loop (size - k) lastTime' rfl hname hnew hle
  cases stored with
  | false => simp [Booked, received, hname, Ending.requestCleanup]
  | true =>
    simp only [received, if_true]
    split
    · cases update now lastTime with
      | none => simp [Booked, hname, Ending.requestCleanup]
      | some lastTime' => exact hnext lastTime' _ _
    · exact hnext lastTime _ _

theorem booked_step (h : s.step decode a = some t) (hs : Booked before input s) :
    Booked before input t := by
  obtain ⟨task, fs⟩ := t
  cases call_of_step h with
  | named hpc le =>
    simp only [Booked, hpc] at hs
    exact ⟨hs.1, hs.2.1, hs.2.2 ▸ le, by simp only [hs.2.2]⟩
  | unnamed hpc fails ending =>
    simp only [Booked, hpc] at hs
    rcases ending with rfl | rfl <;> simp [Booked, hs.2.1]
  | taken hpc old =>
    simp only [Booked, hpc] at hs
    simp [Booked, hs.2.1]
  | parsed hpc new =>
    simp only [Booked, hpc] at hs
    exact ⟨new, hs.2⟩
  | created hpc valid =>
    simp only [Booked, hpc] at hs
    obtain ⟨hne, hfree⟩ := free_of_not_exists hs.1
    exact ⟨hne, hs.2.1 ▸ hfree, hs.2.2⟩
  | refused hpc invalid =>
    simp only [Booked, hpc] at hs
    simp [Booked, hs.2.1]
  | sized hpc le =>
    simp only [Booked, hpc] at hs
    generalize readLong (s.task.input.take 8) = size
    refine booked_loop size _ rfl hs.1 hs.2.1 ?_
    rw [hs.2.2.2, List.length_drop] at le
    omega
  | unsized hpc fails ending =>
    simp only [Booked, hpc] at hs
    rcases ending with rfl | rfl <;> simp [Booked, hs.1, Ending.requestCleanup]
  | got hpc range =>
    simp only [Booked, hpc] at hs
    exact booked_received _ _ hs.1 hs.2.1 hs.2.2
  | ticked => exact hs
  | timedOut hpc =>
    simp only [Booked, hpc] at hs
    simp [Booked, hs.1, Ending.requestCleanup]
  | broken hpc =>
    simp only [Booked, hpc] at hs
    simp [Booked, hs.1, Ending.requestCleanup]
  | @deleted e hpc requested name =>
    have hne : ¬ e = .completed := fun he => by simp [he, Ending.requestCleanup] at requested
    simp only [Booked, if_neg hne]
    exact .inl (Function.update_self _ _ _)
  | @kept e hpc unwanted =>
    simp only [Booked, hpc] at hs
    by_cases he : e = .completed
    · simpa [Booked, he] using hs
    · simp only [if_neg he] at hs
      simp only [Booked, if_neg he]
      exact .inr (hs.resolve_left fun hdel => hdel.2 (unwanted hdel.1))
  | responded hpc =>
    simp only [Booked, hpc] at hs
    exact hs

theorem loop_ne_closed (size lastTime : Int) (e : Ending) : loop size lastTime ≠ .closed e := by
  unfold loop
  split <;> exact nofun

theorem received_ne_closed {task : ConnectionTask} {fs : FileSystem} {k : Nat} {size lastTime : Int}
    {stored : Bool} {checked now : Int} (e : Ending) :
    (task.received fs k size lastTime stored checked now).1.pc ≠ .closed e := by
  cases stored with
  | false => simp [received]
  | true =>
    simp only [received, if_true]
    split
    · cases update now lastTime with
      | none => simp
      | some lastTime' => exact loop_ne_closed _ _ e
    · exact loop_ne_closed _ _ e

theorem success_of_closed (h : (lts decode).MTr (start input before) xs t)
    (ht : t.task.pc = .closed e) : t.task.success = true := by
  have hinv : (lts decode).TrInv fun s => ∀ e, s.task.pc = .closed e → s.task.success = true := by
    rintro s a ⟨task, fs⟩ hstep hs
    cases call_of_step hstep with
    | responded => exact fun _ _ => rfl
    | sized =>
      generalize readLong (s.task.input.take 8) = size
      exact fun e h => absurd h (loop_ne_closed _ _ e)
    | got => exact fun e h => absurd h (received_ne_closed e)
    | ticked => exact hs
    | _ => exact nofun
  exact LTS.mTr_of_trInv (p :=
    fun s : Transfer => ∀ e, s.task.pc = .closed e → s.task.success = true) hinv h nofun e ht

theorem arrived_of_completed (hn : 0 ≤ declared input)
    (h : (lts decode).MTr (start input before) xs t) (ht : t.task.pc = .closed .completed) :
    Arrived before input t := by
  have hbooked : Booked before input t :=
    LTS.mTr_of_trInv (fun _ _ _ hstep hs => booked_step hstep hs) h ⟨rfl, rfl, rfl⟩
  simp only [Booked, ht, if_true] at hbooked
  obtain ⟨hnew, hle⟩ := hbooked
  have hhead : (input.take bufferSize).length = bufferSize := by
    rw [List.length_take]
    omega
  have hsize : ((input.drop bufferSize).take 8).length = 8 := by
    rw [List.length_take, List.length_drop]
    omega
  have hlt := readLong_lt ((input.drop bufferSize).take 8)
  have hlong : writeLong (declared input).toNat = (input.drop bufferSize).take 8 := by
    rw [Int.toNat_of_nonneg hn, declared, writeLong_readLong hsize]
  have hinput : input = input.take bufferSize ++
    (writeLong (declared input).toNat ++ rest input) := by
    rw [hlong, rest, List.take_append_drop, List.take_append_drop]
  rw [hinput] at h
  obtain ⟨hge, hlen, hcontent⟩ := stored_of_completed hhead (by unfold declared; omega) h ht
  exact ⟨hnew, hge.trans hlen, _, hcontent, List.take_prefix_take_left hge⟩

theorem not_arrived_of_ne_completed (h : (lts decode).MTr (start input before) xs t)
    (ht : t.task.pc = .closed e) (he : e ≠ .completed) : ¬ Arrived before input t := by
  have hbooked : Booked before input t :=
    LTS.mTr_of_trInv (fun _ _ _ hstep hs => booked_step hstep hs) h ⟨rfl, rfl, rfl⟩
  simp only [Booked, ht, if_neg he] at hbooked
  intro harrived
  have hgone : t.fs.uploads (entry t.task.filename) = none :=
    hbooked.elim id fun hsame => hsame ▸ harrived.created
  obtain ⟨bytes, hcontent, -⟩ := harrived.stored
  simp [content, hgone] at hcontent

/-- The server says `Success` in any case; that is the truth exactly if every call came out well. -/
theorem reported_iff (hn : 0 ≤ declared input) (h : (lts decode).MTr (start input before) xs t)
    (ht : t.task.pc = .closed e) :
    (t.task.success = true ↔ Arrived before input t) ↔
      ((lts decode).guard Succeeds).MTr (start input before) xs t := by
  have hstart : ¬ Failed (start input before) := not_failed_of_ending rfl
  have hending : t.task.pc.ending = some e := by rw [ht]; rfl
  rw [mTr_guard_iff h hstart, failed_iff hending, not_not]
  simp only [success_of_closed h ht, true_iff]
  by_cases he : e = .completed
  · subst he
    simp [arrived_of_completed hn h ht]
  · simp [he, not_arrived_of_ne_completed h ht he]

theorem declared_append {head : List UInt8} {n : Nat} (body : List UInt8)
    (hhead : head.length = bufferSize)
    (hn : n < 2 ^ 63) : declared (head ++ (writeLong n ++ body)) = n := by
  rw [declared, List.drop_left' hhead, List.take_left' (length_writeLong _),
    readLong_writeLong (by omega) (by omega)]

theorem reported_iff_a : ∃ input t, Client.main [97] [7] [1] = some input ∧
    (lts ascii).MTr (start input noUploads) (script [1]) t ∧
      ((t.task.success = true ↔ Arrived noUploads input t) ↔
        ((lts ascii).guard Succeeds).MTr (start input noUploads) (script [1]) t) := by
  have hseven : [(7 : UInt8)].length = 1 := rfl
  obtain ⟨t, input, hinput, hrun, ht⟩ := completes_a (k := 1) hseven (by decide) (by decide)
  have hmain := hinput
  simp only [Client.main, Option.ite_none_right_eq_some, Option.some.injEq] at hinput
  obtain ⟨hle, rfl⟩ := hinput
  rw [List.append_assoc] at hrun hmain
  have hdeclared := declared_append (n := [(7 : UInt8)].length)
    (Client.body (Client.nameBlock [97]) [7] [1]) (Client.length_nameBlock hle) (by decide)
  refine ⟨_, t, hmain, hrun, reported_iff ?_ hrun ht⟩
  rw [hdeclared]
  decide

theorem mTr_hangUp {size lastTime : Int} (h : s.task.pc = .receive size lastTime)
    (hname : s.task.filename ≠ []) :
    (lts decode).MTr s [.read .closed false 0 0, .cleanup, .respond]
      ⟨{ s.task with pc := .closed .ioError, success := true }, s.fs.delete s.task.filename⟩ := by
  have hread : Transfer.step decode s (.read .closed false 0 0) =
      some ⟨{ s.task with pc := .cleanup .ioError }, s.fs⟩ := by
    simp [Transfer.step, ConnectionTask.step, h]
  have hcleanup : Transfer.step decode ⟨{ s.task with pc := .cleanup .ioError }, s.fs⟩ .cleanup =
      some ⟨{ s.task with pc := .respond .ioError }, s.fs.delete s.task.filename⟩ := by
    simp [Transfer.step, ConnectionTask.step, Ending.requestCleanup, hname]
  exact .stepL hread (.stepL hcleanup (.stepL rfl .refl))

/-- What a client sends that declares one byte and hangs up. -/
def headerOnly : List UInt8 := Client.nameBlock [97] ++ (writeLong 1 ++ [])

/-- The file of such a client is deleted, and the answer is `Success`. -/
theorem not_reported_hangUp : ∃ t,
    (lts ascii).MTr (start headerOnly noUploads)
    ([.readName .ok, .parse, .create true, .readSize .ok 0] ++
      [.read .closed false 0 0, .cleanup, .respond]) t ∧
    t.task.success = true ∧ t.fs.content ['a'] = none ∧ ¬ Arrived noUploads headerOnly t := by
  have hblock : (Client.nameBlock [97]).length = bufferSize := Client.length_nameBlock (by decide)
  have hnew : noUploads.exists? (baseName (ascii (Client.nameBlock [97]))) = false := by
    rw [baseName_a]
    decide
  have hvalid : (baseName (ascii (Client.nameBlock [97]))).all (· ≠ Char.ofNat 0) := by
    rw [baseName_a]
    decide
  have hopen := mTr_opening (n := 1) [] hblock (by decide) (by decide) hnew hvalid
  rw [baseName_a] at hopen
  have hclosed := hopen.append (mTr_hangUp rfl (List.cons_ne_nil _ _))
  refine ⟨_, hclosed, rfl, ?_, not_arrived_of_ne_completed hclosed rfl (by decide)⟩
  simp [content, FileSystem.delete, entry]

end Transfer

end NetworkLabs.Upload
