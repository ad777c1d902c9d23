import NetworkLabs.Upload.Exactness

/-! Any number of uploads into one directory. -/
namespace NetworkLabs.Upload

open Transition FileSystem

theorem FileSystem.create_of_free {fs : FileSystem} {name : Name}
    (h : fs.uploads (entry name) = none) :
    fs.create name = ({ uploads := Function.update fs.uploads (entry name) (some fs.files)
                        data := Function.update fs.data fs.files []
                        files := fs.files + 1 }, ⟨fs.files, 0⟩) := by
  simp [create, h]

namespace ConnectionTask

/-- The task may write to its file. -/
def Writing (t : ConnectionTask) : Prop :=
  match t.pc with
  | .readSize | .receive _ _ => True
  | _ => False

def Completed (t : ConnectionTask) : Prop :=
  match t.pc with
  | .cleanup e | .respond e | .closed e => e = .completed
  | _ => False

/-- The task created its file and did not delete it. -/
def Owns (t : ConnectionTask) : Prop :=
  match t.pc with
  | .readSize | .receive _ _ => True
  | .cleanup e => e = .completed ∨ e.requestCleanup ∧ t.filename ≠ []
  | .respond e | .closed e => e = .completed
  | _ => False

/-- What is known of a task that has not opened its file. -/
def Unopened (t : ConnectionTask) (body : List UInt8) : Prop :=
  match t.pc with
  | .readName | .parse _ => t.filename = [] ∧ body = []
  | .create => body = []
  | _ => True

theorem Writing.owns {t : ConnectionTask} (h : t.Writing) : t.Owns := by
  unfold Writing at h
  unfold Owns
  split at h <;> simp_all

theorem Completed.owns {t : ConnectionTask} (h : t.Completed) : t.Owns := by
  unfold Completed at h
  unfold Owns
  split at h <;> simp_all

theorem Completed.not_writing {t : ConnectionTask} (h : t.Completed) : ¬ t.Writing := by
  unfold Completed at h
  unfold Writing
  split at h <;> simp_all

variable {decode : List UInt8 → Name} {t t' : ConnectionTask} {fs fs' : FileSystem}
  {bytes body : List UInt8} {a : Action}

/-- What one call does to the directory and to the task's hold on its file. -/
inductive Effect (t : ConnectionTask) (fs : FileSystem) (a : Action) :
    ConnectionTask → FileSystem → Prop
  | quiet {t' : ConnectionTask}
      (held : t'.Owns → t.Owns ∧ t'.filename = t.filename ∧ t'.handle = t.handle)
      (live : t'.Writing ∨ t'.Completed → (t.Writing ∨ t.Completed) ∧ t.input.take a.taken = [])
      (writing : t'.Writing → t.Writing) : Effect t fs a t' fs
  | opened (call : a = .create true) (pc : t.pc = .create) : Effect t fs a
      { t with handle := (fs.create t.filename).2, pc := .readSize } (fs.create t.filename).1
  | wrote {t' : ConnectionTask} (writing : t.Writing) (name : t'.filename = t.filename)
      (handle : t'.handle = (fs.write t.handle (t.input.take a.taken)).2) :
      Effect t fs a t' (fs.write t.handle (t.input.take a.taken)).1
  | deleted {t' : ConnectionTask} (owns : t.Owns) (gone : ¬ t'.Owns) :
      Effect t fs a t' (fs.delete t.filename)

theorem Effect.of_not_owns (h : ¬ t'.Owns) : Effect t fs a t' fs :=
  .quiet (fun ho => absurd ho h) (fun hl => absurd (hl.elim Writing.owns Completed.owns) h)
    fun hw => absurd hw.owns h

theorem Effect.of_writing (hw : t.Writing) (hname : t'.filename = t.filename)
    (hhandle : t'.handle = t.handle) (htaken : a.taken = 0) : Effect t fs a t' fs :=
  .quiet (fun _ => ⟨hw.owns, hname, hhandle⟩) (fun _ => ⟨.inl hw, by simp [htaken]⟩) fun _ => hw

theorem received_effect (k : Nat) (size lastTime : Int) (stored : Bool) (checked now : Int)
    (hw : t.Writing) : Effect t fs (.read (.got k) stored checked now)
      (t.received fs k size lastTime stored checked now).1
      (t.received fs k size lastTime stored checked now).2 := by
  cases stored with
  | true => exact .wrote hw rfl rfl
  | false =>
    exact .quiet (fun _ => ⟨hw.owns, rfl, rfl⟩) (by simp [received, Writing, Completed]) fun _ => hw

theorem step_effect (hu : t.Unopened body) (h : t.step decode fs a = some (t', fs')) :
    Effect t fs a t' fs' := by
  cases call_of_step h with
  | named | parsed => exact .of_not_owns (by simp [Owns])
  | taken | refused => exact .of_not_owns (by simp [Owns, Ending.requestCleanup])
  | unnamed hpc fails ending =>
    simp only [Unopened, hpc] at hu
    exact .of_not_owns (by rcases ending with rfl | rfl <;> simp [Owns, hu.1])
  | created hpc => exact .opened rfl hpc
  | sized hpc | unsized hpc | ticked hpc | timedOut hpc =>
    exact .of_writing (by simp [Writing, hpc]) rfl rfl rfl
  | got hpc => exact received_effect _ _ _ _ _ _ (by simp [Writing, hpc])
  | broken hpc fails =>
    refine .of_writing (by simp [Writing, hpc]) rfl rfl ?_
    rcases fails with rfl | rfl <;> rfl
  | @deleted e hpc requested name =>
    have hne : e ≠ .completed := fun he => by simp [he, Ending.requestCleanup] at requested
    exact .deleted (by simp [Owns, hpc, requested, name]) (by simp [Owns, hne])
  | kept hpc | responded hpc =>
    exact .quiet (by simp +contextual [Owns, hpc])
      (by simp +contextual [Writing, Completed, hpc, Action.taken])
      (by simp [Writing])

theorem unopened_loop (size lastTime : Int) (h : t.pc = loop size lastTime) : t.Unopened body := by
  unfold loop at h
  unfold Unopened
  split at h <;> simp [h]

theorem unopened_received (t : ConnectionTask) (fs : FileSystem) (body : List UInt8) (k : Nat)
    (size lastTime : Int) (stored : Bool) (checked now : Int) :
    (t.received fs k size lastTime stored checked now).1.Unopened body := by
  cases stored with
  | false => trivial
  | true =>
    simp only [received, if_true]
    split
    · split
      · exact unopened_loop (size - k) _ rfl
      · trivial
    · exact unopened_loop (size - k) lastTime rfl

theorem step_unopened (hu : t.Unopened body) (h : t.step decode fs a = some (t', fs')) :
    t'.Unopened (body ++ t.input.take a.taken) := by
  cases call_of_step h with
  | named hpc => simpa [Unopened, hpc, Action.taken] using hu
  | parsed hpc =>
    simp only [Unopened, hpc] at hu
    simpa [Unopened, Action.taken] using hu.2
  | sized =>
    generalize readLong (t.input.take 8) = size
    exact unopened_loop size _ rfl
  | got => exact unopened_received ..
  | ticked hpc => simp [Unopened, hpc]
  | _ => trivial

end ConnectionTask

/-- The server at work: `body` are the bytes each task has taken from the body of its upload. -/
structure Uploads (ι : Type*) where
  tasks : ι → ConnectionTask
  fs : FileSystem
  body : ι → List UInt8

namespace Uploads

open ConnectionTask

variable {ι : Type*} [DecidableEq ι] {decode : List UInt8 → Name} {s t : Uploads ι} {i j : ι}
  {xs : List (ι × Action)}

/-- One call of one task. -/
def step (decode : List UInt8 → Name) (s : Uploads ι) (x : ι × Action) : Option (Uploads ι) :=
  ((s.tasks x.1).step decode s.fs x.2).map fun r =>
    { tasks := Function.update s.tasks x.1 r.1
      fs := r.2
      body := Function.update s.body x.1 (s.body x.1 ++ (s.tasks x.1).input.take x.2.taken) }

def lts (decode : List UInt8 → Name) : LTS (Uploads ι) (ι × Action) := .ofStep (step decode)

/-- The entry of a task's file. -/
def entryOf (s : Uploads ι) (i : ι) : Name := entry (s.tasks i).filename

def fileOf (s : Uploads ι) (i : ι) : Nat := (s.tasks i).handle.file

/-- Uploads do not damage each other. -/
structure Undamaged (s : Uploads ι) : Prop where
  apart : ∀ i j, i ≠ j → (s.tasks i).Writing → (s.tasks j).Writing → s.entryOf i ≠ s.entryOf j
  present : ∀ i, (s.tasks i).Completed → s.fs.uploads (s.entryOf i) = some (s.fileOf i)
  content : ∀ i, (s.tasks i).Completed → s.fs.data (s.fileOf i) = s.body i
  untouched : ∀ i j, (s.tasks i).Completed → (s.tasks j).Writing → s.fileOf j ≠ s.fileOf i

/-- A file is only created under a name that is still free. -/
def NameFree (s : Uploads ι) : ι × Action → Prop
  | (i, .create true) => s.fs.uploads (s.entryOf i) = none
  | _ => True

/-- Every file has one owner, and holds what its owner received. -/
structure Owned (s : Uploads ι) : Prop where
  unopened : ∀ i, (s.tasks i).Unopened (s.body i)
  present : ∀ i, (s.tasks i).Owns → s.fs.uploads (s.entryOf i) = some (s.fileOf i)
  allocated : ∀ i, (s.tasks i).Owns → s.fileOf i < s.fs.files
  distinct : ∀ i j, (s.tasks i).Owns → (s.tasks j).Owns → s.fileOf i = s.fileOf j → i = j
  content : ∀ i, (s.tasks i).Writing ∨ (s.tasks i).Completed → s.fs.data (s.fileOf i) = s.body i
  offset : ∀ i, (s.tasks i).Writing → (s.tasks i).handle.offset = (s.body i).length

/-- Task `i` made a call: what the others own is as before, and `i` keeps its own books. -/
theorem Owned.update (hs : s.Owned) {t' : ConnectionTask} {fs' : FileSystem} {bytes : List UInt8}
    (hunopened : t'.Unopened (s.body i ++ bytes)) (hfiles : s.fs.files ≤ fs'.files)
    (hframe : ∀ j, j ≠ i → (s.tasks j).Owns →
      fs'.uploads (s.entryOf j) = s.fs.uploads (s.entryOf j) ∧
      fs'.data (s.fileOf j) = s.fs.data (s.fileOf j))
    (howns : t'.Owns → fs'.uploads (entry t'.filename) = some t'.handle.file ∧
      t'.handle.file < fs'.files ∧ ∀ j, j ≠ i → (s.tasks j).Owns → s.fileOf j ≠ t'.handle.file)
    (hcontent : t'.Writing ∨ t'.Completed → fs'.data t'.handle.file = s.body i ++ bytes)
    (hoffset : t'.Writing → t'.handle.offset = (s.body i ++ bytes).length) :
    Owned ⟨Function.update s.tasks i t', fs', Function.update s.body i (s.body i ++ bytes)⟩ := by
  constructor
  · intro j
    rcases eq_or_ne j i with rfl | hj
    · simpa using hunopened
    · simpa [hj] using hs.unopened j
  · intro j
    rcases eq_or_ne j i with rfl | hj
    · simpa [entryOf, fileOf] using fun h => (howns h).1
    · simp only [entryOf, fileOf, Function.update_of_ne hj]
      exact fun ho => (hframe j hj ho).1.trans (hs.present j ho)
  · intro j
    rcases eq_or_ne j i with rfl | hj
    · simpa [fileOf] using fun h => (howns h).2.1
    · simp only [fileOf, Function.update_of_ne hj]
      exact fun ho => Nat.lt_of_lt_of_le (hs.allocated j ho) hfiles
  · intro j k
    rcases eq_or_ne j i with hj | hj <;> rcases eq_or_ne k i with hk | hk
    · exact fun _ _ _ => hj.trans hk.symm
    · subst hj
      simp only [fileOf, Function.update_of_ne hk, Function.update_self]
      exact fun ho ho' heq => absurd heq.symm ((howns ho).2.2 k hk ho')
    · subst hk
      simp only [fileOf, Function.update_of_ne hj, Function.update_self]
      exact fun ho ho' heq => absurd heq ((howns ho').2.2 j hj ho)
    · simp only [fileOf, Function.update_of_ne hj, Function.update_of_ne hk]
      exact hs.distinct j k
  · intro j
    rcases eq_or_ne j i with rfl | hj
    · simpa [fileOf] using hcontent
    · simp only [fileOf, Function.update_of_ne hj]
      exact fun hl => (hframe j hj (hl.elim Writing.owns Completed.owns)).2.trans (hs.content j hl)
  · intro j
    rcases eq_or_ne j i with rfl | hj
    · simpa using hoffset
    · simpa [hj] using hs.offset j

theorem owned_step {x : ι × Action} (h : ((lts decode).guard NameFree).Tr s x t) (hs : s.Owned) :
    t.Owned := by
  obtain ⟨i, a⟩ := x
  obtain ⟨htr, hfree⟩ := h
  obtain ⟨⟨t', fs'⟩, hstep, rfl⟩ := Option.map_eq_some_iff.mp htr
  simp only at hstep ⊢
  have hunopened := step_unopened (hs.unopened i) hstep
  have hother : ∀ j, j ≠ i → (s.tasks j).Owns → (s.tasks i).Owns → s.fileOf j ≠ s.fileOf i :=
    fun j hj ho hoi heq => hj (hs.distinct j i ho hoi heq)
  cases step_effect (hs.unopened i) hstep with
  | quiet held live writing =>
    refine hs.update hunopened le_rfl (fun j _ _ => ⟨rfl, rfl⟩) (fun ho => ?_) (fun hl => ?_)
      (fun hw => ?_)
    · obtain ⟨hoi, hname, hhandle⟩ := held ho
      rw [hname, hhandle]
      exact ⟨hs.present i hoi, hs.allocated i hoi, fun j hj hoj => hother j hj hoj hoi⟩
    · obtain ⟨hli, hbytes⟩ := live hl
      rw [(held (hl.elim Writing.owns Completed.owns)).2.2, hbytes, List.append_nil]
      exact hs.content i hli
    · rw [(held hw.owns).2.2, (live (.inl hw)).2, List.append_nil]
      exact hs.offset i (writing hw)
  | opened hcall hpc =>
    subst hcall
    have hbody : s.body i = [] := by simpa [Unopened, hpc] using hs.unopened i
    have hfresh : ∀ j, (s.tasks j).Owns → s.fileOf j ≠ s.fs.files := fun j hj =>
      (hs.allocated j hj).ne
    have hother : ∀ j, (s.tasks j).Owns → s.entryOf j ≠ s.entryOf i := by
      intro j hj heq
      have hsome := hs.present j hj
      rw [heq, show s.fs.uploads (s.entryOf i) = none from hfree] at hsome
      cases hsome
    rw [create_of_free hfree] at hunopened ⊢
    refine hs.update hunopened (Nat.le_succ _) (fun j _ hj => ⟨?_, ?_⟩) (fun _ => ⟨?_, ?_, ?_⟩)
      (fun _ => ?_) (fun _ => ?_)
    · exact Function.update_of_ne (hother j hj) _ _
    · exact Function.update_of_ne (hfresh j hj) _ _
    · exact Function.update_self _ _ _
    · exact Nat.lt_succ_self _
    · exact fun j _ hj => hfresh j hj
    · simp [hbody, Action.taken]
    · simp [hbody, Action.taken]
  | wrote hw hname hhandle =>
    have hdata : written (s.fs.data (s.fileOf i)) (s.tasks i).handle.offset
        ((s.tasks i).input.take a.taken) = s.body i ++ (s.tasks i).input.take a.taken := by
      rw [hs.content i (.inl hw), hs.offset i hw, written_end]
    refine hs.update hunopened le_rfl (fun j hj hoj => ⟨rfl, ?_⟩) (fun _ => ?_) (fun _ => ?_)
      (fun _ => ?_)
    · exact Function.update_of_ne (hother j hj hoj hw.owns) _ _
    · rw [hname, hhandle]
      exact ⟨hs.present i hw.owns, hs.allocated i hw.owns, fun j hj hoj => hother j hj hoj hw.owns⟩
    · rw [hhandle, ← hdata]
      exact Function.update_self _ _ _
    · rw [hhandle, List.length_append, ← hs.offset i hw]
      rfl
  | deleted hoi hgone =>
    refine hs.update hunopened le_rfl (fun j hj hoj => ⟨?_, rfl⟩) (fun ho => absurd ho hgone)
      (fun hl => absurd (hl.elim Writing.owns Completed.owns) hgone)
      (fun hw => absurd hw.owns hgone)
    refine Function.update_of_ne (fun heq => hother j hj hoj hoi ?_) _ _
    have hsame : s.entryOf j = s.entryOf i := heq
    have hsome := hs.present j hoj
    rw [hsame, hs.present i hoi] at hsome
    exact (Option.some.inj hsome).symm

/-- Many connections at once; a task that makes no call is one that was not started yet. -/
def start (input : ι → List UInt8) (fs : FileSystem) : Uploads ι :=
  ⟨fun i => .accepted (input i), fs, fun _ => []⟩

omit [DecidableEq ι] in
theorem owned_start (input : ι → List UInt8) (fs : FileSystem) : (start input fs).Owned := by
  constructor <;> simp [start, accepted, Unopened, Owns, Writing, Completed]

omit [DecidableEq ι] in
theorem Owned.undamaged (hs : s.Owned) : s.Undamaged := by
  refine ⟨fun i j hij hi hj heq => hij ?_, fun i hi => hs.present i hi.owns,
    fun i hi => hs.content i (.inr hi), fun i j hi hj heq => ?_⟩
  · have hsome := hs.present i hi.owns
    rw [heq, hs.present j hj.owns] at hsome
    exact hs.distinct i j hi.owns hj.owns (Option.some.inj hsome).symm
  · have hij := hs.distinct j i hj.owns hi.owns heq
    exact hi.not_writing (hij ▸ hj)

omit [DecidableEq ι] in
theorem Undamaged.content_of_closed (hs : s.Undamaged) (h : (s.tasks i).pc = .closed .completed) :
    s.fs.data (s.fileOf i) = s.body i := by
  apply hs.content i
  unfold Completed
  rw [h]

/-- As long as no name is taken between the check and the creation of its file, uploads do not
damage each other. -/
theorem undamaged_of_nameFree {input : ι → List UInt8} {fs : FileSystem}
    (h : ((lts decode).guard NameFree).MTr (start input fs) xs t) : t.Undamaged := by
  have hinv : ((lts decode).guard NameFree).TrInv (Owned (ι := ι)) :=
    fun s a t hs hi => owned_step hs hi
  exact (LTS.mTr_of_trInv hinv h (owned_start input fs)).undamaged

instance (s : Uploads ι) : DecidablePred s.NameFree
  | (_, .create true) => inferInstanceAs (Decidable (_ = none))
  | (_, .create false) | (_, .readName _) | (_, .parse) | (_, .readSize _ _) | (_, .read _ _ _ _)
  | (_, .cleanup) | (_, .respond) => inferInstanceAs (Decidable True)

/-- What a client writes that sends a file of one byte. -/
def oneByte (name byte : UInt8) : List UInt8 :=
  Client.nameBlock [name] ++ (writeLong 1 ++ Client.body (Client.nameBlock [name]) [byte] [1])

/-- Two clients that send the bytes 7 and 8 as the files `a` and `name`. -/
def twoClients (name : UInt8) : Uploads Bool :=
  start (fun i => cond i (oneByte name 8) (oneByte 97 7)) Transfer.noUploads

/-- Two uploads, call by call. -/
def interleaved : List (Bool × Action) :=
  [(false, .readName .ok), (true, .readName .ok), (false, .parse), (true, .parse),
    (false, .create true), (true, .create true), (false, .readSize .ok 0), (true, .readSize .ok 0),
    (true, Transfer.calmRead 1), (false, Transfer.calmRead 1)]

/-- One step where the names allow it. -/
def stepFree (s : Uploads Bool) (x : Bool × Action) : Option (Uploads Bool) :=
  if decide (s.NameFree x) then step Transfer.ascii s x else none

theorem undamaged_of_nameFree_interleaved :
    ((LTS.after stepFree (twoClients 98) interleaved).fs.content ['a'] = some [7] ∧
      (LTS.after stepFree (twoClients 98) interleaved).fs.content ['b'] = some [8]) ∧
    (LTS.after stepFree (twoClients 98) interleaved).Undamaged := by
  have hend : (LTS.run stepFree (twoClients 98) interleaved).any fun t =>
      decide (t.fs.content ['a'] = some [7] ∧ t.fs.content ['b'] = some [8]) := by
    decide +kernel
  obtain ⟨t, ht, hcontent⟩ := (Option.any_eq_true _ _).mp hend
  have hrun := LTS.mTr_guard_of_run (c := fun s x => decide (NameFree s x)) ht
  simp only [decide_eq_true_eq] at hrun hcontent
  rw [LTS.after, ht]
  exact ⟨hcontent, undamaged_of_nameFree hrun⟩

/-- Both tasks find the name free before either creates its file; the second creation empties
the file of the finished upload. -/
def sameName : List (Bool × Action) :=
  [(false, .readName .ok), (true, .readName .ok), (false, .parse), (true, .parse),
    (false, .create true), (false, .readSize .ok 0), (false, Transfer.calmRead 1),
    (false, .cleanup), (false, .respond), (true, .create true)]

def sameNameEnd : Uploads Bool := LTS.after (step Transfer.ascii) (twoClients 97) sameName

theorem not_undamaged_sameName :
    (lts Transfer.ascii).MTr (twoClients 97) sameName sameNameEnd ∧
      (sameNameEnd.tasks false).pc = .closed .completed ∧ sameNameEnd.body false = [7] ∧
      sameNameEnd.fs.content ['a'] = some [] ∧ ¬ sameNameEnd.Undamaged := by
  have hend : (LTS.run (step Transfer.ascii) (twoClients 97) sameName).any fun t =>
      decide ((t.tasks false).pc = .closed .completed ∧ t.body false = [7] ∧
        t.fs.content ['a'] = some [] ∧ t.fs.data (t.fileOf false) ≠ t.body false) := by
    decide +kernel
  obtain ⟨t, ht, hfinal⟩ := (Option.any_eq_true _ _).mp hend
  obtain ⟨hpc, hbody, hcontent, hdata⟩ := of_decide_eq_true hfinal
  have hrun := LTS.mTr_of_run ht
  rw [sameNameEnd, LTS.after, ht]
  exact ⟨hrun, hpc, hbody, hcontent, fun h => hdata (h.content_of_closed hpc)⟩

end Uploads

end NetworkLabs.Upload
