import NetworkLabs.Upload.Reporting

/-! What an upload leaves behind in the directory. -/
namespace NetworkLabs.Upload

open Transition FileSystem

/-- The files of the directory. -/
def FileSystem.listing (fs : FileSystem) (name : Name) : Option (List UInt8) :=
  (fs.uploads name).map fs.data

/-- A directory whose entries lead to files. -/
structure Directory where
  fs : FileSystem
  created : ∀ name file, fs.uploads name = some file → file < fs.files

/-- The directory is as it was before, or has one more file, and that only after an upload that
ended normally. -/
structure AllOrNothing (before : Directory) (e : Ending) (fs : FileSystem) : Prop where
  old : ∀ name bytes, before.fs.listing name = some bytes → fs.listing name = some bytes
  one : fs.listing = before.fs.listing ∨ ∃ name bytes, before.fs.listing name = none ∧
    fs.listing = Function.update before.fs.listing name (some bytes)
  failed : e ≠ .completed → fs.listing = before.fs.listing

namespace Transfer

open ConnectionTask

variable {decode : List UInt8 → Name} {before : Directory} {input : List UInt8} {s t : Transfer}
  {a : Action} {xs : List Action} {e : Ending}

/-- The upload has created its file, and nothing else has changed. -/
structure Added (before : Directory) (s : Transfer) : Prop where
  filename : s.task.filename ≠ []
  free : before.fs.uploads (entry s.task.filename) = none
  uploads : s.fs.uploads =
    Function.update before.fs.uploads (entry s.task.filename) (some before.fs.files)
  file : s.task.handle.file = before.fs.files
  data : ∀ file < before.fs.files, s.fs.data file = before.fs.data file

/-- What has become of the directory: the file is there from its creation to its deletion. -/
def Kept (before : Directory) (s : Transfer) : Prop :=
  match s.task.pc with
  | .readName | .parse _ => s.task.filename = [] ∧ s.fs = before.fs
  | .create => s.fs.exists? s.task.filename = false ∧ s.fs = before.fs
  | .readSize | .receive _ _ => Added before s
  | .cleanup e =>
    Added before s ∧ e ≠ .notFound ∨ s.task.filename = [] ∧ s.fs = before.fs ∧ e ≠ .completed ∨
      e = .notFound ∧ s.fs = before.fs
  | .respond e | .closed e =>
    Added before s ∧ e = .completed ∨ s.fs.listing = before.fs.listing ∧ e ≠ .completed

/-- The files from before are still there. -/
theorem listing_of_uploads {fs : FileSystem} (huploads : fs.uploads = before.fs.uploads)
    (hdata : ∀ file < before.fs.files, fs.data file = before.fs.data file) :
    fs.listing = before.fs.listing := by
  funext name
  rw [listing, listing, huploads]
  cases hfile : before.fs.uploads name with
  | none => rfl
  | some file => simp only [Option.map_some, hdata file (before.created name file hfile)]

theorem Added.listing (h : Added before s) :
    s.fs.listing = Function.update before.fs.listing (entry s.task.filename)
      (some (s.fs.data before.fs.files)) := by
  funext name
  by_cases hname : name = entry s.task.filename
  · subst hname
    simp only [FileSystem.listing, h.uploads, Function.update_self, Option.map_some]
  · simp only [FileSystem.listing, h.uploads, Function.update_of_ne hname]
    cases hfile : before.fs.uploads name with
    | none => rfl
    | some file => simp only [Option.map_some, h.data file (before.created name file hfile)]

theorem added_create {task : ConnectionTask} (h : before.fs.exists? task.filename = false) :
    Added before ⟨{ task with handle := (before.fs.create task.filename).2, pc := .readSize },
      (before.fs.create task.filename).1⟩ := by
  obtain ⟨hne, hfree⟩ := free_of_not_exists h
  refine ⟨hne, hfree, ?_, ?_, ?_⟩
  · simp only [create, hfree]
  · simp only [create, hfree]
  · intro file hlt
    simp only [create, hfree]
    exact Function.update_of_ne (by omega) _ _

/-- A write goes to the new file. -/
theorem Added.write {task : ConnectionTask} {fs : FileSystem} {bytes : List UInt8}
    (h : Added before ⟨task, fs⟩) (input : List UInt8) (pc : Pc) :
    Added before ⟨{ task with input := input, handle := (fs.write task.handle bytes).2, pc := pc },
      (fs.write task.handle bytes).1⟩ := by
  refine ⟨h.filename, h.free, h.uploads, h.file, fun file hlt => ?_⟩
  have hfile : task.handle.file = before.fs.files := h.file
  have hne : file ≠ task.handle.file := by omega
  rw [← h.data file hlt]
  exact Function.update_of_ne hne _ _

theorem Added.moved {task : ConnectionTask} {fs : FileSystem} (h : Added before ⟨task, fs⟩)
    (input : List UInt8) (pc : Pc) : Added before ⟨{ task with input := input, pc := pc }, fs⟩ :=
  ⟨h.filename, h.free, h.uploads, h.file, h.data⟩

theorem kept_loop (size lastTime : Int) (hpc : s.task.pc = loop size lastTime)
    (h : Added before s) : Kept before s := by
  unfold loop at hpc
  unfold Kept
  split at hpc
  · rw [hpc]
    exact h
  · rw [hpc]
    exact .inl ⟨h, nofun⟩

theorem kept_received {task : ConnectionTask} {fs : FileSystem} (k : Nat) (size lastTime : Int)
    (stored : Bool) (checked now : Int) (h : Added before ⟨task, fs⟩) :
    Kept before ⟨(task.received fs k size lastTime stored checked now).1,
      (task.received fs k size lastTime stored checked now).2⟩ := by
  have hwritten : ∀ pc, Added before ⟨{ task with
      input := task.input.drop k, pc := pc,
      handle := (fs.write task.handle (task.input.take k)).2 },
      (fs.write task.handle (task.input.take k)).1⟩ := fun pc => h.write _ pc
  cases stored with
  | false => exact .inl ⟨h.moved _ _, by decide⟩
  | true =>
    simp only [received, if_true]
    split
    · cases update now lastTime with
      | none => exact .inl ⟨hwritten _, by decide⟩
      | some lastTime' => exact kept_loop (size - k) lastTime' rfl (hwritten _)
    · exact kept_loop (size - k) lastTime rfl (hwritten _)

/-- The deletion takes back what the creation did. -/
theorem Added.delete (h : Added before s) :
    (s.fs.delete s.task.filename).listing = before.fs.listing := by
  refine listing_of_uploads ?_ h.data
  rw [FileSystem.delete, h.uploads, Function.update_idem, ← h.free, Function.update_eq_self]

theorem kept_step (h : s.step decode a = some t) (hs : Kept before s) : Kept before t := by
  obtain ⟨task, fs⟩ := t
  cases call_of_step h with
  | named hpc =>
    simp only [Kept, hpc] at hs
    exact hs
  | unnamed hpc fails ending =>
    simp only [Kept, hpc] at hs
    rcases ending with rfl | rfl <;> exact .inr (.inl ⟨hs.1, hs.2, nofun⟩)
  | taken hpc =>
    simp only [Kept, hpc] at hs
    exact .inr (.inr ⟨rfl, hs.2⟩)
  | parsed hpc new =>
    simp only [Kept, hpc] at hs
    exact ⟨new, hs.2⟩
  | created hpc =>
    simp only [Kept, hpc] at hs
    obtain ⟨hnew, hfs⟩ := hs
    rw [hfs] at hnew ⊢
    exact added_create hnew
  | refused hpc =>
    simp only [Kept, hpc] at hs
    exact .inr (.inr ⟨rfl, hs.2⟩)
  | sized hpc =>
    simp only [Kept, hpc] at hs
    generalize readLong (s.task.input.take 8) = size
    exact kept_loop size _ rfl (hs.moved _ _)
  | unsized hpc fails ending =>
    simp only [Kept, hpc] at hs
    rcases ending with rfl | rfl <;> exact .inl ⟨hs.moved _ _, nofun⟩
  | got hpc =>
    simp only [Kept, hpc] at hs
    exact kept_received _ _ _ _ _ _ hs
  | ticked => exact hs
  | timedOut hpc | broken hpc =>
    simp only [Kept, hpc] at hs
    exact .inl ⟨hs.moved _ _, nofun⟩
  | @deleted e hpc requested name =>
    simp only [Kept, hpc] at hs
    have hne : e ≠ .completed := by
      rintro rfl
      cases requested
    rcases hs with ⟨hadded, -⟩ | ⟨hname, -⟩ | ⟨rfl, -⟩
    · exact .inr ⟨hadded.delete, hne⟩
    · exact absurd hname name
    · cases requested
  | @kept e hpc unwanted =>
    simp only [Kept, hpc] at hs
    rcases hs with ⟨hadded, hfound⟩ | ⟨-, hfs, hne⟩ | ⟨rfl, hfs⟩
    · have hcompleted : e = .completed := by
        cases e with
        | completed => rfl
        | notFound => exact absurd rfl hfound
        | timeout | eof | ioError => exact absurd (unwanted rfl) hadded.filename
      exact .inl ⟨hadded.moved _ _, hcompleted⟩
    · exact .inr ⟨congrArg FileSystem.listing hfs, hne⟩
    · exact .inr ⟨congrArg FileSystem.listing hfs, nofun⟩
  | responded hpc =>
    simp only [Kept, hpc] at hs
    exact hs.imp_left fun hadded => ⟨⟨hadded.1.filename, hadded.1.free, hadded.1.uploads,
      hadded.1.file, hadded.1.data⟩, hadded.2⟩

theorem kept_run (h : (lts decode).MTr s xs t) (hs : Kept before s) : Kept before t :=
  LTS.mTr_of_trInv (fun _ _ _ hstep hkept => kept_step hstep hkept) h hs

/-- However an upload ends, it adds its file or leaves the directory as it was. -/
theorem allOrNothing (h : (lts decode).MTr (start input before.fs) xs t)
    (ht : t.task.pc = .closed e) : AllOrNothing before e t.fs := by
  have hend : Kept before t := kept_run h ⟨rfl, rfl⟩
  simp only [Kept, ht] at hend
  rcases hend with ⟨hadded, rfl⟩ | ⟨hsame, hne⟩
  · have hlisting := hadded.listing
    have hnone : before.fs.listing (entry t.task.filename) = none := by
      rw [FileSystem.listing, hadded.free]
      rfl
    refine ⟨fun name bytes hbytes => ?_, .inr ⟨_, _, hnone, hlisting⟩, fun hne => absurd rfl hne⟩
    have hother : name ≠ entry t.task.filename := by
      rintro rfl
      rw [hnone] at hbytes
      cases hbytes
    rw [hlisting, Function.update_of_ne hother, hbytes]
  · exact ⟨fun name bytes hbytes => hsame ▸ hbytes, .inl hsame, fun _ => hsame⟩

/-- A directory without files. -/
def noFiles : Directory := ⟨noUploads, by simp [noUploads]⟩

theorem allOrNothing_a : ∃ input xs t, (lts ascii).MTr (start input noFiles.fs) xs t ∧
    t.task.pc = .closed .completed ∧ AllOrNothing noFiles .completed t.fs := by
  obtain ⟨t, input, -, hrun, ht⟩ := completes_a (show [7].length = 1 from rfl) Nat.one_pos
    (by decide)
  exact ⟨input, _, t, hrun, ht, allOrNothing hrun ht⟩

end Transfer

end NetworkLabs.Upload
