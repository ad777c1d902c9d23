import NetworkLabs.PosixPath
import NetworkLabs.Upload.Exactness

/-! Where the path that `parse` makes of a name may lead. -/
namespace NetworkLabs.Upload

open PosixPath FileSystem ConnectionTask

def directory : Name := "uploads".toList

/-- `"uploads" + File.separator + filename`. -/
def path (filename : Name) : Name := directory ++ '/' :: filename

/-- `parse` on the whole file system, `none` when it throws. -/
def parse (fs : FileTree) (s : Name) : Option Name :=
  if (fs.resolve (path (baseName s))).isSome then none else some (baseName s)

/-- The part of the file system that an upload works on. -/
def view (fs : FileTree) (uploads : Nat) : FileSystem := ⟨fs.entries uploads, fun _ => [], 0⟩

variable {fs fs' : FileTree} {uploads : Nat} {s : Name}

theorem lastIndexOf_append (s : Name) (a c : Char) :
    lastIndexOf (s ++ [a]) c = if a = c then (s.length : Int) else lastIndexOf s c := by
  rw [lastIndexOf, List.reverse_append, List.length_append]
  by_cases h : a = c
  · simp [h]
  · simp [h, lastIndexOf]
    omega

/-- Behind the last separator there is none. -/
theorem notMem_drop_of_lastIndexOf (s : Name) (c : Char) (pos : Nat)
    (h : lastIndexOf s c < pos) : c ∉ s.drop pos := by
  induction s using List.reverseRecOn with
  | nil => simp
  | append_singleton s a ih =>
    rw [lastIndexOf_append] at h
    rw [List.drop_append, List.mem_append]
    by_cases ha : a = c
    · rw [if_pos ha] at h
      simp [List.drop_eq_nil_of_le (show s.length ≤ pos by omega),
        List.drop_eq_nil_of_le (show [a].length ≤ pos - s.length by simp; omega)]
    · rw [if_neg ha] at h
      rintro (hmem | hmem)
      · exact ih h hmem
      · exact ha (List.mem_singleton.mp (List.mem_of_mem_drop hmem)).symm

theorem trim_sublist (s : Name) : (trim s).Sublist s := by
  have hend := List.dropWhile_sublist (l := (s.dropWhile (· ≤ ' ')).reverse) (· ≤ ' ')
  have hstart := List.dropWhile_sublist (l := s) (· ≤ ' ')
  exact (List.reverse_reverse (s.dropWhile (· ≤ ' ')) ▸ hend.reverse).trans hstart

/-- Only the first character of a name can be a separator. -/
theorem notMem_tail_baseName (s : Name) : '/' ∉ (baseName s).tail := by
  unfold baseName
  intro hmem
  generalize hpos : max (max (lastIndexOf s '/') (lastIndexOf s '\\')) 0 = pos at hmem
  have htail := (trim_sublist (s.drop pos.toNat)).tail.subset hmem
  rw [List.tail_drop] at htail
  exact notMem_drop_of_lastIndexOf s '/' (pos.toNat + 1) (by omega) htail

theorem entry_baseName (s : Name) : '/' ∉ entry (baseName s) ∧
    (baseName s = entry (baseName s) ∨ baseName s = '/' :: entry (baseName s)) := by
  have htail := notMem_tail_baseName s
  cases hname : baseName s with
  | nil => simp [entry]
  | cons c cs =>
    rw [hname, List.tail_cons] at htail
    by_cases hc : c = '/'
    · subst hc
      have hentry : entry ('/' :: cs) = cs := by
        cases cs with
        | nil => rfl
        | cons c' cs' =>
          have hc' : c' ≠ '/' := fun hc' => htail (by simp [hc'])
          simp [entry, hc']
      rw [hentry]
      exact ⟨htail, .inr rfl⟩
    · have hentry : entry (c :: cs) = c :: cs := by simp [entry, hc]
      rw [hentry]
      refine ⟨?_, .inl rfl⟩
      simpa [Ne.symm hc] using htail

/-- A name adds at most one component to the path. -/
theorem components_baseName (s : Name) : components (baseName s) =
    if entry (baseName s) = [] then [] else [entry (baseName s)] := by
  rcases entry_baseName s with ⟨hseparator, hname | hname⟩
  · rw [← hname] at hseparator ⊢
    exact components_of_notMem hseparator
  · rw [← components_of_notMem hseparator]
    conv_lhs => rw [hname]
    exact components_separator _

theorem mem_entry_baseName {c : Char} (hc : c ≠ '/') :
    c ∈ entry (baseName s) ↔ c ∈ baseName s := by
  rcases entry_baseName s with ⟨-, hname | hname⟩
  · rw [← hname]
  · conv_rhs => rw [hname]
    simp [hc]

/-- `exists?` is what the file system says of the path. -/
theorem exists?_view (h : fs.Subdirectory directory uploads)
    (hzero : Char.ofNat 0 ∉ baseName s) :
    (view fs uploads).exists? (baseName s) = (fs.resolve (path (baseName s))).isSome := by
  have hcomponents := components_baseName s
  by_cases hempty : entry (baseName s) = []
  · rw [if_pos hempty] at hcomponents
    rw [path, h.resolve_self hzero hcomponents]
    simp [exists?, hempty]
  · rw [if_neg hempty] at hcomponents
    rw [path, h.resolve hzero hcomponents]
    simp only [exists?, hempty, FileTree.lookup, view]
    by_cases hdot : entry (baseName s) = ['.']
    · simp [hdot]
    by_cases hdots : entry (baseName s) = ['.', '.']
    · simp [hdots]
    · simp [hdot, hdots]

/-- The task that works on the directory alone rejects the names that `parse` rejects. -/
theorem step_parse_view {decode : List UInt8 → Name} {t : ConnectionTask}
    (h : fs.Subdirectory directory uploads) (hpc : t.pc = .parse s)
    (hzero : Char.ofNat 0 ∉ baseName s) : t.step decode (view fs uploads) .parse =
      match parse fs s with
      | none => some ({ t with pc := .cleanup .notFound }, view fs uploads)
      | some filename =>
        some ({ t with filename := filename, pc := .create }, view fs uploads) := by
  simp only [ConnectionTask.step, hpc, exists?_view h hzero, parse]
  split <;> rfl

/-- A name that is not rejected is opened, if at all, as a new entry of `uploads` itself. -/
theorem confined (h : fs.Subdirectory directory uploads)
    (h' : fs'.Subdirectory directory uploads) (decode : List UInt8 → Name) (field : List UInt8) :
    ∀ filename, parse fs (decode field) = some filename →
      ∀ e, fs'.openForWriting (path filename) = some e →
        e.dir = uploads ∧ Plain e.name ∧ fs.entries uploads e.name = none := by
  intro filename hparse e hopen
  generalize decode field = s at hparse
  unfold parse at hparse
  split at hparse
  case isTrue => cases hparse
  case isFalse hnew =>
  obtain rfl := Option.some.inj hparse
  have hcomponents := components_baseName s
  by_cases hempty : entry (baseName s) = []
  · rw [if_pos hempty] at hcomponents
    have hzero : Char.ofNat 0 ∉ baseName s := by
      rw [← mem_entry_baseName (by decide), hempty]
      exact List.not_mem_nil
    rw [path, h.resolve_self hzero hcomponents] at hnew
    exact absurd rfl hnew
  · rw [if_neg hempty] at hcomponents
    obtain ⟨rfl, hzero⟩ := h'.openForWriting hcomponents hopen
    have hresolve := h.resolve hzero hcomponents
    rw [path, hresolve] at hnew
    unfold FileTree.lookup at hnew
    split at hnew
    · exact absurd rfl hnew
    split at hnew
    · exact absurd rfl hnew
    rename_i hdot hdots
    exact ⟨rfl, ⟨hempty, hdot, hdots, (entry_baseName s).1,
      fun hmem => hzero ((mem_entry_baseName (by decide)).mp hmem)⟩, by simpa using hnew⟩

/-- The directory `uploads` without any files. -/
def bare : FileTree where
  root := 0
  cwd := 0
  isDir node := node = 0 || node = 1
  entries dir name := if dir = 0 ∧ name = directory then some 1 else none
  parent _ := 0

theorem subdirectory_bare : bare.Subdirectory directory 1 :=
  ⟨⟨by decide, by decide, by decide, by decide, by decide⟩, rfl, rfl, rfl⟩

/-- A client that uploads under the name `../a`. -/
def climbing : List UInt8 := Client.nameBlock [46, 46, 47, 97]

theorem baseName_climbing : baseName (Transfer.ascii climbing) = ['/', 'a'] := by decide +kernel

theorem confined_climbing : ∃ filename e, parse bare (Transfer.ascii climbing) = some filename ∧
    bare.openForWriting (path filename) = some e ∧
      e.dir = 1 ∧ Plain e.name ∧ bare.entries 1 e.name = none := by
  have hcomponents : components ['/', 'a'] = [['a']] :=
    (components_separator ['a']).trans (components_of_notMem (by decide))
  have hzero : Char.ofNat 0 ∉ ['/', 'a'] := by decide
  have hparse : parse bare (Transfer.ascii climbing) = some ['/', 'a'] := by
    have hresolve := subdirectory_bare.resolve hzero hcomponents
    rw [parse, baseName_climbing, path, hresolve]
    rfl
  have hopen : bare.openForWriting (path ['/', 'a']) = some ⟨1, ['a']⟩ := by
    rw [path, subdirectory_bare.openForWriting_eq (by decide) hcomponents]
    rfl
  exact ⟨_, _, hparse, hopen, confined subdirectory_bare subdirectory_bare _ _ _ hparse _ hopen⟩

end NetworkLabs.Upload
