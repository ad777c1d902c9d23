import Mathlib.Data.List.Basic

/-! Path names and what they lead to in a tree of directories. -/
namespace PosixPath

/-- The names between the separators; empty ones do not count. -/
def components (path : List Char) : List (List Char) := (path.splitOn '/').filter (· ≠ [])

/-- The nodes of a file system. Every directory also has the entries `.` and `..`. -/
structure FileTree where
  root : Nat
  cwd : Nat
  isDir : Nat → Bool
  entries : Nat → List Char → Option Nat
  parent : Nat → Nat

/-- A name in a directory. -/
structure Entry where
  dir : Nat
  name : List Char
deriving DecidableEq

/-- The names that an entry of a directory may have. -/
structure Plain (name : List Char) : Prop where
  nonempty : name ≠ []
  dot : name ≠ ['.']
  dots : name ≠ ['.', '.']
  separator : '/' ∉ name
  zero : Char.ofNat 0 ∉ name

namespace FileTree

def lookup (fs : FileTree) (dir : Nat) (name : List Char) : Option Nat :=
  if name = ['.'] then some dir
  else if name = ['.', '.'] then some (fs.parent dir)
  else fs.entries dir name

def walk (fs : FileTree) : Nat → List (List Char) → Option Nat
  | node, [] => some node
  | node, name :: names =>
    if fs.isDir node then (fs.lookup node name).bind fun next => fs.walk next names else none

def start (fs : FileTree) (path : List Char) : Nat :=
  if path.head? = some '/' then fs.root else fs.cwd

/-- The node that a path leads to. No path has a zero character. -/
def resolve (fs : FileTree) (path : List Char) : Option Nat :=
  if Char.ofNat 0 ∈ path then none else fs.walk (fs.start path) (components path)

/-- Opening for writing: the entry that is written to, which is created if it is not there. A
directory is not opened. -/
def openForWriting (fs : FileTree) (path : List Char) : Option Entry :=
  if Char.ofNat 0 ∈ path then none
  else
    (components path).getLast?.bind fun name =>
      (fs.walk (fs.start path) (components path).dropLast).bind fun dir =>
        if fs.isDir dir then
          match fs.lookup dir name with
          | some node => if fs.isDir node then none else some ⟨dir, name⟩
          | none => some ⟨dir, name⟩
        else none

end FileTree

variable {fs : FileTree} {dir name path : List Char} {node : Nat} {e : Entry}

theorem components_of_notMem (h : '/' ∉ name) :
    components name = if name = [] then [] else [name] := by
  rw [components, List.splitOn_eq_singleton h]
  split
  · rename_i hname
    rw [hname]
    rfl
  · rename_i hname
    simp [hname]

theorem components_append (hdir : '/' ∉ dir) (hne : dir ≠ []) (path : List Char) :
    components (dir ++ '/' :: path) = dir :: components path := by
  rw [components, List.splitOn_append_cons_self_of_not_mem hdir]
  simp [hne, components]

theorem components_separator (path : List Char) : components ('/' :: path) = components path := by
  have hsplit := List.splitOn_append_cons_self_of_not_mem (show '/' ∉ [] by simp) path
  rw [components, show '/' :: path = [] ++ '/' :: path from rfl, hsplit]
  simp [components]

/-- An existing directory in the one that the path starts from. -/
structure FileTree.Subdirectory (fs : FileTree) (dir : List Char) (node : Nat) : Prop where
  plain : Plain dir
  cwd : fs.isDir fs.cwd = true
  entry : fs.entries fs.cwd dir = some node
  isDir : fs.isDir node = true

theorem FileTree.Subdirectory.walk (h : fs.Subdirectory dir node) (names : List (List Char)) :
    fs.walk fs.cwd (dir :: names) = fs.walk node names := by
  simp only [FileTree.walk, FileTree.lookup, h.cwd, if_true, if_neg h.plain.dot,
    if_neg h.plain.dots, h.entry, Option.bind_some]

theorem FileTree.Subdirectory.start_eq (h : fs.Subdirectory dir node) (path : List Char) :
    fs.start (dir ++ '/' :: path) = fs.cwd := by
  have hne := h.plain.nonempty
  have hseparator := h.plain.separator
  cases dir with
  | nil => exact absurd rfl hne
  | cons c cs =>
    have hc : c ≠ '/' := fun hc => hseparator (by simp [hc])
    simp [FileTree.start, hc]

theorem FileTree.Subdirectory.zero_notMem (h : fs.Subdirectory dir node)
    (hzero : Char.ofNat 0 ∉ path) : Char.ofNat 0 ∉ dir ++ '/' :: path := by
  simp only [List.mem_append, List.mem_cons, not_or]
  exact ⟨h.plain.zero, by decide, hzero⟩

/-- What a path of two components leads to. -/
theorem FileTree.Subdirectory.resolve (h : fs.Subdirectory dir node)
    (hzero : Char.ofNat 0 ∉ path) (hpath : components path = [name]) :
    fs.resolve (dir ++ '/' :: path) = fs.lookup node name := by
  rw [FileTree.resolve, if_neg (h.zero_notMem hzero), h.start_eq,
    components_append h.plain.separator h.plain.nonempty, hpath, h.walk]
  simp only [FileTree.walk, h.isDir, if_true]
  cases fs.lookup node name <;> rfl

theorem FileTree.Subdirectory.resolve_self (h : fs.Subdirectory dir node)
    (hzero : Char.ofNat 0 ∉ path) (hpath : components path = []) :
    fs.resolve (dir ++ '/' :: path) = some node := by
  rw [FileTree.resolve, if_neg (h.zero_notMem hzero), h.start_eq,
    components_append h.plain.separator h.plain.nonempty, hpath, h.walk]
  rfl

theorem FileTree.Subdirectory.openForWriting_eq (h : fs.Subdirectory dir node)
    (hzero : Char.ofNat 0 ∉ path) (hpath : components path = [name]) :
    fs.openForWriting (dir ++ '/' :: path) =
      match fs.lookup node name with
      | some found => if fs.isDir found then none else some ⟨node, name⟩
      | none => some ⟨node, name⟩ := by
  rw [FileTree.openForWriting, if_neg (h.zero_notMem hzero), h.start_eq,
    components_append h.plain.separator h.plain.nonempty, hpath]
  simp only [List.getLast?_cons_cons, List.getLast?_singleton, Option.bind_some,
    List.dropLast_cons_cons, List.dropLast_singleton, h.walk, FileTree.walk, h.isDir, if_true]

/-- A path of two components is opened in its directory or not at all. -/
theorem FileTree.Subdirectory.openForWriting (h : fs.Subdirectory dir node)
    (hpath : components path = [name]) (he : fs.openForWriting (dir ++ '/' :: path) = some e) :
    e = ⟨node, name⟩ ∧ Char.ofNat 0 ∉ path := by
  by_cases hzero : Char.ofNat 0 ∈ path
  · rw [FileTree.openForWriting, if_pos (by simp [hzero])] at he
    cases he
  rw [h.openForWriting_eq hzero hpath] at he
  refine ⟨?_, hzero⟩
  split at he
  · split at he
    · cases he
    · exact (Option.some.inj he).symm
  · exact (Option.some.inj he).symm

end PosixPath
