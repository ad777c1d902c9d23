import Mathlib.Logic.Function.Basic
import Mathlib.Data.List.Basic

/-! The directory `uploads` as the upload server uses it. -/
namespace NetworkLabs.Upload

/-- The characters of a file name. -/
abbrev Name := List Char

/-- An open `FileOutputStream`: the file it writes to and where the next byte goes. -/
structure Handle where
  file : Nat
  offset : Nat
deriving DecidableEq

/-- The entries of `uploads`, and the contents of all files ever created. -/
structure FileSystem where
  uploads : Name → Option Nat
  data : Nat → List UInt8
  files : Nat

namespace FileSystem

/-- The entry that the path `uploads/name` leads to; `parse` leaves no other separator in it. -/
def entry (name : Name) : Name := name.dropWhile (· = '/')

/-- `File.exists`. The directory itself and the links in it are always there. -/
def exists? (fs : FileSystem) (name : Name) : Bool :=
  entry name = [] || entry name = ['.'] || entry name = ['.', '.'] ||
    (fs.uploads (entry name)).isSome

/-- `new FileOutputStream`: an existing file is emptied. -/
def create (fs : FileSystem) (name : Name) : FileSystem × Handle :=
  match fs.uploads (entry name) with
  | some file => ({ fs with data := Function.update fs.data file [] }, ⟨file, 0⟩)
  | none =>
    ({ uploads := Function.update fs.uploads (entry name) (some fs.files)
       data := Function.update fs.data fs.files []
       files := fs.files + 1 }, ⟨fs.files, 0⟩)

/-- The bytes of a file after `bytes` were written at `offset`. -/
def written (old : List UInt8) (offset : Nat) (bytes : List UInt8) : List UInt8 :=
  old.take offset ++ List.replicate (offset - old.length) 0 ++ bytes ++
    old.drop (offset + bytes.length)

def write (fs : FileSystem) (h : Handle) (bytes : List UInt8) : FileSystem × Handle :=
  ({ fs with data := Function.update fs.data h.file (written (fs.data h.file) h.offset bytes) },
    { h with offset := h.offset + bytes.length })

def delete (fs : FileSystem) (name : Name) : FileSystem :=
  { fs with uploads := Function.update fs.uploads (entry name) none }

/-- What is stored under a name. -/
def content (fs : FileSystem) (name : Name) : Option (List UInt8) :=
  (fs.uploads (entry name)).map fs.data

theorem written_end (old bytes : List UInt8) : written old old.length bytes = old ++ bytes := by
  simp [written]

end FileSystem

end NetworkLabs.Upload
