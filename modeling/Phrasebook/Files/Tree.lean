import Phrasebook.Files
import Phrasebook.Text.Split

/-!
# Trees of files

The files and directories below a working directory, and how a path is followed from
there. There are no symbolic links. What lies outside the working directory is an empty
directory with more empty directories above it.
-/

namespace Phrasebook.Files

/-- The names that lead from the working directory to a place. -/
abbrev Place := List String

/-- Files with their contents and directories, by place. The working directory itself is not
listed. -/
structure Tree where
  entries : List (Place × Option ByteArray)

namespace Tree

def empty : Tree := ⟨[]⟩

def found (t : Tree) (place : Place) : Found :=
  if place.isEmpty then .directory
  else
    match t.entries.lookup place with
    | some (some bytes) => .file bytes
    | some none => .directory
    | none => .missing

def parts (path : String) : List String := (Text.split '/' path.toList).map String.ofList

def maxName : Nat := 255

/-- The number of bytes that a path must stay below. -/
def pathLimit : Nat := 4096

/-- Follow the parts of a path from a place, or from outside. A part can be taken only where
there is a directory. -/
def follow (t : Tree) : Option Place → List String → Found
  | some place, [] => t.found place
  | none, [] => .directory
  | place, part :: rest =>
    match (place.map t.found).getD .directory with
    | .directory =>
      if part = "" ∨ part = "." then follow t place rest
      else if part = ".." then
        follow t (place.bind fun p => if p.isEmpty then none else some p.dropLast) rest
      else if maxName < part.utf8ByteSize then .failed
      else
        match place with
        | some p => follow t (some (p ++ [part])) rest
        | none => .missing
    | .file _ => .failed
    | other => other

/-- What a path leads to. -/
def look (t : Tree) : Files := fun path =>
  if path.toList.contains '\x00' then .failed
  else if path = "" then .missing
  else if pathLimit ≤ path.utf8ByteSize then .failed
  else follow t (if path.toList.head? = some '/' then none else some []) (parts path)

/-- The place that a path names, once `.` and `..` are worked out. -/
def placeOf (path : String) : Place :=
  (parts path).foldl (fun place part =>
    if part = "" ∨ part = "." then place
    else if part = ".." then place.dropLast
    else place ++ [part]) []

def addDirectory (t : Tree) (place : Place) : Tree :=
  match t.found place with
  | .missing => ⟨t.entries ++ [(place, none)]⟩
  | _ => t

/-- Add a directory and all directories on the way to it. -/
def makeDirectories (t : Tree) (place : Place) : Tree :=
  (List.range (place.length + 1)).foldl (fun t n => t.addDirectory (place.take n)) t

def makeDirectory (t : Tree) (path : String) : Tree := t.makeDirectories (placeOf path)

/-- Write a file and make the directories on the way to it. A directory is not written over. -/
def write (t : Tree) (path : String) (bytes : ByteArray) : Tree :=
  let place := placeOf path
  let t := t.makeDirectories place.dropLast
  match t.found place with
  | .directory => t
  | _ => ⟨(t.entries.filter fun (p, _) => p ≠ place) ++ [(place, some bytes)]⟩

/-- Remove a file, or a directory with all that is in it. -/
def remove (t : Tree) (path : String) : Tree :=
  ⟨t.entries.filter fun (place, _) => !(placeOf path).isPrefixOf place⟩

end Tree

end Phrasebook.Files
