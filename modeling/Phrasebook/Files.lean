/-!
# Files

What a program can learn about a path: what stands there, or why that is not known.
-/

namespace Phrasebook

/-- What stands at a path. -/
inductive Files.Found where
  | file (bytes : ByteArray)
  | directory
  | missing
  /-- There is something that may not be read. -/
  | denied
  /-- Looking failed for another reason. -/
  | failed

/-- What stands at each path. -/
abbrev Files := String → Files.Found

namespace Files

def Found.isDirectory : Found → Bool
  | directory => true
  | _ => false

/-- Whether anything is known to stand there. -/
def Found.exists : Found → Bool
  | file _ | directory | denied => true
  | missing | failed => false

/-- The text of a file; none if there is no file or its bytes are no UTF-8. -/
def Found.text? : Found → Option String
  | file bytes => String.fromUTF8? bytes
  | _ => none

def ofList (found : List (String × Found)) : Files := fun path =>
  (found.lookup path).getD .missing

end Files

end Phrasebook
