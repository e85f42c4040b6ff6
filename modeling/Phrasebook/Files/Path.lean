/-!
# Paths

Paths are texts with `/` between their parts. Joining looks at nothing but the texts:
`.` and `..` stay as they are written.
-/

namespace Phrasebook.Files.Path

def isAbsolute (path : String) : Bool := path.toList.head? == some '/'

/-- Whether a slash has to be put behind a path before a part is added. -/
def needsSlash (path : String) : Bool := path ≠ "" && path.toList.getLast? ≠ some '/'

/-- Add a part to a path. An absolute part takes the place of the path; an empty part leaves a
slash at the end. -/
def join (path part : String) : String :=
  if isAbsolute part then part
  else if needsSlash path then path ++ "/" ++ part
  else path ++ part

end Phrasebook.Files.Path
