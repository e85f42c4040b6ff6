import Phrasebook.Program

/-!
# The command line program

Reads the files that a run looks at, runs it, and prints what it gives.
-/

open Phrasebook

/-- The code of the failure to read a directory as a file. -/
def directoryCode : UInt32 := 21

/-- What stands at a path. -/
def lookAt (path : String) : IO Files.Found := do
  if path.toList.contains '\x00' then return .failed
  try
    return .file (← IO.FS.readBinFile path)
  catch e =>
    match e with
    | .noFileOrDirectory .. => return .missing
    | .permissionDenied .. => return .denied
    | .inappropriateType _ code _ =>
      return if code = directoryCode then .directory else .failed
    | _ => return .failed

def lookAtAll (paths : List String) : IO (List (String × Files.Found)) :=
  paths.mapM fun path => do return (path, ← lookAt path)

/-- The files that a command line is about. -/
def filesOf (words : List String) : IO Files := do
  match CommandLine.parse words with
  | .error _ => return .ofList []
  | .ok invocation =>
    let settings ← lookAtAll (Program.settingsPaths invocation.config)
    let catalogs ← lookAtAll (Program.pathsAfter (.ofList settings) invocation)
    return .ofList (settings ++ catalogs)

def main (words : List String) : IO UInt32 := do
  let outcome := Program.run (← filesOf words) words
  IO.print outcome.output
  IO.eprint outcome.complaint
  return outcome.exitCode
