import TypeFlow.Command.Run

/-!
# The program

Runs the command of its arguments on the files of the disk.
-/

namespace TypeFlow

/-- What is at a path on disk. -/
def diskKind (path : String) : IO (Option FileKind) := do
  let here ← IO.currentDir
  if path = "" then return none
  else if ← (here / path).isDir then return some .folder
  else if ← (here / path).pathExists then return some .file
  else return none

/-- The number of an error, which may come negated. -/
def errorNumber (code : UInt32) : UInt32 := min code (0 - code)

/-- Why a file on disk cannot be read. -/
def diskReason : IO.Error → String
  | .noFileOrDirectory _ _ _ => Folder.PathError.missing.message
  | .inappropriateType _ code details =>
    if errorNumber code = 20 then Folder.PathError.throughFile.message
    else if errorNumber code = 21 then Folder.isFolder
    else details
  | .invalidArgument _ code details =>
    if errorNumber code = 36 then Folder.PathError.tooLong.message else details
  | e => toString e

/-- The text of a file on disk, or why it cannot be read. -/
def diskRead (path : String) : IO (Except String String) := do
  try
    match String.fromUTF8? (← IO.FS.readBinFile path) with
    | some text => return .ok text
    | none => return .error "stream did not contain valid UTF-8"
  catch e => return .error (diskReason e)

/-- What is in a folder on disk. -/
def diskEntries (path : String) : IO (List (String × FileKind)) := do
  let found ← ((← IO.currentDir) / path).readDir
  found.toList.mapM fun entry => do
    return (entry.fileName, if ← entry.path.isDir then .folder else .file)

/-- Access to the disk. -/
def disk : FileAccess IO := ⟨diskRead, diskKind, diskEntries⟩

end TypeFlow

/-- Runs the program. -/
def main (arguments : List String) : IO UInt32 := do
  let outcome ← TypeFlow.Command.runArguments TypeFlow.disk arguments
  IO.print outcome.output
  (outcome.error.forM IO.eprintln)
  return outcome.exit.toUInt32
