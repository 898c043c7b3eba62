import TypeFlow.Command.Pattern
import TypeFlow.Entries

/-!
# Files

Commands read files and list folders through a few operations, so that they run
on a folder in memory as well as on disk. Patterns are followed component by
component, and the paths of each folder come in alphabetical order.
-/

namespace TypeFlow

/-- What is at a path. -/
inductive FileKind where
  | file
  | folder
  deriving DecidableEq

/-- Access to files. -/
structure FileAccess (m : Type → Type) where
  /-- The text of a file, or why it cannot be read. -/
  read : String → m (Except String String)
  /-- What is at a path. -/
  kind : String → m (Option FileKind)
  /-- What is in a folder. -/
  entries : String → m (List (String × FileKind))

namespace FileAccess

variable {m : Type → Type} [Monad m] (access : FileAccess m)

/-- The path of a name in a folder. -/
def join (folder name : String) : String :=
  if folder = "." then name
  else if folder.toList.getLast? = some '/' then folder ++ name
  else folder ++ "/" ++ name

/-- Names in a folder in alphabetical order. -/
def sortedEntries (folder : String) : m (List (String × FileKind)) := do
  return (← access.entries folder).mergeSort fun a b => a.1 ≤ b.1

/-- Folders within folders that are entered at most. -/
def maxDepth : Nat := 2048

/-- Visits all that is below a folder. -/
def walk (visit : (path name : String) → FileKind → m (List String)) :
    (depth : Nat) → (folder : String) → m (List String)
  | 0, _ => return []
  | depth + 1, folder => do
    (← sortedEntries access folder).flatMapM fun (name, kind) => do
      let path := join folder name
      let found ← visit path name kind
      if kind = .folder then return found ++ (← walk visit depth path) else return found

/-- The folder itself and the one around it, for patterns that start with a dot. -/
def dots : Pattern → List String
  | .char '.' :: rest => ["..", "."].filter (Pattern.acceptsName (.char '.' :: rest))
  | _ => []

/-- The paths that patterns of components lead to from a path. -/
def follow (foldersOnly : Bool) : List Pattern → (path : String) → FileKind → m (List String)
  | [], path, kind => return if foldersOnly && kind != .folder then [] else [path]
  | p :: rest, path, kind =>
    match p.literal? with
    | some name => do
      let next := join path name
      if name = "." || name = ".." then
        if kind = .folder then follow foldersOnly rest next .folder else return []
      else
        match ← access.kind next with
        | some kind => follow foldersOnly rest next kind
        | none => return []
    | none =>
      if kind != .folder then return []
      else if p.isAnyFolders then
        match rest with
        | [] => walk access (fun path _ kind => return if kind = .folder then [path] else [])
            maxDepth path
        | q :: rest =>
          walk access (fun path name kind =>
              if q.acceptsName name then follow foldersOnly rest path kind else return [])
            maxDepth path
      else do
        let special ← (dots p).flatMapM fun name =>
          follow foldersOnly rest (path ++ "/" ++ name) .folder
        let found ← (← sortedEntries access path).flatMapM fun (name, kind) =>
          if p.acceptsName name then follow foldersOnly rest (join path name) kind else return []
        return special ++ found

/-- Patterns without repeated neighbours that stand for any folders. -/
def mergeFolders : List Pattern → List Pattern
  | p :: q :: rest =>
    if p.isAnyFolders && q.isAnyFolders then mergeFolders (q :: rest)
    else p :: mergeFolders (q :: rest)
  | ps => ps

/-- Components of a path; an empty one at the end does not count. -/
def components (path : String) : List String :=
  let parts := path.splitOn "/"
  if parts.getLast? = some "" then parts.dropLast else parts

/-- The paths that a pattern stands for. -/
def expand (text : String) : m (Except PatternError (List String)) :=
  let rooted := text.toList.head? = some '/'
  let relative := String.ofList (text.toList.dropWhile (· = '/'))
  match Pattern.ofString text, (components relative).mapM Pattern.ofString with
  | .error e, _ => return .error e
  | _, .error e => return .error e
  | .ok _, .ok patterns => do
    let foldersOnly := text.toList.getLast? = some '/'
    return .ok (← follow access foldersOnly (mergeFolders patterns)
      (if rooted then "/" else ".") .folder)

end FileAccess

/-- Paths of files with their texts. -/
abbrev Folder := List (String × String)

namespace Folder

/-- Names that lead to a file of the folder. -/
def route (path : String) : List String :=
  (path.splitOn "/").filter fun name => name != "" && name != "."

/-- Files with the names that lead to them. -/
def routes (folder : Folder) : List (List String × String) :=
  folder.foldl (fun found (path, text) => setEntry (route path) text found) []

/-- What is at the end of some names. -/
def kindAt (folder : Folder) (names : List String) : Option FileKind :=
  if (valueAt? names folder.routes).isSome then some .file
  else if names.isEmpty || folder.routes.any (fun entry => names.isPrefixOf entry.1) then
    some .folder
  else none

/-- Why a path leads nowhere. -/
inductive PathError where
  /-- There is nothing of a name. -/
  | missing
  /-- It leads through a file. -/
  | throughFile
  /-- It is too long, or a name in it is. -/
  | tooLong
  deriving DecidableEq

/-- What is said about a path that leads nowhere. -/
def PathError.message : PathError → String
  | .missing => "No such file or directory (os error 2)"
  | .throughFile => "Not a directory (os error 20)"
  | .tooLong => "File name too long (os error 36)"

/-- The longest name, in octets. -/
def maxName : Nat := 255

/-- The longest path, in octets. -/
def maxPath : Nat := 4095

/-- Where a path leads to: names in the folder, or out of it. Around the folder there are only
folders, and nothing else is known to be in them. -/
inductive Location where
  /-- A file or a folder inside. -/
  | inside (names : List String)
  /-- A folder outside. -/
  | outside
  deriving DecidableEq

/-- The location itself or the folder around it, for the names that stand for these. -/
def Location.dotted (name : String) : Location → Option Location
  | inside names =>
    if name = "" || name = "." then some (.inside names)
    else if name = ".." then some (if names.isEmpty then .outside else .inside names.dropLast)
    else none
  | outside => if name = "" || name = "." || name = ".." then some .outside else none

/-- One step of a path. -/
def enter (folder : Folder) (location : Location) (name : String) : Except PathError Location :=
  let next : Except PathError Location :=
    match location.dotted name, location with
    | some next, _ => .ok next
    | none, .outside => .error (if maxName < name.utf8ByteSize then .tooLong else .missing)
    | none, .inside names =>
      if maxName < name.utf8ByteSize then .error .tooLong
      else if (folder.kindAt (names ++ [name])).isSome then .ok (.inside (names ++ [name]))
      else .error .missing
  match location with
  | .inside names => if folder.kindAt names = some .file then .error .throughFile else next
  | .outside => next

/-- Where a path leads to. Only folders can be entered, and each name is looked up before the next
one, so that nothing leads back from a name that is missing. -/
def locate (folder : Folder) (path : String) : Except PathError Location :=
  if path = "" then .error .missing
  else if maxPath < path.utf8ByteSize then .error .tooLong
  else
    let start : Location := if path.toList.head? = some '/' then .outside else .inside []
    (path.splitOn "/").foldlM folder.enter start

/-- What is at a path. -/
def kind (folder : Folder) (path : String) : Option FileKind :=
  match folder.locate path with
  | .ok (.inside names) => folder.kindAt names
  | .ok .outside => some .folder
  | .error _ => none

/-- What is in a folder. -/
def entries (folder : Folder) (path : String) : List (String × FileKind) :=
  match folder.locate path with
  | .ok (.inside names) =>
    folder.routes.foldl (fun found (file, _) =>
      if names.isPrefixOf file then
        match file.drop names.length with
        | [] => found
        | [name] => setEntry name .file found
        | name :: _ => setEntry name .folder found
      else found) []
  | _ => []

/-- Said of a folder that is read. -/
def isFolder : String := "Is a directory (os error 21)"

/-- The text of a file, or why it cannot be read. -/
def read (folder : Folder) (path : String) : Except String String :=
  match folder.locate path with
  | .error e => .error e.message
  | .ok .outside => .error isFolder
  | .ok (.inside names) =>
    match valueAt? names folder.routes with
    | some text => .ok text
    | none => .error isFolder

/-- Access to a folder in memory. -/
def access (folder : Folder) : FileAccess Id where
  read path := folder.read path
  kind path := folder.kind path
  entries path := folder.entries path

end Folder
end TypeFlow
