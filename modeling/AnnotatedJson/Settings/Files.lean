/-
  Settings files.

  * `FileTree` is what is known of the files;
  * `Settings.ofToml?` reads the text of a settings file;
  * `Settings.discover` looks for one: in a directory and all above it, then in the
    directories right below it.
-/
import AnnotatedJson.Settings.Reader
import AnnotatedJson.Toml.Reader

namespace AnnotatedJson

/-- The names in an absolute path; those that lead nowhere are resolved. -/
def pathNames (path : String) : List String :=
  (path.splitOn "/").foldl (fun names name =>
    if name = "" ∨ name = "." then names
    else if name = ".." then names.dropLast
    else names ++ [name]) []

/-- A file with its content, or a directory. -/
structure FileEntry where
  names : List String
  content : Option String
deriving DecidableEq, Repr, Inhabited

/-- Files and directories.  Directories that hold a file need no entry. -/
structure FileTree where
  entries : List FileEntry := []
deriving DecidableEq, Repr, Inhabited

namespace FileTree

/-- The content of the file at a path. -/
def read? (t : FileTree) (path : String) : Option String :=
  (t.entries.find? fun e => e.names = pathNames path ∧ e.content.isSome).bind (·.content)

/-- Whether there is a file at a path. -/
def isFile (t : FileTree) (path : String) : Bool := (t.read? path).isSome

/-- The directories right below a path, each once. -/
def directories (t : FileTree) (path : String) : List String :=
  let above := pathNames path
  let below := t.entries.filterMap fun e =>
    if above.isPrefixOf e.names then
      match e.names.drop above.length, e.content with
      | [name], none => some name
      | name :: _ :: _, _ => some name
      | _, _ => none
    else none
  below.eraseDups

end FileTree

/-- The path of the directory above a path. -/
def parentPath? (path : String) : Option String :=
  let trimmed := (path.toList.reverse.dropWhile (· = '/')).reverse
  if trimmed.isEmpty then none
  else
    let directory := ((trimmed.reverse.dropWhile (· ≠ '/')).dropWhile (· = '/')).reverse
    if directory.isEmpty then (if trimmed.head? = some '/' then some "/" else some "")
    else some (String.ofList directory)

/-- A path and those above it; each is shorter than the one before. -/
def pathsUpTo : Nat → String → List String
  | 0, _ => []
  | fuel + 1, path =>
    path :: match parentPath? path with
      | some parent => pathsUpTo fuel parent
      | none => []

/-- A path and all above it, up to the top. -/
def pathsUp (path : String) : List String := pathsUpTo (path.length + 1) path

/-- A name below a path. -/
def joinPath (path name : String) : String :=
  if path.isEmpty ∨ path.endsWith "/" then path ++ name else path ++ "/" ++ name

namespace Settings

/-- Reads the text of a settings file. -/
def ofToml? (text : String) : Option Settings := (Toml.read? text.toList).bind (ofValue? true)

/-- The name of settings files. -/
def fileName : String := "amis-lsp.toml"

/-- Reads a settings file; without one, or if it is faulty, settings are the
    default. -/
def load (t : FileTree) (path : String) : Settings :=
  ((t.read? path).bind ofToml?).getD {}

/-- The settings that hold for a directory, and the directory that they come
    from. -/
def discover (t : FileTree) (start : String) : Settings × String :=
  let above := (pathsUp start).find? fun d => t.isFile (joinPath d fileName)
  let below := ((t.directories start).map (joinPath start)).find? fun d =>
    t.isFile (joinPath d fileName)
  match above.or below with
  | some directory => (load t (joinPath directory fileName), directory)
  | none => ({}, start)

end Settings

end AnnotatedJson
