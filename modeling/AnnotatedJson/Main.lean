/-
  The program: a server on standard input and output.

  Handling a message is pure.  A message is handled again with more files whenever
  it turns out to ask for schema files that were not read yet.
-/
import AnnotatedJson.Json.Reader
import AnnotatedJson.Server.Handle
import AnnotatedJson.Server.Wire

namespace AnnotatedJson

namespace Main

/-! ## Files -/

/-- The file at a path, if it can be read. -/
def load? (path : String) : IO (Option FileEntry) := do
  try
    return some ⟨pathNames path, some (← IO.FS.readFile path)⟩
  catch _ => return none

/-- The directories right below a path. -/
def directoriesBelow (path : String) : IO (List String) := do
  try
    let entries ← ((← IO.currentDir) / path).readDir
    let directories ← entries.toList.filterM fun e => e.path.isDir
    return directories.map fun e => joinPath path e.fileName
  catch _ => return []

/-- The settings files that count for a directory. -/
def settingsFiles (root : String) : IO (List FileEntry) := do
  let directories := pathsUp root ++ (← directoriesBelow root)
  (directories.map fun d => joinPath d Settings.fileName).filterMapM load?

/-- The files that have to be known before a message is handled. -/
def filesFor : Incoming → IO (List FileEntry)
  | .call _ method params =>
    match Request.read method params with
    | .ok (.start (some root) _) => settingsFiles root
    | _ => return []
  | .answer .. => return []

/-! ## Messages -/

/-- Handles a message, and reads the schema files that it asks for. -/
partial def handle (server : Server) (m : Incoming) (files : List FileEntry)
    (tried : List String) : IO (Option (Except RpcError Json) × Server) := do
  let (reply, after) := (Server.receive m).run (server.withFiles ⟨files⟩)
  let wanted := after.missingFiles.filter fun path => !tried.contains path
  if wanted.isEmpty then return (reply, after)
  let found ← wanted.filterMapM load?
  handle server m (files ++ found) (tried ++ wanted)

/-- Writes a message. -/
def write (output : IO.FS.Stream) (v : Json) : IO Unit := do
  output.putStr (frame v)
  output.flush

/-- Reads the lines in front of a message, and gives its length. -/
partial def readLength (input : IO.FS.Stream) (length : Option Nat) : IO (Option Nat) := do
  let line ← input.getLine
  if line.isEmpty then return none
  else if line.trimAscii.isEmpty then return length
  else readLength input ((contentLength? line).or length)

/-- Reads a number of bytes. -/
partial def readBytes (input : IO.FS.Stream) (count : Nat) (seen : ByteArray) : IO ByteArray := do
  if seen.size < count then
    let chunk ← input.read (count - seen.size).toUSize
    if chunk.isEmpty then return seen else readBytes input count (seen ++ chunk)
  else return seen

/-- Handles messages until the input ends or the client says so. -/
partial def serve (input output : IO.FS.Stream) (server : Server) : IO Unit := do
  let some length ← readLength input none | return
  let body ← readBytes input length .empty
  let message := (String.fromUTF8? body).bind fun text =>
    (Json.ofText? text.toList).bind Incoming.ofJson?
  match message with
  | some (.call _ "exit" _) => return
  | some m =>
    let (reply, server) ← handle server m (← filesFor m) []
    server.outbox.forM fun sent => write output sent.toJson
    match m, reply with
    | .call (some id) _ _, some reply => write output (replyJson id reply)
    | _, _ => pure ()
    serve input output { server with outbox := [] }
  | none => serve input output server

end Main

end AnnotatedJson

/-- Serves one client on standard input and output. -/
def main : IO Unit := do
  AnnotatedJson.Main.serve (← IO.getStdin) (← IO.getStdout) (.ofFiles {})
