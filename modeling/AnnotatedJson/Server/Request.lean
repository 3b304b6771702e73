/-
  The requests and notifications that a server understands.

  * `Request` and `Notification` are what a client may send;
  * `Request.read` and `Notification.read` read them by the name of their method.
-/
import AnnotatedJson.Mode.Basic
import AnnotatedJson.Protocol.Reader
import AnnotatedJson.Server.Basic

namespace AnnotatedJson

open Json

/-- A question about a document. -/
inductive Query where
  | hover (position : Position)
  | completion (position : Position)
  | signatureHelp (position : Position)
  | highlights (position : Position)
  | definitions (position : Position)
  | references (position : Position)
  | symbols
  | links
  | format (range : Range) (options : FormatOptions)
  | colors
  | colorPresentations (color : Color) (range : Range)
  | codeActions (range : Range)

/-- A request. -/
inductive Request where
  /-- Starts the server in a directory, with settings. -/
  | start (root : Option String) (settings : Option Json)
  | stop
  | query (uri : Uri) (query : Query)
  | resolve (item : CompletionItem)
  | execute (command : String) (arguments : List Json)

/-- A notification. -/
inductive Notification where
  /-- The client has seen that the server is started. -/
  | started
  | opened (document : Document)
  /-- A document has a new text; without any, nothing changes. -/
  | changed (uri : Uri) (version : Int) (text : Option Text)
  | closed (uri : Uri)
  | configured (settings : Json)

/-! ## Parts of parameters -/

/-- Reads the reference to a document. -/
def documentUri? (v : Json) : Option Uri := do
  field? asUri? "uri" (← v.record? ["uri"])

/-- Reads a token that names a request. -/
def token? (v : Json) : Option Json :=
  match v with
  | .string _ => some v
  | _ => (v.asSignedWord?).map fun _ => v

/-- Reads the members of parameters; tokens in them have to be tokens. -/
def parameters? (v : Json) : Option (List (String × Json)) := do
  let members ← v.asObject?
  let _ ← optionalField? token? "workDoneToken" members
  let _ ← optionalField? token? "partialResultToken" members
  return members

/-- Reads what caused a completion. -/
def completionContext? (v : Json) : Option Unit := do
  let r ← v.record? ["triggerKind", "triggerCharacter"]
  let _ ← field? asSignedWord? "triggerKind" r
  let _ ← optionalField? asString? "triggerCharacter" r

/-- Reads how a text is to be laid out. -/
def FormatOptions.ofJson? (v : Json) : Option FormatOptions := do
  let members ← v.asObject?
  let _ ← field? asBool? "insertSpaces" members
  return ⟨← field? asWord? "tabSize" members⟩

/-- Reads the context of references. -/
def referenceContext? (v : Json) : Option Bool := do
  field? asBool? "includeDeclaration" (← v.record? ["includeDeclaration"])

/-- Reads the context of code actions. -/
def codeActionContext? (v : Json) : Option Unit := do
  let r ← v.record? ["diagnostics", "only", "triggerKind"]
  let diagnostics ← field? asArray? "diagnostics" r
  let _ ← diagnostics.mapM fun d => do
    let _ ← field? Range.ofJson? "range" (← d.asObject?)
    field? asString? "message" (← d.asObject?)
  let _ ← optionalField? (listOf? asString?) "only" r
  let _ ← optionalField? asSignedWord? "triggerKind" r

/-! ## Requests -/

/-- Reads a question about a position. -/
def placed? (ask : Position → Query) (v : Json) : Option Request := do
  let members ← parameters? v
  return .query (← field? documentUri? "textDocument" members)
    (ask (← field? Position.ofJson? "position" members))

/-- Reads a question about a document, with what else it needs. -/
def whole? (ask : List (String × Json) → Option Query) (v : Json) : Option Request := do
  let members ← parameters? v
  return .query (← field? documentUri? "textDocument" members) (← ask members)

/-- Reads the directory of a folder. -/
def folderUri? (v : Json) : Option Uri := do
  let r ← v.record? ["uri", "name"]
  let _ ← field? asString? "name" r
  field? asUri? "uri" r

/-- Reads how much the server is to tell of itself. -/
def traceValue? : Json → Option Unit
  | .string "off" | .string "messages" | .string "verbose" => some ()
  | _ => none

/-- Reads the name of the client. -/
def clientInfo? (v : Json) : Option Unit := do
  let r ← v.record? ["name", "version"]
  let _ ← field? asString? "name" r
  let _ ← optionalField? asString? "version" r

/-- Reads a request to start.  The first folder counts, else the root. -/
def start? (v : Json) : Option Request := do
  let r ← v.record? ["processId", "rootPath", "rootUri", "initializationOptions", "capabilities",
    "trace", "workspaceFolders", "clientInfo", "locale"]
  let _ ← optionalField? asWord? "processId" r
  let _ ← optionalField? asString? "rootPath" r
  let root ← optionalField? asUri? "rootUri" r
  let options ← optionalField? some "initializationOptions" r
  let _ ← field? asObject? "capabilities" r
  let _ ← optionalField? traceValue? "trace" r
  let folders ← optionalField? (listOf? folderUri?) "workspaceFolders" r
  let _ ← optionalField? clientInfo? "clientInfo" r
  let _ ← optionalField? asString? "locale" r
  let folder := (folders.bind List.head?).bind Uri.filePath?
  return .start ((folder.or (root.bind Uri.filePath?)).map String.ofList) options

/-- Reads a request to run a command. -/
def execute? (v : Json) : Option Request := do
  let members ← parameters? v
  let arguments ← match lookup "arguments" members with
    | some v => v.asArray?
    | none => some []
  return .execute (← field? asString? "command" members) arguments

/-- Requests that are known, but not answered. -/
def unansweredMethods : List String :=
  ["textDocument/willSaveWaitUntil", "textDocument/declaration", "textDocument/typeDefinition",
    "textDocument/implementation", "textDocument/prepareCallHierarchy",
    "callHierarchy/incomingCalls", "callHierarchy/outgoingCalls",
    "textDocument/prepareTypeHierarchy", "typeHierarchy/supertypes", "typeHierarchy/subtypes",
    "documentLink/resolve", "textDocument/codeLens", "codeLens/resolve",
    "textDocument/foldingRange", "textDocument/selectionRange",
    "textDocument/semanticTokens/full", "textDocument/semanticTokens/full/delta",
    "textDocument/semanticTokens/range", "textDocument/inlineValue", "textDocument/inlayHint",
    "inlayHint/resolve", "textDocument/moniker", "textDocument/diagnostic",
    "workspace/diagnostic", "codeAction/resolve", "textDocument/formatting",
    "textDocument/onTypeFormatting", "textDocument/rename", "textDocument/prepareRename",
    "textDocument/linkedEditingRange", "workspace/symbol", "workspaceSymbol/resolve",
    "workspace/willCreateFiles", "workspace/willRenameFiles", "workspace/willDeleteFiles"]

/-- What reads the parameters of a method, if it is that of a request. -/
def Request.reader? (method : String) : Option (Json → Option Request) :=
  match method with
  | "initialize" => some start?
  | "textDocument/hover" => some (placed? .hover)
  | "textDocument/completion" => some fun v => do
    let _ ← optionalField? completionContext? "context" (← v.asObject?)
    placed? .completion v
  | "textDocument/signatureHelp" => some (placed? .signatureHelp)
  | "textDocument/documentHighlight" => some (placed? .highlights)
  | "textDocument/definition" => some (placed? .definitions)
  | "textDocument/references" => some fun v => do
    let _ ← field? referenceContext? "context" (← v.asObject?)
    placed? .references v
  | "textDocument/documentSymbol" => some (whole? fun _ => some .symbols)
  | "textDocument/documentLink" => some (whole? fun _ => some .links)
  | "textDocument/rangeFormatting" => some (whole? fun members => do
    return .format (← field? Range.ofJson? "range" members)
      (← field? FormatOptions.ofJson? "options" members))
  | "textDocument/documentColor" => some (whole? fun _ => some .colors)
  | "textDocument/colorPresentation" => some (whole? fun members => do
    return .colorPresentations (← field? Color.ofJson? "color" members)
      (← field? Range.ofJson? "range" members))
  | "textDocument/codeAction" => some (whole? fun members => do
    let _ ← field? codeActionContext? "context" members
    return .codeActions (← field? Range.ofJson? "range" members))
  | "completionItem/resolve" => some fun v => (CompletionItem.ofJson? v).map .resolve
  | "workspace/executeCommand" => some execute?
  | _ => none

/-- Whether a method is that of a request. -/
def Request.isKnown (method : String) : Bool :=
  method = "shutdown" || (reader? method).isSome || unansweredMethods.contains method

/-- Reads a request. -/
def Request.read (method : String) (params : Option Json) : Except RpcError Request :=
  match method, params with
  | "shutdown", none => .ok .stop
  | "shutdown", some _ => .error .invalidParams
  | _, none => .error .invalidParams
  | _, some v =>
    match reader? method with
    | some read =>
      match read v with
      | some r => .ok r
      | none => .error .invalidParams
    | none => .error .methodNotFound

/-! ## Notifications -/

/-- Reads a document that was opened. -/
def openedDocument? (v : Json) : Option Document := do
  let r ← v.record? ["uri", "languageId", "version", "text"]
  return .ofText (← field? asUri? "uri" r) (← field? asString? "languageId" r)
    (← field? asSignedWord? "version" r) (← field? asString? "text" r).toList

/-- Reads a change of a text.  The text counts as a whole, whatever its range. -/
def changedText? (v : Json) : Option Text := do
  let r ← v.record? ["range", "rangeLength", "text"]
  let _ ← optionalField? Range.ofJson? "range" r
  let _ ← optionalField? asWord? "rangeLength" r
  return (← field? asString? "text" r).toList

/-- Reads the reference to a version of a document. -/
def versionedUri? (v : Json) : Option (Uri × Int) := do
  let r ← v.record? ["uri", "version"]
  return (← field? asUri? "uri" r, ← field? asSignedWord? "version" r)

/-- What reads the parameters of a method, if it is that of a notification. -/
def Notification.reader? (method : String) : Option (Json → Option Notification) :=
  match method with
  | "initialized" => some fun v => do
    let _ ← v.record? []
    return .started
  | "textDocument/didOpen" => some fun v => do
    let r ← v.record? ["textDocument"]
    return .opened (← field? openedDocument? "textDocument" r)
  | "textDocument/didChange" => some fun v => do
    let r ← v.record? ["textDocument", "contentChanges"]
    let (uri, version) ← field? versionedUri? "textDocument" r
    return .changed uri version (← field? (listOf? changedText?) "contentChanges" r).head?
  | "textDocument/didClose" => some fun v => do
    let r ← v.record? ["textDocument"]
    return .closed (← field? documentUri? "textDocument" r)
  | "workspace/didChangeConfiguration" => some fun v => do
    let r ← v.record? ["settings"]
    return .configured (← field? some "settings" r)
  | _ => none

/-- Notifications that are known, but mean nothing here. -/
def silentMethods : List String :=
  ["textDocument/willSave", "textDocument/didSave", "workspace/didChangeWorkspaceFolders",
    "workspace/didChangeWatchedFiles", "workspace/didCreateFiles", "workspace/didRenameFiles",
    "workspace/didDeleteFiles"]

/-- Whether a method is that of a notification. -/
def Notification.isKnown (method : String) : Bool :=
  (reader? method).isSome || silentMethods.contains method

/-- Reads a notification. -/
def Notification.read? (method : String) (params : Option Json) : Option Notification := do
  (← reader? method) (← params)

end AnnotatedJson
