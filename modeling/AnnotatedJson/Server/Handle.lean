/-
  How a server handles messages.

  * `Server.answer` answers a request, `Server.notice` handles a notification;
  * `Server.receive` handles any message, with regard to the phase of the server;
  * `Server.exchange` also gives an answer to what the server asks meanwhile.
-/
import AnnotatedJson.Server.Capabilities
import AnnotatedJson.Server.Request

namespace AnnotatedJson

namespace Server

/-- Does something with the workspace. -/
def within {α : Type} (a : StateM Workspace α) : StateM Server α := fun s =>
  let (value, workspace) := a.run s.workspace
  (value, { s with workspace })

/-- Sends a message. -/
def send (m : Outgoing) : StateM Server Unit :=
  modify fun s => { s with outbox := s.outbox ++ [m] }

/-! ## Settings -/

/-- Publishes the diagnostics of a document. -/
def publish (d : Document) : StateM Server Unit := do
  let items ← within ((← get).registry.validate d)
  send (.diagnostics d.uri items (some d.version))

/-- Takes over settings, and publishes the diagnostics of all documents anew. -/
def configure (settings : Settings) : StateM Server Unit := do
  modify fun s =>
    let fetcher := s.fetcher.configure settings
    { s with
      fetcher
      settings
      workspace := { s.workspace with schemaBody := fetcher.request } }
  within ((← get).registry.configure settings)
  (← get).workspace.documents.all.forM publish

/-- Asks the client for its settings; the start may be complete with the answer. -/
def askSettings (completesStart : Bool) : StateM Server Unit := do
  let id := (← get).nextId
  modify fun s => { s with nextId := id + 1, waiting := s.waiting ++ [(id, completesStart)] }
  send (.askSettings id)

/-- Handles the answer to a question for settings. -/
def takeAnswer (id : Nat) (result : Option Json) : StateM Server Unit := do
  match (← get).waiting.lookup id with
  | some completesStart =>
    modify fun s => { s with waiting := s.waiting.filter fun w => w.1 ≠ id }
    match (result.bind fun v => v.item? 0).bind Settings.ofClient? with
    | some settings => configure settings
    | none => pure ()
    if completesStart then send (.log "amis language server initialized")
  | none => pure ()

/-! ## Requests -/

/-- Answers a question about an open document. -/
def answerQuery (d : Document) (q : Query) : StateM Server Json := do
  let r := (← get).registry
  let list {α : Type} (f : α → Json) (a : StateM Workspace (List α)) : StateM Server Json :=
    return .array ((← within a).map f)
  match q with
  | .hover p => return .ofOption ((← within (r.hover d p)).map Hover.toJson)
  | .completion p => return (← within (r.complete d p)).toJson
  | .signatureHelp p => return .ofOption ((← within (r.signatureHelp d p)).map SignatureHelp.toJson)
  | .highlights p => list Highlight.toJson (r.highlights d p)
  | .definitions p => list Location.toJson (r.definitions d p)
  | .references p => list Location.toJson (r.references d p)
  | .symbols => list DocumentSymbol.toJson (r.symbols d)
  | .links => list DocumentLink.toJson (r.links d)
  | .format range options => list TextEdit.toJson (r.format d range options)
  | .colors => list ColorInformation.toJson (r.colors d)
  | .colorPresentations color range =>
    list ColorPresentation.toJson (r.colorPresentations d color range)
  | .codeActions range =>
    match ← within (r.codeActions d range) with
    | [] => return .null
    | commands => return .array (commands.map Command.toJson)

/-- The answer to a question about a document that is not open. -/
def unopenedAnswer : Query → Json
  | .colors | .colorPresentations .. => .array []
  | _ => .null

/-- The document that a proposal was made for. -/
def itemDocument? (s : Server) (item : CompletionItem) : Option Document := do
  let uri ← Uri.parse? (← (← (← item.data).member? "uri").asString?)
  s.workspace.documents.get? uri

/-- Answers a request. -/
def answer (request : Request) : StateM Server Json := do
  match request with
  | .start root options =>
    match root with
    | some path =>
      modify fun s => { s with settings := (Settings.discover s.fetcher.files path).1 }
    | none => pure ()
    match options.bind Settings.ofClient? with
    | some settings => modify fun s => { s with settings }
    | none => pure ()
    return (← get).registry.introduction
  | .stop =>
    within (← get).registry.dispose
    return .null
  | .query uri q =>
    match (← get).workspace.documents.get? uri with
    | some d => answerQuery d q
    | none => return unopenedAnswer q
  | .resolve item =>
    match (← get).itemDocument? item with
    | some d => return (← within ((← get).registry.resolve d item)).toJson
    | none => return item.toJson
  | .execute command arguments =>
    if command = reloadCommand then
      configure (← get).settings
      return .null
    else
      let result ← within ((← get).registry.execute command arguments).run
      return .ofOption (result.toOption.bind id)

/-- Handles a notification. -/
def notice (n : Notification) : StateM Server Unit := do
  match n with
  | .started =>
    configure (← get).settings
    askSettings true
  | .opened d =>
    within (modify fun w => { w with documents := w.documents.put d })
    publish d
  | .changed uri version (some text) =>
    match (← get).workspace.documents.change? uri version text with
    | some (d, documents) =>
      within (modify fun w => { w with documents })
      publish d
    | none => pure ()
  | .changed _ _ none => pure ()
  | .closed uri =>
    within (modify fun w => { w with documents := w.documents.close uri })
    within ((← get).registry.forget uri)
    send (.diagnostics uri [] none)
  | .configured value =>
    match Settings.ofClient? value with
    | some settings => configure settings
    | none => askSettings false

/-! ## Messages -/

/-- Reads a request and answers it. -/
def answerCall (method : String) (params : Option Json) : StateM Server (Except RpcError Json) := do
  match Request.read method params with
  | .ok request => return .ok (← answer request)
  | .error e => return .error e

/-- Answers a request in the phase that the server is in. -/
def answerInPhase (method : String) (params : Option Json) :
    StateM Server (Except RpcError Json) := do
  match (← get).phase, method with
  | .fresh, "initialize" =>
    let result ← answerCall method params
    if result.isOk then modify fun s => { s with phase := .running }
    return result
  | _, "initialize" => return .error .invalidRequest
  | .fresh, _ => return .error .notStarted
  | .stopped, _ => return .error .invalidRequest
  | .running, "shutdown" =>
    modify fun s => { s with phase := .stopped }
    answerCall method params
  | .running, _ =>
    if Notification.isKnown method then return .error .invalidRequest
    else answerCall method params

/-- Tells the preview about changes, and sends what it shows. -/
def deliverPreviews : StateM Server Unit := do
  within Workspace.deliver
  modify fun s =>
    { s with
      outbox := s.outbox ++ s.workspace.sent.map .preview
      workspace := { s.workspace with sent := [] } }

/-- Handles a message, and answers it if it is a request. -/
def receive (m : Incoming) : StateM Server (Option (Except RpcError Json)) := do
  let reply ← match m with
    | .answer id result =>
      takeAnswer id result
      pure none
    | .call (some _) method params =>
      if Request.isKnown method || Notification.isKnown method then
        some <$> answerInPhase method params
      else pure (some (.error .methodNotFound))
    | .call none method params =>
      if (← get).phase = .running then
        match Notification.read? method params with
        | some n => notice n
        | none => pure ()
      pure none
  deliverPreviews
  return reply

/-! ## Files -/

/-- Takes over what is known of the files. -/
def withFiles (s : Server) (files : FileTree) : Server :=
  let fetcher := { s.fetcher with files }
  { s with fetcher, workspace := { s.workspace with schemaBody := fetcher.request } }

/-- The files of schemas that were asked for and could not be loaded. -/
def missingFiles (s : Server) : List String :=
  s.workspace.literals.schemas.unfilled.filterMap fun uri =>
    ((Uri.parse? uri).bind Uri.filePath?).map String.ofList

/-! ## Dialogues -/

/-- Handles a message, and gives one answer to all that the server asks meanwhile. -/
def exchange (m : Incoming) (result : Option Json) :
    StateM Server (Option (Except RpcError Json)) := do
  let reply ← receive m
  (← get).waiting.forM fun w => discard (receive (.answer w.1 result))
  return reply

end Server

end AnnotatedJson
