/-
  A server that speaks the language server protocol.

  * `Server` is its state;
  * `Incoming` and `Outgoing` are the messages it receives and sends;
  * `RpcError` is the cause why a request is refused.
-/
import AnnotatedJson.Schema.Fetch
import AnnotatedJson.Service

namespace AnnotatedJson

/-- Why a request is refused. -/
inductive RpcError where
  /-- The server was not started yet. -/
  | notStarted
  /-- The request does not fit the state of the server. -/
  | invalidRequest
  | methodNotFound
  | invalidParams
deriving DecidableEq, Repr, Inhabited

namespace RpcError

/-- The number of a cause in the protocol. -/
def code : RpcError → Int
  | notStarted => -32002
  | invalidRequest => -32600
  | methodNotFound => -32601
  | invalidParams => -32602

/-- The text of a cause. -/
def message : RpcError → String
  | notStarted => "Server not initialized"
  | invalidRequest => "Invalid request"
  | methodNotFound => "Method not found"
  | invalidParams => "Invalid params"

end RpcError

/-- A message to the server. -/
inductive Incoming where
  /-- A request, or without a number a notification. -/
  | call (id : Option Json) (method : String) (params : Option Json)
  /-- The answer to a request of the server; nothing if it failed. -/
  | answer (id : Nat) (result : Option Json)

/-- A message from the server, apart from its answers. -/
inductive Outgoing where
  | diagnostics (uri : Uri) (items : List Diagnostic) (version : Option Int)
  | preview (message : PreviewMessage)
  | log (text : String)
  /-- Asks the client for its settings. -/
  | askSettings (id : Nat)

/-- How far the life of a server has got. -/
inductive Phase where
  | fresh
  | running
  | stopped
deriving DecidableEq, Repr, Inhabited

/-- A server. -/
structure Server where
  phase : Phase := .fresh
  registry : Registry := .standard
  workspace : Workspace
  fetcher : SchemaFetcher
  settings : Settings := {}
  outbox : List Outgoing := []
  /-- Requests that wait for an answer, and whether the start is complete with it. -/
  waiting : List (Nat × Bool) := []
  /-- The number of the next request. -/
  nextId : Nat := 0

/-- A server that was not started yet. -/
def Server.ofFiles (files : FileTree) (network : Network := .silent) : Server :=
  let fetcher : SchemaFetcher := { files, network }
  { workspace := .ofSettings {} fetcher.request, fetcher }

/-! ## Messages as JSON -/

namespace PreviewMessage

/-- The name of a message. -/
def method : PreviewMessage → String
  | opened _ => "amisJsonExtension/openPreviewWebview"
  | updated _ => "amisJsonExtension/updatePreviewWebview"

/-- What a message shows. -/
def payload : PreviewMessage → PreviewPayload
  | opened p | updated p => p

end PreviewMessage

namespace Outgoing

/-- The name of a message. -/
def method : Outgoing → String
  | diagnostics .. => "textDocument/publishDiagnostics"
  | preview m => m.method
  | log _ => "window/logMessage"
  | askSettings _ => "workspace/configuration"

/-- The parameters of a message. -/
def params : Outgoing → Json
  | diagnostics uri items version =>
    .ofFields [("uri", some (.string uri.toString)),
      ("diagnostics", some (.array (items.map Diagnostic.toJson))),
      ("version", version.map .ofInt)]
  | preview m => .object [("label", .string m.payload.label), ("value", m.payload.value)]
  | log text => .object [("type", .ofNat 3), ("message", .string text)]
  | askSettings _ =>
    .object [("items", .array [.object [("section", .string Settings.clientSection)]])]

/-- The number of a message that wants an answer. -/
def id? : Outgoing → Option Nat
  | askSettings id => some id
  | _ => none

end Outgoing

end AnnotatedJson
