/-
  The form in which messages are sent.

  * `Incoming.ofJson?` reads a message;
  * `Outgoing.toJson` and `replyJson` write what a server sends;
  * `frame` puts the length in front of a message, `contentLength?` reads it.
-/
import AnnotatedJson.Json.Printer
import AnnotatedJson.Server.Basic
import AnnotatedJson.Text.Digit

namespace AnnotatedJson

/-- Reads a message. -/
def Incoming.ofJson? (v : Json) : Option Incoming :=
  match v.member? "method", v.member? "id" with
  | some (.string method), id => some (.call id method (v.member? "params"))
  | none, some id => do
    let number ← id.asNat?
    return .answer number (v.member? "result")
  | _, _ => none

/-- A message from the server. -/
def Outgoing.toJson (m : Outgoing) : Json :=
  .ofFields [("jsonrpc", some (.string "2.0")), ("id", m.id?.map .ofNat),
    ("method", some (.string m.method)), ("params", some m.params)]

/-- The answer to a request. -/
def replyJson (id : Json) (reply : Except RpcError Json) : Json :=
  let (name, value) := match reply with
    | .ok result => ("result", result)
    | .error e =>
      ("error", .object [("code", .ofInt e.code), ("message", .string e.message)])
  .object [("jsonrpc", .string "2.0"), ("id", id), (name, value)]

/-- A message with its length in front. -/
def frame (v : Json) : String :=
  let body := v.render
  s!"Content-Length: {body.utf8ByteSize}\r\n\r\n{body}"

/-- The length that a line in front of a message gives. -/
def contentLength? (line : String) : Option Nat :=
  match line.splitOn ":" with
  | [name, value] =>
    let digits := value.toList.filter Text.isDigit
    if name.toLower = "content-length" ∧ !digits.isEmpty then some (Text.natOfDigits digits)
    else none
  | _ => none

end AnnotatedJson
