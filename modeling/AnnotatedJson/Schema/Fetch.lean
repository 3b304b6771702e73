/-
  Fetching schemas.

  Schemas come from files and from servers.  Both are given: the files as a tree, the
  network as what answers a request.

  * `pointAtDefinition` points the root of a schema at one of its definitions;
  * `Network` gives the responses of servers;
  * `SchemaFetcher.request` answers a request for a location.
-/
import AnnotatedJson.Error
import AnnotatedJson.Json.Printer
import AnnotatedJson.Json.Reader
import AnnotatedJson.Settings.Files
import AnnotatedJson.Uri.Parse

namespace AnnotatedJson

/-- The definition that the root of a schema is pointed at. -/
def rootDefinition : String := "#/definitions/SchemaObject"

/-- A schema whose root refers to its definition.  What is no object stays as it
    is. -/
def pointAtDefinition (body : String) : String :=
  match Json.ofText? body.toList with
  | some (.object members) =>
    (Json.object (Json.insert "$ref" (.string rootDefinition) members)).render
  | _ => body

/-- The response of a server to a request. -/
structure Response where
  status : Nat
  /-- The text of the body, unless it cannot be received. -/
  body : Option String
deriving DecidableEq, Repr, Inhabited

/-- Whether the status says that the request succeeded. -/
def Response.isSuccess (r : Response) : Bool := 200 ≤ r.status && r.status < 300

/-- The response to a request for a location, unless none comes. -/
abbrev Network : Type := String → Option Response

/-- The network without any server. -/
def Network.silent : Network := fun _ => none

/-- What schemas are fetched from. -/
structure SchemaFetcher where
  files : FileTree := {}
  network : Network := .silent
  /-- The locations whose schemas are pointed at their definition. -/
  pointed : List String := []
deriving Inhabited

namespace SchemaFetcher

/-- Takes over the bindings of some settings. -/
def configure (f : SchemaFetcher) (s : Settings) : SchemaFetcher :=
  { f with pointed := (s.bindings.filter SchemaBinding.amisStyle).map SchemaBinding.schema }

/-- The text that a server gives for a location. -/
def download (f : SchemaFetcher) (uri : String) : Except Error String :=
  match f.network uri with
  | none => .error (.schemaFetch uri)
  | some r =>
    if r.isSuccess then
      match r.body with
      | some text => .ok text
      | none => .error (.schemaFetch uri)
    else .error (.schemaStatus uri r.status)

/-- The text at a location. -/
def fetch (f : SchemaFetcher) (uri : String) : Except Error String :=
  match Uri.parse? uri with
  | none => .error (.unsupportedSchemaUri uri)
  | some u =>
    match String.ofList u.scheme with
    | "http" | "https" => f.download uri
    | "file" =>
      match u.fileBytes? with
      | none => .error (.unsupportedSchemaUri uri)
      | some bytes =>
        let path := String.ofList ((Percent.ofBytes? bytes).getD [])
        match f.files.read? path with
        | some text => .ok text
        | none => .error (.schemaRead path)
    | _ => .error (.unsupportedSchemaUri uri)

/-- The schema at a location, pointed at its definition if its binding asks for
    it. -/
def request (f : SchemaFetcher) (uri : String) : Except Error String :=
  (f.fetch uri).map fun body => if f.pointed.contains uri then pointAtDefinition body else body

end SchemaFetcher

end AnnotatedJson
