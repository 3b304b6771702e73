/-
  What can go wrong: loading schemas, reading settings, running commands.
-/
import AnnotatedJson.Text.Basic

namespace AnnotatedJson

/-- The cause of a failure. -/
inductive Error where
  /-- A schema could not be fetched over the network. -/
  | schemaFetch (uri : String)
  /-- A server answered a request for a schema with a failure status. -/
  | schemaStatus (uri : String) (status : Nat)
  /-- A schema file could not be read. -/
  | schemaRead (path : String)
  /-- The body of a schema is not JSON. -/
  | schemaParse (uri : String)
  /-- A schema location that cannot be loaded. -/
  | unsupportedSchemaUri (uri : String)
  /-- A command named a document that is not open. -/
  | documentNotFound (uri : String)
  /-- A command named a region that its document does not have. -/
  | regionNotFound (uri : String) (index : Nat)
  /-- A command was given arguments it cannot use. -/
  | invalidCommandArguments (command reason : String)
  /-- No mode runs the command. -/
  | unknownCommand (command : String)
  /-- A settings file could not be understood. -/
  | settings
deriving DecidableEq, Repr, Inhabited

namespace Error

/-- The name of a kind of failure. -/
def name : Error → String
  | schemaFetch _ => "SchemaFetch"
  | schemaStatus _ _ => "SchemaStatus"
  | schemaRead _ => "SchemaRead"
  | schemaParse _ => "SchemaParse"
  | unsupportedSchemaUri _ => "UnsupportedSchemaUri"
  | documentNotFound _ => "DocumentNotFound"
  | regionNotFound _ _ => "RegionNotFound"
  | invalidCommandArguments _ _ => "InvalidCommandArguments"
  | unknownCommand _ => "UnknownCommand"
  | settings => "Settings"

/-- The message of a failure.  Failures of reading and fetching say only what
    they concern. -/
def message : Error → String
  | schemaFetch uri => s!"failed to fetch schema '{uri}'"
  | schemaStatus uri status => s!"schema '{uri}' returned HTTP status {status}"
  | schemaRead path => s!"failed to read schema file '{path}'"
  | schemaParse uri => s!"schema '{uri}' is not valid JSON"
  | unsupportedSchemaUri uri => s!"unsupported schema location '{uri}'"
  | documentNotFound uri => s!"no open document for {uri}"
  | regionNotFound uri index => s!"document {uri} has no embedded region {index}"
  | invalidCommandArguments command reason =>
    s!"invalid arguments for command '{command}': {reason}"
  | unknownCommand command => s!"unknown command '{command}'"
  | settings => "failed to parse settings"

/-- Whether the message tells the whole cause. -/
def isExplained : Error → Bool
  | schemaFetch _ | schemaRead _ | schemaParse _ | settings => false
  | _ => true

end Error

end AnnotatedJson
