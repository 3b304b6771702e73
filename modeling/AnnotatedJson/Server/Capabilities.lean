/-
  What a server tells about itself when it is started.
-/
import AnnotatedJson.Mode.Registry

namespace AnnotatedJson

/-- The command that takes over the settings anew. -/
def reloadCommand : String := "amis.reloadConfiguration"

namespace Registry

/-- A value, if some mode answers a kind of request. -/
def offers (r : Registry) (c : Capability) (value : Json) : Option Json :=
  if r.supports c then some value else none

/-- What a server with these modes can do. -/
def capabilities (r : Registry) : Json :=
  let strings (texts : List String) : Json := .array (texts.map .string)
  .ofFields [
    ("textDocumentSync", some (.ofNat 1)),
    ("completionProvider", r.offers .completion (.object
      [("triggerCharacters", strings ["\"", ":"]),
        ("resolveProvider", .bool (r.supports .completionResolve))])),
    ("hoverProvider", r.offers .hover (.bool true)),
    ("signatureHelpProvider", r.offers .signatureHelp (.object
      [("triggerCharacters", strings ["("])])),
    ("documentHighlightProvider", r.offers .documentHighlight (.bool true)),
    ("documentSymbolProvider", r.offers .documentSymbols (.bool true)),
    ("documentLinkProvider", r.offers .documentLinks (.object [("resolveProvider", .bool false)])),
    ("definitionProvider", r.offers .definition (.bool true)),
    ("referencesProvider", r.offers .references (.bool true)),
    ("documentRangeFormattingProvider", r.offers .formatting (.bool true)),
    ("colorProvider", r.offers .documentColors (.bool true)),
    ("codeActionProvider", r.offers .codeActions (.bool true)),
    ("executeCommandProvider", some (.object
      [("commands", strings (r.commands ++ [reloadCommand]))]))]

/-- The answer to a request to start. -/
def introduction (r : Registry) : Json :=
  .object [("capabilities", r.capabilities),
    ("serverInfo", .object [("name", .string "amis-lsp"), ("version", .string "0.1.0")])]

end Registry

end AnnotatedJson
