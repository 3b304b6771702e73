/-
  The dialects of the host language.
-/
import AnnotatedJson.Document.Basic

namespace AnnotatedJson

/-- A dialect: with type assertions in angle brackets, or with elements. -/
inductive Dialect where
  | typeScript
  | tsx
deriving DecidableEq, Repr, Inhabited

namespace Dialect

/-- The name of a dialect. -/
def name : Dialect → String
  | typeScript => "TypeScript"
  | tsx => "Tsx"

/-- The dialect of a document: told by its language, or else by the extension of
    its file. -/
def ofDocument (uri : Uri) (language : String) : Dialect :=
  match language with
  | "typescriptreact" | "javascriptreact" => tsx
  | "typescript" | "javascript" => typeScript
  | _ =>
    let path := uri.path.text
    if ".tsx".toList.isSuffixOf path || ".jsx".toList.isSuffixOf path then tsx else typeScript

end Dialect

end AnnotatedJson
