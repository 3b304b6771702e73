/-
  Help on the signature of a call.
-/
import AnnotatedJson.Protocol.Basic

namespace AnnotatedJson

/-- The signatures a call may have. -/
structure SignatureHelp where
  labels : List String
  activeSignature : Option Nat := none
  activeParameter : Option Nat := none
deriving DecidableEq, Repr, Inhabited

/-- Help that knows of no signature. -/
def SignatureHelp.empty : SignatureHelp := ⟨[], some 0, some 0⟩

/-- The object form of help. -/
def SignatureHelp.toJson (h : SignatureHelp) : Json :=
  .ofFields [
    ("signatures", some (.array (h.labels.map fun l => .object [("label", .string l)]))),
    ("activeSignature", h.activeSignature.map .ofNat),
    ("activeParameter", h.activeParameter.map .ofNat)]

end AnnotatedJson
