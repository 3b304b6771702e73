/-
  Absolute URIs in normal form.

  * `Uri` has the parts of a URI, percent-encoded where they must be;
  * `Uri.text` puts them together, `Uri.path` is the text of the path.
-/
import AnnotatedJson.Uri.Host

namespace AnnotatedJson

/-- Who answers for a URI. -/
structure Authority where
  /-- User name and password, with their colon. -/
  userInfo : Text := []
  host : Text := []
  port : Option Nat := none
deriving DecidableEq, Repr, Inhabited

/-- The path of a URI. -/
inductive UriPath where
  /-- Segments that each follow a slash. -/
  | segments (names : List Text)
  /-- A text without structure. -/
  | opaqueText (value : Text)
deriving DecidableEq, Repr, Inhabited

/-- An absolute URI. -/
structure Uri where
  scheme : Text
  authority : Option Authority
  path : UriPath
  query : Option Text := none
  fragment : Option Text := none
deriving DecidableEq, Repr, Inhabited

namespace Authority

/-- The text of an authority. -/
def text (a : Authority) : Text :=
  (if a.userInfo.isEmpty then [] else a.userInfo ++ ['@']) ++ a.host ++
    match a.port with
    | some port => ':' :: (toString port).toList
    | none => []

end Authority

namespace UriPath

/-- The text of a path. -/
def text : UriPath → Text
  | segments names => names.flatMap ('/' :: ·)
  | opaqueText value => value

end UriPath

namespace Uri

/-- The text before the path. -/
def front (u : Uri) : Text :=
  u.scheme ++ [':'] ++
    match u.authority, u.path with
    | some a, _ => ['/', '/'] ++ a.text
    -- Without an authority, a path that starts with two slashes is kept apart.
    | none, .segments ([] :: _ :: _) => ['/', '.']
    | none, _ => []

/-- The text of a URI. -/
def text (u : Uri) : Text :=
  u.front ++ u.path.text ++ (u.query.map ('?' :: ·)).getD [] ++ (u.fragment.map ('#' :: ·)).getD []

/-- The text of a URI as a string. -/
def toString (u : Uri) : String := String.ofList u.text

instance : ToString Uri := ⟨toString⟩

end Uri

end AnnotatedJson
