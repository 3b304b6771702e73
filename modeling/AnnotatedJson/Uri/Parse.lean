/-
  Reading URIs into normal form.

  Schemes and special hosts are put into lower case, default ports and dot
  segments are removed, and characters are percent-encoded where they must be.
  Blanks and controls around the text and line breaks and tabs in it are ignored.

  * `Uri.parse` reads an absolute URI;
  * `Uri.withPath` replaces the path of one;
  * `Uri.filePath?` is the file that a URI without a host names.
-/
import AnnotatedJson.Uri.Basic

namespace AnnotatedJson.Uri

/-! ## Schemes -/

/-- How a scheme treats authorities and paths. -/
inductive SchemeKind where
  | file
  | special
  | plain
deriving DecidableEq, Repr, Inhabited

/-- The kind of a scheme. -/
def schemeKind (scheme : Text) : SchemeKind :=
  match String.ofList scheme with
  | "file" => .file
  | "http" | "https" | "ws" | "wss" | "ftp" => .special
  | _ => .plain

/-- Whether a kind of scheme takes backslashes for slashes. -/
def SchemeKind.isSpecial : SchemeKind → Bool
  | .plain => false
  | _ => true

/-- The port that a scheme uses if none is given. -/
def defaultPort? (scheme : Text) : Option Nat :=
  match String.ofList scheme with
  | "http" | "ws" => some 80
  | "https" | "wss" => some 443
  | "ftp" => some 21
  | _ => none

/-- The scheme of a text and what follows its colon. -/
def scheme? (cs : Text) : Option (Text × Text) :=
  let isPart (c : Char) : Bool := c.isAlphanum || c = '+' || c = '-' || c = '.'
  match cs with
  | c :: _ =>
    if c.isAlpha then
      match cs.dropWhile isPart with
      | ':' :: rest => some ((cs.takeWhile isPart).map Char.toLower, rest)
      | _ => none
    else none
  | [] => none

/-! ## Paths -/

/-- Whether a segment is a drive: a letter with a colon or a bar. -/
def isDrive : Text → Bool
  | [c, d] => c.isAlpha && (d = ':' || d = '|')
  | _ => false

/-- Whether a segment means the directory itself. -/
def isSingleDot (s : Text) : Bool :=
  ["." , "%2e"].contains (String.ofList (s.map Char.toLower))

/-- Whether a segment means the directory above. -/
def isDoubleDot (s : Text) : Bool :=
  ["..", "%2e.", ".%2e", "%2e%2e"].contains (String.ofList (s.map Char.toLower))

/-- Removes the last segment; the drive of a file stays.  Segments are held last
    first. -/
def shorten (kind : SchemeKind) (done : List Text) : List Text :=
  match done with
  | [[_, ':']] => if kind = .file then done else []
  | _ => done.tail

/-- Cuts a path at its slashes. -/
def cut (kind : SchemeKind) (seen : Text) : Text → List Text
  | [] => [seen.reverse]
  | c :: cs =>
    if c = '/' ∨ (c = '\\' ∧ kind.isSpecial) then seen.reverse :: cut kind [] cs
    else cut kind (c :: seen) cs

/-- Resolves dot segments.  The segments read so far are held last first. -/
def normalize (kind : SchemeKind) (done : List Text) : List Text → List Text
  | [] => done.reverse
  | s :: rest =>
    if isDoubleDot s then
      let done := shorten kind done
      normalize kind (if rest.isEmpty then [] :: done else done) rest
    else if isSingleDot s then
      normalize kind (if rest.isEmpty then [] :: done else done) rest
    else
      let s := match kind, done, isDrive s with
        | .file, [], true => [s.headD 'c', ':']
        | _, _, _ => s
      normalize kind (s :: done) rest

/-- The segments of a path given without its first slash. -/
def segments (kind : SchemeKind) (cs : Text) : List Text :=
  let raw := (cut kind [] cs).map (Percent.encode Percent.inPath)
  let raw := if kind = .file then
      let kept := raw.dropWhile List.isEmpty
      if kept.isEmpty then [[]] else kept
    else raw
  let names := normalize kind [] raw
  if kind = .file then
    let kept := names.dropWhile List.isEmpty
    if kept.isEmpty then [[]] else kept
  else names

/-- Passes over one slash. -/
def dropSlash (kind : SchemeKind) : Text → Text
  | '/' :: cs => cs
  | '\\' :: cs => if kind.isSpecial then cs else '\\' :: cs
  | cs => cs

/-- The path after an authority.  A special scheme always has one. -/
def pathAfterAuthority (kind : SchemeKind) (cs : Text) : UriPath :=
  if cs.isEmpty ∧ !kind.isSpecial then .segments []
  else .segments (segments kind (dropSlash kind cs))

/-! ## Authorities -/

/-- Whether a character ends an authority. -/
def endsAuthority (kind : SchemeKind) (c : Char) : Bool :=
  c = '/' || c = '?' || c = '#' || (c = '\\' && kind.isSpecial)

/-- The user information before the last at sign, and what follows it. -/
def splitUser (cs : Text) : Option (Text × Text) :=
  if cs.contains '@' then
    let host := (cs.reverse.takeWhile (· ≠ '@')).reverse
    some (cs.take (cs.length - host.length - 1), host)
  else none

/-- User name and password in normal form. -/
def userInfo (cs : Text) : Text :=
  let name := Percent.encode Percent.inUserInfo (cs.takeWhile (· ≠ ':'))
  match cs.dropWhile (· ≠ ':') with
  | ':' :: password =>
    if password.isEmpty then name
    else name ++ [':'] ++ Percent.encode Percent.inUserInfo password
  | _ => name

/-- The host text up to the colon of the port, and the rest.  Colons in brackets
    belong to the host. -/
def splitHost (inside : Bool) (seen : Text) : Text → Text × Option Text
  | [] => (seen.reverse, none)
  | c :: cs =>
    if c = ':' ∧ !inside then (seen.reverse, some cs)
    else splitHost (if c = '[' then true else if c = ']' then false else inside) (c :: seen) cs

/-- The port written after a host. -/
def port (scheme : Text) (cs : Text) : Except UriError (Option Nat) :=
  if !cs.all Text.isDigit then .error .port
  else if cs.isEmpty then .ok none
  else
    let n := Text.natOfDigits cs
    if 65535 < n then .error .port
    else .ok (if defaultPort? scheme = some n then none else some n)

/-- Reads an authority. -/
def readAuthority (scheme : Text) (kind : SchemeKind) (cs : Text) : Except UriError Authority := do
  let (info, rest, hasUser) := match splitUser cs with
    | some (user, rest) => (userInfo user, rest, true)
    | none => ([], cs, false)
  let (hostText, portText) := splitHost false [] rest
  let host ←
    if kind.isSpecial then
      if hostText.isEmpty then .error .emptyHost else Host.special hostText
    else Host.plain hostText
  if host.isEmpty ∧ (portText.isSome ∨ hasUser) then .error .emptyHost
  else
    let port ← match portText with
      | some cs => port scheme cs
      | none => .ok none
    .ok ⟨info, host, port⟩

/-! ## The parts of a URI -/

/-- A text up to a mark, and what follows the mark. -/
def cutAt (mark : Char) (cs : Text) : Text × Option Text :=
  match cs.dropWhile (· ≠ mark) with
  | _ :: rest => (cs.takeWhile (· ≠ mark), some rest)
  | [] => (cs, none)

/-- The authority and path of a file. -/
def fileParts (cs : Text) : Except UriError (Authority × UriPath) :=
  let slash (c : Char) : Bool := c = '/' || c = '\\'
  let path (cs : Text) : UriPath := .segments (segments .file (dropSlash .file cs))
  match cs with
  | a :: b :: rest =>
    if slash a ∧ slash b then
      let host := rest.takeWhile fun c => !slash c
      if host.isEmpty ∨ isDrive host then .ok ({}, path rest)
      else do
        let name ← Host.special host
        .ok ({ host := if name = "localhost".toList then [] else name },
          path (rest.dropWhile fun c => !slash c))
    else .ok ({}, path cs)
  | _ => .ok ({}, path cs)

/-- The authority and path after a scheme. -/
def hierarchy (scheme : Text) (cs : Text) : Except UriError (Option Authority × UriPath) :=
  let kind := schemeKind scheme
  let withAuthority (cs : Text) : Except UriError (Option Authority × UriPath) := do
    let a ← readAuthority scheme kind (cs.takeWhile fun c => !endsAuthority kind c)
    .ok (some a, pathAfterAuthority kind (cs.dropWhile fun c => !endsAuthority kind c))
  match kind with
  | .file => (fileParts cs).map fun (a, p) => (some a, p)
  | .special => withAuthority (cs.dropWhile fun c => c = '/' || c = '\\')
  | .plain =>
    match cs with
    | '/' :: '/' :: rest => withAuthority rest
    | '/' :: rest => .ok (none, .segments (segments kind rest))
    | _ => .ok (none, .opaqueText (Percent.encode Percent.isControl cs))

/-- The text without what is ignored. -/
def significant (cs : Text) : Text :=
  let isOuter (c : Char) : Bool := c.toNat ≤ 32
  let inner := ((cs.dropWhile isOuter).reverse.dropWhile isOuter).reverse
  inner.filter fun c => c ≠ '\t' ∧ c ≠ '\n' ∧ c ≠ '\r'

/-- Reads an absolute URI. -/
def parse (s : String) : Except UriError Uri :=
  match scheme? (significant s.toList) with
  | none => .error .relative
  | some (scheme, rest) => do
    let (rest, fragment) := cutAt '#' rest
    let (rest, query) := cutAt '?' rest
    let (authority, path) ← hierarchy scheme rest
    let inQuery := if (schemeKind scheme).isSpecial then Percent.inSpecialQuery else Percent.inQuery
    .ok { scheme := scheme, authority := authority, path := path
          query := query.map (Percent.encode inQuery)
          fragment := fragment.map (Percent.encode Percent.inFragment) }

/-- Reads a text that may be no URI. -/
def parse? (s : String) : Option Uri := (parse s).toOption

/-! ## Other paths, files -/

/-- Replaces the path of a URI. -/
def withPath (u : Uri) (cs : Text) : Uri :=
  let cs := cs.filter fun c => c ≠ '\t' ∧ c ≠ '\n' ∧ c ≠ '\r'
  match u.path with
  | .opaqueText _ =>
    let cs := match cs with
      | '/' :: rest => "%2F".toList ++ rest
      | cs => cs
    { u with path := .opaqueText (Percent.encode Percent.isControl cs) }
  | .segments _ => { u with path := pathAfterAuthority (schemeKind u.scheme) cs }

/-- The bytes of the path of the file that a URI without a host names; a drive
    ends in a slash. -/
def fileBytes? (u : Uri) : Option (List UInt8) :=
  match u.path with
  | .segments names =>
    if u.authority.all fun a => a.host.isEmpty || a.host == "localhost".toList then
      let path := names.flatMap fun name => 47 :: Percent.bytes name
      match path.reverse with
      | d :: c :: _ :: _ =>
        some (if (d = 58 ∨ d = 124) ∧ (Char.ofNat c.toNat).isAlpha then path ++ [47] else path)
      | _ => some path
    else none
  | .opaqueText _ => none

/-- The path of the file that a URI without a host names. -/
def filePath? (u : Uri) : Option Text := u.fileBytes?.bind Percent.ofBytes?

end AnnotatedJson.Uri
