/-
  Hosts of URIs.

  The host of a special scheme is a domain name in lower case, or an address;
  other schemes take nearly any text.

  * `UriError` is what can be wrong with a URI;
  * `Host.special` and `Host.plain` read the two kinds of host, as text.
-/
import AnnotatedJson.Uri.Percent

namespace AnnotatedJson

/-- What is wrong with a text that is no URI. -/
inductive UriError where
  | relative
  | emptyHost
  | domainName
  | domainCharacter
  | port
  | ipv4
  | ipv6
deriving DecidableEq, Repr, Inhabited

/-- The message of a fault. -/
def UriError.message : UriError → String
  | .relative => "relative URL without a base"
  | .emptyHost => "empty host"
  | .domainName => "invalid international domain name"
  | .domainCharacter => "invalid domain character"
  | .port => "invalid port number"
  | .ipv4 => "invalid IPv4 address"
  | .ipv6 => "invalid IPv6 address"

namespace Host

/-- Cuts a text at each occurrence of a character. -/
def splitAt (sep : Char) (seen : Text) : Text → List Text
  | [] => [seen.reverse]
  | c :: cs => if c = sep then seen.reverse :: splitAt sep [] cs else splitAt sep (c :: seen) cs

/-! ## Addresses of four numbers -/

/-- A number in octal, decimal or hexadecimal notation, told by how it starts. -/
def number? (cs : Text) : Option Nat :=
  let (base, ds) : Nat × Text := match cs with
    | '0' :: 'x' :: rest | '0' :: 'X' :: rest => (16, rest)
    | '0' :: d :: rest => (8, d :: rest)
    | rest => (10, rest)
  ds.foldl (fun n c => do
    let n ← n
    let d ← Text.hexValue? c
    if d < base then some (n * base + d) else none) (some 0)

/-- The parts of a domain name; an empty last part does not count. -/
def parts (cs : Text) : List Text :=
  let ps := splitAt '.' [] cs
  if 1 < ps.length ∧ ps.getLast? = some [] then ps.dropLast else ps

/-- Whether a domain name ends in a number, and so has to be an address. -/
def endsInNumber (cs : Text) : Bool :=
  match (parts cs).getLast? with
  | some last => (!last.isEmpty && last.all Text.isDigit) ||
      (match last with
        | '0' :: 'x' :: _ | '0' :: 'X' :: _ => (number? last).isSome
        | _ => false)
  | none => false

/-- The value of an address of at most four numbers; the last number fills the
    places that are left. -/
def ipv4? (cs : Text) : Option Nat := do
  let ps := parts cs
  if 4 < ps.length ∨ ps.any List.isEmpty then none
  else
    let ns ← ps.mapM number?
    let last ← ns.getLast?
    let front := ns.dropLast
    if front.all (· < 256) ∧ last < Nat.pow 256 (5 - ns.length) then
      let (sum, _) := front.foldl (fun (sum, place) n => (sum + n * Nat.pow 256 place, place - 1))
        (last, 3)
      some sum
    else none

/-- An address with dots. -/
def ipv4Text (n : Nat) : Text :=
  (toString (n / 0x1000000) ++ "." ++ toString (n / 0x10000 % 256) ++ "." ++
    toString (n / 256 % 256) ++ "." ++ toString (n % 256)).toList

/-! ## Addresses of eight numbers -/

/-- A number of one to four hexadecimal digits. -/
def piece? (cs : Text) : Option Nat :=
  if cs.isEmpty ∨ 4 < cs.length then none
  else cs.foldl (fun n c => do some ((← n) * 16 + (← Text.hexValue? c))) (some 0)

/-- A decimal number below 256 without leading zeros. -/
def octet? (cs : Text) : Option Nat :=
  if cs.isEmpty ∨ !cs.all Text.isDigit ∨ (1 < cs.length ∧ cs.head? = some '0') then none
  else
    let n := Text.natOfDigits cs
    if n < 256 then some n else none

/-- The pieces between colons; a last piece with dots counts as two. -/
def pieces? (cs : Text) : Option (List Nat) :=
  if cs.isEmpty then some []
  else
    let ps := splitAt ':' [] cs
    match ps.getLast? with
    | some last =>
      if last.contains '.' then do
        match (splitAt '.' [] last).mapM octet? with
        | some [a, b, c, d] =>
          some ((← ps.dropLast.mapM piece?) ++ [a * 256 + b, c * 256 + d])
        | _ => none
      else ps.mapM piece?
    | none => none

/-- The text before and after the first double colon. -/
def cutDouble (seen : Text) : Text → Option (Text × Text)
  | ':' :: ':' :: rest => some (seen.reverse, rest)
  | c :: cs => cutDouble (c :: seen) cs
  | [] => none

/-- The eight numbers of an address. -/
def ipv6? (cs : Text) : Option (List Nat) :=
  match cutDouble [] cs with
  | some (left, right) => do
    let ls ← pieces? left
    let rs ← pieces? right
    if ls.length + rs.length ≤ 7 then
      some (ls ++ List.replicate (8 - ls.length - rs.length) 0 ++ rs)
    else none
  | none =>
    match pieces? cs with
    | some ps => if ps.length = 8 then some ps else none
    | none => none

/-- The first longest run of zeros: where it starts and how long it is. -/
def longestZeros (ns : List Nat) : Nat × Nat :=
  (List.range ns.length).foldl (fun best i =>
    let run := ((ns.drop i).takeWhile (· = 0)).length
    if best.2 < run then (i, run) else best) (0, 0)

/-- The text of an address, its longest run of zeros left out. -/
def ipv6Text (ns : List Nat) : Text :=
  let hex (xs : List Nat) : Text :=
    (":".intercalate (xs.map fun n => String.ofList (Nat.toDigits 16 n))).toList
  let (start, run) := longestZeros ns
  if 1 < run then
    '[' :: hex (ns.take start) ++ [':', ':'] ++ hex (ns.drop (start + run)) ++ [']']
  else '[' :: hex ns ++ [']']

/-! ## Hosts -/

/-- An address in brackets, after the first one. -/
def bracketed (cs : Text) : Except UriError Text :=
  match cs.getLast?, ipv6? cs.dropLast with
  | some ']', some ns => .ok (ipv6Text ns)
  | _, _ => .error .ipv6

/-- Characters that no domain name holds. -/
def isForbidden (c : Char) : Bool :=
  c.toNat ≤ 32 || 126 < c.toNat ||
    ['"', '#', '%', '/', ':', '<', '>', '?', '@', '[', '\\', ']', '^', '`', '{', '|', '}'].contains c

/-- The host of a special scheme.  Names are of ASCII characters. -/
def special : Text → Except UriError Text
  | '[' :: cs => bracketed cs
  | cs =>
    match Percent.decode? cs with
    | none => .error .domainName
    | some name =>
      let name := name.map Char.toLower
      if name.any isForbidden then .error .domainName
      else if name.isEmpty then .error .emptyHost
      else if endsInNumber name then
        match ipv4? name with
        | some n => .ok (ipv4Text n)
        | none => .error .ipv4
      else .ok name

/-- The host of any other scheme. -/
def plain : Text → Except UriError Text
  | '[' :: cs => bracketed cs
  | cs =>
    if cs.any ['\x00', '\t', '\n', '\r', ' ', '#', '/', ':', '<', '>', '?', '@', '[', '\\', ']',
      '^', '|'].contains
    then .error .domainCharacter
    else .ok (Percent.encode Percent.isControl cs)

end Host

end AnnotatedJson
