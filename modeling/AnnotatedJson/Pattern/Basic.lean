/-
  Regular expressions over characters.

  * `CharSet` is a set of characters, `Pattern` a regular expression;
  * `Pattern.ends` lists the places where a match that begins at a place can end;
  * `Pattern.isMatch` tells whether some part of a text matches.

  A place in a text is the characters before it, nearest first, with those after
  it.
-/
import AnnotatedJson.Text.Blank
import AnnotatedJson.Text.WordClass

namespace AnnotatedJson

/-! ## Sets of characters -/

/-- A set of characters. -/
inductive CharSet where
  | run (first last : Nat)
  | decimal
  | blank
  | word
  | complement (s : CharSet)
  | union (s t : CharSet)
  | inter (s t : CharSet)
  /-- The set together with the other cases of its letters. -/
  | anyCase (s : CharSet)
deriving DecidableEq, Repr, Inhabited

namespace CharSet

/-- The empty set. -/
def empty : CharSet := run 1 0

/-- The set of one character. -/
def single (c : Char) : CharSet := run c.toNat c.toNat

/-- The characters of `s` that are not in `t`. -/
def diff (s t : CharSet) : CharSet := inter s (complement t)

/-- A character with its other cases.  Besides the letters of ASCII the long s
    and the Kelvin sign have cases there. -/
def cases (c : Char) : List Char :=
  let other := if c.isUpper then [c.toLower] else if c.isLower then [c.toUpper] else []
  let folded :=
    if c = 's' ∨ c = 'S' then ['ſ']
    else if c = 'k' ∨ c = 'K' then ['K']
    else if c = 'ſ' then ['s', 'S']
    else if c = 'K' then ['k', 'K']
    else []
  c :: (other ++ folded)

/-- Whether a character is in a set. -/
def mem (c : Char) : CharSet → Bool
  | run first last => first ≤ c.toNat && c.toNat ≤ last
  | decimal => Text.isDecimal c
  | blank => Text.isBlank c
  | word => Text.isWord c
  | complement s => !mem c s
  | union s t => mem c s || mem c t
  | inter s t => mem c s && mem c t
  | anyCase s => (cases c).any fun d => memCase d s
where
  /-- Membership of one case. -/
  memCase (c : Char) : CharSet → Bool
    | run first last => first ≤ c.toNat && c.toNat ≤ last
    | decimal => Text.isDecimal c
    | blank => Text.isBlank c
    | word => Text.isWord c
    | complement s => !memCase c s
    | union s t => memCase c s || memCase c t
    | inter s t => memCase c s && memCase c t
    | anyCase s => memCase c s

end CharSet

/-! ## Patterns -/

/-- A condition on a place. -/
inductive Assertion where
  | textStart
  | textEnd
  | lineStart
  | lineEnd
  | boundary
  | noBoundary
  | wordStart
  | wordEnd
  | wordStartHalf
  | wordEndHalf
deriving DecidableEq, Repr, Inhabited

/-- A regular expression. -/
inductive Pattern where
  | empty
  | one (s : CharSet)
  | look (a : Assertion)
  | seq (p q : Pattern)
  | alt (p q : Pattern)
  /-- At least `least` times, and at most `most` times if there is a bound. -/
  | times (p : Pattern) (least : Nat) (most : Option Nat)
deriving DecidableEq, Repr, Inhabited

/-- A place in a text: the characters before it, nearest first, and those after
    it. -/
structure Place where
  before : Text
  after : Text
deriving DecidableEq, Repr, Inhabited

namespace Place

/-- Whether the character before a place belongs to a word. -/
def wordBefore (x : Place) : Bool := x.before.head?.any Text.isWord

/-- Whether the character after a place belongs to a word. -/
def wordAfter (x : Place) : Bool := x.after.head?.any Text.isWord

/-- Whether a condition holds at a place. -/
def holds (x : Place) : Assertion → Bool
  | .textStart => x.before.isEmpty
  | .textEnd => x.after.isEmpty
  | .lineStart => x.before.isEmpty || x.before.head? = some '\n'
  | .lineEnd => x.after.isEmpty || x.after.head? = some '\n'
  | .boundary => x.wordBefore != x.wordAfter
  | .noBoundary => x.wordBefore == x.wordAfter
  | .wordStart => !x.wordBefore && x.wordAfter
  | .wordEnd => x.wordBefore && !x.wordAfter
  | .wordStartHalf => !x.wordBefore
  | .wordEndHalf => !x.wordAfter

end Place

namespace Pattern

/-- The places reached by one step from some places, without repetitions. -/
def stepAll (step : Place → List Place) (xs : List Place) : List Place :=
  (xs.flatMap step).eraseDups

/-- The places reached by exactly `n` steps. -/
def exactly (step : Place → List Place) : Nat → List Place → List Place
  | 0, xs => xs
  | n + 1, xs => exactly step n (stepAll step xs)

/-- The places reached by at most `n` steps. -/
def atMost (step : Place → List Place) : Nat → List Place → List Place
  | 0, xs => xs
  | n + 1, xs => atMost step n (xs ++ stepAll step xs).eraseDups

/-- The places where a match that begins at a place can end.  More repetitions
    than characters change nothing. -/
def ends : Pattern → Place → List Place
  | empty, x => [x]
  | one s, x =>
    match x.after with
    | c :: rest => if s.mem c then [⟨c :: x.before, rest⟩] else []
    | [] => []
  | look a, x => if x.holds a then [x] else []
  | seq p q, x => stepAll (ends q) (ends p x)
  | alt p q, x => (ends p x ++ ends q x).eraseDups
  | times p least most, x =>
    let bound := x.after.length + 1
    let extra := match most with
      | some m => min (m - least) bound
      | none => bound
    atMost (ends p) extra (exactly (ends p) (min least bound) [x])

/-- Whether a match begins at a place or after it. -/
def matchesFrom (p : Pattern) (before : Text) : Text → Bool
  | [] => !(ends p ⟨before, []⟩).isEmpty
  | c :: cs => !(ends p ⟨before, c :: cs⟩).isEmpty || matchesFrom p (c :: before) cs

/-- Whether some part of a text matches. -/
def isMatch (p : Pattern) (cs : Text) : Bool := matchesFrom p [] cs

end Pattern

end AnnotatedJson
