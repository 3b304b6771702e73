/-
  Which mode answers where.

  * `Registry` binds language tags to modes; a mode may have several tags;
  * `Registry.modeAt?`, `Registry.modesInRange` and `Registry.modesInDocument` find
    the modes of a position, of a range and of a document.
-/
import AnnotatedJson.Mode.Basic

namespace AnnotatedJson

/-- Modes by language tag, in order of registration. -/
structure Registry where
  entries : List (String × Mode)

/-- A part of a range with the mode of its language. -/
structure ModePart where
  part : LanguagePart
  mode : Mode

namespace Registry

/-- Keeps the first of each mode. -/
def distinct (seen : List String) : List Mode → List Mode
  | [] => []
  | m :: rest =>
    if m.name ∈ seen then distinct seen rest else m :: distinct (m.name :: seen) rest

/-- The mode of a language. -/
def mode? (r : Registry) (language : String) : Option Mode :=
  (r.entries.find? fun e => e.1 = language).map Prod.snd

/-- All modes, each once. -/
def modes (r : Registry) : List Mode := distinct [] (r.entries.map Prod.snd)

/-- The mode that owns a position. -/
def modeAt? (r : Registry) (d : Document) (p : Position) : StateM Workspace (Option Mode) := do
  let regions ← Workspace.regionsOf d
  return r.mode? (regions.owner p).language

/-- The parts of a range that have a mode. -/
def modesInRange (r : Registry) (d : Document) (range : Range) :
    StateM Workspace (List ModePart) := do
  let regions ← Workspace.regionsOf d
  return (regions.overlapping range).filterMap fun part =>
    (r.mode? part.language).map fun mode => ⟨part, mode⟩

/-- The modes of the languages of a document, each once. -/
def modesInDocument (r : Registry) (d : Document) : StateM Workspace (List Mode) := do
  let regions ← Workspace.regionsOf d
  return distinct [] (regions.languages.filterMap r.mode?)

/-- Whether some mode answers a kind of request. -/
def supports (r : Registry) (c : Capability) : Bool := r.entries.any fun e => e.2.supports c

/-- The commands of all modes, each once. -/
def commands (r : Registry) : List String := (r.modes.flatMap Mode.commands).eraseDups

/-- The first mode that runs a command. -/
def commandMode? (r : Registry) (command : String) : Option Mode :=
  r.modes.find? fun m => m.commands.contains command

/-! ## Events -/

/-- Takes over settings: all regions are forgotten, and all modes are told. -/
def configure (r : Registry) (s : Settings) : StateM Workspace Unit := do
  modify fun w => { w with
    bindings := s.bindings
    regions := w.regions.configure s.cache.options }
  r.modes.forM fun m => m.configure s

/-- Forgets a document. -/
def forget (r : Registry) (uri : Uri) : StateM Workspace Unit := do
  modify fun w => { w with regions := w.regions.erase uri }
  r.modes.forM fun m => m.forget uri

/-- Ends the work of all modes. -/
def dispose (r : Registry) : StateM Workspace Unit := do
  modify fun w => { w with regions := w.regions.dispose }
  r.modes.forM Mode.dispose

end Registry

end AnnotatedJson
