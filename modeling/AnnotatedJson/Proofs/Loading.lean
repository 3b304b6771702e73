/-
  Loads of schemas that overlap.

  A get looks at the inline schemas, takes the cell of its location, and then either reads the
  cell or loads the schema into it; one load of a cell is under way at a time.  A reset replaces
  the inline schemas and then forgets the cells, one part of the table after another.  In between,
  any other steps may run, and a get may be dropped.

  * `LoadScene` is a memo with what is in flight and what happened; `LoadScene.Allows` says which
    events can happen next, and `LoadScene.after` what they change;
  * `LoadScene.Sound` is what holds in every reachable scene;
  * `LoadScene.Reachable.justified`: every event happened in a scene that allowed it;
  * `requested_law`, `answered_law`, `reused_law`, `joined_agree` and `joined_newer` say what the
    events of a history tell about each other.
-/
import Mathlib
import AnnotatedJson.Schema.Memo
import AnnotatedJson.Proofs.History

namespace AnnotatedJson

/-! ## Scenes -/

/-- The parts of the table of cells, which are forgotten one after another. -/
structure TableParts where
  count : Nat
  part : String → Fin count

/-- What is in flight. -/
inductive LoadTask where
  /-- A get that found no inline schema. -/
  | seeking (uri : String)
  /-- A get that has its cell. -/
  | waiting (uri : String) (cell : Nat)
  /-- A get whose request is under way. -/
  | loading (uri : String) (cell : Nat)
  /-- A reset that forgets this part of the table next. -/
  | resetting (part : Nat)

/-- Whether a task is a get. -/
def LoadTask.IsGet : LoadTask → Prop
  | .resetting _ => False
  | _ => True

/-- What happened in a step.  A get or a reset is named by the place of its first event. -/
inductive LoadEvent where
  /-- A get found an inline schema and ended with it. -/
  | inlined (uri : String) (schema : Json)
  /-- A get began and found no inline schema. -/
  | began (uri : String)
  /-- A get took the cell of its location. -/
  | joined (get : Nat) (uri : String) (cell : Nat)
  /-- A get issued a request. -/
  | requested (get : Nat) (uri : String) (cell : Nat)
  /-- The request of a get was answered, and the get ended with what the body says. -/
  | answered (get : Nat) (uri : String) (cell : Nat) (body : Except Error String)
  /-- A get ended with what was in its cell. -/
  | reused (get : Nat) (uri : String) (cell : Nat) (schema : Json)
  /-- A get was given up. -/
  | dropped (get : Nat)
  /-- A reset replaced the inline schemas. -/
  | resetBegan (inline : List (String × Json))
  /-- A reset forgot a part of the table. -/
  | forgot (reset : Nat) (part : Nat)
  /-- A reset forgot the last part of the table, and ended. -/
  | resetEnded (reset : Nat)

/-- A memo with what is in flight and what happened so far. -/
structure LoadScene where
  memo : SchemaMemo
  tasks : Nat → Option LoadTask
  history : List LoadEvent

namespace LoadScene

open SchemaMemo (parseBody)

/-- The scene before anything happened. -/
def start : LoadScene := ⟨{}, fun _ => none, []⟩

/-- Whether an event can happen next.  A request is issued only for an empty cell that nobody
    loads. -/
def Allows (parts : TableParts) (w : LoadScene) : LoadEvent → Prop
  | .inlined uri schema => w.memo.inlineAt? uri = some schema
  | .began uri => w.memo.inlineAt? uri = none
  | .joined i uri cell => w.tasks i = some (.seeking uri) ∧ (w.memo.cellFor uri).1 = cell
  | .requested i uri cell => w.tasks i = some (.waiting uri cell) ∧ w.memo.content? cell = none ∧
    ∀ j uri', w.tasks j ≠ some (.loading uri' cell)
  | .answered i uri cell _ => w.tasks i = some (.loading uri cell)
  | .reused i uri cell schema => w.tasks i = some (.waiting uri cell) ∧
    w.memo.content? cell = some schema
  | .dropped i => ∃ t, w.tasks i = some t ∧ t.IsGet
  | .resetBegan _ => True
  | .forgot i part => w.tasks i = some (.resetting part) ∧ part + 1 < parts.count
  | .resetEnded i => ∃ part, w.tasks i = some (.resetting part) ∧ part + 1 = parts.count

/-- What an event changes in the memo. -/
def memoAfter (parts : TableParts) (memo : SchemaMemo) : LoadEvent → SchemaMemo
  | .joined _ uri _ => (memo.cellFor uri).2
  | .answered _ uri cell body => memo.settle cell (parseBody uri body)
  | .resetBegan inline => memo.setInline inline
  | .forgot _ part => memo.forget fun uri => parts.part uri = part
  | .resetEnded _ => memo.forget fun uri => (parts.part uri : Nat) + 1 = parts.count
  | _ => memo

/-- What an event at a place changes in flight. -/
def tasksAfter (tasks : Nat → Option LoadTask) (place : Nat) : LoadEvent → Nat → Option LoadTask
  | .inlined _ _ => tasks
  | .began uri => Function.update tasks place (some (.seeking uri))
  | .joined i uri cell => Function.update tasks i (some (.waiting uri cell))
  | .requested i uri cell => Function.update tasks i (some (.loading uri cell))
  | .answered i _ _ _ | .reused i _ _ _ | .dropped i | .resetEnded i => Function.update tasks i none
  | .resetBegan _ => Function.update tasks place (some (.resetting 0))
  | .forgot i part => Function.update tasks i (some (.resetting (part + 1)))

/-- The scene after an event. -/
def after (parts : TableParts) (w : LoadScene) (x : LoadEvent) : LoadScene :=
  ⟨memoAfter parts w.memo x, tasksAfter w.tasks w.history.length x, w.history ++ [x]⟩

/-- The scenes that some interleaving of gets and resets leads to. -/
inductive Reachable (parts : TableParts) : LoadScene → Prop where
  | start : Reachable parts start
  | step {w : LoadScene} {x : LoadEvent} : Reachable parts w → w.Allows parts x →
    Reachable parts (w.after parts x)

/-! ## What holds in a scene -/

/-- The inline schemas that a history leaves behind. -/
def inForce (h : List LoadEvent) : List (String × Json) :=
  h.foldl (fun inline x => match x with
    | .resetBegan inline' => inline'
    | _ => inline) []

/-- A cell was first taken after a place. -/
def NewerThan (h : List LoadEvent) (cell place : Nat) : Prop :=
  ∀ a i uri, h[a]? = some (.joined i uri cell) → place < a

/-- An event of a reset that forgets cells. -/
def ForgetsAt (h : List LoadEvent) (f b : Nat) : Prop :=
  (∃ part, h[f]? = some (.forgot b part)) ∨ h[f]? = some (.resetEnded b)

/-- A load that succeeded filled a cell. -/
def FillsAt (h : List LoadEvent) (a cell : Nat) (schema : Json) : Prop :=
  ∃ i uri body, h[a]? = some (.answered i uri cell body) ∧ parseBody uri body = .ok schema

/-- What the history tells about a task.  The cells of the parts that a reset went through are
    newer than the reset. -/
def TaskSound (parts : TableParts) (w : LoadScene) (i : Nat) : LoadTask → Prop
  | .seeking uri => w.history[i]? = some (.began uri)
  | .waiting uri cell => ∃ a : Nat, w.history[a]? = some (.joined i uri cell)
  | .loading uri cell => (∃ a : Nat, w.history[a]? = some (.joined i uri cell)) ∧
    (∃ m : Nat, w.history[m]? = some (.requested i uri cell)) ∧ w.memo.content? cell = none
  | .resetting part => (∃ inline, w.history[i]? = some (.resetBegan inline)) ∧ part < parts.count ∧
    (∀ e : Nat, w.history[e]? ≠ some (.resetEnded i)) ∧
    ∀ uri cell, (uri, cell) ∈ w.memo.cells → parts.part uri < part → NewerThan w.history cell i

/-- What the history tells about a cell of the table. -/
structure CellSound (w : LoadScene) (uri : String) (cell : Nat) : Prop where
  lt_next : cell < w.memo.next
  only : ∀ uri', (uri', cell) ∈ w.memo.cells → uri' = uri
  joined : ∀ (a i : Nat) (uri' : String), w.history[a]? = some (.joined i uri' cell) → uri' = uri
  newer : ∀ e b : Nat, w.history[e]? = some (.resetEnded b) → NewerThan w.history cell b

/-- What holds in every reachable scene. -/
structure Sound (parts : TableParts) (w : LoadScene) : Prop where
  inline : w.memo.inline = inForce w.history
  tasks : ∀ i t, w.tasks i = some t → w.TaskSound parts i t
  alone : ∀ i j uri uri' cell, w.tasks i = some (.loading uri cell) →
    w.tasks j = some (.loading uri' cell) → i = j
  cells : ∀ uri cell, (uri, cell) ∈ w.memo.cells → w.CellSound uri cell
  kept : ∀ (a i : Nat) (uri : String) (cell : Nat), w.history[a]? = some (.joined i uri cell) →
    w.memo.cells.lookup uri = some cell ∨ ∃ f b, a < f ∧ ForgetsAt w.history f b
  joined : ∀ (a i : Nat) (uri : String) (cell : Nat), w.history[a]? = some (.joined i uri cell) →
    cell < w.memo.next ∧ i < a ∧ w.history[i]? = some (.began uri)
  filled : ∀ cell schema, w.memo.content? cell = some schema → ∃ a, FillsAt w.history a cell schema
  fills : ∀ a cell schema, FillsAt w.history a cell schema → w.memo.content? cell = some schema
  ended : ∀ e b : Nat, w.history[e]? = some (.resetEnded b) → b < e

/-! ## What an event can do -/

section
variable {parts : TableParts} {w : LoadScene} {x : LoadEvent} {i : Nat} {t : LoadTask}
  {uri : String} {cell : Nat}

/-- A location has a cell, or gets the next one. -/
theorem cellFor_cases (memo : SchemaMemo) (uri : String) :
    (∃ cell, memo.cells.lookup uri = some cell ∧ memo.cellFor uri = (cell, memo)) ∨
    memo.cells.lookup uri = none ∧ memo.cellFor uri =
      (memo.next, { memo with cells := (uri, memo.next) :: memo.cells, next :=
        memo.next + 1 }) := by
  unfold SchemaMemo.cellFor
  cases hl : memo.cells.lookup uri with
  | none => exact .inr ⟨rfl, rfl⟩
  | some cell => exact .inl ⟨cell, rfl, rfl⟩

theorem mem_of_lookup {cells : List (String × Nat)} (hl : cells.lookup uri = some cell) :
    (uri, cell) ∈ cells := by
  obtain ⟨before, rest, rfl, -⟩ := List.lookup_eq_some_iff.1 hl
  simp

/-- After an event, a task was there before; or the event began it or moved it on. -/
theorem task_after (ht : (w.after parts x).tasks i = some t) :
    w.tasks i = some t ∨
    (∃ uri, x = .began uri ∧ i = w.history.length ∧ t = .seeking uri) ∨
    (∃ uri cell, x = .joined i uri cell ∧ t = .waiting uri cell) ∨
    (∃ uri cell, x = .requested i uri cell ∧ t = .loading uri cell) ∨
    (∃ inline, x = .resetBegan inline ∧ i = w.history.length ∧ t = .resetting 0) ∨
    ∃ part, x = .forgot i part ∧ t = .resetting (part + 1) := by
  have assigned : ∀ {j : Nat} {u : Option LoadTask}, Function.update w.tasks j u i = some t →
      (i = j ∧ u = some t) ∨ w.tasks i = some t := fun {j u} hu => by
    by_cases hij : i = j
    · subst hij
      exact .inl ⟨rfl, by simpa using hu⟩
    · exact .inr (by simpa [hij] using hu)
  cases x with
  | inlined uri schema => exact .inl ht
  | began uri =>
    rcases assigned ht with ⟨hi, hu⟩ | ht
    · exact .inr (.inl ⟨uri, rfl, hi, (Option.some.inj hu).symm⟩)
    · exact .inl ht
  | joined j uri cell =>
    rcases assigned ht with ⟨rfl, hu⟩ | ht
    · exact .inr (.inr (.inl ⟨uri, cell, rfl, (Option.some.inj hu).symm⟩))
    · exact .inl ht
  | requested j uri cell =>
    rcases assigned ht with ⟨rfl, hu⟩ | ht
    · exact .inr (.inr (.inr (.inl ⟨uri, cell, rfl, (Option.some.inj hu).symm⟩)))
    · exact .inl ht
  | resetBegan inline =>
    rcases assigned ht with ⟨hi, hu⟩ | ht
    · exact .inr (.inr (.inr (.inr (.inl ⟨inline, rfl, hi, (Option.some.inj hu).symm⟩))))
    · exact .inl ht
  | forgot j part =>
    rcases assigned ht with ⟨rfl, hu⟩ | ht
    · exact .inr (.inr (.inr (.inr (.inr ⟨part, rfl, (Option.some.inj hu).symm⟩))))
    · exact .inl ht
  | answered | reused | dropped | resetEnded =>
    rcases assigned ht with ⟨-, hu⟩ | ht
    · cases hu
    · exact .inl ht

/-- After an event, a cell of the table was there before, and not in a part that the event
    forgets; or it is the next cell and the event took it. -/
theorem cell_after (hmem : (uri, cell) ∈ (w.after parts x).memo.cells) :
    ((uri, cell) ∈ w.memo.cells ∧ (∀ b part, x = .forgot b part → (parts.part uri : Nat) ≠ part) ∧
      ∀ b, x = .resetEnded b → (parts.part uri : Nat) + 1 ≠ parts.count) ∨
    cell = w.memo.next ∧ w.memo.cells.lookup uri = none ∧ ∃ i cell', x = .joined i uri cell' := by
  cases x with
  | joined i uri' cell' =>
    rcases cellFor_cases w.memo uri' with ⟨c, -, hc⟩ | ⟨hnone, hc⟩
    · refine .inl ⟨?_, by simp, by simp⟩
      simpa [after, memoAfter, hc] using hmem
    · simp only [after, memoAfter, hc, List.mem_cons, Prod.mk.injEq] at hmem
      rcases hmem with ⟨rfl, rfl⟩ | hmem
      · exact .inr ⟨rfl, hnone, i, cell', rfl⟩
      · exact .inl ⟨hmem, by simp, by simp⟩
  | answered i uri' cell' body =>
    refine .inl ⟨?_, by simp, by simp⟩
    simp only [after, memoAfter, SchemaMemo.settle] at hmem
    split at hmem <;> exact hmem
  | forgot b part =>
    simp only [after, memoAfter, SchemaMemo.forget, List.mem_filter, Bool.not_eq_true',
      decide_eq_false_iff_not] at hmem
    exact .inl ⟨hmem.1, by rintro b' part' ⟨⟩; exact hmem.2, by simp⟩
  | resetEnded b =>
    simp only [after, memoAfter, SchemaMemo.forget, List.mem_filter, Bool.not_eq_true',
      decide_eq_false_iff_not] at hmem
    exact .inl ⟨hmem.1, by simp, by rintro b' ⟨⟩; exact hmem.2⟩
  | inlined | began | requested | reused | dropped | resetBegan =>
    exact .inl ⟨hmem, by simp, by simp⟩

theorem next_after (parts : TableParts) (w : LoadScene) (x : LoadEvent) :
    w.memo.next ≤ (w.after parts x).memo.next := by
  cases x with
  | joined i uri cell =>
    rcases cellFor_cases w.memo uri with ⟨c, -, hc⟩ | ⟨-, hc⟩ <;> simp [after, memoAfter, hc]
  | answered i uri cell body =>
    simp only [after, memoAfter, SchemaMemo.settle]
    split <;> exact le_rfl
  | inlined | began | requested | reused | dropped | resetBegan | forgot | resetEnded =>
    exact le_rfl

/-- Only an answer changes what is in a cell. -/
theorem content_after (parts : TableParts) (w : LoadScene) (x : LoadEvent) (cell : Nat) :
    (w.after parts x).memo.content? cell = w.memo.content? cell ∨
    ∃ i uri body schema, x = .answered i uri cell body ∧ parseBody uri body = .ok schema ∧
      (w.after parts x).memo.content? cell = some schema := by
  cases x with
  | joined i uri cell' =>
    rcases cellFor_cases w.memo uri with ⟨c, -, hc⟩ | ⟨-, hc⟩ <;>
      exact .inl (by simp [after, memoAfter, hc, SchemaMemo.content?])
  | answered i uri cell' body =>
    cases hbody : parseBody uri body with
    | error e => exact .inl (by simp [after, memoAfter, SchemaMemo.settle, hbody])
    | ok schema =>
      by_cases hcell : cell = cell'
      · subst hcell
        exact .inr ⟨i, uri, body, schema, rfl, hbody,
          by simp [after, memoAfter, SchemaMemo.settle, hbody, SchemaMemo.content?]⟩
      · refine .inl ?_
        have hne : (cell == cell') = false := by simpa using hcell
        simp [after, memoAfter, SchemaMemo.settle, hbody, SchemaMemo.content?, List.lookup_cons, hne]
  | inlined | began | requested | reused | dropped | resetBegan | forgot | resetEnded =>
    exact .inl rfl

/-- The cell that a get takes is in the table then. -/
theorem lookup_after_joined (hx : w.Allows parts (.joined i uri cell)) :
    (w.after parts (.joined i uri cell)).memo.cells.lookup uri = some cell := by
  obtain ⟨-, hcell⟩ := hx
  rcases cellFor_cases w.memo uri with ⟨c, hl, hc⟩ | ⟨-, hc⟩ <;> rw [hc] at hcell <;> subst hcell
  · simpa [after, memoAfter, hc] using hl
  · simp [after, memoAfter, hc]

end

/-! ## Reachable scenes -/

section
variable {parts : TableParts} {w : LoadScene} {x : LoadEvent} {h : List LoadEvent} {i : Nat}
  {t : LoadTask} {uri : String} {cell : Nat}

theorem NewerThan.grow {b : Nat} (hn : NewerThan h cell b) (hb : b < h.length) :
    NewerThan (h ++ [x]) cell b := by
  intro a i uri ha
  rcases event_concat.1 ha with ha | ⟨rfl, -⟩
  · exact hn a i uri ha
  · exact hb

theorem FillsAt.grow {a : Nat} {schema : Json} (hf : FillsAt h a cell schema) :
    FillsAt (h ++ [x]) a cell schema := by
  obtain ⟨i, uri, body, ha, hbody⟩ := hf
  exact ⟨i, uri, body, event_concat.2 (.inl ha), hbody⟩

theorem ForgetsAt.grow {f b : Nat} (hf : ForgetsAt h f b) : ForgetsAt (h ++ [x]) f b :=
  hf.imp (fun ⟨part, hp⟩ => ⟨part, event_concat.2 (.inl hp)⟩) fun he => event_concat.2 (.inl he)

/-- The cell that a get takes is one of the table, or the next one. -/
theorem cell_of_joined (hx : w.Allows parts (.joined i uri cell)) :
    (uri, cell) ∈ w.memo.cells ∨ cell = w.memo.next ∧ w.memo.cells.lookup uri = none ∧
      (w.after parts (.joined i uri cell)).memo.next = w.memo.next + 1 := by
  obtain ⟨-, hcell⟩ := hx
  rcases cellFor_cases w.memo uri with ⟨c, hl, hc⟩ | ⟨hl, hc⟩ <;> rw [hc] at hcell <;> subst hcell
  · exact .inl (mem_of_lookup hl)
  · exact .inr ⟨rfl, hl, by simp [after, memoAfter, hc]⟩

theorem inline_after (hw : w.memo.inline = inForce w.history) :
    (w.after parts x).memo.inline = inForce (w.after parts x).history := by
  simp only [after, inForce, List.foldl_append, List.foldl_cons, List.foldl_nil] at hw ⊢
  cases x with
  | joined i uri cell =>
    rcases cellFor_cases w.memo uri with ⟨c, -, hc⟩ | ⟨-, hc⟩ <;> simpa [memoAfter, hc] using hw
  | answered i uri cell body =>
    simp only [memoAfter, SchemaMemo.settle]
    split <;> exact hw
  | resetBegan inline => rfl
  | inlined | began | requested | reused | dropped | forgot | resetEnded => exact hw

/-- A task that an event leaves alone stays sound. -/
theorem Sound.task_grow (hw : w.Sound parts) (hx : w.Allows parts x) (ht : w.tasks i = some t)
    (hi : (w.after parts x).tasks i = some t) : (w.after parts x).TaskSound parts i t := by
  have hold := hw.tasks i t ht
  have stays : ∀ {k : Nat} {y : LoadEvent}, w.history[k]? = some y →
      (w.after parts x).history[k]? = some y :=
    fun hy => event_concat.2 (.inl hy)
  cases t with
  | seeking uri => exact stays hold
  | waiting uri cell => exact hold.imp fun a ha => stays ha
  | loading uri cell =>
    obtain ⟨⟨a, ha⟩, ⟨m, hm⟩, hempty⟩ := hold
    refine ⟨⟨a, stays ha⟩, ⟨m, stays hm⟩, ?_⟩
    rcases content_after parts w x cell with hsame | ⟨j, uri', body, schema, rfl, -, -⟩
    · rw [hsame, hempty]
    · -- Nobody else loads this cell, so that the answer was for this task, which it ended.
      cases hw.alone i j uri uri' cell ht hx
      simp [after, tasksAfter] at hi
  | resetting part =>
    obtain ⟨⟨inline, hb⟩, hpart, hrunning, hnewer⟩ := hold
    refine ⟨⟨inline, stays hb⟩, hpart, fun e he => ?_, fun uri cell hmem hlt => ?_⟩
    · rcases event_concat.1 he with he | ⟨-, rfl⟩
      · exact hrunning e he
      · simp [after, tasksAfter] at hi
    · rcases cell_after hmem with ⟨hmem, -, -⟩ | ⟨rfl, -, j, cell', rfl⟩
      · exact (hnewer uri cell hmem hlt).grow (event_lt hb)
      · intro a j' uri' ha
        rcases event_concat.1 ha with ha | ⟨rfl, -⟩
        · exact absurd (hw.joined a j' uri' _ ha).1 (lt_irrefl _)
        · exact event_lt hb

theorem Sound.tasks_after (hw : w.Sound parts) (hx : w.Allows parts x)
    (hi : (w.after parts x).tasks i = some t) :
    (w.after parts x).TaskSound parts i t := by
  have now : (w.after parts x).history[w.history.length]? = some x :=
    event_concat.2 (.inr ⟨rfl, rfl⟩)
  have stays : ∀ {k : Nat} {y : LoadEvent}, w.history[k]? = some y →
      (w.after parts x).history[k]? = some y :=
    fun hy => event_concat.2 (.inl hy)
  rcases task_after hi with ht | ⟨uri, rfl, rfl, rfl⟩ | ⟨uri, cell, rfl, rfl⟩ | ⟨uri, cell, rfl, rfl⟩ |
    ⟨inline, rfl, rfl, rfl⟩ | ⟨part, rfl, rfl⟩
  · exact hw.task_grow hx ht hi
  · exact now
  · exact ⟨w.history.length, now⟩
  · obtain ⟨ht, hempty, -⟩ := hx
    obtain ⟨a, ha⟩ := hw.tasks i _ ht
    exact ⟨⟨a, stays ha⟩, ⟨w.history.length, now⟩, hempty⟩
  · refine ⟨⟨inline, now⟩, (parts.part "").pos, fun e he => ?_, fun uri cell _ hlt =>
      absurd hlt (Nat.not_lt_zero _)⟩
    rcases event_concat.1 he with he | ⟨-, he⟩
    · exact absurd ((hw.ended e _ he).trans (event_lt he)) (lt_irrefl _)
    · cases he
  · obtain ⟨ht, hpart⟩ := hx
    obtain ⟨⟨inline, hb⟩, -, hrunning, hnewer⟩ := hw.tasks i _ ht
    refine ⟨⟨inline, stays hb⟩, hpart, fun e he => ?_, fun uri cell hmem hlt => ?_⟩
    · rcases event_concat.1 he with he | ⟨-, he⟩
      · exact hrunning e he
      · cases he
    · rcases cell_after hmem with ⟨hmem, hother, -⟩ | ⟨-, -, j, cell', heq⟩
      · have hne := hother i part rfl
        exact (hnewer uri cell hmem (by omega)).grow (event_lt hb)
      · cases heq

theorem Sound.cells_after (hw : w.Sound parts) (hx : w.Allows parts x)
    (hmem : (uri, cell) ∈ (w.after parts x).memo.cells) : (w.after parts x).CellSound uri cell := by
  rcases cell_after hmem with ⟨hold, -, hlast⟩ | ⟨rfl, hnone, j, cell', rfl⟩
  · obtain ⟨hlt, honly, hjoined, hnewer⟩ := hw.cells uri cell hold
    refine ⟨hlt.trans_le (next_after parts w x), fun uri' hmem' => ?_, fun a i uri' ha => ?_,
      fun e b he => ?_⟩
    · rcases cell_after hmem' with ⟨hmem', -, -⟩ | ⟨rfl, -, -⟩
      · exact honly uri' hmem'
      · exact absurd hlt (lt_irrefl _)
    · rcases event_concat.1 ha with ha | ⟨-, rfl⟩
      · exact hjoined a i uri' ha
      · rcases cell_of_joined hx with hmem' | ⟨rfl, -, -⟩
        · exact honly uri' hmem'
        · exact absurd hlt (lt_irrefl _)
    · rcases event_concat.1 he with he | ⟨-, rfl⟩
      · exact (hnewer e b he).grow ((hw.ended e b he).trans (event_lt he))
      · -- The reset went through the part of this cell, and only newer cells are left there.
        obtain ⟨part, ht, hpart⟩ := hx
        obtain ⟨⟨inline, hb⟩, -, -, hnew⟩ := hw.tasks b _ ht
        have hne := hlast b rfl
        have hle := (parts.part uri).isLt
        exact (hnew uri cell hold (by omega)).grow (event_lt hb)
  · -- Nobody had the next cell before.
    have hfresh : ∀ (a i : Nat) (uri' : String), w.history[a]? ≠ some
        (.joined i uri' w.memo.next) :=
      fun a i uri' ha => lt_irrefl _ (hw.joined a i uri' _ ha).1
    have hnext : (w.after parts (.joined j uri cell')).memo.next = w.memo.next + 1 := by
      rcases cell_of_joined hx with hmem' | ⟨-, -, hnext⟩
      · exact absurd (List.lookup_eq_none_iff.1 hnone _ hmem') (by simp)
      · exact hnext
    refine ⟨by omega, fun uri' hmem' => ?_, fun a i uri' ha => ?_, fun e b he a i uri' ha => ?_⟩
    · rcases cell_after hmem' with ⟨hmem', -, -⟩ | ⟨-, -, i, cell'', heq⟩
      · exact absurd (hw.cells uri' _ hmem').lt_next (lt_irrefl _)
      · cases heq
        rfl
    · rcases event_concat.1 ha with ha | ⟨-, heq⟩
      · exact absurd ha (hfresh a i uri')
      · cases heq
        rfl
    · rcases event_concat.1 ha with ha | ⟨rfl, -⟩
      · exact absurd ha (hfresh a i uri')
      · rcases event_concat.1 he with he | ⟨-, he⟩
        · exact (hw.ended e b he).trans (event_lt he)
        · cases he

theorem Sound.kept_after (hw : w.Sound parts) (hx : w.Allows parts x) {a : Nat}
    (ha : (w.after parts x).history[a]? = some (.joined i uri cell)) :
    (w.after parts x).memo.cells.lookup uri = some cell ∨ ∃ f b, a < f ∧
      ForgetsAt (w.after parts x).history f b := by
  rcases event_concat.1 ha with ha | ⟨-, rfl⟩
  · have hlt := event_lt ha
    rcases hw.kept a i uri cell ha with hl | ⟨f, b, hf, hforgets⟩
    · cases x with
      | joined j uri' cell' =>
        refine .inl ?_
        rcases cellFor_cases w.memo uri' with ⟨c, -, hc⟩ | ⟨hnone, hc⟩
        · simpa [after, memoAfter, hc] using hl
        · have hne : (uri == uri') = false := by
            refine beq_eq_false_iff_ne.2 ?_
            rintro rfl
            rw [hl] at hnone
            cases hnone
          simpa [after, memoAfter, hc, List.lookup_cons, hne] using hl
      | answered j uri' cell' body =>
        refine .inl ?_
        simp only [after, memoAfter, SchemaMemo.settle]
        split <;> exact hl
      | forgot b part =>
        exact .inr ⟨w.history.length, b, hlt, .inl ⟨part, event_concat.2 (.inr ⟨rfl, rfl⟩)⟩⟩
      | resetEnded b =>
        exact .inr ⟨w.history.length, b, hlt, .inr (event_concat.2 (.inr ⟨rfl, rfl⟩))⟩
      | inlined | began | requested | reused | dropped | resetBegan => exact .inl hl
    · exact .inr ⟨f, b, hf, hforgets.grow⟩
  · exact .inl (lookup_after_joined hx)

theorem loading_after (hi : (w.after parts x).tasks i = some (.loading uri cell)) :
    w.tasks i = some (.loading uri cell) ∨ x = .requested i uri cell := by
  rcases task_after hi with hi | ⟨_, -, -, ht⟩ | ⟨_, _, -, ht⟩ | ⟨_, _, hx, ht⟩ | ⟨_, -, -,
    ht⟩ | ⟨_, -, ht⟩
  · exact .inl hi
  · cases ht
  · cases ht
  · cases ht
    exact .inr hx
  · cases ht
  · cases ht

/-- **One event keeps a scene sound.** -/
theorem Sound.after (hw : w.Sound parts) (hx : w.Allows parts x) :
    (w.after parts x).Sound parts where
  inline := inline_after hw.inline
  tasks i t ht := hw.tasks_after hx ht
  alone i j uri uri' cell hi hj := by
    rcases loading_after hi with hi' | rfl
    · rcases loading_after hj with hj' | rfl
      · exact hw.alone i j uri uri' cell hi' hj'
      · exact absurd hi' (hx.2.2 i uri)
    · rcases loading_after hj with hj' | heq
      · exact absurd hj' (hx.2.2 j uri')
      · cases heq
        rfl
  cells uri cell hmem := hw.cells_after hx hmem
  kept a i uri cell ha := hw.kept_after hx ha
  joined a i uri cell ha := by
    rcases event_concat.1 ha with ha | ⟨rfl, rfl⟩
    · obtain ⟨hlt, hia, hbegan⟩ := hw.joined a i uri cell ha
      exact ⟨hlt.trans_le (next_after parts w x), hia, event_concat.2 (.inl hbegan)⟩
    · have hbegan : w.history[i]? = some (.began uri) := hw.tasks i _ hx.1
      refine ⟨?_, event_lt hbegan, event_concat.2 (.inl hbegan)⟩
      rcases cell_of_joined hx with hmem | ⟨rfl, -, hnext⟩
      · exact (hw.cells uri cell hmem).lt_next.trans_le (next_after parts w _)
      · omega
  filled cell schema hc := by
    rcases content_after parts w x cell with hsame | ⟨i, uri, body, schema', rfl, hbody, hnew⟩
    · rw [hsame] at hc
      exact (hw.filled cell schema hc).imp fun a ha => ha.grow
    · rw [hnew] at hc
      cases hc
      exact ⟨w.history.length, i, uri, body, event_concat.2 (.inr ⟨rfl, rfl⟩), hbody⟩
  fills a cell schema hf := by
    obtain ⟨i, uri, body, ha, hbody⟩ := hf
    rcases event_concat.1 ha with ha | ⟨rfl, rfl⟩
    · have hold := hw.fills a cell schema ⟨i, uri, body, ha, hbody⟩
      rcases content_after parts w x cell with hsame | ⟨j, uri', body', schema', rfl, -, -⟩
      · rw [hsame, hold]
      · -- A cell that is loaded was empty.
        have hempty := (hw.tasks j _ hx).2.2
        rw [hold] at hempty
        cases hempty
    · simp [LoadScene.after, memoAfter, SchemaMemo.settle, hbody, SchemaMemo.content?]
  ended e b he := by
    rcases event_concat.1 he with he | ⟨rfl, rfl⟩
    · exact hw.ended e b he
    · obtain ⟨part, ht, -⟩ := hx
      obtain ⟨⟨inline, hb⟩, -⟩ := hw.tasks b _ ht
      exact event_lt hb

theorem sound_start (parts : TableParts) : start.Sound parts where
  inline := rfl
  tasks i t ht := by cases ht
  alone i j uri uri' cell hi := by cases hi
  cells uri cell hmem := by cases hmem
  kept a i uri cell ha := by cases ha
  joined a i uri cell ha := by cases ha
  filled cell schema hc := by cases hc
  fills a cell schema hf := by
    obtain ⟨i, uri, body, ha, -⟩ := hf
    cases ha
  ended e b he := by cases he

theorem Reachable.sound (hw : Reachable parts w) : w.Sound parts := by
  induction hw with
  | start => exact sound_start parts
  | step _ hx ih => exact ih.after hx

/-- **Every event had its reason**: a reachable scene with the history up to the event, which
    allowed it. -/
theorem Reachable.justified {k : Nat} (hw : Reachable parts w) (hk : w.history[k]? = some x) :
    ∃ w₀, Reachable parts w₀ ∧ w₀.Allows parts x ∧ w₀.history.length = k ∧
      w₀.history <+: w.history := by
  induction hw with
  | start => cases hk
  | @step w y hw hy ih =>
    have hpre : w.history <+: (w.after parts y).history := List.prefix_append _ _
    rcases event_concat.1 hk with hk | ⟨rfl, rfl⟩
    · obtain ⟨w₀, hreach, hallows, hlen, hp⟩ := ih hk
      exact ⟨w₀, hreach, hallows, hlen, hp.trans hpre⟩
    · exact ⟨w, hw, hy, rfl, hpre⟩

end

/-! ## What events tell about each other -/

section
variable {parts : TableParts} {w : LoadScene} {i r m a : Nat} {uri : String} {cell : Nat}

/-- What filled a cell in a history did so in a shorter one, if it happened early enough. -/
theorem FillsAt.earlier {h h' : List LoadEvent} {schema : Json} (hp : h <+: h')
    (hf : FillsAt h' a cell schema) (hlt : a < h.length) : FillsAt h a cell schema := by
  obtain ⟨i, uri, body, ha, hbody⟩ := hf
  exact ⟨i, uri, body, event_earlier hp ha hlt, hbody⟩

/-- A get issues its request after it took its cell, which is empty until then. -/
theorem requested_law (hw : Reachable parts w) (hm : w.history[m]? = some (.requested i uri cell)) :
    (∃ a < m, w.history[a]? = some (.joined i uri cell)) ∧
      ∀ a schema, FillsAt w.history a cell schema → m < a := by
  obtain ⟨w₀, hreach, ⟨ht, hempty, -⟩, rfl, hp⟩ := hw.justified hm
  constructor
  · obtain ⟨a, ha⟩ := hreach.sound.tasks i _ ht
    exact ⟨a, event_lt ha, event_later hp ha⟩
  · intro a schema hf
    by_contra hle
    rcases Nat.lt_or_eq_of_le (not_lt.1 hle) with hlt | rfl
    · have hfull := hreach.sound.fills a cell schema (hf.earlier hp hlt)
      rw [hempty] at hfull
      cases hfull
    · obtain ⟨j, uri', body, ha, -⟩ := hf
      rw [hm] at ha
      cases ha

/-- A get is answered after it issued its request, and its cell is empty until then. -/
theorem answered_law {body : Except Error String} (hw : Reachable parts w)
    (hr : w.history[r]? = some (.answered i uri cell body)) :
    (∃ a < r, w.history[a]? = some (.joined i uri cell)) ∧
      (∃ m < r, w.history[m]? = some (.requested i uri cell)) ∧
      ∀ a schema, FillsAt w.history a cell schema → r ≤ a := by
  obtain ⟨w₀, hreach, ht, rfl, hp⟩ := hw.justified hr
  obtain ⟨⟨a, ha⟩, ⟨m, hm⟩, hempty⟩ := hreach.sound.tasks i _ ht
  refine ⟨⟨a, event_lt ha, event_later hp ha⟩, ⟨m, event_lt hm, event_later hp hm⟩,
    fun a schema hf => ?_⟩
  by_contra hlt
  have hfull := hreach.sound.fills a cell schema (hf.earlier hp (not_le.1 hlt))
  rw [hempty] at hfull
  cases hfull

/-- What a get reads in its cell was loaded into it before. -/
theorem reused_law {schema : Json} (hw : Reachable parts w)
    (hr : w.history[r]? = some (.reused i uri cell schema)) :
    (∃ a < r, w.history[a]? = some (.joined i uri cell)) ∧
      ∃ a < r, FillsAt w.history a cell schema := by
  obtain ⟨w₀, hreach, ⟨ht, hfull⟩, rfl, hp⟩ := hw.justified hr
  obtain ⟨a, ha⟩ := hreach.sound.tasks i _ ht
  obtain ⟨a', j, uri', body, ha', hbody⟩ := hreach.sound.filled cell schema hfull
  exact ⟨⟨a, event_lt ha, event_later hp ha⟩,
    a', event_lt ha', j, uri', body, event_later hp ha', hbody⟩

/-- A cell is filled once. -/
theorem fillsAt_unique {a' : Nat} {schema schema' : Json} (hw : Reachable parts w)
    (hf : FillsAt w.history a cell schema) (hf' : FillsAt w.history a' cell schema') :
    a = a' ∧ schema = schema' := by
  obtain ⟨i, uri, body, ha, hbody⟩ := hf
  obtain ⟨i', uri', body', ha', hbody'⟩ := hf'
  have hle := (answered_law hw ha).2.2 a' schema' ⟨i', uri', body', ha', hbody'⟩
  have hle' := (answered_law hw ha').2.2 a schema ⟨i, uri, body, ha, hbody⟩
  cases le_antisymm hle hle'
  rw [ha] at ha'
  cases ha'
  rw [hbody] at hbody'
  cases hbody'
  exact ⟨rfl, rfl⟩

/-- All gets that took a cell took it for one location. -/
theorem joined_uri {a' i' : Nat} {uri' : String} (hw : Reachable parts w)
    (ha : w.history[a]? = some (.joined i uri cell))
    (ha' : w.history[a']? = some (.joined i' uri' cell)) : uri = uri' := by
  wlog hle : a ≤ a' generalizing a a' i i' uri uri'
  · exact (this ha' ha (not_le.1 hle).le).symm
  rcases Nat.lt_or_eq_of_le hle with hlt | rfl
  · obtain ⟨w₀, hreach, hx, rfl, hp⟩ := hw.justified ha'
    have ha := event_earlier hp ha hlt
    rcases cell_of_joined hx with hmem | ⟨rfl, -, -⟩
    · exact (hreach.sound.cells uri' cell hmem).joined a i uri ha
    · exact absurd (hreach.sound.joined a i uri _ ha).1 (lt_irrefl _)
  · rw [ha] at ha'
    cases ha'
    rfl

/-- Two gets for a location take the same cell, unless a reset forgets cells in between. -/
theorem joined_agree {a' i' cell' : Nat} (hw : Reachable parts w)
    (ha : w.history[a]? = some (.joined i uri cell))
    (ha' : w.history[a']? = some (.joined i' uri cell'))
    (hlt : a < a') : cell = cell' ∨ ∃ f b, a < f ∧ f < a' ∧ ForgetsAt w.history f b := by
  obtain ⟨w₀, hreach, ⟨-, hcell⟩, rfl, hp⟩ := hw.justified ha'
  rcases hreach.sound.kept a i uri cell (event_earlier hp ha hlt) with hl | ⟨f, b, haf, hf⟩
  · refine .inl ?_
    rcases cellFor_cases w₀.memo uri with ⟨c, hc, heq⟩ | ⟨hnone, -⟩
    · rw [heq] at hcell
      rw [hl] at hc
      cases hc
      exact hcell
    · rw [hl] at hnone
      cases hnone
  · refine .inr ⟨f, b, haf, ?_, hf.imp (fun ⟨part, hpart⟩ => ⟨part, event_later hp hpart⟩)
      (event_later hp)⟩
    rcases hf with ⟨part, hpart⟩ | he
    · exact event_lt hpart
    · exact event_lt he

/-- A reset forgets cells after it began and before it ended. -/
theorem forgetsAt_law {f b : Nat} (hw : Reachable parts w) (hf : ForgetsAt w.history f b) :
    b < f ∧ (∃ inline, w.history[b]? = some (.resetBegan inline)) ∧
      ∀ e, w.history[e]? = some (.resetEnded b) → f ≤ e := by
  -- Either way the reset was under way when it forgot cells.
  have hrunning : ∃ w₀ part, Reachable parts w₀ ∧ w₀.tasks b = some (.resetting part) ∧
      w₀.history.length = f ∧
      w₀.history <+: w.history := by
    rcases hf with ⟨part, hpart⟩ | he
    · obtain ⟨w₀, hreach, ⟨ht, -⟩, hlen, hp⟩ := hw.justified hpart
      exact ⟨w₀, part, hreach, ht, hlen, hp⟩
    · obtain ⟨w₀, hreach, ⟨part, ht, -⟩, hlen, hp⟩ := hw.justified he
      exact ⟨w₀, part, hreach, ht, hlen, hp⟩
  obtain ⟨w₀, part, hreach, ht, rfl, hp⟩ := hrunning
  obtain ⟨⟨inline, hb⟩, -, hopen, -⟩ := hreach.sound.tasks b _ ht
  refine ⟨event_lt hb, ⟨inline, event_later hp hb⟩, fun e he => ?_⟩
  by_contra hlt
  exact hopen e (event_earlier hp he (not_le.1 hlt))

/-- A cell that a get takes after a reset has ended is newer than the reset. -/
theorem joined_newer {e b : Nat} (hw : Reachable parts w)
    (he : w.history[e]? = some (.resetEnded b))
    (ha : w.history[a]? = some (.joined i uri cell)) (hlt : e < a) :
    NewerThan w.history cell b := by
  obtain ⟨w₀, hreach, hx, rfl, hp⟩ := hw.justified ha
  have he₀ := event_earlier hp he hlt
  intro a' i' uri' ha'
  rcases Nat.lt_or_ge a' w₀.history.length with hlt' | hge
  · have ha' := event_earlier hp ha' hlt'
    rcases cell_of_joined hx with hmem | ⟨rfl, -, -⟩
    · exact (hreach.sound.cells uri cell hmem).newer e b he₀ a' i' uri' ha'
    · exact absurd (hreach.sound.joined a' i' uri' _ ha').1 (lt_irrefl _)
  · exact ((hreach.sound.ended e b he₀).trans hlt).trans_le hge

end

end LoadScene

end AnnotatedJson
