/-
  Schemas are loaded once between two resets.

  * `LoadScene.Returns` says what a get returned, and `LoadScene.Loads` the same of a get that found
    no inline schema;
  * `LoadScene.Epoch` is a span of a history in which no reset is under way;
  * `LoadScene.Source` names the request that a returned schema was the answer to;
  * `loads_once_per_epoch`: in an epoch a location is loaded successfully at most once, and later
    gets share what was loaded; failures are returned and not kept; inline schemas need no request;
    and nothing that was requested before a reset is returned to a get that begins after it;
  * `LoadScene.Reachable.get`, `LoadScene.Reachable.reset`: a get or a reset that runs alone is a
    run of events.
-/
import Mathlib
import AnnotatedJson.Proofs.Loading

namespace AnnotatedJson

namespace LoadScene

open SchemaMemo (parseBody)

/-! ## Returns -/

/-- A get that began at a place and took a cell returned at another: the answer to its request, or
    what was in the cell. -/
inductive LoadsFrom (h : List LoadEvent) (cell : Nat) : Nat → Nat → String → Except Error Json →
    Prop where
  | answered {i r : Nat} {uri : String} {body : Except Error String} :
    h[r]? = some (.answered i uri cell body) → LoadsFrom h cell i r uri (parseBody uri body)
  | reused {i r : Nat} {uri : String} {schema : Json} :
    h[r]? = some (.reused i uri cell schema) → LoadsFrom h cell i r uri (.ok schema)

/-- A get that found no inline schema returned. -/
def Loads (h : List LoadEvent) (i r : Nat) (uri : String) (result : Except Error Json) : Prop :=
  ∃ cell, LoadsFrom h cell i r uri result

/-- A get that began at a place returned at another, or at the same one. -/
def Returns (h : List LoadEvent) (i r : Nat) (uri : String) (result : Except Error Json) : Prop :=
  (∃ schema, i = r ∧ h[i]? = some (.inlined uri schema) ∧ result = .ok schema) ∨
    Loads h i r uri result

/-- A get for a location begins at a place. -/
def BeginsAt (h : List LoadEvent) (i : Nat) (uri : String) : Prop :=
  h[i]? = some (.began uri) ∨ ∃ schema, h[i]? = some (.inlined uri schema)

/-- A get issued a request at a place. -/
def RequestsAt (h : List LoadEvent) (m i : Nat) (uri : String) : Prop :=
  ∃ cell, h[m]? = some (.requested i uri cell)

/-- A get issued a request that succeeded, and returned the schema at a place. -/
def SucceedsAt (h : List LoadEvent) (r i : Nat) (uri : String) (schema : Json) : Prop :=
  ∃ cell body, h[r]? = some (.answered i uri cell body) ∧ parseBody uri body = .ok schema

/-- No reset is under way from one place up to another: all that began before have ended. -/
def Epoch (h : List LoadEvent) (p q : Nat) : Prop :=
  ∀ b inline, b < q → h[b]? = some (.resetBegan inline) → ∃ e < p, h[e]? = some (.resetEnded b)

/-- What a get returned at a place is the answer to the request at another: its own, or that of
    the get that filled its cell. -/
inductive Source (h : List LoadEvent) : Nat → Nat → Prop where
  | own {r m i : Nat} {uri : String} {cell : Nat} {body : Except Error String} :
    h[r]? = some (.answered i uri cell body) → h[m]? = some (.requested i uri cell) → Source h r m
  | shared {r m a i j : Nat} {uri uri' : String} {cell : Nat} {schema : Json}
    {body : Except Error String} :
    h[r]? = some (.reused i uri cell schema) → h[a]? = some (.answered j uri' cell body) →
    parseBody uri' body = .ok schema → h[m]? = some (.requested j uri' cell) → Source h r m

section
variable {parts : TableParts} {w : LoadScene} {cell i r : Nat} {uri : String}
  {result : Except Error Json}

theorem LoadsFrom.joined (hw : Reachable parts w) (hl : LoadsFrom w.history cell i r uri result) :
    ∃ a, i < a ∧ a < r ∧ w.history[a]? = some (.joined i uri cell) := by
  have hjoined : ∃ a < r, w.history[a]? = some (.joined i uri cell) := by
    cases hl with
    | answered hr => exact (answered_law hw hr).1
    | reused hr => exact (reused_law hw hr).1
  obtain ⟨a, hlt, ha⟩ := hjoined
  exact ⟨a, (hw.sound.joined a i uri cell ha).2.1, hlt, ha⟩

/-- When a get returns a schema, its cell holds it. -/
theorem LoadsFrom.full {schema : Json} (hw : Reachable parts w)
    (hl : LoadsFrom w.history cell i r uri (.ok schema)) :
    ∃ f ≤ r, FillsAt w.history f cell schema := by
  generalize hresult : Except.ok schema = result at hl
  cases hl with
  | @answered body hr => exact ⟨r, le_rfl, i, uri, body, hr, hresult.symm⟩
  | reused hr =>
    cases hresult
    obtain ⟨-, f, hfr, hf⟩ := reused_law hw hr
    exact ⟨f, hfr.le, hf⟩

/-- When a get returns an error, its cell is empty. -/
theorem LoadsFrom.empty {e : Error} (hw : Reachable parts w)
    (hl : LoadsFrom w.history cell i r uri (.error e)) :
    ∀ f schema, FillsAt w.history f cell schema → r < f := by
  generalize hresult : Except.error e = result at hl
  intro f schema hf
  cases hl with
  | reused hr => cases hresult
  | answered hr =>
    refine lt_of_le_of_ne ((answered_law hw hr).2.2 f schema hf) ?_
    rintro rfl
    obtain ⟨j, uri', body', hf, hok⟩ := hf
    rw [hr] at hf
    cases hf
    rw [← hresult] at hok
    cases hok

/-- Reading a body fails if there is none, or if it is not JSON. -/
theorem parseBody_eq_error {body : Except Error String} {e : Error} :
    parseBody uri body = .error e ↔
    body = .error e ∨ ∃ text, body = .ok text ∧ Json.ofText? text.toList = none ∧
      e = .schemaParse uri := by
  cases body with
  | error e' => simp [parseBody, Except.bind]
  | ok text =>
    cases hjson : Json.ofText? text.toList with
    | none => simp [parseBody, Except.bind, hjson, eq_comm]
    | some schema => simp [parseBody, Except.bind, hjson]

/-- An error that a get returns is the answer to its own request. -/
theorem loads_error_iff {e : Error} {h : List LoadEvent} : Loads h i r uri (.error e) ↔
    ∃ cell body, h[r]? = some (.answered i uri cell body) ∧ parseBody uri body = .error e := by
  constructor
  · rintro ⟨cell, hl⟩
    generalize hresult : Except.error e = result at hl
    cases hl with
    | answered hr => exact ⟨cell, _, hr, rfl⟩
    | reused hr => cases hresult
  · rintro ⟨cell, body, hr, herror⟩
    rw [← herror]
    exact ⟨cell, .answered hr⟩

/-! ## Epochs -/

variable {p q : Nat}

theorem Epoch.joined_eq {a a' i i' cell cell' : Nat} (hw : Reachable parts w)
    (he : Epoch w.history p q) (ha : w.history[a]? = some (.joined i uri cell))
    (ha' : w.history[a']? = some (.joined i' uri cell'))
    (hp : p ≤ a) (hp' : p ≤ a') (hq : a < q) (hq' : a' < q) : cell = cell' := by
  wlog hle : a ≤ a' generalizing a a' i i' cell cell'
  · exact (this ha' ha hp' hp hq' hq (not_le.1 hle).le).symm
  rcases Nat.lt_or_eq_of_le hle with hlt | rfl
  · rcases joined_agree hw ha ha' hlt with heq | ⟨f, b, haf, hfa, hf⟩
    · exact heq
    · -- The reset began before the epoch ended, so that it had ended when the epoch began.
      obtain ⟨hbf, ⟨inline, hb⟩, hends⟩ := forgetsAt_law hw hf
      obtain ⟨e, hep, hend⟩ := he b inline (by omega) hb
      have := hends e hend
      omega
  · rw [ha] at ha'
    cases ha'
    rfl

/-- In an epoch, all gets for a location take the same cell. -/
theorem Epoch.cell_eq {i' r' cell' : Nat} {result' : Except Error Json} (hw : Reachable parts w)
    (he : Epoch w.history p q) (hl : LoadsFrom w.history cell i r uri result)
    (hl' : LoadsFrom w.history cell' i' r' uri result') (hp : p ≤ i) (hp' : p ≤ i') (hq : r < q)
    (hq' : r' < q) : cell = cell' := by
  obtain ⟨a, hia, har, ha⟩ := hl.joined hw
  obtain ⟨a', hia', har', ha'⟩ := hl'.joined hw
  exact he.joined_eq hw ha ha' (by omega) (by omega) (by omega) (by omega)

/-- In an epoch, a location is loaded successfully at most once. -/
theorem Epoch.succeeds_once {i' r' : Nat} {schema schema' : Json} (hw : Reachable parts w)
    (he : Epoch w.history p q) (hs : SucceedsAt w.history r i uri schema)
    (hs' : SucceedsAt w.history r' i' uri schema') (hp : p ≤ i) (hp' : p ≤ i') (hq : r < q)
    (hq' : r' < q) : i = i' ∧ r = r' := by
  obtain ⟨cell, body, hr, hok⟩ := hs
  obtain ⟨cell', body', hr', hok'⟩ := hs'
  cases he.cell_eq hw (.answered hr) (.answered hr') hp hp' hq hq'
  obtain ⟨rfl, -⟩ := fillsAt_unique hw ⟨i, uri, body, hr, hok⟩ ⟨i', uri, body', hr', hok'⟩
  rw [hr] at hr'
  cases hr'
  exact ⟨rfl, rfl⟩

/-- In an epoch, all gets that return a schema for a location return the same. -/
theorem Epoch.schema_eq {i' r' : Nat} {schema schema' : Json} (hw : Reachable parts w)
    (he : Epoch w.history p q) (hl : Loads w.history i r uri (.ok schema))
    (hl' : Loads w.history i' r' uri (.ok schema')) (hp : p ≤ i) (hp' : p ≤ i') (hq : r < q) (hq' : r' < q) : schema = schema' := by
  obtain ⟨cell, hl⟩ := hl
  obtain ⟨cell', hl'⟩ := hl'
  cases he.cell_eq hw hl hl' hp hp' hq hq'
  obtain ⟨f, -, hf⟩ := hl.full hw
  obtain ⟨f', -, hf'⟩ := hl'.full hw
  exact (fillsAt_unique hw hf hf').2

/-- In an epoch, a get that begins after a schema was returned issues no request. -/
theorem Epoch.not_requestsAt {i' m : Nat} {schema : Json} (hw : Reachable parts w)
    (he : Epoch w.history p q)
    (hl : Loads w.history i r uri (.ok schema)) (hp : p ≤ i) (hri : r < i') (hq : m < q) :
    ¬ RequestsAt w.history m i' uri := by
  rintro ⟨cell', hm⟩
  obtain ⟨cell, hl⟩ := hl
  obtain ⟨a, hia, har, ha⟩ := hl.joined hw
  obtain ⟨f, hfr, hf⟩ := hl.full hw
  obtain ⟨⟨a', ham, ha'⟩, hempty⟩ := requested_law hw hm
  have hia' := (hw.sound.joined a' i' uri cell' ha').2.1
  cases he.joined_eq hw ha ha' (by omega) (by omega) (by omega) (by omega)
  have := hempty f schema hf
  omega

/-- In an epoch, a get that returns after a failure issued a request itself, unless another load
    succeeded in between. -/
theorem Epoch.requests_again {i' r' : Nat} {e : Error} (hw : Reachable parts w)
    (he : Epoch w.history p q)
    (hl : Loads w.history i r uri (.error e)) (hl' : Loads w.history i' r' uri result)
    (hp : p ≤ i) (hp' : p ≤ i') (hq : r < q) (hq' : r' < q) :
    (∃ m < r', RequestsAt w.history m i' uri) ∨ ∃ k j schema, r < k ∧ k < r' ∧
      SucceedsAt w.history k j uri schema := by
  obtain ⟨cell, hl⟩ := hl
  obtain ⟨cell', hl'⟩ := hl'
  cases he.cell_eq hw hl hl' hp hp' hq hq'
  cases hl' with
  | answered hr' =>
    obtain ⟨-, ⟨m, hmr, hm⟩, -⟩ := answered_law hw hr'
    exact .inl ⟨m, hmr, cell, hm⟩
  | @reused schema hr' =>
    obtain ⟨a, -, -, ha⟩ := hl.joined hw
    obtain ⟨-, f, hfr, j, uri', body, hf, hok⟩ := reused_law hw hr'
    obtain ⟨⟨a', -, ha'⟩, -, -⟩ := answered_law hw hf
    cases joined_uri hw ha' ha
    exact .inr ⟨f, j, schema, hl.empty hw f schema ⟨j, uri, body, hf, hok⟩, hfr, cell, body, hf, hok⟩

/-! ## Inline schemas -/

theorem inlineAt?_eq {w₀ : LoadScene} (hreach : Reachable parts w₀)
    (hp : w₀.history <+: w.history) :
    w₀.memo.inlineAt? uri = Json.lookup uri (inForce (w.history.take w₀.history.length)) := by
  rw [SchemaMemo.inlineAt?, hreach.sound.inline, ← List.prefix_iff_eq_take.1 hp]

/-- A get looks at the inline schemas that the last reset left behind. -/
theorem BeginsAt.cases (hw : Reachable parts w) (hb : BeginsAt w.history i uri) :
    (w.history[i]? = some (.began uri) ∧ Json.lookup uri (inForce (w.history.take i)) = none) ∨
    ∃ schema, w.history[i]? = some (.inlined uri schema) ∧
      Json.lookup uri (inForce (w.history.take i)) = some schema := by
  rcases hb with hb | ⟨schema, hb⟩
  · obtain ⟨w₀, hreach, hnone, rfl, hp⟩ := hw.justified hb
    exact .inl ⟨hb, (inlineAt?_eq hreach hp).symm.trans hnone⟩
  · obtain ⟨w₀, hreach, hsome, rfl, hp⟩ := hw.justified hb
    exact .inr ⟨schema, hb, (inlineAt?_eq hreach hp).symm.trans hsome⟩

theorem RequestsAt.began {m : Nat} (hw : Reachable parts w) (hr : RequestsAt w.history m i uri) :
    w.history[i]? = some (.began uri) := by
  obtain ⟨cell, hm⟩ := hr
  obtain ⟨⟨a, -, ha⟩, -⟩ := requested_law hw hm
  exact (hw.sound.joined a i uri cell ha).2.2

/-! ## Resets -/

theorem Loads.source (hw : Reachable parts w) (hl : Loads w.history i r uri result) :
    ∃ m, Source w.history r m := by
  obtain ⟨cell, hl⟩ := hl
  cases hl with
  | answered hr =>
    obtain ⟨-, ⟨m, -, hm⟩, -⟩ := answered_law hw hr
    exact ⟨m, .own hr hm⟩
  | reused hr =>
    obtain ⟨-, f, -, j, uri', body, hf, hok⟩ := reused_law hw hr
    obtain ⟨-, ⟨m, -, hm⟩, -⟩ := answered_law hw hf
    exact ⟨m, .shared hr hf hok hm⟩

/-- What a get returns was requested by a get with the same cell. -/
theorem LoadsFrom.requested {m : Nat} {h : List LoadEvent} (hl : LoadsFrom h cell i r uri result)
    (hs : Source h r m) : ∃ j uri', h[m]? = some (.requested j uri' cell) := by
  cases hs with
  | own hr' hm =>
    cases hl with
    | answered hr =>
      rw [hr] at hr'
      cases hr'
      exact ⟨i, uri, hm⟩
    | reused hr =>
      rw [hr] at hr'
      cases hr'
  | shared hr' hf hok hm =>
    cases hl with
    | answered hr =>
      rw [hr] at hr'
      cases hr'
    | reused hr =>
      rw [hr] at hr'
      cases hr'
      exact ⟨_, _, hm⟩

/-- What was requested before a reset is not returned to a get that begins after it. -/
theorem Loads.source_newer {e b m : Nat} (hw : Reachable parts w)
    (he : w.history[e]? = some (.resetEnded b))
    (hi : e < i) (hl : Loads w.history i r uri result) (hs : Source w.history r m) : b < m := by
  obtain ⟨cell, hl⟩ := hl
  obtain ⟨a, hia, -, ha⟩ := hl.joined hw
  obtain ⟨j, uri', hm⟩ := hl.requested hs
  obtain ⟨⟨a', ham, ha'⟩, -⟩ := requested_law hw hm
  exact (joined_newer hw he ha (hi.trans hia) a' j uri' ha').trans ham

end

/-! ## Gets and resets that run alone -/

section
variable {parts : TableParts} {w : LoadScene}

theorem Sound.fresh {i : Nat} (hw : w.Sound parts) (hi : w.history.length ≤ i) :
    w.tasks i = none := by
  cases ht : w.tasks i with
  | none => rfl
  | some t =>
    have hlt : i < w.history.length := by
      have hsound := hw.tasks i t ht
      cases t with
      | seeking uri => exact event_lt hsound
      | waiting uri cell =>
        obtain ⟨a, ha⟩ := hsound
        exact (hw.joined a i uri cell ha).2.1.trans (event_lt ha)
      | loading uri cell =>
        obtain ⟨⟨a, ha⟩, -⟩ := hsound
        exact (hw.joined a i uri cell ha).2.1.trans (event_lt ha)
      | resetting part =>
        obtain ⟨⟨inline, hb⟩, -⟩ := hsound
        exact event_lt hb
    omega

/-- What a get does when it runs alone. -/
theorem get_cases {σ : Type} (memo : SchemaMemo) (request : String → σ → Except Error String × σ)
    (uri : String) (s : σ) :
    (∃ schema, memo.inlineAt? uri = some schema ∧ memo.get request uri s = (.ok schema, memo, s)) ∨
    memo.inlineAt? uri = none ∧
      ((∃ schema, (memo.cellFor uri).2.content? (memo.cellFor uri).1 = some schema ∧
        memo.get request uri s = (.ok schema, (memo.cellFor uri).2, s)) ∨
      (memo.cellFor uri).2.content? (memo.cellFor uri).1 = none ∧
        memo.get request uri s = (parseBody uri (request uri s).1,
          (memo.cellFor uri).2.settle (memo.cellFor uri).1 (parseBody uri (request uri s).1),
            (request uri s).2)) := by
  unfold SchemaMemo.get SchemaMemo.find
  cases hinline : memo.inlineAt? uri with
  | some schema => exact .inl ⟨schema, rfl, rfl⟩
  | none =>
    refine .inr ⟨rfl, ?_⟩
    cases hcontent : (memo.cellFor uri).2.content? (memo.cellFor uri).1 with
    | some schema => exact .inl ⟨schema, rfl, by simp only [hcontent]⟩
    | none => exact .inr ⟨rfl, by simp only [hcontent]⟩

/-- A get that runs alone is a run of events, and returns the same. -/
theorem Reachable.get {σ : Type} (hw : Reachable parts w) (hidle : ∀ i, w.tasks i = none)
    (request : String → σ → Except Error String × σ) (uri : String) (s : σ) :
    ∃ events r, Reachable parts ⟨(w.memo.get request uri s).2.1, w.tasks, w.history ++ events⟩ ∧
      Returns (w.history ++ events) w.history.length r uri (w.memo.get request uri s).1 := by
  let n := w.history.length
  let cell := (w.memo.cellFor uri).1
  have hend : Function.update w.tasks w.history.length none = w.tasks := by
    rw [← hidle w.history.length, Function.update_eq_self]
  rcases get_cases w.memo request uri s with ⟨schema, hinline, heq⟩ | ⟨hinline, hloads⟩
  · have hget : Reachable parts (w.after parts (.inlined uri schema)) := hw.step hinline
    rw [heq]
    exact ⟨[.inlined uri schema], n, hget, .inl ⟨schema, rfl, by simp, rfl⟩⟩
  · have hbegan : Reachable parts (w.after parts (.began uri)) := hw.step hinline
    have hjoined := hbegan.step (x := .joined n uri cell) ⟨Function.update_self .., rfl⟩
    rcases hloads with ⟨schema, hcontent, heq⟩ | ⟨hcontent, heq⟩
    · have hreused :=
        hjoined.step (x := .reused n uri cell schema) ⟨Function.update_self .., hcontent⟩
      rw [heq]
      refine ⟨[.began uri, .joined n uri cell, .reused n uri cell schema], n + 2, ?_,
        .inr ⟨cell, .reused ?_⟩⟩
      · simpa [after, memoAfter, tasksAfter, n, cell, hend] using hreused
      · simp [n]
    · have halone : ∀ j uri',
          ((w.after parts (.began uri)).after parts (.joined n uri cell)).tasks j ≠
          some (.loading uri' cell) := fun j uri' hj => by
        rcases loading_after hj with hj | hj
        · rcases loading_after hj with hj | hj
          · rw [hidle j] at hj
            cases hj
          · cases hj
        · cases hj
      have hrequested :=
        hjoined.step (x := .requested n uri cell) ⟨Function.update_self .., hcontent, halone⟩
      have hanswered := hrequested.step (x := .answered n uri cell (request uri s).1)
        (Function.update_self ..)
      rw [heq]
      refine ⟨[.began uri, .joined n uri cell, .requested n uri cell,
        .answered n uri cell (request uri s).1], n + 3, ?_,
        .inr ⟨cell, .answered ?_⟩⟩
      · simpa [after, memoAfter, tasksAfter, n, cell, hend] using hanswered
      · simp [n]

theorem forget_forget (memo : SchemaMemo) (part part' : String → Bool) :
    (memo.forget part).forget part' = memo.forget fun uri => part uri || part' uri := by
  simp [SchemaMemo.forget, List.filter_filter, Bool.and_comm]

/-- A reset that is under way forgets what is left of the table. -/
theorem Reachable.forgets {memo : SchemaMemo} {tasks : Nat → Option LoadTask} {h : List LoadEvent}
    {b k : Nat} (hw : Reachable parts ⟨memo.forget fun uri => (parts.part uri : Nat) < k,
      Function.update tasks b (some (.resetting k)), h⟩) (hk : k < parts.count) :
    ∃ events, Reachable parts ⟨memo.forget fun _ => true, Function.update tasks b none,
      h ++ events⟩ := by
  induction hn : parts.count - k generalizing k h with
  | zero => omega
  | succ n ih =>
    rcases Nat.lt_or_eq_of_le (Nat.succ_le_of_lt hk) with hlt | hlast
    · have hforgot := hw.step (x := .forgot b k) ⟨Function.update_self .., hlt⟩
      have hmemo : (memo.forget fun uri => (parts.part uri : Nat) < k).forget
          (fun uri => (parts.part uri : Nat) = k) =
          memo.forget fun uri => (parts.part uri : Nat) < k + 1 := by
        rw [forget_forget]
        congr 1
        funext uri
        rw [← Bool.decide_or]
        exact decide_eq_decide.2 Nat.lt_succ_iff_lt_or_eq.symm
      simp only [after, memoAfter, tasksAfter, Function.update_idem, hmemo] at hforgot
      obtain ⟨events, hevents⟩ := ih hforgot hlt (by omega)
      exact ⟨.forgot b k :: events, by simpa using hevents⟩
    · have hended := hw.step (x := .resetEnded b) ⟨k, Function.update_self .., hlast⟩
      have hmemo : (memo.forget fun uri => (parts.part uri : Nat) < k).forget
          (fun uri => (parts.part uri : Nat) + 1 = parts.count) = memo.forget fun _ => true := by
        rw [forget_forget]
        congr 1
        funext uri
        have hpart := (parts.part uri).isLt
        rw [← Bool.decide_or, decide_eq_true_iff]
        omega
      simp only [after, memoAfter, tasksAfter, Function.update_idem, hmemo] at hended
      exact ⟨[.resetEnded b], hended⟩

/-- A reset that runs alone is a run of events. -/
theorem Reachable.reset (hw : Reachable parts w) (inline : List (String × Json)) :
    ∃ events, Reachable parts ⟨w.memo.reset inline, w.tasks, w.history ++ events⟩ := by
  have hbegan : Reachable parts (w.after parts (.resetBegan inline)) := hw.step trivial
  have hmemo : w.memo.setInline inline = (w.memo.setInline inline).forget fun uri =>
      (parts.part uri : Nat) < 0 := by
    simp [SchemaMemo.forget]
  simp only [after, memoAfter, tasksAfter] at hbegan
  rw [hmemo] at hbegan
  obtain ⟨events, hevents⟩ := hbegan.forgets (parts.part "").pos
  have hend : Function.update w.tasks w.history.length none = w.tasks := by
    rw [← hw.sound.fresh le_rfl, Function.update_eq_self]
  rw [hend] at hevents
  exact ⟨.resetBegan inline :: events, by simpa [SchemaMemo.reset] using hevents⟩

end

end LoadScene

open LoadScene

/-- **Schemas are loaded once between two resets.**  In any interleaving of gets and resets, and for
    gets that found no inline schema: those that begin and return while no reset is under way issue
    at most one successful request for a location, return the same schema if any, and issue no
    request once one of them has returned a schema; a failure is returned as it is, and the next
    get requests again.  A get for an inline schema returns it without a request.  And what a get
    returns after a reset has ended was requested after the reset began. -/
theorem loads_once_per_epoch {parts : TableParts} {w : LoadScene} (hw : Reachable parts w) :
    (∀ p q uri, Epoch w.history p q →
      (∀ i i' r r' s s', p ≤ i → p ≤ i' → r < q → r' < q → SucceedsAt w.history r i uri s →
        SucceedsAt w.history r' i' uri s' → i = i' ∧ r = r') ∧
      (∀ i i' r r' s s', p ≤ i → p ≤ i' → r < q → r' < q → Loads w.history i r uri (.ok s) →
        Loads w.history i' r' uri (.ok s') → s = s') ∧
      (∀ i i' r m s, p ≤ i → r < i' → m < q → Loads w.history i r uri (.ok s) →
        ¬ RequestsAt w.history m i' uri) ∧
      ∀ i i' r r' e result, p ≤ i → p ≤ i' → r < q → r' < q → Loads w.history i r uri (.error e) →
        Loads w.history i' r' uri result → (∃ m < r', RequestsAt w.history m i' uri) ∨
          ∃ k j s, r < k ∧ k < r' ∧ SucceedsAt w.history k j uri s) ∧
    (∀ i r uri e, Loads w.history i r uri (.error e) ↔ ∃ cell body,
      w.history[r]? = some (.answered i uri cell body) ∧
      (body = .error e ∨ ∃ text, body = .ok text ∧ Json.ofText? text.toList = none ∧
        e = .schemaParse uri)) ∧
    (∀ cell i r uri e, LoadsFrom w.history cell i r uri (.error e) →
      ∀ f s, FillsAt w.history f cell s → r < f) ∧
    (∀ i uri, BeginsAt w.history i uri →
      (∀ s, Json.lookup uri (inForce (w.history.take i)) = some s →
        Returns w.history i i uri (.ok s) ∧ ∀ m uri', ¬ RequestsAt w.history m i uri') ∧
      (Json.lookup uri (inForce (w.history.take i)) = none →
        ∀ r result, Returns w.history i r uri result →
        Loads w.history i r uri result)) ∧
    ∀ b e i r uri result, w.history[e]? = some (.resetEnded b) → e < i →
      Loads w.history i r uri result →
      (∃ m, Source w.history r m) ∧ ∀ m, Source w.history r m → b < m := by
  refine ⟨fun p q uri he => ⟨?_, ?_, ?_, ?_⟩, fun i r uri e => ?_,
    fun cell i r uri e hl => hl.empty hw,
    fun i uri hb => ⟨fun s hs => ?_, fun hnone r result hr => ?_⟩,
    fun b e i r uri result he hi hl => ⟨hl.source hw, fun m hs => hl.source_newer hw he hi hs⟩⟩
  · intro i i' r r' s s' hp hp' hq hq' hs hs'
    exact he.succeeds_once hw hs hs' hp hp' hq hq'
  · intro i i' r r' s s' hp hp' hq hq' hl hl'
    exact he.schema_eq hw hl hl' hp hp' hq hq'
  · intro i i' r m s hp hri hq hl
    exact he.not_requestsAt hw hl hp hri hq
  · intro i i' r r' e result hp hp' hq hq' hl hl'
    exact he.requests_again hw hl hl' hp hp' hq hq'
  · simp only [loads_error_iff, parseBody_eq_error]
  · rcases hb.cases hw with ⟨-, hnone⟩ | ⟨s', hi, hs'⟩
    · rw [hs] at hnone
      cases hnone
    · rw [hs] at hs'
      cases hs'
      refine ⟨.inl ⟨s, rfl, hi, rfl⟩, fun m uri' hm => ?_⟩
      have hbegan := hm.began hw
      rw [hi] at hbegan
      cases hbegan
  · rcases hr with ⟨s, rfl, hi, -⟩ | hl
    · rcases hb.cases hw with ⟨hi', -⟩ | ⟨s', -, hs'⟩
      · rw [hi] at hi'
        cases hi'
      · rw [hnone] at hs'
        cases hs'
    · exact hl

/-- After a reset, two gets share a cell; the request of the first fails and that of the second
    succeeds, and a third get reuses what was loaded. -/
theorem loads_once_per_epoch_retried : ∃ (parts : TableParts) (w : LoadScene) (uri : String),
    Reachable parts w ∧
    w.history[1]? = some (.resetEnded 0) ∧ Epoch w.history 2 13 ∧
    Loads w.history 2 7 uri (.error (.schemaFetch uri)) ∧
      Loads w.history 3 9 uri (.ok (.bool true)) ∧
    Loads w.history 10 12 uri (.ok (.bool true)) ∧ (∀ m < 13, ¬ RequestsAt w.history m 10 uri) ∧
    ∀ m, Source w.history 12 m → 0 < m := by
  let parts : TableParts := ⟨1, fun _ => 0⟩
  let uri : String := "a"
  obtain ⟨w, hw, hhistory⟩ : ∃ w, Reachable parts w ∧
      w.history = [.resetBegan [], .resetEnded 0, .began uri, .began uri,
      .joined 2 uri 0, .joined 3 uri 0, .requested 2 uri 0,
        .answered 2 uri 0 (.error (.schemaFetch uri)),
      .requested 3 uri 0, .answered 3 uri 0 (.ok "true"), .began uri, .joined 10 uri 0,
      .reused 10 uri 0 (.bool true)] := by
    have hreset : Reachable parts _ := (Reachable.start.step (x := .resetBegan []) trivial).step
      (x := .resetEnded 0) ⟨0, rfl, rfl⟩
    have hbegan := (hreset.step (x := .began uri) rfl).step (x := .began uri) rfl
    have hjoined := (hbegan.step (x := .joined 2 uri 0) ⟨rfl, rfl⟩).step
      (x := .joined 3 uri 0) ⟨rfl, rfl⟩
    have hfailed := (hjoined.step (x := .requested 2 uri 0) ⟨rfl, rfl, fun j uri' hj => by
      simp only [after, tasksAfter, start, Function.update_apply] at hj
      split_ifs at hj <;> cases hj⟩).step (x := .answered 2 uri 0 (.error (.schemaFetch uri))) rfl
    have hloaded := (hfailed.step (x := .requested 3 uri 0) ⟨rfl, rfl, fun j uri' hj => by
      simp only [after, tasksAfter, start, Function.update_apply] at hj
      split_ifs at hj <;> cases hj⟩).step (x := .answered 3 uri 0 (.ok "true")) rfl
    have hreused :=
      ((hloaded.step (x := .began uri) rfl).step (x := .joined 10 uri 0) ⟨rfl, rfl⟩).step
      (x := .reused 10 uri 0 (.bool true)) ⟨rfl, rfl⟩
    exact ⟨_, hreused, rfl⟩
  have hepoch : Epoch w.history 2 13 := by
    intro b inline hb hbegan
    rw [hhistory] at hbegan
    interval_cases b <;> cases hbegan
    exact ⟨1, by decide, by rw [hhistory]; rfl⟩
  have hended : w.history[1]? = some (.resetEnded 0) := by rw [hhistory]; rfl
  have hloaded : Loads w.history 3 9 uri (.ok (.bool true)) :=
    ⟨0, @LoadsFrom.answered _ _ _ _ _ (.ok "true") (by rw [hhistory]; rfl)⟩
  have hreused : Loads w.history 10 12 uri (.ok (.bool true)) :=
    ⟨0, .reused (by rw [hhistory]; rfl)⟩
  obtain ⟨hloads, -, -, -, hresets⟩ := loads_once_per_epoch hw
  refine ⟨parts, w, uri, hw, hended, hepoch,
    ⟨0, @LoadsFrom.answered _ _ _ _ _ (.error (.schemaFetch uri)) (by rw [hhistory]; rfl)⟩, hloaded,
      hreused, fun m hm => ?_, (hresets 0 1 10 12 uri _ hended (by decide) hreused).2⟩
  exact (hloads 2 13 uri hepoch).2.2.1 3 10 9 m _ (by decide) (by decide) hm hloaded

end AnnotatedJson
