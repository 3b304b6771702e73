/-
  Previews over a session.

  Documents are opened, changed and closed, commands are run, and after each operation the
  preview is told about the changes.

  * `Session` says what previews are about: the newest snapshots and the region that is
    followed.  It knows of no cache and of no subscription;
  * `ArtifactCache.Coherent`: a cache holds nothing newer than the open documents, and
    what is as new is made from them;
  * `Workspace.Tracks`: a workspace is where a session is; `Tracks.step`: it stays there
    whatever the operation, and sends what the session says;
  * `Workspace.previews_follow_session` says so of every run.
-/
import Mathlib
import AnnotatedJson.Service
import AnnotatedJson.Proofs.CacheEntries

namespace AnnotatedJson

/-- An operation of a session. -/
inductive SessionOp where
  | opened (document : Document)
  | changed (uri : Uri) (version : Int) (text : Text)
  | closed (uri : Uri)
  | execute (command : String) (arguments : List Json)

namespace SessionOp

/-- What an operation does to the workspace. -/
def perform : SessionOp → Action (Option Json)
  | .opened d => do
    modify fun w => { w with documents := w.documents.put d }
    return none
  | .changed uri version text => do
    match (← get).documents.change? uri version text with
    | some (_, documents) => modify fun w => { w with documents }
    | none => pure ()
    return none
  | .closed uri => do
    modify fun w => { w with documents := w.documents.close uri }
    Registry.standard.forget uri
    return none
  | .execute command arguments => Registry.standard.execute command arguments

/-- An operation, after which the preview is told about the changes. -/
def step (op : SessionOp) : StateM Workspace (Except Error (Option Json)) := do
  let result ← op.perform.run
  Workspace.deliver
  return result

end SessionOp

/-- What is seen of an operation: its result, what was sent about previews, the region that is
    followed then, and how many subscriptions there are. -/
structure SessionReport where
  result : Except Error (Option Json)
  messages : List PreviewMessage
  active : Option (Uri × Nat)
  subscriptions : Nat

namespace Workspace

/-- The region that is followed. -/
def active (w : Workspace) : Option (Uri × Nat) := w.literals.preview.map fun p => (p.uri, p.index)

/-- What is seen of operations one after the other. -/
def session (w : Workspace) : List SessionOp → List SessionReport
  | [] => []
  | op :: ops =>
    let (result, w') := op.step w
    ⟨result, w'.sent.drop w.sent.length, w'.active, w'.documents.subscriptions.length⟩ ::
      w'.session ops

/-- The regions of a document, found in its text. -/
def indexOf (w : Workspace) (d : Document) : RegionIndex :=
  .ofRegions d (w.findRegions w.bindings d)

/-- What is shown of a region of a snapshot. -/
def render (w : Workspace) (d : Document) (index : Nat) : Except Error PreviewPayload :=
  (w.indexOf d).preview w.literals.allowComments index

end Workspace

/-! ## Sessions -/

/-- The newest snapshots of the open documents, and the region that is followed. -/
structure Session where
  documents : Uri → Option Document := fun _ => none
  active : Option (Uri × Nat) := none

namespace Session

variable (render : Document → Nat → Except Error PreviewPayload)

/-- A snapshot becomes the newest one. -/
def put (s : Session) (d : Document) : Session :=
  { s with documents := Function.update s.documents d.uri (some d) }

/-- A document is open no more. -/
def drop (s : Session) (uri : Uri) : Session :=
  { s with documents := Function.update s.documents uri none }

/-- What is sent about a new snapshot: an update, if it has the region that is followed. -/
def updates (s : Session) (d : Document) : List PreviewMessage :=
  match s.active with
  | some (uri, index) =>
    if d.uri = uri then
      match render d index with
      | .ok payload => [.updated payload]
      | .error _ => []
    else []
  | none => []

/-- What is sent about an event. -/
def told (s : Session) : DocumentEvent → List PreviewMessage
  | .changed d => s.updates render d
  | .closed _ => []

theorem flatMap_told_of_none {s : Session} (h : s.active = none) (events : List DocumentEvent) :
    events.flatMap (s.told render) = [] := by
  refine List.flatMap_eq_nil_iff.2 fun event _ => ?_
  cases event with
  | changed d => simp only [told, updates, h]
  | closed uri => rfl

/-- What a command to show a region asks for: the region and what is shown of it. -/
def target (s : Session) (arguments : List Json) : Except Error (PreviewPayload × Uri × Nat) := do
  let (uri, index) ← LiteralMode.previewArguments arguments
  match s.documents uri with
  | some d => (render d index).map fun payload => (payload, uri, index)
  | none => throw (.documentNotFound uri.toString)

/-- How a command to show a region can go wrong, and what it comes to if it does not. -/
theorem target_cases (s : Session) (arguments : List Json) :
    (∃ e, LiteralMode.previewArguments arguments = .error e ∧
      s.target render arguments = .error e) ∨
    (∃ uri index, LiteralMode.previewArguments arguments = .ok (uri, index) ∧
      s.documents uri = none ∧
      s.target render arguments = .error (.documentNotFound uri.toString)) ∨
    (∃ uri index d, LiteralMode.previewArguments arguments = .ok (uri, index) ∧
      s.documents uri = some d ∧
      s.target render arguments = (render d index).map fun payload => (payload, uri, index)) := by
  unfold target
  cases hargs : LiteralMode.previewArguments arguments with
  | error e => exact Or.inl ⟨e, rfl, rfl⟩
  | ok region =>
    obtain ⟨uri, index⟩ := region
    simp only [bind, Except.bind]
    cases hd : s.documents uri with
    | none => exact Or.inr (Or.inl ⟨uri, index, rfl, hd, rfl⟩)
    | some d => exact Or.inr (Or.inr ⟨uri, index, d, rfl, hd, rfl⟩)

/-- An operation: its result, what is sent, and the session after it. -/
def step (s : Session) : SessionOp → (Except Error (Option Json) × List PreviewMessage) × Session
  | .opened d => ((.ok none, s.updates render d), s.put d)
  | .changed uri version text =>
    match s.documents uri with
    | some old =>
      let d := Document.ofText uri old.language version text
      ((.ok none, s.updates render d), s.put d)
    | none => ((.ok none, []), s)
  | .closed uri => ((.ok none, []), s.drop uri)
  | .execute command arguments =>
    if command = previewCommand then
      match s.target render arguments with
      | .ok (payload, region) => ((.ok none, [.opened payload]), { s with active := some region })
      | .error e => ((.error e, []), s)
    else if command = endPreviewCommand then ((.ok none, []), { s with active := none })
    else ((.error (.unknownCommand command), []), s)

/-- What is seen of operations one after the other. -/
def reports (s : Session) : List SessionOp → List SessionReport
  | [] => []
  | op :: ops =>
    let ((result, messages), s') := s.step render op
    ⟨result, messages, s'.active, s'.active.toList.length⟩ :: s'.reports ops

theorem subscriptions_le_one {s : Session} {ops : List SessionOp} {r : SessionReport}
    (h : r ∈ s.reports render ops) : r.subscriptions ≤ 1 := by
  induction ops generalizing s with
  | nil => cases h
  | cons op ops ih =>
    rcases List.mem_cons.1 h with rfl | h
    · show (Option.toList _).length ≤ 1
      cases (s.step render op).2.active <;> simp
    · exact ih h

/-- Versions of an open document increase. -/
def Admits (s : Session) : SessionOp → Prop
  | .opened d => ∀ old ∈ s.documents d.uri, old.version < d.version
  | .changed uri version _ => ∀ old ∈ s.documents uri, old.version < version
  | _ => True

/-- Versions of open documents increase all along. -/
def AdmitsAll (s : Session) : List SessionOp → Prop
  | [] => True
  | op :: ops => s.Admits op ∧ (s.step render op).2.AdmitsAll ops

instance decidableAdmits (s : Session) : ∀ op, Decidable (s.Admits op)
  | .opened d => inferInstanceAs (Decidable (∀ old ∈ s.documents d.uri, old.version < d.version))
  | .changed uri version _ => inferInstanceAs
    (Decidable (∀ old ∈ s.documents uri, old.version < version))
  | .closed _ | .execute _ _ => instDecidableTrue

instance decidableAdmitsAll (s : Session) : ∀ ops, Decidable (s.AdmitsAll render ops)
  | [] => instDecidableTrue
  | op :: ops =>
    have := decidableAdmitsAll (s.step render op).2 ops
    inferInstanceAs (Decidable (s.Admits op ∧ (s.step render op).2.AdmitsAll render ops))

end Session

/-! ## The cache -/

namespace ArtifactCache

variable {α : Type} {make : Document → α} {docs : Uri → Option Document} {c : ArtifactCache α}
  {d : Document}

/-- Each entry is that of an open document, older than its newest snapshot or made from it. -/
def Coherent (make : Document → α) (docs : Uri → Option Document) (c : ArtifactCache α) : Prop :=
  ∀ e ∈ c.entries, ∃ d, docs e.uri = some d ∧ (e.version < d.version ∨ e.Holds d (make d))

/-- **A coherent cache gives what is made from the newest snapshot**, and stays coherent. -/
theorem Coherent.fetch (h : Coherent make docs c) (hd : docs d.uri = some d) :
    (c.fetch d make).1 = make d ∧ Coherent make docs (c.fetch d make).2 := by
  have hkept : Coherent make docs (c.lookup d).2 := by
    intro e he
    obtain ⟨e₀, he₀, hsame⟩ := mem_lookup he
    obtain ⟨d', hd', hor⟩ := h e₀ he₀
    exact ⟨d', hsame.uri ▸ hd', hor.imp (fun hlt => hsame.version ▸ hlt) fun hh => hh.of_same hsame⟩
  unfold ArtifactCache.fetch
  split
  · next a c' hl =>
    obtain ⟨e, he, huri, hserves, rfl⟩ := lookup_some hl
    obtain ⟨d', hd', hor⟩ := h e he
    rw [huri, hd] at hd'
    cases hd'
    rw [hl] at hkept
    -- an entry that serves the newest snapshot is not older, so it was made from it
    have hle : d.version ≤ e.version := by
      simp only [CacheEntry.serves, Bool.and_eq_true, decide_eq_true_eq] at hserves
      exact hserves.1
    exact ⟨(hor.resolve_left hle.not_gt).artifact, hkept⟩
  · next c' hl =>
    rw [hl] at hkept
    refine ⟨rfl, fun e he => ?_⟩
    rcases mem_insert he with he | ⟨-, hh⟩
    · exact hkept e he
    · exact ⟨d, hh.uri ▸ hd, Or.inr hh⟩

/-- A newer snapshot leaves a cache coherent. -/
theorem Coherent.put (h : Coherent make docs c) (hd : ∀ old ∈ docs d.uri, old.version < d.version) :
    Coherent make (Function.update docs d.uri (some d)) c := by
  intro e he
  obtain ⟨d', hd', hor⟩ := h e he
  by_cases hu : e.uri = d.uri
  · rw [hu] at hd'
    have hlt := hd d' hd'
    refine ⟨d, by rw [hu, Function.update_self], Or.inl ?_⟩
    rcases hor with hor | hor
    · exact hor.trans hlt
    · exact hor.version ▸ hlt
  · exact ⟨d', by rwa [Function.update_of_ne hu], hor⟩

theorem Coherent.erase (h : Coherent make docs c) (uri : Uri) :
    Coherent make (Function.update docs uri none) (c.erase uri) := by
  intro e he
  obtain ⟨he, hu⟩ := mem_erase.1 he
  obtain ⟨d', hd', hor⟩ := h e he
  exact ⟨d', by rwa [Function.update_of_ne hu], hor⟩

end ArtifactCache

/-! ## The documents -/

namespace DocumentStore

variable (s : DocumentStore)

theorem find?_others (ds : List Document) (uri u : Uri) :
    (ds.filter fun d => d.uri ≠ uri).find? (fun d => d.uri = u) =
      if u = uri then none else ds.find? fun d => d.uri = u := by
  rw [List.find?_filter]
  split
  · next h =>
    subst h
    simp
  · next h =>
    congr 1
    funext d
    by_cases hd : d.uri = u <;> simp [hd, h]

theorem get?_put (d : Document) : (s.put d).get? = Function.update s.get? d.uri (some d) := by
  funext u
  show ((s.documents.filter fun e => e.uri ≠ d.uri) ++ [d]).find? (fun e => e.uri = u) = _
  rw [List.find?_append, find?_others]
  by_cases hu : u = d.uri
  · subst hu
    simp
  · have hd : d.uri ≠ u := Ne.symm hu
    simp [hu, hd, get?]

theorem get?_close (uri : Uri) : (s.close uri).get? = Function.update s.get? uri none := by
  funext u
  unfold close
  split
  · show (s.documents.filter fun e => e.uri ≠ uri).find? (fun e => e.uri = u) = _
    rw [find?_others]
    by_cases hu : u = uri
    · subst hu
      simp
    · simp [hu, get?]
  · next h =>
    by_cases hu : u = uri
    · subst hu
      rw [Function.update_self, h]
    · rw [Function.update_of_ne hu]

end DocumentStore

/-! ## Workspaces and sessions -/

namespace Workspace

/-- A workspace is where a session is, and the preview has yet to be told about `events`. -/
structure Tracks (w₀ w : Workspace) (s : Session) (events : List DocumentEvent) : Prop where
  indexOf : w.indexOf = w₀.indexOf
  allowComments : w.literals.allowComments = w₀.literals.allowComments
  documents : w.documents.get? = s.documents
  active : w.active = s.active
  coherent : w.regions.Coherent w₀.indexOf s.documents
  /-- Only the preview has a subscription. -/
  subscriptions : w.documents.subscriptions =
    w.literals.preview.toList.map fun p => { id := p.subscription, pending := events }
  fresh : ∀ p ∈ w.literals.preview, p.subscription < w.documents.nextId

variable {w₀ w : Workspace} {s : Session} {d : Document}

/-- What was sent does not matter. -/
theorem Tracks.sent {events : List DocumentEvent} (h : Tracks w₀ w s events)
    (sent : List PreviewMessage) :
    Tracks w₀ { w with sent } s events :=
  ⟨h.indexOf, h.allowComments, h.documents, h.active, h.coherent, h.subscriptions, h.fresh⟩

/-- **Rendering through the cache shows the newest snapshot.** -/
theorem Tracks.preview {events : List DocumentEvent} (h : Tracks w₀ w s events)
    (hd : s.documents d.uri = some d) (index : Nat) :
    ∃ regions, preview d index w = (w₀.render d index, { w with regions }) ∧
      Tracks w₀ { w with regions } s events := by
  obtain ⟨hfst, hsnd⟩ := h.coherent.fetch hd
  refine ⟨(w.regions.fetch d w₀.indexOf).2, ?_,
    ⟨h.indexOf, h.allowComments, h.documents, h.active, hsnd,
    h.subscriptions, h.fresh⟩⟩
  calc Workspace.preview d index w
      = ((w.regions.fetch d w.indexOf).1.preview w.literals.allowComments index,
          { w with regions := (w.regions.fetch d w.indexOf).2 }) := rfl
    _ = _ := by rw [h.indexOf, hfst, h.allowComments]; rfl

/-- What is shown of a region does not depend on the subscriptions. -/
theorem preview_documents (d : Document) (index : Nat) (w : Workspace) (documents : DocumentStore) :
    Workspace.preview d index { w with documents } =
      ((Workspace.preview d index w).1, { (Workspace.preview d index w).2 with documents }) := rfl

/-! ### Telling the preview -/

theorem Tracks.showEvent {p : Preview} (h : Tracks w₀ w s []) (hp : w.literals.preview = some p)
    (event : DocumentEvent) (he : ∀ d, event = .changed d → s.documents d.uri = some d) :
    ∃ w', showEvent p event w = ((), w') ∧ Tracks w₀ w' s [] ∧ w'.literals.preview = some p ∧
      w'.sent = w.sent ++ s.told w₀.render event := by
  cases event with
  | closed uri => exact ⟨w, rfl, h, hp, (List.append_nil _).symm⟩
  | changed d =>
    have hd := he d rfl
    have hact : s.active = some (p.uri, p.index) := by
      rw [← h.active, Workspace.active, hp]
      rfl
    by_cases hu : d.uri = p.uri
    · obtain ⟨regions, hpre, ht⟩ := h.preview hd p.index
      cases hr : w₀.render d p.index with
      | ok payload =>
        refine ⟨{ w with regions, sent := w.sent ++ [.updated payload] }, ?_, ht.sent _, hp, ?_⟩
        · simp only [Workspace.showEvent, if_pos hu, bind, StateT.bind, hpre, hr]
          rfl
        · simp only [Session.told, Session.updates, hact, if_pos hu, hr]
      | error e =>
        refine ⟨{ w with regions }, ?_, ht, hp, ?_⟩
        · simp only [Workspace.showEvent, if_pos hu, bind, StateT.bind, hpre, hr]
          rfl
        · simp only [Session.told, Session.updates, hact, if_pos hu, hr, List.append_nil]
    · refine ⟨w, ?_, h, hp, ?_⟩
      · simp only [Workspace.showEvent, if_neg hu]
        rfl
      · simp only [Session.told, Session.updates, hact, if_neg hu, List.append_nil]

/-- Events one after the other. -/
theorem Tracks.showEvents {p : Preview} {events : List DocumentEvent} (h : Tracks w₀ w s [])
    (hp : w.literals.preview = some p)
    (he : ∀ d, DocumentEvent.changed d ∈ events → s.documents d.uri = some d) :
    ∃ w', events.forM (Workspace.showEvent p) w = ((), w') ∧ Tracks w₀ w' s [] ∧
      w'.sent = w.sent ++ events.flatMap (s.told w₀.render) := by
  induction events generalizing w with
  | nil => exact ⟨w, rfl, h, (List.append_nil _).symm⟩
  | cons event events ih =>
    obtain ⟨w₁, hrun, ht, hp₁, hsent⟩ :=
      h.showEvent hp event fun d hd => he d (hd ▸ List.mem_cons_self ..)
    obtain ⟨w₂, hrun', ht', hsent'⟩ := ih ht hp₁ fun d hd => he d (List.mem_cons_of_mem _ hd)
    refine ⟨w₂, ?_, ht', ?_⟩
    · simp only [List.forM, bind, StateT.bind, hrun, hrun']
    · rw [hsent', hsent, List.flatMap_cons, List.append_assoc]

/-- **The preview is told about all that waits for it.** -/
theorem Tracks.deliver {events : List DocumentEvent} (h : Tracks w₀ w s events)
    (he : ∀ d, DocumentEvent.changed d ∈ events → s.documents d.uri = some d) :
    ∃ w', Workspace.deliver w = ((), w') ∧ Tracks w₀ w' s [] ∧
      w'.sent = w.sent ++ events.flatMap (s.told w₀.render) := by
  have hsubs := h.subscriptions
  have hact := h.active
  cases hp : w.literals.preview with
  | none =>
    rw [hp] at hsubs
    rw [Workspace.active, hp] at hact
    refine ⟨w, ?_, ⟨h.indexOf, h.allowComments, h.documents, h.active, h.coherent, ?_, h.fresh⟩, ?_⟩
    · simp only [Workspace.deliver, bind, StateT.bind, get, getThe, MonadStateOf.get, StateT.get,
        pure, hp]
      rfl
    · rw [hsubs, hp]
      rfl
    · rw [Session.flatMap_told_of_none _ hact.symm, List.append_nil]
  | some p =>
    rw [hp] at hsubs
    have hrun : Workspace.deliver w = events.forM (Workspace.showEvent p)
        { w with documents := { w.documents with subscriptions := [{ id := p.subscription }] } } := by
      have hdrain : w.documents.drain p.subscription =
          ((0, events), { w.documents with subscriptions := [{ id := p.subscription }] }) := by
        simp [DocumentStore.drain, hsubs]
      simp only [Workspace.deliver, bind, StateT.bind, get, getThe, MonadStateOf.get, StateT.get,
        pure, hp, hdrain]
      rfl
    rw [hrun]
    refine Tracks.showEvents ⟨h.indexOf, h.allowComments, h.documents, h.active, h.coherent, ?_,
      h.fresh⟩ hp he
    show _ = w.literals.preview.toList.map _
    rw [hp]
    rfl

/-! ### Documents -/

/-- A newer snapshot is put in its place. -/
theorem Tracks.put (h : Tracks w₀ w s [])
    (hd : ∀ old ∈ s.documents d.uri, old.version < d.version) :
    Tracks w₀ { w with documents := w.documents.put d } (s.put d) [.changed d] where
  indexOf := h.indexOf
  allowComments := h.allowComments
  documents := by rw [DocumentStore.get?_put, h.documents]; rfl
  active := h.active
  coherent := h.coherent.put hd
  subscriptions := by
    show w.documents.subscriptions.map _ = _
    rw [h.subscriptions, List.map_map]
    rfl
  fresh := h.fresh

/-- A document is closed, and its regions are forgotten. -/
theorem Tracks.close (h : Tracks w₀ w s []) (uri : Uri) :
    ∃ events, Tracks w₀
      { w with documents := w.documents.close uri, regions := w.regions.erase uri }
      (s.drop uri) events ∧ ∀ event ∈ events, event = .closed uri := by
  have hdocs : (w.documents.close uri).get? = (s.drop uri).documents := by
    rw [DocumentStore.get?_close, h.documents]
    rfl
  have hsubs : ∃ events : List DocumentEvent, (w.documents.close uri).subscriptions =
      (w.literals.preview.toList.map fun p => { id := p.subscription, pending := events }) ∧
      (w.documents.close uri).nextId = w.documents.nextId ∧
        ∀ event ∈ events, event = .closed uri := by
    unfold DocumentStore.close
    split
    · refine ⟨[.closed uri], ?_, rfl, fun event he => List.mem_singleton.1 he⟩
      show w.documents.subscriptions.map _ = _
      rw [h.subscriptions, List.map_map]
      rfl
    · exact ⟨[], h.subscriptions, rfl, by simp⟩
  obtain ⟨events, hsubs, hnext, hevents⟩ := hsubs
  exact ⟨events, ⟨h.indexOf, h.allowComments, hdocs, h.active, h.coherent.erase uri, hsubs,
    fun p hp => hnext ▸ h.fresh p hp⟩, hevents⟩

/-! ### Previews -/

/-- The documents without the subscription of the preview. -/
def unfollowed (w : Workspace) : DocumentStore :=
  match w.literals.preview with
  | some old => w.documents.unsubscribe old.subscription
  | none => w.documents

theorem startPreview_eq (p : Preview) (w : Workspace) : startPreview p w =
    ((), { w with
      documents := w.unfollowed, literals := { w.literals with preview := some p } }) := rfl

theorem stopPreview_eq (w : Workspace) : stopPreview w =
    ((), { w with
      documents := w.unfollowed, literals := { w.literals with preview := none } }) := by
  obtain ⟨documents, _, _, _, _, _, ⟨_, _, _, _, preview, _⟩, _⟩ := w
  cases preview <;> rfl

/-- Another region is followed, with a subscription of its own. -/
theorem Tracks.start (h : Tracks w₀ w s []) (uri : Uri) (index : Nat) :
    Tracks w₀ (startPreview ⟨uri, index, w.documents.subscribe.1⟩
      { w with documents := w.documents.subscribe.2 }).2
      { s with active := some (uri, index) } [] := by
  have hsubs : (unfollowed { w with documents := w.documents.subscribe.2 }).subscriptions =
      [{ id := w.documents.nextId }] := by
    have hsubs := h.subscriptions
    cases hp : w.literals.preview with
    | none =>
      rw [hp] at hsubs
      simp [unfollowed, hp, DocumentStore.subscribe, hsubs]
    | some old =>
      rw [hp] at hsubs
      -- the subscription that is given up is not the new one
      have hne : w.documents.nextId ≠ old.subscription := (h.fresh old hp).ne'
      simp [unfollowed, hp, DocumentStore.subscribe, DocumentStore.unsubscribe, hsubs, hne]
  have hrest : (unfollowed { w with documents := w.documents.subscribe.2 }).get? =
    w.documents.get? ∧
      (unfollowed { w with documents := w.documents.subscribe.2 }).nextId =
        w.documents.nextId + 1 := by
    unfold unfollowed
    split <;> exact ⟨rfl, rfl⟩
  rw [startPreview_eq]
  refine ⟨h.indexOf, h.allowComments, hrest.1.trans h.documents, rfl, h.coherent, hsubs,
    fun p hp => ?_⟩
  cases hp
  exact hrest.2 ▸ Nat.lt_succ_self _

/-- A subscription that ends at once leaves nothing behind. -/
theorem Tracks.abandon (h : Tracks w₀ w s []) :
    Tracks w₀
      { w with documents := w.documents.subscribe.2.unsubscribe w.documents.subscribe.1 } s [] := by
  refine ⟨h.indexOf, h.allowComments, h.documents, h.active, h.coherent, ?_, fun p hp => ?_⟩
  · show List.filter _ (w.documents.subscriptions ++ [_]) = _
    rw [h.subscriptions]
    cases hp : w.literals.preview with
    | none => simp [DocumentStore.subscribe]
    | some p => simp [DocumentStore.subscribe, (h.fresh p hp).ne]
  · exact (h.fresh p hp).trans (Nat.lt_succ_self _)

/-- No region is followed any more. -/
theorem Tracks.stop (h : Tracks w₀ w s []) :
    Tracks w₀ (stopPreview w).2 { s with active := none } [] := by
  have hsubs : w.unfollowed.subscriptions = [] ∧ w.unfollowed.get? = w.documents.get? := by
    have hsubs := h.subscriptions
    cases hp : w.literals.preview with
    | none =>
      rw [hp] at hsubs
      simp [unfollowed, hp, hsubs]
    | some old =>
      rw [hp] at hsubs
      simp only [unfollowed, hp]
      exact ⟨by simp [DocumentStore.unsubscribe, hsubs], rfl⟩
  rw [stopPreview_eq]
  exact ⟨h.indexOf, h.allowComments, hsubs.2.trans h.documents, rfl, h.coherent, hsubs.1,
    fun p hp => by cases hp⟩

end Workspace

/-! ### The modes -/

theorem Registry.standard_modes : Registry.standard.modes = [.literal, .host] := by
  rfl

theorem Registry.standard_execute (command : String) (arguments : List Json) :
    Registry.standard.execute command arguments = LiteralMode.execute command arguments := by
  unfold Registry.execute Registry.commandMode? LiteralMode.execute
  rw [standard_modes]
  by_cases h₁ : command = previewCommand
  · subst h₁
    rfl
  · by_cases h₂ : command = endPreviewCommand
    · subst h₂
      rfl
    · have hfind : [Mode.literal, Mode.host].find? (fun m => m.commands.contains command) =
          none := by
        simp [Mode.literal, Mode.host, h₁, h₂]
      rw [hfind, if_neg h₁, if_neg h₂]

/-! ### Commands -/

namespace Action

variable {α β : Type} {a : Action α} {w w' : Workspace}

/-- An action whose first part succeeds goes on with its result. -/
theorem run_bind_ok {x : α} (h : a.run w = (.ok x, w')) (f : α → Action β) :
    (a >>= f).run w = (f x).run w' := by
  have h' : a w = (.ok x, w') := h
  simp only [ExceptT.run, bind, ExceptT.bind, ExceptT.mk, StateT.bind, h']
  rfl

/-- An action whose first part fails is over. -/
theorem run_bind_error {e : Error} (h : a.run w = (.error e, w')) (f : α → Action β) :
    (a >>= f).run w = (.error e, w') := by
  have h' : a w = (.error e, w') := h
  simp only [ExceptT.run, bind, ExceptT.bind, ExceptT.mk, StateT.bind, h']
  rfl

theorem run_tryCatch_ok {x : α} (h : a.run w = (.ok x, w')) (f : Error → Action α) :
    (tryCatch a f).run w = (.ok x, w') := by
  have h' : a w = (.ok x, w') := h
  simp only [ExceptT.run, tryCatch, tryCatchThe, MonadExceptOf.tryCatch, ExceptT.tryCatch,
    ExceptT.mk, bind,
    StateT.bind, h']
  rfl

theorem run_tryCatch_error {e : Error} (h : a.run w = (.error e, w')) (f : Error → Action α) :
    (tryCatch a f).run w = (f e).run w' := by
  have h' : a w = (.error e, w') := h
  simp only [ExceptT.run, tryCatch, tryCatchThe, MonadExceptOf.tryCatch, ExceptT.tryCatch,
    ExceptT.mk, bind,
    StateT.bind, h']

end Action

namespace LiteralMode

variable {arguments : List Json} {uri : Uri} {index : Nat} {d : Document} {w w' : Workspace}

theorem startPreview_invalid {e : Error} (h : previewArguments arguments = .error e)
    (w : Workspace) :
    (startPreview arguments).run w = (.error e, w) := by
  unfold startPreview
  rw [h]
  rfl

/-- A region that is shown is followed by the subscription that began before. -/
theorem startPreview_shown (h : previewArguments arguments = .ok (uri, index))
    (hshow : (showRegion uri index w.documents.subscribe.1).run
      { w with documents := w.documents.subscribe.2 } = (.ok (), w')) :
    (startPreview arguments).run w = (.ok (), w') := by
  unfold startPreview
  rw [h]
  refine (Action.run_bind_ok rfl _).trans ?_
  refine (Action.run_bind_ok rfl _).trans ?_
  exact Action.run_tryCatch_ok hshow _

/-- The subscription ends when the region cannot be shown. -/
theorem startPreview_failed {e : Error} (h : previewArguments arguments = .ok (uri, index))
    (hshow : (showRegion uri index w.documents.subscribe.1).run
      { w with documents := w.documents.subscribe.2 } = (.error e, w')) :
    (startPreview arguments).run w =
      (.error e, { w' with documents := w'.documents.unsubscribe w.documents.subscribe.1 }) := by
  unfold startPreview
  rw [h]
  refine (Action.run_bind_ok rfl _).trans ?_
  refine (Action.run_bind_ok rfl _).trans ?_
  exact Action.run_tryCatch_error hshow _

variable {subscription : Nat}

theorem showRegion_unknown (hd : w.documents.get? uri = none) :
    (showRegion uri index subscription).run w = (.error (.documentNotFound uri.toString), w) := by
  unfold showRegion
  refine (Action.run_bind_ok rfl _).trans ?_
  rw [hd]
  rfl

theorem showRegion_unrendered {e : Error} (hd : w.documents.get? uri = some d)
    (hpre : Workspace.preview d index w = (.error e, w')) :
    (showRegion uri index subscription).run w = (.error e, w') := by
  unfold showRegion
  refine (Action.run_bind_ok rfl _).trans ?_
  rw [hd]
  exact Action.run_bind_error hpre _

theorem showRegion_rendered {payload : PreviewPayload} (hd : w.documents.get? uri = some d)
    (hpre : Workspace.preview d index w = (.ok payload, w')) :
    (showRegion uri index subscription).run w =
      (.ok (), (Workspace.startPreview ⟨uri, index, subscription⟩
        { w' with sent := w'.sent ++ [.opened payload] }).2) := by
  unfold showRegion
  refine (Action.run_bind_ok rfl _).trans ?_
  rw [hd]
  exact Action.run_bind_ok hpre _

end LiteralMode

namespace Workspace

variable {w₀ w : Workspace} {s : Session}

/-- A command to show a region fails as it would in the session, or shows the region and
    follows it. -/
theorem Tracks.follow (h : Tracks w₀ w s []) (arguments : List Json) :
    ∃ w', (LiteralMode.startPreview arguments).run w =
      ((s.target w₀.render arguments).map fun _ => (), w') ∧
      (∀ e, s.target w₀.render arguments = .error e → Tracks w₀ w' s [] ∧ w'.sent = w.sent) ∧
      ∀ payload region, s.target w₀.render arguments = .ok (payload, region) →
        Tracks w₀ w' { s with active := some region } [] ∧
          w'.sent = w.sent ++ [.opened payload] := by
  rcases s.target_cases w₀.render arguments with ⟨e, hargs, ht⟩ | ⟨uri, index, hargs, hd, ht⟩ |
    ⟨uri, index, d, hargs, hd, ht⟩
  · rw [ht]
    exact ⟨w, LiteralMode.startPreview_invalid hargs w, fun _ _ => ⟨h, rfl⟩,
      fun _ _ he => by cases he⟩
  · rw [← h.documents] at hd
    rw [ht]
    exact ⟨_, LiteralMode.startPreview_failed hargs (LiteralMode.showRegion_unknown hd),
      fun _ _ => ⟨h.abandon, rfl⟩, fun _ _ he => by cases he⟩
  · have hd' := hd
    rw [← h.documents] at hd'
    have huri : d.uri = uri := by simpa using List.find?_some hd'
    obtain ⟨regions, hpre, hw⟩ := h.preview (huri.symm ▸ hd) index
    have hpre' : Workspace.preview d index { w with documents := w.documents.subscribe.2 } =
        (w₀.render d index, { w with documents := w.documents.subscribe.2, regions }) := by
      rw [preview_documents, hpre]
    rw [ht]
    cases hr : w₀.render d index with
    | error e =>
      rw [hr] at hpre'
      exact ⟨_, LiteralMode.startPreview_failed hargs (LiteralMode.showRegion_unrendered hd' hpre'),
        fun _ _ => ⟨hw.abandon, rfl⟩, fun _ _ he => by cases he⟩
    | ok payload =>
      rw [hr] at hpre'
      refine ⟨_, LiteralMode.startPreview_shown hargs (LiteralMode.showRegion_rendered hd' hpre'),
        fun _ he => (by cases he), fun _ _ he => ?_⟩
      cases he
      have hstart := (hw.sent (w.sent ++ [.opened payload])).start uri index
      exact ⟨hstart, rfl⟩

/-- **A command does what it does in the session.** -/
theorem Tracks.execute (h : Tracks w₀ w s []) (command : String) (arguments : List Json) :
    ∃ w', (LiteralMode.execute command arguments).run w =
        ((s.step w₀.render (.execute command arguments)).1.1, w') ∧
      Tracks w₀ w' (s.step w₀.render (.execute command arguments)).2 [] ∧
      w'.sent = w.sent ++ (s.step w₀.render (.execute command arguments)).1.2 := by
  unfold LiteralMode.execute Session.step
  by_cases h₁ : command = previewCommand
  · obtain ⟨w', hrun, herror, hok⟩ := h.follow arguments
    simp only [if_pos h₁]
    cases ht : s.target w₀.render arguments with
    | error e =>
      rw [ht] at hrun
      obtain ⟨hw, hsent⟩ := herror e ht
      exact ⟨w', Action.run_bind_error hrun _, hw, by rw [hsent, List.append_nil]⟩
    | ok shown =>
      obtain ⟨payload, region⟩ := shown
      rw [ht] at hrun
      obtain ⟨hw, hsent⟩ := hok payload region ht
      exact ⟨w', Action.run_bind_ok hrun _, hw, hsent⟩
  · simp only [if_neg h₁]
    by_cases h₂ : command = endPreviewCommand
    · simp only [if_pos h₂]
      refine ⟨(stopPreview w).2, rfl, h.stop, ?_⟩
      rw [stopPreview_eq, List.append_nil]
    · simp only [if_neg h₂]
      exact ⟨w, rfl, h, (List.append_nil _).symm⟩

/-! ### Operations -/

/-- **An operation does what it does in the session**; what the preview has yet to be told
    about are newest snapshots. -/
theorem Tracks.perform (h : Tracks w₀ w s []) {op : SessionOp} (hop : s.Admits op) :
    ∃ w' events, op.perform.run w = ((s.step w₀.render op).1.1, w') ∧
      Tracks w₀ w' (s.step w₀.render op).2 events ∧
      (∀ d, DocumentEvent.changed d ∈ events → (s.step w₀.render op).2.documents d.uri = some d) ∧
      w'.sent ++ events.flatMap ((s.step w₀.render op).2.told w₀.render) =
        w.sent ++ (s.step w₀.render op).1.2 := by
  -- an announced snapshot is the newest one, and what is sent about it is an update
  have hannounced (d : Document) :
      (∀ d', DocumentEvent.changed d' ∈ [DocumentEvent.changed d] →
        (s.put d).documents d'.uri = some d') ∧
      w.sent ++ [DocumentEvent.changed d].flatMap ((s.put d).told w₀.render) =
        w.sent ++ s.updates w₀.render d := by
    refine ⟨fun d' hd' => ?_, by rw [List.flatMap_singleton]; rfl⟩
    cases List.mem_singleton.1 hd'
    exact Function.update_self ..
  cases op with
  | opened d => exact ⟨_, [.changed d], rfl, h.put hop, hannounced d⟩
  | changed uri version text =>
    have hdocs := congrFun h.documents uri
    cases hd : s.documents uri with
    | none =>
      rw [hd] at hdocs
      have hstep : s.step w₀.render (.changed uri version text) = ((.ok none, []), s) := by
        simp only [Session.step, hd]
      have hrun : (SessionOp.changed uri version text).perform.run w = (.ok none, w) := by
        refine (Action.run_bind_ok rfl _).trans ?_
        simp only [DocumentStore.change?, hdocs]
        rfl
      rw [hstep]
      exact ⟨w, [], hrun, h, by simp, rfl⟩
    | some old =>
      rw [hd] at hdocs
      let d := Document.ofText uri old.language version text
      have hstep : s.step w₀.render (.changed uri version text) =
          ((.ok none, s.updates w₀.render d), s.put d) := by
        simp only [Session.step, hd, d]
      have hrun : (SessionOp.changed uri version text).perform.run w =
          (.ok none, { w with documents := w.documents.put d }) := by
        refine (Action.run_bind_ok rfl _).trans ?_
        simp only [DocumentStore.change?, hdocs]
        rfl
      rw [hstep]
      exact ⟨_, [.changed d], hrun, h.put hop, hannounced d⟩
  | closed uri =>
    obtain ⟨events, ht, hevents⟩ := h.close uri
    refine ⟨_, events, rfl, ht, fun d hd => (by cases hevents _ hd), ?_⟩
    have hquiet : events.flatMap ((s.drop uri).told w₀.render) = [] := by
      refine List.flatMap_eq_nil_iff.2 fun event he => ?_
      rw [hevents event he]
      rfl
    exact congrArg (w.sent ++ ·) hquiet
  | execute command arguments =>
    obtain ⟨w', hrun, ht, hsent⟩ := h.execute command arguments
    refine ⟨w', [], ?_, ht, by simp, (List.append_nil _).trans hsent⟩
    rw [← hrun, ← Registry.standard_execute]
    rfl

/-- **A workspace stays where the session is**, whatever the operation. -/
theorem Tracks.step (h : Tracks w₀ w s []) {op : SessionOp} (hop : s.Admits op) :
    ∃ w', op.step w = ((s.step w₀.render op).1.1, w') ∧ Tracks w₀ w' (s.step w₀.render op).2 [] ∧
      w'.sent = w.sent ++ (s.step w₀.render op).1.2 := by
  obtain ⟨w₁, events, hrun, ht, hnewest, hsent⟩ := h.perform hop
  obtain ⟨w₂, hdeliver, ht', hsent'⟩ := ht.deliver hnewest
  refine ⟨w₂, ?_, ht', hsent'.trans hsent⟩
  have hrun' : op.perform w = ((s.step w₀.render op).1.1, w₁) := hrun
  simp only [SessionOp.step, ExceptT.run, bind, StateT.bind, hrun', hdeliver]
  rfl

theorem Tracks.subscriptions_length {events : List DocumentEvent} (h : Tracks w₀ w s events) :
    w.documents.subscriptions.length = s.active.toList.length := by
  rw [h.subscriptions, ← h.active, Workspace.active, List.length_map]
  cases w.literals.preview <;> rfl

theorem Tracks.session (h : Tracks w₀ w s []) {ops : List SessionOp}
    (hops : s.AdmitsAll w₀.render ops) :
    w.session ops = s.reports w₀.render ops := by
  induction ops generalizing w s with
  | nil => rfl
  | cons op ops ih =>
    obtain ⟨hop, hops⟩ := hops
    obtain ⟨w', hstep, ht, hsent⟩ := h.step hop
    simp only [Workspace.session, Session.reports, hstep]
    rw [ih ht hops, hsent, List.drop_left, ht.active, ht.subscriptions_length]

/-- A workspace in which nothing happened yet. -/
structure Blank (w : Workspace) : Prop where
  documents : w.documents.documents = []
  subscriptions : w.documents.subscriptions = []
  regions : w.regions.entries = []
  preview : w.literals.preview = none

theorem Blank.tracks (h : w.Blank) : Tracks w w {} [] where
  indexOf := rfl
  allowComments := rfl
  documents := by
    funext uri
    rw [DocumentStore.get?, h.documents]
    rfl
  active := by
    rw [Workspace.active, h.preview]
    rfl
  coherent := by
    intro e he
    rw [h.regions] at he
    cases he
  subscriptions := by
    rw [h.subscriptions, h.preview]
    rfl
  fresh := by
    intro p hp
    rw [h.preview] at hp
    cases hp

/-- Rendering fails only if there is no such region. -/
theorem render_eq_error_iff (w : Workspace) (d : Document) (index : Nat) (e : Error) :
    w.render d index = .error e ↔
      (w.findRegions w.bindings d).length ≤ index ∧ e = .regionNotFound d.uri.toString index := by
  have hlen : (w.indexOf d).regions.length = (w.findRegions w.bindings d).length :=
    List.length_mergeSort ..
  unfold render RegionIndex.preview
  rw [← hlen]
  cases hr : (w.indexOf d).regions[index]? with
  | none =>
    have hle := List.getElem?_eq_none_iff.1 hr
    simp only [Except.error.injEq, hle, true_and]
    exact eq_comm
  | some r =>
    have hlt := (List.getElem?_eq_some_iff.1 hr).1
    simp only [reduceCtorEq, false_iff, not_and]
    intro hle
    omega

/-- **Previews follow the session.**  Whatever is opened, changed, closed and commanded, results,
    messages and the region that is followed are those of the session.  There is never more
    than one subscription, and the only way not to render a region is not to have it. -/
theorem previews_follow_session {w : Workspace} (hw : w.Blank) {ops : List SessionOp}
    (hops : Session.AdmitsAll w.render {} ops) :
    w.session ops = Session.reports w.render {} ops ∧
    (∀ r ∈ w.session ops, r.subscriptions ≤ 1) ∧
    ∀ d index e, w.render d index = .error e ↔
      (w.findRegions w.bindings d).length ≤ index ∧ e = .regionNotFound d.uri.toString index := by
  have hsession := hw.tracks.session hops
  refine ⟨hsession, fun r hr => ?_, w.render_eq_error_iff⟩
  rw [hsession] at hr
  exact Session.subscriptions_le_one _ hr

/-- Finds one region, the whole text, unless it is empty. -/
def wholeTexts : Workspace :=
  { Workspace.ofSettings {} fun uri => .error (.unsupportedSchemaUri uri) with
    findRegions := fun _ d =>
      if d.text.isEmpty then []
      else [{ span := ⟨0, d.text.bytes⟩, language := literalLanguage, kind := .custom }] }

def editedUri : Uri := ⟨['f', 'i', 'l', 'e'], some {}, .segments [['a']], none, none⟩

/-- The region is shown, changes, goes away, comes back and is shown no more. -/
def edits : List SessionOp :=
  [.opened (.ofText editedUri "typescript" 1 ['n', 'u', 'l', 'l']),
    .execute previewCommand [.string "file:///a", .number (.int 0)],
    .changed editedUri 2 ['t', 'r', 'u', 'e'],
    .changed editedUri 3 [],
    .execute previewCommand [.string "file:///a", .number (.int 0)],
    .changed editedUri 4 ['n', 'u', 'l', 'l'],
    .execute endPreviewCommand [],
    .changed editedUri 5 ['t', 'r', 'u', 'e']]

theorem previews_follow_session_edits :
    wholeTexts.Blank ∧ Session.AdmitsAll wholeTexts.render {} edits ∧
    wholeTexts.session edits = Session.reports wholeTexts.render {} edits ∧
    (wholeTexts.session edits).map SessionReport.messages =
      [[], [.opened ⟨"amis", .null⟩], [.updated ⟨"amis", .bool true⟩], [], [],
        [.updated ⟨"amis", .null⟩], [], []] ∧
    (wholeTexts.session edits).map SessionReport.subscriptions = [0, 1, 1, 1, 1, 1, 0, 0] := by
  have hblank : wholeTexts.Blank := ⟨rfl, rfl, rfl, rfl⟩
  have hadmits : Session.AdmitsAll wholeTexts.render {} edits := by decide +kernel
  exact ⟨hblank, hadmits, (previews_follow_session hblank hadmits).1, by cbv, by decide +kernel⟩

end Workspace

end AnnotatedJson
