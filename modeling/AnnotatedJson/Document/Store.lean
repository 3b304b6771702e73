/-
  The open documents, and who is told about their changes.

  * `DocumentStore` holds the newest snapshot of each open document;
  * a subscription collects the events since it was last drained.  It holds a
    bounded number of them: the oldest are lost, and counted.
-/
import AnnotatedJson.Document.Basic

namespace AnnotatedJson

/-- A change to the open documents. -/
inductive DocumentEvent where
  /-- A document was opened, or its text changed. -/
  | changed (document : Document)
  | closed (uri : Uri)

/-- Events that wait for a subscriber. -/
structure Subscription where
  id : Nat
  pending : List DocumentEvent := []
  /-- How many events were lost. -/
  lost : Nat := 0

/-- The open documents. -/
structure DocumentStore where
  documents : List Document := []
  subscriptions : List Subscription := []
  /-- The number of the next subscription. -/
  nextId : Nat := 0

/-- How many events may wait for a subscriber. -/
def Subscription.capacity : Nat := 64

/-- Adds an event; the oldest one is lost if there are too many. -/
def Subscription.push (s : Subscription) (e : DocumentEvent) : Subscription :=
  let all := s.pending ++ [e]
  let excess := all.length - capacity
  { s with pending := all.drop excess, lost := s.lost + excess }

namespace DocumentStore

/-- The newest snapshot of a document. -/
def get? (s : DocumentStore) (uri : Uri) : Option Document :=
  s.documents.find? fun d => d.uri = uri

/-- Tells all subscribers. -/
def announce (s : DocumentStore) (e : DocumentEvent) : DocumentStore :=
  { s with subscriptions := s.subscriptions.map fun t => t.push e }

/-- Opens a document, or replaces its snapshot. -/
def put (s : DocumentStore) (d : Document) : DocumentStore :=
  let others := s.documents.filter fun e => e.uri ≠ d.uri
  { s with documents := others ++ [d] }.announce (.changed d)

/-- Gives an open document a new text; its language stays. -/
def change? (s : DocumentStore) (uri : Uri) (version : Int) (text : Text) :
    Option (Document × DocumentStore) :=
  (s.get? uri).map fun old =>
    let d := Document.ofText uri old.language version text
    (d, s.put d)

/-- Closes a document. -/
def close (s : DocumentStore) (uri : Uri) : DocumentStore :=
  match s.get? uri with
  | some _ =>
    let others := s.documents.filter fun d => d.uri ≠ uri
    { s with documents := others }.announce (.closed uri)
  | none => s

/-- All snapshots, in the order of their URIs. -/
def all (s : DocumentStore) : List Document :=
  s.documents.mergeSort fun a b => a.uri.toString ≤ b.uri.toString

/-- Begins a subscription and gives its number. -/
def subscribe (s : DocumentStore) : Nat × DocumentStore :=
  (s.nextId,
    { s with
      subscriptions := s.subscriptions ++ [{ id := s.nextId }]
      nextId := s.nextId + 1 })

/-- Ends a subscription. -/
def unsubscribe (s : DocumentStore) (id : Nat) : DocumentStore :=
  { s with subscriptions := s.subscriptions.filter fun t => t.id ≠ id }

/-- Takes what waits for a subscriber: how many events were lost before, and the events. -/
def drain (s : DocumentStore) (id : Nat) : (Nat × List DocumentEvent) × DocumentStore :=
  match s.subscriptions.find? fun t => t.id = id with
  | some t =>
    ((t.lost, t.pending),
      { s with subscriptions := s.subscriptions.map fun u =>
          if u.id = id then { id := id } else u })
  | none => ((0, []), s)

end DocumentStore

end AnnotatedJson
