/-
  Histories of a cache in which requests overlap.

  A request that has to make its artifact leaves the cache alone meanwhile, and
  other steps may run until the artifact is stored.

  * `CacheStep` is a step, with the steps that run inside it;
  * `CacheStep.run` carries out a step.
-/
import AnnotatedJson.Cache.Basic

namespace AnnotatedJson

/-- What makes the artifacts, with a state of its own. -/
structure Maker (σ α : Type) where
  make : Document → σ → α × σ
  configure : Settings → σ → σ

/-- A step of a history. -/
inductive CacheStep where
  /-- Asks for the artifact of a document. -/
  | get (document : Document) (during : List CacheStep)
  /-- Makes the artifact anew, if there is an entry. -/
  | update (document : Document) (during : List CacheStep)
  /-- Looks at an entry without using it. -/
  | peek (uri : Uri)
  | erase (uri : Uri)
  | configure (settings : Settings)
  | dispose
  /-- Drops entries that were last used before a second, counted from now. -/
  | purge (delay : Int)
  | advance (secs : Nat)
deriving Inhabited

/-- What a step answers. -/
inductive CacheAnswer (α : Type) where
  | artifact (value : α)
  | count (n : Nat)
  | nothing

/-- A cache with the state of its maker. -/
structure CacheWorld (σ α : Type) where
  cache : ArtifactCache α
  state : σ

variable {σ α : Type}

mutual

/-- Carries out a step. -/
def CacheStep.run (maker : Maker σ α) (w : CacheWorld σ α) :
    CacheStep → CacheAnswer α × CacheWorld σ α
  | .get d during =>
    match w.cache.lookup d with
    | (some artifact, cache) => (.artifact artifact, { w with cache })
    | (none, cache) =>
      let (artifact, state) := maker.make d w.state
      let w := CacheStep.runAll maker ⟨cache, state⟩ during
      (.artifact artifact, { w with cache := w.cache.insert d artifact cache.generation })
  | .update d during =>
    if (w.cache.entry? d.uri).isSome then
      let generation := w.cache.generation
      let (artifact, state) := maker.make d w.state
      let w := CacheStep.runAll maker { w with state } during
      (.nothing, { w with cache := w.cache.insert d artifact generation })
    else (.nothing, w)
  | .peek uri =>
    match w.cache.get? uri with
    | some artifact => (.artifact artifact, w)
    | none => (.nothing, w)
  | .erase uri => (.nothing, { w with cache := w.cache.erase uri })
  | .configure settings =>
    (.nothing, ⟨w.cache.configure settings.cache.options, maker.configure settings w.state⟩)
  | .dispose => (.nothing, { w with cache := w.cache.dispose })
  | .purge delay =>
    let (count, cache) := w.cache.purge ((w.cache.now : Int) + delay)
    (.count count, { w with cache })
  | .advance secs => (.nothing, { w with cache := w.cache.advance secs })

/-- Carries out steps one after another. -/
def CacheStep.runAll (maker : Maker σ α) (w : CacheWorld σ α) : List CacheStep → CacheWorld σ α
  | [] => w
  | s :: rest => CacheStep.runAll maker (s.run maker w).2 rest

end

end AnnotatedJson
