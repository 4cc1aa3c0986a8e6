-- SUMMARY: The cache that all callers share unless they bring their own.
import Stencil.Cache.Session
import Stencil.Settings.Basic

/-! # The shared cache

The shared cache is made when it is first needed, with the settings that the environment describes
at that time; from then on it stays, whatever becomes of the environment. While caching is
disabled, none is made, and every request parses anew.
-/

namespace Stencil

/-- The shared cache, if there is one yet, and the environment it is made from. -/
structure Shared where
  environment : Environment := {}
  cache : Option (Cache Float Instance) := none
  depth : Int := defaultDepth
  machine : Machine := {}
  nextSerial : Nat := 0

inductive SharedError
  | variable (error : VariableError)
  | failure (error : Failure)

namespace Shared

def boundsOf (s : Settings) : Bounds Float :=
  { sliding := s.sliding, maxEntries := s.maxEntries, maxSize := s.maxSize }

/-- The shared cache, made now if need be; none if caching is disabled. -/
def obtain (s : Shared) : Except VariableError (Option (Cache Float Instance)) :=
  match s.cache with
  | some c => .ok (some c)
  | none => do
    let settings ← Settings.ofEnvironment s.environment
    return if settings.enabled then some { bounds := boundsOf settings } else none

def prepare (s : Shared) : Except VariableError Shared := do
  return { s with cache := ← s.obtain }

/-- The template that a source is, by way of the cache if there is one: looked up at one time and
    stored at another. -/
def parsePrepared (s : Shared) (before after : Float) (source : Source) :
    Except Failure Instance × Shared :=
  let fresh (template : Template) : Instance := { serial := s.nextSerial, template }
  match s.cache with
  | none =>
    ((source.template s.depth s.machine).map fresh, { s with nextSerial := s.nextSerial + 1 })
  | some c =>
    let parser (text : String) := (parseTemplate text s.depth s.machine).map fresh
    let (result, c) := c.request parser before after source
    (result, { s with cache := some c, nextSerial := s.nextSerial + 1 })

def parse (s : Shared) (before : Float) (source : Source) (after : Float := before) :
    Except SharedError Instance × Shared :=
  match s.prepare with
  | .error e => (.error (.variable e), s)
  | .ok s =>
    let (result, s) := s.parsePrepared before after source
    (result.mapError .failure, s)

/-- Like `parse`, but an error in the source is answered by its report. -/
def tryParse (s : Shared) (before : Float) (source : Source) (after : Float := before) :
    Except SharedError (Except String Instance) × Shared :=
  match s.prepare with
  | .error e => (.error (.variable e), s)
  | .ok s =>
    let (result, s) := s.parsePrepared before after source
    ((catchParseError result).mapError .failure, s)

def clear (s : Shared) : Except SharedError Unit × Shared :=
  match s.prepare with
  | .error e => (.error (.variable e), s)
  | .ok s => (.ok (), { s with cache := s.cache.map Cache.clear })

def bounds (s : Shared) : Except SharedError (Option (Bounds Float)) × Shared :=
  match s.prepare with
  | .error e => (.error (.variable e), s)
  | .ok s => (.ok (s.cache.map (·.bounds)), s)

def setEnvironment (s : Shared) (e : Environment) : Shared := { s with environment := e }

end Shared

end Stencil
