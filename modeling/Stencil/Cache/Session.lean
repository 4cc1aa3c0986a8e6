-- SUMMARY: A cache of templates in use: with a clock and with a parser that takes time.
import Stencil.Cache.Request
import Stencil.Number.Binary

/-! # Sessions

A session is a cache together with the clock that it reads and the parser that it calls. Parsing
takes a fixed time, which passes on the clock between the look-up and the storing. Every template
that the parser makes has a serial number of its own, so that two equal templates can be told
apart.
-/

namespace Stencil

structure Instance where
  serial : Nat
  template : Template

structure Session where
  cache : Cache Number Instance
  now : Number
  /-- How long parsing takes. -/
  cost : Number
  depth : Int
  machine : Machine := {}
  /-- How often the parser has been called by the cache. -/
  calls : Nat := 0
  nextSerial : Nat := 0

namespace Session

/-- The template that a source is, parsed only if it is not in the cache. -/
def parse (s : Session) (source : Source) : Except Failure Instance × Session :=
  let parser (text : String) := do
    let template ← parseTemplate text s.depth s.machine
    return ({ serial := s.nextSerial, template } : Instance)
  let after := s.now + s.cost
  let (result, cache) := s.cache.request parser s.now after source
  match source with
  | .text text =>
    if s.cache.contains s.now text then (result, { s with cache })
    else
      let s := { s with cache, now := after, calls := s.calls + 1, nextSerial := s.nextSerial + 1 }
      (result, s)
  | .other _ => (result, { s with cache })

/-- Like `parse`, but an error in the source is answered by its report. -/
def tryParse (s : Session) (source : Source) :
    Except Failure (Except String Instance) × Session :=
  let (result, s) := s.parse source
  (catchParseError result, s)

def get (s : Session) (source : Source) : Except Failure (Option Instance) × Session :=
  let (result, cache) := s.cache.lookupSource s.now source
  (result, { s with cache })

/-- Stores a template that was made elsewhere from a source, as happens when two callers parse the
    same source at once. Answers the one that the cache holds then. -/
def store (s : Session) (source : Source) : Except Failure Instance × Session :=
  match source with
  | .other kind => (.error (.source (.notText kind)), s)
  | .text text =>
    match parseTemplate text defaultDepth s.machine with
    | .error e => (.error e, s)
    | .ok template =>
      let (held, cache) := s.cache.store s.now text { serial := s.nextSerial, template }
      (.ok held, { s with cache, nextSerial := s.nextSerial + 1 })

def contains (s : Session) (source : Source) : Except Failure Bool :=
  s.cache.containsSource s.now source

def clear (s : Session) : Session := { s with cache := s.cache.clear }

/-- Lets time pass, backwards if it is negative. -/
def advance (s : Session) (time : Number) : Session := { s with now := s.now + time }

end Session

end Stencil
