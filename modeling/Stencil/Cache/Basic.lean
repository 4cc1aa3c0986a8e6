-- SUMMARY: A bounded store of results by source, with sliding expiry and eviction.

/-! # The cache

A cache remembers what a source was turned into. Its entries stand in the order of their last use,
least recent first. An entry expires when it has not been used for the length of `sliding`; using
it starts that time anew. Expired entries are dropped when they are met, and whenever something is
stored; after that, entries are evicted from the least recently used end until their number and
their total size are within bounds.

Time is any type with a difference and an order that can be decided. A cache never reads a clock:
every operation is given the time at which it happens.
-/

namespace Stencil

/-- How long an entry is kept without use, and how many entries there may be and of what total size.
    A bound of zero or less admits no entry. -/
structure Bounds (τ : Type) where
  sliding : τ
  maxEntries : Int
  maxSize : Int

structure Entry (τ α : Type) where
  source : String
  value : α
  size : Nat
  lastAccess : τ

structure Counters where
  hits : Nat := 0
  misses : Nat := 0
  evictions : Nat := 0
  expirations : Nat := 0
  deriving DecidableEq, Repr

/-- Remembered results, the least recently used first. -/
structure Cache (τ α : Type) where
  bounds : Bounds τ
  entries : List (Entry τ α) := []
  /-- The total size of the entries, kept up to date with them. -/
  size : Int := 0
  counters : Counters := {}

namespace Cache

variable {τ α ε : Type}

def entry? (c : Cache τ α) (source : String) : Option (Entry τ α) :=
  c.entries.find? (·.source = source)

def remove (c : Cache τ α) (e : Entry τ α) : Cache τ α :=
  { c with entries := c.entries.eraseP (·.source = e.source), size := c.size - e.size }

/-- The cache with an entry used now, which makes it the most recently used one. -/
def touch (c : Cache τ α) (e : Entry τ α) (now : τ) : Cache τ α :=
  { c with
    entries := c.entries.eraseP (·.source = e.source) ++ [{ e with lastAccess := now }] }

def insert (c : Cache τ α) (source : String) (value : α) (now : τ) : Cache τ α :=
  { c with
    entries := c.entries ++ [{ source, value, size := source.length, lastAccess := now }]
    size := c.size + source.length }

def countHit (c : Cache τ α) : Cache τ α :=
  { c with counters := { c.counters with hits := c.counters.hits + 1 } }

def countMiss (c : Cache τ α) : Cache τ α :=
  { c with counters := { c.counters with misses := c.counters.misses + 1 } }

def countExpirations (c : Cache τ α) (n : Nat) : Cache τ α :=
  { c with counters := { c.counters with expirations := c.counters.expirations + n } }

def countEvictions (c : Cache τ α) (n : Nat) : Cache τ α :=
  { c with counters := { c.counters with evictions := c.counters.evictions + n } }

def clear (c : Cache τ α) : Cache τ α := { c with entries := [], size := 0 }

/-! ## Bounds -/

def totalSize : List (Entry τ α) → Int
  | [] => 0
  | e :: entries => e.size + totalSize entries

def isOver (c : Cache τ α) : Bool :=
  c.entries.length > c.bounds.maxEntries || c.size > c.bounds.maxSize

/-- The cache with the entries that `entries` lists, once those at the front that are too much are
    evicted; `evicted` have been already. -/
def evictFrom (c : Cache τ α) (evicted : Nat) : List (Entry τ α) → Cache τ α
  | [] => ({ c with entries := [] }).countEvictions evicted
  | e :: rest =>
    let c := { c with entries := e :: rest }
    if c.isOver then evictFrom { c with size := c.size - e.size } (evicted + 1) rest
    else c.countEvictions evicted

/-- Evicts the least recently used entries until the cache is within its bounds. -/
def evict (c : Cache τ α) : Cache τ α := c.evictFrom 0 c.entries

/-! ## Expiry -/

section Timed

variable [Sub τ] [LE τ] [DecidableLE τ]

def isExpired (c : Cache τ α) (now : τ) (e : Entry τ α) : Bool :=
  decide (c.bounds.sliding ≤ now - e.lastAccess)

/-- Drops the expired entries that are less recently used than every other one. -/
def dropExpired (c : Cache τ α) (now : τ) : Cache τ α :=
  let dropped := c.entries.takeWhile (c.isExpired now)
  { c with
    entries := c.entries.dropWhile (c.isExpired now)
    size := c.size - totalSize dropped }.countExpirations dropped.length

def sweep (c : Cache τ α) (now : τ) : Cache τ α := (c.dropExpired now).evict

/-! ## Operations -/

def contains (c : Cache τ α) (now : τ) (source : String) : Bool :=
  match c.entry? source with
  | none => false
  | some e => !c.isExpired now e

/-- Looks up a source and counts a hit or a miss. A hit uses the entry. An expired entry that is
    met is dropped, and the look-up is a miss. -/
def lookup (c : Cache τ α) (now : τ) (source : String) : Option α × Cache τ α :=
  match c.entry? source with
  | none => (none, c.countMiss)
  | some e =>
    if c.isExpired now e then (none, ((c.remove e).countExpirations 1).countMiss)
    else (some e.value, (c.touch e now).countHit)

/-- Stores a result, unless there is one already that has not expired, and answers the one that the
    cache holds then. -/
def store (c : Cache τ α) (now : τ) (source : String) (value : α) : α × Cache τ α :=
  match c.entry? source with
  | none => (value, (c.insert source value now).sweep now)
  | some e =>
    if c.isExpired now e then (value, ((c.remove e).insert source value now).sweep now)
    else (e.value, c.touch e now)

/-- The result for a source: the one that is found at time `before`, or else a new one, which is
    stored at time `after`. A failure is not stored. -/
def getOrParse (parse : String → Except ε α) (before after : τ) (c : Cache τ α)
    (source : String) : Except ε α × Cache τ α :=
  match c.lookup before source with
  | (some value, c) => (.ok value, c)
  | (none, c) =>
    match parse source with
    | .error e => (.error e, c)
    | .ok value =>
      let (value, c) := c.store after source value
      (.ok value, c)

end Timed

end Cache

end Stencil
