-- SUMMARY: What clients ask of a cache of templates, one request after the other, and its answers.
import Stencil.Cache.Session
import Stencil.Proofs.Cache.Entries

/-! # Runs of a cache

A run is a sequence of operations on a cache, each with the readings of the clock that it takes.
Nothing is assumed about the clock here. The parser is a function of the source; it is called only
where an operation comes to that, and the template it makes gets the serial number that the
operation carries.
-/

namespace Stencil

/-- What a client asks of a cache. -/
inductive Operation (τ : Type)
  | get (now : τ) (source : String)
  | parse (before after : τ) (source : String) (serial : Nat)
  | tryParse (before after : τ) (source : String) (serial : Nat)
  | store (now : τ) (source : String) (value : Instance)
  | contains (now : τ) (source : String)
  | size
  | stats
  | clear

/-- What a cache answers. -/
inductive Answer
  | found (value : Option Instance)
  | parsed (result : Except Failure Instance)
  | tried (result : Except Failure (Except String Instance))
  | stored (value : Instance)
  | contained (holds : Bool)
  | size (entries : Nat)
  | stats (counters : Counters) (entries : Nat) (size : Int)
  | cleared

namespace Operation

variable {τ : Type}

/-- The readings of the clock, in the order in which they are taken. Parsing takes the second one
    only if nothing is found; else any time after the first may stand for it. -/
def times : Operation τ → List τ
  | .get now _ => [now]
  | .parse before after _ _ => [before, after]
  | .tryParse before after _ _ => [before, after]
  | .store now _ _ => [now]
  | .contains now _ => [now]
  | .size => []
  | .stats => []
  | .clear => []

variable [Sub τ] [LE τ] [DecidableLE τ] (parser : String → Except Failure Template)

/-- The parser, with a number for the template that it makes. -/
def numbered (serial : Nat) (source : String) : Except Failure Instance :=
  (parser source).map (Instance.mk serial)

/-- What an operation answers, and the cache after it. -/
def perform (c : Cache τ Instance) : Operation τ → Answer × Cache τ Instance
  | .get now source =>
    let (value, c) := c.lookup now source
    (.found value, c)
  | .parse before after source serial =>
    let (result, c) := c.getOrParse (numbered parser serial) before after source
    (.parsed result, c)
  | .tryParse before after source serial =>
    let (result, c) := c.getOrParse (numbered parser serial) before after source
    (.tried (catchParseError result), c)
  | .store now source value =>
    let (value, c) := c.store now source value
    (.stored value, c)
  | .contains now source => (.contained (c.contains now source), c)
  | .size => (.size c.entries.length, c)
  | .stats => (.stats c.counters c.entries.length c.size, c)
  | .clear => (.cleared, c.clear)

/-- The operations of a run, each with its answer. -/
def trace (c : Cache τ Instance) : List (Operation τ) → List (Operation τ × Answer)
  | [] => []
  | op :: ops => (op, (op.perform parser c).1) :: trace (op.perform parser c).2 ops

end Operation

/-! ## One step -/

namespace Cache

variable {τ α ε : Type} [Sub τ] [LE τ] [DecidableLE τ]

/-- What holds of a cache and is kept by look-ups, and by the storing of what the parser makes, is
    kept by asking for the result for a source. -/
theorem getOrParse_invariant {P : Cache τ α → Prop} {parse : String → Except ε α}
    {before after : τ} {source : String} (c : Cache τ α) (h : P c)
    (hlookup : ∀ c, P c → P (c.lookup before source).2)
    (hstore : ∀ c value, P c → parse source = .ok value → P (c.store after source value).2) :
    P (c.getOrParse parse before after source).2 := by
  have hc := hlookup c h
  unfold getOrParse
  split
  · next value c' hfound =>
    rw [hfound] at hc
    exact hc
  · next c' hfound =>
    rw [hfound] at hc
    cases hparse : parse source with
    | error e => exact hc
    | ok value => exact hstore c' value hc hparse

end Cache

namespace Operation

variable {τ : Type} [Sub τ] [LE τ] [DecidableLE τ] (parser : String → Except Failure Template)

/-- What holds of a cache and is kept by look-ups, by storing and by clearing is kept by every
    operation. -/
theorem perform_invariant {P : Cache τ Instance → Prop}
    (hlookup : ∀ c now source, P c → P (c.lookup now source).2)
    (hstore : ∀ c now source value, P c → P (c.store now source value).2)
    (hclear : ∀ c, P c → P c.clear) (op : Operation τ) {c : Cache τ Instance} (h : P c) :
    P (op.perform parser c).2 := by
  have hparse : ∀ before after source serial,
      P (c.getOrParse (numbered parser serial) before after source).2 :=
    fun before after source serial => Cache.getOrParse_invariant c h
      (fun c hc => hlookup c before source hc) fun c value hc _ => hstore c after source value hc
  cases op with
  | get now source => exact hlookup c now source h
  | parse before after source serial => exact hparse before after source serial
  | tryParse before after source serial => exact hparse before after source serial
  | store now source value => exact hstore c now source value h
  | clear => exact hclear c h
  | contains | size | stats => exact h

theorem bounds_perform (op : Operation τ) (c : Cache τ Instance) :
    (op.perform parser c).2.bounds = c.bounds := by
  refine perform_invariant parser (P := fun d => d.bounds = c.bounds) ?_ ?_ ?_ op rfl
  · intro d now source hd
    rw [Cache.lookup_bounds, hd]
  · intro d now source value hd
    rw [Cache.store_bounds, hd]
  · intro d hd
    exact hd

end Operation

end Stencil
