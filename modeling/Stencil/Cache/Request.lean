-- SUMMARY: Requests to a cache by callers whose source need not be text.
import Stencil.Cache.Basic
import Stencil.Parse

/-! # Requests

Callers may hand in anything as a source. What can be looked up is looked up, and since only text
is ever stored that is a miss; a value with parts cannot be looked up at all, and nothing is
counted. Whoever asks for a template then fails, because a value that is no text has no length.
-/

namespace Stencil.Cache

variable {τ α : Type} [Sub τ] [LE τ] [DecidableLE τ]

def lookupSource (c : Cache τ α) (now : τ) : Source → Except Failure (Option α) × Cache τ α
  | .text source =>
    let (found, c) := c.lookup now source
    (.ok found, c)
  | .other kind =>
    if kind.isKey then (.ok none, c.countMiss) else (.error (.source (.noKey kind)), c)

def request (parse : String → Except Failure α) (before after : τ) (c : Cache τ α)
    (source : Source) : Except Failure α × Cache τ α :=
  match source with
  | .text text => c.getOrParse parse before after text
  | .other kind =>
    match c.lookupSource before source with
    | (.error e, c) => (.error e, c)
    | (.ok _, c) => (.error (.source (.noLength kind)), c)

def containsSource (c : Cache τ α) (now : τ) : Source → Except Failure Bool
  | .text source => .ok (c.contains now source)
  | .other kind => if kind.isKey then .ok false else .error (.source (.noKey kind))

end Stencil.Cache
