-- SUMMARY: Whatever is asked of a cache, it answers with what the parser makes of the source.
import Mathlib.Data.List.Basic
import Stencil.Proofs.Cache.Entries
import Stencil.Proofs.Cache.Run

/-! # Transparency

A cache cannot be told from the parser behind it. What makes this so is that every entry holds what
the parser makes of its source: entries come from the parser, or from clients that used it, and no
operation moves a template to another source. Neither the bounds nor the clock matter, so nothing
is assumed about either.
-/

namespace Stencil

variable {τ : Type}

/-- The client stores only what the parser makes of the source. -/
def Operation.Honest (parser : String → Except Failure Template) : Operation τ → Prop
  | .store _ source value => parser source = .ok value.template
  | _ => True

/-- The answer says what the parser makes of the source. A look-up may also find nothing. -/
def Answer.Faithful (parser : String → Except Failure Template) : Operation τ → Answer → Prop
  | .get _ source, .found value => ∀ i, value = some i → parser source = .ok i.template
  | .parse _ _ source _, .parsed result => result.map Instance.template = parser source
  | .tryParse _ _ source _, .tried result =>
    result.map (Except.map Instance.template) = catchParseError (parser source)
  | .store _ source _, .stored value => parser source = .ok value.template
  | .contains .., .contained _ => True
  | .size, .size _ => True
  | .stats, .stats .. => True
  | .clear, .cleared => True
  | _, _ => False

namespace Cache

/-- Every entry holds what the parser makes of its source. -/
def Genuine (parser : String → Except Failure Template) (c : Cache τ Instance) : Prop :=
  ∀ e ∈ c.entries, parser e.source = .ok e.value.template

section

variable [Sub τ] [LE τ] [DecidableLE τ] {parser : String → Except Failure Template}
  {c : Cache τ Instance}

/-- A look-up only drops entries or moves them. -/
theorem Genuine.lookup (h : c.Genuine parser) (now : τ) (source : String) :
    (c.lookup now source).2.Genuine parser := by
  intro e he
  obtain ⟨d, hd, hsource, hvalue⟩ := mem_lookup he
  rw [← hsource, ← hvalue]
  exact h d hd

/-- A store adds an entry only for what it is given. -/
theorem Genuine.store (h : c.Genuine parser) (now : τ) {source : String} {value : Instance}
    (hvalue : parser source = .ok value.template) :
    (c.store now source value).2.Genuine parser := by
  intro e he
  rcases mem_store he with ⟨hs, hv⟩ | ⟨d, hd, hs, hv⟩
  · rw [hs, hv]
    exact hvalue
  · rw [← hs, ← hv]
    exact h d hd

theorem parser_eq_of_numbered {serial : Nat} {source : String} {value : Instance}
    (h : Operation.numbered parser serial source = .ok value) :
    parser source = .ok value.template := by
  unfold Operation.numbered at h
  cases hp : parser source with
  | error e =>
    rw [hp] at h
    cases h
  | ok t =>
    rw [hp] at h
    cases h
    rfl

theorem Genuine.getOrParse (h : c.Genuine parser) (before after : τ) (source : String)
    (serial : Nat) :
    (c.getOrParse (Operation.numbered parser serial) before after source).2.Genuine parser :=
  getOrParse_invariant c h (fun _ hc => hc.lookup before source)
    fun _ _ hc hparse => hc.store after (parser_eq_of_numbered hparse)

/-- What a look-up finds is what the parser makes of the source. -/
theorem Genuine.lookup_answer (h : c.Genuine parser) {now : τ} {source : String} {i : Instance}
    (hi : (c.lookup now source).1 = some i) : parser source = .ok i.template := by
  obtain ⟨e, he, rfl, rfl⟩ := exists_of_lookup hi
  exact h e he

/-- A store answers what the parser makes of the source, be it the new result or the one that was
    there. -/
theorem Genuine.store_answer (h : c.Genuine parser) (now : τ) {source : String} {value : Instance}
    (hvalue : parser source = .ok value.template) :
    parser source = .ok (c.store now source value).1.template := by
  rcases Cache.store_answer c now source value with hv | ⟨e, he, rfl, hv⟩
  · rw [hv]
    exact hvalue
  · rw [← hv]
    exact h e he

/-- The result for a source is what the parser makes of it, from wherever it comes. -/
theorem Genuine.getOrParse_answer (h : c.Genuine parser) (before after : τ) (source : String)
    (serial : Nat) :
    (c.getOrParse (Operation.numbered parser serial) before after source).1.map
      Instance.template = parser source := by
  unfold Cache.getOrParse
  split
  · next value c' hfound =>
    have hi : (c.lookup before source).1 = some value := by rw [hfound]
    exact (h.lookup_answer hi).symm
  · next c' hfound =>
    have hc' : c'.Genuine parser := by
      have := h.lookup before source
      rwa [hfound] at this
    cases hparse : Operation.numbered parser serial source with
    | error e =>
      unfold Operation.numbered at hparse
      cases hp : parser source with
      | error e' =>
        rw [hp] at hparse
        cases hparse
        rfl
      | ok t =>
        rw [hp] at hparse
        cases hparse
    | ok value => exact (hc'.store_answer after (parser_eq_of_numbered hparse)).symm

end

end Cache

namespace Operation

variable [Sub τ] [LE τ] [DecidableLE τ] {parser : String → Except Failure Template}
  {c : Cache τ Instance}

/-- Every operation of an honest client leaves genuine entries. -/
theorem genuine_perform {op : Operation τ} (hop : op.Honest parser) (h : c.Genuine parser) :
    (op.perform parser c).2.Genuine parser := by
  cases op with
  | get now source => exact h.lookup now source
  | parse before after source serial => exact h.getOrParse before after source serial
  | tryParse before after source serial => exact h.getOrParse before after source serial
  | store now source value => exact h.store now hop
  | clear =>
    intro e he
    cases he
  | contains | size | stats => exact h

end Operation

end Stencil
