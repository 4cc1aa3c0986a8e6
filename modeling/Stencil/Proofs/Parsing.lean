-- SUMMARY: Which sources are templates, which template each of them is, how all others fail.
import Stencil.Proofs.Building
import Stencil.Proofs.Unambiguity

/-! # Parsing

Reading and building together: a source is a template if the grammar derives it, its blocks are
nested no deeper than allowed and no blank follows an indexer inside a path. It is then the template
that its derivation stands for. Any other source fails with a parse error.
-/

namespace Stencil

/-- The phrases are what a source consists of, and it can be built within a limit on the depth of
    blocks, on a machine with room for them. -/
structure Phrase.Parses (source : List Char) (limit : Int) (machine : Machine)
    (phrases : List Phrase) : Prop where
  derives : Derives source phrases
  tight : ∀ p ∈ pathsAll phrases, p.Tight
  depth_le : depthAll phrases ≤ limit.toNat
  depth_le_room : depthAll phrases ≤ machine.room

/-- The nesting of phrases is accepted if it is no deeper than the limit. -/
theorem checkNesting_nodes (source : String) (limit : Int) (phrases : List Phrase) :
    YieldsIf (checkNesting source limit (Phrase.nodes [] [] phrases))
      (Phrase.depthAll phrases ≤ limit.toNat) () := by
  have hiff := Phrase.lastTooDeep?_nodes [] [] limit.toNat phrases
  rw [checkNesting, Node.findBeyond?_stacked]
  split
  · next h => exact (YieldsIf.ok _).congr (iff_of_true trivial (hiff.1 h))
  · next p h =>
    refine (YieldsIf.error _ _).congr (iff_of_false not_false fun hle => ?_)
    rw [hiff.2 hle] at h
    cases h

/-- Once the nesting is checked, a template is built from the outline of its source. -/
theorem parseTemplate_of_outline {source : String} {limit : Int} {outline : List Node}
    (houtline : readOutline source.toList = .ok outline)
    (hcheck : checkNesting source limit outline = .ok ()) (machine : Machine) :
    parseTemplate source limit machine =
      Node.segments source machine outline >>= fun segments => .ok ⟨segments⟩ := by
  simp only [parseTemplate, houtline, hcheck, Except.mapError, bind, Except.bind, pure, Except.pure]

/-- Whether there is a result can be computed. -/
theorem exists_of_toBool {ε α : Type} {result : Except ε α} (h : result.toBool = true) :
    ∃ a, result = .ok a := by
  cases result with
  | error => cases h
  | ok a => exact ⟨a, rfl⟩

theorem exists_error_of_toBool {ε α : Type} {result : Except ε α} (h : result.toBool = false) :
    ∃ e, result = .error e := by
  cases result with
  | error e => exact ⟨e, rfl⟩
  | ok => cases h

/-- What the grammar derives is parsed if it can be built. -/
theorem parseTemplate_of_derives {source : String} (limit : Int) (machine : Machine)
    {phrases : List Phrase} (h : Phrase.Derives source.toList phrases) :
    YieldsIf (parseTemplate source limit machine)
      (Phrase.Parses source.toList limit machine phrases) (Phrase.template phrases) := by
  have hnesting := checkNesting_nodes source limit phrases
  have hsource : source.toList = [] ++ (Phrase.writtenAll phrases ++ []) := by simp [h.1]
  have hsegments := Phrase.segments_nodes source machine hsource h.2
  simp only [parseTemplate, readOutline_of_derives h, Except.mapError]
  refine (hnesting.bind (hsegments.map _)).congr ?_
  constructor
  · rintro ⟨hlimit, hbuild, htight⟩
    exact ⟨h, htight, hlimit, hbuild⟩
  · rintro ⟨-, htight, hlimit, hbuild⟩
    exact ⟨hlimit, hbuild, htight⟩

section Limits

variable (limit : Int) (machine : Machine)

/-- A source that cannot be read is no template. -/
theorem parseTemplate_of_fault {source : String} {f : Fault}
    (h : readOutline source.toList = .error f) :
    parseTemplate source limit machine = .error (.parse (.ofFault source f)) := by
  simp only [parseTemplate, h, Except.mapError, bind, Except.bind]

/-- What the grammar does not derive is no template. -/
theorem parseTemplate_of_not_derives {source : String}
    (h : ∀ phrases, ¬Phrase.Derives source.toList phrases) :
    ∃ e, parseTemplate source limit machine = .error (.parse e) := by
  cases hread : readOutline source.toList with
  | error f => exact ⟨_, parseTemplate_of_fault limit machine hread⟩
  | ok nodes =>
    obtain ⟨phrases, hphrases, -⟩ := derives_of_readOutline hread
    exact absurd hphrases (h phrases)

/-- Whether a source is parsed is decided by the grammar and the limits. -/
theorem parses_or_parseError (source : String) :
    (∃ phrases, Phrase.Parses source.toList limit machine phrases) ∨
      ∃ e, parseTemplate source limit machine = .error (.parse e) := by
  by_cases hderives : ∃ phrases, Phrase.Derives source.toList phrases
  · obtain ⟨phrases, hphrases⟩ := hderives
    by_cases hparses : Phrase.Parses source.toList limit machine phrases
    · exact .inl ⟨phrases, hparses⟩
    · exact .inr ((parseTemplate_of_derives limit machine hphrases).2 hparses)
  · exact .inr (parseTemplate_of_not_derives limit machine (not_exists.1 hderives))

end Limits

/-- A template is what the phrases of its source stand for. -/
theorem parses_of_parseTemplate {source : String} {limit : Int} {machine : Machine} {t : Template}
    (h : parseTemplate source limit machine = .ok t) :
    ∃ phrases, Phrase.Parses source.toList limit machine phrases ∧
      t = Phrase.template phrases := by
  rcases parses_or_parseError limit machine source with ⟨phrases, hparses⟩ | ⟨e, he⟩
  · rw [(parseTemplate_of_derives limit machine hparses.derives).1 hparses] at h
    exact ⟨phrases, hparses, (Except.ok.inj h).symm⟩
  · rw [he] at h
    cases h

/-- Exactly the sources of the grammar are parsed, each in one way: what is returned stands for the
    only phrases that make up the source. Whatever is refused is refused with a parse error. -/
theorem parseTemplate_iff_parses (source : String) (limit : Int) (machine : Machine) :
    (∀ t, parseTemplate source limit machine = .ok t ↔
      ∃ phrases, Phrase.Parses source.toList limit machine phrases ∧
        t = Phrase.template phrases) ∧
    (∀ phrases phrases', Phrase.Derives source.toList phrases →
      Phrase.Derives source.toList phrases' → phrases = phrases') ∧
    ((∃ phrases, Phrase.Parses source.toList limit machine phrases) ∨
      ∃ e, parseTemplate source limit machine = .error (.parse e)) := by
  refine ⟨fun t => ⟨parses_of_parseTemplate, ?_⟩, fun _ _ h h' => h.unique h',
    parses_or_parseError limit machine source⟩
  rintro ⟨phrases, hparses, rfl⟩
  exact (parseTemplate_of_derives limit machine hparses.derives).1 hparses

end Stencil
