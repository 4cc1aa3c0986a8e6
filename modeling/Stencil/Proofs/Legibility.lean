-- SUMMARY: Templates that can be read from their written form, and how that is decided.
import Stencil.Proofs.Lexemes

/-! # Legibility

A template is rendered with the fewest blanks that its tags can do with, and nothing is escaped.
That goes wrong in three places: literal text may look like a tag or escape the tag after it, an
expression may look like the opening or the closing of a block once the blanks in front of it are
gone, and the blank before a bar may take the word `in` off the name before it. A template that has
none of these is legible.
-/

namespace Stencil

open Text (isBlank)

/-- A text that would lose its last word if a blank followed it. -/
def EndsInWord (s : List Char) : Prop := ∃ u c, s = u ++ [c, 'i', 'n'] ∧ isBlank c = true

/-! ## Conditions -/

/-- The name that the path ends in when it is written, if that is no indexer. -/
def SymbolPath.lastName? (p : SymbolPath) : Option Identifier :=
  match p.rest.getLast? with
  | none => some p.root
  | some (.name i) => some i
  | some (.index _) => none

namespace Expression

/-- The name that the expression ends in when it is written, if that is no indexer. -/
def lastName? : Expression → Option Identifier
  | .path p => p.lastName?
  | .call _ function _ _ => some function

/-- The stages of a chain that a bar follows. -/
def arguments : Expression → List Expression
  | .path _ => []
  | .call _ _ argument _ => argument :: argument.arguments

/-- What the expression is written as does not look like the inside of a block's tag, and no stage
    of it would lose its last word to the blank before a bar. -/
structure Legible (e : Expression) : Prop where
  no_closing : e.render.toList.head? ≠ some '/'
  no_opening : ¬StartsBlock e.render.toList
  no_in : ∀ stage ∈ e.arguments, ∀ name ∈ stage.lastName?,
    ¬EndsInWord (name.text.toList.dropWhile isBlank)

end Expression

mutual

/-- What the segment is written as is read as that segment, given whether it is the last one of the
    template. -/
def Segment.Legible (last : Bool) : Segment → Prop
  | .text fragments _ =>
    ¬['#', '{'] <:+: (String.join fragments).toList ∧
      (last = false → (String.join fragments).toList.getLast? ≠ some '#')
  | .substitution expression _ => expression.Legible
  | .conditional _ _ body _ => Segment.AllLegible false body
  | .repetition _ _ body _ => Segment.AllLegible false body

/-- All the segments are legible; `last` says whether they are the last ones of the template. -/
def Segment.AllLegible (last : Bool) : List Segment → Prop
  | [] => True
  | s :: rest => s.Legible (last && rest.isEmpty) ∧ Segment.AllLegible last rest

end

/-- Literal text neither contains `#{` nor, but at the end of the template, ends in a hash mark, and
    the expressions of all substitutions are legible. -/
def Template.Legible (t : Template) : Prop := Segment.AllLegible true t.segments

/-! ## Decidability -/

/-- What looks like the inside of an opening is what is read as one. -/
theorem startsBlock_iff (s : List Char) :
    StartsBlock s ↔
      ∃ kind ∈ [BlockKind.holds, .fails, .each], kind.readOpener ('#' :: '{' :: s) ≠ none := by
  have hkind : ∀ kind, kind ∈ [BlockKind.holds, .fails, .each] := by
    intro kind
    cases kind <;> simp
  constructor
  · rintro ⟨kind, keyword, c, t, hs, hkeyword, hc⟩
    refine ⟨kind, hkind kind, ?_⟩
    intro hnone
    rw [(readOpener_eq_none_iff kind s).1 hnone keyword c t hs hkeyword] at hc
    cases hc
  · rintro ⟨kind, -, hread⟩
    by_contra hblock
    apply hread
    apply (readOpener_eq_none_iff kind s).2
    intro keyword c t hs hkeyword
    by_contra hc
    exact hblock ⟨kind, keyword, c, t, hs, hkeyword, by simpa using hc⟩

/-- Whether a name ends in the word can be seen from its last three characters. -/
theorem endsInWord_iff (s : List Char) :
    EndsInWord s ↔ s.reverse.take 2 = ['n', 'i'] ∧ (s.reverse.drop 2).head?.any isBlank = true := by
  constructor
  · rintro ⟨u, c, rfl, hc⟩
    simp [hc]
  · rintro ⟨htake, hdrop⟩
    cases hrest : s.reverse.drop 2 with
    | nil => simp [hrest] at hdrop
    | cons c u =>
      refine ⟨u.reverse, c, ?_, by simpa [hrest] using hdrop⟩
      apply List.reverse_injective
      rw [← List.take_append_drop 2 s.reverse, htake, hrest]
      simp

instance (s : List Char) : Decidable (StartsBlock s) :=
  decidable_of_iff _ (startsBlock_iff s).symm

instance (s : List Char) : Decidable (EndsInWord s) :=
  decidable_of_iff _ (endsInWord_iff s).symm

instance (e : Expression) : Decidable e.Legible :=
  decidable_of_iff
    (e.render.toList.head? ≠ some '/' ∧ ¬StartsBlock e.render.toList ∧
      ∀ stage ∈ e.arguments, ∀ name ∈ stage.lastName?,
        ¬EndsInWord (name.text.toList.dropWhile isBlank))
    ⟨fun ⟨hclosing, hopening, hin⟩ => ⟨hclosing, hopening, hin⟩,
      fun ⟨hclosing, hopening, hin⟩ => ⟨hclosing, hopening, hin⟩⟩

mutual

def Segment.decideLegible (last : Bool) : (s : Segment) → Decidable (s.Legible last)
  | .text fragments _ =>
    inferInstanceAs (Decidable (¬['#', '{'] <:+: (String.join fragments).toList ∧
      (last = false → (String.join fragments).toList.getLast? ≠ some '#')))
  | .substitution expression _ => inferInstanceAs (Decidable expression.Legible)
  | .conditional _ _ body _ => Segment.decideAllLegible false body
  | .repetition _ _ body _ => Segment.decideAllLegible false body

def Segment.decideAllLegible (last : Bool) :
    (segments : List Segment) → Decidable (Segment.AllLegible last segments)
  | [] => isTrue trivial
  | s :: rest =>
    have := s.decideLegible (last && rest.isEmpty)
    have := Segment.decideAllLegible last rest
    inferInstanceAs (Decidable (s.Legible (last && rest.isEmpty) ∧ Segment.AllLegible last rest))

end

instance (t : Template) : Decidable t.Legible := Segment.decideAllLegible true t.segments

end Stencil
