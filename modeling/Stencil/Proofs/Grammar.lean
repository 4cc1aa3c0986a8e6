-- SUMMARY: The grammar of templates: how phrases are written and what they stand for.
import Mathlib.Data.List.Forall2
import Stencil.Parse

/-! # The grammar of templates

This is the language of templates said without a reader: no tokens, no state and no order of
trials. A phrase is laid out as its author wrote it, blanks and the case of keywords included.

* `written` spells a phrase out; the source of a template is what its phrases spell.
* `Fits` says what a phrase has to be like, given the text right after it. Names, literal text and
  the openings of tags look at what follows them, and take up as much as they can.
* `segment` is what a phrase stands for, given the text before it, which decides on positions.
-/

namespace Stencil

open Text (isBlank trimEnd)
open Name (isNameChar)

/-- Blanks and nothing else. -/
def AllBlank (s : List Char) : Prop := ∀ c ∈ s, isBlank c = true

/-! ## Names -/

/-- A text before which a name does not go on over a blank. -/
def EndsName (following : List Char) : Prop :=
  (∃ s, following = '|' :: s) ∨ (∃ c s, following = 'i' :: 'n' :: c :: s ∧ isBlank c = true)

/-- A name goes on over a character that the given text follows. -/
def GoesOn (c : Char) (following : List Char) : Prop :=
  isNameChar c = true ∨ (isBlank c = true ∧ ¬EndsName following)

/-- The longest name in front of the text that follows it. -/
structure IsName (written following : List Char) : Prop where
  starts : ∃ c s, written = c :: s ∧ isNameChar c = true
  goesOn : ∀ u c v, written = u ++ c :: v → GoesOn c (v ++ following)
  ends : ∀ c s, following = c :: s → ¬GoesOn c s

/-! ## Literal text -/

/-- A unit of literal text. -/
inductive PieceForm
  /-- Characters other than a hash mark. -/
  | run (chars : List Char)
  | lastHash
  | hashBeforeTag
  | escape
  | hashAnd (c : Char)

namespace PieceForm

def written : PieceForm → List Char
  | .run chars => chars
  | .lastHash => ['#']
  | .hashBeforeTag => ['#', '#']
  | .escape => ['#', '#', '{']
  | .hashAnd c => ['#', c]

def meaning : PieceForm → List Char
  | .run chars => chars
  | .lastHash => ['#']
  | .hashBeforeTag => ['#']
  | .escape => ['#', '{']
  | .hashAnd c => ['#', c]

/-- The piece may stand before the given text, and no piece listed before it could stand in its
    place. -/
def Fits (following : List Char) : PieceForm → Prop
  | .run chars => chars ≠ [] ∧ '#' ∉ chars ∧ ∀ c s, following = c :: s → c = '#'
  | .lastHash => following = []
  | .hashBeforeTag => ∃ s, following = '#' :: '{' :: s
  | .escape => True
  | .hashAnd c => c ≠ '{' ∧
      (c = '#' → ∀ s, following ≠ '#' :: '{' :: s ∧ following ≠ '{' :: s)

def writtenAll (pieces : List PieceForm) : List Char := pieces.flatMap written

@[simp] theorem writtenAll_nil : writtenAll [] = [] := rfl

@[simp] theorem writtenAll_cons (piece : PieceForm) (pieces : List PieceForm) :
    writtenAll (piece :: pieces) = piece.written ++ writtenAll pieces := rfl

/-- Every piece fits, and no further one could be added. -/
def AllFit (following : List Char) : List PieceForm → Prop
  | [] => ∀ piece s, following = written piece ++ s → ¬piece.Fits s
  | piece :: pieces => piece.Fits (writtenAll pieces ++ following) ∧ AllFit following pieces

end PieceForm

/-! ## Paths -/

/-- A step after the root of a path. The gap is what stands between it and the step before. -/
inductive StepForm
  | name (gap blanks chars : List Char)
  | index (gap chars : List Char) (chars_ne : chars ≠ [])

namespace StepForm

def gap : StepForm → List Char
  | .name gap _ _ => gap
  | .index gap _ _ => gap

def written : StepForm → List Char
  | .name gap blanks chars => gap ++ '.' :: (blanks ++ chars)
  | .index gap chars _ => gap ++ '[' :: (chars ++ [']'])

def Fits (following : List Char) : StepForm → Prop
  | .name gap blanks chars => AllBlank gap ∧ AllBlank blanks ∧ IsName chars following
  | .index gap chars _ => AllBlank gap ∧ ']' ∉ chars

def writtenAll (steps : List StepForm) : List Char := steps.flatMap written

@[simp] theorem writtenAll_nil : writtenAll [] = [] := rfl

@[simp] theorem writtenAll_cons (step : StepForm) (steps : List StepForm) :
    writtenAll (step :: steps) = step.written ++ writtenAll steps := rfl

def AllFit (following : List Char) : List StepForm → Prop
  | [] => True
  | step :: steps => step.Fits (writtenAll steps ++ following) ∧ AllFit following steps

/-- A step starts with blanks and a mark, which tells its kind. -/
theorem exists_mark {step : StepForm} {following : List Char} (h : step.Fits following) :
    ∃ mark t, (mark = '.' ∨ mark = '[') ∧ step.written = step.gap ++ mark :: t ∧
      AllBlank step.gap := by
  cases step with
  | name gap blanks chars => exact ⟨'.', blanks ++ chars, .inl rfl, rfl, h.1⟩
  | index gap chars hne => exact ⟨'[', chars ++ [']'], .inr rfl, rfl, h.1⟩

/-- The step that is written after a text. The last name of a path leaves out the blanks after it;
    any other keeps all that touch it. -/
def step (before : List Char) (last : Bool) : StepForm → Step
  | .name gap blanks chars =>
    .name
      { text := String.ofList (if last then trimEnd (blanks ++ chars) else blanks ++ chars)
        position := some (.after (before ++ gap ++ ['.'])) }
  | .index gap chars chars_ne =>
    .index
      { index := String.ofList chars
        position := some (.after (before ++ gap))
        index_ne := by simpa using chars_ne }

/-- The steps that are written after a text. -/
def stepsOf (before : List Char) : List StepForm → List Step
  | [] => []
  | step :: steps => step.step before steps.isEmpty :: stepsOf (before ++ step.written) steps

end StepForm

/-- A path: its root and its further steps. -/
structure PathForm where
  root : List Char
  steps : List StepForm

namespace PathForm

def written (p : PathForm) : List Char := p.root ++ StepForm.writtenAll p.steps

def Fits (following : List Char) (p : PathForm) : Prop :=
  IsName p.root (StepForm.writtenAll p.steps ++ following) ∧ StepForm.AllFit following p.steps

/-- No blank stands between two steps. Those after a name belong to the name, so this concerns what
    follows an indexer. -/
def Tight (p : PathForm) : Prop := ∀ step ∈ p.steps, step.gap = []

/-- The path that is written after a text. -/
def path (before : List Char) (p : PathForm) : SymbolPath :=
  let root := if p.steps.isEmpty then trimEnd p.root else p.root
  { root := { text := String.ofList root, position := some (.after before) }
    rest := StepForm.stepsOf (before ++ p.root) p.steps
    position := some (.after before) }

end PathForm

/-! ## Tags -/

/-- A filter. The gap is what stands between it and what it is applied to. -/
structure FilterForm where
  gap : List Char
  blanks : List Char
  chars : List Char

namespace FilterForm

def written (f : FilterForm) : List Char := f.gap ++ '|' :: (f.blanks ++ f.chars)

def Fits (following : List Char) (f : FilterForm) : Prop :=
  AllBlank f.gap ∧ AllBlank f.blanks ∧ IsName f.chars following

def writtenAll (filters : List FilterForm) : List Char := filters.flatMap written

@[simp] theorem writtenAll_nil : writtenAll [] = [] := rfl

@[simp] theorem writtenAll_cons (f : FilterForm) (filters : List FilterForm) :
    writtenAll (f :: filters) = f.written ++ writtenAll filters := rfl

def AllFit (following : List Char) : List FilterForm → Prop
  | [] => True
  | f :: filters => f.Fits (writtenAll filters ++ following) ∧ AllFit following filters

/-- The name of the filter that is written after a text. -/
def name (before : List Char) (f : FilterForm) : Identifier :=
  { text := String.ofList (trimEnd f.chars)
    position := some (.after (before ++ f.gap ++ '|' :: f.blanks)) }

/-- The names of the filters that are written after a text. -/
def names (before : List Char) : List FilterForm → List Identifier
  | [] => []
  | f :: filters => f.name before :: names (before ++ f.written) filters

end FilterForm

/-- A word written in any case. -/
def InAnyCase (word : String) (written : List Char) : Prop :=
  List.Forall₂ (fun letter c => isLetter letter c = true) word.toList written

/-- A text that looks like the inside of the opening of a block: a keyword and a blank. -/
def StartsBlock (s : List Char) : Prop :=
  ∃ (kind : BlockKind) (keyword : List Char) (c : Char) (t : List Char),
    s = keyword ++ c :: t ∧ InAnyCase kind.keyword keyword ∧ isBlank c = true

/-- The opening tag of a block. -/
inductive HeadForm
  | condition (negated : Bool) (keyword blanks : List Char) (subject : PathForm)
      (trail : List Char)
  | loop (keyword blanks enumerator gap inBlanks : List Char) (collection : PathForm)
      (trail : List Char)

/-- The kind of a conditional block. -/
def conditionKind (negated : Bool) : BlockKind := if negated then .fails else .holds

namespace HeadForm

def kind : HeadForm → BlockKind
  | .condition negated .. => conditionKind negated
  | .loop .. => .each

def path : HeadForm → PathForm
  | .condition _ _ _ subject _ => subject
  | .loop _ _ _ _ _ collection _ => collection

def written : HeadForm → List Char
  | .condition _ keyword blanks subject trail =>
    '#' :: '{' :: (keyword ++ blanks ++ subject.written ++ trail ++ ['}'])
  | .loop keyword blanks enumerator gap inBlanks collection trail =>
    '#' :: '{' :: (keyword ++ blanks ++ enumerator ++ gap ++ 'i' :: 'n' :: inBlanks ++
      collection.written ++ trail ++ ['}'])

def Fits (following : List Char) : HeadForm → Prop
  | .condition negated keyword blanks subject trail =>
    InAnyCase (conditionKind negated).keyword keyword ∧ AllBlank blanks ∧ blanks ≠ [] ∧
      subject.Fits (trail ++ '}' :: following) ∧ AllBlank trail
  | .loop keyword blanks enumerator gap inBlanks collection trail =>
    InAnyCase BlockKind.each.keyword keyword ∧ AllBlank blanks ∧ blanks ≠ [] ∧
      IsName enumerator
        (gap ++ 'i' :: 'n' :: inBlanks ++ collection.written ++ trail ++ '}' :: following) ∧
      AllBlank gap ∧ AllBlank inBlanks ∧ inBlanks ≠ [] ∧
      collection.Fits (trail ++ '}' :: following) ∧ AllBlank trail

end HeadForm

/-! ## Phrases -/

/-- What a template is a sequence of. -/
inductive Phrase
  | text (pieces : List PieceForm)
  | substitution (blanks : List Char) (subject : PathForm) (filters : List FilterForm)
      (trail : List Char)
  | block (head : HeadForm) (body : List Phrase)

namespace Phrase

/-- What a substitution has between its opening and what follows the whole of it. -/
def inside (blanks : List Char) (subject : PathForm) (filters : List FilterForm)
    (trail following : List Char) : List Char :=
  blanks ++ subject.written ++ FilterForm.writtenAll filters ++ trail ++ '}' :: following

mutual

def written : Phrase → List Char
  | .text pieces => PieceForm.writtenAll pieces
  | .substitution blanks subject filters trail =>
    '#' :: '{' :: inside blanks subject filters trail []
  | .block head body => head.written ++ writtenAll body ++ head.kind.closer.toList

def writtenAll : List Phrase → List Char
  | [] => []
  | phrase :: phrases => phrase.written ++ writtenAll phrases

end

mutual

/-- The phrase may stand before the given text. -/
def Fits (following : List Char) : Phrase → Prop
  | .text pieces => pieces ≠ [] ∧ PieceForm.AllFit following pieces
  | .substitution blanks subject filters trail =>
    (∀ s, inside blanks subject filters trail following ≠ '/' :: s) ∧
      ¬StartsBlock (inside blanks subject filters trail following) ∧
      AllBlank blanks ∧
      subject.Fits (FilterForm.writtenAll filters ++ trail ++ '}' :: following) ∧
      FilterForm.AllFit (trail ++ '}' :: following) filters ∧ AllBlank trail
  | .block head body =>
    head.Fits (writtenAll body ++ head.kind.closer.toList ++ following) ∧
      AllFit (head.kind.closer.toList ++ following) body

def AllFit (following : List Char) : List Phrase → Prop
  | [] => True
  | phrase :: phrases =>
    phrase.Fits (writtenAll phrases ++ following) ∧ AllFit following phrases

end

mutual

/-- The paths in a phrase. -/
def paths : Phrase → List PathForm
  | .text _ => []
  | .substitution _ subject _ _ => [subject]
  | .block head body => head.path :: pathsAll body

def pathsAll : List Phrase → List PathForm
  | [] => []
  | phrase :: phrases => phrase.paths ++ pathsAll phrases

end

mutual

/-- How many blocks of a phrase stand around a point in it at most. -/
def depth : Phrase → Nat
  | .text _ => 0
  | .substitution .. => 0
  | .block _ body => depthAll body + 1

def depthAll : List Phrase → Nat
  | [] => 0
  | phrase :: phrases => max phrase.depth (depthAll phrases)

end

mutual

/-- The segment that is written after a text. -/
def segment (before : List Char) : Phrase → Segment
  | .text pieces =>
    .text (pieces.map fun piece => String.ofList piece.meaning) (some (.after before))
  | .substitution blanks subject filters _ =>
    let start := before ++ '#' :: '{' :: blanks
    .substitution
      (.fold (.path (subject.path start)) (FilterForm.names (start ++ subject.written) filters))
      (some (.after before))
  | .block (.condition negated keyword blanks subject trail) body =>
    let head := HeadForm.condition negated keyword blanks subject trail
    .conditional negated (subject.path (before ++ '#' :: '{' :: (keyword ++ blanks)))
      (segments (before ++ head.written) body) (some (.after before))
  | .block (.loop keyword blanks enumerator gap inBlanks collection trail) body =>
    let head := HeadForm.loop keyword blanks enumerator gap inBlanks collection trail
    let start := before ++ '#' :: '{' :: (keyword ++ blanks)
    .repetition
      { text := String.ofList (trimEnd enumerator), position := some (.after start) }
      (collection.path (start ++ enumerator ++ gap ++ 'i' :: 'n' :: inBlanks))
      (segments (before ++ head.written) body) (some (.after before))

/-- The segments that are written after a text. -/
def segments (before : List Char) : List Phrase → List Segment
  | [] => []
  | phrase :: phrases =>
    phrase.segment before :: segments (before ++ phrase.written) phrases

end

/-- The template that phrases from the start of a source on stand for. -/
def template (phrases : List Phrase) : Template := { segments := segments [] phrases }

/-- The phrases are what the source consists of, from its start to its end. -/
def Derives (source : List Char) (phrases : List Phrase) : Prop :=
  writtenAll phrases = source ∧ AllFit [] phrases

end Phrase

end Stencil
