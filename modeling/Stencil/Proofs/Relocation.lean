-- SUMMARY: Phrases stand for the same segments behind another text, at the places they have there.
import Stencil.Proofs.Grammar

/-! # Relocation

What a phrase stands for depends on the text before it in one way only: it decides on positions.
Behind a longer text a phrase therefore stands for the same segment, with every position in it moved
to where it is then.
-/

namespace Stencil

/-! ## Positions replaced -/

def Identifier.mapPosition (f : Position → Position) (i : Identifier) : Identifier :=
  { i with position := i.position.map f }

def Indexer.mapPosition (f : Position → Position) (i : Indexer) : Indexer :=
  { i with position := i.position.map f }

def Step.mapPosition (f : Position → Position) : Step → Step
  | .name i => .name (i.mapPosition f)
  | .index i => .index (i.mapPosition f)

def SymbolPath.mapPosition (f : Position → Position) (p : SymbolPath) : SymbolPath where
  root := p.root.mapPosition f
  rest := p.rest.map (Step.mapPosition f)
  position := p.position.map f

def Expression.mapPosition (f : Position → Position) : Expression → Expression
  | .path p => .path (p.mapPosition f)
  | .call isFilter function argument position =>
    .call isFilter (function.mapPosition f) (argument.mapPosition f) (position.map f)

namespace Segment

mutual

/-- The segment with all positions in it replaced. -/
def mapPosition (f : Position → Position) : Segment → Segment
  | .text fragments position => .text fragments (position.map f)
  | .substitution expression position =>
    .substitution (expression.mapPosition f) (position.map f)
  | .conditional negated subject body position =>
    .conditional negated (subject.mapPosition f) (mapPositions f body) (position.map f)
  | .repetition enumerator collection body position =>
    .repetition (enumerator.mapPosition f) (collection.mapPosition f) (mapPositions f body)
      (position.map f)

def mapPositions (f : Position → Position) : List Segment → List Segment
  | [] => []
  | s :: rest => s.mapPosition f :: mapPositions f rest

end

end Segment

/-! ## Positions moved -/

/-- The places in a text that follows another one are moved to where they are with a further text in
    front. -/
def Moves (f : Position → Position) (front before s : List Char) : Prop :=
  ∀ u v, s = u ++ v → f (.after (before ++ u)) = .after (front ++ before ++ u)

namespace Moves

variable {f : Position → Position} {front before s t : List Char}

theorem start (h : Moves f front before s) : f (.after before) = .after (front ++ before) := by
  simpa using h [] s rfl

theorem left (h : Moves f front before (s ++ t)) : Moves f front before s := by
  intro u v huv
  exact h u (v ++ t) (by rw [huv, List.append_assoc])

theorem right (h : Moves f front before (s ++ t)) : Moves f front (before ++ s) t := by
  intro u v huv
  have := h (s ++ u) v (by rw [huv, List.append_assoc])
  simpa using this

end Moves

/-! ## Segments of phrases -/

section Moved

variable {f : Position → Position} {front : List Char}

theorem StepForm.step_moved {before : List Char} {step : StepForm}
    (h : Moves f front before step.written) (last : Bool) :
    step.step (front ++ before) last = (step.step before last).mapPosition f := by
  cases step with
  | name gap blanks chars =>
    have hname := h (gap ++ ['.']) (blanks ++ chars) (by simp [written])
    simp_all [StepForm.step, Step.mapPosition, Identifier.mapPosition]
  | index gap chars chars_ne =>
    have hbracket := h gap ('[' :: (chars ++ [']'])) rfl
    simp_all [StepForm.step, Step.mapPosition, Indexer.mapPosition]

theorem StepForm.stepsOf_moved {before : List Char} {steps : List StepForm}
    (h : Moves f front before (writtenAll steps)) :
    stepsOf (front ++ before) steps = (stepsOf before steps).map (Step.mapPosition f) := by
  induction steps generalizing before with
  | nil => rfl
  | cons step steps ih =>
    rw [writtenAll_cons] at h
    rw [stepsOf, stepsOf, List.map_cons, step_moved h.left, List.append_assoc, ih h.right]

theorem PathForm.path_moved {before : List Char} {p : PathForm}
    (h : Moves f front before p.written) :
    p.path (front ++ before) = (p.path before).mapPosition f := by
  have hsteps := StepForm.stepsOf_moved h.right
  simp [path, SymbolPath.mapPosition, Identifier.mapPosition, h.start, hsteps]

theorem FilterForm.names_moved {before : List Char} {filters : List FilterForm}
    (h : Moves f front before (writtenAll filters)) :
    names (front ++ before) filters = (names before filters).map (Identifier.mapPosition f) := by
  induction filters generalizing before with
  | nil => rfl
  | cons filter filters ih =>
    rw [writtenAll_cons] at h
    have hname := h.left (filter.gap ++ '|' :: filter.blanks) filter.chars (by simp [written])
    rw [names, names, List.map_cons, List.append_assoc, ih h.right]
    simp_all [name, Identifier.mapPosition]

theorem Expression.fold_moved (e : Expression) (names : List Identifier) :
    fold (e.mapPosition f) (names.map (Identifier.mapPosition f)) =
      (fold e names).mapPosition f := by
  induction names generalizing e with
  | nil => rfl
  | cons name names ih => exact ih (.call true name e name.position)

mutual

/-- Behind another text a phrase stands for the same segment, with its positions moved. -/
theorem Phrase.segment_moved {before : List Char} :
    ∀ {phrase : Phrase}, Moves f front before phrase.written →
      phrase.segment (front ++ before) = (phrase.segment before).mapPosition f
  | .text pieces, h => by simp [segment, Segment.mapPosition, h.start]
  | .substitution blanks subject filters trail, h => by
    have hstart := h.start
    have hw : written (.substitution blanks subject filters trail) =
        '#' :: '{' :: blanks ++ (subject.written ++ (FilterForm.writtenAll filters ++
          (trail ++ ['}']))) := by simp [written, inside]
    rw [hw] at h
    have hpath := PathForm.path_moved h.right.left
    have hnames := FilterForm.names_moved h.right.right.left
    simp only [List.append_assoc] at hpath hnames
    simp only [segment, Segment.mapPosition, Option.map_some, hstart, ← Expression.fold_moved,
      Expression.mapPosition, List.append_assoc, hpath, hnames]
  | .block (.condition negated keyword blanks subject trail) body, h => by
    have hstart := h.start
    have hbody := Phrase.segments_moved h.left.right
    have hw : HeadForm.written (.condition negated keyword blanks subject trail) =
        '#' :: '{' :: (keyword ++ blanks) ++ (subject.written ++ (trail ++ ['}'])) := by
      simp [HeadForm.written]
    have hhead := h.left.left
    rw [hw] at hhead
    have hpath := PathForm.path_moved hhead.right.left
    simp only [segment, Segment.mapPosition, Option.map_some, hstart, List.append_assoc, hpath,
      hbody]
  | .block (.loop keyword blanks enumerator gap inBlanks collection trail) body, h => by
    have hstart := h.start
    have hbody := Phrase.segments_moved h.left.right
    have hw : HeadForm.written (.loop keyword blanks enumerator gap inBlanks collection trail) =
        '#' :: '{' :: (keyword ++ blanks) ++ (enumerator ++ gap ++ 'i' :: 'n' :: inBlanks ++
          (collection.written ++ (trail ++ ['}']))) := by
      simp [HeadForm.written]
    have hhead := h.left.left
    rw [hw] at hhead
    have hname := hhead.right.start
    have hpath := PathForm.path_moved hhead.right.right.left
    simp only [List.append_assoc] at hname hpath hbody
    simp only [segment, Segment.mapPosition, Identifier.mapPosition, Option.map_some, hstart,
      List.append_assoc, hname, hpath, hbody]

/-- Behind a further text, phrases stand for the same segments at other places. -/
theorem Phrase.segments_moved {before : List Char} :
    ∀ {phrases : List Phrase}, Moves f front before (writtenAll phrases) →
      segments (front ++ before) phrases = Segment.mapPositions f (segments before phrases)
  | [], _ => rfl
  | phrase :: phrases, h => by
    rw [writtenAll] at h
    rw [segments, segments, Segment.mapPositions, Phrase.segment_moved h.left,
      List.append_assoc, Phrase.segments_moved h.right]

end

end Moved

end Stencil
