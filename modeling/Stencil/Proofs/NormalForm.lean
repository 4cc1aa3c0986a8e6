-- SUMMARY: The normal form that every parsed template has, at any depth.
import Stencil.Proofs.Concatenation
import Stencil.Proofs.PathText

/-! # Normal form

The types of templates allow more than a source can say. What was read from a source is in normal
form: literal text is in one piece, cut into fragments none of which is empty; a conditional has a
body for one case only; names are made of name characters and blanks, the blanks being those that
count; and what stands between brackets holds no closing bracket. This says so for every list of
segments in a template, the bodies of blocks included.
-/

namespace Stencil

open Text (isBlank trimEnd)
open Name (isNameChar)

/-! ## Names and paths -/

/-- The text does not end in a blank. -/
def EndsVisible (s : List Char) : Prop := ∀ u c, s = u ++ [c] → isBlank c = false

/-- A name as a template keeps it: of name characters and blanks, with a name character in it, and
    without the word `in` between two blanks unless these are at its start. -/
structure Identifier.IsNormal (i : Identifier) : Prop where
  chars : ∀ c ∈ i.text.toList, isNameChar c = true ∨ isBlank c = true
  exists_nameChar : ∃ c ∈ i.text.toList, isNameChar c = true
  no_in : ¬HoldsIn (i.text.toList.dropWhile isBlank)

/-- There is something to the name, and no blanks are at its ends. -/
structure Identifier.IsTrimmed (i : Identifier) : Prop where
  text_ne : i.text ≠ ""
  starts : StartsVisible i.text.toList
  ends : EndsVisible i.text.toList

def Step.IsNormal : Step → Prop
  | .name i => i.IsNormal
  | .index i => i.index ≠ "" ∧ ']' ∉ i.index.toList

/-- Each step is in normal form, and there are no blanks at the ends of the path. -/
structure SymbolPath.IsNormal (p : SymbolPath) : Prop where
  steps : ∀ step ∈ p.steps, step.IsNormal
  starts : ∃ root rest, p.steps = .name root :: rest ∧ StartsVisible root.text.toList
  ends : ∀ i, p.steps.getLast? = some (.name i) → EndsVisible i.text.toList

def Expression.IsNormal : Expression → Prop
  | .path p => p.IsNormal
  | .call _ function argument _ =>
    function.IsNormal ∧ function.IsTrimmed ∧ argument.IsNormal

/-! ## Segments -/

namespace Segment

/-- The bodies that a conditional is put together from: the one for the case that its subject holds,
    and the one for the other case. -/
def HasBranches (s : Segment) (truthy falsy : List Segment) : Prop :=
  ∃ subject negated position, conditionalOf subject truthy falsy negated position = .ok s

/-- There are bodies that the segment is put together from, and one of them is empty: the one for
    the case that the subject holds if the conditional is negated, and else the other one. -/
def IsOneSided (s : Segment) (negated : Bool) : Prop :=
  (∃ truthy falsy, s.HasBranches truthy falsy) ∧
    ∀ truthy falsy, s.HasBranches truthy falsy → if negated then truthy = [] else falsy = []

mutual

def IsNormal : Segment → Prop
  | .text fragments _ => fragments ≠ [] ∧ "" ∉ fragments
  | .substitution expression _ => expression.IsNormal
  | .conditional negated subject body position =>
    (Segment.conditional negated subject body position).IsOneSided negated ∧ subject.IsNormal ∧
      AllNormal body
  | .repetition enumerator collection body _ =>
    enumerator.IsNormal ∧ enumerator.IsTrimmed ∧ collection.IsNormal ∧ AllNormal body

/-- All the segments are in normal form, and no text stands next to another one. -/
def AllNormal : List Segment → Prop
  | [] => True
  | s :: rest =>
    s.IsNormal ∧ (∀ next ∈ rest.head?, ¬(s.isText = true ∧ next.isText = true)) ∧ AllNormal rest

end

end Segment

def Template.IsNormal (t : Template) : Prop := Segment.AllNormal t.segments

/-! ## Names of phrases -/

theorem IsNameText.startsVisible {s : List Char} (h : IsNameText s) : StartsVisible s := by
  obtain ⟨c, t, rfl, hc⟩ := h.starts
  intro d u hd
  obtain ⟨rfl, -⟩ := List.cons.inj hd
  exact isBlank_of_isNameChar hc

theorem IsName.isNameText_trimEnd {name following : List Char} (h : IsName name following) :
    IsNameText (trimEnd name) :=
  (h.trimEnd_before_mark .nil).isNameText

theorem endsVisible_trimEnd (s : List Char) : EndsVisible (trimEnd s) :=
  fun _ _ h => isBlank_of_trimEnd_eq h

/-- A name may have blanks in front that belong to it. -/
theorem IsNameText.isNormal {i : Identifier} {blanks chars : List Char} (h : IsNameText chars)
    (hblanks : AllBlank blanks) (hi : i.text.toList = blanks ++ chars) : i.IsNormal := by
  refine ⟨?_, ?_, ?_⟩
  · rw [hi]
    exact List.forall_mem_append.2 ⟨fun c hc => .inr (hblanks c hc), h.chars⟩
  · obtain ⟨c, s, rfl, hc⟩ := h.starts
    exact ⟨c, by simp [hi], hc⟩
  · rw [hi, dropWhile_blanks hblanks h.startsVisible]
    exact h.no_in

/-- A name without the blanks after it is in normal form and trimmed. -/
theorem IsName.isNormal_trimEnd {name following : List Char} (h : IsName name following)
    (position : Option Position) :
    Identifier.IsNormal ⟨String.ofList (trimEnd name), position⟩ ∧
      Identifier.IsTrimmed ⟨String.ofList (trimEnd name), position⟩ := by
  have htext := h.isNameText_trimEnd
  have hne : trimEnd name ≠ [] := by
    obtain ⟨c, s, hs, -⟩ := htext.starts
    simp [hs]
  refine ⟨htext.isNormal .nil (by simp), by simpa using hne, ?_, ?_⟩
  · simpa using htext.startsVisible
  · simpa using endsVisible_trimEnd name

/-! ## Paths of phrases -/

theorem StepForm.Fits.isNormal_step {following : List Char} {step : StepForm}
    (h : step.Fits following) (before : List Char) (last : Bool) :
    (step.step before last).IsNormal := by
  cases step with
  | name gap blanks chars =>
    obtain ⟨-, hblanks, hname⟩ := h
    cases last with
    | false => exact hname.isNameText.isNormal hblanks (by simp)
    | true => exact hname.isNameText_trimEnd.isNormal hblanks (by simp [hname.trimEnd_append])
  | index gap chars chars_ne => exact ⟨by simpa using chars_ne, by simpa using h.2⟩

theorem StepForm.AllFit.isNormal_stepsOf {following : List Char} {steps : List StepForm}
    (h : AllFit following steps) (before : List Char) :
    ∀ step ∈ stepsOf before steps, step.IsNormal := by
  induction steps generalizing before with
  | nil => nofun
  | cons step steps ih =>
    exact List.forall_mem_cons.2 ⟨h.1.isNormal_step before _, ih h.2 _⟩

/-- The last step is written without the blanks after it. -/
theorem StepForm.endsVisible_stepsOf {before : List Char} {steps : List StepForm} {i : Identifier}
    (h : (stepsOf before steps).getLast? = some (.name i)) : EndsVisible i.text.toList := by
  induction steps generalizing before with
  | nil => cases h
  | cons step steps ih =>
    cases steps with
    | cons next steps => exact ih h
    | nil =>
      cases step with
      | index gap chars chars_ne => cases h
      | name gap blanks chars =>
        cases h
        simpa using endsVisible_trimEnd (blanks ++ chars)

/-- A path that fits has a root and steps in normal form. -/
theorem PathForm.Fits.isNormal_path {following : List Char} {p : PathForm} (h : p.Fits following)
    (before : List Char) : (p.path before).IsNormal := by
  obtain ⟨root, steps⟩ := p
  obtain ⟨hroot, hsteps⟩ := h
  cases steps with
  | nil =>
    obtain ⟨hnormal, htrimmed⟩ := hroot.isNormal_trimEnd (some (.after before))
    refine ⟨List.forall_mem_singleton.2 hnormal, ⟨_, _, rfl, htrimmed.starts⟩, ?_⟩
    intro i hi
    cases hi
    exact htrimmed.ends
  | cons step steps =>
    refine ⟨List.forall_mem_cons.2 ⟨?_, hsteps.isNormal_stepsOf _⟩, ⟨_, _, rfl, ?_⟩, ?_⟩
    · exact hroot.isNameText.isNormal .nil (by simp [path])
    · simpa [path] using hroot.isNameText.startsVisible
    · intro i hi
      rw [SymbolPath.steps, path, StepForm.stepsOf, List.getLast?_cons_cons] at hi
      have hlast : (StepForm.stepsOf (before ++ root) (step :: steps)).getLast? =
          some (.name i) := hi
      exact StepForm.endsVisible_stepsOf hlast

theorem FilterForm.AllFit.isNormal_fold {following : List Char} {filters : List FilterForm}
    (h : AllFit following filters) (before : List Char) {e : Expression} (he : e.IsNormal) :
    (e.fold (names before filters)).IsNormal := by
  induction filters generalizing before e with
  | nil => exact he
  | cons f filters ih =>
    obtain ⟨hnormal, htrimmed⟩ := h.1.2.2.isNormal_trimEnd (f.name before).position
    exact ih h.2 _ ⟨hnormal, htrimmed, he⟩

/-! ## Phrases -/

theorem PieceForm.AllFit.meaning_ne {following : List Char} {pieces : List PieceForm}
    (h : AllFit following pieces) : ∀ piece ∈ pieces, piece.meaning ≠ [] := by
  induction pieces with
  | nil => nofun
  | cons piece pieces ih => exact List.forall_mem_cons.2 ⟨h.1.meaning_ne, ih h.2⟩

/-- Literal text goes on up to a tag, so what follows it is none. -/
theorem Phrase.not_isText_of_endsText {phrase : Phrase} {following : List Char}
    (h : phrase.Fits following) (hends : EndsText (phrase.written ++ following)) :
    ¬phrase.IsText := by
  cases phrase with
  | substitution | block => exact not_false
  | text pieces =>
    obtain ⟨hne, hfits⟩ := h
    obtain ⟨piece, pieces, rfl⟩ := List.exists_cons_of_ne_nil hne
    rw [written, PieceForm.writtenAll_cons, List.append_assoc] at hends
    exact absurd hfits.1 (PieceForm.not_fits hends rfl)

theorem Segment.hasBranches_conditional {negated : Bool} {subject : SymbolPath}
    {body truthy falsy : List Segment} {position : Option Position} :
    (conditional negated subject body position).HasBranches truthy falsy ↔
      (truthy, falsy) = if negated then ([], body) else (body, []) := by
  constructor
  · rintro ⟨subject', flag, position', h⟩
    unfold conditionalOf soleBranch at h
    cases truthy <;> cases falsy <;> cases flag <;> cases h <;> rfl
  · intro h
    refine ⟨subject, negated, position, ?_⟩
    cases negated <;> cases body <;> cases h <;> rfl

/-- A conditional that was put together has members in one branch at most. -/
theorem Segment.isOneSided_conditional (negated : Bool) (subject : SymbolPath)
    (body : List Segment) (position : Option Position) :
    (conditional negated subject body position).IsOneSided negated := by
  refine ⟨⟨_, _, hasBranches_conditional.2 rfl⟩, ?_⟩
  intro truthy falsy h
  have hbranches := hasBranches_conditional.1 h
  cases negated <;> cases hbranches <;> rfl

mutual

/-- A phrase that fits stands for a segment in normal form, blocks at every depth included. -/
theorem Phrase.isNormal_segment (before : List Char) {following : List Char} :
    ∀ {phrase : Phrase}, phrase.Fits following → (phrase.segment before).IsNormal
  | .text pieces, h => by
    obtain ⟨hne, hfits⟩ := h
    simp only [segment, Segment.IsNormal]
    refine ⟨by simpa using hne, ?_⟩
    intro hmem
    obtain ⟨piece, hpiece, hempty⟩ := List.mem_map.1 hmem
    exact hfits.meaning_ne piece hpiece (by simpa using hempty)
  | .substitution blanks subject filters trail, h => by
    obtain ⟨-, -, -, hsubject, hfilters, -⟩ := h
    exact hfilters.isNormal_fold _ (hsubject.isNormal_path _)
  | .block (.condition negated keyword blanks subject trail) body, h => by
    obtain ⟨⟨-, -, -, hsubject, -⟩, hbody⟩ := h
    exact ⟨Segment.isOneSided_conditional _ _ _ _, hsubject.isNormal_path _,
      Phrase.allNormal_segments _ hbody⟩
  | .block (.loop keyword blanks enumerator gap inBlanks collection trail) body, h => by
    obtain ⟨⟨-, -, -, henumerator, -, -, -, hcollection, -⟩, hbody⟩ := h
    obtain ⟨hnormal, htrimmed⟩ := henumerator.isNormal_trimEnd
      (some (.after (before ++ '#' :: '{' :: (keyword ++ blanks))))
    exact ⟨hnormal, htrimmed, hcollection.isNormal_path _, Phrase.allNormal_segments _ hbody⟩

/-- Phrases that fit stand for segments in normal form, and no two texts touch. -/
theorem Phrase.allNormal_segments (before : List Char) {following : List Char} :
    ∀ {phrases : List Phrase}, AllFit following phrases →
      Segment.AllNormal (segments before phrases)
  | [], _ => trivial
  | phrase :: phrases, h => by
    refine ⟨Phrase.isNormal_segment before h.1, ?_, Phrase.allNormal_segments _ h.2⟩
    rintro next hnext ⟨htext, htext'⟩
    cases phrases with
    | nil => cases hnext
    | cons phrase' phrases =>
      cases hnext
      cases phrase with
      | substitution => cases htext
      | block head => cases head <;> cases htext
      | text pieces =>
        have hends := h.1.2.endsText
        rw [writtenAll, List.append_assoc] at hends
        rw [(isText_segment _ phrase').2 (not_isText_of_endsText h.2.1 hends)] at htext'
        cases htext'

end

/-- Whatever source a template was read from, it is in normal form. -/
theorem isNormal_of_parseTemplate {source : String} {limit : Int} {machine : Machine}
    {t : Template} (h : parseTemplate source limit machine = .ok t) : t.IsNormal := by
  obtain ⟨phrases, hparses, rfl⟩ := parses_of_parseTemplate h
  exact Phrase.allNormal_segments [] hparses.derives.2

theorem isNormal_orders : ∃ source t,
    source = "##\x7b#\x7beach  Order in in Orders \x7d #\x7b Order .Id [0] | Upper |Trim \x7d" ++
      "#\x7bunless Order. Paid\x7d###\x7b/unless\x7d#\x7b/each\x7d#" ∧
    parseTemplate source = .ok t ∧ t.IsNormal := by
  obtain ⟨source, hsource⟩ : ∃ source, source =
      "##\x7b#\x7beach  Order in in Orders \x7d #\x7b Order .Id [0] | Upper |Trim \x7d" ++
        "#\x7bunless Order. Paid\x7d###\x7b/unless\x7d#\x7b/each\x7d#" := ⟨_, rfl⟩
  have hok : (parseTemplate source).toBool = true := by
    rw [hsource]
    decide +kernel
  obtain ⟨t, ht⟩ := exists_of_toBool hok
  exact ⟨source, t, hsource, ht, isNormal_of_parseTemplate ht⟩

end Stencil
