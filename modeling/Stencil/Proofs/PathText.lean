-- SUMMARY: Which texts are bare paths, and how the steps of a bare path tile its text.
import Stencil.Proofs.Failures

/-! # Texts of paths

Whether a text is a bare path can be said without looking for the longest name anywhere. Dots and
brackets set the steps off from each other, and a text of name characters and blanks is a single
name unless it holds the word `in` between two blanks. Nothing of such a text is lost: the path that
it is read as is rendered as the text, and its steps stand one after the other in it.
-/

namespace Stencil

open Text (isBlank)
open Name (isNameChar)

/-! ## Names -/

/-- The text holds the word `in` between two blanks. -/
def HoldsIn (s : List Char) : Prop :=
  ∃ u c d v, s = u ++ c :: 'i' :: 'n' :: d :: v ∧ isBlank c = true ∧ isBlank d = true

/-- A text that is a name as it stands. -/
structure IsNameText (s : List Char) : Prop where
  starts : ∃ c t, s = c :: t ∧ isNameChar c = true
  chars : ∀ c ∈ s, isNameChar c = true ∨ isBlank c = true
  no_in : ¬HoldsIn s

theorem IsName.isNameText {name following : List Char} (h : IsName name following) :
    IsNameText name := by
  refine ⟨h.starts, ?_, ?_⟩
  · intro c hc
    obtain ⟨u, v, hname⟩ := List.append_of_mem hc
    exact (h.goesOn u c v hname).imp_right And.left
  · rintro ⟨u, c, d, v, hname, hc, hd⟩
    rcases h.goesOn u c _ hname with hc' | ⟨-, hnot⟩
    · rw [isNameChar_of_isBlank hc] at hc'
      cases hc'
    · exact hnot (.inr ⟨d, v ++ following, rfl, hd⟩)

/-- In front of a mark or at the end of the source, nothing but its own text decides on a name. -/
theorem IsNameText.isName {name following : List Char} (h : IsNameText name)
    (hmark : EndsAtMark following) : IsName name following := by
  refine ⟨h.starts, ?_, ?_⟩
  · intro u c v hname
    rcases h.chars c (by simp [hname]) with hc | hc
    · exact .inl hc
    · refine .inr ⟨hc, fun hends => ?_⟩
      rcases hends.of_append_mark hmark with ⟨w, rfl⟩ | ⟨d, w, rfl, hd⟩
      · exact absurd (h.chars '|' (by simp [hname])) (by decide)
      · exact h.no_in ⟨u, c, d, w, hname, hc, hd⟩
  · intro c s hs
    exact (hs ▸ hmark).not_goesOn

/-! ## Paths -/

/-- A text that the root of a path may have after it: names behind dots, with blanks between, and
    texts in brackets. -/
inductive IsStepsText : List Char → Prop
  | nil : IsStepsText []
  | name {blanks chars rest : List Char} : AllBlank blanks → IsNameText chars →
      IsStepsText rest → IsStepsText ('.' :: (blanks ++ (chars ++ rest)))
  | index {chars rest : List Char} : chars ≠ [] → ']' ∉ chars →
      IsStepsText rest → IsStepsText ('[' :: (chars ++ ']' :: rest))

/-- A text that is a bare path. -/
def IsPathText (s : List Char) : Prop :=
  ∃ blanks root rest, s = blanks ++ (root ++ rest) ∧ AllBlank blanks ∧ IsNameText root ∧
    IsStepsText rest

theorem IsStepsText.endsAtMark {s : List Char} (h : IsStepsText s) : EndsAtMark s := by
  cases h with
  | nil => exact .nil
  | name | index => simp [EndsAtMark]

/-- A text in the form of steps is that of steps which fit. -/
theorem IsStepsText.exists_steps {s : List Char} (h : IsStepsText s) :
    ∃ steps, s = StepForm.writtenAll steps ∧ StepForm.AllFit [] steps ∧
      ∀ step ∈ steps, step.gap = [] := by
  induction h with
  | nil => exact ⟨[], rfl, trivial, nofun⟩
  | @name blanks chars rest hblanks hchars hrest ih =>
    obtain ⟨steps, rfl, hfits, htight⟩ := ih
    have hname : IsName chars (StepForm.writtenAll steps ++ []) := by
      rw [List.append_nil]
      exact hchars.isName hrest.endsAtMark
    exact ⟨.name [] blanks chars :: steps, by simp [StepForm.written],
      ⟨⟨.nil, hblanks, hname⟩, hfits⟩, List.forall_mem_cons.2 ⟨rfl, htight⟩⟩
  | @index chars rest hne hchars _ ih =>
    obtain ⟨steps, rfl, hfits, htight⟩ := ih
    exact ⟨.index [] chars hne :: steps, by simp [StepForm.written],
      ⟨⟨.nil, hchars⟩, hfits⟩, List.forall_mem_cons.2 ⟨rfl, htight⟩⟩

/-- Steps that fit without gaps have the text of steps. -/
theorem StepForm.AllFit.isStepsText {following : List Char} {steps : List StepForm}
    (h : AllFit following steps) (htight : ∀ step ∈ steps, step.gap = []) :
    IsStepsText (writtenAll steps) := by
  induction steps with
  | nil => exact .nil
  | cons step steps ih =>
    obtain ⟨hgap, htight⟩ := List.forall_mem_cons.1 htight
    have hrest := ih h.2 htight
    cases step with
    | name gap blanks chars =>
      obtain rfl : gap = [] := hgap
      have hstep := IsStepsText.name h.1.2.1 h.1.2.2.isNameText hrest
      simpa [written] using hstep
    | index gap chars chars_ne =>
      obtain rfl : gap = [] := hgap
      have hstep := IsStepsText.index chars_ne h.1.2 hrest
      simpa [written] using hstep

/-- The texts that are bare paths are those of the grammar, up to blanks in front. -/
theorem isPathText_iff (s : List Char) :
    IsPathText s ↔ ∃ blanks p, s = blanks ++ PathForm.written p ∧ AllBlank blanks ∧ p.Fits [] ∧
      p.Tight := by
  constructor
  · rintro ⟨blanks, root, rest, rfl, hblanks, hroot, hrest⟩
    obtain ⟨steps, rfl, hfits, htight⟩ := hrest.exists_steps
    have hname := hroot.isName hrest.endsAtMark
    rw [← List.append_nil (StepForm.writtenAll steps)] at hname
    exact ⟨blanks, ⟨root, steps⟩, rfl, hblanks, ⟨hname, hfits⟩, htight⟩
  · rintro ⟨blanks, ⟨root, steps⟩, rfl, hblanks, ⟨hroot, hsteps⟩, htight⟩
    exact ⟨blanks, root, _, rfl, hblanks, hroot.isNameText, hsteps.isStepsText htight⟩

/-! ## Steps in their text -/

/-- How a step is written by itself. -/
def Step.text : Step → String
  | .name i => i.text
  | .index i => i.render

/-- How many characters set a step off from the one before it. -/
def Step.offsetBefore : Step → Nat
  | .name _ => 1
  | .index _ => 0

/-- The next step stands right after the step, or after the dot behind it. -/
def Step.Abuts (step next : Step) : Prop :=
  ∃ p q, step.position = some p ∧ next.position = some q ∧
    q.offset = p.offset + step.text.length + next.offsetBefore

/-- The steps stand one after the other from the start of a source on. -/
structure SymbolPath.Tiles (p : SymbolPath) : Prop where
  starts : ∃ q, p.root.position = some q ∧ q.offset = 0
  abut : p.steps.IsChain Step.Abuts

/-- The step is what the text ends in, and stands there. -/
def Step.Closes (before : List Char) (step : Step) : Prop :=
  ∃ start, before = start ++ step.text.toList ∧ step.position = some (.after start)

theorem StepForm.closes_step (before : List Char) {step : StepForm} (h : step.gap = []) :
    (step.step before false).Closes (before ++ step.written) := by
  cases step with
  | name gap blanks chars =>
    obtain rfl : gap = [] := h
    exact ⟨before ++ ['.'], by simp [written, StepForm.step, Step.text],
      by simp [StepForm.step, Step.position]⟩
  | index gap chars chars_ne =>
    obtain rfl : gap = [] := h
    exact ⟨before, by simp [written, StepForm.step, Step.text, Indexer.render],
      by simp [StepForm.step, Step.position]⟩

theorem Step.Closes.abuts {before : List Char} {last : Step} {step : StepForm}
    (h : last.Closes before) (hgap : step.gap = []) : last.Abuts (step.step before false) := by
  obtain ⟨start, rfl, hposition⟩ := h
  cases step with
  | name gap blanks chars =>
    obtain rfl : gap = [] := hgap
    refine ⟨_, _, hposition, rfl, ?_⟩
    simp [StepForm.step, Step.offsetBefore, Position.after, String.length_toList, Int.add_assoc]
  | index gap chars chars_ne =>
    obtain rfl : gap = [] := hgap
    refine ⟨_, _, hposition, rfl, ?_⟩
    simp [StepForm.step, Step.offsetBefore, Position.after, String.length_toList]

/-- The steps of a bare path come right after one another. -/
theorem StepForm.isChain_bareSteps {before : List Char} {last : Step} {steps : List StepForm}
    (hlast : last.Closes before) (htight : ∀ step ∈ steps, step.gap = []) :
    (last :: bareSteps before steps).IsChain Step.Abuts := by
  induction steps generalizing before last with
  | nil => exact .singleton last
  | cons step steps ih =>
    obtain ⟨hgap, hrest⟩ := List.forall_mem_cons.1 htight
    exact .cons_cons (hlast.abuts hgap) (ih (step.closes_step before hgap) hrest)

theorem PathForm.Tight.tiles_bare {p : PathForm} (h : p.Tight) (blanks : List Char) :
    (p.bare blanks).Tiles := by
  refine ⟨⟨_, rfl, rfl⟩, ?_⟩
  exact StepForm.isChain_bareSteps ⟨[], by simp [Step.text, bare], rfl⟩ h

theorem StepForm.render_bareSteps (before : List Char) {steps : List StepForm}
    (h : ∀ step ∈ steps, step.gap = []) :
    ((bareSteps before steps).flatMap fun step => step.render.toList) = writtenAll steps := by
  induction steps generalizing before with
  | nil => rfl
  | cons step steps ih =>
    obtain ⟨hgap, hrest⟩ := List.forall_mem_cons.1 h
    rw [bareSteps, List.flatMap_cons, step.render_step before hgap, ih _ hrest, writtenAll_cons]

/-- A bare path is rendered as it is written. -/
theorem PathForm.Tight.render_bare {p : PathForm} (h : p.Tight) (blanks : List Char) :
    (p.bare blanks).render.toList = blanks ++ p.written := by
  simp [SymbolPath.render_toList, bare, written, StepForm.render_bareSteps _ h]

/-- A source is a bare path exactly if its text is one; any other is refused with a parse error. The
    path is rendered as the source, and its steps tile the source. -/
theorem parsePath_iff_isPathText (source : String) :
    ((∃ q, parsePath source = .ok q) ↔ IsPathText source.toList) ∧
    (¬IsPathText source.toList → ∃ e, parsePath source = .error (.parse e)) ∧
    ∀ q, parsePath source = .ok q → q.render = source ∧ q.Tiles := by
  have hpath : (∃ q, parsePath source = .ok q) ↔ IsPathText source.toList := by
    rw [isPathText_iff]
    constructor
    · rintro ⟨q, hq⟩
      obtain ⟨blanks, p, hsource, hblanks, hfits, htight, -⟩ := (parsePath_iff source q).1 hq
      exact ⟨blanks, p, hsource, hblanks, hfits, htight⟩
    · rintro ⟨blanks, p, hsource, hblanks, hfits, htight⟩
      exact ⟨p.bare blanks,
        (parsePath_iff source _).2 ⟨blanks, p, hsource, hblanks, hfits, htight, rfl⟩⟩
  refine ⟨hpath, ?_, ?_⟩
  · intro hnot
    exact (parsePath_or_parseError source).resolve_left (mt hpath.1 hnot)
  · intro q hq
    obtain ⟨blanks, p, hsource, -, -, htight, rfl⟩ := (parsePath_iff source q).1 hq
    refine ⟨String.toList_inj.1 ?_, htight.tiles_bare blanks⟩
    rw [hsource, htight.render_bare]

/-- A name may hold the word `in` at its start and at its end, but not between two blanks. -/
theorem parsePath_iff_isPathText_stock :
    (∃ q, parsePath " Order .Lines[ 0 ]. in Stock in" = .ok q ∧
      q.render = " Order .Lines[ 0 ]. in Stock in" ∧ q.Tiles) ∧
    ¬IsPathText "Order in Stock".toList ∧ ∃ e, parsePath "Order in Stock" = .error (.parse e) := by
  constructor
  · have hok : (parsePath " Order .Lines[ 0 ]. in Stock in").toBool = true := by decide +kernel
    obtain ⟨q, hq⟩ := exists_of_toBool hok
    exact ⟨q, hq, (parsePath_iff_isPathText _).2.2 q hq⟩
  · have hnot : ¬IsPathText "Order in Stock".toList := by
      rw [← (parsePath_iff_isPathText "Order in Stock").1]
      rintro ⟨q, hq⟩
      have hok : (parsePath "Order in Stock").toBool = false := by decide +kernel
      rw [hq] at hok
      cases hok
    exact ⟨hnot, (parsePath_iff_isPathText _).2.1 hnot⟩

end Stencil
