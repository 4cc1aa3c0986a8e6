-- SUMMARY: A source is a bare path if a substitution of it is, and what a template holds is one.
import Stencil.Proofs.Parsing
import Stencil.Proofs.Plain

/-! # Bare paths

A bare path is the whole of its source, so it has no blanks to leave out: those in front belong to
its root and those at its end to its last name, and after an indexer there is no place for any. But
for this, a path is read and built in the same way wherever it stands.
-/

namespace Stencil

open Text (isBlank trimEnd)

/-! ## What a bare path is -/

/-- The steps that are written after a text in a bare path. -/
def StepForm.bareSteps (before : List Char) : List StepForm → List Step
  | [] => []
  | step :: steps => step.step before false :: bareSteps (before ++ step.written) steps

/-- The bare path that has the given blanks in front of it. -/
def PathForm.bare (blanks : List Char) (p : PathForm) : SymbolPath where
  root := { text := String.ofList (blanks ++ p.root), position := some (.after []) }
  rest := StepForm.bareSteps (blanks ++ p.root) p.steps
  position := some (.after [])

/-! ## Reading -/

namespace Reading

theorem path?_afterPart (parts : List Part) :
    (Reading.mk [] [] (.afterPart .bare parts)).path? = some parts.reverse := by
  unfold Place.afterPart
  split <;> rfl

theorem endsBetweenParts_path (parts : List Part) :
    EndsBetweenParts fun r => r.path? = some parts := by
  intro blocks done goal parts
  simp [path?]

end Reading

/-- A path with blanks in front of it is read to its end, and its parts are those of the path. -/
theorem readPath_of_fits {blanks : List Char} {p : PathForm} (hblanks : AllBlank blanks)
    (h : p.Fits []) : readPath (blanks ++ p.written) = .ok (p.parts [] blanks []) := by
  have hrun := Reading.run_path [] [] .bare [] hblanks h
  have hend := Reading.run_finish
    (r := ⟨[], [], .afterPart .bare (p.parts [] blanks []).reverse⟩)
    (.after (blanks ++ p.written)) (rfl : Scan.ofSource _ [] = .finish [])
  simp only [List.append_nil, List.nil_append] at hrun
  have hpath : Reading.path.run .start (blanks ++ p.written) = _ := hrun.trans hend
  simp only [readPath, hpath, bind, Except.bind, Reading.path?_afterPart, List.reverse_reverse]

/-- What is read as a bare path is one, with blanks around it. -/
theorem fits_of_readPath {s : List Char} {parts : List Part} (h : readPath s = .ok parts) :
    ∃ blanks p trail, s = blanks ++ (PathForm.written p ++ trail) ∧ AllBlank blanks ∧
      p.Fits trail ∧ AllBlank trail ∧ parts = p.parts [] blanks trail := by
  have hreach : Reading.path.Reaches [] s fun r => r.path? = some parts := by
    unfold readPath at h
    cases hrun : Reading.path.run .start s with
    | error f =>
      rw [hrun] at h
      cases h
    | ok end_ =>
      obtain ⟨r, p⟩ := end_
      simp only [hrun, bind, Except.bind] at h
      split at h
      · next steps hsteps =>
        cases h
        exact ⟨r, p, hrun, hsteps⟩
      · cases h
  obtain ⟨blanks, p, trail, rfl, hblanks, hfits, hends⟩ :=
    Reading.Reaches.path (Reading.endsBetweenParts_path parts) hreach
  rcases hends with ⟨htrail, hfinal⟩ | ⟨lead, t, c, rest, r', -, -, ht, hshift, -⟩
  · rw [Reading.path?_afterPart, List.reverse_reverse] at hfinal
    exact ⟨blanks, p, trail, rfl, hblanks, hfits, htrail, (Option.some.inj hfinal).symm⟩
  · rcases ht with ⟨rfl, -⟩ | ⟨rfl, -⟩ <;> cases hshift

/-! ## Building -/

/-- Blanks at the end of a source belong to a name in front of them. -/
theorem IsName.eq_nil_of_allBlank {name trail : List Char} (h : IsName name trail)
    (htrail : AllBlank trail) : trail = [] := by
  rw [← List.append_nil trail] at h
  exact h.eq_nil_of_blanks htrail (by simp [EndsName])

section Built

variable (source : String)

/-- A step is built, unless it is an indexer that a blank follows. -/
theorem StepForm.bare_part (before following : List Char) (step : StepForm) (last : Bool) :
    YieldsIf ((step.part before following).step source .bare false last)
      ((∃ gap blanks chars, step = .name gap blanks chars) ∨ following.head?.any isBlank = false)
      (step.step before false) := by
  cases step with
  | name gap blanks chars => exact (YieldsIf.ok _).congr (iff_of_true trivial (.inl ⟨_, _, _, rfl⟩))
  | index gap chars hne =>
    simp only [part, Part.step, Indexer.ofText_ofList hne, Except.mapError, bind, Except.bind]
    cases hb : following.head?.any isBlank with
    | false => exact (YieldsIf.ok _).congr (by simp)
    | true => exact (YieldsIf.error _ _).congr (by simp)

/-- The steps after a root are built if they are close to each other and to the end. -/
theorem StepForm.bareSteps_parts (before : List Char) {trail : List Char} {steps : List StepForm}
    (h : AllFit trail steps) (htrail : AllBlank trail) :
    YieldsIf (Part.steps source .bare false (parts before trail steps))
      ((∀ step ∈ steps.tail, step.gap = []) ∧ (steps = [] ∨ trail = []))
      (bareSteps before steps) := by
  induction steps generalizing before with
  | nil => exact (YieldsIf.ok _).congr (by simp)
  | cons step steps ih =>
    have hone := step.bare_part source before (writtenAll steps ++ trail)
      (parts (before ++ step.written) trail steps).isEmpty
    have hmore := (ih (before ++ step.written) h.2).map (step.step before false :: ·)
    simp only [parts, Part.steps]
    refine (hone.bind hmore).congr ?_
    cases steps with
    | nil =>
      cases step with
      | name gap blanks chars =>
        have hnil : trail = [] := h.1.2.2.eq_nil_of_allBlank htrail
        simp [hnil]
      | index gap chars hne =>
        cases trail with
        | nil => simp
        | cons c trail => simp [htrail.head]
    | cons next steps =>
      have hw : writtenAll (next :: steps) ++ trail =
          next.written ++ (writtenAll steps ++ trail) := by
        simp [writtenAll]
      cases step with
      | name gap blanks chars =>
        have hgap := gap_eq_nil (hw ▸ h.1.2.2) h.2.1
        simp [hgap]
      | index gap chars hne =>
        rw [hw, head_blank_iff h.2.1]
        simp [and_assoc]

/-- A bare path is built if its steps are close to each other and nothing follows it. -/
theorem PathForm.ofParts_bare (blanks : List Char) {trail : List Char} {p : PathForm}
    (h : p.Fits trail) (htrail : AllBlank trail) :
    YieldsIf (SymbolPath.ofParts source .bare (p.parts [] blanks trail)) (p.Tight ∧ trail = [])
      (p.bare blanks) := by
  obtain ⟨root, steps⟩ := p
  have hsteps := StepForm.bareSteps_parts source (blanks ++ root) h.2 htrail
  have hcondition : ((∀ step ∈ steps.tail, step.gap = []) ∧ (steps = [] ∨ trail = [])) ↔
      PathForm.Tight ⟨root, steps⟩ ∧ trail = [] := by
    cases steps with
    | nil =>
      have hroot : IsName root trail := by simpa using h.1
      simp [Tight, hroot.eq_nil_of_allBlank htrail]
    | cons step steps =>
      have hroot := h.1
      simp only [StepForm.writtenAll, List.flatMap_cons, List.append_assoc] at hroot
      simp [Tight, StepForm.gap_eq_nil hroot h.2.1]
  rw [parts, SymbolPath.ofParts_name]
  exact (hsteps.congr hcondition).map _

end Built

/-- A source is a bare path if it is one in the grammar, up to blanks in front of it. -/
theorem parsePath_iff (source : String) (q : SymbolPath) :
    parsePath source = .ok q ↔
      ∃ blanks p, source.toList = blanks ++ PathForm.written p ∧ AllBlank blanks ∧ p.Fits [] ∧
        p.Tight ∧ q = p.bare blanks := by
  constructor
  · intro h
    unfold parsePath at h
    cases hread : readPath source.toList with
    | error f =>
      rw [hread] at h
      cases h
    | ok parts =>
      obtain ⟨blanks, p, trail, hsource, hblanks, hfits, htrail, rfl⟩ := fits_of_readPath hread
      rw [hread] at h
      have hbuild := PathForm.ofParts_bare source blanks hfits htrail
      by_cases hcondition : p.Tight ∧ trail = []
      · obtain ⟨htight, rfl⟩ := hcondition
        have hq := (hbuild.1 ⟨htight, rfl⟩).symm.trans h
        cases hq
        exact ⟨blanks, p, by simpa using hsource, hblanks, hfits, htight, rfl⟩
      · obtain ⟨e, he⟩ := hbuild.2 hcondition
        have := he.symm.trans h
        cases this
  · rintro ⟨blanks, p, hsource, hblanks, hfits, htight, rfl⟩
    have hbuild := PathForm.ofParts_bare source blanks hfits AllBlank.nil
    simp only [parsePath, hsource, readPath_of_fits hblanks hfits, Except.mapError]
    exact hbuild.1 ⟨htight, rfl⟩

/-! ## Comparison -/

/-- The step without the blanks at its end, if it is a name. -/
def Step.trimEnd : Step → Step
  | .name i => .name { i with text := String.ofList (Text.trimEnd i.text.toList) }
  | .index i => .index i

/-- The steps, the last one without the blanks at its end. -/
def Step.trimLast : List Step → List Step
  | [] => []
  | [step] => [step.trimEnd]
  | step :: next :: steps => step :: trimLast (next :: steps)

/-- The path without the blanks in front of its root and those after a name at its end. -/
def SymbolPath.trimmed (p : SymbolPath) : SymbolPath :=
  let root := p.root.text.toList.dropWhile isBlank
  { p with
    root := { p.root with text := String.ofList (if p.rest.isEmpty then trimEnd root else root) }
    rest := Step.trimLast p.rest }

theorem StepForm.alike_trimLast (before before' : List Char) (steps : List StepForm) :
    Step.allAlike (stepsOf before steps) (Step.trimLast (bareSteps before' steps)) = true := by
  induction steps generalizing before before' with
  | nil => rfl
  | cons step steps ih =>
    cases steps with
    | nil =>
      cases step <;> simp [stepsOf, bareSteps, Step.trimLast, StepForm.step, Step.trimEnd,
        Step.allAlike, Step.alike, Identifier.alike, Indexer.alike]
    | cons next steps =>
      have hrest := ih (before ++ step.written) (before' ++ step.written)
      simp only [bareSteps] at hrest
      rw [stepsOf, List.isEmpty_cons, bareSteps, bareSteps, Step.trimLast, Step.allAlike,
        step.alike_step, hrest]
      rfl

/-- In a template, a path is the bare one with the blanks at its ends left out. -/
theorem PathForm.alike_trimmed (before : List Char) {blanks following : List Char} {p : PathForm}
    (hblanks : AllBlank blanks) (h : p.Fits following) :
    (p.path before).alike (p.bare blanks).trimmed = true := by
  obtain ⟨root, steps⟩ := p
  have hvisible := h.1.startsVisible []
  rw [List.append_nil] at hvisible
  have hroot := dropWhile_blanks hblanks hvisible
  have hsteps := StepForm.alike_trimLast (before ++ root) (blanks ++ root) steps
  have hempty : (StepForm.bareSteps (blanks ++ root) steps).isEmpty = steps.isEmpty := by
    cases steps <;> rfl
  simp [path, bare, SymbolPath.trimmed, SymbolPath.alike, Identifier.alike, hroot, hsteps, hempty]

/-- Written without the blanks at their end, the steps of a tag are those of a bare path. -/
theorem StepForm.alike_bareSteps (before before' : List Char) {following : List Char}
    {steps : List StepForm} (h : AllFit following steps) :
    Step.allAlike (bareSteps before' (mapLast trimEnd steps)) (stepsOf before steps) = true := by
  fun_induction mapLast trimEnd steps generalizing before before' with
  | case1 => rfl
  | case2 step =>
    cases step with
    | name gap blanks chars =>
      have htrim := h.1.2.2.trimEnd_append blanks
      simp [bareSteps, stepsOf, mapName, StepForm.step, Step.allAlike, Step.alike,
        Identifier.alike, htrim]
    | index gap chars chars_ne =>
      simp [bareSteps, stepsOf, mapName, StepForm.step, Step.allAlike, Step.alike, Indexer.alike]
  | case3 step next steps ih =>
    have hrest := ih (before ++ step.written) (before' ++ step.written) h.2
    rw [bareSteps, stepsOf, List.isEmpty_cons, Step.allAlike, step.alike_step, hrest]
    rfl

/-- Read as a bare path, the written form of a path is that path. -/
theorem PathForm.alike_bare_plain (before : List Char) {following : List Char} {p : PathForm}
    (h : p.Fits following) : (p.plain.bare []).alike (p.path before) = true := by
  obtain ⟨root, steps⟩ := p
  cases steps with
  | nil =>
    simp [plain, mapLast, path, bare, SymbolPath.alike, Identifier.alike, StepForm.stepsOf,
      StepForm.bareSteps, Step.allAlike]
  | cons step steps =>
    have hsteps := StepForm.alike_bareSteps (before ++ root) root h.2
    simp [plain, mapLast, path, bare, SymbolPath.alike, Identifier.alike, hsteps]

/-! ## Paths of templates -/

mutual

/-- The paths in a segment: what it shows or sends through filters, its condition, its collection,
    and those in its body. -/
def Segment.paths : Segment → List SymbolPath
  | .text .. => []
  | .substitution expression _ => [expression.subject]
  | .conditional _ subject body _ => subject :: pathsAll body
  | .repetition _ collection body _ => collection :: pathsAll body

def Segment.pathsAll : List Segment → List SymbolPath
  | [] => []
  | s :: rest => s.paths ++ pathsAll rest

end

theorem Expression.subject_fold (e : Expression) (names : List Identifier) :
    (fold e names).subject = e.subject := by
  induction names generalizing e with
  | nil => rfl
  | cons name names ih => exact ih (.call true name e name.position)

/-- The path stands in a source: what is written there fits and can be built. -/
def SymbolPath.Stands (q : SymbolPath) : Prop :=
  ∃ before p following, PathForm.Fits following p ∧ p.Tight ∧ q = p.path before

mutual

/-- Every path of a phrase can stand in a source of its own. -/
theorem Phrase.paths_stand (before : List Char) {following : List Char} :
    ∀ {phrase : Phrase}, phrase.Fits following → (∀ p ∈ phrase.paths, p.Tight) →
      ∀ q ∈ (phrase.segment before).paths, q.Stands
  | .text pieces, _, _ => by simp [segment, Segment.paths]
  | .substitution blanks subject filters trail, h, htight => by
    obtain ⟨-, -, -, hsubject, -, -⟩ := h
    intro q hq
    simp only [segment, Segment.paths, Expression.subject_fold, List.mem_singleton] at hq
    exact ⟨_, subject, _, hsubject, htight subject (by simp [paths]), hq⟩
  | .block (.condition negated keyword blanks subject trail) body, h, htight => by
    obtain ⟨⟨-, -, -, hsubject, -⟩, hbody⟩ := h
    obtain ⟨htight_subject, htight_body⟩ := List.forall_mem_cons.1 htight
    intro q hq
    simp only [segment, Segment.paths, List.mem_cons] at hq
    rcases hq with hq | hq
    · exact ⟨_, subject, _, hsubject, htight_subject, hq⟩
    · exact Phrase.pathsAll_stand _ hbody htight_body q hq
  | .block (.loop keyword blanks enumerator gap inBlanks collection trail) body, h, htight => by
    obtain ⟨⟨-, -, -, -, -, -, -, hcollection, -⟩, hbody⟩ := h
    obtain ⟨htight_collection, htight_body⟩ := List.forall_mem_cons.1 htight
    intro q hq
    simp only [segment, Segment.paths, List.mem_cons] at hq
    rcases hq with hq | hq
    · exact ⟨_, collection, _, hcollection, htight_collection, hq⟩
    · exact Phrase.pathsAll_stand _ hbody htight_body q hq

/-- The paths of a template are those that stand in its source. -/
theorem Phrase.pathsAll_stand (before : List Char) {following : List Char} :
    ∀ {phrases : List Phrase}, AllFit following phrases → (∀ p ∈ pathsAll phrases, p.Tight) →
      ∀ q ∈ Segment.pathsAll (segments before phrases), q.Stands
  | [], _, _ => by simp [segments, Segment.pathsAll]
  | phrase :: phrases, h, htight => by
    obtain ⟨htight_phrase, htight_rest⟩ := List.forall_mem_append.1 htight
    intro q hq
    simp only [segments, Segment.pathsAll, List.mem_append] at hq
    rcases hq with hq | hq
    · exact Phrase.paths_stand before h.1 htight_phrase q hq
    · exact Phrase.pathsAll_stand _ h.2 htight_rest q hq

end

/-- What a path is rendered as is that path. -/
theorem SymbolPath.Stands.parsePath_render {q : SymbolPath} (h : q.Stands) :
    ∃ q', parsePath q.render = .ok q' ∧ q'.alike q = true := by
  obtain ⟨before, p, following, hfits, htight, rfl⟩ := h
  refine ⟨p.plain.bare [], (parsePath_iff _ _).2 ?_, p.alike_bare_plain before hfits⟩
  exact ⟨[], p.plain, PathForm.render_path before hfits htight, AllBlank.nil,
    hfits.plain htight .nil, htight.plain, rfl⟩

/-! ## Bare paths in substitutions -/

/-- Steps end in a name or in a bracket. -/
theorem StepForm.AllFit.ending {following : List Char} {step : StepForm} {steps : List StepForm}
    (h : AllFit following (step :: steps)) :
    (∃ name, IsName name following) ∨ ∃ u, writtenAll (step :: steps) = u ++ [']'] := by
  induction steps generalizing step with
  | nil =>
    cases step with
    | name gap blanks chars => exact .inl ⟨chars, h.1.2.2⟩
    | index gap chars chars_ne => exact .inr ⟨gap ++ '[' :: chars, by simp [written]⟩
  | cons next steps ih =>
    rcases ih h.2 with hname | ⟨u, hu⟩
    · exact .inl hname
    · exact .inr ⟨step.written ++ u, by rw [writtenAll_cons, hu, List.append_assoc]⟩

/-- A path ends in a name or in a bracket. -/
theorem PathForm.Fits.ending {following : List Char} {p : PathForm} (h : p.Fits following) :
    (∃ name, IsName name following) ∨ ∃ u, p.written = u ++ [']'] := by
  obtain ⟨root, steps⟩ := p
  cases steps with
  | nil => exact .inl ⟨root, h.1⟩
  | cons step steps =>
    rcases h.2.ending with hname | ⟨u, hu⟩
    · exact .inl hname
    · exact .inr ⟨root ++ u, by rw [written, hu, List.append_assoc]⟩

/-- A text whose last bracket has blanks after it and nothing else. -/
def EndsBlankAfterBracket (s : List Char) : Prop :=
  ∃ u blanks, s = u ++ ']' :: blanks ∧ AllBlank blanks ∧ blanks ≠ []

/-- A path in a tag of its own makes up a template. -/
theorem derives_substitution {blanks : List Char} {p : PathForm} (hblanks : AllBlank blanks)
    (h : p.Fits []) (htight : p.Tight) :
    Phrase.Derives ('#' :: '{' :: ' ' :: (blanks ++ p.written ++ ['}']))
      [.substitution (' ' :: blanks) p [] []] := by
  refine ⟨by simp [Phrase.writtenAll, Phrase.written, Phrase.inside], ⟨?_, ?_, ?_, ?_, ?_, ?_⟩, ?_⟩
  · intro s hs
    simp [Phrase.inside] at hs
  · rintro ⟨kind, keyword, c, t, hs, hkeyword, -⟩
    have := hkeyword.startsVisible (c :: t) ' ' _ (by rw [← hs]; rfl)
    exact absurd this (by decide)
  · exact List.forall_mem_cons.2 ⟨by decide, hblanks⟩
  · exact h.before_mark htight (.brace [])
  · trivial
  · exact AllBlank.nil
  · trivial

/-- A path in a substitution, with a text around it that ends in nothing but a path, is that text up
    to blanks in front. -/
theorem fits_of_derives_substitution {s blanks trail : List Char} {p : PathForm}
    (h : Phrase.Derives ('#' :: '{' :: ' ' :: (s ++ ['}'])) [.substitution blanks p [] trail])
    (htight : p.Tight) (hs : ¬EndsBlankAfterBracket s) :
    ∃ blanks', blanks = ' ' :: blanks' ∧ s = blanks' ++ p.written ∧ AllBlank blanks' ∧
      p.Fits [] := by
  obtain ⟨hwritten, ⟨-, -, hblanks, hfits, -, htrail⟩, -⟩ := h
  have hfits : p.Fits (trail ++ ['}']) := hfits
  have hsource : blanks ++ (p.written ++ (trail ++ ['}'])) = ' ' :: (s ++ ['}']) := by
    simpa [Phrase.writtenAll, Phrase.written, Phrase.inside] using hwritten
  cases blanks with
  | nil =>
    have := hfits.1.startsVisible (StepForm.writtenAll p.steps ++ (trail ++ ['}'])) ' ' (s ++ ['}'])
      (by simpa [PathForm.written] using hsource)
    exact absurd this (by decide)
  | cons c blanks =>
    obtain ⟨rfl, hsource⟩ := List.cons.inj hsource
    have hs_eq : s = blanks ++ (p.written ++ trail) := by
      have hsource : s ++ ['}'] = blanks ++ (p.written ++ trail) ++ ['}'] := by
        simpa using hsource.symm
      exact List.append_cancel_right hsource
    have htrail_nil : trail = [] := by
      rcases hfits.ending with ⟨name, hname⟩ | ⟨u, hu⟩
      · exact hname.eq_nil_of_blanks htrail (by simp [EndsName])
      · by_contra hne
        exact hs ⟨blanks ++ u, trail, by simp [hs_eq, hu], htrail, hne⟩
    subst htrail_nil
    exact ⟨blanks, rfl, by simpa using hs_eq, hblanks.tail,
      hfits.before_mark htight .nil⟩

/-- A chain is a path only if it has no filters. -/
theorem Expression.names_eq_nil_of_fold {e : Expression} {names : List Identifier} {q : SymbolPath}
    (h : fold e names = .path q) : names = [] := by
  induction names using List.reverseRecOn with
  | nil => rfl
  | append_singleton names name _ =>
    simp only [fold, List.foldl_append, List.foldl_cons, List.foldl_nil] at h
    cases h

/-- The template with nothing but a substitution of a path comes from such a substitution. -/
theorem eq_substitution_of_template {phrases : List Phrase} {q : SymbolPath}
    {position : Option Position}
    (h : Phrase.template phrases = ⟨[.substitution (.path q) position]⟩) :
    ∃ blanks p trail, phrases = [.substitution blanks p [] trail] := by
  have hsegments : Phrase.segments [] phrases = [.substitution (.path q) position] :=
    congrArg Template.segments h
  match phrases with
  | [] => cases hsegments
  | _ :: _ :: _ => simp [Phrase.segments] at hsegments
  | [.text pieces] => cases hsegments
  | [.block (.condition ..) body] => cases hsegments
  | [.block (.loop ..) body] => cases hsegments
  | [.substitution blanks p filters trail] =>
    simp only [Phrase.segments, Phrase.segment, List.cons.injEq, Segment.substitution.injEq,
      and_true] at hsegments
    have hnames := Expression.names_eq_nil_of_fold hsegments.1
    cases filters with
    | nil => exact ⟨blanks, p, trail, rfl⟩
    | cons f filters => cases hnames

/-- A source that does not end in blanks after a bracket is a bare path if and only if a
    substitution of it is one of a path, and then this is the bare path without the blanks at its
    ends. Whatever path a template has, its written form is that path. -/
theorem parsePath_agrees :
    (∀ (source : String) (limit : Int) (machine : Machine),
      ¬EndsBlankAfterBracket source.toList →
      ((∃ q, parsePath source = .ok q) ↔
        ∃ e position, parseTemplate ("#\x7b " ++ source ++ "\x7d") limit machine =
          .ok ⟨[.substitution (.path e) position]⟩) ∧
      ∀ q e position, parsePath source = .ok q →
        parseTemplate ("#\x7b " ++ source ++ "\x7d") limit machine =
          .ok ⟨[.substitution (.path e) position]⟩ →
        e.alike q.trimmed = true) ∧
    ∀ (source : String) (limit : Int) (machine : Machine) (t : Template),
      parseTemplate source limit machine = .ok t →
      ∀ q ∈ Segment.pathsAll t.segments, ∃ q', parsePath q.render = .ok q' ∧ q'.alike q = true := by
  constructor
  · intro source limit machine hsource
    have htag : ("#\x7b " ++ source ++ "\x7d").toList =
        '#' :: '{' :: ' ' :: (source.toList ++ ['}']) := by
      simp
    -- The path of a bare source stands in the substitution, too.
    have hshown : ∀ q, parsePath source = .ok q → ∃ e position,
        parseTemplate ("#\x7b " ++ source ++ "\x7d") limit machine =
          .ok ⟨[.substitution (.path e) position]⟩ ∧ e.alike q.trimmed = true := by
      intro q hq
      obtain ⟨blanks, p, hs, hblanks, hfits, htight, rfl⟩ := (parsePath_iff source q).1 hq
      have hderives := derives_substitution hblanks hfits htight
      rw [← hs, ← htag] at hderives
      refine ⟨_, _, (parseTemplate_of_derives limit machine hderives).1 ⟨hderives, ?_, ?_, ?_⟩,
        p.alike_trimmed _ hblanks hfits⟩
      · simpa [Phrase.pathsAll, Phrase.paths] using htight
      · simp [Phrase.depthAll, Phrase.depth]
      · simp [Phrase.depthAll, Phrase.depth]
    refine ⟨⟨?_, ?_⟩, ?_⟩
    · rintro ⟨q, hq⟩
      obtain ⟨e, position, ht, -⟩ := hshown q hq
      exact ⟨e, position, ht⟩
    · rintro ⟨e, position, ht⟩
      obtain ⟨phrases, hparses, htemplate⟩ := parses_of_parseTemplate ht
      obtain ⟨blanks, p, trail, rfl⟩ := eq_substitution_of_template htemplate.symm
      have hderives := hparses.derives
      rw [htag] at hderives
      have htight := hparses.tight p (by simp [Phrase.pathsAll, Phrase.paths])
      obtain ⟨blanks', -, hs, hblanks, hfits⟩ :=
        fits_of_derives_substitution hderives htight hsource
      exact ⟨p.bare blanks',
        (parsePath_iff source _).2 ⟨blanks', p, hs, hblanks, hfits, htight, rfl⟩⟩
    · intro q e position hq ht
      obtain ⟨e', position', ht', halike⟩ := hshown q hq
      rw [ht'] at ht
      cases ht
      exact halike
  · intro source limit machine t ht q hq
    obtain ⟨phrases, hparses, rfl⟩ := parses_of_parseTemplate ht
    exact (Phrase.pathsAll_stand [] hparses.derives.2 hparses.tight q hq).parsePath_render

theorem parsePath_agrees_order :
    ∃ q e position, parsePath " Order .Total " = .ok q ∧
      parseTemplate ("#\x7b " ++ " Order .Total " ++ "\x7d") =
        .ok ⟨[.substitution (.path e) position]⟩ ∧
      e.alike q.trimmed = true ∧ ∃ q', parsePath e.render = .ok q' ∧ q'.alike e = true := by
  have hbracket : ¬EndsBlankAfterBracket " Order .Total ".toList := by
    rintro ⟨u, blanks, hs, -⟩
    have hmem : ']' ∈ " Order .Total ".toList := by simp [hs]
    exact absurd hmem (by decide)
  have hok : (parsePath " Order .Total ").toBool = true := by decide +kernel
  cases hq : parsePath " Order .Total " with
  | error e =>
    rw [hq] at hok
    cases hok
  | ok q =>
    obtain ⟨hiff, halike⟩ := parsePath_agrees.1 " Order .Total " defaultDepth {} hbracket
    obtain ⟨e, position, ht⟩ := hiff.1 ⟨q, hq⟩
    have he : e ∈ Segment.pathsAll [.substitution (.path e) position] := List.mem_singleton.2 rfl
    exact ⟨q, e, position, rfl, ht, halike q e position hq ht, parsePath_agrees.2 _ _ _ _ ht e he⟩

end Stencil
