-- SUMMARY: The written form of a legible template is parsed as that template.
import Stencil.Proofs.Legibility
import Stencil.Proofs.Parsing
import Stencil.Proofs.Plain

/-! # Rendering

A template is rendered as the phrases of its source are written once they are made plain: no blanks
but those that a tag needs, keywords in lower case, and no blanks at the ends of names. Plain
phrases stand for the same as the phrases that they come from, and if the template is legible, they
fit where those fit. So what is rendered is parsed again as the same template.
-/

namespace Stencil

open Text (isBlank trimEnd)

/-! ## Literal text -/

/-- Pieces that stand for themselves. What they stand for shows the others: an escape has the
    opening of a tag in it, and a hash mark before a tag is the last character. -/
theorem PieceForm.AllFit.verbatim {following : List Char} {pieces : List PieceForm}
    (h : AllFit following pieces) (htag : ¬['#', '{'] <:+: pieces.flatMap meaning)
    (hlast : following ≠ [] → (pieces.flatMap meaning).getLast? ≠ some '#') :
    ∀ piece ∈ pieces, piece.meaning = piece.written := by
  induction pieces with
  | nil => simp
  | cons piece pieces ih =>
    obtain ⟨hfits, hrest⟩ := h
    rw [List.flatMap_cons] at htag hlast
    have hpieces : ∀ piece ∈ pieces, piece.meaning = piece.written := by
      apply ih hrest
      · intro htag'
        exact htag (htag'.trans (List.suffix_append _ _).isInfix)
      · intro hne hlast'
        apply hlast hne
        rw [List.getLast?_append, hlast']
        rfl
    refine List.forall_mem_cons.2 ⟨?_, hpieces⟩
    cases piece with
    | run chars | lastHash | hashAnd c => rfl
    | escape => exact absurd (List.prefix_append ['#', '{'] _).isInfix htag
    | hashBeforeTag =>
      obtain ⟨s, hs⟩ := hfits
      cases pieces with
      | nil => exact absurd rfl (hlast (by simp [show following = _ from hs]))
      | cons next pieces =>
        rw [writtenAll_cons, List.append_assoc] at hs
        exact absurd hrest.1 (not_fits (.inr ⟨s, rfl⟩) hs.symm)

theorem PieceForm.flatMap_meaning {pieces : List PieceForm}
    (h : ∀ piece ∈ pieces, piece.meaning = piece.written) :
    pieces.flatMap meaning = writtenAll pieces := by
  induction pieces with
  | nil => rfl
  | cons piece pieces ih =>
    obtain ⟨hpiece, hrest⟩ := List.forall_mem_cons.1 h
    rw [List.flatMap_cons, hpiece, ih hrest, writtenAll_cons]

theorem join_meaning (pieces : List PieceForm) :
    (String.join (pieces.map fun piece => String.ofList piece.meaning)).toList =
      pieces.flatMap PieceForm.meaning := by
  simp [String.toList_join, List.flatMap_map]

/-! ## Filters -/

/-- The blanks in front of a name are all that starts a text that ends in it. -/
theorem IsName.dropWhile_trimEnd {name following blanks : List Char} (h : IsName name following)
    (hblanks : AllBlank blanks) : (blanks ++ trimEnd name).dropWhile isBlank = trimEnd name := by
  have hname : IsName (trimEnd name) [] := h.trimEnd_before_mark .nil
  have hvisible := hname.startsVisible []
  rw [List.append_nil] at hvisible
  exact dropWhile_blanks hblanks hvisible

theorem EndsName.bar (s : List Char) : EndsName ('|' :: s) := .inl ⟨s, rfl⟩

namespace FilterForm

/-- The filter as it is rendered. -/
def plain (f : FilterForm) : FilterForm := ⟨[' '], [' '], trimEnd f.chars⟩

/-- Rendered filters fit in front of a mark, unless one before a bar would lose its last word. -/
theorem AllFit.plain {following following' : List Char} {filters : List FilterForm}
    (h : AllFit following filters) (hmark : EndsAtMark following')
    (hin : ∀ f ∈ filters.dropLast, ¬EndsInWord (trimEnd f.chars)) :
    AllFit following' (filters.map FilterForm.plain) := by
  induction filters with
  | nil => trivial
  | cons f filters ih =>
    obtain ⟨⟨-, -, hname⟩, hrest⟩ := h
    cases filters with
    | nil => exact ⟨⟨AllBlank.space, AllBlank.space, hname.trimEnd_before_mark hmark⟩, trivial⟩
    | cons next filters =>
      obtain ⟨hf, hin⟩ := List.forall_mem_cons.1 hin
      exact ⟨⟨AllBlank.space, AllBlank.space, hname.before_blank hf (.bar _)⟩, ih hrest hin⟩

/-- A chain is rendered with each filter behind a bar that has a blank on either side. -/
theorem render_fold (before : List Char) (e : Expression) (filters : List FilterForm) :
    (Expression.fold e (names before filters)).render.toList =
      e.render.toList ++ writtenAll (filters.map FilterForm.plain) := by
  induction filters generalizing before e with
  | nil => simp [names, Expression.fold]
  | cons f filters ih =>
    have hrest := ih (before ++ f.written) (.call true (f.name before) e (f.name before).position)
    simp only [Expression.fold] at hrest ⊢
    rw [names, List.foldl_cons, hrest]
    simp [Expression.render, FilterForm.name, FilterForm.plain, FilterForm.written]

/-- In the names of filters the blanks at their ends make no difference. -/
theorem alike_fold (before before' : List Char) {e e' : Expression}
    {filters filters' : List FilterForm}
    (hfilters : List.Forall₂ (fun f' f => trimEnd f'.chars = trimEnd f.chars) filters' filters)
    (h : e'.alike e = true) :
    (Expression.fold e' (names before' filters')).alike
      (Expression.fold e (names before filters)) = true := by
  induction hfilters generalizing before before' e e' with
  | nil => exact h
  | cons hf _ ih =>
    apply ih
    simp [Expression.alike, FilterForm.name, Identifier.alike, hf, h]

/-- The names of all filters but the last one are those that the stages before a bar end in. -/
theorem AllFit.exists_name_of_mem (before : List Char) {following : List Char}
    {filters : List FilterForm} (h : AllFit following filters) :
    ∀ f ∈ filters.dropLast, ∃ name ∈ (names before filters).dropLast,
      name.text.toList.dropWhile isBlank = trimEnd f.chars := by
  induction filters generalizing before with
  | nil => simp
  | cons f filters ih =>
    cases filters with
    | nil => simp
    | cons next filters =>
      have hrest := ih (before ++ f.written) h.2
      refine List.forall_mem_cons.2 ⟨⟨f.name before, List.mem_cons_self, ?_⟩, ?_⟩
      · simpa [name] using h.1.2.2.dropWhile_trimEnd AllBlank.nil
      · intro g hg
        obtain ⟨name, hname, htext⟩ := hrest g hg
        exact ⟨name, List.mem_cons_of_mem _ hname, htext⟩

end FilterForm

/-! ## Stages -/

namespace Expression

theorem arguments_subset_fold (e : Expression) (names : List Identifier) :
    e.arguments ⊆ (fold e names).arguments := by
  induction names generalizing e with
  | nil => exact List.Subset.refl _
  | cons name names ih =>
    have hrest := ih (.call true name e name.position)
    exact fun stage hstage => hrest (List.mem_cons_of_mem e hstage)

/-- A bar follows what the first filter is applied to. -/
theorem mem_arguments_fold (e : Expression) (name : Identifier) (names : List Identifier) :
    e ∈ (fold e (name :: names)).arguments :=
  arguments_subset_fold (.call true name e name.position) names List.mem_cons_self

/-- A bar follows each filter but the last one. -/
theorem exists_argument_of_mem (e : Expression) {names : List Identifier} :
    ∀ name ∈ names.dropLast, ∃ stage ∈ (fold e names).arguments, stage.lastName? = some name := by
  induction names generalizing e with
  | nil => simp
  | cons first names ih =>
    cases names with
    | nil => simp
    | cons next names =>
      have hrest := ih (.call true first e first.position)
      refine List.forall_mem_cons.2 ⟨?_, hrest⟩
      exact ⟨_, mem_arguments_fold (.call true first e first.position) next names, rfl⟩

end Expression

/-- The last step of a path is that of its form. -/
theorem StepForm.getLast?_stepsOf (before : List Char) {step : StepForm} {steps : List StepForm}
    (h : steps.getLast? = some step) :
    ∃ before', (stepsOf before steps).getLast? = some (step.step before' true) := by
  induction steps generalizing before with
  | nil => cases h
  | cons first steps ih =>
    cases steps with
    | nil =>
      cases h
      exact ⟨before, rfl⟩
    | cons next steps => exact ih (before ++ first.written) h

theorem StepForm.AllFit.getLast {following : List Char} {step : StepForm} {steps : List StepForm}
    (h : AllFit following steps) (hlast : steps.getLast? = some step) : step.Fits following := by
  induction steps with
  | nil => cases hlast
  | cons first steps ih =>
    cases steps with
    | nil =>
      cases hlast
      exact h.1
    | cons next steps => exact ih h.2 hlast

/-- A path ends in the name that its form ends in, up to blanks. -/
theorem PathForm.exists_lastName (before : List Char) {following chars : List Char} {p : PathForm}
    (h : p.Fits following) (hlast : p.lastName? = some chars) :
    ∃ name, (p.path before).lastName? = some name ∧
      name.text.toList.dropWhile isBlank = trimEnd chars := by
  obtain ⟨root, steps⟩ := p
  unfold lastName? at hlast
  split at hlast
  · next hnone =>
    obtain rfl : steps = [] := List.getLast?_eq_none_iff.1 hnone
    cases hlast
    refine ⟨(PathForm.path before ⟨root, []⟩).root, rfl, ?_⟩
    simpa [path] using h.1.dropWhile_trimEnd AllBlank.nil
  · next step hstep =>
    obtain ⟨before', hstepsOf⟩ := StepForm.getLast?_stepsOf (before ++ root) hstep
    cases step with
    | index gap chars' chars_ne => cases hlast
    | name gap blanks chars' =>
      cases hlast
      obtain ⟨-, hblanks, hname⟩ := h.2.getLast hstep
      refine ⟨⟨String.ofList (trimEnd (blanks ++ chars)), some (.after (before' ++ gap ++ ['.']))⟩,
        ?_, ?_⟩
      · simp [SymbolPath.lastName?, path, hstepsOf, StepForm.step]
      · rw [String.toList_ofList, hname.trimEnd_append]
        exact hname.dropWhile_trimEnd hblanks

/-! ## Tags -/

/-- The name of a loop variable does not lose its last word, because it has not lost it to the `in`
    after it either. -/
theorem IsName.not_endsInWord {name gap s : List Char} {c : Char}
    (h : IsName name (gap ++ 'i' :: 'n' :: c :: s)) (hgap : AllBlank gap) :
    ¬EndsInWord (trimEnd name) := by
  rintro ⟨u, d, hname, hd⟩
  obtain ⟨tail, htail, hblank, -⟩ := h.exists_trimEnd
  rw [hname] at htail
  rcases h.goesOn u d ('i' :: 'n' :: tail) (by simp [htail]) with hd' | ⟨-, hends⟩
  · rw [isNameChar_of_isBlank hd] at hd'
    cases hd'
  · -- Some blank comes after that `in`, since a name goes on over the letters of the next one.
    have hblanks : AllBlank (tail ++ gap) := List.forall_mem_append.2 ⟨hblank, hgap⟩
    cases hb : tail ++ gap with
    | nil =>
      obtain ⟨rfl, rfl⟩ := List.append_eq_nil_iff.1 hb
      exact absurd (.inl (by decide)) (h.ends 'i' _ rfl)
    | cons b blanks =>
      apply hends
      right
      refine ⟨b, blanks ++ 'i' :: 'n' :: c :: s, ?_, (hb ▸ hblanks).head⟩
      rw [List.cons_append, List.cons_append, ← List.append_assoc, hb]
      rfl

namespace HeadForm

/-- The opening tag as it is rendered. -/
def plain : HeadForm → HeadForm
  | .condition negated _ _ subject _ =>
    .condition negated (conditionKind negated).keyword.toList [' '] subject.plain []
  | .loop _ _ enumerator _ _ collection _ =>
    .loop BlockKind.each.keyword.toList [' '] (trimEnd enumerator) [' '] [' '] collection.plain []

@[simp] theorem plain_kind (head : HeadForm) : head.plain.kind = head.kind := by
  cases head <;> rfl

@[simp] theorem plain_path (head : HeadForm) : head.plain.path = head.path.plain := by
  cases head <;> rfl

theorem exists_written (head : HeadForm) : ∃ s, head.written = '#' :: '{' :: s := by
  cases head <;> exact ⟨_, rfl⟩

/-- An opening tag without superfluous blanks is still one. -/
theorem Fits.plain {head : HeadForm} {following : List Char} (h : head.Fits following)
    (htight : head.path.Tight) (following' : List Char) : head.plain.Fits following' := by
  have hmark : EndsAtMark ('}' :: following') := .brace following'
  cases head with
  | condition negated keyword blanks subject trail =>
    obtain ⟨-, -, -, hsubject, -⟩ := h
    exact ⟨inAnyCase_self _, .space, by simp, hsubject.plain htight hmark, AllBlank.nil⟩
  | loop keyword blanks enumerator gap inBlanks collection trail =>
    obtain ⟨-, -, -, henumerator, hgap, -, hne, hcollection, -⟩ := h
    have hname : IsName (trimEnd enumerator) (' ' :: 'i' :: 'n' :: ' ' ::
        (collection.plain.written ++ ('}' :: following'))) := by
      apply henumerator.before_blank
      · obtain ⟨c, inBlanks, rfl⟩ := List.exists_cons_of_ne_nil hne
        simp only [List.append_assoc, List.cons_append] at henumerator
        exact henumerator.not_endsInWord hgap
      · exact .inr ⟨' ', _, rfl, by decide⟩
    refine ⟨inAnyCase_self _, .space, by simp, ?_, .space, .space, by simp,
      hcollection.plain htight hmark, AllBlank.nil⟩
    simpa using hname

end HeadForm

/-! ## Phrases -/

namespace Phrase

mutual

/-- The phrase as it is rendered. -/
def plain : Phrase → Phrase
  | .text pieces => .text pieces
  | .substitution _ subject filters _ =>
    .substitution [] subject.plain (filters.map FilterForm.plain) []
  | .block head body => .block head.plain (plainAll body)

def plainAll : List Phrase → List Phrase
  | [] => []
  | phrase :: phrases => phrase.plain :: plainAll phrases

end

mutual

theorem depth_plain : ∀ phrase : Phrase, phrase.plain.depth = phrase.depth
  | .text _ => rfl
  | .substitution .. => rfl
  | .block head body => by simp [plain, depth, depthAll_plainAll body]

theorem depthAll_plainAll : ∀ phrases : List Phrase, depthAll (plainAll phrases) = depthAll phrases
  | [] => rfl
  | phrase :: phrases => by simp [plainAll, depthAll, depth_plain phrase, depthAll_plainAll phrases]

end

mutual

theorem paths_plain : ∀ phrase : Phrase, phrase.plain.paths = phrase.paths.map PathForm.plain
  | .text _ => rfl
  | .substitution .. => rfl
  | .block head body => by simp [plain, paths, pathsAll_plainAll body]

theorem pathsAll_plainAll :
    ∀ phrases : List Phrase, pathsAll (plainAll phrases) = (pathsAll phrases).map PathForm.plain
  | [] => rfl
  | phrase :: phrases => by
    simp [plainAll, pathsAll, paths_plain phrase, pathsAll_plainAll phrases]

end

/-- Plain phrases start like the phrases that they come from, as far as literal text before them is
    concerned. -/
theorem take_writtenAll_plainAll {following following' : List Char}
    (h : following.take 2 = following'.take 2) (phrases : List Phrase) :
    (writtenAll phrases ++ following).take 2 =
      (writtenAll (plainAll phrases) ++ following').take 2 := by
  induction phrases with
  | nil => exact h
  | cons phrase phrases ih =>
    simp only [writtenAll, plainAll, List.append_assoc]
    cases phrase with
    | text pieces => exact PieceForm.take_append_of_take_eq _ ih
    | substitution blanks subject filters trail => simp [written, plain]
    | block head body =>
      obtain ⟨s, hs⟩ := head.exists_written
      obtain ⟨t, ht⟩ := head.plain.exists_written
      simp [written, plain, hs, ht]

/-! ## Plain phrases fit -/

/-- An expression is rendered as its plain form is written. -/
theorem render_expression (before before' : List Char) {following : List Char} {subject : PathForm}
    (h : subject.Fits following) (htight : subject.Tight) (filters : List FilterForm) :
    (Expression.fold (.path (subject.path before))
        (FilterForm.names before' filters)).render.toList =
      subject.plain.written ++ FilterForm.writtenAll (filters.map FilterForm.plain) := by
  rw [FilterForm.render_fold, Expression.render, PathForm.render_path before h htight]

/-- The substitution of a legible expression fits anywhere. -/
theorem fits_substitution_plain (before before' following' : List Char)
    {following following₁ : List Char} {subject : PathForm} {filters : List FilterForm}
    (hsubject : subject.Fits following) (htight : subject.Tight)
    (hfilters : FilterForm.AllFit following₁ filters)
    (hlegible : (Expression.fold (.path (subject.path before))
      (FilterForm.names before' filters)).Legible) :
    (substitution [] subject.plain (filters.map FilterForm.plain) []).Fits following' := by
  have hrender := render_expression before before' hsubject htight filters
  have hinside : inside [] subject.plain (filters.map FilterForm.plain) [] following' =
      (Expression.fold (.path (subject.path before))
        (FilterForm.names before' filters)).render.toList ++ '}' :: following' := by
    simp [inside, hrender]
  have hmark : EndsAtMark ('}' :: following') := .brace following'
  obtain ⟨hclosing, hopening, hin⟩ := hlegible
  -- What the tag looks like is up to the expression: the brace after it is no part of a keyword.
  refine ⟨?_, ?_, AllBlank.nil, ?_, ?_, AllBlank.nil⟩
  · intro s hs
    rw [hinside] at hs
    rcases List.append_eq_cons_iff.1 hs with ⟨-, hbrace⟩ | ⟨t, ht, -⟩
    · cases hbrace
    · exact hclosing (by rw [ht]; rfl)
  · rw [hinside]
    exact fun hblock => hopening hblock.of_append_brace
  · cases filters with
    | nil => exact hsubject.plain htight hmark
    | cons f filters =>
      have hlast : ∀ chars, subject.lastName? = some chars → ¬EndsInWord (trimEnd chars) := by
        intro chars hchars
        obtain ⟨name, hname, htext⟩ := subject.exists_lastName before hsubject hchars
        rw [← htext]
        exact hin _ (Expression.mem_arguments_fold _ _ _) name hname
      have hfits := hsubject.plain_before_blank htight hlast
        (EndsName.bar (' ' :: (trimEnd f.chars ++
          (FilterForm.writtenAll (filters.map FilterForm.plain) ++ '}' :: following'))))
      simpa [FilterForm.plain, FilterForm.written] using hfits
  · apply hfilters.plain hmark
    intro f hf
    obtain ⟨name, hname, htext⟩ := hfilters.exists_name_of_mem before' f hf
    obtain ⟨stage, hstage, hlast⟩ := Expression.exists_argument_of_mem _ name hname
    rw [← htext]
    exact hin stage hstage name hlast

mutual

/-- A phrase of a legible segment fits as it is rendered where it fits as it is written. -/
theorem Fits.plain (before : List Char) {last : Bool} {following following' : List Char}
    (hstart : following.take 2 = following'.take 2) :
    ∀ {phrase : Phrase}, phrase.Fits following → (∀ p ∈ phrase.paths, p.Tight) →
      (phrase.segment before).Legible last → phrase.plain.Fits following'
  | .text pieces, h, _, _ => ⟨h.1, h.2.congr hstart⟩
  | .substitution blanks subject filters trail, h, htight, hlegible => by
    obtain ⟨-, -, -, hsubject, hfilters, -⟩ := h
    exact fits_substitution_plain _ _ following' hsubject (htight subject List.mem_cons_self)
      hfilters hlegible
  | .block (.condition negated keyword blanks subject trail) body, h, htight, hlegible => by
    obtain ⟨hhead, hbody⟩ := h
    obtain ⟨htight_head, htight_body⟩ := List.forall_mem_cons.1 htight
    refine ⟨hhead.plain htight_head _, ?_⟩
    rw [HeadForm.plain_kind]
    exact AllFit.plain _ (PieceForm.take_append_of_take_eq _ hstart) hbody htight_body hlegible
  | .block (.loop keyword blanks enumerator gap inBlanks collection trail) body, h, htight,
      hlegible => by
    obtain ⟨hhead, hbody⟩ := h
    obtain ⟨htight_head, htight_body⟩ := List.forall_mem_cons.1 htight
    refine ⟨hhead.plain htight_head _, ?_⟩
    rw [HeadForm.plain_kind]
    exact AllFit.plain _ (PieceForm.take_append_of_take_eq _ hstart) hbody htight_body hlegible

/-- Phrases without superfluous blanks fit as well, if the source starts the same way behind them.
    -/
theorem AllFit.plain (before : List Char) {last : Bool} {following following' : List Char}
    (hstart : following.take 2 = following'.take 2) :
    ∀ {phrases : List Phrase}, AllFit following phrases → (∀ p ∈ pathsAll phrases, p.Tight) →
      Segment.AllLegible last (segments before phrases) → AllFit following' (plainAll phrases)
  | [], _, _, _ => trivial
  | phrase :: phrases, h, htight, hlegible => by
    obtain ⟨htight_phrase, htight_rest⟩ := List.forall_mem_append.1 htight
    exact ⟨Fits.plain before (take_writtenAll_plainAll hstart phrases) h.1 htight_phrase
      hlegible.1, AllFit.plain _ hstart h.2 htight_rest hlegible.2⟩

end

/-! ## Plain phrases are what is rendered -/

mutual

/-- A legible segment is rendered as its phrase is written when it is made plain. -/
theorem render_segment (before : List Char) {last : Bool} {following : List Char}
    (hlast : last = true → following = []) :
    ∀ {phrase : Phrase}, phrase.Fits following → (∀ p ∈ phrase.paths, p.Tight) →
      (phrase.segment before).Legible last →
      (phrase.segment before).render.toList = phrase.plain.written
  | .text pieces, h, _, hlegible => by
    obtain ⟨htag, hhash⟩ := hlegible
    rw [join_meaning] at htag hhash
    have hverbatim := h.2.verbatim htag fun hne => hhash (by
      cases last with
      | false => rfl
      | true => exact absurd (hlast rfl) hne)
    rw [segment, Segment.render, join_meaning, PieceForm.flatMap_meaning hverbatim]
    rfl
  | .substitution blanks subject filters trail, h, htight, _ => by
    obtain ⟨-, -, -, hsubject, -, -⟩ := h
    have hrender := render_expression (before ++ '#' :: '{' :: blanks)
      (before ++ '#' :: '{' :: blanks ++ subject.written) hsubject
      (htight subject List.mem_cons_self) filters
    simp only [segment, Segment.render, String.toList_append, hrender]
    simp [plain, written, inside]
  | .block (.condition negated keyword blanks subject trail) body, h, htight, hlegible => by
    obtain ⟨⟨-, -, -, hsubject, -⟩, hbody⟩ := h
    obtain ⟨htight_subject, htight_body⟩ := List.forall_mem_cons.1 htight
    have hpath := subject.render_path (before ++ '#' :: '{' :: (keyword ++ blanks)) hsubject
      htight_subject
    have hinner := render_segments
      (before ++ (HeadForm.condition negated keyword blanks subject trail).written) (by simp) hbody
      htight_body hlegible
    have hword : Segment.conditionWord negated = (conditionKind negated).keyword := by
      cases negated <;> rfl
    simp only [segment, Segment.render, String.toList_append, hpath, hinner, hword]
    simp [plain, written, HeadForm.plain, HeadForm.written, HeadForm.kind, BlockKind.closer]
  | .block (.loop keyword blanks enumerator gap inBlanks collection trail) body, h, htight,
      hlegible => by
    obtain ⟨⟨-, -, -, -, -, -, -, hcollection, -⟩, hbody⟩ := h
    obtain ⟨htight_collection, htight_body⟩ := List.forall_mem_cons.1 htight
    have hpath := collection.render_path (before ++ '#' :: '{' :: (keyword ++ blanks) ++
      enumerator ++ gap ++ 'i' :: 'n' :: inBlanks) hcollection htight_collection
    have hinner := render_segments
      (before ++ (HeadForm.loop keyword blanks enumerator gap inBlanks collection trail).written)
      (by simp) hbody htight_body hlegible
    simp only [segment, Segment.render, String.toList_append, hpath, hinner]
    simp [plain, written, HeadForm.plain, HeadForm.written, HeadForm.kind, BlockKind.closer,
      BlockKind.keyword]

/-- Legible segments are rendered as their phrases are written without superfluous blanks. -/
theorem render_segments (before : List Char) {last : Bool} {following : List Char}
    (hlast : last = true → following = []) :
    ∀ {phrases : List Phrase}, AllFit following phrases → (∀ p ∈ pathsAll phrases, p.Tight) →
      Segment.AllLegible last (segments before phrases) →
      (Segment.renderAll (segments before phrases)).toList = writtenAll (plainAll phrases)
  | [], _, _, _ => rfl
  | phrase :: phrases, h, htight, hlegible => by
    obtain ⟨htight_phrase, htight_rest⟩ := List.forall_mem_append.1 htight
    have hlast_phrase : (last && (segments (before ++ phrase.written) phrases).isEmpty) = true →
        writtenAll phrases ++ following = [] := by
      intro hboth
      obtain ⟨hlast_true, hempty⟩ := Bool.and_eq_true_iff.1 hboth
      cases phrases with
      | nil => exact hlast hlast_true
      | cons => cases hempty
    have hphrase := render_segment before hlast_phrase h.1 htight_phrase hlegible.1
    have hrest := render_segments (before ++ phrase.written) hlast h.2 htight_rest hlegible.2
    simp [segments, Segment.renderAll, plainAll, writtenAll, hphrase, hrest]

end

/-! ## Plain phrases stand for the same -/

mutual

/-- But for positions, a phrase stands for the same when it is made plain. -/
theorem alike_plain (before before' : List Char) {following : List Char} :
    ∀ {phrase : Phrase}, phrase.Fits following →
      (phrase.plain.segment before').alike (phrase.segment before) = true
  | .text pieces, _ => by simp [plain, segment, Segment.alike]
  | .substitution blanks subject filters trail, h => by
    obtain ⟨-, -, -, hsubject, -, -⟩ := h
    apply FilterForm.alike_fold
    · exact List.forall₂_map_left_iff.2 (List.forall₂_same.2 fun f _ => trimEnd_trimEnd f.chars)
    · exact PathForm.alike_plain _ _ hsubject
  | .block (.condition negated keyword blanks subject trail) body, h => by
    obtain ⟨⟨-, -, -, hsubject, -⟩, hbody⟩ := h
    simp [plain, HeadForm.plain, segment, Segment.alike, PathForm.alike_plain _ _ hsubject,
      allAlike_plainAll _ _ hbody]
  | .block (.loop keyword blanks enumerator gap inBlanks collection trail) body, h => by
    obtain ⟨⟨-, -, -, -, -, -, -, hcollection, -⟩, hbody⟩ := h
    simp [plain, HeadForm.plain, segment, Segment.alike, Identifier.alike, trimEnd_trimEnd,
      PathForm.alike_plain _ _ hcollection, allAlike_plainAll _ _ hbody]

/-- Superfluous blanks change nothing but positions. -/
theorem allAlike_plainAll (before before' : List Char) {following : List Char} :
    ∀ {phrases : List Phrase}, AllFit following phrases →
      Segment.allAlike (segments before' (plainAll phrases)) (segments before phrases) = true
  | [], _ => rfl
  | phrase :: phrases, h => by
    simp [plainAll, segments, Segment.allAlike, alike_plain before before' h.1,
      allAlike_plainAll _ _ h.2]

end

end Phrase

/-! ## Round trip -/

/-- The written form of a legible template is parsed, under the same limits, as that template. -/
theorem parseTemplate_render {source : String} {limit : Int} {machine : Machine} {t : Template}
    (h : parseTemplate source limit machine = .ok t) (hlegible : t.Legible) :
    ∃ u, parseTemplate t.render limit machine = .ok u ∧ u.alike t = true := by
  obtain ⟨phrases, hparses, rfl⟩ := parses_of_parseTemplate h
  obtain ⟨⟨-, hfits⟩, htight, hdepth, hdepth_build⟩ := hparses
  have hrender := Phrase.render_segments [] (fun _ => rfl) hfits htight hlegible
  have hplain := Phrase.AllFit.plain [] rfl hfits htight hlegible
  have hderives : Phrase.Derives (Phrase.template phrases).render.toList
      (Phrase.plainAll phrases) := ⟨hrender.symm, hplain⟩
  refine ⟨Phrase.template (Phrase.plainAll phrases), ?_, Phrase.allAlike_plainAll [] [] hfits⟩
  apply (parseTemplate_of_derives limit machine hderives).1
  refine ⟨hderives, ?_, ?_, ?_⟩
  · rw [Phrase.pathsAll_plainAll]
    exact List.forall_mem_map.2 fun p hp => (htight p hp).plain
  · rwa [Phrase.depthAll_plainAll]
  · rwa [Phrase.depthAll_plainAll]

theorem parseTemplate_render_lines :
    ∃ source t u, source = "#\x7beach Line in Lines \x7d #\x7b Line|Upper \x7d#\x7b/each\x7d #" ∧
      parseTemplate source = .ok t ∧ t.Legible ∧ parseTemplate t.render = .ok u ∧
      u.alike t = true := by
  obtain ⟨source, hsource⟩ : ∃ source,
      source = "#\x7beach Line in Lines \x7d #\x7b Line|Upper \x7d#\x7b/each\x7d #" := ⟨_, rfl⟩
  have hok : (parseTemplate source).toOption.any (fun t => decide t.Legible) = true := by
    rw [hsource]
    decide +kernel
  cases ht : parseTemplate source with
  | error e =>
    rw [ht] at hok
    cases hok
  | ok t =>
    rw [ht] at hok
    have hlegible : t.Legible := of_decide_eq_true hok
    obtain ⟨u, hu, halike⟩ := parseTemplate_render ht hlegible
    exact ⟨source, t, u, hsource, ht, hlegible, hu, halike⟩

end Stencil
