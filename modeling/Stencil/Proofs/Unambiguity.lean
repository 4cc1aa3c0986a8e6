-- SUMMARY: No source is made of phrases in two ways.
import Stencil.Proofs.Scanning

/-! # Unambiguity

Every form of the grammar ends in one place: of two forms that the same text starts with, each
followed by something it may stand before, neither goes on longer than the other, and they are the
same form. From names upwards this holds for steps, paths, filters, heads of blocks and phrases, so
a source has at most one derivation.
-/

namespace Stencil

open Text (isBlank)

/-! ## Lexemes -/

/-- A text has one longest name at its start. -/
theorem IsName.cut {name name' s s' : List Char} (h : IsName name s) (h' : IsName name' s')
    (heq : name ++ s = name' ++ s') : name = name' ∧ s = s' := by
  have hsplit := split_of_isName h
  rw [heq, split_of_isName h'] at hsplit
  exact ⟨(congrArg Prod.fst hsplit).symm, (congrArg Prod.snd hsplit).symm⟩

theorem AllBlank.cut {blanks blanks' s s' : List Char} (h : AllBlank blanks)
    (h' : AllBlank blanks') (hs : StartsVisible s) (hs' : StartsVisible s')
    (heq : blanks ++ s = blanks' ++ s') : blanks = blanks' ∧ s = s' := by
  have htake := takeWhile_blanks h hs
  have hdrop := dropWhile_blanks h hs
  rw [heq, takeWhile_blanks h' hs'] at htake
  rw [heq, dropWhile_blanks h' hs'] at hdrop
  exact ⟨htake.symm, hdrop.symm⟩

/-- Blanks up to a visible character. -/
theorem AllBlank.cut_mark {blanks blanks' s s' : List Char} {c c' : Char} (h : AllBlank blanks)
    (h' : AllBlank blanks') (hc : isBlank c = false) (hc' : isBlank c' = false)
    (heq : blanks ++ c :: s = blanks' ++ c' :: s') : blanks = blanks' ∧ c = c' ∧ s = s' := by
  have hvisible : ∀ {c : Char} {s : List Char}, isBlank c = false → StartsVisible (c :: s) := by
    intro c s hc d t hd
    cases hd
    exact hc
  obtain ⟨hblanks, hs⟩ := h.cut h' (hvisible hc) (hvisible hc') heq
  exact ⟨hblanks, List.cons.inj hs⟩

theorem cut_bracket {chars chars' s s' : List Char} (h : ']' ∉ chars) (h' : ']' ∉ chars')
    (heq : chars ++ ']' :: s = chars' ++ ']' :: s') : chars = chars' ∧ s = s' := by
  induction chars generalizing chars' with
  | nil =>
    cases chars' with
    | nil => exact ⟨rfl, (List.cons.inj heq).2⟩
    | cons c chars' =>
      obtain ⟨rfl, -⟩ := List.cons.inj heq
      exact absurd List.mem_cons_self h'
  | cons c chars ih =>
    cases chars' with
    | nil =>
      obtain ⟨rfl, -⟩ := List.cons.inj heq
      exact absurd List.mem_cons_self h
    | cons d chars' =>
      obtain ⟨rfl, hrest⟩ := List.cons.inj heq
      obtain ⟨rfl, rfl⟩ :=
        ih (List.not_mem_of_not_mem_cons h) (List.not_mem_of_not_mem_cons h') hrest
      exact ⟨rfl, rfl⟩

theorem InAnyCase.cut {word : String} {written written' s s' : List Char}
    (h : InAnyCase word written) (h' : InAnyCase word written')
    (heq : written ++ s = written' ++ s') : written = written' ∧ s = s' :=
  List.append_inj heq (h.length_eq.symm.trans h'.length_eq)

/-! ## Literal text -/

/-- A text has one piece at its start that fits. -/
theorem PieceForm.cut {p p' : PieceForm} {s s' : List Char} (h : p.Fits s) (h' : p'.Fits s')
    (heq : p.written ++ s = p'.written ++ s') : p = p' ∧ s = s' := by
  have hpiece := piece?_of_fits h
  rw [heq, piece?_of_fits h'] at hpiece
  simp only [Option.some.injEq, Literal.Piece.mk.injEq] at hpiece
  obtain ⟨hw, hm, rfl⟩ := hpiece
  refine ⟨?_, rfl⟩
  have hrun : ∀ {chars t u : List Char}, (run chars).Fits t → chars ≠ '#' :: u := by
    rintro chars t u hfits rfl
    exact hfits.2.1 List.mem_cons_self
  cases p with
  | run chars =>
    cases p' with
    | run chars' => exact congrArg run hw.symm
    | _ => exact absurd hw.symm (hrun h)
  | lastHash | hashBeforeTag | escape | hashAnd c =>
    cases p' with
    | run chars' => exact absurd hw (hrun h')
    | _ => simp_all [written, meaning]

/-- A text has one sequence of pieces at its start that ends where literal text does. -/
theorem PieceForm.cut_all {pieces pieces' : List PieceForm} {s s' : List Char}
    (h : AllFit s pieces) (h' : AllFit s' pieces')
    (heq : writtenAll pieces ++ s = writtenAll pieces' ++ s') : pieces = pieces' ∧ s = s' := by
  induction pieces generalizing pieces' with
  | nil =>
    cases pieces' with
    | nil => exact ⟨rfl, heq⟩
    | cons p pieces' =>
      refine absurd h'.1 (not_fits h.endsText (t := writtenAll pieces' ++ s') ?_)
      simpa [writtenAll] using heq
  | cons p pieces ih =>
    cases pieces' with
    | nil =>
      refine absurd h.1 (not_fits h'.endsText (t := writtenAll pieces ++ s) ?_)
      simpa [writtenAll] using heq.symm
    | cons p' pieces' =>
      simp only [writtenAll, List.flatMap_cons, List.append_assoc] at heq
      obtain ⟨rfl, hrest⟩ := PieceForm.cut h.1 h'.1 heq
      obtain ⟨rfl, rfl⟩ := ih h.2 h'.2 hrest
      exact ⟨rfl, rfl⟩

/-! ## Paths -/

/-- What may follow a path in a tag. -/
def EndsSteps (s : List Char) : Prop :=
  ∃ lead c t, s = lead ++ c :: t ∧ AllBlank lead ∧ (c = '|' ∨ c = '}')

theorem EndsSteps.of_brace {trail s : List Char} (h : AllBlank trail) :
    EndsSteps (trail ++ '}' :: s) :=
  ⟨trail, '}', s, rfl, h, .inr rfl⟩

theorem EndsSteps.of_filters {trail s : List Char} {filters : List FilterForm}
    (h : FilterForm.AllFit (trail ++ '}' :: s) filters) (htrail : AllBlank trail) :
    EndsSteps (FilterForm.writtenAll filters ++ trail ++ '}' :: s) := by
  cases filters with
  | nil => exact .of_brace htrail
  | cons f filters =>
    refine ⟨f.gap, '|', ?_⟩
    exact ⟨f.blanks ++ f.chars ++ (FilterForm.writtenAll filters ++ (trail ++ '}' :: s)),
      by simp [FilterForm.writtenAll, FilterForm.written], h.1.1, .inl rfl⟩

namespace StepForm

/-- No step starts where steps end. -/
theorem not_endsSteps {step : StepForm} {s t : List Char} (h : step.Fits s)
    (ht : EndsSteps t) : step.written ++ s ≠ t := by
  rintro rfl
  obtain ⟨lead, d, u, heq, hlead, hd⟩ := ht
  obtain ⟨c, v, hc, hw, hgap⟩ := exists_mark h
  rw [hw, List.append_assoc] at heq
  have hcut := hgap.cut_mark hlead (by rcases hc with rfl | rfl <;> decide)
    (by rcases hd with rfl | rfl <;> decide) heq
  obtain ⟨-, rfl, -⟩ := hcut
  rcases hc with rfl | rfl <;> rcases hd with hd | hd <;> cases hd

theorem cut {step step' : StepForm} {s s' : List Char} (h : step.Fits s) (h' : step'.Fits s')
    (heq : step.written ++ s = step'.written ++ s') : step = step' ∧ s = s' := by
  cases step with
  | name gap blanks chars =>
    obtain ⟨hgap, hblanks, hname⟩ := h
    cases step' with
    | name gap' blanks' chars' =>
      obtain ⟨hgap', hblanks', hname'⟩ := h'
      simp only [written, List.append_assoc, List.cons_append] at heq
      obtain ⟨rfl, -, hrest⟩ := hgap.cut_mark hgap' (by decide) (by decide) heq
      obtain ⟨rfl, hchars⟩ :=
        hblanks.cut hblanks' (hname.startsVisible s) (hname'.startsVisible s') hrest
      obtain ⟨rfl, rfl⟩ := hname.cut hname' hchars
      exact ⟨rfl, rfl⟩
    | index gap' chars' hne' =>
      simp only [written, List.append_assoc, List.cons_append] at heq
      have := hgap.cut_mark h'.1 (by decide) (by decide) heq
      cases this.2.1
  | index gap chars hne =>
    obtain ⟨hgap, hchars⟩ := h
    cases step' with
    | name gap' blanks' chars' =>
      simp only [written, List.append_assoc, List.cons_append] at heq
      have := hgap.cut_mark h'.1 (by decide) (by decide) heq
      cases this.2.1
    | index gap' chars' hne' =>
      obtain ⟨hgap', hchars'⟩ := h'
      simp only [written, List.append_assoc, List.cons_append, List.nil_append] at heq
      obtain ⟨rfl, -, hrest⟩ := hgap.cut_mark hgap' (by decide) (by decide) heq
      obtain ⟨rfl, rfl⟩ := cut_bracket hchars hchars' hrest
      exact ⟨rfl, rfl⟩

theorem cut_all {steps steps' : List StepForm} {s s' : List Char} (h : AllFit s steps)
    (h' : AllFit s' steps') (hs : EndsSteps s) (hs' : EndsSteps s')
    (heq : writtenAll steps ++ s = writtenAll steps' ++ s') : steps = steps' ∧ s = s' := by
  induction steps generalizing steps' with
  | nil =>
    cases steps' with
    | nil => exact ⟨rfl, heq⟩
    | cons step' steps' =>
      simp only [writtenAll, List.flatMap_nil, List.flatMap_cons, List.append_assoc,
        List.nil_append] at heq
      exact absurd heq.symm (not_endsSteps h'.1 hs)
  | cons step steps ih =>
    cases steps' with
    | nil =>
      simp only [writtenAll, List.flatMap_nil, List.flatMap_cons, List.append_assoc,
        List.nil_append] at heq
      exact absurd heq (not_endsSteps h.1 hs')
    | cons step' steps' =>
      simp only [writtenAll, List.flatMap_cons, List.append_assoc] at heq
      obtain ⟨rfl, hrest⟩ := StepForm.cut h.1 h'.1 heq
      obtain ⟨rfl, rfl⟩ := ih h.2 h'.2 hrest
      exact ⟨rfl, rfl⟩

end StepForm

theorem PathForm.cut {p p' : PathForm} {s s' : List Char} (h : p.Fits s) (h' : p'.Fits s')
    (hs : EndsSteps s) (hs' : EndsSteps s') (heq : p.written ++ s = p'.written ++ s') :
    p = p' ∧ s = s' := by
  obtain ⟨root, steps⟩ := p
  obtain ⟨root', steps'⟩ := p'
  simp only [written, List.append_assoc] at heq
  obtain ⟨rfl, hsteps⟩ := h.1.cut h'.1 heq
  obtain ⟨rfl, rfl⟩ := StepForm.cut_all h.2 h'.2 hs hs' hsteps
  exact ⟨rfl, rfl⟩

/-- A path up to the end of an opening tag. -/
theorem PathForm.cut_brace {p p' : PathForm} {trail trail' s s' : List Char}
    (h : p.Fits (trail ++ '}' :: s)) (h' : p'.Fits (trail' ++ '}' :: s')) (ht : AllBlank trail)
    (ht' : AllBlank trail')
    (heq : p.written ++ (trail ++ '}' :: s) = p'.written ++ (trail' ++ '}' :: s')) :
    p = p' ∧ trail = trail' ∧ s = s' := by
  obtain ⟨rfl, hend⟩ := PathForm.cut h h' (.of_brace ht) (.of_brace ht') heq
  obtain ⟨rfl, -, rfl⟩ := ht.cut_mark ht' (by decide) (by decide) hend
  exact ⟨rfl, rfl, rfl⟩

/-! ## Tags -/

theorem FilterForm.cut {f f' : FilterForm} {s s' : List Char} (h : f.Fits s) (h' : f'.Fits s')
    (heq : f.written ++ s = f'.written ++ s') : f = f' ∧ s = s' := by
  obtain ⟨gap, blanks, chars⟩ := f
  obtain ⟨gap', blanks', chars'⟩ := f'
  obtain ⟨hgap, hblanks, hname⟩ := h
  obtain ⟨hgap', hblanks', hname'⟩ := h'
  simp only [written, List.append_assoc, List.cons_append] at heq
  obtain ⟨rfl, -, hrest⟩ := hgap.cut_mark hgap' (by decide) (by decide) heq
  obtain ⟨rfl, hchars⟩ :=
    hblanks.cut hblanks' (hname.startsVisible s) (hname'.startsVisible s') hrest
  obtain ⟨rfl, rfl⟩ := hname.cut hname' hchars
  exact ⟨rfl, rfl⟩

/-- Filters up to the end of a substitution. -/
theorem FilterForm.cut_all {filters filters' : List FilterForm} {trail trail' s s' : List Char}
    (h : AllFit (trail ++ '}' :: s) filters) (h' : AllFit (trail' ++ '}' :: s') filters')
    (ht : AllBlank trail) (ht' : AllBlank trail')
    (heq : writtenAll filters ++ (trail ++ '}' :: s) =
      writtenAll filters' ++ (trail' ++ '}' :: s')) :
    filters = filters' ∧ trail = trail' ∧ s = s' := by
  induction filters generalizing filters' with
  | nil =>
    cases filters' with
    | nil =>
      obtain ⟨rfl, -, rfl⟩ := ht.cut_mark ht' (by decide) (by decide) heq
      exact ⟨rfl, rfl, rfl⟩
    | cons f' filters' =>
      simp only [writtenAll, written, List.flatMap_nil, List.flatMap_cons, List.append_assoc,
        List.nil_append, List.cons_append] at heq
      have := ht.cut_mark h'.1.1 (by decide) (by decide) heq
      cases this.2.1
  | cons f filters ih =>
    cases filters' with
    | nil =>
      simp only [writtenAll, written, List.flatMap_nil, List.flatMap_cons, List.append_assoc,
        List.nil_append, List.cons_append] at heq
      have := h.1.1.cut_mark ht' (by decide) (by decide) heq
      cases this.2.1
    | cons f' filters' =>
      simp only [writtenAll_cons, List.append_assoc] at heq
      obtain ⟨rfl, hrest⟩ := FilterForm.cut h.1 h'.1 heq
      obtain ⟨rfl, rfl, rfl⟩ := ih h.2 h'.2 hrest
      exact ⟨rfl, rfl, rfl⟩

theorem PathForm.Fits.startsVisible {p : PathForm} {following : List Char}
    (h : p.Fits following) (t : List Char) : StartsVisible (p.written ++ t) := by
  rw [written, List.append_assoc]
  exact h.1.startsVisible _

/-- A text has one opening tag at its start. -/
theorem HeadForm.cut {head head' : HeadForm} {s s' : List Char} (h : head.Fits s)
    (h' : head'.Fits s') (heq : head.written ++ s = head'.written ++ s') :
    head = head' ∧ s = s' := by
  cases head with
  | condition negated keyword blanks subject trail =>
    obtain ⟨hk, hb, hne, hsubject, htrail⟩ := h
    cases head' with
    | condition negated' keyword' blanks' subject' trail' =>
      obtain ⟨hk', hb', hne', hsubject', htrail'⟩ := h'
      simp only [written, List.cons_append, List.nil_append, List.append_assoc, List.cons.injEq,
        true_and] at heq
      have hkind := hk.kind_eq hk' heq
      obtain rfl : negated = negated' := by
        cases negated <;> cases negated' <;> first | rfl | cases hkind
      obtain ⟨rfl, hrest⟩ := hk.cut hk' heq
      obtain ⟨rfl, hpath⟩ :=
        hb.cut hb' (hsubject.startsVisible _) (hsubject'.startsVisible _) hrest
      obtain ⟨rfl, rfl, rfl⟩ := PathForm.cut_brace hsubject hsubject' htrail htrail' hpath
      exact ⟨rfl, rfl⟩
    | loop keyword' blanks' enumerator' gap' inBlanks' collection' trail' =>
      simp only [written, List.cons_append, List.append_assoc, List.cons.injEq, true_and] at heq
      have hkind := hk.kind_eq h'.1 heq
      cases negated <;> cases hkind
  | loop keyword blanks enumerator gap inBlanks collection trail =>
    obtain ⟨hk, hb, hne, hname, hgap, hin, hinne, hcollection, htrail⟩ := h
    cases head' with
    | condition negated' keyword' blanks' subject' trail' =>
      simp only [written, List.cons_append, List.append_assoc, List.cons.injEq, true_and] at heq
      have hkind := hk.kind_eq h'.1 heq
      cases negated' <;> cases hkind
    | loop keyword' blanks' enumerator' gap' inBlanks' collection' trail' =>
      obtain ⟨hk', hb', hne', hname', hgap', hin', hinne', hcollection', htrail'⟩ := h'
      simp only [written, List.cons_append, List.nil_append, List.append_assoc, List.cons.injEq,
        true_and] at heq hname hname'
      obtain ⟨rfl, hrest⟩ := hk.cut hk' heq
      obtain ⟨rfl, hloop⟩ := hb.cut hb' (hname.startsVisible _) (hname'.startsVisible _) hrest
      obtain ⟨rfl, hword⟩ := hname.cut hname' hloop
      obtain ⟨rfl, -, hword⟩ := hgap.cut_mark hgap' (by decide) (by decide) hword
      obtain ⟨rfl, hpath⟩ := hin.cut hin' (hcollection.startsVisible _)
        (hcollection'.startsVisible _) (List.cons.inj hword).2
      obtain ⟨rfl, rfl, rfl⟩ :=
        PathForm.cut_brace hcollection hcollection' htrail htrail' hpath
      exact ⟨rfl, rfl⟩

private theorem InAnyCase.startsBlock {kind : BlockKind} {keyword blanks : List Char}
    (hk : InAnyCase kind.keyword keyword) (hb : AllBlank blanks) (hne : blanks ≠ [])
    (t : List Char) : StartsBlock (keyword ++ (blanks ++ t)) := by
  obtain ⟨c, blanks, rfl⟩ := List.exists_cons_of_ne_nil hne
  exact ⟨kind, keyword, c, blanks ++ t, rfl, hk, hb.head⟩

/-- The head of a block is told from a substitution by its keyword, and so it is from a closing
    tag. -/
theorem HeadForm.startsBlock {head : HeadForm} {s : List Char} (h : head.Fits s) :
    ∃ t, head.written ++ s = '#' :: '{' :: t ∧ StartsBlock t ∧ ∀ u, t ≠ '/' :: u := by
  cases head with
  | condition negated keyword blanks subject trail =>
    obtain ⟨hk, hb, hne, -⟩ := h
    refine ⟨keyword ++ (blanks ++ (subject.written ++ (trail ++ '}' :: s))), by simp [written],
      hk.startsBlock hb hne _, hk.ne_slash _⟩
  | loop keyword blanks enumerator gap inBlanks collection trail =>
    obtain ⟨hk, hb, hne, -⟩ := h
    refine ⟨keyword ++ (blanks ++ (enumerator ++ (gap ++ 'i' :: 'n' :: (inBlanks ++
      (collection.written ++ (trail ++ '}' :: s)))))), by simp [written],
      hk.startsBlock hb hne _, hk.ne_slash _⟩

/-! ## Phrases -/

/-- What may follow the phrases of a body or of a whole source. -/
def EndsBody (s : List Char) : Prop := s = [] ∨ ∃ (kind : BlockKind) (t : List Char),
  s = kind.closer.toList ++ t

namespace Phrase

/-- Where literal text starts, none has just ended. -/
theorem not_endsText {pieces : List PieceForm} {s : List Char} (h : Fits s (.text pieces)) :
    ¬EndsText (PieceForm.writtenAll pieces ++ s) := by
  obtain ⟨hne, hall⟩ := h
  intro hends
  cases pieces with
  | nil => exact hne rfl
  | cons p pieces =>
    refine PieceForm.not_fits hends (t := PieceForm.writtenAll pieces ++ s) ?_ hall.1
    simp [PieceForm.writtenAll]

/-- Literal text does not start with the head of a block. -/
theorem text_ne_head {pieces : List PieceForm} {head : HeadForm} {s t : List Char}
    (h : Fits s (.text pieces)) (h' : head.Fits t) :
    PieceForm.writtenAll pieces ++ s ≠ head.written ++ t := by
  intro heq
  obtain ⟨u, hu, -⟩ := HeadForm.startsBlock h'
  exact not_endsText h (.inr ⟨u, heq.trans hu⟩)

/-- Nor does a substitution. -/
theorem substitution_ne_head {blanks trail s t : List Char} {subject : PathForm}
    {filters : List FilterForm} {head : HeadForm}
    (h : Fits s (.substitution blanks subject filters trail)) (h' : head.Fits t) :
    '#' :: '{' :: inside blanks subject filters trail s ≠ head.written ++ t := by
  intro heq
  obtain ⟨u, hu, hblock, -⟩ := HeadForm.startsBlock h'
  rw [hu] at heq
  simp only [List.cons.injEq, true_and] at heq
  rw [← heq] at hblock
  exact h.2.1 hblock

/-- Where a phrase starts, no body has ended. -/
theorem not_endsBody {phrase : Phrase} {s : List Char} (h : phrase.Fits s) :
    ¬EndsBody (phrase.written ++ s) := by
  have hcloser : ∀ kind : BlockKind, ∃ t, kind.closer.toList = '#' :: '{' :: '/' :: t := by
    intro kind
    cases kind <;> exact ⟨_, rfl⟩
  cases phrase with
  | text pieces =>
    rintro (hnil | ⟨kind, t, hs⟩)
    · exact not_endsText h (.inl hnil)
    · obtain ⟨u, hu⟩ := hcloser kind
      exact not_endsText h (.inr ⟨_, by rw [← written, hs, hu]; rfl⟩)
  | substitution blanks subject filters trail =>
    rintro (hnil | ⟨kind, t, hs⟩)
    · cases hnil
    · obtain ⟨u, hu⟩ := hcloser kind
      rw [hu] at hs
      apply h.1 (u ++ t)
      simp only [written, inside, List.cons_append, List.cons.injEq, true_and] at hs
      simpa [inside] using hs
  | block head body =>
    obtain ⟨v, hv, -, hslash⟩ := HeadForm.startsBlock h.1
    have hw : written (.block head body) ++ s = '#' :: '{' :: v := by
      rw [← hv]
      simp [written]
    rw [hw]
    rintro (hnil | ⟨kind, t, hs⟩)
    · cases hnil
    · obtain ⟨u, hu⟩ := hcloser kind
      rw [hu] at hs
      simp only [List.cons_append, List.cons.injEq, true_and] at hs
      exact hslash _ hs

mutual

theorem cut {s s' : List Char} : ∀ {phrase phrase' : Phrase}, phrase.Fits s → phrase'.Fits s' →
    phrase.written ++ s = phrase'.written ++ s' → phrase = phrase' ∧ s = s'
  | .text pieces, .text pieces', h, h', heq => by
    obtain ⟨rfl, rfl⟩ := PieceForm.cut_all h.2 h'.2 heq
    exact ⟨rfl, rfl⟩
  | .text pieces, .substitution .., h, _, heq =>
    absurd (.inr ⟨_, heq⟩) (not_endsText h)
  | .text pieces, .block head body, h, h', heq => by
    apply absurd _ (text_ne_head h h'.1)
    simpa [written] using heq
  | .substitution .., .text pieces', _, h', heq =>
    absurd (.inr ⟨_, heq.symm⟩) (not_endsText h')
  | .substitution blanks subject filters trail, .substitution blanks' subject' filters' trail',
      h, h', heq => by
    obtain ⟨-, -, hblanks, hsubject, hfilters, htrail⟩ := h
    obtain ⟨-, -, hblanks', hsubject', hfilters', htrail'⟩ := h'
    simp only [written, inside, List.cons_append, List.append_assoc, List.cons.injEq, true_and,
      List.nil_append] at heq
    obtain ⟨rfl, hrest⟩ :=
      hblanks.cut hblanks' (hsubject.startsVisible _) (hsubject'.startsVisible _) heq
    obtain ⟨rfl, hend⟩ := PathForm.cut hsubject hsubject' (.of_filters hfilters htrail)
      (.of_filters hfilters' htrail') (by simpa using hrest)
    simp only [List.append_assoc] at hend
    obtain ⟨rfl, rfl, rfl⟩ := FilterForm.cut_all hfilters hfilters' htrail htrail' hend
    exact ⟨rfl, rfl⟩
  | .substitution blanks subject filters trail, .block head body, h, h', heq => by
    apply absurd _ (substitution_ne_head h h'.1)
    simpa [written, inside] using heq
  | .block head body, .text pieces', h, h', heq => by
    apply absurd _ (text_ne_head h' h.1)
    simpa [written] using heq.symm
  | .block head body, .substitution blanks subject filters trail, h, h', heq => by
    apply absurd _ (substitution_ne_head h' h.1)
    simpa [written, inside] using heq.symm
  | .block head body, .block head' body', h, h', heq => by
    obtain ⟨hhead, hbody⟩ := h
    obtain ⟨hhead', hbody'⟩ := h'
    simp only [written, List.append_assoc] at heq hhead hhead'
    obtain ⟨rfl, hrest⟩ := HeadForm.cut hhead hhead' heq
    obtain ⟨rfl, hend⟩ := cut_all hbody hbody' (.inr ⟨_, _, rfl⟩) (.inr ⟨_, _, rfl⟩) hrest
    exact ⟨rfl, List.append_cancel_left hend⟩

theorem cut_all {s s' : List Char} : ∀ {phrases phrases' : List Phrase}, AllFit s phrases →
    AllFit s' phrases' → EndsBody s → EndsBody s' →
    writtenAll phrases ++ s = writtenAll phrases' ++ s' → phrases = phrases' ∧ s = s'
  | [], [], _, _, _, _, heq => ⟨rfl, heq⟩
  | [], phrase' :: phrases', _, h', hs, _, heq => by
    apply absurd hs
    have := not_endsBody h'.1
    simp_all [writtenAll]
  | phrase :: phrases, [], h, _, _, hs', heq => by
    apply absurd hs'
    have := not_endsBody h.1
    simp_all [writtenAll]
  | phrase :: phrases, phrase' :: phrases', h, h', hs, hs', heq => by
    simp only [writtenAll, List.append_assoc] at heq
    obtain ⟨rfl, hrest⟩ := cut h.1 h'.1 heq
    obtain ⟨rfl, rfl⟩ := cut_all h.2 h'.2 hs hs' hrest
    exact ⟨rfl, rfl⟩

end

/-- A source has at most one derivation. -/
theorem Derives.unique {source : List Char} {phrases phrases' : List Phrase}
    (h : Derives source phrases) (h' : Derives source phrases') : phrases = phrases' :=
  (cut_all h.2 h'.2 (.inl rfl) (.inl rfl) (by rw [h.1, h'.1])).1

end Phrase

end Stencil
