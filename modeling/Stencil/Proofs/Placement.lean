-- SUMMARY: Where the elements of a parsed template stand, and what the source says there.
import Stencil.Element.Written
import Stencil.Proofs.Parsing

/-! # Placement

A template that was read maps its source: every element in it has a place there, the places come
in the order of the source, and at each of them the source says what the element is. Two kinds of
elements have no place of their own: a path stands where its first step does, and a call where the
name of its function does.
-/

namespace Stencil

open Text (isBlank trimEnd)

namespace Element

mutual

/-- The elements that an element is made of, itself included, in the order of the source. -/
def nodes : Element → List Element
  | .identifier i => [.identifier i]
  | .indexer i => [.indexer i]
  | .path root rest position =>
    .path root rest position :: .identifier root :: nodesOf rest
  | .call isFilter function argument position =>
    nodes argument ++ .call isFilter function argument position :: nodes function
  | .text fragments position => [.text fragments position]
  | .substitution expression position => .substitution expression position :: nodes expression
  | .conditional negated subject body position =>
    .conditional negated subject body position :: (nodes subject ++ nodesOf body)
  | .repetition enumerator collection body position =>
    .repetition enumerator collection body position ::
      (nodes enumerator ++ nodes collection ++ nodesOf body)
  | .template segments => nodesOf segments

def nodesOf : List Element → List Element
  | [] => []
  | e :: rest => nodes e ++ nodesOf rest

end

/-- The part of an element that stands where the element does. -/
def lead? : Element → Option Element
  | .path root _ _ => some (.identifier root)
  | .call _ function _ _ => some function
  | _ => none

/-- The element does not share its place with a part of it. -/
def hasOwnPlace (e : Element) : Bool := e.lead?.isNone

/-- What a source says from the place on where an element stands. -/
def ReadsAs (s : List Char) : Element → Prop
  | .identifier i => (Element.identifier i).render.toList <+: s
  | .indexer i => (Element.indexer i).render.toList <+: s
  | .path root rest position => (Element.path root rest position).render.toList <+: s
  | .call .. => True
  | .text .. => ¬['#', '{'] <+: s
  | .substitution .. =>
    ∃ inner, s = '#' :: '{' :: inner ∧ ¬['/'] <+: inner ∧ ¬StartsBlock inner
  | .conditional negated .. =>
    ∃ keyword c rest, s = '#' :: '{' :: (keyword ++ c :: rest) ∧
      InAnyCase (conditionKind negated).keyword keyword ∧ isBlank c = true
  | .repetition .. =>
    ∃ keyword c rest, s = '#' :: '{' :: (keyword ++ c :: rest) ∧
      InAnyCase BlockKind.each.keyword keyword ∧ isBlank c = true
  | .template _ => True

/-- The element stands in the source at the given offset, with what the source says there. -/
structure StandsAt (source : List Char) (offset : Nat) (e : Element) : Prop where
  lt_length : offset < source.length
  position_eq : e.position = .ok (some (.ofOffset source offset))
  reads : e.ReadsAs (source.drop offset)
  shares : ∀ part, e.lead? = some part → e.position = part.position

/-- The elements stand in a source in their order, none of them before `start` nor beyond `stop`,
    and an element with a place of its own before all that follow it. -/
def Spread (source : List Char) (start stop : Nat) : List Element → Prop
  | [] => start ≤ stop
  | e :: es =>
    ∃ offset, start ≤ offset ∧ e.StandsAt source offset ∧
      Spread source (if e.hasOwnPlace then offset + 1 else offset) stop es

/-! ## Spread elements -/

section Spread

variable {source : List Char} {start stop : Nat} {es : List Element}

theorem Spread.mono {start' stop' : Nat} (h : Spread source start stop es) (hstart : start' ≤ start)
    (hstop : stop ≤ stop') : Spread source start' stop' es := by
  induction es generalizing start start' with
  | nil => exact hstart.trans (Nat.le_trans h hstop)
  | cons e es ih =>
    obtain ⟨offset, hle, hstands, hrest⟩ := h
    exact ⟨offset, hstart.trans hle, hstands, ih hrest (Nat.le_refl _)⟩

/-- What is spread over two stretches of a source, one after the other, is spread over both. -/
theorem Spread.append {middle : Nat} {es' : List Element} (h : Spread source start middle es)
    (h' : Spread source middle stop es') : Spread source start stop (es ++ es') := by
  induction es generalizing start with
  | nil => exact h'.mono h (Nat.le_refl _)
  | cons e es ih =>
    obtain ⟨offset, hle, hstands, hrest⟩ := h
    exact ⟨offset, hle, hstands, ih hrest⟩

/-- An element that stands right after a beginning of the source. -/
theorem StandsAt.of_append {e : Element} {before s : List Char} (hs : source = before ++ s)
    (hne : s ≠ []) (hposition : e.position = .ok (some (.after before)))
    (hreads : e.ReadsAs s) (hshares : ∀ part, e.lead? = some part → e.position = part.position) :
    e.StandsAt source before.length := by
  subst hs
  constructor
  · simpa using List.length_pos_iff.2 hne
  · rw [hposition, Position.ofOffset, Int.toNat_natCast, List.take_left]
  · rwa [List.drop_left]
  · exact hshares

/-- An element with a place of its own stands where its text starts. -/
theorem StandsAt.of_own {e : Element} {before s : List Char} (hown : e.lead? = none)
    (hs : source = before ++ s) (hne : s ≠ [])
    (hposition : e.position = .ok (some (.after before))) (hreads : e.ReadsAs s) :
    e.StandsAt source before.length :=
  .of_append hs hne hposition hreads (by simp [hown])

theorem Spread.exists_standsAt (h : Spread source start stop es) {e : Element} (he : e ∈ es) :
    ∃ offset, start ≤ offset ∧ e.StandsAt source offset := by
  induction es generalizing start with
  | nil => cases he
  | cons e' es ih =>
    obtain ⟨offset, hle, hstands, hrest⟩ := h
    rcases List.mem_cons.1 he with rfl | he
    · exact ⟨offset, hle, hstands⟩
    · obtain ⟨offset', hle', hstands'⟩ := ih hrest he
      refine ⟨offset', ?_, hstands'⟩
      split at hle' <;> omega

/-- Both elements have a place, and the first one is the earlier. -/
def StandsBefore (e e' : Element) : Prop :=
  ∃ p p', e.position = .ok (some p) ∧ e'.position = .ok (some p') ∧ p.offset < p'.offset

theorem StandsAt.offset_eq {e : Element} {offset : Nat} (h : e.StandsAt source offset) :
    (Position.ofOffset source offset).offset = offset := by
  have := h.lt_length
  simp [Position.ofOffset, Position.after]
  omega

/-- Elements that are spread have their own places in increasing order. -/
theorem Spread.pairwise (h : Spread source start stop es) :
    (es.filter hasOwnPlace).Pairwise StandsBefore := by
  induction es generalizing start with
  | nil => exact .nil
  | cons e es ih =>
    obtain ⟨offset, hle, hstands, hrest⟩ := h
    cases hown : e.hasOwnPlace with
    | false => simpa [hown] using ih hrest
    | true =>
      rw [List.filter_cons_of_pos hown]
      refine .cons ?_ (ih hrest)
      intro e' he'
      obtain ⟨offset', hle', hstands'⟩ := hrest.exists_standsAt (List.mem_filter.1 he').1
      rw [hown, if_pos rfl] at hle'
      refine ⟨_, _, hstands.position_eq, hstands'.position_eq, ?_⟩
      rw [hstands.offset_eq, hstands'.offset_eq]
      omega

theorem Spread.cons_own {e : Element} {offset : Nat} (hown : e.lead? = none)
    (h : e.StandsAt source offset) (hstart : start ≤ offset)
    (hrest : Spread source (offset + 1) stop es) : Spread source start stop (e :: es) := by
  refine ⟨offset, hstart, h, ?_⟩
  simpa [hasOwnPlace, hown] using hrest

theorem Spread.single {e : Element} {offset : Nat} (h : e.StandsAt source offset)
    (hstart : start ≤ offset) (hstop : offset < stop) : Spread source start stop [e] := by
  refine ⟨offset, hstart, h, ?_⟩
  simp only [Spread]
  split <;> omega

end Spread

end Element

/-! ## Paths -/

theorem trimEnd_prefix_self (s : List Char) : trimEnd s <+: s := by
  rw [← List.reverse_suffix, trimEnd, List.reverse_reverse]
  exact List.dropWhile_suffix _

/-- A step stands behind its dot or at its bracket. -/
theorem StepForm.standsAt {source before following : List Char} {step : StepForm} (last : Bool)
    (hs : source = before ++ (step.written ++ following)) (h : step.Fits following) :
    ∃ offset, before.length ≤ offset ∧ offset < (before ++ step.written).length ∧
      (step.step before last).toElement.StandsAt source offset := by
  cases step with
  | name gap blanks chars =>
    have hne := h.2.2.ne_nil
    have hpos := List.length_pos_iff.2 hne
    refine ⟨(before ++ gap ++ ['.']).length, by simp, by simp [written]; omega,
      .of_own rfl (s := blanks ++ chars ++ following) (by simp [hs, written]) (by simp [hne]) rfl
        ?_⟩
    simp only [step, Step.toElement, Element.ReadsAs, Element.render, String.toList_ofList]
    split
    · exact (trimEnd_prefix_self _).trans (List.prefix_append _ _)
    · exact List.prefix_append _ _
  | index gap chars chars_ne =>
    refine ⟨(before ++ gap).length, by simp, by simp [written],
      .of_own rfl (s := '[' :: (chars ++ [']']) ++ following) (by simp [hs, written]) (by simp) rfl
        ?_⟩
    simp [step, Step.toElement, Element.ReadsAs, Element.render, Indexer.render]

theorem Step.nodes_toElement (step : Step) : step.toElement.nodes = [step.toElement] := by
  cases step <;> rfl

theorem StepForm.spread {source following : List Char} {steps : List StepForm}
    (before : List Char) (hs : source = before ++ (writtenAll steps ++ following))
    (h : AllFit following steps) :
    Element.Spread source before.length (before ++ writtenAll steps).length
      (Element.nodesOf ((stepsOf before steps).map Step.toElement)) := by
  induction steps generalizing before with
  | nil => simp [stepsOf, writtenAll, Element.nodesOf, Element.Spread]
  | cons step steps ih =>
    obtain ⟨offset, hle, hlt, hstands⟩ := step.standsAt steps.isEmpty (by simpa using hs) h.1
    have hrest := ih (before ++ step.written) (by simpa using hs) h.2
    simp only [stepsOf, List.map_cons, Element.nodesOf, Step.nodes_toElement]
    refine (Element.Spread.single hstands hle hlt).append (hrest.mono (Nat.le_refl _) ?_)
    simp

/-- Steps without gaps are written like what stands in the source. -/
theorem StepForm.render_prefix_written (before : List Char) {steps : List StepForm}
    (h : ∀ step ∈ steps, step.gap = []) :
    (Element.renderSteps ((stepsOf before steps).map Step.toElement)).toList <+:
      writtenAll steps := by
  induction steps generalizing before with
  | nil => simp [stepsOf, Element.renderSteps]
  | cons step steps ih =>
    have hgap := h step List.mem_cons_self
    have hrest := ih (before ++ step.written) fun s hs => h s (List.mem_cons_of_mem _ hs)
    simp only [stepsOf, List.map_cons, Element.renderSteps_cons, String.toList_append]
    cases steps with
    | nil =>
      cases step with
      | name gap blanks chars =>
        obtain rfl : gap = [] := hgap
        have := trimEnd_prefix_self (blanks ++ chars)
        simpa [stepsOf, Element.renderSteps, written, step, Step.render] using this
      | index gap chars chars_ne =>
        obtain rfl : gap = [] := hgap
        simp [stepsOf, Element.renderSteps, written, step, Step.render, Indexer.render]
    | cons next steps =>
      have hstep : (step.step before false).render.toList = step.written := by
        cases step with
        | name gap blanks chars =>
          obtain rfl : gap = [] := hgap
          simp [written, step, Step.render]
        | index gap chars chars_ne =>
          obtain rfl : gap = [] := hgap
          simp [written, step, Step.render, Indexer.render]
      rw [List.isEmpty_cons, hstep]
      exact (List.prefix_append_right_inj _).2 hrest

/-- A path is written like what stands in the source, up to blanks after its last name. -/
theorem PathForm.render_prefix_written (before : List Char) {p : PathForm} (h : p.Tight) :
    (p.path before).toElement.render.toList <+: p.written := by
  obtain ⟨root, steps⟩ := p
  have hsteps := StepForm.render_prefix_written (before ++ root) h
  simp only [path, SymbolPath.toElement, Element.render, String.toList_append,
    String.toList_ofList, written]
  cases steps with
  | nil => simpa [StepForm.stepsOf, Element.renderSteps] using trimEnd_prefix_self root
  | cons step steps => exact (List.prefix_append_right_inj _).2 hsteps

/-- A path and its steps are spread over its text; the path shares the place of its root. -/
theorem PathForm.spread {source following : List Char} {p : PathForm} (before : List Char)
    (hs : source = before ++ (p.written ++ following)) (h : p.Fits following) (htight : p.Tight) :
    Element.Spread source before.length (before ++ p.written).length
      (p.path before).toElement.nodes := by
  obtain ⟨root, steps⟩ := p
  have hne : root ≠ [] := h.1.ne_nil
  have hpos : 0 < root.length := List.length_pos_iff.2 hne
  have hsteps := StepForm.spread (before ++ root) (by simpa [written] using hs) h.2
  have hwhole : (PathForm.path before ⟨root, steps⟩).toElement.StandsAt source before.length := by
    refine .of_append hs (by simp [written, hne]) rfl ?_ ?_
    · exact (render_prefix_written before htight).trans (List.prefix_append _ _)
    · intro part hpart
      cases hpart
      rfl
  have hroot : (Element.identifier (PathForm.path before ⟨root, steps⟩).root).StandsAt source
      before.length := by
    refine .of_own rfl hs (by simp [written, hne]) rfl ?_
    simp only [Element.ReadsAs, Element.render, path, String.toList_ofList, written,
      List.append_assoc]
    split
    · exact (trimEnd_prefix_self root).trans (List.prefix_append _ _)
    · exact List.prefix_append _ _
  -- The path and its root share a place, and the further steps come after it.
  refine ⟨before.length, Nat.le_refl _, hwhole, before.length, Nat.le_refl _, hroot, ?_⟩
  refine hsteps.mono ?_ (by simp [written])
  simp [Element.hasOwnPlace, Element.lead?]
  omega

/-! ## Filters -/

/-- A call stands with the name of its filter, after what the filter is applied to. -/
theorem FilterForm.spread {source following : List Char} {start : Nat}
    {filters : List FilterForm} (before : List Char) (subject : Expression)
    (hs : source = before ++ (writtenAll filters ++ following)) (h : AllFit following filters)
    (hsubject : Element.Spread source start before.length subject.toElement.nodes) :
    Element.Spread source start (before ++ writtenAll filters).length
      (subject.fold (names before filters)).toElement.nodes := by
  induction filters generalizing before subject with
  | nil => simpa [names, Expression.fold] using hsubject
  | cons f filters ih =>
    have hne := h.1.2.2.ne_nil
    have hpos := List.length_pos_iff.2 hne
    have hs' : source = (before ++ f.gap ++ '|' :: f.blanks) ++
        (f.chars ++ (writtenAll filters ++ following)) := by
      simp [hs, written]
    let call : Expression := .call true (f.name before) subject (f.name before).position
    have hname : (Element.identifier (f.name before)).StandsAt source
        (before ++ f.gap ++ '|' :: f.blanks).length := by
      refine .of_own rfl hs' (by simp [hne]) rfl ?_
      simp only [Element.ReadsAs, Element.render, name, String.toList_ofList]
      exact (trimEnd_prefix_self f.chars).trans (List.prefix_append _ _)
    have hcall : call.toElement.StandsAt source (before ++ f.gap ++ '|' :: f.blanks).length := by
      refine .of_append hs' (by simp [hne]) rfl trivial ?_
      intro part hpart
      cases hpart
      rfl
    have hboth : Element.Spread source before.length (before ++ f.written).length
        [call.toElement, .identifier (f.name before)] := by
      refine ⟨_, by simp, hcall, _, Nat.le_refl _, hname, ?_⟩
      have hown : (Element.identifier (f.name before)).hasOwnPlace = true := rfl
      have hshared : call.toElement.hasOwnPlace = false := rfl
      simp [Element.Spread, hown, hshared, written]
      omega
    have hfold := ih (before ++ f.written) call (by simpa using hs) h.2 (hsubject.append hboth)
    simpa [names, Expression.fold] using hfold

/-! ## Phrases -/

/-- The opening of a block reads as the element that the block becomes. -/
theorem HeadForm.exists_keyword {head : HeadForm} {following : List Char} (h : head.Fits following)
    (s : List Char) :
    ∃ keyword c rest, head.written ++ s = '#' :: '{' :: (keyword ++ c :: rest) ∧
      InAnyCase head.kind.keyword keyword ∧ isBlank c = true := by
  cases head with
  | condition negated keyword blanks subject trail =>
    obtain ⟨hk, hb, hne, -⟩ := h
    obtain ⟨c, blanks, rfl⟩ := List.exists_cons_of_ne_nil hne
    exact ⟨keyword, c, blanks ++ (subject.written ++ (trail ++ '}' :: s)), by simp [written],
      hk, hb.head⟩
  | loop keyword blanks enumerator gap inBlanks collection trail =>
    obtain ⟨hk, hb, hne, -⟩ := h
    obtain ⟨c, blanks, rfl⟩ := List.exists_cons_of_ne_nil hne
    exact ⟨keyword, c, blanks ++ (enumerator ++ (gap ++ 'i' :: 'n' :: (inBlanks ++
      (collection.written ++ (trail ++ '}' :: s))))), by simp [written], hk, hb.head⟩

/-- The elements that the opening tag of a block has in it. -/
def HeadForm.elements (before : List Char) : HeadForm → List Element
  | .condition _ keyword blanks subject _ =>
    (subject.path (before ++ '#' :: '{' :: (keyword ++ blanks))).toElement.nodes
  | .loop keyword blanks enumerator gap inBlanks collection _ =>
    let start := before ++ '#' :: '{' :: (keyword ++ blanks)
    .identifier ⟨String.ofList (trimEnd enumerator), some (.after start)⟩ ::
      (collection.path (start ++ enumerator ++ gap ++ 'i' :: 'n' :: inBlanks)).toElement.nodes

/-- They stand behind the first character of the tag. -/
theorem HeadForm.spread {source following : List Char} {head : HeadForm} (before : List Char)
    (hs : source = before ++ (head.written ++ following)) (h : head.Fits following)
    (htight : head.path.Tight) :
    Element.Spread source (before.length + 1) (before ++ head.written).length
      (head.elements before) := by
  cases head with
  | condition negated keyword blanks subject trail =>
    have hpath := PathForm.spread (before ++ '#' :: '{' :: (keyword ++ blanks))
      (by simpa [written] using hs) h.2.2.2.1 htight
    exact hpath.mono (by simp) (by simp [written])
  | loop keyword blanks enumerator gap inBlanks collection trail =>
    obtain ⟨-, -, -, hname, -, -, -, hcollection, -⟩ := h
    let start := before ++ '#' :: '{' :: (keyword ++ blanks)
    have henumerator : (Element.identifier
        ⟨String.ofList (trimEnd enumerator), some (.after start)⟩).StandsAt source
        start.length := by
      refine .of_own rfl (s := enumerator ++ _) (by simpa [start, written] using hs)
        (by simp [hname.ne_nil]) rfl ?_
      simp only [Element.ReadsAs, Element.render, String.toList_ofList]
      exact (trimEnd_prefix_self enumerator).trans (List.prefix_append _ _)
    have hpath := PathForm.spread (start ++ enumerator ++ gap ++ 'i' :: 'n' :: inBlanks)
      (by simpa [start, written] using hs) hcollection htight
    refine .cons_own rfl henumerator (by simp [start]) (hpath.mono ?_ ?_)
    · simp
      omega
    · simp [start, written]

theorem Phrase.nodes_block (before : List Char) (head : HeadForm) (body : List Phrase) :
    let block := (Phrase.block head body).segment before
    block.toElement.nodes = block.toElement :: (head.elements before ++
      Element.nodesOf (Segment.toElements (segments (before ++ head.written) body))) := by
  cases head <;> rfl

/-- A block stands where its opening tag starts, and what is in it stands in this tag and in its
    body. -/
theorem Phrase.spread_block {source following : List Char} {head : HeadForm} {body : List Phrase}
    {stop : Nat} (before : List Char) (hs : source = before ++ (head.written ++ following))
    (h : head.Fits following) (htight : head.path.Tight)
    (hbody : Element.Spread source (before ++ head.written).length stop
      (Element.nodesOf (Segment.toElements (segments (before ++ head.written) body)))) :
    Element.Spread source before.length stop
      ((Phrase.block head body).segment before).toElement.nodes := by
  obtain ⟨keyword, c, rest, hw, hk, hc⟩ := HeadForm.exists_keyword h following
  have hopen : source = before ++ '#' :: '{' :: (keyword ++ c :: rest) := by rw [hs, hw]
  have hinside := (head.spread before hs h htight).append hbody
  rw [nodes_block]
  cases head with
  | condition | loop =>
    exact .cons_own rfl (.of_own rfl hopen (by simp) rfl ⟨keyword, c, rest, rfl, hk, hc⟩)
      (Nat.le_refl _) hinside

/-- Literal text is one element at its start. -/
theorem Phrase.spread_text {source following : List Char} {pieces : List PieceForm}
    (before : List Char) (hs : source = before ++ ((Phrase.text pieces).written ++ following))
    (h : (Phrase.text pieces).Fits following) :
    Element.Spread source before.length (before ++ (Phrase.text pieces).written).length
      ((Phrase.text pieces).segment before).toElement.nodes := by
  have hends := not_endsText h
  have hne : PieceForm.writtenAll pieces ++ following ≠ [] := fun hnil => hends (.inl hnil)
  have hpos : 0 < (PieceForm.writtenAll pieces).length := by
    obtain ⟨hpieces, hall⟩ := h
    cases pieces with
    | nil => exact absurd rfl hpieces
    | cons p pieces =>
      have := List.length_pos_iff.2 (PieceForm.written_ne hall.1)
      simp
      omega
  refine .single (.of_own rfl hs hne rfl ?_) (Nat.le_refl _) (by simp [written]; omega)
  rintro ⟨t, ht⟩
  exact hends (.inr ⟨t, ht.symm⟩)

/-- A substitution stands where it starts, and its expression in it. -/
theorem Phrase.spread_substitution {source following blanks trail : List Char}
    {subject : PathForm} {filters : List FilterForm} (before : List Char)
    (hs : source = before ++ ((substitution blanks subject filters trail).written ++ following))
    (h : (substitution blanks subject filters trail).Fits following) (htight : subject.Tight) :
    Element.Spread source before.length
      (before ++ (substitution blanks subject filters trail).written).length
      ((substitution blanks subject filters trail).segment before).toElement.nodes := by
  obtain ⟨hslash, hblock, hblanks, hsubject, hfilters, htrail⟩ := h
  have hopen : source =
      before ++ '#' :: '{' :: inside blanks subject filters trail following := by
    simpa [written, inside] using hs
  let start := before ++ '#' :: '{' :: blanks
  have hpath := PathForm.spread start (by simpa [start, inside] using hopen) hsubject htight
  have hexpression := FilterForm.spread (start ++ subject.written)
    (.path (subject.path start)) (by simpa [start, inside] using hopen) hfilters hpath
  refine .cons_own rfl (.of_own rfl hopen (by simp) rfl ⟨_, rfl, ?_, hblock⟩) (Nat.le_refl _)
    (hexpression.mono ?_ ?_)
  · rintro ⟨t, ht⟩
    exact hslash t ht.symm
  · simp [start]
  · simp [start, written, inside]

mutual

/-- The elements of a phrase stand in it. -/
theorem Phrase.spread {source following : List Char} (before : List Char) : ∀ {phrase : Phrase},
    source = before ++ (phrase.written ++ following) → phrase.Fits following →
      (∀ p ∈ phrase.paths, p.Tight) →
      Element.Spread source before.length (before ++ phrase.written).length
        (phrase.segment before).toElement.nodes
  | .text _, hs, h, _ => spread_text before hs h
  | .substitution _ subject _ _, hs, h, htight =>
    spread_substitution before hs h (htight subject List.mem_cons_self)
  | .block head body, hs, h, htight => by
    obtain ⟨hhead, hbody⟩ := h
    have hbodies := Phrase.spread_all (before ++ head.written)
      (by simpa [written] using hs) hbody fun p hp => htight p (List.mem_cons_of_mem _ hp)
    refine spread_block before (by simpa [written] using hs) hhead
      (htight head.path List.mem_cons_self) (hbodies.mono (Nat.le_refl _) ?_)
    simp [written]

/-- The elements of phrases stand in them. -/
theorem Phrase.spread_all {source following : List Char} (before : List Char) :
    ∀ {phrases : List Phrase}, source = before ++ (writtenAll phrases ++ following) →
      AllFit following phrases → (∀ p ∈ pathsAll phrases, p.Tight) →
      Element.Spread source before.length (before ++ writtenAll phrases).length
        (Element.nodesOf (Segment.toElements (segments before phrases)))
  | [], _, _, _ => by simp [writtenAll, segments, Segment.toElements, Element.nodesOf,
      Element.Spread]
  | phrase :: phrases, hs, h, htight => by
    simp only [pathsAll, List.forall_mem_append] at htight
    have hphrase := Phrase.spread before (by simpa [writtenAll] using hs) h.1 htight.1
    have hrest := Phrase.spread_all (before ++ phrase.written)
      (by simpa [writtenAll] using hs) h.2 htight.2
    simp only [segments, Segment.toElements, Element.nodesOf]
    refine hphrase.append (hrest.mono (Nat.le_refl _) ?_)
    simp [writtenAll]

end

/-! ## Templates -/

/-- The elements of a template map a source. Each of them has a position in it, with the line and
    the column of its offset, and at that offset the source says what the element is. In the order
    of the source the offsets increase; only a path shares its position with its first step, and a
    call with the name of its function. -/
structure Template.Maps (t : Template) (source : List Char) : Prop where
  placed : ∀ e ∈ t.toElement.nodes, ∃ p : Position,
    e.position = .ok (some p) ∧ 0 ≤ p.offset ∧ p.offset < source.length ∧
      p = .ofOffset source p.offset ∧ e.ReadsAs (source.drop p.offset.toNat)
  shared : ∀ e ∈ t.toElement.nodes, ∀ part, e.lead? = some part → e.position = part.position
  ordered : (t.toElement.nodes.filter Element.hasOwnPlace).Pairwise Element.StandsBefore

/-- Whatever source a template was read from, it maps that source. -/
theorem maps_of_parseTemplate {source : String} {limit : Int} {machine : Machine} {t : Template}
    (h : parseTemplate source limit machine = .ok t) : t.Maps source.toList := by
  obtain ⟨phrases, hparses, rfl⟩ := parses_of_parseTemplate h
  have hs : source.toList = [] ++ (Phrase.writtenAll phrases ++ []) := by
    simp [hparses.derives.1]
  have hspread := Phrase.spread_all [] hs hparses.derives.2 hparses.tight
  constructor
  case placed =>
    intro e he
    obtain ⟨offset, -, hstands⟩ := hspread.exists_standsAt he
    refine ⟨.ofOffset source.toList offset, hstands.position_eq, ?_⟩
    rw [hstands.offset_eq]
    exact ⟨Int.natCast_nonneg offset, by exact_mod_cast hstands.lt_length, rfl, hstands.reads⟩
  case shared =>
    intro e he
    obtain ⟨offset, -, hstands⟩ := hspread.exists_standsAt he
    exact hstands.shares
  case ordered => exact hspread.pairwise

theorem maps_greeting : ∃ t, parseTemplate "Hi #\x7bName | Upper\x7d" = .ok t ∧
    t.Maps "Hi #\x7bName | Upper\x7d".toList := by
  have hok : (parseTemplate "Hi #\x7bName | Upper\x7d").toBool = true := by decide +kernel
  cases h : parseTemplate "Hi #\x7bName | Upper\x7d" with
  | ok t => exact ⟨t, rfl, maps_of_parseTemplate h⟩
  | error e =>
    rw [h] at hok
    cases hok

end Stencil
