-- SUMMARY: A template between the tags of a block is the body of that block.
import Stencil.Proofs.Concatenation
import Stencil.Proofs.FirstFault
import Stencil.Proofs.Rendering

/-! # Wrapping

A template can be put into a block: between an opening tag for a bare path and the closing tag that
goes with it, it is the body of the block, with every place in it moved behind the opening tag. In
front of a closing tag it is read no differently than at the end of its source, unless it ends in a
hash mark, which would escape the tag. The block takes up one more level of nesting.
-/

namespace Stencil

open Text (isBlank trimEnd)
open Name (isNameChar)

/-! ## Bare paths in tags -/

theorem trimEnd_eq_self {s : List Char} (h : ∀ c ∈ s.getLast?, isBlank c = false) :
    trimEnd s = s := by
  rcases List.eq_nil_or_concat s with rfl | ⟨init, last, rfl⟩
  · rfl
  · rw [List.concat_eq_append] at h ⊢
    have hlast := h last (by simp)
    simp [trimEnd, hlast]

/-- A bare path that does not end in a blank has the same steps in a tag. -/
theorem StepForm.stepsOf_eq_bareSteps (before : List Char) {steps : List StepForm}
    (h : ∀ c ∈ (writtenAll steps).getLast?, isBlank c = false) :
    stepsOf before steps = bareSteps before steps := by
  induction steps generalizing before with
  | nil => rfl
  | cons step steps ih =>
    cases steps with
    | nil =>
      cases step with
      | name gap blanks chars =>
        have htrim : trimEnd (blanks ++ chars) = blanks ++ chars := by
          refine trimEnd_eq_self fun c hc => h c ?_
          have hne : blanks ++ chars ≠ [] := by
            intro hnil
            simp [hnil] at hc
          rw [writtenAll_cons, writtenAll_nil, List.append_nil, written,
            List.append_cons gap '.' (blanks ++ chars), List.getLast?_append_of_ne_nil _ hne]
          exact hc
        simp [stepsOf, bareSteps, StepForm.step, htrim]
      | index gap chars chars_ne => rfl
    | cons next steps =>
      have hne : writtenAll (next :: steps) ≠ [] := by
        cases next <;> simp [written]
      rw [writtenAll_cons, List.getLast?_append_of_ne_nil _ hne] at h
      rw [stepsOf, bareSteps, List.isEmpty_cons, ih _ h]

/-- A path that ends visibly is the same in a tag and by itself. -/
theorem PathForm.path_eq_bare {p : PathForm} (h : ∀ c ∈ p.written.getLast?, isBlank c = false) :
    p.path [] = p.bare [] := by
  obtain ⟨root, steps⟩ := p
  cases steps with
  | nil =>
    have htrim : trimEnd root = root := trimEnd_eq_self (by simpa [written] using h)
    simp [path, bare, StepForm.stepsOf, StepForm.bareSteps, htrim]
  | cons step steps =>
    have hne : StepForm.writtenAll (step :: steps) ≠ [] := by
      cases step <;> simp [StepForm.written]
    rw [written, List.getLast?_append_of_ne_nil _ hne] at h
    simp [path, bare, StepForm.stepsOf_eq_bareSteps _ h]

/-- A bare path without blanks at its ends is one of a tag. -/
theorem PathForm.exists_of_parsePath {source : String} {q : SymbolPath}
    (h : parsePath source = .ok q) (hfirst : source.toList.head?.any isBlank = false)
    (hlast : source.toList.getLast?.any isBlank = false) :
    ∃ p : PathForm, source.toList = p.written ∧ p.Fits [] ∧ p.Tight ∧ q = p.path [] := by
  obtain ⟨blanks, p, hs, hblanks, hfits, htight, rfl⟩ := (parsePath_iff source q).1 h
  obtain rfl : blanks = [] := by
    cases blanks with
    | nil => rfl
    | cons c blanks =>
      simp [hs, hblanks.head] at hfirst
  rw [List.nil_append] at hs
  rw [hs] at hlast
  refine ⟨p, hs, hfits, htight, (path_eq_bare fun c hc => ?_).symm⟩
  rwa [Option.mem_def.1 hc] at hlast

/-! ## Blocks around templates -/

/-- Where a place in a part of a source is in the source that has the given text before this
    part. -/
def Position.behind (front source : String) (p : Position) : Position :=
  .ofOffset source.toList (front.length + p.offset)

theorem moves_behind {front source : String} {s : List Char} (following : List Char)
    (h : source.toList = front.toList ++ (s ++ following)) :
    Moves (Position.behind front source) front.toList [] s := by
  have hmoves := (moves_ofOffset front.toList (s ++ following)).left
  rwa [← h, String.length_toList] at hmoves

/-- A block that a template can be put into, but for what it is about. -/
inductive Wrapper
  | condition (negated : Bool)
  | loop (enumerator : String) (enumerator_ne : enumerator ≠ "")
      (chars : enumerator.toList.all isNameChar = true)

namespace Wrapper

def kind : Wrapper → BlockKind
  | .condition negated => conditionKind negated
  | .loop .. => .each

/-- What stands in front of the path in the opening tag. -/
def lead : Wrapper → String
  | .condition negated => "#\x7b" ++ (conditionKind negated).keyword ++ " "
  | .loop enumerator .. => "#\x7beach " ++ enumerator ++ " in "

def opener (w : Wrapper) (path : String) : String := w.lead ++ path ++ "\x7d"

/-- The block about a path that has a source between its tags. -/
def wrap (w : Wrapper) (path source : String) : String :=
  w.opener path ++ source ++ w.kind.closer

/-- The segment that this block is, if the path and the source stand for these by themselves. -/
def segment (w : Wrapper) (path source : String) (q : SymbolPath) (body : List Segment) : Segment :=
  let whole := w.wrap path source
  let q := q.mapPosition (.behind w.lead whole)
  let body := Segment.mapPositions (.behind (w.opener path) whole) body
  match w with
  | .condition negated => .conditional negated q body (some .start)
  | .loop enumerator .. =>
    let position := Position.start.behind "#\x7beach " whole
    .repetition { text := enumerator, position := some position } q body (some .start)

/-- The opening tag, as a head of phrases. -/
def head (w : Wrapper) (p : PathForm) : HeadForm :=
  match w with
  | .condition negated =>
    .condition negated (conditionKind negated).keyword.toList [' '] p []
  | .loop enumerator .. =>
    .loop BlockKind.each.keyword.toList [' '] enumerator.toList [' '] [' '] p []

variable (w : Wrapper) {p : PathForm} {path source : String}

theorem kind_head : (w.head p).kind = w.kind := by
  cases w <;> rfl

theorem path_head : (w.head p).path = p := by
  cases w <;> rfl

theorem written_head (h : path.toList = p.written) :
    (w.head p).written = (w.opener path).toList := by
  cases w <;> simp [head, HeadForm.written, opener, lead, h, BlockKind.keyword]

end Wrapper

/-- Name characters are a name in front of a blank that ends names. -/
theorem isName_of_nameChars {name s : List Char} (hne : name ≠ [])
    (h : ∀ c ∈ name, isNameChar c = true) (hs : EndsName s) : IsName name (' ' :: s) := by
  refine ⟨?_, ?_, ?_⟩
  · obtain ⟨c, t, rfl⟩ := List.exists_cons_of_ne_nil hne
    exact ⟨c, t, rfl, h c List.mem_cons_self⟩
  · rintro u c v rfl
    exact .inl (h c (by simp))
  · rintro c t ht
    cases ht
    rintro (hname | ⟨-, hends⟩)
    · exact absurd hname (by decide)
    · exact hends hs

/-- The opening tag fits in front of any text. -/
theorem Wrapper.fits_head (w : Wrapper) {p : PathForm} (hfits : p.Fits []) (htight : p.Tight)
    (following : List Char) : (w.head p).Fits following := by
  have hpath : p.Fits ('}' :: following) := hfits.before_mark htight (.brace following)
  cases w with
  | condition negated => exact ⟨inAnyCase_self _, .space, by simp, hpath, AllBlank.nil⟩
  | loop enumerator enumerator_ne chars =>
    refine ⟨inAnyCase_self _, .space, by simp, ?_, .space, .space, by simp, hpath, AllBlank.nil⟩
    refine isName_of_nameChars (by simpa using enumerator_ne) (List.all_eq_true.1 chars) ?_
    exact .inr ⟨' ', _, rfl, by decide⟩

/-- The block stands for what its path and its body stand for, moved behind what is before them. -/
theorem Wrapper.segment_block (w : Wrapper) {p : PathForm} {phrases : List Phrase}
    {path source : String} (hpath : path.toList = p.written)
    (hsource : source.toList = Phrase.writtenAll phrases) :
    Phrase.segment [] (.block (w.head p) phrases) =
      w.segment path source (p.path []) (Phrase.segments [] phrases) := by
  have hlead : Moves (Position.behind w.lead (w.wrap path source)) w.lead.toList [] p.written :=
    moves_behind ('}' :: (source.toList ++ w.kind.closer.toList))
      (by simp [wrap, opener, hpath])
  have hopener : Moves (Position.behind (w.opener path) (w.wrap path source))
      (w.opener path).toList [] (Phrase.writtenAll phrases) :=
    moves_behind w.kind.closer.toList (by simp [wrap, hsource])
  have hq := PathForm.path_moved hlead
  have hbody := Phrase.segments_moved hopener
  have hhead := w.written_head hpath
  rw [List.append_nil] at hq hbody
  cases w with
  | condition negated =>
    have hstart : '#' :: '{' :: ((conditionKind negated).keyword.toList ++ [' ']) =
        (lead (.condition negated)).toList := by
      simp [lead]
    simp only [head] at hhead
    simp only [head, Phrase.segment, List.nil_append, hhead, hstart, hq, hbody]
    rfl
  | loop enumerator enumerator_ne chars =>
    have hstart : '#' :: '{' :: (BlockKind.each.keyword.toList ++ [' ']) ++ enumerator.toList ++
        [' '] ++ ['i', 'n', ' '] = (lead (.loop enumerator enumerator_ne chars)).toList := by
      simp [lead, BlockKind.keyword]
    have hname : Moves
        (.behind "#\x7beach " (wrap (.loop enumerator enumerator_ne chars) path source))
        "#\x7beach ".toList [] [] :=
      moves_behind
        (enumerator.toList ++
          (" in " ++ path ++ "\x7d" ++ source ++ BlockKind.each.closer).toList)
        (by simp [wrap, opener, lead, kind])
    have htrim : trimEnd enumerator.toList = enumerator.toList := trimEnd_eq_self fun c hc =>
      isBlank_of_isNameChar (List.all_eq_true.1 chars c (List.mem_of_getLast? hc))
    simp only [head] at hhead
    simp only [head, Phrase.segment, List.nil_append, hhead, hstart, hq, hbody, htrim,
      String.ofList_toList]
    exact congrArg (fun p => Segment.repetition ⟨enumerator, some p⟩ _ _ _) hname.start.symm

/-! ## Depth -/

mutual

/-- How many blocks of a segment stand around a point in it at most. -/
def Segment.depth : Segment → Nat
  | .text .. => 0
  | .substitution .. => 0
  | .conditional _ _ body _ => Segment.depthAll body + 1
  | .repetition _ _ body _ => Segment.depthAll body + 1

def Segment.depthAll : List Segment → Nat
  | [] => 0
  | s :: rest => max s.depth (depthAll rest)

end

mutual

/-- A segment is as deep as its phrase. -/
theorem Phrase.depth_segment (before : List Char) :
    ∀ phrase : Phrase, (phrase.segment before).depth = phrase.depth
  | .text _ => rfl
  | .substitution .. => rfl
  | .block (.condition ..) body => congrArg (· + 1) (Phrase.depthAll_segments _ body)
  | .block (.loop ..) body => congrArg (· + 1) (Phrase.depthAll_segments _ body)

/-- What phrases stand for is as deep as they are. -/
theorem Phrase.depthAll_segments (before : List Char) :
    ∀ phrases : List Phrase, Segment.depthAll (segments before phrases) = depthAll phrases
  | [] => rfl
  | phrase :: phrases => by
    rw [segments, Segment.depthAll, depth_segment, depthAll_segments, depthAll]

end

/-! ## Wrapped templates -/

/-- A template that does not end in a hash mark can be put into a block about any bare path without
    blanks at its ends. With one level of nesting more, the result is this block and nothing else,
    with the path and the template in it as they are by themselves, but for their places. Only if
    the template takes up all the room that the machine has, there is none for the block around
    it. -/
theorem parseTemplate_wrap (w : Wrapper) {source path : String} {limit : Int} {machine : Machine}
    {t : Template} {q : SymbolPath} (hlimit : 0 ≤ limit)
    (ht : parseTemplate source limit machine = .ok t) (hhash : source.toList.getLast? ≠ some '#')
    (hq : parsePath path = .ok q) (hfirst : path.toList.head?.any isBlank = false)
    (hlast : path.toList.getLast?.any isBlank = false) :
    parseTemplate (w.wrap path source) (limit + 1) machine =
      if Segment.depthAll t.segments < machine.room then
        .ok ⟨[w.segment path source q t.segments]⟩
      else .error (tooDeepToBuild (w.wrap path source) machine.recursionLimit) := by
  obtain ⟨phrases, ⟨⟨hw, hfits⟩, htight, hdepth, -⟩, rfl⟩ := parses_of_parseTemplate ht
  obtain ⟨p, hp, hpfits, hptight, rfl⟩ := PathForm.exists_of_parsePath hq hfirst hlast
  have hcloser : EndsText w.kind.closer.toList := by
    cases w.kind <;> exact .inr ⟨_, rfl⟩
  have hbody : Phrase.AllFit w.kind.closer.toList phrases :=
    hfits.before_tag hcloser (by rwa [hw])
  have hderives : Phrase.Derives (w.wrap path source).toList [.block (w.head p) phrases] := by
    refine ⟨?_, ⟨w.fits_head hpfits hptight _, ?_⟩, trivial⟩
    · simp [Phrase.writtenAll, Phrase.written, Wrapper.wrap, w.written_head hp, w.kind_head, hw]
    · simpa [w.kind_head, Phrase.writtenAll] using hbody
  have hpaths : ∀ r ∈ Phrase.pathsAll [.block (w.head p) phrases], r.Tight := by
    simpa [Phrase.pathsAll, Phrase.paths, w.path_head] using ⟨hptight, htight⟩
  have hblock : Phrase.depthAll [.block (w.head p) phrases] = Phrase.depthAll phrases + 1 := by
    simp [Phrase.depthAll, Phrase.depth]
  rw [Phrase.template, Phrase.depthAll_segments]
  split
  · next hroom =>
    have hparses : Phrase.Parses (w.wrap path source).toList (limit + 1) machine
        [.block (w.head p) phrases] :=
      ⟨hderives, hpaths, by omega, by omega⟩
    rw [(parseTemplate_of_derives _ machine hderives).1 hparses, Phrase.template, Phrase.segments,
      Phrase.segments, w.segment_block hp hw.symm]
  · next hroom =>
    exact parseTemplate_of_tooDeep hderives hpaths (by omega) (by omega)

theorem parseTemplate_wrap_lines : ∃ t q, parseTemplate "#\x7bLine\x7d," 0 = .ok t ∧
    parsePath "Order.Lines" = .ok q ∧
    let w := Wrapper.loop "Line" (by decide) (by decide)
    parseTemplate (w.wrap "Order.Lines" "#\x7bLine\x7d,") 1 =
      .ok ⟨[w.segment "Order.Lines" "#\x7bLine\x7d," q t.segments]⟩ := by
  have hok : (parseTemplate "#\x7bLine\x7d," 0).toOption.any
      (fun t => Segment.depthAll t.segments < ({} : Machine).room) = true := by decide +kernel
  have hpath : (parsePath "Order.Lines").toBool = true := by decide +kernel
  obtain ⟨q, hq⟩ := exists_of_toBool hpath
  cases ht : parseTemplate "#\x7bLine\x7d," 0 with
  | error e =>
    rw [ht] at hok
    cases hok
  | ok t =>
    rw [ht] at hok
    have hdepth : Segment.depthAll t.segments < ({} : Machine).room := of_decide_eq_true hok
    have hwrapped := parseTemplate_wrap (.loop "Line" (by decide) (by decide)) (Int.le_refl 0) ht
      (by decide) hq (by decide) (by decide)
    rw [if_pos hdepth] at hwrapped
    exact ⟨t, q, rfl, hq, hwrapped⟩

/-- Wrapped blocks in each other are one more of them. -/
theorem wrap_nestedSource (n : Nat) :
    (Wrapper.condition false).wrap "a" (nestedSource n) = nestedSource (n + 1) := by
  apply String.toList_inj.1
  simp [Wrapper.wrap, Wrapper.opener, Wrapper.lead, Wrapper.kind, nestedSource, Phrase.nested,
    Phrase.writtenAll, Phrase.written, HeadForm.written, HeadForm.kind, conditionKind,
    PathForm.written, StepForm.writtenAll, BlockKind.keyword]

theorem getLast?_nestedSource (n : Nat) : (nestedSource (n + 1)).toList.getLast? = some '}' := by
  rw [← wrap_nestedSource]
  simp [Wrapper.wrap, Wrapper.kind, conditionKind, BlockKind.closer, BlockKind.keyword]

/-- A template that takes up all the room that the machine has cannot be put into a block. -/
theorem parseTemplate_wrap_nested :
    let source := nestedSource 500
    (∃ t, parseTemplate source 500 = .ok t) ∧ source.toList.getLast? ≠ some '#' ∧
    (∃ q, parsePath "a" = .ok q) ∧ "a".toList.head?.any isBlank = false ∧
    "a".toList.getLast?.any isBlank = false ∧
    let wrapped := (Wrapper.condition false).wrap "a" source
    parseTemplate wrapped (500 + 1) = .error (tooDeepToBuild wrapped 1000) := by
  intro source
  have hbuilt := (parseTemplate_nested 500 500 {}).1 (by decide) (by decide)
  have hrefused := (parseTemplate_nested 501 501 {}).2 (by decide) (by decide)
  have hpath : (parsePath "a").toBool = true := by decide +kernel
  refine ⟨⟨_, hbuilt⟩, ?_, exists_of_toBool hpath, by decide, by decide, ?_⟩
  · rw [getLast?_nestedSource 499]
    decide
  · rw [wrap_nestedSource]
    exact hrefused

end Stencil
