-- SUMMARY: The first blank after an indexer that a step has to follow is what building fails at.
import Mathlib.Order.Bounds.Basic
import Stencil.Proofs.FirstFault

/-! # Blanks after indexers

A blank after a name belongs to the name, and one after the last step of a path in a tag to nothing.
A blank after any other indexer is a fault: the next step would have to stand in its place. Whatever
else is in a source that has an outline, no other blank is one, be it in brackets or behind the last
of them, and the fault that is reported is the first one in the source. Only blocks that are nested
too deep to be built are reported as well.
-/

namespace Stencil

open Text (isBlank)

/-! ## Indexers in a source -/

/-- An indexer of a path in a source: the offset right after it, and whether a further step of the
    path comes after it. -/
structure IndexerEnd where
  offset : Nat
  inner : Bool

namespace IndexerEnd

/-- A blank follows the indexer where nothing but a step may: in a tag before a further step, in a
    bare path in any case. -/
def IsLoose (source : List Char) (extent : Extent) (i : IndexerEnd) : Prop :=
  (extent = .bare ∨ i.inner = true) ∧ source[i.offset]?.any isBlank = true

instance (source : List Char) (extent : Extent) (i : IndexerEnd) :
    Decidable (i.IsLoose source extent) :=
  inferInstanceAs (Decidable (_ ∧ _))

/-- The offsets of the blanks that follow indexers where nothing but a step may. -/
def looseBlanks (source : List Char) (extent : Extent) (ends : List IndexerEnd) : Set Nat :=
  {offset | ∃ i ∈ ends, i.IsLoose source extent ∧ i.offset = offset}

/-- The places of these blanks, in the order of the indexers. -/
def loosePlaces (source : List Char) (extent : Extent) (ends : List IndexerEnd) : List Position :=
  (ends.filter fun i => i.IsLoose source extent).map fun i => .ofOffset source i.offset

/-- The indexers come one after the other between two points. -/
def Ascend (stop : Nat) : Nat → List IndexerEnd → Prop
  | start, [] => start ≤ stop
  | start, i :: ends => start < i.offset ∧ Ascend stop i.offset ends

variable {source : List Char} {extent : Extent} {ends ends' : List IndexerEnd}
  {start start' middle stop : Nat}

theorem Ascend.mono (h : Ascend stop start ends) (hle : start' ≤ start) :
    Ascend stop start' ends := by
  cases ends with
  | nil => exact hle.trans h
  | cons i ends => exact ⟨Nat.lt_of_le_of_lt hle h.1, h.2⟩

/-- Offsets that ascend to a point and from there on ascend together. -/
theorem Ascend.append (h : Ascend middle start ends) (h' : Ascend stop middle ends') :
    Ascend stop start (ends ++ ends') := by
  induction ends generalizing start with
  | nil => exact h'.mono h
  | cons i ends ih => exact ⟨h.1, ih h.2⟩

theorem Ascend.extend (h : Ascend middle start ends) (hle : middle ≤ stop) :
    Ascend stop start ends := by
  rw [← List.append_nil ends]
  exact h.append hle

theorem Ascend.lt_of_mem (h : Ascend stop start ends) {i : IndexerEnd} (hi : i ∈ ends) :
    start < i.offset := by
  induction ends generalizing start with
  | nil => cases hi
  | cons j ends ih =>
    rcases List.mem_cons.1 hi with rfl | hi
    · exact h.1
    · exact h.1.trans (ih h.2 hi)

/-- The first of the places is the one with the least offset. -/
theorem Ascend.isLeast (h : Ascend stop start ends) {p : Position}
    (hp : (loosePlaces source extent ends).head? = some p) :
    ∃ offset : Nat, p = .ofOffset source offset ∧
      IsLeast (looseBlanks source extent ends) offset := by
  induction ends generalizing start with
  | nil => cases hp
  | cons i ends ih =>
    by_cases hloose : i.IsLoose source extent
    · simp only [loosePlaces, List.filter_cons, hloose, decide_true, if_true, List.map_cons,
        List.head?_cons, Option.some.injEq] at hp
      refine ⟨i.offset, hp.symm, ⟨i, List.mem_cons_self, hloose, rfl⟩, ?_⟩
      rintro _ ⟨j, hj, -, rfl⟩
      rcases List.mem_cons.1 hj with rfl | hj
      · exact Nat.le_refl _
      · exact (h.2.lt_of_mem hj).le
    · simp only [loosePlaces, List.filter_cons, hloose, decide_false] at hp
      obtain ⟨offset, hoffset, ⟨j, hj, hjloose, hjoffset⟩, hleast⟩ := ih h.2 hp
      refine ⟨offset, hoffset, ⟨j, List.mem_cons_of_mem _ hj, hjloose, hjoffset⟩, ?_⟩
      rintro _ ⟨k, hk, hkloose, rfl⟩
      rcases List.mem_cons.1 hk with rfl | hk
      · exact absurd hkloose hloose
      · exact hleast ⟨k, hk, hkloose, rfl⟩

/-- No blank is out of place if and only if no place is named. -/
theorem loosePlaces_eq_nil_iff :
    loosePlaces source extent ends = [] ↔ ¬(looseBlanks source extent ends).Nonempty := by
  simp only [loosePlaces, List.map_eq_nil_iff, List.filter_eq_nil_iff, decide_eq_true_eq]
  constructor
  · rintro h ⟨_, i, hi, hloose, rfl⟩
    exact h i hi hloose
  · intro h i hi hloose
    exact h ⟨_, i, hi, hloose, rfl⟩

end IndexerEnd

/-- The indexers among the steps of a path that are written from an offset on. -/
def StepForm.indexerEnds (offset : Nat) : List StepForm → List IndexerEnd
  | [] => []
  | .name gap blanks chars :: steps =>
    indexerEnds (offset + (name gap blanks chars).written.length) steps
  | .index gap chars chars_ne :: steps =>
    let stop := offset + (index gap chars chars_ne).written.length
    ⟨stop, !steps.isEmpty⟩ :: indexerEnds stop steps

/-- The indexers of a path that is written from an offset on. -/
def PathForm.indexerEnds (offset : Nat) (p : PathForm) : List IndexerEnd :=
  StepForm.indexerEnds (offset + p.root.length) p.steps

/-- What the opening tag of a block has in front of its path. -/
def HeadForm.front : HeadForm → List Char
  | .condition _ keyword blanks _ _ => '#' :: '{' :: (keyword ++ blanks)
  | .loop keyword blanks enumerator gap inBlanks _ _ =>
    '#' :: '{' :: (keyword ++ blanks ++ enumerator ++ gap ++ 'i' :: 'n' :: inBlanks)

mutual

/-- The indexers in a phrase that is written from an offset on. -/
def Phrase.indexerEnds (offset : Nat) : Phrase → List IndexerEnd
  | .text _ => []
  | .substitution blanks subject _ _ => subject.indexerEnds (offset + ('#' :: '{' :: blanks).length)
  | .block head body =>
    head.path.indexerEnds (offset + head.front.length) ++
      indexerEndsAll (offset + head.written.length) body

def Phrase.indexerEndsAll (offset : Nat) : List Phrase → List IndexerEnd
  | [] => []
  | phrase :: phrases =>
    phrase.indexerEnds offset ++ indexerEndsAll (offset + phrase.written.length) phrases

end

/-! ## Faults of phrases -/

namespace IndexerEnd

theorem loosePlaces_cons (source : List Char) (extent : Extent) (i : IndexerEnd)
    (ends : List IndexerEnd) :
    loosePlaces source extent (i :: ends) =
      (if i.IsLoose source extent then [.ofOffset source i.offset] else []) ++
        loosePlaces source extent ends := by
  by_cases h : i.IsLoose source extent <;> simp [loosePlaces, h]

theorem loosePlaces_append (source : List Char) (extent : Extent) (ends ends' : List IndexerEnd) :
    loosePlaces source extent (ends ++ ends') =
      loosePlaces source extent ends ++ loosePlaces source extent ends' := by
  simp [loosePlaces]

end IndexerEnd

/-- The blanks that steps cannot be built with are those that follow their indexers. -/
theorem StepForm.loose_parts {source following : List Char} (extent : Extent) (before : List Char)
    {steps : List StepForm} (hs : source = before ++ (writtenAll steps ++ following)) :
    Part.loose extent (parts before following steps) =
      IndexerEnd.loosePlaces source extent (indexerEnds before.length steps) := by
  induction steps generalizing before with
  | nil => rfl
  | cons step steps ih =>
    have hrest := ih (before ++ step.written) (by simpa using hs)
    have hempty : (parts (before ++ step.written) following steps).isEmpty = steps.isEmpty := by
      cases steps <;> rfl
    rw [List.length_append] at hrest
    rw [parts, Part.loose, hrest, hempty]
    cases step with
    | name gap blanks chars => rw [part, Part.blank?, ite_self, indexerEnds]; rfl
    | index gap chars chars_ne =>
      have hsource : source = (before ++ (index gap chars chars_ne).written) ++
          (writtenAll steps ++ following) := by
        simpa using hs
      have hnext : source[before.length + (index gap chars chars_ne).written.length]? =
          (writtenAll steps ++ following).head? := by
        rw [hsource, ← List.length_append, List.getElem?_append_right (Nat.le_refl _), Nat.sub_self,
          List.head?_eq_getElem?]
      have hplace : Position.ofOffset source
          (before.length + (index gap chars chars_ne).written.length : Nat) =
          .after (before ++ (index gap chars chars_ne).written) := by
        rw [hsource, ← List.length_append, Position.ofOffset_length]
      rw [indexerEnds, IndexerEnd.loosePlaces_cons, part, Part.blank?]
      congr 1
      simp only [IndexerEnd.IsLoose, hnext, hplace]
      cases extent <;> cases steps.isEmpty <;>
        cases (writtenAll steps ++ following).head?.any isBlank <;> rfl

theorem PathForm.loose_parts {source following : List Char} (extent : Extent)
    (before lead : List Char) {p : PathForm}
    (hs : source = before ++ lead ++ (p.written ++ following)) :
    Part.loose extent (p.parts before lead following) =
      IndexerEnd.loosePlaces source extent (p.indexerEnds (before ++ lead).length) := by
  have hsource : source =
      before ++ lead ++ p.root ++ (StepForm.writtenAll p.steps ++ following) := by
    simpa [written] using hs
  have hsteps := StepForm.loose_parts extent _ hsource
  rw [parts, Part.loose, Part.blank?, ite_self, hsteps, indexerEnds, ← List.length_append]
  rfl

theorem HeadForm.loose_head {source following : List Char} (before : List Char) {head : HeadForm}
    (hs : source = before ++ (head.written ++ following)) :
    Part.loose .tag (head.head before following).path =
      IndexerEnd.loosePlaces source .tag
        (head.path.indexerEnds (before.length + head.front.length)) := by
  rw [← List.length_append]
  cases head with
  | condition negated keyword blanks subject trail =>
    have hsource : source = before ++ '#' :: '{' :: (keyword ++ blanks) ++ [] ++
        (subject.written ++ (trail ++ '}' :: following)) := by
      simpa [written] using hs
    have hpath := PathForm.loose_parts .tag _ [] hsource
    simpa [Head.path, HeadForm.head, HeadForm.path, front] using hpath
  | loop keyword blanks enumerator gap inBlanks collection trail =>
    have hsource : source = before ++ '#' :: '{' :: (keyword ++ blanks) ++ enumerator ++ gap ++
        ['i', 'n'] ++ inBlanks ++ (collection.written ++ (trail ++ '}' :: following)) := by
      simpa [written] using hs
    have hpath := PathForm.loose_parts .tag _ inBlanks hsource
    simpa [Head.path, HeadForm.head, HeadForm.path, front] using hpath

mutual

/-- The blanks that a node cannot be built with are those in the text of its phrase. -/
theorem Phrase.loose_node {source following : List Char} (before : List Char) :
    ∀ {phrase : Phrase}, source = before ++ (phrase.written ++ following) →
      (phrase.node before following).loose =
        IndexerEnd.loosePlaces source .tag (phrase.indexerEnds before.length)
  | .text _, _ => rfl
  | .substitution blanks subject filters trail, hs => by
    have hsource : source = before ++ ['#', '{'] ++ blanks ++
        (subject.written ++ (FilterForm.writtenAll filters ++ trail ++ '}' :: following)) := by
      simpa [written, inside] using hs
    have hpath := PathForm.loose_parts .tag _ blanks hsource
    simpa [node, Node.loose, indexerEnds] using hpath
  | .block head body, hs => by
    have hsource : source = before ++
        (head.written ++ (writtenAll body ++ head.kind.closer.toList ++ following)) := by
      simpa [written] using hs
    have hsource' : source = before ++ head.written ++
        (writtenAll body ++ (head.kind.closer.toList ++ following)) := by
      simpa [written] using hs
    have hhead := HeadForm.loose_head before hsource
    have hbody := Phrase.loose_nodes (before ++ head.written) hsource'
    rw [node, Node.loose, hhead, hbody, indexerEnds, IndexerEnd.loosePlaces_append,
      List.length_append]

/-- The blanks that phrases cannot be built with are those after their indexers. -/
theorem Phrase.loose_nodes {source following : List Char} (before : List Char) :
    ∀ {phrases : List Phrase}, source = before ++ (writtenAll phrases ++ following) →
      Node.looseAll (nodes before following phrases) =
        IndexerEnd.loosePlaces source .tag (indexerEndsAll before.length phrases)
  | [], _ => rfl
  | phrase :: phrases, hs => by
    have hsource : source = before ++ (phrase.written ++ (writtenAll phrases ++ following)) := by
      simpa [writtenAll] using hs
    have hsource' : source = before ++ phrase.written ++ (writtenAll phrases ++ following) := by
      simpa [writtenAll] using hs
    have hphrase := Phrase.loose_node before hsource
    have hrest := Phrase.loose_nodes (before ++ phrase.written) hsource'
    rw [nodes, Node.looseAll, hphrase, hrest, indexerEndsAll, IndexerEnd.loosePlaces_append,
      List.length_append]

end

/-! ## The order of indexers -/

open IndexerEnd (Ascend)

/-- Indexers end in the order in which they are written. -/
theorem StepForm.ascend_indexerEnds (offset : Nat) (steps : List StepForm) :
    Ascend (offset + (writtenAll steps).length) offset (indexerEnds offset steps) := by
  induction steps generalizing offset with
  | nil => exact Nat.le_add_right _ _
  | cons step steps ih =>
    have hrest := ih (offset + step.written.length)
    rw [writtenAll_cons, List.length_append, ← Nat.add_assoc]
    cases step with
    | name gap blanks chars => exact hrest.mono (Nat.le_add_right _ _)
    | index gap chars chars_ne =>
      refine ⟨?_, hrest⟩
      simp only [written, List.length_append, List.length_cons]
      omega

theorem PathForm.ascend_indexerEnds (offset : Nat) (p : PathForm) :
    Ascend (offset + p.written.length) offset (p.indexerEnds offset) := by
  have hsteps := StepForm.ascend_indexerEnds (offset + p.root.length) p.steps
  rw [Nat.add_assoc, ← List.length_append] at hsteps
  exact hsteps.mono (Nat.le_add_right _ _)

theorem HeadForm.length_front_path_le (head : HeadForm) :
    head.front.length + head.path.written.length ≤ head.written.length := by
  cases head <;> simp [front, path, written] <;> omega

mutual

/-- The indexers of a phrase end one after the other, and none behind the phrase. -/
theorem Phrase.ascend_indexerEnds (offset : Nat) : ∀ phrase : Phrase,
    Ascend (offset + phrase.written.length) offset (phrase.indexerEnds offset)
  | .text _ => Nat.le_add_right _ _
  | .substitution blanks subject filters trail => by
    have hpath := subject.ascend_indexerEnds (offset + ('#' :: '{' :: blanks).length)
    refine (hpath.extend ?_).mono (Nat.le_add_right _ _)
    simp [written, inside]
    omega
  | .block head body => by
    have hpath := head.path.ascend_indexerEnds (offset + head.front.length)
    have hbody := Phrase.ascend_indexerEndsAll (offset + head.written.length) body
    have hle := head.length_front_path_le
    refine ((hpath.extend (by omega)).append (hbody.extend ?_)).mono (Nat.le_add_right _ _)
    simp only [written, List.length_append]
    omega

theorem Phrase.ascend_indexerEndsAll (offset : Nat) : ∀ phrases : List Phrase,
    Ascend (offset + (writtenAll phrases).length) offset (indexerEndsAll offset phrases)
  | [] => Nat.le_add_right _ _
  | phrase :: phrases => by
    have hphrase := Phrase.ascend_indexerEnds offset phrase
    have hrest := Phrase.ascend_indexerEndsAll (offset + phrase.written.length) phrases
    rw [writtenAll, List.length_append, ← Nat.add_assoc]
    exact hphrase.append hrest

end

/-! ## Sources -/

/-- The failure is a parse error about the first of the blanks. -/
def Failure.NamesFirst (source : String) (blanks : Set Nat) (f : Failure) : Prop :=
  ∃ e offset, f = .parse e ∧ e.Says source "Unexpected whitespace after ']'" offset ∧
    IsLeast blanks offset

/-- Whether building fails is decided by the blanks and the depth, and so is where. -/
theorem FailsFirst.decides {source : String} {recursionLimit : Nat} {deep : Prop} {extent : Extent}
    {ends : List IndexerEnd} {start stop : Nat} {α : Type} {result : Except Failure α}
    (h : FailsFirst source recursionLimit deep
      (IndexerEnd.loosePlaces source.toList extent ends) result)
    (hends : Ascend stop start ends)
    (hresult : (∃ a, result = .ok a) ∨ ∃ e, result = .error (.parse e)) :
    let blanks := IndexerEnd.looseBlanks source.toList extent ends
    ((∃ f, result = .error f) ↔ blanks.Nonempty ∨ deep) ∧
      ∀ f, result = .error f →
        f.NamesFirst source blanks ∨ deep ∧ f = tooDeepToBuild source recursionLimit := by
  intro blanks
  rcases hresult with ⟨a, rfl⟩ | ⟨e, rfl⟩
  · obtain ⟨hnil, hdeep⟩ := h.of_ok a rfl
    have hbuilt : ∀ f, (.ok a : Except Failure α) ≠ .error f := fun _ h => by cases h
    refine ⟨iff_of_false (not_exists.2 hbuilt) (not_or.2 ⟨?_, hdeep⟩), fun f h => (hbuilt f h).elim⟩
    exact IndexerEnd.loosePlaces_eq_nil_iff.1 hnil
  · have hfails : (Failure.parse e).NamesFirst source blanks ∨
        deep ∧ .parse e = tooDeepToBuild source recursionLimit := by
      refine (h.of_error e rfl).imp_left ?_
      rintro ⟨p, hp, hcause⟩
      obtain ⟨offset, rfl, hleast⟩ := hends.isLeast hp
      cases hcause
      exact ⟨_, offset, rfl, ⟨rfl, rfl, rfl, rfl⟩, hleast⟩
    refine ⟨iff_of_true ⟨_, rfl⟩ (hfails.imp ?_ And.left), ?_⟩
    · rintro ⟨-, offset, -, -, hleast⟩
      exact ⟨offset, hleast.1⟩
    · intro f hf
      cases hf
      exact hfails

/-- Of the sources that have an outline within the limit, those fail in which a blank follows an
    indexer inside a path, and they fail at the first such blank; so do blocks that are too deep to
    be built. Of those that are read as a bare path, the ones fail in which a blank follows any
    indexer, at the first such blank. -/
theorem parse_blankAfterIndexer (source : String) :
    (∀ limit machine outline, readOutline source.toList = .ok outline →
      checkNesting source limit outline = .ok () →
      ∃ phrases, Phrase.Derives source.toList phrases ∧
        let blanks := IndexerEnd.looseBlanks source.toList .tag (Phrase.indexerEndsAll 0 phrases)
        ((∃ f, parseTemplate source limit machine = .error f) ↔
          blanks.Nonempty ∨ machine.room < Phrase.depthAll phrases) ∧
        ∀ f, parseTemplate source limit machine = .error f →
          f.NamesFirst source blanks ∨ machine.room < Phrase.depthAll phrases ∧
            f = tooDeepToBuild source machine.recursionLimit) ∧
    ∀ parts, readPath source.toList = .ok parts →
      ∃ lead p trail, source.toList = lead ++ (PathForm.written p ++ trail) ∧ AllBlank lead ∧
        p.Fits trail ∧ AllBlank trail ∧
        let blanks := IndexerEnd.looseBlanks source.toList .bare (p.indexerEnds lead.length)
        ((∃ f, parsePath source = .error f) ↔ blanks.Nonempty) ∧
        ∀ f, parsePath source = .error f → f.NamesFirst source blanks := by
  constructor
  · intro limit machine outline houtline hcheck
    obtain ⟨phrases, hderives, rfl⟩ := derives_of_readOutline houtline
    have hsource : source.toList = [] ++ (Phrase.writtenAll phrases ++ []) := by
      simp [hderives.1]
    have hbuild := (Node.failsFirst_segments source machine
      (Phrase.nodes [] [] phrases)).map Template.mk
    rw [Phrase.loose_nodes [] hsource, Ne, Phrase.lastTooDeep?_nodes, Nat.not_le]
      at hbuild
    rw [← parseTemplate_of_outline houtline hcheck machine] at hbuild
    exact ⟨phrases, hderives, hbuild.decides (Phrase.ascend_indexerEndsAll 0 phrases)
      (parseTemplate_or_parseError source limit machine)⟩
  · intro parts hparts
    obtain ⟨lead, p, trail, hsource, hlead, hfits, htrail, rfl⟩ := fits_of_readPath hparts
    -- There are no blocks in a path, so it does not matter what is said of them.
    have hbuild := SymbolPath.failsFirst_ofParts source 0 .bare (p.parts [] lead trail)
    rw [PathForm.loose_parts .bare [] lead (by simpa using hsource), List.nil_append] at hbuild
    have hparse : parsePath source = SymbolPath.ofParts source .bare (p.parts [] lead trail) := by
      simp only [parsePath, hparts, Except.mapError, bind, Except.bind]
    rw [← hparse] at hbuild
    have hdecides := hbuild.decides (p.ascend_indexerEnds lead.length)
      (parsePath_or_parseError source)
    simp only [or_false, false_and] at hdecides
    exact ⟨lead, p, trail, hsource, hlead, hfits, htrail, hdecides⟩

/-- In a tag and on its own, a path cannot go on behind an indexer and a blank. -/
theorem parse_blankAfterIndexer_total :
    let template := "#\x7bLines[0] .Total\x7d"
    let path := "Lines[0] .Total"
    let machine : Machine := {}
    (∃ outline, readOutline template.toList = .ok outline ∧
      checkNesting template 64 outline = .ok () ∧
      ∃ phrases, Phrase.Derives template.toList phrases ∧
        ∃ f, parseTemplate template 64 machine = .error f ∧
          (f.NamesFirst template (IndexerEnd.looseBlanks template.toList .tag
              (Phrase.indexerEndsAll 0 phrases)) ∨
            machine.room < Phrase.depthAll phrases ∧
              f = tooDeepToBuild template machine.recursionLimit)) ∧
    ∃ parts, readPath path.toList = .ok parts ∧
      ∃ lead p trail, path.toList = lead ++ (PathForm.written p ++ trail) ∧
        ∃ f, parsePath path = .error f ∧ f.NamesFirst path
          (IndexerEnd.looseBlanks path.toList .bare (p.indexerEnds lead.length)) := by
  intro template path machine
  have hoktemplate : (readOutline template.toList).toOption.any
      (fun outline => (checkNesting template 64 outline).toBool) = true := by decide +kernel
  have hokpath : (readPath path.toList).toBool = true := by decide +kernel
  have hnotemplate : (parseTemplate template 64 machine).toBool = false := by decide +kernel
  have hnopath : (parsePath path).toBool = false := by decide +kernel
  have htemplates := (parse_blankAfterIndexer template).1
  have hpaths := (parse_blankAfterIndexer path).2
  constructor
  case left =>
    cases houtline : readOutline template.toList with
    | error fault =>
      rw [houtline] at hoktemplate
      cases hoktemplate
    | ok outline =>
      rw [houtline] at hoktemplate
      obtain ⟨⟨⟩, hcheck⟩ := exists_of_toBool hoktemplate
      obtain ⟨phrases, hderives, -, hnames⟩ := htemplates 64 machine outline houtline hcheck
      cases hparse : parseTemplate template 64 machine with
      | ok t =>
        rw [hparse] at hnotemplate
        cases hnotemplate
      | error f => exact ⟨outline, rfl, hcheck, phrases, hderives, f, rfl, hnames f hparse⟩
  case right =>
    obtain ⟨parts, hparts⟩ := exists_of_toBool hokpath
    obtain ⟨lead, p, trail, hsource, -, -, -, -, hnames⟩ := hpaths parts hparts
    cases hparse : parsePath path with
    | ok q =>
      rw [hparse] at hnopath
      cases hnopath
    | error f => exact ⟨parts, hparts, lead, p, trail, hsource, f, rfl, hnames f hparse⟩

/-- There is no indexer in blocks that are about a name and have nothing but each other in them. -/
theorem Phrase.indexerEndsAll_nested (n offset : Nat) : indexerEndsAll offset (nested n) = [] := by
  induction n generalizing offset with
  | zero => rfl
  | succ n ih =>
    simp [nested, indexerEndsAll, indexerEnds, HeadForm.path, PathForm.indexerEnds,
      StepForm.indexerEnds, ih]

/-- Without any indexer in it and without blocks beyond the limit, a source still fails if its
    blocks are nested deeper than the machine has room for. -/
theorem parse_nested_without_indexers :
    let source := nestedSource 1000
    (∃ outline, readOutline source.toList = .ok outline ∧
      checkNesting source 1000 outline = .ok ()) ∧
    (∀ phrases, Phrase.Derives source.toList phrases →
      IndexerEnd.looseBlanks source.toList .tag (Phrase.indexerEndsAll 0 phrases) = ∅) ∧
    parseTemplate source 1000 = .error (tooDeepToBuild source 1000) := by
  intro source
  have hderives : Phrase.Derives source.toList (Phrase.nested 1000) := Phrase.derives_nested 1000
  have hdepth := Phrase.depthAll_nested 1000
  refine ⟨⟨_, readOutline_of_derives hderives, ?_⟩, ?_, ?_⟩
  · exact (checkNesting_nodes source 1000 (Phrase.nested 1000)).1 (by rw [hdepth]; decide)
  · intro phrases hphrases
    obtain rfl := hphrases.unique hderives
    simp [Phrase.indexerEndsAll_nested, IndexerEnd.looseBlanks]
  · exact (parseTemplate_nested 1000 1000 {}).2 (by decide) (by decide)

end Stencil
