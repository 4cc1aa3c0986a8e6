-- SUMMARY: Building the outline of phrases gives what they stand for, and where it fails, why.
import Stencil.Proofs.Depth
import Stencil.Proofs.Derivation

/-! # Building

What the nodes of phrases are built into is what the grammar says that the phrases stand for. Two
things may go wrong on the way, both of them parse errors: blocks that are nested too deep, and a
blank between an indexer and the next step. Nothing else does; in particular no indexer is empty,
no path lacks its root, and no stretch of literal text is anything else.
-/

namespace Stencil

open Text (isBlank trim trimEnd)

/-- A result that is the given value under a condition, and otherwise a parse error. -/
def YieldsIf {α : Type} (result : Except Failure α) (condition : Prop) (value : α) : Prop :=
  (condition → result = .ok value) ∧ (¬condition → ∃ e, result = .error (.parse e))

namespace YieldsIf

variable {α β : Type}

theorem ok (a : α) : YieldsIf (.ok a) True a :=
  ⟨fun _ => rfl, fun h => absurd trivial h⟩

theorem error (e : ParseError) (a : α) : YieldsIf (.error (.parse e)) False a :=
  ⟨False.elim, fun _ => ⟨e, rfl⟩⟩

theorem congr {result : Except Failure α} {p q : Prop} {a : α} (h : YieldsIf result p a)
    (hpq : p ↔ q) : YieldsIf result q a :=
  ⟨fun hq => h.1 (hpq.2 hq), fun hq => h.2 (mt hpq.1 hq)⟩

/-- The second of two stages matters only if the first one succeeds. -/
theorem bind {x : Except Failure α} {f : α → Except Failure β} {p q : Prop} {a : α} {b : β}
    (hx : YieldsIf x p a) (hf : YieldsIf (f a) q b) : YieldsIf (x >>= f) (p ∧ q) b := by
  constructor
  · rintro ⟨hp, hq⟩
    rw [hx.1 hp]
    exact hf.1 hq
  · intro h
    by_cases hp : p
    · rw [hx.1 hp]
      exact hf.2 fun hq => h ⟨hp, hq⟩
    · obtain ⟨e, he⟩ := hx.2 hp
      exact ⟨e, by rw [he]; rfl⟩

theorem map {x : Except Failure α} {p : Prop} {a : α} (f : α → β) (hx : YieldsIf x p a) :
    YieldsIf (x >>= fun a => .ok (f a)) p (f a) :=
  (hx.bind (.ok (f a))).congr (and_iff_left trivial)

end YieldsIf

/-! ## Paths -/

/-- Blanks do not follow a name where nothing ends it: they belong to it. -/
theorem IsName.eq_nil_of_blanks {name blanks t : List Char} (h : IsName name (blanks ++ t))
    (hblanks : AllBlank blanks) (ht : ¬EndsName t) : blanks = [] := by
  cases blanks with
  | nil => rfl
  | cons c blanks =>
    refine absurd (.inr ⟨hblanks.head, ?_⟩) (h.ends c (blanks ++ t) rfl)
    cases blanks with
    | nil => exact ht
    | cons d blanks =>
      rintro (⟨s, hs⟩ | ⟨e, s, hs, -⟩) <;>
        · obtain ⟨rfl, -⟩ := List.cons.inj hs
          exact absurd hblanks.tail.head (by decide)

/-- No blank stands after a name in front of a step: it would belong to the name. -/
theorem StepForm.gap_eq_nil {name following : List Char} {step : StepForm}
    (hname : IsName name (step.written ++ following)) (hstep : step.Fits following) :
    step.gap = [] := by
  obtain ⟨mark, t, hmark, hw, hblank⟩ := exists_mark hstep
  rw [hw, List.append_assoc] at hname
  apply hname.eq_nil_of_blanks hblank
  rcases hmark with rfl | rfl <;> simp [EndsName]

/-- No blank comes next if there is no gap before the next step. -/
theorem StepForm.head_blank_iff {step : StepForm} {following : List Char}
    (hstep : step.Fits following) (t : List Char) :
    (step.written ++ t).head?.any isBlank = false ↔ step.gap = [] := by
  obtain ⟨mark, u, hmark, hw, hblank⟩ := exists_mark hstep
  rw [hw]
  cases hg : step.gap with
  | nil =>
    have hvisible : isBlank mark = false := by
      rcases hmark with rfl | rfl <;> decide
    simp [hvisible]
  | cons c gap =>
    rw [hg] at hblank
    simp [hblank.head]

/-- An indexer is made of what stands between its brackets. -/
theorem Indexer.ofText_ofList {chars : List Char} (hne : chars ≠ []) (position : Option Position) :
    Indexer.ofText (String.ofList chars) position =
      .ok ⟨String.ofList chars, position, by simpa using hne⟩ := by
  rw [Indexer.ofText, dif_neg (by simpa using hne)]

section Built

variable (source : String)

/-- A step is built, unless it is an indexer that a blank and then a further step follow. -/
theorem StepForm.step_part (before following : List Char) (step : StepForm) (last : Bool) :
    YieldsIf ((step.part before following).step source .tag false last)
      (last ∨ (∃ gap blanks chars, step = .name gap blanks chars) ∨
        following.head?.any isBlank = false)
      (step.step before last) := by
  cases step with
  | name gap blanks chars =>
    exact (YieldsIf.ok _).congr (iff_of_true trivial (.inr (.inl ⟨_, _, _, rfl⟩)))
  | index gap chars hne =>
    simp only [part, Part.step, Indexer.ofText_ofList hne, Except.mapError, bind, Except.bind]
    cases hb : following.head?.any isBlank with
    | false => exact (YieldsIf.ok _).congr (by simp)
    | true =>
      cases last with
      | false => exact (YieldsIf.error _ _).congr (by simp)
      | true => exact (YieldsIf.ok _).congr (by simp)

/-- The steps after a root are built if they are close to each other. -/
theorem StepForm.steps_parts (before : List Char) {following : List Char} {steps : List StepForm}
    (h : AllFit following steps) :
    YieldsIf (Part.steps source .tag false (parts before following steps))
      (∀ step ∈ steps.tail, step.gap = []) (stepsOf before steps) := by
  induction steps generalizing before with
  | nil => exact (YieldsIf.ok _).congr (by simp)
  | cons step steps ih =>
    have hempty : (parts (before ++ step.written) following steps).isEmpty = steps.isEmpty := by
      cases steps <;> rfl
    have hone := step.step_part source before (writtenAll steps ++ following) steps.isEmpty
    have hmore := (ih (before ++ step.written) h.2).map (step.step before steps.isEmpty :: ·)
    simp only [parts, Part.steps, hempty]
    refine (hone.bind hmore).congr ?_
    cases steps with
    | nil => simp
    | cons next steps =>
      have hw : writtenAll (next :: steps) ++ following =
          next.written ++ (writtenAll steps ++ following) := by
        simp [writtenAll]
      cases step with
      | name gap blanks chars =>
        have hgap := gap_eq_nil (hw ▸ h.1.2.2) h.2.1
        simp [hgap]
      | index gap chars hne =>
        rw [hw, head_blank_iff h.2.1]
        simp

/-- A path that starts with a name is built if its further steps are. -/
theorem SymbolPath.ofParts_name (extent : Extent) (t : Token) (parts : List Part) :
    SymbolPath.ofParts source extent (.name t :: parts) =
      (Part.steps source extent false parts >>= fun rest =>
        let root := t.pathIdentifier extent true parts.isEmpty
        .ok { root, rest, position := root.position }) := by
  simp only [SymbolPath.ofParts, Part.steps, Part.step]
  cases Part.steps source extent false parts <;> rfl

/-- A path is built if its steps are close to each other. -/
theorem PathForm.ofParts_parts (before lead : List Char) {following : List Char} {p : PathForm}
    (h : p.Fits following) :
    YieldsIf (SymbolPath.ofParts source .tag (p.parts before lead following)) p.Tight
      (p.path (before ++ lead)) := by
  obtain ⟨root, steps⟩ := p
  have hsteps := StepForm.steps_parts source (before ++ lead ++ root) h.2
  have hempty : (StepForm.parts (before ++ lead ++ root) following steps).isEmpty =
      steps.isEmpty := by
    cases steps <;> rfl
  have htight : (∀ step ∈ steps.tail, step.gap = []) ↔ PathForm.Tight ⟨root, steps⟩ := by
    cases steps with
    | nil => simp [Tight]
    | cons step steps =>
      have hroot := h.1
      simp only [StepForm.writtenAll, List.flatMap_cons, List.append_assoc] at hroot
      simp [Tight, StepForm.gap_eq_nil hroot h.2.1]
  simp only [parts, SymbolPath.ofParts_name, Token.pathIdentifier, hempty, if_true,
    Token.start_mk_after]
  exact (hsteps.congr htight).map _

/-! ## Filters -/

theorem trim_eq_trimEnd {s : List Char} (h : StartsVisible s) : trim s = trimEnd s := by
  cases s with
  | nil => rfl
  | cons c s => simp [trim, h c s rfl]

/-- A filter or a loop variable is named by the token without the blanks at its end. -/
theorem Token.identifier_of_isName {name following : List Char} (h : IsName name following)
    (origin : Position) (lead : List Char) :
    identifier ⟨.name, origin, lead, name⟩ =
      ⟨String.ofList (trimEnd name), some (start ⟨.name, origin, lead, name⟩)⟩ := by
  have hvisible := h.startsVisible []
  rw [List.append_nil] at hvisible
  simp [identifier, trim_eq_trimEnd hvisible]

theorem FilterForm.identifiers_tokens (before : List Char) {following : List Char}
    {filters : List FilterForm} (h : AllFit following filters) :
    (tokens before filters).map Token.identifier = names before filters := by
  induction filters generalizing before with
  | nil => rfl
  | cons f filters ih =>
    have hidentifier := Token.identifier_of_isName h.1.2.2
    simp [tokens, names, token, name, hidentifier, ih _ h.2]

/-! ## Literal text -/

/-- Literal text is unescaped without fail, and into what its pieces stand for. -/
theorem literalFragments_of_allFit {before following : List Char} {pieces : List PieceForm}
    (hs : source.toList = before ++ (PieceForm.writtenAll pieces ++ following))
    (h : PieceForm.AllFit following pieces) :
    literalFragments source (.after before) (PieceForm.writtenAll pieces) =
      .ok (pieces.map fun piece => String.ofList piece.meaning) := by
  have hoffset : (Position.after before).offset = before.length := rfl
  have hpos : (0 : Int) ≤ before.length := Int.natCast_nonneg _
  rw [literalFragments, hoffset, Literal.unescape, Int.toNat_natCast, hs, List.drop_left,
    PieceForm.fragmentsFrom_of_allFit hpos [] h]
  rfl

/-! ## Depth -/

mutual

/-- A node can be built if its phrase is no deeper than there is room. -/
theorem Phrase.tooDeep?_node (before following : List Char) (room : Nat) :
    ∀ phrase : Phrase, (phrase.node before following).tooDeep? room = none ↔ phrase.depth ≤ room
  | .text _ => by simp [node, Node.tooDeep?, depth]
  | .substitution .. => by simp [node, Node.tooDeep?, depth]
  | .block head body => by
    cases room with
    | zero => simp [node, Node.tooDeep?, depth]
    | succ room => simp [node, Node.tooDeep?, depth, lastTooDeep?_nodes]

/-- No block of an outline lies too deep if the phrases are not nested deeper than allowed. -/
theorem Phrase.lastTooDeep?_nodes (before following : List Char) (room : Nat) :
    ∀ phrases : List Phrase,
      Node.lastTooDeep? room (nodes before following phrases) = none ↔ depthAll phrases ≤ room
  | [] => by simp [nodes, Node.lastTooDeep?, depthAll]
  | phrase :: phrases => by
    have hphrase := phrase.tooDeep?_node before (writtenAll phrases ++ following) room
    have hrest := lastTooDeep?_nodes (before ++ phrase.written) following room phrases
    simp only [nodes, Node.lastTooDeep?, depthAll, Nat.max_le, ← hphrase, ← hrest]
    split <;> simp_all

end

/-! ## Phrases -/

/-- A conditional with a single body shows it in the case that it is written for. -/
theorem Segment.conditionalOf_body (subject : SymbolPath) (negated : Bool) (body : List Segment)
    (position : Option Position) :
    YieldsIf
      (let (truthy, falsy) := if negated then ([], body) else (body, [])
      (Segment.conditionalOf subject truthy falsy negated position).mapError .model)
      True (.conditional negated subject body position) := by
  cases negated <;> cases body <;> exact .ok _

mutual

/-- The node of a phrase is built into its segment, if its blocks are not nested too deep and its
    paths have no blanks in them. -/
theorem Phrase.segment_node {before : List Char} (machine : Machine) {following : List Char} :
    ∀ {phrase : Phrase}, source.toList = before ++ (phrase.written ++ following) →
      phrase.Fits following →
      YieldsIf ((phrase.node before following).segment source machine)
        (phrase.depth ≤ machine.room ∧ ∀ p ∈ phrase.paths, p.Tight) (phrase.segment before)
  | .text pieces, hs, h => by
    simp only [node, Node.segment, literalFragments_of_allFit source hs h.2]
    exact (YieldsIf.ok _).congr (by simp [depth, paths])
  | .substitution blanks subject filters trail, _, h => by
    obtain ⟨-, -, -, hsubject, hfilters, -⟩ := h
    have hpath := PathForm.ofParts_parts source (before ++ ['#', '{']) blanks hsubject
    have hnames := FilterForm.identifiers_tokens
      (before ++ '#' :: '{' :: blanks ++ subject.written) hfilters
    simp only [node, Node.segment, hnames]
    rw [show before ++ ['#', '{'] ++ blanks = before ++ '#' :: '{' :: blanks by simp] at hpath
    exact (hpath.map _).congr (by simp [depth, paths])
  | .block head body, hs, h => by
    obtain ⟨hhead, hbody⟩ := h
    obtain ⟨room, recursionLimit⟩ := machine
    cases room with
    | zero =>
      simp only [node, Node.segment]
      exact (YieldsIf.error _ _).congr (by simp [depth])
    | succ room =>
      have hsource : source.toList = before ++ head.written ++
          (writtenAll body ++ (head.kind.closer.toList ++ following)) := by
        simpa [written] using hs
      have hinner := Phrase.segments_nodes ⟨room, recursionLimit⟩ hsource hbody
      cases head with
      | condition negated keyword blanks subject trail =>
        have hpath := PathForm.ofParts_parts source
          (before ++ '#' :: '{' :: (keyword ++ blanks)) [] hhead.2.2.2.1
        rw [List.append_nil] at hpath
        simp only [node, Node.segment, HeadForm.head]
        refine (hpath.bind (hinner.bind (Segment.conditionalOf_body _ _ _ _))).congr ?_
        simp only [depth, paths, HeadForm.path, List.forall_mem_cons, Nat.add_le_add_iff_right]
        tauto
      | loop keyword blanks enumerator gap inBlanks collection trail =>
        obtain ⟨-, -, -, henumerator, -, -, -, hcollection, -⟩ := hhead
        have hpath := PathForm.ofParts_parts source
          (before ++ '#' :: '{' :: (keyword ++ blanks) ++ enumerator ++ gap ++ ['i', 'n']) inBlanks
          hcollection
        rw [List.append_assoc _ ['i', 'n']] at hpath
        have hidentifier := Token.identifier_of_isName henumerator
          (.after (before ++ '#' :: '{' :: (keyword ++ blanks))) []
        simp only [node, Node.segment, HeadForm.head, hidentifier]
        refine (hpath.bind (hinner.map _)).congr ?_
        simp only [depth, paths, HeadForm.path, List.forall_mem_cons, Nat.add_le_add_iff_right]
        tauto

/-- The nodes of phrases are built into their segments, under the same conditions. -/
theorem Phrase.segments_nodes {before : List Char} (machine : Machine) {following : List Char} :
    ∀ {phrases : List Phrase}, source.toList = before ++ (writtenAll phrases ++ following) →
      AllFit following phrases →
      YieldsIf (Node.segments source machine (nodes before following phrases))
        (depthAll phrases ≤ machine.room ∧ ∀ p ∈ pathsAll phrases, p.Tight)
        (segments before phrases)
  | [], _, _ => by
    simp only [nodes, Node.segments]
    exact (YieldsIf.ok _).congr (by simp [depthAll, pathsAll])
  | phrase :: phrases, hs, h => by
    have hsource :
        source.toList = before ++ (phrase.written ++ (writtenAll phrases ++ following)) := by
      simpa [writtenAll] using hs
    have hsource' :
        source.toList = before ++ phrase.written ++ (writtenAll phrases ++ following) := by
      simpa [writtenAll] using hs
    have hphrase := Phrase.segment_node machine hsource h.1
    have hrest := Phrase.segments_nodes machine hsource' h.2
    simp only [nodes, Node.segments]
    refine (hphrase.bind (hrest.map (phrase.segment before :: ·))).congr ?_
    simp only [depthAll, pathsAll, List.forall_mem_append, Nat.max_le]
    tauto

end

end Built

end Stencil
