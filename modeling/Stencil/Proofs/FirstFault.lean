-- SUMMARY: What building fails at first: a blank after an indexer, or blocks without room for them.
import Stencil.Proofs.Failures

/-! # The first fault in building

Two things may be wrong with the outline of a source that passes the check of its nesting: a blank
may follow an indexer that a step has to follow, and blocks may be nested deeper than the machine
has room for. A source with neither is built. Of the blanks, the first one is what the failure
names.
-/

namespace Stencil

/-! ## Blanks and depth -/

/-- The blanks after the indexers of a path that it cannot be built with. -/
def Part.loose (extent : Extent) : List Part → List Position
  | [] => []
  | part :: rest =>
    (if extent = .tag ∧ rest.isEmpty then none else part.blank?).toList ++ loose extent rest

mutual

/-- The blanks after indexers that a node cannot be built with. -/
def Node.loose : Node → List Position
  | .text .. => []
  | .substitution _ subject _ => Part.loose .tag subject
  | .block head body => Part.loose .tag head.path ++ looseAll body

def Node.looseAll : List Node → List Position
  | [] => []
  | node :: nodes => node.loose ++ looseAll nodes

end

/-- A result of building that is a success only if none of the places is there and no blocks lie too
    deep, and in which a parse error names the first of the places or else comes from the blocks. -/
structure FailsFirst (source : String) (recursionLimit : Nat) (deep : Prop)
    (places : List Position) {α : Type} (result : Except Failure α) : Prop where
  of_ok : ∀ a, result = .ok a → places = [] ∧ ¬deep
  of_error : ∀ e, result = .error (.parse e) →
    (∃ p, places.head? = some p ∧ .parse e = blankAfterIndexer source p) ∨
      deep ∧ .parse e = tooDeepToBuild source recursionLimit

namespace FailsFirst

variable {source : String} {recursionLimit : Nat} {deep deep' : Prop}
  {places places' : List Position} {α β : Type}

theorem ok (a : α) : FailsFirst source recursionLimit False [] (.ok a) :=
  ⟨fun _ _ => ⟨rfl, not_false⟩, nofun⟩

/-- Failures of other sorts do not count. -/
theorem other {ε : Type} {wrap : ε → Failure} (hwrap : ∀ e e', wrap e ≠ .parse e')
    (x : Except ε α) : FailsFirst source recursionLimit False [] (x.mapError wrap) := by
  refine ⟨fun _ _ => ⟨rfl, not_false⟩, fun e h => ?_⟩
  obtain ⟨e', h⟩ := mapError_ne_parse h
  exact absurd h (hwrap e' e)

theorem model (x : Except ModelError α) :
    FailsFirst source recursionLimit False [] (x.mapError .model) :=
  other (fun _ _ h => by cases h) x

theorem literal (x : Except Literal.NotLiteral α) :
    FailsFirst source recursionLimit False [] (x.mapError .literal) :=
  other (fun _ _ h => by cases h) x

theorem congr {result : Except Failure α} (h : FailsFirst source recursionLimit deep places result)
    (hdeep : deep ↔ deep') (hplaces : places = places') :
    FailsFirst source recursionLimit deep' places' result := by
  rwa [← propext hdeep, ← hplaces]

/-- The second of two stages is reached only past the places of the first. -/
theorem bind {x : Except Failure α} {f : α → Except Failure β}
    (hx : FailsFirst source recursionLimit deep places x)
    (hf : ∀ a, FailsFirst source recursionLimit deep' places' (f a)) :
    FailsFirst source recursionLimit (deep ∨ deep') (places ++ places') (x >>= f) := by
  constructor
  case of_ok =>
    intro b h
    cases hxa : x with
    | error e =>
      rw [hxa] at h
      cases h
    | ok a =>
      rw [hxa] at h
      obtain ⟨rfl, hdeep⟩ := hx.of_ok a hxa
      obtain ⟨rfl, hdeep'⟩ := (hf a).of_ok b h
      exact ⟨rfl, not_or.2 ⟨hdeep, hdeep'⟩⟩
  case of_error =>
    intro e h
    rcases bind_eq_error h with h | ⟨a, hxa, h⟩
    · rcases hx.of_error e h with ⟨p, hp, he⟩ | ⟨hdeep, he⟩
      · exact .inl ⟨p, by simp [List.head?_append, hp], he⟩
      · exact .inr ⟨.inl hdeep, he⟩
    · obtain ⟨rfl, -⟩ := hx.of_ok a hxa
      exact ((hf a).of_error e h).imp_right (And.imp_left .inr)

theorem map {x : Except Failure α} (hx : FailsFirst source recursionLimit deep places x)
    (f : α → β) :
    FailsFirst source recursionLimit deep places (x >>= fun a => .ok (f a)) :=
  (hx.bind fun a => .ok (f a)).congr (or_false _).to_iff (List.append_nil _)

end FailsFirst

section Built

variable (source : String) (recursionLimit : Nat) (extent : Extent)

/-- A step fails if a blank follows its indexer where only a step may follow. -/
theorem Part.failsFirst_step (first last : Bool) (part : Part) :
    FailsFirst source recursionLimit False
      (if extent = .tag ∧ last then none else part.blank?).toList
      (part.step source extent first last) := by
  cases part with
  | name t =>
    rw [blank?, ite_self]
    exact .ok _
  | index bracket written blank =>
    have hindexer : FailsFirst source recursionLimit False []
        ((Indexer.ofText (String.ofList written) (some bracket)).mapError .model) := .model _
    cases blank with
    | none =>
      simp only [step, blank?, ite_self]
      exact hindexer.map Step.index
    | some p =>
      by_cases h : extent = .tag ∧ last
      · simp only [step, blank?, if_pos h]
        exact hindexer.map Step.index
      · have hblank : FailsFirst source recursionLimit False [p]
            (Except.error (blankAfterIndexer source p) : Except Failure Step) := by
          refine ⟨fun _ hok => ?_, fun e he => .inl ⟨p, rfl, (Except.error.inj he).symm⟩⟩
          cases hok
        simp only [step, blank?, if_neg h]
        exact (hindexer.bind fun _ => hblank).congr (or_false _).to_iff rfl

/-- Steps fail at the first of them that does. -/
theorem Part.failsFirst_steps (first : Bool) (parts : List Part) :
    FailsFirst source recursionLimit False (loose extent parts)
      (Part.steps source extent first parts) := by
  induction parts generalizing first with
  | nil => exact .ok _
  | cons part parts ih =>
    have hstep := failsFirst_step source recursionLimit extent first parts.isEmpty part
    exact (hstep.bind fun step => (ih false).map (step :: ·)).congr (or_false _).to_iff rfl

/-- A path fails at the first blank that it cannot be built with. -/
theorem SymbolPath.failsFirst_ofParts (parts : List Part) :
    FailsFirst source recursionLimit False (Part.loose extent parts)
      (SymbolPath.ofParts source extent parts) :=
  ((Part.failsFirst_steps source recursionLimit extent true parts).bind fun _ => .model _).congr
    (or_false _).to_iff (List.append_nil _)

mutual

/-- A node fails for the first blank in it, or for blocks that are too deep, whichever building
    meets first. -/
theorem Node.failsFirst_segment (machine : Machine) :
    ∀ node : Node, FailsFirst source machine.recursionLimit
      (node.tooDeep? machine.room ≠ none) node.loose (node.segment source machine)
  | .text start written => by
    have hfragments : FailsFirst source machine.recursionLimit False []
        (literalFragments source start written) := .literal _
    simp only [segment]
    exact (hfragments.map _).congr (by simp [tooDeep?]) rfl
  | .substitution start subject filters => by
    have hpath := SymbolPath.failsFirst_ofParts source machine.recursionLimit .tag subject
    simp only [segment]
    exact (hpath.map _).congr (by simp [tooDeep?]) rfl
  | .block head body => by
    obtain ⟨room, recursionLimit⟩ := machine
    cases room with
    | zero =>
      simp only [segment]
      exact ⟨nofun, fun e he => .inr ⟨nofun, (Except.error.inj he).symm⟩⟩
    | succ room =>
      have hbody := Node.failsFirst_segments ⟨room, recursionLimit⟩ body
      cases head with
      | condition start negated subject =>
        have hpath := SymbolPath.failsFirst_ofParts source recursionLimit .tag subject
        simp only [segment]
        refine (hpath.bind fun path => hbody.bind fun segments => .model _).congr ?_ ?_
        · simp [tooDeep?]
        · rw [List.append_nil, loose, Head.path]
      | loop start enumerator collection =>
        have hpath := SymbolPath.failsFirst_ofParts source recursionLimit .tag collection
        simp only [segment]
        refine (hpath.bind fun path => hbody.map _).congr ?_ ?_
        · simp [tooDeep?]
        · rw [loose, Head.path]

/-- Nodes fail at the first blank that one of them cannot be built with, unless blocks among them
    lie too deep. -/
theorem Node.failsFirst_segments (machine : Machine) :
    ∀ nodes : List Node, FailsFirst source machine.recursionLimit
      (Node.lastTooDeep? machine.room nodes ≠ none) (looseAll nodes)
      (Node.segments source machine nodes)
  | [] => by
    simp only [segments]
    exact (FailsFirst.ok _).congr (by simp [lastTooDeep?]) rfl
  | node :: nodes => by
    have hnode := Node.failsFirst_segment machine node
    have hnodes := Node.failsFirst_segments machine nodes
    simp only [segments]
    refine (hnode.bind fun segment => hnodes.map (segment :: ·)).congr ?_ rfl
    rw [lastTooDeep?]
    cases Node.lastTooDeep? machine.room nodes <;> simp

end

end Built

/-! ## Blocks without room for them -/

/-- Phrases that the caller's limit allows, but that the machine has no room for, are refused for
    that if nothing else is wrong with them. -/
theorem parseTemplate_of_tooDeep {source : String} {limit : Int} {machine : Machine}
    {phrases : List Phrase} (h : Phrase.Derives source.toList phrases)
    (htight : ∀ p ∈ Phrase.pathsAll phrases, p.Tight)
    (hdepth : Phrase.depthAll phrases ≤ limit.toNat)
    (hdeep : machine.room < Phrase.depthAll phrases) :
    parseTemplate source limit machine =
      .error (tooDeepToBuild source machine.recursionLimit) := by
  have hcheck := (checkNesting_nodes source limit phrases).1 hdepth
  have hsource : source.toList = [] ++ (Phrase.writtenAll phrases ++ []) := by simp [h.1]
  -- With room enough the phrases are built, so no blank is in the way.
  have hplaces : Node.looseAll (Phrase.nodes [] [] phrases) = [] := by
    have hroomy := (Phrase.segments_nodes source { room := Phrase.depthAll phrases } hsource h.2).1
      ⟨Nat.le_refl _, htight⟩
    exact ((Node.failsFirst_segments source _ _).of_ok _ hroomy).1
  have hfails := Node.failsFirst_segments source machine (Phrase.nodes [] [] phrases)
  obtain ⟨e, he⟩ := (Phrase.segments_nodes source machine hsource h.2).2 fun hfit => by
    have := hfit.1
    omega
  have hcause : .parse e = tooDeepToBuild source machine.recursionLimit := by
    rcases hfails.of_error e he with ⟨p, hp, -⟩ | ⟨-, hcause⟩
    · rw [hplaces] at hp
      cases hp
    · exact hcause
  rw [parseTemplate_of_outline (readOutline_of_derives h) hcheck machine, he, hcause]
  rfl

/-! ## Blocks in each other -/

/-- So many conditionals about `a`, each with nothing but the next one in it. -/
def Phrase.nested : Nat → List Phrase
  | 0 => []
  | n + 1 => [.block (.condition false ['i', 'f'] [' '] ⟨['a'], []⟩ []) (nested n)]

/-- The source that these blocks make up. -/
def nestedSource (n : Nat) : String := String.ofList (Phrase.writtenAll (Phrase.nested n))

namespace Phrase

variable (n : Nat)

theorem depthAll_nested : depthAll (nested n) = n := by
  induction n with
  | zero => rfl
  | succ n ih => simp [nested, depthAll, depth, ih]

theorem tight_nested : ∀ p ∈ pathsAll (nested n), p.Tight := by
  induction n with
  | zero => simp [nested, pathsAll]
  | succ n ih =>
    simp only [nested, pathsAll, paths, HeadForm.path, List.append_nil, List.forall_mem_cons]
    exact ⟨by simp [PathForm.Tight], ih⟩

theorem allFit_nested (following : List Char) : AllFit following (nested n) := by
  induction n generalizing following with
  | zero => trivial
  | succ n ih =>
    have hname (s : List Char) : IsName ['a'] ('}' :: s) :=
      isName_of_split (s := 'a' :: '}' :: s) rfl (by simp)
    exact ⟨⟨⟨inAnyCase_self _, .space, by simp, ⟨hname _, trivial⟩, .nil⟩, ih _⟩, trivial⟩

/-- So many conditionals, one inside the other, make up a template. -/
theorem derives_nested : Derives (nestedSource n).toList (nested n) :=
  ⟨String.toList_ofList.symm, allFit_nested n []⟩

end Phrase

/-- Blocks in each other are built if the limit allows that many and the machine has room for them.
    If only the room is missing, they are refused for that. -/
theorem parseTemplate_nested (n : Nat) (limit : Int) (machine : Machine) :
    (n ≤ limit.toNat → n ≤ machine.room →
      parseTemplate (nestedSource n) limit machine = .ok (Phrase.template (Phrase.nested n))) ∧
    (n ≤ limit.toNat → machine.room < n →
      parseTemplate (nestedSource n) limit machine =
        .error (tooDeepToBuild (nestedSource n) machine.recursionLimit)) := by
  have hderives := Phrase.derives_nested n
  have htight := Phrase.tight_nested n
  have hdepth := Phrase.depthAll_nested n
  constructor
  · intro hlimit hroom
    exact (parseTemplate_of_derives limit machine hderives).1
      ⟨hderives, htight, by rwa [hdepth], by rwa [hdepth]⟩
  · intro hlimit hroom
    exact parseTemplate_of_tooDeep hderives htight (by rwa [hdepth]) (by rwa [hdepth])

end Stencil
