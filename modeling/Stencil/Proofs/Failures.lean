-- SUMMARY: Every failure of a source is a parse error of that source, at a place in it.
import Stencil.Proofs.BarePath
import Stencil.Proofs.Stopping

/-! # Failures

Of all the ways to fail on the way to a template, a source meets only one: a parse error. Whatever
checks what it is given, be it an indexer, a path, a conditional or a stretch of literal text, is
given by reading what passes the check.

The parse error is about the source that was handed in, and if it names a place, then it is a place
in this source: where reading stopped, where a block starts, or where a blank follows an indexer.
Its report can therefore be written, since there is a line to show.
-/

namespace Stencil

open Text (isBlank)

/-! ## The places that building may name -/

/-- The place of a blank after the part. -/
def Part.blank? : Part → Option Position
  | .name _ => none
  | .index _ _ blank => blank

def Head.path : Head → List Part
  | .condition _ _ subject => subject
  | .loop _ _ collection => collection

mutual

/-- The places of the blocks in a node and of the blanks after its indexers. -/
def Node.places : Node → List Position
  | .text .. => []
  | .substitution _ subject _ => subject.filterMap Part.blank?
  | .block head body => head.start :: (head.path.filterMap Part.blank? ++ placesAll body)

def Node.placesAll : List Node → List Position
  | [] => []
  | node :: nodes => node.places ++ placesAll nodes

end

mutual

theorem Node.mem_places_of_tooDeep? {room : Nat} {p : Position} :
    ∀ {node : Node}, node.tooDeep? room = some p → p ∈ node.places
  | .text .., h => nomatch h
  | .substitution .., h => nomatch h
  | .block head body, h => by
    cases room with
    | zero =>
      cases h
      exact List.mem_cons_self
    | succ room =>
      have := Node.mem_placesAll_of_lastTooDeep? h
      simp [places, this]

theorem Node.mem_placesAll_of_lastTooDeep? {room : Nat} {p : Position} :
    ∀ {nodes : List Node}, Node.lastTooDeep? room nodes = some p → p ∈ placesAll nodes
  | [], h => nomatch h
  | node :: nodes, h => by
    simp only [Node.lastTooDeep?] at h
    split at h
    · next hrest =>
      cases h
      exact List.mem_append_right _ (Node.mem_placesAll_of_lastTooDeep? hrest)
    · exact List.mem_append_left _ (Node.mem_places_of_tooDeep? h)

end

/-! ## What a parse error says -/

/-- The error is about the source and names one of the places, if it names any. -/
def ParseError.Names (source : String) (places : List Position) (e : ParseError) : Prop :=
  e.source = source ∧ ∀ p, e.position = some p → p ∈ places

theorem ParseError.Names.mono {source : String} {places places' : List Position} {e : ParseError}
    (h : e.Names source places) (hsubset : places ⊆ places') : e.Names source places' :=
  ⟨h.1, fun p hp => hsubset (h.2 p hp)⟩

/-- The error is about the source, gives the message and the place at the offset, and says nothing
    of what was expected. -/
structure ParseError.Says (source message : String) (offset : Nat) (e : ParseError) : Prop where
  source_eq : e.source = source
  message_eq : e.message = message
  position_eq : e.position = some (.ofOffset source.toList offset)
  expected_eq : e.expected = []

/-- A failure of two stages is one of the first, or of the second after the first has succeeded. -/
theorem bind_eq_error {α β : Type} {x : Except Failure α} {f : α → Except Failure β}
    {e : Failure} (h : x >>= f = .error e) :
    x = .error e ∨ ∃ a, x = .ok a ∧ f a = .error e := by
  cases x with
  | error e' =>
    cases h
    exact .inl rfl
  | ok a => exact .inr ⟨a, rfl, h⟩

/-- A failure of another sort is no parse error. -/
theorem mapError_ne_parse {ε α : Type} {x : Except ε α} {wrap : ε → Failure}
    {e : ParseError} (h : x.mapError wrap = .error (.parse e)) : ∃ e', wrap e' = .parse e := by
  cases x with
  | error e' => exact ⟨e', Except.error.inj h⟩
  | ok a => cases h

section Built

variable {source : String} {extent : Extent} {e : ParseError}

/-- The only place that an error in building a step names is that of the blank after it. -/
theorem Part.names_of_step {first last : Bool} {part : Part}
    (h : part.step source extent first last = .error (.parse e)) :
    e.Names source part.blank?.toList := by
  cases part with
  | name t => cases h
  | index bracket written blank =>
    rcases bind_eq_error h with h | ⟨indexer, -, h⟩
    · obtain ⟨_, h⟩ := mapError_ne_parse h
      cases h
    · cases blank with
      | none => cases h
      | some p =>
        dsimp only at h
        split at h <;> cases h
        exact ⟨rfl, fun q hq => by simpa [blank?] using hq.symm⟩

theorem Part.names_of_steps {first : Bool} {parts : List Part}
    (h : Part.steps source extent first parts = .error (.parse e)) :
    e.Names source (parts.filterMap blank?) := by
  induction parts generalizing first with
  | nil => cases h
  | cons part parts ih =>
    rcases bind_eq_error h with h | ⟨step, -, h⟩
    · refine (names_of_step h).mono ?_
      cases hb : part.blank? <;> simp [hb]
    · rcases bind_eq_error h with h | ⟨_, -, h⟩
      · refine (ih h).mono ?_
        cases hb : part.blank? <;> simp [hb]
      · cases h

theorem SymbolPath.names_of_ofParts {parts : List Part}
    (h : SymbolPath.ofParts source extent parts = .error (.parse e)) :
    e.Names source (parts.filterMap Part.blank?) := by
  rcases bind_eq_error h with h | ⟨_, -, h⟩
  · exact Part.names_of_steps h
  · obtain ⟨_, h⟩ := mapError_ne_parse h
    cases h

mutual

/-- An error in building a node names no place but that of a block or of a blank in it. -/
theorem Node.names_of_segment {machine : Machine} :
    ∀ {node : Node}, node.segment source machine = .error (.parse e) → e.Names source node.places
  | .text start written, h => by
    rcases bind_eq_error h with h | ⟨_, -, h⟩
    · obtain ⟨_, h⟩ := mapError_ne_parse h
      cases h
    · cases h
  | .substitution start subject filters, h => by
    rcases bind_eq_error h with h | ⟨_, -, h⟩
    · exact SymbolPath.names_of_ofParts h
    · cases h
  | .block head body, h => by
    obtain ⟨room, recursionLimit⟩ := machine
    cases room with
    | zero =>
      cases h
      exact ⟨rfl, nofun⟩
    | succ room =>
      have hpath : e.Names source (head.path.filterMap Part.blank?) →
          e.Names source (Node.block head body).places := fun h => h.mono (by simp [places])
      have hbody : e.Names source (placesAll body) →
          e.Names source (Node.block head body).places := fun h => h.mono (by simp [places])
      cases head with
      | condition start negated subject =>
        rcases bind_eq_error h with h | ⟨_, -, h⟩
        · exact hpath (SymbolPath.names_of_ofParts h)
        rcases bind_eq_error h with h | ⟨_, -, h⟩
        · exact hbody (Node.names_of_segments h)
        · obtain ⟨_, h⟩ := mapError_ne_parse h
          cases h
      | loop start enumerator collection =>
        rcases bind_eq_error h with h | ⟨_, -, h⟩
        · exact hpath (SymbolPath.names_of_ofParts h)
        rcases bind_eq_error h with h | ⟨_, -, h⟩
        · exact hbody (Node.names_of_segments h)
        · cases h

theorem Node.names_of_segments {machine : Machine} :
    ∀ {nodes : List Node}, Node.segments source machine nodes = .error (.parse e) →
      e.Names source (placesAll nodes)
  | [], h => nomatch h
  | node :: nodes, h => by
    rcases bind_eq_error h with h | ⟨_, -, h⟩
    · exact (Node.names_of_segment h).mono (List.subset_append_left _ _)
    rcases bind_eq_error h with h | ⟨_, -, h⟩
    · exact (Node.names_of_segments h).mono (List.subset_append_right _ _)
    · cases h

end

end Built

/-! ## Places of phrases -/

/-- The place is one in a text that follows another one. -/
def Position.Within (before s : List Char) (p : Position) : Prop :=
  ∃ u v, s = u ++ v ∧ p = .after (before ++ u)

namespace Position.Within

variable {before s : List Char} {p : Position}

theorem start (before s : List Char) : Within before s (.after before) :=
  ⟨[], s, rfl, by simp⟩

theorem stop (before s : List Char) : Within before s (.after (before ++ s)) :=
  ⟨s, [], by simp, rfl⟩

theorem append (h : Within before s p) (t : List Char) : Within before (s ++ t) p := by
  obtain ⟨u, v, rfl, rfl⟩ := h
  exact ⟨u, v ++ t, by simp, rfl⟩

theorem prepend {w : List Char} (h : Within (before ++ w) s p) : Within before (w ++ s) p := by
  obtain ⟨u, v, rfl, rfl⟩ := h
  exact ⟨w ++ u, v, by simp, by simp⟩

end Position.Within

open Position (Within)

/-- The blanks after the indexers of steps are in the text of the steps. -/
theorem StepForm.within_parts (before following : List Char) (steps : List StepForm) :
    ∀ p ∈ (parts before following steps).filterMap Part.blank?,
      Within before (writtenAll steps) p := by
  induction steps generalizing before with
  | nil => nofun
  | cons step steps ih =>
    intro p hp
    simp only [parts, List.filterMap_cons] at hp
    have hrest : p ∈ (parts (before ++ step.written) following steps).filterMap Part.blank? →
        Within before (writtenAll (step :: steps)) p :=
      fun hp => (ih (before ++ step.written) p hp).prepend
    cases step with
    | name gap blanks chars => exact hrest hp
    | index gap chars chars_ne =>
      simp only [part, Part.blank?] at hp
      split at hp
      · exact hrest hp
      · next q hq =>
        rcases List.mem_cons.1 hp with rfl | hp
        · split at hq <;> cases hq
          exact (Within.stop before _).append _
        · exact hrest hp

theorem PathForm.within_parts (before lead following : List Char) (p : PathForm) :
    ∀ q ∈ (p.parts before lead following).filterMap Part.blank?,
      Within before (lead ++ p.written) q := by
  intro q hq
  have := StepForm.within_parts (before ++ lead ++ p.root) following p.steps q hq
  simpa [PathForm.written] using this.prepend.prepend

theorem HeadForm.within_head (before following : List Char) (head : HeadForm) :
    ∀ q ∈ (head.head before following).path.filterMap Part.blank?,
      Within before head.written q := by
  intro q hq
  cases head with
  | condition negated keyword blanks subject trail =>
    have := (PathForm.within_parts _ _ _ _ q hq).prepend.append (trail ++ ['}'])
    simpa [HeadForm.written] using this
  | loop keyword blanks enumerator gap inBlanks collection trail =>
    have := (PathForm.within_parts _ _ _ _ q hq).prepend.prepend.prepend.prepend.append
      (trail ++ ['}'])
    simpa [HeadForm.written] using this

mutual

/-- The places that a node has are in the text of its phrase. -/
theorem Phrase.within_node (before following : List Char) :
    ∀ phrase : Phrase, ∀ p ∈ (phrase.node before following).places,
      Within before phrase.written p
  | .text _ => nofun
  | .substitution blanks subject filters trail => by
    intro p hp
    have := (PathForm.within_parts _ _ _ _ p hp).prepend.append
      (FilterForm.writtenAll filters ++ trail ++ ['}'])
    simpa [written, inside] using this
  | .block head body => by
    intro p hp
    simp only [node, Node.places, List.mem_cons, List.mem_append] at hp
    rcases hp with rfl | hp | hp
    · have hstart : (head.head before
          (writtenAll body ++ head.kind.closer.toList ++ following)).start = .after before := by
        cases head <;> rfl
      rw [hstart]
      exact .start before _
    · have := HeadForm.within_head _ _ head p hp
      exact (this.append _).append _
    · have := (Phrase.within_nodes _ _ body p hp).prepend
      exact this.append _

/-- What building phrases may name are places in them. -/
theorem Phrase.within_nodes (before following : List Char) :
    ∀ phrases : List Phrase, ∀ p ∈ Node.placesAll (nodes before following phrases),
      Within before (writtenAll phrases) p
  | [] => nofun
  | phrase :: phrases => by
    intro p hp
    rcases List.mem_append.1 hp with hp | hp
    · exact (Phrase.within_node _ _ phrase p hp).append _
    · exact (Phrase.within_nodes _ _ phrases p hp).prepend

end

/-! ## Reports -/

/-- There is a line to show for every line number from one on. -/
theorem Report.exists_render {r : Report} (h : ∀ p, r.position = some p → 1 ≤ p.line) :
    ∃ text, r.render = .ok text := by
  have hexcerpt : ∃ lines, r.excerpt = .ok lines := by
    unfold excerpt
    split
    · next source p _ hp =>
      have hline := h p hp
      dsimp only
      split
      · exact ⟨_, rfl⟩
      · next hle =>
        have hlt : (p.line - 1).toNat < (linesOf source.toList).length := by omega
        simp only [lineAt?, ge_iff_le, hline, if_true, List.getElem?_eq_getElem hlt]
        exact ⟨_, rfl⟩
    · exact ⟨[], rfl⟩
  obtain ⟨lines, hlines⟩ := hexcerpt
  simp only [render, renderLines, hlines, bind, Except.bind, pure, Except.pure]
  exact ⟨_, rfl⟩

namespace ParseError

/-- The error is about the source, and if it names a place, then one in the source. -/
structure About (source : String) (e : ParseError) : Prop where
  source_eq : e.source = source
  within : ∀ p, e.position = some p → Position.Within [] source.toList p

/-- An error that names one of the places is about the source if these are in it. -/
theorem Names.about {source : String} {places : List Position} {e : ParseError}
    (h : e.Names source places) (hplaces : ∀ p ∈ places, Position.Within [] source.toList p) :
    e.About source :=
  ⟨h.1, fun p hp => hplaces p (h.2 p hp)⟩

/-- The report of such an error has a text. -/
theorem About.exists_render {source : String} {e : ParseError} (h : e.About source) :
    ∃ text, e.report.render = .ok text := by
  apply Report.exists_render
  intro p hp
  obtain ⟨u, v, -, rfl⟩ := h.within p hp
  simp only [Position.after]
  omega

end ParseError

/-! ## Sources -/

/-- A parse error of a template is about its source. -/
theorem parseTemplate_about {source : String} {limit : Int} {machine : Machine} {e : ParseError}
    (h : parseTemplate source limit machine = .error (.parse e)) : e.About source := by
  unfold parseTemplate at h
  cases hread : readOutline source.toList with
  | error f =>
    rw [hread] at h
    cases h
    obtain ⟨read, left, hs, hposition, -⟩ := stops_of_readOutline hread
    refine ⟨rfl, fun p hp => ?_⟩
    obtain rfl : f.position = p := Option.some.inj hp
    exact ⟨read, left, hs, hposition⟩
  | ok outline =>
    rw [hread] at h
    obtain ⟨phrases, ⟨hphrases, -⟩, rfl⟩ := derives_of_readOutline hread
    have hwithin := Phrase.within_nodes [] [] phrases
    rw [hphrases] at hwithin
    rcases bind_eq_error h with h | ⟨_, hok, h⟩
    · cases h
    cases hok
    rcases bind_eq_error h with h | ⟨_, -, h⟩
    · rw [checkNesting, Node.findBeyond?_stacked] at h
      split at h
      · cases h
      · next p hp =>
        cases h
        refine ⟨rfl, fun q hq => hwithin q ?_⟩
        obtain rfl : p = q := Option.some.inj hq
        exact Node.mem_placesAll_of_lastTooDeep? hp
    rcases bind_eq_error h with h | ⟨_, -, h⟩
    · exact (Node.names_of_segments h).about hwithin
    · cases h

/-- A parse error of a bare path is about its source. -/
theorem parsePath_about {source : String} {e : ParseError}
    (h : parsePath source = .error (.parse e)) : e.About source := by
  unfold parsePath at h
  cases hread : readPath source.toList with
  | error f =>
    rw [hread] at h
    cases h
    obtain ⟨read, left, hs, hposition, -⟩ := stops_of_readPath hread
    refine ⟨rfl, fun p hp => ?_⟩
    obtain rfl : f.position = p := Option.some.inj hp
    exact ⟨read, left, hs, hposition⟩
  | ok parts =>
    rw [hread] at h
    obtain ⟨blanks, p, trail, hsource, -, -, -, rfl⟩ := fits_of_readPath hread
    refine (SymbolPath.names_of_ofParts h).about fun q hq => ?_
    have := (PathForm.within_parts [] blanks trail p q hq).append trail
    simpa [hsource] using this

/-- Whether a source is a template is decided without any other failure. -/
theorem parseTemplate_or_parseError (source : String) (limit : Int) (machine : Machine) :
    (∃ t, parseTemplate source limit machine = .ok t) ∨
      ∃ e, parseTemplate source limit machine = .error (.parse e) := by
  rcases parses_or_parseError limit machine source with ⟨phrases, hparses⟩ | he
  · exact .inl ⟨_, (parseTemplate_of_derives limit machine hparses.derives).1 hparses⟩
  · exact .inr he

/-- Whether a source is a bare path is decided without any other failure. -/
theorem parsePath_or_parseError (source : String) :
    (∃ q, parsePath source = .ok q) ∨ ∃ e, parsePath source = .error (.parse e) := by
  unfold parsePath
  cases hread : readPath source.toList with
  | error f => exact .inr ⟨_, rfl⟩
  | ok parts =>
    obtain ⟨blanks, p, trail, -, -, hfits, htrail, rfl⟩ := fits_of_readPath hread
    have hbuild := PathForm.ofParts_bare source blanks hfits htrail
    by_cases hcondition : p.Tight ∧ trail = []
    · exact .inl ⟨_, hbuild.1 hcondition⟩
    · exact .inr (hbuild.2 hcondition)

end Stencil
