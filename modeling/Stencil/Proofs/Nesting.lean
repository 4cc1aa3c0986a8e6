-- SUMMARY: Blocks are nested too deep if too many of them stand around a point of the source.
import Mathlib.Order.Bounds.Basic
import Stencil.Proofs.Failures

/-! # Nesting

How deep blocks are nested can be seen in the source. A block takes up a stretch of it, from its
opening tag to the end of its closing tag, and the depth of the blocks is the greatest number of
such stretches that share a point. A limit below it is refused at an opening tag that is one too
deep, the last one of these; any other limit makes no difference.
-/

namespace Stencil

/-! ## Blocks in a source -/

/-- The stretch of a source that a block takes up. -/
structure Span where
  start : Nat
  stop : Nat

namespace Span

/-- How many of the blocks stand around a point. -/
def around (spans : List Span) (point : Nat) : Nat :=
  spans.countP fun span => span.start ≤ point ∧ point < span.stop

/-- Where those of the blocks start that have the given number of blocks around their opening tags,
    themselves included. -/
def startsAt (spans : List Span) (depth : Nat) : Set Nat :=
  {point | (∃ span ∈ spans, span.start = point) ∧ around spans point = depth}

/-- The block takes up a stretch between two points. -/
def Inside (start stop : Nat) (span : Span) : Prop :=
  start ≤ span.start ∧ span.start < span.stop ∧ span.stop ≤ stop

variable {spans spans' : List Span} {start middle stop point : Nat}

theorem around_append (spans spans' : List Span) (point : Nat) :
    around (spans ++ spans') point = around spans point + around spans' point :=
  List.countP_append

/-- No block is around a point outside of the text that holds the blocks. -/
theorem around_eq_zero (h : ∀ span ∈ spans, span.Inside start stop)
    (hpoint : point < start ∨ stop ≤ point) : around spans point = 0 := by
  refine List.countP_eq_zero.2 fun span hspan => ?_
  obtain ⟨hstart, -, hstop⟩ := h span hspan
  simp only [decide_eq_true_eq]
  omega

/-- A block stands around its opening tag. -/
theorem around_start_pos (h : ∀ span ∈ spans, span.Inside start stop) {span : Span}
    (hspan : span ∈ spans) : 0 < around spans span.start := by
  obtain ⟨-, hlt, -⟩ := h span hspan
  exact List.countP_pos_iff.2 ⟨span, hspan, by simpa using hlt⟩

/-- Blocks that come one after the other do not stand around each other. -/
theorem startsAt_append (h : ∀ span ∈ spans, span.Inside start middle)
    (h' : ∀ span ∈ spans', span.Inside middle stop) (depth : Nat) :
    startsAt (spans ++ spans') depth = startsAt spans depth ∪ startsAt spans' depth := by
  have hleft : ∀ span ∈ spans, around spans' span.start = 0 := by
    intro span hspan
    obtain ⟨-, hlt, hle⟩ := h span hspan
    exact around_eq_zero h' (.inl (by omega))
  have hright : ∀ span ∈ spans', around spans span.start = 0 := by
    intro span hspan
    exact around_eq_zero h (.inr (h' span hspan).1)
  ext point
  simp only [startsAt, Set.mem_ofPred_eq, Set.mem_union, List.mem_append, around_append]
  constructor
  · rintro ⟨⟨span, hspan | hspan, rfl⟩, hdepth⟩
    · exact .inl ⟨⟨span, hspan, rfl⟩, by rwa [hleft span hspan] at hdepth⟩
    · exact .inr ⟨⟨span, hspan, rfl⟩, by rwa [hright span hspan, Nat.zero_add] at hdepth⟩
  · rintro (⟨⟨span, hspan, rfl⟩, hdepth⟩ | ⟨⟨span, hspan, rfl⟩, hdepth⟩)
    · exact ⟨⟨span, .inl hspan, rfl⟩, by rwa [hleft span hspan]⟩
    · exact ⟨⟨span, .inr hspan, rfl⟩, by rwa [hright span hspan, Nat.zero_add]⟩

section Outer

variable {outer : Span} (h : ∀ span ∈ spans, span.Inside (outer.start + 1) outer.stop)

include h

/-- A block stands around the opening tags of the blocks in it. -/
theorem around_cons_start {span : Span} (hspan : span ∈ spans) :
    around (outer :: spans) span.start = around spans span.start + 1 := by
  obtain ⟨hstart, hlt, hstop⟩ := h span hspan
  exact List.countP_cons_of_pos (by simp only [decide_eq_true_eq]; omega)

/-- Of a block and those in it, only the block itself has no other one around it. -/
theorem startsAt_cons_one (houter : outer.start < outer.stop) :
    startsAt (outer :: spans) 1 = {outer.start} := by
  have hself : around (outer :: spans) outer.start = 1 := by
    rw [around, List.countP_cons_of_pos (by simpa using houter), ← around,
      around_eq_zero h (.inl (by omega))]
  ext point
  simp only [startsAt, Set.mem_ofPred_eq, Set.mem_singleton_iff]
  constructor
  · rintro ⟨⟨span, hspan, rfl⟩, hone⟩
    rcases List.mem_cons.1 hspan with rfl | hspan
    · rfl
    · have := around_start_pos h hspan
      rw [around_cons_start h hspan] at hone
      omega
  · rintro rfl
    exact ⟨⟨outer, List.mem_cons_self, rfl⟩, hself⟩

/-- The blocks in a block are one deeper than they are without it. -/
theorem startsAt_cons_succ (houter : outer.start < outer.stop) (depth : Nat) :
    startsAt (outer :: spans) (depth + 2) = startsAt spans (depth + 1) := by
  have hself : outer.start ∉ startsAt (outer :: spans) (depth + 2) := by
    rintro ⟨-, hdepth⟩
    rw [around, List.countP_cons_of_pos (by simpa using houter), ← around,
      around_eq_zero h (.inl (by omega))] at hdepth
    omega
  ext point
  constructor
  · intro hpoint
    obtain ⟨⟨span, hspan, rfl⟩, hdepth⟩ := hpoint
    rcases List.mem_cons.1 hspan with rfl | hspan
    · exact absurd ⟨⟨_, List.mem_cons_self, rfl⟩, hdepth⟩ hself
    · rw [around_cons_start h hspan] at hdepth
      exact ⟨⟨span, hspan, rfl⟩, by omega⟩
  · rintro ⟨⟨span, hspan, rfl⟩, hdepth⟩
    refine ⟨⟨span, List.mem_cons_of_mem _ hspan, rfl⟩, ?_⟩
    rw [around_cons_start h hspan, hdepth]

end Outer

end Span

/-! ## Blocks of phrases -/

theorem HeadForm.written_pos (head : HeadForm) : 0 < head.written.length := by
  cases head <;> simp [written]

namespace Phrase

mutual

/-- The blocks in a phrase that is written from an offset on. -/
def spans (offset : Nat) : Phrase → List Span
  | .text _ => []
  | .substitution .. => []
  | .block head body =>
    ⟨offset, offset + (Phrase.block head body).written.length⟩ ::
      spansAll (offset + head.written.length) body

def spansAll (offset : Nat) : List Phrase → List Span
  | [] => []
  | phrase :: phrases => phrase.spans offset ++ spansAll (offset + phrase.written.length) phrases

end

theorem block_written_pos (head : HeadForm) (body : List Phrase) :
    0 < (Phrase.block head body).written.length := by
  have hhead := head.written_pos
  simp only [written, List.length_append]
  omega

mutual

/-- The blocks of a phrase are inside of its text. -/
theorem inside_of_mem_spans (offset : Nat) : ∀ {phrase : Phrase}, ∀ span ∈ phrase.spans offset,
    span.Inside offset (offset + phrase.written.length)
  | .text _, span, h => nomatch h
  | .substitution .., span, h => nomatch h
  | .block head body, span, h => by
    have hhead := head.written_pos
    rcases List.mem_cons.1 h with rfl | h
    · exact ⟨Nat.le_refl _, Nat.lt_add_of_pos_right (block_written_pos head body), Nat.le_refl _⟩
    · obtain ⟨hstart, hlt, hstop⟩ := inside_of_mem_spansAll _ span h
      simp only [Span.Inside, written, List.length_append]
      omega

theorem inside_of_mem_spansAll (offset : Nat) : ∀ {phrases : List Phrase},
    ∀ span ∈ spansAll offset phrases, span.Inside offset (offset + (writtenAll phrases).length)
  | [], span, h => nomatch h
  | phrase :: phrases, span, h => by
    simp only [writtenAll, List.length_append]
    rcases List.mem_append.1 h with h | h
    · obtain ⟨hstart, hlt, hstop⟩ := inside_of_mem_spans offset span h
      exact ⟨hstart, hlt, by omega⟩
    · obtain ⟨hstart, hlt, hstop⟩ := inside_of_mem_spansAll _ span h
      exact ⟨by omega, hlt, by omega⟩

end

mutual

/-- No point of a phrase has more blocks around it than the phrase is deep. -/
theorem around_spans_le (offset point : Nat) :
    ∀ phrase : Phrase, Span.around (phrase.spans offset) point ≤ phrase.depth
  | .text _ => Nat.le_refl _
  | .substitution .. => Nat.le_refl _
  | .block head body => by
    have hbody := around_spansAll_le (offset + head.written.length) point body
    simp only [spans, depth, Span.around, List.countP_cons] at hbody ⊢
    split <;> omega

/-- No more blocks stand around a point than the phrases are deep. -/
theorem around_spansAll_le (offset point : Nat) :
    ∀ phrases : List Phrase, Span.around (spansAll offset phrases) point ≤ depthAll phrases
  | [] => Nat.le_refl _
  | phrase :: phrases => by
    have hphrase := around_spans_le offset point phrase
    have hrest := around_spansAll_le (offset + phrase.written.length) point phrases
    rw [spansAll, Span.around_append, depthAll]
    -- The point is before what the second summand counts or behind what the first one does.
    rcases Nat.lt_or_ge point (offset + phrase.written.length) with hlt | hge
    · rw [Span.around_eq_zero (inside_of_mem_spansAll _) (.inl hlt)]
      omega
    · rw [Span.around_eq_zero (inside_of_mem_spans offset) (.inr hge)]
      omega

end

theorem startsAt_eq_empty (offset : Nat) {phrases : List Phrase} {depth : Nat}
    (h : depthAll phrases < depth) : Span.startsAt (spansAll offset phrases) depth = ∅ := by
  refine Set.eq_empty_of_forall_notMem fun point hpoint => ?_
  have hle := around_spansAll_le offset point phrases
  rw [hpoint.2] at hle
  omega

/-! ## The block that is named -/

/-- The blocks in a block start behind where it starts. -/
theorem inside_of_mem_body (offset : Nat) (head : HeadForm) (body : List Phrase) :
    ∀ span ∈ spansAll (offset + head.written.length) body,
      span.Inside (offset + 1) (offset + (Phrase.block head body).written.length) := by
  intro span hspan
  have hhead := head.written_pos
  obtain ⟨hstart, hlt, hstop⟩ := inside_of_mem_spansAll _ span hspan
  refine ⟨by omega, hlt, ?_⟩
  simp only [written, List.length_append]
  omega

mutual

/-- The block that is found too deep is the last one that opens at that depth. -/
theorem isGreatest_of_tooDeep? {source following : List Char} {room : Nat} {p : Position}
    (before : List Char) : ∀ {phrase : Phrase}, source = before ++ (phrase.written ++ following) →
      (phrase.node before following).tooDeep? room = some p →
      ∃ start : Nat, p = .ofOffset source start ∧
        IsGreatest (Span.startsAt (phrase.spans before.length) (room + 1)) start
  | .text _, _, h => nomatch h
  | .substitution .., _, h => nomatch h
  | .block head body, hs, h => by
    have hinside := inside_of_mem_body before.length head body
    have houter : before.length < before.length + (Phrase.block head body).written.length :=
      Nat.lt_add_of_pos_right (block_written_pos head body)
    cases room with
    | zero =>
      have hp : p = .after before := by
        cases head <;> exact (Option.some.inj h).symm
      refine ⟨before.length, by rw [hp, hs, Position.ofOffset_length], ?_⟩
      rw [spans, Span.startsAt_cons_one hinside houter]
      exact isGreatest_singleton
    | succ room =>
      have hsource : source = before ++ head.written ++
          (writtenAll body ++ (head.kind.closer.toList ++ following)) := by
        simpa [written] using hs
      have hbody := isGreatest_of_lastTooDeep? _ hsource h
      rw [List.length_append] at hbody
      rwa [spans, Span.startsAt_cons_succ hinside houter]

/-- The block that is named starts where the last of those starts that are just too deep. -/
theorem isGreatest_of_lastTooDeep? {source following : List Char} {room : Nat} {p : Position}
    (before : List Char) : ∀ {phrases : List Phrase},
      source = before ++ (writtenAll phrases ++ following) →
      Node.lastTooDeep? room (nodes before following phrases) = some p →
      ∃ start : Nat, p = .ofOffset source start ∧
        IsGreatest (Span.startsAt (spansAll before.length phrases) (room + 1)) start
  | [], _, h => nomatch h
  | phrase :: phrases, hs, h => by
    rw [spansAll, Span.startsAt_append (inside_of_mem_spans _) (inside_of_mem_spansAll _)]
    simp only [nodes, Node.lastTooDeep?] at h
    split at h
    · next q hq =>
      cases h
      have hsource : source = before ++ phrase.written ++ (writtenAll phrases ++ following) := by
        simpa [writtenAll] using hs
      obtain ⟨start, hp, hgreatest⟩ := isGreatest_of_lastTooDeep? _ hsource hq
      rw [List.length_append] at hgreatest
      refine ⟨start, hp, .inr hgreatest.1, ?_⟩
      rintro point (hpoint | hpoint)
      · -- Blocks in the first phrase start before those in the others.
        obtain ⟨⟨span, hspan, rfl⟩, -⟩ := hpoint
        obtain ⟨⟨last, hlast, rfl⟩, -⟩ := hgreatest.1
        have hspan := inside_of_mem_spans _ span hspan
        have hlast := inside_of_mem_spansAll _ last hlast
        simp only [Span.Inside] at hspan hlast
        omega
      · exact hgreatest.2 hpoint
    · next hnone =>
      have hdepth := (Phrase.lastTooDeep?_nodes _ _ _ _).1 hnone
      have hempty := startsAt_eq_empty (before.length + phrase.written.length)
        (Nat.lt_succ_of_le hdepth)
      rw [hempty, Set.union_empty]
      exact isGreatest_of_tooDeep? before (by simpa [writtenAll] using hs) h

end

end Phrase

/-! ## The check -/

end Stencil
