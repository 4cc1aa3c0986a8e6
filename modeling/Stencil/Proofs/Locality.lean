-- SUMMARY: Phrases fit in front of other texts than the one that follows them.
import Stencil.Proofs.Parsing
import Stencil.Proofs.Plain

/-! # Locality

Names, literal text and the openings of tags look at what follows them, but names do not look beyond
the next filter bar, and neither they nor openings beyond the brace that ends their tag. So a tag
fits in front of any text, and of what follows a sequence of phrases it matters only how their last
one goes on. If that is literal text, something else than the
end of the source may follow where a tag starts, unless the text ends in a hash mark: then the tag
would be taken for an escape.
-/

namespace Stencil

open Text (isBlank)

/-! ## Names -/

/-- A filter bar, or the brace at the end of a tag. -/
def IsStop (c : Char) : Prop := c = '|' ∨ c = '}'

variable {mark : Char}

theorem IsStop.not_blank (h : IsStop mark) : isBlank mark = false := by
  rcases h with rfl | rfl <;> decide

/-- Whether a name ends in front of a text is decided up to the next mark. -/
theorem EndsName.of_stop (hmark : IsStop mark) {s f : List Char} (h : EndsName (s ++ mark :: f)) :
    EndsName (s ++ [mark]) := by
  rcases h.of_append with h | ⟨rfl, ⟨_, h⟩ | ⟨_, _, h, -⟩⟩ | ⟨-, _, h⟩ | ⟨-, c, _, h, hc⟩
  · exact h.append _
  · cases h
    exact .inl ⟨[], rfl⟩
  · cases h
    rcases hmark with h | h <;> cases h
  · cases h
    rcases hmark with h | h <;> cases h
  · cases h
    rw [hmark.not_blank] at hc
    cases hc

/-- A name does not look beyond the mark after it. -/
theorem IsName.beyond (hmark : IsStop mark) {name s f : List Char}
    (h : IsName name (s ++ mark :: f)) (f' : List Char) : IsName name (s ++ mark :: f') := by
  apply h.congr
  · cases s <;> rfl
  · intro c t t' ht ht' hc hends
    cases s with
    | nil =>
      cases ht
      rw [hmark.not_blank] at hc
      cases hc
    | cons d s =>
      cases ht
      cases ht'
      have := (hends.of_stop hmark).append f'
      simpa using this

/-! ## Paths and tags -/

/-- Whether steps fit does not depend on what comes after the next mark. -/
theorem StepForm.AllFit.beyond (hmark : IsStop mark) {steps : List StepForm} {s f : List Char}
    (h : AllFit (s ++ mark :: f) steps) (f' : List Char) : AllFit (s ++ mark :: f') steps := by
  induction steps with
  | nil => trivial
  | cons step steps ih =>
    refine ⟨?_, ih h.2⟩
    have hstep := h.1
    rw [← List.append_assoc] at hstep ⊢
    cases step with
    | name gap blanks chars => exact ⟨hstep.1, hstep.2.1, hstep.2.2.beyond hmark f'⟩
    | index gap chars chars_ne => exact hstep

theorem PathForm.Fits.beyond (hmark : IsStop mark) {p : PathForm} {s f : List Char}
    (h : p.Fits (s ++ mark :: f)) (f' : List Char) : p.Fits (s ++ mark :: f') := by
  have hroot := h.1
  rw [← List.append_assoc] at hroot
  refine ⟨?_, h.2.beyond hmark f'⟩
  rw [← List.append_assoc]
  exact hroot.beyond hmark f'

theorem FilterForm.AllFit.beyond (hmark : IsStop mark) {filters : List FilterForm}
    {s f : List Char} (h : AllFit (s ++ mark :: f) filters) (f' : List Char) :
    AllFit (s ++ mark :: f') filters := by
  induction filters with
  | nil => trivial
  | cons filter filters ih =>
    obtain ⟨hgap, hblanks, hname⟩ := h.1
    rw [← List.append_assoc] at hname
    refine ⟨⟨hgap, hblanks, ?_⟩, ih h.2⟩
    rw [← List.append_assoc]
    exact hname.beyond hmark f'

/-- An opening tag fits in front of anything, since it has its own end. -/
theorem HeadForm.Fits.beyond {head : HeadForm} {f : List Char} (h : head.Fits f)
    (f' : List Char) : head.Fits f' := by
  cases head with
  | condition negated keyword blanks subject trail =>
    obtain ⟨hk, hb, hne, hsubject, htrail⟩ := h
    exact ⟨hk, hb, hne, hsubject.beyond (.inr rfl) f', htrail⟩
  | loop keyword blanks enumerator gap inBlanks collection trail =>
    obtain ⟨hk, hb, hne, henum, hgap, hin, hinne, hcollection, htrail⟩ := h
    exact ⟨hk, hb, hne, henum.beyond (.inr rfl) f', hgap, hin, hinne,
      hcollection.beyond (.inr rfl) f', htrail⟩

namespace Phrase

def IsText : Phrase → Prop
  | .text _ => True
  | _ => False

/-- Whether a block is opened is decided within a substitution. -/
theorem startsBlock_inside_iff {blanks trail f : List Char} {subject : PathForm}
    {filters : List FilterForm} :
    StartsBlock (inside blanks subject filters trail f) ↔
      StartsBlock (blanks ++ subject.written ++ FilterForm.writtenAll filters ++ trail) :=
  ⟨fun h => h.of_append_brace, fun h => h.append _⟩

mutual

/-- Of what follows a tag nothing matters, and of what follows literal text two characters. -/
theorem Fits.beyond {s f : List Char} (f' : List Char) :
    ∀ {phrase : Phrase}, phrase.Fits (s ++ f) → (phrase.IsText → 2 ≤ s.length) →
      phrase.Fits (s ++ f')
  | .text pieces, h, hs => by
    refine ⟨h.1, h.2.congr ?_⟩
    rw [List.take_append_of_le_length (hs trivial), List.take_append_of_le_length (hs trivial)]
  | .substitution blanks subject filters trail, h, _ => by
    obtain ⟨hslash, hblock, hblanks, hsubject, hfilters, htrail⟩ := h
    refine ⟨?_, ?_, hblanks, hsubject.beyond (.inr rfl) _, hfilters.beyond (.inr rfl) _,
      htrail⟩
    · unfold inside at hslash ⊢
      cases hx : blanks ++ subject.written ++ FilterForm.writtenAll filters ++ trail with
      | nil => simp
      | cons c x =>
        rw [hx] at hslash
        intro t ht
        obtain ⟨rfl, -⟩ := List.cons.inj ht
        exact hslash _ rfl
    · rwa [startsBlock_inside_iff] at hblock ⊢
  | .block head body, h, _ => by
    obtain ⟨hhead, hbody⟩ := h
    refine ⟨hhead.beyond _, ?_⟩
    rw [← List.append_assoc] at hbody ⊢
    exact AllFit.beyond f' hbody (by cases head.kind <;> simp [BlockKind.closer])

/-- Of what follows phrases two characters matter. -/
theorem AllFit.beyond {s f : List Char} (f' : List Char) :
    ∀ {phrases : List Phrase}, AllFit (s ++ f) phrases → 2 ≤ s.length → AllFit (s ++ f') phrases
  | [], _, _ => trivial
  | phrase :: phrases, h, hs => by
    have hphrase := h.1
    rw [← List.append_assoc] at hphrase
    refine ⟨?_, AllFit.beyond f' h.2 hs⟩
    rw [← List.append_assoc]
    refine Fits.beyond f' hphrase fun _ => ?_
    rw [List.length_append]
    omega

end

/-! ## Sequences of phrases -/

theorem writtenAll_append (phrases phrases' : List Phrase) :
    writtenAll (phrases ++ phrases') = writtenAll phrases ++ writtenAll phrases' := by
  induction phrases with
  | nil => rfl
  | cons phrase phrases ih => simp [writtenAll, ih]

/-- Phrases fit one after the other if the first ones fit in front of the others. -/
theorem allFit_append_iff {f : List Char} {phrases phrases' : List Phrase} :
    AllFit f (phrases ++ phrases') ↔
      AllFit (writtenAll phrases' ++ f) phrases ∧ AllFit f phrases' := by
  induction phrases with
  | nil => simp [AllFit]
  | cons phrase phrases ih => simp [AllFit, ih, writtenAll_append, and_assoc]

theorem depthAll_append (phrases phrases' : List Phrase) :
    depthAll (phrases ++ phrases') = max (depthAll phrases) (depthAll phrases') := by
  induction phrases with
  | nil => simp [depthAll]
  | cons phrase phrases ih => simp [depthAll, ih, Nat.max_assoc]

theorem pathsAll_append (phrases phrases' : List Phrase) :
    pathsAll (phrases ++ phrases') = pathsAll phrases ++ pathsAll phrases' := by
  induction phrases with
  | nil => rfl
  | cons phrase phrases ih => simp [pathsAll, ih]

/-- The segments of a second sequence of phrases are placed behind the first one. -/
theorem segments_append (before : List Char) (phrases phrases' : List Phrase) :
    segments before (phrases ++ phrases') =
      segments before phrases ++ segments (before ++ writtenAll phrases) phrases' := by
  induction phrases generalizing before with
  | nil => simp [segments, writtenAll]
  | cons phrase phrases ih => simp [segments, writtenAll, ih]

/-- Phrases in front of a text fit in front of what starts with it, if it is not the end of the
    source. -/
theorem AllFit.append {phrases : List Phrase} {s : List Char} (h : AllFit s phrases) (hs : s ≠ [])
    (f : List Char) : AllFit (s ++ f) phrases := by
  induction phrases with
  | nil => trivial
  | cons phrase phrases ih =>
    refine ⟨?_, ih h.2⟩
    have hphrase := h.1
    rw [← List.append_nil (writtenAll phrases ++ s)] at hphrase
    rw [← List.append_assoc]
    refine hphrase.beyond f fun htext => ?_
    cases phrase with
    | text pieces =>
      -- Literal text ends where a tag starts.
      rcases h.1.2.endsText with hnil | ⟨t, ht⟩
      · exact absurd (List.append_eq_nil_iff.1 hnil).2 hs
      · simp [ht]
    | _ => exact htext.elim

theorem Fits.written_ne {phrase : Phrase} {f : List Char} (h : phrase.Fits f) :
    phrase.written ≠ [] := by
  cases phrase with
  | text pieces =>
    obtain ⟨p, pieces, rfl⟩ := List.exists_cons_of_ne_nil h.1
    simp [written, PieceForm.written_ne h.2.1]
  | substitution => simp [written]
  | block head => cases head <;> simp [written, HeadForm.written]

/-- Phrases at the end of a source fit elsewhere if the last of them does. -/
theorem AllFit.concat {phrases : List Phrase} {last : Phrase} {f : List Char}
    (h : AllFit [] (phrases ++ [last])) (hlast : last.Fits f) : AllFit f (phrases ++ [last]) := by
  obtain ⟨hphrases, hfits, -⟩ := allFit_append_iff.1 h
  have hw : writtenAll [last] = last.written := by simp [writtenAll]
  rw [hw, List.append_nil] at hphrases
  exact allFit_append_iff.2 ⟨by rw [hw]; exact hphrases.append hfits.written_ne f, hlast, trivial⟩

end Phrase

/-! ## Literal text at the end of a source -/

/-- Literal text that does not end in a hash mark may as well be followed by a tag. -/
theorem PieceForm.AllFit.before_tag {pieces : List PieceForm} {f : List Char}
    (h : AllFit [] pieces) (hf : EndsText f)
    (hhash : (writtenAll pieces).getLast? ≠ some '#') : AllFit f pieces := by
  have hfirst : ∀ c s, f = c :: s → c = '#' := by
    rintro c s rfl
    rcases hf with h | ⟨t, h⟩ <;> cases h
    rfl
  induction pieces with
  | nil => exact (allFit_nil_iff f).2 hf
  | cons p pieces ih =>
    cases pieces with
    | nil =>
      refine ⟨?_, (allFit_nil_iff f).2 hf⟩
      cases p with
      | run chars => exact ⟨h.1.1, h.1.2.1, hfirst⟩
      | lastHash => exact absurd rfl hhash
      | hashBeforeTag => exact absurd rfl hhash
      | escape => trivial
      | hashAnd c =>
        refine ⟨h.1.1, ?_⟩
        rintro rfl
        exact absurd rfl hhash
    | cons q pieces =>
      have hne : writtenAll (q :: pieces) ≠ [] := by simp [written_ne h.2.1]
      have hrest := ih h.2 (by rwa [writtenAll_cons, List.getLast?_append_of_ne_nil _ hne] at hhash)
      refine ⟨h.1.congr_head ?_ ?_, hrest⟩
      · rw [List.append_nil, List.head?_append_of_ne_nil _ hne]
      · exact iff_of_false (not_exists.2 h.2.ne_tag) (not_exists.2 hrest.ne_tag)

/-- Phrases that do not end in a hash mark may as well be followed by a tag. -/
theorem Phrase.AllFit.before_tag {phrases : List Phrase} {f : List Char} (h : AllFit [] phrases)
    (hf : EndsText f) (hhash : (writtenAll phrases).getLast? ≠ some '#') : AllFit f phrases := by
  rcases List.eq_nil_or_concat phrases with rfl | ⟨init, last, rfl⟩
  · trivial
  · rw [List.concat_eq_append] at h hhash ⊢
    have hlast := (allFit_append_iff.1 h).2.1
    refine h.concat ?_
    have hw : writtenAll [last] = last.written := by simp [writtenAll]
    rw [writtenAll_append, hw, List.getLast?_append_of_ne_nil _ hlast.written_ne] at hhash
    cases last with
    | text pieces => exact ⟨hlast.1, hlast.2.before_tag hf hhash⟩
    | substitution | block => exact Fits.beyond (s := []) f hlast nofun

end Stencil
