-- SUMMARY: Blanks around filter bars and before the end of a substitution change nothing.
import Stencil.Proofs.Locality
import Stencil.Proofs.Rendering

/-! # Seams

A substitution has seams, places where blanks may be put in: around its filter bars, and in front of
its closing brace. Behind a bar they stand in front of the name of the filter and are skipped. In
front of a mark they come behind a name or an indexer. A name takes them in, all or all but one, and
is trimmed where a tag is built; behind an indexer they stay in front of the mark. So the phrases
that the source is made of change in their layout only, unless the blanks turn what they come right
behind into something else, which is what `TakesBlanks` says.
-/

namespace Stencil

open Text (isBlank trimEnd)
open Name (isNameChar)

variable {mark : Char}

/-! ## Places -/

/-- The text ends at a seam of a substitution: directly before or behind one of its filter bars, or
    directly before the brace at its end. What stands in front of the filters is given. -/
inductive FilterForm.IsSeam (before : List Char) (filters : List FilterForm)
    (trail : List Char) : List Char → Prop
  | beforeBar (front back : List FilterForm) (f : FilterForm)
    (split : filters = front ++ f :: back) :
    IsSeam before filters trail (before ++ writtenAll front ++ f.gap)
  | behindBar (front back : List FilterForm) (f : FilterForm)
    (split : filters = front ++ f :: back) :
    IsSeam before filters trail (before ++ writtenAll front ++ f.gap ++ ['|'])
  | beforeBrace : IsSeam before filters trail (before ++ writtenAll filters ++ trail)

namespace Phrase

mutual

/-- The second text ends at a seam of a substitution in the phrase, which the first one is in front
    of. -/
def IsSeam (before front : List Char) : Phrase → Prop
  | .text _ => False
  | .substitution blanks subject filters trail =>
    FilterForm.IsSeam (before ++ '#' :: '{' :: (blanks ++ subject.written)) filters trail front
  | .block head body => IsSeamAll (before ++ head.written) front body

def IsSeamAll (before front : List Char) : List Phrase → Prop
  | [] => False
  | phrase :: phrases =>
    phrase.IsSeam before front ∨ IsSeamAll (before ++ phrase.written) front phrases

end

end Phrase

/-- The two parts of a source meet at a seam of a substitution in it. -/
def IsSeam (front back : String) : Prop :=
  ∃ phrases, Phrase.Derives (front ++ back).toList phrases ∧
    Phrase.IsSeamAll [] front.toList phrases

/-- The text ends in a name that loses its last word if a blank follows. -/
def LosesWord (s : List Char) : Prop :=
  ∃ u c blanks, s = u ++ c :: (blanks ++ ['i', 'n']) ∧ isNameChar c = true ∧ AllBlank blanks ∧
    blanks ≠ []

/-- Blanks behind the text would not be left out: the text ends in what becomes the opening of a
    block with them, or in what becomes the word `in`. -/
def TakesBlanks (front : List Char) : Prop :=
  (∃ before keyword, ∃ kind : BlockKind, front = before ++ '#' :: '{' :: keyword ∧
    InAnyCase kind.keyword keyword) ∨ LosesWord front

/-! ## Names -/

theorem LosesWord.prepend {s : List Char} (h : LosesWord s) (t : List Char) :
    LosesWord (t ++ s) := by
  obtain ⟨u, c, blanks, rfl, hc, hblanks, hne⟩ := h
  exact ⟨t ++ u, c, blanks, by simp, hc, hblanks, hne⟩

/-- A name has a name character in front of the blanks before its last word. -/
theorem IsName.losesWord {name following : List Char} (h : IsName name following)
    (hin : EndsInWord name) : LosesWord name := by
  obtain ⟨u, c, rfl, hc⟩ := hin
  have htail : AllBlank ((u ++ [c]).rtakeWhile isBlank) := fun d hd => List.mem_rtakeWhile_imp hd
  have hcut : trimEnd (u ++ [c]) ++ (u ++ [c]).rtakeWhile isBlank = u ++ [c] :=
    List.rdropWhile_append_rtakeWhile
  have htail_ne : (u ++ [c]).rtakeWhile isBlank ≠ [] := by simp [hc]
  rcases List.eq_nil_or_concat (trimEnd (u ++ [c])) with hnil | ⟨kept, d, hkept⟩
  · -- The first character of a name is visible.
    obtain ⟨e, s, hs, he⟩ := h.starts
    have hblank : isBlank e = true := by
      apply htail
      rw [hnil, List.nil_append] at hcut
      rw [hcut]
      cases u <;> simp_all
    rw [isBlank_of_isNameChar he] at hblank
    cases hblank
  · rw [List.concat_eq_append] at hkept
    have hd : isBlank d = false := isBlank_of_trimEnd_eq hkept
    have hname : u ++ [c, 'i', 'n'] =
        kept ++ d :: ((u ++ [c]).rtakeWhile isBlank ++ ['i', 'n']) := by
      calc u ++ [c, 'i', 'n'] = u ++ [c] ++ ['i', 'n'] := by simp
        _ = kept ++ [d] ++ (u ++ [c]).rtakeWhile isBlank ++ ['i', 'n'] := by rw [← hkept, hcut]
        _ = _ := by simp
    refine ⟨kept, d, (u ++ [c]).rtakeWhile isBlank, hname, ?_, htail, htail_ne⟩
    rcases h.goesOn kept d _ hname with hd' | ⟨hd', -⟩
    · exact hd'
    · rw [hd] at hd'
      cases hd'

theorem AllBlank.append {s t : List Char} (hs : AllBlank s) (ht : AllBlank t) :
    AllBlank (s ++ t) :=
  List.forall_mem_append.2 ⟨hs, ht⟩

theorem trimEnd_append_blanks {s blanks : List Char} (h : AllBlank blanks) :
    trimEnd (s ++ blanks) = trimEnd s := by
  rw [trimEnd, trimEnd, List.reverse_append, List.dropWhile_append_of_pos]
  simpa [AllBlank] using h

/-- Of blanks in front of a mark a name takes in all, or all but one if the mark is a bar. -/
theorem exists_cut_blanks (hmark : IsStop mark) {blanks : List Char} (h : AllBlank blanks) :
    ∃ taken left, blanks = taken ++ left ∧ AllBlank taken ∧ AllBlank left ∧
      (mark = '|' → left = [] → taken = []) ∧ ∀ c s, left = c :: s → s = [] ∧ mark = '|' := by
  rcases hmark with rfl | rfl
  · rcases List.eq_nil_or_concat blanks with rfl | ⟨taken, c, rfl⟩
    · exact ⟨[], [], rfl, .nil, .nil, fun _ _ => rfl, by simp⟩
    · rw [List.concat_eq_append] at h ⊢
      obtain ⟨htaken, hlast⟩ := List.forall_mem_append.1 h
      exact ⟨taken, [c], rfl, htaken, hlast, by simp, by simp⟩
  · exact ⟨blanks, [], by simp, h, .nil, by simp, by simp⟩

/-- No name ends in front of blanks, unless these end in front of a bar. -/
theorem not_endsName_blanks {blanks s : List Char} (hmark : IsStop mark) (h : AllBlank blanks)
    (hne : mark = '|' → blanks ≠ []) : ¬EndsName (blanks ++ mark :: s) := by
  cases blanks with
  | nil =>
    rintro (⟨t, ht⟩ | ⟨c, t, ht, -⟩)
    · cases ht
      exact hne rfl rfl
    · cases ht
      rcases hmark with h | h <;> cases h
  | cons c blanks =>
    rintro (⟨t, ht⟩ | ⟨d, t, ht, -⟩) <;>
      · obtain ⟨rfl, -⟩ := List.cons.inj ht
        exact absurd h.head (by decide)

/-- With more blanks behind it a name still goes on over its characters, unless it loses its last
    word. -/
theorem IsName.goesOn_insert (hmark : IsStop mark) {name gap blanks s u v : List Char} {c : Char}
    (h : IsName name (gap ++ mark :: s)) (hname : name = u ++ c :: v) (hgap : AllBlank gap)
    (hblanks : AllBlank blanks) (hword : blanks = [] ∨ gap ≠ [] ∨ ¬EndsInWord name)
    (s' : List Char) : GoesOn c (v ++ (gap ++ (blanks ++ mark :: s'))) := by
  rcases h.goesOn u c v hname with hc | ⟨hc, hnot⟩
  · exact .inl hc
  · refine .inr ⟨hc, fun hends => hnot ?_⟩
    -- What comes first of the gap, the blanks and the mark.
    have hfirst : ∀ d t, gap ++ (blanks ++ mark :: s') = d :: t →
        isBlank d = true ∨ gap = [] ∧ blanks = [] ∧ d = mark := by
      intro d t hd
      rcases gap with _ | ⟨e, gap⟩
      · rcases blanks with _ | ⟨e, blanks⟩
        · exact .inr ⟨rfl, rfl, (List.cons.inj hd).1.symm⟩
        · obtain ⟨rfl, -⟩ := List.cons.inj hd
          exact .inl hblanks.head
      · obtain ⟨rfl, -⟩ := List.cons.inj hd
        exact .inl hgap.head
    rcases hends.of_append with hv | ⟨rfl, ⟨t, ht⟩ | ⟨d, t, ht, -⟩⟩ | ⟨-, t, ht⟩ |
      ⟨rfl, d, t, hd, hdblank⟩
    · exact hv.append _
    · rcases hfirst _ _ ht with hbar | ⟨rfl, -, rfl⟩
      · exact absurd hbar (by decide)
      · exact .inl ⟨s, rfl⟩
    · rcases hfirst _ _ ht with hi | ⟨-, -, rfl⟩
      · exact absurd hi (by decide)
      · rcases hmark with h | h <;> cases h
    · rcases hfirst _ _ ht with hn | ⟨-, -, rfl⟩
      · exact absurd hn (by decide)
      · rcases hmark with h | h <;> cases h
    · cases gap with
      | cons e gap => exact .inr ⟨e, gap ++ mark :: s, rfl, hgap.head⟩
      | nil =>
        cases blanks with
        | nil =>
          obtain ⟨rfl, -⟩ := List.cons.inj hd
          rw [hmark.not_blank] at hdblank
          cases hdblank
        | cons e blanks =>
          rcases hword with hnil | hnil | hword
          · cases hnil
          · exact absurd rfl hnil
          · exact absurd ⟨u, c, hname, hc⟩ hword

/-- A name does not go on over a mark, or over the one blank that is left in front of a bar. -/
theorem not_goesOn_left (hmark : IsStop mark) {left s t : List Char} {c : Char}
    (hleft : AllBlank left) (hlast : ∀ c s, left = c :: s → s = [] ∧ mark = '|')
    (ht : left ++ mark :: s = c :: t) : ¬GoesOn c t := by
  cases left with
  | nil =>
    obtain ⟨rfl, -⟩ := List.cons.inj ht
    rintro (hname | ⟨hblank, -⟩)
    · rcases hmark with rfl | rfl <;> exact absurd hname (by decide)
    · rw [hmark.not_blank] at hblank
      cases hblank
  | cons d left =>
    obtain ⟨rfl, rfl⟩ := hlast d left rfl
    obtain ⟨rfl, rfl⟩ := List.cons.inj ht
    rintro (hname | ⟨-, hends⟩)
    · rw [isNameChar_of_isBlank hleft.head] at hname
      cases hname
    · exact hends (.inl ⟨s, rfl⟩)

/-- A name takes in blanks behind it, all or all but one, unless it loses its last word. -/
theorem IsName.absorb (hmark : IsStop mark) {name gap blanks s : List Char}
    (h : IsName name (gap ++ mark :: s)) (hgap : AllBlank gap) (hblanks : AllBlank blanks)
    (hword : blanks = [] ∨ gap ≠ [] ∨ ¬EndsInWord name) (s' : List Char) :
    ∃ taken left, gap ++ blanks = taken ++ left ∧ AllBlank taken ∧ AllBlank left ∧
      IsName (name ++ taken) (left ++ mark :: s') := by
  obtain ⟨taken, left, hcut, htaken, hleft, hbar, hlast⟩ :=
    exists_cut_blanks hmark (hgap.append hblanks)
  have hrest : ∀ t, taken ++ (left ++ t) = gap ++ (blanks ++ t) := by
    intro t
    rw [← List.append_assoc, ← hcut, List.append_assoc]
  -- The blanks that are taken in do not end the name, since one is left in front of a bar.
  have hinside : ∀ v, AllBlank v → (mark = '|' → v ++ left ≠ []) →
      ¬EndsName (v ++ (left ++ mark :: s')) := by
    intro v hv hne
    rw [← List.append_assoc]
    exact not_endsName_blanks hmark (hv.append hleft) hne
  refine ⟨taken, left, hcut, htaken, hleft, ?_, ?_, fun c t => not_goesOn_left hmark hleft hlast⟩
  · obtain ⟨c, t, rfl, hc⟩ := h.starts
    exact ⟨c, t ++ taken, rfl, hc⟩
  · intro u c v hsplit
    have htake : ∀ a, taken = a ++ c :: v → GoesOn c (v ++ (left ++ mark :: s')) := by
      rintro a rfl
      refine .inr ⟨htaken c (by simp), hinside v (fun d hd => htaken d (by simp [hd])) ?_⟩
      rintro rfl hnil
      simpa using hbar rfl (List.append_eq_nil_iff.1 hnil).2
    rcases List.append_eq_append_iff.1 hsplit with ⟨a, -, ha⟩ | ⟨a, hname, ha⟩
    · exact htake a ha
    · cases a with
      | nil => exact htake [] ha.symm
      | cons d a =>
        rw [List.cons_append, List.cons.injEq] at ha
        obtain ⟨rfl, rfl⟩ := ha
        rw [List.append_assoc, hrest]
        exact h.goesOn_insert hmark hname hgap hblanks hword s'

/-! ## Paths with filters -/

/-- The text ends where a name may start: behind a mark and blanks, or at the very start. -/
def BehindMark (s : List Char) : Prop :=
  s = [] ∨ ∃ u mark blanks, s = u ++ mark :: blanks ∧ (mark = '.' ∨ mark = '|') ∧ AllBlank blanks

namespace StepForm

theorem writtenAll_append (steps steps' : List StepForm) :
    writtenAll (steps ++ steps') = writtenAll steps ++ writtenAll steps' :=
  List.flatMap_append

theorem allFit_append_iff {following : List Char} {steps steps' : List StepForm} :
    AllFit following (steps ++ steps') ↔
      AllFit (writtenAll steps' ++ following) steps ∧ AllFit following steps' := by
  induction steps with
  | nil => simp [AllFit]
  | cons step steps ih => simp [AllFit, ih, writtenAll_append, and_assoc]

theorem mapLast_concat (f : List Char → List Char) (steps : List StepForm) (last : StepForm) :
    mapLast f (steps ++ [last]) = steps ++ [last.mapName f] := by
  induction steps with
  | nil => rfl
  | cons step steps ih =>
    cases steps with
    | nil => rfl
    | cons next steps => exact congrArg (step :: ·) ih

end StepForm

namespace PathForm

theorem mapLast_concat (f : List Char → List Char) (root : List Char) (steps : List StepForm)
    (last : StepForm) : mapLast f ⟨root, steps ++ [last]⟩ = ⟨root, steps ++ [last.mapName f]⟩ := by
  rw [← StepForm.mapLast_concat]
  cases steps <;> rfl

/-- A path ends in a name if it is nothing but its root, or its last step is a name. -/
theorem eq_of_lastName {p : PathForm} {name : List Char} (h : p.lastName? = some name) :
    p = ⟨name, []⟩ ∨ ∃ root steps gap blanks, p = ⟨root, steps ++ [.name gap blanks name]⟩ := by
  obtain ⟨root, steps⟩ := p
  unfold lastName? at h
  split at h
  · next hnil =>
    obtain rfl : steps = [] := List.getLast?_eq_none_iff.1 hnil
    cases h
    exact .inl rfl
  · next step hlast =>
    obtain ⟨init, rfl⟩ := List.getLast?_eq_some_iff.1 hlast
    cases step with
    | name gap blanks chars =>
      cases h
      exact .inr ⟨root, init, gap, blanks, rfl⟩
    | index => cases h

/-- The name at the end of a path is followed by what follows the path. -/
theorem Fits.isName_last {p : PathForm} {following : List Char} (h : p.Fits following)
    {name : List Char} (hname : p.lastName? = some name) : IsName name following := by
  rcases eq_of_lastName hname with rfl | ⟨root, steps, gap, blanks, rfl⟩
  · exact h.1
  · exact (StepForm.allFit_append_iff.1 h.2).2.1.2.2

/-- In front of the name at the end of a path stands nothing, or a dot and blanks. Another name may
    stand in its place. -/
theorem Fits.exists_front {p : PathForm} {following : List Char} (h : p.Fits following)
    {name : List Char} (hname : p.lastName? = some name) :
    ∃ front, BehindMark front ∧ p.written = front ++ name ∧
      ∀ f, (p.mapLast f).written = front ++ f name := by
  rcases eq_of_lastName hname with rfl | ⟨root, steps, gap, blanks, rfl⟩
  · refine ⟨[], .inl rfl, ?_, fun f => ?_⟩
    · exact List.append_nil name
    · exact List.append_nil (f name)
  · refine ⟨root ++ (StepForm.writtenAll steps ++ gap) ++ '.' :: blanks,
      .inr ⟨_, '.', blanks, rfl, .inl rfl, (StepForm.allFit_append_iff.1 h.2).2.1.2.1⟩, ?_,
      fun f => ?_⟩
    · simp [written, StepForm.writtenAll_append, StepForm.written]
    · simp [mapLast_concat, StepForm.mapName, written, StepForm.writtenAll_append,
        StepForm.written]

/-- A path that does not end in a name ends in the bracket of an indexer. -/
theorem exists_bracket {p : PathForm} (h : p.lastName? = none) : ∃ u, p.written = u ++ [']'] := by
  obtain ⟨root, steps⟩ := p
  unfold lastName? at h
  split at h
  · cases h
  · next step hlast =>
    obtain ⟨init, rfl⟩ := List.getLast?_eq_some_iff.1 hlast
    cases step with
    | name => cases h
    | index gap chars chars_ne =>
      refine ⟨root ++ (StepForm.writtenAll init ++ (gap ++ '[' :: chars)), ?_⟩
      simp [written, StepForm.writtenAll_append, StepForm.written]

/-- A path stands for the same wherever it is written. -/
theorem Fits.alike_self {p : PathForm} {following : List Char} (h : p.Fits following)
    (before before' : List Char) : (p.path before').alike (p.path before) = true := by
  have hsame := alike_mapLast before before' (f := id) h fun _ _ _ => rfl
  rwa [mapLast_id] at hsame

end PathForm

namespace FilterForm

theorem writtenAll_append (filters filters' : List FilterForm) :
    writtenAll (filters ++ filters') = writtenAll filters ++ writtenAll filters' :=
  List.flatMap_append

theorem allFit_append_iff {following : List Char} {filters filters' : List FilterForm} :
    AllFit following (filters ++ filters') ↔
      AllFit (writtenAll filters' ++ following) filters ∧ AllFit following filters' := by
  induction filters with
  | nil => simp [AllFit]
  | cons f filters ih => simp [AllFit, ih, writtenAll_append, and_assoc]

end FilterForm

/-- What a substitution is about: a path and the filters behind it. -/
structure ChainForm where
  subject : PathForm
  filters : List FilterForm

namespace ChainForm

def written (c : ChainForm) : List Char := c.subject.written ++ FilterForm.writtenAll c.filters

/-- The chain may stand before the given text, and its path can be built. -/
structure Fits (following : List Char) (c : ChainForm) : Prop where
  subject : c.subject.Fits (FilterForm.writtenAll c.filters ++ following)
  tight : c.subject.Tight
  filters : FilterForm.AllFit following c.filters

/-- The chains stand for expressions that are alike. -/
structure Alike (c' c : ChainForm) : Prop where
  subject : ∀ before before', (c'.subject.path before').alike (c.subject.path before) = true
  filters : List.Forall₂ (fun f' f => trimEnd f'.chars = trimEnd f.chars) c'.filters c.filters

theorem fits_append_iff {following : List Char} {subject : PathForm}
    {filters filters' : List FilterForm} :
    Fits following ⟨subject, filters ++ filters'⟩ ↔
      Fits (FilterForm.writtenAll filters' ++ following) ⟨subject, filters⟩ ∧
        FilterForm.AllFit following filters' := by
  constructor
  · rintro ⟨hsubject, htight, hfilters⟩
    obtain ⟨hfront, hback⟩ := FilterForm.allFit_append_iff.1 hfilters
    refine ⟨⟨?_, htight, hfront⟩, hback⟩
    simpa [FilterForm.writtenAll_append] using hsubject
  · rintro ⟨⟨hsubject, htight, hfront⟩, hback⟩
    refine ⟨?_, htight, FilterForm.allFit_append_iff.2 ⟨hfront, hback⟩⟩
    simpa [FilterForm.writtenAll_append] using hsubject

theorem Fits.beyond (hmark : IsStop mark) {c : ChainForm} {s f : List Char}
    (h : c.Fits (s ++ mark :: f)) (f' : List Char) : c.Fits (s ++ mark :: f') := by
  obtain ⟨hsubject, htight, hfilters⟩ := h
  refine ⟨?_, htight, hfilters.beyond hmark f'⟩
  rw [← List.append_assoc] at hsubject ⊢
  exact hsubject.beyond hmark f'

theorem Fits.alike_self {c : ChainForm} {following : List Char} (h : c.Fits following) :
    c.Alike c where
  subject := h.subject.alike_self
  filters := List.forall₂_same.2 fun _ _ => rfl

theorem Alike.append {c' c : ChainForm} (h : c'.Alike c) {filters' filters : List FilterForm}
    (hfilters : List.Forall₂ (fun f' f => trimEnd f'.chars = trimEnd f.chars) filters' filters) :
    Alike ⟨c'.subject, c'.filters ++ filters'⟩ ⟨c.subject, c.filters ++ filters⟩ :=
  ⟨h.subject, List.rel_append h.filters hfilters⟩

/-- How a chain ends in front of a text. -/
inductive End (following : List Char) (c : ChainForm) : Prop
  /-- In an indexer, whatever follows. -/
  | index (front : List Char) (written_eq : c.written = front ++ [']'])
    (fits : ∀ following', c.Fits following')
  /-- In a name, and there may be another one in its place. -/
  | name (front name : List Char) (written_eq : c.written = front ++ name)
    (isName : IsName name following) (behind : BehindMark front)
    (rename : ∀ (f : List Char → List Char) following', IsName (f name) following' →
      ∃ c' : ChainForm, c'.Fits following' ∧ c'.written = front ++ f name ∧
        ((∀ s t, trimEnd (s ++ f t) = trimEnd (s ++ t)) → c'.Alike c))

/-- A chain ends in an indexer or in a name, which a filter ends in, too. -/
theorem Fits.end {c : ChainForm} {following : List Char} (h : c.Fits following) :
    c.End following := by
  obtain ⟨subject, filters⟩ := c
  obtain ⟨hsubject, htight, hfilters⟩ := h
  rcases List.eq_nil_or_concat filters with rfl | ⟨init, last, rfl⟩
  · have hw : ∀ p : PathForm, written ⟨p, []⟩ = p.written := fun p => by simp [written]
    cases hname : subject.lastName? with
    | none =>
      obtain ⟨front, hfront⟩ := PathForm.exists_bracket hname
      refine .index front ((hw _).trans hfront) fun following' => ⟨?_, htight, trivial⟩
      rw [← subject.mapLast_id]
      apply hsubject.mapLast htight
      rintro name hname' -
      cases hname.symm.trans hname'
    | some name =>
      obtain ⟨front, hbehind, hfront, hmap⟩ := hsubject.exists_front hname
      refine .name front name ((hw _).trans hfront) (hsubject.isName_last hname) hbehind
        fun f following' hf => ⟨⟨subject.mapLast f, []⟩, ⟨?_, htight.mapLast f, trivial⟩,
          (hw _).trans (hmap f), fun htrim => ⟨fun before before' => ?_, .nil⟩⟩
      · apply hsubject.mapLast htight
        rintro name' hname' -
        cases hname.symm.trans hname'
        exact hf
      · exact PathForm.alike_mapLast before before' hsubject fun name _ t => htrim t name
  · rw [List.concat_eq_append] at hsubject hfilters ⊢
    obtain ⟨hinit, ⟨hgap, hblanks, hname⟩, -⟩ := fits_append_iff.1 ⟨hsubject, htight, hfilters⟩
    have hw : ∀ f : FilterForm, written ⟨subject, init ++ [f]⟩ =
        written ⟨subject, init⟩ ++ f.gap ++ '|' :: f.blanks ++ f.chars := by
      simp [written, FilterForm.writtenAll_append, FilterForm.written]
    have hinit' : Fits (last.gap ++ '|' :: (last.blanks ++ (last.chars ++ following)))
        ⟨subject, init⟩ := by
      simpa [FilterForm.written] using hinit
    refine .name _ last.chars (hw last) hname (.inr ⟨_, '|', last.blanks, rfl, .inr rfl, hblanks⟩)
      fun f following' hf => ⟨⟨subject, init ++ [⟨last.gap, last.blanks, f last.chars⟩]⟩,
        fits_append_iff.2 ⟨?_, ⟨hgap, hblanks, hf⟩, trivial⟩, hw _,
        fun htrim => hinit'.alike_self.append (.cons (htrim [] last.chars) .nil)⟩
    have hfits := hinit'.beyond (.inl rfl) (last.blanks ++ (f last.chars ++ following'))
    simpa [FilterForm.written] using hfits

/-- A chain takes in blanks behind it if it ends in a name, and leaves them otherwise. -/
theorem Fits.absorb (hmark : IsStop mark) {c : ChainForm} {gap blanks s : List Char}
    (h : c.Fits (gap ++ mark :: s)) (hgap : AllBlank gap) (hblanks : AllBlank blanks)
    (hword : blanks = [] ∨ ¬LosesWord (c.written ++ gap)) (s' : List Char) :
    ∃ (c' : ChainForm) (left : List Char), AllBlank left ∧
      c'.written ++ left = c.written ++ (gap ++ blanks) ∧ c'.Fits (left ++ mark :: s') ∧
      c'.Alike c := by
  cases h.end with
  | index front written_eq fits =>
    exact ⟨c, gap ++ blanks, hgap.append hblanks, rfl, fits _, h.alike_self⟩
  | name front name written_eq isName behind rename =>
    have hword' : blanks = [] ∨ gap ≠ [] ∨ ¬EndsInWord name := by
      refine hword.imp_right fun hnot => or_iff_not_imp_left.2 fun hnil hin => hnot ?_
      rw [not_not.1 hnil, List.append_nil, written_eq]
      exact (isName.losesWord hin).prepend front
    obtain ⟨taken, left, hcut, htaken, hleft, hname⟩ :=
      isName.absorb hmark hgap hblanks hword' s'
    obtain ⟨c', hc', hw, halike⟩ := rename (· ++ taken) _ hname
    refine ⟨c', left, hleft, ?_, hc', halike fun s t => ?_⟩
    · rw [hw, written_eq, hcut]
      simp
    · rw [← List.append_assoc, trimEnd_append_blanks htaken]

/-! ## Tags -/

section

variable {subject : PathForm} {init more : List FilterForm} {f : FilterForm}
  {following blanks : List Char}

/-- In front of each of its bars a chain fits as well. -/
theorem Fits.upTo (h : Fits following ⟨subject, init ++ f :: more⟩) :
    Fits (f.gap ++ '|' :: (f.blanks ++ (f.chars ++ (FilterForm.writtenAll more ++ following))))
      ⟨subject, init⟩ := by
  simpa [FilterForm.written] using (fits_append_iff.1 h).1

/-- Blanks in front of a bar belong to the name that ends there, or they are left in front of the
    bar. -/
theorem Fits.insert_beforeBar (h : Fits following ⟨subject, init ++ f :: more⟩)
    (hblanks : AllBlank blanks)
    (hword : blanks = [] ∨ ¬LosesWord (written ⟨subject, init⟩ ++ f.gap)) :
    ∃ c : ChainForm, c.written = written ⟨subject, init⟩ ++ f.gap ++
        (blanks ++ '|' :: (f.blanks ++ (f.chars ++ FilterForm.writtenAll more))) ∧
      c.Fits following ∧ c.Alike ⟨subject, init ++ f :: more⟩ := by
  obtain ⟨-, ⟨hgap, hfblanks, hname⟩, hmore⟩ := fits_append_iff.1 h
  obtain ⟨c, left, hleft, hw, hc, halike⟩ := h.upTo.absorb (.inl rfl) hgap hblanks hword
    (f.blanks ++ (f.chars ++ (FilterForm.writtenAll more ++ following)))
  refine ⟨⟨c.subject, c.filters ++ ⟨left, f.blanks, f.chars⟩ :: more⟩, ?_,
    fits_append_iff.2 ⟨?_, ⟨hleft, hfblanks, hname⟩, hmore⟩,
    halike.append (.cons rfl (List.forall₂_same.2 fun _ _ => rfl))⟩
  · have := congrArg (· ++ '|' :: (f.blanks ++ (f.chars ++ FilterForm.writtenAll more))) hw
    simpa [written, FilterForm.writtenAll_append, FilterForm.written] using this
  · simpa [FilterForm.written] using hc

/-- Blanks behind a bar are skipped in front of the name of the filter. -/
theorem Fits.insert_behindBar (h : Fits following ⟨subject, init ++ f :: more⟩)
    (hblanks : AllBlank blanks) :
    ∃ c : ChainForm, c.written = written ⟨subject, init⟩ ++ f.gap ++
        '|' :: (blanks ++ (f.blanks ++ (f.chars ++ FilterForm.writtenAll more))) ∧
      c.Fits following ∧ c.Alike ⟨subject, init ++ f :: more⟩ := by
  obtain ⟨-, ⟨hgap, hfblanks, hname⟩, hmore⟩ := fits_append_iff.1 h
  have hinit := h.upTo.beyond (.inl rfl)
    (blanks ++ (f.blanks ++ (f.chars ++ (FilterForm.writtenAll more ++ following))))
  refine ⟨⟨subject, init ++ ⟨f.gap, blanks ++ f.blanks, f.chars⟩ :: more⟩, ?_,
    fits_append_iff.2 ⟨?_, ⟨hgap, hblanks.append hfblanks, hname⟩, hmore⟩,
    h.upTo.alike_self.append (.cons rfl (List.forall₂_same.2 fun _ _ => rfl))⟩
  · simp [written, FilterForm.writtenAll_append, FilterForm.written]
  · simpa [FilterForm.written] using hinit

end

end ChainForm

/-- At each seam of a tag blanks can be put in: the name in front of them takes them in, or they
    stand in front of the next mark or the next name. -/
theorem FilterForm.IsSeam.insert {before trail front blanks s : List Char} {subject : PathForm}
    {filters : List FilterForm} (hseam : IsSeam (before ++ subject.written) filters trail front)
    (hfits : ChainForm.Fits (trail ++ '}' :: s) ⟨subject, filters⟩) (htrail : AllBlank trail)
    (hblanks : AllBlank blanks) (hword : blanks = [] ∨ ¬LosesWord front) :
    ∃ (rest back : List Char) (c : ChainForm) (trail' : List Char),
      front = before ++ (subject.written ++ rest) ∧
      writtenAll filters ++ trail = rest ++ back ∧
      c.written ++ trail' = subject.written ++ rest ++ (blanks ++ back) ∧
      c.Fits (trail' ++ '}' :: s) ∧ AllBlank trail' ∧ c.Alike ⟨subject, filters⟩ := by
  -- A word that the chain loses is one that the whole text loses.
  have hchain : ∀ {t : List Char}, front = before ++ t → blanks = [] ∨ ¬LosesWord t :=
    fun ht => hword.imp_right (mt fun hloses => ht ▸ hloses.prepend before)
  cases hseam with
  | beforeBar init more f split =>
    subst split
    obtain ⟨c, hw, hc, halike⟩ := hfits.insert_beforeBar hblanks
      (hchain (by simp [ChainForm.written]))
    refine ⟨writtenAll init ++ f.gap, '|' :: (f.blanks ++ (f.chars ++ (writtenAll more ++ trail))),
      c, trail, ?_, ?_, ?_, hc, htrail, halike⟩
    · simp
    · simp [writtenAll_append, written]
    · rw [hw]
      simp [ChainForm.written]
  | behindBar init more f split =>
    subst split
    obtain ⟨c, hw, hc, halike⟩ := hfits.insert_behindBar hblanks
    refine ⟨writtenAll init ++ f.gap ++ ['|'],
      f.blanks ++ (f.chars ++ (writtenAll more ++ trail)), c, trail, ?_, ?_, ?_, hc, htrail, halike⟩
    · simp
    · simp [writtenAll_append, written]
    · rw [hw]
      simp [ChainForm.written]
  | beforeBrace =>
    obtain ⟨c, left, hleft, hw, hc, halike⟩ :=
      hfits.absorb (.inr rfl) htrail hblanks (hchain (by simp [ChainForm.written])) s
    refine ⟨writtenAll filters ++ trail, [], c, left, ?_, ?_, ?_, hc, hleft, halike⟩
    · simp
    · simp
    · simpa [ChainForm.written] using hw

/-- The letters of a keyword are name characters, in any case. -/
theorem InAnyCase.isNameChar_of_mem {kind : BlockKind} {keyword : List Char}
    (h : InAnyCase kind.keyword keyword) {c : Char} (hc : c ∈ keyword) : isNameChar c = true := by
  obtain ⟨letter, hmem, hletter⟩ := h.exists_letter hc
  have hkeyword : kind.keyword.toList.all (fun letter =>
      isNameChar letter && isNameChar letter.toUpper) = true := by
    cases kind <;> decide +kernel
  have hcases := List.all_eq_true.1 hkeyword letter hmem
  rw [Bool.and_eq_true] at hcases
  simp only [isLetter, Bool.or_eq_true, Bool.and_eq_true, beq_iff_eq] at hletter
  rcases hletter with ((rfl | rfl) | ⟨-, rfl | rfl⟩) | ⟨-, rfl⟩
  · exact hcases.1
  · exact hcases.2
  all_goals decide +kernel

/-- With blanks put in, a text looks like the opening of a block only if it did before, or if the
    blanks come right behind a keyword. -/
theorem StartsBlock.of_insert {s blanks t : List Char} (h : StartsBlock (s ++ (blanks ++ t)))
    (hblanks : AllBlank blanks) :
    StartsBlock (s ++ t) ∨ blanks ≠ [] ∧ ∃ kind : BlockKind, InAnyCase kind.keyword s := by
  obtain ⟨kind, keyword, c, u, hs, hkeyword, hc⟩ := h
  rcases List.append_eq_append_iff.1 hs with ⟨v, rfl, hv⟩ | ⟨v, rfl, hv⟩
  · cases blanks with
    | nil =>
      refine .inl ⟨kind, s ++ v, c, u, ?_, hkeyword, hc⟩
      rw [List.append_assoc, ← hv, List.nil_append]
    | cons d blanks =>
      cases v with
      | nil => exact .inr ⟨List.cons_ne_nil d blanks, kind, by simpa using hkeyword⟩
      | cons e v =>
        obtain ⟨rfl, -⟩ := List.cons.inj hv
        have hd := hkeyword.isNameChar_of_mem (c := d) (by simp)
        rw [isNameChar_of_isBlank hblanks.head] at hd
        cases hd
  · cases v with
    | nil =>
      cases blanks with
      | nil => exact .inl ⟨kind, keyword, c, u, by simpa using hv.symm, hkeyword, hc⟩
      | cons d blanks => exact .inr ⟨List.cons_ne_nil d blanks, kind, by simpa using hkeyword⟩
    | cons d v =>
      obtain ⟨rfl, -⟩ := List.cons.inj hv
      exact .inl ⟨kind, keyword, c, v ++ t, by simp, hkeyword, hc⟩

/-- With blanks put in behind its first part the inside of a substitution is still one, unless that
    part is a keyword. -/
theorem inside_insert {s blanks back : List Char} (hne : s ≠ [])
    (hslash : ∀ t, s ++ back ≠ '/' :: t) (hblock : ¬StartsBlock (s ++ back))
    (hblanks : AllBlank blanks)
    (hkeyword : blanks = [] ∨ ∀ kind : BlockKind, ¬InAnyCase kind.keyword s) :
    (∀ t, s ++ (blanks ++ back) ≠ '/' :: t) ∧ ¬StartsBlock (s ++ (blanks ++ back)) := by
  constructor
  · obtain ⟨c, s, rfl⟩ := List.exists_cons_of_ne_nil hne
    intro t ht
    obtain ⟨rfl, -⟩ := List.cons.inj ht
    exact hslash _ rfl
  · intro hstarts
    rcases hstarts.of_insert hblanks with hstarts | ⟨hne, kind, hk⟩
    · exact hblock hstarts
    · exact hkeyword.elim hne fun hnot => hnot kind hk

/-! ## Phrases -/

namespace Phrase

/-- The phrases stand for segments that are alike, and the first one can be built as well. -/
structure Resembles (phrase' phrase : Phrase) : Prop where
  tight : ∀ p ∈ phrase'.paths, p.Tight
  depth_eq : phrase'.depth = phrase.depth
  alike : ∀ before before', (phrase'.segment before').alike (phrase.segment before) = true

section

variable {phrases' phrases : List Phrase}

theorem pathsAll_tight (h : List.Forall₂ Resembles phrases' phrases) :
    ∀ p ∈ pathsAll phrases', p.Tight := by
  induction h with
  | nil => simp [pathsAll]
  | cons hphrase _ ih => exact List.forall_mem_append.2 ⟨hphrase.tight, ih⟩

theorem depthAll_eq (h : List.Forall₂ Resembles phrases' phrases) :
    depthAll phrases' = depthAll phrases := by
  induction h with
  | nil => rfl
  | cons hphrase _ ih => rw [depthAll, depthAll, hphrase.depth_eq, ih]

theorem allAlike_segments (h : List.Forall₂ Resembles phrases' phrases)
    (before before' : List Char) :
    Segment.allAlike (segments before' phrases') (segments before phrases) = true := by
  induction h generalizing before before' with
  | nil => rfl
  | cons hphrase _ ih => simp [segments, Segment.allAlike, hphrase.alike, ih]

end

/-- Blocks resemble each other if they have the same head and their bodies do. -/
theorem Resembles.block {head : HeadForm} {following : List Char} (hhead : head.Fits following)
    (htight : head.path.Tight) {body' body : List Phrase}
    (hbody : List.Forall₂ Resembles body' body) :
    Resembles (.block head body') (.block head body) := by
  refine ⟨List.forall_mem_cons.2 ⟨htight, pathsAll_tight hbody⟩, ?_, fun before before' => ?_⟩
  · rw [depth, depth, depthAll_eq hbody]
  · cases head with
    | condition negated keyword blanks subject trail =>
      obtain ⟨-, -, -, hsubject, -⟩ := hhead
      simp [segment, Segment.alike, allAlike_segments hbody, hsubject.alike_self]
    | loop keyword blanks enumerator gap inBlanks collection trail =>
      obtain ⟨-, -, -, -, -, -, -, hcollection, -⟩ := hhead
      simp [segment, Segment.alike, allAlike_segments hbody, hcollection.alike_self,
        Identifier.alike]

theorem Resembles.substitution {lead lead' trail trail' : List Char} {c' c : ChainForm}
    (halike : c'.Alike c) (htight : c'.subject.Tight) :
    Resembles (.substitution lead' c'.subject c'.filters trail')
      (.substitution lead c.subject c.filters trail) := by
  refine ⟨List.forall_mem_singleton.2 htight, rfl, fun before before' => ?_⟩
  apply FilterForm.alike_fold _ _ halike.filters
  exact halike.subject _ _

mutual

/-- A phrase that fits resembles itself. -/
theorem Fits.resembles_self {following : List Char} :
    ∀ {phrase : Phrase}, phrase.Fits following → (∀ p ∈ phrase.paths, p.Tight) →
      phrase.Resembles phrase
  | .text pieces, _, htight => ⟨htight, rfl, fun before before' => by simp [segment, Segment.alike]⟩
  | .substitution blanks subject filters trail, h, htight => by
    obtain ⟨-, -, -, hsubject, hfilters, -⟩ := h
    have hsubject_tight := List.forall_mem_singleton.1 htight
    rw [List.append_assoc] at hsubject
    have hchain : ChainForm.Fits (trail ++ '}' :: following) ⟨subject, filters⟩ :=
      ⟨hsubject, hsubject_tight, hfilters⟩
    exact .substitution hchain.alike_self hsubject_tight
  | .block head body, h, htight => by
    obtain ⟨hhead_tight, hbody_tight⟩ := List.forall_mem_cons.1 htight
    exact .block h.1 hhead_tight (AllFit.resemble_self h.2 hbody_tight)

theorem AllFit.resemble_self {following : List Char} :
    ∀ {phrases : List Phrase}, AllFit following phrases → (∀ p ∈ pathsAll phrases, p.Tight) →
      List.Forall₂ Resembles phrases phrases
  | [], _, _ => .nil
  | phrase :: phrases, h, htight => by
    obtain ⟨hphrase_tight, hrest_tight⟩ := List.forall_mem_append.1 htight
    exact .cons (Fits.resembles_self h.1 hphrase_tight) (AllFit.resemble_self h.2 hrest_tight)

end

/-- A phrase becomes another one when blanks are put in behind the first part of it, which the
    opening of a tag belongs to. -/
structure Becomes (blanks inner back following : List Char) (phrase phrase' : Phrase) : Prop where
  two_le : 2 ≤ inner.length
  written_eq : phrase.written = inner ++ back
  written_eq' : phrase'.written = inner ++ (blanks ++ back)
  fits : phrase'.Fits following
  resembles : phrase'.Resembles phrase

structure AllBecome (blanks inner back following : List Char) (phrases phrases' : List Phrase) :
    Prop where
  two_le : 2 ≤ inner.length
  written_eq : writtenAll phrases = inner ++ back
  written_eq' : writtenAll phrases' = inner ++ (blanks ++ back)
  fits : AllFit following phrases'
  resemble : List.Forall₂ Resembles phrases' phrases

/-- With blanks at a seam of it, a substitution is one that stands for the same. -/
theorem Fits.insert_substitution {blanks front before lead trail s : List Char}
    {subject : PathForm} {filters : List FilterForm} (hblanks : AllBlank blanks)
    (htakes : blanks = [] ∨ ¬TakesBlanks front)
    (h : (substitution lead subject filters trail).Fits s) (htight : subject.Tight)
    (hseam : (substitution lead subject filters trail).IsSeam before front) :
    ∃ inner back phrase', front = before ++ inner ∧
      Becomes blanks inner back s (substitution lead subject filters trail) phrase' := by
  obtain ⟨hslash, hblock, hlead, hsubject, hfilters, htrail⟩ := h
  have hchain : ChainForm.Fits (trail ++ '}' :: s) ⟨subject, filters⟩ :=
    ⟨by rwa [← List.append_assoc], htight, hfilters⟩
  have hseam' : FilterForm.IsSeam (before ++ '#' :: '{' :: lead ++ subject.written) filters trail
      front := by
    simpa [IsSeam] using hseam
  obtain ⟨rest, back, c, trail', rfl, hold, hnew, hc, htrail', halike⟩ :=
    hseam'.insert hchain htrail hblanks (htakes.imp_right (mt .inr))
  have hinside : ∀ t, inside lead subject filters trail t =
      lead ++ subject.written ++ rest ++ (back ++ '}' :: t) := by
    intro t
    have := congrArg (fun u => lead ++ (subject.written ++ (u ++ '}' :: t))) hold
    simpa [inside] using this
  have hinside' : ∀ t, inside lead c.subject c.filters trail' t =
      lead ++ subject.written ++ rest ++ (blanks ++ (back ++ '}' :: t)) := by
    intro t
    have := congrArg (fun u => lead ++ (u ++ '}' :: t)) hnew
    simpa [inside, ChainForm.written] using this
  rw [hinside] at hslash hblock
  refine ⟨'#' :: '{' :: (lead ++ subject.written ++ rest), back ++ ['}'],
    .substitution lead c.subject c.filters trail', by simp, ?_⟩
  constructor
  case two_le => simp
  case written_eq => simp [written, hinside]
  case written_eq' => simp [written, hinside']
  case resembles => exact .substitution halike hc.tight
  case fits =>
    have hne : lead ++ subject.written ++ rest ≠ [] := by
      intro hnil
      simp [PathForm.written, hsubject.1.ne_nil] at hnil
    have hkeyword : blanks = [] ∨
        ∀ kind : BlockKind, ¬InAnyCase kind.keyword (lead ++ subject.written ++ rest) := by
      refine htakes.imp_right fun hnot kind hkeyword => hnot (.inl ⟨before, _, kind, ?_, hkeyword⟩)
      simp
    obtain ⟨hslash', hblock'⟩ := inside_insert hne hslash hblock hblanks hkeyword
    rw [← hinside'] at hslash' hblock'
    refine ⟨hslash', hblock', hlead, ?_, hc.filters, htrail'⟩
    rw [List.append_assoc]
    exact hc.subject

mutual

/-- With blanks at a seam in it, a phrase is another one that stands for the same. -/
theorem Fits.insert {blanks front s : List Char} (hblanks : AllBlank blanks)
    (htakes : blanks = [] ∨ ¬TakesBlanks front) (before : List Char) :
    ∀ {phrase : Phrase}, phrase.Fits s → (∀ p ∈ phrase.paths, p.Tight) →
      phrase.IsSeam before front →
      ∃ inner back phrase', front = before ++ inner ∧ Becomes blanks inner back s phrase phrase'
  | .text _, _, _, hseam => False.elim hseam
  | .substitution lead subject filters trail, h, htight, hseam =>
    Fits.insert_substitution hblanks htakes h (List.forall_mem_singleton.1 htight) hseam
  | .block head body, h, htight, hseam => by
    obtain ⟨hhead, hbody⟩ := h
    obtain ⟨hhead_tight, hbody_tight⟩ := List.forall_mem_cons.1 htight
    obtain ⟨inner, back, body', rfl, hlength, hold, hnew, hfits, hresemble⟩ :=
      AllFit.insert hblanks htakes (before ++ head.written) hbody hbody_tight hseam
    refine ⟨head.written ++ inner, back ++ head.kind.closer.toList, .block head body',
      by simp, ⟨?_, by simp [written, hold], by simp [written, hnew],
      ⟨hhead.beyond _, hfits⟩, .block hhead hhead_tight hresemble⟩⟩
    rw [List.length_append]
    omega

/-- With blanks at a seam of a substitution in them, phrases are others that stand for the same. -/
theorem AllFit.insert {blanks front s : List Char} (hblanks : AllBlank blanks)
    (htakes : blanks = [] ∨ ¬TakesBlanks front) (before : List Char) :
    ∀ {phrases : List Phrase}, AllFit s phrases → (∀ p ∈ pathsAll phrases, p.Tight) →
      IsSeamAll before front phrases →
      ∃ inner back phrases', front = before ++ inner ∧
        AllBecome blanks inner back s phrases phrases'
  | [], _, _, hseam => False.elim hseam
  | phrase :: phrases, h, htight, hseam => by
    obtain ⟨hphrase_tight, hrest_tight⟩ := List.forall_mem_append.1 htight
    rcases hseam with hseam | hseam
    · obtain ⟨inner, back, phrase', hfront, hlength, hold, hnew, hfits, hresembles⟩ :=
        Fits.insert hblanks htakes before h.1 hphrase_tight hseam
      exact ⟨inner, back ++ writtenAll phrases, phrase' :: phrases, hfront, hlength,
        by simp [writtenAll, hold], by simp [writtenAll, hnew], ⟨hfits, h.2⟩,
        .cons hresembles (h.2.resemble_self hrest_tight)⟩
    · obtain ⟨inner, back, phrases', rfl, hlength, hold, hnew, hfits, hresemble⟩ :=
        AllFit.insert hblanks htakes (before ++ phrase.written) h.2 hrest_tight hseam
      -- The phrase in front fits as before, since the opening of a tag still comes behind it.
      have hphrase : phrase.Fits (writtenAll phrases' ++ s) := by
        have hphrase := h.1
        rw [hold, List.append_assoc] at hphrase
        rw [hnew, List.append_assoc]
        exact hphrase.beyond _ fun _ => hlength
      refine ⟨phrase.written ++ inner, back, phrase :: phrases', by simp, ?_,
        by simp [writtenAll, hold], by simp [writtenAll, hnew], ⟨hphrase, hfits⟩,
        .cons (h.1.resembles_self hphrase_tight) hresemble⟩
      rw [List.length_append]
      omega

end

/-- With blanks at a seam that does not take them, a source is a template that is alike. -/
theorem Parses.insert {front back blanks : List Char} {limit : Int} {machine : Machine}
    {phrases : List Phrase} (h : Parses (front ++ back) limit machine phrases)
    (hseam : IsSeamAll [] front phrases)
    (hblanks : AllBlank blanks) (htakes : blanks = [] ∨ ¬TakesBlanks front) :
    ∃ phrases', Parses (front ++ (blanks ++ back)) limit machine phrases' ∧
      (template phrases').alike (template phrases) = true := by
  obtain ⟨⟨hwritten, hfits⟩, htight, hdepth, hdepth_build⟩ := h
  obtain ⟨inner, back', phrases', rfl, hbecome⟩ :=
    AllFit.insert hblanks htakes [] hfits htight hseam
  obtain rfl : back' = back := by
    rw [hbecome.written_eq] at hwritten
    exact List.append_cancel_left hwritten
  have hdepth_eq := depthAll_eq hbecome.resemble
  refine ⟨phrases', ⟨⟨hbecome.written_eq', hbecome.fits⟩, pathsAll_tight hbecome.resemble, ?_, ?_⟩,
    allAlike_segments hbecome.resemble [] []⟩
  · rwa [hdepth_eq]
  · rwa [hdepth_eq]

end Phrase

end Stencil
