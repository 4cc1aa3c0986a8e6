-- SUMMARY: Blanks at seams change nothing, but for two kinds of words that they come right behind.
import Stencil.Proofs.Seams

/-! # Taken blanks

Blanks at a seam change something in two cases only. A keyword alone in front of the seam, as in
`#{if}`, opens a block once a blank follows it; and a name that ends in blanks and the word
`in` ends in front of these once another blank follows. Either way the source is no template
anymore: the block has a mark where its first name should be, and a substitution has no place for
the word `in`. What comes in front of the seam is read as before, so reading stops there.
-/

namespace Stencil

open Text (isBlank trimEnd)
open Name (isNameChar)

/-! ## The name at the end of a text -/

/-- What a name may start behind: the opening of a tag, a dot or a filter bar. -/
def IsMark (c : Char) : Prop := c = '{' ∨ c = '.' ∨ c = '|'

variable {mark : Char}

theorem IsMark.not_blank (h : IsMark mark) : isBlank mark = false := by
  rcases h with rfl | rfl | rfl <;> decide

theorem IsMark.not_nameChar (h : IsMark mark) : isNameChar mark = false := by
  rcases h with rfl | rfl | rfl <;> decide

/-- The last character behind a mark and blanks is a blank, or it is the mark. -/
theorem last_of_blanks {u v blanks : List Char} {c : Char} (hblanks : AllBlank blanks)
    (heq : u ++ mark :: blanks = v ++ [c]) :
    isBlank c = true ∨ c = mark ∧ v = u ∧ blanks = [] := by
  rcases List.eq_nil_or_concat blanks with rfl | ⟨init, d, rfl⟩
  · obtain ⟨rfl, hc⟩ := List.append_inj' heq rfl
    exact .inr ⟨(List.singleton_inj.1 hc).symm, rfl, rfl⟩
  · rw [List.concat_eq_append] at heq hblanks
    have hsplit : u ++ mark :: init ++ [d] = v ++ [c] := by simpa using heq
    obtain rfl := List.singleton_inj.1 (List.append_inj' hsplit rfl).2
    exact .inl (hblanks d (by simp))

/-- A mark and blanks do not end in a name character. -/
theorem IsMark.last_not_nameChar (hmark : IsMark mark) {u v blanks : List Char} {c : Char}
    (hblanks : AllBlank blanks) (heq : u ++ mark :: blanks = v ++ [c]) : isNameChar c = false := by
  rcases last_of_blanks hblanks heq with hc | ⟨rfl, -, -⟩
  · exact isNameChar_of_isBlank hc
  · exact hmark.not_nameChar

/-- The last visible character of a text. -/
theorem eq_of_append_blanks {u v blanks blanks' : List Char} {c d : Char}
    (heq : u ++ c :: blanks = v ++ d :: blanks') (hc : isBlank c = false) (hd : isBlank d = false)
    (hblanks : AllBlank blanks) (hblanks' : AllBlank blanks') : c = d := by
  have htrim : ∀ {w s : List Char} {e : Char}, isBlank e = false → AllBlank s →
      trimEnd (w ++ e :: s) = w ++ [e] := by
    intro w s e he hs
    rw [List.append_cons, trimEnd_append_blanks hs]
    simp [trimEnd, he]
  have hends := congrArg trimEnd heq
  rw [htrim hc hblanks, htrim hd hblanks'] at hends
  exact List.singleton_inj.1 (List.append_inj' hends rfl).2

/-- A name is made of name characters and blanks. -/
theorem IsName.nameChar_or_blank {name following : List Char} (h : IsName name following) {c : Char}
    (hc : c ∈ name) : isNameChar c = true ∨ isBlank c = true := by
  obtain ⟨u, v, rfl⟩ := List.append_of_mem hc
  exact (h.goesOn u c v rfl).imp_right And.left

/-- Of two ways to cut a text one is further in the front, or they are the same. -/
theorem append_eq_append_cases {p s q t : List Char} (heq : p ++ s = q ++ t) :
    (p = q ∧ s = t) ∨ (∃ a c, q = p ++ a ++ [c] ∧ s = a ++ c :: t) ∨
      ∃ a c, p = q ++ a ++ [c] ∧ t = a ++ c :: s := by
  rcases List.append_eq_append_iff.1 heq with ⟨a, rfl, rfl⟩ | ⟨a, rfl, rfl⟩ <;>
    rcases List.eq_nil_or_concat a with rfl | ⟨init, c, rfl⟩
  · simp
  · exact .inr (.inl ⟨init, c, by simp, by simp⟩)
  · simp
  · exact .inr (.inr ⟨init, c, by simp, by simp⟩)

/-- If a text loses its last word, so does the name at its end. -/
theorem LosesWord.endsInWord (hmark : IsMark mark) {u blanks name : List Char}
    (h : LosesWord (u ++ mark :: blanks ++ name)) (hblanks : AllBlank blanks) :
    EndsInWord name := by
  obtain ⟨v, c, gap, heq, hc, hgap, hne⟩ := h
  have hcut : u ++ mark :: blanks ++ name = v ++ c :: gap ++ ['i', 'n'] := by simpa using heq
  rcases append_eq_append_cases hcut with
    ⟨hfront, -⟩ | ⟨a, d, hfront, rfl⟩ | ⟨a, d, hfront, hword⟩
  · obtain rfl := eq_of_append_blanks hfront hmark.not_blank (isBlank_of_isNameChar hc) hblanks hgap
    rw [hmark.not_nameChar] at hc
    cases hc
  · refine ⟨a, d, rfl, ?_⟩
    rcases last_of_blanks hgap hfront with hd | ⟨-, -, hnil⟩
    · exact hd
    · exact absurd hnil hne
  · -- The name would have to start within the word.
    have hd := hmark.last_not_nameChar hblanks hfront
    have hmem : d ∈ ['i', 'n'] := by
      rw [hword]
      simp
    have hword_all : ['i', 'n'].all isNameChar = true := by decide
    rw [List.all_eq_true.1 hword_all d hmem] at hd
    cases hd

/-- If a text ends in the opening of a tag and a keyword, the name at its end is that keyword. -/
theorem IsName.eq_keyword (hmark : IsMark mark) {kind : BlockKind}
    {name following u v blanks keyword : List Char} (h : IsName name following)
    (hblanks : AllBlank blanks) (hkeyword : InAnyCase kind.keyword keyword)
    (heq : u ++ mark :: blanks ++ name = v ++ '#' :: '{' :: keyword) :
    name = keyword ∧ mark = '{' ∧ u = v ++ ['#'] ∧ blanks = [] := by
  have hcut : u ++ mark :: blanks ++ name = v ++ ['#'] ++ ['{'] ++ keyword := by simpa using heq
  rcases append_eq_append_cases hcut with
    ⟨hfront, rfl⟩ | ⟨a, d, hfront, rfl⟩ | ⟨a, d, hfront, hword⟩
  · rcases last_of_blanks hblanks hfront with hbrace | ⟨rfl, rfl, rfl⟩
    · exact absurd hbrace (by decide)
    · exact ⟨rfl, rfl, rfl, rfl⟩
  · -- The name would have the brace in it.
    obtain rfl := List.singleton_inj.1 (List.append_inj' hfront rfl).2
    rcases h.nameChar_or_blank (c := '{') (by simp) with hc | hc <;>
      exact absurd hc (by decide)
  · -- The keyword would have the mark or a blank in it.
    have hd := hmark.last_not_nameChar hblanks hfront
    rw [hkeyword.isNameChar_of_mem (c := d) (by simp [hword])] at hd
    cases hd

/-- A text that takes blanks ends in a word. -/
theorem TakesBlanks.last {v : List Char} {c : Char} (h : TakesBlanks (v ++ [c])) :
    isNameChar c = true := by
  rcases h with ⟨u, keyword, kind, heq, hkeyword⟩ | ⟨u, d, blanks, heq, -, -, -⟩
  · rcases List.eq_nil_or_concat keyword with rfl | ⟨init, d, rfl⟩
    · have hlength := List.Forall₂.length_eq hkeyword
      cases kind <;> cases hlength
    · rw [List.concat_eq_append] at heq hkeyword
      have hlast : v ++ [c] = u ++ '#' :: '{' :: init ++ [d] := by simpa using heq
      obtain rfl := List.singleton_inj.1 (List.append_inj' hlast rfl).2
      exact hkeyword.isNameChar_of_mem (by simp)
  · have hlast : v ++ [c] = u ++ d :: (blanks ++ ['i']) ++ ['n'] := by simpa using heq
    obtain rfl := List.singleton_inj.1 (List.append_inj' hlast rfl).2
    decide

/-! ## Seams that take blanks -/

/-- A seam is behind a filter bar, or in front of a mark with blanks between it and a chain. -/
theorem FilterForm.IsSeam.exists_chain {before trail front s : List Char} {subject : PathForm}
    {filters : List FilterForm} (hseam : IsSeam (before ++ subject.written) filters trail front)
    (hfits : ChainForm.Fits (trail ++ '}' :: s) ⟨subject, filters⟩) (htrail : AllBlank trail) :
    (∃ u, front = u ++ ['|']) ∨
      ∃ (c : ChainForm) (gap : List Char) (stop : Char) (t : List Char), IsStop stop ∧
        front = before ++ c.written ++ gap ∧ AllBlank gap ∧ c.Fits (gap ++ stop :: t) ∧
        subject.written ++ (writtenAll filters ++ (trail ++ '}' :: s)) =
          c.written ++ (gap ++ stop :: t) := by
  cases hseam with
  | beforeBar init more f split =>
    subst split
    obtain ⟨hinit, ⟨hgap, -, -⟩, -⟩ := ChainForm.fits_append_iff.1 hfits
    refine .inr ⟨⟨subject, init⟩, f.gap, '|',
      f.blanks ++ (f.chars ++ (writtenAll more ++ (trail ++ '}' :: s))), .inl rfl, ?_, hgap, ?_, ?_⟩
    · simp [ChainForm.written]
    · simpa [written] using hinit
    · simp [ChainForm.written, writtenAll_append, written]
  | behindBar init more f split => exact .inl ⟨_, rfl⟩
  | beforeBrace =>
    refine .inr ⟨⟨subject, filters⟩, trail, '}', s, .inr rfl, ?_, htrail, hfits, ?_⟩
    · simp [ChainForm.written]
    · simp [ChainForm.written]

/-- The text ends in a name of a tag, right in front of a mark of it. What stands in front of the
    tag and what it is made of are given. -/
structure EndsInName (before front tag lead name : List Char) (stop : Char) (t : List Char) :
    Prop where
  isStop : IsStop stop
  behind : BehindMark lead
  front_eq : front = before ++ (lead ++ name)
  tag_eq : tag = lead ++ name ++ stop :: t
  isName : IsName name (stop :: t)
  /-- There may be another name in its place. -/
  rename : ∀ (f : List Char → List Char) following', IsName (f name) following' →
    ∃ c : ChainForm, c.Fits following' ∧ c.written = lead ++ f name

/-- A seam that takes blanks is right behind a name, in front of a mark. -/
theorem FilterForm.IsSeam.exists_name {before trail front s : List Char} {subject : PathForm}
    {filters : List FilterForm} (hseam : IsSeam (before ++ subject.written) filters trail front)
    (hfits : ChainForm.Fits (trail ++ '}' :: s) ⟨subject, filters⟩) (htrail : AllBlank trail)
    (htakes : TakesBlanks front) :
    ∃ lead name stop t, EndsInName before front
      (subject.written ++ (writtenAll filters ++ (trail ++ '}' :: s))) lead name stop t := by
  rcases hseam.exists_chain hfits htrail with
    ⟨u, rfl⟩ | ⟨c, gap, stop, t, hstop, rfl, hgap, hc, hwritten⟩
  · exact absurd htakes.last (by decide)
  · rcases List.eq_nil_or_concat gap with rfl | ⟨init, d, rfl⟩
    · cases hc.end with
      | index lead written_eq fits =>
        rw [written_eq, List.append_nil, ← List.append_assoc] at htakes
        exact absurd htakes.last (by decide)
      | name lead name written_eq isName behind rename =>
        refine ⟨lead, name, stop, t, hstop, behind, by simp [written_eq], ?_, isName,
          fun f following' hf => ?_⟩
        · simpa [written_eq] using hwritten
        · obtain ⟨c', hc', hw, -⟩ := rename f following' hf
          exact ⟨c', hc', hw⟩
    · rw [List.concat_eq_append] at htakes hgap
      rw [← List.append_assoc] at htakes
      have hd := htakes.last
      rw [isNameChar_of_isBlank (hgap d (by simp))] at hd
      cases hd

/-! ## Reading up to a seam -/

/-- A name without its last word is a name, if that word is followed by blanks. -/
theorem IsName.without_word {u following blanks t : List Char} {c : Char}
    (h : IsName (u ++ [c, 'i', 'n']) following) (hc : isBlank c = true) (hblanks : AllBlank blanks)
    (hne : blanks ≠ []) : IsName u (c :: 'i' :: 'n' :: (blanks ++ t)) := by
  have hu : u ≠ [] := by
    rintro rfl
    obtain ⟨d, s, hs, hd⟩ := h.starts
    obtain ⟨rfl, -⟩ := List.cons.inj hs
    rw [isNameChar_of_isBlank hc] at hd
    cases hd
  have hword : EndsName ('i' :: 'n' :: (blanks ++ t)) := by
    obtain ⟨d, blanks, rfl⟩ := List.exists_cons_of_ne_nil hne
    exact .inr ⟨d, blanks ++ t, rfl, hblanks.head⟩
  apply h.shorten hu
  · intro d s hs
    obtain ⟨rfl, rfl⟩ := List.cons.inj hs
    rintro (hd | ⟨-, hends⟩)
    · rw [isNameChar_of_isBlank hc] at hd
      cases hd
    · exact hends hword
  · intro v d w hsplit hd hends
    rcases hends.of_append with hw | ⟨rfl, ⟨s, hs⟩ | ⟨e, s, hs, -⟩⟩ | ⟨-, s, hs⟩ | ⟨rfl, -⟩
    · exact hw
    · obtain ⟨rfl, -⟩ := List.cons.inj hs
      exact absurd hc (by decide)
    · obtain ⟨rfl, -⟩ := List.cons.inj hs
      exact absurd hc (by decide)
    · obtain ⟨rfl, -⟩ := List.cons.inj hs
      exact absurd hc (by decide)
    · -- The name would have ended in front of an earlier `in`.
      rcases h.goesOn v d ['i', 'n', c, 'i', 'n'] (by simp [hsplit]) with hd' | ⟨-, hnot⟩
      · rw [isNameChar_of_isBlank hd] at hd'
        cases hd'
      · exact absurd (.inr ⟨c, _, rfl, hc⟩) hnot

/-- The place behind a path or the name of a filter, in a substitution. -/
inductive Place.IsChainEnd (start : Position) : Place → Prop
  | part (parts : List Part) : IsChainEnd start (.afterPart (.substitution start) parts)
  | filter (subject : List Part) (names : List Token) :
    IsChainEnd start (.afterFilter start subject names)

namespace Reading

variable (blocks : List (Head × List Node)) (done : List Node)

/-- A path with filters is read from the blanks in front of it to the end of the last name. -/
theorem run_chain (start : Position) (before : List Char) {lead rest : List Char} {c : ChainForm}
    (hlead : AllBlank lead) (h : c.Fits rest) :
    ∃ place, Place.IsChainEnd start place ∧
      (Reading.mk blocks done (.step (.substitution start) [])).run (.after before)
          (lead ++ (c.written ++ rest)) =
        (Reading.mk blocks done place).run (.after (before ++ lead ++ c.written)) rest := by
  obtain ⟨subject, filters⟩ := c
  have hpath := run_path blocks done (.substitution start) before hlead h.subject
  cases filters with
  | nil =>
    refine ⟨_, .part (subject.parts before lead rest).reverse, ?_⟩
    simpa [ChainForm.written, FilterForm.writtenAll] using hpath
  | cons f filters =>
    rw [run_first_filters blocks done start _ _ h.filters] at hpath
    simp only [ChainForm.written, List.append_assoc] at hpath ⊢
    exact ⟨_, .filter _ _, hpath⟩

/-- In a substitution there is no place for the word `in`. -/
theorem run_word {start : Position} {place : Place} (hplace : place.IsChainEnd start)
    (before : List Char) {lead blanks : List Char} (rest : List Char) (hlead : AllBlank lead)
    (hblanks : AllBlank blanks) (hne : blanks ≠ []) :
    ∃ f, (Reading.mk blocks done place).run (.after before)
      (lead ++ 'i' :: 'n' :: (blanks ++ rest)) = .error f := by
  have hscan := Scan.ofSource_inWord rest hlead hblanks hne
  cases hplace with
  | part parts =>
    rcases Place.admitted_afterPart (.substitution start) parts with ha | ha
    · refine ⟨_, run_token_refused _ ((congrArg (Scan.ofSource · _) ha).trans hscan) ?_⟩
      exact shift_afterPart blocks done _ parts _ _
    · refine ⟨_, run_stuck _ ((congrArg (Scan.ofSource · _) ha).trans
        (Scan.ofSource_eq_stuck ?_ hlead (by decide) rfl))⟩
      simp [Scan.SkipsBlanks, Scan.followers]
  | filter subject names => exact ⟨_, run_token_refused _ hscan rfl⟩

/-- A substitution that loses the last word of a name is not read beyond that name. -/
theorem run_lost_word {r : Reading} (hr : r.place.IsBody) (before : List Char)
    {lead gap blanks rest : List Char} {c : ChainForm} (hlead : AllBlank lead)
    (hc : c.Fits (gap ++ 'i' :: 'n' :: (blanks ++ rest))) (hgap : AllBlank gap)
    (hblanks : AllBlank blanks) (hne : blanks ≠ [])
    (hslash : ∀ t, lead ++ (c.written ++ (gap ++ 'i' :: 'n' :: (blanks ++ rest))) ≠ '/' :: t)
    (hblock : ¬StartsBlock (lead ++ (c.written ++ (gap ++ 'i' :: 'n' :: (blanks ++ rest))))) :
    ∃ f, r.run (.after before)
      ('#' :: '{' :: (lead ++ (c.written ++ (gap ++ 'i' :: 'n' :: (blanks ++ rest))))) =
        .error f := by
  obtain ⟨place, hplace, hchain⟩ := run_chain r.blocks r.nodes (.after before)
    (before ++ ['#', '{']) hlead hc
  rw [run_opening before hr hslash hblock, hchain]
  exact run_word r.blocks r.nodes hplace _ rest hgap hblanks hne

/-- The opening of a block is followed by a name. -/
theorem shiftNode_opener (r : Reading) (kind : BlockKind) (before written : List Char) :
    ∃ place, r.shiftNode ⟨.opener kind, .after before, [], written⟩ =
      some ⟨r.blocks, r.nodes, place⟩ ∧ place.admitted = [.name] := by
  cases kind <;> exact ⟨_, rfl, rfl⟩

/-- With blanks behind the keyword that it starts with, a substitution becomes a block without a
    name. -/
theorem run_keyword {r : Reading} (hr : r.place.IsBody) (before : List Char) {kind : BlockKind}
    {keyword blanks : List Char} (hkeyword : InAnyCase kind.keyword keyword)
    (hblanks : AllBlank blanks) (hne : blanks ≠ []) {stop : Char} (hstop : IsStop stop)
    (rest : List Char) :
    ∃ f, r.run (.after before) ('#' :: '{' :: (keyword ++ (blanks ++ stop :: rest))) =
      .error f := by
  have hvisible : StartsVisible (stop :: rest) := by
    intro c s hc
    obtain ⟨rfl, -⟩ := List.cons.inj hc
    exact hstop.not_blank
  have hfirst := Scan.readFirst_opener hkeyword hblanks hne hvisible
  obtain ⟨place, hshift, hname⟩ := r.shiftNode_opener kind before
    ('#' :: '{' :: (keyword ++ blanks))
  have hstuck : Scan.ofSource place.admitted ([] ++ stop :: rest) = .stuck [] stop := by
    rw [hname]
    apply Scan.ofSource_eq_stuck (by simp [Scan.SkipsBlanks]) .nil hstop.not_blank
    rcases hstop with rfl | rfl <;> rfl
  rw [run_start before hr hfirst hshift]
  exact ⟨_, run_stuck _ hstuck⟩

end Reading

/-! ## Sources with blanks that are taken -/

/-- A text that comes after another one is cut in front of the given blanks. With them put in it is
    not read to its end wherever a tag may start. -/
def Breaks (blanks before front text : List Char) : Prop :=
  ∃ inner back, front = before ++ inner ∧ text = inner ++ back ∧ 2 ≤ inner.length ∧
    ∀ r : Reading, r.place.IsBody →
      ∃ f, r.run (.after before) (inner ++ (blanks ++ back)) = .error f

/-- A name may start behind a mark and blanks. -/
theorem BehindMark.exists_mark {lead : List Char} (h : BehindMark lead) (before : List Char)
    {blanks : List Char} (hblanks : AllBlank blanks) :
    ∃ u mark blanks', IsMark mark ∧ AllBlank blanks' ∧
      before ++ '#' :: '{' :: blanks ++ lead = u ++ mark :: blanks' ∧
      (mark = '{' → lead = [] ∧ blanks' = blanks) := by
  rcases h with rfl | ⟨u, mark, blanks', rfl, hmark, hblanks'⟩
  · exact ⟨before ++ ['#'], '{', blanks, .inl rfl, hblanks, by simp, fun _ => ⟨rfl, rfl⟩⟩
  · refine ⟨before ++ '#' :: '{' :: blanks ++ u, mark, blanks', .inr hmark, hblanks', by simp, ?_⟩
    rintro rfl
    rcases hmark with hmark | hmark <;> cases hmark

namespace Phrase

/-- With blanks at a seam that takes them, a substitution breaks. -/
theorem Fits.breaks_substitution {blanks front before lead trail s : List Char}
    {subject : PathForm} {filters : List FilterForm} (hblanks : AllBlank blanks)
    (hne : blanks ≠ []) (htakes : TakesBlanks front)
    (h : (substitution lead subject filters trail).Fits s) (htight : subject.Tight)
    (hseam : (substitution lead subject filters trail).IsSeam before front) :
    Breaks blanks before front ((substitution lead subject filters trail).written ++ s) := by
  obtain ⟨hslash, hblock, hlead, hsubject, hfilters, htrail⟩ := h
  have hchain : ChainForm.Fits (trail ++ '}' :: s) ⟨subject, filters⟩ :=
    ⟨by rwa [← List.append_assoc], htight, hfilters⟩
  have hseam' : FilterForm.IsSeam (before ++ '#' :: '{' :: lead ++ subject.written) filters trail
      front := by
    simpa [IsSeam] using hseam
  obtain ⟨start, name, stop, t, hstop, hbehind, rfl, htext, hname, hrename⟩ :=
    hseam'.exists_name hchain htrail htakes
  have hinside : inside lead subject filters trail s =
      lead ++ (start ++ name) ++ stop :: t := by
    simpa [inside] using congrArg (lead ++ ·) htext
  refine ⟨'#' :: '{' :: (lead ++ (start ++ name)), stop :: t, by simp, ?_, by simp, ?_⟩
  · have := congrArg ('#' :: '{' :: ·) hinside
    simpa [written, inside] using this
  intro r hr
  obtain ⟨u, mark, gap, hmark, hgap, hfront, hopening⟩ := hbehind.exists_mark before hlead
  rw [← List.append_assoc, hfront] at htakes
  rcases htakes with ⟨v, keyword, kind, heq, hkeyword⟩ | hloses
  · -- The keyword is all there is in front of the seam, so the tag becomes a block.
    obtain ⟨rfl, rfl, rfl, rfl⟩ := hname.eq_keyword hmark hgap hkeyword heq
    obtain ⟨rfl, rfl⟩ := hopening rfl
    simpa using r.run_keyword hr before hkeyword hblanks hne hstop t
  · -- The tag stays a substitution, since there is a blank in the name.
    obtain ⟨v, c, rfl, hc⟩ := hloses.endsInWord hmark hgap
    obtain ⟨chain, hchain', hw⟩ := hrename (fun _ => v) _
      (hname.without_word (t := stop :: t) hc hblanks hne)
    have hkeyword : ∀ kind : BlockKind,
        ¬InAnyCase kind.keyword (lead ++ (start ++ (v ++ [c, 'i', 'n']))) := by
      intro kind hk
      have hnot := hk.isNameChar_of_mem (c := c) (by simp)
      rw [isNameChar_of_isBlank hc] at hnot
      cases hnot
    rw [hinside] at hslash hblock
    obtain ⟨hslash', hblock'⟩ := inside_insert (by simp) hslash hblock hblanks (.inr hkeyword)
    have hblank : AllBlank [c] := by
      simpa [AllBlank] using hc
    have htag : lead ++ (start ++ (v ++ [c, 'i', 'n'])) ++ (blanks ++ stop :: t) =
        lead ++ (chain.written ++ ([c] ++ 'i' :: 'n' :: (blanks ++ stop :: t))) := by
      simp [hw]
    rw [htag] at hslash' hblock'
    obtain ⟨f, hf⟩ := r.run_lost_word hr before hlead hchain' hblank hblanks hne hslash' hblock'
    refine ⟨f, ?_⟩
    rwa [← htag] at hf

mutual

/-- With blanks that are taken at a seam in it, a phrase is one no longer. -/
theorem Fits.breaks {blanks front s : List Char} (hblanks : AllBlank blanks) (hne : blanks ≠ [])
    (htakes : TakesBlanks front) (before : List Char) :
    ∀ {phrase : Phrase}, phrase.Fits s → (∀ p ∈ phrase.paths, p.Tight) →
      phrase.IsSeam before front → Breaks blanks before front (phrase.written ++ s)
  | .text _, _, _, hseam => False.elim hseam
  | .substitution lead subject filters trail, h, htight, hseam =>
    Fits.breaks_substitution hblanks hne htakes h (List.forall_mem_singleton.1 htight) hseam
  | .block head body, h, htight, hseam => by
    obtain ⟨hhead, hbody⟩ := h
    obtain ⟨-, hbody_tight⟩ := List.forall_mem_cons.1 htight
    obtain ⟨inner, back, rfl, htext, hlength, hbreaks⟩ :=
      AllFit.breaks hblanks hne htakes (before ++ head.written) hbody hbody_tight hseam
    refine ⟨head.written ++ inner, back, by simp, ?_, ?_, fun r hr => ?_⟩
    · simp [written, ← htext]
    · rw [List.length_append]
      omega
    · obtain ⟨f, hf⟩ := hbreaks (r.enter (head.head before (inner ++ (blanks ++ back)))) trivial
      refine ⟨f, ?_⟩
      rw [List.append_assoc, Reading.run_head before hr (hhead.beyond _), hf]

/-- With blanks at a seam that takes them, phrases break. -/
theorem AllFit.breaks {blanks front s : List Char} (hblanks : AllBlank blanks) (hne : blanks ≠ [])
    (htakes : TakesBlanks front) (before : List Char) :
    ∀ {phrases : List Phrase}, AllFit s phrases → (∀ p ∈ pathsAll phrases, p.Tight) →
      IsSeamAll before front phrases → Breaks blanks before front (writtenAll phrases ++ s)
  | [], _, _, hseam => False.elim hseam
  | phrase :: phrases, h, htight, hseam => by
    obtain ⟨hphrase_tight, hrest_tight⟩ := List.forall_mem_append.1 htight
    rcases hseam with hseam | hseam
    · have := Fits.breaks hblanks hne htakes before h.1 hphrase_tight hseam
      simpa [writtenAll] using this
    · obtain ⟨inner, back, rfl, htext, hlength, hbreaks⟩ :=
        AllFit.breaks hblanks hne htakes (before ++ phrase.written) h.2 hrest_tight hseam
      refine ⟨phrase.written ++ inner, back, by simp, ?_, ?_, fun r hr => ?_⟩
      · simp [writtenAll, ← htext]
      · rw [List.length_append]
        omega
      · have hphrase := h.1
        rw [htext] at hphrase
        have hphrase' := hphrase.beyond (blanks ++ back) fun _ => hlength
        obtain ⟨f, hf⟩ := hbreaks (r.add (phrase.node before (inner ++ (blanks ++ back)))) trivial
        refine ⟨f, ?_⟩
        rw [List.append_assoc, Reading.run_phrase before hr hphrase', hf]

end

/-- With blanks at a seam that takes them, a source is no template. -/
theorem Parses.breaks {front back blanks : List Char} {limit : Int} {machine : Machine}
    {phrases : List Phrase} (h : Parses (front ++ back) limit machine phrases)
    (hseam : IsSeamAll [] front phrases)
    (hblanks : AllBlank blanks) (hne : blanks ≠ []) (htakes : TakesBlanks front) :
    ∃ f, readOutline (front ++ (blanks ++ back)) = .error f := by
  obtain ⟨⟨hwritten, hfits⟩, htight, -, -⟩ := h
  obtain ⟨inner, back', rfl, htext, -, hbreaks⟩ :=
    AllFit.breaks hblanks hne htakes [] hfits htight hseam
  obtain rfl : back' = back := by
    rw [hwritten, List.append_nil] at htext
    exact (List.append_cancel_left htext).symm
  obtain ⟨f, hf⟩ := hbreaks Reading.template trivial
  have hrun : Reading.template.run .start (front ++ (blanks ++ back')) = .error f := hf
  exact ⟨f, by simp [readOutline, hrun, bind, Except.bind]⟩

end Phrase

/-- Blanks around a filter bar or in front of the brace at the end of a substitution do not change
    what a source stands for, nor whether it is a template. There are two exceptions, in which the
    source is none anymore: with blanks behind it the keyword of a block makes one of the tag, and
    a last word `in` is split off its name. -/
theorem parseTemplate_insert_blanks {front back blanks : String} {limit : Int} {machine : Machine}
    {t : Template} (ht : parseTemplate (front ++ back) limit machine = .ok t)
    (hseam : IsSeam front back) (hblanks : AllBlank blanks.toList) :
    (blanks = "" ∨ ¬TakesBlanks front.toList →
      ∃ u, parseTemplate (front ++ blanks ++ back) limit machine = .ok u ∧ u.alike t = true) ∧
    (blanks ≠ "" → TakesBlanks front.toList →
      ∃ e, parseTemplate (front ++ blanks ++ back) limit machine = .error (.parse e)) := by
  obtain ⟨phrases, hparses, rfl⟩ := parses_of_parseTemplate ht
  obtain ⟨_, hderives, hseam⟩ := hseam
  obtain rfl := hderives.unique hparses.derives
  rw [String.toList_append] at hparses
  have hsource : (front ++ blanks ++ back).toList =
      front.toList ++ (blanks.toList ++ back.toList) := by
    simp
  constructor
  · intro htakes
    have hempty : blanks.toList = [] ∨ ¬TakesBlanks front.toList := by
      refine htakes.imp_left ?_
      rintro rfl
      rfl
    obtain ⟨phrases', hparses', halike⟩ := hparses.insert hseam hblanks hempty
    rw [← hsource] at hparses'
    exact ⟨_, (parseTemplate_of_derives limit machine hparses'.derives).1 hparses', halike⟩
  · intro hne htakes
    have hne' : blanks.toList ≠ [] := by
      simpa using hne
    obtain ⟨f, hf⟩ := hparses.breaks hseam hblanks hne' htakes
    rw [← hsource] at hf
    exact ⟨_, parseTemplate_of_fault limit machine hf⟩

/-- A tag about a single name, with filters behind it. -/
private theorem derives_tag {name : List Char} {filters : List FilterForm}
    (hname : IsName name (FilterForm.writtenAll filters ++ ['}']))
    (hfilters : FilterForm.AllFit ['}'] filters) (hslash : name.head? ≠ some '/')
    (hblock : ¬StartsBlock (name ++ (FilterForm.writtenAll filters ++ ['}']))) :
    Phrase.Derives ('#' :: '{' :: (name ++ (FilterForm.writtenAll filters ++ ['}'])))
      [.substitution [] ⟨name, []⟩ filters []] := by
  have hinside : Phrase.inside [] ⟨name, []⟩ filters [] [] =
      name ++ (FilterForm.writtenAll filters ++ ['}']) := by
    simp [Phrase.inside, PathForm.written, StepForm.writtenAll]
  refine ⟨by simp [Phrase.writtenAll, Phrase.written, hinside], ⟨?_, ?_, .nil, ?_, hfilters, .nil⟩,
    trivial⟩
  · obtain ⟨c, s, rfl, -⟩ := hname.starts
    intro t ht
    rw [Phrase.writtenAll, List.nil_append, hinside] at ht
    obtain ⟨rfl, -⟩ := List.cons.inj ht
    exact hslash rfl
  · rwa [Phrase.writtenAll, List.nil_append, hinside]
  · refine ⟨?_, trivial⟩
    simpa [StepForm.writtenAll, Phrase.writtenAll] using hname

private theorem isSeam_if : IsSeam "#\x7bif" "\x7d" := by
  refine ⟨[.substitution [] ⟨['i', 'f'], []⟩ [] []], ?_, .inl .beforeBrace⟩
  exact derives_tag (isName_of_split (s := ['i', 'f', '}']) rfl (by simp)) trivial
    (by decide) (by decide)

theorem parseTemplate_insert_blanks_bar :
    (∃ t u, parseTemplate "#\x7ba |b\x7d" = .ok t ∧ parseTemplate "#\x7ba  |b\x7d" = .ok u ∧
      u.alike t = true) ∧
    ∃ t e, parseTemplate "#\x7bif\x7d" = .ok t ∧
      parseTemplate "#\x7bif \x7d" = .error (.parse e) := by
  have hspace : AllBlank " ".toList := .space
  constructor
  · have hok : (parseTemplate ("#\x7ba " ++ "|b\x7d")).toBool = true := by decide +kernel
    obtain ⟨t, ht⟩ := exists_of_toBool hok
    have hseam : IsSeam "#\x7ba " "|b\x7d" := by
      refine ⟨[.substitution [] ⟨['a'], []⟩ [⟨[' '], [], ['b']⟩] []], ?_,
        .inl (.beforeBar [] [] _ rfl)⟩
      exact derives_tag (isName_of_split (s := ['a', ' ', '|', 'b', '}']) rfl (by simp))
        ⟨⟨.space, .nil, isName_of_split (s := ['b', '}']) rfl (by simp)⟩, trivial⟩
        (by decide) (by decide)
    have hleft : ¬TakesBlanks "#\x7ba ".toList :=
      fun htakes => absurd (TakesBlanks.last (v := ['#', '{', 'a']) htakes) (by decide)
    obtain ⟨u, hu, halike⟩ := (parseTemplate_insert_blanks ht hseam hspace).1 (.inr hleft)
    exact ⟨t, u, ht, hu, halike⟩
  · have hok : (parseTemplate ("#\x7bif" ++ "\x7d")).toBool = true := by decide +kernel
    obtain ⟨t, ht⟩ := exists_of_toBool hok
    have htakes : TakesBlanks "#\x7bif".toList :=
      .inl ⟨[], ['i', 'f'], .holds, rfl, .cons rfl (.cons rfl .nil)⟩
    obtain ⟨e, he⟩ := (parseTemplate_insert_blanks ht isSeam_if hspace).2 (by decide) htakes
    exact ⟨t, e, ht, he⟩

/-- With a blank behind it, neither a keyword alone in a tag nor a last word `in` is part of a name
    anymore. -/
theorem parseTemplate_insert_blanks_word :
    (∃ t e, parseTemplate ("#\x7bif" ++ "\x7d") = .ok t ∧ IsSeam "#\x7bif" "\x7d" ∧
      parseTemplate ("#\x7bif" ++ " " ++ "\x7d") = .error e) ∧
    ∃ t e, parseTemplate ("#\x7ba in" ++ "|b\x7d") = .ok t ∧ IsSeam "#\x7ba in" "|b\x7d" ∧
      parseTemplate ("#\x7ba in" ++ " " ++ "|b\x7d") = .error e := by
  constructor
  · have hok : (parseTemplate ("#\x7bif" ++ "\x7d")).toBool = true := by decide +kernel
    have hnot : (parseTemplate ("#\x7bif" ++ " " ++ "\x7d")).toBool = false := by decide +kernel
    obtain ⟨t, ht⟩ := exists_of_toBool hok
    obtain ⟨e, he⟩ := exists_error_of_toBool hnot
    exact ⟨t, e, ht, isSeam_if, he⟩
  · have hok : (parseTemplate ("#\x7ba in" ++ "|b\x7d")).toBool = true := by decide +kernel
    have hnot : (parseTemplate ("#\x7ba in" ++ " " ++ "|b\x7d")).toBool = false := by
      decide +kernel
    obtain ⟨t, ht⟩ := exists_of_toBool hok
    obtain ⟨e, he⟩ := exists_error_of_toBool hnot
    refine ⟨t, e, ht, ⟨[.substitution [] ⟨['a', ' ', 'i', 'n'], []⟩ [⟨[], [], ['b']⟩] []], ?_,
      .inl (.beforeBar [] [] _ rfl)⟩, he⟩
    exact derives_tag
      (isName_of_split (s := ['a', ' ', 'i', 'n', '|', 'b', '}']) rfl (by simp))
      ⟨⟨.nil, .nil, isName_of_split (s := ['b', '}']) rfl (by simp)⟩, trivial⟩
      (by decide) (by decide)

end Stencil
