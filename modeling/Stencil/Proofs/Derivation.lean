-- SUMMARY: A source that is read without a fault is made of phrases, which give its outline.
import Stencil.Proofs.Recognition

/-! # Derivations

A reading that reaches the end of the source without a fault has read phrases. Inside a tag this is
seen token by token: what the state refuses cannot have come next. Between tags the open blocks say
what is still to come, `Finishes`: for each of them phrases and its closing tag, and phrases after
the last of these.
-/

namespace Stencil

open Text (isBlank)

namespace Reading

/-- Reading on from here ends without a fault in a state of the given sort. -/
def Reaches (r : Reading) (before s : List Char) (final : Reading → Prop) : Prop :=
  ∃ r' p, r.run (.after before) s = .ok (r', p) ∧ final r'

variable {final : Reading → Prop}

/-- Either nothing is left to read, or a token comes next and fits. -/
theorem Reaches.next {r : Reading} {before s : List Char} (h : r.Reaches before s final) :
    (∃ lead, Scan.ofSource r.place.admitted s = .finish lead ∧ final r) ∨
      ∃ t lead written rest r',
        Scan.ofSource r.place.admitted s = .token t lead written rest ∧
        r.shift ⟨t, .after before, lead, written⟩ rest.head? = some r' ∧
        r'.Reaches (before ++ lead ++ written) rest final := by
  obtain ⟨rf, p, hrun, hfinal⟩ := h
  cases hscan : Scan.ofSource r.place.admitted s with
  | finish lead =>
    rw [run_finish _ hscan] at hrun
    cases hrun
    exact .inl ⟨lead, rfl, hfinal⟩
  | stuck lead c =>
    rw [run_stuck _ hscan] at hrun
    cases hrun
  | token t lead written rest =>
    cases hshift : r.shift ⟨t, .after before, lead, written⟩ rest.head? with
    | none =>
      rw [run_token_refused _ hscan hshift] at hrun
      cases hrun
    | some r' =>
      rw [run_token_after before hscan hshift] at hrun
      exact .inr ⟨t, lead, written, rest, r', rfl, hshift, rf, p, hrun, hfinal⟩

/-- Where no reading may end, a token comes next. -/
theorem Reaches.token {r : Reading} {before s : List Char} (h : r.Reaches before s final)
    (hr : ¬final r) :
    ∃ t lead written rest r',
      Scan.ofSource r.place.admitted s = .token t lead written rest ∧
      r.shift ⟨t, .after before, lead, written⟩ rest.head? = some r' ∧
      r'.Reaches (before ++ lead ++ written) rest final := by
  rcases h.next with ⟨lead, -, hfinal⟩ | h
  · exact absurd hfinal hr
  · exact h

/-! ## Paths -/

variable {blocks : List (Head × List Node)} {done : List Node}

/-- No reading ends where a name, or the content or the end of an indexer is due. -/
def EndsBetweenParts (final : Reading → Prop) : Prop :=
  ∀ blocks done goal parts, ¬final ⟨blocks, done, .step goal parts⟩ ∧
    (∀ bracket, ¬final ⟨blocks, done, .index goal parts bracket⟩) ∧
    ∀ bracket written, ¬final ⟨blocks, done, .afterIndex goal parts bracket written⟩

theorem endsBetweenParts_outline (out : List Node) :
    EndsBetweenParts fun r => r.outline? = some out := by
  intro blocks done goal parts
  cases blocks <;> simp [outline?]

/-- A name is read where one is due. -/
theorem Reaches.name (hfinal : EndsBetweenParts final) {goal : Goal} {parts : List Part}
    {before s : List Char}
    (h : (Reading.mk blocks done (.step goal parts)).Reaches before s final) :
    ∃ blanks chars rest, s = blanks ++ (chars ++ rest) ∧ AllBlank blanks ∧ IsName chars rest ∧
      (Reading.mk blocks done (.afterPart goal
        (.name ⟨.name, .after before, blanks, chars⟩ :: parts))).Reaches
        (before ++ blanks ++ chars) rest final := by
  obtain ⟨t, lead, written, rest, r', hscan, hshift, hreach⟩ :=
    h.token (hfinal blocks done goal parts).1
  obtain ⟨rfl, rfl, hblank, hname⟩ := Scan.token_name hscan
  cases hshift
  exact ⟨lead, written, rest, rfl, hblank, hname, hreach⟩

/-- An indexer is read up to its end. -/
theorem Reaches.index (hfinal : EndsBetweenParts final) {goal : Goal} {parts : List Part}
    {bracket : Position} {before s : List Char}
    (h : (Reading.mk blocks done (.index goal parts bracket)).Reaches before s final) :
    ∃ chars rest, s = chars ++ ']' :: rest ∧ chars ≠ [] ∧ ']' ∉ chars ∧
      (Reading.mk blocks done (.afterPart goal
        (.index bracket chars (if rest.head?.any isBlank then
          some (.after (before ++ chars ++ [']'])) else none) :: parts))).Reaches
        (before ++ chars ++ [']']) rest final := by
  obtain ⟨t, lead, chars, rest, r', hscan, hshift, hreach⟩ :=
    h.token ((hfinal blocks done goal parts).2.1 bracket)
  obtain ⟨rfl, rfl, rfl, hne, hchars, hrest⟩ := Scan.token_index hscan
  cases hshift
  obtain ⟨t, lead, written, rest', r', hscan, hshift, hreach⟩ :=
    hreach.token ((hfinal blocks done goal parts).2.2 bracket chars)
  obtain ⟨rfl, rfl, hblank, rfl⟩ := Scan.token_rightBracket hscan
  have hlead : lead = [] := by
    cases lead with
    | nil => rfl
    | cons c lead =>
      have hb := hblank.head
      rw [hrest c _ rfl] at hb
      exact absurd hb (by decide)
  subst hlead
  cases hshift
  refine ⟨chars, rest', rfl, hne, hchars, ?_⟩
  simpa [Place.afterPart] using hreach

/-- What comes after the steps of a path: the end of the source, or a token that ends the path. -/
def EndsPath (final : Reading → Prop) (r : Reading) (goal : Goal) (parts : List Part)
    (before rest : List Char) : Prop :=
  (AllBlank rest ∧ final r) ∨
    ∃ lead t c rest' r', AllBlank lead ∧ rest = lead ++ c :: rest' ∧
      (t = .bar ∧ c = '|' ∨ t = .rightBrace ∧ c = '}') ∧
      r.shiftStep goal parts ⟨t, .after before, lead, [c]⟩ = some r' ∧
      r'.Reaches (before ++ lead ++ [c]) rest' final

/-- After a part of a path comes a further step, or what ends the path. -/
theorem Reaches.step (hfinal : EndsBetweenParts final) {goal : Goal} {parts : List Part}
    {before s : List Char}
    (h : (Reading.mk blocks done (.afterPart goal parts)).Reaches before s final) :
    EndsPath final (Reading.mk blocks done (.afterPart goal parts)) goal parts before s ∨
      ∃ step rest, s = StepForm.written step ++ rest ∧ step.Fits rest ∧
        (Reading.mk blocks done (.afterPart goal (step.part before rest :: parts))).Reaches
          (before ++ step.written) rest final := by
  rcases h.next with ⟨lead, hscan, hend⟩ | ⟨t, lead, written, rest, r', hscan, hshift, hreach⟩
  · obtain ⟨rfl, hblank, -⟩ := Scan.finish_spec hscan
    exact .inl (.inl ⟨hblank, hend⟩)
  rw [shift_afterPart] at hshift
  have hfollowers : Scan.ofSource Scan.followers s = .token t lead written rest ∨
      Scan.ofSource Scan.followers.tail s = .token t lead written rest :=
    (Place.admitted_afterPart goal parts).imp
      (fun ha => (congrArg (Scan.ofSource · s) ha).symm.trans hscan)
      (fun ha => (congrArg (Scan.ofSource · s) ha).symm.trans hscan)
  obtain ⟨hblank, rfl, ⟨c, hmem, hmark, rfl⟩ | ⟨rfl, -⟩⟩ := Scan.token_followers hfollowers
  · simp only [Scan.followers, List.mem_cons, List.not_mem_nil, or_false] at hmem
    rcases hmem with rfl | rfl | rfl | rfl | rfl
    · cases hmark
    · cases hmark
      cases hshift
      obtain ⟨chars, rest', rfl, hne, hchars, hreach⟩ := hreach.index hfinal
      refine .inr ⟨.index lead chars hne, rest', by simp [StepForm.written], ⟨hblank, hchars⟩, ?_⟩
      simpa [StepForm.part, StepForm.written] using hreach
    · cases hmark
      exact .inl (.inr ⟨lead, .rightBrace, _, rest, r', hblank, rfl, .inr ⟨rfl, rfl⟩, hshift,
        hreach⟩)
    · cases hmark
      exact .inl (.inr ⟨lead, .bar, _, rest, r', hblank, rfl, .inl ⟨rfl, rfl⟩, hshift, hreach⟩)
    · cases hmark
      cases hshift
      obtain ⟨blanks, chars, rest', rfl, hblanks, hname, hreach⟩ := hreach.name hfinal
      refine .inr ⟨.name lead blanks chars, rest', by simp [StepForm.written],
        ⟨hblank, hblanks, hname⟩, ?_⟩
      simpa [StepForm.part, StepForm.written] using hreach
  · cases hshift

/-- After a part of a path there are further steps, and then what ends the path. -/
theorem Reaches.steps (hfinal : EndsBetweenParts final) {goal : Goal} {parts : List Part}
    {before s : List Char}
    (h : (Reading.mk blocks done (.afterPart goal parts)).Reaches before s final) :
    ∃ steps rest, s = StepForm.writtenAll steps ++ rest ∧ StepForm.AllFit rest steps ∧
      EndsPath final
        (Reading.mk blocks done (.afterPart goal
          ((StepForm.parts before rest steps).reverse ++ parts)))
        goal ((StepForm.parts before rest steps).reverse ++ parts)
        (before ++ StepForm.writtenAll steps) rest := by
  induction hn : s.length using Nat.strongRecOn generalizing s parts before with
  | ind n ih =>
    rcases h.step hfinal with hends | ⟨step, rest, rfl, hfits, hreach⟩
    · exact ⟨[], s, rfl, trivial, by simpa [StepForm.writtenAll, StepForm.parts] using hends⟩
    · have hlt : rest.length < n := by
        have : 0 < step.written.length := by
          rw [List.length_pos_iff]
          cases step <;> simp [StepForm.written]
        rw [← hn, List.length_append]
        omega
      obtain ⟨steps, rest', rfl, hall, hends⟩ := ih rest.length hlt hreach rfl
      refine ⟨step :: steps, rest', by simp [StepForm.writtenAll], ⟨hfits, hall⟩, ?_⟩
      simpa [StepForm.parts, StepForm.writtenAll] using hends

/-- A path is read where one is due, and then what ends it. -/
theorem Reaches.path (hfinal : EndsBetweenParts final) {goal : Goal} {before s : List Char}
    (h : (Reading.mk blocks done (.step goal [])).Reaches before s final) :
    ∃ blanks p rest, s = blanks ++ (PathForm.written p ++ rest) ∧ AllBlank blanks ∧ p.Fits rest ∧
      EndsPath final
        (Reading.mk blocks done (.afterPart goal (p.parts before blanks rest).reverse))
        goal (p.parts before blanks rest).reverse (before ++ blanks ++ p.written) rest := by
  obtain ⟨blanks, root, s', rfl, hblanks, hroot, hreach⟩ := h.name hfinal
  obtain ⟨steps, rest, rfl, hsteps, hends⟩ := hreach.steps hfinal
  refine ⟨blanks, ⟨root, steps⟩, rest, by simp [PathForm.written], hblanks, ⟨hroot, hsteps⟩, ?_⟩
  simpa [PathForm.parts, PathForm.written] using hends

/-! ## Substitutions -/

section Outlined

variable {out : List Node}

/-- Reading on from here ends in a template with the given outline. -/
def Outlines (r : Reading) (before s : List Char) (out : List Node) : Prop :=
  r.Reaches before s fun r' => r'.outline? = some out

/-- Where the name of a filter is due, blanks and a name come next. -/
theorem Outlines.filterName {start : Position} {subject : List Part} {names : List Token}
    {before s : List Char}
    (h : (Reading.mk blocks done (.filter start subject names)).Outlines before s out) :
    ∃ blanks chars rest, s = blanks ++ (chars ++ rest) ∧ AllBlank blanks ∧ IsName chars rest ∧
      (Reading.mk blocks done (.afterFilter start subject
        (⟨.name, .after before, blanks, chars⟩ :: names))).Outlines
        (before ++ blanks ++ chars) rest out := by
  obtain ⟨t, lead, written, rest, r', hscan, hshift, hreach⟩ :=
    h.token (by cases blocks <;> simp [outline?])
  obtain ⟨rfl, rfl, hblank, hname⟩ := Scan.token_name hscan
  cases hshift
  exact ⟨lead, written, rest, rfl, hblank, hname, hreach⟩

/-- After a filter there are further filters, and then the end of the tag. -/
theorem Outlines.filters {start : Position} {subject : List Part} {names : List Token}
    {before s : List Char}
    (h : (Reading.mk blocks done (.afterFilter start subject names)).Outlines before s out) :
    ∃ filters trail rest, s = FilterForm.writtenAll filters ++ (trail ++ '}' :: rest) ∧
      FilterForm.AllFit (trail ++ '}' :: rest) filters ∧ AllBlank trail ∧
      ((Reading.mk blocks done .between).add (.substitution start subject
        (names.reverse ++ FilterForm.tokens before filters))).Outlines
        (before ++ FilterForm.writtenAll filters ++ trail ++ ['}']) rest out := by
  induction hn : s.length using Nat.strongRecOn generalizing s names before with
  | ind n ih =>
    obtain ⟨t, lead, written, rest, r', hscan, hshift, hreach⟩ :=
      h.token (by cases blocks <;> simp [outline?])
    obtain ⟨hblank, rfl, ⟨c, hmem, hmark, rfl⟩ | ⟨rfl, -⟩⟩ := Scan.token_followers (.inl hscan)
    · simp only [Scan.followers, List.mem_cons, List.not_mem_nil, or_false] at hmem
      rcases hmem with rfl | rfl | rfl | rfl | rfl
      · cases hmark
      · cases hshift
      · cases hmark
        cases hshift
        refine ⟨[], lead, rest, rfl, trivial, hblank, ?_⟩
        simpa [Outlines, FilterForm.writtenAll, FilterForm.tokens, add] using hreach
      · cases hmark
        cases hshift
        obtain ⟨blanks, chars, s', rfl, hblanks, hname, hreach⟩ := Outlines.filterName hreach
        have hlt : s'.length < n := by
          simp only [List.length_append, List.length_cons] at hn
          omega
        obtain ⟨filters, trail, rest', rfl, hfilters, htrail, hreach⟩ :=
          ih s'.length hlt hreach rfl
        refine ⟨⟨lead, blanks, chars⟩ :: filters, trail, rest', ?_,
          ⟨⟨hblank, hblanks, hname⟩, hfilters⟩, htrail, ?_⟩
        · simp [FilterForm.writtenAll, FilterForm.written]
        · simpa [FilterForm.writtenAll, FilterForm.written, FilterForm.tokens,
            FilterForm.token] using hreach
      · cases hshift
    · cases hshift

/-- No source ends inside a path. -/
theorem outline?_afterPart (goal : Goal) (parts : List Part) :
    (Reading.mk blocks done (.afterPart goal parts)).outline? = none := by
  unfold Place.afterPart
  split <;> cases blocks <;> rfl

/-- A path is read where one is due, and then the mark that ends it. -/
theorem Outlines.path {goal : Goal} {before s : List Char}
    (h : (Reading.mk blocks done (.step goal [])).Outlines before s out) :
    ∃ blanks p lead t c rest r', s = blanks ++ (PathForm.written p ++ (lead ++ c :: rest)) ∧
      AllBlank blanks ∧ p.Fits (lead ++ c :: rest) ∧ AllBlank lead ∧
      (t = .bar ∧ c = '|' ∨ t = .rightBrace ∧ c = '}') ∧
      (Reading.mk blocks done (.afterPart goal
        (p.parts before blanks (lead ++ c :: rest)).reverse)).shiftStep goal
        (p.parts before blanks (lead ++ c :: rest)).reverse
        ⟨t, .after (before ++ blanks ++ p.written), lead, [c]⟩ = some r' ∧
      r'.Outlines (before ++ blanks ++ p.written ++ lead ++ [c]) rest out := by
  obtain ⟨blanks, p, s', rfl, hblanks, hp, hends⟩ :=
    Reaches.path (endsBetweenParts_outline out) h
  rcases hends with ⟨-, hout⟩ | ⟨lead, t, c, rest, r', hlead, rfl, ht, hshift, hreach⟩
  · rw [outline?_afterPart] at hout
    cases hout
  · exact ⟨blanks, p, lead, t, c, rest, r', rfl, hblanks, hp, hlead, ht, hshift, hreach⟩

/-- What is read after the opening of a substitution. -/
theorem Outlines.substitution {start : Position} {before s : List Char}
    (h : (Reading.mk blocks done (.step (.substitution start) [])).Outlines before s out) :
    ∃ blanks subject filters trail rest,
      s = Phrase.inside blanks subject filters trail rest ∧ AllBlank blanks ∧
      subject.Fits (FilterForm.writtenAll filters ++ trail ++ '}' :: rest) ∧
      FilterForm.AllFit (trail ++ '}' :: rest) filters ∧ AllBlank trail ∧
      ((Reading.mk blocks done .between).add (.substitution start
        (subject.parts before blanks (FilterForm.writtenAll filters ++ trail ++ '}' :: rest))
        (FilterForm.tokens (before ++ blanks ++ subject.written) filters))).Outlines
        (before ++ Phrase.inside blanks subject filters trail []) rest out := by
  obtain ⟨blanks, subject, lead, t, c, rest, r', rfl, hblanks, hsubject, hlead, ht, hshift,
    hreach⟩ := Outlines.path h
  rcases ht with ⟨rfl, rfl⟩ | ⟨rfl, rfl⟩
  · cases hshift
    obtain ⟨fblanks, chars, s', rfl, hfblanks, hname, hreach⟩ := Outlines.filterName hreach
    obtain ⟨filters, trail, rest', rfl, hfilters, htrail, hreach⟩ := hreach.filters
    refine ⟨blanks, subject, ⟨lead, fblanks, chars⟩ :: filters, trail, rest', ?_, hblanks, ?_,
      ⟨⟨hlead, hfblanks, hname⟩, hfilters⟩, htrail, ?_⟩
    · simp [Phrase.inside, FilterForm.writtenAll, FilterForm.written]
    · simpa [FilterForm.writtenAll, FilterForm.written] using hsubject
    · simpa [Phrase.inside, FilterForm.writtenAll, FilterForm.written, FilterForm.tokens,
        FilterForm.token] using hreach
  · cases hshift
    refine ⟨blanks, subject, [], lead, rest, ?_, hblanks, ?_, trivial, hlead, ?_⟩
    · simp [Phrase.inside, FilterForm.writtenAll]
    · simpa [FilterForm.writtenAll] using hsubject
    · simpa [Phrase.inside, FilterForm.writtenAll, FilterForm.tokens, add] using hreach

/-! ## Opening tags -/

/-- Blanks and something visible are cut in one way. -/
private theorem blanks_eq_nil {blanks s : List Char} (hb : AllBlank blanks)
    (hs : StartsVisible (blanks ++ s)) : blanks = [] := by
  cases blanks with
  | nil => rfl
  | cons c blanks =>
    have := hs c (blanks ++ s) rfl
    rw [hb.head] at this
    cases this

/-- After the opening of a condition its subject comes next, and the end of the tag. -/
theorem Outlines.condition {negated : Bool} {start : Position} {before s : List Char}
    (hs : StartsVisible s)
    (h : (Reading.mk blocks done (.step (.condition start negated) [])).Outlines before s out) :
    ∃ subject trail rest, s = PathForm.written subject ++ (trail ++ '}' :: rest) ∧
      subject.Fits (trail ++ '}' :: rest) ∧ AllBlank trail ∧
      ((Reading.mk blocks done .between).enter (.condition start negated
        (subject.parts before [] (trail ++ '}' :: rest)))).Outlines
        (before ++ subject.written ++ trail ++ ['}']) rest out := by
  obtain ⟨blanks, subject, lead, t, c, rest, r', rfl, hblanks, hsubject, hlead, ht, hshift,
    hreach⟩ := Outlines.path h
  obtain rfl := blanks_eq_nil hblanks hs
  rcases ht with ⟨rfl, rfl⟩ | ⟨rfl, rfl⟩
  · cases hshift
  · cases hshift
    refine ⟨subject, lead, rest, rfl, hsubject, hlead, ?_⟩
    simpa [enter] using hreach

/-- After the opening of a repetition its variable comes next, the word, the collection and the end
    of the tag. -/
theorem Outlines.loop {start : Position} {before s : List Char} (hs : StartsVisible s)
    (h : (Reading.mk blocks done (.enumerator start)).Outlines before s out) :
    ∃ enumerator gap inBlanks collection trail rest,
      s = enumerator ++ (gap ++ 'i' :: 'n' :: inBlanks ++ PathForm.written collection ++ trail ++
        '}' :: rest) ∧
      IsName enumerator (gap ++ 'i' :: 'n' :: inBlanks ++ collection.written ++ trail ++
        '}' :: rest) ∧
      AllBlank gap ∧ AllBlank inBlanks ∧ inBlanks ≠ [] ∧
      collection.Fits (trail ++ '}' :: rest) ∧ AllBlank trail ∧
      ((Reading.mk blocks done .between).enter (.loop start
        ⟨.name, .after before, [], enumerator⟩
        (collection.parts (before ++ enumerator ++ gap ++ ['i', 'n']) inBlanks
          (trail ++ '}' :: rest)))).Outlines
        (before ++ enumerator ++ gap ++ ['i', 'n'] ++ inBlanks ++ collection.written ++ trail ++
          ['}']) rest out := by
  obtain ⟨t, lead, enumerator, s', r', hscan, hshift, hreach⟩ :=
    h.token (by cases blocks <;> simp [outline?])
  obtain ⟨rfl, rfl, hblank, hname⟩ := Scan.token_name hscan
  obtain rfl := blanks_eq_nil hblank hs
  cases hshift
  obtain ⟨t, gap, written, s'', r', hscan, hshift, hreach⟩ :=
    hreach.token (by cases blocks <;> simp [outline?])
  obtain ⟨hgap, rfl, ⟨c, hmem, hmark, rfl⟩ | ⟨rfl, rfl, c, u, hcu, hc⟩⟩ :=
    Scan.token_followers (.inl hscan)
  · simp only [Scan.followers, List.mem_cons, List.not_mem_nil, or_false] at hmem
    rcases hmem with rfl | rfl | rfl | rfl | rfl
    · cases hmark
    all_goals cases hshift
  · cases hshift
    obtain ⟨inBlanks, collection, trail, t, d, rest, r', rfl, hin, hcollection, htrail, ht, hshift,
      hreach⟩ := Outlines.path hreach
    have hinne : inBlanks ≠ [] := by
      rintro rfl
      have := hcollection.1.startsVisible
        (StepForm.writtenAll collection.steps ++ (trail ++ d :: rest)) c u
        (by simpa [PathForm.written] using hcu)
      rw [hc] at this
      cases this
    rcases ht with ⟨rfl, rfl⟩ | ⟨rfl, rfl⟩
    · cases hshift
    · cases hshift
      refine ⟨enumerator, gap, inBlanks, collection, trail, rest, by simp, by simpa using hname,
        hgap, hin, hinne, hcollection, htrail, ?_⟩
      simpa [enter] using hreach

private theorem exists_conditionKind (kind : BlockKind) :
    (∃ negated, kind = conditionKind negated) ∨ kind = .each := by
  cases kind with
  | holds => exact .inl ⟨false, rfl⟩
  | fails => exact .inl ⟨true, rfl⟩
  | each => exact .inr rfl

/-- What is read from the opening of a block on is the head of that block. -/
theorem Outlines.head {r r' : Reading} {kind : BlockKind} {before s written rest : List Char}
    (hread : kind.readOpener s = some (written, rest))
    (hshift : r.shiftNode ⟨.opener kind, .after before, [], written⟩ = some r')
    (h : r'.Outlines (before ++ written) rest out) :
    ∃ head rest', s = HeadForm.written head ++ rest' ∧ head.Fits rest' ∧
      (r.enter (head.head before rest')).Outlines (before ++ head.written) rest' out := by
  obtain ⟨keyword, blanks, rfl, rfl, hk, hb, hne, hvisible⟩ := inAnyCase_of_readOpener hread
  obtain ⟨negated, rfl⟩ | rfl := exists_conditionKind kind
  · have hr' :
        Reading.mk r.blocks r.nodes (.step (.condition (.after before) negated) []) = r' := by
      cases negated <;> exact Option.some.inj hshift
    subst hr'
    obtain ⟨subject, trail, rest', rfl, hsubject, htrail, hreach⟩ := Outlines.condition hvisible h
    refine ⟨.condition negated keyword blanks subject trail, rest', ?_,
      ⟨hk, hb, hne, hsubject, htrail⟩, ?_⟩
    · simp [HeadForm.written]
    · simpa [HeadForm.written, HeadForm.head, enter] using hreach
  · cases hshift
    obtain ⟨enumerator, gap, inBlanks, collection, trail, rest', rfl, hname, hgap, hin, hinne,
      hcollection, htrail, hreach⟩ := Outlines.loop hvisible h
    refine ⟨.loop keyword blanks enumerator gap inBlanks collection trail, rest', ?_,
      ⟨hk, hb, hne, hname, hgap, hin, hinne, hcollection, htrail⟩, ?_⟩
    · simp [HeadForm.written]
    · simpa [HeadForm.written, HeadForm.head, enter] using hreach

/-! ## Open blocks -/

/-- What is left of a source, given the open blocks, the nodes finished in the innermost of them
    and the text before: phrases and a closing tag for each open block, and then phrases to the
    end. The last argument is the outline of the whole source. -/
inductive Finishes :
    List (Head × List Node) → List Node → List Char → List Char → List Node → Prop
  | last {nodes : List Node} {before : List Char} {phrases : List Phrase}
      (fits : Phrase.AllFit [] phrases) :
      Finishes [] nodes before (Phrase.writtenAll phrases)
        (nodes.reverse ++ Phrase.nodes before [] phrases)
  | close {head : Head} {outer : List Node} {blocks : List (Head × List Node)}
      {nodes : List Node} {before rest : List Char} {phrases : List Phrase} {out : List Node}
      (fits : Phrase.AllFit (head.kind.closer.toList ++ rest) phrases)
      (after : Finishes blocks
        (.block head (nodes.reverse ++
          Phrase.nodes before (head.kind.closer.toList ++ rest) phrases) :: outer)
        (before ++ Phrase.writtenAll phrases ++ head.kind.closer.toList) rest out) :
      Finishes ((head, outer) :: blocks) nodes before
        (Phrase.writtenAll phrases ++ (head.kind.closer.toList ++ rest)) out

/-- A phrase is put in front. -/
theorem Finishes.cons {nodes : List Node} {before s : List Char} {phrase : Phrase}
    (hfits : phrase.Fits s)
    (h : Finishes blocks (phrase.node before s :: nodes) (before ++ phrase.written) s out) :
    Finishes blocks nodes before (phrase.written ++ s) out := by
  -- The relation is indexed by nodes and texts that are no variables yet.
  generalize hn : phrase.node before s :: nodes = nodes' at h
  generalize hb : before ++ phrase.written = before' at h
  cases h with
  | last fits =>
    next phrases =>
    subst hn hb
    have hall : Phrase.AllFit [] (phrase :: phrases) := ⟨by simpa using hfits, fits⟩
    have hlast : Finishes [] nodes before _ _ := .last hall
    simpa [Phrase.nodes, Phrase.writtenAll] using hlast
  | close fits after =>
    next head outer blocks rest phrases =>
    subst hn hb
    have hall : Phrase.AllFit (head.kind.closer.toList ++ rest) (phrase :: phrases) :=
      ⟨hfits, fits⟩
    have hclose : Finishes ((head, outer) :: blocks) nodes before _ out :=
      .close hall (by simpa [Phrase.nodes, Phrase.writtenAll] using after)
    simpa [Phrase.writtenAll] using hclose

/-- The head of a block is put in front, and with it the block is complete. -/
theorem Finishes.block {nodes : List Node} {before s : List Char} {head : HeadForm}
    (hfits : head.Fits s)
    (h : Finishes ((head.head before s, nodes) :: blocks) [] (before ++ head.written) s out) :
    Finishes blocks nodes before (head.written ++ s) out := by
  generalize hh : head.head before s = head' at h
  cases h with
  | close fits after =>
    next rest body =>
    have hkind : head'.kind = head.kind := by rw [← hh, head.head_kind]
    rw [hkind] at fits after hfits hh ⊢
    have hphrase : Phrase.Fits rest (.block head body) := ⟨by simpa using hfits, fits⟩
    have hcons : Finishes blocks nodes before _ out :=
      .cons hphrase (by simpa [Phrase.node, Phrase.written, ← hh] using after)
    simpa [Phrase.written] using hcons

/-- At the end of the source nothing is left of it. -/
theorem Finishes.of_outline? {r : Reading} {before : List Char} (h : r.outline? = some out) :
    Finishes r.blocks r.nodes before [] out := by
  obtain ⟨blocks, nodes, place⟩ := r
  cases blocks with
  | cons block blocks => cases place <;> cases h
  | nil =>
    have hout : out = nodes.reverse := by
      cases place <;> simp_all [outline?]
    have hnil : Phrase.AllFit [] [] := trivial
    have hlast : Finishes [] nodes before _ _ := .last hnil
    simpa [Phrase.writtenAll, Phrase.nodes, hout] using hlast

/-- What is closed is the innermost block, which is of the given kind. -/
theorem leave_eq {r r' : Reading} {kind : BlockKind} (h : r.leave kind = some r') :
    ∃ head outer, r.blocks = (head, outer) :: r'.blocks ∧ head.kind = kind ∧
      r'.nodes = .block head r.nodes.reverse :: outer ∧ r'.place = .between := by
  unfold leave at h
  split at h
  · cases h
  · next head outer blocks hblocks =>
    split at h <;> cases h
    exact ⟨head, outer, hblocks, ‹_›, rfl, rfl⟩

/-- A closing tag is put in front, for the block that it closes. -/
theorem Finishes.leave {r r' : Reading} {kind : BlockKind} {before rest : List Char}
    (hleave : r.leave kind = some r')
    (h : Finishes r'.blocks r'.nodes (before ++ kind.closer.toList) rest out) :
    Finishes r.blocks r.nodes before (kind.closer.toList ++ rest) out := by
  obtain ⟨head, outer, hblocks, rfl, hnodes, -⟩ := leave_eq hleave
  have hnil : Phrase.AllFit (head.kind.closer.toList ++ rest) [] := trivial
  have hclose : Finishes ((head, outer) :: r'.blocks) r.nodes before _ out :=
    .close hnil (by simpa [Phrase.nodes, Phrase.writtenAll, hnodes] using h)
  simpa [Phrase.writtenAll, hblocks] using hclose

/-- Reading on between tags, the rest of the source finishes what is open. -/
theorem Outlines.finishes {r : Reading} {before s : List Char} (h : r.Outlines before s out)
    (hr : r.place.IsBody) : Finishes r.blocks r.nodes before s out := by
  -- The induction is on what is left to read, since a tag takes up several tokens.
  induction hn : s.length using Nat.strongRecOn generalizing s r before with
  | ind n ih =>
    rcases Reaches.next h with
      ⟨lead, hscan, hend⟩ | ⟨t, lead, written, rest, r', hscan, hshift, hreach⟩
    · obtain rfl := Scan.finish_body hr hscan
      exact .of_outline? hend
    have hlt := Scan.rest_lt hscan
    rw [hn] at hlt
    rw [shift_body hr] at hshift
    obtain ⟨rfl, hcases⟩ := Scan.token_body hr hscan
    rcases hcases with ⟨kind, rfl, hread⟩ | ⟨rfl, pieces, hne, rfl, rfl, hfit⟩ |
      ⟨rfl, rfl, rfl, hslash, hblock⟩ | ⟨kind, rfl, rfl, rfl⟩
    case inl =>
      rw [List.append_nil] at hreach
      obtain ⟨head, rest', rfl, hfits, hreach⟩ := Outlines.head hread hshift hreach
      refine .block hfits (ih rest'.length ?_ hreach trivial rfl)
      rw [← hn, List.length_append]
      have : 0 < head.written.length := by cases head <;> simp [HeadForm.written]
      omega
    case inr.inl =>
      cases hshift
      have hfits : Phrase.Fits rest (.text pieces) := ⟨hne, hfit⟩
      have hfinish := ih rest.length hlt hreach trivial rfl
      simpa [Phrase.written] using
        Finishes.cons hfits (by simpa [Phrase.node, Phrase.written, add] using hfinish)
    case inr.inr.inl =>
      cases hshift
      obtain ⟨blanks, subject, filters, trail, rest', rfl, hblanks, hsubject, hfilters, htrail,
        hreach⟩ := Outlines.substitution hreach
      have hfits : Phrase.Fits rest' (.substitution blanks subject filters trail) :=
        ⟨hslash, hblock, hblanks, hsubject, hfilters, htrail⟩
      have hlt' : rest'.length < n := by
        simp only [Phrase.inside, List.length_append, List.length_cons] at hlt
        omega
      have hfinish := ih rest'.length hlt' hreach trivial rfl
      simpa [Phrase.written, Phrase.inside] using
        Finishes.cons hfits
          (by simpa [Phrase.node, Phrase.written, Phrase.inside, add] using hfinish)
    case inr.inr.inr =>
      have hbody : r'.place.IsBody := by
        obtain ⟨_, _, -, -, -, hplace⟩ := leave_eq hshift
        rw [hplace]
        trivial
      rw [List.append_nil] at hreach
      exact .leave hshift (ih rest.length hlt hreach hbody rfl)

end Outlined

end Reading

/-- A source with an outline is made of phrases that have this outline. -/
theorem derives_of_readOutline {source : List Char} {nodes : List Node}
    (h : readOutline source = .ok nodes) :
    ∃ phrases, Phrase.Derives source phrases ∧ nodes = Phrase.nodes [] [] phrases := by
  simp only [readOutline, bind, Except.bind] at h
  split at h
  · cases h
  · next r hrun =>
    split at h
    · next hout =>
      cases h
      have houtlines : Reading.template.Outlines [] source nodes := ⟨r.1, r.2, hrun, hout⟩
      have hfinish := houtlines.finishes trivial
      cases hfinish with
      | last fits => exact ⟨_, ⟨rfl, fits⟩, rfl⟩
    · cases h

end Stencil
