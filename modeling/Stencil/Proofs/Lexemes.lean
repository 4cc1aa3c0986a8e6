-- SUMMARY: What the readers of names, keywords and opening tags find, in terms of the grammar.
import Mathlib.Data.List.TakeWhile
import Stencil.Proofs.Characters

/-! # Lexemes

For each kind of lexeme: the reader finds what the grammar allows to stand there, and what the
reader finds is what the grammar allows.
-/

namespace Stencil

open Text (isBlank)
open Name (isNameChar)

/-! ## Blanks -/

theorem AllBlank.nil : AllBlank [] := by simp [AllBlank]

theorem AllBlank.space : AllBlank [' '] := List.forall_mem_singleton.2 (by decide)

theorem AllBlank.head {c : Char} {s : List Char} (h : AllBlank (c :: s)) : isBlank c = true :=
  h c List.mem_cons_self

theorem AllBlank.tail {c : Char} {s : List Char} (h : AllBlank (c :: s)) : AllBlank s :=
  fun d hd => h d (List.mem_cons_of_mem c hd)

theorem allBlank_takeWhile (s : List Char) : AllBlank (s.takeWhile isBlank) :=
  fun _ hc => List.mem_takeWhile_imp hc

/-- The text does not start with a blank. -/
def StartsVisible (s : List Char) : Prop := ∀ c t, s = c :: t → isBlank c = false

theorem startsVisible_dropWhile (s : List Char) : StartsVisible (s.dropWhile isBlank) := by
  intro c t h
  have := List.head?_dropWhile_not isBlank s
  rw [h] at this
  simpa using this

theorem takeWhile_blanks {lead s : List Char} (hl : AllBlank lead) (hs : StartsVisible s) :
    (lead ++ s).takeWhile isBlank = lead := by
  rw [List.takeWhile_append_of_pos hl]
  cases s with
  | nil => simp
  | cons c t => simp [hs c t rfl]

theorem dropWhile_blanks {lead s : List Char} (hl : AllBlank lead) (hs : StartsVisible s) :
    (lead ++ s).dropWhile isBlank = s := by
  rw [List.dropWhile_append_of_pos hl]
  cases s with
  | nil => simp
  | cons c t => simp [hs c t rfl]

/-! ## Names -/

theorem endsBefore_iff (s : List Char) : Name.endsBefore s = true ↔ EndsName s := by
  unfold Name.endsBefore EndsName
  split
  · simp
  · simp
  · next h1 h2 =>
    apply iff_of_false (by simp)
    rintro (⟨t, rfl⟩ | ⟨c, t, rfl, -⟩)
    · exact h1 t rfl
    · exact h2 c t rfl

/-- The reader of names goes on just where a name does. -/
theorem goesOn_iff (c : Char) (s : List Char) :
    (isNameChar c || (isBlank c && !Name.endsBefore s)) = true ↔ GoesOn c s := by
  simp only [GoesOn, Bool.or_eq_true, Bool.and_eq_true, Bool.not_eq_true', ← endsBefore_iff,
    Bool.not_eq_true]

/-- A name that goes on over `chars` and not beyond is read up to there. -/
private theorem splitFrom_eq {chars following : List Char} (read : List Char)
    (goesOn : ∀ u c v, chars = u ++ c :: v → GoesOn c (v ++ following))
    (ends : ∀ c s, following = c :: s → ¬GoesOn c s) :
    Name.splitFrom read (chars ++ following) = (read.reverse ++ chars, following) := by
  induction chars generalizing read with
  | nil =>
    cases following with
    | nil => simp [Name.splitFrom]
    | cons c s =>
      have hc := ends c s rfl
      rw [← goesOn_iff] at hc
      simp [Name.splitFrom, hc]
  | cons c chars ih =>
    have hc := goesOn [] c chars rfl
    rw [← goesOn_iff] at hc
    have hrest : ∀ u d v, chars = u ++ d :: v → GoesOn d (v ++ following) := by
      intro u d v h
      exact goesOn (c :: u) d v (by rw [h]; rfl)
    rw [List.cons_append, Name.splitFrom, if_pos hc, ih (c :: read) hrest]
    simp

/-- In front of what ends it, the longest name is read. -/
theorem split_of_isName {name following : List Char} (h : IsName name following) :
    Name.split (name ++ following) = (name, following) := by
  obtain ⟨c, s, rfl, hc⟩ := h.starts
  have hrest : ∀ u d v, s = u ++ d :: v → GoesOn d (v ++ following) := by
    intro u d v hs
    exact h.goesOn (c :: u) d v (by rw [hs]; rfl)
  have := splitFrom_eq [c] hrest h.ends
  simpa [Name.split, hc] using this

/-- What reading on yields is what has been read, and then all that a name goes on over. -/
private theorem splitFrom_spec (read s : List Char) :
    ∃ chars following, Name.splitFrom read s = (read.reverse ++ chars, following) ∧
      s = chars ++ following ∧
      (∀ u c v, chars = u ++ c :: v → GoesOn c (v ++ following)) ∧
      (∀ c t, following = c :: t → ¬GoesOn c t) := by
  induction s generalizing read with
  | nil => exact ⟨[], [], by simp [Name.splitFrom], rfl, by simp, by simp⟩
  | cons c s ih =>
    by_cases hc : (isNameChar c || (isBlank c && !Name.endsBefore s)) = true
    · obtain ⟨chars, following, hsplit, hs, goesOn, ends⟩ := ih (c :: read)
      refine ⟨c :: chars, following, ?_, by rw [hs]; rfl, ?_, ends⟩
      · rw [Name.splitFrom, if_pos hc, hsplit]
        simp
      · intro u d v h
        cases u with
        | nil =>
          cases h
          rw [← hs]
          exact (goesOn_iff c s).1 hc
        | cons e u =>
          cases h
          exact goesOn u d v rfl
    · refine ⟨[], c :: s, by rw [Name.splitFrom, if_neg hc]; simp, rfl, by simp, ?_⟩
      intro d t h
      cases h
      rwa [← goesOn_iff]

/-- What is read as a name is the longest name there. -/
theorem isName_of_split {s name following : List Char} (h : Name.split s = (name, following))
    (hne : name ≠ []) : IsName name following := by
  cases s with
  | nil =>
    cases h
    exact absurd rfl hne
  | cons c s =>
    cases hc : isNameChar c with
    | false =>
      simp only [Name.split, hc] at h
      cases h
      exact absurd rfl hne
    | true =>
      simp only [Name.split, hc, if_true] at h
      obtain ⟨chars, following', hsplit, hs, goesOn, ends⟩ := splitFrom_spec [c] s
      rw [hsplit] at h
      cases h
      refine ⟨⟨c, chars, rfl, hc⟩, ?_, ends⟩
      intro u d v h
      cases u with
      | nil =>
        cases h
        exact .inl hc
      | cons e u =>
        cases h
        exact goesOn u d v rfl

/-- A name starts wherever one may start. -/
theorem exists_isName {c : Char} (hc : isNameChar c = true) (s : List Char) :
    ∃ name following, c :: s = name ++ following ∧ IsName name following := by
  obtain ⟨chars, following, hsplit, hs, -⟩ := splitFrom_spec [c] s
  have hname : Name.split (c :: s) = (c :: chars, following) := by
    simpa [Name.split, hc] using hsplit
  exact ⟨c :: chars, following, by rw [hs]; rfl, isName_of_split hname (by simp)⟩

theorem IsName.ne_nil {name following : List Char} (h : IsName name following) : name ≠ [] := by
  obtain ⟨c, s, rfl, -⟩ := h.starts
  simp

/-- No name starts with a blank. -/
theorem IsName.startsVisible {name following : List Char} (h : IsName name following)
    (t : List Char) : StartsVisible (name ++ t) := by
  obtain ⟨c, s, rfl, hc⟩ := h.starts
  intro d u hd
  cases hd
  exact isBlank_of_isNameChar hc

/-! ## Keywords and opening tags -/

theorem inAnyCase_self (word : String) : InAnyCase word word.toList :=
  List.forall₂_same.2 fun c _ => by simp [isLetter]

theorem readWord_of_inAnyCase {letters written : List Char} (following : List Char)
    (h : List.Forall₂ (fun letter c => isLetter letter c = true) letters written) :
    readWord letters (written ++ following) = some (written, following) := by
  induction h with
  | nil => rfl
  | cons hc _ ih => simp [readWord, hc, ih]

theorem inAnyCase_of_readWord {letters s written following : List Char}
    (h : readWord letters s = some (written, following)) :
    List.Forall₂ (fun letter c => isLetter letter c = true) letters written := by
  induction letters generalizing s written with
  | nil => simp_all [readWord]
  | cons letter letters ih =>
    cases s with
    | nil => simp [readWord] at h
    | cons c s =>
      simp only [readWord] at h
      split at h
      · next hc =>
        obtain ⟨⟨w, r⟩, hw, he⟩ := Option.map_eq_some_iff.1 h
        cases he
        exact .cons hc (ih hw)
      · cases h

/-- The opening of a block is read with the blanks behind its keyword. -/
theorem readOpener_of_inAnyCase {kind : BlockKind} {keyword blanks following : List Char}
    (hk : InAnyCase kind.keyword keyword) (hb : AllBlank blanks) (hne : blanks ≠ [])
    (hf : StartsVisible following) :
    kind.readOpener ('#' :: '{' :: (keyword ++ (blanks ++ following))) =
      some ('#' :: '{' :: (keyword ++ blanks), following) := by
  simp only [BlockKind.readOpener, readWord_of_inAnyCase _ hk, takeWhile_blanks hb hf,
    dropWhile_blanks hb hf]

/-- What is read as the opening of a block has its keyword in some case, and blanks. -/
theorem inAnyCase_of_readOpener {kind : BlockKind} {s written following : List Char}
    (h : kind.readOpener s = some (written, following)) :
    ∃ keyword blanks, s = '#' :: '{' :: (keyword ++ (blanks ++ following)) ∧
      written = '#' :: '{' :: (keyword ++ blanks) ∧
      InAnyCase kind.keyword keyword ∧ AllBlank blanks ∧ blanks ≠ [] ∧
      StartsVisible following := by
  unfold BlockKind.readOpener at h
  split at h
  · next t =>
    split at h
    · cases h
    · next keyword rest hw =>
      split at h
      · cases h
      · next hne =>
        cases h
        refine ⟨keyword, rest.takeWhile isBlank, ?_, rfl, inAnyCase_of_readWord hw,
          allBlank_takeWhile rest, hne, startsVisible_dropWhile rest⟩
        rw [List.takeWhile_append_dropWhile, readWord_append hw]
  · cases h

/-- The opening of a block is what starts with a keyword and a blank. -/
theorem readOpener_eq_none_iff (kind : BlockKind) (s : List Char) :
    kind.readOpener ('#' :: '{' :: s) = none ↔
      ∀ keyword c t, s = keyword ++ c :: t → InAnyCase kind.keyword keyword →
        isBlank c = false := by
  constructor
  · intro h keyword c t hs hk
    subst hs
    simp only [BlockKind.readOpener, readWord_of_inAnyCase _ hk] at h
    cases hc : isBlank c with
    | false => rfl
    | true => simp [hc] at h
  · intro h
    cases hr : kind.readOpener ('#' :: '{' :: s) with
    | none => rfl
    | some found =>
      obtain ⟨keyword, blanks, hs, -, hk, hb, hne, -⟩ := inAnyCase_of_readOpener hr
      cases blanks with
      | nil => exact absurd rfl hne
      | cons c blanks =>
        simp only [List.cons.injEq, true_and] at hs
        have := h keyword c _ hs hk
        rw [hb.head] at this
        cases this

/-- The letter that the keyword of a block starts with. -/
private def BlockKind.letter : BlockKind → Char
  | .holds => 'i'
  | .fails => 'u'
  | .each => 'e'

private theorem InAnyCase.head {kind : BlockKind} {keyword : List Char}
    (h : InAnyCase kind.keyword keyword) :
    ∃ c s, keyword = c :: s ∧ isLetter kind.letter c = true := by
  unfold InAnyCase at h
  have hl : ∃ letters, kind.keyword.toList = kind.letter :: letters := by
    cases kind <;> exact ⟨_, rfl⟩
  obtain ⟨letters, hl⟩ := hl
  rw [hl] at h
  cases h with
  | cons hc _ => exact ⟨_, _, rfl, hc⟩

/-- The forms that the first letter of a keyword has. -/
private def BlockKind.letterForms : BlockKind → List Char
  | .holds => ['i', 'I', '\u0130', '\u0131']
  | .fails => ['u', 'U']
  | .each => ['e', 'E']

private theorem mem_letterForms {kind : BlockKind} {c : Char}
    (h : isLetter kind.letter c = true) : c ∈ kind.letterForms := by
  cases kind <;> simpa [isLetter, BlockKind.letter, BlockKind.letterForms, or_assoc] using h

private theorem kind_eq_of_letterForms {kind kind' : BlockKind} :
    ∀ c ∈ kind.letterForms, c ∈ kind'.letterForms → kind = kind' := by
  cases kind <;> cases kind' <;> simp [BlockKind.letterForms]

/-- The first letter tells the keywords apart. -/
theorem InAnyCase.kind_eq {kind kind' : BlockKind} {keyword keyword' s s' : List Char}
    (h : InAnyCase kind.keyword keyword) (h' : InAnyCase kind'.keyword keyword')
    (hs : keyword ++ s = keyword' ++ s') : kind = kind' := by
  obtain ⟨c, u, rfl, hc⟩ := h.head
  obtain ⟨d, v, rfl, hd⟩ := h'.head
  simp only [List.cons_append, List.cons.injEq] at hs
  rw [← hs.1] at hd
  exact kind_eq_of_letterForms c (mem_letterForms hc) (mem_letterForms hd)

/-- A keyword does not start like what sets closing tags off. -/
theorem InAnyCase.ne_slash {kind : BlockKind} {keyword : List Char}
    (h : InAnyCase kind.keyword keyword) (s t : List Char) : keyword ++ s ≠ '/' :: t := by
  obtain ⟨c, u, rfl, hc⟩ := h.head
  intro hs
  obtain ⟨rfl, -⟩ := List.cons.inj hs
  cases kind <;> exact absurd hc (by decide)

/-- A keyword does not start with a blank. -/
theorem InAnyCase.startsVisible {kind : BlockKind} {keyword : List Char}
    (h : InAnyCase kind.keyword keyword) (t : List Char) : StartsVisible (keyword ++ t) := by
  obtain ⟨c, u, rfl, hc⟩ := h.head
  have hforms : ∀ d ∈ kind.letterForms, isBlank d = false := by
    cases kind <;> simp [BlockKind.letterForms, isBlank]
  intro d v hd
  obtain ⟨rfl, -⟩ := List.cons.inj hd
  exact hforms c (mem_letterForms hc)

theorem InAnyCase.exists_letter {word : String} {written : List Char} (h : InAnyCase word written)
    {c : Char} (hc : c ∈ written) : ∃ letter ∈ word.toList, isLetter letter c = true := by
  unfold InAnyCase at h
  generalize word.toList = letters at h
  induction h with
  | nil => cases hc
  | cons hletter _ ih =>
    rcases List.mem_cons.1 hc with rfl | hc
    · exact ⟨_, List.mem_cons_self, hletter⟩
    · obtain ⟨letter, hmem, hletter⟩ := ih hc
      exact ⟨letter, List.mem_cons_of_mem _ hmem, hletter⟩

theorem StartsBlock.append {s : List Char} (h : StartsBlock s) (t : List Char) :
    StartsBlock (s ++ t) := by
  obtain ⟨kind, keyword, c, u, rfl, hk, hc⟩ := h
  exact ⟨kind, keyword, c, u ++ t, by simp, hk, hc⟩

/-- A character that is neither blank nor a letter of a keyword is no part of the opening of a
    block. -/
theorem StartsBlock.of_append {s t : List Char} (h : StartsBlock (s ++ t))
    (ht : ∀ c u, t = c :: u → isBlank c = false ∧
      ∀ kind : BlockKind, ∀ letter ∈ kind.keyword.toList, isLetter letter c = false) :
    StartsBlock s := by
  obtain ⟨kind, keyword, c, u, hs, hkeyword, hc⟩ := h
  have hblank : ∀ v, t ≠ c :: v := by
    intro v hv
    rw [(ht c v hv).1] at hc
    cases hc
  rcases List.append_eq_append_iff.1 hs with ⟨v, rfl, hv⟩ | ⟨v, rfl, hv⟩
  · cases v with
    | nil => exact absurd hv (hblank u)
    | cons d v =>
      obtain ⟨letter, hmem, hletter⟩ := hkeyword.exists_letter (c := d) (by simp)
      rw [(ht d _ hv).2 kind letter hmem] at hletter
      cases hletter
  · cases v with
    | nil => exact absurd hv.symm (hblank u)
    | cons d v =>
      obtain ⟨rfl, -⟩ := List.cons.inj hv
      exact ⟨kind, keyword, c, v, rfl, hkeyword, hc⟩

/-- The brace at the end of a tag is no part of the opening of a block. -/
theorem StartsBlock.of_append_brace {s t : List Char} (h : StartsBlock (s ++ '}' :: t)) :
    StartsBlock s := by
  apply h.of_append
  intro c u hc
  obtain ⟨rfl, -⟩ := List.cons.inj hc
  refine ⟨by decide, fun kind => ?_⟩
  cases kind <;> simp [BlockKind.keyword, isLetter]

end Stencil
