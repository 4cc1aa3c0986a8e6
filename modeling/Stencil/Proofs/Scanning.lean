-- SUMMARY: Which token is found at each place, for texts laid out by the grammar and for others.
import Stencil.Proofs.Lexemes
import Stencil.Proofs.LiteralText

/-! # Scanning

A place admits a few terminals. Blanks are skipped where none of them can start with a blank, which
is everywhere inside tags but for the content of an indexer. Between tags nothing is skipped, since
a blank there is literal text.
-/

namespace Stencil

open Text (isBlank)

/-! ## Trials in order -/

namespace Terminal

theorem readFirst_cons_none {t : Terminal} {s : List Char} (ts : List Terminal)
    (h : t.read s = none) : readFirst (t :: ts) s = readFirst ts s := by
  rw [readFirst, h]

theorem readFirst_cons_some {t : Terminal} {s written rest : List Char} (ts : List Terminal)
    (h : t.read s = some (written, rest)) :
    readFirst (t :: ts) s = some (t, written, rest) := by
  rw [readFirst, h]

/-- The terminal found is tried, reads what is found, and comes after none that reads anything. -/
theorem readFirst_spec {ts : List Terminal} {t : Terminal} {s written rest : List Char}
    (h : readFirst ts s = some (t, written, rest)) :
    ∃ earlier later, ts = earlier ++ t :: later ∧ t.read s = some (written, rest) ∧
      ∀ t' ∈ earlier, t'.read s = none := by
  induction ts with
  | nil => cases h
  | cons t' ts ih =>
    cases hr : t'.read s with
    | none =>
      rw [readFirst_cons_none ts hr] at h
      obtain ⟨earlier, later, rfl, hread, hearlier⟩ := ih h
      refine ⟨t' :: earlier, later, rfl, hread, ?_⟩
      intro u hu
      rcases List.mem_cons.1 hu with rfl | hu
      · exact hr
      · exact hearlier u hu
    | some found =>
      rw [readFirst_cons_some ts hr] at h
      cases h
      exact ⟨[], ts, rfl, hr, by simp⟩

theorem readFirst_mem {ts : List Terminal} {t : Terminal} {s written rest : List Char}
    (h : readFirst ts s = some (t, written, rest)) : t ∈ ts ∧ t.read s = some (written, rest) := by
  obtain ⟨earlier, later, rfl, hread, -⟩ := readFirst_spec h
  exact ⟨by simp, hread⟩

/-- Only literal text and the content of an indexer may start with a blank. -/
theorem isBlank_of_read {t : Terminal} {c : Char} {s written rest : List Char} (ht : t ≠ .text)
    (hi : t ≠ .index) (h : t.read (c :: s) = some (written, rest)) : isBlank c = false := by
  cases t with
  | text => exact absurd rfl ht
  | index => exact absurd rfl hi
  | opener k =>
    obtain ⟨keyword, blanks, hs, -⟩ := inAnyCase_of_readOpener h
    cases hs
    decide
  | closer k =>
    obtain ⟨-, hs⟩ := read_closer_iff.1 h
    cases k <;> cases hs <;> decide
  | substitution =>
    obtain ⟨-, hs, -⟩ := read_substitution_iff.1 h
    cases hs
    decide
  | name =>
    obtain ⟨hs, hne⟩ := read_name_iff.1 h
    have hname := isName_of_split hs hne
    have happend := Name.split_append (c :: s)
    rw [hs] at happend
    exact hname.startsVisible rest c s happend
  | inWord =>
    obtain ⟨-, hs, -⟩ := read_inWord_iff.1 h
    cases hs
    decide
  | finish => cases h
  | leftBracket | rightBracket | rightBrace | bar | dot =>
    obtain ⟨-, hs⟩ := (read_mark_iff rfl).1 h
    cases hs
    decide

theorem readFirst_append_of_some {ts : List Terminal} {s : List Char}
    {found : Terminal × List Char × List Char} (us : List Terminal)
    (h : readFirst ts s = some found) : readFirst (ts ++ us) s = some found := by
  induction ts with
  | nil => cases h
  | cons t ts ih =>
    cases hr : t.read s with
    | none =>
      rw [readFirst_cons_none ts hr] at h
      rw [List.cons_append, readFirst_cons_none _ hr, ih h]
    | some x =>
      rw [readFirst_cons_some ts hr] at h
      rw [List.cons_append, readFirst_cons_some _ hr, h]

theorem readFirst_append_of_none (ts us : List Terminal) {s : List Char}
    (h : ∀ t ∈ ts, t.read s = none) : readFirst (ts ++ us) s = readFirst us s := by
  induction ts with
  | nil => rfl
  | cons t ts ih =>
    rw [List.cons_append, readFirst_cons_none _ (h t List.mem_cons_self),
      ih fun u hu => h u (List.mem_cons_of_mem t hu)]

end Terminal

/-! ## Skipping blanks -/

namespace Scan

/-- The terminals leave blanks to be skipped. -/
def SkipsBlanks (admitted : List Terminal) : Prop := .text ∉ admitted ∧ .index ∉ admitted

/-- Where blanks are skipped, no terminal starts with one. -/
theorem SkipsBlanks.readFirst_eq_none {admitted : List Terminal} (h : SkipsBlanks admitted)
    {c : Char} (hc : isBlank c = true) (s : List Char) :
    Terminal.readFirst admitted (c :: s) = none := by
  cases hr : Terminal.readFirst admitted (c :: s) with
  | none => rfl
  | some found =>
    obtain ⟨t, written, rest⟩ := found
    obtain ⟨hmem, hread⟩ := Terminal.readFirst_mem hr
    have ht : t ≠ .text := by
      rintro rfl
      exact h.1 hmem
    have hi : t ≠ .index := by
      rintro rfl
      exact h.2 hmem
    rw [Terminal.isBlank_of_read ht hi hread] at hc
    cases hc

/-- A terminal that is found after blanks is found in front of them. -/
theorem ofSource_eq_token {admitted : List Terminal} {t : Terminal}
    {lead s written rest : List Char} (hskip : SkipsBlanks admitted) (hlead : AllBlank lead)
    (h : Terminal.readFirst admitted s = some (t, written, rest)) :
    ofSource admitted (lead ++ s) = .token t lead written rest := by
  suffices hafter : ∀ skipped, after skipped admitted (lead ++ s) =
      .token t (skipped.reverse ++ lead) written rest from hafter []
  induction lead with
  | nil =>
    intro skipped
    obtain ⟨hne, hs⟩ := Terminal.readFirst_append h
    cases s with
    | nil => simp_all
    | cons c s => simp [after, h]
  | cons c lead ih =>
    intro skipped
    have hc := hlead.head
    rw [List.cons_append, after, hskip.readFirst_eq_none hc]
    simp only [hc, if_true]
    rw [ih hlead.tail]
    simp

/-- Where a character starts no terminal, nothing is found. -/
theorem ofSource_eq_stuck {admitted : List Terminal} {lead s : List Char} {c : Char}
    (hskip : SkipsBlanks admitted) (hlead : AllBlank lead) (hc : isBlank c = false)
    (h : Terminal.readFirst admitted (c :: s) = none) :
    ofSource admitted (lead ++ c :: s) = .stuck lead c := by
  suffices hafter : ∀ skipped, after skipped admitted (lead ++ c :: s) =
      .stuck (skipped.reverse ++ lead) c from hafter []
  induction lead with
  | nil =>
    intro skipped
    simp [after, h, hc]
  | cons d lead ih =>
    intro skipped
    rw [List.cons_append, after, hskip.readFirst_eq_none hlead.head]
    simp only [hlead.head, if_true]
    rw [ih hlead.tail]
    simp

theorem ofSource_of_readFirst {admitted : List Terminal} {t : Terminal}
    {s written rest : List Char} (h : Terminal.readFirst admitted s = some (t, written, rest)) :
    ofSource admitted s = .token t [] written rest := by
  obtain ⟨hne, hs⟩ := Terminal.readFirst_append h
  cases s with
  | nil => simp_all
  | cons c s => simp [ofSource, after, h]

/-- What a token says about the text: it stands after blanks, and where there are any, no terminal
    could be read in front of them. -/
theorem token_spec {admitted : List Terminal} {t : Terminal} {s lead written rest : List Char}
    (h : ofSource admitted s = .token t lead written rest) :
    ∃ s', s = lead ++ s' ∧ AllBlank lead ∧
      Terminal.readFirst admitted s' = some (t, written, rest) ∧
      (lead ≠ [] → Terminal.readFirst admitted s = none) := by
  suffices hafter : ∀ s skipped, after skipped admitted s = .token t lead written rest →
      ∃ blanks s', lead = skipped.reverse ++ blanks ∧ s = blanks ++ s' ∧ AllBlank blanks ∧
        Terminal.readFirst admitted s' = some (t, written, rest) ∧
        (blanks ≠ [] → Terminal.readFirst admitted s = none) by
    obtain ⟨blanks, s', rfl, hs⟩ := hafter s [] h
    exact ⟨s', hs⟩
  clear h
  intro s
  induction s with
  | nil =>
    intro skipped h
    cases h
  | cons c s ih =>
    intro skipped h
    simp only [after] at h
    split at h
    · next hr =>
      cases h
      exact ⟨[], c :: s, by simp, rfl, .nil, hr, by simp⟩
    · next hnone =>
      split at h
      · next hc =>
        obtain ⟨blanks, s', hlead, rfl, hblanks, hr, -⟩ := ih (c :: skipped) h
        refine ⟨c :: blanks, s', by simp [hlead], rfl, ?_, hr, fun _ => hnone⟩
        intro d hd
        rcases List.mem_cons.1 hd with rfl | hd
        · exact hc
        · exact hblanks d hd
      · cases h

/-- Where the source ends there are only blanks, and no terminal could be read in front of them. -/
theorem finish_spec {admitted : List Terminal} {s lead : List Char}
    (h : ofSource admitted s = .finish lead) :
    s = lead ∧ AllBlank lead ∧ (lead ≠ [] → Terminal.readFirst admitted s = none) := by
  suffices hafter : ∀ s skipped, after skipped admitted s = .finish lead →
      lead = skipped.reverse ++ s ∧ AllBlank s ∧
        (s ≠ [] → Terminal.readFirst admitted s = none) by
    obtain ⟨rfl, hs⟩ := hafter s [] h
    exact ⟨rfl, hs⟩
  clear h
  intro s
  induction s with
  | nil =>
    intro skipped h
    cases h
    exact ⟨by simp, .nil, by simp⟩
  | cons c s ih =>
    intro skipped h
    simp only [after] at h
    split at h
    · cases h
    · next hnone =>
      split at h
      · next hc =>
        obtain ⟨hlead, hs, -⟩ := ih (c :: skipped) h
        refine ⟨by simp [hlead], ?_, fun _ => hnone⟩
        intro d hd
        rcases List.mem_cons.1 hd with rfl | hd
        · exact hc
        · exact hs d hd
      · cases h

/-! ## Inside tags -/

theorem ofSource_name {lead name following : List Char} (hlead : AllBlank lead)
    (h : IsName name following) :
    ofSource [.name] (lead ++ (name ++ following)) = .token .name lead name following := by
  apply ofSource_eq_token (by simp [SkipsBlanks]) hlead
  exact Terminal.readFirst_cons_some [] (Terminal.read_name_iff.2 ⟨split_of_isName h, h.ne_nil⟩)

theorem ofSource_index {chars : List Char} (rest : List Char) (hne : chars ≠ [])
    (hchars : ']' ∉ chars) :
    ofSource [.index] (chars ++ ']' :: rest) = .token .index [] chars (']' :: rest) := by
  refine ofSource_of_readFirst
    (Terminal.readFirst_cons_some [] (Terminal.read_index_iff.2 ⟨?_, hne⟩))
  have hp : ∀ c ∈ chars, decide (c ≠ ']') = true := by
    intro c hc
    simpa using ne_of_mem_of_not_mem hc hchars
  rw [List.takeWhile_append_of_pos hp, List.dropWhile_append_of_pos hp]
  simp

theorem ofSource_rightBracket (rest : List Char) :
    ofSource [.rightBracket] (']' :: rest) = .token .rightBracket [] [']'] rest := rfl

/-- The terminals that may follow a name, and of which all but the first may follow an indexer. -/
def followers : List Terminal := [.inWord, .leftBracket, .rightBrace, .bar, .dot]

/-- A mark is found behind blanks, after a name as well as after an indexer. -/
theorem ofSource_mark {t : Terminal} {c : Char} {lead : List Char} (rest : List Char)
    (hlead : AllBlank lead) (ht : t ∈ followers) (hc : t.mark? = some c) :
    ofSource followers (lead ++ c :: rest) = .token t lead [c] rest ∧
      ofSource followers.tail (lead ++ c :: rest) = .token t lead [c] rest := by
  have hkind : t = .leftBracket ∨ t = .rightBrace ∨ t = .bar ∨ t = .dot := by
    simp only [followers, List.mem_cons, List.not_mem_nil, or_false] at ht
    apply ht.resolve_left
    rintro rfl
    cases hc
  have hread : Terminal.readFirst followers.tail (c :: rest) = some (t, [c], rest) := by
    rcases hkind with rfl | rfl | rfl | rfl <;> cases hc <;> rfl
  have hread' : Terminal.readFirst followers (c :: rest) = some (t, [c], rest) := by
    refine (Terminal.readFirst_cons_none _ ?_).trans hread
    rcases hkind with rfl | rfl | rfl | rfl <;> cases hc <;> rfl
  exact ⟨ofSource_eq_token (by simp [SkipsBlanks, followers]) hlead hread',
    ofSource_eq_token (by simp [SkipsBlanks, followers]) hlead hread⟩

theorem ofSource_inWord {lead inBlanks : List Char} (rest : List Char) (hlead : AllBlank lead)
    (hin : AllBlank inBlanks) (hne : inBlanks ≠ []) :
    ofSource followers (lead ++ 'i' :: 'n' :: (inBlanks ++ rest)) =
      .token .inWord lead ['i', 'n'] (inBlanks ++ rest) := by
  apply ofSource_eq_token (by simp [SkipsBlanks, followers]) hlead
  refine Terminal.readFirst_cons_some _ (Terminal.read_inWord_iff.2 ⟨rfl, rfl, ?_⟩)
  obtain ⟨c, inBlanks, rfl⟩ := List.exists_cons_of_ne_nil hne
  exact ⟨c, inBlanks ++ rest, rfl, hin.head⟩

end Scan

/-! ## Between tags -/

/-- Nodes may come next. -/
def Place.IsBody : Place → Prop
  | .opening => True
  | .inside _ => True
  | .between => True
  | _ => False

theorem Place.IsBody.admitted_eq {place : Place} (h : place.IsBody) :
    ∃ kinds : List BlockKind, place.admitted = Terminal.nodeStarts ++ kinds.map .closer := by
  cases place with
  | opening => exact ⟨[], by simp [Place.admitted]⟩
  | inside kind => exact ⟨[kind], rfl⟩
  | between => exact ⟨[.fails, .each, .holds], rfl⟩
  | _ => exact h.elim

theorem readOpener_eq_none {s : List Char} (kind : BlockKind) (h : ∀ t, s ≠ '#' :: '{' :: t) :
    kind.readOpener s = none := by
  unfold BlockKind.readOpener
  split
  · next t => exact absurd rfl (h t)
  · rfl

namespace Scan

/-- What starts a node is found wherever nodes may come next. -/
theorem ofSource_body {place : Place} (hplace : place.IsBody) {t : Terminal}
    {s written rest : List Char}
    (h : Terminal.readFirst Terminal.nodeStarts s = some (t, written, rest)) :
    ofSource place.admitted s = .token t [] written rest := by
  obtain ⟨kinds, hkinds⟩ := hplace.admitted_eq
  rw [hkinds]
  exact ofSource_of_readFirst (Terminal.readFirst_append_of_some _ h)

/-- Between nodes the opening of a block is read as such. -/
theorem readFirst_opener {kind : BlockKind} {keyword blanks following : List Char}
    (hk : InAnyCase kind.keyword keyword) (hb : AllBlank blanks) (hne : blanks ≠ [])
    (hf : StartsVisible following) :
    Terminal.readFirst Terminal.nodeStarts ('#' :: '{' :: (keyword ++ (blanks ++ following))) =
      some (.opener kind, '#' :: '{' :: (keyword ++ blanks), following) := by
  have hother : ∀ kind', kind' ≠ kind →
      (Terminal.opener kind').read ('#' :: '{' :: (keyword ++ (blanks ++ following))) = none := by
    intro kind' hkind
    cases hr : kind'.readOpener ('#' :: '{' :: (keyword ++ (blanks ++ following))) with
    | none => exact hr
    | some found =>
      obtain ⟨keyword', blanks', hs, -, hk', -⟩ := inAnyCase_of_readOpener hr
      simp only [List.cons.injEq, true_and] at hs
      exact absurd (hk'.kind_eq hk hs.symm) hkind
  have hread := readOpener_of_inAnyCase hk hb hne hf
  cases kind with
  | fails => exact Terminal.readFirst_cons_some _ hread
  | each =>
    exact (Terminal.readFirst_cons_none _ (hother .fails (by decide))).trans
      (Terminal.readFirst_cons_some _ hread)
  | holds =>
    exact (Terminal.readFirst_cons_none _ (hother .fails (by decide))).trans
      ((Terminal.readFirst_cons_none _ (hother .each (by decide))).trans
        (Terminal.readFirst_cons_some _ hread))

/-- Between nodes literal text is read to its end. -/
theorem readFirst_text {pieces : List PieceForm} {following : List Char} (hne : pieces ≠ [])
    (h : PieceForm.AllFit following pieces) :
    Terminal.readFirst Terminal.nodeStarts (PieceForm.writtenAll pieces ++ following) =
      some (.text, PieceForm.writtenAll pieces, following) := by
  obtain ⟨p, pieces, rfl⟩ := List.exists_cons_of_ne_nil hne
  have hw : PieceForm.writtenAll (p :: pieces) ++ following =
      p.written ++ (PieceForm.writtenAll pieces ++ following) := by
    simp [PieceForm.writtenAll]
  have hnotag : ∀ t, PieceForm.writtenAll (p :: pieces) ++ following ≠ '#' :: '{' :: t := by
    intro t ht
    exact PieceForm.not_fits (.inr ⟨t, ht⟩) hw h.1
  have hread : Terminal.text.read (PieceForm.writtenAll (p :: pieces) ++ following) =
      some (PieceForm.writtenAll (p :: pieces), following) := by
    refine Terminal.read_text_iff.2 ⟨PieceForm.split_of_allFit h, ?_⟩
    have := PieceForm.written_ne h.1
    simp [PieceForm.writtenAll, this]
  refine (Terminal.readFirst_append_of_none [.opener .fails, .opener .each, .opener .holds] _
    ?_).trans (Terminal.readFirst_cons_some _ hread)
  intro t ht
  simp only [List.mem_cons, List.not_mem_nil, or_false] at ht
  rcases ht with rfl | rfl | rfl <;> exact readOpener_eq_none _ hnotag

/-- Between nodes the opening of a substitution is read if no block opens or closes there. -/
theorem readFirst_substitution {s : List Char} (hslash : ∀ t, s ≠ '/' :: t)
    (hblock : ¬StartsBlock s) :
    Terminal.readFirst Terminal.nodeStarts ('#' :: '{' :: s) =
      some (.substitution, ['#', '{'], s) := by
  have hopener : ∀ kind, (Terminal.opener kind).read ('#' :: '{' :: s) = none := by
    intro kind
    apply (readOpener_eq_none_iff kind s).2
    intro keyword c t hs hk
    cases hc : isBlank c with
    | false => rfl
    | true => exact absurd ⟨kind, keyword, c, t, hs, hk, hc⟩ hblock
  have htext : Terminal.text.read ('#' :: '{' :: s) = none := by
    cases hr : Terminal.text.read ('#' :: '{' :: s) with
    | none => rfl
    | some found =>
      obtain ⟨written, rest⟩ := found
      obtain ⟨hsplit, hne⟩ := Terminal.read_text_iff.1 hr
      simp only [Literal.split, Literal.splitFrom, List.reverse_nil] at hsplit
      cases hsplit
      exact absurd rfl hne
  exact (Terminal.readFirst_append_of_none
    [.opener .fails, .opener .each, .opener .holds, .text] _
    (by simp [hopener, htext])).trans
      (Terminal.readFirst_cons_some _ (Terminal.read_substitution_iff.2 ⟨rfl, rfl, hslash⟩))

/-- A closing tag is found right after the opening one and after every node. -/
theorem ofSource_closer {place : Place} {kind : BlockKind} (rest : List Char)
    (h : place = .inside kind ∨ place = .between) :
    ofSource place.admitted (kind.closer.toList ++ rest) =
      .token (.closer kind) [] kind.closer.toList rest := by
  apply ofSource_of_readFirst
  rcases h with rfl | rfl <;> cases kind <;> rfl

/-- Where nodes may come next, a text that starts with a blank starts with a terminal. -/
private theorem readFirst_body_ne_none {place : Place} (hplace : place.IsBody) {c : Char}
    {s : List Char} (hc : isBlank c = true) :
    Terminal.readFirst place.admitted (c :: s) ≠ none := by
  obtain ⟨kinds, hkinds⟩ := hplace.admitted_eq
  have hends : ¬EndsText (c :: s) := by
    rintro (h | ⟨t, h⟩)
    · cases h
    · cases h
      exact absurd hc (by decide)
  obtain ⟨pieces, following, hs, hfit⟩ := PieceForm.exists_allFit (c :: s)
  have hne : pieces ≠ [] := by
    rintro rfl
    rw [hs] at hends
    exact hends hfit.endsText
  rw [hkinds, hs, Terminal.readFirst_append_of_some _ (readFirst_text hne hfit)]
  simp

/-- What is found where nodes may come next: the opening of a block, literal text, the opening of a
    substitution, or a closing tag. Nothing is skipped in front of it. -/
theorem token_body {place : Place} (hplace : place.IsBody) {t : Terminal}
    {s lead written rest : List Char}
    (h : ofSource place.admitted s = .token t lead written rest) :
    lead = [] ∧
      ((∃ kind, t = .opener kind ∧ kind.readOpener s = some (written, rest)) ∨
        (t = .text ∧ ∃ pieces, pieces ≠ [] ∧ written = PieceForm.writtenAll pieces ∧
          s = written ++ rest ∧ PieceForm.AllFit rest pieces) ∨
        (t = .substitution ∧ written = ['#', '{'] ∧ s = '#' :: '{' :: rest ∧
          (∀ u, rest ≠ '/' :: u) ∧ ¬StartsBlock rest) ∨
        ∃ kind, t = .closer kind ∧ written = kind.closer.toList ∧
          s = kind.closer.toList ++ rest) := by
  obtain ⟨s', rfl, hblank, hfirst, hnone⟩ := token_spec h
  have hlead : lead = [] := by
    cases lead with
    | nil => rfl
    | cons c lead =>
      exact absurd (hnone (by simp)) (readFirst_body_ne_none hplace hblank.head)
  subst hlead
  refine ⟨rfl, ?_⟩
  obtain ⟨kinds, hkinds⟩ := hplace.admitted_eq
  rw [hkinds] at hfirst
  obtain ⟨hmem, hread⟩ := Terminal.readFirst_mem hfirst
  simp only [List.nil_append]
  rcases List.mem_append.1 hmem with hmem | hmem
  · simp only [Terminal.nodeStarts, List.mem_cons, List.not_mem_nil, or_false] at hmem
    rcases hmem with rfl | rfl | rfl | rfl | rfl
    · exact .inl ⟨_, rfl, hread⟩
    · exact .inl ⟨_, rfl, hread⟩
    · exact .inl ⟨_, rfl, hread⟩
    · obtain ⟨hsplit, hne⟩ := Terminal.read_text_iff.1 hread
      obtain ⟨pieces, rfl, hfit⟩ := PieceForm.allFit_of_split hsplit
      have hpieces : pieces ≠ [] := by
        rintro rfl
        exact hne rfl
      exact .inr (.inl ⟨rfl, pieces, hpieces, rfl, (Terminal.readFirst_append hfirst).2.symm, hfit⟩)
    · obtain ⟨rfl, rfl, hslash⟩ := Terminal.read_substitution_iff.1 hread
      refine .inr (.inr (.inl ⟨rfl, rfl, rfl, hslash, ?_⟩))
      -- The opening of a block would have been found first.
      rintro ⟨kind, keyword, c, u, rfl, hk, hc⟩
      have hblanks : AllBlank ((c :: u).takeWhile isBlank) := allBlank_takeWhile _
      have hopener := readFirst_opener hk hblanks (by simp [hc]) (startsVisible_dropWhile (c :: u))
      rw [List.takeWhile_append_dropWhile] at hopener
      rw [Terminal.readFirst_append_of_some _ hopener] at hfirst
      cases hfirst
  · obtain ⟨kind, -, rfl⟩ := List.mem_map.1 hmem
    obtain ⟨rfl, rfl⟩ := Terminal.read_closer_iff.1 hread
    exact .inr (.inr (.inr ⟨kind, rfl, rfl, rfl⟩))

/-- What is found as literal text are pieces that fit, with no blanks before them. -/
theorem token_text {place : Place} (hplace : place.IsBody) {s lead written rest : List Char}
    (h : ofSource place.admitted s = .token .text lead written rest) :
    lead = [] ∧ ∃ pieces, pieces ≠ [] ∧ written = PieceForm.writtenAll pieces ∧
      PieceForm.AllFit rest pieces := by
  obtain ⟨hlead, ⟨_, ht, -⟩ | ⟨-, pieces, hne, hwritten, -, hfit⟩ | ⟨ht, -⟩ | ⟨_, ht, -⟩⟩ :=
    token_body hplace h
  · cases ht
  · exact ⟨hlead, pieces, hne, hwritten, hfit⟩
  · cases ht
  · cases ht

/-- Where the opening of a substitution is found, no block opens or closes. -/
theorem token_substitution {place : Place} (hplace : place.IsBody)
    {s lead written rest : List Char}
    (h : ofSource place.admitted s = .token .substitution lead written rest) :
    (∀ u, rest ≠ '/' :: u) ∧ ¬StartsBlock rest := by
  obtain ⟨-, ⟨_, ht, -⟩ | ⟨ht, -⟩ | ⟨-, -, -, hrest⟩ | ⟨_, ht, -⟩⟩ := token_body hplace h
  · cases ht
  · cases ht
  · exact hrest
  · cases ht

theorem finish_body {place : Place} (hplace : place.IsBody) {s lead : List Char}
    (h : ofSource place.admitted s = .finish lead) : s = [] := by
  obtain ⟨rfl, hblank, hnone⟩ := finish_spec h
  cases s with
  | nil => rfl
  | cons c s => exact absurd (hnone (by simp)) (readFirst_body_ne_none hplace hblank.head)

/-! ## What a token inside a tag says -/

/-- What is found where a name is due is a name behind blanks. -/
theorem token_name {s lead written rest : List Char} {t : Terminal}
    (h : ofSource [.name] s = .token t lead written rest) :
    t = .name ∧ s = lead ++ (written ++ rest) ∧ AllBlank lead ∧ IsName written rest := by
  obtain ⟨s', rfl, hblank, hfirst, -⟩ := token_spec h
  obtain ⟨hmem, hread⟩ := Terminal.readFirst_mem hfirst
  obtain rfl := List.mem_singleton.1 hmem
  obtain ⟨hsplit, hne⟩ := Terminal.read_name_iff.1 hread
  have happend := (Terminal.read_append hread).2
  exact ⟨rfl, by rw [happend], hblank, isName_of_split hsplit hne⟩

/-- The content of an indexer is all there is up to the next closing bracket. -/
theorem token_index {s lead written rest : List Char} {t : Terminal}
    (h : ofSource [.index] s = .token t lead written rest) :
    t = .index ∧ lead = [] ∧ s = written ++ rest ∧ written ≠ [] ∧ ']' ∉ written ∧
      ∀ c u, rest = c :: u → c = ']' := by
  obtain ⟨s', rfl, hblank, hfirst, hnone⟩ := token_spec h
  have hlead : lead = [] := by
    cases lead with
    | nil => rfl
    | cons c lead =>
      have hc : c ≠ ']' := by
        rintro rfl
        exact absurd hblank.head (by decide)
      have hread := Terminal.read_index_iff (s := c :: lead ++ s').2 ⟨rfl, by simp [hc]⟩
      have := hnone (by simp)
      rw [Terminal.readFirst_cons_some [] hread] at this
      cases this
  subst hlead
  obtain ⟨hmem, hread⟩ := Terminal.readFirst_mem hfirst
  obtain rfl := List.mem_singleton.1 hmem
  obtain ⟨hsplit, hne⟩ := Terminal.read_index_iff.1 hread
  refine ⟨rfl, rfl, (Terminal.read_append hread).2.symm, hne, ?_, ?_⟩
  · cases hsplit
    intro hmem
    simpa using List.mem_takeWhile_imp hmem
  · intro c u hu
    cases hsplit
    have := List.head?_dropWhile_not (fun x => decide (x ≠ ']')) ([] ++ s')
    rw [List.nil_append, hu] at this
    simpa using this

theorem token_rightBracket {s lead written rest : List Char} {t : Terminal}
    (h : ofSource [.rightBracket] s = .token t lead written rest) :
    t = .rightBracket ∧ s = lead ++ ']' :: rest ∧ AllBlank lead ∧ written = [']'] := by
  obtain ⟨s', rfl, hblank, hfirst, -⟩ := token_spec h
  obtain ⟨hmem, hread⟩ := Terminal.readFirst_mem hfirst
  obtain rfl := List.mem_singleton.1 hmem
  obtain ⟨rfl, rfl⟩ := (Terminal.read_mark_iff rfl).1 hread
  exact ⟨rfl, rfl, hblank, rfl⟩

/-- After a name or an indexer there is a mark, or the word `in` with a blank after it. -/
theorem token_followers {s lead written rest : List Char} {t : Terminal}
    (h : ofSource followers s = .token t lead written rest ∨
      ofSource followers.tail s = .token t lead written rest) :
    AllBlank lead ∧ s = lead ++ (written ++ rest) ∧
      ((∃ c, t ∈ followers ∧ t.mark? = some c ∧ written = [c]) ∨
        (t = .inWord ∧ written = ['i', 'n'] ∧ ∃ c u, rest = c :: u ∧ isBlank c = true)) := by
  have hspec : ∃ s', s = lead ++ s' ∧ AllBlank lead ∧ t ∈ followers ∧
      t.read s' = some (written, rest) := by
    rcases h with h | h
    · obtain ⟨s', hs, hblank, hfirst, -⟩ := token_spec h
      exact ⟨s', hs, hblank, Terminal.readFirst_mem hfirst⟩
    · obtain ⟨s', hs, hblank, hfirst, -⟩ := token_spec h
      obtain ⟨hmem, hread⟩ := Terminal.readFirst_mem hfirst
      exact ⟨s', hs, hblank, List.mem_of_mem_tail hmem, hread⟩
  obtain ⟨s', rfl, hblank, hmem, hread⟩ := hspec
  refine ⟨hblank, by rw [(Terminal.read_append hread).2], ?_⟩
  have hmem' := hmem
  simp only [followers, List.mem_cons, List.not_mem_nil, or_false] at hmem'
  rcases hmem' with rfl | rfl | rfl | rfl | rfl
  · obtain ⟨rfl, rfl, hblank⟩ := Terminal.read_inWord_iff.1 hread
    exact .inr ⟨rfl, rfl, hblank⟩
  all_goals
    obtain ⟨rfl, rfl⟩ := (Terminal.read_mark_iff rfl).1 hread
    exact .inl ⟨_, hmem, rfl, rfl⟩

end Scan

end Stencil
