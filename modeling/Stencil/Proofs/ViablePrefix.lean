-- SUMMARY: What stands before a fault is the beginning of a template or a bare path.
import Stencil.Proofs.Completion
import Stencil.Proofs.Parsing
import Stencil.Proofs.Plain

/-! # Viable prefixes

A fault is not named too late: what stands before it is the beginning of a source that is read
without one. It goes on with the completion of the state at the fault.

The last token before the fault needs care, since it was found with something else after it. A name
or literal text goes on with a letter instead of ending where it did. All other tokens, and those
before the last one, are found again: what has been read after them starts alike, and a completion
starts with nothing that could make another token of them.
-/

namespace Stencil

open Text (isBlank)
open Name (isNameChar)

/-! ## Names and texts that go on -/

/-- A character of a text in two parts is in one of them. -/
private theorem append_eq_append_cons {s t v w : List Char} {c : Char}
    (h : s ++ t = v ++ c :: w) :
    (∃ w', s = v ++ c :: w' ∧ w = w' ++ t) ∨ ∃ v', v = s ++ v' ∧ t = v' ++ c :: w := by
  rcases List.append_eq_append_iff.1 h with ⟨a, rfl, ha⟩ | ⟨a, rfl, ha⟩
  · exact .inr ⟨a, rfl, ha⟩
  · cases a with
    | nil => exact .inr ⟨[], by simp, ha.symm⟩
    | cons d a =>
      cases ha
      exact .inl ⟨a, rfl, rfl⟩

/-- A name goes on over the blanks after it and a letter. -/
theorem IsName.extend {name blanks left u : List Char} (h : IsName name (blanks ++ left))
    (hblanks : AllBlank blanks) (hu : EndsNames u) : IsName (name ++ (blanks ++ ['x'])) u := by
  -- The letter is part of nothing that ends a name.
  have hends : ∀ {p : List Char}, EndsName (p ++ 'x' :: u) → EndsName p := by
    intro p hp
    rcases hp.of_append with h | ⟨-, ⟨_, h⟩ | ⟨_, _, h, -⟩⟩ | ⟨-, _, h⟩ | ⟨-, c, _, h, hc⟩
    · exact h
    · cases h
    · cases h
    · cases h
    · cases h
      exact absurd hc (by decide)
  refine ⟨?_, ?_, hu⟩
  · obtain ⟨c, s, rfl, hc⟩ := h.starts
    exact ⟨c, s ++ (blanks ++ ['x']), rfl, hc⟩
  · intro v c w hc
    rcases append_eq_append_cons hc with ⟨w', rfl, rfl⟩ | ⟨v', rfl, hblanks'⟩
    · rcases h.goesOn v c w' rfl with hname | ⟨hblank, hnot⟩
      · exact .inl hname
      · refine .inr ⟨hblank, fun he => hnot ?_⟩
        have hbefore : EndsName (w' ++ blanks) := hends (by simpa using he)
        simpa using hbefore.append left
    · rcases append_eq_append_cons hblanks' with ⟨w', rfl, rfl⟩ | ⟨v'', rfl, hletter⟩
      · refine .inr ⟨hblanks c (by simp), fun he => ?_⟩
        have hbefore : EndsName w' := hends (by simpa using he)
        rcases hbefore with ⟨t, rfl⟩ | ⟨d, t, rfl, -⟩
        · exact absurd (hblanks '|' (by simp)) (by decide)
        · exact absurd (hblanks 'i' (by simp)) (by decide)
      · rcases List.singleton_eq_append_iff.1 hletter with ⟨rfl, hx⟩ | ⟨rfl, hx⟩
        · cases hx
          exact .inl (by decide)
        · cases hx

namespace PieceForm

/-- Literal text goes on with a letter. -/
theorem AllFit.extend {pieces : List PieceForm} {following u : List Char}
    (h : AllFit following pieces) (hu : EndsText u) :
    ∃ p pieces', writtenAll (p :: pieces') = writtenAll pieces ++ ['x'] ∧
      AllFit u (p :: pieces') := by
  have hx : ∀ c s, u = c :: s → c = '#' := by
    rintro c s rfl
    rcases hu with h | ⟨t, h⟩ <;> cases h
    rfl
  have hnil : AllFit u [] := (allFit_nil_iff u).2 hu
  have hrun : (run ['x']).Fits u := ⟨by simp, by simp, hx⟩
  induction pieces with
  | nil => exact ⟨run ['x'], [], rfl, hrun, hnil⟩
  | cons p pieces ih =>
    cases pieces with
    | nil =>
      -- The last piece may turn into another one.
      cases p with
      | run chars =>
        refine ⟨run (chars ++ ['x']), [], by simp [written], ⟨by simp, ?_, hx⟩, hnil⟩
        simpa using h.1.2.1
      | lastHash => exact ⟨hashAnd 'x', [], rfl, ⟨by simp, by simp⟩, hnil⟩
      | hashBeforeTag =>
        exact ⟨hashAnd '#', [run ['x']], rfl, ⟨by simp, by simp [written]⟩, hrun, hnil⟩
      | escape => exact ⟨escape, [run ['x']], rfl, trivial, hrun, hnil⟩
      | hashAnd c =>
        exact ⟨hashAnd c, [run ['x']], rfl, ⟨h.1.1, by simp [written]⟩, hrun, hnil⟩
    | cons q pieces =>
      obtain ⟨q', pieces', hw, hfit⟩ := ih h.2
      refine ⟨p, q' :: pieces', by rw [writtenAll_cons, hw]; simp, h.1.congr_head ?_ ?_, hfit⟩
      · obtain ⟨c, s, hs⟩ := List.exists_cons_of_ne_nil (written_ne h.2.1)
        rw [hw, writtenAll_cons, hs]
        rfl
      · exact iff_of_false (not_exists.2 h.2.ne_tag) (not_exists.2 hfit.ne_tag)

/-- Literal text stays literal text in front of another text, and may go on with a part of that,
    unless a hash mark at its end becomes that of a tag. -/
theorem AllFit.reread {pieces : List PieceForm} {following u : List Char}
    (h : AllFit following pieces)
    (hhash : ∀ w v, writtenAll pieces = w ++ ['#'] → u ≠ '{' :: v) :
    ∃ pieces' more rest, writtenAll pieces' = writtenAll pieces ++ more ∧ u = more ++ rest ∧
      AllFit rest pieces' := by
  obtain ⟨pieces', rest, hs, hfit⟩ := exists_allFit (writtenAll pieces ++ u)
  rcases List.append_eq_append_iff.1 hs with ⟨more, hmore, rfl⟩ | ⟨lost, hlost, rfl⟩
  · exact ⟨pieces', more, rest, hmore, rfl, hfit⟩
  · -- What is lost at the end starts with a tag, and so it would have been lost before.
    suffices hnil : lost = [] by
      subst hnil
      exact ⟨pieces', [], u, by simpa using hlost.symm, rfl, hfit⟩
    rcases hfit.endsText with hnil | ⟨t, ht⟩
    · exact (List.append_eq_nil_iff.1 hnil).1
    · cases lost with
      | nil => rfl
      | cons c lost =>
        cases lost with
        | nil =>
          cases ht
          exact absurd rfl (hhash _ t hlost)
        | cons d lost =>
          cases ht
          have hbefore : AllFit ('#' :: '{' :: lost ++ following) pieces' := hfit.congr (by simp)
          have hsplit := split_of_allFit hbefore
          rw [← List.append_assoc, ← hlost, split_of_allFit h] at hsplit
          obtain ⟨hwritten, -⟩ := Prod.mk.inj hsplit
          rw [hlost] at hwritten
          simp at hwritten

end PieceForm

/-! ## Tokens in front of another text -/

/-- The token is found as well if it is followed by another text. -/
def Terminal.Keeps (written rest rest' : List Char) : Terminal → Prop
  | .opener _ => StartsVisible rest'
  | .substitution => (∀ u, rest' ≠ '/' :: u) ∧ ¬StartsBlock rest'
  | .text => rest.take 2 = rest'.take 2
  | .name => IsName written rest'
  | .index => ∃ u, rest' = ']' :: u
  | .inWord => ∃ c u, rest' = c :: u ∧ isBlank c = true
  | _ => True

namespace Scan

theorem token_mem {admitted : List Terminal} {t : Terminal} {s lead written rest : List Char}
    (h : ofSource admitted s = .token t lead written rest) : t ∈ admitted := by
  obtain ⟨_, _, _, hfirst, -⟩ := token_spec h
  exact (Terminal.readFirst_mem hfirst).1

/-- A token that blanks may be skipped in front of does not start with one. -/
theorem token_startsVisible {admitted : List Terminal} {t : Terminal}
    {s lead written rest : List Char} (hskip : SkipsBlanks admitted)
    (h : ofSource admitted s = .token t lead written rest) : StartsVisible (written ++ rest) := by
  obtain ⟨left, hs, hskips⟩ := skips_lead admitted s
  have happend := (token_append h).2
  rw [h] at hs hskips
  rw [List.append_assoc, hs] at happend
  rw [List.append_cancel_left happend]
  exact hskips.visible hskip

/-- Between nodes the same token is found in front of another text, if that text leaves it as it is.
    -/
theorem rescan_body {place : Place} (hplace : place.IsBody) {t : Terminal}
    {lead written rest rest' : List Char}
    (h : ofSource place.admitted (lead ++ (written ++ rest)) = .token t lead written rest)
    (hkeeps : t.Keeps written rest rest') :
    ofSource place.admitted (lead ++ (written ++ rest')) = .token t lead written rest' := by
  have hmem := token_mem h
  obtain ⟨rfl, ⟨kind, rfl, hread⟩ | ⟨rfl, pieces, hne, rfl, -, hfit⟩ | ⟨rfl, rfl, -⟩ |
    ⟨kind, rfl, rfl, -⟩⟩ := token_body hplace h
  · obtain ⟨keyword, blanks, -, rfl, hk, hb, hne, -⟩ := inAnyCase_of_readOpener hread
    simpa using ofSource_body hplace (readFirst_opener hk hb hne hkeeps)
  · exact ofSource_body hplace (readFirst_text hne (hfit.congr hkeeps))
  · exact ofSource_body hplace (readFirst_substitution hkeeps.1 hkeeps.2)
  · apply ofSource_closer
    cases place with
    | opening => simp [Place.admitted, Terminal.nodeStarts] at hmem
    | inside kind' =>
      left
      simpa [Place.admitted, Terminal.nodeStarts, eq_comm] using hmem
    | between => exact .inr rfl
    | _ => exact hplace.elim

theorem rescan_follower {admitted : List Terminal} {t : Terminal}
    {lead written rest rest' : List Char}
    (hadmitted : admitted = followers ∨ admitted = followers.tail)
    (h : ofSource admitted (lead ++ (written ++ rest)) = .token t lead written rest)
    (hkeeps : t.Keeps written rest rest') :
    ofSource admitted (lead ++ (written ++ rest')) = .token t lead written rest' := by
  have hmem := token_mem h
  have hfound : ofSource followers (lead ++ (written ++ rest)) = .token t lead written rest ∨
      ofSource followers.tail (lead ++ (written ++ rest)) = .token t lead written rest := by
    rcases hadmitted with rfl | rfl
    · exact .inl h
    · exact .inr h
  obtain ⟨hlead, -, ⟨c, ht, hmark, rfl⟩ | ⟨rfl, rfl, -⟩⟩ := token_followers hfound
  · rcases hadmitted with rfl | rfl
    · exact (ofSource_mark rest' hlead ht hmark).1
    · exact (ofSource_mark rest' hlead ht hmark).2
  · rcases hadmitted with rfl | rfl
    · obtain ⟨c, u, rfl, hc⟩ := hkeeps
      have hblank : AllBlank [c] := by simpa [AllBlank] using hc
      exact ofSource_inWord u hlead hblank (by simp)
    · simp [followers] at hmem

/-- What keeps a token is enough to find it again. -/
theorem rescan {place : Place} {t : Terminal} {lead written rest rest' : List Char}
    (h : ofSource place.admitted (lead ++ (written ++ rest)) = .token t lead written rest)
    (hkeeps : t.Keeps written rest rest') :
    ofSource place.admitted (lead ++ (written ++ rest')) = .token t lead written rest' := by
  cases place with
  | opening | inside | between =>
    refine rescan_body ?_ h hkeeps
    trivial
  | enumerator | step | filter =>
    obtain ⟨rfl, -, hlead, -⟩ := token_name h
    exact ofSource_name hlead hkeeps
  | afterEnumerator | afterName | afterFilter => exact rescan_follower (.inl rfl) h hkeeps
  | afterIndexer => exact rescan_follower (.inr rfl) h hkeeps
  | index =>
    obtain ⟨rfl, rfl, -, hne, hwritten, -⟩ := token_index h
    obtain ⟨u, rfl⟩ := hkeeps
    exact ofSource_index u hne hwritten
  | afterIndex =>
    obtain ⟨rfl, -, hlead, rfl⟩ := token_rightBracket h
    exact ofSource_eq_token (by simp [SkipsBlanks, Place.admitted]) hlead rfl

end Scan

/-! ## Tokens before a halt -/

theorem AllBlank.eq_nil_of_endsName {blanks s : List Char} (h : AllBlank blanks)
    (hends : EndsName (blanks ++ s)) : blanks = [] := by
  cases blanks with
  | nil => rfl
  | cons c blanks =>
    have hc := h.head
    rcases hends with ⟨_, hs⟩ | ⟨_, _, hs, -⟩ <;>
      · obtain ⟨rfl, -⟩ := List.cons.inj hs
        exact absurd hc (by decide)

/-- A closing tag starts like every tag. -/
theorem BlockKind.exists_closer (kind : BlockKind) :
    ∃ u, kind.closer.toList = '#' :: '{' :: u := by
  cases kind <;> exact ⟨_, rfl⟩

/-- A text that starts with a letter of no keyword, or with a mark, as the completions of most
    states do. -/
def Resumes (u : List Char) : Prop := ∀ c s, u = c :: s → c ∈ ['x', ']', '}', '#', '[', '.', '|']

theorem resumes_nil : Resumes [] := by simp [Resumes]

theorem resumes_cons {c : Char} (u : List Char) (h : c ∈ ['x', ']', '}', '#', '[', '.', '|']) :
    Resumes (c :: u) := by
  intro d s hd
  cases hd
  exact h

theorem Resumes.startsVisible {u : List Char} (h : Resumes u) : StartsVisible u := by
  intro c s hs
  have hc := h c s hs
  simp only [List.mem_cons, List.not_mem_nil, or_false] at hc
  rcases hc with rfl | rfl | rfl | rfl | rfl | rfl | rfl <;> decide

/-- No opening of a block goes on with a completion. -/
theorem Resumes.not_startsBlock {s u : List Char} (h : Resumes u) (hs : ¬StartsBlock s) :
    ¬StartsBlock (s ++ u) := by
  refine mt (fun hblock => hblock.of_append ?_) hs
  intro c v hc
  refine ⟨h.startsVisible c v hc, fun kind => ?_⟩
  have hmem := h c v hc
  simp only [List.mem_cons, List.not_mem_nil, or_false] at hmem
  rcases hmem with rfl | rfl | rfl | rfl | rfl | rfl | rfl <;>
    cases kind <;> simp [BlockKind.keyword, isLetter]

namespace Reading

/-- But for places where the word may stand, a completion starts with a mark or the letter of no
    keyword. -/
theorem resumes_completion {r : Reading} (h : r.place.admitted ≠ Scan.followers) :
    Resumes r.completion := by
  obtain ⟨blocks, nodes, place⟩ := r
  have hclosers : Resumes (closers ⟨blocks, nodes, place⟩) := by
    intro c s hs
    cases blocks with
    | nil => cases hs
    | cons block blocks =>
      obtain ⟨t, ht⟩ := block.1.kind.exists_closer
      simp only [closers, List.flatMap_cons, ht] at hs
      cases hs
      simp
  cases place with
  | opening | inside | between => exact hclosers
  | afterIndexer goal =>
    cases goal with
    | bare => exact hclosers
    | _ => intro c s hs; cases hs; simp
  | afterEnumerator | afterName | afterFilter => exact absurd rfl h
  | _ => intro c s hs; cases hs; simp

/-- Between nodes the completion ends literal text. -/
theorem endsText_completion {r : Reading} (h : r.place.IsBody) : EndsText r.completion := by
  obtain ⟨blocks, nodes, place⟩ := r
  have hending : place.ending = [] := by cases place <;> first | rfl | exact h.elim
  rw [completion, hending]
  cases blocks with
  | nil => exact .inl rfl
  | cons block blocks =>
    obtain ⟨head, outer⟩ := block
    obtain ⟨s, hs⟩ := head.kind.exists_closer
    exact .inr ⟨_, by rw [List.nil_append, closers, List.flatMap_cons, hs]; rfl⟩

theorem completion_of_rightBracket {r : Reading} (h : r.place.admitted = [.rightBracket]) :
    ∃ u, r.completion = ']' :: u := by
  obtain ⟨blocks, nodes, place⟩ := r
  cases place <;> first | exact ⟨_, rfl⟩ | cases h

/-! ### What comes after a token -/

variable {r r' : Reading} {p : Position} {lead written : List Char} {next : Option Char}

theorem admitted_shift_name (h : r.shift ⟨.name, p, lead, written⟩ next = some r') :
    r'.place.admitted = Scan.followers := by
  obtain ⟨blocks, nodes, place⟩ := r
  cases place <;> cases h <;> rfl

theorem admitted_shift_inWord (h : r.shift ⟨.inWord, p, lead, written⟩ next = some r') :
    r'.place.admitted = [.name] := by
  obtain ⟨blocks, nodes, place⟩ := r
  cases place <;> cases h
  rfl

theorem isBody_shift_text (h : r.shift ⟨.text, p, lead, written⟩ next = some r') :
    r'.place.IsBody := by
  obtain ⟨blocks, nodes, place⟩ := r
  cases place <;> cases h <;> trivial

theorem admitted_shift_index (h : r.shift ⟨.index, p, lead, written⟩ next = some r') :
    r'.place.admitted = [.rightBracket] := by
  obtain ⟨blocks, nodes, place⟩ := r
  cases place <;> cases h
  rfl

theorem afterText_shift_text (h : r.shift ⟨.text, p, lead, written⟩ next = some r') :
    r'.AfterText = true := by
  obtain ⟨blocks, nodes, place⟩ := r
  cases place <;> cases h <;> rfl

/-- Only a name leads to a place where the word may stand. -/
theorem admitted_shift_ne_followers {t : Terminal} (ht : t ≠ .name)
    (h : r.shift ⟨t, p, lead, written⟩ next = some r') : r'.place.admitted ≠ Scan.followers := by
  intro hadmitted
  obtain ⟨blocks, nodes, place⟩ := r
  cases place with
  | opening | inside | between =>
    cases t with
    | opener kind => cases kind <;> cases h <;> cases hadmitted
    | closer kind =>
      obtain ⟨_, _, -, -, -, hplace⟩ := leave_eq h
      rw [hplace] at hadmitted
      cases hadmitted
    | text | substitution => cases h; cases hadmitted
    | _ => cases h
  | afterName goal | afterIndexer goal =>
    cases t with
    | dot | leftBracket => cases h; cases hadmitted
    | bar | rightBrace => cases goal <;> cases h <;> cases hadmitted
    | _ => cases h
  | afterFilter => cases t <;> cases h <;> cases hadmitted
  | enumerator | step | filter => cases t <;> cases h; exact absurd rfl ht
  | _ => cases t <;> cases h; cases hadmitted

/-- Where blanks are skipped, reading does not halt in front of one. -/
theorem Halts.startsVisible {last : Reading} {before read left : List Char}
    (h : r.Halts before read left last) (hskip : Scan.SkipsBlanks r.place.admitted)
    (hread : read = []) : StartsVisible left := by
  cases h with
  | here skips => exact skips.visible hskip
  | onward scan =>
    obtain ⟨-, hnil⟩ := List.append_eq_nil_iff.1 hread
    exact absurd (List.append_eq_nil_iff.1 hnil).1 (Scan.token_append scan).1

/-- What ends a name at a blank after it has been read if a token after the name has been. -/
theorem Halts.endsName {last : Reading} {before before' read left u s s' : List Char}
    {t : Terminal} {c : Char} (hhalts : r'.Halts before' read left last)
    (hplace : r.place.admitted = Scan.followers)
    (hscan : Scan.ofSource r.place.admitted (lead ++ (written ++ (read ++ left))) =
      .token t lead written (read ++ left))
    (hshift : r.shift ⟨t, .after before, lead, written⟩ next = some r')
    (hs : lead ++ (written ++ (read ++ left)) = c :: s)
    (hs' : lead ++ (written ++ (read ++ u)) = c :: s') (hc : isBlank c = true)
    (hends : EndsName s) : EndsName s' := by
  rw [hplace] at hscan
  obtain ⟨hlead, -, htoken⟩ := Scan.token_followers (.inl hscan)
  cases lead with
  | nil =>
    have hskip : Scan.SkipsBlanks Scan.followers := by simp [Scan.SkipsBlanks, Scan.followers]
    have hvisible := Scan.token_startsVisible hskip hscan c s hs
    rw [hc] at hvisible
    cases hvisible
  | cons d blanks =>
    obtain ⟨-, rfl⟩ := List.cons.inj hs
    obtain ⟨-, rfl⟩ := List.cons.inj hs'
    obtain rfl := hlead.tail.eq_nil_of_endsName hends
    rcases htoken with ⟨m, ht, hmark, rfl⟩ | ⟨rfl, rfl, e, v, he, hblank⟩
    · have hm : m = '|' := by
        rcases hends with ⟨_, h⟩ | ⟨_, _, h, -⟩
        · exact (List.cons.inj h).1
        · obtain ⟨rfl, -⟩ := List.cons.inj h
          cases t <;> cases hmark
      exact .inl ⟨read ++ u, by rw [hm]; rfl⟩
    · cases read with
      | nil =>
        have hskip : Scan.SkipsBlanks r'.place.admitted := by
          rw [admitted_shift_inWord hshift]
          simp [Scan.SkipsBlanks]
        have hvisible := hhalts.startsVisible hskip rfl e v he
        rw [hblank] at hvisible
        cases hvisible
      | cons f read =>
        obtain ⟨rfl, -⟩ := List.cons.inj he
        exact .inr ⟨f, read ++ u, rfl, hblank⟩

end Reading

/-! ### Completing what has been read -/

namespace Place

variable {place : Place}

/-- Nodes come next where something that starts a node is tried. -/
theorem isBody_of_mem {t : Terminal} (h : t ∈ place.admitted) (ht : t ∈ Terminal.nodeStarts) :
    place.IsBody := by
  cases place with
  | opening | inside | between => trivial
  | _ =>
    revert h ht
    cases t <;> simp [admitted, Terminal.nodeStarts]

theorem admitted_of_name (h : .name ∈ place.admitted) : place.admitted = [.name] := by
  cases place <;> first | rfl | simp [admitted, Terminal.nodeStarts] at h

theorem admitted_of_index (h : .index ∈ place.admitted) : place.admitted = [.index] := by
  cases place <;> first | rfl | simp [admitted, Terminal.nodeStarts] at h

end Place

namespace Reading

variable {r r' last : Reading} {before before' lead written read left rest u v : List Char}
  {t : Terminal}

/-- A token is kept if what has been read after it goes on differently. For most tokens this takes
    no more than that something has been read. -/
theorem Halts.keeps (hhalts : r'.Halts before' read left last)
    (hscan : Scan.ofSource r.place.admitted (lead ++ (written ++ (read ++ left))) =
      .token t lead written (read ++ left)) {p : Position} {next : Option Char}
    (hshift : r.shift ⟨t, p, lead, written⟩ next = some r')
    (hopener : read = [] → ∀ kind, t = .opener kind → StartsVisible u)
    (hsubstitution : t = .substitution → (∀ v, read ++ u ≠ '/' :: v) ∧ ¬StartsBlock (read ++ u))
    (hname : t = .name → IsName written (read ++ u))
    (htext : t = .text → (read ++ left).take 2 = (read ++ u).take 2)
    (hindex : t = .index → read = [] → ∃ v, u = ']' :: v) :
    t.Keeps written (read ++ left) (read ++ u) := by
  obtain ⟨s, hs, -, hfirst, -⟩ := Scan.token_spec hscan
  have hread := (Terminal.readFirst_mem hfirst).2
  cases t with
  | name => exact hname rfl
  | text => exact htext rfl
  | substitution => exact hsubstitution rfl
  | opener kind =>
    obtain ⟨_, _, -, -, -, -, -, hvisible⟩ := inAnyCase_of_readOpener hread
    cases read with
    | nil => exact hopener rfl kind rfl
    | cons c read =>
      intro d v hd
      cases hd
      exact hvisible _ _ rfl
  | index =>
    cases read with
    | nil => exact hindex rfl rfl
    | cons c read =>
      rw [Place.admitted_of_index (Scan.token_mem hscan)] at hscan
      obtain ⟨-, -, -, -, -, hbracket⟩ := Scan.token_index hscan
      obtain rfl := hbracket c _ rfl
      exact ⟨read ++ u, rfl⟩
  | inWord =>
    obtain ⟨-, -, c, v, hv, hc⟩ := Terminal.read_inWord_iff.1 hread
    cases read with
    | nil =>
      have hskip : Scan.SkipsBlanks r'.place.admitted := by
        rw [admitted_shift_inWord hshift]
        simp [Scan.SkipsBlanks]
      have hvisible := hhalts.startsVisible hskip rfl c v hv
      rw [hc] at hvisible
      cases hvisible
    | cons d read =>
      cases hv
      exact ⟨c, read ++ u, rfl, hc⟩
  | _ => trivial

/-- After literal text, the next token takes up the two characters that tell a tag. -/
theorem two_le_written {rest : List Char} (hbody : r.place.IsBody)
    (hscan : Scan.ofSource r.place.admitted (lead ++ (written ++ rest)) =
      .token t lead written rest) (hends : EndsText (lead ++ (written ++ rest))) :
    2 ≤ written.length := by
  obtain ⟨rfl, ⟨kind, rfl, hread⟩ | ⟨rfl, pieces, hne, rfl, -, hfit⟩ | ⟨-, rfl, -⟩ |
    ⟨kind, -, rfl, -⟩⟩ := Scan.token_body hbody hscan
  · obtain ⟨keyword, blanks, -, rfl, -⟩ := inAnyCase_of_readOpener hread
    simp
  · obtain ⟨q, pieces, rfl⟩ := List.exists_cons_of_ne_nil hne
    exact absurd hfit.1 (PieceForm.not_fits hends (by simp))
  · simp
  · cases kind <;> decide

/-- A token with another one after it is found again whatever comes after the halt, unless it opens
    a substitution that turns into something else. -/
theorem Halts.rescan {lead₂ written₂ : List Char} {t₂ : Terminal} {r₂ : Reading}
    (halts : r₂.Halts (before' ++ lead₂ ++ written₂) read left last)
    (scan : Scan.ofSource r'.place.admitted (lead₂ ++ (written₂ ++ (read ++ left))) =
      .token t₂ lead₂ written₂ (read ++ left))
    (shift : r'.shift ⟨t₂, .after before', lead₂, written₂⟩ (read ++ left).head? = some r₂)
    (hscan : Scan.ofSource r.place.admitted
      (lead ++ (written ++ (lead₂ ++ (written₂ ++ read) ++ left))) =
      .token t lead written (lead₂ ++ (written₂ ++ read) ++ left)) {p : Position}
    {next : Option Char} (hshift : r.shift ⟨t, p, lead, written⟩ next = some r')
    (hsubstitution : t = .substitution → (∀ v, lead₂ ++ (written₂ ++ read) ++ u ≠ '/' :: v) ∧
      ¬StartsBlock (lead₂ ++ (written₂ ++ read) ++ u)) :
    Scan.ofSource r.place.admitted (lead ++ (written ++ (lead₂ ++ (written₂ ++ read) ++ u))) =
      .token t lead written (lead₂ ++ (written₂ ++ read) ++ u) := by
  have hmem := Scan.token_mem hscan
  have hne : lead₂ ++ (written₂ ++ read) ≠ [] := by
    simp [(Scan.token_append scan).1]
  refine Scan.rescan hscan
    ((Halts.onward scan shift halts).keeps hscan hshift ?_ hsubstitution ?_ ?_ ?_)
  · intro hnil
    exact absurd hnil hne
  · rintro rfl
    rw [Place.admitted_of_name hmem] at hscan
    obtain ⟨-, -, -, hname⟩ := Scan.token_name hscan
    have hhead : ∀ v, (lead₂ ++ (written₂ ++ read) ++ v).head? =
        (lead₂ ++ (written₂ ++ read)).head? := fun v => List.head?_append_of_ne_nil _ hne
    refine hname.congr ((hhead left).trans (hhead u).symm) ?_
    intro c s s' hs hs' hc hends
    simp only [List.append_assoc] at hs hs'
    exact halts.endsName (admitted_shift_name hshift) scan shift hs hs' hc hends
  · rintro rfl
    have hbody := Place.isBody_of_mem hmem (by decide)
    obtain ⟨-, pieces, -, -, hfit⟩ := Scan.token_text hbody hscan
    have hends := hfit.endsText
    simp only [List.append_assoc] at hends
    have hlen : 2 ≤ (lead₂ ++ (written₂ ++ read)).length := by
      have := two_le_written (isBody_shift_text hshift) scan hends
      simp only [List.length_append]
      omega
    rw [List.take_append_of_le_length hlen, List.take_append_of_le_length hlen]
  · intro _ hnil
    exact absurd hnil hne

/-! ### Going on after a halt -/

/-- A text that may come after what has been read up to a halt, but for a letter in front of it
    where a name or literal text would swallow it. -/
structure Continues (last : Reading) (v : List Char) : Prop where
  resumes : last.place.admitted ≠ Scan.followers → Resumes v
  endsNames : last.place.admitted = Scan.followers → EndsNames v
  endsText : last.place.IsBody → last.AfterText = true → EndsText v
  bracket : last.place.admitted = [.rightBracket] → ∃ u, v = ']' :: u

/-- A property of a state, the text before it and the text to read passes back over every token that
    starts before the given offset. -/
def PassesBack (n : Nat) (P : Reading → List Char → List Char → Prop) : Prop :=
  ∀ ⦃r r' : Reading⦄ ⦃before s lead written rest : List Char⦄ ⦃t : Terminal⦄,
    Scan.ofSource r.place.admitted s = .token t lead written rest →
    r.shift ⟨t, .after before, lead, written⟩ rest.head? = some r' →
    (before ++ lead).length < n → P r' (before ++ lead ++ written) rest → P r before s

/-- The property holds of states like the given one and the text, also after blanks that are
    skipped, from an offset on. -/
def HoldsFrom (n : Nat) (P : Reading → List Char → List Char → Prop) (last : Reading)
    (v : List Char) : Prop :=
  ∀ ⦃r : Reading⦄ (before : List Char) ⦃blanks : List Char⦄, last.Alike r → r.WellPlaced →
    AllBlank blanks → (blanks ≠ [] → Scan.SkipsBlanks r.place.admitted) →
    n ≤ (before ++ blanks).length → P r before (blanks ++ v)

variable {n : Nat} {P : Reading → List Char → List Char → Prop}

/-- That an end is reached passes back over tokens. -/
theorem passesBack_reaches (n : Nat) (final : Reading → Prop) :
    PassesBack n fun r before s => r.Reaches before s final :=
  fun _ _ _ _ _ _ _ _ hscan hshift _ => .of_token hscan hshift

/-- A substitution is resumed as one. -/
theorem resumes_substitution (hscan : Scan.ofSource r.place.admitted
      (lead ++ (written ++ (read ++ left))) = .token .substitution lead written (read ++ left))
    (hu : Resumes u) : (∀ v, read ++ u ≠ '/' :: v) ∧ ¬StartsBlock (read ++ u) := by
  obtain ⟨hslash, hblock⟩ :=
    Scan.token_substitution (Place.isBody_of_mem (Scan.token_mem hscan) (by decide)) hscan
  refine ⟨?_, hu.not_startsBlock fun hstarts => hblock (hstarts.append left)⟩
  intro v hv
  cases read with
  | nil =>
    have := hu _ v hv
    simp at this
  | cons c read =>
    cases hv
    exact hslash _ rfl

/-- A token starts before the halt. -/
theorem start_lt (hscan : Scan.ofSource r.place.admitted (lead ++ (written ++ rest)) =
      .token t lead written rest) (hn : (before ++ (lead ++ (written ++ read))).length = n) :
    (before ++ lead).length < n := by
  have := List.length_pos_iff.2 (Scan.token_append hscan).1
  simp only [List.length_append] at hn ⊢
  omega

/-- The property passes back over a token of the same kind that is written in another way. -/
theorem PassesBack.rewrite (hP : PassesBack n P) (hr : r.WellPlaced) {next : Option Char}
    (hshift : r.shift ⟨t, .after before, lead, written⟩ next = some r')
    (hlt : (before ++ lead).length < n) (hholds : HoldsFrom n P r' v)
    {written' blanks : List Char} (hblanks : AllBlank blanks)
    (hskip : blanks ≠ [] → Scan.SkipsBlanks r'.place.admitted)
    (hle : n ≤ (before ++ lead ++ written' ++ blanks).length)
    (hscan : Scan.ofSource r.place.admitted (lead ++ (written' ++ (blanks ++ v))) =
      .token t lead written' (blanks ++ v)) :
    P r before (lead ++ (written' ++ (blanks ++ v))) := by
  obtain ⟨r'', hshift', halike⟩ := (Alike.refl r).shift hshift (.after before) lead written'
    (blanks ++ v).head?
  rw [halike.admitted] at hskip
  exact hP hscan hshift' hlt (hholds _ halike (hr.shift hshift') hblanks hskip hle)

section

variable (hP : PassesBack n P) (hr : r.WellPlaced)
  (hscan : Scan.ofSource r.place.admitted (lead ++ (written ++ (read ++ left))) =
    .token t lead written (read ++ left))
  (hshift : r.shift ⟨t, .after before, lead, written⟩ (read ++ left).head? = some r')
  (hskips : Scan.Skips r'.place.admitted read left)
  (hn : (before ++ (lead ++ (written ++ read))).length = n) (hv : r'.Continues v)
  (hholds : HoldsFrom n P r' v)

include hP hr hscan hshift hskips hn hv hholds

/-- A name goes on with a letter. -/
theorem passesBack_name (ht : t = .name) :
    ∃ u, Resumes u ∧ (r'.place.IsBody → v = [] → u = []) ∧
      P r before (lead ++ (written ++ (read ++ u))) := by
  have hlt := start_lt hscan hn
  subst ht
  have hplace := Place.admitted_of_name (Scan.token_mem hscan)
  rw [hplace] at hscan
  obtain ⟨-, -, hlead, hname⟩ := Scan.token_name hscan
  have hends := hv.endsNames (admitted_shift_name hshift)
  have hlonger : Scan.ofSource r.place.admitted
      (lead ++ ((written ++ (read ++ ['x'])) ++ ([] ++ v))) =
      .token .name lead (written ++ (read ++ ['x'])) ([] ++ v) := by
    rw [hplace]
    exact Scan.ofSource_name hlead (hname.extend hskips.blank hends)
  refine ⟨'x' :: v, resumes_cons v (by simp), ?_, ?_⟩
  · intro hbody
    obtain ⟨kinds, hkinds⟩ := hbody.admitted_eq
    rw [admitted_shift_name hshift] at hkinds
    cases hkinds
  · have hle : n ≤ (before ++ lead ++ (written ++ (read ++ ['x'])) ++ []).length := by
      simp only [List.length_append] at hn ⊢
      omega
    simpa using hP.rewrite hr hshift hlt hholds .nil (absurd rfl) hle hlonger

/-- Literal text goes on with a letter, or up to the end. No blanks are skipped after it. -/
theorem passesBack_text (ht : t = .text) :
    ∃ u, Resumes u ∧ (r'.place.IsBody → v = [] → u = []) ∧
      P r before (lead ++ (written ++ (read ++ u))) := by
  have hlt := start_lt hscan hn
  subst ht
  have hbody := Place.isBody_of_mem (Scan.token_mem hscan) (by decide)
  have hbody' := isBody_shift_text hshift
  obtain rfl : read = [] := by
    by_contra hne
    obtain ⟨kinds, hkinds⟩ := hbody'.admitted_eq
    exact (hskips.skips hne).1 (by simp [hkinds, Terminal.nodeStarts])
  obtain ⟨rfl, pieces, hpieces, rfl, hfit⟩ := Scan.token_text hbody hscan
  have hends := hv.endsText hbody' (afterText_shift_text hshift)
  -- What is made of pieces is found, and what comes after it is as before.
  have hgo : ∀ pieces', pieces' ≠ [] → PieceForm.AllFit v pieces' →
      (PieceForm.writtenAll pieces).length ≤ (PieceForm.writtenAll pieces').length →
      P r before (PieceForm.writtenAll pieces' ++ v) := by
    intro pieces' hne hfit' hlonger
    have hle : n ≤ (before ++ [] ++ PieceForm.writtenAll pieces' ++ []).length := by
      simp only [List.length_append] at hn ⊢
      omega
    exact hP.rewrite hr hshift hlt hholds .nil (absurd rfl) hle
      (Scan.ofSource_body hbody (Scan.readFirst_text hne hfit'))
  by_cases hnil : v = []
  · subst hnil
    obtain ⟨pieces', more, rest, hw, hmore, hfit'⟩ := hfit.reread (u := []) (by simp)
    obtain ⟨rfl, rfl⟩ := List.append_eq_nil_iff.1 hmore.symm
    rw [List.append_nil] at hw
    refine ⟨[], resumes_nil, fun _ _ => rfl, ?_⟩
    have hne : pieces' ≠ [] := by
      rintro rfl
      exact (Scan.token_append hscan).1 hw.symm
    simpa [hw] using hgo pieces' hne hfit' (by rw [hw])
  · obtain ⟨p, pieces', hw, hfit'⟩ := hfit.extend hends
    refine ⟨'x' :: v, resumes_cons v (by simp), fun _ h => absurd h hnil, ?_⟩
    simpa [hw] using hgo (p :: pieces') (by simp) hfit' (by rw [hw]; simp)

/-- Any other token stays as it is. -/
theorem passesBack_mark (hname : t ≠ .name) (htext : t ≠ .text) :
    ∃ u, Resumes u ∧ (r'.place.IsBody → v = [] → u = []) ∧
      P r before (lead ++ (written ++ (read ++ u))) := by
  have hresumes := hv.resumes (admitted_shift_ne_followers hname hshift)
  have hkeeps := (Halts.here hskips : r'.Halts before read left r').keeps hscan hshift
    (fun _ _ _ => hresumes.startsVisible)
    (by
      rintro rfl
      exact resumes_substitution hscan hresumes)
    (fun h => absurd h hname) (fun h => absurd h htext)
    (by
      rintro rfl -
      exact hv.bracket (admitted_shift_index hshift))
  have hle : n ≤ (before ++ lead ++ written ++ read).length := by
    simp only [List.length_append] at hn ⊢
    omega
  exact ⟨v, hresumes, fun _ h => h, hP.rewrite hr hshift (start_lt hscan hn) hholds hskips.blank
    hskips.skips hle (Scan.rescan hscan hkeeps)⟩

/-- What is read of a token and up to a halt right after it goes on with a text. -/
theorem passesBack_here :
    ∃ u, Resumes u ∧ (r'.place.IsBody → v = [] → u = []) ∧
      P r before (lead ++ (written ++ (read ++ u))) := by
  by_cases hname : t = .name
  · exact passesBack_name hP hr hscan hshift hskips hn hv hholds hname
  by_cases htext : t = .text
  · exact passesBack_text hP hr hscan hshift hskips hn hv hholds htext
  · exact passesBack_mark hP hr hscan hshift hskips hn hv hholds hname htext

end

/-- What is read of a token and up to a halt somewhere after it goes on with a text. -/
theorem Halts.passesBack_after (hhalts : r'.Halts before' read left last) (hP : PassesBack n P)
    (hr : r.WellPlaced) (hbefore : before' = before ++ lead ++ written)
    (hscan : Scan.ofSource r.place.admitted (lead ++ (written ++ (read ++ left))) =
      .token t lead written (read ++ left))
    (hshift : r.shift ⟨t, .after before, lead, written⟩ (read ++ left).head? = some r')
    (hn : (before ++ (lead ++ (written ++ read))).length = n) (hv : last.Continues v)
    (hholds : HoldsFrom n P last v) :
    ∃ u, Resumes u ∧ (last.place.IsBody → v = [] → u = []) ∧
      P r before (lead ++ (written ++ (read ++ u))) := by
  induction hhalts generalizing r before lead written t with
  | here skips => exact passesBack_here hP hr hscan hshift skips hn hv hholds
  | @onward r' r₂ last _ lead₂ written₂ read left t₂ scan shift halts ih =>
    subst hbefore
    obtain ⟨u, hu, hnil, h⟩ :=
      ih (hr.shift hshift) rfl scan shift (by simpa using hn) hv hholds
    refine ⟨u, hu, hnil, ?_⟩
    have hscan' := halts.rescan (u := u) scan shift hscan hshift fun ht => by
      subst ht
      exact resumes_substitution hscan hu
    have hhead : ∀ v, (lead₂ ++ (written₂ ++ read) ++ v).head? =
        (lead₂ ++ (written₂ ++ read)).head? := by
      intro v
      rw [List.head?_append_of_ne_nil _ (by simp [(Scan.token_append scan).1])]
    rw [hhead left, ← hhead u] at hshift
    exact hP hscan' hshift (start_lt hscan hn) (by simpa using h)

/-- What is read up to a halt goes on with every text that may come after it, if with a letter in
    front of it. -/
theorem Halts.passesBack (hhalts : r.Halts before read left last) (hP : PassesBack n P)
    (hr : r.WellPlaced) (hn : (before ++ read).length = n) (hv : last.Continues v)
    (hholds : HoldsFrom n P last v) :
    ∃ u, (last.place.IsBody → v = [] → u = []) ∧ P r before (read ++ u) := by
  cases hhalts with
  | here skips =>
    exact ⟨v, fun _ h => h, hholds before (.refl r) hr skips.blank skips.skips hn.ge⟩
  | onward scan shift halts =>
    obtain ⟨u, -, hnil, h⟩ := halts.passesBack_after hP hr rfl scan shift hn hv hholds
    exact ⟨u, hnil, by simpa using h⟩

/-! ### Completing what has been read -/

theorem Halts.isBare (h : r.Halts before read left last) : last.place.isBare = r.place.isBare := by
  induction h with
  | here => rfl
  | onward _ shift _ ih => exact ih.trans (isBare_shift shift)

theorem Halts.wellPlaced (h : r.Halts before read left last) (hr : r.WellPlaced) :
    last.WellPlaced := by
  induction h with
  | here => exact hr
  | onward _ shift _ ih => exact ih (hr.shift shift)

/-- A completion may come after what has been read up to a halt. -/
theorem continues_completion (hr : r.WellPlaced) : r.Continues r.completion where
  resumes := resumes_completion
  endsNames := endsNames_completion hr
  endsText hbody _ := endsText_completion hbody
  bracket h := completion_of_rightBracket h

/-- What is read before a halt can be completed. -/
theorem Stops.completes (hstops : r.Stops before read left) (hr : r.WellPlaced) :
    ∃ u, r.Reaches before (read ++ u) (Ends r.place.isBare) := by
  obtain ⟨last, hhalts⟩ := hstops
  have hholds : HoldsFrom (before ++ read).length
      (fun r' before s => r'.Reaches before s (Ends r.place.isBare)) last last.completion := by
    intro r' before blanks halike hr' hblanks hskip _
    have hreach := reaches_completion before hr' hblanks hskip
    rwa [← halike.completion, ← halike.place.isBare, hhalts.isBare] at hreach
  obtain ⟨u, -, h⟩ := hhalts.passesBack (passesBack_reaches _ _) hr rfl
    (continues_completion (hhalts.wellPlaced hr)) hholds
  exact ⟨u, h⟩

end Reading

/-! ## Sources with a fault -/

theorem parsePath_of_fault {source : String} {f : Fault} (h : readPath source.toList = .error f) :
    parsePath source = .error (.parse (.ofFault source f)) := by
  simp only [parsePath, h, Except.mapError, bind, Except.bind]

/-- The fault of a source is what its parse error reports, and what stands before the place of the
    fault is the beginning of a source that is read without one. -/
theorem exists_completion (source : String) :
    (∀ f, readOutline source.toList = .error f →
      (∀ limit machine,
        parseTemplate source limit machine = .error (.parse (.ofFault source f))) ∧
      ∃ before rest, source.toList = before ++ rest ∧ f.position = .after before ∧
        ∃ t nodes, readOutline (before ++ t) = .ok nodes) ∧
    ∀ f, readPath source.toList = .error f →
      parsePath source = .error (.parse (.ofFault source f)) ∧
      ∃ before rest, source.toList = before ++ rest ∧ f.position = .after before ∧
        ∃ t parts, readPath (before ++ t) = .ok parts := by
  constructor
  · intro f hf
    obtain ⟨read, left, hs, hposition, hstops⟩ := stops_of_readOutline hf
    obtain ⟨u, r, p, hrun, hends⟩ := hstops.completes Reading.wellPlaced_template
    obtain ⟨nodes, hnodes⟩ := Option.isSome_iff_exists.1 hends
    change Reading.template.run .start (read ++ u) = _ at hrun
    refine ⟨fun limit machine => parseTemplate_of_fault limit machine hf, read, left, hs, hposition,
      u, nodes, ?_⟩
    simp only [readOutline, hrun, bind, Except.bind, hnodes]
  · intro f hf
    obtain ⟨read, left, hs, hposition, hstops⟩ := stops_of_readPath hf
    obtain ⟨u, r, p, hrun, hends⟩ := hstops.completes Reading.wellPlaced_path
    obtain ⟨parts, hparts⟩ := Option.isSome_iff_exists.1 hends
    change Reading.path.run .start (read ++ u) = _ at hrun
    refine ⟨parsePath_of_fault hf, read, left, hs, hposition, u, parts, ?_⟩
    simp only [readPath, hrun, bind, Except.bind, hparts]

end Stencil
