-- SUMMARY: How a text is written so that it is read as nothing but that text.
import Mathlib.Algebra.Ring.Parity
import Stencil.Proofs.Rendering

/-! # Escaping

A text is escaped by a further hash mark in front of each opening of a tag in it. What is read as a
single piece of text is the escaped form of that text, so no two sources stand for the same one. Not
every text is what a source stands for, though: hash marks are read in pairs, and an escape is a
pair that stands for a single one. So the hash marks in front of a brace, if there are any, are odd
in number.
-/

namespace Stencil

namespace Literal

/-- The text with each opening of a tag in it escaped. -/
def escape : List Char → List Char
  | [] => []
  | '#' :: '{' :: s => '#' :: '#' :: '{' :: escape s
  | c :: s => c :: escape s

/-- All the hash marks in a row that a brace follows are odd in number. -/
def OddRuns (s : List Char) : Prop :=
  ∀ u n v, s = u ++ (List.replicate n '#' ++ '{' :: v) → u.getLast? ≠ some '#' → n ≠ 0 → Odd n

/-! ## Escaped texts -/

theorem escape_cons {c : Char} {s : List Char} (h : c = '#' → ∀ t, s ≠ '{' :: t) :
    escape (c :: s) = c :: escape s := by
  rw [escape]
  rintro t rfl rfl
  exact h rfl t rfl

theorem escape_brace (s : List Char) : escape ('{' :: s) = '{' :: escape s := rfl

theorem head?_escape (s : List Char) : (escape s).head? = s.head? := by
  fun_cases escape s <;> rfl

theorem eq_nil_of_escape {s : List Char} (h : escape s = []) : s = [] := by
  rw [← List.head?_eq_none_iff, ← head?_escape, h]
  rfl

theorem exists_of_escape_eq_cons {c : Char} {s t : List Char} (h : escape s = c :: t) :
    ∃ s', s = c :: s' := by
  rw [← List.head?_eq_some_iff, ← head?_escape, h]
  rfl

/-- No escaped text looks like a tag. -/
theorem escape_ne_tag (s t : List Char) : escape s ≠ '#' :: '{' :: t := by
  intro h
  fun_cases escape s with
  | case1 => cases h
  | case2 s => cases h
  | case3 c s hc =>
    rw [escape_cons fun hhash t ht => hc t hhash ht] at h
    obtain ⟨rfl, hs⟩ := List.cons.inj h
    obtain ⟨s', rfl⟩ := exists_of_escape_eq_cons hs
    exact hc s' rfl rfl

/-- A text without hash marks is left as it is. -/
theorem escape_append {chars : List Char} (h : '#' ∉ chars) (s : List Char) :
    escape (chars ++ s) = chars ++ escape s := by
  induction chars with
  | nil => rfl
  | cons c chars ih =>
    obtain ⟨hc, hchars⟩ := List.ne_and_not_mem_of_not_mem_cons h
    rw [List.cons_append, escape_cons fun hhash => absurd hhash.symm hc, ih hchars,
      List.cons_append]

/-! ## Runs of hash marks -/

theorem oddRuns_replicate (k : Nat) : OddRuns (List.replicate k '#') := by
  intro u n v h
  have hbrace : '{' ∈ List.replicate k '#' := by simp [h]
  exact absurd (List.eq_of_mem_replicate hbrace) (by decide)

theorem oddRuns_nil : OddRuns [] := oddRuns_replicate 0

theorem replicate_cut {c : Char} (hc : c ≠ '#') {k n : Nat} {s v : List Char}
    (h : List.replicate k '#' ++ c :: s = List.replicate n '#' ++ '{' :: v) : k = n ∧ c = '{' := by
  induction k generalizing n with
  | zero =>
    cases n with
    | zero => exact ⟨rfl, (List.cons.inj h).1⟩
    | succ n => exact absurd (List.cons.inj h).1 hc
  | succ k ih =>
    cases n with
    | zero => cases (List.cons.inj h).1
    | succ n =>
      obtain ⟨hk, hbrace⟩ := ih (List.cons.inj h).2
      exact ⟨by rw [hk], hbrace⟩

/-- The hash marks at the start of a text are a run of their own. -/
theorem oddRuns_replicate_append {c : Char} (hc : c ≠ '#') (k : Nat) (s : List Char) :
    OddRuns (List.replicate k '#' ++ c :: s) ↔ (c = '{' → k ≠ 0 → Odd k) ∧ OddRuns s := by
  constructor
  · intro h
    constructor
    · rintro rfl
      exact h [] k s rfl nofun
    · rintro u n v rfl hu
      apply h (List.replicate k '#' ++ c :: u) n v (by simp)
      cases u with
      | nil => simpa using hc
      | cons d u => simpa [List.getLast?_append, List.getLast?_cons] using hu
  · rintro ⟨hfirst, hrest⟩ u n v heq hu hn
    rcases List.append_eq_append_iff.1 heq with ⟨u', rfl, heq'⟩ | ⟨hashes, hk, heq'⟩
    · -- The run comes after the hash marks at the start.
      cases u' with
      | nil =>
        obtain ⟨m, rfl⟩ := Nat.exists_eq_succ_of_ne_zero hn
        exact absurd (List.cons.inj heq').1 hc
      | cons d u' =>
        obtain ⟨rfl, rfl⟩ := List.cons.inj heq'
        apply hrest u' n v rfl ?_ hn
        intro hlast
        simp [List.getLast?_cons, hlast] at hu
    · -- The run is the one at the start.
      obtain rfl : u = [] := by
        by_contra hne
        have hmem : u.getLast hne ∈ List.replicate k '#' := by
          rw [hk]
          exact List.mem_append_left _ (List.getLast_mem hne)
        rw [List.getLast?_eq_getLast_of_ne_nil hne, List.eq_of_mem_replicate hmem] at hu
        exact hu rfl
      obtain rfl : hashes = List.replicate k '#' := hk.symm
      obtain ⟨rfl, rfl⟩ := replicate_cut hc heq'.symm
      exact hfirst rfl hn

theorem oddRuns_cons {c : Char} (hc : c ≠ '#') (s : List Char) :
    OddRuns (c :: s) ↔ OddRuns s := by
  have h := oddRuns_replicate_append hc 0 s
  simpa using h

theorem oddRuns_hash_cons {c : Char} (hc : c ≠ '#') (s : List Char) :
    OddRuns ('#' :: c :: s) ↔ OddRuns s := by
  have h := oddRuns_replicate_append hc 1 s
  simpa using h

/-- A text without hash marks in front changes nothing about the runs behind it. -/
theorem oddRuns_append {chars : List Char} (h : '#' ∉ chars) (s : List Char) :
    OddRuns (chars ++ s) ↔ OddRuns s := by
  induction chars with
  | nil => rfl
  | cons c chars ih =>
    obtain ⟨hc, hchars⟩ := List.ne_and_not_mem_of_not_mem_cons h
    rw [List.cons_append, oddRuns_cons hc.symm, ih hchars]

/-- A pair of hash marks more makes no difference to a run. -/
theorem oddRuns_hash_hash {s : List Char} (h : ∀ t, s ≠ '{' :: t) :
    OddRuns ('#' :: '#' :: s) ↔ OddRuns s := by
  have hrun : s.takeWhile (· = '#') = List.replicate (s.takeWhile (· = '#')).length '#' :=
    List.eq_replicate_iff.2 ⟨rfl, fun c hc => by simpa using List.mem_takeWhile_imp hc⟩
  generalize (s.takeWhile (· = '#')).length = k at hrun
  have hs : s = List.replicate k '#' ++ s.dropWhile (· = '#') := by
    rw [← hrun, List.takeWhile_append_dropWhile]
  cases hrest : s.dropWhile (· = '#') with
  | nil =>
    rw [hrest, List.append_nil] at hs
    rw [hs]
    exact iff_of_true (oddRuns_replicate (k + 2)) (oddRuns_replicate k)
  | cons c t =>
    have hc : c ≠ '#' := by
      have := List.head?_dropWhile_not (fun x => decide (x = '#')) s
      rw [hrest] at this
      simpa using this
    rw [hrest] at hs
    have hmore := oddRuns_replicate_append hc (k + 2) t
    rw [hs, oddRuns_replicate_append hc k t]
    refine hmore.trans (and_congr_left fun _ => forall_congr' ?_)
    rintro rfl
    have hk : k ≠ 0 := by
      rintro rfl
      exact h t hs
    simp [hk, Nat.odd_add]

end Literal

/-! ## Pieces of escaped texts -/

namespace PieceForm

open Literal (OddRuns)

/-- A piece is how what it stands for is escaped. -/
theorem Fits.escape_meaning {piece : PieceForm} {s : List Char}
    (h : piece.Fits (Literal.escape s)) :
    Literal.escape (piece.meaning ++ s) = piece.written ++ Literal.escape s := by
  cases piece with
  | run chars => exact Literal.escape_append h.2.1 s
  | lastHash =>
    obtain rfl := Literal.eq_nil_of_escape h
    rfl
  | hashBeforeTag =>
    obtain ⟨t, ht⟩ := h
    exact absurd ht (Literal.escape_ne_tag s t)
  | escape => rfl
  | hashAnd c =>
    obtain ⟨hc, hhash⟩ := h
    have hinner : Literal.escape (c :: s) = c :: Literal.escape s := by
      apply Literal.escape_cons
      rintro rfl t rfl
      exact (hhash rfl (Literal.escape t)).2 (Literal.escape_brace t)
    have houter : Literal.escape ('#' :: c :: s) = '#' :: Literal.escape (c :: s) := by
      apply Literal.escape_cons
      rintro - t ht
      exact hc (List.cons.inj ht).1
    exact houter.trans (congrArg _ hinner)

/-- A piece has no part in the runs after it, and none of its own that matters. -/
theorem Fits.oddRuns_meaning {piece : PieceForm} {s : List Char}
    (h : piece.Fits (Literal.escape s)) :
    OddRuns (piece.meaning ++ s) ↔ OddRuns s := by
  cases piece with
  | run chars => exact Literal.oddRuns_append h.2.1 s
  | lastHash =>
    obtain rfl := Literal.eq_nil_of_escape h
    exact iff_of_true (Literal.oddRuns_replicate 1) Literal.oddRuns_nil
  | hashBeforeTag =>
    obtain ⟨t, ht⟩ := h
    exact absurd ht (Literal.escape_ne_tag s t)
  | escape => exact Literal.oddRuns_hash_cons (by decide) s
  | hashAnd c =>
    obtain ⟨hc, hhash⟩ := h
    by_cases hc' : c = '#'
    · subst hc'
      apply Literal.oddRuns_hash_hash
      rintro t rfl
      exact (hhash rfl (Literal.escape t)).2 (Literal.escape_brace t)
    · exact Literal.oddRuns_hash_cons hc' s

/-- A text with nothing but odd runs starts with what a piece stands for. -/
theorem exists_meaning {t : List Char} (hne : t ≠ []) (h : OddRuns t) :
    ∃ piece s, t = meaning piece ++ s ∧ piece.Fits (Literal.escape s) := by
  obtain ⟨c, t, rfl⟩ := List.exists_cons_of_ne_nil hne
  by_cases hc : c = '#'
  · subst hc
    cases t with
    | nil => exact ⟨.lastHash, [], rfl, rfl⟩
    | cons d t =>
      by_cases hd : d = '#'
      · subst hd
        refine ⟨.hashAnd '#', t, rfl, by decide, fun _ u => ⟨Literal.escape_ne_tag t u, ?_⟩⟩
        intro hbrace
        obtain ⟨v, rfl⟩ := Literal.exists_of_escape_eq_cons hbrace
        exact absurd (h [] 2 v rfl nofun nofun) (by decide)
      · by_cases hbrace : d = '{'
        · subst hbrace
          exact ⟨.escape, t, rfl, trivial⟩
        · exact ⟨.hashAnd d, t, rfl, hbrace, fun hhash => absurd hhash hd⟩
  · obtain ⟨chars, s, hs, hchars, hhash, hnext⟩ := exists_run hc t
    refine ⟨.run chars, s, hs, hchars, hhash, ?_⟩
    intro d u hd
    obtain ⟨v, hv⟩ := Literal.exists_of_escape_eq_cons hd
    exact hnext d v hv

/-- The escaped form of a text with nothing but odd runs is made of pieces up to its end, which
    stand for the text. -/
theorem exists_allFit_escape {t : List Char} (h : OddRuns t) :
    ∃ pieces, AllFit [] pieces ∧ writtenAll pieces = Literal.escape t ∧
      pieces.flatMap meaning = t := by
  induction hn : t.length using Nat.strongRecOn generalizing t with
  | ind n ih =>
    by_cases hne : t = []
    · subst hne
      exact ⟨[], (allFit_nil_iff []).2 (.inl rfl), rfl, rfl⟩
    · obtain ⟨piece, s, rfl, hfits⟩ := exists_meaning hne h
      have hlt : s.length < n := by
        have := List.length_pos_iff.2 hfits.meaning_ne
        simp only [List.length_append] at hn
        omega
      obtain ⟨pieces, hall, hwritten, rfl⟩ := ih s.length hlt (hfits.oddRuns_meaning.1 h) rfl
      refine ⟨piece :: pieces, ⟨?_, hall⟩, ?_, rfl⟩
      · rwa [hwritten, List.append_nil]
      · rw [writtenAll_cons, hwritten, hfits.escape_meaning]

/-- Pieces up to the end of a source are the escaped form of what they stand for. -/
theorem AllFit.escape_meaning {pieces : List PieceForm} (h : AllFit [] pieces) :
    Literal.escape (pieces.flatMap meaning) = writtenAll pieces ∧
      OddRuns (pieces.flatMap meaning) := by
  induction pieces with
  | nil => exact ⟨rfl, Literal.oddRuns_nil⟩
  | cons piece pieces ih =>
    obtain ⟨hescape, hruns⟩ := ih h.2
    have hfits := h.1
    rw [List.append_nil, ← hescape] at hfits
    rw [List.flatMap_cons, hfits.escape_meaning, hescape, writtenAll_cons]
    exact ⟨rfl, hfits.oddRuns_meaning.2 hruns⟩

end PieceForm

/-! ## Sources of a single text -/

/-- The template is nothing but the given text. -/
def Template.IsText (t : Template) (text : String) : Prop :=
  ∃ fragments position, t = ⟨[.text fragments position]⟩ ∧ String.join fragments = text

/-- A template that is nothing but a text comes from one phrase of literal text. -/
theorem Phrase.exists_pieces {phrases : List Phrase} {text : String}
    (h : (template phrases).IsText text) :
    ∃ pieces, phrases = [.text pieces] ∧ text.toList = pieces.flatMap PieceForm.meaning := by
  obtain ⟨fragments, position, htemplate, rfl⟩ := h
  have hsegments : segments [] phrases = [.text fragments position] :=
    congrArg Template.segments htemplate
  match phrases with
  | [] => cases hsegments
  | _ :: _ :: _ => simp [segments] at hsegments
  | [.substitution ..] => cases hsegments
  | [.block (.condition ..) body] => cases hsegments
  | [.block (.loop ..) body] => cases hsegments
  | [.text pieces] =>
    cases hsegments
    exact ⟨pieces, rfl, join_meaning pieces⟩

/-- Pieces that fit are a template of one text. -/
theorem PieceForm.AllFit.parses {source : List Char} {pieces : List PieceForm}
    (h : AllFit [] pieces) (hne : pieces ≠ []) (hsource : writtenAll pieces = source)
    (limit : Int) (machine : Machine) : Phrase.Parses source limit machine [.text pieces] := by
  refine ⟨⟨?_, ⟨hne, h⟩, trivial⟩, ?_, ?_, ?_⟩
  · simpa [Phrase.writtenAll, Phrase.written] using hsource
  · simp [Phrase.pathsAll, Phrase.paths]
  · simp [Phrase.depthAll, Phrase.depth]
  · simp [Phrase.depthAll, Phrase.depth]

/-- A source is read as a single text exactly if it is the escaped form of that text, and there is
    one for every text with nothing but odd runs that is not empty. So no two sources are read as
    the same single text. -/
theorem parseTemplate_isText_iff (limit : Int) (machine : Machine) :
    (∀ source text : String, (∃ t, parseTemplate source limit machine = .ok t ∧ t.IsText text) ↔
      text ≠ "" ∧ Literal.OddRuns text.toList ∧
        source.toList = Literal.escape text.toList) ∧
    ∀ (source source' text : String) (t t' : Template),
      parseTemplate source limit machine = .ok t → t.IsText text →
      parseTemplate source' limit machine = .ok t' → t'.IsText text → source = source' := by
  have hescape : ∀ source text : String,
      (∃ t, parseTemplate source limit machine = .ok t ∧ t.IsText text) ↔
        text ≠ "" ∧ Literal.OddRuns text.toList ∧
          source.toList = Literal.escape text.toList := by
    intro source text
    constructor
    · rintro ⟨t, ht, htext⟩
      obtain ⟨phrases, hparses, rfl⟩ := parses_of_parseTemplate ht
      obtain ⟨pieces, rfl, hmeaning⟩ := Phrase.exists_pieces htext
      obtain ⟨hwritten, ⟨hne, hfits⟩, -⟩ := hparses.derives
      have hsource : PieceForm.writtenAll pieces = source.toList := by
        simpa [Phrase.writtenAll, Phrase.written] using hwritten
      obtain ⟨hescaped, hruns⟩ := hfits.escape_meaning
      rw [← hmeaning] at hescaped hruns
      refine ⟨?_, hruns, by rw [hescaped, hsource]⟩
      rintro rfl
      obtain ⟨piece, pieces, rfl⟩ := List.exists_cons_of_ne_nil hne
      exact hfits.1.meaning_ne (List.append_eq_nil_iff.1 hmeaning.symm).1
    · rintro ⟨hne, hruns, hsource⟩
      obtain ⟨pieces, hfits, hwritten, hmeaning⟩ := PieceForm.exists_allFit_escape hruns
      have hpieces : pieces ≠ [] := by
        rintro rfl
        exact hne (String.toList_eq_nil_iff.1 hmeaning.symm)
      have hparses := hfits.parses hpieces (hwritten.trans hsource.symm) limit machine
      refine ⟨_, (parseTemplate_of_derives limit machine hparses.derives).1 hparses, _, _, rfl, ?_⟩
      apply String.toList_inj.1
      rw [join_meaning, hmeaning]
  refine ⟨hescape, ?_⟩
  intro source source' text t t' ht htext ht' htext'
  obtain ⟨-, -, hsource⟩ := (hescape source text).1 ⟨t, ht, htext⟩
  obtain ⟨-, -, hsource'⟩ := (hescape source' text).1 ⟨t', ht', htext'⟩
  exact String.toList_inj.1 (hsource.trans hsource'.symm)

/-- A price in the syntax of tags, behind a hash mark of its own. -/
theorem parseTemplate_isText_iff_price :
    ∃ t, parseTemplate "#1: ####\x7bPrice\x7d" = .ok t ∧ t.IsText "#1: ###\x7bPrice\x7d" ∧
      ∀ source t', parseTemplate source = .ok t' → t'.IsText "#1: ###\x7bPrice\x7d" →
        "#1: ####\x7bPrice\x7d" = source := by
  have hruns : Literal.OddRuns "#1: ###\x7bPrice\x7d".toList := by
    have hchars : "#1: ###\x7bPrice\x7d".toList = ['#', '1', ':', ' ', '#', '#', '#', '{', 'P',
      'r', 'i', 'c', 'e', '}'] := rfl
    simp [hchars, Literal.oddRuns_cons, Literal.oddRuns_hash_cons, Literal.oddRuns_hash_hash,
      Literal.oddRuns_nil]
  obtain ⟨t, ht, htext⟩ := ((parseTemplate_isText_iff defaultDepth {}).1 _ _).2
    ⟨by decide, hruns, (rfl : "#1: ####\x7bPrice\x7d".toList = _)⟩
  refine ⟨t, ht, htext, ?_⟩
  intro source t' ht' htext'
  exact (parseTemplate_isText_iff defaultDepth {}).2 _ source _ t t' ht htext ht' htext'

end Stencil
