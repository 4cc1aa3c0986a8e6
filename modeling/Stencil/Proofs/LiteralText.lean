-- SUMMARY: Literal text is cut into the pieces of the grammar, to find its end and to unescape it.
import Mathlib.Data.List.TakeWhile
import Stencil.Proofs.Grammar

/-! # Literal text

Two functions cut literal text: `Literal.split` finds where it ends, `Literal.piece?` takes off one
piece. Both agree with the pieces of the grammar, and every text starts with a piece unless it is
empty or starts with the opening of a tag.
-/

namespace Stencil

/-- Nothing, or the opening of a tag. -/
def EndsText (s : List Char) : Prop := s = [] ∨ ∃ t, s = '#' :: '{' :: t

namespace PieceForm

theorem written_ne {p : PieceForm} {following : List Char} (h : p.Fits following) :
    p.written ≠ [] := by
  cases p with
  | run chars => exact h.1
  | lastHash => simp [written]
  | hashBeforeTag => simp [written]
  | escape => simp [written]
  | hashAnd c => simp [written]

theorem Fits.meaning_ne {following : List Char} {p : PieceForm} (h : p.Fits following) :
    p.meaning ≠ [] := by
  cases p with
  | run chars => exact h.1
  | lastHash | hashBeforeTag | escape | hashAnd c => simp [meaning]

/-- What starts with another character than a hash mark goes on up to the next one. -/
theorem exists_run {c : Char} (hc : c ≠ '#') (s : List Char) :
    ∃ chars t, c :: s = chars ++ t ∧ chars ≠ [] ∧ '#' ∉ chars ∧ ∀ d u, t = d :: u → d = '#' := by
  refine ⟨(c :: s).takeWhile (· ≠ '#'), (c :: s).dropWhile (· ≠ '#'),
    List.takeWhile_append_dropWhile.symm, by simp [hc], ?_, ?_⟩
  · intro hmem
    simpa using List.mem_takeWhile_imp hmem
  · intro d t hd
    have := List.head?_dropWhile_not (fun x => decide (x ≠ '#')) (c :: s)
    rw [hd] at this
    simpa using this

/-- A text that does not end literal text starts with a piece. -/
theorem exists_fits {s : List Char} (h : ¬EndsText s) :
    ∃ p t, s = written p ++ t ∧ p.Fits t := by
  cases s with
  | nil => exact absurd (.inl rfl) h
  | cons c s =>
    -- The forms are tried in the order in which they are listed.
    by_cases hc : c = '#'
    · subst hc
      cases s with
      | nil => exact ⟨.lastHash, [], rfl, rfl⟩
      | cons d s =>
        have hd : d ≠ '{' := by
          rintro rfl
          exact h (.inr ⟨s, rfl⟩)
        by_cases htag : d = '#' ∧ ∃ t, s = '#' :: '{' :: t
        · obtain ⟨rfl, t, rfl⟩ := htag
          exact ⟨.hashBeforeTag, '#' :: '{' :: t, rfl, t, rfl⟩
        · by_cases hesc : d = '#' ∧ ∃ t, s = '{' :: t
          · obtain ⟨rfl, t, rfl⟩ := hesc
            exact ⟨.escape, t, rfl, trivial⟩
          · refine ⟨.hashAnd d, s, rfl, hd, fun hdh t => ⟨?_, ?_⟩⟩
            · rintro rfl
              exact htag ⟨hdh, t, rfl⟩
            · rintro rfl
              exact hesc ⟨hdh, t, rfl⟩
    · obtain ⟨chars, t, hs, hrun⟩ := exists_run hc s
      exact ⟨.run chars, t, hs, hrun⟩

/-- Nothing that ends literal text starts with a piece. -/
theorem not_fits {s : List Char} (h : EndsText s) {p : PieceForm} {t : List Char}
    (hs : s = written p ++ t) : ¬p.Fits t := by
  intro hf
  obtain rfl | ⟨u, rfl⟩ := h
  · exact written_ne hf (List.append_eq_nil_iff.1 hs.symm).1
  · cases p with
    | run chars =>
      obtain ⟨hne, hmem, -⟩ := hf
      obtain ⟨c, chars, rfl⟩ := List.exists_cons_of_ne_nil hne
      simp only [written, List.cons_append, List.cons.injEq] at hs
      exact hmem (hs.1 ▸ List.mem_cons_self)
    | lastHash => simp_all [written, Fits]
    | hashBeforeTag => simp [written] at hs
    | escape => simp [written] at hs
    | hashAnd c =>
      simp only [written, List.cons_append, List.nil_append, List.cons.injEq, true_and] at hs
      exact hf.1 hs.1.symm

theorem allFit_nil_iff (following : List Char) : AllFit following [] ↔ EndsText following := by
  constructor
  · intro h
    by_contra he
    obtain ⟨p, t, hs, hf⟩ := exists_fits he
    exact h p t hs hf
  · intro h p t hs
    exact not_fits h hs

/-- Where pieces end, literal text does. -/
theorem AllFit.endsText {following : List Char} {pieces : List PieceForm}
    (h : AllFit following pieces) : EndsText following := by
  induction pieces with
  | nil => exact (allFit_nil_iff following).1 h
  | cons p pieces ih => exact ih h.2

/-- Every text is a sequence of pieces and something that ends literal text. -/
theorem exists_allFit (s : List Char) :
    ∃ pieces following, s = writtenAll pieces ++ following ∧ AllFit following pieces := by
  induction hn : s.length using Nat.strongRecOn generalizing s with
  | ind n ih =>
    by_cases he : EndsText s
    · exact ⟨[], s, rfl, (allFit_nil_iff s).2 he⟩
    · obtain ⟨p, t, rfl, hf⟩ := exists_fits he
      have hlt : t.length < n := by
        have := List.length_pos_iff.2 (written_ne hf)
        simp only [List.length_append] at hn
        omega
      obtain ⟨pieces, following, rfl, hall⟩ := ih t.length hlt t rfl
      exact ⟨p :: pieces, following, by simp [writtenAll], hf, hall⟩

/-! ## The extent of literal text -/

private theorem splitFrom_run {chars : List Char} (read s : List Char) (h : '#' ∉ chars) :
    Literal.splitFrom read (chars ++ s) = Literal.splitFrom (chars.reverse ++ read) s := by
  induction chars generalizing read with
  | nil => rfl
  | cons c chars ih =>
    obtain ⟨hne, hchars⟩ := List.ne_and_not_mem_of_not_mem_cons h
    have hc : c ≠ '#' := hne.symm
    have hstep : Literal.splitFrom read (c :: (chars ++ s)) =
        Literal.splitFrom (c :: read) (chars ++ s) := by
      rw [Literal.splitFrom]
      all_goals simp [hc]
    rw [List.cons_append, hstep, ih _ hchars]
    simp

/-- A piece is read as a whole. -/
private theorem splitFrom_piece {p : PieceForm} {s : List Char} (read : List Char)
    (h : p.Fits s) :
    Literal.splitFrom read (p.written ++ s) = Literal.splitFrom (p.written.reverse ++ read) s := by
  cases p with
  | run chars => exact splitFrom_run read s h.2.1
  | lastHash =>
    cases h
    rfl
  | hashBeforeTag =>
    obtain ⟨t, rfl⟩ := h
    rfl
  | escape => rfl
  | hashAnd c =>
    obtain ⟨hc, hhash⟩ := h
    simp only [written, List.cons_append, List.nil_append, List.reverse_cons, List.reverse_nil]
    rw [Literal.splitFrom]
    all_goals grind

/-- Pieces that fit are read to the end of the last one. -/
theorem split_of_allFit {pieces : List PieceForm} {following : List Char}
    (h : AllFit following pieces) :
    Literal.split (writtenAll pieces ++ following) = (writtenAll pieces, following) := by
  suffices hread : ∀ read, Literal.splitFrom read (writtenAll pieces ++ following) =
      (read.reverse ++ writtenAll pieces, following) from hread []
  induction pieces with
  | nil =>
    intro read
    obtain rfl | ⟨t, rfl⟩ := (allFit_nil_iff following).1 h <;>
      simp [writtenAll, Literal.splitFrom]
  | cons p pieces ih =>
    intro read
    have hp := splitFrom_piece read h.1
    simp only [writtenAll, List.flatMap_cons, List.append_assoc] at hp ih ⊢
    rw [hp, ih h.2]
    simp

/-- The extent that is found is one of pieces. -/
theorem allFit_of_split {s chars following : List Char}
    (h : Literal.split s = (chars, following)) :
    ∃ pieces, chars = writtenAll pieces ∧ AllFit following pieces := by
  obtain ⟨pieces, rest, rfl, hall⟩ := exists_allFit s
  rw [split_of_allFit hall] at h
  cases h
  exact ⟨pieces, rfl, hall⟩

/-! ## Fragments -/

/-- The piece that fits in front of a text is the one that is taken off there. -/
theorem piece?_of_fits {p : PieceForm} {s : List Char} (h : p.Fits s) :
    Literal.piece? (p.written ++ s) = some ⟨p.written, p.meaning, s⟩ := by
  cases p with
  | run chars =>
    obtain ⟨hne, hmem, hs⟩ := h
    obtain ⟨c, chars, rfl⟩ := List.exists_cons_of_ne_nil hne
    obtain ⟨hc, hchars⟩ := List.ne_and_not_mem_of_not_mem_cons hmem
    have hrun : ∀ d ∈ chars, decide (d ≠ '#') = true := by
      intro d hd
      simpa using ne_of_mem_of_not_mem hd hchars
    have htake : (chars ++ s).takeWhile (· ≠ '#') = chars := by
      rw [List.takeWhile_append_of_pos hrun]
      cases s with
      | nil => simp
      | cons d t => simp [hs d t rfl]
    have hdrop : (chars ++ s).dropWhile (· ≠ '#') = s := by
      rw [List.dropWhile_append_of_pos hrun]
      cases s with
      | nil => simp
      | cons d t => simp [hs d t rfl]
    simp only [written, meaning, List.cons_append]
    rw [Literal.piece?]
    · simp only [htake, hdrop]
    all_goals simp [Ne.symm hc]
  | lastHash =>
    cases h
    rfl
  | hashBeforeTag =>
    obtain ⟨t, rfl⟩ := h
    rfl
  | escape => rfl
  | hashAnd c =>
    obtain ⟨hc, hhash⟩ := h
    simp only [written, meaning, List.cons_append, List.nil_append]
    unfold Literal.piece?
    split <;> grind

/-- Pieces that go up to the end of a stretch are its fragments. -/
theorem fragmentsFrom_of_allFit {pieces : List PieceForm} {following : List Char} {pos : Int}
    (hpos : 0 ≤ pos) (done : List String) (h : AllFit following pieces) :
    Literal.fragmentsFrom (writtenAll pieces ++ following) pos
      (pos + (writtenAll pieces).length) done =
      .ok (done.reverse ++ pieces.map fun p => String.ofList p.meaning) := by
  induction pieces generalizing pos done with
  | nil =>
    rw [Literal.fragmentsFrom]
    simp [writtenAll]
  | cons p pieces ih =>
    have hlen := List.length_pos_iff.2 (written_ne h.1)
    have hw : writtenAll (p :: pieces) = p.written ++ writtenAll pieces := rfl
    have hp := piece?_of_fits h.1
    rw [← List.append_assoc, ← hw] at hp
    have hlt : pos < pos + (writtenAll (p :: pieces)).length := by
      rw [hw, List.length_append]
      omega
    rw [Literal.fragmentsFrom, if_pos hlt]
    split
    · next hnone => rw [hnone] at hp; cases hp
    · next q hq =>
      rw [hq] at hp
      cases hp
      have hstop : pos + ((writtenAll (p :: pieces)).length : Int) =
          max pos 0 + p.written.length + (writtenAll pieces).length := by
        rw [hw, List.length_append]
        omega
      have hstart : max pos 0 + (p.written.length : Int) = pos + p.written.length := by omega
      rw [hstop, hstart, ih (by omega) _ h.2]
      simp

/-- Texts that start alike do so behind another text. -/
theorem take_append_of_take_eq {n : Nat} (s : List Char) {t t' : List Char}
    (h : t.take n = t'.take n) : (s ++ t).take n = (s ++ t').take n := by
  have hrest := congrArg (List.take (n - s.length)) h
  rw [List.take_append, List.take_append]
  simpa [List.take_take] using hrest

/-- What follows a piece matters up to two characters. -/
theorem Fits.congr {p : PieceForm} {s t : List Char} (h : p.Fits s) (ht : s.take 2 = t.take 2) :
    p.Fits t := by
  match s, t with
  | [], [] => exact h
  | [], _ :: _ => simp at ht
  | _ :: _, [] => simp at ht
  | [c], [d] => simp_all
  | [c], _ :: _ :: _ => simp at ht
  | _ :: _ :: _, [d] => simp at ht
  | c :: d :: s, c' :: d' :: t =>
    simp only [List.take_succ_cons, List.take_zero, List.cons.injEq, and_true] at ht
    obtain ⟨rfl, rfl⟩ := ht
    cases p with
    | run chars =>
      refine ⟨h.1, h.2.1, ?_⟩
      intro e u he
      cases he
      exact h.2.2 c _ rfl
    | lastHash => simp [Fits] at h
    | hashBeforeTag =>
      obtain ⟨u, hu⟩ := h
      cases hu
      exact ⟨t, rfl⟩
    | escape => trivial
    | hashAnd e =>
      refine ⟨h.1, fun he u => ⟨?_, ?_⟩⟩
      · intro hu
        cases hu
        exact (h.2 he s).1 rfl
      · intro hu
        cases hu
        exact (h.2 he (d :: s)).2 rfl

/-- Of what follows literal text it matters only whether it is the end of the source or the opening
    of a tag. -/
theorem AllFit.congr {pieces : List PieceForm} {following following' : List Char}
    (h : AllFit following pieces) (ht : following.take 2 = following'.take 2) :
    AllFit following' pieces := by
  induction pieces with
  | nil =>
    rw [allFit_nil_iff] at h ⊢
    obtain rfl | ⟨t, rfl⟩ := h
    · left
      simpa using ht.symm
    · right
      match following' with
      | [] => simp at ht
      | [c] => simp at ht
      | c :: d :: u =>
        simp only [List.take_succ_cons, List.take_zero, List.cons.injEq, and_true] at ht
        exact ⟨u, by rw [ht.1, ht.2]⟩
  | cons p pieces ih =>
    exact ⟨h.1.congr (take_append_of_take_eq _ ht), ih h.2⟩

/-- Of what follows a piece it matters how it starts and whether that is the opening of a tag. -/
theorem Fits.congr_head {p : PieceForm} {s t : List Char} (h : p.Fits s)
    (hhead : s.head? = t.head?)
    (htag : (∃ u, s = '#' :: '{' :: u) ↔ ∃ u, t = '#' :: '{' :: u) : p.Fits t := by
  cases p with
  | run chars =>
    refine ⟨h.1, h.2.1, ?_⟩
    rintro c u rfl
    obtain ⟨s', rfl⟩ := List.head?_eq_some_iff.1 hhead
    exact h.2.2 c s' rfl
  | lastHash =>
    cases h
    exact List.head?_eq_none_iff.1 hhead.symm
  | hashBeforeTag => exact htag.1 h
  | escape => trivial
  | hashAnd c =>
    refine ⟨h.1, fun hc u => ⟨?_, ?_⟩⟩
    · intro ht
      obtain ⟨v, hv⟩ := htag.2 ⟨u, ht⟩
      exact (h.2 hc v).1 hv
    · rintro rfl
      obtain ⟨s', rfl⟩ := List.head?_eq_some_iff.1 hhead
      exact (h.2 hc s').2 rfl

theorem AllFit.ne_tag {p : PieceForm} {pieces : List PieceForm} {following : List Char}
    (h : AllFit following (p :: pieces)) (u : List Char) :
    writtenAll (p :: pieces) ++ following ≠ '#' :: '{' :: u := by
  intro hu
  exact not_fits (.inr ⟨u, hu⟩) (by simp) h.1

end PieceForm

end Stencil
