-- SUMMARY: Literal text is unescaped by pieces that end where the text was found to end.
import Stencil.Proofs.LiteralText

/-! # Fragments

Two readers cut literal text. One finds where it ends, a character or an escape at a time; the other
takes off a piece at a time, a run of characters as one, and resolves the escapes. The second one is
handed a stretch that the first one has found, and looks beyond its end to see what a hash mark
means. It finds pieces all the way, and the last of them ends where the stretch does.
-/

namespace Stencil.Literal

/-- What a piece in front of a text stands for: an escaped opening of a tag for the opening, two
    hash marks in front of an opening for one, and anything else for itself. -/
def resolve : List Char → List Char → List Char
  | ['#', '#', '{'], _ => ['#', '{']
  | ['#', '#'], '#' :: '{' :: _ => ['#']
  | written, _ => written

/-- The pieces are taken off a text one after the other, and leave what follows. -/
def TakenOff (following : List Char) : List Char → List Piece → Prop
  | s, [] => s = following
  | s, p :: pieces => piece? s = some p ∧ TakenOff following p.rest pieces

end Stencil.Literal

namespace Stencil.PieceForm

open Literal (Piece TakenOff resolve)

/-- What a piece stands for is told from how it is written and what follows it. -/
theorem Fits.meaning_eq_resolve {p : PieceForm} {following : List Char} (h : p.Fits following) :
    p.meaning = resolve p.written following := by
  cases p with
  | run chars =>
    have hhash : ∀ s, chars ≠ '#' :: s := by
      rintro s rfl
      exact h.2.1 List.mem_cons_self
    simp only [meaning, written]
    unfold resolve
    split
    · exact absurd rfl (hhash _)
    · exact absurd rfl (hhash _)
    · rfl
  | lastHash => rfl
  | hashBeforeTag =>
    obtain ⟨s, rfl⟩ := h
    rfl
  | escape => rfl
  | hashAnd c =>
    simp only [meaning, written]
    unfold resolve
    split
    · next heq => cases heq
    · next heq =>
      cases heq
      exact absurd rfl (h.2 rfl _).1
    · rfl

/-- Pieces that fit are taken off one after the other. -/
theorem AllFit.exists_takenOff {pieces : List PieceForm} {following : List Char}
    (h : AllFit following pieces) :
    ∃ taken : List Piece, TakenOff following (writtenAll pieces ++ following) taken ∧
      taken.flatMap Piece.written = writtenAll pieces ∧
      taken.map Piece.meaning = pieces.map meaning ∧
      ∀ p ∈ taken, p.written ≠ [] ∧ p.meaning = resolve p.written p.rest := by
  induction pieces with
  | nil => exact ⟨[], rfl, rfl, rfl, by simp⟩
  | cons piece pieces ih =>
    obtain ⟨taken, htaken, hwritten, hmeaning, hpieces⟩ := ih h.2
    refine ⟨⟨piece.written, piece.meaning, writtenAll pieces ++ following⟩ :: taken,
      ⟨?_, htaken⟩, by simp [hwritten], by simp [hmeaning], ?_⟩
    · rw [writtenAll_cons, List.append_assoc]
      exact piece?_of_fits h.1
    · intro p hp
      rcases List.mem_cons.1 hp with rfl | hp
      · exact ⟨written_ne h.1, h.1.meaning_eq_resolve⟩
      · exact hpieces p hp

end Stencil.PieceForm

namespace Stencil.Literal

/-- A stretch of a source in which literal text is found is unescaped without fail: pieces are taken
    off it that tile it and end where it ends, each stands for what is written unless it is an
    escape, and after the stretch there is the end of the source or the opening of a tag. -/
theorem unescape_of_read {source : List Char} {start : Nat} {written rest : List Char}
    (h : Terminal.text.read (source.drop start) = some (written, rest)) :
    let stop := start + written.length
    (∃ pieces : List Piece,
      unescape source start stop = .ok (pieces.map fun p => String.ofList p.meaning) ∧
      TakenOff (source.drop stop) (source.drop start) pieces ∧
      pieces.flatMap Piece.written = (source.take stop).drop start ∧
      ∀ p ∈ pieces, p.written ≠ [] ∧ p.meaning = resolve p.written p.rest) ∧
    (stop = source.length ∨ ∃ s, source.drop stop = '#' :: '{' :: s) := by
  intro stop
  obtain ⟨hsplit, hne⟩ := Terminal.read_text_iff.1 h
  obtain ⟨forms, rfl, hfit⟩ := PieceForm.allFit_of_split hsplit
  have hsource : source.drop start = PieceForm.writtenAll forms ++ rest :=
    (Terminal.read_append h).2.symm
  have hrest : source.drop stop = rest := by
    rw [← List.drop_drop, hsource, List.drop_left]
  have hslice : (source.take stop).drop start = PieceForm.writtenAll forms := by
    rw [List.drop_take, Nat.add_sub_cancel_left, hsource, List.take_left]
  obtain ⟨pieces, htaken, hwritten, hmeaning, hpieces⟩ := hfit.exists_takenOff
  refine ⟨⟨pieces, ?_, ?_, hwritten.trans hslice.symm, hpieces⟩, ?_⟩
  · have hfragments := PieceForm.fragmentsFrom_of_allFit (Int.natCast_nonneg start) [] hfit
    rw [← hsource] at hfragments
    have hmap := congrArg (List.map String.ofList) hmeaning
    rw [List.map_map, List.map_map] at hmap
    rw [unescape, Int.toNat_natCast, Int.natCast_add, hfragments, List.reverse_nil, List.nil_append]
    exact congrArg Except.ok hmap.symm
  · rwa [hrest, hsource]
  · rcases hfit.endsText with hnil | htag
    · left
      have hlength := congrArg List.length hsource
      have hpos := List.length_pos_iff.2 hne
      simp only [hnil, List.append_nil, List.length_drop] at hlength
      omega
    · exact .inr (hrest.symm ▸ htag)

/-- Hash marks in all their meanings, read from behind the first character on. -/
theorem unescape_of_read_hashes :
    let source := "a##\x7bb#c###\x7bd".toList
    Terminal.text.read (source.drop 1) = some ("##\x7bb#c##".toList, "#\x7bd".toList) ∧
    (∃ pieces : List Piece,
      unescape source 1 9 = .ok (pieces.map fun p => String.ofList p.meaning) ∧
      TakenOff (source.drop 9) (source.drop 1) pieces ∧
      pieces.flatMap Piece.written = (source.take 9).drop 1 ∧
      ∀ p ∈ pieces, p.written ≠ [] ∧ p.meaning = resolve p.written p.rest) ∧
    (9 = source.length ∨ ∃ s, source.drop 9 = '#' :: '{' :: s) := by
  have h : Terminal.text.read ("a##\x7bb#c###\x7bd".toList.drop 1) =
      some ("##\x7bb#c##".toList, "#\x7bd".toList) := by
    decide +kernel
  exact ⟨h, unescape_of_read h⟩

end Stencil.Literal
