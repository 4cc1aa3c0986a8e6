-- SUMMARY: The report of a parse error ends with the line in question and a caret under the place.
import Mathlib.Data.List.Induction
import Stencil.Proofs.Failures

/-! # Excerpts

The line and the column of a place are counted in the text before it, and a report looks up the line
in the source cut at its line feeds. The two go together: the line number is one of the source, and
the column one of this line or the first one behind it. So a report on a place in a source, which
every parse error of the source is, can be written, and it ends with the line in question and a
caret under the character at the place.
-/

namespace Stencil

/-! ## Lines -/

theorem exists_splitOn (s : List Char) : ∃ line lines, s.splitOn '\n' = line :: lines :=
  List.exists_cons_of_ne_nil (List.splitOn_ne_nil '\n' s)

theorem linesFrom_eq_modifyHead (line s : List Char) :
    linesFrom line s = (s.splitOn '\n').modifyHead (line.reverse ++ ·) := by
  induction s generalizing line with
  | nil => simp [linesFrom]
  | cons c s ih =>
    obtain ⟨first, lines, hlines⟩ := exists_splitOn s
    rw [linesFrom, List.splitOn_cons_eq_if_modifyHead, hlines]
    by_cases hc : c = '\n' <;> simp [hc, ih, hlines]

/-- Lines are what line feeds separate. -/
theorem linesOf_eq_splitOn (s : List Char) : linesOf s = s.splitOn '\n' :=
  (linesFrom_eq_modifyHead [] s).trans (congrFun List.modifyHead_id _)

theorem newline_not_mem_splitOn {s : List Char} :
    ∀ line ∈ s.splitOn '\n', '\n' ∉ line := by
  induction s with
  | nil => simp
  | cons c s ih =>
    obtain ⟨line, lines, hlines⟩ := exists_splitOn s
    rw [List.splitOn_cons_eq_if_modifyHead]
    rw [hlines] at ih ⊢
    by_cases hc : c = '\n'
    · simpa [hc] using ih
    · simpa [hc, Ne.symm hc] using ih

/-- A text in two parts, seen as lines: those before the one in which the second part starts, what
    this line has of either part, and those behind it. -/
structure LineCut (u v : List Char) (earlier : List (List Char)) (front back : List Char)
    (later : List (List Char)) : Prop where
  lines_eq : (u ++ v).splitOn '\n' = earlier ++ (front ++ back) :: later
  rest_eq : v.splitOn '\n' = back :: later
  text_eq : u = earlier.flatMap (· ++ ['\n']) ++ front
  position_eq : Position.after u = ⟨u.length, earlier.length + 1, front.length + 1⟩

namespace LineCut

variable {u v front back : List Char} {earlier later : List (List Char)} {c : Char}

/-- A line feed ends the line that the first part ends with. -/
theorem newline {back' : List Char} {later' : List (List Char)}
    (h : LineCut u ('\n' :: v) earlier front back later) (hv : v.splitOn '\n' = back' :: later') :
    LineCut (u ++ ['\n']) v (earlier ++ [front]) [] back' later' := by
  have hrest := h.rest_eq
  rw [List.splitOn_cons_eq_if_modifyHead, hv] at hrest
  obtain ⟨rfl, rfl⟩ := List.cons.inj hrest
  have hlines := h.lines_eq
  refine ⟨by simpa using hlines, hv, by simp [h.text_eq], ?_⟩
  rw [← Position.after_advance, h.position_eq]
  simp [Position.advance]

/-- Any other character goes on with this line. -/
theorem advance {back' : List Char} {later' : List (List Char)} (hc : c ≠ '\n')
    (h : LineCut u (c :: v) earlier front back later) (hv : v.splitOn '\n' = back' :: later') :
    LineCut (u ++ [c]) v earlier (front ++ [c]) back' later' := by
  have hrest := h.rest_eq
  rw [List.splitOn_cons_eq_if_modifyHead, hv] at hrest
  simp only [beq_iff_eq, hc, if_false, List.modifyHead_cons] at hrest
  obtain ⟨rfl, rfl⟩ := List.cons.inj hrest
  have hlines := h.lines_eq
  refine ⟨by simpa using hlines, hv, by simp [h.text_eq], ?_⟩
  rw [← Position.after_advance, h.position_eq]
  simp [Position.advance, hc]

end LineCut

/-- Every text can be seen so, wherever its second part starts. -/
theorem exists_lineCut (u v : List Char) :
    ∃ earlier front back later, LineCut u v earlier front back later := by
  induction u using List.reverseRecOn generalizing v with
  | nil =>
    obtain ⟨back, later, hv⟩ := exists_splitOn v
    exact ⟨[], [], back, later, hv, hv, rfl, rfl⟩
  | append_singleton u c ih =>
    obtain ⟨earlier, front, back, later, h⟩ := ih (c :: v)
    obtain ⟨back', later', hv⟩ := exists_splitOn v
    by_cases hc : c = '\n'
    · subst hc
      exact ⟨_, _, _, _, h.newline hv⟩
    · exact ⟨_, _, _, _, h.advance hc hv⟩

/-- What stands at the start of the second part stands in the line too, unless the line is over. -/
theorem LineCut.head?_rest {u v front back : List Char} {earlier later : List (List Char)}
    (h : LineCut u v earlier front back later) :
    (∃ c, c ≠ '\n' ∧ v.head? = some c ∧ back.head? = some c) ∨
      (v.head? = some '\n' ∨ v = []) ∧ back = [] := by
  have hrest := h.rest_eq
  cases v with
  | nil => exact .inr ⟨.inr rfl, (List.cons.inj hrest).1.symm⟩
  | cons c v =>
    rw [List.splitOn_cons_eq_if_modifyHead] at hrest
    by_cases hc : c = '\n'
    · subst hc
      exact .inr ⟨.inl rfl, (List.cons.inj hrest).1.symm⟩
    · obtain ⟨first, lines, hlines⟩ := exists_splitOn v
      simp only [hlines, beq_iff_eq, hc, if_false, List.modifyHead_cons] at hrest
      obtain ⟨rfl, -⟩ := List.cons.inj hrest
      exact .inl ⟨c, hc, rfl, rfl⟩

/-! ## Reports -/

/-- What stands in front of a line of the source. -/
def lineLabel (number : Nat) : List Char := ("Line " ++ toString number ++ ": ").toList

theorem newline_not_mem_lineLabel (number : Nat) : '\n' ∉ lineLabel number := by
  have hdigits : '\n' ∉ Nat.toDigits 10 number := fun h =>
    absurd (Nat.isDigit_of_mem_toDigits (by decide) (by decide) h) (by decide)
  simp [lineLabel, hdigits]

/-- Lines that are the last ones to be joined are the last ones that the text has. -/
theorem suffix_splitOn_intercalate {front lines : List String} (hfront : front ≠ [])
    (hne : lines ≠ []) (hlines : ∀ line ∈ lines, '\n' ∉ line.toList) :
    lines.map String.toList <:+ (String.intercalate "\n" (front ++ lines)).toList.splitOn '\n' := by
  have hsplit : (String.intercalate "\n" lines).toList.splitOn '\n' = lines.map String.toList := by
    rw [String.toList_intercalate]
    exact List.splitOn_intercalate _ (by simpa using hlines) (by simpa using hne)
  rw [String.intercalate_append_of_ne_nil hfront hne, String.append_assoc]
  simp only [String.toList_append]
  rw [show "\n".toList = ['\n'] from rfl, List.singleton_append, List.splitOn_append_cons_self,
    hsplit]
  exact List.suffix_append _ _

/-- What a text says of a place in a source that has `n` lines before it and `k` characters of its
    own line, which is `row`: the text ends with this line, by its number, and with a caret under
    the place. There stands a character of the line, unless the line is over. -/
structure Position.ShownIn (p : Position) (source text : List Char) (n k : Nat) (row : List Char) :
    Prop where
  line_eq : p.line = n + 1
  column_eq : p.column = k + 1
  row_at : (source.splitOn '\n')[n]? = some row
  offset_eq : p.offset = (((source.splitOn '\n').take n).flatMap (· ++ ['\n'])).length + k
  shown : [lineLabel (n + 1) ++ row, List.replicate ((lineLabel (n + 1)).length + k) ' ' ++ ['^']]
    <:+ text.splitOn '\n'
  under : (∃ c, c ≠ '\n' ∧ source[p.offset.toNat]? = some c ∧ row[k]? = some c) ∨
    (source[p.offset.toNat]? = some '\n' ∨ p.offset = source.length) ∧ row.length = k

namespace Report

variable {r : Report} {source : String} {u v front back : List Char}
  {earlier later : List (List Char)}

/-- The excerpt is the line in which the second part of the source starts, with the caret where it
    does. -/
theorem excerpt_of_lineCut (hsource : r.source = some source) (huv : source.toList = u ++ v)
    (hposition : r.position = some (.after u)) (hcut : LineCut u v earlier front back later) :
    r.excerpt = .ok [String.ofList (lineLabel (earlier.length + 1) ++ (front ++ back)),
      String.ofList (List.replicate ((lineLabel (earlier.length + 1)).length + front.length) ' ' ++
        ['^'])] := by
  have hlines : linesOf source.toList = earlier ++ (front ++ back) :: later := by
    rw [linesOf_eq_splitOn, huv, hcut.lines_eq]
  have hcount : ¬((earlier.length + 1 : Int) > (linesOf source.toList).length) := by
    simp only [hlines, List.length_append, List.length_cons]
    omega
  have hline : lineAt? (linesOf source.toList) (earlier.length + 1) = some (front ++ back) := by
    rw [lineAt?, if_pos (by omega), Int.add_sub_cancel, Int.toNat_natCast, hlines,
      List.getElem?_append_right (Nat.le_refl _), Nat.sub_self, List.getElem?_cons_zero]
  have hlabel : "Line " ++ toString (earlier.length + 1 : Int) ++ ": " =
      String.ofList (lineLabel (earlier.length + 1)) :=
    String.ofList_toList.symm
  have hindent : (((lineLabel (earlier.length + 1)).length : Int) + (front.length + 1) - 1).toNat =
      (lineLabel (earlier.length + 1)).length + front.length := by
    omega
  simp only [excerpt, hsource, hposition, hcut.position_eq, hcount, if_false, hline, hlabel,
    String.length_ofList, hindent, String.ofList_append]

/-- A report on a place in a source can be written, and it shows the place. -/
theorem exists_render_shownIn (hsource : r.source = some source) (huv : source.toList = u ++ v)
    (hposition : r.position = some (.after u)) :
    ∃ text n k row, r.render = .ok text ∧
      (Position.after u).ShownIn source.toList text.toList n k row := by
  obtain ⟨earlier, front, back, later, hcut⟩ := exists_lineCut u v
  have hline : front ++ back ∈ (u ++ v).splitOn '\n' := by
    rw [hcut.lines_eq]
    exact List.mem_append_right _ List.mem_cons_self
  obtain ⟨text, htext, hshown⟩ : ∃ text, r.render = .ok text ∧ _ <:+ text.toList.splitOn '\n' := by
    simp only [render, renderLines, excerpt_of_lineCut hsource huv hposition hcut, bind,
      Except.bind, pure, Except.pure]
    refine ⟨_, rfl, suffix_splitOn_intercalate (by simp) (by simp) ?_⟩
    have hfree := newline_not_mem_splitOn _ hline
    simpa [newline_not_mem_lineLabel] using hfree
  refine ⟨text, earlier.length, front.length, front ++ back, htext, ?_⟩
  constructor
  case line_eq => rw [hcut.position_eq]
  case column_eq => rw [hcut.position_eq]
  case row_at => simp [huv, hcut.lines_eq]
  case offset_eq =>
    have hlength : u.length = (earlier.flatMap (· ++ ['\n'])).length + front.length := by
      rw [← List.length_append, ← hcut.text_eq]
    rw [huv, hcut.lines_eq, List.take_left, hcut.position_eq, hlength, Int.natCast_add]
  case shown => simpa using hshown
  case under =>
    have hoffset : (Position.after u).offset = u.length := rfl
    rw [hoffset, Int.toNat_natCast, huv, List.getElem?_append_right (Nat.le_refl _), Nat.sub_self,
      ← List.head?_eq_getElem?]
    rcases hcut.head?_rest with ⟨c, hc, hv, hback⟩ | ⟨hv, rfl⟩
    · refine .inl ⟨c, hc, hv, ?_⟩
      rw [List.getElem?_append_right (Nat.le_refl _), Nat.sub_self, ← List.head?_eq_getElem?, hback]
    · refine .inr ⟨hv.imp_right ?_, by simp⟩
      rintro rfl
      simp

end Report

/-- The place that a result names if it is a parse error. -/
def errorPlace? {α : Type} : Except Failure α → Option Position
  | .error (.parse e) => e.position
  | _ => none

theorem exists_of_errorPlace? {α : Type} {result : Except Failure α} {p : Position}
    (h : errorPlace? result = some p) : ∃ e, result = .error (.parse e) ∧ e.position = some p := by
  unfold errorPlace? at h
  split at h
  · exact ⟨_, rfl, h⟩
  · cases h

/-- Every parse error that names a place names one in the source, and its report shows the place:
    the last two lines are the one that the place is in and a caret under the place. -/
theorem parseError_shownIn {source : String} {limit : Int} {machine : Machine} {e : ParseError}
    {p : Position}
    (h : parseTemplate source limit machine = .error (.parse e) ∨
      parsePath source = .error (.parse e))
    (hp : e.position = some p) :
    (0 ≤ p.offset ∧ p.offset ≤ source.length ∧ p = .ofOffset source.toList p.offset) ∧
      ∃ text n k row, e.report.render = .ok text ∧
        p.ShownIn source.toList text.toList n k row := by
  have habout : e.About source := h.elim parseTemplate_about parsePath_about
  obtain ⟨u, v, hsource, rfl⟩ := habout.within p hp
  rw [List.nil_append] at hp ⊢
  constructor
  · have hoffset : (Position.after u).offset = u.length := rfl
    have hlength : source.length = u.length + v.length := by
      rw [← String.length_toList, hsource, List.length_append]
    rw [hoffset, hsource, Position.ofOffset_length]
    exact ⟨by omega, by omega, rfl⟩
  · exact Report.exists_render_shownIn (congrArg some habout.source_eq) hsource hp

/-- A tag that the second line leaves open is reported at the end of this line. -/
theorem parseError_shownIn_greeting :
    ∃ e p text, parseTemplate "Dear\n#\x7bName" 64 = .error (.parse e) ∧ e.position = some p ∧
      p.offset = 11 ∧ e.report.render = .ok text ∧
      ∃ n k row, p.ShownIn "Dear\n#\x7bName".toList text.toList n k row := by
  have hplace : errorPlace? (parseTemplate "Dear\n#\x7bName" 64) = some ⟨11, 2, 7⟩ := by
    decide +kernel
  obtain ⟨e, hfails, hp⟩ := exists_of_errorPlace? hplace
  obtain ⟨-, text, n, k, row, htext, hshown⟩ := parseError_shownIn (.inl hfails) hp
  exact ⟨e, _, text, hfails, hp, rfl, htext, n, k, row, hshown⟩

end Stencil
