-- SUMMARY: The written form of a path is again a path, wherever a mark follows it.
import Mathlib.Data.List.DropRight
import Stencil.Proofs.Building
import Stencil.Proofs.Legibility

/-! # Plain paths

The written form of a path leaves out the blanks after its last name. Put in another place, it may
be followed by something else than the path that it comes from. Both matter only to the last name:
whatever follows a path, a name goes on over the same characters as before unless what follows now
ends it, either at its end, as it should, or at an earlier blank. The latter happens in one way: the
name ends in a blank and `in`, and a blank follows.
-/

namespace Stencil

open Text (isBlank trimEnd)
open Name (isNameChar)

/-! ## Blanks at the end -/

/-- The last character that is left is visible. -/
theorem isBlank_of_trimEnd_eq {s u : List Char} {c : Char} (h : trimEnd s = u ++ [c]) :
    isBlank c = false := by
  have hne : s.rdropWhile isBlank ≠ [] := by
    rw [show s.rdropWhile isBlank = u ++ [c] from h]
    simp
  have hlast := List.rdropWhile_last_not isBlank s hne
  simp only [show s.rdropWhile isBlank = u ++ [c] from h, List.getLast_append_of_ne_nil,
    List.getLast_singleton, ne_eq, List.cons_ne_nil, not_false_eq_true] at hlast
  simpa using hlast

theorem trimEnd_ne_nil {c : Char} (s : List Char) (hc : isBlank c = false) :
    trimEnd (c :: s) ≠ [] := by
  intro h
  have hall := List.rdropWhile_eq_nil_iff.1 h
  rw [hall c List.mem_cons_self] at hc
  cases hc

theorem trimEnd_trimEnd (s : List Char) : trimEnd (trimEnd s) = trimEnd s :=
  List.rdropWhile_idempotent isBlank s

/-- Only the end is trimmed, if there is anything visible in it. -/
theorem trimEnd_append (s : List Char) {t : List Char} (h : trimEnd t ≠ []) :
    trimEnd (s ++ t) = s ++ trimEnd t := by
  have hne : t.reverse.dropWhile isBlank ≠ [] := by
    intro hnil
    exact h (by rw [trimEnd, hnil, List.reverse_nil])
  simp [trimEnd, List.dropWhile_append, hne]

/-- A name is what is left of it without the blanks at its end, and these. -/
theorem IsName.exists_trimEnd {name following : List Char} (h : IsName name following) :
    ∃ tail, name = trimEnd name ++ tail ∧ AllBlank tail ∧ trimEnd name ≠ [] := by
  obtain ⟨c, s, hs, hc⟩ := h.starts
  refine ⟨name.rtakeWhile isBlank, List.rdropWhile_append_rtakeWhile.symm, ?_, ?_⟩
  · intro d hd
    exact List.mem_rtakeWhile_imp hd
  · rw [hs]
    exact trimEnd_ne_nil s (isBlank_of_isNameChar hc)

/-! ## Names in another place -/

/-- The end of the source, or a mark after which no name goes on and that ends none too early. -/
def EndsAtMark (s : List Char) : Prop := ∀ c t, s = c :: t → c = '.' ∨ c = '[' ∨ c = '}'

theorem EndsAtMark.nil : EndsAtMark [] := by simp [EndsAtMark]

theorem EndsAtMark.brace (s : List Char) : EndsAtMark ('}' :: s) := by simp [EndsAtMark]

theorem EndsName.append {s : List Char} (h : EndsName s) (t : List Char) : EndsName (s ++ t) := by
  rcases h with ⟨u, rfl⟩ | ⟨c, u, rfl, hc⟩
  · exact .inl ⟨u ++ t, rfl⟩
  · exact .inr ⟨c, u ++ t, rfl, hc⟩

/-- What ends a name does so by itself, or the text after it has part in it. -/
theorem EndsName.of_append {s t : List Char} (h : EndsName (s ++ t)) :
    EndsName s ∨ (s = [] ∧ EndsName t) ∨ (s = ['i'] ∧ ∃ u, t = 'n' :: u) ∨
      (s = ['i', 'n'] ∧ ∃ c u, t = c :: u ∧ isBlank c = true) := by
  cases s with
  | nil => exact .inr (.inl ⟨rfl, h⟩)
  | cons a s =>
    rcases h with ⟨u, hu⟩ | ⟨c, u, hu, hc⟩
    · obtain ⟨rfl, -⟩ := List.cons.inj hu
      exact .inl (.inl ⟨s, rfl⟩)
    · obtain ⟨rfl, hn⟩ := List.cons.inj hu
      cases s with
      | nil => exact .inr (.inr (.inl ⟨rfl, _, hn⟩))
      | cons b s =>
        obtain ⟨rfl, hd⟩ := List.cons.inj hn
        cases s with
        | nil => exact .inr (.inr (.inr ⟨rfl, c, u, hd, hc⟩))
        | cons d s =>
          obtain ⟨rfl, -⟩ := List.cons.inj hd
          exact .inl (.inr ⟨d, s, rfl, hc⟩)

/-- A mark is no part of a name, nor of what ends a name at a blank. -/
private theorem EndsAtMark.first {s t : List Char} {c : Char} (h : EndsAtMark s) (hs : s = c :: t) :
    isNameChar c = false ∧ isBlank c = false ∧ c ≠ '|' := by
  rcases h c t hs with rfl | rfl | rfl <;> decide

theorem EndsAtMark.not_goesOn {c : Char} {s : List Char} (h : EndsAtMark (c :: s)) :
    ¬GoesOn c s := by
  obtain ⟨hname, hblank, -⟩ := h.first rfl
  simp [GoesOn, hname, hblank]

/-- What ends a name in front of a mark does so by itself. -/
theorem EndsName.of_append_mark {s t : List Char} (h : EndsName (s ++ t)) (ht : EndsAtMark t) :
    EndsName s := by
  rcases h.of_append with h | ⟨-, h⟩ | ⟨-, u, hu⟩ | ⟨-, d, u, hu, hd⟩
  · exact h
  · rcases h with ⟨u, hu⟩ | ⟨d, u, hu, -⟩
    · exact absurd rfl (ht.first hu).2.2
    · exact absurd (ht.first hu).1 (by decide)
  · exact absurd (ht.first hu).1 (by decide)
  · rw [(ht.first hu).2.1] at hd
    cases hd

/-- The start of a name is a name, if what follows now ends it and ends it nowhere else. -/
theorem IsName.shorten {kept tail following following' : List Char}
    (h : IsName (kept ++ tail) following) (hne : kept ≠ [])
    (ends : ∀ c s, following' = c :: s → ¬GoesOn c s)
    (early : ∀ u c v, kept = u ++ c :: v → isBlank c = true → EndsName (v ++ following') →
      EndsName v) :
    IsName kept following' := by
  refine ⟨?_, ?_, ends⟩
  · obtain ⟨c, s, hs, hc⟩ := h.starts
    obtain ⟨d, kept, rfl⟩ := List.exists_cons_of_ne_nil hne
    obtain ⟨rfl, -⟩ := List.cons.inj hs
    exact ⟨d, kept, rfl, hc⟩
  · intro u c v hkept
    rcases h.goesOn u c (v ++ tail) (by simp [hkept]) with hc | ⟨hc, hends⟩
    · exact .inl hc
    · refine .inr ⟨hc, ?_⟩
      intro hearly
      apply hends
      rw [List.append_assoc]
      exact (early u c v hkept hc hearly).append _

/-- What follows a name may be replaced by a text that starts alike and ends it as well. -/
theorem IsName.congr {name following following' : List Char} (h : IsName name following)
    (hhead : following.head? = following'.head?)
    (hends : ∀ c s s', following = c :: s → following' = c :: s' → isBlank c = true →
      EndsName s → EndsName s') : IsName name following' := by
  have hfirst : ∀ {c s}, following' = c :: s → ∃ s', following = c :: s' ∧ ¬GoesOn c s' := by
    rintro c s rfl
    obtain ⟨s', rfl⟩ := List.head?_eq_some_iff.1 hhead
    exact ⟨s', rfl, h.ends c s' rfl⟩
  have hletter : ∀ {c s}, isNameChar c = true → following' ≠ c :: s := by
    intro c s hc hs
    obtain ⟨s', -, hnot⟩ := hfirst hs
    exact hnot (.inl hc)
  refine ⟨h.starts, ?_, ?_⟩
  · intro u c v hname
    rcases h.goesOn u c v hname with hc | ⟨hc, hnot⟩
    · exact .inl hc
    · refine .inr ⟨hc, fun he => hnot ?_⟩
      rcases he.of_append with hv | ⟨rfl, ⟨s, hs⟩ | ⟨d, s, hs, -⟩⟩ | ⟨-, s, hs⟩ |
        ⟨rfl, d, s, hs, hd⟩
      · exact hv.append following
      · obtain ⟨s', hs', -⟩ := hfirst hs
        exact .inl ⟨s', hs'⟩
      · exact absurd hs (hletter (by decide))
      · exact absurd hs (hletter (by decide))
      · obtain ⟨s', hs', -⟩ := hfirst hs
        exact .inr ⟨d, s', by rw [hs']; rfl, hd⟩
  · intro c s hs
    obtain ⟨s', hs', hnot⟩ := hfirst hs
    rintro (hc | ⟨hc, hends'⟩)
    · exact hnot (.inl hc)
    · refine hnot (.inr ⟨hc, fun he => hends' ?_⟩)
      exact hends c s' s hs' hs hc he

/-- In front of a mark, the start of a name is a name. -/
theorem IsName.before_mark {kept tail following following' : List Char}
    (h : IsName (kept ++ tail) following) (hne : kept ≠ []) (hmark : EndsAtMark following') :
    IsName kept following' := by
  apply h.shorten hne
  · intro c s hs
    exact (hs ▸ hmark).not_goesOn
  · intro u c v _ _ hends
    exact hends.of_append_mark hmark

/-- A name without the blanks at its end is a name in front of a blank that ends names, unless it
    would lose its last word. -/
theorem IsName.before_blank {name following s : List Char} (h : IsName name following)
    (hin : ¬EndsInWord (trimEnd name)) (hs : EndsName s) : IsName (trimEnd name) (' ' :: s) := by
  obtain ⟨tail, htail, -, hne⟩ := h.exists_trimEnd
  rw [htail] at h
  apply h.shorten hne
  · intro c t hc
    obtain ⟨rfl, rfl⟩ := List.cons.inj hc
    rintro (hname | ⟨-, hends⟩)
    · exact absurd hname (by decide)
    · exact hends hs
  · intro u c v hkept hc hends
    rcases hends.of_append with h | ⟨rfl, -⟩ | ⟨-, t, ht⟩ | ⟨rfl, -⟩
    · exact h
    · rw [isBlank_of_trimEnd_eq hkept] at hc
      cases hc
    · cases ht
    · exact absurd ⟨u, c, hkept, hc⟩ hin

/-- Without the blanks at its end a name is still one, in front of a mark. -/
theorem IsName.trimEnd_before_mark {name following following' : List Char}
    (h : IsName name following) (hmark : EndsAtMark following') :
    IsName (trimEnd name) following' := by
  obtain ⟨tail, htail, -, hne⟩ := h.exists_trimEnd
  rw [htail] at h
  exact h.before_mark hne hmark

/-! ## Paths in another place -/

namespace StepForm

/-- What a step has between its marks if it is a name. -/
def name? : StepForm → Option (List Char)
  | .name _ _ chars => some chars
  | .index .. => none

def mapName (f : List Char → List Char) : StepForm → StepForm
  | .name gap blanks chars => .name gap blanks (f chars)
  | .index gap chars chars_ne => .index gap chars chars_ne

/-- The steps with another name in the last one, if that is a name. -/
def mapLast (f : List Char → List Char) : List StepForm → List StepForm
  | [] => []
  | [step] => [step.mapName f]
  | step :: next :: steps => step :: mapLast f (next :: steps)

theorem mapLast_id (steps : List StepForm) : mapLast id steps = steps := by
  fun_induction mapLast id steps with
  | case1 => rfl
  | case2 step => cases step <;> rfl
  | case3 step next steps ih => rw [ih]

theorem mapLast_tight {f : List Char → List Char} {steps : List StepForm}
    (h : ∀ step ∈ steps, step.gap = []) : ∀ step ∈ mapLast f steps, step.gap = [] := by
  fun_induction mapLast f steps with
  | case1 => exact h
  | case2 step =>
    have hgap := List.forall_mem_singleton.1 h
    refine List.forall_mem_singleton.2 ?_
    cases step <;> exact hgap
  | case3 step next steps ih =>
    obtain ⟨hgap, hrest⟩ := List.forall_mem_cons.1 h
    exact List.forall_mem_cons.2 ⟨hgap, ih hrest⟩

/-- A step starts with its mark. -/
theorem endsAtMark_written {step : StepForm} (h : step.gap = []) (t : List Char) :
    EndsAtMark (step.written ++ t) := by
  intro c u hu
  cases step with
  | name gap blanks chars =>
    obtain rfl : gap = [] := h
    obtain ⟨rfl, -⟩ := List.cons.inj hu
    exact .inl rfl
  | index gap chars chars_ne =>
    obtain rfl : gap = [] := h
    obtain ⟨rfl, -⟩ := List.cons.inj hu
    exact .inr (.inl rfl)

theorem endsAtMark_mapLast (f : List Char → List Char) {next : StepForm} (h : next.gap = [])
    (steps : List StepForm) (t : List Char) :
    EndsAtMark (writtenAll (mapLast f (next :: steps)) ++ t) := by
  cases steps with
  | nil =>
    rw [mapLast, writtenAll_cons, List.append_assoc]
    apply endsAtMark_written
    cases next <;> exact h
  | cons step steps =>
    rw [mapLast, writtenAll_cons, List.append_assoc]
    exact endsAtMark_written h _

/-- Steps fit in another place if the last of them does. -/
theorem AllFit.mapLast {f : List Char → List Char} {following following' : List Char}
    {steps : List StepForm} (h : AllFit following steps) (htight : ∀ step ∈ steps, step.gap = [])
    (hlast : ∀ step name, steps.getLast? = some step → step.name? = some name →
      IsName name following → IsName (f name) following') :
    AllFit following' (mapLast f steps) := by
  fun_induction StepForm.mapLast f steps with
  | case1 => trivial
  | case2 step =>
    refine ⟨?_, trivial⟩
    cases step with
    | name gap blanks chars =>
      obtain ⟨⟨hgap, hblanks, hname⟩, -⟩ := h
      exact ⟨hgap, hblanks, hlast _ chars rfl rfl hname⟩
    | index gap chars chars_ne => exact h.1
  | case3 step next steps ih =>
    obtain ⟨-, hrest⟩ := List.forall_mem_cons.1 htight
    refine ⟨?_, ih h.2 hrest fun step name hstep => hlast step name (by simpa using hstep)⟩
    cases step with
    | name gap blanks chars =>
      obtain ⟨hgap, hblanks, hname⟩ := h.1
      have hmark := endsAtMark_mapLast f (List.forall_mem_cons.1 hrest).1 steps following'
      have hchars : IsName (chars ++ []) (writtenAll (next :: steps) ++ following) := by
        simpa using hname
      exact ⟨hgap, hblanks, hchars.before_mark hname.ne_nil hmark⟩
    | index gap chars chars_ne => exact h.1

end StepForm

namespace PathForm

/-- The name that a path ends in, if its last step is no indexer. -/
def lastName? (p : PathForm) : Option (List Char) :=
  match p.steps.getLast? with
  | none => some p.root
  | some step => step.name?

/-- The path with another name at its end, if it ends in one. -/
def mapLast (f : List Char → List Char) : PathForm → PathForm
  | ⟨root, []⟩ => ⟨f root, []⟩
  | ⟨root, step :: steps⟩ => ⟨root, StepForm.mapLast f (step :: steps)⟩

theorem mapLast_id (p : PathForm) : p.mapLast id = p := by
  obtain ⟨root, steps⟩ := p
  cases steps with
  | nil => rfl
  | cons step steps => rw [mapLast, StepForm.mapLast_id]

theorem Tight.mapLast {p : PathForm} (h : p.Tight) (f : List Char → List Char) :
    (p.mapLast f).Tight := by
  obtain ⟨root, steps⟩ := p
  cases steps with
  | nil => exact h
  | cons step steps => exact StepForm.mapLast_tight h

/-- A path fits in another place if its last name does. -/
theorem Fits.mapLast {p : PathForm} {f : List Char → List Char} {following following' : List Char}
    (h : p.Fits following) (htight : p.Tight)
    (hlast : ∀ name, p.lastName? = some name → IsName name following →
      IsName (f name) following') :
    (p.mapLast f).Fits following' := by
  obtain ⟨root, steps⟩ := p
  obtain ⟨hroot, hsteps⟩ := h
  cases steps with
  | nil =>
    simp only [StepForm.writtenAll_nil, List.nil_append] at hroot
    exact ⟨hlast root rfl hroot, trivial⟩
  | cons step steps =>
    have hmark := StepForm.endsAtMark_mapLast f (List.forall_mem_cons.1 htight).1 steps following'
    have hname : IsName (root ++ []) (StepForm.writtenAll (step :: steps) ++ following) := by
      simpa using hroot
    refine ⟨hname.before_mark hroot.ne_nil hmark, hsteps.mapLast htight ?_⟩
    intro step' name hstep hname
    exact hlast name (by simp [lastName?, hstep, hname])

/-- In front of a mark, a path fits as it is. -/
theorem Fits.before_mark {p : PathForm} {following following' : List Char} (h : p.Fits following)
    (htight : p.Tight) (hmark : EndsAtMark following') : p.Fits following' := by
  rw [← p.mapLast_id]
  apply h.mapLast htight
  intro name _ hname
  have hwhole : IsName (name ++ []) following := by simpa using hname
  exact hwhole.before_mark hname.ne_nil hmark

/-! ## Written forms -/

/-- The path without the blanks after its last name. -/
def plain (p : PathForm) : PathForm := p.mapLast trimEnd

theorem Tight.plain {p : PathForm} (h : p.Tight) : p.plain.Tight := h.mapLast trimEnd

/-- In front of a mark, the written form of a path is a path. -/
theorem Fits.plain {p : PathForm} {following following' : List Char} (h : p.Fits following)
    (htight : p.Tight) (hmark : EndsAtMark following') : p.plain.Fits following' :=
  h.mapLast htight fun _ _ hname => hname.trimEnd_before_mark hmark

/-- The written form of a path is a path in front of a blank that ends names, unless its last name
    would lose its last word. -/
theorem Fits.plain_before_blank {p : PathForm} {following s : List Char} (h : p.Fits following)
    (htight : p.Tight) (hin : ∀ name, p.lastName? = some name → ¬EndsInWord (trimEnd name))
    (hs : EndsName s) : p.plain.Fits (' ' :: s) :=
  h.mapLast htight fun name hlast hname => hname.before_blank (hin name hlast) hs

end PathForm

/-- Blanks at the start of a step are its own. -/
theorem IsName.trimEnd_append {chars following : List Char} (h : IsName chars following)
    (blanks : List Char) : trimEnd (blanks ++ chars) = blanks ++ trimEnd chars := by
  obtain ⟨-, -, -, hne⟩ := h.exists_trimEnd
  exact Stencil.trimEnd_append blanks hne

theorem SymbolPath.render_toList (p : SymbolPath) :
    p.render.toList = p.root.text.toList ++ p.rest.flatMap fun step => step.render.toList := by
  have hsteps : ∀ (rest : List Step) (text : String),
      (rest.foldl (fun text step => text ++ step.render) text).toList =
        text.toList ++ rest.flatMap fun step => step.render.toList := by
    intro rest
    induction rest with
    | nil => simp
    | cons step rest ih => simp [ih]
  exact hsteps p.rest p.root.text

/-- A step that is not the last one is rendered as it is written. -/
theorem StepForm.render_step (before : List Char) {step : StepForm} (h : step.gap = []) :
    (step.step before false).render.toList = step.written := by
  cases step with
  | name gap blanks chars =>
    obtain rfl : gap = [] := h
    simp [StepForm.step, Step.render, written]
  | index gap chars chars_ne =>
    obtain rfl : gap = [] := h
    simp [StepForm.step, Step.render, Indexer.render, written]

/-- Steps are rendered without the blanks at the end of the last one. -/
theorem StepForm.render_stepsOf (before : List Char) {following : List Char}
    {steps : List StepForm} (h : AllFit following steps) (htight : ∀ step ∈ steps, step.gap = []) :
    ((stepsOf before steps).flatMap fun step => step.render.toList) =
      writtenAll (mapLast trimEnd steps) := by
  fun_induction mapLast trimEnd steps generalizing before with
  | case1 => rfl
  | case2 step =>
    have hgap := List.forall_mem_singleton.1 htight
    cases step with
    | name gap blanks chars =>
      obtain rfl : gap = [] := hgap
      have htrim := h.1.2.2.trimEnd_append blanks
      simp [stepsOf, StepForm.step, Step.render, mapName, written, htrim]
    | index gap chars chars_ne =>
      obtain rfl : gap = [] := hgap
      simp [stepsOf, StepForm.step, Step.render, Indexer.render, mapName, written]
  | case3 step next steps ih =>
    obtain ⟨hgap, hrest⟩ := List.forall_mem_cons.1 htight
    rw [stepsOf, List.flatMap_cons, ih (before ++ step.written) h.2 hrest, writtenAll_cons,
      List.isEmpty_cons, step.render_step before hgap]

/-- The path that a path in the source stands for is rendered without the blanks after its last
    name. -/
theorem PathForm.render_path (before : List Char) {p : PathForm} {following : List Char}
    (h : p.Fits following) (htight : p.Tight) :
    (p.path before).render.toList = p.plain.written := by
  obtain ⟨root, steps⟩ := p
  have hsteps := StepForm.render_stepsOf (before ++ root) h.2 htight
  rw [SymbolPath.render_toList]
  cases steps with
  | nil => simp [path, plain, mapLast, written, StepForm.stepsOf]
  | cons step steps => simp [path, plain, mapLast, written, hsteps]

/-! ## Comparison -/

/-- Only the position of a step depends on the text before it. -/
theorem StepForm.alike_step (before before' : List Char) (step : StepForm) (last : Bool) :
    (step.step before' last).alike (step.step before last) = true := by
  cases step <;> simp [StepForm.step, Step.alike, Identifier.alike, Indexer.alike]

/-- Another name at the end makes no difference if it is the same one but for blanks at its end. -/
theorem StepForm.alike_mapLast (before before' : List Char) {f : List Char → List Char}
    {following : List Char} {steps : List StepForm} (h : AllFit following steps)
    (hf : ∀ name, IsName name following → ∀ s, trimEnd (s ++ f name) = trimEnd (s ++ name)) :
    Step.allAlike (stepsOf before' (mapLast f steps)) (stepsOf before steps) = true := by
  fun_induction mapLast f steps generalizing before before' with
  | case1 => rfl
  | case2 step =>
    cases step with
    | name gap blanks chars =>
      have htrim := hf chars h.1.2.2 blanks
      simp [stepsOf, mapName, StepForm.step, Step.allAlike, Step.alike, Identifier.alike, htrim]
    | index gap chars chars_ne =>
      simp [stepsOf, mapName, StepForm.step, Step.allAlike, Step.alike, Indexer.alike]
  | case3 step next steps ih =>
    have hrest := ih (before ++ step.written) (before' ++ step.written) h.2
    have hnext : (mapLast f (next :: steps)).isEmpty = false := by
      cases steps <;> rfl
    rw [stepsOf, hnext, stepsOf, List.isEmpty_cons, Step.allAlike, step.alike_step, hrest]
    rfl

/-- Changing blanks at the end of the last name changes nothing but layout. -/
theorem PathForm.alike_mapLast (before before' : List Char) {f : List Char → List Char}
    {p : PathForm} {following : List Char} (h : p.Fits following)
    (hf : ∀ name, IsName name following → ∀ s, trimEnd (s ++ f name) = trimEnd (s ++ name)) :
    ((p.mapLast f).path before').alike (p.path before) = true := by
  obtain ⟨root, steps⟩ := p
  cases steps with
  | nil =>
    have htrim : trimEnd (f root) = trimEnd root := hf root h.1 []
    simp [mapLast, path, SymbolPath.alike, Identifier.alike, htrim, StepForm.stepsOf,
      Step.allAlike]
  | cons step steps =>
    have hsteps := StepForm.alike_mapLast (before ++ root) (before' ++ root) h.2 hf
    have hempty : (StepForm.mapLast f (step :: steps)).isEmpty = false := by
      cases steps <;> rfl
    simp [mapLast, path, SymbolPath.alike, Identifier.alike, hempty, hsteps]

/-- Positions apart, nothing is lost with the blanks at the end of a path. -/
theorem PathForm.alike_plain (before before' : List Char) {p : PathForm} {following : List Char}
    (h : p.Fits following) : (p.plain.path before').alike (p.path before) = true := by
  refine alike_mapLast before before' h fun name hname s => ?_
  rw [← hname.trimEnd_append, trimEnd_trimEnd]

end Stencil
