-- SUMMARY: The analysis of a template lists the first free occurrences in it.
import Stencil.Element.Analysis

/-! # Occurrences

What a template refers to can be said without a record of what has been seen. Listed from the start
of the template on, there are the paths that occur in it, each below the loop variables of the
repetitions whose bodies it is in, and the filters that its substitutions apply. The analysis lists
the paths that none of these variables binds and all the filters, each where it comes first.
-/

namespace Stencil

/-! ## Occurrences in a template -/

/-- A path that occurs below loop variables. -/
structure Occurrence where
  path : SymbolPath
  bound : List String

/-- No loop variable around the occurrence is what its path starts with, up to blanks. -/
def Occurrence.isFree (o : Occurrence) : Bool :=
  !o.bound.contains (String.ofList (Text.trim o.path.root.text.toList))

namespace Segment

mutual

/-- The occurrences in a segment below loop variables, from left to right. The collection of a
    repetition is not below its variable. -/
def occurrences (bound : List String) : Segment → List Occurrence
  | .text .. => []
  | .substitution expression _ => [⟨expression.subject, bound⟩]
  | .conditional _ subject body _ => ⟨subject, bound⟩ :: occurrencesAll bound body
  | .repetition enumerator collection body _ =>
    ⟨collection, bound⟩ :: occurrencesAll (enumerator.text :: bound) body

def occurrencesAll (bound : List String) : List Segment → List Occurrence
  | [] => []
  | s :: rest => s.occurrences bound ++ occurrencesAll bound rest

end

mutual

/-- The names of the filters in a segment, from left to right, those of a chain in the order of
    their application. -/
def filterNames : Segment → List String
  | .text .. => []
  | .substitution expression _ => expression.functions
  | .conditional _ _ body _ => filterNamesAll body
  | .repetition _ _ body _ => filterNamesAll body

def filterNamesAll : List Segment → List String
  | [] => []
  | s :: rest => s.filterNames ++ filterNamesAll rest

end

end Segment

def Template.occurrences (t : Template) : List Occurrence := Segment.occurrencesAll [] t.segments

def Template.filterNames (t : Template) : List String := Segment.filterNamesAll t.segments

/-! ## Lists without repetition -/

section Known

variable {α : Type} (r : α → α → Bool)

/-- Adds a member to a list unless it is known there. -/
def addNew (known : List α) (a : α) : List α := if known.any (r a) then known else known ++ [a]

/-- Of what is added one after the other, the first of each kind stays that is not known before. -/
theorem foldl_addNew (known l : List α) :
    l.foldl (addNew r) known = known ++ (l.filter fun a => !known.any (r a)).eraseDupsBy r := by
  induction l generalizing known with
  | nil => simp
  | cons a l ih =>
    rw [List.foldl_cons, ih, addNew]
    cases h : known.any (r a) with
    | true => simp [h]
    | false =>
      have hfilter : (l.filter fun b => !(known ++ [a]).any (r b)) =
          (l.filter fun b => !known.any (r b)).filter fun b => decide (r b a = false) := by
        rw [List.filter_filter]
        exact List.filter_congr fun b _ => by simp [List.any_append, Bool.and_comm]
      rw [if_neg Bool.false_ne_true, hfilter, List.filter_cons_of_pos (by simp [h]),
        List.eraseDupsBy_cons, List.append_assoc, List.singleton_append]

theorem foldl_addNew_nil (l : List α) : l.foldl (addNew r) [] = l.eraseDupsBy r := by
  rw [foldl_addNew, List.nil_append]
  exact congrArg _ (List.filter_eq_self.mpr fun _ _ => rfl)

end Known

/-! ## What the analysis adds -/

namespace Analysis

variable (a : Analysis SymbolPath) (bound : List String)

/-- The analysis with occurrences and names of filters that come after what is in it. -/
def noting (occurrences : List Occurrence) (names : List String) : Analysis SymbolPath where
  symbols := ((occurrences.filter Occurrence.isFree).map Occurrence.path).foldl
    (addNew SymbolPath.alike) a.symbols
  filters := names.foldl (addNew (· == ·)) a.filters

/-- Noting occurrences in two parts is noting them in one. -/
theorem noting_noting (first second : List Occurrence) (names others : List String) :
    (a.noting first names).noting second others = a.noting (first ++ second) (names ++ others) := by
  simp only [noting, List.filter_append, List.map_append, List.foldl_append]

theorem addSymbol_eq_noting (p : SymbolPath) :
    a.addSymbol bound p = a.noting [⟨p, bound⟩] [] := by
  have hroot : Symbol.root p = p.root.text := rfl
  have halike : Symbol.alike p = p.alike := rfl
  rw [addSymbol, hroot, halike, noting]
  cases hbound : bound.contains (String.ofList (Text.trim p.root.text.toList)) with
  | true =>
    have hfree : ¬Occurrence.isFree ⟨p, bound⟩ = true := by simpa [Occurrence.isFree] using hbound
    rw [List.filter_cons_of_neg hfree]
    rfl
  | false =>
    have hfree : Occurrence.isFree ⟨p, bound⟩ = true := by simpa [Occurrence.isFree] using hbound
    rw [List.filter_cons_of_pos hfree, Bool.false_or, List.filter_nil, List.map_singleton,
      List.foldl_cons, List.foldl_nil, addNew]
    split <;> rfl

theorem addFilter_eq_noting (name : String) : a.addFilter name = a.noting [] [name] := by
  rw [addFilter, List.contains_eq_any_beq, noting, List.foldl_cons, addNew]
  split <;> rfl

theorem foldl_addFilter_eq_noting (names : List String) :
    names.foldl addFilter a = a.noting [] names := by
  induction names generalizing a with
  | nil => rfl
  | cons name rest ih => rw [List.foldl_cons, ih, addFilter_eq_noting, noting_noting]; rfl

/-! ## The stack -/

/-- The occurrences in what is left of the bodies on the stack, in the order in which it is gone
    through. -/
def Frame.occurrences (frames : List (Frame Segment)) : List Occurrence :=
  frames.flatMap fun frame => Segment.occurrencesAll frame.bound frame.rest

/-- The names of the filters in what is left of the bodies on the stack, in the same order. -/
def Frame.filterNames (frames : List (Frame Segment)) : List String :=
  frames.flatMap fun frame => Segment.filterNamesAll frame.rest

theorem Frame.occurrences_cons (s : Segment) (rest : List Segment) (bound : List String)
    (frames : List (Frame Segment)) :
    occurrences (⟨s :: rest, bound⟩ :: frames) =
      s.occurrences bound ++ occurrences (⟨rest, bound⟩ :: frames) :=
  List.append_assoc ..

theorem Frame.filterNames_cons (s : Segment) (rest : List Segment) (bound : List String)
    (frames : List (Frame Segment)) :
    filterNames (⟨s :: rest, bound⟩ :: frames) =
      s.filterNames ++ filterNames (⟨rest, bound⟩ :: frames) :=
  List.append_assoc ..

/-- The body of a block comes before what is behind the block, and below the variables around it
    again. -/
theorem walk_eq_noting (a : Analysis SymbolPath) (frames : List (Frame Segment)) :
    walk a frames = a.noting (Frame.occurrences frames) (Frame.filterNames frames) := by
  induction a, frames using walk.induct with
  | case1 a => rw [walk]; rfl
  | case2 a bound frames ih => rw [walk, ih]; rfl
  | case3 a fragments position rest bound frames ih => rw [walk, ih]; rfl
  | case4 a e position rest bound frames ih =>
    rw [walk, ih, foldl_addFilter_eq_noting, addSymbol_eq_noting, noting_noting, noting_noting,
      Frame.occurrences_cons, Frame.filterNames_cons]
    rfl
  | case5 a negated subject body position rest bound frames ih =>
    rw [walk, ih, addSymbol_eq_noting, noting_noting, Frame.occurrences_cons,
      Frame.filterNames_cons]
    rfl
  | case6 a enumerator collection body position rest bound frames ih =>
    rw [walk, ih, addSymbol_eq_noting, noting_noting, Frame.occurrences_cons,
      Frame.filterNames_cons]
    rfl

/-- The analysis of a template lists the first of the free occurrences that are alike and the first
    uses of the filters, and it is the same for a template that was put together by hand. -/
theorem ofTemplate_eq_firstUses (t : Template) :
    ofTemplate t =
      { symbols :=
          ((t.occurrences.filter Occurrence.isFree).map Occurrence.path).eraseDupsBy
            SymbolPath.alike
        filters := t.filterNames.eraseDups } ∧
    t.toElement.analysis = .ok (ofTemplate t).toElements := by
  refine ⟨?_, analysis_toElement t⟩
  rw [ofTemplate, walk_eq_noting, noting, foldl_addNew_nil, foldl_addNew_nil]
  simp [Frame.occurrences, Frame.filterNames, Template.occurrences, Template.filterNames,
    List.eraseDups]

end Analysis

end Stencil
