-- SUMMARY: What a template still refers to when repetitions bind the names that it asks for.
import Stencil.Proofs.Occurrences
import Stencil.Proofs.Parsing

/-! # Binding

A host may bind a name that a template asks for by a repetition around the template. The names asked
for are the roots of the listed paths as they are written, and a root that is not the last step of
its path keeps the blanks after it, but a path is looked up in a scope without these. So binding
every name that is asked for leaves the paths whose root is written with blanks, unless the root
without them is asked for as well. It leaves no others.
-/

namespace Stencil

/-! ## Paths without their positions -/

namespace Step

/-- The step without its position. -/
def bare : Step → Step
  | .name i => .name { i with position := none }
  | .index i => .index { i with position := none }

/-- Steps are alike if they differ in positions only. -/
theorem alike_iff (a b : Step) : a.alike b = true ↔ a.bare = b.bare := by
  cases a <;> cases b <;> simp [alike, bare, Identifier.alike, Indexer.alike]

theorem allAlike_iff (as bs : List Step) :
    allAlike as bs = true ↔ as.map bare = bs.map bare := by
  induction as generalizing bs with
  | nil => cases bs <;> simp [allAlike]
  | cons a as ih =>
    cases bs with
    | nil => simp [allAlike]
    | cons b bs => simp [allAlike, alike_iff, ih]

end Step

namespace SymbolPath

/-- Paths are alike if their steps are the same but for positions. -/
theorem alike_iff (p q : SymbolPath) :
    p.alike q = true ↔ p.root.text = q.root.text ∧ p.rest.map Step.bare = q.rest.map Step.bare := by
  simp [alike, Identifier.alike, Step.allAlike_iff]

theorem alike_refl (p : SymbolPath) : p.alike p = true := (p.alike_iff p).2 ⟨rfl, rfl⟩

/-- The name under which a path is looked up in a scope. -/
def scopeName (p : SymbolPath) : String := String.ofList (Text.trim p.root.text.toList)

/-- Alike paths have the same name, and the same paths are like them. -/
theorem alike_congr {p q : SymbolPath} (h : p.alike q = true) (c : SymbolPath) :
    p.scopeName = q.scopeName ∧ p.alike c = q.alike c := by
  obtain ⟨hroot, hrest⟩ := (p.alike_iff q).1 h
  refine ⟨by rw [scopeName, scopeName, hroot], ?_⟩
  rw [Bool.eq_iff_iff, alike_iff, alike_iff, hroot, hrest]

end SymbolPath

/-! ## Lists without repetition -/

/-- What tells no members apart that are alike may as well be asked before repetitions go. -/
theorem filter_eraseDupsBy {α : Type} {r : α → α → Bool} {f : α → Bool}
    (h : ∀ a b, r b a = true → f b = f a) (l : List α) :
    (l.eraseDupsBy r).filter f = (l.filter f).eraseDupsBy r := by
  induction hn : l.length using Nat.strongRecOn generalizing l with
  | ind n ih =>
    cases l with
    | nil => rfl
    | cons a l =>
      have hlt : (l.filter fun b => decide (r b a = false)).length < n := by
        have := List.length_filter_le (fun b => decide (r b a = false)) l
        simp only [List.length_cons] at hn
        omega
      rw [List.eraseDupsBy_cons]
      cases ha : f a with
      | true =>
        rw [List.filter_cons_of_pos ha, List.filter_cons_of_pos ha, List.eraseDupsBy_cons,
          ih _ hlt _ rfl, List.filter_filter, List.filter_filter]
        simp only [Bool.and_comm]
      | false =>
        have hneg : ¬f a = true := by simp [ha]
        rw [List.filter_cons_of_neg hneg, List.filter_cons_of_neg hneg, ih _ hlt _ rfl,
          List.filter_filter]
        -- What the first member is like is passed over as it is.
        refine congrArg _ (List.filter_congr fun b _ => ?_)
        cases hb : r b a with
        | true => simp [h a b hb, ha]
        | false => simp

/-! ## Occurrences below further variables -/

/-- The occurrence below further loop variables. -/
def Occurrence.below (outer : List String) (o : Occurrence) : Occurrence :=
  { o with bound := o.bound ++ outer }

theorem Occurrence.isFree_below (outer : List String) (o : Occurrence) :
    (o.below outer).isFree = (o.isFree && !outer.contains o.path.scopeName) := by
  simp [isFree, below, SymbolPath.scopeName]

namespace Segment

mutual

/-- Below further loop variables everything occurs as before, but for what these bind. -/
theorem occurrences_below (bound outer : List String) (s : Segment) :
    s.occurrences (bound ++ outer) = (s.occurrences bound).map (Occurrence.below outer) := by
  cases s with
  | text => rfl
  | substitution => rfl
  | conditional negated subject body position =>
    simp only [occurrences, List.map_cons, occurrencesAll_below bound outer body]
    rfl
  | repetition enumerator collection body position =>
    have hbody := occurrencesAll_below (enumerator.text :: bound) outer body
    rw [List.cons_append] at hbody
    simp only [occurrences, List.map_cons, hbody]
    rfl

theorem occurrencesAll_below (bound outer : List String) (segments : List Segment) :
    occurrencesAll (bound ++ outer) segments =
      (occurrencesAll bound segments).map (Occurrence.below outer) := by
  cases segments with
  | nil => rfl
  | cons s rest =>
    simp only [occurrencesAll, List.map_append, occurrences_below bound outer s,
      occurrencesAll_below bound outer rest]

end

end Segment

/-! ## Repetitions around a template -/

/-- The template inside of repetitions over a collection, one for each name, the first name
    outermost. -/
def Template.bindAll (t : Template) (collection : SymbolPath) : List String → Template
  | [] => t
  | name :: names =>
    ⟨[.repetition { text := name } collection (t.bindAll collection names).segments none]⟩

/-- Inside of the repetitions there are their collection, again and again, and what occurs in the
    template, below all the names. -/
theorem Template.occurrences_bindAll (t : Template) (c : SymbolPath) (bound names : List String) :
    ∃ collections : List Occurrence, (∀ o ∈ collections, o.path = c) ∧
      Segment.occurrencesAll bound (t.bindAll c names).segments =
        collections ++ t.occurrences.map (Occurrence.below (names.reverse ++ bound)) := by
  induction names generalizing bound with
  | nil =>
    refine ⟨[], by simp, ?_⟩
    have h := Segment.occurrencesAll_below [] bound t.segments
    simpa [bindAll, occurrences] using h
  | cons name names ih =>
    obtain ⟨collections, hc, hbody⟩ := ih (name :: bound)
    refine ⟨⟨c, bound⟩ :: collections, by simpa using hc, ?_⟩
    simp [bindAll, Segment.occurrencesAll, Segment.occurrences, hbody]

namespace Analysis

/-- The symbols are the paths of the free occurrences, each once and in the order of first use. -/
theorem symbols_ofTemplate (t : Template) :
    (ofTemplate t).symbols =
      ((t.occurrences.filter Occurrence.isFree).map Occurrence.path).eraseDupsBy
        SymbolPath.alike := by
  rw [ofTemplate, walk_eq_noting, noting, foldl_addNew_nil]
  simp [Frame.occurrences, Template.occurrences]

theorem mem_rootNames {a : Analysis SymbolPath} {name : String} :
    name ∈ a.rootNames ↔ ∃ p ∈ a.symbols, p.root.text = name := by
  simp [rootNames, List.mem_eraseDups, Symbol.root]

/-- The free paths in a template, below further names. -/
theorem free_below (t : Template) (outer : List String) :
    ((t.occurrences.map (Occurrence.below outer)).filter Occurrence.isFree).map Occurrence.path =
      ((t.occurrences.filter Occurrence.isFree).map Occurrence.path).filter
        fun p => !outer.contains p.scopeName := by
  have hpath : Occurrence.path ∘ Occurrence.below outer = Occurrence.path := rfl
  rw [List.filter_map, List.map_map, hpath, List.filter_map, List.filter_filter]
  refine congrArg _ (List.filter_congr fun o _ => ?_)
  exact (Occurrence.isFree_below outer o).trans (Bool.and_comm ..)

/-- One more repetition around a template lists its collection first and takes away the symbols that
    its variable binds. -/
theorem symbols_bindAll_cons (t : Template) (c : SymbolPath) (name : String)
    (names : List String) :
    (ofTemplate (t.bindAll c (name :: names))).symbols =
      c :: (ofTemplate t).symbols.filter
        fun p => !p.alike c && !(name :: names).contains p.scopeName := by
  obtain ⟨collections, hc, hbody⟩ := t.occurrences_bindAll c [name] names
  have hoccurrences : (t.bindAll c (name :: names)).occurrences = ⟨c, []⟩ ::
      (collections ++ t.occurrences.map (Occurrence.below (names.reverse ++ [name]))) := by
    simp [Template.occurrences, Template.bindAll, Segment.occurrencesAll, Segment.occurrences,
      hbody]
  have hfree : Occurrence.isFree ⟨c, []⟩ = true := rfl
  have hcollections : ((collections.filter Occurrence.isFree).map Occurrence.path).filter
      (fun p => decide (p.alike c = false)) = [] := by
    rw [List.filter_eq_nil_iff]
    intro p hp
    obtain ⟨o, ho, rfl⟩ := List.mem_map.1 hp
    simp [hc o (List.mem_filter.1 ho).1, c.alike_refl]
  have hcongr : ∀ p q : SymbolPath, q.alike p = true →
      (!q.alike c && !(name :: names).contains q.scopeName) =
        (!p.alike c && !(name :: names).contains p.scopeName) := by
    intro p q h
    obtain ⟨hname, halike⟩ := SymbolPath.alike_congr h c
    rw [hname, halike]
  rw [symbols_ofTemplate, symbols_ofTemplate, hoccurrences, List.filter_cons_of_pos hfree,
    List.map_cons, List.eraseDupsBy_cons, List.filter_append, List.map_append,
    List.filter_append, hcollections, List.nil_append, free_below, List.filter_filter,
    filter_eraseDupsBy hcongr]
  refine congrArg (fun l => c :: List.eraseDupsBy _ l) (List.filter_congr fun p _ => ?_)
  simp [Bool.or_comm]

/-- When repetitions over a collection bind every name that a template asks for, it refers to the
    collection, and to what it referred to by a root that is none of the names once the blanks
    around it are gone. If no name has blanks around it, nothing is left but the collection. -/
theorem symbols_bindAll (t : Template) (c : SymbolPath) {names : List String}
    (hnames : ∀ name, name ∈ names ↔ name ∈ (ofTemplate t).rootNames) :
    (ofTemplate (t.bindAll c names)).symbols =
        (if names.isEmpty then [] else c :: (ofTemplate t).symbols.filter
          fun p => !p.alike c && !names.contains p.scopeName) ∧
      ((∀ name ∈ names, String.ofList (Text.trim name.toList) = name) →
        ∀ p ∈ (ofTemplate (t.bindAll c names)).symbols, p = c) := by
  have hroot : ∀ p ∈ (ofTemplate t).symbols, p.root.text ∈ names := fun p hp =>
    (hnames _).2 (mem_rootNames.2 ⟨p, hp, rfl⟩)
  have hsymbols : (ofTemplate (t.bindAll c names)).symbols =
      (if names.isEmpty then [] else c :: (ofTemplate t).symbols.filter
        fun p => !p.alike c && !names.contains p.scopeName) := by
    cases names with
    | nil =>
      -- Without a name that is asked for there is nothing that the template refers to.
      exact List.eq_nil_iff_forall_not_mem.2 fun p hp => List.not_mem_nil (hroot p hp)
    | cons name names => exact symbols_bindAll_cons t c name names
  refine ⟨hsymbols, ?_⟩
  intro htrimmed p hp
  rw [hsymbols] at hp
  split at hp
  · exact absurd hp List.not_mem_nil
  · rcases List.mem_cons.1 hp with rfl | hp
    · rfl
    · obtain ⟨hmem, hleft⟩ := List.mem_filter.1 hp
      have hname : p.scopeName ∈ names := by
        rw [SymbolPath.scopeName, htrimmed _ (hroot p hmem)]
        exact hroot p hmem
      simp [hname] at hleft

/-- Of the two names that are asked for, only the one without a blank binds anything. -/
theorem symbols_bindAll_stock :
    let source := "#\x7beach s in Stock .Items\x7d#\x7bs.Name\x7d #\x7bPrice\x7d#\x7b/each\x7d"
    let hosts : SymbolPath := { root := { text := "Hosts" } }
    ∃ t, parseTemplate source = .ok t ∧
      (∀ name, name ∈ ["Stock ", "Price"] ↔ name ∈ (ofTemplate t).rootNames) ∧
      (ofTemplate (t.bindAll hosts ["Stock ", "Price"])).symbols =
        hosts :: (ofTemplate t).symbols.filter
          fun p => !p.alike hosts && !(["Stock ", "Price"].contains p.scopeName) := by
  intro source hosts
  have hok : (parseTemplate source).toOption.map
      (fun t => (ofTemplate t).symbols.map fun p => p.root.text) = some ["Stock ", "Price"] := by
    decide +kernel
  cases h : parseTemplate source with
  | error e =>
    rw [h] at hok
    cases hok
  | ok t =>
    rw [h] at hok
    have hnames : ∀ name, name ∈ ["Stock ", "Price"] ↔ name ∈ (ofTemplate t).rootNames := by
      intro name
      rw [mem_rootNames, ← Option.some.inj hok, List.mem_map]
    exact ⟨t, rfl, hnames, (symbols_bindAll t hosts hnames).1⟩

/-- The only name that is asked for is bound, and the path that asks for it is still listed. -/
theorem symbols_bindAll_blank :
    let items : SymbolPath := { root := { text := "Items" } }
    ∃ t, parseTemplate "#\x7bFoo .Bar\x7d" = .ok t ∧ (ofTemplate t).rootNames = ["Foo "] ∧
      (ofTemplate (t.bindAll items ["Foo "])).symbols.map SymbolPath.render =
        ["Items", "Foo .Bar"] := by
  intro items
  have hok : (parseTemplate "#\x7bFoo .Bar\x7d").toOption.map
      (fun t => ((ofTemplate t).rootNames,
        (ofTemplate (t.bindAll items ["Foo "])).symbols.map SymbolPath.render)) =
      some (["Foo "], ["Items", "Foo .Bar"]) := by
    decide +kernel
  cases h : parseTemplate "#\x7bFoo .Bar\x7d" with
  | error e =>
    rw [h] at hok
    cases hok
  | ok t =>
    rw [h] at hok
    obtain ⟨hnames, hsymbols⟩ := Prod.mk.inj (Option.some.inj hok)
    exact ⟨t, rfl, hnames, hsymbols⟩

end Analysis

end Stencil
