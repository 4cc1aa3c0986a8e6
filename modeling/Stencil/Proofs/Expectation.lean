-- SUMMARY: What a parse error says was expected, set against what may follow the text before it.
import Mathlib.Data.List.Nodup
import Stencil.Proofs.Following

/-! # What was expected

A parse error lists what was expected at its place. The list is close to what may follow the text
before it, but it is not the same. Where no token is found, it is all that was tried, and some of
that is tried for the sake of other blocks and paths; what ends a template is not tried. Where a
token is found that does not fit, the path before it counts as finished, so what would go on with
the path is left out. `Halt.surplus` and `Halt.missing` say which terminals this is about.
-/

namespace Stencil

open Text (isBlank)

/-! ## What is listed, what should not be and what should -/

/-- The marks after a path that end paths of another kind only. -/
def Goal.strangers : Goal → List Terminal
  | .bare => [.rightBrace, .bar]
  | .substitution _ => []
  | .condition .. => [.bar]
  | .loop .. => [.bar]

namespace Halt

/-- What was expected where reading comes to a halt. -/
def expected (h : Halt) : List Terminal :=
  match h.found with
  | none => h.state.place.admitted
  | some found => h.state.expectedFor found

/-- What was expected though it does not fit. -/
def surplus (h : Halt) : List Terminal :=
  match h.state.place, h.found with
  | .between, none =>
    (if h.state.AfterText then [.text] else []) ++
      ([.fails, .each, .holds].filter fun kind => h.state.kinds.head? ≠ some kind).map .closer
  | .between, some _ => if h.state.AfterText then [.text] else []
  | .afterEnumerator .., none => [.leftBracket, .rightBrace, .bar, .dot]
  | .afterName goal _, none => .inWord :: goal.strangers
  | .afterName goal _, some found => if found = .inWord then .finish :: goal.strangers else []
  | .afterIndexer goal _, none => goal.strangers
  | .afterFilter .., none => [.inWord, .leftBracket, .dot]
  | _, _ => []

/-- What was not expected though it fits. -/
def missing (h : Halt) : List Terminal :=
  match h.state.place, h.found with
  | .opening, none => [.finish]
  | .between, none => if h.state.kinds = [] then [.finish] else []
  | .afterName .., some found => if found = .inWord then [] else [.leftBracket, .dot]
  | .afterIndexer .., some _ => [.leftBracket, .dot]
  | _, _ => []

end Halt

namespace Reading

variable {r : Reading} {k : Terminal}

/-- A closing tag fits if the innermost block is of its kind. -/
theorem leave_isSome_iff {kind : BlockKind} :
    (r.leave kind).isSome = true ↔ r.kinds.head? = some kind := by
  rw [Option.isSome_iff_exists]
  constructor
  · rintro ⟨r', h⟩
    rw [kinds_leave h]
    rfl
  · intro h
    obtain ⟨kinds, hkinds⟩ := List.head?_eq_some_iff.1 h
    exact exists_leave hkinds

/-- Between nodes a node is expected, or what ends the innermost body. -/
theorem mem_nodeOrEnd_iff : k ∈ r.nodeOrEnd ↔ k ∈ Terminal.nodeStarts ∨
    (r.kinds = [] ∧ k = .finish ∨ ∃ kind, r.kinds.head? = some kind ∧ k = .closer kind) := by
  obtain ⟨blocks, nodes, place⟩ := r
  cases blocks <;> simp [nodeOrEnd, kinds]

/-- Between nodes, the beginning of a node fits, and what ends the innermost body. -/
theorem fits_iff_mem_nodeOrEnd (hr : r.WellPlaced) (hbody : r.place.IsBody) :
    r.Fits k ↔ k ∈ r.nodeOrEnd ∧ (k = .text → r.AfterText = false) := by
  have hshift : ∀ t next, r.shift t next = r.shiftNode t := by
    obtain ⟨blocks, nodes, place⟩ := r
    cases place <;> first | exact fun _ _ => rfl | cases hbody
  rw [mem_nodeOrEnd_iff]
  cases k with
  | finish =>
    have hplace : r.kinds = [] → r.place = .opening ∨ r.place = .between := by
      intro hkinds
      obtain ⟨blocks, nodes, place⟩ := r
      cases place with
      | inside kind =>
        obtain ⟨_, _, _, rfl, -⟩ := hr.inside kind rfl
        cases hkinds
      | opening | between => simp
      | _ => cases hbody
    rw [fits_finish_iff, outline?_isSome_iff]
    simpa [Terminal.nodeStarts] using hplace
  | closer kind =>
    simp [Fits, hshift, shiftNode, leave_isSome_iff, Terminal.nodeStarts]
  | opener kind => cases kind <;> simp [Fits, hshift, shiftNode, Terminal.nodeStarts]
  | _ => simp [Fits, hshift, shiftNode, Terminal.nodeStarts]

/-- After a step of a path, another one fits, and what ends the path. -/
theorem fits_iff_of_afterName {goal : Goal} {steps : List Part}
    (hplace : r.place = .afterName goal steps ∨ r.place = .afterIndexer goal steps) :
    r.Fits k ↔ k ∈ .leftBracket :: .dot :: goal.enders := by
  obtain ⟨blocks, nodes, place⟩ := r
  obtain rfl | rfl := hplace <;> cases goal <;> cases k <;>
    simp [Fits, shift, shiftStep, outline?, Goal.enders]

end Reading

namespace Halt

variable {h : Halt} {k : Terminal}

/-- What was expected and what fits differ in the surplus and in what is missing. -/
theorem mem_surplus_iff_and_mem_missing_iff (hr : h.state.WellPlaced) :
    (k ∈ h.surplus ↔ k ∈ h.expected ∧ ¬h.state.Fits k) ∧
      (k ∈ h.missing ↔ h.state.Fits k ∧ k ∉ h.expected) := by
  obtain ⟨tokens, r, found⟩ := h
  obtain ⟨blocks, nodes, place⟩ := r
  cases place with
  | opening =>
    obtain rfl := hr.opening rfl
    have hfinish : Terminal.finish ∉ Terminal.nodeStarts := by decide
    rw [Reading.fits_iff_mem_nodeOrEnd hr trivial]
    cases found <;>
      simp only [surplus, missing, expected, Place.admitted, Reading.expectedFor,
        Reading.nodeOrEnd, Reading.AfterText] <;>
      grind
  | inside kind =>
    obtain ⟨head, outer, blocks, rfl, rfl⟩ := hr.inside kind rfl
    rw [Reading.fits_iff_mem_nodeOrEnd hr trivial]
    cases found <;>
      simp only [surplus, missing, expected, Place.admitted, Reading.expectedFor,
        Reading.nodeOrEnd, Reading.AfterText] <;>
      grind
  | between =>
    rw [Reading.fits_iff_mem_nodeOrEnd hr trivial]
    cases found with
    | some found =>
      have htext : Terminal.text ∈ (Reading.mk blocks nodes .between).nodeOrEnd :=
        Reading.mem_nodeOrEnd_iff.2 (.inl (by decide))
      simp only [surplus, missing, expected, Reading.expectedFor]
      grind
    | none =>
      simp only [surplus, missing, expected, Place.admitted, Reading.mem_nodeOrEnd_iff]
      cases k with
      | opener kind | closer kind => cases kind <;> simp [Terminal.nodeStarts]
      | _ => simp [Terminal.nodeStarts]
  | afterName goal steps =>
    rw [Reading.fits_iff_of_afterName (.inl rfl)]
    cases found with
    | none =>
      cases goal <;> cases k <;>
        simp [surplus, missing, expected, Place.admitted, Goal.strangers, Goal.enders]
    | some found =>
      simp only [surplus, missing, expected, Reading.expectedFor]
      split <;> cases goal <;> cases k <;> simp [Goal.strangers, Goal.enders]
  | afterIndexer goal steps =>
    rw [Reading.fits_iff_of_afterName (.inr rfl)]
    cases found <;> cases goal <;> cases k <;>
      simp [surplus, missing, expected, Reading.expectedFor, Place.admitted, Goal.strangers,
        Goal.enders]
  | _ =>
    cases found <;> cases k <;>
      simp [surplus, missing, expected, Reading.expectedFor, Place.admitted, Reading.Fits,
        Reading.shift, Reading.outline?]

theorem mem_surplus_iff (hr : h.state.WellPlaced) :
    k ∈ h.surplus ↔ k ∈ h.expected ∧ ¬h.state.Fits k :=
  (mem_surplus_iff_and_mem_missing_iff hr).1

theorem mem_missing_iff (hr : h.state.WellPlaced) :
    k ∈ h.missing ↔ h.state.Fits k ∧ k ∉ h.expected :=
  (mem_surplus_iff_and_mem_missing_iff hr).2

end Halt

/-! ## The list of a fault -/

namespace Reading

/-- A fault lists what was expected at the halt; without one, all of the source has been read. -/
theorem expected_of_run (r : Reading) (before s : List Char) :
    (∀ f, r.run (.after before) s = .error f → f.expected = (r.halt (.after before) s).expected) ∧
      ∀ r' p, r.run (.after before) s = .ok (r', p) →
        (r.halt (.after before) s).expected = r'.expectedFor .finish := by
  induction hn : s.length using Nat.strongRecOn generalizing r before s with
  | ind n ih =>
    cases hscan : Scan.ofSource r.place.admitted s with
    | finish lead =>
      rw [run_finish _ hscan, halt_finish _ hscan]
      simp [Halt.expected]
    | stuck lead c =>
      rw [run_stuck _ hscan, halt_stuck _ hscan]
      simp [Halt.expected]
    | token t lead written rest =>
      cases hshift : r.shift ⟨t, .after before, lead, written⟩ rest.head? with
      | none =>
        rw [run_token_refused _ hscan hshift, halt_token_refused _ hscan hshift]
        simp [Halt.expected]
      | some r' =>
        rw [run_token_after before hscan hshift, halt_token hscan hshift]
        exact ih rest.length (hn ▸ Scan.rest_lt hscan) r' (before ++ lead ++ written) rest rfl

end Reading

/-- The fault of a source that is no template lists what was expected at the halt. -/
theorem expected_of_readOutline {source : List Char} {f : Fault}
    (h : readOutline source = .error f) :
    f.expected = (Reading.template.halt .start source).expected := by
  obtain ⟨hfault, hend⟩ := Reading.template.expected_of_run [] source
  rw [show Position.after [] = .start from rfl] at hfault hend
  simp only [readOutline, bind, Except.bind] at h
  split at h
  · next g hrun =>
    cases h
    exact hfault f hrun
  · next found hrun =>
    split at h <;> cases h
    exact (hend _ _ hrun).symm

/-! ## Ends that stay as they are -/

/-- The text may become a keyword of a block. -/
def BeginsKeyword (s : List Char) : Prop :=
  ∃ (kind : BlockKind) (t : List Char), InAnyCase kind.keyword (s ++ t)

/-- A text that becomes the inside of the opening of a block with more behind it is the beginning
    of a keyword. -/
theorem StartsBlock.or_beginsKeyword {s u : List Char} (h : StartsBlock (s ++ u)) :
    StartsBlock s ∨ BeginsKeyword s := by
  obtain ⟨kind, keyword, c, t, hs, hkeyword, hc⟩ := h
  rcases List.append_eq_append_iff.1 hs with ⟨v, rfl, -⟩ | ⟨v, rfl, hv⟩
  · exact .inr ⟨kind, v, hkeyword⟩
  · cases v with
    | nil => exact .inr ⟨kind, [], by simpa using hkeyword⟩
    | cons d v =>
      cases hv
      exact .inl ⟨kind, keyword, c, v, rfl, hkeyword, hc⟩

/-- Whatever comes next, what stands at the end of a text stays what it is: there is no hash mark
    that could be part of a tag, nothing that could be the opening of a block or a closing tag, and
    no name that could end in front of the word after a loop variable. -/
structure Reading.Settled (last : Reading) (before : List Char) : Prop where
  hash : last.place = .between → ∀ s, before ≠ s ++ ['#']
  tag : ∀ front s, before = front ++ '#' :: '{' :: s → ¬BeginsKeyword s
  word : ∀ start enumerator, last.place = .afterEnumerator start enumerator →
    ∀ front c s, before = front ++ c :: s → isBlank c = true → s ≠ ['i'] ∧ s ≠ ['i', 'n']

/-- If what stands at the end of a text stays what it is, no continuation disturbs it. -/
theorem Reading.Settled.undisturbed {last : Reading} {before : List Char}
    (h : last.Settled before) (u : List Char) : last.Undisturbed before u where
  hash hplace s _ hs := absurd hs (h.hash hplace s)
  tag front s hs := by
    refine ⟨?_, fun hblock => hblock.or_beginsKeyword.resolve_right (h.tag front s hs)⟩
    rintro rfl
    exact absurd ⟨.holds, _, inAnyCase_self _⟩ (h.tag front [] hs)
  word start enumerator hplace front c s hs hc := by
    obtain ⟨hi, hin⟩ := h.word start enumerator hplace front c s hs hc
    exact ⟨fun h => absurd h hi, fun h => absurd h hin⟩

/-! ## What a parse error says -/

/-- No two terminals are named alike. -/
theorem Terminal.description_injective : Function.Injective description := by
  have hall : ∀ t : Terminal, t ∈ [opener .holds, opener .fails, opener .each, closer .holds,
      closer .fails, closer .each, substitution, text, name, index, inWord, leftBracket,
      rightBracket, rightBrace, bar, dot, finish] := by
    intro t
    cases t with
    | opener kind | closer kind => cases kind <;> decide
    | _ => decide
  intro t u h
  exact List.inj_on_of_nodup_map (by decide +kernel) (hall t) (hall u) h

theorem ParseError.expected_report (source : String) (f : Fault) :
    (ofFault source f).report.expected = f.expected.map Terminal.description := rfl

/-- What a parse error says was expected may follow the text before it, except for the surplus.
    What is missing may follow as well. If the end of that text stays as it is, there is nothing
    else that may follow. -/
theorem expected_of_fault {source : String} {f : Fault}
    (h : readOutline source.toList = .error f) :
    (∀ limit machine, parseTemplate source limit machine = .error (.parse (.ofFault source f))) ∧
    ∃ before rest, source.toList = before ++ rest ∧ f.position = .after before ∧
      let halt := Reading.template.halt .start source.toList
      let expected := (ParseError.ofFault source f).report.expected
      (∀ d ∈ expected, ∃ k, d = k.description ∧ (MayFollow before k ∨ k ∈ halt.surplus)) ∧
      (∀ k ∈ halt.missing, MayFollow before k ∧ k.description ∉ expected) ∧
      (halt.state.Settled before → ∀ k,
        (k.description ∈ expected ↔ MayFollow before k ∧ k ∉ halt.missing ∨ k ∈ halt.surplus) ∧
        (k ∈ halt.surplus → ¬MayFollow before k)) := by
  refine ⟨fun limit machine => parseTemplate_of_fault limit machine h, ?_⟩
  obtain ⟨before, rest, hsource, hposition, hhalts⟩ := halts_of_readOutline h
  refine ⟨before, rest, hsource, hposition, ?_⟩
  have hplaced := hhalts.wellPlaced Reading.wellPlaced_template
  have hexpected := expected_of_readOutline h
  generalize Reading.template.halt .start source.toList = halt at *
  have hreport := ParseError.expected_report source f
  rw [hexpected] at hreport
  have hmem : ∀ k : Terminal, k.description ∈ (ParseError.ofFault source f).report.expected ↔
      k ∈ halt.expected := by
    intro k
    rw [hreport, List.mem_map_of_injective Terminal.description_injective]
  have hfollows : ∀ k, halt.state.Fits k → MayFollow before k := fun k hk => hk.mayFollow hhalts
  have hmissing := @Halt.mem_missing_iff halt
  have hsurplus := @Halt.mem_surplus_iff halt
  refine ⟨?_, ?_, ?_⟩
  · intro d hd
    rw [hreport] at hd
    obtain ⟨k, hk, rfl⟩ := List.mem_map.1 hd
    refine ⟨k, rfl, ?_⟩
    by_cases hfits : halt.state.Fits k
    · exact .inl (hfollows k hfits)
    · exact .inr ((hsurplus hplaced).2 ⟨hk, hfits⟩)
  · intro k hk
    obtain ⟨hfits, hnot⟩ := (hmissing hplaced).1 hk
    exact ⟨hfollows k hfits, mt (hmem k).1 hnot⟩
  · intro hsettled k
    have hiff : MayFollow before k ↔ halt.state.Fits k :=
      ⟨fun hk => hk.fits hhalts hsettled.undisturbed, hfollows k⟩
    rw [hmem, hiff, hmissing hplaced, hsurplus hplaced]
    tauto

/-- A fault that has been worked out. -/
theorem exists_fault (source : List Char) (p : Position) (expected : List Terminal)
    (h : (match readOutline source with
      | .error f => decide (f.position = p ∧ f.expected = expected)
      | .ok _ => false) = true) :
    ∃ f, readOutline source = .error f ∧ f.position = p ∧ f.expected = expected := by
  split at h
  · next f hf => exact ⟨f, hf, of_decide_eq_true h⟩
  · cases h

/-- The path of a condition may go on where only its end is said to be expected. -/
theorem expected_of_fault_condition :
    ∃ f, readOutline "#\x7bif a|f\x7d".toList = .error f ∧ f.position = .after "#\x7bif a".toList ∧
      (ParseError.ofFault "#\x7bif a|f\x7d" f).report.expected = ["'\x7d'"] ∧
      ∀ k, MayFollow "#\x7bif a".toList k ↔ k ∈ [.rightBrace, .leftBracket, .dot] := by
  obtain ⟨f, hf, hp, he⟩ := exists_fault "#\x7bif a|f\x7d".toList (.after "#\x7bif a".toList)
    [.rightBrace] (by decide +kernel)
  obtain ⟨-, before, rest, hs, hp', -, hmore, h⟩ := expected_of_fault hf
  have hmissing : (Reading.template.halt .start "#\x7bif a|f\x7d".toList).missing =
      [.leftBracket, .dot] := by decide +kernel
  have hsurplus : (Reading.template.halt .start "#\x7bif a|f\x7d".toList).surplus = [] := by
    decide +kernel
  have hname : (match (Reading.template.halt .start "#\x7bif a|f\x7d".toList).state.place with
      | .afterName .. => true | _ => false) = true := by decide +kernel
  have hexpected : (ParseError.ofFault "#\x7bif a|f\x7d" f).report.expected = ["'\x7d'"] := by
    rw [ParseError.expected_report, he]
    rfl
  have hcut : before ++ rest = "#\x7bif a".toList ++ "|f\x7d".toList := hs.symm
  obtain rfl := Position.eq_of_after hcut (hp'.symm.trans hp)
  rw [hmissing] at hmore
  rw [hmissing, hsurplus, hexpected] at h
  have hsettled : (Reading.template.halt .start "#\x7bif a|f\x7d".toList).state.Settled
      "#\x7bif a".toList := by
    generalize (Reading.template.halt .start "#\x7bif a|f\x7d".toList).state = last at hname
    refine ⟨?_, ?_, ?_⟩
    · intro hplace
      rw [hplace] at hname
      cases hname
    · rintro front s hs ⟨kind, t, hkeyword⟩
      obtain ⟨-, rfl⟩ : front = [] ∧ s = ['i', 'f', ' ', 'a'] := by
        simpa [List.cons_eq_append_iff] using hs
      cases kind <;> simp [InAnyCase, BlockKind.keyword, isLetter] at hkeyword
    · intro start enumerator hplace
      rw [hplace] at hname
      cases hname
  refine ⟨f, hf, hp, hexpected, fun k => ?_⟩
  obtain ⟨hlisted, -⟩ := h hsettled k
  have hbrace : k.description ∈ ["'\x7d'"] ↔ k = .rightBrace := by
    rw [List.mem_singleton]
    exact Terminal.description_injective.eq_iff (b := .rightBrace)
  rw [hbrace] at hlisted
  constructor
  · intro hk
    by_cases hnot : k ∈ [.leftBracket, .dot]
    · exact List.mem_cons_of_mem _ hnot
    · exact List.mem_cons.2 (.inl (hlisted.2 (.inl ⟨hk, hnot⟩)))
  · intro hk
    rcases List.mem_cons.1 hk with rfl | hk
    · exact ((hlisted.1 rfl).resolve_right (by simp)).1
    · exact (hmore k hk).1

/-- In front of a closing tag the end of the template is not listed, though nothing stands there
    yet; in front of a word that ends no path it is, though a tag is open. -/
theorem expected_of_fault_finish :
    (∃ f, readOutline "#\x7b/if\x7d".toList = .error f ∧ f.position = .after [] ∧
      Terminal.finish.description ∉ (ParseError.ofFault "#\x7b/if\x7d" f).report.expected ∧
      MayFollow [] .finish) ∧
    ∃ f, readOutline "#\x7ba in b\x7d".toList = .error f ∧
      f.position = .after "#\x7ba ".toList ∧
      Terminal.finish.description ∈ (ParseError.ofFault "#\x7ba in b\x7d" f).report.expected ∧
      ¬MayFollow "#\x7ba ".toList .finish := by
  constructor
  · obtain ⟨f, hf, hp, he⟩ := exists_fault "#\x7b/if\x7d".toList (.after []) Terminal.nodeStarts
      (by decide +kernel)
    refine ⟨f, hf, hp, ?_, exists_of_toBool (by decide +kernel)⟩
    rw [ParseError.expected_report, he]
    decide
  · obtain ⟨f, hf, hp, he⟩ := exists_fault "#\x7ba in b\x7d".toList (.after "#\x7ba ".toList)
      [.finish, .leftBracket, .rightBrace, .bar, .dot] (by decide +kernel)
    refine ⟨f, hf, hp, ?_, ?_⟩
    · rw [ParseError.expected_report, he]
      exact List.mem_map_of_mem List.mem_cons_self
    · rintro ⟨nodes, hnodes⟩
      have hnot : (readOutline "#\x7ba ".toList).toBool = false := by decide +kernel
      obtain ⟨e, he⟩ := exists_error_of_toBool hnot
      cases he.symm.trans hnodes

end Stencil
