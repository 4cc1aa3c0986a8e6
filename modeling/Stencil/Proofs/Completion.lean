-- SUMMARY: Every state of reading has a completion, which is read to the end of the source.
import Stencil.Proofs.Stopping

/-! # Completion

From every place that reading gets to, some text leads to the end of a template, or of a bare path
if one is read: what finishes the tag that is being read, with names as short as can be, and then
the closing tags of the open blocks. Such a completion depends on the place and the open blocks
alone, so it is the same for tokens that differ only in how they are written.
-/

namespace Stencil

open Text (isBlank)
open Name (isNameChar)

/-! ## Completions -/

/-- What follows a path if nothing else does: the end of its tag, and of the block that it opens. -/
def Goal.ending : Goal → List Char
  | .bare => []
  | .substitution _ => ['}']
  | .condition _ negated => '}' :: (conditionKind negated).closer.toList
  | .loop .. => '}' :: BlockKind.each.closer.toList

/-- What finishes the tag or the path that is being read. -/
def Place.ending : Place → List Char
  | .opening => []
  | .inside _ => []
  | .between => []
  | .enumerator _ => 'x' :: ' ' :: 'i' :: 'n' :: ' ' :: 'x' :: '}' :: BlockKind.each.closer.toList
  | .afterEnumerator .. => ' ' :: 'i' :: 'n' :: ' ' :: 'x' :: '}' :: BlockKind.each.closer.toList
  | .step goal _ => 'x' :: goal.ending
  | .afterName goal _ => goal.ending
  | .index goal .. => 'x' :: ']' :: goal.ending
  | .afterIndex goal .. => ']' :: goal.ending
  | .afterIndexer goal _ => goal.ending
  | .filter .. => ['x', '}']
  | .afterFilter .. => ['}']

def Goal.isBare : Goal → Bool
  | .bare => true
  | _ => false

/-- Whether a bare path is being read. -/
def Place.isBare : Place → Bool
  | .step goal _ => goal.isBare
  | .afterName goal _ => goal.isBare
  | .index goal .. => goal.isBare
  | .afterIndex goal .. => goal.isBare
  | .afterIndexer goal _ => goal.isBare
  | _ => false

/-- Whether a template begins here, or the nodes of a block do. -/
def Place.isStart : Place → Bool
  | .opening => true
  | .inside _ => true
  | _ => false

/-- A text in front of which names end. -/
def EndsNames (u : List Char) : Prop := ∀ c s, u = c :: s → ¬GoesOn c s

/-- The letter that completions are made with is a name in front of what follows it there. -/
theorem isName_x {u : List Char} (hu : EndsNames u) : IsName ['x'] u := by
  refine ⟨⟨'x', [], rfl, by decide⟩, ?_, hu⟩
  intro v c w hc
  rw [List.singleton_eq_append_iff] at hc
  rcases hc with ⟨rfl, hc⟩ | ⟨rfl, hc⟩
  · cases hc
    exact .inl (by decide)
  · cases hc

namespace Reading

/-- The closing tags of the open blocks. -/
def closers (r : Reading) : List Char := r.blocks.flatMap fun block => block.1.kind.closer.toList

/-- A text to go on with. -/
def completion (r : Reading) : List Char := r.place.ending ++ r.closers

/-- The place goes with the open blocks. -/
structure WellPlaced (r : Reading) : Prop where
  opening : r.place = .opening → r.blocks = []
  inside : ∀ kind, r.place = .inside kind →
    ∃ head outer blocks, r.blocks = (head, outer) :: blocks ∧ head.kind = kind
  bare : r.place.isBare = true → r.blocks = []

/-- What goes with the open blocks is only a matter of where nodes begin, and of bare paths. -/
theorem WellPlaced.of_isStart {r : Reading} (hstart : r.place.isStart = false)
    (hbare : r.place.isBare = true → r.blocks = []) : r.WellPlaced := by
  refine ⟨?_, ?_, hbare⟩
  · intro hplace
    rw [hplace] at hstart
    cases hstart
  · intro kind hplace
    rw [hplace] at hstart
    cases hstart

theorem WellPlaced.of_isBare {r : Reading} (hstart : r.place.isStart = false)
    (hbare : r.place.isBare = false) : r.WellPlaced := by
  refine .of_isStart hstart ?_
  intro h
  cases hbare.symm.trans h

theorem wellPlaced_template : template.WellPlaced where
  opening _ := rfl
  inside kind h := by cases h
  bare h := by cases h

theorem wellPlaced_path : path.WellPlaced := .of_isStart rfl fun _ => rfl

theorem wellPlaced_enter (head : Head) (r : Reading) : (r.enter head).WellPlaced where
  opening h := by cases h
  inside kind h := by
    cases h
    exact ⟨head, r.nodes, r.blocks, rfl, rfl⟩
  bare h := by cases h

/-- Reading may end here. -/
def Ends (bare : Bool) (r : Reading) : Prop :=
  if bare then r.path?.isSome = true else r.outline?.isSome = true

end Reading

/-! ## States that go on alike -/

/-- Paths that are read for the same thing, wherever their tags are. -/
inductive Goal.Alike : Goal → Goal → Prop
  | bare : Alike .bare .bare
  | substitution {p p'} : Alike (.substitution p) (.substitution p')
  | condition {p p' negated} : Alike (.condition p negated) (.condition p' negated)
  | loop {p p' enumerator enumerator'} : Alike (.loop p enumerator) (.loop p' enumerator')

/-- Places that differ in what has been read of a tag, but not in what comes next. -/
inductive Place.Alike : Place → Place → Prop
  | opening : Alike .opening .opening
  | inside {kind} : Alike (.inside kind) (.inside kind)
  | between : Alike .between .between
  | enumerator {p p'} : Alike (.enumerator p) (.enumerator p')
  | afterEnumerator {p p' t t'} : Alike (.afterEnumerator p t) (.afterEnumerator p' t')
  | step {goal goal' steps steps'} (h : goal.Alike goal') :
      Alike (.step goal steps) (.step goal' steps')
  | afterName {goal goal' steps steps'} (h : goal.Alike goal') :
      Alike (.afterName goal steps) (.afterName goal' steps')
  | index {goal goal' steps steps' p p'} (h : goal.Alike goal') :
      Alike (.index goal steps p) (.index goal' steps' p')
  | afterIndex {goal goal' steps steps' p p' s s'} (h : goal.Alike goal') :
      Alike (.afterIndex goal steps p s) (.afterIndex goal' steps' p' s')
  | afterIndexer {goal goal' steps steps'} (h : goal.Alike goal') :
      Alike (.afterIndexer goal steps) (.afterIndexer goal' steps')
  | filter {p p' steps steps' ts ts'} : Alike (.filter p steps ts) (.filter p' steps' ts')
  | afterFilter {p p' steps steps' ts ts'} :
      Alike (.afterFilter p steps ts) (.afterFilter p' steps' ts')

theorem Goal.Alike.refl (goal : Goal) : goal.Alike goal := by
  cases goal <;> constructor

theorem Place.Alike.refl (place : Place) : place.Alike place := by
  cases place <;> constructor <;> exact .refl _

theorem Goal.Alike.symm {goal goal' : Goal} (h : goal.Alike goal') : goal'.Alike goal := by
  cases h <;> constructor

theorem Place.Alike.symm {place place' : Place} (h : place.Alike place') :
    place'.Alike place := by
  cases h <;> constructor <;> exact .symm ‹_›

theorem Goal.Alike.ending {goal goal' : Goal} (h : goal.Alike goal') :
    goal.ending = goal'.ending := by
  cases h <;> rfl

theorem Place.Alike.ending {place place' : Place} (h : place.Alike place') :
    place.ending = place'.ending := by
  cases h with
  | step h | afterName h | index h | afterIndex h | afterIndexer h =>
    simp only [Place.ending, h.ending]
  | _ => rfl

theorem Goal.Alike.isBare {goal goal' : Goal} (h : goal.Alike goal') :
    goal.isBare = goal'.isBare := by
  cases h <;> rfl

theorem Place.Alike.isBare {place place' : Place} (h : place.Alike place') :
    place.isBare = place'.isBare := by
  cases h with
  | step h | afterName h | index h | afterIndex h | afterIndexer h => exact h.isBare
  | _ => rfl

theorem Place.Alike.admitted {place place' : Place} (h : place.Alike place') :
    place.admitted = place'.admitted := by
  cases h <;> rfl

namespace Reading

/-- The last thing read is literal text. -/
def AfterText (r : Reading) : Bool :=
  match r.place, r.nodes with
  | .between, .text .. :: _ => true
  | _, _ => false

/-- The kinds of the open blocks, innermost first. -/
def kinds (r : Reading) : List BlockKind := r.blocks.map fun block => block.1.kind

/-- States that differ in what has been read, but not in what may come next. -/
structure Alike (r r' : Reading) : Prop where
  kinds : r.kinds = r'.kinds
  place : r.place.Alike r'.place
  text : r.AfterText = r'.AfterText

theorem Alike.refl (r : Reading) : r.Alike r := ⟨rfl, .refl _, rfl⟩

theorem Alike.symm {r r' : Reading} (h : r.Alike r') : r'.Alike r :=
  ⟨h.kinds.symm, h.place.symm, h.text.symm⟩

theorem Alike.admitted {r r' : Reading} (h : r.Alike r') :
    r.place.admitted = r'.place.admitted :=
  h.place.admitted

theorem closers_eq (r : Reading) : r.closers = r.kinds.flatMap fun kind => kind.closer.toList := by
  rw [closers, kinds, List.flatMap_map]

theorem Alike.completion {r r' : Reading} (h : r.Alike r') : r.completion = r'.completion := by
  rw [Reading.completion, Reading.completion, closers_eq, closers_eq, h.kinds, h.place.ending]

theorem kinds_leave {r r' : Reading} {kind : BlockKind} (h : r.leave kind = some r') :
    r.kinds = kind :: r'.kinds := by
  obtain ⟨head, outer, hblocks, rfl, -, -⟩ := leave_eq h
  rw [kinds, hblocks]
  rfl

theorem afterText_leave {r r' : Reading} {kind : BlockKind} (h : r.leave kind = some r') :
    r'.AfterText = false := by
  unfold leave at h
  split at h
  · cases h
  · split at h <;> cases h
    rfl

/-- A closing tag leaves a block of its kind, whichever that is. -/
theorem exists_leave {r : Reading} {kind : BlockKind} {kinds : List BlockKind}
    (h : r.kinds = kind :: kinds) : ∃ r', r.leave kind = some r' := by
  obtain ⟨blocks, nodes, place⟩ := r
  cases blocks with
  | nil => cases h
  | cons block blocks =>
    obtain ⟨rfl, -⟩ := List.cons.inj h
    exact ⟨_, if_pos rfl⟩

theorem Alike.leave {r r₁ r' : Reading} {kind : BlockKind} (h : r.Alike r₁)
    (hleave : r.leave kind = some r') : ∃ r₁', r₁.leave kind = some r₁' ∧ r'.Alike r₁' := by
  have hkinds := kinds_leave hleave
  obtain ⟨r₁', hleave'⟩ := exists_leave (h.kinds ▸ hkinds)
  have hkinds' := kinds_leave hleave'
  obtain ⟨_, _, -, -, -, hplace⟩ := leave_eq hleave
  obtain ⟨_, _, -, -, -, hplace'⟩ := leave_eq hleave'
  refine ⟨r₁', hleave', ?_, ?_, ?_⟩
  · rw [← h.kinds, hkinds] at hkinds'
    exact (List.cons.inj hkinds').2
  · rw [hplace, hplace']
    exact .between
  · rw [afterText_leave hleave, afterText_leave hleave']

/-- From states that are alike, a token between nodes leads to states that are alike, whatever is in
    the token. -/
theorem Alike.shiftNode {r r₁ r' : Reading} {t : Terminal} {p : Position}
    {lead written : List Char} (h : r.Alike r₁)
    (hshift : r.shiftNode ⟨t, p, lead, written⟩ = some r') (p' : Position)
    (lead' written' : List Char) :
    ∃ r₁', r₁.shiftNode ⟨t, p', lead', written'⟩ = some r₁' ∧ r'.Alike r₁' := by
  cases t with
  | opener kind =>
    cases kind with
    | holds | fails => cases hshift; exact ⟨_, rfl, h.kinds, .step .condition, rfl⟩
    | each => cases hshift; exact ⟨_, rfl, h.kinds, .enumerator, rfl⟩
  | closer kind => exact h.leave hshift
  | text => cases hshift; exact ⟨_, rfl, h.kinds, .between, rfl⟩
  | substitution => cases hshift; exact ⟨_, rfl, h.kinds, .step .substitution, rfl⟩
  | _ => cases hshift

theorem Alike.shiftStep {r r₁ r' : Reading} {goal goal' : Goal} {steps steps' : List Part}
    {t : Terminal} {p : Position} {lead written : List Char} (h : r.kinds = r₁.kinds)
    (hgoal : goal.Alike goal') (hshift : r.shiftStep goal steps ⟨t, p, lead, written⟩ = some r')
    (p' : Position) (lead' written' : List Char) :
    ∃ r₁', r₁.shiftStep goal' steps' ⟨t, p', lead', written'⟩ = some r₁' ∧ r'.Alike r₁' := by
  cases t with
  | dot => cases hshift; exact ⟨_, rfl, h, .step hgoal, rfl⟩
  | leftBracket => cases hshift; exact ⟨_, rfl, h, .index hgoal, rfl⟩
  | bar => cases hgoal <;> cases hshift; exact ⟨_, rfl, h, .filter, rfl⟩
  | rightBrace =>
    cases hgoal with
    | bare => cases hshift
    | substitution => cases hshift; exact ⟨_, rfl, h, .between, rfl⟩
    | @condition _ _ negated =>
      cases hshift
      refine ⟨_, rfl, ?_, ?_, rfl⟩
      · cases negated <;> exact congrArg (List.cons _) h
      · cases negated <;> exact .inside
    | loop =>
      cases hshift
      exact ⟨_, rfl, congrArg (List.cons _) h, .inside, rfl⟩
  | _ => cases hshift

/-- How a token is written, where it stands and what follows it do not matter to what may come
    after it. -/
theorem Alike.shift {r r₁ r' : Reading} {t : Terminal} {p : Position} {lead written : List Char}
    {next : Option Char} (h : r.Alike r₁)
    (hshift : r.shift ⟨t, p, lead, written⟩ next = some r') (p' : Position)
    (lead' written' : List Char) (next' : Option Char) :
    ∃ r₁', r₁.shift ⟨t, p', lead', written'⟩ next' = some r₁' ∧ r'.Alike r₁' := by
  obtain ⟨blocks, nodes, place⟩ := r
  obtain ⟨blocks₁, nodes₁, place₁⟩ := r₁
  have hkinds := h.kinds
  obtain hplace : place.Alike place₁ := h.place
  cases hplace with
  | opening | inside | between => exact h.shiftNode hshift p' lead' written'
  | afterName hgoal | afterIndexer hgoal =>
    exact Alike.shiftStep hkinds hgoal hshift p' lead' written'
  | enumerator =>
    cases t <;> cases hshift
    exact ⟨_, rfl, hkinds, .afterEnumerator, rfl⟩
  | afterEnumerator =>
    cases t <;> cases hshift
    exact ⟨_, rfl, hkinds, .step .loop, rfl⟩
  | step hgoal =>
    cases t <;> cases hshift
    exact ⟨_, rfl, hkinds, .afterName hgoal, rfl⟩
  | index hgoal =>
    cases t <;> cases hshift
    exact ⟨_, rfl, hkinds, .afterIndex hgoal, rfl⟩
  | afterIndex hgoal =>
    cases t <;> cases hshift
    exact ⟨_, rfl, hkinds, .afterIndexer hgoal, rfl⟩
  | filter =>
    cases t <;> cases hshift
    exact ⟨_, rfl, hkinds, .afterFilter, rfl⟩
  | afterFilter =>
    cases t <;> cases hshift
    · exact ⟨_, rfl, hkinds, .between, rfl⟩
    · exact ⟨_, rfl, hkinds, .filter, rfl⟩

/-! ## What tokens do to open blocks -/

/-- A token leaves the open blocks as they are, opens one or closes one. -/
theorem shift_cases {r r' : Reading} {t : Token} {next : Option Char}
    (h : r.shift t next = some r') :
    (r'.blocks = r.blocks ∧ r'.place.isBare = r.place.isBare ∧ r'.place.isStart = false) ∨
    (∃ head, r' = r.enter head ∧ r.place.isBare = false) ∨
    ∃ kind, r.leave kind = some r' ∧ r.place.isBare = false := by
  obtain ⟨blocks, nodes, place⟩ := r
  obtain ⟨terminal, p, lead, written⟩ := t
  cases place with
  | opening | inside | between =>
    cases terminal with
    | opener kind => cases kind <;> cases h <;> exact .inl ⟨rfl, rfl, rfl⟩
    | closer kind => exact .inr (.inr ⟨kind, h, rfl⟩)
    | text | substitution => cases h; exact .inl ⟨rfl, rfl, rfl⟩
    | _ => cases h
  | afterName goal | afterIndexer goal =>
    cases terminal with
    | dot | leftBracket => cases h; exact .inl ⟨rfl, rfl, rfl⟩
    | bar => cases goal <;> cases h; exact .inl ⟨rfl, rfl, rfl⟩
    | rightBrace =>
      cases goal with
      | bare => cases h
      | substitution => cases h; exact .inl ⟨rfl, rfl, rfl⟩
      | condition | loop => cases h; exact .inr (.inl ⟨_, rfl, rfl⟩)
    | _ => cases h
  | afterFilter => cases terminal <;> cases h <;> exact .inl ⟨rfl, rfl, rfl⟩
  | _ => cases terminal <;> cases h; exact .inl ⟨rfl, rfl, rfl⟩

/-- A bare path stays one to its end, and a template becomes none. -/
theorem isBare_shift {r r' : Reading} {t : Token} {next : Option Char}
    (h : r.shift t next = some r') : r'.place.isBare = r.place.isBare := by
  rcases shift_cases h with ⟨-, hbare, -⟩ | ⟨head, rfl, hbare⟩ | ⟨kind, hleave, hbare⟩
  · exact hbare
  · exact hbare.symm
  · obtain ⟨_, _, -, -, -, hplace⟩ := leave_eq hleave
    rw [hbare, hplace]
    rfl

theorem WellPlaced.shift {r r' : Reading} {t : Token} {next : Option Char} (hr : r.WellPlaced)
    (h : r.shift t next = some r') : r'.WellPlaced := by
  have hbare := isBare_shift h
  rcases shift_cases h with ⟨hblocks, -, hstart⟩ | ⟨head, rfl, -⟩ | ⟨kind, hleave, -⟩
  · refine .of_isStart hstart ?_
    intro hp
    rw [hblocks, hr.bare (hbare ▸ hp)]
  · exact wellPlaced_enter head r
  · obtain ⟨_, _, -, -, -, hplace⟩ := leave_eq hleave
    refine .of_isBare ?_ ?_ <;> rw [hplace] <;> rfl

/-! ## Completions are read to their end -/

variable {final : Reading → Prop}

/-- A token that comes next and fits is read, and then what is left. -/
theorem Reaches.of_token {r r' : Reading} {before s lead written rest : List Char} {t : Terminal}
    (hscan : Scan.ofSource r.place.admitted s = .token t lead written rest)
    (hshift : r.shift ⟨t, .after before, lead, written⟩ rest.head? = some r')
    (h : r'.Reaches (before ++ lead ++ written) rest final) : r.Reaches before s final := by
  obtain ⟨last, p, hrun, hfinal⟩ := h
  exact ⟨last, p, (run_token_after before hscan hshift).trans hrun, hfinal⟩

/-- Where reading may end, only blanks that are skipped may follow. -/
theorem Reaches.of_finish {r : Reading} (before : List Char) {s lead : List Char}
    (hscan : Scan.ofSource r.place.admitted s = .finish lead) (h : final r) :
    r.Reaches before s final :=
  ⟨r, _, run_finish _ hscan, h⟩

/-- Between nodes the open blocks can be closed one after the other. -/
theorem reaches_closers {r : Reading} (before : List Char) (hr : r.WellPlaced)
    (hbody : r.place.IsBody) : r.Reaches before r.closers (Ends false) := by
  obtain ⟨blocks, nodes, place⟩ := r
  induction blocks generalizing before nodes place with
  | nil =>
    refine .of_finish before (rfl : Scan.ofSource _ [] = .finish []) ?_
    cases place with
    | opening | between => rfl
    | inside kind =>
      obtain ⟨_, _, _, hblocks, -⟩ := hr.inside kind rfl
      cases hblocks
    | _ => exact hbody.elim
  | cons block blocks ih =>
    obtain ⟨head, outer⟩ := block
    have hplace : place = .inside head.kind ∨ place = .between := by
      cases place with
      | opening => cases hr.opening rfl
      | inside kind =>
        obtain ⟨_, _, _, hblocks, rfl⟩ := hr.inside kind rfl
        cases hblocks
        exact .inl rfl
      | between => exact .inr rfl
      | _ => exact hbody.elim
    have hclosers : closers ⟨(head, outer) :: blocks, nodes, place⟩ =
        head.kind.closer.toList ++ blocks.flatMap fun block => block.1.kind.closer.toList := rfl
    rw [hclosers]
    refine .of_token (Scan.ofSource_closer _ hplace) ?_
      (ih _ (.block head nodes.reverse :: outer) .between (.of_isBare rfl rfl) trivial)
    rw [shift_body hbody]
    simp [shiftNode, leave]

theorem reaches_enter (before : List Char) (head : Head) (r : Reading) :
    (r.enter head).Reaches before (head.kind.closer.toList ++ r.closers) (Ends false) :=
  reaches_closers before (wellPlaced_enter head r) trivial

/-- Names end in front of what completes a state after a name. -/
theorem endsNames_completion {r : Reading} (hr : r.WellPlaced)
    (h : r.place.admitted = Scan.followers) : EndsNames r.completion := by
  have hbrace : ∀ u, EndsNames ('}' :: u) := by
    intro u c s hc
    cases hc
    simp [GoesOn, show isNameChar '}' = false by decide, show isBlank '}' = false by decide]
  obtain ⟨blocks, nodes, place⟩ := r
  cases place with
  | afterEnumerator =>
    intro c s hc
    cases hc
    rintro (hname | ⟨-, hends⟩)
    · exact absurd hname (by decide)
    · exact hends (.inr ⟨' ', _, rfl, by decide⟩)
  | afterName goal steps =>
    cases goal with
    | bare =>
      cases hr.bare rfl
      intro c s hc
      cases hc
    | _ => exact hbrace _
  | afterFilter => exact hbrace _
  | _ => cases h

/-- After a step the tag can be finished, and then the blocks. -/
theorem reaches_afterStep {r : Reading} {goal : Goal} {steps : List Part} (before : List Char)
    {lead : List Char} (hr : r.WellPlaced)
    (hplace : r.place = .afterName goal steps ∨ r.place = .afterIndexer goal steps)
    (hlead : AllBlank lead) :
    r.Reaches before (lead ++ (goal.ending ++ r.closers)) (Ends goal.isBare) := by
  have hadmitted : r.place.admitted = Scan.followers ∨ r.place.admitted = Scan.followers.tail := by
    rcases hplace with hp | hp <;> rw [hp]
    · exact .inl rfl
    · exact .inr rfl
  have hbrace : ∀ {r' rest}, (∀ p, r.shiftStep goal steps ⟨.rightBrace, p, lead, ['}']⟩ = some r') →
      r'.Reaches (before ++ lead ++ ['}']) rest (Ends goal.isBare) →
      r.Reaches before (lead ++ '}' :: rest) (Ends goal.isBare) := by
    intro r' rest hshift h
    refine .of_token (t := .rightBrace) ?_ ?_ h
    · obtain ⟨h1, h2⟩ := Scan.ofSource_mark rest hlead (t := .rightBrace) (by decide) rfl
      rcases hadmitted with ha | ha <;> rw [ha] <;> assumption
    · rcases hplace with hp | hp <;> simp only [shift, hp, hshift]
  cases goal with
  | bare =>
    have hblocks : r.blocks = [] := by
      apply hr.bare
      rcases hplace with hp | hp <;> rw [hp] <;> rfl
    have hskip : Scan.SkipsBlanks r.place.admitted := by
      rcases hadmitted with ha | ha <;> rw [ha] <;> simp [Scan.SkipsBlanks, Scan.followers]
    have hscan : Scan.ofSource r.place.admitted (lead ++ (Goal.ending .bare ++ r.closers)) =
        .finish lead := by
      simpa [Goal.ending, closers, hblocks] using Scan.ofSource_blanks hskip hlead
    refine .of_finish before hscan ?_
    rcases hplace with hp | hp <;> simp [Ends, Goal.isBare, path?, hp]
  | substitution start =>
    exact hbrace (fun _ => rfl) (reaches_closers _ (.of_isBare rfl rfl) trivial)
  | condition start negated =>
    refine hbrace (fun _ => rfl) ?_
    cases negated <;> exact reaches_enter _ (.condition start _ _) r
  | loop start enumerator => exact hbrace (fun _ => rfl) (reaches_enter _ (.loop ..) r)

/-- A name is read where one is due. -/
theorem Reaches.of_name {r r' : Reading} {before lead written rest : List Char}
    (hdue : r.place.admitted = [.name]) (hlead : AllBlank lead) (hname : IsName written rest)
    (hshift : r.shift ⟨.name, .after before, lead, written⟩ rest.head? = some r')
    (h : r'.Reaches (before ++ lead ++ written) rest final) :
    r.Reaches before (lead ++ (written ++ rest)) final :=
  .of_token (hdue ▸ Scan.ofSource_name hlead hname) hshift h

/-- Where a step is due, a name of one letter can stand for it. -/
theorem reaches_step {r : Reading} {goal : Goal} {steps : List Part} (before : List Char)
    {lead : List Char} (hr : r.WellPlaced) (hplace : r.place = .step goal steps)
    (hlead : AllBlank lead) :
    r.Reaches before (lead ++ 'x' :: (goal.ending ++ r.closers)) (Ends goal.isBare) := by
  obtain ⟨blocks, nodes, place⟩ := r
  cases hplace
  have hshift : ∀ t next, (Reading.mk blocks nodes (.step goal steps)).shift
      ⟨.name, .after before, lead, t⟩ next = some ⟨blocks, nodes, .afterName goal
        (.name ⟨.name, .after before, lead, t⟩ :: steps)⟩ := fun _ _ => rfl
  have hr' := hr.shift (hshift ['x'] none)
  exact .of_name rfl hlead (isName_x (endsNames_completion hr' rfl)) (hshift _ _)
    (reaches_afterStep _ hr' (.inl rfl) .nil)

/-- An indexer that is open can be closed, and the tag finished. -/
theorem reaches_afterIndex {r : Reading} {goal : Goal} {steps : List Part} {bracket : Position}
    {written : List Char} (before : List Char) {lead : List Char} (hr : r.WellPlaced)
    (hplace : r.place = .afterIndex goal steps bracket written) (hlead : AllBlank lead) :
    r.Reaches before (lead ++ ']' :: (goal.ending ++ r.closers)) (Ends goal.isBare) := by
  obtain ⟨blocks, nodes, place⟩ := r
  cases hplace
  have hskip : Scan.SkipsBlanks [.rightBracket] := by simp [Scan.SkipsBlanks]
  have hscan : ∀ rest, Scan.ofSource [.rightBracket] (lead ++ ']' :: rest) =
      .token .rightBracket lead [']'] rest :=
    fun _ => Scan.ofSource_eq_token hskip hlead rfl
  refine .of_token (hscan _) rfl ?_
  exact reaches_afterStep (r := ⟨blocks, nodes, .afterIndexer goal _⟩) _
    (.of_isStart rfl hr.bare) (.inr rfl) .nil

/-- After a filter the tag can end. -/
theorem reaches_afterFilter {r : Reading} {start : Position} {subject : List Part}
    {filters : List Token} (before : List Char) {lead : List Char}
    (hplace : r.place = .afterFilter start subject filters) (hlead : AllBlank lead) :
    r.Reaches before (lead ++ '}' :: r.closers) (Ends false) := by
  obtain ⟨blocks, nodes, place⟩ := r
  cases hplace
  exact .of_token (Scan.ofSource_mark _ hlead (t := .rightBrace) (by decide) rfl).1 rfl
    (reaches_closers _ (.of_isBare rfl rfl) trivial)

/-- After a loop variable the word and a collection can follow. -/
theorem reaches_afterEnumerator {r : Reading} {start : Position} {enumerator : Token}
    (before : List Char) {lead : List Char}
    (hplace : r.place = .afterEnumerator start enumerator) (hlead : AllBlank lead) :
    r.Reaches before (lead ++ r.completion) (Ends false) := by
  obtain ⟨blocks, nodes, place⟩ := r
  cases hplace
  have hblank : AllBlank [' '] := by simp [AllBlank, isBlank]
  have hgap : AllBlank (lead ++ [' ']) := by
    intro c hc
    rcases List.mem_append.1 hc with hc | hc
    · exact hlead c hc
    · exact hblank c hc
  have hpath := reaches_step (r := ⟨blocks, nodes, .step (.loop start enumerator) []⟩)
    (before ++ (lead ++ [' ']) ++ ['i', 'n']) (.of_isBare rfl rfl) rfl hblank
  have hword : (Reading.mk blocks nodes (.afterEnumerator start enumerator)).Reaches before
      (lead ++ [' '] ++ 'i' :: 'n' :: ([' '] ++ _)) (Ends false) :=
    .of_token (Scan.ofSource_inWord _ hgap hblank (by simp)) rfl hpath
  rw [List.append_assoc] at hword
  exact hword

/-- Every completion is read to its end, after blanks if these are skipped. -/
theorem reaches_completion {r : Reading} (before : List Char) {lead : List Char}
    (hr : r.WellPlaced) (hlead : AllBlank lead)
    (hskip : lead ≠ [] → Scan.SkipsBlanks r.place.admitted) :
    r.Reaches before (lead ++ r.completion) (Ends r.place.isBare) := by
  obtain ⟨blocks, nodes, place⟩ := r
  have hnil : ¬Scan.SkipsBlanks place.admitted → lead = [] := by
    intro h
    by_contra hne
    exact h (hskip hne)
  cases place with
  | opening | inside kind | between =>
    rw [hnil (by simp [Scan.SkipsBlanks, Place.admitted, Terminal.nodeStarts])]
    exact reaches_closers before hr trivial
  | enumerator start =>
    let r' : Reading := ⟨blocks, nodes, .afterEnumerator start ⟨.name, .after before, lead, ['x']⟩⟩
    have hname : IsName ['x'] r'.completion :=
      isName_x (endsNames_completion (.of_isBare rfl rfl) rfl)
    change Reaches _ before (lead ++ (['x'] ++ r'.completion)) _
    exact .of_name rfl hlead hname rfl (reaches_afterEnumerator _ rfl .nil)
  | afterEnumerator => exact reaches_afterEnumerator before rfl hlead
  | step => exact reaches_step before hr rfl hlead
  | afterName => exact reaches_afterStep before hr (.inl rfl) hlead
  | index goal steps bracket =>
    rw [hnil (by simp [Scan.SkipsBlanks, Place.admitted])]
    have hscan : ∀ rest, Scan.ofSource [.index] ('x' :: ']' :: rest) =
        .token .index [] ['x'] (']' :: rest) :=
      fun rest => @Scan.ofSource_index ['x'] rest (by simp) (by simp)
    refine .of_token (hscan _) rfl ?_
    exact reaches_afterIndex (r := ⟨blocks, nodes, .afterIndex goal steps bracket ['x']⟩) _
      (.of_isStart rfl hr.bare) rfl .nil
  | afterIndex => exact reaches_afterIndex before hr rfl hlead
  | afterIndexer => exact reaches_afterStep before hr (.inr rfl) hlead
  | filter start subject filters =>
    let r' : Reading := ⟨blocks, nodes, .afterFilter start subject
      (⟨.name, .after before, lead, ['x']⟩ :: filters)⟩
    have hname : IsName ['x'] r'.completion :=
      isName_x (endsNames_completion (.of_isBare rfl rfl) rfl)
    change Reaches _ before (lead ++ (['x'] ++ r'.completion)) _
    exact .of_name rfl hlead hname rfl (reaches_afterFilter _ rfl .nil)
  | afterFilter => exact reaches_afterFilter before rfl hlead

end Reading

end Stencil
