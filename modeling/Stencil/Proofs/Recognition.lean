-- SUMMARY: The outline of phrases, and that reading what phrases spell yields it.
import Stencil.Proofs.Scanning

/-! # Recognition

Phrases have an outline, the nodes that stand for them before blanks are sorted out. Reading a text
that starts with a phrase finishes the node of that phrase and goes on with what follows: for each
kind of phrase, one token after the other.
-/

namespace Stencil

open Text (isBlank)

/-! ## Outlines of phrases -/

namespace StepForm

/-- The part that a step is, between the text before it and the text after it. -/
def part (before following : List Char) : StepForm → Part
  | .name gap blanks chars =>
    .name
      { terminal := .name, origin := .after (before ++ gap ++ ['.']), lead := blanks
        written := chars }
  | .index gap chars chars_ne =>
    .index (.after (before ++ gap)) chars
      (if following.head?.any isBlank then
        some (.after (before ++ (index gap chars chars_ne).written))
      else none)

def parts (before following : List Char) : List StepForm → List Part
  | [] => []
  | step :: steps =>
    step.part before (writtenAll steps ++ following) ::
      parts (before ++ step.written) following steps

end StepForm

/-- The parts of a path with blanks in front of it. -/
def PathForm.parts (before lead following : List Char) (p : PathForm) : List Part :=
  .name { terminal := .name, origin := .after before, lead, written := p.root } ::
    StepForm.parts (before ++ lead ++ p.root) following p.steps

namespace FilterForm

def token (before : List Char) (f : FilterForm) : Token :=
  { terminal := .name, origin := .after (before ++ f.gap ++ ['|']), lead := f.blanks
    written := f.chars }

def tokens (before : List Char) : List FilterForm → List Token
  | [] => []
  | f :: filters => f.token before :: tokens (before ++ f.written) filters

end FilterForm

/-- The head of a block that starts after a text. -/
def HeadForm.head (before following : List Char) : HeadForm → Head
  | .condition negated keyword blanks subject trail =>
    .condition (.after before) negated
      (subject.parts (before ++ '#' :: '{' :: (keyword ++ blanks)) [] (trail ++ '}' :: following))
  | .loop keyword blanks enumerator gap inBlanks collection trail =>
    let start := before ++ '#' :: '{' :: (keyword ++ blanks)
    .loop (.after before)
      { terminal := .name, origin := .after start, lead := [], written := enumerator }
      (collection.parts (start ++ enumerator ++ gap ++ ['i', 'n']) inBlanks
        (trail ++ '}' :: following))

theorem HeadForm.head_kind (before following : List Char) (head : HeadForm) :
    (head.head before following).kind = head.kind := by
  cases head with
  | condition negated => cases negated <;> rfl
  | loop => rfl

namespace Phrase

mutual

/-- The node of a phrase between the text before it and the text after it. -/
def node (before following : List Char) : Phrase → Node
  | .text pieces =>
    .text (.after before) (PieceForm.writtenAll pieces)
  | .substitution blanks subject filters trail =>
    .substitution (.after before)
      (subject.parts (before ++ ['#', '{']) blanks
        (FilterForm.writtenAll filters ++ trail ++ '}' :: following))
      (FilterForm.tokens (before ++ '#' :: '{' :: blanks ++ subject.written) filters)
  | .block head body =>
    .block (head.head before (writtenAll body ++ head.kind.closer.toList ++ following))
      (nodes (before ++ head.written) (head.kind.closer.toList ++ following) body)

def nodes (before following : List Char) : List Phrase → List Node
  | [] => []
  | phrase :: phrases =>
    phrase.node before (writtenAll phrases ++ following) ::
      nodes (before ++ phrase.written) following phrases

end

end Phrase

/-- The place after the last of the parts read so far, which come last first. -/
def Place.afterPart (goal : Goal) : List Part → Place
  | .index bracket written blank :: parts =>
    .afterIndexer goal (.index bracket written blank :: parts)
  | parts => .afterName goal parts

theorem Place.admitted_afterPart (goal : Goal) (parts : List Part) :
    (Place.afterPart goal parts).admitted = Scan.followers ∨
      (Place.afterPart goal parts).admitted = Scan.followers.tail := by
  unfold Place.afterPart
  split
  · exact .inr rfl
  · exact .inl rfl

namespace Reading

variable (blocks : List (Head × List Node)) (done : List Node)

/-! ## Tokens -/

/-- A token that is found and fits is read; positions are those that the text before has. -/
theorem run_token_after {r r' : Reading} {terminal : Terminal} (before : List Char)
    {s lead written rest : List Char}
    (h : Scan.ofSource r.place.admitted s = .token terminal lead written rest)
    (hr : r.shift ⟨terminal, .after before, lead, written⟩ rest.head? = some r') :
    r.run (.after before) s = r'.run (.after (before ++ lead ++ written)) rest := by
  rw [run_token _ h hr]
  rw [Token.stop_mk_after]

/-- After a part of a path, tokens do what they do after a step. -/
theorem shift_afterPart (goal : Goal) (parts : List Part) (t : Token) (next : Option Char) :
    (Reading.mk blocks done (.afterPart goal parts)).shift t next =
      (Reading.mk blocks done (.afterPart goal parts)).shiftStep goal parts t := by
  unfold Place.afterPart
  split <;> rfl

/-- A mark after a part of a path, with blanks in front of it. -/
theorem run_mark (goal : Goal) (parts : List Part) (before rest : List Char) {t : Terminal}
    {c : Char} {r' : Reading} {lead : List Char} (hlead : AllBlank lead) (ht : t ∈ Scan.followers)
    (hc : t.mark? = some c)
    (hr : (Reading.mk blocks done (.afterPart goal parts)).shiftStep goal parts
      ⟨t, .after before, lead, [c]⟩ = some r') :
    (Reading.mk blocks done (.afterPart goal parts)).run (.after before) (lead ++ c :: rest) =
      r'.run (.after (before ++ lead ++ [c])) rest := by
  have hscan := Scan.ofSource_mark rest hlead ht hc
  refine run_token_after before ?_ ((shift_afterPart blocks done goal parts _ _).trans hr)
  rcases Place.admitted_afterPart goal parts with ha | ha
  · exact (congrArg (Scan.ofSource · _) ha).trans hscan.1
  · exact (congrArg (Scan.ofSource · _) ha).trans hscan.2

/-! ## Paths -/

/-- A name is read with the blanks before it. -/
theorem run_name (goal : Goal) (parts : List Part) (before : List Char)
    {blanks chars rest : List Char} (hblanks : AllBlank blanks) (hname : IsName chars rest) :
    (Reading.mk blocks done (.step goal parts)).run (.after before) (blanks ++ (chars ++ rest)) =
      (Reading.mk blocks done (.afterPart goal
        (.name ⟨.name, .after before, blanks, chars⟩ :: parts))).run
        (.after (before ++ blanks ++ chars)) rest :=
  run_token_after _ (Scan.ofSource_name hblanks hname) rfl

/-- A step of a path is read up to its end. -/
theorem run_step (goal : Goal) (parts : List Part) (before : List Char) {rest : List Char}
    {step : StepForm} (h : step.Fits rest) :
    (Reading.mk blocks done (.afterPart goal parts)).run (.after before) (step.written ++ rest) =
      (Reading.mk blocks done (.afterPart goal (step.part before rest :: parts))).run
        (.after (before ++ step.written)) rest := by
  cases step with
  | name gap blanks chars =>
    obtain ⟨hgap, hblanks, hname⟩ := h
    have hdot := run_mark blocks done goal parts before (blanks ++ (chars ++ rest)) hgap
      (t := .dot) (by decide) rfl rfl
    have hchars := run_name blocks done goal parts (before ++ gap ++ ['.']) hblanks hname
    simp only [StepForm.written, StepForm.part, List.append_assoc, List.cons_append,
      List.nil_append] at hdot hchars ⊢
    rw [hdot, hchars]
  | index gap chars chars_ne =>
    obtain ⟨hgap, hchars⟩ := h
    have hopen := run_mark blocks done goal parts before (chars ++ ']' :: rest) hgap
      (t := .leftBracket) (by decide) rfl rfl
    have hindex : (Reading.mk blocks done (.index goal parts (.after (before ++ gap)))).run
        (.after (before ++ gap ++ ['['])) (chars ++ ']' :: rest) =
        (Reading.mk blocks done (.afterIndex goal parts (.after (before ++ gap)) chars)).run
          (.after (before ++ gap ++ ['['] ++ [] ++ chars)) (']' :: rest) :=
      run_token_after _ (Scan.ofSource_index rest chars_ne hchars) rfl
    have hclose :
        (Reading.mk blocks done (.afterIndex goal parts (.after (before ++ gap)) chars)).run
          (.after (before ++ gap ++ ['['] ++ [] ++ chars)) (']' :: rest) =
        (Reading.mk blocks done (.afterPart goal
          ((StepForm.index gap chars chars_ne).part before rest :: parts))).run
          (.after (before ++ gap ++ ['['] ++ [] ++ chars ++ [] ++ [']'])) rest := by
      refine run_token_after _ (Scan.ofSource_rightBracket rest) ?_
      simp [shift, Place.afterPart, StepForm.part, StepForm.written]
    simp only [Token.start_mk_after, StepForm.written, List.append_assoc,
      List.cons_append, List.nil_append] at hopen hindex hclose ⊢
    rw [hopen, hindex, hclose]

/-- Steps are read one after the other. -/
theorem run_steps (goal : Goal) (parts : List Part) (before : List Char) {rest : List Char}
    {steps : List StepForm} (h : StepForm.AllFit rest steps) :
    (Reading.mk blocks done (.afterPart goal parts)).run (.after before)
        (StepForm.writtenAll steps ++ rest) =
      (Reading.mk blocks done (.afterPart goal
        ((StepForm.parts before rest steps).reverse ++ parts))).run
        (.after (before ++ StepForm.writtenAll steps)) rest := by
  induction steps generalizing before parts with
  | nil => simp [StepForm.writtenAll, StepForm.parts]
  | cons step steps ih =>
    have hstep := run_step blocks done goal parts before h.1
    have hw : StepForm.writtenAll (step :: steps) =
      step.written ++ StepForm.writtenAll steps := rfl
    rw [hw, List.append_assoc, hstep, ih _ _ h.2]
    simp [StepForm.parts]

/-- A path is read from the blanks in front of it to the end of its last step. -/
theorem run_path (goal : Goal) (before : List Char) {lead rest : List Char} {p : PathForm}
    (hlead : AllBlank lead) (h : p.Fits rest) :
    (Reading.mk blocks done (.step goal [])).run (.after before) (lead ++ (p.written ++ rest)) =
      (Reading.mk blocks done (.afterPart goal (p.parts before lead rest).reverse)).run
        (.after (before ++ lead ++ p.written)) rest := by
  have hname := run_name blocks done goal [] before hlead h.1
  have hsteps := run_steps blocks done goal [.name ⟨.name, .after before, lead, p.root⟩]
    (before ++ lead ++ p.root) h.2
  simp only [PathForm.written, List.append_assoc] at hname hsteps ⊢
  rw [hname, hsteps]
  simp [PathForm.parts]

/-! ## Substitutions -/

/-- The name of a filter. -/
theorem run_filterName (start : Position) (subject : List Part) (filters : List Token)
    (before : List Char) {blanks chars rest : List Char} (hblanks : AllBlank blanks)
    (hname : IsName chars rest) :
    (Reading.mk blocks done (.filter start subject filters)).run (.after before)
        (blanks ++ (chars ++ rest)) =
      (Reading.mk blocks done (.afterFilter start subject
        (⟨.name, .after before, blanks, chars⟩ :: filters))).run
        (.after (before ++ blanks ++ chars)) rest :=
  run_token_after _ (Scan.ofSource_name hblanks hname) rfl

/-- Further filters after a first one. -/
theorem run_filters (start : Position) (subject : List Part) (names : List Token)
    (before : List Char) {rest : List Char} {filters : List FilterForm}
    (h : FilterForm.AllFit rest filters) :
    (Reading.mk blocks done (.afterFilter start subject names)).run (.after before)
        (FilterForm.writtenAll filters ++ rest) =
      (Reading.mk blocks done (.afterFilter start subject
        ((FilterForm.tokens before filters).reverse ++ names))).run
        (.after (before ++ FilterForm.writtenAll filters)) rest := by
  induction filters generalizing before names with
  | nil => simp [FilterForm.writtenAll, FilterForm.tokens]
  | cons f filters ih =>
    obtain ⟨⟨hgap, hblanks, hname⟩, hrest⟩ := h
    have hbar : (Reading.mk blocks done (.afterFilter start subject names)).run (.after before)
        (f.gap ++ '|' :: (f.blanks ++ (f.chars ++ (FilterForm.writtenAll filters ++ rest)))) =
        (Reading.mk blocks done (.filter start subject names)).run
          (.after (before ++ f.gap ++ ['|']))
          (f.blanks ++ (f.chars ++ (FilterForm.writtenAll filters ++ rest))) :=
      run_token_after _ (Scan.ofSource_mark _ hgap (t := .bar) (by decide) rfl).1 rfl
    have hchars := run_filterName blocks done start subject names (before ++ f.gap ++ ['|'])
      hblanks hname
    have hw : FilterForm.writtenAll (f :: filters) =
      f.gap ++ '|' :: (f.blanks ++ f.chars) ++ FilterForm.writtenAll filters := rfl
    have ih' := ih (f.token before :: names)
      (before ++ f.gap ++ ['|'] ++ f.blanks ++ f.chars) hrest
    simp only [FilterForm.token, List.append_assoc, List.cons_append, List.nil_append]
      at hbar hchars ih' hw ⊢
    rw [hw]
    simp only [List.append_assoc, List.cons_append]
    rw [hbar, hchars, ih']
    simp [FilterForm.tokens, FilterForm.token, FilterForm.written]

/-- The filters behind a path. -/
theorem run_first_filters (start : Position) (parts : List Part) (before : List Char)
    {rest : List Char} {f : FilterForm} {filters : List FilterForm}
    (h : FilterForm.AllFit rest (f :: filters)) :
    (Reading.mk blocks done (.afterPart (.substitution start) parts)).run (.after before)
        (FilterForm.writtenAll (f :: filters) ++ rest) =
      (Reading.mk blocks done (.afterFilter start parts.reverse
        (FilterForm.tokens before (f :: filters)).reverse)).run
        (.after (before ++ FilterForm.writtenAll (f :: filters))) rest := by
  obtain ⟨⟨hgap, hblanks, hname⟩, hrest⟩ := h
  have hbar := run_mark blocks done (.substitution start) parts before
    (f.blanks ++ (f.chars ++ (FilterForm.writtenAll filters ++ rest)))
    hgap (t := .bar) (by decide) rfl rfl
  have hchars := run_filterName blocks done start parts.reverse [] (before ++ f.gap ++ ['|'])
    hblanks hname
  have hmore := run_filters blocks done start parts.reverse [f.token before]
    (before ++ f.gap ++ ['|'] ++ f.blanks ++ f.chars) hrest
  have hw : FilterForm.writtenAll (f :: filters) =
    f.gap ++ '|' :: (f.blanks ++ f.chars) ++ FilterForm.writtenAll filters := rfl
  simp only [FilterForm.token, List.append_assoc, List.cons_append, List.nil_append]
    at hbar hchars hmore hw ⊢
  rw [hw]
  simp only [List.append_assoc, List.cons_append]
  rw [hbar, hchars, hmore]
  simp [FilterForm.tokens, FilterForm.token, FilterForm.written]

/-- What is left of a substitution after its path. -/
theorem run_substitution_end (start : Position) (parts : List Part) (before : List Char)
    {trail rest : List Char} {filters : List FilterForm}
    (hfilters : FilterForm.AllFit (trail ++ '}' :: rest) filters) (htrail : AllBlank trail) :
    (Reading.mk blocks done (.afterPart (.substitution start) parts)).run (.after before)
        (FilterForm.writtenAll filters ++ (trail ++ '}' :: rest)) =
      ((Reading.mk blocks done .between).add (.substitution start parts.reverse
        (FilterForm.tokens before filters))).run
        (.after (before ++ FilterForm.writtenAll filters ++ trail ++ ['}'])) rest := by
  cases filters with
  | nil =>
    have hbrace := run_mark blocks done (.substitution start) parts before rest htrail
      (t := .rightBrace) (by decide) rfl rfl
    simpa [FilterForm.writtenAll, FilterForm.tokens, add] using hbrace
  | cons f filters =>
    have hbrace : ∀ names, (Reading.mk blocks done (.afterFilter start parts.reverse names)).run
        (.after (before ++ FilterForm.writtenAll (f :: filters))) (trail ++ '}' :: rest) =
        ((Reading.mk blocks done .between).add (.substitution start parts.reverse
          names.reverse)).run
          (.after (before ++ FilterForm.writtenAll (f :: filters) ++ trail ++ ['}'])) rest :=
      fun names =>
        run_token_after _ (Scan.ofSource_mark _ htrail (t := .rightBrace) (by decide) rfl).1 rfl
    rw [run_first_filters blocks done start parts before hfilters, hbrace, List.reverse_reverse]

/-! ## Nodes -/

theorem shift_body {r : Reading} (hr : r.place.IsBody) (t : Token) (next : Option Char) :
    r.shift t next = r.shiftNode t := by
  unfold shift
  cases hp : r.place <;> simp_all [Place.IsBody]

/-- A token that starts a node. -/
theorem run_start {r r' : Reading} {t : Terminal} (before : List Char)
    {s written rest : List Char} (hr : r.place.IsBody)
    (h : Terminal.readFirst Terminal.nodeStarts s = some (t, written, rest))
    (hshift : r.shiftNode ⟨t, .after before, [], written⟩ = some r') :
    r.run (.after before) s = r'.run (.after (before ++ written)) rest := by
  have := run_token_after before (Scan.ofSource_body hr h) ((shift_body hr _ _).trans hshift)
  simpa using this

/-- The opening of a substitution. -/
theorem run_opening {r : Reading} (before : List Char) {s : List Char} (hr : r.place.IsBody)
    (hslash : ∀ t, s ≠ '/' :: t) (hblock : ¬StartsBlock s) :
    r.run (.after before) ('#' :: '{' :: s) =
      (Reading.mk r.blocks r.nodes (.step (.substitution (.after before)) [])).run
        (.after (before ++ ['#', '{'])) s := by
  apply run_start before hr (Scan.readFirst_substitution hslash hblock)
  simp [shiftNode]

/-- The rest of an opening tag, from the path that the block is about on. -/
theorem run_head_end (goal : Goal) (head : List Part → Head)
    (hgoal : ∀ (r : Reading) (parts : List Part) (t : Token), t.terminal = .rightBrace →
      r.shiftStep goal parts t = some (r.enter (head parts.reverse)))
    (before rest : List Char) {lead trail : List Char} {p : PathForm} (hlead : AllBlank lead)
    (hp : p.Fits (trail ++ '}' :: rest)) (htrail : AllBlank trail) :
    (Reading.mk blocks done (.step goal [])).run (.after before)
        (lead ++ (p.written ++ (trail ++ '}' :: rest))) =
      ((Reading.mk blocks done (.step goal [])).enter
        (head (p.parts before lead (trail ++ '}' :: rest)))).run
        (.after (before ++ lead ++ p.written ++ trail ++ ['}'])) rest := by
  have hbrace := run_mark blocks done goal (p.parts before lead (trail ++ '}' :: rest)).reverse
    (before ++ lead ++ p.written) rest htrail (t := .rightBrace) (by decide) rfl
    (hgoal _ _ _ rfl)
  rw [run_path blocks done goal before hlead hp, hbrace, List.reverse_reverse]
  rfl

/-- The opening tag of a conditional. -/
theorem run_condition {r : Reading} (before : List Char) {rest : List Char} (negated : Bool)
    {keyword blanks trail : List Char} {subject : PathForm} (hr : r.place.IsBody)
    (h : (HeadForm.condition negated keyword blanks subject trail).Fits rest) :
    let head := HeadForm.condition negated keyword blanks subject trail
    r.run (.after before) (head.written ++ rest) =
      (r.enter (head.head before rest)).run (.after (before ++ head.written)) rest := by
  obtain ⟨hkeyword, hblanks, hne, hsubject, htrail⟩ := h
  have hfirst := Scan.readFirst_opener hkeyword hblanks hne
    (hsubject.1.startsVisible (StepForm.writtenAll subject.steps ++ (trail ++ '}' :: rest)))
  have hshift : r.shiftNode ⟨.opener (conditionKind negated), .after before, [],
      '#' :: '{' :: (keyword ++ blanks)⟩ =
      some ⟨r.blocks, r.nodes, .step (.condition (.after before) negated) []⟩ := by
    cases negated <;> simp [shiftNode, conditionKind]
  have hopen := run_start before hr hfirst hshift
  have hend := run_head_end r.blocks r.nodes (.condition (.after before) negated)
    (.condition (.after before) negated) (fun _ _ ⟨_, _, _, _⟩ ht => by cases ht; rfl)
    (before ++ '#' :: '{' :: (keyword ++ blanks)) rest AllBlank.nil hsubject htrail
  simp only [HeadForm.written, PathForm.written, List.append_assoc, List.cons_append,
    List.nil_append] at hopen hend ⊢
  rw [hopen, hend]
  simp [enter, HeadForm.head]

/-- The opening tag of a repetition. -/
theorem run_loop {r : Reading} (before : List Char) {rest : List Char}
    {keyword blanks enumerator gap inBlanks trail : List Char} {collection : PathForm}
    (hr : r.place.IsBody)
    (h : (HeadForm.loop keyword blanks enumerator gap inBlanks collection trail).Fits rest) :
    let head := HeadForm.loop keyword blanks enumerator gap inBlanks collection trail
    r.run (.after before) (head.written ++ rest) =
      (r.enter (head.head before rest)).run (.after (before ++ head.written)) rest := by
  obtain ⟨hkeyword, hblanks, hne, henum, hgap, hin, hinne, hcollection, htrail⟩ := h
  have hfirst := Scan.readFirst_opener hkeyword hblanks hne (henum.startsVisible
    (gap ++ 'i' :: 'n' :: inBlanks ++ collection.written ++ trail ++ '}' :: rest))
  let front := before ++ '#' :: '{' :: (keyword ++ blanks)
  let name : Token := ⟨.name, .after front, [], enumerator⟩
  have hshift : r.shiftNode ⟨.opener .each, .after before, [], '#' :: '{' :: (keyword ++ blanks)⟩ =
      some ⟨r.blocks, r.nodes, .enumerator (.after before)⟩ := by
    simp [shiftNode]
  have hopen := run_start before hr hfirst hshift
  have hname := run_token_after front (r := ⟨r.blocks, r.nodes, .enumerator (.after before)⟩)
    (Scan.ofSource_name AllBlank.nil henum) rfl
  have hinWord := run_token_after (front ++ [] ++ enumerator)
    (r := ⟨r.blocks, r.nodes, .afterEnumerator (.after before) name⟩)
    (Scan.ofSource_inWord (collection.written ++ (trail ++ '}' :: rest)) hgap hin hinne) rfl
  have hend := run_head_end r.blocks r.nodes (.loop (.after before) name)
    (.loop (.after before) name) (fun _ _ ⟨_, _, _, _⟩ ht => by cases ht; rfl)
    (front ++ [] ++ enumerator ++ gap ++ ['i', 'n']) rest hin hcollection htrail
  simp only [front, HeadForm.written, List.append_assoc, List.cons_append, List.nil_append]
    at hopen hname hinWord hend ⊢
  rw [hopen, hname, hinWord, hend]
  simp [enter, HeadForm.head, name, front]

/-- The opening tag of a block. -/
theorem run_head {r : Reading} (before : List Char) {rest : List Char} {head : HeadForm}
    (hr : r.place.IsBody) (h : head.Fits rest) :
    r.run (.after before) (head.written ++ rest) =
      (r.enter (head.head before rest)).run (.after (before ++ head.written)) rest := by
  cases head with
  | condition negated => exact run_condition before negated hr h
  | loop => exact run_loop before hr h

/-- Several nodes are finished. -/
def addAll (r : Reading) (nodes : List Node) : Reading := nodes.foldl add r

theorem addAll_blocks (r : Reading) (nodes : List Node) : (r.addAll nodes).blocks = r.blocks := by
  induction nodes generalizing r with
  | nil => rfl
  | cons node nodes ih => exact ih (r.add node)

theorem addAll_nodes (r : Reading) (nodes : List Node) :
    (r.addAll nodes).nodes = nodes.reverse ++ r.nodes := by
  induction nodes generalizing r with
  | nil => rfl
  | cons node nodes ih =>
    have := ih (r.add node)
    simp_all [addAll, add]

theorem addAll_place (r : Reading) (nodes : List Node) :
    (r.addAll nodes).place = r.place ∨ (r.addAll nodes).place = .between := by
  induction nodes generalizing r with
  | nil => exact .inl rfl
  | cons node nodes ih =>
    rcases ih (r.add node) with h | h
    · exact .inr h
    · exact .inr h

/-- A block is closed after its body. -/
theorem run_closer (r : Reading) (before rest : List Char) {head : Head} {kind : BlockKind}
    (body : List Node) (hkind : head.kind = kind) :
    ((r.enter head).addAll body).run (.after before) (kind.closer.toList ++ rest) =
      (r.add (.block head body)).run (.after (before ++ kind.closer.toList)) rest := by
  have hplace : ((r.enter head).addAll body).place = .inside kind ∨
      ((r.enter head).addAll body).place = .between := by
    rw [← hkind]
    exact addAll_place (r.enter head) body
  have hbody : ((r.enter head).addAll body).place.IsBody := by
    rcases hplace with h | h <;> rw [h] <;> trivial
  have hshift : ((r.enter head).addAll body).shift
      ⟨.closer kind, .after before, [], kind.closer.toList⟩ rest.head? =
      some (r.add (.block head body)) := by
    rw [shift_body hbody]
    simp [shiftNode, leave, addAll_blocks, addAll_nodes, enter, add, hkind]
  simpa using run_token_after _ (Scan.ofSource_closer rest hplace) hshift

mutual

/-- Reading a phrase finishes its node. -/
theorem run_phrase {r : Reading} (before : List Char) {rest : List Char} (hr : r.place.IsBody) :
    ∀ {phrase : Phrase}, phrase.Fits rest →
      r.run (.after before) (phrase.written ++ rest) =
        (r.add (phrase.node before rest)).run (.after (before ++ phrase.written)) rest
  | .text pieces, h =>
    run_start before hr (Scan.readFirst_text h.1 h.2) rfl
  | .substitution blanks subject filters trail, h => by
    obtain ⟨hslash, hblock, hblanks, hsubject, hfilters, htrail⟩ := h
    have hopen := run_opening before hr hslash hblock
    have hpath := run_path r.blocks r.nodes (.substitution (.after before))
      (before ++ ['#', '{']) hblanks hsubject
    have hend := run_substitution_end r.blocks r.nodes (.after before)
      ((subject.parts (before ++ ['#', '{']) blanks
        (FilterForm.writtenAll filters ++ trail ++ '}' :: rest)).reverse)
      (before ++ ['#', '{'] ++ blanks ++ subject.written) hfilters htrail
    simp only [Phrase.written, Phrase.inside, List.append_assoc, List.cons_append,
      List.nil_append, List.reverse_reverse] at hopen hpath hend ⊢
    rw [hopen, hpath, hend]
    simp [Phrase.node, add]
  | .block head body, h => by
    obtain ⟨hhead, hbody⟩ := h
    have hopen := run_head before hr hhead
    have hinner := run_phrases (before ++ head.written)
      (r := r.enter (head.head before
        (Phrase.writtenAll body ++ head.kind.closer.toList ++ rest))) trivial hbody
    have hclose := run_closer (r := r)
      (before ++ head.written ++ Phrase.writtenAll body) rest
      (Phrase.nodes (before ++ head.written) (head.kind.closer.toList ++ rest) body)
      (head.head_kind before (Phrase.writtenAll body ++ head.kind.closer.toList ++ rest))
    simp only [Phrase.written, List.append_assoc] at hopen hinner hclose ⊢
    rw [hopen, hinner, hclose]
    simp [Phrase.node]

/-- Reading phrases finishes their nodes. -/
theorem run_phrases {r : Reading} (before : List Char) {rest : List Char} (hr : r.place.IsBody) :
    ∀ {phrases : List Phrase}, Phrase.AllFit rest phrases →
      r.run (.after before) (Phrase.writtenAll phrases ++ rest) =
        (r.addAll (Phrase.nodes before rest phrases)).run
          (.after (before ++ Phrase.writtenAll phrases)) rest
  | [], _ => by simp [Phrase.writtenAll, Phrase.nodes, addAll]
  | phrase :: phrases, h => by
    have hphrase := run_phrase before hr h.1
    have hrest := run_phrases (r := r.add (phrase.node before (Phrase.writtenAll phrases ++ rest)))
      (before ++ phrase.written) trivial h.2
    simp only [Phrase.writtenAll, Phrase.nodes, addAll, List.foldl_cons, List.append_assoc]
      at hphrase hrest ⊢
    rw [hphrase, hrest]

end

end Reading

/-- The source that phrases make up has their outline. -/
theorem readOutline_of_derives {source : List Char} {phrases : List Phrase}
    (h : Phrase.Derives source phrases) :
    readOutline source = .ok (Phrase.nodes [] [] phrases) := by
  obtain ⟨rfl, hfit⟩ := h
  let r := Reading.template.addAll (Phrase.nodes [] [] phrases)
  have hend : r.run (.after (Phrase.writtenAll phrases)) [] =
      .ok (r, .after (Phrase.writtenAll phrases)) :=
    Reading.run_finish (.after (Phrase.writtenAll phrases)) (rfl : Scan.ofSource _ [] = .finish [])
  have hrun : Reading.template.run .start (Phrase.writtenAll phrases) =
      .ok (r, .after (Phrase.writtenAll phrases)) := by
    have := Reading.run_phrases (r := Reading.template) [] trivial hfit
    simp only [List.append_nil, List.nil_append] at this
    exact this.trans hend
  have houtline : r.outline? = some (Phrase.nodes [] [] phrases) := by
    have hblocks : r.blocks = [] := Reading.addAll_blocks _ _
    have hnodes : r.nodes = (Phrase.nodes [] [] phrases).reverse :=
      (Reading.addAll_nodes _ _).trans (List.append_nil _)
    rcases Reading.addAll_place Reading.template (Phrase.nodes [] [] phrases) with hp | hp
    · have hplace : r.place = .opening := hp
      simp [Reading.outline?, hblocks, hplace, hnodes]
    · have hplace : r.place = .between := hp
      simp [Reading.outline?, hblocks, hplace, hnodes]
  simp only [readOutline, hrun, bind, Except.bind, houtline]

end Stencil
