-- SUMMARY: How far a source is read: up to its end, or up to the blanks before what does not fit.
import Stencil.Proofs.Derivation

/-! # Stopping

Reading takes tokens as long as they are found and fit. It comes to a halt after the last of them,
and after the blanks that could be skipped there, whatever the reason: the source ends, no terminal
is found, or one is found that the state refuses. The place of the halt is the one that a fault
names, so it is the length of what has been read.
-/

namespace Stencil

open Text (isBlank)

/-! ## Blanks before a halt -/

namespace Terminal

/-- No terminal is found if none can be read. -/
theorem readFirst_eq_none_iff {ts : List Terminal} {s : List Char} :
    readFirst ts s = none ↔ ∀ t ∈ ts, t.read s = none := by
  constructor
  · intro h t ht
    induction ts with
    | nil => cases ht
    | cons u ts ih =>
      cases hr : u.read s with
      | some found => rw [readFirst_cons_some ts hr] at h; cases h
      | none =>
        rcases List.mem_cons.1 ht with rfl | ht
        · exact hr
        · exact ih (by rwa [readFirst_cons_none ts hr] at h) ht
  · intro h
    have := readFirst_append_of_none ts [] h
    rwa [List.append_nil] at this

/-- Literal text starts with every blank. -/
theorem read_text_ne_none {c : Char} (hc : isBlank c = true) (s : List Char) :
    text.read (c :: s) ≠ none := by
  have hends : ¬EndsText (c :: s) := by
    rintro (h | ⟨t, h⟩)
    · cases h
    · cases h
      exact absurd hc (by decide)
  obtain ⟨pieces, following, hs, hfit⟩ := PieceForm.exists_allFit (c :: s)
  have hne : PieceForm.writtenAll pieces ≠ [] := by
    intro hnil
    rw [hs, hnil] at hends
    exact hends hfit.endsText
  rw [hs, read_text_iff.2 ⟨PieceForm.split_of_allFit hfit, hne⟩]
  simp

/-- The content of an indexer starts with every blank. -/
theorem read_index_ne_none {c : Char} (hc : isBlank c = true) (s : List Char) :
    index.read (c :: s) ≠ none := by
  have hbracket : c ≠ ']' := by
    rintro rfl
    exact absurd hc (by decide)
  rw [read_index_iff.2 ⟨rfl, by simp [hbracket]⟩]
  simp

end Terminal

namespace Scan

/-- A blank in front of which no terminal is found may be skipped. -/
theorem SkipsBlanks.of_readFirst {admitted : List Terminal} {c : Char} {s : List Char}
    (hc : isBlank c = true) (h : Terminal.readFirst admitted (c :: s) = none) :
    SkipsBlanks admitted := by
  rw [Terminal.readFirst_eq_none_iff] at h
  exact ⟨fun ht => Terminal.read_text_ne_none hc s (h _ ht),
    fun hi => Terminal.read_index_ne_none hc s (h _ hi)⟩

/-- The blanks that are skipped in any case. -/
def lead : Scan → List Char
  | .token _ lead _ _ => lead
  | .stuck lead _ => lead
  | .finish lead => lead

/-- The text is blanks that may be skipped, as many as there are, and something else. -/
structure Skips (admitted : List Terminal) (blanks left : List Char) : Prop where
  blank : AllBlank blanks
  skips : blanks ≠ [] → SkipsBlanks admitted
  visible : SkipsBlanks admitted → StartsVisible left

/-- What is skipped before a token is blanks that start no terminal. -/
theorem after_lead (skipped : List Char) (admitted : List Terminal) (s : List Char) :
    ∃ blanks left, (after skipped admitted s).lead = skipped.reverse ++ blanks ∧
      s = blanks ++ left ∧ Skips admitted blanks left := by
  induction s generalizing skipped with
  | nil => exact ⟨[], [], by simp [after, lead], rfl, .nil, by simp, by simp [StartsVisible]⟩
  | cons c s ih =>
    cases hr : Terminal.readFirst admitted (c :: s) with
    | some found =>
      obtain ⟨t, written, rest⟩ := found
      refine ⟨[], c :: s, by simp [after, hr, lead], rfl, .nil, by simp, ?_⟩
      intro hskip d u hd
      cases hd
      obtain ⟨hmem, hread⟩ := Terminal.readFirst_mem hr
      exact Terminal.isBlank_of_read (ne_of_mem_of_not_mem hmem hskip.1)
        (ne_of_mem_of_not_mem hmem hskip.2) hread
    | none =>
      cases hc : isBlank c with
      | true =>
        obtain ⟨blanks, left, hlead, rfl, h⟩ := ih (c :: skipped)
        refine ⟨c :: blanks, left, by simp [after, hr, hc, hlead], rfl, ?_,
          fun _ => .of_readFirst hc hr, h.visible⟩
        intro d hd
        rcases List.mem_cons.1 hd with rfl | hd
        · exact hc
        · exact h.blank d hd
      | false =>
        refine ⟨[], c :: s, by simp [after, hr, hc, lead], rfl, .nil, by simp, ?_⟩
        intro _ d u hd
        cases hd
        exact hc

/-- Up to the end of the source, blanks are skipped. -/
theorem ofSource_blanks {admitted : List Terminal} {blanks : List Char}
    (hskip : SkipsBlanks admitted) (h : AllBlank blanks) :
    ofSource admitted blanks = .finish blanks := by
  suffices hafter : ∀ skipped, after skipped admitted blanks =
      .finish (skipped.reverse ++ blanks) from hafter []
  induction blanks with
  | nil => simp [after]
  | cons c blanks ih =>
    intro skipped
    rw [after, hskip.readFirst_eq_none h.head]
    simp only [h.head, if_true]
    rw [ih h.tail]
    simp

theorem skips_lead (admitted : List Terminal) (s : List Char) :
    ∃ left, s = (ofSource admitted s).lead ++ left ∧
      Skips admitted (ofSource admitted s).lead left := by
  obtain ⟨blanks, left, hlead, hs, h⟩ := after_lead [] admitted s
  simp only [List.reverse_nil, List.nil_append] at hlead
  exact ⟨left, by rw [ofSource, hlead, hs], by rwa [ofSource, hlead]⟩

end Scan

/-! ## Where reading halts -/

/-- What is known where reading comes to a halt. -/
structure Halt where
  /-- The tokens that have been taken. -/
  tokens : List Token
  /-- The state that has been reached. -/
  state : Reading
  /-- The terminal that comes next and does not fit, if there is one; it may be the end of the
      source. -/
  found : Option Terminal

namespace Reading

/-- Reads on from a position until reading comes to a halt. -/
def halt (r : Reading) (p : Position) (s : List Char) : Halt :=
  match _h : Scan.ofSource r.place.admitted s with
  | .finish _ => ⟨[], r, some .finish⟩
  | .stuck _ _ => ⟨[], r, none⟩
  | .token terminal lead written rest =>
    let t : Token := { terminal, origin := p, lead, written }
    match r.shift t rest.head? with
    | none => ⟨[], r, some terminal⟩
    | some r' =>
      let later := r'.halt t.stop rest
      { later with tokens := t :: later.tokens }
termination_by s.length
decreasing_by exact Scan.rest_lt _h

theorem halt_finish {r : Reading} {s lead : List Char} (p : Position)
    (h : Scan.ofSource r.place.admitted s = .finish lead) :
    r.halt p s = ⟨[], r, some .finish⟩ := by
  rw [halt]
  split <;> simp_all

theorem halt_stuck {r : Reading} {s lead : List Char} {c : Char} (p : Position)
    (h : Scan.ofSource r.place.admitted s = .stuck lead c) : r.halt p s = ⟨[], r, none⟩ := by
  rw [halt]
  split <;> simp_all

theorem halt_token_refused {r : Reading} {s lead written rest : List Char} {terminal : Terminal}
    (p : Position) (h : Scan.ofSource r.place.admitted s = .token terminal lead written rest)
    (hr : r.shift ⟨terminal, p, lead, written⟩ rest.head? = none) :
    r.halt p s = ⟨[], r, some terminal⟩ := by
  rw [halt]
  split <;> simp_all

/-- A token that fits is taken, and what is known at the halt is known after it. -/
theorem halt_token {r r' : Reading} {before s lead written rest : List Char} {terminal : Terminal}
    (h : Scan.ofSource r.place.admitted s = .token terminal lead written rest)
    (hr : r.shift ⟨terminal, .after before, lead, written⟩ rest.head? = some r') :
    r.halt (.after before) s =
      { r'.halt (.after (before ++ lead ++ written)) rest with
        tokens := ⟨terminal, .after before, lead, written⟩ ::
          (r'.halt (.after (before ++ lead ++ written)) rest).tokens } := by
  rw [halt]
  split <;> simp_all

/-- Reading on from a text before, this much is read until reading comes to a halt in the given
    state, and this is left. -/
inductive Halts : Reading → List Char → List Char → List Char → Reading → Prop
  /-- No token is taken, but blanks may be skipped. -/
  | here {r : Reading} {before lead left : List Char}
      (skips : Scan.Skips r.place.admitted lead left) : Halts r before lead left r
  /-- A token is taken, and reading goes on. -/
  | onward {r r' last : Reading} {before lead written read left : List Char} {t : Terminal}
      (scan : Scan.ofSource r.place.admitted (lead ++ (written ++ (read ++ left))) =
        .token t lead written (read ++ left))
      (shift : r.shift ⟨t, .after before, lead, written⟩ (read ++ left).head? = some r')
      (halts : Halts r' (before ++ lead ++ written) read left last) :
      Halts r before (lead ++ (written ++ read)) left last

/-- Reading on from a text before, this much is read until reading comes to a halt, and this is
    left. -/
def Stops (r : Reading) (before read left : List Char) : Prop :=
  ∃ last, r.Halts before read left last

/-- The place at which reading ends, with or without a fault. -/
def stopPosition : Except Fault (Reading × Position) → Position
  | .ok (_, p) => p
  | .error f => f.position

/-- Reading always comes to a halt, and ends at the place of the halt. -/
theorem exists_halts (r : Reading) (before s : List Char) :
    ∃ read left, s = read ++ left ∧
      r.Halts before read left (r.halt (.after before) s).state ∧
      stopPosition (r.run (.after before) s) = .after (before ++ read) := by
  induction hn : s.length using Nat.strongRecOn generalizing r before s with
  | ind n ih =>
    have hskips := Scan.skips_lead r.place.admitted s
    cases hscan : Scan.ofSource r.place.admitted s with
    | finish lead =>
      rw [hscan] at hskips
      obtain ⟨left, hs, hskips⟩ := hskips
      refine ⟨lead, left, hs, ?_, ?_⟩
      · rw [halt_finish _ hscan]
        exact .here hskips
      · rw [run_finish _ hscan, stopPosition, Position.after_advanceBy]
    | stuck lead c =>
      rw [hscan] at hskips
      obtain ⟨left, hs, hskips⟩ := hskips
      refine ⟨lead, left, hs, ?_, ?_⟩
      · rw [halt_stuck _ hscan]
        exact .here hskips
      · rw [run_stuck _ hscan, stopPosition, Position.after_advanceBy]
    | token t lead written rest =>
      cases hshift : r.shift ⟨t, .after before, lead, written⟩ rest.head? with
      | none =>
        rw [hscan] at hskips
        obtain ⟨left, hs, hskips⟩ := hskips
        refine ⟨lead, left, hs, ?_, ?_⟩
        · rw [halt_token_refused _ hscan hshift]
          exact .here hskips
        · rw [run_token_refused _ hscan hshift, stopPosition, Position.after_advanceBy]
      | some r' =>
        have hlt := Scan.rest_lt hscan
        have hs := (Scan.token_append hscan).2
        obtain ⟨read, left, rfl, hhalts, hposition⟩ :=
          ih rest.length (hn ▸ hlt) r' (before ++ lead ++ written) rest rfl
        simp only [List.append_assoc] at hs
        refine ⟨lead ++ (written ++ read), left, by simp [← hs], ?_, ?_⟩
        · rw [halt_token hscan hshift]
          exact .onward (by rwa [hs]) hshift hhalts
        · rw [run_token_after before hscan hshift, hposition]
          simp

/-- Every reading stops somewhere in the source, and has read what is in front of that. -/
theorem exists_stops (r : Reading) (before s : List Char) :
    ∃ read left, s = read ++ left ∧ r.Stops before read left ∧
      stopPosition (r.run (.after before) s) = .after (before ++ read) := by
  obtain ⟨read, left, hs, hhalts, hposition⟩ := exists_halts r before s
  exact ⟨read, left, hs, ⟨_, hhalts⟩, hposition⟩

end Reading

/-- If the end of the source is where the faults of a last step are, a fault is where reading
    ends. -/
private theorem position_of_bind {α : Type} {last : Reading × Position → Except Fault α}
    {result : Except Fault (Reading × Position)} {f : Fault} (h : result.bind last = .error f)
    (hlast : ∀ r p f, last (r, p) = .error f → f.position = p) :
    f.position = Reading.stopPosition result := by
  cases result with
  | error g =>
    cases h
    rfl
  | ok found => exact hlast found.1 found.2 f h

/-- The fault of a source that is no template is where reading comes to a halt. -/
theorem halts_of_readOutline {source : List Char} {f : Fault}
    (h : readOutline source = .error f) :
    ∃ read left, source = read ++ left ∧ f.position = .after read ∧
      Reading.template.Halts [] read left (Reading.template.halt .start source).state := by
  obtain ⟨read, left, hs, hhalts, hposition⟩ := Reading.exists_halts .template [] source
  refine ⟨read, left, hs, (position_of_bind h ?_).trans hposition, hhalts⟩
  intro r p f hlast
  dsimp only at hlast
  split at hlast <;> cases hlast
  rfl

/-- A fault is placed where reading stops. -/
theorem stops_of_readOutline {source : List Char} {f : Fault} (h : readOutline source = .error f) :
    ∃ read left, source = read ++ left ∧ f.position = .after read ∧
      Reading.template.Stops [] read left := by
  obtain ⟨read, left, hs, hposition, hhalts⟩ := halts_of_readOutline h
  exact ⟨read, left, hs, hposition, _, hhalts⟩

/-- The fault of a source that is no bare path is where reading stops. -/
theorem stops_of_readPath {source : List Char} {f : Fault} (h : readPath source = .error f) :
    ∃ read left, source = read ++ left ∧ f.position = .after read ∧
      Reading.path.Stops [] read left := by
  obtain ⟨read, left, hs, hstops, hposition⟩ := Reading.exists_stops .path [] source
  refine ⟨read, left, hs, (position_of_bind h ?_).trans hposition, hstops⟩
  intro r p f hlast
  dsimp only at hlast
  split at hlast <;> cases hlast
  rfl

end Stencil
