-- SUMMARY: What may follow a text on the way to a template is what fits the state after it.
import Stencil.Proofs.Rereading

/-! # What may follow a text

A kind of token may follow a text if some template starts with the text and the first of its tokens
that starts after the text is of that kind. This is said without a state of reading. It comes down
to the state that reading is in at the end of the text: what fits there may follow, since a state
has a completion after every token that fits it, and nothing else may, unless the end of the text
turns into another token.
-/

namespace Stencil

open Text (isBlank)

/-- A token of this kind comes first after a text in some template; or the text is a template, for
    the end of the source. -/
def MayFollow (before : List Char) : Terminal → Prop
  | .finish => ∃ nodes, readOutline before = .ok nodes
  | kind => ∃ after nodes, readOutline (before ++ after) = .ok nodes ∧
      Reading.template.firstFrom before.length [] (before ++ after) = some kind

/-- A token may follow a text if it comes first after it in the reading of some template. -/
theorem mayFollow_iff {before : List Char} {kind : Terminal} (h : kind ≠ .finish) :
    MayFollow before kind ↔ ∃ after nodes, readOutline (before ++ after) = .ok nodes ∧
      Reading.template.firstFrom before.length [] (before ++ after) = some kind := by
  cases kind <;> first | rfl | exact absurd rfl h

/-- A template is what is read to an end outside all blocks and tags. -/
theorem exists_outline_iff {source : List Char} :
    (∃ nodes, readOutline source = .ok nodes) ↔
      Reading.template.Reaches [] source (Reading.Ends false) := by
  simp only [readOutline, bind, Except.bind]
  constructor
  · rintro ⟨nodes, h⟩
    split at h
    · cases h
    · next r hrun =>
      split at h
      · next hnodes => exact ⟨r.1, r.2, hrun, by simp [Reading.Ends, hnodes]⟩
      · cases h
  · rintro ⟨r, p, hrun, hends⟩
    obtain ⟨nodes, hnodes⟩ := Option.isSome_iff_exists.1 hends
    change Reading.template.run .start source = _ at hrun
    exact ⟨nodes, by simp only [hrun, hnodes]⟩

/-! ## What fits a state -/

namespace Reading

variable {r r' last : Reading} {before lead written read left rest : List Char} {k : Terminal}
  {p : Position} {next : Option Char}

/-- A token of this kind may come next; or the source may end, for its end. Literal text does not
    come after literal text, since it would be a part of it. -/
def Fits (r : Reading) (k : Terminal) : Prop :=
  if k = .finish then r.outline?.isSome = true
  else (r.shift ⟨k, .start, [], []⟩ none).isSome = true ∧ (k = .text → r.AfterText = false)

theorem fits_finish_iff : r.Fits .finish ↔ r.outline?.isSome = true := by simp [Fits]

theorem shift_finish (r : Reading) : r.shift ⟨.finish, p, lead, written⟩ next = none := by
  obtain ⟨blocks, nodes, place⟩ := r
  cases place <;> rfl

/-- What fits is taken, however it is written. -/
theorem Fits.shift (h : r.Fits k) (hk : k ≠ .finish) (p : Position) (lead written : List Char)
    (next : Option Char) :
    (∃ r', r.shift ⟨k, p, lead, written⟩ next = some r') ∧ (k = .text → r.AfterText = false) := by
  rw [Fits, if_neg hk, Option.isSome_iff_exists] at h
  obtain ⟨⟨r', h⟩, htext⟩ := h
  obtain ⟨r'', h', -⟩ := (Alike.refl r).shift h p lead written next
  exact ⟨⟨r'', h'⟩, htext⟩

/-- What is taken fits, but for literal text after literal text. -/
theorem fits_of_shift (h : r.shift ⟨k, p, lead, written⟩ next = some r')
    (htext : k = .text → r.AfterText = false) : r.Fits k := by
  have hk : k ≠ .finish := by
    rintro rfl
    cases (shift_finish r).symm.trans h
  rw [Fits, if_neg hk, Option.isSome_iff_exists]
  obtain ⟨r'', h', -⟩ := (Alike.refl r).shift h .start [] [] none
  exact ⟨⟨r'', h'⟩, htext⟩

/-- A template may end outside all blocks, at its start or after a node. -/
theorem outline?_isSome_iff :
    r.outline?.isSome = true ↔ r.kinds = [] ∧ (r.place = .opening ∨ r.place = .between) := by
  obtain ⟨blocks, nodes, place⟩ := r
  cases blocks <;> cases place <;> simp [outline?, kinds]

theorem Alike.outline? (h : r.Alike r') (hr : r.outline?.isSome = true) :
    r'.outline?.isSome = true := by
  rw [outline?_isSome_iff] at hr ⊢
  refine ⟨h.kinds ▸ hr.1, hr.2.imp ?_ ?_⟩ <;>
    · intro hplace
      have hplace' := h.place
      rw [hplace] at hplace'
      generalize r'.place = place' at hplace'
      cases hplace'
      rfl

/-- States that are alike can go on with the same tokens. -/
theorem Alike.fits (h : r.Alike r') (hr : r.Fits k) : r'.Fits k := by
  by_cases hk : k = .finish
  · subst hk
    exact fits_finish_iff.2 (h.outline? (fits_finish_iff.1 hr))
  · obtain ⟨⟨r₁, hshift⟩, htext⟩ := hr.shift hk .start [] [] none
    obtain ⟨r₁', hshift', -⟩ := h.shift hshift .start [] [] none
    exact fits_of_shift hshift' fun ht => h.text ▸ htext ht

end Reading

/-! ## What may follow fits -/

/-- Nothing is found in blanks that are skipped. -/
theorem Scan.lead_of_gap {admitted : List Terminal} {t : Terminal}
    {gap s lead written rest : List Char} (hgap : AllBlank gap)
    (hskip : gap ≠ [] → SkipsBlanks admitted)
    (h : ofSource admitted (gap ++ s) = .token t lead written rest) :
    ∃ blanks, lead = gap ++ blanks := by
  obtain ⟨s', hs, -, hfirst, -⟩ := token_spec h
  rcases List.append_eq_append_iff.1 hs with ⟨blanks, rfl, -⟩ | ⟨lost, rfl, hs'⟩
  · exact ⟨blanks, rfl⟩
  · cases lost with
    | nil => exact ⟨[], by simp⟩
    | cons c lost =>
      have hc : isBlank c = true := hgap c (by simp)
      rw [hs', List.cons_append, (hskip (by simp)).readFirst_eq_none hc] at hfirst
      cases hfirst

/-- Where a text is a template, reading halts in a state in which the source may end. -/
theorem MayFollow.fits_finish {before left : List Char} {last : Reading}
    (h : MayFollow before .finish) (hhalts : Reading.template.Halts [] before left last) :
    last.Fits .finish := by
  have hreach := exists_outline_iff.1 h
  rw [← List.append_nil before] at hreach
  obtain ⟨r, before', gap, rest, hpast⟩ :=
    hhalts.getsPast rfl rfl (Reading.undisturbed_nil last before) hreach
  obtain ⟨more, hmore⟩ := hpast.more
  obtain ⟨rfl, rfl⟩ := List.append_eq_nil_iff.1 hmore.symm
  have hreach := hpast.reaches
  rcases hreach.next with ⟨_, -, hends⟩ | ⟨t, lead, written, rest', r', hscan, -⟩
  · exact hpast.alike.symm.fits (Reading.fits_finish_iff.2 hends)
  · -- A token would have to be found in blanks.
    obtain ⟨blanks, rfl⟩ := Scan.lead_of_gap hpast.blank hpast.skips hscan
    obtain ⟨hne, happend⟩ := Scan.token_append hscan
    simp only [List.append_nil, List.append_assoc, List.append_right_eq_self,
      List.append_eq_nil_iff] at happend
    exact absurd happend.2.1 hne

/-- What comes next in some template fits in the state in which reading halts. -/
theorem MayFollow.fits {before left : List Char} {last : Reading} {k : Terminal}
    (h : MayFollow before k) (hhalts : Reading.template.Halts [] before left last)
    (hsettled : ∀ u, last.Undisturbed before u) : last.Fits k := by
  by_cases hk : k = .finish
  · subst hk
    exact h.fits_finish hhalts
  · obtain ⟨after, nodes, hnodes, hfirst⟩ := (mayFollow_iff hk).1 h
    have hreach := exists_outline_iff.1 ⟨nodes, hnodes⟩
    obtain ⟨r, before', gap, rest, hpast⟩ := hhalts.getsPast rfl
      (rfl : ([] ++ before).length = before.length) (hsettled after) hreach
    rw [hpast.first] at hfirst
    rcases hpast.reaches.next with ⟨_, hscan, -⟩ | ⟨t, lead, written, rest', r', hscan, hshift, -⟩
    · rw [Reading.firstFrom_finish _ _ hscan] at hfirst
      cases hfirst
    · obtain ⟨blanks, rfl⟩ := Scan.lead_of_gap hpast.blank hpast.skips hscan
      have hpast' := hpast.past
      rw [Reading.firstFrom_here hscan hshift (by
        simp only [List.length_append] at hpast' ⊢
        omega)] at hfirst
      cases hfirst
      refine hpast.alike.symm.fits (Reading.fits_of_shift hshift ?_)
      rintro rfl
      -- What follows literal text is no literal text.
      by_contra htext
      have hends := hpast.ends (by simpa using htext)
      obtain ⟨hblanks, pieces, hne, rfl, hfit⟩ :=
        Scan.token_text (Place.isBody_of_mem (Scan.token_mem hscan) (by decide)) hscan
      obtain ⟨q, pieces, rfl⟩ := List.exists_cons_of_ne_nil hne
      have happend := (Scan.token_append hscan).2
      rw [hblanks, List.nil_append] at happend
      rw [← happend] at hends
      exact absurd hfit.1 (PieceForm.not_fits hends (by simp))

/-! ## What fits may follow -/

namespace Terminal

/-- A way to write a terminal. -/
def sample : Terminal → List Char
  | .opener kind => '#' :: '{' :: (kind.keyword.toList ++ [' '])
  | .closer kind => kind.closer.toList
  | .substitution => ['#', '{']
  | .text => ['x']
  | .name => ['x']
  | .index => ['x']
  | .inWord => ['i', 'n']
  | .leftBracket => ['[']
  | .rightBracket => [']']
  | .rightBrace => ['}']
  | .bar => ['|']
  | .dot => ['.']
  | .finish => []

/-- The blanks that have to stand around a terminal. -/
def gap : Terminal → List Char
  | .inWord => [' ']
  | _ => []

theorem allBlank_gap (t : Terminal) : AllBlank t.gap := by
  cases t <;> simp [gap, AllBlank, isBlank]

/-- The terminal is found in front of a text if it is written as its sample is. -/
def Precedes (rest : List Char) : Terminal → Prop
  | .opener _ => StartsVisible rest
  | .substitution => (∀ u, rest ≠ '/' :: u) ∧ ¬StartsBlock rest
  | .text => EndsText rest
  | .name => EndsNames rest
  | .index => ∃ u, rest = ']' :: u
  | .inWord => ∃ c u, rest = c :: u ∧ isBlank c = true
  | _ => True

end Terminal

namespace Scan

/-- Between nodes the sample of a terminal is read as that terminal. -/
theorem readFirst_sample {k : Terminal} {rest : List Char} (hk : k ∈ Terminal.nodeStarts)
    (hrest : k.Precedes rest) :
    Terminal.readFirst Terminal.nodeStarts (k.sample ++ rest) = some (k, k.sample, rest) := by
  cases k with
  | opener kind =>
    simpa [Terminal.sample] using
      readFirst_opener (inAnyCase_self kind.keyword) .space (by simp) hrest
  | text =>
    have hfit : PieceForm.AllFit rest [.run ['x']] := by
      refine ⟨⟨by simp, by simp, ?_⟩, (PieceForm.allFit_nil_iff rest).2 hrest⟩
      rintro c s rfl
      rcases hrest with h | ⟨t, h⟩ <;> cases h
      rfl
    exact readFirst_text (by simp) hfit
  | substitution => exact readFirst_substitution hrest.1 hrest.2
  | _ => simp [Terminal.nodeStarts] at hk

/-- After a step the sample of a mark is found behind blanks. -/
theorem ofSource_sample_followers {k : Terminal} {blanks rest : List Char} (hk : k ∈ followers)
    (hblanks : AllBlank blanks) (hrest : k.Precedes rest) :
    ofSource followers (blanks ++ (k.sample ++ rest)) = .token k blanks k.sample rest ∧
      (k ≠ .inWord → ofSource followers.tail (blanks ++ (k.sample ++ rest)) =
        .token k blanks k.sample rest) := by
  cases k with
  | inWord =>
    obtain ⟨c, u, rfl, hc⟩ := hrest
    have hblank : AllBlank [c] := by simpa [AllBlank] using hc
    exact ⟨ofSource_inWord u hblanks hblank (by simp), absurd rfl⟩
  | leftBracket | rightBrace | bar | dot =>
    obtain ⟨h, htail⟩ := ofSource_mark rest hblanks hk rfl
    exact ⟨h, fun _ => htail⟩
  | _ => simp [followers] at hk

/-- A sample is found where its terminal is tried. -/
theorem ofSource_sample {place : Place} {k : Terminal} {blanks rest : List Char}
    (hk : k ∈ place.admitted) (hblanks : AllBlank blanks)
    (hskip : blanks ≠ [] → SkipsBlanks place.admitted) (hrest : k.Precedes rest) :
    ofSource place.admitted (blanks ++ (k.sample ++ rest)) = .token k blanks k.sample rest := by
  have hnil : ¬SkipsBlanks place.admitted → blanks = [] := by
    intro h
    by_contra hne
    exact h (hskip hne)
  cases place with
  | opening =>
    obtain rfl := hnil (by simp [SkipsBlanks, Place.admitted, Terminal.nodeStarts])
    exact ofSource_body (show Place.opening.IsBody from trivial) (readFirst_sample hk hrest)
  | inside kind =>
    obtain rfl := hnil (by simp [SkipsBlanks, Place.admitted, Terminal.nodeStarts])
    rcases List.mem_append.1 hk with hk | hk
    · exact ofSource_body (show (Place.inside kind).IsBody from trivial)
        (readFirst_sample hk hrest)
    · obtain rfl := List.mem_singleton.1 hk
      exact ofSource_closer rest (.inl rfl)
  | between =>
    obtain rfl := hnil (by simp [SkipsBlanks, Place.admitted, Terminal.nodeStarts])
    rcases List.mem_append.1 hk with hk | hk
    · exact ofSource_body (show Place.between.IsBody from trivial) (readFirst_sample hk hrest)
    · have hcloser : ∃ kind, k = .closer kind := by
        simp only [List.mem_cons, List.not_mem_nil, or_false] at hk
        rcases hk with rfl | rfl | rfl <;> exact ⟨_, rfl⟩
      obtain ⟨kind, rfl⟩ := hcloser
      exact ofSource_closer rest (.inr rfl)
  | enumerator | step | filter =>
    obtain rfl := List.mem_singleton.1 hk
    exact ofSource_name hblanks (isName_x hrest)
  | afterEnumerator | afterName | afterFilter =>
    exact (ofSource_sample_followers hk hblanks hrest).1
  | afterIndexer =>
    refine (ofSource_sample_followers (List.mem_of_mem_tail hk) hblanks hrest).2 ?_
    rintro rfl
    simp [Place.admitted] at hk
  | index =>
    obtain rfl := hnil (by simp [SkipsBlanks, Place.admitted])
    obtain rfl := List.mem_singleton.1 hk
    obtain ⟨u, rfl⟩ := hrest
    exact ofSource_index u (by simp [Terminal.sample]) (by simp [Terminal.sample])
  | afterIndex =>
    obtain rfl := List.mem_singleton.1 hk
    exact ofSource_eq_token (by simp [SkipsBlanks, Place.admitted]) hblanks rfl

end Scan

namespace Reading

variable {r r' last : Reading} {before lead written read left rest v : List Char} {k : Terminal}
  {p : Position} {next : Option Char}

/-- What fits is tried. -/
theorem mem_admitted_of_shift (hr : r.WellPlaced)
    (h : r.shift ⟨k, p, lead, written⟩ next = some r') : k ∈ r.place.admitted := by
  obtain ⟨blocks, nodes, place⟩ := r
  cases place with
  | opening =>
    cases k with
    | opener kind => cases kind <;> simp [Place.admitted, Terminal.nodeStarts]
    | closer kind =>
      obtain ⟨_, _, hblocks, -⟩ := leave_eq h
      rw [hr.opening rfl] at hblocks
      cases hblocks
    | text | substitution => simp [Place.admitted, Terminal.nodeStarts]
    | _ => cases h
  | inside kind =>
    cases k with
    | opener kind => cases kind <;> simp [Place.admitted, Terminal.nodeStarts]
    | closer kind' =>
      obtain ⟨_, _, hblocks, rfl, -⟩ := leave_eq h
      obtain ⟨_, _, _, hblocks', hkind⟩ := hr.inside kind rfl
      cases hblocks.symm.trans hblocks'
      simp [Place.admitted, hkind]
    | text | substitution => simp [Place.admitted, Terminal.nodeStarts]
    | _ => cases h
  | between =>
    cases k with
    | opener kind | closer kind => cases kind <;> simp [Place.admitted, Terminal.nodeStarts]
    | text | substitution => simp [Place.admitted, Terminal.nodeStarts]
    | _ => cases h
  | afterName goal | afterIndexer goal =>
    cases k with
    | dot | leftBracket | bar | rightBrace => simp [Place.admitted]
    | _ => cases h
  | _ => cases k <;> cases h <;> simp [Place.admitted]

theorem completion_of_name (h : r.place.admitted = [.name]) : ∃ u, r.completion = 'x' :: u := by
  obtain ⟨blocks, nodes, place⟩ := r
  cases place <;> first | exact ⟨_, rfl⟩ | simp [Place.admitted, Terminal.nodeStarts] at h

/-- The completion of a state is a text that the token before it precedes. -/
theorem precedes_completion (hr : r.WellPlaced)
    (h : r.shift ⟨k, p, lead, written⟩ next = some r') :
    k.Precedes (k.gap ++ r'.completion) := by
  have hr' := hr.shift h
  cases k with
  | opener kind =>
    have hname : r'.place.admitted = [.name] := by
      obtain ⟨blocks, nodes, place⟩ := r
      cases place <;> cases kind <;> cases h <;> rfl
    obtain ⟨u, hu⟩ := completion_of_name hname
    rw [hu]
    exact (resumes_cons u (by simp)).startsVisible
  | substitution =>
    have hname : r'.place.admitted = [.name] := by
      obtain ⟨blocks, nodes, place⟩ := r
      cases place <;> cases h <;> rfl
    obtain ⟨u, hu⟩ := completion_of_name hname
    rw [hu]
    refine ⟨by simp [Terminal.gap], ?_⟩
    have hnot : ¬StartsBlock [] := by
      rintro ⟨_, _, _, _, hnil, -⟩
      simp at hnil
    exact (resumes_cons u (by simp)).not_startsBlock hnot
  | text => exact endsText_completion (isBody_shift_text h)
  | name => exact endsNames_completion hr' (admitted_shift_name h)
  | index => exact completion_of_rightBracket (admitted_shift_index h)
  | inWord => exact ⟨' ', r'.completion, rfl, by decide⟩
  | _ => trivial

/-- A sample may come after a state that it fits, but for a letter in front of it. -/
theorem continues_sample (hk : k ∈ r.place.admitted) (htext : k = .text → r.AfterText = false)
    (rest : List Char) : r.Continues (k.gap ++ (k.sample ++ (k.gap ++ rest))) where
  resumes hplace := by
    cases k with
    | inWord =>
      obtain ⟨blocks, nodes, place⟩ := r
      cases place <;> first
        | exact absurd rfl hplace
        | simp [Place.admitted, Terminal.nodeStarts] at hk
    | finish =>
      obtain ⟨blocks, nodes, place⟩ := r
      cases place <;> simp [Place.admitted, Terminal.nodeStarts] at hk
    | closer kind =>
      obtain ⟨u, hu⟩ := kind.exists_closer
      rw [Terminal.sample, hu]
      exact resumes_cons _ (by simp)
    | _ => exact resumes_cons _ (by simp)
  endsNames hplace := by
    rw [hplace] at hk
    cases k with
    | inWord =>
      intro c s hs
      cases hs
      rintro (hname | ⟨-, hends⟩)
      · exact absurd hname (by decide)
      · exact hends (.inr ⟨' ', _, rfl, by decide⟩)
    | leftBracket | rightBrace | bar | dot =>
      intro c s hs
      cases hs
      rintro (hname | ⟨hblank, -⟩)
      · exact absurd hname (by decide)
      · exact absurd hblank (by decide)
    | _ => simp [Scan.followers] at hk
  endsText hbody hafter := by
    obtain ⟨kinds, hkinds⟩ := hbody.admitted_eq
    rw [hkinds] at hk
    cases k with
    | text => cases (htext rfl).symm.trans hafter
    | opener kind | substitution => exact .inr ⟨_, rfl⟩
    | closer kind =>
      obtain ⟨u, hu⟩ := kind.exists_closer
      rw [Terminal.sample, hu]
      exact .inr ⟨_, rfl⟩
    | _ => simp [Terminal.nodeStarts] at hk
  bracket hplace := by
    rw [hplace] at hk
    obtain rfl := List.mem_singleton.1 hk
    exact ⟨_, rfl⟩

/-- Reading ends outside all blocks and tags, and the first token from an offset on is of the given
    kind. -/
def Leads (n : Nat) (k : Terminal) (r : Reading) (before s : List Char) : Prop :=
  r.Reaches before s (Ends false) ∧ r.firstFrom n before s = some k

theorem passesBack_leads (n : Nat) (k : Terminal) : PassesBack n (Leads n k) :=
  fun _ _ _ _ _ _ _ _ hscan hshift hlt h =>
    ⟨.of_token hscan hshift h.1, (firstFrom_before hscan hshift hlt).trans h.2⟩

/-- From a state like the given one a sample of what fits is read, and then a completion. -/
theorem holdsFrom_sample {n : Nat} (hr : last.WellPlaced) (hbare : last.place.isBare = false)
    (hshift : last.shift ⟨k, p, lead, written⟩ next = some r') :
    HoldsFrom n (Leads n k) last (k.gap ++ (k.sample ++ (k.gap ++ r'.completion))) := by
  intro r before blanks halike hr₁ hblanks hskip hn
  have hk : k ∈ r.place.admitted := halike.admitted ▸ mem_admitted_of_shift hr hshift
  have hgap : k.gap ≠ [] → k = .inWord := by
    cases k <;> simp [Terminal.gap]
  have hlead : AllBlank (blanks ++ k.gap) := by
    intro c hc
    rcases List.mem_append.1 hc with hc | hc
    · exact hblanks c hc
    · exact k.allBlank_gap c hc
  have hskip' : blanks ++ k.gap ≠ [] → Scan.SkipsBlanks r.place.admitted := by
    intro hne
    by_cases hnil : blanks = []
    · obtain rfl := hgap (by simpa [hnil] using hne)
      obtain ⟨start, enumerator, hplace⟩ := place_of_shift_inWord hshift
      rw [← halike.admitted, hplace]
      simp [Scan.SkipsBlanks, Place.admitted]
    · exact hskip hnil
  obtain ⟨r₂, hshift₂, halike₂⟩ := halike.shift hshift (.after before) (blanks ++ k.gap) k.sample
    (k.gap ++ r'.completion).head?
  have hscan := Scan.ofSource_sample hk hlead hskip' (precedes_completion hr hshift)
  have hskip₂ : k.gap ≠ [] → Scan.SkipsBlanks r₂.place.admitted := by
    intro hne
    obtain rfl := hgap hne
    rw [admitted_shift_inWord hshift₂]
    simp [Scan.SkipsBlanks]
  have hreach : r₂.Reaches (before ++ (blanks ++ k.gap) ++ k.sample) (k.gap ++ r'.completion)
      (Ends false) := by
    have h := reaches_completion (before ++ (blanks ++ k.gap) ++ k.sample) (hr₁.shift hshift₂)
      k.allBlank_gap hskip₂
    rwa [← halike₂.completion, isBare_shift hshift₂, ← halike.place.isBare, hbare] at h
  rw [← List.append_assoc]
  refine ⟨.of_token hscan hshift₂ hreach, firstFrom_here hscan hshift₂ ?_⟩
  simp only [List.length_append] at hn ⊢
  omega

/-- Where a template may end, it ends. -/
theorem holdsFrom_nil {n : Nat} (hlast : last.outline?.isSome = true) :
    HoldsFrom n (fun r before s => r.Reaches before s (Ends false)) last [] := by
  intro r before blanks halike _ _ hskip _
  have hends := halike.outline? hlast
  have hnil : blanks = [] := by
    by_contra hne
    refine (hskip hne).1 ?_
    rcases (outline?_isSome_iff.1 hends).2 with hplace | hplace <;>
      simp [hplace, Place.admitted, Terminal.nodeStarts]
  subst hnil
  exact .of_finish before (rfl : Scan.ofSource _ [] = .finish []) hends

/-- What fits the state at the end of a text may follow the text. -/
theorem Fits.mayFollow (h : last.Fits k) (hhalts : template.Halts [] before left last) :
    MayFollow before k := by
  have hr := hhalts.wellPlaced wellPlaced_template
  have hbare : last.place.isBare = false := hhalts.isBare
  by_cases hk : k = .finish
  · subst hk
    have hlast := fits_finish_iff.1 h
    have hbody : last.place.IsBody := by
      rcases (outline?_isSome_iff.1 hlast).2 with hplace | hplace <;> rw [hplace] <;> trivial
    have hcontinues : last.Continues [] := by
      refine ⟨fun _ => resumes_nil, fun _ => by simp [EndsNames], fun _ _ => .inl rfl, ?_⟩
      intro hplace
      obtain ⟨kinds, hkinds⟩ := hbody.admitted_eq
      rw [hplace] at hkinds
      cases hkinds
    obtain ⟨u, hnil, hreach⟩ := hhalts.passesBack (passesBack_reaches _ _)
      wellPlaced_template rfl hcontinues (holdsFrom_nil hlast)
    rw [hnil hbody rfl, List.append_nil] at hreach
    exact exists_outline_iff.2 hreach
  · obtain ⟨⟨r', hshift⟩, htext⟩ := h.shift hk .start [] [] none
    obtain ⟨u, -, hreach, hfirst⟩ := hhalts.passesBack (passesBack_leads before.length k)
      wellPlaced_template rfl
      (continues_sample (mem_admitted_of_shift hr hshift) htext r'.completion)
      (holdsFrom_sample hr hbare hshift)
    obtain ⟨nodes, hnodes⟩ := exists_outline_iff.2 hreach
    exact (mayFollow_iff hk).2 ⟨u, nodes, hnodes, hfirst⟩

end Reading

end Stencil
