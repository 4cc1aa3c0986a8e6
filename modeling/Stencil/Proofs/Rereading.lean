-- SUMMARY: What may follow a text, and how its tokens are found again in front of something else.
import Stencil.Proofs.ViablePrefix

/-! # Rereading

What has been read up to a halt is read again with something else after it. Tokens that have another
one after them are found as before. The last one may take in more: blanks, the rest of a name, more
text. It ends where it did or later, so that the first token after the halt is the one that comes
next, and the state there is like the one at the halt.

Only in a few places does what stands at the end of a text turn into something else, and the text is
cut into tokens in another way. A hash mark at the end of literal text may become that of a tag, the
opening of a substitution that of a block or a closing tag, and the end of a loop variable the word
after it. `Undisturbed` excludes them.
-/

namespace Stencil

open Text (isBlank)
open Name (isNameChar)

/-! ## Names -/

/-- Blanks are not the end of a text that ends in something visible. -/
theorem AllBlank.eq_nil_of_append {s blanks t : List Char} {c : Char} (h : AllBlank blanks)
    (hs : s ++ blanks = t ++ [c]) (hc : isBlank c = false) : blanks = [] := by
  rcases List.eq_nil_or_concat blanks with rfl | ⟨blanks, d, rfl⟩
  · rfl
  · rw [List.concat_eq_append, ← List.append_assoc] at hs
    obtain ⟨-, hd⟩ := List.append_inj' hs rfl
    obtain rfl := List.singleton_inj.1 hd
    rw [h d (by simp)] at hc
    cases hc

/-- A name is found again in front of another text, where it may go on; or it ends in front of the
    blank at its end, or of a blank and a word that becomes the one after a loop variable. -/
theorem IsName.reread {name blanks left : List Char} (h : IsName name (blanks ++ left))
    (hblanks : AllBlank blanks) (u : List Char) :
    ∃ name' rest, name ++ (blanks ++ u) = name' ++ rest ∧ IsName name' rest ∧
      ((∃ gap, AllBlank gap ∧ rest = gap ++ u) ∨ (∃ more, u = more ++ rest) ∨
        ∃ c word, name = name' ++ c :: word ∧ blanks = [] ∧ rest = c :: (word ++ u) ∧
          isBlank c = true ∧ EndsName (word ++ u) ∧
          (word = ['i'] ∧ (∃ v, u = 'n' :: v) ∨
            word = ['i', 'n'] ∧ ∃ d v, u = d :: v ∧ isBlank d = true)) := by
  obtain ⟨c, s, rfl, hc⟩ := h.starts
  obtain ⟨name', rest, hs, hname'⟩ := exists_isName hc (s ++ (blanks ++ u))
  refine ⟨name', rest, hs, hname', ?_⟩
  rcases List.append_eq_append_iff.1 (show (c :: s) ++ (blanks ++ u) = name' ++ rest from hs) with
    ⟨more, rfl, hmore⟩ | ⟨lost, hlost, hrest⟩
  · rcases List.append_eq_append_iff.1 hmore with ⟨more, rfl, hu⟩ | ⟨gap, hgap, hrest⟩
    · exact .inr (.inl ⟨more, hu⟩)
    · refine .inl ⟨gap, ?_, hrest⟩
      intro d hd
      exact hblanks d (by simp [hgap, hd])
  · cases lost with
    | nil => exact .inl ⟨blanks, hblanks, by simpa using hrest⟩
    | cons d word =>
      -- The name goes on over this blank in one place and ends in front of it in the other.
      have hgoes := h.goesOn name' d word hlost
      have hends := hname'.ends d _ hrest
      have hd : isBlank d = true := by
        rcases hgoes with hd | ⟨hd, -⟩
        · exact absurd (.inl hd) hends
        · exact hd
      have hbefore : ¬EndsName (word ++ (blanks ++ left)) := by
        rcases hgoes with hd | ⟨-, hnot⟩
        · exact absurd (.inl hd) hends
        · exact hnot
      have hafter : EndsName (word ++ (blanks ++ u)) := by
        by_contra hnot
        exact hends (.inr ⟨hd, hnot⟩)
      rw [← List.append_assoc] at hbefore hafter
      rcases hafter.of_append with hends | ⟨hnil, -⟩ | ⟨hi, hu⟩ | ⟨hin, hu⟩
      · exact absurd (hends.append left) hbefore
      · obtain ⟨rfl, rfl⟩ := List.append_eq_nil_iff.1 hnil
        exact .inl ⟨[d], by simpa [AllBlank] using hd, hrest⟩
      · obtain rfl := hblanks.eq_nil_of_append (t := []) hi (by decide)
        rw [List.append_nil] at hi hafter
        exact .inr (.inr ⟨d, word, hlost, rfl, hrest, hd, hafter, .inl ⟨hi, hu⟩⟩)
      · obtain rfl := hblanks.eq_nil_of_append (t := ['i']) hin (by decide)
        rw [List.append_nil] at hin hafter
        exact .inr (.inr ⟨d, word, hlost, rfl, hrest, hd, hafter, .inr ⟨hin, hu⟩⟩)

/-! ## The last token -/

namespace Reading

/-- Nothing at the end of what has been read turns into another token in front of a text. -/
structure Undisturbed (last : Reading) (before u : List Char) : Prop where
  hash : last.place = .between → ∀ s v, before = s ++ ['#'] → u ≠ '{' :: v
  tag : ∀ front s, before = front ++ '#' :: '{' :: s →
    (s = [] → ∀ v, u ≠ '/' :: v) ∧ (StartsBlock (s ++ u) → StartsBlock s)
  word : ∀ start enumerator, last.place = .afterEnumerator start enumerator →
    ∀ front c s, before = front ++ c :: s → isBlank c = true →
      (s = ['i'] → ∀ v, u ≠ 'n' :: v) ∧ (s = ['i', 'n'] → StartsVisible u)

/-- At the end of a source nothing turns into another token. -/
theorem undisturbed_nil (last : Reading) (before : List Char) : last.Undisturbed before [] where
  hash _ _ _ _ := by simp
  tag _ s _ := ⟨by simp, by rw [List.append_nil]; exact id⟩
  word _ _ _ _ _ _ _ _ := ⟨by simp, fun _ => by simp [StartsVisible]⟩

end Reading

namespace Scan

/-- A token that has been read with `s` after the blanks in front of it is found again in front of a
    text `u`. It goes on up to blanks in front of the text, or into the text up to `rest`. -/
structure Again (admitted next : List Terminal) (t : Terminal)
    (lead s u written gap rest : List Char) : Prop where
  scan : ofSource admitted (lead ++ (s ++ u)) = .token t lead written (gap ++ rest)
  blank : AllBlank gap
  skips : gap ≠ [] → SkipsBlanks next
  more : ∃ more, written ++ gap = s ++ more ∧ u = more ++ rest
  ends : t = .text → EndsText (gap ++ rest)

variable {next : List Terminal} {place : Place} {t : Terminal}
  {lead written read left u : List Char}

/-- The opening of a block takes in further blanks. -/
theorem again_opener {kind : BlockKind} (hbody : place.IsBody)
    (h : ofSource place.admitted (lead ++ (written ++ (read ++ left))) =
      .token (.opener kind) lead written (read ++ left)) (hread : AllBlank read) :
    ∃ written' gap rest, Again place.admitted next (.opener kind) lead (written ++ read) u written'
      gap rest := by
  obtain ⟨rfl, ⟨_, ht, hopener⟩ | ⟨ht, -⟩ | ⟨ht, -⟩ | ⟨_, ht, -⟩⟩ := token_body hbody h
  · cases ht
    obtain ⟨keyword, blanks, -, rfl, hk, hblanks, hne, hvisible⟩ := inAnyCase_of_readOpener hopener
    have hnil : read = [] := by
      cases read with
      | nil => rfl
      | cons c read =>
        have hc := hvisible c _ rfl
        rw [hread.head] at hc
        cases hc
    subst hnil
    have hmore : AllBlank (blanks ++ u.takeWhile isBlank) := by
      intro c hc
      rcases List.mem_append.1 hc with hc | hc
      · exact hblanks c hc
      · exact allBlank_takeWhile u c hc
    refine ⟨'#' :: '{' :: (keyword ++ (blanks ++ u.takeWhile isBlank)), [], u.dropWhile isBlank,
      ?_, .nil, absurd rfl, ⟨u.takeWhile isBlank, by simp, List.takeWhile_append_dropWhile.symm⟩,
      by simp⟩
    have hscan := ofSource_body hbody (readFirst_opener hk hmore (by simp [hne])
      (startsVisible_dropWhile u))
    simpa using hscan
  all_goals cases ht

/-- Literal text takes in what is literal text. -/
theorem again_text (hbody : place.IsBody)
    (h : ofSource place.admitted (lead ++ (written ++ left)) = .token .text lead written left)
    (hhash : ∀ s v, written = s ++ ['#'] → u ≠ '{' :: v) :
    ∃ written' gap rest, Again place.admitted next .text lead written u written' gap rest := by
  obtain ⟨rfl, pieces, hne, rfl, hfit⟩ := token_text hbody h
  obtain ⟨pieces', more, rest, hw, rfl, hfit'⟩ := hfit.reread hhash
  have hne' : pieces' ≠ [] := by
    rintro rfl
    exact (token_append h).1 (List.append_eq_nil_iff.1 hw.symm).1
  refine ⟨PieceForm.writtenAll pieces', [], rest, ?_, .nil, absurd rfl,
    ⟨more, by simpa using hw, rfl⟩, fun _ => hfit'.endsText⟩
  have hscan := ofSource_body hbody (readFirst_text hne' hfit')
  rw [hw] at hscan ⊢
  simpa using hscan

/-- The content of an indexer takes in everything up to a bracket. -/
theorem again_index (h : ofSource [.index] (lead ++ (written ++ (read ++ left))) =
      .token t lead written (read ++ left)) (hread : AllBlank read) :
    ∃ written' gap rest, Again [.index] next t lead (written ++ read) u written' gap rest := by
  obtain ⟨rfl, rfl, -, hne, hwritten, hbracket⟩ := token_index h
  have hnil : read = [] := by
    cases read with
    | nil => rfl
    | cons c read =>
      have hc := hread.head
      rw [hbracket c _ rfl] at hc
      exact absurd hc (by decide)
  subst hnil
  have hall : ∀ c ∈ written, decide (c ≠ ']') = true := by
    intro c hc
    simpa using ne_of_mem_of_not_mem hc hwritten
  refine ⟨written ++ u.takeWhile (· ≠ ']'), [], u.dropWhile (· ≠ ']'), ?_, .nil, absurd rfl,
    ⟨u.takeWhile (· ≠ ']'), by simp, List.takeWhile_append_dropWhile.symm⟩, by simp⟩
  have hread : Terminal.index.read (written ++ u) =
      some (written ++ u.takeWhile (· ≠ ']'), u.dropWhile (· ≠ ']')) := by
    refine Terminal.read_index_iff.2 ⟨?_, by simp [hne]⟩
    rw [List.takeWhile_append_of_pos hall, List.dropWhile_append_of_pos hall]
  simpa using ofSource_of_readFirst (Terminal.readFirst_cons_some [] hread)

/-- A token that is kept is found again as it is. -/
theorem again_of_keeps (h : ofSource place.admitted (lead ++ (written ++ (read ++ left))) =
      .token t lead written (read ++ left)) (hread : Skips next read left) (ht : t ≠ .text)
    (hkeeps : t.Keeps written (read ++ left) (read ++ u)) :
    ∃ written' gap rest, Again place.admitted next t lead (written ++ read) u written' gap rest :=
  ⟨written, read, u, by simpa using rescan h hkeeps, hread.blank, hread.skips, ⟨[], by simp⟩,
    fun h => absurd h ht⟩

end Scan

/-! ## Up to a halt and on -/

namespace Reading

/-- The kind of the first token from an offset on, if there is one before reading comes to a
    halt. -/
def firstFrom (r : Reading) (n : Nat) (before s : List Char) : Option Terminal :=
  ((r.halt (.after before) s).tokens.find? fun t => (n : Int) ≤ t.start.offset).map Token.terminal

variable {r r' last : Reading} {before before' s lead written read left rest u : List Char}
  {t : Terminal} {n : Nat} {final : Reading → Prop}

theorem offset_start (t : Terminal) (before lead written : List Char) :
    (n : Int) ≤ (Token.mk t (.after before) lead written).start.offset ↔
      n ≤ (before ++ lead).length := by
  rw [Token.start_mk_after, Position.after, Int.ofNat_le]

/-- Tokens before the offset do not count. -/
theorem firstFrom_before (hscan : Scan.ofSource r.place.admitted s = .token t lead written rest)
    (hshift : r.shift ⟨t, .after before, lead, written⟩ rest.head? = some r')
    (hlt : (before ++ lead).length < n) :
    r.firstFrom n before s = r'.firstFrom n (before ++ lead ++ written) rest := by
  rw [firstFrom, halt_token hscan hshift, List.find?_cons_of_neg]
  · rfl
  · simp only [decide_eq_true_eq, offset_start]
    omega

/-- A token from the offset on is the first one. -/
theorem firstFrom_here (hscan : Scan.ofSource r.place.admitted s = .token t lead written rest)
    (hshift : r.shift ⟨t, .after before, lead, written⟩ rest.head? = some r')
    (hle : n ≤ (before ++ lead).length) : r.firstFrom n before s = some t := by
  rw [firstFrom, halt_token hscan hshift, List.find?_cons_of_pos]
  · rfl
  · simpa only [decide_eq_true_eq, offset_start] using hle

/-- Where the source ends, no token comes. -/
theorem firstFrom_finish (n : Nat) (before : List Char)
    (hscan : Scan.ofSource r.place.admitted s = .finish lead) : r.firstFrom n before s = none := by
  rw [firstFrom, halt_finish _ hscan]
  rfl

/-- Reading on after a token that is found and fits. -/
theorem Reaches.after_token (h : r.Reaches before s final)
    (hscan : Scan.ofSource r.place.admitted s = .token t lead written rest)
    (hshift : r.shift ⟨t, .after before, lead, written⟩ rest.head? = some r') :
    r'.Reaches (before ++ lead ++ written) rest final := by
  obtain ⟨rf, p, hrun, hfinal⟩ := h
  exact ⟨rf, p, (run_token_after before hscan hshift).symm.trans hrun, hfinal⟩

theorem place_of_shift_inWord {p : Position} {next : Option Char}
    (h : r.shift ⟨.inWord, p, lead, written⟩ next = some r') :
    ∃ start enumerator, r.place = .afterEnumerator start enumerator := by
  obtain ⟨blocks, nodes, place⟩ := r
  cases place <;> cases h
  exact ⟨_, _, rfl⟩

/-- Only literal text leads to a state after literal text. -/
theorem terminal_of_afterText {p : Position} {next : Option Char}
    (h : r.shift ⟨t, p, lead, written⟩ next = some r') (htext : r'.AfterText = true) :
    t = .text := by
  obtain ⟨blocks, nodes, place⟩ := r
  cases place with
  | opening | inside | between =>
    cases t with
    | text => rfl
    | opener kind => cases kind <;> cases h <;> cases htext
    | closer kind => cases (afterText_leave h).symm.trans htext
    | substitution => cases h; cases htext
    | _ => cases h
  | afterName goal | afterIndexer goal =>
    cases t with
    | rightBrace | bar => cases goal <;> cases h <;> cases htext
    | dot | leftBracket => cases h; cases htext
    | _ => cases h
  | _ => cases t <;> cases h <;> cases htext

/-- Where the word may stand, it is read only after a loop variable. -/
theorem place_of_reaches_word {d : Char} {v : List Char}
    (hfollowers : r.place.admitted = Scan.followers) (hlead : AllBlank lead)
    (hd : isBlank d = true) (hreach : r.Reaches before (lead ++ 'i' :: 'n' :: d :: v) final) :
    ∃ start enumerator, r.place = .afterEnumerator start enumerator := by
  have hblank : AllBlank [d] := List.forall_mem_singleton.2 hd
  have hscanIn := Scan.ofSource_inWord v hlead hblank (List.cons_ne_nil d [])
  rcases hreach.next with ⟨_, hscan, -⟩ | ⟨_, _, _, _, _, hscan, hshift, -⟩
  · rw [hfollowers] at hscan
    cases hscan.symm.trans hscanIn
  · rw [hfollowers] at hscan
    cases hscan.symm.trans hscanIn
    exact place_of_shift_inWord hshift

/-- The name at a halt is found again, since its end does not turn into the word after a loop
    variable: in other places that would not fit, and in this one it is excluded. -/
theorem again_name (hscan : Scan.ofSource r.place.admitted (lead ++ (written ++ (read ++ left))) =
      .token .name lead written (read ++ left))
    (hshift : r.shift ⟨.name, .after before, lead, written⟩ (read ++ left).head? = some r')
    (hskips : Scan.Skips r'.place.admitted read left)
    (hu : r'.Undisturbed (before ++ (lead ++ (written ++ read))) u)
    (hreach : r.Reaches before (lead ++ (written ++ (read ++ u))) final) :
    ∃ written' gap rest, Scan.Again r.place.admitted r'.place.admitted .name lead
      (written ++ read) u written' gap rest := by
  have hplace := Place.admitted_of_name (Scan.token_mem hscan)
  rw [hplace] at hscan ⊢
  obtain ⟨-, -, hlead, hname⟩ := Scan.token_name hscan
  have hskip : Scan.SkipsBlanks r'.place.admitted := by
    rw [admitted_shift_name hshift]
    simp [Scan.SkipsBlanks, Scan.followers]
  obtain ⟨name', rest, hs, hname', hcases⟩ := hname.reread hskips.blank u
  have hscan' : Scan.ofSource [.name] (lead ++ ((written ++ read) ++ u)) =
      .token .name lead name' rest := by
    rw [List.append_assoc, hs]
    exact Scan.ofSource_name hlead hname'
  have hs' : (written ++ read) ++ u = name' ++ rest := by rw [← hs, List.append_assoc]
  rcases hcases with ⟨gap, hgap, rfl⟩ | ⟨more, rfl⟩ | ⟨c, word, rfl, rfl, rfl, hc, hends, hword⟩
  · refine ⟨name', gap, u, hscan', hgap, fun _ => hskip, ⟨[], ?_, rfl⟩, by simp⟩
    rw [← List.append_assoc] at hs'
    simpa using (List.append_cancel_right hs').symm
  · refine ⟨name', [], rest, hscan', .nil, absurd rfl, ⟨more, ?_, rfl⟩, by simp⟩
    rw [← List.append_assoc] at hs'
    simpa using (List.append_cancel_right hs').symm
  · -- Now a blank and the word come next.
    obtain ⟨r'', hshift'', halike⟩ := (Alike.refl r).shift hshift (.after before) lead name'
      (c :: (word ++ u)).head?
    rw [← hplace] at hscan'
    have hnext := Reaches.after_token (by simpa using hreach) hscan' hshift''
    have hin : ∃ d s, word ++ u = 'i' :: 'n' :: d :: s ∧ isBlank d = true := by
      rcases hends with ⟨_, hbar⟩ | hin
      · rcases hword with ⟨rfl, -⟩ | ⟨rfl, -⟩ <;> cases hbar
      · exact hin
    obtain ⟨d, v, hin, hd⟩ := hin
    rw [hin] at hnext
    obtain ⟨start, enumerator, hplace'⟩ := place_of_reaches_word (admitted_shift_name hshift'')
      (List.forall_mem_singleton.2 hc) hd hnext
    have hafter : ∃ start enumerator, r'.place = .afterEnumerator start enumerator := by
      have halike := halike.place
      rw [hplace'] at halike
      cases hr' : r'.place <;> rw [hr'] at halike <;> cases halike
      exact ⟨_, _, rfl⟩
    obtain ⟨start, enumerator, hafter⟩ := hafter
    obtain ⟨hi, hn⟩ := hu.word start enumerator hafter (before ++ lead ++ name') c word
      (by simp) hc
    rcases hword with ⟨hw, v, hv⟩ | ⟨hw, d, v, hv, hd⟩
    · exact absurd hv (hi hw v)
    · rw [hn hw d v hv] at hd
      cases hd

/-- The opening of a substitution stays one. -/
theorem Undisturbed.substitution (hu : last.Undisturbed (before ++ (lead ++ (written ++ read))) u)
    (hscan : Scan.ofSource r.place.admitted (lead ++ (written ++ (read ++ left))) =
      .token .substitution lead written (read ++ left)) :
    (∀ v, read ++ u ≠ '/' :: v) ∧ ¬StartsBlock (read ++ u) := by
  have hbody := Place.isBody_of_mem (Scan.token_mem hscan) (by decide)
  obtain ⟨hslash, hblock⟩ := Scan.token_substitution hbody hscan
  have hwritten : written = ['#', '{'] := by
    obtain ⟨-, ⟨_, ht, -⟩ | ⟨ht, -⟩ | ⟨-, hwritten, -⟩ | ⟨_, ht, -⟩⟩ := Scan.token_body hbody hscan
    · cases ht
    · cases ht
    · exact hwritten
    · cases ht
  obtain ⟨hfresh, hstarts⟩ := hu.tag (before ++ lead) read (by simp [hwritten])
  refine ⟨?_, fun h => hblock ((hstarts h).append left)⟩
  intro v hv
  cases read with
  | nil => exact hfresh rfl v hv
  | cons c read =>
    cases hv
    exact hslash _ rfl

/-- The last token before a halt is found again. -/
theorem again_here (hscan : Scan.ofSource r.place.admitted (lead ++ (written ++ (read ++ left))) =
      .token t lead written (read ++ left))
    (hshift : r.shift ⟨t, .after before, lead, written⟩ (read ++ left).head? = some r')
    (hskips : Scan.Skips r'.place.admitted read left)
    (hu : r'.Undisturbed (before ++ (lead ++ (written ++ read))) u)
    (hreach : r.Reaches before (lead ++ (written ++ (read ++ u))) final) :
    ∃ written' gap rest, Scan.Again r.place.admitted r'.place.admitted t lead (written ++ read) u
      written' gap rest := by
  have hmem := Scan.token_mem hscan
  have hkept : t ≠ .text → (t = .substitution → (∀ v, read ++ u ≠ '/' :: v) ∧
      ¬StartsBlock (read ++ u)) → (t ≠ .name ∧ t ≠ .index ∧ ∀ kind, t ≠ .opener kind) →
      ∃ written' gap rest, Scan.Again r.place.admitted r'.place.admitted t lead (written ++ read) u
        written' gap rest := by
    rintro htext hsubstitution ⟨hname, hindex, hopener⟩
    exact Scan.again_of_keeps hscan hskips htext
      ((Halts.here hskips : r'.Halts before read left r').keeps hscan hshift
        (fun _ kind h => absurd h (hopener kind)) hsubstitution (fun h => absurd h hname)
        (fun h => absurd h htext) fun h => absurd h hindex)
  cases t with
  | name => exact again_name hscan hshift hskips hu hreach
  | opener kind =>
    exact Scan.again_opener (Place.isBody_of_mem hmem (by cases kind <;> decide)) hscan hskips.blank
  | index =>
    rw [Place.admitted_of_index hmem] at hscan ⊢
    exact Scan.again_index hscan hskips.blank
  | text =>
    have hbody := Place.isBody_of_mem hmem (by decide)
    have hbetween : r'.place = .between := by
      obtain ⟨blocks, nodes, place⟩ := r
      cases place <;> cases hshift <;> rfl
    obtain rfl : read = [] := by
      by_contra hne
      exact (hskips.skips hne).1 (by simp [hbetween, Place.admitted, Terminal.nodeStarts])
    simp only [List.nil_append, List.append_nil] at hscan hu ⊢
    refine Scan.again_text hbody hscan fun s v hs => hu.hash hbetween (before ++ lead ++ s) v ?_
    rw [hs]
    simp
  | substitution =>
    refine hkept (by simp) (fun _ => ?_) ⟨by simp, by simp, by simp⟩
    exact hu.substitution hscan
  | _ => exact hkept (by simp) (by simp) ⟨by simp, by simp, by simp⟩

/-- With something else after what has been read up to a halt, reading gets to a state like the one
    at the halt. The tokens that it has taken start before the given offset, and the next one does
    not. -/
structure GetsPast (r last : Reading) (n : Nat) (before s u : List Char) (final : Reading → Prop)
    (r' : Reading) (before' gap rest : List Char) : Prop where
  alike : last.Alike r'
  blank : AllBlank gap
  skips : gap ≠ [] → Scan.SkipsBlanks r'.place.admitted
  past : n ≤ (before' ++ gap).length
  more : ∃ more, u = more ++ rest
  reaches : r'.Reaches before' (gap ++ rest) final
  first : r.firstFrom n before s = r'.firstFrom n before' (gap ++ rest)
  ends : r'.AfterText = true → EndsText (gap ++ rest)

/-- What is read of a token and up to a halt somewhere after it is read again. -/
theorem Halts.getsPast_after (hhalts : r'.Halts before' read left last)
    (hbefore : before' = before ++ lead ++ written)
    (hscan : Scan.ofSource r.place.admitted (lead ++ (written ++ (read ++ left))) =
      .token t lead written (read ++ left))
    (hshift : r.shift ⟨t, .after before, lead, written⟩ (read ++ left).head? = some r')
    (hn : (before ++ (lead ++ (written ++ read))).length = n)
    (hu : last.Undisturbed (before ++ (lead ++ (written ++ read))) u)
    (hreach : r.Reaches before (lead ++ (written ++ (read ++ u))) final) :
    ∃ r'' before'' gap rest, r.GetsPast last n before (lead ++ (written ++ (read ++ u))) u final
      r'' before'' gap rest := by
  induction hhalts generalizing r before lead written t with
  | here skips =>
    obtain ⟨written', gap, rest, hagain, hblank, hskip, ⟨more, hw, hmore⟩, hends⟩ :=
      again_here hscan hshift skips hu hreach
    rw [List.append_assoc] at hagain
    obtain ⟨r'', hshift'', halike⟩ := (Alike.refl r).shift hshift (.after before) lead written'
      (gap ++ rest).head?
    refine ⟨r'', _, gap, rest, halike, hblank, halike.admitted ▸ hskip, ?_, ⟨more, hmore⟩,
      hreach.after_token hagain hshift'', firstFrom_before hagain hshift'' (start_lt hscan hn), ?_⟩
    · have := congrArg List.length hw
      simp only [List.length_append] at this hn ⊢
      omega
    · intro htext
      exact hends (terminal_of_afterText hshift'' htext)
  | @onward r' r₂ last _ lead₂ written₂ read left t₂ scan shift halts ih =>
    subst hbefore
    have hscan' := halts.rescan (u := u) scan shift hscan hshift fun ht => by
      subst ht
      exact hu.substitution hscan
    have hhead : ∀ v, (lead₂ ++ (written₂ ++ read) ++ v).head? =
        (lead₂ ++ (written₂ ++ read)).head? := by
      intro v
      rw [List.head?_append_of_ne_nil _ (by simp [(Scan.token_append scan).1])]
    rw [hhead left, ← hhead u] at hshift
    have hnext := hreach.after_token hscan' hshift
    obtain ⟨r'', before'', gap, rest, h⟩ := ih rfl scan shift (by simpa using hn)
      (by simpa using hu) (by simpa using hnext)
    have hfirst := firstFrom_before hscan' hshift (start_lt hscan hn)
    refine ⟨r'', before'', gap, rest, { h with first := ?_ }⟩
    rw [hfirst, ← h.first]
    simp only [List.append_assoc]

/-- What is read up to a halt is read again. -/
theorem Halts.getsPast (hhalts : r.Halts before read left last) (htext : r.AfterText = false)
    (hn : (before ++ read).length = n) (hu : last.Undisturbed (before ++ read) u)
    (hreach : r.Reaches before (read ++ u) final) :
    ∃ r' before' gap rest, r.GetsPast last n before (read ++ u) u final r' before' gap rest := by
  cases hhalts with
  | here skips =>
    refine ⟨r, before, read, u, .refl r, skips.blank, skips.skips, hn.ge, ⟨[], rfl⟩, hreach, rfl,
      ?_⟩
    intro h
    cases htext.symm.trans h
  | onward scan shift halts =>
    obtain ⟨r', before', gap, rest, h⟩ :=
      halts.getsPast_after rfl scan shift hn hu (by simpa using hreach)
    exact ⟨r', before', gap, rest, by simpa using h⟩

end Reading

end Stencil
