-- SUMMARY: Two templates written one after the other are a template, unless text meets text.
import Stencil.Proofs.Locality
import Stencil.Proofs.Relocation

/-! # Concatenation

What two sources stand for is what they stand for when one is written after the other, as long as
nothing is read across the joint. Literal text is: it would go on in the second source, and a hash
mark at its end would escape a tag there. After a tag, any template may follow, and after literal
text that does not end in a hash mark, any template that starts with a tag.
-/

namespace Stencil

def Segment.isText : Segment → Bool
  | .text .. => true
  | _ => false

theorem Phrase.isText_segment (before : List Char) (phrase : Phrase) :
    (phrase.segment before).isText = false ↔ ¬phrase.IsText := by
  cases phrase with
  | text => simp [segment, Segment.isText, IsText]
  | substitution => simp [segment, Segment.isText, IsText]
  | block head => cases head <;> simp [segment, Segment.isText, IsText]

/-- A tag starts where literal text ends. -/
theorem Phrase.endsText_of_tag {phrase : Phrase} (h : ¬phrase.IsText) (t : List Char) :
    EndsText (phrase.written ++ t) := by
  cases phrase with
  | text => exact absurd trivial h
  | substitution => exact .inr ⟨_, rfl⟩
  | block head => cases head <;> exact .inr ⟨_, by simp [written, HeadForm.written]; rfl⟩

/-- Where the second of two sources is written after the first, its places are moved. -/
theorem moves_ofOffset (s t : List Char) :
    Moves (fun p => .ofOffset (s ++ t) (s.length + p.offset)) s [] t := by
  rintro u v rfl
  have hoffset : (s.length + (Position.after ([] ++ u)).offset).toNat = (s ++ u).length := by
    simp [Position.after]
    omega
  simp only [Position.ofOffset, hoffset, ← List.append_assoc, List.take_left, List.append_nil]

/-- The phrases of a source fit in front of those of another one if the joint between them is
    clean. -/
theorem Phrase.AllFit.join {phrases phrases' : List Phrase} (h : AllFit [] phrases)
    (h' : AllFit [] phrases')
    (hjoint : phrases = [] ∨ (∀ s ∈ (segments [] phrases).getLast?, s.isText = false) ∨
      (writtenAll phrases).getLast? ≠ some '#' ∧
        ∀ s ∈ (segments [] phrases').head?, s.isText = false) :
    AllFit (writtenAll phrases') phrases := by
  rcases hjoint with rfl | hlast | ⟨hhash, hfirst⟩
  · trivial
  · rcases List.eq_nil_or_concat phrases with rfl | ⟨init, last, rfl⟩
    · trivial
    · rw [List.concat_eq_append] at h hlast ⊢
      have htag : ¬last.IsText := by
        rw [← isText_segment ([] ++ writtenAll init)]
        exact hlast _ (by simp [segments_append, segments])
      have hfits := (allFit_append_iff.1 h).2.1
      exact h.concat (Fits.beyond (s := []) _ hfits fun htext => absurd htext htag)
  · refine h.before_tag ?_ hhash
    cases phrases' with
    | nil => exact .inl rfl
    | cons first phrases' =>
      exact endsText_of_tag ((isText_segment [] first).1 (hfirst _ rfl)) _

/-- Two templates make up a third one if the joint between them is clean: a tag stands in front of
    it, or a tag or nothing stands behind it and no hash mark in front. -/
theorem parseTemplate_append {s₁ s₂ : String} {limit : Int} {machine : Machine} {t₁ t₂ : Template}
    (h₁ : parseTemplate s₁ limit machine = .ok t₁) (h₂ : parseTemplate s₂ limit machine = .ok t₂)
    (hjoint : s₁ = "" ∨ (∀ s ∈ t₁.segments.getLast?, s.isText = false) ∨
      s₁.toList.getLast? ≠ some '#' ∧ ∀ s ∈ t₂.segments.head?, s.isText = false) :
    parseTemplate (s₁ ++ s₂) limit machine =
      .ok ⟨t₁.segments ++ Segment.mapPositions
        (fun p => .ofOffset (s₁ ++ s₂).toList (s₁.length + p.offset)) t₂.segments⟩ := by
  obtain ⟨phrases₁, ⟨⟨hw₁, hfits₁⟩, htight₁, hlimit₁, hbuild₁⟩, rfl⟩ := parses_of_parseTemplate h₁
  obtain ⟨phrases₂, ⟨⟨hw₂, hfits₂⟩, htight₂, hlimit₂, hbuild₂⟩, rfl⟩ := parses_of_parseTemplate h₂
  have hnil : s₁ = "" → phrases₁ = [] := by
    rintro rfl
    cases phrases₁ with
    | nil => rfl
    | cons phrase phrases => exact absurd (List.append_eq_nil_iff.1 hw₁).1 hfits₁.1.written_ne
  rw [← hw₁] at hjoint
  have hfits := hfits₁.join hfits₂ (hjoint.imp_left hnil)
  have hderives : Phrase.Derives (s₁ ++ s₂).toList (phrases₁ ++ phrases₂) := by
    refine ⟨?_, Phrase.allFit_append_iff.2 ⟨by rwa [List.append_nil], hfits₂⟩⟩
    rw [Phrase.writtenAll_append, hw₁, hw₂, String.toList_append]
  have hparses : Phrase.Parses (s₁ ++ s₂).toList limit machine (phrases₁ ++ phrases₂) := by
    refine ⟨hderives, ?_, ?_, ?_⟩
    · rw [Phrase.pathsAll_append]
      exact List.forall_mem_append.2 ⟨htight₁, htight₂⟩
    · rw [Phrase.depthAll_append]
      exact Nat.max_le.2 ⟨hlimit₁, hlimit₂⟩
    · rw [Phrase.depthAll_append]
      exact Nat.max_le.2 ⟨hbuild₁, hbuild₂⟩
  have hmoved := Phrase.segments_moved (hw₂ ▸ moves_ofOffset s₁.toList s₂.toList)
  rw [List.append_nil] at hmoved
  rw [(parseTemplate_of_derives limit machine hderives).1 hparses, Phrase.template,
    Phrase.segments_append, List.nil_append, hw₁, hmoved, hw₂, String.toList_append,
    String.length_toList]
  rfl

theorem parseTemplate_append_greeting : ∃ t₁ t₂, parseTemplate "Dear " = .ok t₁ ∧
    parseTemplate "#{Name} #" = .ok t₂ ∧ parseTemplate ("Dear " ++ "#{Name} #") =
      .ok ⟨t₁.segments ++ Segment.mapPositions
        (fun p => .ofOffset ("Dear " ++ "#{Name} #").toList ("Dear ".length + p.offset))
        t₂.segments⟩ := by
  have hok₁ : (parseTemplate "Dear ").toBool = true := by decide +kernel
  have hok₂ : (parseTemplate "#{Name} #").toOption.any
      (fun t => t.segments.head?.all fun s => !s.isText) = true := by decide +kernel
  cases h₁ : parseTemplate "Dear " with
  | error e =>
    rw [h₁] at hok₁
    cases hok₁
  | ok t₁ =>
    cases h₂ : parseTemplate "#{Name} #" with
    | error e =>
      rw [h₂] at hok₂
      cases hok₂
    | ok t₂ =>
      rw [h₂] at hok₂
      have hfirst : ∀ s ∈ t₂.segments.head?, s.isText = false := by
        intro s hs
        have hall : (t₂.segments.head?.all fun s => !s.isText) = true := hok₂
        rw [Option.mem_def.1 hs] at hall
        simpa using hall
      exact ⟨t₁, t₂, rfl, rfl, parseTemplate_append h₁ h₂ (.inr (.inr ⟨by decide, hfirst⟩))⟩

end Stencil
