-- SUMMARY: The bounds that settings give to a cache are positive unless a variable says otherwise.
import Stencil.Settings.Argument

/-! # Positive bounds

A cache with a bound of zero or less keeps nothing. An argument for a bound is refused unless it is
greater than zero, and so are the defaults, but what is read from a variable is taken as it is. So a
bound that is not positive has one origin: there is no argument for it, and its variable spells out
that very number.
-/

namespace Stencil

/-- What a check lets through has the property that is checked. -/
theorem of_checked {α : Type} {p : α → Prop} [DecidablePred p] {converted : Except Refusal α}
    {refusal : Refusal} {x : α}
    (h : (converted >>= fun y => if p y then .ok y else .error refusal) = .ok x) : p x := by
  cases converted with
  | error r => cases h
  | ok y =>
    simp only [bind, Except.bind] at h
    split at h
    · cases h
      assumption
    · cases h

/-- No argument is accepted as a bound that is not greater than zero. -/
theorem Argument.toPositiveReal_pos {a : Argument} {x : Float} (h : a.toPositiveReal = .ok x) :
    0 < x :=
  of_checked (p := fun x => 0 < x) h

theorem Argument.toPositiveInteger_pos {a : Argument} {n : Int}
    (h : a.toPositiveInteger = .ok n) : 0 < n :=
  of_checked (p := fun n => 0 < n) h

/-! ## Variables -/

/-- What is read is what the variable spells out, or the default if the variable is not set. -/
structure ReadsTo {α : Type} (Spells : String → α → Prop) (default : α)
    (setting? : Option String) (read : Except VariableError α) : Prop where
  unset : setting? = none → read = .ok default
  set : ∀ text, setting? = some text → ∀ x, read = .ok x ↔ Spells text x

namespace Environment

/-- A real setting is its default, or what its variable is read to. -/
theorem readReal_readsTo (default : Float) (setting? : Option String) :
    ReadsTo (fun text x => Numeral.looseReal? text = some x) default setting?
      (readReal default setting?) where
  unset h := by rw [h, readReal]
  set text h x := by
    rw [h, readReal]
    split <;> simp_all

theorem readInteger_readsTo (default : Int) (setting? : Option String) :
    ReadsTo (fun text n => Numeral.looseInteger text = .ok n) default setting?
      (readInteger default setting?) where
  unset h := by rw [h, readInteger]
  set text h n := by
    rw [h, readInteger]
    split <;> simp_all

end Environment

/-! ## Settings -/

theorem exists_of_bind {ε α β : Type} {first : Except ε α} {next : α → Except ε β} {y : β}
    (h : first >>= next = .ok y) : ∃ x, first = .ok x ∧ next x = .ok y := by
  cases first with
  | error e => cases h
  | ok x => exact ⟨x, rfl, h⟩

/-- A setting comes from its argument, or else from what is read. -/
theorem settingFrom_eq_ok {α : Type} {convert : Argument → Except Refusal α}
    {read : Except VariableError α} {argument : Option Argument} {x : α}
    (h : settingFrom convert read argument = .ok (.ok x)) :
    (∃ a, argument = some a ∧ convert a = .ok x) ∨ argument = none ∧ read = .ok x := by
  unfold settingFrom at h
  split at h
  · next a => exact .inl ⟨a, rfl, Except.ok.inj h⟩
  · split at h
    · obtain rfl := Except.ok.inj (Except.ok.inj h)
      exact .inr ⟨rfl, rfl⟩
    · cases h

/-- Where arguments and the default have a property, only a variable is the origin of a setting
    that lacks it. -/
theorem settingFrom_lacks_iff {α : Type} {p : α → Prop} {convert : Argument → Except Refusal α}
    {Spells : String → α → Prop} {default x : α} {setting? : Option String}
    {read : Except VariableError α} {argument : Option Argument}
    (hconvert : ∀ a x, convert a = .ok x → p x) (hdefault : p default)
    (hread : ReadsTo Spells default setting? read)
    (h : settingFrom convert read argument = .ok (.ok x)) :
    ¬p x ↔ argument = none ∧ ∃ text y, setting? = some text ∧ Spells text y ∧ ¬p y := by
  constructor
  · intro hx
    rcases settingFrom_eq_ok h with ⟨a, -, ha⟩ | ⟨hnone, hok⟩
    · exact absurd (hconvert a x ha) hx
    · refine ⟨hnone, ?_⟩
      cases hvariable : setting? with
      | none =>
        obtain rfl := Except.ok.inj ((hread.unset hvariable).symm.trans hok)
        exact absurd hdefault hx
      | some text => exact ⟨text, x, rfl, (hread.set text hvariable x).1 hok, hx⟩
  · rintro ⟨rfl, text, y, hvariable, hspells, hy⟩
    rcases settingFrom_eq_ok h with ⟨a, ha, -⟩ | ⟨-, hok⟩
    · cases ha
    · obtain rfl := Except.ok.inj (((hread.set text hvariable y).2 hspells).symm.trans hok)
      exact hy

namespace Settings

variable {a : Arguments} {e : Environment} {s : Settings}

/-- Settings are filled if every one of them is. -/
theorem of_ofArguments (h : ofArguments a e = .ok s) :
    settingFrom Argument.toPositiveReal e.readSliding a.sliding = .ok (.ok s.sliding) ∧
      settingFrom Argument.toPositiveInteger e.readMaxEntries a.maxEntries =
        .ok (.ok s.maxEntries) ∧
      settingFrom Argument.toPositiveInteger e.readMaxSize a.maxSize = .ok (.ok s.maxSize) := by
  obtain ⟨enabled, -, h⟩ := exists_of_bind h
  obtain ⟨sliding, hsliding, h⟩ := exists_of_bind h
  obtain ⟨maxEntries, hentries, h⟩ := exists_of_bind h
  obtain ⟨maxSize, hsize, h⟩ := exists_of_bind h
  split at h
  · cases h
    exact ⟨hsliding, hentries, hsize⟩
  · cases h

/-- In settings that have been filled, each of the three bounds is greater than zero, with one
    exception: there is no argument for it, and its variable spells out a number that is not. -/
theorem not_positive_iff (h : ofArguments a e = .ok s) :
    (¬0 < s.sliding ↔ a.sliding = none ∧
      ∃ text x, e.sliding = some text ∧ Numeral.looseReal? text = some x ∧ ¬0 < x) ∧
    (¬0 < s.maxEntries ↔ a.maxEntries = none ∧
      ∃ text n, e.maxEntries = some text ∧ Numeral.looseInteger text = .ok n ∧ ¬0 < n) ∧
    (¬0 < s.maxSize ↔ a.maxSize = none ∧
      ∃ text n, e.maxSize = some text ∧ Numeral.looseInteger text = .ok n ∧ ¬0 < n) := by
  obtain ⟨hsliding, hentries, hsize⟩ := of_ofArguments h
  have hinteger : ∀ a n, Argument.toPositiveInteger a = .ok n → 0 < n :=
    fun _ _ => Argument.toPositiveInteger_pos
  refine ⟨?_, ?_, ?_⟩
  · exact settingFrom_lacks_iff (fun _ _ => Argument.toPositiveReal_pos) (by decide)
      (Environment.readReal_readsTo 600 e.sliding) hsliding
  · exact settingFrom_lacks_iff hinteger (by decide)
      (Environment.readInteger_readsTo 10000 e.maxEntries) hentries
  · exact settingFrom_lacks_iff hinteger (by decide)
      (Environment.readInteger_readsTo (20 * 1024 * 1024) e.maxSize) hsize

/-- One bound from a variable, one from an argument and one from its default. -/
theorem not_positive_iff_mixed :
    ∃ s, ofArguments { maxSize := some (.text "0_5") } { maxEntries := some " -3" } = .ok s ∧
      0 < s.sliding ∧ ¬0 < s.maxEntries ∧ 0 < s.maxSize := by
  have hok : (ofArguments { maxSize := some (.text "0_5") } { maxEntries := some " -3" }).toBool =
      true := by
    decide +kernel
  cases h : ofArguments { maxSize := some (.text "0_5") } { maxEntries := some " -3" } with
  | error f =>
    rw [h] at hok
    cases hok
  | ok s =>
    obtain ⟨hsliding, hentries, hsize⟩ := not_positive_iff h
    refine ⟨s, rfl, ?_, ?_, ?_⟩
    · refine Decidable.of_not_not fun hnot => ?_
      obtain ⟨-, _, _, hvariable, -⟩ := hsliding.1 hnot
      cases hvariable
    · exact hentries.2 ⟨rfl, " -3", -3, rfl, rfl, by decide⟩
    · refine Decidable.of_not_not fun hnot => ?_
      obtain ⟨hargument, -⟩ := hsize.1 hnot
      cases hargument

/-- A variable that nobody checks: the cache may not have a single entry. -/
theorem not_positive_zero :
    (ofArguments {} { maxEntries := some "0" }).toOption.map (fun s => s.maxEntries) = some 0 := by
  decide +kernel

end Settings

end Stencil
