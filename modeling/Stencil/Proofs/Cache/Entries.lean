-- SUMMARY: What look-ups, storing, expiry and eviction do to the entries of a cache.
import Mathlib.Data.List.TakeWhile
import Stencil.Cache.Basic

/-! # Entries of a cache

Each operation of a cache is described by what it does to the entries. A look-up or a store meets
one of three cases: there is no entry for the source, it has expired, or it is used. Expiry and
eviction leave an end of the entries, the most recently used ones.
-/

namespace Stencil.Cache

variable {τ α : Type}

/-! ## Finding an entry -/

theorem mem_of_entry_eq {c : Cache τ α} {source : String} {e : Entry τ α}
    (h : c.entry? source = some e) : e ∈ c.entries :=
  List.mem_of_find?_eq_some h

theorem source_of_entry_eq {c : Cache τ α} {source : String} {e : Entry τ α}
    (h : c.entry? source = some e) : e.source = source := by
  simpa using List.find?_some h

theorem source_ne_of_entry_eq_none {c : Cache τ α} {source : String} (h : c.entry? source = none)
    {e : Entry τ α} (he : e ∈ c.entries) : e.source ≠ source := by
  simpa using List.find?_eq_none.1 h e he

/-- The entry for a source among the others. -/
theorem exists_split_of_entry_eq {c : Cache τ α} {source : String} {e : Entry τ α}
    (h : c.entry? source = some e) :
    ∃ earlier later, c.entries = earlier ++ e :: later ∧
      c.entries.eraseP (·.source = e.source) = earlier ++ later := by
  obtain rfl := source_of_entry_eq h
  obtain ⟨-, earlier, later, hsplit, hearlier⟩ := List.find?_eq_some_iff_append.1 h
  refine ⟨earlier, later, hsplit, ?_⟩
  rw [hsplit, List.eraseP_append_right]
  · simp
  · simpa using hearlier

/-! ## Parts of a cache -/

variable (c : Cache τ α) (e : Entry τ α)

@[simp] theorem remove_entries :
    (c.remove e).entries = c.entries.eraseP (·.source = e.source) := rfl

@[simp] theorem remove_size : (c.remove e).size = c.size - e.size := rfl

@[simp] theorem remove_bounds : (c.remove e).bounds = c.bounds := rfl

@[simp] theorem touch_entries (now : τ) :
    (c.touch e now).entries =
      c.entries.eraseP (·.source = e.source) ++ [{ e with lastAccess := now }] := rfl

@[simp] theorem touch_size (now : τ) : (c.touch e now).size = c.size := rfl

@[simp] theorem touch_bounds (now : τ) : (c.touch e now).bounds = c.bounds := rfl

@[simp] theorem insert_entries (source : String) (value : α) (now : τ) :
    (c.insert source value now).entries = c.entries ++ [⟨source, value, source.length, now⟩] := rfl

@[simp] theorem insert_size (source : String) (value : α) (now : τ) :
    (c.insert source value now).size = c.size + source.length := rfl

@[simp] theorem totalSize_nil : totalSize ([] : List (Entry τ α)) = 0 := rfl

@[simp] theorem totalSize_cons (entries : List (Entry τ α)) :
    totalSize (e :: entries) = e.size + totalSize entries := rfl

@[simp] theorem totalSize_append (entries entries' : List (Entry τ α)) :
    totalSize (entries ++ entries') = totalSize entries + totalSize entries' := by
  induction entries with
  | nil => simp
  | cons e entries ih => simp [ih, Int.add_assoc]

/-- The total size does not depend on the order of use. -/
theorem totalSize_perm {entries entries' : List (Entry τ α)} (h : entries.Perm entries') :
    totalSize entries = totalSize entries' := by
  induction h with
  | nil => rfl
  | cons e _ ih => rw [totalSize_cons, totalSize_cons, ih]
  | swap e e' entries =>
    simp only [totalSize_cons]
    omega
  | trans _ _ ih ih' => exact ih.trans ih'

theorem totalSize_nonneg (entries : List (Entry τ α)) : 0 ≤ totalSize entries := by
  induction entries with
  | nil => exact Int.le_refl 0
  | cons e entries ih =>
    rw [totalSize_cons]
    omega

variable {c e} in
/-- The entries other than the one for a source, if no source has two. -/
theorem exists_rest_of_nodup (hnodup : (c.entries.map (·.source)).Nodup) {source : String}
    (he : c.entry? source = some e) :
    ∃ rest, c.entries.eraseP (·.source = e.source) = rest ∧ c.entries.Perm (e :: rest) ∧
      rest.Sublist c.entries ∧ ∀ d ∈ rest, d.source ≠ e.source := by
  obtain ⟨earlier, later, hsplit, herase⟩ := exists_split_of_entry_eq he
  have hperm : c.entries.Perm (e :: (earlier ++ later)) := by
    rw [hsplit]
    exact List.perm_middle
  refine ⟨earlier ++ later, herase, hperm, ?_, ?_⟩
  · rw [hsplit]
    exact (List.Sublist.refl earlier).append (List.sublist_cons_self e later)
  · have hnodup' := (hperm.map (·.source)).nodup_iff.1 hnodup
    intro d hd heq
    exact (List.nodup_cons.1 hnodup').1 (List.mem_map.2 ⟨d, hd, heq⟩)

/-! ## Eviction -/

/-- The entries are neither too many nor too large. -/
def Fit (bounds : Bounds τ) (entries : List (Entry τ α)) : Prop :=
  (entries.length : Int) ≤ bounds.maxEntries ∧ totalSize entries ≤ bounds.maxSize

variable {c e}

/-- While the running size is right, being over means that the entries do not fit. -/
theorem isOver_iff (hsize : c.size = totalSize c.entries) :
    c.isOver = true ↔ ¬Fit c.bounds c.entries := by
  simp only [isOver, Fit, hsize, Bool.or_eq_true, decide_eq_true_eq]
  omega

theorem evictFrom_bounds (c : Cache τ α) (n : Nat) (entries : List (Entry τ α)) :
    (c.evictFrom n entries).bounds = c.bounds := by
  induction entries generalizing c n with
  | nil => rfl
  | cons e entries ih =>
    simp only [evictFrom]
    split
    · exact ih _ _
    · rfl

/-- Eviction takes entries from the least recently used end only. -/
theorem evictFrom_suffix (c : Cache τ α) (n : Nat) (entries : List (Entry τ α)) :
    (c.evictFrom n entries).entries <:+ entries := by
  induction entries generalizing c n with
  | nil => exact List.suffix_refl _
  | cons e entries ih =>
    simp only [evictFrom]
    split
    · exact (ih _ _).trans (List.suffix_cons e entries)
    · exact List.suffix_refl _

/-- What eviction leaves is the longest end of the entries that is within the bounds. -/
theorem evictFrom_spec (n : Nat) {entries : List (Entry τ α)} (hsize : c.size = totalSize entries) :
    (c.evictFrom n entries).size = totalSize (c.evictFrom n entries).entries ∧
      ((c.evictFrom n entries).entries = [] ∨
        Fit c.bounds (c.evictFrom n entries).entries) ∧
      ∀ l, l <:+ entries → Fit c.bounds l → l <:+ (c.evictFrom n entries).entries := by
  induction entries generalizing c n with
  | nil => exact ⟨hsize, .inl rfl, fun l hl _ => hl⟩
  | cons e entries ih =>
    have hover := isOver_iff (c := { c with entries := e :: entries }) hsize
    simp only [evictFrom]
    split
    · next h =>
      have hrest : c.size - e.size = totalSize entries := by
        rw [hsize, totalSize_cons]
        omega
      obtain ⟨hsize', hfit, hlongest⟩ :=
        ih (c := { c with entries := e :: entries, size := c.size - e.size }) (n + 1) hrest
      refine ⟨hsize', hfit, ?_⟩
      intro l hl hlfit
      rcases List.suffix_cons_iff.1 hl with rfl | hl
      · exact absurd hlfit (hover.1 h)
      · exact hlongest l hl hlfit
    · next h =>
      have hfit : Fit c.bounds (e :: entries) := by simpa using mt hover.2 h
      exact ⟨hsize, .inr hfit, fun l hl _ => hl⟩

/-- Every entry that goes is counted. -/
theorem evictFrom_evictions (c : Cache τ α) (n : Nat) (entries : List (Entry τ α)) :
    (c.evictFrom n entries).counters.evictions + (c.evictFrom n entries).entries.length =
      c.counters.evictions + n + entries.length := by
  induction entries generalizing c n with
  | nil => rfl
  | cons e entries ih =>
    simp only [evictFrom]
    split
    · rw [ih]
      simp only [List.length_cons]
      omega
    · rfl

theorem evictFrom_expirations (c : Cache τ α) (n : Nat) (entries : List (Entry τ α)) :
    (c.evictFrom n entries).counters.expirations = c.counters.expirations := by
  induction entries generalizing c n with
  | nil => rfl
  | cons e entries ih =>
    simp only [evictFrom]
    split
    · exact ih _ _
    · rfl

/-! ## Expiry -/

variable [Sub τ] [LE τ] [DecidableLE τ] {now : τ}

theorem isExpired_iff : c.isExpired now e = true ↔ c.bounds.sliding ≤ now - e.lastAccess :=
  decide_eq_true_iff

/-- No live entry is among those that expiry drops. -/
theorem mem_dropWhile_isExpired (he : e ∈ c.entries)
    (hlive : ¬c.bounds.sliding ≤ now - e.lastAccess) :
    e ∈ c.entries.dropWhile (c.isExpired now) := by
  rw [← List.takeWhile_append_dropWhile (p := c.isExpired now) (l := c.entries)] at he
  apply (List.mem_append.1 he).resolve_left
  intro htake
  exact hlive (isExpired_iff.1 (List.mem_takeWhile_imp htake))

theorem sweep_bounds (c : Cache τ α) (now : τ) : (c.sweep now).bounds = c.bounds :=
  evictFrom_bounds _ _ _

/-- A sweep keeps none of the expired entries at the front. -/
theorem sweep_suffix (c : Cache τ α) (now : τ) :
    (c.sweep now).entries <:+ c.entries.dropWhile (c.isExpired now) :=
  evictFrom_suffix _ _ _

/-- What sweeping leaves of the entries behind the expired ones is their longest end that is within
    the bounds. -/
theorem sweep_spec (now : τ) (hsize : c.size = totalSize c.entries) :
    (c.sweep now).size = totalSize (c.sweep now).entries ∧
      ((c.sweep now).entries = [] ∨ Fit c.bounds (c.sweep now).entries) ∧
      ∀ l, l <:+ c.entries.dropWhile (c.isExpired now) → Fit c.bounds l →
        l <:+ (c.sweep now).entries := by
  apply evictFrom_spec (c := c.dropExpired now) 0
  have happend := totalSize_append (c.entries.takeWhile (c.isExpired now))
    (c.entries.dropWhile (c.isExpired now))
  rw [List.takeWhile_append_dropWhile] at happend
  simp only [dropExpired, countExpirations]
  omega

/-- Sweeping counts the entries that go as expired or as evicted. -/
theorem sweep_evictions (c : Cache τ α) (now : τ) :
    (c.sweep now).counters.evictions + (c.sweep now).entries.length =
      c.counters.evictions + (c.entries.dropWhile (c.isExpired now)).length :=
  evictFrom_evictions _ _ _

theorem sweep_expirations (c : Cache τ α) (now : τ) :
    (c.sweep now).counters.expirations + (c.entries.dropWhile (c.isExpired now)).length =
      c.counters.expirations + c.entries.length := by
  have hlength := congrArg List.length
    (List.takeWhile_append_dropWhile (p := c.isExpired now) (l := c.entries))
  have hexpirations : (c.sweep now).counters.expirations =
      c.counters.expirations + (c.entries.takeWhile (c.isExpired now)).length :=
    evictFrom_expirations _ _ _
  rw [List.length_append] at hlength
  omega

/-! ## Look-ups and storing -/

/-- The entry for a source is missing, has expired, or is used. -/
theorem lookup_cases (c : Cache τ α) (now : τ) (source : String) :
    (c.entry? source = none ∧ c.lookup now source = (none, c.countMiss)) ∨
    (∃ e, c.entry? source = some e ∧ c.isExpired now e = true ∧
      c.lookup now source = (none, ((c.remove e).countExpirations 1).countMiss)) ∨
    ∃ e, c.entry? source = some e ∧ c.isExpired now e = false ∧
      c.lookup now source = (some e.value, (c.touch e now).countHit) := by
  cases he : c.entry? source with
  | none => exact .inl ⟨rfl, by simp [lookup, he]⟩
  | some e =>
    cases hx : c.isExpired now e with
    | true => exact .inr (.inl ⟨e, rfl, hx, by simp [lookup, he, hx]⟩)
    | false => exact .inr (.inr ⟨e, rfl, hx, by simp [lookup, he, hx]⟩)

/-- What a store does, by the entry that it meets. -/
theorem store_cases (c : Cache τ α) (now : τ) (source : String) (value : α) :
    (c.entry? source = none ∧
      c.store now source value = (value, (c.insert source value now).sweep now)) ∨
    (∃ e, c.entry? source = some e ∧ c.isExpired now e = true ∧
      c.store now source value = (value, ((c.remove e).insert source value now).sweep now)) ∨
    ∃ e, c.entry? source = some e ∧ c.isExpired now e = false ∧
      c.store now source value = (e.value, c.touch e now) := by
  cases he : c.entry? source with
  | none => exact .inl ⟨rfl, by simp [store, he]⟩
  | some e =>
    cases hx : c.isExpired now e with
    | true => exact .inr (.inl ⟨e, rfl, hx, by simp [store, he, hx]⟩)
    | false => exact .inr (.inr ⟨e, rfl, hx, by simp [store, he, hx]⟩)

/-- The cache with a new entry for a source, in place of the one that it has. -/
def renew (c : Cache τ α) (source : String) (value : α) (now : τ) : Cache τ α :=
  (match c.entry? source with
  | none => c
  | some e => c.remove e).insert source value now

omit [Sub τ] [LE τ] [DecidableLE τ] in
/-- The new entry comes after those for the other sources. -/
theorem renew_entries (hnodup : (c.entries.map (·.source)).Nodup) (source : String) (value : α)
    (now : τ) :
    ∃ rest, (c.renew source value now).entries =
        rest ++ [⟨source, value, source.length, now⟩] ∧ rest.Sublist c.entries ∧
      (∀ d ∈ rest, d.source ≠ source) ∧ ∀ d ∈ c.entries, d.source ≠ source → d ∈ rest := by
  unfold renew
  split
  · next he =>
    exact ⟨c.entries, rfl, List.Sublist.refl _, fun d hd => source_ne_of_entry_eq_none he hd,
      fun d hd _ => hd⟩
  · next e he =>
    obtain ⟨rest, herase, hperm, hsub, hne⟩ := exists_rest_of_nodup hnodup he
    obtain rfl := source_of_entry_eq he
    refine ⟨rest, by rw [insert_entries, remove_entries, herase], hsub, hne, ?_⟩
    intro d hd hd_ne
    apply (List.mem_cons.1 (hperm.mem_iff.1 hd)).resolve_left
    rintro rfl
    exact hd_ne rfl

/-- Storing leaves a result alone that has not expired, and renews the entry otherwise. -/
theorem store_cases_renew (c : Cache τ α) (now : τ) (source : String) (value : α) :
    (c.contains now source = false ∧
      c.store now source value = (value, (c.renew source value now).sweep now)) ∨
    ∃ e, c.entry? source = some e ∧ c.isExpired now e = false ∧
      c.store now source value = (e.value, c.touch e now) := by
  rcases c.store_cases now source value with ⟨he, h⟩ | ⟨e, he, hx, h⟩ | hlive
  · exact .inl ⟨by simp [contains, he], by simp [h, renew, he]⟩
  · exact .inl ⟨by simp [contains, he, hx], by simp [h, renew, he]⟩
  · exact .inr hlive

theorem lookup_bounds (c : Cache τ α) (now : τ) (source : String) :
    (c.lookup now source).2.bounds = c.bounds := by
  rcases c.lookup_cases now source with ⟨-, h⟩ | ⟨e, -, -, h⟩ | ⟨e, -, -, h⟩ <;> rw [h] <;> rfl

theorem store_bounds (c : Cache τ α) (now : τ) (source : String) (value : α) :
    (c.store now source value).2.bounds = c.bounds := by
  rcases c.store_cases now source value with ⟨-, h⟩ | ⟨e, -, -, h⟩ | ⟨e, -, -, h⟩ <;> rw [h]
  · exact sweep_bounds _ now
  · exact sweep_bounds _ now
  · rfl

/-- A look-up finds what is contained. -/
theorem lookup_isSome (c : Cache τ α) (now : τ) (source : String) :
    (c.lookup now source).1.isSome = c.contains now source := by
  rcases c.lookup_cases now source with ⟨he, h⟩ | ⟨e, he, hx, h⟩ | ⟨e, he, hx, h⟩
  · simp [h, contains, he]
  · simp [h, contains, he, hx]
  · simp [h, contains, he, hx]

/-! ## Where entries come from -/

omit [Sub τ] [LE τ] [DecidableLE τ] in
/-- Using an entry leaves its source and its value as they are. -/
theorem mem_touch {e d : Entry τ α} (he : e ∈ c.entries) (h : d ∈ (c.touch e now).entries) :
    ∃ d' ∈ c.entries, d'.source = d.source ∧ d'.value = d.value := by
  rw [touch_entries] at h
  rcases List.mem_append.1 h with h | h
  · exact ⟨d, List.mem_of_mem_eraseP h, rfl, rfl⟩
  · obtain rfl := List.mem_singleton.1 h
    exact ⟨e, he, rfl, rfl⟩

/-- A look-up brings in no source and changes no value. -/
theorem mem_lookup {source : String} {d : Entry τ α} (h : d ∈ (c.lookup now source).2.entries) :
    ∃ d' ∈ c.entries, d'.source = d.source ∧ d'.value = d.value := by
  rcases c.lookup_cases now source with ⟨-, hc⟩ | ⟨e, -, -, hc⟩ | ⟨e, he, -, hc⟩
  · rw [hc] at h
    exact ⟨d, h, rfl, rfl⟩
  · rw [hc] at h
    exact ⟨d, List.mem_of_mem_eraseP h, rfl, rfl⟩
  · rw [hc] at h
    exact mem_touch (mem_of_entry_eq he) h

/-- What is left after storing was there before, or is what has been stored. -/
theorem mem_store {source : String} {value : α} {d : Entry τ α}
    (h : d ∈ (c.store now source value).2.entries) :
    (d.source = source ∧ d.value = value) ∨
      ∃ d' ∈ c.entries, d'.source = d.source ∧ d'.value = d.value := by
  have hinsert : ∀ c' : Cache τ α, (∀ e ∈ c'.entries, e ∈ c.entries) →
      d ∈ ((c'.insert source value now).sweep now).entries →
      (d.source = source ∧ d.value = value) ∨
        ∃ d' ∈ c.entries, d'.source = d.source ∧ d'.value = d.value := by
    intro c' hc' hd
    have hd' := (List.dropWhile_suffix _).mem ((sweep_suffix _ now).mem hd)
    rcases List.mem_append.1 hd' with hd' | hd'
    · exact .inr ⟨d, hc' d hd', rfl, rfl⟩
    · obtain rfl := List.mem_singleton.1 hd'
      exact .inl ⟨rfl, rfl⟩
  rcases c.store_cases now source value with ⟨-, hc⟩ | ⟨e, -, -, hc⟩ | ⟨e, he, -, hc⟩
  · rw [hc] at h
    exact hinsert c (fun _ he => he) h
  · rw [hc] at h
    exact hinsert (c.remove e) (fun _ he => List.mem_of_mem_eraseP he) h
  · rw [hc] at h
    exact .inr (mem_touch (mem_of_entry_eq he) h)

/-- What is found belongs to an entry for the source. -/
theorem exists_of_lookup {source : String} {value : α}
    (h : (c.lookup now source).1 = some value) :
    ∃ e ∈ c.entries, e.source = source ∧ e.value = value := by
  rcases c.lookup_cases now source with ⟨-, hc⟩ | ⟨e, -, -, hc⟩ | ⟨e, he, -, hc⟩
  · rw [hc] at h
    cases h
  · rw [hc] at h
    cases h
  · rw [hc] at h
    cases h
    exact ⟨e, mem_of_entry_eq he, source_of_entry_eq he, rfl⟩

/-- What is answered on storing is the value itself or belongs to an entry for the source. -/
theorem store_answer (c : Cache τ α) (now : τ) (source : String) (value : α) :
    (c.store now source value).1 = value ∨
      ∃ e ∈ c.entries, e.source = source ∧ e.value = (c.store now source value).1 := by
  rcases c.store_cases now source value with ⟨-, hc⟩ | ⟨e, -, -, hc⟩ | ⟨e, he, -, hc⟩
  · rw [hc]
    exact .inl rfl
  · rw [hc]
    exact .inl rfl
  · rw [hc]
    exact .inr ⟨e, mem_of_entry_eq he, source_of_entry_eq he, rfl⟩

end Stencil.Cache
