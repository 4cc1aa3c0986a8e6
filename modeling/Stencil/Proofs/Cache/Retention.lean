-- SUMMARY: Which sources a cache holds, in terms of what has been asked of it and when.
import Mathlib.Algebra.Order.BigOperators.Group.Finset
import Mathlib.Algebra.Order.Group.Int
import Mathlib.Algebra.Ring.Int.Defs
import Stencil.Proofs.Cache.Recency

/-! # Retention

Under a clock that never goes back, whether a source is in the cache can be told without looking at
the cache: it was touched less than the sliding time ago, and what has been touched since then, the
source included, is within the bounds. The entries are kept in the order of their last touch, so
what has been touched since an entry was is behind it; eviction takes away entries exactly as long
as what is behind them is too much. An entry that is itself too large has itself among what was
touched since, and so is no exception.
-/

namespace Stencil

open Touches

variable {τ α : Type}

/-- The sources are neither too many nor too large. -/
def Bounds.Admits (bounds : Bounds τ) (sources : Finset String) : Prop :=
  (sources.card : Int) ≤ bounds.maxEntries ∧ ∑ s ∈ sources, (s.length : Int) ≤ bounds.maxSize

theorem Bounds.Admits.mono {bounds : Bounds τ} {sources sources' : Finset String}
    (h : bounds.Admits sources) (hsub : sources' ⊆ sources) : bounds.Admits sources' := by
  obtain ⟨hcard, hsum⟩ := h
  constructor
  · have := Finset.card_le_card hsub
    omega
  · refine le_trans ?_ hsum
    exact Finset.sum_le_sum_of_subset_of_nonneg hsub fun _ _ _ => Int.natCast_nonneg _

/-! ## Entries in the order of their last touch -/

/-- The sources of entries. -/
def sourcesOf (entries : List (Entry τ α)) : Finset String := (entries.map (·.source)).toFinset

theorem mem_sourcesOf {entries : List (Entry τ α)} {source : String} :
    source ∈ sourcesOf entries ↔ ∃ e ∈ entries, e.source = source := by
  simp [sourcesOf]

/-- Entries as they are after touches, the last of them not after `now`. -/
structure Aligned [LE τ] (entries : List (Entry τ α)) (touches : Touches τ) (now : τ) : Prop where
  sizes : ∀ e ∈ entries, e.size = e.source.length
  /-- Each entry was last used when its source was last touched. -/
  last : ∀ e ∈ entries, touches.lookup e.source = some e.lastAccess
  order : entries.Pairwise fun e e' => touches.age e'.source < touches.age e.source
  ordered : touches.Ordered
  times_le : ∀ x ∈ touches, x.2 ≤ now

namespace Aligned

section

variable [LE τ] {entries : List (Entry τ α)} {touches : Touches τ} {now : τ}

theorem sublist (h : Aligned entries touches now) {entries' : List (Entry τ α)}
    (hsub : entries'.Sublist entries) : Aligned entries' touches now where
  sizes e he := h.sizes e (hsub.subset he)
  last e he := h.last e (hsub.subset he)
  order := h.order.sublist hsub
  ordered := h.ordered
  times_le := h.times_le

theorem mem_touches (h : Aligned entries touches now) {e : Entry τ α} (he : e ∈ entries) :
    e.source ∈ touches.map Prod.fst :=
  List.mem_map_of_mem (mem_of_lookup (h.last e he))

theorem nodup (h : Aligned entries touches now) : (entries.map (·.source)).Nodup := by
  rw [List.Nodup, List.pairwise_map]
  apply h.order.imp
  intro d e hlt heq
  rw [heq] at hlt
  exact lt_irrefl _ hlt

/-- The total size is the sum of the lengths of the sources, each of which has one entry. -/
theorem totalSize_eq (h : Aligned entries touches now) :
    Cache.totalSize entries = ((entries.map (·.source)).map fun s => (s.length : Int)).sum := by
  have hsizes := h.sizes
  clear h
  induction entries with
  | nil => rfl
  | cons e entries ih =>
    rw [List.forall_mem_cons] at hsizes
    simp [hsizes.1, ih hsizes.2]

/-- Entries are within the bounds if their sources are. -/
theorem fit_iff (h : Aligned entries touches now) {bounds : Bounds τ} :
    Cache.Fit bounds entries ↔ bounds.Admits (sourcesOf entries) := by
  rw [Cache.Fit, Bounds.Admits, sourcesOf, List.toFinset_card_of_nodup h.nodup, List.length_map,
    List.sum_toFinset _ h.nodup, h.totalSize_eq]

/-- What is behind an entry has been touched since it was. -/
theorem sourcesOf_subset {earlier later : List (Entry τ α)} {e : Entry τ α}
    (h : Aligned (earlier ++ e :: later) touches now) :
    sourcesOf (e :: later) ⊆ touches.since e.source := by
  intro source hsource
  obtain ⟨d, hd, rfl⟩ := mem_sourcesOf.1 hsource
  refine mem_since.2 ⟨h.mem_touches (List.mem_append_right earlier hd), ?_⟩
  rcases List.mem_cons.1 hd with rfl | hd
  · exact Nat.le_refl _
  · have hlater := (List.pairwise_append.1 h.order).2.1
    exact Nat.le_of_lt ((List.pairwise_cons.1 hlater).1 d hd)

/-- What has been touched since an entry of an end of the entries belongs to that end, if it has an
    entry at all. -/
theorem mem_of_age_le (h : Aligned entries touches now) {kept : List (Entry τ α)}
    (hkept : kept <:+ entries) {e d : Entry τ α} (he : e ∈ kept) (hd : d ∈ entries)
    (hle : touches.age d.source ≤ touches.age e.source) : d ∈ kept := by
  obtain ⟨dropped, rfl⟩ := hkept
  rcases List.mem_append.1 hd with hd | hd
  · have := (List.pairwise_append.1 h.order).2.2 d hd e he
    omega
  · exact hd

end

section

variable [LinearOrder τ] {entries : List (Entry τ α)} {touches : Touches τ} {now : τ}

theorem records (h : Aligned entries touches now) : touches.Records entries :=
  ⟨h.last, h.order⟩

/-- An entry for a source that is touched now comes last. -/
theorem concat (h : Aligned entries touches now) {e : Entry τ α}
    (hne : ∀ d ∈ entries, d.source ≠ e.source) (hsize : e.size = e.source.length)
    (hlast : e.lastAccess = now) :
    Aligned (entries ++ [e]) ((e.source, now) :: touches) now where
  sizes d hd := by
    rcases List.mem_append.1 hd with hd | hd
    · exact h.sizes d hd
    · obtain rfl := List.mem_singleton.1 hd
      exact hsize
  last := (h.records.concat hne hlast).last
  order := (h.records.concat hne hlast).order
  ordered := List.pairwise_cons.2 ⟨h.times_le, h.ordered⟩
  times_le x hx := by
    rcases List.mem_cons.1 hx with rfl | hx
    · exact le_refl now
    · exact h.times_le x hx

end

end Aligned

/-! ## The invariant -/

section Tracked

variable [AddCommGroup τ] [LinearOrder τ]

/-- The source is remembered: it was touched less than the sliding time ago, and what has been
    touched since is within the bounds. -/
def Touches.Retains (touches : Touches τ) (bounds : Bounds τ) (now : τ) (source : String) : Prop :=
  ∃ t, touches.lookup source = some t ∧ now - t < bounds.sliding ∧
    bounds.Admits (touches.since source)

/-- What is remembered after a touch of another source was remembered before. -/
theorem Touches.Retains.of_cons {touches : Touches τ} {bounds : Bounds τ} {now : τ}
    {source other : String} (hne : other ≠ source)
    (h : Touches.Retains ((source, now) :: touches) bounds now other) :
    touches.Retains bounds now other := by
  obtain ⟨t, ht, hlive, hadmits⟩ := h
  rw [lookup_cons_ne now hne] at ht
  rw [since_cons_ne hne] at hadmits
  exact ⟨t, ht, hlive, hadmits.mono (Finset.subset_insert _ _)⟩

/-- A cache as it is after touches, the last of them not after `now`. -/
structure Cache.Tracks (c : Cache τ α) (touches : Touches τ) (now : τ) : Prop where
  size_eq : c.size = totalSize c.entries
  aligned : Aligned c.entries touches now
  /-- No entry is there that is neither expired nor remembered. -/
  admitted : ∀ e ∈ c.entries, now - e.lastAccess < c.bounds.sliding →
    c.bounds.Admits (touches.since e.source)
  /-- Every source that is remembered has an entry. -/
  complete : ∀ source, touches.Retains c.bounds now source → ∃ e ∈ c.entries, e.source = source

namespace Cache.Tracks

variable {c : Cache τ α} {touches : Touches τ} {now : τ}

theorem congr (h : c.Tracks touches now) {c' : Cache τ α} (hbounds : c'.bounds = c.bounds)
    (hentries : c'.entries = c.entries) (hsize : c'.size = c.size) : c'.Tracks touches now where
  size_eq := by rw [hsize, hentries, h.size_eq]
  aligned := hentries ▸ h.aligned
  admitted := by
    rw [hentries, hbounds]
    exact h.admitted
  complete := by
    rw [hentries, hbounds]
    exact h.complete

theorem of_entries_eq_nil (hentries : c.entries = []) (hsize : c.size = 0) :
    c.Tracks [] now where
  size_eq := by rw [hentries, hsize, totalSize_nil]
  aligned := by
    rw [hentries]
    exact ⟨by simp, by simp, .nil, .nil, by simp⟩
  admitted := by simp [hentries]
  complete := by
    rintro source ⟨t, ht, -⟩
    cases ht

/-- A source is contained if it is remembered. -/
theorem contains_iff (h : c.Tracks touches now) (source : String) :
    c.contains now source = true ↔ touches.Retains c.bounds now source := by
  cases he : c.entry? source with
  | none =>
    apply iff_of_false (by simp [contains, he])
    intro hretains
    obtain ⟨e, hmem, hsource⟩ := h.complete source hretains
    exact source_ne_of_entry_eq_none he hmem hsource
  | some e =>
    have hmem := mem_of_entry_eq he
    obtain rfl := source_of_entry_eq he
    have hlast := h.aligned.last e hmem
    have hiff : c.contains now e.source = true ↔ now - e.lastAccess < c.bounds.sliding := by
      simp [contains, he, isExpired]
    rw [hiff]
    constructor
    · intro hlive
      exact ⟨e.lastAccess, hlast, hlive, h.admitted e hmem hlive⟩
    · rintro ⟨t, ht, hlive, -⟩
      rw [hlast] at ht
      cases ht
      exact hlive

/-- The entries other than the one for a source. -/
theorem exists_rest (h : c.Tracks touches now) {source : String} {e : Entry τ α}
    (he : c.entry? source = some e) :
    ∃ rest, c.entries.eraseP (·.source = e.source) = rest ∧ rest.Sublist c.entries ∧
      c.size = e.size + totalSize rest ∧ (∀ d ∈ c.entries, d = e ∨ d ∈ rest) ∧
      ∀ d ∈ rest, d.source ≠ e.source := by
  obtain ⟨rest, herase, hperm, hsub, hne⟩ := exists_rest_of_nodup h.aligned.nodup he
  refine ⟨rest, herase, hsub, ?_, ?_, hne⟩
  · rw [h.size_eq, totalSize_perm hperm, totalSize_cons]
  · intro d hd
    exact List.mem_cons.1 (hperm.mem_iff.1 hd)

/-- An expired entry may be dropped. -/
theorem remove (h : c.Tracks touches now) {source : String} {e : Entry τ α}
    (he : c.entry? source = some e) (hexpired : c.isExpired now e = true) :
    (c.remove e).Tracks touches now := by
  obtain ⟨rest, herase, hsub, hsize, hmem, -⟩ := h.exists_rest he
  refine ⟨?_, ?_, ?_, ?_⟩
  · rw [remove_entries, herase, remove_size, hsize]
    omega
  · rw [remove_entries, herase]
    exact h.aligned.sublist hsub
  · rw [remove_entries, herase]
    intro d hd
    exact h.admitted d (hsub.subset hd)
  · intro other hretains
    obtain ⟨d, hd, rfl⟩ := h.complete other hretains
    rw [remove_entries, herase]
    rcases hmem d hd with rfl | hd
    · obtain ⟨t, ht, hlive, -⟩ := hretains
      rw [h.aligned.last d (mem_of_entry_eq he)] at ht
      cases ht
      exact absurd hlive (not_lt.2 (isExpired_iff.1 hexpired))
    · exact ⟨d, hd, rfl⟩

/-- Using an entry is a touch of its source. -/
theorem touch (h : c.Tracks touches now) {source : String} {e : Entry τ α}
    (he : c.entry? source = some e) (hlive : c.isExpired now e = false) :
    (c.touch e now).Tracks ((e.source, now) :: touches) now := by
  obtain ⟨rest, herase, hsub, hsize, hrest, hne⟩ := h.exists_rest he
  have hmem := mem_of_entry_eq he
  have hadmits : c.bounds.Admits (touches.since e.source) := by
    apply h.admitted e hmem
    simpa [isExpired] using hlive
  have hself := mem_since_self (h.aligned.mem_touches hmem)
  refine ⟨?_, ?_, ?_, ?_⟩
  · rw [touch_entries, herase, touch_size, hsize]
    simp only [totalSize_append, totalSize_cons, totalSize_nil]
    omega
  · rw [touch_entries, herase]
    exact (h.aligned.sublist hsub).concat hne (h.aligned.sizes e hmem) rfl
  · rw [touch_entries, herase, touch_bounds]
    intro d hd hd_live
    rcases List.mem_append.1 hd with hd | hd
    · rw [since_cons_ne (hne d hd)]
      -- Either the source has been touched since `d` was before, or the other way around.
      rcases Nat.le_total (touches.age e.source) (touches.age d.source) with hle | hle
      · have hin : e.source ∈ touches.since d.source :=
          mem_since.2 ⟨h.aligned.mem_touches hmem, hle⟩
        rw [Finset.insert_eq_of_mem hin]
        exact h.admitted d (hsub.subset hd) hd_live
      · have hin : d.source ∈ touches.since e.source :=
          mem_since.2 ⟨h.aligned.mem_touches (hsub.subset hd), hle⟩
        exact hadmits.mono (Finset.insert_subset hself (since_subset_since hin))
    · obtain rfl := List.mem_singleton.1 hd
      rw [since_cons_self]
      exact hadmits.mono (Finset.singleton_subset_iff.2 hself)
  · rw [touch_entries, herase, touch_bounds]
    intro other hretains
    by_cases hother : other = e.source
    · exact ⟨_, List.mem_append_right _ (List.mem_singleton.2 rfl), hother.symm⟩
    · obtain ⟨d, hd, rfl⟩ := h.complete other (hretains.of_cons hother)
      rcases hrest d hd with rfl | hd
      · exact absurd rfl hother
      · exact ⟨d, List.mem_append_left _ hd, rfl⟩

/-- A look-up that finds something is a touch of its source; any other leaves the touches as they
    are. -/
theorem lookup (h : c.Tracks touches now) (source : String) :
    (c.lookup now source).2.Tracks
      (if (c.lookup now source).1.isSome then (source, now) :: touches else touches) now := by
  rcases c.lookup_cases now source with ⟨-, hc⟩ | ⟨e, he, hexpired, hc⟩ | ⟨e, he, hlive, hc⟩
  · rw [hc]
    exact h.congr rfl rfl rfl
  · rw [hc]
    exact (h.remove he hexpired).congr rfl rfl rfl
  · rw [hc]
    obtain rfl := source_of_entry_eq he
    exact (h.touch he hlive).congr rfl rfl rfl

/-- A further entry lines up with a touch of its source. -/
theorem aligned_insert (h : c.Tracks touches now) {source : String}
    (hne : ∀ e ∈ c.entries, e.source ≠ source) (value : α) :
    Aligned (c.insert source value now).entries ((source, now) :: touches) now :=
  h.aligned.concat (e := ⟨source, value, source.length, now⟩) hne rfl rfl

/-- With the new entry, and before anything is evicted, every source that is to be remembered has
    one. -/
theorem insert_complete (h : c.Tracks touches now) (source : String) (value : α) {other : String}
    (hretains : Touches.Retains ((source, now) :: touches) c.bounds now other) :
    ∃ e ∈ (c.insert source value now).entries, e.source = other := by
  rw [insert_entries]
  by_cases hother : other = source
  · exact ⟨_, List.mem_append_right _ (List.mem_singleton.2 rfl), hother.symm⟩
  · obtain ⟨e, he, he_source⟩ := h.complete other (hretains.of_cons hother)
    exact ⟨e, List.mem_append_left _ he, he_source⟩

variable [IsOrderedAddMonoid τ]

/-- As time goes by, what is remembered can only become less. -/
theorem mono (h : c.Tracks touches now) {later : τ} (hle : now ≤ later) :
    c.Tracks touches later where
  size_eq := h.size_eq
  aligned := ⟨h.aligned.sizes, h.aligned.last, h.aligned.order, h.aligned.ordered,
    fun x hx => (h.aligned.times_le x hx).trans hle⟩
  admitted e he hlive :=
    h.admitted e he ((sub_le_sub_right hle e.lastAccess).trans_lt hlive)
  complete source := by
    rintro ⟨t, ht, hlive, hadmits⟩
    exact h.complete source ⟨t, ht, (sub_le_sub_right hle t).trans_lt hlive, hadmits⟩

/-- What has been touched since a live entry was has an entry, too. -/
theorem covers (h : c.Tracks touches now) {e : Entry τ α} (he : e ∈ c.entries)
    (hlive : now - e.lastAccess < c.bounds.sliding) {source : String}
    (hsource : source ∈ touches.since e.source) : ∃ d ∈ c.entries, d.source = source := by
  obtain ⟨hmem, hle⟩ := mem_since.1 hsource
  obtain ⟨t, ht⟩ := exists_lookup hmem
  have htime := h.aligned.ordered.le_of_age_le (h.aligned.last e he) ht hle
  refine h.complete source ⟨t, ht, (sub_le_sub_left htime now).trans_lt hlive, ?_⟩
  exact (h.admitted e he hlive).mono (since_subset_since hsource)

/-- What was touched after an unexpired entry is still there when a new one comes in. -/
theorem insert_covers (h : c.Tracks touches now) {source : String}
    (hne : ∀ e ∈ c.entries, e.source ≠ source) (value : α) {e : Entry τ α}
    (he : e ∈ (c.insert source value now).entries) (hlive : now - e.lastAccess < c.bounds.sliding)
    {other : String} (hother : other ∈ Touches.since ((source, now) :: touches) e.source) :
    ∃ d ∈ (c.insert source value now).entries, d.source = other := by
  rw [insert_entries] at he ⊢
  rcases List.mem_append.1 he with he | he
  · rw [since_cons_ne (hne e he)] at hother
    rcases Finset.mem_insert.1 hother with rfl | hother
    · exact ⟨_, List.mem_append_right _ (List.mem_singleton.2 rfl), rfl⟩
    · obtain ⟨d, hd, hd_source⟩ := h.covers he hlive hother
      exact ⟨d, List.mem_append_left _ hd, hd_source⟩
  · obtain rfl := List.mem_singleton.1 he
    rw [since_cons_self, Finset.mem_singleton] at hother
    exact ⟨_, List.mem_append_right _ (List.mem_singleton.2 rfl), hother.symm⟩

/-- Storing what has no entry is a touch of its source, whatever is evicted then. -/
theorem insert_sweep (h : c.Tracks touches now) {source : String}
    (hne : ∀ e ∈ c.entries, e.source ≠ source) (value : α) :
    ((c.insert source value now).sweep now).Tracks ((source, now) :: touches) now := by
  let grown := c.insert source value now
  have hbounds : (grown.sweep now).bounds = c.bounds := sweep_bounds _ now
  have haligned := h.aligned_insert hne value
  have hsuffix : (grown.sweep now).entries <:+ grown.entries.dropWhile (grown.isExpired now) :=
    sweep_suffix _ now
  have hkept : (grown.sweep now).entries <:+ grown.entries :=
    hsuffix.trans (List.dropWhile_suffix _)
  have hswept := haligned.sublist hkept.sublist
  have hinsert : grown.size = totalSize grown.entries := by
    simp [grown, h.size_eq]
  obtain ⟨hsize, hfit, hlongest⟩ := sweep_spec now hinsert
  refine ⟨hsize, hswept, ?_, ?_⟩
  · intro e he hlive
    rw [hbounds] at hlive ⊢
    have hadmits : c.bounds.Admits (sourcesOf (grown.sweep now).entries) :=
      hswept.fit_iff.1 (hfit.resolve_left (List.ne_nil_of_mem he))
    apply hadmits.mono
    intro other hother
    -- What has been touched since is among the entries, and not in front of `e`.
    obtain ⟨d, hd, rfl⟩ := h.insert_covers hne value (hkept.mem he) hlive hother
    exact mem_sourcesOf.2 ⟨d, haligned.mem_of_age_le hkept he hd (mem_since.1 hother).2, rfl⟩
  · intro other hretains
    rw [hbounds] at hretains
    obtain ⟨e, he, rfl⟩ := h.insert_complete source value hretains
    obtain ⟨t, ht, hlive, hadmits⟩ := hretains
    rw [haligned.last e he] at ht
    cases ht
    have hmem : e ∈ grown.entries.dropWhile (grown.isExpired now) :=
      mem_dropWhile_isExpired he (not_le.2 hlive)
    -- The end of the entries from `e` on is within the bounds, so eviction does not reach it.
    obtain ⟨earlier, later, hsplit⟩ := List.append_of_mem hmem
    have hdropped := haligned.sublist (List.dropWhile_sublist (grown.isExpired now))
    rw [hsplit] at hdropped
    have hend := hdropped.sublist (List.sublist_append_right earlier (e :: later))
    have hfits : Fit c.bounds (e :: later) :=
      hend.fit_iff.2 (hadmits.mono hdropped.sourcesOf_subset)
    exact ⟨e, (hlongest (e :: later) ⟨earlier, hsplit.symm⟩ hfits).mem List.mem_cons_self, rfl⟩

/-- A store evicts just the sources that are no longer to be remembered. -/
theorem store (h : c.Tracks touches now) (source : String) (value : α) :
    (c.store now source value).2.Tracks ((source, now) :: touches) now := by
  rcases c.store_cases now source value with ⟨he, hc⟩ | ⟨e, he, hexpired, hc⟩ | ⟨e, he, hlive, hc⟩
  · rw [hc]
    exact h.insert_sweep (fun d hd => source_ne_of_entry_eq_none he hd) value
  · rw [hc]
    obtain ⟨rest, herase, -, -, -, hne⟩ := h.exists_rest he
    obtain rfl := source_of_entry_eq he
    apply (h.remove he hexpired).insert_sweep _ value
    intro d hd
    rw [remove_entries, herase] at hd
    exact hne d hd
  · rw [hc]
    obtain rfl := source_of_entry_eq he
    exact h.touch he hlive

end Cache.Tracks

/-! ## Runs -/

section

variable [IsOrderedAddMonoid τ] (parser : String → Except Failure Template)

/-- The look-up and the store of one call happen at two times, and the later one counts. -/
theorem Cache.Tracks.getOrParse {c : Cache τ Instance} {touches : Touches τ} {before after : τ}
    (h : c.Tracks touches before) (hle : before ≤ after) (source : String) (serial : Nat) :
    (c.getOrParse (Operation.numbered parser serial) before after source).2.Tracks
      ((Operation.parseTouch? parser c before after source).toList ++ touches) after := by
  have hlookup := h.lookup source
  unfold Cache.getOrParse Operation.parseTouch?
  cases hfound : c.lookup before source with
  | mk found c' =>
    rw [hfound] at hlookup
    cases found with
    | some value => exact hlookup.mono hle
    | none =>
      have hmiss : c'.Tracks touches after := hlookup.mono hle
      cases hparser : parser source with
      | error e =>
        simpa [Operation.numbered, hparser, Except.map, Except.toBool] using hmiss
      | ok t =>
        have := hmiss.store source (Instance.mk serial t)
        simpa [Operation.numbered, hparser, Except.map, Except.toBool] using this

namespace History

/-- One operation keeps a history tracked, if its readings of the clock come after those before. -/
theorem tracks_step {h : History τ} {op : Operation τ} {now : τ}
    (hbefore : ∀ t, (op.times ++ [now]).head? = some t → h.cache.Tracks h.touches t)
    (hclock : (op.times ++ [now]).Pairwise (· ≤ ·)) :
    (h.step parser op).cache.Tracks (h.step parser op).touches now := by
  cases op with
  | get time source =>
    have hle : time ≤ now := by simpa [Operation.times] using hclock
    have htracks := ((hbefore time rfl).lookup source).mono hle
    cases hfound : (h.cache.lookup time source).1.isSome <;>
      simpa [step, Operation.perform, Operation.touch?, hfound] using htracks
  | parse before after source serial =>
    have hle : (before ≤ after ∧ before ≤ now) ∧ after ≤ now := by
      simpa [Operation.times] using hclock
    exact ((hbefore before rfl).getOrParse parser hle.1.1 source serial).mono hle.2
  | tryParse before after source serial =>
    have hle : (before ≤ after ∧ before ≤ now) ∧ after ≤ now := by
      simpa [Operation.times] using hclock
    exact ((hbefore before rfl).getOrParse parser hle.1.1 source serial).mono hle.2
  | store time source value =>
    have hle : time ≤ now := by simpa [Operation.times] using hclock
    exact ((hbefore time rfl).store source value).mono hle
  | contains time source =>
    have hle : time ≤ now := by simpa [Operation.times] using hclock
    exact (hbefore time rfl).mono hle
  | size => exact hbefore now rfl
  | stats => exact hbefore now rfl
  | clear => exact .of_entries_eq_nil rfl rfl

/-- A run under a clock that never goes back is tracked. -/
theorem tracks_run (bounds : Bounds τ) (ops : List (Operation τ)) {now : τ}
    (hclock : (ops.flatMap Operation.times ++ [now]).Pairwise (· ≤ ·)) :
    (run parser bounds ops).cache.Tracks (run parser bounds ops).touches now := by
  -- The last operation comes first: its own readings of the clock bound those before it.
  induction ops using List.reverseRecOn generalizing now with
  | nil => exact .of_entries_eq_nil rfl rfl
  | append_singleton ops op ih =>
    rw [List.flatMap_append, List.flatMap_singleton, List.append_assoc] at hclock
    rw [run, List.foldl_append]
    refine tracks_step parser (fun t ht => ih ?_) (List.pairwise_append.1 hclock).2.1
    refine hclock.sublist ((List.Sublist.refl _).append ?_)
    exact List.singleton_sublist.2 (List.mem_of_head? ht)

/-- Under a clock that never goes back, a source is in a cache exactly if it was touched since the
    cache was last cleared, less than the sliding time ago, and what has been touched since then
    is within the bounds. A look-up finds it under the same condition; asking for it changes
    nothing. -/
theorem contains_run_iff (bounds : Bounds τ) (ops : List (Operation τ)) (now : τ) (source : String)
    (hclock : (ops.flatMap Operation.times ++ [now]).Pairwise (· ≤ ·)) :
    (((Operation.contains now source).perform parser (run parser bounds ops).cache).1 =
        .contained true ↔ (run parser bounds ops).touches.Retains bounds now source) ∧
      ((∃ i, ((Operation.get now source).perform parser (run parser bounds ops).cache).1 =
        .found (some i)) ↔ (run parser bounds ops).touches.Retains bounds now source) ∧
      ((Operation.contains now source).perform parser (run parser bounds ops).cache).2 =
        (run parser bounds ops).cache := by
  have hiff := (tracks_run parser bounds ops hclock).contains_iff source
  rw [bounds_run] at hiff
  refine ⟨?_, ?_, rfl⟩
  · rw [← hiff]
    simp [Operation.perform]
  · rw [← hiff, ← Cache.lookup_isSome, Option.isSome_iff_exists]
    simp [Operation.perform]

theorem contains_run_recent :
    ((Operation.contains 7 "ab").perform (fun source => parseTemplate source)
      (run (τ := Int) (fun source => parseTemplate source) ⟨10, 2, 5⟩
        [.store 0 "ab" ⟨0, {}⟩, .store 1 "c" ⟨1, {}⟩, .get 4 "ab"]).cache).1 =
      .contained true :=
  (contains_run_iff (fun source => parseTemplate source) ⟨10, 2, 5⟩ _ 7 "ab" (by decide)).1.2
    ⟨4, by decide, by decide, by decide, by decide⟩

end History

end

end Tracked

end Stencil
