-- SUMMARY: Whatever is asked of a cache, its parts agree with each other and are within its bounds.
import Mathlib.Algebra.Order.Group.Int
import Stencil.Proofs.Cache.Recency

/-! # Consistency

What a cache keeps besides its entries follows from them and from what has been asked of it: the
total size, the times of the last uses, the order, and the counters of look-ups. Nothing is assumed
about the bounds, the clock or the parser; the clock may go back, and a parser may succeed at one
time and fail at another.
-/

namespace Stencil

variable {τ α : Type}

namespace Cache

/-! ## Sizes -/

/-- No source has two entries, and the sizes are those of the sources. -/
structure Accounted (c : Cache τ α) : Prop where
  nodup : (c.entries.map (·.source)).Nodup
  sizes : ∀ e ∈ c.entries, e.size = e.source.length
  size_eq : c.size = totalSize c.entries

namespace Accounted

variable {c : Cache τ α} {source : String} {e : Entry τ α}

theorem congr (h : c.Accounted) {c' : Cache τ α} (hentries : c'.entries = c.entries)
    (hsize : c'.size = c.size) : c'.Accounted where
  nodup := hentries ▸ h.nodup
  sizes := hentries ▸ h.sizes
  size_eq := by rw [hsize, hentries, h.size_eq]

theorem of_entries_eq_nil (hentries : c.entries = []) (hsize : c.size = 0) : c.Accounted where
  nodup := by simp [hentries]
  sizes := by simp [hentries]
  size_eq := by rw [hentries, hsize, totalSize_nil]

theorem remove (h : c.Accounted) (he : c.entry? source = some e) : (c.remove e).Accounted := by
  obtain ⟨rest, herase, hperm, hsub, -⟩ := exists_rest_of_nodup h.nodup he
  constructor
  · rw [remove_entries, herase]
    exact (hsub.map _).nodup h.nodup
  · rw [remove_entries, herase]
    intro d hd
    exact h.sizes d (hsub.subset hd)
  · rw [remove_entries, herase, remove_size, h.size_eq, totalSize_perm hperm, totalSize_cons]
    omega

theorem touch (h : c.Accounted) (he : c.entry? source = some e) (now : τ) :
    (c.touch e now).Accounted := by
  obtain ⟨rest, herase, hperm, hsub, hne⟩ := exists_rest_of_nodup h.nodup he
  constructor
  · rw [touch_entries, herase, List.map_append]
    refine ((hsub.map _).nodup h.nodup).append (List.nodup_singleton _) ?_
    simpa [List.Disjoint] using hne
  · rw [touch_entries, herase]
    intro d hd
    rcases List.mem_append.1 hd with hd | hd
    · exact h.sizes d (hsub.subset hd)
    · obtain rfl := List.mem_singleton.1 hd
      exact h.sizes e (mem_of_entry_eq he)
  · rw [touch_entries, herase, touch_size, h.size_eq, totalSize_perm hperm]
    simp only [totalSize_append, totalSize_cons, totalSize_nil]
    omega

theorem insert (h : c.Accounted) (hne : ∀ d ∈ c.entries, d.source ≠ source) (value : α)
    (now : τ) : (c.insert source value now).Accounted := by
  constructor
  · rw [insert_entries, List.map_append]
    refine h.nodup.append (List.nodup_singleton _) ?_
    simpa [List.Disjoint] using hne
  · rw [insert_entries]
    intro d hd
    rcases List.mem_append.1 hd with hd | hd
    · exact h.sizes d hd
    · obtain rfl := List.mem_singleton.1 hd
      rfl
  · rw [insert_entries, insert_size, h.size_eq]
    simp only [totalSize_append, totalSize_cons, totalSize_nil]
    omega

theorem renew (h : c.Accounted) (source : String) (value : α) (now : τ) :
    (c.renew source value now).Accounted := by
  unfold Cache.renew
  split
  · next he => exact h.insert (fun d hd => source_ne_of_entry_eq_none he hd) value now
  · next e he =>
    apply (h.remove he).insert _ value now
    obtain ⟨rest, herase, -, -, hne⟩ := exists_rest_of_nodup h.nodup he
    obtain rfl := source_of_entry_eq he
    rwa [remove_entries, herase]

variable [Sub τ] [LE τ] [DecidableLE τ]

theorem sweep (h : c.Accounted) (now : τ) : (c.sweep now).Accounted := by
  have hsub := ((sweep_suffix c now).trans (List.dropWhile_suffix _)).sublist
  exact ⟨(hsub.map _).nodup h.nodup, fun d hd => h.sizes d (hsub.subset hd),
    (sweep_spec now h.size_eq).1⟩

theorem lookup (h : c.Accounted) (now : τ) (source : String) :
    (c.lookup now source).2.Accounted := by
  rcases c.lookup_cases now source with ⟨-, hc⟩ | ⟨e, he, -, hc⟩ | ⟨e, he, -, hc⟩
  · rw [hc]
    exact h.congr rfl rfl
  · rw [hc]
    exact (h.remove he).congr rfl rfl
  · rw [hc]
    exact (h.touch he now).congr rfl rfl

theorem store (h : c.Accounted) (now : τ) (source : String) (value : α) :
    (c.store now source value).2.Accounted := by
  rcases c.store_cases_renew now source value with ⟨-, hc⟩ | ⟨e, he, -, hc⟩
  · rw [hc]
    exact (h.renew source value now).sweep now
  · rw [hc]
    exact h.touch he now

end Accounted

/-! ## Upkeep -/

/-- The entries and their sizes go together, the entries record the touches of their sources, and
    they are within the bounds. A negative bound admits no entry, just as zero does. -/
structure Kept (c : Cache τ α) (touches : Touches τ) : Prop extends c.Accounted where
  records : touches.Records c.entries
  length_le : (c.entries.length : Int) ≤ max 0 c.bounds.maxEntries
  size_le : c.size ≤ max 0 c.bounds.maxSize

namespace Kept

variable {c : Cache τ α} {touches : Touches τ} {source : String} {e : Entry τ α}

theorem congr (h : c.Kept touches) {c' : Cache τ α} (hbounds : c'.bounds = c.bounds)
    (hentries : c'.entries = c.entries) (hsize : c'.size = c.size) : c'.Kept touches where
  toAccounted := h.toAccounted.congr hentries hsize
  records := hentries ▸ h.records
  length_le := by rw [hentries, hbounds]; exact h.length_le
  size_le := by rw [hsize, hbounds]; exact h.size_le

theorem of_entries_eq_nil (hentries : c.entries = []) (hsize : c.size = 0)
    (touches : Touches τ) : c.Kept touches where
  toAccounted := .of_entries_eq_nil hentries hsize
  records := hentries ▸ .nil touches
  length_le := by simp [hentries]
  size_le := by simp [hsize]

theorem remove (h : c.Kept touches) (he : c.entry? source = some e) :
    (c.remove e).Kept touches where
  toAccounted := h.toAccounted.remove he
  records := h.records.sublist List.eraseP_sublist
  length_le := by
    have hle : (c.entries.eraseP (·.source = e.source)).length ≤ c.entries.length :=
      List.eraseP_sublist.length_le
    have := h.length_le
    simp only [remove_entries, remove_bounds]
    omega
  size_le := by
    have := h.size_le
    simp only [remove_size, remove_bounds]
    omega

theorem touch (h : c.Kept touches) (he : c.entry? source = some e) (now : τ) :
    (c.touch e now).Kept ((e.source, now) :: touches) := by
  obtain ⟨rest, herase, hperm, hsub, hne⟩ := exists_rest_of_nodup h.nodup he
  refine ⟨h.toAccounted.touch he now, ?_, ?_, h.size_le⟩
  · rw [touch_entries, herase]
    exact (h.records.sublist hsub).concat (e := { e with lastAccess := now }) hne rfl
  · have hlength := hperm.length_eq
    have := h.length_le
    rw [touch_entries, herase, touch_bounds]
    simp only [List.length_append, List.length_cons, List.length_nil] at hlength ⊢
    omega

variable [Sub τ] [LE τ] [DecidableLE τ]

theorem lookup (h : c.Kept touches) (now : τ) (source : String) :
    (c.lookup now source).2.Kept
      (if (c.lookup now source).1.isSome then (source, now) :: touches else touches) := by
  rcases c.lookup_cases now source with ⟨-, hc⟩ | ⟨e, he, -, hc⟩ | ⟨e, he, -, hc⟩
  · rw [hc]
    exact h.congr rfl rfl rfl
  · rw [hc]
    exact (h.remove he).congr rfl rfl rfl
  · rw [hc]
    obtain rfl := source_of_entry_eq he
    exact (h.touch he now).congr rfl rfl rfl

/-- Sweeping brings any cache within its bounds. -/
theorem sweep (h : c.Accounted) (hrecords : touches.Records c.entries) (now : τ) :
    (c.sweep now).Kept touches := by
  have hsub : (c.sweep now).entries.Sublist c.entries :=
    ((sweep_suffix c now).trans (List.dropWhile_suffix _)).sublist
  obtain ⟨hsize, hfit, -⟩ := sweep_spec now h.size_eq
  refine ⟨h.sweep now, hrecords.sublist hsub, ?_, ?_⟩
  · rw [sweep_bounds]
    rcases hfit with hnil | hfit
    · simp [hnil]
    · exact hfit.1.trans (le_max_right _ _)
  · rw [sweep_bounds, hsize]
    rcases hfit with hnil | hfit
    · simp [hnil]
    · exact hfit.2.trans (le_max_right _ _)

theorem store (h : c.Kept touches) (now : τ) (source : String) (value : α) :
    (c.store now source value).2.Kept ((source, now) :: touches) := by
  rcases c.store_cases_renew now source value with ⟨-, hc⟩ | ⟨e, he, -, hc⟩
  · rw [hc]
    refine sweep (h.toAccounted.renew source value now) ?_ now
    obtain ⟨rest, hrenew, hsub, hne, -⟩ := renew_entries h.nodup source value now
    rw [hrenew]
    exact (h.records.sublist hsub).concat (e := ⟨source, value, source.length, now⟩) hne rfl
  · rw [hc]
    obtain rfl := source_of_entry_eq he
    exact h.touch he now

end Kept

/-! ## Look-ups -/

/-- How many look-ups have been counted. -/
def lookups (c : Cache τ α) : Nat := c.counters.hits + c.counters.misses

theorem lookups_evictFrom (c : Cache τ α) (n : Nat) (entries : List (Entry τ α)) :
    (c.evictFrom n entries).lookups = c.lookups := by
  induction entries generalizing c n with
  | nil => rfl
  | cons e entries ih =>
    simp only [evictFrom]
    split
    · exact ih _ _
    · rfl

theorem lookups_renew (c : Cache τ α) (source : String) (value : α) (now : τ) :
    (c.renew source value now).lookups = c.lookups := by
  unfold renew
  split <;> rfl

variable [Sub τ] [LE τ] [DecidableLE τ]

/-- Every look-up is counted once, as a hit or as a miss. -/
theorem lookups_lookup (c : Cache τ α) (now : τ) (source : String) :
    (c.lookup now source).2.lookups = c.lookups + 1 := by
  rcases c.lookup_cases now source with ⟨-, h⟩ | ⟨e, -, -, h⟩ | ⟨e, -, -, h⟩ <;> rw [h]
  · exact (Nat.add_assoc _ _ _).symm
  · exact (Nat.add_assoc _ _ _).symm
  · exact Nat.add_right_comm _ _ _

/-- A store is no look-up, whatever it meets. -/
theorem lookups_store (c : Cache τ α) (now : τ) (source : String) (value : α) :
    (c.store now source value).2.lookups = c.lookups := by
  rcases c.store_cases_renew now source value with ⟨-, h⟩ | ⟨e, -, -, h⟩ <;> rw [h]
  · exact (lookups_evictFrom _ _ _).trans (lookups_renew c source value now)
  · rfl

end Cache

/-! ## Runs -/

section

variable [Sub τ] [LE τ] [DecidableLE τ]

/-- Asking for the result for a source touches it if there is a result, and counts as one look-up.
    -/
theorem Cache.Kept.getOrParse (parser : String → Except Failure Template) {c : Cache τ Instance}
    {touches : Touches τ} (h : c.Kept touches) (before after : τ) (source : String)
    (serial : Nat) :
    (c.getOrParse (Operation.numbered parser serial) before after source).2.Kept
        ((Operation.parseTouch? parser c before after source).toList ++ touches) ∧
      (c.getOrParse (Operation.numbered parser serial) before after source).2.lookups =
        c.lookups + 1 := by
  have hlookup := h.lookup before source
  have hcount := c.lookups_lookup before source
  unfold Cache.getOrParse Operation.parseTouch?
  cases hfound : c.lookup before source with
  | mk found c' =>
    rw [hfound] at hlookup hcount
    cases found with
    | some value => exact ⟨hlookup, hcount⟩
    | none =>
      cases hparser : parser source with
      | error e =>
        simpa [Operation.numbered, hparser, Except.map, Except.toBool] using
          And.intro hlookup hcount
      | ok t =>
        have hstore := Kept.store hlookup after source (Instance.mk serial t)
        have hstored := (c'.lookups_store after source (Instance.mk serial t)).trans hcount
        simpa [Operation.numbered, hparser, Except.map, Except.toBool] using
          And.intro hstore hstored

/-- The operation looks its source up, whatever else it does. -/
def Operation.looksUp : Operation τ → Bool
  | .get .. => true
  | .parse .. => true
  | .tryParse .. => true
  | _ => false

namespace History

/-- The history of a run of an empty cache. Every operation comes with the parser that the cache has
    at that time. -/
def runWith (bounds : Bounds τ)
    (ops : List ((String → Except Failure Template) × Operation τ)) : History τ :=
  ops.foldl (fun h op => h.step op.1 op.2) { cache := { bounds } }

/-- A cache in line with what has been asked of it: what it keeps besides its entries follows from
    these and from the operations so far, and the entries are within the bounds. -/
structure Consistent (h : History τ) (bounds : Bounds τ) (ops : List (Operation τ)) : Prop where
  nodup : (h.cache.entries.map (·.source)).Nodup
  sizes : ∀ e ∈ h.cache.entries, e.size = e.source.length
  size_eq : h.cache.size = Cache.totalSize h.cache.entries
  size_nonneg : 0 ≤ h.cache.size
  length_le : (h.cache.entries.length : Int) ≤ max 0 bounds.maxEntries
  size_le : h.cache.size ≤ max 0 bounds.maxSize
  /-- Each entry was last used when its source was last found or stored. -/
  last : ∀ e ∈ h.cache.entries, h.touches.lookup e.source = some e.lastAccess
  /-- Of two entries, the first one is that of the source that was found or stored less recently. -/
  order : h.cache.entries.Pairwise fun e e' => h.touches.age e'.source < h.touches.age e.source
  counted : h.cache.counters.hits + h.cache.counters.misses = ops.countP Operation.looksUp

/-- One operation keeps a cache up, and its look-up is counted. -/
theorem kept_step (parser : String → Except Failure Template) {h : History τ}
    (hkept : h.cache.Kept h.touches) (op : Operation τ) :
    (h.step parser op).cache.Kept (h.step parser op).touches ∧
      (h.step parser op).cache.lookups = h.cache.lookups + if op.looksUp then 1 else 0 := by
  cases op with
  | get now source =>
    refine ⟨?_, h.cache.lookups_lookup now source⟩
    have hlookup := hkept.lookup now source
    cases hfound : (h.cache.lookup now source).1.isSome <;>
      simpa [step, Operation.perform, Operation.touch?, hfound] using hlookup
  | parse before after source serial => exact hkept.getOrParse parser before after source serial
  | tryParse before after source serial => exact hkept.getOrParse parser before after source serial
  | store now source value =>
    exact ⟨hkept.store now source value, h.cache.lookups_store now source value⟩
  | contains | size | stats => exact ⟨hkept, rfl⟩
  | clear => exact ⟨.of_entries_eq_nil rfl rfl _, rfl⟩

/-- The parser may change from one operation to the next, since no invariant is about values. -/
theorem kept_runWith (bounds : Bounds τ)
    (ops : List ((String → Except Failure Template) × Operation τ)) :
    (runWith bounds ops).cache.Kept (runWith bounds ops).touches ∧
      (runWith bounds ops).cache.bounds = bounds ∧
      (runWith bounds ops).cache.lookups = (ops.map Prod.snd).countP Operation.looksUp := by
  induction ops using List.reverseRecOn with
  | nil => exact ⟨.of_entries_eq_nil rfl rfl _, rfl, rfl⟩
  | append_singleton ops op ih =>
    obtain ⟨hkept, hbounds, hcount⟩ := ih
    obtain ⟨hstep, hlookups⟩ := kept_step op.1 hkept op.2
    have hrun : runWith bounds (ops ++ [op]) = (runWith bounds ops).step op.1 op.2 := by
      simp [runWith, List.foldl_append]
    rw [hrun]
    refine ⟨hstep, ((runWith bounds ops).bounds_step op.1 op.2).trans hbounds, ?_⟩
    rw [hlookups, hcount, List.map_append, List.countP_append]
    simp [List.countP_cons]

/-- After every run of a cache, whatever its bounds, the clock and the parsers, the parts of the
    cache agree with each other and with the run, and its entries are within the bounds. -/
theorem consistent_runWith (bounds : Bounds τ)
    (ops : List ((String → Except Failure Template) × Operation τ)) :
    (runWith bounds ops).Consistent bounds (ops.map Prod.snd) := by
  obtain ⟨hkept, hbounds, hcount⟩ := kept_runWith bounds ops
  have hlength := hkept.length_le
  have hsize := hkept.size_le
  rw [hbounds] at hlength hsize
  constructor
  case nodup => exact hkept.nodup
  case sizes => exact hkept.sizes
  case size_eq => exact hkept.size_eq
  case size_nonneg =>
    rw [hkept.size_eq]
    exact Cache.totalSize_nonneg _
  case length_le => exact hlength
  case size_le => exact hsize
  case last => exact hkept.records.last
  case order => exact hkept.records.order
  case counted => exact hcount

end History

end

end Stencil
