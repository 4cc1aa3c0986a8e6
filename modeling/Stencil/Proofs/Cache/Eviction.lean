-- SUMMARY: What a store leaves of a cache under a clock that never goes back, and what it counts.
import Stencil.Proofs.Cache.Consistency
import Stencil.Proofs.Cache.Retention

/-! # Eviction

Under a clock that never goes back, the entries of a cache stand in the order of their last uses,
not only in that of the operations. So those that have expired are in front of the others, and
dropping expired entries from the front drops all of them. What a store evicts then is the least
that will do: of the entries that are left, the longest end that is within the bounds stays.
-/

namespace Stencil

open Touches

variable {τ α : Type}

/-! ## The longest end within bounds -/

/-- The entries are neither too many nor, by the lengths of their sources, too large. -/
def Bounds.Allows (bounds : Bounds τ) (entries : List (Entry τ α)) : Prop :=
  (entries.length : Int) ≤ bounds.maxEntries ∧
    (entries.map fun e => (e.source.length : Int)).sum ≤ bounds.maxSize

/-- What is kept of entries is their longest end that is within the bounds, or nothing if none is:
    negative bounds do not even allow an empty one. -/
structure Bounds.Keeps (bounds : Bounds τ) (entries kept : List (Entry τ α)) : Prop where
  suffix : kept <:+ entries
  allows : kept = [] ∨ bounds.Allows kept
  longest : ∀ l, l <:+ entries → bounds.Allows l → l <:+ kept

/-- If sizes are lengths, entries fit if the bounds allow them. -/
theorem Cache.fit_iff_allows {bounds : Bounds τ} {entries : List (Entry τ α)}
    (hsizes : ∀ e ∈ entries, e.size = e.source.length) :
    Fit bounds entries ↔ bounds.Allows entries := by
  have hsum : totalSize entries = (entries.map fun e => (e.source.length : Int)).sum := by
    induction entries with
    | nil => rfl
    | cons e entries ih =>
      obtain ⟨he, hrest⟩ := List.forall_mem_cons.1 hsizes
      rw [totalSize_cons, he, ih hrest, List.map_cons, List.sum_cons]
  rw [Fit, Bounds.Allows, hsum]

/-! ## Expired entries in front -/

/-- If what is before a member with a property has it as well, the members that have it come
    first. -/
theorem takeWhile_eq_filter {p : α → Bool} {l : List α}
    (h : l.Pairwise fun a b => p b = true → p a = true) : l.takeWhile p = l.filter p := by
  induction l with
  | nil => rfl
  | cons a l ih =>
    obtain ⟨hfirst, hrest⟩ := List.pairwise_cons.1 h
    cases ha : p a with
    | true => rw [List.takeWhile_cons_of_pos ha, List.filter_cons_of_pos ha, ih hrest]
    | false =>
      have hnone : (a :: l).filter p = [] := by
        rw [List.filter_eq_nil_iff]
        intro b hb hpb
        rcases List.mem_cons.1 hb with rfl | hb
        · rw [ha] at hpb
          cases hpb
        · rw [hfirst b hb hpb] at ha
          cases ha
      rw [hnone, List.takeWhile_cons_of_neg (by simp [ha])]

/-- The members that are left then are those that do not have it. -/
theorem dropWhile_eq_filter {p : α → Bool} {l : List α}
    (h : l.Pairwise fun a b => p b = true → p a = true) :
    l.dropWhile p = l.filter fun a => !p a := by
  have htake : (l.takeWhile p).filter p = l.takeWhile p :=
    List.filter_eq_self.2 fun a ha => List.mem_takeWhile_imp ha
  have hdrop : (l.dropWhile p).filter p = [] := by
    have hfilter := takeWhile_eq_filter h
    nth_rewrite 2 [← List.takeWhile_append_dropWhile (p := p) (l := l)] at hfilter
    rwa [List.filter_append, htake, List.self_eq_append_right] at hfilter
  nth_rewrite 2 [← List.takeWhile_append_dropWhile (p := p) (l := l)]
  rw [List.filter_append, List.filter_eq_nil_iff.2, List.filter_eq_self.2, List.nil_append]
  · intro a ha
    simpa using List.filter_eq_nil_iff.1 hdrop a ha
  · intro a ha
    simp [List.mem_takeWhile_imp ha]

/-- The entries stand in the order of the times of their last uses. -/
theorem Aligned.pairwise_lastAccess [LinearOrder τ] {entries : List (Entry τ α)}
    {touches : Touches τ} {now : τ} (h : Aligned entries touches now) :
    entries.Pairwise fun e e' => e.lastAccess ≤ e'.lastAccess := by
  apply h.order.imp_of_mem
  intro e e' he he' hlt
  exact h.ordered.le_of_age_le (h.last e he) (h.last e' he') (Nat.le_of_lt hlt)

namespace Cache

section

variable [Sub τ] [LE τ] [DecidableLE τ]

/-- The entries that have not expired. -/
def live (c : Cache τ α) (now : τ) : List (Entry τ α) :=
  c.entries.filter fun e => !c.isExpired now e

/-- What a store may keep: the entries that have not expired and behind them the new one, unless
    that expires at once. -/
def candidates [Zero τ] (c : Cache τ α) (now : τ) (source : String) (value : α) :
    List (Entry τ α) :=
  c.live now ++ if c.bounds.sliding ≤ 0 then [] else [⟨source, value, source.length, now⟩]

omit [Sub τ] [LE τ] [DecidableLE τ] in
theorem renew_bounds (c : Cache τ α) (source : String) (value : α) (now : τ) :
    (c.renew source value now).bounds = c.bounds := by
  unfold renew
  split <;> rfl

/-- Whether an entry has expired is decided by the bounds of the cache. -/
theorem isExpired_congr {c c' : Cache τ α} (h : c'.bounds = c.bounds) (now : τ) :
    c'.isExpired now = c.isExpired now := by
  funext e
  simp only [isExpired, h]

/-- The entry in whose place the new one comes has expired. -/
theorem filter_renew {c : Cache τ α} {now : τ} {source : String}
    (hmissing : c.contains now source = false) (value : α) :
    (c.renew source value now).entries.filter (fun e => !c.isExpired now e) =
      c.live now ++ [⟨source, value, source.length, now⟩].filter fun e => !c.isExpired now e := by
  cases he : c.entry? source with
  | none => simp [renew, he, live]
  | some e =>
    have hexpired : c.isExpired now e = true := by simpa [contains, he] using hmissing
    obtain ⟨earlier, later, hsplit, herase⟩ := exists_split_of_entry_eq he
    have hlive : c.live now = (earlier ++ later).filter fun e => !c.isExpired now e := by
      simp [live, hsplit, hexpired]
    simp only [renew, he, insert_entries, remove_entries, herase, hlive, List.filter_append]

end

section

variable [AddCommGroup τ] [LinearOrder τ] [IsOrderedAddMonoid τ] {c : Cache τ α} {now : τ}
  {touches : Touches τ}

/-- What was used before something that has expired has expired, too. -/
theorem pairwise_isExpired {entries : List (Entry τ α)} (h : Aligned entries touches now) :
    entries.Pairwise fun e e' => c.isExpired now e' = true → c.isExpired now e = true := by
  apply h.pairwise_lastAccess.imp
  intro e e' hle hexpired
  rw [isExpired_iff] at hexpired ⊢
  exact hexpired.trans (sub_le_sub_left hle now)

/-- The entries that have expired come first. -/
theorem Tracks.takeWhile_isExpired (h : c.Tracks touches now) :
    c.entries.takeWhile (c.isExpired now) = c.entries.filter (c.isExpired now) :=
  takeWhile_eq_filter (pairwise_isExpired h.aligned)

omit [IsOrderedAddMonoid τ] in
/-- With the entry for a source renewed, the entries are those after a touch of the source. -/
theorem Tracks.aligned_renew (h : c.Tracks touches now) (source : String) (value : α) :
    Aligned (c.renew source value now).entries ((source, now) :: touches) now := by
  obtain ⟨rest, hrenew, hsub, hne, -⟩ := renew_entries h.aligned.nodup source value now
  rw [hrenew]
  exact (h.aligned.sublist hsub).concat (e := ⟨source, value, source.length, now⟩) hne rfl rfl

/-- The entries that are left of a cache when expired ones have been dropped, the new one among
    them. -/
theorem Tracks.dropWhile_renew (h : c.Tracks touches now) {source : String}
    (hmissing : c.contains now source = false) (value : α) :
    (c.renew source value now).entries.dropWhile (c.isExpired now) =
      c.candidates now source value := by
  have hnew : c.isExpired now ⟨source, value, source.length, now⟩ =
      decide (c.bounds.sliding ≤ 0) := by
    simp [isExpired]
  rw [dropWhile_eq_filter (pairwise_isExpired (h.aligned_renew source value)),
    filter_renew hmissing, candidates]
  split
  · next hle => simp [hnew, hle]
  · next hle => simp [hnew, hle]

/-- A store that finds no result leaves as much of the candidates as the bounds allow, counts the
    others as evicted, and leaves nothing that has expired. -/
theorem Tracks.store_keeps (h : c.Tracks touches now) {source : String}
    (hmissing : c.contains now source = false) (value : α) :
    c.bounds.Keeps (c.candidates now source value) (c.store now source value).2.entries ∧
      (c.store now source value).2.counters.evictions +
          (c.store now source value).2.entries.length =
        c.counters.evictions + (c.candidates now source value).length ∧
      ∀ e ∈ (c.store now source value).2.entries, ¬c.bounds.sliding ≤ now - e.lastAccess := by
  have hstore : (c.store now source value).2 = (c.renew source value now).sweep now := by
    rcases c.store_cases_renew now source value with ⟨-, hc⟩ | ⟨e, he, hlive, -⟩
    · rw [hc]
    · simp [contains, he, hlive] at hmissing
  have haccounted : (c.renew source value now).Accounted :=
    Accounted.renew ⟨h.aligned.nodup, h.aligned.sizes, h.size_eq⟩ source value now
  have hbounds := renew_bounds c source value now
  have hdrop := h.dropWhile_renew hmissing value
  have hsuffix := sweep_suffix (c.renew source value now) now
  have hevictions := sweep_evictions (c.renew source value now) now
  have hcounted : (c.renew source value now).counters = c.counters := by
    unfold renew
    split <;> rfl
  obtain ⟨-, hfit, hlongest⟩ := sweep_spec now haccounted.size_eq
  rw [isExpired_congr hbounds, hdrop] at hsuffix hevictions hlongest
  rw [hbounds] at hfit hlongest
  rw [hcounted] at hevictions
  have hcandidates : ∀ e ∈ c.candidates now source value,
      e ∈ (c.renew source value now).entries ∧ ¬c.bounds.sliding ≤ now - e.lastAccess := by
    intro e he
    rw [← hdrop, dropWhile_eq_filter (pairwise_isExpired (h.aligned_renew source value))] at he
    simpa [isExpired] using he
  have hallows : ∀ l, l <:+ c.candidates now source value →
      (Fit c.bounds l ↔ c.bounds.Allows l) := fun l hl =>
    fit_iff_allows fun e he => haccounted.sizes e (hcandidates e (hl.mem he)).1
  rw [hstore]
  refine ⟨⟨hsuffix, hfit.imp_right (hallows _ hsuffix).1, ?_⟩, hevictions, ?_⟩
  · intro l hl hle
    exact hlongest l hl ((hallows l hl).2 hle)
  · intro e he
    exact (hcandidates e (hsuffix.mem he)).2

end

end Cache

/-! ## Runs -/

namespace History

section

variable [AddCommGroup τ] [LinearOrder τ] [IsOrderedAddMonoid τ]
  (parser : String → Except Failure Template)

/-- Under a clock that never goes back, the entries of a cache stand in the order of their last
    uses, so those that have expired come first. A store that finds no result that has not expired
    keeps, of the entries that have not and the new one, the longest end that is within the bounds.
    It counts as evicted what this leaves out, and nothing that has expired stays. -/
theorem keeps_run (bounds : Bounds τ) (ops : List (Operation τ)) (now : τ)
    (hclock : (ops.flatMap Operation.times ++ [now]).Pairwise (· ≤ ·)) :
    let c := (run parser bounds ops).cache
    c.entries.Pairwise (fun e e' => e.lastAccess ≤ e'.lastAccess) ∧
      c.entries.filter (c.isExpired now) <+: c.entries ∧
      ∀ source value, c.contains now source = false →
        let c' := ((Operation.store now source value).perform parser c).2
        bounds.Keeps (c.candidates now source value) c'.entries ∧
          c'.counters.evictions + c'.entries.length =
            c.counters.evictions + (c.candidates now source value).length ∧
          ∀ e ∈ c'.entries, ¬bounds.sliding ≤ now - e.lastAccess := by
  intro c
  have htracks : c.Tracks (run parser bounds ops).touches now := tracks_run parser bounds ops hclock
  have hbounds : c.bounds = bounds := bounds_run parser bounds ops
  refine ⟨htracks.aligned.pairwise_lastAccess, ?_, ?_⟩
  · rw [← htracks.takeWhile_isExpired]
    exact List.takeWhile_prefix _
  · intro source value hmissing
    have hkeeps := htracks.store_keeps hmissing value
    rw [hbounds] at hkeeps
    exact hkeeps

/-- The first entry has expired, and of the other three only two are within the bounds. -/
theorem keeps_run_narrow :
    let c := (run (τ := Int) (fun _ => .ok {}) ⟨10, 3, 4⟩
      [.store 0 "a" ⟨0, {}⟩, .store 4 "bc" ⟨1, {}⟩, .store 5 "d" ⟨2, {}⟩]).cache
    let c' := ((Operation.store 12 "ef" ⟨3, {}⟩).perform (fun _ => .ok {}) c).2
    (c.candidates 12 "ef" ⟨3, {}⟩).map (·.source) = ["bc", "d", "ef"] ∧
      c'.entries.map (·.source) = ["d", "ef"] ∧
      Bounds.Keeps ⟨10, 3, 4⟩ (c.candidates 12 "ef" ⟨3, {}⟩) c'.entries := by
  have hkeeps := (keeps_run (τ := Int) (fun _ => .ok {}) ⟨10, 3, 4⟩
    [.store 0 "a" ⟨0, {}⟩, .store 4 "bc" ⟨1, {}⟩, .store 5 "d" ⟨2, {}⟩] 12
    (by decide +kernel)).2.2 "ef" ⟨3, {}⟩ (by decide +kernel)
  exact ⟨by decide +kernel, by decide +kernel, hkeeps.1⟩

end

end History

end Stencil
