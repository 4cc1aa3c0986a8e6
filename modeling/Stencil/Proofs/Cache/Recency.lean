-- SUMMARY: Which sources a run of a cache has used, when, and in which order.
import Mathlib.Algebra.Order.Group.Defs
import Mathlib.Data.Finset.Basic
import Stencil.Proofs.Cache.Entries
import Stencil.Proofs.Cache.Run

/-! # Recency

A source is touched when a look-up finds it and when a result is stored for it. The history of a
run keeps the touches since the cache was last cleared, most recent first. It says nothing about
which entries there are: that they follow from it is what the law of retention says.
-/

namespace Stencil

variable {τ : Type}

/-- Uses of sources with their times, the most recent first. -/
abbrev Touches (τ : Type) := List (String × τ)

namespace Touches

/-- How many touches have come after the last one of a source. -/
def age (touches : Touches τ) (source : String) : Nat :=
  (touches.map Prod.fst).idxOf source

/-- The sources touched since the last touch of a source, that one included. -/
def since (touches : Touches τ) (source : String) : Finset String :=
  ((touches.map Prod.fst).take (touches.age source + 1)).toFinset

theorem age_cons (x : String × τ) (touches : Touches τ) (source : String) :
    Touches.age (x :: touches) source = if x.1 = source then 0 else touches.age source + 1 := by
  simp [age, List.idxOf_cons]

/-- A source was touched since the last touch of another one if its own last touch is no older. -/
theorem mem_since {touches : Touches τ} {source other : String} :
    other ∈ touches.since source ↔
      other ∈ touches.map Prod.fst ∧ touches.age other ≤ touches.age source := by
  rw [since, List.mem_toFinset]
  constructor
  · intro h
    have hmem := List.mem_of_mem_take h
    exact ⟨hmem, Nat.lt_succ_iff.1 ((List.mem_take_iff_idxOf_lt hmem).1 h)⟩
  · rintro ⟨hmem, hle⟩
    exact (List.mem_take_iff_idxOf_lt hmem).2 (Nat.lt_succ_iff.2 hle)

theorem lookup_cons_ne {touches : Touches τ} {source other : String} (now : τ)
    (h : other ≠ source) :
    List.lookup other ((source, now) :: touches) = touches.lookup other := by
  rw [List.lookup_cons, beq_false_of_ne h]

theorem mem_of_lookup {touches : Touches τ} {source : String} {t : τ}
    (h : touches.lookup source = some t) : (source, t) ∈ touches := by
  obtain ⟨later, earlier, rfl, -⟩ := List.lookup_eq_some_iff.1 h
  simp

theorem exists_lookup {touches : Touches τ} {source : String}
    (h : source ∈ touches.map Prod.fst) : ∃ t, touches.lookup source = some t := by
  apply Option.ne_none_iff_exists'.1
  intro hnone
  obtain ⟨x, hx, rfl⟩ := List.mem_map.1 h
  simpa using List.lookup_eq_none_iff.1 hnone x hx

/-- The touches are in the order of time. -/
def Ordered [LE τ] (touches : Touches τ) : Prop := touches.Pairwise fun x y => y.2 ≤ x.2

/-- What has been touched after a source, has been at a later time. -/
theorem Ordered.le_of_age_le [LinearOrder τ] {touches : Touches τ} (h : touches.Ordered)
    {source other : String} {t t' : τ} (ht : touches.lookup source = some t)
    (ht' : touches.lookup other = some t') (hle : touches.age other ≤ touches.age source) :
    t ≤ t' := by
  induction touches with
  | nil => cases ht
  | cons x touches ih =>
    obtain ⟨latest, now⟩ := x
    obtain ⟨hfirst, hrest⟩ := List.pairwise_cons.1 h
    by_cases hother : other = latest
    · subst hother
      rw [List.lookup_cons_self] at ht'
      cases ht'
      rcases List.mem_cons.1 (mem_of_lookup ht) with heq | hmem
      · cases heq
        exact le_refl _
      · exact hfirst _ hmem
    · have hsource : source ≠ latest := by
        rintro rfl
        simp [age_cons, Ne.symm hother] at hle
      rw [lookup_cons_ne now hother] at ht'
      rw [lookup_cons_ne now hsource] at ht
      apply ih hrest ht ht'
      simpa [age_cons, Ne.symm hother, Ne.symm hsource] using hle

/-! ## What one more touch changes -/

variable {touches : Touches τ} {source other : String} {now : τ}

theorem since_cons_self (touches : Touches τ) (source : String) (now : τ) :
    Touches.since ((source, now) :: touches) source = {source} := by
  simp [since, age_cons]

/-- A touch of one source adds it to what was touched since any other. -/
theorem since_cons_ne (h : other ≠ source) (now : τ) :
    Touches.since ((source, now) :: touches) other = insert source (touches.since other) := by
  simp [since, age_cons, h.symm]

/-- Of two sources, one has been touched since the other. -/
theorem since_subset_since (h : other ∈ touches.since source) :
    touches.since other ⊆ touches.since source := by
  intro x hx
  rw [mem_since] at h hx ⊢
  exact ⟨hx.1, hx.2.trans h.2⟩

theorem mem_since_self (h : source ∈ touches.map Prod.fst) : source ∈ touches.since source :=
  mem_since.2 ⟨h, Nat.le_refl _⟩

/-- Each entry was last used when its source was last touched, and the entries are in the order of
    these touches, the least recent one first. -/
structure Records {α : Type} (touches : Touches τ) (entries : List (Entry τ α)) : Prop where
  last : ∀ e ∈ entries, touches.lookup e.source = some e.lastAccess
  order : entries.Pairwise fun e e' => touches.age e'.source < touches.age e.source

namespace Records

variable {α : Type} {entries : List (Entry τ α)}

theorem nil (touches : Touches τ) : touches.Records ([] : List (Entry τ α)) := ⟨by simp, .nil⟩

theorem sublist (h : touches.Records entries) {entries' : List (Entry τ α)}
    (hsub : entries'.Sublist entries) : touches.Records entries' where
  last e he := h.last e (hsub.subset he)
  order := h.order.sublist hsub

/-- An entry for a source that is touched now comes last. -/
theorem concat (h : touches.Records entries) {e : Entry τ α}
    (hne : ∀ d ∈ entries, d.source ≠ e.source) (hlast : e.lastAccess = now) :
    Touches.Records ((e.source, now) :: touches) (entries ++ [e]) where
  last d hd := by
    rcases List.mem_append.1 hd with hd | hd
    · rw [lookup_cons_ne now (hne d hd)]
      exact h.last d hd
    · obtain rfl := List.mem_singleton.1 hd
      rw [List.lookup_cons_self, hlast]
  order := by
    refine List.pairwise_append.2 ⟨?_, List.pairwise_singleton _ _, ?_⟩
    · apply h.order.imp_of_mem
      intro d d' hd hd' hlt
      simpa [age_cons, (hne d hd).symm, (hne d' hd').symm] using hlt
    · intro d hd d' hd'
      obtain rfl := List.mem_singleton.1 hd'
      simp [age_cons, (hne d hd).symm]

end Records

end Touches

/-! ## Histories -/

/-- A cache and the touches since it was last cleared. -/
structure History (τ : Type) where
  cache : Cache τ Instance
  touches : Touches τ := []

section

variable [Sub τ] [LE τ] [DecidableLE τ] (parser : String → Except Failure Template)

/-- The touch of a source that is asked for: a hit, or the storing of what the parser makes. -/
def Operation.parseTouch? (c : Cache τ Instance) (before after : τ) (source : String) :
    Option (String × τ) :=
  if (c.lookup before source).1.isSome then some (source, before)
  else if (parser source).toBool then some (source, after)
  else none

/-- What an operation on a cache touches, and when. -/
def Operation.touch? (c : Cache τ Instance) : Operation τ → Option (String × τ)
  | .get now source => if (c.lookup now source).1.isSome then some (source, now) else none
  | .parse before after source _ => parseTouch? parser c before after source
  | .tryParse before after source _ => parseTouch? parser c before after source
  | .store now source _ => some (source, now)
  | _ => none

namespace History

/-- The history after one more operation. -/
def step (h : History τ) (op : Operation τ) : History τ :=
  { cache := (op.perform parser h.cache).2
    touches :=
      match op with
      | .clear => []
      | op => (op.touch? parser h.cache).toList ++ h.touches }

/-- The history of a run of an empty cache. -/
def run (bounds : Bounds τ) (ops : List (Operation τ)) : History τ :=
  ops.foldl (step parser) { cache := { bounds } }

theorem bounds_step (h : History τ) (op : Operation τ) :
    (h.step parser op).cache.bounds = h.cache.bounds :=
  op.bounds_perform parser h.cache

theorem bounds_run (bounds : Bounds τ) (ops : List (Operation τ)) :
    (run parser bounds ops).cache.bounds = bounds := by
  induction ops using List.reverseRecOn with
  | nil => rfl
  | append_singleton ops op ih =>
    rw [run, List.foldl_append]
    exact (bounds_step parser _ op).trans ih

end History

end

end Stencil
