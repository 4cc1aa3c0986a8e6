-- SUMMARY: Clients that ask a cache at the same time get one result as long as it stays there.
import Mathlib.Logic.Function.Basic
import Stencil.Proofs.Cache.Consistency

/-! # Sharing

Clients call for the result for a source at the same time. A call looks the source up; if nothing is
found, the client parses the source by itself and then stores what it has made. Looking up and
storing take one step each, and between the two anything may happen: other clients take their
steps, the cache is cleared, the clock is set. What a client has parsed may be any template. Results
carry serial numbers, so two calls get the same result only if they get the very same instance.

An entry leaves the cache in three ways: it is found to have expired, it is evicted, or the cache is
cleared. While it stays, every call for its source gets the result that it holds, also one that
comes too late with a result of its own.
-/

namespace Stencil

variable {ι τ α : Type}

/-! ## Entries that stay -/

namespace Cache

/-- The cache has an entry for the source that holds the value. -/
def Holds (c : Cache τ α) (source : String) (value : α) : Prop :=
  ∃ e ∈ c.entries, e.source = source ∧ e.value = value

variable {c : Cache τ α} {source other : String} {value : α}

theorem entry_eq_of_mem (hnodup : (c.entries.map (·.source)).Nodup) {e : Entry τ α}
    (he : e ∈ c.entries) : c.entry? e.source = some e := by
  cases hd : c.entry? e.source with
  | none => exact absurd rfl (source_ne_of_entry_eq_none hd he)
  | some d =>
    have heq := List.inj_on_of_nodup_map hnodup (mem_of_entry_eq hd) he (source_of_entry_eq hd)
    rw [heq]

/-- Whether using an entry or dropping it, other entries stay. -/
theorem mem_eraseP_of_ne (hnodup : (c.entries.map (·.source)).Nodup) {d e : Entry τ α}
    (he : c.entry? other = some e) (hd : d ∈ c.entries) (hne : d ≠ e) :
    d ∈ c.entries.eraseP (·.source = e.source) := by
  obtain ⟨rest, herase, hperm, -, -⟩ := exists_rest_of_nodup hnodup he
  rw [herase]
  exact (List.mem_cons.1 (hperm.mem_iff.1 hd)).resolve_left hne

/-- Using an entry takes no result away. -/
theorem Holds.touch (h : c.Holds source value) (hnodup : (c.entries.map (·.source)).Nodup)
    {e : Entry τ α} (he : c.entry? other = some e) (now : τ) :
    (c.touch e now).Holds source value := by
  obtain ⟨d, hd, hsource, hvalue⟩ := h
  by_cases hde : d = e
  · subst hde
    exact ⟨_, List.mem_append_right _ (List.mem_singleton.2 rfl), hsource, hvalue⟩
  · exact ⟨d, List.mem_append_left _ (mem_eraseP_of_ne hnodup he hd hde), hsource, hvalue⟩

theorem holds_touch {e : Entry τ α} (he : c.entry? source = some e) (now : τ) :
    (c.touch e now).Holds source e.value :=
  ⟨_, List.mem_append_right _ (List.mem_singleton.2 rfl), source_of_entry_eq (e := e) he, rfl⟩

variable [Sub τ] [LE τ] [DecidableLE τ] {now : τ}

/-- A look-up leaves a result in the cache unless it finds it expired. -/
theorem Holds.lookup (h : c.Holds source value) (hnodup : (c.entries.map (·.source)).Nodup)
    (hkept : ∀ d, d.source = source → d.value = value →
      ¬(c.entry? other = some d ∧ c.isExpired now d = true)) :
    (c.lookup now other).2.Holds source value := by
  rcases c.lookup_cases now other with ⟨-, hc⟩ | ⟨e, he, hexpired, hc⟩ | ⟨e, he, -, hc⟩
  · rw [hc]
    exact h
  · rw [hc]
    obtain ⟨d, hd, hsource, hvalue⟩ := h
    have hde : d ≠ e := by
      rintro rfl
      exact hkept d hsource hvalue ⟨he, hexpired⟩
    exact ⟨d, mem_eraseP_of_ne hnodup he hd hde, hsource, hvalue⟩
  · rw [hc]
    exact h.touch hnodup he now

/-- A look-up finds the result that the cache holds unless it has expired. -/
theorem Holds.lookup_eq (h : c.Holds source value) (hnodup : (c.entries.map (·.source)).Nodup)
    (hkept : ∀ d, d.source = source → d.value = value →
      ¬(c.entry? source = some d ∧ c.isExpired now d = true)) :
    (c.lookup now source).1 = some value := by
  obtain ⟨d, hd, rfl, rfl⟩ := h
  have hentry := entry_eq_of_mem hnodup hd
  rcases c.lookup_cases now d.source with ⟨he, -⟩ | ⟨e, he, hexpired, -⟩ | ⟨e, he, -, hc⟩
  · rw [hentry] at he
    cases he
  · rw [hentry] at he
    cases he
    exact absurd ⟨hentry, hexpired⟩ (hkept d rfl rfl)
  · rw [hentry] at he
    cases he
    rw [hc]

omit [Sub τ] [LE τ] [DecidableLE τ] in
/-- A new entry for a source leaves the results for other ones. -/
theorem Holds.renew (h : c.Holds source value) (hnodup : (c.entries.map (·.source)).Nodup)
    (hkept : ∀ d, d.source = source → d.value = value → c.entry? other ≠ some d) (new : α)
    (now : τ) : (c.renew other new now).Holds source value := by
  obtain ⟨d, hd, hsource, hvalue⟩ := h
  obtain ⟨rest, hrenew, -, -, hrest⟩ := renew_entries hnodup other new now
  have hne : d.source ≠ other := by
    rintro rfl
    exact hkept d hsource hvalue (entry_eq_of_mem hnodup hd)
  exact ⟨d, hrenew ▸ List.mem_append_left _ (hrest d hd hne), hsource, hvalue⟩

omit [Sub τ] [LE τ] [DecidableLE τ] in
theorem holds_renew (c : Cache τ α) (source : String) (value : α) (now : τ) :
    (c.renew source value now).Holds source value :=
  ⟨_, List.mem_append_right _ (List.mem_singleton.2 rfl), rfl, rfl⟩

/-- Sweeping leaves a result in the cache unless it has expired or is evicted. -/
theorem Holds.sweep (h : c.Holds source value)
    (hexpired : ∀ d, d.source = source → d.value = value →
      d ∉ c.entries.takeWhile (c.isExpired now))
    (hevicted : ∀ d, d.source = source → d.value = value →
      ¬(d ∈ (c.dropExpired now).entries ∧ d ∉ (c.sweep now).entries)) :
    (c.sweep now).Holds source value := by
  obtain ⟨d, hd, hsource, hvalue⟩ := h
  rw [← List.takeWhile_append_dropWhile (p := c.isExpired now) (l := c.entries)] at hd
  have hdropped : d ∈ (c.dropExpired now).entries :=
    (List.mem_append.1 hd).resolve_left (hexpired d hsource hvalue)
  refine ⟨d, ?_, hsource, hvalue⟩
  by_contra hswept
  exact hevicted d hsource hvalue ⟨hdropped, hswept⟩

end Cache

/-! ## Clients -/

/-- Clients that share a cache. -/
structure Clients (ι τ : Type) where
  cache : Cache τ Instance
  /-- What the clock shows. -/
  now : τ
  /-- The source that a client is parsing, if a call of it is under way. -/
  parsing : ι → Option String

/-- What happens in one step. -/
inductive Move (ι τ : Type)
  /-- A call begins, and it ends at once if something is found. -/
  | lookup (client : ι) (source : String) (found : Option Instance)
  /-- A call ends: what the client has parsed is stored, and it gets what the cache holds then. -/
  | store (client : ι) (source : String) (value held : Instance)
  /-- A call ends because parsing fails. -/
  | fail (client : ι)
  | clear
  | setClock (now : τ)

namespace Move

/-- The source that a look-up or a store is about. -/
def source? : Move ι τ → Option String
  | .lookup _ source _ => some source
  | .store _ source _ _ => some source
  | _ => none

/-- The result that a call ends with, and the source that it belongs to. -/
def returned? : Move ι τ → Option (String × Instance)
  | .lookup _ source found => found.map (source, ·)
  | .store _ source _ held => some (source, held)
  | _ => none

/-- A result that a step returns is one for the source that the step is about. -/
theorem source_of_returned {m : Move ι τ} {source : String} {value : Instance}
    (h : m.returned? = some (source, value)) : m.source? = some source := by
  cases m with
  | lookup client other found =>
    obtain ⟨_, rfl, rfl, rfl⟩ : ∃ v, found = some v ∧ other = source ∧ v = value := by
      simpa [returned?] using h
    rfl
  | store client other new held =>
    cases h
    rfl
  | fail | clear | setClock => cases h

end Move

namespace Clients

/-- Nobody has asked an empty cache for anything. -/
def start (bounds : Bounds τ) (now : τ) : Clients ι τ :=
  { cache := { bounds }, now, parsing := fun _ => none }

section

variable [DecidableEq ι] [Sub τ] [LE τ] [DecidableLE τ]

/-- The steps that may come next, and what they lead to. -/
inductive Step : Clients ι τ → Move ι τ → Clients ι τ → Prop
  | lookup {s : Clients ι τ} (client : ι) (source : String) (idle : s.parsing client = none) :
    Step s (.lookup client source (s.cache.lookup s.now source).1)
      { s with
        cache := (s.cache.lookup s.now source).2
        parsing := Function.update s.parsing client
          (if (s.cache.lookup s.now source).1.isSome then none else some source) }
  | store {s : Clients ι τ} (client : ι) {source : String} (value : Instance)
    (parsed : s.parsing client = some source) :
    Step s (.store client source value (s.cache.store s.now source value).1)
      { s with
        cache := (s.cache.store s.now source value).2
        parsing := Function.update s.parsing client none }
  | fail {s : Clients ι τ} {client : ι} {source : String}
    (parsed : s.parsing client = some source) :
    Step s (.fail client) { s with parsing := Function.update s.parsing client none }
  | clear {s : Clients ι τ} : Step s .clear { s with cache := s.cache.clear }
  | setClock {s : Clients ι τ} (now : τ) : Step s (.setClock now) { s with now }

/-- Steps one after the other, each with the state before it. -/
inductive Run : Clients ι τ → List (Clients ι τ × Move ι τ) → Clients ι τ → Prop
  | nil (s : Clients ι τ) : Run s [] s
  | cons {s s' s'' : Clients ι τ} {m : Move ι τ} {trace : List (Clients ι τ × Move ι τ)}
    (step : Step s m s') (rest : Run s' trace s'') : Run s ((s, m) :: trace) s''

end

/-! ## How entries leave -/

section

variable [Sub τ] [LE τ] [DecidableLE τ]

/-- The step meets an entry, finds that it has expired and drops it. -/
def Expires (s : Clients ι τ) (d : Entry τ Instance) : Move ι τ → Prop
  | .lookup _ source _ => s.cache.entry? source = some d ∧ s.cache.isExpired s.now d = true
  | .store _ source value _ =>
    s.cache.contains s.now source = false ∧
      (s.cache.entry? source = some d ∨
        d ∈ (s.cache.renew source value s.now).entries.takeWhile
          ((s.cache.renew source value s.now).isExpired s.now))
  | _ => False

/-- The step evicts an entry, be it the one that it stores. -/
def Evicts (s : Clients ι τ) (d : Entry τ Instance) : Move ι τ → Prop
  | .store _ source value _ =>
    s.cache.contains s.now source = false ∧
      d ∈ ((s.cache.renew source value s.now).dropExpired s.now).entries ∧
      d ∉ ((s.cache.renew source value s.now).sweep s.now).entries
  | _ => False

/-- The step clears the cache of an entry. -/
def Clears (s : Clients ι τ) (d : Entry τ Instance) : Move ι τ → Prop
  | .clear => d ∈ s.cache.entries
  | _ => False

/-- The step takes the entry away that holds a result for a source. -/
def Removes (s : Clients ι τ) (source : String) (value : Instance) (m : Move ι τ) : Prop :=
  ∃ d, d.source = source ∧ d.value = value ∧ (s.Expires d m ∨ s.Evicts d m ∨ s.Clears d m)

end

section

variable [DecidableEq ι] [Sub τ] [LE τ] [DecidableLE τ] {s s' : Clients ι τ} {m : Move ι τ}
  {source : String} {value : Instance}

/-! ## One step -/

theorem Step.accounted (h : Step s m s') (hs : s.cache.Accounted) : s'.cache.Accounted := by
  cases h with
  | lookup => exact hs.lookup _ _
  | store client value => exact hs.store _ _ value
  | fail => exact hs
  | clear => exact .of_entries_eq_nil rfl rfl
  | setClock => exact hs

/-- A result stays in the cache unless the step takes it away. -/
theorem Step.holds (h : Step s m s') (hs : s.cache.Accounted) (hheld : s.cache.Holds source value)
    (hkept : ¬s.Removes source value m) : s'.cache.Holds source value := by
  cases h with
  | lookup client other idle =>
    apply hheld.lookup hs.nodup
    intro d hsource hvalue hd
    exact hkept ⟨d, hsource, hvalue, .inl hd⟩
  | @store client other new parsed =>
    rcases s.cache.store_cases_renew s.now other new with ⟨hmissing, hc⟩ | ⟨e, he, -, hc⟩
    · have hrenew : (s.cache.renew other new s.now).Holds source value := by
        apply hheld.renew hs.nodup
        intro d hsource hvalue hd
        exact hkept ⟨d, hsource, hvalue, .inl ⟨hmissing, .inl hd⟩⟩
      rw [hc]
      apply hrenew.sweep
      · intro d hsource hvalue hd
        exact hkept ⟨d, hsource, hvalue, .inl ⟨hmissing, .inr hd⟩⟩
      · intro d hsource hvalue hd
        exact hkept ⟨d, hsource, hvalue, .inr (.inl ⟨hmissing, hd⟩)⟩
    · rw [hc]
      exact hheld.touch hs.nodup he s.now
  | fail => exact hheld
  | clear =>
    obtain ⟨d, hd, hsource, hvalue⟩ := hheld
    exact absurd ⟨d, hsource, hvalue, .inr (.inr hd)⟩ hkept
  | setClock => exact hheld

/-- A look-up and a store get the result that the cache holds unless they take it away. -/
theorem Step.returned_of_holds (h : Step s m s') (hs : s.cache.Accounted)
    (hheld : s.cache.Holds source value) (hkept : ¬s.Removes source value m)
    (hsource : m.source? = some source) : m.returned? = some (source, value) := by
  cases h with
  | lookup client other idle =>
    obtain rfl := Option.some.inj hsource
    have hfound : (s.cache.lookup s.now other).1 = some value := by
      apply hheld.lookup_eq hs.nodup
      intro d hsource hvalue hd
      exact hkept ⟨d, hsource, hvalue, .inl hd⟩
    simp [Move.returned?, hfound]
  | store client new parsed =>
    obtain rfl := Option.some.inj hsource
    obtain ⟨d, hd, rfl, rfl⟩ := hheld
    have hentry := Cache.entry_eq_of_mem hs.nodup hd
    rcases s.cache.store_cases_renew s.now d.source new with ⟨hmissing, -⟩ | ⟨e, he, -, hc⟩
    · exact absurd ⟨d, rfl, rfl, .inl ⟨hmissing, .inl hentry⟩⟩ hkept
    · rw [hentry] at he
      cases he
      rw [hc]
      rfl
  | fail | clear | setClock => cases hsource

/-- The cache holds what a call ends with, unless that does not fit or expires at once. -/
theorem Step.holds_of_returned (h : Step s m s') (hreturned : m.returned? = some (source, value))
    (hkept : ¬s.Removes source value m) : s'.cache.Holds source value := by
  cases h with
  | lookup client other idle =>
    rcases s.cache.lookup_cases s.now other with ⟨-, hc⟩ | ⟨e, -, -, hc⟩ | ⟨e, he, -, hc⟩
    · simp [Move.returned?, hc] at hreturned
    · simp [Move.returned?, hc] at hreturned
    · rw [hc] at hreturned ⊢
      cases hreturned
      exact Cache.holds_touch he s.now
  | @store client other new parsed =>
    rcases s.cache.store_cases_renew s.now other new with ⟨hmissing, hc⟩ | ⟨e, he, -, hc⟩
    · rw [hc] at hreturned ⊢
      cases hreturned
      apply (Cache.holds_renew s.cache _ _ s.now).sweep
      · intro d hsource hvalue hd
        exact hkept ⟨d, hsource, hvalue, .inl ⟨hmissing, .inr hd⟩⟩
      · intro d hsource hvalue hd
        exact hkept ⟨d, hsource, hvalue, .inr (.inl ⟨hmissing, hd⟩)⟩
    · rw [hc] at hreturned ⊢
      cases hreturned
      exact Cache.holds_touch he s.now
  | fail | clear | setClock => cases hreturned

/-! ## Runs -/

variable {trace : List (Clients ι τ × Move ι τ)}

/-- Clients that take turns leave at most one entry for each source. -/
theorem Run.accounted (h : Run s trace s') (hs : s.cache.Accounted) : s'.cache.Accounted := by
  induction h with
  | nil => exact hs
  | cons step rest ih => exact ih (step.accounted hs)

/-- A result stays in the cache unless a step takes it away. -/
theorem Run.holds (h : Run s trace s') (hs : s.cache.Accounted)
    (hheld : s.cache.Holds source value)
    (hkept : ∀ x ∈ trace, ¬x.1.Removes source value x.2) : s'.cache.Holds source value := by
  induction h with
  | nil => exact hheld
  | cons step rest ih =>
    obtain ⟨hstep, hrest⟩ := List.forall_mem_cons.1 hkept
    exact ih (step.accounted hs) (step.holds hs hheld hstep) hrest

/-- A call that no other client comes between gets what asking the cache alone would give, and
    leaves the cache as that would. -/
theorem exists_run_getOrParse (parse : String → Except Failure Instance) {client : ι}
    (idle : s.parsing client = none) (after : τ) (source : String) :
    ∃ trace s', Run s trace s' ∧ s'.parsing client = none ∧
      s'.cache = (s.cache.getOrParse parse s.now after source).2 ∧
      (trace.filterMap (·.2.returned?)) =
        ((s.cache.getOrParse parse s.now after source).1.toOption.map (source, ·)).toList := by
  have hlookup := Step.lookup client source idle
  unfold Cache.getOrParse
  cases hfound : s.cache.lookup s.now source with
  | mk found c =>
    rw [hfound] at hlookup
    cases found with
    | some value => exact ⟨_, _, .cons hlookup (.nil _), by simp, rfl, rfl⟩
    | none =>
      have hparsing : Function.update s.parsing client (some source) client = some source := by simp
      cases parse source with
      | error e =>
        exact ⟨_, _, .cons hlookup (.cons (.fail hparsing) (.nil _)), by simp, rfl, rfl⟩
      | ok value =>
        have hstore := Step.store (s := { s with
          cache := c, now := after, parsing := Function.update s.parsing client (some source) })
          client value hparsing
        exact ⟨_, _, .cons hlookup (.cons (.setClock after) (.cons hstore (.nil _))), by simp, rfl,
          rfl⟩

/-- Two calls for a source get the same result unless the entry with that of the first one has been
    taken away by the second one at the latest: while it is in the cache, all calls get it. -/
theorem one_result {bounds : Bounds τ} {now : τ} {before : List (Clients ι τ × Move ι τ)}
    {s₁ s₂ s₃ : Clients ι τ} {a b : Move ι τ} (hbefore : Run (start bounds now) before s)
    (ha : Step s a s₁) (hreturned : a.returned? = some (source, value))
    (htrace : Run s₁ trace s₂) (hb : Step s₂ b s₃) :
    (s₁.cache.Holds source value → (∀ x ∈ trace ++ [(s₂, b)], ¬x.1.Removes source value x.2) →
        b.source? = some source → b.returned? = some (source, value)) ∧
      ∀ other, b.returned? = some (source, other) → other ≠ value →
        ¬s₁.cache.Holds source value ∧ s.Removes source value a ∨
          ∃ x ∈ trace ++ [(s₂, b)], x.1.Removes source value x.2 := by
  have hs : s.cache.Accounted := hbefore.accounted (.of_entries_eq_nil rfl rfl)
  have hs₁ : s₁.cache.Accounted := ha.accounted hs
  have hs₂ : s₂.cache.Accounted := htrace.accounted hs₁
  have hkeeps : s₁.cache.Holds source value →
      (∀ x ∈ trace ++ [(s₂, b)], ¬x.1.Removes source value x.2) →
      b.source? = some source → b.returned? = some (source, value) := by
    intro hheld hkept hsource
    obtain ⟨htrace_kept, hb_kept⟩ := List.forall_mem_append.1 hkept
    have hb_kept := List.forall_mem_singleton.1 hb_kept
    exact hb.returned_of_holds hs₂ (htrace.holds hs₁ hheld htrace_kept) hb_kept hsource
  refine ⟨hkeeps, ?_⟩
  intro other hother hne
  by_contra hremoved
  obtain ⟨hfirst, hkept⟩ := not_or.1 hremoved
  have hheld : s₁.cache.Holds source value := by
    by_contra hmissing
    exact hmissing (ha.holds_of_returned hreturned fun h => hfirst ⟨hmissing, h⟩)
  have hsame : b.returned? = some (source, value) :=
    hkeeps hheld (fun x hx h => hkept ⟨x, hx, h⟩) (Move.source_of_returned hother)
  rw [hother] at hsame
  cases hsame
  exact hne rfl

/-- Two clients parse a source at the same time. The one that is late gets the result of the other
    one. -/
theorem one_result_late :
    ∃ s s' s'' : Clients Bool Int, ∃ held : Instance,
      Step s (.store true "a" ⟨0, {}⟩ ⟨0, {}⟩) s' ∧ Step s' (.store false "a" ⟨1, {}⟩ held) s'' ∧
        (Move.store false "a" ⟨1, {}⟩ held : Move Bool Int).returned? = some ("a", ⟨0, {}⟩) := by
  obtain ⟨before, ⟨cache, now, parsing⟩, hbefore, hcache, hnow, hparsing⟩ :
      ∃ before s, Run (start ⟨10, 2, 5⟩ (0 : Int)) before s ∧
        s.cache = { bounds := ⟨10, 2, 5⟩, counters := { misses := 2 } } ∧ s.now = 0 ∧
        ∀ client : Bool, s.parsing client = some "a" :=
    ⟨_, _, .cons (.lookup true "a" rfl) (.cons (.lookup false "a" rfl) (.nil _)), rfl, rfl,
      Bool.forall_bool.2 ⟨rfl, rfl⟩⟩
  cases hcache
  cases hnow
  have hfirst := Step.store true (⟨0, {}⟩ : Instance) (hparsing true)
  have hfalse := (Function.update_of_ne Bool.false_ne_true none parsing).trans (hparsing false)
  refine ⟨_, _, _, _, hfirst, .store false ⟨1, {}⟩ hfalse,
    (one_result hbefore hfirst rfl (.nil _) (.store false ⟨1, {}⟩ hfalse)).1 ?_ ?_ rfl⟩
  · exact ⟨⟨"a", ⟨0, {}⟩, 1, 0⟩, List.mem_singleton.2 rfl, rfl, rfl⟩
  · intro x hx
    obtain rfl := List.mem_singleton.1 hx
    rintro ⟨d, -, -, ⟨hmissing, -⟩ | ⟨hmissing, -⟩ | hcleared⟩
    · exact Bool.noConfusion (hmissing : true = false)
    · exact Bool.noConfusion (hmissing : true = false)
    · exact hcleared

end

end Clients

end Stencil
