-- SUMMARY: A source that cannot be parsed leaves no entry, only what the look-up does to a cache.
import Stencil.Proofs.Cache.Recency

/-! # Failed parses

Asking for the result for a source looks the source up first, and if nothing is found, the parser is
called between the look-up and the storing. When the parser fails, the effects of the look-up stay:
the miss is counted, and an entry for the source that has expired is gone. Nothing else about the
cache moves, whatever state it is in. So a source that cannot be parsed is never among the entries,
unless a client stores a result for it that the parser has not made.
-/

namespace Stencil

variable {τ α : Type}

namespace Cache

section

variable [Sub τ] [LE τ] [DecidableLE τ]

/-- What a look-up that finds nothing makes of a cache. -/
inductive Missed (c : Cache τ α) (now : τ) (source : String) : Cache τ α → Prop
  /-- There is no entry for the source: only the miss is counted. -/
  | absent (missing : ∀ e ∈ c.entries, e.source ≠ source) :
    Missed c now source
      { c with counters := { c.counters with misses := c.counters.misses + 1 } }
  /-- The entry for the source has expired: it is gone, the others stay as they are. -/
  | expired (earlier later : List (Entry τ α)) (e : Entry τ α)
    (split : c.entries = earlier ++ e :: later) (source_eq : e.source = source)
    (unused : c.bounds.sliding ≤ now - e.lastAccess) :
    Missed c now source
      { c with
        entries := earlier ++ later
        size := c.size - e.size
        counters :=
          { c.counters with
            misses := c.counters.misses + 1
            expirations := c.counters.expirations + 1 } }

/-- Without an unexpired entry a look-up finds nothing and changes just what a miss changes. -/
theorem lookup_missed {c : Cache τ α} {now : τ} {source : String}
    (hmissing : c.contains now source = false) :
    (c.lookup now source).1 = none ∧ c.Missed now source (c.lookup now source).2 := by
  rcases c.lookup_cases now source with ⟨he, hc⟩ | ⟨e, he, hexpired, hc⟩ | ⟨e, he, hlive, -⟩
  · rw [hc]
    exact ⟨rfl, .absent fun d hd => source_ne_of_entry_eq_none he hd⟩
  · obtain ⟨earlier, later, hsplit, herase⟩ := exists_split_of_entry_eq he
    have hmissed :=
      Missed.expired earlier later e hsplit (source_of_entry_eq he) (isExpired_iff.1 hexpired)
    rw [← herase] at hmissed
    rw [hc]
    exact ⟨rfl, hmissed⟩
  · simp [contains, he, hlive] at hmissing

/-- When the parser fails, what is left is what the look-up leaves. -/
theorem getOrParse_of_error {ε : Type} {parse : String → Except ε α} {c : Cache τ α}
    {before : τ} {source : String} {f : ε} (hfail : parse source = .error f)
    (hmissing : c.contains before source = false) (after : τ) :
    c.getOrParse parse before after source = (.error f, (c.lookup before source).2) := by
  have hnone := (lookup_missed hmissing).1
  unfold getOrParse
  split
  · next value c' hfound =>
    rw [hfound] at hnone
    cases hnone
  · next c' hfound => rw [hfail, hfound]

end

end Cache

/-! ## Sources that parse -/

/-- The client stores results only for sources that can be parsed, whatever they are. -/
def Operation.StoresParsed (parser : String → Except Failure Template) : Operation τ → Prop
  | .store _ source _ => ∃ t, parser source = .ok t
  | _ => True

/-- The source of every entry can be parsed. -/
def Cache.Parses (parser : String → Except Failure Template) (c : Cache τ α) : Prop :=
  ∀ e ∈ c.entries, ∃ t, parser e.source = .ok t

variable [Sub τ] [LE τ] [DecidableLE τ] {parser : String → Except Failure Template}

theorem Cache.Parses.lookup {c : Cache τ α} (h : c.Parses parser) (now : τ) (source : String) :
    (c.lookup now source).2.Parses parser := by
  intro e he
  obtain ⟨d, hd, hsource, -⟩ := mem_lookup he
  rw [← hsource]
  exact h d hd

theorem Cache.Parses.store {c : Cache τ α} (h : c.Parses parser) {source : String}
    (hsource : ∃ t, parser source = .ok t) (now : τ) (value : α) :
    (c.store now source value).2.Parses parser := by
  intro e he
  rcases mem_store he with ⟨hs, -⟩ | ⟨d, hd, hs, -⟩
  · rw [hs]
    exact hsource
  · rw [← hs]
    exact h d hd

/-- No operation gives an entry to a source that cannot be parsed. -/
theorem Operation.parses_perform {op : Operation τ} (hop : op.StoresParsed parser)
    {c : Cache τ Instance} (h : c.Parses parser) : (op.perform parser c).2.Parses parser := by
  have hparse : ∀ before after source serial,
      (c.getOrParse (numbered parser serial) before after source).2.Parses parser := by
    intro before after source serial
    refine c.getOrParse_invariant h (fun c hc => hc.lookup before source) ?_
    intro c value hc hnumbered
    refine hc.store ?_ after value
    cases hsource : parser source with
    | ok t => exact ⟨t, rfl⟩
    | error f => simp [numbered, hsource, Except.map] at hnumbered
  cases op with
  | get now source => exact h.lookup now source
  | parse before after source serial => exact hparse before after source serial
  | tryParse before after source serial => exact hparse before after source serial
  | store now source value => exact h.store hop now value
  | clear =>
    intro e he
    cases he
  | contains | size | stats => exact h

namespace History

/-- In a run whose clients store only what can be parsed, no failing source ever has an entry. -/
theorem parses_run (bounds : Bounds τ) (ops : List (Operation τ))
    (hops : ∀ op ∈ ops, op.StoresParsed parser) : (run parser bounds ops).cache.Parses parser := by
  induction ops using List.reverseRecOn with
  | nil =>
    intro e he
    cases he
  | append_singleton ops op ih =>
    obtain ⟨hops, hop⟩ := List.forall_mem_append.1 hops
    rw [run, List.foldl_append]
    exact Operation.parses_perform (hop op List.mem_cons_self) (ih hops)

variable (parser) in
/-- Asking for a source that cannot be parsed, where no result for it is found, reports the error of
    the parser and leaves what the look-up leaves, whatever the state of the cache. So in a run in
    which results are stored only for sources that can be parsed, no such source has an entry. -/
theorem failed_parse {source : String} {f : Failure} (hfail : parser source = .error f) :
    (∀ (c : Cache τ Instance) (before after : τ) (serial : Nat),
      c.contains before source = false →
      ∃ c', c.Missed before source c' ∧
        (Operation.parse before after source serial).perform parser c =
          (.parsed (.error f), c') ∧
        (Operation.tryParse before after source serial).perform parser c =
          (.tried (catchParseError (.error f)), c')) ∧
      ∀ (bounds : Bounds τ) (ops : List (Operation τ)),
        (∀ op ∈ ops, op.StoresParsed parser) →
        ∀ e ∈ (run parser bounds ops).cache.entries, e.source ≠ source := by
  constructor
  · intro c before after serial hmissing
    have hnumbered : Operation.numbered parser serial source = .error f := by
      simp [Operation.numbered, hfail, Except.map]
    have hresult := Cache.getOrParse_of_error hnumbered hmissing after
    refine ⟨_, (Cache.lookup_missed hmissing).2, ?_, ?_⟩
    · simp only [Operation.perform, hresult]
    · simp only [Operation.perform, hresult]
  · rintro bounds ops hops e he rfl
    obtain ⟨t, ht⟩ := parses_run bounds ops hops e he
    cases hfail.symm.trans ht

/-- A client has stored a result for a source that cannot be parsed. It has expired when the source
    is asked for. -/
theorem failed_parse_unclosed :
    let c := (run (τ := Int) parseTemplate ⟨10, 5, 50⟩
      [.store 0 "#\x7b" ⟨0, {}⟩, .store 4 "Hi" ⟨1, {}⟩]).cache
    ∃ f c', parseTemplate "#\x7b" = .error f ∧ c.Missed 12 "#\x7b" c' ∧
      (Operation.parse 12 13 "#\x7b" 2).perform parseTemplate c = (.parsed (.error f), c') ∧
      ∀ e ∈ (run (τ := Int) parseTemplate ⟨10, 5, 50⟩
        [.parse 0 1 "#\x7b" 0, .store 4 "Hi" ⟨1, {}⟩]).cache.entries, e.source ≠ "#\x7b" := by
  have hrefused : (parseTemplate "#\x7b").toBool = false := by decide +kernel
  have hok : parseTemplate "Hi" = .ok ⟨[.text ["Hi"] (some .start)]⟩ := by
    with_unfolding_all rfl
  cases hfail : parseTemplate "#\x7b" with
  | ok t =>
    rw [hfail] at hrefused
    cases hrefused
  | error f =>
    obtain ⟨hmissed, hkeys⟩ := failed_parse (τ := Int) parseTemplate hfail
    obtain ⟨c', hc', hparse, -⟩ := hmissed (run (τ := Int) parseTemplate ⟨10, 5, 50⟩
      [.store 0 "#\x7b" ⟨0, {}⟩, .store 4 "Hi" ⟨1, {}⟩]).cache 12 13 2 (by decide +kernel)
    refine ⟨f, c', rfl, hc', hparse, hkeys _ _ ?_⟩
    simp [Operation.StoresParsed, hok]

end History

end Stencil
