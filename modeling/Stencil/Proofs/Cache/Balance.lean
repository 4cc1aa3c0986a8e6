-- SUMMARY: What has come into a cache is still there, has been counted on leaving, or was replaced.
import Mathlib.Data.List.Induction
import Stencil.Proofs.Cache.Consistency

/-! # The balance of a cache

Entries come into a cache when something is stored, and they leave it in five ways: an expired one
is dropped by a look-up or by a sweep, or a store puts a new one in its place; a sweep evicts; and
clearing drops all. The counters know of the first two and of eviction. What has come in is then
what is there, what the counters say, what clearing has dropped, and what has been replaced: an
expired entry that a store meets leaves without being counted. That takes a client that stores long
after it has looked the source up, while a client that looks up and stores at once never meets one.

Nothing is assumed about the bounds, the clock or the parser.
-/

namespace Stencil

variable {τ α : Type}

namespace Cache

/-- The entries that are there, and those that have been counted on leaving. -/
def known (c : Cache τ α) : Nat :=
  c.entries.length + c.counters.evictions + c.counters.expirations

theorem length_remove {c : Cache τ α} {source : String} {e : Entry τ α}
    (he : c.entry? source = some e) : (c.remove e).entries.length + 1 = c.entries.length := by
  obtain ⟨earlier, later, hsplit, herase⟩ := exists_split_of_entry_eq he
  rw [remove_entries, herase, hsplit]
  simp only [List.length_append, List.length_cons]
  omega

variable [Sub τ] [LE τ] [DecidableLE τ] (c : Cache τ α) (now : τ) (source : String)

/-- How many entries come in when a result is stored. -/
def inserted : Nat := if c.contains now source then 0 else 1

/-- How many expired entries the new one replaces. -/
def replaced : Nat :=
  match c.entry? source with
  | none => 0
  | some e => if c.isExpired now e then 1 else 0

/-- A sweep counts all that it drops. -/
theorem known_sweep : (c.sweep now).known = c.known := by
  have hevictions := c.sweep_evictions now
  have hexpirations := c.sweep_expirations now
  unfold known
  omega

/-- A look-up counts what it drops. -/
theorem known_lookup : (c.lookup now source).2.known = c.known := by
  rcases c.lookup_cases now source with ⟨-, h⟩ | ⟨e, he, -, h⟩ | ⟨e, he, -, h⟩
  · rw [h]
    rfl
  · have hlength := length_remove he
    rw [h]
    simp only [known, countMiss, countExpirations, remove] at hlength ⊢
    omega
  · have hlength := length_remove he
    rw [h]
    simp only [known, countHit, touch, remove, List.length_append, List.length_cons,
      List.length_nil] at hlength ⊢
    omega

/-- A store counts what it drops, apart from an entry that it replaces. -/
theorem known_store (value : α) :
    (c.store now source value).2.known + c.replaced now source =
      c.known + c.inserted now source := by
  rcases c.store_cases now source value with ⟨he, h⟩ | ⟨e, he, hexpired, h⟩ | ⟨e, he, hlive, h⟩
  · rw [h, known_sweep]
    simp [replaced, inserted, contains, he, known, insert]
    omega
  · have hlength := length_remove he
    rw [h, known_sweep]
    simp [replaced, inserted, contains, he, hexpired, known, insert, remove] at hlength ⊢
    omega
  · have hlength := length_remove he
    rw [h]
    simp [replaced, inserted, contains, he, hlive, known, touch, remove] at hlength ⊢
    omega

theorem replaced_le_one : c.replaced now source ≤ 1 := by
  unfold replaced
  split
  · exact Nat.zero_le 1
  · split <;> simp

/-- A look-up that finds nothing leaves no entry for the source, so a store right after it replaces
    none. -/
theorem replaced_lookup {c : Cache τ α} (h : c.Accounted) {source : String} {before : τ}
    (hmissing : (c.lookup before source).1 = none) (after : τ) :
    (c.lookup before source).2.replaced after source = 0 := by
  have hnone : Cache.entry? (c.lookup before source).2 source = none := by
    rcases c.lookup_cases before source with ⟨he, hc⟩ | ⟨e, he, -, hc⟩ | ⟨e, -, -, hc⟩
    · rw [hc]
      exact he
    · obtain ⟨rest, herase, -, -, hne⟩ := exists_rest_of_nodup h.nodup he
      obtain rfl := source_of_entry_eq he
      rw [hc, entry?, List.find?_eq_none]
      simpa [countMiss, countExpirations, herase] using hne
    · rw [hc] at hmissing
      cases hmissing
  simp [replaced, hnone]

end Cache

/-! ## Operations -/

/-- Clients may store what they have not just looked up. -/
def Operation.isStore : Operation τ → Bool
  | .store .. => true
  | _ => false

/-- A store that an operation comes to: the cache that it meets, the time and the source. -/
structure Storing (τ : Type) where
  cache : Cache τ Instance
  now : τ
  source : String

section

variable [Sub τ] [LE τ] [DecidableLE τ] (parser : String → Except Failure Template)

namespace Operation

/-- The store that asking for the result for a source comes to if there is no result yet. -/
def parseStoring? (c : Cache τ Instance) (before after : τ) (source : String) :
    Option (Storing τ) :=
  if (c.lookup before source).1.isNone ∧ (parser source).toBool then
    some ⟨(c.lookup before source).2, after, source⟩
  else none

/-- The store that an operation comes to, if it does. -/
def storing? (c : Cache τ Instance) : Operation τ → Option (Storing τ)
  | .parse before after source _ => parseStoring? parser c before after source
  | .tryParse before after source _ => parseStoring? parser c before after source
  | .store now source _ => some ⟨c, now, source⟩
  | _ => none

/-- How many entries an operation inserts. -/
def inserted (c : Cache τ Instance) (op : Operation τ) : Nat :=
  (op.storing? parser c).elim 0 fun s => s.cache.inserted s.now s.source

/-- How many expired entries it replaces. -/
def replaced (c : Cache τ Instance) (op : Operation τ) : Nat :=
  (op.storing? parser c).elim 0 fun s => s.cache.replaced s.now s.source

omit [Sub τ] [LE τ] [DecidableLE τ] in
/-- How many entries it drops by clearing. -/
def cleared (c : Cache τ Instance) : Operation τ → Nat
  | .clear => c.entries.length
  | _ => 0

end Operation

namespace Cache

/-- Asking for the result for a source counts what it drops, apart from what the store that it comes
    to replaces. -/
theorem known_getOrParse (c : Cache τ Instance) (before after : τ) (source : String)
    (serial : Nat) :
    (c.getOrParse (Operation.numbered parser serial) before after source).2.known +
        (Operation.parseStoring? parser c before after source).elim 0
          (fun s => s.cache.replaced s.now s.source) =
      c.known + (Operation.parseStoring? parser c before after source).elim 0
        fun s => s.cache.inserted s.now s.source := by
  have hlookup := c.known_lookup before source
  unfold getOrParse Operation.parseStoring?
  cases hfound : c.lookup before source with
  | mk found c' =>
    rw [hfound] at hlookup
    cases found with
    | some value => simpa using hlookup
    | none =>
      cases hparser : parser source with
      | error f => simpa [Operation.numbered, hparser, Except.map, Except.toBool] using hlookup
      | ok t =>
        have hstore := c'.known_store after source (Instance.mk serial t)
        rw [hlookup] at hstore
        simpa [Operation.numbered, hparser, Except.map, Except.toBool] using hstore

end Cache

namespace Operation

/-- One operation keeps the balance. -/
theorem known_perform (op : Operation τ) (c : Cache τ Instance) :
    (op.perform parser c).2.known + op.replaced parser c + op.cleared c =
      c.known + op.inserted parser c := by
  cases op with
  | get now source => exact c.known_lookup now source
  | parse before after source serial => exact c.known_getOrParse parser before after source serial
  | tryParse before after source serial =>
    exact c.known_getOrParse parser before after source serial
  | store now source value => exact c.known_store now source value
  | contains | size | stats => rfl
  | clear =>
    simp [perform, Cache.known, Cache.clear, replaced, inserted, storing?, cleared]
    omega

/-- Only a client that stores what it has not just looked up replaces an entry. -/
theorem replaced_le (op : Operation τ) {c : Cache τ Instance} (h : c.Accounted) :
    op.replaced parser c ≤ if op.isStore then 1 else 0 := by
  have hparse : ∀ before after source, (parseStoring? parser c before after source).elim 0
      (fun s => s.cache.replaced s.now s.source) = 0 := by
    intro before after source
    unfold parseStoring?
    split
    · next hstores =>
      exact Cache.replaced_lookup h (Option.isNone_iff_eq_none.1 hstores.1) after
    · rfl
  cases op with
  | parse before after source serial => exact (hparse before after source).le
  | tryParse before after source serial => exact (hparse before after source).le
  | store now source value => exact c.replaced_le_one now source
  | get | contains | size | stats | clear => exact Nat.zero_le _

/-- No operation leaves two entries for a source or a wrong size. -/
theorem accounted_perform (op : Operation τ) {c : Cache τ Instance} (h : c.Accounted) :
    (op.perform parser c).2.Accounted :=
  perform_invariant parser (fun _ now source hc => hc.lookup now source)
    (fun _ now source value hc => hc.store now source value)
    (fun _ _ => .of_entries_eq_nil rfl rfl) op h

end Operation

/-! ## Runs -/

/-- A cache, what has come into it, and what has left it without being counted. -/
structure Ledger (τ : Type) where
  cache : Cache τ Instance
  /-- The entries that stores have inserted. -/
  inserted : Nat := 0
  /-- The entries that were there when the cache was cleared. -/
  cleared : Nat := 0
  /-- The expired entries in whose place a store has put a new one. -/
  replaced : Nat := 0

namespace Ledger

/-- The ledger after one more operation. -/
def step (l : Ledger τ) (op : Operation τ) : Ledger τ where
  cache := (op.perform parser l.cache).2
  inserted := l.inserted + op.inserted parser l.cache
  cleared := l.cleared + op.cleared l.cache
  replaced := l.replaced + op.replaced parser l.cache

/-- The ledger of a run of an empty cache. -/
def run (bounds : Bounds τ) (ops : List (Operation τ)) : Ledger τ :=
  ops.foldl (step parser) { cache := { bounds } }

/-- The entries that have been inserted are the ones that are there and those that have left. -/
structure Balanced (l : Ledger τ) : Prop where
  accounted : l.cache.Accounted
  inserted_eq : l.inserted = l.cache.known + l.cleared + l.replaced

/-- Every operation keeps the balance, whatever state the cache is in. -/
theorem Balanced.step {l : Ledger τ} (h : l.Balanced) (op : Operation τ) :
    (l.step parser op).Balanced := by
  refine ⟨op.accounted_perform parser h.accounted, ?_⟩
  have hbalance := h.inserted_eq
  have hknown := op.known_perform parser l.cache
  simp only [Ledger.step]
  omega

/-- In every run the balance holds, and only stores that a client asks for can leave an entry
    uncounted. -/
theorem balanced_run (bounds : Bounds τ) (ops : List (Operation τ)) :
    (run parser bounds ops).Balanced ∧
      (run parser bounds ops).replaced ≤ ops.countP Operation.isStore := by
  induction ops using List.reverseRecOn with
  | nil => exact ⟨⟨.of_entries_eq_nil rfl rfl, rfl⟩, le_rfl⟩
  | append_singleton ops op ih =>
    obtain ⟨hbalanced, hle⟩ := ih
    have hreplaced := op.replaced_le parser hbalanced.accounted
    have hrun : run parser bounds (ops ++ [op]) = (run parser bounds ops).step parser op := by
      simp [run, List.foldl_append]
    rw [hrun]
    refine ⟨hbalanced.step parser op, ?_⟩
    rw [List.countP_append, List.countP_singleton]
    exact Nat.add_le_add hle hreplaced

/-- In every run, whatever the bounds, the clock and the parser, the entries that have been inserted
    are those that are there, those that have been counted as evicted or as expired, those that
    clearing has dropped, and those that have been replaced. Only stores of clients that have not
    just looked the source up replace an entry. -/
theorem inserted_run (bounds : Bounds τ) (ops : List (Operation τ)) :
    let l := run parser bounds ops
    l.inserted =
        l.cache.entries.length + l.cache.counters.evictions + l.cache.counters.expirations +
          l.cleared + l.replaced ∧
      l.replaced ≤ ops.countP Operation.isStore :=
  ⟨(balanced_run parser bounds ops).1.inserted_eq, (balanced_run parser bounds ops).2⟩

/-- Two clients look the same source up and store it one after the other. The entry of the first one
    has expired by the time the second one stores, and leaves without being counted. -/
theorem inserted_run_late :
    let l := run (τ := Int) parseTemplate ⟨10, 2, 5⟩
      [.get 0 "a", .get 0 "a", .store 0 "a" ⟨0, {}⟩, .store 20 "a" ⟨1, {}⟩]
    l.inserted = 2 ∧
      l.cache.entries.length + l.cache.counters.evictions + l.cache.counters.expirations +
        l.cleared = 1 := by
  decide +kernel

end Ledger

end

end Stencil
