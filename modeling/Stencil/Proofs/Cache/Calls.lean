-- SUMMARY: What one call to the shared cache comes to.
import Mathlib.Logic.Relation
import Stencil.Cache.Shared
import Stencil.Proofs.Cache.Transparency
import Stencil.Proofs.Failures

/-! # Calls to the shared cache

Every call begins in the same way: the cache is prepared, which the environment may forbid. What
comes after that does not look at the environment any more. The calls are therefore described in
two steps, by `Call.Course` for the first one and by what `Call.serve` does for the second.
-/

namespace Stencil

/-! ## A cache in use -/

namespace Cache

variable {τ : Type} [Sub τ] [LE τ] [DecidableLE τ] {parser : String → Except Failure Template}
  {c c' : Cache τ Instance}

/-- The cache has become the other one by being used, and by nothing else. -/
def Becomes (parser : String → Except Failure Template) (c c' : Cache τ Instance) : Prop :=
  Relation.ReflTransGen
    (fun c c' => ∃ op : Operation τ, op.Honest parser ∧ c' = (op.perform parser c).2) c c'

theorem Becomes.perform (op : Operation τ) (h : op.Honest parser) (c : Cache τ Instance) :
    c.Becomes parser (op.perform parser c).2 :=
  .single ⟨op, h, rfl⟩

theorem Becomes.bounds_eq (h : c.Becomes parser c') : c'.bounds = c.bounds := by
  induction h with
  | refl => rfl
  | @tail d _ _ hstep ih =>
    obtain ⟨op, -, rfl⟩ := hstep
    exact (op.bounds_perform parser d).trans ih

/-- Use leaves every entry with what the parser makes of its source. -/
theorem Genuine.becomes (hc : c.Genuine parser) (h : c.Becomes parser c') : c'.Genuine parser := by
  induction h with
  | refl => exact hc
  | tail _ hstep ih =>
    obtain ⟨op, hop, rfl⟩ := hstep
    exact op.genuine_perform hop ih

end Cache

namespace Shared

/-! ## Calls -/

/-- What a caller asks of the shared cache. Sources are texts here. -/
inductive Call
  | parse (before after : Float) (source : String)
  | tryParse (before after : Float) (source : String)
  | clear
  | bounds

/-- What a caller is told. -/
inductive Reply
  | parsed (result : Except SharedError Instance)
  | tried (result : Except SharedError (Except String Instance))
  | cleared (result : Except SharedError Unit)
  | bounds (result : Except SharedError (Option (Bounds Float)))

/-- The template that a caller gets. -/
def Reply.instance? : Reply → Option Instance
  | .parsed (.ok i) => some i
  | .tried (.ok (.ok i)) => some i
  | _ => none

namespace Call

/-- What a caller is told, and the state after that. -/
def perform (s : Shared) : Call → Reply × Shared
  | .parse before after source =>
    let (result, s) := s.parse before (.text source) after
    (.parsed result, s)
  | .tryParse before after source =>
    let (result, s) := s.tryParse before (.text source) after
    (.tried result, s)
  | .clear =>
    let (result, s) := s.clear
    (.cleared result, s)
  | .bounds =>
    let (result, s) := s.bounds
    (.bounds result, s)

/-- The reply to a call that the environment forbids. -/
def refused (e : VariableError) : Call → Reply
  | .parse .. => .parsed (.error (.variable e))
  | .tryParse .. => .tried (.error (.variable e))
  | .clear => .cleared (.error (.variable e))
  | .bounds => .bounds (.error (.variable e))

/-- What comes of a call once it is settled whether there is a cache. -/
def serve (s : Shared) : Call → Reply × Shared
  | .parse before after source =>
    let (result, s) := s.parsePrepared before after (.text source)
    (.parsed (result.mapError .failure), s)
  | .tryParse before after source =>
    let (result, s) := s.parsePrepared before after (.text source)
    (.tried ((catchParseError result).mapError .failure), s)
  | .clear => (.cleared (.ok ()), { s with cache := s.cache.map Cache.clear })
  | .bounds => (.bounds (.ok (s.cache.map (·.bounds))), s)

/-- Every call begins by preparing the cache. -/
theorem perform_eq (s : Shared) (call : Call) :
    call.perform s =
      match s.prepare with
      | .error e => (call.refused e, s)
      | .ok s => call.serve s := by
  cases call <;>
    simp only [perform, Shared.parse, Shared.tryParse, Shared.clear, Shared.bounds] <;>
    cases s.prepare <;> rfl

end Call

/-! ## Right replies -/

/-- The parser behind the shared cache. -/
def parser (s : Shared) (source : String) : Except Failure Template :=
  parseTemplate source s.depth s.machine

section

variable (parser : String → Except Failure Template)

/-- The outcome of parsing a source. -/
def Parsed (source : String) (result : Except SharedError Instance) : Prop :=
  result.map Instance.template = (parser source).mapError .failure

/-- The outcome of trying a source: its template, or the report of what is wrong with it. -/
def Tried (source : String) (result : Except SharedError (Except String Instance)) : Prop :=
  (∃ i : Instance, parser source = .ok i.template ∧ result = .ok (.ok i)) ∨
    ∃ e text, parser source = .error (.parse e) ∧ e.report.render = .ok text ∧
      result = .ok (.error text)

/-- The reply is right in the state that the call leaves: of a source, it is what the parser makes
    of it. -/
def Reply.Faithful (after : Shared) : Call → Reply → Prop
  | .parse _ _ source, .parsed result => Parsed parser source result
  | .tryParse _ _ source, .tried result => Tried parser source result
  | .clear, .cleared result => result = .ok () ∧ ∀ c, after.cache = some c → c.entries = []
  | .bounds, .bounds result => result = .ok (after.cache.map (·.bounds))
  | _, _ => False

end

/-! ## Preparing -/

variable {s : Shared} {c : Cache Float Instance}

theorem prepare_of_some (h : s.cache = some c) : s.prepare = .ok s := by
  have hobtain : s.obtain = .ok s.cache := by
    unfold obtain
    rw [h]
  unfold prepare
  rw [hobtain]
  rfl

/-- Without a cache the environment decides whether there will be one. -/
theorem prepare_of_none (h : s.cache = none) :
    s.prepare = (Settings.ofEnvironment s.environment).map fun settings =>
      { s with
        cache := if settings.enabled then some { bounds := boundsOf settings } else none } := by
  unfold prepare obtain
  rw [h]
  cases Settings.ofEnvironment s.environment <;> rfl

/-- Once there is a cache, no call looks at the environment. -/
theorem Call.perform_of_some (h : s.cache = some c) (call : Call) :
    call.perform s = call.serve s := by
  rw [call.perform_eq, prepare_of_some h]

/-- The state with a new cache. -/
def withCache (s : Shared) (settings : Settings) : Shared :=
  { s with cache := some { bounds := boundsOf settings } }

/-- The course that a call takes, by the state that it meets. -/
inductive Call.Course (call : Call) (s : Shared) : Prop
  | refused (e : VariableError) (missing : s.cache = none)
      (unreadable : Settings.ofEnvironment s.environment = .error e)
      (perform : call.perform s = (call.refused e, s))
  | disabled (settings : Settings) (missing : s.cache = none)
      (readable : Settings.ofEnvironment s.environment = .ok settings)
      (unwanted : settings.enabled = false) (perform : call.perform s = call.serve s)
  | created (settings : Settings) (missing : s.cache = none)
      (readable : Settings.ofEnvironment s.environment = .ok settings)
      (wanted : settings.enabled = true)
      (perform : call.perform s = call.serve (s.withCache settings))
  | used (c : Cache Float Instance) (present : s.cache = some c)
      (perform : call.perform s = call.serve s)

/-- Every call takes one of the four courses. -/
theorem Call.course (call : Call) (s : Shared) : call.Course s := by
  cases hcache : s.cache with
  | some c => exact .used c hcache (call.perform_of_some hcache)
  | none =>
    have hperform := call.perform_eq s
    rw [prepare_of_none hcache] at hperform
    cases hread : Settings.ofEnvironment s.environment with
    | error e =>
      rw [hread] at hperform
      exact .refused e hcache hread hperform
    | ok settings =>
      rw [hread] at hperform
      cases henabled : settings.enabled with
      | false =>
        have hsame : { s with cache := none } = s := by rw [← hcache]
        simp only [Except.map, henabled, Bool.false_eq_true, if_false, hsame] at hperform
        exact .disabled settings hcache hread henabled hperform
      | true =>
        simp only [Except.map, henabled, if_true] at hperform
        exact .created settings hcache hread henabled hperform

/-! ## Serving -/

/-- Every entry of the cache, if there is one, holds what the parser makes of its source. -/
def Genuine (s : Shared) : Prop := ∀ c, s.cache = some c → c.Genuine s.parser

theorem genuine_of_none (h : s.cache = none) : s.Genuine := by
  intro c hc
  rw [h] at hc
  cases hc

theorem genuine_withCache (s : Shared) (settings : Settings) : (s.withCache settings).Genuine := by
  intro c hc
  cases hc
  intro e he
  cases he

/-- Without a cache the source is parsed, and the template gets a number of its own. -/
theorem parsePrepared_of_none (h : s.cache = none) (before after : Float) (source : String) :
    s.parsePrepared before after (.text source) =
      (Operation.numbered s.parser s.nextSerial source,
        { s with nextSerial := s.nextSerial + 1 }) := by
  unfold parsePrepared
  rw [h]
  rfl

/-- With a cache the source is looked up and parsed at need, as by any client of the cache. -/
theorem parsePrepared_of_some (h : s.cache = some c) (before after : Float) (source : String) :
    s.parsePrepared before after (.text source) =
      ((c.getOrParse (Operation.numbered s.parser s.nextSerial) before after source).1,
        { s with
          cache := (c.getOrParse (Operation.numbered s.parser s.nextSerial) before after source).2
          nextSerial := s.nextSerial + 1 }) := by
  unfold parsePrepared
  rw [h]
  rfl

/-- Whether there is a cache or not, the parser decides. -/
theorem Genuine.parsePrepared (hs : s.Genuine) (before after : Float) (source : String) :
    (s.parsePrepared before after (.text source)).1.map Instance.template = s.parser source := by
  cases hcache : s.cache with
  | none =>
    rw [parsePrepared_of_none hcache]
    unfold Operation.numbered
    cases s.parser source <;> rfl
  | some c =>
    rw [parsePrepared_of_some hcache]
    exact (hs c hcache).getOrParse_answer before after source s.nextSerial

section

variable {source : String} {result : Except Failure Instance}

theorem parsed_mapError (h : result.map Instance.template = s.parser source) :
    Parsed s.parser source (result.mapError .failure) := by
  unfold Parsed
  rw [← h]
  cases result <;> rfl

theorem tried_mapError (h : result.map Instance.template = s.parser source) :
    Tried s.parser source ((catchParseError result).mapError .failure) := by
  cases result with
  | ok i => exact .inl ⟨i, h.symm, rfl⟩
  | error f =>
    rcases parseTemplate_or_parseError source s.depth s.machine with ⟨t, ht⟩ | ⟨e, he⟩
    · cases h.trans ht
    · cases h.trans he
      obtain ⟨text, htext⟩ := (parseTemplate_about he).exists_render
      refine .inr ⟨e, text, he, htext, ?_⟩
      simp only [catchParseError, htext]
      rfl

theorem eq_of_instance_parsed {i : Instance}
    (h : i ∈ (Reply.parsed (result.mapError .failure)).instance?) : result = .ok i := by
  cases result with
  | ok j => cases h; rfl
  | error f => cases h

theorem eq_of_instance_tried {i : Instance}
    (h : i ∈ (Reply.tried ((catchParseError result).mapError .failure)).instance?) :
    result = .ok i := by
  cases result with
  | ok j => cases h; rfl
  | error f =>
    cases f with
    | parse e =>
      simp only [catchParseError] at h
      cases hrender : e.report.render with
      | ok text => rw [hrender] at h; cases h
      | error e => rw [hrender] at h; cases h
    | _ => cases h

end

theorem serial_of_numbered {parser : String → Except Failure Template} {serial : Nat}
    {source : String} {i : Instance}
    (h : Operation.numbered parser serial source = .ok i) : i.serial = serial := by
  unfold Operation.numbered at h
  cases hparser : parser source with
  | ok t => rw [hparser] at h; cases h; rfl
  | error f => rw [hparser] at h; cases h

/-- From a cache whose entries are genuine every caller is told what the parser makes of the source.
    -/
theorem Genuine.faithful_serve (hs : s.Genuine) (call : Call) :
    (call.serve s).1.Faithful s.parser (call.serve s).2 call := by
  cases call with
  | parse before after source => exact parsed_mapError (hs.parsePrepared before after source)
  | tryParse before after source => exact tried_mapError (hs.parsePrepared before after source)
  | clear =>
    refine ⟨rfl, ?_⟩
    intro c hc
    obtain ⟨d, -, rfl⟩ := Option.map_eq_some_iff.1 hc
    rfl
  | bounds => rfl

/-- Without a cache none comes into being, and every template that is given out is a new one. -/
theorem serve_of_none (h : s.cache = none) (call : Call) :
    (call.serve s).2.cache = none ∧
      ∀ i ∈ (call.serve s).1.instance?,
        i.serial = s.nextSerial ∧ s.nextSerial < (call.serve s).2.nextSerial := by
  cases call with
  | parse before after source =>
    simp only [Call.serve, parsePrepared_of_none h]
    exact ⟨h, fun i hi => ⟨serial_of_numbered (eq_of_instance_parsed hi), Nat.lt_succ_self _⟩⟩
  | tryParse before after source =>
    simp only [Call.serve, parsePrepared_of_none h]
    exact ⟨h, fun i hi => ⟨serial_of_numbered (eq_of_instance_tried hi), Nat.lt_succ_self _⟩⟩
  | clear =>
    refine ⟨congrArg (Option.map Cache.clear) h, ?_⟩
    intro i hi
    cases hi
  | bounds =>
    refine ⟨h, ?_⟩
    intro i hi
    cases hi

/-- A call does with the cache only what a client of it could do. -/
theorem serve_of_some (h : s.cache = some c) (call : Call) :
    ∃ c', (call.serve s).2.cache = some c' ∧ c.Becomes s.parser c' := by
  cases call with
  | parse before after source =>
    refine ⟨_, congrArg (·.2.cache) (parsePrepared_of_some h before after source), ?_⟩
    exact .perform (.parse before after source s.nextSerial) trivial c
  | tryParse before after source =>
    refine ⟨_, congrArg (·.2.cache) (parsePrepared_of_some h before after source), ?_⟩
    exact .perform (.tryParse before after source s.nextSerial) trivial c
  | clear => exact ⟨_, congrArg (Option.map Cache.clear) h, .perform .clear trivial c⟩
  | bounds => exact ⟨c, h, .refl⟩

/-- What a call comes to leaves the parser as it is. -/
theorem parser_serve (s : Shared) (call : Call) : (call.serve s).2.parser = s.parser := by
  have hparse : ∀ before after source,
      (s.parsePrepared before after (.text source)).2.parser = s.parser := by
    intro before after source
    unfold parsePrepared
    cases s.cache <;> rfl
  cases call with
  | parse before after source | tryParse before after source => exact hparse before after source
  | clear | bounds => rfl

/-- A call leaves genuine entries behind, with a cache or without one. -/
theorem Genuine.serve (hs : s.Genuine) (call : Call) : (call.serve s).2.Genuine := by
  cases hcache : s.cache with
  | none => exact genuine_of_none (serve_of_none hcache call).1
  | some c =>
    obtain ⟨c', hc', hbecomes⟩ := serve_of_some hcache call
    intro d hd
    rw [hc'] at hd
    cases hd
    rw [parser_serve]
    exact (hs c hcache).becomes hbecomes

theorem nextSerial_serve_le (s : Shared) (call : Call) :
    s.nextSerial ≤ (call.serve s).2.nextSerial := by
  have hparse : ∀ before after source,
      (s.parsePrepared before after (.text source)).2.nextSerial = s.nextSerial + 1 := by
    intro before after source
    unfold parsePrepared
    cases s.cache <;> rfl
  cases call with
  | parse before after source => exact (Nat.le_succ _).trans_eq (hparse before after source).symm
  | tryParse before after source =>
    exact (Nat.le_succ _).trans_eq (hparse before after source).symm
  | clear | bounds => exact le_rfl

/-- Once it is settled whether there is a cache, the environment has no say. -/
theorem serve_setEnvironment (s : Shared) (e : Environment) (call : Call) :
    call.serve (s.setEnvironment e) =
      ((call.serve s).1, (call.serve s).2.setEnvironment e) := by
  cases call with
  | parse before after source =>
    simp only [Call.serve, setEnvironment, parsePrepared]
    cases s.cache <;> rfl
  | tryParse before after source =>
    simp only [Call.serve, setEnvironment, parsePrepared]
    cases s.cache <;> rfl
  | clear | bounds => rfl

end Shared

end Stencil
