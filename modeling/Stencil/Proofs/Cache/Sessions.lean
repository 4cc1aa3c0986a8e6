-- SUMMARY: A session in use is a run of its cache, and a client that no other one comes between.
import Stencil.Proofs.Cache.Sharing
import Stencil.Proofs.Cache.Transparency

/-! # Sessions

A session adds a clock to a cache, and a parser that takes time. Whatever it is asked comes to one
operation on its cache, at the time that its clock shows then, or to none: time only passes, or what
should be stored is no template. So a session in use is a run of its cache, and what holds of every
run of a cache holds of it.

Among clients that share a cache, a session is one that no other client comes between. Only what it
stores without having asked for it was made by another client.
-/

namespace Stencil

namespace Session

/-- The parser of a session. -/
def parser (s : Session) (source : String) : Except Failure Template :=
  parseTemplate source s.depth s.machine

/-- What a session is asked. Sources are texts here. -/
inductive Request
  | parse (source : String)
  | tryParse (source : String)
  | get (source : String)
  | store (source : String)
  | contains (source : String)
  | clear
  | advance (time : Number)

namespace Request

/-- What the session answers, if it has an answer of its cache, and the session after that. -/
def perform (s : Session) : Request → Option Answer × Session
  | .parse source =>
    let (result, s) := s.parse (.text source)
    (some (.parsed result), s)
  | .tryParse source =>
    let (result, s) := s.tryParse (.text source)
    (some (.tried result), s)
  | .get source =>
    let (result, s) := s.get (.text source)
    (result.toOption.map .found, s)
  | .store source =>
    let (result, s) := s.store (.text source)
    (result.toOption.map .stored, s)
  | .contains source => ((s.contains (.text source)).toOption.map .contained, s)
  | .clear => (some .cleared, s.clear)
  | .advance time => (none, s.advance time)

/-- The operation on the cache that the request comes to, if it comes to one. -/
def operation? (s : Session) : Request → Option (Operation Number)
  | .parse source => some (.parse s.now (s.now + s.cost) source s.nextSerial)
  | .tryParse source => some (.tryParse s.now (s.now + s.cost) source s.nextSerial)
  | .get source => some (.get s.now source)
  | .store source =>
    (parseTemplate source defaultDepth s.machine).toOption.map fun template =>
      .store s.now source { serial := s.nextSerial, template }
  | .contains source => some (.contains s.now source)
  | .clear => some .clear
  | .advance _ => none

end Request

/-! ## One request -/

variable (s : Session) (source : String)

/-- A session that parses asks its cache, with the parser that it has and the time that it takes.
    The clock goes on only if the cache does not have the source. -/
theorem parse_text :
    s.parse (.text source) =
      let answer := s.cache.getOrParse (Operation.numbered s.parser s.nextSerial) s.now
        (s.now + s.cost) source
      (answer.1, if s.cache.contains s.now source then { s with cache := answer.2 }
        else { s with
          cache := answer.2
          now := s.now + s.cost
          calls := s.calls + 1
          nextSerial := s.nextSerial + 1 }) := by
  have hparser : (fun text => do
      return ({ serial := s.nextSerial, template := ← parseTemplate text s.depth s.machine } :
        Instance)) = Operation.numbered s.parser s.nextSerial := by
    funext text
    simp only [Operation.numbered, parser]
    cases parseTemplate text s.depth s.machine <;> rfl
  simp only [parse, Cache.request, hparser]
  split <;> rfl

/-- What a session answers, and its cache after that, are those of the operation that the request
    comes to. Without an operation the cache stays as it is and has no answer. -/
theorem perform_operation (request : Request) :
    (request.perform s).1 =
        (request.operation? s).map (fun op => (op.perform s.parser s.cache).1) ∧
      (request.perform s).2.cache =
        (request.operation? s).elim s.cache (fun op => (op.perform s.parser s.cache).2) := by
  cases request with
  | parse source =>
    simp only [Request.perform, parse_text, Request.operation?, Operation.perform]
    split <;> exact ⟨rfl, rfl⟩
  | tryParse source =>
    simp only [Request.perform, tryParse, parse_text, Request.operation?, Operation.perform]
    split <;> exact ⟨rfl, rfl⟩
  | store source =>
    simp only [Request.perform, store, Request.operation?]
    cases parseTemplate source defaultDepth s.machine <;> exact ⟨rfl, rfl⟩
  | get | contains | clear | advance => exact ⟨rfl, rfl⟩

/-- No request changes the limits of the parser. -/
theorem limits_perform (request : Request) :
    (request.perform s).2.depth = s.depth ∧ (request.perform s).2.machine = s.machine := by
  cases request with
  | parse source =>
    simp only [Request.perform, parse_text]
    split <;> exact ⟨rfl, rfl⟩
  | tryParse source =>
    simp only [Request.perform, tryParse, parse_text]
    split <;> exact ⟨rfl, rfl⟩
  | store source =>
    simp only [Request.perform, store]
    cases parseTemplate source defaultDepth s.machine <;> exact ⟨rfl, rfl⟩
  | get | contains | clear | advance => exact ⟨rfl, rfl⟩

theorem parser_perform (request : Request) : (request.perform s).2.parser = s.parser := by
  funext source
  rw [parser, (s.limits_perform request).1, (s.limits_perform request).2, parser]

/-- What is no text may count as a miss and does nothing else to a session. -/
theorem parse_other (kind : ValueKind) :
    (s.parse (.other kind)).2 = s ∨
      (s.parse (.other kind)).2 = { s with cache := s.cache.countMiss } := by
  simp only [parse, Cache.request, Cache.lookupSource]
  by_cases hkey : kind.isKey
  · simp [hkey]
  · simp [hkey]

/-! ## All requests -/

/-- The session after requests. -/
def run (s : Session) : List Request → Session
  | [] => s
  | request :: requests => run (request.perform s).2 requests

/-- What a session answers to requests. -/
def answers (s : Session) : List Request → List Answer
  | [] => []
  | request :: requests =>
    (request.perform s).1.toList ++ answers (request.perform s).2 requests

/-- The operations that requests come to. -/
def operations (s : Session) : List Request → List (Operation Number)
  | [] => []
  | request :: requests =>
    (request.operation? s).toList ++ operations (request.perform s).2 requests

/-- A session in use is a run of its cache: the answers are those to the operations that the
    requests come to, and so is the cache in the end. -/
theorem answers_eq_trace (requests : List Request) :
    s.answers requests =
        (Operation.trace s.parser s.cache (s.operations requests)).map Prod.snd ∧
      (s.run requests).cache =
        (s.operations requests).foldl (fun c op => (op.perform s.parser c).2) s.cache := by
  induction requests generalizing s with
  | nil => exact ⟨rfl, rfl⟩
  | cons request requests ih =>
    obtain ⟨hanswer, hcache⟩ := s.perform_operation request
    obtain ⟨hanswers, hrun⟩ := ih (request.perform s).2
    rw [s.parser_perform, hcache] at hanswers hrun
    simp only [answers, run, operations, hanswer, hanswers, hrun]
    cases request.operation? s <;> exact ⟨rfl, rfl⟩

/-- With the default limit on the depth of blocks, a session stores only what its parser makes. -/
theorem honest_operations (hdepth : s.depth = defaultDepth) (requests : List Request) :
    ∀ op ∈ s.operations requests, op.Honest s.parser := by
  induction requests generalizing s with
  | nil => nofun
  | cons request requests ih =>
    intro op hop
    rcases List.mem_append.1 hop with hop | hop
    · have hop : request.operation? s = some op := by simpa using hop
      cases request with
      | store source =>
        obtain ⟨template, htemplate, rfl⟩ := Option.map_eq_some_iff.1 hop
        cases hparse : parseTemplate source defaultDepth s.machine with
        | error e =>
          rw [hparse] at htemplate
          cases htemplate
        | ok t =>
          rw [hparse] at htemplate
          cases htemplate
          rwa [← hdepth] at hparse
      | parse | tryParse | get | contains | clear =>
        cases hop
        trivial
      | advance => cases hop
    · rw [← s.parser_perform request]
      exact ih _ ((s.limits_perform request).1.trans hdepth) op hop

/-! ## Among clients -/

/-- The source of a request and the template that its answer gives for it. -/
def Request.returned? : Request → Option Answer → Option (String × Instance)
  | .parse source, some (.parsed (.ok i)) => some (source, i)
  | .tryParse source, some (.tried (.ok (.ok i))) => some (source, i)
  | .get source, some (.found (some i)) => some (source, i)
  | .store source, some (.stored i) => some (source, i)
  | _, _ => none

/-- The clients share the cache of the session, and their clock shows what its clock does. -/
structure IsAmong {ι : Type} (s : Session) (c : Clients ι Number) : Prop where
  cache_eq : c.cache = s.cache
  now_eq : c.now = s.now

end Session

/-- Steps may be followed by further ones. -/
theorem Clients.Run.append {ι τ : Type} [DecidableEq ι] [Sub τ] [LE τ] [DecidableLE τ]
    {s s' s'' : Clients ι τ} {trace trace' : List (Clients ι τ × Move ι τ)} (h : Run s trace s')
    (h' : Run s' trace' s'') : Run s (trace ++ trace') s'' := by
  induction h with
  | nil => exact h'
  | cons step rest ih => exact .cons step (ih h')

namespace Session

variable {ι : Type} [DecidableEq ι] {s : Session} {c : Clients ι Number} {client : ι}

/-- A client that asks for the result for a source does what the session does, and gets what it
    gets. -/
theorem IsAmong.exists_run_parse (h : s.IsAmong c) (hidle : c.parsing client = none)
    (source : String) :
    ∃ trace c', Clients.Run c trace c' ∧ (s.parse (.text source)).2.IsAmong c' ∧
      c'.parsing client = none ∧
      trace.filterMap (·.2.returned?) =
        ((s.parse (.text source)).1.toOption.map (source, ·)).toList := by
  obtain ⟨trace, c', hrun, hidle', hcache, hreturned⟩ :=
    Clients.exists_run_getOrParse (Operation.numbered s.parser s.nextSerial) hidle
      (s.now + s.cost) source
  rw [h.cache_eq, h.now_eq] at hcache hreturned
  -- The clock of the clients is set to what the session shows then.
  have hclock := hrun.append (.cons (.setClock (s.parse (.text source)).2.now) (.nil _))
  refine ⟨_, _, hclock, ⟨?_, rfl⟩, hidle', ?_⟩
  · rw [parse_text]
    dsimp only
    split <;> exact hcache
  · rw [parse_text, List.filterMap_append, hreturned]
    simp [Move.returned?]

/-- What the answer to a request for parsing gives is what parsing gives. -/
theorem Request.returned?_parsed (source : String) (result : Except Failure Instance) :
    (Request.parse source).returned? (some (.parsed result)) =
        result.toOption.map (source, ·) ∧
      (Request.tryParse source).returned? (some (.tried (catchParseError result))) =
        result.toOption.map (source, ·) := by
  refine ⟨by cases result <;> rfl, ?_⟩
  cases result with
  | ok i => rfl
  | error f =>
    cases f with
    | parse e =>
      simp only [catchParseError]
      cases e.report.render <;> rfl
    | _ => rfl

/-- A client that looks a source up and gives up where nothing is found gets what the session
    gets. -/
theorem IsAmong.exists_run_get (h : s.IsAmong c) (hidle : c.parsing client = none)
    (source : String) :
    ∃ trace c', Clients.Run c trace c' ∧ (s.get (.text source)).2.IsAmong c' ∧
      c'.parsing client = none ∧
      trace.filterMap (·.2.returned?) =
        ((s.cache.lookup s.now source).1.map (source, ·)).toList := by
  have hlookup := Clients.Step.lookup client source hidle
  rw [h.cache_eq, h.now_eq] at hlookup
  cases hfound : (s.cache.lookup s.now source).1 with
  | some i =>
    rw [hfound] at hlookup
    exact ⟨_, _, .cons hlookup (.nil _), ⟨rfl, rfl⟩, by simp, rfl⟩
  | none =>
    rw [hfound] at hlookup
    have hparsing : Function.update c.parsing client (some source) client = some source := by simp
    exact ⟨_, _, .cons hlookup (.cons (.fail hparsing) (.nil _)), ⟨rfl, rfl⟩, by simp, rfl⟩

/-- Whatever a session is asked, a client that is not parsing does the same and gets the same, if
    what is stored has been parsed by another one. -/
theorem IsAmong.exists_run (h : s.IsAmong c) (hidle : c.parsing client = none) (request : Request)
    (hlate : ∀ source, request = .store source → ∃ late, c.parsing late = some source) :
    ∃ trace c', Clients.Run c trace c' ∧ (request.perform s).2.IsAmong c' ∧
      c'.parsing client = none ∧
      trace.filterMap (·.2.returned?) =
        (request.returned? (request.perform s).1).toList := by
  cases request with
  | parse source =>
    obtain ⟨trace, c', hrun, hamong, hidle', hreturned⟩ := h.exists_run_parse hidle source
    refine ⟨trace, c', hrun, hamong, hidle', ?_⟩
    rw [hreturned]
    exact congrArg _ (Request.returned?_parsed source _).1.symm
  | tryParse source =>
    obtain ⟨trace, c', hrun, hamong, hidle', hreturned⟩ := h.exists_run_parse hidle source
    refine ⟨trace, c', hrun, hamong, hidle', ?_⟩
    rw [hreturned]
    exact congrArg _ (Request.returned?_parsed source _).2.symm
  | get source =>
    obtain ⟨trace, c', hrun, hamong, hidle', hreturned⟩ := h.exists_run_get hidle source
    refine ⟨trace, c', hrun, hamong, hidle', hreturned.trans (congrArg _ ?_)⟩
    change _ = (Request.get source).returned? (some (.found (s.cache.lookup s.now source).1))
    cases (s.cache.lookup s.now source).1 <;> rfl
  | store source =>
    obtain ⟨late, hparsing⟩ := hlate source rfl
    have hother : Function.update c.parsing late none client = none := by
      rcases eq_or_ne client late with rfl | hne
      · simp
      · rwa [Function.update_of_ne hne]
    simp only [Request.perform, store]
    cases parseTemplate source defaultDepth s.machine with
    | error e => exact ⟨[], c, .nil _, h, hidle, rfl⟩
    | ok template =>
      have hstore := Clients.Step.store late { serial := s.nextSerial, template } hparsing
      rw [h.cache_eq, h.now_eq] at hstore
      exact ⟨_, _, .cons hstore (.nil _), ⟨rfl, rfl⟩, hother, rfl⟩
  | contains source => exact ⟨[], c, .nil _, h, hidle, rfl⟩
  | clear =>
    have hclear := Clients.Step.clear (s := c)
    exact ⟨_, _, .cons hclear (.nil _), ⟨congrArg Cache.clear h.cache_eq, h.now_eq⟩, hidle, rfl⟩
  | advance time =>
    have hclock := Clients.Step.setClock (s := c) (s.now + time)
    exact ⟨_, _, .cons hclock (.nil _), ⟨h.cache_eq, rfl⟩, hidle, rfl⟩

/-- The templates that the answers to requests give, each with its source. -/
def results (s : Session) : List Request → List (String × Instance)
  | [] => []
  | request :: requests =>
    (request.returned? (request.perform s).1).toList ++ results (request.perform s).2 requests

/-- A session in use is a client in a run without other ones, if it only stores what it has asked
    for. -/
theorem IsAmong.exists_run_all (h : s.IsAmong c) (hidle : c.parsing client = none)
    (requests : List Request) (hstores : ∀ source, Request.store source ∉ requests) :
    ∃ trace c', Clients.Run c trace c' ∧ (s.run requests).IsAmong c' ∧
      c'.parsing client = none ∧ trace.filterMap (·.2.returned?) = s.results requests := by
  induction requests generalizing s c with
  | nil => exact ⟨[], c, .nil _, h, hidle, rfl⟩
  | cons request requests ih =>
    have hlate : ∀ source, request = .store source → ∃ late, c.parsing late = some source := by
      rintro source rfl
      exact absurd List.mem_cons_self (hstores source)
    obtain ⟨trace, c', hrun, hamong, hidle', hresult⟩ := h.exists_run hidle request hlate
    obtain ⟨trace', c'', hrun', hamong', hidle'', hresults⟩ :=
      ih hamong hidle' fun source hmem => hstores source (List.mem_cons_of_mem _ hmem)
    refine ⟨_, c'', hrun.append hrun', hamong', hidle'', ?_⟩
    rw [List.filterMap_append, hresult, hresults, results]

end Session

end Stencil
