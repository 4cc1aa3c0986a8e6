-- SUMMARY: The shared cache is made once and lasts, whatever becomes of the environment.
import Stencil.Proofs.Cache.Calls

/-! # The life of the shared cache

Callers call the shared cache, and in between the environment changes. What a call comes to is
decided by the state that it meets: as long as there is no cache, the environment may forbid the
call, may disable caching, or may let the cache be made, with the bounds that it describes at that
time. From then on there is a cache, the same one, and nothing that the environment says can be
told from the replies.

Nothing is assumed about the environment, which may be unreadable and may describe bounds that are
zero, negative or no numbers at all, nor about the clock.
-/

namespace Stencil.Shared

/-! ## Runs -/

/-- What happens to the shared cache. -/
inductive Event
  | call (call : Call)
  | setEnvironment (environment : Environment)

/-- A call in a run: what it met, what the caller was told, and what it left. -/
structure Step where
  before : Shared
  call : Call
  reply : Reply
  after : Shared

/-- The step that a call makes. -/
def step (s : Shared) (call : Call) : Step := ⟨s, call, (call.perform s).1, (call.perform s).2⟩

/-- The calls among what happens. -/
def calls : List Event → List Call
  | [] => []
  | .call call :: events => call :: calls events
  | .setEnvironment _ :: events => calls events

/-- The steps of a run. -/
def trace (s : Shared) : List Event → List Step
  | [] => []
  | .call call :: events => s.step call :: trace (s.step call).after events
  | .setEnvironment e :: events => trace (s.setEnvironment e) events

/-- The state after a run. -/
def run (s : Shared) : List Event → Shared
  | [] => s
  | .call call :: events => run (s.step call).after events
  | .setEnvironment e :: events => run (s.setEnvironment e) events

/-- What the callers in a run are told. -/
def replies (s : Shared) (events : List Event) : List Reply := (s.trace events).map (·.reply)

/-! ## Outcomes -/

section

variable (parser : String → Except Failure Template)

/-- What a call may come to. Which of the cases it is does not depend on the call. -/
inductive Step.Outcome (x : Step) : Prop
  /-- The settings cannot be read. -/
  | refused (e : VariableError) (missing : x.before.cache = none)
      (unreadable : Settings.ofEnvironment x.before.environment = .error e)
      (reply : x.reply = x.call.refused e) (unchanged : x.after = x.before)
  /-- Caching is disabled. -/
  | disabled (settings : Settings) (missing : x.before.cache = none)
      (readable : Settings.ofEnvironment x.before.environment = .ok settings)
      (unwanted : settings.enabled = false) (reply : x.reply.Faithful parser x.after x.call)
      (unmade : x.after.cache = none)
  /-- The cache is made. -/
  | created (settings : Settings) (c : Cache Float Instance) (missing : x.before.cache = none)
      (readable : Settings.ofEnvironment x.before.environment = .ok settings)
      (wanted : settings.enabled = true) (reply : x.reply.Faithful parser x.after x.call)
      (made : x.after.cache = some c) (bounds : c.bounds = boundsOf settings)
  /-- There is a cache already. -/
  | used (c c' : Cache Float Instance) (present : x.before.cache = some c)
      (reply : x.reply.Faithful parser x.after x.call) (kept : x.after.cache = some c')
      (becomes : c.Becomes parser c') (bounds : c'.bounds = c.bounds)

/-- What holds of any two calls in a run, of which `y` is the later one. -/
structure Step.Precedes (x y : Step) : Prop where
  /-- The cache that one leaves is the one that the other meets. -/
  lasts : ∀ c, x.after.cache = some c →
    ∃ c', y.before.cache = some c' ∧ c.Becomes parser c' ∧ c'.bounds = c.bounds
  /-- Without a cache, every template is a new one. -/
  fresh : y.after.cache = none →
    ∀ i ∈ x.reply.instance?, ∀ j ∈ y.reply.instance?, i.serial ≠ j.serial

end

variable {s : Shared} {c : Cache Float Instance}

/-! ## One call -/

/-- What a state may become: a cache, once there, is only used, serial numbers only grow, and the
    parser stays. -/
structure Evolves (s s' : Shared) : Prop where
  cache : ∀ c, s.cache = some c → ∃ c', s'.cache = some c' ∧ c.Becomes s.parser c'
  serial_le : s.nextSerial ≤ s'.nextSerial
  parser_eq : s'.parser = s.parser

theorem Evolves.refl (s : Shared) : s.Evolves s := ⟨fun c hc => ⟨c, hc, .refl⟩, le_rfl, rfl⟩

theorem Evolves.trans {s s' s'' : Shared} (h : s.Evolves s') (h' : s'.Evolves s'') :
    s.Evolves s'' := by
  refine ⟨?_, h.serial_le.trans h'.serial_le, h'.parser_eq.trans h.parser_eq⟩
  intro c hc
  obtain ⟨c', hc', hbecomes⟩ := h.cache c hc
  obtain ⟨c'', hc'', hbecomes'⟩ := h'.cache c' hc'
  rw [h.parser_eq] at hbecomes'
  exact ⟨c'', hc'', hbecomes.trans hbecomes'⟩

theorem Evolves.cache_eq_none {s s' : Shared} (h : s.Evolves s') (hs' : s'.cache = none) :
    s.cache = none := by
  cases hcache : s.cache with
  | none => rfl
  | some c =>
    obtain ⟨c', hc', -⟩ := h.cache c hcache
    rw [hs'] at hc'
    cases hc'

theorem evolves_serve (s : Shared) (call : Call) : s.Evolves (call.serve s).2 :=
  ⟨fun _ hc => serve_of_some hc call, nextSerial_serve_le s call, parser_serve s call⟩

theorem evolves_setEnvironment (s : Shared) (e : Environment) : s.Evolves (s.setEnvironment e) :=
  ⟨fun c hc => ⟨c, hc, .refl⟩, le_rfl, rfl⟩

theorem evolves_withCache (h : s.cache = none) (settings : Settings) :
    s.Evolves (s.withCache settings) := by
  refine ⟨?_, le_rfl, rfl⟩
  intro c hc
  cases h.symm.trans hc

/-- Whatever course a call takes, the cache is kept and the numbers go up. -/
theorem evolves_step (s : Shared) (call : Call) : s.Evolves (s.step call).after := by
  unfold step
  cases call.course s with
  | refused e missing unreadable perform =>
    rw [perform]
    exact .refl s
  | disabled settings missing readable unwanted perform =>
    rw [perform]
    exact evolves_serve s call
  | created settings missing readable wanted perform =>
    rw [perform]
    exact (evolves_withCache missing settings).trans (evolves_serve _ call)
  | used c present perform =>
    rw [perform]
    exact evolves_serve s call

theorem Genuine.step (hs : s.Genuine) (call : Call) : (s.step call).after.Genuine := by
  unfold Shared.step
  cases call.course s with
  | refused e missing unreadable perform =>
    rw [perform]
    exact hs
  | disabled settings missing readable unwanted perform =>
    rw [perform]
    exact hs.serve call
  | created settings missing readable wanted perform =>
    rw [perform]
    exact (genuine_withCache s settings).serve call
  | used c present perform =>
    rw [perform]
    exact hs.serve call

/-- Every call comes to one of the four cases. -/
theorem Genuine.outcome (hs : s.Genuine) (call : Call) : (s.step call).Outcome s.parser := by
  unfold Shared.step
  cases call.course s with
  | refused e missing unreadable perform =>
    rw [perform]
    exact .refused e missing unreadable rfl rfl
  | disabled settings missing readable unwanted perform =>
    rw [perform]
    have hreply := hs.faithful_serve call
    exact .disabled settings missing readable unwanted hreply (serve_of_none missing call).1
  | created settings missing readable wanted perform =>
    rw [perform]
    have hreply := (genuine_withCache s settings).faithful_serve call
    obtain ⟨c, hc, hbecomes⟩ := serve_of_some (s := s.withCache settings) rfl call
    exact .created settings c missing readable wanted hreply hc hbecomes.bounds_eq
  | used c present perform =>
    rw [perform]
    have hreply := hs.faithful_serve call
    obtain ⟨c', hc', hbecomes⟩ := serve_of_some present call
    exact .used c c' present hreply hc' hbecomes hbecomes.bounds_eq

/-- Without a cache, a template gets the next serial number. -/
theorem serial_step {call : Call} (h : (s.step call).after.cache = none) {i : Instance}
    (hi : i ∈ (s.step call).reply.instance?) :
    i.serial = s.nextSerial ∧ s.nextSerial < (s.step call).after.nextSerial := by
  unfold step at h hi ⊢
  cases call.course s with
  | refused e missing unreadable perform =>
    rw [perform] at hi
    cases call <;> cases hi
  | disabled settings missing readable unwanted perform =>
    rw [perform] at hi ⊢
    exact (serve_of_none missing call).2 i hi
  | created settings missing readable wanted perform =>
    rw [perform] at h
    obtain ⟨c, hc, -⟩ := serve_of_some (s := s.withCache settings) rfl call
    cases hc.symm.trans h
  | used c present perform =>
    rw [perform] at h
    obtain ⟨c', hc', -⟩ := serve_of_some present call
    cases hc'.symm.trans h

/-- Two calls are in order if the state that the first one leaves becomes the one that the second
    one meets. -/
theorem precedes_of_evolves {s' : Shared} (call call' : Call)
    (h : (s.step call).after.Evolves s') : (s.step call).Precedes s.parser (s'.step call') := by
  constructor
  · intro c hc
    obtain ⟨c', hc', hbecomes⟩ := h.cache c hc
    rw [(evolves_step s call).parser_eq] at hbecomes
    exact ⟨c', hc', hbecomes, hbecomes.bounds_eq⟩
  · intro hmissing' i hi j hj
    have hmissing := (h.trans (evolves_step s' call')).cache_eq_none hmissing'
    obtain ⟨hi, hlt⟩ := serial_step hmissing hi
    obtain ⟨hj, -⟩ := serial_step hmissing' hj
    have hle := h.serial_le
    omega

/-- Once there is a cache, a change of the environment changes no reply. -/
theorem step_setEnvironment (h : s.cache = some c) (e : Environment) (call : Call) :
    ((s.setEnvironment e).step call).reply = (s.step call).reply ∧
      ((s.setEnvironment e).step call).after = (s.step call).after.setEnvironment e := by
  have hperform := call.perform_of_some h
  have hperform' := call.perform_of_some (s := s.setEnvironment e) h
  rw [serve_setEnvironment, ← hperform] at hperform'
  unfold step
  rw [hperform']
  exact ⟨rfl, rfl⟩

/-! ## All calls -/

/-- Every step of a run is made by a call in a state that the first one may become. -/
theorem exists_of_mem_trace (events : List Event) {s : Shared} (hs : s.Genuine) :
    ∀ x ∈ s.trace events, ∃ s' call, x = s'.step call ∧ s.Evolves s' ∧ s'.Genuine := by
  induction events generalizing s with
  | nil => intro x hx; cases hx
  | cons event events ih =>
    cases event with
    | call call =>
      intro x hx
      rcases List.mem_cons.1 hx with rfl | hx
      · exact ⟨s, call, rfl, .refl s, hs⟩
      · obtain ⟨s', call', rfl, hevolves, hs'⟩ := ih (hs.step call) x hx
        exact ⟨s', call', rfl, (evolves_step s call).trans hevolves, hs'⟩
    | setEnvironment e =>
      intro x hx
      obtain ⟨s', call', rfl, hevolves, hs'⟩ := ih (s := s.setEnvironment e) hs x hx
      exact ⟨s', call', rfl, (evolves_setEnvironment s e).trans hevolves, hs'⟩

/-- Any two calls of a run are in order. -/
theorem pairwise_trace (events : List Event) {s : Shared} (hs : s.Genuine) :
    (s.trace events).Pairwise (Step.Precedes s.parser) := by
  induction events generalizing s with
  | nil => exact .nil
  | cons event events ih =>
    cases event with
    | call call =>
      have hrest := ih (hs.step call)
      rw [(evolves_step s call).parser_eq] at hrest
      refine .cons ?_ hrest
      intro y hy
      obtain ⟨s', call', rfl, hevolves, -⟩ := exists_of_mem_trace events (hs.step call) y hy
      exact precedes_of_evolves call call' hevolves
    | setEnvironment e => exact ih (s := s.setEnvironment e) hs

/-- Once there is a cache, the changes of the environment may be left out. -/
theorem replies_setEnvironment (events : List Event) (h : s.cache = some c) (e : Environment) :
    (s.setEnvironment e).replies events = s.replies ((calls events).map .call) := by
  induction events generalizing s c e with
  | nil => rfl
  | cons event events ih =>
    cases event with
    | call call =>
      obtain ⟨hreply, hafter⟩ := step_setEnvironment h e call
      obtain ⟨c', hc', -⟩ := (evolves_step s call).cache c h
      have hrest := ih hc' e
      rw [← hafter] at hrest
      exact congrArg₂ List.cons hreply hrest
    | setEnvironment e' => exact ih h e'

/-- However callers and changes of the environment come one after the other, every call comes to one
    of the four cases; the cache is made once and lasts, and templates are new while there is none;
    and as soon as there is one, what callers are told depends on their calls alone. -/
theorem lifecycle (environment : Environment) (depth : Int) (machine : Machine)
    (events : List Event) :
    let start : Shared := { environment, depth, machine }
    let parser (source : String) := parseTemplate source depth machine
    (∀ x ∈ start.trace events, x.Outcome parser) ∧
    (start.trace events).Pairwise (Step.Precedes parser) ∧
    ∀ later later', (start.run events).cache ≠ none → calls later = calls later' →
      (start.run events).replies later = (start.run events).replies later' := by
  intro start parser
  have hstart : start.Genuine := genuine_of_none rfl
  refine ⟨?_, pairwise_trace events hstart, ?_⟩
  · intro x hx
    obtain ⟨s, call, rfl, hevolves, hs⟩ := exists_of_mem_trace events hstart x hx
    have houtcome := hs.outcome call
    rwa [hevolves.parser_eq] at houtcome
  · intro later later' hmade hcalls
    obtain ⟨c, hc⟩ := Option.ne_none_iff_exists'.1 hmade
    have hlater := replies_setEnvironment later hc
    have hlater' := replies_setEnvironment later' hc
    rw [← hcalls] at hlater'
    exact (hlater _).trans (hlater' _).symm

end Stencil.Shared
