/-
LineRegex.Proofs.Cache.Transparency — an engine answers as if it had no cache.

What a caller gets from an engine depends on the calls only through the
patterns and texts they name: compiling gives what parsing gives, a search
gives what searching with the parsed pattern gives, and a compiled pattern
stays what it was whatever the cache drops. So the capacity shows in no answer.

  §1 Calls     — what callers ask of an engine, and what they are answered.
  §2 Sessions  — an engine in use, with the compiled patterns it has given out.
  §3 Fresh answers  — the same answers from the calls alone.
  §4 Steps     — one call is answered freshly and keeps the session faithful.
  §5 Runs      — so do all calls, one after another.
-/
import Mathlib
import LineRegex.Engine
import LineRegex.Proofs.Cache.Consistency
import LineRegex.Proofs.Increments

namespace LineRegex

/-! ## §1 Calls -/

/-- A call of an engine. A call that uses a compiled pattern names the earlier
call that gave it out, counted from 0. -/
inductive EngineCall where
  | compile (pattern : Text)
  | findAll (pattern text : Text)
  /-- All matches of a compiled pattern. -/
  | findWith (handle : Nat) (text : Text)
  /-- The range of the matches of a compiled pattern, run to its end. -/
  | matchesWith (handle : Nat) (text : Text)
  | clearCache
  deriving DecidableEq, Repr

/-- What a call is answered. -/
inductive EngineAnswer where
  | compiled (result : Checked Compiled)
  | found (result : Status × List Match)
  /-- The call names no compiled pattern. -/
  | noHandle
  | cleared

namespace EngineAnswer

/-- The compiled pattern that an answer gives out. -/
def handle? : EngineAnswer → Option Compiled
  | compiled result => result.toOption
  | found _ | noHandle | cleared => none

/-- The answer to a call that uses a compiled pattern. -/
def usingHandle (handle : Option Compiled) (search : Compiled → Status × List Match) :
    EngineAnswer :=
  match handle with
  | none => noHandle
  | some c => found (search c)

end EngineAnswer

/-! ## §2 Sessions -/

/-- An engine in use. -/
structure EngineSession (w : Width) where
  engine : Engine w
  /-- For every call so far, the compiled pattern it gave out, if any. -/
  handles : List (Option Compiled)

namespace EngineSession

variable {w : Width}

/-- A new engine. -/
def new (w : Width) (config : Config) : EngineSession w := ⟨.new w config, []⟩

/-- What a call is answered. -/
def answer (s : EngineSession w) : EngineCall → EngineAnswer
  | .compile pattern => .compiled (s.engine.compile pattern).1
  | .findAll pattern text => .found (s.engine.findAll pattern text).1
  | .findWith handle text =>
    .usingHandle s.handles[handle]?.join fun compiled => s.engine.findCompiled compiled text
  | .matchesWith handle text =>
    .usingHandle s.handles[handle]?.join fun compiled =>
      let (ms, r) := (s.engine.matchesOf compiled text).start.drain
      (r.status, ms)
  | .clearCache => .cleared

/-- The engine behind a call. -/
def engineAfter (s : EngineSession w) : EngineCall → Engine w
  | .compile pattern => (s.engine.compile pattern).2
  | .findAll pattern text => (s.engine.findAll pattern text).2
  | .findWith _ _ | .matchesWith _ _ => s.engine
  | .clearCache => s.engine.clearCache

/-- The session behind a call. -/
def after (s : EngineSession w) (call : EngineCall) : EngineSession w :=
  ⟨s.engineAfter call, s.handles ++ [(s.answer call).handle?]⟩

/-- The session behind calls, in order. -/
def afterAll (s : EngineSession w) (calls : List EngineCall) : EngineSession w :=
  calls.foldl after s

/-- What calls are answered, in order. -/
def answers (s : EngineSession w) : List EngineCall → List EngineAnswer
  | [] => []
  | call :: calls => s.answer call :: (s.after call).answers calls

end EngineSession

/-! ## §3 Fresh answers -/

/-- The compiled pattern that a call gives out, when nothing is kept. -/
def EngineCall.handle? (w : Width) : EngineCall → Option Compiled
  | compile pattern => (LineRegex.compile w pattern).toOption
  | findAll _ _ | findWith _ _ | matchesWith _ _ | clearCache => none

/-- What a call is answered behind earlier calls when every pattern is parsed
again each time it is used. -/
def EngineCall.freshAnswer (w : Width) (o : FindOptions) (earlier : List EngineCall) :
    EngineCall → EngineAnswer
  | compile pattern => .compiled (LineRegex.compile w pattern)
  | findAll pattern text => .found (LineRegex.findAll w pattern text o)
  | findWith handle text | matchesWith handle text =>
    .usingHandle (earlier[handle]?.bind (·.handle? w)) fun compiled =>
      LineRegex.findAll w compiled.source text o
  | clearCache => .cleared

/-- The fresh answers to calls, in order. -/
def freshAnswers (w : Width) (o : FindOptions) (earlier : List EngineCall) :
    List EngineCall → List EngineAnswer
  | [] => []
  | call :: calls =>
    call.freshAnswer w o earlier :: freshAnswers w o (earlier ++ [call]) calls

/-! ## §4 Steps -/

theorem toOption_eq_some_iff {ε α : Type} {x : Except ε α} {a : α} :
    x.toOption = some a ↔ x = .ok a := by
  cases x <;> simp [Except.toOption]

section Compiling

variable {w : Width} {pattern : Text} {compiled : Compiled}

/-- Searching with a compiled pattern is searching for the text it was compiled from. -/
theorem findAll_source (h : compile w pattern = .ok compiled) (text : Text) (o : FindOptions) :
    findAll w compiled.source text o = compiled.pattern.findAll text o := by
  rw [source_of_compile h]
  rw [compile_eq_map_parse] at h
  unfold findAll
  cases hparse : parse w pattern with
  | error e => rw [hparse] at h; cases h
  | ok p => rw [hparse] at h; cases h; rfl

theorem findAll_eq (w : Width) (pattern text : Text) (o : FindOptions) :
    findAll w pattern text o =
      match compile w pattern with
      | .error err => (.syntaxError err.fault, [])
      | .ok compiled => compiled.pattern.findAll text o := by
  rw [compile_eq_map_parse]
  unfold findAll
  cases parse w pattern <;> rfl

end Compiling

variable {w : Width}

/-- What is kept for a pattern is what compiling it gives. -/
theorem Cache.Consistent.get_eq_compile {c : Cache w} (h : c.Consistent) (source : Text) :
    (c.get source).1 = compile w source := by
  unfold Cache.get
  by_cases hmem : source ∈ c.order
  · obtain ⟨compiled, hcompile, htable⟩ := h.kept source hmem
    rw [htable, hcompile]
  · rw [h.absent source hmem]
    cases compile w source <;> rfl

namespace EngineSession

/-- The cache holds what compiling gives, and the handles are those that the
calls give out. -/
structure Faithful (s : EngineSession w) (config : Config) (calls : List EngineCall) : Prop where
  config_eq : s.engine.config = config
  cache : s.engine.cache.Reachable config.cacheCapacity
  handles : s.handles = calls.map (·.handle? w)

theorem Faithful.new (w : Width) (config : Config) :
    (EngineSession.new w config).Faithful config [] :=
  ⟨rfl, .empty w config.cacheCapacity, rfl⟩

section Step

variable {s : EngineSession w} {config : Config} {calls : List EngineCall}

theorem Faithful.compile_eq (h : s.Faithful config calls) (pattern : Text) :
    (s.engine.compile pattern).1 = LineRegex.compile w pattern :=
  h.cache.consistent.get_eq_compile pattern

/-- A search compiles its pattern and then uses it. -/
theorem findAll_eq_compile (e : Engine w) (pattern text : Text) :
    (e.findAll pattern text).1 =
        (match (e.compile pattern).1 with
          | .error err => (Status.syntaxError err.fault, [])
          | .ok compiled => compiled.pattern.findAll text e.config.find) ∧
      (e.findAll pattern text).2 = (e.compile pattern).2 := by
  have hconfig : (e.compile pattern).2.config = e.config := rfl
  unfold Engine.findAll
  generalize e.compile pattern = result at hconfig ⊢
  rcases result with ⟨err | compiled, e'⟩
  · exact ⟨rfl, rfl⟩
  · exact ⟨congrArg (fun c : Config => compiled.pattern.findAll text c.find) hconfig, rfl⟩

theorem Faithful.findAll_eq (h : s.Faithful config calls) (pattern text : Text) :
    (s.engine.findAll pattern text).1 = LineRegex.findAll w pattern text config.find := by
  rw [(findAll_eq_compile _ _ _).1, h.compile_eq, h.config_eq, LineRegex.findAll_eq]

/-- The handle of a call is what compiling its pattern gives. -/
theorem Faithful.handle_eq (h : s.Faithful config calls) (n : Nat) :
    s.handles[n]?.join = calls[n]?.bind (·.handle? w) := by
  rw [h.handles, List.getElem?_map]
  cases calls[n]? <;> rfl

theorem compile_of_handle? {call : EngineCall} {compiled : Compiled}
    (h : call.handle? w = some compiled) :
    ∃ pattern, call = .compile pattern ∧ LineRegex.compile w pattern = .ok compiled := by
  cases call with
  | compile pattern => exact ⟨pattern, rfl, toOption_eq_some_iff.mp h⟩
  | findAll | findWith | matchesWith | clearCache => cases h

/-- With a compiled pattern, eager and lazy searches are searches for its text. -/
theorem Faithful.usingHandle_eq (h : s.Faithful config calls) (n : Nat) (text : Text) :
    EngineAnswer.usingHandle s.handles[n]?.join
        (fun compiled => compiled.pattern.findAll text s.engine.config.find) =
      .usingHandle (calls[n]?.bind (·.handle? w)) fun compiled =>
        LineRegex.findAll w compiled.source text config.find := by
  rw [h.handle_eq, h.config_eq]
  cases hhandle : calls[n]?.bind (·.handle? w) with
  | none => rfl
  | some compiled =>
    obtain ⟨call, -, hcall⟩ := Option.bind_eq_some_iff.mp hhandle
    obtain ⟨pattern, -, hcompile⟩ := compile_of_handle? hcall
    exact congrArg EngineAnswer.found (findAll_source hcompile text config.find).symm

/-- One call is answered as if there were no cache. -/
theorem Faithful.answer_eq (h : s.Faithful config calls) (call : EngineCall) :
    s.answer call = call.freshAnswer w config.find calls := by
  cases call with
  | compile pattern => exact congrArg _ (h.compile_eq pattern)
  | findAll pattern text => exact congrArg _ (h.findAll_eq pattern text)
  | findWith handle text => exact h.usingHandle_eq handle text
  | matchesWith handle text => exact h.usingHandle_eq handle text
  | clearCache => rfl

theorem handle?_freshAnswer (o : FindOptions) (earlier : List EngineCall) (call : EngineCall) :
    (call.freshAnswer w o earlier).handle? = call.handle? w := by
  cases call with
  | findWith handle text | matchesWith handle text =>
    simp only [EngineCall.freshAnswer]
    cases earlier[handle]?.bind (·.handle? w) <;> rfl
  | compile | findAll | clearCache => rfl

theorem Faithful.after (h : s.Faithful config calls) (call : EngineCall) :
    (s.after call).Faithful config (calls ++ [call]) := by
  have hget (source : Text) : (s.engine.cache.get source).2.Reachable config.cacheCapacity :=
    h.cache.perform (.get source)
  have hhandles : (s.after call).handles = (calls ++ [call]).map (·.handle? w) := by
    show s.handles ++ [(s.answer call).handle?] = _
    rw [h.handles, h.answer_eq, handle?_freshAnswer, List.map_append, List.map_singleton]
  cases call with
  | compile pattern => exact ⟨h.config_eq, hget pattern, hhandles⟩
  | findAll pattern text =>
    refine ⟨?_, ?_, hhandles⟩
    · show (s.engine.findAll pattern text).2.config = config
      rw [(findAll_eq_compile _ _ _).2]
      exact h.config_eq
    · show (s.engine.findAll pattern text).2.cache.Reachable config.cacheCapacity
      rw [(findAll_eq_compile _ _ _).2]
      exact hget pattern
  | findWith | matchesWith => exact ⟨h.config_eq, h.cache, hhandles⟩
  | clearCache => exact ⟨h.config_eq, h.cache.perform .clear, hhandles⟩

end Step

/-! ## §5 Runs -/

theorem Faithful.afterAll {s : EngineSession w} {config : Config} {calls : List EngineCall}
    (h : s.Faithful config calls) (more : List EngineCall) :
    (s.afterAll more).Faithful config (calls ++ more) := by
  induction more generalizing s calls with
  | nil =>
    rw [List.append_nil]
    exact h
  | cons call more ih =>
    rw [List.append_cons]
    exact ih (h.after call)

/-- All calls are answered as if there were no cache. -/
theorem Faithful.answers_eq {s : EngineSession w} {config : Config} {calls : List EngineCall}
    (h : s.Faithful config calls) (more : List EngineCall) :
    s.answers more = freshAnswers w config.find calls more := by
  induction more generalizing s calls with
  | nil => rfl
  | cons call more ih => rw [answers, freshAnswers, h.answer_eq, ih (h.after call)]

/-- The session behind calls of a new engine. -/
def afterCalls (w : Width) (config : Config) (calls : List EngineCall) : EngineSession w :=
  (new w config).afterAll calls

theorem faithful_afterCalls (w : Width) (config : Config) (calls : List EngineCall) :
    (afterCalls w config calls).Faithful config calls :=
  (Faithful.new w config).afterAll calls

section Handles

variable {s : EngineSession w} {config : Config} {calls : List EngineCall} {n : Nat}
  {pattern : Text}

theorem Faithful.handles_compile (h : s.Faithful config calls)
    (hcall : calls[n]? = some (.compile pattern)) :
    s.handles[n]? = some (LineRegex.compile w pattern).toOption := by
  rw [h.handles, List.getElem?_map, hcall]
  rfl

/-- What a call has compiled finds what its pattern finds, in a search and in
a range that is run to its end. -/
theorem Faithful.found_with_handle (h : s.Faithful config calls)
    (hcall : calls[n]? = some (.compile pattern)) {handle : Compiled}
    (hgiven : s.handles[n]? = some (some handle)) (text : Text) :
    s.engine.findCompiled handle text = LineRegex.findAll w pattern text config.find ∧
      ∃ ms e, (s.engine.matchesOf handle text).start.RunsTo ms e ∧
        (e.status, ms) = LineRegex.findAll w pattern text config.find := by
  have hcompile : LineRegex.compile w pattern = .ok handle := by
    rw [h.handles_compile hcall] at hgiven
    exact toOption_eq_some_iff.mp (Option.some.inj hgiven)
  have hsearch : LineRegex.findAll w pattern text config.find =
      handle.pattern.findAll text s.engine.config.find := by
    rw [← findAll_source hcompile, source_of_compile hcompile, h.config_eq]
  rw [hsearch]
  exact ⟨rfl, _, _, MatchRange.runsTo_drain _, rfl⟩

end Handles

/-- Caching is transparent. After any calls, whatever the capacity: compiling
a pattern gives what parsing it gives; a search through the cache gives what a
search without one gives; and with a pattern that an earlier call compiled,
both a search and a range that is run to its end still give that. Engines that
differ in their capacity only answer the same calls alike. -/
theorem cache_is_transparent (w : Width) (config : Config) (calls : List EngineCall) :
    (∀ pattern, ((afterCalls w config calls).engine.compile pattern).1 =
      (parse w pattern).map (Compiled.mk pattern)) ∧
    (∀ pattern text, ((afterCalls w config calls).engine.findAll pattern text).1 =
      LineRegex.findAll w pattern text config.find) ∧
    (∀ (n : Nat) (pattern : Text), calls[n]? = some (.compile pattern) →
      (afterCalls w config calls).handles[n]? =
          some ((parse w pattern).map (Compiled.mk pattern)).toOption ∧
        ∀ handle, (afterCalls w config calls).handles[n]? = some (some handle) → ∀ text,
          (afterCalls w config calls).engine.findCompiled handle text =
              LineRegex.findAll w pattern text config.find ∧
            ∃ ms e,
              ((afterCalls w config calls).engine.matchesOf handle text).start.RunsTo ms e ∧
                (e.status, ms) = LineRegex.findAll w pattern text config.find) ∧
    ∀ capacity, (new w { config with cacheCapacity := capacity }).answers calls =
      (new w config).answers calls := by
  have h := faithful_afterCalls w config calls
  refine ⟨?_, h.findAll_eq, ?_, ?_⟩
  · intro pattern
    rw [h.compile_eq, compile_eq_map_parse]
  · intro n pattern hcall
    refine ⟨?_, fun handle hgiven text => h.found_with_handle hcall hgiven text⟩
    rw [h.handles_compile hcall, compile_eq_map_parse]
  · intro capacity
    rw [(Faithful.new w config).answers_eq calls, (Faithful.new w _).answers_eq calls]

/-- Room for one pattern. -/
def oneEntry : Config := { cacheCapacity := 1 }

/-- Two patterns are compiled, and the cache is cleared. -/
def twoPatterns : List EngineCall := [.compile "a+", .compile "b", .clearCache]

/-- The cache has dropped `a+`, and its handle still finds it. -/
theorem findCompiled_afterClear :
    twoPatterns[0]? = some (.compile "a+") ∧
      ((afterCalls .narrow oneEntry twoPatterns).engine.cache.contains "a+") = false ∧
      ∃ handle, (afterCalls .narrow oneEntry twoPatterns).handles[0]? = some (some handle) ∧
        ((afterCalls .narrow oneEntry twoPatterns).engine.findCompiled handle "baa").2.map
          (·.whole) = [⟨1, 3⟩] := by
  have hcall : twoPatterns[0]? = some (.compile "a+") := rfl
  obtain ⟨-, -, hhandles, -⟩ := cache_is_transparent .narrow oneEntry twoPatterns
  obtain ⟨hgiven, hfound⟩ := hhandles 0 "a+" hcall
  have hparse : ∃ p, parse .narrow "a+" = .ok p := ⟨_, by cbv⟩
  obtain ⟨p, hp⟩ := hparse
  rw [hp] at hgiven
  refine ⟨hcall, ?_, _, hgiven, ?_⟩
  · exact Std.HashMap.contains_empty
  · rw [(hfound _ hgiven "baa").1]
    cbv

end EngineSession

end LineRegex
