/-
LineRegex.Engine — a configuration and a cache, for one application.

The engine compiles patterns through its cache and applies its options to
every search. A compiled pattern may be used as long as one likes, whether
or not the cache still keeps it.

  §1 Engines   — a configuration, fixed, and a cache, which changes.
  §2 Searches  — through the cache, or with a pattern compiled before.
-/
import LineRegex.Cache
import LineRegex.Config
import LineRegex.Search

namespace LineRegex

/-! ## §1 Engines -/

/-- A configuration with a cache of its capacity. -/
structure Engine (w : Width) where
  config : Config
  cache : Cache w

namespace Engine

variable {w : Width}

/-- The engine of a configuration, with nothing compiled yet. -/
def new (w : Width) (config : Config) : Engine w := ⟨config, .empty w config.cacheCapacity⟩

/-! ## §2 Searches -/

/-- The compiled pattern of a text, through the cache. -/
def compile (e : Engine w) (pattern : Text) : Checked Compiled × Engine w :=
  let (result, cache) := e.cache.get pattern
  (result, { e with cache })

/-- All matches of a compiled pattern. -/
def findCompiled (e : Engine w) (compiled : Compiled) (text : Text) : Status × List Match :=
  compiled.pattern.findAll text e.config.find

/-- The matches of a compiled pattern, one at a time. -/
def matchesOf (e : Engine w) (compiled : Compiled) (text : Text) : MatchRange :=
  .new compiled.pattern text e.config.find

/-- All matches of a pattern, compiled through the cache. -/
def findAll (e : Engine w) (pattern text : Text) : (Status × List Match) × Engine w :=
  match e.compile pattern with
  | (.error err, e) => ((.syntaxError err.fault, []), e)
  | (.ok compiled, e) => (e.findCompiled compiled text, e)

/-- Drops the compiled patterns from the cache. -/
def clearCache (e : Engine w) : Engine w := { e with cache := e.cache.clear }

end Engine

end LineRegex
