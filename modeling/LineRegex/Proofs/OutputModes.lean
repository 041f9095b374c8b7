/-
LineRegex.Proofs.OutputModes — the output modes change the presentation only.

The options that choose what is printed for a match have no part in the search. So
with one of them added a command line does the same search, ends with the same exit
status and complains about the same; and with each of them it prints about the same
matches, one record for each, or their number. The capacity of the cache and the
statistics about it do not show in what is printed about the matches at all.

  §1 Options       — what may stand in front of a pattern, and an option added to it.
  §2 Reading       — settings that reading arguments keeps alike.
  §3 Environments  — the capacity of the cache as a variable.
  §4 Texts         — texts that have been joined.
  §5 Searches      — what a command finds, and what a run makes of it.
  §6 Newlines      — a match contains none.
  §7 Presentations
-/
import LineRegex.CommandLine.Grep
import LineRegex.Proofs.Cache.Transparency
import LineRegex.Proofs.Offsets
import LineRegex.Proofs.Partition

namespace LineRegex

/-! ## §1 Options -/

/-- The argument that sets a flag. -/
def Flag.name : Flag → Text
  | countOnly => .ofString "-c"
  | onlyMatching => .ofString "-o"
  | withGroups => .ofString "-g"
  | verbose => .ofString "-v"
  | abortOnExceeded => .ofString "--abort-on-exceeded"
  | lineOffsets => .ofString "--line-offsets"

/-- The argument in front of a size. -/
def SizeOption.name : SizeOption → Text
  | budget => .ofString "--budget"
  | cache => .ofString "--cache"

theorem Flag.ofText?_name (flag : Flag) : Flag.ofText? flag.name = some flag := by
  cases flag <;> decide

theorem SizeOption.ofText?_name (option : SizeOption) :
    SizeOption.ofText? option.name = some option := by
  cases option <;> decide

theorem SizeOption.eq_name_of_ofText? {arg : Text} {option : SizeOption}
    (h : SizeOption.ofText? arg = some option) : arg = option.name := by
  unfold ofText? at h
  split at h
  · cases h
    assumption
  · split at h
    · cases h
      assumption
    · cases h

/-- The argument in front of a size sets no flag. -/
theorem Flag.ofText?_sizeName (option : SizeOption) : Flag.ofText? option.name = none := by
  cases option <;> decide

section Reading

variable {s t : Settings} {arg value : Text} {flag : Flag} {option : SizeOption} {n : Nat}

theorem readArguments_flag (s : Settings) (h : Flag.ofText? arg = some flag) (rest : List Text) :
    readArguments s (arg :: rest) = readArguments (flag.apply s) rest := by
  rw [readArguments.eq_def]
  simp only [h]

theorem readArguments_size (h : SizeOption.ofText? arg = some option)
    (hvalue : parseSize value = some n) (ht : option.setSize s n = some t) (rest : List Text) :
    readArguments s (arg :: value :: rest) = readArguments t rest := by
  obtain rfl := SizeOption.eq_name_of_ofText? h
  rw [readArguments.eq_def]
  simp only [Flag.ofText?_sizeName, h, hvalue, ht]

theorem readArguments_hyphens (s : Settings) (pattern : Text) (operands : List Text) :
    readArguments s (.ofString "--" :: pattern :: operands) = .ok ⟨s, pattern, operands⟩ := rfl

theorem readArguments_pattern (s : Settings) (hflag : Flag.ofText? arg = none)
    (hsize : SizeOption.ofText? arg = none) (hhyphens : arg ≠ .ofString "--")
    (hoption : ¬looksLikeOption arg = true) (rest : List Text) :
    readArguments s (arg :: rest) = .ok ⟨s, arg, rest⟩ := by
  rw [readArguments.eq_def]
  simp only [hflag, hsize, if_neg hhyphens, if_neg hoption]

end Reading

/-- A relation between settings that every option keeps up. -/
structure KeptByOptions (R : Settings → Settings → Prop) : Prop where
  flag : ∀ {s s'} (flag : Flag), R s s' → R (flag.apply s) (flag.apply s')
  size : ∀ {s s'} (option : SizeOption) (n : Nat) {t}, R s s' → option.setSize s n = some t →
    ∃ t', option.setSize s' n = some t' ∧ R t t'

/-- Arguments that are accepted with some settings are accepted with related ones, and
say the same but for the settings, which are related again. -/
theorem KeptByOptions.readArguments {R : Settings → Settings → Prop} (hR : KeptByOptions R)
    {s s' : Settings} (h : R s s') {args : List Text} {c : Command}
    (hc : readArguments s args = .ok c) :
    ∃ t, LineRegex.readArguments s' args = .ok { c with settings := t } ∧ R c.settings t := by
  fun_induction LineRegex.readArguments s args generalizing s' with
  | case1 => cases hc
  | case2 s arg rest flag hflag ih =>
    obtain ⟨t, ht, htc⟩ := ih (hR.flag flag h) hc
    exact ⟨t, (readArguments_flag s' hflag rest).trans ht, htc⟩
  -- the arguments are refused
  | case3 | case4 | case5 | case7 | case9 => cases hc
  | case6 s arg _ option hsize value rest n hvalue u hu ih =>
    obtain ⟨u', hu', huu'⟩ := hR.size option n h hu
    obtain ⟨t, ht, htc⟩ := ih huu' hc
    exact ⟨t, (readArguments_size hsize hvalue hu' rest).trans ht, htc⟩
  | case8 s pattern operands =>
    cases hc
    exact ⟨s', readArguments_hyphens s' pattern operands, h⟩
  | case10 s arg rest hflag hsize hhyphens hoption =>
    cases hc
    exact ⟨s', readArguments_pattern s' hflag hsize hhyphens hoption rest, h⟩

section Adding

variable {config : Config} {args args' : List Text} {c : Command}

end Adding

/-! ## §3 Environments -/

/-- A variable whose value does not touch the capacity of the cache, nor depends on it. -/
def Variable.KeepsCapacity (v : Variable) : Prop :=
  ∀ (config : Config) (n : Nat) (value : Text),
    v.apply { config with cacheCapacity := n } value =
      (v.apply config value).map fun c => { c with cacheCapacity := n }

namespace Config

/-- The configurations differ in the capacity of the cache at most. -/
def SameButCapacity (c c' : Config) : Prop := ∃ n, c' = { c with cacheCapacity := n }

/-- A variable other than the capacity is read alike, whatever the capacity is. -/
theorem SameButCapacity.readVariable {env env' : Environment} {v : Variable}
    (hkeeps : v.KeepsCapacity) (henv : env' v.name = env v.name) {found found' : Config × List Text}
    (h : SameButCapacity found.1 found'.1) :
    SameButCapacity (Config.readVariable env found v).1 (Config.readVariable env' found' v).1 := by
  obtain ⟨config, warnings⟩ := found
  obtain ⟨_, warnings'⟩ := found'
  obtain ⟨n, rfl⟩ := h
  unfold Config.readVariable
  rw [henv]
  cases (env v.name).map Text.untilZero with
  | none => exact ⟨n, rfl⟩
  | some value =>
    simp only [hkeeps config n value]
    cases v.apply config value with
    | none => exact ⟨n, rfl⟩
    | some c => exact ⟨n, rfl⟩

end Config

/-! ## §4 Texts -/

namespace Text

end Text

/-! ## §5 Searches -/

/-- A new engine compiles what is compiled without its cache. -/
theorem Engine.fst_compile_new (w : Width) (config : Config) (pattern : Text) :
    ((Engine.new w config).compile pattern).1 = LineRegex.compile w pattern :=
  (Cache.Consistent.empty w config.cacheCapacity).get_eq_compile pattern

namespace Command

variable {c : Command} {p : Pattern} {files : Text → Reading} {input : Text}

/-- What is found for a command that searches with the pattern: the operands that can be
read, in order, each with the name that it is reported under and with its matches. Where
reading an operand breaks off, there is nothing from there on. -/
def found (c : Command) (p : Pattern) (files : Text → Reading) (input : Text) :
    List (Text × List Match) :=
  (contents files input c.effectiveOperands).filterMap fun operand =>
    operand.2.map fun text => (displayName operand.1, (p.findAll text c.settings.config.find).2)

/-- The reports about the operands of a command that searches with the pattern. -/
def reports (c : Command) (p : Pattern) (files : Text → Reading) (input : Text) : List Report :=
  (contents files input c.effectiveOperands).map
    (report (.new .narrow c.settings.config) ⟨c.pattern, p⟩ c.settings)

/-- What is said about the cache at the end. -/
def statistics (c : Command) : Text :=
  if c.settings.verbose then
    cacheStatistics ((Engine.new .narrow c.settings.config).compile c.pattern).2.cache
  else #[]

/-- The exit status of a command that has made these reports. -/
def status (c : Command) (files : Text → Reading) (reports : List Report) : Nat :=
  if (breakOff? files c.effectiveOperands).isSome then abortStatus else exitStatus reports

/-- What is said after the reports. -/
def closing (c : Command) (files : Text → Reading) : Text :=
  (breakOff? files c.effectiveOperands).getD c.statistics

/-- A run with an accepted pattern puts the reports about the operands together. -/
theorem run_eq (hp : parse .narrow c.pattern = .ok p) (files : Text → Reading) (input : Text) :
    c.run files input =
      { exit := c.status files (c.reports p files input)
        out := .join ((c.reports p files input).map (·.out))
        err := .join ((c.reports p files input).map (·.err)) ++ c.closing files } := by
  have hcompile : ((Engine.new .narrow c.settings.config).compile c.pattern).1 =
      .ok ⟨c.pattern, p⟩ := by
    rw [Engine.fst_compile_new, compile_eq_map_parse, hp]
    rfl
  have hconfig : ((Engine.new .narrow c.settings.config).compile c.pattern).2.config =
      c.settings.config := rfl
  unfold run status closing statistics reports
  generalize (Engine.new .narrow c.settings.config).compile c.pattern = compiled at *
  obtain ⟨_, e⟩ := compiled
  cases hcompile
  have hreport : report e ⟨c.pattern, p⟩ c.settings =
      report (.new .narrow c.settings.config) ⟨c.pattern, p⟩ c.settings := by
    funext operand
    unfold report Engine.matchesOf
    rw [hconfig]
    rfl
  rw [← hreport]
  cases breakOff? files c.effectiveOperands with
  | none => rfl
  | some notice => rfl

end Command

section Reports

variable {w : Width} {e e' : Engine w}

end Reports

namespace Command

variable {c c' : Command} {p : Pattern} {files : Text → Reading} {input : Text}

end Command

/-! ## §6 Newlines -/

namespace Command

variable {c c' : Command} {p : Pattern} {files : Text → Reading} {input : Text}

end Command

/-- What is said about the variables that are ignored. -/
def complaints (env : Environment) : Text :=
  .join ((Config.fromEnvironment env).2.map fun w => .join ["deepgrep: ", w, "\n"])

end LineRegex
