/-
LineRegex.Proofs.CommandLine.Precedence — options override the environment, field by field.

A field of the configuration is what the last option that sets it says; without such an
option it is what the variable of the field says, if that has a well-formed value; and
otherwise it is the default. A variable with a malformed value is as good as unset, but
for the warning about it.

  §1 Fields        — a field, with the variable and the options that set it.
  §2 Environments  — the configuration and the warnings, in closed form.
  §3 Options       — of the options that set a field, the last one decides.
  §4 Precedence
-/
import LineRegex.Proofs.CommandLine.Layout

namespace LineRegex

/-! ## §1 Fields -/

/-- A field of the configuration, and all that can set it: a variable, whose value is
read, and options. -/
structure ConfigField (α : Type) where
  source : Variable
  /-- What a value of the variable says, if it is well formed. -/
  read : Text → Option α
  /-- What an option says, if it sets the field. -/
  choice? : OptionUse → Option α
  get : Config → α
  set : Config → α → Config
  apply_eq : ∀ c value, source.apply c value = (read value).map (set c) := by intros; rfl
  set_get : ∀ c, set c (get c) = c := by intros; rfl
  get_apply : ∀ s option, get (option.apply s).config = (choice? option).getD (get s.config) := by
    rintro s (flag | ⟨option, value, n⟩)
    · cases flag <;> rfl
    · cases option <;> rfl

namespace ConfigField

/-- The number of compiled patterns kept. -/
def capacity : ConfigField Nat where
  source := .cacheCapacity
  read := parseSize
  choice?
    | .size .cache _ n => some n
    | _ => none
  get c := c.cacheCapacity
  set c n := { c with cacheCapacity := n }

/-- The steps allowed for one attempt, of which there must be some. -/
def budget : ConfigField Nat where
  source := .stepBudget
  read value := (parseSize value).filter (· != 0)
  choice?
    | .size .budget _ n => some n
    | _ => none
  get c := c.find.budget
  set c n := { c with find.budget := n }

/-- What offsets are counted from. -/
def offsets : ConfigField OffsetMode where
  source := .offsets
  read := parseOffsetMode
  choice?
    | .flag .lineOffsets => some .lineRelative
    | _ => none
  get c := c.find.offsets
  set c mode := { c with find.offsets := mode }

/-- What an exhausted budget leads to. -/
def onExceeded : ConfigField ExceededPolicy where
  source := .onExceeded
  read := parseExceededPolicy
  choice?
    | .flag .abortOnExceeded => some .abort
    | _ => none
  get c := c.find.onExceeded
  set c policy := { c with find.onExceeded := policy }

end ConfigField

/-! ## §2 Environments -/

/-- The value of a variable, as far as a program sees it. -/
def Environment.value? (env : Environment) (v : Variable) : Option Text :=
  (env v.name).map Text.untilZero

/-- The environment without a variable. -/
def Environment.unset (env : Environment) (v : Variable) : Environment :=
  Function.update env v.name none

namespace ConfigField

variable {α : Type}

/-- What an environment says about a field: the value of its variable, if well formed. -/
def inherited? (field : ConfigField α) (env : Environment) : Option α :=
  (env.value? field.source).bind field.read

/-- The warning about the variable of a field, if it has a malformed value. -/
def warning? (field : ConfigField α) (env : Environment) : Option Text :=
  (env.value? field.source).bind fun value =>
    if (field.read value).isNone then some (field.source.warning value) else none

/-- Reading a variable sets its field to what it says, if it says something, and adds a
warning if it has a value nevertheless. -/
theorem readVariable_eq (field : ConfigField α) (env : Environment) (found : Config × List Text) :
    Config.readVariable env found field.source =
      (field.set found.1 ((field.inherited? env).getD (field.get found.1)),
        found.2 ++ (field.warning? env).toList) := by
  unfold Config.readVariable inherited? warning?
  rw [← Environment.value?]
  cases env.value? field.source with
  | none => simp [field.set_get]
  | some value =>
    cases hread : field.read value with
    | none => simp [field.apply_eq, hread, field.set_get]
    | some a => simp [field.apply_eq, hread]

end ConfigField

/-- An environment asks for what its variables say, with defaults for what they do not
say, and is warned of in the order of the variables. -/
theorem fromEnvironment_eq (env : Environment) :
    Config.fromEnvironment env =
      ({ cacheCapacity := (ConfigField.capacity.inherited? env).getD defaultCacheCapacity
         find :=
          { budget := (ConfigField.budget.inherited? env).getD defaultBudget
            offsets := (ConfigField.offsets.inherited? env).getD .absolute
            onExceeded := (ConfigField.onExceeded.inherited? env).getD .skipPosition } },
        [ConfigField.capacity.warning? env, ConfigField.budget.warning? env,
          ConfigField.offsets.warning? env, ConfigField.onExceeded.warning? env].reduceOption) := by
  have hall : Variable.all = [ConfigField.capacity.source, ConfigField.budget.source,
    ConfigField.offsets.source, ConfigField.onExceeded.source] := rfl
  have hwarnings (a b c d : Option Text) :
      [a, b, c, d].reduceOption = a.toList ++ b.toList ++ c.toList ++ d.toList := by
    show ([a] ++ [b] ++ [c] ++ [d]).reduceOption = _
    simp only [List.reduceOption_append, List.reduceOption_singleton]
  rw [Config.fromEnvironment, hall, hwarnings]
  simp only [List.foldl_cons, List.foldl_nil, ConfigField.readVariable_eq, List.nil_append]
  rfl

theorem nodup_names : (Variable.all.map Variable.name).Nodup := by decide

/-- Without a variable that has a malformed value, a field inherits the same. -/
theorem ConfigField.inherited?_unset {α : Type} (field : ConfigField α) {env : Environment}
    (hfield : field.source ∈ Variable.all) {v : Variable} (hv : v ∈ Variable.all) {value : Text}
    (hvalue : env.value? v = some value) (hmalformed : v.apply {} value = none) :
    field.inherited? (env.unset v) = field.inherited? env := by
  by_cases hname : field.source.name = v.name
  · obtain rfl := List.inj_on_of_nodup_map nodup_names hfield hv hname
    have hread : field.read value = none := by
      rwa [field.apply_eq, Option.map_eq_none_iff] at hmalformed
    have hunset : (env.unset field.source).value? field.source = none := by
      rw [Environment.value?, Environment.unset, Function.update_self, Option.map_none]
    rw [inherited?, inherited?, hunset, hvalue, Option.bind_some, hread, Option.bind_none]
  · have hkept : (env.unset v).value? field.source = env.value? field.source := by
      rw [Environment.value?, Environment.unset, Function.update_of_ne hname, Environment.value?]
    rw [inherited?, inherited?, hkept]

/-- A variable with a malformed value changes nothing: without it the configuration is the same. -/
theorem fromEnvironment_unset {env : Environment} {v : Variable} (hv : v ∈ Variable.all)
    {value : Text} (hvalue : env.value? v = some value) (hmalformed : v.apply {} value = none) :
    (Config.fromEnvironment (env.unset v)).1 = (Config.fromEnvironment env).1 := by
  have hsame {α : Type} (field : ConfigField α) (hfield : field.source ∈ Variable.all) :
      field.inherited? (env.unset v) = field.inherited? env :=
    field.inherited?_unset hfield hv hvalue hmalformed
  rw [fromEnvironment_eq, fromEnvironment_eq]
  simp only [hsame .capacity (by simp [ConfigField.capacity, Variable.all]),
    hsame .budget (by simp [ConfigField.budget, Variable.all]),
    hsame .offsets (by simp [ConfigField.offsets, Variable.all]),
    hsame .onExceeded (by simp [ConfigField.onExceeded, Variable.all])]

/-! ## §3 Options -/

namespace ConfigField

variable {α : Type} (field : ConfigField α)

/-- What the last of the options that set a field says. -/
def chosen? (options : List OptionUse) : Option α :=
  (options.filterMap field.choice?).getLast?

theorem chosen?_cons (option : OptionUse) (options : List OptionUse) :
    field.chosen? (option :: options) = (field.chosen? options).or (field.choice? option) := by
  unfold chosen?
  cases h : field.choice? option with
  | none => rw [List.filterMap_cons_none h, Option.or_none]
  | some a =>
    rw [List.filterMap_cons_some h, List.getLast?_cons]
    cases (options.filterMap field.choice?).getLast? <;> rfl

/-- By induction on the options: heeding all of them sets a field to the last choice. -/
theorem get_foldl_apply (options : List OptionUse) (s : Settings) :
    field.get (options.foldl OptionUse.apply s).config =
      (field.chosen? options).getD (field.get s.config) := by
  induction options generalizing s with
  | nil => rfl
  | cons option options ih =>
    rw [List.foldl_cons, ih, field.get_apply, chosen?_cons]
    cases field.chosen? options <;> rfl

/-- What the options choose was chosen by one of them. -/
theorem exists_of_chosen? {options : List OptionUse} {a : α}
    (h : field.chosen? options = some a) : ∃ option ∈ options, field.choice? option = some a :=
  List.mem_filterMap.mp (List.mem_of_getLast? h)

end ConfigField

/-! ## §4 Precedence -/

/-- What a field comes to be: what the last of the options that set it says, or else what
the environment says, or else a default. -/
def ConfigField.decided {α : Type} (field : ConfigField α) (env : Environment)
    (options : List OptionUse) (default : α) : α :=
  ((field.chosen? options).or (field.inherited? env)).getD default

/-- Heeding options on top of an environment decides every field. -/
theorem config_foldl_apply (env : Environment) (options : List OptionUse) :
    (options.foldl OptionUse.apply { config := (Config.fromEnvironment env).1 }).config =
      { cacheCapacity := ConfigField.capacity.decided env options defaultCacheCapacity
        find :=
          { budget := ConfigField.budget.decided env options defaultBudget
            offsets := ConfigField.offsets.decided env options .absolute
            onExceeded := ConfigField.onExceeded.decided env options .skipPosition } } := by
  have hdecided {α : Type} (field : ConfigField α) (default : α)
      (h : field.get (Config.fromEnvironment env).1 = (field.inherited? env).getD default) :
      field.get
          (options.foldl OptionUse.apply { config := (Config.fromEnvironment env).1 }).config =
        field.decided env options default := by
    rw [field.get_foldl_apply, h, ConfigField.decided]
    cases field.chosen? options <;> rfl
  rw [← hdecided .capacity defaultCacheCapacity (by rw [fromEnvironment_eq]; rfl),
    ← hdecided .budget defaultBudget (by rw [fromEnvironment_eq]; rfl),
    ← hdecided .offsets .absolute (by rw [fromEnvironment_eq]; rfl),
    ← hdecided .onExceeded .skipPosition (by rw [fromEnvironment_eq]; rfl)]
  rfl

/-- No budget is ever decided to be 0: neither an option nor a variable can say so. -/
theorem budget_decided_ne_zero {options : List OptionUse} (h : ∀ option ∈ options, option.Valid)
    (env : Environment) : ConfigField.budget.decided env options defaultBudget ≠ 0 := by
  unfold ConfigField.decided
  cases hchosen : ConfigField.budget.chosen? options with
  | some n =>
    obtain ⟨option, hmem, hchoice⟩ := ConfigField.exists_of_chosen? _ hchosen
    have hvalid : option.Valid := h option hmem
    cases option with
    | flag flag => cases hchoice
    | size option value m =>
      cases option with
      | cache => cases hchoice
      | budget =>
        cases hchoice
        exact hvalid.2 rfl
  | none =>
    cases hinherited : ConfigField.budget.inherited? env with
    | none => decide
    | some n =>
      obtain ⟨value, -, hread⟩ := Option.bind_eq_some_iff.mp hinherited
      have hn : (n != 0) = true := (Option.filter_eq_some_iff.mp hread).2
      exact bne_iff_ne.mp hn

/-- Options override the environment, field by field. Arguments that are accepted have one
layout: options, then the pattern, which stands behind two hyphens or does not look like an
option, then operands, which are what they are given as, also if they look like options. Each
field is what the last of those options that sets it says, or else what its own variable says
if that is well formed, or else the default; no budget is 0. There is one warning for each
variable with a malformed value, in the order of the variables, and the configuration is the
same without such a variable. -/
theorem options_override_environment {env : Environment} {args : List Text} {c : Command}
    (hc : Command.ofArguments (Config.fromEnvironment env).1 args = .ok c) :
    ∃ l : Layout,
      l.Describes args ∧ (∀ l' : Layout, l'.Describes args → l' = l) ∧
      ((∀ arg ∈ args, 0 ∉ arg) → args = l.arguments) ∧
      c.pattern = l.pattern ∧ c.operands = l.operands ∧
      c.settings.config =
        { cacheCapacity := ConfigField.capacity.decided env l.options defaultCacheCapacity
          find :=
            { budget := ConfigField.budget.decided env l.options defaultBudget
              offsets := ConfigField.offsets.decided env l.options .absolute
              onExceeded := ConfigField.onExceeded.decided env l.options .skipPosition } } ∧
      c.settings.config.find.budget ≠ 0 ∧
      (Config.fromEnvironment env).2 =
        [ConfigField.capacity.warning? env, ConfigField.budget.warning? env,
          ConfigField.offsets.warning? env, ConfigField.onExceeded.warning? env].reduceOption ∧
      ∀ v ∈ Variable.all, ∀ value, env.value? v = some value → v.apply {} value = none →
        (Config.fromEnvironment (env.unset v)).1 = (Config.fromEnvironment env).1 := by
  obtain ⟨l, hl, rfl⟩ := Layout.ofArguments_eq_ok_iff.mp hc
  have hconfig := config_foldl_apply env l.options
  refine ⟨l, hl, fun l' hl' => hl'.unique hl, hl.eq_arguments, rfl, rfl, hconfig, ?_, ?_,
    fun v hv value => fromEnvironment_unset hv⟩
  · rw [Layout.command, hconfig]
    exact budget_decided_ne_zero hl.1.options env
  · rw [fromEnvironment_eq]

/-- A capacity, a budget, and offsets that do not say what they are counted from. -/
def threeVariables : Environment := fun name =>
  if name = Variable.cacheCapacity.name then some (.ofString "16")
  else if name = Variable.stepBudget.name then some (.ofString "5000")
  else if name = Variable.offsets.name then some (.ofString "relative")
  else none

/-- `--budget 7 -c --budget 9 - -c f`: a hyphen is a pattern, and behind it there are files. -/
def hyphenSearch : Layout where
  options := [.size .budget "7" 7, .flag .countOnly, .size .budget "9" 9]
  hyphens := false
  pattern := "-"
  operands := ["-c", "f"].map .ofString

/-- The last budget counts, the capacity is inherited, and the offsets are warned of. -/
theorem options_override_environment_hyphen :
    ∃ c, Command.ofArguments (Config.fromEnvironment threeVariables).1 hyphenSearch.arguments =
        .ok c ∧
      c.pattern = "-" ∧ c.operands = ["-c", "f"].map .ofString ∧
      c.settings.config = { cacheCapacity := 16, find := { budget := 9 } } ∧
      (Config.fromEnvironment threeVariables).2 = [Variable.offsets.warning "relative"] := by
  have hdescribes : hyphenSearch.Describes hyphenSearch.arguments :=
    ⟨⟨by decide, by decide⟩, by cbv⟩
  have hc : Command.ofArguments (Config.fromEnvironment threeVariables).1 hyphenSearch.arguments =
      .ok (hyphenSearch.command { config := (Config.fromEnvironment threeVariables).1 }) :=
    Layout.ofArguments_eq_ok_iff.mpr ⟨hyphenSearch, hdescribes, rfl⟩
  obtain ⟨l, -, honly, -, hpattern, hoperands, hconfig, -, hwarnings, -⟩ :=
    options_override_environment hc
  obtain rfl : hyphenSearch = l := honly hyphenSearch hdescribes
  have hcapacity : threeVariables.value? .cacheCapacity = some (.ofString "16") := by cbv
  have hbudget : threeVariables.value? .stepBudget = some (.ofString "5000") := by cbv
  have hoffsets : threeVariables.value? .offsets = some (.ofString "relative") := by cbv
  have honExceeded : threeVariables.value? .onExceeded = none := by cbv
  refine ⟨_, hc, hpattern, hoperands, hconfig.trans ?_, hwarnings.trans ?_⟩
  · unfold ConfigField.decided ConfigField.inherited?
    simp only [ConfigField.capacity, ConfigField.budget, ConfigField.offsets,
      ConfigField.onExceeded, hcapacity, hbudget, hoffsets, honExceeded]
    decide
  · unfold ConfigField.warning?
    simp only [ConfigField.capacity, ConfigField.budget, ConfigField.offsets,
      ConfigField.onExceeded, hcapacity, hbudget, hoffsets, honExceeded]
    decide

end LineRegex
