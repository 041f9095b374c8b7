/-
LineRegex.Proofs.CommandLine.Layout — how the arguments of a command line are laid out.

Options stand in front, each with its value if it takes one. The pattern is the first
argument that is neither an option nor such a value: it stands behind two hyphens, or
does not look like an option. All that follows it are operands. Arguments are accepted
exactly if they are laid out like this, which they are in one way only, and the settings
come from heeding the options one after another.

  §1 Options   — an option as it is used: its arguments, and what it sets.
  §2 Layouts   — options, pattern and operands in a row.
  §3 Reading   — what reading makes of a layout, and that it accepts nothing else.
  §4 One way   — the layout of arguments is unique.
  §5 Programs  — the arguments that a program is given end at zero units.
-/
import LineRegex.Proofs.OutputModes

namespace LineRegex

/-! ## §1 Options -/

/-- An option in front of the pattern; a sized one with the value that it is given, and
with the number that this denotes. -/
inductive OptionUse where
  | flag (flag : Flag)
  | size (option : SizeOption) (value : Text) (n : Nat)
  deriving DecidableEq, Repr

namespace OptionUse

/-- The arguments that an option takes up. -/
def arguments : OptionUse → List Text
  | flag f => [f.name]
  | size option value _ => [option.name, value]

/-- A value is the numeral of its number, and a budget allows at least one step. -/
def Valid : OptionUse → Prop
  | flag _ => True
  | size option value n => parseSize value = some n ∧ (option = .budget → n ≠ 0)

instance : DecidablePred Valid
  | flag _ => inferInstanceAs (Decidable True)
  | size _ value n => inferInstanceAs (Decidable (parseSize value = some n ∧ _))

/-- The settings with an option heeded. -/
def apply (s : Settings) : OptionUse → Settings
  | flag f => f.apply s
  | size .budget _ n => { s with config.find.budget := n }
  | size .cache _ n => { s with config.cacheCapacity := n }

theorem setSize_eq_some_iff {option : SizeOption} {n : Nat} {s t : Settings} (value : Text) :
    option.setSize s n = some t ↔
      (option = .budget → n ≠ 0) ∧ t = (size option value n).apply s := by
  cases option with
  | budget => simp [SizeOption.setSize, apply, eq_comm]
  | cache => simp [SizeOption.setSize, apply, eq_comm]

end OptionUse

/-! ## §2 Layouts -/

/-- A command line, taken apart. -/
structure Layout where
  options : List OptionUse
  /-- Whether two hyphens stand in front of the pattern. -/
  hyphens : Bool
  pattern : Text
  operands : List Text
  deriving DecidableEq, Repr

namespace Layout

/-- The pattern and what belongs to it: the hyphens in front, and the operands behind. -/
def search (l : Layout) : List Text :=
  (if l.hyphens then [.ofString "--"] else []) ++ l.pattern :: l.operands

/-- The arguments that are laid out like this. -/
def arguments (l : Layout) : List Text := l.options.flatMap OptionUse.arguments ++ l.search

/-- The options have proper values, and a pattern without hyphens in front of it does not
look like an option. -/
structure Valid (l : Layout) : Prop where
  options : ∀ option ∈ l.options, option.Valid
  pattern : l.hyphens = false → looksLikeOption l.pattern = false

/-- The command that is laid out like this, with the options heeded on top of the settings. -/
def command (l : Layout) (s : Settings) : Command :=
  ⟨l.options.foldl OptionUse.apply s, l.pattern, l.operands⟩

end Layout

/-! ## §3 Reading -/

theorem Flag.eq_name_of_ofText? {arg : Text} {flag : Flag} (h : Flag.ofText? arg = some flag) :
    arg = flag.name := by
  unfold ofText? at h
  grind [Flag.name]

theorem Flag.looksLikeOption_name (flag : Flag) : looksLikeOption flag.name = true := by
  cases flag <;> decide

theorem SizeOption.looksLikeOption_name (option : SizeOption) :
    looksLikeOption option.name = true := by
  cases option <;> decide

/-- What does not look like an option is none. -/
theorem not_option_of_plain {arg : Text} (h : looksLikeOption arg = false) :
    Flag.ofText? arg = none ∧ SizeOption.ofText? arg = none ∧ arg ≠ .ofString "--" := by
  refine ⟨?_, ?_, ?_⟩
  · refine Option.eq_none_iff_forall_ne_some.mpr fun flag hflag => ?_
    rw [Flag.eq_name_of_ofText? hflag, flag.looksLikeOption_name] at h
    cases h
  · refine Option.eq_none_iff_forall_ne_some.mpr fun option hoption => ?_
    rw [SizeOption.eq_name_of_ofText? hoption, option.looksLikeOption_name] at h
    cases h
  · rintro rfl
    exact absurd h (by decide)

namespace Layout

theorem readArguments_search {l : Layout} (hl : l.Valid) (s : Settings) :
    readArguments s l.search = .ok ⟨s, l.pattern, l.operands⟩ := by
  obtain ⟨options, hyphens, pattern, operands⟩ := l
  cases hyphens with
  | true => exact readArguments_hyphens s pattern operands
  | false =>
    have hplain : looksLikeOption pattern = false := hl.pattern rfl
    obtain ⟨hflag, hsize, hhyphens⟩ := not_option_of_plain hplain
    exact readArguments_pattern s hflag hsize hhyphens (by simp [hplain]) operands

/-- A layout is accepted, and asks for its command. -/
theorem readArguments_arguments {l : Layout} (hl : l.Valid) (s : Settings) :
    readArguments s l.arguments = .ok (l.command s) := by
  obtain ⟨options, hyphens, pattern, operands⟩ := l
  induction options generalizing s with
  | nil => exact readArguments_search hl s
  | cons option options ih =>
    obtain ⟨hoption, hoptions⟩ := List.forall_mem_cons.mp hl.options
    have hrest := ih (option.apply s) ⟨hoptions, hl.pattern⟩
    cases option with
    | flag flag => exact (readArguments_flag s flag.ofText?_name _).trans hrest
    | size option value n =>
      obtain ⟨hvalue, hn⟩ := hoption
      have hset := (OptionUse.setSize_eq_some_iff (s := s) value).mpr ⟨hn, rfl⟩
      exact (readArguments_size option.ofText?_name hvalue hset _).trans hrest

/-- Only layouts are accepted. -/
theorem exists_of_readArguments {s : Settings} {args : List Text} {c : Command}
    (h : readArguments s args = .ok c) :
    ∃ l : Layout, l.Valid ∧ args = l.arguments ∧ c = l.command s := by
  fun_induction readArguments s args with
  -- the arguments are refused
  | case1 | case3 | case4 | case5 | case7 | case9 => cases h
  | case2 s arg rest flag hflag ih =>
    obtain ⟨l, hl, rfl, rfl⟩ := ih h
    obtain rfl := Flag.eq_name_of_ofText? hflag
    exact ⟨{ l with options := .flag flag :: l.options },
      ⟨List.forall_mem_cons.mpr ⟨trivial, hl.options⟩, hl.pattern⟩, rfl, rfl⟩
  | case6 s arg _ option hsize value rest n hvalue u hu ih =>
    obtain ⟨l, hl, rfl, rfl⟩ := ih h
    obtain rfl := SizeOption.eq_name_of_ofText? hsize
    obtain ⟨hn, rfl⟩ := (OptionUse.setSize_eq_some_iff value).mp hu
    exact ⟨{ l with options := .size option value n :: l.options },
      ⟨List.forall_mem_cons.mpr ⟨⟨hvalue, hn⟩, hl.options⟩, hl.pattern⟩, rfl, rfl⟩
  | case8 s pattern operands =>
    cases h
    exact ⟨⟨[], true, pattern, operands⟩, ⟨by simp, by simp⟩, rfl, rfl⟩
  | case10 s arg rest hflag hsize hhyphens hoption =>
    cases h
    exact ⟨⟨[], false, arg, rest⟩, ⟨by simp, fun _ => Bool.eq_false_iff.mpr hoption⟩, rfl, rfl⟩

/-- Arguments are accepted exactly if they have a layout, as the command that it is. -/
theorem readArguments_eq_ok_iff {s : Settings} {args : List Text} {c : Command} :
    readArguments s args = .ok c ↔
      ∃ l : Layout, l.Valid ∧ args = l.arguments ∧ c = l.command s := by
  constructor
  · exact exists_of_readArguments
  · rintro ⟨l, hl, rfl, rfl⟩
    exact readArguments_arguments hl s

/-! ## §4 One way -/

/-- No flag has the name of an option with a size. -/
theorem flagName_ne_sizeName (flag : Flag) (option : SizeOption) : flag.name ≠ option.name := by
  intro h
  have hflag := flag.ofText?_name
  rw [h, Flag.ofText?_sizeName] at hflag
  cases hflag

/-- The first argument of an option says which one it is, and its value gives the number. -/
theorem arguments_append_inj {option option' : OptionUse} (hoption : option.Valid)
    (hoption' : option'.Valid) {rest rest' : List Text}
    (h : option.arguments ++ rest = option'.arguments ++ rest') :
    option = option' ∧ rest = rest' := by
  cases option with
  | flag flag =>
    cases option' with
    | flag flag' =>
      obtain ⟨hname, hrest⟩ := List.cons.inj h
      have hflag := flag.ofText?_name
      rw [hname, flag'.ofText?_name] at hflag
      exact ⟨congrArg OptionUse.flag (Option.some.inj hflag).symm, hrest⟩
    | size option' value' n' => exact absurd (List.cons.inj h).1 (flagName_ne_sizeName flag option')
  | size option value n =>
    cases option' with
    | flag flag' => exact absurd (List.cons.inj h).1.symm (flagName_ne_sizeName flag' option)
    | size option' value' n' =>
      obtain ⟨hname, htail⟩ := List.cons.inj h
      obtain ⟨rfl, hrest⟩ := List.cons.inj htail
      have hsize := option.ofText?_name
      rw [hname, option'.ofText?_name] at hsize
      obtain rfl := Option.some.inj hsize
      obtain rfl : n = n' := Option.some.inj (hoption.1.symm.trans hoption'.1)
      exact ⟨rfl, hrest⟩

/-- What stands in front of the operands begins with no option. -/
theorem arguments_append_ne_search {l : Layout} (hl : l.Valid) (option : OptionUse)
    (rest : List Text) : option.arguments ++ rest ≠ l.search := by
  obtain ⟨arg, others, hsearch, hflag, hsize⟩ : ∃ arg others, l.search = arg :: others ∧
      Flag.ofText? arg = none ∧ SizeOption.ofText? arg = none := by
    obtain ⟨options, hyphens, pattern, operands⟩ := l
    cases hyphens with
    | true => exact ⟨_, _, rfl, rfl, rfl⟩
    | false =>
      obtain ⟨hflag, hsize, -⟩ := not_option_of_plain (hl.pattern rfl)
      exact ⟨_, _, rfl, hflag, hsize⟩
  rw [hsearch]
  intro h
  cases option with
  | flag flag =>
    obtain ⟨rfl, -⟩ := List.cons.inj h
    rw [flag.ofText?_name] at hflag
    cases hflag
  | size option value n =>
    obtain ⟨rfl, -⟩ := List.cons.inj h
    rw [option.ofText?_name] at hsize
    cases hsize

theorem search_inj {l l' : Layout} (hl : l.Valid) (hl' : l'.Valid) (h : l.search = l'.search) :
    l.hyphens = l'.hyphens ∧ l.pattern = l'.pattern ∧ l.operands = l'.operands := by
  have hplain {l : Layout} (hl : l.Valid) (hhyphens : l.hyphens = false) :
      l.pattern ≠ .ofString "--" := (not_option_of_plain (hl.pattern hhyphens)).2.2
  obtain ⟨options, hyphens, pattern, operands⟩ := l
  obtain ⟨options', hyphens', pattern', operands'⟩ := l'
  cases hyphens with
  | true =>
    cases hyphens' with
    | true =>
      obtain ⟨-, hrest⟩ := List.cons.inj h
      exact ⟨rfl, List.cons.inj hrest⟩
    | false => exact absurd (List.cons.inj h).1.symm (hplain hl' rfl)
  | false =>
    cases hyphens' with
    | true => exact absurd (List.cons.inj h).1 (hplain hl rfl)
    | false => exact ⟨rfl, List.cons.inj h⟩

/-- Arguments have one layout at most. -/
theorem arguments_inj {l l' : Layout} (hl : l.Valid) (hl' : l'.Valid)
    (h : l.arguments = l'.arguments) : l = l' := by
  obtain ⟨options, hyphens, pattern, operands⟩ := l
  obtain ⟨options', hyphens', pattern', operands'⟩ := l'
  induction options generalizing options' with
  | nil =>
    cases options' with
    | nil =>
      obtain ⟨rfl, rfl, rfl⟩ := search_inj hl hl' h
      rfl
    | cons option' options' =>
      rw [arguments, arguments, List.flatMap_cons, List.append_assoc] at h
      exact absurd h.symm (arguments_append_ne_search hl option' _)
  | cons option options ih =>
    obtain ⟨hoption, hoptions⟩ := List.forall_mem_cons.mp hl.options
    cases options' with
    | nil =>
      rw [arguments, arguments, List.flatMap_cons, List.append_assoc] at h
      exact absurd h (arguments_append_ne_search hl' option _)
    | cons option' options' =>
      obtain ⟨hoption', hoptions'⟩ := List.forall_mem_cons.mp hl'.options
      rw [arguments, arguments, List.flatMap_cons, List.flatMap_cons, List.append_assoc,
        List.append_assoc] at h
      obtain ⟨rfl, hrest⟩ := arguments_append_inj hoption hoption' h
      have := ih ⟨hoptions, hl.pattern⟩ options' ⟨hoptions', hl'.pattern⟩ hrest
      cases this
      rfl

/-! ## §5 Programs -/

/-- The layout of the arguments that a program is given. -/
def Describes (l : Layout) (args : List Text) : Prop :=
  l.Valid ∧ args.map Text.untilZero = l.arguments

theorem Describes.unique {l l' : Layout} {args : List Text} (h : l.Describes args)
    (h' : l'.Describes args) : l = l' :=
  arguments_inj h.1 h'.1 (h.2.symm.trans h'.2)

/-- A command line is accepted exactly if its arguments have a layout, as the command
that it is on top of the configuration. -/
theorem ofArguments_eq_ok_iff {config : Config} {args : List Text} {c : Command} :
    Command.ofArguments config args = .ok c ↔
      ∃ l : Layout, l.Describes args ∧ c = l.command { config } := by
  rw [Command.ofArguments, readArguments_eq_ok_iff]
  exact exists_congr fun l => and_assoc.symm

end Layout

theorem untilZero_eq_self {text : Text} (h : 0 ∉ text) : text.untilZero = text := by
  rw [Text.untilZero, ← Array.toList_inj, Array.toList_takeWhile, List.takeWhile_eq_self_iff]
  intro u hu
  have hne : u ≠ 0 := fun hzero => h (Array.mem_toList_iff.mp (hzero ▸ hu))
  simpa using hne

/-- Arguments without zero units are those of their layout, unit by unit. -/
theorem Layout.Describes.eq_arguments {l : Layout} {args : List Text} (h : l.Describes args)
    (hzero : ∀ arg ∈ args, 0 ∉ arg) : args = l.arguments := by
  rw [← h.2, List.map_congr_left fun arg harg => untilZero_eq_self (hzero arg harg)]
  exact args.map_id.symm

end LineRegex
