import Estree.CommandLine.Arguments

/-!
# Options and the arguments that spell them

`Options` is what can be asked of the program: a command, a format or none, each limit or none, and
where the expression is. The program itself only sees arguments, so a statement about all options is
one about the arguments that spell them.

> `Options.IsSpelledBy`: the arguments are read as the invocation of the options. There may be
> several such lists of arguments, and results are stated for all of them.

> `Options.isSpelledBy_arguments`: there are some for all options that can be spelled at all: a
> limit is a number of 64 bits, a path is not empty, and only `parse` has a format.

The second one shows that the first is no empty condition. Arguments are read one after the other
into settings, so it goes along the arguments: every setting that is spelled is read back
(`Argument.ofText_spell`) and leaves those before it as they are.
-/

namespace Estree.CommandLine

/-- What is asked of the program. -/
structure Options where
  command : Command
  format? : Option Format
  maxLength? : Option Nat
  maxDepth? : Option Nat
  origin : Origin

namespace Options

/-- The limits that are given, and the standard ones for those that are not. -/
def limits (options : Options) : Limits where
  maxLength := options.maxLength?
  maxDepth := options.maxDepth?.getD Limits.standard.maxDepth

/-- The invocation that is asked for. -/
def invocation (options : Options) : Invocation where
  command := options.command
  origin := options.origin
  format := options.format?.getD .json
  limits := options.limits

/-- The arguments are read as what is asked for. -/
def IsSpelledBy (options : Options) (arguments : List String) : Prop :=
  Request.read? arguments = some (.invocation options.invocation)

end Options

/-! ## Spellings -/

def Command.name : Command → String
  | .parse => "parse"
  | .check => "check"
  | .print => "print"

def Format.name : Format → String
  | .json => "json"
  | .pretty => "pretty"
  | .dump => "debug"

def Setting.name : Setting → String
  | .maxLength => "max-len"
  | .maxDepth => "max-depth"
  | .file => "file"
  | .format => "format"

/-- A setting with its value in one argument. -/
def Setting.spell (setting : Setting) (value : String) : String :=
  String.ofList ('-' :: '-' :: (setting.name.toList ++ '=' :: value.toList))

/-- The setting with a value, if there is one. -/
def Setting.spell? (setting : Setting) (value? : Option String) : List String :=
  value?.toList.map setting.spell

namespace Options

/-- Arguments that spell the options: the limits, the command, and what belongs to it. -/
def arguments (options : Options) : List String :=
  Setting.maxLength.spell? (options.maxLength?.map Nat.repr) ++
    (Setting.maxDepth.spell? (options.maxDepth?.map Nat.repr) ++
      options.command.name :: (Setting.format.spell? (options.format?.map Format.name) ++
        match options.origin with
        | .argument text => ["--", text]
        | .file path => [Setting.file.spell path]
        | .standardInput => []))

/-- Whether there are arguments for the options. -/
structure CanBeSpelled (options : Options) : Prop where
  maxLength_lt : ∀ n ∈ options.maxLength?, n < Nat.pow 2 64
  maxDepth_lt : ∀ n ∈ options.maxDepth?, n < Nat.pow 2 64
  path_ne : ∀ path, options.origin = .file path → path ≠ ""
  format_eq_none : options.command ≠ .parse → options.format? = none

end Options

/-! ## Reading what is spelled -/

/-- A command is found by its name. -/
theorem Command.ofName?_name (command : Command) : ofName? command.name = some command := by
  cases command <;> rfl

/-- So is a format. -/
theorem Format.ofName?_name (format : Format) : ofName? format.name = some format := by
  cases format <;> rfl

/-- A number is read back from its digits. -/
theorem readNatural?_repr {n : Nat} (h : n < Nat.pow 2 64) : readNatural? n.repr = some n := by
  have hdigits : n.repr.toList = Nat.toDigits 10 n := String.toList_ofList
  have hall : ∀ c ∈ Nat.toDigits 10 n, c.isDigit = true := fun c hc =>
    Nat.isDigit_of_mem_toDigits (by decide) (by decide) hc
  have hne : Nat.toDigits 10 n ≠ [] := Nat.toDigits_ne_nil
  have hvalue : Decimal.ofDigits (Nat.toDigits 10 n) = n := Nat.ofDigitChars_ten_toDigits
  rw [readNatural?, hdigits]
  split
  next digits heq =>
    have hplus := hall '+' (heq ▸ List.mem_cons_self)
    cases hplus
  next =>
    rw [if_pos ⟨hne, List.all_eq_true.2 hall⟩, hvalue, Option.filter_some, if_pos]
    exact decide_eq_true h

/-- A setting is found again in its spelling, wherever its name is known. -/
theorem Argument.ofText_spell {command? : Option Command} {setting : Setting} (value : String)
    (h : Setting.ofName? command? setting.name = some setting) :
    ofText command? (setting.spell value) = .setting setting (some value) := by
  -- The name ends at the first `=`, so that the value may have more of them.
  have hall : setting.name.toList.all (· != '=') = true := by
    cases setting <;> rfl
  have hne : ∀ c ∈ setting.name.toList, (c != '=') = true := List.all_eq_true.1 hall
  have hname : (setting.name.toList ++ '=' :: value.toList).takeWhile (· != '=') =
      setting.name.toList := by
    rw [List.takeWhile_append_of_pos hne]
    simp
  have hvalue : (setting.name.toList ++ '=' :: value.toList).dropWhile (· != '=') =
      '=' :: value.toList := by
    rw [List.dropWhile_append_of_pos hne]
    simp
  have hlong : ofText command? (setting.spell value) =
      ofLong command? (setting.name.toList ++ '=' :: value.toList) := by
    rw [ofText, Setting.spell, String.toList_ofList]
    cases setting <;> rfl
  rw [hlong, ofLong, hname, hvalue]
  simp only [String.ofList_toList, h]

namespace Request

/-- A spelled setting before the command is put, and the rest is read with it. -/
theorem readBefore?_spell {settings : Settings} {setting : Setting} {value : String}
    {rest : List String} (h : Setting.ofName? none setting.name = some setting) :
    readBefore? settings (setting.spell value :: rest) =
      (settings.put? setting value).bind fun new => readBefore? new rest := by
  rw [readBefore?.eq_def]
  simp only [Argument.ofText_spell value h]
  rfl

/-- A spelled setting after the command is put, and the rest is read with it. -/
theorem readWithin?_spell {before settings : Settings} {command : Command} {setting : Setting}
    {value : String} {rest : List String}
    (h : Setting.ofName? (some command) setting.name = some setting) :
    readWithin? before command settings (setting.spell value :: rest) =
      (settings.put? setting value).bind fun new => readWithin? before command new rest := by
  rw [readWithin?.eq_def]
  simp only [Argument.ofText_spell value h]
  rfl

/-- A limit before the command is put if it is given. -/
theorem readBefore?_maxLength {n? : Option Nat} (h : ∀ n ∈ n?, n < Nat.pow 2 64)
    (rest : List String) :
    readBefore? .empty (Setting.maxLength.spell? (n?.map Nat.repr) ++ rest) =
      readBefore? { Settings.empty with maxLength := n? } rest := by
  cases n? with
  | none => rfl
  | some n =>
    show readBefore? .empty (Setting.maxLength.spell n.repr :: rest) = _
    rw [readBefore?_spell rfl]
    show ((Settings.once none (readNatural? n.repr)).map _).bind _ = _
    rw [readNatural?_repr (h n rfl)]
    rfl

/-- The limit of depth is read next, whatever the limit of length is. -/
theorem readBefore?_maxDepth {length? n? : Option Nat} (h : ∀ n ∈ n?, n < Nat.pow 2 64)
    (rest : List String) :
    readBefore? { Settings.empty with maxLength := length? }
        (Setting.maxDepth.spell? (n?.map Nat.repr) ++ rest) =
      readBefore? { Settings.empty with maxLength := length?, maxDepth := n? } rest := by
  cases n? with
  | none => rfl
  | some n =>
    show readBefore? _ (Setting.maxDepth.spell n.repr :: rest) = _
    rw [readBefore?_spell rfl]
    show ((Settings.once none (readNatural? n.repr)).map _).bind _ = _
    rw [readNatural?_repr (h n rfl)]
    rfl

/-- The name of a command ends the settings before it. -/
theorem readBefore?_name (settings : Settings) (command : Command) (rest : List String) :
    readBefore? settings (command.name :: rest) =
      readWithin? settings command .empty rest := by
  cases command <;> rfl

/-- A format is put if it is named; only `parse` knows any. -/
theorem readWithin?_format {before : Settings} {command : Command} {format? : Option Format}
    (h : command ≠ .parse → format? = none) (rest : List String) :
    readWithin? before command .empty
        (Setting.format.spell? (format?.map Format.name) ++ rest) =
      readWithin? before command { Settings.empty with format := format? } rest := by
  cases format? with
  | none => rfl
  | some format =>
    by_cases hparse : command = .parse
    · subst hparse
      show readWithin? before .parse .empty (Setting.format.spell format.name :: rest) = _
      rw [readWithin?_spell rfl]
      show ((Settings.once none (Format.ofName? format.name)).map _).bind _ = _
      rw [format.ofName?_name]
      rfl
    · cases h hparse

/-- The expression itself, after the end of the options. -/
theorem readWithin?_argument (before settings : Settings) (command : Command) (text : String)
    (h : settings.argument = none) :
    readWithin? before command settings ["--", text] =
      { settings with argument := some text }.toRequest? before command := by
  rw [readWithin?.eq_def]
  show (settings.putArgument? text).bind _ = _
  rw [Settings.putArgument?, h]
  rfl

/-- A path that is not empty is read as the place of the expression. -/
theorem readWithin?_file (before : Settings) (command : Command) (format? : Option Format)
    {path : String} (h : path ≠ "") :
    readWithin? before command { Settings.empty with format := format? }
        [Setting.file.spell path] =
      { Settings.empty with format := format?, file := some path }.toRequest? before command := by
  rw [readWithin?_spell rfl]
  show ((Settings.once none (if path = "" then none else some path)).map _).bind _ = _
  rw [if_neg h]
  rfl

end Request

/-- All options that can be spelled are spelled by their arguments. -/
theorem Options.isSpelledBy_arguments {options : Options} (h : options.CanBeSpelled) :
    options.IsSpelledBy options.arguments := by
  rw [IsSpelledBy, Request.read?, arguments, Request.readBefore?_maxLength h.maxLength_lt,
    Request.readBefore?_maxDepth h.maxDepth_lt, Request.readBefore?_name,
    Request.readWithin?_format h.format_eq_none]
  obtain ⟨command, format?, maxLength?, maxDepth?, origin⟩ := options
  have hlength : (none : Option Nat).or maxLength? = maxLength? := Option.none_or
  have hdepth : (none : Option Nat).or maxDepth? = maxDepth? := Option.none_or
  cases origin with
  | argument text => exact Request.readWithin?_argument _ _ _ text rfl
  | file path => exact Request.readWithin?_file _ _ _ (h.path_ne path rfl)
  | standardInput => rfl

end Estree.CommandLine
