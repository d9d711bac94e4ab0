import Estree.Grammar.Reader

/-!
# Arguments of the command line

An invocation names a command, the limits, and where the expression comes from. Options may stand
before the command or after it, and the value after it counts; `--` ends the options. Whatever does
not fit makes the whole invocation a wrong usage.
-/

namespace Estree.CommandLine

/-- What is done with an expression. -/
inductive Command where
  | parse
  | check
  | print
deriving DecidableEq

def Command.ofName? : String → Option Command
  | "parse" => some .parse
  | "check" => some .check
  | "print" => some .print
  | _ => none

/-- How a tree is shown. -/
inductive Format where
  | json
  | pretty
  | dump
deriving DecidableEq

def Format.ofName? : String → Option Format
  | "json" => some .json
  | "pretty" => some .pretty
  | "debug" => some .dump
  | _ => none

/-- Where an expression comes from. -/
inductive Origin where
  | argument (text : String)
  | file (path : String)
  | standardInput
deriving DecidableEq

/-- A command with all that it needs. -/
structure Invocation where
  command : Command
  origin : Origin
  format : Format
  limits : Limits
deriving DecidableEq

/-- What arguments ask for. -/
inductive Request where
  | version
  | invocation (invocation : Invocation)
deriving DecidableEq

/-! ## Single arguments -/

/-- An option with a value. -/
inductive Setting where
  | maxLength
  | maxDepth
  | file
  | format
deriving DecidableEq

/-- The setting that a long option names, before a command or within one. -/
def Setting.ofName? (command? : Option Command) : String → Option Setting
  | "max-len" => some .maxLength
  | "max-depth" => some .maxDepth
  | "file" => if command?.isSome then some .file else none
  | "format" => if command? = some .parse then some .format else none
  | _ => none

/-- What one argument is. -/
inductive Argument where
  /-- An option that changes nothing here. -/
  | flag
  | version
  /-- A setting, and its value if the same argument holds it. -/
  | setting (setting : Setting) (value? : Option String)
  | separator
  | plain (text : String)
  | unknown
deriving DecidableEq

namespace Argument

/-- What a group of one-letter options is. An option with a value takes the rest of the group for
it, or the next argument if there is no rest. -/
def ofGroup (command? : Option Command) : List Char → Argument
  | [] => flag
  | 'v' :: rest => ofGroup command? rest
  | 'V' :: _ => if command?.isNone then version else unknown
  | 'f' :: rest =>
    if command?.isNone then
      unknown
    else
      match rest with
      | [] => setting .file none
      | '=' :: value => setting .file (some (String.ofList value))
      | value => setting .file (some (String.ofList value))
  | _ => unknown

/-- What a long option is, of which the dashes are cut off. -/
def ofLong (command? : Option Command) (text : List Char) : Argument :=
  let name := String.ofList (text.takeWhile (· != '='))
  let value? :=
    match text.dropWhile (· != '=') with
    | [] => none
    | _ :: value => some (String.ofList value)
  match Setting.ofName? command? name with
  | some named => setting named value?
  | none =>
    if value?.isSome then unknown
    else if name = "verbose" then flag
    else if name = "version" ∧ command?.isNone then version
    else unknown

/-- What an argument is, before a command or within one. -/
def ofText (command? : Option Command) (text : String) : Argument :=
  match text.toList with
  | ['-', '-'] => separator
  | '-' :: '-' :: option => ofLong command? option
  | ['-'] => plain text
  | '-' :: group => ofGroup command? group
  | _ => plain text

/-- Whether an argument may be the value of the option before it. -/
def isValue (text : String) : Bool :=
  match text.toList with
  | ['-'] => true
  | '-' :: _ => false
  | _ => true

end Argument

/-! ## Settings -/

/-- Reads a whole number below `2 ^ 64`; a plus sign may precede it. -/
def readNatural? (text : String) : Option Nat :=
  let digits :=
    match text.toList with
    | '+' :: digits => digits
    | digits => digits
  if digits ≠ [] ∧ digits.all Char.isDigit then
    (some (Decimal.ofDigits digits)).filter (· < Nat.pow 2 64)
  else
    none

/-- The settings of one level: those before the command, or those within it. -/
structure Settings where
  maxLength : Option Nat
  maxDepth : Option Nat
  file : Option String
  format : Option Format
  argument : Option String

namespace Settings

def empty : Settings := ⟨none, none, none, none, none⟩

/-- The value, unless one is there already. -/
def once {α : Type} (old? : Option α) (new? : Option α) : Option (Option α) :=
  if old?.isSome || new?.isNone then none else some new?

/-- Gives a setting its value. No setting has two at one level, and no path is empty. -/
def put? (settings : Settings) (setting : Setting) (value : String) : Option Settings :=
  match setting with
  | .maxLength =>
    (once settings.maxLength (readNatural? value)).map fun new => { settings with maxLength := new }
  | .maxDepth =>
    (once settings.maxDepth (readNatural? value)).map fun new => { settings with maxDepth := new }
  | .file =>
    (once settings.file (if value = "" then none else some value)).map fun new =>
      { settings with file := new }
  | .format =>
    (once settings.format (Format.ofName? value)).map fun new => { settings with format := new }

/-- Gives the expression. -/
def putArgument? (settings : Settings) (text : String) : Option Settings :=
  (once settings.argument (some text)).map fun new => { settings with argument := new }

/-- Where the expression comes from; it comes from one place only. -/
def origin? (settings : Settings) : Option Origin :=
  match settings.argument, settings.file with
  | some text, none => some (.argument text)
  | none, some path => some (.file path)
  | none, none => some .standardInput
  | some _, some _ => none

/-- The invocation of a command with these settings, and others before the command. -/
def toRequest? (settings before : Settings) (command : Command) : Option Request :=
  settings.origin?.map fun origin =>
    .invocation
      { command
        origin
        format := settings.format.getD .json
        limits :=
          { maxLength := settings.maxLength.or before.maxLength
            maxDepth := (settings.maxDepth.or before.maxDepth).getD Limits.standard.maxDepth } }

end Settings

/-! ## All arguments -/

namespace Request

/-- Reads the arguments that follow a command and some of its settings. -/
def readWithin? (before : Settings) (command : Command) (settings : Settings) :
    List String → Option Request
  | [] => settings.toRequest? before command
  | text :: rest =>
    match Argument.ofText (some command) text with
    | .flag => readWithin? before command settings rest
    | .version | .unknown => none
    | .separator =>
      match rest with
      | [] => settings.toRequest? before command
      | [text] => (settings.putArgument? text).bind (·.toRequest? before command)
      | _ => none
    | .plain text => do readWithin? before command (← settings.putArgument? text) rest
    | .setting setting (some value) => do
      readWithin? before command (← settings.put? setting value) rest
    | .setting setting none =>
      match rest with
      | [] => none
      | value :: rest =>
        if Argument.isValue value then do
          readWithin? before command (← settings.put? setting value) rest
        else
          none

/-- Reads the arguments that follow some settings before a command. -/
def readBefore? (settings : Settings) : List String → Option Request
  | [] => none
  | text :: rest =>
    match Argument.ofText none text with
    | .flag => readBefore? settings rest
    | .version => some .version
    | .unknown | .separator => none
    | .plain name => do readWithin? settings (← Command.ofName? name) .empty rest
    | .setting setting (some value) => do readBefore? (← settings.put? setting value) rest
    | .setting setting none =>
      match rest with
      | [] => none
      | value :: rest =>
        if Argument.isValue value then do
          readBefore? (← settings.put? setting value) rest
        else
          none

/-- Reads all arguments; nothing if they are a wrong usage. -/
def read? (arguments : List String) : Option Request :=
  readBefore? .empty arguments

end Request

end Estree.CommandLine
