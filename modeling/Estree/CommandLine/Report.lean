import Estree.CommandLine.Arguments
import Estree.Dump.Tree
import Estree.Json.Tree
import Estree.Source

/-!
# Reports of the command line

What an invocation writes and with which code it ends, given what stood at the origin of its
expression. All commands accept the same expressions; what they make of them differs.
-/

namespace Estree

/-- A tree in a format. -/
def Expr.show (e : Expr) : CommandLine.Format → String
  | .json => e.toJson.compact
  | .pretty => e.toJson.pretty
  | .dump => e.dump.render

namespace CommandLine

/-- What was found where an expression was looked for. -/
inductive Content where
  | missing
  /-- Something that cannot be read, and why. -/
  | unreadable (reason : String)
  | bytes (bytes : ByteArray)

/-- What is found where a directory is. -/
def Content.directory : Content :=
  .unreadable "Is a directory (os error 21)"

/-- What a run writes, and the code it ends with. -/
structure Report where
  exitCode : Nat
  standardOutput : String
  standardError : String
deriving DecidableEq

namespace Report

/-- A run that succeeds and writes a line. -/
def line (text : String) : Report :=
  ⟨0, text ++ "\n", ""⟩

/-- A run that fails with a line. -/
def failure (text : String) : Report :=
  ⟨1, "", text ++ "\n"⟩

end Report

/-- The name of the program and its version. -/
def version : String :=
  "esexpr 0.1.0"

/-- The text at an origin, or the line that says why it cannot be had. -/
def Origin.text (origin : Origin) (content : Content) : Except String String :=
  match origin with
  | .argument text => .ok text
  | .file path =>
    match content with
    | .missing => .error ("Error: file not found: " ++ path)
    | .unreadable reason => .error ("Error reading " ++ path ++ ": " ++ reason)
    | .bytes bytes =>
      match String.fromUTF8? bytes with
      | some text => .ok text
      | none => .error ("Error reading " ++ path ++ ": stream did not contain valid UTF-8")
  | .standardInput =>
    match content with
    | .missing => .ok ""
    | .unreadable reason => .error ("Error reading stdin: " ++ reason)
    | .bytes bytes =>
      match String.fromUTF8? bytes with
      | some text => .ok text
      | none => .error "Error reading stdin: stream did not contain valid UTF-8"

/-- What a command makes of a tree. -/
def Command.report (command : Command) (format : Format) (e : Expr) : Report :=
  match command with
  | .parse => .line (e.show format)
  | .check => ⟨0, "", "OK: " ++ e.type ++ "\n"⟩
  | .print =>
    match e.toSource with
    | .ok text => .line text
    | .error malformed => .failure malformed.display

/-- What an invocation makes of a text. -/
def Invocation.reportOn (invocation : Invocation) (source : String) : Report :=
  match Expr.parseWithin invocation.limits source with
  | .ok e => invocation.command.report invocation.format e
  | .error error => .failure error.display

/-- What an invocation makes of what was found at its origin. -/
def Invocation.report (invocation : Invocation) (content : Content) : Report :=
  match invocation.origin.text content with
  | .ok source => invocation.reportOn source
  | .error message => .failure message

end CommandLine

end Estree
