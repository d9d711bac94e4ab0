import Estree.CommandLine.Report

/-!
# Runs of the command line

A run as a function: its arguments, and what it can read. What a path leads to is up to the file
system, so it is given for every path; nothing is assumed of it.
-/

namespace Estree.CommandLine

/-- What a run can read: whatever is at each path, and standard input, which is missing if it is
closed. -/
structure Surroundings where
  look : String → Content
  standardInput : Content

namespace Surroundings

/-- What is found at an origin. -/
def content (surroundings : Surroundings) : Origin → Content
  | .argument _ => .missing
  | .file path => surroundings.look path
  | .standardInput => surroundings.standardInput

/-- Runs the program; nothing if its arguments are a wrong usage. -/
def run? (surroundings : Surroundings) (arguments : List String) : Option Report :=
  (Request.read? arguments).map fun
    | .version => .line version
    | .invocation invocation => invocation.report (surroundings.content invocation.origin)

end Surroundings

end Estree.CommandLine
