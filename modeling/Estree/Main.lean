import Estree.CommandLine.Report

/-!
# The program

Reads the command line, gets the bytes that the expression stands in, and writes the report.
-/

namespace Estree.CommandLine

/-- What is found at an origin. -/
def Origin.find : Origin → IO Content
  | .argument _ => return .missing
  | .standardInput => return .bytes (← (← IO.getStdin).readBinToEnd)
  | .file path => do
    try
      return .bytes (← IO.FS.readBinFile path)
    catch
      | .noFileOrDirectory .. => return .missing
      | .permissionDenied .. => return .unreadable "Permission denied (os error 13)"
      | _ => return .directory

/-- Writes a report and gives its exit code. -/
def Report.write (report : Report) : IO UInt32 := do
  (← IO.getStdout).putStr report.standardOutput
  (← IO.getStderr).putStr report.standardError
  return report.exitCode.toUInt32

/-- The line that a wrong usage is answered with. -/
def usage : String :=
  "usage: esexpr (parse | check | print) [EXPR | --file PATH] [options]\n"

/-- Runs the program. -/
def program (arguments : List String) : IO UInt32 := do
  match Request.read? arguments with
  | none => Report.write ⟨2, "", usage⟩
  | some .version => Report.write (.line version)
  | some (.invocation invocation) =>
    Report.write (invocation.report (← invocation.origin.find))

end Estree.CommandLine

def main (arguments : List String) : IO UInt32 :=
  Estree.CommandLine.program arguments
