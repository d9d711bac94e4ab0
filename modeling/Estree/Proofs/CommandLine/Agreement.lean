import Estree.CommandLine.Run
import Estree.Proofs.CommandLine.Options
import Estree.Proofs.Source.RoundTrip

/-!
# The commands agree

A text can be supplied as an argument, as a file at whatever path, or on standard input, and three
commands look at it. They agree:

> `Surroundings.run?_agrees`: wherever a text is supplied, each command accepts it exactly if it can
> be read under the limits that are given, and otherwise writes nothing but the line of the syntax
> error, to standard error.

Two more things are said there: `check` writes nothing to standard output, whatever is found, and
`print` without limits writes the canonical form of the text.

What a path leads to is no part of the program. `Surroundings.look` is therefore any function from
paths to contents, and `Surroundings.Supplies` says only that at *this* path it gives the bytes of
the text; directories on the way, absolute paths and links make no difference.

The origins come together in `Supplies.text_eq`: from then on there is one text. Of the commands
only `print` could fail after the text has been read, if the tree could not be written; but whatever
is read can be (`toSource_eq_ok_of_parseWithin`), which is a fact about all trees that are read.
What is left is to follow one report (`Options.agrees_reportOn`).
-/

namespace Estree.CommandLine

/-! ## Where the text is -/

/-- The text is found at the origin. -/
def Surroundings.Supplies (surroundings : Surroundings) (source : String) : Origin → Prop
  | .argument text => text = source
  | .file path => surroundings.look path = .bytes source.toUTF8
  | .standardInput => surroundings.standardInput = .bytes source.toUTF8

/-- A text is read back from its bytes. -/
theorem fromUTF8?_toUTF8 (source : String) : String.fromUTF8? source.toUTF8 = some source := by
  have hvalid : source.toUTF8.IsValidUTF8 := source.isValidUTF8
  rw [String.fromUTF8?, dif_pos hvalid]
  rfl

/-- What is supplied is the text that the commands get. -/
theorem Surroundings.Supplies.text_eq {surroundings : Surroundings} {source : String}
    {origin : Origin} (h : surroundings.Supplies source origin) :
    origin.text (surroundings.content origin) = .ok source := by
  cases origin with
  | argument text => exact congrArg Except.ok h
  | file path =>
    show Origin.text (.file path) (surroundings.look path) = .ok source
    rw [show surroundings.look path = .bytes source.toUTF8 from h, Origin.text]
    rw [fromUTF8?_toUTF8]
  | standardInput =>
    show Origin.text .standardInput surroundings.standardInput = .ok source
    rw [show surroundings.standardInput = .bytes source.toUTF8 from h, Origin.text]
    rw [fromUTF8?_toUTF8]

/-! ## What the commands report -/

/-- Whatever is read can be written. -/
theorem toSource_eq_ok_of_parseWithin {limits : Limits} {source : String} {e : Expr}
    (h : Expr.parseWithin limits source = .ok e) : e.toSource = .ok (String.ofList e.text) :=
  Expr.toSource_eq_ok (Expr.reads_of_parseWithin_eq_ok h).isOperand.allFit

/-- What is read and written has the text as its canonical form. -/
theorem canonical_eq_ok {source text : String} {e : Expr} (hparse : Expr.parse source = .ok e)
    (htext : e.toSource = .ok text) : canonical source = .ok text := by
  unfold canonical
  generalize Expr.parse source = outcome at hparse ⊢
  subst hparse
  dsimp only
  rw [htext]

/-- How a report fits the options and the text. -/
structure Options.Agrees (options : Options) (source : String) (report : Report) : Prop where
  /-- The text is accepted if it can be read. -/
  exitCode_eq_zero_iff :
    report.exitCode = 0 ↔ ∃ e, Expr.parseWithin options.limits source = .ok e
  /-- It is rejected with the line of the syntax error otherwise. -/
  rejected : ∀ error, Expr.parseWithin options.limits source = .error error →
    report = ⟨1, "", error.display ++ "\n"⟩
  silent : options.command = .check → report.standardOutput = ""
  /-- Without limits the canonical form is printed. -/
  printed : options.command = .print → options.maxLength? = none → options.maxDepth? = none →
    report.exitCode = 0 →
      ∃ text, canonical source = .ok text ∧ report.standardOutput = text ++ "\n"

/-- The exit code of a failure is not zero. -/
theorem Report.exitCode_failure (text : String) : (failure text).exitCode ≠ 0 := Nat.one_ne_zero

theorem Report.standardOutput_failure (text : String) : (failure text).standardOutput = "" := rfl

/-- No command fails on a tree that can be written. -/
theorem Command.exitCode_report {e : Expr} {text : String} (h : e.toSource = .ok text)
    (command : Command) (format : Format) : (command.report format e).exitCode = 0 := by
  cases command with
  | parse => rfl
  | check => rfl
  | print =>
    rw [report, h]
    rfl

variable {invocation : Invocation} {source : String}

/-- What cannot be read is reported as its syntax error, whatever the command. -/
theorem Invocation.reportOn_eq_failure {error : SyntaxError}
    (h : Expr.parseWithin invocation.limits source = .error error) :
    invocation.reportOn source = .failure error.display := by
  rw [reportOn, h]

/-- What can be read is left to the command. -/
theorem Invocation.reportOn_eq_report {e : Expr}
    (h : Expr.parseWithin invocation.limits source = .ok e) :
    invocation.reportOn source = invocation.command.report invocation.format e := by
  rw [reportOn, h]

/-- `check` writes nothing to standard output, whether the text is accepted or not. -/
theorem Invocation.standardOutput_report (h : invocation.command = .check) (content : Content) :
    (invocation.report content).standardOutput = "" := by
  rw [report]
  cases invocation.origin.text content with
  | error message => rfl
  | ok source =>
    show (invocation.reportOn source).standardOutput = ""
    cases hparse : Expr.parseWithin invocation.limits source with
    | error error =>
      rw [reportOn_eq_failure hparse]
      rfl
    | ok e =>
      rw [reportOn_eq_report hparse, h]
      rfl

/-- The report on a text fits the options. -/
theorem Options.agrees_reportOn (options : Options) (source : String) :
    options.Agrees source (options.invocation.reportOn source) := by
  cases hparse : Expr.parseWithin options.limits source with
  | error error =>
    have hreport : options.invocation.reportOn source = .failure error.display :=
      Invocation.reportOn_eq_failure hparse
    rw [hreport]
    have hnone : ¬ ∃ e, Expr.parseWithin options.limits source = .ok e := by
      rintro ⟨e, he⟩
      rw [hparse] at he
      cases he
    have hfails := Report.exitCode_failure error.display
    refine ⟨⟨fun hzero => absurd hzero hfails, fun hread => absurd hread hnone⟩, ?_,
      fun _ => Report.standardOutput_failure _, fun _ _ _ hzero => absurd hzero hfails⟩
    intro other hother
    rw [hparse] at hother
    cases hother
    rfl
  | ok e =>
    have hreport : options.invocation.reportOn source =
        options.command.report options.invocation.format e :=
      Invocation.reportOn_eq_report hparse
    -- `print` can only fail on a tree that cannot be written, and no tree that is read is one.
    have htext := toSource_eq_ok_of_parseWithin hparse
    rw [hreport]
    refine ⟨⟨fun _ => ⟨e, hparse⟩, fun _ => Command.exitCode_report htext _ _⟩,
      fun error herror => ?_, fun hcheck => ?_, fun hprint hlength hdepth _ => ?_⟩
    · rw [hparse] at herror
      cases herror
    · rw [hcheck]
      rfl
    · have hstandard : options.limits = .standard := by
        rw [limits, hlength, hdepth]
        rfl
      rw [hstandard] at hparse
      refine ⟨_, canonical_eq_ok hparse htext, ?_⟩
      rw [hprint, Command.report, htext]
      rfl

namespace Surroundings

variable {surroundings : Surroundings} {options : Options} {arguments : List String}

/-- A run is the report of the options that the arguments spell. -/
theorem run?_eq (h : options.IsSpelledBy arguments) :
    surroundings.run? arguments =
      some (options.invocation.report (surroundings.content options.origin)) := by
  rw [run?, show Request.read? arguments = _ from h]
  rfl

/-- Whatever is asked about a text that is supplied, the run fits it; `check` writes nothing to
standard output even if no text is found; and all options can be asked for that can be spelled. -/
theorem run?_agrees (surroundings : Surroundings) :
    (∀ (options : Options) arguments source, options.IsSpelledBy arguments →
      surroundings.Supplies source options.origin →
        ∃ report, surroundings.run? arguments = some report ∧ options.Agrees source report) ∧
    (∀ (options : Options) arguments report, options.IsSpelledBy arguments →
      options.command = .check → surroundings.run? arguments = some report →
        report.standardOutput = "") ∧
    ∀ options : Options, options.CanBeSpelled → options.IsSpelledBy options.arguments := by
  refine ⟨?_, ?_, fun _ => Options.isSpelledBy_arguments⟩
  · intro options arguments source hspelled hsupplies
    have hreport : options.invocation.report (surroundings.content options.origin) =
        options.invocation.reportOn source := by
      rw [Invocation.report]
      rw [show options.invocation.origin.text _ = .ok source from hsupplies.text_eq]
    refine ⟨_, run?_eq hspelled, ?_⟩
    rw [hreport]
    exact options.agrees_reportOn source
  · intro options arguments report hspelled hcheck hrun
    rw [run?_eq hspelled] at hrun
    cases hrun
    exact Invocation.standardOutput_report hcheck _

/-- One text from standard input that is printed, one from a file in some directory that is
rejected, and one that begins like an option. -/
theorem run?_agrees_print :
    let surroundings : Surroundings :=
      ⟨fun path => if path = "/tmp/src/broken.js" then .bytes "a.".toUTF8 else .missing,
        .bytes "a+b".toUTF8⟩
    (∃ report, surroundings.run? ["print"] = some report ∧ report.exitCode = 0 ∧
      report.standardOutput = "a + b\n") ∧
    (∃ report, surroundings.run? ["--max-depth=9", "check", "-f", "/tmp/src/broken.js"] =
      some report ∧ report.exitCode ≠ 0 ∧ report.standardOutput = "") ∧
    Options.IsSpelledBy ⟨.parse, some .dump, some 7, none, .argument "-1"⟩
      ["--max-len=7", "parse", "--format=debug", "--", "-1"] := by
  intro surroundings
  have hagrees := run?_agrees surroundings
  refine ⟨?_, ?_, ?_⟩
  · obtain ⟨report, hrun, hagree⟩ := hagrees.1 ⟨.print, none, none, none, .standardInput⟩
      ["print"] "a+b" rfl rfl
    have hread : (Expr.parseWithin .standard "a+b").toOption.any (fun _ => true) = true := by
      decide +kernel
    obtain ⟨e, he, -⟩ := Expr.exists_of_any_toOption hread
    have hzero := hagree.exitCode_eq_zero_iff.2 ⟨e, he⟩
    obtain ⟨text, hcanonical, houtput⟩ := hagree.printed rfl rfl rfl hzero
    have htext : (canonical "a+b").toOption = some "a + b" := by decide +kernel
    rw [hcanonical] at htext
    cases htext
    exact ⟨report, hrun, hzero, houtput⟩
  · let options : Options := ⟨.check, none, none, some 9, .file "/tmp/src/broken.js"⟩
    have hspelled :
        options.IsSpelledBy ["--max-depth=9", "check", "-f", "/tmp/src/broken.js"] := rfl
    have hsupplies : surroundings.Supplies "a." options.origin := by
      show (if "/tmp/src/broken.js" = "/tmp/src/broken.js" then Content.bytes "a.".toUTF8
        else .missing) = .bytes "a.".toUTF8
      exact if_pos rfl
    obtain ⟨report, hrun, hagree⟩ := hagrees.1 options _ "a." hspelled hsupplies
    refine ⟨report, hrun, fun hzero => ?_, hagrees.2.1 options _ report hspelled rfl hrun⟩
    obtain ⟨e, he⟩ := hagree.exitCode_eq_zero_iff.1 hzero
    have hread : (Expr.parseWithin options.limits "a.").toOption.isSome = false := by
      decide +kernel
    rw [he] at hread
    cases hread
  · refine hagrees.2.2 ⟨.parse, some .dump, some 7, none, .argument "-1"⟩ ⟨?_, nofun, nofun, ?_⟩
    · intro n hn
      cases hn
      decide
    · intro hparse
      exact absurd rfl hparse

end Surroundings

end Estree.CommandLine
