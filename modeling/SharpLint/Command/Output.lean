import SharpLint.Command.Help
import SharpLint.Command.Settings
import SharpLint.Engine.Repair
import SharpLint.Text.Json

/-!
# What the commands print
-/

namespace SharpLint.Command

/-! ## Checks -/

/-- A text in a colour of the terminal, by the number of the colour. -/
def coloured (colour : Nat) (text : String) : String :=
  "\x1b[" ++ toString colour ++ "m" ++ text ++ "\x1b[0m"

def severityColour : Severity → Nat
  | .error => 31
  | .warning => 33
  | .info => 34

/-- The last line of a check. -/
def summary (r : Report) : String :=
  let colour := if 0 < r.count .error then 31 else if 0 < r.count .warning then 33 else 32
  coloured colour ("Found " ++ toString (r.count .error) ++ " error(s), "
    ++ toString (r.count .warning) ++ " warning(s), " ++ toString (r.count .info) ++ " info(s) in "
    ++ toString r.documentsChecked ++ " file(s)")

/-- Place, message and help of a diagnostic, each on a line. -/
def textLines (d : Diagnostic) : List String :=
  [coloured (severityColour d.severity) d.severity.name ++ " " ++ d.place, "  " ++ d.headline]
    ++ (d.help.map fun h => "  help: " ++ h).toList

/-- A diagnostic as a value. -/
def diagnosticJson (d : Diagnostic) : JsonText :=
  let location := d.location
  .object ([("code", .string d.code), ("rule", .string d.rule), ("severity", .string d.severity.name),
    ("location", .object [("document", .string location.document.spelling),
      ("range", .object [("start", .number location.span.start), ("end", .number location.span.stop)]),
      ("line", .number location.position.line), ("column", .number location.position.column)]),
    ("args", .list (d.args.map .string)), ("message", .string d.message)]
    ++ (d.help.map fun h => ("help", JsonText.string h)).toList)

/-- A report as a value. -/
def reportJson (r : Report) : JsonText :=
  .object [("diagnostics", .list (r.diagnostics.map diagnosticJson)),
    ("documents_checked", .number r.documentsChecked)]

def reportLines (format : Format) (r : Report) : List String :=
  match format with
  | .text => r.diagnostics.flatMap textLines ++ [summary r]
  | .compact => r.diagnostics.map Diagnostic.line
  | .json => [(reportJson r).render]

/-- The lines about files that could not be parsed. -/
def skippedLines (skipped : List DocumentError) : List String :=
  if skipped.isEmpty then []
  else
    skipped.map (fun e => "warning: " ++ e.message ++ " (file not analyzed)")
      ++ ["warning: " ++ toString skipped.length
        ++ " file(s) could not be parsed and were not analyzed"]

/-! ## Fixes -/

/-- The lines with the counts of a run of fixes. -/
def fixedLines (r : FixReport) : List String :=
  r.fixed.map fun (code, count) => code ++ ": fixed " ++ toString count ++ " diagnostic(s)"

/-- The last lines of a run of fixes. -/
def fixSummary (r : FixReport) : List String :=
  ["", "Fixed " ++ toString r.total ++ " diagnostic(s) in " ++ toString r.documents.length ++ " file(s)"]

/-- The lines about batches that were rejected. -/
def failureLines (r : FixReport) : List String :=
  r.failures.map fun f => f.code ++ ": " ++ f.cause.message

/-! ## Rules -/

/-- A text filled up with spaces to a width. -/
def padded (width : Nat) (text : String) : String :=
  text ++ String.ofList (List.replicate (width - text.length) ' ')

def tableRow (code name fix description : String) : String :=
  padded 8 code ++ " " ++ padded 36 name ++ " " ++ padded 4 fix ++ " " ++ description

/-- The table of rules and the list of presets. -/
def rulesLines : List String :=
  let fixable (code : String) := Config.default.providers.any (·.handles code)
  let rows (r : Rule) := r.descriptors.map fun d =>
    tableRow d.code r.name (if fixable d.code then "yes" else "") d.description
  ["Available rules:", "", tableRow "Code" "Name" "Fix" "Description",
    String.ofList (List.replicate 100 '-')]
  ++ Rule.all.flatMap rows
  ++ ["", "Presets:",
    "  recommended  - NG1000, NG1001, NG1003-NG1006 (default)",
    "  strict       - All rules, including NG1002",
    "  minimal      - NG1001, NG1005, NG1006 (rules with a fix)",
    "",
    "Use --rules to filter specific rules, e.g.:",
    "  numguard check --rules floating-point-equality,NG1006"]

/-! ## The version and a first configuration -/

/-- Name and version of the program. -/
def versionLine : String := "numguard 0.1.0"

/-- The configuration that a new project starts with. -/
def firstConfig : List String :=
  ["# numguard configuration",
   "",
   "# Rule preset: \"recommended\" (default), \"strict\" or \"minimal\"",
   "preset = \"recommended\"",
   "",
   "# Lowest severity that makes `numguard check` fail",
   "fail_on = \"warning\"",
   "",
   "[engine]",
   "# Root directory to analyze (default: current directory)",
   "# root = \"./src\"",
   "",
   "# Glob patterns to exclude from analysis",
   "exclude = [",
   "    \"**/bin/**\",",
   "    \"**/obj/**\",",
   "]",
   "",
   "# Respect .gitignore files",
   "respect_gitignore = true",
   "",
   "# What fix-all does when two edits overlap: \"reject\" or \"keep-first\"",
   "overlap_policy = \"reject\"",
   "",
   "# Rule configurations",
   "# Each rule can be enabled/disabled and have its severity overridden",
   "",
   "[rules.floating-point-equality]",
   "enabled = true",
   "# severity = \"error\"",
   "",
   "[rules.floating-point-formatting]",
   "enabled = true",
   "format_module = \"J2N.Numerics\"",
   "",
   "[rules.restricted-namespace-public-types]",
   "enabled = true",
   "restricted_prefix = \"Lucene.Net.Support\"",
   "",
   "# [rules.floating-point-arithmetic]",
   "# enabled = true",
   "# severity = \"info\""]

/-- The lines after a configuration was written. -/
def nextSteps : List String :=
  ["Created numguard.toml", "", "Next steps:", "  1. Edit numguard.toml to configure rules",
   "  2. Run: numguard check", "  3. Run: numguard fix"]

end SharpLint.Command
