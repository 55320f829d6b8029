import SharpLint.Command.Arguments

/-!
# Help

What is shown when help is asked for: what a command is for, how it is called, and its operands and
options. The summary has a line for each option. Only the check has more to say in full, namely what
the forms of its output are.
-/

namespace SharpLint.Command

/-- What the program is for and how it is called. -/
def programHelp : List String :=
  ["CLI tool for the numguard analyzer",
   "",
   "Usage: numguard [OPTIONS] <COMMAND>",
   "",
   "Commands:",
   "  check       Run lint checks",
   "  fix         Apply every available fix and write the changed files",
   "  list-rules  List available rules",
   "  init        Initialize configuration file",
   "  help        Print this message or the help of the given subcommand(s)",
   "",
   "Options:",
   "  -v, --verbose          Enable verbose output",
   "  -c, --config <CONFIG>  Path to configuration file",
   "  -h, --help             Print help",
   "  -V, --version          Print version"]

/-- How a check is called. -/
def checkSummary : List String :=
  ["Run lint checks",
   "",
   "Usage: numguard check [OPTIONS] [PATH]",
   "",
   "Arguments:",
   "  [PATH]  Path to analyze (default: current directory) [default: .]",
   "",
   "Options:",
   "  -f, --format <FORMAT>    Output format [default: text] [possible values: text, json, compact]",
   "  -v, --verbose            Enable verbose output",
   "  -c, --config <CONFIG>    Path to configuration file",
   "      --rules <RULES>      Only run specific rules (comma-separated names or codes)",
   "  -e, --exclude <EXCLUDE>  Exclude patterns (can be specified multiple times)",
   "  -h, --help               Print help (see more with '--help')"]

/-- How a check is called, with the forms of its output. -/
def checkHelp : List String :=
  ["Run lint checks",
   "",
   "Usage: numguard check [OPTIONS] [PATH]",
   "",
   "Arguments:",
   "  [PATH]",
   "          Path to analyze (default: current directory)",
   "          ",
   "          [default: .]",
   "",
   "Options:",
   "  -f, --format <FORMAT>",
   "          Output format",
   "          ",
   "          [default: text]",
   "",
   "          Possible values:",
   "          - text:    Human-readable output with source snippets",
   "          - json:    JSON output",
   "          - compact: One-line-per-diagnostic compact format",
   "",
   "  -v, --verbose",
   "          Enable verbose output",
   "",
   "  -c, --config <CONFIG>",
   "          Path to configuration file",
   "",
   "      --rules <RULES>",
   "          Only run specific rules (comma-separated names or codes)",
   "",
   "  -e, --exclude <EXCLUDE>",
   "          Exclude patterns (can be specified multiple times)",
   "",
   "  -h, --help",
   "          Print help (see a summary with '-h')"]

/-- How fixes are applied. -/
def fixHelp : List String :=
  ["Apply every available fix and write the changed files",
   "",
   "Usage: numguard fix [OPTIONS] [PATH]",
   "",
   "Arguments:",
   "  [PATH]  Path to fix (default: current directory) [default: .]",
   "",
   "Options:",
   "      --codes <CODES>      Only fix these diagnostic codes (comma-separated)",
   "  -v, --verbose            Enable verbose output",
   "  -c, --config <CONFIG>    Path to configuration file",
   "      --dry-run            Report what would change without writing files",
   "  -e, --exclude <EXCLUDE>  Exclude patterns (can be specified multiple times)",
   "  -h, --help               Print help"]

def listRulesHelp : List String :=
  ["List available rules",
   "",
   "Usage: numguard list-rules [OPTIONS]",
   "",
   "Options:",
   "  -v, --verbose          Enable verbose output",
   "  -c, --config <CONFIG>  Path to configuration file",
   "  -h, --help             Print help"]

/-- How a first configuration is written. -/
def initHelp : List String :=
  ["Initialize configuration file",
   "",
   "Usage: numguard init [OPTIONS]",
   "",
   "Options:",
   "      --force            Overwrite existing config",
   "  -v, --verbose          Enable verbose output",
   "  -c, --config <CONFIG>  Path to configuration file",
   "  -h, --help             Print help"]

/-- How help is asked for. -/
def helpHelp : List String :=
  ["Print this message or the help of the given subcommand(s)",
   "",
   "Usage: numguard help [COMMAND]...",
   "",
   "Arguments:",
   "  [COMMAND]...  Print help for the subcommand(s)"]

def HelpTopic.lines (full : Bool) : HelpTopic → List String
  | .program => programHelp
  | .command .check => if full then checkHelp else checkSummary
  | .command .fix => fixHelp
  | .command .listRules => listRulesHelp
  | .command .init => initHelp
  | .help => helpHelp

end SharpLint.Command
