import SharpLint.Text.Search

/-!
# Command-line arguments

Options may be written `--name value`, `--name=value`, `-n value`, `-nvalue` and `-n=value`, and
short options may share a dash. A value that starts with a dash has to be attached. Options that do
not repeat may be given once. Behind `--` everything is an operand.

Arguments are judged from left to right, and the first one at fault ends the reading. A request for
help or for the version ends it too, and what follows is not looked at. A value that stands in an
argument of its own is judged when the next option or operand comes (`Scan.settle?`); the name of a
command does not count as one, so a value right before it is judged behind the whole command.
-/

namespace SharpLint.Command

/-- Form of the output of a check. -/
inductive Format where
  | text | json | compact
  deriving DecidableEq, Inhabited

def Format.ofName? (name : String) : Option Format :=
  match name with
  | "text" => some .text
  | "json" => some .json
  | "compact" => some .compact
  | _ => none

/-- A command. -/
inductive CommandName where
  | check | fix | listRules | init
  deriving DecidableEq

def CommandName.ofName? (name : String) : Option CommandName :=
  match name with
  | "check" => some .check
  | "fix" => some .fix
  | "list-rules" => some .listRules
  | "init" => some .init
  | _ => none

/-- What help can be asked for. -/
inductive HelpTopic where
  | program
  | command (name : CommandName)
  /-- The command that shows help. -/
  | help
  deriving DecidableEq

/-- What to do. -/
inductive Action where
  | check (path : String) (format : Format) (rules : Option String) (exclude : List String)
  | fix (path : String) (codes : Option String) (dryRun : Bool) (exclude : List String)
  | listRules
  | init (force : Bool)
  /-- Help, in full or as a summary. -/
  | help (topic : HelpTopic) (full : Bool)
  | version
  deriving DecidableEq

/-- The configuration file to use, and what to do. -/
structure Invocation where
  config : Option String
  action : Action
  deriving DecidableEq

/-! ## Options -/

/-- What the value of an option stands for. -/
inductive ValueKind where
  | text | path | format
  deriving DecidableEq

/-- The value is one of this kind. A path is not empty. -/
def ValueKind.accepts : ValueKind → String → Bool
  | .text, _ => true
  | .path, value => !value.isEmpty
  | .format, value => (Format.ofName? value).isSome

/-- What an option does. -/
inductive OptionKind where
  | flag
  | value (kind : ValueKind)
  | help
  | version
  deriving DecidableEq

/-- An option. -/
structure OptionSpec where
  name : String
  short : Option Char
  kind : OptionKind
  repeats : Bool
  deriving DecidableEq

/-- The option can have this value. -/
def OptionSpec.accepts (spec : OptionSpec) (value : String) : Bool :=
  match spec.kind with
  | .value kind => kind.accepts value
  | _ => true

/-- An option that was given, with its value. -/
structure Given where
  name : String
  value : String
  deriving DecidableEq

/-- What was read. -/
structure Scan where
  options : List Given
  path : Option String
  deriving DecidableEq

/-- An option whose value is not judged yet. -/
inductive Pending where
  | nothing
  /-- The value has not come. -/
  | wanting (spec : OptionSpec)
  | held (spec : OptionSpec) (value : String)
  deriving DecidableEq

/-- What operands stand for. -/
inductive OperandRule where
  /-- The first operand is the name of a command, and the rest is read by its rules. -/
  | command
  /-- One operand, a path. -/
  | path
  | nothing
  deriving DecidableEq

/-- What is to be shown instead of doing anything. -/
inductive Shown where
  | help (full : Bool)
  | version
  deriving DecidableEq

/-- Where the reading ends. -/
inductive Stop where
  /-- Everything was read. -/
  | finished (scan : Scan)
  /-- The name of a command was met, and the arguments behind it. -/
  | command (scan : Scan) (pending : Pending) (name : String) (rest : List String)
  | shows (shown : Shown)

namespace Scan

/-- Nothing read. -/
def empty : Scan := ⟨[], none⟩

/-- With an option added. Fails for a value of another kind, and for the second time of an option
that does not repeat. -/
def add? (s : Scan) (spec : OptionSpec) (value : String) : Option Scan :=
  if !spec.repeats && s.options.any (·.name == spec.name) then none
  else if spec.accepts value then some { s with options := s.options ++ [⟨spec.name, value⟩] }
  else none

/-- With the pending option added. -/
def settle? (s : Scan) : Pending → Option Scan
  | .nothing => some s
  | .wanting _ => none
  | .held spec value => s.add? spec value

def addOperand? (rule : OperandRule) (s : Scan) (arg : String) : Option Scan :=
  match rule, s.path with
  | .path, none => if arg.isEmpty then none else some { s with path := some arg }
  | _, _ => none

def value? (s : Scan) (name : String) : Option String :=
  (s.options.find? (·.name == name)).map Given.value

def values (s : Scan) (name : String) : List String :=
  (s.options.filter (·.name == name)).map Given.value

/-- The option was given. -/
def isGiven (s : Scan) (name : String) : Bool := (s.value? name).isSome

end Scan

/-! ## Reading -/

/-- How an argument that starts with a dash goes on. -/
inductive Reading where
  | done (scan : Scan)
  /-- The next argument is the value of the option. -/
  | wants (scan : Scan) (spec : OptionSpec)
  | shows (shown : Shown)

/-- An option without an attached value. The long spelling asks for full help. -/
def readPlain? (s : Scan) (spec : OptionSpec) (long : Bool) : Option Reading :=
  match spec.kind with
  | .flag => (s.add? spec "").map .done
  | .value _ => some (.wants s spec)
  | .help => some (.shows (.help long))
  | .version => some (.shows .version)

def readAttached? (s : Scan) (spec : OptionSpec) (value : List Char) : Option Reading :=
  match spec.kind with
  | .value _ => (s.add? spec (String.ofList value)).map .done
  | _ => none

/-- A long option, behind its dashes. -/
def readLong? (specs : List OptionSpec) (s : Scan) (body : List Char) : Option Reading :=
  let (name, value) := match around? ['='] body with
    | some (name, value) => (name, some value)
    | none => (body, none)
  match specs.find? (·.name.toList == name), value with
  | none, _ => none
  | some spec, some value => readAttached? s spec value
  | some spec, none => readPlain? s spec true

/-- Short options, behind their dash. An option with a value takes the rest, without an equals sign
in front. -/
def readShort? (specs : List OptionSpec) : Scan → List Char → Option Reading
  | s, [] => some (.done s)
  | s, c :: cs =>
    match specs.find? (·.short == some c) with
    | none => none
    | some spec =>
      match spec.kind, cs with
      | .value _, '=' :: value => readAttached? s spec value
      | .value _, d :: ds => readAttached? s spec (d :: ds)
      | _, _ =>
        match readPlain? s spec false with
        | some (.done s) => readShort? specs s cs
        | reading => reading

/-- An argument that is `--`, an option, or an operand. -/
inductive Shape where
  | escape
  | long (body : List Char)
  | short (body : List Char)
  | operand

/-- The shape of an argument. A lone dash is an operand. -/
def shapeOf (arg : String) : Shape :=
  match arg.toList with
  | ['-', '-'] => .escape
  | '-' :: '-' :: body => .long body
  | '-' :: c :: body => .short (c :: body)
  | _ => .operand

/-- The arguments read behind what was read. -/
def scanArguments (specs : List OptionSpec) (rule : OperandRule) :
    Scan → Pending → List String → Option Stop
  | s, p, [] => (s.settle? p).map .finished
  | s, p, arg :: args =>
    let go (reading : Option Reading) : Option Stop := match reading with
      | none => none
      | some (.done s) => scanArguments specs rule s .nothing args
      | some (.wants s spec) => scanArguments specs rule s (.wanting spec) args
      | some (.shows shown) => some (.shows shown)
    match shapeOf arg, p, rule with
    | .operand, .wanting spec, _ => scanArguments specs rule s (.held spec arg) args
    | .operand, p, .command => some (.command s p arg args)
    | .operand, p, rule =>
      match (s.settle? p).bind fun s => s.addOperand? rule arg with
      | none => none
      | some s => scanArguments specs rule s .nothing args
    | .escape, p, rule =>
      ((s.settle? p).bind fun s => args.foldlM (Scan.addOperand? rule) s).map .finished
    | .long body, p, _ => go ((s.settle? p).bind fun s => readLong? specs s body)
    | .short body, p, _ => go ((s.settle? p).bind fun s => readShort? specs s body)

/-! ## The commands -/

def commonOptions : List OptionSpec :=
  [⟨"verbose", some 'v', .flag, false⟩, ⟨"config", some 'c', .value .path, false⟩,
   ⟨"help", some 'h', .help, false⟩]

/-- The option for patterns to exclude. -/
def excludeOption : OptionSpec := ⟨"exclude", some 'e', .value .text, true⟩

/-- Options before the name of a command. -/
def rootOptions : List OptionSpec := ⟨"version", some 'V', .version, false⟩ :: commonOptions

namespace CommandName

def options : CommandName → List OptionSpec
  | .check =>
    [⟨"format", some 'f', .value .format, false⟩, ⟨"rules", none, .value .text, false⟩, excludeOption]
      ++ commonOptions
  | .fix =>
    [⟨"codes", none, .value .text, false⟩, ⟨"dry-run", none, .flag, false⟩, excludeOption]
      ++ commonOptions
  | .listRules => commonOptions
  | .init => ⟨"force", none, .flag, false⟩ :: commonOptions

def operands : CommandName → OperandRule
  | .check => .path
  | .fix => .path
  | .listRules => .nothing
  | .init => .nothing

/-- What a command does with its arguments. Without a path it works in the current directory. -/
def action (c : CommandName) (s : Scan) : Action :=
  let path := s.path.getD "."
  match c with
  | .check =>
    .check path (((s.value? "format").bind Format.ofName?).getD .text) (s.value? "rules")
      (s.values "exclude")
  | .fix => .fix path (s.value? "codes") (s.isGiven "dry-run") (s.values "exclude")
  | .listRules => .listRules
  | .init => .init (s.isGiven "force")

end CommandName

/-- Shows something about a topic. -/
def Shown.action (topic : HelpTopic) : Shown → Action
  | .help full => .help topic full
  | .version => .version

/-- The topic that the operands of the help command name. -/
def HelpTopic.ofOperands? : List String → Option HelpTopic
  | [] => some .program
  | [name] => if name = "help" then some .help else (CommandName.ofName? name).map .command
  | _ => none

namespace Invocation

/-- The invocation of a command by its name, given what was read before the name. A configuration
file named behind the command wins. -/
def ofCommand? (before : Scan) (pending : Pending) (name : String) (args : List String) :
    Option Invocation :=
  if name = "help" then (HelpTopic.ofOperands? args).map fun topic => ⟨none, .help topic true⟩
  else do
    let c ← CommandName.ofName? name
    match ← scanArguments c.options c.operands .empty .nothing args with
    | .command _ _ _ _ => none
    | .shows shown => pure ⟨none, shown.action (.command c)⟩
    | .finished s =>
      let before ← before.settle? pending
      pure ⟨(s.value? "config").or (before.value? "config"), c.action s⟩

/-- What a command line asks for; `none` when it is not well formed. -/
def parse? (args : List String) : Option Invocation :=
  match scanArguments rootOptions .command .empty .nothing args with
  | none => none
  | some (.command before pending name rest) => ofCommand? before pending name rest
  | some (.shows shown) => some ⟨none, shown.action .program⟩
  | some (.finished _) => none

end Invocation

end SharpLint.Command
