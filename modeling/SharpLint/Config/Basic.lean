import SharpLint.Change.Edit
import SharpLint.Config.Glob
import SharpLint.Diagnostic.Basic
import SharpLint.Toml.Parse

/-!
# Configuration

What a configuration file may say. Keys that are not known are left out of account at the top and in
`[engine]`; in the table of a rule they are options of that rule. A value of the wrong kind makes the
whole file invalid.
-/

namespace SharpLint

open Toml (Value Entries)

/-! ## Values as fields -/

def Toml.Value.asString? : Value → Option String
  | .string s => some s
  | _ => none

def Toml.Value.asBool? : Value → Option Bool
  | .boolean b => some b
  | _ => none

def Toml.Value.asArray? : Value → Option (List Value)
  | .array items => some items
  | .tables elements => some (elements.map (.table .header))
  | _ => none

/-- Name of the only entry of a date that is read as a table. -/
def dateField : String := "$__toml_private_datetime"

/-- The value is a table. A date counts as a table with one entry. -/
def Toml.Value.asTable? : Value → Option Entries
  | .table _ entries => some entries
  | .date d => some [(dateField, .string d.text)]
  | _ => none

mutual

/-- The value is one that an option of a rule may have: in it, a table whose first entry has the name
of a date's entry holds the text of a date there, and nothing else. -/
def Toml.Value.isProper : Value → Bool
  | .array items => areProper items
  | .table _ entries => isProperTable entries
  | .tables elements => areProperTables elements
  | _ => true

def areProper : List Value → Bool
  | [] => true
  | v :: vs => v.isProper && areProper vs

def isProperTable : Entries → Bool
  | [] => true
  | (key, v) :: t =>
    if key = dateField then
      match v with
      | .string text => (Toml.Date.ofText? text).isSome && t.isEmpty
      | _ => false
    else v.isProper && areProperEntries t

/-- The values of all entries are proper. -/
def areProperEntries : Entries → Bool
  | [] => true
  | (_, v) :: t => v.isProper && areProperEntries t

def areProperTables : List Entries → Bool
  | [] => true
  | t :: ts => isProperTable t && areProperTables ts

end

/-- The value is an array or a table without anything in it. -/
def Toml.Value.isVoid : Value → Bool
  | .array items => items.isEmpty
  | .table _ entries => entries.isEmpty
  | .tables elements => elements.isEmpty
  | _ => false

/-- The value is a word of a choice, or a table that has the word as its only key, with nothing in
it. -/
def Toml.Value.asWord? {α : Type} (ofName? : String → Option α) : Value → Option α
  | .string s => ofName? s
  | .table _ [(key, v)] => if v.isVoid then ofName? key else none
  | _ => none

def Toml.Value.asStrings? (v : Value) : Option (List String) :=
  v.asArray?.bind fun items => items.mapM asString?

/-- A field read by `read?`, or `default` where the table lacks it. -/
def field? {α : Type} (read? : Value → Option α) (default : α) : Option Value → Option α
  | none => some default
  | some v => read? v

/-! ## The parts of a configuration -/

def OverlapPolicy.name : OverlapPolicy → String
  | .reject => "reject"
  | .keepFirst => "keep-first"

def OverlapPolicy.ofName? (name : String) : Option OverlapPolicy :=
  [OverlapPolicy.reject, .keepFirst].find? (·.name == name)

/-- Which documents are looked at, and how fixes are merged. -/
structure EngineConfig where
  overlapPolicy : OverlapPolicy
  exclude : List String
  extensions : List String
  respectGitignore : Bool
  root : String
  deriving DecidableEq

namespace EngineConfig

/-- Without an engine table, build output is left out. -/
def default : EngineConfig := ⟨.reject, ["**/bin/**", "**/obj/**"], ["cs"], true, "."⟩

/-- The fields in the order of their declaration. -/
def ofFields? (policy exclude extensions gitignore root : Option Value) : Option EngineConfig := do
  pure {
    overlapPolicy := ← field? (Value.asWord? OverlapPolicy.ofName?) .reject policy
    exclude := ← field? Value.asStrings? [] exclude
    extensions := ← field? Value.asStrings? ["cs"] extensions
    respectGitignore := ← field? Value.asBool? true gitignore
    root := ← field? Value.asString? "." root }

/-- The engine table. An array gives the fields in order. -/
def ofValue? (v : Value) : Option EngineConfig :=
  match v.asArray? with
  | some items => ofFields? items[0]? items[1]? items[2]? items[3]? items[4]?
  | none => v.asTable?.bind fun t =>
    ofFields? (t.get? "overlap_policy") (t.get? "exclude") (t.get? "extensions")
      (t.get? "respect_gitignore") (t.get? "root")

end EngineConfig

/-- The table of a rule. -/
structure RuleConfig where
  enabled : Option Bool
  severity : Option Severity
  options : Entries

namespace RuleConfig

def ofValue? (v : Value) : Option RuleConfig := do
  let t ← v.asTable?
  let enabled ← field? (fun v => v.asBool?.map some) none (t.get? "enabled")
  let severity ← field? (fun v => (v.asWord? Severity.ofName?).map some) none (t.get? "severity")
  let options := (t.erase "enabled").erase "severity"
  if areProperEntries options then pure ⟨enabled, severity, options⟩ else none

def string (c : RuleConfig) (key default : String) : String :=
  ((c.options.get? key).bind Value.asString?).getD default

def bool (c : RuleConfig) (key : String) (default : Bool) : Bool :=
  ((c.options.get? key).bind Value.asBool?).getD default

def strings (c : RuleConfig) (key : String) : List String :=
  (((c.options.get? key).bind Value.asArray?).getD []).filterMap Value.asString?

end RuleConfig

/-- A configuration. -/
structure Config where
  preset : Option String
  failOn : Option Severity
  engine : EngineConfig
  rules : List (String × RuleConfig)

namespace Config

/-- The configuration of an empty file. -/
def default : Config := ⟨none, none, .default, []⟩

def rulesOf? (v : Value) : Option (List (String × RuleConfig)) := do
  let t ← v.asTable?
  t.mapM fun (name, v) => (RuleConfig.ofValue? v).map fun c => (name, c)

/-- The configuration that the entries of a file give. -/
def ofEntries? (t : Entries) : Option Config := do
  pure {
    preset := ← field? (fun v => v.asString?.map some) none (t.get? "preset")
    failOn := ← field? (fun v => (v.asWord? Severity.ofName?).map some) none (t.get? "fail_on")
    engine := ← field? EngineConfig.ofValue? .default (t.get? "engine")
    rules := ← field? rulesOf? [] (t.get? "rules") }

/-- The configuration of a file with the given text. -/
def parse? (text : String) : Option Config := (Toml.parse? text).bind ofEntries?

/-- The table of a rule. -/
def rule? (c : Config) (name : String) : Option RuleConfig :=
  (c.rules.find? (·.1 == name)).map (·.2)

/-- Rules are enabled unless their table says otherwise. -/
def isEnabled (c : Config) (name : String) : Bool :=
  ((c.rule? name).bind RuleConfig.enabled).getD true

def severity? (c : Config) (name : String) : Option Severity :=
  (c.rule? name).bind RuleConfig.severity

/-- Some pattern of the list accepts the path. Texts that are no pattern accept nothing. -/
def isExcluded (c : Config) (path : String) : Bool :=
  c.engine.exclude.any fun pattern => (Glob.ofText? pattern).any (·.accepts path)

/-- Findings of this severity make a check fail. -/
def threshold (c : Config) : Severity := c.failOn.getD .warning

end Config

end SharpLint
