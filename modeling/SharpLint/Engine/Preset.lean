import SharpLint.Config.Basic
import SharpLint.Repair.FormatCall
import SharpLint.Repair.Visibility
import SharpLint.Rule.Operators
import SharpLint.Rule.ArraySignature

/-!
# Presets

Which rules run. A configuration names a preset and may set options of rules.
-/

namespace SharpLint

/-- The rule for public types in support namespaces, as it is without configuration. -/
def Rule.supportNamespace : Rule := SupportNamespace.rule SupportNamespace.defaultStart

def Rule.all : List Rule :=
  [Rule.Equality.rule, Rule.Formatting.rule, Rule.Arithmetic.rule, Rule.ArrayParameter.rule,
   Rule.ArrayReturn.rule, Rule.supportNamespace]

/-- A choice of rules. -/
inductive Preset where
  /-- All but the rule that reports every product. -/
  | recommended
  | strict
  /-- The rules whose findings can be fixed. -/
  | minimal
  deriving DecidableEq, Inhabited

namespace Preset

def name : Preset → String
  | .recommended => "recommended"
  | .strict => "strict"
  | .minimal => "minimal"

def ofName? (name : String) : Option Preset :=
  [recommended, strict, minimal].find? (·.name == name)

def rules : Preset → List Rule
  | .recommended =>
    [Rule.Equality.rule, Rule.Formatting.rule, Rule.ArrayParameter.rule, Rule.ArrayReturn.rule,
     Rule.supportNamespace]
  | .strict =>
    [Rule.Equality.rule, Rule.Formatting.rule, Rule.ArrayParameter.rule, Rule.ArrayReturn.rule,
     Rule.supportNamespace, Rule.Arithmetic.rule]
  | .minimal => [Rule.Formatting.rule, Rule.supportNamespace]

end Preset

namespace Config

/-- The preset that is chosen; an unknown name chooses the recommended one. -/
def chosenPreset (c : Config) : Preset := (c.preset.bind Preset.ofName?).getD .recommended

def supportStart (c : Config) : String :=
  ((c.rule? Rule.SupportNamespace.name).map
    (·.string "restricted_prefix" Rule.SupportNamespace.defaultStart)).getD
    Rule.SupportNamespace.defaultStart

/-- The chosen rules with their options. -/
def chosenRules (c : Config) : List Rule :=
  c.chosenPreset.rules.map fun r =>
    if r.name = Rule.SupportNamespace.name then Rule.SupportNamespace.rule c.supportStart else r

def formatModule (c : Config) : String :=
  ((c.rule? Rule.Formatting.rule.name).map
    (·.string "format_module" Repair.FormatCall.defaultModule)).getD
    Repair.FormatCall.defaultModule

/-- The providers with their options. -/
def providers (c : Config) : List Provider :=
  [Repair.FormatCall.provider c.formatModule, Repair.Visibility.provider]

end Config

end SharpLint
