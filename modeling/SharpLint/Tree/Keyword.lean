/-!
# Keywords

The words that a source file cannot use as names. `Keyword.text` is the spelling and
`Keyword.ofText?` reads it back:

    ofText? k.text = some k                      (ofText?_text)
    ofText? s = some k → k.text = s              (text_of_ofText?)
-/

namespace SharpLint

/-- Reserved words. Contextual words (`record`, `where`, `yield`, …) are identifiers. -/
inductive Keyword where
  | kwPublic | kwPrivate | kwProtected | kwInternal | kwStatic | kwReadonly | kwSealed
  | kwAbstract | kwVirtual | kwOverride | kwPartial | kwConst | kwExtern | kwUnsafe | kwNew
  | kwVolatile | kwClass | kwStruct | kwInterface | kwEnum | kwDelegate | kwNamespace | kwUsing
  | kwReturn | kwIf | kwElse | kwWhile | kwFor | kwForeach | kwIn | kwThrow | kwThis | kwNull
  | kwTrue | kwFalse | kwVoid | kwParams | kwRef | kwOut | kwBool | kwByte | kwSbyte | kwChar
  | kwShort | kwUshort | kwInt | kwUint | kwLong | kwUlong | kwFloat | kwDouble | kwDecimal
  | kwString | kwObject | kwIs | kwAs | kwSwitch | kwCase | kwDefault | kwBreak | kwContinue
  | kwDo | kwTry | kwCatch | kwFinally | kwLock | kwTypeof | kwBase
  deriving DecidableEq, Inhabited

namespace Keyword

def all : List Keyword :=
  [.kwPublic, .kwPrivate, .kwProtected, .kwInternal, .kwStatic, .kwReadonly, .kwSealed,
   .kwAbstract, .kwVirtual, .kwOverride, .kwPartial, .kwConst, .kwExtern, .kwUnsafe, .kwNew,
   .kwVolatile, .kwClass, .kwStruct, .kwInterface, .kwEnum, .kwDelegate, .kwNamespace, .kwUsing,
   .kwReturn, .kwIf, .kwElse, .kwWhile, .kwFor, .kwForeach, .kwIn, .kwThrow, .kwThis, .kwNull,
   .kwTrue, .kwFalse, .kwVoid, .kwParams, .kwRef, .kwOut, .kwBool, .kwByte, .kwSbyte, .kwChar,
   .kwShort, .kwUshort, .kwInt, .kwUint, .kwLong, .kwUlong, .kwFloat, .kwDouble, .kwDecimal,
   .kwString, .kwObject, .kwIs, .kwAs, .kwSwitch, .kwCase, .kwDefault, .kwBreak, .kwContinue,
   .kwDo, .kwTry, .kwCatch, .kwFinally, .kwLock, .kwTypeof, .kwBase]

/-- Spelling in source text. -/
def text : Keyword → String
  | .kwPublic => "public"
  | .kwPrivate => "private"
  | .kwProtected => "protected"
  | .kwInternal => "internal"
  | .kwStatic => "static"
  | .kwReadonly => "readonly"
  | .kwSealed => "sealed"
  | .kwAbstract => "abstract"
  | .kwVirtual => "virtual"
  | .kwOverride => "override"
  | .kwPartial => "partial"
  | .kwConst => "const"
  | .kwExtern => "extern"
  | .kwUnsafe => "unsafe"
  | .kwNew => "new"
  | .kwVolatile => "volatile"
  | .kwClass => "class"
  | .kwStruct => "struct"
  | .kwInterface => "interface"
  | .kwEnum => "enum"
  | .kwDelegate => "delegate"
  | .kwNamespace => "namespace"
  | .kwUsing => "using"
  | .kwReturn => "return"
  | .kwIf => "if"
  | .kwElse => "else"
  | .kwWhile => "while"
  | .kwFor => "for"
  | .kwForeach => "foreach"
  | .kwIn => "in"
  | .kwThrow => "throw"
  | .kwThis => "this"
  | .kwNull => "null"
  | .kwTrue => "true"
  | .kwFalse => "false"
  | .kwVoid => "void"
  | .kwParams => "params"
  | .kwRef => "ref"
  | .kwOut => "out"
  | .kwBool => "bool"
  | .kwByte => "byte"
  | .kwSbyte => "sbyte"
  | .kwChar => "char"
  | .kwShort => "short"
  | .kwUshort => "ushort"
  | .kwInt => "int"
  | .kwUint => "uint"
  | .kwLong => "long"
  | .kwUlong => "ulong"
  | .kwFloat => "float"
  | .kwDouble => "double"
  | .kwDecimal => "decimal"
  | .kwString => "string"
  | .kwObject => "object"
  | .kwIs => "is"
  | .kwAs => "as"
  | .kwSwitch => "switch"
  | .kwCase => "case"
  | .kwDefault => "default"
  | .kwBreak => "break"
  | .kwContinue => "continue"
  | .kwDo => "do"
  | .kwTry => "try"
  | .kwCatch => "catch"
  | .kwFinally => "finally"
  | .kwLock => "lock"
  | .kwTypeof => "typeof"
  | .kwBase => "base"

/-- The keyword with the given spelling. -/
def ofText? (s : String) : Option Keyword :=
  all.find? (·.text == s)

/-- Display name: the spelling with a capital first letter. -/
def name (k : Keyword) : String := k.text.capitalize

/-- Keywords that name a built-in type. -/
def isPredefinedType : Keyword → Bool
  | .kwBool | .kwByte | .kwSbyte | .kwChar | .kwShort | .kwUshort | .kwInt | .kwUint | .kwLong
  | .kwUlong | .kwFloat | .kwDouble | .kwDecimal | .kwString | .kwObject | .kwVoid => true
  | _ => false

/-- The four accessibility modifiers. -/
def isAccessibility : Keyword → Bool
  | .kwPublic | .kwInternal | .kwProtected | .kwPrivate => true
  | _ => false

/-- Keywords that a declaration takes as modifiers. -/
def isModifier : Keyword → Bool
  | .kwPublic | .kwPrivate | .kwProtected | .kwInternal | .kwStatic | .kwReadonly | .kwSealed
  | .kwAbstract | .kwVirtual | .kwOverride | .kwPartial | .kwConst | .kwExtern | .kwUnsafe
  | .kwNew | .kwVolatile => true
  | _ => false

/-! ## Lemmas -/

theorem ofText?_text (k : Keyword) : ofText? k.text = some k := by
  cases k <;> decide

theorem text_of_ofText? {s : String} {k : Keyword} (h : ofText? s = some k) : k.text = s := by
  have := List.find?_some h
  simpa using this

end Keyword

end SharpLint
