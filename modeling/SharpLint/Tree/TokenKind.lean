import SharpLint.Tree.Keyword

/-!
# Kinds of tokens and trivia

`TokenKind.fixedText?` gives the one spelling of a punctuation or keyword token; literals,
identifiers and the text parts of interpolated strings have none.
-/

namespace SharpLint

/-- What a token is. `interpolatedStringStart` is the opener `$"` of an interpolated string,
`interpolatedStringText` a run of literal text in it, `interpolatedFormatText` the text after the
colon of a hole, and `interpolatedStringEnd` the closing quote. -/
inductive TokenKind where
  | identifier | keyword (k : Keyword) | numericLiteral | stringLiteral | charLiteral
  | interpolatedStringStart | interpolatedStringEnd | interpolatedStringText
  | interpolatedFormatText | openParen | closeParen | openBrace | closeBrace | openBracket
  | closeBracket | semicolon | comma | dot | colon | question | questionQuestion
  | questionQuestionEq | questionDot | plus | minus | star | slash | percent | bang | eq | eqEq
  | bangEq | lt | gt | ltEq | gtEq | ampAmp | pipePipe | plusEq | minusEq | starEq | slashEq
  | percentEq | amp | pipe | caret | tilde | ltLt | ampEq | pipeEq | caretEq | ltLtEq | plusPlus
  | minusMinus | arrow | endOfFile
  deriving DecidableEq, Inhabited

namespace TokenKind

def nonKeywords : List TokenKind :=
  [.identifier, .numericLiteral, .stringLiteral, .charLiteral, .interpolatedStringStart,
   .interpolatedStringEnd, .interpolatedStringText, .interpolatedFormatText, .openParen,
   .closeParen, .openBrace, .closeBrace, .openBracket, .closeBracket, .semicolon, .comma, .dot,
   .colon, .question, .questionQuestion, .questionQuestionEq, .questionDot, .plus, .minus, .star,
   .slash, .percent, .bang, .eq, .eqEq, .bangEq, .lt, .gt, .ltEq, .gtEq, .ampAmp, .pipePipe,
   .plusEq, .minusEq, .starEq, .slashEq, .percentEq, .amp, .pipe, .caret, .tilde, .ltLt, .ampEq,
   .pipeEq, .caretEq, .ltLtEq, .plusPlus, .minusMinus, .arrow, .endOfFile]

def all : List TokenKind := nonKeywords ++ Keyword.all.map .keyword

def name : TokenKind → String
  | .keyword k => "Keyword(" ++ k.name ++ ")"
  | .identifier => "Identifier"
  | .numericLiteral => "NumericLiteral"
  | .stringLiteral => "StringLiteral"
  | .charLiteral => "CharLiteral"
  | .interpolatedStringStart => "InterpolatedStringStart"
  | .interpolatedStringEnd => "InterpolatedStringEnd"
  | .interpolatedStringText => "InterpolatedStringText"
  | .interpolatedFormatText => "InterpolatedFormatText"
  | .openParen => "OpenParen"
  | .closeParen => "CloseParen"
  | .openBrace => "OpenBrace"
  | .closeBrace => "CloseBrace"
  | .openBracket => "OpenBracket"
  | .closeBracket => "CloseBracket"
  | .semicolon => "Semicolon"
  | .comma => "Comma"
  | .dot => "Dot"
  | .colon => "Colon"
  | .question => "Question"
  | .questionQuestion => "QuestionQuestion"
  | .questionQuestionEq => "QuestionQuestionEq"
  | .questionDot => "QuestionDot"
  | .plus => "Plus"
  | .minus => "Minus"
  | .star => "Star"
  | .slash => "Slash"
  | .percent => "Percent"
  | .bang => "Bang"
  | .eq => "Eq"
  | .eqEq => "EqEq"
  | .bangEq => "BangEq"
  | .lt => "Lt"
  | .gt => "Gt"
  | .ltEq => "LtEq"
  | .gtEq => "GtEq"
  | .ampAmp => "AmpAmp"
  | .pipePipe => "PipePipe"
  | .plusEq => "PlusEq"
  | .minusEq => "MinusEq"
  | .starEq => "StarEq"
  | .slashEq => "SlashEq"
  | .percentEq => "PercentEq"
  | .amp => "Amp"
  | .pipe => "Pipe"
  | .caret => "Caret"
  | .tilde => "Tilde"
  | .ltLt => "LtLt"
  | .ampEq => "AmpEq"
  | .pipeEq => "PipeEq"
  | .caretEq => "CaretEq"
  | .ltLtEq => "LtLtEq"
  | .plusPlus => "PlusPlus"
  | .minusMinus => "MinusMinus"
  | .arrow => "Arrow"
  | .endOfFile => "EndOfFile"

/-- The only spelling of this kind of token, if it has just one. -/
def fixedText? : TokenKind → Option String
  | .keyword k => some k.text
  | .interpolatedStringStart => some "$\""
  | .interpolatedStringEnd => some "\""
  | .openParen => some "("
  | .closeParen => some ")"
  | .openBrace => some "\x7b"
  | .closeBrace => some "\x7d"
  | .openBracket => some "["
  | .closeBracket => some "]"
  | .semicolon => some ";"
  | .comma => some ","
  | .dot => some "."
  | .colon => some ":"
  | .question => some "?"
  | .questionQuestion => some "??"
  | .questionQuestionEq => some "??="
  | .questionDot => some "?."
  | .plus => some "+"
  | .minus => some "-"
  | .star => some "*"
  | .slash => some "/"
  | .percent => some "%"
  | .bang => some "!"
  | .eq => some "="
  | .eqEq => some "=="
  | .bangEq => some "!="
  | .lt => some "<"
  | .gt => some ">"
  | .ltEq => some "<="
  | .gtEq => some ">="
  | .ampAmp => some "&&"
  | .pipePipe => some "||"
  | .plusEq => some "+="
  | .minusEq => some "-="
  | .starEq => some "*="
  | .slashEq => some "/="
  | .percentEq => some "%="
  | .amp => some "&"
  | .pipe => some "|"
  | .caret => some "^"
  | .tilde => some "~"
  | .ltLt => some "<<"
  | .ampEq => some "&="
  | .pipeEq => some "|="
  | .caretEq => some "^="
  | .ltLtEq => some "<<="
  | .plusPlus => some "++"
  | .minusMinus => some "--"
  | .arrow => some "=>"
  | .endOfFile => some ""
  | .identifier | .numericLiteral | .stringLiteral | .charLiteral | .interpolatedStringText
  | .interpolatedFormatText => none

def keyword? : TokenKind → Option Keyword
  | .keyword k => some k
  | _ => none

end TokenKind

/-- What a piece of trivia is: `whitespace` is a run of spaces and tabs or a lone carriage return,
`endOfLine` a line feed with or without a carriage return before it, `preprocessorDirective` a
whole `#` line. -/
inductive TriviaKind where
  | whitespace | endOfLine | singleLineComment | multiLineComment | docComment
  | preprocessorDirective
  deriving DecidableEq, Inhabited

namespace TriviaKind

def all : List TriviaKind :=
  [.whitespace, .endOfLine, .singleLineComment, .multiLineComment, .docComment,
   .preprocessorDirective]

def name : TriviaKind → String
  | .whitespace => "Whitespace"
  | .endOfLine => "EndOfLine"
  | .singleLineComment => "SingleLineComment"
  | .multiLineComment => "MultiLineComment"
  | .docComment => "DocComment"
  | .preprocessorDirective => "PreprocessorDirective"

/-- Comments of any form. -/
def isComment : TriviaKind → Bool
  | .singleLineComment | .multiLineComment | .docComment => true
  | _ => false

end TriviaKind

end SharpLint
