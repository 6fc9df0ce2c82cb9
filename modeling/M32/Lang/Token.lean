/-
  Tokens of the source language.

  1. `Symbol` and `Keyword` are the fixed tokens, with their spellings.
  2. `TokenKind` adds names, literals, comments, and text that is no token at all.
  3. `Token` is a kind with the place where it starts.  Lines and columns count from 0, columns in bytes of UTF-8.
  `TokenKind.describe` is how an error shows a token.
-/
import M32.Text.Quoted

namespace M32.Lang

/-! ## Fixed tokens -/

/-- Tokens of one or two characters that are neither letters nor digits. -/
inductive Symbol where
  | eqEq | notEq | geq | leq | andAnd | orOr
  | assign | plus | minus | star | deref | slash | bang | semicolon | comma | period
  | lparen | rparen | lbracket | rbracket | lcurly | rcurly | less | greater
  deriving DecidableEq, Repr

namespace Symbol

/-- All symbols, the longer ones first. -/
def all : List Symbol :=
  [eqEq, notEq, geq, leq, andAnd, orOr, assign, plus, minus, star, deref, slash, bang, semicolon, comma, period,
    lparen, rparen, lbracket, rbracket, lcurly, rcurly, less, greater]

/-- How a symbol is written. -/
def spelling : Symbol → List Char
  | eqEq => ['=', '=']
  | notEq => ['!', '=']
  | geq => ['>', '=']
  | leq => ['<', '=']
  | andAnd => ['&', '&']
  | orOr => ['|', '|']
  | assign => ['=']
  | plus => ['+']
  | minus => ['-']
  | star => ['*']
  | deref => ['@']
  | slash => ['/']
  | bang => ['!']
  | semicolon => [';']
  | comma => [',']
  | period => ['.']
  | lparen => ['(']
  | rparen => [')']
  | lbracket => ['[']
  | rbracket => [']']
  | lcurly => ['{']
  | rcurly => ['}']
  | less => ['<']
  | greater => ['>']

/-- What a symbol is called. -/
def name : Symbol → String
  | eqEq => "EqualEqual"
  | notEq => "ExclEqual"
  | geq => "RAngleEqual"
  | leq => "LAngleEqual"
  | andAnd => "AmpAmp"
  | orOr => "PipePipe"
  | assign => "Equal"
  | plus => "Plus"
  | minus => "Minus"
  | star => "Star"
  | deref => "Atmark"
  | slash => "Slash"
  | bang => "Excl"
  | semicolon => "Semicolon"
  | comma => "Comma"
  | period => "Period"
  | lparen => "LParen"
  | rparen => "RParen"
  | lbracket => "LBracket"
  | rbracket => "RBracket"
  | lcurly => "LCurly"
  | rcurly => "RCurly"
  | less => "LAngle"
  | greater => "RAngle"

/-- The symbol of two characters. -/
def ofPair? (c d : Char) : Option Symbol := all.find? (·.spelling = [c, d])

/-- The symbol of one character. -/
def ofChar? (c : Char) : Option Symbol := all.find? (·.spelling = [c])

end Symbol

/-- Words that are no names. -/
inductive Keyword where
  | int | uint | bool | char | void | struct | return | if | else | while | new | gpr | except | true | false
  deriving DecidableEq, Repr

namespace Keyword

/-- All keywords. -/
def all : List Keyword :=
  [.int, .uint, .bool, .char, .void, .struct, .return, .if, .else, .while, .new, .gpr, .except, .true, .false]

/-- How a keyword is written. -/
def spelling : Keyword → String
  | .int => "int"
  | .uint => "uint"
  | .bool => "bool"
  | .char => "char"
  | .void => "void"
  | .struct => "struct"
  | .return => "return"
  | .if => "if"
  | .else => "else"
  | .while => "while"
  | .new => "new"
  | .gpr => "gpr"
  | .except => "except"
  | .true => "true"
  | .false => "false"

/-- What a keyword is called. -/
def name : Keyword → String
  | .int => "KwInt"
  | .uint => "KwUint"
  | .bool => "KwBool"
  | .char => "KwChar"
  | .void => "KwVoid"
  | .struct => "KwStruct"
  | .return => "KwReturn"
  | .if => "KwIf"
  | .else => "KwElse"
  | .while => "KwWhile"
  | .new => "KwNew"
  | .gpr => "KwGpr"
  | .except => "KwExcept"
  | .true => "KwTrue"
  | .false => "KwFalse"

/-- The keyword of a word. -/
def ofSpelling? (word : String) : Option Keyword := all.find? (·.spelling = word)

/-- Whether a keyword opens a type. -/
def opensType : Keyword → Bool
  | .int | .uint | .bool | .char | .struct => Bool.true
  | _ => Bool.false

end Keyword

/-! ## Tokens -/

/-- What a token is. -/
inductive TokenKind where
  | symbol (s : Symbol)
  | keyword (k : Keyword)
  | ident (name : String)
  /-- A number as written, its value, and whether it was marked as unsigned. -/
  | number (lexeme : String) (value : Nat) (isUnsigned : Bool)
  | char (c : Char)
  | comment (text : String)
  /-- Text that starts no token. -/
  | invalid (text : String)
  deriving DecidableEq, Repr

namespace TokenKind

/-- Whether a token is a comment. -/
def isComment : TokenKind → Bool
  | comment _ => true
  | _ => false

/-- Whether a token opens a type. -/
def opensType : TokenKind → Bool
  | keyword k => k.opensType
  | _ => false

/-- What a kind of token is called. -/
def name : TokenKind → String
  | symbol s => s.name
  | keyword k => k.name
  | ident _ => "Ident"
  | number .. => "Number"
  | char _ => "Char"
  | comment _ => "Comment"
  | invalid _ => "Error"

/-- What an error shows of a token besides what it is called. -/
def detail? : TokenKind → Option String
  | symbol _ | keyword _ => none
  | ident name => some (Text.quotedString name)
  | number lexeme value isUnsigned =>
    some (Text.quotedString lexeme ++ ", " ++ toString value ++ ", " ++ toString isUnsigned)
  | char c => some (Text.quotedChar c)
  | comment text | invalid text => some (Text.quotedString text)

/-- How an error shows a token. -/
def describe (k : TokenKind) : String :=
  match k.detail? with
  | none => k.name
  | some detail => k.name ++ "(" ++ detail ++ ")"

end TokenKind

/-- A place in a source file. -/
structure Pos where
  file : String
  line : Nat
  col : Nat
  deriving DecidableEq, Repr

/-- A place as an error shows it, counted from 1. -/
def Pos.text (p : Pos) : String := p.file ++ ":" ++ toString (p.line + 1) ++ ":" ++ toString (p.col + 1)

/-- A token with the place where it starts. -/
structure Token where
  kind : TokenKind
  pos : Pos
  deriving DecidableEq, Repr

end M32.Lang
