import LetArith.Position

/-! Tokens: a kind, the text the token was read from, and where that text stands.
The kind and the text are independent, so a list of tokens made by hand may pair any
kind with any text. -/

namespace LetArith

inductive Kind where
  | endOfInput
  | number
  | identifier
  | openParen
  | closeParen
  | equals
  | semicolon
  | plus
  | dash
  | slash
  | star
  | percent
  | letKeyword
  | constKeyword
  deriving DecidableEq

namespace Kind

def name : Kind → String
  | endOfInput => "EOF"
  | number => "Number"
  | identifier => "Identifier"
  | openParen => "OpenParen"
  | closeParen => "CloseParen"
  | equals => "Equals"
  | semicolon => "Semicolon"
  | plus => "Plus"
  | dash => "Dash"
  | slash => "Slash"
  | star => "Star"
  | percent => "Percent"
  | letKeyword => "Let"
  | constKeyword => "Const"

def all : List Kind :=
  [closeParen, constKeyword, dash, endOfInput, equals, identifier, letKeyword, number,
    openParen, percent, plus, semicolon, slash, star]

def ofName? (s : String) : Option Kind := all.find? (fun k => k.name == s)

theorem ofName?_name (k : Kind) : ofName? k.name = some k := by cases k <;> decide

/-- The kinds that the scanner gives to the five operators. -/
def operators : List Kind := [plus, dash, slash, star, percent]

def isOperator (k : Kind) : Bool := operators.contains k

/-- The kind of a word with a meaning of its own. -/
def reserved? (word : String) : Option Kind :=
  if word = "let" then some letKeyword
  else if word = "const" then some constKeyword
  else none

def ofWord (word : String) : Kind := (reserved? word).getD identifier

/-- The kind of a character that is a token by itself. -/
def ofMark? : Char → Option Kind
  | '(' => some openParen
  | ')' => some closeParen
  | '=' => some equals
  | ';' => some semicolon
  | '+' => some plus
  | '-' => some dash
  | '/' => some slash
  | '*' => some star
  | '%' => some percent
  | _ => none

end Kind

structure Token where
  kind : Kind
  text : String
  span : Span
  deriving DecidableEq

namespace Token

def isEnd (t : Token) : Bool := t.kind == Kind.endOfInput

/-- The token that closes an input ending at `place`. -/
def endAt (place : Position) : Token := ⟨Kind.endOfInput, "EOF", Span.empty place⟩

@[simp] theorem isEnd_endAt (place : Position) : (endAt place).isEnd = true := rfl

/-- How a token is named in messages: its kind, then its text in back quotes. -/
def describe (t : Token) : String := t.kind.name ++ " `" ++ t.text ++ "`"

end Token

end LetArith
