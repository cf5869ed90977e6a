import Offside.Source.Position

/-!
# `Token.Basic` — the vocabulary of the language

A `Token` is a `Token.Kind` and the span it was read from. Kinds are literals, identifiers, the nine
keywords, the symbols, and the four layout tokens that stand for line ends and indentation. Keywords and
symbols are listed with their spelling (`Keyword.chars`, `Symbol.chars`); both tables are read in two
directions, to recognise a word (`Keyword.ofWord?`, `Symbol.read?`) and to show a token (`Kind.text`).
-/

namespace Offside

/-- Words that are not identifiers. -/
inductive Keyword where
  | def_ | return_ | if_ | elif_ | else_ | while_ | pass_ | true_ | false_
deriving DecidableEq

namespace Keyword

/-- Every keyword. -/
def all : List Keyword := [.def_, .return_, .if_, .elif_, .else_, .while_, .pass_, .true_, .false_]

/-- The spelling of a keyword. -/
def chars : Keyword → List Char
  | .def_ => ['d', 'e', 'f']
  | .return_ => ['r', 'e', 't', 'u', 'r', 'n']
  | .if_ => ['i', 'f']
  | .elif_ => ['e', 'l', 'i', 'f']
  | .else_ => ['e', 'l', 's', 'e']
  | .while_ => ['w', 'h', 'i', 'l', 'e']
  | .pass_ => ['p', 'a', 's', 's']
  | .true_ => ['T', 'r', 'u', 'e']
  | .false_ => ['F', 'a', 'l', 's', 'e']

/-- The keyword that a word spells, if it is one. -/
def ofWord? (word : List Char) : Option Keyword := all.find? fun k => k.chars == word

end Keyword

/-- Operators, assignment operators and delimiters. -/
inductive Symbol where
  | plus | minus | star | slash | slashSlash | percent | ampersand | pipe | caret | tilde
  | leftShift | rightShift | equal | less | greater | lessEqual | greaterEqual | equalEqual | bangEqual
  | plusEqual | minusEqual | starEqual | slashEqual | slashSlashEqual | percentEqual
  | ampersandEqual | pipeEqual | caretEqual | leftShiftEqual | rightShiftEqual
  | leftParen | rightParen | comma | colon | semicolon
deriving DecidableEq

namespace Symbol

/-- Every symbol, longer spellings first. -/
def all : List Symbol := [
  .slashSlashEqual, .leftShiftEqual, .rightShiftEqual,
  .slashSlash, .leftShift, .rightShift, .lessEqual, .greaterEqual, .equalEqual, .bangEqual,
  .plusEqual, .minusEqual, .starEqual, .slashEqual, .percentEqual, .ampersandEqual, .pipeEqual, .caretEqual,
  .plus, .minus, .star, .slash, .percent, .ampersand, .pipe, .caret, .tilde, .equal, .less, .greater,
  .leftParen, .rightParen, .comma, .colon, .semicolon]

/-- The spelling of a symbol. -/
def chars : Symbol → List Char
  | .plus => ['+']
  | .minus => ['-']
  | .star => ['*']
  | .slash => ['/']
  | .slashSlash => ['/', '/']
  | .percent => ['%']
  | .ampersand => ['&']
  | .pipe => ['|']
  | .caret => ['^']
  | .tilde => ['~']
  | .leftShift => ['<', '<']
  | .rightShift => ['>', '>']
  | .equal => ['=']
  | .less => ['<']
  | .greater => ['>']
  | .lessEqual => ['<', '=']
  | .greaterEqual => ['>', '=']
  | .equalEqual => ['=', '=']
  | .bangEqual => ['!', '=']
  | .plusEqual => ['+', '=']
  | .minusEqual => ['-', '=']
  | .starEqual => ['*', '=']
  | .slashEqual => ['/', '=']
  | .slashSlashEqual => ['/', '/', '=']
  | .percentEqual => ['%', '=']
  | .ampersandEqual => ['&', '=']
  | .pipeEqual => ['|', '=']
  | .caretEqual => ['^', '=']
  | .leftShiftEqual => ['<', '<', '=']
  | .rightShiftEqual => ['>', '>', '=']
  | .leftParen => ['(']
  | .rightParen => [')']
  | .comma => [',']
  | .colon => [':']
  | .semicolon => [';']

/-- The longest symbol that the text starts with. -/
def read? (text : List Char) : Option Symbol := all.find? fun s => s.chars.isPrefixOf text

theorem mem_all (s : Symbol) : s ∈ all := by cases s <;> decide

theorem chars_ne_nil (s : Symbol) : s.chars ≠ [] := by cases s <;> simp [chars]

/-- A symbol that was read stands at the front of the text. -/
theorem chars_isPrefixOf_of_read? {text : List Char} {s : Symbol} (h : read? text = some s) :
    s.chars.isPrefixOf text = true := by
  simpa using List.find?_some h

end Symbol

namespace Token

/-- What a token is, apart from where it stands. -/
inductive Kind where
  | int (magnitude : Nat)
  | str (value : String)
  | ident (name : String)
  | kw (word : Keyword)
  | sym (symbol : Symbol)
  | newline
  | indent
  | dedent
  | eof
deriving DecidableEq

namespace Kind

/-- How a kind is shown: its spelling, or the name of the layout it stands for. The text between the
    quotes of a string is shown as it is. -/
def text : Kind → String
  | .int n => toString n
  | .str s => "\"" ++ s ++ "\""
  | .ident name => name
  | .kw word => String.ofList word.chars
  | .sym symbol => String.ofList symbol.chars
  | .newline => "newline"
  | .indent => "indent"
  | .dedent => "dedent"
  | .eof => "end of file"

end Kind

end Token

/-- A token with the stretch of source it was read from. -/
structure Token where
  kind : Token.Kind
  span : Span
deriving DecidableEq

namespace Token

/-- The token and the place where it starts. -/
def text (t : Token) : String := t.kind.text ++ " at " ++ t.span.start.text

end Token

end Offside
