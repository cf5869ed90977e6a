import Offside.Token.Basic

/-!
# `Tree.Operator` — the operators of expressions

Binary, unary and comparison operators with their spelling, the phrase that describes them in comments, and
the symbols that stand for them. Binary operators fall into six levels: level 1 binds tightest
(`BinaryOp.level`).
-/

namespace Offside

/-- Operators on two numbers. -/
inductive BinaryOp where
  | add | sub | mul | div | floorDiv | mod | bitAnd | bitOr | bitXor | leftShift | rightShift
deriving DecidableEq

/-- Operators on one number. -/
inductive UnaryOp where
  | plus | minus | invert
deriving DecidableEq

/-- Comparisons of two numbers. -/
inductive CompareOp where
  | less | lessEqual | greater | greaterEqual | equal | notEqual
deriving DecidableEq

namespace BinaryOp

/-- The symbol of an operator. -/
def symbol : BinaryOp → Symbol
  | .add => .plus
  | .sub => .minus
  | .mul => .star
  | .div => .slash
  | .floorDiv => .slashSlash
  | .mod => .percent
  | .bitAnd => .ampersand
  | .bitOr => .pipe
  | .bitXor => .caret
  | .leftShift => .leftShift
  | .rightShift => .rightShift

/-- The operator that a symbol stands for between two operands. -/
def ofSymbol? : Symbol → Option BinaryOp
  | .plus => some .add
  | .minus => some .sub
  | .star => some .mul
  | .slash => some .div
  | .slashSlash => some .floorDiv
  | .percent => some .mod
  | .ampersand => some .bitAnd
  | .pipe => some .bitOr
  | .caret => some .bitXor
  | .leftShift => some .leftShift
  | .rightShift => some .rightShift
  | _ => none

/-- The operator of an augmented assignment, `+=` and the like. -/
def ofAssignment? : Symbol → Option BinaryOp
  | .plusEqual => some .add
  | .minusEqual => some .sub
  | .starEqual => some .mul
  | .slashEqual => some .div
  | .slashSlashEqual => some .floorDiv
  | .percentEqual => some .mod
  | .ampersandEqual => some .bitAnd
  | .pipeEqual => some .bitOr
  | .caretEqual => some .bitXor
  | .leftShiftEqual => some .leftShift
  | .rightShiftEqual => some .rightShift
  | _ => none

/-- How loosely an operator binds, from 1 for products to 6 for `|`. -/
def level : BinaryOp → Nat
  | .mul | .div | .floorDiv | .mod => 1
  | .add | .sub => 2
  | .leftShift | .rightShift => 3
  | .bitAnd => 4
  | .bitXor => 5
  | .bitOr => 6

/-- The loosest level. -/
def loosest : Nat := 6

/-- The spelling of an operator. -/
def text (op : BinaryOp) : String := String.ofList op.symbol.chars

/-- What an operator computes, in words. -/
def describe : BinaryOp → String
  | .add => "addition"
  | .sub => "subtraction"
  | .mul => "multiplication"
  | .div => "division"
  | .floorDiv => "floor division"
  | .mod => "remainder"
  | .bitAnd => "bitwise and"
  | .bitOr => "bitwise or"
  | .bitXor => "bitwise xor"
  | .leftShift => "left shift"
  | .rightShift => "right shift"

theorem ofSymbol?_symbol (op : BinaryOp) : ofSymbol? op.symbol = some op := by cases op <;> rfl

end BinaryOp

namespace UnaryOp

/-- The symbol of an operator. -/
def symbol : UnaryOp → Symbol
  | .plus => .plus
  | .minus => .minus
  | .invert => .tilde

/-- The operator that a symbol stands for before an operand. -/
def ofSymbol? : Symbol → Option UnaryOp
  | .plus => some .plus
  | .minus => some .minus
  | .tilde => some .invert
  | _ => none

/-- The spelling of an operator. -/
def text (op : UnaryOp) : String := String.ofList op.symbol.chars

theorem ofSymbol?_symbol (op : UnaryOp) : ofSymbol? op.symbol = some op := by cases op <;> rfl

end UnaryOp

namespace CompareOp

/-- The symbol of a comparison. -/
def symbol : CompareOp → Symbol
  | .less => .less
  | .lessEqual => .lessEqual
  | .greater => .greater
  | .greaterEqual => .greaterEqual
  | .equal => .equalEqual
  | .notEqual => .bangEqual

/-- The comparison that a symbol stands for. -/
def ofSymbol? : Symbol → Option CompareOp
  | .less => some .less
  | .lessEqual => some .lessEqual
  | .greater => some .greater
  | .greaterEqual => some .greaterEqual
  | .equalEqual => some .equal
  | .bangEqual => some .notEqual
  | _ => none

/-- The spelling of a comparison. -/
def text (op : CompareOp) : String := String.ofList op.symbol.chars

/-- What a comparison tests, in words. -/
def describe : CompareOp → String
  | .less => "less than"
  | .lessEqual => "less than or equal"
  | .greater => "greater than"
  | .greaterEqual => "greater than or equal"
  | .equal => "equal"
  | .notEqual => "not equal"

theorem ofSymbol?_symbol (op : CompareOp) : ofSymbol? op.symbol = some op := by cases op <;> rfl

end CompareOp

end Offside
