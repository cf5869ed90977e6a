import Offside.Text.Json
import Offside.Tree.Basic

/-!
# `Tree.Dump` — trees as JSON

The form in which a tree is shown: a node is an object with its kind and its span, and a kind is an object
whose one member is named for it, or a string if it holds nothing.
-/

namespace Offside

open Text (Json)

namespace Position

/-- A position as JSON. -/
def json (p : Position) : Json :=
  .obj [("filename", .str p.file), ("line", .int p.line), ("column", .int p.column)]

end Position

namespace Span

/-- A span as JSON. -/
def json (s : Span) : Json := .obj [("start", s.start.json), ("end", s.stop.json)]

end Span

namespace BinaryOp

/-- The name of an operator in the tree. -/
def tag : BinaryOp → String
  | .add => "Add"
  | .sub => "Sub"
  | .mul => "Mul"
  | .div => "Div"
  | .floorDiv => "FloorDiv"
  | .mod => "Mod"
  | .bitAnd => "BitAnd"
  | .bitOr => "BitOr"
  | .bitXor => "BitXor"
  | .leftShift => "LeftShift"
  | .rightShift => "RightShift"

end BinaryOp

namespace UnaryOp

/-- The name of an operator in the tree. -/
def tag : UnaryOp → String
  | .plus => "Plus"
  | .minus => "Minus"
  | .invert => "Invert"

end UnaryOp

namespace CompareOp

/-- The name of a comparison in the tree. -/
def tag : CompareOp → String
  | .less => "Less"
  | .lessEqual => "LessEqual"
  | .greater => "Greater"
  | .greaterEqual => "GreaterEqual"
  | .equal => "Equal"
  | .notEqual => "NotEqual"

end CompareOp

namespace NameUse

/-- The name of a use in the tree. -/
def tag : NameUse → String
  | .load => "Load"
  | .store => "Store"

end NameUse

namespace Constant

/-- A constant as JSON. -/
def json : Constant → Json
  | .int w => .obj [("Int", .int w.toInt)]
  | .bool b => .obj [("Bool", .bool b)]
  | .str s => .obj [("Str", .str s)]

end Constant

/-- A node of the tree: what it is, and where it stands. -/
def nodeJson (kind : Json) (span : Span) : Json := .obj [("kind", kind), ("span", span.json)]

namespace Expr

mutual

/-- An expression as JSON. -/
def json : Expr → Json
  | .const span value => nodeJson (.obj [("Constant", value.json)]) span
  | .name span id use => nodeJson (.obj [("Name", .obj [("id", .str id), ("ctx", .str use.tag)])]) span
  | .binary span left op right =>
    nodeJson (.obj [("BinOp",
      .obj [("left", left.json), ("op", .str op.tag), ("right", right.json)])]) span
  | .unary span op operand =>
    nodeJson (.obj [("UnaryOp", .obj [("op", .str op.tag), ("operand", operand.json)])]) span
  | .compare span left ops comparators =>
    nodeJson (.obj [("Compare",
      .obj [("left", left.json), ("ops", .arr (ops.map (.str ·.tag))),
        ("comparators", .arr (jsonList comparators))])]) span
  | .call span func args =>
    nodeJson (.obj [("Call", .obj [("func", func.json), ("args", .arr (jsonList args))])]) span

/-- Expressions as JSON, in order. -/
def jsonList : List Expr → List Json
  | [] => []
  | e :: es => e.json :: jsonList es

end

end Expr

namespace Stmt

mutual

/-- A statement as JSON. -/
def json : Stmt → Json
  | .pass span => nodeJson (.str "Pass") span
  | .ret span none => nodeJson (.obj [("Return", .null)]) span
  | .ret span (some value) => nodeJson (.obj [("Return", value.json)]) span
  | .expr span value => nodeJson (.obj [("Expr", value.json)]) span
  | .assign span targets value =>
    nodeJson (.obj [("Assign",
      .obj [("targets", .arr (Expr.jsonList targets)), ("value", value.json)])]) span
  | .augAssign span target op value =>
    nodeJson (.obj [("AugAssign",
      .obj [("target", target.json), ("op", .str op.tag), ("value", value.json)])]) span
  | .cond span test body orelse =>
    nodeJson (.obj [("If",
      .obj [("test", test.json), ("body", .arr (jsonList body)), ("orelse", .arr (jsonList orelse))])]) span
  | .loop span test body =>
    nodeJson (.obj [("While", .obj [("test", test.json), ("body", .arr (jsonList body))])]) span
  | .funcDef span name params body =>
    nodeJson (.obj [("FunctionDef",
      .obj [("name", .str name), ("params", .arr (params.map .str)), ("body", .arr (jsonList body))])]) span

/-- Statements as JSON, in order. -/
def jsonList : List Stmt → List Json
  | [] => []
  | s :: rest => s.json :: jsonList rest

end

end Stmt

namespace Module

/-- A module as JSON. -/
def json (m : Module) : Json := .obj [("body", .arr (Stmt.jsonList m.body)), ("span", m.span.json)]

end Module

end Offside
