import Offside.Machine.Register
import Offside.Word

/-!
# `Machine.Line` — lines of assembly

A line is an instruction, a directive to the assembler, a label or a comment. Instructions and directives
are written after a tab, labels at the margin (`Line.text`).
-/

namespace Offside.Machine

/-- Operations on two registers. -/
inductive AluOp where
  | add | sub | mul | div | rem | and | or | xor | sll | sra
deriving DecidableEq

/-- Comparisons that a branch can test. -/
inductive BranchTest where
  | eq | ne | lt | le | gt | ge
deriving DecidableEq

/-- Instructions, pseudo-instructions included. -/
inductive Instr where
  | alu (op : AluOp) (rd rs1 rs2 : Register)
  | addi (rd rs : Register) (imm : Int)
  | neg (rd rs : Register)
  | not (rd rs : Register)
  | ld (rd : Register) (offset : Int) (base : Register)
  | sd (rs : Register) (offset : Int) (base : Register)
  | li (rd : Register) (imm : Word)
  | la (rd : Register) (label : String)
  | branch (test : BranchTest) (rs1 rs2 : Register) (label : String)
  | beqz (rs : Register) (label : String)
  | jump (label : String)
  | call (label : String)
  | ret
deriving DecidableEq

/-- Directives to the assembler. -/
inductive Directive where
  | text
  | sect (name : String)
  | align (n : Nat)
  | globl (name : String)
  | typeFunction (name : String)
  | sizeFunction (name : String)
  | string (value : String)
deriving DecidableEq

/-- A line of assembly. -/
inductive Line where
  | instr (i : Instr)
  | directive (d : Directive)
  | label (name : String)
  | comment (text : String)
deriving DecidableEq

namespace AluOp

/-- The mnemonic of an operation. -/
def mnemonic : AluOp → String
  | .add => "add"
  | .sub => "sub"
  | .mul => "mul"
  | .div => "div"
  | .rem => "rem"
  | .and => "and"
  | .or => "or"
  | .xor => "xor"
  | .sll => "sll"
  | .sra => "sra"

end AluOp

namespace BranchTest

/-- The mnemonic of a branch. -/
def mnemonic : BranchTest → String
  | .eq => "beq"
  | .ne => "bne"
  | .lt => "blt"
  | .le => "ble"
  | .gt => "bgt"
  | .ge => "bge"

end BranchTest

namespace Instr

/-- The mnemonic of an instruction. -/
def mnemonic : Instr → String
  | .alu op _ _ _ => op.mnemonic
  | .addi _ _ _ => "addi"
  | .neg _ _ => "neg"
  | .not _ _ => "not"
  | .ld _ _ _ => "ld"
  | .sd _ _ _ => "sd"
  | .li _ _ => "li"
  | .la _ _ => "la"
  | .branch test _ _ _ => test.mnemonic
  | .beqz _ _ => "beqz"
  | .jump _ => "j"
  | .call _ => "call"
  | .ret => "ret"

/-- An address: a base register and an offset from it. -/
def address (offset : Int) (base : Register) : String := toString offset ++ "(" ++ base.name ++ ")"

/-- The operands of an instruction. -/
def operands : Instr → List String
  | .alu _ rd rs1 rs2 => [rd.name, rs1.name, rs2.name]
  | .addi rd rs imm => [rd.name, rs.name, toString imm]
  | .neg rd rs | .not rd rs => [rd.name, rs.name]
  | .ld r offset base | .sd r offset base => [r.name, address offset base]
  | .li rd imm => [rd.name, toString imm.toInt]
  | .la rd label => [rd.name, label]
  | .branch _ rs1 rs2 label => [rs1.name, rs2.name, label]
  | .beqz rs label => [rs.name, label]
  | .jump label | .call label => [label]
  | .ret => []

/-- The operands as they are written after the mnemonic. -/
def operandText (i : Instr) : String :=
  match i.operands with
  | [] => ""
  | operands => " " ++ String.intercalate ", " operands

end Instr

namespace Directive

/-- A character of a string constant: line feeds, tabs, quotation marks and backslashes are escaped. -/
def escapeChar (c : Char) : List Char :=
  if c = '\n' then ['\\', 'n']
  else if c = '\t' then ['\\', 't']
  else if c = '\x22' then ['\\', '\x22']
  else if c = '\\' then ['\\', '\\']
  else [c]

/-- The characters of a string constant. -/
def escape (s : String) : String := String.ofList (s.toList.flatMap escapeChar)

/-- A directive as it is written. -/
def spelling : Directive → String
  | .text => ".text"
  | .sect name => ".section " ++ name
  | .align n => ".align " ++ toString n
  | .globl name => ".globl " ++ name
  | .typeFunction name => ".type " ++ name ++ ", @function"
  | .sizeFunction name => ".size " ++ name ++ ", .-" ++ name
  | .string value => ".string \"" ++ escape value ++ "\""

end Directive

namespace Line

/-- A line as it is written, without its line end. -/
def text : Line → String
  | .instr i => "\t" ++ i.mnemonic ++ i.operandText
  | .directive d => "\t" ++ d.spelling
  | .label name => name ++ ":"
  | .comment text => "\t# " ++ text

/-- The line is a comment. -/
def isComment : Line → Bool
  | .comment _ => true
  | _ => false

end Line

end Offside.Machine
