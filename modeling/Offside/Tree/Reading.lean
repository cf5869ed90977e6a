import Offside.Source.Diagnostic
import Offside.Tree.Basic

/-!
# `Tree.Reading` — values read off the front of a token list

The parser works on the list of tokens that are still to be read. A step that must read something gives a
`Parsed` value, whose rest is shorter than what it was given; a step that may read nothing gives a `Trail`,
whose rest is no longer. These bounds are what makes the parser's recursion end.

A list that cannot be read is a `Fault`: what was wanted and what stood there instead, or what is wrong
with what was read.
-/

namespace Offside.Tree

/-- The construct being read when something is missing. -/
inductive Context where
  | functionDefinition
  | parameterList
  | ifStatement
  | elseClause
  | whileStatement
  | functionCall
  | parentheses
  | endOfStatement
deriving DecidableEq

/-- The name of a construct in messages. -/
def Context.text : Context → String
  | .functionDefinition => "function definition"
  | .parameterList => "parameter list"
  | .ifStatement => "if statement"
  | .elseClause => "else clause"
  | .whileStatement => "while statement"
  | .functionCall => "function call"
  | .parentheses => "parenthesized expression"
  | .endOfStatement => "end of statement"

/-- What the next token should have been. -/
inductive Wanted where
  | kind (wanted : Token.Kind) (context : Context)
  | identifier (context : Context)
  | expression
  | statement
deriving DecidableEq

/-- What was wanted, in words. -/
def Wanted.text : Wanted → String
  | .kind wanted context => "'" ++ wanted.text ++ "' in " ++ context.text
  | .identifier context => "identifier in " ++ context.text
  | .expression => "expression"
  | .statement => "statement (unexpected indent)"

/-- Why a token list is not read. -/
inductive Cause where
  | mismatch (wanted : Wanted) (found : Token.Kind)
  | exhausted (wanted : Wanted)
  | notAssignable
  | literalTooLarge (magnitude : Nat)
deriving DecidableEq

/-- The text of a cause. -/
def Cause.message : Cause → String
  | .mismatch wanted found => "Expected " ++ wanted.text ++ ", found " ++ found.text
  | .exhausted wanted => "Unexpected end of file, expected " ++ wanted.text
  | .notAssignable => "cannot assign to expression"
  | .literalTooLarge magnitude =>
      "integer literal " ++ toString magnitude ++ " does not fit in 64 bits"

/-- A cause and the place it blames. -/
structure Fault where
  cause : Cause
  loc : Position
deriving DecidableEq

/-- The failure as it is reported. -/
def Fault.diagnostic (f : Fault) : Diagnostic := .parse f.cause.message f.loc

/-- A value read off the front of `ts`; at least one token was used. -/
structure Parsed (α : Type) (ts : List Token) where
  value : α
  rest : List Token
  shorter : rest.length < ts.length

/-- A value read off the front of `ts`; perhaps no token was used. -/
structure Trail (α : Type) (ts : List Token) where
  value : α
  rest : List Token
  noLonger : rest.length ≤ ts.length

namespace Parsed

variable {α : Type} {ts rest : List Token}

/-- One token was used. -/
def token (value : α) (t : Token) (rest : List Token) : Parsed α (t :: rest) := ⟨value, rest, Nat.lt_succ_self _⟩

/-- What was read, where reading nothing is possible, too. -/
def trail (p : Parsed α ts) : Trail α ts := ⟨p.value, p.rest, Nat.le_of_lt p.shorter⟩

theorem shorter_cons (t : Token) (p : Parsed α rest) : p.rest.length < (t :: rest).length :=
  Nat.lt_succ_of_lt p.shorter

theorem tail_shorter (p : Parsed α ts) {t : Token} (h : p.rest = t :: rest) : rest.length < ts.length :=
  Nat.lt_trans (by rw [h]; exact Nat.lt_succ_self _) p.shorter

theorem shorter_of_eq (p : Parsed α ts) (h : p.rest = rest) : rest.length < ts.length := h ▸ p.shorter

end Parsed

/-- Nothing was read. -/
def Trail.nothing {α : Type} (value : α) (ts : List Token) : Trail α ts := ⟨value, ts, Nat.le_refl _⟩

/-! ## Looking at the next token -/

/-- The next token is of the given kind. Past the last token there is only the end of the file. -/
def nextIs (kind : Token.Kind) : List Token → Bool
  | [] => kind == .eof
  | t :: _ => t.kind == kind

/-- The place of the next token, or `eof` past the last one. -/
def placeOf (eof : Position) : List Token → Position
  | [] => eof
  | t :: _ => t.span.start

/-- The fault that the next token is not what was wanted. -/
def unexpected (eof : Position) (wanted : Wanted) : List Token → Fault
  | [] => ⟨.exhausted wanted, eof⟩
  | t :: _ => ⟨.mismatch wanted t.kind, t.span.start⟩

/-- Takes a token of the given kind. -/
def expect (eof : Position) (kind : Token.Kind) (context : Context) :
    (ts : List Token) → Except Fault (Parsed Token ts)
  | [] => .error (unexpected eof (.kind kind context) [])
  | t :: rest =>
    if t.kind = kind then .ok (.token t t rest)
    else .error (unexpected eof (.kind kind context) (t :: rest))

/-- Takes an identifier. -/
def expectIdentifier (eof : Position) (context : Context) :
    (ts : List Token) → Except Fault (Parsed String ts)
  | [] => .error (unexpected eof (.identifier context) [])
  | t :: rest =>
    match t.kind with
    | .ident name => .ok (.token name t rest)
    | _ => .error (unexpected eof (.identifier context) (t :: rest))

end Offside.Tree
