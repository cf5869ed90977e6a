import Offside.Lower.Listing
import Offside.Token.Lexer
import Offside.Tree.Statement

/-!
# `Compile` — from source text to assembly

The three stages in a row: the tokens of a text, the tree of the tokens, the assembly of the tree. The
first stage that fails ends the compilation with its diagnostic. Each stage comes with a variant that also
gives the journal of the work done until then.
-/

namespace Offside

/-- The tree of a source text, with the journal of its reading. -/
def parseLogged (file source : String) : List Event × Except Diagnostic Module :=
  match Token.tokenize file source with
  | .error e => ([], .error e.diagnostic)
  | .ok tokens =>
    match Tree.parseModule tokens with
    | .error e => ([.tokensRead file tokens.length], .error e.diagnostic)
    | .ok m => ([.tokensRead file tokens.length, .statementsRead file m.body.length], .ok m)

/-- The tree of a source text. -/
def parse (file source : String) : Except Diagnostic Module := (parseLogged file source).2

/-- The assembly of a source text, with the journal of its making. -/
def compileLogged (options : Options) (file source : String) : List Event × Except Diagnostic Listing :=
  match parseLogged file source with
  | (events, .error d) => (events, .error d)
  | (events, .ok m) =>
    match generateLogged options m with
    | (more, .error e) => (events ++ more, .error e.diagnostic)
    | (more, .ok listing) => (events ++ more, .ok listing)

/-- The assembly of a source text. -/
def compile (options : Options) (file source : String) : Except Diagnostic Listing :=
  (compileLogged options file source).2

end Offside
