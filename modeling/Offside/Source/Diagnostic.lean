import Offside.Source.Position

/-!
# `Source.Diagnostic` — what a failed compilation reports

Every failure is fatal and is reported as one `Diagnostic`: its kind, its text (`Diagnostic.message`) and
the place it points at (`Diagnostic.position?`). Only failures of the compiler itself or of the system
around it have no place. The stages that fail (`Token.Lexer`, `Tree.Fault`, `Lower.Fault`) keep causes of
their own and turn them into diagnostics at the end.
-/

namespace Offside

/-- What an undefined name was used as. -/
inductive NameKind where
  | var
  | fn
deriving DecidableEq

namespace NameKind

/-- The word for the kind in messages. -/
def text : NameKind → String
  | .var => "variable"
  | .fn => "function"

end NameKind

/-- A fatal failure, as the user sees it. -/
inductive Diagnostic where
  | lexical (detail : String) (loc : Position)
  | parse (detail : String) (loc : Position)
  | undefinedName (kind : NameKind) (name : String) (loc : Position)
  | duplicateFunction (name : String) (loc : Position)
  | arityMismatch (name : String) (expected found : Nat) (loc : Position)
  | unsupported (construct : String) (loc : Position)
  | malformed (detail : String) (loc : Position)
  | registersExhausted (family : String)
  | inputOutput (detail : String)
  | internal (detail : String)
deriving DecidableEq

namespace Diagnostic

/-- The place the failure points at, if it has one. -/
def position? : Diagnostic → Option Position
  | .lexical _ loc | .parse _ loc | .undefinedName _ _ loc | .duplicateFunction _ loc
  | .arityMismatch _ _ _ loc | .unsupported _ loc | .malformed _ loc => some loc
  | .registersExhausted _ | .inputOutput _ | .internal _ => none

/-- The text of the failure. -/
def message : Diagnostic → String
  | .lexical detail loc => "Lexical error at " ++ loc.text ++ ": " ++ detail
  | .parse detail loc => "Parse error at " ++ loc.text ++ ": " ++ detail
  | .undefinedName kind name loc => "Undefined " ++ kind.text ++ " '" ++ name ++ "' at " ++ loc.text
  | .duplicateFunction name loc =>
      "Function '" ++ name ++ "' is already defined in this scope at " ++ loc.text
  | .arityMismatch name expected found loc =>
      "Function '" ++ name ++ "' takes " ++ toString expected ++ " argument(s) but "
        ++ toString found ++ " were given at " ++ loc.text
  | .unsupported construct loc => "Unsupported construct at " ++ loc.text ++ ": " ++ construct
  | .malformed detail loc => "Malformed statement at " ++ loc.text ++ ": " ++ detail
  | .registersExhausted family =>
      "Internal compiler error: no " ++ family ++ " register available after spilling"
  | .inputOutput detail => "IO error: " ++ detail
  | .internal detail => "Internal compiler error: " ++ detail

end Diagnostic

end Offside
