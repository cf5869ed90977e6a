import Mathlib
import Offside.Compile
import Offside.Proofs.Blame
import Offside.Proofs.Shape

/-!
# `Proofs.Targets` — code generation never refuses the target of a tree that was read

Code generation asks for the name of a target and fails without one. The targets of regular trees are names, and nothing
else fails that way (`generate_sparesTargets`). With the shape of trees that were read this is `parsed_tree_shape`.
-/

namespace Offside.Lower

/-- Where all targets are names, none is refused. -/
theorem piecewise_sparesTargets : Piecewise (FailsOnly (¬·.RefusesTarget)) (fun _ => True) True := by
  refine piecewise_failsOnly ?_ (fun _ _ _ hplain _ => hplain) fun hfree => absurd trivial hfree
  rintro e he ⟨loc, rfl⟩
  cases he

theorem generate_sparesTargets {options : Options} {m : Module} {e : Fault} (hm : Stmt.AllRegular m.body)
    (h : generate options m = .error e) : ¬e.RefusesTarget :=
  generate_failsOnly piecewise_sparesTargets (Stmt.allStartIn_of_forall (fun _ => trivial) m.body) (fun _ => hm) h

end Offside.Lower

namespace Offside

open Token (Kind)

theorem duplicateText_ne (tail : String) : "duplicate parameter '" ++ tail ≠ "assignment target must be a name" := by
  intro h
  -- the two texts differ in their first character
  have hhead := congrArg (fun text : String => text.toList.head?) h
  simp at hhead

/-- No other cause has the text of a target that is no name. -/
theorem Lower.Malformed.eq_targetNotName {what : Lower.Malformed}
    (h : what.message = "assignment target must be a name") : what = .targetNotName := by
  cases what with
  | targetNotName => rfl
  | duplicateParameter name function =>
      have htext : (Lower.Malformed.duplicateParameter name function).message =
          "duplicate parameter '" ++ (name ++ ("' in function '" ++ (function ++ "'"))) := by
        show "duplicate parameter '" ++ name ++ "' in function '" ++ function ++ "'" = _
        simp only [String.append_assoc]
      exact (duplicateText_ne _ (htext.symm.trans h)).elim
  | _ => exact absurd h (by decide +kernel)

/-- **The shape of a tree that is read.** Every statement is regular: comparisons have as many operands behind the first as
    operators, and at least one; assignments have a target, and their targets are names that are bound; all other names
    are read; and the numbers of the tree are the literals of the tokens, in order, where the least number stands for a
    minus sign and the literal `2 ^ 63` directly behind it. If the tokens are those of a text, no block is empty. And
    code generation never reports that a target is no name. -/
theorem parsed_tree_shape {ts : List Token} {m : Module} (h : Tree.parseModule ts = .ok m) :
    (∀ st ∈ m.body, st.Regular) ∧
      (∃ front back, ts = front ++ back ∧ Numerals (front.map Token.kind) (Stmt.allNumbers m.body)) ∧
      (∀ file source, Token.tokenize file source = .ok ts → ∀ st ∈ m.body, st.Filled) ∧
      ∀ options e, generate options m = .error e → ∀ loc,
        e.diagnostic ≠ .malformed "assignment target must be a name" loc := by
  obtain ⟨⟨rest, front, hts, hcomposes⟩, -⟩ := Tree.composes_parseModule h
  refine ⟨Stmt.allRegular_iff.mp hcomposes.regular, ⟨front, rest, hts, hcomposes.numerals⟩, ?_, ?_⟩
  · intro file source htokens
    have hspaced := Token.spaced_of_tokenize htokens
    rw [hts] at hspaced
    exact Stmt.allFilled_iff.mp (hcomposes.filled hspaced.left).2
  · intro options e hfails loc hreport
    have hspares := Lower.generate_sparesTargets hcomposes.regular hfails
    cases e with
    | malformed what place =>
        obtain ⟨hmessage, rfl⟩ := Diagnostic.malformed.inj hreport
        exact hspares ⟨place, by rw [Lower.Malformed.eq_targetNotName hmessage]⟩
    | _ => exact absurd hreport (by simp [Lower.Fault.diagnostic])

/-- A source with a block, a name that is bound, a comparison and the least number. -/
def boundSource : String := "if x:\n y = -9223372036854775808 < 1"

/-- The tokens of `boundSource`. -/
def boundTokens : List Token :=
  let token (k : Kind) (line first last : Nat) : Token := ⟨k, ⟨⟨"s", line, first⟩, ⟨"s", line, last⟩⟩⟩
  [token (.kw .if_) 1 1 3, token (.ident "x") 1 4 5, token (.sym .colon) 1 5 6,
    ⟨.newline, ⟨⟨"s", 1, 6⟩, ⟨"s", 2, 1⟩⟩⟩, token .indent 2 2 2, token (.ident "y") 2 2 3, token (.sym .equal) 2 4 5,
    token (.sym .minus) 2 6 7, token (.int (2 ^ 63)) 2 7 26, token (.sym .less) 2 27 28, token (.int 1) 2 29 30,
    token .newline 2 30 30, token .dedent 2 30 30, token .eof 2 30 30]

/-- The tree of `boundSource`. -/
def boundModule : Module :=
  let span (line first line' last : Nat) : Span := ⟨⟨"s", line, first⟩, ⟨"s", line', last⟩⟩
  ⟨[.cond (span 1 1 2 30) (.name (span 1 4 1 5) "x" .load)
      [.assign (span 2 2 2 30) [.name (span 2 2 2 3) "y" .store]
        (.compare (span 2 6 2 30) (.const (span 2 6 2 26) (.int (BitVec.intMin 64))) [.less]
          [.const (span 2 29 2 30) (.int 1)])] []], span 1 1 2 30⟩

set_option maxRecDepth 2000 in
theorem tokenize_boundSource : Token.tokenize "s" boundSource = .ok boundTokens := by cbv

theorem parseModule_boundTokens : Tree.parseModule boundTokens = .ok boundModule := by cbv

theorem parsed_tree_shape_boundModule :
    Token.tokenize "s" boundSource = .ok boundTokens ∧ Tree.parseModule boundTokens = .ok boundModule ∧
      (∀ st ∈ boundModule.body, st.Regular ∧ st.Filled) ∧ Stmt.allNumbers boundModule.body = [-2 ^ 63, 1] :=
  have h := parsed_tree_shape parseModule_boundTokens
  ⟨tokenize_boundSource, parseModule_boundTokens,
    fun st hst => ⟨h.1 st hst, h.2.2.1 "s" boundSource tokenize_boundSource st hst⟩, by decide⟩

end Offside
