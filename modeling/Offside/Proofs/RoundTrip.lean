import Mathlib
import Offside.Compile
import Offside.Proofs.Blocks

/-!
# `Proofs.RoundTrip` — reading what was written

A module of the shape that is read, written out in any style, is read back as itself (`parse_render`): the
lexer gives the tokens of its lines with their layout, and the parser gives the tree of the tokens. The two may
differ only in the places that the nodes carry.
-/

namespace Offside

open Token (Outline)

/-- The tokens of a module that is written out. -/
theorem tokenize_render (file : String) (style : Style) {m : Module} (hm : m.isShaped = true)
    (hfits : style.step * m.nesting style < 2 ^ 32) : ∃ tokens,
    Token.tokenize file (m.render style) = .ok tokens ∧
      tokens.map Token.kind = Outline.kindsOf (style.outlines m.body) ++ [.eof] :=
  Token.tokenize_outlines file style.step_pos hfits (style.legible_outlines m.body hm style.step 0)

/-- Once the tokens of a source are there, its tree is that of the tokens. -/
theorem parse_of_tokenize {file source : String} {tokens : List Token}
    (h : Token.tokenize file source = .ok tokens) :
    parse file source = (Tree.parseModule tokens).mapError Tree.Fault.diagnostic := by
  unfold parse parseLogged
  rw [h]
  dsimp only
  cases Tree.parseModule tokens <;> rfl

/-- **The front end reads back what is written**, whatever the step of indentation is, whether conditionals are
    chained by `elif` or nested below `else`, and whether or not the outermost parentheses are there. The deepest
    block has to be indented by fewer than `2 ^ 32` columns. -/
theorem parse_render (file : String) (style : Style) (m : Module) (hm : m.isShaped = true)
    (hfits : style.step * m.nesting style < 2 ^ 32) :
    ∃ m', parse file (m.render style) = .ok m' ∧ m'.erase = m.erase := by
  obtain ⟨tokens, htokens, hkinds⟩ := tokenize_render file style hm hfits
  obtain ⟨m', hm', herase⟩ := Tree.parseModule_kinds hm hkinds
  refine ⟨m', ?_, herase⟩
  rw [parse_of_tokenize htokens, hm']
  rfl

/-- A module whose blocks end two at a time, with a chained conditional, the least number and a string that
    needs escapes. -/
def sampleModule : Module :=
  let x : Expr := .name default "x" .load
  ⟨[.funcDef default "sign" ["x", "y"]
      [.cond default (.compare default x [.less, .lessEqual] [.const default (.int 0), x])
        [.ret default (some (.const default (.int (BitVec.intMin 64))))]
        [.cond default (.unary default .minus x)
          [.loop default (.const default (.bool true)) [.pass default]]
          [.ret default none]]],
    .assign default [.name default "x" .store, .name default "y" .store]
      (.call default (.name default "sign" .load) [.const default (.str "a\t\x22b\\n"), x]),
    .augAssign default (.name default "x" .store) .leftShift (.binary default x .mul x),
    .expr default x], default⟩

theorem parse_render_sampleModule : sampleModule.isShaped = true ∧
    3 * sampleModule.nesting ⟨3, by decide, true, true⟩ < 2 ^ 32 ∧
    ∃ m', parse "sample" (sampleModule.render ⟨3, by decide, true, true⟩) = .ok m' ∧ m'.erase = sampleModule.erase :=
  ⟨by decide, by decide, parse_render "sample" ⟨3, by decide, true, true⟩ sampleModule (by decide) (by decide)⟩

/-- A conditional with a block of one line. -/
def blockModule : Module := ⟨[.cond default (.const default (.int 0)) [.pass default] []], default⟩

/-- Blocks indented so far that the width of their margin is 0 again. -/
def wideStyle : Style := ⟨2 ^ 32, by decide, false, false⟩

/-- The tokens of the block open no level. -/
theorem tokenize_wide (file : String) : ∃ tokens, Token.tokenize file (blockModule.render wideStyle) = .ok tokens ∧
    tokens.map Token.kind = [.kw .if_, .int 0, .sym .colon, .newline, .kw .pass_, .newline, .eof] := by
  refine Token.tokenize_rows file (wideStyle.legible_outlines blockModule.body (by decide) wideStyle.step 0) ?_
  rfl

/-- Where the level should be opened, the parser finds the first statement of the block. -/
theorem parseModule_wide {tokens : List Token}
    (h : tokens.map Token.kind = [.kw .if_, .int 0, .sym .colon, .newline, .kw .pass_, .newline, .eof]) :
    ∃ place, Tree.parseModule tokens = .error ⟨.mismatch (.kind .indent .ifStatement) (.kw .pass_), place⟩ := by
  match tokens, h with
  | [⟨_, s₁⟩, ⟨_, s₂⟩, ⟨_, s₃⟩, ⟨_, s₄⟩, ⟨_, s₅⟩, ⟨_, s₆⟩, ⟨_, s₇⟩], rfl => exact ⟨s₅.start, by cbv⟩

/-- **A block that is indented by `2 ^ 32` columns is not read back.** -/
theorem block_lost_behind_wide_margin : blockModule.isShaped = true ∧
    wideStyle.step * blockModule.nesting wideStyle = 2 ^ 32 ∧
    ¬ ∃ m', parse "sample" (blockModule.render wideStyle) = .ok m' ∧ m'.erase = blockModule.erase := by
  have hnesting : blockModule.nesting wideStyle = 1 := by decide
  refine ⟨by decide, by rw [hnesting, Nat.mul_one]; rfl, ?_⟩
  rintro ⟨m', hparse, -⟩
  obtain ⟨tokens, htokens, hkinds⟩ := tokenize_wide "sample"
  obtain ⟨place, herror⟩ := parseModule_wide hkinds
  rw [parse_of_tokenize htokens, herror] at hparse
  exact absurd hparse nofun

end Offside
