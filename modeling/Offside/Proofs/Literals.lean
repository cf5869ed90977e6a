import Mathlib
import Offside.Lower.Listing
import Offside.Proofs.Grammar
import Offside.Proofs.Numerals
import Offside.Proofs.Script
import Offside.Proofs.Showing

/-!
# `Proofs.Literals` — numbers from their text to their code

The sign of a number is dealt with three times: the lexer reads a magnitude of 64 bits and leaves the sign to a token of its
own (`Token.outcome_decimal`, `Token.outcome_negative`), the parser takes magnitudes below 2⁶³ and, behind a minus sign, the
magnitude 2⁶³ itself (`Tree.exists_parse_literal`), and code generation takes a minus sign and a number together as one number
(`Lower.run_literal`). Together they are the identity on the numbers of 64 bits, and refuse every other number
(`literals_survive`).
-/

namespace Offside.Token

/-! ## Tokens -/

/-- The decimal numeral of a number. -/
def Numeral.decimal (m : Nat) : Numeral where
  mark := []
  radix := 10
  announced := by decide
  run := Nat.toDigits 10 m
  grouped := by
    intro d hd
    exact Or.inl (digitValue_of_isDigit (Nat.isDigit_of_mem_toDigits (by decide) (by decide) hd)).2
  digit_first := by
    intro _
    obtain ⟨d, ds, hds⟩ := List.exists_cons_of_ne_nil (Nat.toDigits_ne_nil (n := m) (b := 10))
    have hd : d ∈ Nat.toDigits 10 m := by rw [hds]; exact List.mem_cons_self
    rw [hds]
    exact ⟨d, rfl, (digitValue_of_isDigit (Nat.isDigit_of_mem_toDigits (by decide) (by decide) hd)).2⟩

section Decimal

variable (m : Nat)

/-- A decimal number starts with a digit. -/
theorem exists_toDigits_eq_cons : ∃ x xs, Nat.toDigits 10 m = x :: xs ∧ x.isDigit = true :=
  (Numeral.decimal m).exists_text_eq_cons

theorem Numeral.value_decimal : (Numeral.decimal m).value = m := by
  rw [← Numeral.ofDigits_digits, ← Numeral.filterMap_run]
  exact ofDigits_toDigits m

theorem Numeral.digits_decimal_ne_nil : (Numeral.decimal m).digits ≠ [] := by
  obtain ⟨x, xs, hx, hdigit⟩ := exists_toDigits_eq_cons m
  rw [← Numeral.filterMap_run]
  show (Nat.toDigits 10 m).filterMap (digit? 10) ≠ []
  rw [hx, List.filterMap_cons_some (digit_value hdigit).1]
  exact List.cons_ne_nil _ _

theorem readNumber_decimal : readNumber (Nat.toDigits 10 m) =
    if m < 2 ^ 64 then .ok ⟨.token (.int m), Nat.toDigits 10 m, []⟩ else .error ⟨.integerTooLarge, []⟩ := by
  have hended : Ended [] := by rintro d ⟨⟩
  have hread := (Numeral.decimal m).readNumber_ended hended
  rw [if_neg (Numeral.digits_decimal_ne_nil m), Numeral.value_decimal, List.append_nil] at hread
  exact hread

/-- Inside a line that ends with a decimal number, the number is read if it has at most 64 bits. -/
theorem Lexer.scan_decimal {lx : Lexer} (hstart : lx.lineStart = false) : lx.scan (Nat.toDigits 10 m) =
    if m < 2 ^ 64 then .ok (.int m :: .newline :: lx.levels.map (fun _ => .dedent) ++ [.eof])
    else .error .integerTooLarge := by
  obtain ⟨x, xs, hx, hdigit⟩ := exists_toDigits_eq_cons m
  have hread := readNumber_decimal m
  rw [hx, ← Item.read_digit hdigit] at hread
  rw [hx]
  by_cases hm : m < 2 ^ 64
  · rw [if_pos hm] at hread ⊢
    rw [scan_token hstart hread, scan_nil rfl]
    rfl
  · rw [if_neg hm] at hread ⊢
    apply Fails.outcome (e := ⟨.integerTooLarge, lx.pos.across []⟩)
    apply Fails.item _ rfl hread
    exact hstart

/-- A minus sign in front of a digit is a token of its own. -/
theorem Item.read_minus {x : Char} (xs : List Char) (hx : x.isDigit = true) :
    Item.read '-' (x :: xs) = .ok ⟨.token (.sym .minus), ['-'], x :: xs⟩ := by
  have hone : Item.read '-' [x] = .ok ⟨.token (.sym .minus), ['-'], [x]⟩ := by
    have hmem := digit_mem hx
    fin_cases hmem <;> rfl
  -- a symbol depends on the text behind it by its first character only
  have hsame : (x :: xs).head? = [x].head? ∨ Parted (x :: xs) := Or.inl rfl
  obtain ⟨tail, hused, hread⟩ := (Item.form_of_read hone).token_again hsame
  obtain rfl : [] = tail := (List.cons.inj hused).2
  exact hread

variable (file : String)

/-- **The tokens of a decimal number.** -/
theorem outcome_decimal : outcome (tokenize file (toString m)) =
    if m < 2 ^ 64 then .ok [.int m, .newline, .eof] else .error .integerTooLarge := by
  obtain ⟨x, xs, hx, hdigit⟩ := exists_toDigits_eq_cons m
  obtain ⟨hblank, hhash, -, hfeed, -⟩ := digit_head hdigit
  rw [Nat.toString_eq_ofList_toDigits, hx, Lexer.outcome_tokenize file hblank hhash hfeed, ← hx,
    Lexer.scan_decimal m rfl]
  rfl

/-- **The tokens of a negative number**: the sign, and the magnitude. -/
theorem outcome_negative : outcome (tokenize file ("-" ++ toString m)) =
    if m < 2 ^ 64 then .ok [.sym .minus, .int m, .newline, .eof] else .error .integerTooLarge := by
  obtain ⟨x, xs, hx, hdigit⟩ := exists_toDigits_eq_cons m
  have htext : "-" ++ toString m = String.ofList ('-' :: x :: xs) := by
    rw [Nat.toString_eq_ofList_toDigits, hx, ← String.toList_inj, String.toList_append]
    simp only [String.toList_ofList]
    rfl
  rw [htext, Lexer.outcome_tokenize file (by decide) (by decide) (by decide),
    Lexer.scan_token rfl (Item.read_minus xs hdigit), ← hx, Lexer.scan_decimal m rfl]
  split <;> rfl

end Decimal

/-- A text that comes to kinds of tokens has tokens of these kinds. -/
theorem exists_of_outcome_ok {r : Except Fault (List Token)} {ks : List Kind} (h : outcome r = .ok ks) :
    ∃ tokens, r = .ok tokens ∧ tokens.map Token.kind = ks := by
  cases r with
  | error e => exact absurd h (by simp [outcome])
  | ok tokens => exact ⟨tokens, rfl, Except.ok.inj h⟩

theorem exists_of_outcome_error {r : Except Fault (List Token)} {c : Cause} (h : outcome r = .error c) :
    ∃ e, r = .error e ∧ e.cause = c := by
  cases r with
  | error e => exact ⟨e, rfl, Except.error.inj h⟩
  | ok tokens => exact absurd h (by simp [outcome])

end Offside.Token

namespace Offside.Tree

/-! ## Trees -/

open Token (Kind)

variable {eof : Position} {ts : List Token} {e : Fault} {s t : Token} {rest : List Token} {m : Nat}

/-- A fault of an operand is a fault of the expression that starts with it. -/
theorem binary_error (h : unary eof ts = .error e) (level : Nat) : binary eof level ts = .error e := by
  induction level with
  | zero => rw [binary, h]
  | succ level ih =>
      rw [binary, ih]
      rfl

theorem expression_error (h : unary eof ts = .error e) : expression eof ts = .error e := by
  rw [expression, binary_error h]
  rfl

/-- A magnitude of 2⁶³ or more is no number by itself. -/
theorem unary_tooLarge (ht : t.kind = .int m) (hm : signBound ≤ m) :
    unary eof (t :: rest) = .error ⟨.literalTooLarge m, t.span.start⟩ := by
  have hatom : atom eof (t :: rest) = .error ⟨.literalTooLarge m, t.span.start⟩ := by
    rw [atom]
    simp only [ht, if_neg (Nat.not_lt.mpr hm)]
  rw [unary]
  simp only [ht, Kind.unaryOp?]
  rw [call, hatom]
  rfl

/-- A magnitude of more than 2⁶³ is no number behind a minus sign, either. -/
theorem unary_minus_tooLarge (hs : s.kind = .sym .minus) (ht : t.kind = .int m) (hm : signBound < m) :
    unary eof (s :: t :: rest) = .error ⟨.literalTooLarge m, t.span.start⟩ := by
  have hleast : leastNumber? .minus (t :: rest) = none := by
    rw [leastNumber?, if_neg]
    rintro ⟨-, hbound⟩
    rw [ht] at hbound
    exact absurd (Kind.int.inj hbound) (Nat.ne_of_gt hm)
  have hsign : s.kind.unaryOp? = some .minus := by rw [hs]; rfl
  rw [unary]
  simp only [hsign, hleast]
  rw [unary_tooLarge ht (Nat.le_of_lt hm)]
  rfl

end Offside.Tree

namespace Offside.Lower

/-! ## Code -/

open Machine

/-- The number that an expression is the literal of, with its sign. -/
def literal? : Expr → Option Word
  | .const _ (.int w) => some w
  | .unary _ op operand => negatedLiteral? op operand
  | _ => none

theorem negatedLiteral?_erase (op : UnaryOp) (e : Expr) : negatedLiteral? op e.erase = negatedLiteral? op e := by
  cases op with
  | plus | invert => rfl
  | minus =>
      cases e with
      | const s c => cases c <;> rfl
      | name | binary | unary | compare | call => rfl

theorem literal?_erase (e : Expr) : literal? e.erase = literal? e := by
  cases e with
  | const s c => cases c <;> rfl
  | unary s op operand => exact negatedLiteral?_erase op operand
  | name | binary | compare | call => rfl

/-- **The code of a literal**, generated from nothing: the number is loaded into the first temporary and put on the stack. -/
theorem run_literal (o : Options) {e : Expr} {w : Word} (h : literal? e = some w) :
    ∃ t, (lowerExpr e).run (.initial o) = .ok () t ∧ t.code.toList = (.li .t0 w :: push .t0).map .instr ∧
      t.pool.inUse = [] := by
  -- both kinds of literal come down to the same script
  have hpush : ∃ t, (do pushLiteral w; milestone .expression).run (.initial o) = .ok () t ∧
      t.code.toList = (.li .t0 w :: push .t0).map .instr ∧ t.pool.inUse = [] := ⟨_, rfl, rfl, rfl⟩
  cases e with
  | const s c =>
      cases c with
      | int v =>
          obtain rfl : v = w := Option.some.inj h
          exact hpush
      | bool b => cases h
      | str b => cases h
  | unary s op operand =>
      have hfold : negatedLiteral? op operand = some w := h
      rw [lowerExpr, hfold]
      exact hpush
  | name | binary | compare | call => cases h

end Offside.Lower

namespace Offside.Tree

open Token (Kind)
open Lower (literal?)

/-! ## Numbers -/

/-- The tokens of a number: its sign, if it is negative, and its magnitude. -/
def literalKinds (w : Word) : List Kind :=
  if 0 ≤ w.toInt then [.int w.toInt.toNat] else [.sym .minus, .int (-w.toInt).toNat]

/-- The tokens of a number are an expression, and that expression is a literal of the number. -/
theorem exists_derives_literal (w : Word) : ∃ e, Derives .expression (literalKinds w) e ∧ literal? e = some w := by
  have hlow : -2 ^ 63 ≤ w.toInt := w.le_toInt
  have hhigh : w.toInt < 2 ^ 63 := w.toInt_lt
  have hbound : signBound = 2 ^ 63 := rfl
  have hword : BitVec.ofInt 64 w.toInt = w := w.ofInt_toInt
  unfold literalKinds
  by_cases hsign : 0 ≤ w.toInt
  · rw [if_pos hsign]
    have hmagnitude : BitVec.ofNat 64 w.toInt.toNat = w := by
      rw [← BitVec.ofInt_natCast, Int.toNat_of_nonneg hsign, hword]
    have hint : Derives .atom [.int w.toInt.toNat] _ := .int (by omega)
    rw [hmagnitude] at hint
    exact ⟨_, hint.atom.operand.expression, rfl⟩
  · rw [if_neg hsign]
    by_cases hleast : w.toInt = -2 ^ 63
    -- The magnitude of the least number is no number by itself.
    · have hmin : BitVec.intMin 64 = w := by
        apply BitVec.eq_of_toInt_eq
        rw [hleast]
        rfl
      have hmagnitude : (-w.toInt).toNat = signBound := by rw [hleast]; rfl
      rw [hmagnitude]
      exact ⟨_, Derives.least.expression, by rw [literal?, hmin]⟩
    · have hmagnitude : -BitVec.ofNat 64 (-w.toInt).toNat = w := by
        rw [← BitVec.ofInt_natCast, Int.toNat_of_nonneg (by omega), BitVec.ofInt_neg, BitVec.neg_neg, hword]
      have hint : Derives .atom [.int (-w.toInt).toNat] _ := .int (by omega)
      have hminus : (.minus, .minus) ∈ signs := by decide
      refine ⟨_, (Derives.unary hminus hint.atom.operand).expression, ?_⟩
      exact congrArg some hmagnitude

/-- Tokens of a number, with the end of a line behind them, are read as a literal of the number. -/
theorem exists_parse_literal {tokens : List Token} {w : Word}
    (h : tokens.map Token.kind = literalKinds w ++ [.newline, .eof]) : ∃ p, parseExpression tokens = .ok p ∧
      p.rest.map Token.kind = [.newline, .eof] ∧ literal? p.value = some w := by
  obtain ⟨e, hderives, hliteral⟩ := exists_derives_literal w
  obtain ⟨front, rest, rfl, hfront, hrest⟩ := List.map_eq_append_iff.mp h
  obtain ⟨newline, rest, rfl, hnewline, -⟩ := List.map_eq_cons_iff.mp hrest
  have hspells : Spells (front ++ newline :: rest) (literalKinds w) (newline :: rest) := ⟨front, hfront, rfl⟩
  obtain ⟨v, hlen, hparse, herase⟩ :=
    hderives.completes (eofOf (front ++ newline :: rest)) hspells (ends_of_kind hnewline rfl)
  refine ⟨_, hparse, hrest, ?_⟩
  rw [← hliteral, ← herase, Lower.literal?_erase]

end Offside.Tree

namespace Offside

open Machine Token Offside.Tree Lower

variable (file : String)

/-- **The tokens of a number's decimal text.** -/
theorem outcome_literal (w : Word) :
    outcome (tokenize file (toString w.toInt)) = .ok (literalKinds w ++ [.newline, .eof]) := by
  have hlow : -2 ^ 63 ≤ w.toInt := w.le_toInt
  have hhigh : w.toInt < 2 ^ 63 := w.toInt_lt
  rw [Int.toString_eq_repr, Int.repr_eq_if, literalKinds]
  by_cases hsign : 0 ≤ w.toInt
  · rw [if_pos hsign, if_pos hsign, ← Nat.toString_eq_repr, outcome_decimal, if_pos (by omega)]
    rfl
  · rw [if_neg hsign, if_neg hsign, ← Nat.toString_eq_repr, outcome_negative, if_pos (by omega)]
    rfl

/-- The text of a magnitude is refused: by the parser, if the magnitude has at most 64 bits, and by the lexer otherwise. -/
def Refused (text : String) (m : Nat) : Prop :=
  if m < 2 ^ 64 then ∃ tokens e, tokenize file text = .ok tokens ∧ parseExpression tokens = .error e ∧
    e.cause = .literalTooLarge m
  else ∃ e, tokenize file text = .error e ∧ e.cause = .integerTooLarge

/-- A text is refused if the lexer has the magnitude as a token or refuses it, and the parser has no use for that token. -/
theorem refused_of_outcome {text : String} {m : Nat} {ks : List Kind}
    (hlex : outcome (tokenize file text) = if m < 2 ^ 64 then .ok ks else .error .integerTooLarge)
    (hparse : ∀ tokens, tokens.map Token.kind = ks →
      ∃ place, unary (eofOf tokens) tokens = .error ⟨.literalTooLarge m, place⟩) : Refused file text m := by
  unfold Refused
  by_cases hm : m < 2 ^ 64
  · rw [if_pos hm] at hlex ⊢
    obtain ⟨tokens, htokens, hkinds⟩ := exists_of_outcome_ok hlex
    obtain ⟨place, hunary⟩ := hparse tokens hkinds
    exact ⟨tokens, _, htokens, expression_error hunary, rfl⟩
  · rw [if_neg hm] at hlex ⊢
    exact exists_of_outcome_error hlex

theorem refused_decimal {m : Nat} (hm : 2 ^ 63 ≤ m) : Refused file (toString m) m := by
  apply refused_of_outcome file (outcome_decimal m file)
  intro tokens hkinds
  obtain ⟨t, rest, rfl, ht, -⟩ := List.map_eq_cons_iff.mp hkinds
  exact ⟨_, unary_tooLarge ht hm⟩

theorem refused_negative {m : Nat} (hm : 2 ^ 63 < m) : Refused file ("-" ++ toString m) m := by
  apply refused_of_outcome file (outcome_negative m file)
  intro tokens hkinds
  obtain ⟨s, rest, rfl, hs, hrest⟩ := List.map_eq_cons_iff.mp hkinds
  obtain ⟨t, rest, rfl, ht, -⟩ := List.map_eq_cons_iff.mp hrest
  exact ⟨_, unary_minus_tooLarge hs ht hm⟩

/-- **Numbers survive.** The decimal text of every number of 64 bits is read whole, as an expression whose code loads
    that number into the first temporary, makes room for a word on the stack and stores it there, and leaves no register
    in use. Every other magnitude is refused, with and without a minus sign. -/
theorem literals_survive (o : Options) :
    (∀ w : Word, ∃ tokens, ∃ p : Parsed Expr tokens, ∃ t : State,
      tokenize file (toString w.toInt) = .ok tokens ∧
      parseExpression tokens = .ok p ∧ p.rest.map Token.kind = [.newline, .eof] ∧
      (lowerExpr p.value).run (.initial o) = .ok () t ∧
      t.code.toList = [.instr (.li .t0 w), .instr (.addi .sp .sp (-8)), .instr (.sd .t0 0 .sp)] ∧ t.pool.inUse = []) ∧
    (∀ m : Nat, 2 ^ 63 ≤ m → Refused file (toString m) m) ∧
    ∀ m : Nat, 2 ^ 63 < m → Refused file ("-" ++ toString m) m := by
  refine ⟨?_, fun m hm => refused_decimal file hm, fun m hm => refused_negative file hm⟩
  intro w
  obtain ⟨tokens, htokens, hkinds⟩ := exists_of_outcome_ok (outcome_literal file w)
  obtain ⟨p, hparse, hrest, hliteral⟩ := exists_parse_literal hkinds
  obtain ⟨t, hrun, hcode, hpool⟩ := run_literal o hliteral
  exact ⟨tokens, p, t, htokens, hparse, hrest, hrun, hcode, hpool⟩

/-- At the bounds: the least number of 64 bits comes through with its sign and is refused without it, and one less than it
    is refused with its sign. -/
theorem literals_survive_bounds :
    (∃ tokens, ∃ p : Parsed Expr tokens, ∃ t : State, tokenize "" "-9223372036854775808" = .ok tokens ∧
      parseExpression tokens = .ok p ∧ (lowerExpr p.value).run (.initial {}) = .ok () t ∧
      t.code.toList = [.instr (.li .t0 (BitVec.intMin 64)), .instr (.addi .sp .sp (-8)), .instr (.sd .t0 0 .sp)] ∧
      t.pool.inUse = []) ∧
    Refused "" (toString (2 ^ 63)) (2 ^ 63) ∧ Refused "" ("-" ++ toString (2 ^ 63 + 1)) (2 ^ 63 + 1) := by
  obtain ⟨hsurvive, hrefuse, hrefuse'⟩ := literals_survive "" {}
  refine ⟨?_, hrefuse _ (by decide), hrefuse' _ (by decide)⟩
  obtain ⟨tokens, p, t, htokens, hparse, _, hcode⟩ := hsurvive (BitVec.intMin 64)
  have htext : toString (BitVec.intMin 64).toInt = "-9223372036854775808" := by decide
  rw [htext] at htokens
  exact ⟨tokens, p, t, htokens, hparse, hcode⟩

end Offside
