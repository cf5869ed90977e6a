import Offside.Proofs.Rendering

/-!
# `Proofs.Grammar` — which expressions the parser reads

The grammar of expressions is a relation between kinds of tokens and trees (`Derives`), one category for each
level of precedence. It has its own tables of operators, level by level (`operatorsAt`), and those of the parser agree
with them (`mem_operatorsAt`). The parser decides the grammar (`expression_decides_grammar`):

* **Completeness.** A derivation is followed rule by rule (`Derives.completes`). A left operand is read before
  anyone knows that an operator comes behind it, so what is proved of a binary phrase is that the parser comes to
  the loop over the operators of its level with the tree of the phrase in hand, and likewise for calls.
* **Soundness.** Each function of the parser is followed down its recursion (`reads_expression`): what it takes
  off the tokens is a phrase of its category, and what it leaves cannot go on the phrase.

Trees are compared without the places they were read from (`Expr.erase`).
-/

namespace Offside

/-! ## Operators and their symbols -/

theorem BinaryOp.symbol_of_ofSymbol? {s : Symbol} {op : BinaryOp} (h : ofSymbol? s = some op) : s = op.symbol := by
  cases s <;> cases h <;> rfl

theorem UnaryOp.symbol_of_ofSymbol? {s : Symbol} {op : UnaryOp} (h : ofSymbol? s = some op) : s = op.symbol := by
  cases s <;> cases h <;> rfl

theorem CompareOp.symbol_of_ofSymbol? {s : Symbol} {op : CompareOp} (h : ofSymbol? s = some op) : s = op.symbol := by
  cases s <;> cases h <;> rfl

namespace Token.Kind

variable {k : Kind}

theorem binaryOp?_eq_some {op : BinaryOp} : k.binaryOp? = some op ↔ k = .sym op.symbol := by
  constructor
  · intro h
    cases k with
    | sym s => rw [BinaryOp.symbol_of_ofSymbol? h]
    | _ => exact absurd h (by simp [binaryOp?])
  · rintro rfl
    exact op.ofSymbol?_symbol

theorem unaryOp?_eq_some {op : UnaryOp} : k.unaryOp? = some op ↔ k = .sym op.symbol := by
  constructor
  · intro h
    cases k with
    | sym s => rw [UnaryOp.symbol_of_ofSymbol? h]
    | _ => exact absurd h (by simp [unaryOp?])
  · rintro rfl
    exact op.ofSymbol?_symbol

theorem compareOp?_eq_some {op : CompareOp} : k.compareOp? = some op ↔ k = .sym op.symbol := by
  constructor
  · intro h
    cases k with
    | sym s => rw [CompareOp.symbol_of_ofSymbol? h]
    | _ => exact absurd h (by simp [compareOp?])
  · rintro rfl
    exact op.ofSymbol?_symbol

theorem binaryOpAt?_eq_some {n : Nat} {op : BinaryOp} :
    k.binaryOpAt? n = some op ↔ k.binaryOp? = some op ∧ op.level = n := by
  unfold binaryOpAt?
  rw [Option.filter_eq_some_iff, beq_iff_eq]

theorem binaryOpAt?_eq_none {n : Nat} : k.binaryOpAt? n = none ↔ ∀ op, k.binaryOp? = some op → op.level ≠ n := by
  unfold binaryOpAt?
  rw [Option.filter_eq_none_iff]
  simp only [beq_iff_eq, ne_eq]

end Token.Kind

end Offside

namespace Offside.Tree

open Token (Kind parens commaList)

variable {α : Type} {eof : Position} {ts ts' rest : List Token} {ks ks' : List Kind} {t : Token}

/-! ## Tokens and results -/

/-- The tokens are tokens of the given kinds in front of the rest. -/
def Spells (ts : List Token) (ks : List Kind) (rest : List Token) : Prop :=
  ∃ front : List Token, front.map Token.kind = ks ∧ ts = front ++ rest

theorem spells_nil : Spells ts [] rest ↔ ts = rest := by
  constructor
  · rintro ⟨front, hfront, rfl⟩
    rw [List.map_eq_nil_iff.mp hfront, List.nil_append]
  · rintro rfl
    exact ⟨[], rfl, rfl⟩

theorem spells_cons {k : Kind} :
    Spells ts (k :: ks) rest ↔ ∃ t ts', ts = t :: ts' ∧ t.kind = k ∧ Spells ts' ks rest := by
  constructor
  · rintro ⟨front, hfront, rfl⟩
    obtain ⟨t, front, rfl, hk, hfront⟩ := List.map_eq_cons_iff.mp hfront
    exact ⟨t, front ++ rest, rfl, hk, front, hfront, rfl⟩
  · rintro ⟨t, ts', rfl, rfl, front, rfl, rfl⟩
    exact ⟨t :: front, rfl, rfl⟩

theorem spells_append : Spells ts (ks ++ ks') rest ↔ ∃ mid, Spells ts ks mid ∧ Spells mid ks' rest := by
  constructor
  · rintro ⟨front, hfront, rfl⟩
    obtain ⟨front, front', rfl, hks, hks'⟩ := List.map_eq_append_iff.mp hfront
    exact ⟨front' ++ rest, ⟨front, hks, List.append_assoc ..⟩, front', hks', rfl⟩
  · rintro ⟨mid, ⟨front, rfl, rfl⟩, front', rfl, rfl⟩
    exact ⟨front ++ front', List.map_append, (List.append_assoc ..).symm⟩

theorem spells_singleton {k : Kind} : Spells ts [k] rest ↔ ∃ t, ts = t :: rest ∧ t.kind = k := by
  rw [spells_cons]
  constructor
  · rintro ⟨t, ts', rfl, ht, hts'⟩
    exact ⟨t, by rw [spells_nil.mp hts'], ht⟩
  · rintro ⟨t, rfl, ht⟩
    exact ⟨t, rest, rfl, ht, spells_nil.mpr rfl⟩

theorem spells_parens : Spells ts (parens ks) rest ↔ ∃ first ts' last, ts = first :: ts' ∧
    first.kind = .sym .leftParen ∧ Spells ts' ks (last :: rest) ∧ last.kind = .sym .rightParen := by
  rw [parens, List.cons_append, spells_cons]
  constructor
  · rintro ⟨first, ts', rfl, hfirst, hts'⟩
    obtain ⟨mid, hinner, hmid⟩ := spells_append.mp hts'
    obtain ⟨last, rfl, hlast⟩ := spells_singleton.mp hmid
    exact ⟨first, ts', last, rfl, hfirst, hinner, hlast⟩
  · rintro ⟨first, ts', last, rfl, hfirst, hinner, hlast⟩
    refine ⟨first, ts', rfl, hfirst, spells_append.mpr ⟨_, hinner, ?_⟩⟩
    exact spells_singleton.mpr ⟨last, rfl, hlast⟩

/-- A value with the property is read, up to the rest. -/
def Yields (r : Except Fault (Parsed α ts)) (rest : List Token) (P : α → Prop) : Prop :=
  ∃ v h, r = .ok ⟨v, rest, h⟩ ∧ P v

/-- A value with the property is read, up to the rest, perhaps from no token. -/
def Trails (r : Except Fault (Trail α ts)) (rest : List Token) (P : α → Prop) : Prop :=
  ∃ v h, r = .ok ⟨v, rest, h⟩ ∧ P v

theorem expect_token {k : Kind} (context : Context) (h : t.kind = k) :
    expect eof k context (t :: rest) = .ok (.token t t rest) := by
  rw [expect, if_pos h]

theorem erase_withSpan (s : Span) (e : Expr) : (e.withSpan s).erase = e.erase := by
  cases e <;> simp only [Expr.withSpan, Expr.erase]

theorem eraseAll_eq_map (es : List Expr) : Expr.eraseAll es = es.map Expr.erase := by
  induction es with
  | nil => rfl
  | cons e es ih => rw [Expr.eraseAll, ih, List.map_cons]

theorem erase_comparisonOf (left : Expr) {pairs : List (CompareOp × Expr)} (hne : pairs ≠ []) :
    (comparisonOf left pairs).erase =
      .compare default left.erase (pairs.map (·.1)) ((pairs.map (·.2)).map Expr.erase) := by
  unfold comparisonOf
  rw [List.getLast?_eq_getLast_of_ne_nil hne, Expr.erase, eraseAll_eq_map]

/-! ## The grammar -/

/-- The symbols that stand before an operand, and their operators. -/
def signs : List (Symbol × UnaryOp) := [(.plus, .plus), (.minus, .minus), (.tilde, .invert)]

/-- **The six levels of precedence**, from 1 for the tightest, each with its symbols and their operators. -/
def operatorsAt : Nat → List (Symbol × BinaryOp)
  | 1 => [(.star, .mul), (.slash, .div), (.slashSlash, .floorDiv), (.percent, .mod)]
  | 2 => [(.plus, .add), (.minus, .sub)]
  | 3 => [(.leftShift, .leftShift), (.rightShift, .rightShift)]
  | 4 => [(.ampersand, .bitAnd)]
  | 5 => [(.caret, .bitXor)]
  | 6 => [(.pipe, .bitOr)]
  | _ => []

/-- The symbols of comparisons, which are looser than all levels. -/
def comparisonSymbols : List (Symbol × CompareOp) :=
  [(.less, .less), (.lessEqual, .lessEqual), (.greater, .greater), (.greaterEqual, .greaterEqual),
    (.equalEqual, .equal), (.bangEqual, .notEqual)]

/-- The categories of phrases, the tightest first. Level 0 of the binary phrases has no operators. -/
inductive Category where
  | atom
  | call
  | unary
  | binary (level : Nat)
  | expression
deriving DecidableEq

/-- What may stand behind the arguments of a call: nothing, or one comma if there are any arguments. -/
def Trailing (args : List (List Kind × Expr)) (tail : List Kind) : Prop :=
  tail = [] ∨ args ≠ [] ∧ tail = [.sym .comma]

/-- The tokens of comparisons: each symbol, and the right operand behind it. -/
def chainKinds (pairs : List ((Symbol × CompareOp) × List Kind × Expr)) : List Kind :=
  pairs.flatMap fun p => .sym p.1.1 :: p.2.1

/-- **The grammar of expressions.** `Derives c ks e` says that tokens of the kinds `ks` are a phrase of category
    `c`, and that `e` is its tree, without places. -/
inductive Derives : Category → List Kind → Expr → Prop where
  | int {n : Nat} (hn : n < 2 ^ 63) : Derives .atom [.int n] (.const default (.int (BitVec.ofNat 64 n)))
  | true_ : Derives .atom [.kw .true_] (.const default (.bool true))
  | false_ : Derives .atom [.kw .false_] (.const default (.bool false))
  | str (value : String) : Derives .atom [.str value] (.const default (.str value))
  | name (id : String) : Derives .atom [.ident id] (.name default id .load)
  /-- Parentheses leave no trace in the tree. -/
  | parens {ks : List Kind} {e : Expr} : Derives .expression ks e → Derives .atom (parens ks) e
  | atom {ks : List Kind} {e : Expr} : Derives .atom ks e → Derives .call ks e
  | call {ks tail : List Kind} {f : Expr} {args : List (List Kind × Expr)} :
      Derives .call ks f → (∀ arg ∈ args, Derives .expression arg.1 arg.2) → Trailing args tail →
      Derives .call (ks ++ Token.parens (commaList (args.map (·.1)) ++ tail)) (.call default f (args.map (·.2)))
  | operand {ks : List Kind} {e : Expr} : Derives .call ks e → Derives .unary ks e
  /-- The least number has no literal: it is the literal one too large, behind a minus sign. -/
  | least : Derives .unary [.sym .minus, .int (2 ^ 63)] (.const default (.int (BitVec.intMin 64)))
  | unary {s : Symbol} {op : UnaryOp} {ks : List Kind} {e : Expr} : (s, op) ∈ signs →
      Derives .unary ks e → Derives .unary (.sym s :: ks) (.unary default op e)
  | tightest {ks : List Kind} {e : Expr} : Derives .unary ks e → Derives (.binary 0) ks e
  | looser {n : Nat} {ks : List Kind} {e : Expr} : Derives (.binary n) ks e → Derives (.binary (n + 1)) ks e
  /-- Operators of a level group to the left: the right operand is of the next tighter level. -/
  | binary {n : Nat} {s : Symbol} {op : BinaryOp} {ks ks' : List Kind} {l r : Expr} : (s, op) ∈ operatorsAt (n + 1) →
      Derives (.binary (n + 1)) ks l → Derives (.binary n) ks' r →
      Derives (.binary (n + 1)) (ks ++ .sym s :: ks') (.binary default l op r)
  | whole {ks : List Kind} {e : Expr} : Derives (.binary 6) ks e → Derives .expression ks e
  /-- A chain of comparisons is one node. -/
  | compare {ks : List Kind} {l : Expr} {pairs : List ((Symbol × CompareOp) × List Kind × Expr)} : pairs ≠ [] →
      (∀ p ∈ pairs, p.1 ∈ comparisonSymbols) → Derives (.binary 6) ks l →
      (∀ p ∈ pairs, Derives (.binary 6) p.2.1 p.2.2) →
      Derives .expression (ks ++ chainKinds pairs) (.compare default l (pairs.map (·.1.2)) (pairs.map (·.2.2)))

/-! The parser finds an operator by its symbol and keeps its level with it. -/

theorem mem_signs {s : Symbol} {op : UnaryOp} : (s, op) ∈ signs ↔ s = op.symbol := by
  constructor
  · have hall : ∀ p ∈ signs, p.1 = p.2.symbol := by decide
    exact hall (s, op)
  · rintro rfl
    cases op <;> decide

/-- **The parser's table of levels is the grammar's.** -/
theorem mem_operatorsAt {n : Nat} {s : Symbol} {op : BinaryOp} :
    (s, op) ∈ operatorsAt n ↔ s = op.symbol ∧ op.level = n := by
  constructor
  · have hall : ∀ p ∈ operatorsAt n, p.1 = p.2.symbol ∧ p.2.level = n := by
      unfold operatorsAt
      split <;> simp [BinaryOp.symbol, BinaryOp.level]
    exact hall (s, op)
  · rintro ⟨rfl, rfl⟩
    cases op <;> decide

theorem mem_comparisonSymbols {s : Symbol} {op : CompareOp} : (s, op) ∈ comparisonSymbols ↔ s = op.symbol := by
  constructor
  · have hall : ∀ p ∈ comparisonSymbols, p.1 = p.2.symbol := by decide
    exact hall (s, op)
  · rintro rfl
    cases op <;> decide

/-- The first token of a phrase. A sign stands only in front of phrases of the looser categories. -/
theorem Derives.exists_cons {c : Category} {e : Expr} (h : Derives c ks e) : ∃ k ks', ks = k :: ks' ∧
    k ≠ .int signBound ∧ k ≠ .sym .rightParen ∧ (c = .atom ∨ c = .call → k.unaryOp? = none) := by
  induction h with
  | int hn =>
      refine ⟨_, _, rfl, ?_, by simp, fun _ => rfl⟩
      rintro heq
      exact absurd (Kind.int.inj heq) (Nat.ne_of_lt hn)
  | true_ | false_ | str | name | parens => exact ⟨_, _, rfl, by simp, by simp, fun _ => rfl⟩
  | least => exact ⟨_, _, rfl, by simp, by simp, by simp⟩
  | @unary s op _ _ hop =>
      obtain rfl := mem_signs.mp hop
      exact ⟨_, _, rfl, by simp, by cases op <;> simp [UnaryOp.symbol], by simp⟩
  | atom _ ih =>
      obtain ⟨k, ks', rfl, hint, hparen, hsign⟩ := ih
      exact ⟨k, ks', rfl, hint, hparen, fun _ => hsign (Or.inl rfl)⟩
  | call _ _ _ ih =>
      obtain ⟨k, ks', rfl, hint, hparen, hsign⟩ := ih
      exact ⟨k, _, rfl, hint, hparen, fun _ => hsign (Or.inr rfl)⟩
  | operand _ ih | tightest _ ih | looser _ ih | whole _ ih =>
      obtain ⟨k, ks', rfl, hint, hparen, _⟩ := ih
      exact ⟨k, ks', rfl, hint, hparen, by simp⟩
  | binary _ _ _ ih | compare _ _ _ _ ih =>
      obtain ⟨k, ks', rfl, hint, hparen, _⟩ := ih
      exact ⟨k, _, rfl, hint, hparen, by simp⟩

namespace Derives

variable {e : Expr}

/-- A phrase of a level is one of every looser level. -/
theorem raise {m n : Nat} (h : Derives (.binary m) ks e) (hmn : m ≤ n) : Derives (.binary n) ks e := by
  induction hmn with
  | refl => exact h
  | step _ ih => exact ih.looser

/-- A unary phrase is an operand of every level. -/
theorem operandAt (h : Derives .unary ks e) (n : Nat) : Derives (.binary n) ks e := h.tightest.raise (Nat.zero_le n)

/-- A unary phrase is an expression. -/
theorem expression (h : Derives .unary ks e) : Derives .expression ks e := (h.operandAt _).whole

/-- An expression in parentheses is a unary phrase. -/
theorem parens_unary (h : Derives .expression ks e) : Derives .unary (Token.parens ks) e := h.parens.atom.operand

end Derives

/-! ## What ends a phrase -/

/-- No operator that binds as tightly as the level follows. -/
def Clears (level : Nat) : List Token → Prop
  | [] => True
  | t :: _ => ∀ op, t.kind.binaryOp? = some op → level < op.level

/-- What follows does not go on an operand of the level: it is no call, and no operator that binds as tightly. -/
def Stops (level : Nat) : List Token → Prop
  | [] => True
  | t :: rest => t.kind ≠ .sym .leftParen ∧ Clears level (t :: rest)

/-- The token is a binary operator of one of the six levels, or a comparison. -/
def isOperator : Kind → Bool
  | .sym s => [1, 2, 3, 4, 5, 6].any (fun n => (operatorsAt n).any (·.1 == s)) || comparisonSymbols.any (·.1 == s)
  | _ => false

/-- The token does not go on an expression: it is no call, no operator and no comparison. -/
def endsExpr (k : Kind) : Bool := k != .sym .leftParen && !isOperator k

/-- What follows does not start with an operator. -/
def Clear : List Token → Prop
  | [] => True
  | t :: _ => isOperator t.kind = false

/-- What follows does not go on an expression. -/
def Ends : List Token → Prop
  | [] => True
  | t :: _ => endsExpr t.kind = true

theorem isOperator_eq {k : Kind} : isOperator k = (k.binaryOp?.isSome || k.compareOp?.isSome) := by
  cases k with
  | sym s => cases s <;> rfl
  | _ => rfl

theorem isOperator_eq_false {k : Kind} : isOperator k = false ↔ k.binaryOp? = none ∧ k.compareOp? = none := by
  rw [isOperator_eq, Bool.or_eq_false_iff, Option.isSome_eq_false_iff, Option.isSome_eq_false_iff,
    Option.isNone_iff_eq_none, Option.isNone_iff_eq_none]

theorem ends_of_kind {k : Kind} (h : t.kind = k) (hk : endsExpr k = true) : Ends (t :: rest) := by
  rw [Ends, h, hk]

section Levels

variable {P : Expr → Prop} {m n : Nat}

theorem clears_zero (rest : List Token) : Clears 0 rest := by
  cases rest with
  | nil => trivial
  | cons t rest =>
      intro op _
      cases op <;> decide

theorem Stops.mono (h : Stops n rest) (hmn : m ≤ n) : Stops m rest := by
  cases rest with
  | nil => trivial
  | cons t rest => exact ⟨h.1, fun op hop => Nat.lt_of_le_of_lt hmn (h.2 op hop)⟩

theorem Ends.stops (h : Ends rest) (n : Nat) : Stops n rest := by
  cases rest with
  | nil => trivial
  | cons t rest =>
      simp only [Ends, endsExpr, Bool.and_eq_true, bne_iff_ne, Bool.not_eq_true'] at h
      exact ⟨h.1, fun op hop => absurd ((isOperator_eq_false.mp h.2).1.symm.trans hop) (by simp)⟩

/-- The operator of a level stops the operand before it, which is of the next tighter level. -/
theorem stops_operator {op : BinaryOp} (ht : t.kind = .sym op.symbol) (hn : n < op.level) : Stops n (t :: rest) := by
  refine ⟨by rw [ht]; cases op <;> decide, fun op' hop' => ?_⟩
  rw [ht] at hop'
  obtain rfl : op = op' := Option.some.inj (op.ofSymbol?_symbol.symm.trans hop')
  exact hn

theorem callTail_stops (h : Stops 0 rest) (func : Expr) : callTail eof func rest = .ok (.nothing func rest) := by
  cases rest with
  | nil => rw [callTail]
  | cons t rest => rw [callTail, if_neg h.1]

theorem binaryTail_stops (h : Stops (n + 1) rest) (left : Expr) :
    binaryTail eof n left rest = .ok (.nothing left rest) := by
  cases rest with
  | nil => rw [binaryTail]
  | cons t rest =>
      have hnone : t.kind.binaryOpAt? (n + 1) = none :=
        Kind.binaryOpAt?_eq_none.mpr fun op hop => Nat.ne_of_gt (h.2 op hop)
      rw [binaryTail]
      simp only [hnone]

theorem comparisons_ends (h : Ends rest) : comparisons eof rest = .ok (.nothing [] rest) := by
  cases rest with
  | nil => rw [comparisons]
  | cons t rest =>
      simp only [Ends, endsExpr, Bool.and_eq_true, Bool.not_eq_true'] at h
      rw [comparisons]
      simp only [(isOperator_eq_false.mp h.2).2]

/-- Comparisons stop the operand before them. -/
theorem stops_chain {pairs : List ((Symbol × CompareOp) × List Kind × Expr)} (h : Spells ts (chainKinds pairs) rest)
    (hsymbols : ∀ p ∈ pairs, p.1 ∈ comparisonSymbols) (hends : Ends rest) (n : Nat) : Stops n ts := by
  cases pairs with
  | nil =>
      rw [spells_nil.mp h]
      exact hends.stops n
  | cons p pairs =>
      rw [chainKinds, List.flatMap_cons] at h
      obtain ⟨t, ts', rfl, ht, _⟩ := spells_cons.mp h
      rw [mem_comparisonSymbols.mp (hsymbols p List.mem_cons_self)] at ht
      have hnone : t.kind.binaryOp? = none := by rw [ht]; cases p.1.2 <;> rfl
      exact ⟨by rw [ht]; cases p.1.2 <;> decide, fun op hop => nomatch hnone.symm.trans hop⟩

end Levels

/-! ## Completeness -/

section Completeness

variable {n : Nat} {e : Expr}

/-- What completeness says of a phrase of each category. Where operators or argument lists may follow, the parser
    comes to the loop that looks for them, with the tree of the phrase in hand. -/
def Completes : Category → List Kind → Expr → Prop
  | .atom, ks, e => ∀ (eof : Position) ⦃ts rest : List Token⦄, Spells ts ks rest →
      Yields (atom eof ts) rest (·.erase = e)
  | .call, ks, e => ∀ (eof : Position) ⦃ts rest : List Token⦄, Spells ts ks rest →
      ∃ f, f.erase = e ∧ ∀ P rest', Trails (callTail eof f rest) rest' P → Yields (call eof ts) rest' P
  | .unary, ks, e => ∀ (eof : Position) ⦃ts rest : List Token⦄, Spells ts ks rest → Stops 0 rest →
      Yields (unary eof ts) rest (·.erase = e)
  | .binary 0, ks, e => ∀ (eof : Position) ⦃ts rest : List Token⦄, Spells ts ks rest → Stops 0 rest →
      Yields (binary eof 0 ts) rest (·.erase = e)
  | .binary (n + 1), ks, e => ∀ (eof : Position) ⦃ts rest : List Token⦄, Spells ts ks rest → Stops n rest →
      ∃ l, l.erase = e ∧ ∀ P rest', Trails (binaryTail eof n l rest) rest' P → Yields (binary eof (n + 1) ts) rest' P
  | .expression, ks, e => ∀ (eof : Position) ⦃ts rest : List Token⦄, Spells ts ks rest → Ends rest →
      Yields (expression eof ts) rest (·.erase = e)

/-- The whole binary phrase is read, if no operator of its level follows. -/
theorem Completes.yields_binary (h : Completes (.binary n) ks e) (eof : Position) (hts : Spells ts ks rest)
    (hstops : Stops n rest) : Yields (binary eof n ts) rest (·.erase = e) := by
  cases n with
  | zero => exact h eof hts hstops
  | succ n =>
      obtain ⟨l, hl, hloop⟩ := h eof hts (hstops.mono (Nat.le_succ n))
      refine hloop _ _ ?_
      rw [binaryTail_stops hstops]
      exact ⟨_, _, rfl, hl⟩

/-- Where an atom is one token, it is read whatever follows. -/
theorem completes_token {k : Kind} (hatom : ∀ (eof : Position) (t : Token) (rest : List Token), t.kind = k →
    Yields (atom eof (t :: rest)) rest (·.erase = e)) : Completes .atom [k] e := by
  intro eof ts rest hts
  obtain ⟨t, rfl, ht⟩ := spells_singleton.mp hts
  exact hatom eof t rest ht

theorem completes_int (hn : n < signBound) :
    Completes .atom [.int n] (.const default (.int (BitVec.ofNat 64 n))) := by
  refine completes_token fun eof t rest ht => ?_
  rw [atom]
  simp only [ht, if_pos hn]
  exact ⟨_, _, rfl, rfl⟩

theorem Completes.parens (h : Completes .expression ks e) : Completes .atom (parens ks) e := by
  intro eof ts rest hts
  obtain ⟨first, ts', last, rfl, hfirst, hinner, hlast⟩ := spells_parens.mp hts
  obtain ⟨v, hshorter, hv, hx⟩ := h eof hinner (ends_of_kind hlast rfl)
  rw [Tree.atom]
  simp only [hfirst, hv, bind, Except.bind, expect_token .parentheses hlast, pure, Except.pure]
  exact ⟨_, _, rfl, (erase_withSpan _ v).trans hx⟩

theorem Completes.atom (h : Completes .atom ks e) : Completes .call ks e := by
  intro eof ts rest hts
  obtain ⟨f, hshorter, hf, hx⟩ := h eof hts
  refine ⟨f, hx, fun P rest' htail => ?_⟩
  obtain ⟨w, hnoLonger, hw, hP⟩ := htail
  rw [Tree.call]
  simp only [hf, bind, Except.bind, hw, pure, Except.pure]
  exact ⟨_, _, rfl, hP⟩

section Arguments

variable {args : List (List Kind × Expr)} {tail : List Kind} {last : Token}

/-- A list of arguments that is not empty does not start with a closing parenthesis. -/
theorem nextIs_arguments (hargs : ∀ arg ∈ args, Derives .expression arg.1 arg.2) (hne : args ≠ [])
    (hts : Spells ts (commaList (args.map (·.1)) ++ tail) rest) : nextIs (.sym .rightParen) ts = false := by
  obtain ⟨arg, more, rfl⟩ := List.exists_cons_of_ne_nil hne
  obtain ⟨k, ks, hk, _, hparen, _⟩ := (hargs arg List.mem_cons_self).exists_cons
  have hhead : ∃ ks', commaList ((arg :: more).map (·.1)) ++ tail = k :: ks' := by
    cases more <;> simp only [List.map_cons, List.map_nil, commaList, hk] <;> exact ⟨_, rfl⟩
  obtain ⟨ks', hks'⟩ := hhead
  rw [hks'] at hts
  obtain ⟨t, ts', rfl, rfl, _⟩ := spells_cons.mp hts
  rw [nextIs, beq_eq_false_iff_ne]
  exact hparen

/-- Arguments are read comma by comma; one comma may follow the last. -/
theorem yields_argumentList (eof : Position) (hne : args ≠ [])
    (hargs : ∀ arg ∈ args, Derives .expression arg.1 arg.2)
    (hcompletes : ∀ arg ∈ args, Completes .expression arg.1 arg.2) (htail : tail = [] ∨ tail = [.sym .comma])
    (hts : Spells ts (commaList (args.map (·.1)) ++ tail) (last :: rest)) (hlast : last.kind = .sym .rightParen) :
    Yields (argumentList eof ts) (last :: rest) fun vs => vs.map Expr.erase = args.map (·.2) := by
  induction args generalizing ts with
  | nil => exact absurd rfl hne
  | cons arg more ih =>
      obtain ⟨mid, hlist, hmid⟩ := spells_append.mp hts
      have harg := hcompletes arg List.mem_cons_self
      cases more with
      | nil =>
          rw [List.map_singleton, commaList] at hlist
          rcases htail with rfl | rfl
          · -- the closing parenthesis follows the last argument
            rw [spells_nil.mp hmid] at hlist
            obtain ⟨v, hshorter, hv, hx⟩ := harg eof hlist (ends_of_kind hlast rfl)
            have hcomma : ¬last.kind = .sym .comma := by rw [hlast]; decide
            rw [argumentList]
            simp only [hv, bind, Except.bind, if_neg hcomma, pure, Except.pure]
            exact ⟨_, _, rfl, congrArg (fun x => [x]) hx⟩
          · obtain ⟨comma, rfl, hcomma⟩ := spells_singleton.mp hmid
            obtain ⟨v, hshorter, hv, hx⟩ := harg eof hlist (ends_of_kind hcomma rfl)
            have hclose : nextIs (.sym .rightParen) (last :: rest) = true := by rw [nextIs, hlast]; rfl
            rw [argumentList]
            simp only [hv, bind, Except.bind, if_pos hcomma, if_pos hclose, pure, Except.pure]
            exact ⟨_, _, rfl, congrArg (fun x => [x]) hx⟩
      | cons arg' more =>
          rw [List.map_cons, List.map_cons, commaList, ← List.map_cons] at hlist
          · obtain ⟨mid', hfirst, hmid'⟩ := spells_append.mp hlist
            obtain ⟨comma, ts', rfl, hcomma, hts'⟩ := spells_cons.mp hmid'
            obtain ⟨v, hshorter, hv, hx⟩ := harg eof hfirst (ends_of_kind hcomma rfl)
            have hrest : Spells ts' (commaList ((arg' :: more).map (·.1)) ++ tail) (last :: rest) :=
              spells_append.mpr ⟨mid, hts', hmid⟩
            have hargs' : ∀ a ∈ arg' :: more, Derives .expression a.1 a.2 :=
              fun a ha => hargs a (List.mem_cons_of_mem arg ha)
            obtain ⟨vs, hshorter', hvs, hxs⟩ := ih (List.cons_ne_nil arg' more) hargs'
              (fun a ha => hcompletes a (List.mem_cons_of_mem arg ha)) hrest
            have hmore := nextIs_arguments hargs' (List.cons_ne_nil arg' more) hrest
            rw [argumentList]
            simp only [hv, bind, Except.bind, if_pos hcomma, hmore, Bool.false_eq_true, if_false, hvs, pure, Except.pure]
            refine ⟨_, _, rfl, ?_⟩
            show v.erase :: vs.map Expr.erase = arg.2 :: (arg' :: more).map (·.2)
            rw [hx, hxs]
          · simp

theorem trails_arguments (eof : Position) (hargs : ∀ arg ∈ args, Derives .expression arg.1 arg.2)
    (hcompletes : ∀ arg ∈ args, Completes .expression arg.1 arg.2) (htail : Trailing args tail)
    (hts : Spells ts (commaList (args.map (·.1)) ++ tail) (last :: rest)) (hlast : last.kind = .sym .rightParen) :
    Trails (arguments eof ts) (last :: rest) fun vs => vs.map Expr.erase = args.map (·.2) := by
  by_cases hne : args = []
  · -- without arguments there is no comma either
    obtain rfl : tail = [] := htail.resolve_right fun h => h.1 hne
    subst hne
    obtain rfl := spells_nil.mp hts
    have hclose : nextIs (.sym .rightParen) (last :: rest) = true := by rw [nextIs, hlast]; rfl
    rw [arguments, if_pos hclose]
    exact ⟨_, _, rfl, rfl⟩
  · obtain ⟨vs, hshorter, hvs, hxs⟩ :=
      yields_argumentList eof hne hargs hcompletes (htail.imp_right And.right) hts hlast
    rw [arguments, nextIs_arguments hargs hne hts]
    simp only [Bool.false_eq_true, if_false, hvs, bind, Except.bind, pure, Except.pure]
    exact ⟨_, _, rfl, hxs⟩

theorem Completes.call {f : Expr} (h : Completes .call ks f) (hargs : ∀ arg ∈ args, Derives .expression arg.1 arg.2)
    (hcompletes : ∀ arg ∈ args, Completes .expression arg.1 arg.2) (htail : Trailing args tail) :
    Completes .call (ks ++ Token.parens (commaList (args.map (·.1)) ++ tail))
      (.call default f (args.map (·.2))) := by
  intro eof ts rest hts
  obtain ⟨mid, hfunc, hmid⟩ := spells_append.mp hts
  obtain ⟨first, inner, last, rfl, hfirst, hinner, hlast⟩ := spells_parens.mp hmid
  obtain ⟨func, hx, hloop⟩ := h eof hfunc
  obtain ⟨vs, hnoLonger, hvs, hxs⟩ := trails_arguments eof hargs hcompletes htail hinner hlast
  refine ⟨.call ⟨func.span.start, last.span.stop⟩ func vs, ?_, fun P rest' hrest => hloop P rest' ?_⟩
  · rw [Expr.erase, eraseAll_eq_map, hx, hxs]
  · obtain ⟨w, hnoLonger', hw, hP⟩ := hrest
    rw [callTail, if_pos hfirst]
    simp only [hvs, bind, Except.bind, expect_token .functionCall hlast, Parsed.token, hw, pure, Except.pure]
    exact ⟨_, _, rfl, hP⟩

end Arguments

theorem Completes.operand (hd : Derives .call ks e) (h : Completes .call ks e) : Completes .unary ks e := by
  intro eof ts rest hts hstops
  obtain ⟨f, hx, hloop⟩ := h eof hts
  obtain ⟨k, ks', rfl, _, _, hsign⟩ := hd.exists_cons
  have hcall : Yields (Tree.call eof ts) rest (·.erase = e) := by
    refine hloop _ _ ?_
    rw [callTail_stops hstops]
    exact ⟨_, _, rfl, hx⟩
  obtain ⟨t, ts', rfl, rfl, _⟩ := spells_cons.mp hts
  rw [Tree.unary]
  simp only [hsign (Or.inr rfl)]
  exact hcall

theorem completes_least :
    Completes .unary [.sym .minus, .int signBound] (.const default (.int (BitVec.intMin 64))) := by
  intro eof ts rest hts _
  obtain ⟨sign, ts', rfl, hsign, hts'⟩ := spells_cons.mp hts
  obtain ⟨t, rfl, ht⟩ := spells_singleton.mp hts'
  have hop : sign.kind.unaryOp? = some .minus := by rw [hsign]; rfl
  have hleast : leastNumber? .minus (t :: rest) = some (.token t t rest) := by
    rw [leastNumber?, if_pos ⟨rfl, ht⟩]
  rw [Tree.unary]
  simp only [hop, hleast]
  exact ⟨_, _, rfl, rfl⟩

theorem Completes.unary (hd : Derives .unary ks e) (h : Completes .unary ks e) (op : UnaryOp) :
    Completes .unary (.sym op.symbol :: ks) (.unary default op e) := by
  intro eof ts rest hts hstops
  obtain ⟨t, ts', rfl, ht, hts'⟩ := spells_cons.mp hts
  obtain ⟨v, hshorter, hv, hx⟩ := h eof hts' hstops
  have hop : t.kind.unaryOp? = some op := by rw [ht]; exact op.ofSymbol?_symbol
  -- the literal one too large starts no phrase, so the sign is not part of a number
  have hnone : leastNumber? op ts' = none := by
    obtain ⟨k, ks', rfl, hint, _, _⟩ := hd.exists_cons
    obtain ⟨t', ts'', rfl, rfl, _⟩ := spells_cons.mp hts'
    rw [leastNumber?, if_neg fun h => hint h.2]
  rw [Tree.unary]
  simp only [hop, hnone, hv, bind, Except.bind, pure, Except.pure]
  refine ⟨_, _, rfl, ?_⟩
  simp only [Expr.erase, hx]

theorem Completes.looser (h : Completes (.binary n) ks e) : Completes (.binary (n + 1)) ks e := by
  intro eof ts rest hts hstops
  obtain ⟨v, hshorter, hv, hx⟩ := h.yields_binary eof hts hstops
  refine ⟨v, hx, fun P rest' htail => ?_⟩
  obtain ⟨w, hnoLonger, hw, hP⟩ := htail
  rw [Tree.binary]
  simp only [hv, bind, Except.bind, hw, pure, Except.pure]
  exact ⟨_, _, rfl, hP⟩

/-- The loop over the operators of a level takes one operator and its right operand. -/
theorem trails_binaryTail {op : BinaryOp} {left right : Expr} {hshorter : rest.length < ts.length} {P : Expr → Prop}
    {rest' : List Token} (ht : t.kind = .sym op.symbol) (hop : op.level = n + 1)
    (hright : binary eof n ts = .ok ⟨right, rest, hshorter⟩)
    (hloop : Trails (binaryTail eof n (.binary (left.span.join right.span) left op right) rest) rest' P) :
    Trails (binaryTail eof n left (t :: ts)) rest' P := by
  have hat : t.kind.binaryOpAt? (n + 1) = some op :=
    Kind.binaryOpAt?_eq_some.mpr ⟨Kind.binaryOp?_eq_some.mpr ht, hop⟩
  obtain ⟨w, hnoLonger, hw, hP⟩ := hloop
  rw [binaryTail]
  simp only [hat, hright, bind, Except.bind, hw, pure, Except.pure]
  exact ⟨_, _, rfl, hP⟩

theorem Completes.binary {l r : Expr} (op : BinaryOp) (hop : op.level = n + 1) (hl : Completes (.binary (n + 1)) ks l)
    (hr : Completes (.binary n) ks' r) :
    Completes (.binary (n + 1)) (ks ++ .sym op.symbol :: ks') (.binary default l op r) := by
  intro eof ts rest hts hstops
  obtain ⟨mid, hleft, hmid⟩ := spells_append.mp hts
  obtain ⟨t, ts', rfl, ht, hright⟩ := spells_cons.mp hmid
  obtain ⟨left, hx, hloop⟩ := hl eof hleft (stops_operator ht (by omega))
  obtain ⟨right, hshorter, hv, hy⟩ := hr.yields_binary eof hright hstops
  refine ⟨.binary (left.span.join right.span) left op right, ?_, fun P rest' htail => hloop P rest' ?_⟩
  · rw [Expr.erase, hx, hy]
  · exact trails_binaryTail ht hop hv htail

theorem Completes.whole (h : Completes (.binary BinaryOp.loosest) ks e) : Completes .expression ks e := by
  intro eof ts rest hts hends
  obtain ⟨v, hshorter, hv, hx⟩ := h.yields_binary eof hts (hends.stops _)
  rw [expression]
  simp only [hv, bind, Except.bind, comparisons_ends hends, pure, Except.pure]
  exact ⟨_, _, rfl, hx⟩

/-- A chain of comparisons is read operator by operator. -/
theorem trails_comparisons (eof : Position) {pairs : List ((Symbol × CompareOp) × List Kind × Expr)}
    (hsymbols : ∀ p ∈ pairs, p.1 ∈ comparisonSymbols)
    (hpairs : ∀ p ∈ pairs, Completes (.binary BinaryOp.loosest) p.2.1 p.2.2)
    (hts : Spells ts (chainKinds pairs) rest) (hends : Ends rest) : Trails (comparisons eof ts) rest fun vs =>
      vs.map (·.1) = pairs.map (·.1.2) ∧ (vs.map (·.2)).map Expr.erase = pairs.map (·.2.2) := by
  induction pairs generalizing ts with
  | nil =>
      rw [spells_nil.mp hts, comparisons_ends hends]
      exact ⟨_, _, rfl, rfl, rfl⟩
  | cons p pairs ih =>
      rw [chainKinds, List.flatMap_cons] at hts
      obtain ⟨t, ts', rfl, ht, hts'⟩ := spells_cons.mp hts
      obtain ⟨mid, hoperand, hmid⟩ := spells_append.mp hts'
      have hsymbols' := fun q hq => hsymbols q (List.mem_cons_of_mem p hq)
      obtain ⟨v, hshorter, hv, hx⟩ := (hpairs p List.mem_cons_self).yields_binary eof hoperand
        (stops_chain hmid hsymbols' hends _)
      obtain ⟨vs, hnoLonger, hvs, hops, hes⟩ := ih hsymbols' (fun q hq => hpairs q (List.mem_cons_of_mem p hq)) hmid
      rw [mem_comparisonSymbols.mp (hsymbols p List.mem_cons_self)] at ht
      have hop : t.kind.compareOp? = some p.1.2 := Kind.compareOp?_eq_some.mpr ht
      rw [comparisons]
      simp only [hop, hv, bind, Except.bind, hvs, pure, Except.pure]
      refine ⟨_, _, rfl, ?_, ?_⟩
      · rw [List.map_cons, hops, List.map_cons]
      · rw [List.map_cons, List.map_cons, hx, hes, List.map_cons]

theorem Completes.compare {l : Expr} {pairs : List ((Symbol × CompareOp) × List Kind × Expr)} (hne : pairs ≠ [])
    (hsymbols : ∀ p ∈ pairs, p.1 ∈ comparisonSymbols) (hl : Completes (.binary BinaryOp.loosest) ks l)
    (hpairs : ∀ p ∈ pairs, Completes (.binary BinaryOp.loosest) p.2.1 p.2.2) :
    Completes .expression (ks ++ chainKinds pairs) (.compare default l (pairs.map (·.1.2)) (pairs.map (·.2.2))) := by
  intro eof ts rest hts hends
  obtain ⟨mid, hleft, hmid⟩ := spells_append.mp hts
  obtain ⟨v, hshorter, hv, hx⟩ := hl.yields_binary eof hleft (stops_chain hmid hsymbols hends _)
  obtain ⟨vs, hnoLonger, hvs, hops, hes⟩ := trails_comparisons eof hsymbols hpairs hmid hends
  rw [expression]
  simp only [hv, bind, Except.bind, hvs, pure, Except.pure]
  refine ⟨_, _, rfl, ?_⟩
  have hvsne : vs ≠ [] := by
    rintro rfl
    exact hne (List.map_eq_nil_iff.mp hops.symm)
  show (comparisonOf v vs).erase = _
  rw [erase_comparisonOf v hvsne, hx, hops, hes]

end Completeness

/-- **Completeness.** Every phrase of the grammar is read as its tree. -/
theorem Derives.completes {c : Category} {e : Expr} (h : Derives c ks e) : Completes c ks e := by
  induction h with
  | int hn => exact completes_int hn
  | true_ | false_ | str | name =>
      refine completes_token fun eof t rest ht => ?_
      rw [Tree.atom]
      simp only [ht]
      exact ⟨_, _, rfl, rfl⟩
  | parens _ ih => exact ih.parens
  | atom _ ih => exact ih.atom
  | call _ hargs htail ih ihargs => exact ih.call hargs ihargs htail
  | operand hd ih => exact ih.operand hd
  | least => exact completes_least
  | unary hop hd ih =>
      rw [mem_signs.mp hop]
      exact ih.unary hd _
  | tightest _ ih =>
      intro eof ts rest hts hstops
      rw [Tree.binary]
      exact ih eof hts hstops
  | looser _ ih => exact ih.looser
  | binary hop _ _ ihl ihr =>
      obtain ⟨rfl, hlevel⟩ := mem_operatorsAt.mp hop
      exact ihl.binary _ hlevel ihr
  | whole _ ih => exact ih.whole
  | compare hne hsymbols _ _ ihl ihpairs => exact ihl.compare hne hsymbols ihpairs

/-! ## Soundness -/

/-- The tokens in front of the rest are a phrase of the category, and the expression is its tree. -/
def Reads (c : Category) (ts : List Token) (e : Expr) (rest : List Token) : Prop :=
  ∃ ks, Spells ts ks rest ∧ Derives c ks e.erase

theorem bind_eq_ok {β γ : Type} {x : Except Fault β} {f : β → Except Fault γ} {c : γ} (h : (x >>= f) = .ok c) :
    ∃ b, x = .ok b ∧ f b = .ok c := by
  cases x with
  | error e => exact absurd h (by simp [bind, Except.bind])
  | ok b => exact ⟨b, rfl, h⟩

theorem expect_ok {k : Kind} {context : Context} {p : Parsed Token ts} (h : expect eof k context ts = .ok p) :
    Spells ts [k] p.rest := by
  cases ts with
  | nil => exact absurd h (by simp [expect])
  | cons t ts =>
      rw [expect] at h
      split at h
      · next hk =>
          cases h
          exact spells_singleton.mpr ⟨t, rfl, hk⟩
      · exact absurd h (by simp)

theorem clears_succ_of_none {n : Nat} (h : t.kind.binaryOpAt? (n + 1) = none) (hclears : Clears n (t :: rest)) :
    Clears (n + 1) (t :: rest) := fun op hop =>
  Nat.lt_of_le_of_ne (hclears op hop) fun heq => Kind.binaryOpAt?_eq_none.mp h op hop heq.symm

/-- Expressions separated by commas, with a comma behind the last perhaps. -/
def ReadsList (ts : List Token) (es : List Expr) (rest : List Token) : Prop :=
  ∃ args tail, args ≠ [] ∧ Trailing args tail ∧ Spells ts (commaList (args.map (·.1)) ++ tail) rest ∧
    (∀ arg ∈ args, Derives .expression arg.1 arg.2) ∧ args.map (·.2) = es.map Expr.erase

theorem Reads.list_single {e : Expr} (h : Reads .expression ts e rest) : ReadsList ts [e] rest := by
  obtain ⟨ks, hts, hd⟩ := h
  refine ⟨[(ks, e.erase)], [], List.cons_ne_nil _ _, Or.inl rfl, ?_, ?_, rfl⟩
  · rw [List.append_nil]
    exact hts
  · intro arg harg
    rw [List.mem_singleton.mp harg]
    exact hd

theorem Reads.list_trailing {e : Expr} (h : Reads .expression ts e (t :: rest)) (ht : t.kind = .sym .comma) :
    ReadsList ts [e] rest := by
  obtain ⟨ks, hts, hd⟩ := h
  refine ⟨[(ks, e.erase)], [.sym .comma], List.cons_ne_nil _ _, Or.inr ⟨List.cons_ne_nil _ _, rfl⟩, ?_, ?_, rfl⟩
  · exact spells_append.mpr ⟨_, hts, spells_singleton.mpr ⟨t, rfl, ht⟩⟩
  · intro arg harg
    rw [List.mem_singleton.mp harg]
    exact hd

theorem Reads.list_cons {e : Expr} {es : List Expr} {mid : List Token} (h : Reads .expression ts e (t :: mid))
    (ht : t.kind = .sym .comma) (hmore : ReadsList mid es rest) : ReadsList ts (e :: es) rest := by
  obtain ⟨ks, hts, hd⟩ := h
  obtain ⟨args, tail, hne, htail, hmid, hargs, hes⟩ := hmore
  obtain ⟨arg, more, rfl⟩ := List.exists_cons_of_ne_nil hne
  refine ⟨(ks, e.erase) :: arg :: more, tail, List.cons_ne_nil _ _,
    htail.imp_right fun h => ⟨List.cons_ne_nil _ _, h.2⟩, ?_, ?_, by rw [List.map_cons, hes, List.map_cons]⟩
  · rw [List.map_cons, List.map_cons, commaList, ← List.map_cons, List.append_assoc]
    · exact spells_append.mpr ⟨_, hts, spells_cons.mpr ⟨t, mid, rfl, ht, hmid⟩⟩
    · simp
  · intro a ha
    rcases List.mem_cons.mp ha with rfl | ha
    · exact hd
    · exact hargs a ha

/-- Comparisons that follow an operand. -/
def ReadsChain (ts : List Token) (vs : List (CompareOp × Expr)) (rest : List Token) : Prop :=
  ∃ pairs : List ((Symbol × CompareOp) × List Kind × Expr), Spells ts (chainKinds pairs) rest ∧
    (∀ p ∈ pairs, p.1 ∈ comparisonSymbols) ∧ (∀ p ∈ pairs, Derives (.binary 6) p.2.1 p.2.2) ∧
    pairs.map (·.1.2) = vs.map (·.1) ∧ pairs.map (·.2.2) = (vs.map (·.2)).map Expr.erase

/-- An operand and the comparisons that follow it are an expression. -/
theorem Reads.compare {e : Expr} {mid : List Token} {vs : List (CompareOp × Expr)}
    (h : Reads (.binary 6) ts e mid) (hchain : ReadsChain mid vs rest) :
    Reads .expression ts (comparisonOf e vs) rest := by
  obtain ⟨ks, hts, hd⟩ := h
  obtain ⟨pairs, hmid, hsymbols, hpairs, hops, hes⟩ := hchain
  by_cases hne : vs = []
  · subst hne
    obtain rfl := List.map_eq_nil_iff.mp hops
    rw [← spells_nil.mp hmid]
    exact ⟨ks, hts, .whole hd⟩
  · refine ⟨ks ++ chainKinds pairs, spells_append.mpr ⟨mid, hts, hmid⟩, ?_⟩
    rw [erase_comparisonOf e hne, ← hops, ← hes]
    exact .compare (fun h => hne (List.map_eq_nil_iff.mp (by rw [← hops, h]; rfl))) hsymbols hd hpairs

mutual

/-- **Soundness.** What is read as an expression is one, and no operator follows it. -/
theorem reads_expression (ts : List Token) {p : Parsed Expr ts} (h : expression eof ts = .ok p) :
    Reads .expression ts p.value p.rest ∧ Clear p.rest := by
  rw [expression] at h
  obtain ⟨left, hleft, h⟩ := bind_eq_ok h
  have hshorter := left.shorter
  obtain ⟨pairs, hpairs, h⟩ := bind_eq_ok h
  cases h
  obtain ⟨hreads, hclears⟩ := reads_binary BinaryOp.loosest ts hleft
  obtain ⟨hchain, hclear⟩ := reads_comparisons left.rest hpairs hclears
  exact ⟨hreads.compare hchain, hclear⟩
termination_by (ts.length, BinaryOp.loosest + 4)
decreasing_by
  · exact .right _ (Nat.lt_succ_self _)
  · exact .left _ _ hshorter

theorem reads_comparisons (ts : List Token) {p : Trail (List (CompareOp × Expr)) ts} (h : comparisons eof ts = .ok p)
    (hclears : Clears BinaryOp.loosest ts) : ReadsChain ts p.value p.rest ∧ Clear p.rest := by
  match ts with
  | [] =>
      rw [comparisons] at h
      cases h
      exact ⟨⟨[], spells_nil.mpr rfl, by simp, by simp, rfl, rfl⟩, trivial⟩
  | t :: rest =>
      rw [comparisons] at h
      split at h
      · next hnone =>
          cases h
          refine ⟨⟨[], spells_nil.mpr rfl, by simp, by simp, rfl, rfl⟩, ?_⟩
          -- no operator is looser than the loosest level, so none is left to follow
          have hbinary : t.kind.binaryOp? = none := by
            rw [Option.eq_none_iff_forall_not_mem]
            intro op hop
            have hlt := hclears op hop
            exact absurd hlt (by cases op <;> decide)
          exact isOperator_eq_false.mpr ⟨hbinary, hnone⟩
      · next op hop =>
          obtain ⟨right, hright, h⟩ := bind_eq_ok h
          have hshorter := right.shorter
          obtain ⟨more, hmore, h⟩ := bind_eq_ok h
          cases h
          obtain ⟨⟨ks, hts, hd⟩, hclears'⟩ := reads_binary BinaryOp.loosest rest hright
          obtain ⟨⟨pairs, hspells, hsymbols, hpairs, hops, hes⟩, hclear⟩ := reads_comparisons right.rest hmore hclears'
          refine ⟨⟨((op.symbol, op), ks, right.value.erase) :: pairs, ?_, ?_, ?_, ?_, ?_⟩, hclear⟩
          · rw [chainKinds, List.flatMap_cons]
            exact spells_cons.mpr
              ⟨t, rest, rfl, Kind.compareOp?_eq_some.mp hop, spells_append.mpr ⟨_, hts, hspells⟩⟩
          · exact List.forall_mem_cons.mpr ⟨mem_comparisonSymbols.mpr rfl, hsymbols⟩
          · exact List.forall_mem_cons.mpr ⟨hd, hpairs⟩
          · rw [List.map_cons, hops, List.map_cons]
          · rw [List.map_cons, hes, List.map_cons, List.map_cons]
termination_by (ts.length, 0)
decreasing_by
  · exact .left _ _ (Nat.lt_succ_self _)
  · exact .left _ _ (Nat.lt_succ_of_lt hshorter)

theorem reads_binary (level : Nat) (ts : List Token) {p : Parsed Expr ts} (h : binary eof level ts = .ok p) :
    Reads (.binary level) ts p.value p.rest ∧ Clears level p.rest := by
  match level with
  | 0 =>
      rw [binary] at h
      obtain ⟨ks, hts, hd⟩ := reads_unary ts h
      exact ⟨⟨ks, hts, .tightest hd⟩, clears_zero p.rest⟩
  | level + 1 =>
      rw [binary] at h
      obtain ⟨left, hleft, h⟩ := bind_eq_ok h
      have hshorter := left.shorter
      obtain ⟨whole, hwhole, h⟩ := bind_eq_ok h
      cases h
      obtain ⟨⟨ks, hts, hd⟩, hclears⟩ := reads_binary level ts hleft
      obtain ⟨ks', hmid, hd', hclears'⟩ := reads_binaryTail level left.value left.rest hwhole hclears ks (.looser hd)
      exact ⟨⟨ks ++ ks', spells_append.mpr ⟨_, hts, hmid⟩, hd'⟩, hclears'⟩
termination_by (ts.length, level + 3)
decreasing_by
  · exact .right _ (Nat.lt_succ_self _)
  · exact .right _ (Nat.lt_succ_self _)
  · exact .left _ _ hshorter

/-- The loop over the operators of a level makes a longer phrase of the one it starts from. -/
theorem reads_binaryTail (level : Nat) (left : Expr) (ts : List Token) {p : Trail Expr ts}
    (h : binaryTail eof level left ts = .ok p) (hclears : Clears level ts) (ks : List Kind)
    (hleft : Derives (.binary (level + 1)) ks left.erase) : ∃ ks', Spells ts ks' p.rest ∧
      Derives (.binary (level + 1)) (ks ++ ks') p.value.erase ∧ Clears (level + 1) p.rest := by
  match ts with
  | [] =>
      rw [binaryTail] at h
      cases h
      exact ⟨[], spells_nil.mpr rfl, by rwa [List.append_nil], trivial⟩
  | t :: rest =>
      rw [binaryTail] at h
      split at h
      · next hnone =>
          cases h
          exact ⟨[], spells_nil.mpr rfl, by rwa [List.append_nil], clears_succ_of_none hnone hclears⟩
      · next op hop =>
          obtain ⟨hsymbol, hlevel⟩ := Kind.binaryOpAt?_eq_some.mp hop
          obtain ⟨right, hright, h⟩ := bind_eq_ok h
          have hshorter := right.shorter
          obtain ⟨whole, hwhole, h⟩ := bind_eq_ok h
          cases h
          obtain ⟨⟨ks', hts, hd⟩, hclears'⟩ := reads_binary level rest hright
          obtain ⟨ks'', hmid, hd', hclears''⟩ := reads_binaryTail level _ right.rest hwhole hclears'
            (ks ++ .sym op.symbol :: ks') (by rw [Expr.erase]; exact .binary (mem_operatorsAt.mpr ⟨rfl, hlevel⟩) hleft hd)
          refine ⟨.sym op.symbol :: ks' ++ ks'', ?_, by rwa [← List.append_assoc], hclears''⟩
          exact spells_cons.mpr
            ⟨t, rest, rfl, Kind.binaryOp?_eq_some.mp hsymbol, spells_append.mpr ⟨_, hts, hmid⟩⟩
termination_by (ts.length, 0)
decreasing_by
  · exact .left _ _ (Nat.lt_succ_self _)
  · exact .left _ _ (Nat.lt_succ_of_lt hshorter)

theorem reads_unary (ts : List Token) {p : Parsed Expr ts} (h : unary eof ts = .ok p) :
    Reads .unary ts p.value p.rest := by
  match ts with
  | [] =>
      rw [unary] at h
      obtain ⟨ks, hts, hd⟩ := reads_call [] h
      exact ⟨ks, hts, .operand hd⟩
  | t :: rest =>
      rw [unary] at h
      split at h
      · obtain ⟨ks, hts, hd⟩ := reads_call (t :: rest) h
        exact ⟨ks, hts, .operand hd⟩
      · next op hop =>
          have hsign := Kind.unaryOp?_eq_some.mp hop
          split at h
          · -- the least number, whose digits are read only behind their sign
            next literal hliteral =>
              cases h
              cases rest with
              | nil => exact absurd hliteral (by simp [leastNumber?])
              | cons t' rest =>
                  rw [leastNumber?] at hliteral
                  split at hliteral
                  · next hleast =>
                      cases hliteral
                      obtain ⟨rfl, hkind⟩ := hleast
                      refine ⟨[.sym .minus, .int (2 ^ 63)], ?_, .least⟩
                      exact spells_cons.mpr ⟨t, _, rfl, hsign, spells_singleton.mpr ⟨t', rfl, hkind⟩⟩
                  · exact absurd hliteral (by simp)
          · obtain ⟨operand, hoperand, h⟩ := bind_eq_ok h
            cases h
            obtain ⟨ks, hts, hd⟩ := reads_unary rest hoperand
            exact ⟨.sym op.symbol :: ks, spells_cons.mpr ⟨t, rest, rfl, hsign, hts⟩, by
              rw [Expr.erase]
              exact .unary (mem_signs.mpr rfl) hd⟩
termination_by (ts.length, 2)
decreasing_by
  · exact .right _ (Nat.lt_succ_self _)
  · exact .right _ (Nat.lt_succ_self _)
  · exact .left _ _ (Nat.lt_succ_self _)

theorem reads_call (ts : List Token) {p : Parsed Expr ts} (h : call eof ts = .ok p) :
    Reads .call ts p.value p.rest := by
  rw [call] at h
  obtain ⟨func, hfunc, h⟩ := bind_eq_ok h
  have hshorter := func.shorter
  obtain ⟨whole, hwhole, h⟩ := bind_eq_ok h
  cases h
  obtain ⟨ks, hts, hd⟩ := reads_atom ts hfunc
  obtain ⟨ks', hmid, hd'⟩ := reads_callTail func.value func.rest hwhole ks (.atom hd)
  exact ⟨ks ++ ks', spells_append.mpr ⟨_, hts, hmid⟩, hd'⟩
termination_by (ts.length, 1)
decreasing_by
  · exact .right _ Nat.zero_lt_one
  · exact .left _ _ hshorter

/-- The loop over argument lists makes a longer phrase of the one it starts from. -/
theorem reads_callTail (func : Expr) (ts : List Token) {p : Trail Expr ts} (h : callTail eof func ts = .ok p)
    (ks : List Kind) (hfunc : Derives .call ks func.erase) :
    ∃ ks', Spells ts ks' p.rest ∧ Derives .call (ks ++ ks') p.value.erase := by
  match ts with
  | [] =>
      rw [callTail] at h
      cases h
      exact ⟨[], spells_nil.mpr rfl, by rwa [List.append_nil]⟩
  | t :: rest =>
      rw [callTail] at h
      split at h
      · next hopen =>
          obtain ⟨args, hargs, h⟩ := bind_eq_ok h
          have hnoLonger := args.noLonger
          obtain ⟨close, hclose, h⟩ := bind_eq_ok h
          have hshorter := close.shorter
          obtain ⟨whole, hwhole, h⟩ := bind_eq_ok h
          cases h
          obtain ⟨vs, tail, htail, hts, hvs, hes⟩ := reads_arguments rest hargs
          have hderives : Derives .call (ks ++ parens (commaList (vs.map (·.1)) ++ tail))
              (Expr.call ⟨func.span.start, close.value.span.stop⟩ func args.value).erase := by
            rw [Expr.erase, eraseAll_eq_map, ← hes]
            exact .call hfunc hvs htail
          obtain ⟨ks', hmid, hd⟩ := reads_callTail _ close.rest hwhole _ hderives
          refine ⟨parens (commaList (vs.map (·.1)) ++ tail) ++ ks', ?_, by rwa [← List.append_assoc]⟩
          refine spells_append.mpr ⟨close.rest, ?_, hmid⟩
          obtain ⟨last, hlast, hkind⟩ := spells_singleton.mp (expect_ok hclose)
          exact spells_parens.mpr ⟨t, rest, last, rfl, hopen, hlast ▸ hts, hkind⟩
      · cases h
        exact ⟨[], spells_nil.mpr rfl, by rwa [List.append_nil]⟩
termination_by (ts.length, 0)
decreasing_by
  · exact .left _ _ (Nat.lt_succ_self _)
  · exact .left _ _ (Nat.lt_succ_of_lt (Nat.lt_of_lt_of_le hshorter hnoLonger))

theorem reads_arguments (ts : List Token) {p : Trail (List Expr) ts} (h : arguments eof ts = .ok p) :
    ∃ args tail, Trailing args tail ∧ Spells ts (commaList (args.map (·.1)) ++ tail) p.rest ∧
      (∀ arg ∈ args, Derives .expression arg.1 arg.2) ∧ args.map (·.2) = p.value.map Expr.erase := by
  rw [arguments] at h
  split at h
  · cases h
    exact ⟨[], [], Or.inl rfl, spells_nil.mpr rfl, by simp, rfl⟩
  · obtain ⟨list, hlist, h⟩ := bind_eq_ok h
    cases h
    obtain ⟨args, tail, _, hreads⟩ := reads_argumentList ts hlist
    exact ⟨args, tail, hreads⟩
termination_by (ts.length, BinaryOp.loosest + 6)
decreasing_by exact .right _ (Nat.lt_succ_self _)

theorem reads_argumentList (ts : List Token) {p : Parsed (List Expr) ts} (h : argumentList eof ts = .ok p) :
    ReadsList ts p.value p.rest := by
  rw [argumentList] at h
  obtain ⟨first, hfirst, h⟩ := bind_eq_ok h
  have hshorter := first.shorter
  have hreads := (reads_expression ts hfirst).1
  split at h
  · next t rest hrest =>
      rw [hrest] at hreads hshorter
      split at h
      · next hcomma =>
          split at h
          · cases h
            exact hreads.list_trailing hcomma
          · obtain ⟨more, hmore, h⟩ := bind_eq_ok h
            cases h
            have hlt : rest.length < ts.length := Nat.lt_of_succ_lt hshorter
            exact hreads.list_cons hcomma (reads_argumentList rest hmore)
      · cases h
        exact hreads.list_single
  · next hrest =>
      rw [hrest] at hreads
      cases h
      exact hreads.list_single
termination_by (ts.length, BinaryOp.loosest + 5)
decreasing_by
  · exact .right _ (Nat.lt_succ_self _)
  · exact .left _ _ hlt

theorem reads_atom (ts : List Token) {p : Parsed Expr ts} (h : atom eof ts = .ok p) :
    Reads .atom ts p.value p.rest := by
  match ts with
  | [] =>
      rw [atom] at h
      exact absurd h (by simp)
  | t :: rest =>
      rw [atom] at h
      split at h
      · next n hkind =>
          split at h
          · next hn =>
              cases h
              exact ⟨_, spells_singleton.mpr ⟨t, rfl, hkind⟩, .int hn⟩
          · exact absurd h (by simp)
      · next hkind =>
          cases h
          exact ⟨_, spells_singleton.mpr ⟨t, rfl, hkind⟩, .true_⟩
      · next hkind =>
          cases h
          exact ⟨_, spells_singleton.mpr ⟨t, rfl, hkind⟩, .false_⟩
      · next value hkind =>
          cases h
          exact ⟨_, spells_singleton.mpr ⟨t, rfl, hkind⟩, .str value⟩
      · next id hkind =>
          cases h
          exact ⟨_, spells_singleton.mpr ⟨t, rfl, hkind⟩, .name id⟩
      · next hopen =>
          obtain ⟨inner, hinner, h⟩ := bind_eq_ok h
          have hshorter := inner.shorter
          obtain ⟨close, hclose, h⟩ := bind_eq_ok h
          cases h
          obtain ⟨ks, hts, hd⟩ := (reads_expression rest hinner).1
          obtain ⟨last, hlast, hkind⟩ := spells_singleton.mp (expect_ok hclose)
          refine ⟨parens ks, spells_parens.mpr ⟨t, rest, last, rfl, hopen, hlast ▸ hts, hkind⟩, ?_⟩
          rw [erase_withSpan]
          exact .parens hd
      · exact absurd h (by simp)
termination_by (ts.length, 0)
decreasing_by exact .left _ _ (Nat.lt_succ_self _)

end

/-! ## The parser decides the grammar -/

/-- **The expression parser decides the grammar.** What it reads is an expression with the tree that it gives, and
    no operator follows; and every expression that no operator, comparison or opening parenthesis follows is read
    as its tree, up to what follows it. -/
theorem expression_decides_grammar (eof : Position) :
    (∀ (ts : List Token) (p : Parsed Expr ts), expression eof ts = .ok p →
      ∃ front, ts = front ++ p.rest ∧ Derives .expression (front.map Token.kind) p.value.erase ∧ Clear p.rest) ∧
    ∀ (front rest : List Token) (e : Expr), Derives .expression (front.map Token.kind) e.erase → Ends rest →
      ∃ p : Parsed Expr (front ++ rest),
        expression eof (front ++ rest) = .ok p ∧ p.rest = rest ∧ p.value.erase = e.erase := by
  constructor
  · intro ts p hp
    obtain ⟨⟨ks, ⟨front, rfl, hts⟩, hd⟩, hclear⟩ := reads_expression ts hp
    exact ⟨front, hts, hd, hclear⟩
  · intro front rest e hd hends
    obtain ⟨v, hshorter, hv, hx⟩ := hd.completes eof ⟨front, rfl, rfl⟩ hends
    exact ⟨_, hv, rfl, hx⟩

/-- The tokens of `1 + 2 * 3 - 4 << 5 & 6 ^ 7 | f(x,) < -9223372036854775808 != y`. -/
def sampleTokens : List Token :=
  [.int 1, .sym .plus, .int 2, .sym .star, .int 3, .sym .minus, .int 4, .sym .leftShift, .int 5, .sym .ampersand, .int 6,
    .sym .caret, .int 7, .sym .pipe, .ident "f", .sym .leftParen, .ident "x", .sym .comma, .sym .rightParen, .sym .less,
    .sym .minus, .int (2 ^ 63), .sym .bangEqual, .ident "y"].map (⟨·, default⟩)

/-- Operators of all six levels: products are tightest, sum and difference group to the left, and the two comparisons
    are one node. -/
def sampleExpr : Expr :=
  let number (w : Word) : Expr := .const default (.int w)
  let join (op : BinaryOp) (l r : Expr) : Expr := .binary default l op r
  let sums := join .sub (join .add (number 1) (join .mul (number 2) (number 3))) (number 4)
  let bits := join .bitXor (join .bitAnd (join .leftShift sums (number 5)) (number 6)) (number 7)
  .compare default (join .bitOr bits (.call default (.name default "f" .load) [.name default "x" .load]))
    [.less, .notEqual] [number (BitVec.intMin 64), .name default "y" .load]

theorem derives_sampleTokens : Derives .expression (sampleTokens.map Token.kind) sampleExpr.erase := by
  have number : ∀ (m : Nat) {n : Nat}, n < 2 ^ 63 →
      Derives (.binary m) [.int n] (.const default (.int (BitVec.ofNat 64 n))) :=
    fun m _ hn => (Derives.int hn).atom.operand.operandAt m
  have hargs : ∀ arg ∈ [([Kind.ident "x"], Expr.name default "x" .load)], Derives .expression arg.1 arg.2 := by
    intro arg harg
    rw [List.mem_singleton.mp harg]
    exact (Derives.name "x").atom.operand.expression
  have hcall := Derives.call (Derives.name "f").atom hargs (Or.inr ⟨List.cons_ne_nil _ _, rfl⟩)
  have hproduct := Derives.binary (show (.star, .mul) ∈ operatorsAt 1 by decide) (number 1 (n := 2) (by decide))
    (number 0 (n := 3) (by decide))
  have hsum := Derives.binary (show (.plus, .add) ∈ operatorsAt 2 by decide) (number 2 (n := 1) (by decide)) hproduct
  have hdifference := Derives.binary (show (.minus, .sub) ∈ operatorsAt 2 by decide) hsum (number 1 (n := 4) (by decide))
  have hshift := Derives.binary (show (.leftShift, .leftShift) ∈ operatorsAt 3 by decide) hdifference.looser
    (number 2 (n := 5) (by decide))
  have hand := Derives.binary (show (.ampersand, .bitAnd) ∈ operatorsAt 4 by decide) hshift.looser
    (number 3 (n := 6) (by decide))
  have hxor := Derives.binary (show (.caret, .bitXor) ∈ operatorsAt 5 by decide) hand.looser
    (number 4 (n := 7) (by decide))
  have hor := Derives.binary (show (.pipe, .bitOr) ∈ operatorsAt 6 by decide) hxor.looser (hcall.operand.operandAt 5)
  have hpairs : ∀ p ∈ [((Symbol.less, CompareOp.less), [Kind.sym .minus, .int (2 ^ 63)],
        Expr.const default (.int (BitVec.intMin 64))),
      ((.bangEqual, .notEqual), [.ident "y"], .name default "y" .load)], Derives (.binary 6) p.2.1 p.2.2 := by
    refine List.forall_mem_cons.mpr ⟨Derives.least.operandAt 6, List.forall_mem_singleton.mpr ?_⟩
    exact (Derives.name "y").atom.operand.operandAt 6
  exact Derives.compare (List.cons_ne_nil _ _) (by decide) hor hpairs

/-- The sample is read up to the end of its line, and what is read is derived again. -/
theorem expression_decides_grammar_sampleTokens :
    ∃ p : Parsed Expr (sampleTokens ++ [⟨.newline, default⟩]),
      expression default (sampleTokens ++ [⟨.newline, default⟩]) = .ok p ∧ p.rest = [⟨.newline, default⟩] ∧
        p.value.erase = sampleExpr.erase ∧ ∃ front, sampleTokens ++ [⟨.newline, default⟩] = front ++ p.rest ∧
          Derives .expression (front.map Token.kind) p.value.erase ∧ Clear p.rest := by
  obtain ⟨p, hp, hrest, hx⟩ :=
    (expression_decides_grammar default).2 sampleTokens [⟨.newline, default⟩] sampleExpr derives_sampleTokens rfl
  exact ⟨p, hp, hrest, hx, (expression_decides_grammar default).1 _ p hp⟩

end Offside.Tree
