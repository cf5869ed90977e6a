import Offside.Proofs.Grammar

/-!
# `Proofs.Makeup` — which tokens make which tree, places included

A tree is made of tokens. `Makes` says so of expressions and of what stands in expressions, `Composes` of statements, one
constructor for each way to build a node, with the span that the node gets. Levels of precedence play no part here; they
are `Proofs.Grammar`'s.

The parser builds nothing else: what a function of it returns is made of the tokens that it took off the front, and the
tokens behind them are those that it leaves (`makes_expression`, `composes_moduleLines`). So a fact about trees that were
read is proved by induction on how they are made, without another walk through the parser.
-/

namespace Offside

/-- The constant that a token is on its own. -/
def Token.Kind.literal? : Token.Kind → Option Constant
  | .int n => if n < Tree.signBound then some (.int (BitVec.ofNat 64 n)) else none
  | .kw .true_ => some (.bool true)
  | .kw .false_ => some (.bool false)
  | .str s => some (.str s)
  | _ => none

end Offside

namespace Offside.Tree

/-! ## Expressions -/

/-- What tokens make inside a simple statement or a signature. -/
inductive Piece where
  | expr (e : Expr)
  | args (es : List Expr)
  | chain (pairs : List (CompareOp × Expr))
  /-- The targets of an assignment, each with the sign behind it. -/
  | targets (es : List Expr)
  | params (names : List String)

/-- **The tokens make the piece**, from the first of them to the last. -/
inductive Makes : List Token → Piece → Prop where
  | literal {t : Token} {v : Constant} (ht : t.kind.literal? = some v) : Makes [t] (.expr (.const t.span v))
  | name {t : Token} {id : String} (ht : t.kind = .ident id) : Makes [t] (.expr (.name t.span id .load))
  /-- Parentheses leave no node behind, only a wider span. -/
  | parens {ts : List Token} {l r : Token} {e : Expr} (hl : l.kind = .sym .leftParen) (hr : r.kind = .sym .rightParen)
      (he : Makes ts (.expr e)) : Makes (l :: (ts ++ [r])) (.expr (e.withSpan ⟨l.span.start, r.span.stop⟩))
  | call {ts us : List Token} {l r : Token} {f : Expr} {es : List Expr} (hf : Makes ts (.expr f))
      (hl : l.kind = .sym .leftParen) (hes : Makes us (.args es)) (hr : r.kind = .sym .rightParen) :
      Makes (ts ++ l :: (us ++ [r])) (.expr (.call ⟨f.span.start, r.span.stop⟩ f es))
  /-- The least number: a minus sign directly in front of the literal that is one too large. -/
  | least {sign t : Token} (hsign : sign.kind = .sym .minus) (ht : t.kind = .int signBound) :
      Makes [sign, t] (.expr (.const ⟨sign.span.start, t.span.stop⟩ (.int (BitVec.intMin 64))))
  | unary {ts : List Token} {t : Token} {op : UnaryOp} {e : Expr} (ht : t.kind = .sym op.symbol)
      (he : Makes ts (.expr e)) : Makes (t :: ts) (.expr (.unary ⟨t.span.start, e.span.stop⟩ op e))
  | binary {ts us : List Token} {t : Token} {op : BinaryOp} {l r : Expr} (hl : Makes ts (.expr l))
      (ht : t.kind = .sym op.symbol) (hr : Makes us (.expr r)) :
      Makes (ts ++ t :: us) (.expr (.binary (l.span.join r.span) l op r))
  | compare {ts us : List Token} {l : Expr} {pairs : List (CompareOp × Expr)} (hl : Makes ts (.expr l))
      (hpairs : Makes us (.chain pairs)) : Makes (ts ++ us) (.expr (comparisonOf l pairs))
  | noArgs : Makes [] (.args [])
  | lastArg {ts : List Token} {e : Expr} (he : Makes ts (.expr e)) : Makes ts (.args [e])
  /-- Behind the last comma there may be nothing more. -/
  | moreArgs {ts us : List Token} {comma : Token} {e : Expr} {es : List Expr} (he : Makes ts (.expr e))
      (hcomma : comma.kind = .sym .comma) (hes : Makes us (.args es)) : Makes (ts ++ comma :: us) (.args (e :: es))
  | noPairs : Makes [] (.chain [])
  | morePairs {ts us : List Token} {t : Token} {op : CompareOp} {e : Expr} {pairs : List (CompareOp × Expr)}
      (ht : t.kind = .sym op.symbol) (he : Makes ts (.expr e)) (hpairs : Makes us (.chain pairs)) :
      Makes (t :: (ts ++ us)) (.chain ((op, e) :: pairs))
  | noTargets : Makes [] (.targets [])
  | moreTargets {ts us : List Token} {t : Token} {s : Span} {id : String} {use : NameUse} {es : List Expr}
      (he : Makes ts (.expr (.name s id use))) (ht : t.kind = .sym .equal) (hes : Makes us (.targets es)) :
      Makes (ts ++ t :: us) (.targets (.name s id .store :: es))
  | noParams : Makes [] (.params [])
  | lastParam {t : Token} {p : String} (ht : t.kind = .ident p) : Makes [t] (.params [p])
  | moreParams {ts : List Token} {t comma : Token} {p : String} {ps : List String} (ht : t.kind = .ident p)
      (hcomma : comma.kind = .sym .comma) (hps : Makes ts (.params ps)) :
      Makes (t :: comma :: ts) (.params (p :: ps))

variable {eof : Position} {ts mid rest : List Token} {R R' : List Token → Prop}

/-! ## Tokens taken off the front -/

/-- The rest is what is left of the tokens behind a front with the property. -/
def Front (ts rest : List Token) (R : List Token → Prop) : Prop := ∃ used, ts = used ++ rest ∧ R used

namespace Front

theorem none (h : R []) : Front ts ts R := ⟨[], rfl, h⟩

theorem token {t : Token} (h : R [t]) : Front (t :: rest) rest R := ⟨[t], rfl, h⟩

theorem mono (h : Front ts rest R) (hR : ∀ used, R used → R' used) : Front ts rest R' := by
  obtain ⟨used, hused, h⟩ := h
  exact ⟨used, hused, hR used h⟩

/-- Two fronts, one behind the other. -/
theorem trans (h : Front ts mid R) (hmid : ∀ used, R used → Front mid rest fun more => R' (used ++ more)) :
    Front ts rest R' := by
  obtain ⟨used, rfl, h⟩ := h
  obtain ⟨more, rfl, h⟩ := hmid used h
  exact ⟨used ++ more, (List.append_assoc ..).symm, h⟩

theorem cons {t : Token} (h : Front ts rest fun used => R (t :: used)) : Front (t :: ts) rest R := by
  obtain ⟨used, rfl, h⟩ := h
  exact ⟨t :: used, rfl, h⟩

end Front

theorem front_expect {k : Token.Kind} {context : Context} {p : Parsed Token ts} (h : expect eof k context ts = .ok p)
    (hp : p.value.kind = k → Front p.rest rest fun more => R (p.value :: more)) : Front ts rest R := by
  cases ts with
  | nil => exact absurd h (by simp [expect])
  | cons t ts =>
      rw [expect] at h
      split at h
      · next hk =>
          cases h
          exact .cons (hp hk)
      · exact absurd h (by simp)

theorem front_expectIdentifier {context : Context} {p : Parsed String ts}
    (h : expectIdentifier eof context ts = .ok p)
    (hp : ∀ t, t.kind = .ident p.value → Front p.rest rest fun more => R (t :: more)) : Front ts rest R := by
  cases ts with
  | nil => exact absurd h (by simp [expectIdentifier])
  | cons t ts =>
      rw [expectIdentifier] at h
      split at h
      · next hk =>
          cases h
          exact .cons (hp t hk)
      · exact absurd h (by simp)

theorem front_nextIs {k : Token.Kind} (hk : k ≠ .eof) (h : nextIs k ts = true)
    (ht : ∀ t, t.kind = k → Front ts.tail rest fun more => R (t :: more)) : Front ts rest R := by
  cases ts with
  | nil => exact absurd (beq_iff_eq.mp h) hk
  | cons t rest => exact .cons (ht t (beq_iff_eq.mp h))

/-! ## What the parser makes of expressions -/

-- The recursion and its measure are the parser's own. The two loops that go on from a left operand are given the tokens
-- of that operand, since what they return is made of these and of what they take themselves.
mutual

theorem makes_expression (ts : List Token) {p : Parsed Expr ts} (h : expression eof ts = .ok p) :
    Front ts p.rest (Makes · (.expr p.value)) := by
  rw [expression] at h
  obtain ⟨left, hleft, h⟩ := bind_eq_ok h
  have hshorter := left.shorter
  obtain ⟨pairs, hpairs, h⟩ := bind_eq_ok h
  cases h
  refine (makes_binary BinaryOp.loosest ts hleft).trans fun front hfront => ?_
  exact (makes_comparisons left.rest hpairs).mono fun more hmore => hfront.compare hmore
termination_by (ts.length, BinaryOp.loosest + 4)
decreasing_by
  · exact .right _ (Nat.lt_succ_self _)
  · exact .left _ _ hshorter

theorem makes_comparisons (ts : List Token) {p : Trail (List (CompareOp × Expr)) ts}
    (h : comparisons eof ts = .ok p) : Front ts p.rest (Makes · (.chain p.value)) := by
  match ts with
  | [] =>
      rw [comparisons] at h
      cases h
      exact .none .noPairs
  | t :: rest =>
      rw [comparisons] at h
      split at h
      · cases h
        exact .none .noPairs
      · next op hop =>
          obtain ⟨right, hright, h⟩ := bind_eq_ok h
          have hshorter := right.shorter
          obtain ⟨more, hmore, h⟩ := bind_eq_ok h
          cases h
          refine .cons ((makes_binary BinaryOp.loosest rest hright).trans fun used hused => ?_)
          refine (makes_comparisons right.rest hmore).mono fun back hback => ?_
          exact .morePairs (Token.Kind.compareOp?_eq_some.mp hop) hused hback
termination_by (ts.length, 0)
decreasing_by
  · exact .left _ _ (Nat.lt_succ_self _)
  · exact .left _ _ (Nat.lt_succ_of_lt hshorter)

theorem makes_binary (level : Nat) (ts : List Token) {p : Parsed Expr ts} (h : binary eof level ts = .ok p) :
    Front ts p.rest (Makes · (.expr p.value)) := by
  match level with
  | 0 =>
      rw [binary] at h
      exact makes_unary ts h
  | level + 1 =>
      rw [binary] at h
      obtain ⟨left, hleft, h⟩ := bind_eq_ok h
      have hshorter := left.shorter
      obtain ⟨whole, hwhole, h⟩ := bind_eq_ok h
      cases h
      exact (makes_binary level ts hleft).trans fun front hfront => makes_binaryTail level hfront left.rest hwhole
termination_by (ts.length, level + 3)
decreasing_by
  · exact .right _ (Nat.lt_succ_self _)
  · exact .right _ (Nat.lt_succ_self _)
  · exact .left _ _ hshorter

theorem makes_binaryTail (level : Nat) {front : List Token} {left : Expr} (hleft : Makes front (.expr left))
    (ts : List Token) {p : Trail Expr ts} (h : binaryTail eof level left ts = .ok p) :
    Front ts p.rest fun used => Makes (front ++ used) (.expr p.value) := by
  match ts with
  | [] =>
      rw [binaryTail] at h
      cases h
      exact .none (by rwa [List.append_nil])
  | t :: rest =>
      rw [binaryTail] at h
      split at h
      · cases h
        exact .none (by rwa [List.append_nil])
      · next op hop =>
          have ht := Token.Kind.binaryOp?_eq_some.mp (Token.Kind.binaryOpAt?_eq_some.mp hop).1
          obtain ⟨right, hright, h⟩ := bind_eq_ok h
          have hshorter := right.shorter
          obtain ⟨whole, hwhole, h⟩ := bind_eq_ok h
          cases h
          refine .cons ((makes_binary level rest hright).trans fun used hused => ?_)
          refine (makes_binaryTail level (hleft.binary ht hused) right.rest hwhole).mono fun back hback => ?_
          rwa [List.append_assoc] at hback
termination_by (ts.length, 0)
decreasing_by
  · exact .left _ _ (Nat.lt_succ_self _)
  · exact .left _ _ (Nat.lt_succ_of_lt hshorter)

theorem makes_unary (ts : List Token) {p : Parsed Expr ts} (h : unary eof ts = .ok p) :
    Front ts p.rest (Makes · (.expr p.value)) := by
  match ts with
  | [] =>
      rw [unary] at h
      exact makes_call [] h
  | t :: rest =>
      rw [unary] at h
      split at h
      · exact makes_call (t :: rest) h
      · next op hop =>
          have hsign := Token.Kind.unaryOp?_eq_some.mp hop
          split at h
          · next literal hliteral =>
              cases h
              cases rest with
              | nil => exact absurd hliteral (by simp [leastNumber?])
              | cons t' rest =>
                  rw [leastNumber?] at hliteral
                  split at hliteral
                  · next hleast =>
                      cases hliteral
                      obtain ⟨rfl, hkind⟩ := hleast
                      exact .cons (.token (.least hsign hkind))
                  · exact absurd hliteral (by simp)
          · obtain ⟨operand, hoperand, h⟩ := bind_eq_ok h
            cases h
            exact .cons ((makes_unary rest hoperand).mono fun used hused => .unary hsign hused)
termination_by (ts.length, 2)
decreasing_by
  · exact .right _ (Nat.lt_succ_self _)
  · exact .right _ (Nat.lt_succ_self _)
  · exact .left _ _ (Nat.lt_succ_self _)

theorem makes_call (ts : List Token) {p : Parsed Expr ts} (h : call eof ts = .ok p) :
    Front ts p.rest (Makes · (.expr p.value)) := by
  rw [call] at h
  obtain ⟨func, hfunc, h⟩ := bind_eq_ok h
  have hshorter := func.shorter
  obtain ⟨whole, hwhole, h⟩ := bind_eq_ok h
  cases h
  exact (makes_atom ts hfunc).trans fun front hfront => makes_callTail hfront func.rest hwhole
termination_by (ts.length, 1)
decreasing_by
  · exact .right _ Nat.zero_lt_one
  · exact .left _ _ hshorter

theorem makes_callTail {front : List Token} {func : Expr} (hfunc : Makes front (.expr func)) (ts : List Token)
    {p : Trail Expr ts} (h : callTail eof func ts = .ok p) :
    Front ts p.rest fun used => Makes (front ++ used) (.expr p.value) := by
  match ts with
  | [] =>
      rw [callTail] at h
      cases h
      exact .none (by rwa [List.append_nil])
  | t :: rest =>
      rw [callTail] at h
      split at h
      · next hopen =>
          obtain ⟨args, hargs, h⟩ := bind_eq_ok h
          have hnoLonger := args.noLonger
          obtain ⟨close, hclose, h⟩ := bind_eq_ok h
          have hshorter := close.shorter
          obtain ⟨whole, hwhole, h⟩ := bind_eq_ok h
          cases h
          have hcall : Front (t :: rest) close.rest fun used =>
              Makes (front ++ used) (.expr (.call ⟨func.span.start, close.value.span.stop⟩ func args.value)) := by
            refine .cons ((makes_arguments rest hargs).trans fun used hused => ?_)
            exact front_expect hclose fun hkind => .none (hfunc.call hopen hused hkind)
          refine hcall.trans fun used hused => ?_
          refine (makes_callTail hused close.rest hwhole).mono fun back hback => ?_
          rwa [List.append_assoc] at hback
      · cases h
        exact .none (by rwa [List.append_nil])
termination_by (ts.length, 0)
decreasing_by
  · exact .left _ _ (Nat.lt_succ_self _)
  · exact .left _ _ (Nat.lt_succ_of_lt (Nat.lt_of_lt_of_le hshorter hnoLonger))

theorem makes_arguments (ts : List Token) {p : Trail (List Expr) ts} (h : arguments eof ts = .ok p) :
    Front ts p.rest (Makes · (.args p.value)) := by
  rw [arguments] at h
  split at h
  · cases h
    exact .none .noArgs
  · obtain ⟨args, hargs, h⟩ := bind_eq_ok h
    cases h
    exact makes_argumentList ts hargs
termination_by (ts.length, BinaryOp.loosest + 6)
decreasing_by exact .right _ (Nat.lt_succ_self _)

theorem makes_argumentList (ts : List Token) {p : Parsed (List Expr) ts} (h : argumentList eof ts = .ok p) :
    Front ts p.rest (Makes · (.args p.value)) := by
  rw [argumentList] at h
  obtain ⟨first, hfirst, h⟩ := bind_eq_ok h
  have hshorter := first.shorter
  have hmakes := makes_expression ts hfirst
  split at h
  · next t rest hrest =>
      rw [hrest] at hmakes hshorter
      split at h
      · next hcomma =>
          split at h
          · cases h
            exact hmakes.trans fun used hused => .token (hused.moreArgs hcomma .noArgs)
          · have hlt : rest.length < ts.length := Nat.lt_of_succ_lt hshorter
            obtain ⟨more, hmore, h⟩ := bind_eq_ok h
            cases h
            refine hmakes.trans fun used hused => .cons ?_
            exact (makes_argumentList rest hmore).mono fun back hback => hused.moreArgs hcomma hback
      · cases h
        exact hmakes.mono fun used hused => hused.lastArg
  · next hrest =>
      rw [hrest] at hmakes
      cases h
      exact hmakes.mono fun used hused => hused.lastArg
termination_by (ts.length, BinaryOp.loosest + 5)
decreasing_by
  · exact .right _ (Nat.lt_succ_self _)
  · exact .left _ _ hlt

theorem makes_atom (ts : List Token) {p : Parsed Expr ts} (h : atom eof ts = .ok p) :
    Front ts p.rest (Makes · (.expr p.value)) := by
  match ts with
  | [] =>
      rw [atom] at h
      exact absurd h (by simp)
  | t :: rest =>
      rw [atom] at h
      split at h
      · next n hn =>
          split at h
          · next hlt =>
              cases h
              exact .token (.literal (by rw [hn, Token.Kind.literal?, if_pos hlt]))
          · exact absurd h (by simp)
      · next hk =>
          cases h
          exact .token (.literal (by rw [hk, Token.Kind.literal?]))
      · next hk =>
          cases h
          exact .token (.literal (by rw [hk, Token.Kind.literal?]))
      · next hk =>
          cases h
          exact .token (.literal (by rw [hk, Token.Kind.literal?]))
      · next hid =>
          cases h
          exact .token (.name hid)
      · next hopen =>
          obtain ⟨inner, hinner, h⟩ := bind_eq_ok h
          obtain ⟨close, hclose, h⟩ := bind_eq_ok h
          cases h
          refine .cons ((makes_expression rest hinner).trans fun used hused => ?_)
          exact front_expect hclose fun hkind => .none (.parens hopen hkind hused)
      · exact absurd h (by simp)
termination_by (ts.length, 0)
decreasing_by exact .left _ _ (Nat.lt_succ_self _)

end

/-! ## Statements -/

/-- What statements are in the place where they stand. -/
inductive Role where
  /-- One simple statement. -/
  | simple
  /-- Simple statements behind the first of their line, each behind a semicolon. -/
  | tail
  /-- A line of simple statements, with its end. -/
  | row
  /-- A logical line. -/
  | line
  /-- A conditional, from the word that starts it. -/
  | cond (word : Keyword)
  /-- The other branch of a conditional. -/
  | orelse
  /-- A block, from its colon. -/
  | block
  /-- The lines of a block. -/
  | lines
  /-- The lines of a file. -/
  | file

/-- **The tokens compose the statements**, which play the given role. -/
inductive Composes : Role → List Token → List Stmt → Prop where
  | pass {t : Token} (ht : t.kind = .kw .pass_) : Composes .simple [t] [.pass t.span]
  | leave {t : Token} (ht : t.kind = .kw .return_) : Composes .simple [t] [.ret t.span none]
  | ret {ts : List Token} {t : Token} {e : Expr} (ht : t.kind = .kw .return_) (he : Makes ts (.expr e)) :
      Composes .simple (t :: ts) [.ret ⟨t.span.start, e.span.stop⟩ (some e)]
  /-- Without targets this is a statement of the value alone. -/
  | assign {ts us : List Token} {targets : List Expr} {value : Expr} (htargets : Makes ts (.targets targets))
      (hvalue : Makes us (.expr value)) : Composes .simple (ts ++ us) [assignmentOf targets value]
  | augAssign {ts us : List Token} {t : Token} {s : Span} {id : String} {use : NameUse} {op : BinaryOp} {value : Expr}
      (htarget : Makes ts (.expr (.name s id use))) (ht : t.kind.assignmentOp? = some op)
      (hvalue : Makes us (.expr value)) :
      Composes .simple (ts ++ t :: us) [.augAssign (s.join value.span) (.name s id .store) op value]
  | stop : Composes .tail [] []
  | semicolon {t : Token} (ht : t.kind = .sym .semicolon) : Composes .tail [t] []
  | more {ts us : List Token} {t : Token} {st : Stmt} {sts : List Stmt} (ht : t.kind = .sym .semicolon)
      (hst : Composes .simple ts [st]) (hsts : Composes .tail us sts) :
      Composes .tail (t :: (ts ++ us)) (st :: sts)
  | row {ts us : List Token} {t : Token} {st : Stmt} {sts : List Stmt} (hst : Composes .simple ts [st])
      (hsts : Composes .tail us sts) (ht : t.kind = .newline) : Composes .row (ts ++ (us ++ [t])) (st :: sts)
  | line {ts : List Token} {sts : List Stmt} (h : Composes .row ts sts) : Composes .line ts sts
  | funcDef {ts us : List Token} {t name l r : Token} {f : String} {params : List String} {body : List Stmt}
      (ht : t.kind = .kw .def_) (hname : name.kind = .ident f) (hl : l.kind = .sym .leftParen)
      (hparams : Makes ts (.params params)) (hr : r.kind = .sym .rightParen) (hbody : Composes .block us body) :
      Composes .line (t :: name :: l :: (ts ++ r :: us)) [.funcDef (blockSpan t.span.start body) f params body]
  | loop {ts us : List Token} {t : Token} {test : Expr} {body : List Stmt} (ht : t.kind = .kw .while_)
      (htest : Makes ts (.expr test)) (hbody : Composes .block us body) :
      Composes .line (t :: (ts ++ us)) [.loop (blockSpan t.span.start body) test body]
  | if_ {ts : List Token} {sts : List Stmt} (h : Composes (.cond .if_) ts sts) : Composes .line ts sts
  /-- A conditional ends with the last branch it has. -/
  | cond {ts us vs : List Token} {t : Token} {word : Keyword} {test : Expr} {body orelse : List Stmt}
      (ht : t.kind = .kw word) (htest : Makes ts (.expr test)) (hbody : Composes .block us body)
      (horelse : Composes .orelse vs orelse) :
      Composes (.cond word) (t :: (ts ++ (us ++ vs)))
        [.cond (blockSpan t.span.start (if orelse.isEmpty then body else orelse)) test body orelse]
  | noElse : Composes .orelse [] []
  | elif_ {ts : List Token} {sts : List Stmt} (h : Composes (.cond .elif_) ts sts) : Composes .orelse ts sts
  | else_ {ts : List Token} {t : Token} {sts : List Stmt} (ht : t.kind = .kw .else_) (h : Composes .block ts sts) :
      Composes .orelse (t :: ts) sts
  | inline {ts : List Token} {colon : Token} {sts : List Stmt} (hcolon : colon.kind = .sym .colon)
      (h : Composes .row ts sts) : Composes .block (colon :: ts) sts
  | indented {ts : List Token} {colon newline indent dedent : Token} {sts : List Stmt}
      (hcolon : colon.kind = .sym .colon) (hnewline : newline.kind = .newline) (hindent : indent.kind = .indent)
      (h : Composes .lines ts sts) (hdedent : dedent.kind = .dedent) :
      Composes .block (colon :: newline :: indent :: (ts ++ [dedent])) sts
  | noLines : Composes .lines [] []
  | moreLines {ts us : List Token} {sts sts' : List Stmt} (h : Composes .line ts sts) (h' : Composes .lines us sts') :
      Composes .lines (ts ++ us) (sts ++ sts')
  | endFile : Composes .file [] []
  | skip {ts : List Token} {t : Token} {sts : List Stmt} (ht : t.kind = .newline) (h : Composes .file ts sts) :
      Composes .file (t :: ts) sts
  | moreFile {ts us : List Token} {sts sts' : List Stmt} (h : Composes .line ts sts) (h' : Composes .file us sts') :
      Composes .file (ts ++ us) (sts ++ sts')

/-! ## What the parser makes of statements -/

theorem exists_name_of_asTarget {e target : Expr} (h : asTarget e = .ok target) :
    ∃ s id use, e = .name s id use ∧ target = .name s id .store := by
  cases e with
  | name s id use =>
      cases h
      exact ⟨s, id, use, rfl, rfl⟩
  | _ => exact absurd h (by simp [asTarget])

/-- The loop over the targets is given the tokens of the first expression, which is a target if a sign follows it. -/
theorem makes_assignmentTail {front : List Token} {value : Expr} (hvalue : Makes front (.expr value)) (ts : List Token)
    {p : Trail (List Expr × Expr) ts} (h : assignmentTail eof value ts = .ok p) :
    Front ts p.rest fun used => ∃ us vs, front ++ used = us ++ vs ∧ Makes us (.targets p.value.1) ∧
      Makes vs (.expr p.value.2) := by
  match ts with
  | [] =>
      rw [assignmentTail] at h
      cases h
      exact .none ⟨[], front, List.append_nil _, .noTargets, hvalue⟩
  | t :: rest =>
      rw [assignmentTail] at h
      split at h
      · next hequal =>
          obtain ⟨target, htarget, h⟩ := bind_eq_ok h
          obtain ⟨next, hnext, h⟩ := bind_eq_ok h
          have hshorter := next.shorter_cons t
          obtain ⟨more, hmore, h⟩ := bind_eq_ok h
          cases h
          obtain ⟨s, id, use, rfl, rfl⟩ := exists_name_of_asTarget htarget
          refine .cons ((makes_expression rest hnext).trans fun used hused => ?_)
          refine (makes_assignmentTail hused next.rest hmore).mono fun back hback => ?_
          obtain ⟨us, vs, heq, hus, hvs⟩ := hback
          exact ⟨front ++ t :: us, vs, by rw [heq, List.append_assoc, List.cons_append], hvalue.moreTargets hequal hus,
            hvs⟩
      · cases h
        exact .none ⟨[], front, List.append_nil _, .noTargets, hvalue⟩
termination_by ts.length
decreasing_by exact hshorter

theorem front_augmented {op : Parsed BinaryOp ts} (h : augmented? ts = some op)
    (hop : ∀ t, t.kind.assignmentOp? = some op.value → Front op.rest rest fun more => R (t :: more)) :
    Front ts rest R := by
  cases ts with
  | nil => exact absurd h (by simp [augmented?])
  | cons t ts =>
      obtain ⟨_, hkind, rfl⟩ := Option.map_eq_some_iff.mp h
      exact .cons (hop t hkind)

theorem composes_expressionStatement {p : Parsed Stmt ts} (h : expressionStatement eof ts = .ok p) :
    Front ts p.rest (Composes .simple · [p.value]) := by
  unfold expressionStatement at h
  obtain ⟨first, hfirst, h⟩ := bind_eq_ok h
  have hmakes := makes_expression ts hfirst
  dsimp only at h
  split at h
  · next op hop =>
      obtain ⟨target, htarget, h⟩ := bind_eq_ok h
      obtain ⟨value, hvalue, h⟩ := bind_eq_ok h
      cases h
      obtain ⟨s, id, use, hname, rfl⟩ := exists_name_of_asTarget htarget
      rw [hname] at hmakes
      refine hmakes.trans fun used hused => front_augmented hop fun t ht => ?_
      exact (makes_expression op.rest hvalue).mono fun back hback => .augAssign hused ht hback
  · obtain ⟨whole, hwhole, h⟩ := bind_eq_ok h
    cases h
    refine hmakes.trans fun used hused => ?_
    refine (makes_assignmentTail hused first.rest hwhole).mono fun back hback => ?_
    obtain ⟨us, vs, heq, hus, hvs⟩ := hback
    rw [heq]
    exact .assign hus hvs

theorem composes_simpleStatement {p : Parsed Stmt ts} (h : simpleStatement eof ts = .ok p) :
    Front ts p.rest (Composes .simple · [p.value]) := by
  unfold simpleStatement at h
  split at h
  · exact composes_expressionStatement h
  · next t rest =>
      split at h
      · next hpass =>
          cases h
          exact .token (.pass hpass)
      split at h
      · next hret =>
          split at h
          · cases h
            exact .token (.leave hret)
          · obtain ⟨value, hvalue, h⟩ := bind_eq_ok h
            cases h
            exact .cons ((makes_expression rest hvalue).mono fun used hused => .ret hret hused)
      · exact composes_expressionStatement h

theorem composes_simpleTail (ts : List Token) {p : Trail (List Stmt) ts} (h : simpleTail eof ts = .ok p) :
    Front ts p.rest (Composes .tail · p.value) := by
  match ts with
  | [] =>
      rw [simpleTail] at h
      cases h
      exact .none .stop
  | t :: rest =>
      rw [simpleTail] at h
      split at h
      · next hsemicolon =>
          split at h
          · cases h
            exact .token (.semicolon hsemicolon)
          · obtain ⟨stmt, hstmt, h⟩ := bind_eq_ok h
            have hshorter := stmt.shorter_cons t
            obtain ⟨more, hmore, h⟩ := bind_eq_ok h
            cases h
            refine .cons ((composes_simpleStatement hstmt).trans fun used hused => ?_)
            exact (composes_simpleTail stmt.rest hmore).mono fun back hback => .more hsemicolon hused hback
      · cases h
        exact .none .stop
termination_by ts.length
decreasing_by exact hshorter

theorem composes_simpleStatements {p : Parsed (List Stmt) ts} (h : simpleStatements eof ts = .ok p) :
    Front ts p.rest (Composes .row · p.value) := by
  unfold simpleStatements at h
  obtain ⟨first, hfirst, h⟩ := bind_eq_ok h
  obtain ⟨more, hmore, h⟩ := bind_eq_ok h
  obtain ⟨close, hclose, h⟩ := bind_eq_ok h
  cases h
  refine (composes_simpleStatement hfirst).trans fun used hused => ?_
  refine (composes_simpleTail first.rest hmore).trans fun back hback => ?_
  exact front_expect hclose fun hkind => .none (.row hused hback hkind)

theorem makes_parameterNames (ts : List Token) {p : Parsed (List String) ts} (h : parameterNames eof ts = .ok p) :
    Front ts p.rest (Makes · (.params p.value)) := by
  rw [parameterNames] at h
  obtain ⟨first, hfirst, h⟩ := bind_eq_ok h
  have hshorter := first.shorter
  refine front_expectIdentifier hfirst fun t ht => ?_
  split at h
  · next comma rest hrest =>
      rw [hrest] at hshorter ⊢
      split at h
      · next hcomma =>
          split at h
          · cases h
            exact .token (.moreParams ht hcomma .noParams)
          · have hlt : rest.length < ts.length := Nat.lt_of_succ_lt hshorter
            obtain ⟨more, hmore, h⟩ := bind_eq_ok h
            cases h
            exact .cons ((makes_parameterNames rest hmore).mono fun back hback => .moreParams ht hcomma hback)
      · cases h
        exact .none (.lastParam ht)
  · next hrest =>
      rw [hrest]
      cases h
      exact .none (.lastParam ht)
termination_by ts.length

theorem makes_parameters {p : Trail (List String) ts} (h : parameters eof ts = .ok p) :
    Front ts p.rest (Makes · (.params p.value)) := by
  unfold parameters at h
  split at h
  · cases h
    exact .none .noParams
  · obtain ⟨names, hnames, h⟩ := bind_eq_ok h
    cases h
    exact makes_parameterNames ts hnames

/-- The head of a definition, taken to pieces. -/
theorem front_signature {p : Parsed (String × List String) ts} (h : signature eof ts = .ok p) :
    Front ts p.rest fun used => ∃ us name l r, used = name :: l :: (us ++ [r]) ∧ name.kind = .ident p.value.1 ∧
      l.kind = .sym .leftParen ∧ Makes us (.params p.value.2) ∧ r.kind = .sym .rightParen := by
  unfold signature at h
  obtain ⟨name, hname, h⟩ := bind_eq_ok h
  obtain ⟨opened, hopened, h⟩ := bind_eq_ok h
  obtain ⟨params, hparams, h⟩ := bind_eq_ok h
  obtain ⟨closed, hclosed, h⟩ := bind_eq_ok h
  cases h
  refine front_expectIdentifier hname fun t ht => front_expect hopened fun hl => ?_
  refine (makes_parameters hparams).trans fun us hus => ?_
  exact front_expect hclosed fun hr => .none ⟨us, t, opened.value, closed.value, rfl, ht, hl, hus, hr⟩

-- Again the parser's recursion. A conditional is given the word that starts it, which has been read.
mutual

theorem composes_statementLine (ts : List Token) {p : Parsed (List Stmt) ts} (h : statementLine eof ts = .ok p) :
    Front ts p.rest (Composes .line · p.value) := by
  match ts with
  | [] =>
      rw [statementLine] at h
      exact (composes_simpleStatements h).mono fun used hused => hused.line
  | t :: rest =>
      rw [statementLine] at h
      split at h
      · next hdef =>
          obtain ⟨head, hhead, h⟩ := bind_eq_ok h
          have hshorter := head.shorter
          obtain ⟨body, hbody, h⟩ := bind_eq_ok h
          cases h
          refine .cons ((front_signature hhead).trans ?_)
          rintro _ ⟨us, name, l, r, rfl, hname, hl, hparams, hr⟩
          refine (composes_block _ head.rest hbody).mono fun back hback => ?_
          have hwhole := Composes.funcDef hdef hname hl hparams hr hback
          rwa [List.append_cons] at hwhole
      · next hif =>
          obtain ⟨stmt, hstmt, h⟩ := bind_eq_ok h
          cases h
          exact .cons ((composes_conditional hif rest hstmt).mono fun used hused => hused.if_)
      · next hwhile =>
          obtain ⟨test, htest, h⟩ := bind_eq_ok h
          have hshorter := test.shorter
          obtain ⟨body, hbody, h⟩ := bind_eq_ok h
          cases h
          refine .cons ((makes_expression rest htest).trans fun used hused => ?_)
          exact (composes_block _ test.rest hbody).mono fun back hback => .loop hwhile hused hback
      · exact absurd h (by simp)
      · exact (composes_simpleStatements h).mono fun used hused => hused.line
termination_by (ts.length, 0)
decreasing_by
  · exact .left _ _ (Nat.lt_succ_of_lt hshorter)
  · exact .left _ _ (Nat.lt_succ_self _)
  · exact .left _ _ (Nat.lt_succ_of_lt hshorter)

theorem composes_conditional {t : Token} {word : Keyword} (ht : t.kind = .kw word) (ts : List Token)
    {p : Parsed Stmt ts} (h : conditional eof t.span.start ts = .ok p) :
    Front ts p.rest fun used => Composes (.cond word) (t :: used) [p.value] := by
  rw [conditional] at h
  obtain ⟨test, htest, h⟩ := bind_eq_ok h
  have hshorter := test.shorter
  obtain ⟨body, hbody, h⟩ := bind_eq_ok h
  have hshorter' := body.shorter
  obtain ⟨other, hother, h⟩ := bind_eq_ok h
  cases h
  refine (makes_expression ts htest).trans fun used hused => ?_
  refine (composes_block _ test.rest hbody).trans fun front hfront => ?_
  exact (composes_alternative body.rest hother).mono fun back hback => .cond ht hused hfront hback
termination_by (ts.length, 0)
decreasing_by
  · exact .left _ _ hshorter
  · exact .left _ _ (Nat.lt_trans hshorter' hshorter)

theorem composes_alternative (ts : List Token) {p : Trail (List Stmt) ts} (h : alternative eof ts = .ok p) :
    Front ts p.rest (Composes .orelse · p.value) := by
  match ts with
  | [] =>
      rw [alternative] at h
      cases h
      exact .none .noElse
  | t :: rest =>
      rw [alternative] at h
      split at h
      · next helif =>
          obtain ⟨stmt, hstmt, h⟩ := bind_eq_ok h
          cases h
          exact .cons ((composes_conditional helif rest hstmt).mono fun used hused => hused.elif_)
      · next helse =>
          obtain ⟨body, hbody, h⟩ := bind_eq_ok h
          cases h
          exact .cons ((composes_block _ rest hbody).mono fun used hused => .else_ helse hused)
      · cases h
        exact .none .noElse
termination_by (ts.length, 0)
decreasing_by
  · exact .left _ _ (Nat.lt_succ_self _)
  · exact .left _ _ (Nat.lt_succ_self _)

theorem composes_block (context : Context) (ts : List Token) {p : Parsed (List Stmt) ts}
    (h : block eof context ts = .ok p) : Front ts p.rest (Composes .block · p.value) := by
  rw [block] at h
  obtain ⟨colon, hcolon, h⟩ := bind_eq_ok h
  have hshorter := colon.shorter
  refine front_expect hcolon fun hk => ?_
  split at h
  · next hnext =>
      obtain ⟨opened, hopened, h⟩ := bind_eq_ok h
      have hshorter' := opened.shorter
      have htail : colon.rest.tail.length ≤ colon.rest.length := by simp
      obtain ⟨body, hbody, h⟩ := bind_eq_ok h
      obtain ⟨closed, hclosed, h⟩ := bind_eq_ok h
      cases h
      refine front_nextIs (by simp) hnext fun newline hnewline => front_expect hopened fun hindent => ?_
      refine (composes_blockLines opened.rest hbody).trans fun used hused => ?_
      exact front_expect hclosed fun hdedent => .none (.indented hk hnewline hindent hused hdedent)
  · obtain ⟨body, hbody, h⟩ := bind_eq_ok h
    cases h
    exact (composes_simpleStatements hbody).mono fun used hused => .inline hk hused
termination_by (ts.length, 0)
decreasing_by exact .left _ _ (Nat.lt_trans (Nat.lt_of_lt_of_le hshorter' htail) hshorter)

theorem composes_blockLines (ts : List Token) {p : Trail (List Stmt) ts} (h : blockLines eof ts = .ok p) :
    Front ts p.rest (Composes .lines · p.value) := by
  rw [blockLines] at h
  split at h
  · cases h
    exact .none .noLines
  · obtain ⟨line, hline, h⟩ := bind_eq_ok h
    have hshorter := line.shorter
    obtain ⟨more, hmore, h⟩ := bind_eq_ok h
    cases h
    refine (composes_statementLine ts hline).trans fun used hused => ?_
    exact (composes_blockLines line.rest hmore).mono fun back hback => hused.moreLines hback
termination_by (ts.length, 1)
decreasing_by
  · exact .right _ Nat.zero_lt_one
  · exact .left _ _ hshorter

end

theorem composes_moduleLines (ts : List Token) {p : Trail (List Stmt) ts} (h : moduleLines eof ts = .ok p) :
    Front ts p.rest (Composes .file · p.value) := by
  match ts with
  | [] =>
      rw [moduleLines] at h
      cases h
      exact .none .endFile
  | t :: rest =>
      rw [moduleLines] at h
      split at h
      · cases h
        exact .none .endFile
      split at h
      · next hnewline =>
          obtain ⟨more, hmore, h⟩ := bind_eq_ok h
          cases h
          exact .cons ((composes_moduleLines rest hmore).mono fun used hused => .skip hnewline hused)
      · obtain ⟨line, hline, h⟩ := bind_eq_ok h
        have hshorter := line.shorter
        obtain ⟨more, hmore, h⟩ := bind_eq_ok h
        cases h
        refine (composes_statementLine (t :: rest) hline).trans fun used hused => ?_
        exact (composes_moduleLines line.rest hmore).mono fun back hback => hused.moreFile hback
termination_by ts.length
decreasing_by
  · exact hshorter
  · exact Nat.lt_succ_self _

/-- **The parser builds nothing else.** The tokens of a file start with those that compose its statements, and its span
    runs from the first token to the last. -/
theorem composes_parseModule {m : Module} (h : parseModule ts = .ok m) :
    (∃ rest, Front ts rest (Composes .file · m.body)) ∧ m.span = ⟨placeOf (eofOf ts) ts, eofOf ts⟩ := by
  unfold parseModule at h
  obtain ⟨lines, hlines, h⟩ := bind_eq_ok h
  cases h
  exact ⟨⟨lines.rest, composes_moduleLines ts hlines⟩, rfl⟩

end Offside.Tree
