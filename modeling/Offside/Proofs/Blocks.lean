import Offside.Proofs.Phrases

/-!
# `Proofs.Blocks` — statements that are written out are read back

A simple statement is read back up to the end of its line (`Simple`), a compound one with its blocks and
branches (`stmtReadsBack`). What follows a conditional must not start another branch of it (`NoBranch`); the
first token of a statement never does (`exists_kindsOf_cons`), so statements one below the other are read back
one by one.
-/

namespace Offside.Tree

open Token (Kind Outline parens commaList)

variable {eof : Position} {ts rest : List Token} {ks : List Kind} {t : Token} {e : Expr} {style : Style}

theorem eraseAll_append (ss ss' : List Stmt) :
    Stmt.eraseAll (ss ++ ss') = Stmt.eraseAll ss ++ Stmt.eraseAll ss' := by
  induction ss with
  | nil => rfl
  | cons st ss ih => rw [List.cons_append, Stmt.eraseAll, ih, Stmt.eraseAll, List.cons_append]

/-! ## Simple statements -/

/-- The expression of a statement is read back. -/
theorem yields_whole (eof : Position) (he : ReadsBack e) (hts : Spells ts (style.whole e) rest) (hends : Ends rest) :
    Yields (expression eof ts) rest (·.erase = e.erase) := by
  unfold Style.whole at hts
  split at hts
  · exact he.whole_parens eof hts hends
  · exact he.yields eof hts hends

/-- The tokens of a target are those of a name that is read, and what is read can be bound. -/
theorem exists_asTarget (eof : Position) (he : e.isTarget = true) (hts : Spells ts (style.whole e) rest)
    (hends : Ends rest) : Yields (expression eof ts) rest fun v =>
      ∃ target, asTarget v = .ok target ∧ target.erase = e.erase := by
  cases e with
  | name span id use =>
      simp only [Expr.isTarget, Bool.and_eq_true, beq_iff_eq] at he
      obtain rfl := he.2
      have hload : style.whole (.name span id .store) = style.whole (.name span id .load) := by
        simp only [Style.whole, Expr.kinds]
      rw [hload] at hts
      obtain ⟨v, hshorter, hv, hx⟩ := yields_whole eof (readsBack_name span id) hts hends
      refine ⟨v, hshorter, hv, ?_⟩
      cases v with
      | name span' id' use' =>
          simp only [Expr.erase, Expr.name.injEq] at hx
          obtain ⟨_, rfl, _⟩ := hx
          exact ⟨_, rfl, rfl⟩
      | const | binary | unary | compare | call => simp [Expr.erase] at hx
  | const | binary | unary | compare | call => exact absurd he (by simp [Expr.isTarget])

/-- Nothing is assigned where no sign follows. -/
theorem assignmentTail_ends (value : Expr) (h : t.kind ≠ .sym .equal) :
    assignmentTail eof value (t :: rest) = .ok (.nothing ([], value) (t :: rest)) := by
  rw [assignmentTail, if_neg h]

variable {newline : Token}

/-- A chain of assignments is read back, target by target. -/
theorem trails_assignmentTail (eof : Position) {first target value : Expr} {es : List Expr}
    (hfirst : asTarget first = .ok target) (hes : es.all Expr.isTarget = true) (hvalue : ReadsBack value)
    (hts : Spells ts (.sym .equal :: (style.targets es ++ style.whole value)) (newline :: rest))
    (hnewline : newline.kind = .newline) : Trails (assignmentTail eof first ts) (newline :: rest) fun p =>
      p.1.map Expr.erase = target.erase :: es.map Expr.erase ∧ p.2.erase = value.erase := by
  induction es generalizing first target ts with
  | nil =>
      obtain ⟨sign, ts', rfl, hsign, hts'⟩ := spells_cons.mp hts
      obtain ⟨v, hshorter, hv, hx⟩ := yields_whole eof hvalue hts' (ends_of_kind hnewline rfl)
      have hends : newline.kind ≠ .sym .equal := by rw [hnewline]; decide
      rw [assignmentTail, if_pos hsign]
      simp only [hfirst, hv, bind, Except.bind, assignmentTail_ends v hends, pure, Except.pure]
      exact ⟨_, _, rfl, rfl, hx⟩
  | cons e es ih =>
      rw [List.all_cons, Bool.and_eq_true] at hes
      obtain ⟨sign, ts', rfl, hsign, hts'⟩ := spells_cons.mp hts
      rw [Style.targets, List.flatMap_cons, List.append_assoc, List.append_assoc] at hts'
      obtain ⟨mid, hwhole, hmid⟩ := spells_append.mp hts'
      obtain ⟨sign', ts'', rfl, hsign', _⟩ := spells_cons.mp hmid
      obtain ⟨v, hshorter, hv, target', htarget', hx⟩ := exists_asTarget eof hes.1 hwhole (ends_of_kind hsign' rfl)
      obtain ⟨p, hnoLonger, hp, htargets, hlast⟩ := ih htarget' hes.2 hmid
      rw [assignmentTail, if_pos hsign]
      simp only [hfirst, hv, bind, Except.bind, hp, pure, Except.pure]
      refine ⟨_, _, rfl, ?_, hlast⟩
      rw [List.map_cons, htargets, hx, List.map_cons]

/-- The tokens of a statement of one line, and that they are read back up to the end of the line. -/
structure Simple (line : List Kind) (st : Stmt) : Prop where
  opens : ∃ k ks, line = k :: ks ∧ (k.opensExpr = true ∨ k = .kw .pass_ ∨ k = .kw .return_)
  reads : ∀ (eof : Position) ⦃ts rest : List Token⦄ ⦃newline : Token⦄, Spells ts line (newline :: rest) →
    newline.kind = .newline → Yields (simpleStatement eof ts) (newline :: rest) (·.erase = st.erase)

theorem simple_pass (span : Span) : Simple [.kw .pass_] (.pass span) where
  opens := ⟨_, _, rfl, Or.inr (Or.inl rfl)⟩
  reads eof ts rest newline hts hnewline := by
    obtain ⟨t, rfl, ht⟩ := spells_singleton.mp hts
    rw [simpleStatement, if_pos ht]
    exact ⟨_, _, rfl, rfl⟩

theorem simple_ret_none (span : Span) : Simple [.kw .return_] (.ret span none) where
  opens := ⟨_, _, rfl, Or.inr (Or.inr rfl)⟩
  reads eof ts rest newline hts hnewline := by
    obtain ⟨t, rfl, ht⟩ := spells_singleton.mp hts
    have hpass : t.kind ≠ .kw .pass_ := by rw [ht]; decide
    have hend : nextIs .newline (newline :: rest) = true := by rw [nextIs, hnewline]; rfl
    rw [simpleStatement, if_neg hpass, if_pos ht, hend]
    exact ⟨_, _, rfl, rfl⟩

/-- An expression does not start with the end of a statement. -/
theorem nextIs_whole {k : Kind} (hk : k.opensExpr = false) (hts : Spells ts (style.whole e) rest) :
    nextIs k ts = false := by
  obtain ⟨k', ks, hcons, hk'⟩ := style.exists_whole_cons e
  rw [hcons] at hts
  obtain ⟨t, ts', rfl, ht, _⟩ := spells_cons.mp hts
  rw [nextIs, ht, beq_eq_false_iff_ne]
  rintro rfl
  exact absurd (hk.symm.trans hk') (by decide)

theorem simple_ret (span : Span) (he : ReadsBack e) :
    Simple (.kw .return_ :: style.whole e) (.ret span (some e)) where
  opens := ⟨_, _, rfl, Or.inr (Or.inr rfl)⟩
  reads eof ts rest newline hts hnewline := by
    obtain ⟨t, ts', rfl, ht, hts'⟩ := spells_cons.mp hts
    have hpass : t.kind ≠ .kw .pass_ := by rw [ht]; decide
    obtain ⟨v, hshorter, hv, hx⟩ := yields_whole eof he hts' (ends_of_kind hnewline rfl)
    rw [simpleStatement, if_neg hpass, if_pos ht, nextIs_whole rfl hts', nextIs_whole rfl hts']
    simp only [Bool.or_self, Bool.false_eq_true, if_false, hv, bind, Except.bind, pure, Except.pure]
    refine ⟨_, _, rfl, ?_⟩
    simp only [Stmt.erase, Option.map_some, hx]

/-- A line that starts as an expression does is a statement that starts with an expression. -/
theorem simpleStatement_of_opensExpr (ht : t.kind.opensExpr = true) :
    simpleStatement eof (t :: ts) = expressionStatement eof (t :: ts) := by
  have hpass : t.kind ≠ .kw .pass_ := fun h => absurd (h ▸ ht) (by decide)
  have hreturn : t.kind ≠ .kw .return_ := fun h => absurd (h ▸ ht) (by decide)
  rw [simpleStatement, if_neg hpass, if_neg hreturn]

theorem augmented?_eq_none (h : t.kind.assignmentOp? = none) : augmented? (t :: rest) = none := by
  rw [augmented?, h]
  rfl

theorem simple_expr (span : Span) (he : ReadsBack e) : Simple (style.whole e) (.expr span e) where
  opens := by
    obtain ⟨k, ks, hcons, hk⟩ := style.exists_whole_cons e
    exact ⟨k, ks, hcons, Or.inl hk⟩
  reads eof ts rest newline hts hnewline := by
    obtain ⟨v, hshorter, hv, hx⟩ := yields_whole eof he hts (ends_of_kind hnewline rfl)
    obtain ⟨k, ks, hcons, hk⟩ := style.exists_whole_cons e
    rw [hcons] at hts
    obtain ⟨t, ts', rfl, rfl, _⟩ := spells_cons.mp hts
    have hends : newline.kind ≠ .sym .equal := by rw [hnewline]; decide
    have hplain : augmented? (newline :: rest) = none := augmented?_eq_none (by rw [hnewline]; rfl)
    rw [simpleStatement_of_opensExpr hk, expressionStatement]
    simp only [hv, bind, Except.bind, hplain, assignmentTail_ends v hends, pure, Except.pure]
    refine ⟨_, _, rfl, ?_⟩
    simp only [Trail.nothing, assignmentOf, Stmt.erase, hx]

theorem simple_assign (span : Span) {es : List Expr} {value : Expr} (hne : es.isEmpty = false)
    (hes : es.all Expr.isTarget = true) (hvalue : ReadsBack value) :
    Simple (style.targets es ++ style.whole value) (.assign span es value) where
  opens := by
    obtain ⟨k, ks, hcons, hk⟩ := style.exists_targets_cons hne
    exact ⟨k, ks ++ style.whole value, by rw [hcons]; rfl, Or.inl hk⟩
  reads eof ts rest newline hts hnewline := by
    obtain ⟨k, ks, hcons, hk⟩ := style.exists_targets_cons hne
    cases es with
    | nil => exact absurd hne (by simp)
    | cons e es =>
        rw [List.all_cons, Bool.and_eq_true] at hes
        have hopens : ∃ t ts', ts = t :: ts' ∧ t.kind.opensExpr = true := by
          rw [hcons] at hts
          obtain ⟨t, ts', rfl, rfl, _⟩ := spells_cons.mp hts
          exact ⟨t, ts', rfl, hk⟩
        rw [Style.targets, List.flatMap_cons, List.append_assoc, List.append_assoc] at hts
        obtain ⟨mid, hwhole, hmid⟩ := spells_append.mp hts
        obtain ⟨sign, ts'', rfl, hsign, _⟩ := spells_cons.mp hmid
        -- the first target is read as an expression, and becomes a target by the sign behind it
        obtain ⟨v, hshorter, hv, target, htarget, hx⟩ := exists_asTarget eof hes.1 hwhole (ends_of_kind hsign rfl)
        obtain ⟨p, hnoLonger, hp, htargets, hlast⟩ := trails_assignmentTail eof htarget hes.2 hvalue hmid hnewline
        have hplain : augmented? (sign :: ts'') = none := augmented?_eq_none (by rw [hsign]; rfl)
        obtain ⟨t, ts', rfl, ht⟩ := hopens
        rw [simpleStatement_of_opensExpr ht, expressionStatement]
        simp only [hv, bind, Except.bind, hplain, hp, pure, Except.pure]
        refine ⟨_, _, rfl, ?_⟩
        obtain ⟨targets, value'⟩ := p
        rw [hx] at htargets
        cases targets with
        | nil => exact absurd htargets (by simp)
        | cons first more =>
            simp only [assignmentOf, Stmt.erase, eraseAll_eq_map, htargets, hlast, List.map_cons]

theorem simple_augAssign (span : Span) {target value : Expr} (op : BinaryOp) (htarget : target.isTarget = true)
    (hvalue : ReadsBack value) :
    Simple (style.whole target ++ .sym op.assignment :: style.whole value) (.augAssign span target op value) where
  opens := by
    obtain ⟨k, ks, hcons, hk⟩ := style.exists_whole_cons target
    exact ⟨k, ks ++ .sym op.assignment :: style.whole value, by rw [hcons]; rfl, Or.inl hk⟩
  reads eof ts rest newline hts hnewline := by
    obtain ⟨mid, hwhole, hmid⟩ := spells_append.mp hts
    obtain ⟨sign, ts', rfl, hsign, hts'⟩ := spells_cons.mp hmid
    have hends : Ends (sign :: ts') := ends_of_kind hsign (by cases op <;> rfl)
    obtain ⟨v, hshorter, hv, target', htarget', hx⟩ := exists_asTarget eof htarget hwhole hends
    obtain ⟨w, hshorter', hw, hy⟩ := yields_whole eof hvalue hts' (ends_of_kind hnewline rfl)
    have hop : augmented? (sign :: ts') = some (.token op sign ts') := by
      have hsome : sign.kind.assignmentOp? = some op := by rw [hsign]; exact op.ofAssignment?_assignment
      rw [augmented?, hsome]
      rfl
    obtain ⟨k, ks, hcons, hk⟩ := style.exists_whole_cons target
    rw [hcons] at hwhole
    obtain ⟨t, ts'', rfl, rfl, _⟩ := spells_cons.mp hwhole
    rw [simpleStatement_of_opensExpr hk, expressionStatement]
    simp only [hv, bind, Except.bind, hop, htarget', Parsed.token, hw, pure, Except.pure]
    refine ⟨_, _, rfl, ?_⟩
    simp only [Stmt.erase, hx, hy]

/-- A line of one simple statement is a logical line. -/
theorem Simple.yields_line {line : List Kind} {st : Stmt} (h : Simple line st) (eof : Position)
    (hts : Spells ts (line ++ [.newline]) rest) :
    Yields (statementLine eof ts) rest (Stmt.eraseAll · = [st.erase]) := by
  obtain ⟨mid, hline, hmid⟩ := spells_append.mp hts
  obtain ⟨newline, rfl, hnewline⟩ := spells_singleton.mp hmid
  obtain ⟨v, hshorter, hv, hx⟩ := h.reads eof hline hnewline
  have htail : simpleTail eof (newline :: rest) = .ok (.nothing [] (newline :: rest)) := by
    have hend : newline.kind ≠ .sym .semicolon := by rw [hnewline]; decide
    rw [simpleTail, if_neg hend]
  have hstatements : Yields (simpleStatements eof ts) rest (Stmt.eraseAll · = [st.erase]) := by
    rw [simpleStatements]
    simp only [hv, bind, Except.bind, htail, Trail.nothing, expect_token .endOfStatement hnewline, Parsed.token, pure,
      Except.pure]
    exact ⟨_, _, rfl, by simp only [Stmt.eraseAll, hx]⟩
  obtain ⟨k, ks, hcons, hk⟩ := h.opens
  rw [hcons] at hline
  obtain ⟨t, ts', rfl, rfl, _⟩ := spells_cons.mp hline
  have hcompound : statementLine eof (t :: ts') = simpleStatements eof (t :: ts') := by
    rw [statementLine]
    split <;> next hkind => simp_all [Kind.opensExpr]
  rw [hcompound]
  exact hstatements

/-! ## Signatures -/

theorem expectIdentifier_token {name : String} (context : Context) (ht : t.kind = .ident name) :
    expectIdentifier eof context (t :: rest) = .ok (.token name t rest) := by
  rw [expectIdentifier]
  simp only [ht]

section Parameters

variable {last : Token} {name : String} {names : List String}

/-- A list of parameters that is not empty does not start with a closing parenthesis. -/
theorem nextIs_parameters (h : Spells ts (commaList ((name :: names).map fun p => [Kind.ident p])) rest) :
    nextIs (.sym .rightParen) ts = false := by
  have hhead : ∃ ks, commaList ((name :: names).map fun p => [Kind.ident p]) = .ident name :: ks := by
    cases names <;> exact ⟨_, rfl⟩
  obtain ⟨ks, hks⟩ := hhead
  rw [hks] at h
  obtain ⟨t, ts', rfl, ht, _⟩ := spells_cons.mp h
  rw [nextIs, ht]
  rfl

/-- Parameters are read back, comma by comma. -/
theorem yields_parameterNames (eof : Position)
    (hts : Spells ts (commaList ((name :: names).map fun p => [Kind.ident p])) (last :: rest))
    (hlast : last.kind = .sym .rightParen) : Yields (parameterNames eof ts) (last :: rest) (· = name :: names) := by
  induction names generalizing name ts with
  | nil =>
      obtain ⟨t, rfl, ht⟩ := spells_singleton.mp hts
      have hcomma : ¬last.kind = .sym .comma := by rw [hlast]; decide
      rw [parameterNames]
      simp only [expectIdentifier_token .parameterList ht, bind, Except.bind, Parsed.token, if_neg hcomma, pure,
        Except.pure]
      exact ⟨_, _, rfl, rfl⟩
  | cons name' names ih =>
      obtain ⟨t, mid, rfl, ht, hmid⟩ := spells_cons.mp hts
      obtain ⟨comma, ts', rfl, hcomma, hts'⟩ := spells_cons.mp hmid
      obtain ⟨v, hshorter, hv, rfl⟩ := ih hts'
      rw [parameterNames]
      simp only [expectIdentifier_token .parameterList ht, bind, Except.bind, Parsed.token, if_pos hcomma,
        nextIs_parameters hts', Bool.false_eq_true, if_false, hv, pure, Except.pure]
      exact ⟨_, _, rfl, rfl⟩

theorem trails_parameters (eof : Position)
    (hts : Spells ts (commaList (names.map fun p => [Kind.ident p])) (last :: rest))
    (hlast : last.kind = .sym .rightParen) : Trails (parameters eof ts) (last :: rest) (· = names) := by
  rw [parameters]
  cases names with
  | nil =>
      have hnone : nextIs (.sym .rightParen) ts = true := by
        rw [spells_nil.mp hts, nextIs, hlast]
        rfl
      rw [if_pos hnone]
      obtain rfl := spells_nil.mp hts
      exact ⟨_, _, rfl, rfl⟩
  | cons name names =>
      obtain ⟨v, hshorter, hv, rfl⟩ := yields_parameterNames eof hts hlast
      rw [nextIs_parameters hts]
      simp only [Bool.false_eq_true, if_false, hv, bind, Except.bind, pure, Except.pure]
      exact ⟨_, _, rfl, rfl⟩

/-- The name and the parameters of a definition are read back. -/
theorem yields_signature (eof : Position)
    (hts : Spells ts (.ident name :: parens (commaList (names.map fun p => [Kind.ident p]))) rest) :
    Yields (signature eof ts) rest (· = (name, names)) := by
  obtain ⟨t, ts', rfl, ht, hts'⟩ := spells_cons.mp hts
  obtain ⟨first, inner, last, rfl, hfirst, hinner, hlast⟩ := spells_parens.mp hts'
  obtain ⟨v, hnoLonger, hv, rfl⟩ := trails_parameters eof hinner hlast
  rw [signature]
  simp only [expectIdentifier_token .functionDefinition ht, bind, Except.bind, Parsed.token,
    expect_token .parameterList hfirst, hv, expect_token .parameterList hlast, pure, Except.pure]
  exact ⟨_, _, rfl, rfl⟩

end Parameters

/-! ## Blocks -/

/-- What follows is not another branch of a conditional. -/
def NoBranch : List Token → Prop
  | [] => True
  | t :: _ => t.kind ≠ .kw .elif_ ∧ t.kind ≠ .kw .else_

/-- The token can be the first of a statement. -/
def opensStmt : Kind → Bool
  | .kw .pass_ | .kw .return_ | .kw .def_ | .kw .if_ | .kw .while_ => true
  | k => k.opensExpr

theorem noBranch_of_opensStmt (h : opensStmt t.kind = true) : NoBranch (t :: rest) :=
  ⟨fun hk => absurd (hk ▸ h) (by decide), fun hk => absurd (hk ▸ h) (by decide)⟩

theorem nextIs_of_opensStmt {k : Kind} (hk : opensStmt k = false) (h : opensStmt t.kind = true) :
    nextIs k (t :: rest) = false := by
  rw [nextIs, beq_eq_false_iff_ne]
  rintro rfl
  exact absurd (hk.symm.trans h) (by decide)

theorem opensStmt_of_opensExpr {k : Kind} (h : k.opensExpr = true) : opensStmt k = true := by
  unfold opensStmt
  split
  · rfl
  · rfl
  · rfl
  · rfl
  · rfl
  · exact h

/-- The first token of a statement. -/
theorem exists_kindsOf_cons (style : Style) (st : Stmt) :
    ∃ k ks, Outline.kindsOf (style.outline .if_ st) = k :: ks ∧ opensStmt k = true := by
  cases st with
  | pass | cond | loop | funcDef =>
      rw [Style.outline, Outline.kindsOf, Outline.kinds]
      exact ⟨_, _, rfl, rfl⟩
  | ret span value =>
      cases value <;>
      · rw [Style.outline, Outline.kindsOf, Outline.kinds]
        exact ⟨_, _, rfl, rfl⟩
  | expr span e =>
      obtain ⟨k, ks, hcons, hk⟩ := style.exists_whole_cons e
      rw [Style.outline, Outline.kindsOf, Outline.kinds, hcons]
      exact ⟨_, _, rfl, opensStmt_of_opensExpr hk⟩
  | augAssign span e op value =>
      obtain ⟨k, ks, hcons, hk⟩ := style.exists_whole_cons e
      rw [Style.outline, Outline.kindsOf, Outline.kinds, hcons]
      exact ⟨_, _, rfl, opensStmt_of_opensExpr hk⟩
  | assign span es value =>
      rw [Style.outline, Outline.kindsOf, Outline.kinds]
      cases es with
      | nil =>
          obtain ⟨k, ks, hcons, hk⟩ := style.exists_whole_cons value
          rw [hcons]
          exact ⟨_, _, rfl, opensStmt_of_opensExpr hk⟩
      | cons e es =>
          have hne : (e :: es).isEmpty = false := rfl
          obtain ⟨k, ks, hcons, hk⟩ := style.exists_targets_cons hne
          rw [hcons]
          exact ⟨_, _, rfl, opensStmt_of_opensExpr hk⟩

/-- The statement is read back, whatever follows that is no branch of it. -/
def StmtReadsBack (style : Style) (st : Stmt) : Prop :=
  ∀ (eof : Position) ⦃ts rest : List Token⦄, Spells ts (Outline.kindsOf (style.outline .if_ st)) rest → NoBranch rest →
    Yields (statementLine eof ts) rest (Stmt.eraseAll · = [st.erase])

/-- The block is read back, from the colon before it to its end. -/
def BlockReadsBack (style : Style) (ss : List Stmt) : Prop :=
  ∀ (eof : Position) (context : Context) ⦃ts rest : List Token⦄,
    Spells ts (.sym .colon :: .newline :: Outline.blockKinds (style.outlines ss)) rest →
      Yields (block eof context ts) rest (Stmt.eraseAll · = Stmt.eraseAll ss)

/-- The other branch is read back, whatever follows that is no further branch. -/
def BranchReadsBack (style : Style) (ss : List Stmt) : Prop :=
  ∀ (eof : Position) ⦃ts rest : List Token⦄, Spells ts (Outline.kindsOf (style.alternatives ss)) rest → NoBranch rest →
    Trails (alternative eof ts) rest (Stmt.eraseAll · = Stmt.eraseAll ss)

theorem Simple.stmtReadsBack {line : List Kind} {st : Stmt} (h : Simple line st)
    (houtline : style.outline .if_ st = [.entry line []]) : StmtReadsBack style st := by
  intro eof ts rest hts _
  rw [houtline, Outline.kindsOf, Outline.kinds, Outline.blockKinds, Outline.kindsOf, List.append_nil] at hts
  exact h.yields_line eof hts

/-- A statement is followed by another one or by the end of its block, never by a branch. -/
theorem noBranch_outlines {last : Token} {ss : List Stmt}
    (hts : Spells ts (Outline.kindsOf (style.outlines ss)) (last :: rest)) (hlast : NoBranch (last :: rest)) :
    NoBranch ts := by
  cases ss with
  | nil =>
      rw [Style.outlines] at hts
      rw [spells_nil.mp hts]
      exact hlast
  | cons st ss =>
      obtain ⟨k, ks, hcons, hk⟩ := exists_kindsOf_cons style st
      rw [Style.outlines, Outline.kindsOf_append, hcons] at hts
      obtain ⟨t, ts', rfl, rfl, _⟩ := spells_cons.mp hts
      exact noBranch_of_opensStmt hk

/-- The first of several statements is read back, and the others stand behind it. -/
theorem exists_first (eof : Position) {last : Token} {st : Stmt} {ss : List Stmt} (hst : StmtReadsBack style st)
    (hts : Spells ts (Outline.kindsOf (style.outlines (st :: ss))) (last :: rest)) (hlast : NoBranch (last :: rest)) :
    ∃ t ts' mid, ts = t :: ts' ∧ opensStmt t.kind = true ∧
      Yields (statementLine eof ts) mid (Stmt.eraseAll · = [st.erase]) ∧
      Spells mid (Outline.kindsOf (style.outlines ss)) (last :: rest) := by
  rw [Style.outlines, Outline.kindsOf_append] at hts
  obtain ⟨mid, hfirst, hmid⟩ := spells_append.mp hts
  have hread := hst eof hfirst (noBranch_outlines hmid hlast)
  obtain ⟨k, ks, hcons, hk⟩ := exists_kindsOf_cons style st
  rw [hcons] at hfirst
  obtain ⟨t, ts', rfl, rfl, _⟩ := spells_cons.mp hfirst
  exact ⟨t, ts', mid, rfl, hk, hread, hmid⟩

/-- The lines of a block are read back, one statement after the other. -/
theorem trails_blockLines (eof : Position) {last : Token} {ss : List Stmt} (hss : ∀ st ∈ ss, StmtReadsBack style st)
    (hts : Spells ts (Outline.kindsOf (style.outlines ss)) (last :: rest)) (hlast : last.kind = .dedent) :
    Trails (blockLines eof ts) (last :: rest) (Stmt.eraseAll · = Stmt.eraseAll ss) := by
  induction ss generalizing ts with
  | nil =>
      rw [Style.outlines] at hts
      obtain rfl := spells_nil.mp hts
      have hend : nextIs .dedent (last :: rest) = true := by rw [nextIs, hlast]; rfl
      rw [blockLines, hend]
      exact ⟨_, _, rfl, rfl⟩
  | cons st ss ih =>
      have hend : NoBranch (last :: rest) := by rw [NoBranch, hlast]; exact ⟨by decide, by decide⟩
      obtain ⟨t, ts', mid, rfl, hopens, ⟨v, hshorter, hv, hx⟩, hmid⟩ :=
        exists_first eof (hss st List.mem_cons_self) hts hend
      obtain ⟨w, hnoLonger, hw, hy⟩ := ih (fun st' hst' => hss st' (List.mem_cons_of_mem st hst')) hmid
      rw [blockLines, nextIs_of_opensStmt rfl hopens, nextIs_of_opensStmt rfl hopens]
      simp only [Bool.or_self, Bool.false_eq_true, if_false, hv, bind, Except.bind, hw, pure, Except.pure]
      refine ⟨_, _, rfl, ?_⟩
      simp only [eraseAll_append, hx, hy, Stmt.eraseAll, List.singleton_append]

theorem outlines_ne_nil {ss : List Stmt} (h : ss.isEmpty = false) : style.outlines ss ≠ [] := by
  cases ss with
  | nil => exact absurd h (by simp)
  | cons st ss =>
      obtain ⟨k, ks, hcons, _⟩ := exists_kindsOf_cons style st
      intro hnil
      rw [Style.outlines, List.append_eq_nil_iff] at hnil
      rw [hnil.1, Outline.kindsOf] at hcons
      exact absurd hcons (by simp)

/-- A block is read back if its statements are. -/
theorem blockReadsBack {ss : List Stmt} (hne : ss.isEmpty = false) (hss : ∀ st ∈ ss, StmtReadsBack style st) :
    BlockReadsBack style ss := by
  intro eof context ts rest hts
  rw [Outline.blockKinds_of_ne_nil (outlines_ne_nil hne), Outline.enclosed] at hts
  obtain ⟨colon, ts₁, rfl, hcolon, hts₁⟩ := spells_cons.mp hts
  obtain ⟨newline, ts₂, rfl, hnewline, hts₂⟩ := spells_cons.mp hts₁
  obtain ⟨indent, ts₃, rfl, hindent, hts₃⟩ := spells_cons.mp hts₂
  obtain ⟨mid, hlines, hmid⟩ := spells_append.mp hts₃
  obtain ⟨dedent, rfl, hdedent⟩ := spells_singleton.mp hmid
  obtain ⟨v, hnoLonger, hv, hx⟩ := trails_blockLines eof hss hlines hdedent
  have hlayout : nextIs .newline (newline :: indent :: ts₃) = true := by rw [nextIs, hnewline]; rfl
  rw [block]
  simp only [expect_token context hcolon, bind, Except.bind, Parsed.token, hlayout, if_true, List.tail_cons,
    expect_token context hindent, hv, expect_token context hdedent, pure, Except.pure]
  exact ⟨_, _, rfl, hx⟩

/-! ## Compound statements -/

/-- The first line of a conditional or a loop, cut at its test. -/
theorem spells_test {word : Keyword} {below : List Outline}
    (hts : Spells ts (Outline.kinds (.entry (style.test word e) below)) rest) : ∃ t ts' mid, ts = t :: ts' ∧
      t.kind = .kw word ∧ Spells ts' (style.whole e) mid ∧ Ends mid ∧
      Spells mid (.sym .colon :: .newline :: Outline.blockKinds below) rest := by
  rw [Outline.kinds, Style.test, List.append_assoc, List.cons_append] at hts
  obtain ⟨t, ts', rfl, ht, hts'⟩ := spells_cons.mp hts
  obtain ⟨mid, hwhole, hmid⟩ := spells_append.mp hts'
  obtain ⟨colon, ts'', rfl, hcolon, _⟩ := spells_cons.mp hmid
  exact ⟨t, ts', _, rfl, ht, hwhole, ends_of_kind hcolon rfl, hmid⟩

theorem StmtReadsBack.loop (span : Span) {body : List Stmt} (he : ReadsBack e) (hbody : BlockReadsBack style body) :
    StmtReadsBack style (.loop span e body) := by
  intro eof ts rest hts _
  rw [Style.outline, Outline.kindsOf, Outline.kindsOf, List.append_nil] at hts
  obtain ⟨t, ts', mid, rfl, ht, hwhole, hends, hmid⟩ := spells_test hts
  obtain ⟨v, hshorter, hv, hx⟩ := yields_whole eof he hwhole hends
  obtain ⟨w, hshorter', hw, hy⟩ := hbody eof .whileStatement hmid
  rw [statementLine]
  simp only [ht, hv, bind, Except.bind, hw, pure, Except.pure]
  refine ⟨_, _, rfl, ?_⟩
  simp only [Stmt.eraseAll, Stmt.erase, hx, hy]

theorem StmtReadsBack.funcDef (span : Span) (name : String) (params : List String) {body : List Stmt}
    (hbody : BlockReadsBack style body) : StmtReadsBack style (.funcDef span name params body) := by
  intro eof ts rest hts _
  rw [Style.outline, Outline.kindsOf, Outline.kindsOf, List.append_nil, Outline.kinds, Style.signature,
    List.append_assoc, List.cons_append] at hts
  obtain ⟨t, ts', rfl, ht, hts'⟩ := spells_cons.mp hts
  obtain ⟨mid, hhead, hmid⟩ := spells_append.mp hts'
  obtain ⟨v, hshorter, hv, rfl⟩ := yields_signature eof hhead
  obtain ⟨w, hshorter', hw, hy⟩ := hbody eof .functionDefinition hmid
  rw [statementLine]
  simp only [ht, hv, bind, Except.bind, hw, pure, Except.pure]
  refine ⟨_, _, rfl, ?_⟩
  simp only [Stmt.eraseAll, Stmt.erase, hy]

/-- The statement, if it is a conditional, is read back from behind the word that starts it. -/
def CondReadsBack (style : Style) (st : Stmt) : Prop :=
  ∀ (eof : Position) (word : Keyword) ⦃ts rest : List Token⦄,
    Spells ts (Outline.kindsOf (style.outline word st)) rest → NoBranch rest → st.isCond = true →
      ∃ t ts', ts = t :: ts' ∧ t.kind = .kw word ∧ ∀ start, Yields (conditional eof start ts') rest (·.erase = st.erase)

theorem condReadsBack (span : Span) {body orelse : List Stmt} (he : ReadsBack e) (hbody : BlockReadsBack style body)
    (hother : BranchReadsBack style orelse) : CondReadsBack style (.cond span e body orelse) := by
  intro eof word ts rest hts hrest _
  rw [Style.outline, Outline.kindsOf] at hts
  obtain ⟨mid, hfirst, hmid⟩ := spells_append.mp hts
  obtain ⟨t, ts', mid', rfl, ht, hwhole, hends, hmid'⟩ := spells_test hfirst
  refine ⟨t, ts', rfl, ht, fun start => ?_⟩
  obtain ⟨v, hshorter, hv, hx⟩ := yields_whole eof he hwhole hends
  obtain ⟨w, hshorter', hw, hy⟩ := hbody eof .ifStatement hmid'
  obtain ⟨u, hnoLonger, hu, hz⟩ := hother eof hmid hrest
  rw [conditional]
  simp only [hv, bind, Except.bind, hw, hu, pure, Except.pure]
  refine ⟨_, _, rfl, ?_⟩
  simp only [Stmt.erase, hx, hy, hz]

theorem condReadsBack_of_not {st : Stmt} (hst : st.isCond = false) : CondReadsBack style st :=
  fun _ _ _ _ _ _ h => absurd (hst.symm.trans h) (by decide)

theorem CondReadsBack.stmt {st : Stmt} (h : CondReadsBack style st) (hst : st.isCond = true) :
    StmtReadsBack style st := by
  intro eof ts rest hts hrest
  obtain ⟨t, ts', rfl, ht, hread⟩ := h eof .if_ hts hrest hst
  obtain ⟨v, hshorter, hv, hx⟩ := hread t.span.start
  rw [statementLine]
  simp only [ht, hv, bind, Except.bind, pure, Except.pure]
  refine ⟨_, _, rfl, ?_⟩
  simp only [Stmt.eraseAll, hx]

/-- A conditional alone in the other branch is read back from `elif`. -/
theorem CondReadsBack.trails_elif {st : Stmt} (h : CondReadsBack style st) (hst : st.isCond = true) (eof : Position)
    (hts : Spells ts (Outline.kindsOf (style.outline .elif_ st)) rest) (hrest : NoBranch rest) :
    Trails (alternative eof ts) rest (Stmt.eraseAll · = [st.erase]) := by
  obtain ⟨t, ts', rfl, ht, hread⟩ := h eof .elif_ hts hrest hst
  obtain ⟨v, hshorter, hv, hx⟩ := hread t.span.start
  rw [alternative]
  simp only [ht, hv, bind, Except.bind, pure, Except.pure]
  refine ⟨_, _, rfl, ?_⟩
  simp only [Stmt.eraseAll, hx]

/-- What follows the block of a conditional without another branch is not read. -/
theorem branchReadsBack_nil : BranchReadsBack style [] := by
  intro eof ts rest hts hrest
  rw [Style.alternatives] at hts
  obtain rfl := spells_nil.mp hts
  cases ts with
  | nil =>
      rw [alternative]
      exact ⟨_, _, rfl, rfl⟩
  | cons t ts =>
      rw [alternative]
      split
      · next hkind => exact absurd hkind hrest.1
      · next hkind => exact absurd hkind hrest.2
      · exact ⟨_, _, rfl, rfl⟩

/-- A block in the other branch is read back. -/
theorem trails_else (eof : Position) {ss : List Stmt} (hss : BlockReadsBack style ss)
    (hts : Spells ts (Outline.kindsOf [.entry [.kw .else_, .sym .colon] (style.outlines ss)]) rest) :
    Trails (alternative eof ts) rest (Stmt.eraseAll · = Stmt.eraseAll ss) := by
  rw [Outline.kindsOf, Outline.kindsOf, List.append_nil, Outline.kinds] at hts
  obtain ⟨t, ts', rfl, ht, hts'⟩ := spells_cons.mp hts
  obtain ⟨v, hshorter, hv, hx⟩ := hss eof .elseClause hts'
  rw [alternative]
  simp only [ht, hv, bind, Except.bind, pure, Except.pure]
  exact ⟨_, _, rfl, hx⟩

/-- The other branch of a conditional is read back, chained or as a block. -/
theorem branchReadsBack {ss : List Stmt} (h : ∀ st ∈ ss, StmtReadsBack style st ∧ CondReadsBack style st) :
    BranchReadsBack style ss := by
  cases ss with
  | nil => exact branchReadsBack_nil
  | cons st rest =>
      intro eof ts tail hts htail
      rw [Style.alternatives] at hts
      split at hts
      · next hchain =>
          simp only [Bool.and_eq_true, List.isEmpty_iff] at hchain
          obtain ⟨⟨_, hcond⟩, rfl⟩ := hchain
          exact (h st List.mem_cons_self).2.trails_elif hcond eof hts htail
      · exact trails_else eof (blockReadsBack rfl fun st hst => (h st hst).1) (by rw [Style.outlines]; exact hts)

/-! ## All statements -/

mutual

/-- **Statements are read back.** -/
theorem stmtReadsBack (style : Style) : ∀ (st : Stmt), st.isShaped = true →
    StmtReadsBack style st ∧ CondReadsBack style st
  | .pass span, _ => ⟨(simple_pass span).stmtReadsBack (by rw [Style.outline]), condReadsBack_of_not rfl⟩
  | .ret span none, _ =>
      ⟨(simple_ret_none span).stmtReadsBack (by rw [Style.outline]), condReadsBack_of_not rfl⟩
  | .ret span (some e), h => by
      rw [Stmt.isShaped, Option.all_some] at h
      exact ⟨(simple_ret span (readsBack e h)).stmtReadsBack (by rw [Style.outline]), condReadsBack_of_not rfl⟩
  | .expr span e, h => by
      rw [Stmt.isShaped] at h
      exact ⟨(simple_expr span (readsBack e h)).stmtReadsBack (by rw [Style.outline]), condReadsBack_of_not rfl⟩
  | .assign span targets value, h => by
      simp only [Stmt.isShaped, Bool.and_eq_true, Bool.not_eq_true'] at h
      exact ⟨(simple_assign span h.1.1 h.1.2 (readsBack value h.2)).stmtReadsBack (by rw [Style.outline]),
        condReadsBack_of_not rfl⟩
  | .augAssign span target op value, h => by
      simp only [Stmt.isShaped, Bool.and_eq_true] at h
      exact ⟨(simple_augAssign span op h.1 (readsBack value h.2)).stmtReadsBack (by rw [Style.outline]),
        condReadsBack_of_not rfl⟩
  | .cond span test body orelse, h => by
      simp only [Stmt.isShaped, Bool.and_eq_true, Bool.not_eq_true'] at h
      have hbody := stmtReadsBack_all style body h.1.2
      have hcond := condReadsBack span (readsBack test h.1.1.1) (blockReadsBack h.1.1.2 fun st hst => (hbody st hst).1)
        (branchReadsBack (stmtReadsBack_all style orelse h.2))
      exact ⟨hcond.stmt rfl, hcond⟩
  | .loop span test body, h => by
      simp only [Stmt.isShaped, Bool.and_eq_true, Bool.not_eq_true'] at h
      have hbody := stmtReadsBack_all style body h.2
      exact ⟨.loop span (readsBack test h.1.1) (blockReadsBack h.1.2 fun st hst => (hbody st hst).1),
        condReadsBack_of_not rfl⟩
  | .funcDef span name params body, h => by
      simp only [Stmt.isShaped, Bool.and_eq_true, Bool.not_eq_true'] at h
      have hbody := stmtReadsBack_all style body h.2
      exact ⟨.funcDef span name params (blockReadsBack h.1.2 fun st hst => (hbody st hst).1), condReadsBack_of_not rfl⟩

theorem stmtReadsBack_all (style : Style) : ∀ (ss : List Stmt), Stmt.allShaped ss = true →
    ∀ st ∈ ss, StmtReadsBack style st ∧ CondReadsBack style st
  | [], _, st, hst => absurd hst List.not_mem_nil
  | st :: rest, h, st', hst' => by
      simp only [Stmt.allShaped, Bool.and_eq_true] at h
      rcases List.mem_cons.mp hst' with heq | hst'
      · rw [heq]
        exact stmtReadsBack style st h.1
      · exact stmtReadsBack_all style rest h.2 st' hst'

end

/-! ## Modules -/

/-- The lines of a module are read back. -/
theorem trails_moduleLines (eof : Position) {last : Token} {ss : List Stmt} (hss : ∀ st ∈ ss, StmtReadsBack style st)
    (hts : Spells ts (Outline.kindsOf (style.outlines ss)) (last :: rest)) (hlast : last.kind = .eof) :
    Trails (moduleLines eof ts) (last :: rest) (Stmt.eraseAll · = Stmt.eraseAll ss) := by
  induction ss generalizing ts with
  | nil =>
      rw [Style.outlines] at hts
      obtain rfl := spells_nil.mp hts
      rw [moduleLines, if_pos hlast]
      exact ⟨_, _, rfl, rfl⟩
  | cons st ss ih =>
      have hend : NoBranch (last :: rest) := by rw [NoBranch, hlast]; exact ⟨by decide, by decide⟩
      obtain ⟨t, ts', mid, rfl, hopens, ⟨v, hshorter, hv, hx⟩, hmid⟩ :=
        exists_first eof (hss st List.mem_cons_self) hts hend
      obtain ⟨w, hnoLonger, hw, hy⟩ := ih (fun st' hst' => hss st' (List.mem_cons_of_mem st hst')) hmid
      have heof : t.kind ≠ .eof := fun h => absurd (h ▸ hopens) (by decide)
      have hnewline : t.kind ≠ .newline := fun h => absurd (h ▸ hopens) (by decide)
      rw [moduleLines, if_neg heof, if_neg hnewline]
      simp only [hv, bind, Except.bind, hw, pure, Except.pure]
      refine ⟨_, _, rfl, ?_⟩
      simp only [eraseAll_append, hx, hy, Stmt.eraseAll, List.singleton_append]

/-- **The tokens of a module are read back as the module.** -/
theorem parseModule_kinds {tokens : List Token} {m : Module} (hm : m.isShaped = true)
    (htokens : tokens.map Token.kind = Outline.kindsOf (style.outlines m.body) ++ [.eof]) :
    ∃ m', parseModule tokens = .ok m' ∧ m'.erase = m.erase := by
  have hspells : Spells tokens (Outline.kindsOf (style.outlines m.body) ++ [.eof]) [] :=
    ⟨tokens, htokens, (List.append_nil tokens).symm⟩
  obtain ⟨mid, hlines, hmid⟩ := spells_append.mp hspells
  obtain ⟨last, rfl, hlast⟩ := spells_singleton.mp hmid
  obtain ⟨v, hnoLonger, hv, hx⟩ :=
    trails_moduleLines (eofOf tokens) (fun st hst => (stmtReadsBack_all style m.body hm st hst).1) hlines hlast
  unfold parseModule
  simp only [hv, bind, Except.bind, pure, Except.pure]
  exact ⟨_, rfl, by rw [Module.erase, Module.erase, hx]⟩

end Offside.Tree
