import Offside.Proofs.Grammar

/-!
# `Proofs.Phrases` — expressions that are written out are read back

The tokens that an expression is written with derive it (`readsBack`): an operand in parentheses is an atom, and
an atom is a phrase of every category. The parser decides the grammar, so it reads the expression back
(`ReadsBack.yields`).
-/

namespace Offside.Tree

open Token (Kind parens commaList)

variable {ts rest : List Token} {e : Expr}

/-- The expression is the tree of the tokens that it is written with. -/
def ReadsBack (e : Expr) : Prop := Derives .expression e.kinds e.erase

namespace ReadsBack

/-- The expression is read back, whatever follows that does not go on it. -/
theorem yields (h : ReadsBack e) (eof : Position) (hts : Spells ts e.kinds rest) (hends : Ends rest) :
    Yields (expression eof ts) rest (·.erase = e.erase) := Derives.completes h eof hts hends

/-- An expression in parentheses is an expression. -/
theorem whole_parens (h : ReadsBack e) (eof : Position) (hts : Spells ts (parens e.kinds) rest) (hends : Ends rest) :
    Yields (expression eof ts) rest (·.erase = e.erase) := h.parens_unary.expression.completes eof hts hends

end ReadsBack

/-! ## One constructor at a time -/

theorem readsBack_name (span : Span) (id : String) : ReadsBack (.name span id .load) := by
  rw [ReadsBack, Expr.kinds, Expr.erase]
  exact (Derives.name id).atom.operand.expression

/-- A number without a sign has a literal of its own. -/
theorem ofNat_toNat_of_nonneg {w : Word} (h : 0 ≤ w.toInt) :
    w.toNat < signBound ∧ BitVec.ofNat 64 w.toNat = w := by
  have hbound : signBound = 2 ^ 63 := rfl
  have htoInt := w.toInt_eq_toNat_cond
  have hlt := w.isLt
  refine ⟨?_, BitVec.ofNat_toNat ..⟩
  split at htoInt <;> omega

/-- The least number is what a minus sign makes of the literal one too large. -/
theorem intMin_of_least {w : Word} (h : w.toInt = -(signBound : Int)) :
    w.toInt.natAbs = signBound ∧ BitVec.intMin 64 = w := by
  have hbound : signBound = 2 ^ 63 := rfl
  refine ⟨by omega, BitVec.eq_of_toInt_eq ?_⟩
  rw [h]
  decide

theorem readsBack_const (span : Span) {v : Constant} (hv : v.isShaped = true) : ReadsBack (.const span v) := by
  rw [ReadsBack, Expr.kinds, Expr.erase]
  cases v with
  | int w =>
      rw [Constant.isShaped, Bool.or_eq_true, decide_eq_true_eq, beq_iff_eq] at hv
      rcases hv with hnonneg | hleast
      · obtain ⟨hlt, hvalue⟩ := ofNat_toNat_of_nonneg hnonneg
        have hint := Derives.int hlt
        rw [hvalue] at hint
        rw [Constant.kinds, if_pos hnonneg]
        exact hint.atom.operand.expression
      · obtain ⟨habs, hvalue⟩ := intMin_of_least hleast
        have hneg : ¬0 ≤ w.toInt := by
          have hbound : signBound = 2 ^ 63 := rfl
          omega
        rw [Constant.kinds, if_neg hneg, habs, ← hvalue]
        exact Derives.least.expression
  | bool b =>
      cases b with
      | true => exact Derives.true_.atom.operand.expression
      | false => exact Derives.false_.atom.operand.expression
  | str s => exact (Derives.str s).atom.operand.expression

theorem ReadsBack.unary (h : ReadsBack e) (span : Span) (op : UnaryOp) : ReadsBack (.unary span op e) := by
  rw [ReadsBack, Expr.kinds, Expr.erase]
  exact (Derives.unary (mem_signs.mpr rfl) h.parens_unary).expression

theorem ReadsBack.binary {l r : Expr} (hl : ReadsBack l) (hr : ReadsBack r) (span : Span) (op : BinaryOp) :
    ReadsBack (.binary span l op r) := by
  obtain ⟨n, hn⟩ : ∃ n, op.level = n + 1 := by cases op <;> exact ⟨_, rfl⟩
  have hloosest : n + 1 ≤ 6 := by rw [← hn]; cases op <;> decide
  have hlevel := Derives.binary (mem_operatorsAt.mpr ⟨rfl, hn⟩) (hl.parens_unary.operandAt (n + 1))
    (hr.parens_unary.operandAt n)
  rw [ReadsBack, Expr.kinds, Expr.erase]
  exact (hlevel.raise hloosest).whole

theorem kindsOf_eq_map (es : List Expr) : Expr.kindsOf es = es.map Expr.kinds := by
  induction es with
  | nil => rw [Expr.kindsOf, List.map_nil]
  | cons e es ih => rw [Expr.kindsOf, ih, List.map_cons]

/-- Operators and operands of a chain that is written out. -/
def chainOf (ops : List CompareOp) (es : List Expr) : List ((Symbol × CompareOp) × List Kind × Expr) :=
  (ops.zip es).map fun p => ((p.1.symbol, p.1), parens p.2.kinds, p.2.erase)

section Chain

variable {ops : List CompareOp} {es : List Expr}

theorem chainKinds_chainOf : chainKinds (chainOf ops es) = CompareOp.kindsWith ops (Expr.kindsOf es) := by
  rw [kindsOf_eq_map, CompareOp.kindsWith, chainKinds, chainOf, List.zip_map_right, List.flatMap_map, List.flatMap_map]
  rfl

theorem map_fst_chainOf (hlength : ops.length = es.length) : (chainOf ops es).map (·.1.2) = ops := by
  rw [chainOf, List.map_map]
  exact List.map_fst_zip (Nat.le_of_eq hlength)

theorem map_snd_chainOf (hlength : ops.length = es.length) : (chainOf ops es).map (·.2.2) = es.map Expr.erase :=
  calc (chainOf ops es).map (·.2.2)
    _ = (ops.zip es).map (Expr.erase ∘ Prod.snd) := List.map_map ..
    _ = ((ops.zip es).map Prod.snd).map Expr.erase := (List.map_map ..).symm
    _ = es.map Expr.erase := by rw [List.map_snd_zip (Nat.le_of_eq hlength.symm)]

theorem ReadsBack.compare {l : Expr} (hl : ReadsBack l) (hes : ∀ e ∈ es, ReadsBack e) (hops : ops ≠ [])
    (hlength : ops.length = es.length) (span : Span) : ReadsBack (.compare span l ops es) := by
  have hne : chainOf ops es ≠ [] := by
    intro hnil
    exact hops (by rw [← map_fst_chainOf hlength, hnil]; rfl)
  have hsymbols : ∀ p ∈ chainOf ops es, p.1 ∈ comparisonSymbols := by
    intro p hp
    obtain ⟨q, _, rfl⟩ := List.mem_map.mp hp
    exact mem_comparisonSymbols.mpr rfl
  have hoperands : ∀ p ∈ chainOf ops es, Derives (.binary 6) p.2.1 p.2.2 := by
    intro p hp
    obtain ⟨q, hq, rfl⟩ := List.mem_map.mp hp
    exact (hes q.2 (List.of_mem_zip hq).2).parens_unary.operandAt 6
  have hchain := Derives.compare hne hsymbols (hl.parens_unary.operandAt 6) hoperands
  rw [chainKinds_chainOf, map_fst_chainOf hlength, map_snd_chainOf hlength] at hchain
  rw [ReadsBack, Expr.kinds, Expr.erase, eraseAll_eq_map]
  exact hchain

end Chain

theorem ReadsBack.call {f : Expr} {args : List Expr} (hf : ReadsBack f) (hargs : ∀ e ∈ args, ReadsBack e)
    (span : Span) : ReadsBack (.call span f args) := by
  have hparens : ∀ arg ∈ args.map fun e => (parens e.kinds, e.erase), Derives .expression arg.1 arg.2 := by
    intro arg harg
    obtain ⟨e, he, rfl⟩ := List.mem_map.mp harg
    exact (hargs e he).parens_unary.expression
  have hcall := Derives.call hf.parens.atom hparens (Or.inl rfl)
  rw [List.map_map, List.map_map, List.append_nil] at hcall
  rw [ReadsBack, Expr.kinds, Expr.erase, eraseAll_eq_map, kindsOf_eq_map, List.map_map]
  exact hcall.operand.expression

/-! ## All expressions -/

mutual

/-- **Expressions are read back.** -/
theorem readsBack : ∀ (e : Expr), e.isShaped = true → ReadsBack e
  | .const span value, h => by
      rw [Expr.isShaped] at h
      exact readsBack_const span h
  | .name span id use, h => by
      simp only [Expr.isShaped, Bool.and_eq_true, beq_iff_eq] at h
      rw [h.2]
      exact readsBack_name span id
  | .binary span l op r, h => by
      simp only [Expr.isShaped, Bool.and_eq_true] at h
      exact (readsBack l h.1).binary (readsBack r h.2) span op
  | .unary span op e, h => by
      rw [Expr.isShaped] at h
      exact (readsBack e h).unary span op
  | .compare span l ops es, h => by
      simp only [Expr.isShaped, Bool.and_eq_true, beq_iff_eq, Bool.not_eq_true', List.isEmpty_eq_false_iff] at h
      exact (readsBack l h.1.1.1).compare (readsBack_all es h.2) h.1.1.2 h.1.2 span
  | .call span f args, h => by
      simp only [Expr.isShaped, Bool.and_eq_true] at h
      exact (readsBack f h.1).call (readsBack_all args h.2) span

theorem readsBack_all : ∀ (es : List Expr), Expr.allShaped es = true → ∀ e ∈ es, ReadsBack e
  | [], _, e, he => absurd he List.not_mem_nil
  | e :: es, h, e', he' => by
      simp only [Expr.allShaped, Bool.and_eq_true] at h
      rcases List.mem_cons.mp he' with heq | he'
      · rw [heq]
        exact readsBack e h.1
      · exact readsBack_all es h.2 e' he'

end

end Offside.Tree
