import Mathlib
import Offside.Compile
import Offside.Proofs.Shape

/-!
# `Proofs.Enclosure` — spans nest

The span of a node encloses the spans of its children, and the children stand one behind the other
(`Expr.WellSpanned`, `Stmt.WellSpanned`). Spans of nodes are made in several ways: they are a token's own, they run from a
token to a node or to a token, they join the spans of two nodes, they end with the last statement of a block, or they are
widened by parentheses. What all of these keep is one fact about lists of spans: they follow one another between two places
(`Chained`). It holds of the tokens of a source, and then of the expressions and statements that are made of them, by
induction on how they are made. Blocks have to be filled for this: an empty block would not reach as far as its test.
-/

namespace Offside

open Token (atOrBefore_refl atOrBefore_trans atOrBefore_iff)

/-! ## Places and spans -/

/-- The place is one of the file, and its line and its column do not exceed the limit. -/
structure Position.Within (file : String) (limit : Nat) (p : Position) : Prop where
  file_eq : p.file = file
  line_le : p.line ≤ limit
  column_le : p.column ≤ limit

/-- A character moves a place by one line or by one column. -/
theorem Position.Within.across {file : String} {limit : Nat} {p : Position} (h : p.Within file limit)
    (text : List Char) : (p.across text).Within file (limit + text.length) := by
  induction text generalizing p limit with
  | nil => exact h
  | cons c text ih =>
      have hadvance : (p.advance c).Within file (limit + 1) := by
        obtain ⟨hfile, hline, hcolumn⟩ := h
        unfold Position.advance
        split
        · exact ⟨hfile, Nat.succ_le_succ hline, Nat.le_add_left 1 limit⟩
        · exact ⟨hfile, Nat.le_succ_of_le hline, Nat.succ_le_succ hcolumn⟩
      rw [Position.across_cons, List.length_cons, ← Nat.add_assoc, Nat.add_right_comm]
      exact ih hadvance

namespace Span

/-- Both ends are places of the file within the limit, and the first is not behind the last. -/
structure Sound (file : String) (limit : Nat) (s : Span) : Prop where
  start_within : s.start.Within file limit
  stop_within : s.stop.Within file limit
  ordered : s.start.atOrBefore s.stop = true

/-- The span holds all of the other. -/
def Encloses (s t : Span) : Prop := s.start.atOrBefore t.start = true ∧ t.stop.atOrBefore s.stop = true

/-- The span ends before the other starts. -/
def Precedes (s t : Span) : Prop := s.stop.atOrBefore t.start = true

end Span

/-- **Spans between two places**: they are sound, and each starts where the one before it has ended. -/
def Chained (file : String) (limit : Nat) : Position → List Span → Position → Prop
  | lo, [], hi => lo.atOrBefore hi = true
  | lo, s :: ss, hi => s.Sound file limit ∧ lo.atOrBefore s.start = true ∧ Chained file limit s.stop ss hi

section Chained

variable {file : String} {limit : Nat} {lo lo' mid hi hi' : Position} {s t : Span} {ss ts : List Span}

theorem Chained.le (h : Chained file limit lo ss hi) : lo.atOrBefore hi = true := by
  induction ss generalizing lo with
  | nil => exact h
  | cons s ss ih =>
      obtain ⟨hs, hlo, hrest⟩ := h
      exact atOrBefore_trans hlo (atOrBefore_trans hs.ordered (ih hrest))

theorem Chained.mono (h : Chained file limit lo ss hi) (hlo : lo'.atOrBefore lo = true)
    (hhi : hi.atOrBefore hi' = true) : Chained file limit lo' ss hi' := by
  induction ss generalizing lo lo' with
  | nil => exact atOrBefore_trans hlo (atOrBefore_trans h hhi)
  | cons s ss ih =>
      obtain ⟨hs, hstart, hrest⟩ := h
      exact ⟨hs, atOrBefore_trans hlo hstart, ih hrest (atOrBefore_refl _)⟩

theorem chained_append : Chained file limit lo (ss ++ ts) hi ↔
    ∃ mid, Chained file limit lo ss mid ∧ Chained file limit mid ts hi := by
  induction ss generalizing lo with
  | nil =>
      constructor
      · intro h
        exact ⟨lo, atOrBefore_refl lo, h⟩
      · rintro ⟨mid, hmid, h⟩
        exact h.mono hmid (atOrBefore_refl hi)
  | cons s ss ih =>
      constructor
      · rintro ⟨hs, hlo, hrest⟩
        obtain ⟨mid, hss, hts⟩ := ih.mp hrest
        exact ⟨mid, ⟨hs, hlo, hss⟩, hts⟩
      · rintro ⟨mid, ⟨hs, hlo, hss⟩, hts⟩
        exact ⟨hs, hlo, ih.mpr ⟨mid, hss, hts⟩⟩

/-- What stands between the two places still does without the first span. -/
theorem Chained.skip (h : Chained file limit lo (s :: ss) hi) : Chained file limit lo ss hi := by
  obtain ⟨hs, hlo, hrest⟩ := h
  exact hrest.mono (atOrBefore_trans hlo hs.ordered) (atOrBefore_refl hi)

theorem Chained.bounds (h : Chained file limit lo ss hi) :
    ∀ s ∈ ss, lo.atOrBefore s.start = true ∧ s.stop.atOrBefore hi = true := by
  intro s hs
  obtain ⟨front, back, rfl⟩ := List.append_of_mem hs
  obtain ⟨mid, hfront, hsound, hstart, hback⟩ := chained_append.mp h
  exact ⟨atOrBefore_trans hfront.le hstart, hback.le⟩

theorem Chained.precedes (h : Chained file limit lo ss hi) : ss.Pairwise Span.Precedes := by
  induction ss generalizing lo with
  | nil => exact .nil
  | cons s ss ih => exact .cons (fun t ht => (h.2.2.bounds t ht).1) (ih h.2.2)

/-- The spans reach no further than the last of them. -/
theorem Chained.trim (h : Chained file limit lo (ss ++ [s]) hi) : Chained file limit lo (ss ++ [s]) s.stop := by
  obtain ⟨mid, hss, hs, hmid, -⟩ := chained_append.mp h
  exact chained_append.mpr ⟨mid, hss, hs, hmid, atOrBefore_refl _⟩

theorem chained_of_pairwise (hsound : ∀ s ∈ ss, s.Sound file limit) (hordered : ss.Pairwise Span.Precedes)
    (hle : lo.atOrBefore hi = true) (hbounds : ∀ s ∈ ss, lo.atOrBefore s.start = true ∧ s.stop.atOrBefore hi = true) :
    Chained file limit lo ss hi := by
  induction ss generalizing lo with
  | nil => exact hle
  | cons s ss ih =>
      rw [List.pairwise_cons] at hordered
      obtain ⟨hs, hss⟩ := List.forall_mem_cons.mp hsound
      obtain ⟨hbound, hrest⟩ := List.forall_mem_cons.mp hbounds
      exact ⟨hs, hbound.1, ih hss hordered.2 hbound.2 fun t ht => ⟨hordered.1 t ht, (hrest t ht).2⟩⟩

theorem atOrBefore_antisymm {p q : Position} (hfile : p.file = q.file) (hpq : p.atOrBefore q = true)
    (hqp : q.atOrBefore p = true) : p = q := by
  rw [atOrBefore_iff] at hpq hqp
  have hline : p.line = q.line := by omega
  have hcolumn : p.column = q.column := by omega
  cases p
  cases q
  simp_all

/-- The least span that holds two spans in a row runs from the first to the second. -/
theorem join_of_precedes (hs : s.Sound file limit) (ht : t.Sound file limit) (h : s.Precedes t) :
    s.join t = ⟨s.start, t.stop⟩ := by
  have hstart : s.start.atOrBefore t.start = true := atOrBefore_trans hs.ordered h
  have hstop : s.stop.atOrBefore t.stop = true := atOrBefore_trans h ht.ordered
  unfold Span.join
  rw [if_neg (by rw [hs.start_within.file_eq, ht.start_within.file_eq]; simp), if_pos hstart]
  split
  · next hback => rw [atOrBefore_antisymm (hs.stop_within.file_eq.trans ht.stop_within.file_eq.symm) hstop hback]
  · rfl

end Chained

/-! ## Nodes -/

/-- The expressions directly inside an expression, from left to right. -/
def Expr.children : Expr → List Expr
  | .const _ _ | .name _ _ _ => []
  | .binary _ l _ r => [l, r]
  | .unary _ _ e => [e]
  | .compare _ l _ es => l :: es
  | .call _ f args => f :: args

/-- The expressions directly inside a statement, from left to right. -/
def Stmt.exprs : Stmt → List Expr
  | .pass _ | .funcDef _ _ _ _ => []
  | .ret _ value => value.toList
  | .expr _ e => [e]
  | .assign _ targets value => targets ++ [value]
  | .augAssign _ target _ value => [target, value]
  | .cond _ test _ _ | .loop _ test _ => [test]

/-- The statements directly inside a statement, in order. They stand behind its expressions. -/
def Stmt.inner : Stmt → List Stmt
  | .cond _ _ body orelse => body ++ orelse
  | .loop _ _ body | .funcDef _ _ _ body => body
  | _ => []

/-- **Every node of the expression** has a sound span, which encloses the spans of its children, and these follow one
    another. -/
inductive Expr.WellSpanned (file : String) (limit : Nat) : Expr → Prop where
  | node {e : Expr} (sound : e.span.Sound file limit) (encloses : ∀ c ∈ e.children, e.span.Encloses c.span)
      (ordered : (e.children.map Expr.span).Pairwise Span.Precedes)
      (children : ∀ c ∈ e.children, Expr.WellSpanned file limit c) : Expr.WellSpanned file limit e

/-- **Every node of the statement** has a sound span, which encloses the spans of its expressions and statements, and these
    follow one another. -/
inductive Stmt.WellSpanned (file : String) (limit : Nat) : Stmt → Prop where
  | node {st : Stmt} (sound : st.span.Sound file limit) (encloses : ∀ e ∈ st.exprs, st.span.Encloses e.span)
      (enclosesInner : ∀ c ∈ st.inner, st.span.Encloses c.span)
      (ordered : (st.exprs.map Expr.span ++ st.inner.map Stmt.span).Pairwise Span.Precedes)
      (exprs : ∀ e ∈ st.exprs, e.WellSpanned file limit) (inner : ∀ c ∈ st.inner, Stmt.WellSpanned file limit c) :
      Stmt.WellSpanned file limit st

section Nodes

variable {file : String} {limit : Nat} {lo hi : Position} {s : Span} {e : Expr} {es : List Expr} {st : Stmt}

theorem Expr.WellSpanned.sound (h : e.WellSpanned file limit) : e.span.Sound file limit := by
  cases h with
  | node sound => exact sound

theorem Stmt.WellSpanned.sound (h : st.WellSpanned file limit) : st.span.Sound file limit := by
  cases h with
  | node sound => exact sound

/-- A node is well spanned if its children are, and follow one another between its ends. -/
theorem Expr.wellSpanned_of_chained (hstart : e.span.start.Within file limit) (hstop : e.span.stop.Within file limit)
    (hchain : Chained file limit e.span.start (e.children.map Expr.span) e.span.stop)
    (hchildren : ∀ c ∈ e.children, c.WellSpanned file limit) : e.WellSpanned file limit := by
  refine .node ⟨hstart, hstop, hchain.le⟩ ?_ hchain.precedes hchildren
  intro c hc
  exact hchain.bounds c.span (List.mem_map_of_mem hc)

theorem Stmt.wellSpanned_of_chained (hstart : st.span.start.Within file limit) (hstop : st.span.stop.Within file limit)
    (hchain : Chained file limit st.span.start (st.exprs.map Expr.span ++ st.inner.map Stmt.span) st.span.stop)
    (hexprs : ∀ e ∈ st.exprs, e.WellSpanned file limit) (hinner : ∀ c ∈ st.inner, c.WellSpanned file limit) :
    st.WellSpanned file limit := by
  refine .node ⟨hstart, hstop, hchain.le⟩ ?_ ?_ hchain.precedes hexprs hinner
  · intro e he
    exact hchain.bounds e.span (List.mem_append_left _ (List.mem_map_of_mem he))
  · intro c hc
    exact hchain.bounds c.span (List.mem_append_right _ (List.mem_map_of_mem hc))

theorem Expr.wellSpanned_leaf (hs : e.span.Sound file limit) (h : e.children = []) : e.WellSpanned file limit := by
  refine Expr.wellSpanned_of_chained hs.start_within hs.stop_within ?_ ?_
  · rw [h]
    exact hs.ordered
  · rw [h]
    exact fun c hc => absurd hc List.not_mem_nil

/-- **Parentheses widen a span**, and what it enclosed it still does. -/
theorem Expr.WellSpanned.withSpan (h : e.WellSpanned file limit) (hs : s.Sound file limit)
    (hencloses : s.Encloses e.span) : (e.withSpan s).WellSpanned file limit := by
  have hchildren : (e.withSpan s).children = e.children := by cases e <;> rfl
  cases h with
  | node sound encloses ordered children =>
      refine .node (by rwa [Expr.span_withSpan]) ?_ (by rwa [hchildren]) (by rwa [hchildren])
      intro c hc
      rw [Expr.span_withSpan]
      obtain ⟨hstart, hstop⟩ := encloses c (hchildren ▸ hc)
      exact ⟨atOrBefore_trans hencloses.1 hstart, atOrBefore_trans hstop hencloses.2⟩

end Nodes

namespace Tree

variable {file : String} {limit : Nat} {lo hi : Position} {ts : List Token} {piece : Piece} {role : Role}
  {sts : List Stmt}

/-! ## Expressions -/

/-- The expressions that stand in a piece. -/
def Piece.exprs : Piece → List Expr
  | .expr e => [e]
  | .args es | .targets es => es
  | .chain pairs => pairs.map (·.2)
  | .params _ => []

/-- Expressions that are well spanned and follow one another between two places. -/
def Spread (file : String) (limit : Nat) (lo : Position) (es : List Expr) (hi : Position) : Prop :=
  Chained file limit lo (es.map Expr.span) hi ∧ ∀ e ∈ es, e.WellSpanned file limit

section Spread

variable {mid : Position} {s : Span} {e : Expr} {es es' : List Expr}

theorem spread_single : Spread file limit lo [e] hi ↔
    e.WellSpanned file limit ∧ lo.atOrBefore e.span.start = true ∧ e.span.stop.atOrBefore hi = true := by
  constructor
  · rintro ⟨⟨-, hlo, hhi⟩, he⟩
    exact ⟨he e List.mem_cons_self, hlo, hhi⟩
  · rintro ⟨he, hlo, hhi⟩
    exact ⟨⟨he.sound, hlo, hhi⟩, List.forall_mem_singleton.mpr he⟩

theorem Spread.append (h : Spread file limit lo es mid) (h' : Spread file limit mid es' hi) :
    Spread file limit lo (es ++ es') hi := by
  refine ⟨?_, List.forall_mem_append.mpr ⟨h.2, h'.2⟩⟩
  rw [List.map_append]
  exact chained_append.mpr ⟨mid, h.1, h'.1⟩

theorem Spread.mono {lo' hi' : Position} (h : Spread file limit lo es hi) (hlo : lo'.atOrBefore lo = true)
    (hhi : hi.atOrBefore hi' = true) : Spread file limit lo' es hi' := ⟨h.1.mono hlo hhi, h.2⟩

/-- From the start of the first expression on, they follow one another, too. -/
theorem Spread.from_first (h : Spread file limit lo (e :: es) hi) : Spread file limit e.span.start (e :: es) hi :=
  ⟨⟨h.1.1, atOrBefore_refl _, h.1.2.2⟩, h.2⟩

/-- **The span that joins a row of expressions** runs from the start of the first to the end of the last, and the row fills
    it. -/
theorem Spread.joined {first last : Expr} (h : Spread file limit lo (first :: (es ++ [last])) hi)
    (hs : s = first.span.join last.span) :
    s.Sound file limit ∧ Chained file limit s.start ((first :: (es ++ [last])).map Expr.span) s.stop ∧
      lo.atOrBefore s.start = true ∧ s.stop.atOrBefore hi = true := by
  have hfirst := (h.2 first List.mem_cons_self).sound
  have hlast := (h.2 last (by simp)).sound
  have hordered := h.1.precedes
  rw [List.map_cons, List.pairwise_cons] at hordered
  have hprecedes := hordered.1 last.span (List.mem_map_of_mem (by simp))
  obtain rfl : s = ⟨first.span.start, last.span.stop⟩ := hs.trans (join_of_precedes hfirst hlast hprecedes)
  have hchain := h.from_first.1
  rw [List.map_cons, List.map_append, List.map_singleton, ← List.cons_append] at hchain
  have hfills := hchain.trim
  refine ⟨⟨hfirst.start_within, hlast.stop_within, hfills.le⟩, ?_, h.1.2.1, ?_⟩
  · rw [List.map_cons, List.map_append, List.map_singleton, ← List.cons_append]
    exact hfills
  · exact (h.1.bounds last.span (List.mem_map_of_mem (by simp))).2

/-- A node made of expressions in a row, whose span joins them. -/
theorem Spread.node {first last whole : Expr} (h : Spread file limit lo (first :: (es ++ [last])) hi)
    (hchildren : whole.children = first :: (es ++ [last])) (hspan : whole.span = first.span.join last.span) :
    Spread file limit lo [whole] hi := by
  obtain ⟨hsound, hchain, hlo, hhi⟩ := h.joined hspan
  rw [← hchildren] at hchain
  have hnode := Expr.wellSpanned_of_chained hsound.start_within hsound.stop_within hchain (by rw [hchildren]; exact h.2)
  exact spread_single.mpr ⟨hnode, hlo, hhi⟩

end Spread

/-- The least span of a chain of comparisons reaches to its last operand. -/
theorem spread_comparisonOf {left : Expr} {pairs : List (CompareOp × Expr)}
    (h : Spread file limit lo (left :: pairs.map (·.2)) hi) : Spread file limit lo [comparisonOf left pairs] hi := by
  unfold comparisonOf
  split
  · next hnone =>
      rw [List.getLast?_eq_none_iff.mp hnone] at h
      exact h
  · next last hlast =>
      obtain ⟨front, rfl⟩ := List.getLast?_eq_some_iff.mp hlast
      rw [List.map_append, List.map_singleton] at h
      refine h.node ?_ rfl
      rw [Expr.children, List.map_append, List.map_singleton]

/-- **Expressions made of tokens in a row are in a row**, and well spanned. -/
theorem Makes.spread (h : Makes ts piece) (hts : Chained file limit lo (ts.map Token.span) hi) :
    Spread file limit lo piece.exprs hi := by
  induction h generalizing lo hi with
  | literal | name =>
      obtain ⟨hs, hlo, hhi⟩ := hts
      exact spread_single.mpr ⟨Expr.wellSpanned_leaf hs rfl, hlo, hhi⟩
  | @parens ts l r e _ _ _ ih =>
      rw [List.map_cons, List.map_append] at hts
      obtain ⟨hl, hlo, hinner⟩ := hts
      obtain ⟨mid, hmid, hr, hclose, hhi⟩ := chained_append.mp hinner
      obtain ⟨he, hstart, hstop⟩ := spread_single.mp (ih hmid)
      have hencloses : Span.Encloses ⟨l.span.start, r.span.stop⟩ e.span :=
        ⟨atOrBefore_trans hl.ordered hstart, atOrBefore_trans hstop (atOrBefore_trans hclose hr.ordered)⟩
      have hsound : Span.Sound file limit ⟨l.span.start, r.span.stop⟩ :=
        ⟨hl.start_within, hr.stop_within, atOrBefore_trans hencloses.1 (atOrBefore_trans he.sound.ordered hencloses.2)⟩
      apply spread_single.mpr
      rw [Expr.span_withSpan]
      exact ⟨he.withSpan hsound hencloses, hlo, hhi⟩
  | @call ts us l r f es _ _ _ _ ihf ihes =>
      rw [List.map_append, List.map_cons, List.map_append] at hts
      obtain ⟨mid, hfunc, hargs⟩ := chained_append.mp hts
      obtain ⟨mid', hlist, hr, hclose, hhi⟩ := chained_append.mp hargs.skip
      have hrow := ((ihf hfunc).append (ihes hlist)).mono (atOrBefore_refl lo) (atOrBefore_trans hclose hr.ordered)
      have hbounds := (spread_single.mp (ihf hfunc)).2
      refine spread_single.mpr ⟨?_, hbounds.1, hhi⟩
      exact Expr.wellSpanned_of_chained (spread_single.mp (ihf hfunc)).1.sound.start_within hr.stop_within
        hrow.from_first.1 hrow.2
  | @least sign t =>
      obtain ⟨hsign, hlo, ht, hbetween, hhi⟩ := hts
      refine spread_single.mpr ⟨Expr.wellSpanned_leaf ?_ rfl, hlo, hhi⟩
      exact ⟨hsign.start_within, ht.stop_within,
        atOrBefore_trans hsign.ordered (atOrBefore_trans hbetween ht.ordered)⟩
  | @unary ts t op e _ _ ih =>
      obtain ⟨ht, hlo, hrest⟩ := hts
      have hrow := ih hrest
      obtain ⟨he, hstart, hstop⟩ := spread_single.mp hrow
      refine spread_single.mpr ⟨?_, hlo, hstop⟩
      refine Expr.wellSpanned_of_chained ht.start_within he.sound.stop_within ?_ hrow.2
      exact ⟨he.sound, atOrBefore_trans ht.ordered hstart, atOrBefore_refl _⟩
  | binary _ _ _ ihl ihr =>
      rw [List.map_append, List.map_cons] at hts
      obtain ⟨mid, hleft, hright⟩ := chained_append.mp hts
      have hrow : Spread file limit lo (_ :: ([] ++ [_])) hi := (ihl hleft).append (ihr hright.skip)
      exact hrow.node rfl rfl
  | compare _ _ ihl ihpairs =>
      rw [List.map_append] at hts
      obtain ⟨mid, hleft, hright⟩ := chained_append.mp hts
      exact spread_comparisonOf ((ihl hleft).append (ihpairs hright))
  | noArgs | noPairs | noTargets => exact ⟨hts, fun e he => absurd he List.not_mem_nil⟩
  | noParams | lastParam | moreParams => exact ⟨hts.le, fun e he => absurd he List.not_mem_nil⟩
  | lastArg _ ih => exact ih hts
  | moreArgs _ _ _ ihe ihes =>
      rw [List.map_append, List.map_cons] at hts
      obtain ⟨mid, hfirst, hrest⟩ := chained_append.mp hts
      exact (ihe hfirst).append (ihes hrest.skip)
  | morePairs _ _ _ ihe ihpairs =>
      rw [List.map_cons, List.map_append] at hts
      obtain ⟨mid, hfirst, hrest⟩ := chained_append.mp hts.skip
      exact (ihe hfirst).append (ihpairs hrest)
  | @moreTargets ts us t s id use es _ _ _ ihe ihes =>
      rw [List.map_append, List.map_cons] at hts
      obtain ⟨mid, hfirst, hrest⟩ := chained_append.mp hts
      -- a name keeps its span when it is bound
      obtain ⟨he, hlo, hhi⟩ := spread_single.mp (ihe hfirst)
      have htarget : Spread file limit lo [.name s id .store] mid :=
        spread_single.mpr ⟨Expr.wellSpanned_leaf he.sound rfl, hlo, hhi⟩
      exact htarget.append (ihes hrest.skip)

/-! ## Statements -/

/-- Statements that are well spanned and follow one another between two places. -/
def SpreadStmts (file : String) (limit : Nat) (lo : Position) (sts : List Stmt) (hi : Position) : Prop :=
  Chained file limit lo (sts.map Stmt.span) hi ∧ ∀ st ∈ sts, st.WellSpanned file limit

section SpreadStmts

variable {mid : Position} {st : Stmt} {sts' : List Stmt} {es : List Expr}

theorem spreadStmts_single : SpreadStmts file limit lo [st] hi ↔
    st.WellSpanned file limit ∧ lo.atOrBefore st.span.start = true ∧ st.span.stop.atOrBefore hi = true := by
  constructor
  · rintro ⟨⟨-, hlo, hhi⟩, hst⟩
    exact ⟨hst st List.mem_cons_self, hlo, hhi⟩
  · rintro ⟨hst, hlo, hhi⟩
    exact ⟨⟨hst.sound, hlo, hhi⟩, List.forall_mem_singleton.mpr hst⟩

theorem SpreadStmts.append (h : SpreadStmts file limit lo sts mid) (h' : SpreadStmts file limit mid sts' hi) :
    SpreadStmts file limit lo (sts ++ sts') hi := by
  refine ⟨?_, List.forall_mem_append.mpr ⟨h.2, h'.2⟩⟩
  rw [List.map_append]
  exact chained_append.mpr ⟨mid, h.1, h'.1⟩

theorem SpreadStmts.mono {hi' : Position} (h : SpreadStmts file limit lo sts hi) (hhi : hi.atOrBefore hi' = true) :
    SpreadStmts file limit lo sts hi' := ⟨h.1.mono (atOrBefore_refl lo) hhi, h.2⟩

/-- A simple statement made of expressions in a row, whose span joins them. -/
theorem Spread.stmt {first last : Expr} (h : Spread file limit lo (first :: (es ++ [last])) hi)
    (hexprs : st.exprs = first :: (es ++ [last])) (hinner : st.inner = [])
    (hspan : st.span = first.span.join last.span) : SpreadStmts file limit lo [st] hi := by
  obtain ⟨hsound, hchain, hlo, hhi⟩ := h.joined hspan
  refine spreadStmts_single.mpr ⟨Stmt.wellSpanned_of_chained hsound.start_within hsound.stop_within ?_ ?_ ?_, hlo, hhi⟩
  · rw [hexprs, hinner, List.map_nil, List.append_nil]
    exact hchain
  · rw [hexprs]
    exact h.2
  · rw [hinner]
    exact fun c hc => absurd hc List.not_mem_nil

/-- A compound statement runs from the word that starts it to the end of its last statement. -/
theorem SpreadStmts.compound {t : Token} (ht : t.span.Sound file limit) (hlo : lo.atOrBefore t.span.start = true)
    (hes : Spread file limit t.span.stop es mid) (hsts : SpreadStmts file limit mid sts hi) (hne : sts ≠ [])
    (hexprs : st.exprs = es) (hinner : st.inner = sts) (hspan : st.span = blockSpan t.span.start sts) :
    SpreadStmts file limit lo [st] hi := by
  obtain ⟨front, last, rfl⟩ : ∃ front last, sts = front ++ [last] :=
    ⟨sts.dropLast, sts.getLast hne, (List.dropLast_append_getLast hne).symm⟩
  rw [blockSpan, List.getLast?_concat] at hspan
  have hlast := hsts.1.bounds last.span (List.mem_map_of_mem (by simp))
  have hsound := (hsts.2 last (by simp)).sound
  rw [spreadStmts_single, hspan]
  refine ⟨Stmt.wellSpanned_of_chained ?_ ?_ ?_ ?_ ?_, hlo, hlast.2⟩
  · rw [hspan]
    exact ht.start_within
  · rw [hspan]
    exact hsound.stop_within
  · rw [hspan, hexprs, hinner]
    have hchain := hsts.1
    rw [List.map_append, List.map_singleton] at hchain ⊢
    exact chained_append.mpr ⟨mid, hes.1.mono ht.ordered (atOrBefore_refl mid), hchain.trim⟩
  · rw [hexprs]
    exact hes.2
  · rw [hinner]
    exact hsts.2

end SpreadStmts

/-- A conditional ends with the last statement of both branches. -/
theorem blockSpan_branches (start : Position) (body orelse : List Stmt) :
    blockSpan start (if orelse.isEmpty then body else orelse) = blockSpan start (body ++ orelse) := by
  cases orelse with
  | nil => rw [List.append_nil]; rfl
  | cons st sts =>
      have hlast : (body ++ st :: sts).getLast? = (st :: sts).getLast? := by
        rw [List.getLast?_append_of_ne_nil _ (List.cons_ne_nil st sts)]
      show blockSpan start (st :: sts) = _
      rw [blockSpan, blockSpan, hlast]

theorem spread_assignmentOf {mid : Position} {targets : List Expr} {value : Expr}
    (htargets : Spread file limit lo targets mid) (hvalue : Spread file limit mid [value] hi) :
    SpreadStmts file limit lo [assignmentOf targets value] hi := by
  unfold assignmentOf
  split
  · obtain ⟨he, hstart, hstop⟩ := spread_single.mp hvalue
    refine spreadStmts_single.mpr ⟨?_, atOrBefore_trans htargets.1 hstart, hstop⟩
    refine Stmt.wellSpanned_of_chained he.sound.start_within he.sound.stop_within ?_ hvalue.2 ?_
    · exact ⟨he.sound, atOrBefore_refl _, atOrBefore_refl _⟩
    · exact fun c hc => absurd hc List.not_mem_nil
  · exact (htargets.append hvalue).stmt rfl rfl rfl

/-- **Statements composed of tokens in a row are in a row**, and well spanned, if no level is closed where it is opened. -/
theorem Composes.spread (h : Composes role ts sts) (hts : Chained file limit lo (ts.map Token.span) hi)
    (hspaced : Token.Spaced ts) : SpreadStmts file limit lo sts hi := by
  induction h generalizing lo hi with
  | pass | leave =>
      obtain ⟨ht, hlo, hhi⟩ := hts
      refine spreadStmts_single.mpr ⟨?_, hlo, hhi⟩
      refine Stmt.wellSpanned_of_chained ht.start_within ht.stop_within ht.ordered ?_ ?_
      · exact fun e he => absurd he List.not_mem_nil
      · exact fun c hc => absurd hc List.not_mem_nil
  | @ret ts t e _ he =>
      obtain ⟨ht, hlo, hrest⟩ := hts
      have hrow := he.spread hrest
      obtain ⟨hvalue, hstart, hstop⟩ := spread_single.mp hrow
      refine spreadStmts_single.mpr ⟨?_, hlo, hstop⟩
      refine Stmt.wellSpanned_of_chained ht.start_within hvalue.sound.stop_within ?_ hrow.2 ?_
      · exact ⟨hvalue.sound, atOrBefore_trans ht.ordered hstart, atOrBefore_refl _⟩
      · exact fun c hc => absurd hc List.not_mem_nil
  | assign htargets hvalue =>
      rw [List.map_append] at hts
      obtain ⟨mid, hfirst, hrest⟩ := chained_append.mp hts
      exact spread_assignmentOf (htargets.spread hfirst) (hvalue.spread hrest)
  | @augAssign ts us t s id use op value htarget _ hvalue =>
      rw [List.map_append, List.map_cons] at hts
      obtain ⟨mid, hfirst, hrest⟩ := chained_append.mp hts
      obtain ⟨he, hlo, hhi⟩ := spread_single.mp (htarget.spread hfirst)
      have hname : Spread file limit lo [.name s id .store] mid :=
        spread_single.mpr ⟨Expr.wellSpanned_leaf he.sound rfl, hlo, hhi⟩
      have hrow : Spread file limit lo (_ :: ([] ++ [_])) hi := hname.append (hvalue.spread hrest.skip)
      exact hrow.stmt rfl rfl rfl
  | stop | noElse | noLines | endFile => exact ⟨hts, fun st hst => absurd hst List.not_mem_nil⟩
  | semicolon => exact ⟨hts.le, fun st hst => absurd hst List.not_mem_nil⟩
  | more _ _ _ ih ih' =>
      rw [List.map_cons, List.map_append] at hts
      obtain ⟨mid, hfirst, hrest⟩ := chained_append.mp hts.skip
      exact (ih hfirst hspaced.tail.left).append (ih' hrest hspaced.tail.right)
  | row _ _ _ ih ih' =>
      rw [List.map_append, List.map_append] at hts
      obtain ⟨mid, hfirst, hrest⟩ := chained_append.mp hts
      obtain ⟨mid', htail, hend⟩ := chained_append.mp hrest
      exact (ih hfirst hspaced.left).append ((ih' htail hspaced.right.left).mono hend.le)
  | line _ ih | if_ _ ih | elif_ _ ih => exact ih hts hspaced
  | funcDef _ _ _ _ _ hbody ih =>
      obtain ⟨ht, hlo, hrest⟩ := hts
      have hspaced' := hspaced.tail.tail.tail.right.tail
      -- the signature holds no expressions
      have hhead := hrest.skip.skip
      rw [List.map_append, List.map_cons] at hhead
      obtain ⟨mid, hparams, hblock⟩ := chained_append.mp hhead
      have hnone : Spread file limit _ [] mid := ⟨hparams.le, fun e he => absurd he List.not_mem_nil⟩
      exact SpreadStmts.compound ht hlo hnone (ih hblock.skip hspaced') (hbody.filled hspaced').1 rfl rfl rfl
  | loop _ htest hbody ih =>
      rw [List.map_cons, List.map_append] at hts
      obtain ⟨ht, hlo, hrest⟩ := hts
      obtain ⟨mid, hfirst, hblock⟩ := chained_append.mp hrest
      have hspaced' := hspaced.tail.right
      exact SpreadStmts.compound ht hlo (htest.spread hfirst) (ih hblock hspaced') (hbody.filled hspaced').1 rfl rfl rfl
  | cond _ htest hbody _ ihbody ihorelse =>
      rw [List.map_cons, List.map_append, List.map_append] at hts
      obtain ⟨ht, hlo, hrest⟩ := hts
      obtain ⟨mid, hfirst, hbranches⟩ := chained_append.mp hrest
      obtain ⟨mid', hblock, hother⟩ := chained_append.mp hbranches
      have hspaced' := hspaced.tail.right
      have hboth := (ihbody hblock hspaced'.left).append (ihorelse hother hspaced'.right)
      refine SpreadStmts.compound ht hlo (htest.spread hfirst) hboth ?_ rfl rfl (blockSpan_branches _ _ _)
      intro hnil
      exact (hbody.filled hspaced'.left).1 (List.append_eq_nil_iff.mp hnil).1
  | else_ _ _ ih | inline _ _ ih | skip _ _ ih => exact ih hts.skip hspaced.tail
  | indented _ _ _ _ _ ih =>
      have hlines := hts.skip.skip.skip
      rw [List.map_append] at hlines
      obtain ⟨mid, hblock, hend⟩ := chained_append.mp hlines
      exact (ih hblock hspaced.tail.tail.tail.left).mono hend.le
  | moreLines _ _ ih ih' | moreFile _ _ ih ih' =>
      rw [List.map_append] at hts
      obtain ⟨mid, hfirst, hrest⟩ := chained_append.mp hts
      exact (ih hfirst hspaced.left).append (ih' hrest hspaced.right)

end Tree

/-! ## Sources -/

/-- No place in a text has a line or a column above the number of its characters plus one. -/
theorem within_placeBehind (file : String) (text after : List Char) :
    (Token.placeBehind file text).Within file ((text ++ after).length + 1) := by
  have hstart : (Position.start file).Within file 1 := ⟨rfl, Nat.le_refl 1, Nat.le_refl 1⟩
  obtain ⟨hfile, hline, hcolumn⟩ := hstart.across text
  have hle : 1 + text.length ≤ (text ++ after).length + 1 := by
    rw [List.length_append]
    omega
  exact ⟨hfile, hline.trans hle, hcolumn.trans hle⟩

theorem sound_of_tokenize {file source : String} {tokens : List Token} (h : Token.tokenize file source = .ok tokens) :
    ∀ t ∈ tokens, t.span.Sound file (source.toList.length + 1) := by
  intro t ht
  obtain ⟨before, slice, after, hsource, hspan, -⟩ := (Token.covers_of_tokenize h).located t ht
  rw [hspan, hsource]
  refine ⟨?_, within_placeBehind file (before ++ slice) after, Token.atOrBefore_placeBehind file before slice⟩
  rw [List.append_assoc]
  exact within_placeBehind file before (slice ++ after)

/-- **The tokens of a source follow one another**, from the start of the first to the end of the last. -/
theorem chained_of_tokenize {file source : String} {tokens : List Token}
    (h : Token.tokenize file source = .ok tokens) :
    ∃ s : Span, s = ⟨Tree.placeOf (Tree.eofOf tokens) tokens, Tree.eofOf tokens⟩ ∧
      s.Sound file (source.toList.length + 1) ∧
        Chained file (source.toList.length + 1) s.start (tokens.map Token.span) s.stop := by
  have hsound := sound_of_tokenize h
  have hordered : (tokens.map Token.span).Pairwise Span.Precedes :=
    List.pairwise_map.mpr (Token.covers_of_tokenize h).ordered.2
  have hne : tokens ≠ [] := by
    obtain ⟨front, last, -, -, rfl⟩ := Token.Lexer.moves_of_run_ok h
    simp [Token.Lexer.close]
  obtain ⟨first, rest, rfl⟩ := List.exists_cons_of_ne_nil hne
  obtain ⟨front, last, htokens⟩ : ∃ front last, first :: rest = front ++ [last] :=
    ⟨_, _, (List.dropLast_append_getLast hne).symm⟩
  have hfirst := hsound first List.mem_cons_self
  have hlast := hsound last (htokens ▸ List.mem_append_right front (List.mem_singleton_self last))
  -- all spans lie between the start of the first and the end of the last
  have hlo : ∀ t ∈ first :: rest, first.span.start.atOrBefore t.span.start = true := by
    intro t ht
    rcases List.mem_cons.mp ht with rfl | ht
    · exact atOrBefore_refl _
    · rw [List.map_cons, List.pairwise_cons] at hordered
      exact atOrBefore_trans hfirst.ordered (hordered.1 _ (List.mem_map_of_mem ht))
  have hhi : ∀ t ∈ first :: rest, t.span.stop.atOrBefore last.span.stop = true := by
    intro t ht
    rw [htokens, List.mem_append, List.mem_singleton] at ht
    rcases ht with ht | rfl
    · rw [htokens, List.map_append, List.pairwise_append] at hordered
      have hprecedes := hordered.2.2 _ (List.mem_map_of_mem ht) last.span (List.mem_singleton_self _)
      exact atOrBefore_trans hprecedes hlast.ordered
    · exact atOrBefore_refl _
  have hchain : Chained file (source.toList.length + 1) first.span.start ((first :: rest).map Token.span)
      last.span.stop := by
    refine chained_of_pairwise (List.forall_mem_map.mpr hsound) hordered ?_ ?_
    · exact atOrBefore_trans hfirst.ordered (hhi first List.mem_cons_self)
    · exact List.forall_mem_map.mpr fun t ht => ⟨hlo t ht, hhi t ht⟩
  refine ⟨⟨first.span.start, last.span.stop⟩, ?_, ⟨hfirst.start_within, hlast.stop_within, hchain.le⟩, hchain⟩
  rw [Tree.placeOf, Tree.eofOf, htokens, List.getLast?_concat]

/-- **Every node of the module** has a sound span, which encloses the spans of its children, and these follow one another.
    The span of the module encloses the spans of its statements. -/
structure Module.WellSpanned (file : String) (limit : Nat) (m : Module) : Prop where
  sound : m.span.Sound file limit
  encloses : ∀ st ∈ m.body, m.span.Encloses st.span
  ordered : (m.body.map Stmt.span).Pairwise Span.Precedes
  body : ∀ st ∈ m.body, st.WellSpanned file limit

/-- **Spans nest.** In the tree of every source that is read, the span of each node runs from a place of the given file to
    one that is not before it, it contains the spans of all expressions and statements directly inside the node, and these
    stand one behind the other without overlap. The span of the module contains every statement. No line and no column
    exceeds the number of characters plus one, so 32 bits hold them all where the source has fewer than `2 ^ 32 - 1`. -/
theorem spans_nest {file source : String} {m : Module} (h : parse file source = .ok m) :
    m.WellSpanned file (source.toList.length + 1) := by
  unfold parse parseLogged at h
  split at h
  · exact absurd h (by simp)
  · next tokens htokens =>
      split at h
      · exact absurd h (by simp)
      · next hparse =>
          cases h
          obtain ⟨⟨rest, front, hsplit, hcomposes⟩, hspan⟩ := Tree.composes_parseModule hparse
          obtain ⟨s, hs, hsound, hchain⟩ := chained_of_tokenize htokens
          have hspaced := Token.spaced_of_tokenize htokens
          rw [hsplit, List.map_append] at hchain
          rw [hsplit] at hspaced
          obtain ⟨mid, hfront, hrest⟩ := chained_append.mp hchain
          obtain ⟨hbody, hnodes⟩ := hcomposes.spread hfront hspaced.left
          rw [← hs] at hspan
          refine ⟨hspan ▸ hsound, ?_, hbody.precedes, hnodes⟩
          intro st hst
          obtain ⟨hstart, hstop⟩ := hbody.bounds st.span (List.mem_map_of_mem hst)
          rw [hspan]
          exact ⟨hstart, atOrBefore_trans hstop hrest.le⟩

/-- A source with parentheses, a comparison, a call with two arguments, a block and a unary operator. -/
def nestedSource : String := "while (x) < f(1, 2): y = -3"

/-- The tree of `nestedSource`. -/
def nestedModule : Module :=
  let span (first last : Nat) : Span := ⟨⟨"s", 1, first⟩, ⟨"s", 1, last⟩⟩
  let call : Expr := .call (span 13 20) (.name (span 13 14) "f" .load)
    [.const (span 15 16) (.int 1), .const (span 18 19) (.int 2)]
  let test : Expr := .compare (span 7 20) (.name (span 7 10) "x" .load) [.less] [call]
  let value : Expr := .unary (span 26 28) .minus (.const (span 27 28) (.int 3))
  ⟨[.loop (span 1 28) test [.assign (span 22 28) [.name (span 22 23) "y" .store] value]], span 1 28⟩

set_option maxRecDepth 2000 in
theorem parse_nestedSource : parse "s" nestedSource = .ok nestedModule := by cbv

theorem spans_nest_nestedSource : parse "s" nestedSource = .ok nestedModule ∧ nestedModule.WellSpanned "s" 28 := by
  have hlength : nestedSource.toList.length + 1 = 28 := by decide
  exact ⟨parse_nestedSource, hlength ▸ spans_nest parse_nestedSource⟩

end Offside
