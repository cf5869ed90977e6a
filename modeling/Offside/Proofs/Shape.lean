import Offside.Proofs.Makeup
import Offside.Proofs.Nesting
import Offside.Proofs.Nodes

/-!
# `Proofs.Shape` — the shape of trees that are read

Trees are wider than what the parser builds. A tree that is read is regular (`Stmt.Regular`): comparisons compare as often
as they have operators, names are bound in the targets of assignments and nowhere else, and numbers are those that have
a literal, or the least one. The numbers of a tree are its literals, in order, and the least number stands for a minus
sign and the literal directly behind it (`Numerals`). Both are shown by induction on how a tree is made of tokens.

Blocks are filled (`Stmt.Filled`) if the tokens come from a text: the lexer closes no level directly behind the place
where it opens one (`spaced_of_tokenize`). Token lists that come from elsewhere can have empty blocks.
-/

namespace Offside

/-! ## Blocks -/

mutual

/-- Every block under a definition, a conditional or a loop holds a statement. -/
def Stmt.Filled : Stmt → Prop
  | .pass _ | .ret _ _ | .expr _ _ | .assign _ _ _ | .augAssign _ _ _ _ => True
  | .cond _ _ body orelse => body ≠ [] ∧ Stmt.AllFilled body ∧ Stmt.AllFilled orelse
  | .loop _ _ body => body ≠ [] ∧ Stmt.AllFilled body
  | .funcDef _ _ _ body => body ≠ [] ∧ Stmt.AllFilled body

def Stmt.AllFilled : List Stmt → Prop
  | [] => True
  | st :: sts => st.Filled ∧ Stmt.AllFilled sts

end

/-! ## The numbers of a tree -/

mutual

/-- The numbers that stand in an expression, from left to right. -/
def Expr.numbers : Expr → List Int
  | .const _ (.int v) => [v.toInt]
  | .const _ _ | .name _ _ _ => []
  | .binary _ l _ r => l.numbers ++ r.numbers
  | .unary _ _ e => e.numbers
  | .compare _ l _ es => l.numbers ++ Expr.allNumbers es
  | .call _ f args => f.numbers ++ Expr.allNumbers args

def Expr.allNumbers : List Expr → List Int
  | [] => []
  | e :: es => e.numbers ++ Expr.allNumbers es

end

mutual

/-- The numbers that stand in a statement, from left to right. -/
def Stmt.numbers : Stmt → List Int
  | .pass _ | .ret _ none => []
  | .ret _ (some e) | .expr _ e => e.numbers
  | .assign _ targets value => Expr.allNumbers targets ++ value.numbers
  | .augAssign _ target _ value => target.numbers ++ value.numbers
  | .cond _ test body orelse => test.numbers ++ (Stmt.allNumbers body ++ Stmt.allNumbers orelse)
  | .loop _ test body => test.numbers ++ Stmt.allNumbers body
  | .funcDef _ _ _ body => Stmt.allNumbers body

def Stmt.allNumbers : List Stmt → List Int
  | [] => []
  | st :: sts => st.numbers ++ Stmt.allNumbers sts

end

/-- **The numbers that tokens spell**, from left to right. A literal below the bound is a number of its own. The literal at
    the bound stands directly behind a minus sign, and is the least number together with it. There are no other
    literals. -/
inductive Numerals : List Token.Kind → List Int → Prop where
  | nil : Numerals [] []
  | other {k : Token.Kind} {ks : List Token.Kind} {ns : List Int} (hk : ∀ n, k ≠ .int n) (h : Numerals ks ns) :
      Numerals (k :: ks) ns
  | literal {n : Nat} {ks : List Token.Kind} {ns : List Int} (hn : n < 2 ^ 63) (h : Numerals ks ns) :
      Numerals (.int n :: ks) ((n : Int) :: ns)
  | least {ks : List Token.Kind} {ns : List Int} (h : Numerals ks ns) :
      Numerals (.sym .minus :: .int (2 ^ 63) :: ks) (-2 ^ 63 :: ns)

section Lists

variable {es es' : List Expr} {sts sts' : List Stmt}

theorem Stmt.allFilled_iff : Stmt.AllFilled sts ↔ ∀ st ∈ sts, st.Filled := by
  induction sts with
  | nil => simp [Stmt.AllFilled]
  | cons st sts ih => rw [Stmt.AllFilled, ih, List.forall_mem_cons]

theorem Stmt.allFilled_append : Stmt.AllFilled (sts ++ sts') ↔ Stmt.AllFilled sts ∧ Stmt.AllFilled sts' := by
  simp only [Stmt.allFilled_iff, List.forall_mem_append]

theorem Stmt.allNumbers_append : Stmt.allNumbers (sts ++ sts') = Stmt.allNumbers sts ++ Stmt.allNumbers sts' := by
  induction sts with
  | nil => rfl
  | cons st sts ih => rw [List.cons_append, Stmt.allNumbers, ih, Stmt.allNumbers, List.append_assoc]

theorem Stmt.allNumbers_single (st : Stmt) : Stmt.allNumbers [st] = st.numbers := by
  rw [Stmt.allNumbers, Stmt.allNumbers, List.append_nil]

end Lists

section WithSpan

variable {e : Expr} (s : Span)

theorem Expr.regular_withSpan : (e.withSpan s).Regular ↔ e.Regular := by
  cases e <;> simp only [Expr.withSpan, Expr.Regular]

theorem Expr.numbers_withSpan : (e.withSpan s).numbers = e.numbers := by
  cases e with
  | const s' v => cases v <;> simp only [Expr.withSpan, Expr.numbers]
  | _ => simp only [Expr.withSpan, Expr.numbers]

end WithSpan

namespace Numerals

variable {ks ks' : List Token.Kind} {ns ns' : List Int}

theorem append (h : Numerals ks ns) (h' : Numerals ks' ns') : Numerals (ks ++ ks') (ns ++ ns') := by
  induction h with
  | nil => exact h'
  | other hk _ ih => exact ih.other hk
  | literal hn _ ih => exact ih.literal hn
  | least _ ih => exact ih.least

theorem single {k : Token.Kind} (hk : ∀ n, k ≠ .int n) : Numerals [k] [] := Numerals.nil.other hk

end Numerals

namespace Tree

/-! ## Expressions -/

theorem toInt_literal {n : Nat} (hn : n < 2 ^ 63) : (BitVec.ofNat 64 n).toInt = n := by
  have hmod : (BitVec.ofNat 64 n).toNat = n := by
    rw [BitVec.toNat_ofNat]
    omega
  rw [BitVec.toInt_eq_toNat_of_lt (by omega), hmod]

theorem regular_literal {k : Token.Kind} {v : Constant} (h : k.literal? = some v) : v.Regular := by
  unfold Token.Kind.literal? at h
  split at h
  · next n =>
      split at h
      · next hn =>
          cases h
          have hn : n < 2 ^ 63 := hn
          refine Or.inl ?_
          rw [toInt_literal hn]
          omega
      · exact absurd h (by simp)
  · cases h; trivial
  · cases h; trivial
  · cases h; trivial
  · exact absurd h (by simp)

theorem numerals_literal {k : Token.Kind} {v : Constant} {s : Span} (h : k.literal? = some v) :
    Numerals [k] (Expr.const s v).numbers := by
  unfold Token.Kind.literal? at h
  split at h
  · next n =>
      split at h
      · next hn =>
          cases h
          have hn : n < 2 ^ 63 := hn
          rw [Expr.numbers, toInt_literal hn]
          exact .literal hn .nil
      · exact absurd h (by simp)
  · cases h; exact .single (by simp)
  · cases h; exact .single (by simp)
  · cases h; exact .single (by simp)
  · exact absurd h (by simp)

theorem regular_comparisonOf {left : Expr} {pairs : List (CompareOp × Expr)} (hleft : left.Regular)
    (hpairs : ∀ p ∈ pairs, p.2.Regular) : (comparisonOf left pairs).Regular := by
  unfold comparisonOf
  split
  · exact hleft
  · next last hlast =>
      have hne : pairs ≠ [] := by
        rintro rfl
        exact absurd hlast (by simp)
      rw [Expr.Regular, List.length_map, List.length_map, Expr.allRegular_iff]
      refine ⟨rfl, List.length_pos_iff.mpr hne, hleft, ?_⟩
      intro e he
      obtain ⟨p, hp, rfl⟩ := List.mem_map.mp he
      exact hpairs p hp

theorem numbers_comparisonOf (left : Expr) (pairs : List (CompareOp × Expr)) :
    (comparisonOf left pairs).numbers = left.numbers ++ Expr.allNumbers (pairs.map (·.2)) := by
  unfold comparisonOf
  split
  · next hlast =>
      rw [List.getLast?_eq_none_iff.mp hlast, List.map_nil, Expr.allNumbers, List.append_nil]
  · rw [Expr.numbers]

/-- What is regular in a piece. -/
def Piece.Regular : Piece → Prop
  | .expr e => e.Regular
  | .args es => ∀ e ∈ es, e.Regular
  | .chain pairs => ∀ p ∈ pairs, p.2.Regular
  | .targets es => ∀ e ∈ es, e.IsStored
  | .params _ => True

/-- The numbers that stand in a piece. -/
def Piece.numbers : Piece → List Int
  | .expr e => e.numbers
  | .args es | .targets es => Expr.allNumbers es
  | .chain pairs => Expr.allNumbers (pairs.map (·.2))
  | .params _ => []

variable {ts : List Token} {piece : Piece} {role : Role} {sts : List Stmt}

theorem Makes.regular (h : Makes ts piece) : piece.Regular := by
  induction h with
  | literal ht => rw [Piece.Regular, Expr.Regular]; exact regular_literal ht
  | name => rw [Piece.Regular, Expr.Regular]
  | parens _ _ _ ih => exact (Expr.regular_withSpan _).mpr ih
  | call _ _ _ _ ihf ihes => rw [Piece.Regular, Expr.Regular, Expr.allRegular_iff]; exact ⟨ihf, ihes⟩
  | least => rw [Piece.Regular, Expr.Regular]; exact Or.inr (by decide)
  | unary _ _ ih => rw [Piece.Regular, Expr.Regular]; exact ih
  | binary _ _ _ ihl ihr => rw [Piece.Regular, Expr.Regular]; exact ⟨ihl, ihr⟩
  | compare _ _ ihl ihpairs => exact regular_comparisonOf ihl ihpairs
  | noArgs | noPairs | noTargets => exact fun _ h => absurd h List.not_mem_nil
  | lastArg _ ih => exact List.forall_mem_singleton.mpr ih
  | moreArgs _ _ _ ihe ihes | morePairs _ _ _ ihe ihes => exact List.forall_mem_cons.mpr ⟨ihe, ihes⟩
  | moreTargets _ _ _ _ ihes => exact List.forall_mem_cons.mpr ⟨⟨_, _, rfl⟩, ihes⟩
  | noParams | lastParam | moreParams => trivial

theorem kind_ne_int {k k' : Token.Kind} (h : k = k') (hk : ∀ n, k' ≠ .int n) (n : Nat) : k ≠ .int n := h ▸ hk n

theorem Makes.numerals (h : Makes ts piece) : Numerals (ts.map Token.kind) piece.numbers := by
  induction h with
  | literal ht => exact numerals_literal ht
  | name ht => exact .single (kind_ne_int ht (by simp))
  | parens hl hr _ ih =>
      rw [Piece.numbers, Expr.numbers_withSpan, List.map_cons, List.map_append]
      have hwhole := ih.append (.single (kind_ne_int hr (by simp)))
      rw [List.append_nil] at hwhole
      exact hwhole.other (kind_ne_int hl (by simp))
  | call _ hl _ hr ihf ihes =>
      rw [Piece.numbers, Expr.numbers, List.map_append, List.map_cons, List.map_append]
      have hargs := ihes.append (.single (kind_ne_int hr (by simp)))
      rw [List.append_nil] at hargs
      exact ihf.append (hargs.other (kind_ne_int hl (by simp)))
  | least hsign ht =>
      simp only [List.map_cons, hsign, ht, List.map_nil]
      exact .least .nil
  | unary ht _ ih => exact ih.other (kind_ne_int ht (by simp))
  | binary _ ht _ ihl ihr =>
      rw [Piece.numbers, Expr.numbers, List.map_append, List.map_cons]
      exact ihl.append (ihr.other (kind_ne_int ht (by simp)))
  | compare _ _ ihl ihpairs =>
      rw [Piece.numbers, numbers_comparisonOf, List.map_append]
      exact ihl.append ihpairs
  | noArgs | noPairs | noTargets | noParams => exact .nil
  | lastArg _ ih =>
      rw [Piece.numbers, Expr.allNumbers, Expr.allNumbers, List.append_nil]
      exact ih
  | moreArgs _ hcomma _ ihe ihes =>
      rw [Piece.numbers, Expr.allNumbers, List.map_append, List.map_cons]
      exact ihe.append (ihes.other (kind_ne_int hcomma (by simp)))
  | morePairs ht _ _ ihe ihpairs =>
      simp only [Piece.numbers, List.map_cons, Expr.allNumbers, List.map_append]
      exact (ihe.append ihpairs).other (kind_ne_int ht (by simp))
  | moreTargets _ ht _ ihe ihes =>
      -- a target is a name, before and after it is bound
      rw [Piece.numbers, Expr.numbers] at ihe
      rw [Piece.numbers, Expr.allNumbers, Expr.numbers, List.map_append, List.map_cons]
      exact ihe.append (ihes.other (kind_ne_int ht (by simp)))
  | lastParam ht => exact .single (kind_ne_int ht (by simp))
  | moreParams ht hcomma _ ih => exact (ih.other (kind_ne_int hcomma (by simp))).other (kind_ne_int ht (by simp))

/-! ## Statements -/

theorem regular_assignmentOf {targets : List Expr} {value : Expr} (htargets : ∀ e ∈ targets, e.IsStored)
    (hvalue : value.Regular) : (assignmentOf targets value).Regular := by
  unfold assignmentOf
  split
  · rw [Stmt.Regular]
    exact hvalue
  · rw [Stmt.Regular]
    exact ⟨List.cons_ne_nil _ _, htargets, hvalue⟩

theorem numbers_assignmentOf (targets : List Expr) (value : Expr) :
    (assignmentOf targets value).numbers = Expr.allNumbers targets ++ value.numbers := by
  unfold assignmentOf
  split
  · rw [Stmt.numbers, Expr.allNumbers, List.nil_append]
  · rw [Stmt.numbers]

theorem regular_single {st : Stmt} (h : st.Regular) : Stmt.AllRegular [st] := by
  rw [Stmt.AllRegular, Stmt.AllRegular]
  exact ⟨h, trivial⟩

/-- **Statements that are read are regular.** -/
theorem Composes.regular (h : Composes role ts sts) : Stmt.AllRegular sts := by
  induction h with
  | pass => exact regular_single (by rw [Stmt.Regular]; trivial)
  | leave => exact regular_single (by rw [Stmt.Regular]; exact fun _ h => absurd h (by simp))
  | ret _ he =>
      refine regular_single ?_
      rw [Stmt.Regular]
      rintro _ ⟨⟩
      exact he.regular
  | assign htargets hvalue => exact regular_single (regular_assignmentOf htargets.regular hvalue.regular)
  | augAssign _ _ hvalue =>
      refine regular_single ?_
      rw [Stmt.Regular]
      exact ⟨⟨_, _, rfl⟩, hvalue.regular⟩
  | stop | semicolon | noElse | noLines | endFile => rw [Stmt.AllRegular]; trivial
  | more _ _ _ ih ih' | row _ _ _ ih ih' =>
      rw [Stmt.AllRegular] at ih ⊢
      exact ⟨ih.1, ih'⟩
  | line _ ih | if_ _ ih | elif_ _ ih | else_ _ _ ih | inline _ _ ih | indented _ _ _ _ _ ih | skip _ _ ih => exact ih
  | funcDef _ _ _ _ _ _ ih =>
      refine regular_single ?_
      rw [Stmt.Regular]
      exact ih
  | loop _ htest _ ih =>
      refine regular_single ?_
      rw [Stmt.Regular]
      exact ⟨htest.regular, ih⟩
  | cond _ htest _ _ ihbody ihorelse =>
      refine regular_single ?_
      rw [Stmt.Regular]
      exact ⟨htest.regular, ihbody, ihorelse⟩
  | moreLines _ _ ih ih' | moreFile _ _ ih ih' => exact Stmt.allRegular_append.mpr ⟨ih, ih'⟩

/-- **The numbers of statements that are read are the literals of their tokens.** -/
theorem Composes.numerals (h : Composes role ts sts) : Numerals (ts.map Token.kind) (Stmt.allNumbers sts) := by
  induction h with
  | pass ht | leave ht => exact .single (kind_ne_int ht (by simp))
  | ret ht he =>
      rw [Stmt.allNumbers_single, Stmt.numbers]
      exact he.numerals.other (kind_ne_int ht (by simp))
  | assign htargets hvalue =>
      rw [Stmt.allNumbers_single, numbers_assignmentOf, List.map_append]
      exact htargets.numerals.append hvalue.numerals
  | augAssign htarget ht hvalue =>
      have hname := htarget.numerals
      rw [Piece.numbers, Expr.numbers] at hname
      rw [Stmt.allNumbers_single, Stmt.numbers, Expr.numbers, List.map_append, List.map_cons]
      refine hname.append (hvalue.numerals.other fun n hn => ?_)
      rw [hn] at ht
      exact absurd ht (by simp [Token.Kind.assignmentOp?])
  | stop | noElse | noLines | endFile => exact .nil
  | semicolon ht => exact .single (kind_ne_int ht (by simp))
  | more ht _ _ ih ih' =>
      rw [Stmt.allNumbers_single] at ih
      rw [Stmt.allNumbers, List.map_cons, List.map_append]
      exact (ih.append ih').other (kind_ne_int ht (by simp))
  | row _ _ ht ih ih' =>
      rw [Stmt.allNumbers_single] at ih
      rw [Stmt.allNumbers, List.map_append, List.map_append]
      have hend := ih'.append (.single (kind_ne_int ht (by simp)))
      rw [List.append_nil] at hend
      exact ih.append hend
  | line _ ih | if_ _ ih | elif_ _ ih => exact ih
  | funcDef ht hname hl hparams hr _ ih =>
      rw [Stmt.allNumbers_single, Stmt.numbers]
      simp only [List.map_cons, List.map_append]
      have hbody := hparams.numerals.append (ih.other (kind_ne_int hr (by simp)))
      exact ((hbody.other (kind_ne_int hl (by simp))).other (kind_ne_int hname (by simp))).other
        (kind_ne_int ht (by simp))
  | loop ht htest _ ih =>
      rw [Stmt.allNumbers_single, Stmt.numbers, List.map_cons, List.map_append]
      exact (htest.numerals.append ih).other (kind_ne_int ht (by simp))
  | cond ht htest _ _ ihbody ihorelse =>
      rw [Stmt.allNumbers_single, Stmt.numbers, List.map_cons, List.map_append, List.map_append]
      exact (htest.numerals.append (ihbody.append ihorelse)).other (kind_ne_int ht (by simp))
  | else_ ht _ ih | skip ht _ ih => exact ih.other (kind_ne_int ht (by simp))
  | inline hcolon _ ih => exact ih.other (kind_ne_int hcolon (by simp))
  | indented hcolon hnewline hindent _ hdedent ih =>
      simp only [List.map_cons, List.map_append]
      have hlines := ih.append (.single (kind_ne_int hdedent (by simp)))
      rw [List.append_nil] at hlines
      exact ((hlines.other (kind_ne_int hindent (by simp))).other (kind_ne_int hnewline (by simp))).other
        (kind_ne_int hcolon (by simp))
  | moreLines _ _ ih ih' | moreFile _ _ ih ih' =>
      rw [Stmt.allNumbers_append, List.map_append]
      exact ih.append ih'

end Tree

/-! ## Levels are not closed where they are opened -/

namespace Token

/-- No level is closed directly behind the place where one is opened. -/
def Spaced (ts : List Token) : Prop := ts.IsChain fun t u => t.kind = .indent → u.kind ≠ .dedent

section Spaced

variable {ts us : List Token} {t : Token}

theorem Spaced.left (h : Spaced (ts ++ us)) : Spaced ts := (List.isChain_append.mp h).1

theorem Spaced.right (h : Spaced (ts ++ us)) : Spaced us := (List.isChain_append.mp h).2.1

theorem Spaced.tail (h : Spaced (t :: ts)) : Spaced ts := List.IsChain.tail h

/-- Behind tokens that do not end with an opened level, anything may follow. -/
theorem Spaced.append (hts : Spaced ts) (hus : Spaced us) (hlast : ∀ t ∈ ts.getLast?, t.kind ≠ .indent) :
    Spaced (ts ++ us) :=
  List.isChain_append.mpr ⟨hts, hus, fun t ht _ _ hindent => absurd hindent (hlast t ht)⟩

/-- A token that closes no level may stand anywhere. -/
theorem Spaced.snoc (hts : Spaced ts) (ht : t.kind ≠ .dedent) : Spaced (ts ++ [t]) := by
  refine List.isChain_append.mpr ⟨hts, List.isChain_singleton t, ?_⟩
  rintro u - v hv -
  rw [List.head?_cons, Option.mem_some_iff] at hv
  exact hv ▸ ht

theorem spaced_of_mem (h : ∀ t ∈ ts, t.kind ≠ .indent) : Spaced ts :=
  (List.pairwise_of_forall_mem_list fun t ht _ _ hindent => absurd hindent (h t ht)).isChain

end Spaced

namespace Lexer

variable {file : String} {source text used : List Char} {tokens more : List Token} {lx next : Lexer}

/-- **What holds along a run**: a level that was just opened leaves its line open, and where a line starts none is open. -/
structure Spacing (lx : Lexer) (tokens : List Token) : Prop where
  spaced : Spaced tokens
  opened : lx.lineOpen = false → ∀ t ∈ tokens.getLast?, t.kind ≠ .indent
  line : lx.lineStart = true → lx.lineOpen = false

namespace Spacing

theorem snoc {t : Token} (h : Spacing lx tokens) (hdedent : t.kind ≠ .dedent) (hindent : t.kind ≠ .indent)
    (hstart : next.lineStart = true → next.lineOpen = false) : Spacing next (tokens ++ [t]) := by
  refine ⟨h.spaced.snoc hdedent, fun _ u hu => ?_, hstart⟩
  rw [List.getLast?_concat, Option.mem_some_iff] at hu
  exact hu ▸ hindent

/-- Settling a line opens a level, or closes some behind the end of a line. -/
theorem enter {layout : List Kind} {levels : Levels} {width : UInt32} {span : Span} (h : Spacing lx tokens)
    (hlast : ∀ t ∈ tokens.getLast?, t.kind ≠ .indent) (henter : lx.levels.enter? width = some (layout, levels))
    (hopen : next.lineOpen = if layout.isEmpty then lx.lineOpen else layout == [.indent])
    (hstart : next.lineStart = false) : Spacing next (tokens ++ layout.map (⟨·, span⟩)) := by
  have hline : next.lineStart = true → next.lineOpen = false :=
    fun hline => absurd (hstart.symm.trans hline) Bool.false_ne_true
  rcases enter?_cases henter with ⟨rfl, -⟩ | ⟨n, rfl, -⟩
  · refine ⟨h.spaced.append (List.isChain_singleton _) hlast, fun hclosed => ?_, hline⟩
    exact absurd (hclosed.symm.trans hopen) Bool.false_ne_true
  · rw [List.map_replicate]
    have hmarks : ∀ t ∈ List.replicate n (⟨.dedent, span⟩ : Token), t.kind ≠ .indent := by
      intro t ht
      rw [List.eq_of_mem_replicate ht]
      exact Kind.noConfusion
    refine ⟨h.spaced.append (spaced_of_mem hmarks) hlast, fun _ t ht => ?_, hline⟩
    rw [List.getLast?_append] at ht
    rcases Option.or_eq_some_iff.mp ht with ht | ⟨-, ht⟩
    · exact hmarks t (List.mem_of_getLast? ht)
    · exact hlast t ht

/-- **Every move keeps levels apart.** -/
theorem move (h : Spacing lx tokens) (hmove : Move lx used more next) : Spacing next (tokens ++ more) := by
  cases hmove with
  | skip | blank | join =>
      rw [List.append_nil]
      exact ⟨h.spaced, h.opened, h.line⟩
  | enter hstart _ henter => exact h.enter (h.opened (h.line hstart)) henter rfl rfl
  | feed => exact h.snoc Kind.noConfusion Kind.noConfusion fun _ => rfl
  | token hstart _ hread =>
      have hlayout := (Item.form_of_read hread).isLayout
      refine h.snoc ?_ ?_ fun hline => absurd (hstart.symm.trans hline) Bool.false_ne_true
      · rintro rfl
        exact absurd hlayout (by decide)
      · rintro rfl
        exact absurd hlayout (by decide)

theorem moves (h : Moves (start file source) text tokens lx) : Spacing lx tokens := by
  induction h with
  | refl => exact ⟨.nil, fun _ t ht => absurd ht (by simp), fun _ => rfl⟩
  | snoc _ hmove ih => exact ih.move hmove

/-- An open line is ended before its levels are closed. -/
theorem close (h : Spacing lx tokens) : Spaced (tokens ++ lx.close) := by
  have hmarks : ∀ t ∈ lx.close, t.kind ≠ .indent := by
    intro t ht hindent
    rcases mem_close ht with hk | hk | hk <;> cases hindent.symm.trans hk
  cases hopen : lx.lineOpen with
  | false => exact h.spaced.append (spaced_of_mem hmarks) (h.opened hopen)
  | true =>
      obtain ⟨back, hback⟩ : ∃ back, lx.close = ⟨.newline, .point lx.pos⟩ :: back := by
        unfold Lexer.close
        rw [hopen]
        exact ⟨_, rfl⟩
      rw [hback] at hmarks ⊢
      rw [List.append_cons]
      have hended : Spaced (tokens ++ [⟨.newline, .point lx.pos⟩]) := h.spaced.snoc fun hk => Kind.noConfusion hk
      refine hended.append (spaced_of_mem fun t ht => hmarks t (List.mem_cons_of_mem _ ht)) fun t ht => ?_
      rw [List.getLast?_concat, Option.mem_some_iff] at ht
      exact hmarks t (ht ▸ List.mem_cons_self)

end Spacing

end Lexer

/-- **No level is closed directly behind the place where it is opened.** -/
theorem spaced_of_tokenize {file source : String} {tokens : List Token} (h : tokenize file source = .ok tokens) :
    Spaced tokens := by
  obtain ⟨front, last, hmoves, -, rfl⟩ := Lexer.moves_of_run_ok h
  exact (Lexer.Spacing.moves hmoves).close

end Token

/-! ## Blocks are filled -/

namespace Tree

variable {ts : List Token} {role : Role} {sts : List Stmt}

/-- Only the statements behind a semicolon, the other branch of a conditional and the lines of a block or a file may be
    none at all. For the lines of a block there are then no tokens either. -/
def Role.Present : Role → List Token → List Stmt → Prop
  | .tail, _, _ | .orelse, _, _ | .file, _, _ => True
  | .lines, ts, sts => sts = [] → ts = []
  | _, _, sts => sts ≠ []

theorem filled_single {st : Stmt} (h : st.Filled) : Stmt.AllFilled [st] := by
  rw [Stmt.AllFilled, Stmt.AllFilled]
  exact ⟨h, trivial⟩

theorem filled_assignmentOf (targets : List Expr) (value : Expr) : (assignmentOf targets value).Filled := by
  unfold assignmentOf
  split <;> rw [Stmt.Filled] <;> trivial

/-- **Blocks of spaced tokens are filled.** -/
theorem Composes.filled (h : Composes role ts sts) (hts : Token.Spaced ts) :
    role.Present ts sts ∧ Stmt.AllFilled sts := by
  induction h with
  | pass | leave | ret | augAssign => exact ⟨List.cons_ne_nil _ _, filled_single (by rw [Stmt.Filled]; trivial)⟩
  | assign => exact ⟨List.cons_ne_nil _ _, filled_single (filled_assignmentOf _ _)⟩
  | stop | semicolon | noElse | endFile => exact ⟨trivial, by rw [Stmt.AllFilled]; trivial⟩
  | more _ _ _ ih ih' =>
      have hst := (ih hts.tail.left).2
      rw [Stmt.AllFilled] at hst ⊢
      exact ⟨trivial, hst.1, (ih' hts.tail.right).2⟩
  | row _ _ _ ih ih' =>
      have hst := (ih hts.left).2
      rw [Stmt.AllFilled] at hst ⊢
      exact ⟨List.cons_ne_nil _ _, hst.1, (ih' hts.right.left).2⟩
  | line _ ih | if_ _ ih => exact ih hts
  | elif_ _ ih => exact ⟨trivial, (ih hts).2⟩
  | funcDef _ _ _ _ _ _ ih =>
      obtain ⟨hne, hbody⟩ := ih hts.tail.tail.tail.right.tail
      refine ⟨List.cons_ne_nil _ _, filled_single ?_⟩
      rw [Stmt.Filled]
      exact ⟨hne, hbody⟩
  | loop _ _ _ ih =>
      obtain ⟨hne, hbody⟩ := ih hts.tail.right
      refine ⟨List.cons_ne_nil _ _, filled_single ?_⟩
      rw [Stmt.Filled]
      exact ⟨hne, hbody⟩
  | cond _ _ _ _ ihbody ihorelse =>
      obtain ⟨hne, hbody⟩ := ihbody hts.tail.right.left
      refine ⟨List.cons_ne_nil _ _, filled_single ?_⟩
      rw [Stmt.Filled]
      exact ⟨hne, hbody, (ihorelse hts.tail.right.right).2⟩
  | else_ _ _ ih | skip _ _ ih => exact ⟨trivial, (ih hts.tail).2⟩
  | inline _ _ ih => exact ih hts.tail
  | @indented ts colon newline indent dedent sts _ _ hindent _ hdedent ih =>
      have hlines := hts.tail.tail
      obtain ⟨hpresent, hfilled⟩ := ih hlines.tail.left
      refine ⟨fun hnil => ?_, hfilled⟩
      -- without lines the level would be closed where it is opened
      rw [hpresent hnil] at hlines
      exact (List.isChain_cons.mp hlines).1 dedent rfl hindent hdedent
  | noLines => exact ⟨fun _ => rfl, by rw [Stmt.AllFilled]; trivial⟩
  | moreLines _ _ ih ih' =>
      obtain ⟨hne, hline⟩ := ih hts.left
      exact ⟨fun hnil => absurd (List.append_eq_nil_iff.mp hnil).1 hne,
        Stmt.allFilled_append.mpr ⟨hline, (ih' hts.right).2⟩⟩
  | moreFile _ _ ih ih' => exact ⟨trivial, Stmt.allFilled_append.mpr ⟨(ih hts.left).2, (ih' hts.right).2⟩⟩

end Tree

end Offside
