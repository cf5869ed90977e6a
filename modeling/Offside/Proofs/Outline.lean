import Offside.Proofs.Spelling

/-!
# `Proofs.Outline` — lines with blocks below them

An `Outline` is a line with the lines of its block below it. It is written as rows, each block indented by one
step more than the line it belongs to (`Outline.rows`), and it is read as tokens, each block between an indent
and a dedent (`Outline.kinds`). The off-side rule takes the one to the other (`layout?_rowsOf`), as long as no
line is indented by `2 ^ 32` columns or more, where the width of a margin starts again at 0. Levels that are
deeper than a line when it starts are a debt: one dedent each, paid before the line's first token, however many
blocks end there at once.
-/

namespace Offside.Token

/-- A line and the lines of the block below it. -/
inductive Outline where
  | entry (line : List Kind) (below : List Outline)

namespace Outline

mutual

/-- The rows of an outline whose first line is indented by `width`. -/
def rows (step width : Nat) : Outline → List Row
  | .entry line below => ⟨width, line⟩ :: rowsOf step (width + step) below

/-- The rows of outlines one below the other. -/
def rowsOf (step width : Nat) : List Outline → List Row
  | [] => []
  | o :: os => o.rows step width ++ rowsOf step width os

end

/-- The tokens of a block are those of its lines, between an indent and a dedent. -/
def enclosed (ks : List Kind) : List Kind := .indent :: ks ++ [.dedent]

mutual

/-- The tokens of an outline. -/
def kinds : Outline → List Kind
  | .entry line below => line ++ .newline :: blockKinds below

/-- The tokens of a block, where there is one. -/
def blockKinds : List Outline → List Kind
  | [] => []
  | o :: os => enclosed (o.kinds ++ kindsOf os)

/-- The tokens of outlines one below the other. -/
def kindsOf : List Outline → List Kind
  | [] => []
  | o :: os => o.kinds ++ kindsOf os

end

mutual

/-- How deep the blocks of an outline are nested. -/
def nesting : Outline → Nat
  | .entry _ [] => 0
  | .entry _ (o :: os) => nestingOf (o :: os) + 1

/-- How deep the blocks of outlines are nested. -/
def nestingOf : List Outline → Nat
  | [] => 0
  | o :: os => max o.nesting (nestingOf os)

end

theorem rowsOf_append (step width : Nat) (os os' : List Outline) :
    rowsOf step width (os ++ os') = rowsOf step width os ++ rowsOf step width os' := by
  induction os with
  | nil => simp [rowsOf]
  | cons o os ih => simp [rowsOf, ih]

theorem kindsOf_append (os os' : List Outline) : kindsOf (os ++ os') = kindsOf os ++ kindsOf os' := by
  induction os with
  | nil => simp [kindsOf]
  | cons o os ih => simp [kindsOf, ih]

theorem blockKinds_of_ne_nil {os : List Outline} (h : os ≠ []) : blockKinds os = enclosed (kindsOf os) := by
  cases os with
  | nil => exact absurd rfl h
  | cons o os => rw [blockKinds, kindsOf]

end Outline

section Debt

variable {levels base : Levels} {opening : List Kind} {width : UInt32}

/-- A line stands on the innermost level. -/
theorem top_of_enter? (h : levels.enter? width = some (opening, base)) : base.top = width := by
  unfold Levels.enter? at h
  split at h
  · obtain ⟨-, rfl⟩ : [Kind.indent] = opening ∧ width :: levels = base := by simpa using h
    rfl
  · dsimp only at h
    split at h
    · next hleft =>
        obtain ⟨-, rfl⟩ := Prod.mk.inj (Option.some.inj h)
        exact hleft
    · exact absurd h (by simp)

/-- Every level that is deeper than a line is closed in front of it. -/
theorem enter?_pending {pending : Levels} (hdeeper : ∀ p ∈ pending, width < p) (htop : base.top = width) :
    Levels.enter? (pending ++ base) width = some (List.replicate pending.length .dedent, base) := by
  have hbase : base.takeWhile (width < ·) = [] ∧ base.dropWhile (width < ·) = base := by
    cases base with
    | nil => exact ⟨rfl, rfl⟩
    | cons b bs =>
        obtain rfl : b = width := htop
        simp
  have hdeeper' : ∀ p ∈ pending, decide (width < p) = true := fun p hp => decide_eq_true (hdeeper p hp)
  have hle : ¬ Levels.top (pending ++ base) < width := by
    cases pending with
    | nil => exact fun h => absurd htop (UInt32.ne_of_lt h)
    | cons p ps =>
        have hp := hdeeper p List.mem_cons_self
        exact UInt32.lt_asymm hp
  unfold Levels.enter?
  rw [if_neg hle, List.dropWhile_append_of_pos hdeeper', List.takeWhile_append_of_pos hdeeper', hbase.1, hbase.2]
  simp [htop, List.map_const']

/-- Deeper lines open a level. -/
theorem enter?_deeper (h : base.top < width) : base.enter? width = some ([.indent], width :: base) := by
  unfold Levels.enter?
  rw [if_pos h]

/-- Below `2 ^ 32` widths compare as the numbers do. -/
theorem ofNat_lt_ofNat {n m : Nat} (h : n < m) (hm : m < 2 ^ 32) : UInt32.ofNat n < UInt32.ofNat m :=
  (UInt32.ofNat_lt_iff_lt (Nat.lt_trans h hm) hm).mpr h

end Debt

/-- The rows read as the tokens: whatever is read behind a debt of deeper levels once the debt is paid, is read
    behind the rows. -/
def Lays (rows : List Row) (width : Nat) (ks : List Kind) : Prop :=
  ∀ ⦃levels base : Levels⦄ ⦃opening : List Kind⦄ ⦃rest : List Row⦄ ⦃out : List Kind⦄,
    levels.enter? (.ofNat width) = some (opening, base) →
    (∀ pending : Levels, (∀ p ∈ pending, .ofNat width < p) →
      layout? (pending ++ base) rest = some (List.replicate pending.length .dedent ++ out)) →
    layout? levels (rows ++ rest) = some (opening ++ ks ++ out)

namespace Lays

variable {width step : Nat} {head ks ks' : List Kind} {rows rows' : List Row}

/-- A line without a block. -/
theorem line : Lays [⟨width, head⟩] width (head ++ [.newline]) := by
  intro levels base opening rest out henter hrest
  have hout := hrest [] (by simp)
  rw [List.nil_append] at hout
  rw [List.singleton_append, layout?, henter]
  simp [hout]

/-- A line with a block: the level of the block is owed behind it. -/
theorem block (hstep : 0 < step) (hfits : width + step < 2 ^ 32) (h : Lays rows (width + step) ks) :
    Lays (⟨width, head⟩ :: rows) width (head ++ .newline :: Outline.enclosed ks) := by
  intro levels base opening rest out henter hrest
  have hdeeper : UInt32.ofNat width < .ofNat (width + step) := ofNat_lt_ofNat (Nat.lt_add_of_pos_right hstep) hfits
  have hbehind : ∀ pending : Levels, (∀ p ∈ pending, .ofNat (width + step) < p) →
      layout? (pending ++ .ofNat (width + step) :: base) rest =
        some (List.replicate pending.length .dedent ++ .dedent :: out) := by
    intro pending hpending
    have hout := hrest (pending ++ [.ofNat (width + step)]) fun p hp => by
      rcases List.mem_append.mp hp with hp | hp
      · exact UInt32.lt_trans hdeeper (hpending p hp)
      · rw [List.mem_singleton.mp hp]
        exact hdeeper
    simpa [List.replicate_succ'] using hout
  have hbelow := h (enter?_deeper (by rw [top_of_enter? henter]; exact hdeeper)) hbehind
  rw [List.cons_append, layout?, henter]
  simp [hbelow, Outline.enclosed]

/-- Rows below other rows of the same width pay what those owe. -/
theorem append (h : Lays rows width ks) (h' : Lays rows' width ks') : Lays (rows ++ rows') width (ks ++ ks') := by
  intro levels base opening rest out henter hrest
  have hbehind : ∀ pending : Levels, (∀ p ∈ pending, .ofNat width < p) →
      layout? (pending ++ base) (rows' ++ rest) = some (List.replicate pending.length .dedent ++ (ks' ++ out)) := by
    intro pending hpending
    rw [h' (enter?_pending hpending (top_of_enter? henter)) hrest, List.append_assoc]
  rw [List.append_assoc, h henter hbehind]
  simp

end Lays

mutual

/-- **Blocks are read back**, however many end at once, if the deepest of them fits. -/
theorem Outline.lays {step : Nat} (hstep : 0 < step) : ∀ (o : Outline) (width : Nat),
    width + step * o.nesting < 2 ^ 32 → Lays (o.rows step width) width o.kinds
  | .entry head [], width, _ => by
      rw [Outline.rows, Outline.rowsOf, Outline.kinds, Outline.blockKinds]
      exact .line
  | .entry head (o :: os), width, hfits => by
      rw [Outline.nesting, Nat.mul_succ, Nat.add_comm (step * _), ← Nat.add_assoc] at hfits
      rw [Outline.rows, Outline.kinds, Outline.blockKinds_of_ne_nil (List.cons_ne_nil o os)]
      exact .block hstep (Nat.lt_of_le_of_lt (Nat.le_add_right ..) hfits)
        (lays_rowsOf hstep (o :: os) (List.cons_ne_nil o os) (width + step) hfits)

theorem lays_rowsOf {step : Nat} (hstep : 0 < step) : ∀ (os : List Outline), os ≠ [] → ∀ (width : Nat),
    width + step * Outline.nestingOf os < 2 ^ 32 → Lays (Outline.rowsOf step width os) width (Outline.kindsOf os)
  | [], hne, _, _ => absurd rfl hne
  | [o], _, width, hfits => by
      rw [Outline.nestingOf, Outline.nestingOf, Nat.max_zero] at hfits
      rw [Outline.rowsOf, Outline.rowsOf, List.append_nil, Outline.kindsOf, Outline.kindsOf, List.append_nil]
      exact o.lays hstep width hfits
  | o :: o' :: os, _, width, hfits => by
      rw [Outline.nestingOf, ← Nat.mul_max_mul_left, ← Nat.add_max_add_left, Nat.max_lt] at hfits
      rw [Outline.rowsOf, Outline.kindsOf]
      exact (o.lays hstep width hfits.1).append (lays_rowsOf hstep (o' :: os) (List.cons_ne_nil o' os) width hfits.2)

end

/-- **The off-side rule** gives the rows of outlines their tokens. -/
theorem layout?_rowsOf {step : Nat} (hstep : 0 < step) (os : List Outline)
    (hfits : step * Outline.nestingOf os < 2 ^ 32) :
    layout? [] (Outline.rowsOf step 0 os) = some (Outline.kindsOf os ++ [Kind.eof]) := by
  cases os with
  | nil => rfl
  | cons o os =>
      have hend : ∀ pending : Levels, (∀ p ∈ pending, .ofNat 0 < p) →
          layout? (pending ++ []) [] = some (List.replicate pending.length Kind.dedent ++ [Kind.eof]) := by
        intro pending _
        rw [List.append_nil, layout?, List.map_const']
      have henter : Levels.enter? [] (.ofNat 0) = some ([], []) := rfl
      have hlays := lays_rowsOf hstep (o :: os) (List.cons_ne_nil o os) 0 (by rw [Nat.zero_add]; exact hfits) henter hend
      rw [List.append_nil] at hlays
      exact hlays

/-- **The tokens of an outline that is written out.** -/
theorem tokenize_outlines (file : String) {step : Nat} (hstep : 0 < step) {os : List Outline}
    (hfits : step * Outline.nestingOf os < 2 ^ 32) (hrows : ∀ r ∈ Outline.rowsOf step 0 os, r.Spelled) : ∃ tokens,
    tokenize file (String.ofList ((Outline.rowsOf step 0 os).flatMap Row.text)) = .ok tokens ∧
      tokens.map Token.kind = Outline.kindsOf os ++ [.eof] :=
  tokenize_rows file hrows (layout?_rowsOf hstep os hfits)

end Offside.Token
