import Offside.Proofs.Cover

/-!
# `Proofs.Indentation` — the off-side rule

The indentation of a line counts when the line starts outside parentheses, strings and joined lines and holds more than
blanks and a comment (`margins`). Its width is the column of the first character that belongs to no margin: a space takes
a column, a tab goes to the next multiple of 8, carriage returns and form feeds take none (`columnBehind?`). The off-side
rule goes by a stack of widths with 0 at its bottom: a line deeper than the top opens a level, a line that stands on a
level closes the levels above it, and any other line is a fault (`settle?`, `offside`). The rule and the columns know
nothing of the lexer, and the margins only how a text is cut into items.

Widths and open parentheses are counted in 32 bits, here as in the lexer. Up to `2 ^ 32` columns and parentheses this is
plain counting (`width_of_mem_margins`, `CountsOpen.exact_below`).

The lexer follows the rule: all along a run (`Lexer.Obeying`), the lines of the source are those that are entered and
those that are pending, and the levels that the lexer has opened and closed are those of the rule on the lines that are
entered. What this says of a whole source is in `Proofs.Nesting`.
-/

namespace Offside.Token

/-! ## The rule -/

/-- A line whose indentation counts: the source up to the first character behind its margin, and the column of that
    character. -/
structure Margin where
  before : List Char
  column : Nat
deriving DecidableEq

/-- The width of a margin is its column, in 32 bits. -/
def Margin.width (m : Margin) : Nat := m.column % 2 ^ 32

/-- **The column behind one more character of a margin**: a space takes one column, a tab goes to the next multiple of 8,
    a carriage return and a form feed take none. Nothing else belongs to a margin. -/
def columnBehind? (column : Nat) (c : Char) : Option Nat :=
  if c = ' ' then some (column + 1)
  else if c = '\t' then some (column + (8 - column % 8))
  else if c = '\r' ∨ c = '\x0c' then some column
  else none

/-- The margin of a line of which `text` is left, behind `before` and at `column`, unless the line holds no token. -/
def Margin.from? (before : List Char) (column : Nat) : (text : List Char) → Option Margin
  | [] => none
  | c :: rest =>
    match columnBehind? column c with
    | some next => Margin.from? (before ++ [c]) next rest
    | none => if c = '\n' ∨ c = '#' then none else some ⟨before, column⟩

/-- The margins of the lines of `text` behind its first line, as far as its items can be read. The text stands behind
    `before`, inside `depth` parentheses. A line feed inside parentheses, a string, a comment or a joined line end
    starts no line here. -/
def marginsBelow (depth : Nat) (before : List Char) : List Char → List Margin
  | [] => []
  | c :: cs =>
    match _h : Item.read c cs with
    | .error _ => []
    | .ok r =>
      let behind := before ++ r.used
      match r.item with
      | .blank => marginsBelow depth behind r.rest
      | .token k => marginsBelow (openAfter depth k % 2 ^ 32) behind r.rest
      | .newline =>
        (if depth = 0 then (Margin.from? behind 0 r.rest).toList else []) ++ marginsBelow depth behind r.rest
termination_by text => text.length
decreasing_by all_goals exact Item.read_shortens _h

/-- **The margins of a source**, line by line. -/
def margins (source : List Char) : List Margin := (Margin.from? [] 0 source).toList ++ marginsBelow 0 [] source

/-- **The off-side rule for one line** of the given width: the layout tokens before it, and the stack in it. -/
def settle? (stack : List Nat) (width : Nat) : Option (List Kind × List Nat) :=
  if stack.headD 0 < width then some ([.indent], width :: stack)
  else if width ∈ stack then
    some (List.replicate (stack.countP (width < ·)) .dedent, stack.filter (· ≤ width))
  else none

/-- **The off-side rule** for lines one below the other: the layout tokens before them, and the stack in the last one;
    or the first line that stands on no level. -/
def offside (file : String) (stack : List Nat) : List Margin → Except Margin (List Token × List Nat)
  | [] => .ok ([], stack)
  | line :: lines =>
    match settle? stack line.width with
    | none => .error line
    | some (layout, inner) =>
      match offside file inner lines with
      | .error line => .error line
      | .ok (tokens, last) => .ok (layout.map (⟨·, .point (placeBehind file line.before)⟩) ++ tokens, last)

/-! ## The lexer's levels are the rule's stack -/

section Stack

variable {levels levels' : Levels} {width : UInt32} {layout : List Kind}

/-- **The stack of the open levels**: their widths, and 0 at the bottom. -/
def Levels.stack (levels : Levels) : List Nat := levels.map UInt32.toNat ++ [0]

/-- Levels that become narrower towards the bottom of the stack, which is 0. -/
def Stacked (levels : Levels) : Prop := levels.stack.Pairwise (· > ·)

theorem stacked_iff : Stacked levels ↔ levels.Pairwise (· > ·) ∧ ∀ level ∈ levels, 0 < level := by
  have hmap : (levels.map UInt32.toNat).Pairwise (· > ·) ↔ levels.Pairwise (· > ·) := by
    rw [List.pairwise_map]
    exact ⟨List.Pairwise.imp UInt32.lt_iff_toNat_lt.mpr, List.Pairwise.imp UInt32.lt_iff_toNat_lt.mp⟩
  rw [Stacked, Levels.stack, List.pairwise_append, hmap]
  constructor
  · rintro ⟨hlevels, -, hbottom⟩
    refine ⟨hlevels, fun level hlevel => UInt32.lt_iff_toNat_lt.mpr ?_⟩
    exact hbottom level.toNat (List.mem_map_of_mem hlevel) 0 (List.mem_singleton.mpr rfl)
  · rintro ⟨hlevels, hpos⟩
    refine ⟨hlevels, List.pairwise_singleton .., fun level hlevel bottom hbottom => ?_⟩
    obtain ⟨l, hl, rfl⟩ := List.mem_map.mp hlevel
    rw [List.mem_singleton.mp hbottom]
    exact UInt32.lt_iff_toNat_lt.mp (hpos l hl)

theorem toNat_mem_stack : width.toNat ∈ levels.stack ↔ width ∈ levels ++ [0] := by
  have hzero : width.toNat = 0 ↔ width = 0 := UInt32.toNat_inj (b := 0)
  simp [Levels.stack, UInt32.toNat_inj, hzero]

/-- On a stack, the levels above a width are those on top. -/
theorem takeWhile_deeper (h : levels.Pairwise (· > ·)) (width : UInt32) :
    levels.takeWhile (width < ·) = levels.filter (width < ·) ∧
      levels.dropWhile (width < ·) = levels.filter (· ≤ width) := by
  induction levels with
  | nil => exact ⟨rfl, rfl⟩
  | cons level levels ih =>
      obtain ⟨hhead, htail⟩ := List.pairwise_cons.mp h
      by_cases hdeeper : width < level
      · obtain ⟨htake, hdrop⟩ := ih htail
        constructor
        · rw [List.takeWhile_cons_of_pos (by simpa using hdeeper), List.filter_cons_of_pos (by simpa using hdeeper), htake]
        · rw [List.dropWhile_cons_of_pos (by simpa using hdeeper), List.filter_cons_of_neg (by simpa using hdeeper), hdrop]
      · -- the levels below are no deeper
        have hbelow : ∀ l ∈ level :: levels, l ≤ width := by
          intro l hl
          rcases List.mem_cons.mp hl with rfl | hl
          · exact UInt32.not_lt.mp hdeeper
          · exact UInt32.le_trans (UInt32.le_of_lt (hhead l hl)) (UInt32.not_lt.mp hdeeper)
        constructor
        · rw [List.takeWhile_cons_of_neg (by simpa using hdeeper), eq_comm, List.filter_eq_nil_iff]
          intro l hl
          simpa using hbelow l hl
        · rw [List.dropWhile_cons_of_neg (by simpa using hdeeper), eq_comm, List.filter_eq_self]
          intro l hl
          simpa using hbelow l hl

/-- A width stands on the stack if it is the top once the levels above it are closed. -/
theorem top_filter_iff (h : Stacked levels) (width : UInt32) :
    Levels.top (levels.filter (· ≤ width)) = width ↔ width ∈ levels ++ [0] := by
  obtain ⟨hsorted, hpos⟩ := stacked_iff.mp h
  have hkept : ∀ l, l ∈ levels.filter (· ≤ width) ↔ l ∈ levels ∧ l ≤ width := by simp
  have hfilter : (levels.filter (· ≤ width)).Pairwise (· > ·) := hsorted.filter _
  rw [List.mem_append, List.mem_singleton]
  -- the levels that are left are sorted, so the width can only be their top
  generalize levels.filter (· ≤ width) = kept at hkept hfilter
  cases kept with
  | nil =>
      constructor
      · intro htop
        exact Or.inr htop.symm
      · rintro (hmem | rfl)
        · exact absurd ((hkept width).mpr ⟨hmem, UInt32.le_refl width⟩) List.not_mem_nil
        · rfl
  | cons top below =>
      obtain ⟨hmem, hle⟩ := (hkept top).mp List.mem_cons_self
      constructor
      · intro (htop : top = width)
        exact Or.inl (htop ▸ hmem)
      · intro hwidth
        show top = width
        rcases hwidth with hwidth | rfl
        · rcases List.mem_cons.mp ((hkept width).mpr ⟨hwidth, UInt32.le_refl width⟩) with heq | hbelow
          · exact heq.symm
          · have hlt := (List.pairwise_cons.mp hfilter).1 width hbelow
            exact absurd hle (UInt32.not_le.mpr hlt)
        · exact absurd hle (UInt32.not_le.mpr (hpos top hmem))

/-- **The lexer settles a line by the rule.** -/
theorem settle?_eq (h : Stacked levels) (width : UInt32) :
    settle? levels.stack width.toNat = (levels.enter? width).map fun entered => (entered.1, entered.2.stack) := by
  have htop : levels.stack.headD 0 = levels.top.toNat := by cases levels <;> rfl
  obtain ⟨htake, hdrop⟩ := takeWhile_deeper (stacked_iff.mp h).1 width
  unfold settle? Levels.enter?
  rw [htop, htake, hdrop]
  by_cases hdeeper : levels.top < width
  · rw [if_pos (UInt32.lt_iff_toNat_lt.mp hdeeper), if_pos hdeeper]
    rfl
  · rw [if_neg (mt UInt32.lt_iff_toNat_lt.mpr hdeeper), if_neg hdeeper]
    dsimp only
    by_cases hmem : width ∈ levels ++ [0]
    · have hlayout : List.replicate (levels.stack.countP (width.toNat < ·)) Kind.dedent =
          (levels.filter (width < ·)).map fun _ => .dedent := by
        rw [List.map_const', Levels.stack, List.countP_append, List.countP_map, List.countP_eq_length_filter]
        simp [Function.comp_def, UInt32.lt_iff_toNat_lt]
      have hkept : levels.stack.filter (· ≤ width.toNat) = Levels.stack (levels.filter (· ≤ width)) := by
        rw [Levels.stack, List.filter_append, List.filter_map]
        simp [Levels.stack, Function.comp_def, UInt32.le_iff_toNat_le]
      rw [if_pos (toNat_mem_stack.mpr hmem), if_pos ((top_filter_iff h width).mpr hmem), hlayout, hkept]
      rfl
    · rw [if_neg (mt toNat_mem_stack.mp hmem), if_neg (fun htop => hmem ((top_filter_iff h width).mp htop))]
      rfl

/-- Settling a line keeps the levels stacked. -/
theorem Stacked.enter? (h : Stacked levels) (henter : levels.enter? width = some (layout, levels')) : Stacked levels' := by
  rw [stacked_iff] at h ⊢
  obtain ⟨hsorted, hpos⟩ := h
  unfold Levels.enter? at henter
  split at henter
  · next hdeeper =>
      cases henter
      have hall : ∀ l ∈ levels, l < width := by
        intro l hl
        cases levels with
        | nil => exact absurd hl List.not_mem_nil
        | cons top below =>
            have hdeeper : top < width := hdeeper
            rcases List.mem_cons.mp hl with rfl | hl
            · exact hdeeper
            · exact UInt32.lt_trans ((List.pairwise_cons.mp hsorted).1 l hl) hdeeper
      refine ⟨List.pairwise_cons.mpr ⟨hall, hsorted⟩, List.forall_mem_cons.mpr ⟨?_, hpos⟩⟩
      cases levels with
      | nil => exact hdeeper
      | cons top below => exact UInt32.lt_trans (hpos top List.mem_cons_self) hdeeper
  · dsimp only at henter
    split at henter
    · cases henter
      exact ⟨hsorted.sublist (List.dropWhile_sublist _), fun l hl => hpos l ((List.dropWhile_sublist _).subset hl)⟩
    · exact absurd henter (by simp)

end Stack

/-! ## The lines that are still to be read -/

section Margins

variable {c : Char} {cs text before blanks rest : List Char} {depth column : Nat} {width : UInt32} {line : Margin}
  {r : Reading}

/-- The lexer measures a blank as the rule does, in 32 bits. -/
theorem toNat_widen (hc : isBlank c = true) (hwidth : width.toNat = column % 2 ^ 32) :
    ∃ next, columnBehind? column c = some next ∧ (widen width c).toNat = next % 2 ^ 32 := by
  unfold columnBehind? widen
  by_cases hspace : c = ' '
  · rw [if_pos hspace, if_pos hspace]
    refine ⟨_, rfl, ?_⟩
    rw [UInt32.toNat_add, hwidth]
    exact Nat.mod_add_mod column (2 ^ 32) 1
  rw [if_neg hspace, if_neg hspace]
  by_cases htab : c = '\t'
  · rw [if_pos htab, if_pos htab]
    refine ⟨_, rfl, ?_⟩
    -- the multiple of 8 behind a column is the same before and after it is cut to 32 bits
    rw [UInt32.toNat_mul, UInt32.toNat_add, UInt32.toNat_div, hwidth]
    show (column % 2 ^ 32 / 8 + 1) % 2 ^ 32 * 8 % 2 ^ 32 = _
    omega
  rw [if_neg htab, if_neg htab]
  have hnone : c = '\r' ∨ c = '\x0c' := by
    simpa [isBlank, hspace, htab] using hc
  exact ⟨column, if_pos hnone, hwidth⟩

/-- What is no blank ends a margin. -/
theorem columnBehind?_eq_none (hc : isBlank c = false) (column : Nat) : columnBehind? column c = none := by
  have hne : ∀ d, isBlank d = true → c ≠ d := by
    rintro d hd rfl
    exact absurd (hc.symm.trans hd) Bool.false_ne_true
  unfold columnBehind?
  rw [if_neg (hne _ rfl), if_neg (hne _ rfl), if_neg (not_or.mpr ⟨hne _ rfl, hne _ rfl⟩)]

/-- A margin goes on behind its blanks. -/
theorem Margin.from?_blanks (hblanks : ∀ c ∈ blanks, isBlank c = true) (hwidth : width.toNat = column % 2 ^ 32)
    (before : List Char) : ∃ next, (blanks.foldl widen width).toNat = next % 2 ^ 32 ∧
      ∀ rest, Margin.from? before column (blanks ++ rest) = Margin.from? (before ++ blanks) next rest := by
  induction blanks generalizing width column before with
  | nil =>
      refine ⟨column, hwidth, fun rest => ?_⟩
      rw [List.append_nil, List.nil_append]
  | cons b bs ih =>
      obtain ⟨behind, hbehind, hwiden⟩ := toNat_widen (hblanks b List.mem_cons_self) hwidth
      obtain ⟨next, hnext, hrest⟩ := ih (fun d hd => hblanks d (List.mem_cons_of_mem b hd)) hwiden (before ++ [b])
      refine ⟨next, hnext, fun rest => ?_⟩
      rw [List.cons_append, Margin.from?, hbehind, List.append_cons before b bs]
      exact hrest rest

theorem Margin.from?_filled (before : List Char) (hblanks : ∀ c ∈ blanks, isBlank c = true) (hblank : isBlank c = false)
    (hhash : c ≠ '#') (hfeed : c ≠ '\n') : ∃ line, Margin.from? before 0 (blanks ++ c :: rest) = some line ∧
      line.before = before ++ blanks ∧ line.width = (blankWidth blanks).toNat := by
  obtain ⟨next, hnext, hrest⟩ := Margin.from?_blanks hblanks (show UInt32.toNat 0 = 0 % 2 ^ 32 from rfl) before
  refine ⟨⟨before ++ blanks, next⟩, ?_, rfl, hnext.symm⟩
  rw [hrest, Margin.from?, columnBehind?_eq_none hblank]
  exact if_neg (not_or.mpr ⟨hfeed, hhash⟩)

/-- A line of blanks, up to its end or to a comment, has no margin that counts. -/
theorem Margin.from?_bare (hblanks : ∀ c ∈ blanks, isBlank c = true)
    (hrest : rest = [] ∨ ∃ c tail, rest = c :: tail ∧ (c = '\n' ∨ c = '#')) :
    Margin.from? before 0 (blanks ++ rest) = none := by
  obtain ⟨next, -, hbehind⟩ := Margin.from?_blanks hblanks (show UInt32.toNat 0 = 0 % 2 ^ 32 from rfl) before
  rw [hbehind]
  rcases hrest with rfl | ⟨c, tail, rfl, hc⟩
  · rfl
  · have hblank : isBlank c = false := by rcases hc with rfl | rfl <;> rfl
    rw [Margin.from?, columnBehind?_eq_none hblank]
    exact if_pos hc

/-- One item of a text after the other. -/
theorem marginsBelow_ok (h : Item.read c cs = .ok r) :
    marginsBelow depth before (c :: cs) =
      match r.item with
      | .blank => marginsBelow depth (before ++ r.used) r.rest
      | .token k => marginsBelow (openAfter depth k % 2 ^ 32) (before ++ r.used) r.rest
      | .newline =>
        (if depth = 0 then (Margin.from? (before ++ r.used) 0 r.rest).toList else []) ++
          marginsBelow depth (before ++ r.used) r.rest := by
  rw [marginsBelow]
  split
  · next m hm => exact absurd (h.symm.trans hm) (by simp)
  · next r' hr' =>
      cases h.symm.trans hr'
      rfl

theorem marginsBelow_blanks (hblanks : ∀ c ∈ blanks, isBlank c = true) :
    marginsBelow depth before (blanks ++ rest) = marginsBelow depth (before ++ blanks) rest := by
  induction blanks generalizing before with
  | nil => rw [List.nil_append, List.append_nil]
  | cons b bs ih =>
      have hread : Item.read b (bs ++ rest) = .ok ⟨.blank, [b], bs ++ rest⟩ :=
        if_pos (hblanks b List.mem_cons_self)
      rw [List.append_cons before, List.cons_append, marginsBelow_ok hread]
      exact ih fun d hd => hblanks d (List.mem_cons_of_mem b hd)

theorem marginsBelow_comment (hcs : '\n' ∉ cs) (hrest : rest = [] ∨ ∃ tail, rest = '\n' :: tail) :
    marginsBelow depth before ('#' :: (cs ++ rest)) = marginsBelow depth (before ++ '#' :: cs) rest := by
  have hall : ∀ d ∈ cs, (d != '\n') = true := by
    intro d hd
    rw [bne_iff_ne]
    rintro rfl
    exact hcs hd
  have hsplit : (cs ++ rest).takeWhile (· != '\n') = cs ∧ (cs ++ rest).dropWhile (· != '\n') = rest := by
    rcases hrest with rfl | ⟨tail, rfl⟩
    · rw [List.append_nil]
      exact ⟨List.takeWhile_eq_self_iff.mpr hall, List.dropWhile_eq_nil_iff.mpr hall⟩
    · exact takeWhile_parts tail hall rfl
  have hread : Item.read '#' (cs ++ rest) = .ok ⟨.blank, '#' :: cs, rest⟩ := by
    have hcomment : Item.read '#' (cs ++ rest) =
        .ok ⟨.blank, '#' :: (cs ++ rest).takeWhile (· != '\n'), (cs ++ rest).dropWhile (· != '\n')⟩ := rfl
    rw [hcomment, hsplit.1, hsplit.2]
  rw [marginsBelow_ok hread]

theorem marginsBelow_feed :
    marginsBelow 0 before ('\n' :: rest) =
      (Margin.from? (before ++ ['\n']) 0 rest).toList ++ marginsBelow 0 (before ++ ['\n']) rest := by
  have hread : Item.read '\n' rest = .ok ⟨.newline, ['\n'], rest⟩ := rfl
  rw [marginsBelow_ok hread]
  rfl

end Margins

namespace Lexer

variable {file : String} {source text used : List Char} {tokens more : List Token} {lx next : Lexer}

/-- The margins of the lines that are not entered yet, when the lexer has read `text`. -/
def pending (lx : Lexer) (text : List Char) : List Margin :=
  (if lx.lineStart then (Margin.from? text 0 lx.rest).toList else []) ++ marginsBelow lx.depth.toNat text lx.rest

theorem pending_start (file : String) (source : List Char) : (start file source).pending [] = margins source := rfl

theorem pending_inLine (h : lx.lineStart = false) : lx.pending text = marginsBelow lx.depth.toNat text lx.rest := by
  rw [pending, h]
  rfl

/-- A line with tokens is the first that is pending, and the lexer has its width. -/
theorem pending_enter (text : List Char) {blanks rest : List Char} (hstart : lx.lineStart = true)
    (hread : LineStart.read lx.rest = .filled blanks rest) : ∃ line : Margin, line.before = text ++ blanks ∧
      line.width = (blankWidth blanks).toNat ∧
      lx.pending text = line :: marginsBelow lx.depth.toNat (text ++ blanks) rest := by
  have hform := LineStart.form_of_read lx.rest
  rw [hread] at hform
  rw [pending, if_pos hstart]
  generalize lx.rest = whole at hform
  cases hform with
  | filled hblanks hblank hhash hfeed =>
      obtain ⟨line, hline, hbefore, hwidth⟩ := Margin.from?_filled text hblanks hblank hhash hfeed
      refine ⟨line, hbefore, hwidth, ?_⟩
      rw [hline, marginsBelow_blanks hblanks]
      rfl

/-- Skipping a line without tokens passes over no margin. -/
theorem pending_skip {rest : List Char} (hstart : lx.lineStart = true) (hdepth : lx.depth = 0)
    (hread : LineStart.read lx.rest = .empty used rest) :
    lx.pending text = (lx.advance used rest).pending (text ++ used) := by
  have hform := LineStart.form_of_read lx.rest
  rw [hread] at hform
  simp only [pending, advance, hstart, hdepth, UInt32.toNat_zero, if_true]
  generalize lx.rest = whole at hform
  cases hform with
  | ended hblanks =>
      have hbelow : marginsBelow 0 text (used ++ []) = marginsBelow 0 (text ++ used) [] := marginsBelow_blanks hblanks
      have hnone : Margin.from? text 0 (used ++ []) = none := Margin.from?_bare hblanks (Or.inl rfl)
      rw [List.append_nil] at hbelow hnone
      rw [hnone, hbelow]
      rfl
  | @comment blanks cs _ hblanks hcs hrest =>
      have hnone : Margin.from? (text ++ (blanks ++ '#' :: cs)) 0 rest = none := by
        rcases hrest with rfl | ⟨tail, rfl⟩
        · rfl
        · rfl
      rw [Margin.from?_bare hblanks (Or.inr ⟨_, _, rfl, Or.inr rfl⟩), marginsBelow_blanks hblanks,
        marginsBelow_comment hcs hrest, hnone, List.append_assoc]
  | feed hblanks =>
      rw [Margin.from?_bare hblanks (Or.inr ⟨_, _, rfl, Or.inl rfl⟩), marginsBelow_blanks hblanks, marginsBelow_feed,
        List.append_assoc]
      rfl

end Lexer

/-! ## The lexer follows the rule -/

/-- Tokens that open and close levels. -/
def Kind.isLevel : Kind → Bool
  | .indent | .dedent => true
  | _ => false

/-- Tokens that stand for the layout of a source, and for no text on a line. -/
def Kind.isLayout : Kind → Bool
  | .newline | .indent | .dedent | .eof => true
  | _ => false

theorem Kind.isLevel_of_isLayout {k : Kind} (h : k.isLayout = false) : k.isLevel = false := by
  cases k with
  | indent | dedent => cases h
  | _ => rfl

section Rule

variable {file : String} {stack inner inner' : List Nat} {lines rest : List Margin} {line : Margin}
  {tokens : List Token} {layout : List Kind}

/-- The rule on lines is the rule on the first of them, and from there on. -/
theorem offside_append (h : offside file stack lines = .ok (tokens, inner)) (rest : List Margin) :
    offside file stack (lines ++ rest) =
      match offside file inner rest with
      | .error line => .error line
      | .ok (more, last) => .ok (tokens ++ more, last) := by
  induction lines generalizing stack tokens with
  | nil =>
      cases h
      rw [List.nil_append]
      cases offside file inner rest <;> rfl
  | cons line lines ih =>
      rw [offside] at h
      rw [List.cons_append, offside]
      cases hsettle : settle? stack line.width with
      | none =>
          rw [hsettle] at h
          exact absurd h (by simp)
      | some entered =>
          obtain ⟨layout, below⟩ := entered
          rw [hsettle] at h
          dsimp only at h ⊢
          cases hlines : offside file below lines with
          | error l =>
              rw [hlines] at h
              exact absurd h (by simp)
          | ok out =>
              obtain ⟨front, last⟩ := out
              rw [hlines] at h
              cases h
              rw [ih hlines]
              cases offside file inner rest with
              | error l => rfl
              | ok more =>
                  dsimp only
                  rw [List.append_assoc]

theorem offside_append_line (h : offside file stack lines = .ok (tokens, inner))
    (hsettle : settle? inner line.width = some (layout, inner')) :
    offside file stack (lines ++ [line]) =
      .ok (tokens ++ layout.map (⟨·, .point (placeBehind file line.before)⟩), inner') := by
  rw [offside_append h, offside, hsettle]
  dsimp only [offside]
  rw [List.append_nil]

end Rule

/-- Items that are tokens are no layout. -/
theorem Item.Form.isLayout {c : Char} {cs used rest : List Char} {k : Kind}
    (h : Item.Form c cs (.token k) used rest) : k.isLayout = false := by
  cases h with
  | word _ =>
      unfold wordKind
      split <;> rfl
  | number | string | symbol => rfl

namespace Lexer

variable {file : String} {source text used : List Char} {tokens more : List Token} {lx next : Lexer}

/-- **What holds along a run**: the lines that are entered and those that are pending are the lines of the source, and the
    levels of the lexer and the level tokens it has put out are those of the rule on the lines that are entered. -/
structure Obeying (file : String) (source : List Char) (lx : Lexer) (text : List Char) (tokens : List Token) : Prop where
  pos : lx.pos = placeBehind file text
  depth : lx.lineStart = true → lx.depth = 0
  stacked : Stacked lx.levels
  rule : ∃ entered, margins source = entered ++ lx.pending text ∧ (∀ line ∈ entered, line.before <+: text) ∧
    offside file [0] entered = .ok (tokens.filter (·.kind.isLevel), lx.levels.stack)

theorem obeying_start (file : String) (source : List Char) : Obeying file source (start file source) [] [] :=
  ⟨rfl, fun _ => rfl, List.pairwise_singleton .., [], (pending_start file source).symm,
    fun _ h => absurd h List.not_mem_nil, rfl⟩

namespace Obeying

/-- A move that enters no line puts out no level token. -/
theorem stay (h : Obeying file source lx text tokens) (hmove : Move lx used more next)
    (hlevels : next.levels = lx.levels) (hmore : ∀ t ∈ more, t.kind.isLevel = false)
    (hpending : lx.pending text = next.pending (text ++ used)) :
    Obeying file source next (text ++ used) (tokens ++ more) := by
  obtain ⟨entered, hlines, hread', hrule⟩ := h.rule
  refine ⟨?_, hmove.depth_zero h.depth, hlevels ▸ h.stacked, entered, hpending ▸ hlines,
    fun line hline => (hread' line hline).trans (List.prefix_append text used), ?_⟩
  · rw [hmove.splits.2, h.pos, placeBehind_append]
  · have hnone : more.filter (·.kind.isLevel) = [] := by
      rw [List.filter_eq_nil_iff]
      intro t ht
      rw [hmore t ht]
      exact Bool.false_ne_true
    rw [List.filter_append, hnone, List.append_nil, hlevels]
    exact hrule

/-- Inside a line, reading an item goes on to the margins behind it. -/
theorem pending_item {c : Char} {cs : List Char} {r : Reading} (hstart : lx.lineStart = false) (hrest : lx.rest = c :: cs)
    (hread : Item.read c cs = .ok r) : lx.pending text =
      match r.item with
      | .blank => marginsBelow lx.depth.toNat (text ++ r.used) r.rest
      | .token k => marginsBelow (depthAfter lx.depth k).toNat (text ++ r.used) r.rest
      | .newline =>
        (if lx.depth.toNat = 0 then (Margin.from? (text ++ r.used) 0 r.rest).toList else []) ++
          marginsBelow lx.depth.toNat (text ++ r.used) r.rest := by
  rw [pending_inLine hstart, hrest, marginsBelow_ok hread]
  simp only [toNat_depthAfter]

/-- A line is entered by the rule. -/
theorem enter {blanks rest : List Char} {layout : List Kind} {levels : Levels} (h : Obeying file source lx text tokens)
    (hmove : Move lx blanks (layout.map (⟨·, .point (lx.pos.across blanks)⟩)) next) (hstart : lx.lineStart = true)
    (hread : LineStart.read lx.rest = .filled blanks rest)
    (henter : lx.levels.enter? (blankWidth blanks) = some (layout, levels)) (hlevels : next.levels = levels)
    (hinside : next.lineStart = false) (hdepth : next.depth = lx.depth) (hrest : next.rest = rest) :
    Obeying file source next (text ++ blanks) (tokens ++ layout.map (⟨·, .point (lx.pos.across blanks)⟩)) := by
  obtain ⟨entered, hlines, hread', hrule⟩ := h.rule
  have hplace : lx.pos.across blanks = placeBehind file (text ++ blanks) := by
    rw [h.pos, placeBehind_append]
  obtain ⟨line, hbefore, hwidth, hfirst⟩ := pending_enter text hstart hread
  have hpending : lx.pending text = line :: next.pending (text ++ blanks) := by
    rw [hfirst, pending_inLine hinside, hdepth, hrest]
  have hsettle : settle? lx.levels.stack line.width = some (layout, levels.stack) := by
    rw [hwidth, settle?_eq h.stacked, henter]
    rfl
  -- the tokens of a line's margin are all of the kinds that the rule speaks of
  have hall : (layout.map (⟨·, .point (lx.pos.across blanks)⟩)).filter (fun t : Token => t.kind.isLevel) =
      layout.map (⟨·, .point (lx.pos.across blanks)⟩) := by
    rw [List.filter_eq_self]
    intro t ht
    obtain ⟨k, hk, rfl⟩ := List.mem_map.mp ht
    rcases enter?_kinds henter k hk with rfl | rfl <;> rfl
  refine ⟨hmove.splits.2.trans hplace, hmove.depth_zero h.depth, ?_, entered ++ [line], ?_, ?_, ?_⟩
  · rw [hlevels]
    exact h.stacked.enter? henter
  · rw [hlines, hpending, List.append_assoc]
    rfl
  · intro line hline
    rcases List.mem_append.mp hline with hline | hline
    · exact (hread' line hline).trans (List.prefix_append text blanks)
    · rw [List.mem_singleton.mp hline, hbefore]
  · rw [List.filter_append, hall, hlevels, hplace, ← hbefore]
    exact offside_append_line hrule hsettle

/-- **Every move follows the rule.** -/
theorem move (h : Obeying file source lx text tokens) (hmove : Move lx used more next) :
    Obeying file source next (text ++ used) (tokens ++ more) := by
  have hmove' := hmove
  cases hmove with
  | skip hstart hne hread =>
      exact h.stay hmove' rfl (fun t ht => absurd ht List.not_mem_nil) (pending_skip hstart (h.depth hstart) hread)
  | blank hstart hrest hread =>
      refine h.stay hmove' rfl (fun t ht => absurd ht List.not_mem_nil) ?_
      rw [pending_item hstart hrest hread]
      refine Eq.symm (pending_inLine ?_)
      exact hstart
  | join hstart hrest hread hdepth =>
      refine h.stay hmove' rfl (fun t ht => absurd ht List.not_mem_nil) ?_
      have hopen : lx.depth.toNat ≠ 0 := Nat.ne_of_gt (UInt32.lt_iff_toNat_lt.mp hdepth)
      rw [pending_item hstart hrest hread]
      dsimp only
      rw [if_neg hopen, List.nil_append]
      refine Eq.symm (pending_inLine ?_)
      exact hstart
  | feed hstart hrest hread hdepth =>
      refine h.stay hmove' rfl ?_ ?_
      · intro t ht
        rw [List.mem_singleton.mp ht]
        rfl
      · have hzero : lx.depth.toNat = 0 := congrArg UInt32.toNat hdepth
        rw [pending_item hstart hrest hread]
        dsimp only
        rw [if_pos hzero]
        rfl
  | token hstart hrest hread =>
      refine h.stay hmove' rfl ?_ ?_
      · intro t ht
        rw [List.mem_singleton.mp ht]
        exact Kind.isLevel_of_isLayout (Item.form_of_read hread).isLayout
      · rw [pending_item hstart hrest hread]
        refine Eq.symm (pending_inLine ?_)
        exact hstart
  | enter hstart hread henter => exact h.enter hmove' hstart hread henter rfl rfl rfl rfl

theorem moves (h : Moves (start file source) text tokens lx) : Obeying file source lx text tokens := by
  induction h with
  | refl => exact obeying_start file source
  | snoc _ hmove ih => exact ih.move hmove

end Obeying

end Lexer

end Offside.Token
