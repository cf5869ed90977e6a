import Mathlib
import Offside.Proofs.Lookahead

/-!
# `Proofs.Cover` — tokens cover the source, losslessly and in order

The lexer cuts a text into pieces. A piece is the text of a token (`Slice`), or a gap between tokens that means nothing: a
blank, a comment, the line feed of a line that holds no token, a line feed inside parentheses, or a joined line end
(`Gap`). The pieces make up the text, and each token says where its piece stands (`Covers`), so no character is lost and
none is read twice. The text of a token reads as that token wherever it stands (`read_alone`).

All along a run, what is read is covered by the tokens that are put out (`Lexer.Covering`), so the tokens of a source
cover it (`tokens_cover_source`).
-/

namespace Offside.Token

/-! ## A token's text, read alone -/

/-- **Reading a token does not depend on what follows it.** -/
theorem read_alone {c : Char} {rest used left : List Char} {k : Kind} (h : Item.Form c rest (.token k) used left) :
    ∃ tail, used = c :: tail ∧ Item.read c tail = .ok ⟨.token k, used, []⟩ := by
  have hnil : Parted [] := by rintro d ⟨⟩
  obtain ⟨tail, hused, hread⟩ := h.token_again (Or.inr hnil)
  rw [List.append_nil] at hread
  exact ⟨tail, hused, hread⟩

/-! ## Gaps and slices -/

/-- The part of a text behind its last line feed. -/
def lineBehind (text : List Char) : List Char := (text.reverse.takeWhile (· != '\n')).reverse

/-- A line that holds no token: blanks, and perhaps a comment. -/
def isBare (line : List Char) : Bool :=
  match line.dropWhile isBlank with
  | [] => true
  | c :: _ => c == '#'

/-- **Text between tokens**, behind the text `before`, which has the tokens `tokens`. -/
inductive Gap (before : List Char) (tokens : List Token) : List Char → Prop where
  | blank {c : Char} (hc : isBlank c = true) : Gap before tokens [c]
  | comment {cs : List Char} (hcs : '\n' ∉ cs) : Gap before tokens ('#' :: cs)
  /-- The line feed that ends a line without tokens. -/
  | bareLine (hline : isBare (lineBehind before) = true) : Gap before tokens ['\n']
  /-- A line feed inside parentheses. -/
  | enclosed (hdepth : 0 < depthBehind 0 (tokens.map Token.kind)) : Gap before tokens ['\n']
  | joined : Gap before tokens ['\\', '\n']

/-- The text is a token of this kind when it stands alone. -/
def LexedAlone (text : List Char) (k : Kind) : Prop :=
  ∀ file, ∃ tokens, tokenize file (String.ofList text) = .ok tokens ∧ tokens.map Token.kind = [k, .newline, .eof]

/-- **The text of a token** of the source, behind the text `before`. Levels and the end of the file have no text, and
    neither has the line end that closes a source; any other line end is a line feed. -/
def Slice (source before text : List Char) : Kind → Prop
  | .indent | .dedent => text = []
  | .eof => text = [] ∧ before = source
  | .newline => text = ['\n'] ∨ text = [] ∧ before = source
  | k => LexedAlone text k

/-- The place behind a text that starts a file. -/
def placeBehind (file : String) (text : List Char) : Position := (Position.start file).across text

theorem placeBehind_append (file : String) (before text : List Char) :
    placeBehind file (before ++ text) = (placeBehind file before).across text := Position.across_append ..

/-- **A text covered by tokens**: it is made up of gaps and of the texts of the tokens, one behind the other, and each
    token says where its text stands. -/
inductive Covers (file : String) (source : List Char) : List Char → List Token → Prop where
  | nil : Covers file source [] []
  | gap {before text : List Char} {tokens : List Token} (h : Covers file source before tokens)
      (hgap : Gap before tokens text) : Covers file source (before ++ text) tokens
  | token {before text : List Char} {tokens : List Token} {k : Kind} (h : Covers file source before tokens)
      (hslice : Slice source before text k) :
      Covers file source (before ++ text)
        (tokens ++ [⟨k, ⟨placeBehind file before, placeBehind file (before ++ text)⟩⟩])

/-- A token that stands alone is read on a line of its own, which is then closed. -/
theorem lexedAlone_of_form {c : Char} {rest used left : List Char} {k : Kind}
    (h : Item.Form c rest (.token k) used left) : LexedAlone used k := by
  intro file
  obtain ⟨hblank, hhash, -, hfeed⟩ := h.token_head
  obtain ⟨tail, rfl, hread⟩ := read_alone h
  have hfilled : LineStart.read (c :: tail) = .filled [] (c :: tail) := by
    rw [LineStart.read, List.dropWhile_cons_of_neg (by simp [hblank]), List.takeWhile_cons_of_neg (by simp [hblank])]
    simp [hhash, hfeed]
  let next : Lexer :=
    { pos := (Position.start file).across (c :: tail), rest := [], levels := [],
      depth := Lexer.depthAfter 0 k, lineStart := false, lineOpen := true }
  have hstep : (Lexer.start file (c :: tail)).step =
      .ok (some ([⟨k, ⟨Position.start file, next.pos⟩⟩], next)) := by
    simp [Lexer.step, Lexer.start, hfilled, Lexer.enterLine, blankWidth, Levels.enter?, Levels.top, Lexer.stepInLine,
      hread, Lexer.advance, next]
  rw [tokenize, String.toList_ofList]
  exact ⟨_, Lexer.run_of_step hstep (Lexer.run_of_end rfl), rfl⟩

theorem slice_of_form {c : Char} {rest used left source before : List Char} {k : Kind}
    (h : Item.Form c rest (.token k) used left) : Slice source before used k := by
  have halone := lexedAlone_of_form h
  cases h with
  | word _ =>
      revert halone
      unfold wordKind
      split <;> exact id
  | number | string | symbol => exact halone

section Lines

variable {text blanks cs : List Char}

theorem lineBehind_append (h : '\n' ∉ cs) : lineBehind (text ++ cs) = lineBehind text ++ cs := by
  have hcs : ∀ c ∈ cs.reverse, (c != '\n') = true := by
    intro c hc
    rw [bne_iff_ne]
    rintro rfl
    exact h (List.mem_reverse.mp hc)
  rw [lineBehind, List.reverse_append, List.takeWhile_append_of_pos hcs, List.reverse_append, List.reverse_reverse]
  rfl

theorem lineBehind_feed : lineBehind (text ++ ['\n']) = [] := by
  rw [lineBehind, List.reverse_append]
  rfl

theorem not_feed_of_blank (h : ∀ c ∈ blanks, isBlank c = true) : '\n' ∉ blanks := by
  intro hmem
  exact absurd (h _ hmem) (by decide)

/-- In front of a line feed there are no blanks that are still to be read. -/
theorem blanks_of_feed {c : Char} {rest tail : List Char} (h : ∀ c ∈ blanks, isBlank c = true)
    (hfeed : blanks ++ c :: rest = '\n' :: tail) : blanks = [] ∧ c = '\n' := by
  cases blanks with
  | nil => exact ⟨rfl, (List.cons.inj hfeed).1⟩
  | cons b bs =>
      obtain ⟨rfl, -⟩ := List.cons.inj hfeed
      exact absurd List.mem_cons_self (not_feed_of_blank h)

theorem isBare_blanks (h : ∀ c ∈ blanks, isBlank c = true) : isBare blanks = true := by
  rw [isBare, List.dropWhile_eq_nil_iff.mpr h]

theorem isBare_comment (h : ∀ c ∈ blanks, isBlank c = true) : isBare (blanks ++ '#' :: cs) = true := by
  rw [isBare, List.dropWhile_append_of_pos h]
  rfl

end Lines

theorem map_kind_marks (ks : List Kind) (span : Span) : (ks.map (⟨·, span⟩)).map Token.kind = ks := by
  rw [List.map_map]
  exact List.map_id _

namespace Covers

variable {file : String} {source before text blanks : List Char} {tokens : List Token}

theorem append_blanks (h : Covers file source before tokens) (hblanks : ∀ c ∈ blanks, isBlank c = true) :
    Covers file source (before ++ blanks) tokens := by
  induction blanks generalizing before with
  | nil =>
      rw [List.append_nil]
      exact h
  | cons c cs ih =>
      rw [List.append_cons]
      exact ih (h.gap (.blank (hblanks c List.mem_cons_self))) fun d hd => hblanks d (List.mem_cons_of_mem c hd)

/-- Tokens without text add nothing to the text. -/
theorem append_marks {ks : List Kind} (h : Covers file source before tokens) (hks : ∀ k ∈ ks, Slice source before [] k) :
    Covers file source before (tokens ++ ks.map (⟨·, .point (placeBehind file before)⟩)) := by
  induction ks generalizing tokens with
  | nil =>
      rw [List.map_nil, List.append_nil]
      exact h
  | cons k ks ih =>
      have hmark := h.token (hks k List.mem_cons_self)
      rw [List.append_nil] at hmark
      rw [List.map_cons, List.append_cons]
      exact ih hmark fun k' hk' => hks k' (List.mem_cons_of_mem k hk')

end Covers

/-! ## Along a run -/

section Layout

variable {levels levels' : Levels} {width : UInt32} {layout : List Kind}

/-- Settling the indentation puts out layout tokens only. -/
theorem enter?_kinds (h : levels.enter? width = some (layout, levels')) : ∀ k ∈ layout, k = .indent ∨ k = .dedent := by
  intro k hk
  unfold Levels.enter? at h
  split at h
  · cases h
    exact Or.inl (List.mem_singleton.mp hk)
  · dsimp only at h
    split at h
    · cases h
      obtain ⟨_, _, rfl⟩ := List.mem_map.mp hk
      exact Or.inr rfl
    · exact absurd h (by simp)

theorem depthBehind_append (depth : Nat) (ks ks' : List Kind) :
    depthBehind depth (ks ++ ks') = depthBehind (depthBehind depth ks) ks' := List.foldl_append

/-- Layout tokens open and close no parentheses. -/
theorem depthBehind_layout {depth : Nat} {ks : List Kind} (h : ∀ k ∈ ks, k = .indent ∨ k = .dedent) :
    depthBehind depth ks = depth := by
  induction ks with
  | nil => rfl
  | cons k ks ih =>
      have hk : openAfter depth k = depth := by
        rcases h k List.mem_cons_self with rfl | rfl <;> rfl
      rw [depthBehind, List.foldl_cons, hk]
      exact ih fun k' hk' => h k' (List.mem_cons_of_mem k hk')

/-- No more parentheses are open than were opened. -/
theorem depthBehind_le_count (ks : List Kind) : depthBehind 0 ks ≤ ks.count (.sym .leftParen) := by
  induction ks using List.reverseRecOn with
  | nil => exact Nat.le_refl 0
  | append_singleton ks k ih =>
      rw [depthBehind_append, List.count_append]
      show openAfter _ k ≤ _
      by_cases hleft : k = .sym .leftParen
      · rw [hleft]
        exact Nat.succ_le_succ ih
      · refine Nat.le_trans ?_ (Nat.le_trans ih (Nat.le_add_right ..))
        unfold openAfter
        split
        · exact absurd rfl hleft
        · exact Nat.sub_le ..
        · exact Nat.le_refl _

end Layout

/-- **The lexer's number of open parentheses** behind tokens of these kinds: there are never fewer open than it counts,
    and it is exact as long as fewer than `2 ^ 32` were opened. -/
structure CountsOpen (depth : UInt32) (ks : List Kind) : Prop where
  le : depth.toNat ≤ depthBehind 0 ks
  exact_below : ks.count (.sym .leftParen) < 2 ^ 32 → depth.toNat = depthBehind 0 ks

namespace CountsOpen

variable {depth : UInt32} {ks ks' : List Kind}

theorem zero : CountsOpen 0 [] := ⟨Nat.le_refl 0, fun _ => rfl⟩

/-- The count goes on with every token. -/
theorem snoc (h : CountsOpen depth ks) (k : Kind) : CountsOpen (Lexer.depthAfter depth k) (ks ++ [k]) := by
  have hbehind : depthBehind 0 (ks ++ [k]) = openAfter (depthBehind 0 ks) k := depthBehind_append ..
  constructor
  · rw [hbehind]
    exact toNat_depthAfter_le h.le k
  · intro hlt
    have hcount : ks.count (.sym .leftParen) < 2 ^ 32 := by
      rw [List.count_append] at hlt
      exact Nat.lt_of_le_of_lt (Nat.le_add_right ..) hlt
    -- what is open was opened, so the count does not start again at 0
    rw [toNat_depthAfter, h.exact_below hcount, ← hbehind]
    exact Nat.mod_eq_of_lt (Nat.lt_of_le_of_lt (depthBehind_le_count _) hlt)

theorem append_layout (h : CountsOpen depth ks) (hks' : ∀ k ∈ ks', k = .indent ∨ k = .dedent) :
    CountsOpen depth (ks ++ ks') := by
  have hcount : ks'.count (.sym .leftParen) = 0 := by
    rw [List.count_eq_zero]
    intro hmem
    rcases hks' _ hmem with hk | hk <;> exact Kind.noConfusion hk
  constructor
  · rw [depthBehind_append, depthBehind_layout hks']
    exact h.le
  · rw [depthBehind_append, depthBehind_layout hks', List.count_append, hcount]
    exact h.exact_below

end CountsOpen

namespace Lexer

variable {file : String} {source text used : List Char} {tokens more : List Token} {lx next : Lexer}

/-- **What holds along a run**: the text that is read is covered by the tokens that are put out, the open parentheses
    are those of the tokens, and a line whose indentation still counts holds no token so far. -/
structure Covering (file : String) (source : List Char) (lx : Lexer) (text : List Char) (tokens : List Token) :
    Prop where
  covers : Covers file source text tokens
  pos : lx.pos = placeBehind file text
  depth : CountsOpen lx.depth (tokens.map Token.kind)
  line : lx.lineStart = true →
    isBare (lineBehind text) = true ∧ (lineBehind text = [] ∨ lx.rest = [] ∨ ∃ tail, lx.rest = '\n' :: tail)

theorem covering_start (file : String) (source : List Char) : Covering file source (start file source) [] [] :=
  ⟨.nil, rfl, .zero, fun _ => ⟨rfl, Or.inl rfl⟩⟩

namespace Covering

theorem place (h : Covering file source lx text tokens) : lx.pos.across used = placeBehind file (text ++ used) := by
  rw [h.pos, placeBehind_append]

/-- On a line whose indentation still counts, blanks are all there is, or the comment has been read. -/
theorem bare_line (h : Covering file source lx text tokens) (hstart : lx.lineStart = true) (hne : lx.rest ≠ []) :
    isBare (lineBehind text) = true ∧ (lineBehind text = [] ∨ ∃ tail, lx.rest = '\n' :: tail) := by
  obtain ⟨hbare, hline | hline | hline⟩ := h.line hstart
  · exact ⟨hbare, Or.inl hline⟩
  · exact absurd hline hne
  · exact ⟨hbare, Or.inr hline⟩

/-- A line without tokens is a gap. -/
theorem skip {rest : List Char} (h : Covering file source lx text tokens) (hstart : lx.lineStart = true)
    (hne : lx.rest ≠ []) (hread : LineStart.read lx.rest = .empty used rest) :
    Covering file source (lx.advance used rest) (text ++ used) tokens := by
  obtain ⟨hbare, hline⟩ := h.bare_line hstart hne
  have hform := LineStart.form_of_read lx.rest
  rw [hread] at hform
  generalize lx.rest = whole at hform hne hline
  cases hform with
  | ended hblanks =>
      refine ⟨h.covers.append_blanks hblanks, h.place, h.depth, fun _ => ⟨?_, Or.inr (Or.inl rfl)⟩⟩
      rcases hline with hnil | ⟨tail, rfl⟩
      · rw [lineBehind_append (not_feed_of_blank hblanks), hnil]
        exact isBare_blanks hblanks
      · exact absurd (hblanks _ List.mem_cons_self) (by decide)
  | @comment blanks cs rest hblanks hcs hrest =>
      have hcover := (h.covers.append_blanks hblanks).gap (.comment hcs)
      rw [List.append_assoc] at hcover
      refine ⟨hcover, h.place, h.depth, fun _ => ⟨?_, Or.inr hrest⟩⟩
      rcases hline with hnil | ⟨tail, htail⟩
      · have hnone : '\n' ∉ blanks ++ '#' :: cs := by
          simp [not_feed_of_blank hblanks, hcs]
        rw [lineBehind_append hnone, hnil]
        exact isBare_comment hblanks
      · -- a line feed does not start a comment
        exact absurd (blanks_of_feed hblanks htail).2 (by decide)
  | @feed blanks rest hblanks =>
      have hbareLine : isBare (lineBehind (text ++ blanks)) = true := by
        rw [lineBehind_append (not_feed_of_blank hblanks)]
        rcases hline with hnil | ⟨tail, htail⟩
        · rw [hnil]
          exact isBare_blanks hblanks
        · rw [(blanks_of_feed hblanks htail).1, List.append_nil]
          exact hbare
      have hcover := (h.covers.append_blanks hblanks).gap (.bareLine hbareLine)
      rw [List.append_assoc] at hcover
      refine ⟨hcover, h.place, h.depth, fun _ => ?_⟩
      rw [← List.append_assoc, lineBehind_feed]
      exact ⟨rfl, Or.inl rfl⟩

/-- A blank, a comment or a joined line end is a gap. -/
theorem blank {c : Char} {cs rest : List Char} (h : Covering file source lx text tokens) (hstart : lx.lineStart = false)
    (hread : Item.read c cs = .ok ⟨.blank, used, rest⟩) :
    Covering file source (lx.advance used rest) (text ++ used) tokens := by
  have hgap : Gap text tokens used := by
    cases Item.form_of_read hread with
    | blank hc => exact .blank hc
    | comment hc =>
        rw [hc]
        exact .comment (LineStart.comment_split cs).1
    | joined hc _ =>
        rw [hc]
        exact .joined
  exact ⟨h.covers.gap hgap, h.place, h.depth, fun hline => absurd (hstart.symm.trans hline) Bool.false_ne_true⟩

/-- The blanks of a line are gaps, and its layout tokens have no text. -/
theorem enter {blanks rest : List Char} {layout : List Kind} {levels : Levels} (h : Covering file source lx text tokens)
    (hread : LineStart.read lx.rest = .filled blanks rest)
    (henter : lx.levels.enter? (blankWidth blanks) = some (layout, levels)) (hstart : next.lineStart = false)
    (hpos : next.pos = lx.pos.across blanks) (hdepth : next.depth = lx.depth) :
    Covering file source next (text ++ blanks) (tokens ++ layout.map (⟨·, .point (lx.pos.across blanks)⟩)) := by
  have hform := LineStart.form_of_read lx.rest
  rw [hread] at hform
  have hblanks : ∀ c ∈ blanks, isBlank c = true := by
    generalize lx.rest = whole at hform
    cases hform with
    | filled hblanks _ _ _ => exact hblanks
  have hlayout := enter?_kinds henter
  have hslices : ∀ k ∈ layout, Slice source (text ++ blanks) [] k := by
    intro k hk
    rcases hlayout k hk with rfl | rfl <;> rfl
  refine ⟨?_, hpos.trans h.place, ?_, fun hline => absurd (hstart.symm.trans hline) Bool.false_ne_true⟩
  · rw [h.place]
    exact (h.covers.append_blanks hblanks).append_marks hslices
  · rw [List.map_append, map_kind_marks, hdepth]
    exact h.depth.append_layout hlayout

/-- **Every move keeps the text covered.** -/
theorem move (h : Covering file source lx text tokens) (hmove : Move lx used more next) :
    Covering file source next (text ++ used) (tokens ++ more) := by
  cases hmove with
  | skip hstart hne hread =>
      rw [List.append_nil]
      exact h.skip hstart hne hread
  | enter hstart hread henter => exact h.enter hread henter rfl rfl rfl
  | blank hstart hrest hread =>
      rw [List.append_nil]
      exact h.blank hstart hread
  | join hstart hrest hread hdepth =>
      rw [List.append_nil]
      cases Item.form_of_read hread with
      | newline hc =>
          rw [hc]
          have hopen : 0 < depthBehind 0 (tokens.map Token.kind) :=
            Nat.lt_of_lt_of_le (UInt32.lt_iff_toNat_lt.mp hdepth) h.depth.le
          exact ⟨h.covers.gap (.enclosed hopen), h.place, h.depth,
            fun hline => absurd (hstart.symm.trans hline) Bool.false_ne_true⟩
  | feed hstart hrest hread hdepth =>
      cases Item.form_of_read hread with
      | newline hc =>
          rw [hc]
          have hcover := h.covers.token (show Slice source text ['\n'] .newline from Or.inl rfl)
          rw [← h.place, ← h.pos] at hcover
          refine ⟨hcover, h.place, ?_, fun _ => ⟨?_, ?_⟩⟩
          · rw [List.map_append]
            exact h.depth.snoc .newline
          · rw [lineBehind_feed]
            rfl
          · exact Or.inl lineBehind_feed
  | token hstart hrest hread =>
      have hcover := h.covers.token (slice_of_form (Item.form_of_read hread))
      rw [← h.place, ← h.pos] at hcover
      refine ⟨hcover, h.place, ?_, fun hline => absurd (hstart.symm.trans hline) Bool.false_ne_true⟩
      rw [List.map_append]
      exact h.depth.snoc _

theorem moves (h : Moves (start file source) text tokens lx) : Covering file source lx text tokens := by
  induction h with
  | refl => exact covering_start file source
  | snoc _ hmove ih => exact ih.move hmove

/-- The tokens that close a text have none of it. -/
theorem close (h : Covering file source lx source tokens) : Covers file source source (tokens ++ lx.close) := by
  have hslices : ∀ k ∈ lx.closing, Slice source source [] k := by
    intro k hk
    unfold closing at hk
    rcases List.mem_append.mp hk with hk | hk
    · rcases List.mem_append.mp hk with hk | hk
      · split at hk
        · rw [List.mem_singleton.mp hk]
          exact Or.inr ⟨rfl, rfl⟩
        · exact absurd hk List.not_mem_nil
      · obtain ⟨_, _, rfl⟩ := List.mem_map.mp hk
        rfl
    · rw [List.mem_singleton.mp hk]
      exact ⟨rfl, rfl⟩
  rw [close_eq_map, h.pos]
  exact h.covers.append_marks hslices

end Covering

end Lexer

/-! ## Order -/

section Order

variable {p q r : Position}

theorem atOrBefore_iff : p.atOrBefore q = true ↔ p.line < q.line ∨ p.line = q.line ∧ p.column ≤ q.column := by
  simp [Position.atOrBefore]

theorem atOrBefore_refl (p : Position) : p.atOrBefore p = true := atOrBefore_iff.mpr (Or.inr ⟨rfl, Nat.le_refl _⟩)

theorem atOrBefore_trans (h : p.atOrBefore q = true) (h' : q.atOrBefore r = true) : p.atOrBefore r = true := by
  rw [atOrBefore_iff] at h h' ⊢
  omega

theorem atOrBefore_advance (p : Position) (c : Char) : p.atOrBefore (p.advance c) = true := by
  rw [atOrBefore_iff]
  unfold Position.advance
  split
  · exact Or.inl (Nat.lt_succ_self _)
  · exact Or.inr ⟨rfl, Nat.le_succ _⟩

/-- Reading never goes back. -/
theorem atOrBefore_across (p : Position) (text : List Char) : p.atOrBefore (p.across text) = true := by
  induction text generalizing p with
  | nil => exact atOrBefore_refl p
  | cons c cs ih => exact atOrBefore_trans (atOrBefore_advance p c) (ih (p.advance c))

theorem atOrBefore_placeBehind (file : String) (before text : List Char) :
    (placeBehind file before).atOrBefore (placeBehind file (before ++ text)) = true := by
  rw [placeBehind_append]
  exact atOrBefore_across _ text

end Order

namespace Covers

variable {file : String} {source text : List Char} {tokens : List Token}

/-- Every token ends at or before the end of what is covered, and before the tokens after it start. -/
theorem ordered (h : Covers file source text tokens) :
    (∀ t ∈ tokens, t.span.stop.atOrBefore (placeBehind file text) = true) ∧
      tokens.Pairwise fun t u => t.span.stop.atOrBefore u.span.start = true := by
  induction h with
  | nil => exact ⟨fun t ht => absurd ht List.not_mem_nil, .nil⟩
  | @gap before text tokens _ _ ih =>
      exact ⟨fun t ht => atOrBefore_trans (ih.1 t ht) (atOrBefore_placeBehind file before text), ih.2⟩
  | @token before text tokens k _ _ ih =>
      constructor
      · intro t ht
        rcases List.mem_append.mp ht with ht | ht
        · exact atOrBefore_trans (ih.1 t ht) (atOrBefore_placeBehind file before text)
        · rw [List.mem_singleton.mp ht]
          exact atOrBefore_refl _
      · refine List.pairwise_append.mpr ⟨ih.2, List.pairwise_singleton .., ?_⟩
        intro t ht u hu
        rw [List.mem_singleton.mp hu]
        exact ih.1 t ht

/-- Every token says where its slice of the text stands. -/
theorem located (h : Covers file source text tokens) : ∀ t ∈ tokens, ∃ before slice after,
    text = before ++ slice ++ after ∧ t.span = ⟨placeBehind file before, placeBehind file (before ++ slice)⟩ ∧
      Slice source before slice t.kind := by
  induction h with
  | nil => exact fun t ht => absurd ht List.not_mem_nil
  | @gap before text tokens _ _ ih =>
      intro t ht
      obtain ⟨start, slice, after, rfl, hspan, hslice⟩ := ih t ht
      exact ⟨start, slice, after ++ text, List.append_assoc .., hspan, hslice⟩
  | @token before text tokens k _ hslice ih =>
      intro t ht
      rcases List.mem_append.mp ht with ht | ht
      · obtain ⟨start, slice, after, rfl, hspan, hslice⟩ := ih t ht
        exact ⟨start, slice, after ++ text, List.append_assoc .., hspan, hslice⟩
      · rw [List.mem_singleton.mp ht]
        exact ⟨before, text, [], (List.append_nil _).symm, rfl, hslice⟩

end Covers

/-- A source that is read to its end is covered by its tokens. -/
theorem covers_of_tokenize {file source : String} {tokens : List Token} (h : tokenize file source = .ok tokens) :
    Covers file source.toList source.toList tokens := by
  obtain ⟨front, last, hmoves, -, rfl⟩ := Lexer.moves_of_run_ok h
  exact (Lexer.Covering.moves hmoves).close

/-- **Tokens cover the source, losslessly and in order.** The source is made up of gaps and of the texts of its tokens.
    Every token's span runs from the place of its text to the place behind it, and the text is the token's own: none for
    levels, the end of the file and the line end that closes the source; a line feed for any other line end; and
    otherwise a text that reads as this token when it stands alone. A token ends before the tokens after it start. -/
theorem tokens_cover_source {file source : String} {tokens : List Token} (h : tokenize file source = .ok tokens) :
    Covers file source.toList source.toList tokens ∧
      (∀ t ∈ tokens, t.span.start.atOrBefore t.span.stop = true ∧
        ∃ before slice after, source.toList = before ++ slice ++ after ∧
          t.span = ⟨placeBehind file before, placeBehind file (before ++ slice)⟩ ∧
          Slice source.toList before slice t.kind) ∧
      tokens.Pairwise fun t u => t.span.stop.atOrBefore u.span.start = true := by
  have hcovers := covers_of_tokenize h
  refine ⟨hcovers, ?_, hcovers.ordered.2⟩
  intro t ht
  obtain ⟨before, slice, after, hsource, hspan, hslice⟩ := hcovers.located t ht
  refine ⟨?_, before, slice, after, hsource, hspan, hslice⟩
  rw [hspan]
  exact atOrBefore_placeBehind file before slice

/-- A source with a level, a line feed inside parentheses, a comment, and a last line that no line feed ends. -/
def sampleSource : String := "if x:\n\ty = (1,\n2) # z"

/-- The tokens of `sampleSource`. -/
def sampleTokens : List Token :=
  let token (k : Kind) (line first last : Nat) : Token := ⟨k, ⟨⟨"sample", line, first⟩, ⟨"sample", line, last⟩⟩⟩
  [token (.kw .if_) 1 1 3, token (.ident "x") 1 4 5, token (.sym .colon) 1 5 6,
    ⟨.newline, ⟨⟨"sample", 1, 6⟩, ⟨"sample", 2, 1⟩⟩⟩, token .indent 2 2 2, token (.ident "y") 2 2 3,
    token (.sym .equal) 2 4 5, token (.sym .leftParen) 2 6 7, token (.int 1) 2 7 8, token (.sym .comma) 2 8 9,
    token (.int 2) 3 1 2, token (.sym .rightParen) 3 2 3, token .newline 3 7 7, token .dedent 3 7 7, token .eof 3 7 7]

set_option maxRecDepth 10000 in
theorem tokenize_sampleSource : tokenize "sample" sampleSource = .ok sampleTokens := by cbv

theorem tokens_cover_source_sampleSource : tokenize "sample" sampleSource = .ok sampleTokens ∧
    Covers "sample" sampleSource.toList sampleSource.toList sampleTokens ∧
      sampleTokens.Pairwise fun t u => t.span.stop.atOrBefore u.span.start = true :=
  have h := tokens_cover_source tokenize_sampleSource
  ⟨tokenize_sampleSource, h.1, h.2.2⟩

end Offside.Token
