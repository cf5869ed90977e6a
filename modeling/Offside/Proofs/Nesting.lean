import Mathlib.Data.List.Induction
import Offside.Proofs.Indentation

/-!
# `Proofs.Nesting` — levels and parentheses in the tokens of a source

The tokens that the lexer puts out are in order all along a run (`Lexer.Orderly`): levels are closed only after they are
opened and as many are open as the lexer holds, a level is opened where a line starts, and layout tokens stand outside
parentheses, as long as the lexer can count those. Closing the text closes the levels that are left, so the tokens of a
source that is read to its end are well laid out (`WellLaid`). Together with the rule of `Proofs.Indentation` this is
`tokenize_follows_offside_rule`.
-/

namespace Offside.Token

/-! ## Levels are nested -/

/-- Levels are closed only after they are opened, and `n` of them are left open. -/
structure Nested (ks : List Kind) (n : Nat) : Prop where
  closes : ∀ front, front <+: ks → front.count .dedent ≤ front.count .indent
  total : ks.count .indent = ks.count .dedent + n

section Nested

variable {ks ks' : List Kind} {n m : Nat}

theorem prefix_append_cases {α : Type} {front xs ys : List α} (h : front <+: xs ++ ys) :
    front <+: xs ∨ ∃ front', front = xs ++ front' ∧ front' <+: ys := by
  obtain ⟨back, hback⟩ := h
  rcases List.append_eq_append_iff.mp hback with ⟨as, rfl, -⟩ | ⟨bs, rfl, rfl⟩
  · exact Or.inl (List.prefix_append front as)
  · exact Or.inr ⟨bs, rfl, List.prefix_append bs back⟩

theorem Nested.append (h : Nested ks n) (hcloses : ∀ front, front <+: ks' → front.count .dedent ≤ front.count .indent + n)
    (htotal : ks'.count .indent + n = ks'.count .dedent + m) : Nested (ks ++ ks') m := by
  constructor
  · intro front hfront
    rcases prefix_append_cases hfront with hfront | ⟨front', rfl, hfront'⟩
    · exact h.closes front hfront
    · have := h.total
      have := hcloses front' hfront'
      rw [List.count_append, List.count_append]
      omega
  · have := h.total
    rw [List.count_append, List.count_append]
    omega

theorem count_level {k : Kind} (hk : k.isLevel = true) (h : ∀ k ∈ ks, k.isLevel = false) : ks.count k = 0 := by
  rw [List.count_eq_zero]
  intro hmem
  exact absurd ((h k hmem).symm.trans hk) Bool.false_ne_true

theorem Nested.append_others (h : Nested ks n) (hks' : ∀ k ∈ ks', k.isLevel = false) : Nested (ks ++ ks') n := by
  refine h.append ?_ ?_
  · intro front hfront
    rw [count_level rfl fun k hk => hks' k (hfront.subset hk)]
    exact Nat.zero_le _
  · rw [count_level rfl hks', count_level rfl hks']

theorem Nested.append_indent (h : Nested ks n) : Nested (ks ++ [.indent]) (n + 1) := by
  refine h.append ?_ ?_
  · intro front hfront
    have hle : front.count .dedent ≤ [Kind.indent].count .dedent := hfront.sublist.count_le _
    exact Nat.le_trans hle (Nat.zero_le _)
  · rw [show [Kind.indent].count .indent = 1 from rfl, show [Kind.indent].count .dedent = 0 from rfl]
    omega

theorem Nested.append_dedents (h : Nested ks (n + m)) : Nested (ks ++ List.replicate n .dedent) m := by
  refine h.append ?_ ?_
  · intro front hfront
    have hle : front.count .dedent ≤ (List.replicate n Kind.dedent).count .dedent := hfront.sublist.count_le _
    rw [List.count_replicate_self] at hle
    omega
  · rw [List.count_replicate_self, List.count_replicate]
    simp

end Nested

/-- Settling a line opens one level, or closes some. -/
theorem enter?_cases {levels levels' : Levels} {width : UInt32} {layout : List Kind}
    (h : levels.enter? width = some (layout, levels')) :
    (layout = [.indent] ∧ levels'.length = levels.length + 1) ∨
      ∃ n, layout = List.replicate n .dedent ∧ levels.length = n + levels'.length := by
  unfold Levels.enter? at h
  split at h
  · cases h
    exact Or.inl ⟨rfl, rfl⟩
  · dsimp only at h
    split at h
    · cases h
      refine Or.inr ⟨(levels.takeWhile (width < ·)).length, List.map_const' .., ?_⟩
      rw [← List.length_append, List.takeWhile_append_dropWhile]
    · exact absurd h (by simp)

/-! ## Where layout tokens stand -/

/-- A line can start behind these tokens. -/
def EndsLine (tokens : List Token) : Prop :=
  tokens = [] ∨ ∃ (front : List Token) (last : Token), tokens = front ++ [last] ∧ last.kind = .newline

/-- The property holds of every token and the tokens in front of it. -/
def Everywhere (P : List Token → Token → Prop) (tokens : List Token) : Prop :=
  ∀ front t back, tokens = front ++ t :: back → P front t

section Everywhere

variable {P : List Token → Token → Prop} {tokens more : List Token}

theorem Everywhere.nil : Everywhere P [] := fun front t back h => absurd h (by simp)

theorem Everywhere.singleton {t : Token} (h : P [] t) : Everywhere P [t] := by
  intro front u back heq
  cases front with
  | nil =>
      obtain ⟨rfl, -⟩ := List.cons.inj heq
      exact h
  | cons _ _ => simp at heq

theorem Everywhere.append (h : Everywhere P tokens) (hmore : Everywhere (fun front t => P (tokens ++ front) t) more) :
    Everywhere P (tokens ++ more) := by
  intro front t back heq
  rcases List.append_eq_append_iff.mp heq with ⟨as, rfl, hmore'⟩ | ⟨bs, htokens, hback⟩
  · exact hmore as t back hmore'
  · cases bs with
    | nil =>
        rw [List.append_nil] at htokens
        have hfirst : P (tokens ++ []) t := hmore [] t back hback.symm
        rw [List.append_nil, htokens] at hfirst
        exact hfirst
    | cons b bs =>
        obtain ⟨rfl, -⟩ := List.cons.inj hback
        exact h front t bs htokens

theorem Everywhere.of_mem (h : ∀ front, ∀ t ∈ tokens, P front t) : Everywhere P tokens := by
  intro front t back heq
  exact h front t (heq ▸ List.mem_append_right front List.mem_cons_self)

end Everywhere

namespace Lexer

variable {file : String} {source text used : List Char} {tokens more : List Token} {lx next : Lexer}

/-- Fewer than `2 ^ 32` parentheses are opened. -/
def Countable (tokens : List Token) : Prop := (tokens.map Token.kind).count (.sym .leftParen) < 2 ^ 32

/-- **What holds of the tokens along a run**: the levels that they leave open are those of the lexer, levels are opened
    where lines start, and layout tokens stand outside parentheses. -/
structure Orderly (lx : Lexer) (tokens : List Token) : Prop where
  nested : Nested (tokens.map Token.kind) lx.levels.length
  line : lx.lineStart = true → EndsLine tokens
  opened : Everywhere (fun front t => t.kind = .indent → EndsLine front) tokens
  outside : Everywhere (fun front t => t.kind.isLayout = true → Countable front →
    depthBehind 0 (front.map Token.kind) = 0) tokens
  eof : ∀ t ∈ tokens, t.kind ≠ .eof

theorem Countable.of_append {front back : List Token} (h : Countable (front ++ back)) : Countable front := by
  unfold Countable at h
  rw [List.map_append, List.count_append] at h
  exact Nat.lt_of_le_of_lt (Nat.le_add_right ..) h

theorem orderly_start (file : String) (source : List Char) : Orderly (start file source) [] := by
  refine ⟨⟨?_, rfl⟩, fun _ => Or.inl rfl, .nil, .nil, fun t ht => absurd ht List.not_mem_nil⟩
  intro front hfront
  rw [List.prefix_nil.mp hfront]
  exact Nat.le_refl 0

namespace Orderly

/-- A token that is no layout goes anywhere. -/
theorem append_lexeme {t : Token} (h : Orderly lx tokens) (ht : t.kind.isLayout = false)
    (hlevels : next.levels = lx.levels) (hstart : next.lineStart = false) : Orderly next (tokens ++ [t]) := by
  have hkind : ∀ k : Kind, k.isLayout = true → t.kind ≠ k := by
    rintro k hk rfl
    exact absurd (ht.symm.trans hk) Bool.false_ne_true
  refine ⟨?_, fun hline => absurd (hstart.symm.trans hline) Bool.false_ne_true, h.opened.append (.singleton ?_),
    h.outside.append (.singleton ?_), List.forall_mem_append.mpr ⟨h.eof, List.forall_mem_singleton.mpr (hkind _ rfl)⟩⟩
  · rw [List.map_append, hlevels]
    exact h.nested.append_others (List.forall_mem_singleton.mpr (Kind.isLevel_of_isLayout ht))
  · intro hindent
    exact absurd hindent (hkind _ rfl)
  · intro hlayout
    exact absurd (ht.symm.trans hlayout) Bool.false_ne_true

/-- A line end stands outside parentheses. -/
theorem append_newline {span : Span} (h : Orderly lx tokens)
    (hdepth : Countable tokens → depthBehind 0 (tokens.map Token.kind) = 0)
    (hlevels : next.levels = lx.levels) : Orderly next (tokens ++ [⟨.newline, span⟩]) := by
  refine ⟨?_, fun _ => Or.inr ⟨tokens, _, rfl, rfl⟩, h.opened.append (.singleton Kind.noConfusion),
    h.outside.append (.singleton ?_), List.forall_mem_append.mpr ⟨h.eof, List.forall_mem_singleton.mpr Kind.noConfusion⟩⟩
  · rw [List.map_append, hlevels]
    exact h.nested.append_others (List.forall_mem_singleton.mpr rfl)
  · intro _
    rw [List.append_nil]
    exact hdepth

/-- Settling a line opens a level behind a line end, or closes levels. -/
theorem append_layout {layout : List Kind} {levels : Levels} {width : UInt32} {span : Span} (h : Orderly lx tokens)
    (hline : EndsLine tokens) (hdepth : Countable tokens → depthBehind 0 (tokens.map Token.kind) = 0)
    (henter : lx.levels.enter? width = some (layout, levels)) (hlevels : next.levels = levels)
    (hstart : next.lineStart = false) : Orderly next (tokens ++ layout.map (⟨·, span⟩)) := by
  have hkinds := map_kind_marks layout span
  have hlayout := enter?_kinds henter
  refine ⟨?_, fun hline => absurd (hstart.symm.trans hline) Bool.false_ne_true, h.opened.append ?_, h.outside.append ?_,
    List.forall_mem_append.mpr ⟨h.eof, ?_⟩⟩
  · rw [List.map_append, hkinds, hlevels]
    rcases enter?_cases henter with ⟨rfl, hlength⟩ | ⟨n, rfl, hlength⟩
    · rw [hlength]
      exact h.nested.append_indent
    · have hnested := h.nested
      rw [hlength] at hnested
      exact hnested.append_dedents
  · rcases enter?_cases henter with ⟨rfl, -⟩ | ⟨n, rfl, -⟩
    · refine .singleton fun _ => ?_
      rw [List.append_nil]
      exact hline
    · refine .of_mem fun front u hu hindent => ?_
      obtain ⟨k, hk, rfl⟩ := List.mem_map.mp hu
      cases hindent.symm.trans (List.eq_of_mem_replicate hk)
  · intro front u back heq _ hcount
    have hfront : ∀ k ∈ front.map Token.kind, k = .indent ∨ k = .dedent := by
      intro k hk
      apply hlayout
      rw [← hkinds, heq, List.map_append]
      exact List.mem_append_left _ hk
    rw [List.map_append, depthBehind_append, hdepth (hcount.of_append), depthBehind_layout hfront]
  · intro u hu
    obtain ⟨k, hk, rfl⟩ := List.mem_map.mp hu
    rcases hlayout k hk with rfl | rfl <;> exact fun heq => Kind.noConfusion heq

/-- **Every move keeps the tokens in order.** -/
theorem move (h : Orderly lx tokens) (hdepth : CountsOpen lx.depth (tokens.map Token.kind))
    (houtside : lx.lineStart = true → lx.depth = 0) (hmove : Move lx used more next) : Orderly next (tokens ++ more) := by
  -- where the lexer counts no open parenthesis, there is none
  have hclosed : lx.depth = 0 → Countable tokens → depthBehind 0 (tokens.map Token.kind) = 0 := by
    intro hzero hcount
    rw [← hdepth.exact_below hcount, hzero]
    rfl
  cases hmove with
  | skip hstart =>
      rw [List.append_nil]
      exact ⟨h.nested, fun _ => h.line hstart, h.opened, h.outside, h.eof⟩
  | enter hstart hread henter =>
      exact h.append_layout (h.line hstart) (hclosed (houtside hstart)) henter rfl rfl
  | blank hstart | join hstart =>
      rw [List.append_nil]
      exact ⟨h.nested, fun hline => absurd (hstart.symm.trans hline) Bool.false_ne_true, h.opened, h.outside, h.eof⟩
  | feed _ _ _ hzero => exact h.append_newline (hclosed hzero) rfl
  | token hstart _ hread => exact h.append_lexeme (Item.form_of_read hread).isLayout rfl hstart

theorem moves (h : Moves (start file source) text tokens lx) : Orderly lx tokens := by
  induction h with
  | refl => exact orderly_start file source
  | snoc hmoves hmove ih => exact ih.move (Covering.moves hmoves).depth (Obeying.moves hmoves).depth hmove

end Orderly

end Lexer

/-! ## Parentheses -/

/-- Inside a parenthesis that is not closed yet, the depth counts the parentheses. -/
theorem depthBehind_inside {ks : List Kind} (depth : Nat)
    (h : ∀ front, front <+: ks → front.count (.sym .rightParen) ≤ front.count (.sym .leftParen)) :
    depthBehind (depth + 1) ks + ks.count (.sym .rightParen) = depth + 1 + ks.count (.sym .leftParen) := by
  -- at the end of the list, since the assumption is about what stands in front
  induction ks using List.reverseRecOn with
  | nil => rfl
  | append_singleton ks k ih =>
      have hks := ih fun front hfront => h front (hfront.trans (List.prefix_append ks [k]))
      have hfront := h ks (List.prefix_append ks [k])
      rw [depthBehind_append, List.count_append, List.count_append]
      show openAfter _ k + _ = _
      by_cases hleft : k = .sym .leftParen
      · rw [hleft]
        simp [openAfter]
        omega
      by_cases hright : k = .sym .rightParen
      · rw [hright]
        simp [openAfter]
        omega
      · rw [openAfter_other hleft hright, List.count_singleton, List.count_singleton, beq_false_of_ne hleft,
          beq_false_of_ne hright]
        exact hks

/-! ## The whole source -/

namespace Lexer

variable {file : String} {source text : List Char} {tokens : List Token} {lx : Lexer}

/-- Closing a text brings no opened level and no parenthesis. -/
theorem mem_close {t : Token} (h : t ∈ lx.close) : t.kind = .newline ∨ t.kind = .dedent ∨ t.kind = .eof := by
  rw [close_eq_map] at h
  obtain ⟨k, hk, rfl⟩ := List.mem_map.mp h
  unfold closing at hk
  rcases List.mem_append.mp hk with hk | hk
  · rcases List.mem_append.mp hk with hk | hk
    · split at hk
      · exact Or.inl (List.mem_singleton.mp hk)
      · exact absurd hk List.not_mem_nil
    · obtain ⟨_, _, rfl⟩ := List.mem_map.mp hk
      exact Or.inr (Or.inl rfl)
  · exact Or.inr (Or.inr (List.mem_singleton.mp hk))

theorem Orderly.closed (h : Orderly lx tokens) : Nested ((tokens ++ lx.close).map Token.kind) 0 := by
  rw [List.map_append, close_eq_map, map_kind_marks, closing, List.map_const', ← List.append_assoc, ← List.append_assoc]
  have hline : ∀ k ∈ (if lx.lineOpen then [Kind.newline] else []), k.isLevel = false := by
    intro k hk
    split at hk
    · rw [List.mem_singleton.mp hk]
      rfl
    · exact absurd hk List.not_mem_nil
  refine (Nested.append_dedents (h.nested.append_others hline)).append_others fun k hk => ?_
  rw [List.mem_singleton.mp hk]
  rfl

/-- Behind a parenthesis there is no layout as long as it is not closed: the depth is positive there. -/
theorem Orderly.enclosed {front inside back : List Token} {opening : Token} (h : Orderly lx tokens)
    (hcount : Countable tokens) (heq : tokens = front ++ opening :: (inside ++ back))
    (hopening : opening.kind = .sym .leftParen)
    (hopen : ∀ ks, ks <+: inside.map Token.kind → ks.count (.sym .rightParen) ≤ ks.count (.sym .leftParen)) :
    ∀ t ∈ inside, t.kind.isLayout = false := by
  intro t ht
  obtain ⟨before, after, rfl⟩ := List.append_of_mem ht
  rw [Bool.eq_false_iff]
  intro hlayout
  have hopen' : ∀ ks, ks <+: before.map Token.kind → ks.count (.sym .rightParen) ≤ ks.count (.sym .leftParen) := by
    intro ks hks
    refine hopen ks (hks.trans ?_)
    rw [List.map_append]
    exact List.prefix_append ..
  have hsplit : tokens = (front ++ opening :: before) ++ t :: (after ++ back) := by rw [heq]; simp
  have hdepth := h.outside _ t _ hsplit hlayout (hsplit ▸ hcount).of_append
  rw [List.map_append, depthBehind_append, List.map_cons, hopening] at hdepth
  have hdepth : depthBehind (depthBehind 0 (front.map Token.kind) + 1) (before.map Token.kind) = 0 := hdepth
  have hinside := depthBehind_inside (depthBehind 0 (front.map Token.kind)) hopen'
  have hbalance := hopen' _ (List.prefix_refl _)
  omega

end Lexer

end Offside.Token
