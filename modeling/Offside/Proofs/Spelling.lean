import Mathlib.Algebra.Group.Nat.Defs
import Mathlib.Data.List.Basic
import Offside.Machine.Line
import Offside.Token.Lexer

/-!
# `Proofs.Spelling` — tokens that are written out are read back

A token has a spelling (`Kind.spelling`), and a line of tokens is written with a space between any two of
them (`lineText`). The lexer reads a spelling back as the token it came from (`read_spelling`), so it reads
a line back as its tokens (`Lexer.Inside.line`), and lines one below the other with the layout tokens that the
off-side rule asks for (`tokenize_rows`).
-/

namespace Offside.Token

open Machine (Directive)

/-! ## Spellings -/

/-- The text is a name: a word that is no keyword. -/
def isIdentifier (name : String) : Bool :=
  match name.toList with
  | [] => false
  | c :: cs => startsWord c && cs.all continuesWord && (Keyword.ofWord? (c :: cs)).isNone

namespace Kind

/-- How a token is written. Layout is written by line feeds and indentation, not by tokens. -/
def spelling : Kind → List Char
  | .int n => Nat.toDigits 10 n
  | .str s => '\x22' :: (Directive.escape s).toList ++ ['\x22']
  | .ident name => name.toList
  | .kw word => word.chars
  | .sym symbol => symbol.chars
  | .newline | .indent | .dedent | .eof => []

/-- The token can be written so that it can be read. -/
def isSpelled : Kind → Bool
  | .int n => n < magnitudeLimit
  | .ident name => isIdentifier name
  | .str _ | .kw _ | .sym _ => true
  | .newline | .indent | .dedent | .eof => false

end Kind

/-- Tokens are parted by a space, and lines by a line feed. -/
def Parts (c : Char) : Prop := c = ' ' ∨ c = '\n'

section Characters

variable {c x : Char} {xs rest : List Char}

theorem startsWord_head (h : startsWord x = true) :
    isBlank x = false ∧ x ≠ '#' ∧ x ≠ '\\' ∧ x ≠ '\n' := by
  refine ⟨?_, ?_, ?_, ?_⟩
  · rw [Bool.eq_false_iff]
    intro hblank
    simp only [isBlank, Bool.or_eq_true, beq_iff_eq] at hblank
    rcases hblank with ((rfl | rfl) | rfl) | rfl <;> exact absurd h (by decide)
  · rintro rfl; exact absurd h (by decide)
  · rintro rfl; exact absurd h (by decide)
  · rintro rfl; exact absurd h (by decide)

theorem digit_mem (h : x.isDigit = true) : x ∈ "0123456789".toList := by
  have hrange : 48 ≤ x.toNat ∧ x.toNat ≤ 57 := by
    simp only [Char.isDigit, ge_iff_le, Bool.and_eq_true, decide_eq_true_eq, UInt32.le_iff_toNat_le] at h
    exact h
  rw [← Char.ofNat_toNat x]
  generalize x.toNat = n at hrange
  obtain ⟨k, rfl⟩ := Nat.exists_eq_add_of_le hrange.1
  have hk : k < 10 := by omega
  exact (by decide : ∀ k < 10, Char.ofNat (48 + k) ∈ "0123456789".toList) k hk

/-- A digit starts a number and nothing else. -/
theorem digit_head (h : x.isDigit = true) :
    isBlank x = false ∧ x ≠ '#' ∧ x ≠ '\\' ∧ x ≠ '\n' ∧ startsWord x = false := by
  have hall : ("0123456789".toList.all fun d =>
      isBlank d == false && d != '#' && d != '\\' && d != '\n' && startsWord d == false) = true := by decide
  simpa [and_assoc] using List.all_eq_true.mp hall x (digit_mem h)

/-- The value of a decimal digit, and no mark of a radix. -/
theorem digit_value (h : x.isDigit = true) :
    digit? 10 x = some (x.toNat - '0'.toNat) ∧ radixMark? x = none := by
  have hall : ("0123456789".toList.all fun d =>
      digit? 10 d == some (d.toNat - '0'.toNat) && radixMark? d == none) = true := by decide
  simpa using List.all_eq_true.mp hall x (digit_mem h)

/-- Where tokens are parted, words and numbers end. -/
theorem Parts.ends (h : Parts c) : continuesWord c = false ∧ continuesNumber 10 c = false ∧
    Text.isAlphanumeric c = false ∧ radixMark? c = none := by
  rcases h with rfl | rfl <;> decide

end Characters

/-! ## Reading spellings -/

section Reading

variable {c x : Char} {xs rest : List Char}

theorem takeWhile_parts {p : Char → Bool} (rest : List Char) (hxs : ∀ d ∈ xs, p d = true) (hc : p c = false) :
    (xs ++ c :: rest).takeWhile p = xs ∧ (xs ++ c :: rest).dropWhile p = c :: rest := by
  constructor
  · rw [List.takeWhile_append_of_pos hxs, List.takeWhile_cons_of_neg (by simp [hc]), List.append_nil]
  · rw [List.dropWhile_append_of_pos hxs, List.dropWhile_cons_of_neg (by simp [hc])]

/-- A word is read up to where it is parted from what follows. -/
theorem read_word (hx : startsWord x = true) (hxs : ∀ d ∈ xs, continuesWord d = true) (hc : Parts c) :
    Item.read x (xs ++ c :: rest) = .ok ⟨.token (wordKind (x :: xs)), x :: xs, c :: rest⟩ := by
  obtain ⟨hblank, hhash, hslash, hfeed⟩ := startsWord_head hx
  obtain ⟨htake, hdrop⟩ := takeWhile_parts rest hxs hc.ends.1
  simp [Item.read, hblank, hhash, hslash, hfeed, hx, htake, hdrop]

theorem ofDigits_toDigits (n : Nat) :
    ofDigits 10 ((Nat.toDigits 10 n).filterMap (digit? 10)) = n := by
  have hvalues : ∀ l : List Char, (∀ d ∈ l, d.isDigit = true) → ∀ m,
      (l.filterMap (digit? 10)).foldl (fun n d => n * 10 + d) m = Nat.ofDigitChars 10 l m := by
    intro l hl
    induction l with
    | nil => intro m; rfl
    | cons d l ih =>
        intro m
        have hd := (digit_value (hl d List.mem_cons_self)).1
        rw [List.filterMap_cons_some hd, List.foldl_cons, ih fun d' hd' => hl d' (List.mem_cons_of_mem d hd'),
          Nat.ofDigitChars_cons, Nat.mul_comm]
  have hdigits : ∀ d ∈ Nat.toDigits 10 n, d.isDigit = true :=
    fun d hd => Nat.isDigit_of_mem_toDigits (by decide) (by decide) hd
  rw [ofDigits, hvalues _ hdigits 0, Nat.ofDigitChars_ten_toDigits]

theorem splitRadix_digits (hxs : ∀ d ∈ x :: xs, d.isDigit = true) (hc : Parts c) :
    splitRadix (x :: (xs ++ c :: rest)) = (10, [], x :: (xs ++ c :: rest)) := by
  have hmark : ∀ m tail, xs ++ c :: rest = m :: tail → radixMark? m = none := by
    intro m tail h
    cases xs with
    | nil =>
        obtain ⟨rfl, _⟩ := List.cons.inj h
        exact hc.ends.2.2.2
    | cons d xs =>
        obtain ⟨rfl, _⟩ := List.cons.inj h
        exact (digit_value (hxs d (by simp))).2
  cases hrest : xs ++ c :: rest with
  | nil => exact absurd hrest (by simp)
  | cons m tail =>
      have hnone : (if x = '0' then radixMark? m else none) = none := by
        split
        · exact hmark m tail hrest
        · rfl
      simp only [splitRadix, hnone]

/-- A number is read up to where it is parted from what follows. -/
theorem read_number {n : Nat} (hn : n < magnitudeLimit) (hx : Nat.toDigits 10 n = x :: xs) (hc : Parts c) :
    Item.read x (xs ++ c :: rest) = .ok ⟨.token (.int n), x :: xs, c :: rest⟩ := by
  have hdigits : ∀ d ∈ x :: xs, d.isDigit = true :=
    fun d hd => Nat.isDigit_of_mem_toDigits (b := 10) (n := n) (by decide) (by decide) (hx ▸ hd)
  obtain ⟨hblank, hhash, hslash, hfeed, hword⟩ := digit_head (hdigits x List.mem_cons_self)
  have hcontinues : ∀ d ∈ x :: xs, continuesNumber 10 d = true := by
    intro d hd
    rw [continuesNumber, (digit_value (hdigits d hd)).1]
    rfl
  obtain ⟨htake, hdrop⟩ := takeWhile_parts rest hcontinues hc.ends.2.1
  rw [List.cons_append] at htake hdrop
  have hvalue : ofDigits 10 ((x :: xs).filterMap (digit? 10)) = n := by rw [← hx]; exact ofDigits_toDigits n
  have hne : (x :: xs).filterMap (digit? 10) ≠ [] := by
    rw [List.filterMap_cons_some (digit_value (hdigits x List.mem_cons_self)).1]
    simp
  have hread : readNumber (x :: (xs ++ c :: rest)) = .ok ⟨.token (.int n), x :: xs, c :: rest⟩ := by
    unfold readNumber
    rw [splitRadix_digits hdigits hc]
    simp only [htake, hdrop, List.head?_cons, Option.filter_some, hc.ends.2.2.1, Bool.false_eq_true, if_false]
    rw [hvalue, if_pos hn]
    rfl
  simp [Item.read, hblank, hhash, hslash, hfeed, hword, hdigits x List.mem_cons_self, hread]

/-- A character of a string is written as it is, or behind a backslash. -/
theorem escapeChar_eq (d : Char) : (∃ e, Directive.escapeChar d = ['\\', e] ∧ unescape e = d) ∨
    (Directive.escapeChar d = [d] ∧ d ≠ '\n' ∧ d ≠ '\x22' ∧ d ≠ '\\') := by
  unfold Directive.escapeChar
  split
  · next h => exact Or.inl ⟨'n', rfl, h.symm⟩
  split
  · next h => exact Or.inl ⟨'t', rfl, h.symm⟩
  split
  · next h => exact Or.inl ⟨'\x22', rfl, h.symm⟩
  split
  · next h => exact Or.inl ⟨'\\', rfl, h.symm⟩
  · next hfeed _ hquote hslash => exact Or.inr ⟨rfl, hfeed, hquote, hslash⟩

/-- A string is read back from its escaped characters, up to the closing quote. -/
theorem readString?_escape (value : List Char) :
    readString? '\x22' (value.flatMap Directive.escapeChar ++ '\x22' :: rest) =
      some (value, value.flatMap Directive.escapeChar ++ ['\x22'], rest) := by
  induction value with
  | nil => rw [List.flatMap_nil, List.nil_append, readString?.eq_def]; rfl
  | cons d value ih =>
      rw [List.flatMap_cons, List.append_assoc]
      rcases escapeChar_eq d with ⟨e, he, hd⟩ | ⟨he, hfeed, hquote, hslash⟩
      · rw [he, List.cons_append, List.cons_append, List.nil_append, readString?.eq_def]
        simp [ih, hd]
      · rw [he, List.cons_append, List.nil_append, readString?.eq_def]
        simp [ih, hfeed, hquote, hslash]

theorem read_string (s : String) : Item.read '\x22' ((Directive.escape s).toList ++ ['\x22'] ++ c :: rest) =
    .ok ⟨.token (.str s), '\x22' :: (Directive.escape s).toList ++ ['\x22'], c :: rest⟩ := by
  have hread : readString? '\x22' ((Directive.escape s).toList ++ ['\x22'] ++ c :: rest) =
      some (s.toList, (Directive.escape s).toList ++ ['\x22'], c :: rest) := by
    rw [Directive.escape, String.toList_ofList, List.append_assoc]
    exact readString?_escape s.toList
  rw [Item.read]
  simp only [hread, String.ofList_toList]
  rfl

theorem read_symbol (s : Symbol) (hc : Parts c) : ∃ x xs, s.chars = x :: xs ∧
    Item.read x (xs ++ c :: rest) = .ok ⟨.token (.sym s), s.chars, c :: rest⟩ := by
  rcases hc with rfl | rfl <;> cases s <;> exact ⟨_, _, rfl, rfl⟩

theorem read_keyword (k : Keyword) (hc : Parts c) : ∃ x xs, k.chars = x :: xs ∧
    Item.read x (xs ++ c :: rest) = .ok ⟨.token (.kw k), k.chars, c :: rest⟩ := by
  cases k <;> exact ⟨_, _, rfl, read_word (by decide) (List.all_eq_true.mp (by decide)) hc⟩

/-- **A spelling is read back** as the token it came from. -/
theorem read_spelling {k : Kind} (hk : k.isSpelled = true) (hc : Parts c) (rest : List Char) :
    ∃ x xs, k.spelling = x :: xs ∧ Item.read x (xs ++ c :: rest) = .ok ⟨.token k, k.spelling, c :: rest⟩ := by
  cases k with
  | int n =>
      obtain ⟨x, xs, hx⟩ := List.exists_cons_of_ne_nil (Nat.toDigits_ne_nil (n := n) (b := 10))
      refine ⟨x, xs, hx, ?_⟩
      rw [Kind.spelling, hx]
      exact read_number (by simpa [Kind.isSpelled] using hk) hx hc
  | str s => exact ⟨_, _, rfl, read_string s⟩
  | ident name =>
      rw [Kind.isSpelled, isIdentifier] at hk
      cases hname : name.toList with
      | nil => rw [hname] at hk; exact absurd hk Bool.false_ne_true
      | cons x xs =>
          rw [hname] at hk
          simp only [Bool.and_eq_true, List.all_eq_true, Option.isNone_iff_eq_none] at hk
          obtain ⟨⟨hx, hxs⟩, hkeyword⟩ := hk
          have hkind : wordKind (x :: xs) = .ident name := by
            rw [wordKind, hkeyword, ← hname, String.ofList_toList]
          refine ⟨x, xs, hname, ?_⟩
          rw [Kind.spelling, hname, ← hkind]
          exact read_word hx hxs hc
  | kw word => exact read_keyword word hc
  | sym symbol => exact read_symbol symbol hc
  | newline | indent | dedent | eof => exact absurd hk Bool.false_ne_true

end Reading

/-! ## Lines -/

/-- A line of tokens, with a space between any two of them. -/
def lineText : List Kind → List Char
  | [] => ['\n']
  | [k] => k.spelling ++ ['\n']
  | k :: ks => k.spelling ++ ' ' :: lineText ks

/-- A line: by how many spaces it is indented, and its tokens. -/
structure Row where
  width : Nat
  kinds : List Kind

/-- The text of a line. -/
def Row.text (r : Row) : List Char := List.replicate r.width ' ' ++ lineText r.kinds

/-- The number of parentheses that are open behind one more token. -/
def openAfter (depth : Nat) : Kind → Nat
  | .sym .leftParen => depth + 1
  | .sym .rightParen => depth - 1
  | _ => depth

/-- The number of parentheses that are open behind tokens. -/
def depthBehind (depth : Nat) (ks : List Kind) : Nat := ks.foldl openAfter depth

/-- Only parentheses change the number. -/
theorem openAfter_other {k : Kind} (hleft : k ≠ .sym .leftParen) (hright : k ≠ .sym .rightParen) (depth : Nat) :
    openAfter depth k = depth := by
  unfold openAfter
  split
  · exact absurd rfl hleft
  · exact absurd rfl hright
  · rfl

/-- The lexer counts open parentheses in 32 bits. -/
theorem toNat_depthAfter (depth : UInt32) (k : Kind) :
    (Lexer.depthAfter depth k).toNat = openAfter depth.toNat k % 2 ^ 32 := by
  have hlt := depth.toNat_lt
  unfold Lexer.depthAfter
  split
  · rw [UInt32.toNat_add]
    rfl
  · by_cases hzero : depth = 0
    · rw [if_pos hzero, hzero]
      rfl
    · have hpos : 1 ≤ depth := by
        rw [UInt32.le_iff_toNat_le]
        exact UInt32.lt_iff_toNat_lt.mp (UInt32.pos_iff_ne_zero.mpr hzero)
      have hsmall : depth.toNat - 1 < 2 ^ 32 := Nat.lt_of_le_of_lt (Nat.sub_le ..) hlt
      rw [if_neg hzero, UInt32.toNat_sub_of_le _ _ hpos]
      exact (Nat.mod_eq_of_lt hsmall).symm
  · next hleft hright => rw [openAfter_other hleft hright, Nat.mod_eq_of_lt hlt]

/-- So it never counts more than there are. -/
theorem toNat_depthAfter_le {depth : UInt32} {n : Nat} (h : depth.toNat ≤ n) (k : Kind) :
    (Lexer.depthAfter depth k).toNat ≤ openAfter n k := by
  refine Nat.le_trans (Nat.le_of_eq (toNat_depthAfter depth k)) (Nat.le_trans (Nat.mod_le ..) ?_)
  unfold openAfter
  split <;> omega

/-- The line can be written so that it can be read: it has tokens, and closes the parentheses that it opens. -/
structure Row.Spelled (r : Row) : Prop where
  ne_nil : r.kinds ≠ []
  kinds : ∀ k ∈ r.kinds, k.isSpelled = true
  closed : depthBehind 0 r.kinds = 0

/-- The tokens of lines one below the other, layout included, if their indentation fits. -/
def layout? : Levels → List Row → Option (List Kind)
  | levels, [] => some (levels.map (fun _ => .dedent) ++ [.eof])
  | levels, r :: rest =>
    match levels.enter? (.ofNat r.width) with
    | none => none
    | some (opening, levels) => (layout? levels rest).map (opening ++ r.kinds ++ .newline :: ·)

namespace Lexer

variable {lx next inside : Lexer} {ks : List Kind} {rest : List Char}

/-- The lexer reads tokens of the given kinds, and is then at another place. -/
def Reads (lx : Lexer) (ks : List Kind) (next : Lexer) : Prop :=
  ∀ out, next.run = .ok out → ∃ tokens, tokens.map Token.kind = ks ∧ lx.run = .ok (tokens ++ out)

theorem Reads.trans {ks' : List Kind} {last : Lexer} (h : lx.Reads ks next) (h' : next.Reads ks' last) :
    lx.Reads (ks ++ ks') last := by
  intro out hout
  obtain ⟨tokens', hkinds', hrun'⟩ := h' out hout
  obtain ⟨tokens, hkinds, hrun⟩ := h _ hrun'
  exact ⟨tokens ++ tokens', by rw [List.map_append, hkinds, hkinds'], by rw [hrun, List.append_assoc]⟩

theorem run_of_step {tokens out : List Token} (h : lx.step = .ok (some (tokens, next))) (hout : next.run = .ok out) :
    lx.run = .ok (tokens ++ out) := by
  rw [run]
  split
  · next e he => exact absurd (h.symm.trans he) (by simp)
  · next he => exact absurd (h.symm.trans he) (by simp)
  · next tokens' next' he =>
      obtain ⟨rfl, rfl⟩ : tokens = tokens' ∧ next = next' := by simpa using h.symm.trans he
      rw [hout]

theorem run_of_end (h : lx.step = .ok none) : lx.run = .ok lx.close := by
  rw [run]
  split
  · next e he => exact absurd (h.symm.trans he) (by simp)
  · rfl
  · next he => exact absurd (h.symm.trans he) (by simp)

theorem reads_step {tokens : List Token} (h : lx.step = .ok (some (tokens, next))) :
    lx.Reads (tokens.map Token.kind) next := fun _ hout => ⟨tokens, rfl, run_of_step h hout⟩

theorem step_inLine (h : lx.lineStart = false) : lx.step = lx.stepInLine := by
  unfold step
  rw [h]

/-- The lexer is inside a line, and counts at most `depth` open parentheses. -/
structure Inside (lx : Lexer) (rest : List Char) (levels : Levels) (depth : Nat) : Prop where
  rest : lx.rest = rest
  levels : lx.levels = levels
  depth : lx.depth.toNat ≤ depth
  lineStart : lx.lineStart = false

/-- The lexer is between two lines. -/
structure Between (lx : Lexer) (rest : List Char) (levels : Levels) : Prop where
  rest : lx.rest = rest
  levels : lx.levels = levels
  depth : lx.depth = 0
  lineStart : lx.lineStart = true
  lineOpen : lx.lineOpen = false

variable {levels levels' : Levels} {depth : Nat}

/-- A token is read up to what parts it from the next. -/
theorem Inside.token {k : Kind} {c : Char} (h : lx.Inside (k.spelling ++ c :: rest) levels depth)
    (hk : k.isSpelled = true) (hc : Parts c) :
    ∃ next, lx.Reads [k] next ∧ next.Inside (c :: rest) levels (openAfter depth k) := by
  obtain ⟨x, xs, hspelling, hread⟩ := read_spelling hk hc rest
  have hstep : lx.stepInLine = .ok (some ([⟨k, ⟨lx.pos, (lx.advance k.spelling (c :: rest)).pos⟩⟩],
      { lx.advance k.spelling (c :: rest) with depth := depthAfter lx.depth k, lineOpen := true })) := by
    have hrest : lx.rest = x :: (xs ++ c :: rest) := by rw [h.rest, hspelling]; rfl
    unfold stepInLine
    rw [hrest]
    simp only [hread]
  rw [← step_inLine h.lineStart] at hstep
  exact ⟨_, reads_step hstep, rfl, h.levels, toNat_depthAfter_le h.depth k, h.lineStart⟩

/-- A space is passed over. -/
theorem Inside.space (h : lx.Inside (' ' :: rest) levels depth) :
    ∃ next, lx.Reads [] next ∧ next.Inside rest levels depth := by
  have hstep : lx.stepInLine = .ok (some ([], lx.advance [' '] rest)) := by
    unfold stepInLine
    rw [h.rest]
    rfl
  rw [← step_inLine h.lineStart] at hstep
  exact ⟨_, reads_step hstep, rfl, h.levels, h.depth, h.lineStart⟩

/-- Outside parentheses a line feed ends the line. -/
theorem Inside.feed (h : lx.Inside ('\n' :: rest) levels 0) :
    ∃ next, lx.Reads [.newline] next ∧ next.Between rest levels := by
  have hdepth : lx.depth = 0 := UInt32.toNat_inj.mp (Nat.le_zero.mp h.depth)
  have hstep : lx.stepInLine = .ok (some ([⟨.newline, ⟨lx.pos, (lx.advance ['\n'] rest).pos⟩⟩],
      { lx.advance ['\n'] rest with lineStart := true, lineOpen := false })) := by
    have hread : Item.read '\n' rest = .ok ⟨.newline, ['\n'], rest⟩ := rfl
    unfold stepInLine
    rw [h.rest]
    simp only [hread, hdepth, UInt32.lt_irrefl, if_false]
  rw [← step_inLine h.lineStart] at hstep
  exact ⟨_, reads_step hstep, rfl, h.levels, hdepth, rfl, rfl⟩

/-- **A line is read back as its tokens.** -/
theorem Inside.line (hne : ks ≠ []) (hks : ∀ k ∈ ks, k.isSpelled = true) (hclosed : depthBehind depth ks = 0)
    (h : lx.Inside (lineText ks ++ rest) levels depth) :
    ∃ next, lx.Reads (ks ++ [.newline]) next ∧ next.Between rest levels := by
  induction ks generalizing lx depth with
  | nil => exact absurd rfl hne
  | cons k ks ih =>
      have hk := hks k List.mem_cons_self
      cases ks with
      | nil =>
          rw [lineText, List.append_assoc] at h
          obtain ⟨mid, hread, hmid⟩ := h.token hk (Or.inr rfl)
          rw [show openAfter depth k = 0 from hclosed] at hmid
          obtain ⟨next, hread', hnext⟩ := hmid.feed
          exact ⟨next, hread.trans hread', hnext⟩
      | cons k' ks =>
          rw [lineText, List.append_assoc] at h
          · obtain ⟨mid, hread, hmid⟩ := h.token hk (Or.inl rfl)
            obtain ⟨mid', hread', hmid'⟩ := hmid.space
            obtain ⟨next, hread'', hnext⟩ := ih (by simp) (fun d hd => hks d (List.mem_cons_of_mem k hd)) hclosed hmid'
            exact ⟨next, hread.trans (hread'.trans hread''), hnext⟩
          · simp

/-- The first character of a line is no blank, and opens no comment. -/
theorem exists_lineText_head (hne : ks ≠ []) (hks : ∀ k ∈ ks, k.isSpelled = true) :
    ∃ x xs, lineText ks = x :: xs ∧ isBlank x = false ∧ x ≠ '#' ∧ x ≠ '\n' := by
  have hhead : ∀ {k : Kind} {c : Char} {rest : List Char}, k.isSpelled = true → Parts c →
      ∃ x xs, k.spelling ++ c :: rest = x :: xs ∧ isBlank x = false ∧ x ≠ '#' ∧ x ≠ '\n' := by
    intro k c rest hk hc
    obtain ⟨x, xs, hspelling, hread⟩ := read_spelling hk hc rest
    refine ⟨x, xs ++ c :: rest, by rw [hspelling]; rfl, ?_, ?_, ?_⟩
    · rw [Bool.eq_false_iff]
      intro hblank
      simp [Item.read, hblank] at hread
    · rintro rfl
      simp [Item.read, isBlank] at hread
    · rintro rfl
      simp [Item.read, isBlank] at hread
  match ks with
  | [k] => exact hhead (hks k List.mem_cons_self) (Or.inr rfl)
  | k :: k' :: ks => exact hhead (hks k List.mem_cons_self) (Or.inl rfl)

theorem blankWidth_replicate (n : Nat) : blankWidth (List.replicate n ' ') = .ofNat n := by
  have hfold : ∀ width, (List.replicate n ' ').foldl widen width = width + .ofNat n := by
    induction n with
    | zero => intro width; exact (UInt32.add_zero width).symm
    | succ n ih =>
        intro width
        rw [List.replicate_succ, List.foldl_cons, ih, Nat.add_comm n, UInt32.ofNat_add, ← UInt32.add_assoc]
        rfl
  rw [blankWidth, hfold, UInt32.zero_add]

/-- There is an item in front of every text. -/
theorem stepInLine_ne_none {x : Char} {xs : List Char} (h : lx.rest = x :: xs) : lx.stepInLine ≠ .ok none := by
  unfold stepInLine
  rw [h]
  dsimp only
  cases Item.read x xs with
  | error m => simp
  | ok r =>
      dsimp only
      cases r.item with
      | blank => simp
      | newline => dsimp only; split <;> simp
      | token k => simp

/-- The indentation of a line is settled in one step with its first item. -/
theorem reads_enter {blanks : List Char} {layout : List Token} (hstart : lx.lineStart = true) (hne : lx.rest ≠ [])
    (hfilled : LineStart.read lx.rest = .filled blanks rest)
    (henter : lx.enterLine blanks rest = .ok (layout, inside)) (hinside : inside.lineStart = false)
    (hrest : inside.rest ≠ []) : lx.Reads (layout.map Token.kind) inside := by
  intro out hout
  refine ⟨layout, rfl, ?_⟩
  rw [run, step_inLine hinside] at hout
  split at hout
  · exact absurd hout (by simp)
  · next hnone =>
      obtain ⟨x, xs, hcons⟩ := List.exists_cons_of_ne_nil hrest
      exact absurd hnone (stepInLine_ne_none hcons)
  · next tokens next hsome =>
      have hstep : lx.step = .ok (some (layout ++ tokens, next)) := by
        obtain ⟨y, ys, hlx⟩ := List.exists_cons_of_ne_nil hne
        rw [hlx] at hfilled
        unfold step
        rw [hstart, hlx]
        simp only [hfilled, henter, hsome]
      cases hnext : next.run with
      | error e => rw [hnext] at hout; exact absurd hout (by simp)
      | ok more =>
          rw [hnext] at hout
          obtain rfl : tokens ++ more = out := by simpa using hout
          rw [run_of_step hstep hnext, List.append_assoc]

/-- The indentation of a line is settled before its tokens. -/
theorem Between.enter {opening : List Kind} {width : Nat} {x : Char} {xs : List Char}
    (h : lx.Between (List.replicate width ' ' ++ x :: xs) levels) (hblank : isBlank x = false) (hhash : x ≠ '#')
    (hfeed : x ≠ '\n') (henter : levels.enter? (.ofNat width) = some (opening, levels')) :
    ∃ inside, lx.Reads opening inside ∧ inside.Inside (x :: xs) levels' 0 := by
  have hblanks : ∀ d ∈ List.replicate width ' ', isBlank d = true := by
    intro d hd
    rw [List.eq_of_mem_replicate hd]
    rfl
  obtain ⟨htake, hdrop⟩ := takeWhile_parts xs hblanks hblank
  have hfilled : LineStart.read lx.rest = .filled (List.replicate width ' ') (x :: xs) := by
    rw [h.rest, LineStart.read, hdrop]
    simp [htake, hhash, hfeed]
  -- the width of blanks is their number in 32 bits, since none is a tab
  rw [← h.levels, ← blankWidth_replicate width] at henter
  obtain ⟨layout, inside, henterLine, hkinds, hinside⟩ : ∃ layout inside,
      lx.enterLine (List.replicate width ' ') (x :: xs) = .ok (layout, inside) ∧ layout.map Token.kind = opening ∧
        inside.Inside (x :: xs) levels' 0 := by
    unfold enterLine
    rw [henter]
    refine ⟨_, _, rfl, ?_, rfl, rfl, Nat.le_of_eq (congrArg UInt32.toNat h.depth), rfl⟩
    rw [List.map_map]
    exact List.map_id _
  refine ⟨inside, ?_, hinside⟩
  rw [← hkinds]
  refine reads_enter h.lineStart ?_ hfilled henterLine hinside.lineStart ?_
  · rw [h.rest]; simp
  · rw [hinside.rest]; simp

/-- **A line is read back with its layout.** -/
theorem Between.row {r : Row} {opening : List Kind} (h : lx.Between (r.text ++ rest) levels) (hr : r.Spelled)
    (henter : levels.enter? (.ofNat r.width) = some (opening, levels')) :
    ∃ next, lx.Reads (opening ++ r.kinds ++ [.newline]) next ∧ next.Between rest levels' := by
  obtain ⟨x, xs, htext, hblank, hhash, hfeed⟩ := exists_lineText_head hr.ne_nil hr.kinds
  rw [Row.text, List.append_assoc, htext, List.cons_append] at h
  obtain ⟨inside, hread, hinside⟩ := h.enter hblank hhash hfeed henter
  rw [← List.cons_append, ← htext] at hinside
  obtain ⟨next, hread', hnext⟩ := hinside.line hr.ne_nil hr.kinds hr.closed
  refine ⟨next, ?_, hnext⟩
  rw [List.append_assoc]
  exact hread.trans hread'

/-- **Lines are read back**, one below the other, with the layout that the off-side rule asks for. -/
theorem Between.run {rows : List Row} {out : List Kind} (h : lx.Between (rows.flatMap Row.text) levels)
    (hrows : ∀ r ∈ rows, r.Spelled) (hout : layout? levels rows = some out) :
    ∃ tokens, lx.run = .ok tokens ∧ tokens.map Token.kind = out := by
  induction rows generalizing lx levels out with
  | nil =>
      have hstep : lx.step = .ok none := by
        unfold step
        rw [h.lineStart, show lx.rest = [] from h.rest]
      refine ⟨_, run_of_end hstep, ?_⟩
      rw [← Option.some.inj hout, close, h.lineOpen, h.levels]
      simp
  | cons r rows ih =>
      rw [layout?] at hout
      cases henter : levels.enter? (.ofNat r.width) with
      | none => rw [henter] at hout; exact absurd hout (by simp)
      | some entered =>
          obtain ⟨opening, levels'⟩ := entered
          rw [henter] at hout
          obtain ⟨more, hmore, rfl⟩ := Option.map_eq_some_iff.mp hout
          rw [List.flatMap_cons] at h
          obtain ⟨next, hread, hnext⟩ := h.row (hrows r List.mem_cons_self) henter
          obtain ⟨tokens', hrun', hkinds'⟩ := ih hnext (fun q hq => hrows q (List.mem_cons_of_mem r hq)) hmore
          obtain ⟨tokens, hkinds, hrun⟩ := hread _ hrun'
          refine ⟨_, hrun, ?_⟩
          rw [List.map_append, hkinds, hkinds']
          simp

end Lexer

/-- **The tokens of a text** that is written line by line. -/
theorem tokenize_rows (file : String) {rows : List Row} {out : List Kind} (hrows : ∀ r ∈ rows, r.Spelled)
    (hout : layout? [] rows = some out) : ∃ tokens,
    tokenize file (String.ofList (rows.flatMap Row.text)) = .ok tokens ∧ tokens.map Token.kind = out := by
  have hstart : (Lexer.start file (rows.flatMap Row.text)).Between (rows.flatMap Row.text) [] :=
    ⟨rfl, rfl, rfl, rfl, rfl⟩
  rw [tokenize, String.toList_ofList]
  exact hstart.run hrows hout

end Offside.Token
