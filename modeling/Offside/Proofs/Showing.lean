import Mathlib
import Offside.Proofs.Outcome

/-!
# `Proofs.Showing` — tokens that are shown are read back

A token is shown by its text (`Kind.text`), in messages above all. Layout is shown by names, and a string by what it stands
for, without escapes; every other token is shown as it is written (`Kind.text_eq_spelling`). So the text of a token that is
no layout, and no string with a quotation mark, a backslash or a line feed, is read back as the token (`read_text`), in
front of any text that is parted from it.

A line of such tokens is read back as its tokens, whatever its parentheses are (`Lexer.scan_shownTail`), and what closes a
text is added to them (`shown_tokens_read_back`).
-/

namespace Offside.Token

variable {k : Kind} {rest : List Char}

/-- **The token is shown so that it can be read**: it is no layout, a number has at most 64 bits, an identifier is a word
    that is no keyword, and no character of a string needs a backslash. -/
def Kind.isLegible : Kind → Bool
  | .int n => n < 2 ^ 64
  | .str s => s.toList.all fun c => c != '\x22' && c != '\\' && c != '\n'
  | .ident name => isIdentifier name
  | .kw _ | .sym _ => true
  | .newline | .indent | .dedent | .eof => false

/-! ## One token -/

/-- A string without escapes is read up to its closing quote. -/
theorem readString?_plain {value : List Char} (h : ∀ c ∈ value, c ≠ '\x22' ∧ c ≠ '\\' ∧ c ≠ '\n') :
    readString? '\x22' (value ++ '\x22' :: rest) = some (value, value ++ ['\x22'], rest) := by
  induction value with
  | nil =>
      rw [List.nil_append, readString?.eq_def]
      rfl
  | cons c value ih =>
      obtain ⟨hquote, hslash, hfeed⟩ := h c List.mem_cons_self
      rw [List.cons_append, readString?.eq_def]
      simp [hquote, hslash, hfeed, ih fun d hd => h d (List.mem_cons_of_mem c hd)]

theorem read_shown_string {s : String} (h : (Kind.str s).isLegible = true) :
    Item.read '\x22' (s.toList ++ '\x22' :: rest) = .ok ⟨.token (.str s), '\x22' :: (s.toList ++ ['\x22']), rest⟩ := by
  have hplain : ∀ c ∈ s.toList, c ≠ '\x22' ∧ c ≠ '\\' ∧ c ≠ '\n' := by
    simpa [Kind.isLegible, and_assoc] using h
  rw [Item.read]
  simp only [readString?_plain hplain, String.ofList_toList]
  rfl

/-- All but strings are shown as they are written. -/
theorem Kind.text_eq_spelling (h : k.isLegible = true) (hstring : ∀ s, k ≠ .str s) :
    k.text.toList = k.spelling ∧ k.isSpelled = true := by
  cases k with
  | int n =>
      refine ⟨?_, h⟩
      rw [text, Nat.toString_eq_ofList_toDigits, String.toList_ofList]
      rfl
  | str s => exact absurd rfl (hstring s)
  | ident name => exact ⟨rfl, h⟩
  | kw word => exact ⟨String.toList_ofList, rfl⟩
  | sym symbol => exact ⟨String.toList_ofList, rfl⟩
  | newline | indent | dedent | eof => exact absurd h Bool.false_ne_true

/-- **A token that is shown is read back** in front of any text that is parted from it. -/
theorem read_text (h : k.isLegible = true) (hrest : Parted rest) :
    ∃ x xs, k.text.toList = x :: xs ∧ Item.read x (xs ++ rest) = .ok ⟨.token k, k.text.toList, rest⟩ := by
  by_cases hstring : ∃ s, k = .str s
  · obtain ⟨s, rfl⟩ := hstring
    have htext : (Kind.str s).text.toList = '\x22' :: (s.toList ++ ['\x22']) := by
      simp only [Kind.text, String.toList_append]
      rfl
    refine ⟨'\x22', s.toList ++ ['\x22'], htext, ?_⟩
    rw [htext, List.append_assoc]
    exact read_shown_string h
  · obtain ⟨htext, hspelled⟩ := Kind.text_eq_spelling h fun s hs => hstring ⟨s, hs⟩
    -- the spelling is known to be read in front of a space, and what parts it from the rest does not matter
    obtain ⟨x, xs, hspelling, hread⟩ := read_spelling hspelled (Or.inl rfl : Parts ' ') []
    obtain ⟨tail, hused, hagain⟩ := (Item.form_of_read hread).token_again (Or.inr hrest)
    obtain rfl : xs = tail := (List.cons.inj (hspelling.symm.trans hused)).2
    exact ⟨x, xs, htext.trans hspelling, by rw [htext]; exact hagain⟩

/-! ## Lines -/

/-- Tokens behind another one as they are shown, each after a space. -/
def shownTail : List Kind → List Char
  | [] => []
  | k :: ks => ' ' :: k.text.toList ++ shownTail ks

theorem toList_shown (k : Kind) (ks : List Kind) :
    (String.intercalate " " ((k :: ks).map Kind.text)).toList = k.text.toList ++ shownTail ks := by
  induction ks generalizing k with
  | nil => rw [List.map_singleton, String.intercalate_singleton, shownTail, List.append_nil]
  | cons k' ks ih =>
      rw [List.map_cons, List.map_cons, String.intercalate_cons_cons, String.toList_append, String.toList_append,
        ← List.map_cons, ih, shownTail, List.append_assoc]
      rfl

theorem parted_shownTail (ks : List Kind) : Parted (shownTail ks) := by
  cases ks with
  | nil => rintro d ⟨⟩
  | cons k ks =>
      rintro d ⟨⟩
      exact mem_partings rfl

namespace Lexer

variable {lx : Lexer} {ks : List Kind} {x : Char} {xs used : List Char}

/-- Inside a line, a token is taken off the text. -/
theorem scan_token (hstart : lx.lineStart = false) (hread : Item.read x xs = .ok ⟨.token k, used, rest⟩) :
    lx.scan (x :: xs) = prepend [k] (({ lx with depth := depthAfter lx.depth k, lineOpen := true } : Lexer).scan rest) := by
  have hmove : Move { lx with rest := x :: xs } used [⟨k, ⟨lx.pos, lx.pos.across used⟩⟩]
      { lx with
        pos := lx.pos.across used, rest := rest, depth := depthAfter lx.depth k, lineOpen := true } :=
    .token hstart rfl hread
  rw [← scan_advance { lx with depth := depthAfter lx.depth k, lineOpen := true } used rest rest]
  exact hmove.outcome

theorem scan_space (hstart : lx.lineStart = false) : lx.scan (' ' :: rest) = lx.scan rest :=
  scan_blank hstart (Item.read_blank rfl)

/-- Behind the last token of a line the text is closed. -/
theorem scan_nil (hopen : lx.lineOpen = true) :
    lx.scan [] = .ok (.newline :: lx.levels.map (fun _ => .dedent) ++ [.eof]) := by
  have hend : lx.scan [] = .ok (closing { lx with rest := [] }) := outcome_of_end rfl
  rw [hend, closing, hopen]
  rfl

/-- **Tokens that are shown behind another one are read back**, and the text is closed behind them. -/
theorem scan_shownTail (hks : ∀ k ∈ ks, k.isLegible = true) (hstart : lx.lineStart = false) (hopen : lx.lineOpen = true) :
    lx.scan (shownTail ks) = .ok (ks ++ (.newline :: lx.levels.map (fun _ => .dedent) ++ [.eof])) := by
  induction ks generalizing lx with
  | nil => exact scan_nil hopen
  | cons k ks ih =>
      obtain ⟨x, xs, htext, hread⟩ := read_text (hks k List.mem_cons_self) (parted_shownTail ks)
      rw [shownTail, htext, List.cons_append, scan_space hstart, List.cons_append, scan_token hstart hread,
        ih fun d hd => hks d (List.mem_cons_of_mem k hd)]
      · rfl
      · exact hstart
      · rfl

/-- The lexer in the first line of a file. -/
def inside (file : String) : Lexer := { start file [] with lineStart := false }

/-- A text that starts with no blank, no comment and no line feed is read inside its first line. -/
theorem outcome_tokenize (file : String) (hblank : isBlank x = false) (hhash : x ≠ '#') (hfeed : x ≠ '\n') :
    outcome (tokenize file (String.ofList (x :: xs))) = (inside file).scan (x :: xs) := by
  have hform : LineStart.Form ([] ++ x :: xs) (.filled [] (x :: xs)) := .filled (by simp) hblank hhash hfeed
  have henter : (start file (x :: xs)).enterLine [] (x :: xs) = .ok ([], { inside file with rest := x :: xs }) := rfl
  rw [tokenize, String.toList_ofList, outcome_of_enter rfl hform.read_eq henter rfl rfl]
  exact prepend_nil _

end Lexer

/-- **Tokens that are shown are read back.** The texts of tokens, joined by spaces, are read as the tokens, behind which
    stand the end of the line and the end of the file. -/
theorem shown_tokens_read_back (file : String) (ks : List Kind) (hne : ks ≠ []) (hks : ∀ k ∈ ks, k.isLegible = true) :
    outcome (tokenize file (String.intercalate " " (ks.map Kind.text))) = .ok (ks ++ [.newline, .eof]) := by
  obtain ⟨k, ks, rfl⟩ := List.exists_cons_of_ne_nil hne
  obtain ⟨x, xs, htext, hread⟩ := read_text (hks k List.mem_cons_self) (parted_shownTail ks)
  obtain ⟨hblank, hhash, -, hfeed⟩ := (Item.form_of_read hread).token_head
  have hline := toList_shown k ks
  rw [htext, List.cons_append] at hline
  rw [← String.ofList_toList (s := String.intercalate " " ((k :: ks).map Kind.text)), hline,
    Lexer.outcome_tokenize file hblank hhash hfeed, Lexer.scan_token rfl hread,
    Lexer.scan_shownTail (fun d hd => hks d (List.mem_cons_of_mem k hd)) rfl rfl]
  rfl

/-- Parentheses that do not match, symbols that start with each other, the largest number, a name that starts with a
    keyword, and a string with a quote, a tab and a comment in it. -/
def sampleKinds : List Kind :=
  [.sym .rightParen, .sym .leftParen, .sym .less, .sym .lessEqual, .sym .leftShift, .sym .leftShiftEqual,
    .int 18446744073709551615, .ident "iffy", .kw .if_, .str "it's\t# 1", .sym .leftParen]

theorem shown_tokens_read_back_sampleKinds : sampleKinds ≠ [] ∧ (∀ k ∈ sampleKinds, k.isLegible = true) ∧
    outcome (tokenize "f" (String.intercalate " " (sampleKinds.map Kind.text))) = .ok (sampleKinds ++ [.newline, .eof]) :=
  ⟨by decide, by decide, shown_tokens_read_back "f" sampleKinds (by decide) (by decide)⟩

end Offside.Token
