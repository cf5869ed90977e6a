import Offside.Text.Alphabet
import Offside.Token.Basic

/-!
# `Token.Item` — what stands at the front of the text

Inside a line the text is a sequence of items: blank stretches (spaces, comments, joined lines), line ends
and tokens. `Item.read` takes the first item off a non-empty text. It hands back the characters it used and
the characters it left, and these two make up the text (`Item.read_split`), so no character is lost or read
twice, and every item is at least one character long (`Item.read_used`).

A text that starts with no item is a `Misread`: its cause, and the part of the text that stands before the
place to blame.
-/

namespace Offside.Token

/-- Why a text is not made of tokens. -/
inductive Cause where
  | unmatchedIndent
  | invalidDigit (c : Char)
  | emptyInteger
  | integerTooLarge
  | unterminatedString
  | unexpectedCharacter (c : Char)
deriving DecidableEq

namespace Cause

/-- The text of a cause. -/
def message : Cause → String
  | .unmatchedIndent => "unindent does not match any outer indentation level"
  | .invalidDigit c => "invalid digit '" ++ c.toString ++ "' in integer literal"
  | .emptyInteger => "invalid integer literal: cannot parse integer from empty string"
  | .integerTooLarge => "invalid integer literal: number too large to fit in target type"
  | .unterminatedString => "unterminated string literal"
  | .unexpectedCharacter c => "unexpected character '" ++ c.toString ++ "'"

end Cause

/-- A cause, and the text that stands before the place it blames. -/
structure Misread where
  cause : Cause
  before : List Char
deriving DecidableEq

/-- A piece of a line. -/
inductive Item where
  | blank
  | newline
  | token (kind : Kind)
deriving DecidableEq

/-- An item taken off the front of a text: the characters it used, and those that it left. -/
structure Reading where
  item : Item
  used : List Char
  rest : List Char
deriving DecidableEq

/-! ## Character classes -/

/-- Space, tab, carriage return and form feed separate tokens and mean nothing else inside a line. -/
def isBlank (c : Char) : Bool := c == ' ' || c == '\t' || c == '\r' || c == '\x0c'

/-- Characters that start a word. -/
def startsWord (c : Char) : Bool := Text.isAlphabetic c || c == '_'

/-- Characters that go on with a word. -/
def continuesWord (c : Char) : Bool := Text.isAlphanumeric c || c == '_'

/-- Either quotation mark opens a string. -/
def isQuote (c : Char) : Bool := c == '\x22' || c == '\x27'

/-! ## Words, numbers, strings -/

/-- The kind of a word: a keyword if it spells one. -/
def wordKind (word : List Char) : Kind :=
  match Keyword.ofWord? word with
  | some k => .kw k
  | none => .ident (String.ofList word)

/-- The value of a digit in a radix of at most sixteen. -/
def digit? (radix : Nat) (c : Char) : Option Nat :=
  let value :=
    if '0' ≤ c ∧ c ≤ '9' then c.toNat - '0'.toNat
    else if 'a' ≤ c ∧ c ≤ 'f' then c.toNat - 'a'.toNat + 10
    else if 'A' ≤ c ∧ c ≤ 'F' then c.toNat - 'A'.toNat + 10
    else radix
  if value < radix then some value else none

/-- The number that a list of digits stands for, most significant digit first. -/
def ofDigits (radix : Nat) (digits : List Nat) : Nat := digits.foldl (fun n d => n * radix + d) 0

/-- The radix that a letter after a leading zero announces. -/
def radixMark? (c : Char) : Option Nat :=
  if c = 'x' ∨ c = 'X' then some 16
  else if c = 'o' ∨ c = 'O' then some 8
  else if c = 'b' ∨ c = 'B' then some 2
  else none

/-- The radix of a number, the mark that announces it, and what follows the mark. -/
def splitRadix : List Char → Nat × List Char × List Char
  | z :: m :: rest =>
    match if z = '0' then radixMark? m else none with
    | some radix => (radix, [z, m], rest)
    | none => (10, [], z :: m :: rest)
  | text => (10, [], text)

/-- Digits of the radix, and underscores to group them. -/
def continuesNumber (radix : Nat) (c : Char) : Bool := (digit? radix c).isSome || c == '_'

/-- Literals hold 64-bit magnitudes. -/
def magnitudeLimit : Nat := 1 <<< 64

/-- Reads a number. It runs to the first character that is neither a digit of its radix nor an underscore;
    that character must not be a letter or a number of any kind. -/
def readNumber (text : List Char) : Except Misread Reading :=
  let (radix, mark, body) := splitRadix text
  let run := body.takeWhile (continuesNumber radix)
  let rest := body.dropWhile (continuesNumber radix)
  match rest.head?.filter Text.isAlphanumeric with
  | some c => .error ⟨.invalidDigit c, mark ++ run⟩
  | none =>
    match run.filterMap (digit? radix) with
    | [] => .error ⟨.emptyInteger, []⟩
    | digits =>
      if ofDigits radix digits < magnitudeLimit then
        .ok ⟨.token (.int (ofDigits radix digits)), mark ++ run, rest⟩
      else .error ⟨.integerTooLarge, []⟩

/-- The character that a backslash and `c` stand for inside a string. -/
def unescape (c : Char) : Char :=
  if c = 'n' then '\n' else if c = 't' then '\t' else if c = '0' then '\x00' else c

/-- Reads a string up to its closing quote: its value, the characters used (the quote included), and the
    rest. A string ends on the line it starts on, unless a backslash stands before the line feed. -/
def readString? (quote : Char) : List Char → Option (List Char × List Char × List Char)
  | [] => none
  | c :: rest =>
    if c = '\n' then none
    else if c = quote then some ([], [c], rest)
    else if c = '\\' then
      match rest with
      | [] => none
      | e :: rest =>
        match readString? quote rest with
        | some (value, used, left) => some (unescape e :: value, c :: e :: used, left)
        | none => none
    else
      match readString? quote rest with
      | some (value, used, left) => some (c :: value, c :: used, left)
      | none => none

/-! ## Items -/

/-- Takes the first item off the text `c :: rest`. -/
def Item.read (c : Char) (rest : List Char) : Except Misread Reading :=
  if isBlank c then .ok ⟨.blank, [c], rest⟩
  else if c = '#' then
    .ok ⟨.blank, c :: rest.takeWhile (· != '\n'), rest.dropWhile (· != '\n')⟩
  else if c = '\\' ∧ rest.head? = some '\n' then .ok ⟨.blank, [c, '\n'], rest.tail⟩
  else if c = '\n' then .ok ⟨.newline, [c], rest⟩
  else if startsWord c then
    let word := c :: rest.takeWhile continuesWord
    .ok ⟨.token (wordKind word), word, rest.dropWhile continuesWord⟩
  else if c.isDigit then readNumber (c :: rest)
  else if isQuote c then
    match readString? c rest with
    | some (value, used, left) => .ok ⟨.token (.str (String.ofList value)), c :: used, left⟩
    | none => .error ⟨.unterminatedString, []⟩
  else
    match Symbol.read? (c :: rest) with
    | some s => .ok ⟨.token (.sym s), s.chars, (c :: rest).drop s.chars.length⟩
    | none => .error ⟨.unexpectedCharacter c, []⟩

/-! ## An item and its rest make up the text -/

theorem splitRadix_split (text : List Char) :
    (splitRadix text).2.1 ++ (splitRadix text).2.2 = text := by
  unfold splitRadix
  split
  · split <;> simp
  · simp

/-- What a number that was read consists of. -/
theorem readNumber_ok {text : List Char} {r : Reading} (h : readNumber text = .ok r) :
    ∃ radix mark body run, splitRadix text = (radix, mark, body)
      ∧ run = body.takeWhile (continuesNumber radix) ∧ run ≠ []
      ∧ r = ⟨.token (.int (ofDigits radix (run.filterMap (digit? radix)))), mark ++ run,
          body.dropWhile (continuesNumber radix)⟩ := by
  unfold readNumber at h
  generalize hsplit : splitRadix text = parts at h
  obtain ⟨radix, mark, body⟩ := parts
  refine ⟨radix, mark, body, _, rfl, rfl, ?_⟩
  simp only at h
  split at h
  · exact absurd h (by simp)
  · split at h
    · exact absurd h (by simp)
    · next hdigits =>
      split at h
      · cases h
        refine ⟨fun hnil => hdigits ?_, rfl⟩
        rw [hnil]; rfl
      · exact absurd h (by simp)

theorem readNumber_split {text : List Char} {r : Reading} (h : readNumber text = .ok r) :
    r.used ++ r.rest = text := by
  obtain ⟨radix, mark, body, run, hsplit, rfl, -, rfl⟩ := readNumber_ok h
  have hwhole := splitRadix_split text
  rw [hsplit] at hwhole
  simpa [List.takeWhile_append_dropWhile] using hwhole

theorem readNumber_used {text : List Char} {r : Reading} (h : readNumber text = .ok r) :
    r.used ≠ [] := by
  obtain ⟨radix, mark, body, run, -, -, hrun, rfl⟩ := readNumber_ok h
  simp [hrun]

theorem readString?_split {quote : Char} {text value used rest : List Char}
    (h : readString? quote text = some (value, used, rest)) : used ++ rest = text := by
  fun_induction readString? quote text generalizing value used rest with
  | case1 => simp at h
  | case2 => simp at h
  | case3 => grind
  | case4 => simp at h
  | case5 => grind
  | case6 => simp at h
  | case7 => grind
  | case8 => simp at h

/-- **Nothing is lost.** What an item used and what it left make up the text. -/
theorem Item.read_split {c : Char} {rest : List Char} {r : Reading} (h : Item.read c rest = .ok r) :
    r.used ++ r.rest = c :: rest := by
  unfold Item.read at h
  split at h
  · cases h; rfl
  split at h
  · cases h; simp [List.takeWhile_append_dropWhile]
  split at h
  · next hjoin =>
    cases h
    obtain ⟨_, hhead⟩ := hjoin
    cases rest with
    | nil => simp at hhead
    | cons d ds => simp_all
  split at h
  · cases h; rfl
  split at h
  · cases h; simp [List.takeWhile_append_dropWhile]
  split at h
  · exact readNumber_split h
  split at h
  · split at h
    · next hs => cases h; simp [readString?_split hs]
    · exact absurd h (by simp)
  · split at h
    · next s hs =>
      cases h
      have hp := List.isPrefixOf_iff_prefix.mp (Symbol.chars_isPrefixOf_of_read? hs)
      obtain ⟨t, ht⟩ := hp
      simp only [← ht, List.drop_left]
    · exact absurd h (by simp)

/-- **Every item makes progress.** -/
theorem Item.read_used {c : Char} {rest : List Char} {r : Reading} (h : Item.read c rest = .ok r) :
    r.used ≠ [] := by
  unfold Item.read at h
  split at h
  · cases h; simp
  split at h
  · cases h; simp
  split at h
  · cases h; simp
  split at h
  · cases h; simp
  split at h
  · cases h; simp
  split at h
  · exact readNumber_used h
  split at h
  · split at h
    · cases h; simp
    · exact absurd h (by simp)
  · split at h
    · next s _ => cases h; exact s.chars_ne_nil
    · exact absurd h (by simp)

/-- What an item leaves is shorter than the text. -/
theorem Item.read_shortens {c : Char} {rest : List Char} {r : Reading} (h : Item.read c rest = .ok r) :
    r.rest.length < (c :: rest).length := by
  have hsplit := congrArg List.length (Item.read_split h)
  have hused := List.length_pos_iff.mpr (Item.read_used h)
  rw [List.length_append] at hsplit
  omega

end Offside.Token
