import Mathlib
import Offside.Lower.Listing
import Offside.Proofs.Lookahead
import Offside.Proofs.Spelling

/-!
# `Proofs.ReadBack` — the text of a listing says everything

No two listings have the same text, as far as their names are proper names and their comments keep to their lines
(`Line.isProper`). The reason is that the text can be read back: `Listing.read?` cuts it at the line feeds, a line at the first
blank (`Line.read?`), and the operands of an instruction at the commas. The characters that it cuts at (`dividers`) stand in no
mnemonic, register, number or proper name (`isUnbroken`), so the pieces are those the text was put together from; a string may
hold all of them, and is read with its escapes (`Directive.read?_argument`).
-/

namespace Offside.Machine

open Token (takeWhile_ends readString? readString?_escape escapeChar_eq)

/-! ## Proper lines -/

/-- A name that an assembler takes: letters, digits, low lines and dots. -/
def isSymbol (name : String) : Bool :=
  name != "" && name.toList.all fun c => Text.isAlphanumeric c || c == '_' || c == '.'

/-- The labels that an instruction names. -/
def Instr.symbols : Instr → List String
  | .la _ label | .branch _ _ _ label | .beqz _ label | .jump label | .call label => [label]
  | .alu _ _ _ _ | .addi _ _ _ | .neg _ _ | .not _ _ | .ld _ _ _ | .sd _ _ _ | .li _ _ | .ret => []

/-- The sections and functions that a directive names. -/
def Directive.symbols : Directive → List String
  | .sect name | .globl name | .typeFunction name | .sizeFunction name => [name]
  | .text | .align _ | .string _ => []

/-- The names in a line are proper, and a comment ends with its line. Strings are arbitrary. -/
def Line.isProper : Line → Bool
  | .instr i => i.symbols.all isSymbol
  | .directive d => d.symbols.all isSymbol
  | .label name => isSymbol name
  | .comment text => !text.toList.contains '\n'

/-! ## Unbroken texts -/

/-- The characters that divide the text of a listing. -/
def dividers : List Char := ['\t', '\n', ' ', ',']

/-- No character of the text divides a listing. -/
def isUnbroken (s : String) : Bool := s.toList.all fun c => !dividers.contains c

theorem not_mem_of_isUnbroken {s : String} {c : Char} (h : isUnbroken s = true) (hc : dividers.contains c = true) :
    c ∉ s.toList := by
  intro hmem
  have hnot := List.all_eq_true.mp h c hmem
  rw [hc] at hnot
  cases hnot

/-- An unbroken text goes on up to any divider behind it. -/
theorem bne_of_isUnbroken {s : String} {c : Char} (h : isUnbroken s = true) (hc : dividers.contains c = true) :
    ∀ d ∈ s.toList, (d != c) = true := by
  intro d hd
  apply bne_iff_ne.mpr
  rintro rfl
  exact not_mem_of_isUnbroken h hc hd

@[simp] theorem isUnbroken_append (s t : String) : isUnbroken (s ++ t) = (isUnbroken s && isUnbroken t) := by
  rw [isUnbroken, String.toList_append, List.all_append]
  rfl

/-- Characters of a kind that dividers are not of make up an unbroken text. -/
theorem isUnbroken_of_forall {s : String} {p : Char → Bool} (hp : dividers.all (fun c => !p c) = true)
    (hs : ∀ c ∈ s.toList, p c = true) : isUnbroken s = true := by
  apply List.all_eq_true.mpr
  intro c hc
  rw [Bool.not_eq_true', List.contains_eq_mem, decide_eq_false_iff_not]
  intro hdivider
  have hnot := List.all_eq_true.mp hp c hdivider
  rw [hs c hc] at hnot
  cases hnot

theorem isUnbroken_of_isSymbol {name : String} (h : isSymbol name = true) : isUnbroken name = true :=
  isUnbroken_of_forall rfl (List.all_eq_true.mp (Bool.and_eq_true_iff.mp h).2)

@[simp] theorem isUnbroken_name (r : Register) : isUnbroken r.name = true := by cases r <;> rfl

/-- A number is written with digits, and a minus sign. -/
theorem mem_repr {n : Int} {c : Char} (hc : c ∈ n.repr.toList) : (c == '-' || c.isDigit) = true := by
  have hdigits : ∀ m : Nat, c ∈ m.repr.toList → c.isDigit = true := by
    intro m hm
    rw [Nat.repr_eq_ofList_toDigits, String.toList_ofList] at hm
    exact Nat.isDigit_of_mem_toDigits (by decide) (by decide) hm
  rw [Int.repr_eq_if] at hc
  rw [Bool.or_eq_true, beq_iff_eq]
  split at hc
  · exact Or.inr (hdigits _ hc)
  · rw [String.toList_append, List.mem_append] at hc
    exact hc.imp (fun h => List.mem_singleton.mp h) (hdigits _)

@[simp] theorem isUnbroken_repr (n : Int) : isUnbroken n.repr = true :=
  isUnbroken_of_forall rfl fun _ hc => mem_repr hc

@[simp] theorem isUnbroken_address (offset : Int) (base : Register) : isUnbroken (Instr.address offset base) = true := by
  simp only [Instr.address, Int.toString_eq_repr, isUnbroken_append, isUnbroken_repr, isUnbroken_name, Bool.true_and,
    Bool.and_true]
  rfl

/-- The operands of an instruction are unbroken. -/
theorem Instr.isUnbroken_operand {i : Instr} (hi : i.symbols.all isSymbol = true) :
    ∀ s ∈ i.operands, isUnbroken s = true := by
  have hsymbol : ∀ s ∈ i.symbols, isUnbroken s = true :=
    fun s hs => isUnbroken_of_isSymbol (List.all_eq_true.mp hi s hs)
  cases i <;> simp_all [operands, symbols]

/-! ## Instructions -/

/-- Every operation on two registers. -/
def AluOp.all : List AluOp := [.add, .sub, .mul, .div, .rem, .and, .or, .xor, .sll, .sra]

/-- The operation with a mnemonic. -/
def AluOp.ofMnemonic? (word : String) : Option AluOp := all.find? fun op => op.mnemonic == word

/-- Every comparison that a branch can test. -/
def BranchTest.all : List BranchTest := [.eq, .ne, .lt, .le, .gt, .ge]

/-- The comparison that the branch with a mnemonic tests. -/
def BranchTest.ofMnemonic? (word : String) : Option BranchTest := all.find? fun test => test.mnemonic == word

theorem Register.ofName?_name (r : Register) : ofName? r.name = some r := by cases r <;> decide

/-- The address that a text stands for. -/
def Instr.readAddress? (text : String) : Option (Int × Register) := do
  let offset ← (String.ofList (text.toList.takeWhile (· != '('))).toInt?
  let base ← Register.ofName? (String.ofList (text.toList.dropWhile (· != '(')).tail.dropLast)
  return (offset, base)

/-- The instruction that a mnemonic and operands stand for. -/
def Instr.read? : String → List String → Option Instr
  | "ret", [] => some .ret
  | "j", [label] => some (.jump label)
  | "call", [label] => some (.call label)
  | "beqz", [rs, label] => do return .beqz (← Register.ofName? rs) label
  | "la", [rd, label] => do return .la (← Register.ofName? rd) label
  | "li", [rd, imm] => do return .li (← Register.ofName? rd) (.ofInt 64 (← imm.toInt?))
  | "neg", [rd, rs] => do return .neg (← Register.ofName? rd) (← Register.ofName? rs)
  | "not", [rd, rs] => do return .not (← Register.ofName? rd) (← Register.ofName? rs)
  | "ld", [rd, address] => do
    let place ← readAddress? address
    return .ld (← Register.ofName? rd) place.1 place.2
  | "sd", [rs, address] => do
    let place ← readAddress? address
    return .sd (← Register.ofName? rs) place.1 place.2
  | "addi", [rd, rs, imm] => do return .addi (← Register.ofName? rd) (← Register.ofName? rs) (← imm.toInt?)
  | word, [first, second, third] =>
    match AluOp.ofMnemonic? word, BranchTest.ofMnemonic? word with
    | some op, _ => do
      return .alu op (← Register.ofName? first) (← Register.ofName? second) (← Register.ofName? third)
    | none, some test => do return .branch test (← Register.ofName? first) (← Register.ofName? second) third
    | none, none => none
  | _, _ => none

theorem Instr.readAddress?_address (offset : Int) (base : Register) :
    readAddress? (address offset base) = some (offset, base) := by
  have htext : (address offset base).toList = offset.repr.toList ++ '(' :: (base.name.toList ++ [')']) := by
    simp [address]
  have hinside : ∀ c ∈ offset.repr.toList, (c != '(') = true := by
    intro c hc
    apply bne_iff_ne.mpr
    rintro rfl
    exact absurd (mem_repr hc) (by decide)
  have hparen : ∀ c ∈ ('(' :: (base.name.toList ++ [')'])).head?, (c != '(') = false := by simp
  obtain ⟨htake, hdrop⟩ := takeWhile_ends hinside hparen
  rw [readAddress?, htext, htake, hdrop, String.ofList_toList, Int.toInt?_repr, List.tail_cons, List.dropLast_concat,
    String.ofList_toList, Register.ofName?_name]
  rfl

/-- **An instruction is read back** from its mnemonic and its operands. -/
theorem Instr.read?_operands (i : Instr) : read? i.mnemonic i.operands = some i := by
  cases i with
  | alu op rd rs1 rs2 =>
      have hsome : AluOp.ofMnemonic? op.mnemonic = some op := by cases op <;> decide
      cases op <;> simp_all [mnemonic, AluOp.mnemonic, operands, read?, Register.ofName?_name]
  | branch test rs1 rs2 label =>
      -- an operation and a branch may have the same operands, but no mnemonic is in both rows
      have hnone : AluOp.ofMnemonic? test.mnemonic = none := by cases test <;> decide
      have hsome : BranchTest.ofMnemonic? test.mnemonic = some test := by cases test <;> decide
      cases test <;> simp_all [mnemonic, BranchTest.mnemonic, operands, read?, Register.ofName?_name]
  | addi | neg | not | ld | sd | li | la | beqz | jump | call | ret =>
      simp [mnemonic, operands, read?, Register.ofName?_name, Int.toString_eq_repr, Int.toInt?_repr,
        readAddress?_address]

/-- A mnemonic is an unbroken word that is no comment sign and starts with no dot. -/
theorem Instr.mnemonic_form (i : Instr) :
    isUnbroken i.mnemonic = true ∧ i.mnemonic ≠ "#" ∧ i.mnemonic.toList.head? ≠ some '.' := by
  cases i with
  | alu op rd rs1 rs2 =>
      show isUnbroken op.mnemonic = true ∧ op.mnemonic ≠ "#" ∧ op.mnemonic.toList.head? ≠ some '.'
      cases op <;> decide
  | branch test rs1 rs2 label =>
      show isUnbroken test.mnemonic = true ∧ test.mnemonic ≠ "#" ∧ test.mnemonic.toList.head? ≠ some '.'
      cases test <;> decide
  | addi | neg | not | ld | sd | li | la | beqz | jump | call | ret => rw [mnemonic]; decide

/-! ### Operands -/

section Operands

variable {first : String} {rest : List String}

/-- The text of operands, character by character. -/
theorem toList_operands (first : String) (rest : List String) : (" " ++ String.intercalate ", " (first :: rest)).toList =
    ' ' :: first.toList ++ rest.flatMap fun s => ',' :: ' ' :: s.toList := by
  induction rest generalizing first with
  | nil => simp
  | cons second rest ih =>
      have hrest := ih second
      rw [String.toList_append] at hrest
      simp only [String.intercalate_cons_cons, String.toList_append, List.flatMap_cons]
      simp_all

/-- The text of operands is cut at the commas. -/
theorem splitOn_operands (h : ∀ s ∈ first :: rest, ',' ∉ s.toList) :
    (" " ++ String.intercalate ", " (first :: rest)).toList.splitOn ',' = (first :: rest).map fun s => ' ' :: s.toList := by
  rw [toList_operands]
  induction rest generalizing first with
  | nil =>
      rw [List.flatMap_nil, List.append_nil]
      exact List.splitOn_eq_singleton (by simpa using h)
  | cons second rest ih =>
      obtain ⟨hfirst, hrest⟩ := List.forall_mem_cons.mp h
      have hcut : ',' ∉ ' ' :: first.toList := by simpa using hfirst
      show List.splitOn ',' (' ' :: first.toList ++ ',' :: (' ' :: second.toList ++ rest.flatMap _)) = _
      rw [List.splitOn_append_cons_self_of_not_mem hcut, ih hrest]
      rfl

end Operands

/-- The operands that stand behind a mnemonic. -/
def Instr.readOperands (text : List Char) : List String :=
  if text = [] then [] else (text.splitOn ',').map fun operand => String.ofList operand.tail

/-- **Operands are read back** from their text. -/
theorem Instr.readOperands_operandText {i : Instr} (h : ∀ s ∈ i.operands, isUnbroken s = true) :
    readOperands i.operandText.toList = i.operands := by
  unfold operandText
  cases hoperands : i.operands with
  | nil => rfl
  | cons first rest =>
      rw [hoperands] at h
      have hcomma : ∀ s ∈ first :: rest, ',' ∉ s.toList := fun s hs => not_mem_of_isUnbroken (h s hs) rfl
      rw [readOperands, if_neg (by simp), splitOn_operands hcomma, List.map_map]
      exact (List.map_congr_left fun s _ => String.ofList_toList).trans (List.map_id _)

/-- Operands are written behind a blank, on one line. -/
theorem Instr.operandText_inline {i : Instr} (h : ∀ s ∈ i.operands, isUnbroken s = true) :
    (∀ c ∈ i.operandText.toList.head?, c = ' ') ∧ '\n' ∉ i.operandText.toList := by
  unfold operandText
  cases hoperands : i.operands with
  | nil => simp
  | cons first rest =>
      rw [hoperands] at h
      have hfeed : ∀ s ∈ first :: rest, '\n' ∉ s.toList := fun s hs => not_mem_of_isUnbroken (h s hs) rfl
      rw [toList_operands]
      simp_all

/-! ## Directives -/

namespace Directive

/-- The keyword of a directive. -/
def keyword : Directive → String
  | .text => ".text"
  | .sect _ => ".section"
  | .align _ => ".align"
  | .globl _ => ".globl"
  | .typeFunction _ => ".type"
  | .sizeFunction _ => ".size"
  | .string _ => ".string"

/-- What stands behind the keyword of a directive. -/
def argument : Directive → List Char
  | .text => []
  | .sect name | .globl name => ' ' :: name.toList
  | .align n => ' ' :: n.repr.toList
  | .typeFunction name => ' ' :: (name.toList ++ ", @function".toList)
  | .sizeFunction name => ' ' :: (name.toList ++ (", .-".toList ++ name.toList))
  | .string value => ' ' :: '\x22' :: ((escape value).toList ++ ['\x22'])

theorem toList_spelling (d : Directive) : d.spelling.toList = d.keyword.toList ++ d.argument := by
  cases d <;> simp [spelling, keyword, argument]

/-- The directive that a keyword and the characters behind it stand for. -/
def read? (keyword : String) (text : List Char) : Option Directive :=
  match keyword with
  | ".text" => some .text
  | ".section" => some (.sect (String.ofList text.tail))
  | ".align" => (String.ofList text.tail).toNat?.map .align
  | ".globl" => some (.globl (String.ofList text.tail))
  | ".type" => some (.typeFunction (String.ofList (text.tail.takeWhile (· != ','))))
  | ".size" => some (.sizeFunction (String.ofList (text.tail.takeWhile (· != ','))))
  | ".string" => (readString? '\x22' text.tail.tail).map fun reading => .string (String.ofList reading.1)
  | _ => none

/-- A name is read up to the comma behind it. -/
theorem takeWhile_name {name : String} (h : isSymbol name = true) (text : List Char) :
    (name.toList ++ ',' :: text).takeWhile (· != ',') = name.toList :=
  (takeWhile_ends (bne_of_isUnbroken (isUnbroken_of_isSymbol h) rfl) (by simp)).1

/-- **A directive is read back** from its keyword and the characters behind it. -/
theorem read?_argument {d : Directive} (hd : d.symbols.all isSymbol = true) : read? d.keyword d.argument = some d := by
  cases d with
  | text => rfl
  | sect name | globl name => simp only [keyword, argument, read?, List.tail_cons, String.ofList_toList]
  | align n =>
      simp only [keyword, argument, read?, List.tail_cons, String.ofList_toList, Nat.toNat?_repr]
      rfl
  | typeFunction name | sizeFunction name =>
      have hname := takeWhile_name (List.all_eq_true.mp hd name List.mem_cons_self)
      simp only [keyword, argument, read?, List.tail_cons]
      refine congrArg some (congrArg _ ?_)
      exact (congrArg String.ofList (hname _)).trans String.ofList_toList
  | string value =>
      simp only [keyword, argument, read?, List.tail_cons, escape, String.toList_ofList, readString?_escape]
      exact congrArg some (congrArg _ String.ofList_toList)

/-- The text holds a quotation mark that is not escaped. A backslash escapes the character behind it. -/
def hasBareQuote : List Char → Bool
  | [] => false
  | [c] => c == '\x22'
  | c :: d :: rest => if c = '\\' then hasBareQuote rest else c == '\x22' || hasBareQuote (d :: rest)

/-- A character that is neither a quotation mark nor a backslash changes nothing. -/
theorem hasBareQuote_cons {c : Char} (hquote : c ≠ '\x22') (hslash : c ≠ '\\') (text : List Char) :
    hasBareQuote (c :: text) = hasBareQuote text := by
  cases text <;> simp [hasBareQuote, hquote, hslash]

theorem hasBareQuote_flatMap (value : List Char) : hasBareQuote (value.flatMap escapeChar) = false := by
  induction value with
  | nil => rfl
  | cons c value ih =>
      rw [List.flatMap_cons]
      rcases escapeChar_eq c with ⟨e, he, -⟩ | ⟨he, -, hquote, hslash⟩
      -- the backslash takes the character behind it along, whether that is a quotation mark or not
      · rw [he]
        exact ih
      · rw [he]
        exact (hasBareQuote_cons hquote hslash _).trans ih

theorem hasBareQuote_escape (s : String) : hasBareQuote (escape s).toList = false := by
  rw [escape, String.toList_ofList]
  exact hasBareQuote_flatMap s.toList

theorem newline_not_mem_escapeChar (c : Char) : '\n' ∉ escapeChar c := by
  unfold escapeChar
  split
  · decide
  split
  · decide
  split
  · decide
  split
  · decide
  · next hfeed _ _ _ => exact fun h => hfeed (List.mem_singleton.mp h).symm

theorem newline_not_mem_escape (s : String) : '\n' ∉ (escape s).toList := by
  rw [escape, String.toList_ofList, List.mem_flatMap]
  rintro ⟨c, -, hc⟩
  exact newline_not_mem_escapeChar c hc

/-- Different strings are escaped differently, since the string of a directive is read back. -/
theorem escape_injective : Function.Injective escape := by
  intro s t h
  have hargument : (Directive.string s).argument = (Directive.string t).argument := by rw [argument, argument, h]
  have hs := read?_argument (d := .string s) rfl
  have ht := read?_argument (d := .string t) rfl
  rw [hargument] at hs
  exact Directive.string.inj (Option.some.inj (hs.symm.trans ht))

/-- The argument of a directive is written behind a blank, on one line. -/
theorem argument_inline {d : Directive} (hd : d.symbols.all isSymbol = true) :
    (∀ c ∈ d.argument.head?, c = ' ') ∧ '\n' ∉ d.argument := by
  have hsymbol : ∀ s ∈ d.symbols, '\n' ∉ s.toList :=
    fun s hs => not_mem_of_isUnbroken (isUnbroken_of_isSymbol (List.all_eq_true.mp hd s hs)) rfl
  have hnumber : ∀ n : Nat, '\n' ∉ n.repr.toList := fun n => not_mem_of_isUnbroken (isUnbroken_repr n) rfl
  cases d <;> simp_all [argument, symbols, newline_not_mem_escape]

/-- A keyword is an unbroken word that starts with a dot. -/
theorem keyword_form (d : Directive) :
    isUnbroken d.keyword = true ∧ d.keyword ≠ "#" ∧ d.keyword.toList.head? = some '.' := by
  cases d <;> (rw [keyword]; decide)

end Directive

/-! ## Lines -/

namespace Line

/-- The line of an indented word and what stands behind it. -/
def readWord? (word : String) (text : List Char) : Option Line :=
  if word = "#" then some (.comment (String.ofList text.tail))
  else if word.toList.head? = some '.' then (Directive.read? word text).map .directive
  else (Instr.read? word (Instr.readOperands text)).map .instr

/-- The line that a text is written for. -/
def read? (text : List Char) : Option Line :=
  if text.head? = some '\t' then
    readWord? (String.ofList (text.tail.takeWhile (· != ' '))) (text.tail.dropWhile (· != ' '))
  else some (.label (String.ofList text.dropLast))

/-- An indented text is cut behind its first word. -/
theorem read?_indented {word : String} {text : List Char} (hword : isUnbroken word = true)
    (htext : ∀ c ∈ text.head?, c = ' ') : read? ('\t' :: (word.toList ++ text)) = readWord? word text := by
  have hblank : ∀ c ∈ text.head?, (c != ' ') = false := fun c hc => bne_eq_false_iff_eq.mpr (htext c hc)
  obtain ⟨htake, hdrop⟩ := takeWhile_ends (bne_of_isUnbroken hword rfl) hblank
  rw [read?, if_pos List.head?_cons, List.tail_cons, htake, hdrop, String.ofList_toList]

/-- **A line is read back** from its text, and the text is one line. -/
theorem read?_text {l : Line} (hl : l.isProper = true) : read? l.text.toList = some l ∧ '\n' ∉ l.text.toList := by
  cases l with
  | instr i =>
      have hoperands := Instr.isUnbroken_operand hl
      obtain ⟨hunbroken, hcomment, hdot⟩ := i.mnemonic_form
      obtain ⟨hblank, hfeed⟩ := Instr.operandText_inline hoperands
      have htext : (instr i).text.toList = '\t' :: (i.mnemonic.toList ++ i.operandText.toList) := by simp [text]
      have hword : '\n' ∉ i.mnemonic.toList := not_mem_of_isUnbroken hunbroken rfl
      rw [htext]
      constructor
      · rw [read?_indented hunbroken hblank, readWord?, if_neg hcomment, if_neg hdot,
          Instr.readOperands_operandText hoperands, Instr.read?_operands]
        rfl
      · simp [hword, hfeed]
  | directive d =>
      obtain ⟨hunbroken, hcomment, hdot⟩ := d.keyword_form
      obtain ⟨hblank, hfeed⟩ := Directive.argument_inline hl
      have htext : (directive d).text.toList = '\t' :: (d.keyword.toList ++ d.argument) := by
        simp [text, Directive.toList_spelling]
      have hword : '\n' ∉ d.keyword.toList := not_mem_of_isUnbroken hunbroken rfl
      rw [htext]
      constructor
      · rw [read?_indented hunbroken hblank, readWord?, if_neg hcomment, if_pos hdot, Directive.read?_argument hl]
        rfl
      · simp [hword, hfeed]
  | label name =>
      have hname := isUnbroken_of_isSymbol hl
      have htab : '\t' ∉ name.toList := not_mem_of_isUnbroken hname rfl
      have hfeed : '\n' ∉ name.toList := not_mem_of_isUnbroken hname rfl
      have htext : (label name).text.toList = name.toList ++ [':'] := by simp [text]
      -- a label stands at the margin, so it is told from all other lines by its first character
      have hmargin : (name.toList ++ [':']).head? ≠ some '\t' := by
        intro h
        exact htab (by simpa using List.mem_of_mem_head? h)
      rw [htext]
      constructor
      · rw [read?, if_neg hmargin, List.dropLast_concat, String.ofList_toList]
      · simp [hfeed]
  | comment words =>
      have hfeed : '\n' ∉ words.toList := by simpa [isProper] using hl
      have htext : (comment words).text.toList = '\t' :: ("#".toList ++ ' ' :: words.toList) := by simp [text]
      rw [htext]
      constructor
      · rw [read?_indented rfl (by simp), readWord?, if_pos rfl, List.tail_cons, String.ofList_toList]
      · simp [hfeed]

end Line

end Offside.Machine

namespace Offside.Listing

open Machine

/-! ## Listings -/

/-- The lines that a text is written for. -/
def read? (text : String) : Option (List Line) := (text.toList.splitOn '\n').dropLast.mapM Line.read?

/-- The text of lines is cut at the line feeds; nothing stands behind the last one. -/
theorem splitOn_lines {lines : List Line} (h : ∀ l ∈ lines, '\n' ∉ l.text.toList) :
    (String.join (lines.map fun l => l.text ++ "\n")).toList.splitOn '\n' = lines.map (·.text.toList) ++ [[]] := by
  induction lines with
  | nil => rfl
  | cons l lines ih =>
      obtain ⟨hl, hlines⟩ := List.forall_mem_cons.mp h
      have htext : (String.join ((l :: lines).map fun l => l.text ++ "\n")).toList =
          l.text.toList ++ '\n' :: (String.join (lines.map fun l => l.text ++ "\n")).toList := by simp
      rw [htext, List.splitOn_append_cons_self_of_not_mem hl, ih hlines]
      rfl

/-- **A listing is read back** from its text. -/
theorem read?_text {a : Listing} (ha : ∀ l ∈ a.lines, l.isProper = true) : read? a.text = some a.lines := by
  -- one step per line: the pieces of the text are the texts of the lines
  rw [read?, text, splitOn_lines fun l hl => (Line.read?_text (ha l hl)).2, List.dropLast_concat, List.mapM_map]
  generalize a.lines = lines at ha
  induction lines with
  | nil => rfl
  | cons l lines ih =>
      obtain ⟨hl, hlines⟩ := List.forall_mem_cons.mp ha
      rw [List.mapM_cons, ih hlines, Function.comp_apply, (Line.read?_text hl).1]
      rfl

/-- **Rendering is injective.** Listings of proper lines that have the same text have the same lines; different strings are
    escaped differently, and an escaped string is on one line and holds no quotation mark that is not escaped. -/
theorem rendering_injective :
    (∀ a b : Listing, (∀ l ∈ a.lines, l.isProper = true) → (∀ l ∈ b.lines, l.isProper = true) → a.text = b.text →
      a.lines = b.lines) ∧
    Function.Injective Directive.escape ∧
    ∀ s, '\n' ∉ (Directive.escape s).toList ∧ Directive.hasBareQuote (Directive.escape s).toList = false := by
  refine ⟨?_, Directive.escape_injective, fun s => ⟨Directive.newline_not_mem_escape s, Directive.hasBareQuote_escape s⟩⟩
  intro a b ha hb htext
  have hread := read?_text ha
  rw [htext, read?_text hb] at hread
  exact (Option.some.inj hread).symm

/-- Lines whose operands hold blanks, commas, quotation marks, signs and dots. -/
def crowdedLines : List Line := [
  .directive (.sect ".rodata"), .label "print_fmt", .directive (.string "a, \"b\"\n"), .directive (.sizeFunction "f.x_1"),
  .comment "a, b: \"c\"", .instr (.ld .s10 (-16) .fp), .instr (.branch .ge .s1 .s11 ".L1")]

/-- The text does not say where the data of a listing starts, but it says what the lines are. -/
theorem rendering_injective_crowdedLines :
    (⟨crowdedLines, []⟩ : Listing).text = (⟨[], crowdedLines⟩ : Listing).text ∧
    (⟨crowdedLines, []⟩ : Listing).lines = (⟨[], crowdedLines⟩ : Listing).lines := by
  have hproper : crowdedLines.all Line.isProper = true := rfl
  have hcode : ∀ l ∈ (⟨crowdedLines, []⟩ : Listing).lines, l.isProper = true := List.all_eq_true.mp hproper
  have hdata : ∀ l ∈ (⟨[], crowdedLines⟩ : Listing).lines, l.isProper = true := List.all_eq_true.mp hproper
  exact ⟨rfl, rendering_injective.1 _ _ hcode hdata rfl⟩

end Offside.Listing
