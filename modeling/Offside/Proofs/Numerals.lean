import Mathlib
import Offside.Proofs.Lookahead

/-!
# `Proofs.Numerals` — numbers have their positional value

A `Numeral` is a number as it is written: the mark of its radix, if it has one, and a run of digits and underscores. What it
is worth is said without the lexer: a digit is worth its place in the row of digits (`digitValue`), and a numeral is worth
the sum of its digits times the powers of its radix (`Numeral.value`).

The lexer takes a numeral off the text as a whole when no letter, number or underscore follows it
(`Numeral.readNumber_ended`), and blames a letter or number that does follow (`Numeral.readNumber_lettered`). So a lexer
that stands before a numeral puts out the value of the numeral, or says at which place and why there is none
(`numbers_have_positional_value`).
-/

namespace Offside.Token

/-! ## Digits -/

/-- The digits in the order of their values, with small letters. -/
def smallDigits : List Char := "0123456789abcdef".toList

/-- The digits in the order of their values, with capital letters. -/
def capitalDigits : List Char := "0123456789ABCDEF".toList

/-- The value of a digit is its place in its row. A character that is no digit has a place behind all of them. -/
def digitValue (c : Char) : Nat := min (smallDigits.idxOf c) (capitalDigits.idxOf c)

/-- The texts that announce a radix. A decimal number is not announced. -/
def radixMarks : List (List Char × Nat) :=
  [([], 10), (['0', 'x'], 16), (['0', 'X'], 16), (['0', 'o'], 8), (['0', 'O'], 8), (['0', 'b'], 2), (['0', 'B'], 2)]

/-- What is said of every character of a list is decided along the list, not along all characters there are. -/
local instance (priority := 2000) decidableForallMemChars (p : Char → Prop) [DecidablePred p] (l : List Char) :
    Decidable (∀ c ∈ l, p c) := List.decidableBAll p l

section Digits

variable {c : Char} {mark : List Char} {radix : Nat}

/-- A character between two others is found by counting up from the first. -/
theorem exists_ofNat_of_between {lo hi : Char} (h : lo ≤ c ∧ c ≤ hi) :
    ∃ k < hi.toNat + 1 - lo.toNat, c = Char.ofNat (lo.toNat + k) := by
  have hlo : lo.toNat ≤ c.toNat := h.1
  have hhi : c.toNat ≤ hi.toNat := h.2
  refine ⟨c.toNat - lo.toNat, by omega, ?_⟩
  rw [Nat.add_sub_cancel' hlo, Char.ofNat_toNat]

theorem mem_digits_of_between
    (h : ('0' ≤ c ∧ c ≤ '9') ∨ ('a' ≤ c ∧ c ≤ 'f') ∨ ('A' ≤ c ∧ c ≤ 'F')) : c ∈ smallDigits ++ capitalDigits := by
  rcases h with h | h | h
  · obtain ⟨k, hk, rfl⟩ := exists_ofNat_of_between h
    exact (by decide : ∀ k < 10, Char.ofNat ('0'.toNat + k) ∈ smallDigits ++ capitalDigits) k hk
  · obtain ⟨k, hk, rfl⟩ := exists_ofNat_of_between h
    exact (by decide : ∀ k < 6, Char.ofNat ('a'.toNat + k) ∈ smallDigits ++ capitalDigits) k hk
  · obtain ⟨k, hk, rfl⟩ := exists_ofNat_of_between h
    exact (by decide : ∀ k < 6, Char.ofNat ('A'.toNat + k) ∈ smallDigits ++ capitalDigits) k hk

theorem digitValue_of_not_mem (h : c ∉ smallDigits ++ capitalDigits) : digitValue c = 16 := by
  rw [List.mem_append, not_or] at h
  rw [digitValue, List.idxOf_eq_length h.1, List.idxOf_eq_length h.2]
  rfl

theorem radix_le (h : (mark, radix) ∈ radixMarks) : radix ≤ 16 :=
  (by decide : ∀ p ∈ radixMarks, p.2 ≤ 16) _ h

/-- A number is decimal, or is announced by a zero and a letter. -/
theorem mark_cases (h : (mark, radix) ∈ radixMarks) :
    mark = [] ∧ radix = 10 ∨ ∃ m, mark = ['0', m] ∧ radixMark? m = some radix := by
  simp only [radixMarks, List.mem_cons, Prod.mk.injEq, List.not_mem_nil, or_false] at h
  rcases h with hplain | ⟨rfl, rfl⟩ | ⟨rfl, rfl⟩ | ⟨rfl, rfl⟩ | ⟨rfl, rfl⟩ | ⟨rfl, rfl⟩ | ⟨rfl, rfl⟩
  · exact Or.inl hplain
  all_goals exact Or.inr ⟨_, rfl, rfl⟩

/-- **The digits of a radix** are the characters that are worth less than the radix. -/
theorem digit?_eq_ite (h : (mark, radix) ∈ radixMarks) (c : Char) :
    digit? radix c = if digitValue c < radix then some (digitValue c) else none := by
  by_cases hc : c ∈ smallDigits ++ capitalDigits
  · have hall : ∀ p ∈ radixMarks, ∀ d ∈ smallDigits ++ capitalDigits,
        digit? p.2 d = if digitValue d < p.2 then some (digitValue d) else none := by decide
    exact hall _ h c hc
  -- outside the two rows every range that `digit?` asks for is missed
  · have hnone : ¬ digitValue c < radix := by
      have hle := radix_le h
      rw [digitValue_of_not_mem hc]
      omega
    have hout := not_or.mp (mt mem_digits_of_between hc)
    have hletters := not_or.mp hout.2
    rw [if_neg hnone, digit?]
    simp only [if_neg hout.1, if_neg hletters.1, if_neg hletters.2, Nat.lt_irrefl, if_false]

theorem isAlphanumeric_of_digitValue (h : digitValue c < 16) : Text.isAlphanumeric c = true := by
  by_cases hc : c ∈ smallDigits ++ capitalDigits
  · have hall : ∀ d ∈ smallDigits ++ capitalDigits, Text.isAlphanumeric d = true := by decide
    exact hall c hc
  · exact absurd (digitValue_of_not_mem hc) (Nat.ne_of_lt h)

/-- Only a decimal digit is worth less than ten. -/
theorem isDigit_of_digitValue (h : digitValue c < 10) : c.isDigit = true := by
  by_cases hc : c ∈ smallDigits ++ capitalDigits
  · have hall : ∀ d ∈ smallDigits ++ capitalDigits, digitValue d < 10 → d.isDigit = true := by decide
    exact hall c hc h
  · have hvalue := digitValue_of_not_mem hc
    omega

theorem digitValue_of_isDigit (h : c.isDigit = true) : digitValue c = c.toNat - '0'.toNat ∧ digitValue c < 10 := by
  have hall : ∀ d ∈ "0123456789".toList, digitValue d = d.toNat - '0'.toNat ∧ digitValue d < 10 := by decide
  exact hall c (digit_mem h)

/-- A letter that announces a radix makes a mark with the zero in front of it. -/
theorem mem_radixMarks_of_radixMark? (h : radixMark? c = some radix) : (['0', c], radix) ∈ radixMarks := by
  unfold radixMark? at h
  split at h
  · next hc => rcases hc with rfl | rfl <;> cases h <;> decide
  split at h
  · next hc => rcases hc with rfl | rfl <;> cases h <;> decide
  split at h
  · next hc => rcases hc with rfl | rfl <;> cases h <;> decide
  · exact absurd h (by simp)

/-- Reading digits from the left is summing them up by their places. -/
theorem ofDigits_eq (radix : Nat) (digits : List Nat) : ofDigits radix digits = Nat.ofDigits radix digits.reverse := by
  rw [Nat.ofDigits_eq_foldr, List.foldr_reverse, ofDigits]
  congr 1
  funext n d
  rw [Nat.cast_id, Nat.mul_comm, Nat.add_comm]

end Digits

/-! ## Numerals -/

/-- **A number as it is written**: the mark of its radix, and a run of digits of the radix and underscores. Without a mark it
    starts with a digit. -/
structure Numeral where
  mark : List Char
  radix : Nat
  announced : (mark, radix) ∈ radixMarks
  run : List Char
  grouped : ∀ c ∈ run, digitValue c < radix ∨ c = '_'
  digit_first : mark = [] → ∃ d ∈ run.head?, digitValue d < radix

/-- No letter, number or underscore goes on with a number. -/
def Ended (text : List Char) : Prop := ∀ d ∈ text.head?, Text.isAlphanumeric d = false ∧ d ≠ '_'

namespace Numeral

variable (n : Numeral) {rest : List Char} {c : Char}

/-- The characters of a numeral. -/
def text : List Char := n.mark ++ n.run

/-- What the digits of a numeral are worth, in the order in which they are written. -/
def digits : List Nat := (n.run.filter (· ≠ '_')).map digitValue

/-- **The positional value** of a numeral: the last digit counts by itself, and every other digit the radix times as much
    as if it stood one place to the right. -/
def value : Nat := Nat.ofDigits n.radix n.digits.reverse

/-- A numeral starts with a decimal digit, whatever its radix is. -/
theorem exists_text_eq_cons : ∃ x xs, n.text = x :: xs ∧ x.isDigit = true := by
  rcases mark_cases n.announced with ⟨hmark, hradix⟩ | ⟨m, hmark, -⟩
  · obtain ⟨d, hd, hvalue⟩ := n.digit_first hmark
    obtain ⟨ds, hrun⟩ := List.head?_eq_some_iff.mp hd
    rw [hradix] at hvalue
    exact ⟨d, ds, by rw [text, hmark, hrun]; rfl, isDigit_of_digitValue hvalue⟩
  · exact ⟨'0', m :: n.run, by rw [text, hmark]; rfl, rfl⟩

theorem continues_run : ∀ d ∈ n.run, continuesNumber n.radix d = true := by
  intro d hd
  rw [continuesNumber, digit?_eq_ite n.announced]
  rcases n.grouped d hd with hvalue | rfl
  · rw [if_pos hvalue]
    rfl
  · exact Bool.or_true _

/-- Only a digit of the radix or an underscore goes on with the run of a numeral. -/
theorem not_continues (hvalue : ¬ digitValue c < n.radix) (hunder : c ≠ '_') : continuesNumber n.radix c = false := by
  rw [continuesNumber, digit?_eq_ite n.announced, if_neg hvalue]
  simpa using hunder

/-- The lexer finds the digits of a numeral. -/
theorem filterMap_run : n.run.filterMap (digit? n.radix) = n.digits := by
  -- an underscore is worth 16, which is a digit in no radix
  have hunder : ¬ digitValue '_' < n.radix := Nat.not_lt.mpr (radix_le n.announced)
  have hsplit : ∀ d ∈ n.run, digit? n.radix d = if decide (d ≠ '_') = true then (some ∘ digitValue) d else none := by
    intro d hd
    rw [digit?_eq_ite n.announced]
    rcases n.grouped d hd with hvalue | rfl
    · have hne : d ≠ '_' := by
        rintro rfl
        exact hunder hvalue
      rw [if_pos hvalue, if_pos (by simpa using hne)]
      rfl
    · rw [if_neg hunder, if_neg (by simp)]
  rw [List.filterMap_congr hsplit, ← List.filterMap_filter, List.filterMap_eq_map, digits]

theorem ofDigits_digits : ofDigits n.radix n.digits = n.value := ofDigits_eq n.radix n.digits

/-- Unless what follows completes a mark, the lexer finds the radix of a numeral. -/
theorem splitRadix_text (h : ∀ d ∈ rest.head?, n.text ++ [d] ∉ radixMarks.map Prod.fst) :
    splitRadix (n.text ++ rest) = (n.radix, n.mark, n.run ++ rest) := by
  rcases mark_cases n.announced with ⟨hmark, hradix⟩ | ⟨m, hmark, hletter⟩
  · obtain ⟨d, hd, -⟩ := n.digit_first hmark
    obtain ⟨ds, hrun⟩ := List.head?_eq_some_iff.mp hd
    have htext : n.text = d :: ds := by rw [text, hmark, hrun]; rfl
    rw [htext, hmark, hradix, hrun, List.cons_append]
    apply splitRadix_single
    intro e he
    split
    · next hzero =>
        -- the character behind the zero is one of the run, or the one that follows it
        cases hletter : radixMark? e with
        | none => rfl
        | some r =>
            have hmem : ['0', e] ∈ radixMarks.map Prod.fst := List.mem_map_of_mem (mem_radixMarks_of_radixMark? hletter)
            cases ds with
            | nil => exact absurd (by rw [htext, hzero]; exact hmem) (h e he)
            | cons e' ds =>
                obtain rfl : e' = e := Option.some.inj he
                have hplain := n.grouped e' (by rw [hrun]; simp)
                rw [hradix] at hplain
                have hall : ∀ p ∈ radixMarks, ∀ m ∈ p.1.tail, ¬ (digitValue m < 10 ∨ m = '_') := by decide
                exact absurd hplain (hall _ (mem_radixMarks_of_radixMark? hletter) e' (by simp))
    · rfl
  · rw [text, hmark]
    exact splitRadix_marked (by rw [if_pos rfl, hletter])

/-- Where a numeral ends, no mark is completed. -/
theorem not_mem_marks_of_ended (h : Ended rest) : ∀ d ∈ rest.head?, n.text ++ [d] ∉ radixMarks.map Prod.fst := by
  intro d hd hmem
  have hall : ∀ m ∈ radixMarks.map Prod.fst, ∀ d ∈ m, Text.isAlphanumeric d = true := by decide
  have hlast := hall _ hmem d (List.mem_append_right _ (List.mem_singleton_self d))
  rw [(h d hd).1] at hlast
  exact Bool.false_ne_true hlast

/-- **A numeral is read as a whole**, and has its positional value. -/
theorem readNumber_ended (h : Ended rest) : readNumber (n.text ++ rest) =
    if n.digits = [] then .error ⟨.emptyInteger, []⟩
    else if n.value < 2 ^ 64 then .ok ⟨.token (.int n.value), n.text, rest⟩
    else .error ⟨.integerTooLarge, []⟩ := by
  have hends : ∀ d ∈ rest.head?, continuesNumber n.radix d = false := by
    intro d hd
    have hvalue : ¬ digitValue d < n.radix := by
      intro hlt
      have halpha := isAlphanumeric_of_digitValue (Nat.lt_of_lt_of_le hlt (radix_le n.announced))
      rw [(h d hd).1] at halpha
      exact Bool.false_ne_true halpha
    exact n.not_continues hvalue (h d hd).2
  obtain ⟨htake, hdrop⟩ := takeWhile_ends n.continues_run hends
  have hletter : rest.head?.filter Text.isAlphanumeric = none := by
    rw [Option.filter_eq_none_iff]
    intro d hd
    rw [(h d hd).1]
    exact Bool.false_ne_true
  unfold readNumber
  rw [n.splitRadix_text (n.not_mem_marks_of_ended h)]
  dsimp only
  rw [htake, hdrop, hletter, n.filterMap_run]
  dsimp only
  split
  · next hnil => rw [if_pos hnil]
  · next hdigits => rw [if_neg hdigits, n.ofDigits_digits]; rfl

/-- **A letter or number that is no digit of the radix** is blamed at its own place. -/
theorem readNumber_lettered (hc : c ∈ rest.head?) (hletter : Text.isAlphanumeric c = true) (hvalue : n.radix ≤ digitValue c)
    (hmark : n.text ++ [c] ∉ radixMarks.map Prod.fst) : readNumber (n.text ++ rest) = .error ⟨.invalidDigit c, n.text⟩ := by
  have hends : ∀ d ∈ rest.head?, continuesNumber n.radix d = false := by
    intro d hd
    obtain rfl : c = d := Option.some.inj (hc.symm.trans hd)
    have hne : c ≠ '_' := by
      rintro rfl
      exact absurd hletter (by decide)
    exact n.not_continues (Nat.not_lt.mpr hvalue) hne
  obtain ⟨htake, hdrop⟩ := takeWhile_ends n.continues_run hends
  have hmarks : ∀ d ∈ rest.head?, n.text ++ [d] ∉ radixMarks.map Prod.fst := by
    intro d hd
    obtain rfl : c = d := Option.some.inj (hc.symm.trans hd)
    exact hmark
  have hfound : rest.head?.filter Text.isAlphanumeric = some c := by rw [hc, Option.filter_some, if_pos hletter]
  unfold readNumber
  rw [n.splitRadix_text hmarks]
  dsimp only
  rw [htake, hdrop, hfound]
  rfl

end Numeral

/-! ## The lexer before a numeral -/

/-- A digit starts a number. -/
theorem Item.read_digit {x : Char} {xs : List Char} (hx : x.isDigit = true) : Item.read x xs = readNumber (x :: xs) := by
  obtain ⟨hblank, hhash, hslash, hfeed, hword⟩ := digit_head hx
  simp [Item.read, hblank, hhash, hslash, hfeed, hword, hx]

/-- What a lexer inside a line does before a numeral depends on what is read off the text. -/
theorem Lexer.stepInLine_numeral (n : Numeral) {rest : List Char} {lx : Lexer} (h : lx.rest = n.text ++ rest) :
    (∀ m, readNumber (n.text ++ rest) = .error m → lx.stepInLine = .error ⟨m.cause, lx.pos.across m.before⟩) ∧
      ∀ k used left, readNumber (n.text ++ rest) = .ok ⟨.token (.int k), used, left⟩ →
        lx.stepInLine = .ok (some ([⟨.int k, ⟨lx.pos, lx.pos.across used⟩⟩],
          { lx.advance used left with lineOpen := true })) := by
  obtain ⟨x, xs, htext, hx⟩ := n.exists_text_eq_cons
  rw [htext, List.cons_append] at h ⊢
  rw [← Item.read_digit hx]
  constructor
  · intro m hread
    simp only [stepInLine, h, hread]
  · intro k used left hread
    simp only [stepInLine, h, hread]
    rfl

/-- **Numbers have their positional value.** A lexer that stands before a numeral takes it off the text as a whole, if no
    letter, number or underscore follows: it puts out the value of the numeral if there are digits and the value has at
    most 64 bits, and otherwise says at the start of the numeral what is wrong. A letter or number that is no digit of the
    radix, and makes no mark of a radix with the numeral before it, is reported at its own place. -/
theorem numbers_have_positional_value (n : Numeral) (rest : List Char) {lx : Lexer} (h : lx.rest = n.text ++ rest) :
    (Ended rest → lx.stepInLine.mapError Fault.diagnostic =
      if n.digits = [] then
        .error (.lexical "invalid integer literal: cannot parse integer from empty string" lx.pos)
      else if n.value < 2 ^ 64 then
        .ok (some ([⟨.int n.value, ⟨lx.pos, lx.pos.across n.text⟩⟩], { lx.advance n.text rest with lineOpen := true }))
      else
        .error (.lexical "invalid integer literal: number too large to fit in target type" lx.pos)) ∧
    ∀ c ∈ rest.head?, Text.isAlphanumeric c = true → n.radix ≤ digitValue c →
      n.text ++ [c] ∉ radixMarks.map Prod.fst → lx.stepInLine.mapError Fault.diagnostic =
        .error (.lexical ("invalid digit '" ++ c.toString ++ "' in integer literal") (lx.pos.across n.text)) := by
  obtain ⟨herror, hok⟩ := Lexer.stepInLine_numeral n h
  constructor
  · intro hended
    have hread := n.readNumber_ended hended
    by_cases hdigits : n.digits = []
    · rw [if_pos hdigits] at hread ⊢
      rw [herror _ hread]
      rfl
    · rw [if_neg hdigits] at hread ⊢
      by_cases hvalue : n.value < 2 ^ 64
      · rw [if_pos hvalue] at hread ⊢
        rw [hok _ _ _ hread]
        rfl
      · rw [if_neg hvalue] at hread ⊢
        rw [herror _ hread]
        rfl
  · intro c hc hletter hvalue hmark
    rw [herror _ (n.readNumber_lettered hc hletter hvalue hmark)]
    rfl

/-- The largest number, in hexadecimal with letters of both cases and with underscores. -/
def largestNumeral : Numeral where
  mark := ['0', 'X']
  radix := 16
  announced := by decide
  run := "_FFFF_ffff_FFFF_ffff_".toList
  grouped := by decide
  digit_first := by decide

theorem numbers_have_positional_value_largestNumeral :
    largestNumeral.text = "0X_FFFF_ffff_FFFF_ffff_".toList ∧
      ((Lexer.start "f" "0X_FFFF_ffff_FFFF_ffff_+1".toList).stepInLine.mapError Fault.diagnostic =
        .ok (some ([⟨.int 18446744073709551615, ⟨⟨"f", 1, 1⟩, ⟨"f", 1, 24⟩⟩⟩],
          ⟨⟨"f", 1, 24⟩, ['+', '1'], [], 0, true, true⟩))) ∧
      (Lexer.start "f" "0X_FFFF_ffff_FFFF_ffff_g".toList).stepInLine.mapError Fault.diagnostic =
        .error (.lexical "invalid digit 'g' in integer literal" ⟨"f", 1, 24⟩) := by
  refine ⟨by decide, ?_, ?_⟩
  · exact (numbers_have_positional_value largestNumeral ['+', '1'] (by decide)).1 (by rintro d ⟨⟩; decide)
  · exact (numbers_have_positional_value largestNumeral ['g'] (by decide)).2 'g' rfl (by decide) (by decide) (by decide)

end Offside.Token
