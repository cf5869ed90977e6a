import Mathlib
import Offside.Proofs.Padding

/-!
# `Proofs.LineEnds` — sources with carriage returns at the ends of their lines

`crlf` writes a carriage return in front of every line feed. A carriage return is a blank, so in front of a line feed it is
a padding, and every move can be made again on such a text (`Move.scan_crlf`), but for two: a string that runs over a line
end, and the joined line end itself, a backslash directly in front of a line feed. What a text is made of, item by item
(`pieces`), says whether these occur. A source that is accepted, and in which no string runs over a line end, keeps the
kinds of all its tokens if no lines are joined, and is refused at the backslash if some are (`outcome_crlf`).
-/

namespace Offside.Token

/-- The text with a carriage return in front of every line feed. -/
def crlf (text : List Char) : List Char := text.flatMap fun c => if c = '\n' then ['\r', '\n'] else [c]

/-- **The items of a text**, one behind the other, with the characters of each. -/
def pieces (text : List Char) : List (Item × List Char) :=
  match text with
  | [] => []
  | c :: cs =>
    match _h : Item.read c cs with
    | .error _ => []
    | .ok r => (r.item, r.used) :: pieces r.rest
termination_by text.length
decreasing_by exact Item.read_shortens _h

/-- The end of a line that is joined with the next one: a backslash, and the line feed. -/
def joint : Item × List Char := (.blank, ['\\', '\n'])

section Crlf

variable {c : Char} {text text' : List Char}

theorem crlf_append : crlf (text ++ text') = crlf text ++ crlf text' := List.flatMap_append

theorem crlf_feed : crlf ('\n' :: text) = ['\r'] ++ '\n' :: crlf text := rfl

theorem crlf_cons (hc : c ≠ '\n') : crlf (c :: text) = c :: crlf text := by
  rw [crlf, List.flatMap_cons, if_neg hc]
  rfl

/-- Without line feeds nothing changes. -/
theorem crlf_line (h : '\n' ∉ text) : crlf text = text := by
  induction text with
  | nil => rfl
  | cons c cs ih =>
      rw [List.mem_cons, not_or] at h
      rw [crlf_cons (Ne.symm h.1), ih h.2]

end Crlf

section Pieces

variable {c : Char} {cs rest used left blanks text : List Char} {item : Item} {k : Kind}

theorem pieces_nil : pieces [] = [] := by rw [pieces]

theorem pieces_cons (h : Item.read c cs = .ok ⟨item, used, rest⟩) : pieces (c :: cs) = (item, used) :: pieces rest := by
  rw [pieces]
  split
  · next he => exact absurd (h.symm.trans he) (by simp)
  · next r hr =>
      obtain rfl : ⟨item, used, rest⟩ = r := Except.ok.inj (h.symm.trans hr)
      rfl

theorem pieces_blanks (h : ∀ c ∈ blanks, isBlank c = true) (rest : List Char) :
    pieces (blanks ++ rest) = blanks.map (fun c => (.blank, [c])) ++ pieces rest := by
  induction blanks with
  | nil => rfl
  | cons c cs ih =>
      rw [List.forall_mem_cons] at h
      rw [List.cons_append, pieces_cons (Item.read_blank h.1), ih h.2]
      rfl

/-- Blanks join no lines. -/
theorem joint_not_mem_blanks : joint ∉ blanks.map (fun c => (Item.blank, [c])) := by
  rw [List.mem_map]
  rintro ⟨c, -, hc⟩
  cases hc

/-- The start of a line without tokens joins no lines. -/
theorem LineStart.Form.pieces_eq (h : LineStart.Form text (.empty used rest)) :
    ∃ front, pieces text = front ++ pieces rest ∧ joint ∉ front := by
  cases h with
  | ended hblanks =>
      have hpieces := pieces_blanks hblanks []
      rw [List.append_nil] at hpieces
      exact ⟨_, hpieces, joint_not_mem_blanks⟩
  | @comment blanks cs _ hblanks hcs hrest =>
      refine ⟨blanks.map (fun c => (.blank, [c])) ++ [(.blank, '#' :: cs)], ?_, ?_⟩
      · rw [pieces_blanks hblanks, pieces_cons (Item.read_comment hcs (head_of_comment hrest)), List.append_assoc]
        rfl
      · rw [List.mem_append, not_or]
        exact ⟨joint_not_mem_blanks, by simp [joint]⟩
  | @feed blanks _ hblanks =>
      refine ⟨blanks.map (fun c => (.blank, [c])) ++ [(.newline, ['\n'])], ?_, ?_⟩
      · rw [pieces_blanks hblanks, pieces_cons rfl, List.append_assoc]
        rfl
      · rw [List.mem_append, not_or]
        exact ⟨joint_not_mem_blanks, by simp [joint]⟩

/-- A string that holds a line feed holds a backslash in front of it. -/
theorem readString?_feed {quote : Char} {value : List Char} (h : readString? quote text = some (value, used, left))
    (hmem : '\n' ∈ used) : ['\\', '\n'] <:+: used := by
  fun_induction readString? quote text generalizing value used left with
  | case1 | case2 | case4 | case6 | case8 => exact absurd h (by simp)
  | case3 _ hfeed =>
      cases h
      exact absurd (List.mem_singleton.mp hmem).symm hfeed
  | case5 e tail value' used' left' hread hfeed hquote ih =>
      cases h
      by_cases he : e = '\n'
      · rw [he]
        exact (List.prefix_append ['\\', '\n'] used').isInfix
      · have hused : '\n' ∈ used' := by simpa [Ne.symm he] using hmem
        exact (ih hread hused).trans (List.suffix_append ['\\', e] used').isInfix
  | case7 c tail hfeed hquote hslash value' used' left' hread ih =>
      cases h
      have hused : '\n' ∈ used' := by simpa [Ne.symm hfeed] using hmem
      exact (ih hread hused).trans (List.suffix_cons c used').isInfix

theorem splitRadix_feed {radix : Nat} {mark body : List Char} (h : splitRadix text = (radix, mark, body)) :
    '\n' ∉ mark := by
  unfold splitRadix at h
  split at h
  · next z m tail =>
      split at h
      · next hmark =>
          cases h
          intro hmem
          rcases List.mem_pair.mp hmem with rfl | rfl
          · exact absurd hmark (by simp)
          · rw [(by decide : radixMark? '\n' = none), ite_self] at hmark
            exact absurd hmark (by simp)
      · cases h
        exact List.not_mem_nil
  · cases h
    exact List.not_mem_nil

/-- **Of all tokens only strings run over a line end**, and only behind a backslash. -/
theorem Item.Form.token_feed (h : Item.Form c rest (.token k) used left) (hmem : '\n' ∈ used) :
    ['\\', '\n'] <:+: used := by
  have hhead := h.token_head.2.2.2
  cases h with
  | word _ =>
      rcases List.mem_cons.mp hmem with hc | hword
      · exact absurd hc.symm hhead
      · exact absurd (List.mem_takeWhile_imp hword) (by decide)
  | number _ hread =>
      obtain ⟨radix, mark, body, run, hsplit, rfl, -, hr⟩ := readNumber_ok hread
      obtain ⟨-, rfl, -⟩ := Reading.mk.inj hr
      rcases List.mem_append.mp hmem with hmark | hrun
      · exact absurd hmark (splitRadix_feed hsplit)
      · exact absurd (List.mem_takeWhile_imp hrun) (by simp [continuesNumber, digit?])
  | string _ hread =>
      have hused := (List.mem_cons.mp hmem).resolve_left (Ne.symm hhead)
      exact (readString?_feed hread hused).trans (List.suffix_cons c _).isInfix
  | symbol hread => exact absurd hmem (not_mem_chars_of_parting _ (by decide))

/-- A piece of a text was read as an item. -/
theorem form_of_mem_pieces (h : (item, used) ∈ pieces text) : ∃ c cs left, Item.Form c cs item used left := by
  fun_induction pieces text with
  | case1 | case2 => exact absurd h List.not_mem_nil
  | case3 c cs r hread ih =>
      rcases List.mem_cons.mp h with heq | hrest
      · obtain ⟨rfl, rfl⟩ := Prod.mk.inj heq
        exact ⟨c, cs, r.rest, Item.form_of_read hread⟩
      · exact ih hrest

end Pieces

namespace Lexer

variable {lx next : Lexer} {text used : List Char} {tokens : List Token}

/-- A carriage return in front of a line feed makes no difference. -/
theorem scan_crlf_feed (lx : Lexer) (text : List Char) : lx.scan (crlf ('\n' :: text)) = lx.scan ('\n' :: crlf text) := by
  rw [crlf_feed]
  exact scan_padding lx (Padding.of_blanks (by simp [isBlank])) _

/-- At the start of a line, neither do blanks and the line feed. -/
theorem scan_crlf_bareLine (hstart : lx.lineStart = true) {blanks : List Char} (hblanks : ∀ c ∈ blanks, isBlank c = true)
    (text : List Char) : lx.scan (crlf (blanks ++ '\n' :: text)) = lx.scan (crlf text) := by
  have hpadding : Padding (blanks ++ ['\r']) :=
    Padding.of_blanks (List.forall_mem_append.mpr ⟨hblanks, by simp [isBlank]⟩)
  rw [crlf_append, crlf_line (not_feed_of_blank hblanks), crlf_feed, ← List.append_assoc, scan_padding lx hpadding,
    scan_feed_start hstart]

/-- A backslash that stands in front of a carriage return is no item. -/
theorem scan_crlf_joint (hstart : lx.lineStart = false) (text : List Char) :
    lx.scan (crlf ('\\' :: '\n' :: text)) = .error (.unexpectedCharacter '\\') := by
  have hread : Item.read '\\' ('\r' :: '\n' :: crlf text) = .error ⟨.unexpectedCharacter '\\', []⟩ := rfl
  exact (@Fails.item { lx with rest := crlf ('\\' :: '\n' :: text) } _ _ _ hstart rfl hread).outcome

/-- A move inside a line can be made again on the text with carriage returns. -/
theorem Move.scan_crlf_line (h : Move lx used tokens next) (hline : '\n' ∉ used) :
    lx.scan (crlf lx.rest) = prepend (tokens.map Token.kind) (next.scan (crlf next.rest)) := by
  rw [h.splits.1, crlf_append, crlf_line hline]
  by_cases hfeed : next.rest.head? = some '\n'
  · -- the move is the last one on its line, and the carriage return pads the line
    obtain ⟨tail, hrest⟩ := List.head?_eq_some_iff.mp hfeed
    have hparted : Parted next.rest := by
      intro d hd
      obtain rfl : '\n' = d := Option.some.inj (hfeed.symm.trans hd)
      decide
    rw [hrest, scan_crlf_feed, crlf_feed]
    exact h.scan_padding (Or.inr hparted) (Padding.of_blanks (by simp [isBlank])) _
  · have hhead : (crlf next.rest).head? = next.rest.head? := by
      cases hrest : next.rest with
      | nil => rfl
      | cons c cs =>
          rw [crlf_cons]
          · rfl
          · rintro rfl
            rw [hrest] at hfeed
            exact hfeed rfl
    exact (h.again (Or.inl hhead)).outcome

/-- **One move on the text with carriage returns**: it is made again, unless it passes over a joined line end. There the
    backslash no longer stands in front of the line feed. -/
theorem Move.scan_crlf (h : Move lx used tokens next)
    (hstrings : ∀ k text, (Item.token k, text) ∈ pieces lx.rest → '\n' ∉ text) :
    ∃ front, pieces lx.rest = front ++ pieces next.rest ∧
      lx.scan (crlf lx.rest) =
        if joint ∈ front then .error (.unexpectedCharacter '\\')
        else prepend (tokens.map Token.kind) (next.scan (crlf next.rest)) := by
  have hline := h.scan_crlf_line
  cases h with
  | skip hstart hne hread =>
      have hform := LineStart.form_of_eq hread
      obtain ⟨front, hpieces, hjoint⟩ := hform.pieces_eq
      refine ⟨front, hpieces, ?_⟩
      rw [if_neg hjoint]
      generalize lx.rest = line at hform hline
      cases hform with
      | ended hblanks => exact hline (not_feed_of_blank hblanks)
      | comment hblanks hcs _ => exact hline (Padding.of_comment hblanks hcs).line
      | feed hblanks =>
          -- the line feed is used up, so the carriage return gets in between the blanks and it
          rw [List.map_nil, prepend_nil, scan_advance]
          exact scan_crlf_bareLine hstart hblanks _
  | enter hstart hread henter =>
      have hform := LineStart.form_of_eq hread
      generalize lx.rest = line at hform hline
      cases hform with
      | filled hblanks _ _ _ =>
          refine ⟨_, pieces_blanks hblanks _, ?_⟩
          rw [if_neg joint_not_mem_blanks]
          exact hline (not_feed_of_blank hblanks)
  | @blank c cs _ _ hstart hrest hread =>
      rw [hrest] at hline ⊢
      refine ⟨[_], pieces_cons hread, ?_⟩
      cases Item.form_of_read hread with
      | blank hc =>
          rw [if_neg (by simp [joint])]
          apply hline
          rw [List.mem_singleton]
          rintro rfl
          exact absurd hc (by decide)
      | comment hc =>
          rw [if_neg (by simp [joint, hc]), hc]
          rw [hc] at hline
          apply hline
          rw [List.mem_cons, not_or]
          exact ⟨by decide, (LineStart.comment_split cs).1⟩
      | joined hc hcs =>
          -- the one move that cannot be made again
          rw [hc, hcs, if_pos (by simp [joint])]
          exact scan_crlf_joint hstart _
  | @join _ _ _ rest hstart hrest hread hdepth =>
      rw [hrest]
      refine ⟨[_], pieces_cons hread, ?_⟩
      cases Item.form_of_read hread with
      | newline hc =>
          rw [if_neg (by simp [joint]), hc, scan_crlf_feed]
          exact (@Move.join { lx with rest := '\n' :: crlf rest } _ _ _ _ hstart rfl rfl hdepth).outcome
  | @feed _ _ _ rest hstart hrest hread hdepth =>
      rw [hrest]
      refine ⟨[_], pieces_cons hread, ?_⟩
      cases Item.form_of_read hread with
      | newline hc =>
          rw [if_neg (by simp [joint]), hc, scan_crlf_feed]
          exact (@Move.feed { lx with rest := '\n' :: crlf rest } _ _ _ _ hstart rfl rfl hdepth).outcome
  | token hstart hrest hread =>
      rw [hrest] at hstrings hline ⊢
      refine ⟨[_], pieces_cons hread, ?_⟩
      rw [if_neg (by simp [joint])]
      apply hline
      apply hstrings
      rw [pieces_cons hread]
      exact List.mem_cons_self

/-- **Moves on the text with carriage returns** are made again up to the first joined line end. -/
theorem Moves.scan_crlf (h : Moves lx text tokens next)
    (hstrings : ∀ k text, (Item.token k, text) ∈ pieces lx.rest → '\n' ∉ text) :
    ∃ front, pieces lx.rest = front ++ pieces next.rest ∧
      lx.scan (crlf lx.rest) =
        if joint ∈ front then .error (.unexpectedCharacter '\\')
        else prepend (tokens.map Token.kind) (next.scan (crlf next.rest)) := by
  induction h with
  | refl => exact ⟨[], rfl, (prepend_nil _).symm⟩
  | @snoc mid next text used tokens more _ hmove ih =>
      obtain ⟨front, hpieces, hscan⟩ := ih
      have hstrings' : ∀ k text, (Item.token k, text) ∈ pieces mid.rest → '\n' ∉ text := by
        intro k text hmem
        apply hstrings k text
        rw [hpieces]
        exact List.mem_append_right front hmem
      obtain ⟨front', hpieces', hscan'⟩ := hmove.scan_crlf hstrings'
      refine ⟨front ++ front', by rw [hpieces, hpieces', List.append_assoc], ?_⟩
      rw [hscan, hscan']
      by_cases hfirst : joint ∈ front
      · rw [if_pos hfirst, if_pos (List.mem_append_left front' hfirst)]
      · by_cases hhere : joint ∈ front'
        · rw [if_neg hfirst, if_pos hhere, if_pos (List.mem_append_right front hhere)]
          rfl
        · rw [if_neg hfirst, if_neg hhere, if_neg (by simp [hfirst, hhere]), List.map_append, prepend_append]

end Lexer

/-- **Line ends with carriage returns.** In a source that is accepted, and in which no string holds a backslash in front of
    a line feed, let every line feed become a carriage return and a line feed. If no lines are joined by a backslash, then
    the source is accepted as before, and its tokens have the same kinds; otherwise it is refused, for the backslash. -/
theorem outcome_crlf {file source : String} {tokens : List Token} (h : tokenize file source = .ok tokens)
    (hstrings : ∀ k text, (Item.token k, text) ∈ pieces source.toList → ¬ ['\\', '\n'] <:+: text) :
    outcome (tokenize file (String.ofList (crlf source.toList))) =
      if joint ∈ pieces source.toList then .error (.unexpectedCharacter '\\') else .ok (tokens.map Token.kind) := by
  obtain ⟨front, last, hmoves, hlast, rfl⟩ := Lexer.moves_of_run_ok h
  have hline : ∀ k text, (Item.token k, text) ∈ pieces source.toList → '\n' ∉ text := by
    intro k text hmem hfeed
    obtain ⟨_, _, _, hform⟩ := form_of_mem_pieces hmem
    exact hstrings k text hmem (hform.token_feed hfeed)
  obtain ⟨pieces', hpieces, hscan⟩ := hmoves.scan_crlf hline
  rw [hlast, pieces_nil, List.append_nil] at hpieces
  have hend : last.scan (crlf last.rest) = .ok last.closing := by
    rw [hlast]
    exact Lexer.outcome_of_end rfl
  rw [tokenize, String.toList_ofList, List.map_append, Lexer.close_eq_map, map_kind_marks]
  rw [← hpieces, hend] at hscan
  exact hscan

/-- A block with a comment, an empty line, and a line that goes on inside parentheses. -/
def blockSource : String := "if x: # yes\n\n\ty(1,\n 2)\nz"

set_option maxRecDepth 10000 in
/-- The lines of a block can end with carriage returns. -/
theorem outcome_crlf_blockSource :
    outcome (tokenize "m" (String.ofList (crlf blockSource.toList))) =
      .ok [.kw .if_, .ident "x", .sym .colon, .newline, .indent, .ident "y", .sym .leftParen, .int 1, .sym .comma, .int 2,
        .sym .rightParen, .newline, .dedent, .ident "z", .newline, .eof] := by
  have hkinds : outcome (tokenize "m" blockSource) =
      .ok [.kw .if_, .ident "x", .sym .colon, .newline, .indent, .ident "y", .sym .leftParen, .int 1, .sym .comma, .int 2,
        .sym .rightParen, .newline, .dedent, .ident "z", .newline, .eof] := by cbv
  have hall : ((pieces blockSource.toList).all fun p => !decide (['\\', '\n'] <:+: p.2)) = true := by cbv
  have hpieces : ∀ p ∈ pieces blockSource.toList, ¬ ['\\', '\n'] <:+: p.2 := by
    intro p hp
    simpa using List.all_eq_true.mp hall p hp
  cases htokens : tokenize "m" blockSource with
  | error e =>
      rw [htokens] at hkinds
      cases hkinds
  | ok tokens =>
      rw [outcome_crlf htokens fun k text hmem => hpieces _ hmem, if_neg fun hmem => hpieces _ hmem List.infix_rfl]
      rw [htokens] at hkinds
      exact hkinds

/-- A line that is joined with the next one. -/
def joinedSource : String := "x \\\n y"

set_option maxRecDepth 10000 in
/-- **Joined lines do not stand carriage returns**: the source is accepted, and has no string at all, and is refused once
    its line end has a carriage return. -/
theorem crlf_refused_joinedSource :
    (∃ tokens, tokenize "m" joinedSource = .ok tokens) ∧ '\r' ∉ joinedSource.toList ∧
      (∀ k text, (Item.token k, text) ∈ pieces joinedSource.toList → ¬ ['\\', '\n'] <:+: text) ∧
      outcome (tokenize "m" (String.ofList (crlf joinedSource.toList))) = .error (.unexpectedCharacter '\\') := by
  have hpieces : pieces joinedSource.toList =
      [(.token (.ident "x"), ['x']), (.blank, [' ']), joint, (.blank, [' ']), (.token (.ident "y"), ['y'])] := by cbv
  refine ⟨⟨_, by cbv⟩, by decide, ?_, by cbv⟩
  intro k text hmem
  simp only [hpieces, joint, List.mem_cons, Prod.mk.injEq, reduceCtorEq, false_and, List.not_mem_nil,
    or_false, false_or] at hmem
  rcases hmem with ⟨-, rfl⟩ | ⟨-, rfl⟩ <;> decide

end Offside.Token
