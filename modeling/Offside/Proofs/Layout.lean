import Offside.Proofs.Progress

/-!
# `Proofs.Layout` — texts as pieces, and how control moves through them

A text is a list of pieces: lines, and whole functions with pieces of their own (`Part`). Seen this way a
function inside another one is a single piece of it, and the lines that belong to a function itself are those
among its pieces.

`Runs` are the ways that control can take through the pieces of a function, whatever its tests find, with
the stack pointer's displacement from the function's entry. `level` reads that displacement off the text,
line after line, without following jumps. Where jumps keep their level (`Flows`) the two agree
(`Runs.level_eq`), so the displacement at a line does not depend on the way that control came there.
-/

namespace Offside.Machine

/-! ## Pieces -/

/-- A piece of a text: a line, or a whole function. -/
inductive Part where
  | line (l : Line)
  | function (label : String) (body : List Part)

mutual

/-- The lines of a piece. -/
def Part.lines : Part → List Line
  | .line l => [l]
  | .function label body => functionHeader label ++ linesOf body ++ [functionFooter label]

/-- The lines of pieces, one after the other. -/
def linesOf : List Part → List Line
  | [] => []
  | p :: rest => p.lines ++ linesOf rest

end

/-- Lines as pieces. -/
def ofLines (ls : List Line) : List Part := ls.map .line

/-- Instructions as pieces. -/
def ofInstrs (is : List Instr) : List Part := is.map fun i => .line (.instr i)

section Lines

variable {ps qs : List Part} {label : String}

theorem linesOf_append : linesOf (ps ++ qs) = linesOf ps ++ linesOf qs := by
  induction ps with
  | nil => rfl
  | cons p rest ih => rw [List.cons_append, linesOf, ih, linesOf, List.append_assoc]

theorem linesOf_ofLines (ls : List Line) : linesOf (ofLines ls) = ls := by
  induction ls with
  | nil => rfl
  | cons l rest ih => exact congrArg (l :: ·) ih

theorem ofInstrs_eq (is : List Instr) : ofInstrs is = ofLines (is.map .instr) := by
  rw [ofInstrs, ofLines, List.map_map]
  rfl

theorem linesOf_ofInstrs (is : List Instr) : linesOf (ofInstrs is) = is.map .instr := by
  rw [ofInstrs_eq, linesOf_ofLines]

theorem linesOf_function : linesOf [.function label ps] = functionHeader label ++ linesOf ps ++ [functionFooter label] :=
  List.append_nil _

/-- Pieces without directives are lines. -/
theorem eq_ofLines (h : ∀ l ∈ linesOf ps, ∀ d, l ≠ .directive d) : ps = ofLines (linesOf ps) := by
  induction ps with
  | nil => rfl
  | cons p rest ih =>
      rw [linesOf] at h ⊢
      have hrest := ih fun l hl => h l (List.mem_append_right _ hl)
      cases p with
      | line l => exact congrArg (Part.line l :: ·) hrest
      | function label body => exact absurd rfl (h _ (List.mem_append_left _ List.mem_cons_self) (.align 1))

/-- A label that stands twice among pieces stands twice among their lines. -/
theorem label_unique {k k' : Nat} {x : String} (hnodup : (labelNames (linesOf ps)).Nodup)
    (hk : ps[k]? = some (.line (.label x))) (hk' : ps[k']? = some (.line (.label x))) : k = k' := by
  have hmem : ∀ {ps : List Part} {k : Nat}, ps[k]? = some (.line (.label x)) → x ∈ labelNames (linesOf ps) := by
    intro ps k hk
    obtain ⟨before, after, rfl⟩ := List.append_of_mem (List.mem_of_getElem? hk)
    rw [linesOf_append, labelNames_append]
    exact List.mem_append_right _ List.mem_cons_self
  induction ps generalizing k k' with
  | nil => exact absurd hk (by simp)
  | cons p rest ih =>
      rw [linesOf, labelNames_append] at hnodup
      obtain ⟨_, hrest, hdisjoint⟩ := List.nodup_append.mp hnodup
      -- the first piece is the label only if no later one is
      have hfirst : ∀ {j : Nat}, p = .line (.label x) → rest[j]? = some (.line (.label x)) → False := by
        rintro j rfl hj
        exact hdisjoint x List.mem_cons_self x (hmem hj) rfl
      cases k with
      | zero =>
          cases k' with
          | zero => rfl
          | succ k' => exact (hfirst (by simpa using hk) (by simpa using hk')).elim
      | succ k =>
          cases k' with
          | zero => exact (hfirst (by simpa using hk') (by simpa using hk)).elim
          | succ k' => exact congrArg (· + 1) (ih hrest (by simpa using hk) (by simpa using hk'))

end Lines

/-! ## What instructions do to control and to the stack pointer -/

namespace Instr

/-- The label that control may go to. -/
def target? : Instr → Option String
  | .branch _ _ _ label => some label
  | .beqz _ label => some label
  | .jump label => some label
  | _ => none

/-- The register that an instruction writes itself. -/
def dest? : Instr → Option Register
  | .alu _ rd _ _ | .addi rd _ _ | .neg rd _ | .not rd _ | .ld rd _ _ | .li rd _ | .la rd _ => some rd
  | _ => none

/-- How far an instruction moves the stack pointer. -/
def stackMove : Instr → Int
  | .addi .sp .sp imm => imm
  | _ => 0

/-- The stack pointer is moved by `stackMove` and not written otherwise. -/
def MovesStack (i : Instr) : Prop := i.dest? = some .sp → ∃ imm, i = .addi .sp .sp imm

/-- The displacement behind an instruction; behind a return the text goes on at the level of the frame. -/
def after (base d : Int) : Instr → Int
  | .ret => base
  | i => d + i.stackMove

end Instr

/-- Control may go on to the next line. -/
def Line.leadsOn : Line → Bool
  | .instr (.jump _) | .instr .ret => false
  | _ => true

/-- How far a line moves the stack pointer. -/
def Line.stackMove : Line → Int
  | .instr i => i.stackMove
  | _ => 0

/-- **The ways of control** through the pieces of a function: control is at a piece, with the stack pointer
    displaced. Calls come back with the stack pointer as it was. -/
inductive Runs (ps : List Part) : Nat → Int → Prop
  | start : Runs ps 0 0
  | next {k : Nat} {d : Int} {l : Line} (h : Runs ps k d) (hk : ps[k]? = some (.line l)) (hl : l.leadsOn = true) :
      Runs ps (k + 1) (d + l.stackMove)
  | jump {k k' : Nat} {d : Int} {i : Instr} {x : String} (h : Runs ps k d)
      (hk : ps[k]? = some (.line (.instr i))) (hx : i.target? = some x)
      (hk' : ps[k']? = some (.line (.label x))) : Runs ps k' d

/-! ## Levels -/

/-- The displacement behind a piece. -/
def Part.after (base d : Int) : Part → Int
  | .line (.instr i) => i.after base d
  | _ => d

/-- The displacement behind pieces, read off line after line. -/
def level (base d : Int) (ps : List Part) : Int := ps.foldl (Part.after base) d

/-- Pieces with the displacement in front of each. -/
def spots (base : Int) : Int → List Part → List (Part × Int)
  | _, [] => []
  | d, p :: rest => (p, d) :: spots base (p.after base d) rest

section Levels

variable {base d : Int} {ps qs : List Part}

theorem level_append : level base d (ps ++ qs) = level base (level base d ps) qs := List.foldl_append

theorem spots_append : spots base d (ps ++ qs) = spots base d ps ++ spots base (level base d ps) qs := by
  induction ps generalizing d with
  | nil => rfl
  | cons p rest ih => exact congrArg ((p, d) :: ·) ih

theorem getElem?_spots (k : Nat) :
    (spots base d ps)[k]? = ps[k]?.map fun p => (p, level base d (ps.take k)) := by
  induction ps generalizing d k with
  | nil => rfl
  | cons p rest ih =>
      cases k with
      | zero => rfl
      | succ k =>
          rw [spots, List.getElem?_cons_succ, ih, List.getElem?_cons_succ, List.take_succ_cons]
          rfl

theorem mem_spots {k : Nat} {p : Part} (hk : ps[k]? = some p) : (p, level base d (ps.take k)) ∈ spots base d ps := by
  refine List.mem_of_getElem? (i := k) ?_
  rw [getElem?_spots, hk]
  rfl

theorem mem_of_mem_spots {p : Part} {e : Int} (h : (p, e) ∈ spots base d ps) : p ∈ ps := by
  obtain ⟨k, hk⟩ := List.mem_iff_getElem?.mp h
  rw [getElem?_spots, Option.map_eq_some_iff] at hk
  obtain ⟨q, hq, hpair⟩ := hk
  obtain ⟨rfl, _⟩ := Prod.mk.inj hpair
  exact List.mem_of_getElem? hq

theorem level_take_succ {k : Nat} {p : Part} (hk : ps[k]? = some p) :
    level base d (ps.take (k + 1)) = p.after base (level base d (ps.take k)) := by
  rw [List.take_add_one, hk, level_append]
  rfl

end Levels

/-- **The flow of control keeps its levels.** From level `d` to level `d'`, every jump goes to a label at its
    own level, or to one of the `loose` labels, at the level given there; the labels of `placed` stand at the
    level given there. Instructions stay below the frame, at level `base`, but for returns, which are at the
    level of the entry. -/
structure Flows (base : Int) (loose placed : List (String × Int)) (d : Int) (ps : List Part) (d' : Int) : Prop where
  level_eq : level base d ps = d'
  target : ∀ {i : Instr} {e : Int} {x : String}, (.line (.instr i), e) ∈ spots base d ps → i.target? = some x →
    (x, e) ∈ loose ∨ (.line (.label x), e) ∈ spots base d ps
  label : ∀ {x : String} {e : Int}, (x, e) ∈ placed → (.line (.label x), e) ∈ spots base d ps
  bound : ∀ {i : Instr} {e : Int}, (.line (.instr i), e) ∈ spots base d ps → e ≤ base ∨ i = .ret
  returns : ∀ {e : Int}, (.line (.instr .ret), e) ∈ spots base d ps → e = 0
  stack : ∀ {i : Instr} {e : Int}, (.line (.instr i), e) ∈ spots base d ps → i.MovesStack

namespace Flows

variable {base d d' d'' : Int} {loose loose' placed placed' : List (String × Int)} {ps qs : List Part}

theorem nil : Flows base [] [] d [] d :=
  ⟨rfl, fun h => absurd h List.not_mem_nil, fun h => absurd h List.not_mem_nil, fun h => absurd h List.not_mem_nil,
    fun h => absurd h List.not_mem_nil, fun h => absurd h List.not_mem_nil⟩

/-- One text after another. -/
theorem append (h : Flows base loose placed d ps d') (h' : Flows base loose' placed' d' qs d'') :
    Flows base (loose ++ loose') (placed ++ placed') d (ps ++ qs) d'' := by
  have hspots : spots base d (ps ++ qs) = spots base d ps ++ spots base d' qs := by rw [spots_append, h.level_eq]
  refine ⟨by rw [level_append, h.level_eq, h'.level_eq], ?_, ?_, ?_, ?_, ?_⟩
  · intro i e x hi hx
    rw [hspots, List.mem_append] at hi
    rw [hspots]
    rcases hi with hi | hi
    · exact (h.target hi hx).imp (List.mem_append_left _) (List.mem_append_left _)
    · exact (h'.target hi hx).imp (List.mem_append_right _) (List.mem_append_right _)
  · intro x e hx
    rw [hspots, List.mem_append]
    exact (List.mem_append.mp hx).imp h.label h'.label
  · intro i e hi
    rw [hspots, List.mem_append] at hi
    exact hi.elim h.bound h'.bound
  · intro e hi
    rw [hspots, List.mem_append] at hi
    exact hi.elim h.returns h'.returns
  · intro i e hi
    rw [hspots, List.mem_append] at hi
    exact hi.elim h.stack h'.stack

/-- A jump to a label that is placed at its level is settled. -/
theorem settle {x : String} {e : Int} (h : Flows base ((x, e) :: loose) placed d ps d') (hx : (x, e) ∈ placed) :
    Flows base loose placed d ps d' := by
  refine ⟨h.level_eq, fun hi ht => ?_, h.label, h.bound, h.returns, h.stack⟩
  rcases h.target hi ht with hmem | hmem
  · rcases List.mem_cons.mp hmem with heq | hmem
    · obtain ⟨rfl, rfl⟩ := Prod.mk.inj heq
      exact Or.inr (h.label hx)
    · exact Or.inl hmem
  · exact Or.inr hmem

/-- Which jumps are loose may be forgotten, and which labels are placed. -/
theorem mono (h : Flows base loose placed d ps d') (hl : ∀ x ∈ loose, x ∈ loose') (hp : ∀ x ∈ placed', x ∈ placed) :
    Flows base loose' placed' d ps d' :=
  ⟨h.level_eq, fun hi hx => (h.target hi hx).imp_left (hl _), fun hx => h.label (hp _ hx), h.bound, h.returns, h.stack⟩

/-- A label is placed. -/
theorem place (x : String) : Flows base [] [(x, d)] d (ofLines [.label x]) d := by
  refine ⟨rfl, ?_, ?_, ?_, ?_, ?_⟩ <;> simp [ofLines, spots]

/-- A whole function is one piece, at whatever level. -/
theorem function (label : String) (body : List Part) : Flows base [] [] d [.function label body] d := by
  refine ⟨rfl, ?_, ?_, ?_, ?_, ?_⟩ <;> simp [spots]

/-- Instructions keep their levels, one by one. -/
def Steps (base : Int) (loose : List (String × Int)) : Int → List Instr → Prop
  | _, [] => True
  | d, i :: rest => (∀ x, i.target? = some x → (x, d) ∈ loose) ∧ (d ≤ base ∨ i = .ret) ∧ (i = .ret → d = 0) ∧
      i.MovesStack ∧ Steps base loose (i.after base d) rest

theorem steps_append {is is' : List Instr} : Steps base loose d (is ++ is') ↔
    Steps base loose d is ∧ Steps base loose (level base d (ofInstrs is)) is' := by
  induction is generalizing d with
  | nil => simp [Steps, level, ofInstrs]
  | cons i rest ih =>
      simp only [List.cons_append, Steps, ih, and_assoc]
      rfl

/-- Instructions in a row, perhaps with comments between them. -/
theorem of_steps {is : List Instr} {new : List Line} (h : Steps base loose d is)
    (hnew : new.filter (fun l => !l.isComment) = is.map Line.instr) :
    Flows base loose [] d (ofLines new) (level base d (ofInstrs is)) := by
  induction new generalizing is d with
  | nil =>
      obtain rfl : is = [] := List.map_eq_nil_iff.mp hnew.symm
      exact nil.mono (by simp) (by simp)
  | cons l rest ih =>
      by_cases hcomment : l.isComment = true
      · -- a comment has no part in it
        rw [List.filter_cons_of_neg (by simpa using hcomment)] at hnew
        have hone : Flows base [] [] d [.line l] d := by
          cases l with
          | comment text => refine ⟨rfl, ?_, ?_, ?_, ?_, ?_⟩ <;> simp [spots]
          | instr i => exact absurd hcomment Bool.false_ne_true
          | directive x => exact absurd hcomment Bool.false_ne_true
          | label name => exact absurd hcomment Bool.false_ne_true
        exact hone.append (ih h hnew)
      · rw [List.filter_cons_of_pos (by simpa using hcomment)] at hnew
        cases is with
        | nil => exact absurd hnew (by simp)
        | cons i is =>
            obtain ⟨rfl, hrestnew⟩ := List.cons.inj hnew
            obtain ⟨htarget, hbound, hret, hstack, hrest⟩ := h
            have hone : Flows base loose [] d [.line (.instr i)] (i.after base d) := by
              refine ⟨rfl, ?_, by simp, ?_, ?_, ?_⟩
              · intro j e x hj hx
                obtain ⟨rfl, rfl⟩ : j = i ∧ e = d := by simpa [spots] using hj
                exact Or.inl (htarget x hx)
              · intro j e hj
                obtain ⟨rfl, rfl⟩ : j = i ∧ e = d := by simpa [spots] using hj
                exact hbound
              · intro e hj
                obtain ⟨hi, rfl⟩ : .ret = i ∧ e = d := by simpa [spots] using hj
                exact hret hi.symm
              · intro j e hj
                obtain ⟨rfl, rfl⟩ : j = i ∧ e = d := by simpa [spots] using hj
                exact hstack
            have happend := hone.append (ih hrest hrestnew)
            exact happend.mono (fun x hx => (List.mem_append.mp hx).elim id id) (by simp)

end Flows

/-! ## Linear code -/

/-- The instruction only works on registers and memory. -/
structure Instr.IsPlain (i : Instr) : Prop where
  target : i.target? = none
  stackMove : i.stackMove = 0
  dest : i.dest? ≠ some .sp
  ne_ret : i ≠ .ret
  ne_call : ∀ x, i ≠ .call x
  ne_la : ∀ r x, i ≠ .la r x

/-- **Linear code**: instructions that lead on from one to the next, take at most `n` bytes off the stack on
    the way and move it by `δ` in all, from whatever level they start. -/
structure Linear (n δ : Int) (is : List Instr) : Prop where
  steps : ∀ {base d : Int}, d + n ≤ base → Flows.Steps base [] d is
  level_eq : ∀ base d : Int, level base d (ofInstrs is) = d + δ
  leadsOn : ∀ i ∈ is, (Line.instr i).leadsOn = true
  ne_call : ∀ i ∈ is, ∀ x, i ≠ .call x
  ne_la : ∀ i ∈ is, ∀ r x, i ≠ .la r x

namespace Linear

variable {n n' m δ δ' : Int} {is is' : List Instr} {r : Register}

theorem append (h : Linear n δ is) (h' : Linear n' δ' is') (hn : n ≤ m) (hn' : δ + n' ≤ m) :
    Linear m (δ + δ') (is ++ is') := by
  have hmem : ∀ {i}, i ∈ is ++ is' → i ∈ is ∨ i ∈ is' := List.mem_append.mp
  refine ⟨fun {base d} hd => ?_, fun base d => ?_, fun i hi => (hmem hi).elim (h.leadsOn i) (h'.leadsOn i),
    fun i hi => (hmem hi).elim (h.ne_call i) (h'.ne_call i), fun i hi => (hmem hi).elim (h.ne_la i) (h'.ne_la i)⟩
  · rw [Flows.steps_append, h.level_eq]
    exact ⟨h.steps (by omega), h'.steps (by omega)⟩
  · rw [ofInstrs, List.map_append, level_append]
    show level base (level base d (ofInstrs is)) (ofInstrs is') = _
    rw [h.level_eq, h'.level_eq]
    omega

theorem plain (h : ∀ i ∈ is, i.IsPlain) : Linear 0 0 is := by
  have hafter : ∀ i ∈ is, ∀ base d : Int, i.after base d = d := by
    intro i hi base d
    have hmove := (h i hi).stackMove
    cases i with
    | ret => exact absurd rfl (h _ hi).ne_ret
    | _ => exact (congrArg (d + ·) hmove).trans (Int.add_zero d)
  have hleads : ∀ i ∈ is, (Line.instr i).leadsOn = true := by
    intro i hi
    cases i with
    | jump x => exact absurd (h _ hi).target (by simp [Instr.target?])
    | ret => exact absurd rfl (h _ hi).ne_ret
    | _ => rfl
  refine ⟨?_, ?_, hleads, fun i hi => (h i hi).ne_call, fun i hi => (h i hi).ne_la⟩
  -- both remaining parts go through the list, with the level the same at every instruction
  · intro base d hd
    clear hleads
    induction is with
    | nil => trivial
    | cons i rest ih =>
        have hi := h i List.mem_cons_self
        refine ⟨fun x hx => absurd (hi.target.symm.trans hx) (by simp), Or.inl (by omega),
          fun hret => absurd hret hi.ne_ret, fun hdest => absurd hdest hi.dest, ?_⟩
        rw [hafter i List.mem_cons_self]
        exact ih (fun j hj => h j (List.mem_cons_of_mem i hj)) fun j hj => hafter j (List.mem_cons_of_mem i hj)
  · intro base d
    rw [Int.add_zero]
    clear h hleads
    induction is with
    | nil => rfl
    | cons i rest ih =>
        show level base (i.after base d) (ofInstrs rest) = d
        rw [hafter i List.mem_cons_self]
        exact ih fun j hj => hafter j (List.mem_cons_of_mem i hj)

theorem nil : Linear 0 0 [] := plain fun _ h => absurd h List.not_mem_nil

/-- A value is put on the stack. -/
theorem push (r : Register) : Linear 0 (-8) (push r) := by
  refine ⟨fun {base d} hd => ?_, fun base d => Int.add_zero _, by simp [Machine.push, Line.leadsOn], by simp [Machine.push],
    by simp [Machine.push]⟩
  refine ⟨fun x hx => absurd hx (by simp [Instr.target?]), Or.inl (by omega), by simp, fun _ => ⟨_, rfl⟩, ?_⟩
  refine ⟨fun x hx => absurd hx (by simp [Instr.target?]), Or.inl ?_, by simp,
    fun h => absurd h (by simp [Instr.dest?]), trivial⟩
  show d + -8 ≤ base
  omega

/-- A value is taken off the stack. -/
theorem pop (hr : r ≠ .sp) : Linear 8 8 (pop r) := by
  refine ⟨fun {base d} hd => ?_, fun base d => ?_, by simp [Machine.pop, Line.leadsOn], by simp [Machine.pop],
    by simp [Machine.pop]⟩
  · refine ⟨fun x hx => absurd hx (by simp [Instr.target?]), Or.inl (by omega), by simp,
      fun h => absurd (Option.some.inj h) hr, ?_⟩
    refine ⟨fun x hx => absurd hx (by simp [Instr.target?]), Or.inl ?_, by simp, fun _ => ⟨_, rfl⟩, trivial⟩
    show d + 0 ≤ base
    omega
  · show d + 0 + 8 = d + 8
    omega

/-- Values are taken off the stack, one after the other. -/
theorem pops {rs : List Register} (hrs : ∀ r ∈ rs, r ≠ .sp) :
    Linear (8 * rs.length) (8 * rs.length) (rs.flatMap Machine.pop) := by
  induction rs with
  | nil => exact nil
  | cons r rest ih =>
      have hpop := pop (hrs r List.mem_cons_self)
      have hrest := ih fun q hq => hrs q (List.mem_cons_of_mem r hq)
      have hlen : (8 : Int) + 8 * (rest.length : Nat) = 8 * ((r :: rest).length : Nat) := by
        rw [List.length_cons]
        omega
      have happend := hpop.append (m := 8 * ((r :: rest).length : Nat)) hrest (by omega) (by omega)
      rw [hlen] at happend
      exact happend

end Linear

/-! ## Whole functions -/

/-- **The last line that is not a comment returns.** -/
def EndsInReturn (ps : List Part) : Prop :=
  ∃ before after : List Part, ps = before ++ .line (.instr .ret) :: after ∧ ∀ p ∈ after, ∃ text, p = .line (.comment text)

/-- Pieces whose lines are comments. -/
theorem comments_of_lines {ps : List Part} (h : ∀ l ∈ linesOf ps, l.isComment = true) :
    ∀ p ∈ ps, ∃ text, p = .line (.comment text) := by
  intro p hp
  obtain ⟨before, after, rfl⟩ := List.append_of_mem hp
  rw [linesOf_append, linesOf] at h
  have hlines : ∀ l ∈ p.lines, l.isComment = true :=
    fun l hl => h l (List.mem_append_right _ (List.mem_append_left _ hl))
  cases p with
  | function f body => exact absurd (hlines (.directive (.align 1)) List.mem_cons_self) Bool.false_ne_true
  | line l =>
      cases l with
      | comment text => exact ⟨text, rfl⟩
      | _ => exact absurd (hlines _ List.mem_cons_self) Bool.false_ne_true

/-- A function's lines end with its footer. -/
theorem function_lines_ne {f : String} {body : List Part} {front comments : List Line}
    (hcomments : ∀ l ∈ comments, l.isComment = true) :
    (Part.function f body).lines ≠ front ++ .instr .ret :: comments := by
  intro h
  have hlast := congrArg List.getLast? h
  have hfooter : functionFooter f = comments.getLast?.getD (.instr .ret) := by
    simpa [Part.lines, List.getLast?_append, List.getLast?_cons] using hlast
  cases hc : comments.getLast? with
  | none => rw [hc] at hfooter; exact absurd hfooter (by simp [functionFooter])
  | some l =>
      rw [hc, Option.getD_some] at hfooter
      have hcomment := hcomments l (List.mem_of_getLast? hc)
      rw [← hfooter] at hcomment
      exact absurd hcomment Bool.false_ne_true

/-- The last line that is not a comment belongs to the pieces themselves. -/
theorem endsInReturn_of_lines {ps : List Part} (front comments : List Line)
    (h : linesOf ps = front ++ .instr .ret :: comments) (hcomments : ∀ l ∈ comments, l.isComment = true) :
    EndsInReturn ps := by
  induction ps generalizing front with
  | nil => exact absurd h.symm (by simp [linesOf])
  | cons p rest ih =>
      rw [linesOf] at h
      rcases List.append_eq_append_iff.mp h with ⟨front', _, hrest⟩ | ⟨tail, hp, htail⟩
      · obtain ⟨before, after, rfl, hafter⟩ := ih front' hrest
        exact ⟨p :: before, after, rfl, hafter⟩
      · cases tail with
        | nil =>
            obtain ⟨before, after, rfl, hafter⟩ := ih [] htail.symm
            exact ⟨p :: before, after, rfl, hafter⟩
        | cons l tail =>
            obtain ⟨rfl, rfl⟩ := List.cons.inj htail
            have hrest : ∀ l ∈ linesOf rest, l.isComment = true := fun l hl => hcomments l (List.mem_append_right _ hl)
            cases p with
            | function f body => exact absurd hp (function_lines_ne fun l hl => hcomments l (List.mem_append_left _ hl))
            | line l =>
                -- a line is one line: nothing stands in front of the return or behind it
                obtain ⟨rfl, rfl⟩ : l = .instr .ret ∧ front = [] := by
                  cases front with
                  | nil => exact ⟨(List.cons.inj hp).1, rfl⟩
                  | cons x xs => exact absurd (List.cons.inj hp).2.symm (by simp)
                exact ⟨[], rest, rfl, comments_of_lines hrest⟩

/-- **The pieces of a function**: a frame is opened, control keeps its levels inside it, its labels are all
    different, and it returns at its end. -/
structure Framed (frame : Frame) (body : List Part) : Prop where
  opens : ∃ rest, body = ofInstrs frame.prologue ++ rest ∧ Flows (-frame.size) [] [] (-frame.size) rest (-frame.size)
  labels : (labelNames (linesOf body)).Nodup
  ends : EndsInReturn body

/-- **The pieces of a text**: lines, and functions of this kind. Inside another function control jumps over a
    function, to the label behind it. -/
inductive Laid : Bool → List Part → Prop
  | nil {inside : Bool} : Laid inside []
  | line {inside : Bool} {l : Line} {rest : List Part} (hl : ∀ d, l ≠ .directive d) (hrest : Laid inside rest) :
      Laid inside (.line l :: rest)
  | nested {x f : String} {frame : Frame} {body rest : List Part} (hframed : Framed frame body)
      (hbody : Laid true body) (hrest : Laid true rest) :
      Laid true (.line (.instr (.jump x)) :: .function f body :: .line (.label x) :: rest)
  | outermost {f : String} {frame : Frame} {body rest : List Part} (hframed : Framed frame body)
      (hbody : Laid true body) (hrest : Laid false rest) : Laid false (.function f body :: rest)

namespace Laid

variable {inside : Bool} {ps qs : List Part}

theorem append (h : Laid inside ps) (h' : Laid inside qs) : Laid inside (ps ++ qs) := by
  induction h with
  | nil => exact h'
  | line hl _ ih => exact .line hl (ih h')
  | nested hframed hbody _ _ ih => exact .nested hframed hbody (ih h')
  | outermost hframed hbody _ _ ih => exact .outermost hframed hbody (ih h')

theorem ofLines {ls : List Line} (h : ∀ l ∈ ls, ∀ d, l ≠ .directive d) : Laid inside (ofLines ls) := by
  induction ls with
  | nil => exact .nil
  | cons l rest ih => exact .line (h l List.mem_cons_self) (ih fun l' hl' => h l' (List.mem_cons_of_mem l hl'))

/-- A function inside another one stands between a jump and the label it goes to. -/
theorem around_function (h : Laid true ps) {k : Nat} {f : String} {body : List Part}
    (hk : ps[k]? = some (.function f body)) :
    ∃ j x, k = j + 1 ∧ ps[j]? = some (.line (.instr (.jump x))) ∧ ps[k + 1]? = some (.line (.label x)) := by
  generalize hb : true = inside at h
  induction h generalizing k with
  | nil => exact absurd hk (by simp)
  | line _ _ ih =>
      cases k with
      | zero => exact absurd hk (by simp)
      | succ k =>
          obtain ⟨j, x, rfl, hj, hnext⟩ := ih hk hb
          exact ⟨j + 1, x, rfl, hj, hnext⟩
  | @nested x _ _ _ rest _ _ _ _ ih =>
      match k with
      | 0 => exact absurd hk (by simp)
      | 1 => exact ⟨0, x, rfl, rfl, rfl⟩
      | 2 => exact absurd hk (by simp)
      | k + 3 =>
          obtain ⟨j, x, rfl, hj, hnext⟩ := ih hk rfl
          exact ⟨j + 3, x, rfl, hj, hnext⟩
  | outermost => exact absurd hb (by simp)

end Laid

/-! ## Ways through a function -/

section Ways

variable {frame : Frame} {body : List Part} {k : Nat} {d : Int}

theorem level_prologue (frame : Frame) :
    level (-frame.size) 0 (ofInstrs frame.prologue) = -frame.size := by
  simp [level, ofInstrs, Frame.prologue, Part.after, Instr.after, Instr.stackMove]

/-- Jumps keep the level that a function's text has from its entry on. -/
theorem Framed.target (h : Framed frame body) {i : Instr} {e : Int} {x : String}
    (hi : (.line (.instr i), e) ∈ spots (-frame.size) 0 body) (hx : i.target? = some x) :
    (.line (.label x), e) ∈ spots (-frame.size) 0 body := by
  obtain ⟨rest, rfl, hflows⟩ := h.opens
  rw [spots_append, level_prologue, List.mem_append] at hi ⊢
  rcases hi with hi | hi
  · -- no instruction that opens a frame jumps
    have hnone : i.target? = none := by
      simp [spots, ofInstrs, Frame.prologue] at hi
      rcases hi with ⟨rfl, _⟩ | ⟨rfl, _⟩ | ⟨rfl, _⟩ | ⟨rfl, _⟩ <;> rfl
    exact absurd (hnone.symm.trans hx) (by simp)
  · exact (hflows.target hi hx).elim (fun hmem => absurd hmem List.not_mem_nil) Or.inr

/-- **Wherever control comes, the displacement is the level of the text**, if jumps keep their level and
    labels are all different. -/
theorem Runs.level_eq {base : Int} (hrun : Runs body k d) (hlabels : (labelNames (linesOf body)).Nodup)
    (htarget : ∀ {i : Instr} {e : Int} {x : String}, (.line (.instr i), e) ∈ spots base 0 body →
      i.target? = some x → (.line (.label x), e) ∈ spots base 0 body) :
    d = level base 0 (body.take k) := by
  induction hrun with
  | start => rfl
  | @next k d l _ hk hl ih =>
      rw [level_take_succ hk, ← ih]
      cases l with
      | instr i => cases i <;> first | rfl | exact absurd hl Bool.false_ne_true
      | directive x => exact Int.add_zero d
      | label x => exact Int.add_zero d
      | comment x => exact Int.add_zero d
  | @jump k k' d i x _ hk hx hk' ih =>
      have hspot : (.line (.instr i), d) ∈ spots base 0 body := ih ▸ mem_spots hk
      obtain ⟨j, hj⟩ := List.mem_iff_getElem?.mp (htarget hspot hx)
      rw [getElem?_spots, Option.map_eq_some_iff] at hj
      obtain ⟨p, hp, heq⟩ := hj
      obtain ⟨rfl, rfl⟩ := Prod.mk.inj heq
      rw [label_unique hlabels hk' hp]

theorem Framed.level_eq (h : Framed frame body) (hrun : Runs body k d) : d = level (-frame.size) 0 (body.take k) :=
  hrun.level_eq h.labels h.target

/-- **Control stays inside a function**: it comes to lines only, and not behind the last return. -/
theorem Runs.exists_line (hrun : Runs body k d) (h : Framed frame body) (hlaid : Laid true body) :
    ∃ l, body[k]? = some (.line l) := by
  obtain ⟨before, after, hbody, hafter⟩ := h.ends
  have hlast : body[before.length]? = some (.line (.instr .ret)) := by rw [hbody]; simp
  -- behind the last return there are comments only, which nothing jumps to
  have hle : k ≤ before.length := by
    induction hrun with
    | start => exact Nat.zero_le _
    | @next k d l _ hk hl ih =>
        rcases Nat.lt_or_eq_of_le ih with hlt | rfl
        · exact hlt
        · obtain rfl : Line.instr .ret = l := by simpa using hlast.symm.trans hk
          exact absurd hl Bool.false_ne_true
    | @jump k k' d i x _ _ _ hk' _ =>
        refine Nat.le_of_not_lt fun hgt => ?_
        rw [hbody, List.getElem?_append_right (by omega)] at hk'
        obtain ⟨j, hj⟩ : ∃ j, k' - before.length = j + 1 := ⟨k' - before.length - 1, by omega⟩
        rw [hj, List.getElem?_cons_succ] at hk'
        obtain ⟨text, htext⟩ := hafter _ (List.mem_of_getElem? hk')
        exact absurd htext (by simp)
  have hlt : k < body.length := by
    rw [hbody, List.length_append, List.length_cons]
    omega
  cases hp : body[k] with
  | line l => exact ⟨l, by rw [List.getElem?_eq_getElem hlt, hp]⟩
  | function f inner =>
      -- in front of a function stands a jump, so control does not come from there
      have hk : body[k]? = some (.function f inner) := by rw [List.getElem?_eq_getElem hlt, hp]
      obtain ⟨j, x, rfl, hj, _⟩ := hlaid.around_function hk
      cases hrun with
      | @next _ _ l _ hk' hl =>
          obtain rfl : Line.instr (.jump x) = l := by simpa using hj.symm.trans hk'
          exact absurd hl Bool.false_ne_true
      | jump _ _ _ hk' => exact absurd (hk.symm.trans hk') (by simp)

/-- Below the frame, and at the level of the entry where it returns. -/
theorem Framed.bound (h : Framed frame body) {i : Instr} (hk : body[k]? = some (.line (.instr i)))
    (hge : frame.prologue.length ≤ k) :
    (level (-frame.size) 0 (body.take k) ≤ -frame.size ∨ i = .ret) ∧
      (i = .ret → level (-frame.size) 0 (body.take k) = 0) := by
  obtain ⟨rest, rfl, hflows⟩ := h.opens
  obtain ⟨j, rfl⟩ := Nat.exists_eq_add_of_le hge
  have hlen : frame.prologue.length = (ofInstrs frame.prologue).length := by simp [ofInstrs]
  have htake : (ofInstrs frame.prologue ++ rest).take (frame.prologue.length + j) =
      ofInstrs frame.prologue ++ rest.take j := by rw [hlen, List.take_length_add_append]
  rw [hlen, List.getElem?_append_right (Nat.le_add_right _ _), Nat.add_sub_cancel_left] at hk
  rw [htake, level_append, level_prologue]
  refine ⟨hflows.bound (mem_spots hk), ?_⟩
  rintro rfl
  exact hflows.returns (mem_spots hk)

/-- An instruction that has no part in opening the frame stands behind those that have. -/
theorem Framed.prologue_le (h : Framed frame body) {i : Instr} (hk : body[k]? = some (.line (.instr i)))
    (hi : i ∉ frame.prologue) : frame.prologue.length ≤ k := by
  obtain ⟨rest, rfl, _⟩ := h.opens
  refine Nat.le_of_not_lt fun hlt => hi ?_
  rw [List.getElem?_append_left (by simpa [ofInstrs] using hlt)] at hk
  simpa [ofInstrs] using List.mem_of_getElem? hk

/-- The stack pointer is only ever added to. -/
theorem Framed.movesStack (h : Framed frame body) {i : Instr} (hk : body[k]? = some (.line (.instr i))) :
    i.MovesStack := by
  by_cases hi : i ∈ frame.prologue
  · -- the frame pointer is set from the stack pointer, not the other way round
    simp only [Frame.prologue, List.mem_cons, List.not_mem_nil, or_false] at hi
    rcases hi with rfl | rfl | rfl | rfl
    · exact fun _ => ⟨_, rfl⟩
    · exact fun hdest => absurd hdest (by simp [Instr.dest?])
    · exact fun hdest => absurd hdest (by simp [Instr.dest?])
    · exact fun hdest => absurd hdest (by simp [Instr.dest?])
  · have hge := h.prologue_le hk hi
    obtain ⟨rest, rfl, hflows⟩ := h.opens
    rw [List.getElem?_append_right (by simpa [ofInstrs] using hge)] at hk
    exact hflows.stack (mem_spots hk)

/-- A frame is closed with nothing on the evaluation stack, since the return behind it finds the stack as it
    was at the entry. -/
theorem Framed.level_epilogue (h : Framed frame body)
    (hk : (body.drop k).take frame.epilogue.length = ofInstrs frame.epilogue) :
    level (-frame.size) 0 (body.take k) = -frame.size := by
  have hlength : frame.epilogue.length = 4 := rfl
  have hget : ∀ j < 4, body[k + j]? = (ofInstrs frame.epilogue)[j]? := by
    intro j hj
    rw [← hk, List.getElem?_take_of_lt (hlength ▸ hj), List.getElem?_drop]
  have hge := h.prologue_le (hget 0 (by decide)) (by simp [Frame.prologue])
  have hentry := (h.bound (hget 3 (by decide)) (Nat.le_add_right_of_le hge)).2 rfl
  have hlevel : level (-frame.size) 0 (body.take (k + 3)) = level (-frame.size) 0 (body.take k) + frame.size := by
    rw [level_take_succ (hget 2 (by decide)), level_take_succ (hget 1 (by decide)), level_take_succ (hget 0 (by decide))]
    simp [Part.after, Instr.after, Instr.stackMove]
  omega

end Ways

end Offside.Machine
