import Offside.Proofs.Correctness
import Offside.Proofs.Idioms

/-!
# `Proofs.Roles` — what each register is written for

The idioms of a text (`Proofs.Idioms`) say for each register which instructions write it and on what
occasion. `Writes` is the table of those occasions, `Idiom.Proper.writes` reads it off the idioms, and
`registers_keep_roles` says it of a whole listing: of the instructions of the module, and of those of each
function, with the definition that the function comes from and the registers of its parameters.
-/

namespace Offside

open Machine

namespace Machine

/-- The registers that an instruction writes; a call leaves a return address and a result. -/
def Instr.writes : Instr → List Register
  | .call _ => [.ra, resultRegister]
  | i => i.dest?.toList

section Regions

variable {front : List Line} {ps qs : List Part} {r : Region}

theorem regionsOf_append (start : Nat) :
    regionsOf start (ps ++ qs) = regionsOf start ps ++ regionsOf (start + (linesOf ps).length) qs := by
  induction ps generalizing start with
  | nil => rfl
  | cons p rest ih =>
      rw [List.cons_append, regionsOf, regionsOf, ih, linesOf, List.length_append, List.append_assoc, Nat.add_assoc]

theorem regionsOf_ofLines (start : Nat) (ls : List Line) : regionsOf start (ofLines ls) = [] := by
  induction ls generalizing start with
  | nil => rfl
  | cons l rest ih => exact ih _

theorem Region.place_le (hr : r ∈ regionsOf front.length ps) (k : Nat) :
    r.place k ≤ (front ++ linesOf ps).length := by
  obtain ⟨_, _, _, hdrop⟩ := Region.take_place front hr k
  by_contra hlt
  rw [List.drop_eq_nil_of_le (by omega)] at hdrop
  exact absurd hdrop (by simp)

/-- The lines between two pieces of a function. -/
theorem Region.take_place_add (hr : r ∈ regionsOf front.length ps) (j k : Nat) :
    (front ++ linesOf ps).take (r.place (j + k)) =
      (front ++ linesOf ps).take (r.place j) ++ linesOf ((r.body.drop j).take k) := by
  obtain ⟨_, after, _, hdrop⟩ := Region.take_place front hr j
  have hplace : r.place (j + k) = r.place j + (linesOf ((r.body.drop j).take k)).length := by
    rw [Region.place, Region.place, List.take_add, linesOf_append, List.length_append, ← Nat.add_assoc]
  have hsplit : linesOf (r.body.drop j) = linesOf ((r.body.drop j).take k) ++ linesOf ((r.body.drop j).drop k) := by
    rw [← linesOf_append, List.take_append_drop]
  rw [hplace, List.take_add, hdrop, hsplit, List.append_assoc, List.append_assoc, List.take_left]

end Regions

end Machine

namespace Lower

/-! ## Places -/

section Places

variable {I : Milestone → State → Prop} {D : List Stmt} {frame? : Option Frame} {params : List String} {n : Nat}
  {front : List Line} {ps : List Part} {r : Region}

/-- **A function in a text** comes from a definition, which starts it, and its body is made of idioms. -/
structure Founded (I : Milestone → State → Prop) (text : List Line) (r : Region) (st : Stmt) (frame : Frame)
    (params : List String) : Prop where
  defines : Defines I st r.label frame params (text.take (r.place 4))
  composed : ∃ D body, r.body = ofInstrs frame.prologue ++ body ∧
    Composed I D (some frame) params frame.slots (text.take (r.place 4)) body

/-- **The functions of a text come from definitions**, one by one. -/
def AllFounded (I : Milestone → State → Prop) (text : List Line) (rs : List Region) (D : List Stmt) : Prop :=
  List.Forall₂ (fun r st => ∃ frame params, Founded I text r st frame params) rs D

theorem AllFounded.with_mem {text : List Line} {rs : List Region} (h : AllFounded I text rs D) :
    List.Forall₂ (fun r st => r ∈ rs ∧ ∃ frame params, Founded I text r st frame params) rs D :=
  (List.forall₂_and_left rs D).mpr ⟨fun _ hr => hr, h⟩

/-- What comes behind a text changes nothing about the functions in it. -/
theorem AllFounded.of_extends {text : List Line} (h : AllFounded I (front ++ linesOf ps) (regionsOf front.length ps) D)
    (htext : front ++ linesOf ps <+: text) : AllFounded I text (regionsOf front.length ps) D := by
  refine h.with_mem.imp fun r st ⟨hr, frame, params, hfounded⟩ => ⟨frame, params, ?_⟩
  have htake : text.take (r.place 4) = (front ++ linesOf ps).take (r.place 4) := by
    obtain ⟨rest, rfl⟩ := htext
    exact List.take_append_of_le_length (Region.place_le hr 4)
  exact ⟨htake ▸ hfounded.defines, htake ▸ hfounded.composed⟩

/-- **Every function is founded**, those inside others included. -/
theorem Composed.founded (h : Composed I D frame? params n front ps) :
    AllFounded I (front ++ linesOf ps) (regionsOf front.length ps) D := by
  have hextends : ∀ {front : List Line} (ps qs : List Part), front ++ linesOf ps <+: front ++ linesOf (ps ++ qs) :=
    fun ps qs => by
      rw [linesOf_append, ← List.append_assoc]
      exact List.prefix_append _ _
  induction h with
  | nil => exact .nil
  | label _ x ih =>
      rw [regionsOf_append]
      simpa [regionsOf, Part.regions] using ih.of_extends (hextends _ _)
  | comment _ text ih =>
      rw [regionsOf_append]
      simpa [regionsOf, Part.regions] using ih.of_extends (hextends _ _)
  | idiom _ d new hnew hd ih =>
      rw [regionsOf_append, regionsOf_ofLines, List.append_nil]
      exact ih.of_extends (hextends _ _)
  | @function D D' _ _ params' _ front ps body st label frame _ hdef hbody ih ihbody =>
      rw [regionsOf_append]
      refine List.rel_append (ih.of_extends (hextends _ _)) ?_
      -- the body is founded on the text in front of it, its own header and prologue included
      generalize htext : front ++ linesOf ps ++ functionHeader label ++ frame.prologue.map Line.instr = text at *
      have hlines : front ++ linesOf (ps ++ [.function label (ofInstrs frame.prologue ++ body)]) =
          text ++ linesOf body ++ [functionFooter label] := by
        rw [← htext]
        simp only [linesOf_append, linesOf_function, linesOf_ofInstrs, List.append_assoc]
      have hlength : text.length = front.length + (linesOf ps).length + (functionHeader label).length + 4 := by
        rw [← htext]
        simp only [List.length_append, List.length_map]
        rfl
      have hplace : Region.place ⟨front.length + (linesOf ps).length, label, ofInstrs frame.prologue ++ body⟩ 4 =
          text.length := by
        rw [hlength]
        rfl
      have hinner : regionsOf (front.length + (linesOf ps).length + (functionHeader label).length)
          (ofInstrs frame.prologue ++ body) = regionsOf text.length body := by
        rw [regionsOf_append, ofInstrs_eq, regionsOf_ofLines, List.nil_append, hlength]
        rfl
      rw [hlines, regionsOf, regionsOf, List.append_nil, Part.regions, hinner]
      refine .cons ⟨frame, params', ?_, D', body, rfl, ?_⟩ (ihbody.of_extends ⟨_, rfl⟩)
      · rw [hplace, List.append_assoc, List.take_left]
        exact hdef
      · rw [hplace, List.append_assoc, List.take_left]
        exact hbody

/-- **An idiom stands in a text**, from one piece to another; comments may stand between its instructions. -/
def Stands (d : Idiom) (ps : List Part) (a b : Nat) : Prop :=
  ∃ (before after : List Part) (new : List Line), ps = before ++ ofLines new ++ after ∧
    new.filter (fun l => !l.isComment) = d.instrs.map Line.instr ∧ before.length = a ∧ a + new.length = b

theorem Stands.append {d : Idiom} {a b : Nat} (h : Stands d ps a b) (qs : List Part) : Stands d (ps ++ qs) a b := by
  obtain ⟨before, after, new, rfl, hnew, ha, hb⟩ := h
  exact ⟨before, after ++ qs, new, by simp only [List.append_assoc], hnew, ha, hb⟩

theorem Stands.behind {d : Idiom} {a b : Nat} (h : Stands d ps a b) (qs : List Part) :
    Stands d (qs ++ ps) (qs.length + a) (qs.length + b) := by
  obtain ⟨before, after, new, rfl, hnew, rfl, rfl⟩ := h
  exact ⟨qs ++ before, after, new, by simp only [List.append_assoc], hnew, List.length_append, by omega⟩

/-- **The instruction at a piece is part of a proper idiom.** -/
def Housed (I : Milestone → State → Prop) (frame? : Option Frame) (params : List String) (n : Nat) (front : List Line)
    (ps : List Part) (k : Nat) (i : Instr) : Prop :=
  ∃ d a b, a ≤ k ∧ k < b ∧ b ≤ ps.length ∧ Stands d ps a b ∧ i ∈ d.instrs ∧
    d.Proper frame? n (Home I params (front ++ linesOf (ps.take b)))

theorem Housed.append {k : Nat} {i : Instr} (h : Housed I frame? params n front ps k i) (qs : List Part) :
    Housed I frame? params n front (ps ++ qs) k i := by
  obtain ⟨d, a, b, ha, hb, hle, hstands, hi, hd⟩ := h
  refine ⟨d, a, b, ha, hb, by rw [List.length_append]; omega, hstands.append qs, hi, ?_⟩
  rw [List.take_append_of_le_length hle]
  exact hd

/-- **Every instruction is part of a proper idiom.** -/
theorem Composed.housed {i : Instr} (h : Composed I D frame? params n front ps) :
    ∀ {k : Nat}, ps[k]? = some (.line (.instr i)) → Housed I frame? params n front ps k i := by
  -- an instruction is one of the text so far, or of what is put behind it
  have hcases : ∀ {qs rs : List Part} {k : Nat}, (qs ++ rs)[k]? = some (.line (.instr i)) →
      qs[k]? = some (.line (.instr i)) ∨ qs.length ≤ k ∧ rs[k - qs.length]? = some (.line (.instr i)) := by
    intro qs rs k hk
    by_cases hlt : k < qs.length
    · exact Or.inl (by rwa [List.getElem?_append_left hlt] at hk)
    · exact Or.inr ⟨by omega, by rwa [List.getElem?_append_right (by omega)] at hk⟩
  induction h with
  | nil => intro k hk; exact absurd hk (by simp)
  | label _ x ih =>
      intro k hk
      rcases hcases hk with hold | ⟨_, hnew⟩
      · exact (ih hold).append _
      · exact absurd (List.mem_of_getElem? hnew) (by simp)
  | comment _ text ih =>
      intro k hk
      rcases hcases hk with hold | ⟨_, hnew⟩
      · exact (ih hold).append _
      · exact absurd (List.mem_of_getElem? hnew) (by simp)
  | @idiom _ _ _ _ front ps _ d new hnew hd ih =>
      intro k hk
      rcases hcases hk with hold | ⟨hge, hmem⟩
      · exact (ih hold).append _
      have hlength : (ofLines new).length = new.length := by simp [ofLines]
      have hlt : k < ps.length + new.length := by
        have := (List.getElem?_eq_some_iff.mp hmem).1
        omega
      refine ⟨d, ps.length, ps.length + new.length, hge, hlt, by rw [List.length_append, hlength], ?_, ?_, ?_⟩
      · exact ⟨ps, [], new, by rw [List.append_nil], hnew, rfl, rfl⟩
      · -- comments apart, the new lines are the instructions of the idiom
        have hline : Line.instr i ∈ new := by simpa [ofLines] using List.mem_of_getElem? hmem
        have hinstr : Line.instr i ∈ d.instrs.map Line.instr := by
          rw [← hnew]
          exact List.mem_filter.mpr ⟨hline, rfl⟩
        simpa using hinstr
      · rw [List.take_of_length_le (by rw [List.length_append, hlength]), linesOf_append, linesOf_ofLines,
          ← List.append_assoc]
        exact hd
  | function _ hdef hbody ih _ =>
      intro k hk
      rcases hcases hk with hold | ⟨_, hnew⟩
      · exact (ih hold).append _
      · exact absurd (List.mem_of_getElem? hnew) (by simp)

end Places

/-! ## Occasions -/

/-- The registers that no code writes. -/
def untouched : List Register := [.zero, .gp, .tp] ++ RegisterClass.calleeSaved.members

/-- **The occasions on which a register is written**: the idiom, the instruction of it, and the register. The
    frame is that of the function around, and `home` says which registers are those of the parameters that are
    stored to. -/
inductive Writes (frame? : Option Frame) (home : Register → Prop) : Idiom → Instr → Register → Prop
  | temporary {d : Idiom} {i : Instr} {x : Register} (hx : x.classOf? = some .temporary) : Writes frame? home d i x
  | openStack {f : Frame} (hf : frame? = some f) : Writes frame? home (.opens f) (.addi .sp .sp (-f.size)) .sp
  | openFrame {f : Frame} (hf : frame? = some f) : Writes frame? home (.opens f) (.addi .fp .sp f.size) .fp
  | closeAddress {f : Frame} (hf : frame? = some f) : Writes frame? home (.closes f) (.ld .ra (f.size - 8) .sp) .ra
  | closeFrame {f : Frame} (hf : frame? = some f) : Writes frame? home (.closes f) (.ld .fp (f.size - 16) .sp) .fp
  | closeStack {f : Frame} (hf : frame? = some f) : Writes frame? home (.closes f) (.addi .sp .sp f.size) .sp
  | pushStack {x : Register} : Writes frame? home (.push x) (.addi .sp .sp (-8)) .sp
  | popStack {x : Register} : Writes frame? home (.pop x) (.addi .sp .sp 8) .sp
  | callStack {label : String} {n : Nat} : Writes frame? home (.call label n) (.addi .sp .sp 8) .sp
  | printStack : Writes frame? home .print (.addi .sp .sp 8) .sp
  | popResult : Writes frame? home (.pop .a0) (.ld .a0 0 .sp) .a0
  | zeroResult : Writes frame? home .zero (.li .a0 0) .a0
  | format : Writes frame? home .print (.la .a0 printFormat) .a0
  | callAddress {d : Idiom} {label : String} : Writes frame? home d (.call label) .ra
  | callResult {d : Idiom} {label : String} : Writes frame? home d (.call label) .a0
  | argument {label : String} {n : Nat} {x : Register} (hx : x ∈ RegisterClass.argument.members.take n) :
      Writes frame? home (.call label n) (.ld x 0 .sp) x
  | printed : Writes frame? home .print (.ld .a1 0 .sp) .a1
  | parameter {x : Register} (hx : x.classOf? = some .argument) (hhome : home x) :
      Writes frame? home (.pop x) (.ld x 0 .sp) x

section Writes

variable {frame? : Option Frame} {home : Register → Prop} {n : Nat} {d : Idiom} {i : Instr} {x : Register}

theorem Writes.not_untouched (h : Writes frame? home d i x) : x ∉ untouched := by
  have hclass : ∀ y ∈ untouched, y.classOf? ≠ some .temporary ∧ y.classOf? ≠ some .argument := by decide
  have hargument : ∀ y ∈ RegisterClass.argument.members, y ∉ untouched := by decide
  cases h with
  | temporary hx => exact fun hmem => (hclass x hmem).1 hx
  | parameter hx _ => exact fun hmem => (hclass x hmem).2 hx
  | argument hx => exact hargument x (List.mem_of_mem_take hx)
  | _ => decide

theorem writes_pop {y : Register} (hi : i ∈ pop y) (hx : x ∈ i.writes) :
    i = .ld y 0 .sp ∧ x = y ∨ i = .addi .sp .sp 8 ∧ x = .sp := by
  rcases List.mem_pair.mp hi with rfl | rfl
  · exact Or.inl ⟨rfl, List.mem_singleton.mp hx⟩
  · exact Or.inr ⟨rfl, List.mem_singleton.mp hx⟩

theorem writes_call {label : String} (hx : x ∈ Instr.writes (.call label)) : Writes frame? home d (.call label) x := by
  rcases List.mem_pair.mp hx with rfl | rfl
  · exact .callAddress
  · exact .callResult

theorem Lone.writes (h : Lone n i) (hx : x ∈ i.writes) : x.classOf? = some .temporary := by
  cases h with
  | load hr _ => rwa [List.mem_singleton.mp hx]
  | li hr => rwa [List.mem_singleton.mp hx]
  | alu hr => rwa [List.mem_singleton.mp hx]
  | neg hr => rwa [List.mem_singleton.mp hx]
  | not hr => rwa [List.mem_singleton.mp hx]
  | store _ => exact absurd hx List.not_mem_nil
  | branch => exact absurd hx List.not_mem_nil
  | beqz => exact absurd hx List.not_mem_nil
  | jump => exact absurd hx List.not_mem_nil

/-- A frame is opened on the occasions of its own. -/
theorem writes_opens {f : Frame} (hf : frame? = some f) (hi : i ∈ (Idiom.opens f).instrs) (hx : x ∈ i.writes) :
    Writes frame? home (.opens f) i x := by
  simp only [Idiom.instrs, Frame.prologue, List.mem_cons, List.not_mem_nil, or_false] at hi
  rcases hi with rfl | rfl | rfl | rfl
  · obtain rfl := List.mem_singleton.mp hx; exact .openStack hf
  · exact absurd hx List.not_mem_nil
  · exact absurd hx List.not_mem_nil
  · obtain rfl := List.mem_singleton.mp hx; exact .openFrame hf

/-- **Every write of a proper idiom has its occasion.** -/
theorem Idiom.Proper.writes (hd : d.Proper frame? n home) (hi : i ∈ d.instrs) (hx : x ∈ i.writes) :
    Writes frame? home d i x := by
  cases d with
  | opens f => exact hd.elim
  | closes f =>
      simp only [Idiom.instrs, Frame.epilogue, List.mem_cons, List.not_mem_nil, or_false] at hi
      rcases hi with rfl | rfl | rfl | rfl
      · obtain rfl := List.mem_singleton.mp hx; exact .closeAddress hd
      · obtain rfl := List.mem_singleton.mp hx; exact .closeFrame hd
      · obtain rfl := List.mem_singleton.mp hx; exact .closeStack hd
      · exact absurd hx List.not_mem_nil
  | push y =>
      rcases List.mem_pair.mp hi with rfl | rfl
      · obtain rfl := List.mem_singleton.mp hx; exact .pushStack
      · exact absurd hx List.not_mem_nil
  | pop y =>
      rcases writes_pop hi hx with ⟨rfl, rfl⟩ | ⟨rfl, rfl⟩
      · rcases hd with htemporary | rfl | ⟨hargument, hhome⟩
        · exact .temporary htemporary
        · exact .popResult
        · exact .parameter hargument hhome
      · exact .popStack
  | zero =>
      obtain rfl := List.mem_singleton.mp hi
      obtain rfl := List.mem_singleton.mp hx
      exact .zeroResult
  | call label count =>
      rcases List.mem_append.mp hi with hpop | hcall
      · obtain ⟨y, hy, hpop⟩ := List.mem_flatMap.mp hpop
        rcases writes_pop hpop hx with ⟨rfl, rfl⟩ | ⟨rfl, rfl⟩
        · exact .argument hy
        · exact .callStack
      · obtain rfl := List.mem_singleton.mp hcall
        exact writes_call hx
  | print =>
      rcases List.mem_append.mp hi with hpop | hcall
      · rcases writes_pop hpop hx with ⟨rfl, rfl⟩ | ⟨rfl, rfl⟩
        · exact .printed
        · exact .printStack
      · rcases List.mem_pair.mp hcall with rfl | rfl
        · obtain rfl := List.mem_singleton.mp hx; exact .format
        · exact writes_call hx
  | lone j =>
      obtain rfl := List.mem_singleton.mp hi
      exact .temporary (Lone.writes hd hx)

end Writes

/-! ## Listings -/

/-- **The instructions of a text keep the roles of the registers**: each write has its occasion, in an idiom
    that stands around the instruction. Of `home` is said, for the end of the idiom, which registers are those
    of the parameters that are stored to. -/
def KeepsRoles (frame? : Option Frame) (home : Nat → Register → Prop) (ps : List Part) : Prop :=
  ∀ k i x, ps[k]? = some (.line (.instr i)) → x ∈ i.writes → x ∉ untouched ∧
    ∃ d a b, a ≤ k ∧ k < b ∧ Stands d ps a b ∧ Writes frame? (home b) d i x

section Listings

variable {I : Milestone → State → Prop} {D : List Stmt} {frame? : Option Frame} {params : List String} {n : Nat}
  {front : List Line} {ps : List Part} {r : Region}

theorem Composed.keepsRoles {home : Nat → Register → Prop} (h : Composed I D frame? params n front ps)
    (hhome : ∀ b y, Home I params (front ++ linesOf (ps.take b)) y → home b y) : KeepsRoles frame? home ps := by
  intro k i x hk hx
  obtain ⟨d, a, b, ha, hb, _, hstands, hi, hd⟩ := h.housed hk
  have hwrites := (hd.mono (Nat.le_refl n) (hhome b)).writes hi hx
  exact ⟨hwrites.not_untouched, d, a, b, ha, hb, hstands, hwrites⟩

/-- A function opens its frame and goes on with its body. -/
theorem Founded.keepsRoles {st : Stmt} {frame : Frame} (hr : r ∈ regionsOf front.length ps)
    (h : Founded I (front ++ linesOf ps) r st frame params) :
    KeepsRoles (some frame) (fun b => Home I params ((front ++ linesOf ps).take (r.place b))) r.body := by
  obtain ⟨D, body, hbody, hcomposed⟩ := h.composed
  have hlength : (ofInstrs frame.prologue).length = 4 := rfl
  intro k i x hk hx
  by_cases hlt : k < 4
  · rw [hbody, List.getElem?_append_left (by omega)] at hk
    have hi : i ∈ (Idiom.opens frame).instrs := by
      simpa [ofInstrs, Idiom.instrs] using List.mem_of_getElem? hk
    have hwrites : Writes (some frame) (Home I params ((front ++ linesOf ps).take (r.place 4))) (.opens frame) i x :=
      writes_opens rfl hi hx
    refine ⟨hwrites.not_untouched, .opens frame, 0, 4, Nat.zero_le k, hlt, ?_, hwrites⟩
    refine ⟨[], body, frame.prologue.map Line.instr, ?_, ?_, rfl, rfl⟩
    · rw [hbody, ofInstrs_eq, List.nil_append]
    · exact List.filter_eq_self.mpr (by simp [Line.isComment])
  · rw [hbody, List.getElem?_append_right (by omega), hlength] at hk
    have hhome : ∀ b y, Home I params ((front ++ linesOf ps).take (r.place 4) ++ linesOf (body.take b)) y →
        Home I params ((front ++ linesOf ps).take (r.place (4 + b))) y := by
      intro b y hy
      have hdrop : r.body.drop 4 = body := by rw [hbody]; rfl
      rw [Region.take_place_add hr 4 b, hdrop]
      exact hy
    obtain ⟨hnot, d, a, b, ha, hb, hstands, hwrites⟩ := hcomposed.keepsRoles hhome (k - 4) i x hk hx
    refine ⟨hnot, d, 4 + a, 4 + b, by omega, by omega, ?_, hwrites⟩
    rw [hbody]
    exact hstands.behind (ofInstrs frame.prologue)

/-- **The start of a function** that comes from a definition: the definition has been entered, its name stands
    for a function with these parameters in these registers, and the registers hold them. -/
structure Begins (I : Milestone → State → Prop) (st : Stmt) (label : String) (frame : Frame) (params : List String)
    (start : State) : Prop where
  entered : ∃ (span : Span) (name : String) (stmts : List Stmt) (s : State) (op : Opening) (f : Callee),
    st = .funcDef span name params stmts ∧ I .boundary s ∧
    (enterFunction name params stmts span.start).run s = .ok op start ∧ op.label = label ∧ op.frame = frame ∧
    start.arena.resolveFunction? start.current name = some f ∧ f.label = label ∧
    f.params.map (·.1) = params ∧ f.params.map (·.2) = RegisterClass.argument.members.take params.length
  holder_iff : ∀ x y, start.holder x = some y ↔
    ∃ k : Nat, params[k]? = some x ∧ RegisterClass.argument.members[k]? = some y

theorem Defines.begins {st : Stmt} {label : String} {frame : Frame} {text : List Line}
    (h : Defines I st label frame params text) (hI : ∀ s, I .boundary s → Ready [] s) :
    ∃ start, Begins I st label frame params start ∧ start.code.toList = text := by
  obtain ⟨s, span, name, stmts, op, start, rfl, hs, hrun, rfl, rfl, htext⟩ := h
  obtain ⟨mid, f, hpaused, hopened, _, _, _⟩ :=
    (enterFunction_ensures (I := fun _ _ => True) (hI s hs) name params stmts span.start (fun _ _ _ => trivial)
      fun _ _ _ _ _ _ _ _ => trivial).run_ok hrun
  refine ⟨start, ⟨⟨span, name, stmts, s, op, f, rfl, hs, hrun, rfl, rfl, ?_, hopened.callee_label,
    hopened.callee_names, hopened.callee_params⟩, fun x y => hopened.holder_iff⟩, htext⟩
  rw [resolveFunction?_eq_find? hopened.ready, hopened.visible_eq hpaused.ready, List.find?_cons_of_pos]
  rw [hopened.callee_name, beq_self_eq_true]

end Listings

/-- **Register roles are respected.** A listing is a text of pieces. No instruction writes `zero`, `gp`, `tp`
    or a saved register, and every other write has one of the occasions of `Writes`: at module level, where
    there is no frame and no parameter, and in each function. The functions of the listing are those that the
    module defines, at whatever depth, one by one; each starts with exactly its parameters in the argument
    registers, in declaration order, and writes one of those by a pop only while the parameter is bound there. -/
theorem registers_keep_roles {o : Options} {m : Module} {l : Listing} (h : generate o m = .ok l) :
    ∃ forest, l.code = [.directive .text] ++ linesOf forest ∧ KeepsRoles none (fun _ _ => False) forest ∧
      List.Forall₂ (fun (r : Region) st => ∃ (params : List String) (frame : Frame) (start : State),
        Begins ((lowerModule m).Passes (.initial o)) st r.label frame params start ∧
        start.code.toList = l.code.take (r.place 4) ∧
        KeepsRoles (some frame)
          (fun b => Home ((lowerModule m).Passes (.initial o)) params (l.code.take (r.place b))) r.body)
        (regionsOf 1 forest) (functionsOf m.body) := by
  obtain ⟨t, hrun, rfl⟩ := run_of_generate h
  obtain ⟨forest, hforest, hcomposed⟩ := lowerModule_composed hrun
  have hcode : t.listing.code = [.directive .text] ++ linesOf forest := hforest
  have hmodule : KeepsRoles none (fun _ _ => False) forest := by
    refine hcomposed.keepsRoles ?_
    rintro b y ⟨_, _, _, _, _, _, _, hparam⟩
    exact absurd hparam (by simp)
  have hready : ∀ s, (lowerModule m).Passes (.initial o) .boundary s → Ready [] s := by
    intro s hs
    obtain ⟨held, hready, hheld⟩ := (lowerModule_ensures o m).passes hs
    rwa [hheld rfl] at hready
  refine ⟨forest, hcode, hmodule, ?_⟩
  rw [hcode]
  refine hcomposed.founded.with_mem.imp fun r st ⟨hr, frame, params, hfounded⟩ => ?_
  obtain ⟨start, hbegins, hstart⟩ := hfounded.defines.begins hready
  exact ⟨params, frame, start, hbegins, hstart, hfounded.keepsRoles hr⟩

/-- `def adjust(a, b)` with `def raise(x)` inside, which assigns to its parameter. -/
def adjustModule : Module :=
  ⟨[.funcDef default "adjust" ["a", "b"]
      [.funcDef default "raise" ["x"]
         [.augAssign default (.name default "x" .store) .add (.const default (.int 1)),
          .ret default (some (.name default "x" .load))],
       .ret default (some (.name default "b" .load))]], default⟩

/-- The listing has both functions. The inner one starts with its parameter in the first argument register, which
    is written later. -/
theorem registers_keep_roles_adjustModule : ∃ l forest r r', generate {} adjustModule = .ok l ∧
    .instr (.ld .a1 0 .sp) ∈ l.code ∧ l.code = [.directive .text] ++ linesOf forest ∧ regionsOf 1 forest = [r, r'] ∧
    KeepsRoles none (fun _ _ => False) forest ∧ ∃ (frame : Frame) (start : State), start.holder "x" = some .a1 ∧
      KeepsRoles (some frame)
        (fun b => Home ((lowerModule adjustModule).Passes (.initial {})) ["x"] (l.code.take (r'.place b))) r'.body := by
  obtain ⟨t, hrun, hpop⟩ : ∃ t, (lowerModule adjustModule).run (.initial {}) = .ok () t ∧
      .instr (.ld .a1 0 .sp) ∈ t.code.toList := exists_run_ok _ (by cbv)
  have hl : generate {} adjustModule = .ok t.listing := by simp only [generate, generateLogged, hrun]
  obtain ⟨forest, hcode, hmodule, hfunctions⟩ := registers_keep_roles hl
  obtain ⟨r, rest, _, hrest, hregions⟩ := List.forall₂_cons_right_iff.mp hfunctions
  obtain ⟨r', rest', hinner, hnone, rfl⟩ := List.forall₂_cons_right_iff.mp hrest
  obtain rfl := List.forall₂_nil_right_iff.mp hnone
  obtain ⟨params, frame, start, hbegins, _, hroles⟩ := hinner
  obtain ⟨_, _, _, _, _, _, hst, _⟩ := hbegins.entered
  obtain rfl : params = ["x"] := by injection hst with _ _ hparams; exact hparams.symm
  exact ⟨t.listing, forest, r, r', hl, hpop, hcode, hregions, hmodule, frame, start,
    (hbegins.holder_iff "x" .a1).mpr ⟨0, rfl, rfl⟩, hroles⟩

end Lower

end Offside
