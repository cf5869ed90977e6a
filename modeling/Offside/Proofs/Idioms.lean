import Offside.Proofs.Depths
import Offside.Proofs.Frames
import Offside.Proofs.Sight

/-!
# `Proofs.Idioms` — generated code is made of idioms

Instructions are not put down one by one: code generation knows a handful of short sequences (`Idiom`), and
what it adds to the text is made of those, of labels and comments, and of whole functions (`Composed`). Which
instructions can stand in a listing, and next to which others, is read off the idioms.

Code generation is gone through once for this, together with its milestones: where an idiom writes to the
register of a parameter, the milestone behind it says which parameter is there (`Home`), and the start of a
function says which definition it belongs to (`Defines`).
-/

namespace Offside.Lower

open Machine

/-! ## Idioms -/

/-- **A short sequence of instructions** that is put down as a whole. -/
inductive Idiom where
  /-- Opens the frame of a function. -/
  | opens (frame : Frame)
  /-- Closes the frame of a function and returns. -/
  | closes (frame : Frame)
  | push (r : Register)
  | pop (r : Register)
  /-- Makes 0 the result. -/
  | zero
  /-- Takes arguments off the stack into their registers and calls a function. -/
  | call (label : String) (count : Nat)
  /-- Takes a number off the stack and prints it. -/
  | print
  | lone (i : Instr)

/-- The instructions of an idiom. -/
def Idiom.instrs : Idiom → List Instr
  | .opens frame => frame.prologue
  | .closes frame => frame.epilogue
  | .push r => Machine.push r
  | .pop r => Machine.pop r
  | .zero => [.li resultRegister 0]
  | .call label count => (RegisterClass.argument.members.take count).flatMap Machine.pop ++ [.call label]
  | .print => Machine.pop .a1 ++ [.la resultRegister printFormat, .call printRoutine]
  | .lone i => [i]

/-- **An instruction that stands alone**, in a function with so many slots: it writes a slot or a temporary,
    or may lead to a label. -/
inductive Lone (slots : Nat) : Instr → Prop
  | store {r : Register} {k : Nat} (hk : k < slots) : Lone slots (storeSlot r k)
  | load {r : Register} {k : Nat} (hr : r.classOf? = some .temporary) (hk : k < slots) : Lone slots (loadSlot r k)
  | li {r : Register} {w : Word} (hr : r.classOf? = some .temporary) : Lone slots (.li r w)
  | alu {op : AluOp} {r x y : Register} (hr : r.classOf? = some .temporary) : Lone slots (.alu op r x y)
  | neg {r x : Register} (hr : r.classOf? = some .temporary) : Lone slots (.neg r x)
  | not {r x : Register} (hr : r.classOf? = some .temporary) : Lone slots (.not r x)
  | branch {test : BranchTest} {x y : Register} {label : String} : Lone slots (.branch test x y label)
  | beqz {x : Register} {label : String} : Lone slots (.beqz x label)
  | jump {label : String} : Lone slots (.jump label)

/-- **The idiom may stand in a function** with the given frame and slots, where `home` says which registers
    are those of the parameters that are stored to. Outside functions there is no frame. -/
def Idiom.Proper (frame? : Option Frame) (slots : Nat) (home : Register → Prop) : Idiom → Prop
  | .opens _ => False
  | .closes frame => frame? = some frame
  | .pop r => r.classOf? = some .temporary ∨ r = resultRegister ∨ (r.classOf? = some .argument ∧ home r)
  | .lone i => Lone slots i
  | .push _ | .zero | .call _ _ | .print => True

theorem Lone.mono {m n : Nat} {i : Instr} (hle : m ≤ n) (h : Lone m i) : Lone n i := by
  cases h with
  | store hk => exact .store (Nat.lt_of_lt_of_le hk hle)
  | load hr hk => exact .load hr (Nat.lt_of_lt_of_le hk hle)
  | li hr => exact .li hr
  | alu hr => exact .alu hr
  | neg hr => exact .neg hr
  | not hr => exact .not hr
  | branch => exact .branch
  | beqz => exact .beqz
  | jump => exact .jump

theorem Idiom.Proper.mono {frame? : Option Frame} {m n : Nat} {home home' : Register → Prop} {d : Idiom} (hle : m ≤ n)
    (hhome : ∀ r, home r → home' r) (h : d.Proper frame? m home) : d.Proper frame? n home' := by
  cases d with
  | opens frame => exact h
  | closes frame => exact h
  | pop r => exact h.imp_right (Or.imp_right (And.imp_right (hhome r)))
  | lone i => exact Lone.mono hle h
  | push r => trivial
  | zero => trivial
  | call label count => trivial
  | print => trivial

/-! ## Texts -/

mutual

/-- The definitions of functions in a statement, those inside others included. -/
def functionsIn : Stmt → List Stmt
  | .funcDef span name params body => .funcDef span name params body :: functionsOf body
  | .cond _ _ body orelse => functionsOf body ++ functionsOf orelse
  | .loop _ _ body => functionsOf body
  | _ => []

/-- The definitions of functions in statements, those inside others included. -/
def functionsOf : List Stmt → List Stmt
  | [] => []
  | st :: rest => functionsIn st ++ functionsOf rest

end

/-- **A parameter is stored to**: behind the text a name is bound to the register, and it is the parameter
    that the register belongs to. -/
def Home (I : Milestone → State → Prop) (params : List String) (text : List Line) (r : Register) : Prop :=
  ∃ (u : State) (x : String) (k : Nat), I .binding u ∧ u.code.toList = text ∧ u.holder x = some r ∧
    RegisterClass.argument.members[k]? = some r ∧ params[k]? = some x

/-- **A definition starts a function**: the text ends with the header of the function and with the idiom that
    opens its frame, and its body comes next. -/
def Defines (I : Milestone → State → Prop) (st : Stmt) (label : String) (frame : Frame) (params : List String)
    (text : List Line) : Prop :=
  ∃ (s : State) (span : Span) (name : String) (stmts : List Stmt) (o : Opening) (start : State),
    st = .funcDef span name params stmts ∧ I .boundary s ∧
    (enterFunction name params stmts span.start).run s = .ok o start ∧ o.label = label ∧ o.frame = frame ∧
    start.code.toList = text

/-- **A text made of idioms**, behind the text `front`, in a function with the given frame, parameters and
    number of slots. The functions in it come from the given definitions, one after the other. -/
inductive Composed (I : Milestone → State → Prop) :
    List Stmt → Option Frame → List String → Nat → List Line → List Part → Prop
  | nil {frame? : Option Frame} {params : List String} {slots : Nat} {front : List Line} :
      Composed I [] frame? params slots front []
  | label {D : List Stmt} {frame? : Option Frame} {params : List String} {slots : Nat} {front : List Line}
      {ps : List Part} (h : Composed I D frame? params slots front ps) (x : String) :
      Composed I D frame? params slots front (ps ++ [.line (.label x)])
  | comment {D : List Stmt} {frame? : Option Frame} {params : List String} {slots : Nat} {front : List Line}
      {ps : List Part} (h : Composed I D frame? params slots front ps) (text : String) :
      Composed I D frame? params slots front (ps ++ [.line (.comment text)])
  | idiom {D : List Stmt} {frame? : Option Frame} {params : List String} {slots : Nat} {front : List Line}
      {ps : List Part} (h : Composed I D frame? params slots front ps) (d : Idiom) (new : List Line)
      (hnew : new.filter (fun l => !l.isComment) = d.instrs.map Line.instr)
      (hd : d.Proper frame? slots (Home I params (front ++ linesOf ps ++ new))) :
      Composed I D frame? params slots front (ps ++ ofLines new)
  | function {D D' : List Stmt} {frame? : Option Frame} {params params' : List String} {slots : Nat}
      {front : List Line} {ps body : List Part} {st : Stmt} {label : String} {frame : Frame}
      (h : Composed I D frame? params slots front ps)
      (hdef : Defines I st label frame params'
        (front ++ linesOf ps ++ functionHeader label ++ frame.prologue.map Line.instr))
      (hbody : Composed I D' (some frame) params' frame.slots
        (front ++ linesOf ps ++ functionHeader label ++ frame.prologue.map Line.instr) body) :
      Composed I (D ++ st :: D') frame? params slots front
        (ps ++ [.function label (ofInstrs frame.prologue ++ body)])

section Composed

variable {I : Milestone → State → Prop} {D D' : List Stmt} {frame? : Option Frame} {params : List String} {m n : Nat}
  {front : List Line} {ps qs : List Part}

namespace Composed

theorem mono (hle : m ≤ n) (h : Composed I D frame? params m front ps) : Composed I D frame? params n front ps := by
  induction h with
  | nil => exact .nil
  | label _ x ih => exact .label (ih hle) x
  | comment _ text ih => exact .comment (ih hle) text
  | idiom _ d new hnew hd ih => exact .idiom (ih hle) d new hnew (hd.mono hle fun _ => id)
  | function _ hdef hbody ih _ => exact .function (ih hle) hdef hbody

theorem append (h : Composed I D frame? params n front ps)
    (h' : Composed I D' frame? params n (front ++ linesOf ps) qs) :
    Composed I (D ++ D') frame? params n front (ps ++ qs) := by
  have happend : ∀ {qs : List Part}, front ++ linesOf ps ++ linesOf qs = front ++ linesOf (ps ++ qs) := fun {qs} => by
    rw [linesOf_append, List.append_assoc]
  generalize hfront : front ++ linesOf ps = front' at h'
  induction h' with
  | nil => rw [List.append_nil, List.append_nil]; exact h
  | label _ x ih => rw [← List.append_assoc]; exact .label (ih h hfront) x
  | comment _ text ih => rw [← List.append_assoc]; exact .comment (ih h hfront) text
  | idiom _ d new hnew hd ih =>
      rw [← List.append_assoc]
      rw [← hfront, happend] at hd
      exact .idiom (ih h hfront) d new hnew hd
  | function _ hdef hbody ih _ =>
      rw [← List.append_assoc, ← List.append_assoc]
      rw [← hfront, happend] at hdef hbody
      exact .function (ih h hfront) hdef hbody

end Composed

theorem composed_comments {new : List Line} (hnew : ∀ l ∈ new, l.isComment = true) :
    Composed I [] frame? params n front (ofLines new) := by
  induction new generalizing front with
  | nil => exact .nil
  | cons l rest ih =>
      have hrest := fun l hl => hnew l (List.mem_cons_of_mem _ hl)
      cases l with
      | comment text =>
          have hfirst : Composed I [] frame? params n front [.line (.comment text)] := .comment .nil text
          exact hfirst.append (ih hrest)
      | instr i => exact absurd (hnew _ List.mem_cons_self) Bool.false_ne_true
      | directive d => exact absurd (hnew _ List.mem_cons_self) Bool.false_ne_true
      | label x => exact absurd (hnew _ List.mem_cons_self) Bool.false_ne_true

/-- Idioms one after the other, none of which stores to a parameter. -/
theorem composed_idioms {ds : List Idiom} {new : List Line}
    (hnew : new.filter (fun l => !l.isComment) = (ds.flatMap Idiom.instrs).map Line.instr)
    (hds : ∀ d ∈ ds, d.Proper frame? n fun _ => False) : Composed I [] frame? params n front (ofLines new) := by
  induction ds generalizing new front with
  | nil =>
      refine composed_comments fun l hl => ?_
      simpa using List.filter_eq_nil_iff.mp hnew l hl
  | cons d rest ih =>
      rw [List.flatMap_cons, List.map_append, List.filter_eq_append_iff] at hnew
      obtain ⟨new₁, new₂, rfl, hnew₁, hnew₂⟩ := hnew
      have hfirst : Composed I [] frame? params n front (ofLines new₁) :=
        .idiom .nil d new₁ hnew₁ ((hds d List.mem_cons_self).mono (Nat.le_refl n) fun _ => False.elim)
      rw [ofLines, List.map_append]
      exact hfirst.append (ih hnew₂ fun d hd => hds d (List.mem_cons_of_mem _ hd))

end Composed

/-! ## Stretches of code generation -/

/-- **What a stretch adds is made of idioms.** A name that an argument register holds at its end was there
    before. -/
structure Composes (I : Milestone → State → Prop) (D : List Stmt) (params : List String) (s t : State) : Prop where
  frames : t.frames = s.frames
  table : s.arena.table s.current <+: t.arena.table t.current
  narrows : ∀ {x r}, t.holder x = some r → r.classOf? = some .argument → s.holder x = some r
  text : ∃ ps, t.code.toList = s.code.toList ++ linesOf ps ∧
    Composed I D s.frames.head? params (t.arena.slotCount t.current) s.code.toList ps

/-- **Argument registers hold parameters**, each its own. -/
def Homes (params : List String) (s : State) : Prop :=
  ∀ {x : String} {r : Register} {k : Nat}, s.holder x = some r → RegisterClass.argument.members[k]? = some r →
    params[k]? = some x

variable {I : Milestone → State → Prop} {D D' : List Stmt} {params : List String} {s t u mid : State}
  {held : List Register} {r : Register} {v w : VarRef} {p : Pool} {a : Arena}

namespace Composes

theorem refl (s : State) : Composes I [] params s s :=
  ⟨rfl, List.prefix_refl _, fun h _ => h, [], by simp [linesOf], .nil⟩

theorem trans (h : Composes I D params s t) (h' : Composes I D' params t u) : Composes I (D ++ D') params s u := by
  obtain ⟨ps, hps, hcomposed⟩ := h.text
  obtain ⟨qs, hqs, hcomposed'⟩ := h'.text
  have hle : t.arena.slotCount t.current ≤ u.arena.slotCount u.current := by
    rw [Arena.slotCount_eq, Arena.slotCount_eq]
    exact h'.table.length_le
  rw [h.frames, hps] at hcomposed'
  refine ⟨h'.frames.trans h.frames, h.table.trans h'.table, fun hx hr => h.narrows (h'.narrows hx hr) hr, ps ++ qs, ?_,
    (hcomposed.mono hle).append hcomposed'⟩
  rw [hqs, hps, linesOf_append, List.append_assoc]

/-- Code without functions comes next. -/
theorem trans_plain (h : Composes I D params s t) (h' : Composes I [] params t u) : Composes I D params s u :=
  List.append_nil D ▸ h.trans h'

theorem homes (h : Composes I D params s t) (hs : Homes params s) : Homes params t := by
  intro x r k hx hk
  exact hs (h.narrows hx (RegisterClass.mem_members_iff.mp (List.mem_of_getElem? hk))) hk

end Composes

theorem Ready.lt_slotCount {x : String} {k : Nat} (hk : (s.arena.table s.current)[k]? = some x) :
    k < s.arena.slotCount s.current := by
  rw [Arena.slotCount_eq]
  exact (List.getElem?_eq_some_iff.mp hk).1

theorem slotCount_of_table (h : t.arena.table t.current = s.arena.table s.current) :
    t.arena.slotCount t.current = s.arena.slotCount s.current := by
  rw [Arena.slotCount_eq, Arena.slotCount_eq, h]

/-- A straight move puts down idioms. -/
theorem Does.composes_of (ds : List Idiom) (h : Does (ds.flatMap Idiom.instrs) p a s t)
    (htable : t.arena.table t.current = s.arena.table s.current)
    (hnarrows : ∀ {x r}, t.holder x = some r → r.classOf? = some .argument → s.holder x = some r)
    (hds : ∀ d ∈ ds, d.Proper s.frames.head? (s.arena.slotCount s.current) fun _ => False) :
    Composes I [] params s t := by
  obtain ⟨new, hnew, hfilter⟩ := h.lines
  refine ⟨h.frames, htable ▸ List.prefix_refl _, hnarrows, ofLines new, by rw [hnew, linesOf_ofLines], ?_⟩
  rw [slotCount_of_table htable]
  exact composed_idioms hfilter hds

theorem Does.composes (ds : List Idiom) (h : Does (ds.flatMap Idiom.instrs) p s.arena s t)
    (hds : ∀ d ∈ ds, d.Proper s.frames.head? (s.arena.slotCount s.current) fun _ => False) :
    Composes I [] params s t :=
  h.composes_of ds (by rw [h.arena, h.current]) (fun {x r} hx _ => h.holder_eq x ▸ hx) hds

/-! ## Moves -/

theorem WroteBack.composes (h : WroteBack v s t) (hs : Ready held s) : Composes I [] params s t := by
  have hsteady := h.steady hs
  rcases h.saves hs with rfl | ⟨x, k, r, hsaves⟩
  · exact .refl _
  · obtain ⟨p, a, hdoes⟩ := hsaves.does
    refine hdoes.composes_of [.lone (storeSlot r k)] (by rw [hsteady.current, hsteady.alike.table_eq])
      (fun {y r'} hy _ => ?_) (by simpa [Idiom.Proper] using Lone.store (Ready.lt_slotCount hsaves.slot))
    rw [hsaves.holder_eq] at hy
    split at hy
    · exact absurd hy (by simp)
    · exact hy

theorem Spills.composes {l : List VarRef} (h : Spills l s t) (hs : Ready held s) : Composes I [] params s t := by
  induction h with
  | nil => exact .refl _
  | cons hv _ ih => exact (hv.composes hs).trans (ih (hv.ready hs))

theorem Allocated.composes (h : Allocated r s t) (hs : Ready held s) : Composes I [] params s t := by
  obtain ⟨l, mid, hspills, _, hdoes⟩ := h
  exact (hspills.composes hs).trans (hdoes.composes [] (by simp))

theorem Popped.composes (h : Popped r s t) (hs : Ready held s) : Composes I [] params s t := by
  have hr := h.temporary
  obtain ⟨mid, halloc, hdoes⟩ := h
  exact (halloc.composes hs).trans (hdoes.composes [.pop r] (by simp [Idiom.Proper, hr]))

theorem Reloaded.composes (h : Reloaded v r s t) (hs : Ready held s) : Composes I [] params s t := by
  have hsteady := h.steady hs
  obtain ⟨mid, x, k, halloc, _, hloads⟩ := h.loads hs
  have hmid := halloc.steady hs
  have hr := halloc.temporary
  obtain ⟨p, a, hdoes⟩ := hloads.does
  refine (halloc.composes hs).trans (hdoes.composes_of [.lone (loadSlot r k)] ?_ (fun {y r'} hy hr' => ?_)
    (by simpa [Idiom.Proper] using Lone.load hr (Ready.lt_slotCount hloads.slot)))
  · rw [hsteady.current, hsteady.alike.table_eq, hmid.current, hmid.alike.table_eq]
  · rw [hloads.holder_eq] at hy
    split at hy
    · rw [← Option.some.inj hy, hr] at hr'
      exact absurd hr' (by simp)
    · exact hy

theorem Reloads.composes {l : List VarRef} (h : Reloads l s t) (hs : Ready [] s) : Composes I [] params s t := by
  induction h with
  | nil => exact .refl _
  | cons hv ht _ ih => exact (hv.composes hs).trans (ih ht)

theorem composes_place (s : State) (x : String) : Composes I [] params s (s.place x) :=
  ⟨rfl, List.prefix_refl _, fun h _ => h, [.line (.label x)], by simp [State.place, linesOf, Part.lines],
    .label .nil x⟩

theorem Loaded.composes {n : Word} (h : Loaded n s t) (hs : Ready [] s) : Composes I [] params s t := by
  obtain ⟨r, mid, q, halloc, _, hdoes⟩ := h
  have hr := halloc.temporary
  exact (halloc.composes hs).trans (hdoes.composes [.lone (.li r n), .push r]
    (by simpa [Idiom.Proper] using Lone.li hr))

theorem Fetched.composes {name : String} (h : Fetched name s t) (hs : Ready [] s) : Composes I [] params s t := by
  obtain ⟨v, r, mid, _, hmid, hdoes⟩ := h
  have hpush : Composes I [] params mid t := hdoes.composes [.push r] (by simp [Idiom.Proper])
  rcases hmid with ⟨_, rfl⟩ | hload
  · exact hpush
  · exact (hload.composes hs).trans hpush

theorem Combined.composes {op : BinaryOp} (h : Combined op s t) (hs : Ready [] s) : Composes I [] params s t := by
  obtain ⟨right, left, t₁, t₂, q, hright, hr₁, hleft, _, hdoes⟩ := h
  have hl := hleft.temporary
  exact (hright.composes hs).trans ((hleft.composes hr₁).trans (hdoes.composes
    [.lone (.alu (aluOp op) left left right), .push left] (by simpa [Idiom.Proper] using Lone.alu hl)))

theorem Applied.composes {op : UnaryOp} (h : Applied op s t) (hs : Ready [] s) : Composes I [] params s t := by
  rcases h with ⟨_, rfl⟩ | ⟨r, t₁, q, hop, hr, _, hdoes⟩
  · exact .refl _
  · have htemp := hr.temporary
    refine (hr.composes hs).trans ?_
    cases op with
    | plus => exact absurd rfl hop
    | minus => exact hdoes.composes [.lone (.neg r r), .push r] (by simpa [Idiom.Proper] using Lone.neg htemp)
    | invert => exact hdoes.composes [.lone (.not r r), .push r] (by simpa [Idiom.Proper] using Lone.not htemp)

theorem Compared.composes {op : CompareOp} (h : Compared op s t) (hs : Ready [] s) : Composes I [] params s t := by
  obtain ⟨right, left, result, label, t₁, t₂, t₃, t₄, t₅, q, q', q'', hright, hr₁, hleft, hr₂, hresult, _, htest, hzero,
    hpush⟩ := h
  have hr := hresult.temporary
  have hoperands : Composes I [] params s t₃ :=
    (hright.composes hs).trans ((hleft.composes hr₁).trans (hresult.composes hr₂))
  have hjump : Composes I [] params t₃ t₄ := by
    refine htest.composes_of [.lone (.li result 1), .lone (.branch (branchTest op) left right label)] ?_
      (fun {x r} hx _ => htest.holder_nextLabel x ▸ hx) (by simpa [Idiom.Proper] using ⟨Lone.li hr, Lone.branch⟩)
    rw [htest.arena, htest.current, (Arena.alike_nextLabel _ _ _).table_eq]
  have hskipped : Composes I [] params t₄ t₅ :=
    hzero.composes [.lone (.li result 0)] (by simpa [Idiom.Proper] using Lone.li hr)
  exact hoperands.trans (hjump.trans (hskipped.trans ((composes_place t₅ label).trans
    (hpush.composes [.push result] (by simp [Idiom.Proper])))))

theorem Called.composes {callee : Callee} (h : Called callee s t) (hs : Ready [] s)
    (hparams : callee.params.map (·.2) = RegisterClass.argument.members.take callee.params.length) :
    Composes I [] params s t := by
  obtain ⟨l, t₁, t₂, t₃, t₄, t₅, q, q', hnote, hcleared, hpops, hcall, hr₄, hreloads, hpush⟩ := h
  have hr₁ := hnote.ready_of_eq hs
  rw [hparams] at hpops
  have hdoes : Does ([Idiom.call callee.label callee.params.length].flatMap Idiom.instrs) q' t₂.arena t₂ t₄ := by
    simpa [Idiom.instrs] using hpops.trans hcall
  have hcalled : Composes I [] params t₂ t₄ := hdoes.composes _ (by simp [Idiom.Proper])
  exact (hnote.composes [] (by simp)).trans ((hcleared.spills.composes hr₁).trans (hcalled.trans
    ((hreloads.composes hr₄).trans (hpush.composes [.push callee.result] (by simp [Idiom.Proper])))))

theorem Printed.composes (h : Printed s t) (hs : Ready [] s) : Composes I [] params s t := by
  obtain ⟨l, t₁, t₂, t₃, t₄, q, q', hcleared, hargument, hcall, hr₃, hreloads, hpush⟩ := h
  have hcalled : Composes I [] params t₁ t₃ := (hargument.trans hcall).composes [.print] (by simp [Idiom.Proper])
  have hprinting : Composes I [] params t₃ t₃.printing :=
    ⟨rfl, List.prefix_refl _, fun h _ => h, [], (List.append_nil _).symm, .nil⟩
  exact (hcleared.spills.composes hs).trans (hcalled.trans (hprinting.trans
    ((hreloads.composes hr₃).trans (hpush.composes [.push .zero] (by simp [Idiom.Proper])))))

/-- **The code of an expression is made of idioms.** -/
theorem Pushes.composes {n : Nat} (h : Pushes n s t) (hs : Ready [] s) : Composes I [] params s t := by
  induction h with
  | none => exact .refl _
  | loaded h _ => exact h.composes hs
  | fetched h _ => exact h.composes hs
  | combined hpushes h _ ih => exact (ih hs).trans (h.composes hpushes.settled.ready)
  | compared hpushes h _ ih => exact (ih hs).trans (h.composes hpushes.settled.ready)
  | applied hpushes h _ ih => exact (ih hs).trans (h.composes hpushes.settled.ready)
  | printed hpushes h _ ih => exact (ih hs).trans (h.composes hpushes.settled.ready)
  | called hpushes hcallee h _ ih =>
      have ht := hpushes.settled.ready
      exact (ih hs).trans (h.composes ht (ht.named.params hcallee))
  | append hpushes _ ih ih' => exact (ih hs).trans (ih' hpushes.settled.ready)

/-! ## Assignments and results -/

theorem went_end {p : Milestone} (h : Went I (milestone p) s () t) : t = s ∧ I p s := by
  have hrun := h.run
  rw [run_milestone, EStateM.Result.ok.injEq] at hrun
  exact ⟨hrun.2.symm, h.passes p s (Or.inl ⟨rfl, rfl⟩)⟩

/-- The milestone behind an assignment. -/
theorem Went.binding (h : Went I (popVariable v) s () t) : I .binding t := by
  have hend : ∀ {r : Register} {u : State}, Went I (bindVariable v r) u () t → I .binding t := by
    intro r u h
    obtain ⟨_, _, _, h'⟩ := Went.bind h
    obtain ⟨rfl, hI⟩ := went_end h'
    exact hI
  unfold popVariable at h
  have hread := h.look
  dsimp only at hread
  split at hread
  · obtain ⟨_, _, _, h₁⟩ := hread.bind
    obtain ⟨_, _, _, h₂⟩ := h₁.look.bind
    obtain ⟨_, _, _, h₃⟩ := h₂.bind
    exact hend h₃
  · obtain ⟨_, _, _, h₁⟩ := hread.bind
    obtain ⟨_, _, _, h₂⟩ := h₁.look.bind
    obtain ⟨_, _, _, h₃⟩ := h₂.bind
    exact hend h₃

theorem Bound.composes {name : String} (h : Bound name v s t) : Composes I [] params s t := by
  obtain ⟨new, hnew, hcomments⟩ := h.does.comments
  refine ⟨h.does.frames, ?_, fun {x r} hx _ => h.holder_eq x ▸ hx, ofLines new, by rw [hnew, linesOf_ofLines],
    composed_comments hcomments⟩
  rw [h.completes.advances.current]
  exact h.completes.advances.grows.table_prefix

/-- **A value is stored to a variable**: to a temporary, or to the register of the parameter that is there. -/
theorem Stored.composes {var : Variable} (h : Stored v s t) (hs : Ready [] s) (hvar : Local s.arena s.current v var)
    (hhomes : Homes params s) (hI : I .binding t) : Composes I [] params s t := by
  obtain ⟨r, mid, hmid, hdoes⟩ := h
  have halike : mid.arena.Alike (mid.arena.updateVariable v (·.bind r)) := Arena.alike_updateVariable fun _ => rfl
  have htable : t.arena.table t.current = mid.arena.table mid.current := by
    rw [hdoes.arena, hdoes.current, halike.table_eq]
  rcases hmid with ⟨hact, rfl⟩ | ⟨_, halloc⟩
  · -- the variable keeps the register that it is in, which may be a parameter's
    have hholder := holder_bind hs hvar hdoes
    have hname : mid.holder var.name = some r :=
      holder_eq_some_iff.mpr ⟨v, hs.named.meaning hvar.1 hvar.2.2, hact⟩
    have hnarrows : ∀ {x r'}, t.holder x = some r' → r'.classOf? = some .argument → mid.holder x = some r' := by
      intro x r' hx _
      rw [hholder] at hx
      split at hx
      · rename_i heq; rw [heq, hname, ← hx]
      · exact hx
    obtain ⟨new, hnew, hfilter⟩ := hdoes.lines
    refine ⟨hdoes.frames, htable ▸ List.prefix_refl _, hnarrows, [] ++ ofLines new,
      by rw [hnew, List.nil_append, linesOf_ofLines], ?_⟩
    refine .idiom .nil (.pop r) new hfilter ?_
    by_cases hclass : r.classOf? = some .argument
    · obtain ⟨k, hk⟩ := List.getElem?_of_mem (RegisterClass.mem_members_iff.mpr hclass)
      refine Or.inr (Or.inr ⟨hclass, t, var.name, k, hI, ?_, by rw [hholder, if_pos rfl], hk, hhomes hname hk⟩)
      rw [hnew, linesOf, List.append_nil]
    · have hclobbered := hs.tidy.clobbered hact
      simp only [Register.isCallerClobbered, Bool.or_eq_true, beq_iff_eq] at hclobbered
      exact Or.inl (hclobbered.resolve_right hclass)
  · -- the variable gets a temporary
    have hr := halloc.temporary
    have hsteady := halloc.steady hs
    obtain ⟨var', hvar', _⟩ := hvar.of_alike hsteady.alike
    have hholder := holder_bind (halloc.ready hs) (hsteady.current ▸ hvar') hdoes
    refine (halloc.composes hs).trans (hdoes.composes_of [.pop r] htable (fun {x r'} hx hr' => ?_)
      (by simp [Idiom.Proper, hr]))
    rw [hholder] at hx
    split at hx
    · rw [← Option.some.inj hx, hr] at hr'
      exact absurd hr' (by simp)
    · exact hx

theorem lowerAssign_composes {targets : List Expr} {value : Expr} {loc : Position} (hs : Ready [] s)
    (hhomes : Homes params s) (h : Went I (lowerAssign targets value loc) s () t) : Composes I [] params s t := by
  match targets with
  | [] => exact absurd h.run (by simp [lowerAssign])
  | _ :: _ :: _ => exact absurd h.run (by simp [lowerAssign])
  | [target] =>
      obtain ⟨name, s', h₀, hdefine⟩ := h.bind
      obtain ⟨hs', _⟩ := (targetName_ensures (I := Inner) target loc).run_ok h₀.run
      subst hs'
      obtain ⟨v, t₁, h₁, hvalue⟩ := hdefine.bind
      have hbound := (defineLocal_ensures (I := Inner) hs name loc).run_ok h₁.run
      obtain ⟨var, hvar, _⟩ := hbound.isLocal
      obtain ⟨_, t₂, h₂, h₃⟩ := hvalue.bind
      have hpushes := (lowerExpr_pushes value hbound.completes.ready).run_ok h₂.run
      obtain ⟨var', hvar', _⟩ := hvar.of_alike hpushes.settled.steady.alike
      have hvar₂ := hpushes.settled.steady.current ▸ hvar'
      have hstored := (popVariable_ensures hpushes.settled.ready hvar₂).run_ok h₃.run
      have hcomposes : Composes I [] params s' t₂ := hbound.composes.trans (hpushes.composes hbound.completes.ready)
      exact hcomposes.trans (hstored.1.composes hpushes.settled.ready hvar₂ (hcomposes.homes hhomes) h₃.binding)

theorem lowerAugAssign_composes {target : Expr} {op : BinaryOp} {value : Expr} {loc : Position} (hs : Ready [] s)
    (hhomes : Homes params s) (h : Went I (lowerAugAssign target op value loc) s () t) : Composes I [] params s t := by
  obtain ⟨name, s', h₀, hresolve⟩ := h.bind
  obtain ⟨hs', _⟩ := (targetName_ensures (I := Inner) target loc).run_ok h₀.run
  obtain ⟨v, s'', h₀', hfetch⟩ := hresolve.bind
  obtain ⟨hs'', _, var, hvar, _⟩ := (resolveLocal_ensures (I := Inner) name loc).run_ok h₀'.run
  subst hs'' hs'
  obtain ⟨_, t₁, h₁, hvalue⟩ := hfetch.bind
  have hfetched := (pushVariable_ensures hs name loc).run_ok h₁.run
  obtain ⟨_, t₂, h₂, hcombine⟩ := hvalue.bind
  have hpushed := (lowerExpr_pushes value hfetched.2.ready).run_ok h₂.run
  obtain ⟨_, t₃, h₃, h₄⟩ := hcombine.bind
  have hcombined := (combineBinary_ensures hpushed.settled.ready op).run_ok h₃.run
  have hpushes := ((Pushes.fetched hfetched.1 hfetched.2).append hpushed).combined hcombined.1 hcombined.2
  obtain ⟨var', hvar', _⟩ := hvar.of_alike hpushes.settled.steady.alike
  have hvar₃ := hpushes.settled.steady.current ▸ hvar'
  have hstored := (popVariable_ensures hpushes.settled.ready hvar₃).run_ok h₄.run
  have hcomposes : Composes I [] params s'' t₃ := hpushes.composes hs
  exact hcomposes.trans (hstored.1.composes hpushes.settled.ready hvar₃ (hcomposes.homes hhomes) h₄.binding)

theorem lowerReturn_composes {value : Option Expr} {loc : Position} (hs : Ready [] s)
    (hrun : (lowerReturn value loc).run s = .ok () t) : Composes I [] params s t := by
  suffices hensures : (lowerReturn value loc).Ensures Inner s fun _ t => Composes I [] params s t from
    hensures.run_ok hrun
  unfold lowerReturn
  rw [ensures_bind, ensures_look]
  cases hframes : s.frames with
  | nil => trivial
  | cons frame rest =>
      have hfinish : ∀ {u : State}, Composes I [] params s u →
          (emitInstrs frame.epilogue).Ensures Inner u fun _ t => Composes I [] params s t := fun hu =>
        (emitInstrs_does _).mono fun _ t ht => hu.trans (Does.composes [.closes frame]
          (by simpa [Idiom.instrs] using ht) (by simp [Idiom.Proper, hu.frames, hframes]))
      cases value with
      | some e =>
          refine (lowerExpr_pushes e hs).bind fun _ t₁ h₁ => (emitInstrs_does _).bind fun _ t₂ h₂ => ?_
          exact hfinish ((h₁.composes hs).trans (h₂.composes [.pop resultRegister] (by simp [Idiom.Proper])))
      | none =>
          exact (emitInstrs_does _).bind fun _ t₁ h₁ => hfinish (h₁.composes [.zero] (by simp [Idiom.Proper]))

theorem lowerExprStmt_composes {e : Expr} (hs : Ready [] s) (hrun : (lowerExprStmt e).run s = .ok () t) :
    Composes I [] params s t := by
  suffices hensures : (lowerExprStmt e).Ensures Inner s fun _ t => Composes I [] params s t from hensures.run_ok hrun
  unfold lowerExprStmt
  rw [ensures_bind, ensures_look]
  dsimp only
  split
  · exact (comment_does _).mono fun _ t ht => ht.composes [] (by simp)
  · refine (lowerExpr_pushes e hs).bind fun _ t ht => (emitInstrs_does _).mono fun _ u hu => ?_
    exact (ht.composes hs).trans (hu.composes [.pop resultRegister] (by simp [Idiom.Proper]))

/-! ## Control flow -/

variable {names names' : List String}

/-- The code of a body is made of idioms, wherever it stands. -/
def Composing (I : Milestone → State → Prop) (D : List Stmt) (params : List String) (body : Lower Unit) : Prop :=
  ∀ {s t : State}, Ready [] s → Homes params s → Went I body s () t → Composes I D params s t

theorem composes_nextLabel {scope : ScopeId} {purpose : String}
    (h : Does [] s.pool (s.arena.nextLabel scope purpose).2 s t) : Composes I [] params s t := by
  refine h.composes_of [] ?_ (fun {x r} hx _ => h.holder_nextLabel x ▸ hx) (by simp)
  rw [h.arena, h.current, (Arena.alike_nextLabel _ _ _).table_eq]

theorem Synchronised.composes (h : Synchronised s t) (hs : Ready [] s) : Composes I [] params s t := by
  obtain ⟨l, hspills⟩ := h.spills
  exact hspills.composes hs

theorem Tested.composes {label : String} (h : Tested label s t) (hs : Ready [] s) : Composes I [] params s t := by
  obtain ⟨r, t₁, q, hpopped, _, hdoes⟩ := h
  exact (hpopped.composes hs).trans (hdoes.composes [.lone (.beqz r label)] (by simpa [Idiom.Proper] using Lone.beqz))

theorem Entered.composes (h : Entered s t) (hs : Ready [] s) : Composes I [] params s t := by
  obtain ⟨new, hnew, hcomments⟩ := Does.comments h
  exact ⟨h.frames, (h.extends hs).table, fun {x r} hx _ => h.holder_eq hs x ▸ hx, ofLines new,
    by rw [hnew, linesOf_ofLines], composed_comments hcomments⟩

theorem Left.composes {outer : ScopeId} (h : Left outer s t) (hidle : Idle s.arena)
    (hroot : (s.arena.get s.current).root = (s.arena.get outer).root) : Composes I [] params s t := by
  have hidle' := h.idle hidle
  have htable := (h.extends hroot).table
  obtain ⟨q, a, hdoes, _⟩ := h
  obtain ⟨new, hnew, hcomments⟩ := hdoes.comments
  refine ⟨hdoes.frames, htable, fun {x r} hx _ => ?_, ofLines new, by rw [hnew, linesOf_ofLines],
    composed_comments hcomments⟩
  rw [holder_of_inactive hidle'.activeRegister?_eq_none] at hx
  exact absurd hx (by simp)

/-- What is put down in a block is made of idioms if the code in it is. -/
theorem inBlock_composes {code : ScopeId → Lower Unit} (hs : Ready [] s) (hhomes : Homes params s)
    (hcode : ∀ e u, Entered s e → Ready [] e → Homes params e → Went I (code s.current) e () u →
      Composes I D params e u ∧ Idle u.arena ∧ ∃ names fns named, Completes names fns named e u)
    (h : Went I (inBlock code) s () t) : Composes I D params s t ∧ Idle t.arena ∧ Ready [] t := by
  unfold inBlock at h
  obtain ⟨outer, e, h₁, h'⟩ := h.bind
  obtain ⟨houter, henter, he⟩ := (enterBlock_ensures hs).run_ok h₁.run
  subst houter
  obtain ⟨_, u, h₂, h₃⟩ := h'.bind
  have henters : Composes I [] params s e := henter.composes hs
  obtain ⟨hinside, hidle, names, fns, named, hcompletes⟩ := hcode e u henter he (henters.homes hhomes) h₂
  obtain ⟨hparent, hroot⟩ := henter.outer hs hcompletes.advances
  obtain ⟨hleft, hready⟩ := (leaveBlock_ensures hcompletes.ready hidle hparent hroot).run_ok h₃.run
  exact ⟨henters.trans (hinside.trans_plain (hleft.composes hidle hroot)), hleft.idle hidle, hready⟩

theorem lowerElse_composes {elseLabel : String} {orelse : Lower Unit} {hasElse : Bool} (hs : Ready [] s)
    (henter : Entered s t) (ht : Ready [] t) (hhomes : Homes params t) (horelse : BodyContract names orelse)
    (hnone : hasElse = false → D = []) (hcomposing : Composing I D params orelse)
    (h : Went I (lowerElse elseLabel orelse hasElse s.current) t () u) : Composes I D params t u := by
  have houter := henter.outer_lt hs
  cases hasElse with
  | false =>
      have hplace := (placeLabel_ensures (I := Sound) ht ht.sound_join).run_ok h.run
      rw [hplace.1, hnone rfl]
      exact composes_place t elseLabel
  | true =>
      unfold lowerElse at h
      rw [if_pos rfl] at h
      obtain ⟨endLabel, t₁, h₁, h'⟩ := h.bind
      obtain ⟨hmade, hr₁, _⟩ := (nextLabel_ensures (I := Sound) ht "endif" houter).run_ok h₁.run
      obtain ⟨_, t₂, h₂, h''⟩ := h'.bind
      have hjump := (jumpTo_does (I := Sound) hr₁.sound_join).run_ok h₂.run
      have hr₂ := hjump.ready_of_eq hr₁
      obtain ⟨_, t₃, h₃, hrest⟩ := h''.bind
      obtain ⟨hplace, hadv, hr₃⟩ := (placeLabel_ensures (I := Sound) hr₂ hr₂.sound_join).run_ok h₃.run
      have hstart : Composes I [] params t t₃ := by
        rw [hplace]
        exact (composes_nextLabel hmade).trans ((hjump.composes [.lone (.jump endLabel)]
          (by simpa [Idiom.Proper] using Lone.jump)).trans (composes_place t₂ elseLabel))
      have hne : t₃.current ≠ globalScope := by
        rw [hadv.current, hjump.current, hmade.current]; exact henter.current_ne hs
      obtain ⟨_, t₄, h₄, hrest'⟩ := hrest.bind
      obtain ⟨fns, hbranch⟩ := (horelse t₃ hr₃ hne).run_ok h₄.run
      obtain ⟨_, t₅, h₅, h₆⟩ := hrest'.bind
      have hsaved := (synchronise_settled hbranch.ready).run_ok h₅.run
      have hend := (placeLabel_ensures (I := Sound) hsaved.settled.ready hsaved.settled.ready.sound_join).run_ok h₆.run
      rw [hend.1]
      exact hstart.trans ((hcomposing hr₃ (hstart.homes hhomes) h₄).trans_plain
        ((hsaved.composes hbranch.ready).trans (composes_place t₅ endLabel)))

theorem lowerCond_composes {test : Expr} {body orelse : Lower Unit} {hasElse : Bool} (hs : Ready [] s)
    (hhomes : Homes params s) (hbody : BodyContract names body) (horelse : BodyContract names' orelse)
    (hnames : hasElse = false → names' = []) (hnone : hasElse = false → D' = []) (hfirst : Composing I D params body)
    (hsecond : Composing I D' params orelse) (h : Went I (lowerCond test body orelse hasElse) s () t) :
    Composes I (D ++ D') params s t := by
  unfold lowerCond at h
  obtain ⟨elseLabel, t₁, h₁, h'⟩ := h.look.bind
  obtain ⟨hmade, hr₁, _⟩ := (nextLabel_ensures (I := Sound) hs "else" hs.named.current_lt).run_ok h₁.run
  obtain ⟨_, t₂, h₂, h''⟩ := h'.bind
  have hvalue := (lowerExpr_pushes test hr₁).run_ok h₂.run
  obtain ⟨_, t₃, h₃, hrest⟩ := h''.bind
  have hsaved := (synchronise_settled hvalue.settled.ready).run_ok h₃.run
  obtain ⟨_, t₄, h₄, hblocks⟩ := hrest.bind
  obtain ⟨htested, hsettled⟩ := (branchIfZero_ensures (I := Sound) (p := .join elseLabel) hsaved.settled.ready elseLabel
    (fun _ _ => Inner.sound) fun _ _ _ hu => hu.sound_join).run_ok h₄.run
  have hbranch : Composes I [] params s t₄ := (composes_nextLabel hmade).trans ((hvalue.composes hr₁).trans
    ((hsaved.composes hvalue.settled.ready).trans (htested.composes hsaved.settled.ready)))
  obtain ⟨_, t₅, h₅, h₆⟩ := hblocks.bind
  -- the first branch, in a block of its own
  have hinside : ∀ e u, Entered t₄ e → Ready [] e → Homes params e → Went I (do body; synchronise) e () u →
      Composes I D params e u ∧ Idle u.arena ∧ ∃ names fns named, Completes names fns named e u := by
    intro e u henter he hhomes' w
    obtain ⟨_, b, hrun, hsync⟩ := w.bind
    obtain ⟨fns, hb⟩ := (hbody e he (henter.current_ne hsettled.ready)).run_ok hrun.run
    have hsaved' := (synchronise_settled hb.ready).run_ok hsync.run
    exact ⟨(hfirst he hhomes' hrun).trans_plain (hsaved'.composes hb.ready), hsaved'.idle, names, fns, [],
      hsaved'.settled.ready, hb.advances.steady hsaved'.settled.steady he.named.current_lt⟩
  obtain ⟨hblock, hidle, hr₅⟩ := inBlock_composes hsettled.ready (hbranch.homes hhomes) hinside h₅
  -- the second branch, in another one
  have hjoined : Composes I D params s t₅ := hbranch.trans hblock
  refine hjoined.trans (inBlock_composes hr₅ (hjoined.homes hhomes) (fun e u henter he hhomes' w => ?_) h₆).1
  obtain ⟨⟨fns, hcompletes⟩, hidle', _⟩ :=
    (lowerElse_ensures hr₅ henter he (henter.idle hidle) horelse hnames).run_ok w.run
  exact ⟨lowerElse_composes hr₅ henter he hhomes' horelse hnone hsecond w, hidle', _, fns, _, hcompletes⟩

theorem lowerTurns_composes {e : State} {test : Expr} {body : Lower Unit} (hs : Ready [] s) (henter : Entered s e)
    (he : Ready [] e) (hhomes : Homes params e) (hbody : BodyContract names body)
    (hcomposing : Composing I D params body) (h : Went I (lowerTurns test body) e () u) :
    Composes I D params e u := by
  unfold lowerTurns at h
  -- up to the label of the test
  obtain ⟨top, t₁, h₁, h'⟩ := h.look.bind
  obtain ⟨hmade, hr₁, _⟩ := (nextLabel_ensures (I := Sound) he "while" he.named.current_lt).run_ok h₁.run
  obtain ⟨done, t₂, h₂, h''⟩ := h'.look.bind
  obtain ⟨hmade', hr₂, _⟩ := (nextLabel_ensures (I := Sound) hr₁ "break" hr₁.named.current_lt).run_ok h₂.run
  obtain ⟨_, t₃, h₃, hrest⟩ := h''.bind
  have hclean := (synchronise_settled hr₂).run_ok h₃.run
  obtain ⟨_, t₄, h₄, htest⟩ := hrest.bind
  obtain ⟨hplace, _, hr₄⟩ :=
    (placeLabel_ensures (I := Sound) hclean.settled.ready hclean.settled.ready.sound_join).run_ok h₄.run
  have hstart : Composes I [] params e t₄ := by
    rw [hplace]
    exact (composes_nextLabel hmade).trans ((composes_nextLabel hmade').trans
      ((hclean.composes hr₂).trans (composes_place t₃ top)))
  -- the test, and the branch out of the loop
  obtain ⟨_, t₅, h₅, hbranch⟩ := htest.bind
  have hvalue := (lowerExpr_pushes test hr₄).run_ok h₅.run
  obtain ⟨_, t₆, h₆, hturn⟩ := hbranch.bind
  obtain ⟨htested, hsettled⟩ := (branchIfZero_ensures (I := Sound) (p := .exit top) hvalue.settled.ready done
    (fun _ _ => Inner.sound) fun _ _ _ hu => hu.sound (by simp)).run_ok h₆.run
  have hinside : Composes I [] params e t₆ :=
    hstart.trans ((hvalue.composes hr₄).trans (htested.composes hvalue.settled.ready))
  have hne : t₆.current ≠ globalScope := by
    rw [hsettled.steady.current, hvalue.settled.steady.current, hplace]
    show t₃.current ≠ globalScope
    rw [hclean.settled.steady.current, hmade'.current, hmade.current]
    exact henter.current_ne hs
  -- the body, and back to the test
  obtain ⟨_, t₇, h₇, hback⟩ := hturn.bind
  obtain ⟨fns, hfinish⟩ := (hbody t₆ hsettled.ready hne).run_ok h₇.run
  obtain ⟨_, t₈, h₈, hjump⟩ := hback.bind
  have hsaved := (synchronise_settled hfinish.ready).run_ok h₈.run
  obtain ⟨_, t₉, h₉, h₁₀⟩ := hjump.bind
  have hdoes := (jumpTo_does (I := Sound) hsaved.settled.ready.sound_join).run_ok h₉.run
  have hr₉ := hdoes.ready_of_eq hsaved.settled.ready
  have hend := (placeLabel_ensures (I := Sound) hr₉ hr₉.sound_join).run_ok h₁₀.run
  rw [hend.1]
  have hagain : Composes I [] params t₈ t₉ :=
    hdoes.composes [.lone (.jump top)] (by simpa [Idiom.Proper] using Lone.jump)
  exact hinside.trans ((hcomposing hsettled.ready (hinside.homes hhomes) h₇).trans_plain
    ((hsaved.composes hfinish.ready).trans (hagain.trans (composes_place t₉ done))))

theorem lowerLoop_composes {test : Expr} {body : Lower Unit} (hs : Ready [] s) (hhomes : Homes params s)
    (hbody : BodyContract names body) (hcomposing : Composing I D params body)
    (h : Went I (lowerLoop test body) s () t) : Composes I D params s t := by
  refine (inBlock_composes hs hhomes (fun e u henter he hhomes' w => ?_) h).1
  obtain ⟨⟨fns, hcompletes⟩, hidle, _⟩ := (lowerTurns_ensures hs henter he test hbody).run_ok w.run
  exact ⟨lowerTurns_composes hs henter he hhomes' hbody hcomposing w, hidle, _, fns, _, hcompletes⟩

/-! ## Functions -/

theorem Paused.composes {skip : Option String} (h : Paused skip s mid) (hs : Ready [] s) :
    Composes I [] params s mid := by
  obtain ⟨l, t₁, t₂, hnote, hspills, hpath⟩ := h.path
  have hsaved : Composes I [] params s t₂ :=
    (hnote.composes [] (by simp)).trans (hspills.composes (hnote.ready_of_eq hs))
  rcases hpath with ⟨_, _, rfl⟩ | ⟨label, _, hdoes⟩
  · exact hsaved
  · refine hsaved.trans (hdoes.composes_of [.lone (.jump label)] ?_ (fun {x r} hx _ => hdoes.holder_nextLabel x ▸ hx)
      (by simpa [Idiom.Proper] using Lone.jump))
    rw [hdoes.arena, hdoes.current, (Arena.alike_nextLabel _ _ _).table_eq]

/-- At the start of a body the parameters are in their registers, and nothing else is in one. -/
theorem Opened.holder_iff {name x : String} {o : Opening} {f : Callee} (h : Opened name params o f mid t) :
    t.holder x = some r ↔ ∃ k : Nat, params[k]? = some x ∧ RegisterClass.argument.members[k]? = some r := by
  constructor
  · intro hx
    obtain ⟨v, hv, hr⟩ := holder_eq_some_iff.mp hx
    obtain ⟨_, var, hvar, rfl⟩ := Arena.resolve?_some hv
    -- the variable has a slot, and those are the parameters
    have hslot := h.ready.named.slot hvar (h.ready.tidy.place hr).2
    rw [h.table_eq] at hslot
    obtain ⟨v', r', hr', hv', hact⟩ := h.holder hslot
    obtain rfl : v = v' := Option.some.inj (hv.symm.trans hv')
    obtain rfl : r = r' := Option.some.inj (hr.symm.trans hact)
    exact ⟨var.slot, hslot, hr'⟩
  · rintro ⟨k, hx, hr⟩
    obtain ⟨v, r', hr', hv, hact⟩ := h.holder hx
    obtain rfl : r = r' := Option.some.inj (hr.symm.trans hr')
    exact holder_eq_some_iff.mpr ⟨v, hv, hact⟩

theorem Opened.homes {name : String} {o : Opening} {f : Callee} (h : Opened name params o f mid t) :
    Homes params t := by
  intro x r k hx hk
  obtain ⟨j, hj, hr⟩ := h.holder_iff.mp hx
  have hnodup : RegisterClass.argument.members.Nodup := by decide
  obtain rfl : k = j := (List.getElem?_inj (List.getElem?_eq_some_iff.mp hk).1 hnodup).mp (hk.trans hr.symm)
  exact hj

theorem composed_labels {frame? : Option Frame} {n : Nat} {front : List Line} {ps : List Part} (xs : List String)
    (h : Composed I D frame? params n front ps) :
    Composed I D frame? params n front (ps ++ ofLines (xs.map Line.label)) := by
  induction xs generalizing ps with
  | nil => exact (List.append_nil ps).symm ▸ h
  | cons x rest ih =>
      have hrest := ih (h.label x)
      rw [List.append_assoc] at hrest
      exact hrest

section Stations

variable {name : String} {params' : List String} {stmts : List Stmt} {body : Lower Unit} {loc : Position} {o : Opening}
  {f : Callee} {start finish last : State} {fns : List Callee}

/-- **The code inside a function is made of idioms**, up to its end. -/
theorem Stations.composed (h : Stations name params' stmts body loc o f s mid start finish last t)
    (hdone : Completes (boundNames stmts) fns [] start finish) (hbody : Composes I D params' start finish) :
    ∃ ps, last.code.toList = start.code.toList ++ linesOf ps ∧
      Composed I D (some o.frame) params' o.frame.slots start.code.toList ps := by
  have hhead : finish.frames.head? = some o.frame := by rw [hbody.frames, h.opened.frames]; rfl
  have hslots := h.slotCount_eq hdone
  rcases h.returns with ⟨_, rfl⟩ | hdoes
  · obtain ⟨ps, hps, hcomposed⟩ := hbody.text
    rw [h.opened.frames, hslots] at hcomposed
    exact ⟨ps, hps, hcomposed⟩
  · have hdoes' : Does ([Idiom.zero, .closes o.frame].flatMap Idiom.instrs) finish.pool finish.arena finish last := by
      simpa [Idiom.instrs] using hdoes
    obtain ⟨ps, hps, hcomposed⟩ := (hbody.trans_plain (hdoes'.composes _ (by simp [Idiom.Proper, hhead]))).text
    rw [h.opened.frames, hdoes.arena, hdoes.current, hslots] at hcomposed
    exact ⟨ps, hps, hcomposed⟩

/-- **A function is a piece of the text** around it. -/
theorem Stations.composes {span : Span} (h : Stations name params' stmts body span.start o f s mid start finish last t)
    (hs : Ready [] s) (hI : I .boundary s) {named : List String} (hcompletes : Completes [] [f] named s t)
    (hdone : Completes (boundNames stmts) fns [] start finish) (hbody : Composes I D params' start finish) :
    Composes I (.funcDef span name params' stmts :: D) params s t := by
  have hmid : Composes I [] params s mid := h.paused.composes hs
  obtain ⟨ps, hps, hpaused⟩ := hmid.text
  obtain ⟨qs, hqs, hinside⟩ := h.composed hdone hbody
  obtain ⟨comments, hcomments, hend⟩ := h.closed.lines
  have hstart : start.code.toList =
      s.code.toList ++ linesOf ps ++ functionHeader o.label ++ o.frame.prologue.map Line.instr := by
    rw [h.opened.code_eq, hps]; simp only [List.append_assoc]
  have hle : mid.arena.slotCount mid.current ≤ t.arena.slotCount t.current := by
    rw [h.paused.steady.slotCount_eq]; exact hcompletes.advances.slotCount_le
  refine ⟨hcompletes.advances.frames, hcompletes.advances.extends.table, fun {x r} hx _ => ?_,
    ps ++ [.function o.label (ofInstrs o.frame.prologue ++ (qs ++ ofLines comments))] ++
      ofLines (o.skip.toList.map Line.label), ?_, ?_⟩
  · rw [holder_of_inactive h.idle.activeRegister?_eq_none] at hx
    exact absurd hx (by simp)
  · rw [hend, hqs, hstart, linesOf_append, linesOf_append, linesOf_function, linesOf_append, linesOf_append,
      linesOf_ofInstrs, linesOf_ofLines, linesOf_ofLines]
    simp only [List.append_assoc, List.cons_append, List.nil_append]
  · -- the comments that are put down at its end belong to its body
    have hdefines : Defines I (.funcDef span name params' stmts) o.label o.frame params' start.code.toList :=
      ⟨s, span, name, stmts, o, start, rfl, hI, h.enter, rfl, rfl, rfl⟩
    have hbody := hinside.append (composed_comments hcomments)
    rw [List.append_nil] at hbody
    rw [hstart] at hdefines hbody
    exact composed_labels _ (.function (hpaused.mono hle) hdefines hbody)

end Stations

theorem lowerFunction_composes {span : Span} {name : String} {params' : List String} {stmts : List Stmt}
    {body : Lower Unit} (hs : Ready [] s) (hI : I .boundary s) (hbody : BodyContract (boundNames stmts) body)
    (hcomposing : Composing I D params' body) (h : Went I (lowerFunction name params' stmts body span.start) s () t) :
    Composes I (.funcDef span name params' stmts :: D) params s t := by
  obtain ⟨o, f, mid, start, finish, last, hstations, hcompletes⟩ :=
    (lowerFunction_ensures hs name params' stmts span.start hbody).run_ok h.run
  have hopened := hstations.opened
  obtain ⟨fns, hdone⟩ :=
    (hbody start hopened.ready (hopened.current_ne_globalScope hstations.paused)).run_ok hstations.run_body
  have hwent : Went I body start () finish := ⟨hstations.run_body, fun p u hp =>
    h.passes p u (passes_bind (t := s) rfl (passes_bind hstations.enter (passes_bind_left hp)))⟩
  exact hstations.composes hs hI hcompletes hdone (hcomposing hopened.ready hopened.homes hwent)

/-! ## Statements and modules -/

mutual

/-- **The code of a statement is made of idioms.** -/
theorem lowerStmt_composes : ∀ (st : Stmt) {params : List String} {s t : State}, Ready [] s → Homes params s →
    I .boundary s → Went I (lowerStmt st) s () t → Composes I (functionsIn st) params s t
  | .pass span, params, s, t, _, _, _, h => by
      have hrun := h.run
      rw [lowerStmt, run_pure, EStateM.Result.ok.injEq] at hrun
      rw [← hrun.2]
      exact .refl s
  | .ret span value, params, s, t, hs, _, _, h => by rw [lowerStmt] at h; exact lowerReturn_composes hs h.run
  | .expr span value, params, s, t, hs, _, _, h => by rw [lowerStmt] at h; exact lowerExprStmt_composes hs h.run
  | .assign span targets value, params, s, t, hs, hhomes, _, h => by
      rw [lowerStmt] at h
      exact lowerAssign_composes hs hhomes h
  | .augAssign span target op value, params, s, t, hs, hhomes, _, h => by
      rw [lowerStmt] at h
      exact lowerAugAssign_composes hs hhomes h
  | .cond span test body orelse, params, s, t, hs, hhomes, _, h => by
      rw [lowerStmt] at h
      exact lowerCond_composes hs hhomes (lowerBlock_contract body) (lowerBlock_contract orelse) boundNames_of_noElse
        (fun hempty => by rw [eq_nil_of_noElse hempty]; rfl) (lowerBlock_composes body) (lowerBlock_composes orelse) h
  | .loop span test body, params, s, t, hs, hhomes, _, h => by
      rw [lowerStmt] at h
      exact lowerLoop_composes hs hhomes (lowerBlock_contract body) (lowerBlock_composes body) h
  | .funcDef span name params' body, params, s, t, hs, _, hI, h => by
      rw [lowerStmt] at h
      exact lowerFunction_composes hs hI (lowerBlock_contract body) (lowerBlock_composes body) h

/-- The code of a block, statement by statement. -/
theorem lowerBlock_composes : ∀ (ss : List Stmt) {params : List String},
    Composing I (functionsOf ss) params (lowerBlock ss)
  | [], params, s, t, _, _, h => by
      rw [lowerBlock] at h
      rw [(went_end h).1]
      exact .refl s
  | st :: rest, params, s, t, hs, hhomes, h => by
      rw [lowerBlock] at h
      obtain ⟨hI, h'⟩ := h.milestone
      obtain ⟨_, u, hst, hrest⟩ := h'.bind
      obtain ⟨_, _, hcompletes⟩ := (lowerStmt_ensures st hs).run_ok hst.run
      have hfirst := lowerStmt_composes st hs hhomes hI hst
      exact hfirst.trans (lowerBlock_composes rest hcompletes.ready (hfirst.homes hhomes) hrest)

end

/-- **A listing is made of idioms**, and of functions made of idioms. At module level there are as many slots
    as names are bound there. -/
theorem lowerModule_composed {o : Options} {m : Module} (hrun : (lowerModule m).run (.initial o) = .ok () t) :
    ∃ forest, t.code.toList = [.directive .text] ++ linesOf forest ∧
      Composed ((lowerModule m).Passes (.initial o)) (functionsOf m.body) none [] (boundNames m.body).eraseDups.length
        [.directive .text] forest := by
  have hwent : Went ((lowerModule m).Passes (.initial o)) (lowerBlock m.body) (.start o) () t :=
    ⟨hrun, fun p u hp => hp⟩
  have hhomes : Homes [] (.start o) := by
    intro x r k hx _
    have hinactive : ∀ v, (State.start o).arena.activeRegister? v = none := fun v => by
      show Arena.initial.activeRegister? v = none
      rw [Arena.activeRegister?, initial_lookup?]
      rfl
    rw [holder_of_inactive hinactive] at hx
    exact absurd hx (by simp)
  obtain ⟨_, _, hcompletes⟩ := (lowerModule_ensures o m).run_ok hrun
  obtain ⟨forest, hforest, hcomposed⟩ := (lowerBlock_composes m.body (ready_start o) hhomes hwent).text
  refine ⟨forest, hforest, ?_⟩
  -- the table has each name once, and so has the list without its repetitions
  have hslots : t.arena.slotCount t.current = (boundNames m.body).eraseDups.length := by
    rw [Arena.slotCount_eq]
    have htable := hcompletes.ready.named.table_nodup
    refine List.Perm.length_eq ((List.perm_ext_iff_of_nodup htable (nodup_eraseDups _)).mpr ?_)
    intro x
    rw [hcompletes.advances.current, hcompletes.advances.grows.mem_table, List.mem_eraseDups]
    have hempty : (State.start o).arena.table (State.start o).current = [] := rfl
    simp [hempty]
  rw [hslots] at hcomposed
  exact hcomposed

end Offside.Lower
