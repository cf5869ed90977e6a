import Offside.Proofs.Layout
import Offside.Proofs.Modules

/-!
# `Proofs.Traces` — the flow of control in generated code

`Traced` says of a stretch of code generation that the text it adds keeps its levels, and `Shifts` that it
does so from wherever it starts, with so many bytes taken off the evaluation stack or put there. The moves
that add code are gone through one by one; for an expression they come to one value on the stack
(`Pushes.shifts`).

On the way the listing stays closed: the functions it knows and the functions it calls have a header in it,
and it is known that numbers are printed when the text that prints them is referred to (`Known`).
-/

namespace Offside.Lower

open Machine

variable {s t u : State} {held : List Register} {r : Register} {v : VarRef} {base d d' d'' : Int}
  {loose loose' placed placed' : List (String × Int)} {is : List Instr} {p : Pool} {a : Arena}

/-! ## Functions that the listing knows -/

/-- **The listing is closed**: functions that are known or called have a header, and numbers are known to be
    printed exactly when the text for it is referred to. -/
structure Known (s : State) : Prop where
  functions : ∀ {i f}, f ∈ (s.arena.get i).functions → .directive (.typeFunction f.label) ∈ s.code.toList
  calls : ∀ {x}, .instr (.call x) ∈ s.code.toList →
    x = printRoutine ∨ .directive (.typeFunction x) ∈ s.code.toList
  prints : s.printsNumbers = true ↔ ∃ r, .instr (.la r printFormat) ∈ s.code.toList

theorem Does.mem_code (h : Does is p a s t) {l : Line} (hl : l ∈ s.code.toList) : l ∈ t.code.toList := by
  obtain ⟨new, hnew, _⟩ := h.lines
  rw [hnew]
  exact List.mem_append_left new hl

theorem Does.mem_instr (h : Does is p a s t) {i : Instr} : .instr i ∈ t.code.toList ↔ .instr i ∈ s.code.toList ∨ i ∈ is := by
  obtain ⟨new, hnew, hfilter⟩ := h.lines
  have hmem : Line.instr i ∈ new ↔ i ∈ is := by
    have hiff : Line.instr i ∈ new.filter (fun l => !l.isComment) ↔ Line.instr i ∈ new := by
      simp [Line.isComment]
    rw [← hiff, hfilter]
    simp
  rw [hnew, List.mem_append, hmem]

/-- A move that makes no function known, calls only known ones, and does not refer to the text for printing. -/
theorem Does.known (h : Does is p a s t)
    (hfunctions : ∀ {i f}, f ∈ (a.get i).functions → ∃ j, f ∈ (s.arena.get j).functions)
    (hcalls : ∀ {x}, .call x ∈ is → x = printRoutine ∨ .directive (.typeFunction x) ∈ s.code.toList)
    (hla : ∀ r, .la r printFormat ∉ is) (hs : Known s) : Known t := by
  refine ⟨fun {i f} hf => ?_, fun {x} hx => ?_, ?_⟩
  · rw [h.arena] at hf
    obtain ⟨j, hj⟩ := hfunctions hf
    exact h.mem_code (hs.functions hj)
  · refine Or.imp_right h.mem_code ?_
    exact (h.mem_instr.mp hx).elim hs.calls hcalls
  · rw [h.printsNumbers, hs.prints]
    exact exists_congr fun r => by simp [h.mem_instr, hla r]

/-! ## Stretches of text -/

/-- **A stretch of text**, from level `d` to level `d'` of a function with its frame at `base`. -/
structure Traced (base : Int) (loose placed : List (String × Int)) (d d' : Int) (s t : State) : Prop where
  frames : t.frames = s.frames
  text : ∃ ps, t.code.toList = s.code.toList ++ linesOf ps ∧ Laid (!s.frames.isEmpty) ps ∧
    Flows base loose placed d ps d'
  known : Known s → Known t

namespace Traced

theorem refl (s : State) : Traced base [] [] d d s s :=
  ⟨rfl, ⟨[], (List.append_nil _).symm, .nil, .nil⟩, id⟩

theorem trans (h : Traced base loose placed d d' s t) (h' : Traced base loose' placed' d' d'' t u) :
    Traced base (loose ++ loose') (placed ++ placed') d d'' s u := by
  obtain ⟨ps, hps, hlaid, hflows⟩ := h.text
  obtain ⟨qs, hqs, hlaid', hflows'⟩ := h'.text
  rw [h.frames] at hlaid'
  refine ⟨h'.frames.trans h.frames, ⟨ps ++ qs, ?_, hlaid.append hlaid', hflows.append hflows'⟩,
    fun hs => h'.known (h.known hs)⟩
  rw [hqs, hps, linesOf_append, List.append_assoc]

theorem mono (h : Traced base loose placed d d' s t) (hl : ∀ x ∈ loose, x ∈ loose') (hp : ∀ x ∈ placed', x ∈ placed) :
    Traced base loose' placed' d d' s t := by
  obtain ⟨ps, hps, hlaid, hflows⟩ := h.text
  exact ⟨h.frames, ⟨ps, hps, hlaid, hflows.mono hl hp⟩, h.known⟩

/-- A jump to a label that is placed at its level is settled. -/
theorem settle {x : String} {e : Int} (h : Traced base ((x, e) :: loose) placed d d' s t) (hx : (x, e) ∈ placed) :
    Traced base loose placed d d' s t := by
  obtain ⟨ps, hps, hlaid, hflows⟩ := h.text
  exact ⟨h.frames, ⟨ps, hps, hlaid, hflows.settle hx⟩, h.known⟩

end Traced

/-- The text of a straight move. -/
theorem Does.text (h : Does is p a s t) (hsteps : Flows.Steps base loose d is) (inside : Bool) :
    ∃ ps, t.code.toList = s.code.toList ++ linesOf ps ∧ Laid inside ps ∧
      Flows base loose [] d ps (level base d (ofInstrs is)) := by
  obtain ⟨new, hnew, hfilter⟩ := h.lines
  refine ⟨ofLines new, by rw [linesOf_ofLines]; exact hnew, .ofLines fun l hl x => ?_, .of_steps hsteps hfilter⟩
  -- lines that are not comments are instructions
  rintro rfl
  have hmem : Line.directive x ∈ new.filter (fun l => !l.isComment) := List.mem_filter.mpr ⟨hl, rfl⟩
  rw [hfilter] at hmem
  obtain ⟨i, _, hi⟩ := List.mem_map.mp hmem
  exact absurd hi (by simp)

/-- Linear moves that keep the functions of the arena. -/
theorem Does.traced (h : Does is p a s t) (hsteps : Flows.Steps base loose d is)
    (hfunctions : ∀ {i f}, f ∈ (a.get i).functions → ∃ j, f ∈ (s.arena.get j).functions)
    (hcalls : ∀ x, .call x ∉ is) (hla : ∀ r, .la r printFormat ∉ is) :
    Traced base loose [] d (level base d (ofInstrs is)) s t :=
  ⟨h.frames, h.text hsteps _, h.known hfunctions (fun hx => absurd hx (hcalls _)) hla⟩

/-- A label is placed. -/
theorem traced_place (x : String) : Traced base [] [(x, d)] d d s (s.place x) := by
  have hcode : ∀ {l : Line}, l ∈ (s.place x).code.toList ↔ l ∈ s.code.toList ∨ l = .label x := by simp [State.place]
  refine ⟨rfl, ⟨ofLines [.label x], by simp [State.place, linesOf_ofLines], .ofLines (by simp), .place x⟩, fun hs => ?_⟩
  refine ⟨fun hf => hcode.mpr (Or.inl (hs.functions hf)), fun {y} hy => ?_, ?_⟩
  · exact (hs.calls ((hcode.mp hy).resolve_right (by simp))).imp_right fun hmem => hcode.mpr (Or.inl hmem)
  · exact hs.prints.trans (exists_congr fun r => by rw [hcode]; simp)

/-- A stretch whose lines lead on from one to the next. -/
def LeadsOn (s t : State) : Prop :=
  ∃ new, t.code.toList = s.code.toList ++ new ∧ ∀ l ∈ new, l.leadsOn = true ∧ ∀ x, l ≠ .directive x

theorem LeadsOn.refl (s : State) : LeadsOn s s := ⟨[], (List.append_nil _).symm, by simp⟩

theorem LeadsOn.trans (h : LeadsOn s t) (h' : LeadsOn t u) : LeadsOn s u := by
  obtain ⟨new, hnew, hlines⟩ := h
  obtain ⟨new', hnew', hlines'⟩ := h'
  refine ⟨new ++ new', by rw [hnew', hnew, List.append_assoc], fun l hl => ?_⟩
  exact (List.mem_append.mp hl).elim (hlines l) (hlines' l)

theorem LeadsOn.place (s : State) (x : String) : LeadsOn s (s.place x) :=
  ⟨[.label x], by simp [State.place], by simp [Line.leadsOn]⟩

theorem Does.leadsOn (h : Does is p a s t) (his : ∀ i ∈ is, (Line.instr i).leadsOn = true) : LeadsOn s t := by
  obtain ⟨new, hnew, hfilter⟩ := h.lines
  refine ⟨new, hnew, fun l hl => ?_⟩
  by_cases hcomment : l.isComment = true
  · cases l with
    | comment text => exact ⟨rfl, by simp⟩
    | _ => exact absurd hcomment Bool.false_ne_true
  · have hmem : l ∈ new.filter (fun l => !l.isComment) := List.mem_filter.mpr ⟨hl, by simpa using hcomment⟩
    rw [hfilter] at hmem
    obtain ⟨i, hi, rfl⟩ := List.mem_map.mp hmem
    exact ⟨his i hi, by simp⟩

/-- **A stretch that moves the stack by `δ`**, from whatever level it starts, if `n` bytes are on the stack:
    its text leads on from line to line, and its jumps stay inside it. -/
structure Shifts (n δ : Int) (s t : State) : Prop where
  traced : ∀ base d : Int, d + n ≤ base → Traced base [] [] d (d + δ) s t
  leadsOn : LeadsOn s t

section Shifts

variable {n n' m δ δ' : Int}

theorem Shifts.refl (s : State) : Shifts 0 0 s s :=
  ⟨fun _ d _ => by rw [Int.add_zero]; exact .refl s, .refl s⟩

theorem Shifts.trans (h : Shifts n δ s t) (h' : Shifts n' δ' t u) (hn : n ≤ m) (hn' : δ + n' ≤ m) :
    Shifts m (δ + δ') s u := by
  refine ⟨fun base d hd => ?_, h.leadsOn.trans h'.leadsOn⟩
  have htrans := (h.traced base d (by omega)).trans (h'.traced base (d + δ) (by omega))
  rw [Int.add_assoc] at htrans
  exact htrans

/-- A stretch that leaves the stack alone, and one that does not. -/
theorem Shifts.then (h : Shifts 0 0 s t) (h' : Shifts n δ t u) (hn : 0 ≤ n) : Shifts n δ s u := by
  have htrans := h.trans (m := n) h' hn (by omega)
  rw [Int.zero_add] at htrans
  exact htrans

/-- Linear code that keeps the functions of the arena. -/
theorem Does.shifts (h : Does is p a s t) (his : Linear n δ is)
    (hfunctions : ∀ i, (a.get i).functions = (s.arena.get i).functions) : Shifts n δ s t := by
  refine ⟨fun base d hd => ?_, h.leadsOn his.leadsOn⟩
  rw [← his.level_eq base d]
  refine h.traced (his.steps hd) (fun {i f} hf => ⟨i, ?_⟩) (fun x hx => ?_) fun r hr => ?_
  · rw [← hfunctions]; exact hf
  · exact his.ne_call _ hx x rfl
  · exact his.ne_la _ hr r printFormat rfl

/-- Linear code that leaves the arena alone. -/
theorem Does.shifts_of_eq (h : Does is p s.arena s t) (his : Linear n δ is) : Shifts n δ s t :=
  h.shifts his fun _ => rfl

end Shifts

/-! ## Basic moves -/

/-- The registers that are handed out do not hold the stack pointer. -/
theorem ne_sp_of_class {c : RegisterClass} (h : r.classOf? = some c) : r ≠ .sp := by
  rintro rfl
  exact absurd h (by simp [Register.classOf?])

theorem linear_storeSlot (r : Register) (k : Nat) : Linear 0 0 [storeSlot r k] := by
  refine .plain fun i hi => ?_
  obtain rfl := List.mem_singleton.mp hi
  exact ⟨rfl, rfl, by simp [storeSlot, Instr.dest?], by simp [storeSlot], by simp [storeSlot], by simp [storeSlot]⟩

theorem linear_loadSlot (hr : r ≠ .sp) (k : Nat) : Linear 0 0 [loadSlot r k] := by
  refine .plain fun i hi => ?_
  obtain rfl := List.mem_singleton.mp hi
  exact ⟨rfl, rfl, fun h => hr (Option.some.inj h), by simp [loadSlot], by simp [loadSlot], by simp [loadSlot]⟩

theorem WroteBack.shifts (h : WroteBack v s t) : Shifts 0 0 s t := by
  rcases h with ⟨_, rfl⟩ | ⟨var, r, _, _, hdoes⟩
  · exact .refl t
  · exact hdoes.shifts (linear_storeSlot _ _) (Arena.alike_updateVariable (f := (·.release)) fun _ => rfl).functions_eq

theorem Spills.shifts {l : List VarRef} (h : Spills l s t) : Shifts 0 0 s t := by
  induction h with
  | nil => exact .refl _
  | cons hv _ ih => exact hv.shifts.then ih (by decide)

theorem Allocated.shifts (h : Allocated r s t) : Shifts 0 0 s t := by
  obtain ⟨l, mid, hspills, _, hdoes⟩ := h
  exact hspills.shifts.then (hdoes.shifts_of_eq .nil) (by decide)

theorem Popped.shifts (h : Popped r s t) : Shifts 8 8 s t := by
  obtain ⟨mid, halloc, hdoes⟩ := h
  exact halloc.shifts.then (hdoes.shifts_of_eq (.pop (ne_sp_of_class halloc.temporary))) (by decide)

theorem Reloaded.shifts (h : Reloaded v r s t) : Shifts 0 0 s t := by
  obtain ⟨mid, var, _, halloc, _, hdoes⟩ := h
  refine halloc.shifts.then (hdoes.shifts (linear_loadSlot (ne_sp_of_class halloc.temporary) _) ?_) (by decide)
  exact (Arena.alike_updateVariable (f := (·.bind r)) fun _ => rfl).functions_eq

theorem Reloads.shifts {l : List VarRef} (h : Reloads l s t) : Shifts 0 0 s t := by
  induction h with
  | nil => exact .refl _
  | cons hv _ _ ih => exact hv.shifts.then ih (by decide)

/-! ## Expressions -/

/-- One instruction that writes a register of its own, and its value on the stack. -/
theorem linear_compute {i : Instr} (hi : i.IsPlain) (r : Register) : Linear 0 (-8) (i :: push r) := by
  have hplain : Linear 0 0 [i] := .plain fun j hj => by rw [List.mem_singleton.mp hj]; exact hi
  exact hplain.append (m := 0) (.push r) (by decide) (by decide)

theorem Loaded.shifts {w : Word} (h : Loaded w s t) : Shifts 0 (-8) s t := by
  obtain ⟨r, mid, q, halloc, _, hdoes⟩ := h
  have hr := ne_sp_of_class halloc.temporary
  refine halloc.shifts.then (hdoes.shifts_of_eq (linear_compute ?_ r)) (by decide)
  exact ⟨rfl, rfl, fun h => hr (Option.some.inj h), by simp, by simp, by simp⟩

theorem Fetched.shifts {name : String} (h : Fetched name s t) : Shifts 0 (-8) s t := by
  obtain ⟨v, r, mid, _, hplace, hdoes⟩ := h
  have hpush : Shifts 0 (-8) mid t := hdoes.shifts_of_eq (.push r)
  rcases hplace with ⟨_, rfl⟩ | hload
  · exact hpush
  · exact hload.shifts.then hpush (by decide)

/-- Two values are taken off the stack. -/
theorem shifts_operands {left right : Register} {mid : State} (hright : Popped right s mid) (hleft : Popped left mid t) :
    Shifts 16 16 s t := hright.shifts.trans (m := 16) hleft.shifts (by decide) (by decide)

theorem Combined.shifts {op : BinaryOp} (h : Combined op s t) : Shifts 16 8 s t := by
  obtain ⟨right, left, t₁, t₂, q, hright, _, hleft, _, hdoes⟩ := h
  have hr := ne_sp_of_class hleft.temporary
  have hplain : (Instr.alu (aluOp op) left left right).IsPlain :=
    ⟨rfl, rfl, fun h => hr (Option.some.inj h), by simp, by simp, by simp⟩
  exact (shifts_operands hright hleft).trans (hdoes.shifts_of_eq (linear_compute hplain left)) (by decide) (by decide)

theorem Applied.shifts {op : UnaryOp} (h : Applied op s t) : Shifts 8 0 s t := by
  rcases h with ⟨_, rfl⟩ | ⟨r, t₁, q, _, hpop, _, hdoes⟩
  · exact (Shifts.refl t).trans (m := 8) (.refl t) (by decide) (by decide)
  · have hr := ne_sp_of_class hpop.temporary
    have hplain : Linear 0 0 (unaryInstr? r op).toList := by
      refine .plain fun i hi => ?_
      cases op <;> simp only [unaryInstr?, Option.toList, List.mem_singleton, List.not_mem_nil] at hi <;> subst hi <;>
        exact ⟨rfl, rfl, fun h => hr (Option.some.inj h), by simp, by simp, by simp⟩
    have hrest := hplain.append (m := 0) (.push r) (by decide) (by decide)
    exact hpop.shifts.trans (hdoes.shifts_of_eq hrest) (by decide) (by decide)

/-- Control jumps over one instruction, or does not. -/
theorem shifts_skip {test : BranchTest} {x y : Register} {label : String} {q q' : Pool} {w w' : Word}
    (hr : r ≠ .sp) (h : Does [.li r w, .branch test x y label] q a s t)
    (hfunctions : ∀ i, (a.get i).functions = (s.arena.get i).functions)
    (h' : Does [.li r w'] q' t.arena t u) : Shifts 0 0 s (u.place label) := by
  refine ⟨fun base d hd => ?_, ?_⟩
  · have hstack : ∀ w, (Instr.li r w).MovesStack := fun _ hdest => absurd (Option.some.inj hdest) hr
    have htest : Flows.Steps base [(label, d)] d [.li r w, .branch test x y label] := by
      refine ⟨by simp [Instr.target?], Or.inl (by omega), by simp, hstack w, ?_⟩
      rw [show (Instr.li r w).after base d = d from Int.add_zero d]
      exact ⟨by simp [Instr.target?], Or.inl (by omega), by simp, fun h => absurd h (by simp [Instr.dest?]), trivial⟩
    have hzero : Flows.Steps base [] d [.li r w'] :=
      ⟨by simp [Instr.target?], Or.inl (by omega), by simp, hstack w', trivial⟩
    have hjump := h.traced htest (fun {i f} hf => ⟨i, by rw [← hfunctions]; exact hf⟩) (by simp) (by simp)
    have hover := h'.traced hzero (fun {i f} hf => ⟨i, hf⟩) (by simp) (by simp)
    rw [show level base d (ofInstrs [.li r w, .branch test x y label]) = d from
      (Int.add_zero _).trans (Int.add_zero d)] at hjump
    rw [show level base d (ofInstrs [.li r w']) = d from Int.add_zero d] at hover
    rw [Int.add_zero]
    exact ((hjump.trans (hover.trans (traced_place label))).settle (by simp)).mono (by simp) (by simp)
  · exact (h.leadsOn (by simp [Line.leadsOn])).trans ((h'.leadsOn (by simp [Line.leadsOn])).trans (.place u label))

theorem Compared.shifts {op : CompareOp} (h : Compared op s t) : Shifts 16 8 s t := by
  obtain ⟨right, left, result, label, t₁, t₂, t₃, t₄, t₅, q, q', q'', hright, _, hleft, _, hresult, _, htest, hzero,
    hpush⟩ := h
  have hr := ne_sp_of_class hresult.temporary
  have hcompare := shifts_skip hr htest (Arena.alike_nextLabel _ _ "cmp").functions_eq hzero
  have hrest := hresult.shifts.then (hcompare.then (hpush.shifts_of_eq (.push result)) (by decide)) (by decide)
  exact (shifts_operands hright hleft).trans hrest (by decide) (by decide)

/-! ## Calls -/

/-- A call of a function that the listing knows. -/
theorem Does.shifts_call {x : String} (h : Does [.call x] p a s t)
    (hfunctions : ∀ i, (a.get i).functions = (s.arena.get i).functions)
    (hx : Known s → x = printRoutine ∨ .directive (.typeFunction x) ∈ s.code.toList) : Shifts 0 0 s t := by
  refine ⟨fun base d hd => ⟨h.frames, ?_, fun hs => ?_⟩, h.leadsOn (by simp [Line.leadsOn])⟩
  · have hsteps : Flows.Steps base [] d [.call x] :=
      ⟨by simp [Instr.target?], Or.inl (by omega), by simp, fun h => absurd h (by simp [Instr.dest?]), trivial⟩
    exact h.text hsteps _
  · refine h.known (fun {i f} hf => ⟨i, by rw [← hfunctions]; exact hf⟩) (fun {y} hy => ?_) (by simp) hs
    obtain rfl : y = x := by simpa using hy
    exact hx hs

theorem Called.shifts {callee : Callee} {i : ScopeId} (h : Called callee s t)
    (hcallee : callee ∈ (s.arena.get i).functions) (hs : Ready [] s) :
    Shifts (8 * callee.params.length) (8 * callee.params.length - 8) s t := by
  obtain ⟨l, t₁, t₂, t₃, t₄, t₅, q, q', hnote, hcleared, hpops, hcall, _, hreloads, hpush⟩ := h
  have hsp : ∀ r ∈ callee.params.map (·.2), r ≠ .sp := by
    intro r hr
    rw [hs.named.params hcallee] at hr
    exact ne_sp_of_class (RegisterClass.mem_members_iff.mp (List.mem_of_mem_take hr))
  have hspills : Shifts 0 0 s t₂ := (hnote.shifts_of_eq .nil).then hcleared.spills.shifts (by decide)
  have harguments : Shifts (8 * callee.params.length) (8 * callee.params.length) s t₃ := by
    have hpopped := hpops.shifts_of_eq (.pops hsp)
    rw [List.length_map] at hpopped
    exact hspills.then hpopped (by omega)
  -- the function is still known where it is called
  have halike := (hcleared.spills.steady (hnote.ready_of_eq hs)).alike
  have hknown : callee ∈ (t₃.arena.get i).functions := by
    rw [hpops.arena, halike.functions_eq, hnote.arena]
    exact hcallee
  have hcalled : Shifts 0 0 t₃ t₄ :=
    hcall.shifts_call (fun j => by rw [hpops.arena]) fun hs => Or.inr (hs.functions hknown)
  have hresult : Shifts 0 (-8) t₃ t :=
    hcalled.then (hreloads.shifts.then (hpush.shifts_of_eq (.push _)) (by decide)) (by decide)
  exact harguments.trans hresult (by omega) (by omega)

/-- The text for printing is referred to, and it becomes known that numbers are printed. -/
theorem Does.shifts_print (h : Does (pop .a1 ++ [Instr.la r printFormat, Instr.call printRoutine]) p s.arena s t)
    (hr : r ≠ .sp) : Shifts 8 8 s t.printing := by
  have hpop : Linear 8 8 (pop .a1) := .pop (by decide)
  refine ⟨fun base d hd => ⟨h.frames, ?_, fun hs => ⟨?_, ?_, ?_⟩⟩, h.leadsOn (by simp [pop, Line.leadsOn])⟩
  · have hsteps : Flows.Steps base [] d (pop .a1 ++ [Instr.la r printFormat, Instr.call printRoutine]) := by
      rw [Flows.steps_append, hpop.level_eq]
      refine ⟨hpop.steps hd, ?_⟩
      refine ⟨by simp [Instr.target?], Or.inl hd, by simp, fun h => absurd (Option.some.inj h) hr, ?_⟩
      rw [show (Instr.la r printFormat).after base (d + 8) = d + 8 from Int.add_zero _]
      exact ⟨by simp [Instr.target?], Or.inl hd, by simp, fun h => absurd h (by simp [Instr.dest?]), trivial⟩
    have hlevel : level base d (ofInstrs (pop .a1 ++ [Instr.la r printFormat, Instr.call printRoutine])) = d + 8 := by
      rw [ofInstrs, List.map_append, level_append]
      refine (congrArg (fun e => level base e _) (hpop.level_eq base d)).trans ?_
      exact (Int.add_zero _).trans (Int.add_zero _)
    have htext := h.text hsteps (!s.frames.isEmpty)
    rw [hlevel] at htext
    exact htext
  · intro i f hf
    rw [State.printing, h.arena] at hf
    exact h.mem_code (hs.functions hf)
  · intro x hx
    rcases h.mem_instr.mp hx with hold | hnew
    · exact (hs.calls hold).imp_right h.mem_code
    · exact Or.inl (by simpa [pop] using hnew)
  · exact ⟨fun _ => ⟨r, h.mem_instr.mpr (Or.inr (by simp))⟩, fun _ => rfl⟩

theorem Printed.shifts (h : Printed s t) : Shifts 8 0 s t := by
  obtain ⟨l, t₁, t₂, t₃, t₄, q, q', hcleared, hargument, hcall, _, hreloads, hpush⟩ := h
  have hprint := hargument.trans hcall
  rw [List.append_assoc] at hprint
  have hprinted : Shifts 8 8 s t₃.printing :=
    hcleared.spills.shifts.then (hprint.shifts_print (by decide)) (by decide)
  have hresult : Shifts 0 (-8) t₃.printing t := hreloads.shifts.then (hpush.shifts_of_eq (.push .zero)) (by decide)
  exact hprinted.trans hresult (by decide) (by decide)

/-! ## Expressions -/

/-- **Every value that is put on the stack moves it by eight bytes**, whatever moves it takes. -/
theorem Pushes.shifts {n : Nat} (h : Pushes n s t) : Shifts 0 (-(8 * n)) s t := by
  induction h with
  | none => exact .refl _
  | loaded h => exact h.shifts
  | fetched h => exact h.shifts
  | combined _ h _ ih => exact ih.trans h.shifts (by decide) (by decide)
  | compared _ h _ ih => exact ih.trans h.shifts (by decide) (by decide)
  | applied _ h _ ih => exact ih.trans h.shifts (by decide) (by decide)
  | printed _ h _ ih => exact ih.trans h.shifts (by decide) (by decide)
  | called hs hcallee h _ ih =>
      have hsum := ih.trans (m := 0) (h.shifts hcallee hs.settled.ready) (by omega) (by omega)
      rw [show ∀ n : Int, -(8 * n) + (8 * n - 8) = -8 by omega] at hsum
      exact hsum
  | @append m n _ _ _ _ _ ih ih' =>
      have hsum := ih.trans (m := 0) ih' (by omega) (by omega)
      rw [show -(8 * (m : Int)) + -(8 * (n : Int)) = -(8 * ((m + n : Nat) : Int)) by omega] at hsum
      exact hsum

/-! ## Statements without control flow -/

theorem Bound.shifts {name : String} (h : Bound name v s t) : Shifts 0 0 s t := h.does.shifts .nil h.functions_eq

theorem Stored.shifts (h : Stored v s t) (hs : Ready [] s) : Shifts 8 8 s t := by
  obtain ⟨r, mid, hplace, hdoes⟩ := h
  have hfunctions := (Arena.alike_updateVariable (a := mid.arena) (v := v) (f := (·.bind r)) fun _ => rfl).functions_eq
  rcases hplace with ⟨hactive, rfl⟩ | ⟨_, halloc⟩
  · have hr : r ≠ .sp := by
      rintro rfl
      exact absurd (hs.tidy.clobbered hactive) (by decide)
    exact hdoes.shifts (.pop hr) hfunctions
  · exact halloc.shifts.then (hdoes.shifts (.pop (ne_sp_of_class halloc.temporary)) hfunctions) (by decide)

theorem Synchronised.shifts (h : Synchronised s t) : Shifts 0 0 s t := by
  obtain ⟨l, hspills⟩ := h.spills
  exact hspills.shifts

theorem linear_zero : Linear 0 0 [.li resultRegister 0] := by
  refine .plain fun i hi => ?_
  obtain rfl := List.mem_singleton.mp hi
  exact ⟨rfl, rfl, by simp [Instr.dest?, resultRegister], by simp, by simp, by simp⟩

theorem steps_epilogue (frame : Frame) : Flows.Steps (-frame.size) [] (-frame.size) frame.epilogue := by
  refine ⟨by simp [Instr.target?], Or.inl (Int.le_refl _), by simp, fun h => absurd h (by simp [Instr.dest?]), ?_⟩
  refine ⟨by simp [Instr.target?], Or.inl (Int.le_of_eq (Int.add_zero _)), by simp,
    fun h => absurd h (by simp [Instr.dest?]), ?_⟩
  refine ⟨by simp [Instr.target?], Or.inl ?_, by simp, fun _ => ⟨_, rfl⟩, ?_⟩
  · show -frame.size + 0 + 0 ≤ -frame.size
    omega
  refine ⟨by simp [Instr.target?], Or.inr rfl, fun _ => ?_, fun h => absurd h (by simp [Instr.dest?]), trivial⟩
  show -frame.size + 0 + 0 + frame.size = 0
  omega

/-- A frame is closed, and control goes back to where the function was entered. -/
theorem Does.traced_return (is : List Instr) {frame : Frame} (h : Does (is ++ frame.epilogue) s.pool s.arena s t)
    (his : Linear 0 0 is) :
    Traced (-frame.size) [] [] (-frame.size) (-frame.size) s t := by
  have hlevel : level (-frame.size) (-frame.size) (ofInstrs is) = -frame.size := by
    rw [his.level_eq, Int.add_zero]
  have hsteps : Flows.Steps (-frame.size) [] (-frame.size) (is ++ frame.epilogue) := by
    rw [Flows.steps_append, hlevel]
    exact ⟨his.steps (by omega), steps_epilogue frame⟩
  have htraced := h.traced hsteps (fun {i f} hf => ⟨i, hf⟩)
    (fun x hx => (List.mem_append.mp hx).elim (fun hx => his.ne_call _ hx x rfl) (by simp [Frame.epilogue]))
    (fun r hr => (List.mem_append.mp hr).elim (fun hr => his.ne_la _ hr r _ rfl) (by simp [Frame.epilogue]))
  have hend : level (-frame.size) (-frame.size) (ofInstrs (is ++ frame.epilogue)) = -frame.size := by
    rw [ofInstrs, List.map_append, level_append]
    rfl
  rw [hend] at htraced
  exact htraced

/-! ## Jumps and blocks -/

/-- Control may go to a label. -/
theorem Does.traced_jump {i : Instr} {x : String} (h : Does [i] p a s t) (hi : i.target? = some x)
    (hfunctions : ∀ j, (a.get j).functions = (s.arena.get j).functions) (hd : d ≤ base) :
    Traced base [(x, d)] [] d d s t := by
  obtain ⟨hmove, hret, hdest, hcall, hla⟩ : i.after base d = d ∧ i ≠ .ret ∧ i.dest? = none ∧ (∀ x, i ≠ .call x) ∧
      ∀ r x, i ≠ .la r x := by
    cases i with
    | branch | beqz | jump => exact ⟨Int.add_zero d, by simp, rfl, by simp, by simp⟩
    | _ => exact absurd hi (by simp [Instr.target?])
  have hsteps : Flows.Steps base [(x, d)] d [i] := by
    refine ⟨fun y hy => ?_, Or.inl hd, fun h => absurd h hret, fun h => absurd (hdest.symm.trans h) (by simp), trivial⟩
    rw [hi] at hy
    exact Option.some.inj hy ▸ List.mem_singleton.mpr rfl
  have htraced := h.traced hsteps (fun {j f} hf => ⟨j, by rw [← hfunctions]; exact hf⟩)
    (fun y hy => hcall y (List.mem_singleton.mp hy).symm) fun r hr => hla r printFormat (List.mem_singleton.mp hr).symm
  rw [show level base d (ofInstrs [i]) = d from hmove] at htraced
  exact htraced

theorem Known.of_current {c : ScopeId} (h : Known s) : Known { s with current := c } := ⟨h.functions, h.calls, h.prints⟩

/-- Which scope is the current one does not matter. -/
theorem Traced.of_current {c : ScopeId} (h : Traced base loose placed d d' { s with current := c } t) :
    Traced base loose placed d d' s t := ⟨h.frames, h.text, fun hs => h.known hs.of_current⟩

/-- A move without instructions, into another scope. -/
theorem Does.traced_scope {c : ScopeId} (h : Does [] p a { s with current := c } t)
    (hfunctions : ∀ {i f}, f ∈ (a.get i).functions → ∃ j, f ∈ (s.arena.get j).functions) :
    Traced base [] [] d d s t := by
  have hsteps : Flows.Steps base [] d [] := trivial
  exact (h.traced hsteps hfunctions (by simp) (by simp)).of_current

theorem Entered.traced (h : Entered s t) : Traced base [] [] d d s t := by
  refine Does.traced_scope h fun {i f} hf => ⟨i, ?_⟩
  rw [Arena.pushBlock_eq, Arena.get_push] at hf
  split at hf
  · exact absurd hf List.not_mem_nil
  · exact hf

theorem Left.traced {outer : ScopeId} (h : Left outer s t) : Traced base [] [] d d s t := by
  obtain ⟨q, a, hdoes, hhoist⟩ := h
  refine hdoes.traced_scope fun {i f} hf => ⟨i, ?_⟩
  rw [hhoist.functions_eq, Arena.alike_releaseScope.functions_eq] at hf
  exact hf

theorem Tested.traced {label : String} (h : Tested label s t) (hd : d + 8 ≤ base) :
    Traced base [(label, d + 8)] [] d (d + 8) s t := by
  obtain ⟨r, t₁, q, hpop, _, hdoes⟩ := h
  exact ((hpop.shifts.traced base d hd).trans (hdoes.traced_jump rfl (fun _ => rfl) hd))

end Offside.Lower
