import Offside.Proofs.Simulation

/-!
# `Proofs.Execution` — statements and calls do what the source says

The simulation of expressions, carried on to statements, blocks, loops and calls. At every place where
control can come from two sides all variables are in their slots, and there both sides agree.
-/

namespace Offside.Lower

open Machine

variable {P : Image} {entry : String} {A : Activation} {Δ : List Definition} {s t u : State} {clean : Prop}
  {σ : Store} {vs out o : List Word} {c : Core} {n : Nat} {M : Processor} {span : Span} {loc : Position}
  {flow : Flow} {v : Word}

/-! ## Simple statements -/

section Simple

variable {e value target : Expr} {frame : Frame} {p : Pool}

/-- The result register holds no variable. -/
theorem Ready.holder_ne_result (hs : Ready [] s) (x : String) : s.holder x ≠ some .a0 := by
  intro hx
  exact absurd (hs.clobbered_of_holder hx) (by decide)

/-- **The end of a call**: its frame is closed, and control is at a return. -/
theorem Does.returns (is : List Instr) {a : Arena} {d : Core} (h : Does (is ++ frame.epilogue) p a s t)
    (ht : P.Holds t) (heffect : effects? is c = some d) (hrun : A.Running clean σ s.holder [] out d)
    (hframe : frame.slots = A.table.length) (hv : d.get .a0 = v.toInt) :
    Continues P A u out ⟨s.code.size, c⟩ (.returned v) := by
  have hsplit : frame.epilogue = frame.epilogue.dropLast ++ [.ret] := rfl
  rw [hsplit, ← List.append_assoc] at h
  obtain ⟨k, hk, hbefore, _⟩ := h.exists_line _ ht
  refine ⟨k, d.exited frame, hbefore ?_, hk, hrun.finished hframe hv⟩
  rw [effects?_append, heffect]
  exact effects?_epilogue frame hrun.sp_aligned

/-- The value on top of the stack goes to the result register. -/
theorem Does.leads_result (h : Does (pop resultRegister) p s.arena s t) (hs : Ready [] s) (ht : P.Holds t)
    (hrun : A.Running clean σ s.holder (v :: vs) out c) :
    Leads P s t c fun d => A.Running clean σ t.holder vs out d ∧ d.get .a0 = v.toInt := by
  have hpop := (hrun.pop (r := .a0) rfl hs.holder_ne_result).congr h.holder_eq
  exact h.leads ht (effects?_pop hrun.sp_aligned (by decide)) ⟨hpop, hrun.get_popped rfl⟩

theorem Simulates.ret (ih : Simulates P entry n) {value : Option Expr}
    (heval : evalStmt entry (n + 1) Δ σ (.ret span value) = some (flow, o)) (hctx : Context P entry A Δ s)
    (hlower : (lowerReturn value loc).run s = .ok () t) (ht : Carries P A t)
    (hrun : A.Running False σ s.holder [] out c) : Continues P A t (out ++ o) ⟨s.code.size, c⟩ flow := by
  obtain ⟨frame, rest, hframes, hslots⟩ := hctx.frame
  unfold lowerReturn at hlower
  rw [run_look_bind, hframes] at hlower
  dsimp only at hlower
  cases value with
  | none =>
      obtain ⟨rfl, rfl⟩ := Prod.mk.inj (Option.some.inj heval)
      obtain ⟨_, t₁, hzero, hepilogue⟩ := run_bind_ok.mp hlower
      have h₁ := (emitInstrs_does (I := Sound) _).run_ok hzero
      have h₂ := (emitInstrs_does (I := Sound) _).run_ok hepilogue
      rw [List.append_nil]
      exact Does.returns _ (h₁.trans h₂) ht.holds rfl (hrun.set rfl hctx.ready.holder_ne_result) hslots rfl
  | some e =>
      obtain ⟨⟨x, o₁⟩, hx, heq⟩ := Option.bind_eq_some_iff.mp heval
      obtain ⟨rfl, rfl⟩ := Prod.mk.inj (Option.some.inj heq)
      obtain ⟨_, t₁, hvalue, hlower⟩ := run_bind_ok.mp hlower
      obtain ⟨_, t₂, hpop, hepilogue⟩ := run_bind_ok.mp hlower
      have h₁ := (lowerExpr_ensures e hctx.ready).run_ok hvalue
      have h₂ := (emitInstrs_does (I := Sound) _).run_ok hpop
      have h₃ := (emitInstrs_does (I := Sound) _).run_ok hepilogue
      have hc₂ := ht.of_extends h₃.extends
      have hleads := (ih.expr hx hctx hvalue (hc₂.of_extends h₂.extends) hrun).bind fun d hd =>
        h₂.leads_result h₁.ready hc₂.holds hd
      obtain ⟨d, hreach, hrun₂, ha0⟩ := hleads
      exact (Does.returns [] h₃ ht.holds rfl hrun₂ hslots ha0).of_reaches hreach

theorem Simulates.expr_stmt (ih : Simulates P entry n)
    (heval : evalStmt entry (n + 1) Δ σ (.expr span e) = some (flow, o)) (hctx : Context P entry A Δ s)
    (hlower : (lowerExprStmt e).run s = .ok () t) (ht : Carries P A t)
    (hrun : A.Running False σ s.holder [] out c) : Continues P A t (out ++ o) ⟨s.code.size, c⟩ flow := by
  unfold lowerExprStmt at hlower
  rw [run_look_bind, hctx.entry_eq] at hlower
  rw [evalStmt] at heval
  by_cases hentry : e.calledName? = some entry
  · rw [if_pos hentry] at heval hlower
    obtain ⟨rfl, rfl⟩ := Prod.mk.inj (Option.some.inj heval)
    have h₁ := (comment_does (I := Sound) _).run_ok hlower
    rw [List.append_nil]
    exact h₁.leads ht.holds rfl (hrun.congr h₁.holder_eq)
  · rw [if_neg hentry] at heval hlower
    obtain ⟨⟨x, o₁⟩, hx, heq⟩ := Option.bind_eq_some_iff.mp heval
    obtain ⟨rfl, rfl⟩ := Prod.mk.inj (Option.some.inj heq)
    obtain ⟨_, t₁, hvalue, hpop⟩ := run_bind_ok.mp hlower
    have h₁ := (lowerExpr_ensures e hctx.ready).run_ok hvalue
    have h₂ := (emitInstrs_does (I := Sound) _).run_ok hpop
    refine (ih.expr hx hctx hvalue (ht.of_extends h₂.extends) hrun).bind fun d hd => ?_
    exact (h₂.leads_result h₁.ready ht.holds hd).mono fun _ hd' => hd'.1

theorem Simulates.assign (ih : Simulates P entry n) {targets : List Expr}
    (heval : evalStmt entry (n + 1) Δ σ (.assign span targets value) = some (flow, o)) (hctx : Context P entry A Δ s)
    (hlower : (lowerAssign targets value loc).run s = .ok () t) (ht : Carries P A t)
    (hrun : A.Running False σ s.holder [] out c) : Continues P A t (out ++ o) ⟨s.code.size, c⟩ flow := by
  match targets with
  | [] => exact absurd heval (by simp [evalStmt])
  | _ :: _ :: _ => exact absurd heval (by simp [evalStmt])
  | [target] =>
      simp only [evalStmt, Option.bind_eq_bind, Option.bind_eq_some_iff] at heval
      obtain ⟨name, hname, ⟨x, o₁⟩, hx, heq⟩ := heval
      obtain ⟨rfl, rfl⟩ := Prod.mk.inj (Option.some.inj heq)
      obtain ⟨name', s', htarget, hlower⟩ := run_bind_ok.mp hlower
      obtain ⟨rfl, hname'⟩ := (targetName_ensures (I := Sound) target loc).run_ok htarget
      obtain rfl := Option.some.inj (hname.symm.trans hname')
      obtain ⟨v, t₁, hdefine, hlower⟩ := run_bind_ok.mp hlower
      obtain ⟨_, t₂, hvalue, hpop⟩ := run_bind_ok.mp hlower
      -- the name has a slot from now on; its value is computed before it is stored
      have h₁ := (defineLocal_ensures (I := Sound) hctx.ready name loc).run_ok hdefine
      have h₂ := (lowerExpr_ensures value h₁.completes.ready).run_ok hvalue
      obtain ⟨var, hvar, rfl⟩ := h₁.isLocal
      obtain ⟨var', hvar', hsame, _⟩ := hvar.of_alike h₂.steady.alike
      rw [← h₂.steady.current] at hvar'
      obtain ⟨hstored, _⟩ := (popVariable_ensures h₂.ready hvar').run_ok hpop
      have hc₂ := ht.of_extends (hstored.extends h₂.ready)
      have hc₁ := hc₂.of_extends h₂.steady.extends
      refine (h₁.does.leads hc₁.holds rfl (hrun.congr h₁.holder_eq)).bind fun d hd => ?_
      refine (ih.expr hx (hctx.advances h₁.completes.ready h₁.completes.advances) hvalue hc₂ hd).bind fun d' hd' => ?_
      have hleads := hstored.leads h₂.ready hvar' ht hd'
      rw [hsame] at hleads
      exact hleads

theorem Simulates.augAssign (ih : Simulates P entry n) {op : BinaryOp}
    (heval : evalStmt entry (n + 1) Δ σ (.augAssign span target op value) = some (flow, o))
    (hctx : Context P entry A Δ s) (hlower : (lowerAugAssign target op value loc).run s = .ok () t)
    (ht : Carries P A t) (hrun : A.Running False σ s.holder [] out c) :
    Continues P A t (out ++ o) ⟨s.code.size, c⟩ flow := by
  simp only [evalStmt, Option.bind_eq_bind, Option.bind_eq_some_iff] at heval
  obtain ⟨name, hname, x, hx, ⟨y, o₁⟩, hy, heq⟩ := heval
  obtain ⟨rfl, rfl⟩ := Prod.mk.inj (Option.some.inj heq)
  unfold lowerAugAssign at hlower
  obtain ⟨name', s₁, htarget, hlower⟩ := run_bind_ok.mp hlower
  obtain ⟨v, s₂, hresolve, hlower⟩ := run_bind_ok.mp hlower
  obtain ⟨_, t₁, hpush, hlower⟩ := run_bind_ok.mp hlower
  obtain ⟨_, t₂, hvalue, hlower⟩ := run_bind_ok.mp hlower
  obtain ⟨_, t₃, hop, hpop⟩ := run_bind_ok.mp hlower
  obtain ⟨rfl, hname'⟩ := (targetName_ensures (I := Sound) target loc).run_ok htarget
  obtain rfl := Option.some.inj (hname.symm.trans hname')
  obtain ⟨rfl, _, var, hvar, rfl⟩ := (resolveLocal_ensures (I := Sound) name loc).run_ok hresolve
  obtain ⟨hfetched, h₁⟩ := (pushVariable_ensures hctx.ready _ loc).run_ok hpush
  have h₂ := (lowerExpr_ensures value h₁.ready).run_ok hvalue
  obtain ⟨hcombined, h₃⟩ := (combineBinary_ensures h₂.ready op).run_ok hop
  have h₁₃ := (h₁.trans h₂).trans h₃
  obtain ⟨var', hvar', hsame, _⟩ := hvar.of_alike h₁₃.steady.alike
  rw [← h₁₃.steady.current] at hvar'
  obtain ⟨hstored, _⟩ := (popVariable_ensures h₃.ready hvar').run_ok hpop
  have hc₃ := ht.of_extends (hstored.extends h₃.ready)
  have hc₂ := hc₃.of_extends h₃.steady.extends
  have hc₁ := hc₂.of_extends h₂.steady.extends
  -- the old value, the operand, the operation, and the assignment
  refine (hfetched.leads hctx.ready hc₁ hx hrun).bind fun d₁ hd₁ => ?_
  refine (ih.expr hy (hctx.settled h₁) hvalue hc₂ hd₁).bind fun d₂ hd₂ => ?_
  refine (hcombined.leads h₂.ready hc₃ hd₂).bind fun d₃ hd₃ => ?_
  have hleads := hstored.leads h₃.ready hvar' ht hd₃
  rw [hsame] at hleads
  exact hleads

end Simple

/-! ## Where control joins -/

theorem holder_of_idle (h : Idle s.arena) (x : String) : s.holder x = none :=
  holder_of_inactive h.activeRegister?_eq_none x

theorem Idle.place (h : Idle s.arena) (label : String) : Idle (s.place label).arena := h

theorem size_place (s : State) (label : String) : (s.place label).code.size = s.code.size + 1 := Array.size_push _

/-- Control passes a label. -/
theorem reaches_place {label : String} (h : P.Holds (s.place label)) (c : Core) :
    P.Reaches ⟨s.code.size, c⟩ ⟨(s.place label).code.size, c⟩ := by
  rw [size_place]
  exact Image.reaches_label h.getElem?_label c

/-- A jump to a label that is placed, before or after. -/
theorem Does.jumps_place {label : String} {p : Pool} {a : Arena} (h : Does [.jump label] p a s t) (ht : P.Holds t)
    (hP : P.Labelled) (hu : P.Holds (u.place label)) (c : Core) :
    P.Reaches ⟨s.code.size, c⟩ ⟨(u.place label).code.size, c⟩ := by
  rw [size_place]
  exact h.jumps ht hP hu.getElem?_label c

/-- Where nothing is in a register, all variables are in their slots. -/
theorem running_of_idle (clean' : Prop) (hrun : A.Running clean σ s.holder vs out c) (hs : Idle s.arena)
    (ht : Idle t.arena) : A.Running clean' σ t.holder vs out c :=
  (hrun.of_unheld (holder_of_idle hs)).congr fun x => (holder_of_idle ht x).trans (holder_of_idle hs x).symm

/-- Clean variables can be looked for in their slots. -/
theorem running_of_clean (hrun : A.Running True σ s.holder vs out c) (ht : Idle t.arena) :
    A.Running clean σ t.holder vs out c := hrun.drop.congr (holder_of_idle ht)

/-- Writing back every variable. -/
theorem Synchronised.leads (clean' : Prop) (h : Synchronised s t) (hs : Ready [] s) (ht : Carries P A t)
    (hrun : A.Running clean σ s.holder vs out c) : Leads P s t c (A.Running clean' σ t.holder vs out) := by
  obtain ⟨l, hspills⟩ := h.spills
  exact (hspills.leads hs ht hrun).mono fun d hd => running_of_idle _ hd.1 h.idle h.idle

theorem Entered.reaches (h : Entered s t) (ht : P.Holds t) (c : Core) :
    P.Reaches ⟨s.code.size, c⟩ ⟨t.code.size, c⟩ :=
  Does.reaches (s := { s with current := s.arena.scopes.size }) h ht rfl

theorem Left.reaches {outer : ScopeId} (h : Left outer s t) (ht : P.Holds t) (c : Core) :
    P.Reaches ⟨s.code.size, c⟩ ⟨t.code.size, c⟩ := by
  obtain ⟨q, a, hdoes, _⟩ := h
  exact hdoes.reaches ht rfl

/-- **Statements, and then code that only leads elsewhere**: what they return they return there, too, and
    otherwise control comes to the place where it joins, with all variables in their slots. -/
theorem Continues.join (h : Continues P A s out M flow) (hsave : Synchronised s t) (hs : Ready [] s)
    (ht : Carries P A t) (hidle : Idle u.arena) (hreach : ∀ d, P.Reaches ⟨t.code.size, d⟩ ⟨u.code.size, d⟩) :
    Continues P A u out M flow := by
  cases flow with
  | returned v => exact h
  | next σ =>
      obtain ⟨d, hd, hrun⟩ := h
      obtain ⟨d', hd', hrun'⟩ := hsave.leads False hs ht hrun
      exact ⟨d', (hd.trans hd').trans (hreach d'), running_of_idle _ hrun' hsave.idle hidle⟩

/-! ## Conditionals -/

theorem Ready.place (hs : Ready [] s) (label : String) : Ready [] (s.place label) := ⟨hs.tidy, hs.named⟩

theorem run_block_ok {ss : List Stmt} (hs : Ready [] s) (h : (lowerBlock ss).run s = .ok () t) :
    Ready [] t ∧ Extends s t := by
  obtain ⟨fns, _, hdone⟩ := (lowerBlock_ensures ss hs).run_ok h
  exact ⟨hdone.ready, hdone.advances.extends⟩

section Conditionals

variable {test : Expr} {body orelse : List Stmt} {hasElse : Bool} {elseLabel endLabel : String} {outer : ScopeId}
  {jumped finish saved e : State}

/-- The program carries every station of a second branch. -/
theorem ElseStations.carried (h : ElseStations elseLabel endLabel (lowerBlock orelse) outer e jumped finish saved)
    (hc : Carries P A (saved.place endLabel)) : Ready [] finish ∧ Carries P A saved ∧ Carries P A finish ∧
      Carries P A (jumped.place elseLabel) ∧ Carries P A jumped ∧ Carries P A e := by
  obtain ⟨hready, hextends⟩ := run_block_ok (h.ready.place elseLabel) h.run_branch
  have hsaved := hc.of_extends (extends_place saved endLabel)
  have hfinish := hsaved.of_extends h.save.settled.steady.extends
  have hstart := hfinish.of_extends hextends
  have hjumped := hstart.of_extends (extends_place jumped elseLabel)
  exact ⟨hready, hsaved, hfinish, hstart, hjumped, hjumped.of_extends h.steady.extends⟩

theorem Otherwise.carried (h : Otherwise elseLabel (lowerBlock orelse) hasElse outer e u) (hu : Carries P A u) :
    Carries P A e := by
  rcases h with ⟨_, endLabel, jumped, finish, saved, hstations, rfl⟩ | ⟨_, rfl⟩
  · exact (hstations.carried hu).2.2.2.2.2
  · exact hu.of_extends (extends_place e elseLabel)

/-- From the end of the first branch control goes past the second one. -/
theorem Otherwise.reaches (h : Otherwise elseLabel (lowerBlock orelse) hasElse outer e u) (hP : P.Labelled)
    (hu : Carries P A u) (c : Core) : P.Reaches ⟨e.code.size, c⟩ ⟨u.code.size, c⟩ := by
  rcases h with ⟨_, endLabel, jumped, finish, saved, hstations, rfl⟩ | ⟨_, rfl⟩
  · obtain ⟨_, _, _, _, hjumped, _⟩ := hstations.carried hu
    exact hstations.jump.jumps_place hjumped.holds hP hu.holds c
  · exact reaches_place hu.holds c

/-- **The second branch of a conditional**, from its label on. -/
theorem Simulates.otherwise (ih : Simulates P entry n)
    (h : Otherwise elseLabel (lowerBlock orelse) hasElse outer e u) (hempty : hasElse = false → orelse = [])
    (heval : evalBlock entry n Δ σ orelse = some (flow, o)) (hctx : Context P entry A Δ e)
    (hu : Carries P A u) (hrun : A.Running False σ e.holder [] out c) :
    ∃ k, P.code[k]? = some (.label elseLabel) ∧ Continues P A u (out ++ o) ⟨k + 1, c⟩ flow := by
  rcases h with ⟨_, endLabel, jumped, finish, saved, hstations, rfl⟩ | ⟨hnone, rfl⟩
  · obtain ⟨hready, hsaved, hfinish, hstart, hjumped, _⟩ := hstations.carried hu
    refine ⟨jumped.code.size, hstart.holds.getElem?_label, ?_⟩
    rw [← size_place jumped elseLabel]
    have hctx' := (hctx.advances hstations.ready hstations.steady.advances).place elseLabel
    have hrun' : A.Running False σ (jumped.place elseLabel).holder [] out c :=
      hrun.congr hstations.jump.holder_nextLabel
    refine (ih.block heval hctx' hstations.run_branch hfinish hrun').join hstations.save hready hsaved
      (hstations.save.idle.place endLabel) fun d => reaches_place hu.holds d
  · -- there is none, and its label stands where control joins
    obtain rfl := hempty hnone
    refine ⟨e.code.size, hu.holds.getElem?_label, ?_⟩
    rw [← size_place e elseLabel]
    cases n with
    | zero => exact absurd heval (by simp [evalBlock])
    | succ n =>
        obtain ⟨rfl, rfl⟩ := Prod.mk.inj (Option.some.inj heval)
        rw [List.append_nil]
        exact ⟨c, .refl _, hrun⟩

/-- A block is left. -/
theorem Continues.left (h : Continues P A u out M flow) (hblock : Enclosed s e u t) (ht : P.Holds t) :
    Continues P A t out M flow := by
  cases flow with
  | returned v => exact h
  | next σ =>
      obtain ⟨d, hd, hrun⟩ := h
      exact ⟨d, hd.trans (hblock.left.reaches ht d), running_of_idle _ hrun hblock.idle hblock.idle_end⟩

theorem Simulates.cond (ih : Simulates P entry n) (hP : P.Labelled)
    (heval : evalStmt entry (n + 1) Δ σ (.cond span test body orelse) = some (flow, o))
    (hctx : Context P entry A Δ s)
    (hlower : (lowerCond test (lowerBlock body) (lowerBlock orelse) (!orelse.isEmpty)).run s = .ok () t)
    (ht : Carries P A t) (hrun : A.Running False σ s.holder [] out c) :
    Continues P A t (out ++ o) ⟨s.code.size, c⟩ flow := by
  simp only [evalStmt, Option.bind_eq_bind, Option.bind_eq_some_iff] at heval
  obtain ⟨⟨x, o₁⟩, hx, ⟨flow', o₂⟩, hblock, heq⟩ := heval
  obtain ⟨rfl, rfl⟩ := Prod.mk.inj (Option.some.inj heq)
  obtain ⟨_, elseLabel, made, valued, clear, chosen, enter, finish, saved, joined, e, u, h⟩ :=
    (lowerCond_ensures hctx.ready test (lowerBlock_contract body) (lowerBlock_contract orelse)
      boundNames_of_noElse).run_ok hlower
  have hctx₁ := hctx.advances h.ready h.steady.advances
  have hvalued := (lowerExpr_ensures test h.ready).run_ok h.run_test
  have hctx₂ := ((hctx₁.settled hvalued).settled h.synchronised.settled).settled h.settled
  obtain ⟨hready, hextends⟩ := run_block_ok h.first.ready h.run_body
  -- the program carries every station
  have hc_u := ht.of_extends (h.second.left.extends h.second.root_eq)
  have hc_e := h.otherwise.carried hc_u
  have hc_joined := hc_e.of_extends (h.second.entered.extends h.join.1)
  have hc_saved := hc_joined.of_extends (h.first.left.extends h.first.root_eq)
  have hc_finish := hc_saved.of_extends h.save.settled.steady.extends
  have hc_enter := hc_finish.of_extends hextends
  have hc_chosen := hc_enter.of_extends (h.first.entered.extends hctx₂.ready)
  have hc_clear := hc_chosen.of_extends h.settled.steady.extends
  have hc_valued := hc_clear.of_extends h.synchronised.settled.steady.extends
  have hc_made := hc_valued.of_extends hvalued.steady.extends
  -- the test, and every variable in its slot
  have hleads := (h.label.leads hc_made.holds rfl (hrun.congr h.label.holder_nextLabel)).bind fun d hd =>
    (ih.expr hx hctx₁ h.run_test hc_valued hd).bind fun d hd =>
      h.synchronised.leads True hvalued.ready hc_clear hd
  obtain ⟨d, hreach, hd⟩ := hleads
  obtain ⟨d', hd', hon, hover⟩ := h.tested.leads hP h.synchronised.settled.ready hc_chosen hd
  rw [← List.append_assoc]
  by_cases hzero : x = 0
  · rw [if_pos hzero] at hblock
    obtain ⟨names, hadv⟩ := h.join.2
    have hctx₃ := (hctx₂.advances h.join.1 hadv).entered h.second.ready h.second.entered
    have hidle := h.second.entered.idle h.first.idle_end
    obtain ⟨k, hk, hcont⟩ := ih.otherwise h.otherwise eq_nil_of_noElse hblock hctx₃ hc_u (running_of_clean hd' hidle)
    exact (hcont.left h.second ht.holds).of_reaches (hreach.trans (hover hzero k hk))
  · rw [if_neg hzero] at hblock
    have henter := hd'.forget.congr (h.first.entered.holder_eq hctx₂.ready)
    have hbody := ih.block hblock (hctx₂.entered h.first.ready h.first.entered) h.run_body hc_finish henter
    refine (hbody.join h.save hready hc_saved h.second.idle_end fun d => ?_).of_reaches
      ((hreach.trans (hon hzero)).trans (h.first.entered.reaches hc_enter.holds d'))
    -- from the end of the first branch, past the second one
    exact ((h.first.left.reaches hc_joined.holds d).trans (h.second.entered.reaches hc_e.holds d)).trans
      ((h.otherwise.reaches hP hc_u d).trans (h.second.left.reaches ht.holds d))

end Conditionals

/-! ## Loops -/

section Loops

variable {test : Expr} {body : List Stmt} {top done : String}
  {e made clear valued inside finish saved back : State}

/-- The program carries every station of a loop. -/
theorem LoopStations.carried
    (h : LoopStations test (lowerBlock body) top done e made clear valued inside finish saved back)
    (hc : Carries P A (back.place done)) : Ready [] valued ∧ Ready [] finish ∧ Carries P A back ∧ Carries P A saved ∧
      Carries P A finish ∧ Carries P A inside ∧ Carries P A valued ∧ Carries P A (clear.place top) := by
  have hvalued := (lowerExpr_ensures test (h.synchronised.settled.ready.place top)).run_ok h.run_test
  obtain ⟨hready, hextends⟩ := run_block_ok h.settled.ready h.run_body
  have hc_back := hc.of_extends (extends_place back done)
  have hc_saved := hc_back.of_extends h.jump.extends
  have hc_finish := hc_saved.of_extends h.save.settled.steady.extends
  have hc_inside := hc_finish.of_extends hextends
  have hc_valued := hc_inside.of_extends h.settled.steady.extends
  exact ⟨hvalued.ready, hready, hc_back, hc_saved, hc_finish, hc_inside, hc_valued,
    hc_valued.of_extends hvalued.steady.extends⟩

/-- **A loop, from its test on.** It starts over with less fuel. -/
theorem Simulates.loop_succ (ih : Simulates P entry n) (hP : P.Labelled)
    (heval : evalLoop entry (n + 1) Δ σ test body = some (flow, o))
    (h : LoopStations test (lowerBlock body) top done e made clear valued inside finish saved back)
    (hctx : Context P entry A Δ (clear.place top)) (hdone : Carries P A (back.place done))
    (hrun : A.Running False σ (clear.place top).holder [] out c) :
    Continues P A (back.place done) (out ++ o) ⟨(clear.place top).code.size, c⟩ flow := by
  simp only [evalLoop, Option.bind_eq_bind, Option.bind_eq_some_iff] at heval
  obtain ⟨⟨x, o₁⟩, hx, heval⟩ := heval
  obtain ⟨hready_valued, hready, hc_back, hc_saved, hc_finish, hc_inside, hc_valued, hc_top⟩ := h.carried hdone
  have hctx_inside := (hctx.settled ((lowerExpr_ensures test hctx.ready).run_ok h.run_test)).settled h.settled
  have hidle : Idle (clear.place top).arena := h.synchronised.idle
  have hidle_done : Idle (back.place done).arena := by
    show Idle back.arena
    rw [h.jump.arena]
    exact h.save.idle
  -- every variable is in its slot when the test starts, and still is if it fails
  obtain ⟨d, hreach, hd⟩ := ih.expr hx hctx h.run_test hc_valued (running_of_idle True hrun hidle hidle)
  obtain ⟨d', hd', hon, hover⟩ := h.tested.leads hP hready_valued hc_inside hd
  by_cases hzero : x = 0
  · rw [if_pos hzero] at heval
    obtain ⟨rfl, rfl⟩ := Prod.mk.inj (Option.some.inj heval)
    refine ⟨d', ?_, running_of_clean hd' hidle_done⟩
    rw [size_place back]
    exact hreach.trans (hover hzero _ hdone.holds.getElem?_label)
  · rw [if_neg hzero] at heval
    obtain ⟨⟨flow', o₂⟩, hblock, heval⟩ := Option.bind_eq_some_iff.mp heval
    have hbody := (ih.block hblock hctx_inside h.run_body hc_finish hd'.forget).join h.save hready hc_saved hidle
      fun d => h.jump.jumps_place hc_back.holds hP hc_top.holds d
    have hround := hbody.of_reaches (hreach.trans (hon hzero))
    cases flow' with
    | returned y =>
        obtain ⟨rfl, rfl⟩ := Prod.mk.inj (Option.some.inj heval)
        rw [← List.append_assoc]
        exact hround
    | next σ' =>
        obtain ⟨⟨flow'', o₃⟩, hloop, heq⟩ := Option.bind_eq_some_iff.mp heval
        obtain ⟨rfl, rfl⟩ := Prod.mk.inj (Option.some.inj heq)
        obtain ⟨d'', hreach', hrun'⟩ := hround
        rw [← List.append_assoc, ← List.append_assoc]
        exact (ih.loop hloop h hctx hdone hrun').of_reaches hreach'

theorem Simulates.loop_stmt (ih : Simulates P entry n) (heval : evalLoop entry n Δ σ test body = some (flow, o))
    (hctx : Context P entry A Δ s) (hlower : (lowerLoop test (lowerBlock body)).run s = .ok () t)
    (ht : Carries P A t) (hrun : A.Running False σ s.holder [] out c) :
    Continues P A t (out ++ o) ⟨s.code.size, c⟩ flow := by
  obtain ⟨_, e, u, hblock, top, done, made, clear, valued, inside, finish, saved, back, h, rfl⟩ :=
    (lowerLoop_ensures hctx.ready test (lowerBlock_contract body)).run_ok hlower
  obtain ⟨mid, hwhile, hbreak⟩ := h.labels
  have hctx_made := (hctx.entered hblock.ready hblock.entered).advances h.ready h.steady.advances
  have hctx_top := (hctx_made.settled h.synchronised.settled).place top
  have hdone := ht.of_extends (hblock.left.extends hblock.root_eq)
  obtain ⟨_, _, _, _, _, _, _, hc_top⟩ := h.carried hdone
  have hc_clear := hc_top.of_extends (extends_place clear top)
  have hc_made := hc_clear.of_extends h.synchronised.settled.steady.extends
  have hmid := hc_made.holds.of_extends hbreak.code_extends
  have hreach := ((hblock.entered.reaches (hmid.of_extends hwhile.code_extends) c).trans
    (hwhile.reaches hmid rfl)).trans (hbreak.reaches hc_made.holds rfl)
  have hrun_made : A.Running False σ made.holder [] out c := hrun.congr fun x =>
    ((hbreak.holder_nextLabel x).trans (hwhile.holder_nextLabel x)).trans (hblock.entered.holder_eq hctx.ready x)
  obtain ⟨d, hd, hrun_clear⟩ := h.synchronised.leads False h.ready hc_clear hrun_made
  exact ((ih.loop heval h hctx_top hdone hrun_clear).left hblock ht.holds).of_reaches
    ((hreach.trans hd).trans (reaches_place hc_top.holds d))

end Loops

/-! ## Definitions -/

section Definitions

variable {f : Definition} {callee : Callee} {Γ : List Callee} {opening : Opening} {mid start finish last : State}
  {st : Stmt}

theorem definedName?_eq (st : Stmt) : definedName? st = st.definition?.map (·.name) := by
  cases st <;> rfl

/-- The program holds every station of a function. -/
theorem Stations.holds
    (h : Stations f.name f.params f.body (lowerBlock f.body) loc opening callee s mid start finish last t)
    (ht : P.Holds t) : P.Holds mid ∧ P.Holds start ∧ P.Holds finish ∧ P.Holds last := by
  obtain ⟨comments, _, hclosed⟩ := h.closed.lines
  obtain ⟨comments', _, hopened⟩ := h.opened.lines
  have hlast : P.Holds last := ht.of_extends (by rw [hclosed, List.append_assoc]; exact List.prefix_append _ _)
  have hfinish : P.Holds finish := by
    rcases h.returns with ⟨_, rfl⟩ | hdoes
    · exact hlast
    · exact hlast.of_extends hdoes.code_extends
  have hstart := hfinish.of_extends (run_block_ok h.opened.ready h.run_body).2.code
  refine ⟨hstart.of_extends ?_, hstart, hfinish, hlast⟩
  rw [hopened, List.append_assoc]
  exact List.prefix_append _ _

/-- Inside a function control jumps over the code of a definition. -/
theorem Stations.skips
    (h : Stations f.name f.params f.body (lowerBlock f.body) loc opening callee s mid start finish last t)
    (hP : P.Labelled) (hctx : Context P entry A Δ s) (hs : Carries P A s) (ht : P.Holds t)
    (hrun : A.Running False σ s.holder [] out c) : Leads P s t c (A.Running False σ t.holder [] out) := by
  obtain ⟨hmid, _, _, hlast⟩ := h.holds ht
  obtain ⟨frame, rest, hframes, _⟩ := hctx.frame
  obtain ⟨l, t₁, t₂, hdoes, hspills, hpath⟩ := h.paused.path
  rcases hpath with ⟨_, hnone, _⟩ | ⟨label, hskip, hjump⟩
  · rw [hframes] at hnone
    exact absurd hnone (by simp)
  have hready := hdoes.ready_of_eq hctx.ready
  have hsteady := (hdoes.steady_of_frameless (by simp)).trans (hspills.steady hready)
  have ht₂ : Carries P A t₂ := by
    refine ⟨hmid.of_extends hjump.code_extends, ?_⟩
    rw [hsteady.current, hsteady.alike.table_eq]
    exact hs.table
  have hidle : ∀ x, t₂.holder x = none := fun x =>
    (hjump.holder_nextLabel x).symm.trans (holder_of_idle h.paused.idle x)
  -- the label is the last line of the code
  obtain ⟨comments, _, hlines⟩ := h.closed.lines
  rw [hskip] at hlines
  have hcode : t.code.toList = last.code.toList ++ comments ++ [functionFooter opening.label] ++ [.label label] := by
    simpa using hlines
  have hlabel : P.code[(last.code.toList ++ comments ++ [functionFooter opening.label]).length]? =
      some (.label label) := getElem?_length_of_extends [] (hcode ▸ ht)
  have hsize : t.code.size = (last.code.toList ++ comments ++ [functionFooter opening.label]).length + 1 := by
    rw [← Array.length_toList, hcode, List.length_append]
    rfl
  refine (hdoes.leads (ht₂.holds.of_extends (hspills.steady hready).extends.code) rfl
    (hrun.congr hdoes.holder_eq)).bind fun d hd => (hspills.leads hready ht₂ hd).bind fun d' hd' => ?_
  refine ⟨d', ?_, (hd'.1.of_unheld hidle).congr fun x => (holder_of_idle h.idle x).trans (hidle x).symm⟩
  rw [hsize]
  exact hjump.jumps hmid hP hlabel d'

/-- **What a statement brings into sight**: the function that it defines, and nothing else. -/
theorem run_stmt_visible (hs : Ready [] s) (hlower : (lowerStmt st).run s = .ok () t) :
    (st.definition? = none ∧ t.visible = s.visible) ∨
      ∃ f callee loc opening mid start finish last, st.definition? = some f ∧ t.visible = callee :: s.visible ∧
        Stations f.name f.params f.body (lowerBlock f.body) loc opening callee s mid start finish last t := by
  cases hdef : st.definition? with
  | none =>
      left
      obtain ⟨fns, hfns, hdone⟩ := (lowerStmt_ensures st hs).run_ok hlower
      rw [definedName?_eq, hdef] at hfns
      obtain rfl : fns = [] := List.map_eq_nil_iff.mp hfns
      exact ⟨rfl, hdone.advances.visible_eq hs⟩
  | some f =>
      right
      cases st with
      | funcDef span name params body =>
          obtain rfl := Option.some.inj hdef
          rw [lowerStmt] at hlower
          obtain ⟨opening, callee, mid, start, finish, last, hstations, hdone⟩ :=
            (lowerFunction_ensures hs name params body _ (lowerBlock_contract body)).run_ok hlower
          exact ⟨_, callee, _, opening, mid, start, finish, last, rfl, hdone.advances.visible_eq hs, hstations⟩
      | pass | ret | expr | assign | augAssign | cond | loop => exact absurd hdef (by simp [Stmt.definition?])

/-- **A definition comes into sight** for the statements that follow it. -/
theorem Linked.define (h : Linked P entry Δ s.visible) (hs : Ready [] s) (hentry : s.options.entry = entry)
    (hlower : (lowerStmt st).run s = .ok () t) (ht : P.Holds t) :
    Linked P entry (st.definition?.toList ++ Δ) t.visible := by
  rcases run_stmt_visible hs hlower with ⟨hdef, hvisible⟩ |
    ⟨f, callee, loc, opening, mid, start, finish, last, hdef, hvisible, hstations⟩
  · rw [hdef, hvisible]
    exact h
  · have hstart : start.visible = callee :: s.visible := by
      rw [hstations.opened.visible_eq hstations.paused.ready, hstations.paused.steady.visible_eq]
    rw [hdef, hvisible]
    exact .cons ⟨hstations.opened.callee_name, loc, opening, s, mid, start, finish, last, t, hstations, hentry,
      hstart, ht⟩ h

theorem Context.next (h : Context P entry A Δ s) (hlower : (lowerStmt st).run s = .ok () t) (ht : P.Holds t) :
    Context P entry A (st.definition?.toList ++ Δ) t := by
  obtain ⟨fns, _, hdone⟩ := (lowerStmt_ensures st h.ready).run_ok hlower
  refine ⟨hdone.ready, h.linked.define h.ready h.entry_eq hlower ht, ?_, ?_, ?_⟩
  · rw [hdone.advances.frames]; exact h.frame
  · rw [hdone.advances.options]; exact h.entry_eq
  · rw [hdone.advances.current]; exact h.inside

end Definitions

/-! ## Statements and blocks -/

theorem Simulates.stmt_succ (ih : Simulates P entry n) (hP : P.Labelled) {st : Stmt}
    (heval : evalStmt entry (n + 1) Δ σ st = some (flow, o)) (hctx : Context P entry A Δ s)
    (hlower : (lowerStmt st).run s = .ok () t) (ht : Carries P A t) (hrun : A.Running False σ s.holder [] out c) :
    Continues P A t (out ++ o) ⟨s.code.size, c⟩ flow := by
  rw [lowerStmt.eq_def] at hlower
  cases st with
  | pass span =>
      obtain ⟨rfl, rfl⟩ := Prod.mk.inj (Option.some.inj heval)
      obtain ⟨_, rfl⟩ := EStateM.Result.ok.inj hlower
      rw [List.append_nil]
      exact ⟨c, .refl _, hrun⟩
  | ret span value => exact ih.ret heval hctx hlower ht hrun
  | expr span value => exact ih.expr_stmt heval hctx hlower ht hrun
  | assign span targets value => exact ih.assign heval hctx hlower ht hrun
  | augAssign span target op value => exact ih.augAssign heval hctx hlower ht hrun
  | cond span test body orelse => exact ih.cond hP heval hctx hlower ht hrun
  | loop span test body => exact ih.loop_stmt heval hctx hlower ht hrun
  | funcDef span name params body =>
      obtain ⟨rfl, rfl⟩ := Prod.mk.inj (Option.some.inj heval)
      obtain ⟨opening, callee, mid, start, finish, last, hstations, hdone⟩ :=
        (lowerFunction_ensures hctx.ready name params body _ (lowerBlock_contract body)).run_ok hlower
      rw [List.append_nil]
      exact Stations.skips (f := ⟨name, params, body⟩) hstations hP hctx (ht.of_extends hdone.advances.extends)
        ht.holds hrun

theorem Simulates.block_succ (ih : Simulates P entry n) {ss : List Stmt}
    (heval : evalBlock entry (n + 1) Δ σ ss = some (flow, o)) (hctx : Context P entry A Δ s)
    (hlower : (lowerBlock ss).run s = .ok () t) (ht : Carries P A t) (hrun : A.Running False σ s.holder [] out c) :
    Continues P A t (out ++ o) ⟨s.code.size, c⟩ flow := by
  rw [lowerBlock.eq_def] at hlower
  cases ss with
  | nil =>
      obtain ⟨rfl, rfl⟩ := Prod.mk.inj (Option.some.inj heval)
      obtain ⟨_, rfl⟩ := EStateM.Result.ok.inj hlower
      rw [List.append_nil]
      exact ⟨c, .refl _, hrun⟩
  | cons st rest =>
      obtain ⟨⟨flow₁, o₁⟩, hst, heval⟩ := Option.bind_eq_some_iff.mp heval
      obtain ⟨_, s', hstart, hlower⟩ := run_bind_ok.mp hlower
      obtain ⟨_, rfl⟩ := EStateM.Result.ok.inj hstart
      obtain ⟨_, t₁, hfirst, hrest⟩ := run_bind_ok.mp hlower
      obtain ⟨fns, _, hdone⟩ := (lowerStmt_ensures st hctx.ready).run_ok hfirst
      have hc₁ := ht.of_extends (run_block_ok hdone.ready hrest).2
      have hcont := ih.stmt hst hctx hfirst hc₁ hrun
      cases flow₁ with
      | returned x =>
          -- what follows a return is never reached
          obtain ⟨rfl, rfl⟩ := Prod.mk.inj (Option.some.inj heval)
          exact hcont
      | next σ₁ =>
          obtain ⟨⟨flow₂, o₂⟩, htail, heq⟩ := Option.bind_eq_some_iff.mp heval
          obtain ⟨rfl, rfl⟩ := Prod.mk.inj (Option.some.inj heq)
          obtain ⟨d, hreach, hd⟩ := hcont
          rw [← List.append_assoc]
          exact (ih.block htail (hctx.next hfirst hc₁.holds) hrest ht hd).of_reaches hreach

/-! ## Calls -/

section Calls

variable {f : Definition} {name : String} {params : List String} {callee : Callee} {Γ : List Callee}
  {opening : Opening} {mid start : State} {args : List Word}

/-- **A function starts** at its label and opens its frame. -/
theorem Opened.starts (h : Opened name params opening callee mid start) (hstart : P.Holds start) :
    ∃ k, P.code[k]? = some (.label callee.label) ∧ ∀ {c}, 8 ∣ c.get .sp →
      P.Reaches ⟨k, c⟩ ⟨start.code.size, c.entered opening.frame⟩ := by
  obtain ⟨comments, _, hlines⟩ := h.lines
  have hsplit : ∃ front, start.code.toList =
      front ++ [.label callee.label] ++ opening.frame.prologue.map Line.instr := by
    refine ⟨mid.code.toList ++ comments ++ (functionHeader opening.label).dropLast, ?_⟩
    rw [hlines, h.callee_label]
    simp [functionHeader]
  obtain ⟨front, hfront⟩ := hsplit
  unfold Image.Holds at hstart
  rw [hfront] at hstart
  have hlabel : P.code[front.length]? = some (.label callee.label) :=
    getElem?_length_of_extends (opening.frame.prologue.map Line.instr) (by simpa using hstart)
  refine ⟨front.length, hlabel, fun {c} hsp => (Image.reaches_label hlabel c).trans ?_⟩
  have hfilter : (opening.frame.prologue.map Line.instr).filter (fun l => !l.isComment) =
      opening.frame.prologue.map Line.instr := by
    rw [List.filter_eq_self]
    intro l hl
    obtain ⟨i, _, rfl⟩ := List.mem_map.mp hl
    rfl
  have hreach := Image.reaches_lines _ hstart hfilter (effects?_prologue opening.frame hsp)
  rw [← hfront, List.length_append] at hreach
  exact hreach

theorem Opened.params_length (h : Opened name params opening callee mid start) (hle : params.length ≤ maxParameters) :
    callee.params.length = params.length := by
  have hlength := congrArg List.length h.callee_params
  rw [List.length_map, List.length_take] at hlength
  rw [hlength]
  exact Nat.min_eq_left hle

/-- **A call does what the source says.** -/
theorem Simulates.call_succ (ih : Simulates P entry n) (heval : evalCall entry (n + 1) (f :: Δ) args = some (v, o))
    (hlinked : Linked P entry (f :: Δ) (callee :: Γ)) : args.length = callee.params.length ∧
      ∃ k, P.code[k]? = some (.label callee.label) ∧ ∀ d, 8 ∣ d.get .sp → Passed args d → P.Answers k d v o := by
  have hplaced : Placed P entry f callee (callee :: Γ) := by
    cases hlinked with
    | cons hplaced _ => exact hplaced
  obtain ⟨loc, opening, s, mid, start, finish, last, t, h, hentry, hvisible, ht⟩ := hplaced.stations
  obtain ⟨_, hstart, hfinish, hlast⟩ := h.holds ht
  unfold evalCall at heval
  split at heval
  case isFalse => exact absurd heval (by simp)
  case isTrue hlen =>
  obtain ⟨⟨flow, o₁⟩, hbody, heq⟩ := Option.bind_eq_some_iff.mp heval
  obtain ⟨rfl, rfl⟩ := Prod.mk.inj (Option.some.inj heq)
  obtain ⟨k, hk, hopen⟩ := h.opened.starts hstart
  refine ⟨hlen.trans (h.opened.params_length h.params_le).symm, k, hk, fun d hsp hpassed => ?_⟩
  -- the frame has a slot for every name that the body binds
  obtain ⟨fns, hdone⟩ :=
    (lowerBlock_contract f.body start h.opened.ready (h.opened.current_ne_globalScope h.paused)).run_ok h.run_body
  have hslots : opening.frame.slots = (finish.arena.table finish.current).length := by
    rw [← h.slotCount_eq hdone, Arena.slotCount_eq]
  have htable : f.params <+: finish.arena.table finish.current := h.opened.table_eq ▸ hdone.advances.extends.table
  have hnodup := hdone.ready.named.table_nodup
  have hrun := Activation.running_ofCall (h := start.holder) hnodup hslots hsp htable hpassed fun hx => by
    obtain ⟨w, r, hr, hresolve, hactive⟩ := h.opened.holder hx
    exact ⟨r, hr, holder_eq_some_iff.mpr ⟨w, hresolve, hactive⟩⟩
  have hctx : Context P entry (.ofCall d opening.frame _ hnodup hslots hsp) (f :: Δ) start := by
    refine ⟨h.opened.ready, hvisible ▸ hlinked, ⟨_, _, h.opened.frames, hslots⟩, ?_,
      h.opened.current_ne_globalScope h.paused⟩
    rw [h.opened.options, h.paused.steady.options]
    exact hentry
  have hcont := ih.block hbody hctx h.run_body ⟨hfinish, List.prefix_refl _⟩ hrun
  rw [List.nil_append] at hcont
  have hreturned : Continues P (.ofCall d opening.frame _ hnodup hslots hsp) finish o₁
      ⟨start.code.size, d.entered opening.frame⟩ (.returned flow.result) := by
    cases flow with
    | returned x => exact hcont
    | next σ =>
        -- the body ends without a result, and so code to return 0 follows it
        obtain ⟨d', hd', hrun'⟩ := hcont
        rcases h.returns with ⟨hret, _⟩ | hdoes
        · rw [isReturn_getLast_of_evalBlock_next hbody] at hret
          exact absurd hret (by simp)
        · exact (Does.returns [.li resultRegister 0] hdoes hlast rfl
            (hrun'.set rfl hdone.ready.holder_ne_result) hslots rfl).of_reaches hd'
  obtain ⟨j, d', hd', hret, hfinished⟩ := hreturned
  exact ⟨j, d', (hopen hsp).trans hd', hret, hfinished.returned⟩

end Calls

/-! ## The simulation -/

/-- **Generated code does what the source says**, whatever fuel the evaluation takes. -/
theorem simulates (hP : P.Labelled) : ∀ n, Simulates P entry n
  | 0 => simulates_zero
  | n + 1 =>
    have ih := simulates hP n
    { expr := fun heval hctx hlower ht hrun => ih.expr_succ hP heval hctx hlower ht hrun
      arguments := fun heval hctx hlower ht hrun => ih.arguments_succ heval hctx hlower ht hrun
      call := fun heval hlinked => ih.call_succ heval hlinked
      stmt := fun heval hctx hlower ht hrun => ih.stmt_succ hP heval hctx hlower ht hrun
      block := fun heval hctx hlower ht hrun => ih.block_succ heval hctx hlower ht hrun
      loop := fun heval h hctx hdone hrun => ih.loop_succ hP heval h hctx hdone hrun }

end Offside.Lower
