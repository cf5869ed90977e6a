import Offside.Proofs.Depths
import Offside.Proofs.Freshness

/-!
# `Proofs.Crossings` — where statements and branches meet

Code generation is gone through once more, for what holds at the milestones between statements and where
control comes together (`Watched`): the stack pointer is at the frame (`AtLevel`), every variable is in its slot
at a label and before a jump to one, and where a loop is left each variable in a register is a copy of its
slot.

What the code of a statement adds to the text keeps its levels (`Stays`); a function in it is a piece of its
own (`Opened.region`).
-/

namespace Offside.Lower

open Machine

variable {s t u mid : State} {held : List Register} {r : Register} {v : VarRef} {names names' : List String}
  {loose loose' placed placed' : List String} {d d' n δ : Int}

/-! ## Levels -/

/-- The level of the frame of the function whose code is being generated. -/
def FrameAt (base : Int) (s : State) : Prop := ∀ f rest, s.frames = f :: rest → base = -f.size

/-- **The stack pointer is displaced by `d`** from the frame of the function whose code is being generated,
    and no header of a function is under way. -/
def AtLevel (d : Int) (s : State) : Prop :=
  ∃ base ds, scan [⟨some 0, 0⟩] s.code.toList = ⟨some base, base + d⟩ :: ds ∧ FrameAt base s ∧ AtEdge s.code.toList

theorem AtLevel.traced (loose placed : Int → List (String × Int)) (hs : AtLevel d s)
    (h : ∀ base, FrameAt base s → Traced base (loose base) (placed base) (base + d) (base + d') s t) :
    AtLevel d' t := by
  obtain ⟨base, ds, hscan, hframe, hedge⟩ := hs
  have htraced := h base hframe
  obtain ⟨ps, hps, hlaid, hflows⟩ := htraced.text
  refine ⟨base, ds, ?_, fun f rest hf => hframe f rest (htraced.frames ▸ hf), ?_⟩
  · rw [hps, scan_append, hscan, hlaid.scan_eq, hflows.level_eq]
  · rw [hps]
    exact atEdge_append hedge fun _ => hlaid.line_ne

theorem AtLevel.shifts (hs : AtLevel d s) (h : Shifts n δ s t) (hd : d + n ≤ 0) : AtLevel (d + δ) t := by
  refine hs.traced (fun _ => []) (fun _ => []) fun base _ => ?_
  rw [← Int.add_assoc]
  exact h.traced base (base + d) (by omega)

/-- **A stretch between statements**, with jumps to the `loose` labels left open and the `placed` ones in it,
    all at the level of the frame. -/
def Stays (loose placed : List String) (s t : State) : Prop :=
  ∀ base, FrameAt base s → Traced base (loose.map (·, base)) (placed.map (·, base)) base base s t

theorem AtLevel.stays (hs : AtLevel 0 s) (h : Stays loose placed s t) : AtLevel 0 t := by
  refine hs.traced (fun base => loose.map (·, base)) (fun base => placed.map (·, base)) fun base hbase => ?_
  rw [Int.add_zero]
  exact h base hbase

namespace Stays

theorem refl (s : State) : Stays [] [] s s := fun _ _ => .refl s

theorem trans (h : Stays loose placed s t) (h' : Stays loose' placed' t u) :
    Stays (loose ++ loose') (placed ++ placed') s u := by
  intro base hbase
  have hst := h base hbase
  rw [List.map_append, List.map_append]
  exact hst.trans (h' base fun f rest hf => hbase f rest (hst.frames ▸ hf))

/-- A jump to a label that is placed is settled. -/
theorem settle {x : String} (h : Stays (x :: loose) placed s t) (hx : x ∈ placed) : Stays loose placed s t :=
  fun base hbase => (h base hbase).settle (List.mem_map_of_mem hx)

/-- Which labels are placed may be forgotten. -/
theorem forget (h : Stays loose placed s t) : Stays loose [] s t :=
  fun base hbase => (h base hbase).mono (fun _ => id) (by simp)

theorem place (s : State) (x : String) : Stays [] [x] s (s.place x) := fun _ _ => traced_place x

end Stays

theorem Shifts.stays (h : Shifts 0 0 s t) : Stays [] [] s t := by
  intro base _
  have htraced := h.traced base base (by omega)
  rw [Int.add_zero] at htraced
  exact htraced

theorem Entered.stays (h : Entered s t) : Stays [] [] s t := fun _ _ => h.traced

theorem Left.stays {outer : ScopeId} (h : Left outer s t) : Stays [] [] s t := fun _ _ => h.traced

theorem Does.stays_jump {i : Instr} {x : String} {p : Pool} {a : Arena} (h : Does [i] p a s t)
    (hi : i.target? = some x) (hfunctions : ∀ j, (a.get j).functions = (s.arena.get j).functions) :
    Stays [x] [] s t := fun base _ => h.traced_jump hi hfunctions (Int.le_refl base)

/-- A value is tested that was put on the stack. -/
theorem stays_test {label : String} (hvalue : Shifts 0 (-8) s t) (htest : Tested label t u) :
    Stays [label] [] s u := by
  intro base _
  have h := (hvalue.traced base base (by omega)).trans (htest.traced (by omega))
  rw [Int.neg_add_cancel_right] at h
  exact h

/-! ## What is watched -/

/-- **What holds where statements and branches meet.** -/
def Watched : Milestone → State → Prop
  | .boundary, s => AtLevel 0 s
  | .join _, s => Idle s.arena ∧ AtLevel 0 s
  | .exit top, s => Clean top s ∧ AtLevel 0 s
  | _, _ => True

theorem Inner.watched (p : Milestone) (s : State) (h : Inner p s) : Watched p s := by
  cases p with
  | boundary | join | exit => exact absurd h.1 Bool.false_ne_true
  | _ => trivial

theorem Ensures.watched {α : Type} {x : Lower α} {Q : α → State → Prop} (h : x.Ensures Inner s Q) :
    x.Ensures Watched s Q := h.weaken Inner.watched

/-- **Code between statements**, wherever the stack pointer is at the frame. -/
def Crosses (body : Lower Unit) : Prop :=
  ∀ s, Ready [] s → AtLevel 0 s → body.Ensures Watched s fun _ t => Stays [] [] s t

/-- Taking a value off the stack brings no variable into a register. -/
theorem Popped.idle (h : Popped r s t) (ht : Ready held t) (hs : Idle s.arena) : Idle t.arena := by
  obtain ⟨mid, halloc, hdoes⟩ := h
  refine ht.tidy.idle fun v => ?_
  rw [hdoes.arena]
  exact halloc.activeRegister?_eq_none (hs.activeRegister?_eq_none v)

/-! ## Statements without control flow -/

theorem lowerAssign_crosses (hs : Ready [] s) (targets : List Expr) (value : Expr) (loc : Position) :
    (lowerAssign targets value loc).Ensures Watched s fun _ t => Stays [] [] s t := by
  match targets with
  | [] => trivial
  | _ :: _ :: _ => trivial
  | [target] =>
      refine (targetName_ensures target loc).bind fun name t ⟨ht, _⟩ => ?_
      subst ht
      refine (defineLocal_ensures hs name loc).bind fun v t₁ h₁ => ?_
      obtain ⟨var, hvar, _⟩ := h₁.isLocal
      refine (lowerExpr_pushes value h₁.completes.ready).watched.bind fun _ t₂ h₂ => ?_
      obtain ⟨var', hvar', _⟩ := hvar.of_alike h₂.settled.steady.alike
      refine (popVariable_ensures h₂.settled.ready (h₂.settled.steady.current ▸ hvar')).watched.mono fun _ t₃ h₃ => ?_
      have hvalue : Shifts 0 0 t₁ t₃ := h₂.shifts.trans (h₃.1.shifts h₂.settled.ready) (by decide) (by decide)
      exact (h₁.shifts.then hvalue (by decide)).stays

theorem lowerAugAssign_crosses (hs : Ready [] s) (target : Expr) (op : BinaryOp) (value : Expr) (loc : Position) :
    (lowerAugAssign target op value loc).Ensures Watched s fun _ t => Stays [] [] s t := by
  refine (targetName_ensures target loc).bind fun name t' ⟨ht', _⟩ => ?_
  refine (resolveLocal_ensures name loc).bind fun v t ⟨ht, _, var, hvar, _⟩ => ?_
  subst ht ht'
  refine (pushVariable_ensures hs name loc).watched.bind fun _ t₁ h₁ => ?_
  refine (lowerExpr_pushes value h₁.2.ready).watched.bind fun _ t₂ h₂ => ?_
  refine (combineBinary_ensures h₂.settled.ready op).watched.bind fun _ t₃ h₃ => ?_
  have hpushes : Pushes 1 t t₃ := ((Pushes.fetched h₁.1 h₁.2).append h₂).combined h₃.1 h₃.2
  obtain ⟨var', hvar', _⟩ := hvar.of_alike hpushes.settled.steady.alike
  refine (popVariable_ensures h₃.2.ready (hpushes.settled.steady.current ▸ hvar')).watched.mono fun _ t₄ h₄ => ?_
  exact (hpushes.shifts.trans (h₄.1.shifts h₃.2.ready) (by decide) (by decide) : Shifts 0 0 t t₄).stays

/-- The result of an expression is taken off the stack again. -/
theorem shifts_discard (hvalue : Pushes 1 s t) (hpop : Does (pop resultRegister) t.pool t.arena t u) : Shifts 0 0 s u :=
  hvalue.shifts.trans (hpop.shifts_of_eq (.pop (by decide))) (by decide) (by decide)

/-- **A result is returned**: the frame is closed behind the code of the value. -/
theorem lowerReturn_crosses (hs : Ready [] s) (value : Option Expr) (loc : Position) :
    (lowerReturn value loc).Ensures Watched s fun _ t => ∃ frame rest u, s.frames = frame :: rest ∧ Shifts 0 0 s u ∧
      Does frame.epilogue u.pool u.arena u t := by
  unfold lowerReturn
  rw [ensures_bind, ensures_look]
  cases hframes : s.frames with
  | nil => trivial
  | cons frame rest =>
      cases value with
      | some e =>
          refine (lowerExpr_pushes e hs).watched.bind fun _ t₁ h₁ => (emitInstrs_does _).bind fun _ t₂ h₂ => ?_
          exact (emitInstrs_does _).mono fun _ t ht => ⟨frame, rest, t₂, rfl, shifts_discard h₁ h₂, ht⟩
      | none =>
          refine (emitInstrs_does _).bind fun _ t₁ h₁ => ?_
          exact (emitInstrs_does _).mono fun _ t ht => ⟨frame, rest, t₁, rfl, h₁.shifts_of_eq linear_zero, ht⟩

theorem stays_return {frame : Frame} {rest : List Frame} (hframes : s.frames = frame :: rest) (hvalue : Shifts 0 0 s t)
    (hdoes : Does frame.epilogue t.pool t.arena t u) : Stays [] [] s u := by
  intro base hbase
  obtain rfl := hbase frame rest hframes
  exact (hvalue.stays _ hbase).trans (hdoes.traced_return [] .nil)

theorem lowerExprStmt_crosses (hs : Ready [] s) (e : Expr) :
    (lowerExprStmt e).Ensures Watched s fun _ t => Stays [] [] s t := by
  unfold lowerExprStmt
  rw [ensures_bind, ensures_look]
  dsimp only
  split
  · exact (comment_does _).mono fun _ t ht => (ht.shifts_of_eq .nil).stays
  · refine (lowerExpr_pushes e hs).watched.bind fun _ t ht => (emitInstrs_does _).mono fun _ u hu => ?_
    exact (shifts_discard ht hu).stays

/-! ## Control flow -/

theorem shifts_nextLabel {scope : ScopeId} {purpose : String}
    (h : Does [] s.pool (s.arena.nextLabel scope purpose).2 s t) : Shifts 0 0 s t :=
  h.shifts .nil (Arena.alike_nextLabel _ _ _).functions_eq

theorem lowerElse_crosses {elseLabel : String} {orelse : Lower Unit} {hasElse : Bool} (hs : Ready [] s)
    (henter : Entered s t) (ht : Ready [] t) (hidle : Idle t.arena) (hlevel : AtLevel 0 t)
    (horelse : BodyContract names orelse) (hcross : Crosses orelse) :
    (lowerElse elseLabel orelse hasElse s.current).Ensures Watched t fun _ u => Stays [] [elseLabel] t u := by
  have houter := henter.outer_lt hs
  cases hasElse with
  | true =>
      unfold lowerElse
      rw [if_pos rfl]
      refine (nextLabel_ensures ht "endif" houter).bind fun endLabel t₁ ⟨h₁, hr₁, _⟩ => ?_
      have hidle₁ : Idle t₁.arena := by
        intro v var hv
        rw [h₁.arena, Arena.lookup?_nextLabel] at hv
        exact hidle v var hv
      have hstay₁ := (shifts_nextLabel h₁).stays
      refine (jumpTo_does ⟨hidle₁, hlevel.stays hstay₁⟩).bind fun _ t₂ h₂ => ?_
      have hstay₂ := hstay₁.trans (h₂.stays_jump rfl fun _ => rfl)
      have hidle₂ : Idle t₂.arena := by rw [h₂.arena]; exact hidle₁
      refine (placeLabel_ensures (h₂.ready_of_eq hr₁) ⟨hidle₂, hlevel.stays hstay₂⟩).bind fun _ t₃ ⟨hplace, hadv, hr₃⟩ => ?_
      subst hplace
      have hstay₃ := hstay₂.trans (.place t₂ elseLabel)
      have hne : (t₂.place elseLabel).current ≠ globalScope := by
        rw [hadv.current, h₂.current, h₁.current]; exact henter.current_ne hs
      refine (hcross _ hr₃ (hlevel.stays hstay₃)).with_run.bind fun _ t₄ ⟨hrun, hstay₄⟩ => ?_
      obtain ⟨fns, h₄⟩ := (horelse _ hr₃ hne).run_ok hrun
      refine (synchronise_settled h₄.ready).watched.bind fun _ t₅ h₅ => ?_
      have hstay₅ := hstay₃.trans (hstay₄.trans h₅.shifts.stays)
      refine (placeLabel_ensures h₅.settled.ready ⟨h₅.idle, hlevel.stays hstay₅⟩).mono fun _ t₆ ⟨hplace, _, _⟩ => ?_
      subst hplace
      -- the end label is made, jumped to and placed in here; only the else label was awaited from outside
      have hstay₆ := (hstay₅.trans (.place t₅ endLabel)).settle (by simp)
      exact fun base hbase => (hstay₆ base hbase).mono (by simp) (by simp)
  | false =>
      refine (placeLabel_ensures ht ⟨hidle, hlevel⟩).mono fun _ u ⟨hplace, _, _⟩ => ?_
      subst hplace
      exact .place t elseLabel

/-- A block is entered and left again. -/
theorem Enclosed.stays {e : State} (h : Enclosed s e u t) (hinside : Stays loose placed e u) :
    Stays loose placed s t := by
  have hwhole := h.entered.stays.trans (hinside.trans h.left.stays)
  rw [List.nil_append, List.nil_append, List.append_nil, List.append_nil] at hwhole
  exact hwhole

theorem lowerCond_crosses {body orelse : Lower Unit} {hasElse : Bool} (hs : Ready [] s) (hlevel : AtLevel 0 s)
    (test : Expr) (hbody : BodyContract names body) (horelse : BodyContract names' orelse) (hcross : Crosses body)
    (hcross' : Crosses orelse) (hnames : hasElse = false → names' = []) :
    (lowerCond test body orelse hasElse).Ensures Watched s fun _ t => Stays [] [] s t := by
  unfold lowerCond
  rw [ensures_bind, ensures_look]
  refine (nextLabel_ensures hs "else" hs.named.current_lt).bind fun elseLabel t₁ ⟨h₁, hr₁, _⟩ => ?_
  refine (lowerExpr_pushes test hr₁).watched.bind fun _ t₂ h₂ => ?_
  refine (synchronise_settled h₂.settled.ready).watched.bind fun _ t₃ h₃ => ?_
  -- the value of the test is on the stack, and every variable in its slot
  have hvalue : Shifts 0 (-8) s t₃ :=
    ((shifts_nextLabel h₁).then h₂.shifts (by decide)).trans h₃.shifts (by decide) (by decide)
  refine (branchIfZero_ensures (p := .join elseLabel) h₃.settled.ready elseLabel Inner.watched fun r u hu hr =>
    ⟨hu.idle hr h₃.idle, (hlevel.shifts hvalue (by decide)).shifts hu.shifts (by decide)⟩).bind
    fun _ t₄ ⟨htested, h₄⟩ => ?_
  have hstay₄ := stays_test hvalue htested
  refine (inBlock_ensures names [] (R := Stays [] []) h₄.ready Inner.watched fun e henter he => ?_).bind
    fun _ t₅ ⟨h₅, e₁, u₁, hfirst, hstay⟩ => ?_
  · refine (hcross e he (hlevel.stays (hstay₄.trans henter.stays))).with_run.bind fun _ b ⟨hrun, hstay⟩ => ?_
    obtain ⟨fns, hb⟩ := (hbody e he (henter.current_ne h₄.ready)).run_ok hrun
    refine (synchronise_settled hb.ready).watched.mono fun _ u hu =>
      ⟨⟨fns, hu.settled.ready, ?_⟩, hu.idle, hstay.trans hu.shifts.stays⟩
    exact hb.advances.steady hu.settled.steady he.named.current_lt
  have hstay₅ := hstay₄.trans (hfirst.stays hstay)
  refine (inBlock_ensures names' [elseLabel] (R := Stays [] [elseLabel]) h₅.ready Inner.watched fun e henter he => ?_).mono
    fun _ t₆ ⟨_, e₂, u₂, hsecond, hstay'⟩ => ?_
  · have hidle := henter.idle hfirst.idle_end
    refine (lowerElse_crosses h₅.ready henter he hidle (hlevel.stays (hstay₅.trans henter.stays)) horelse
      hcross').with_run.mono fun _ u ⟨hrun, hstay⟩ => ?_
    have hu := (lowerElse_ensures h₅.ready henter he hidle horelse hnames).run_ok hrun
    exact ⟨hu.1, hu.2.1, hstay⟩
  exact ((hstay₅.trans (hsecond.stays hstay')).settle (by simp)).forget

/-- **A loop is left with copies only**: no expression stores to a variable. -/
theorem lowerTurns_crosses {e : State} {body : Lower Unit} (hs : Ready [] s) (henter : Entered s e) (he : Ready [] e)
    (hlevel : AtLevel 0 e) (test : Expr) (hbody : BodyContract names body) (hcross : Crosses body) :
    (lowerTurns test body).Ensures Watched e fun _ u => Stays [] [] e u := by
  unfold lowerTurns
  rw [ensures_bind, ensures_look]
  refine (nextLabel_ensures he "while" he.named.current_lt).bind fun top t₁ ⟨h₁, hr₁, hs₁⟩ => ?_
  rw [ensures_bind, ensures_look]
  refine (nextLabel_ensures hr₁ "break" hr₁.named.current_lt).bind fun done t₂ ⟨h₂, hr₂, hs₂⟩ => ?_
  refine (synchronise_settled hr₂).watched.bind fun _ t₃ h₃ => ?_
  have hstart : Shifts 0 0 e t₃ :=
    (shifts_nextLabel h₁).then ((shifts_nextLabel h₂).then h₃.shifts (by decide)) (by decide)
  refine (placeLabel_ensures h₃.settled.ready ⟨h₃.idle, hlevel.stays hstart.stays⟩).bind fun _ t₄ ⟨hplace, _, hr₄⟩ => ?_
  subst hplace
  have hstay₄ := hstart.stays.trans (.place t₃ top)
  -- the label was made before the test, so the code of the test does not place it again
  have hissued : t₃.arena.Issued top := by
    have hsteady := (hs₁.trans hs₂).trans h₃.settled.steady
    obtain ⟨_, made, _, _, _, _, hissued⟩ := hsteady.segment.lines
    exact (hissued top (List.mem_append_right _ (by simp))).1
  refine (lowerExpr_pushes test hr₄).watched.bind fun _ t₅ h₅ => ?_
  refine (branchIfZero_ensures (p := .exit top) h₅.settled.ready done Inner.watched fun r u hu hr => ⟨?_, ?_⟩).bind
    fun _ t₆ ⟨htested, h₆⟩ => ?_
  · exact ((h₅.refreshes hr₄).trans (hu.refreshes h₅.settled.ready)).clean
      (h₅.settled.steady.trans (hu.steady h₅.settled.ready)) h₃.idle hissued
  · exact ((hlevel.stays hstay₄).shifts h₅.shifts (by decide)).shifts hu.shifts (by decide)
  have hstay₆ := hstay₄.trans (stays_test h₅.shifts htested)
  have hne : t₆.current ≠ globalScope := by
    rw [h₆.steady.current, h₅.settled.steady.current]
    show t₃.current ≠ globalScope
    rw [h₃.settled.steady.current, h₂.current, h₁.current]
    exact henter.current_ne hs
  refine (hcross t₆ h₆.ready (hlevel.stays hstay₆)).with_run.bind fun _ t₇ ⟨hrun, hstay⟩ => ?_
  obtain ⟨fns, h₇⟩ := (hbody t₆ h₆.ready hne).run_ok hrun
  refine (synchronise_settled h₇.ready).watched.bind fun _ t₈ h₈ => ?_
  have hstay₈ := hstay₆.trans (hstay.trans h₈.shifts.stays)
  refine (jumpTo_does ⟨h₈.idle, hlevel.stays hstay₈⟩).bind fun _ t₉ h₉ => ?_
  have hstay₉ := hstay₈.trans (h₉.stays_jump rfl fun _ => rfl)
  have hidle₉ : Idle t₉.arena := by rw [h₉.arena]; exact h₈.idle
  refine (placeLabel_ensures (h₉.ready_of_eq h₈.settled.ready) ⟨hidle₉, hlevel.stays hstay₉⟩).mono
    fun _ t₁₀ ⟨hplace, _, _⟩ => ?_
  subst hplace
  exact (((hstay₉.trans (.place t₉ done)).settle (by simp)).settle (by simp)).forget

theorem lowerLoop_crosses {body : Lower Unit} (hs : Ready [] s) (hlevel : AtLevel 0 s) (test : Expr)
    (hbody : BodyContract names body) (hcross : Crosses body) :
    (lowerLoop test body).Ensures Watched s fun _ t => Stays [] [] s t := by
  refine (inBlock_ensures names [] (R := Stays [] []) hs Inner.watched fun e henter he => ?_).mono
    fun _ t ⟨_, e, u, hblock, hstay⟩ => hblock.stays hstay
  refine (lowerTurns_crosses hs henter he (hlevel.stays henter.stays) test hbody hcross).with_run.mono
    fun _ u ⟨hrun, hstay⟩ => ?_
  have hu := (lowerTurns_ensures hs henter he test hbody).run_ok hrun
  exact ⟨hu.1, hu.2.1, hstay⟩

/-! ## Functions -/

section Functions

variable {name : String} {params : List String} {o : Opening} {f : Callee} {start last : State} {outer : ScopeId}

theorem Opened.known (h : Opened name params o f mid start) (hm : Known mid) : Known start := by
  have hcode : ∀ {l : Line}, l ∈ start.code.toList ↔
      l ∈ mid.code.toList ∨ l ∈ functionHeader o.label ++ o.frame.prologue.map Line.instr := by
    intro l; rw [h.code_eq, List.mem_append]
  refine ⟨fun {i g} hg => ?_, fun {x} hx => ?_, ?_⟩
  · by_cases hi : i < mid.arena.scopes.size
    · rw [h.get_lt hi] at hg
      dsimp only at hg
      split at hg
      · rcases List.mem_append.mp hg with hg | hg
        · exact hcode.mpr (Or.inl (hm.functions hg))
        · rw [List.mem_singleton.mp hg, h.callee_label]
          exact hcode.mpr (Or.inr (by simp [functionHeader]))
      · exact hcode.mpr (Or.inl (hm.functions hg))
    · -- a new scope knows no function
      rcases Nat.lt_or_ge i start.arena.scopes.size with hlt | hge
      · obtain rfl : i = start.current := by
          rw [h.size_eq] at hlt
          rw [h.current]
          exact Nat.le_antisymm (Nat.le_of_lt_succ hlt) (Nat.le_of_not_lt hi)
        rw [h.functions_eq] at hg
        exact absurd hg List.not_mem_nil
      · rw [Arena.get_of_size_le hge] at hg
        exact absurd hg List.not_mem_nil
  · rcases hcode.mp hx with hx | hx
    · exact (hm.calls hx).imp_right fun hmem => hcode.mpr (Or.inl hmem)
    · exact absurd hx (by simp [functionHeader, Frame.prologue])
  · rw [h.printsNumbers, hm.prints]
    exact exists_congr fun r => by rw [hcode]; simp [functionHeader, Frame.prologue]

theorem Closed.known (h : Closed o outer t u) (ht : Known t) : Known u := by
  obtain ⟨comments, hcomments, hlines⟩ := h.lines
  have hcode : ∀ {l : Line}, l ∈ t.code.toList → l ∈ u.code.toList := by
    intro l hl
    rw [hlines]
    exact List.mem_append_left _ (List.mem_append_left _ hl)
  have hinstr : ∀ {i : Instr}, .instr i ∈ u.code.toList ↔ .instr i ∈ t.code.toList := by
    intro i
    have hnot : Line.instr i ∉ comments := fun hmem => absurd (hcomments _ hmem) Bool.false_ne_true
    rw [hlines]
    simp [functionFooter, hnot]
  refine ⟨fun {i g} hg => ?_, fun {x} hx => ?_, ?_⟩
  · rw [h.arena, Arena.alike_releaseScope.functions_eq] at hg
    exact hcode (ht.functions hg)
  · exact (ht.calls (hinstr.mp hx)).imp_right hcode
  · rw [h.printsNumbers, ht.prints]
    exact exists_congr fun r => hinstr.symm

theorem Opened.frameAt (h : Opened name params o f mid start) : FrameAt (-o.frame.size) start := by
  intro g rest hg
  rw [h.frames] at hg
  rw [(List.cons.inj hg).1]

/-- The body of a function starts at the level of its frame. -/
theorem Opened.atLevel (h : Opened name params o f mid start) (hm : AtLevel d mid) : AtLevel 0 start := by
  obtain ⟨base, ds, hscan, _⟩ := hm
  refine ⟨-o.frame.size, ⟨some base, base + d⟩ :: ds, ?_, h.frameAt, fun x hx => ?_⟩
  · have hlaid : Laid true (ofLines ((o.frame.prologue.map Line.instr).tail)) := by
      refine .ofLines fun l hl x => ?_
      obtain ⟨i, _, rfl⟩ := List.mem_map.mp (List.mem_of_mem_tail hl)
      simp
    have hopen := hlaid.scanned.1.open o.frame 3 (⟨some base, base + d⟩ :: ds)
    rw [h.code_eq, scan_append, hscan, Int.add_zero]
    refine Eq.trans hopen ?_
    simp [level, ofLines, Frame.prologue, Part.after, Instr.after, Instr.stackMove]
  · rw [h.code_eq] at hx
    exact absurd hx (by simp [Frame.prologue])

/-- **A stretch that ends in a return**: the last of its lines that is not a comment. -/
def Returned (s t : State) : Prop :=
  ∃ front comments : List Line, t.code.toList = s.code.toList ++ (front ++ .instr .ret :: comments) ∧
    ∀ l ∈ comments, l.isComment = true

theorem Returned.after {new : List Line} (h : Returned t u) (ht : t.code.toList = s.code.toList ++ new) :
    Returned s u := by
  obtain ⟨front, comments, hcode, hcomments⟩ := h
  exact ⟨new ++ front, comments, by rw [hcode, ht]; simp, hcomments⟩

theorem Does.returned (is : List Instr) {p : Pool} {a : Arena} (h : Does (is ++ [.ret]) p a s t) : Returned s t := by
  obtain ⟨new, hnew, hfilter⟩ := h.lines
  rw [List.map_append, List.filter_eq_append_iff] at hfilter
  obtain ⟨front, back, rfl, _, hback⟩ := hfilter
  obtain ⟨before, comments, rfl, _, _, hcomments⟩ := List.filter_eq_cons_iff.mp hback
  refine ⟨front ++ before, comments, by rw [hnew]; simp, ?_⟩
  simpa [List.filter_eq_nil_iff] using hcomments

/-- **A function is a piece of the text**: with its body kept inside it, its labels all different and a
    return at its end. -/
theorem Opened.region {k : Nat} (h : Opened name params o f mid start) (hbody : Stays [] [] start last)
    (hsegment : Segment k [] [] start last) (hreturned : Returned start last)
    (hclosed : Closed { o with skip := none } outer last u) :
    ∃ body, u.code.toList = mid.code.toList ++ linesOf [.function o.label body] ∧ Framed o.frame body ∧
      Laid true body := by
  obtain ⟨ps, hps, hlaid, hflows⟩ := (hbody _ h.frameAt).text
  rw [h.frames] at hlaid
  obtain ⟨comments, hcomments, hend⟩ := hclosed.lines
  have hplain : ∀ l ∈ comments, ∀ x, l ≠ .directive x := by
    rintro l hl x rfl
    exact absurd (hcomments _ hl) Bool.false_ne_true
  have hcommentsFlow : Flows (-o.frame.size) [] [] (-o.frame.size) (ofLines comments) (-o.frame.size) := by
    have hsteps : Flows.Steps (-o.frame.size) [] (-o.frame.size) [] := trivial
    refine .of_steps hsteps (List.filter_eq_nil_iff.mpr fun l hl => ?_)
    simp [hcomments l hl]
  have hlines : linesOf (ofInstrs o.frame.prologue ++ (ps ++ ofLines comments)) =
      o.frame.prologue.map Line.instr ++ (linesOf ps ++ comments) := by
    rw [linesOf_append, linesOf_append, linesOf_ofInstrs, linesOf_ofLines]
  refine ⟨ofInstrs o.frame.prologue ++ (ps ++ ofLines comments), ?_, ⟨⟨_, rfl, hflows.append hcommentsFlow⟩, ?_, ?_⟩, ?_⟩
  · rw [hend, hps, h.code_eq, linesOf_function, hlines]
    simp
  · -- the labels are those of the code of the body
    obtain ⟨new, made, hnew, _, hperm, hnodup, _⟩ := hsegment.lines
    obtain rfl : new = linesOf ps := List.append_cancel_left (hnew.symm.trans hps)
    have hnone : labelNames comments = [] := by
      rw [labelNames, List.filterMap_eq_nil_iff]
      exact fun l hl => label?_of_isComment (hcomments l hl)
    have hprologue : labelNames (o.frame.prologue.map Line.instr) = [] := rfl
    rw [hlines, labelNames_append, labelNames_append, hprologue, hnone, List.append_nil, List.nil_append]
    rw [List.append_nil] at hnodup
    exact hperm.nodup_iff.mpr hnodup
  · obtain ⟨front, comments', hcode, hcomments'⟩ := hreturned
    have hps' : linesOf ps = front ++ .instr .ret :: comments' := List.append_cancel_left (hps.symm.trans hcode)
    refine endsInReturn_of_lines (o.frame.prologue.map Line.instr ++ front) (comments' ++ comments) ?_
      fun l hl => (List.mem_append.mp hl).elim (hcomments' l) (hcomments l)
    rw [hlines, hps']
    simp
  · refine Laid.append ?_ (hlaid.append (.ofLines hplain))
    rw [ofInstrs_eq]
    exact .ofLines (by simp [Frame.prologue])

/-- The jump over a function is the last line before it. -/
theorem Does.eq_concat {i : Instr} {p : Pool} {a : Arena} {front : List Line} (h : Does [i] p a s t)
    (hlast : t.code.toList = front ++ [Line.instr i]) : ∃ comments : List Line,
      (∀ l ∈ comments, l.isComment = true) ∧ t.code.toList = s.code.toList ++ comments ++ [Line.instr i] := by
  obtain ⟨new, hnew, hfilter⟩ := h.lines
  obtain ⟨before, after, rfl, hbefore, _, hafter⟩ := List.filter_eq_cons_iff.mp hfilter
  refine ⟨before, by simpa using hbefore, ?_⟩
  have hend := congrArg List.getLast? (hlast.symm.trans hnew)
  have hback : Line.instr i = after.getLast?.getD (.instr i) := by
    simpa [List.getLast?_append, List.getLast?_cons] using hend
  cases hl : after.getLast? with
  | none =>
      rw [List.getLast?_eq_none_iff.mp hl] at hnew
      rw [hnew, List.append_assoc]
  | some l =>
      rw [hl, Option.getD_some] at hback
      have hcomment : l.isComment = true := by
        have hmem := List.filter_eq_nil_iff.mp hafter l (List.mem_of_getLast? hl)
        simpa using hmem
      rw [← hback] at hcomment
      exact absurd hcomment Bool.false_ne_true

/-- The code around a function, up to the jump over it. -/
theorem Paused.exists_front {skip : Option String} (h : Paused skip s mid) :
    ∃ u, Shifts 0 0 s u ∧ ((skip = none ∧ s.frames = [] ∧ mid = u) ∨
      ∃ label comments, skip = some label ∧ Stays [label] [] u mid ∧ (∀ l ∈ comments, l.isComment = true) ∧
        mid.code.toList = u.code.toList ++ comments ++ [.instr (.jump label)]) := by
  obtain ⟨l, t₁, t₂, hnote, hspills, hpath⟩ := h.path
  refine ⟨t₂, (hnote.shifts_of_eq .nil).then hspills.shifts (by decide), ?_⟩
  rcases hpath with ⟨hskip, hframes, rfl⟩ | ⟨label, hskip, hdoes⟩
  · exact Or.inl ⟨hskip, hframes, rfl⟩
  · obtain ⟨front, hfront⟩ := h.jumps hskip
    obtain ⟨comments, hcomments, hcode⟩ := hdoes.eq_concat hfront
    exact Or.inr ⟨label, comments, hskip, hdoes.stays_jump rfl (Arena.alike_nextLabel _ _ _).functions_eq, hcomments, hcode⟩

theorem Paused.stays {skip : Option String} (h : Paused skip s mid) : Stays skip.toList [] s mid := by
  obtain ⟨u, hshifts, ⟨rfl, _, rfl⟩ | ⟨label, _, rfl, hstay, _, _⟩⟩ := h.exists_front
  · exact hshifts.stays
  · exact hshifts.stays.trans hstay

/-- **A function stands in the code around it**; inside another function control jumps over it, to the label
    behind it. -/
theorem Paused.stays_function {body : List Part} (hpaused : Paused o.skip s mid) (hframed : Framed o.frame body)
    (hlaid : Laid true body) (hframes : t.frames = s.frames) (hknown : Known mid → Known t)
    (hcode : t.code.toList = mid.code.toList ++ linesOf [.function o.label body] ++ o.skip.toList.map Line.label) :
    Stays [] [] s t := by
  intro base hbase
  obtain ⟨u, hshifts, hpath⟩ := hpaused.exists_front
  have hsu := hshifts.stays base hbase
  obtain ⟨ps, hps, hlaid', hflows⟩ := hsu.text
  refine ⟨hframes, ?_, fun hs => hknown ((hpaused.stays base hbase).known hs)⟩
  rcases hpath with ⟨hskip, hempty, rfl⟩ | ⟨label, comments, hskip, hstay, hcomments, hmid⟩
  · refine ⟨ps ++ [.function o.label body], ?_, hlaid'.append ?_, hflows.append (.function _ _)⟩
    · rw [hcode, hps, hskip, linesOf_append, Option.toList_none, List.map_nil, List.append_nil, List.append_assoc]
    · rw [hempty]
      exact .outermost hframed hlaid .nil
  · have hplain : ∀ l ∈ comments, ∀ x, l ≠ .directive x := by
      rintro l hl x rfl
      exact absurd (hcomments _ hl) Bool.false_ne_true
    have haround : Laid (!s.frames.isEmpty)
        [.line (.instr (.jump label)), .function o.label body, .line (.label label)] := by
      cases s.frames with
      | nil => exact .line (by simp) (.outermost hframed hlaid (.line (by simp) .nil))
      | cons g rest => exact .nested hframed hlaid .nil
    -- the jump, at the level of the frame, and the label it goes to
    have hjump : Flows base [(label, base)] [] base (ofLines (comments ++ [Line.instr (.jump label)])) base := by
      have hsteps : Flows.Steps base [(label, base)] base [.jump label] :=
        ⟨by simp [Instr.target?], Or.inl (Int.le_refl _), by simp, fun h => absurd h (by simp [Instr.dest?]), trivial⟩
      have hfilter : (comments ++ [Line.instr (.jump label)]).filter (fun l => !l.isComment) =
          [Instr.jump label].map Line.instr := by
        rw [List.filter_append, List.filter_eq_nil_iff.mpr fun l hl => by simp [hcomments l hl]]
        rfl
      have hflow := Flows.of_steps hsteps hfilter
      rw [show level base base (ofInstrs [.jump label]) = base from Int.add_zero base] at hflow
      exact hflow
    have haround' : Flows base [] [(label, base)] base
        (ofLines (comments ++ [Line.instr (.jump label)]) ++ ([Part.function o.label body] ++ ofLines [.label label])) base :=
      (hjump.append ((Flows.function _ _).append (.place label))).settle (by simp)
    refine ⟨ps ++ (ofLines (comments ++ [Line.instr (.jump label)]) ++
      ([Part.function o.label body] ++ ofLines [.label label])),
      ?_, hlaid'.append ?_, (hflows.append haround').mono (by simp) (by simp)⟩
    · rw [hcode, hmid, hps, hskip]
      simp only [linesOf_append, linesOf_ofLines, Option.toList_some, List.map_cons, List.map_nil, List.append_assoc]
    · have hsplit : ofLines (comments ++ [Line.instr (.jump label)]) ++
          ([Part.function o.label body] ++ ofLines [.label label]) =
          ofLines comments ++ [.line (.instr (.jump label)), .function o.label body, .line (.label label)] := by
        simp [ofLines]
      rw [hsplit]
      exact (Laid.ofLines hplain).append haround

/-- A whole function leaves the level around it alone. -/
theorem atLevel_function {frame : Frame} {body : List Part} {label : String} (hs : AtLevel 0 s) (hframed : Framed frame body)
    (hlaid : Laid true body) (hframes : t.frames = s.frames)
    (hcode : t.code.toList = s.code.toList ++ linesOf [.function label body]) : AtLevel 0 t := by
  obtain ⟨base, ds, hscan, hframe, hedge⟩ := hs
  have hwhole : Laid false [.function label body] := .outermost hframed hlaid .nil
  refine ⟨base, ds, ?_, fun g rest hg => hframe g rest (hframes ▸ hg), ?_⟩
  · rw [hcode, scan_append, hscan, hwhole.scan_eq]
    rfl
  · rw [hcode]
    exact atEdge_append hedge fun _ => hwhole.line_ne

theorem lowerFunction_crosses {body : Lower Unit} (hs : Ready [] s) (hlevel : AtLevel 0 s) (name : String)
    (params : List String) (stmts : List Stmt) (loc : Position) (hbody : BodyContract names body) (hcross : Crosses body)
    (hreturn : stmts.getLast?.any Stmt.isReturn = true → ∀ {s t}, Ready [] s → body.run s = .ok () t → Returned s t) :
    (lowerFunction name params stmts body loc).Ensures Watched s fun _ t => Stays [] [] s t := by
  unfold lowerFunction
  rw [ensures_bind, ensures_look]
  refine (enterFunction_ensures hs name params stmts loc Inner.watched fun l t₁ t₂ u h₁ h₂ h₃ hu => ⟨?_, ?_⟩).bind
    fun o start ⟨mid, f, hpaused, hopened, _, _, _⟩ => ?_
  · intro v var hv
    rw [h₃.arena, Arena.lookup?_nextLabel] at hv
    exact h₂.idle v var hv
  · have hshifts := (h₁.shifts_of_eq .nil).then (h₂.shifts.then (shifts_nextLabel h₃) (by decide)) (by decide)
    exact hlevel.shifts hshifts (by decide)
  have hmid : AtLevel 0 mid := hlevel.stays hpaused.stays
  have hstart := hopened.atLevel hmid
  have hne := hopened.current_ne_globalScope hpaused
  refine (hcross start hopened.ready hstart).with_run.bind fun _ finish ⟨hrun, hstay⟩ => ?_
  obtain ⟨fns, h₁⟩ := (hbody start hopened.ready hne).run_ok hrun
  -- both ends of the body lead to the end of the function
  have hleave : ∀ last, Settled finish last → Stays [] [] start last → Returned start last →
      (leaveFunction s.current name o).Ensures Watched last fun _ t => Stays [] [] s t := by
    intro last h₂ hstay' hreturned
    have hsegment := (h₁.advances.steady h₂.steady hopened.ready.named.current_lt).segment
    have hframes : ∀ {q : Opening} {u}, Closed q s.current last u → u.frames = mid.frames := by
      intro q u hu
      rw [hu.frames, h₂.steady.frames, h₁.advances.frames, hopened.frames, List.tail_cons]
    refine (hopened.leave_ensures hpaused h₁ h₂ Inner.watched fun l u _ hu _ => ⟨?_, ?_⟩).mono fun _ t ⟨ht, _⟩ => ?_
    · rw [hu.arena]
      exact hopened.idle_release hpaused.ready h₂.ready
        (h₁.advances.steady h₂.steady hopened.ready.named.current_lt)
    · obtain ⟨region, hcode, hframed, hlaid⟩ := hopened.region hstay' hsegment hreturned hu
      exact atLevel_function hmid hframed hlaid (hframes hu) hcode
    · obtain ⟨comments, hcomments, hlines⟩ := ht.lines
      -- the same function, without the label behind it
      have hclosed : Closed { o with skip := none } s.current last
          { t with code := (last.code.toList ++ comments ++ [functionFooter o.label]).toArray } :=
        ⟨ht.arena, ht.current, ht.frames, ht.options, ht.printsNumbers, comments, hcomments, rfl⟩
      obtain ⟨region, hcode, hframed, hlaid⟩ := hopened.region hstay' hsegment hreturned hclosed
      have hcode' : last.code.toList ++ comments ++ [functionFooter o.label] =
          mid.code.toList ++ linesOf [.function o.label region] := hcode
      refine hpaused.stays_function hframed hlaid ((hframes ht).trans hpaused.steady.frames)
        (fun hm => ht.known ((hstay' _ hopened.frameAt).known (hopened.known hm))) ?_
      rw [hlines, ← hcode']
      simp
  dsimp only
  split
  · rename_i hlast
    exact hleave finish (.refl h₁.ready) hstay (hreturn hlast hopened.ready hrun)
  · refine (returnZero_does o.frame).bind fun _ last h₂ => ?_
    obtain ⟨ps, hps, _⟩ := (hstay _ hopened.frameAt).text
    refine hleave last (h₂.settled_return h₁.ready) (hstay.trans fun base hbase => ?_) ?_
    · obtain rfl := hbase o.frame mid.frames (h₁.advances.frames.trans hopened.frames)
      exact h₂.traced_return [.li resultRegister 0] linear_zero
    · exact Returned.after (Does.returned (.li resultRegister 0 :: o.frame.epilogue.dropLast) h₂) hps

end Functions

/-! ## Statements and blocks -/

/-- A stretch adds to the listing. -/
theorem Advances.exists_new {fns : List Callee} {named pending : List String}
    (h : Advances names fns named pending s t) : ∃ new, t.code.toList = s.code.toList ++ new := by
  obtain ⟨new, _, hnew, _⟩ := h.segment.lines
  exact ⟨new, hnew⟩

/-- **A block whose last statement returns ends in a return.** -/
theorem lowerBlock_returned : ∀ {stmts : List Stmt} {s t : State}, stmts.getLast?.any Stmt.isReturn = true →
    Ready [] s → (lowerBlock stmts).run s = .ok () t → Returned s t
  | [], s, t, hlast, _, _ => absurd hlast (by simp)
  | [st], s, t, hlast, hs, hrun => by
      cases st with
      | ret span value =>
          rw [lowerBlock, lowerBlock, lowerStmt] at hrun
          obtain ⟨_, s', hs', hrun⟩ := run_bind_ok.mp hrun
          obtain ⟨_, u, hu, hend⟩ := run_bind_ok.mp hrun
          obtain ⟨-, rfl⟩ : () = () ∧ s = s' := by simpa [run_milestone] using hs'
          obtain ⟨-, rfl⟩ : () = () ∧ u = t := by simpa [run_milestone] using hend
          obtain ⟨frame, rest, mid, _, hshifts, hdoes⟩ := (lowerReturn_crosses hs value _).run_ok hu
          obtain ⟨new, hnew, _⟩ := hshifts.leadsOn
          exact (Does.returned frame.epilogue.dropLast hdoes).after hnew
      | _ => exact absurd hlast (by simp [Stmt.isReturn])
  | st :: st' :: rest, s, t, hlast, hs, hrun => by
      rw [lowerBlock] at hrun
      obtain ⟨_, s', hs', hrun⟩ := run_bind_ok.mp hrun
      obtain ⟨_, u, hu, hrest⟩ := run_bind_ok.mp hrun
      obtain ⟨-, rfl⟩ : () = () ∧ s = s' := by simpa [run_milestone] using hs'
      obtain ⟨fns, _, hadv⟩ := (lowerStmt_ensures st hs).run_ok hu
      obtain ⟨new, hnew⟩ := hadv.advances.exists_new
      exact (lowerBlock_returned (by simpa using hlast) hadv.ready hrest).after hnew

mutual

/-- **The code of a statement** keeps what is watched. -/
theorem lowerStmt_crosses : ∀ (st : Stmt), Crosses (lowerStmt st)
  | .pass span => fun s _ _ => .refl s
  | .ret span value => fun s hs _ => by
      rw [lowerStmt]
      refine (lowerReturn_crosses hs value _).mono fun _ t ⟨frame, rest, u, hframes, hvalue, hdoes⟩ => ?_
      exact stays_return hframes hvalue hdoes
  | .expr span value => fun s hs _ => by
      rw [lowerStmt]
      exact lowerExprStmt_crosses hs value
  | .assign span targets value => fun s hs _ => by
      rw [lowerStmt]
      exact lowerAssign_crosses hs targets value _
  | .augAssign span target op value => fun s hs _ => by
      rw [lowerStmt]
      exact lowerAugAssign_crosses hs target op value _
  | .cond span test body orelse => fun s hs hlevel => by
      rw [lowerStmt]
      exact lowerCond_crosses hs hlevel test (lowerBlock_contract body) (lowerBlock_contract orelse)
        (lowerBlock_crosses body) (lowerBlock_crosses orelse) boundNames_of_noElse
  | .loop span test body => fun s hs hlevel => by
      rw [lowerStmt]
      exact lowerLoop_crosses hs hlevel test (lowerBlock_contract body) (lowerBlock_crosses body)
  | .funcDef span name params body => fun s hs hlevel => by
      rw [lowerStmt]
      exact lowerFunction_crosses hs hlevel name params body _ (lowerBlock_contract body) (lowerBlock_crosses body)
        fun hlast => lowerBlock_returned hlast

/-- **The code of a block** keeps what is watched, statement by statement. -/
theorem lowerBlock_crosses : ∀ (ss : List Stmt), Crosses (lowerBlock ss)
  | [] => fun s _ hlevel => by
      rw [lowerBlock]
      exact ⟨hlevel, .refl s⟩
  | st :: rest => fun s hs hlevel => by
      rw [lowerBlock]
      refine Ensures.bind (R := fun _ t => t = s) ⟨hlevel, rfl⟩ fun _ s' hs' => ?_
      subst hs'
      refine (lowerStmt_crosses st s' hs hlevel).with_run.bind fun _ t ⟨hrun, ht⟩ => ?_
      obtain ⟨fns, _, hdone⟩ := (lowerStmt_ensures st hs).run_ok hrun
      exact (lowerBlock_crosses rest t hdone.ready (hlevel.stays ht)).mono fun _ u hu => ht.trans hu

end

/-! ## Modules -/

theorem atLevel_start (o : Options) : AtLevel 0 (.start o) :=
  ⟨0, [], rfl, fun f rest hf => absurd hf (by simp [State.start, State.initial]),
    fun x hx => Or.inl (Line.directive.inj (Option.some.inj hx)).symm⟩

theorem known_start (o : Options) : Known (.start o) := by
  refine ⟨fun {i f} hf => ?_, fun {x} hx => ?_, ?_⟩
  · rw [show (State.start o).arena = Arena.initial from rfl, (initial_get i).2.1] at hf
    exact absurd hf List.not_mem_nil
  · exact absurd hx (by simp [State.start])
  · simp [State.start, State.initial]

/-- **What is watched holds at every milestone of a module**, and its text keeps its levels. -/
theorem lowerModule_crosses (o : Options) (m : Module) :
    (lowerModule m).Ensures Watched (.initial o) fun _ t => Stays [] [] (.start o) t :=
  lowerBlock_crosses m.body (.start o) (ready_start o) (atLevel_start o)

/-- **The text of a module** is laid out in functions, and closed. -/
theorem exists_forest {o : Options} {m : Module} (hrun : (lowerModule m).run (.initial o) = .ok () t) :
    ∃ forest, t.code.toList = [.directive .text] ++ linesOf forest ∧ Laid false forest ∧ Known t := by
  have hframe : FrameAt 0 (.start o) := fun f rest hf => absurd hf (by simp [State.start, State.initial])
  have htraced := (lowerModule_crosses o m).run_ok hrun 0 hframe
  obtain ⟨forest, hcode, hlaid, _⟩ := htraced.text
  exact ⟨forest, hcode, hlaid, htraced.known (known_start o)⟩

end Offside.Lower
