import Offside.Proofs.Freshness
import Offside.Proofs.Frames
import Offside.Proofs.Sight

/-!
# `Proofs.Initialised` — slots are written before they are read

In straight-line code a variable that is not in a register was written to its slot when it left its register
(`Stocked`), so what is loaded from a slot was stored there before (`Supplied`). The one variable that has
neither a register nor a value in its slot is the target of an assignment whose value is still being
computed: the name is bound before the value is, and a value that takes the name itself reads a slot that
nothing was written to. `loads_follow_stores` says that this is the only way.
-/

namespace Offside

open Machine

/-! ## The names that are read -/

namespace Expr

mutual

/-- The names whose values an expression takes. -/
def reads : Expr → List String
  | .const _ _ => []
  | .name _ id _ => [id]
  | .binary _ left _ right => reads left ++ reads right
  | .unary _ _ operand => reads operand
  | .compare _ left _ comparators => reads left ++ readsAll comparators
  | .call _ _ args => readsAll args

/-- The names whose values expressions take. -/
def readsAll : List Expr → List String
  | [] => []
  | e :: rest => reads e ++ readsAll rest

end

end Expr

namespace Stmt

/-- The statement is not compound. -/
def isSimple : Stmt → Bool
  | .pass _ | .ret _ _ | .expr _ _ | .assign _ _ _ | .augAssign _ _ _ _ => true
  | .cond _ _ _ _ | .loop _ _ _ | .funcDef _ _ _ _ => false

/-- The names whose values a simple statement takes; calls of the entry function are left out. -/
def reads (entry : String) : Stmt → List String
  | .ret _ value => (value.map Expr.reads).getD []
  | .expr _ value => if value.calledName? = some entry then [] else value.reads
  | .assign _ _ value => value.reads
  | .augAssign _ target _ value => target.asName?.toList ++ value.reads
  | _ => []

/-- The names that a plain assignment binds. -/
def targets : Stmt → List String
  | .assign _ targets _ => targets.filterMap Expr.asName?
  | _ => []

/-- The value that a plain assignment gives to a name. -/
def valueFor? (x : String) : Stmt → Option Expr
  | .assign _ targets value => if x ∈ targets.filterMap Expr.asName? then some value else none
  | _ => none

end Stmt

namespace Lower

/-- The first value that statements assign to a name takes the value of the name itself. -/
def takesItself (x : String) (ss : List Stmt) : Bool :=
  (ss.findSome? (Stmt.valueFor? x)).any fun value => value.reads.contains x

variable {s t u mid : State} {held : List Register} {r : Register} {v w : VarRef} {is : List Instr} {p : Pool}
  {a : Arena} {N N' : String → Prop}

/-- A name has one slot. -/
theorem Ready.slot_eq {x : String} {j k : Nat} (hs : Ready held s) (hj : (s.arena.table s.current)[j]? = some x)
    (hk : (s.arena.table s.current)[k]? = some x) : j = k :=
  (List.getElem?_inj (List.getElem?_eq_some_iff.mp hj).1 hs.named.table_nodup).mp (hj.trans hk.symm)

/-! ## Slots that were written -/

/-- **A slot was written** by one of the lines. -/
def Written (offset : Int) (ls : List Line) : Prop := ∃ r, Line.instr (.sd r offset .fp) ∈ ls

/-- **Slots are written before they are read**: where one of the lines `new` reads a slot, an earlier one or
    one of the lines `since` before them has written it, if it is not excused. -/
def Supplied (excused : Int → Prop) (since new : List Line) : Prop :=
  ∀ front r offset back, new = front ++ .instr (.ld r offset .fp) :: back →
    Written offset (since ++ front) ∨ excused offset

/-- **What is in no register is in its slot**, the variables `V` apart. -/
def Stocked (V : String → Prop) (since : List Line) (s : State) : Prop :=
  ∀ x k, (s.arena.table s.current)[k]? = some x → s.holder x = none → ¬ V x → Written (Frame.slotOffset k) since

theorem Written.mono {offset : Int} {ls ls' : List Line} (h : Written offset ls) (hsub : ls ⊆ ls') :
    Written offset ls' := by
  obtain ⟨r, hr⟩ := h
  exact ⟨r, hsub hr⟩

theorem Supplied.mono {E E' : Int → Prop} {since new : List Line} (h : Supplied E since new)
    (hE : ∀ offset, E offset → E' offset) : Supplied E' since new :=
  fun front r offset back heq => (h front r offset back heq).imp_right (hE offset)

theorem Supplied.append {E : Int → Prop} {since new new' : List Line} (h : Supplied E since new)
    (h' : Supplied E (since ++ new) new') : Supplied E since (new ++ new') := by
  intro front r offset back heq
  rcases List.append_eq_append_iff.mp heq with ⟨mid, rfl, hnew'⟩ | ⟨mid, hnew, hmid⟩
  · rw [← List.append_assoc]
    exact h' mid r offset back hnew'
  · cases mid with
    | nil =>
        rw [List.append_nil] at hnew
        subst hnew
        simpa using h' [] r offset back hmid.symm
    | cons l rest =>
        obtain ⟨rfl, rfl⟩ := List.cons.inj hmid
        exact h front r offset rest hnew

theorem supplied_of_not_mem {E : Int → Prop} {since new : List Line}
    (h : ∀ r offset, Line.instr (.ld r offset .fp) ∉ new) : Supplied E since new :=
  fun front r offset back heq => absurd (heq ▸ by simp) (h r offset)

theorem Stocked.mono {V V' : String → Prop} {since since' : List Line} (h : Stocked V since s)
    (hV : ∀ x, V x → V' x) (hsince : since ⊆ since') : Stocked V' since' s :=
  fun x k hk hx hno => (h x k hk hx fun hVx => hno (hV x hVx)).mono hsince

/-! ## Stretches that read slots -/

/-- **A stretch that reads slots** reads written ones; a slot of one of the variables `V` is read only by
    taking one of the names `N`. -/
structure Draws (N : String → Prop) (s t : State) : Prop where
  table : t.arena.table t.current = s.arena.table s.current
  lines : ∃ new, t.code.toList = s.code.toList ++ new ∧ ∀ V since, Stocked V since s →
    Stocked V (since ++ new) t ∧
      Supplied (fun o => ∃ x k, (s.arena.table s.current)[k]? = some x ∧ o = Frame.slotOffset k ∧ V x ∧ N x) since new

theorem Draws.mono (h : Draws N s t) (hN : ∀ x, N x → N' x) : Draws N' s t := by
  obtain ⟨new, hnew, hdraws⟩ := h.lines
  refine ⟨h.table, new, hnew, fun V since hs => ⟨(hdraws V since hs).1, (hdraws V since hs).2.mono ?_⟩⟩
  rintro o ⟨x, k, hk, ho, hV, hx⟩
  exact ⟨x, k, hk, ho, hV, hN x hx⟩

theorem Draws.trans (h : Draws N s t) (h' : Draws N t u) : Draws N s u := by
  obtain ⟨new, hnew, hdraws⟩ := h.lines
  obtain ⟨new', hnew', hdraws'⟩ := h'.lines
  refine ⟨h'.table.trans h.table, new ++ new', by rw [hnew', hnew, List.append_assoc], fun V since hs => ?_⟩
  obtain ⟨ht, hsupplied⟩ := hdraws V since hs
  obtain ⟨hu, hsupplied'⟩ := hdraws' V _ ht
  rw [h.table] at hsupplied'
  exact ⟨by rw [← List.append_assoc]; exact hu, hsupplied.append hsupplied'⟩

/-- A stretch that reads no slot and takes no variable from its register. -/
theorem draws_of_lines (htable : t.arena.table t.current = s.arena.table s.current) (new : List Line)
    (hnew : t.code.toList = s.code.toList ++ new) (hholder : ∀ x, t.holder x = none → s.holder x = none)
    (hloads : ∀ r offset, Line.instr (.ld r offset .fp) ∉ new) : Draws N s t := by
  refine ⟨htable, new, hnew, fun V since hs => ⟨fun x k hk hx hno => ?_, supplied_of_not_mem hloads⟩⟩
  rw [htable] at hk
  exact (hs x k hk (hholder x hx) hno).mono (List.subset_append_left _ _)

theorem Draws.refl (s : State) : Draws N s s :=
  draws_of_lines rfl [] (List.append_nil _).symm (fun _ => id) fun _ _ => List.not_mem_nil

/-- The loads among the lines of a straight move are among its instructions. -/
theorem Does.load_mem (h : Does is p a s t) : ∃ new, t.code.toList = s.code.toList ++ new ∧
    (∀ i, Line.instr i ∈ new ↔ i ∈ is) := by
  obtain ⟨new, hnew, hfilter⟩ := h.lines
  refine ⟨new, hnew, fun i => ?_⟩
  have hmem : Line.instr i ∈ new.filter (fun l => !l.isComment) ↔ Line.instr i ∈ new := by simp [Line.isComment]
  rw [← hmem, hfilter]
  simp

theorem Does.draws (h : Does is p s.arena s t) (his : ∀ i ∈ is, i.frameOffset? = none) : Draws N s t := by
  obtain ⟨new, hnew, hlines⟩ := h.load_mem
  refine draws_of_lines (by rw [h.arena, h.current]) new hnew (fun x hx => h.holder_eq x ▸ hx) fun r offset hmem => ?_
  exact absurd (his _ ((hlines _).mp hmem)) (by simp [Instr.frameOffset?])

/-! ## Moves -/

theorem Saves.draws {x : String} {k : Nat} (h : Saves x k r s t) (hs : Ready held s)
    (htable : t.arena.table t.current = s.arena.table s.current) : Draws N s t := by
  obtain ⟨p, a, hdoes⟩ := h.does
  obtain ⟨new, hnew, hlines⟩ := hdoes.load_mem
  refine ⟨htable, new, hnew, fun V since hstocked =>
    ⟨fun y j hj hy hno => ?_, supplied_of_not_mem fun r offset hmem => ?_⟩⟩
  · rw [htable] at hj
    rw [h.holder_eq] at hy
    split at hy
    · -- the variable that went to its slot
      rename_i heq
      subst heq
      obtain rfl : j = k := hs.slot_eq hj h.slot
      exact ⟨r, List.mem_append_right _ ((hlines _).mpr (List.mem_singleton.mpr rfl))⟩
    · exact (hstocked y j hj hy hno).mono (List.subset_append_left _ _)
  · exact absurd (List.mem_singleton.mp ((hlines _).mp hmem)) (by simp [storeSlot])

theorem WroteBack.draws (h : WroteBack v s t) (hs : Ready held s) : Draws N s t := by
  have hsteady := h.steady hs
  rcases h.saves hs with rfl | ⟨x, k, r, hsaves⟩
  · exact .refl _
  · exact hsaves.draws hs (by rw [hsteady.current, hsteady.alike.table_eq])

theorem Spills.draws {l : List VarRef} (h : Spills l s t) (hs : Ready held s) : Draws N s t := by
  induction h with
  | nil => exact .refl _
  | cons hv _ ih => exact (hv.draws hs).trans (ih (hv.ready hs))

theorem Allocated.draws (h : Allocated r s t) (hs : Ready held s) : Draws N s t := by
  obtain ⟨l, mid, hspills, _, hdoes⟩ := h
  exact (hspills.draws hs).trans (hdoes.draws (by simp))

theorem Popped.draws (h : Popped r s t) (hs : Ready held s) : Draws N s t := by
  obtain ⟨mid, halloc, hdoes⟩ := h
  exact (halloc.draws hs).trans (hdoes.draws (frameless_pop r))

/-- **A variable comes from a written slot**, or was in no slot at all. -/
theorem Loads.draws {x : String} {k : Nat} (h : Loads x k r s t)
    (htable : t.arena.table t.current = s.arena.table s.current) (hN : N x) : Draws N s t := by
  obtain ⟨p, a, hdoes⟩ := h.does
  obtain ⟨new, hnew, hlines⟩ := hdoes.load_mem
  refine ⟨htable, new, hnew, fun V since hstocked => ⟨fun y j hj hy hno => ?_, ?_⟩⟩
  · rw [htable] at hj
    rw [h.holder_eq] at hy
    split at hy
    · exact absurd hy (by simp)
    · exact (hstocked y j hj hy hno).mono (List.subset_append_left _ _)
  · intro front r' offset back heq
    have hmem : Line.instr (.ld r' offset .fp) ∈ new := heq ▸ by simp
    have hload := List.mem_singleton.mp ((hlines _).mp hmem)
    obtain ⟨-, rfl, -⟩ := Instr.ld.inj hload
    by_cases hV : V x
    · exact Or.inr ⟨x, k, h.slot, rfl, hV, hN⟩
    · exact Or.inl ((hstocked x k h.slot h.holder hV).mono (List.subset_append_left _ _))

theorem Reloaded.draws (h : Reloaded v r s t) (hs : Ready held s)
    (hN : ∀ x, s.arena.resolve? s.current x = some v → N x) : Draws N s t := by
  have hsteady := h.steady hs
  obtain ⟨mid, x, k, halloc, hv, hloads⟩ := h.loads hs
  have hmid := halloc.draws (N := N) hs
  refine hmid.trans (hloads.draws ?_ (hN x hv))
  rw [hmid.table, hsteady.current, hsteady.alike.table_eq]

theorem Reloads.draws {l : List VarRef} (h : Reloads l s t) (hs : Ready [] s)
    (hN : ∀ v ∈ l, ∀ x, s.arena.resolve? s.current x = some v → N x) : Draws N s t := by
  induction h with
  | nil => exact .refl _
  | cons hv ht _ ih =>
      have hsteady := hv.steady hs
      refine (hv.draws hs (hN _ List.mem_cons_self)).trans
        (ih ht fun w hw x hx => hN w (List.mem_cons_of_mem _ hw) x ?_)
      rw [← hsteady.alike.resolve?_eq, ← hsteady.current]
      exact hx

/-- What was in a register when a stretch started is in its slot whenever the stretch reads it there. -/
theorem Draws.of_active (h : Draws N s t) (hN : ∀ x, N x → s.holder x ≠ none) : Draws N' s t := by
  obtain ⟨new, hnew, hdraws⟩ := h.lines
  refine ⟨h.table, new, hnew, fun V since hs => ?_⟩
  obtain ⟨ht, hsupplied⟩ := hdraws (fun x => V x ∧ s.holder x = none) since
    fun x k hk hx hno => hs x k hk hx fun hV => hno ⟨hV, hx⟩
  refine ⟨ht.mono (fun x hx => hx.1) (List.Subset.refl _), hsupplied.mono ?_⟩
  rintro o ⟨x, k, _, _, ⟨_, hnone⟩, hx⟩
  exact absurd hnone (hN x hx)

/-! ## Expressions -/

theorem Loaded.draws {n : Word} (h : Loaded n s t) (hs : Ready [] s) : Draws N s t := by
  obtain ⟨r, mid, q, halloc, _, hdoes⟩ := h
  exact (halloc.draws hs).trans (hdoes.draws (by simp [push, Instr.frameOffset?]))

theorem Fetched.draws {name : String} (h : Fetched name s t) (hs : Ready [] s) : Draws (· = name) s t := by
  obtain ⟨v, r, mid, hv, hmid, hdoes⟩ := h
  have hpush : Draws (· = name) mid t := hdoes.draws (frameless_push r)
  rcases hmid with ⟨_, rfl⟩ | hload
  · exact hpush
  · exact (hload.draws hs fun x hx => resolve?_inj hx hv).trans hpush

theorem Combined.draws {op : BinaryOp} (h : Combined op s t) (hs : Ready [] s) : Draws N s t := by
  obtain ⟨right, left, t₁, t₂, q, hright, hr₁, hleft, _, hdoes⟩ := h
  exact (hright.draws hs).trans ((hleft.draws hr₁).trans (hdoes.draws (by simp [push, Instr.frameOffset?])))

theorem Applied.draws {op : UnaryOp} (h : Applied op s t) (hs : Ready [] s) : Draws N s t := by
  rcases h with ⟨_, rfl⟩ | ⟨r, t₁, q, _, hr, _, hdoes⟩
  · exact .refl _
  · refine (hr.draws hs).trans (hdoes.draws fun i hi => ?_)
    exact (List.mem_append.mp hi).elim (frameOffset?_unaryInstr? i) (frameless_push r i)

theorem Compared.draws {op : CompareOp} (h : Compared op s t) (hs : Ready [] s) : Draws N s t := by
  obtain ⟨right, left, result, label, t₁, t₂, t₃, t₄, t₅, q, q', q'', hright, hr₁, hleft, hr₂, hresult, _, htest, hzero,
    hpush⟩ := h
  have hoperands := (hright.draws (N := N) hs).trans ((hleft.draws hr₁).trans (hresult.draws hr₂))
  have hjump : Draws N t₃ t₄ := by
    obtain ⟨new, hnew, hlines⟩ := htest.load_mem
    refine draws_of_lines ?_ new hnew (fun x hx => htest.holder_nextLabel x ▸ hx) fun r offset hmem => ?_
    · rw [htest.arena, htest.current, (Arena.alike_nextLabel _ _ _).table_eq]
    · exact absurd ((hlines _).mp hmem) (by simp)
  have hplace : Draws N t₅ (t₅.place label) :=
    draws_of_lines rfl [.label label] (by simp [State.place]) (fun _ => id) (by simp)
  exact hoperands.trans (hjump.trans ((hzero.draws (by simp [Instr.frameOffset?])).trans
    (hplace.trans (hpush.draws (frameless_push result)))))

/-- Around a call only variables that were in registers are brought back. -/
theorem Cleared.draws {l : List VarRef} {N' : String → Prop} (h : Cleared l s t) (hs : Ready held s)
    (htu : Draws (fun x => s.holder x ≠ none) t u) (hu : Ready [] u) (hreloads : Reloads l u mid)
    (hresolve : ∀ x, u.arena.resolve? u.current x = s.arena.resolve? s.current x) : Draws N' s mid := by
  refine ((h.spills.draws hs).trans (htu.trans (hreloads.draws hu fun v hv x hx => ?_))).of_active fun _ => id
  obtain ⟨y, hy⟩ := Option.isSome_iff_exists.mp (h.active v hv)
  rw [hresolve] at hx
  rw [holder_eq_some_iff.mpr ⟨v, hx, hy⟩]
  simp

theorem Called.draws {callee : Callee} (h : Called callee s t) (hs : Ready [] s) : Draws N s t := by
  obtain ⟨l, t₁, t₂, t₃, t₄, t₅, q, q', hnote, hcleared, hpops, hcall, hr₄, hreloads, hpush⟩ := h
  have hr₁ := hnote.ready_of_eq hs
  have hsteady := hcleared.spills.steady hr₁
  rw [← hpops.arena] at hcall
  have hmiddle : Draws (fun x => t₁.holder x ≠ none) t₂ t₄ :=
    (hpops.draws (frameless_pops _)).trans (hcall.draws (by simp [Instr.frameOffset?]))
  have hresolve : ∀ x, t₄.arena.resolve? t₄.current x = t₁.arena.resolve? t₁.current x := fun x => by
    rw [hcall.arena, hcall.current, hpops.arena, hpops.current, hsteady.current, hsteady.alike.resolve?_eq]
  exact (hnote.draws (by simp)).trans ((hcleared.draws hr₁ hmiddle hr₄ hreloads hresolve).trans
    (hpush.draws (frameless_push _)))

theorem Printed.draws (h : Printed s t) (hs : Ready [] s) : Draws N s t := by
  obtain ⟨l, t₁, t₂, t₃, t₄, q, q', hcleared, hargument, hcall, hr₃, hreloads, hpush⟩ := h
  have hsteady := hcleared.spills.steady hs
  rw [← hargument.arena] at hcall
  have hprinting : Draws (fun x => s.holder x ≠ none) t₃ t₃.printing :=
    draws_of_lines rfl [] (List.append_nil _).symm (fun _ => id) fun _ _ => List.not_mem_nil
  have hmiddle : Draws (fun x => s.holder x ≠ none) t₁ t₃.printing :=
    (hargument.draws (by simp [pop, Instr.frameOffset?])).trans
      ((hcall.draws (by simp [Instr.frameOffset?])).trans hprinting)
  have hresolve : ∀ x, t₃.printing.arena.resolve? t₃.printing.current x = s.arena.resolve? s.current x := fun x => by
    show t₃.arena.resolve? t₃.current x = _
    rw [hcall.arena, hcall.current, hargument.arena, hargument.current, hsteady.current, hsteady.alike.resolve?_eq]
  exact (hcleared.draws hs hmiddle hr₃ hreloads hresolve).trans (hpush.draws (frameless_push _))

/-- **Values of names are taken**, all of them names of the current function. -/
structure Takes (names : List String) (s t : State) : Prop where
  settled : Settled s t
  draws : Draws (· ∈ names) s t
  known : ∀ x ∈ names, x ∈ s.arena.table s.current

namespace Takes

variable {names names' : List String}

theorem refl (hs : Ready [] s) : Takes [] s s := ⟨.refl hs, .refl s, by simp⟩

theorem trans (h : Takes names s t) (h' : Takes names' t u) : Takes (names ++ names') s u := by
  refine ⟨h.settled.trans h'.settled, (h.draws.mono fun x hx => List.mem_append_left _ hx).trans
    (h'.draws.mono fun x hx => List.mem_append_right _ hx), fun x hx => ?_⟩
  rcases List.mem_append.mp hx with hx | hx
  · exact h.known x hx
  · rw [← h.draws.table]
    exact h'.known x hx

/-- The order does not matter. -/
theorem comm (h : Takes (names ++ names') s t) : Takes (names' ++ names) s t := by
  have hmem : ∀ x, x ∈ names' ++ names ↔ x ∈ names ++ names' := fun x => by
    rw [List.mem_append, List.mem_append, or_comm]
  exact ⟨h.settled, h.draws.mono fun x hx => (hmem x).mpr hx, fun x hx => h.known x ((hmem x).mp hx)⟩

/-- A move that takes the value of no name. -/
theorem move (h : Takes names s t) (hsettled : Settled t u) (hdraws : Draws (· ∈ names) t u) : Takes names s u :=
  ⟨h.settled.trans hsettled, h.draws.trans hdraws, h.known⟩

theorem expression (h : Takes names s t) :
    (milestone .expression).Ensures Inner t fun _ u => Takes names s u := ⟨h.settled.ready.inner rfl, h⟩

end Takes

theorem Fetched.takes {name : String} (h : Fetched name s t) (hs : Ready [] s) (hst : Settled s t) :
    Takes [name] s t := by
  refine ⟨hst, (h.draws hs).mono fun x hx => List.mem_singleton.mpr hx, fun x hx => ?_⟩
  obtain rfl := List.mem_singleton.mp hx
  obtain ⟨v, r, mid, hv, hmid, _⟩ := h
  obtain ⟨_, var, hvar, hname⟩ := Arena.resolve?_some hv
  have hroot : (s.arena.get v.scope).root = (s.arena.get s.current).root := by
    rcases hmid with ⟨hact, _⟩ | ⟨mid', _, _, halloc, hlocal, _⟩
    · exact (hs.tidy.place hact).2
    · have hsteady := halloc.steady hs
      have hroot := hlocal.2.2
      rwa [hsteady.current, hsteady.alike.root_eq, hsteady.alike.root_eq] at hroot
  exact hname ▸ List.mem_of_getElem? (hs.named.slot hvar hroot)

theorem pushLiteral_takes (hs : Ready [] s) (n : Word) :
    (pushLiteral n).Ensures Inner s fun _ t => Takes [] s t :=
  (pushLiteral_ensures hs n).mono fun _ _ h => (Takes.refl hs).move h.2 (h.1.draws hs)

mutual

/-- **The code of an expression takes the values of the names it reads.** -/
theorem lowerExpr_takes : ∀ (e : Expr) {s : State}, Ready [] s →
    (lowerExpr e).Ensures Inner s fun _ t => Takes e.reads s t
  | .const span c, s, hs => by
      rw [lowerExpr, Expr.reads]
      refine (pushConstant_ensures hs c _).bind fun _ t ⟨_, h, ht⟩ => ?_
      exact ((Takes.refl hs).move ht (h.draws hs)).expression
  | .name span id use, s, hs => by
      rw [lowerExpr, Expr.reads]
      exact (pushVariable_ensures hs id _).bind fun _ t ht => (ht.1.takes hs ht.2).expression
  | .binary span left op right, s, hs => by
      rw [lowerExpr, Expr.reads]
      refine (lowerExpr_takes left hs).bind fun _ t ht =>
        (lowerExpr_takes right ht.settled.ready).bind fun _ u hu => ?_
      exact (combineBinary_ensures hu.settled.ready op).bind fun _ _ h =>
        ((ht.trans hu).move h.2 (h.1.draws hu.settled.ready)).expression
  | .unary span op operand, s, hs => by
      rw [lowerExpr, Expr.reads]
      cases hlit : negatedLiteral? op operand with
      | some n =>
          -- a literal with its sign reads no name
          have hreads : operand.reads = [] := by
            unfold negatedLiteral? at hlit
            split at hlit
            · rw [Expr.reads]
            · exact absurd hlit (by simp)
          rw [hreads]
          exact (pushLiteral_takes hs n).bind fun _ t ht => ht.expression
      | none =>
          refine (lowerExpr_takes operand hs).bind fun _ t ht => ?_
          exact (applyUnary_ensures ht.settled.ready op).bind fun _ _ h =>
            (ht.move h.2 (h.1.draws ht.settled.ready)).expression
  | .compare span left [op] [right], s, hs => by
      rw [lowerExpr, Expr.reads, Expr.readsAll, Expr.readsAll, List.append_nil]
      refine (lowerExpr_takes left hs).bind fun _ t ht =>
        (lowerExpr_takes right ht.settled.ready).bind fun _ u hu => ?_
      exact (combineCompare_ensures hu.settled.ready op).bind fun _ _ h =>
        ((ht.trans hu).move h.2 (h.1.draws hu.settled.ready)).expression
  | .compare span left [] comparators, s, hs => by rw [lowerExpr.eq_def]; trivial
  | .compare span left (_ :: _ :: _) comparators, s, hs => by rw [lowerExpr.eq_def]; trivial
  | .compare span left [op] [], s, hs => by rw [lowerExpr.eq_def]; trivial
  | .compare span left [op] (_ :: _ :: _), s, hs => by rw [lowerExpr.eq_def]; trivial
  | .call span func args, s, hs => by
      rw [lowerExpr.eq_def, Expr.reads]
      dsimp only
      cases func.asName? with
      | none => trivial
      | some name =>
          dsimp only
          split
          · match args with
            | [] => trivial
            | [arg] =>
                rw [Expr.readsAll, Expr.readsAll, List.append_nil]
                refine (lowerExpr_takes arg hs).bind fun _ t ht => ?_
                exact (finishPrint_ensures ht.settled.ready).bind fun _ _ h =>
                  (ht.move h.2 (h.1.draws ht.settled.ready)).expression
            | _ :: _ :: _ => trivial
          · refine (resolveCallee_ensures name _ _).bind fun f t ⟨ht, hf, hcount⟩ => ?_
            subst ht
            obtain ⟨_, i, _, hmem⟩ := Arena.resolveFunction?_some hf
            refine (lowerArguments_takes args hs).bind fun _ u hu => ?_
            exact (finishCall_ensures hu.settled.ready _ (hs.named.params hmem)).bind fun _ _ h =>
              (hu.move h.2 (h.1.draws hu.settled.ready)).expression

/-- The code of arguments takes the values of the names they read, the last one first. -/
theorem lowerArguments_takes : ∀ (args : List Expr) {s : State}, Ready [] s →
    (lowerArguments args).Ensures Inner s fun _ t => Takes (Expr.readsAll args) s t
  | [], s, hs => by rw [lowerArguments, Expr.readsAll]; exact .refl hs
  | arg :: rest, s, hs => by
      rw [lowerArguments, Expr.readsAll]
      refine (lowerArguments_takes rest hs).bind fun _ t ht => ?_
      exact (lowerExpr_takes arg ht.settled.ready).mono fun _ u hu => (ht.trans hu).comm

end

/-! ## Statements -/

/-- **A statement of straight-line code** leaves every variable in a register or in its slot, if they were
    before; it reads an unwritten slot only for one of the names `E`. -/
structure Fills (E : String → Prop) (s t : State) : Prop where
  table : s.arena.table s.current <+: t.arena.table t.current
  lines : ∃ new, t.code.toList = s.code.toList ++ new ∧ ∀ since, Stocked (fun _ => False) since s →
    Stocked (fun _ => False) (since ++ new) t ∧
      Supplied (fun o => ∃ x k, (t.arena.table t.current)[k]? = some x ∧ o = Frame.slotOffset k ∧ E x) since new

variable {E E' : String → Prop}

theorem Fills.mono (h : Fills E s t) (hE : ∀ x, E x → E' x) : Fills E' s t := by
  obtain ⟨new, hnew, hfills⟩ := h.lines
  refine ⟨h.table, new, hnew, fun since hs => ⟨(hfills since hs).1, (hfills since hs).2.mono ?_⟩⟩
  rintro o ⟨x, k, hk, ho, hx⟩
  exact ⟨x, k, hk, ho, hE x hx⟩

theorem Fills.trans (h : Fills E s t) (h' : Fills E t u) : Fills E s u := by
  obtain ⟨new, hnew, hfills⟩ := h.lines
  obtain ⟨new', hnew', hfills'⟩ := h'.lines
  refine ⟨h.table.trans h'.table, new ++ new', by rw [hnew', hnew, List.append_assoc], fun since hs => ?_⟩
  obtain ⟨ht, hsupplied⟩ := hfills since hs
  obtain ⟨hu, hsupplied'⟩ := hfills' _ ht
  refine ⟨by rw [← List.append_assoc]; exact hu, Supplied.append (hsupplied.mono ?_) hsupplied'⟩
  rintro o ⟨x, k, hk, ho, hx⟩
  exact ⟨x, k, getElem?_of_extends h'.table hk, ho, hx⟩

theorem Draws.fills (h : Draws N s t) : Fills E s t := by
  obtain ⟨new, hnew, hdraws⟩ := h.lines
  refine ⟨h.table ▸ List.prefix_refl _, new, hnew, fun since hs =>
    ⟨(hdraws _ since hs).1, (hdraws _ since hs).2.mono ?_⟩⟩
  rintro o ⟨x, k, _, _, hfalse, _⟩
  exact hfalse.elim

/-- A name that is bound for the first time has neither a register nor a value in its slot. -/
theorem Bound.stocked {name : String} (h : Bound name v s t) :
    ∃ new, t.code.toList = s.code.toList ++ new ∧ (∀ i, Line.instr i ∉ new) ∧ ∀ since,
      Stocked (fun _ => False) since s →
        Stocked (fun x => x = name ∧ name ∉ s.arena.table s.current) (since ++ new) t := by
  obtain ⟨new, hnew, hlines⟩ := h.does.load_mem
  have hgrows := h.completes.advances.grows
  refine ⟨new, hnew, fun i hi => absurd ((hlines i).mp hi) List.not_mem_nil, fun since hstocked x k hk hx hno => ?_⟩
  rw [h.completes.advances.current] at hk
  have hmem : x ∈ s.arena.table s.current := by
    rcases hgrows.mem_table.mp (List.mem_of_getElem? hk) with hold | hname
    · exact hold
    · obtain rfl := List.mem_singleton.mp hname
      exact Decidable.byContradiction fun hnot => hno ⟨rfl, hnot⟩
  obtain ⟨j, hj⟩ := List.getElem?_of_mem hmem
  have hj' := getElem?_of_extends hgrows.table_prefix hj
  rw [← h.completes.advances.current] at hj' hk
  obtain rfl := h.completes.ready.slot_eq hj' hk
  exact (hstocked x j hj (h.holder_eq x ▸ hx) id).mono (List.subset_append_left _ _)

/-- The variable that is stored to has a register then. -/
theorem Stored.stocked {var : Variable} (h : Stored v s t) (hs : Ready [] s) (hvar : Local s.arena s.current v var) :
    ∃ new, t.code.toList = s.code.toList ++ new ∧ ∀ V since, Stocked V since s →
      Stocked (fun x => V x ∧ x ≠ var.name) (since ++ new) t ∧ Supplied (fun _ => False) since new := by
  obtain ⟨r, mid, hmid, hdoes⟩ := h
  obtain ⟨hdraws, held, hready, var', hvar', hname⟩ : Draws (fun _ => False) s mid ∧ ∃ held, Ready held mid ∧
      ∃ var', Local mid.arena mid.current v var' ∧ var'.name = var.name := by
    rcases hmid with ⟨_, rfl⟩ | ⟨_, halloc⟩
    · exact ⟨.refl _, [], hs, var, hvar, rfl⟩
    · have hsteady := halloc.steady hs
      obtain ⟨var', hvar', hname, _⟩ := hvar.of_alike hsteady.alike
      exact ⟨halloc.draws hs, [r], halloc.ready hs, var', hsteady.current ▸ hvar', hname⟩
  obtain ⟨new, hnew, hlines⟩ := hdraws.lines
  obtain ⟨new', hnew', hlines'⟩ := hdoes.load_mem
  refine ⟨new ++ new', by rw [hnew', hnew, List.append_assoc], fun V since hstocked => ?_⟩
  obtain ⟨hstocked', hsupplied⟩ := hlines V since hstocked
  have halike : mid.arena.Alike (mid.arena.updateVariable v (·.bind r)) := Arena.alike_updateVariable fun _ => rfl
  have htable : t.arena.table t.current = mid.arena.table mid.current := by
    rw [hdoes.arena, hdoes.current, halike.table_eq]
  refine ⟨fun x k hk hx hno => ?_, Supplied.append (hsupplied.mono ?_) (supplied_of_not_mem fun r' o hmem => ?_)⟩
  · -- the variable is in a register now, so only the others are asked for a written slot
    rw [htable] at hk
    rw [holder_bind hready hvar' hdoes, hname] at hx
    split at hx
    · exact absurd hx (by simp)
    · rename_i hne
      refine (hstocked' x k hk hx fun hV => hno ⟨hV, hne⟩).mono fun l hl => ?_
      rw [← List.append_assoc]
      exact List.mem_append_left _ hl
  · rintro o ⟨x, k, _, _, _, hfalse⟩
    exact hfalse
  · exact absurd ((hlines' _).mp hmem) (by simp [pop])

/-- **An assignment** reads an unwritten slot only if it takes the value of the name that it binds. -/
theorem fills_assign {name : String} {names : List String} {var : Variable}
    (hbound : Bound name v s mid) (htakes : Takes names mid u) (hstored : Stored v u t) (hsettled : Settled u t)
    (hvar : Local u.arena u.current v var) (hname : var.name = name) :
    Fills (fun x => x = name ∧ x ∉ s.arena.table s.current ∧ x ∈ names) s t := by
  obtain ⟨new₁, hnew₁, hnone, h₁⟩ := hbound.stocked
  obtain ⟨new₂, hnew₂, h₂⟩ := htakes.draws.lines
  obtain ⟨new₃, hnew₃, h₃⟩ := hstored.stocked htakes.settled.ready hvar
  have htable : t.arena.table t.current = mid.arena.table mid.current := by
    rw [hsettled.steady.current, hsettled.steady.alike.table_eq, htakes.draws.table]
  refine ⟨?_, new₁ ++ (new₂ ++ new₃), by rw [hnew₃, hnew₂, hnew₁]; simp, fun since hstocked => ?_⟩
  · rw [htable, hbound.completes.advances.current]
    exact hbound.completes.advances.grows.table_prefix
  · obtain ⟨hstocked₂, hsupplied₂⟩ := h₂ _ _ (h₁ since hstocked)
    obtain ⟨hstocked₃, hsupplied₃⟩ := h₃ _ _ hstocked₂
    refine ⟨?_, Supplied.append (supplied_of_not_mem fun r o => hnone _)
      (Supplied.append (hsupplied₂.mono ?_) (hsupplied₃.mono fun _ => False.elim))⟩
    · simp only [List.append_assoc] at hstocked₃
      exact hstocked₃.mono (fun x hx => hx.2 (hx.1.1.trans hname.symm)) (List.Subset.refl _)
    · rintro o ⟨x, k, hk, ho, ⟨rfl, hnew⟩, hx⟩
      exact ⟨x, k, htable ▸ hk, ho, rfl, hnew, hx⟩

/-- **What a simple statement reads**: names of the function it stands in, or the name that it binds. -/
def Knows (entry : String) (st : Stmt) (s : State) : Prop :=
  ∀ x ∈ st.reads entry, x ∈ s.arena.table s.current ∨ x ∈ st.targets

theorem lowerAssign_fills (hs : Ready [] s) (span : Span) (targets : List Expr) (value : Expr) (loc : Position) :
    (lowerAssign targets value loc).Ensures Inner s fun _ t =>
      Fills (fun x => x ∉ s.arena.table s.current ∧ takesItself x [.assign span targets value] = true) s t ∧
        Knows s.options.entry (.assign span targets value) s := by
  match targets with
  | [] => trivial
  | _ :: _ :: _ => trivial
  | [target] =>
      refine (targetName_ensures target loc).bind fun name t ⟨ht, hname⟩ => ?_
      subst ht
      refine (defineLocal_ensures hs name loc).bind fun v t₁ h₁ => ?_
      obtain ⟨var, hvar, hvarname⟩ := h₁.isLocal
      refine (lowerExpr_takes value h₁.completes.ready).bind fun _ t₂ h₂ => ?_
      obtain ⟨var', hvar', hname', _⟩ := hvar.of_alike h₂.settled.steady.alike
      have hvar₂ := h₂.settled.steady.current ▸ hvar'
      refine (popVariable_ensures h₂.settled.ready hvar₂).mono fun _ t₃ h₃ => ⟨?_, fun x hx => ?_⟩
      · refine (fills_assign h₁ h₂ h₃.1 h₃.2 hvar₂ (hname'.trans hvarname)).mono ?_
        rintro x ⟨rfl, hnew, hx⟩
        exact ⟨hnew, by simp [takesItself, Stmt.valueFor?, hname, hx]⟩
      · have hknown := h₂.known x hx
        rw [h₁.completes.advances.current, h₁.completes.advances.grows.mem_table, List.mem_singleton] at hknown
        refine hknown.imp_right fun heq => ?_
        rw [heq]
        simp [Stmt.targets, hname]

theorem lowerAugAssign_fills (hs : Ready [] s) (span : Span) (target : Expr) (op : BinaryOp) (value : Expr)
    (loc : Position) : (lowerAugAssign target op value loc).Ensures Inner s fun _ t =>
      Fills E s t ∧ Knows s.options.entry (.augAssign span target op value) s := by
  refine (targetName_ensures target loc).bind fun name t' ⟨ht', hname⟩ => ?_
  refine (resolveLocal_ensures name loc).bind fun v t ⟨ht, _, var, hvar, _⟩ => ?_
  subst ht ht'
  refine (pushVariable_ensures hs name loc).bind fun _ t₁ h₁ => (lowerExpr_takes value h₁.2.ready).bind
    fun _ t₂ h₂ => (combineBinary_ensures h₂.settled.ready op).bind fun _ t₃ h₃ => ?_
  have h₀₂ := (h₁.1.takes hs h₁.2).trans h₂
  have h₀₃ := h₀₂.move h₃.2 (h₃.1.draws h₂.settled.ready)
  obtain ⟨var', hvar', _⟩ := hvar.of_alike h₀₃.settled.steady.alike
  have hvar₃ := h₀₃.settled.steady.current ▸ hvar'
  refine (popVariable_ensures h₃.2.ready hvar₃).mono fun _ t₄ h₄ => ⟨(h₀₃.draws.fills).trans ?_, fun x hx => ?_⟩
  · obtain ⟨new, hnew, hstored⟩ := h₄.1.stocked h₃.2.ready hvar₃
    have hsteady := h₄.2.steady
    refine ⟨by rw [hsteady.current, hsteady.alike.table_eq], new, hnew, fun since hstocked => ?_⟩
    obtain ⟨hstocked', hsupplied⟩ := hstored _ since hstocked
    exact ⟨hstocked'.mono (fun _ hx => hx.1) (List.Subset.refl _), hsupplied.mono fun _ => False.elim⟩
  · simp only [Stmt.reads, hname, Option.toList_some] at hx
    exact Or.inl (h₀₂.known x hx)

theorem lowerReturn_fills (hs : Ready [] s) (span : Span) (value : Option Expr) (loc : Position) :
    (lowerReturn value loc).Ensures Inner s fun _ t => Fills E s t ∧ Knows s.options.entry (.ret span value) s := by
  have hfinish : ∀ {f : Frame} {u : State}, Draws (fun _ => True) s u →
      (emitInstrs f.epilogue).Ensures Inner u fun _ t => Fills E s t := fun hu =>
    (emitInstrs_does _).mono fun _ t ht => (hu.trans (ht.draws (frameless_epilogue _))).fills
  unfold lowerReturn
  rw [ensures_bind, ensures_look]
  cases s.frames with
  | nil => trivial
  | cons frame rest =>
      cases value with
      | some e =>
          refine (lowerExpr_takes e hs).bind fun _ t₁ h₁ => (emitInstrs_does _).bind fun _ t₂ h₂ => ?_
          have hdraws := (h₁.draws.mono fun _ _ => trivial).trans (h₂.draws (frameless_pop _))
          exact (hfinish hdraws).mono fun _ t ht => ⟨ht, fun x hx => Or.inl (h₁.known x hx)⟩
      | none =>
          refine (emitInstrs_does _).bind fun _ t h => ?_
          exact (hfinish (h.draws (by simp [Instr.frameOffset?]))).mono fun _ t ht =>
            ⟨ht, fun x hx => absurd hx List.not_mem_nil⟩

theorem lowerExprStmt_fills (hs : Ready [] s) (span : Span) (e : Expr) :
    (lowerExprStmt e).Ensures Inner s fun _ t => Fills E s t ∧ Knows s.options.entry (.expr span e) s := by
  unfold lowerExprStmt
  rw [ensures_bind, ensures_look]
  dsimp only
  split
  · rename_i hentry
    refine (comment_does _).mono fun _ t ht => ⟨(ht.draws (N := fun _ => False) (by simp)).fills, fun x hx => ?_⟩
    rw [Stmt.reads, if_pos hentry] at hx
    exact absurd hx List.not_mem_nil
  · rename_i hentry
    refine (lowerExpr_takes e hs).bind fun _ t ht => (emitInstrs_does _).mono fun _ u hu => ⟨?_, fun x hx => ?_⟩
    · exact (ht.draws.trans (hu.draws (frameless_pop _))).fills
    · rw [Stmt.reads, if_neg hentry] at hx
      exact Or.inl (ht.known x hx)

/-- **A simple statement** reads an unwritten slot only if it is an assignment that takes the value of the
    name it binds. -/
theorem lowerStmt_fills (st : Stmt) (hst : st.isSimple = true) (hs : Ready [] s) :
    (lowerStmt st).Ensures Inner s fun _ t =>
      Fills (fun x => x ∉ s.arena.table s.current ∧ takesItself x [st] = true) s t ∧ Knows s.options.entry st s := by
  cases st with
  | pass span =>
      rw [lowerStmt]
      exact ⟨(Draws.refl (N := fun _ => False) s).fills, fun x hx => absurd hx List.not_mem_nil⟩
  | ret span value => rw [lowerStmt]; exact lowerReturn_fills hs span value _
  | expr span value => rw [lowerStmt]; exact lowerExprStmt_fills hs span value
  | assign span targets value => rw [lowerStmt]; exact lowerAssign_fills hs span targets value _
  | augAssign span target op value => rw [lowerStmt]; exact lowerAugAssign_fills hs span target op value _
  | cond span test body orelse => exact absurd hst Bool.false_ne_true
  | loop span test body => exact absurd hst Bool.false_ne_true
  | funcDef span name params body => exact absurd hst Bool.false_ne_true

theorem takesItself_cons {x : String} {st : Stmt} {rest : List Stmt} (hx : x ∉ boundByStmt st) :
    takesItself x (st :: rest) = takesItself x rest := by
  have hnone : st.valueFor? x = none := by
    cases st with
    | assign span targets value => exact if_neg hx
    | _ => rfl
  unfold takesItself
  rw [List.findSome?_cons, hnone]

theorem takesItself_singleton {x : String} {st : Stmt} (rest : List Stmt) (hx : takesItself x [st] = true) :
    takesItself x (st :: rest) = true := by
  unfold takesItself at hx ⊢
  rw [List.findSome?_cons] at hx ⊢
  cases hvalue : st.valueFor? x with
  | none => rw [hvalue] at hx; exact absurd hx (by simp)
  | some value => rw [hvalue] at hx; exact hx

/-- **Straight-line code**, statement by statement. -/
theorem lowerBlock_fills : ∀ (ss : List Stmt) {s t : State}, (∀ st ∈ ss, st.isSimple = true) → Ready [] s →
    (lowerBlock ss).run s = .ok () t →
    Fills (fun x => x ∉ s.arena.table s.current ∧ takesItself x ss = true) s t ∧
      ∀ before st after, ss = before ++ st :: after → ∀ x ∈ st.reads s.options.entry,
        x ∈ s.arena.table s.current ∨ x ∈ boundNames before ∨ x ∈ st.targets
  | [], s, t, _, _, hrun => by
      rw [lowerBlock, run_milestone, EStateM.Result.ok.injEq] at hrun
      obtain ⟨_, rfl⟩ := hrun
      exact ⟨(Draws.refl (N := fun _ => False) s).fills, fun before st after h => absurd h (by simp)⟩
  | st :: rest, s, t, hsimple, hs, hrun => by
      rw [lowerBlock] at hrun
      have hbind : (lowerStmt st >>= fun _ => lowerBlock rest).run s = .ok () t := hrun
      obtain ⟨_, u, hu, hrun'⟩ := run_bind_ok.mp hbind
      obtain ⟨hfills, hknows⟩ := (lowerStmt_fills st (hsimple st List.mem_cons_self) hs).run_ok hu
      obtain ⟨fns, _, hcompletes⟩ := (lowerStmt_ensures st hs).run_ok hu
      obtain ⟨hfills', hknows'⟩ :=
        lowerBlock_fills rest (fun st' h => hsimple st' (List.mem_cons_of_mem st h)) hcompletes.ready hrun'
      have htable : ∀ x, x ∈ u.arena.table u.current ↔ x ∈ s.arena.table s.current ∨ x ∈ boundByStmt st := fun x => by
        rw [hcompletes.advances.current]
        exact hcompletes.advances.grows.mem_table
      refine ⟨(hfills.mono ?_).trans (hfills'.mono ?_), fun before st' after heq x hx => ?_⟩
      · rintro x ⟨hnot, hx⟩
        exact ⟨hnot, takesItself_singleton rest hx⟩
      · -- a name that is new to the rest is not bound by the first statement, so it is the rest that binds it first
        rintro x ⟨hnot, hx⟩
        have hboth := not_or.mp (mt (htable x).mpr hnot)
        exact ⟨hboth.1, (takesItself_cons hboth.2).trans hx⟩
      · cases before with
        | nil =>
            obtain ⟨rfl, rfl⟩ := List.cons.inj heq
            exact (hknows x hx).imp_right Or.inr
        | cons st'' before =>
            obtain ⟨rfl, rfl⟩ := List.cons.inj heq
            rw [← hcompletes.advances.options] at hx
            rcases hknows' before st' after rfl x hx with hold | hnew
            · rw [boundNames, List.mem_append]
              exact ((htable x).mp hold).imp_right fun h => Or.inl (Or.inl h)
            · rw [boundNames, List.mem_append]
              exact Or.inr (hnew.imp_left Or.inr)

/-! ## Functions -/

section Stations

variable {name : String} {params : List String} {stmts : List Stmt} {body : Lower Unit} {loc : Position} {o : Opening}
  {f : Callee} {start finish last : State}

/-- At the start of a body there are the parameters, and they are in registers. -/
theorem Opened.stocked (h : Opened name params o f mid start) (since : List Line) :
    Stocked (fun _ => False) since start := by
  intro x k hk hx _
  rw [h.table_eq] at hk
  obtain ⟨v, r, _, hv, hr⟩ := h.holder hk
  rw [holder_eq_some_iff.mpr ⟨v, hv, hr⟩] at hx
  exact absurd hx (by simp)

/-- **The lines of a function read slots that its lines have written**, if its body does. -/
theorem Stations.supplied (h : Stations name params stmts body loc o f s mid start finish last t)
    (hbody : Fills E start finish) : ∃ before inner after,
      t.code.toList = s.code.toList ++ before ++
        (functionHeader o.label ++ inner ++ [functionFooter o.label]) ++ after ∧
      (∀ l ∈ before ++ after, ∀ d, l ≠ .directive d) ∧
      Supplied (fun offset => ∃ x k, (finish.arena.table finish.current)[k]? = some x ∧
        offset = Frame.slotOffset k ∧ E x) [] inner := by
  obtain ⟨before, hbefore, hplain⟩ := h.paused.straight
  obtain ⟨comments, hcomments, hend⟩ := h.closed.lines
  obtain ⟨new, hnew, hfills⟩ := hbody.lines
  -- an epilogue loads what the prologue saved, by the stack pointer
  have hreturn : ∃ new', last.code.toList = finish.code.toList ++ new' ∧ ∀ r offset,
      Line.instr (.ld r offset .fp) ∉ new' := by
    rcases h.returns with ⟨_, rfl⟩ | hdoes
    · exact ⟨[], (List.append_nil _).symm, by simp⟩
    · obtain ⟨new', hnew', hlines⟩ := hdoes.load_mem
      exact ⟨new', hnew', fun r offset hmem => absurd ((hlines _).mp hmem) (by simp [Frame.epilogue])⟩
  obtain ⟨new', hnew', hloads⟩ := hreturn
  refine ⟨before, o.frame.prologue.map Line.instr ++ (new ++ (new' ++ comments)), o.skip.toList.map Line.label,
    ?_, ?_, ?_⟩
  · rw [hend, hnew', hnew, h.opened.code_eq, hbefore]
    simp only [List.append_assoc, List.cons_append, List.nil_append]
  · intro l hl d hd
    subst hd
    rcases List.mem_append.mp hl with hl | hl
    · exact hplain _ hl d rfl
    · obtain ⟨_, _, hl⟩ := List.mem_map.mp hl
      exact absurd hl (by simp)
  · refine Supplied.append (supplied_of_not_mem fun r offset hmem => ?_) ((hfills _ (h.opened.stocked _)).2.append
      (Supplied.append (supplied_of_not_mem hloads) (supplied_of_not_mem fun r offset hmem => ?_)))
    · obtain ⟨i, hi, heq⟩ := List.mem_map.mp hmem
      exact absurd (frameless_prologue o.frame i hi) (by rw [Line.instr.inj heq]; simp [Instr.frameOffset?])
    · exact absurd (hcomments _ hmem) Bool.false_ne_true

end Stations

/-- A name that means nothing is an undefined variable. -/
theorem run_name_undefined {x : String} {span : Span} {use : NameUse} (hx : s.arena.resolve? s.current x = none) :
    (lowerExpr (.name span x use)).run s = .error (.undefinedName .var x span.start) s := by
  have hfail : (resolveLocal x span.start).run s = .error (.undefinedName .var x span.start) s := by
    unfold resolveLocal
    rw [run_look_bind, hx]
    rfl
  rw [lowerExpr]
  exact run_bind_error (run_bind_error hfail)

/-- **Loads follow stores in straight-line code.** In a function without compound statements, whatever is read
    from a slot of its frame was written there by an earlier line of the function, but for one case: the slot
    belongs to a name that is no parameter, and the first assignment to it takes its own value. A statement
    takes the values of parameters, of names that earlier statements bind, and, if it is an assignment, of the
    names that it binds itself; a name that means nothing is rejected as an undefined variable. -/
theorem loads_follow_stores {options : Options} {m : Module} {span : Span} {name : String} {params : List String}
    {stmts : List Stmt} {s t : State} (hsimple : ∀ st ∈ stmts, st.isSimple = true)
    (hs : (lowerModule m).Passes (.initial options) .boundary s)
    (hrun : (lowerStmt (.funcDef span name params stmts)).run s = .ok () t) :
    (∃ (o : Opening) (start finish : State) (before inner after : List Line),
      (enterFunction name params stmts span.start).run s = .ok o start ∧
      (lowerBlock stmts).run start = .ok () finish ∧
      t.code.toList = s.code.toList ++ before ++
        (functionHeader o.label ++ inner ++ [functionFooter o.label]) ++ after ∧
      (∀ l ∈ before ++ after, ∀ d, l ≠ .directive d) ∧
      ∀ front r offset back, inner = front ++ .instr (.ld r offset .fp) :: back →
        (∃ r', Line.instr (.sd r' offset .fp) ∈ front) ∨
        ∃ x k, (finish.arena.table finish.current)[k]? = some x ∧ offset = Frame.slotOffset k ∧
          x ∉ params ∧ takesItself x stmts = true) ∧
    (∀ before st after, stmts = before ++ st :: after → ∀ x ∈ st.reads s.options.entry,
      x ∈ params ∨ x ∈ boundNames before ∨ x ∈ st.targets) ∧
    ∀ (u : State) x (sp : Span) use, u.arena.resolve? u.current x = none →
      (lowerExpr (.name sp x use)).run u = .error (.undefinedName .var x sp.start) u := by
  obtain ⟨held, hready, hheld⟩ := (lowerModule_ensures options m).passes hs
  obtain rfl := hheld rfl
  rw [lowerStmt] at hrun
  obtain ⟨o, f, mid, start, finish, last, h, _⟩ :=
    (lowerFunction_ensures hready name params stmts span.start (lowerBlock_contract stmts)).run_ok hrun
  obtain ⟨hfills, hknows⟩ := lowerBlock_fills stmts hsimple h.opened.ready h.run_body
  obtain ⟨before, inner, after, hcode, hplain, hsupplied⟩ := h.supplied hfills
  rw [h.opened.table_eq] at hsupplied hknows
  rw [h.opened.options, h.paused.steady.options] at hknows
  exact ⟨⟨o, start, finish, before, inner, after, h.enter, h.run_body, hcode, hplain, hsupplied⟩, hknows,
    fun u x sp use => run_name_undefined⟩

/-- A function that prints between an assignment and the uses of its variables. -/
def printingBody : List Stmt :=
  [.assign default [.name default "b" .store] (.name default "a" .load),
   .expr default (.call default (.name default "print" .load) [.name default "b" .load]),
   .ret default (some (.name default "b" .load))]

theorem takesItself_printingBody (x : String) : takesItself x printingBody = false := by
  by_cases hx : x = "b"
  · subst hx; decide
  · simp [takesItself, printingBody, List.findSome?_cons, Stmt.valueFor?, Expr.asName?, hx]

/-- Both variables are stored before the number is printed, and loaded again after it. -/
theorem loads_follow_stores_printingBody :
    ∃ (t : State) (label : String) (before inner after : List Line),
      (lowerStmt (.funcDef default "f" ["a"] printingBody)).run (.start {}) = .ok () t ∧
      Line.instr (loadSlot .t0 0) ∈ t.code.toList ∧
      t.code.toList = (State.start {}).code.toList ++ before ++
        (functionHeader label ++ inner ++ [functionFooter label]) ++ after ∧
      ∀ front r offset back, inner = front ++ .instr (.ld r offset .fp) :: back →
        ∃ r', Line.instr (.sd r' offset .fp) ∈ front := by
  obtain ⟨t, hrun, hload⟩ : ∃ t, (lowerStmt (.funcDef default "f" ["a"] printingBody)).run (.start {}) = .ok () t ∧
      Line.instr (loadSlot .t0 0) ∈ t.code.toList := exists_run_ok _ (by cbv)
  have hpasses : (lowerModule ⟨[], default⟩).Passes (.initial {}) .boundary (.start {}) :=
    lowerBlock_passes_end [] (s := .start {}) rfl
  obtain ⟨⟨o, _, _, before, inner, after, _, _, hcode, _, hloads⟩, _, _⟩ :=
    loads_follow_stores (by decide) hpasses hrun
  refine ⟨t, o.label, before, inner, after, hrun, hload, hcode, fun front r offset back heq => ?_⟩
  rcases hloads front r offset back heq with hstore | ⟨x, _, _, _, _, hx⟩
  · exact hstore
  · exact absurd hx (by rw [takesItself_printingBody]; exact Bool.false_ne_true)

/-- **A name that takes its own value is read from a slot that was never written**: the function is accepted,
    its code loads the slot, and stores nothing to its frame. -/
theorem own_value_read_unwritten :
    ∃ t : State, (lowerStmt (.funcDef default "f" [] [.assign default [.name default "x" .store]
        (.name default "x" .load)])).run (.start {}) = .ok () t ∧
      Line.instr (loadSlot .t0 0) ∈ t.code.toList ∧
      ∀ l ∈ t.code.toList, ∀ r ∈ Register.all, l ≠ Line.instr (storeSlot r 0) :=
  exists_run_ok _ (by cbv)

end Lower

end Offside
