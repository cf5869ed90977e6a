import Mathlib
import Offside.Proofs.Disguise
import Offside.Proofs.Script

/-!
# `Proofs.Tracking` — code generation sees no names, places and comments

Code generation for a disguised program does, move by move, what it does for the program itself, in disguise
(`Tracks`): it fails where that fails, with the same fault in disguise, and otherwise ends in the same state in
disguise. There is one theorem for each function of code generation, and for a whole module `generate_map`.

Three disguises give three statements about the assembly of a module: comments change no other line of it
(`comments_change_nothing`), the names of variables leave no trace in it (`variable_names_leave_no_trace`), and
neither do the places of nodes (`generate_erase`).
-/

namespace Offside.Lower

open Machine

variable {α β γ δ : Type} {d : Disguise} {g : α → β} {h : γ → δ} {s t : State}

/-! ## The contract -/

/-- What a run comes to, in disguise; `g` says what becomes of its value. -/
def disguised (d : Disguise) (g : α → β) : EStateM.Result Fault State α → EStateM.Result Fault State β
  | .ok a s => .ok (g a) (s.disguise d)
  | .error e s => .error (e.map d.name d.place) (s.disguise d)

/-- **The second script tracks the first** in a state: run in the disguised state, it comes to the same, in
    disguise. -/
def TracksAt (d : Disguise) (g : α → β) (x : Lower α) (y : Lower β) (s : State) : Prop :=
  y.run (s.disguise d) = disguised d g (x.run s)

/-- The second script tracks the first in every state. -/
def Tracks (d : Disguise) (g : α → β) (x : Lower α) (y : Lower β) : Prop := ∀ s, TracksAt d g x y s

/-- A script runs on in the state that the one before it leaves, unless that fails. -/
theorem run_bind (x : Lower α) (f : α → Lower β) (s : State) :
    (x >>= f).run s = match x.run s with
      | .ok a t => (f a).run t
      | .error e t => .error e t := by
  show (x.bind f).run s = _
  induction x generalizing s with
  | done a => rfl
  | fail e => rfl
  | act change next ih => exact ih _ _
  | pass p next ih => exact ih s

/-- Sequencing in one state: the scripts that follow are compared only where the first ends. -/
theorem TracksAt.bind {x : Lower α} {y : Lower β} {f : α → Lower γ} {f' : β → Lower δ} (hx : TracksAt d g x y s)
    (hf : ∀ a t, x.run s = .ok a t → TracksAt d h (f a) (f' (g a)) t) : TracksAt d h (x >>= f) (y >>= f') s := by
  unfold TracksAt at hx ⊢
  rw [run_bind, run_bind, hx]
  cases hrun : x.run s with
  | ok a t => exact hf a t hrun
  | error e t => rfl

/-- **Sequencing**, where the value of the first script changes in disguise. -/
theorem Tracks.bind_map {x : Lower α} {y : Lower β} {f : α → Lower γ} {f' : β → Lower δ} (hx : Tracks d g x y)
    (hf : ∀ a, Tracks d h (f a) (f' (g a))) : Tracks d h (x >>= f) (y >>= f') :=
  fun s => (hx s).bind fun a t _ => hf a t

/-- **Sequencing**, where the value of the first script stays as it is. -/
theorem Tracks.bind {x y : Lower α} {f : α → Lower γ} {f' : α → Lower δ} (hx : Tracks d id x y)
    (hf : ∀ a, Tracks d h (f a) (f' a)) : Tracks d h (x >>= f) (y >>= f') := hx.bind_map hf

theorem tracks_pure (a : α) : Tracks d g (pure a) (pure (g a)) := fun _ => rfl

/-- A fault may show a name and a place, so it is the same in disguise only. -/
theorem tracks_fail {e e' : Fault} (he : e' = e.map d.name d.place) : Tracks d g (fail e) (fail e') := by
  subst he
  exact fun _ => rfl

/-- Looking at the state hands the disguised state to the script in disguise. -/
theorem tracksAt_look {f : State → Lower γ} {f' : State → Lower δ} (hf : TracksAt d h (f s) (f' (s.disguise d)) s) :
    TracksAt d h (look >>= f) (look >>= f') s := hf

theorem tracks_look : Tracks d (State.disguise d) look look := fun _ => rfl

/-- A change that commutes with the disguise. -/
theorem tracks_change {f f' : State → State} (hf : ∀ s, f' (s.disguise d) = (f s).disguise d) :
    Tracks d id (change f) (change f') := fun s => congrArg (EStateM.Result.ok ()) (hf s)

theorem tracks_milestone (p : Milestone) : Tracks d id (milestone p) (milestone p) := fun _ => rfl

/-- **Loops** over a list whose elements change in disguise. -/
theorem Tracks.forM_map {f : α → Lower Unit} {f' : β → Lower Unit} (hf : ∀ a, Tracks d id (f a) (f' (g a))) :
    ∀ l : List α, Tracks d id (l.forM f) ((l.map g).forM f')
  | [] => fun _ => rfl
  | a :: l => (hf a).bind fun _ => Tracks.forM_map hf l

/-- Loops over a list that stays as it is. -/
theorem Tracks.forM {f f' : α → Lower Unit} (hf : ∀ a, Tracks d id (f a) (f' a)) (l : List α) :
    Tracks d id (l.forM f) (l.forM f') := by
  have hmap := Tracks.forM_map (g := id) hf l
  rwa [List.map_id] at hmap

theorem Tracks.discard {x : Lower α} {y : Lower β} (hx : Tracks d g x y) : Tracks d id (discard x) (discard y) :=
  hx.bind_map fun _ => fun _ => rfl

/-! ## Lines and events -/

theorem tracks_note {e e' : Event} (he : e' = e.rename d.name) : Tracks d id (note e) (note e') := by
  subst he
  exact tracks_change fun s => by simp [State.disguise]

/-- A line that is no comment is kept under every disguise. -/
theorem tracks_emit {l : Line} (hl : l.isComment = false) : Tracks d id (emit l) (emit l) := by
  refine tracks_change fun s => ?_
  cases hquiet : d.quiet <;> simp [State.disguise, hquiet, hl]

theorem tracks_emitInstrs (is : List Instr) : Tracks d id (emitInstrs is) (emitInstrs is) :=
  Tracks.forM (fun i => tracks_emit (l := .instr i) rfl) is

/-- Comments may differ where they are left out. -/
theorem tracks_comment {text text' : String} (htext : d.quiet = false → text' = text) :
    Tracks d id (comment text) (comment text') := by
  refine tracks_change fun s => ?_
  cases hquiet : d.quiet with
  | true => cases hcomments : s.options.comments <;> simp [State.disguise, hquiet, hcomments, Line.isComment]
  | false =>
      rw [htext hquiet]
      cases hcomments : s.options.comments <;> simp [State.disguise, hquiet, hcomments]

/-! ## Registers -/

theorem tracks_setPool (pool : Pool) :
    Tracks d id (change fun s => { s with pool := pool }) (change fun s => { s with pool := pool }) :=
  tracks_change fun _ => rfl

/-- The arena is the part of the state in which names are stored. -/
theorem tracks_setArena {a a' : Arena} (ha : a' = a.rename d.name) :
    Tracks d id (change fun s => { s with arena := a }) (change fun s => { s with arena := a' }) := by
  subst ha
  exact tracks_change fun _ => rfl

/-- The pool knows no names, so the same register is handed out. -/
theorem tracks_allocate (c : RegisterClass) : Tracks d id (allocate c) (allocate c) := by
  refine tracks_look.bind_map fun s => ?_
  simp only [State.pool_disguise]
  cases s.pool.allocate? c with
  | none => exact tracks_pure _
  | some p => exact (tracks_setPool _).bind fun _ => (tracks_note rfl).bind fun _ => tracks_pure _

theorem tracks_take (r : Register) : Tracks d id (take r) (take r) := by
  refine tracks_look.bind_map fun s => ?_
  simp only [State.pool_disguise]
  cases s.pool.take? r with
  | none => exact tracks_pure _
  | some p => exact (tracks_setPool _).bind fun _ => (tracks_note rfl).bind fun _ => tracks_pure _

/-- The pool is asked for the register only, and the event of its release has no name in it. -/
theorem tracks_free (r : Register) : Tracks d id (free r) (free r) := by
  unfold free
  split
  · refine (tracks_change fun s => ?_).bind fun _ => tracks_note rfl
    rfl
  · exact tracks_pure _

/-! ## Scopes and variables -/

theorem tracks_pushFunction (parent : ScopeId) (name : String) :
    Tracks d id (pushFunction parent name) (pushFunction parent name) := by
  refine tracks_look.bind_map fun s => ?_
  simp only [State.arena_disguise, Arena.pushFunction_rename]
  exact (tracks_setArena rfl).bind fun _ => (tracks_note rfl).bind fun _ => tracks_pure _

theorem tracks_pushBlock (parent : ScopeId) : Tracks d id (pushBlock parent) (pushBlock parent) := by
  refine tracks_look.bind_map fun s => ?_
  simp only [State.arena_disguise, Arena.pushBlock_rename, Arena.get_rename]
  exact (tracks_setArena rfl).bind fun _ => (tracks_note rfl).bind fun _ => tracks_pure _

/-- A parameter is entered under its new name. Distinct names stay distinct, so its slot is the same. -/
theorem tracks_declareParameter (scope : ScopeId) (name : String) (r : Register) :
    Tracks d id (declareParameter scope name r) (declareParameter scope (d.name name) r) := by
  refine tracks_look.bind_map fun s => ?_
  simp only [State.arena_disguise, Arena.insert_rename d.name_injective]
  exact (tracks_setArena rfl).bind fun _ => tracks_pure _

/-- A name resolves in disguise exactly if it did before, to the same variable. -/
theorem tracks_define (scope : ScopeId) (name : String) :
    Tracks d id (define scope name) (define scope (d.name name)) := by
  refine tracks_look.bind_map fun s => ?_
  simp only [State.arena_disguise, Arena.resolve?_rename d.name_injective]
  cases s.arena.resolve? scope name with
  | some v => exact tracks_pure _
  | none =>
      refine tracks_look.bind_map fun s => ?_
      simp only [State.arena_disguise, Arena.insert_rename d.name_injective, Arena.lookup?_rename, Option.map_map]
      exact (tracks_setArena rfl).bind fun _ => (tracks_note rfl).bind fun _ => tracks_pure _

theorem tracks_bindVariable (v : VarRef) (r : Register) : Tracks d id (bindVariable v r) (bindVariable v r) := by
  refine (tracks_change fun s => ?_).bind fun _ => tracks_milestone _
  rw [State.arena_disguise, Arena.updateVariable_rename (g := (·.bind r)) fun _ => rfl]
  rfl

/-- The register of a variable does not depend on its name. -/
theorem tracks_unbindVariable (v : VarRef) : Tracks d id (unbindVariable v) (unbindVariable v) := by
  refine tracks_look.bind_map fun s => ?_
  simp only [State.arena_disguise, Arena.activeRegister?_rename]
  cases s.arena.activeRegister? v with
  | none => exact tracks_pure _
  | some r =>
      refine (tracks_change fun s => ?_).bind fun _ => (tracks_free r).bind fun _ => tracks_pure _
      rw [State.arena_disguise, Arena.updateVariable_rename (g := (·.release)) fun _ => rfl]
      rfl

/-- The variables that are released are listed by name. -/
theorem tracks_release (scope : ScopeId) :
    Tracks d (List.map fun p => (d.name p.1, p.2)) (release scope) (release scope) := by
  refine tracks_look.bind_map fun s => ?_
  simp only [State.arena_disguise, Arena.get_rename, Scope.activeRegisters_rename, List.length_map]
  refine (tracks_change fun s => ?_).bind fun _ => (Tracks.forM_map ?_ _).bind fun _ => ?_
  · have hrelease : (s.arena.rename d.name).update scope (fun sc => { sc with vars := sc.vars.map (·.release) }) =
        (s.arena.update scope fun sc => { sc with vars := sc.vars.map (·.release) }).rename d.name := by
      refine Arena.update_rename fun sc => ?_
      simp only [Scope.rename, List.map_map]
      rfl
    simp only [State.disguise, hrelease]
  · exact fun p => tracks_free p.2
  · exact (tracks_note rfl).bind fun _ => tracks_pure _

/-- The variables of a block move to the scope around it, each under its new name. -/
theorem tracks_hoist (block : ScopeId) : Tracks d id (hoist block) (hoist block) := by
  refine tracks_look.bind_map fun s => ?_
  simp only [State.arena_disguise, Arena.get_rename, Scope.parent_rename, Scope.vars_rename]
  cases (s.arena.get block).parent with
  | none => exact tracks_pure _
  | some parent =>
      refine (tracks_change fun s => ?_).bind fun _ => Tracks.forM_map ?_ _
      · simp only [State.disguise, Arena.hoist_rename]
      · exact fun v => tracks_note rfl

/-- Labels are made from names of functions, which are not in disguise, and from counters. -/
theorem tracks_nextLabel (scope : ScopeId) (purpose : String) :
    Tracks d id (nextLabel scope purpose) (nextLabel scope purpose) := by
  refine tracks_look.bind_map fun s => ?_
  simp only [State.arena_disguise, Arena.nextLabel_rename]
  exact (tracks_setArena rfl).bind fun _ => tracks_pure _

/-! ## Variables of the current frame -/

/-- A variable of another frame has a name, so it can be blamed by that. -/
theorem tracksAt_checkFrame {v : VarRef} {loc : Position}
    (hv : (∃ var, s.arena.lookup? v = some var) ∨ v.scope = s.current) :
    TracksAt d id (checkFrame v loc) (checkFrame v (d.place loc)) s := by
  refine tracksAt_look ?_
  simp only [State.arena_disguise, State.current_disguise, Arena.get_rename, Arena.lookup?_rename, Scope.root_rename]
  split
  · next hroot =>
      rcases hv with ⟨var, hvar⟩ | hscope
      · rw [hvar]
        exact tracks_fail rfl s
      · exact absurd (by rw [hscope]) hroot
  · exact tracks_pure () s

/-- A name without a variable is reported under its new name, at its new place. -/
theorem tracks_resolveLocal (name : String) (loc : Position) :
    Tracks d id (resolveLocal name loc) (resolveLocal (d.name name) (d.place loc)) := by
  intro s
  refine tracksAt_look ?_
  simp only [State.arena_disguise, State.current_disguise, Arena.resolve?_rename d.name_injective]
  cases hv : s.arena.resolve? s.current name with
  | none => exact tracks_fail rfl s
  | some v =>
      obtain ⟨_, var, hvar, _⟩ := Arena.resolve?_some hv
      exact (tracksAt_checkFrame (Or.inl ⟨var, hvar⟩)).bind fun _ t _ => tracks_pure v t

/-- A name that is stored to means a variable, which is of the scope itself where it is new. -/
theorem run_define {scope : ScopeId} {name : String} {v : VarRef} (hrun : (define scope name).run s = .ok v t) :
    t.current = s.current ∧ ((∃ var, t.arena.lookup? v = some var) ∨ v.scope = scope) := by
  unfold define at hrun
  rw [run_look_bind] at hrun
  cases hv : s.arena.resolve? scope name with
  | some w =>
      rw [hv] at hrun
      obtain ⟨rfl, rfl⟩ := EStateM.Result.ok.inj hrun
      obtain ⟨_, var, hvar, _⟩ := Arena.resolve?_some hv
      exact ⟨rfl, Or.inl ⟨var, hvar⟩⟩
  | none =>
      rw [hv] at hrun
      obtain ⟨rfl, rfl⟩ := EStateM.Result.ok.inj hrun
      exact ⟨rfl, Or.inr rfl⟩

/-- As `tracks_resolveLocal`, for a name that is stored to and may be new. -/
theorem tracks_defineLocal (name : String) (loc : Position) :
    Tracks d id (defineLocal name loc) (defineLocal (d.name name) (d.place loc)) := by
  intro s
  refine tracksAt_look ?_
  refine TracksAt.bind (tracks_define s.current name s) fun v t hrun => ?_
  obtain ⟨hcurrent, hv⟩ := run_define hrun
  rw [← hcurrent] at hv
  exact (tracksAt_checkFrame hv).bind fun _ t _ => tracks_pure v t

/-! ## Spilling and reloading -/

/-- Where comments are kept, names are kept. -/
theorem text_of_loud (hquiet : d.quiet = false) (name : String) : d.name name = name := by
  rw [d.name_eq_of_loud hquiet]
  rfl

/-- **Spilling** names the variable in a comment, and nowhere else. -/
theorem tracks_spill (v : VarRef) : Tracks d id (spill v) (spill v) := by
  refine Tracks.bind (tracks_look.bind_map fun s => ?_) fun _ => tracks_milestone _
  simp only [State.arena_disguise, Arena.lookup?_rename]
  cases s.arena.lookup? v with
  | none => exact tracks_pure _
  | some var =>
      simp only [Option.map_some, Variable.activeRegister?_rename]
      cases var.activeRegister? with
      | none => exact tracks_pure _
      | some r =>
          refine (tracks_note rfl).bind fun _ => (tracks_comment fun hquiet => ?_).bind fun _ => ?_
          · simp only [Variable.rename, text_of_loud hquiet]
          · exact (tracks_emitInstrs _).bind fun _ => (tracks_unbindVariable v).discard

/-- Which variable makes room is decided by scopes and registers. -/
theorem spillCandidate?_disguise (s : State) : spillCandidate? (s.disguise d) = spillCandidate? s := by
  simp only [spillCandidate?, State.arena_disguise, State.current_disguise, Arena.chain_rename, Arena.get_rename,
    Scope.rename, List.findIdx?_map]
  rfl

theorem tracks_makeRoom : Tracks d id makeRoom makeRoom := by
  refine tracks_look.bind_map fun s => ?_
  simp only [spillCandidate?_disguise]
  cases spillCandidate? s with
  | some v => exact tracks_spill v
  | none => exact tracks_pure _

/-- A temporary, for which a variable may have to make room. -/
theorem tracks_allocateTemp : Tracks d id allocateTemp allocateTemp := by
  have hend : ∀ r : Register, Tracks d id (milestone .temporary >>= fun _ => pure r)
      (milestone .temporary >>= fun _ => pure r) := fun r => (tracks_milestone _).bind fun _ => tracks_pure r
  refine (tracks_allocate _).bind fun r => ?_
  cases r with
  | some r => exact hend r
  | none =>
      -- without a free register a variable is spilled, and the second attempt is the last
      refine tracks_makeRoom.bind fun _ => (tracks_allocate _).bind fun r => ?_
      cases r with
      | some r => exact hend r
      | none => exact tracks_fail rfl

/-- **Reloading** reads the slot of the variable, whose name stands in a comment only. -/
theorem tracks_reload (v : VarRef) : Tracks d id (reload v) (reload v) := by
  refine tracks_allocateTemp.bind fun r => Tracks.bind (tracks_look.bind_map fun s => ?_) fun _ =>
    (tracks_milestone _).bind fun _ => tracks_pure _
  simp only [State.arena_disguise, Arena.lookup?_rename]
  cases s.arena.lookup? v with
  | none => exact tracks_pure _
  | some var =>
      refine (tracks_note rfl).bind fun _ => (tracks_comment fun hquiet => ?_).bind fun _ => ?_
      · simp only [Variable.rename, text_of_loud hquiet]
      · exact (tracks_emitInstrs _).bind fun _ => tracks_bindVariable v r

/-- The variables in registers are the same, in the same order. -/
theorem tracks_synchronise : Tracks d id synchronise synchronise := by
  refine tracks_look.bind_map fun s => ?_
  simp only [State.arena_disguise, State.current_disguise, Arena.activeVariables_rename]
  exact Tracks.forM tracks_spill _

theorem tracks_popTemp : Tracks d id popTemp popTemp :=
  tracks_allocateTemp.bind fun _ => (tracks_emitInstrs _).bind fun _ => tracks_pure _

/-! ## Blocks -/

/-- The names of released variables show in comments, which are kept only where the names are. -/
theorem tracks_releaseCurrent : Tracks d id releaseCurrent releaseCurrent := by
  refine tracks_look.bind_map fun s => (tracks_release _).bind_map fun released => ?_
  refine Tracks.forM_map ?_ released
  exact fun p => tracks_comment fun hquiet => by rw [text_of_loud hquiet]

theorem tracks_setCurrent (scope : ScopeId) :
    Tracks d id (change fun s => { s with current := scope }) (change fun s => { s with current := scope }) :=
  tracks_change fun _ => rfl

/-- **A block** is tracked if the code inside it is. -/
theorem tracks_inBlock {code code' : ScopeId → Lower Unit} (hcode : ∀ s, Tracks d id (code s) (code' s)) :
    Tracks d id (inBlock code) (inBlock code') := by
  have henter : Tracks d id enterBlock enterBlock := by
    refine tracks_look.bind_map fun s => (tracks_pushBlock _).bind fun block => ?_
    exact (tracks_setCurrent block).bind fun _ => (tracks_milestone _).bind fun _ => tracks_pure _
  refine henter.bind fun outer => (hcode outer).bind fun _ => tracks_releaseCurrent.bind fun _ => ?_
  refine tracks_look.bind_map fun s => (tracks_hoist _).bind fun _ => (tracks_setCurrent outer).bind fun _ => ?_
  exact tracks_milestone _

/-! ## Expressions -/

theorem tracks_pushLiteral (w : Word) : Tracks d id (pushLiteral w) (pushLiteral w) :=
  tracks_allocateTemp.bind fun _ => (tracks_emitInstrs _).bind fun _ => (tracks_emitInstrs _).bind fun _ =>
    tracks_free _

/-- A text where a number should be is reported at its new place. -/
theorem tracks_pushConstant (c : Constant) (loc : Position) :
    Tracks d id (pushConstant c loc) (pushConstant c (d.place loc)) := by
  cases c with
  | int w => exact tracks_pushLiteral w
  | bool b => exact tracks_pushLiteral _
  | str s => exact tracks_fail rfl

/-- A variable in a register is pushed from there, and otherwise reloaded first. -/
theorem tracks_pushVariable (name : String) (loc : Position) :
    Tracks d id (pushVariable name loc) (pushVariable (d.name name) (d.place loc)) := by
  refine (tracks_resolveLocal name loc).bind fun v => tracks_look.bind_map fun s => ?_
  simp only [State.arena_disguise, Arena.activeRegister?_rename]
  cases s.arena.activeRegister? v with
  | some r => exact tracks_emitInstrs _
  | none => exact (tracks_reload v).bind fun _ => tracks_emitInstrs _

theorem tracks_combineBinary (op : BinaryOp) : Tracks d id (combineBinary op) (combineBinary op) := by
  refine tracks_popTemp.bind fun _ => tracks_popTemp.bind fun _ => (tracks_comment fun _ => rfl).bind fun _ => ?_
  refine (tracks_emitInstrs _).bind fun _ => (tracks_free _).bind fun _ => (tracks_emitInstrs _).bind fun _ => ?_
  exact tracks_free _

/-- A comparison needs a label, which counts on in the scope. -/
theorem tracks_combineCompare (op : CompareOp) : Tracks d id (combineCompare op) (combineCompare op) := by
  refine tracks_popTemp.bind fun _ => tracks_popTemp.bind fun _ => tracks_allocateTemp.bind fun _ => ?_
  refine tracks_look.bind_map fun s => (tracks_nextLabel _ _).bind fun _ => (tracks_comment fun _ => rfl).bind fun _ => ?_
  refine (tracks_emitInstrs _).bind fun _ => (tracks_emitInstrs _).bind fun _ => (tracks_free _).bind fun _ => ?_
  refine (tracks_free _).bind fun _ => (tracks_emitInstrs _).bind fun _ => (tracks_emit rfl).bind fun _ => ?_
  exact (tracks_emitInstrs _).bind fun _ => tracks_free _

theorem tracks_applyUnary (op : UnaryOp) : Tracks d id (applyUnary op) (applyUnary op) := by
  unfold applyUnary
  split
  · refine tracks_popTemp.bind fun _ => (tracks_emitInstrs _).bind fun _ => (tracks_emitInstrs _).bind fun _ => ?_
    exact tracks_free _
  · exact tracks_pure _

/-! ## Calls -/

/-- A call spills the variables whose registers it may change, and these are the same. -/
theorem tracks_spillClobbered : Tracks d id spillClobbered spillClobbered := by
  refine tracks_look.bind_map fun s => ?_
  simp only [State.arena_disguise, State.current_disguise, Arena.activeVariables_rename, Arena.activeRegister?_rename]
  exact (Tracks.forM tracks_spill _).bind fun _ => tracks_pure _

theorem tracks_popInto (rs : List Register) : Tracks d id (popInto rs) (popInto rs) := by
  refine Tracks.forM (fun r => (tracks_take r).bind fun taken => ?_) rs
  cases taken with
  | true => exact tracks_emitInstrs _
  | false => exact tracks_fail rfl

/-- The registers of the parameters are those of the function, whatever the parameters are called. -/
theorem tracks_finishCall (callee : Callee) (count : Nat) :
    Tracks d id (finishCall callee count) (finishCall (callee.rename d.name) count) := by
  have hregisters : (callee.rename d.name).params.map (·.2) = callee.params.map (·.2) := by
    simp [Callee.rename]
  unfold finishCall
  rw [hregisters]
  refine (tracks_note rfl).bind fun _ => tracks_spillClobbered.bind fun spilled => ?_
  refine (Tracks.forM_map ?_ _).bind fun _ => (tracks_popInto _).bind fun _ => (tracks_emitInstrs _).bind fun _ => ?_
  · exact fun p => tracks_comment fun hquiet => by rw [text_of_loud hquiet]
  refine (Tracks.forM_map ?_ _).bind fun _ => ?_
  · exact fun p => tracks_free p.2
  exact (Tracks.forM (fun v => (tracks_reload v).discard) _).bind fun _ => tracks_emitInstrs _

theorem tracks_finishPrint : Tracks d id finishPrint finishPrint := by
  refine tracks_spillClobbered.bind fun _ => (tracks_comment fun _ => rfl).bind fun _ => (tracks_popInto _).bind fun _ => ?_
  refine (tracks_emitInstrs _).bind fun _ => (tracks_emitInstrs _).bind fun _ => (tracks_free _).bind fun _ => ?_
  refine (tracks_change fun s => ?_).bind fun _ =>
    (Tracks.forM (fun v => (tracks_reload v).discard) _).bind fun _ => tracks_emitInstrs _
  rfl

/-- Names of functions are not in disguise, those of their parameters are. -/
theorem tracks_resolveCallee (name : String) (count : Nat) (loc : Position) :
    Tracks d (Callee.rename d.name) (resolveCallee name count loc) (resolveCallee name count (d.place loc)) := by
  refine tracks_look.bind_map fun s => ?_
  simp only [State.arena_disguise, State.current_disguise, Arena.resolveFunction?_rename]
  cases s.arena.resolveFunction? s.current name with
  | none => exact tracks_fail rfl
  | some callee =>
      simp only [Option.map_some, Callee.arity_rename, Callee.name_rename]
      split
      · exact tracks_fail rfl
      · exact tracks_pure callee

/-- A number with a sign is one in disguise, too. -/
theorem negatedLiteral?_map (op : UnaryOp) (e : Expr) {name : String → String} {span : Span → Span} :
    negatedLiteral? op (e.map name span) = negatedLiteral? op e := by
  cases e with
  | call s f args =>
      obtain ⟨f', hcall, _⟩ := Expr.exists_map_call name span s f args
      rw [hcall]
      cases op <;> rfl
  | const s c => cases op <;> cases c <;> rfl
  | _ => cases op <;> rfl

theorem tracks_lowerArguments {args : List Expr}
    (hargs : ∀ e ∈ args, Tracks d id (lowerExpr e) (lowerExpr (e.map d.name d.span))) :
    Tracks d id (lowerArguments args) (lowerArguments (Expr.mapAll d.name d.span args)) := by
  induction args with
  | nil =>
      rw [Expr.mapAll, lowerArguments]
      exact tracks_pure _
  | cons arg rest ih =>
      rw [Expr.mapAll, lowerArguments, lowerArguments]
      exact (ih fun e he => hargs e (List.mem_cons_of_mem arg he)).bind fun _ => hargs arg List.mem_cons_self

mutual

/-- **The code of an expression** in disguise. -/
theorem tracks_lowerExpr : ∀ e : Expr, Tracks d id (lowerExpr e) (lowerExpr (e.map d.name d.span))
  | .const span c => by
      rw [Expr.map, lowerExpr, lowerExpr, d.start_span]
      exact (tracks_pushConstant c _).bind fun _ => tracks_milestone _
  | .name span id use => by
      rw [Expr.map, lowerExpr, lowerExpr, d.start_span]
      exact (tracks_pushVariable id _).bind fun _ => tracks_milestone _
  | .binary span left op right => by
      rw [Expr.map, lowerExpr, lowerExpr]
      refine (tracks_lowerExpr left).bind fun _ => (tracks_lowerExpr right).bind fun _ => ?_
      exact (tracks_combineBinary op).bind fun _ => tracks_milestone _
  | .unary span op operand => by
      rw [Expr.map, lowerExpr, lowerExpr, negatedLiteral?_map]
      cases negatedLiteral? op operand with
      | some w => exact (tracks_pushLiteral w).bind fun _ => tracks_milestone _
      | none =>
          refine (tracks_lowerExpr operand).bind fun _ => (tracks_applyUnary op).bind fun _ => ?_
          exact tracks_milestone _
  | .compare span left ops comparators => by
      have hright := tracks_each comparators
      rw [Expr.map]
      unfold lowerExpr
      rw [d.start_span]
      -- only comparisons of two operands have code
      rcases ops with _ | ⟨op, _ | ⟨op', ops⟩⟩ <;> rcases comparators with _ | ⟨right, _ | ⟨right', comparators⟩⟩
      case cons.nil.cons.nil =>
        refine (tracks_lowerExpr left).bind fun _ => (hright right List.mem_cons_self).bind fun _ => ?_
        exact (tracks_combineCompare op).bind fun _ => tracks_milestone _
      all_goals exact tracks_fail rfl
  | .call span func args => by
      have hargs := tracks_each args
      obtain ⟨func', hcall, hname⟩ := Expr.exists_map_call d.name d.span span func args
      have hlength : (Expr.mapAll d.name d.span args).length = args.length := by rw [Expr.mapAll_eq_map, List.length_map]
      rw [hcall]
      unfold lowerExpr
      rw [hname, d.start_span, hlength]
      cases func.asName? with
      | none => exact tracks_fail rfl
      | some name =>
          simp only
          split
          · rcases args with _ | ⟨arg, _ | ⟨arg', args⟩⟩
            case cons.nil =>
              refine (hargs arg List.mem_cons_self).bind fun _ => tracks_finishPrint.bind fun _ => ?_
              exact tracks_milestone _
            all_goals exact tracks_fail rfl
          · refine (tracks_resolveCallee name _ _).bind_map fun callee => (tracks_lowerArguments hargs).bind fun _ => ?_
            exact (tracks_finishCall callee _).bind fun _ => tracks_milestone _

theorem tracks_each : ∀ es : List Expr, ∀ e ∈ es, Tracks d id (lowerExpr e) (lowerExpr (e.map d.name d.span))
  | [], e, he => absurd he List.not_mem_nil
  | e :: es, e', he' => by
      rcases List.mem_cons.mp he' with heq | he'
      · rw [heq]
        exact tracks_lowerExpr e
      · exact tracks_each es e' he'

end

/-! ## Statements -/

/-- What is no name cannot be stored to, under any disguise. -/
theorem tracks_targetName (target : Expr) (loc : Position) :
    Tracks d d.name (targetName target loc) (targetName (target.map d.name d.span) (d.place loc)) := by
  unfold targetName
  rw [Expr.asName?_map]
  cases target.asName? with
  | some name => exact tracks_pure name
  | none => exact tracks_fail rfl

/-- **Storing** a word: the variable keeps its register or gets a temporary, and a comment says its name. -/
theorem tracks_popVariable (v : VarRef) : Tracks d id (popVariable v) (popVariable v) := by
  have hend : ∀ r : Register,
      let code := look >>= fun s =>
        comment ("assign " ++ ((s.arena.lookup? v).map (·.name)).getD "" ++ " in " ++ r.name) >>= fun _ =>
          emitInstrs (pop r) >>= fun _ => bindVariable v r
      Tracks d id code code := by
    intro r
    refine tracks_look.bind_map fun s => (tracks_comment fun hquiet => ?_).bind fun _ => ?_
    · simp only [State.arena_disguise, Arena.lookup?_rename, Option.map_map, Function.comp_def, Variable.rename,
        text_of_loud hquiet]
    · exact (tracks_emitInstrs _).bind fun _ => tracks_bindVariable v r
  refine tracks_look.bind_map fun s => ?_
  simp only [State.arena_disguise, Arena.activeRegister?_rename]
  cases s.arena.activeRegister? v with
  | some r => exact hend r
  | none => exact tracks_allocateTemp.bind hend

/-- An assignment has one target; more of them are refused at the same place in disguise. -/
theorem tracks_lowerAssign (targets : List Expr) (value : Expr) (loc : Position) :
    Tracks d id (lowerAssign targets value loc)
      (lowerAssign (Expr.mapAll d.name d.span targets) (value.map d.name d.span) (d.place loc)) := by
  rcases targets with _ | ⟨target, _ | ⟨target', targets⟩⟩
  case cons.nil =>
    refine (tracks_targetName target loc).bind_map fun name => (tracks_defineLocal name loc).bind fun v => ?_
    exact (tracks_lowerExpr value).bind fun _ => tracks_popVariable v
  all_goals exact tracks_fail rfl

theorem tracks_lowerAugAssign (target : Expr) (op : BinaryOp) (value : Expr) (loc : Position) :
    Tracks d id (lowerAugAssign target op value loc)
      (lowerAugAssign (target.map d.name d.span) op (value.map d.name d.span) (d.place loc)) := by
  refine (tracks_targetName target loc).bind_map fun name => (tracks_resolveLocal name loc).bind fun v => ?_
  refine (tracks_pushVariable name loc).bind fun _ => (tracks_lowerExpr value).bind fun _ => ?_
  exact (tracks_combineBinary op).bind fun _ => tracks_popVariable v

/-- A return outside of functions is refused by its place. -/
theorem tracks_lowerReturn (value : Option Expr) (loc : Position) :
    Tracks d id (lowerReturn value loc) (lowerReturn (value.map (Expr.map d.name d.span)) (d.place loc)) := by
  refine tracks_look.bind_map fun s => ?_
  simp only [State.frames_disguise]
  cases s.frames with
  | nil => exact tracks_fail rfl
  | cons frame frames =>
      cases value with
      | none => exact (tracks_emitInstrs _).bind fun _ => tracks_emitInstrs _
      | some e =>
          refine (tracks_lowerExpr e).bind fun _ => (tracks_emitInstrs _).bind fun _ => ?_
          exact tracks_emitInstrs _

theorem tracks_lowerExprStmt (e : Expr) :
    Tracks d id (lowerExprStmt e) (lowerExprStmt (e.map d.name d.span)) := by
  refine tracks_look.bind_map fun s => ?_
  simp only [Expr.calledName?_map]
  show Tracks d id _ (if e.calledName? = some s.options.entry then _ else _)
  split
  · exact tracks_comment fun _ => rfl
  · exact (tracks_lowerExpr e).bind fun _ => tracks_emitInstrs _

/-! ## Control flow -/

theorem tracks_placeLabel (label : String) : Tracks d id (placeLabel label) (placeLabel label) :=
  (tracks_milestone _).bind fun _ => tracks_emit rfl

theorem tracks_jumpTo (label : String) : Tracks d id (jumpTo label) (jumpTo label) :=
  (tracks_milestone _).bind fun _ => tracks_emitInstrs _

theorem tracks_branchIfZero (p : Milestone) (label : String) :
    Tracks d id (branchIfZero p label) (branchIfZero p label) :=
  tracks_popTemp.bind fun _ => (tracks_milestone p).bind fun _ => (tracks_emitInstrs _).bind fun _ => tracks_free _

/-- Both ways to the end of a conditional are tracked if the code of the alternative is. -/
theorem tracks_lowerElse {orelse orelse' : Lower Unit} (h : Tracks d id orelse orelse') (label : String)
    (hasElse : Bool) (outer : ScopeId) :
    Tracks d id (lowerElse label orelse hasElse outer) (lowerElse label orelse' hasElse outer) := by
  unfold lowerElse
  split
  · refine (tracks_nextLabel _ _).bind fun _ => (tracks_jumpTo _).bind fun _ => (tracks_placeLabel _).bind fun _ => ?_
    exact h.bind fun _ => tracks_synchronise.bind fun _ => tracks_placeLabel _
  · exact tracks_placeLabel _

/-- **A conditional** is tracked if its branches are. -/
theorem tracks_lowerCond {body body' orelse orelse' : Lower Unit} (test : Expr) (hbody : Tracks d id body body')
    (horelse : Tracks d id orelse orelse') (hasElse : Bool) :
    Tracks d id (lowerCond test body orelse hasElse) (lowerCond (test.map d.name d.span) body' orelse' hasElse) := by
  refine tracks_look.bind_map fun _ => (tracks_nextLabel _ _).bind fun label => (tracks_lowerExpr test).bind fun _ => ?_
  refine tracks_synchronise.bind fun _ => (tracks_branchIfZero _ _).bind fun _ => ?_
  refine (tracks_inBlock fun _ => hbody.bind fun _ => tracks_synchronise).bind fun _ => ?_
  exact tracks_inBlock fun outer => tracks_lowerElse horelse label hasElse outer

/-- **A loop** is tracked if its body is. -/
theorem tracks_lowerLoop {body body' : Lower Unit} (test : Expr) (hbody : Tracks d id body body') :
    Tracks d id (lowerLoop test body) (lowerLoop (test.map d.name d.span) body') := by
  refine tracks_inBlock fun _ => tracks_look.bind_map fun _ => (tracks_nextLabel _ _).bind fun _ => ?_
  refine tracks_look.bind_map fun _ => (tracks_nextLabel _ _).bind fun _ => tracks_synchronise.bind fun _ => ?_
  refine (tracks_placeLabel _).bind fun _ => (tracks_lowerExpr test).bind fun _ => ?_
  refine (tracks_branchIfZero _ _).bind fun _ => hbody.bind fun _ => tracks_synchronise.bind fun _ => ?_
  exact (tracks_jumpTo _).bind fun _ => tracks_placeLabel _

/-! ## Functions -/

/-- Parameters get the registers of arguments in turn. -/
theorem tracks_placeParameters (names : List String) :
    Tracks d (List.map fun p => (d.name p.1, p.2)) (placeParameters names) (placeParameters (names.map d.name)) := by
  induction names with
  | nil => exact tracks_pure _
  | cons name names ih =>
      refine (tracks_allocate _).bind fun r => ?_
      cases r with
      | none => exact tracks_fail rfl
      | some r => exact ih.bind_map fun placed => tracks_pure ((name, r) :: placed)

/-- The size of a frame depends on how many names are stored to, and distinct names stay distinct. -/
theorem tracks_planFrame (name : String) (params : List String) (stmts : List Stmt) (loc : Position) :
    Tracks d id (planFrame name params stmts loc)
      (planFrame name (params.map d.name) (Stmt.mapAll d.name d.span stmts) (d.place loc)) := by
  unfold planFrame
  have hduplicate : duplicate? [] (params.map d.name) = (duplicate? [] params).map d.name :=
    duplicate?_map d.name_injective [] params
  rw [List.length_map, hduplicate]
  cases checkParameters params.length with
  | error e => exact tracks_fail rfl
  | ok _ =>
      cases duplicate? [] params with
      | some p => exact tracks_fail rfl
      | none =>
          refine tracks_look.bind_map fun s => ?_
          have hcount := countLocals_map d.name_injective d.span (fun x => (s.arena.resolve? s.current x).isSome)
            (fun x => ((s.disguise d).arena.resolve? (s.disguise d).current x).isSome)
            (fun x => congrArg Option.isSome (Arena.resolve?_rename d.name_injective x)) params stmts
          simp only [hcount]
          cases Frame.ofSlots (countLocals params stmts fun x => (s.arena.resolve? s.current x).isSome) with
          | error e => exact tracks_fail rfl
          | ok frame => exact tracks_pure frame

theorem tracks_skipDefinition (outer : ScopeId) : Tracks d id (skipDefinition outer) (skipDefinition outer) := by
  refine tracks_look.bind_map fun s => ?_
  show Tracks d id _ (if s.frames.isEmpty then _ else _)
  split
  · exact tracks_pure _
  · exact (tracks_nextLabel _ _).bind fun _ => (tracks_jumpTo _).bind fun _ => tracks_pure _

/-- The function is entered under its own name, with its parameters in disguise. -/
theorem tracks_openFunction (outer : ScopeId) (name : String) (params : List String) (loc : Position) :
    Tracks d id (openFunction outer name params loc) (openFunction outer name (params.map d.name) (d.place loc)) := by
  refine (tracks_placeParameters params).bind_map fun placed => (tracks_pushFunction _ _).bind fun scope => ?_
  refine tracks_look.bind_map fun s => tracks_look.bind_map fun t => ?_
  have hlabel : functionLabel (s.arena.rename d.name) outer scope name = functionLabel s.arena outer scope name := by
    simp only [functionLabel, Arena.get_rename, Scope.name_rename]
  have hdefine : (t.arena.rename d.name).defineFunction outer
      ⟨name, functionLabel s.arena outer scope name, placed.map fun p => (d.name p.1, p.2), resultRegister⟩ =
        (t.arena.defineFunction outer ⟨name, functionLabel s.arena outer scope name, placed, resultRegister⟩).map
          (·.rename d.name) := Arena.defineFunction_rename (Callee.mk name _ placed resultRegister)
  simp only [State.arena_disguise, hlabel, hdefine]
  cases hresult : t.arena.defineFunction outer
      ⟨name, functionLabel s.arena outer scope name, placed, resultRegister⟩ with
  | error e =>
      obtain rfl : e = .duplicateFunction name := by
        unfold Arena.defineFunction at hresult
        split at hresult
        · exact (Except.error.inj hresult).symm
        · exact absurd hresult (by simp)
      exact tracks_fail rfl
  | ok arena =>
      refine (tracks_setArena rfl).bind fun _ => (Tracks.forM_map ?_ _).bind fun _ => tracks_pure _
      exact fun p => (tracks_declareParameter _ _ _).discard.bind fun _ => tracks_note rfl

theorem tracks_functionHeader (label : String) :
    Tracks d id (emitAll (functionHeader label)) (emitAll (functionHeader label)) :=
  (tracks_emit rfl).bind fun _ => (tracks_emit rfl).bind fun _ => (tracks_emit rfl).bind fun _ =>
    (tracks_emit rfl).bind fun _ => tracks_pure ()

theorem tracks_enterFunction (name : String) (params : List String) (stmts : List Stmt) (loc : Position) :
    Tracks d id (enterFunction name params stmts loc)
      (enterFunction name (params.map d.name) (Stmt.mapAll d.name d.span stmts) (d.place loc)) := by
  refine tracks_look.bind_map fun s => (tracks_planFrame name params stmts loc).bind fun frame => ?_
  refine (tracks_note rfl).bind fun _ => tracks_synchronise.bind fun _ => (tracks_skipDefinition _).bind fun _ => ?_
  refine (tracks_openFunction _ name params loc).bind fun opened => (tracks_change fun s => ?_).bind fun _ => ?_
  · rfl
  exact (tracks_functionHeader _).bind fun _ => (tracks_emitInstrs _).bind fun _ => tracks_pure _

theorem tracks_leaveFunction (outer : ScopeId) (name : String) (o : Opening) :
    Tracks d id (leaveFunction outer name o) (leaveFunction outer name o) := by
  have hskip : Tracks d id (placeSkip o.skip) (placeSkip o.skip) := by
    unfold placeSkip
    split
    · exact tracks_placeLabel _
    · exact tracks_pure _
  refine tracks_releaseCurrent.bind fun _ => (tracks_change fun s => ?_).bind fun _ => (tracks_emit rfl).bind fun _ => ?_
  · rfl
  exact hskip.bind fun _ => tracks_look.bind_map fun _ => (tracks_note rfl).bind fun _ => tracks_milestone _

/-- **A function** is tracked if its body is. -/
theorem tracks_lowerFunction {body body' : Lower Unit} (hbody : Tracks d id body body') (name : String)
    (params : List String) (stmts : List Stmt) (loc : Position) :
    Tracks d id (lowerFunction name params stmts body loc)
      (lowerFunction name (params.map d.name) (Stmt.mapAll d.name d.span stmts) body' (d.place loc)) := by
  have hlast : (Stmt.mapAll d.name d.span stmts).getLast?.any Stmt.isReturn = stmts.getLast?.any Stmt.isReturn := by
    rw [Stmt.mapAll_eq_map, List.getLast?_map]
    cases stmts.getLast? with
    | none => rfl
    | some st => exact Stmt.isReturn_map st
  refine tracks_look.bind_map fun s => (tracks_enterFunction name params stmts loc).bind fun o => hbody.bind fun _ => ?_
  have hzero : Tracks d id (returnZero o.frame) (returnZero o.frame) :=
    (tracks_comment fun _ => rfl).bind fun _ => (tracks_emitInstrs _).bind fun _ => tracks_emitInstrs _
  simp only [hlast]
  split
  · exact tracks_leaveFunction _ name o
  · exact hzero.bind fun _ => tracks_leaveFunction _ name o

mutual

/-- **The code of a statement** in disguise. -/
theorem tracks_lowerStmt : ∀ st : Stmt, Tracks d id (lowerStmt st) (lowerStmt (st.map d.name d.span))
  | .pass span => by
      rw [Stmt.map, lowerStmt, lowerStmt]
      exact tracks_pure _
  | .ret span value => by
      rw [Stmt.map, lowerStmt, lowerStmt, d.start_span]
      exact tracks_lowerReturn value _
  | .expr span value => by
      rw [Stmt.map, lowerStmt, lowerStmt]
      exact tracks_lowerExprStmt value
  | .assign span targets value => by
      rw [Stmt.map, lowerStmt, lowerStmt, d.start_span]
      exact tracks_lowerAssign targets value _
  | .augAssign span target op value => by
      rw [Stmt.map, lowerStmt, lowerStmt, d.start_span]
      exact tracks_lowerAugAssign target op value _
  | .cond span test body orelse => by
      have hasElse : (Stmt.mapAll d.name d.span orelse).isEmpty = orelse.isEmpty := by cases orelse <;> rfl
      rw [Stmt.map, lowerStmt, lowerStmt, hasElse]
      exact tracks_lowerCond test (tracks_lowerBlock body) (tracks_lowerBlock orelse) _
  | .loop span test body => by
      rw [Stmt.map, lowerStmt, lowerStmt]
      exact tracks_lowerLoop test (tracks_lowerBlock body)
  | .funcDef span name params body => by
      rw [Stmt.map, lowerStmt, lowerStmt, d.start_span]
      exact tracks_lowerFunction (tracks_lowerBlock body) name params body _

theorem tracks_lowerBlock : ∀ sts : List Stmt,
    Tracks d id (lowerBlock sts) (lowerBlock (Stmt.mapAll d.name d.span sts))
  | [] => by
      rw [Stmt.mapAll, lowerBlock]
      exact tracks_milestone _
  | st :: sts => by
      rw [Stmt.mapAll, lowerBlock, lowerBlock]
      exact (tracks_milestone _).bind fun _ => (tracks_lowerStmt st).bind fun _ => tracks_lowerBlock sts

end

/-! ## Modules -/

/-- **The code of a module** in disguise. -/
theorem tracks_lowerModule (m : Module) : Tracks d id (lowerModule m) (lowerModule (m.map d.name d.span)) :=
  (tracks_emit rfl).bind fun _ => tracks_lowerBlock m.body

/-- Generation starts from a disguised state if it is told to leave comments out where the disguise does. -/
theorem State.disguise_initial (o : Options) :
    (State.initial o).disguise d = .initial { o with comments := o.comments && !d.quiet } := by
  cases hquiet : d.quiet <;> simp [State.disguise, State.initial, hquiet, Arena.rename_initial]

/-- All that a disguise changes in a listing is whether it has comments. -/
theorem State.listing_disguise (s : State) :
    (s.disguise d).listing = if d.quiet then s.listing.uncommented else s.listing := by
  cases hquiet : d.quiet <;> simp [State.listing, State.disguise, Listing.uncommented, hquiet]

/-- **Code generation sees no names, places and comments.** The assembly of a disguised module is that of the
    module itself, with or without comments; and where the module has none, the fault is the same in disguise. -/
theorem generate_map (d : Disguise) (o : Options) (m : Module) :
    generate { o with comments := o.comments && !d.quiet } (m.map d.name d.span) =
      match generate o m with
      | .ok l => .ok (if d.quiet then l.uncommented else l)
      | .error e => .error (e.map d.name d.place) := by
  have hrun := tracks_lowerModule (d := d) m (.initial o)
  unfold TracksAt at hrun
  rw [State.disguise_initial] at hrun
  unfold generate generateLogged
  rw [hrun]
  cases (lowerModule m).run (.initial o) with
  | ok _ t => exact congrArg Except.ok t.listing_disguise
  | error e t => rfl

/-! ## Comments -/

/-- Without comments, the assembly is what is left of it when the comments are taken out. -/
theorem generate_uncommented (o : Options) (m : Module) : generate { o with comments := false } m =
    match generate o m with
    | .ok l => .ok l.uncommented
    | .error e => .error e := by
  have hmap := generate_map .silence o m
  simp only [Disguise.silence, Module.map_id, Bool.not_true, Bool.and_false] at hmap
  rw [hmap]
  cases generate o m with
  | ok l => rfl
  | error e => exact congrArg Except.error e.map_id

/-- **Comments never change code.** With and without comments, code generation fails with the same fault, or both
    times it gives the same data and, apart from the comments, the same lines of code; and there are no comments in
    the code without them. -/
theorem comments_change_nothing (entry : String) (m : Module) :
    match generate { comments := true, entry := entry } m, generate { comments := false, entry := entry } m with
    | .ok l, .ok l' => l.data = l'.data ∧ l.code.filter (fun line => !line.isComment) = l'.code ∧
        ∀ line ∈ l'.code, line.isComment = false
    | .error e, .error e' => e = e'
    | _, _ => False := by
  rw [generate_uncommented { comments := true, entry := entry } m]
  cases generate { comments := true, entry := entry } m with
  | error e => rfl
  | ok l =>
      refine ⟨rfl, rfl, fun line hline => ?_⟩
      simpa using (List.mem_filter.mp hline).2

/-! ## Names of variables -/

/-- Where there are no comments, renaming variables changes the assembly not at all, and a fault in the names it
    shows. -/
theorem generate_rename {r : String → String} (hr : Function.Injective r) {o : Options} (ho : o.comments = false)
    (m : Module) : generate o (m.rename r) =
      match generate o m with
      | .ok l => .ok l
      | .error e => .error (e.map r id) := by
  have hoptions : { o with comments := false } = o := by rw [← ho]
  have hplain := generate_uncommented o m
  have hmap := generate_map (.ofNames r hr) o m
  simp only [Disguise.ofNames, Disguise.silence, Bool.not_true, Bool.and_false, hoptions] at hmap hplain
  rw [Module.rename, hmap]
  cases hm : generate o m with
  | error e => rfl
  | ok l =>
      -- there was no comment to leave out
      rw [hm] at hplain
      exact hplain.symm

/-- **The names of variables leave no trace in the code.** When the variables of a module are renamed so that
    different names stay different, and there are no comments, the assembly is the same, line for line; and if there
    is none, a failure of the same kind is reported at the same place. -/
theorem variable_names_leave_no_trace {r : String → String} (hr : Function.Injective r) {o : Options}
    (ho : o.comments = false) (m : Module) :
    match generate o m, generate o (m.rename r) with
    | .ok l, .ok l' => l' = l
    | .error e, .error e' => e'.diagnostic.kind = e.diagnostic.kind ∧
        e'.diagnostic.position? = e.diagnostic.position?
    | _, _ => False := by
  rw [generate_rename hr ho m]
  cases generate o m with
  | ok l => rfl
  | error e => exact ⟨e.kind_map r id, by rw [e.position?_map, Option.map_id]; rfl⟩

theorem generate_of_run {o : Options} {m : Module} (hrun : (lowerModule m).run (.initial o) = .ok () t) :
    generate o m = .ok t.listing := by
  unfold generate generateLogged
  rw [hrun]

/-- The renaming that exchanges two names. -/
def exchange (x y name : String) : String := if name = x then y else if name = y then x else name

/-- Exchanging twice restores a name. -/
theorem exchange_injective (x y : String) : Function.Injective (exchange x y) := by
  have hinvolutive : Function.Involutive (exchange x y) := by
    intro name
    unfold exchange
    grind
  exact hinvolutive.injective

/-- `def f(x)`, with a loop and a variable of its own; and a variable of the module that is called `x`, too. -/
def loopModule : Module :=
  let x : Expr := .name default "x" .load
  ⟨[.funcDef default "f" ["x"]
      [.loop default x [.assign default [.name default "y" .store] x],
       .ret default (some x)],
    .assign default [.name default "x" .store] (.call default (.name default "f" .load) [.const default (.int 5)])],
    default⟩

/-- `def f(x)` that reads a variable without a value. -/
def strayModule : Module :=
  ⟨[.funcDef default "f" ["x"] [.ret default (some (.name ⟨⟨"stray", 2, 8⟩, ⟨"stray", 2, 9⟩⟩ "z" .load))]], default⟩

set_option maxRecDepth 4000 in
theorem exists_run_loopModule : ∃ t, (lowerModule loopModule).run (.initial {}) = .ok () t ∧ t.code ≠ #[] :=
  exists_run_ok _ (by cbv)

set_option maxRecDepth 4000 in
theorem generate_strayModule : generate {} strayModule = .error (.undefinedName .var "z" ⟨"stray", 2, 8⟩) := by cbv

/-- A variable may take the name of a function, and the code stays as it is; a variable without a value is reported
    under its new name. -/
theorem variable_names_leave_no_trace_exchange :
    (∃ l, generate {} loopModule = .ok l ∧ generate {} (loopModule.rename (exchange "x" "f")) = .ok l) ∧
      ∃ e, generate {} (strayModule.rename (exchange "z" "f")) = .error e ∧
        e.diagnostic.kind = .undefinedName .var ∧ e.diagnostic.position? = some ⟨"stray", 2, 8⟩ := by
  constructor
  · obtain ⟨t, hrun, _⟩ := exists_run_loopModule
    have hgenerate := generate_of_run hrun
    have hsame := variable_names_leave_no_trace (o := {}) (exchange_injective "x" "f") rfl loopModule
    rw [hgenerate] at hsame
    cases hrenamed : generate {} (loopModule.rename (exchange "x" "f")) with
    | ok l => rw [hrenamed] at hsame; exact ⟨t.listing, hgenerate, congrArg Except.ok hsame⟩
    | error e => rw [hrenamed] at hsame; exact hsame.elim
  · have hsame := variable_names_leave_no_trace (o := {}) (exchange_injective "z" "f") rfl strayModule
    rw [generate_strayModule] at hsame
    cases hrenamed : generate {} (strayModule.rename (exchange "z" "f")) with
    | ok l => rw [hrenamed] at hsame; exact hsame.elim
    | error e => rw [hrenamed] at hsame; exact ⟨e, rfl, hsame⟩

/-! ## Places of nodes -/

/-- The places of nodes show only in faults. -/
theorem generate_erase (o : Options) (m : Module) : generate o m.erase =
    match generate o m with
    | .ok l => .ok l
    | .error e => .error (e.map id fun _ => .unknown) := by
  have hmap := generate_map .erasure o m
  simp only [Disguise.erasure, Bool.not_false, Bool.and_true] at hmap
  rw [← Module.map_erase, hmap]
  cases generate o m <;> rfl

end Offside.Lower
