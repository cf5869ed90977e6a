import Mathlib
import Offside.Proofs.Modules

/-!
# `Proofs.Operations` — operations on scopes, in any order

Code generation works on scopes by a few operations (`ScopeOp`): scopes are made, names are bound in them,
variables get and lose registers, and the variables of a block move to the scope around it. Code generation
keeps to an order: it leaves the block it entered last, and binds names in the current scope only. Here the
operations come in **any** order, on any scopes and variables that exist (`Workbench.after`).

One operation does one of four things to an arena (`Arena.Effect`): it adds a scope, adds a variable, moves
the variables of a scope, or leaves scopes, names and slots alone. What holds of every arena is proved by
one case for each; here this is done for the tree that the scopes form (`Arena.Orderly`).

Beside the arena stand two tables that are changed entry by entry: an index of names (`NameIndex`), the position
of each name in each scope, and the slots of each frame (`SlotTable`), recorded one by one as names are bound.
-/

namespace Offside

open Machine

/-! ## Operations -/

/-- What can be done to scopes and their variables. -/
inductive ScopeOp where
  | pushFunction (parent : ScopeId) (name : String)
  | pushBlock (parent : ScopeId)
  | define (scope : ScopeId) (name : String)
  | declare (scope : ScopeId) (name : String) (r : Register)
  | bind (v : VarRef) (r : Register)
  | unbind (v : VarRef)
  | release (scope : ScopeId)
  | hoist (scope : ScopeId)
  | defineFunction (scope : ScopeId) (f : Callee)
  | nextLabel (scope : ScopeId) (purpose : String)
deriving DecidableEq

/-- The scope of a function has a frame of its own, and so has the global scope; a block shares that of its
    parent. -/
inductive ScopeKind where
  | function
  | block
deriving DecidableEq

namespace ScopeOp

/-- The move of code generation that does the operation. A function whose name is taken is not added. -/
def perform : ScopeOp → Lower Unit
  | .pushFunction parent name => discard (Lower.pushFunction parent name)
  | .pushBlock parent => discard (Lower.pushBlock parent)
  | .define scope name => discard (Lower.define scope name)
  | .declare scope name r => discard (Lower.declareParameter scope name r)
  | .bind v r => Lower.bindVariable v r
  | .unbind v => discard (Lower.unbindVariable v)
  | .release scope => discard (Lower.release scope)
  | .hoist scope => Lower.hoist scope
  | .defineFunction scope f => do
    match (← Lower.look).arena.defineFunction scope f with
    | .error _ => return ()
    | .ok arena => Lower.change fun s => { s with arena := arena }
  | .nextLabel scope purpose => discard (Lower.nextLabel scope purpose)

/-- The operation is on a scope, or on a variable, that exists. -/
def applies (a : Arena) : ScopeOp → Bool
  | .pushFunction scope _ | .pushBlock scope | .define scope _ | .declare scope _ _ | .release scope | .hoist scope
  | .defineFunction scope _ | .nextLabel scope _ => scope < a.scopes.size
  | .bind v _ | .unbind v => (a.lookup? v).isSome

/-- The kind of the scope that the operation makes. -/
def made? : ScopeOp → Option ScopeKind
  | .pushFunction _ _ => some .function
  | .pushBlock _ => some .block
  | _ => none

/-- The kinds of all scopes, in the order in which they are made. The global scope is there from the start. -/
def kinds (ops : List ScopeOp) : List ScopeKind := .function :: ops.filterMap made?

theorem kinds_snoc (ops : List ScopeOp) (op : ScopeOp) : kinds (ops ++ [op]) = kinds ops ++ op.made?.toList := by
  unfold kinds
  rw [List.filterMap_append, List.cons_append]
  cases h : op.made? <;> simp [h]

end ScopeOp

/-! ## The index of names -/

/-- For each scope the position of each name that is bound in it. -/
abbrev NameIndex := ScopeId → String → Option Nat

namespace NameIndex

/-- No name has a position. -/
def empty : NameIndex := fun _ _ => none

/-- The name gets a position in a scope. -/
def set (t : NameIndex) (scope : ScopeId) (name : String) (k : Nat) : NameIndex := fun i x =>
  if i = scope ∧ x = name then some k else t i x

/-- A scope forgets its names. -/
def clear (t : NameIndex) (scope : ScopeId) : NameIndex := fun i x => if i = scope then none else t i x

/-- The names of variables get positions in a scope, one after the other from a position on. -/
def enter (t : NameIndex) (scope : ScopeId) : Nat → List Variable → NameIndex
  | _, [] => t
  | k, v :: rest => (t.set scope v.name k).enter scope (k + 1) rest

/-- The variable that a name means in a scope: that of the first scope of the chain that knows the name. -/
def resolve? (t : NameIndex) (a : Arena) (scope : ScopeId) (name : String) : Option VarRef :=
  (a.chain scope).findSome? fun id => (t id name).map (⟨id, ·⟩)

/-- **The index agrees with the arena**: the position of a name is that of the variable that it means. -/
def Mirrors (t : NameIndex) (a : Arena) : Prop := ∀ i x, t i x = (a.get i).find? x

/-- Then names mean the same, looked up or searched for. -/
theorem Mirrors.resolve?_eq {t : NameIndex} {a : Arena} (h : t.Mirrors a) (scope : ScopeId) (name : String) :
    t.resolve? a scope name = a.resolve? scope name := by
  unfold resolve? Arena.resolve?
  simp only [h _ name]

/-- The index after an operation on an arena: a new scope knows no name, a new variable is entered, and the
    variables of a scope are entered in the scope that they move to. -/
def after (t : NameIndex) (a : Arena) : ScopeOp → NameIndex
  | .pushFunction _ _ | .pushBlock _ => t.clear a.scopes.size
  | .define scope name =>
    match t.resolve? a scope name with
    | some _ => t
    | none => t.set scope name (a.get scope).vars.length
  | .declare scope name _ => t.set scope name (a.get scope).vars.length
  | .hoist scope =>
    match (a.get scope).parent with
    | none => t
    | some parent => (t.clear scope).enter parent (a.get parent).vars.length (a.get scope).vars
  | _ => t

end NameIndex

/-! ## The slots of frames -/

/-- For each scope the slots that were recorded in its frame, each with its name. -/
abbrev SlotTable := ScopeId → List (String × Nat)

namespace SlotTable

/-- No slot was recorded. -/
def empty : SlotTable := fun _ => []

/-- A scope forgets its slots. -/
def clear (t : SlotTable) (scope : ScopeId) : SlotTable := fun i => if i = scope then [] else t i

/-- A name without a slot gets the next one, whose number is that of the slots recorded so far. -/
def record (t : SlotTable) (root : ScopeId) (name : String) : SlotTable := fun i =>
  if i = root ∧ (t i).lookup name = none then t i ++ [(name, (t i).length)] else t i

/-- **The table agrees with the arena**: every name is recorded with its position. -/
def Mirrors (t : SlotTable) (a : Arena) : Prop := ∀ i, t i = (a.get i).slotNames.zipIdx

/-- The table after an operation on an arena: a new scope has no slots, and a new variable needs one for its name
    in the frame of its scope. -/
def after (t : SlotTable) (a : Arena) : ScopeOp → SlotTable
  | .pushFunction _ _ | .pushBlock _ => t.clear a.scopes.size
  | .define scope name => if (a.resolve? scope name).isSome then t else t.record (a.get scope).root name
  | .declare scope name _ => t.record (a.get scope).root name
  | _ => t

end SlotTable

/-! ## Sequences of operations -/

/-- The state that operations lead to, and beside it the index of names and the slots of frames. -/
structure Workbench where
  state : Lower.State
  index : NameIndex
  slots : SlotTable

namespace Workbench

/-- Nothing was done yet. -/
def fresh (o : Options) : Workbench := ⟨.initial o, .empty, .empty⟩

/-- One operation, if it is on something that exists. -/
def step (w : Workbench) (op : ScopeOp) : Option Workbench :=
  if op.applies w.state.arena then
    match op.perform.run w.state with
    | .ok _ s => some ⟨s, w.index.after w.state.arena op, w.slots.after w.state.arena op⟩
    | .error _ _ => none
  else none

/-- Operations on a fresh arena, one after the other. -/
def after (o : Options) (ops : List ScopeOp) : Option Workbench := ops.foldlM step (fresh o)

/-- **Runs.** What holds of a fresh arena and is kept by every operation holds after all of them. -/
theorem after_induction {o : Options} {P : List ScopeOp → Workbench → Prop} (hfresh : P [] (fresh o))
    (hstep : ∀ ops w op w', after o ops = some w → P ops w → w.step op = some w' → P (ops ++ [op]) w')
    (ops : List ScopeOp) (w : Workbench) (h : after o ops = some w) : P ops w := by
  induction ops using List.reverseRecOn generalizing w with
  | nil =>
      obtain rfl : fresh o = w := Option.some.inj h
      exact hfresh
  | append_singleton ops op ih =>
      unfold after at h
      rw [List.foldlM_append] at h
      obtain ⟨mid, hmid, hlast⟩ := Option.bind_eq_some_iff.mp h
      rw [List.foldlM_cons] at hlast
      obtain ⟨last, hop, hnil⟩ := Option.bind_eq_some_iff.mp hlast
      obtain rfl : last = w := Option.some.inj hnil
      exact hstep ops mid op last hmid (ih mid hmid) hop

/-- What operations lead to is found by doing them. -/
theorem exists_after {o : Options} {ops : List ScopeOp} {P : Workbench → Prop} [DecidablePred P]
    (h : (after o ops).any (fun w => decide (P w)) = true) : ∃ w, after o ops = some w ∧ P w := by
  obtain ⟨w, hw, hP⟩ := (Option.any_eq_true _ _).mp h
  exact ⟨w, hw, of_decide_eq_true hP⟩

end Workbench

/-! ## What an operation does to the arena -/

namespace ScopeOp

/-- The arena after the operation. -/
def act (a : Arena) : ScopeOp → Arena
  | .pushFunction parent name => (a.pushFunction parent name).2
  | .pushBlock parent => (a.pushBlock parent).2
  | .define scope name => if (a.resolve? scope name).isSome then a else (a.insert scope name none).2
  | .declare scope name r => (a.insert scope name (some r)).2
  | .bind v r => a.updateVariable v (·.bind r)
  | .unbind v => if (a.activeRegister? v).isSome then a.updateVariable v (·.release) else a
  | .release scope => a.releaseScope scope
  | .hoist scope => a.hoist scope
  | .defineFunction scope f => (a.defineFunction scope f).toOption.getD a
  | .nextLabel scope purpose => (a.nextLabel scope purpose).2

open Lower

/-- The script ends well, in a state with the given arena. -/
def LeadsTo {α : Type} (x : Lower α) (s : State) (a : Arena) : Prop := ∃ r t, x.run s = .ok r t ∧ t.arena = a

theorem LeadsTo.discard {α : Type} {x : Lower α} {s : State} {a : Arena} (h : LeadsTo x s a) :
    LeadsTo (discard x) s a := by
  obtain ⟨r, t, hrun, harena⟩ := h
  exact ⟨(), t, run_discard_ok.mpr ⟨r, hrun⟩, harena⟩

theorem leadsTo_free (r : Register) (s : State) : LeadsTo (free r) s s.arena := by
  unfold free
  by_cases hr : r.classOf?.isSome = true
  · rw [if_pos hr]
    exact ⟨(), _, rfl, rfl⟩
  · rw [if_neg hr]
    exact ⟨(), s, rfl, rfl⟩

theorem leadsTo_forM {β : Type} {f : β → Lower Unit} (hf : ∀ b s, LeadsTo (f b) s s.arena) (l : List β) (s : State) :
    LeadsTo (l.forM f) s s.arena := by
  induction l generalizing s with
  | nil => exact ⟨(), s, rfl, rfl⟩
  | cons b rest ih =>
      obtain ⟨_, u, hu, hub⟩ := hf b s
      obtain ⟨_, t, ht, htu⟩ := ih u
      exact ⟨(), t, run_forM_cons_ok.mpr ⟨u, hu, ht⟩, htu.trans hub⟩

theorem leadsTo_define (scope : ScopeId) (name : String) (s : State) :
    LeadsTo (Lower.define scope name) s (act s.arena (.define scope name)) := by
  unfold LeadsTo Lower.define
  rw [run_look_bind]
  simp only [act]
  cases s.arena.resolve? scope name with
  | some v => exact ⟨v, s, rfl, rfl⟩
  | none => exact ⟨_, _, rfl, rfl⟩

theorem leadsTo_unbind (v : VarRef) (s : State) :
    LeadsTo (Lower.unbindVariable v) s (act s.arena (.unbind v)) := by
  unfold LeadsTo Lower.unbindVariable
  rw [run_look_bind]
  simp only [act]
  cases s.arena.activeRegister? v with
  | none => exact ⟨none, s, rfl, rfl⟩
  | some r =>
      obtain ⟨_, t, ht, harena⟩ := leadsTo_free r { s with arena := s.arena.updateVariable v (·.release) }
      exact ⟨some r, t, run_bind_ok.mpr ⟨(), _, rfl, run_bind_ok.mpr ⟨(), t, ht, rfl⟩⟩, harena⟩

theorem leadsTo_release (scope : ScopeId) (s : State) :
    LeadsTo (Lower.release scope) s (s.arena.releaseScope scope) := by
  unfold LeadsTo Lower.release
  rw [run_look_bind]
  obtain ⟨_, t, ht, harena⟩ := leadsTo_forM (fun p => leadsTo_free p.2) (s.arena.get scope).activeRegisters
    { s with arena := s.arena.releaseScope scope }
  exact ⟨_, _, run_bind_ok.mpr ⟨(), _, rfl, run_bind_ok.mpr ⟨(), t, ht, rfl⟩⟩, harena⟩

theorem leadsTo_hoist (scope : ScopeId) (s : State) : LeadsTo (Lower.hoist scope) s (s.arena.hoist scope) := by
  unfold LeadsTo Lower.hoist
  rw [run_look_bind]
  cases hparent : (s.arena.get scope).parent with
  | none =>
      refine ⟨(), s, rfl, ?_⟩
      unfold Arena.hoist
      rw [hparent]
  | some parent =>
      have hnotes : ∀ (v : Variable) (u : State), LeadsTo (note (.variableHoisted v.name scope parent)) u u.arena := by
        intro v u
        exact ⟨(), _, rfl, rfl⟩
      obtain ⟨_, t, ht, harena⟩ := leadsTo_forM hnotes (s.arena.get scope).vars
        { s with arena := s.arena.hoist scope }
      exact ⟨(), t, run_bind_ok.mpr ⟨(), _, rfl, ht⟩, harena⟩

/-- **Operations never fail**, and what they do to the arena depends on the arena alone. -/
theorem leadsTo_perform (op : ScopeOp) (s : State) : LeadsTo op.perform s (act s.arena op) := by
  cases op with
  | pushFunction | pushBlock | declare | bind | nextLabel => exact ⟨(), _, rfl, rfl⟩
  | define scope name => exact (leadsTo_define scope name s).discard
  | unbind v => exact (leadsTo_unbind v s).discard
  | release scope => exact (leadsTo_release scope s).discard
  | hoist scope => exact leadsTo_hoist scope s
  | defineFunction scope f =>
      unfold LeadsTo perform
      rw [run_look_bind]
      simp only [act]
      cases s.arena.defineFunction scope f with
      | error e => exact ⟨(), s, rfl, rfl⟩
      | ok arena => exact ⟨(), _, rfl, rfl⟩

end ScopeOp

/-- What a step on the workbench does: the operation is done to the arena and to the tables. -/
theorem Workbench.step_eq_some {w w' : Workbench} {op : ScopeOp} (h : w.step op = some w') :
    op.applies w.state.arena = true ∧ w'.state.arena = op.act w.state.arena ∧
      w'.index = w.index.after w.state.arena op ∧ w'.slots = w.slots.after w.state.arena op := by
  unfold step at h
  by_cases happlies : op.applies w.state.arena = true
  · rw [if_pos happlies] at h
    obtain ⟨_, t, hrun, harena⟩ := op.leadsTo_perform w.state
    rw [hrun] at h
    obtain rfl := Option.some.inj h
    exact ⟨happlies, harena, rfl, rfl⟩
  · rw [if_neg happlies] at h
    cases h

namespace Arena

variable {a b : Arena} {op : ScopeOp} {i p : ScopeId}

/-- **`b` has the scopes, the names and the slots of `a`**: they differ at most in registers, labels and
    functions. -/
structure Keeps (a b : Arena) : Prop where
  size_eq : b.scopes.size = a.scopes.size
  parent_eq : ∀ i, (b.get i).parent = (a.get i).parent
  root_eq : ∀ i, (b.get i).root = (a.get i).root
  slotNames_eq : ∀ i, (b.get i).slotNames = (a.get i).slotNames
  vars_eq : ∀ i, (b.get i).vars.map Variable.shape = (a.get i).vars.map Variable.shape

theorem Keeps.refl (a : Arena) : Keeps a a := ⟨rfl, fun _ => rfl, fun _ => rfl, fun _ => rfl, fun _ => rfl⟩

theorem Alike.keeps (h : Alike a b) : Keeps a b := ⟨h.size_eq, h.parent_eq, h.root_eq, h.slotNames_eq, h.vars_eq⟩

theorem Defined.keeps {s : ScopeId} {f : Callee} (h : Defined a b s f) : Keeps a b := by
  refine ⟨h.size_eq, ?_, ?_, ?_, ?_⟩ <;> intro i <;> rw [h.get_eq]

theorem Keeps.lookup?_some (h : Keeps a b) {v : VarRef} {var : Variable} (hv : b.lookup? v = some var) :
    ∃ var', a.lookup? v = some var' ∧ var'.name = var.name ∧ var'.slot = var.slot := by
  have hmap : (a.lookup? v).map Variable.shape = (b.lookup? v).map Variable.shape := by
    unfold lookup?
    rw [← List.getElem?_map, ← List.getElem?_map, h.vars_eq]
  rw [hv, Option.map_some, Option.map_eq_some_iff] at hmap
  obtain ⟨var', hvar', hshape⟩ := hmap
  exact ⟨var', hvar', Variable.shape_eq_iff.mp hshape⟩

/-- **What an operation does to an arena** and to tables that agree with it, one case for each thing that can
    happen. -/
inductive Effect (a : Arena) (op : ScopeOp) (b : Arena) : Prop where
  | kept (hmade : op.made? = none) (h : Keeps a b) (hindex : ∀ t : NameIndex, t.Mirrors a → t.after a op = t)
      (htable : ∀ t : SlotTable, t.after a op = t)
  /-- A scope without variables is made under an old one, with a frame of its own or that of its parent. -/
  | pushed {p : ScopeId} {sc : Scope} (hp : p < a.scopes.size) (hb : b = ⟨a.scopes.push sc⟩) (hparent : sc.parent = some p)
      (hvars : sc.vars = []) (hslots : sc.slotNames = [])
      (hroot : (op.made? = some .function ∧ sc.root = a.scopes.size) ∨
        (op.made? = some .block ∧ sc.root = (a.get p).root))
      (hindex : ∀ t : NameIndex, t.after a op = t.clear a.scopes.size)
      (htable : ∀ t : SlotTable, t.after a op = t.clear a.scopes.size)
  | inserted {s : ScopeId} {var : Variable} (hmade : op.made? = none) (h : Inserted a b s var)
      (hindex : ∀ t : NameIndex, t.Mirrors a → t.after a op = t.set s var.name (a.get s).vars.length)
      (htable : ∀ t : SlotTable, t.after a op = t.record (a.get s).root var.name)
  | hoisted {s p : ScopeId} (hop : op = .hoist s) (hparent : (a.get s).parent = some p) (h : Hoisted a b s p)
      (hindex : ∀ t : NameIndex, t.after a op = (t.clear s).enter p (a.get p).vars.length (a.get s).vars)
      (htable : ∀ t : SlotTable, t.after a op = t)

/-- Every operation has one of the effects. -/
theorem effect_act (ha : a.WellFormed) (happlies : op.applies a = true) : Effect a op (op.act a) := by
  cases op with
  | pushFunction parent name =>
      exact .pushed (of_decide_eq_true happlies) rfl rfl rfl rfl (Or.inl ⟨rfl, rfl⟩) (fun _ => rfl) fun _ => rfl
  | pushBlock parent =>
      exact .pushed (of_decide_eq_true happlies) rfl rfl rfl rfl (Or.inr ⟨rfl, rfl⟩) (fun _ => rfl) fun _ => rfl
  | define scope name =>
      simp only [ScopeOp.act]
      cases hname : a.resolve? scope name with
      | some v =>
          refine .kept rfl (.refl a) (fun t ht => ?_) fun t => ?_
          · simp only [NameIndex.after, ht.resolve?_eq, hname]
          · simp only [SlotTable.after, hname, Option.isSome_some, if_true]
      | none =>
          obtain ⟨var, -, hinserted, rfl, -⟩ := insert_inserted ha (of_decide_eq_true happlies) name none
          refine .inserted rfl hinserted (fun t ht => ?_) fun t => ?_
          · simp only [NameIndex.after, ht.resolve?_eq, hname]
          · simp only [SlotTable.after, hname, Option.isSome_none, Bool.false_eq_true, if_false]
  | declare scope name r =>
      obtain ⟨var, -, hinserted, rfl, -⟩ := insert_inserted ha (of_decide_eq_true happlies) name (some r)
      exact .inserted rfl hinserted (fun _ _ => rfl) fun _ => rfl
  | bind v r => exact .kept rfl (alike_updateVariable (f := (·.bind r)) fun _ => rfl).keeps (fun _ _ => rfl) fun _ => rfl
  | unbind v =>
      simp only [ScopeOp.act]
      by_cases hactive : (a.activeRegister? v).isSome = true
      · rw [if_pos hactive]
        exact .kept rfl (alike_updateVariable (f := (·.release)) fun _ => rfl).keeps (fun _ _ => rfl) fun _ => rfl
      · rw [if_neg hactive]
        exact .kept rfl (.refl a) (fun _ _ => rfl) fun _ => rfl
  | release scope => exact .kept rfl alike_releaseScope.keeps (fun _ _ => rfl) fun _ => rfl
  | hoist scope =>
      cases hparent : (a.get scope).parent with
      | none =>
          -- only the global scope has no parent; it keeps its variables
          have hact : ScopeOp.act a (.hoist scope) = a := by simp only [ScopeOp.act, hoist, hparent]
          rw [hact]
          refine .kept rfl (.refl a) (fun t _ => ?_) fun _ => rfl
          simp only [NameIndex.after, hparent]
      | some p =>
          refine .hoisted rfl hparent (hoist_hoisted ha (of_decide_eq_true happlies) hparent) (fun t => ?_) fun _ => rfl
          simp only [NameIndex.after, hparent]
  | defineFunction scope f =>
      simp only [ScopeOp.act]
      cases hdefine : a.defineFunction scope f with
      | error e => exact .kept rfl (.refl a) (fun _ _ => rfl) fun _ => rfl
      | ok b =>
          exact .kept rfl (defineFunction_defined (of_decide_eq_true happlies) hdefine).keeps (fun _ _ => rfl) fun _ => rfl
  | nextLabel scope purpose => exact .kept rfl (alike_nextLabel a scope purpose).keeps (fun _ _ => rfl) fun _ => rfl

/-! ## The tree of scopes -/

/-- **The scopes form a tree**, whose root is the global scope, and their kinds are as given: a function's
    scope is its own root, and a block has the root of its parent. -/
structure Orderly (kinds : List ScopeKind) (a : Arena) : Prop where
  wellFormed : a.WellFormed
  length_eq : kinds.length = a.scopes.size
  parent_none : (a.get globalScope).parent = none
  parent_some : ∀ {i}, 0 < i → i < a.scopes.size → ∃ p, (a.get i).parent = some p
  global : kinds[globalScope]? = some .function
  function : ∀ {i}, kinds[i]? = some .function → (a.get i).root = i
  block : ∀ {i}, kinds[i]? = some .block → ∃ p, (a.get i).parent = some p ∧ (a.get i).root = (a.get p).root

theorem orderly_initial : Orderly (ScopeOp.kinds []) initial where
  wellFormed := wellFormed_initial
  length_eq := rfl
  parent_none := rfl
  parent_some {i} hi hlt := absurd hlt (Nat.not_lt.mpr hi)
  global := rfl
  function {i} hi := by
    cases i with
    | zero => rfl
    | succ i => exact absurd hi (by simp [ScopeOp.kinds])
  block {i} hi := by
    cases i with
    | zero => exact absurd hi (by simp [ScopeOp.kinds])
    | succ i => exact absurd hi (by simp [ScopeOp.kinds])

variable {kinds : List ScopeKind}

/-- The tree is a matter of parents and roots. -/
theorem Orderly.congr (h : Orderly kinds a) (hsize : b.scopes.size = a.scopes.size)
    (hparent : ∀ i, (b.get i).parent = (a.get i).parent) (hroot : ∀ i, (b.get i).root = (a.get i).root) :
    Orderly kinds b where
  wellFormed := h.wellFormed.congr hsize hparent hroot
  length_eq := h.length_eq.trans hsize.symm
  parent_none := (hparent _).trans h.parent_none
  parent_some hi hlt := by
    rw [hparent]
    exact h.parent_some hi (hsize ▸ hlt)
  global := h.global
  function hi := (hroot _).trans (h.function hi)
  block hi := by
    obtain ⟨p, hp, hpr⟩ := h.block hi
    refine ⟨p, (hparent _).trans hp, ?_⟩
    rw [hroot, hroot, hpr]

theorem Orderly.lt_of_kind (h : Orderly kinds a) {k : ScopeKind} (hi : kinds[i]? = some k) : i < a.scopes.size := by
  rw [← h.length_eq]
  exact (List.getElem?_eq_some_iff.mp hi).1

/-- A new scope is a leaf of the tree. -/
theorem Orderly.push (h : Orderly kinds a) {sc : Scope} {k : ScopeKind} (hp : p < a.scopes.size)
    (hparent : sc.parent = some p)
    (hroot : (k = .function ∧ sc.root = a.scopes.size) ∨ (k = .block ∧ sc.root = (a.get p).root)) :
    Orderly (kinds ++ [k]) ⟨a.scopes.push sc⟩ := by
  have hself : (Arena.mk (a.scopes.push sc)).get a.scopes.size = sc := by rw [get_push, if_pos rfl]
  have hold : ∀ {i}, i < a.scopes.size → (Arena.mk (a.scopes.push sc)).get i = a.get i := fun hi => get_push_lt sc hi
  -- a scope of a given kind is the new one, or an old one of that kind
  have hkind : ∀ {i k'}, (kinds ++ [k])[i]? = some k' → (i = a.scopes.size ∧ k' = k) ∨ kinds[i]? = some k' := by
    intro i k' hi
    rcases Nat.lt_or_ge i kinds.length with hlt | hge
    · rw [List.getElem?_append_left hlt] at hi
      exact Or.inr hi
    · rw [List.getElem?_append_right hge] at hi
      obtain ⟨hlt, hk⟩ := List.getElem?_eq_some_iff.mp hi
      have hlength : [k].length = 1 := rfl
      have hi0 : i - kinds.length = 0 := by omega
      rw [h.length_eq] at hge hi0
      left
      refine ⟨by omega, ?_⟩
      rw [← hk]
      exact List.mem_singleton.mp (List.getElem_mem hlt)
  refine ⟨h.wellFormed.push hp hparent (hroot.imp And.right And.right), ?_, ?_, ?_, ?_, ?_, ?_⟩
  · rw [List.length_append, Array.size_push, h.length_eq]
    rfl
  · rw [hold (i := globalScope) h.wellFormed.inhabited]
    exact h.parent_none
  · intro i hi hlt
    rw [Array.size_push] at hlt
    rcases Nat.lt_succ_iff_lt_or_eq.mp hlt with hlt | rfl
    · rw [hold hlt]
      exact h.parent_some hi hlt
    · exact ⟨p, by rw [hself, hparent]⟩
  · rw [List.getElem?_append_left (by rw [h.length_eq]; exact h.wellFormed.inhabited)]
    exact h.global
  · intro i hi
    rcases hkind hi with ⟨rfl, hk⟩ | hi
    · rw [hself]
      rcases hroot with ⟨-, hroot⟩ | ⟨hblock, -⟩
      · exact hroot
      · exact absurd (hk.trans hblock) (by simp)
    · rw [hold (h.lt_of_kind hi)]
      exact h.function hi
  · intro i hi
    rcases hkind hi with ⟨rfl, hk⟩ | hi
    · rw [hself]
      rcases hroot with ⟨hfunction, -⟩ | ⟨-, hroot⟩
      · exact absurd (hk.trans hfunction) (by simp)
      · exact ⟨p, hparent, by rw [hold hp]; exact hroot⟩
    · obtain ⟨q, hq, hqr⟩ := h.block hi
      have hlt := h.lt_of_kind hi
      refine ⟨q, by rw [hold hlt]; exact hq, ?_⟩
      rw [hold hlt, hold (Nat.lt_trans (h.wellFormed.parent_lt i q hq) hlt)]
      exact hqr

/-- **Every operation keeps the tree**, with the scope that it makes, if any. -/
theorem Effect.orderly (he : Effect a op b) (h : Orderly kinds a) : Orderly (kinds ++ op.made?.toList) b := by
  cases he with
  | kept hmade hkeeps _ =>
      rw [hmade]
      simpa using h.congr hkeeps.size_eq hkeeps.parent_eq hkeeps.root_eq
  | pushed hp hb hparent hvars hslots hroot _ =>
      subst hb
      rcases hroot with ⟨hmade, hroot⟩ | ⟨hmade, hroot⟩
      · rw [hmade]
        exact h.push hp hparent (Or.inl ⟨rfl, hroot⟩)
      · rw [hmade]
        exact h.push hp hparent (Or.inr ⟨rfl, hroot⟩)
  | inserted hmade hinserted _ =>
      rw [hmade]
      simpa using h.congr hinserted.size_eq hinserted.parent_eq hinserted.root_eq
  | hoisted hop hparent hhoisted _ =>
      subst hop
      simpa [ScopeOp.made?] using h.congr hhoisted.size_eq hhoisted.parent_eq hhoisted.root_eq

end Arena

namespace Workbench

variable {o : Options} {ops : List ScopeOp} {w : Workbench}

theorem orderly (h : after o ops = some w) : w.state.arena.Orderly (ScopeOp.kinds ops) := by
  refine after_induction (P := fun ops w => w.state.arena.Orderly (ScopeOp.kinds ops)) Arena.orderly_initial ?_ ops w h
  intro ops w op w' _ hw hstep
  obtain ⟨happlies, harena, -⟩ := step_eq_some hstep
  rw [ScopeOp.kinds_snoc, harena]
  exact (Arena.effect_act hw.wellFormed happlies).orderly hw

end Workbench

end Offside
