import Offside.Proofs.Arena
import Offside.Proofs.Rendering
import Offside.Lower.Listing

/-!
# `Proofs.Disguise` — the same program under other names and at other places

A `Disguise` gives the variables of a program other names, its nodes other places, and may leave out the
comments of its code. It carries over to all that code generation works with: to trees (`Module.map`), to the
arena (`Arena.rename`), to faults (`Lower.Fault.map`) and to the whole state (`Lower.State.disguise`).

Names are only ever compared. So as long as different names stay different, every operation on the arena does
under the new names what it does under the old ones; the lemmas here say so, one for each operation.
-/

namespace Offside

open Machine (Register Line)

/-! ## Trees -/

mutual

/-- The expression with other names for its variables and at other places. The name that a call calls is that of
    a function, and stays. -/
def Expr.map (name : String → String) (span : Span → Span) : Expr → Expr
  | .const s v => .const (span s) v
  | .name s id use => .name (span s) (name id) use
  | .binary s l op r => .binary (span s) (l.map name span) op (r.map name span)
  | .unary s op e => .unary (span s) op (e.map name span)
  | .compare s l ops es => .compare (span s) (l.map name span) ops (mapAll name span es)
  | .call s (.name s' id use) args => .call (span s) (.name (span s') id use) (mapAll name span args)
  | .call s f args => .call (span s) (f.map name span) (mapAll name span args)

/-- Expressions with other names for their variables and at other places. -/
def Expr.mapAll (name : String → String) (span : Span → Span) : List Expr → List Expr
  | [] => []
  | e :: es => e.map name span :: mapAll name span es

end

mutual

/-- The statement with other names for its variables and at other places. Functions keep their names. -/
def Stmt.map (name : String → String) (span : Span → Span) : Stmt → Stmt
  | .pass s => .pass (span s)
  | .ret s value => .ret (span s) (value.map (Expr.map name span))
  | .expr s value => .expr (span s) (value.map name span)
  | .assign s targets value => .assign (span s) (Expr.mapAll name span targets) (value.map name span)
  | .augAssign s target op value => .augAssign (span s) (target.map name span) op (value.map name span)
  | .cond s test body orelse => .cond (span s) (test.map name span) (mapAll name span body) (mapAll name span orelse)
  | .loop s test body => .loop (span s) (test.map name span) (mapAll name span body)
  | .funcDef s f params body => .funcDef (span s) f (params.map name) (mapAll name span body)

/-- Statements with other names for their variables and at other places. -/
def Stmt.mapAll (name : String → String) (span : Span → Span) : List Stmt → List Stmt
  | [] => []
  | st :: rest => st.map name span :: mapAll name span rest

end

/-- The module with other names for its variables and at other places. -/
def Module.map (name : String → String) (span : Span → Span) (m : Module) : Module :=
  ⟨Stmt.mapAll name span m.body, span m.span⟩

/-- The module with its variables renamed: parameters, targets of assignments and variables that are read, but
    neither functions nor the names that calls call. -/
def Module.rename (r : String → String) (m : Module) : Module := m.map r id

section Trees

variable {name : String → String} {span : Span → Span}

theorem Expr.mapAll_eq_map (es : List Expr) : Expr.mapAll name span es = es.map (Expr.map name span) := by
  induction es with
  | nil => rfl
  | cons e es ih => rw [Expr.mapAll, ih, List.map_cons]

theorem Stmt.mapAll_eq_map (sts : List Stmt) : Stmt.mapAll name span sts = sts.map (Stmt.map name span) := by
  induction sts with
  | nil => rfl
  | cons st sts ih => rw [Stmt.mapAll, ih, List.map_cons]

theorem Expr.asName?_map (e : Expr) : (e.map name span).asName? = e.asName?.map name := by
  cases e with
  | call s f args => cases f <;> rfl
  | _ => rfl

/-- The name that a call calls is that of a function. -/
theorem Expr.exists_map_call (name : String → String) (span : Span → Span) (s : Span) (f : Expr) (args : List Expr) :
    ∃ f' : Expr, (Expr.call s f args).map name span = .call (span s) f' (Expr.mapAll name span args) ∧
      f'.asName? = f.asName? := by
  cases f with
  | call s' f' args' => exact ⟨_, rfl, Expr.asName?_map _⟩
  | _ => exact ⟨_, rfl, rfl⟩

theorem Expr.calledName?_map (e : Expr) : (e.map name span).calledName? = e.calledName? := by
  cases e with
  | call s f args =>
      obtain ⟨f', hcall, hname⟩ := Expr.exists_map_call name span s f args
      rw [hcall]
      exact hname
  | _ => rfl

theorem Stmt.isReturn_map (st : Stmt) : (st.map name span).isReturn = st.isReturn := by cases st <;> rfl

mutual

/-- With the same names and at the same places, an expression is itself. -/
theorem Expr.map_id : ∀ e : Expr, e.map id id = e
  | .const s v => rfl
  | .name s id use => rfl
  | .binary s l op r => by rw [Expr.map, Expr.map_id l, Expr.map_id r]; rfl
  | .unary s op e => by rw [Expr.map, Expr.map_id e]; rfl
  | .compare s l ops es => by rw [Expr.map, Expr.map_id l, Expr.mapAll_id es]; rfl
  | .call s f args => by
      have hargs := Expr.mapAll_id args
      have hf := Expr.map_id f
      cases f <;> simp_all only [Expr.map, id]

theorem Expr.mapAll_id : ∀ es : List Expr, Expr.mapAll id id es = es
  | [] => rfl
  | e :: es => by rw [Expr.mapAll, Expr.map_id e, Expr.mapAll_id es]

end

mutual

/-- At no place at all, an expression is erased. -/
theorem Expr.map_erase : ∀ e : Expr, e.map id (fun _ => default) = e.erase
  | .const s v => rfl
  | .name s id use => rfl
  | .binary s l op r => by rw [Expr.map, Expr.map_erase l, Expr.map_erase r, Expr.erase]
  | .unary s op e => by rw [Expr.map, Expr.map_erase e, Expr.erase]
  | .compare s l ops es => by rw [Expr.map, Expr.map_erase l, Expr.mapAll_erase es, Expr.erase]
  | .call s f args => by
      have hargs := Expr.mapAll_erase args
      have hf := Expr.map_erase f
      cases f <;> simp_all only [Expr.map, Expr.erase]

theorem Expr.mapAll_erase : ∀ es : List Expr, Expr.mapAll id (fun _ => default) es = Expr.eraseAll es
  | [] => rfl
  | e :: es => by rw [Expr.mapAll, Expr.map_erase e, Expr.mapAll_erase es, Expr.eraseAll]

end

mutual

theorem Stmt.map_id : ∀ st : Stmt, st.map id id = st
  | .pass s => rfl
  | .ret s value => by
      have hvalue : Expr.map id id = id := funext Expr.map_id
      rw [Stmt.map, hvalue, Option.map_id]; rfl
  | .expr s value => by rw [Stmt.map, Expr.map_id]; rfl
  | .assign s targets value => by rw [Stmt.map, Expr.mapAll_id, Expr.map_id]; rfl
  | .augAssign s target op value => by rw [Stmt.map, Expr.map_id, Expr.map_id]; rfl
  | .cond s test body orelse => by rw [Stmt.map, Expr.map_id, Stmt.mapAll_id body, Stmt.mapAll_id orelse]; rfl
  | .loop s test body => by rw [Stmt.map, Expr.map_id, Stmt.mapAll_id body]; rfl
  | .funcDef s f params body => by rw [Stmt.map, List.map_id, Stmt.mapAll_id body]; rfl

theorem Stmt.mapAll_id : ∀ sts : List Stmt, Stmt.mapAll id id sts = sts
  | [] => rfl
  | st :: sts => by rw [Stmt.mapAll, Stmt.map_id st, Stmt.mapAll_id sts]

end

mutual

theorem Stmt.map_erase : ∀ st : Stmt, st.map id (fun _ => default) = st.erase
  | .pass s => rfl
  | .ret s value => by
      have hvalue : Expr.map id (fun _ => default) = Expr.erase := funext Expr.map_erase
      rw [Stmt.map, hvalue, Stmt.erase]
  | .expr s value => by rw [Stmt.map, Expr.map_erase, Stmt.erase]
  | .assign s targets value => by rw [Stmt.map, Expr.mapAll_erase, Expr.map_erase, Stmt.erase]
  | .augAssign s target op value => by rw [Stmt.map, Expr.map_erase, Expr.map_erase, Stmt.erase]
  | .cond s test body orelse => by
      rw [Stmt.map, Expr.map_erase, Stmt.mapAll_erase body, Stmt.mapAll_erase orelse, Stmt.erase]
  | .loop s test body => by rw [Stmt.map, Expr.map_erase, Stmt.mapAll_erase body, Stmt.erase]
  | .funcDef s f params body => by rw [Stmt.map, List.map_id, Stmt.mapAll_erase body, Stmt.erase]

theorem Stmt.mapAll_erase : ∀ sts : List Stmt, Stmt.mapAll id (fun _ => default) sts = Stmt.eraseAll sts
  | [] => rfl
  | st :: sts => by rw [Stmt.mapAll, Stmt.map_erase st, Stmt.mapAll_erase sts, Stmt.eraseAll]

end

theorem Module.map_id (m : Module) : m.map id id = m := by rw [Module.map, Stmt.mapAll_id]; rfl

theorem Module.map_erase (m : Module) : m.map id (fun _ => default) = m.erase := by
  rw [Module.map, Stmt.mapAll_erase]; rfl

end Trees

/-! ## Scopes -/

section Scopes

variable (f : String → String)

def Variable.rename (v : Variable) : Variable := { v with name := f v.name }

/-- Parameters are variables; the function keeps its name. -/
def Callee.rename (c : Callee) : Callee := { c with params := c.params.map fun p => (f p.1, p.2) }

def Scope.rename (s : Scope) : Scope :=
  { s with
    vars := s.vars.map (·.rename f)
    functions := s.functions.map (·.rename f)
    slotNames := s.slotNames.map f }

/-- The arena with other names for the variables. -/
def Arena.rename (a : Arena) : Arena := ⟨a.scopes.map (·.rename f)⟩

@[simp] theorem Variable.activeRegister?_rename (v : Variable) :
    (v.rename f).activeRegister? = v.activeRegister? := rfl

@[simp] theorem Callee.name_rename (c : Callee) : (c.rename f).name = c.name := rfl

@[simp] theorem Callee.arity_rename (c : Callee) : (c.rename f).arity = c.arity := by simp [Callee.arity, Callee.rename]

namespace Scope

@[simp] theorem name_rename (s : Scope) : (s.rename f).name = s.name := rfl

@[simp] theorem parent_rename (s : Scope) : (s.rename f).parent = s.parent := rfl

@[simp] theorem root_rename (s : Scope) : (s.rename f).root = s.root := rfl

@[simp] theorem vars_rename (s : Scope) : (s.rename f).vars = s.vars.map (·.rename f) := rfl

@[simp] theorem slotNames_rename (s : Scope) : (s.rename f).slotNames = s.slotNames.map f := rfl

@[simp] theorem activeIndices_rename (s : Scope) : (s.rename f).activeIndices = s.activeIndices := by
  simp only [activeIndices, rename, List.zipIdx_map, List.filter_map, List.map_map]
  rfl

theorem activeRegisters_rename (s : Scope) :
    (s.rename f).activeRegisters = s.activeRegisters.map fun p => (f p.1, p.2) := by
  simp only [activeRegisters, rename, List.filterMap_map, List.map_filterMap]
  refine List.filterMap_congr fun v _ => ?_
  show Option.map _ v.activeRegister? = _
  cases v.activeRegister? <;> rfl

theorem findFunction?_rename (s : Scope) (name : String) :
    (s.rename f).findFunction? name = (s.findFunction? name).map (·.rename f) := by
  simp only [findFunction?, rename, List.find?_map]
  rfl

variable {f}

theorem find?_rename (hf : Function.Injective f) (s : Scope) (name : String) :
    (s.rename f).find? (f name) = s.find? name := by
  show lastIndex? (f name) (s.vars.map (·.rename f)) = lastIndex? name s.vars
  induction s.vars with
  | nil => rfl
  | cons v rest ih =>
      simp only [List.map_cons, lastIndex?, ih]
      cases lastIndex? name rest with
      | some i => rfl
      | none => simp only [Variable.rename, hf.eq_iff]

end Scope

namespace Arena

variable {a : Arena} {i s : ScopeId} {v : VarRef}

@[simp] theorem size_rename : (a.rename f).scopes.size = a.scopes.size := by simp [rename]

@[simp] theorem get_rename : (a.rename f).get i = (a.get i).rename f := by
  simp only [get_eq, rename, Array.getElem?_map]
  cases a.scopes[i]? <;> rfl

theorem rename_initial : initial.rename f = initial := by simp [rename, initial, Scope.rename]

variable {f}

/-- A change of a scope that means the same under the new names. -/
theorem update_rename {g g' : Scope → Scope} (h : ∀ sc : Scope, g' (sc.rename f) = (g sc).rename f) :
    (a.rename f).update i g' = (a.update i g).rename f := by
  simp only [update, rename, mk.injEq]
  refine Array.ext_getElem? fun j => ?_
  simp only [Array.getElem?_modify, Array.getElem?_map]
  split
  · cases a.scopes[j]? <;> simp [h]
  · rfl

theorem push_rename (sc : Scope) : (⟨(a.rename f).scopes.push (sc.rename f)⟩ : Arena) =
    (Arena.mk (a.scopes.push sc)).rename f := by
  simp [rename]

theorem pushFunction_rename (parent : ScopeId) (name : String) : (a.rename f).pushFunction parent name =
    ((a.pushFunction parent name).1, (a.pushFunction parent name).2.rename f) := by
  simp only [pushFunction, size_rename, ← push_rename]
  rfl

theorem pushBlock_rename (parent : ScopeId) : (a.rename f).pushBlock parent =
    ((a.pushBlock parent).1, (a.pushBlock parent).2.rename f) := by
  simp only [pushBlock, size_rename, get_rename, ← push_rename]
  rfl

@[simp] theorem chain_rename : (a.rename f).chain s = a.chain s :=
  chain_congr fun i _ => by rw [get_rename, Scope.parent_rename]

@[simp] theorem lookup?_rename : (a.rename f).lookup? v = (a.lookup? v).map (·.rename f) := by
  simp only [lookup?, get_rename, Scope.rename, List.getElem?_map]

@[simp] theorem activeRegister?_rename : (a.rename f).activeRegister? v = a.activeRegister? v := by
  simp only [activeRegister?, lookup?_rename]
  cases a.lookup? v <;> rfl

@[simp] theorem activeVariables_rename : (a.rename f).activeVariables s = a.activeVariables s := by
  simp only [activeVariables, chain_rename, get_rename, Scope.activeIndices_rename]

/-- A change of a variable that leaves its name alone. -/
theorem updateVariable_rename {g : Variable → Variable} (h : ∀ x : Variable, g (x.rename f) = (g x).rename f) :
    (a.rename f).updateVariable v g = (a.updateVariable v g).rename f := by
  refine update_rename fun sc => ?_
  simp only [Scope.rename, Scope.mk.injEq, true_and, and_true]
  refine List.ext_getElem? fun j => ?_
  simp only [List.getElem?_modify, List.getElem?_map]
  cases sc.vars[j]? with
  | none => rfl
  | some x => by_cases hj : v.index = j <;> simp [hj, h]

theorem nextLabel_rename (purpose : String) : (a.rename f).nextLabel s purpose =
    ((a.nextLabel s purpose).1, (a.nextLabel s purpose).2.rename f) := by
  have hupdate : (a.rename f).update s (fun sc => { sc with labels := sc.labels + 1 }) =
      (a.update s fun sc => { sc with labels := sc.labels + 1 }).rename f := update_rename fun sc => rfl
  simp only [nextLabel, nextSerial, hupdate, get_rename]
  rfl

theorem resolveFunction?_rename (name : String) :
    (a.rename f).resolveFunction? s name = (a.resolveFunction? s name).map (·.rename f) := by
  simp only [resolveFunction?, chain_rename, get_rename, Scope.findFunction?_rename]
  induction a.chain s with
  | nil => rfl
  | cons id rest ih =>
      simp only [List.findSome?_cons, ih]
      cases (a.get id).findFunction? name <;> rfl

theorem defineFunction_rename (c : Callee) : (a.rename f).defineFunction s (c.rename f) =
    (a.defineFunction s c).map (·.rename f) := by
  have hupdate : (a.rename f).update s (fun sc => { sc with functions := sc.functions ++ [c.rename f] }) =
      (a.update s fun sc => { sc with functions := sc.functions ++ [c] }).rename f :=
    update_rename fun sc => by simp [Scope.rename]
  simp only [defineFunction, get_rename, Scope.findFunction?_rename, Option.isSome_map, Callee.name_rename, hupdate]
  split <;> rfl

theorem hoist_rename (block : ScopeId) : (a.rename f).hoist block = (a.hoist block).rename f := by
  simp only [hoist, get_rename, Scope.parent_rename, Scope.vars_rename]
  cases (a.get block).parent with
  | none => rfl
  | some parent =>
      simp only
      rw [update_rename (f := f) (g := fun s => { s with vars := [] }) fun sc => rfl,
        update_rename fun sc => ?_]
      simp [Scope.rename]

variable (hf : Function.Injective f)
include hf

theorem resolve?_rename (name : String) : (a.rename f).resolve? s (f name) = a.resolve? s name := by
  simp only [resolve?, chain_rename, get_rename, Scope.find?_rename hf]

theorem idxOf?_map (names : List String) (name : String) : (names.map f).idxOf? (f name) = names.idxOf? name := by
  simp only [List.idxOf?, List.findIdx?_map]
  congr 1
  funext x
  simp [hf.eq_iff]

theorem slotFor_rename (name : String) : (a.rename f).slotFor s (f name) =
    ((a.slotFor s name).1, (a.slotFor s name).2.rename f) := by
  have hupdate : ∀ root, (a.rename f).update root (fun r => { r with slotNames := r.slotNames ++ [f name] }) =
      (a.update root fun r => { r with slotNames := r.slotNames ++ [name] }).rename f := fun root =>
    update_rename fun sc => by simp [Scope.rename]
  simp only [slotFor, get_rename, Scope.root_rename, Scope.slotNames_rename, idxOf?_map hf, List.length_map, hupdate]
  split <;> rfl

theorem insert_rename (name : String) (r : Option Register) : (a.rename f).insert s (f name) r =
    ((a.insert s name r).1, (a.insert s name r).2.rename f) := by
  have hslot := slotFor_rename (a := a) (s := s) hf name
  simp only [insert, hslot, Prod.mk.injEq]
  constructor
  · simp [Scope.rename]
  · refine update_rename fun sc => ?_
    simp [Scope.rename, Variable.rename]

end Arena

end Scopes

/-! ## Locals -/

namespace Lower

section Locals

variable {f : String → String} {span : Span → Span}

mutual

theorem boundByStmt_map : ∀ st : Stmt, boundByStmt (st.map f span) = (boundByStmt st).map f
  | .assign s targets value => by
      rw [Stmt.map, boundByStmt, boundByStmt, Expr.mapAll_eq_map, List.filterMap_map, List.map_filterMap]
      exact List.filterMap_congr fun e _ => Expr.asName?_map e
  | .augAssign s target op value => by
      rw [Stmt.map, boundByStmt, boundByStmt, Expr.asName?_map]
      cases target.asName? <;> rfl
  | .cond s test body orelse => by
      rw [Stmt.map, boundByStmt, boundByStmt, boundNames_map body, boundNames_map orelse, List.map_append]
  | .loop s test body => by rw [Stmt.map, boundByStmt, boundByStmt, boundNames_map body]
  | .pass _ | .ret _ _ | .expr _ _ | .funcDef _ _ _ _ => by simp only [Stmt.map, boundByStmt, List.map_nil]

theorem boundNames_map : ∀ sts : List Stmt, boundNames (Stmt.mapAll f span sts) = (boundNames sts).map f
  | [] => rfl
  | st :: sts => by
      rw [Stmt.mapAll, boundNames, boundNames, boundByStmt_map st, boundNames_map sts, List.map_append]

end

variable (hf : Function.Injective f)
include hf

theorem contains_map (names : List String) (name : String) : (names.map f).contains (f name) = names.contains name := by
  rw [Bool.eq_iff_iff, List.contains_iff_mem, List.contains_iff_mem, List.mem_map_of_injective hf]

theorem eraseDups_map (names : List String) : (names.map f).eraseDups = names.eraseDups.map f := by
  -- each step drops the further occurrences of the first name, so the induction is on the length
  induction hn : names.length using Nat.strongRecOn generalizing names with
  | ind n ih =>
      cases names with
      | nil => rfl
      | cons x rest =>
          have hfilter : (rest.map f).filter (fun y => !y == f x) = (rest.filter fun y => !y == x).map f := by
            rw [List.filter_map]
            congr 2
            funext y
            simp [hf.eq_iff]
          have hlt : (rest.filter fun y => !y == x).length < n := by
            rw [← hn]
            exact Nat.lt_succ_of_le (List.length_filter_le ..)
          rw [List.map_cons, List.eraseDups_cons, List.eraseDups_cons, hfilter, ih _ hlt _ rfl, List.map_cons]

theorem countLocals_map (span : Span → Span) (known known' : String → Bool) (h : ∀ x, known' (f x) = known x)
    (params : List String) (body : List Stmt) :
    countLocals (params.map f) (Stmt.mapAll f span body) known' = countLocals params body known := by
  have hfilter : (boundNames body).filter ((fun name => !(params.map f).contains name && !known' name) ∘ f) =
      (boundNames body).filter fun name => !params.contains name && !known name := by
    congr 1
    funext x
    simp only [Function.comp, contains_map hf, h]
  simp only [countLocals, boundNames_map, List.filter_map, hfilter, eraseDups_map hf, List.length_map]

theorem duplicate?_map (seen names : List String) :
    duplicate? (seen.map f) (names.map f) = (duplicate? seen names).map f := by
  induction names generalizing seen with
  | nil => rfl
  | cons name rest ih =>
      simp only [List.map_cons, duplicate?, contains_map hf]
      split
      · rfl
      · exact ih (name :: seen)

end Locals

/-! ## Faults and events -/

def Unsupported.rename (f : String → String) : Unsupported → Unsupported
  | .foreignVariable name owner => .foreignVariable (f name) owner
  | what => what

def Malformed.rename (f : String → String) : Malformed → Malformed
  | .duplicateParameter name function => .duplicateParameter (f name) function
  | what => what

/-- The fault with other names for variables, and at another place. -/
def Fault.map (name : String → String) (place : Position → Position) : Fault → Fault
  | .undefinedName .var x loc => .undefinedName .var (name x) (place loc)
  | .undefinedName .fn x loc => .undefinedName .fn x (place loc)
  | .duplicateFunction x loc => .duplicateFunction x (place loc)
  | .arityMismatch x expected found loc => .arityMismatch x expected found (place loc)
  | .unsupported what loc => .unsupported (what.rename name) (place loc)
  | .malformed what loc => .malformed (what.rename name) (place loc)
  | .registersExhausted c => .registersExhausted c
  | .argumentBusy r => .argumentBusy r

end Lower

/-- The kinds of failures. -/
inductive DiagnosticKind where
  | lexical | parse
  | undefinedName (kind : NameKind)
  | duplicateFunction | arityMismatch | unsupported | malformed | registersExhausted | inputOutput | internal
deriving DecidableEq

namespace Diagnostic

/-- The kind of a failure. -/
def kind : Diagnostic → DiagnosticKind
  | .lexical .. => .lexical
  | .parse .. => .parse
  | .undefinedName kind .. => .undefinedName kind
  | .duplicateFunction .. => .duplicateFunction
  | .arityMismatch .. => .arityMismatch
  | .unsupported .. => .unsupported
  | .malformed .. => .malformed
  | .registersExhausted _ => .registersExhausted
  | .inputOutput _ => .inputOutput
  | .internal _ => .internal

/-- The failure without its place. -/
def unplaced : Diagnostic → Diagnostic
  | .lexical detail _ => .lexical detail .unknown
  | .parse detail _ => .parse detail .unknown
  | .undefinedName kind name _ => .undefinedName kind name .unknown
  | .duplicateFunction name _ => .duplicateFunction name .unknown
  | .arityMismatch name expected found _ => .arityMismatch name expected found .unknown
  | .unsupported construct _ => .unsupported construct .unknown
  | .malformed detail _ => .malformed detail .unknown
  | .registersExhausted family => .registersExhausted family
  | .inputOutput detail => .inputOutput detail
  | .internal detail => .internal detail

end Diagnostic

namespace Lower.Fault

variable (name : String → String) (place : Position → Position)

theorem kind_map (e : Fault) : (e.map name place).diagnostic.kind = e.diagnostic.kind := by
  cases e with
  | undefinedName kind x loc => cases kind <;> rfl
  | _ => rfl

theorem position?_map (e : Fault) :
    (e.map name place).diagnostic.position? = e.diagnostic.position?.map place := by
  cases e with
  | undefinedName kind x loc => cases kind <;> rfl
  | _ => rfl

theorem map_id (e : Fault) : e.map id id = e := by
  cases e with
  | undefinedName kind x loc => cases kind <;> rfl
  | unsupported what loc => cases what <;> rfl
  | malformed what loc => cases what <;> rfl
  | _ => rfl

theorem diagnostic_map_unknown (e : Fault) : (e.map id fun _ => .unknown).diagnostic = e.diagnostic.unplaced := by
  cases e with
  | undefinedName kind x loc => cases kind <;> rfl
  | unsupported what loc => cases what <;> rfl
  | malformed what loc => cases what <;> rfl
  | _ => rfl

end Lower.Fault

/-- The event with other names for variables. -/
def Event.rename (f : String → String) : Event → Event
  | .variableDefined name s slot => .variableDefined (f name) s slot
  | .variableHoisted name block parent => .variableHoisted (f name) block parent
  | .spilled name r slot => .spilled (f name) r slot
  | .reloaded name slot r => .reloaded (f name) slot r
  | .parameterPlaced name function r => .parameterPlaced (f name) function r
  | e => e

/-- The listing without its comments. -/
def Listing.uncommented (l : Listing) : Listing := { l with code := l.code.filter fun line => !line.isComment }

/-! ## Disguises -/

/-- **A disguise** of a program: other names for its variables, other places for its nodes, and perhaps no
    comments in its code. -/
structure Disguise where
  name : String → String
  name_injective : Function.Injective name
  span : Span → Span
  place : Position → Position
  start_span : ∀ s, (span s).start = place s.start
  /-- Comments are left out. -/
  quiet : Bool
  /-- Comments show names, so names can change only where comments are left out. -/
  name_eq_of_loud : quiet = false → name = id

namespace Disguise

/-- Only the comments are left out. -/
def silence : Disguise where
  name := id
  name_injective := Function.injective_id
  span := id
  place := id
  start_span _ := rfl
  quiet := true
  name_eq_of_loud := by simp

/-- Only the variables have other names. -/
def ofNames (r : String → String) (hr : Function.Injective r) : Disguise :=
  { silence with name := r, name_injective := hr, name_eq_of_loud := by simp [silence] }

/-- Only the places are gone. -/
def erasure : Disguise where
  name := id
  name_injective := Function.injective_id
  span _ := default
  place _ := .unknown
  start_span _ := rfl
  quiet := false
  name_eq_of_loud _ := rfl

end Disguise

namespace Lower

variable (d : Disguise)

/-- The state of code generation for the disguised program. -/
def State.disguise (s : State) : State :=
  { s with
    options := { s.options with comments := s.options.comments && !d.quiet }
    arena := s.arena.rename d.name
    code := if d.quiet then s.code.filter fun l => !l.isComment else s.code
    journal := s.journal.map (Event.rename d.name) }

namespace State

variable (s : State)

@[simp] theorem pool_disguise : (s.disguise d).pool = s.pool := rfl

@[simp] theorem arena_disguise : (s.disguise d).arena = s.arena.rename d.name := rfl

@[simp] theorem current_disguise : (s.disguise d).current = s.current := rfl

@[simp] theorem frames_disguise : (s.disguise d).frames = s.frames := rfl

end State

end Lower

end Offside
