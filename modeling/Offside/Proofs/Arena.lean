import Offside.Scope.Arena

/-!
# `Proofs.Arena` — what the operations on scopes do

Every operation on an arena is described by what it does to `get` (the scope with a number), `lookup?` (the
variable at a place) and `resolve?` (the place that a name means); later proofs cite these lemmas and do
not open the arena again.

Most moves of code generation change only which registers hold which variables, or count labels. They
leave the **shape** of the arena alone (`Arena.Alike`), and whatever depends on the shape with it: the chain
of a scope, the meaning of a name, the variables' names and slots.
-/

namespace Offside

open Machine (Register)

/-! ## Shapes -/

/-- The variable without its register. -/
def Variable.shape (v : Variable) : Variable := { v with register := none, active := false }

/-- The scope without the registers of its variables and without its count of labels. -/
def Scope.shape (s : Scope) : Scope := { s with vars := s.vars.map Variable.shape, labels := 0 }

@[simp] theorem Variable.shape_bind (v : Variable) (r : Register) : (v.bind r).shape = v.shape := rfl

@[simp] theorem Variable.shape_release (v : Variable) : v.release.shape = v.shape := rfl

/-- Variables of one shape differ at most in their register. -/
theorem Variable.shape_eq_iff {v w : Variable} : v.shape = w.shape ↔ v.name = w.name ∧ v.slot = w.slot := by
  simp [Variable.shape]

@[simp] theorem Variable.activeRegister?_release (v : Variable) : v.release.activeRegister? = none := rfl

@[simp] theorem Variable.activeRegister?_bind (v : Variable) (r : Register) :
    (v.bind r).activeRegister? = some r := rfl

/-! ## The last position of a name -/

namespace Scope

theorem lastIndex?_eq_none_iff {name : String} {vars : List Variable} :
    lastIndex? name vars = none ↔ ∀ v ∈ vars, v.name ≠ name := by
  induction vars with
  | nil => simp [lastIndex?]
  | cons v rest ih =>
      unfold lastIndex?
      cases hrest : lastIndex? name rest with
      | some i =>
          simp only [reduceCtorEq, false_iff]
          intro hall
          have hnone := ih.mpr fun w hw => hall w (List.mem_cons_of_mem v hw)
          rw [hrest] at hnone
          exact absurd hnone (by simp)
      | none =>
          have hall := ih.mp hrest
          by_cases hv : v.name = name
          · simp [hv]
          · simp only [hv, if_false, true_iff]
            intro w hw
            rcases List.mem_cons.mp hw with rfl | hw
            · exact hv
            · exact hall w hw

/-- The position found is one of the name. -/
theorem lastIndex?_some {name : String} {vars : List Variable} {i : Nat}
    (h : lastIndex? name vars = some i) : ∃ v, vars[i]? = some v ∧ v.name = name := by
  induction vars generalizing i with
  | nil => simp [lastIndex?] at h
  | cons v rest ih =>
      unfold lastIndex? at h
      cases hrest : lastIndex? name rest with
      | some j =>
          rw [hrest] at h
          obtain rfl := Option.some.inj h
          obtain ⟨w, hw, hname⟩ := ih hrest
          exact ⟨w, by simpa using hw, hname⟩
      | none =>
          rw [hrest] at h
          by_cases hv : v.name = name
          · simp only [hv, if_true, Option.some.injEq] at h
            subst h
            exact ⟨v, rfl, hv⟩
          · simp [hv] at h

theorem lastIndex?_append {name : String} {l m : List Variable} :
    lastIndex? name (l ++ m) = ((lastIndex? name m).map (l.length + ·)).or (lastIndex? name l) := by
  induction l with
  | nil => simp [lastIndex?]
  | cons v rest ih =>
      simp only [List.cons_append, lastIndex?, ih]
      cases hm : lastIndex? name m with
      | some i => simp; omega
      | none => simp

theorem lastIndex?_map_shape {name : String} {vars : List Variable} :
    lastIndex? name (vars.map Variable.shape) = lastIndex? name vars := by
  induction vars with
  | nil => rfl
  | cons v rest ih => simp only [List.map_cons, lastIndex?, ih]; rfl

theorem find?_eq_of_shape {s t : Scope} (h : s.shape = t.shape) (name : String) :
    s.find? name = t.find? name := by
  have hvars : s.vars.map Variable.shape = t.vars.map Variable.shape := congrArg Scope.vars h
  unfold Scope.find?
  rw [← lastIndex?_map_shape, hvars, lastIndex?_map_shape]

theorem mem_activeIndices {s : Scope} {i : Nat} :
    i ∈ s.activeIndices ↔ ∃ v, s.vars[i]? = some v ∧ v.active = true := by
  simp only [activeIndices, List.mem_map, List.mem_filter, Prod.exists]
  constructor
  · rintro ⟨v, j, ⟨hmem, hact⟩, rfl⟩
    exact ⟨v, List.mk_mem_zipIdx_iff_getElem?.mp hmem, hact⟩
  · rintro ⟨v, hv, hact⟩
    exact ⟨v, i, ⟨List.mk_mem_zipIdx_iff_getElem?.mpr hv, hact⟩, rfl⟩

end Scope

namespace Arena

variable {a b : Arena} {i j p s : ScopeId} {v w : VarRef} {name : String}

/-! ## Scopes -/

theorem get_eq : a.get i = a.scopes[i]?.getD missing := by simp [get]

theorem get_of_size_le (h : a.scopes.size ≤ i) : a.get i = missing := by
  rw [get_eq, Array.getElem?_eq_none h]; rfl

@[simp] theorem size_update (f : Scope → Scope) : (a.update i f).scopes.size = a.scopes.size := by
  simp [update]

theorem get_update (f : Scope → Scope) :
    (a.update i f).get j = if j = i ∧ i < a.scopes.size then f (a.get i) else a.get j := by
  simp only [get_eq, update, Array.getElem?_modify]
  by_cases hij : i = j
  · subst hij
    by_cases hlt : i < a.scopes.size
    · simp [hlt]
    · simp [hlt]
  · simp [hij, Ne.symm hij]

theorem get_update_self (f : Scope → Scope) (h : i < a.scopes.size) :
    (a.update i f).get i = f (a.get i) := by
  rw [get_update, if_pos ⟨rfl, h⟩]

theorem get_update_ne (f : Scope → Scope) (h : j ≠ i) : (a.update i f).get j = a.get j := by
  rw [get_update, if_neg fun hc => h hc.1]

/-- A scope changed in a way that a view of it does not see still looks the same. -/
theorem view_update {α : Type} {f : Scope → Scope} {g : Scope → α} (h : ∀ sc, g (f sc) = g sc) (j : ScopeId) :
    g ((a.update i f).get j) = g (a.get j) := by
  rw [get_update]
  split
  · rename_i hc; rw [h, hc.1]
  · rfl

theorem get_push (sc : Scope) :
    (Arena.mk (a.scopes.push sc)).get j = if j = a.scopes.size then sc else a.get j := by
  simp only [get_eq, Array.getElem?_push]
  split <;> rfl

theorem get_push_lt (sc : Scope) (h : j < a.scopes.size) :
    (Arena.mk (a.scopes.push sc)).get j = a.get j := by
  rw [get_push, if_neg (Nat.ne_of_lt h)]

/-! ## Chains -/

theorem chain_none (h : (a.get s).parent = none) : a.chain s = [s] := by
  rw [chain]; split
  · rfl
  · rename_i hp; rw [h] at hp; exact absurd hp (by simp)

theorem chain_some (h : (a.get s).parent = some p) (hlt : p < s) : a.chain s = s :: a.chain p := by
  rw [chain]; split
  · rename_i hp; rw [h] at hp; exact absurd hp (by simp)
  · rename_i q hq
    rw [h] at hq
    obtain rfl := Option.some.inj hq
    rw [dif_pos hlt]

/-- A chain is its scope alone, or the scope and the chain of its parent. -/
theorem chain_cases (a : Arena) (s : ScopeId) :
    a.chain s = [s] ∨ ∃ p, (a.get s).parent = some p ∧ p < s ∧ a.chain s = s :: a.chain p := by
  cases hp : (a.get s).parent with
  | none => exact Or.inl (chain_none hp)
  | some p =>
      by_cases hlt : p < s
      · exact Or.inr ⟨p, rfl, hlt, chain_some hp hlt⟩
      · left; rw [chain]; split
        · rfl
        · rename_i q hq
          rw [hp] at hq
          obtain rfl := Option.some.inj hq
          rw [dif_neg hlt]

theorem mem_chain_self (a : Arena) (s : ScopeId) : s ∈ a.chain s := by
  rcases chain_cases a s with h | ⟨p, _, _, h⟩ <;> rw [h] <;> simp

theorem le_of_mem_chain (h : i ∈ a.chain s) : i ≤ s := by
  induction s using Nat.strongRecOn with
  | ind s ih =>
      rcases chain_cases a s with hs | ⟨p, _, hlt, hs⟩
      · rw [hs, List.mem_singleton] at h; exact Nat.le_of_eq h
      · rw [hs, List.mem_cons] at h
        rcases h with rfl | h
        · exact Nat.le_refl _
        · exact Nat.le_of_lt (Nat.lt_of_le_of_lt (ih p hlt h) hlt)

theorem chain_head_tail (a : Arena) (s : ScopeId) : s :: (a.chain s).tail = a.chain s := by
  rcases chain_cases a s with h | ⟨p, _, _, h⟩ <;> rw [h, List.tail_cons]

theorem lt_of_mem_chain_tail (h : i ∈ (a.chain s).tail) : i < s := by
  rcases chain_cases a s with hs | ⟨p, _, hlt, hs⟩
  · rw [hs] at h; exact absurd h List.not_mem_nil
  · rw [hs] at h; exact Nat.lt_of_le_of_lt (le_of_mem_chain h) hlt

/-- Chains depend on the parents alone. -/
theorem chain_congr (h : ∀ i, i ≤ s → (b.get i).parent = (a.get i).parent) : b.chain s = a.chain s := by
  induction s using Nat.strongRecOn with
  | ind s ih =>
      have hself := h s (Nat.le_refl s)
      cases hp : (a.get s).parent with
      | none => rw [chain_none hp, chain_none (hself.trans hp)]
      | some p =>
          by_cases hlt : p < s
          · rw [chain_some hp hlt, chain_some (hself.trans hp) hlt]
            rw [ih p hlt fun i hi => h i (Nat.le_trans hi (Nat.le_of_lt hlt))]
          · rcases chain_cases a s with ha | ⟨q, hq, hlq, _⟩
            · rcases chain_cases b s with hb | ⟨q, hq, hlq, _⟩
              · rw [ha, hb]
              · rw [hself, hp] at hq; obtain rfl := Option.some.inj hq; exact absurd hlq hlt
            · rw [hp] at hq; obtain rfl := Option.some.inj hq; exact absurd hlq hlt

theorem chain_nodup (a : Arena) (s : ScopeId) : (a.chain s).Nodup := by
  induction s using Nat.strongRecOn with
  | ind s ih =>
      rcases chain_cases a s with h | ⟨p, _, hlt, h⟩
      · rw [h]; simp
      · rw [h, List.nodup_cons]
        refine ⟨fun hmem => ?_, ih p hlt⟩
        exact Nat.lt_irrefl s (Nat.lt_of_le_of_lt (le_of_mem_chain hmem) hlt)

/-! ## Variables -/

theorem lookup?_updateVariable (f : Variable → Variable) :
    (a.updateVariable v f).lookup? w = if w = v then (a.lookup? v).map f else a.lookup? w := by
  unfold lookup? updateVariable
  rw [get_update]
  by_cases hs : w.scope = v.scope
  · by_cases hlt : v.scope < a.scopes.size
    · rw [if_pos ⟨hs, hlt⟩]
      simp only [List.getElem?_modify]
      by_cases hi : v.index = w.index
      · have hwv : w = v := by cases w; cases v; simp_all
        simp [hwv]
      · have hwv : w ≠ v := fun h => hi (by rw [h])
        simp [hwv, hi, hs]
    · rw [if_neg fun hc => hlt hc.2, hs, get_of_size_le (Nat.le_of_not_lt hlt)]
      simp [missing]
  · have hwv : w ≠ v := fun h => hs (by rw [h])
    rw [if_neg fun hc => hs hc.1, if_neg hwv]

theorem activeRegister?_release :
    (a.updateVariable v (·.release)).activeRegister? w = if w = v then none else a.activeRegister? w := by
  unfold activeRegister?
  rw [lookup?_updateVariable]
  split
  · cases a.lookup? v <;> rfl
  · rfl

theorem activeRegister?_bind {r : Register} {var : Variable} (hv : a.lookup? v = some var) :
    (a.updateVariable v (·.bind r)).activeRegister? w = if w = v then some r else a.activeRegister? w := by
  unfold activeRegister?
  rw [lookup?_updateVariable, hv]
  split <;> rfl

theorem activeRegister?_eq_some_iff {r : Register} :
    a.activeRegister? v = some r ↔
      ∃ var, a.lookup? v = some var ∧ var.active = true ∧ var.register = some r := by
  unfold activeRegister? Variable.activeRegister?
  cases hv : a.lookup? v with
  | none => simp
  | some var => cases hact : var.active <;> simp [hact]

theorem mem_activeVariables :
    v ∈ a.activeVariables s ↔ v.scope ∈ a.chain s ∧ ∃ var, a.lookup? v = some var ∧ var.active = true := by
  simp only [activeVariables, List.mem_flatMap, List.mem_map, Scope.mem_activeIndices]
  constructor
  · rintro ⟨id, hid, k, ⟨var, hvar, hact⟩, rfl⟩
    exact ⟨hid, var, hvar, hact⟩
  · rintro ⟨hmem, var, hvar, hact⟩
    exact ⟨v.scope, hmem, v.index, ⟨var, hvar, hact⟩, rfl⟩

theorem activeVariables_nodup (a : Arena) (s : ScopeId) : (a.activeVariables s).Nodup := by
  unfold activeVariables
  rw [List.Nodup, List.pairwise_flatMap]
  constructor
  · intro id _
    have hindices : (a.get id).activeIndices.Nodup := by
      refine List.Sublist.nodup (List.filter_sublist.map _) ?_
      rw [List.zipIdx_map_snd]
      exact List.nodup_range'
    rw [List.pairwise_map]
    exact List.Pairwise.imp (fun hne he => hne (VarRef.mk.inj he).2) hindices
  · refine List.Pairwise.imp (fun hne x hx y hy he => ?_) (chain_nodup a s)
    obtain ⟨i, _, rfl⟩ := List.mem_map.mp hx
    obtain ⟨j, _, rfl⟩ := List.mem_map.mp hy
    exact hne (VarRef.mk.inj he).1

/-- The registers that a scope names are those of its active variables. -/
theorem mem_activeRegisters {r : Register} :
    r ∈ (a.get s).activeRegisters.map (·.2) ↔ ∃ k, a.activeRegister? ⟨s, k⟩ = some r := by
  simp only [Scope.activeRegisters, List.mem_map, List.mem_filterMap, Option.map_eq_some_iff]
  constructor
  · rintro ⟨_, ⟨var, hvar, x, hx, rfl⟩, rfl⟩
    obtain ⟨k, hk⟩ := List.mem_iff_getElem?.mp hvar
    exact ⟨k, by unfold activeRegister? lookup?; rw [hk]; exact hx⟩
  · rintro ⟨k, hk⟩
    obtain ⟨var, hvar, hx⟩ := Option.bind_eq_some_iff.mp hk
    exact ⟨_, ⟨var, List.mem_of_getElem? hvar, r, hx, rfl⟩, rfl⟩

/-- The arena with all variables of a scope held in their slots. -/
def releaseScope (a : Arena) (s : ScopeId) : Arena :=
  a.update s fun sc => { sc with vars := sc.vars.map (·.release) }

theorem lookup?_releaseScope (w : VarRef) : (a.releaseScope s).lookup? w =
    (a.lookup? w).map fun x => if w.scope = s then x.release else x := by
  unfold lookup? releaseScope
  rw [get_update]
  by_cases hs : w.scope = s
  · simp only [hs, true_and, if_true]
    split
    · rw [List.getElem?_map]
    · rename_i hlt
      rw [get_of_size_le (Nat.le_of_not_lt hlt)]
      simp [missing]
  · rw [if_neg fun h => hs h.1]
    simp [hs]

/-! ## Names -/

theorem resolve?_some (h : a.resolve? s name = some v) :
    v.scope ∈ a.chain s ∧ ∃ var, a.lookup? v = some var ∧ var.name = name := by
  obtain ⟨id, hid, hv⟩ := List.exists_of_findSome?_eq_some h
  obtain ⟨k, hk, rfl⟩ := Option.map_eq_some_iff.mp hv
  exact ⟨hid, Scope.lastIndex?_some hk⟩

/-- A name means the variable of its own scope, if there is one, and otherwise what it means outside. -/
theorem resolve?_of_parent (h : (a.get s).parent = some p) (hlt : p < s) :
    a.resolve? s name = (((a.get s).find? name).map (⟨s, ·⟩)).or (a.resolve? p name) := by
  unfold resolve?
  rw [chain_some h hlt, List.findSome?_cons]
  cases (a.get s).find? name <;> rfl

theorem findSome?_congr {ids : List ScopeId}
    (hfind : ∀ i ∈ ids, (b.get i).find? name = (a.get i).find? name) :
    (ids.findSome? fun id => ((b.get id).find? name).map (VarRef.mk id)) =
      ids.findSome? fun id => ((a.get id).find? name).map (VarRef.mk id) := by
  induction ids with
  | nil => rfl
  | cons id rest ih =>
      rw [List.findSome?_cons, List.findSome?_cons, hfind id List.mem_cons_self,
        ih fun i hi => hfind i (List.mem_cons_of_mem id hi)]

/-- A name means the variable of its own scope, if there is one, and otherwise what the scopes around say. -/
theorem resolve?_eq_or (a : Arena) (s : ScopeId) (name : String) :
    a.resolve? s name = (((a.get s).find? name).map (VarRef.mk s)).or
      ((a.chain s).tail.findSome? fun id => ((a.get id).find? name).map (VarRef.mk id)) := by
  unfold resolve?
  rw [← chain_head_tail a s, List.findSome?_cons, List.tail_cons]
  cases (a.get s).find? name <;> rfl

theorem resolve?_congr (hchain : b.chain s = a.chain s)
    (hfind : ∀ i ∈ a.chain s, (b.get i).find? name = (a.get i).find? name) :
    b.resolve? s name = a.resolve? s name := by
  unfold resolve?
  rw [hchain]
  exact findSome?_congr hfind

theorem resolveFunction?_some {f : Callee} (h : a.resolveFunction? s name = some f) :
    f.name = name ∧ ∃ i ∈ a.chain s, f ∈ (a.get i).functions := by
  obtain ⟨id, hid, hf⟩ := List.exists_of_findSome?_eq_some h
  exact ⟨by simpa using List.find?_some hf, id, hid, List.mem_of_find?_eq_some hf⟩

/-! ## Arenas of one shape -/

/-- **Arenas of one shape**: they differ at most in the registers of variables and in counts of labels. -/
def Alike (a b : Arena) : Prop :=
  b.scopes.size = a.scopes.size ∧ ∀ i, (b.get i).shape = (a.get i).shape

theorem Alike.refl (a : Arena) : Alike a a := ⟨rfl, fun _ => rfl⟩

theorem Alike.trans {c : Arena} (h : Alike a b) (h' : Alike b c) : Alike a c :=
  ⟨h'.1.trans h.1, fun i => (h'.2 i).trans (h.2 i)⟩

theorem Alike.symm (h : Alike a b) : Alike b a := ⟨h.1.symm, fun i => (h.2 i).symm⟩

theorem alike_update {f : Scope → Scope} (hf : ∀ sc, (f sc).shape = sc.shape) : Alike a (a.update i f) :=
  ⟨size_update f, fun j => view_update hf j⟩

theorem alike_updateVariable {f : Variable → Variable} (hf : ∀ x, (f x).shape = x.shape) :
    Alike a (a.updateVariable v f) := by
  refine alike_update fun sc => ?_
  simp only [Scope.shape, Scope.mk.injEq, true_and, and_true]
  apply List.ext_getElem?
  intro k
  simp only [List.getElem?_map, List.getElem?_modify]
  cases sc.vars[k]? with
  | none => rfl
  | some x => by_cases hk : v.index = k <;> simp [hk, hf]

theorem alike_releaseScope : Alike a (a.releaseScope s) := by
  refine alike_update fun sc => ?_
  simp only [Scope.shape, List.map_map]
  congr 1

namespace Alike

variable (h : Alike a b)
include h

theorem size_eq : b.scopes.size = a.scopes.size := h.1

theorem parent_eq (i : ScopeId) : (b.get i).parent = (a.get i).parent := (congrArg Scope.parent (h.2 i) :)

theorem root_eq (i : ScopeId) : (b.get i).root = (a.get i).root := (congrArg Scope.root (h.2 i) :)

theorem functions_eq (i : ScopeId) : (b.get i).functions = (a.get i).functions :=
  (congrArg Scope.functions (h.2 i) :)

theorem slotNames_eq (i : ScopeId) : (b.get i).slotNames = (a.get i).slotNames :=
  (congrArg Scope.slotNames (h.2 i) :)

theorem chain_eq (s : ScopeId) : b.chain s = a.chain s := chain_congr fun i _ => h.parent_eq i

theorem resolve?_eq (s : ScopeId) (name : String) : b.resolve? s name = a.resolve? s name :=
  resolve?_congr (h.chain_eq s) fun i _ => Scope.find?_eq_of_shape (h.2 i) name

theorem lookup?_map_shape (v : VarRef) : (b.lookup? v).map Variable.shape = (a.lookup? v).map Variable.shape := by
  have hvars : (b.get v.scope).vars.map Variable.shape = (a.get v.scope).vars.map Variable.shape :=
    congrArg Scope.vars (h.2 v.scope)
  unfold lookup?
  rw [← List.getElem?_map, ← List.getElem?_map, hvars]

theorem lookup?_some {var : Variable} (hv : a.lookup? v = some var) :
    ∃ var', b.lookup? v = some var' ∧ var'.name = var.name ∧ var'.slot = var.slot := by
  have hmap := h.lookup?_map_shape v
  rw [hv, Option.map_some, Option.map_eq_some_iff] at hmap
  obtain ⟨var', hvar', hshape⟩ := hmap
  exact ⟨var', hvar', Variable.shape_eq_iff.mp hshape⟩

end Alike

/-! ## Well-formed arenas -/

/-- **Well-formed arenas.** Parents come before their children, and the root of a scope is a scope that is
    its own root. -/
structure WellFormed (a : Arena) : Prop where
  inhabited : 0 < a.scopes.size
  parent_lt : ∀ i p, (a.get i).parent = some p → p < i
  root_lt : ∀ i, (a.get i).root < a.scopes.size
  root_root : ∀ i, (a.get (a.get i).root).root = (a.get i).root

theorem wellFormed_initial : initial.WellFormed := by
  have hget : ∀ i, (initial.get i).parent = none ∧ (initial.get i).root = 0 := by
    intro i
    cases i with
    | zero => exact ⟨rfl, rfl⟩
    | succ i => rw [get_of_size_le (by simp [initial])]; exact ⟨rfl, rfl⟩
  refine ⟨by simp [initial], ?_, ?_, ?_⟩
  · intro i p hp; rw [(hget i).1] at hp; exact absurd hp (by simp)
  · intro i; rw [(hget i).2]; simp [initial]
  · intro i; rw [(hget _).2, (hget i).2]

/-- Being well-formed is a matter of parents and roots. -/
theorem WellFormed.congr (ha : a.WellFormed) (hsize : b.scopes.size = a.scopes.size)
    (hparent : ∀ i, (b.get i).parent = (a.get i).parent) (hroot : ∀ i, (b.get i).root = (a.get i).root) :
    b.WellFormed where
  inhabited := hsize ▸ ha.inhabited
  parent_lt i p hp := ha.parent_lt i p ((hparent i).symm.trans hp)
  root_lt i := by rw [hsize, hroot]; exact ha.root_lt i
  root_root i := by rw [hroot i, hroot, ha.root_root]

theorem WellFormed.of_alike (ha : a.WellFormed) (h : Alike a b) : b.WellFormed :=
  ha.congr h.size_eq h.parent_eq h.root_eq

theorem WellFormed.chain_of_parent (ha : a.WellFormed) (h : (a.get s).parent = some p) :
    a.chain s = s :: a.chain p := chain_some h (ha.parent_lt s p h)

/-- A new scope under an old one, with a root of its own or that of its parent. -/
theorem WellFormed.push (ha : a.WellFormed) {sc : Scope} (hp : p < a.scopes.size)
    (hparent : sc.parent = some p) (hroot : sc.root = a.scopes.size ∨ sc.root = (a.get p).root) :
    (Arena.mk (a.scopes.push sc)).WellFormed where
  inhabited := by simp
  parent_lt i q hq := by
    rw [get_push] at hq
    split at hq
    · rename_i hi; rw [hparent] at hq; obtain rfl := Option.some.inj hq; rw [hi]; exact hp
    · exact ha.parent_lt i q hq
  root_lt i := by
    simp only [get_push, Array.size_push]
    split
    · rcases hroot with h | h
      · rw [h]; exact Nat.lt_succ_self _
      · rw [h]; exact Nat.lt_succ_of_lt (ha.root_lt p)
    · exact Nat.lt_succ_of_lt (ha.root_lt i)
  root_root i := by
    have hold : ∀ j, (a.get j).root ≠ a.scopes.size := fun j => Nat.ne_of_lt (ha.root_lt j)
    by_cases hi : i = a.scopes.size
    · rw [get_push, get_push, if_pos hi]
      rcases hroot with h | h
      · rw [if_pos h]
      · rw [h, if_neg (hold p), ha.root_root]
    · rw [get_push, get_push, if_neg hi, if_neg (hold i), ha.root_root]

/-! ## Adding a scope -/

section Push

variable {sc : Scope}

/-- A scope without variables brings none. -/
theorem lookup?_push (hvars : sc.vars = []) (v : VarRef) :
    (Arena.mk (a.scopes.push sc)).lookup? v = a.lookup? v := by
  unfold lookup?
  rw [get_push]
  split
  · rename_i hv; rw [hvars, hv, get_of_size_le (Nat.le_refl _)]; rfl
  · rfl

theorem chain_push_lt (hs : s < a.scopes.size) : (Arena.mk (a.scopes.push sc)).chain s = a.chain s :=
  chain_congr fun _ hi => by rw [get_push_lt sc (Nat.lt_of_le_of_lt hi hs)]

theorem chain_push_self (hp : p < a.scopes.size) (hparent : sc.parent = some p) :
    (Arena.mk (a.scopes.push sc)).chain a.scopes.size = a.scopes.size :: a.chain p := by
  rw [chain_some (p := p) (by rw [get_push, if_pos rfl, hparent]) hp, chain_push_lt hp]

theorem resolve?_push_lt (hs : s < a.scopes.size) :
    (Arena.mk (a.scopes.push sc)).resolve? s name = a.resolve? s name :=
  resolve?_congr (chain_push_lt hs) fun i hi => by
    rw [get_push_lt sc (Nat.lt_of_le_of_lt (le_of_mem_chain hi) hs)]

/-- In a new scope names mean what they mean in its parent. -/
theorem resolve?_push_self (hp : p < a.scopes.size) (hparent : sc.parent = some p) (hvars : sc.vars = []) :
    (Arena.mk (a.scopes.push sc)).resolve? a.scopes.size name = a.resolve? p name := by
  have hget : (Arena.mk (a.scopes.push sc)).get a.scopes.size = sc := by rw [get_push, if_pos rfl]
  rw [resolve?_of_parent (hget.symm ▸ hparent) hp, hget, resolve?_push_lt hp]
  simp [Scope.find?, Scope.lastIndex?, hvars]

end Push

/-! ## Adding a variable -/

/-- A table of names that has a given one, which is added at the end if it is new. -/
def withName (names : List String) (name : String) : List String :=
  if name ∈ names then names else names ++ [name]

theorem slotFor_size : (a.slotFor s name).2.scopes.size = a.scopes.size := by
  unfold slotFor
  simp only
  split
  · rfl
  · exact size_update _

theorem getElem?_of_idxOf? {names : List String} {k : Nat} (h : names.idxOf? name = some k) :
    names[k]? = some name := by
  rw [List.idxOf?, List.findIdx?_eq_some_iff_getElem] at h
  obtain ⟨hlt, heq, _⟩ := h
  rw [List.getElem?_eq_getElem hlt, eq_of_beq heq]

theorem slotFor_get (ha : a.WellFormed) (i : ScopeId) :
    (a.slotFor s name).2.get i = { a.get i with
      slotNames := if i = (a.get s).root then withName (a.get i).slotNames name else (a.get i).slotNames } := by
  unfold slotFor withName
  cases hk : (a.get (a.get s).root).slotNames.idxOf? name with
  | some k =>
      have hmem := List.mem_of_getElem? (getElem?_of_idxOf? hk)
      by_cases hi : i = (a.get s).root
      · subst hi; simp [hk, hmem]
      · simp [hk, hi]
  | none =>
      have hmem := List.idxOf?_eq_none_iff.mp hk
      by_cases hi : i = (a.get s).root
      · subst hi; simp only [hk]; rw [get_update_self _ (ha.root_lt s)]; simp [hmem]
      · simp only [hk]; rw [get_update_ne _ hi]; simp [hi]

theorem slotFor_slot :
    (withName (a.get (a.get s).root).slotNames name)[(a.slotFor s name).1]? = some name := by
  unfold slotFor withName
  cases hk : (a.get (a.get s).root).slotNames.idxOf? name with
  | some k =>
      have hget := getElem?_of_idxOf? hk
      simp only [hk]
      rw [if_pos (List.mem_of_getElem? hget), hget]
  | none =>
      have hmem := List.idxOf?_eq_none_iff.mp hk
      simp [hk, hmem]

/-- **`b` is `a` with a variable added** at the end of a scope; its name has a slot in the scope's frame. -/
structure Inserted (a b : Arena) (s : ScopeId) (var : Variable) : Prop where
  size_eq : b.scopes.size = a.scopes.size
  get_eq : ∀ i, b.get i = { a.get i with
    vars := if i = s then (a.get i).vars ++ [var] else (a.get i).vars
    slotNames := if i = (a.get s).root then withName (a.get i).slotNames var.name else (a.get i).slotNames }
  slot : (withName (a.get (a.get s).root).slotNames var.name)[var.slot]? = some var.name

theorem insert_inserted (ha : a.WellFormed) (hs : s < a.scopes.size) (name : String) (r : Option Register) :
    ∃ var, (a.insert s name r).1 = ⟨s, (a.get s).vars.length⟩ ∧ Inserted a (a.insert s name r).2 s var ∧
      var.name = name ∧ var.register = r ∧ var.active = r.isSome := by
  refine ⟨⟨name, r, r.isSome, (a.slotFor s name).1⟩, ?_, ⟨?_, ?_, slotFor_slot⟩, rfl, rfl, rfl⟩
  · show VarRef.mk s ((a.slotFor s name).2.get s).vars.length = _
    rw [slotFor_get ha]
  · exact (size_update _).trans slotFor_size
  · intro i
    unfold insert
    simp only
    rw [get_update]
    by_cases hi : i = s
    · subst hi; rw [if_pos ⟨rfl, by rw [slotFor_size]; exact hs⟩, slotFor_get ha]; simp
    · rw [if_neg fun hc => hi hc.1, slotFor_get ha]; simp [hi]

namespace Inserted

variable {var : Variable} (h : Inserted a b s var)
include h

theorem parent_eq (i : ScopeId) : (b.get i).parent = (a.get i).parent := by rw [h.get_eq]

theorem root_eq (i : ScopeId) : (b.get i).root = (a.get i).root := by rw [h.get_eq]

theorem functions_eq (i : ScopeId) : (b.get i).functions = (a.get i).functions := by rw [h.get_eq]

theorem chain_eq (i : ScopeId) : b.chain i = a.chain i := chain_congr fun j _ => h.parent_eq j

theorem wellFormed (ha : a.WellFormed) : b.WellFormed := ha.congr h.size_eq h.parent_eq h.root_eq

theorem lookup?_eq (w : VarRef) :
    b.lookup? w = if w = ⟨s, (a.get s).vars.length⟩ then some var else a.lookup? w := by
  unfold lookup?
  rw [h.get_eq]
  simp only
  by_cases hs : w.scope = s
  · rw [if_pos hs]
    by_cases hi : w.index = (a.get s).vars.length
    · have hw : w = ⟨s, (a.get s).vars.length⟩ := by cases w; simp_all
      rw [if_pos hw, hi, hs]
      simp
    · have hw : w ≠ ⟨s, (a.get s).vars.length⟩ := fun he => hi (by rw [he])
      rw [if_neg hw, hs, List.getElem?_append]
      split
      · rfl
      · rename_i hlt
        have hgt : (a.get s).vars.length < w.index := by omega
        rw [List.getElem?_eq_none (by simp; omega), List.getElem?_eq_none (by omega)]
  · have hw : w ≠ ⟨s, (a.get s).vars.length⟩ := fun he => hs (by rw [he])
    rw [if_neg hs, if_neg hw]

theorem find?_eq (i : ScopeId) (name : String) : (b.get i).find? name =
    if i = s ∧ var.name = name then some (a.get s).vars.length else (a.get i).find? name := by
  unfold Scope.find?
  rw [h.get_eq]
  simp only
  by_cases hi : i = s
  · subst hi
    rw [if_pos rfl, Scope.lastIndex?_append]
    by_cases hn : var.name = name <;> simp [Scope.lastIndex?, hn]
  · simp [hi]

/-- The new variable is what its name means in its scope; other names mean what they meant. -/
theorem resolve?_eq (name : String) : b.resolve? s name =
    if var.name = name then some ⟨s, (a.get s).vars.length⟩ else a.resolve? s name := by
  have houter : ∀ i ∈ (a.chain s).tail, (b.get i).find? name = (a.get i).find? name := by
    intro i hi
    rw [h.find?_eq, if_neg fun hc => Nat.ne_of_lt (lt_of_mem_chain_tail hi) hc.1]
  rw [resolve?_eq_or, resolve?_eq_or, h.chain_eq, findSome?_congr houter, h.find?_eq]
  by_cases hn : var.name = name <;> simp [hn]

end Inserted

/-! ## Moving the variables of a block -/

/-- **`b` is `a` with the variables of a block moved** to the end of its parent's. -/
structure Hoisted (a b : Arena) (block parent : ScopeId) : Prop where
  parent_lt : parent < block
  size_eq : b.scopes.size = a.scopes.size
  get_eq : ∀ i, b.get i = { a.get i with
    vars := if i = parent then (a.get i).vars ++ (a.get block).vars
      else if i = block then [] else (a.get i).vars }

theorem hoist_hoisted (ha : a.WellFormed) (hs : s < a.scopes.size) (hp : (a.get s).parent = some p) :
    Hoisted a (a.hoist s) s p := by
  have hlt := ha.parent_lt s p hp
  unfold hoist
  rw [hp]
  refine ⟨hlt, by simp, fun i => ?_⟩
  by_cases hi : i = p
  · subst hi
    rw [get_update_self _ (by rw [size_update]; exact Nat.lt_trans hlt hs), get_update_ne _ (Nat.ne_of_lt hlt)]
    simp
  · rw [get_update_ne _ hi]
    by_cases his : i = s
    · subst his; rw [get_update_self _ hs]; simp [hi]
    · rw [get_update_ne _ his]; simp [hi, his]

namespace Hoisted

variable {block parent : ScopeId} (h : Hoisted a b block parent)
include h

theorem parent_eq (i : ScopeId) : (b.get i).parent = (a.get i).parent := by rw [h.get_eq]

theorem root_eq (i : ScopeId) : (b.get i).root = (a.get i).root := by rw [h.get_eq]

theorem functions_eq (i : ScopeId) : (b.get i).functions = (a.get i).functions := by rw [h.get_eq]

theorem slotNames_eq (i : ScopeId) : (b.get i).slotNames = (a.get i).slotNames := by rw [h.get_eq]

theorem chain_eq (i : ScopeId) : b.chain i = a.chain i := chain_congr fun j _ => h.parent_eq j

theorem wellFormed (ha : a.WellFormed) : b.WellFormed := ha.congr h.size_eq h.parent_eq h.root_eq

/-- A variable is where it was, or has moved from the block. -/
theorem lookup?_cases {var : Variable} (hw : b.lookup? w = some var) :
    (w.scope ≠ block ∧ a.lookup? w = some var) ∨
      ∃ k, w = ⟨parent, (a.get parent).vars.length + k⟩ ∧ a.lookup? ⟨block, k⟩ = some var := by
  unfold lookup? at hw
  rw [h.get_eq] at hw
  simp only at hw
  by_cases hp : w.scope = parent
  · rw [if_pos hp, List.getElem?_append] at hw
    split at hw
    · left; exact ⟨by rw [hp]; exact Nat.ne_of_lt h.parent_lt, hw⟩
    · rename_i hlt
      right
      refine ⟨w.index - (a.get parent).vars.length, ?_, by rw [← hp]; exact hw⟩
      rw [hp] at hlt
      cases w
      simp only at hp hlt ⊢
      rw [hp]
      congr
      omega
  · rw [if_neg hp] at hw
    split at hw
    · exact absurd hw (by simp)
    · rename_i hb; exact Or.inl ⟨hb, hw⟩

/-- **A name means the same variable** in the parent, after the move, as it did in the block before. -/
theorem resolve?_eq (hp : (a.get block).parent = some parent) :
    b.resolve? parent name = (a.resolve? block name).map fun v =>
      if v.scope = block then ⟨parent, (a.get parent).vars.length + v.index⟩ else v := by
  have hself : (b.get parent).find? name =
      (((a.get block).find? name).map ((a.get parent).vars.length + ·)).or ((a.get parent).find? name) := by
    unfold Scope.find?
    rw [h.get_eq, ← Scope.lastIndex?_append]
    simp
  have houter : ∀ i ∈ (a.chain parent).tail, (b.get i).find? name = (a.get i).find? name := by
    intro i hi
    have hip := lt_of_mem_chain_tail hi
    unfold Scope.find?
    rw [h.get_eq]
    simp [Nat.ne_of_lt hip, Nat.ne_of_lt (Nat.lt_trans hip h.parent_lt)]
  -- outside the block nothing has its scope number, so only its own variables are renamed
  have hplace : ∀ v, a.resolve? parent name = some v → v.scope ≠ block := fun v hv =>
    Nat.ne_of_lt (Nat.lt_of_le_of_lt (le_of_mem_chain (resolve?_some hv).1) h.parent_lt)
  have hkeep : (a.resolve? parent name).map (fun v =>
      if v.scope = block then ⟨parent, (a.get parent).vars.length + v.index⟩ else v) =
      a.resolve? parent name := by
    cases hv : a.resolve? parent name with
    | none => rfl
    | some v => rw [Option.map_some, if_neg (hplace v hv)]
  rw [resolve?_of_parent hp h.parent_lt, resolve?_eq_or, h.chain_eq, findSome?_congr houter, hself]
  cases (a.get block).find? name with
  | some k => simp
  | none =>
      rw [Option.map_none, Option.none_or, Option.map_none, Option.none_or, hkeep, resolve?_eq_or]

end Hoisted

end Arena

end Offside
