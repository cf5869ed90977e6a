import Offside.Proofs.Arena
import Offside.Machine.Frame

/-!
# `Proofs.Names` — names, slots and the growth of the arena

Inside a function a name means one variable, whichever block first bound it, and a variable's slot is the
position of its name in the function's table (`Named`). A stretch of code generation in a scope only adds
to the arena: new scopes, new variables in that scope, new names at the end of the table, new functions
(`Grows`). Entering a block, binding a name, leaving a block and generating a whole function are described
here by what they do to both.
-/

namespace Offside

open Machine

theorem getElem?_of_extends {α : Type} {l l' : List α} {i : Nat} {x : α} (h : l <+: l') (hx : l[i]? = some x) :
    l'[i]? = some x := by
  obtain ⟨rest, rfl⟩ := h
  rw [List.getElem?_append_left (List.getElem?_eq_some_iff.mp hx).1]
  exact hx

namespace Arena

variable {a b d : Arena} {c : ScopeId} {v w : VarRef} {var : Variable} {names names' : List String}
  {fns fns' : List Callee}

/-- The names with a slot in the frame that a scope lives in; a name's position is its slot. -/
def table (a : Arena) (c : ScopeId) : List String := (a.get (a.get c).root).slotNames

theorem slotCount_eq (a : Arena) (c : ScopeId) : a.slotCount c = (a.table c).length := rfl

/-- **Names are in order** for code in scope `c`: a variable of the current function is what its name
    means there, its slot is the place of its name in the table, and functions take their parameters in the
    argument registers. -/
structure Named (a : Arena) (c : ScopeId) : Prop where
  wellFormed : a.WellFormed
  current_lt : c < a.scopes.size
  table_nodup : (a.table c).Nodup
  slot : ∀ {v var}, a.lookup? v = some var → (a.get v.scope).root = (a.get c).root →
    (a.table c)[var.slot]? = some var.name
  meaning : ∀ {v var}, a.lookup? v = some var → (a.get v.scope).root = (a.get c).root →
    a.resolve? c var.name = some v
  params : ∀ {i f}, f ∈ (a.get i).functions →
    f.params.map (·.2) = RegisterClass.argument.members.take f.params.length
  result : ∀ {i f}, f ∈ (a.get i).functions → f.result = resultRegister
  functions_nodup : ∀ i, ((a.get i).functions.map (·.name)).Nodup

/-- **What code generation in scope `c` adds to the arena**: variables in `c` with the given names, and the
    given functions. Everything else that was there stays. -/
structure Grows (names : List String) (fns : List Callee) (c : ScopeId) (a b : Arena) : Prop where
  size_le : a.scopes.size ≤ b.scopes.size
  parent_eq : ∀ {i}, i < a.scopes.size → (b.get i).parent = (a.get i).parent
  root_eq : ∀ {i}, i < a.scopes.size → (b.get i).root = (a.get i).root
  vars_eq : ∀ {i}, i < a.scopes.size → i ≠ c →
    (b.get i).vars.map Variable.shape = (a.get i).vars.map Variable.shape
  slotNames_eq : ∀ {i}, i < a.scopes.size → i ≠ (a.get c).root → (b.get i).slotNames = (a.get i).slotNames
  functions_eq : ∀ {i}, i < a.scopes.size →
    (b.get i).functions = (a.get i).functions ++ if i = c then fns else []
  fresh : ∀ {i}, a.scopes.size ≤ i → (b.get i).vars = [] ∨ a.scopes.size ≤ (b.get i).root
  table_prefix : a.table c <+: b.table c
  mem_table : ∀ {x}, x ∈ b.table c ↔ x ∈ a.table c ∨ x ∈ names
  table_new : ∀ {x}, x ∈ b.table c → x ∉ a.table c → a.resolve? c x = none
  resolve_mono : ∀ {x}, (a.resolve? c x).isSome = true → (b.resolve? c x).isSome = true

/-! ## Growth -/

theorem Alike.table_eq (h : Alike a b) (c : ScopeId) : b.table c = a.table c := by
  unfold table
  rw [h.root_eq, h.slotNames_eq]

theorem Alike.vars_eq (h : Alike a b) (i : ScopeId) :
    (b.get i).vars.map Variable.shape = (a.get i).vars.map Variable.shape := (congrArg Scope.vars (h.2 i) :)

theorem Alike.grows (h : Alike a b) (c : ScopeId) : Grows [] [] c a b where
  size_le := Nat.le_of_eq h.size_eq.symm
  parent_eq _ := h.parent_eq _
  root_eq _ := h.root_eq _
  vars_eq _ _ := h.vars_eq _
  slotNames_eq _ _ := h.slotNames_eq _
  functions_eq _ := by rw [h.functions_eq]; simp
  fresh hi := by
    left
    rw [get_of_size_le (by rw [h.size_eq]; exact hi)]
    rfl
  table_prefix := (h.table_eq c).symm ▸ List.prefix_refl (a.table c)
  mem_table := by rw [h.table_eq]; simp
  table_new hx hnot := by rw [h.table_eq] at hx; exact absurd hx hnot
  resolve_mono hx := by rw [h.resolve?_eq]; exact hx

namespace Grows

theorem chain_eq (h : Grows names fns c a b) {i : ScopeId} (hi : i < a.scopes.size) :
    b.chain i = a.chain i :=
  chain_congr fun _ hj => h.parent_eq (Nat.lt_of_le_of_lt hj hi)

theorem trans (h : Grows names fns c a b) (h' : Grows names' fns' c b d) (hc : c < a.scopes.size) :
     Grows (names ++ names') (fns ++ fns') c a d where
  size_le := Nat.le_trans h.size_le h'.size_le
  parent_eq hi := (h'.parent_eq (Nat.lt_of_lt_of_le hi h.size_le)).trans (h.parent_eq hi)
  root_eq hi := (h'.root_eq (Nat.lt_of_lt_of_le hi h.size_le)).trans (h.root_eq hi)
  vars_eq hi hne := (h'.vars_eq (Nat.lt_of_lt_of_le hi h.size_le) hne).trans (h.vars_eq hi hne)
  slotNames_eq hi hne :=
    (h'.slotNames_eq (Nat.lt_of_lt_of_le hi h.size_le) (by rw [h.root_eq hc]; exact hne)).trans
      (h.slotNames_eq hi hne)
  functions_eq {i} hi := by
    rw [h'.functions_eq (Nat.lt_of_lt_of_le hi h.size_le), h.functions_eq hi, List.append_assoc]
    by_cases hic : i = c <;> simp [hic]
  fresh {i} hi := by
    rcases Nat.lt_or_ge i b.scopes.size with hlt | hge
    · -- a scope of the first stretch: the second one does not touch it
      rcases h.fresh hi with hvars | hroot
      · left
        have hne : i ≠ c := fun he => absurd (he ▸ hi) (Nat.not_le.mpr hc)
        have hmap := h'.vars_eq hlt hne
        rw [hvars, List.map_nil, List.map_eq_nil_iff] at hmap
        exact hmap
      · right; rw [h'.root_eq hlt]; exact hroot
    · exact (h'.fresh hge).imp_right (Nat.le_trans h.size_le)
  table_prefix := h.table_prefix.trans h'.table_prefix
  mem_table {x} := by rw [h'.mem_table, h.mem_table, List.mem_append, or_assoc]
  table_new {x} hx hnot := by
    by_cases hb : x ∈ b.table c
    · exact h.table_new hb hnot
    · have hnone := h'.table_new hx hb
      cases hr : a.resolve? c x with
      | none => rfl
      | some v =>
          have hsome := h.resolve_mono (x := x) (by rw [hr]; rfl)
          rw [hnone] at hsome
          exact absurd hsome (by simp)
  resolve_mono hx := h'.resolve_mono (h.resolve_mono hx)

end Grows

/-! ## Names -/

namespace Named

/-- A name that means nothing is no variable's of the current function. -/
theorem name_ne {name : String} (h : Named a c) (hnone : a.resolve? c name = none)
    (hv : a.lookup? v = some var) (hroot : (a.get v.scope).root = (a.get c).root) : var.name ≠ name := by
  rintro rfl
  exact absurd (hnone.symm.trans (h.meaning hv hroot)) (by simp)

theorem slot_lt (h : Named a c) (hv : a.lookup? v = some var)
    (hroot : (a.get v.scope).root = (a.get c).root) : var.slot < a.slotCount c := by
  rw [slotCount_eq]
  exact (List.getElem?_eq_some_iff.mp (h.slot hv hroot)).1

theorem of_alike (h : Named a c) (hab : Alike a b) : Named b c where
  wellFormed := h.wellFormed.of_alike hab
  current_lt := by rw [hab.size_eq]; exact h.current_lt
  table_nodup := by rw [hab.table_eq]; exact h.table_nodup
  slot hv hroot := by
    obtain ⟨var', hv', hname, hslot⟩ := hab.symm.lookup?_some hv
    rw [hab.root_eq, hab.root_eq] at hroot
    rw [hab.table_eq, ← hname, ← hslot]
    exact h.slot hv' hroot
  meaning hv hroot := by
    obtain ⟨var', hv', hname, _⟩ := hab.symm.lookup?_some hv
    rw [hab.root_eq, hab.root_eq] at hroot
    rw [hab.resolve?_eq, ← hname]
    exact h.meaning hv' hroot
  params hf := by rw [hab.functions_eq] at hf; exact h.params hf
  result hf := by rw [hab.functions_eq] at hf; exact h.result hf
  functions_nodup i := by rw [hab.functions_eq]; exact h.functions_nodup i

end Named

/-! ## Binding a name -/

theorem mem_withName {x name : String} : x ∈ withName names name ↔ x ∈ names ∨ x = name := by
  unfold withName
  split
  · rename_i hmem
    exact ⟨Or.inl, fun h => h.elim id fun he => he ▸ hmem⟩
  · simp

theorem prefix_withName (names : List String) (name : String) : names <+: withName names name := by
  unfold withName
  split
  · exact List.prefix_refl _
  · exact List.prefix_append _ _

theorem nodup_withName {name : String} (h : names.Nodup) : (withName names name).Nodup := by
  unfold withName
  split
  · exact h
  · rename_i hmem
    rw [List.nodup_append]
    exact ⟨h, by simp, fun x hx y hy he => hmem (by rw [← List.mem_singleton.mp hy, ← he]; exact hx)⟩

theorem Inserted.table_eq (h : Inserted a b c var) : b.table c = withName (a.table c) var.name := by
  unfold table
  rw [h.root_eq, h.get_eq]
  simp

/-- A variable with a new name is added to the current scope. -/
theorem Named.insert (h : Named a c) (hb : Inserted a b c var)
    (hnew : ∀ {v var'}, a.lookup? v = some var' → (a.get v.scope).root = (a.get c).root →
      var'.name ≠ var.name) : Named b c where
  wellFormed := hb.wellFormed h.wellFormed
  current_lt := by rw [hb.size_eq]; exact h.current_lt
  table_nodup := by rw [hb.table_eq]; exact nodup_withName h.table_nodup
  slot {w x} hw hroot := by
    rw [hb.table_eq]
    rw [hb.lookup?_eq] at hw
    split at hw
    · obtain rfl := Option.some.inj hw
      exact hb.slot
    · rw [hb.root_eq, hb.root_eq] at hroot
      exact getElem?_of_extends (prefix_withName (a.table c) var.name) (h.slot hw hroot)
  meaning {w x} hw hroot := by
    rw [hb.resolve?_eq]
    rw [hb.lookup?_eq] at hw
    split at hw
    · rename_i he
      obtain rfl := Option.some.inj hw
      rw [if_pos rfl, he]
    · rw [hb.root_eq, hb.root_eq] at hroot
      rw [if_neg (hnew hw hroot).symm]
      exact h.meaning hw hroot
  params hf := by rw [hb.functions_eq] at hf; exact h.params hf
  result hf := by rw [hb.functions_eq] at hf; exact h.result hf
  functions_nodup i := by rw [hb.functions_eq]; exact h.functions_nodup i

/-- Binding a name that means nothing yet. -/
theorem Inserted.grows (h : Inserted a b c var) (hnone : a.resolve? c var.name = none) :
    Grows [var.name] [] c a b where
  size_le := Nat.le_of_eq h.size_eq.symm
  parent_eq _ := h.parent_eq _
  root_eq _ := h.root_eq _
  vars_eq _ hne := by rw [h.get_eq]; simp [hne]
  slotNames_eq _ hne := by rw [h.get_eq]; simp [hne]
  functions_eq _ := by rw [h.functions_eq]; simp
  fresh hi := by
    left
    rw [get_of_size_le (by rw [h.size_eq]; exact hi)]
    rfl
  table_prefix := by rw [h.table_eq]; exact prefix_withName _ _
  mem_table {x} := by rw [h.table_eq, mem_withName, List.mem_singleton]
  table_new {x} hx hnot := by
    rw [h.table_eq, mem_withName] at hx
    rw [hx.resolve_left hnot]
    exact hnone
  resolve_mono {x} hx := by
    rw [h.resolve?_eq]
    split
    · rfl
    · exact hx

/-! ## Blocks -/

theorem scope_lt_of_lookup? (hv : a.lookup? v = some var) : v.scope < a.scopes.size := by
  rcases Nat.lt_or_ge v.scope a.scopes.size with hlt | hge
  · exact hlt
  · unfold lookup? at hv
    rw [get_of_size_le hge] at hv
    exact absurd hv (by simp [missing])

/-- The scope of a block, before anything is bound in it. -/
def blockScope (a : Arena) (c : ScopeId) : Scope :=
  { name := (a.get c).name, parent := some c, root := (a.get c).root }

theorem pushBlock_eq (a : Arena) (c : ScopeId) : (a.pushBlock c).2 = ⟨a.scopes.push (a.blockScope c)⟩ := rfl

theorem get_pushBlock_self (a : Arena) (c : ScopeId) : (a.pushBlock c).2.get a.scopes.size = a.blockScope c := by
  rw [pushBlock_eq, get_push, if_pos rfl]

theorem get_pushBlock_lt {i : ScopeId} (c : ScopeId) (hi : i < a.scopes.size) :
    (a.pushBlock c).2.get i = a.get i := by
  rw [pushBlock_eq, get_push_lt _ hi]

theorem size_pushBlock (a : Arena) (c : ScopeId) : (a.pushBlock c).2.scopes.size = a.scopes.size + 1 := by
  rw [pushBlock_eq, Array.size_push]

section Push

variable {sc : Scope}

/-- A scope without functions brings none. -/
theorem functions_push (hfunctions : sc.functions = []) (i : ScopeId) :
    ((Arena.mk (a.scopes.push sc)).get i).functions = (a.get i).functions := by
  rw [get_push]
  split
  · rename_i hi; rw [hfunctions, hi, get_of_size_le (Nat.le_refl _)]; rfl
  · rfl

theorem table_pushBlock (h : Named a c) : (a.pushBlock c).2.table a.scopes.size = a.table c := by
  unfold table
  rw [get_pushBlock_self]
  exact congrArg Scope.slotNames (get_pushBlock_lt c (h.wellFormed.root_lt c))

theorem resolve?_pushBlock (h : Named a c) (x : String) :
    (a.pushBlock c).2.resolve? a.scopes.size x = a.resolve? c x :=
  resolve?_push_self h.current_lt rfl rfl

/-- A block is entered. -/
theorem Named.pushBlock (h : Named a c) : Named (a.pushBlock c).2 a.scopes.size := by
  have hold : ∀ {w x}, (a.pushBlock c).2.lookup? w = some x →
      ((a.pushBlock c).2.get w.scope).root = ((a.pushBlock c).2.get a.scopes.size).root →
      a.lookup? w = some x ∧ (a.get w.scope).root = (a.get c).root := by
    intro w x hw hx
    rw [pushBlock_eq, lookup?_push rfl] at hw
    rw [get_pushBlock_lt c (scope_lt_of_lookup? hw), get_pushBlock_self] at hx
    exact ⟨hw, hx⟩
  have hfunctions : ∀ i, ((a.pushBlock c).2.get i).functions = (a.get i).functions := functions_push rfl
  refine ⟨h.wellFormed.push h.current_lt rfl (Or.inr rfl), by rw [size_pushBlock]; exact Nat.lt_succ_self _,
    ?_, ?_, ?_, ?_, ?_, ?_⟩
  · rw [table_pushBlock h]; exact h.table_nodup
  · intro w x hw hx
    rw [table_pushBlock h]
    exact h.slot (hold hw hx).1 (hold hw hx).2
  · intro w x hw hx
    rw [resolve?_pushBlock h]
    exact h.meaning (hold hw hx).1 (hold hw hx).2
  · intro i f hf; rw [hfunctions] at hf; exact h.params hf
  · intro i f hf; rw [hfunctions] at hf; exact h.result hf
  · intro i; rw [hfunctions]; exact h.functions_nodup i

/-- A function's scope is entered: no variable is its own yet. -/
theorem Named.pushFunction (hparent : sc.parent = some c) (hvars : sc.vars = []) (hfunctions : sc.functions = [])
    (h : Named a c) (hroot : sc.root = a.scopes.size) (hslots : sc.slotNames = []) :
    Named (Arena.mk (a.scopes.push sc)) a.scopes.size := by
  have hself : (Arena.mk (a.scopes.push sc)).get a.scopes.size = sc := by rw [get_push, if_pos rfl]
  have htable : (Arena.mk (a.scopes.push sc)).table a.scopes.size = [] := by
    unfold table; rw [hself, hroot, hself, hslots]
  have hold : ∀ {w x}, (Arena.mk (a.scopes.push sc)).lookup? w = some x →
      ((Arena.mk (a.scopes.push sc)).get w.scope).root ≠ sc.root := by
    intro w x hw hx
    rw [lookup?_push hvars] at hw
    rw [get_push_lt sc (scope_lt_of_lookup? hw), hroot] at hx
    exact absurd hx (Nat.ne_of_lt (h.wellFormed.root_lt _))
  refine ⟨h.wellFormed.push h.current_lt hparent (Or.inl hroot), by simp, ?_, ?_, ?_, ?_, ?_, ?_⟩
  · rw [htable]; exact List.nodup_nil
  · intro w x hw hx; rw [hself] at hx; exact absurd hx (hold hw)
  · intro w x hw hx; rw [hself] at hx; exact absurd hx (hold hw)
  · intro i f hf; rw [functions_push hfunctions] at hf; exact h.params hf
  · intro i f hf; rw [functions_push hfunctions] at hf; exact h.result hf
  · intro i; rw [functions_push hfunctions]; exact h.functions_nodup i

end Push

/-- A block is left: its variables move to the scope around it. -/
theorem Named.hoist {block parent : ScopeId} (h : Named a block) (hb : Hoisted a b block parent)
    (hparent : (a.get block).parent = some parent) (hroot : (a.get block).root = (a.get parent).root) :
    Named b parent := by
  have htable : b.table parent = a.table block := by
    unfold table; rw [hb.root_eq, hb.slotNames_eq, hroot]
  -- a variable of the function was one before, at the place that moves to its new one
  have hold : ∀ {w x}, b.lookup? w = some x → (b.get w.scope).root = (b.get parent).root →
      ∃ w', a.lookup? w' = some x ∧ (a.get w'.scope).root = (a.get block).root ∧
        w = if w'.scope = block then ⟨parent, (a.get parent).vars.length + w'.index⟩ else w' := by
    intro w x hw hx
    rw [hb.root_eq, hb.root_eq, ← hroot] at hx
    rcases hb.lookup?_cases hw with ⟨hne, hw'⟩ | ⟨k, rfl, hk⟩
    · exact ⟨w, hw', hx, by rw [if_neg hne]⟩
    · exact ⟨⟨block, k⟩, hk, rfl, by simp⟩
  refine ⟨hb.wellFormed h.wellFormed, ?_, ?_, ?_, ?_, ?_, ?_, ?_⟩
  · rw [hb.size_eq]; exact Nat.lt_trans hb.parent_lt h.current_lt
  · rw [htable]; exact h.table_nodup
  · intro w x hw hx
    obtain ⟨w', hw', hx', _⟩ := hold hw hx
    rw [htable]
    exact h.slot hw' hx'
  · intro w x hw hx
    obtain ⟨w', hw', hx', rfl⟩ := hold hw hx
    rw [hb.resolve?_eq hparent, h.meaning hw' hx']
    rfl
  · intro i f hf; rw [hb.functions_eq] at hf; exact h.params hf
  · intro i f hf; rw [hb.functions_eq] at hf; exact h.result hf
  · intro i; rw [hb.functions_eq]; exact h.functions_nodup i

/-- **A whole block**: entered, filled and left again. -/
theorem Grows.block (ha : Named a c) (h : Grows names fns a.scopes.size (a.pushBlock c).2 b)
    (hd : Hoisted b d a.scopes.size c) : Grows names [] c a d := by
  have hsize := size_pushBlock a c
  have hself := get_pushBlock_self a c
  have hlt : ∀ {i}, i < a.scopes.size → i < (a.pushBlock c).2.scopes.size := fun hi => by
    rw [hsize]; exact Nat.lt_succ_of_lt hi
  have hblock : a.scopes.size < (a.pushBlock c).2.scopes.size := by rw [hsize]; exact Nat.lt_succ_self _
  have hrootc : (d.get c).root = (a.get c).root := by
    rw [hd.root_eq, h.root_eq (hlt ha.current_lt), get_pushBlock_lt c ha.current_lt]
  have htable : d.table c = b.table a.scopes.size := by
    unfold table
    rw [hrootc, hd.slotNames_eq, h.root_eq hblock, hself]
    rfl
  have hbparent : (b.get a.scopes.size).parent = some c := by
    rw [h.parent_eq hblock, hself]
    rfl
  exact {
    size_le := by rw [hd.size_eq]; exact Nat.le_trans (Nat.le_of_lt hblock) h.size_le
    parent_eq := by intro i hi; rw [hd.parent_eq, h.parent_eq (hlt hi), get_pushBlock_lt c hi]
    root_eq := by intro i hi; rw [hd.root_eq, h.root_eq (hlt hi), get_pushBlock_lt c hi]
    vars_eq := by
      intro i hi hne
      rw [hd.get_eq]
      simp only [if_neg hne, if_neg (Nat.ne_of_lt hi)]
      rw [h.vars_eq (hlt hi) (Nat.ne_of_lt hi), get_pushBlock_lt c hi]
    slotNames_eq := by
      intro i hi hne
      rw [hd.slotNames_eq, h.slotNames_eq (hlt hi) (by rw [hself]; exact hne), get_pushBlock_lt c hi]
    functions_eq := by
      intro i hi
      rw [hd.functions_eq, h.functions_eq (hlt hi), if_neg (Nat.ne_of_lt hi), get_pushBlock_lt c hi]
      simp
    fresh := by
      -- the block itself is empty again, and other new scopes belong to functions inside it
      intro i hi
      have hic : i ≠ c := fun he => absurd (he ▸ hi) (Nat.not_le.mpr ha.current_lt)
      rw [hd.get_eq]
      by_cases hib : i = a.scopes.size
      · left; rw [if_neg hic, if_pos hib]
      · rcases h.fresh (i := i) (by rw [hsize]; exact Nat.lt_of_le_of_ne hi (Ne.symm hib)) with hv | hr
        · left; simp [hic, hv]
        · right; exact Nat.le_trans (Nat.le_of_lt hblock) hr
    table_prefix := by rw [htable, ← table_pushBlock ha]; exact h.table_prefix
    mem_table := by intro x; rw [htable, ← table_pushBlock ha]; exact h.mem_table
    table_new := by
      intro x hx hnot
      rw [htable] at hx
      rw [← table_pushBlock ha] at hnot
      rw [← resolve?_pushBlock ha]
      exact h.table_new hx hnot
    resolve_mono := by
      intro x hx
      rw [hd.resolve?_eq hbparent, Option.isSome_map]
      exact h.resolve_mono (by rw [resolve?_pushBlock ha]; exact hx) }

/-! ## Functions -/

/-- **`b` is `a` with a function added** to a scope that had none of its name. -/
structure Defined (a b : Arena) (s : ScopeId) (f : Callee) : Prop where
  size_eq : b.scopes.size = a.scopes.size
  get_eq : ∀ i, b.get i = { a.get i with
    functions := if i = s then (a.get i).functions ++ [f] else (a.get i).functions }
  new : f.name ∉ (a.get s).functions.map (·.name)

theorem defineFunction_defined {s : ScopeId} {f : Callee} (hs : s < a.scopes.size)
    (h : a.defineFunction s f = .ok b) : Defined a b s f := by
  unfold defineFunction at h
  split at h
  · exact absurd h (by simp)
  · rename_i hnone
    obtain rfl := Except.ok.inj h
    refine ⟨size_update _, fun i => ?_, fun hmem => ?_⟩
    · by_cases hi : i = s
      · subst hi; rw [get_update_self _ hs]; simp
      · rw [get_update_ne _ hi]; simp [hi]
    · obtain ⟨g, hg, hname⟩ := List.mem_map.mp hmem
      apply hnone
      rw [Scope.findFunction?, List.find?_isSome]
      exact ⟨g, hg, by simp [hname]⟩

/-- A function that takes its parameters in the argument registers becomes known. -/
theorem Named.define {s : ScopeId} {f : Callee} (h : Named a c) (hb : Defined a b s f)
    (hparams : f.params.map (·.2) = RegisterClass.argument.members.take f.params.length)
    (hresult : f.result = resultRegister) : Named b c := by
  have hlookup : ∀ w, b.lookup? w = a.lookup? w := fun w => by unfold lookup?; rw [hb.get_eq]
  have hroot : ∀ i, (b.get i).root = (a.get i).root := fun i => by rw [hb.get_eq]
  have hparent : ∀ i, (b.get i).parent = (a.get i).parent := fun i => by rw [hb.get_eq]
  have htable : b.table c = a.table c := by unfold table; rw [hroot, hb.get_eq]
  have hresolve : ∀ x, b.resolve? c x = a.resolve? c x := fun x =>
    resolve?_congr (chain_congr fun i _ => hparent i) fun i _ => by rw [hb.get_eq]; rfl
  have hmem : ∀ {i g}, g ∈ (b.get i).functions → g ∈ (a.get i).functions ∨ g = f := by
    intro i g hg
    rw [hb.get_eq] at hg
    simp only at hg
    split at hg
    · exact (List.mem_append.mp hg).imp_right List.mem_singleton.mp
    · exact Or.inl hg
  exact {
    wellFormed := h.wellFormed.congr hb.size_eq hparent hroot
    current_lt := by rw [hb.size_eq]; exact h.current_lt
    table_nodup := by rw [htable]; exact h.table_nodup
    slot := by
      intro w x hw hx
      rw [hlookup] at hw
      rw [hroot, hroot] at hx
      rw [htable]
      exact h.slot hw hx
    meaning := by
      intro w x hw hx
      rw [hlookup] at hw
      rw [hroot, hroot] at hx
      rw [hresolve]
      exact h.meaning hw hx
    params := by
      intro i g hg
      rcases hmem hg with hg | rfl
      · exact h.params hg
      · exact hparams
    result := by
      intro i g hg
      rcases hmem hg with hg | rfl
      · exact h.result hg
      · exact hresult
    functions_nodup := by
      intro i
      rw [hb.get_eq]
      by_cases hi : i = s
      · subst hi
        simp only [if_true, List.map_append, List.map_cons, List.map_nil]
        rw [List.nodup_append]
        refine ⟨h.functions_nodup i, by simp, fun x hx y hy he => hb.new ?_⟩
        rw [← List.mem_singleton.mp hy, ← he]
        exact hx
      · simp only [if_neg hi]; exact h.functions_nodup i }

/-- **The parameters of a function are declared**: its scope, empty before, holds them in their registers,
    and they have the first slots. -/
structure Declared (f : ScopeId) (placed : List (String × Register)) (a b : Arena) : Prop where
  size_eq : b.scopes.size = a.scopes.size
  get_ne : ∀ {i}, i ≠ f → b.get i = a.get i
  parent_eq : (b.get f).parent = (a.get f).parent
  root_eq : (b.get f).root = f
  functions_eq : (b.get f).functions = (a.get f).functions
  labels_eq : (b.get f).labels = (a.get f).labels
  vars_eq : (b.get f).vars.map (fun v => (v.name, v.activeRegister?)) = placed.map fun p => (p.1, some p.2)
  table_eq : b.table f = placed.map (·.1)
  named : Named b f

/-- One more parameter. -/
theorem Declared.insert {f : ScopeId} {placed : List (String × Register)} {name : String} {r : Register}
    (h : Declared f placed a b) (hnew : name ∉ placed.map (·.1)) :
    Declared f (placed ++ [(name, r)]) a (b.insert f name (some r)).2 := by
  obtain ⟨var, _, hb, rfl, hreg, hact⟩ :=
    insert_inserted h.named.wellFormed h.named.current_lt name (some r)
  have hself := hb.get_eq f
  have hactive : var.activeRegister? = some r := by unfold Variable.activeRegister?; rw [hact, hreg]; rfl
  refine ⟨hb.size_eq.trans h.size_eq, ?_, ?_, ?_, ?_, ?_, ?_, ?_, ?_⟩
  · intro i hi
    rw [hb.get_eq, ← h.get_ne hi]
    simp [hi, h.root_eq]
  · rw [hb.parent_eq, h.parent_eq]
  · rw [hb.root_eq, h.root_eq]
  · rw [hb.functions_eq, h.functions_eq]
  · rw [hself]; exact h.labels_eq
  · rw [hself]
    simp only [if_true, List.map_append, h.vars_eq, List.map_cons, List.map_nil, hactive]
  · rw [hb.table_eq, h.table_eq, withName, if_neg hnew, List.map_append]
    rfl
  · refine h.named.insert hb fun {w x} hw hroot hname => hnew ?_
    -- a variable of the function's frame has its name in the table, which lists the parameters so far
    rw [← h.table_eq, ← hname]
    exact List.mem_of_getElem? (h.named.slot hw hroot)

/-- **The scopes of `a` keep their names in `b`**: parents, roots, variables and slots. New scopes belong to
    functions that are new, or have no variables. -/
structure Untouched (a b : Arena) : Prop where
  size_le : a.scopes.size ≤ b.scopes.size
  parent_eq : ∀ {i}, i < a.scopes.size → (b.get i).parent = (a.get i).parent
  root_eq : ∀ {i}, i < a.scopes.size → (b.get i).root = (a.get i).root
  vars_eq : ∀ {i}, i < a.scopes.size →
    (b.get i).vars.map Variable.shape = (a.get i).vars.map Variable.shape
  slotNames_eq : ∀ {i}, i < a.scopes.size → (b.get i).slotNames = (a.get i).slotNames
  fresh : ∀ {i}, a.scopes.size ≤ i → (b.get i).vars = [] ∨ a.scopes.size ≤ (b.get i).root

/-- **A whole function**: once its scope is made and known in `c`, its body leaves the other scopes alone. -/
theorem Grows.untouched {f : Callee} {start : Arena} (hsize : start.scopes.size = a.scopes.size + 1)
    (hstart : ∀ {i}, i < a.scopes.size → start.get i = { a.get i with
      functions := if i = c then (a.get i).functions ++ [f] else (a.get i).functions })
    (hroot : (start.get a.scopes.size).root = a.scopes.size)
    (h : Grows names fns a.scopes.size start b) : Untouched a b := by
  have hlt : ∀ {i}, i < a.scopes.size → i < start.scopes.size := fun hi => by
    rw [hsize]; exact Nat.lt_succ_of_lt hi
  refine ⟨?_, ?_, ?_, ?_, ?_, ?_⟩
  · exact Nat.le_trans (by rw [hsize]; exact Nat.le_succ _) h.size_le
  · intro i hi; rw [h.parent_eq (hlt hi), hstart hi]
  · intro i hi; rw [h.root_eq (hlt hi), hstart hi]
  · intro i hi; rw [h.vars_eq (hlt hi) (Nat.ne_of_lt hi), hstart hi]
  · intro i hi; rw [h.slotNames_eq (hlt hi) (by rw [hroot]; exact Nat.ne_of_lt hi), hstart hi]
  · intro i hi
    by_cases hif : i = a.scopes.size
    · right
      exact Nat.le_of_eq (by rw [hif, h.root_eq (by rw [hsize]; exact Nat.lt_succ_self _), hroot])
    · refine (h.fresh (i := i) ?_).imp_right (Nat.le_trans ?_)
      · rw [hsize]; exact Nat.lt_of_le_of_ne hi (Ne.symm hif)
      · rw [hsize]; exact Nat.le_succ _

namespace Untouched

variable (h : Untouched a b)
include h

theorem table_eq (ha : Named a c) : b.table c = a.table c := by
  unfold table
  rw [h.root_eq ha.current_lt, h.slotNames_eq (ha.wellFormed.root_lt c)]

theorem resolve?_eq (hc : c < a.scopes.size) (x : String) : b.resolve? c x = a.resolve? c x := by
  have hle : ∀ {i}, i ≤ c → i < a.scopes.size := fun hi => Nat.lt_of_le_of_lt hi hc
  refine resolve?_congr (chain_congr fun i hi => h.parent_eq (hle hi)) fun i hi => ?_
  unfold Scope.find?
  rw [← Scope.lastIndex?_map_shape, h.vars_eq (hle (le_of_mem_chain hi)), Scope.lastIndex?_map_shape]

/-- A variable of an old function was there, with its name and slot. -/
theorem lookup?_old (ha : Named a c) (hw : b.lookup? w = some var)
    (hroot : (b.get w.scope).root = (b.get c).root) :
    ∃ x, a.lookup? w = some x ∧ x.name = var.name ∧ x.slot = var.slot ∧
      (a.get w.scope).root = (a.get c).root := by
  rw [h.root_eq ha.current_lt] at hroot
  rcases Nat.lt_or_ge w.scope a.scopes.size with hlt | hge
  · have hmap : (b.lookup? w).map Variable.shape = (a.lookup? w).map Variable.shape := by
      unfold lookup?
      rw [← List.getElem?_map, h.vars_eq hlt, List.getElem?_map]
    rw [hw, Option.map_some, eq_comm, Option.map_eq_some_iff] at hmap
    obtain ⟨x, hx, hshape⟩ := hmap
    obtain ⟨hname, hslot⟩ := Variable.shape_eq_iff.mp hshape
    exact ⟨x, hx, hname, hslot, by rw [← h.root_eq hlt]; exact hroot⟩
  · rcases h.fresh hge with hnil | hnew
    · unfold lookup? at hw; rw [hnil] at hw; exact absurd hw (by simp)
    · rw [hroot] at hnew; exact absurd (ha.wellFormed.root_lt c) (Nat.not_lt.mpr hnew)

/-- After a function the names of the scope around it are in order again. -/
theorem named {g : ScopeId} (ha : Named a c) (hb : Named b g) : Named b c := by
  refine ⟨hb.wellFormed, Nat.lt_of_lt_of_le ha.current_lt h.size_le, ?_, ?_, ?_, hb.params, hb.result,
    hb.functions_nodup⟩
  · rw [h.table_eq ha]; exact ha.table_nodup
  · intro w x hw hroot
    obtain ⟨y, hy, hname, hslot, hroot'⟩ := h.lookup?_old ha hw hroot
    rw [h.table_eq ha, ← hname, ← hslot]
    exact ha.slot hy hroot'
  · intro w x hw hroot
    obtain ⟨y, hy, hname, _, hroot'⟩ := h.lookup?_old ha hw hroot
    rw [h.resolve?_eq ha.current_lt, ← hname]
    exact ha.meaning hy hroot'

/-- For the scope around a function, only the function itself is new. -/
theorem grows (ha : Named a c)
    (hfunctions : ∀ {i}, i < a.scopes.size → (b.get i).functions = (a.get i).functions ++ if i = c then fns else []) :
    Grows [] fns c a b := by
  refine ⟨h.size_le, h.parent_eq, h.root_eq, fun hi _ => h.vars_eq hi, fun hi _ => h.slotNames_eq hi,
    hfunctions, h.fresh, ?_, ?_, ?_, ?_⟩
  · exact (h.table_eq ha).symm ▸ List.prefix_refl (a.table c)
  · intro x; rw [h.table_eq ha]; simp
  · intro x hx hnot; rw [h.table_eq ha] at hx; exact absurd hx hnot
  · intro x hx; rw [h.resolve?_eq ha.current_lt]; exact hx

end Untouched

end Arena

end Offside
