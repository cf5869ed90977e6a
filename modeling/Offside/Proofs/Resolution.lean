import Mathlib
import Offside.Proofs.Operations

/-!
# `Proofs.Resolution` — what a name means is a matter of nesting

Scopes are nested, and a name means the variable of the innermost scope that binds it: of several in one
scope, the last. This holds however the scopes came about (`resolution_is_lexical`), and with it what the
index of names says: the index is changed entry by entry, but every entry stays the last position of its
name (`Effect.mirrors`).

When the variables of a block move to the scope around it, a name means the same variable there as it did
in the block: the block's own variables come to stand behind those of its parent, and so win as before.
-/

namespace Offside

/-! ## The last position of a name -/

namespace Scope

variable {name : String} {vars : List Variable} {k : Nat}

theorem split_of_getElem? {var : Variable} (h : vars[k]? = some var) :
    ∃ front back, vars = front ++ var :: back ∧ front.length = k := by
  obtain ⟨hlt, rfl⟩ := List.getElem?_eq_some_iff.mp h
  refine ⟨vars.take k, vars.drop (k + 1), ?_, List.length_take_of_le (Nat.le_of_lt hlt)⟩
  rw [← List.drop_eq_getElem_cons hlt, List.take_append_drop]

/-- **The last position**: the name is there, and nowhere behind. -/
theorem lastIndex?_eq_some_iff : lastIndex? name vars = some k ↔
    (∃ var, vars[k]? = some var ∧ var.name = name) ∧ ∀ j var, k < j → vars[j]? = some var → var.name ≠ name := by
  constructor
  · intro h
    refine ⟨lastIndex?_some h, ?_⟩
    rintro j var hlt hj rfl
    -- the list from `j` on has the name, so the last position is `j` or behind it
    obtain ⟨front, back, rfl, hlength⟩ := split_of_getElem? hj
    rw [lastIndex?_append] at h
    cases hback : lastIndex? var.name (var :: back) with
    | some i =>
        rw [hback, Option.map_some, Option.some_or] at h
        have hk := Option.some.inj h
        omega
    | none => exact lastIndex?_eq_none_iff.mp hback var List.mem_cons_self rfl
  · rintro ⟨⟨var, hk, rfl⟩, hlast⟩
    obtain ⟨front, back, rfl, hlength⟩ := split_of_getElem? hk
    have hback : lastIndex? var.name back = none := by
      rw [lastIndex?_eq_none_iff]
      intro x hx
      obtain ⟨i, hi⟩ := List.mem_iff_getElem?.mp hx
      apply hlast (k + 1 + i) x (by omega)
      rw [List.getElem?_append_right (by omega)]
      have hshift : k + 1 + i - front.length = i + 1 := by omega
      rw [hshift, List.getElem?_cons_succ]
      exact hi
    rw [lastIndex?_append]
    simp [lastIndex?, hback, hlength]

theorem find?_isSome_iff {s : Scope} : (s.find? name).isSome = true ↔ ∃ var ∈ s.vars, var.name = name := by
  rw [← not_iff_not, Bool.not_eq_true, Option.isSome_eq_false_iff, Option.isNone_iff_eq_none]
  unfold find?
  rw [lastIndex?_eq_none_iff]
  simp

end Scope

/-! ## The index agrees with the arena -/

namespace NameIndex

variable {t : NameIndex} {a b : Arena} {s : ScopeId}

/-- Variables that are entered one after the other leave the last position of each name. -/
theorem enter_eq (t : NameIndex) (s : ScopeId) (k : Nat) (vars : List Variable) (i : ScopeId) (x : String) :
    t.enter s k vars i x = if i = s then ((Scope.lastIndex? x vars).map (k + ·)).or (t s x) else t i x := by
  induction vars generalizing t k with
  | nil =>
      by_cases hi : i = s
      · simp [enter, Scope.lastIndex?, hi]
      · simp [enter, hi]
  | cons v rest ih =>
      simp only [enter, ih, set, Scope.lastIndex?]
      by_cases hi : i = s
      · cases hrest : Scope.lastIndex? x rest with
        | some j => simp [hi, Nat.add_comm, Nat.add_left_comm]
        | none =>
            by_cases hx : v.name = x
            · simp [hi, hx]
            · simp [hi, hx, Ne.symm hx]
      · simp [hi]

theorem mirrors_initial : empty.Mirrors Arena.initial := by
  intro i x
  unfold Scope.find?
  rw [(Lower.initial_get i).1]
  rfl

theorem Mirrors.keep (h : t.Mirrors a) (hb : a.Keeps b) : t.Mirrors b := by
  intro i x
  rw [h i x]
  unfold Scope.find?
  rw [← Scope.lastIndex?_map_shape, ← hb.vars_eq, Scope.lastIndex?_map_shape]

theorem Mirrors.push (h : t.Mirrors a) {sc : Scope} (hvars : sc.vars = []) :
    (t.clear a.scopes.size).Mirrors ⟨a.scopes.push sc⟩ := by
  intro i x
  unfold clear
  rw [Arena.get_push]
  by_cases hi : i = a.scopes.size
  · rw [if_pos hi, if_pos hi]
    unfold Scope.find?
    rw [hvars]
    rfl
  · rw [if_neg hi, if_neg hi]
    exact h i x

theorem Mirrors.insert {var : Variable} (h : t.Mirrors a) (hb : a.Inserted b s var) :
    (t.set s var.name (a.get s).vars.length).Mirrors b := by
  intro i x
  unfold set
  rw [hb.find?_eq, h i x]
  by_cases hi : i = s ∧ x = var.name
  · rw [if_pos hi, if_pos ⟨hi.1, hi.2.symm⟩]
  · rw [if_neg hi, if_neg fun hc => hi ⟨hc.1, hc.2.symm⟩]

theorem Mirrors.hoist {block parent : ScopeId} (h : t.Mirrors a) (hb : a.Hoisted b block parent) :
    ((t.clear block).enter parent (a.get parent).vars.length (a.get block).vars).Mirrors b := by
  have hne : parent ≠ block := Nat.ne_of_lt hb.parent_lt
  intro i x
  rw [enter_eq]
  unfold Scope.find? clear
  rw [hb.get_eq]
  by_cases hp : i = parent
  · -- the variables of the block stand behind those of its parent
    simp only [hp, if_true, hne, if_false]
    rw [Scope.lastIndex?_append, h parent x]
    rfl
  · by_cases hblock : i = block
    · simp [hblock, hne.symm, Scope.lastIndex?]
    · simp only [hp, hblock, if_false]
      exact h i x

end NameIndex

namespace Arena

variable {a b : Arena} {op : ScopeOp} {i : ScopeId} {kinds : List ScopeKind}

/-- **Every operation keeps the index in agreement** with the arena. -/
theorem Effect.mirrors {t : NameIndex} (he : Effect a op b) (h : t.Mirrors a) : (t.after a op).Mirrors b := by
  cases he with
  | kept _ hkeeps hindex =>
      rw [hindex t h]
      exact h.keep hkeeps
  | pushed _ hb _ hvars _ _ hindex =>
      subst hb
      rw [hindex t]
      exact h.push hvars
  | inserted _ hinserted hindex =>
      rw [hindex t h]
      exact h.insert hinserted
  | hoisted _ _ hhoisted hindex =>
      rw [hindex t]
      exact h.hoist hhoisted

/-! ## Chains -/

/-- A chain goes from a scope to its parent and on, up to the global scope. -/
theorem Orderly.chain_parents (h : Orderly kinds a) (hi : i < a.scopes.size) :
    (a.chain i).IsChain (fun c p => (a.get c).parent = some p) ∧ (a.chain i).getLast? = some globalScope := by
  induction i using Nat.strongRecOn with
  | ind i ih =>
      by_cases hzero : i = globalScope
      · subst hzero
        rw [chain_none h.parent_none]
        exact ⟨.singleton _, rfl⟩
      · obtain ⟨p, hp⟩ := h.parent_some (Nat.pos_of_ne_zero hzero) hi
        have hlt := h.wellFormed.parent_lt i p hp
        obtain ⟨hparents, hlast⟩ := ih p hlt (Nat.lt_trans hlt hi)
        rw [h.wellFormed.chain_of_parent hp, ← chain_head_tail a p]
        rw [← chain_head_tail a p] at hparents hlast
        exact ⟨List.isChain_cons_cons.mpr ⟨hp, hparents⟩, hlast⟩

theorem chain_descends (a : Arena) (i : ScopeId) : (a.chain i).Pairwise (· > ·) := by
  induction i using Nat.strongRecOn with
  | ind i ih =>
      rcases chain_cases a i with hi | ⟨p, -, hlt, hi⟩
      · rw [hi]
        exact List.pairwise_singleton _ _
      · rw [hi]
        apply List.Pairwise.cons
        · intro j hj
          exact Nat.lt_of_le_of_lt (le_of_mem_chain hj) hlt
        · exact ih p hlt

/-- The root of a scope is the first function's scope of its chain. -/
theorem Orderly.root_nearest (h : Orderly kinds a) (hi : i < a.scopes.size) :
    ∃ inner outer, a.chain i = inner ++ (a.get i).root :: outer ∧ (∀ j ∈ inner, kinds[j]? = some .block) ∧
      kinds[(a.get i).root]? = some .function := by
  induction i using Nat.strongRecOn with
  | ind i ih =>
      obtain ⟨k, hk⟩ : ∃ k, kinds[i]? = some k := ⟨_, List.getElem?_eq_getElem (by rw [h.length_eq]; exact hi)⟩
      cases k with
      | function =>
          rw [h.function hk]
          exact ⟨[], (a.chain i).tail, (chain_head_tail a i).symm, by simp, hk⟩
      | block =>
          obtain ⟨p, hp, hroot⟩ := h.block hk
          have hlt := h.wellFormed.parent_lt i p hp
          obtain ⟨inner, outer, hchain, hinner, hfunction⟩ := ih p hlt (Nat.lt_trans hlt hi)
          rw [h.wellFormed.chain_of_parent hp, hchain, hroot]
          refine ⟨i :: inner, outer, rfl, ?_, hfunction⟩
          intro j hj
          rcases List.mem_cons.mp hj with rfl | hj
          · exact hk
          · exact hinner j hj

/-! ## Names -/

/-- A name means the variable of the first scope of the chain that has one of that name. -/
theorem resolve?_eq_some_iff {name : String} {v : VarRef} : a.resolve? i name = some v ↔
    ∃ inner outer, a.chain i = inner ++ v.scope :: outer ∧ (∀ j ∈ inner, (a.get j).find? name = none) ∧
      (a.get v.scope).find? name = some v.index := by
  unfold resolve?
  rw [List.findSome?_eq_some_iff]
  simp only [Option.map_eq_some_iff, Option.map_eq_none_iff]
  constructor
  · rintro ⟨inner, s, outer, hchain, ⟨k, hk, rfl⟩, hinner⟩
    exact ⟨inner, outer, hchain, hinner, hk⟩
  · rintro ⟨inner, outer, hchain, hinner, hk⟩
    exact ⟨inner, v.scope, outer, hchain, ⟨v.index, hk, rfl⟩, hinner⟩

/-- The variables of a block, where they have moved to, and all others, where they are, are as they were. -/
theorem Hoisted.lookup?_eq {block parent : ScopeId} (h : Hoisted a b block parent) {v : VarRef} {x : Variable}
    (hv : a.lookup? v = some x) :
    b.lookup? (if v.scope = block then ⟨parent, (a.get parent).vars.length + v.index⟩ else v) = some x := by
  unfold lookup? at hv ⊢
  by_cases hblock : v.scope = block
  · rw [if_pos hblock, h.get_eq]
    rw [hblock] at hv
    simp only [if_true]
    rw [List.getElem?_append_right (Nat.le_add_right _ _), Nat.add_sub_cancel_left]
    exact hv
  · rw [if_neg hblock, h.get_eq]
    by_cases hparent : v.scope = parent
    · rw [hparent] at hv
      simp only [hparent, if_true]
      rw [List.getElem?_append_left (List.getElem?_eq_some_iff.mp hv).1]
      exact hv
    · simp only [hparent, hblock, if_false]
      exact hv

/-- **Moving the variables of a block keeps what names mean**: the same variable, or none. -/
theorem Hoisted.meaning {block parent : ScopeId} (h : Hoisted a b block parent)
    (hparent : (a.get block).parent = some parent) (name : String) :
    (b.resolve? parent name = none ↔ a.resolve? block name = none) ∧
      ∀ v, a.resolve? block name = some v →
        ∃ u x, b.resolve? parent name = some u ∧ b.lookup? u = some x ∧ a.lookup? v = some x := by
  rw [h.resolve?_eq hparent]
  refine ⟨Option.map_eq_none_iff, ?_⟩
  intro v hv
  obtain ⟨-, x, hx, -⟩ := resolve?_some hv
  exact ⟨_, x, by rw [hv]; rfl, h.lookup?_eq hx, hx⟩

end Arena

/-! ## Sequences of operations -/

namespace Workbench

variable {o : Options} {ops : List ScopeOp} {w : Workbench}

theorem mirrors (h : after o ops = some w) : w.index.Mirrors w.state.arena := by
  refine after_induction (P := fun _ w => w.index.Mirrors w.state.arena) NameIndex.mirrors_initial ?_ ops w h
  intro ops w op w' hafter hw hstep
  obtain ⟨happlies, harena, hindex, -⟩ := step_eq_some hstep
  rw [harena, hindex]
  exact (Arena.effect_act (orderly hafter).wellFormed happlies).mirrors hw

/-- Leaving a block, as far as names are concerned. -/
theorem hoist_meaning (h : after o ops = some w) {s p : ScopeId} (hs : s < w.state.arena.scopes.size)
    (hparent : (w.state.arena.get s).parent = some p) :
    ∃ t, (Lower.hoist s).run w.state = .ok () t ∧ ∀ name,
      (t.arena.resolve? p name = none ↔ w.state.arena.resolve? s name = none) ∧
        ∀ v, w.state.arena.resolve? s name = some v →
          ∃ u x, t.arena.resolve? p name = some u ∧ t.arena.lookup? u = some x ∧ w.state.arena.lookup? v = some x := by
  obtain ⟨_, t, hrun, harena⟩ := ScopeOp.leadsTo_hoist s w.state
  refine ⟨t, hrun, ?_⟩
  rw [harena]
  exact (Arena.hoist_hoisted (orderly h).wellFormed hs hparent).meaning hparent

end Workbench

/-- **Resolution is lexical**, whatever is done to a fresh arena. Parents come before their children, so a
    chain goes down from parent to parent and ends in the global scope, and the root of a scope is the
    nearest function's scope of its chain. The index of a scope has exactly the names of its variables,
    each with its last position. A name means the variable that the index gives in the first scope of the
    chain that has the name, and nothing exactly if no scope has it. When the variables of a block move to
    its parent, every name means there what it meant in the block. -/
theorem resolution_is_lexical {o : Options} {ops : List ScopeOp} {w : Workbench} (h : Workbench.after o ops = some w) :
    (∀ i p, (w.state.arena.get i).parent = some p → p < i) ∧
    (∀ i < w.state.arena.scopes.size,
      (w.state.arena.chain i).head? = some i ∧
      (w.state.arena.chain i).IsChain (fun c p => (w.state.arena.get c).parent = some p) ∧
      (w.state.arena.chain i).Pairwise (· > ·) ∧ (w.state.arena.chain i).getLast? = some globalScope ∧
      ∃ inner outer, w.state.arena.chain i = inner ++ (w.state.arena.get i).root :: outer ∧
        (∀ j ∈ inner, (ScopeOp.kinds ops)[j]? = some .block) ∧
        (ScopeOp.kinds ops)[(w.state.arena.get i).root]? = some .function) ∧
    (∀ i name, ((w.index i name).isSome = true ↔ ∃ var ∈ (w.state.arena.get i).vars, var.name = name) ∧
      ∀ k, w.index i name = some k ↔
        (∃ var, (w.state.arena.get i).vars[k]? = some var ∧ var.name = name) ∧
        ∀ j var, k < j → (w.state.arena.get i).vars[j]? = some var → var.name ≠ name) ∧
    (∀ i name, (w.state.arena.resolve? i name = none ↔ ∀ j ∈ w.state.arena.chain i, w.index j name = none) ∧
      ∀ v, w.state.arena.resolve? i name = some v ↔
        ∃ inner outer, w.state.arena.chain i = inner ++ v.scope :: outer ∧ (∀ j ∈ inner, w.index j name = none) ∧
          w.index v.scope name = some v.index) ∧
    ∀ s p, (ScopeOp.kinds ops)[s]? = some .block → (w.state.arena.get s).parent = some p →
      ∃ t, (Lower.hoist s).run w.state = .ok () t ∧ ∀ name,
        (t.arena.resolve? p name = none ↔ w.state.arena.resolve? s name = none) ∧
          ∀ v, w.state.arena.resolve? s name = some v →
            ∃ u x, t.arena.resolve? p name = some u ∧ t.arena.lookup? u = some x ∧
              w.state.arena.lookup? v = some x := by
  have horderly := Workbench.orderly h
  have hmirrors := Workbench.mirrors h
  refine ⟨horderly.wellFormed.parent_lt, ?_, ?_, ?_, ?_⟩
  · intro i hi
    obtain ⟨hparents, hlast⟩ := horderly.chain_parents hi
    refine ⟨?_, hparents, Arena.chain_descends _ i, hlast, horderly.root_nearest hi⟩
    rw [← Arena.chain_head_tail]
    rfl
  · intro i name
    simp only [hmirrors i name]
    exact ⟨Scope.find?_isSome_iff, fun k => Scope.lastIndex?_eq_some_iff⟩
  · intro i name
    simp only [hmirrors _ name]
    refine ⟨?_, fun v => Arena.resolve?_eq_some_iff⟩
    unfold Arena.resolve?
    simp only [List.findSome?_eq_none_iff, Option.map_eq_none_iff]
  · intro s p hs hparent
    exact Workbench.hoist_meaning h (horderly.lt_of_kind hs) hparent

/-- A block that binds a name again that its function has, as a parameter would, and one that is new. -/
def shadowingBlock : List ScopeOp :=
  [.define 0 "g", .pushFunction 0 "f", .declare 1 "a" .a1, .pushBlock 1, .declare 2 "a" .a2, .define 2 "b",
    .define 2 "g", .bind ⟨2, 1⟩ .t0]

/-- Outside the block, once it is left, the name means the variable of the block, in its register. -/
theorem resolution_is_lexical_shadowingBlock :
    ∃ w t v u, Workbench.after {} shadowingBlock = some w ∧ (Lower.hoist 2).run w.state = .ok () t ∧
      w.state.arena.resolve? 2 "a" = some v ∧ t.arena.resolve? 1 "a" = some u ∧ u ≠ v ∧
      t.arena.lookup? u = some ⟨"a", some .a2, true, 0⟩ := by
  obtain ⟨w, hw, hv, hvar, hparent⟩ : ∃ w, Workbench.after {} shadowingBlock = some w ∧
      (w.state.arena.resolve? 2 "a" = some ⟨2, 0⟩ ∧ w.state.arena.lookup? ⟨2, 0⟩ = some ⟨"a", some .a2, true, 0⟩ ∧
        (w.state.arena.get 2).parent = some 1) := by
    apply Workbench.exists_after
    cbv
  obtain ⟨-, -, -, -, hhoist⟩ := resolution_is_lexical hw
  obtain ⟨t, hrun, hnames⟩ := hhoist 2 1 rfl hparent
  obtain ⟨u, x, hu, hx, hsame⟩ := (hnames "a").2 _ hv
  obtain rfl := Option.some.inj (hvar.symm.trans hsame)
  refine ⟨w, t, _, u, hw, hrun, hv, hu, ?_, hx⟩
  -- the new place is in the chain of the parent, so it is not in the block
  rintro rfl
  have hmem := (Arena.resolve?_some hu).1
  exact absurd (Arena.le_of_mem_chain hmem) (by decide)

end Offside
