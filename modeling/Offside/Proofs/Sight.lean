import Mathlib.Data.List.Nodup
import Offside.Proofs.Functions

/-!
# `Proofs.Sight` — what code generation has in sight

Three views of the state of code generation, and how each move changes them: the register that holds the
variable of a name (`State.holder`), the functions that can be called (`State.visible`), and how far code and
frame have grown (`Extends`). They are all that a statement about running code needs to know of the arena.
-/

namespace Offside.Lower

open Machine

variable {s t u mid : State} {held : List Register} {r : Register} {v w : VarRef} {var : Variable}
  {x y : String} {names named pending params : List String} {fns : List Callee}

/-! ## Holders -/

theorem resolve?_inj {a : Arena} {c : ScopeId} (hx : a.resolve? c x = some v) (hy : a.resolve? c y = some v) :
    x = y := by
  obtain ⟨_, var, hvar, rfl⟩ := Arena.resolve?_some hx
  obtain ⟨_, var', hvar', rfl⟩ := Arena.resolve?_some hy
  rw [hvar] at hvar'
  rw [Option.some.inj hvar']

theorem holder_of_inactive (h : ∀ v, s.arena.activeRegister? v = none) (x : String) : s.holder x = none := by
  unfold State.holder
  cases s.arena.resolve? s.current x with
  | none => rfl
  | some v => exact h v

theorem Does.holder_eq {is : List Instr} {p : Pool} (h : Does is p s.arena s t) (x : String) :
    t.holder x = s.holder x := by
  unfold State.holder
  rw [h.arena, h.current]

theorem holder_eq_some_iff : s.holder x = some r ↔
    ∃ v, s.arena.resolve? s.current x = some v ∧ s.arena.activeRegister? v = some r := Option.bind_eq_some_iff

namespace Ready

/-- **Variables are in different registers.** -/
theorem holder_inj (hs : Ready held s) (hx : s.holder x = some r) (hy : s.holder y = some r) : x = y := by
  obtain ⟨v, hv, hvr⟩ := holder_eq_some_iff.mp hx
  obtain ⟨w, hw, hwr⟩ := holder_eq_some_iff.mp hy
  obtain rfl := hs.tidy.distinct hvr hwr
  exact resolve?_inj hv hw

/-- A held register holds no variable. -/
theorem not_mem_held (hs : Ready held s) (hx : s.holder x = some r) : r ∉ held := by
  obtain ⟨v, _, hvr⟩ := holder_eq_some_iff.mp hx
  exact hs.tidy.active_not_held hvr

theorem clobbered_of_holder (hs : Ready held s) (hx : s.holder x = some r) : r.isCallerClobbered = true := by
  obtain ⟨v, _, hvr⟩ := holder_eq_some_iff.mp hx
  exact hs.tidy.clobbered hvr

end Ready

/-- The register of one variable of the current function changes. -/
theorem holder_update {o : Option Register} (hs : Ready held s) (hvar : Local s.arena s.current v var)
    (halike : s.arena.Alike t.arena) (hcurrent : t.current = s.current)
    (hactive : ∀ w, t.arena.activeRegister? w = if w = v then o else s.arena.activeRegister? w) (y : String) :
    t.holder y = if y = var.name then o else s.holder y := by
  have hmeaning := hs.named.meaning hvar.1 hvar.2.2
  unfold State.holder
  rw [hcurrent, halike.resolve?_eq]
  by_cases hy : y = var.name
  · rw [if_pos hy, hy, hmeaning, Option.bind_some, hactive, if_pos rfl]
  · rw [if_neg hy]
    refine Option.bind_congr fun w hw => ?_
    rw [hactive, if_neg]
    rintro rfl
    exact hy (resolve?_inj hw hmeaning)

/-- **A variable goes to its slot**: the register that held it is stored there. -/
structure Saves (x : String) (k : Nat) (r : Register) (s t : State) : Prop where
  holder : s.holder x = some r
  slot : (s.arena.table s.current)[k]? = some x
  holder_eq : ∀ y, t.holder y = if y = x then none else s.holder y
  does : ∃ p a, Does [storeSlot r k] p a s t

theorem WroteBack.saves (h : WroteBack v s t) (hs : Ready held s) : t = s ∨ ∃ x k r, Saves x k r s t := by
  have hactive := h.activeRegister?_eq
  have hsteady := h.steady hs
  rcases h with ⟨_, rfl⟩ | ⟨var, r, hvar, hact, hdoes⟩
  · exact Or.inl rfl
  · right
    have hv : s.arena.activeRegister? v = some r := by unfold Arena.activeRegister?; rw [hvar]; exact hact
    obtain ⟨hchain, hroot⟩ := hs.tidy.place hv
    refine ⟨var.name, var.slot, r, ?_, hs.named.slot hvar hroot, ?_, _, _, hdoes⟩
    · exact holder_eq_some_iff.mpr ⟨v, hs.named.meaning hvar hroot, hv⟩
    · exact holder_update hs ⟨hvar, hchain, hroot⟩ hsteady.alike hsteady.current hactive

/-- **A variable comes from its slot**: a register is loaded from there, and holds it from then on. -/
structure Loads (x : String) (k : Nat) (r : Register) (s t : State) : Prop where
  holder : s.holder x = none
  slot : (s.arena.table s.current)[k]? = some x
  holder_eq : ∀ y, t.holder y = if y = x then some r else s.holder y
  does : ∃ p a, Does [loadSlot r k] p a s t

theorem Reloaded.loads (h : Reloaded v r s t) (hs : Ready held s) :
    ∃ mid x k, Allocated r s mid ∧ s.arena.resolve? s.current x = some v ∧ Loads x k r mid t := by
  obtain ⟨mid, var, hnone, halloc, hvar, hdoes⟩ := h
  have hmid := halloc.ready hs
  have hsteady := halloc.steady hs
  have hmeaning := hmid.named.meaning hvar.1 hvar.2.2
  have hholder : mid.holder var.name = none := by
    unfold State.holder
    rw [hmeaning, Option.bind_some]
    exact halloc.activeRegister?_eq_none hnone
  rw [hsteady.current, hsteady.alike.resolve?_eq] at hmeaning
  have halike : mid.arena.Alike t.arena := by
    rw [hdoes.arena]; exact Arena.alike_updateVariable fun _ => rfl
  refine ⟨mid, var.name, var.slot, halloc, hmeaning, hholder, hmid.named.slot hvar.1 hvar.2.2, ?_, _, _, hdoes⟩
  refine holder_update hmid hvar halike hdoes.current fun w => ?_
  rw [hdoes.arena]
  exact Arena.activeRegister?_bind hvar.1

/-- The variable that is stored to is in the register that the top of the stack was taken into. -/
theorem holder_bind {is : List Instr} {p : Pool} (hs : Ready held s) (hvar : Local s.arena s.current v var)
    (h : Does is p (s.arena.updateVariable v (·.bind r)) s t) (y : String) :
    t.holder y = if y = var.name then some r else s.holder y := by
  refine holder_update hs hvar ?_ h.current (fun w => ?_) y
  · rw [h.arena]; exact Arena.alike_updateVariable fun _ => rfl
  · rw [h.arena]; exact Arena.activeRegister?_bind hvar.1

/-- Making a label moves no variable. -/
theorem Does.holder_nextLabel {is : List Instr} {p : Pool} {scope : ScopeId} {purpose : String}
    (h : Does is p (s.arena.nextLabel scope purpose).2 s t) (x : String) : t.holder x = s.holder x := by
  unfold State.holder
  rw [h.arena, h.current, (Arena.alike_nextLabel s.arena scope purpose).resolve?_eq]
  refine Option.bind_congr fun w _ => ?_
  unfold Arena.activeRegister?
  rw [Arena.lookup?_nextLabel]

/-- In a block variables are where they were. -/
theorem Entered.holder_eq (h : Entered s t) (hs : Ready held s) (x : String) : t.holder x = s.holder x := by
  unfold State.holder
  rw [h.arena, h.current]
  show ((s.arena.pushBlock s.current).2.resolve? s.arena.scopes.size x).bind _ = _
  rw [Arena.resolve?_pushBlock hs.named]
  refine Option.bind_congr fun w _ => ?_
  unfold Arena.activeRegister?
  rw [Arena.pushBlock_eq, Arena.lookup?_push rfl]

/-! ## Functions in sight -/

/-- The functions that can be called, the latest first. -/
def State.visible (s : State) : List Callee :=
  (s.arena.chain s.current).flatMap fun i => (s.arena.get i).functions.reverse

theorem Steady.visible_eq (h : Steady pending s t) : t.visible = s.visible := by
  unfold State.visible
  rw [h.current, h.alike.chain_eq]
  simp only [h.alike.functions_eq]

/-- **Functions that were defined come first.** -/
theorem Advances.visible_eq (h : Advances names fns named pending s t) (hs : Ready held s) :
    t.visible = fns.reverse ++ s.visible := by
  have hlt := hs.named.current_lt
  have htail : (s.arena.chain s.current).tail.flatMap (fun i => (t.arena.get i).functions.reverse) =
      (s.arena.chain s.current).tail.flatMap fun i => (s.arena.get i).functions.reverse := by
    refine List.flatMap_congr fun i hi => ?_
    have hi := Arena.lt_of_mem_chain_tail hi
    rw [h.grows.functions_eq (Nat.lt_trans hi hlt), if_neg (Nat.ne_of_lt hi), List.append_nil]
  unfold State.visible
  rw [h.current, h.grows.chain_eq hlt, ← Arena.chain_head_tail, List.flatMap_cons, List.flatMap_cons, htail,
    h.grows.functions_eq hlt, if_pos rfl, List.reverse_append, List.append_assoc]

theorem Entered.visible_eq (h : Entered s t) (hs : Ready held s) : t.visible = s.visible := by
  have hlt := hs.named.current_lt
  unfold State.visible
  rw [h.arena, h.current]
  show ((s.arena.pushBlock s.current).2.chain s.arena.scopes.size).flatMap _ = _
  rw [Arena.pushBlock_eq, Arena.chain_push_self hlt rfl, List.flatMap_cons]
  simp only [Arena.functions_push (show (s.arena.blockScope s.current).functions = [] from rfl)]
  rw [Arena.get_of_size_le (Nat.le_refl _)]
  rfl

/-- Inside a function, the function itself is the latest one in sight. -/
theorem Opened.visible_eq {name : String} {o : Opening} {f : Callee} (h : Opened name params o f mid t)
    (hmid : Ready held mid) : t.visible = f :: mid.visible := by
  have hlt := hmid.named.current_lt
  have hparent := Arena.chain_some h.parent_eq (by rw [h.current]; exact hlt)
  have hchain : t.arena.chain mid.current = mid.arena.chain mid.current :=
    Arena.chain_congr fun i hi => by rw [h.get_lt (Nat.lt_of_le_of_lt hi hlt)]
  have htail : (mid.arena.chain mid.current).tail.flatMap (fun i => (t.arena.get i).functions.reverse) =
      (mid.arena.chain mid.current).tail.flatMap fun i => (mid.arena.get i).functions.reverse := by
    refine List.flatMap_congr fun i hi => ?_
    have hi := Arena.lt_of_mem_chain_tail hi
    rw [h.get_lt (Nat.lt_trans hi hlt), if_neg (Nat.ne_of_lt hi)]
  unfold State.visible
  rw [hparent, List.flatMap_cons, h.functions_eq, hchain, ← Arena.chain_head_tail, List.flatMap_cons,
    List.flatMap_cons, htail, h.get_lt hlt, if_pos rfl, List.reverse_append]
  rfl

/-- Of functions with different names, the first is the last of its name. -/
theorem find?_reverse_of_nodup {l : List Callee} (hl : (l.map (·.name)).Nodup) (name : String) :
    l.reverse.find? (·.name == name) = l.find? (·.name == name) := by
  cases hf : l.find? (·.name == name) with
  | none =>
      rw [List.find?_eq_none] at hf ⊢
      exact fun f hmem => hf f (List.mem_reverse.mp hmem)
  | some f =>
      cases hg : l.reverse.find? (·.name == name) with
      | none =>
          rw [List.find?_eq_none] at hg
          exact absurd (List.find?_some hf) (hg f (List.mem_reverse.mpr (List.mem_of_find?_eq_some hf)))
      | some g =>
          have hgname : (g.name == name) = true := List.find?_some (p := fun f : Callee => f.name == name) hg
          have hfname : (f.name == name) = true := List.find?_some (p := fun f : Callee => f.name == name) hf
          have hname : g.name = f.name := by rw [eq_of_beq hgname, eq_of_beq hfname]
          rw [List.inj_on_of_nodup_map hl (List.mem_reverse.mp (List.mem_of_find?_eq_some hg))
            (List.mem_of_find?_eq_some hf) hname]

/-- **A name means the latest function of that name in sight.** -/
theorem resolveFunction?_eq_find? (hs : Ready held s) (name : String) :
    s.arena.resolveFunction? s.current name = s.visible.find? (·.name == name) := by
  unfold Arena.resolveFunction? State.visible Scope.findFunction?
  rw [List.find?_flatMap]
  congr 1
  funext i
  exact (find?_reverse_of_nodup (hs.named.functions_nodup i) name).symm

/-! ## Growth of code and frame -/

/-- **Code and frame have grown.** -/
structure Extends (s t : State) : Prop where
  code : s.code.toList <+: t.code.toList
  table : s.arena.table s.current <+: t.arena.table t.current

theorem Extends.refl (s : State) : Extends s s := ⟨List.prefix_refl _, List.prefix_refl _⟩

theorem Extends.trans (h : Extends s t) (h' : Extends t u) : Extends s u :=
  ⟨h.code.trans h'.code, h.table.trans h'.table⟩

theorem Segment.code_extends {n : Nat} (h : Segment n named pending s t) : s.code.toList <+: t.code.toList := by
  obtain ⟨new, _, hnew, _⟩ := h.lines
  rw [hnew]
  exact List.prefix_append _ _

theorem Does.code_extends {is : List Instr} {p : Pool} {a : Arena} (h : Does is p a s t) :
    s.code.toList <+: t.code.toList := by
  obtain ⟨new, hnew, _⟩ := h.lines
  rw [hnew]
  exact List.prefix_append _ _

theorem Steady.extends (h : Steady pending s t) : Extends s t := by
  have htable : t.arena.table t.current = s.arena.table s.current := by rw [h.current, h.alike.table_eq]
  exact ⟨h.segment.code_extends, htable ▸ List.prefix_refl _⟩

theorem Does.extends_of_alike {is : List Instr} {p : Pool} {a : Arena} (h : Does is p a s t)
    (halike : s.arena.Alike a) : Extends s t := by
  have htable : t.arena.table t.current = s.arena.table s.current := by rw [h.current, h.arena, halike.table_eq]
  exact ⟨h.code_extends, htable ▸ List.prefix_refl _⟩

theorem Does.extends {is : List Instr} {p : Pool} (h : Does is p s.arena s t) : Extends s t :=
  h.extends_of_alike (.refl _)

theorem extends_place (s : State) (label : String) : Extends s (s.place label) :=
  ⟨(segment_label (n := 0) label).code_extends, List.prefix_refl _⟩

theorem Advances.extends (h : Advances names fns named pending s t) : Extends s t := by
  refine ⟨h.segment.code_extends, ?_⟩
  rw [h.current]
  exact h.grows.table_prefix

theorem Entered.extends (h : Entered s t) (hs : Ready held s) : Extends s t := by
  refine ⟨(Entered.segment (n := 0) h).code_extends, ?_⟩
  rw [h.arena, h.current]
  exact (Arena.table_pushBlock hs.named).symm ▸ List.prefix_refl _

theorem Left.extends {outer : ScopeId} (h : Left outer s t)
    (hroot : (s.arena.get s.current).root = (s.arena.get outer).root) : Extends s t := by
  refine ⟨(Left.segment (n := 0) h).code_extends, ?_⟩
  obtain ⟨q, a, hdoes, hhoist⟩ := h
  have halike : s.arena.Alike (s.arena.releaseScope s.current) := Arena.alike_releaseScope
  have htable : t.arena.table t.current = s.arena.table s.current := by
    unfold Arena.table
    rw [hdoes.arena, hdoes.current, hhoist.slotNames_eq, hhoist.root_eq, halike.slotNames_eq, halike.root_eq, hroot]
  exact htable ▸ List.prefix_refl _

end Offside.Lower
