import Mathlib
import Offside.Proofs.Operations

/-!
# `Proofs.Slots` — a frame has one slot for each name

A function's scope has a table of slots, which its blocks share. A name gets a slot where it is first bound,
in whichever scope of the function, and a variable lives in the slot of its name: so two variables of one
frame share a slot exactly if they have one name, and no other name is ever written there.

This is kept by every operation on scopes (`Effect.slotted`). Moving variables is the one that could break
it, since a variable takes its slot along: it must stay in its frame, as it does when it leaves a block.

A table that records slots one by one, each with the number of those before it, comes to the same
(`Effect.mirrorsSlots`).
-/

namespace Offside

namespace Arena

variable {a b : Arena} {op : ScopeOp} {i s : ScopeId} {v : VarRef} {var : Variable} {name : String}

/-- The slot that a name has in the table of a scope. -/
def slotOf? (a : Arena) (f : ScopeId) (name : String) : Option Nat := (a.get f).slotNames.idxOf? name

/-- In a table without repetitions a name is found at its only position. -/
theorem idxOf?_eq_some_iff_of_nodup {names : List String} (h : names.Nodup) {k : Nat} :
    names.idxOf? name = some k ↔ names[k]? = some name := by
  constructor
  · exact getElem?_of_idxOf?
  · intro hk
    obtain ⟨hlt, hname⟩ := List.getElem?_eq_some_iff.mp hk
    rw [List.idxOf?, List.findIdx?_eq_some_iff_getElem]
    refine ⟨hlt, by simp [hname], ?_⟩
    intro j hj
    have hne : names[j] ≠ names[k] := fun he => Nat.ne_of_lt hj ((h.getElem_inj_iff).mp he)
    simpa [hname] using hne

/-- **Slots are in order**: no table has a name twice, and every variable is in the slot of its name. -/
structure Slotted (a : Arena) : Prop where
  nodup : ∀ i, (a.get i).slotNames.Nodup
  slot : ∀ {v var}, a.lookup? v = some var → (a.table v.scope)[var.slot]? = some var.name

theorem slotted_initial : Slotted initial where
  nodup i := by
    rw [(Lower.initial_get i).2.2]
    exact List.nodup_nil
  slot {v var} hv := by
    rw [Lower.initial_lookup?] at hv
    exact absurd hv (by simp)

/-! ## Operations -/

theorem Keeps.table_eq (h : Keeps a b) (i : ScopeId) : b.table i = a.table i := by
  unfold table
  rw [h.root_eq, h.slotNames_eq]

theorem Hoisted.table_eq {block parent : ScopeId} (h : Hoisted a b block parent) (i : ScopeId) : b.table i = a.table i := by
  unfold table
  rw [h.root_eq, h.slotNames_eq]

/-- A new variable can only add to the tables. -/
theorem Inserted.table_prefix (h : Inserted a b s var) (i : ScopeId) : a.table i <+: b.table i := by
  unfold table
  rw [h.root_eq, h.get_eq (a.get i).root]
  by_cases hroot : (a.get i).root = (a.get s).root
  · simp only [hroot, if_true]
    exact prefix_withName _ _
  · simp only [hroot, if_false]
    exact List.prefix_refl _

theorem table_push {sc : Scope} (ha : a.WellFormed) (hi : i < a.scopes.size) :
    (Arena.mk (a.scopes.push sc)).table i = a.table i := by
  unfold table
  rw [get_push_lt sc hi, get_push_lt sc (ha.root_lt i)]

theorem Slotted.insert (h : Slotted a) (hb : Inserted a b s var) : Slotted b where
  nodup i := by
    rw [hb.get_eq]
    by_cases hi : i = (a.get s).root
    · simp only [hi, if_true]
      exact nodup_withName (h.nodup _)
    · simp only [hi, if_false]
      exact h.nodup i
  slot {v x} hv := by
    rw [hb.lookup?_eq] at hv
    by_cases hnew : v = ⟨s, (a.get s).vars.length⟩
    · rw [if_pos hnew] at hv
      obtain rfl := Option.some.inj hv
      rw [hnew, hb.table_eq]
      exact hb.slot
    · rw [if_neg hnew] at hv
      exact getElem?_of_extends (hb.table_prefix v.scope) (h.slot hv)

/-- Variables move inside a frame. -/
theorem Slotted.hoist {block parent : ScopeId} (h : Slotted a) (hb : Hoisted a b block parent)
    (hframe : (a.get block).root = (a.get parent).root) : Slotted b where
  nodup i := by
    rw [hb.slotNames_eq]
    exact h.nodup i
  slot {v x} hv := by
    rw [hb.table_eq]
    rcases hb.lookup?_cases hv with ⟨-, hold⟩ | ⟨k, rfl, hmoved⟩
    · exact h.slot hold
    · have hslot := h.slot hmoved
      unfold table at hslot ⊢
      rw [hframe] at hslot
      exact hslot

/-- **Every operation keeps slots in order**, if it moves variables inside their frame only. -/
theorem Effect.slotted (he : Effect a op b) (ha : a.WellFormed) (h : Slotted a)
    (hframe : ∀ s p, op = .hoist s → (a.get s).parent = some p → (a.get s).root = (a.get p).root) : Slotted b := by
  cases he with
  | kept hmade hkeeps _ =>
      constructor
      · intro i
        rw [hkeeps.slotNames_eq]
        exact h.nodup i
      · intro v var hv
        obtain ⟨x, hx, hname, hslot⟩ := hkeeps.lookup?_some hv
        rw [hkeeps.table_eq, ← hname, ← hslot]
        exact h.slot hx
  | pushed hp hb hparent hvars hslots hroot _ =>
      subst hb
      constructor
      · intro i
        rw [get_push]
        by_cases hi : i = a.scopes.size
        · rw [if_pos hi, hslots]
          exact List.nodup_nil
        · rw [if_neg hi]
          exact h.nodup i
      · intro v var hv
        rw [lookup?_push hvars] at hv
        rw [table_push ha (scope_lt_of_lookup? hv)]
        exact h.slot hv
  | inserted hmade hinserted _ => exact h.insert hinserted
  | hoisted hop hparent hhoisted _ => exact h.hoist hhoisted (hframe _ _ hop hparent)

/-! ## Slots recorded one by one -/

/-- A name is recorded with the position at which it is found. -/
theorem lookup_zipIdx (names : List String) (name : String) : names.zipIdx.lookup name = names.idxOf? name := by
  have hfrom : ∀ n, (names.zipIdx n).lookup name = (names.idxOf? name).map (· + n) := by
    induction names with
    | nil => exact fun _ => rfl
    | cons x names ih =>
        intro n
        rw [List.zipIdx_cons, List.lookup_cons, List.idxOf?_cons, ih]
        by_cases hx : x = name
        · simp [hx]
        · have hne : (name == x) = false := beq_false_of_ne (Ne.symm hx)
          simp [hx, hne, Function.comp_def, Nat.add_assoc, Nat.add_comm 1]
  rw [hfrom 0]
  cases names.idxOf? name <;> rfl

/-- The slot of a new name is recorded where the name is added. -/
theorem mirrors_record {t : SlotTable} (h : t.Mirrors a) (hb : Inserted a b s var) :
    (t.record (a.get s).root var.name).Mirrors b := by
  intro i
  rw [hb.get_eq, SlotTable.record, h i, lookup_zipIdx]
  simp only [List.idxOf?_eq_none_iff]
  by_cases hi : i = (a.get s).root
  · by_cases hname : var.name ∈ (a.get i).slotNames
    · simp [← hi, withName, hname]
    · simp [← hi, withName, hname, List.zipIdx_append]
  · simp [hi]

/-- **Every operation keeps the table of slots in step** with the arena. -/
theorem Effect.mirrorsSlots {t : SlotTable} (he : Effect a op b) (h : t.Mirrors a) : (t.after a op).Mirrors b := by
  cases he with
  | kept _ hkeeps _ htable =>
      rw [htable]
      exact fun i => (h i).trans (by rw [hkeeps.slotNames_eq])
  | pushed hp hb hparent hvars hslots hroot _ htable =>
      subst hb
      intro i
      rw [htable, SlotTable.clear, get_push]
      by_cases hi : i = a.scopes.size
      · rw [if_pos hi, if_pos hi, hslots]
        rfl
      · rw [if_neg hi, if_neg hi]
        exact h i
  | inserted _ hinserted _ htable =>
      rw [htable]
      exact mirrors_record h hinserted
  | hoisted _ _ hhoisted _ htable =>
      rw [htable]
      exact fun i => (h i).trans (by rw [hhoisted.slotNames_eq])

/-! ## What a table says -/

theorem Slotted.slotOf?_eq_some_iff (h : Slotted a) {f : ScopeId} {k : Nat} :
    a.slotOf? f name = some k ↔ (a.get f).slotNames[k]? = some name := idxOf?_eq_some_iff_of_nodup (h.nodup f)

/-- The slots of a table are the numbers below its length. -/
theorem Slotted.exists_slotOf?_iff (h : Slotted a) {f : ScopeId} {k : Nat} :
    (∃ name, a.slotOf? f name = some k) ↔ k < (a.get f).slotNames.length := by
  simp only [h.slotOf?_eq_some_iff]
  constructor
  · rintro ⟨name, hname⟩
    exact (List.getElem?_eq_some_iff.mp hname).1
  · intro hk
    exact ⟨_, List.getElem?_eq_getElem hk⟩

theorem Slotted.slotOf?_inj (h : Slotted a) {f : ScopeId} {x y : String} {k : Nat} (hx : a.slotOf? f x = some k)
    (hy : a.slotOf? f y = some k) : x = y := by
  rw [h.slotOf?_eq_some_iff] at hx hy
  exact Option.some.inj (hx.symm.trans hy)

/-- A variable is in the slot of its name. -/
theorem Slotted.slotOf?_lookup (h : Slotted a) (hv : a.lookup? v = some var) :
    a.slotOf? (a.get v.scope).root var.name = some var.slot := h.slotOf?_eq_some_iff.mpr (h.slot hv)

theorem Slotted.slot_eq_iff (h : Slotted a) {u : VarRef} {x y : Variable} (hv : a.lookup? v = some x)
    (hu : a.lookup? u = some y) (hframe : (a.get v.scope).root = (a.get u.scope).root) :
    x.slot = y.slot ↔ x.name = y.name := by
  have hx := h.slotOf?_lookup hv
  have hy := h.slotOf?_lookup hu
  rw [hframe] at hx
  constructor
  · intro hslot
    rw [hslot] at hx
    exact h.slotOf?_inj hx hy
  · intro hname
    rw [hname] at hx
    exact Option.some.inj (hx.symm.trans hy)

end Arena

/-! ## Sequences of operations -/

namespace Workbench

variable {o : Options} {ops : List ScopeOp} {w : Workbench}

/-- Variables were moved from scopes that exist. -/
theorem hoist_lt (h : after o ops = some w) : ∀ s, .hoist s ∈ ops → s < (ScopeOp.kinds ops).length := by
  refine after_induction (P := fun ops _ => ∀ s, .hoist s ∈ ops → s < (ScopeOp.kinds ops).length) (by simp) ?_ ops w h
  intro ops w op w' hafter hw hstep s hs
  rw [ScopeOp.kinds_snoc, List.length_append]
  rcases List.mem_append.mp hs with hs | hs
  · exact Nat.lt_add_right _ (hw s hs)
  · obtain rfl := List.mem_singleton.mp hs
    rw [(orderly hafter).length_eq]
    exact Nat.lt_add_right _ (of_decide_eq_true (step_eq_some hstep).1)

theorem mirrorsSlots (h : after o ops = some w) : w.slots.Mirrors w.state.arena := by
  have hfresh : (fresh o).slots.Mirrors (fresh o).state.arena := fun i => by
    show [] = (Arena.initial.get i).slotNames.zipIdx
    rw [(Lower.initial_get i).2.2, List.zipIdx_nil]
  refine after_induction (P := fun _ w => w.slots.Mirrors w.state.arena) hfresh ?_ ops w h
  intro ops w op w' hafter hw hstep
  obtain ⟨happlies, harena, -, htable⟩ := step_eq_some hstep
  rw [htable, harena]
  exact (Arena.effect_act (orderly hafter).wellFormed happlies).mirrorsSlots hw

/-- Slots are in order after any operations that move variables out of blocks only. -/
theorem slotted (h : after o ops = some w) :
    (∀ s, .hoist s ∈ ops → (ScopeOp.kinds ops)[s]? = some .block) → w.state.arena.Slotted := by
  refine after_induction (P := fun ops w => (∀ s, .hoist s ∈ ops → (ScopeOp.kinds ops)[s]? = some .block) →
    w.state.arena.Slotted) (fun _ => Arena.slotted_initial) ?_ ops w h
  intro ops w op w' hafter hw hstep hblocks
  obtain ⟨happlies, harena, -, -⟩ := step_eq_some hstep
  have horderly := orderly hafter
  rw [ScopeOp.kinds_snoc] at hblocks
  -- what is a block among all scopes is one among those made before, if it was there
  have hbefore : ∀ s, s < (ScopeOp.kinds ops).length → .hoist s ∈ ops ++ [op] →
      (ScopeOp.kinds ops)[s]? = some .block := by
    intro s hlt hs
    rw [← hblocks s hs, List.getElem?_append_left hlt]
  rw [harena]
  apply (Arena.effect_act horderly.wellFormed happlies).slotted horderly.wellFormed
  · apply hw
    intro s hs
    exact hbefore s (hoist_lt hafter s hs) (List.mem_append_left _ hs)
  · rintro s p rfl hparent
    have hlt : s < (ScopeOp.kinds ops).length := by
      rw [horderly.length_eq]
      exact of_decide_eq_true happlies
    obtain ⟨q, hq, hroot⟩ := horderly.block (hbefore s hlt (by simp))
    obtain rfl : q = p := Option.some.inj (hq.symm.trans hparent)
    exact hroot

end Workbench

/-- **Slots follow names.** Whatever is done to a fresh arena, as long as variables are only moved out of
    blocks: the slots of a function are numbered without a gap, each for one name; the slots that were recorded for
    it one by one are these, from 0 on, with a name each; a variable is in the slot of its name, which is a slot of
    its frame; and two variables of one frame are in one slot exactly if they have one name. -/
theorem slots_follow_names {o : Options} {ops : List ScopeOp} {w : Workbench} (h : Workbench.after o ops = some w)
    (hblocks : ∀ s, .hoist s ∈ ops → (ScopeOp.kinds ops)[s]? = some .block) :
    (∀ f, (ScopeOp.kinds ops)[f]? = some .function →
      (∀ k, (∃ name, w.state.arena.slotOf? f name = some k) ↔ k < w.state.arena.slotCount f) ∧
        (∀ x y k, w.state.arena.slotOf? f x = some k → w.state.arena.slotOf? f y = some k → x = y) ∧
        (w.slots f).map (·.2) = List.range (w.state.arena.slotCount f) ∧ ((w.slots f).map (·.1)).Nodup ∧
        ∀ name, (w.slots f).lookup name = w.state.arena.slotOf? f name) ∧
    (∀ v var, w.state.arena.lookup? v = some var →
      w.state.arena.slotOf? (w.state.arena.get v.scope).root var.name = some var.slot ∧
        var.slot < w.state.arena.slotCount v.scope) ∧
    ∀ u v x y, w.state.arena.lookup? u = some x → w.state.arena.lookup? v = some y →
      (w.state.arena.get u.scope).root = (w.state.arena.get v.scope).root → (x.slot = y.slot ↔ x.name = y.name) := by
  have hslotted := Workbench.slotted h hblocks
  refine ⟨?_, ?_, ?_⟩
  · intro f hf
    have hcount : w.state.arena.slotCount f = (w.state.arena.get f).slotNames.length := by
      rw [Arena.slotCount, (Workbench.orderly h).function hf]
    rw [Workbench.mirrorsSlots h f, hcount]
    refine ⟨fun k => hslotted.exists_slotOf?_iff, fun x y k hx hy => hslotted.slotOf?_inj hx hy, ?_, ?_, ?_⟩
    · rw [List.zipIdx_map_snd, ← List.range_eq_range']
    · rw [List.zipIdx_map_fst]
      exact hslotted.nodup f
    · exact Arena.lookup_zipIdx _
  · intro v var hv
    have hslot := hslotted.slotOf?_lookup hv
    exact ⟨hslot, hslotted.exists_slotOf?_iff.mp ⟨var.name, hslot⟩⟩
  · intro u v x y hu hv hframe
    exact hslotted.slot_eq_iff hu hv hframe

/-- A function with a parameter, and two blocks in it that bind one name each on their own. -/
def siblingBlocks : List ScopeOp :=
  [.pushFunction 0 "f", .declare 1 "n" .a1, .pushBlock 1, .define 2 "c", .pushBlock 1, .define 3 "c", .define 3 "d",
    .bind ⟨2, 0⟩ .t0, .release 2, .hoist 2]

/-- Both blocks keep the name in one slot, which was recorded once, also when the variables of the first have moved
    out of it. -/
theorem slots_follow_names_siblingBlocks :
    ∃ w x y, Workbench.after {} siblingBlocks = some w ∧ w.state.arena.lookup? ⟨1, 1⟩ = some x ∧
      w.state.arena.lookup? ⟨3, 0⟩ = some y ∧ x.register = some .t0 ∧ x.name = y.name ∧ x.slot = y.slot ∧
      x.slot < w.state.arena.slotCount 3 ∧ w.slots 1 = [("n", 0), ("c", 1), ("d", 2)] := by
  obtain ⟨w, hw, htest⟩ : ∃ w, Workbench.after {} siblingBlocks = some w ∧
      (w.state.arena.lookup? ⟨1, 1⟩ = some ⟨"c", some .t0, false, 1⟩ ∧
        w.state.arena.lookup? ⟨3, 0⟩ = some ⟨"c", none, false, 1⟩ ∧
        (w.state.arena.get 1).root = (w.state.arena.get 3).root ∧ w.slots 1 = [("n", 0), ("c", 1), ("d", 2)]) := by
    apply Workbench.exists_after
    cbv
  obtain ⟨hx, hy, hframe, htable⟩ := htest
  have hblocks : ∀ s, .hoist s ∈ siblingBlocks → (ScopeOp.kinds siblingBlocks)[s]? = some .block := by
    intro s hs
    obtain rfl : s = 2 := by simpa [siblingBlocks] using hs
    rfl
  obtain ⟨-, hslots, hshared⟩ := slots_follow_names hw hblocks
  refine ⟨w, _, _, hw, hx, hy, rfl, rfl, (hshared _ _ _ _ hx hy hframe).mpr rfl, ?_, htable⟩
  have hlt := (hslots _ _ hy).2
  exact hlt

end Offside
