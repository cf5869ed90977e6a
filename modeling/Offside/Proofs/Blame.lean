import Offside.Proofs.Piecewise

/-!
# `Proofs.Blame` — the faults of code generation

A script is followed along all its ways at once, whatever state it runs in: `Lower.FailsOnly` says which faults can come
up. That is piecewise, so the faults of a module are known from its tree (`generate_failsOnly`).

Code generation takes the places that it blames from the tree: each is the start of a node. So a property of places that
holds of the start of every node of a module holds of the place of every fault (`generate_blames`).
-/

namespace Offside.Lower

variable {α β : Type} {P : Position → Prop} {Q : Fault → Prop} {named : Prop}

/-- **No way through the script** fails with another fault. -/
def FailsOnly (Q : Fault → Prop) {α : Type} : Lower α → Prop
  | .done _ => True
  | .fail e => Q e
  | .act _ next => ∀ s, (next s).FailsOnly Q
  | .pass _ next => next.FailsOnly Q

theorem FailsOnly.bind {x : Lower α} {f : α → Lower β} (hx : x.FailsOnly Q) (hf : ∀ a, (f a).FailsOnly Q) :
    (x >>= f).FailsOnly Q := by
  show (x.bind f).FailsOnly Q
  induction x with
  | done a => exact hf a
  | fail e => exact hx
  | act change next ih => exact fun s => ih s (hx s)
  | pass p next ih => exact ih hx

/-- A run that fails does so with one of the faults. -/
theorem FailsOnly.run_error {x : Lower α} {s t : State} {e : Fault} (hx : x.FailsOnly Q) (hrun : x.run s = .error e t) :
    Q e := by
  induction x generalizing s with
  | done a => cases hrun
  | fail e' =>
      cases hrun
      exact hx
  | act change next ih => exact ih _ (hx _) hrun
  | pass p next ih => exact ih hx hrun

/-- Which faults can come up is a piecewise question: it is settled where scripts fail. -/
theorem piecewise_failsOnly (hinternal : ∀ e : Fault, e.loc? = none → Q e)
    (hplain : ∀ (e : Fault) loc, e.loc? = some loc → ¬e.RefusesTarget → P loc → Q e)
    (hrefuse : ¬named → ∀ loc, P loc → Q (.malformed .targetNotName loc)) : Piecewise (FailsOnly Q) P named where
  pure _ := trivial
  bind := FailsOnly.bind
  look _ := trivial
  change _ _ := trivial
  comment _ _ := trivial
  emit _ _ := trivial
  functionHeader _ _ _ _ _ := trivial
  placeLabel _ _ := trivial
  jumpTo _ _ := trivial
  branch _ _ _ hx _ := hx
  nextLabel hf s _ := hf _ (prefix_nextLabel s.arena _ _)
  milestone _ := trivial
  internal he := hinternal _ he
  refuse hfree h := hrefuse hfree _ h
  fail he hne h := hplain _ _ he hne h

/-- **The faults of a module.** -/
theorem generate_failsOnly (hQ : Piecewise (FailsOnly Q) P named) {options : Options} {m : Module} {e : Fault}
    (hm : Stmt.AllStartIn P m.body) (hregular : named → Stmt.AllRegular m.body) (h : generate options m = .error e) :
    Q e := by
  have hmodule : (lowerModule m).FailsOnly Q := hQ.lowerModule hm hregular
  unfold generate generateLogged at h
  split at h
  · cases h
  · next hrun =>
      cases h
      exact hmodule.run_error hrun

/-! ## Places -/

/-- The fault blames no place without the property. -/
def Fault.At (P : Position → Prop) (e : Fault) : Prop := ∀ loc, e.loc? = some loc → P loc

theorem piecewise_at (P : Position → Prop) : Piecewise (FailsOnly (Fault.At P)) P False := by
  refine piecewise_failsOnly ?_ ?_ ?_
  · intro e he loc hloc
    exact nomatch he.symm.trans hloc
  · intro e loc he _ h loc' hloc
    exact Option.some.inj (he.symm.trans hloc) ▸ h
  · intro _ loc h loc' hloc
    exact Option.some.inj hloc ▸ h

/-- **Code generation blames the start of a node.** -/
theorem generate_blames {options : Options} {m : Module} {e : Fault} (hm : Stmt.AllStartIn P m.body)
    (h : generate options m = .error e) : e.At P :=
  generate_failsOnly (piecewise_at P) hm False.elim h

end Offside.Lower
