import Offside.Proofs.Piecewise

/-!
# `Proofs.Marks` — every line that control crosses has its milestone

Statements about the places where control comes together speak of milestones. Here is why they speak of
every such place: a script only ever adds lines, one at a time, and a label or a jump is added right behind
the milestone that names it (`Marked`). The labels that open functions and those inside comparisons are the
exceptions. So in the finished text a line that control crosses stands where the script passed its
milestone (`Marked.crossing`), and what was there at a milestone is still there in the end
(`Marked.passes_le`).
-/

namespace Offside.Lower

open Machine

variable {α β : Type} {q : Option Milestone} {s t u : State}

/-! ## Lines and their milestones -/

theorem eq_of_crossing?_label {x y : String} (h : crossing? (.label x) = some y) : x = y := by
  rw [crossing?] at h
  split at h
  · exact absurd h (by simp)
  · exact Option.some.inj h

/-- Behind the lines `code`, with milestone `q` passed right before, a line may be added. -/
def MayAdd (q : Option Milestone) (code : Array Line) (l : Line) : Prop :=
  ∀ x, crossing? l = some x → (∃ p, q = some p ∧ p.Names x) ∨
    (l = .label x ∧ code.back? = some (.directive (.typeFunction x)))

/-- **Every line that control crosses is marked.** From state `s`, with milestone `q` passed right before,
    each change of the script adds a line that it may add, or none. -/
def Marked : Option Milestone → Lower α → State → Prop
  | _, .done _, _ => True
  | _, .fail _, _ => True
  | q, .act change next, s =>
      ((change s).code = s.code ∨ ∃ l, (change s).code = s.code.push l ∧ MayAdd q s.code l) ∧
        Marked none (next (change s)) (change s)
  | _, .pass p next, s => Marked (some p) next s

/-- The script adds no line that needs a milestone passed before. -/
def Quiet (x : Lower α) : Prop := ∀ s, Marked none x s

/-- A milestone passed before only adds to the lines that may follow. -/
theorem MayAdd.of_none {code : Array Line} {l : Line} (h : MayAdd none code l) : MayAdd q code l := by
  intro x hx
  rcases h x hx with ⟨p, hp, _⟩ | hlabel
  · exact absurd hp (by simp)
  · exact Or.inr hlabel

theorem Marked.of_none {x : Lower α} (h : Marked none x s) : Marked q x s := by
  cases x with
  | done a => trivial
  | fail e => trivial
  | act change next => exact ⟨h.1.imp_right fun ⟨l, hl, hmay⟩ => ⟨l, hl, hmay.of_none⟩, h.2⟩
  | pass p next => exact h

/-! ## Composition -/

/-- **Sequencing**: the milestone counts for the first script only. -/
theorem Marked.bind {x : Lower α} {f : α → Lower β} (hx : Marked q x s) (hf : ∀ a, Quiet (f a)) :
    Marked q (x >>= f) s := by
  show Marked q (x.bind f) s
  induction x generalizing q s with
  | done a => exact (hf a s).of_none
  | fail e => trivial
  | act change next ih => exact ⟨hx.1, ih _ hx.2⟩
  | pass p next ih => exact ih hx

theorem Quiet.bind {x : Lower α} {f : α → Lower β} (hx : Quiet x) (hf : ∀ a, Quiet (f a)) : Quiet (x >>= f) :=
  fun s => (hx s).bind hf

/-! ## What a marked script leaves -/

/-- **Lines are only ever added.** -/
theorem Marked.le {x : Lower α} {a : α} (h : Marked q x s) (hrun : x.run s = .ok a t) :
    s.code.toList <+: t.code.toList := by
  induction x generalizing q s with
  | done b =>
      simp only [run, EStateM.Result.ok.injEq] at hrun
      exact hrun.2 ▸ List.prefix_rfl
  | fail e => simp [run] at hrun
  | act change next ih =>
      refine List.IsPrefix.trans ?_ (ih _ h.2 hrun)
      rcases h.1 with hcode | ⟨l, hcode, _⟩
      · exact hcode ▸ List.prefix_rfl
      · rw [hcode, Array.toList_push]
        exact List.prefix_append _ _
  | pass p next ih => exact ih h hrun

/-- What was there at a milestone is there at the end. -/
theorem Marked.passes_le {x : Lower α} {a : α} {p : Milestone} (h : Marked q x s) (hp : x.Passes s p u)
    (hrun : x.run s = .ok a t) : u.code.toList <+: t.code.toList := by
  induction x generalizing q s with
  | done b => exact hp.elim
  | fail e => exact hp.elim
  | act change next ih => exact ih _ h.2 hp hrun
  | pass p' next ih =>
      rcases hp with ⟨_, rfl⟩ | hp
      · exact Marked.le (x := .pass p' next) h hrun
      · exact ih h hp hrun

/-- The milestone that marks a line: passed before the script, or by it. -/
def PassedAt (q : Option Milestone) (x : Lower α) (s : State) (label : String) (k : Nat) : Prop :=
  ∃ p u, (q = some p ∧ u = s ∨ x.Passes s p u) ∧ p.Names label ∧ u.code.size = k

/-- **A line that control crosses stands where its milestone was passed**, or opens a function. -/
theorem Marked.crossing {x : Lower α} {a : α} {l : Line} {label : String} {k : Nat} (h : Marked q x s)
    (hrun : x.run s = .ok a t) (hk : t.code[k]? = some l) (hge : s.code.size ≤ k) (hl : crossing? l = some label) :
    PassedAt q x s label k ∨ (l = .label label ∧ ∃ j, k = j + 1 ∧ t.code[j]? = some (.directive (.typeFunction label))) := by
  induction x generalizing q s with
  | done b =>
      simp only [run, EStateM.Result.ok.injEq] at hrun
      rw [hrun.2] at hge
      rw [Array.getElem?_eq_none hge] at hk
      exact absurd hk (by simp)
  | fail e => simp [run] at hrun
  | act change next ih =>
      have hlater : (change s).code.size ≤ k → PassedAt q (.act change next) s label k ∨
          (l = .label label ∧ ∃ j, k = j + 1 ∧ t.code[j]? = some (.directive (.typeFunction label))) := by
        intro hge'
        refine (ih _ h.2 hrun hge').imp_left ?_
        rintro ⟨p, u, hp, hnames, hsize⟩
        rcases hp with ⟨hnone, _⟩ | hp
        · exact absurd hnone (by simp)
        · exact ⟨p, u, Or.inr hp, hnames, hsize⟩
      rcases h.1 with hcode | ⟨l', hcode, hmay⟩
      · exact hlater (by rw [hcode]; exact hge)
      · rcases Nat.lt_or_eq_of_le hge with hlt | rfl
        · exact hlater (by rw [hcode, Array.size_push]; exact hlt)
        · -- the line is the one that this change adds
          have hle : (change s).code.toList <+: t.code.toList := h.2.le hrun
          have hsame : ∀ {j : Nat} {l'' : Line}, (change s).code[j]? = some l'' → t.code[j]? = some l'' := by
            intro j l'' hj
            rw [← Array.getElem?_toList] at hj ⊢
            obtain ⟨rest, hrest⟩ := hle
            rw [← hrest]
            exact List.getElem?_append_left (List.getElem?_eq_some_iff.mp hj).1 |>.trans hj
          obtain rfl : l' = l := by
            have hadded : (change s).code[s.code.size]? = some l' := by rw [hcode, Array.getElem?_push_size]
            have hnew := hsame hadded
            exact Option.some.inj (hnew.symm.trans hk)
          rcases hmay label hl with ⟨p, rfl, hnames⟩ | ⟨rfl, hback⟩
          · exact Or.inl ⟨p, s, Or.inl ⟨rfl, rfl⟩, hnames, rfl⟩
          · refine Or.inr ⟨rfl, s.code.size - 1, ?_, hsame ?_⟩
            · have hpos : 0 < s.code.size := by
                rcases Nat.eq_zero_or_pos s.code.size with hzero | hpos
                · rw [Array.eq_empty_of_size_eq_zero hzero] at hback
                  exact absurd hback (by simp)
                · exact hpos
              omega
            · rw [hcode]
              rw [Array.back?] at hback
              have hlt := (Array.getElem?_eq_some_iff.mp hback).1
              rw [Array.getElem?_push_lt hlt, ← hback, Array.getElem?_eq_getElem hlt]
  | pass p next ih =>
      refine (ih h hrun hge).imp_left ?_
      rintro ⟨p', u, hp, hnames, hsize⟩
      refine ⟨p', u, Or.inr ?_, hnames, hsize⟩
      rcases hp with ⟨hsome, rfl⟩ | hp
      · exact Or.inl ⟨(Option.some.inj hsome).symm, rfl⟩
      · exact Or.inr hp

/-! ## Moves -/

theorem quiet_emit {l : Line} (hl : crossing? l = none) : Quiet (emit l) :=
  fun _ => ⟨Or.inr ⟨l, rfl, fun _ hx => nomatch hl.symm.trans hx⟩, trivial⟩

theorem quiet_comment (text : String) : Quiet (comment text) := by
  intro s
  refine ⟨?_, trivial⟩
  cases hwanted : s.options.comments with
  | true => exact Or.inr ⟨.comment text, by simp [hwanted], fun _ hx => nomatch hx⟩
  | false => exact Or.inl (by simp [hwanted])

/-- The label that opens a function stands right behind the line that says so. -/
theorem quiet_functionHeader (label : String) : Quiet (emitAll (functionHeader label)) := by
  intro s
  have hnone : ∀ {code : Array Line} {d : Directive}, MayAdd none code (.directive d) := fun _ hx => nomatch hx
  refine ⟨Or.inr ⟨_, rfl, hnone⟩, ⟨Or.inr ⟨_, rfl, hnone⟩, ⟨Or.inr ⟨_, rfl, hnone⟩, ⟨Or.inr ⟨_, rfl, ?_⟩, trivial⟩⟩⟩⟩
  intro x hx
  obtain rfl := eq_of_crossing?_label hx
  exact Or.inr ⟨rfl, by simp⟩

/-- A label is placed right behind its milestone. -/
theorem quiet_placeLabel (label : String) : Quiet (placeLabel label) :=
  fun _ => ⟨Or.inr ⟨.label label, rfl, fun _ hx => Or.inl ⟨.join label, rfl, eq_of_crossing?_label hx⟩⟩, trivial⟩

/-- Control jumps right behind its milestone. -/
theorem quiet_jumpTo (label : String) : Quiet (jumpTo label) :=
  fun _ => ⟨Or.inr ⟨.instr (.jump label), rfl, fun _ hx => Or.inl ⟨.join label, rfl, Option.some.inj hx⟩⟩, trivial⟩

/-- Control branches right behind a milestone that names the label it goes to. -/
theorem quiet_branch {p : Milestone} {label : String} (hp : p.Names label) (r : Register) {x : Lower Unit}
    (hx : Quiet x) : Quiet (milestone p >>= fun _ => emitInstrs [.beqz r label] >>= fun _ => x) := by
  refine fun s => ⟨Or.inr ⟨.instr (.beqz r label), rfl, fun y hy => Or.inl ⟨p, rfl, ?_⟩⟩, hx _⟩
  obtain rfl : label = y := Option.some.inj hy
  exact hp

theorem quiet_nextLabel {scope : ScopeId} {purpose : String} {f : String → Lower α}
    (hf : ∀ label, (purpose ++ "_").toList <+: label.toList → Quiet (f label)) :
    Quiet (nextLabel scope purpose >>= f) :=
  fun s => ⟨Or.inl rfl, Or.inl rfl, hf _ (prefix_nextLabel s.arena scope purpose) _⟩

/-- **Moves are quiet**, so scripts are. -/
theorem piecewise_quiet : Piecewise @Quiet (fun _ => True) False where
  pure _ _ := trivial
  bind := Quiet.bind
  look _ := ⟨Or.inl rfl, trivial⟩
  change hf s := ⟨Or.inl (hf s), trivial⟩
  comment := quiet_comment
  emit := quiet_emit
  functionHeader := quiet_functionHeader
  placeLabel := quiet_placeLabel
  jumpTo := quiet_jumpTo
  branch := quiet_branch
  nextLabel := quiet_nextLabel
  milestone _ _ := trivial
  internal _ _ := trivial
  refuse _ _ _ := trivial
  fail _ _ _ _ := trivial

/-- **In the text of a module every line that control crosses is marked.** -/
theorem quiet_lowerModule (m : Module) : Quiet (lowerModule m) :=
  piecewise_quiet.lowerModule (Stmt.allStartIn_of_forall (fun _ => trivial) m.body) False.elim

end Offside.Lower
