import Offside.Proofs.Execution

/-!
# `Proofs.Correctness` — the assembly of a module does what the module says

The lines of a module form a program whose labels are all different, as long as no function of the module
has a name that code generation makes up for a label of its own. In that program every function of the
module has its code at the label of its name, with the functions in sight that were defined before it, and
so the simulation says what a call does (`generate_correct`).
-/

namespace Offside.Lower

open Machine

variable {P : Image} {entry : String} {Δ : List Definition} {s t : State} {o : Options} {m : Module}

/-! ## Labels of a module -/

/-- The labels that code generation made up: those of the code, apart from the functions of the module. -/
def generatedLabels (m : Module) (l : Listing) : List String := (labelNames l.code).diff (definedNames m.body)

theorem append_diff_self (l l' : List String) : (l ++ l').diff l = l' := by
  induction l with
  | nil => rfl
  | cons x l ih => rw [List.cons_append, List.diff_cons, List.erase_cons_head, ih]

/-- A label that code generation makes up has an underscore. -/
theorem underscore_mem_of_issued {a : Arena} {l : String} (h : a.Issued l) : '_' ∈ l.toList := by
  rcases h with ⟨purpose, name, i, k, rfl, _⟩ | ⟨front, i, rfl, _⟩
  · rw [Arena.labelText_eq]; simp
  · rw [Arena.nestedLabel_eq]; simp

theorem run_of_generate {l : Listing} (h : generate o m = .ok l) :
    ∃ t, (lowerModule m).run (.initial o) = .ok () t ∧ t.listing = l := by
  unfold generate generateLogged at h
  cases hrun : (lowerModule m).run (.initial o) with
  | ok _ t =>
      rw [hrun] at h
      exact ⟨t, rfl, Except.ok.inj h⟩
  | error e t =>
      rw [hrun] at h
      exact absurd h (by simp)

/-- **The labels of a module's code** are the names of its functions, which differ, and labels that code
    generation made up, which differ as well. -/
theorem labelNames_module (hrun : (lowerModule m).run (.initial o) = .ok () t) :
    ∃ made, (labelNames t.code.toList).Perm (definedNames m.body ++ made) ∧ (definedNames m.body).Nodup ∧
      made.Nodup ∧ ∀ l ∈ made, t.arena.Issued l := by
  obtain ⟨fns, hfns, hdone⟩ := (lowerModule_ensures o m).run_ok hrun
  obtain ⟨new, made, hnew, _, hperm, hnodup, hissued⟩ := hdone.advances.segment.lines
  rw [List.append_nil] at hnodup hissued
  refine ⟨made, ?_, ?_, hnodup, fun l hl => (hissued l hl).1⟩
  · rw [hnew, labelNames_append]
    exact hperm
  · have hfunctions : (t.arena.get globalScope).functions = fns := by
      exact hdone.advances.grows.functions_eq (i := globalScope) (ready_start o).named.current_lt
    have hnames := hdone.ready.named.functions_nodup globalScope
    rw [hfunctions, hfns] at hnames
    exact hnames

theorem generatedLabels_perm {l : Listing} {made : List String}
    (h : (labelNames l.code).Perm (definedNames m.body ++ made)) : (generatedLabels m l).Perm made := by
  have hdiff := h.diff_right (definedNames m.body)
  rwa [append_diff_self] at hdiff

/-- **Every label of a module's code means one line.** -/
theorem labelled_of_generate {l : Listing} (h : generate o m = .ok l) (scratch : Core → Register → Int)
    (hlabels : ∀ f ∈ definedNames m.body, f ∉ generatedLabels m l) (hprint : printRoutine ∉ definedNames m.body) :
    (Image.mk l.code scratch).Labelled := by
  obtain ⟨t, hrun, rfl⟩ := run_of_generate h
  obtain ⟨made, hperm, hnames, hnodup, hissued⟩ := labelNames_module hrun
  have hmade : (generatedLabels m t.listing).Perm made := generatedLabels_perm hperm
  constructor
  · refine hperm.nodup_iff.mpr (List.nodup_append.mpr ⟨hnames, hnodup, ?_⟩)
    rintro f hf l hl rfl
    exact hlabels f hf (hmade.mem_iff.mpr hl)
  · intro hmem
    rcases List.mem_append.mp (hperm.mem_iff.mp hmem) with hname | hlabel
    · exact hprint hname
    · exact absurd (underscore_mem_of_issued (hissued _ hlabel)) (by decide)

/-! ## Functions of a module -/

theorem visible_start (o : Options) : (State.start o).visible = [] := by
  unfold State.visible
  rw [List.flatMap_eq_nil_iff]
  intro i _
  show (Arena.initial.get i).functions.reverse = []
  rw [(initial_get i).2.1]
  rfl

/-- Functions of the module keep their names as labels. -/
theorem run_stmt_label {st : Stmt} (hs : Ready [] s) (hscope : s.current = globalScope)
    (hlower : (lowerStmt st).run s = .ok () t) (hlabels : ∀ f ∈ s.visible, f.label = f.name) :
    ∀ f ∈ t.visible, f.label = f.name := by
  rcases run_stmt_visible hs hlower with ⟨_, hvisible⟩ |
    ⟨f, callee, loc, opening, mid, start, finish, last, _, hvisible, hstations⟩
  · rw [hvisible]
    exact hlabels
  · rw [hvisible]
    intro g hg
    rcases List.mem_cons.mp hg with rfl | hg
    · have hopened := hstations.opened
      rw [hopened.callee_label, hopened.label_eq, hopened.callee_name, hstations.paused.steady.current]
      exact if_pos hscope
    · exact hlabels g hg

/-- **The functions of a module are linked** to their code, statement by statement. -/
theorem Linked.block {ss : List Stmt} (h : Linked P entry Δ s.visible) (hs : Ready [] s)
    (hscope : s.current = globalScope) (hentry : s.options.entry = entry)
    (hlabels : ∀ f ∈ s.visible, f.label = f.name) (hlower : (lowerBlock ss).run s = .ok () t) (ht : P.Holds t) :
    Linked P entry ((definitions ss).reverse ++ Δ) t.visible ∧ ∀ f ∈ t.visible, f.label = f.name := by
  induction ss generalizing s Δ with
  | nil =>
      rw [lowerBlock] at hlower
      obtain ⟨_, rfl⟩ := EStateM.Result.ok.inj hlower
      exact ⟨h, hlabels⟩
  | cons st rest ih =>
      rw [lowerBlock] at hlower
      obtain ⟨_, s', hstart, hlower⟩ := run_bind_ok.mp hlower
      obtain ⟨_, rfl⟩ := EStateM.Result.ok.inj hstart
      obtain ⟨_, u, hfirst, hrest⟩ := run_bind_ok.mp hlower
      obtain ⟨fns, _, hdone⟩ := (lowerStmt_ensures st hs).run_ok hfirst
      have hu := ht.of_extends (run_block_ok hdone.ready hrest).2.code
      have hnext := ih (h.define hs hentry hfirst hu) hdone.ready (hdone.advances.current.trans hscope)
        ((congrArg (·.entry) hdone.advances.options).trans hentry) (run_stmt_label hs hscope hfirst hlabels) hrest
      have hlist : (definitions (st :: rest)).reverse ++ Δ = (definitions rest).reverse ++ (st.definition?.toList ++ Δ) := by
        unfold definitions
        cases hdef : st.definition? <;> simp [hdef]
      rw [hlist]
      exact hnext

/-- **Compiler correctness.** Let a module have assembly in which no function of the module has the name of a
    generated label or of the printing routine. If a call of a function of the module terminates in the source
    with a value and an output, then the assembly has its code at the label of its name, and a processor that
    starts there, with the arguments in their registers, comes to a return with that value and that output,
    and with everything that belongs to the caller as it was. -/
theorem generate_correct {l : Listing} {name : String} {args out : List Word} {v : Word}
    (hgenerate : generate o m = .ok l)
    (hlabels : ∀ f ∈ definedNames m.body, f ∉ generatedLabels m l ∧ f ≠ printRoutine)
    (hcall : CallTerminates o.entry m name args v out) (scratch : Core → Register → Int) :
    ∃ k, target? name l.code = some k ∧ ∀ c, 8 ∣ c.get .sp → Passed args c →
      (Image.mk l.code scratch).Answers k c v out := by
  have hP := labelled_of_generate hgenerate scratch (fun f hf => (hlabels f hf).1)
    fun hprint => (hlabels _ hprint).2 rfl
  obtain ⟨t, hrun, rfl⟩ := run_of_generate hgenerate
  have hlinked := Linked.block (P := ⟨t.code.toList, scratch⟩) (s := .start o) (Δ := [])
    (by rw [visible_start]; exact .nil) (ready_start o) rfl (show (State.start o).options.entry = o.entry from rfl)
    (by simp [visible_start]) hrun (List.prefix_refl _)
  rw [List.append_nil] at hlinked
  obtain ⟨n, hn⟩ := hcall
  cases hsight : inSight (definitions m.body).reverse name with
  | nil =>
      rw [hsight] at hn
      cases n <;> exact absurd hn (by simp [evalCall])
  | cons f Δ =>
      rw [hsight] at hn
      obtain ⟨callee, Γ, hfind, hf⟩ := hlinked.1.find? hsight
      obtain ⟨_, k, hk, hanswers⟩ := (simulates hP n).call hn hf
      have hlabel : callee.label = name := by
        rw [hlinked.2 callee (List.mem_of_find?_eq_some hfind)]
        exact eq_of_beq (List.find?_some (p := fun f : Callee => f.name == name) hfind)
      rw [hlabel] at hk
      exact ⟨k, target?_eq_some hP.nodup hk, hanswers⟩

/-- `def power(x, n)`, by a loop that calls a function and prints, and a conditional. -/
def powerModule : Module :=
  ⟨[.funcDef default "times" ["a", "b"]
      [.ret default (some (.binary default (.name default "a" .load) .mul (.name default "b" .load)))],
    .funcDef default "power" ["x", "n"]
      [.assign default [.name default "r" .store] (.const default (.int 1)),
       .loop default (.compare default (.name default "n" .load) [.greater] [.const default (.int 0)])
         [.assign default [.name default "r" .store]
            (.call default (.name default "times" .load) [.name default "r" .load, .name default "x" .load]),
          .expr default (.call default (.name default "print" .load) [.name default "r" .load]),
          .augAssign default (.name default "n" .store) .sub (.const default (.int 1))],
       .ret default (some (.name default "r" .load))]], default⟩

set_option maxRecDepth 4000 in
/-- The assembly of the module raises -3 to the third power, and prints the powers on the way. -/
theorem generate_correct_powerModule : ∃ l k, generate {} powerModule = .ok l ∧
    target? "power" l.code = some k ∧ ∀ c, 8 ∣ c.get .sp → Passed [-3, 3] c →
      (Image.mk l.code fun _ _ => 0x5ca1ab1e).Answers k c (-27) [-3, 9, -27] := by
  obtain ⟨t, hrun, hlabels⟩ : ∃ t, (lowerModule powerModule).run (.initial {}) = .ok () t ∧
      ∀ f ∈ definedNames powerModule.body, f ∉ generatedLabels powerModule t.listing ∧ f ≠ printRoutine :=
    exists_run_ok _ (by cbv)
  have hgenerate : generate {} powerModule = .ok t.listing := by
    unfold generate generateLogged
    rw [hrun]
  have hcall : CallTerminates "main" powerModule "power" [-3, 3] (-27) [-3, 9, -27] := ⟨20, by cbv⟩
  obtain ⟨k, hk, hanswers⟩ := generate_correct hgenerate hlabels hcall fun _ _ => 0x5ca1ab1e
  exact ⟨t.listing, k, hgenerate, hk, hanswers⟩

end Offside.Lower
