import Offside.Proofs.Agreement
import Offside.Proofs.Correctness
import Offside.Proofs.RoundTrip

/-!
# `Proofs.Capture` — functions that take the labels of others

The functions of a module have their names as labels, and any identifier may be the name of a function. So a function can
be called like a label that code generation makes up, like the text that prints numbers, or like the routine that prints
them; such a source is read and has assembly, in which a label is placed twice, or calls of the routine go to the function
(`names_capture_labels`).

Nothing else can go wrong (`labels_clash_only_by_capture`): other labels differ from each other, and those that are made up
have a mark in them, so names without the mark are safe, apart from two.
-/

namespace Offside.Lower

open Machine

variable {o : Options} {m : Module} {l : Listing} {t : State} {label : String}

/-! ## Reserved names -/

/-- The name is that of the routine that prints or of its text, or it has the mark of labels that are made up. -/
def Reserved (name : String) : Prop := name = printRoutine ∨ name = printFormat ∨ "_sc_".toList <:+: name.toList

instance : DecidablePred Reserved := fun _ => inferInstanceAs (Decidable (_ ∨ _ ∨ _))

/-- **Labels that are made up have a mark**, between names and numbers. -/
theorem mark_of_issued {a : Arena} (h : a.Issued label) : "_sc_".toList <:+: label.toList := by
  rcases h with ⟨purpose, name, i, k, rfl, _⟩ | ⟨front, i, rfl, _⟩
  · unfold Arena.labelText
    simp only [String.toList_append]
    refine List.IsInfix.trans ?_ (List.prefix_append _ _).isInfix
    refine List.IsInfix.trans ?_ (List.prefix_append _ _).isInfix
    refine List.IsInfix.trans ?_ (List.prefix_append _ _).isInfix
    exact (List.suffix_append _ _).isInfix
  · unfold Arena.nestedLabel
    simp only [String.toList_append]
    exact (List.suffix_append _ _).isInfix.trans (List.prefix_append _ _).isInfix

/-- The names without the mark that are reserved. -/
theorem unmarked : ¬ "_sc_".toList <:+: printRoutine.toList ∧ ¬ "_sc_".toList <:+: printFormat.toList := by decide

/-! ## Labels of a listing -/

theorem labelNames_lines (l : Listing) : labelNames l.lines = labelNames l.code ++ labelNames l.data :=
  labelNames_append l.code l.data

/-- The only label among the data is that of the text that prints numbers. -/
theorem labelNames_data (t : State) : labelNames t.listing.data = if t.printsNumbers then [printFormat] else [] := by
  unfold State.listing
  cases t.printsNumbers <;> rfl

theorem mem_labelNames {ls : List Line} : label ∈ labelNames ls ↔ .label label ∈ ls := by
  unfold labelNames
  rw [List.mem_filterMap]
  constructor
  · rintro ⟨line, hline, hlabel⟩
    cases line with
    | label x => exact Option.some.inj hlabel ▸ hline
    | _ => exact absurd hlabel (by simp [Line.label?])
  · intro h
    exact ⟨_, h, rfl⟩

/-- **A label means a line** exactly if a line places it. -/
theorem target?_eq_none_iff {ls : List Line} : target? label ls = none ↔ label ∉ labelNames ls := by
  constructor
  · induction ls with
    | nil => intro _; exact List.not_mem_nil
    | cons line rest ih =>
        intro h hmem
        rw [target?] at h
        cases hrest : target? label rest with
        | some k => rw [hrest] at h; exact absurd h (by simp)
        | none =>
            rw [hrest] at h
            by_cases hline : line = .label label
            · exact absurd ((if_pos hline).symm.trans h) (by simp)
            · rcases List.mem_cons.mp (mem_labelNames.mp hmem) with heq | hlater
              · exact hline heq.symm
              · exact ih hrest (mem_labelNames.mpr hlater)
  · exact target?_eq_none

/-- What the labels of a listing are: names of functions, which differ; labels that were made up, which differ, too, and
    have the mark; and that of the text. -/
theorem labels_of_generate (h : generate o m = .ok l) :
    (labelNames l.code).Perm (definedNames m.body ++ generatedLabels m l) ∧ (definedNames m.body).Nodup ∧
      (generatedLabels m l).Nodup ∧ (∀ g ∈ generatedLabels m l, "_sc_".toList <:+: g.toList) ∧
      (labelNames l.data = [] ∨ labelNames l.data = [printFormat]) := by
  obtain ⟨t, hrun, rfl⟩ := run_of_generate h
  obtain ⟨made, hperm, hnames, hnodup, hissued⟩ := labelNames_module hrun
  have hmade : (generatedLabels m t.listing).Perm made := generatedLabels_perm hperm
  refine ⟨hperm.trans (hmade.symm.append_left _), hnames, hmade.nodup_iff.mpr hnodup, ?_, ?_⟩
  · intro g hg
    exact mark_of_issued (hissued g (hmade.mem_iff.mp hg))
  · rw [labelNames_data]
    cases t.printsNumbers
    · exact .inl rfl
    · exact .inr rfl

/-- The text is the only label among the data. -/
theorem eq_printFormat_of_mem_data (h : generate o m = .ok l) (hmem : label ∈ labelNames l.data) : label = printFormat := by
  obtain ⟨-, -, -, -, hdata⟩ := labels_of_generate h
  rcases hdata with hdata | hdata
  · rw [hdata] at hmem
    exact absurd hmem List.not_mem_nil
  · rw [hdata] at hmem
    exact List.mem_singleton.mp hmem

/-- **Labels are unique** unless a function of the module is called like another label. -/
theorem nodup_labelNames_iff (h : generate o m = .ok l) : (labelNames l.lines).Nodup ↔
    ∀ f ∈ definedNames m.body, f ∉ generatedLabels m l ∧ f ∉ labelNames l.data := by
  obtain ⟨hperm, hnames, hnodup, hmark, hdata⟩ := labels_of_generate h
  have hdata_nodup : (labelNames l.data).Nodup := by
    rcases hdata with hdata | hdata <;> rw [hdata]
    · exact List.nodup_nil
    · exact List.nodup_singleton _
  have hmade_data : ∀ g ∈ generatedLabels m l, g ∉ labelNames l.data := by
    intro g hg hmem
    have hformat := eq_printFormat_of_mem_data h hmem
    exact unmarked.2 (hformat ▸ hmark g hg)
  -- labels of one kind differ, and made-up labels have a mark that the text has not: what is left are names of functions
  rw [labelNames_lines, (hperm.append_right _).nodup_iff, List.nodup_append, List.nodup_append]
  constructor
  · rintro ⟨⟨-, -, hmade⟩, -, hrest⟩ f hf
    exact ⟨fun hg => hmade f hf f hg rfl, fun hd => hrest f (List.mem_append_left _ hf) f hd rfl⟩
  · intro hsafe
    refine ⟨⟨hnames, hnodup, ?_⟩, hdata_nodup, ?_⟩
    · rintro f hf g hg rfl
      exact (hsafe f hf).1 hg
    · rintro x hx y hy rfl
      rcases List.mem_append.mp hx with hf | hg
      · exact (hsafe x hf).2 hy
      · exact hmade_data x hg hy

/-- **Calls of the routine that prints** leave the listing unless a function of the module is called like it. -/
theorem target?_printRoutine_iff (h : generate o m = .ok l) :
    target? printRoutine l.lines = none ↔ printRoutine ∉ definedNames m.body := by
  obtain ⟨hperm, -, -, hmark, -⟩ := labels_of_generate h
  rw [target?_eq_none_iff, not_iff_not, labelNames_lines, List.mem_append, hperm.mem_iff, List.mem_append]
  constructor
  · rintro ((hf | hg) | hd)
    · exact hf
    · exact absurd (hmark _ hg) unmarked.1
    · exact absurd (eq_printFormat_of_mem_data h hd) (by decide)
  · intro hf
    exact .inl (.inl hf)

/-- **Labels clash only by capture.** Labels of a listing differ from each other exactly if no function of the module has
    the name of a label that was made up or of the text that prints numbers, and the routine that prints has no code of its
    own there exactly if no function of the module has its name. Labels that were made up have a mark, and no name that is
    fixed. So where functions of the module have no reserved names, there is no capture at all. -/
theorem labels_clash_only_by_capture (h : generate o m = .ok l) :
    ((labelNames l.lines).Nodup ↔ ∀ f ∈ definedNames m.body, f ∉ generatedLabels m l ∧ f ∉ labelNames l.data) ∧
    (target? printRoutine l.lines = none ↔ printRoutine ∉ definedNames m.body) ∧
    (∀ g ∈ generatedLabels m l, Reserved g ∧ g ≠ printFormat ∧ g ≠ printRoutine) ∧
    ((∀ f ∈ definedNames m.body, ¬ Reserved f) →
      (∀ f ∈ definedNames m.body, f ∉ generatedLabels m l ∧ f ≠ printFormat ∧ f ≠ printRoutine) ∧
        (labelNames l.lines).Nodup ∧ target? printRoutine l.lines = none) := by
  obtain ⟨-, -, -, hmark, -⟩ := labels_of_generate h
  refine ⟨nodup_labelNames_iff h, target?_printRoutine_iff h, ?_, ?_⟩
  · intro g hg
    refine ⟨.inr (.inr (hmark g hg)), ?_, ?_⟩
    · rintro rfl
      exact unmarked.2 (hmark _ hg)
    · rintro rfl
      exact unmarked.1 (hmark _ hg)
  · intro hplain
    have hsafe : ∀ f ∈ definedNames m.body, f ∉ generatedLabels m l ∧ f ≠ printFormat ∧ f ≠ printRoutine := by
      intro f hf
      refine ⟨fun hg => hplain f hf (.inr (.inr (hmark f hg))), ?_, ?_⟩
      · intro hformat
        exact hplain f hf (.inr (.inl hformat))
      · intro hroutine
        exact hplain f hf (.inl hroutine)
    refine ⟨hsafe, (nodup_labelNames_iff h).mpr ?_, (target?_printRoutine_iff h).mpr ?_⟩
    · intro f hf
      exact ⟨(hsafe f hf).1, fun hd => (hsafe f hf).2.1 (eq_printFormat_of_mem_data h hd)⟩
    · intro hf
      exact (hsafe _ hf).2.2 rfl

/-- A function with a loop that prints. -/
def tickModule : Module :=
  ⟨[.funcDef default "tick" ["n"] [.loop default (.name default "n" .load)
    [.expr default (.call default (.name default "print" .load) [.name default "n" .load])]]], default⟩

set_option maxRecDepth 4000 in
/-- There are labels of the loop and a label of the text in the listing, and all labels differ. -/
theorem labels_clash_only_by_capture_tickModule : ∃ l, generate {} tickModule = .ok l ∧
    (generatedLabels tickModule l).length = 2 ∧ labelNames l.data = [printFormat] ∧ (labelNames l.lines).Nodup ∧
      target? printRoutine l.lines = none := by
  obtain ⟨t, hrun, hmade, hdata⟩ : ∃ t, (lowerModule tickModule).run (.initial {}) = .ok () t ∧
      (generatedLabels tickModule t.listing).length = 2 ∧ labelNames t.listing.data = [printFormat] :=
    exists_run_ok _ (by cbv)
  obtain ⟨-, -, -, hplain⟩ := labels_clash_only_by_capture (generate_of_run hrun)
  obtain ⟨-, hnodup, htarget⟩ := hplain (by decide)
  exact ⟨t.listing, generate_of_run hrun, hmade, hdata, hnodup, htarget⟩

/-! ## A source with captures -/

theorem definedNames_eraseAll (ss : List Stmt) : definedNames (Stmt.eraseAll ss) = definedNames ss := by
  induction ss with
  | nil => rfl
  | cons st rest ih =>
      have hname : definedName? st.erase = definedName? st := by
        cases st <;> simp [Stmt.erase, definedName?]
      show (st.erase :: Stmt.eraseAll rest).filterMap definedName? = (st :: rest).filterMap definedName?
      rw [List.filterMap_cons, List.filterMap_cons, hname]
      cases definedName? st with
      | none => exact ih
      | some name => exact congrArg (name :: ·) ih

/-- **A module that can be written has a source** with the same functions and the same assembly. -/
theorem exists_tree_of_render (file : String) {style : Style} {source : String} (hm : m.isShaped = true)
    (hfits : style.step * m.nesting style < 2 ^ 32) (hrender : m.render style = source) (h : generate o m = .ok l) :
    ∃ m', parse file source = .ok m' ∧ generate o m' = .ok l ∧ definedNames m'.body = definedNames m.body := by
  obtain ⟨tokens, htokens, hkinds⟩ := tokenize_render file style hm hfits
  rw [hrender] at htokens
  obtain ⟨m', hm', herase⟩ := Tree.parseModule_kinds hm hkinds
  refine ⟨m', ?_, ?_, ?_⟩
  · rw [parse_of_tokenize htokens, hm']
    rfl
  · -- the tree that is read differs from the module in places only
    have hcode := generate_congr herase o
    rw [h] at hcode
    cases hgenerate : generate o m' with
    | ok l' => rw [hgenerate] at hcode; exact congrArg Except.ok hcode
    | error e => rw [hgenerate] at hcode; exact hcode.elim
  · rw [← definedNames_eraseAll m'.body, ← definedNames_eraseAll m.body]
    exact congrArg (fun m : Module => definedNames m.body) herase

/-- Functions that are called like the routine that prints and like its text. -/
def printfModule : Module :=
  ⟨[.funcDef default "printf" [] [.pass default], .funcDef default "print_fmt" [] [.pass default],
    .expr default (.call default (.name default "print" .load) [.const default (.int 7)])], default⟩

/-- The module as it is written. -/
def printfSource : String := "def printf ( ) :\n pass\ndef print_fmt ( ) :\n pass\n( print ) ( ( 7 ) )\n"

/-- A function that is called like the label of a loop. -/
def whileModule : Module :=
  ⟨[.funcDef default "while_global_sc_2_lab_0" [] [.pass default],
    .loop default (.const default (.int 0)) [.pass default]], default⟩

def whileSource : String := "def while_global_sc_2_lab_0 ( ) :\n pass\nwhile 0 :\n pass\n"

def plainStyle : Style := ⟨1, Nat.zero_lt_one, false, false⟩

theorem render_printfModule : printfModule.render plainStyle = printfSource := by cbv

theorem render_whileModule : whileModule.render plainStyle = whileSource := by cbv

set_option maxRecDepth 4000 in
theorem exists_generate_printfModule : ∃ l, generate {} printfModule = .ok l ∧ printFormat ∈ labelNames l.data ∧
    .instr (.call printRoutine) ∈ l.code ∧ target? printRoutine l.lines = some 4 := by
  obtain ⟨t, hrun, hfacts⟩ : ∃ t, (lowerModule printfModule).run (.initial {}) = .ok () t ∧
      printFormat ∈ labelNames t.listing.data ∧ .instr (.call printRoutine) ∈ t.listing.code ∧
      target? printRoutine t.listing.lines = some 4 := exists_run_ok _ (by cbv)
  exact ⟨t.listing, generate_of_run hrun, hfacts⟩

set_option maxRecDepth 4000 in
theorem exists_generate_whileModule : ∃ l, generate {} whileModule = .ok l ∧
    "while_global_sc_2_lab_0" ∈ generatedLabels whileModule l := by
  obtain ⟨t, hrun, hlabel⟩ : ∃ t, (lowerModule whileModule).run (.initial {}) = .ok () t ∧
      "while_global_sc_2_lab_0" ∈ generatedLabels whileModule t.listing := exists_run_ok _ (by cbv)
  exact ⟨t.listing, generate_of_run hrun, hlabel⟩

/-- **Names do capture labels.** Both sources are read and have assembly. In the first the label of the loop is placed by
    the function, too. In the second the label of the text is placed twice, and the call of the routine that prints goes
    to the first function. -/
theorem names_capture_labels :
    (∃ m l, parse "capture" whileSource = .ok m ∧ generate {} m = .ok l ∧
      (∃ f ∈ definedNames m.body, f ∈ generatedLabels m l) ∧ ¬ (labelNames l.lines).Nodup) ∧
    ∃ m l, parse "capture" printfSource = .ok m ∧ generate {} m = .ok l ∧
      printFormat ∈ definedNames m.body ∧ printFormat ∈ labelNames l.data ∧ ¬ (labelNames l.lines).Nodup ∧
      printRoutine ∈ definedNames m.body ∧ .instr (.call printRoutine) ∈ l.code ∧
      target? printRoutine l.lines = some 4 := by
  constructor
  · obtain ⟨l, hgenerate, hlabel⟩ := exists_generate_whileModule
    obtain ⟨m, hparse, hm, hnames⟩ := exists_tree_of_render "capture" (by decide) (by decide) render_whileModule hgenerate
    have hname : "while_global_sc_2_lab_0" ∈ definedNames m.body := by
      rw [hnames]
      decide
    have hmade : "while_global_sc_2_lab_0" ∈ generatedLabels m l := by
      unfold generatedLabels at hlabel ⊢
      rw [hnames]
      exact hlabel
    refine ⟨m, l, hparse, hm, ⟨_, hname, hmade⟩, fun hnodup => ?_⟩
    exact ((nodup_labelNames_iff hm).mp hnodup _ hname).1 hmade
  · obtain ⟨l, hgenerate, hdata, hcall, htarget⟩ := exists_generate_printfModule
    obtain ⟨m, hparse, hm, hnames⟩ := exists_tree_of_render "capture" (by decide) (by decide) render_printfModule hgenerate
    have hformat : printFormat ∈ definedNames m.body := by
      rw [hnames]
      decide
    have hroutine : printRoutine ∈ definedNames m.body := by
      rw [hnames]
      decide
    refine ⟨m, l, hparse, hm, hformat, hdata, fun hnodup => ?_, hroutine, hcall, htarget⟩
    exact ((nodup_labelNames_iff hm).mp hnodup _ hformat).2 hdata

end Offside.Lower
