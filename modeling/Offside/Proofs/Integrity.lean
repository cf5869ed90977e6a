import Offside.Proofs.Balance

/-!
# `Proofs.Integrity` — labels mean one line, and control stays where it belongs

The listing of a module is laid out in functions, apart from each other or one inside the other. Control
moves inside a function only: its branches go to labels of its own, it jumps over the functions inside it, it ends in a
return, and what it calls is a function of the listing or the routine that prints
(`control_stays_in_functions`).
-/

namespace Offside.Lower

open Machine

variable {o : Options} {m : Module} {t : State} {frame : Frame} {forest body : List Part}

/-- **Control stays inside a function** until it returns. -/
structure Sealed (body : List Part) : Prop where
  /-- Directives belong to the header and the end of a function, its own or that of one inside it. -/
  plain : ∀ l, .line l ∈ body → ∀ x, l ≠ .directive x
  target : ∀ i x, .line (.instr i) ∈ body → i.target? = some x → .line (.label x) ∈ body
  /-- A function inside stands between a jump and the label that the jump goes to. -/
  around : ∀ (k : Nat) f inner, body[k]? = some (.function f inner) → ∃ j x, k = j + 1 ∧
    body[j]? = some (.line (.instr (.jump x))) ∧ body[k + 1]? = some (.line (.label x))
  ends : EndsInReturn body

theorem sealed_of_framed (h : Framed frame body) (hlaid : Laid true body) : Sealed body := by
  refine ⟨fun l hl => hlaid.line_ne hl, fun i x hi hx => ?_, fun k f inner hk => hlaid.around_function hk, h.ends⟩
  obtain ⟨k, hk⟩ := List.mem_iff_getElem?.mp hi
  exact mem_of_mem_spots (h.target (mem_spots hk) hx)

/-- The text that prints numbers is defined exactly when numbers are printed. -/
theorem mem_data (t : State) : .label printFormat ∈ t.listing.data ↔ t.printsNumbers = true := by
  unfold State.listing
  cases t.printsNumbers <;> simp [printData]

/-- **Labels and control flow of a listing.** Labels that code generation made up differ from each other. The
    listing is laid out in functions, apart from each other or one inside the other, and control stays inside
    each of them. Every call goes to a function of the listing or to the routine that prints, and the text that prints
    numbers is defined exactly when it is referred to. -/
theorem control_stays_in_functions {l : Listing} (h : generate o m = .ok l) :
    (labelNames l.code).Perm (definedNames m.body ++ generatedLabels m l) ∧ (generatedLabels m l).Nodup ∧
    ∃ forest, l.code = [.directive .text] ++ linesOf forest ∧ (∀ l, .line l ∈ forest → ∀ x, l ≠ .directive x) ∧
      (regionsOf 1 forest).Pairwise Region.Apart ∧ (∀ r ∈ regionsOf 1 forest, Sealed r.body) ∧
      (∀ x, .instr (.call x) ∈ l.code → x = printRoutine ∨ ∃ r ∈ regionsOf 1 forest, r.label = x) ∧
      (.label printFormat ∈ l.data ↔ ∃ r, .instr (.la r printFormat) ∈ l.code) := by
  obtain ⟨t, hrun, rfl⟩ := run_of_generate h
  obtain ⟨made, hperm, _, hnodup, _⟩ := labelNames_module hrun
  have hmade : (generatedLabels m t.listing).Perm made := generatedLabels_perm hperm
  obtain ⟨forest, hcode, hlaid, hknown⟩ := exists_forest hrun
  refine ⟨hperm.trans (hmade.symm.append_left _), hmade.nodup_iff.mpr hnodup, forest, hcode,
    fun l hl => hlaid.line_ne hl, regionsOf_apart forest 1, fun r hr => ?_, fun x hx => ?_, ?_⟩
  · obtain ⟨hbody, frame, hframed⟩ := hlaid.region hr
    exact sealed_of_framed hframed hbody
  · refine (hknown.calls hx).imp_right fun htype => hlaid.exists_region ?_ 1
    rw [hcode] at htype
    simpa using htype
  · rw [mem_data]
    exact hknown.prints

/-- The function inside is called by its label, and stands in the listing. -/
theorem control_stays_in_functions_scaleModule : ∃ l forest, generate {} scaleModule = .ok l ∧
    .instr (.call "scale_twice_sc_2") ∈ l.code ∧ (generatedLabels scaleModule l).Nodup ∧
    l.code = [.directive .text] ++ linesOf forest ∧
    ∃ r ∈ regionsOf 1 forest, r.label = "scale_twice_sc_2" ∧ Sealed r.body := by
  obtain ⟨t, hrun, hcall⟩ : ∃ t, (lowerModule scaleModule).run (.initial {}) = .ok () t ∧
      .instr (.call "scale_twice_sc_2") ∈ t.code.toList := exists_run_ok _ (by cbv)
  have hl : generate {} scaleModule = .ok t.listing := by simp only [generate, generateLogged, hrun]
  obtain ⟨_, hnodup, forest, hcode, _, _, hsealed, hcalls, _⟩ := control_stays_in_functions hl
  obtain ⟨r, hr, hlabel⟩ := (hcalls _ hcall).resolve_left (by decide)
  exact ⟨t.listing, forest, hl, hcall, hnodup, hcode, r, hr, hlabel, hsealed r hr⟩

end Offside.Lower
