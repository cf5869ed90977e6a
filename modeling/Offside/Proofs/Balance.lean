import Offside.Proofs.Correctness
import Offside.Proofs.Crossings
import Offside.Proofs.Marks

/-!
# `Proofs.Balance` — the evaluation stack is balanced

On every way that control can take through a function, whatever its tests find, the stack pointer's
displacement is a matter of the place alone: nothing is on the evaluation stack between statements, at the
labels of conditionals, loops and functions and before a frame is closed, an expression leaves one value, and a return
finds the stack as the function found it (`evaluation_stack_balanced`).
-/

namespace Offside.Lower

open Machine

variable {o : Options} {m : Module} {s t : State} {frame : Frame} {forest body : List Part} {r : Region} {k : Nat}
  {d : Int}

/-! ## Functions -/

/-- **The evaluation stack of a function is balanced**, on every way of control through it. Displacements are
    from the stack pointer at the function's entry; its frame is at `-frame.size`. -/
structure Balanced (frame : Frame) (body : List Part) : Prop where
  opens : ∃ rest, body = ofInstrs frame.prologue ++ rest
  /-- The lines of a function inside are not among the function's own. -/
  plain : ∀ l, .line l ∈ body → ∀ x, l ≠ .directive x
  /-- Control stays among the function's own lines, which only ever add to the stack pointer. -/
  inside : ∀ k d, Runs body k d → ∃ l, body[k]? = some (.line l) ∧ ∀ i, l = .instr i → i.MovesStack
  /-- The way that control came does not matter. -/
  same : ∀ k d d', Runs body k d → Runs body k d' → d = d'
  label : ∀ k d x, Runs body k d → body[k]? = some (.line (.label x)) → isComparisonLabel x = false →
    d = -frame.size
  epilogue : ∀ k d, Runs body k d → (body.drop k).take frame.epilogue.length = ofInstrs frame.epilogue →
    d = -frame.size
  /-- Nothing is taken off the stack that was not put there. -/
  below : ∀ k d i, Runs body k d → body[k]? = some (.line (.instr i)) → frame.prologue.length ≤ k →
    d ≤ -frame.size ∨ i = .ret
  returns : ∀ k d, Runs body k d → body[k]? = some (.line (.instr .ret)) → d = 0

/-- **A function is balanced** if its text keeps its levels and its labels stand at the level of the frame. -/
theorem balanced_of_framed (h : Framed frame body) (hlaid : Laid true body)
    (hlabel : ∀ k x, body[k]? = some (.line (.label x)) → isComparisonLabel x = false →
      level (-frame.size) 0 (body.take k) = -frame.size) : Balanced frame body := by
  refine ⟨?_, fun l hl => hlaid.line_ne hl, fun k d hrun => ?_, fun k d d' hrun hrun' => ?_,
    fun k d x hrun hk hx => ?_, fun k d hrun hk => ?_, fun k d i hrun hk hge => ?_, fun k d hrun hk => ?_⟩
  · obtain ⟨rest, hbody, _⟩ := h.opens
    exact ⟨rest, hbody⟩
  · obtain ⟨l, hl⟩ := hrun.exists_line h hlaid
    refine ⟨l, hl, ?_⟩
    rintro i rfl
    exact h.movesStack hl
  · rw [h.level_eq hrun, h.level_eq hrun']
  · rw [h.level_eq hrun]
    exact hlabel k x hk hx
  · rw [h.level_eq hrun]
    exact h.level_epilogue hk
  · rw [h.level_eq hrun]
    exact (h.bound hk hge).1
  · rw [h.level_eq hrun]
    exact (h.bound hk (h.prologue_le hk (by simp [Frame.prologue]))).2 rfl

/-! ## Milestones -/

/-- Where a milestone is passed with nothing on the evaluation stack, the text is at the level of the frame. -/
theorem AtLevel.level_eq (h : AtLevel 0 s) (hr : r ∈ regionsOf 1 forest) (hframed : Framed frame r.body)
    (hlaid : Laid true r.body) (hs : s.code.toList = ([Line.directive .text] ++ linesOf forest).take (r.place k)) :
    level (-frame.size) 0 (r.body.take k) = -frame.size ∧ ∀ f rest, s.frames = f :: rest → f.size = frame.size := by
  obtain ⟨base, ds, hscan, hframe, _⟩ := h
  obtain ⟨e, ds', hscan', hlevel⟩ := Region.scan_eq [.directive .text] hr hframed hlaid k [⟨some 0, 0⟩]
  rw [← hs, hscan] at hscan'
  obtain ⟨rfl, _⟩ := List.cons.inj hscan'
  obtain ⟨hbase, hdepth⟩ := hlevel base rfl
  refine ⟨?_, fun f rest hf => ?_⟩
  · rw [← hdepth, hbase]
    exact Int.add_zero _
  · have hsize := hframe f rest hf
    omega

/-- A milestone inside a function is passed at a piece of it. -/
theorem AtLevel.exists_place (h : AtLevel 0 s) {f : Frame} {rest : List Frame} (hf : s.frames = f :: rest)
    (hlaid : Laid false forest) (hs : s.code.toList <+: [.directive .text] ++ linesOf forest) :
    ∃ r ∈ regionsOf 1 forest, ∃ k, s.code.toList = ([Line.directive .text] ++ linesOf forest).take (r.place k) := by
  obtain ⟨base, ds, hscan, hframe, hedge⟩ := h
  have htake := List.prefix_iff_eq_take.mp hs
  have hpos : 1 ≤ s.code.toList.length := by
    cases hcode : s.code.toList with
    | nil =>
        rw [hcode] at hscan
        have hbase := hframe f rest hf
        obtain ⟨rfl, _⟩ : 0 = base ∧ _ := by simpa [scan] using hscan
        unfold Frame.size frameBytes frameHeader at hbase
        omega
    | cons l ls => simp
  have hle : s.code.toList.length ≤ 1 + (linesOf forest).length := by
    have hlength := hs.length_le
    rw [List.length_append] at hlength
    exact hlength
  rcases Machine.exists_place forest 1 _ hpos hle with ⟨k, hk⟩ | ⟨r, hr, k, hk⟩ | ⟨r, hr, hgt, hlt⟩
  · -- between the functions of the module there is no frame
    have hfront : s.code.toList = [.directive .text] ++ linesOf (forest.take k) := by
      have hsplit : linesOf forest = linesOf (forest.take k) ++ linesOf (forest.drop k) := by
        rw [← linesOf_append, List.take_append_drop]
      rw [htake, hk, hsplit, ← List.append_assoc]
      exact List.take_left' (by simp; omega)
    rw [hfront, scan_append, show scan [⟨some 0, 0⟩] [Line.directive .text] = [⟨some 0, 0⟩] from rfl,
      hlaid.scanned.1 k] at hscan
    have hbase := hframe f rest hf
    obtain ⟨⟨rfl, _⟩, _⟩ : (0 = base ∧ _) ∧ _ := by simpa using hscan
    unfold Frame.size frameBytes frameHeader at hbase
    omega
  · exact ⟨r, hr, k, by rw [← hk]; exact htake⟩
  · rw [htake] at hedge
    exact absurd hedge (Region.not_atEdge [.directive .text] hr hgt hlt)

/-- **Every label of a function**, but for those of comparisons, stands where a milestone was passed. -/
theorem exists_milestone {x : String} (hrun : (lowerModule m).run (.initial o) = .ok () t)
    (hcode : t.code.toList = [.directive .text] ++ linesOf forest) (hr : r ∈ regionsOf 1 forest)
    (hlaid : Laid true r.body) (hk : r.body[k]? = some (.line (.label x))) (hx : isComparisonLabel x = false) :
    ∃ p s, (lowerModule m).Passes (.initial o) p s ∧ p.Names x ∧
      s.code.toList = ([Line.directive .text] ++ linesOf forest).take (r.place k) := by
  have hline := Region.getElem?_place [.directive .text] hr hk
  rw [← hcode, Array.getElem?_toList] at hline
  have hcrossing : crossing? (.label x) = some x := by simp [crossing?, hx]
  rcases (quiet_lowerModule m (.initial o)).crossing hrun hline (Nat.zero_le _) hcrossing with
    ⟨p, s, ⟨hnone, _⟩ | hp, hnames, hsize⟩ | ⟨_, j, hj, htype⟩
  · exact absurd hnone (by simp)
  · refine ⟨p, s, hp, hnames, ?_⟩
    have hle := (quiet_lowerModule m (.initial o)).passes_le hp hrun
    rw [List.prefix_iff_eq_take, hcode] at hle
    rw [← hsize]
    exact hle
  · -- it does not open a function: no header is under way
    have hedge := Region.atEdge_place [.directive .text] hr hlaid k
    rw [← hcode, hj] at hedge
    have hlast : (t.code.toList.take (j + 1)).getLast? = some (.directive (.typeFunction x)) := by
      rw [← Array.getElem?_toList] at htype
      rw [List.getLast?_take, if_neg (Nat.succ_ne_zero j), Nat.add_sub_cancel, htype]
      rfl
    exact absurd (hedge _ hlast) (by simp)

theorem Watched.atLevel {p : Milestone} {x : String} (h : Watched p s) (hp : p.Names x) : AtLevel 0 s := by
  cases p with
  | join label => exact h.2
  | exit top => exact h.2
  | _ => exact hp.elim

/-! ## Expressions -/

/-- Control goes through lines that lead on from one to the next. -/
theorem exists_runs {ls : List Line} (h : ∀ l ∈ ls, l.leadsOn = true) (hk : k ≤ ls.length) :
    ∃ d, Runs (ofLines ls) k d := by
  induction k with
  | zero => exact ⟨0, .start⟩
  | succ k ih =>
      obtain ⟨d, hd⟩ := ih (Nat.le_of_succ_le hk)
      have hline : (ofLines ls)[k]? = some (.line ls[k]) := by
        rw [ofLines, List.getElem?_map, List.getElem?_eq_getElem hk]
        rfl
      exact ⟨_, hd.next hline (h _ (List.getElem_mem hk))⟩

/-- **The code of an expression puts one value on the stack**, on every way through it, and control does not
    leave it before its end. -/
theorem lowerExpr_balanced {e : Expr} (hs : Ready [] s) (hrun : (lowerExpr e).run s = .ok () t) :
    ∃ new, t.code.toList = s.code.toList ++ new ∧ (∀ d, Runs (ofLines new) new.length d ↔ d = -8) ∧
      ∀ i x, .instr i ∈ new → i.target? = some x → .label x ∈ new := by
  have hpushes : Pushes 1 s t := (lowerExpr_pushes e hs).run_ok hrun
  obtain ⟨new, hnew, hlines⟩ := hpushes.shifts.leadsOn
  obtain ⟨ps, hps, _, hflows⟩ := (hpushes.shifts.traced 0 0 (by decide)).text
  have heq : new = linesOf ps := List.append_cancel_left (hnew.symm.trans hps)
  obtain rfl : ps = ofLines new := by rw [heq]; exact eq_ofLines (heq ▸ fun l hl => (hlines l hl).2)
  have hlabels : (labelNames (linesOf (ofLines new))).Nodup := by
    obtain ⟨new', made, hnew', _, hperm, hnodup, _⟩ := hpushes.settled.steady.segment.lines
    rw [linesOf_ofLines, List.append_cancel_left (hnew.symm.trans hnew'), hperm.nodup_iff, List.nil_append]
    exact (List.nodup_append.mp hnodup).1
  have htarget : ∀ {i : Instr} {e : Int} {x : String}, (.line (.instr i), e) ∈ spots 0 0 (ofLines new) →
      i.target? = some x → (.line (.label x), e) ∈ spots 0 0 (ofLines new) :=
    fun hi hx => (hflows.target hi hx).resolve_left List.not_mem_nil
  have hlevel : ∀ d, Runs (ofLines new) new.length d → d = -8 := by
    intro d hd
    rw [hd.level_eq hlabels htarget, List.take_of_length_le (by simp [ofLines]), hflows.level_eq]
    rfl
  refine ⟨new, hnew, fun d => ⟨hlevel d, ?_⟩, fun i x hi hx => ?_⟩
  · rintro rfl
    obtain ⟨d, hd⟩ := exists_runs (fun l hl => (hlines l hl).1) (Nat.le_refl new.length)
    rw [hlevel d hd] at hd
    exact hd
  · obtain ⟨k, hk⟩ := List.mem_iff_getElem?.mp hi
    have hpiece : (ofLines new)[k]? = some (.line (.instr i)) := by
      rw [ofLines, List.getElem?_map, hk]
      rfl
    simpa [ofLines] using mem_of_mem_spots (htarget (mem_spots hpiece) hx)

/-! ## Modules -/

/-- **The evaluation stack is balanced on every way of control.** In the listing of a module every function is
    balanced, and no function is left out: outside them there is no header of one. Between two statements of a
    function nothing is on its evaluation stack, whatever way control came there; and the code of an expression
    puts one value on the stack. -/
theorem evaluation_stack_balanced {l : Listing} (h : generate o m = .ok l) :
    ∃ forest, l.code = [.directive .text] ++ linesOf forest ∧ (∀ l, .line l ∈ forest → ∀ x, l ≠ .directive x) ∧
      (∀ r ∈ regionsOf 1 forest, ∃ frame, Balanced frame r.body) ∧
      (∀ s f rest, (lowerModule m).Passes (.initial o) .boundary s → s.frames = f :: rest →
        ∃ r ∈ regionsOf 1 forest, ∃ k, s.code.toList = l.code.take (r.place k) ∧
          ∀ d, Runs r.body k d → d = -f.size) ∧
      ∀ e s t, Ready [] s → (lowerExpr e).run s = .ok () t →
        ∃ new, t.code.toList = s.code.toList ++ new ∧ (∀ d, Runs (ofLines new) new.length d ↔ d = -8) ∧
          ∀ i x, .instr i ∈ new → i.target? = some x → .label x ∈ new := by
  obtain ⟨t, hrun, rfl⟩ := run_of_generate h
  obtain ⟨forest, hcode, hlaid, _⟩ := exists_forest hrun
  refine ⟨forest, hcode, fun l hl => hlaid.line_ne hl, fun r hr => ?_, fun s f rest hp hf => ?_,
    fun e s t hs hrun => lowerExpr_balanced hs hrun⟩
  · obtain ⟨hbody, frame, hframed⟩ := hlaid.region hr
    refine ⟨frame, balanced_of_framed hframed hbody fun k x hk hx => ?_⟩
    obtain ⟨p, s, hp, hnames, hs⟩ := exists_milestone hrun hcode hr hbody hk hx
    have hwatched : Watched p s := (lowerModule_crosses o m).passes hp
    exact ((hwatched.atLevel hnames).level_eq hr hframed hbody hs).1
  · have hlevel : AtLevel 0 s := (lowerModule_crosses o m).passes hp
    have hle := (quiet_lowerModule m (.initial o)).passes_le hp hrun
    rw [hcode] at hle
    obtain ⟨r, hr, k, hs⟩ := hlevel.exists_place hf hlaid hle
    obtain ⟨hbody, frame, hframed⟩ := hlaid.region hr
    obtain ⟨hk, hsize⟩ := hlevel.level_eq hr hframed hbody hs
    refine ⟨r, hr, k, ?_, fun d hd => ?_⟩
    · rw [hs, ← hcode]
      rfl
    · rw [hframed.level_eq hd, hk, hsize f rest hf]

/-- `def scale(n)`, with a function `twice` inside it. -/
def scaleModule : Module :=
  ⟨[.funcDef default "scale" ["n"]
      [.funcDef default "twice" ["x"]
         [.ret default (some (.binary default (.name default "x" .load) .add (.name default "x" .load)))],
       .ret default (some (.call default (.name default "twice" .load) [.name default "n" .load]))]], default⟩

/-- Between the statements of the function inside, nothing is on its evaluation stack. -/
theorem evaluation_stack_balanced_scaleModule : ∃ l s f rest, generate {} scaleModule = .ok l ∧
    (lowerModule scaleModule).Passes (.initial {}) .boundary s ∧ s.frames = f :: rest ∧ rest ≠ [] ∧
    ∃ (r : Region) (k : Nat), s.code.toList = l.code.take (r.place k) ∧ (∃ frame, Balanced frame r.body) ∧
      ∀ d, Runs r.body k d → d = -f.size := by
  obtain ⟨t, hrun, _⟩ : ∃ t, (lowerModule scaleModule).run (.initial {}) = .ok () t ∧ True :=
    exists_run_ok _ (by cbv)
  have hl : generate {} scaleModule = .ok t.listing := by simp only [generate, generateLogged, hrun]
  obtain ⟨p, s, hp, htest⟩ : ∃ p s, (lowerModule scaleModule).Passes (.initial {}) p s ∧
      (p = .boundary && s.frames.length = 2) = true := exists_passes (by cbv)
  obtain ⟨rfl, hlength⟩ : p = .boundary ∧ s.frames.length = 2 := by simpa using htest
  obtain ⟨forest, hcode, _, hbalanced, hboundary, _⟩ := evaluation_stack_balanced hl
  obtain ⟨f, g, hframes⟩ := List.length_eq_two.mp hlength
  obtain ⟨r, hr, k, hs, hlevel⟩ := hboundary s f [g] hp hframes
  exact ⟨_, s, f, [g], hl, hp, hframes, by simp, r, k, hs, hbalanced r hr, hlevel⟩

end Offside.Lower
