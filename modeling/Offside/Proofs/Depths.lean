import Offside.Proofs.Layout

/-!
# `Proofs.Depths` — where the stack pointer is, read off the listing

`scan` goes through the lines of a listing once, from top to bottom, and keeps for every function that is
open where its stack pointer is. On a text made of pieces it finds what `level` finds (`Laid.scan_take`), so
a place of the listing and the pieces of the function around it can be compared (`Region.scan_eq`).
-/

namespace Offside.Machine

/-! ## Scanning lines -/

/-- Where the stack pointer is in a function: the level of the frame, once there is one, and the
    displacement. -/
structure Depth where
  base : Option Int
  level : Int

/-- An instruction moves the stack pointer; the first move opens the frame. Behind a return the text goes on
    at the level of the frame. -/
def Depth.step (d : Depth) : Instr → Depth
  | .ret => ⟨d.base, d.base.getD d.level⟩
  | i => ⟨if i.stackMove = 0 then d.base else some (d.base.getD (d.level + i.stackMove)), d.level + i.stackMove⟩

/-- A line, with the functions that are open around it, the innermost first. -/
def scanLine : List Depth → Line → List Depth
  | ds, .directive (.typeFunction _) => ⟨none, 0⟩ :: ds
  | _ :: ds, .directive (.sizeFunction _) => ds
  | d :: ds, .instr i => d.step i :: ds
  | ds, _ => ds

/-- Lines, one after the other. -/
def scan (ds : List Depth) (ls : List Line) : List Depth := ls.foldl scanLine ds

section Scan

variable {base d : Int} {ds : List Depth} {ps : List Part} {inside : Bool}

theorem scan_append (ls ls' : List Line) : scan ds (ls ++ ls') = scan (scan ds ls) ls' := List.foldl_append

theorem scan_line {l : Line} (hl : ∀ x, l ≠ .directive x) :
    scanLine (⟨some base, d⟩ :: ds) l = ⟨some base, (Part.line l).after base d⟩ :: ds := by
  cases l with
  | directive x => exact absurd rfl (hl x)
  | label x => rfl
  | comment x => rfl
  | instr i =>
      have hstep : Depth.step ⟨some base, d⟩ i = ⟨some base, i.after base d⟩ := by
        cases i with
        | ret => rfl
        | _ => simp [Depth.step, Instr.after]
      exact congrArg (· :: ds) hstep

/-- A whole function leaves no trace, if its body opens a frame. -/
theorem scan_function {f : String} {body : List Part} {d : Depth}
    (hbody : scan (⟨none, 0⟩ :: ds) (linesOf body) = d :: ds) :
    scan ds (Part.function f body).lines = ds := by
  rw [Part.lines, scan_append, scan_append]
  show scan (scan (⟨none, 0⟩ :: ds) (linesOf body)) _ = ds
  rw [hbody]
  rfl

/-- **Levels can be read off the lines**, up to any piece; what stands around them does not matter. -/
def Scanned (ps : List Part) : Prop :=
  ∀ (k : Nat) (base d : Int) (ds : List Depth),
    scan (⟨some base, d⟩ :: ds) (linesOf (ps.take k)) = ⟨some base, level base d (ps.take k)⟩ :: ds

/-- The pieces of a function, from the opening of its frame on. -/
def ScannedFrom (frame : Frame) (ps : List Part) : Prop :=
  ∀ (k : Nat) (ds : List Depth), scan (⟨none, 0⟩ :: ds) (linesOf (ps.take (k + 1))) =
    ⟨some (-frame.size), level (-frame.size) 0 (ps.take (k + 1))⟩ :: ds

theorem Scanned.line {l : Line} (h : Scanned ps) (hl : ∀ x, l ≠ .directive x) : Scanned (.line l :: ps) := by
  intro k base d ds
  cases k with
  | zero => rfl
  | succ k =>
      rw [List.take_succ_cons, linesOf, scan_append]
      refine (congrArg (fun ds => scan ds (linesOf (ps.take k))) (scan_line hl)).trans ?_
      exact h k base _ ds

theorem Scanned.function {f : String} {body : List Part} {frame : Frame} (h : Scanned ps)
    (hbody : ScannedFrom frame body) : Scanned (.function f body :: ps) := by
  intro k base d ds
  cases k with
  | zero => rfl
  | succ k =>
      have hwhole := hbody body.length (⟨some base, d⟩ :: ds)
      rw [List.take_of_length_le (Nat.le_succ _)] at hwhole
      rw [List.take_succ_cons, linesOf, scan_append, scan_function hwhole]
      exact h k base d ds

/-- The first instruction of a function opens its frame. -/
theorem Scanned.open {rest : List Part} (h : Scanned rest) (frame : Frame) :
    ScannedFrom frame (.line (.instr (.addi .sp .sp (-frame.size))) :: rest) := by
  intro k ds
  have hne : -frame.size ≠ 0 := by
    unfold Frame.size frameBytes frameHeader
    omega
  have hstep : Depth.step ⟨none, 0⟩ (.addi .sp .sp (-frame.size)) = ⟨some (-frame.size), -frame.size⟩ := by
    simp [Depth.step, Instr.stackMove, hne]
  rw [List.take_succ_cons, linesOf, scan_append]
  refine (congrArg (fun d => scan (d :: ds) (linesOf (rest.take k))) hstep).trans ?_
  rw [h k]
  simp [level, Part.after, Instr.after, Instr.stackMove]

/-- What follows the first instruction of a function that is laid out. -/
theorem Framed.exists_rest {frame : Frame} {body : List Part} (h : Framed frame body) :
    ∃ rest, body = .line (.instr (.addi .sp .sp (-frame.size))) :: rest := by
  obtain ⟨rest, hbody, _⟩ := h.opens
  exact ⟨_, hbody⟩

theorem Laid.scanned (h : Laid inside ps) : Scanned ps ∧
    ∀ l rest, ps = .line l :: rest → Scanned rest := by
  induction h with
  | nil => exact ⟨fun k base d ds => by rw [List.take_nil]; rfl, by simp⟩
  | line hl _ ih => exact ⟨ih.1.line hl, by rintro l rest ⟨rfl, rfl⟩; exact ih.1⟩
  | @nested x f frame body rest hframed _ _ ihbody ih =>
      obtain ⟨tail, rfl⟩ := hframed.exists_rest
      have hfunction := (ih.1.line (l := .label x) (by simp)).function (f := f) ((ihbody.2 _ tail rfl).open frame)
      exact ⟨hfunction.line (by simp), by rintro l rest ⟨rfl, rfl⟩; exact hfunction⟩
  | @outermost f frame body rest hframed _ _ ihbody ih =>
      obtain ⟨tail, rfl⟩ := hframed.exists_rest
      exact ⟨ih.1.function ((ihbody.2 _ tail rfl).open frame), by simp⟩

theorem Framed.scannedFrom {frame : Frame} {body : List Part} (h : Framed frame body) (hbody : Laid true body) :
    ScannedFrom frame body := by
  obtain ⟨tail, rfl⟩ := h.exists_rest
  exact (hbody.scanned.2 _ tail rfl).open frame

/-- Whole texts. -/
theorem Laid.scan_eq (h : Laid inside ps) (base d : Int) (ds : List Depth) :
    scan (⟨some base, d⟩ :: ds) (linesOf ps) = ⟨some base, level base d ps⟩ :: ds := by
  have hwhole := h.scanned.1 ps.length base d ds
  rw [List.take_length] at hwhole
  exact hwhole

end Scan

/-! ## Edges -/

/-- **No header of a function is under way**: a directive at the end starts the text or ends a function. -/
def AtEdge (ls : List Line) : Prop :=
  ∀ x, ls.getLast? = some (.directive x) → x = .text ∨ ∃ f, x = .sizeFunction f

theorem Laid.line_ne {inside : Bool} {ps : List Part} (h : Laid inside ps) {l : Line} (hl : .line l ∈ ps)
    (x : Directive) : l ≠ .directive x := by
  induction h with
  | nil => exact absurd hl List.not_mem_nil
  | line hne _ ih =>
      rcases List.mem_cons.mp hl with heq | hl
      · obtain rfl := Part.line.inj heq
        exact hne x
      · exact ih hl
  | nested _ _ _ _ ih =>
      simp only [List.mem_cons, Part.line.injEq, reduceCtorEq, false_or] at hl
      rcases hl with rfl | rfl | hl
      · simp
      · simp
      · exact ih hl
  | outermost _ _ _ _ ih =>
      simp only [List.mem_cons, reduceCtorEq, false_or] at hl
      exact ih hl

/-- Behind a piece no header is under way. -/
theorem atEdge_append {ls : List Line} {ps : List Part} (hls : AtEdge ls)
    (h : ∀ l, .line l ∈ ps → ∀ x, l ≠ .directive x) : AtEdge (ls ++ linesOf ps) := by
  induction ps generalizing ls with
  | nil =>
      rw [linesOf, List.append_nil]
      exact hls
  | cons p rest ih =>
      rw [linesOf, ← List.append_assoc]
      refine ih ?_ fun l hl => h l (List.mem_cons_of_mem p hl)
      intro x hx
      cases p with
      | line l =>
          have hlast : l = .directive x := by simpa [Part.lines] using hx
          exact absurd hlast (h l List.mem_cons_self x)
      | function f body =>
          have hlast : functionFooter f = .directive x := by simpa [Part.lines] using hx
          exact Or.inr ⟨f, (Line.directive.inj hlast).symm⟩

/-! ## Regions -/

/-- **The place of a function in a listing**: its first line, its label and its pieces. -/
structure Region where
  start : Nat
  label : String
  body : List Part

/-- The line behind a function. -/
def Region.stop (r : Region) : Nat := r.start + (Part.function r.label r.body).lines.length

mutual

/-- The functions in a piece that starts at a line, each before those inside it. -/
def Part.regions (start : Nat) : Part → List Region
  | .line _ => []
  | .function f body => ⟨start, f, body⟩ :: regionsOf (start + (functionHeader f).length) body

/-- The functions in pieces that start at a line. -/
def regionsOf (start : Nat) : List Part → List Region
  | [] => []
  | p :: rest => p.regions start ++ regionsOf (start + p.lines.length) rest

end

section Regions

variable {start : Nat} {ps : List Part} {inside : Bool} {r : Region}

mutual

theorem Part.exists_lines_of_region : ∀ {p : Part} {start : Nat}, r ∈ p.regions start → ∃ before after,
    p.lines = before ++ (Part.function r.label r.body).lines ++ after ∧ r.start = start + before.length
  | .line l, start, hr => absurd hr List.not_mem_nil
  | .function f body, start, hr => by
      rw [Part.regions] at hr
      rcases List.mem_cons.mp hr with rfl | hr
      · exact ⟨[], [], by simp, rfl⟩
      · obtain ⟨before, after, hlines, hstart⟩ := exists_lines_of_region hr
        refine ⟨functionHeader f ++ before, after ++ [functionFooter f], ?_, ?_⟩
        · rw [Part.lines, hlines]; simp
        · rw [hstart, List.length_append, Nat.add_assoc]

/-- A function stands among the lines at its place. -/
theorem exists_lines_of_region : ∀ {ps : List Part} {start : Nat}, r ∈ regionsOf start ps → ∃ before after,
    linesOf ps = before ++ (Part.function r.label r.body).lines ++ after ∧ r.start = start + before.length
  | [], start, hr => absurd hr List.not_mem_nil
  | p :: rest, start, hr => by
      rw [regionsOf] at hr
      rw [linesOf]
      rcases List.mem_append.mp hr with hr | hr
      · obtain ⟨before, after, hlines, hstart⟩ := Part.exists_lines_of_region hr
        exact ⟨before, after ++ linesOf rest, by rw [hlines]; simp, hstart⟩
      · obtain ⟨before, after, hlines, hstart⟩ := exists_lines_of_region hr
        refine ⟨p.lines ++ before, after, by rw [hlines]; simp, ?_⟩
        rw [hstart, List.length_append, Nat.add_assoc]

end

/-- Functions lie between the ends of the text they stand in. -/
theorem region_bounds (hr : r ∈ regionsOf start ps) :
    start ≤ r.start ∧ r.stop ≤ start + (linesOf ps).length := by
  obtain ⟨before, after, hlines, hstart⟩ := exists_lines_of_region hr
  refine ⟨by omega, ?_⟩
  rw [Region.stop, hlines, List.length_append, List.length_append]
  omega

/-- One function ends before the other starts, or lies around it. -/
def Region.Apart (r r' : Region) : Prop := r.stop ≤ r'.start ∨ (r.start < r'.start ∧ r'.stop < r.stop)

mutual

theorem Part.regions_apart : ∀ (p : Part) (start : Nat), (p.regions start).Pairwise Region.Apart
  | .line l, start => List.Pairwise.nil
  | .function f body, start => by
      rw [Part.regions]
      refine List.Pairwise.cons (fun r hr => Or.inr ?_) (regionsOf_apart body _)
      obtain ⟨hstart, hstop⟩ := region_bounds hr
      have hlength : (Part.function f body).lines.length =
          (functionHeader f).length + (linesOf body).length + 1 := by simp [Part.lines, Nat.add_assoc]
      have hheader : (functionHeader f).length = 4 := rfl
      refine ⟨by show start < r.start; omega, ?_⟩
      show r.stop < start + (Part.function f body).lines.length
      omega

/-- **Functions are apart**: disjoint, or one inside the other. -/
theorem regionsOf_apart : ∀ (ps : List Part) (start : Nat), (regionsOf start ps).Pairwise Region.Apart
  | [], start => List.Pairwise.nil
  | p :: rest, start => by
      rw [regionsOf]
      refine List.pairwise_append.mpr ⟨p.regions_apart start, regionsOf_apart rest _, fun r hr r' hr' => Or.inl ?_⟩
      have hp : r ∈ regionsOf start [p] := by rw [regionsOf]; exact List.mem_append_left _ hr
      have hstop := (region_bounds hp).2
      have hlines : linesOf [p] = p.lines := List.append_nil _
      rw [hlines] at hstop
      exact Nat.le_trans hstop (region_bounds hr').1

end

/-- The functions of a text are laid out as functions. -/
theorem Laid.region (h : Laid inside ps) (hr : r ∈ regionsOf start ps) :
    Laid true r.body ∧ ∃ frame, Framed frame r.body := by
  induction h generalizing start with
  | nil => exact absurd hr List.not_mem_nil
  | line _ _ ih => exact ih hr
  | nested hframed hbody _ ihbody ih =>
      simp only [regionsOf, Part.regions, List.nil_append, List.mem_append, List.mem_cons] at hr
      rcases hr with (rfl | hr) | hr
      · exact ⟨hbody, _, hframed⟩
      · exact ihbody hr
      · exact ih hr
  | outermost hframed hbody _ ihbody ih =>
      simp only [regionsOf, Part.regions, List.mem_append, List.mem_cons] at hr
      rcases hr with (rfl | hr) | hr
      · exact ⟨hbody, _, hframed⟩
      · exact ihbody hr
      · exact ih hr

/-- A function stands where its type is declared. -/
theorem Laid.exists_region (h : Laid inside ps) {x : String} (hx : .directive (.typeFunction x) ∈ linesOf ps)
    (start : Nat) : ∃ r ∈ regionsOf start ps, r.label = x := by
  -- a function inside another and an outermost one differ only in what stands around them
  have hfunction : ∀ {f body} {start : Nat}, (.directive (.typeFunction x) ∈ linesOf body → ∀ start : Nat,
      ∃ r ∈ regionsOf start body, r.label = x) → .directive (.typeFunction x) ∈ (Part.function f body).lines →
      ∃ r ∈ (Part.function f body).regions start, r.label = x := by
    intro f body start ih hmem
    have hcases : x = f ∨ .directive (.typeFunction x) ∈ linesOf body := by
      simpa [Part.lines, functionHeader, functionFooter] using hmem
    rw [Part.regions]
    rcases hcases with rfl | hbody
    · exact ⟨_, List.mem_cons_self, rfl⟩
    · obtain ⟨r, hr, hlabel⟩ := ih hbody _
      exact ⟨r, List.mem_cons_of_mem _ hr, hlabel⟩
  induction h generalizing start with
  | nil => exact absurd hx List.not_mem_nil
  | @line _ l rest hl _ ih =>
      rw [linesOf, Part.lines, List.singleton_append] at hx
      rcases List.mem_cons.mp hx with heq | hx
      · exact absurd heq.symm (hl _)
      · exact ih hx _
  | nested _ _ _ ihbody ih =>
      simp only [linesOf, List.mem_append] at hx
      simp only [regionsOf, List.mem_append]
      rcases hx with hjump | hx | hlabel | hx
      · exact absurd hjump (by simp [Part.lines])
      · obtain ⟨r, hr, hlabel⟩ := hfunction ihbody hx
        exact ⟨r, Or.inr (Or.inl hr), hlabel⟩
      · exact absurd hlabel (by simp [Part.lines])
      · obtain ⟨r, hr, hlabel⟩ := ih hx _
        exact ⟨r, Or.inr (Or.inr (Or.inr hr)), hlabel⟩
  | outermost _ _ _ ihbody ih =>
      rw [linesOf, List.mem_append] at hx
      rw [regionsOf]
      rcases hx with hx | hx
      · obtain ⟨r, hr, hlabel⟩ := hfunction ihbody hx
        exact ⟨r, List.mem_append_left _ hr, hlabel⟩
      · obtain ⟨r, hr, hlabel⟩ := ih hx _
        exact ⟨r, List.mem_append_right _ hr, hlabel⟩

/-- The line at which a piece of a function starts. -/
def Region.place (r : Region) (k : Nat) : Nat :=
  r.start + (functionHeader r.label).length + (linesOf (r.body.take k)).length

mutual

theorem Part.exists_place : ∀ (p : Part) (start n : Nat), start ≤ n → n ≤ start + p.lines.length →
    n = start ∨ n = start + p.lines.length ∨ (∃ r ∈ p.regions start, ∃ k, n = r.place k) ∨
      ∃ r ∈ p.regions start, r.start < n ∧ n < r.start + (functionHeader r.label).length
  | .line l, start, n, hge, hle => by
      have hone : (Part.line l).lines.length = 1 := rfl
      omega
  | .function f body, start, n, hge, hle => by
      have hlength : (Part.function f body).lines.length =
          (functionHeader f).length + (linesOf body).length + 1 := by simp [Part.lines, Nat.add_assoc]
      rw [Part.regions]
      by_cases hheader : n < start + (functionHeader f).length
      · rcases Nat.lt_or_eq_of_le hge with hlt | rfl
        · exact Or.inr (Or.inr (Or.inr ⟨_, List.mem_cons_self, hlt, hheader⟩))
        · exact Or.inl rfl
      by_cases hfooter : n = start + (Part.function f body).lines.length
      · exact Or.inr (Or.inl hfooter)
      -- between header and footer: at a piece of the body, or inside one
      rcases exists_place body (start + (functionHeader f).length) n (by omega) (by omega) with ⟨k, hk⟩ | hr | hr
      · exact Or.inr (Or.inr (Or.inl ⟨⟨start, f, body⟩, List.mem_cons_self, k, hk⟩))
      · obtain ⟨r, hr, hk⟩ := hr
        exact Or.inr (Or.inr (Or.inl ⟨r, List.mem_cons_of_mem _ hr, hk⟩))
      · obtain ⟨r, hr, hk⟩ := hr
        exact Or.inr (Or.inr (Or.inr ⟨r, List.mem_cons_of_mem _ hr, hk⟩))

/-- **Every line has its place**: at a piece of the text, at a piece of a function in it, or in the header of
    one. -/
theorem exists_place : ∀ (ps : List Part) (start n : Nat), start ≤ n → n ≤ start + (linesOf ps).length →
    (∃ k, n = start + (linesOf (ps.take k)).length) ∨ (∃ r ∈ regionsOf start ps, ∃ k, n = r.place k) ∨
      ∃ r ∈ regionsOf start ps, r.start < n ∧ n < r.start + (functionHeader r.label).length
  | [], start, n, hge, hle => Or.inl ⟨0, Nat.le_antisymm hle hge⟩
  | p :: rest, start, n, hge, hle => by
      rw [linesOf, List.length_append] at hle
      rw [regionsOf]
      have hlater : start + p.lines.length ≤ n → _ := fun hge' =>
        exists_place rest (start + p.lines.length) n hge' (by omega)
      by_cases hp : n < start + p.lines.length
      · rcases p.exists_place start n hge (by omega) with hstart | hstop | ⟨r, hr, hk⟩ | ⟨r, hr, hk⟩
        · exact Or.inl ⟨0, hstart⟩
        · omega
        · exact Or.inr (Or.inl ⟨r, List.mem_append_left _ hr, hk⟩)
        · exact Or.inr (Or.inr ⟨r, List.mem_append_left _ hr, hk⟩)
      · rcases hlater (by omega) with ⟨k, hk⟩ | ⟨r, hr, hk⟩ | ⟨r, hr, hk⟩
        · refine Or.inl ⟨k + 1, ?_⟩
          rw [List.take_succ_cons, linesOf, List.length_append, hk, Nat.add_assoc]
        · exact Or.inr (Or.inl ⟨r, List.mem_append_right _ hr, hk⟩)
        · exact Or.inr (Or.inr ⟨r, List.mem_append_right _ hr, hk⟩)

end

section Place

variable (front : List Line)

/-- The lines in front of a piece of a function. -/
theorem Region.take_place (hr : r ∈ regionsOf front.length ps) (k : Nat) :
    ∃ before after, (front ++ linesOf ps).take (r.place k) =
        front ++ before ++ functionHeader r.label ++ linesOf (r.body.take k) ∧
      (front ++ linesOf ps).drop (r.place k) = linesOf (r.body.drop k) ++ [functionFooter r.label] ++ after := by
  obtain ⟨before, after, hlines, hstart⟩ := exists_lines_of_region hr
  have hbody : linesOf r.body = linesOf (r.body.take k) ++ linesOf (r.body.drop k) := by
    rw [← linesOf_append, List.take_append_drop]
  have hsplit : front ++ linesOf ps = front ++ before ++ functionHeader r.label ++ linesOf (r.body.take k) ++
      (linesOf (r.body.drop k) ++ [functionFooter r.label] ++ after) := by
    rw [hlines, Part.lines, hbody]
    simp only [List.append_assoc]
  have hlength : r.place k = (front ++ before ++ functionHeader r.label ++ linesOf (r.body.take k)).length := by
    rw [Region.place, hstart]
    simp only [List.length_append]
  refine ⟨before, after, ?_, ?_⟩
  · rw [hsplit, hlength, List.take_left]
  · rw [hsplit, hlength, List.drop_left]

/-- A line of a function stands at its place. -/
theorem Region.getElem?_place {k : Nat} {l : Line} (hr : r ∈ regionsOf front.length ps)
    (hk : r.body[k]? = some (.line l)) : (front ++ linesOf ps)[r.place k]? = some l := by
  obtain ⟨before, after, _, hdrop⟩ := Region.take_place front hr k
  obtain ⟨hlt, hget⟩ := List.getElem?_eq_some_iff.mp hk
  rw [List.drop_eq_getElem_cons hlt, hget, linesOf] at hdrop
  have hfirst := congrArg (·[0]?) hdrop
  simpa [List.getElem?_drop, Part.lines] using hfirst

/-- In front of a piece of a function no header is under way. -/
theorem Region.atEdge_place (hr : r ∈ regionsOf front.length ps) (hlaid : Laid true r.body) (k : Nat) :
    AtEdge ((front ++ linesOf ps).take (r.place k)) := by
  obtain ⟨before, after, htake, _⟩ := Region.take_place front hr k
  rw [htake]
  refine atEdge_append ?_ fun l hl => hlaid.line_ne (List.mem_of_mem_take hl)
  intro x hx
  exact absurd hx (by simp [functionHeader])

/-- **The scan inside a function** finds its frame and its level. -/
theorem Region.scan_eq {frame : Frame} (hr : r ∈ regionsOf front.length ps) (hframed : Framed frame r.body)
    (hlaid : Laid true r.body) (k : Nat) (D : List Depth) :
    ∃ d ds, scan D ((front ++ linesOf ps).take (r.place k)) = d :: ds ∧
      ∀ b, d.base = some b → b = -frame.size ∧ d.level = level (-frame.size) 0 (r.body.take k) := by
  obtain ⟨before, after, htake, _⟩ := Region.take_place front hr k
  rw [htake, scan_append, scan_append]
  show ∃ d ds, scan (⟨none, 0⟩ :: scan D (front ++ before)) (linesOf (r.body.take k)) = d :: ds ∧ _
  cases k with
  | zero => exact ⟨⟨none, 0⟩, _, rfl, fun b hb => absurd hb (by simp)⟩
  | succ k =>
      refine ⟨_, _, hframed.scannedFrom hlaid k _, fun b hb => ⟨(Option.some.inj hb).symm, rfl⟩⟩

/-- In a header, one is under way. -/
theorem Region.not_atEdge (hr : r ∈ regionsOf front.length ps) {n : Nat} (hgt : r.start < n)
    (hlt : n < r.start + (functionHeader r.label).length) : ¬AtEdge ((front ++ linesOf ps).take n) := by
  obtain ⟨before, after, hlines, hstart⟩ := exists_lines_of_region hr
  obtain ⟨j, rfl⟩ := Nat.exists_eq_add_of_lt hgt
  have hj : j < 3 := by simp [functionHeader] at hlt; omega
  -- the last line is one of the first three of the header
  have hlast : ((front ++ linesOf ps).take (r.start + j + 1)).getLast? = (functionHeader r.label)[j]? := by
    have hsplit : front ++ linesOf ps = (front ++ before) ++ (functionHeader r.label ++
        (linesOf r.body ++ [functionFooter r.label] ++ after)) := by
      rw [hlines, Part.lines]
      simp only [List.append_assoc]
    have hlength : r.start = (front ++ before).length := by rw [hstart, List.length_append]
    have hheader : (functionHeader r.label).length = 4 := rfl
    rw [hsplit, hlength, Nat.add_assoc, List.take_length_add_append, List.take_append_of_le_length (by omega),
      List.getLast?_append, List.getLast?_take, if_neg (by omega), Nat.add_sub_cancel,
      List.getElem?_eq_getElem (by omega)]
    rfl
  intro hedge
  rw [AtEdge, hlast] at hedge
  match j, hj with
  | 0, _ => exact absurd (hedge _ rfl) (by simp)
  | 1, _ => exact absurd (hedge _ rfl) (by simp)
  | 2, _ => exact absurd (hedge _ rfl) (by simp)

end Place

end Regions

end Offside.Machine
