import Offside.Proofs.Labels
import Offside.Proofs.Script

/-!
# `Proofs.Progress` — what a stretch of code generation adds

Code only ever grows at its end. `Does` describes the moves that add instructions in a row, by the
instructions they add and the pool and arena they leave; `Segment` describes any stretch of code generation
by the lines it adds: they reach into the frame at slots only (`Body`), and the labels among them are new and
all different. A label is made before it is placed, so a segment also keeps the labels that are still to be
placed.
-/

namespace Offside

open Machine

/-! ## Lines -/

namespace Machine

/-- The label that a line places. -/
def Line.label? : Line → Option String
  | .label l => some l
  | _ => none

/-- The labels that lines place, in order. -/
def labelNames (ls : List Line) : List String := ls.filterMap Line.label?

/-- The offset of an instruction that reads or writes memory through the frame pointer. -/
def Instr.frameOffset? : Instr → Option Int
  | .ld _ offset .fp => some offset
  | .sd _ offset .fp => some offset
  | _ => none

/-- **The line keeps to a frame** of `n` slots: it is no directive, and through the frame pointer it
    reaches a slot. -/
def Line.Within (n : Nat) : Line → Prop
  | .instr i => ∀ offset, i.frameOffset? = some offset → ∃ k < n, offset = Frame.slotOffset k
  | .directive _ => False
  | .label _ | .comment _ => True

theorem Line.Within.mono {m n : Nat} {l : Line} (hle : m ≤ n) (h : l.Within m) : l.Within n := by
  cases l with
  | instr i =>
      intro offset ho
      obtain ⟨k, hk, he⟩ := h offset ho
      exact ⟨k, Nat.lt_of_lt_of_le hk hle, he⟩
  | directive d => exact h.elim
  | label l => trivial
  | comment x => trivial

theorem within_of_isComment {n : Nat} {l : Line} (h : l.isComment = true) : l.Within n := by
  cases l with
  | comment text => trivial
  | instr i => exact absurd h Bool.false_ne_true
  | directive d => exact absurd h Bool.false_ne_true
  | label name => exact absurd h Bool.false_ne_true

theorem label?_of_isComment {l : Line} (h : l.isComment = true) : l.label? = none := by
  cases l <;> first | rfl | exact absurd h Bool.false_ne_true

/-- An instruction that does not use the frame pointer keeps to any frame. -/
theorem within_of_frameOffset? {n : Nat} {i : Instr} (h : i.frameOffset? = none) : (Line.instr i).Within n := by
  intro offset ho
  rw [h] at ho
  exact absurd ho (by simp)

theorem within_storeSlot {n k : Nat} (r : Register) (hk : k < n) : (Line.instr (storeSlot r k)).Within n := by
  intro offset ho
  exact ⟨k, hk, (Option.some.inj ho).symm⟩

theorem within_loadSlot {n k : Nat} (r : Register) (hk : k < n) : (Line.instr (loadSlot r k)).Within n := by
  intro offset ho
  exact ⟨k, hk, (Option.some.inj ho).symm⟩

/-- **Code inside a function** with `n` slots: lines that keep to its frame, and whole functions, each with
    a frame of its own. -/
inductive Body : Nat → List Line → Prop
  | nil {n : Nat} : Body n []
  | line {n : Nat} {ls : List Line} {l : Line} (hls : Body n ls) (hl : l.Within n) : Body n (ls ++ [l])
  | function {n k : Nat} {ls inner : List Line} {label : String} (hls : Body n ls) (hinner : Body k inner) :
      Body n (ls ++ (functionHeader label ++ inner ++ [functionFooter label]))

namespace Body

variable {m n : Nat} {ls ls' : List Line}

theorem mono (hle : m ≤ n) (h : Body m ls) : Body n ls := by
  induction h with
  | nil => exact .nil
  | line _ hl ih => exact .line (ih hle) (hl.mono hle)
  | function _ hinner ih _ => exact .function (ih hle) hinner

theorem append (h : Body n ls) (h' : Body n ls') : Body n (ls ++ ls') := by
  induction h' with
  | nil => simpa using h
  | line _ hl ih => rw [← List.append_assoc]; exact .line (ih h) hl
  | function _ hinner ih _ => rw [← List.append_assoc]; exact .function (ih h) hinner

theorem of_forall (h : ∀ l ∈ ls, l.Within n) : Body n ls := by
  induction ls with
  | nil => exact .nil
  | cons l rest ih =>
      have hl : Body n [l] := .line .nil (h l List.mem_cons_self)
      exact hl.append (ih fun l' hl' => h l' (List.mem_cons_of_mem l hl'))

end Body

end Machine

theorem labelNames_append (ls ls' : List Line) :
    labelNames (ls ++ ls') = labelNames ls ++ labelNames ls' := List.filterMap_append

namespace Lower

variable {s t u : State} {n : Nat}

/-! ## Straight moves -/

/-- **The effect of a straight move**: it adds instructions, perhaps with comments between them, and leaves
    the given pool and arena. -/
structure Does (is : List Instr) (p : Pool) (a : Arena) (s t : State) : Prop where
  pool : t.pool = p
  arena : t.arena = a
  current : t.current = s.current
  frames : t.frames = s.frames
  options : t.options = s.options
  printsNumbers : t.printsNumbers = s.printsNumbers
  lines : ∃ new, t.code.toList = s.code.toList ++ new ∧
    new.filter (fun l => !l.isComment) = is.map Line.instr

variable {I : Milestone → State → Prop}

theorem Does.refl (s : State) : Does [] s.pool s.arena s s :=
  ⟨rfl, rfl, rfl, rfl, rfl, rfl, [], by simp, rfl⟩

theorem Does.trans {is is' : List Instr} {p p' : Pool} {a a' : Arena} (h : Does is p a s t)
    (h' : Does is' p' a' t u) : Does (is ++ is') p' a' s u := by
  obtain ⟨new, hnew, hfilter⟩ := h.lines
  obtain ⟨new', hnew', hfilter'⟩ := h'.lines
  refine ⟨h'.pool, h'.arena, h'.current.trans h.current, h'.frames.trans h.frames,
    h'.options.trans h.options, h'.printsNumbers.trans h.printsNumbers, new ++ new', ?_, ?_⟩
  · rw [hnew', hnew, List.append_assoc]
  · rw [List.filter_append, hfilter, hfilter', List.map_append]

/-- A change of pool, arena and journal alone. -/
theorem change_does {f : State → State} {p : Pool} {a : Arena} (hpool : (f s).pool = p) (harena : (f s).arena = a)
    (hcurrent : (f s).current = s.current) (hframes : (f s).frames = s.frames)
    (hoptions : (f s).options = s.options) (hprints : (f s).printsNumbers = s.printsNumbers)
    (hcode : (f s).code = s.code) :
    (change f).Ensures I s fun _ t => Does [] p a s t :=
  ⟨hpool, harena, hcurrent, hframes, hoptions, hprints, [], by simp [hcode], rfl⟩

theorem note_does (e : Event) : (note e).Ensures I s fun _ t => Does [] s.pool s.arena s t :=
  change_does rfl rfl rfl rfl rfl rfl rfl

theorem comment_does (text : String) :
    (comment text).Ensures I s fun _ t => Does [] s.pool s.arena s t := by
  show Does [] s.pool s.arena s
    (if s.options.comments then { s with code := s.code.push (.comment text) } else s)
  split
  · exact ⟨rfl, rfl, rfl, rfl, rfl, rfl, [.comment text], by simp, rfl⟩
  · exact .refl s

/-- Lines are added as they are. -/
theorem emitAll_ensures (ls : List Line) :
    (emitAll ls).Ensures I s fun _ t => t = { s with code := (s.code.toList ++ ls).toArray } := by
  induction ls generalizing s with
  | nil => simp [emitAll]
  | cons l rest ih =>
      refine Ensures.bind (R := fun _ t => t = { s with code := s.code.push l }) rfl fun _ t ht => ?_
      refine ih.mono fun _ u hu => ?_
      rw [hu, ht]
      simp

theorem emitInstrs_eq (is : List Instr) : emitInstrs is = emitAll (is.map Line.instr) := by
  induction is with
  | nil => rfl
  | cons i rest ih => exact congrArg (fun x => emit (.instr i) >>= fun _ => x) ih

theorem emitInstrs_does (is : List Instr) :
    (emitInstrs is).Ensures I s fun _ t => Does is s.pool s.arena s t := by
  rw [emitInstrs_eq]
  refine (emitAll_ensures _).mono fun _ t ht => ?_
  rw [ht]
  refine ⟨rfl, rfl, rfl, rfl, rfl, rfl, is.map Line.instr, rfl, ?_⟩
  rw [List.filter_eq_self]
  intro l hl
  obtain ⟨i, _, rfl⟩ := List.mem_map.mp hl
  rfl

/-- A move for each member of a list, if none of them adds an instruction. -/
theorem forM_does {α : Type} {f : α → Lower Unit}
    (h : ∀ x s, (f x).Ensures I s fun _ t => Does [] s.pool s.arena s t) (l : List α) (s : State) :
    (l.forM f).Ensures I s fun _ t => Does [] s.pool s.arena s t := by
  induction l generalizing s with
  | nil => exact .refl s
  | cons x rest ih =>
      refine (h x s).bind fun _ t ht => (ih t).mono fun _ u hu => ?_
      rw [ht.pool, ht.arena] at hu
      exact ht.trans hu

/-! ## Stretches of code generation -/

theorem append_append_perm (a b c d : List String) : ((a ++ b) ++ (c ++ d)).Perm ((a ++ c) ++ (b ++ d)) := by
  rw [List.perm_iff_count]
  intro x
  simp only [List.count_append]
  omega

/-- **What a stretch of code generation adds.** Its lines are code inside a function with `n` slots. The
    labels it places are `named`, which come from outside, and labels made on the way. All labels made are
    new and different; those in `pending` are still to be placed. -/
structure Segment (n : Nat) (named pending : List String) (s t : State) : Prop where
  size_le : s.arena.scopes.size ≤ t.arena.scopes.size
  labels_le : ∀ i, (s.arena.get i).labels ≤ (t.arena.get i).labels
  lines : ∃ new made, t.code.toList = s.code.toList ++ new ∧ Body n new ∧
    (labelNames new).Perm (named ++ made) ∧ (made ++ pending).Nodup ∧
    ∀ l ∈ made ++ pending, t.arena.Issued l ∧ ¬ s.arena.Issued l

namespace Segment

variable {named named' pending pending' : List String} {l : String}

theorem mono {m : Nat} (hle : m ≤ n) (h : Segment m named pending s t) : Segment n named pending s t := by
  obtain ⟨new, made, hnew, hbody, hrest⟩ := h.lines
  exact ⟨h.size_le, h.labels_le, new, made, hnew, hbody.mono hle, hrest⟩

theorem trans (h : Segment n named pending s t) (h' : Segment n named' pending' t u) :
    Segment n (named ++ named') (pending ++ pending') s u := by
  obtain ⟨new, made, hnew, hbody, hperm, hnodup, hissued⟩ := h.lines
  obtain ⟨new', made', hnew', hbody', hperm', hnodup', hissued'⟩ := h'.lines
  have hlater : ∀ x ∈ made ++ pending, u.arena.Issued x := fun x hx =>
    (hissued x hx).1.mono h'.size_le h'.labels_le
  have hearlier : ∀ x ∈ made' ++ pending', ¬ s.arena.Issued x := fun x hx hs =>
    (hissued' x hx).2 (hs.mono h.size_le h.labels_le)
  refine ⟨Nat.le_trans h.size_le h'.size_le, fun i => Nat.le_trans (h.labels_le i) (h'.labels_le i),
    new ++ new', made ++ made', ?_, hbody.append hbody', ?_, ?_, ?_⟩
  · rw [hnew', hnew, List.append_assoc]
  · rw [labelNames_append]
    exact (hperm.append hperm').trans (append_append_perm _ _ _ _)
  · -- labels of the first stretch are issued in the middle, those of the second are not
    rw [(append_append_perm made made' pending pending').nodup_iff, List.nodup_append]
    exact ⟨hnodup, hnodup', fun x hx y hy hxy => (hissued' y hy).2 (hxy ▸ (hissued x hx).1)⟩
  · intro x hx
    rw [(append_append_perm made made' pending pending').mem_iff, List.mem_append] at hx
    rcases hx with hx | hx
    · exact ⟨hlater x hx, (hissued x hx).2⟩
    · exact ⟨(hissued' x hx).1, hearlier x hx⟩

/-- The scope of the code before does not matter. -/
theorem of_current {c : ScopeId} (h : Segment n named pending { s with current := c } t) :
    Segment n named pending s t := ⟨h.size_le, h.labels_le, h.lines⟩

/-- The order of the labels does not matter. -/
theorem perm (h : Segment n named pending s t) (hn : named.Perm named') (hp : pending.Perm pending') :
    Segment n named' pending' s t := by
  obtain ⟨new, made, hnew, hbody, hperm, hnodup, hissued⟩ := h.lines
  have hmade : (made ++ pending).Perm (made ++ pending') := hp.append_left made
  exact ⟨h.size_le, h.labels_le, new, made, hnew, hbody, hperm.trans (hn.append_right made),
    hmade.nodup_iff.mp hnodup, fun x hx => hissued x (hmade.mem_iff.mpr hx)⟩

end Segment

/-- A stretch that adds lines without labels. -/
theorem segment_of_lines (hsize : s.arena.scopes.size ≤ t.arena.scopes.size)
    (hlabels : ∀ i, (s.arena.get i).labels ≤ (t.arena.get i).labels) (new : List Line)
    (hnew : t.code.toList = s.code.toList ++ new) (hbody : ∀ l ∈ new, l.Within n)
    (hnone : labelNames new = []) : Segment n [] [] s t := by
  refine ⟨hsize, hlabels, new, [], hnew, .of_forall hbody, ?_, List.nodup_nil, fun l hl => absurd hl List.not_mem_nil⟩
  rw [hnone]
  exact .refl _

/-- A stretch that adds no lines and leaves the labels alone. -/
theorem segment_of_code_eq (hsize : t.arena.scopes.size = s.arena.scopes.size)
    (hlabels : ∀ i, (t.arena.get i).labels = (s.arena.get i).labels) (hcode : t.code = s.code) :
    Segment n [] [] s t :=
  segment_of_lines (Nat.le_of_eq hsize.symm) (fun i => Nat.le_of_eq (hlabels i).symm) [] (by simp [hcode]) (by simp) rfl

theorem Does.segment {is : List Instr} {p : Pool} {a : Arena} (h : Does is p a s t)
    (hsize : s.arena.scopes.size ≤ a.scopes.size) (hlabels : ∀ i, (s.arena.get i).labels ≤ (a.get i).labels)
    (his : ∀ i ∈ is, (Line.instr i).Within n) : Segment n [] [] s t := by
  obtain ⟨new, hnew, hfilter⟩ := h.lines
  have hcases : ∀ l ∈ new, l.isComment = true ∨ ∃ i ∈ is, Line.instr i = l := by
    intro l hl
    by_cases hc : l.isComment = true
    · exact Or.inl hc
    · right
      have hmem : l ∈ new.filter fun l => !l.isComment := List.mem_filter.mpr ⟨hl, by simpa using hc⟩
      rw [hfilter] at hmem
      exact List.mem_map.mp hmem
  refine segment_of_lines (by rw [h.arena]; exact hsize) (fun i => by rw [h.arena]; exact hlabels i) new hnew
    (fun l hl => ?_) ?_
  · rcases hcases l hl with hc | ⟨i, hi, rfl⟩
    · exact within_of_isComment hc
    · exact his i hi
  · rw [labelNames, List.filterMap_eq_nil_iff]
    intro l hl
    rcases hcases l hl with hc | ⟨i, hi, rfl⟩
    · exact label?_of_isComment hc
    · rfl

/-- A label is made. -/
theorem segment_nextLabel {scope : ScopeId} {purpose : String} (hscope : scope < s.arena.scopes.size) :
    Segment n [] [(s.arena.nextLabel scope purpose).1] s
      { s with arena := (s.arena.nextLabel scope purpose).2 } := by
  refine ⟨Nat.le_of_eq (Arena.alike_nextLabel _ scope purpose).size_eq.symm,
    Arena.labels_le_nextLabel _ scope purpose, [], [], by simp, .nil,
    .refl _, by simp, fun l hl => ?_⟩
  obtain rfl := List.mem_singleton.mp hl
  exact ⟨Arena.issued_nextLabel purpose hscope, Arena.not_issued_nextLabel⟩

/-- The state after a label was placed. -/
def State.place (s : State) (label : String) : State := { s with code := s.code.push (.label label) }

/-- A label is placed. -/
theorem segment_label (l : String) : Segment n [l] [] s (s.place l) :=
  ⟨Nat.le_refl _, fun _ => Nat.le_refl _, [.label l], [], by simp [State.place], .of_forall (by simp [Line.Within]),
    .refl _, List.nodup_nil, fun x hx => absurd hx List.not_mem_nil⟩

theorem segment_labels (ls : List String) :
    Segment n ls [] s { s with code := (s.code.toList ++ ls.map Line.label).toArray } := by
  have hnames : labelNames (ls.map Line.label) = ls := by
    rw [labelNames, List.filterMap_map]
    exact List.filterMap_some
  refine ⟨Nat.le_refl _, fun _ => Nat.le_refl _, ls.map Line.label, [], rfl, .of_forall ?_, ?_, List.nodup_nil,
    fun x hx => absurd hx List.not_mem_nil⟩
  · intro l hl
    obtain ⟨x, _, rfl⟩ := List.mem_map.mp hl
    trivial
  · rw [hnames, List.append_nil]

/-- A label that was made on the way and placed later is settled. -/
theorem Segment.settle {named pending : List String} {l : String}
    (h : Segment n (l :: named) (l :: pending) s t) : Segment n named pending s t := by
  obtain ⟨new, made, hnew, hbody, hperm, hnodup, hissued⟩ := h.lines
  have hmade : (made ++ l :: pending).Perm ((l :: made) ++ pending) := List.perm_middle
  refine ⟨h.size_le, h.labels_le, new, l :: made, hnew, hbody, hperm.trans List.perm_middle.symm,
    hmade.nodup_iff.mp hnodup, fun x hx => hissued x (hmade.mem_iff.mpr hx)⟩

theorem Segment.settleAll {named pending : List String} :
    ∀ l : List String, Segment n (l ++ named) (l ++ pending) s t → Segment n named pending s t
  | [], h => h
  | _ :: rest, h => settleAll rest h.settle

theorem Segment.place {pending : List String} {l : String} (h : Segment n [] (l :: pending) s t) :
    Segment n [] pending s (t.place l) := by
  have hplaced := h.trans (segment_label (n := n) l)
  rw [List.append_nil] at hplaced
  exact hplaced.settle

end Lower

end Offside
