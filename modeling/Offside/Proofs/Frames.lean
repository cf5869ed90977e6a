import Mathlib
import Offside.Proofs.Modules

/-!
# `Proofs.Frames` — frames have exactly the slots that the code uses

The size of a frame is fixed before the body of its function is generated, from the names that the body
binds. Slots are handed out later, one for each new name. `Stations.slotCount_eq` says that the two agree when
the body is finished, and so every access through the frame pointer that the function makes itself stays
between the saved registers and the evaluation stack.
-/

namespace Offside

open Machine

/-! ## The lines of a function itself -/

namespace Machine

/-- The lines that are not inside a function; `depth` functions are open at the start. -/
def ownLines : Nat → List Line → List Line
  | _, [] => []
  | depth, .directive (.align _) :: rest => ownLines (depth + 1) rest
  | depth, .directive (.sizeFunction _) :: rest => ownLines (depth - 1) rest
  | 0, l :: rest => l :: ownLines 0 rest
  | depth + 1, _ :: rest => ownLines (depth + 1) rest

namespace Body

variable {n depth : Nat} {ls : List Line} {label : String}

theorem ownLines_header (depth : Nat) (rest : List Line) :
    ownLines depth (functionHeader label ++ rest) = ownLines (depth + 1) rest := rfl

theorem ownLines_footer (depth : Nat) (rest : List Line) :
    ownLines (depth + 1) (functionFooter label :: rest) = ownLines depth rest := by
  cases depth <;> rfl

/-- Code inside a function that is left out is left out as a whole. -/
theorem ownLines_inside (h : Body n ls) (depth : Nat) (rest : List Line) :
    ownLines (depth + 1) (ls ++ rest) = ownLines (depth + 1) rest := by
  induction h generalizing depth rest with
  | nil => rfl
  | @line n ls l _ hl ih =>
      rw [List.append_assoc, ih, List.singleton_append]
      cases l with
      | directive d => exact hl.elim
      | instr i => rfl
      | label name => rfl
      | comment text => rfl
  | function _ _ ih ihinner =>
      rw [List.append_assoc, ih, List.append_assoc, List.append_assoc, ownLines_header, ihinner,
        List.singleton_append, ownLines_footer]

/-- The lines of a body itself keep to its frame. -/
theorem ownLines_within (h : Body n ls) (rest : List Line) :
    ∃ own, ownLines 0 (ls ++ rest) = own ++ ownLines 0 rest ∧ ∀ l ∈ own, l.Within n := by
  induction h generalizing rest with
  | nil => exact ⟨[], rfl, by simp⟩
  | @line n ls l _ hl ih =>
      obtain ⟨own, hown, hwithin⟩ := ih ([l] ++ rest)
      refine ⟨own ++ [l], ?_, ?_⟩
      · rw [List.append_assoc, hown, List.append_assoc]
        cases l with
        | directive d => exact hl.elim
        | instr i => rfl
        | label name => rfl
        | comment text => rfl
      · intro l' hl'
        rcases List.mem_append.mp hl' with hl' | hl'
        · exact hwithin l' hl'
        · rw [List.mem_singleton.mp hl']; exact hl
  | @function n k ls inner label _ hinner ih _ =>
      obtain ⟨own, hown, hwithin⟩ := ih (functionHeader label ++ inner ++ [functionFooter label] ++ rest)
      refine ⟨own, ?_, hwithin⟩
      rw [List.append_assoc, hown, List.append_assoc, List.append_assoc, ownLines_header, hinner.ownLines_inside,
        List.singleton_append, ownLines_footer]

theorem within_of_mem_ownLines (h : Body n ls) : ∀ l ∈ ownLines 0 ls, l.Within n := by
  obtain ⟨own, hown, hwithin⟩ := h.ownLines_within []
  rw [List.append_nil] at hown
  rw [hown]
  simpa [ownLines] using hwithin

end Body

/-- A slot of a frame stands between the saved registers and the end of the frame. -/
theorem Frame.slotOffset_bounds (f : Frame) {k : Nat} (hk : k < f.slots) :
    8 ∣ slotOffset k ∧ -f.size ≤ slotOffset k ∧ slotOffset k ≤ -24 := by
  simp only [slotOffset, size, frameBytes, frameHeader, slotSize]
  omega

end Machine

namespace Lower

variable {s t u : State} {names params : List String} {fns : List Callee}

/-! ## Counting slots -/

theorem nodup_eraseDups : ∀ (l : List String), l.eraseDups.Nodup := by
  intro l
  induction hn : l.length using Nat.strongRecOn generalizing l with
  | ind n ih =>
      cases l with
      | nil => exact List.nodup_nil
      | cons x rest =>
          rw [List.eraseDups_cons, List.nodup_cons]
          refine ⟨?_, ih _ ?_ _ rfl⟩
          · simp
          · rw [← hn, List.length_cons]
            exact Nat.lt_succ_of_le (List.length_filter_le _ _)

/-- A list of names that starts with the parameters and goes on with the other bound names, each once, has
    the length that was counted. -/
theorem countLocals_eq_length {table : List String} {body : List Stmt} {known : String → Bool}
    (hparams : params <+: table) (hnodup : table.Nodup)
    (hmem : ∀ x, x ∈ table ↔ x ∈ params ∨ x ∈ boundNames body)
    (hnew : ∀ x ∈ table, x ∉ params → known x = false) : table.length = countLocals params body known := by
  obtain ⟨rest, rfl⟩ := hparams
  obtain ⟨_, hrest, hdisjoint⟩ := List.nodup_append.mp hnodup
  rw [countLocals, List.length_append]
  refine congrArg (params.length + ·) (List.Perm.length_eq ?_)
  rw [List.perm_ext_iff_of_nodup hrest (nodup_eraseDups _)]
  intro x
  rw [List.mem_eraseDups, List.mem_filter]
  have hx := hmem x
  rw [List.mem_append] at hx
  constructor
  · intro hxr
    have hnot : x ∉ params := fun hxp => hdisjoint x hxp x hxr rfl
    have hunknown := hnew x (List.mem_append_right params hxr) hnot
    exact ⟨(hx.mp (Or.inr hxr)).resolve_left hnot, by simp [hnot, hunknown]⟩
  · rintro ⟨hbound, hcond⟩
    have hnot : x ∉ params := by
      intro hxp
      simp [hxp] at hcond
    exact (hx.mpr (Or.inr hbound)).resolve_left hnot

section Stations

variable {name : String} {stmts : List Stmt} {body : Lower Unit} {loc : Position} {o : Opening} {f : Callee}
  {mid start finish last : State}

/-- What is unknown inside a function is unknown outside. -/
theorem Stations.resolve?_eq_none (h : Stations name params stmts body loc o f s mid start finish last t)
    {x : String} (hx : start.arena.resolve? start.current x = none) :
    s.arena.resolve? s.current x = none := by
  have hlt := h.paused.ready.named.current_lt
  have huntouched := h.opened.untouched ((Arena.Alike.refl start.arena).grows start.current)
  rw [Arena.resolve?_of_parent h.opened.parent_eq (by rw [h.opened.current]; exact hlt), Option.or_eq_none_iff,
    huntouched.resolve?_eq hlt, h.paused.steady.alike.resolve?_eq, h.paused.steady.current] at hx
  exact hx.2

/-- **The frame has exactly the slots that the body hands out.** -/
theorem Stations.slotCount_eq (h : Stations name params stmts body loc o f s mid start finish last t)
    (hbody : Completes (boundNames stmts) fns [] start finish) :
    finish.arena.slotCount finish.current = o.frame.slots := by
  have hgrows := hbody.advances.grows
  have htable := h.opened.table_eq
  rw [h.slots_eq, Arena.slotCount_eq]
  have hnodup := hbody.ready.named.table_nodup
  rw [hbody.advances.current] at hnodup ⊢
  refine countLocals_eq_length (htable ▸ hgrows.table_prefix) hnodup (fun x => ?_) fun x hx hnot => ?_
  · rw [hgrows.mem_table, htable]
  · rw [← htable] at hnot
    rw [h.resolve?_eq_none (hgrows.table_new hx hnot)]
    rfl

/-! ## The lines of a function in its listing -/

/-- **A straight stretch**: the lines it adds start and end no function. -/
def Straight (s t : State) : Prop :=
  ∃ new, t.code.toList = s.code.toList ++ new ∧ ∀ l ∈ new, ∀ d, l ≠ .directive d

theorem Straight.trans (h : Straight s t) (h' : Straight t u) : Straight s u := by
  obtain ⟨new, hnew, hplain⟩ := h
  obtain ⟨new', hnew', hplain'⟩ := h'
  refine ⟨new ++ new', by rw [hnew', hnew, List.append_assoc], fun l hl => ?_⟩
  exact (List.mem_append.mp hl).elim (hplain l) (hplain' l)

theorem Does.straight {is : List Instr} {p : Pool} {a : Arena} (h : Does is p a s t) : Straight s t := by
  obtain ⟨new, hnew, hfilter⟩ := h.lines
  refine ⟨new, hnew, fun l hl d hd => ?_⟩
  have hmem : l ∈ new.filter fun l => !l.isComment := List.mem_filter.mpr ⟨hl, by rw [hd]; rfl⟩
  rw [hfilter] at hmem
  obtain ⟨i, _, hi⟩ := List.mem_map.mp hmem
  exact absurd (hi.trans hd) (by simp)

theorem Straight.refl (s : State) : Straight s s := (Does.refl s).straight

theorem Spills.straight {l : List VarRef} (h : Spills l s t) : Straight s t := by
  induction h with
  | nil => exact .refl _
  | cons hv _ ih =>
      rcases hv with ⟨_, rfl⟩ | ⟨_, _, _, _, hdoes⟩
      · exact ih
      · exact hdoes.straight.trans ih

theorem Paused.straight {skip : Option String} (h : Paused skip s mid) : Straight s mid := by
  obtain ⟨l, t₁, t₂, h₁, h₂, hskip⟩ := h.path
  refine h₁.straight.trans (h₂.straight.trans ?_)
  rcases hskip with ⟨_, _, rfl⟩ | ⟨_, _, hdoes⟩
  · exact .refl _
  · exact hdoes.straight

/-- The lines of a function stand between its header and its footer, and its own ones keep to its frame. -/
theorem Stations.lines (h : Stations name params stmts body loc o f s mid start finish last t)
    (hbody : Completes (boundNames stmts) fns [] start finish) :
    ∃ before inner after, t.code.toList = s.code.toList ++ before ++
        (functionHeader o.label ++ inner ++ [functionFooter o.label]) ++ after ∧
      (∀ l ∈ before ++ after, ∀ d, l ≠ .directive d) ∧ Body o.frame.slots inner := by
  obtain ⟨before, hbefore, hplain⟩ := h.paused.straight
  obtain ⟨comments, hcomments, hstart⟩ := h.opened.lines
  obtain ⟨comments', hcomments', hend⟩ := h.closed.lines
  have hreturn : Settled finish last := by
    rcases h.returns with ⟨_, rfl⟩ | hdoes
    · exact .refl hbody.ready
    · exact hdoes.settled_return hbody.ready
  have hseg := hbody.advances.segment.trans hreturn.steady.segment
  rw [h.slotCount_eq hbody] at hseg
  obtain ⟨new, _, hnew, hnewBody, _⟩ := hseg.lines
  refine ⟨before ++ comments, o.frame.prologue.map Line.instr ++ new ++ comments', o.skip.toList.map Line.label,
    ?_, ?_, ?_⟩
  · rw [hend, hnew, hstart, hbefore]
    simp only [List.append_assoc, List.cons_append, List.nil_append]
  · intro l hl d hd
    subst hd
    simp only [List.mem_append, List.mem_map] at hl
    rcases hl with (hl | hl) | ⟨_, _, hl⟩
    · exact hplain _ hl d rfl
    · exact absurd (hcomments _ hl) (by simp [Line.isComment])
    · exact absurd hl (by simp)
  · refine (Body.append ?_ hnewBody).append (.of_forall fun l hl => within_of_isComment (hcomments' l hl))
    refine .of_forall fun l hl => ?_
    obtain ⟨i, hi, rfl⟩ := List.mem_map.mp hl
    exact within_of_frameOffset? (frameless_prologue o.frame i hi)

end Stations

/-! ## Frames are sized exactly -/

/-- **Frames are sized exactly and never overrun.** Wherever a function is defined, at the end of its body
    its scope has handed out as many slots as were counted before, which is the number of slots of the
    frame. The function's lines stand between its header and its footer, and the accesses through the frame
    pointer among them, those of functions inside it left out, reach between the saved registers and the
    evaluation stack. -/
theorem frame_slots_exact {options : Options} {m : Module} {span : Span} {name : String} {params : List String}
    {stmts : List Stmt} {s t : State} (hs : (lowerModule m).Passes (.initial options) .boundary s)
    (hrun : (lowerStmt (.funcDef span name params stmts)).run s = .ok () t) :
    ∃ (o : Opening) (start finish : State) (before inner after : List Line),
      (enterFunction name params stmts span.start).run s = .ok o start ∧
      (lowerBlock stmts).run start = .ok () finish ∧
      finish.arena.slotCount finish.current =
        countLocals params stmts (fun x => (s.arena.resolve? s.current x).isSome) ∧
      o.frame.slots = countLocals params stmts (fun x => (s.arena.resolve? s.current x).isSome) ∧
      t.code.toList = s.code.toList ++ before ++
        (functionHeader o.label ++ inner ++ [functionFooter o.label]) ++ after ∧
      (∀ l ∈ before ++ after, ∀ d, l ≠ .directive d) ∧
      ∀ i, Line.instr i ∈ ownLines 0 inner → ∀ offset, i.frameOffset? = some offset →
        8 ∣ offset ∧ -o.frame.size ≤ offset ∧ offset ≤ -24 := by
  obtain ⟨held, hready, hheld⟩ := (lowerModule_ensures options m).passes hs
  obtain rfl := hheld rfl
  rw [lowerStmt] at hrun
  obtain ⟨o, f, mid, start, finish, last, h, _⟩ :=
    (lowerFunction_ensures hready name params stmts span.start (lowerBlock_contract stmts)).run_ok hrun
  obtain ⟨fns, hbody⟩ :=
    (lowerBlock_contract stmts start h.opened.ready (h.opened.current_ne_globalScope h.paused)).run_ok h.run_body
  obtain ⟨before, inner, after, hcode, hplain, hinner⟩ := h.lines hbody
  refine ⟨o, start, finish, before, inner, after, h.enter, h.run_body, ?_, h.slots_eq, hcode, hplain, ?_⟩
  · rw [h.slotCount_eq hbody, h.slots_eq]
  · intro i hi offset hoffset
    obtain ⟨k, hk, rfl⟩ := hinner.within_of_mem_ownLines _ hi offset hoffset
    exact o.frame.slotOffset_bounds hk

/-- A function with a parameter, two names bound in its body, and a function inside it. -/
def nestedDefinition : Stmt :=
  .funcDef default "f" ["a"]
    [.assign default [.name default "b" .store] (.name default "a" .load),
     .loop default (.name default "b" .load)
       [.augAssign default (.name default "b" .store) .sub (.const default (.int 1)),
        .assign default [.name default "c" .store] (.name default "a" .load)],
     .funcDef default "g" ["x", "y"] [.ret default (some (.name default "x" .load))],
     .ret default (some (.name default "c" .load))]

/-- The function has three slots, two of which its code reaches at the loop. -/
theorem frame_slots_exact_nestedDefinition :
    ∃ (t : State) (o : Opening) (before inner after : List Line),
      (lowerStmt nestedDefinition).run (.start {}) = .ok () t ∧ Line.instr (storeSlot .t0 1) ∈ t.code.toList ∧
      o.frame.slots = 3 ∧
      t.code.toList = (State.start {}).code.toList ++ before ++
        (functionHeader o.label ++ inner ++ [functionFooter o.label]) ++ after ∧
      ∀ i, Line.instr i ∈ ownLines 0 inner → ∀ offset, i.frameOffset? = some offset →
        8 ∣ offset ∧ -o.frame.size ≤ offset ∧ offset ≤ -24 := by
  obtain ⟨t, hrun, hstore⟩ : ∃ t, (lowerStmt nestedDefinition).run (.start {}) = .ok () t ∧
      Line.instr (storeSlot .t0 1) ∈ t.code.toList := exists_run_ok _ (by cbv)
  have hpasses : (lowerModule ⟨[], default⟩).Passes (.initial {}) .boundary (.start {}) :=
    lowerBlock_passes_end [] (s := .start {}) rfl
  obtain ⟨o, _, _, before, inner, after, _, _, _, hslots, hcode, _, hown⟩ := frame_slots_exact hpasses hrun
  exact ⟨t, o, before, inner, after, hrun, hstore, hslots.trans (by cbv), hcode, hown⟩

end Lower

end Offside
