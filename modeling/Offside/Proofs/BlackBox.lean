import Mathlib.Data.List.Infix
import Offside.Proofs.Transfers

/-!
# `Proofs.BlackBox` — code whose calls may do what they like

`Image.Surely` runs code against an adversary. A call is not followed: whoever is called gives control back
with any core that the calling convention allows (`Answered`), and the run has to come to its end all the
same. The calls are kept in a log, with the core that each one was made from.

Between two calls the lemmas of `Proofs.Transfers` apply, and need not be proved again. They speak of
`Image.Reaches`, which would follow a call; so they are used on a copy of the code in which every call is
replaced by an instruction that control cannot pass (`Image.stopped`), read from the line where the stretch
begins (`State.window`). What is reached in the copy was reached without a call (`Image.Reaches.surely`).
-/

namespace Offside

namespace Machine

/-! ## Calls from outside -/

/-- **A call that was made**: its label, the core that it was made from, and the result. -/
structure Call where
  label : String
  before : Core
  answer : Word

/-- **The call was handed its arguments**: it goes to the function, and the arguments are in the registers of
    the parameters, one for each. -/
structure Call.Receives (call : Call) (callee : Callee) (args : List Word) : Prop where
  label_eq : call.label = callee.label
  length_eq : args.length = callee.params.length
  passed : ∀ {i : Nat} {r : Register} {x : Word}, (callee.params.map (·.2))[i]? = some r → args[i]? = some x →
    call.before.get r = x.toInt

/-- **The call prints a number.** -/
structure Call.Prints (call : Call) (x : Word) : Prop where
  label_eq : call.label = Lower.printRoutine
  passed : call.before.get .a1 = x.toInt

/-- **What a call may leave behind.** The stack pointer, the registers that calls keep and the memory from the
    stack pointer up are as they were, and the result is in `a0`. The rest is up to the call: `ra`, the
    temporaries, the argument registers, memory below the stack pointer and what it prints. -/
structure Answered (v : Word) (c d : Core) : Prop where
  result : d.get .a0 = v.toInt
  sp : d.get .sp = c.get .sp
  kept : ∀ {r : Register}, r.isKept = true → d.get r = c.get r
  memory : ∀ {a}, c.get .sp ≤ a → d.mem a = c.mem a
  output : ∃ out : List Word, d.output = c.output ++ out.map BitVec.toInt

/-- A call that comes back to a caller whose `ra` is lost anyway. -/
theorem Answered.returned {v : Word} {c d : Core} (h : Answered v c d) :
    ∃ out, Returned v out (c.set .ra (d.get .ra)) d := by
  obtain ⟨out, hout⟩ := h.output
  have hkept : ∀ {r : Register}, r ≠ .ra → (c.set .ra (d.get .ra)).get r = c.get r := Core.get_set_ne
  refine ⟨out, h.result, (Core.get_set_self (by decide)).symm, ?_, fun {r} hr => ?_, hout, fun {a} ha => ?_⟩
  · rw [hkept (by decide)]; exact h.sp
  · rw [hkept (by rintro rfl; exact absurd hr (by decide))]; exact h.kept hr
  · rw [hkept (by decide)] at ha; exact h.memory ha

/-- **Control comes to the end of the code, whatever the calls do**: the log of the calls and the core at the
    end have the property. -/
inductive Image.Surely (P : Image) (Q : List Call → Core → Prop) : Nat → List Call → Core → Prop
  | done {log : List Call} {c : Core} (hQ : Q log c) : Surely P Q P.code.length log c
  | step {k n : Nat} {log : List Call} {c d : Core} (hline : ∀ f, P.code[k]? ≠ some (.instr (.call f)))
      (hstep : P.step ⟨k, c⟩ = some ⟨n, d⟩) (hrest : Surely P Q n log d) : Surely P Q k log c
  | call {k : Nat} {f : String} {log : List Call} {c : Core} (hline : P.code[k]? = some (.instr (.call f)))
      (hrest : ∀ v d, Answered v c d → Surely P Q (k + 1) (log ++ [⟨f, c, v⟩]) d) : Surely P Q k log c

/-- A call may do no more than give its result. -/
theorem answered_set (v : Word) (c : Core) : Answered v c (c.set .a0 v.toInt) := by
  refine ⟨Core.get_set_self (by decide), Core.get_set_ne (by decide), fun {r} hr => Core.get_set_ne ?_, fun _ => rfl,
    [], (List.append_nil _).symm⟩
  rintro rfl
  exact absurd hr (by decide)

/-- **The end is reached**: every call can be answered. -/
theorem Image.Surely.exists_end {P : Image} {Q : List Call → Core → Prop} {k : Nat} {log : List Call} {c : Core}
    (h : P.Surely Q k log c) : ∃ log' d, Q log' d := by
  induction h with
  | done hQ => exact ⟨_, _, hQ⟩
  | step _ _ _ ih => exact ih
  | call _ _ ih => exact ih 0 _ (answered_set 0 _)

/-! ## Code without its calls -/

/-- A call is replaced by a load from an odd address, which fails. -/
def Instr.stopped : Instr → Instr
  | .call _ => .ld .zero 1 .zero
  | i => i

def Line.stopped : Line → Line
  | .instr i => .instr i.stopped
  | l => l

def Image.stopped (P : Image) : Image := { P with code := P.code.map Line.stopped }

theorem Line.stopped_eq_label_iff {l : Line} {label : String} : l.stopped = .label label ↔ l = .label label := by
  cases l <;> simp [Line.stopped]

theorem target?_stopped (label : String) (code : List Line) :
    target? label (code.map Line.stopped) = target? label code := by
  induction code with
  | nil => rfl
  | cons l rest ih =>
      rw [List.map_cons]
      unfold target?
      simp only [ih, Line.stopped_eq_label_iff]

theorem labelNames_stopped (code : List Line) : labelNames (code.map Line.stopped) = labelNames code := by
  unfold labelNames
  rw [List.filterMap_map]
  congr 1
  funext l
  cases l <;> rfl

theorem filter_stopped (lines : List Line) : (lines.map Line.stopped).filter (fun l => !l.isComment) =
    (lines.filter fun l => !l.isComment).map Line.stopped := by
  have hsame : (fun l => !l.isComment) ∘ Line.stopped = fun l => !l.isComment := by
    funext l
    cases l <;> rfl
  rw [List.filter_map, hsame]

namespace Image

variable {P : Image} {Q : List Call → Core → Prop} {M M' : Processor} {log : List Call} {c : Core} {k n : Nat}

theorem goto?_stopped (label : String) (c : Core) : P.stopped.goto? label c = P.goto? label c :=
  congrArg (Option.map (Processor.mk · c)) (target?_stopped label P.code)

/-- Instructions other than calls do what they did. -/
theorem execute_stopped {i : Instr} (h : P.stopped.execute n c i.stopped = some M) :
    (∀ f, i ≠ .call f) ∧ P.execute n c i = some M := by
  cases i with
  | call f =>
      have hnone : (Instr.ld .zero 1 .zero).effect? c = none := by simp [Instr.effect?, Core.get]
      have hstuck : P.stopped.execute n c (Instr.call f).stopped = none := congrArg (Option.map (Processor.mk n)) hnone
      exact absurd (hstuck.symm.trans h) (by simp)
  | branch test rs1 rs2 label =>
      refine ⟨fun f => by simp, Eq.trans ?_ h⟩
      show (if _ then P.goto? label c else _) = if _ then P.stopped.goto? label c else _
      rw [goto?_stopped]
  | beqz rs label =>
      refine ⟨fun f => by simp, Eq.trans ?_ h⟩
      show (if _ then P.goto? label c else _) = if _ then P.stopped.goto? label c else _
      rw [goto?_stopped]
  | jump label => exact ⟨fun f => by simp, (goto?_stopped label c).symm.trans h⟩
  | _ => exact ⟨fun f => by simp, h⟩

/-- **A step of the code without its calls** is a step of the code, and not a call. -/
theorem step_stopped (h : P.stopped.step M = some M') :
    (∀ f, P.code[M.pc]? ≠ some (.instr (.call f))) ∧ P.step M = some M' := by
  have hget : P.stopped.code[M.pc]? = (P.code[M.pc]?).map Line.stopped := List.getElem?_map ..
  unfold step at h ⊢
  rw [hget] at h
  cases hl : P.code[M.pc]? with
  | none => rw [hl] at h; exact absurd h (by simp)
  | some l =>
      rw [hl] at h
      cases l with
      | instr i =>
          obtain ⟨hcall, hstep⟩ := execute_stopped h
          exact ⟨fun f hf => hcall f (Line.instr.inj (Option.some.inj hf)), hstep⟩
      | _ => exact ⟨fun f hf => by simp at hf, h⟩

/-- **What is reached without a call** is reached whatever calls do. -/
theorem Reaches.surely (h : P.stopped.Reaches M M') (hrest : P.Surely Q M'.pc log M'.core) :
    P.Surely Q M.pc log M.core := by
  induction h using Relation.ReflTransGen.head_induction_on with
  | refl => exact hrest
  | head hstep _ ih =>
      obtain ⟨hline, hstep⟩ := step_stopped hstep
      exact .step hline hstep ih

/-- Comments are passed over. -/
theorem surely_comments {front new : List Line} (hcode : front ++ new <+: P.code)
    (hnew : new.filter (fun l => !l.isComment) = []) (hrest : P.Surely Q (front ++ new).length log c) :
    P.Surely Q front.length log c := by
  have hcode' : front.map Line.stopped ++ new.map Line.stopped <+: P.stopped.code := by
    rw [← List.map_append]
    exact hcode.map _
  have hnew' : (new.map Line.stopped).filter (fun l => !l.isComment) = ([] : List Instr).map Line.instr := by
    rw [filter_stopped, hnew]
    rfl
  have hreach := reaches_lines (c := c) [] hcode' hnew' rfl
  rw [← List.map_append, List.length_map, List.length_map] at hreach
  exact hreach.surely hrest

end Image

end Machine

namespace Lower

open Machine

variable {P : Image} {A : Activation} {s t u : State} {held : List Register} {r : Register} {v : VarRef}
  {clean : Prop} {σ : Store} {vs out : List Word} {w : Word} {c : Core} {n : Nat} {Q : Core → Prop}
  {R R' : List Call → Core → Prop}

/-! ## States without their calls -/

/-- The state with the lines from the `n`th on only, and with every call replaced. -/
def State.window (n : Nat) (s : State) : State :=
  { s with code := ((s.code.toList.drop n).map Line.stopped).toArray }

theorem size_window : (s.window n).code.size = s.code.size - n := by simp [State.window]

theorem Ready.window (hs : Ready held s) : Ready held (s.window n) := ⟨hs.tidy, hs.named⟩

theorem Extends.le_size (h : Extends s t) (hn : n ≤ s.code.size) : n ≤ t.code.size :=
  Nat.le_trans hn (by simpa using h.code.length_le)

theorem Does.le_size {is : List Instr} {p : Pool} {a : Arena} (h : Does is p a s t) (hn : n ≤ s.code.size) :
    n ≤ t.code.size := Nat.le_trans hn (by simpa using h.code_extends.length_le)

theorem Does.window {is : List Instr} {p : Pool} {a : Arena} (h : Does is p a s t) (hn : n ≤ s.code.size) :
    Does (is.map Instr.stopped) p a (s.window n) (t.window n) := by
  obtain ⟨new, hnew, hlines⟩ := h.lines
  refine ⟨h.pool, h.arena, h.current, h.frames, h.options, h.printsNumbers, new.map Line.stopped, ?_, ?_⟩
  · show (t.code.toList.drop n).map Line.stopped = (s.code.toList.drop n).map Line.stopped ++ new.map Line.stopped
    rw [hnew, List.drop_append_of_le_length (by simpa using hn), List.map_append]
  · rw [filter_stopped, hlines, List.map_map, List.map_map]
    rfl

theorem window_place {label : String} (hn : n ≤ s.code.size) :
    (s.place label).window n = (s.window n).place label := by
  have hlines : (s.code.push (.label label)).toList.drop n = s.code.toList.drop n ++ [.label label] := by
    rw [Array.toList_push, List.drop_append_of_le_length (by simpa using hn)]
  unfold State.window State.place
  rw [hlines]
  simp [Line.stopped]

/-! ## Moves without calls

Every move is one of the window too: its instructions are no calls. -/

section Moves

theorem WroteBack.window (h : WroteBack v s t) (hn : n ≤ s.code.size) :
    WroteBack v (s.window n) (t.window n) := by
  rcases h with ⟨hnone, rfl⟩ | ⟨var, r, hvar, hact, hdoes⟩
  · exact Or.inl ⟨hnone, rfl⟩
  · exact Or.inr ⟨var, r, hvar, hact, hdoes.window hn⟩

theorem Spills.window {l : List VarRef} (h : Spills l s t) (hs : Ready held s) (hn : n ≤ s.code.size) :
    Spills l (s.window n) (t.window n) := by
  induction h with
  | nil => exact .nil
  | cons hv _ ih => exact .cons (hv.window hn) (ih (hv.ready hs) ((hv.steady hs).extends.le_size hn))

theorem Allocated.window (h : Allocated r s t) (hs : Ready held s) (hn : n ≤ s.code.size) :
    Allocated r (s.window n) (t.window n) := by
  obtain ⟨l, mid, hspills, halloc, hdoes⟩ := h
  have hmid := (hspills.steady hs).extends.le_size hn
  exact ⟨l, mid.window n, hspills.window hs hn, halloc, hdoes.window hmid⟩

theorem Popped.window (h : Popped r s t) (hs : Ready held s) (hn : n ≤ s.code.size) :
    Popped r (s.window n) (t.window n) := by
  obtain ⟨mid, halloc, hdoes⟩ := h
  have hmid := (halloc.steady hs).extends.le_size hn
  exact ⟨mid.window n, halloc.window hs hn, hdoes.window hmid⟩

theorem Reloaded.window (h : Reloaded v r s t) (hs : Ready held s) (hn : n ≤ s.code.size) :
    Reloaded v r (s.window n) (t.window n) := by
  obtain ⟨mid, var, hnone, halloc, hvar, hdoes⟩ := h
  have hmid := (halloc.steady hs).extends.le_size hn
  exact ⟨mid.window n, var, hnone, halloc.window hs hn, hvar, hdoes.window hmid⟩

theorem Reloads.window {l : List VarRef} (h : Reloads l s t) (hs : Ready [] s) (hn : n ≤ s.code.size) :
    Reloads l (s.window n) (t.window n) := by
  induction h with
  | nil => exact .nil
  | cons hv hready _ ih =>
      exact .cons (hv.window hs hn) hready.window (ih hready ((hv.steady hs).extends.le_size hn))

theorem Loaded.window (h : Loaded w s t) (hs : Ready [] s) (hn : n ≤ s.code.size) :
    Loaded w (s.window n) (t.window n) := by
  obtain ⟨r, mid, q, halloc, hready, hdoes⟩ := h
  have hmid := (halloc.steady hs).extends.le_size hn
  exact ⟨r, mid.window n, q, halloc.window hs hn, hready.window, hdoes.window hmid⟩

theorem Fetched.window {x : String} (h : Fetched x s t) (hs : Ready [] s) (hn : n ≤ s.code.size) :
    Fetched x (s.window n) (t.window n) := by
  obtain ⟨v, r, mid, hresolve, hmid, hdoes⟩ := h
  rcases hmid with ⟨hact, rfl⟩ | hload
  · exact ⟨v, r, mid.window n, hresolve, Or.inl ⟨hact, rfl⟩, hdoes.window hn⟩
  · have hmid := (hload.steady hs).extends.le_size hn
    exact ⟨v, r, mid.window n, hresolve, Or.inr (hload.window hs hn), hdoes.window hmid⟩

theorem Combined.window {op : BinaryOp} (h : Combined op s t) (hs : Ready [] s) (hn : n ≤ s.code.size) :
    Combined op (s.window n) (t.window n) := by
  obtain ⟨right, left, t₁, t₂, q, hright, hr₁, hleft, hr₂, hdoes⟩ := h
  have hn₁ := (hright.steady hs).extends.le_size hn
  have hn₂ := (hleft.steady hr₁).extends.le_size hn₁
  exact ⟨right, left, t₁.window n, t₂.window n, q, hright.window hs hn, hr₁.window, hleft.window hr₁ hn₁, hr₂.window,
    hdoes.window hn₂⟩

theorem Applied.window {op : UnaryOp} (h : Applied op s t) (hs : Ready [] s) (hn : n ≤ s.code.size) :
    Applied op (s.window n) (t.window n) := by
  rcases h with ⟨hop, rfl⟩ | ⟨r, t₁, q, hop, hpop, hr₁, hdoes⟩
  · exact Or.inl ⟨hop, rfl⟩
  · have hn₁ := (hpop.steady hs).extends.le_size hn
    refine Or.inr ⟨r, t₁.window n, q, hop, hpop.window hs hn, hr₁.window, ?_⟩
    have hdoes' := hdoes.window hn₁
    cases op <;> exact hdoes'

theorem Compared.window {op : CompareOp} (h : Compared op s t) (hs : Ready [] s) (hn : n ≤ s.code.size) :
    Compared op (s.window n) (t.window n) := by
  obtain ⟨right, left, result, label, t₁, t₂, t₃, t₄, t₅, p, p', p'', hright, hr₁, hleft, hr₂, hresult, hr₃, htest,
    hzero, hpush⟩ := h
  have hn₁ := (hright.steady hs).extends.le_size hn
  have hn₂ := (hleft.steady hr₁).extends.le_size hn₁
  have hn₃ := (hresult.steady hr₂).extends.le_size hn₂
  have hn₄ := htest.le_size hn₃
  have hn₅ := hzero.le_size hn₄
  have hpush' := hpush.window ((extends_place t₅ label).le_size hn₅)
  rw [window_place hn₅] at hpush'
  exact ⟨right, left, result, label, t₁.window n, t₂.window n, t₃.window n, t₄.window n, t₅.window n, p, p', p'',
    hright.window hs hn, hr₁.window, hleft.window hr₁ hn₁, hr₂.window, hresult.window hr₂ hn₂, hr₃.window,
    htest.window hn₃, hzero.window hn₄, hpush'⟩

end Moves

/-! ## Code between two states -/

/-- **The program is the lines from the `n`th on**, as far as they were generated, and the frame of the call
    has the slots given out so far. -/
structure Bears (P : Image) (A : Activation) (n : Nat) (s : State) : Prop where
  lines : s.code.toList.drop n <+: P.code
  table : s.arena.table s.current <+: A.table

theorem Bears.of_extends (ht : Bears P A n t) (h : Extends s t) : Bears P A n s :=
  ⟨(h.code.drop n).trans ht.lines, h.table.trans ht.table⟩

theorem Bears.carries (hs : Bears P A n s) : Carries P.stopped A (s.window n) := ⟨hs.lines.map _, hs.table⟩

/-- **The code between two states does its work, whatever calls do**: the calls it makes and the core after
    it have the property. -/
def Assures (P : Image) (n : Nat) (s t : State) (c : Core) (R : List Call → Core → Prop) : Prop :=
  ∀ Q log, (∀ calls d, R calls d → P.Surely Q (t.code.size - n) (log ++ calls) d) →
    P.Surely Q (s.code.size - n) log c

theorem Assures.refl (hR : R [] c) : Assures P n s s c R := by
  intro Q log hQ
  have hdone := hQ [] c hR
  rwa [List.append_nil] at hdone

theorem Assures.mono (h : Assures P n s t c R) (h' : ∀ calls d, R calls d → R' calls d) : Assures P n s t c R' :=
  fun Q log hQ => h Q log fun calls d hd => hQ calls d (h' calls d hd)

theorem Assures.bind (h : Assures P n s t c R)
    (h' : ∀ calls d, R calls d → Assures P n t u d fun more => R' (calls ++ more)) : Assures P n s u c R' := by
  intro Q log hQ
  refine h Q log fun calls d hd => h' calls d hd Q _ fun more e he => ?_
  rw [List.append_assoc]
  exact hQ _ e he

/-- Code that makes no call comes first. -/
theorem Leads.first (h : Leads P.stopped (s.window n) (t.window n) c Q) (h' : ∀ d, Q d → Assures P n t u d R) :
    Assures P n s u c R := by
  obtain ⟨d, hreach, hd⟩ := h
  rw [size_window, size_window] at hreach
  exact fun Q log hQ => hreach.surely (h' d hd Q log hQ)

theorem Leads.assures (h : Leads P.stopped (s.window n) (t.window n) c (R [])) : Assures P n s t c R :=
  h.first fun _ hd => .refl hd

/-- Code that makes no call comes last. -/
theorem Assures.last (h : Assures P n s t c R)
    (h' : ∀ calls d, R calls d → Leads P.stopped (t.window n) (u.window n) d (R' calls)) : Assures P n s u c R' := by
  refine h.bind fun calls d hd => (h' calls d hd).first fun e he => .refl ?_
  rw [List.append_nil]
  exact he

/-! ## Calls -/

/-- **A call is made**, and control goes on after it. -/
theorem Does.assures_call {f : String} {p : Pool} {a : Arena} (h : Does [.call f] p a s t) (hn : n ≤ s.code.size)
    (ht : Bears P A n t) : Assures P n s t c fun calls d => ∃ v, calls = [⟨f, c, v⟩] ∧ Answered v c d := by
  obtain ⟨new, hnew, hlines⟩ := h.lines
  obtain ⟨before, after, rfl, hbefore, _, hafter⟩ := List.filter_eq_cons_iff.mp hlines
  have hdrop : t.code.toList.drop n = s.code.toList.drop n ++ before ++ [Line.instr (.call f)] ++ after := by
    rw [hnew, List.drop_append_of_le_length (by simpa using hn)]
    simp
  have hcode := ht.lines
  rw [hdrop] at hcode
  have hsize : t.code.size - n = (t.code.toList.drop n).length := by simp
  have hstart : s.code.size - n = (s.code.toList.drop n).length := by simp
  intro Q log hQ
  rw [hsize, hdrop] at hQ
  rw [hstart]
  -- comments may stand on both sides of the call
  have hfront : s.code.toList.drop n ++ before <+: P.code := List.IsPrefix.trans (by simp) hcode
  refine Image.surely_comments hfront (List.filter_eq_nil_iff.mpr hbefore) ?_
  refine .call (getElem?_length_of_extends after (by simpa using hcode)) fun v d hd => ?_
  have hnext := Image.surely_comments hcode hafter (hQ _ d ⟨v, rfl, hd⟩)
  simpa [Nat.add_assoc] using hnext

/-- A call that is made while every variable is in its slot leaves the variables as they were. -/
theorem Does.assures_running {f : String} {p : Pool} (h : Does [.call f] p s.arena s t) (hn : n ≤ s.code.size)
    (ht : Bears P A n t) (hnone : ∀ x, s.holder x = none) (hrun : A.Running clean σ s.holder vs out c) :
    Assures P n s t c fun calls d => ∃ v out', calls = [⟨f, c, v⟩] ∧ d.get .a0 = v.toInt ∧
      A.Running clean σ t.holder vs out' d := by
  refine (h.assures_call hn ht).mono fun calls d ⟨v, hcalls, hanswered⟩ => ?_
  obtain ⟨o, hreturned⟩ := hanswered.returned
  have hrun' := hrun.set (r := .ra) (y := d.get .ra) rfl fun x => by rw [hnone x]; simp
  exact ⟨v, out ++ o, hcalls, hanswered.result, (hrun'.returned hnone hreturned).congr h.holder_eq⟩

/-- **The code of a call** replaces the arguments by whatever comes back. -/
theorem Called.assures {callee : Callee} {args : List Word} (h : Called callee s t) (hs : Ready [] s)
    (hn : n ≤ s.code.size) (ht : Bears P A n t)
    (hparams : callee.params.map (·.2) = RegisterClass.argument.members.take callee.params.length)
    (hlen : args.length = callee.params.length) (hresult : callee.result = resultRegister)
    (hrun : A.Running clean σ s.holder (args ++ vs) out c) :
    Assures P n s t c fun calls d => ∃ call out', calls = [call] ∧ call.Receives callee args ∧
      A.Running clean σ t.holder (call.answer :: vs) out' d := by
  obtain ⟨hnodup, hvolatile⟩ := registers_of_params hparams
  obtain ⟨l, t₁, t₂, t₃, t₄, t₅, p, p', h₁, hcleared, hpops, hcall, hr₄, hreloads, hpush⟩ := h
  have hr₁ := h₁.ready_of_eq hs
  rw [← hpops.arena] at hcall
  -- the program bears each of the states on the way
  have hb₅ := ht.of_extends hpush.extends
  have hb₄ := hb₅.of_extends (hreloads.steady hr₄).extends
  have hb₃ := hb₄.of_extends hcall.extends
  have hb₂ := hb₃.of_extends hpops.extends
  have hb₁ := hb₂.of_extends (hcleared.spills.steady hr₁).extends
  have hn₁ := h₁.le_size hn
  have hn₂ := (hcleared.spills.steady hr₁).extends.le_size hn₁
  have hn₃ := hpops.le_size hn₂
  have hn₄ := hcall.le_size hn₃
  have hn₅ := (hreloads.steady hr₄).extends.le_size hn₄
  have hnone := holder_of_inactive hcleared.inactive
  -- before the call every variable goes to its slot, and the arguments to their registers
  refine ((h₁.window hn).leads hb₁.carries.holds rfl (hrun.congr h₁.holder_eq)).first fun d₁ hd₁ => ?_
  refine ((hcleared.spills.window hr₁ hn₁).leads hr₁.window hb₂.carries hd₁).first fun d₂ hd₂ => ?_
  obtain ⟨d₃, heffect, hrun₃, _, hargs⟩ := hd₂.1.pops (callee.params.map (·.2))
    (by rw [List.length_map, hlen]) hnone hvolatile hnodup
  have hpops' : Does ((callee.params.map (·.2)).flatMap pop) p t₂.arena (t₂.window n) (t₃.window n) := by
    have hsame : ((callee.params.map (·.2)).flatMap pop).map Instr.stopped = (callee.params.map (·.2)).flatMap pop := by
      rw [List.map_flatMap]
      rfl
    have hwindow := hpops.window hn₂
    rwa [hsame] at hwindow
  refine (hpops'.leads hb₃.carries.holds heffect rfl).first fun d hd => ?_
  subst hd
  -- so the call cannot harm them, and after it they come back
  have hcalled := hcall.assures_running hn₃ hb₄ (fun x => (hpops.holder_eq x).trans (hnone x))
    (hrun₃.congr hpops.holder_eq)
  refine hcalled.last fun calls e ⟨v, out', hcalls, hv, he⟩ => ?_
  refine ((hreloads.window hr₄ hn₄).leads hr₄.window hb₅.carries he).bind fun f hf => ?_
  rw [hresult] at hpush
  have hpush' : Does (push .a0) t₅.pool (t₅.window n).arena (t₅.window n) (t.window n) := hpush.window hn₅
  refine (Does.leads_push [] hpush' ht.carries.holds rfl hf.1 (by decide)
    ((hf.2 .a0 (by decide)).trans hv)).mono fun g hg => ?_
  exact ⟨⟨callee.label, d₃, v⟩, out', hcalls, ⟨rfl, hlen, hargs⟩, hg⟩

/-- **The code that prints** replaces the number by 0. -/
theorem Printed.assures (h : Printed s t) (hs : Ready [] s) (hn : n ≤ s.code.size) (ht : Bears P A n t)
    (hrun : A.Running clean σ s.holder (w :: vs) out c) :
    Assures P n s t c fun calls d => ∃ call out', calls = [call] ∧ call.Prints w ∧
      A.Running clean σ t.holder (0 :: vs) out' d := by
  obtain ⟨l, t₁, t₂, t₃, t₄, p, p', hcleared, hpop, hcall, hr₃, hreloads, hpush⟩ := h
  rw [← hpop.arena] at hcall
  have hb₄ := ht.of_extends hpush.extends
  have hb₃' := hb₄.of_extends (hreloads.steady hr₃).extends
  have hb₃ : Bears P A n t₃ := ⟨hb₃'.lines, hb₃'.table⟩
  have hb₂ := hb₃.of_extends hcall.extends
  have hb₁ := hb₂.of_extends hpop.extends
  have hn₁ := (hcleared.spills.steady hs).extends.le_size hn
  have hn₂ := hpop.le_size hn₁
  have hn₃ := hcall.le_size hn₂
  have hn₄ := (hreloads.steady hr₃).extends.le_size hn₃
  have hnone := holder_of_inactive hcleared.inactive
  have hfree : ∀ (r : Register) (x : String), t₁.holder x ≠ some r := fun r x => by rw [hnone x]; simp
  refine ((hcleared.spills.window hs hn).leads hs.window hb₁.carries hrun).first fun d₁ hd₁ => ?_
  -- the number is in `a1`, and `a0` says how to print it
  have hrun₂ := (hd₁.1.pop (r := .a1) rfl (hfree _)).set (r := .a0) (y := 0) rfl (hfree _)
  have ha1 : ((d₁.popped .a1).set .a0 0).get .a1 = w.toInt :=
    (Core.get_set_ne (by decide)).trans (hd₁.1.get_popped rfl)
  have heffect : effects? (pop .a1 ++ [.la resultRegister printFormat]) d₁ = some ((d₁.popped .a1).set .a0 0) := by
    rw [effects?_append, effects?_pop hd₁.1.sp_aligned (by decide)]
    rfl
  refine ((hpop.window hn₁).leads hb₂.carries.holds heffect rfl).first fun d₂ hd₂ => ?_
  subst hd₂
  have hcalled := hcall.assures_running hn₂ hb₃ (fun x => (hpop.holder_eq x).trans (hnone x))
    (hrun₂.congr hpop.holder_eq)
  refine hcalled.last fun calls e ⟨v, out', hcalls, _, he⟩ => ?_
  refine ((hreloads.window hr₃ hn₃).leads hr₃.window hb₄.carries he).bind fun f hf => ?_
  have hpush' : Does (push .zero) t₄.pool (t₄.window n).arena (t₄.window n) (t.window n) := hpush.window hn₄
  refine (Does.leads_push (w := 0) [] hpush' ht.carries.holds rfl hf.1 (by decide) rfl).mono fun g hg => ?_
  exact ⟨⟨printRoutine, _, v⟩, out', hcalls, ⟨rfl, ha1⟩, hg⟩

end Lower

end Offside
