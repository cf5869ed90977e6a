import Offside.Proofs.Activation
import Offside.Proofs.Sight

/-!
# `Proofs.Transfers` — what the code of a move does

For each move of code generation, the code it adds takes a running call from the state before it to the
state after it: the same variables, now where the later state says they are. Spilling and reloading change
nothing but places; the moves of expressions replace the top of the evaluation stack.
-/

namespace Offside.Lower

open Machine

variable {P : Image} {A : Activation} {s t u mid : State} {held : List Register} {q r : Register} {v : VarRef}
  {clean : Prop} {σ : Store} {vs out : List Word} {w w' : Word} {c c' : Core} {x : String} {Q R : Core → Prop}

/-! ## Code between two states -/

/-- **The program carries a state**: it starts with the lines generated so far, and the frame of the call
    starts with the slots given out so far. -/
structure Carries (P : Image) (A : Activation) (s : State) : Prop where
  holds : P.Holds s
  table : s.arena.table s.current <+: A.table

theorem Carries.of_extends (ht : Carries P A t) (h : Extends s t) : Carries P A s :=
  ⟨ht.holds.of_extends h.code, h.table.trans ht.table⟩

/-- **The code between two states leads from a core** to one with a property. -/
def Leads (P : Image) (s t : State) (c : Core) (Q : Core → Prop) : Prop :=
  ∃ c', P.Reaches ⟨s.code.size, c⟩ ⟨t.code.size, c'⟩ ∧ Q c'

theorem Leads.bind (h : Leads P s t c Q) (h' : ∀ d, Q d → Leads P t u d R) : Leads P s u c R := by
  obtain ⟨d, hd, hQ⟩ := h
  obtain ⟨e, he, hR⟩ := h' d hQ
  exact ⟨e, hd.trans he, hR⟩

theorem Leads.mono (h : Leads P s t c Q) (h' : ∀ d, Q d → R d) : Leads P s t c R := by
  obtain ⟨d, hd, hQ⟩ := h
  exact ⟨d, hd, h' d hQ⟩

theorem Leads.refl (hQ : Q c) : Leads P s s c Q := ⟨c, .refl _, hQ⟩

theorem Does.leads {is : List Instr} {p : Pool} {a : Arena} (h : Does is p a s t) (ht : P.Holds t)
    (heffect : effects? is c = some c') (hQ : Q c') : Leads P s t c Q := ⟨c', h.reaches ht heffect, hQ⟩

/-! ## Spilling and reloading -/

theorem Saves.leads {k : Nat} (h : Saves x k r s t) (ht : P.Holds t) (hs : s.arena.table s.current <+: A.table)
    (hrun : A.Running clean σ s.holder vs out c) :
    Leads P s t c fun d => A.Running clean σ t.holder vs out d ∧ ∀ q, d.get q = c.get q := by
  obtain ⟨p, a, hdoes⟩ := h.does
  refine hdoes.leads ht (hrun.effects?_storeSlot r k) ⟨?_, fun q => rfl⟩
  exact (hrun.save (getElem?_of_extends hs h.slot) h.holder).congr h.holder_eq

theorem WroteBack.leads (h : WroteBack v s t) (hs : Ready held s) (ht : Carries P A t)
    (hrun : A.Running clean σ s.holder vs out c) :
    Leads P s t c fun d => A.Running clean σ t.holder vs out d ∧ ∀ q, d.get q = c.get q := by
  have hcarries := ht.of_extends (h.steady hs).extends
  rcases h.saves hs with rfl | ⟨x, k, r, hsaves⟩
  · exact .refl ⟨hrun, fun _ => rfl⟩
  · exact hsaves.leads ht.holds hcarries.table hrun

theorem Spills.leads {l : List VarRef} (h : Spills l s t) (hs : Ready held s) (ht : Carries P A t)
    (hrun : A.Running clean σ s.holder vs out c) :
    Leads P s t c fun d => A.Running clean σ t.holder vs out d ∧ ∀ q, d.get q = c.get q := by
  induction h generalizing c with
  | nil => exact .refl ⟨hrun, fun _ => rfl⟩
  | cons hv hl ih =>
      have hready := hv.ready hs
      refine (hv.leads hs (ht.of_extends (hl.steady hready).extends) hrun).bind fun d hd => ?_
      refine (ih hready ht hd.1).mono fun e he => ⟨he.1, fun q => ?_⟩
      rw [he.2, hd.2]

theorem Allocated.leads (h : Allocated r s t) (hs : Ready held s) (ht : Carries P A t)
    (hrun : A.Running clean σ s.holder vs out c) :
    Leads P s t c fun d => A.Running clean σ t.holder vs out d ∧ ∀ q, d.get q = c.get q := by
  obtain ⟨l, mid, hspills, _, hdoes⟩ := h
  refine (hspills.leads hs (ht.of_extends hdoes.extends) hrun).bind fun d hd => ?_
  exact hdoes.leads ht.holds rfl ⟨hd.1.congr hdoes.holder_eq, hd.2⟩

theorem volatile_of_temporary (hr : r.classOf? = some .temporary) : r.isVolatile = true :=
  Register.isVolatile_of_clobbered (clobbered_of_temporary hr)

/-- A register that was just handed out holds no variable. -/
theorem Ready.holder_ne (hs : Ready (r :: held) s) (x : String) : s.holder x ≠ some r :=
  fun hx => hs.not_mem_held hx List.mem_cons_self

/-- The top of the stack comes into a temporary. -/
theorem Popped.leads (h : Popped r s t) (hs : Ready held s) (ht : Carries P A t)
    (hrun : A.Running clean σ s.holder (w :: vs) out c) :
    Leads P s t c fun d => A.Running clean σ t.holder vs out d ∧ d.get r = w.toInt ∧
      ∀ q, q ≠ r → q ≠ .sp → d.get q = c.get q := by
  obtain ⟨mid, halloc, hdoes⟩ := h
  have hr := volatile_of_temporary halloc.temporary
  refine (halloc.leads hs (ht.of_extends hdoes.extends) hrun).bind fun d hd => ?_
  obtain ⟨hrun', hsame⟩ := hd
  refine hdoes.leads ht.holds (effects?_pop hrun'.sp_aligned (Register.ne_of_isVolatile hr).2)
    ⟨?_, hrun'.get_popped hr, fun q hqr hqsp => ?_⟩
  · exact (hrun'.pop hr (halloc.ready hs).holder_ne).congr hdoes.holder_eq
  · unfold Core.popped
    rw [Core.get_set_ne hqsp, Core.get_set_ne hqr]
    exact hsame q

/-- **A variable comes back** into a register; only temporaries change. -/
theorem Reloaded.leads (h : Reloaded v r s t) (hs : Ready held s) (ht : Carries P A t)
    (hrun : A.Running clean σ s.holder vs out c) :
    Leads P s t c fun d => A.Running clean σ t.holder vs out d ∧
      ∀ q, q.classOf? ≠ some .temporary → d.get q = c.get q := by
  have hsteady := h.steady hs
  obtain ⟨mid, x, k, halloc, _, hloads⟩ := h.loads hs
  obtain ⟨p, a, hdoes⟩ := hloads.does
  have hr := volatile_of_temporary halloc.temporary
  have hmid : Carries P A mid := by
    refine ⟨ht.holds.of_extends hdoes.code_extends, ?_⟩
    rw [(halloc.steady hs).current, (halloc.steady hs).alike.table_eq]
    exact (ht.of_extends hsteady.extends).table
  refine (halloc.leads hs hmid hrun).bind fun d hd => ?_
  refine hdoes.leads ht.holds (hd.1.effects?_loadSlot r k) ⟨?_, fun q hq => ?_⟩
  · exact (hd.1.load hr (getElem?_of_extends hmid.table hloads.slot) hloads.holder
      (halloc.ready hs).holder_ne).congr hloads.holder_eq
  · rw [Core.get_set_ne (by rintro rfl; exact hq halloc.temporary)]
    exact hd.2 q

theorem Reloads.leads {l : List VarRef} (h : Reloads l s t) (hs : Ready [] s) (ht : Carries P A t)
    (hrun : A.Running clean σ s.holder vs out c) :
    Leads P s t c fun d => A.Running clean σ t.holder vs out d ∧
      ∀ q, q.classOf? ≠ some .temporary → d.get q = c.get q := by
  induction h generalizing c with
  | nil => exact .refl ⟨hrun, fun _ _ => rfl⟩
  | cons hv hready hl ih =>
      refine (hv.leads hs (ht.of_extends (hl.steady hready).extends) hrun).bind fun d hd => ?_
      refine (ih hready ht hd.1).mono fun e he => ⟨he.1, fun q hq => ?_⟩
      rw [he.2 q hq, hd.2 q hq]

/-! ## Values -/

/-- A computed value is put on the stack. -/
theorem Does.leads_push (is : List Instr) {p : Pool} (h : Does (is ++ push r) p s.arena s t) (ht : P.Holds t)
    (heffect : effects? is c = some c') (hrun : A.Running clean σ s.holder vs out c') (hr : r ≠ .sp)
    (hw : c'.get r = w.toInt) : Leads P s t c (A.Running clean σ t.holder (w :: vs) out) := by
  have hpushed : effects? (is ++ push r) c = some (c'.pushed r) := by
    rw [effects?_append, heffect]
    exact effects?_push hrun.sp_aligned hr
  exact h.leads ht hpushed ((hrun.push hw).congr h.holder_eq)

theorem Loaded.leads (h : Loaded w s t) (hs : Ready [] s) (ht : Carries P A t)
    (hrun : A.Running clean σ s.holder vs out c) :
    Leads P s t c (A.Running clean σ t.holder (w :: vs) out) := by
  obtain ⟨r, mid, q, halloc, hmid, hdoes⟩ := h
  have hr := volatile_of_temporary halloc.temporary
  refine (halloc.leads hs (ht.of_extends hdoes.extends) hrun).bind fun d hd => ?_
  exact Does.leads_push [.li r w] hdoes ht.holds rfl (hd.1.set hr hmid.holder_ne)
    (Register.ne_of_isVolatile hr).2 (Core.get_set_self (Register.ne_of_isVolatile hr).1)

theorem Fetched.leads (h : Fetched x s t) (hs : Ready [] s) (ht : Carries P A t) (hx : σ x = some w)
    (hrun : A.Running clean σ s.holder vs out c) :
    Leads P s t c (A.Running clean σ t.holder (w :: vs) out) := by
  obtain ⟨v, r, mid, hresolve, hmid, hdoes⟩ := h
  have hfinish : ∀ {d}, mid.holder x = some r → A.Running clean σ mid.holder vs out d →
      Leads P mid t d (A.Running clean σ t.holder (w :: vs) out) := by
    intro d hholder hd
    obtain ⟨_, _, hreg, _⟩ := hd.agrees x w hx
    obtain ⟨hr, hget⟩ := hreg r hholder
    exact Does.leads_push [] hdoes ht.holds rfl hd (Register.ne_of_isVolatile hr).2 hget
  rcases hmid with ⟨hact, rfl⟩ | hload
  · -- the variable is in a register already
    exact hfinish (holder_eq_some_iff.mpr ⟨v, hresolve, hact⟩) hrun
  · have hsteady := hload.steady hs
    refine (hload.leads hs (ht.of_extends hdoes.extends) hrun).bind fun d hd => hfinish ?_ hd.1
    refine holder_eq_some_iff.mpr ⟨v, ?_, hload.activeRegister?_self⟩
    rw [hsteady.current, hsteady.alike.resolve?_eq]
    exact hresolve

/-! ## Operators -/

theorem Combined.leads {op : BinaryOp} {x y : Word} (h : Combined op s t) (hs : Ready [] s) (ht : Carries P A t)
    (hrun : A.Running clean σ s.holder (y :: x :: vs) out c) :
    Leads P s t c (A.Running clean σ t.holder (op.eval x y :: vs) out) := by
  obtain ⟨right, left, t₁, t₂, q, hright, hr₁, hleft, hr₂, hdoes⟩ := h
  have hc₂ := ht.of_extends hdoes.extends
  have hvolatile := volatile_of_temporary hleft.temporary
  have hne : right ≠ left := fun he => (List.nodup_cons.mp hr₂.tidy.held_nodup).1 (by simp [he])
  refine (hright.leads hs (hc₂.of_extends (hleft.steady hr₁).extends) hrun).bind fun d hd => ?_
  refine (hleft.leads hr₁ hc₂ hd.1).bind fun e he => ?_
  obtain ⟨hrun', hx, hsame⟩ := he
  have hy : e.get right = y.toInt :=
    (hsame right hne (Register.ne_of_isVolatile (volatile_of_temporary hright.temporary)).2).trans hd.2.1
  refine Does.leads_push [.alu (aluOp op) left left right] hdoes ht.holds rfl
    (hrun'.set hvolatile hr₂.holder_ne) (Register.ne_of_isVolatile hvolatile).2 ?_
  rw [Core.get_set_self (Register.ne_of_isVolatile hvolatile).1, hx, hy, BitVec.ofInt_toInt, BitVec.ofInt_toInt,
    eval_aluOp]

theorem Applied.leads {op : UnaryOp} {x : Word} (h : Applied op s t) (hs : Ready [] s) (ht : Carries P A t)
    (hrun : A.Running clean σ s.holder (x :: vs) out c) :
    Leads P s t c (A.Running clean σ t.holder (op.eval x :: vs) out) := by
  rcases h with ⟨rfl, rfl⟩ | ⟨r, t₁, q, hop, hpop, hr₁, hdoes⟩
  · exact .refl hrun
  · have hvolatile := volatile_of_temporary hpop.temporary
    obtain ⟨hzero, hsp⟩ := Register.ne_of_isVolatile hvolatile
    refine (hpop.leads hs (ht.of_extends hdoes.extends) hrun).bind fun d hd => ?_
    obtain ⟨hrun', hx, _⟩ := hd
    cases op with
    | plus => exact absurd rfl hop
    | minus =>
        refine Does.leads_push [.neg r r] hdoes ht.holds rfl (hrun'.set hvolatile hr₁.holder_ne) hsp ?_
        rw [Core.get_set_self hzero, hx, BitVec.ofInt_toInt]
        exact congrArg BitVec.toInt (UnaryOp.eval_minus x).symm
    | invert =>
        refine Does.leads_push [.not r r] hdoes ht.holds rfl (hrun'.set hvolatile hr₁.holder_ne) hsp ?_
        rw [Core.get_set_self hzero, hx, BitVec.ofInt_toInt]
        rfl

/-- **The code of a comparison** leaves 1 in a register if it holds and 0 otherwise: control jumps over the
    instruction that makes it 0. -/
theorem leads_compare {op : CompareOp} {left right result : Register} {label : String} {x y : Word}
    {p p' : Pool} {a a' : Arena} (hP : P.Labelled)
    (htest : Does [.li result 1, .branch (branchTest op) left right label] p a s t)
    (hzero : Does [.li result 0] p' a' t u)
    (hu : P.Holds (u.place label))
    (hx : c.get left = x.toInt) (hy : c.get right = y.toInt) (hleft : left ≠ result) (hright : right ≠ result) :
    ∃ d, P.Reaches ⟨s.code.size, c⟩ ⟨u.code.size + 1, d⟩ ∧
      (d = c.set result (op.eval x y).toInt ∨ d = (c.set result 1).set result (op.eval x y).toInt) := by
  have hlabel := hu.getElem?_label
  have hholds := hu.of_extends (extends_place u label).code
  obtain ⟨k, hk, hbefore, hafter⟩ := Does.exists_line [.li result 1] htest
    (hholds.of_extends hzero.code_extends)
  have hx' : (c.set result 1).get left = x.toInt := (Core.get_set_ne hleft).trans hx
  have hy' : (c.set result 1).get right = y.toInt := (Core.get_set_ne hright).trans hy
  have hstep : P.step ⟨k, c.set result 1⟩ =
      if op.holds x y then P.goto? label (c.set result 1) else some ⟨k + 1, c.set result 1⟩ := by
    rw [Image.step_instr hk, ← holds_branchTest, ← hx', ← hy']
    rfl
  unfold CompareOp.eval
  -- the branch is taken exactly if the comparison holds, and then the 1 stays
  by_cases hop : op.holds x y = true
  · rw [if_pos hop, Image.goto?_label hP hlabel] at hstep
    rw [if_pos hop]
    refine ⟨c.set result 1, ?_, Or.inl rfl⟩
    exact ((hbefore rfl).trans (Image.reaches_of_step hstep)).trans (Image.reaches_label hlabel _)
  · rw [if_neg hop] at hstep
    rw [if_neg hop]
    refine ⟨(c.set result 1).set result 0, ?_, Or.inr rfl⟩
    have hskip := (hbefore rfl).trans ((Image.reaches_of_step hstep).trans (hafter _))
    exact (hskip.trans (hzero.reaches hholds rfl)).trans (Image.reaches_label hlabel _)

theorem Compared.leads {op : CompareOp} {x y : Word} (h : Compared op s t) (hP : P.Labelled) (hs : Ready [] s)
    (ht : Carries P A t) (hrun : A.Running clean σ s.holder (y :: x :: vs) out c) :
    Leads P s t c (A.Running clean σ t.holder (op.eval x y :: vs) out) := by
  obtain ⟨right, left, result, label, t₁, t₂, t₃, t₄, t₅, p, p', p'', hright, hr₁, hleft, hr₂, hresult, hr₃, htest,
    hzero, hpush⟩ := h
  have hvolatile := volatile_of_temporary hresult.temporary
  have hsp : right ≠ .sp := (Register.ne_of_isVolatile (volatile_of_temporary hright.temporary)).2
  obtain ⟨hnot, hnodup⟩ := List.nodup_cons.mp hr₃.tidy.held_nodup
  have hne : right ≠ left := fun he => (List.nodup_cons.mp hnodup).1 (by simp [he])
  -- the program carries each of the states on the way
  have hc₅ := ht.of_extends (hpush.extends (s := t₅.place label))
  have hc₄ := (hc₅.of_extends (extends_place t₅ label)).of_extends hzero.extends
  have hc₃ := hc₄.of_extends (htest.extends_of_alike (Arena.alike_nextLabel _ _ _))
  have hc₂ := hc₃.of_extends (hresult.steady hr₂).extends
  have hc₁ := hc₂.of_extends (hleft.steady hr₁).extends
  refine (hright.leads hs hc₁ hrun).bind fun d₁ hd₁ => (hleft.leads hr₁ hc₂ hd₁.1).bind fun d₂ hd₂ =>
    (hresult.leads hr₂ hc₃ hd₂.1).bind fun d₃ hd₃ => ?_
  have hx : d₃.get left = x.toInt := (hd₃.2 left).trans hd₂.2.1
  have hy : d₃.get right = y.toInt := ((hd₃.2 right).trans (hd₂.2.2 right hne hsp)).trans hd₁.2.1
  obtain ⟨d, hreach, hd⟩ := leads_compare hP htest hzero hc₅.holds hx hy
    (fun he => hnot (by simp [he])) (fun he => hnot (by simp [he]))
  -- in either case the result is in its register, which holds no variable
  have hrun₅ : A.Running clean σ (t₅.place label).holder vs out d := by
    have hholder : ∀ x, (t₅.place label).holder x = t₃.holder x := fun x =>
      (hzero.holder_eq x).trans (htest.holder_nextLabel x)
    refine Activation.Running.congr ?_ hholder
    rcases hd with rfl | rfl
    · exact hd₃.1.set hvolatile hr₃.holder_ne
    · exact (hd₃.1.set hvolatile hr₃.holder_ne).set hvolatile hr₃.holder_ne
  have hget : d.get result = (op.eval x y).toInt := by
    rcases hd with rfl | rfl <;> exact Core.get_set_self (Register.ne_of_isVolatile hvolatile).1
  have hfinish := Does.leads_push (s := t₅.place label) [] hpush ht.holds rfl
    hrun₅ (Register.ne_of_isVolatile hvolatile).2 hget
  refine Leads.bind (t := t₅.place label) ⟨d, ?_, rfl⟩ fun e he => he ▸ hfinish
  show P.Reaches _ ⟨(t₅.code.push (.label label)).size, d⟩
  rw [Array.size_push]
  exact hreach

/-! ## Calls -/

theorem Printed.leads (h : Printed s t) (hs : Ready [] s) (ht : Carries P A t)
    (hrun : A.Running clean σ s.holder (w :: vs) out c) :
    Leads P s t c (A.Running clean σ t.holder (0 :: vs) (out ++ [w])) := by
  obtain ⟨l, t₁, t₂, t₃, t₄, p, p', hcleared, hpop, hcall, hr₃, hreloads, hpush⟩ := h
  rw [← hpop.arena] at hcall
  have hc₄ := ht.of_extends hpush.extends
  have hc₃' := hc₄.of_extends (hreloads.steady hr₃).extends
  have hc₃ : Carries P A t₃ := ⟨hc₃'.holds, hc₃'.table⟩
  have hc₂ := hc₃.of_extends hcall.extends
  have hnone := holder_of_inactive hcleared.inactive
  have hfree : ∀ (r : Register) (x : String), t₁.holder x ≠ some r := fun r x => by rw [hnone x]; simp
  refine (hcleared.spills.leads hs (hc₂.of_extends hpop.extends) hrun).bind fun d hd => ?_
  have hrun₂ := (hd.1.pop (r := .a1) rfl (hfree _)).set (r := .a0) (y := 0) rfl (hfree _)
  have ha1 : ((d.popped .a1).set .a0 0).get .a1 = w.toInt :=
    (Core.get_set_ne (by decide)).trans (hd.1.get_popped rfl)
  -- the number goes to `a1`, and the routine prints it
  have heffect : effects? (pop .a1 ++ [.la resultRegister printFormat]) d = some ((d.popped .a1).set .a0 0) := by
    rw [effects?_append, effects?_pop hd.1.sp_aligned (by decide)]
    rfl
  have hrun₃ := (hrun₂.print (P := P) hnone ha1).congr fun x => (hcall.holder_eq x).trans (hpop.holder_eq x)
  refine Leads.bind ⟨_, (hpop.reaches hc₂.holds heffect).trans (hcall.prints hc₃.holds _), hrun₃⟩ fun f hf => ?_
  refine (hreloads.leads hr₃ hc₄ hf).bind fun g hg => ?_
  exact Does.leads_push [] hpush ht.holds rfl hg.1 (by decide) rfl

/-- Parameters have different registers, and code may overwrite them. -/
theorem registers_of_params {rs : List Register} {k : Nat} (h : rs = RegisterClass.argument.members.take k) :
    rs.Nodup ∧ ∀ r ∈ rs, r.isVolatile = true := by
  subst h
  refine ⟨(List.take_sublist _ _).nodup (by decide), fun r hr => Register.isVolatile_of_clobbered ?_⟩
  unfold Register.isCallerClobbered
  rw [RegisterClass.mem_members_iff.mp (List.mem_of_mem_take hr)]
  rfl

/-- **The code of a call**, if the function that is called does its work: the arguments are replaced by the
    result. -/
theorem Called.leads {callee : Callee} {args o : List Word} {v : Word} {k : Nat} (h : Called callee s t)
    (hP : P.Labelled) (hs : Ready [] s) (ht : Carries P A t)
    (hparams : callee.params.map (·.2) = RegisterClass.argument.members.take callee.params.length)
    (hlen : args.length = callee.params.length) (hresult : callee.result = resultRegister)
    (hk : P.code[k]? = some (.label callee.label))
    (hcallee : ∀ d, 8 ∣ d.get .sp → Passed args d → P.Answers k d v o)
    (hrun : A.Running clean σ s.holder (args ++ vs) out c) :
    Leads P s t c (A.Running clean σ t.holder (v :: vs) (out ++ o)) := by
  obtain ⟨hnodup, hvolatile⟩ := registers_of_params hparams
  obtain ⟨l, t₁, t₂, t₃, t₄, t₅, p, p', h₁, hcleared, hpops, hcall, hr₄, hreloads, hpush⟩ := h
  have hr₁ := h₁.ready_of_eq hs
  rw [← hpops.arena] at hcall
  have hc₅ := ht.of_extends hpush.extends
  have hc₄ := hc₅.of_extends (hreloads.steady hr₄).extends
  have hc₃ := hc₄.of_extends hcall.extends
  have hc₂ := hc₃.of_extends hpops.extends
  have hnone := holder_of_inactive hcleared.inactive
  have hc₁ := hc₂.of_extends (hcleared.spills.steady hr₁).extends
  -- every variable goes to its slot, and the arguments to their registers
  refine (h₁.leads hc₁.holds rfl (hrun.congr h₁.holder_eq)).bind fun d₁ hd₁ => ?_
  refine (hcleared.spills.leads hr₁ hc₂ hd₁).bind fun d₂ hd₂ => ?_
  obtain ⟨d₃, heffect, hrun₃, _, hargs⟩ := hd₂.1.pops (callee.params.map (·.2))
    (by rw [List.length_map, hlen]) hnone hvolatile hnodup
  have hpassed : ∀ n : Nat, Passed args (d₃.set .ra n) := by
    intro n i r z hr hz
    have hi : i < args.length := (List.getElem?_eq_some_iff.mp hz).1
    have hra : r ≠ .ra := by
      rintro rfl
      exact absurd (List.mem_of_getElem? hr) (by decide)
    rw [Core.get_set_ne hra]
    refine hargs ?_ hz
    rw [hparams, List.getElem?_take_of_lt (by rw [← hlen]; exact hi)]
    exact hr
  -- control goes to the function and comes back
  obtain ⟨n, hgo, hback⟩ := hcall.calls hc₄.holds hP hk
  have hrun₃' := hrun₃.set (r := .ra) (y := n) rfl fun x => by rw [hnone x]; simp
  obtain ⟨j, d₄, hreach, hret, hreturned⟩ := hcallee (d₃.set .ra n) hrun₃'.sp_aligned (hpassed n)
  have hra : d₄.get .ra = n := hreturned.ra.trans (Core.get_set_self (by decide))
  have hrun₄ := (hrun₃'.returned hnone hreturned).congr fun x => (hcall.holder_eq x).trans (hpops.holder_eq x)
  have hround : Leads P t₂ t₄ d₂ fun e => A.Running clean σ t₄.holder vs (out ++ o) e ∧ e.get .a0 = v.toInt :=
    ⟨d₄, (hpops.reaches hc₃.holds heffect).trans ((hgo d₃).trans (hreach.trans
      ((Image.reaches_ret hret hra).trans (hback d₄)))), hrun₄, hreturned.result⟩
  refine hround.bind fun e he => (hreloads.leads hr₄ hc₅ he.1).bind fun f hf => ?_
  rw [hresult] at hpush
  refine Does.leads_push [] hpush ht.holds rfl hf.1 (by decide) ?_
  exact (hf.2 .a0 (by decide)).trans he.2

/-! ## Assignments and tests -/

theorem Stored.extends (h : Stored v s t) (hs : Ready [] s) : Extends s t := by
  obtain ⟨r, mid, hmid, hdoes⟩ := h
  have hbind := hdoes.extends_of_alike (Arena.alike_updateVariable fun _ => rfl)
  rcases hmid with ⟨_, rfl⟩ | ⟨_, halloc⟩
  · exact hbind
  · exact (halloc.steady hs).extends.trans hbind

/-- **The code of an assignment** gives the variable the value on top of the stack. -/
theorem Stored.leads {var : Variable} (h : Stored v s t) (hs : Ready [] s) (hvar : Local s.arena s.current v var)
    (ht : Carries P A t) (hrun : A.Running clean σ s.holder (w :: vs) out c) :
    Leads P s t c (A.Running False (σ.update var.name w) t.holder vs out) := by
  have hcarries : Carries P A s := ht.of_extends (h.extends hs)
  have hmem : var.name ∈ A.table :=
    hcarries.table.subset (List.mem_of_getElem? (hs.named.slot hvar.1 hvar.2.2))
  have hmeaning := hs.named.meaning hvar.1 hvar.2.2
  obtain ⟨r, mid, hmid, hdoes⟩ := h
  rcases hmid with ⟨hact, rfl⟩ | ⟨_, halloc⟩
  · -- the variable keeps its register
    have hr := Register.isVolatile_of_clobbered (hs.tidy.clobbered hact)
    have hx : mid.holder var.name = some r := holder_eq_some_iff.mpr ⟨v, hmeaning, hact⟩
    have hfree : ∀ y, y ≠ var.name → mid.holder y ≠ some r := fun y hy hyr => hy (hs.holder_inj hyr hx)
    exact hdoes.leads ht.holds (effects?_pop hrun.sp_aligned (Register.ne_of_isVolatile hr).2)
      ((hrun.popAssign hr hmem hfree).congr (holder_bind hs hvar hdoes))
  · -- the variable gets a new register
    have hr := volatile_of_temporary halloc.temporary
    have hready := halloc.ready hs
    have hsteady := halloc.steady hs
    obtain ⟨var', hvar', hname, _⟩ := hvar.of_alike hsteady.alike
    rw [← hsteady.current] at hvar'
    have hmid : Carries P A mid :=
      ht.of_extends (hdoes.extends_of_alike (Arena.alike_updateVariable fun _ => rfl))
    refine (halloc.leads hs hmid hrun).bind fun d hd => ?_
    refine hdoes.leads ht.holds (effects?_pop hd.1.sp_aligned (Register.ne_of_isVolatile hr).2) ?_
    have hbound := holder_bind hready hvar' hdoes
    rw [hname] at hbound
    exact (hd.1.popAssign hr hmem fun y _ => hready.holder_ne y).congr hbound

/-- **The code of a test** goes to its label if the value on top of the stack is 0, and on otherwise. -/
theorem Tested.leads {label : String} (h : Tested label s t) (hP : P.Labelled) (hs : Ready [] s) (ht : Carries P A t)
    (hrun : A.Running clean σ s.holder (w :: vs) out c) :
    ∃ d, A.Running clean σ t.holder vs out d ∧
      (w ≠ 0 → P.Reaches ⟨s.code.size, c⟩ ⟨t.code.size, d⟩) ∧
      (w = 0 → ∀ k, P.code[k]? = some (.label label) → P.Reaches ⟨s.code.size, c⟩ ⟨k + 1, d⟩) := by
  obtain ⟨r, t₁, p, hpop, _, hdoes⟩ := h
  obtain ⟨d, hreach, hrun', hw, _⟩ := hpop.leads hs (ht.of_extends hdoes.extends) hrun
  refine ⟨d, hrun'.congr hdoes.holder_eq, fun hne => ?_, fun hzero k hk => ?_⟩
  · refine hreach.trans (hdoes.passes_nonzero ht.holds fun hz => hne ?_)
    exact BitVec.eq_of_toInt_eq (hw.symm.trans hz)
  · exact hreach.trans (hdoes.branches_zero ht.holds hP hk (by rw [hw, hzero]; rfl))

end Offside.Lower
