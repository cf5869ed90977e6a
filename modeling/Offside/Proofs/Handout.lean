import Mathlib
import Offside.Proofs.Registers

/-!
# `Proofs.Handout` — the pool is a set of registers

A pool is asked for a register of a class, for a given register, or to take a register back. A `Session` is
a pool and its history: every request so far, with the register that was handed out for it. The history
alone says which registers are **out** (`Out`): those that were handed out and not asked back since.

The pool itself knows nothing of its history: it has an entry for each register. Two facts tie the entries to
the set, and every request keeps both: the registers in use are the registers that are out
(`mem_inUse_after`), and a register outside every class is never available (`confined_after`). So every answer
of the pool is an answer about that set (`pool_refines_set`).
-/

namespace Offside.Machine

/-- What a pool can be asked. -/
inductive Request where
  | allocate (c : RegisterClass)
  | take (r : Register)
  | free (r : Register)
deriving DecidableEq

/-- A request, and the register that was handed out for it, if any. -/
structure Served where
  request : Request
  out : Option Register
deriving DecidableEq

/-- The answer of a pool, and the pool after it. A request that cannot be met leaves the pool as it is. -/
def Pool.serve (p : Pool) : Request → Option Register × Pool
  | .allocate c =>
    match p.allocate? c with
    | some (r, q) => (some r, q)
    | none => (none, p)
  | .take r =>
    match p.take? r with
    | some q => (some r, q)
    | none => (none, p)
  | .free r => (none, p.free r)

/-- A pool and what it was asked so far. -/
structure Session where
  past : List Served := []
  pool : Pool := {}
deriving DecidableEq

namespace Session

/-- The session after one more request. -/
def serve (s : Session) (q : Request) : Session :=
  ⟨s.past ++ [⟨q, (s.pool.serve q).1⟩], (s.pool.serve q).2⟩

/-- The session of a fresh pool that gets the given requests. -/
def after (requests : List Request) : Session := requests.foldl serve {}

theorem after_snoc (requests : List Request) (q : Request) :
    after (requests ++ [q]) = (after requests).serve q := by
  unfold after
  rw [List.foldl_append]
  rfl

end Session

/-! ## Registers that are out -/

variable {past before later : List Served} {e : Served} {r x : Register} {p : Pool} {q : Request}

/-- **The register is out**: it was handed out, and not asked back since. -/
def Out (past : List Served) (r : Register) : Prop :=
  ∃ before e later, past = before ++ e :: later ∧ e.out = some r ∧ ∀ f ∈ later, f.request ≠ .free r

theorem not_out_nil (r : Register) : ¬ Out [] r := by
  rintro ⟨before, e, later, hpast, -, -⟩
  exact absurd hpast.symm (List.append_ne_nil_of_right_ne_nil before (List.cons_ne_nil e later))

/-- One more answer hands out a register, or leaves those out that it does not ask back. -/
theorem out_snoc : Out (past ++ [e]) r ↔ e.out = some r ∨ (Out past r ∧ e.request ≠ .free r) := by
  constructor
  · rintro ⟨before, f, later, hpast, hout, hkept⟩
    rcases List.eq_nil_or_concat later with rfl | ⟨later, g, rfl⟩
    · obtain ⟨-, hlast⟩ := List.append_inj' hpast rfl
      obtain rfl : e = f := List.head_eq_of_cons_eq hlast
      exact Or.inl hout
    · rw [List.concat_eq_append, ← List.cons_append, ← List.append_assoc] at hpast
      obtain ⟨hfront, hlast⟩ := List.append_inj' hpast rfl
      obtain rfl : e = g := List.head_eq_of_cons_eq hlast
      right
      constructor
      · exact ⟨before, f, later, hfront, hout, fun h hh => hkept h (by simp [hh])⟩
      · exact hkept e (by simp)
  · rintro (hout | ⟨⟨before, f, later, rfl, hout, hkept⟩, hne⟩)
    · exact ⟨past, e, [], rfl, hout, fun f hf => absurd hf List.not_mem_nil⟩
    · refine ⟨before, f, later ++ [e], by simp, hout, ?_⟩
      intro g hg
      rcases List.mem_append.mp hg with hg | hg
      · exact hkept g hg
      · rw [List.mem_singleton.mp hg]
        exact hne

/-! ## One request -/

namespace Pool

/-- **Only members of classes are available.** -/
def Confined (p : Pool) : Prop := ∀ r, p.isAvailable r = true → r.classOf?.isSome = true

/-- At first exactly the members of classes are available. -/
theorem isAvailable_fresh (r : Register) : ({} : Pool).isAvailable r = r.classOf?.isSome := by
  cases r <;> decide

theorem Confined.mark (h : p.Confined) (entry : Bool) (hclass : r.classOf?.isSome = true) :
    (p.mark r entry).Confined := by
  intro x hx
  rw [isAvailable_mark] at hx
  split at hx
  · next hxr => rw [hxr]; exact hclass
  · exact h x hx

/-- In a confined pool a register is available if it belongs to a class and is not in use. -/
theorem Confined.isAvailable_iff (h : p.Confined) :
    p.isAvailable r = true ↔ r.classOf?.isSome = true ∧ r ∉ p.inUse := by
  constructor
  · intro havailable
    refine ⟨h r havailable, fun hmem => ?_⟩
    exact absurd ((Lower.mem_inUse.mp hmem).2.symm.trans havailable) (by simp)
  · rintro ⟨hclass, hnot⟩
    exact Lower.isAvailable_of_not_mem_inUse hclass hnot

/-- A given register is taken if it belongs to a class and is available, and then marked. -/
theorem take?_eq_some_iff {pool : Pool} :
    p.take? r = some pool ↔ r.classOf?.isSome = true ∧ p.isAvailable r = true ∧ p.mark r false = pool := by
  unfold take?
  cases hclass : r.classOf? <;> cases havailable : p.isAvailable r <;> simp

/-- What a request hands out belongs to a class, was available, and is marked in the pool after it. -/
theorem serve_out (h : (p.serve q).1 = some r) :
    r.classOf?.isSome = true ∧ p.isAvailable r = true ∧ (p.serve q).2 = p.mark r false := by
  cases q with
  | allocate c =>
      cases hfind : c.members.find? p.isAvailable with
      | none => exact absurd h (by simp [serve, allocate?, hfind])
      | some x =>
          obtain rfl : x = r := by simpa [serve, allocate?, hfind] using h
          have hclass := RegisterClass.mem_members_iff.mp (List.mem_of_find?_eq_some hfind)
          exact ⟨by rw [hclass]; rfl, List.find?_some hfind, by simp [serve, allocate?, hfind]⟩
  | take y =>
      cases htake : p.take? y with
      | none => exact absurd h (by simp [serve, htake])
      | some pool =>
          obtain rfl : y = r := by simpa [serve, htake] using h
          obtain ⟨hclass, havailable, rfl⟩ := take?_eq_some_iff.mp htake
          exact ⟨hclass, havailable, by simp [serve, htake]⟩
  | free y => exact absurd h (by simp [serve])

/-- A request that hands nothing out gives a register back, or leaves the pool as it is. -/
theorem serve_none (h : (p.serve q).1 = none) :
    (∃ r, q = .free r ∧ (p.serve q).2 = p.free r) ∨ ((∀ r, q ≠ .free r) ∧ (p.serve q).2 = p) := by
  cases q with
  | allocate c =>
      right
      cases halloc : p.allocate? c with
      | none => simp [serve, halloc]
      | some x => exact absurd h (by simp [serve, halloc])
  | take y =>
      right
      cases htake : p.take? y with
      | none => simp [serve, htake]
      | some pool => exact absurd h (by simp [serve, htake])
  | free y => exact Or.inl ⟨y, rfl, rfl⟩

/-- **A request keeps the pool confined**: it marks a member of a class, or nothing. -/
theorem Confined.serve (h : p.Confined) (q : Request) : (p.serve q).2.Confined := by
  cases hout : (p.serve q).1 with
  | some r =>
      obtain ⟨hclass, -, hmark⟩ := serve_out hout
      rw [hmark]
      exact h.mark false hclass
  | none =>
      rcases serve_none hout with ⟨r, -, hfree⟩ | ⟨-, hsame⟩
      · rw [hfree, Pool.free]
        split
        · next hclass => exact h.mark true hclass
        · exact h
      · rw [hsame]
        exact h

theorem request_ne_free (h : (p.serve q).1 = some r) (x : Register) : q ≠ .free x := by
  rintro rfl
  exact absurd h (by simp [serve])

/-- **One request changes the registers in use as it changes those that are out**: what is handed out is
    added, what is asked back is taken away. -/
theorem mem_inUse_serve :
    x ∈ (p.serve q).2.inUse ↔ (p.serve q).1 = some x ∨ (x ∈ p.inUse ∧ q ≠ .free x) := by
  cases hout : (p.serve q).1 with
  | some r =>
      obtain ⟨hclass, -, hmark⟩ := serve_out hout
      rw [hmark, Lower.mem_inUse_mark hclass]
      simp [request_ne_free hout, eq_comm]
  | none =>
      rcases serve_none hout with ⟨r, rfl, hfree⟩ | ⟨hne, hsame⟩
      · rw [hfree, Lower.mem_free]
        simp [eq_comm]
      · rw [hsame]
        simp [hne]

end Pool

/-! ## All requests -/

namespace Session

/-- **The registers in use are those that are out.** -/
theorem mem_inUse_after (requests : List Request) (r : Register) :
    r ∈ (after requests).pool.inUse ↔ Out (after requests).past r := by
  -- from the end: the last request is the one that the history ends with
  induction requests using List.reverseRecOn with
  | nil =>
      refine iff_of_false (fun hmem => ?_) (not_out_nil r)
      obtain ⟨hclass, havailable⟩ := Lower.mem_inUse.mp hmem
      exact absurd (havailable.symm.trans ((Pool.isAvailable_fresh r).trans hclass)) (by simp)
  | append_singleton requests q ih =>
      rw [after_snoc]
      show r ∈ ((after requests).pool.serve q).2.inUse ↔ Out ((after requests).past ++ [_]) r
      rw [Pool.mem_inUse_serve, out_snoc, ih]

/-- **Whatever the pool was asked, it is confined.** -/
theorem confined_after (requests : List Request) : (after requests).pool.Confined := by
  induction requests using List.reverseRecOn with
  | nil => exact fun r havailable => (Pool.isAvailable_fresh r).symm.trans havailable
  | append_singleton requests q ih =>
      rw [after_snoc]
      exact ih.serve q

/-- Every answer of a history is that of the pool that the requests before it lead to. -/
theorem past_split (requests : List Request) (h : (after requests).past = before ++ e :: later) :
    ∃ earlier, (after earlier).past = before ∧ e.out = ((after earlier).pool.serve e.request).1 := by
  induction requests using List.reverseRecOn generalizing later with
  | nil => exact absurd h.symm (List.append_ne_nil_of_right_ne_nil before (List.cons_ne_nil e later))
  | append_singleton requests q ih =>
      rw [after_snoc] at h
      rcases List.eq_nil_or_concat later with rfl | ⟨later, f, rfl⟩
      · obtain ⟨hfront, hlast⟩ := List.append_inj' h rfl
        have he := List.head_eq_of_cons_eq hlast
        exact ⟨requests, hfront, by rw [← he]⟩
      · rw [List.concat_eq_append, ← List.cons_append, ← List.append_assoc] at h
        exact ih (List.append_inj' h rfl).1

theorem isAvailable_after (requests : List Request) (r : Register) :
    (after requests).pool.isAvailable r = true ↔
      (∃ c : RegisterClass, r ∈ c.members) ∧ ¬ Out (after requests).past r := by
  rw [(confined_after requests).isAvailable_iff, mem_inUse_after, Option.isSome_iff_exists]
  simp only [RegisterClass.mem_members_iff]

/-- A register that is handed out belongs to a class and was not out. -/
theorem handed_out (requests : List Request) (h : (after requests).past = before ++ e :: later)
    (hout : e.out = some r) : (∃ c : RegisterClass, r ∈ c.members) ∧ ¬ Out before r := by
  obtain ⟨earlier, rfl, he⟩ := past_split requests h
  rw [he] at hout
  exact (isAvailable_after earlier r).mp (Pool.serve_out hout).2.1

/-- The first free register of a class is the first that is not out. -/
theorem allocate?_after (requests : List Request) (c : RegisterClass) (r : Register) :
    (∃ p, (after requests).pool.allocate? c = some (r, p)) ↔
      ∃ front back, c.members = front ++ r :: back ∧ (∀ x ∈ front, Out (after requests).past x) ∧
        ¬ Out (after requests).past r := by
  have hfind : (∃ p, (after requests).pool.allocate? c = some (r, p)) ↔
      c.members.find? (after requests).pool.isAvailable = some r := by
    unfold Pool.allocate?
    simp only [Option.map_eq_some_iff, Prod.mk.injEq]
    constructor
    · rintro ⟨p, x, hx, rfl, -⟩
      exact hx
    · intro hr
      exact ⟨_, r, hr, rfl, rfl⟩
  -- a member of the class is available exactly if it is not out
  have hmember : ∀ x ∈ c.members, (after requests).pool.isAvailable x = true ↔ ¬ Out (after requests).past x := by
    intro x hx
    rw [isAvailable_after]
    exact and_iff_right ⟨c, hx⟩
  rw [hfind, List.find?_eq_some_iff_append]
  constructor
  · rintro ⟨hr, front, back, hsplit, hfront⟩
    refine ⟨front, back, hsplit, ?_, ?_⟩
    · intro x hx
      have hout := hfront x hx
      by_contra hnot
      rw [(hmember x (by simp [hsplit, hx])).mpr hnot] at hout
      exact absurd hout (by simp)
    · exact (hmember r (by simp [hsplit])).mp hr
  · rintro ⟨front, back, hsplit, hfront, hr⟩
    refine ⟨(hmember r (by simp [hsplit])).mpr hr, front, back, hsplit, ?_⟩
    intro x hx
    rw [Bool.not_eq_true']
    by_contra havailable
    rw [Bool.not_eq_false] at havailable
    exact (hmember x (by simp [hsplit, hx])).mp havailable (hfront x hx)

theorem allocate?_after_eq_none_iff (requests : List Request) (c : RegisterClass) :
    (after requests).pool.allocate? c = none ↔ ∀ r ∈ c.members, Out (after requests).past r := by
  unfold Pool.allocate?
  rw [Option.map_eq_none_iff, List.find?_eq_none]
  constructor
  · intro h r hr
    by_contra hnot
    exact h r hr ((isAvailable_after requests r).mpr ⟨⟨c, hr⟩, hnot⟩)
  · intro h r hr havailable
    exact ((isAvailable_after requests r).mp havailable).2 (h r hr)

theorem take?_after (requests : List Request) (r : Register) :
    ((after requests).pool.take? r).isSome = true ↔
      (∃ c : RegisterClass, r ∈ c.members) ∧ ¬ Out (after requests).past r := by
  rw [← isAvailable_after, Option.isSome_iff_exists]
  simp only [Pool.take?_eq_some_iff]
  constructor
  · rintro ⟨pool, -, havailable, -⟩
    exact havailable
  · intro havailable
    exact ⟨_, confined_after requests r havailable, havailable, rfl⟩

/-- Between two times that a register is handed out it is asked back. -/
theorem freed_between (requests : List Request) {first second : Served} {between : List Served}
    (h : (after requests).past = before ++ first :: (between ++ second :: later)) (hfirst : first.out = some r)
    (hsecond : second.out = some r) : ∃ f ∈ between, f.request = .free r := by
  by_contra hnone
  have hout : Out (before ++ first :: between) r := by
    refine ⟨before, first, between, rfl, hfirst, ?_⟩
    intro f hf hfree
    exact hnone ⟨f, hf, hfree⟩
  rw [← List.cons_append, ← List.append_assoc] at h
  exact (handed_out requests h hsecond).2 hout

end Session

/-- The registers with a fixed role. -/
def reserved : List Register := [.zero, .ra, .sp, .gp, .tp, .fp, .a0]

theorem not_mem_members_of_reserved (h : r ∈ reserved) (c : RegisterClass) : r ∉ c.members := by
  revert r
  cases c <;> decide

theorem inUse_ordered (p : Pool) : p.inUse.Pairwise fun r s => r.ordinal < s.ordinal := by
  have hall : Register.all.Pairwise fun r s => r.ordinal < s.ordinal := by decide
  exact hall.sublist List.filter_sublist

/-- **The pool refines a set.** Whatever a fresh pool is asked: the registers in use are, in the order of
    their numbers, those that are out. A class gives its first register that is not out, and none exactly
    if all of them are; a given register can be taken exactly if it belongs to a class and is not out. No
    register is handed out twice unless it is asked back in between, and the registers with a fixed role
    are neither handed out nor available. -/
theorem pool_refines_set (requests : List Request) :
    ∃ past p, Session.after requests = ⟨past, p⟩ ∧
      (p.inUse.Pairwise (fun r s => r.ordinal < s.ordinal) ∧ ∀ r, r ∈ p.inUse ↔ Out past r) ∧
      (∀ c r, (∃ q, p.allocate? c = some (r, q)) ↔
        ∃ front back, c.members = front ++ r :: back ∧ (∀ x ∈ front, Out past x) ∧ ¬ Out past r) ∧
      (∀ c, p.allocate? c = none ↔ ∀ r ∈ c.members, Out past r) ∧
      (∀ r, (p.take? r).isSome = true ↔ (∃ c : RegisterClass, r ∈ c.members) ∧ ¬ Out past r) ∧
      (∀ r before first between second later, past = before ++ first :: (between ++ second :: later) →
        first.out = some r → second.out = some r → ∃ f ∈ between, f.request = .free r) ∧
      ∀ r ∈ reserved, (∀ e ∈ past, e.out ≠ some r) ∧ p.isAvailable r = false := by
  refine ⟨(Session.after requests).past, (Session.after requests).pool, rfl, ⟨inUse_ordered _, ?_⟩,
    Session.allocate?_after requests, Session.allocate?_after_eq_none_iff requests, Session.take?_after requests,
    ?_, ?_⟩
  · exact Session.mem_inUse_after requests
  · intro r before first between second later hpast hfirst hsecond
    exact Session.freed_between requests hpast hfirst hsecond
  · intro r hr
    constructor
    · intro e he hout
      obtain ⟨before, later, hpast⟩ := List.append_of_mem he
      obtain ⟨⟨c, hc⟩, -⟩ := Session.handed_out requests hpast hout
      exact not_mem_members_of_reserved hr c hc
    · rw [← Bool.not_eq_true, Session.isAvailable_after]
      rintro ⟨⟨c, hc⟩, -⟩
      exact not_mem_members_of_reserved hr c hc

-- taken back twice and taken back without need: only what is still out counts
example : (Session.after [.allocate .temporary, .take .t4, .free .a0, .allocate .argument, .free .t0, .free .t0,
    .allocate .temporary, .take .fp]).pool.inUse = [.t0, .a1, .t4] := by decide

end Offside.Machine
