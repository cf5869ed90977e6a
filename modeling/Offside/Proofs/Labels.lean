import Offside.Proofs.Arena

/-!
# `Proofs.Labels` — generated labels are all different

A label ends in the number of its scope and its own number there; the label of a nested function ends in
the number of the function's scope. Numbers are written in decimal, so both can be read off the end of the
label again (`labelText_inj`, `nestedLabel_inj`), whatever the names in front of them are.

`Arena.Issued` says that a label carries numbers that were already given out. A new label carries the next
number, so it was not issued before (`not_issued_nextLabel`).
-/

namespace Offside

/-! ## Reading a number off the end of a text -/

/-- What stands before the last underscore and the digits after it are determined by the text. -/
theorem append_digits_inj {l l' d d' : List Char} (hd : ∀ c ∈ d, c.isDigit = true)
    (hd' : ∀ c ∈ d', c.isDigit = true) (h : l ++ '_' :: d = l' ++ '_' :: d') : l = l' ∧ d = d' := by
  have hnot : ∀ {x y z : List Char}, (∀ c ∈ z, c.isDigit = true) → x ++ '_' :: y ≠ z := by
    intro x y z hz he
    have hc := hz '_' (he ▸ by simp)
    exact absurd hc (by decide)
  rcases List.append_eq_append_iff.mp h with ⟨m, rfl, hm⟩ | ⟨m, rfl, hm⟩
  · cases m with
    | nil => simpa using hm
    | cons c m => exact absurd (List.cons.inj hm).2.symm (hnot hd)
  · cases m with
    | nil => simpa [eq_comm] using hm
    | cons c m => exact absurd (List.cons.inj hm).2.symm (hnot hd')

theorem toList_toString (n : Nat) : (toString n).toList = Nat.toDigits 10 n := by
  show (Nat.repr n).toList = _
  simp [Nat.repr]

/-- **The number at the end of a text** and the text before it are determined by the whole. -/
theorem append_number_inj {x y : String} {m n : Nat} (h : x ++ "_" ++ toString m = y ++ "_" ++ toString n) :
    x = y ∧ m = n := by
  have hlist := congrArg String.toList h
  simp only [String.toList_append, toList_toString, List.append_assoc] at hlist
  have hdigit : ∀ k : Nat, ∀ c ∈ Nat.toDigits 10 k, c.isDigit = true := fun k c hc =>
    Nat.isDigit_of_mem_toDigits (by decide) (by decide) hc
  obtain ⟨hx, hmn⟩ := append_digits_inj (hdigit m) (hdigit n) hlist
  refine ⟨String.ext_iff.mpr hx, ?_⟩
  rw [← Nat.ofDigitChars_toDigits (n := m) (by decide : 1 < 10) (by decide), hmn,
    Nat.ofDigitChars_toDigits (by decide) (by decide)]

/-! ## Labels -/

namespace Arena

variable {a b : Arena} {s : ScopeId} {l purpose : String}

theorem labelText_eq (purpose name : String) (s : ScopeId) (serial : Nat) :
    labelText purpose name s serial =
      (purpose ++ "_" ++ name ++ "_sc" ++ "_" ++ toString s ++ "_lab") ++ "_" ++ toString serial := by
  have hsc : "_sc_" = "_sc" ++ "_" := by decide
  have hlab : "_lab_" = "_lab" ++ "_" := by decide
  simp only [labelText, hsc, hlab, String.append_assoc]

/-- The last character of a text made of two, the second of which is not empty. -/
theorem getLast?_append_toList {x y : String} (hy : y.toList ≠ []) :
    (x ++ y).toList.getLast? = y.toList.getLast? := by
  rw [String.toList_append, List.getLast?_append]
  cases h : y.toList.getLast? with
  | none => exact absurd (List.getLast?_eq_none_iff.mp h) hy
  | some c => rfl

/-- **A label determines its numbers**: that of its scope and its own. -/
theorem labelText_inj {p p' n n' : String} {i i' : ScopeId} {k k' : Nat}
    (h : labelText p n i k = labelText p' n' i' k') : i = i' ∧ k = k' := by
  rw [labelText_eq, labelText_eq] at h
  obtain ⟨hfront, hk⟩ := append_number_inj h
  have hscope := String.append_left_inj "_lab" |>.mp hfront
  exact ⟨(append_number_inj hscope).2, hk⟩

/-- The label of a function inside another one, from the names in front and the number of its scope. -/
def nestedLabel (front : String) (inner : ScopeId) : String := front ++ "_sc_" ++ toString inner

theorem nestedLabel_eq (front : String) (inner : ScopeId) :
    nestedLabel front inner = (front ++ "_sc") ++ "_" ++ toString inner := by
  have hsc : "_sc_" = "_sc" ++ "_" := by decide
  simp only [nestedLabel, hsc, String.append_assoc]

theorem nestedLabel_inj {front front' : String} {i i' : ScopeId}
    (h : nestedLabel front i = nestedLabel front' i') : i = i' := by
  rw [nestedLabel_eq, nestedLabel_eq] at h
  exact (append_number_inj h).2

theorem labelText_ne_nestedLabel {p n front : String} {i i' : ScopeId} {k : Nat} :
    labelText p n i k ≠ nestedLabel front i' := by
  intro h
  rw [labelText_eq, nestedLabel_eq] at h
  have hlast := congrArg (fun x => x.toList.getLast?) (append_number_inj h).1
  rw [getLast?_append_toList (by decide), getLast?_append_toList (by decide)] at hlast
  exact absurd hlast (by decide)

/-- **Labels issued so far**: those that carry the number of a scope and of a label made there, and those
    that carry the number of a function scope. -/
def Issued (a : Arena) (l : String) : Prop :=
  (∃ purpose name i k, l = labelText purpose name i k ∧ i < a.scopes.size ∧ k < (a.get i).labels) ∨
    ∃ front i, l = nestedLabel front i ∧ i < a.scopes.size

theorem Issued.mono (hsize : a.scopes.size ≤ b.scopes.size) (hlabels : ∀ i, (a.get i).labels ≤ (b.get i).labels)
    (h : a.Issued l) : b.Issued l := by
  rcases h with ⟨p, n, i, k, hl, hi, hk⟩ | ⟨front, i, hl, hi⟩
  · exact Or.inl ⟨p, n, i, k, hl, Nat.lt_of_lt_of_le hi hsize, Nat.lt_of_lt_of_le hk (hlabels i)⟩
  · exact Or.inr ⟨front, i, hl, Nat.lt_of_lt_of_le hi hsize⟩

/-- The number of a label to come was not given out yet. -/
theorem not_issued_labelText {name : String} : ¬ a.Issued (labelText purpose name s (a.get s).labels) := by
  rintro (⟨p, n, i, k, hl, _, hk⟩ | ⟨front, i, hl, _⟩)
  · obtain ⟨rfl, rfl⟩ := labelText_inj hl
    exact absurd hk (Nat.lt_irrefl _)
  · exact absurd hl labelText_ne_nestedLabel

/-- The number of a scope to come was not given out yet. -/
theorem not_issued_nestedLabel {front : String} : ¬ a.Issued (nestedLabel front a.scopes.size) := by
  rintro (⟨p, n, i, k, hl, _, _⟩ | ⟨front', i, hl, hi⟩)
  · exact absurd hl.symm labelText_ne_nestedLabel
  · obtain rfl := nestedLabel_inj hl
    exact absurd hi (Nat.lt_irrefl _)

theorem labels_updateVariable {v : VarRef} (f : Variable → Variable) (i : ScopeId) :
    ((a.updateVariable v f).get i).labels = (a.get i).labels := by
  unfold updateVariable
  rw [get_update]
  split
  · rename_i h; rw [h.1]
  · rfl

theorem labels_releaseScope (i : ScopeId) : ((a.releaseScope s).get i).labels = (a.get i).labels := by
  unfold releaseScope
  rw [get_update]
  split
  · rename_i h; rw [h.1]
  · rfl

/-- No label was made yet in a new scope. -/
theorem labels_push {sc : Scope} (hsc : sc.labels = 0) (i : ScopeId) :
    ((Arena.mk (a.scopes.push sc)).get i).labels = (a.get i).labels := by
  rw [get_push]
  split
  · rename_i hi; rw [hsc, hi, get_of_size_le (Nat.le_refl _)]; rfl
  · rfl

/-! ## The next label of a scope -/

theorem alike_nextLabel (a : Arena) (s : ScopeId) (purpose : String) : Alike a (a.nextLabel s purpose).2 :=
  alike_update fun _ => rfl

theorem lookup?_nextLabel (a : Arena) (s : ScopeId) (purpose : String) (w : VarRef) :
    (a.nextLabel s purpose).2.lookup? w = a.lookup? w := by
  show ((a.update s _).get w.scope).vars[w.index]? = _
  rw [get_update]
  split
  · rename_i h; unfold lookup?; rw [h.1]
  · rfl

theorem labels_nextLabel (a : Arena) (s : ScopeId) (purpose : String) (i : ScopeId) :
    ((a.nextLabel s purpose).2.get i).labels =
      if i = s ∧ s < a.scopes.size then (a.get s).labels + 1 else (a.get i).labels := by
  show ((a.update s _).get i).labels = _
  rw [get_update]
  split <;> rfl

theorem labels_le_nextLabel (a : Arena) (s : ScopeId) (purpose : String) (i : ScopeId) :
    (a.get i).labels ≤ ((a.nextLabel s purpose).2.get i).labels := by
  rw [labels_nextLabel]
  split
  · rename_i h; rw [h.1]; exact Nat.le_succ _
  · exact Nat.le_refl _

theorem issued_nextLabel (purpose : String) (hs : s < a.scopes.size) :
    (a.nextLabel s purpose).2.Issued (a.nextLabel s purpose).1 := by
  refine Or.inl ⟨purpose, _, s, (a.get s).labels, rfl, ?_, ?_⟩
  · rw [(alike_nextLabel a s purpose).size_eq]; exact hs
  · rw [labels_nextLabel, if_pos ⟨rfl, hs⟩]; exact Nat.lt_succ_self _

theorem not_issued_nextLabel : ¬ a.Issued (a.nextLabel s purpose).1 := not_issued_labelText

end Arena

end Offside
