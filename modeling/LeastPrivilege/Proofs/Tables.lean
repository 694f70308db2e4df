import LeastPrivilege.Requirement.Table
import Mathlib.Tactic.Common

/-!
# Tables entry by entry

A table is known by its nodes and by the set of each. Adding changes one entry, and a series of
additions joins to each entry what was added there.
-/

namespace LeastPrivilege

namespace CapabilitySet

theorem mem_foldl_union {α : Type} {f : α → CapabilitySet} {xs : List α} {s : CapabilitySet}
    {c : Capability} : c ∈ xs.foldl (fun s x => s ∪ f x) s ↔ c ∈ s ∨ ∃ x ∈ xs, c ∈ f x := by
  induction xs generalizing s with
  | nil => simp
  | cons x xs ih => simp [ih, or_assoc]

end CapabilitySet

namespace RequirementTable

variable {t u : RequirementTable} {n m : Node} {s : CapabilitySet} {c : Capability}

theorem mem_add : m ∈ t.add n s ↔ m = n ∨ m ∈ t := by
  rw [add, Std.ExtTreeMap.mem_insert, Std.LawfulEqCmp.compare_eq_iff_eq, eq_comm]

theorem mem_requirement_add :
    c ∈ (t.add n s).requirement m ↔ c ∈ t.requirement m ∨ m = n ∧ c ∈ s := by
  rw [requirement_add]
  by_cases h : n = m
  · simp [h]
  · simp [h, Ne.symm h]

theorem getElem?_eq_some_requirement (h : n ∈ t) : t[n]? = some (t.requirement n) :=
  Std.ExtTreeMap.getElem?_eq_some_getD h

theorem requirement_of_not_mem (h : n ∉ t) : t.requirement n = ∅ :=
  Std.ExtTreeMap.getD_eq_fallback h

/-- Two tables with the same nodes and the same sets are equal. -/
theorem ext_requirement (hnodes : ∀ n, n ∈ t ↔ n ∈ u)
    (hsets : ∀ n c, c ∈ t.requirement n ↔ c ∈ u.requirement n) : t = u := by
  apply Std.ExtTreeMap.ext_getElem?
  intro n
  by_cases hn : n ∈ t
  · rw [getElem?_eq_some_requirement hn, getElem?_eq_some_requirement ((hnodes n).1 hn)]
    exact congrArg some (CapabilitySet.ext (hsets n))
  · rw [Std.ExtTreeMap.getElem?_eq_none hn,
      Std.ExtTreeMap.getElem?_eq_none (fun hu => hn ((hnodes n).2 hu))]

theorem mem_foldl_add {α : Type} {node : α → Node} {set : α → CapabilitySet} {xs : List α} :
    m ∈ xs.foldl (fun t x => t.add (node x) (set x)) t ↔ m ∈ t ∨ ∃ x ∈ xs, node x = m := by
  induction xs generalizing t with
  | nil => simp
  | cons x xs ih =>
    simp only [List.foldl_cons, ih, mem_add, List.mem_cons, exists_eq_or_imp, eq_comm (a := m)]
    tauto

theorem mem_requirement_foldl_add {α : Type} {node : α → Node} {set : α → CapabilitySet}
    {xs : List α} :
    c ∈ (xs.foldl (fun t x => t.add (node x) (set x)) t).requirement m ↔
      c ∈ t.requirement m ∨ ∃ x ∈ xs, node x = m ∧ c ∈ set x := by
  induction xs generalizing t with
  | nil => simp
  | cons x xs ih =>
    simp only [List.foldl_cons, ih, mem_requirement_add, List.mem_cons, exists_eq_or_imp,
      eq_comm (a := m), or_assoc]

theorem mem_zeroed : n ∈ t.zeroed ↔ n ∈ t :=
  Std.ExtTreeMap.mem_map

@[simp] theorem requirement_zeroed (t : RequirementTable) (n : Node) :
    t.zeroed.requirement n = ∅ := by
  rw [requirement, Std.ExtTreeMap.getD_eq_getD_getElem?, zeroed, Std.ExtTreeMap.getElem?_map]
  cases t[n]? <;> rfl

end RequirementTable

end LeastPrivilege
