import LeastPrivilege.Capability.Codec
import LeastPrivilege.Requirement.Node

/-!
# Tables of requirements

A table gives some nodes a set of capabilities. Adding to a node that has a set joins the two.
-/

namespace LeastPrivilege

/-- A finite map from nodes to sets of capabilities. -/
abbrev RequirementTable := Std.ExtTreeMap Node CapabilitySet

namespace RequirementTable

/-- The set of a node, empty if the table does not have it. -/
def requirement (t : RequirementTable) (n : Node) : CapabilitySet :=
  t.getD n ∅

/-- Joins a set to that of a node. -/
def add (t : RequirementTable) (n : Node) (s : CapabilitySet) : RequirementTable :=
  t.insert n (t.requirement n ∪ s)

/-- Whether `add` would change a table. -/
def grows (t : RequirementTable) (n : Node) (s : CapabilitySet) : Bool :=
  match t[n]? with
  | some old => !decide (s ⊆ old)
  | none => true

/-- The same nodes, each with the empty set. -/
def zeroed (t : RequirementTable) : RequirementTable :=
  t.map fun _ _ => ∅

/-- The procedures with their sets, in the order of the names. -/
def procedures (t : RequirementTable) : List (String × CapabilitySet) :=
  t.toList.filterMap fun entry => entry.1.procedure?.map fun name => (name, entry.2)

/-- An object with one field for each node, in order. -/
def toJson (t : RequirementTable) : Json :=
  .record (t.toList.map fun entry => (entry.1.render, entry.2.toJson))

@[simp] theorem requirement_add (t : RequirementTable) (n m : Node) (s : CapabilitySet) :
    (t.add n s).requirement m = if n = m then t.requirement m ∪ s else t.requirement m := by
  by_cases h : n = m
  · subst h
    simp [requirement, add]
  · simp [requirement, add, Std.ExtTreeMap.getD_insert, h]

end RequirementTable

end LeastPrivilege
