import LeastPrivilege.Proofs.GraphShape
import LeastPrivilege.Requirement.Propagation
import Mathlib.Data.Finset.Card
import Mathlib.Logic.Relation
import Mathlib.Order.Monotone.Basic

/-!
# What a node requires

A node requires a capability if its calls lead, in any number of steps, to a node that requires it
itself. Since a graph has finitely many nodes, as many steps as it has nodes are always enough.
-/

namespace LeastPrivilege.Propagation.Problem

variable {q : Problem} {c : Capability} {n m : Node} {k : Nat}

/-- A call of one node may lead to another. No call leads to the entry. -/
inductive Leads (q : Problem) : Node → Node → Prop
  /-- A call by name leads to the procedure. -/
  | call {n : Node} {name : String} {site : Option UInt32}
      (hedge : ⟨.procedure name, site⟩ ∈ q.graph.callees n) (hentry : name ≠ q.entry) :
      Leads q n (.procedure name)
  /-- A call through a pointer with known targets leads to those that the graph has. -/
  | resolved {caller name : String} {site : UInt32} {targets : List String}
      (hedge : ⟨.unknownCallees, some site⟩ ∈ q.graph.callees (.procedure caller))
      (htargets : q.resolver caller site = some targets) (hmem : name ∈ targets)
      (hnode : .procedure name ∈ q.graph.nodes) (hentry : name ≠ q.entry) :
      Leads q (.procedure caller) (.procedure name)
  /-- Any other call out of the program leads to the callees outside. -/
  | unresolved {n : Node} {site : Option UInt32}
      (hedge : ⟨.unknownCallees, site⟩ ∈ q.graph.callees n)
      (hnone : ∀ caller s, n = .procedure caller → site = some s → q.resolver caller s = none) :
      Leads q n .unknownCallees
  /-- The callees outside may do what the callers outside do. -/
  | callBack : Leads q .unknownCallees .unknownCallers

/-- A node of the graph requires a capability itself. The callees outside never do. -/
def Owns (q : Problem) (c : Capability) (n : Node) : Prop :=
  n ∈ q.graph.nodes ∧ n ≠ .unknownCallees ∧ c ∈ q.direct.requirement n

/-- A node requires a capability: it reaches a node that requires it itself. -/
def Requires (q : Problem) (c : Capability) (n : Node) : Prop :=
  ∃ m, Relation.ReflTransGen q.Leads n m ∧ q.Owns c m

theorem Owns.requires (h : q.Owns c n) : q.Requires c n :=
  ⟨n, .refl, h⟩

theorem Leads.requires (hlead : q.Leads n m) (h : q.Requires c m) : q.Requires c n := by
  obtain ⟨r, hreach, hown⟩ := h
  exact ⟨r, .head hlead hreach, hown⟩

theorem Leads.mem_nodes (hg : q.graph.WellFormed) (h : q.Leads n m) : n ∈ q.graph.nodes := by
  cases h with
  | call hedge _ => exact CallGraph.mem_nodes_of_mem_callees hedge
  | resolved hedge _ _ _ _ => exact CallGraph.mem_nodes_of_mem_callees hedge
  | unresolved hedge _ => exact CallGraph.mem_nodes_of_mem_callees hedge
  | callBack => exact hg.unknownCallees_mem

theorem Requires.mem_nodes (hg : q.graph.WellFormed) (h : q.Requires c n) :
    n ∈ q.graph.nodes := by
  obtain ⟨m, hreach, hown⟩ := h
  cases hreach using Relation.ReflTransGen.head_induction_on with
  | refl => exact hown.1
  | head hlead _ => exact hlead.mem_nodes hg

theorem Leads.eq_unknownCallers (hg : q.graph.WellFormed) (h : q.Leads .unknownCallees m) :
    m = .unknownCallers := by
  cases h with
  | call hedge _ => simp [hg.callees_unknownCallees] at hedge
  | unresolved hedge _ => simp [hg.callees_unknownCallees] at hedge
  | callBack => rfl

/-- The callees outside require what the callers outside do, and nothing else. -/
theorem requires_unknownCallees (hg : q.graph.WellFormed) :
    q.Requires c .unknownCallees ↔ q.Requires c .unknownCallers := by
  constructor
  · rintro ⟨m, hreach, hown⟩
    cases hreach using Relation.ReflTransGen.head_induction_on with
    | refl => exact absurd rfl hown.2.1
    | head hlead hrest =>
      obtain rfl := hlead.eq_unknownCallers hg
      exact ⟨m, hrest, hown⟩
  · exact Leads.callBack.requires

/-- A node requires a capability within a number of rounds: in the first the nodes that require it
themselves are found, and in each later one their callers. -/
def RequiresWithin (q : Problem) (c : Capability) : Nat → Node → Prop
  | 0, _ => False
  | k + 1, n => q.Owns c n ∨ ∃ m, q.Leads n m ∧ q.RequiresWithin c k m

theorem RequiresWithin.requires (h : q.RequiresWithin c k n) : q.Requires c n := by
  induction k generalizing n with
  | zero => exact h.elim
  | succ k ih =>
    rcases h with hown | ⟨m, hlead, hm⟩
    · exact hown.requires
    · exact hlead.requires (ih hm)

theorem RequiresWithin.succ (h : q.RequiresWithin c k n) : q.RequiresWithin c (k + 1) n := by
  induction k generalizing n with
  | zero => exact h.elim
  | succ k ih =>
    rcases h with hown | ⟨m, hlead, hm⟩
    · exact Or.inl hown
    · exact Or.inr ⟨m, hlead, ih hm⟩

theorem RequiresWithin.mono {j : Nat} (hjk : j ≤ k) (h : q.RequiresWithin c j n) :
    q.RequiresWithin c k n := by
  induction hjk with
  | refl => exact h
  | step _ ih => exact ih.succ

theorem Requires.exists_within (h : q.Requires c n) : ∃ k, q.RequiresWithin c k n := by
  obtain ⟨m, hreach, hown⟩ := h
  induction hreach using Relation.ReflTransGen.head_induction_on with
  | refl => exact ⟨1, Or.inl hown⟩
  | head hlead _ ih =>
    obtain ⟨k, hk⟩ := ih
    exact ⟨k + 1, Or.inr ⟨_, hlead, hk⟩⟩

open Classical in
/-- The nodes that require a capability within a number of rounds. -/
noncomputable def requiringWithin (q : Problem) (c : Capability) (k : Nat) : Finset Node :=
  q.graph.nodes.toFinset.filter (q.RequiresWithin c k)

theorem mem_requiringWithin (hg : q.graph.WellFormed) :
    n ∈ q.requiringWithin c k ↔ q.RequiresWithin c k n := by
  simp only [requiringWithin, Finset.mem_filter, List.mem_toFinset]
  constructor
  · exact And.right
  · intro h
    exact ⟨h.requires.mem_nodes hg, h⟩

theorem requiringWithin_subset (hg : q.graph.WellFormed) {j : Nat} (hjk : j ≤ k) :
    q.requiringWithin c j ⊆ q.requiringWithin c k := by
  intro n hn
  rw [mem_requiringWithin hg] at hn ⊢
  exact hn.mono hjk

theorem card_requiringWithin_le (q : Problem) (c : Capability) (k : Nat) :
    (q.requiringWithin c k).card ≤ q.graph.nodeCount := by
  classical
  calc
    (q.requiringWithin c k).card ≤ q.graph.nodes.toFinset.card := Finset.card_filter_le _ _
    _ ≤ q.graph.nodes.length := List.toFinset_card_le _
    _ = q.graph.nodeCount := q.graph.length_nodes

/-- A round that finds no new node is followed by another such round. -/
theorem requiringWithin_stable (hg : q.graph.WellFormed)
    (h : q.requiringWithin c k = q.requiringWithin c (k + 1)) :
    q.requiringWithin c (k + 1) = q.requiringWithin c (k + 2) := by
  refine Finset.Subset.antisymm (requiringWithin_subset hg (by omega)) ?_
  intro n hn
  rw [mem_requiringWithin hg] at hn ⊢
  rcases hn with hown | ⟨m, hlead, hm⟩
  · exact Or.inl hown
  · rw [← mem_requiringWithin hg, ← h, mem_requiringWithin hg] at hm
    exact Or.inr ⟨m, hlead, hm⟩

/-- As many rounds as the graph has nodes find every node that requires a capability. -/
theorem Requires.within_nodeCount (hg : q.graph.WellFormed) (h : q.Requires c n) :
    q.RequiresWithin c q.graph.nodeCount n := by
  obtain ⟨k, hk⟩ := h.exists_within
  by_cases hle : k ≤ q.graph.nodeCount
  · exact hk.mono hle
  -- The sets of nodes found grow with the rounds and have at most as many members as there are
  -- nodes, so a round without a new node comes in time, and nothing is found after it.
  have hcard : (q.requiringWithin c k).card = (q.requiringWithin c q.graph.nodeCount).card := by
    refine Nat.stabilises_of_monotone (f := fun k => (q.requiringWithin c k).card) ?_
      (q.card_requiringWithin_le c) ?_ (by omega)
    · intro i j hij
      exact Finset.card_le_card (requiringWithin_subset hg hij)
    · intro i hi
      have hsame := Finset.eq_of_subset_of_card_le
        (requiringWithin_subset hg (Nat.le_succ i)) (Nat.le_of_eq hi.symm)
      exact congrArg Finset.card (requiringWithin_stable hg hsame)
  have hsame := Finset.eq_of_subset_of_card_le
    (requiringWithin_subset (c := c) hg (Nat.le_of_not_le hle)) (Nat.le_of_eq hcard)
  rw [← mem_requiringWithin hg] at hk ⊢
  rwa [hsame]

end LeastPrivilege.Propagation.Problem
