import LeastPrivilege.CallGraph.Basic
import LeastPrivilege.Proofs.Lists
import Mathlib.Tactic.Common

/-!
# The shape of a call graph

A graph that steps build has the ends of the steps as its nodes, beside the two stand-ins, and the
calls of the steps as its edges. Every step keeps a graph regular: its calls lead to nodes and are
listed once, and the two stand-ins make and take only the calls that they stand for.
-/

namespace LeastPrivilege.CallGraph

variable {g : CallGraph} {n m : Node} {e d : CallEdge} {s : Step} {steps : List Step}

theorem mem_nodes_iff_mem_edges : n ∈ g.nodes ↔ n ∈ g.edges :=
  Std.ExtTreeMap.mem_keys

theorem length_nodes (g : CallGraph) : g.nodes.length = g.nodeCount :=
  Std.ExtTreeMap.length_keys

/-- Graphs that hold the same nodes list them in the same order. -/
theorem nodes_eq_of_mem_iff {g g' : CallGraph} (h : ∀ n, n ∈ g.nodes ↔ n ∈ g'.nodes) :
    g.nodes = g'.nodes :=
  eq_of_ordered Std.ExtTreeMap.ordered_keys Std.ExtTreeMap.ordered_keys h

theorem mem_nodes_of_mem_callees (h : e ∈ g.callees n) : n ∈ g.nodes := by
  rw [mem_nodes_iff_mem_edges]
  by_contra hn
  have hnil : g.callees n = [] := Std.ExtTreeMap.getD_eq_fallback hn
  simp [hnil] at h

theorem mem_nodes_addNode : m ∈ (g.addNode n).nodes ↔ m = n ∨ m ∈ g.nodes := by
  rw [mem_nodes_iff_mem_edges, mem_nodes_iff_mem_edges, eq_comm, addNode,
    Std.ExtTreeMap.mem_insertIfNew, Std.LawfulEqCmp.compare_eq_iff_eq]

@[simp] theorem callees_addNode (g : CallGraph) (n m : Node) :
    (g.addNode n).callees m = g.callees m := by
  simp only [callees, addNode, Std.ExtTreeMap.getD_insertIfNew]
  split
  · next h =>
    -- A new node makes no calls, so the entry that it gets is what was read before.
    obtain ⟨hn, hnot⟩ := h
    rw [Std.LawfulEqOrd.eq_of_compare hn] at hnot
    exact (Std.ExtTreeMap.getD_eq_fallback hnot).symm
  · rfl

theorem mem_nodes_addEdge : m ∈ (g.addEdge n e).nodes ↔ m = n ∨ m ∈ g.nodes := by
  rw [mem_nodes_iff_mem_edges, mem_nodes_iff_mem_edges, eq_comm, addEdge, Std.ExtTreeMap.mem_insert,
    Std.LawfulEqCmp.compare_eq_iff_eq]

/-- Puts a call behind those of a node, unless it is among them. -/
def pushEdge (es : List CallEdge) (e : CallEdge) : List CallEdge :=
  if es.contains e then es else es ++ [e]

theorem mem_pushEdge {es : List CallEdge} : d ∈ pushEdge es e ↔ d ∈ es ∨ d = e := by
  rw [pushEdge]
  split
  · next h =>
    have he : e ∈ es := by simpa using h
    exact (or_iff_left_of_imp fun heq => heq ▸ he).symm
  · simp

theorem nodup_pushEdge {es : List CallEdge} (h : es.Nodup) (e : CallEdge) :
    (pushEdge es e).Nodup := by
  rw [pushEdge]
  split
  · exact h
  · next hnew =>
    have hne : ∀ d ∈ es, d ≠ e := by
      rintro d hd rfl
      exact hnew (by simpa using hd)
    simpa [List.nodup_append, h] using hne

theorem callees_addEdge (g : CallGraph) (n m : Node) (e : CallEdge) :
    (g.addEdge n e).callees m = if n = m then pushEdge (g.callees m) e else g.callees m := by
  by_cases hm : n = m
  · subst hm
    simp [callees, addEdge, pushEdge]
  · simp [callees, addEdge, Std.ExtTreeMap.getD_insert, hm]

theorem mem_callees_addEdge :
    d ∈ (g.addEdge n e).callees m ↔ d ∈ g.callees m ∨ m = n ∧ d = e := by
  rw [callees_addEdge, eq_comm (a := m)]
  by_cases hm : n = m
  · simp [hm, mem_pushEdge]
  · simp [hm]

namespace Step

/-- The procedures that a step makes nodes of the graph. -/
def ends : Step → List Node
  | procedure name => [.procedure name]
  | call caller callee => [.procedure caller, .procedure callee]
  | indirect caller _ => [.procedure caller]
  | escape caller => [.procedure caller]
  | external callee => [.procedure callee]

/-- The call that a step adds, with the node that makes it. -/
def edge? : Step → Option (Node × CallEdge)
  | procedure _ => none
  | call caller callee => some (.procedure caller, { callee := .procedure callee })
  | indirect caller site =>
    some (.procedure caller, { callee := .unknownCallees, site := some site })
  | escape caller => some (.procedure caller, { callee := .unknownCallees })
  | external callee => some (.unknownCallers, { callee := .procedure callee })

/-- The call that a step adds to those of a node. -/
def edgeFrom? (n : Node) (s : Step) : Option CallEdge :=
  s.edge?.bind fun edge => if edge.1 = n then some edge.2 else none

end Step

theorem mem_nodes_apply (hcallers : .unknownCallers ∈ g.nodes) :
    n ∈ (g.apply s).nodes ↔ n ∈ g.nodes ∨ n ∈ s.ends := by
  cases s with
  | procedure name => simp [apply, Step.ends, mem_nodes_addNode, or_comm]
  | call caller callee =>
    simp only [apply, Step.ends, mem_nodes_addEdge, mem_nodes_addNode, List.mem_cons,
      List.not_mem_nil, or_false]
    tauto
  | indirect caller site => simp [apply, Step.ends, mem_nodes_addEdge, or_comm]
  | escape caller => simp [apply, Step.ends, mem_nodes_addEdge, or_comm]
  | external callee =>
    simp only [apply, Step.ends, mem_nodes_addEdge, mem_nodes_addNode, List.mem_singleton]
    constructor
    · rintro (rfl | rfl | h)
      · exact Or.inl hcallers
      · exact Or.inr rfl
      · exact Or.inl h
    · rintro (h | rfl)
      · exact Or.inr (Or.inr h)
      · exact Or.inr (Or.inl rfl)

theorem mem_callees_apply :
    e ∈ (g.apply s).callees n ↔ e ∈ g.callees n ∨ s.edge? = some (n, e) := by
  cases s <;> simp [apply, Step.edge?, mem_callees_addEdge, eq_comm]

theorem mem_nodes_applyAll (hcallers : .unknownCallers ∈ g.nodes) :
    n ∈ (g.applyAll steps).nodes ↔ n ∈ g.nodes ∨ ∃ s ∈ steps, n ∈ s.ends := by
  induction steps generalizing g with
  | nil => simp [applyAll]
  | cons s steps ih =>
    have hkept : .unknownCallers ∈ (g.apply s).nodes :=
      (mem_nodes_apply hcallers).2 (Or.inl hcallers)
    rw [applyAll, List.foldl_cons, ← applyAll, ih hkept, mem_nodes_apply hcallers]
    simp [or_assoc]

theorem mem_callees_applyAll :
    e ∈ (g.applyAll steps).callees n ↔
      e ∈ g.callees n ∨ ∃ s ∈ steps, s.edge? = some (n, e) := by
  induction steps generalizing g with
  | nil => simp [applyAll]
  | cons s steps ih =>
    rw [applyAll, List.foldl_cons, ← applyAll, ih, mem_callees_apply]
    simp [or_assoc]

theorem callees_apply (g : CallGraph) (s : Step) (n : Node) :
    (g.apply s).callees n = (s.edgeFrom? n).toList.foldl pushEdge (g.callees n) := by
  cases s with
  | procedure name => simp [apply, Step.edgeFrom?, Step.edge?]
  | _ =>
    simp only [apply, Step.edgeFrom?, Step.edge?, callees_addEdge, callees_addNode,
      Option.bind_some]
    split <;> rfl

/-- The calls of a node stand in the order in which steps added them first. -/
theorem callees_applyAll (g : CallGraph) (steps : List Step) (n : Node) :
    (g.applyAll steps).callees n =
      (steps.filterMap (Step.edgeFrom? n)).foldl pushEdge (g.callees n) := by
  induction steps generalizing g with
  | nil => rfl
  | cons s steps ih =>
    rw [applyAll, List.foldl_cons, ← applyAll, ih, callees_apply, List.filterMap_cons]
    cases s.edgeFrom? n <;> rfl

theorem mem_nodes_empty : n ∈ empty.nodes ↔ n = .unknownCallees ∨ n = .unknownCallers := by
  rw [mem_nodes_iff_mem_edges, eq_comm, @eq_comm _ n, or_comm, empty]
  simp only [Std.ExtTreeMap.mem_insert, Std.LawfulEqCmp.compare_eq_iff_eq,
    Std.ExtTreeMap.not_mem_empty, or_false]

theorem callees_empty (n : Node) : empty.callees n = [] := by
  simp only [callees, empty, Std.ExtTreeMap.getD_insert, Std.ExtTreeMap.getD_empty]
  split
  · rfl
  · split <;> rfl

/-- The nodes of a graph that steps build: the stand-ins and the ends of the steps. -/
theorem mem_nodes_build :
    n ∈ (build steps).nodes ↔
      (n = .unknownCallees ∨ n = .unknownCallers) ∨ ∃ s ∈ steps, n ∈ s.ends := by
  rw [build, mem_nodes_applyAll (mem_nodes_empty.2 (Or.inr rfl)), mem_nodes_empty]

/-- The calls of a node of a graph that steps build: those that the steps add. -/
theorem mem_callees_build :
    e ∈ (build steps).callees n ↔ ∃ s ∈ steps, s.edge? = some (n, e) := by
  simp [build, mem_callees_applyAll, callees_empty]

theorem callees_build (steps : List Step) (n : Node) :
    (build steps).callees n = (steps.filterMap (Step.edgeFrom? n)).foldl pushEdge [] := by
  rw [build, callees_applyAll, callees_empty]

/-- Two graphs with the same nodes and the same calls are equal. -/
theorem ext_callees {g g' : CallGraph} (hnodes : ∀ n, n ∈ g.nodes ↔ n ∈ g'.nodes)
    (hcallees : ∀ n, g.callees n = g'.callees n) : g = g' := by
  obtain ⟨edges⟩ := g
  obtain ⟨edges'⟩ := g'
  congr 1
  apply Std.ExtTreeMap.ext_getElem?
  intro n
  by_cases hn : n ∈ edges
  · have hn' : n ∈ edges' :=
      mem_nodes_iff_mem_edges.1 ((hnodes n).1 (mem_nodes_iff_mem_edges.2 hn))
    rw [Std.ExtTreeMap.getElem?_eq_some_getD hn, Std.ExtTreeMap.getElem?_eq_some_getD hn']
    exact congrArg some (hcallees n)
  · have hn' : n ∉ edges' := fun h =>
      hn (mem_nodes_iff_mem_edges.1 ((hnodes n).2 (mem_nodes_iff_mem_edges.2 h)))
    rw [Std.ExtTreeMap.getElem?_eq_none hn, Std.ExtTreeMap.getElem?_eq_none hn']

/-- What every graph that steps build has: both stand-ins, of which the callees outside make no
calls of their own. -/
structure WellFormed (g : CallGraph) : Prop where
  unknownCallees_mem : .unknownCallees ∈ g.nodes
  unknownCallers_mem : .unknownCallers ∈ g.nodes
  callees_unknownCallees : g.callees .unknownCallees = []

/-- What every step keeps. -/
structure Regular (g : CallGraph) : Prop extends WellFormed g where
  /-- Calls lead to nodes. -/
  callee_mem : ∀ n, ∀ e ∈ g.callees n, e.callee ∈ g.nodes
  /-- No call of a node is listed twice. -/
  nodup_callees : ∀ n, (g.callees n).Nodup
  /-- Only procedures are entered from outside. -/
  callees_unknownCallers : ∀ e ∈ g.callees .unknownCallers, ∃ name, e.callee = .procedure name
  /-- Only a call through a pointer carries a site: a procedure makes it, and it leads outside. -/
  site_only : ∀ n, ∀ e ∈ g.callees n, e.site ≠ none →
    e.callee = .unknownCallees ∧ ∃ name, n = .procedure name

theorem regular_empty : empty.Regular where
  unknownCallees_mem := mem_nodes_empty.2 (Or.inl rfl)
  unknownCallers_mem := mem_nodes_empty.2 (Or.inr rfl)
  callees_unknownCallees := callees_empty _
  callee_mem := by simp [callees_empty]
  nodup_callees := by simp [callees_empty]
  callees_unknownCallers := by simp [callees_empty]
  site_only := by simp [callees_empty]

/-- The calls that a step can add: by name between procedures, outside with or without a site, and
from outside. Procedures that are called are ends of the step. -/
theorem Step.edge?_cases (h : s.edge? = some (n, e)) :
    (∃ caller callee, n = .procedure caller ∧ e = { callee := .procedure callee } ∧
        .procedure callee ∈ s.ends) ∨
      (∃ caller site, n = .procedure caller ∧ e = { callee := .unknownCallees, site }) ∨
      ∃ callee, n = .unknownCallers ∧ e = { callee := .procedure callee } ∧
        .procedure callee ∈ s.ends := by
  cases s with
  | procedure name => cases h
  | call caller callee =>
    cases h
    exact Or.inl ⟨caller, callee, rfl, rfl, by simp [ends]⟩
  | indirect caller site =>
    cases h
    exact Or.inr (Or.inl ⟨caller, some site, rfl, rfl⟩)
  | escape caller =>
    cases h
    exact Or.inr (Or.inl ⟨caller, none, rfl, rfl⟩)
  | external callee =>
    cases h
    exact Or.inr (Or.inr ⟨callee, rfl, rfl, by simp [ends]⟩)

/-- A step keeps a graph regular. -/
theorem Regular.apply (h : g.Regular) (s : Step) : (g.apply s).Regular where
  unknownCallees_mem := (mem_nodes_apply h.unknownCallers_mem).2 (Or.inl h.unknownCallees_mem)
  unknownCallers_mem := (mem_nodes_apply h.unknownCallers_mem).2 (Or.inl h.unknownCallers_mem)
  callees_unknownCallees := by
    refine List.eq_nil_iff_forall_not_mem.2 fun e he => ?_
    rcases mem_callees_apply.1 he with he | hs
    · rw [h.callees_unknownCallees] at he
      cases he
    · rcases Step.edge?_cases hs with ⟨_, _, hn, -⟩ | ⟨_, _, hn, -⟩ | ⟨_, hn, -⟩ <;> cases hn
  callee_mem := by
    intro n e he
    rw [mem_nodes_apply h.unknownCallers_mem]
    rcases mem_callees_apply.1 he with he | hs
    · exact Or.inl (h.callee_mem n e he)
    · rcases Step.edge?_cases hs with ⟨_, _, -, rfl, hend⟩ | ⟨_, _, -, rfl⟩ | ⟨_, -, rfl, hend⟩
      · exact Or.inr hend
      · exact Or.inl h.unknownCallees_mem
      · exact Or.inr hend
  nodup_callees := by
    intro n
    rw [callees_apply]
    cases s.edgeFrom? n with
    | none => exact h.nodup_callees n
    | some e => exact nodup_pushEdge (h.nodup_callees n) e
  callees_unknownCallers := by
    intro e he
    rcases mem_callees_apply.1 he with he | hs
    · exact h.callees_unknownCallers e he
    · rcases Step.edge?_cases hs with ⟨_, _, hn, -⟩ | ⟨_, _, hn, -⟩ | ⟨callee, -, rfl, -⟩
      · cases hn
      · cases hn
      · exact ⟨callee, rfl⟩
  site_only := by
    intro n e he hsite
    rcases mem_callees_apply.1 he with he | hs
    · exact h.site_only n e he hsite
    · rcases Step.edge?_cases hs with ⟨_, _, -, rfl, -⟩ | ⟨caller, _, hn, rfl⟩ | ⟨_, -, rfl, -⟩
      · exact absurd rfl hsite
      · exact ⟨rfl, caller, hn⟩
      · exact absurd rfl hsite

theorem Regular.applyAll (h : g.Regular) (steps : List Step) : (g.applyAll steps).Regular := by
  induction steps generalizing g with
  | nil => exact h
  | cons s steps ih => exact ih (h.apply s)

theorem regular_build (steps : List Step) : (build steps).Regular :=
  regular_empty.applyAll steps

theorem wellFormed_build (steps : List Step) : (build steps).WellFormed :=
  (regular_build steps).toWellFormed

end LeastPrivilege.CallGraph
