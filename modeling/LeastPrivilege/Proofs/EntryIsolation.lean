import LeastPrivilege.Proofs.Analysis

/-!
# What the entry requires stays with it

No call leads to the entry, so its place in the table is never read. Two propagations that differ in
what the entry calls and requires itself therefore go on in step: after every pass their tables
agree on all other nodes, also when one of them is quiet earlier than the other.
-/

namespace LeastPrivilege

namespace RequirementTable

/-- Two tables give the same set to every node but one. -/
def AgreeOff (x : Node) (t u : RequirementTable) : Prop :=
  ∀ n, n ≠ x → t.requirement n = u.requirement n

variable {x : Node} {t u : RequirementTable}

theorem AgreeOff.add (h : AgreeOff x t u) (n : Node) (s : CapabilitySet) :
    AgreeOff x (t.add n s) (u.add n s) := by
  intro m hm
  rw [requirement_add, requirement_add, h m hm]

/-- What is added to the node itself does not matter. -/
theorem AgreeOff.add_self (h : AgreeOff x t u) (s s' : CapabilitySet) :
    AgreeOff x (t.add x s) (u.add x s') := by
  intro m hm
  rw [requirement_add, requirement_add, if_neg (Ne.symm hm), if_neg (Ne.symm hm), h m hm]

end RequirementTable

namespace Propagation

namespace Problem

open RequirementTable (AgreeOff)

variable {q r : Problem} {n m : Node} {t u : RequirementTable}

/-! ## No call leads to the entry -/

theorem entry_not_mem_successors (q : Problem) (n : Node) (e : CallEdge) :
    .procedure q.entry ∉ q.successors n e := by
  obtain ⟨callee, site⟩ := e
  cases callee with
  | unknownCallers => simp [successors]
  | procedure name =>
    by_cases hentry : name = q.entry
    · simp [successors, hentry]
    · simp [successors, hentry, Ne.symm hentry]
  | unknownCallees =>
    simp only [successors]
    split
    · split
      · simp
      · simp
    · simp

theorem entry_not_mem_successorsOf (q : Problem) (n : Node) :
    .procedure q.entry ∉ q.successorsOf n := by
  intro h
  obtain ⟨e, -, he⟩ := List.mem_flatMap.1 h
  exact entry_not_mem_successors q n e he

/-! ## Two problems in step -/

/-- Two problems that differ at most in what the entry calls and in what it requires itself. -/
structure SameOffEntry (q r : Problem) : Prop where
  resolver_eq : q.resolver = r.resolver
  entry_eq : q.entry = r.entry
  nodes : ∀ n, n ∈ q.graph.nodes ↔ n ∈ r.graph.nodes
  callees : ∀ n, n ≠ .procedure q.entry → ∀ e, e ∈ q.graph.callees n ↔ e ∈ r.graph.callees n
  direct : AgreeOff (.procedure q.entry) q.direct r.direct

namespace SameOffEntry

theorem successors_eq (h : q.SameOffEntry r) (n : Node) (e : CallEdge) :
    q.successors n e = r.successors n e := by
  rw [successors, successors, h.resolver_eq, h.entry_eq]

theorem mem_successorsOf (h : q.SameOffEntry r) (hn : n ≠ .procedure q.entry) :
    m ∈ q.successorsOf n ↔ m ∈ r.successorsOf n := by
  simp only [successorsOf, List.mem_flatMap, h.callees n hn, h.successors_eq]

theorem required_eq (h : q.SameOffEntry r) (ht : AgreeOff (.procedure q.entry) t u)
    (hn : n ≠ .procedure q.entry) : q.required t n = r.required u n := by
  apply CapabilitySet.ext
  intro c
  rw [mem_required, mem_required, h.direct n hn]
  refine or_congr_right (exists_congr fun m => ?_)
  rw [← h.mem_successorsOf hn]
  refine and_congr_right fun hm => ?_
  rw [ht m]
  rintro rfl
  exact entry_not_mem_successorsOf q n hm

theorem extend (h : q.SameOffEntry r) (ht : AgreeOff (.procedure q.entry) t u) (n : Node) :
    AgreeOff (.procedure q.entry) (q.extend t n) (r.extend u n) := by
  rw [Problem.extend, Problem.extend]
  split
  · exact ht
  · by_cases hn : n = .procedure q.entry
    · subst hn
      exact ht.add_self _ _
    · rw [h.required_eq ht hn]
      exact ht.add n _

theorem foldl_extend (h : q.SameOffEntry r) (ht : AgreeOff (.procedure q.entry) t u)
    (nodes : List Node) :
    AgreeOff (.procedure q.entry) (nodes.foldl q.extend t) (nodes.foldl r.extend u) := by
  induction nodes generalizing t u with
  | nil => exact ht
  | cons n nodes ih => exact ih (h.extend ht n)

theorem round (h : q.SameOffEntry r) (ht : AgreeOff (.procedure q.entry) t u) :
    AgreeOff (.procedure q.entry) (q.round t) (r.round u) := by
  have hvisits := h.foldl_extend ht q.graph.nodes
  rw [Problem.round, Problem.round, ← CallGraph.nodes_eq_of_mem_iff h.nodes]
  simp only [hvisits .unknownCallers Node.noConfusion]
  exact hvisits.add .unknownCallees _

theorem iterate_round (h : q.SameOffEntry r) (ht : AgreeOff (.procedure q.entry) t u) (k : Nat) :
    AgreeOff (.procedure q.entry) (q.round^[k] t) (r.round^[k] u) := by
  induction k generalizing t u with
  | zero => exact ht
  | succ k ih => exact ih (h.round ht)

theorem passLimit_eq (h : q.SameOffEntry r) : q.passLimit = r.passLimit := by
  rw [passLimit, passLimit, ← CallGraph.length_nodes, ← CallGraph.length_nodes,
    CallGraph.nodes_eq_of_mem_iff h.nodes]

end SameOffEntry

/-! ## The last table -/

theorem agreeOff_start (x : Node) (q r : Problem) : AgreeOff x q.start r.start := by
  intro n _
  apply CapabilitySet.ext
  intro c
  exact iff_of_false not_mem_requirement_start not_mem_requirement_start

theorem Complete.mem_round_of_ne (ht : q.Complete t) (hn : n ≠ .unknownCallees) :
    n ∈ q.round t ↔ n ∈ t :=
  (RequirementTable.mem_add.trans (or_iff_right hn)).trans (mem_foldl_extend ht)

theorem Complete.round (ht : q.Complete t) : q.Complete (q.round t) := by
  intro n hn
  by_cases hcallees : n = .unknownCallees
  · exact RequirementTable.mem_add.2 (Or.inl hcallees)
  · exact (ht.mem_round_of_ne hcallees).2 (ht n hn)

theorem Complete.mem_iterate_round (ht : q.Complete t) (hn : n ≠ .unknownCallees) (k : Nat) :
    n ∈ q.round^[k] t ↔ n ∈ t := by
  induction k generalizing t with
  | zero => rfl
  | succ k ih => exact (ih ht.round).trans (ht.mem_round_of_ne hn)

/-- The last table of two problems in step agrees off the entry. -/
theorem SameOffEntry.settled (h : q.SameOffEntry r) :
    AgreeOff (.procedure q.entry) q.settled.1.input r.settled.1.input := by
  intro n hn
  rw [Problem.settled, Problem.settled, requirement_iterate rfl rfl, requirement_iterate rfl rfl,
    ← h.passLimit_eq]
  exact h.iterate_round (agreeOff_start _ q r) q.passLimit n hn

end Problem

variable {q : Problem} {name : String}

theorem requirement_requirements_run (q : Problem) (name : String) :
    (run q).requirements.requirement (.procedure name) =
      q.settled.1.input.requirement (.procedure name) := by
  rw [requirements_run, RequirementTable.requirement, RequirementTable.requirement,
    Std.ExtTreeMap.getD_eq_getD_getElem?, Std.ExtTreeMap.getD_eq_getD_getElem?,
    Std.ExtTreeMap.getElem?_filter']
  cases q.settled.1.input[Node.procedure name]? <;> rfl

/-- The procedures of the outcome, whatever the graph. -/
theorem procedure_mem_requirements_run :
    .procedure name ∈ (run q).requirements ↔
      .procedure name ∈ q.graph.nodes ∨ .procedure name ∈ q.direct := by
  have hstart : q.Complete q.start := fun n hn => Problem.mem_start.2 (Or.inl hn)
  obtain ⟨k, hk⟩ := Problem.exists_input_iterate (q := q)
    (s := { input := q.start, output := q.start }) rfl rfl q.passLimit
  rw [← Problem.mem_start, ← hstart.mem_iterate_round Node.noConfusion k, ← hk, requirements_run,
    Std.ExtTreeMap.mem_filter]
  simp [Node.procedure?, Problem.settled]

theorem getElem?_requirements_eq {r : Problem}
    (hmem : .procedure name ∈ (run q).requirements ↔ .procedure name ∈ (run r).requirements)
    (hset : (run q).requirements.requirement (.procedure name) =
      (run r).requirements.requirement (.procedure name)) :
    (run q).requirements[Node.procedure name]? = (run r).requirements[Node.procedure name]? := by
  by_cases hq : .procedure name ∈ (run q).requirements
  · rw [RequirementTable.getElem?_eq_some_requirement hq,
      RequirementTable.getElem?_eq_some_requirement (hmem.1 hq), hset]
  · rw [Std.ExtTreeMap.getElem?_eq_none hq, Std.ExtTreeMap.getElem?_eq_none (mt hmem.2 hq)]

/-- What the entry calls and requires itself shows at the entry and nowhere else. Let two graphs
have the same nodes and, but for those of the entry, the same calls, and let two tables agree on
what every other node requires itself. Then every other procedure requires the same, and so does the
code outside; the same procedures can be entered from there. The outcomes also list the same
procedures, as far as these are in the graphs or the tables list the same. -/
theorem entry_never_leaks (resolver : Resolver) (entry : String) (g g' : CallGraph)
    (direct direct' : RequirementTable) (hnodes : ∀ n, n ∈ g.nodes ↔ n ∈ g'.nodes)
    (hcallees : ∀ n, n ≠ .procedure entry → ∀ e, e ∈ g.callees n ↔ e ∈ g'.callees n)
    (hdirect : ∀ n, n ≠ .procedure entry → direct.requirement n = direct'.requirement n) :
    let a := run { graph := g, resolver, entry, direct }
    let b := run { graph := g', resolver, entry, direct := direct' }
    (∀ name, name ≠ entry → a.requirements.requirement (.procedure name) =
      b.requirements.requirement (.procedure name)) ∧
    (∀ name, name ≠ entry →
      .procedure name ∈ g.nodes ∨ (.procedure name ∈ direct ↔ .procedure name ∈ direct') →
      a.requirements[Node.procedure name]? = b.requirements[Node.procedure name]?) ∧
    a.unknownCallees = b.unknownCallees ∧ a.unknownCallers = b.unknownCallers ∧
    a.externallyCallable = b.externallyCallable := by
  intro a b
  have hsame : Problem.SameOffEntry { graph := g, resolver, entry, direct }
      { graph := g', resolver, entry, direct := direct' } :=
    ⟨rfl, rfl, hnodes, hcallees, hdirect⟩
  have htables := hsame.settled
  have hsets : ∀ name, name ≠ entry → a.requirements.requirement (.procedure name) =
      b.requirements.requirement (.procedure name) := by
    intro name hname
    rw [requirement_requirements_run, requirement_requirements_run]
    exact htables _ fun h => hname (Node.procedure.inj h)
  refine ⟨hsets, ?_, htables _ Node.noConfusion, htables _ Node.noConfusion, ?_⟩
  · intro name hname hlisted
    refine getElem?_requirements_eq ?_ (hsets name hname)
    rw [procedure_mem_requirements_run, procedure_mem_requirements_run, ← hnodes]
    rcases hlisted with hnode | hlisted
    · exact iff_of_true (Or.inl hnode) (Or.inl hnode)
    · exact or_congr_right hlisted
  · apply Std.ExtTreeSet.ext_mem
    intro name
    simp only [a, b, run, CallGraph.mem_externallyCallable,
      hcallees .unknownCallers Node.noConfusion]

/-- The entry is called by name, through a pointer with known targets and from outside, and calls
one procedure itself. -/
def entrySteps (callee : String) : List CallGraph.Step :=
  [.call "restart" "main", .indirect "restart" 0, .external "main", .call "main" callee,
    .procedure "worker", .procedure "helper"]

/-- The worker requires one capability, and the entry the given ones. -/
def entryDirect (s : CapabilitySet) : RequirementTable :=
  RequirementTable.add (.add ∅ (.procedure "worker") (.single .chown)) (.procedure "main") s

/-- Whatever its entry calls and requires, the sample restarts with the capability of its worker. -/
theorem entry_never_leaks_sample :
    let outcome := fun callee s => run
      { graph := .build (entrySteps callee), resolver := fun _ _ => some ["main", "worker"],
        entry := "main", direct := entryDirect s }
    let busy := outcome "worker" (.single .sysAdmin)
    let idle := outcome "helper" ∅
    busy.requirements[Node.procedure "main"]? = some (.ofList [.chown, .sysAdmin]) ∧
      idle.requirements[Node.procedure "main"]? = some ∅ ∧
      busy.requirements[Node.procedure "restart"]? = some (.single .chown) ∧
      idle.requirements[Node.procedure "restart"]? = some (.single .chown) ∧
      busy.unknownCallers = idle.unknownCallers := by
  intro outcome busy idle
  have hnodes : (CallGraph.build (entrySteps "worker")).nodes =
      (CallGraph.build (entrySteps "helper")).nodes := by decide +kernel
  have hcallees : ∀ n, n ≠ .procedure "main" → ∀ e,
      e ∈ (CallGraph.build (entrySteps "worker")).callees n ↔
        e ∈ (CallGraph.build (entrySteps "helper")).callees n := by
    intro n hn e
    simp [CallGraph.mem_callees_build, entrySteps, CallGraph.Step.edge?, Ne.symm hn]
  have hdirect : ∀ n, n ≠ .procedure "main" → (entryDirect (.single .sysAdmin)).requirement n =
      (entryDirect ∅).requirement n := by
    intro n hn
    simp [entryDirect, Ne.symm hn]
  have hrestart : busy.requirements[Node.procedure "restart"]? = some (.single .chown) := by
    decide +kernel
  obtain ⟨-, hsame, -, hcallers, -⟩ := entry_never_leaks (fun _ _ => some ["main", "worker"]) "main"
    _ _ _ _ (fun n => by rw [hnodes]) hcallees hdirect
  refine ⟨by decide +kernel, by decide +kernel, hrestart, ?_, hcallers⟩
  rw [← hrestart]
  exact (hsame "restart" (by decide) (Or.inl (by decide +kernel))).symm

end Propagation

end LeastPrivilege
