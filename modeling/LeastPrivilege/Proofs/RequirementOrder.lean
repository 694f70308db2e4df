import LeastPrivilege.Proofs.Propagation

/-!
# Problems that require no more

One problem requires no more than another if the other can follow each of its calls, in any number
of steps, and knows of each of its direct requirements. A graph that grows therefore only adds
capabilities, and targets that become known only take some away, as long as code outside could have
called them.
-/

namespace LeastPrivilege

namespace CallGraph

variable {steps more : List Step} {n : Node} {e : CallEdge}

/-- Steps take no node away. -/
theorem mem_nodes_of_growth (more : List Step) (h : n ∈ (build steps).nodes) :
    n ∈ ((build steps).applyAll more).nodes :=
  (mem_nodes_applyAll (wellFormed_build steps).unknownCallers_mem).2 (Or.inl h)

/-- Steps take no call away. -/
theorem mem_callees_of_growth (more : List Step) (h : e ∈ (build steps).callees n) :
    e ∈ ((build steps).applyAll more).callees n :=
  mem_callees_applyAll.2 (Or.inl h)

theorem wellFormed_applyAll (steps more : List Step) :
    ((build steps).applyAll more).WellFormed :=
  ((regular_build steps).applyAll more).toWellFormed

end CallGraph

namespace Propagation

namespace Problem

variable {q r : Problem} {c : Capability} {n : Node} {name : String}

/-- A problem within another: its nodes are there, its calls can be followed there, and what its
nodes require themselves they require there too. -/
structure Within (q r : Problem) : Prop where
  nodes : ∀ n ∈ q.graph.nodes, n ∈ r.graph.nodes
  leads : ∀ n m, q.Leads n m → Relation.ReflTransGen r.Leads n m
  owns : ∀ c n, q.Owns c n → r.Owns c n

theorem Within.requires (h : q.Within r) (hreq : q.Requires c n) : r.Requires c n := by
  obtain ⟨m, hreach, hown⟩ := hreq
  exact ⟨m, Relation.reflTransGen_closed h.leads n m hreach, h.owns c m hown⟩

theorem Within.exists_subset (h : q.Within r) (hq : q.graph.WellFormed) (hr : r.graph.WellFormed)
    (hname : .procedure name ∈ q.graph.nodes ∨ .procedure name ∈ q.direct)
    (hname' : .procedure name ∈ r.graph.nodes ∨ .procedure name ∈ r.direct) :
    ∃ s s', (run q).requirements[Node.procedure name]? = some s ∧
      (run r).requirements[Node.procedure name]? = some s' ∧ s ⊆ s' := by
  obtain ⟨s, hs, hc⟩ := getElem?_requirements_run hq hname
  obtain ⟨s', hs', hc'⟩ := getElem?_requirements_run hr hname'
  refine ⟨s, s', hs, hs', fun c hmem => ?_⟩
  exact (hc' c).2 (h.requires ((hc c).1 hmem))

theorem Within.unknown_subset (h : q.Within r) (hq : q.graph.WellFormed)
    (hr : r.graph.WellFormed) :
    (run q).unknownCallees ⊆ (run r).unknownCallees ∧
      (run q).unknownCallers ⊆ (run r).unknownCallers := by
  constructor
  · intro c hc
    exact (mem_unknownCallees_run hr).2 (h.requires ((mem_unknownCallees_run hq).1 hc))
  · intro c hc
    exact (mem_unknownCallers_run hr).2 (h.requires ((mem_unknownCallers_run hq).1 hc))

end Problem

open Problem (Within)

/-! ## Graphs that grow -/

theorem within_growth {steps more : List CallGraph.Step} {resolver : Resolver} {entry : String}
    {direct direct' : RequirementTable}
    (hdirect : ∀ n ∈ (CallGraph.build steps).nodes, direct.requirement n ⊆ direct'.requirement n) :
    Within { graph := .build steps, resolver, entry, direct }
      { graph := (CallGraph.build steps).applyAll more, resolver, entry, direct := direct' } where
  nodes n hn := CallGraph.mem_nodes_of_growth more hn
  leads n m h := by
    refine .single ?_
    cases h with
    | call hedge hentry => exact .call (CallGraph.mem_callees_of_growth more hedge) hentry
    | resolved hedge htargets hmem hnode hentry =>
      exact .resolved (CallGraph.mem_callees_of_growth more hedge) htargets hmem
        (CallGraph.mem_nodes_of_growth more hnode) hentry
    | unresolved hedge hnone => exact .unresolved (CallGraph.mem_callees_of_growth more hedge) hnone
    | callBack => exact .callBack
  owns c n := by
    rintro ⟨hn, hne, hc⟩
    exact ⟨CallGraph.mem_nodes_of_growth more hn, hne, hdirect n hn c hc⟩

/-- Propagation is monotone. If a graph is built further, by whatever steps, and its nodes come to
require more themselves, then every procedure that it had requires at least what it did before, and
so do both stand-ins. -/
theorem run_mono (steps more : List CallGraph.Step) (resolver : Resolver) (entry : String)
    (direct direct' : RequirementTable)
    (hdirect : ∀ n ∈ (CallGraph.build steps).nodes, direct.requirement n ⊆ direct'.requirement n) :
    let q : Problem := { graph := .build steps, resolver, entry, direct }
    let q' : Problem :=
      { graph := (CallGraph.build steps).applyAll more, resolver, entry, direct := direct' }
    (∀ name, .procedure name ∈ q.graph.nodes →
      ∃ s s', (run q).requirements[Node.procedure name]? = some s ∧
        (run q').requirements[Node.procedure name]? = some s' ∧ s ⊆ s') ∧
    (run q).unknownCallees ⊆ (run q').unknownCallees ∧
    (run q).unknownCallers ⊆ (run q').unknownCallers := by
  intro q q'
  have hwithin : q.Within q' := within_growth hdirect
  have hq : q.graph.WellFormed := CallGraph.wellFormed_build steps
  have hq' : q'.graph.WellFormed := CallGraph.wellFormed_applyAll steps more
  refine ⟨fun name hname => ?_, hwithin.unknown_subset hq hq'⟩
  exact hwithin.exists_subset hq hq' (Or.inl hname) (Or.inl (hwithin.nodes _ hname))

/-- A worker that calls nothing, and a handler that nothing calls. -/
def quietSteps : List CallGraph.Step :=
  [.call "main" "worker", .procedure "handler"]

/-- The worker comes to call through a pointer, and the handler to be called from outside. -/
def wakingSteps : List CallGraph.Step :=
  [.indirect "worker" 1, .external "handler"]

/-- The handler requires one capability. -/
def quietDirect : RequirementTable :=
  .add ∅ (.procedure "handler") (.single .sysTime)

/-- The worker comes to require one as well. -/
def wakingDirect : RequirementTable :=
  quietDirect.add (.procedure "worker") (.single .kill)

/-- The worker comes to require its own capability and that of the handler. -/
theorem run_mono_sample :
    let before := run
      { graph := .build quietSteps, resolver := .unknown, entry := "main", direct := quietDirect }
    let after := run
      { graph := (CallGraph.build quietSteps).applyAll wakingSteps, resolver := .unknown,
        entry := "main", direct := wakingDirect }
    before.requirements[Node.procedure "worker"]? = some ∅ ∧
      after.requirements[Node.procedure "worker"]? = some (.ofList [.kill, .sysTime]) ∧
      (∃ s s', before.requirements[Node.procedure "handler"]? = some s ∧
        after.requirements[Node.procedure "handler"]? = some s' ∧ s ⊆ s') ∧
      before.unknownCallees ⊆ after.unknownCallees := by
  intro before after
  have hdirect : ∀ n ∈ (CallGraph.build quietSteps).nodes,
      quietDirect.requirement n ⊆ wakingDirect.requirement n := by decide +kernel
  obtain ⟨hgrow, hcallees, -⟩ :=
    run_mono quietSteps wakingSteps .unknown "main" quietDirect wakingDirect hdirect
  exact ⟨by decide +kernel, by decide +kernel, hgrow "handler" (by decide +kernel), hcallees⟩

/-! ## Targets that become known -/

/-- A known target that code outside could have called is reached without knowing it, by way of the
stand-ins. -/
theorem within_unknown {g : CallGraph} {resolver : Resolver} {entry : String}
    {direct : RequirementTable}
    (hresolver : ∀ caller site targets, resolver caller site = some targets → ∀ name ∈ targets,
      name = entry ∨ .procedure name ∉ g.nodes ∨
        ∃ site, ⟨.procedure name, site⟩ ∈ g.callees .unknownCallers) :
    Within { graph := g, resolver, entry, direct }
      { graph := g, resolver := .unknown, entry, direct } where
  nodes _ hn := hn
  leads n m h := by
    cases h with
    | call hedge hentry => exact .single (.call hedge hentry)
    | @resolved caller name site targets hedge htargets hmem hnode hentry =>
      obtain ⟨site', hentered⟩ : ∃ site, ⟨.procedure name, site⟩ ∈ g.callees .unknownCallers :=
        ((hresolver caller site targets htargets name hmem).resolve_left hentry).resolve_left
          (not_not_intro hnode)
      exact .head (.unresolved hedge fun _ _ _ _ => rfl)
        (.head .callBack (.single (.call hentered hentry)))
    | unresolved hedge _ => exact .single (.unresolved hedge fun _ _ _ _ => rfl)
    | callBack => exact .single .callBack
  owns _ _ h := h

/-- Knowing all targets of calls through pointers never adds a capability. If each known target is
the entry, no node of the graph, or entered from outside, then every procedure requires at most what
it requires when no target is known, and so do both stand-ins. -/
theorem run_subset_unknown (steps : List CallGraph.Step) (resolver : Resolver) (entry : String)
    (direct : RequirementTable)
    (hresolver : ∀ caller site targets, resolver caller site = some targets → ∀ name ∈ targets,
      name = entry ∨ .procedure name ∉ (CallGraph.build steps).nodes ∨
        ∃ site, ⟨.procedure name, site⟩ ∈ (CallGraph.build steps).callees .unknownCallers) :
    let q : Problem := { graph := .build steps, resolver, entry, direct }
    let q' : Problem := { graph := .build steps, resolver := .unknown, entry, direct }
    (∀ name, .procedure name ∈ (CallGraph.build steps).nodes ∨ .procedure name ∈ direct →
      ∃ s s', (run q).requirements[Node.procedure name]? = some s ∧
        (run q').requirements[Node.procedure name]? = some s' ∧ s ⊆ s') ∧
    (run q).unknownCallees ⊆ (run q').unknownCallees ∧
    (run q).unknownCallers ⊆ (run q').unknownCallers := by
  intro q q'
  have hwithin : q.Within q' := within_unknown hresolver
  have hg : (CallGraph.build steps).WellFormed := CallGraph.wellFormed_build steps
  refine ⟨fun name hname => ?_, hwithin.unknown_subset hg hg⟩
  exact hwithin.exists_subset hg hg hname hname

/-- A call through a pointer, and two procedures that code outside may call. -/
def dispatchSteps : List CallGraph.Step :=
  [.indirect "dispatch" 1, .external "handler", .external "logger", .procedure "main"]

/-- The two procedures require one capability each. -/
def dispatchDirect : RequirementTable :=
  RequirementTable.add (.add ∅ (.procedure "handler") (.single .setuid))
    (.procedure "logger") (.single .kill)

/-- The call may enter one of the two, the entry, or a procedure that the graph does not have. -/
def dispatchTargets : List String :=
  ["main", "handler", "absent"]

/-- A call whose targets become known loses what the other procedure requires. -/
theorem run_subset_unknown_sample :
    let outcome := fun resolver => run
      { graph := .build dispatchSteps, resolver, entry := "main", direct := dispatchDirect }
    let known := outcome fun _ _ => some dispatchTargets
    let unknown := outcome .unknown
    known.requirements[Node.procedure "dispatch"]? = some (.single .setuid) ∧
      unknown.requirements[Node.procedure "dispatch"]? = some (.ofList [.kill, .setuid]) ∧
      (∃ s s', known.requirements[Node.procedure "dispatch"]? = some s ∧
        unknown.requirements[Node.procedure "dispatch"]? = some s' ∧ s ⊆ s') ∧
      known.unknownCallees ⊆ unknown.unknownCallees := by
  intro outcome known unknown
  have htargets : ∀ name ∈ dispatchTargets, name = "main" ∨
      .procedure name ∉ (CallGraph.build dispatchSteps).nodes ∨
        ∃ site, ⟨.procedure name, site⟩ ∈
          (CallGraph.build dispatchSteps).callees .unknownCallers := by
    intro name hname
    simp only [dispatchTargets, List.mem_cons, List.not_mem_nil, or_false] at hname
    rcases hname with rfl | rfl | rfl
    · exact Or.inl rfl
    · exact Or.inr (Or.inr ⟨none, by decide +kernel⟩)
    · exact Or.inr (Or.inl (by decide +kernel))
  obtain ⟨hnarrow, hcallees, -⟩ := run_subset_unknown dispatchSteps
    (fun _ _ => some dispatchTargets) "main" dispatchDirect
    (fun _ _ _ h => Option.some.inj h ▸ htargets)
  exact ⟨by decide +kernel, by decide +kernel,
    hnarrow "dispatch" (Or.inl (by decide +kernel)), hcallees⟩

end Propagation

end LeastPrivilege
