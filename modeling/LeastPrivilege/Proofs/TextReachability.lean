import LeastPrivilege.Proofs.Extraction
import LeastPrivilege.Proofs.ProgramGraph
import LeastPrivilege.Proofs.Reachability
import LeastPrivilege.Report

/-!
# Reachability on the text of a program

Where the calls of a program lead can be said without a graph: to definitions by name, or outside,
from where the program can be entered again. The graph of the program has more nodes, but it makes
the same definitions reachable from each other.
-/

namespace LeastPrivilege

/-- Where control can be: in a definition of the program, or outside of it. -/
inductive Place where
  | inside (name : String)
  | outside

/-- A node that stands for a place. -/
def Place.node : Place → Node
  | .inside name => .procedure name
  | .outside => .unknownCallees

namespace Program

variable {settings : Settings} {p : Program} {resolver : Resolver} {direct : LocalRequirements}
  {c : Capability} {d : Procedure} {name : String} {a b : Place} {n m : Node}

/-- A procedure that the program does not define, but of which the analysis knows: it is declared,
or the program is without it and calls it by name. -/
def IsKnownOutside (settings : Settings) (p : Program) (name : String) : Prop :=
  (∃ d ∈ p.procedures, d.name = name ∧ d.isDeclaration = true) ∨
    (∀ d ∈ p.procedures, d.name ≠ name) ∧ p.IsCalled settings name

/-- Where control can go next. No call leads to the entry. -/
inductive Leads (settings : Settings) (p : Program) (resolver : Resolver) : Place → Place → Prop
  /-- A call by name leads to an analysed definition. -/
  | call {d : Procedure} {c : Call} {target : String} (hd : d ∈ p.analysed settings)
      (hc : c ∈ d.calls) (hcallee : c.callee = .direct target)
      (hname : target ∉ settings.intrinsics) (hentry : target ≠ settings.entry)
      (hin : p.IsAnalysed settings target) :
      Leads settings p resolver (.inside d.name) (.inside target)
  /-- A call by name of anything else leads outside. -/
  | callOut {d : Procedure} {c : Call} {target : String} (hd : d ∈ p.analysed settings)
      (hc : c ∈ d.calls) (hcallee : c.callee = .direct target)
      (hname : target ∉ settings.intrinsics) (hentry : target ≠ settings.entry)
      (hout : ¬p.IsAnalysed settings target) :
      Leads settings p resolver (.inside d.name) .outside
  /-- A call through a pointer with known targets leads to those that are analysed. -/
  | resolved {d : Procedure} {c : Call} {site : UInt32} {targets : List String} {target : String}
      (hd : d ∈ p.analysed settings) (hc : c ∈ d.calls) (hcallee : c.callee = .indirect site)
      (htargets : resolver d.name site = some targets) (hmem : target ∈ targets)
      (hentry : target ≠ settings.entry) (hin : p.IsAnalysed settings target) :
      Leads settings p resolver (.inside d.name) (.inside target)
  /-- It leads outside if a target is known to be there. -/
  | resolvedOut {d : Procedure} {c : Call} {site : UInt32} {targets : List String}
      {target : String} (hd : d ∈ p.analysed settings) (hc : c ∈ d.calls)
      (hcallee : c.callee = .indirect site) (htargets : resolver d.name site = some targets)
      (hmem : target ∈ targets) (hname : target ∉ settings.intrinsics)
      (hentry : target ≠ settings.entry) (hout : p.IsKnownOutside settings target) :
      Leads settings p resolver (.inside d.name) .outside
  /-- Any other call through a pointer leads outside. -/
  | unresolved {d : Procedure} {c : Call} {site : UInt32} (hd : d ∈ p.analysed settings)
      (hc : c ∈ d.calls) (hcallee : c.callee = .indirect site)
      (hnone : resolver d.name site = none) :
      Leads settings p resolver (.inside d.name) .outside
  /-- From outside the program is entered where it can be. -/
  | enter {d : Procedure} (hd : d ∈ p.analysed settings) (hentry : d.name ≠ settings.entry)
      (henter : p.IsEntered d) : Leads settings p resolver .outside (.inside d.name)

/-- Control can come from a place to a definition that handles a capability. -/
def Requires (settings : Settings) (p : Program) (resolver : Resolver) (c : Capability)
    (a : Place) : Prop :=
  ∃ d ∈ p.analysed settings,
    Relation.ReflTransGen (p.Leads settings resolver) a (.inside d.name) ∧ d.Handles settings c

theorem Leads.requires (h : p.Leads settings resolver a b)
    (hb : p.Requires settings resolver c b) : p.Requires settings resolver c a := by
  obtain ⟨d, hd, hreach, hc⟩ := hb
  exact ⟨d, hd, .head h hreach, hc⟩

/-- The propagation that the analysis of a program carries out. -/
def problem (settings : Settings) (p : Program) (resolver : Resolver)
    (direct : LocalRequirements) : Propagation.Problem :=
  { graph := .ofProgram settings p, resolver, entry := settings.entry,
    direct := direct.procedures }

theorem IsAnalysed.mem_nodes (h : p.IsAnalysed settings name) :
    .procedure name ∈ (CallGraph.ofProgram settings p).nodes := by
  obtain ⟨d, hd, rfl⟩ := h
  obtain ⟨hdef, hname⟩ := mem_analysed.1 hd
  exact CallGraph.procedure_mem_nodes_ofProgram.2
    ⟨hname, Or.inl ⟨d, (mem_definitions.1 hdef).1, rfl⟩⟩

/-- A procedure with an intrinsic name is no node, so that nothing is known to be required by it. -/
theorem not_requires_intrinsic (hname : name ∈ settings.intrinsics) :
    ¬(p.problem settings resolver direct).Requires c (.procedure name) := by
  intro h
  have hnode := h.mem_nodes (CallGraph.wellFormed_ofProgram settings p)
  exact (CallGraph.procedure_mem_nodes_ofProgram.1 hnode).1 hname

theorem owns_iff (hdirect : LocalRequirements.ofProgram settings p = .ok direct) :
    (p.problem settings resolver direct).Owns c n ↔
      ∃ d ∈ p.analysed settings, n = .procedure d.name ∧ d.Handles settings c := by
  constructor
  · rintro ⟨hnode, -, hc⟩
    cases n with
    | procedure name =>
      obtain ⟨d, hd, rfl, hhandles⟩ := (LocalRequirements.mem_requirement_ofProgram hdirect).1 hc
      have hname := (CallGraph.procedure_mem_nodes_ofProgram.1 hnode).1
      exact ⟨d, mem_analysed.2 ⟨hd, hname⟩, rfl, hhandles⟩
    | unknownCallees =>
      simp [problem, LocalRequirements.requirement_standIn hdirect] at hc
    | unknownCallers =>
      simp [problem, LocalRequirements.requirement_standIn hdirect] at hc
  · rintro ⟨d, hd, rfl, hhandles⟩
    refine ⟨IsAnalysed.mem_nodes ⟨d, hd, rfl⟩, by simp, ?_⟩
    exact (LocalRequirements.mem_requirement_ofProgram hdirect).2
      ⟨d, (mem_analysed.1 hd).1, rfl, hhandles⟩

/-! ## From the text to the graph -/

/-- A procedure in the graph that is not analysed is known to be outside. -/
theorem isKnownOutside_of_mem_nodes
    (hnode : .procedure name ∈ (CallGraph.ofProgram settings p).nodes)
    (hout : ¬p.IsAnalysed settings name) : p.IsKnownOutside settings name := by
  obtain ⟨hname, hwhere⟩ := CallGraph.procedure_mem_nodes_ofProgram.1 hnode
  by_cases hin : ∃ d ∈ p.procedures, d.name = name
  · obtain ⟨d, hd, rfl⟩ := hin
    refine Or.inl ⟨d, hd, rfl, ?_⟩
    by_contra hbody
    refine hout ⟨d, mem_analysed.2 ⟨mem_definitions.2 ⟨hd, ?_⟩, hname⟩, rfl⟩
    simpa [Procedure.isDefinition] using hbody
  · exact Or.inr ⟨fun d hd h => hin ⟨d, hd, h⟩, hwhere.resolve_left hin⟩

theorem IsKnownOutside.mem_nodes (h : p.IsKnownOutside settings name)
    (hname : name ∉ settings.intrinsics) :
    .procedure name ∈ (CallGraph.ofProgram settings p).nodes := by
  refine CallGraph.procedure_mem_nodes_ofProgram.2 ⟨hname, ?_⟩
  rcases h with ⟨d, hd, rfl, -⟩ | ⟨-, hcalled⟩
  · exact Or.inl ⟨d, hd, rfl⟩
  · exact Or.inr hcalled

/-- A procedure that is known to be outside escapes. -/
theorem IsKnownOutside.escapes (h : p.IsKnownOutside settings name)
    (hname : name ∉ settings.intrinsics) : CallGraph.ProgramStep settings p (.escape name) := by
  rcases h with ⟨d, hd, rfl, hbody⟩ | ⟨hnone, hcalled⟩
  · exact .declared hd hname hbody
  · exact .missing hcalled hname hnone

theorem IsKnownOutside.leads (h : p.IsKnownOutside settings name)
    (hname : name ∉ settings.intrinsics) :
    (p.problem settings resolver direct).Leads (.procedure name) .unknownCallees :=
  .unresolved (CallGraph.mem_callees_ofProgram.2 ⟨_, h.escapes hname, rfl⟩) (by simp)

/-- A step on the text carries a requirement back on the graph, too. -/
theorem Leads.requires_node (h : p.Leads settings resolver a b)
    (hb : (p.problem settings resolver direct).Requires c b.node) :
    (p.problem settings resolver direct).Requires c a.node := by
  cases h with
  | call hd hc hcallee hname hentry hin =>
    have hedge := CallGraph.mem_callees_ofProgram.2 ⟨_, .call hd hc hcallee hname, rfl⟩
    exact (Propagation.Problem.Leads.call hedge hentry).requires hb
  | callOut hd hc hcallee hname hentry hout =>
    have hedge := CallGraph.mem_callees_ofProgram.2 ⟨_, .call hd hc hcallee hname, rfl⟩
    have hnode := CallGraph.procedure_mem_nodes_ofProgram.2
      ⟨hname, Or.inr ⟨_, hd, _, hc, hcallee⟩⟩
    -- The graph takes two steps: to the procedure, and from there to the callees outside.
    have hknown := isKnownOutside_of_mem_nodes hnode hout
    exact (Propagation.Problem.Leads.call hedge hentry).requires ((hknown.leads hname).requires hb)
  | resolved hd hc hcallee htargets hmem hentry hin =>
    have hedge := CallGraph.mem_callees_ofProgram.2 ⟨_, .indirect hd hc hcallee, rfl⟩
    exact (Propagation.Problem.Leads.resolved hedge htargets hmem hin.mem_nodes hentry).requires hb
  | resolvedOut hd hc hcallee htargets hmem hname hentry hout =>
    have hedge := CallGraph.mem_callees_ofProgram.2 ⟨_, .indirect hd hc hcallee, rfl⟩
    have hnode := hout.mem_nodes hname
    exact (Propagation.Problem.Leads.resolved hedge htargets hmem hnode hentry).requires
      ((hout.leads hname).requires hb)
  | unresolved hd hc hcallee hnone =>
    have hedge := CallGraph.mem_callees_ofProgram.2 ⟨_, .indirect hd hc hcallee, rfl⟩
    refine (Propagation.Problem.Leads.unresolved hedge ?_).requires hb
    rintro _ _ ⟨⟩ ⟨⟩
    exact hnone
  | enter hd hentry henter =>
    have hedge := CallGraph.mem_callees_ofProgram.2 ⟨_, .entered hd henter, rfl⟩
    exact Propagation.Problem.Leads.callBack.requires
      ((Propagation.Problem.Leads.call hedge hentry).requires hb)

theorem Requires.requires_node (hdirect : LocalRequirements.ofProgram settings p = .ok direct)
    (h : p.Requires settings resolver c a) :
    (p.problem settings resolver direct).Requires c a.node := by
  obtain ⟨d, hd, hreach, hhandles⟩ := h
  induction hreach using Relation.ReflTransGen.head_induction_on with
  | refl => exact ((owns_iff hdirect).2 ⟨d, hd, rfl, hhandles⟩).requires
  | head hlead _ ih => exact hlead.requires_node ih

/-! ## From the graph to the text -/

open Classical in
/-- The place for which a node stands. Procedures that are not analysed are outside. -/
noncomputable def place (settings : Settings) (p : Program) : Node → Place
  | .procedure name => if p.IsAnalysed settings name then .inside name else .outside
  | .unknownCallees => .outside
  | .unknownCallers => .outside

theorem place_of_isAnalysed (h : p.IsAnalysed settings name) :
    p.place settings (.procedure name) = .inside name := by
  simp [place, h]

theorem place_of_not_isAnalysed (h : ¬p.IsAnalysed settings name) :
    p.place settings (.procedure name) = .outside := by
  simp [place, h]

theorem place_of_mem_analysed (h : d ∈ p.analysed settings) :
    p.place settings (.procedure d.name) = .inside d.name :=
  place_of_isAnalysed ⟨d, h, rfl⟩

theorem leads_place_of_call {site : Option UInt32}
    (hedge : ⟨.procedure name, site⟩ ∈ (CallGraph.ofProgram settings p).callees n)
    (hentry : name ≠ settings.entry) :
    p.Leads settings resolver (p.place settings n) (p.place settings (.procedure name)) := by
  rcases CallGraph.procedure_edge_cases hedge with ⟨rfl, d, hd, rfl, henter⟩ |
    ⟨d, hd, c, hc, hcallee, hname, rfl⟩
  · rw [place_of_mem_analysed hd]
    exact .enter hd hentry henter
  · rw [place_of_mem_analysed hd]
    by_cases hin : p.IsAnalysed settings name
    · rw [place_of_isAnalysed hin]
      exact .call hd hc hcallee hname hentry hin
    · rw [place_of_not_isAnalysed hin]
      exact .callOut hd hc hcallee hname hentry hin

/-- A call out of the program comes from a procedure known to be outside, or it is a call through a
pointer in the text. -/
theorem unknownCallees_edge_cases {site : Option UInt32}
    (hedge : ⟨.unknownCallees, site⟩ ∈ (CallGraph.ofProgram settings p).callees n) :
    (∃ name, n = .procedure name ∧ site = none ∧ p.IsKnownOutside settings name) ∨
      ∃ d ∈ p.analysed settings, ∃ c ∈ d.calls, ∃ s, c.callee = .indirect s ∧
        n = .procedure d.name ∧ site = some s := by
  obtain ⟨s, hs, hedge⟩ := CallGraph.mem_callees_ofProgram.1 hedge
  cases hs with
  | node => simp [CallGraph.Step.edge?] at hedge
  | entered => simp [CallGraph.Step.edge?] at hedge
  | call => simp [CallGraph.Step.edge?] at hedge
  | @declared d hd hname hbody =>
    obtain ⟨rfl, rfl⟩ : Node.procedure d.name = n ∧ none = site := by
      simpa [CallGraph.Step.edge?] using hedge
    exact Or.inl ⟨d.name, rfl, rfl, Or.inl ⟨d, hd, rfl, hbody⟩⟩
  | @missing target hcalled hname hnone =>
    obtain ⟨rfl, rfl⟩ : Node.procedure target = n ∧ none = site := by
      simpa [CallGraph.Step.edge?] using hedge
    exact Or.inl ⟨target, rfl, rfl, Or.inr ⟨hnone, hcalled⟩⟩
  | @indirect d c s hd hc hcallee =>
    obtain ⟨rfl, rfl⟩ : Node.procedure d.name = n ∧ some s = site := by
      simpa [CallGraph.Step.edge?] using hedge
    exact Or.inr ⟨d, hd, c, hc, s, hcallee, rfl, rfl⟩

/-- In a program that passes its check, what is known to be outside is not analysed. -/
theorem IsKnownOutside.not_isAnalysed (hcheck : p.check = .ok ())
    (h : p.IsKnownOutside settings name) : ¬p.IsAnalysed settings name := by
  rintro ⟨e, he, rfl⟩
  obtain ⟨hmem, hbody⟩ := mem_definitions.1 (mem_analysed.1 he).1
  rcases h with ⟨d, hd, hname, hdecl⟩ | ⟨hnone, -⟩
  · obtain rfl := eq_of_check hcheck hd hmem hname
    simp [Procedure.isDefinition, hdecl] at hbody
  · exact hnone e hmem rfl

/-- A step on the graph stays in place or is a step on the text. -/
theorem leads_place (hcheck : p.check = .ok ())
    (h : (p.problem settings resolver direct).Leads n m) :
    p.place settings n = p.place settings m ∨
      p.Leads settings resolver (p.place settings n) (p.place settings m) := by
  cases h with
  | call hedge hentry => exact Or.inr (leads_place_of_call hedge hentry)
  | callBack => exact Or.inl rfl
  | @resolved caller target site targets hedge htargets hmem hnode hentry =>
    rcases unknownCallees_edge_cases hedge with ⟨_, -, hsite, -⟩ |
      ⟨d, hd, c, hc, s, hcallee, hn, hsite⟩
    · simp at hsite
    · obtain ⟨rfl, rfl⟩ : caller = d.name ∧ site = s := by simpa using And.intro hn hsite
      rw [place_of_mem_analysed hd]
      by_cases hin : p.IsAnalysed settings target
      · rw [place_of_isAnalysed hin]
        exact Or.inr (.resolved hd hc hcallee htargets hmem hentry hin)
      · rw [place_of_not_isAnalysed hin]
        have hname := (CallGraph.procedure_mem_nodes_ofProgram.1 hnode).1
        exact Or.inr (.resolvedOut hd hc hcallee htargets hmem hname hentry
          (isKnownOutside_of_mem_nodes hnode hin))
  | @unresolved _ site hedge hnone =>
    rcases unknownCallees_edge_cases hedge with ⟨name, rfl, -, hout⟩ |
      ⟨d, hd, c, hc, s, hcallee, rfl, rfl⟩
    · -- A procedure that escapes is outside already.
      exact Or.inl (place_of_not_isAnalysed (hout.not_isAnalysed hcheck))
    · rw [place_of_mem_analysed hd]
      exact Or.inr (.unresolved hd hc hcallee (hnone d.name s rfl rfl))

theorem requires_place (hcheck : p.check = .ok ())
    (hdirect : LocalRequirements.ofProgram settings p = .ok direct)
    (h : (p.problem settings resolver direct).Requires c n) :
    p.Requires settings resolver c (p.place settings n) := by
  obtain ⟨m, hreach, hown⟩ := h
  induction hreach using Relation.ReflTransGen.head_induction_on with
  | refl =>
    obtain ⟨d, hd, rfl, hhandles⟩ := (owns_iff hdirect).1 hown
    rw [place_of_mem_analysed hd]
    exact ⟨d, hd, .refl, hhandles⟩
  | head hlead _ ih =>
    rcases leads_place hcheck hlead with heq | hlead
    · exact heq ▸ ih
    · exact hlead.requires ih

/-! ## Agreement -/

theorem requires_inside_iff (hcheck : p.check = .ok ())
    (hdirect : LocalRequirements.ofProgram settings p = .ok direct)
    (hd : d ∈ p.analysed settings) :
    (p.problem settings resolver direct).Requires c (.procedure d.name) ↔
      p.Requires settings resolver c (.inside d.name) := by
  constructor
  · intro h
    have hplace := requires_place hcheck hdirect h
    rwa [place_of_mem_analysed hd] at hplace
  · exact Requires.requires_node hdirect

theorem requires_unknownCallees_iff (hcheck : p.check = .ok ())
    (hdirect : LocalRequirements.ofProgram settings p = .ok direct) :
    (p.problem settings resolver direct).Requires c .unknownCallees ↔
      p.Requires settings resolver c .outside :=
  ⟨requires_place hcheck hdirect, Requires.requires_node hdirect⟩

theorem requires_unknownCallers_iff (hcheck : p.check = .ok ())
    (hdirect : LocalRequirements.ofProgram settings p = .ok direct) :
    (p.problem settings resolver direct).Requires c .unknownCallers ↔
      p.Requires settings resolver c .outside := by
  constructor
  · exact requires_place hcheck hdirect
  · intro h
    have hg : (p.problem settings resolver direct).graph.WellFormed :=
      CallGraph.wellFormed_ofProgram settings p
    exact (Propagation.Problem.requires_unknownCallees hg).1 (h.requires_node hdirect)

end Program

end LeastPrivilege
