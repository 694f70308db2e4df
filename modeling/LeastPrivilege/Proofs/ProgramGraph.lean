import LeastPrivilege.CallGraph.OfProgram
import LeastPrivilege.Proofs.GraphShape
import LeastPrivilege.Proofs.Names

/-!
# The call graph of a program, read off its text

Which nodes and calls the graph of a program has. Names with a second meaning to the analysis, the
intrinsic ones, leave no trace in it.
-/

namespace LeastPrivilege

namespace Program

variable {settings : Settings} {p : Program} {d e : Procedure} {name : String}

/-! ## Names -/

/-- In a program that passes its check a name stands for one procedure. -/
theorem eq_of_check (h : p.check = .ok ()) (hd : d ∈ p.procedures) (he : e ∈ p.procedures)
    (hname : d.name = e.name) : d = e :=
  List.inj_on_of_nodup_map (check_eq_ok_iff.1 h).1 hd he hname

theorem procedure?_eq_none : p.procedure? name = none ↔ ∀ d ∈ p.procedures, d.name ≠ name := by
  simp [procedure?]

theorem mem_definitions : d ∈ p.definitions ↔ d ∈ p.procedures ∧ d.isDefinition = true :=
  List.mem_filter

/-- The definitions whose names have no second meaning to the analysis. -/
def analysed (settings : Settings) (p : Program) : List Procedure :=
  p.definitions.filter fun d => !settings.intrinsics.contains d.name

theorem mem_analysed :
    d ∈ p.analysed settings ↔ d ∈ p.definitions ∧ d.name ∉ settings.intrinsics := by
  simp [analysed]

/-- A definition that is analysed has a given name. -/
def IsAnalysed (settings : Settings) (p : Program) (name : String) : Prop :=
  ∃ d ∈ p.analysed settings, d.name = name

/-- A definition that is analysed calls a procedure by name. -/
def IsCalled (settings : Settings) (p : Program) (name : String) : Prop :=
  ∃ d ∈ p.analysed settings, ∃ c ∈ d.calls, c.callee = .direct name

/-- A call in a definition passes the address of a procedure on. -/
def IsAddressTaken (p : Program) (name : String) : Prop :=
  ∃ d ∈ p.definitions, ∃ c ∈ d.calls, .procedure name ∈ c.args

theorem mem_addressTaken : name ∈ p.addressTaken ↔ p.IsAddressTaken name := by
  simp only [addressTaken, Std.ExtTreeSet.mem_ofList, List.contains_iff_mem, List.mem_flatMap,
    List.mem_filterMap, IsAddressTaken]
  constructor
  · rintro ⟨c, ⟨d, hd, hc⟩, arg, harg, hname⟩
    refine ⟨d, hd, c, hc, ?_⟩
    cases arg with
    | procedure f =>
      obtain rfl : f = name := by simpa [Operand.procedure?] using hname
      exact harg
    | literal width value => simp [Operand.procedure?] at hname
    | value v => simp [Operand.procedure?] at hname
  · rintro ⟨d, hd, c, hc, harg⟩
    exact ⟨c, ⟨d, hd, hc⟩, _, harg, rfl⟩

/-- A definition can be entered from outside. -/
def IsEntered (p : Program) (d : Procedure) : Prop :=
  d.linkage = .external ∨ p.IsAddressTaken d.name

end Program

namespace CallGraph

variable {settings : Settings} {p : Program} {s : Step} {d : Procedure}

/-- The steps that the text of a program gives rise to. -/
inductive ProgramStep (settings : Settings) (p : Program) : Step → Prop
  | node {d : Procedure} (hd : d ∈ p.procedures) (hname : d.name ∉ settings.intrinsics) :
      ProgramStep settings p (.procedure d.name)
  | declared {d : Procedure} (hd : d ∈ p.procedures) (hname : d.name ∉ settings.intrinsics)
      (hbody : d.isDeclaration = true) : ProgramStep settings p (.escape d.name)
  | entered {d : Procedure} (hd : d ∈ p.analysed settings) (henter : p.IsEntered d) :
      ProgramStep settings p (.external d.name)
  | call {d : Procedure} {c : Call} {target : String} (hd : d ∈ p.analysed settings)
      (hc : c ∈ d.calls) (hcallee : c.callee = .direct target)
      (htarget : target ∉ settings.intrinsics) : ProgramStep settings p (.call d.name target)
  | missing {target : String} (hcalled : p.IsCalled settings target)
      (htarget : target ∉ settings.intrinsics) (hnone : ∀ d ∈ p.procedures, d.name ≠ target) :
      ProgramStep settings p (.escape target)
  | indirect {d : Procedure} {c : Call} {site : UInt32} (hd : d ∈ p.analysed settings)
      (hc : c ∈ d.calls) (hcallee : c.callee = .indirect site) :
      ProgramStep settings p (.indirect d.name site)

theorem mem_stepsOfCall {caller : String} {c : Call} :
    s ∈ stepsOfCall settings p caller c ↔
      (∃ target, c.callee = .direct target ∧ target ∉ settings.intrinsics ∧
        (s = .call caller target ∨
          (∀ d ∈ p.procedures, d.name ≠ target) ∧ s = .escape target)) ∨
      ∃ site, c.callee = .indirect site ∧ s = .indirect caller site := by
  rw [stepsOfCall]
  cases c.callee with
  | indirect site => simp
  | direct target =>
    by_cases htarget : target ∈ settings.intrinsics
    · simp [htarget]
    · simp only [← Program.procedure?_eq_none]
      cases hfound : p.procedure? target with
      | none => simp [htarget, hfound]
      | some d => simp [htarget, hfound]

theorem mem_stepsOfProcedure :
    s ∈ stepsOfProcedure settings p p.addressTaken d ↔
      d.name ∉ settings.intrinsics ∧
        (s = .procedure d.name ∨ d.isDeclaration = true ∧ s = .escape d.name ∨
          d.isDefinition = true ∧
            (p.IsEntered d ∧ s = .external d.name ∨
              ∃ c ∈ d.calls, s ∈ stepsOfCall settings p d.name c)) := by
  rw [stepsOfProcedure]
  by_cases hname : d.name ∈ settings.intrinsics
  · simp [hname]
  · by_cases hbody : d.isDeclaration = true
    · simp [hname, hbody, Procedure.isDefinition]
    · by_cases henter : p.IsEntered d
      · have hentered : d.linkage = .external ∨ d.name ∈ p.addressTaken := by
          rwa [Program.mem_addressTaken]
        simp [hname, hbody, henter, hentered, Procedure.isDefinition]
      · have hentered : ¬(d.linkage = .external ∨ d.name ∈ p.addressTaken) := by
          rwa [Program.mem_addressTaken]
        simp [hname, hbody, henter, hentered, Procedure.isDefinition]

/-- The steps for a program are those that its text gives rise to. -/
theorem mem_stepsOfProgram : s ∈ stepsOfProgram settings p ↔ ProgramStep settings p s := by
  rw [stepsOfProgram, List.mem_flatMap]
  constructor
  · rintro ⟨d, hd, hs⟩
    obtain ⟨hname, rfl | ⟨hbody, rfl⟩ | ⟨hbody, hs⟩⟩ := mem_stepsOfProcedure.1 hs
    · exact .node hd hname
    · exact .declared hd hname hbody
    · have hanalysed : d ∈ p.analysed settings :=
        Program.mem_analysed.2 ⟨Program.mem_definitions.2 ⟨hd, hbody⟩, hname⟩
      rcases hs with ⟨henter, rfl⟩ | ⟨c, hc, hs⟩
      · exact .entered hanalysed henter
      · rcases mem_stepsOfCall.1 hs with ⟨target, hcallee, htarget, rfl | ⟨hnone, rfl⟩⟩ |
          ⟨site, hcallee, rfl⟩
        · exact .call hanalysed hc hcallee htarget
        · exact .missing ⟨d, hanalysed, c, hc, hcallee⟩ htarget hnone
        · exact .indirect hanalysed hc hcallee
  · -- a step of a definition comes from that definition, whichever step it is
    have hofCalls : ∀ d ∈ p.analysed settings,
        (p.IsEntered d ∧ s = .external d.name ∨
          ∃ c ∈ d.calls, s ∈ stepsOfCall settings p d.name c) →
        ∃ d ∈ p.procedures, s ∈ stepsOfProcedure settings p p.addressTaken d := by
      intro d hd hs
      obtain ⟨hdef, hname⟩ := Program.mem_analysed.1 hd
      obtain ⟨hmem, hbody⟩ := Program.mem_definitions.1 hdef
      exact ⟨d, hmem, mem_stepsOfProcedure.2 ⟨hname, Or.inr (Or.inr ⟨hbody, hs⟩)⟩⟩
    intro hs
    cases hs with
    | @node d hd hname => exact ⟨d, hd, mem_stepsOfProcedure.2 ⟨hname, Or.inl rfl⟩⟩
    | @declared d hd hname hbody =>
      exact ⟨d, hd, mem_stepsOfProcedure.2 ⟨hname, Or.inr (Or.inl ⟨hbody, rfl⟩)⟩⟩
    | @entered d hd henter => exact hofCalls d hd (Or.inl ⟨henter, rfl⟩)
    | @call d c target hd hc hcallee htarget =>
      refine hofCalls d hd (Or.inr ⟨c, hc, mem_stepsOfCall.2 (Or.inl ?_)⟩)
      exact ⟨target, hcallee, htarget, Or.inl rfl⟩
    | @missing target hcalled htarget hnone =>
      obtain ⟨d, hd, c, hc, hcallee⟩ := hcalled
      refine hofCalls d hd (Or.inr ⟨c, hc, mem_stepsOfCall.2 (Or.inl ?_)⟩)
      exact ⟨target, hcallee, htarget, Or.inr ⟨hnone, rfl⟩⟩
    | @indirect d c site hd hc hcallee =>
      exact hofCalls d hd (Or.inr ⟨c, hc, mem_stepsOfCall.2 (Or.inr ⟨site, hcallee, rfl⟩)⟩)

theorem wellFormed_ofProgram (settings : Settings) (p : Program) :
    (ofProgram settings p).WellFormed :=
  wellFormed_build _

/-- The calls in the graph of a program are those of the steps that its text gives rise to. -/
theorem mem_callees_ofProgram {n : Node} {e : CallEdge} :
    e ∈ (ofProgram settings p).callees n ↔
      ∃ s, ProgramStep settings p s ∧ s.edge? = some (n, e) := by
  rw [ofProgram, mem_callees_build]
  simp only [mem_stepsOfProgram]

/-- A call of a procedure in the graph enters the program from outside or stands in its text. -/
theorem procedure_edge_cases {n : Node} {name : String} {site : Option UInt32}
    (hedge : ⟨.procedure name, site⟩ ∈ (ofProgram settings p).callees n) :
    (n = .unknownCallers ∧ ∃ d ∈ p.analysed settings, d.name = name ∧ p.IsEntered d) ∨
      ∃ d ∈ p.analysed settings, ∃ c ∈ d.calls, c.callee = .direct name ∧
        name ∉ settings.intrinsics ∧ n = .procedure d.name := by
  obtain ⟨s, hs, hedge⟩ := mem_callees_ofProgram.1 hedge
  cases hs with
  | node => simp [Step.edge?] at hedge
  | declared => simp [Step.edge?] at hedge
  | missing => simp [Step.edge?] at hedge
  | indirect => simp [Step.edge?] at hedge
  | @entered d hd henter =>
    obtain ⟨rfl, rfl, -⟩ : Node.unknownCallers = n ∧ d.name = name ∧ none = site := by
      simpa [Step.edge?] using hedge
    exact Or.inl ⟨rfl, d, hd, rfl, henter⟩
  | @call d c target hd hc hcallee htarget =>
    obtain ⟨rfl, rfl, -⟩ : Node.procedure d.name = n ∧ target = name ∧ none = site := by
      simpa [Step.edge?] using hedge
    exact Or.inr ⟨d, hd, c, hc, hcallee, htarget, rfl⟩

/-- The procedures in the graph of a program: those of the program and those called by name,
intrinsic names apart. -/
theorem procedure_mem_nodes_ofProgram {name : String} :
    .procedure name ∈ (ofProgram settings p).nodes ↔
      name ∉ settings.intrinsics ∧
        ((∃ d ∈ p.procedures, d.name = name) ∨ p.IsCalled settings name) := by
  have hofAnalysed : ∀ d ∈ p.analysed settings, d.name = name →
      name ∉ settings.intrinsics ∧
        ((∃ d ∈ p.procedures, d.name = name) ∨ p.IsCalled settings name) := by
    rintro d hd rfl
    obtain ⟨hdef, hname⟩ := Program.mem_analysed.1 hd
    exact ⟨hname, Or.inl ⟨d, (Program.mem_definitions.1 hdef).1, rfl⟩⟩
  rw [ofProgram, mem_nodes_build]
  simp only [mem_stepsOfProgram, reduceCtorEq, or_self, false_or]
  constructor
  · rintro ⟨s, hs, hend⟩
    cases hs with
    | @node d hd hname =>
      obtain rfl : name = d.name := by simpa [Step.ends] using hend
      exact ⟨hname, Or.inl ⟨d, hd, rfl⟩⟩
    | @declared d hd hname hbody =>
      obtain rfl : name = d.name := by simpa [Step.ends] using hend
      exact ⟨hname, Or.inl ⟨d, hd, rfl⟩⟩
    | @entered d hd henter => exact hofAnalysed d hd (by simpa [Step.ends, eq_comm] using hend)
    | @call d c target hd hc hcallee htarget =>
      rcases (by simpa [Step.ends] using hend : name = d.name ∨ name = target) with h | rfl
      · exact hofAnalysed d hd h.symm
      · exact ⟨htarget, Or.inr ⟨d, hd, c, hc, hcallee⟩⟩
    | @missing target hcalled htarget hnone =>
      obtain rfl : name = target := by simpa [Step.ends] using hend
      exact ⟨htarget, Or.inr hcalled⟩
    | @indirect d c site hd hc hcallee =>
      exact hofAnalysed d hd (by simpa [Step.ends, eq_comm] using hend)
  · rintro ⟨hname, ⟨d, hd, rfl⟩ | ⟨d, hd, c, hc, hcallee⟩⟩
    · exact ⟨_, .node hd hname, by simp [Step.ends]⟩
    · exact ⟨_, .call hd hc hcallee hname, by simp [Step.ends]⟩

end CallGraph

end LeastPrivilege
