import LeastPrivilege.Proofs.TextReachability

/-!
# Callees that a program does not declare

A call of a procedure that the program does not know counts as a call of one that it declares: the
callee may call anything outside. The graph learns this at the calls in the one case and at the
declaration in the other. It is the same graph, down to the order of the calls of each node,
wherever the declaration stands.
-/

namespace LeastPrivilege

namespace Program

variable {settings : Settings} {p : Program} {i : Nat} {d e : Procedure} {name : String}

/-- The program with a procedure put in at a position, or at the end if it has no such position. -/
def withProcedureAt (p : Program) (i : Nat) (d : Procedure) : Program :=
  { p with procedures := p.procedures.take i ++ d :: p.procedures.drop i }

theorem perm_withProcedureAt (p : Program) (i : Nat) (d : Procedure) :
    (p.withProcedureAt i d).procedures.Perm (d :: p.procedures) := by
  have hmiddle : (p.withProcedureAt i d).procedures.Perm
      (d :: (p.procedures.take i ++ p.procedures.drop i)) := List.perm_middle
  rwa [List.take_append_drop] at hmiddle

theorem mem_withProcedureAt :
    e ∈ (p.withProcedureAt i d).procedures ↔ e = d ∨ e ∈ p.procedures := by
  rw [(perm_withProcedureAt p i d).mem_iff, List.mem_cons]

theorem not_isAnalysed_of_forall_ne (h : ∀ e ∈ p.procedures, e.name ≠ name) :
    ¬p.IsAnalysed settings name := by
  rintro ⟨e, he, hname⟩
  exact h e (mem_definitions.1 (mem_analysed.1 he).1).1 hname

theorem definitions_withProcedureAt (hbody : d.isDeclaration = true) :
    (p.withProcedureAt i d).definitions = p.definitions := by
  rw [definitions, withProcedureAt, List.filter_append, List.filter_cons_of_neg,
    ← List.filter_append, List.take_append_drop]
  · rfl
  · simp [Procedure.isDefinition, hbody]

theorem check_withProcedureAt (hnew : ∀ e ∈ p.procedures, e.name ≠ d.name)
    (hbody : d.isDeclaration = true) :
    (p.withProcedureAt i d).check = .ok () ↔ p.check = .ok () := by
  have hlabels : (d.blocks.map Block.label).Nodup := by
    have hempty : d.blocks = [] := by simpa [Procedure.isDeclaration] using hbody
    simp [hempty]
  have hnames := ((perm_withProcedureAt p i d).map Procedure.name).nodup_iff
  rw [check_eq_ok_iff, check_eq_ok_iff, hnames, List.map_cons, List.nodup_cons]
  simp only [mem_withProcedureAt, forall_eq_or_imp, hlabels, true_and]
  have hfresh : d.name ∉ p.procedures.map Procedure.name := by simpa using hnew
  simp only [hfresh, not_false_eq_true, true_and]

end Program

namespace CallGraph

variable {settings : Settings} {p : Program} {i : Nat} {d : Procedure} {n : Node}

/-! ## The calls of the other nodes -/

theorem filterMap_stepsOfCall (hnew : ∀ e ∈ p.procedures, e.name ≠ d.name)
    (hn : n ≠ .procedure d.name) (caller : String) (c : Call) :
    (stepsOfCall settings (p.withProcedureAt i d) caller c).filterMap (Step.edgeFrom? n) =
      (stepsOfCall settings p caller c).filterMap (Step.edgeFrom? n) := by
  rw [stepsOfCall, stepsOfCall]
  cases c.callee with
  | indirect site => rfl
  | direct target =>
    by_cases htarget : target = d.name
    · -- The escape that is missing here belongs to the callee.
      subst htarget
      have hknown : (p.withProcedureAt i d).procedure? d.name ≠ none := by
        rw [Ne, Program.procedure?_eq_none]
        exact fun h => h d (Program.mem_withProcedureAt.2 (Or.inl rfl)) rfl
      have hunknown : p.procedure? d.name = none := Program.procedure?_eq_none.2 hnew
      have hother : Step.edgeFrom? n (.escape d.name) = none := by
        simp [Step.edgeFrom?, Step.edge?, Ne.symm hn]
      by_cases hname : d.name ∈ settings.intrinsics
      · simp [hname]
      · simp [hname, hknown, hunknown, hother, List.filterMap_cons]
    · have hsame : ((p.withProcedureAt i d).procedure? target).isNone =
          (p.procedure? target).isNone := by
        rw [Bool.eq_iff_iff, Option.isNone_iff_eq_none, Option.isNone_iff_eq_none,
          Program.procedure?_eq_none, Program.procedure?_eq_none]
        simp [Program.mem_withProcedureAt, Ne.symm htarget]
      simp only [hsame]

theorem filterMap_stepsOfProcedure (hnew : ∀ e ∈ p.procedures, e.name ≠ d.name)
    (hbody : d.isDeclaration = true) (hn : n ≠ .procedure d.name) (e : Procedure) :
    (stepsOfProcedure settings (p.withProcedureAt i d) (p.withProcedureAt i d).addressTaken
        e).filterMap (Step.edgeFrom? n) =
      (stepsOfProcedure settings p p.addressTaken e).filterMap (Step.edgeFrom? n) := by
  have htaken : (p.withProcedureAt i d).addressTaken = p.addressTaken := by
    rw [Program.addressTaken, Program.addressTaken, Program.definitions_withProcedureAt hbody]
  rw [stepsOfProcedure, stepsOfProcedure, htaken]
  split
  · rfl
  · split
    · rfl
    · simp only [List.filterMap_append, List.filterMap_flatMap, filterMap_stepsOfCall hnew hn]

/-- A node other than the callee makes the same calls, in the same order. -/
theorem callees_withProcedureAt_of_ne (hnew : ∀ e ∈ p.procedures, e.name ≠ d.name)
    (hbody : d.isDeclaration = true) (hn : n ≠ .procedure d.name) :
    (ofProgram settings (p.withProcedureAt i d)).callees n = (ofProgram settings p).callees n := by
  have hown : (stepsOfProcedure settings (p.withProcedureAt i d)
      (p.withProcedureAt i d).addressTaken d).filterMap (Step.edgeFrom? n) = [] := by
    rw [stepsOfProcedure]
    split
    · rfl
    · simp [Step.edgeFrom?, Step.edge?, Ne.symm hn, List.filterMap_cons]
  have hsteps : (stepsOfProgram settings (p.withProcedureAt i d)).filterMap (Step.edgeFrom? n) =
      (stepsOfProgram settings p).filterMap (Step.edgeFrom? n) := by
    rw [stepsOfProgram, stepsOfProgram, List.filterMap_flatMap, List.filterMap_flatMap]
    simp only [filterMap_stepsOfProcedure hnew hbody hn]
    rw [Program.withProcedureAt, List.flatMap_append, List.flatMap_cons,
      ← filterMap_stepsOfProcedure hnew hbody hn (i := i), hown, List.nil_append,
      ← List.flatMap_append, List.take_append_drop]
  rw [ofProgram, ofProgram, callees_build, callees_build, hsteps]

/-! ## The callee -/

/-- A procedure that is known to be outside makes one call, which leads outside. -/
theorem callees_of_isKnownOutside {name : String} (hknown : p.IsKnownOutside settings name)
    (hname : name ∉ settings.intrinsics) (hout : ¬p.IsAnalysed settings name) :
    (ofProgram settings p).callees (.procedure name) = [{ callee := .unknownCallees }] := by
  have hmem : ∀ e, e ∈ (ofProgram settings p).callees (.procedure name) ↔
      e = { callee := .unknownCallees } := by
    intro e
    rw [mem_callees_ofProgram]
    constructor
    · rintro ⟨s, hs, hedge⟩
      cases hs with
      | node => simp [Step.edge?] at hedge
      | declared => exact (Prod.mk.inj (Option.some.inj hedge)).2.symm
      | entered => simp [Step.edge?] at hedge
      | missing => exact (Prod.mk.inj (Option.some.inj hedge)).2.symm
      | @call d _ _ hd =>
        have hcaller := (Prod.mk.inj (Option.some.inj hedge)).1
        exact absurd ⟨d, hd, Node.procedure.inj hcaller⟩ hout
      | @indirect d _ _ hd =>
        have hcaller := (Prod.mk.inj (Option.some.inj hedge)).1
        exact absurd ⟨d, hd, Node.procedure.inj hcaller⟩ hout
    · rintro rfl
      exact ⟨_, hknown.escapes hname, rfl⟩
  have hnodup : ((ofProgram settings p).callees (.procedure name)).Nodup :=
    (regular_build _).nodup_callees _
  refine List.perm_singleton.1 ((List.perm_ext_iff_of_nodup hnodup (List.nodup_singleton _)).2 ?_)
  intro e
  rw [hmem, List.mem_singleton]

theorem callees_of_intrinsic {name : String} (hname : name ∈ settings.intrinsics) :
    (ofProgram settings p).callees (.procedure name) = [] := by
  rw [List.eq_nil_iff_forall_not_mem]
  intro e he
  exact (procedure_mem_nodes_ofProgram.1 (mem_nodes_of_mem_callees he)).1 hname

/-! ## The graph -/

theorem ofProgram_withProcedureAt (hnew : ∀ e ∈ p.procedures, e.name ≠ d.name)
    (hbody : d.isDeclaration = true) (hcalled : p.IsCalled settings d.name) :
    ofProgram settings (p.withProcedureAt i d) = ofProgram settings p := by
  have hanalysed : (p.withProcedureAt i d).analysed settings = p.analysed settings := by
    rw [Program.analysed, Program.analysed, Program.definitions_withProcedureAt hbody]
  have hout : ¬p.IsAnalysed settings d.name := Program.not_isAnalysed_of_forall_ne hnew
  apply ext_callees
  · intro n
    cases n with
    | unknownCallees =>
      exact iff_of_true (wellFormed_ofProgram _ _).unknownCallees_mem
        (wellFormed_ofProgram _ _).unknownCallees_mem
    | unknownCallers =>
      exact iff_of_true (wellFormed_ofProgram _ _).unknownCallers_mem
        (wellFormed_ofProgram _ _).unknownCallers_mem
    | procedure name =>
      rw [procedure_mem_nodes_ofProgram, procedure_mem_nodes_ofProgram]
      simp only [Program.mem_withProcedureAt, Program.IsCalled, hanalysed, exists_eq_or_imp]
      refine and_congr_right fun _ => ⟨?_, ?_⟩
      · rintro ((rfl | hin) | hcalled)
        · exact Or.inr hcalled
        · exact Or.inl hin
        · exact Or.inr hcalled
      · rintro (hin | hcalled)
        · exact Or.inl (Or.inr hin)
        · exact Or.inr hcalled
  · intro n
    by_cases hn : n = .procedure d.name
    · subst hn
      by_cases hname : d.name ∈ settings.intrinsics
      · rw [callees_of_intrinsic hname, callees_of_intrinsic hname]
      · have hdeclared : (p.withProcedureAt i d).IsKnownOutside settings d.name :=
          Or.inl ⟨d, Program.mem_withProcedureAt.2 (Or.inl rfl), rfl, hbody⟩
        have hout' : ¬(p.withProcedureAt i d).IsAnalysed settings d.name := by
          rwa [Program.IsAnalysed, hanalysed]
        rw [callees_of_isKnownOutside hdeclared hname hout',
          callees_of_isKnownOutside (Or.inr ⟨hnew, hcalled⟩) hname hout]
    · exact callees_withProcedureAt_of_ne hnew hbody hn

end CallGraph

/-- A callee that the program does not declare counts as one that it declares. Let an analysed
definition call a procedure by name that the program is without, and let the procedure be declared,
with any signature and linkage, at any position among the others. Then the call graph, down to the
order of calls, the extraction and the report stay the same, and so does the verdict of the check.
The callee makes just one call, which leads outside, unless its name is intrinsic. -/
theorem undeclared_callee_like_declared (settings : Settings) (p : Program) (x : String)
    (hnew : ∀ d ∈ p.procedures, d.name ≠ x) (hcalled : p.IsCalled settings x)
    (signature : Signature) (linkage : Linkage) (i : Nat) :
    let p' := p.withProcedureAt i { name := x, signature, linkage, blocks := [] }
    (p'.check = .ok () ↔ p.check = .ok ()) ∧
      CallGraph.ofProgram settings p' = CallGraph.ofProgram settings p ∧
      (x ∉ settings.intrinsics → (CallGraph.ofProgram settings p).callees (.procedure x) =
        [{ callee := .unknownCallees }]) ∧
      LocalRequirements.ofProgram settings p' = LocalRequirements.ofProgram settings p ∧
      LocalRequirements.raisedAnywhere settings p' =
        LocalRequirements.raisedAnywhere settings p ∧
      ∀ resolver,
        (∀ direct, Propagation.ofProgram settings p' direct resolver =
          Propagation.ofProgram settings p direct resolver) ∧
        Report.ofProgram settings p' resolver = Report.ofProgram settings p resolver := by
  intro p'
  have hdefinitions : p'.definitions = p.definitions := Program.definitions_withProcedureAt rfl
  have hgraph : CallGraph.ofProgram settings p' = CallGraph.ofProgram settings p :=
    CallGraph.ofProgram_withProcedureAt hnew rfl hcalled
  have hsets : ∀ test,
      LocalRequirements.setsOfCalls p' test = LocalRequirements.setsOfCalls p test := by
    intro test
    rw [LocalRequirements.setsOfCalls, LocalRequirements.setsOfCalls, Program.callSites,
      Program.callSites, hdefinitions]
  have hlocal :
      LocalRequirements.ofProgram settings p' = LocalRequirements.ofProgram settings p := by
    rw [LocalRequirements.ofProgram, LocalRequirements.ofProgram, hsets, hdefinitions]
  refine ⟨Program.check_withProcedureAt hnew rfl, hgraph, ?_, hlocal, ?_, fun resolver => ⟨?_, ?_⟩⟩
  · intro hname
    exact CallGraph.callees_of_isKnownOutside (Or.inr ⟨hnew, hcalled⟩) hname
      (Program.not_isAnalysed_of_forall_ne hnew)
  · rw [LocalRequirements.raisedAnywhere, LocalRequirements.raisedAnywhere, hsets]
  · intro direct
    rw [Propagation.ofProgram, Propagation.ofProgram, hgraph]
  · simp only [Report.ofProgram, hlocal, Propagation.ofProgram, hgraph]
    rfl

/-- An entry that calls a procedure `ext` twice and passes its address on, and a helper. -/
def outsideCaller : Program where
  name := "sample"
  procedures :=
    [{ name := "main"
       blocks := [⟨"entry", [.call (.direct "ext" []), .call (.direct "helper" []),
         .call (.direct "ext" [.procedure "ext"]), .ret]⟩] },
     { name := "helper"
       linkage := .internal
       blocks := [⟨"entry", [.call (.direct "priv_raise" [.i32 1, .i32 21]), .ret]⟩] }]

/-- Declaring `ext` between the two changes nothing. -/
theorem undeclared_callee_like_declared_sample :
    let declared := outsideCaller.withProcedureAt 1
      { name := "ext", signature := {}, linkage := .internal, blocks := [] }
    declared.procedures.map Procedure.name = ["main", "ext", "helper"] ∧
      (declared.check = .ok () ↔ outsideCaller.check = .ok ()) ∧
      CallGraph.ofProgram {} declared = CallGraph.ofProgram {} outsideCaller ∧
      (CallGraph.ofProgram {} outsideCaller).callees (.procedure "ext") =
        [{ callee := .unknownCallees }] ∧
      Report.ofProgram {} declared .unknown = Report.ofProgram {} outsideCaller .unknown := by
  intro declared
  have hnew : ∀ d ∈ outsideCaller.procedures, d.name ≠ "ext" := by decide
  have hcalled : outsideCaller.IsCalled {} "ext" :=
    ⟨_, List.mem_cons_self, .direct "ext" [], List.mem_cons_self, rfl⟩
  obtain ⟨hcheck, hgraph, hcallees, -, -, hreport⟩ :=
    undeclared_callee_like_declared {} outsideCaller "ext" hnew hcalled {} .internal 1
  exact ⟨by decide, hcheck, hgraph, hcallees (by decide), (hreport .unknown).2⟩

end LeastPrivilege
