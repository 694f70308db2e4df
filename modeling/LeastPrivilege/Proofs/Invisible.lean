import LeastPrivilege.Proofs.Analysis
import LeastPrivilege.Proofs.CheckedPlans
import LeastPrivilege.Proofs.InstrumentedInPlace

/-!
# Passes that the analysis does not see

The drops that are inserted and the calls that count are calls of procedures with intrinsic names,
and so are the declarations that come with them. They leave no trace in the call graph, in what is
extracted, or in the report.
-/

namespace LeastPrivilege

variable {settings : Settings} {p p' : Program}

/-- A call that the analysis does not see: its target and all procedures that it passes on have
intrinsic names, and it neither raises nor lowers capabilities. -/
structure Call.Silent (settings : Settings) (c : Call) : Prop where
  target : ∃ target ∈ settings.intrinsics, c.callee = .direct target
  plain : LocalRequirements.isPrimitive settings c = false
  args : ∀ f, .procedure f ∈ c.args → f ∈ settings.intrinsics

/-- An operation that is a call which the analysis does not see. -/
def Operation.Silent (settings : Settings) (op : Operation) : Prop :=
  ∃ c, op = .call c ∧ c.Silent settings

theorem Operation.Silent.call {c : Call} (h : Operation.Silent settings (.call c)) :
    c.Silent settings := by
  obtain ⟨c', hc, hsilent⟩ := h
  obtain rfl := Operation.call.inj hc
  exact hsilent

/-- The second program is the first with calls and declarations that the analysis does not see. -/
abbrev Program.SilentlyPadded (settings : Settings) (p p' : Program) : Prop :=
  p.PaddedTo (fun _ => Operation.Silent settings) (· ∈ settings.intrinsics) p'

/-! ## The analysis -/

namespace CallGraph

theorem stepsOfCall_of_silent {c : Call} (h : c.Silent settings) (caller : String) :
    stepsOfCall settings p caller c = [] := by
  obtain ⟨target, htarget, hcallee⟩ := h.target
  simp [stepsOfCall, hcallee, htarget]

theorem stepsOfCall_eq (h : p.SilentlyPadded settings p') (caller : String) (c : Call) :
    stepsOfCall settings p' caller c = stepsOfCall settings p caller c := by
  rw [stepsOfCall, stepsOfCall]
  cases c.callee with
  | indirect site => rfl
  | direct target =>
    by_cases htarget : target ∈ settings.intrinsics
    · simp [htarget]
    · have hknown : (p'.procedure? target).isNone = (p.procedure? target).isNone := by
        rw [Bool.eq_iff_iff, Option.isNone_iff_eq_none, Option.isNone_iff_eq_none,
          Program.procedure?_eq_none, Program.procedure?_eq_none]
        simpa only [not_exists, not_and] using not_congr (h.exists_procedure_iff htarget)
      simp only [hknown]

theorem stepsOfProcedure_eq (h : p.SilentlyPadded settings p') {d d' : Procedure}
    (hd : d.PaddedTo (Operation.Silent settings) d') :
    stepsOfProcedure settings p' p'.addressTaken d' =
      stepsOfProcedure settings p p.addressTaken d := by
  have hcalls : d'.calls.flatMap (stepsOfCall settings p' d.name) =
      d.calls.flatMap (stepsOfCall settings p d.name) := by
    rw [funext (stepsOfCall_eq h d.name)]
    exact hd.calls.flatMap_eq fun c hc => stepsOfCall_of_silent hc.call d.name
  rw [stepsOfProcedure, stepsOfProcedure, hd.name_eq, hd.linkage_eq, hd.isDeclaration_eq, hcalls]
  by_cases hname : d.name ∈ settings.intrinsics
  · simp [hname]
  · have htaken : d.name ∈ p'.addressTaken ↔ d.name ∈ p.addressTaken := by
      rw [Program.mem_addressTaken, Program.mem_addressTaken]
      exact h.isAddressTaken_iff fun _ c hc harg => hname (hc.call.args d.name harg)
    simp only [htaken]

/-- The graphs grow by the same steps. -/
theorem stepsOfProgram_eq (h : p.SilentlyPadded settings p') :
    stepsOfProgram settings p' = stepsOfProgram settings p := by
  obtain ⟨kept, declared, heq, hkept, hdeclared⟩ := h.procedures
  have hnone : declared.flatMap (stepsOfProcedure settings p' p'.addressTaken) = [] := by
    rw [List.flatMap_eq_nil_iff]
    intro d hd
    have hname : settings.intrinsics.contains d.name = true := by simpa using (hdeclared d hd).2
    simp only [stepsOfProcedure, hname, if_true]
  rw [stepsOfProgram, stepsOfProgram, heq, List.flatMap_append, hnone, List.append_nil]
  exact flatMap_eq_of_forall₂ hkept fun d d' hd => stepsOfProcedure_eq h hd

end CallGraph

namespace Program.PaddedTo

theorem callGraph_eq (h : p.SilentlyPadded settings p') :
    CallGraph.ofProgram settings p' = CallGraph.ofProgram settings p := by
  rw [CallGraph.ofProgram, CallGraph.ofProgram, CallGraph.stepsOfProgram_eq h]

theorem report_eq (h : p.SilentlyPadded settings p') (resolver : Resolver) :
    Report.ofProgram settings p' resolver = Report.ofProgram settings p resolver := by
  have hdirect : LocalRequirements.ofProgram settings p' = LocalRequirements.ofProgram settings p :=
    h.localRequirements_eq fun _ c hc => hc.call.plain
  simp only [Report.ofProgram, hdirect, Propagation.ofProgram, h.callGraph_eq, h.name_eq]

end Program.PaddedTo

/-! ## Insertion of drops -/

namespace Settings

theorem firstTwice?_eq_none_of_check (h : settings.check = .ok ()) :
    firstTwice? settings.primitives = none := by
  rw [check] at h
  cases hempty : settings.required.find? fun field => Text.trim field.2 == "" with
  | some field =>
    simp only [hempty] at h
    obtain ⟨_, hthrow, -⟩ := bind_eq_ok.1 h
    cases hthrow
  | none =>
    simp only [hempty] at h
    cases htwice : firstTwice? settings.primitives with
    | some name =>
      simp only [htwice] at h
      obtain ⟨_, hthrow, -⟩ := bind_eq_ok.1 h
      cases hthrow
    | none => rfl

theorem ne_removePrimitive_of_check (h : settings.check = .ok ()) :
    settings.raisePrimitive ≠ settings.removePrimitive ∧
      settings.lowerPrimitive ≠ settings.removePrimitive := by
  have honce := firstTwice?_eq_none_of_check h
  rw [primitives, firstTwice?] at honce
  constructor
  · intro heq
    simp [heq] at honce
  · intro heq
    simp only [heq, firstTwice?] at honce
    split at honce <;> simp at honce

theorem removePrimitive_mem_intrinsics (settings : Settings) :
    settings.removePrimitive ∈ settings.intrinsics := by
  simp [intrinsics, primitives]

theorem name_mem_intrinsics (settings : Settings) (r : Routine) :
    r.name ∈ settings.intrinsics := by
  have hname : r.name ∈ Routine.names := by cases r <;> decide
  simp [intrinsics, hname]

end Settings

namespace DropInserter

variable {d : DropInserter} {plan : DropPlan} {stats : DropStats} {procedure : String}
  {ref : BlockRef} {b : Block}

theorem silent_of_isDrop (h : d.settings.check = .ok ()) {op : Operation} (hop : d.IsDrop op) :
    op.Silent d.settings := by
  obtain ⟨s, rfl⟩ := hop
  obtain ⟨hraise, hlower⟩ := Settings.ne_removePrimitive_of_check h
  refine ⟨_, rfl, ⟨_, d.settings.removePrimitive_mem_intrinsics, rfl⟩,
    LocalRequirements.isPrimitive_direct_eq_false hraise hlower, ?_⟩
  intro f hf
  simp [Call.ofCapabilities, Call.direct, Operand.i32] at hf

/-- Inserting drops puts in calls and a declaration that the analysis does not see. -/
theorem silentlyPadded_of_run (hcheck : d.settings.check = .ok ())
    (h : d.run plan p = .ok (p', stats)) : p.SilentlyPadded d.settings p' := by
  refine (paddedTo_of_run h).mono (fun _ op hop => silent_of_isDrop hcheck hop) ?_
  intro name hname
  exact hname ▸ d.settings.removePrimitive_mem_intrinsics

end DropInserter

/-! ## Instrumentation -/

namespace Instrumentation

theorem silent_invoke (hraise : settings.raisePrimitive ∉ Routine.names)
    (hlower : settings.lowerPrimitive ∉ Routine.names) (r : Routine) {args : List Operand}
    (hargs : ∀ f, .procedure f ∈ args → f ∈ settings.intrinsics) :
    (r.invoke args).Silent settings := by
  have hname : r.name ∈ Routine.names := by cases r <;> decide
  refine ⟨_, rfl, ⟨_, settings.name_mem_intrinsics r, rfl⟩, ?_, hargs⟩
  apply LocalRequirements.isPrimitive_direct_eq_false
  · rintro heq
    exact hraise (heq ▸ hname)
  · rintro heq
    exact hlower (heq ▸ hname)

/-- Instrumentation puts in calls and declarations that the analysis does not see. -/
theorem silentlyPadded_of_run (hraise : settings.raisePrimitive ∉ Routine.names)
    (hlower : settings.lowerPrimitive ∉ Routine.names) {stats : InstrumentStats}
    (h : run settings p = .ok (p', stats)) : p.SilentlyPadded settings p' := by
  obtain ⟨kept, declared, rfl, hkept, hdeclared⟩ := exists_instrumented h
  have hcounting : ∀ op : Operation, op.IsCounting → op.Silent settings := by
    rintro op ⟨r, args, rfl, -, -, hargs⟩
    refine silent_invoke hraise hlower r fun f hf => ?_
    cases hargs _ hf
  have hhooks : ∀ op ∈ hooks stats.initialSet, op.Silent settings := by
    intro op hop
    rcases List.mem_cons.1 hop with rfl | hop
    · exact silent_invoke hraise hlower .start (by simp [Operand.i64])
    · rw [List.mem_singleton.1 hop]
      refine silent_invoke hraise hlower .atExit fun f hf => ?_
      obtain rfl : f = Routine.report.name := by simpa using hf
      exact settings.name_mem_intrinsics .report
  refine ⟨rfl, kept, declared, rfl, hkept.imp fun d d' hd => hd.paddedTo hhooks hcounting, ?_⟩
  intro d hd
  obtain ⟨r, rfl⟩ := hdeclared d hd
  exact ⟨rfl, settings.name_mem_intrinsics r⟩

end Instrumentation

/-- The analysis does not see what the passes do to a program, if no routine of the counter is set
to raise or lower capabilities: the call graph, what is extracted and the report stay the same. -/
theorem analysis_of_rewritten_program (settings : Settings) (hcheck : settings.check = .ok ())
    (hraise : settings.raisePrimitive ∉ Routine.names)
    (hlower : settings.lowerPrimitive ∉ Routine.names) (p p' : Program) (resolver : Resolver)
    (hpass : (∃ isHandler plan stats,
        (DropInserter.rewrite { settings, isHandler } plan).run p = .ok stats p') ∨
      ∃ stats, (Instrumentation.rewrite settings).run p = .ok stats p') :
    CallGraph.ofProgram settings p' = CallGraph.ofProgram settings p ∧
      LocalRequirements.ofProgram settings p' = LocalRequirements.ofProgram settings p ∧
      LocalRequirements.raisedAnywhere settings p' =
        LocalRequirements.raisedAnywhere settings p ∧
      Report.ofProgram settings p' resolver = Report.ofProgram settings p resolver ∧
      ∀ direct, LocalRequirements.ofProgram settings p = .ok direct →
        ∃ report, Report.ofProgram settings p resolver = .ok report ∧
          Report.ofProgram settings p' resolver = .ok report := by
  have hpadded : p.SilentlyPadded settings p' := by
    rcases hpass with ⟨isHandler, plan, stats, hrun⟩ | ⟨stats, hrun⟩
    · exact DropInserter.silentlyPadded_of_run (d := { settings, isHandler }) hcheck
        (DropInserter.rewrite_eq_ok_iff.1 hrun)
    · exact Instrumentation.silentlyPadded_of_run hraise hlower
        (Instrumentation.rewrite_eq_ok_iff.1 hrun)
  have hplain : ∀ (_ : String) (c : Call), Operation.Silent settings (.call c) →
      LocalRequirements.isPrimitive settings c = false := fun _ c hc => hc.call.plain
  refine ⟨hpadded.callGraph_eq, hpadded.localRequirements_eq hplain,
    hpadded.raisedAnywhere_eq hplain, hpadded.report_eq resolver, ?_⟩
  intro direct hdirect
  obtain ⟨report, hreport⟩ : ∃ report, Report.ofProgram settings p resolver = .ok report :=
    ⟨_, Report.ofProgram_eq_ok.2 ⟨direct, hdirect, rfl⟩⟩
  exact ⟨report, hreport, (hpadded.report_eq resolver).trans hreport⟩

/-- A plan to give a capability up at the end of the only block of the sample. -/
def samplePlan : DropPlan where
  atEnd := DropTable.add ∅ ⟨"main", "entry"⟩ (.single .sysAdmin)

/-- The sample after the plan has been carried out. -/
def sampleDropped : Program where
  name := "sample"
  procedures :=
    [{ name := "main"
       blocks := [⟨"entry", [.phi, .call (.direct "priv_raise" [.i32 1, .i32 21]),
         .call (.direct "fork" []), .call (.direct "priv_remove" [.i32 1, .i32 21]), .ret]⟩] },
      .declare "priv_remove" DropInserter.removeSignature]

theorem analysis_of_rewritten_program_sample :
    (∃ p' stats, (Instrumentation.rewrite {}).run Instrumentation.sampleUnit = .ok stats p' ∧
      Report.ofProgram {} p' .unknown = Report.ofProgram {} Instrumentation.sampleUnit .unknown) ∧
    ((DropInserter.rewrite {} samplePlan).run Instrumentation.sampleUnit =
        .ok { insertedAtEnd := 1 } sampleDropped ∧
      ∃ report, Report.ofProgram {} Instrumentation.sampleUnit .unknown = .ok report ∧
        Report.ofProgram {} sampleDropped .unknown = .ok report) := by
  have hcheck : ({} : Settings).check = .ok () := by decide
  constructor
  · obtain ⟨p', stats, hrun⟩ : ∃ p' stats,
        (Instrumentation.rewrite {}).run Instrumentation.sampleUnit = .ok stats p' :=
      ⟨_, _, Instrumentation.rewrite_eq_ok_iff.2 rfl⟩
    exact ⟨p', stats, hrun, (analysis_of_rewritten_program {} hcheck (by decide) (by decide) _ _
      .unknown (Or.inr ⟨_, hrun⟩)).2.2.2.1⟩
  · have hrun : (DropInserter.rewrite {} samplePlan).run Instrumentation.sampleUnit =
        .ok { insertedAtEnd := 1 } sampleDropped :=
      DropInserter.rewrite_eq_ok_iff.2 (by decide +kernel)
    refine ⟨hrun, ?_⟩
    obtain ⟨direct, hdirect⟩ : ∃ direct,
        LocalRequirements.ofProgram {} Instrumentation.sampleUnit = .ok direct := ⟨_, rfl⟩
    exact (analysis_of_rewritten_program {} hcheck (by decide) (by decide) _ _ .unknown
      (Or.inl ⟨_, samplePlan, _, hrun⟩)).2.2.2.2 direct hdirect

end LeastPrivilege
