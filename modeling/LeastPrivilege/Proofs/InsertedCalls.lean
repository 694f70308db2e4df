import LeastPrivilege.Proofs.CheckedPlans
import LeastPrivilege.Proofs.InstrumentedInPlace

/-!
# What a pass has inserted

Whatever the operations that a pass inserts call is declared, with the signature that goes with its
name, and is passed what the signature asks for. No routine is declared that none of them needs.
-/

namespace LeastPrivilege

/-! ## Calls that fit -/

/-- An operand can be passed for a parameter of a type: a literal of its width whose value it can
hold, or the address of a procedure of the program. -/
def Operand.Fits (p : Program) (a : Operand) : ValueType → Prop
  | .i32 => ∃ n : UInt64, a = .literal 32 n ∧ n.toNat < UInt32.size
  | .i64 => ∃ n : UInt64, a = .literal 64 n
  | .ptr => ∃ e ∈ p.procedures, a = .procedure e.name
  | .void => False

theorem Operand.fits_i32 (p : Program) (n : UInt32) : (Operand.i32 n).Fits p .i32 := by
  refine ⟨n.toUInt64, rfl, ?_⟩
  rw [UInt32.toNat_toUInt64]
  exact n.toNat_lt_size

/-- An operation calls a routine by name, which is there with its signature, and passes as many
operands as it has parameters, each of which fits. -/
def Operation.CallsRoutine (p : Program) (op : Operation) : Prop :=
  ∃ (r : Routine) (args : List Operand) (e : Procedure), op = .call (.direct r.name args) ∧
    p.procedure? r.name = some e ∧ e.signature = r.signature ∧
    List.Forall₂ (Operand.Fits p) args r.signature.params

/-- An operation calls a procedure by name or passes its address on. -/
def Operation.RefersTo (op : Operation) (name : String) : Prop :=
  ∃ c, op = .call c ∧ (c.target? = some name ∨ .procedure name ∈ c.args)

/-- An operation of a definition calls a procedure by name or passes its address on. -/
def Program.RefersTo (p : Program) (name : String) : Prop :=
  ∃ d ∈ p.definitions, ∃ b ∈ d.blocks, ∃ op ∈ b.operations, op.RefersTo name

namespace BlockPlan

open PlannedCall

variable {special? : Operation → Option SpecialCall} {n position : Nat} {ops : List Operation}
  {c : PlannedCall}

theorem fits_ofSpecial {special : SpecialCall} (h : c ∈ ofSpecial position n special)
    (p : Program) :
    List.Forall₂ (Operand.Fits p) c.args c.routine.signature.params := by
  have hcount : (countArg n).Fits p .i32 := Operand.fits_i32 p (.ofNat n)
  cases special with
  | drop s =>
    obtain rfl := List.mem_singleton.1 h
    exact .cons hcount (.cons ⟨_, rfl⟩ .nil)
  | identityChange =>
    obtain rfl := List.mem_singleton.1 h
    exact .cons hcount .nil
  | _ =>
    rcases List.mem_cons.1 h with rfl | h
    · exact .cons hcount .nil
    · obtain rfl := List.mem_singleton.1 h
      exact .nil

theorem mem_windowCalls_cases (h : c ∈ windowCalls special? n position ops) :
    (∃ position n special, c ∈ ofSpecial position n special) ∨
      ∃ position n, c = ⟨position, .count, [countArg n]⟩ := by
  induction ops generalizing n position with
  | nil => simp [windowCalls] at h
  | cons op ops ih =>
    rw [windowCalls] at h
    cases hspecial : special? op with
    | some special =>
      rw [hspecial] at h
      rcases List.mem_append.1 h with h | h
      · exact Or.inl ⟨position, n + 1, special, h⟩
      · exact ih h
    | none =>
      simp only [hspecial] at h
      split at h
      · exact Or.inr ⟨position, n + 1, List.mem_singleton.1 h⟩
      · exact ih h

/-- The calls of the windows pass what their routines ask for. -/
theorem fits_windowCalls (h : c ∈ windowCalls special? n position ops) (p : Program) :
    List.Forall₂ (Operand.Fits p) c.args c.routine.signature.params := by
  rcases mem_windowCalls_cases h with ⟨position, n, special, hc⟩ | ⟨position, n, rfl⟩
  · exact fits_ofSpecial hc p
  · exact .cons (Operand.fits_i32 p (.ofNat n)) .nil

/-- They pass numbers only. -/
theorem procedure?_windowCalls (h : c ∈ windowCalls special? n position ops) :
    ∀ a ∈ c.args, a.procedure? = none := by
  rcases mem_windowCalls_cases h with ⟨position, n, special, hc⟩ | ⟨position, n, rfl⟩
  · cases special <;> simp [ofSpecial] at hc <;>
      grind [procedure?_countArg, Operand.i64, Operand.procedure?]
  · simp [procedure?_countArg]

end BlockPlan

namespace Instrumentation

variable {settings : Settings} {p q : Program} {stats : InstrumentStats} {entry : BlockRef}
  {s : CapabilitySet} {b : Block} {plan : BlockPlan}

/-! ## Routines that are declared -/

/-- The plans for all blocks are the plans for the blocks of all procedures. -/
theorem mem_blockPlans {plans : List ProcedurePlan}
    (hplans : p.procedures.mapM (ProcedurePlan.ofProcedure settings) = .ok plans) :
    plan ∈ plans.flatMap ProcedurePlan.blocks ↔
      ∃ d ∈ p.procedures, ∃ b ∈ d.blocks, BlockPlan.ofBlock settings d.name b = .ok plan := by
  rw [List.mem_flatMap]
  constructor
  · rintro ⟨procedurePlan, hmem, hplan⟩
    obtain ⟨d, hd, hprocedure⟩ := exists_left_of_forall₂ (forall₂_of_mapM_eq_ok hplans) hmem
    obtain ⟨b, hb, hblock⟩ :=
      exists_left_of_forall₂ (ProcedurePlan.ofProcedure_eq_ok hprocedure).2 hplan
    exact ⟨d, hd, b, hb, hblock⟩
  · rintro ⟨d, hd, b, hb, hblock⟩
    obtain ⟨found, hfound, hplan⟩ := exists_blockPlan hplans hd hb
    rw [hblock] at hplan
    rw [← List.mem_flatMap, Except.ok.inj hplan]
    exact hfound

theorem procedure?_foldl_declare (routines : List Routine) {name : String} {e : Procedure}
    (h : p.procedure? name = some e) :
    (routines.foldl (fun q r => q.declare r.name r.signature) p).procedure? name = some e := by
  induction routines generalizing p with
  | nil => exact h
  | cons r routines ih => exact ih (Program.procedure?_declare_of_some h r.name r.signature)

/-- Routines whose signatures have been checked are all there once they have been declared. -/
theorem exists_of_foldl_declare {routines : List Routine} (hnodup : routines.Nodup)
    (hchecked : ∀ r ∈ routines, p.checkSignature r.name r.signature = .ok ()) :
    ∀ r ∈ routines, ∃ e,
      (routines.foldl (fun q r => q.declare r.name r.signature) p).procedure? r.name = some e ∧
        e.signature = r.signature := by
  induction routines generalizing p with
  | nil => simp
  | cons r routines ih =>
    obtain ⟨hr, hrest⟩ := List.forall_mem_cons.1 hchecked
    obtain ⟨hnew, hnodup⟩ := List.nodup_cons.1 hnodup
    refine List.forall_mem_cons.2 ⟨?_, ih hnodup (checkSignature_declare hnew hrest)⟩
    obtain ⟨e, he, hsignature⟩ := Program.procedure?_declare hr
    exact ⟨e, procedure?_foldl_declare routines he, hsignature⟩

/-- What a run that succeeds has checked and done. -/
theorem run_eq_ok_staged (h : run settings p = .ok (q, stats)) :
    ∃ entry plans, p.check = .ok () ∧ entryBlock settings p = .ok entry ∧
      p.procedures.mapM (ProcedurePlan.ofProcedure settings) = .ok plans ∧
      (∀ r ∈ usedRoutines (plans.flatMap ProcedurePlan.blocks),
        p.checkSignature r.name r.signature = .ok ()) ∧
      q = ((usedRoutines (plans.flatMap ProcedurePlan.blocks)).foldl
        (fun q r => q.declare r.name r.signature) p).mapBlocks
          (instrumentBlock settings entry stats.initialSet) := by
  rw [run_eq_staged] at h
  obtain ⟨_, hcheck, h⟩ := bind_eq_ok.1 h
  obtain ⟨entry, hentry, h⟩ := bind_eq_ok.1 h
  obtain ⟨initialSet, hinitial, h⟩ := bind_eq_ok.1 h
  obtain ⟨plans, hplans, h⟩ := bind_eq_ok.1 h
  obtain ⟨_, hchecked, h⟩ := bind_eq_ok.1 h
  obtain ⟨rfl, rfl⟩ := Prod.mk.inj (Except.ok.inj h)
  exact ⟨entry, plans, hcheck, hentry, hplans, forM_eq_ok_iff.1 hchecked, rfl⟩

/-- The operations that are inserted anywhere are the hooks and the calls of the plans. -/
theorem exists_mem_added_iff {plans : List ProcedurePlan} {added : BlockRef → List Operation}
    {declared : List Procedure} (hcheck : p.check = .ok ())
    (hentry : entryBlock settings p = .ok entry)
    (hplans : p.procedures.mapM (ProcedurePlan.ofProcedure settings) = .ok plans)
    (hextended : p.ExtendedBy added declared q)
    (hinserted : ∀ d ∈ p.procedures, ∀ b ∈ d.blocks,
      InsertedInto settings entry s ⟨d.name, b.label⟩ b (added ⟨d.name, b.label⟩))
    (op : Operation) :
    (∃ ref, op ∈ added ref) ↔ op ∈ hooks s ∨
      ∃ plan ∈ plans.flatMap ProcedurePlan.blocks, op ∈ plan.calls.map PlannedCall.operation := by
  constructor
  · rintro ⟨ref, hop⟩
    obtain ⟨d, hd, b, hb, rfl⟩ := hextended.exists_block hop
    obtain ⟨plan, hplan, hops⟩ := hinserted d hd b hb
    refine ((hops op).1 hop).imp And.right fun hcall => ⟨plan, ?_, hcall⟩
    exact (mem_blockPlans hplans).2 ⟨d, hd, b, hb, hplan⟩
  · rintro (hhook | ⟨plan, hplan, hcall⟩)
    · obtain ⟨d, hd, -, b, bs, hblocks, rfl⟩ := (entryBlock_eq_ok_iff hcheck).1 hentry
      obtain ⟨plan, -, hops⟩ := hinserted d hd b (by simp [hblocks])
      exact ⟨_, (hops op).2 (Or.inl ⟨rfl, hhook⟩)⟩
    · obtain ⟨d, hd, b, hb, hplan⟩ := (mem_blockPlans hplans).1 hplan
      obtain ⟨plan', hplan', hops⟩ := hinserted d hd b hb
      obtain rfl := Except.ok.inj (hplan.symm.trans hplan')
      exact ⟨_, (hops op).2 (Or.inr hcall)⟩

/-- What a run that succeeds has inserted and appended. -/
theorem exists_inserted (h : run settings p = .ok (q, stats)) :
    ∃ plans added declared,
      p.procedures.mapM (ProcedurePlan.ofProcedure settings) = .ok plans ∧
      p.ExtendedBy added declared q ∧
      (∀ op, (∃ ref, op ∈ added ref) ↔ op ∈ hooks stats.initialSet ∨
        ∃ plan ∈ plans.flatMap ProcedurePlan.blocks, op ∈ plan.calls.map PlannedCall.operation) ∧
      (∀ e ∈ declared, ∃ r ∈ usedRoutines (plans.flatMap ProcedurePlan.blocks), e.name = r.name) ∧
      ∀ r ∈ usedRoutines (plans.flatMap ProcedurePlan.blocks),
        ∃ e, q.procedure? r.name = some e ∧ e.signature = r.signature := by
  obtain ⟨entry, plans, hcheck, hentry, hplans, hchecked, rfl⟩ := run_eq_ok_staged h
  have hfound := exists_of_foldl_declare (nodup_usedRoutines _) hchecked
  obtain ⟨declared, hfold, hdeclared⟩ :=
    foldl_declare (usedRoutines (plans.flatMap ProcedurePlan.blocks)) p
  rw [hfold] at hfound ⊢
  have hbodies : ∀ e ∈ declared, e.blocks = [] := by
    intro e he
    obtain ⟨r, -, rfl⟩ := hdeclared e he
    rfl
  obtain ⟨added, hextended, hinserted⟩ := Program.exists_extendedBy hcheck
    (f := instrumentBlock settings entry stats.initialSet)
    (S := InsertedInto settings entry stats.initialSet) (fun d hd b hb => by
      obtain ⟨plan, -, hplan⟩ := exists_blockPlan hplans hd hb
      exact ⟨label_instrumentBlock .., exists_added hplan b.label⟩) hbodies
  refine ⟨plans, added, declared, hplans, hextended,
    exists_mem_added_iff hcheck hentry hplans hextended hinserted, ?_, ?_⟩
  · intro e he
    obtain ⟨r, hr, rfl⟩ := hdeclared e he
    exact ⟨r, hr, rfl⟩
  · intro r hr
    obtain ⟨e, he, hsignature⟩ := hfound r hr
    rw [Program.procedure?_mapBlocks, he]
    exact ⟨_, rfl, hsignature⟩

theorem callsRoutine_of_inserted {plans : List ProcedurePlan} {op : Operation}
    (hplans : p.procedures.mapM (ProcedurePlan.ofProcedure settings) = .ok plans)
    (hused : ∀ r ∈ usedRoutines (plans.flatMap ProcedurePlan.blocks),
      ∃ e, q.procedure? r.name = some e ∧ e.signature = r.signature)
    (hop : op ∈ hooks s ∨ ∃ plan ∈ plans.flatMap ProcedurePlan.blocks,
      op ∈ plan.calls.map PlannedCall.operation) : op.CallsRoutine q := by
  have hhook : ∀ r ∈ [Routine.start, .report, .atExit],
      ∃ e, q.procedure? r.name = some e ∧ e.signature = r.signature :=
    fun r hr => hused r (mem_usedRoutines.2 (Or.inl hr))
  rcases hop with hop | ⟨plan, hplan, hop⟩
  · rcases List.mem_cons.1 hop with rfl | hop
    · obtain ⟨e, he, hsignature⟩ := hhook .start (by simp)
      exact ⟨.start, _, e, rfl, he, hsignature, .cons ⟨_, rfl⟩ .nil⟩
    · obtain rfl := List.mem_singleton.1 hop
      obtain ⟨e, he, hsignature⟩ := hhook .atExit (by simp)
      obtain ⟨report, hreport, -⟩ := hhook .report (by simp)
      have hname : report.name = Routine.report.name := by simpa using List.find?_some hreport
      exact ⟨.atExit, _, e, rfl, he, hsignature,
        .cons ⟨report, List.mem_of_find?_eq_some hreport, by rw [hname]⟩ .nil⟩
  · obtain ⟨c, hc, rfl⟩ := List.mem_map.1 hop
    obtain ⟨d, hd, b, hb, hblock⟩ := (mem_blockPlans hplans).1 hplan
    obtain ⟨e, he, hsignature⟩ :=
      hused c.routine (mem_usedRoutines.2 (Or.inr ⟨plan, hplan, c, hc, rfl⟩))
    rw [(BlockPlan.ofBlock_eq_ok hblock).2] at hc
    exact ⟨c.routine, c.args, e, rfl, he, hsignature, BlockPlan.fits_windowCalls hc q⟩

theorem exists_refersTo {plans : List BlockPlan} {r : Routine} (h : r ∈ usedRoutines plans)
    (s : CapabilitySet) :
    ∃ op, (op ∈ hooks s ∨ ∃ plan ∈ plans, op ∈ plan.calls.map PlannedCall.operation) ∧
      op.RefersTo r.name := by
  rcases mem_usedRoutines.1 h with hhook | ⟨plan, hplan, c, hc, rfl⟩
  · have hcases : r = .start ∨ r = .report ∨ r = .atExit := by simpa using hhook
    rcases hcases with rfl | rfl | rfl
    · exact ⟨_, Or.inl List.mem_cons_self, _, rfl, Or.inl rfl⟩
    · exact ⟨_, Or.inl (List.mem_cons_of_mem _ List.mem_cons_self), _, rfl,
        Or.inr List.mem_cons_self⟩
    · exact ⟨_, Or.inl (List.mem_cons_of_mem _ List.mem_cons_self), _, rfl, Or.inl rfl⟩
  · exact ⟨c.operation, Or.inr ⟨plan, hplan, List.mem_map_of_mem hc⟩, _, rfl, Or.inl rfl⟩

/-- The routines that inserted operations refer to are those in use. -/
theorem mem_usedRoutines_iff_refersTo {plans : List ProcedurePlan} {r : Routine}
    (hplans : p.procedures.mapM (ProcedurePlan.ofProcedure settings) = .ok plans)
    (s : CapabilitySet) :
    r ∈ usedRoutines (plans.flatMap ProcedurePlan.blocks) ↔
      ∃ op, (op ∈ hooks s ∨ ∃ plan ∈ plans.flatMap ProcedurePlan.blocks,
        op ∈ plan.calls.map PlannedCall.operation) ∧ op.RefersTo r.name := by
  refine ⟨fun h => exists_refersTo h s, ?_⟩
  rintro ⟨op, hhook | ⟨plan, hplan, hop⟩, c, rfl, hrefers⟩
  · refine mem_usedRoutines.2 (Or.inl ?_)
    rcases List.mem_cons.1 hhook with heq | hhook
    · obtain rfl := Operation.call.inj heq
      rcases hrefers with htarget | harg
      · rw [← Routine.name_injective (Option.some.inj htarget)]
        simp
      · cases List.mem_singleton.1 harg
    · obtain rfl := Operation.call.inj (List.mem_singleton.1 hhook)
      rcases hrefers with htarget | harg
      · rw [← Routine.name_injective (Option.some.inj htarget)]
        simp
      · rw [Routine.name_injective (Operand.procedure.inj (List.mem_singleton.1 harg))]
        simp
  · obtain ⟨planned, hplanned, heq⟩ := List.mem_map.1 hop
    obtain rfl := Operation.call.inj heq
    obtain ⟨d, hd, b, hb, hblock⟩ := (mem_blockPlans hplans).1 hplan
    have hplanned' := hplanned
    rw [(BlockPlan.ofBlock_eq_ok hblock).2] at hplanned'
    rcases hrefers with htarget | harg
    · have hname : planned.routine = r := Routine.name_injective (Option.some.inj htarget)
      exact mem_usedRoutines.2 (Or.inr ⟨plan, hplan, planned, hplanned, hname⟩)
    · cases BlockPlan.procedure?_windowCalls hplanned' _ harg

end Instrumentation

/-! ## Both passes -/

namespace DropInserter

variable {d : DropInserter} {plan : DropPlan} {p q : Program} {stats : DropStats}

/-- Dropping capabilities passes their number and the capabilities, each in 32 bits. -/
theorem exists_drop_args {op : Operation} (h : d.IsDrop op) (p : Program) :
    ∃ count rest, op = .call (.direct d.settings.removePrimitive (count :: rest)) ∧
      ∀ a ∈ count :: rest, a.Fits p .i32 := by
  obtain ⟨s, rfl⟩ := h
  refine ⟨_, _, rfl, List.forall_mem_cons.2 ⟨Operand.fits_i32 p _, ?_⟩⟩
  intro a ha
  obtain ⟨i, -, rfl⟩ := List.mem_map.1 ha
  exact Operand.fits_i32 p _

theorem exists_dropped (h : d.run plan p = .ok (q, stats)) :
    (∃ e, q.procedure? d.settings.removePrimitive = some e ∧ e.signature = removeSignature) ∧
      ∃ added declared, p.ExtendedBy added declared q ∧
        (∀ ref, ∀ op ∈ added ref, d.IsDrop op) ∧
        ∀ e ∈ declared, e.name = d.settings.removePrimitive := by
  obtain ⟨_, _, hcheck, -, -, -, hq⟩ := run_eq_ok h
  obtain ⟨-, -, hsignature⟩ := exists_run_eq_ok_iff.1 ⟨q, stats, h⟩
  obtain ⟨e, he, hremove⟩ := Program.procedure?_declare hsignature
  obtain ⟨declared, hdeclared, hnames, hbodies⟩ : ∃ declared,
      p.declare d.settings.removePrimitive removeSignature =
        { p with procedures := p.procedures ++ declared } ∧
      (∀ e ∈ declared, e.name = d.settings.removePrimitive) ∧ ∀ e ∈ declared, e.blocks = [] := by
    rcases p.declare_cases d.settings.removePrimitive removeSignature with ⟨-, heq⟩ | ⟨-, heq⟩
    · exact ⟨[], by rw [heq, List.append_nil], by simp, by simp⟩
    · exact ⟨[_], heq, by simp [Procedure.declare], by simp [Procedure.declare]⟩
  obtain ⟨added, hextended, hdrops⟩ := Program.exists_extendedBy hcheck (f := d.applyPlan plan)
    (S := fun _ _ added => ∀ op ∈ added, d.IsDrop op) (fun e he b hb =>
      have hpadded := paddedTo_applyPlan plan ⟨e.name, b.label⟩ b
      ⟨hpadded.label_eq, hpadded.operations⟩) hbodies
  refine ⟨?_, added, declared, ?_, ?_, hnames⟩
  · rw [hq, Program.procedure?_mapBlocks, he]
    exact ⟨_, rfl, hremove⟩
  · rw [hq, hdeclared]
    exact hextended
  · intro ref op hop
    obtain ⟨e, he, b, hb, rfl⟩ := hextended.exists_block hop
    exact hdrops e he b hb op hop

end DropInserter

/-- Whatever a pass inserts is declared and fits. An instrumented program is the program with calls
of routines put into its blocks, each of which is there with its signature and is passed what this
asks for; the procedures that are appended are those that some of these calls call or pass on. When
drops have been inserted, the procedure that gives capabilities up is there with its signature, and
each call that was put in passes it a first number and further ones, all of 32 bits. -/
theorem inserted_calls_are_declared_and_fit :
    (∀ settings p q stats, (Instrumentation.rewrite settings).run p = .ok stats q →
      ∃ added declared, p.ExtendedBy added declared q ∧
        (∀ ref, ∀ op ∈ added ref, op.CallsRoutine q) ∧
        ∀ e ∈ declared, ∃ ref, ∃ op ∈ added ref, op.RefersTo e.name) ∧
    ∀ (d : DropInserter) plan p q stats, (d.rewrite plan).run p = .ok stats q →
      (∃ e, q.procedure? d.settings.removePrimitive = some e ∧
        e.signature = { params := [.i32], ret := .i32, variadic := true }) ∧
      ∃ added declared, p.ExtendedBy added declared q ∧
        (∀ ref, ∀ op ∈ added ref, ∃ count rest,
          op = .call (.direct d.settings.removePrimitive (count :: rest)) ∧
            ∀ a ∈ count :: rest, a.Fits q .i32) ∧
        ∀ e ∈ declared, e.name = d.settings.removePrimitive := by
  constructor
  · intro settings p q stats h
    obtain ⟨plans, added, declared, hplans, hextended, hops, hdeclared, hused⟩ :=
      Instrumentation.exists_inserted (Instrumentation.rewrite_eq_ok_iff.1 h)
    refine ⟨added, declared, hextended, ?_, ?_⟩
    · intro ref op hop
      exact Instrumentation.callsRoutine_of_inserted hplans hused ((hops op).1 ⟨ref, hop⟩)
    · intro e he
      obtain ⟨r, hr, hname⟩ := hdeclared e he
      obtain ⟨op, hop, hrefers⟩ := Instrumentation.exists_refersTo hr stats.initialSet
      obtain ⟨ref, hmem⟩ := (hops op).2 hop
      exact ⟨ref, op, hmem, hname ▸ hrefers⟩
  · intro d plan p q stats h
    obtain ⟨hremove, added, declared, hextended, hdrops, hnames⟩ :=
      DropInserter.exists_dropped (DropInserter.rewrite_eq_ok_iff.1 h)
    refine ⟨hremove, added, declared, hextended, fun ref op hop => ?_, hnames⟩
    exact DropInserter.exists_drop_args (hdrops ref op hop) q

/-- Profiling the sample, which forks, appends the routine that announces a fork, and dropping
capabilities in the program that stops appends the procedure that gives them up. -/
theorem inserted_calls_are_declared_and_fit_sample :
    (∃ q stats added declared,
      (Instrumentation.rewrite {}).run Instrumentation.sampleUnit = .ok stats q ∧
      Instrumentation.sampleUnit.ExtendedBy added declared q ∧
      (∀ ref, ∀ op ∈ added ref, op.CallsRoutine q) ∧
      ∃ ref, ∃ op ∈ added ref, op.RefersTo Routine.announceFork.name) ∧
    ∃ stats added declared,
      (DropInserter.rewrite {} DropInserter.stopPlan).run DropInserter.stopUnit =
        .ok stats DropInserter.stopDropped ∧
      DropInserter.stopUnit.ExtendedBy added declared DropInserter.stopDropped ∧
      ∀ ref, ∀ op ∈ added ref, ∃ count rest,
        op = .call (.direct "priv_remove" (count :: rest)) ∧
          ∀ a ∈ count :: rest, a.Fits DropInserter.stopDropped .i32 := by
  constructor
  · obtain ⟨q, stats, hrun, hforks⟩ : ∃ q stats,
        (Instrumentation.rewrite {}).run Instrumentation.sampleUnit = .ok stats q ∧
          ∃ e ∈ q.procedures.drop 1, e.name = Routine.announceFork.name :=
      ⟨_, _, Instrumentation.rewrite_eq_ok_iff.2 rfl, by decide⟩
    obtain ⟨added, declared, hextended, hfit, hdeclared⟩ :=
      inserted_calls_are_declared_and_fit.1 {} Instrumentation.sampleUnit q stats hrun
    obtain ⟨kept, hq, hkept⟩ := hextended.procedures
    obtain ⟨e, he, hname⟩ := hforks
    have hlength : kept.length = 1 := hkept.length_eq.symm
    rw [hq, ← hlength, List.drop_left] at he
    exact ⟨q, stats, added, declared, hrun, hextended, hfit, hname ▸ hdeclared e he⟩
  · obtain ⟨stats, hrun⟩ : ∃ stats,
        (DropInserter.rewrite {} DropInserter.stopPlan).run DropInserter.stopUnit =
          .ok stats DropInserter.stopDropped :=
      ⟨_, DropInserter.rewrite_eq_ok_iff.2 DropInserter.run_stop⟩
    obtain ⟨-, added, declared, hextended, hdrops, -⟩ :=
      inserted_calls_are_declared_and_fit.2 {} DropInserter.stopPlan _ _ stats hrun
    exact ⟨stats, added, declared, hrun, hextended, hdrops⟩

end LeastPrivilege
