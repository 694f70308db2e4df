import LeastPrivilege.Proofs.Extension
import LeastPrivilege.Proofs.Preservation

/-!
# Instrumentation block by block

A run checks its program, declares routines and then changes every block by itself: into each go the
calls of its own plan, and into the entry block the hooks as well.
-/

namespace LeastPrivilege

namespace BlockPlan

open PlannedCall

variable {special? : Operation → Option SpecialCall} {settings : Settings} {procedure : String}
  {b : Block} {plan : BlockPlan}

theorem interleaved_around (position n : Nat) (op : Operation) (special : SpecialCall) :
    Interleaved [op] ((ofSpecial position n special).map operation) (around n op special) := by
  cases special with
  | drop s => exact .add (.refl [op])
  | duplicate => exact .add (.add (.refl [op]))
  | replace => exact .add (.add (.refl [op]))
  | identityChange => exact .keep (.add .nil)

theorem interleaved_weave (n position : Nat) (ops : List Operation) :
    Interleaved ops ((windowCalls special? n position ops).map operation)
      (weave special? n ops) := by
  induction ops generalizing n position with
  | nil => exact .nil
  | cons op ops ih =>
    rw [windowCalls, weave]
    cases special? op with
    | some special =>
      simp only [List.map_append]
      exact (interleaved_around position (n + 1) op special).append (ih 0 (position + 1))
    | none =>
      by_cases hlast : ops = []
      · subst hlast
        exact .add (.refl [op])
      · simp only [if_neg hlast]
        exact (ih (n + 1) (position + 1)).keep

/-- The plan for a block puts in the calls that it lists. -/
theorem interleaved_result (h : ofBlock settings procedure b = .ok plan) :
    Interleaved b.operations (plan.calls.map operation) plan.result.operations := by
  have hlive : Interleaved b.live
      ((windowCalls (Operation.special? settings ⟨procedure, b.label⟩) 0 0 b.live).map operation)
      (weave (Operation.special? settings ⟨procedure, b.label⟩) 0 b.live) :=
    interleaved_weave 0 0 b.live
  have hall := hlive.append (.refl b.idle)
  rwa [b.live_append_idle, ← operations_result h, ← (ofBlock_eq_ok h).2, List.append_nil] at hall

end BlockPlan

namespace Instrumentation

variable {settings : Settings} {p q : Program} {stats : InstrumentStats} {entry : BlockRef}
  {s : CapabilitySet} {procedure : String} {b : Block} {plan : BlockPlan}

/-- What instrumentation makes of a block, when the entry block is known. -/
def instrumentBlock (settings : Settings) (entry : BlockRef) (s : CapabilitySet) (ref : BlockRef)
    (b : Block) : Block :=
  let counted := match BlockPlan.ofBlock settings ref.procedure b with
    | .ok plan => plan.result
    | .error _ => b
  if ref = entry then insertAfterHeaders (hooks s) counted else counted

theorem instrumentBlock_of_ok (h : BlockPlan.ofBlock settings procedure b = .ok plan)
    (label : String) :
    instrumentBlock settings entry s ⟨procedure, label⟩ b =
      if ⟨procedure, label⟩ = entry then insertAfterHeaders (hooks s) plan.result
      else plan.result := by
  rw [instrumentBlock, h]

theorem label_instrumentBlock (settings : Settings) (entry : BlockRef) (s : CapabilitySet)
    (ref : BlockRef) (b : Block) : (instrumentBlock settings entry s ref b).label = b.label := by
  have hcounted : (match BlockPlan.ofBlock settings ref.procedure b with
      | .ok plan => plan.result
      | .error _ => b).label = b.label := by
    cases hplan : BlockPlan.ofBlock settings ref.procedure b with
    | ok plan => exact BlockPlan.label_result hplan
    | error e => rfl
  rw [instrumentBlock]
  split
  · exact hcounted
  · exact hcounted

/-- The operations that are put into a block: the hooks, if it is the entry block, and the calls of
its plan. -/
def InsertedInto (settings : Settings) (entry : BlockRef) (s : CapabilitySet) (ref : BlockRef)
    (b : Block) (added : List Operation) : Prop :=
  ∃ plan, BlockPlan.ofBlock settings ref.procedure b = .ok plan ∧
    ∀ op, op ∈ added ↔
      ref = entry ∧ op ∈ hooks s ∨ op ∈ plan.calls.map PlannedCall.operation

theorem exists_added (h : BlockPlan.ofBlock settings procedure b = .ok plan) (label : String) :
    ∃ added, Interleaved b.operations added
        (instrumentBlock settings entry s ⟨procedure, label⟩ b).operations ∧
      InsertedInto settings entry s ⟨procedure, label⟩ b added := by
  have hplan := BlockPlan.interleaved_result h
  rw [instrumentBlock_of_ok h]
  by_cases hentry : ⟨procedure, label⟩ = entry
  · rw [← List.take_append_drop plan.result.headerCount plan.result.operations] at hplan
    obtain ⟨all, hall, hmem⟩ := hplan.trans (.insert _ (hooks s) _)
    rw [if_pos hentry]
    refine ⟨all, hall, plan, h, fun op => ?_⟩
    simp only [hmem, hentry, true_and]
  · rw [if_neg hentry]
    refine ⟨_, hplan, plan, h, fun op => ?_⟩
    simp only [hentry, false_and, false_or]

theorem entryBlock_eq_ok_iff (hcheck : p.check = .ok ()) :
    entryBlock settings p = .ok entry ↔ ∃ d ∈ p.procedures, d.name = settings.entry ∧
      ∃ b bs, d.blocks = b :: bs ∧ entry = ⟨d.name, b.label⟩ := by
  rw [entryBlock]
  constructor
  · intro h
    split at h
    · next found hfound =>
      obtain rfl := Except.ok.inj h
      obtain ⟨d, hd, hblock⟩ := Option.bind_eq_some_iff.1 hfound
      obtain ⟨b, hb, rfl⟩ := Option.map_eq_some_iff.1 hblock
      obtain ⟨bs, hbs⟩ := List.head?_eq_some_iff.1 hb
      exact ⟨d, List.mem_of_find?_eq_some hd, by simpa using List.find?_some hd, b, bs, hbs, rfl⟩
    · cases h
  · rintro ⟨d, hd, hname, b, bs, hblocks, rfl⟩
    have hfound : p.procedure? settings.entry = some d :=
      hname ▸ find?_name_of_mem (Program.check_eq_ok_iff.1 hcheck).1 hd
    simp [hfound, hblocks]

/-- There is an entry block just if the entry has a body. -/
theorem entryBlock_cases (settings : Settings) (p : Program) :
    ((p.procedure? settings.entry).filter Procedure.isDefinition).isNone = false ∧
        (∃ entry, entryBlock settings p = .ok entry) ∨
      ((p.procedure? settings.entry).filter Procedure.isDefinition).isNone = true ∧
        entryBlock settings p = .error (.missingEntry settings.entry) := by
  rw [entryBlock]
  cases p.procedure? settings.entry with
  | none => exact Or.inr ⟨rfl, rfl⟩
  | some d =>
    cases hblocks : d.blocks with
    | nil =>
      refine Or.inr ⟨?_, by simp [hblocks]⟩
      simp [Option.filter_some, Procedure.isDefinition, Procedure.isDeclaration, hblocks]
    | cons b bs =>
      refine Or.inl ⟨?_, ⟨d.name, b.label⟩, by simp [hblocks]⟩
      simp [Option.filter_some, Procedure.isDefinition, Procedure.isDeclaration, hblocks]

/-- Instrumenting the blocks of a procedure gives what its plan does, with the hooks in the entry
block. -/
theorem instrumented_procedure {d : Procedure} {plan : ProcedurePlan} (hcheck : p.check = .ok ())
    (hentry : entryBlock settings p = .ok entry) (hd : d ∈ p.procedures)
    (hplan : ProcedurePlan.ofProcedure settings d = .ok plan) :
    { d with blocks := d.blocks.map fun b =>
        instrumentBlock settings entry s ⟨d.name, b.label⟩ b } =
      if plan.result.name = settings.entry then
        modifyEntryBlock (insertAfterHeaders (hooks s)) plan.result
      else plan.result := by
  obtain ⟨e, he, hename, first, rest, hblocks, rfl⟩ := (entryBlock_eq_ok_iff hcheck).1 hentry
  obtain ⟨rfl, hplans⟩ := ProcedurePlan.ofProcedure_eq_ok hplan
  have hcounted : ∀ {bs : List Block} {plans : List BlockPlan}, List.Forall₂ (fun b blockPlan =>
      BlockPlan.ofBlock settings plan.procedure.name b = .ok blockPlan) bs plans →
      (∀ b ∈ bs, (⟨plan.procedure.name, b.label⟩ : BlockRef) ≠ ⟨e.name, first.label⟩) →
      plans.map BlockPlan.result = bs.map fun b =>
        instrumentBlock settings ⟨e.name, first.label⟩ s ⟨plan.procedure.name, b.label⟩ b := by
    intro bs plans hbs hne
    refine map_eq_of_forall₂ ((List.forall₂_and_left ..).2 ⟨hne, hbs⟩) ?_
    rintro b blockPlan ⟨hb, hblock⟩
    rw [instrumentBlock_of_ok hblock, if_neg hb]
  change _ = if plan.procedure.name = settings.entry then _ else _
  by_cases hname : plan.procedure.name = settings.entry
  · -- Labels are used once, so only the first block of the entry is the entry block.
    obtain rfl := Program.eq_of_check hcheck hd he (hname.trans hename.symm)
    have hlabels := (Program.check_eq_ok_iff.1 hcheck).2 _ hd
    rw [hblocks] at hplans hlabels
    obtain ⟨firstPlan, restPlans, hfirst, hrest, hall⟩ := List.forall₂_cons_left_iff.1 hplans
    have hothers := hcounted hrest fun b hb heq =>
      (List.nodup_cons.1 hlabels).1 (List.mem_map.2 ⟨b, hb, (BlockRef.mk.inj heq).2⟩)
    rw [if_pos hname, modifyEntryBlock, ProcedurePlan.result]
    simp only [hblocks, hall, List.map_cons, List.modifyHead_cons, hothers,
      instrumentBlock_of_ok hfirst first.label, if_true]
  · rw [if_neg hname, ProcedurePlan.result, hcounted hplans]
    intro b hb heq
    exact hname ((BlockRef.mk.inj heq).1.trans hename)

theorem foldl_declare_mapBlocks (f : BlockRef → Block → Block) (routines : List Routine)
    (p : Program) :
    routines.foldl (fun q r => q.declare r.name r.signature) (p.mapBlocks f) =
      (routines.foldl (fun q r => q.declare r.name r.signature) p).mapBlocks f := by
  induction routines generalizing p with
  | nil => rfl
  | cons r routines ih =>
    rw [List.foldl_cons, List.foldl_cons, Program.declare_mapBlocks, ih]

theorem hooked_eq_mapBlocks {plans : List ProcedurePlan} (hcheck : p.check = .ok ())
    (hentry : entryBlock settings p = .ok entry)
    (hplans : p.procedures.mapM (ProcedurePlan.ofProcedure settings) = .ok plans) :
    { p with
      procedures := modifyFirst (·.name == settings.entry)
        (modifyEntryBlock (insertAfterHeaders (hooks s))) (plans.map ProcedurePlan.result) } =
      p.mapBlocks (instrumentBlock settings entry s) := by
  rw [hooked_eq_map hcheck hplans, Program.mapBlocks, Program.mk.injEq]
  refine ⟨rfl, map_eq_of_forall₂ ((List.forall₂_and_left ..).2
    ⟨fun d hd => hd, forall₂_of_mapM_eq_ok hplans⟩) ?_⟩
  rintro d plan ⟨hd, hplan⟩
  rw [instrumented_procedure hcheck hentry hd hplan]

/-- A run is a sequence of checks, after which the routines are declared and the blocks are
instrumented one by one. -/
theorem run_eq_staged (settings : Settings) (p : Program) : run settings p = (do
    p.check
    let entry ← entryBlock settings p
    let initialSet ← LocalRequirements.raisedAnywhere settings p
    let plans ← p.procedures.mapM (ProcedurePlan.ofProcedure settings)
    let used := usedRoutines (plans.flatMap ProcedurePlan.blocks)
    used.forM fun r => p.checkSignature r.name r.signature
    let declared := used.foldl (fun q r => q.declare r.name r.signature) p
    return (declared.mapBlocks (instrumentBlock settings entry initialSet),
      .ofPlans initialSet (plans.flatMap ProcedurePlan.blocks))) := by
  rw [run]
  cases hcheck : p.check with
  | error e => rfl
  | ok _ =>
    rcases entryBlock_cases settings p with ⟨hbody, entry, hentry⟩ | ⟨hbody, hentry⟩
    · rw [hbody, hentry]
      cases LocalRequirements.raisedAnywhere settings p with
      | error e => rfl
      | ok initialSet =>
        cases hplans : p.procedures.mapM (ProcedurePlan.ofProcedure settings) with
        | error e => rfl
        | ok plans =>
          change _ = ((usedRoutines (plans.flatMap ProcedurePlan.blocks)).forM _ >>= fun _ =>
            Except.ok (Program.mapBlocks _ (instrumentBlock settings entry initialSet), _))
          rw [← foldl_declare_mapBlocks, ← hooked_eq_mapBlocks hcheck hentry hplans]
          rfl
    · rw [hbody, hentry]
      rfl

end Instrumentation

end LeastPrivilege
