import LeastPrivilege.Proofs.CheckedInstrumentation

/-!
# What an instrumentation says it found and did

The numbers that are handed over with an instrumented program have been kept while its blocks were
planned. Here they are compared with the two programs: with the calls of the one, and with the calls
by which the other has more. For that the operations of an instrumented program are listed without
regard to their order.
-/

namespace LeastPrivilege

theorem perm_flatMap_modifyFirst {α γ : Type} {test : α → Bool} {f : α → α} {g : α → List γ}
    {new : List γ} {xs : List α} (hfound : ∃ x ∈ xs, test x = true)
    (hnew : ∀ x ∈ xs, test x = true → (g (f x)).Perm (new ++ g x)) :
    ((modifyFirst test f xs).flatMap g).Perm (new ++ xs.flatMap g) := by
  induction xs with
  | nil => simp at hfound
  | cons x xs ih =>
    obtain ⟨hx, hxs⟩ := List.forall_mem_cons.1 hnew
    rw [modifyFirst]
    by_cases htest : test x = true
    · rw [if_pos htest, List.flatMap_cons, List.flatMap_cons, ← List.append_assoc]
      exact (hx htest).append_right _
    · have hlater : ∃ x ∈ xs, test x = true := by simpa [htest] using hfound
      rw [if_neg htest, List.flatMap_cons, List.flatMap_cons]
      exact ((ih hlater hxs).append_left (g x)).trans (List.perm_append_comm_assoc ..)

/-! ## Operations that call a procedure -/

/-- Whether an operation calls a given procedure by name. -/
def Operation.calls (op : Operation) (name : String) : Bool :=
  op.call?.any (·.calls name)

theorem Operation.calls_invoke (r s : Routine) (args : List Operand) :
    (r.invoke args).calls s.name = decide (r = s) := by
  change (some r.name == some s.name) = decide (r = s)
  by_cases h : r = s
  · simp [h]
  · simpa [h] using fun hname => h (Routine.name_injective hname)

/-- The operations of a procedure in order. -/
def Procedure.operations (d : Procedure) : List Operation :=
  d.blocks.flatMap Block.operations

namespace Program

/-- The operations of a program in order. -/
def operations (p : Program) : List Operation :=
  p.procedures.flatMap Procedure.operations

/-- The number of operations that call a given procedure by name. -/
def callCount (p : Program) (name : String) : Nat :=
  p.operations.countP (·.calls name)

/-- Where declarations add nothing, definitions are all that counts. -/
theorem flatMap_definitions {α : Type} {f : Procedure → List α}
    (hf : ∀ d : Procedure, d.blocks = [] → f d = []) (p : Program) :
    p.definitions.flatMap f = p.procedures.flatMap f := by
  rw [definitions]
  induction p.procedures with
  | nil => rfl
  | cons d ds ih =>
    cases hblocks : d.blocks with
    | nil => simpa [Procedure.isDefinition, Procedure.isDeclaration, hblocks, hf d hblocks] using ih
    | cons b bs => simpa [Procedure.isDefinition, Procedure.isDeclaration, hblocks] using ih

end Program

/-! ## Special calls -/

/-- Whether a special call gives capabilities up. -/
def SpecialCall.isDrop : SpecialCall → Bool
  | .drop _ => true
  | _ => false

namespace BlockPlan

variable {settings : Settings} {procedure : String} {b : Block} {plan : BlockPlan}

theorem map_snd_specialsFrom (special? : Operation → Option SpecialCall) (position : Nat)
    (ops : List Operation) :
    (specialsFrom special? position ops).map Prod.snd = ops.filterMap special? := by
  induction ops generalizing position with
  | nil => rfl
  | cons op ops ih =>
    rw [specialsFrom]
    cases hop : special? op with
    | none => rw [List.filterMap_cons_none hop, ih]
    | some special => rw [List.filterMap_cons_some hop, List.map_cons, ih]

/-- The special calls of a plan are those among all calls of the block. -/
theorem map_snd_specials (h : ofBlock settings procedure b = .ok plan) :
    plan.specials.map Prod.snd = b.calls.filterMap fun c =>
      (SpecialCall.classify settings ⟨procedure, b.label⟩ c).toOption.join := by
  have hidle : ∀ op ∈ b.idle, op.special? settings ⟨procedure, b.label⟩ = none :=
    fun op hop => special?_of_mem_idle hop
  rw [specials_eq h, ← specialsFrom_append hidle, b.live_append_idle, map_snd_specialsFrom,
    Block.calls, List.filterMap_filterMap]
  rfl

end BlockPlan

/-- A plan adds its calls to the operations of the procedure. -/
theorem ProcedurePlan.perm_result {settings : Settings} {d : Procedure} {plan : ProcedurePlan}
    (h : ofProcedure settings d = .ok plan) :
    plan.result.operations.Perm
      ((plan.blocks.flatMap BlockPlan.calls).map PlannedCall.operation ++ d.operations) := by
  rw [result, Procedure.operations, List.flatMap_map, List.map_flatMap]
  exact perm_flatMap_of_forall₂ (ofProcedure_eq_ok h).2 fun b blockPlan hblock =>
    (BlockPlan.interleaved_result hblock).perm

namespace PlannedCall

theorem countP_calls (calls : List PlannedCall) (r : Routine) :
    (calls.map operation).countP (·.calls r.name) = calls.countP (·.routine = r) := by
  rw [List.countP_map]
  exact congrArg (calls.countP ·) (funext fun c => Operation.calls_invoke c.routine r c.args)

/-- The calls that count are those of the three routines that count. -/
theorem countP_isCounting (calls : List PlannedCall) :
    calls.countP isCounting = calls.countP (·.routine = .count) +
      calls.countP (·.routine = .countDrop) + calls.countP (·.routine = .countIdentity) := by
  induction calls with
  | nil => rfl
  | cons c calls ih =>
    obtain ⟨slot, routine, args⟩ := c
    simp only [List.countP_cons, ih, isCounting]
    cases routine <;> simp <;> omega

end PlannedCall

/-- The numbers of special calls, where the marks of all calls are known. -/
theorem InstrumentStats.sites_ofPlans {plans : List BlockPlan} {marks : List (Option SpecialCall)}
    (initialSet : CapabilitySet)
    (h : (plans.flatMap fun plan => plan.specials.map Prod.snd) = marks.filterMap id) :
    (ofPlans initialSet plans).dropSites = marks.countP (Option.any SpecialCall.isDrop) ∧
      (ofPlans initialSet plans).forkSites = marks.count (some .duplicate) ∧
      (ofPlans initialSet plans).execSites = marks.count (some .replace) ∧
      (ofPlans initialSet plans).identitySites = marks.count (some .identityChange) := by
  have hcount : ∀ special, (plans.flatMap fun plan => plan.specials.map Prod.snd).count special =
      marks.count (some special) := by
    intro special
    rw [h, List.count_filterMap]
    rfl
  refine ⟨?_, hcount .duplicate, hcount .replace, hcount .identityChange⟩
  change (plans.flatMap fun plan => plan.specials.map Prod.snd).countP SpecialCall.isDrop = _
  rw [h, List.countP_filterMap]
  exact List.countP_congr fun mark _ => by cases mark <;> rfl

/-- Where every item can be classified, what is found can be read off the marks. -/
theorem filterMap_marks {α β ε : Type} {f : α → Except ε (Option β)} {xs : List α}
    {marks : List (Option β)} (h : xs.mapM f = .ok marks) :
    xs.filterMap (fun x => (f x).toOption.join) = marks.filterMap id := by
  have hmarks := forall₂_of_mapM_eq_ok h
  clear h
  induction hmarks with
  | nil => rfl
  | @cons x mark xs marks hx _ ih =>
    have hmark : (f x).toOption.join = mark := by rw [hx]; rfl
    simp only [List.filterMap_cons, hmark, ih, id]

namespace Instrumentation

variable {settings : Settings} {p q : Program} {stats : InstrumentStats}
  {plans : List ProcedurePlan} {d : Procedure}

/-! ## What the plans say -/

/-- The calls of all plans. -/
def plannedCalls (plans : List ProcedurePlan) : List PlannedCall :=
  (plans.flatMap ProcedurePlan.blocks).flatMap BlockPlan.calls

/-- The numbers are those of the plans. -/
theorem stats_eq_ofPlans (h : run settings p = .ok (q, stats))
    (hplans : p.procedures.mapM (ProcedurePlan.ofProcedure settings) = .ok plans) :
    stats = .ofPlans stats.initialSet (plans.flatMap ProcedurePlan.blocks) := by
  rw [run_eq_staged] at h
  obtain ⟨_, -, h⟩ := bind_eq_ok.1 h
  obtain ⟨_, -, h⟩ := bind_eq_ok.1 h
  obtain ⟨_, -, h⟩ := bind_eq_ok.1 h
  obtain ⟨_, hfound, h⟩ := bind_eq_ok.1 h
  obtain ⟨_, -, h⟩ := bind_eq_ok.1 h
  obtain rfl := Except.ok.inj (hfound.symm.trans hplans)
  obtain ⟨-, rfl⟩ := Prod.mk.inj (Except.ok.inj h)
  rfl

/-- There is one plan for each block. -/
theorem length_blockPlans
    (hplans : p.procedures.mapM (ProcedurePlan.ofProcedure settings) = .ok plans) :
    (plans.flatMap ProcedurePlan.blocks).length =
      (p.definitions.flatMap Procedure.blocks).length := by
  have hblocks : (plans.flatMap ProcedurePlan.blocks).map BlockPlan.block =
      p.procedures.flatMap Procedure.blocks := by
    rw [List.map_flatMap]
    refine flatMap_eq_of_forall₂ (forall₂_of_mapM_eq_ok hplans) fun d plan hplan => ?_
    rw [map_eq_of_forall₂ (ProcedurePlan.ofProcedure_eq_ok hplan).2
      fun b blockPlan hblock => (BlockPlan.ofBlock_eq_ok hblock).1]
    exact List.map_id _
  rw [Program.flatMap_definitions (fun _ h => h), ← hblocks, List.length_map]

/-- The special calls of all plans are those among all calls of the program. -/
theorem specials_blockPlans
    (hplans : p.procedures.mapM (ProcedurePlan.ofProcedure settings) = .ok plans) :
    ((plans.flatMap ProcedurePlan.blocks).flatMap fun plan => plan.specials.map Prod.snd) =
      p.callSites.filterMap fun site =>
        (SpecialCall.classify settings site.1 site.2).toOption.join := by
  rw [Program.callSites, Program.flatMap_definitions (fun _ h => by simp [h]),
    List.filterMap_flatMap, List.flatMap_assoc]
  refine flatMap_eq_of_forall₂ (forall₂_of_mapM_eq_ok hplans) fun d plan hplan => ?_
  rw [List.filterMap_flatMap]
  have hblocks := (ProcedurePlan.ofProcedure_eq_ok hplan).2
  refine flatMap_eq_of_forall₂ hblocks fun b blockPlan hblock => ?_
  rw [BlockPlan.map_snd_specials hblock, List.filterMap_map]
  rfl

/-- Where all blocks can be planned, all calls can be classified. -/
theorem exists_marks
    (hplans : p.procedures.mapM (ProcedurePlan.ofProcedure settings) = .ok plans) :
    ∃ marks, p.callSites.mapM (fun site => SpecialCall.classify settings site.1 site.2) =
      .ok marks := by
  rw [exists_mapM_eq_ok_iff]
  rintro ⟨site, c⟩ hsite
  obtain ⟨d, hd, b, hb, hc, rfl⟩ := Program.mem_callSites.1 hsite
  obtain ⟨plan, -, hplan⟩ := exists_blockPlan hplans (Program.mem_definitions.1 hd).1 hb
  have hdrops := (BlockPlan.exists_ofBlock_eq_ok_iff.1 ⟨plan, hplan⟩).2
  exact SpecialCall.exists_classify_eq_ok_iff.2 (hdrops c hc)

/-! ## What has been put in -/

theorem perm_insertAfterHeaders (new : List Operation) (b : Block) :
    (insertAfterHeaders new b).operations.Perm (new ++ b.operations) := by
  conv_rhs => rw [← List.take_append_drop b.headerCount b.operations]
  rw [insertAfterHeaders, List.append_assoc]
  exact List.perm_append_comm_assoc ..

theorem perm_modifyEntryBlock (new : List Operation) (hblocks : d.blocks ≠ []) :
    (modifyEntryBlock (insertAfterHeaders new) d).operations.Perm (new ++ d.operations) := by
  obtain ⟨b, bs, hb⟩ := List.exists_cons_of_ne_nil hblocks
  rw [modifyEntryBlock, Procedure.operations, Procedure.operations, hb, List.modifyHead_cons,
    List.flatMap_cons, List.flatMap_cons, ← List.append_assoc]
  exact (perm_insertAfterHeaders new b).append_right _

theorem exists_entry
    (hentry : ((p.procedure? settings.entry).filter Procedure.isDefinition).isNone = false) :
    ∃ d, p.procedure? settings.entry = some d ∧ d.name = settings.entry := by
  obtain ⟨d, hd⟩ := Option.isSome_iff_exists.1 (Option.isNone_eq_false_iff.1 hentry)
  have hfound := (Option.filter_eq_some_iff.1 hd).1
  exact ⟨d, hfound, by simpa using List.find?_some hfound⟩

theorem blocks_of_entry_plan (hcheck : p.check = .ok ())
    (hentry : ((p.procedure? settings.entry).filter Procedure.isDefinition).isNone = false)
    (hplans : p.procedures.mapM (ProcedurePlan.ofProcedure settings) = .ok plans) :
    (∃ e ∈ plans.map ProcedurePlan.result, e.name = settings.entry) ∧
      ∀ e ∈ plans.map ProcedurePlan.result, e.name = settings.entry → e.blocks ≠ [] := by
  have hall := forall₂_of_mapM_eq_ok hplans
  constructor
  · obtain ⟨d, hfound, hname⟩ := exists_entry hentry
    obtain ⟨plan, hmem, hplan⟩ := exists_right_of_forall₂ hall (List.mem_of_find?_eq_some hfound)
    exact ⟨plan.result, List.mem_map_of_mem hmem, (name_of_plan hplan).trans hname⟩
  · intro e he hname hnil
    obtain ⟨plan, hmem, rfl⟩ := List.mem_map.1 he
    obtain ⟨d, hd, hplan⟩ := exists_left_of_forall₂ hall hmem
    have hblocks := ProcedurePlan.blocks_result hplan
    rw [hnil] at hblocks
    exact blocks_of_entry hcheck hentry d hd ((name_of_plan hplan).symm.trans hname)
      (List.forall₂_nil_right_iff.1 hblocks)

/-- An instrumented program has the operations of the program, the hooks and the calls of the
plans. -/
theorem perm_operations (h : run settings p = .ok (q, stats))
    (hplans : p.procedures.mapM (ProcedurePlan.ofProcedure settings) = .ok plans) :
    q.operations.Perm (hooks stats.initialSet ++
      ((plannedCalls plans).map PlannedCall.operation ++ p.operations)) := by
  obtain ⟨plans', hcheck, hentry, -, hplans', hq⟩ := run_eq_ok h
  obtain rfl := Except.ok.inj (hplans.symm.trans hplans')
  obtain ⟨hfound, hbodies⟩ := blocks_of_entry_plan hcheck hentry hplans
  have hcounted : ((plans.map ProcedurePlan.result).flatMap Procedure.operations).Perm
      ((plannedCalls plans).map PlannedCall.operation ++ p.operations) := by
    rw [plannedCalls, List.flatMap_map, List.flatMap_assoc, List.map_flatMap]
    exact perm_flatMap_of_forall₂ (forall₂_of_mapM_eq_ok hplans) fun d plan hplan =>
      ProcedurePlan.perm_result hplan
  have hhooked : ((modifyFirst (·.name == settings.entry)
      (modifyEntryBlock (insertAfterHeaders (hooks stats.initialSet)))
      (plans.map ProcedurePlan.result)).flatMap Procedure.operations).Perm
      (hooks stats.initialSet ++
        (plans.map ProcedurePlan.result).flatMap Procedure.operations) := by
    refine perm_flatMap_modifyFirst (by simpa using hfound) fun e he hname => ?_
    exact perm_modifyEntryBlock _ (hbodies e he (by simpa using hname))
  -- What is declared has no operations.
  obtain ⟨declared, hfold, hdeclared⟩ := foldl_declare
    (usedRoutines (plans.flatMap ProcedurePlan.blocks)) { p with procedures := _ }
  have hnone : declared.flatMap Procedure.operations = [] := by
    refine List.flatMap_eq_nil_iff.2 fun e he => ?_
    obtain ⟨r, -, rfl⟩ := hdeclared e he
    rfl
  rw [hq, hfold, Program.operations, List.flatMap_append, hnone, List.append_nil]
  exact hhooked.trans (hcounted.append_left _)

/-- How often a routine is called after a run: as often as before, once for each planned call, and
once if a hook calls it. -/
theorem callCount_routine (h : run settings p = .ok (q, stats))
    (hplans : p.procedures.mapM (ProcedurePlan.ofProcedure settings) = .ok plans) (r : Routine) :
    q.callCount r.name = p.callCount r.name + [Routine.start, .atExit].count r +
      (plannedCalls plans).countP (·.routine = r) := by
  have hhooks : (hooks stats.initialSet).countP (·.calls r.name) =
      [Routine.start, .atExit].count r := by
    change [Routine.start.invoke _, Routine.atExit.invoke _].countP (·.calls r.name) = _
    simp only [List.countP_cons, List.count_cons, Operation.calls_invoke, List.countP_nil,
      List.count_nil, beq_eq_decide]
  rw [Program.callCount, (perm_operations h hplans).countP_eq, List.countP_append,
    List.countP_append, hhooks, PlannedCall.countP_calls, Program.callCount]
  omega

/-- Only a hook sets the counter up. -/
theorem countP_start
    (hplans : p.procedures.mapM (ProcedurePlan.ofProcedure settings) = .ok plans) :
    (plannedCalls plans).countP (·.routine = .start) = 0 := by
  rw [List.countP_eq_zero]
  intro c hc
  obtain ⟨plan, hplan, hc⟩ := List.mem_flatMap.1 hc
  obtain ⟨d, -, b, -, hblock⟩ := (mem_blockPlans hplans).1 hplan
  rw [(BlockPlan.ofBlock_eq_ok hblock).2] at hc
  rcases BlockPlan.mem_windowCalls_cases hc with ⟨position, n, special, hc⟩ | ⟨position, n, rfl⟩
  · cases special <;> simp [PlannedCall.ofSpecial] at hc <;> grind
  · simp

/-- By how many the calls of the routines that count become more. -/
theorem callCount_counting (h : run settings p = .ok (q, stats)) :
    q.callCount "addBBLOI" + q.callCount "addPrivRmLOI" + q.callCount "addIDChangeLOI" =
      p.callCount "addBBLOI" + p.callCount "addPrivRmLOI" + p.callCount "addIDChangeLOI" +
        stats.countingCalls := by
  obtain ⟨plans, -, -, -, hplans, -⟩ := run_eq_ok h
  have hcounting : stats.countingCalls = (plannedCalls plans).countP PlannedCall.isCounting := by
    rw [stats_eq_ofPlans h hplans]
    rfl
  -- No hook calls one of the three.
  have hcount : q.callCount "addBBLOI" =
      p.callCount "addBBLOI" + (plannedCalls plans).countP (·.routine = .count) :=
    callCount_routine h hplans .count
  have hdrop : q.callCount "addPrivRmLOI" =
      p.callCount "addPrivRmLOI" + (plannedCalls plans).countP (·.routine = .countDrop) :=
    callCount_routine h hplans .countDrop
  have hidentity : q.callCount "addIDChangeLOI" =
      p.callCount "addIDChangeLOI" + (plannedCalls plans).countP (·.routine = .countIdentity) :=
    callCount_routine h hplans .countIdentity
  rw [PlannedCall.countP_isCounting] at hcounting
  omega

/-- The hooks stand behind the headers of the first block of the entry. -/
theorem exists_hooked (h : run settings p = .ok (q, stats)) :
    ∃ first first', (p.procedure? settings.entry).bind (·.blocks.head?) = some first ∧
      (q.procedure? settings.entry).bind (·.blocks.head?) = some first' ∧
      first.Instrumented (hooks stats.initialSet) first' := by
  obtain ⟨_, -, hentry, -⟩ := run_eq_ok h
  obtain ⟨kept, declared, rfl, hkept, -⟩ := exists_instrumented h
  obtain ⟨d, hfound, hname⟩ := exists_entry hentry
  obtain ⟨d', hfound', hinstrumented⟩ :=
    exists_find?_of_forall₂ hkept (fun _ _ h => h.name_eq) hfound
  obtain ⟨first, bs, first', bs', hblocks, hblocks', hfirst, -⟩ :=
    hinstrumented.entered hname
  refine ⟨first, first', by simp [hfound, hblocks], ?_, hfirst⟩
  rw [Program.procedure?, List.find?_append, hfound']
  simp [hblocks']

/-- The numbers that come with an instrumented program describe it. They give the blocks that have
been gone through, the calls of the program of each special kind, and by how many the calls that
count have become more. The set is what the program raises anywhere, and the one call that sets the
counter up, behind the headers of the first block of the entry, passes it. -/
theorem stats_describe_output (settings : Settings) (p q : Program) (stats : InstrumentStats)
    (hrewrite : (rewrite settings).run p = .ok stats q) :
    stats.blocks = (p.definitions.flatMap Procedure.blocks).length ∧
    (∃ marks, p.callSites.mapM (fun site => SpecialCall.classify settings site.1 site.2) =
        .ok marks ∧
      stats.dropSites = marks.countP (Option.any SpecialCall.isDrop) ∧
      stats.forkSites = marks.count (some .duplicate) ∧
      stats.execSites = marks.count (some .replace) ∧
      stats.identitySites = marks.count (some .identityChange)) ∧
    q.callCount "addBBLOI" + q.callCount "addPrivRmLOI" + q.callCount "addIDChangeLOI" =
      p.callCount "addBBLOI" + p.callCount "addPrivRmLOI" + p.callCount "addIDChangeLOI" +
        stats.countingCalls ∧
    (∀ c, c ∈ stats.initialSet ↔ ∃ site call, (site, call) ∈ p.callSites ∧
      call.target? = some settings.raisePrimitive ∧
      ∃ named, call.capabilities site = .ok named ∧ c ∈ named) ∧
    q.callCount "initDynCount" = p.callCount "initDynCount" + 1 ∧
    ∃ first first', ∃ value : UInt64,
      (p.procedure? settings.entry).bind (·.blocks.head?) = some first ∧
      (q.procedure? settings.entry).bind (·.blocks.head?) = some first' ∧
      first.Instrumented [Routine.start.invoke [.i64 value],
        Routine.atExit.invoke [.procedure Routine.report.name]] first' ∧
      value.toNat = stats.initialSet.bits := by
  have h := rewrite_eq_ok_iff.1 hrewrite
  obtain ⟨plans, -, -, hinitial, hplans, -⟩ := run_eq_ok h
  have hstats := stats_eq_ofPlans h hplans
  obtain ⟨marks, hmarks⟩ := exists_marks hplans
  have hspecials := (specials_blockPlans hplans).trans (filterMap_marks hmarks)
  obtain ⟨first, first', hfirst, hfirst', hhooked⟩ := exists_hooked h
  refine ⟨?_, ⟨marks, hmarks, hstats ▸ InstrumentStats.sites_ofPlans _ hspecials⟩,
    callCount_counting h, fun c => LocalRequirements.mem_raisedAnywhere hinitial, ?_, first,
    first', .ofNat stats.initialSet.bits, hfirst, hfirst', hhooked,
    Operation.toNat_bits stats.initialSet⟩
  · rw [hstats]
    exact length_blockPlans hplans
  · have hstart := callCount_routine h hplans .start
    rw [countP_start hplans] at hstart
    exact hstart

/-- A program with special calls of each kind, a block that is never entered, and a call of its own
that counts. -/
def statsUnit : Program where
  procedures := [
    { name := "main"
      blocks := [⟨"entry", [.phi, .call (.direct "priv_raise" [.i32 2, .i32 0, .i32 7]),
        .call (.direct "fork" []), .branch ["leave"]]⟩, BlockPlan.sampleBlock,
        ⟨"never", [.unreachable]⟩] },
    { name := "helper"
      blocks := [⟨"entry", [.call (.direct "addBBLOI" [.i32 1]), .ret]⟩] },
    .declare "fork" {}]

/-- Nine calls that count are put into the sample. -/
theorem stats_describe_output_sample :
    ∃ q stats, (rewrite {}).run statsUnit = .ok stats q ∧ stats.blocks = 4 ∧
      stats.dropSites = 1 ∧ stats.forkSites = 2 ∧ stats.execSites = 1 ∧ stats.identitySites = 2 ∧
      q.callCount "addBBLOI" + q.callCount "addPrivRmLOI" + q.callCount "addIDChangeLOI" = 1 + 9 ∧
      .setuid ∈ stats.initialSet ∧ q.callCount "initDynCount" = 1 := by
  obtain ⟨q, stats, hrun, hcalls⟩ : ∃ q stats, (rewrite {}).run statsUnit = .ok stats q ∧
      stats.countingCalls = 9 := ⟨_, _, rewrite_eq_ok_iff.2 rfl, by decide⟩
  obtain ⟨hblocks, ⟨marks, hmarks, hdrop, hfork, hexec, hidentity⟩, hcounting, hset, hstart, -⟩ :=
    stats_describe_output {} statsUnit q stats hrun
  obtain rfl : [none, some .duplicate, some (.drop (.single .setuid)), some .identityChange,
      some .identityChange, some .duplicate, some .replace, none] = marks := Except.ok.inj hmarks
  refine ⟨q, stats, hrun, hblocks, hdrop, hfork, hexec, hidentity, ?_, (hset _).2 ?_, hstart⟩
  · rw [hcounting, hcalls]
    decide
  · exact ⟨⟨"main", "entry"⟩, .direct "priv_raise" [.i32 2, .i32 0, .i32 7], by decide, rfl,
      .ofList [.chown, .setuid], by decide, by decide⟩

end Instrumentation

end LeastPrivilege
