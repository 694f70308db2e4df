import LeastPrivilege.Profile.Pass
import LeastPrivilege.Proofs.Preservation

/-!
# Tallies

Instrumenting in place counts as it goes, and notes in each branch of its own which routines are in
use. A tally fits the plans for the blocks that have been gone through when it has the counts and
the routines of these plans. Each step of the pass keeps it so: a window that is closed, the tail of
a block, a block without operations to count. In the end the counts and the routines declared are
those of the plans for all blocks.
-/

namespace LeastPrivilege

/-- The routines that are called around a special call. -/
def SpecialCall.routines : SpecialCall → List Routine
  | .drop _ => [.countDrop]
  | .duplicate => [.count, .announceFork]
  | .replace => [.count, .report]
  | .identityChange => [.countIdentity]

theorem PlannedCall.map_routine_ofSpecial (position n : Nat) (special : SpecialCall) :
    (ofSpecial position n special).map routine = special.routines := by
  cases special <;> rfl

/-- What is counted over plans of which the last is extended. -/
theorem InstrumentStats.ofPlans_extend (s : CapabilitySet) (plans : List BlockPlan)
    (plan : BlockPlan) (specials : List (Nat × SpecialCall)) (calls : List PlannedCall) :
    ofPlans s (plans ++
        [{ plan with specials := plan.specials ++ specials, calls := plan.calls ++ calls }]) =
      let old := ofPlans s (plans ++ [plan])
      let new := ofPlans s [{ plan with specials, calls }]
      { old with
        countingCalls := old.countingCalls + new.countingCalls
        dropSites := old.dropSites + new.dropSites
        forkSites := old.forkSites + new.forkSites
        execSites := old.execSites + new.execSites
        identitySites := old.identitySites + new.identitySites } := by
  simp [ofPlans, Nat.add_assoc]

namespace Instrumentation

open PlannedCall

variable {settings : Settings} {procedure : String} {b : Block} {s : CapabilitySet}
  {plans : List BlockPlan} {plan : BlockPlan} {r : Routine} {t : Tally} {d : Draft}

/-! ## Routines in use -/

theorem mem_usedRoutines : r ∈ usedRoutines plans ↔
    r ∈ [Routine.start, .report, .atExit] ∨ ∃ plan ∈ plans, ∃ c ∈ plan.calls, c.routine = r := by
  have hall : r ∈ declarationOrder := by cases r <;> decide
  simp only [usedRoutines, List.mem_filter, hall, true_and, Bool.or_eq_true, List.contains_iff_mem,
    List.mem_map, List.mem_flatMap]
  refine or_congr_right ⟨?_, ?_⟩
  · rintro ⟨c, ⟨plan, hplan, hc⟩, hr⟩
    exact ⟨plan, hplan, c, hc, hr⟩
  · rintro ⟨plan, hplan, c, hc, hr⟩
    exact ⟨c, ⟨plan, hplan, hc⟩, hr⟩

theorem mem_usedRoutines_concat : r ∈ usedRoutines (plans ++ [plan]) ↔
    r ∈ usedRoutines plans ∨ r ∈ plan.calls.map PlannedCall.routine := by
  simp only [mem_usedRoutines, List.mem_append, or_and_right, exists_or, List.mem_singleton,
    exists_eq_left, List.mem_map, or_assoc]

/-- Calls that are added to the last plan add the routines that they call. -/
theorem exists_usedRoutines_extend {specials : List (Nat × SpecialCall)} {calls : List PlannedCall}
    {name : String} :
    (∃ r ∈ usedRoutines (plans ++
        [{ plan with specials := plan.specials ++ specials, calls := plan.calls ++ calls }]),
          r.name = name) ↔
      (∃ r ∈ usedRoutines (plans ++ [plan]), r.name = name) ∨
        ∃ r ∈ calls.map PlannedCall.routine, r.name = name := by
  simp only [mem_usedRoutines_concat, List.map_append, List.mem_append, ← or_assoc, or_and_right,
    exists_or]

theorem nodup_usedRoutines (plans : List BlockPlan) : (usedRoutines plans).Nodup :=
  List.Nodup.filter _ (by decide)

/-- The names of the routines in use are in order. -/
theorem ordered_usedRoutines (plans : List BlockPlan) :
    ((usedRoutines plans).map Routine.name).Pairwise (compare · · = .lt) := by
  have hall : (declarationOrder.map Routine.name).Pairwise (compare · · = .lt) := by
    decide +kernel
  exact hall.sublist (List.filter_sublist.map Routine.name)

/-! ## Windows -/

/-- A tally has the counts and the routines of plans. -/
structure Tally.Fits (t : Tally) (s : CapabilitySet) (plans : List BlockPlan) : Prop where
  stats_eq : t.stats = .ofPlans s plans
  mem_used : ∀ name, name ∈ t.used ↔ ∃ r ∈ usedRoutines plans, r.name = name

/-- A draft has the insertions and the windows of a plan, and once the block is counted its tally
fits that plan after others. -/
structure Draft.Fits (d : Draft) (s : CapabilitySet) (plans : List BlockPlan) (plan : BlockPlan) :
    Prop where
  insertions_eq : d.insertions = plan.calls.map PlannedCall.insertion
  windowStart_eq : d.windowStart = BlockPlan.tailStart plan.specials
  tally : d.tally.countBlock.Fits s (plans ++ [plan])

namespace Tally

theorem fits_start (s : CapabilitySet) : (start s).Fits s [] := by
  refine ⟨rfl, fun name => ?_⟩
  simp only [start, Std.ExtTreeSet.mem_ofList, List.contains_iff_mem, mem_usedRoutines]
  simp [eq_comm]

/-- A block with nothing to count is counted itself. -/
theorem Fits.skip (h : t.Fits s plans) (b : Block) :
    t.countBlock.Fits s (plans ++ [{ block := b }]) := by
  constructor
  · rw [countBlock, h.stats_eq]
    simp [InstrumentStats.ofPlans]
  · intro name
    simp only [mem_usedRoutines_concat, List.map_nil, List.not_mem_nil, or_false]
    exact h.mem_used name

end Tally

namespace Draft

theorem Fits.counted_stats (h : d.Fits s plans plan) :
    { d.tally.stats with blocks := d.tally.stats.blocks + 1 } =
      InstrumentStats.ofPlans s (plans ++ [plan]) :=
  h.tally.stats_eq

/-- The report is always in use. -/
theorem Fits.report_mem_used (h : d.Fits s plans plan) :
    Routine.report.name ∈ d.tally.used :=
  (h.tally.mem_used _).2 ⟨.report, mem_usedRoutines.2 (Or.inl (by simp)), rfl⟩

/-- Each branch notes the routines that it calls, apart from the report. -/
theorem mem_used_close (hreport : Routine.report.name ∈ d.tally.used) (position : Nat)
    (special : SpecialCall) (name : String) :
    name ∈ (d.close position special).tally.used ↔
      name ∈ d.tally.used ∨ ∃ r ∈ special.routines, r.name = name := by
  cases special <;>
    simp only [Draft.close, callAround, insert, use, count, Std.ExtTreeSet.mem_insert,
      SpecialCall.routines] <;>
    grind

/-- Closing a window keeps a draft in step with the plan that has the special call and its calls. -/
theorem Fits.close (h : d.Fits s plans plan) (position : Nat) (special : SpecialCall) :
    (d.close position special).Fits s plans
      { plan with
        specials := plan.specials ++ [(position, special)]
        calls := plan.calls ++ ofSpecial position (position - d.windowStart + 1) special } := by
  refine ⟨?_, by simp [Draft.close, BlockPlan.tailStart], ?_, fun name => ?_⟩
  · rw [List.map_append, ← h.insertions_eq]
    cases special <;> simp [Draft.close, callAround, insert, use, count, ofSpecial, insertion,
      operation]
  · rw [InstrumentStats.ofPlans_extend, ← h.counted_stats]
    cases special <;> simp [Draft.close, callAround, insert, use, count, ofSpecial,
      Tally.countBlock, InstrumentStats.ofPlans, isCounting]
  · rw [exists_usedRoutines_extend, map_routine_ofSpecial, ← h.tally.mem_used]
    exact mem_used_close h.report_mem_used position special name

/-- Closing one window after the other. -/
theorem Fits.foldl_close (h : d.Fits s plans plan) (specials : List (Nat × SpecialCall)) :
    (specials.foldl (fun d e => d.close e.1 e.2) d).Fits s plans
      { plan with
        specials := plan.specials ++ specials
        calls := plan.calls ++ ofSpecials d.windowStart specials } := by
  induction specials generalizing d plan with
  | nil => simpa [ofSpecials] using h
  | cons e specials ih =>
    have hrest := ih (h.close e.1 e.2)
    rw [List.append_assoc, List.append_assoc] at hrest
    exact hrest

/-- The tail reaches from the last window to the last operation that is executed. -/
theorem finish_eq (d : Draft) (b : Block) : d.finish b =
    if d.windowStart < BlockPlan.executed b then d
      |>.insert (BlockPlan.executed b - 1) .count
        [countArg (BlockPlan.executed b - d.windowStart)]
      |>.use .count
      |>.count fun stats => { stats with countingCalls := stats.countingCalls + 1 }
    else d := by
  rw [finish, BlockPlan.executed]
  cases b.endsUnreachable with
  | false => simp only [Bool.false_eq_true, if_false, Nat.sub_pos_iff_lt]
  | true => simp only [if_true, Nat.sub_right_comm _ _ 1, Nat.sub_pos_iff_lt]

/-- Counting the tail keeps a draft in step with the plan that has the call for it. -/
theorem Fits.finish (h : d.Fits s plans plan) (b : Block) :
    (d.finish b).Fits s plans
      { plan with calls := plan.calls ++ BlockPlan.tailCalls b plan.specials } := by
  rw [finish_eq, BlockPlan.tailCalls, ← h.windowStart_eq]
  split
  · have hextend := InstrumentStats.ofPlans_extend s plans plan []
    have hused := @exists_usedRoutines_extend plans plan []
    simp only [List.append_nil] at hextend hused
    refine ⟨?_, h.windowStart_eq, ?_, fun name => ?_⟩
    · rw [List.map_append, ← h.insertions_eq]
      rfl
    · rw [hextend, ← h.counted_stats]
      simp [insert, use, count, Tally.countBlock, InstrumentStats.ofPlans, isCounting]
    · rw [hused, ← h.tally.mem_used]
      simp [insert, use, count, Tally.countBlock, or_comm]
  · rw [List.append_nil]
    exact h

end Draft

/-! ## Blocks and programs -/

/-- Planning with a tally follows a computation without one: it fails with the same error, or the
result and the tally that it leaves go with the other's result. -/
def Planning.Follows {α β : Type} (x : Planning α) (t : Tally) (y : Except Error β)
    (goesWith : β → α → Tally → Prop) : Prop :=
  match y with
  | .error e => x.run t = .error e
  | .ok b => ∃ a t', x.run t = .ok (a, t') ∧ goesWith b a t'

namespace Planning

variable {α β γ δ : Type} {x : Planning α} {y : Except Error β} {P : β → α → Tally → Prop}
  {Q : δ → γ → Tally → Prop}

theorem follows_pure {a : α} {b : β} (h : P b a t) :
    (pure a : Planning α).Follows t (pure b) P :=
  ⟨a, t, rfl, h⟩

theorem Follows.mono {P' : β → α → Tally → Prop} (h : x.Follows t y P)
    (himp : ∀ b a t', y = .ok b → P b a t' → P' b a t') : x.Follows t y P' := by
  cases y with
  | error e => exact h
  | ok b =>
    obtain ⟨a, t', hrun, hP⟩ := h
    exact ⟨a, t', hrun, himp b a t' rfl hP⟩

theorem Follows.bind {f : α → Planning γ} {g : β → Except Error δ} (h : x.Follows t y P)
    (hnext : ∀ b a t', P b a t' → (f a).Follows t' (g b) Q) :
    (x >>= f).Follows t (y >>= g) Q := by
  have hrun : (x >>= f).run t = x.run t >>= fun r => (f r.1).run r.2 := StateT.run_bind x f t
  cases y with
  | error e =>
    change x.run t = .error e at h
    change (x >>= f).run t = .error e
    rw [hrun, h]
    rfl
  | ok b =>
    obtain ⟨a, t', ha, hP⟩ := h
    have hfollows := hnext b a t' hP
    change Follows _ t (g b) Q
    cases hg : g b with
    | error e =>
      rw [hg] at hfollows
      change (x >>= f).run t = .error e
      rw [hrun, ha]
      exact hfollows
    | ok c =>
      rw [hg] at hfollows
      obtain ⟨c', t'', hc', hQ⟩ := hfollows
      exact ⟨c', t'', by rw [hrun, ha]; exact hc', hQ⟩

/-- Items are planned one after the other, where an invariant speaks of what was planned before. -/
theorem follows_mapM {f : γ → Planning α} {g : γ → Except Error β} {k : β → α}
    {I : List β → Tally → Prop} (hstep : ∀ x ys t, I ys t →
      (f x).Follows t (g x) fun y a t' => a = k y ∧ I (ys ++ [y]) t')
    (xs : List γ) {ys : List β} (h : I ys t) :
    (xs.mapM f).Follows t (xs.mapM g) fun new as t' => as = new.map k ∧ I (ys ++ new) t' := by
  induction xs generalizing ys t with
  | nil => exact follows_pure ⟨rfl, (List.append_nil ys).symm ▸ h⟩
  | cons x xs ih =>
    rw [List.mapM_cons, List.mapM_cons]
    refine (hstep x ys t h).bind ?_
    rintro y _ t' ⟨rfl, hinv⟩
    refine (ih hinv).bind ?_
    rintro new _ t'' ⟨rfl, hall⟩
    refine follows_pure ⟨rfl, ?_⟩
    rwa [List.append_assoc] at hall

end Planning

/-- The special calls of a block are found first and the windows closed then, to the same end. -/
theorem planSpecials_eq (site : BlockRef) (position : Nat) (ops : List Operation) (d : Draft) :
    planSpecials settings site position ops d =
      (BlockPlan.findSpecials settings site position ops).map fun specials =>
        specials.foldl (fun d e => d.close e.1 e.2) d := by
  induction ops generalizing position d with
  | nil => rfl
  | cons op ops ih =>
    have hkeep : planSpecials settings site (position + 1) ops d =
        Except.map (fun specials => specials.foldl (fun d e => d.close e.1 e.2) d)
          (BlockPlan.findSpecials settings site (position + 1) ops >>= pure) := by
      rw [ih, bind_pure]
    have hclose : ∀ special, planSpecials settings site (position + 1) ops
        (d.close position special) =
          Except.map (fun specials => specials.foldl (fun d e => d.close e.1 e.2) d)
            (BlockPlan.findSpecials settings site (position + 1) ops >>= fun rest =>
              pure ((position, special) :: rest)) := by
      intro special
      rw [ih]
      cases BlockPlan.findSpecials settings site (position + 1) ops <;> rfl
    rw [planSpecials, BlockPlan.findSpecials]
    cases op.call? with
    | none => exact hkeep
    | some c =>
      simp only
      cases SpecialCall.classify settings site c with
      | error e => rfl
      | ok special? =>
        cases special? with
        | none => exact hkeep
        | some special => exact hclose special

theorem follows_planBlock (h : t.Fits s plans) (procedure : String) (b : Block) :
    (planBlock settings procedure b).Follows t (BlockPlan.ofBlock settings procedure b)
      fun plan insertions t' => insertions = plan.calls.map PlannedCall.insertion ∧
        t'.countBlock.Fits s (plans ++ [plan]) := by
  have hempty : ({ tally := t } : Draft).Fits s plans { block := b } := ⟨rfl, rfl, h.skip b⟩
  have hrun : (planBlock settings procedure b).run t = (do
    if b.terminator?.isNone then throw (.missingTerminator procedure b.label)
    if BlockPlan.isDead b then return ([], t)
    let d ← planSpecials settings ⟨procedure, b.label⟩ 0 b.operations { tally := t }
    return ((d.finish b).insertions, (d.finish b).tally)) := rfl
  unfold Planning.Follows
  rw [hrun, BlockPlan.ofBlock]
  cases b.terminator?.isNone with
  | true => rfl
  | false =>
    cases BlockPlan.isDead b with
    | true => exact ⟨[], t, rfl, rfl, h.skip b⟩
    | false =>
      rw [planSpecials_eq]
      cases BlockPlan.findSpecials settings ⟨procedure, b.label⟩ 0 b.operations with
      | error e => rfl
      | ok specials =>
        have hfits := (hempty.foldl_close specials).finish b
        simp only [List.nil_append] at hfits
        exact ⟨_, _, rfl, hfits.insertions_eq, hfits.tally⟩

/-- The insertions of a plan for a procedure, under the names of its blocks. -/
def namedInsertions (plan : ProcedurePlan) : List (BlockRef × List Insertion) :=
  plan.blocks.map fun blockPlan =>
    (⟨plan.procedure.name, blockPlan.block.label⟩, blockPlan.calls.map PlannedCall.insertion)

theorem follows_planProcedure (h : t.Fits s plans) (d : Procedure) :
    (planProcedure settings d).Follows t (ProcedurePlan.ofProcedure settings d)
      fun plan planned t' => planned = namedInsertions plan ∧ t'.Fits s (plans ++ plan.blocks) := by
  have hblocks := Planning.follows_mapM (f := fun b => do
      let insertions ← planBlock settings d.name b
      modify Tally.countBlock
      return (BlockRef.mk d.name b.label, insertions))
    (g := BlockPlan.ofBlock settings d.name) (k := fun plan =>
      (BlockRef.mk d.name plan.block.label, plan.calls.map PlannedCall.insertion))
    (I := fun plans t => t.Fits s plans) ?_ d.blocks h
  · rw [← bind_pure (planProcedure settings d)]
    refine hblocks.bind ?_
    rintro blocks _ t' ⟨rfl, hfits⟩
    exact Planning.follows_pure ⟨rfl, hfits⟩
  · intro b plans t hfits
    rw [← bind_pure (BlockPlan.ofBlock settings d.name b)]
    refine ((follows_planBlock hfits d.name b).mono fun plan insertions t' hplan hgoes =>
      And.intro (BlockPlan.ofBlock_eq_ok hplan).1 hgoes).bind ?_
    rintro plan _ t' ⟨rfl, rfl, hcounted⟩
    exact ⟨_, t'.countBlock, rfl, rfl, hcounted⟩

/-- Declarations have no blocks to be planned. -/
theorem follows_planDefinitions (ds : List Procedure) (h : t.Fits s plans) :
    ((ds.filter Procedure.isDefinition).mapM (planProcedure settings)).Follows t
      (ds.mapM (ProcedurePlan.ofProcedure settings)) fun new planned t' =>
        planned.flatten = new.flatMap namedInsertions ∧
          t'.Fits s (plans ++ new.flatMap ProcedurePlan.blocks) := by
  induction ds generalizing t plans with
  | nil => exact Planning.follows_pure ⟨rfl, by simpa using h⟩
  | cons d ds ih =>
    rw [List.mapM_cons]
    by_cases hd : d.isDefinition = true
    · rw [List.filter_cons_of_pos hd, List.mapM_cons]
      refine (follows_planProcedure h d).bind ?_
      rintro plan _ t' ⟨rfl, hfits⟩
      refine (ih hfits).bind ?_
      rintro new planned t'' ⟨hplanned, hall⟩
      refine Planning.follows_pure ⟨?_, ?_⟩
      · rw [List.flatten_cons, hplanned, List.flatMap_cons]
      · rwa [List.append_assoc, ← List.flatMap_cons] at hall
    · rw [List.filter_cons_of_neg hd]
      have hnone : d.blocks = [] := by
        simpa [Procedure.isDefinition, Procedure.isDeclaration] using hd
      have hplan : ProcedurePlan.ofProcedure settings d = .ok { procedure := d, blocks := [] } := by
        rw [ProcedurePlan.ofProcedure, hnone]
        rfl
      rw [hplan, ← bind_pure (List.mapM _ _)]
      refine (ih h).bind ?_
      rintro new planned t' ⟨hplanned, hall⟩
      exact Planning.follows_pure ⟨hplanned, hall⟩

/-- Planning a program leaves a tally that fits the plans for all its blocks. -/
theorem follows_planProgram (s : CapabilitySet) (p : Program) :
    (planProgram settings p).Follows (.start s)
      (p.procedures.mapM (ProcedurePlan.ofProcedure settings)) fun plans planned t =>
        planned = plans.flatMap namedInsertions ∧
          t.Fits s (plans.flatMap ProcedurePlan.blocks) := by
  rw [← bind_pure (List.mapM _ _)]
  refine (follows_planDefinitions p.procedures (Tally.fits_start s)).bind ?_
  rintro plans planned t ⟨hplanned, hfits⟩
  exact Planning.follows_pure ⟨hplanned, hfits⟩

/-! ## Routines that are wanted -/

/-- The routines that are declared are those in use in the plans. -/
theorem Tally.Fits.wanted_eq (h : t.Fits s plans) :
    wanted t.used = (usedRoutines plans).map fun r => (r.name, r.signature) := by
  have hnames : t.used.toList = (usedRoutines plans).map Routine.name := by
    refine eq_of_ordered Std.ExtTreeSet.ordered_toList (ordered_usedRoutines plans) fun name => ?_
    rw [Std.ExtTreeSet.mem_toList, h.mem_used, List.mem_map]
  rw [wanted, hnames, List.filterMap_map, ← List.filterMap_eq_map]
  refine List.filterMap_congr fun r _ => ?_
  rw [Function.comp_apply, Routine.ofName?_name]
  rfl

end Instrumentation

end LeastPrivilege
