import LeastPrivilege.Proofs.BlockwiseInstrumentation
import LeastPrivilege.Proofs.Tallies

/-!
# Instrumentation in place carries out the plans

Instrumenting in place comes to the same as the computation that hands over a new program: once all
checks have passed, the routines can be declared and every block is found when its turn comes. The
tally stands for the plans.
-/

namespace LeastPrivilege

/-- Where names are used once, so are the names of blocks. -/
theorem Program.nodup_blockRefs {p : Program} (h : p.check = .ok ()) :
    (p.procedures.flatMap fun d =>
      d.blocks.map fun b => (⟨d.name, b.label⟩ : BlockRef)).Nodup := by
  obtain ⟨hnames, hlabels⟩ := check_eq_ok_iff.1 h
  rw [List.nodup_flatMap]
  constructor
  · intro d hd
    have hrefs : d.blocks.map (fun b => (⟨d.name, b.label⟩ : BlockRef)) =
        (d.blocks.map Block.label).map (BlockRef.mk d.name) := by
      rw [List.map_map]
      rfl
    rw [hrefs]
    exact (hlabels d hd).map fun x y hxy => (BlockRef.mk.inj hxy).2
  · refine (List.pairwise_map.1 hnames).imp ?_
    intro d e hne ref hd he
    obtain ⟨b, -, rfl⟩ := List.mem_map.1 hd
    obtain ⟨b', -, heq⟩ := List.mem_map.1 he
    exact hne (BlockRef.mk.inj heq).1.symm

theorem Program.mem_definitions_of_block {p : Program} {d : Procedure} {b : Block}
    (hd : d ∈ p.procedures) (hb : b ∈ d.blocks) : d ∈ p.definitions := by
  refine Program.mem_definitions.2 ⟨hd, ?_⟩
  simpa [Procedure.isDefinition, Procedure.isDeclaration] using List.ne_nil_of_mem hb

namespace Instrumentation

open Rewriting

variable {settings : Settings} {p q : Program} {entry : BlockRef} {s : CapabilitySet}
  {plans : List ProcedurePlan} {plan : BlockPlan} {d : Procedure} {b : Block}
  {stats : InstrumentStats}

/-! ## Planning -/

/-- Planning with a tally may take the place of planning without one. -/
theorem run_inspect_bind_of_follows {α β γ : Type} {x : Program → Planning α} {t : Tally}
    {y : Except Error β} {P : β → α → Tally → Prop} {f : α × Tally → Rewriting γ}
    {g : β → Except Error (Program × γ)} (hfollows : (x p).Follows t y P)
    (h : ∀ b a t', y = .ok b → P b a t' → (f (a, t')).run p = allOrNothing p (g b)) :
    (inspect (fun p => (x p).run t) >>= f).run p = allOrNothing p (y >>= g) := by
  rw [EStateM.run_bind, run_inspect]
  cases y with
  | error e =>
    change (x p).run t = .error e at hfollows
    rw [hfollows]
    rfl
  | ok b =>
    obtain ⟨a, t', hrun, hP⟩ := hfollows
    rw [hrun]
    exact h b a t' rfl hP

/-! ## Declaring -/

/-- Declaring a routine does not get in the way of others. -/
theorem checkSignature_declare {routines : List Routine} {r : Routine} (hnew : r ∉ routines)
    (hchecked : ∀ t ∈ routines, p.checkSignature t.name t.signature = .ok ()) :
    ∀ t ∈ routines,
      (p.declare r.name r.signature).checkSignature t.name t.signature = .ok () := by
  intro t ht
  have hne : t.name ≠ r.name := fun heq => hnew (Routine.name_injective heq ▸ ht)
  rw [Program.checkSignature_declare_of_ne hne]
  exact hchecked t ht

theorem run_forM_require {routines : List Routine} (hnodup : routines.Nodup)
    (hchecked : ∀ r ∈ routines, p.checkSignature r.name r.signature = .ok ()) :
    (routines.forM fun r => Rewriting.require r.name r.signature).run p =
      .ok () (routines.foldl (fun q r => q.declare r.name r.signature) p) := by
  induction routines generalizing p with
  | nil => rfl
  | cons r routines ih =>
    obtain ⟨hr, hrest⟩ := List.forall_mem_cons.1 hchecked
    obtain ⟨hnew, hnodup⟩ := List.nodup_cons.1 hnodup
    have hfirst : (Rewriting.require r.name r.signature).run p =
        .ok () (p.declare r.name r.signature) := by
      rw [run_require, Program.require, hr]
      rfl
    exact (run_bind_of_ok hfirst).trans (ih hnodup (checkSignature_declare hnew hrest))

theorem findBlock_foldl_declare (routines : List Routine) (p : Program) (ref : BlockRef) :
    (routines.foldl (fun q r => q.declare r.name r.signature) p).findBlock ref =
      p.findBlock ref := by
  induction routines generalizing p with
  | nil => rfl
  | cons r routines ih =>
    rw [List.foldl_cons, ih, Program.findBlock_declare]

theorem mem_of_mem_foldl_declare {routines : List Routine}
    (hd : d ∈ (routines.foldl (fun q r => q.declare r.name r.signature) p).procedures)
    (hb : b ∈ d.blocks) : d ∈ p.procedures := by
  obtain ⟨declared, heq, hdeclared⟩ := foldl_declare routines p
  rw [heq] at hd
  rcases List.mem_append.1 hd with hd | hd
  · exact hd
  · obtain ⟨r, -, rfl⟩ := hdeclared d hd
    cases hb

/-! ## Inserting -/

theorem exists_procedurePlan
    (hplans : p.procedures.mapM (ProcedurePlan.ofProcedure settings) = .ok plans)
    (hd : d ∈ p.procedures) (hb : b ∈ d.blocks) :
    ∃ procedurePlan ∈ plans, procedurePlan.procedure = d ∧
      ∃ plan ∈ procedurePlan.blocks, BlockPlan.ofBlock settings d.name b = .ok plan := by
  obtain ⟨procedurePlan, hmem, hprocedure⟩ :=
    exists_right_of_forall₂ (forall₂_of_mapM_eq_ok hplans) hd
  obtain ⟨heq, hblocks⟩ := ProcedurePlan.ofProcedure_eq_ok hprocedure
  exact ⟨procedurePlan, hmem, heq, exists_right_of_forall₂ hblocks hb⟩

theorem exists_blockPlan
    (hplans : p.procedures.mapM (ProcedurePlan.ofProcedure settings) = .ok plans)
    (hd : d ∈ p.procedures) (hb : b ∈ d.blocks) :
    ∃ plan ∈ plans.flatMap ProcedurePlan.blocks,
      BlockPlan.ofBlock settings d.name b = .ok plan := by
  obtain ⟨procedurePlan, hmem, -, plan, hplan, hblock⟩ := exists_procedurePlan hplans hd hb
  exact ⟨plan, List.mem_flatMap.2 ⟨procedurePlan, hmem, hplan⟩, hblock⟩

theorem map_fst_namedInsertions
    (hplans : p.procedures.mapM (ProcedurePlan.ofProcedure settings) = .ok plans) :
    (plans.flatMap namedInsertions).map Prod.fst =
      p.procedures.flatMap fun d => d.blocks.map fun b => ⟨d.name, b.label⟩ := by
  rw [List.map_flatMap]
  refine flatMap_eq_of_forall₂ (forall₂_of_mapM_eq_ok hplans) fun d plan hplan => ?_
  obtain ⟨rfl, hblocks⟩ := ProcedurePlan.ofProcedure_eq_ok hplan
  rw [namedInsertions, List.map_map]
  refine map_eq_of_forall₂ hblocks fun b blockPlan hblock => ?_
  rw [Function.comp_apply, (BlockPlan.ofBlock_eq_ok hblock).1]

theorem mem_namedInsertions
    (hplans : p.procedures.mapM (ProcedurePlan.ofProcedure settings) = .ok plans)
    (hd : d ∈ p.procedures) (hb : b ∈ d.blocks)
    (hplan : BlockPlan.ofBlock settings d.name b = .ok plan) :
    (⟨d.name, b.label⟩, plan.calls.map PlannedCall.insertion) ∈
      plans.flatMap namedInsertions := by
  obtain ⟨procedurePlan, hmem, rfl, found, hfound, hblock⟩ := exists_procedurePlan hplans hd hb
  obtain rfl := Except.ok.inj (hplan.symm.trans hblock)
  refine List.mem_flatMap.2 ⟨procedurePlan, hmem, List.mem_map.2 ⟨plan, hfound, ?_⟩⟩
  rw [(BlockPlan.ofBlock_eq_ok hblock).1]

theorem nodup_namedInsertions (hcheck : p.check = .ok ())
    (hplans : p.procedures.mapM (ProcedurePlan.ofProcedure settings) = .ok plans) :
    ((plans.flatMap namedInsertions).map Prod.fst).Nodup := by
  rw [map_fst_namedInsertions hplans]
  exact Program.nodup_blockRefs hcheck

/-- Each block is found and gets the calls of its plan. -/
theorem run_editBlocks_namedInsertions (hcheck : p.check = .ok ())
    (hplans : p.procedures.mapM (ProcedurePlan.ofProcedure settings) = .ok plans)
    (hqcheck : q.check = .ok ()) (hsame : ∀ ref, q.findBlock ref = p.findBlock ref) :
    ∃ found, (editBlocks (plans.flatMap namedInsertions) insertQueued).run q =
      .ok found (q.mapBlocks (edited (plans.flatMap namedInsertions) insertQueued)) := by
  refine ⟨(plans.flatMap namedInsertions).map fun _ => (), run_editBlocks (fun _ _ _ => rfl)
    (nodup_namedInsertions hcheck hplans) hqcheck ?_⟩
  rw [List.forall₂_map_right_iff]
  refine List.forall₂_same.2 fun named hnamed => ?_
  have href := List.mem_map_of_mem (f := Prod.fst) hnamed
  rw [map_fst_namedInsertions hplans] at href
  obtain ⟨d, hd, href⟩ := List.mem_flatMap.1 href
  obtain ⟨b, hb, href⟩ := List.mem_map.1 href
  refine ⟨b, ?_, rfl⟩
  rw [hsame, Program.findBlock_eq_ok_iff hcheck, ← href]
  exact ⟨d, Program.mem_definitions_of_block hd hb, rfl, hb, rfl⟩

theorem edited_namedInsertions (hcheck : p.check = .ok ())
    (hplans : p.procedures.mapM (ProcedurePlan.ofProcedure settings) = .ok plans)
    (hd : d ∈ p.procedures) (hb : b ∈ d.blocks)
    (hplan : BlockPlan.ofBlock settings d.name b = .ok plan) :
    edited (plans.flatMap namedInsertions) insertQueued ⟨d.name, b.label⟩ b = plan.result := by
  rw [edited_of_mem (nodup_namedInsertions hcheck hplans) (mem_namedInsertions hplans hd hb hplan),
    BlockPlan.result, (BlockPlan.ofBlock_eq_ok hplan).1]
  rfl

/-- Once the routines have been declared, nothing that is left to do can fail. -/
theorem run_edits {routines : List Routine} (hcheck : p.check = .ok ())
    (hentry : entryBlock settings p = .ok entry)
    (hplans : p.procedures.mapM (ProcedurePlan.ofProcedure settings) = .ok plans)
    (stats : InstrumentStats) :
    (do
      let _ ← editBlocks (plans.flatMap namedInsertions) insertQueued
      editBlock entry fun b => ((), insertAfterHeaders (hooks s) b)
      return stats : Rewriting InstrumentStats).run
        (routines.foldl (fun q r => q.declare r.name r.signature) p) =
      .ok stats ((routines.foldl (fun q r => q.declare r.name r.signature) p).mapBlocks
        (instrumentBlock settings entry s)) := by
  have hdeclared := check_foldl_declare routines hcheck
  have hsame := findBlock_foldl_declare routines p
  have hlabel : ∀ ref b,
      (edited (plans.flatMap namedInsertions) insertQueued ref b).label = b.label :=
    label_edited fun _ _ _ => rfl
  obtain ⟨found, hcounted⟩ := run_editBlocks_namedInsertions hcheck hplans hdeclared hsame
  obtain ⟨d, hd, -, first, rest, hblocks, rfl⟩ := (entryBlock_eq_ok_iff hcheck).1 hentry
  have hfirst : first ∈ d.blocks := by simp [hblocks]
  -- The entry block is looked up again, with the calls that count already in it.
  have hfound : ((routines.foldl (fun q r => q.declare r.name r.signature) p).mapBlocks
      (edited (plans.flatMap namedInsertions) insertQueued)).findBlock ⟨d.name, first.label⟩ =
      .ok (edited (plans.flatMap namedInsertions) insertQueued ⟨d.name, first.label⟩ first) := by
    have hblock : p.findBlock ⟨d.name, first.label⟩ = .ok first :=
      (Program.findBlock_eq_ok_iff hcheck).2
        ⟨d, Program.mem_definitions_of_block hd hfirst, rfl, hfirst, rfl⟩
    rw [Program.findBlock_mapBlocks hlabel, hsame, hblock]
    rfl
  rw [run_bind_of_ok hcounted,
    run_bind_of_ok (run_editBlock (Program.check_mapBlocks hlabel hdeclared) hfound),
    Program.mapBlocks_mapBlocks hlabel]
  change EStateM.Result.ok stats _ = _
  refine congrArg (EStateM.Result.ok stats) (Program.mapBlocks_congr fun e he b hb => ?_)
  have hmem := mem_of_mem_foldl_declare he hb
  obtain ⟨plan, -, hplan⟩ := exists_blockPlan hplans hmem hb
  rw [edited_namedInsertions hcheck hplans hmem hb hplan, instrumentBlock_of_ok hplan]

/-- Instrumenting in place changes the program into the one that is computed from it, or not at
all. -/
theorem rewrite_eq_run (settings : Settings) (p : Program) :
    (rewrite settings).run p = allOrNothing p (run settings p) := by
  rw [run_eq_staged]
  refine run_inspect_bind fun _ hcheck => run_inspect_bind fun entry hentry =>
    run_inspect_bind fun s _ => run_inspect_bind_of_follows (follows_planProgram s p) ?_
  rintro plans _ t hplans ⟨rfl, hfits⟩
  simp only [hfits.wanted_eq, hfits.stats_eq, List.forM_eq_forM, List.forM_map]
  refine run_inspect_bind fun _ hchecked => ?_
  have hdeclare := run_forM_require (nodup_usedRoutines _) (forM_eq_ok_iff.1 hchecked)
  exact (run_bind_of_ok hdeclare).trans (run_edits hcheck hentry hplans _)

theorem rewrite_eq_ok_iff :
    (rewrite settings).run p = .ok stats q ↔ run settings p = .ok (q, stats) := by
  rw [rewrite_eq_run, allOrNothing_eq_ok_iff]

end Instrumentation

end LeastPrivilege
