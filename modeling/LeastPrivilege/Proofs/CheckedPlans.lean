import LeastPrivilege.Drop.Insertion
import LeastPrivilege.Proofs.InPlace
import LeastPrivilege.Proofs.Padding

/-!
# A plan is carried out as a whole or not at all

Inserting drops in place comes to the same as the computation that hands over a new program: once
the plan has passed its checks, every block that an entry names is found when its turn comes, after
the declaration and whatever has been done to other blocks. So a run either carries out the plan or
leaves the program as it was, and which of the two happens can be read off the plan and the program.
-/

namespace LeastPrivilege

namespace DropInserter

open Rewriting

variable {d : DropInserter} {plan : DropPlan} {p p' : Program} {counts : DropStats}
  {procedure : String} {ref : BlockRef} {s : CapabilitySet} {b : Block}

/-! ## Padding -/

/-- An operation that gives capabilities up. -/
def IsDrop (d : DropInserter) (op : Operation) : Prop :=
  ∃ s, op = d.drop s

theorem paddedTo_insertAtEnd (procedure : String) (s : CapabilitySet) (b : Block) :
    b.PaddedTo d.IsDrop (d.insertAtEnd procedure s b) := by
  rw [insertAtEnd]
  cases d.skip? procedure s b with
  | some reason => exact .refl _ b
  | none => exact ⟨rfl, .insertIdx ⟨s, rfl⟩ _ _⟩

theorem paddedTo_insertAtStart (procedure : String) (s : CapabilitySet) (b : Block) :
    b.PaddedTo d.IsDrop (d.insertAtStart procedure s b) := by
  rw [insertAtStart]
  cases d.skip? procedure s b with
  | some reason => exact .refl _ b
  | none => exact ⟨rfl, .insertIdx ⟨s, rfl⟩ _ _⟩

theorem paddedTo_applyPlan (plan : DropPlan) (ref : BlockRef) (b : Block) :
    b.PaddedTo d.IsDrop (d.applyPlan plan ref b) := by
  have hend : b.PaddedTo d.IsDrop (d.applyAtEnd plan ref b) := by
    rw [applyAtEnd]
    cases plan.atEnd[ref]? with
    | some s => exact paddedTo_insertAtEnd ref.procedure s b
    | none => exact .refl _ b
  rw [applyPlan]
  cases plan.atStart[ref]? with
  | some s => exact hend.trans (paddedTo_insertAtStart ref.procedure s _)
  | none => exact hend

/-- What a run that succeeds has found and done. -/
theorem run_eq_ok (h : d.run plan p = .ok (p', counts)) :
    ∃ atEnd atStart, p.check = .ok () ∧ d.decisions p (fun _ b => b) plan.atEnd = .ok atEnd ∧
      d.decisions p (d.applyAtEnd plan) plan.atStart = .ok atStart ∧
      counts = stats atEnd atStart ∧
      p' = (p.declare d.settings.removePrimitive removeSignature).mapBlocks (d.applyPlan plan) := by
  obtain ⟨_, hcheck, h⟩ := bind_eq_ok.1 h
  obtain ⟨atEnd, hend, h⟩ := bind_eq_ok.1 h
  obtain ⟨atStart, hstart, h⟩ := bind_eq_ok.1 h
  obtain ⟨declared, hdeclared, h⟩ := bind_eq_ok.1 h
  obtain ⟨_, -, hdeclared⟩ := bind_eq_ok.1 hdeclared
  obtain rfl := Except.ok.inj hdeclared
  obtain ⟨rfl, rfl⟩ := Prod.mk.inj (Except.ok.inj h)
  exact ⟨atEnd, atStart, hcheck, hend, hstart, rfl, rfl⟩

/-- Inserting drops puts drops into the blocks, and may declare the procedure that they call. -/
theorem paddedTo_of_run (h : d.run plan p = .ok (p', counts)) :
    p.PaddedTo (fun _ => d.IsDrop) (· = d.settings.removePrimitive) p' := by
  obtain ⟨_, _, -, -, -, -, rfl⟩ := run_eq_ok h
  have hkept : List.Forall₂ (fun e e' => e.PaddedTo d.IsDrop e') p.procedures
      (p.mapBlocks (d.applyPlan plan)).procedures := by
    refine List.forall₂_map_right_iff.2 (List.forall₂_same.2 fun e _ => ⟨rfl, rfl, rfl, ?_⟩)
    refine List.forall₂_map_right_iff.2 (List.forall₂_same.2 fun b _ => ?_)
    exact paddedTo_applyPlan plan ⟨e.name, b.label⟩ b
  rcases p.declare_cases d.settings.removePrimitive removeSignature with ⟨-, heq⟩ | ⟨-, heq⟩
  · rw [heq]
    exact ⟨rfl, _, [], (List.append_nil _).symm, hkept, by simp⟩
  · rw [heq]
    refine ⟨rfl, _, [Procedure.declare d.settings.removePrimitive removeSignature], ?_, hkept, ?_⟩
    · rw [Program.mapBlocks, List.map_append]
      rfl
    · simp [Procedure.declare, Procedure.isDeclaration]

/-! ## Looking up -/

theorem findTarget_eq_ok_iff :
    findTarget p ref = .ok b ↔ p.findBlock ref = .ok b ∧
      ∃ op, b.operations.getLast? = some op ∧ op.isTerminator = true := by
  rw [findTarget, bind_eq_ok, ← Block.isNone_terminator?]
  constructor
  · rintro ⟨found, hfound, h⟩
    cases hends : found.terminator?.isNone with
    | true =>
      rw [hends] at h
      cases h
    | false =>
      rw [hends] at h
      obtain rfl : found = b := Except.ok.inj h
      exact ⟨hfound, hends⟩
  · rintro ⟨hfound, hends⟩
    refine ⟨b, hfound, ?_⟩
    rw [hends]
    rfl

/-! ## Carrying out a plan -/

theorem edited_toList {α : Type} (table : DropTable)
    (edit : BlockRef → CapabilitySet → Block → α × Block) (ref : BlockRef) (b : Block) :
    edited table.toList edit ref b =
      match table[ref]? with
      | some s => (edit ref s b).2
      | none => b := by
  have hkeys : table.toList.map Prod.fst = table.keys := Std.ExtTreeMap.map_fst_toList_eq_keys
  cases hentry : table[ref]? with
  | some s =>
    have hnodup : (table.toList.map Prod.fst).Nodup := hkeys ▸ Std.ExtTreeMap.nodup_keys
    exact edited_of_mem hnodup (Std.ExtTreeMap.mem_toList_iff_getElem?_eq_some.2 hentry)
  | none =>
    refine edited_of_not_mem ?_
    rw [hkeys, Std.ExtTreeMap.mem_keys, Std.ExtTreeMap.mem_iff_isSome_getElem?, hentry]
    exact Bool.false_ne_true

theorem mem_of_getElem? {table : DropTable} (h : table[ref]? = some s) : ref ∈ table :=
  Std.ExtTreeMap.mem_iff_isSome_getElem?.2 (by rw [h]; rfl)

theorem edited_atEnd : edited plan.atEnd.toList d.dropAtEnd = d.applyAtEnd plan := by
  funext ref b
  rw [edited_toList, applyAtEnd]
  cases plan.atEnd[ref]? <;> rfl

theorem edited_atStart (ref : BlockRef) (b : Block) :
    edited plan.atStart.toList d.dropAtStart ref (d.applyAtEnd plan ref b) =
      d.applyPlan plan ref b := by
  rw [edited_toList, applyPlan]
  cases plan.atStart[ref]? <;> rfl

/-- What the checks of a table say about its decisions. -/
theorem decisions_eq_error {table : DropTable} {e : Error}
    (h : (table.keys.forM fun ref => (findTarget p ref).map fun _ => ()) = .error e)
    (before : BlockRef → Block → Block) : d.decisions p before table = .error e := by
  rw [← Std.ExtTreeMap.map_fst_toList_eq_keys, List.forM_eq_forM, List.forM_map] at h
  exact mapM_map_eq_error h _

theorem exists_decisions {table : DropTable}
    (h : ∀ ref ∈ table, ∃ b, findTarget p ref = .ok b) (before : BlockRef → Block → Block) :
    ∃ found, d.decisions p before table = .ok found := by
  refine exists_mapM_eq_ok_iff.2 fun entry hentry => ?_
  obtain ⟨b, hb⟩ := h entry.1
    (mem_of_getElem? (Std.ExtTreeMap.mem_toList_iff_getElem?_eq_some.1 hentry))
  exact ⟨_, by rw [hb]; rfl⟩

theorem forall₂_of_decisions {table : DropTable} {before : BlockRef → Block → Block}
    {found : List (Option DropSkip)} (h : d.decisions p before table = .ok found) :
    List.Forall₂ (fun entry o => ∃ b, p.findBlock entry.1 = .ok b ∧
      d.skip? entry.1.procedure entry.2 (before entry.1 b) = o) table.toList found := by
  refine (forall₂_of_mapM_eq_ok h).imp fun entry o hentry => ?_
  obtain ⟨b, hb, ho⟩ := map_eq_ok.1 hentry
  exact ⟨b, (findTarget_eq_ok_iff.1 hb).1, ho⟩

theorem nodup_toList (table : DropTable) : (table.toList.map Prod.fst).Nodup := by
  rw [Std.ExtTreeMap.map_fst_toList_eq_keys]
  exact Std.ExtTreeMap.nodup_keys

/-- Once every block has been found, nothing that a plan asks for can fail. -/
theorem run_edits {q : Program} {atEnd atStart : List (Option DropSkip)} (hcheck : q.check = .ok ())
    (hsame : ∀ ref, q.findBlock ref = p.findBlock ref)
    (hend : d.decisions p (fun _ b => b) plan.atEnd = .ok atEnd)
    (hstart : d.decisions p (d.applyAtEnd plan) plan.atStart = .ok atStart) :
    (do
      let atEnd ← editBlocks plan.atEnd.toList d.dropAtEnd
      let atStart ← editBlocks plan.atStart.toList d.dropAtStart
      return stats atEnd atStart : Rewriting DropStats).run q =
      .ok (stats atEnd atStart) (q.mapBlocks (d.applyPlan plan)) := by
  have hlabelEnd : ∀ ref s b, (d.dropAtEnd ref s b).2.label = b.label :=
    fun _ s b => (paddedTo_insertAtEnd _ s b).label_eq
  have hlabelStart : ∀ ref s b, (d.dropAtStart ref s b).2.label = b.label :=
    fun _ s b => (paddedTo_insertAtStart _ s b).label_eq
  have hlabel : ∀ ref b, (d.applyAtEnd plan ref b).label = b.label := by
    rw [← edited_atEnd]
    exact label_edited hlabelEnd
  have hfoundEnd : List.Forall₂ (fun entry o => ∃ b, q.findBlock entry.1 = .ok b ∧
      (d.dropAtEnd entry.1 entry.2 b).1 = o) plan.atEnd.toList atEnd := by
    refine (forall₂_of_decisions hend).imp ?_
    rintro entry o ⟨b, hb, rfl⟩
    exact ⟨b, (hsame entry.1).trans hb, rfl⟩
  -- The second table is looked up in the program that the first has changed.
  have hfoundStart : List.Forall₂ (fun entry o => ∃ b,
      (q.mapBlocks (d.applyAtEnd plan)).findBlock entry.1 = .ok b ∧
        (d.dropAtStart entry.1 entry.2 b).1 = o) plan.atStart.toList atStart := by
    refine (forall₂_of_decisions hstart).imp ?_
    rintro entry o ⟨b, hb, rfl⟩
    refine ⟨d.applyAtEnd plan entry.1 b, ?_, rfl⟩
    rw [Program.findBlock_mapBlocks hlabel, hsame, hb]
    rfl
  have hfirst := run_editBlocks hlabelEnd (nodup_toList plan.atEnd) hcheck hfoundEnd
  have hsecond := run_editBlocks hlabelStart (nodup_toList plan.atStart)
    (Program.check_mapBlocks hlabel hcheck) hfoundStart
  rw [edited_atEnd] at hfirst
  rw [Program.mapBlocks_mapBlocks hlabel] at hsecond
  simp only [edited_atStart] at hsecond
  rw [run_bind_of_ok hfirst, run_bind_of_ok hsecond]
  rfl

theorem checkTargets_eq_ok_iff : checkTargets plan p = .ok () ↔
    ∀ ref, ref ∈ plan.atEnd ∨ ref ∈ plan.atStart → ∃ b, findTarget p ref = .ok b := by
  rw [checkTargets, forM_eq_ok_iff]
  refine forall_congr' fun ref => ?_
  rw [List.mem_append, Std.ExtTreeMap.mem_keys, Std.ExtTreeMap.mem_keys, map_eq_ok]
  exact imp_congr_right fun _ => exists_congr fun b => and_iff_left rfl

/-- The decisions fail as the check does, with the same error. -/
theorem decisions_of_checkTargets {α : Type} {e : Error} (h : checkTargets plan p = .error e)
    (before : BlockRef → Block → Block)
    (f : List (Option DropSkip) → List (Option DropSkip) → Except Error α) :
    (do
      let atEnd ← d.decisions p (fun _ b => b) plan.atEnd
      let atStart ← d.decisions p before plan.atStart
      f atEnd atStart) = .error e := by
  have happend : checkTargets plan p =
      plan.atEnd.keys.forM (fun ref => (findTarget p ref).map fun _ => ()) >>= fun _ =>
        plan.atStart.keys.forM fun ref => (findTarget p ref).map fun _ => () := List.forM_append
  rw [happend] at h
  cases hend : plan.atEnd.keys.forM fun ref => (findTarget p ref).map fun _ => () with
  | error e' =>
    rw [hend] at h
    obtain rfl : e' = e := Except.error.inj h
    rw [decisions_eq_error hend]
    rfl
  | ok _ =>
    rw [hend] at h
    have hfound : ∀ ref ∈ plan.atEnd, ∃ b, findTarget p ref = .ok b := by
      intro ref href
      obtain ⟨b, hb, -⟩ := map_eq_ok.1
        (forM_eq_ok_iff.1 hend ref (Std.ExtTreeMap.mem_keys.2 href))
      exact ⟨b, hb⟩
    obtain ⟨atEnd, hatEnd⟩ := d.exists_decisions hfound fun _ b => b
    rw [hatEnd, decisions_eq_error h]
    rfl

/-- The computation fails where the check of the plan does, so the check may come first. -/
theorem run_eq_checked (d : DropInserter) (plan : DropPlan) (p : Program) :
    d.run plan p = (do
      p.check
      checkTargets plan p
      let atEnd ← d.decisions p (fun _ b => b) plan.atEnd
      let atStart ← d.decisions p (d.applyAtEnd plan) plan.atStart
      let declared ← p.require d.settings.removePrimitive removeSignature
      return (declared.mapBlocks (d.applyPlan plan), stats atEnd atStart)) := by
  rw [run]
  cases hlook : checkTargets plan p with
  | ok _ => rfl
  | error e =>
    rw [decisions_of_checkTargets hlook]
    rfl

theorem exists_decisions_of_checkTargets (h : checkTargets plan p = .ok ()) :
    ∃ atEnd atStart, d.decisions p (fun _ b => b) plan.atEnd = .ok atEnd ∧
      d.decisions p (d.applyAtEnd plan) plan.atStart = .ok atStart := by
  have htargets := checkTargets_eq_ok_iff.1 h
  obtain ⟨atEnd, hend⟩ :=
    d.exists_decisions (fun ref href => htargets ref (Or.inl href)) fun _ b => b
  obtain ⟨atStart, hstart⟩ :=
    d.exists_decisions (fun ref href => htargets ref (Or.inr href)) (d.applyAtEnd plan)
  exact ⟨atEnd, atStart, hend, hstart⟩

/-- Inserting drops in place changes the program into the one that is computed from it, or not at
all. -/
theorem rewrite_eq_run (d : DropInserter) (plan : DropPlan) (p : Program) :
    (d.rewrite plan).run p = allOrNothing p (d.run plan p) := by
  rw [run_eq_checked]
  refine run_inspect_bind fun _ hcheck => run_inspect_bind fun _ hlook => ?_
  obtain ⟨atEnd, atStart, hend, hstart⟩ := d.exists_decisions_of_checkTargets hlook
  rw [hend, hstart, EStateM.run_bind, run_require]
  cases hsignature : p.checkSignature d.settings.removePrimitive removeSignature with
  | error e =>
    rw [Program.require, hsignature]
    rfl
  | ok _ =>
    rw [Program.require, hsignature]
    exact run_edits (Program.check_declare hcheck)
      (p.findBlock_declare d.settings.removePrimitive removeSignature) hend hstart

theorem rewrite_eq_ok_iff :
    (d.rewrite plan).run p = .ok counts p' ↔ d.run plan p = .ok (p', counts) := by
  rw [rewrite_eq_run, allOrNothing_eq_ok_iff]

/-! ## When a plan is carried out -/

theorem exists_run_eq_ok_iff : (∃ q stats, d.run plan p = .ok (q, stats)) ↔
    p.check = .ok () ∧ checkTargets plan p = .ok () ∧
      p.checkSignature d.settings.removePrimitive removeSignature = .ok () := by
  rw [run_eq_checked]
  constructor
  · rintro ⟨q, stats, h⟩
    obtain ⟨_, hcheck, h⟩ := bind_eq_ok.1 h
    obtain ⟨_, htargets, h⟩ := bind_eq_ok.1 h
    obtain ⟨atEnd, -, h⟩ := bind_eq_ok.1 h
    obtain ⟨atStart, -, h⟩ := bind_eq_ok.1 h
    obtain ⟨declared, hdeclared, -⟩ := bind_eq_ok.1 h
    obtain ⟨_, hsignature, -⟩ := bind_eq_ok.1 hdeclared
    exact ⟨hcheck, htargets, hsignature⟩
  · rintro ⟨hcheck, htargets, hsignature⟩
    obtain ⟨atEnd, atStart, hend, hstart⟩ := d.exists_decisions_of_checkTargets htargets
    refine ⟨(p.declare d.settings.removePrimitive removeSignature).mapBlocks (d.applyPlan plan),
      stats atEnd atStart, ?_⟩
    rw [hcheck, htargets, hend, hstart, Program.require, hsignature]
    rfl

/-- Inserting drops succeeds just if names are used once, every block that the plan names is there,
in a definition, and ends in a terminator, and the procedure that gives capabilities up is missing
or has its signature. Whether a drop is then left out does not matter, nor which procedures are
taken for signal handlers. A run that fails leaves the program as it was. -/
theorem plan_carried_out_or_untouched (d : DropInserter) (plan : DropPlan) (p : Program) :
    ((∃ stats q, (d.rewrite plan).run p = .ok stats q) ↔
      p.check = .ok () ∧
      (∀ ref, ref ∈ plan.atEnd ∨ ref ∈ plan.atStart →
        ∃ e ∈ p.definitions, e.name = ref.procedure ∧
          ∃ b ∈ e.blocks, b.label = ref.block ∧
            ∃ op, b.operations.getLast? = some op ∧ op.isTerminator = true) ∧
      ∀ e ∈ p.procedures, e.name = d.settings.removePrimitive →
        e.signature = { params := [.i32], ret := .i32, variadic := true }) ∧
    ∀ error q, (d.rewrite plan).run p = .error error q → q = p := by
  constructor
  · simp only [rewrite_eq_ok_iff]
    rw [exists_comm, exists_run_eq_ok_iff, checkTargets_eq_ok_iff]
    refine and_congr_right fun hcheck => and_congr ?_ (Program.checkSignature_eq_ok_iff hcheck)
    refine forall_congr' fun ref => imp_congr_right fun _ => ?_
    simp only [findTarget_eq_ok_iff, Program.findBlock_eq_ok_iff hcheck]
    constructor
    · rintro ⟨b, ⟨e, he, hname, hb, hlabel⟩, hends⟩
      exact ⟨e, he, hname, b, hb, hlabel, hends⟩
    · rintro ⟨e, he, hname, b, hb, hlabel, hends⟩
      exact ⟨b, ⟨e, he, hname, hb, hlabel⟩, hends⟩
  · intro error q herror
    rw [rewrite_eq_run] at herror
    exact eq_of_allOrNothing_eq_error herror

/-- A block with nothing between its headers and its end, and one that stops the program. -/
def stopUnit : Program where
  name := "stop"
  procedures :=
    [{ name := "main"
       blocks := [⟨"entry", [.phi, .branch ["stop"]]⟩,
         ⟨"stop", [.phi, .call (.direct "llvm.trap" []), .ret]⟩] }]

/-- Drops at both places of the first block and at the end of the second. -/
def stopPlan : DropPlan where
  atEnd := (DropTable.add ∅ ⟨"main", "entry"⟩ (.single .sysAdmin)).add ⟨"main", "stop"⟩
    (.single .chown)
  atStart := DropTable.add ∅ ⟨"main", "entry"⟩ (.single .chown)

/-- The first block with both its drops. -/
def stopEntry : Block where
  label := "entry"
  operations := [.phi, .call (.direct "priv_remove" [.i32 1, .i32 0]),
    .call (.direct "priv_remove" [.i32 1, .i32 21]), .branch ["stop"]]

/-- The program after the plan has been carried out. -/
def stopDropped : Program where
  name := "stop"
  procedures :=
    [{ name := "main"
       blocks := [stopEntry, ⟨"stop", [.phi, .call (.direct "llvm.trap" []), .ret]⟩] },
      .declare "priv_remove" removeSignature]

theorem run_stop : run {} stopPlan stopUnit =
    .ok (stopDropped, { insertedAtEnd := 1, insertedAtStart := 1, skippedTrap := 1 }) := by
  decide +kernel

/-- A plan that names a block which is not there, though it has nothing to drop in it. -/
def lostPlan : DropPlan where
  atEnd := stopPlan.atEnd
  atStart := stopPlan.atStart.add ⟨"main", "lost"⟩ ∅

theorem plan_carried_out_or_untouched_lost :
    ∃ error, (rewrite {} lostPlan).run stopUnit = .error error stopUnit := by
  obtain ⟨hok, huntouched⟩ := plan_carried_out_or_untouched {} lostPlan stopUnit
  cases hrun : (rewrite {} lostPlan).run stopUnit with
  | ok stats q =>
    have hnamed : ⟨"main", "lost"⟩ ∈ lostPlan.atStart := by decide +kernel
    have hlabels : ∀ e ∈ stopUnit.definitions, ∀ b ∈ e.blocks, b.label ≠ "lost" := by decide
    obtain ⟨-, htargets, -⟩ := hok.1 ⟨stats, q, hrun⟩
    obtain ⟨e, he, -, b, hb, hlabel, -⟩ := htargets _ (Or.inr hnamed)
    exact absurd hlabel (hlabels e he b hb)
  | error error q => exact ⟨error, by rw [huntouched error q hrun]⟩

end DropInserter

end LeastPrivilege
