import LeastPrivilege.Proofs.Totals

/-!
# Paths through the entry

Control runs through the blocks of the entry from the first one on, by the branches at their ends.
The counter is set up in the first block, so what it has counted in the end is what was executed
since that block was last entered.
-/

namespace LeastPrivilege

/-- The labels that the branch at the end of a block names. -/
def Block.successors (b : Block) : List String :=
  match b.terminator? with
  | some (.branch targets) => targets
  | _ => []

/-- Blocks through which control may run one after the other, from the first one of a procedure. -/
structure Procedure.IsPath (d : Procedure) (path : List Block) : Prop where
  head?_eq : path.head? = d.blocks.head?
  mem_blocks : ∀ b ∈ path, b ∈ d.blocks
  steps : path.IsChain fun b b' => b'.label ∈ b.successors

/-! ## Finding what has been instrumented -/

theorem find?_modifyFirst {α : Type} {f : α → String} {g : α → α} (hname : ∀ x, f (g x) = f x)
    (key name : String) (xs : List α) :
    (modifyFirst (f · == key) g xs).find? (f · == name) =
      (xs.find? (f · == name)).map (if name = key then g else id) := by
  induction xs with
  | nil => rfl
  | cons x xs ih =>
    rw [modifyFirst]
    by_cases hkey : f x = key
    · by_cases heq : key = name
      · simp [hkey, hname, heq]
      · simp [hkey, hname, heq, Ne.symm heq]
    · by_cases hx : f x = name
      · simp [hx, show ¬name = key from hx ▸ hkey]
      · simp [hkey, hx, ih]

theorem Block.live_length_pos {b : Block} {label : String} (h : label ∈ b.successors) :
    0 < b.live.length := by
  rw [successors] at h
  split at h
  · next targets hterminator =>
    have hlive : b.live = b.operations := by
      rw [live, if_neg (by simp [endsUnreachable, hterminator])]
    have hlast := (Option.filter_eq_some_iff.1 hterminator).1
    rw [hlive]
    exact List.length_pos_of_mem (List.mem_of_getLast? hlast)
  · cases h

namespace Instrumentation

open Counter

variable {settings : Settings} {p q : Program} {stats : InstrumentStats} {d : Procedure}
  {first b b' : Block} {path rest : List Block} {s : CapabilitySet}

/-- What becomes of a block of the entry: it is counted, and the first one gets the hooks. -/
def EntryBlock (settings : Settings) (s : CapabilitySet) (d : Procedure) (b b' : Block) : Prop :=
  ∃ plan, BlockPlan.ofBlock settings d.name b = .ok plan ∧
    b' = if d.blocks.head? = some b then insertAfterHeaders (hooks s) plan.result else plan.result

theorem EntryBlock.label_eq (h : EntryBlock settings s d b b') : b'.label = b.label := by
  obtain ⟨plan, hplan, rfl⟩ := h
  have hlabel := (BlockPlan.instrumented_result hplan).label_eq
  split <;> exact hlabel

/-- A procedure of an instrumented program comes from its plan. The entry has the hooks in its first
block. -/
theorem procedure?_of_run (h : run settings p = .ok (q, stats)) {name : String}
    (hd : p.procedure? name = some d) :
    ∃ plan, ProcedurePlan.ofProcedure settings d = .ok plan ∧ q.procedure? name =
      some (if name = settings.entry then
        modifyEntryBlock (insertAfterHeaders (hooks stats.initialSet)) plan.result
      else plan.result) := by
  obtain ⟨plans, -, -, -, hplans, hq⟩ := run_eq_ok h
  have hname : ∀ d plan, ProcedurePlan.ofProcedure settings d = .ok plan →
      plan.result.name = d.name := by
    intro d plan hplan
    rw [ProcedurePlan.result, (ProcedurePlan.ofProcedure_eq_ok hplan).1]
  obtain ⟨plan, hfound, hplan⟩ :=
    exists_find?_of_forall₂ (forall₂_of_mapM_eq_ok hplans) hname hd
  have hkept : (modifyFirst (·.name == settings.entry)
      (modifyEntryBlock (insertAfterHeaders (hooks stats.initialSet)))
      (plans.map ProcedurePlan.result)).find? (·.name == name) =
      some (if name = settings.entry then
        modifyEntryBlock (insertAfterHeaders (hooks stats.initialSet)) plan.result
      else plan.result) := by
    have hkeeps : ∀ d : Procedure, (modifyEntryBlock
        (insertAfterHeaders (hooks stats.initialSet)) d).name = d.name := fun _ => rfl
    rw [find?_modifyFirst hkeeps, List.find?_map, Function.comp_def, hfound]
    split <;> rfl
  obtain ⟨declared, hdeclared, -⟩ := foldl_declare
    (usedRoutines (plans.flatMap ProcedurePlan.blocks)) { p with procedures := _ }
  refine ⟨plan, hplan, ?_⟩
  rw [hq, hdeclared, Program.procedure?, List.find?_append, hkept]
  rfl

theorem forall₂_entryBlock {plan : ProcedurePlan} (hlabels : (d.blocks.map Block.label).Nodup)
    (hplan : ProcedurePlan.ofProcedure settings d = .ok plan) :
    List.Forall₂ (EntryBlock settings s d) d.blocks
      (modifyEntryBlock (insertAfterHeaders (hooks s)) plan.result).blocks := by
  have hplans := (ProcedurePlan.ofProcedure_eq_ok hplan).2
  cases hblocks : d.blocks with
  | nil =>
    rw [hblocks] at hplans
    rw [modifyEntryBlock, ProcedurePlan.result, List.forall₂_nil_left_iff.1 hplans]
    exact .nil
  | cons first others =>
    rw [hblocks] at hplans hlabels
    obtain ⟨firstPlan, otherPlans, hfirst, hothers, hplanBlocks⟩ :=
      List.forall₂_cons_left_iff.1 hplans
    have hhead : d.blocks.head? = some first := by rw [hblocks, List.head?_cons]
    -- Labels are used once, so the first block does not come again among the others.
    have hnot : ∀ b ∈ others, d.blocks.head? ≠ some b := by
      intro b hb hagain
      obtain rfl := Option.some.inj (hhead.symm.trans hagain)
      exact (List.nodup_cons.1 hlabels).1 (List.mem_map_of_mem hb)
    rw [modifyEntryBlock, ProcedurePlan.result, hplanBlocks, List.map_cons, List.modifyHead_cons]
    refine .cons ⟨firstPlan, hfirst, (if_pos hhead).symm⟩ ?_
    rw [List.forall₂_map_right_iff]
    refine ((List.forall₂_and_left ..).2 ⟨hnot, hothers⟩).imp ?_
    rintro b plan ⟨hne, hplan⟩
    exact ⟨plan, hplan, (if_neg hne).symm⟩

theorem exists_block?_entry (h : run settings p = .ok (q, stats))
    (hentry : p.procedure? settings.entry = some d) (hb : b ∈ d.blocks) :
    ∃ b', q.block? ⟨settings.entry, b.label⟩ = some b' ∧
      EntryBlock settings stats.initialSet d b b' := by
  obtain ⟨_, hcheck, -⟩ := run_eq_ok h
  have hlabels := (Program.check_eq_ok_iff.1 hcheck).2 d (List.mem_of_find?_eq_some hentry)
  obtain ⟨plan, hplan, hfound⟩ := procedure?_of_run h hentry
  rw [if_pos rfl] at hfound
  rw [Program.block?, hfound]
  exact exists_find?_of_forall₂ (forall₂_entryBlock hlabels hplan) (fun _ _ hb => hb.label_eq)
    (find?_name_of_mem hlabels hb)

/-! ## What is counted on a path -/

theorem event?_of_isHeader {op : Operation} (h : op.isHeader = true) : op.event? = none := by
  cases op with
  | phi => rfl
  | _ => cases h

/-- The hooks set the counter up before anything else happens in their block. -/
theorem events_insertAfterHeaders (s : CapabilitySet) (b : Block) :
    (insertAfterHeaders (hooks s) b).operations.filterMap Operation.event? =
      .start s :: b.operations.filterMap Operation.event? := by
  have hheaders : (b.operations.takeWhile Operation.isHeader).filterMap Operation.event? = [] := by
    rw [List.filterMap_eq_nil_iff]
    intro op hop
    exact event?_of_isHeader (List.all_eq_true.1 List.all_takeWhile op hop)
  have hstart : (Routine.start.invoke [.i64 (.ofNat s.bits)]).event? = some (.start s) := by
    rw [Operation.event?_invoke]
    change some (Event.start (.ofBitsTruncate (UInt64.ofNat s.bits).toNat)) = _
    rw [Operation.toNat_bits, CapabilitySet.ofBitsTruncate_bits]
  have hexit : (Routine.atExit.invoke [.procedure Routine.report.name]).event? = none := by
    rw [Operation.event?_invoke]
    rfl
  have hhooks : (hooks s).filterMap Operation.event? = [.start s] := by
    change [Routine.start.invoke _, Routine.atExit.invoke _].filterMap Operation.event? = _
    simp [hstart, hexit]
  have hself : b.operations.filterMap Operation.event? =
      (b.operations.dropWhile Operation.isHeader).filterMap Operation.event? := by
    conv_lhs => rw [← b.headers_append, List.filterMap_append, hheaders]
    rfl
  rw [insertAfterHeaders, b.take_headerCount, b.drop_headerCount, List.filterMap_append,
    List.filterMap_append, hheaders, hhooks, hself]
  rfl

/-- What the counter sees of a block of the entry: all that is executed is counted, and before that
the counter is set up if it is the first block. -/
def SeenAs (s : CapabilitySet) (d : Procedure) (b b' : Block) : Prop :=
  ∃ later, b'.operations.filterMap Operation.event? =
      (if d.blocks.head? = some b then [.start s] else []) ++ later ∧
    Event.countedBy later = b.live.length ∧ ∀ e ∈ later, e.initial? = none

theorem EntryBlock.seenAs (h : EntryBlock settings s d b b')
    (hlength : b.operations.length < UInt32.size)
    (hroutines : ∀ op ∈ b.operations, op.routine? = none) : SeenAs s d b b' := by
  obtain ⟨plan, hplan, rfl⟩ := h
  refine ⟨_, ?_, BlockPlan.events_result hplan hlength hroutines⟩
  split
  · exact events_insertAfterHeaders s plan.result
  · rfl

/-- Along blocks other than the first one, all that is executed is counted. -/
theorem countedBy_path {f : Block → Block} (h : ∀ b ∈ path, SeenAs s d b (f b))
    (hfirst : ∀ b ∈ path, d.blocks.head? ≠ some b) :
    Event.countedBy ((path.flatMap fun b => (f b).operations).filterMap Operation.event?) =
        (path.map fun b => b.live.length).sum ∧
      ∀ e ∈ (path.flatMap fun b => (f b).operations).filterMap Operation.event?,
        e.initial? = none := by
  induction path with
  | nil => exact ⟨rfl, by simp⟩
  | cons b path ih =>
    obtain ⟨⟨later, hevents, hcounted, hrequest⟩, hpath⟩ := List.forall_mem_cons.1 h
    obtain ⟨hb, hothers⟩ := List.forall_mem_cons.1 hfirst
    obtain ⟨hcounted', hrequest'⟩ := ih hpath hothers
    rw [if_neg hb, List.nil_append] at hevents
    rw [List.flatMap_cons, List.filterMap_append, hevents, Event.countedBy_append, hcounted,
      hcounted', List.map_cons, List.sum_cons]
    exact ⟨rfl, List.forall_mem_append.2 ⟨hrequest, hrequest'⟩⟩

/-- What is counted along blocks is what is executed of them since the first block of the procedure.
-/
theorem total_since_first {f : Block → Block} {before after : List Block}
    (h : ∀ b ∈ before ++ first :: after, SeenAs s d b (f b)) (hfirst : d.blocks.head? = some first)
    (hlast : first ∉ after) (pid : UInt32) (identity : Nat → Identity) :
    (fresh.execute pid identity
      (((before ++ first :: after).map f).flatMap Block.operations)).total =
      ((first :: after).map fun b => b.live.length).sum := by
  obtain ⟨⟨later, hevents, hcounted, hrequest⟩, hafter⟩ :=
    List.forall_mem_cons.1 (List.forall_mem_append.1 h).2
  obtain ⟨hcounted', hrequest'⟩ := countedBy_path hafter fun b hb hagain =>
    hlast (Option.some.inj (hfirst.symm.trans hagain) ▸ hb)
  rw [if_pos hfirst] at hevents
  have hall : (((before ++ first :: after).map f).flatMap Block.operations).filterMap
      Operation.event? =
      (before.flatMap fun b => (f b).operations).filterMap Operation.event? ++
        .start s :: (later ++
          (after.flatMap fun b => (f b).operations).filterMap Operation.event?) := by
    rw [List.flatMap_map, List.flatMap_append, List.flatMap_cons, List.filterMap_append,
      List.filterMap_append, hevents]
    rfl
  rw [total_execute_of_start fresh pid identity hall
      (List.forall_mem_append.2 ⟨hrequest, hrequest'⟩), Event.countedBy_append, hcounted, hcounted',
    List.map_cons, List.sum_cons]

/-- The blocks of a path are all found, and executing them counts what has been executed since the
first one was last entered. -/
theorem exists_counted_path (h : run settings p = .ok (q, stats))
    (hentry : p.procedure? settings.entry = some d)
    (hlength : ∀ b ∈ d.blocks, b.operations.length < UInt32.size)
    (hroutines : ∀ c ∈ d.calls, ∀ r : Routine, c.target? ≠ some r.name)
    (hpath : d.IsPath (first :: rest)) (pid : UInt32) (identity : Nat → Identity) :
    ∃ counted, List.Forall₂ (fun b b' => q.block? ⟨settings.entry, b.label⟩ = some b')
        (first :: rest) counted ∧
      ∀ before after, first :: rest = before ++ first :: after → first ∉ after →
        (fresh.execute pid identity (counted.flatMap Block.operations)).total =
          ((first :: after).map fun b => b.live.length).sum := by
  let f := fun b : Block => (q.block? ⟨settings.entry, b.label⟩).getD b
  have hfound : ∀ b ∈ first :: rest, q.block? ⟨settings.entry, b.label⟩ = some (f b) ∧
      SeenAs stats.initialSet d b (f b) := by
    intro b hb
    have hmem := hpath.mem_blocks b hb
    obtain ⟨b', hb', hblock⟩ := exists_block?_entry h hentry hmem
    have hf : f b = b' := by simp [f, hb']
    have hplain : ∀ op ∈ b.operations, op.routine? = none :=
      BlockPlan.routine?_of_calls fun c hc => hroutines c (List.mem_flatMap.2 ⟨b, hmem, hc⟩)
    rw [hf]
    exact ⟨hb', hblock.seenAs (hlength b hmem) hplain⟩
  refine ⟨(first :: rest).map f, ?_, ?_⟩
  · rw [List.forall₂_map_right_iff, List.forall₂_same]
    exact fun b hb => (hfound b hb).1
  · intro before after hsplit hlast
    rw [hsplit] at hfound ⊢
    exact total_since_first (fun b hb => (hfound b hb).2) hpath.head?_eq.symm hlast pid identity

/-- What a process has counted at the end of a path through the entry, from the first block on and
by the branches at the ends of blocks. The total is the number of operations that were executed
since the first block was last entered, whatever blocks the path visits how often. So it is the
number of all operations executed just if the path does not come back to the first block, where the
counter is set up again. -/
theorem total_along_path (h : run settings p = .ok (q, stats))
    (hentry : p.procedure? settings.entry = some d)
    (hlength : ∀ b ∈ d.blocks, b.operations.length < UInt32.size)
    (hroutines : ∀ c ∈ d.calls, ∀ r : Routine, c.target? ≠ some r.name)
    (hpath : d.IsPath (first :: rest)) (pid : UInt32) (identity : Nat → Identity) :
    ∃ counted, List.Forall₂ (fun b b' => q.block? ⟨settings.entry, b.label⟩ = some b')
        (first :: rest) counted ∧
      let total := (fresh.execute pid identity (counted.flatMap Block.operations)).total
      (∀ before after, first :: rest = before ++ first :: after → first ∉ after →
        total = ((first :: after).map fun b => b.live.length).sum) ∧
      (total = ((first :: rest).map fun b => b.live.length).sum ↔ first ∉ rest) := by
  obtain ⟨counted, hfound, htotal⟩ :=
    exists_counted_path h hentry hlength hroutines hpath pid identity
  refine ⟨counted, hfound, htotal, ?_, fun hlast => htotal [] rest rfl hlast⟩
  intro hall hagain
  obtain ⟨before, after, hsplit, hlast⟩ : ∃ before after, rest = before ++ first :: after ∧
      first ∉ after := by
    rcases exists_last (· = first) rest with hnone | ⟨before, b, after, hsplit, rfl, hafter⟩
    · exact absurd rfl (hnone first hagain)
    · exact ⟨before, after, hsplit, fun hmem => hafter b hmem rfl⟩
  -- The operations of the first visit are not in the total, and its branch at least is one.
  have hpositive : 0 < first.live.length := by
    cases hrest : rest with
    | nil => simp [hrest] at hagain
    | cons b others =>
      have hsteps := hpath.steps
      rw [hrest, List.isChain_cons_cons] at hsteps
      exact Block.live_length_pos hsteps.1
  have hpart := htotal (first :: before) after (by rw [hsplit, List.cons_append]) hlast
  rw [hpart, hsplit, List.map_cons, List.map_cons, List.map_append, List.sum_cons, List.sum_cons,
    List.sum_append, List.map_cons, List.sum_cons] at hall
  omega

/-- A block from which control may go back to it. -/
def loopEntry : Block :=
  ⟨"entry", [.other "load", .branch ["entry", "work"]]⟩

/-- Another such block. -/
def loopWork : Block :=
  ⟨"work", [.call (.direct "priv_remove" [.i32 1, .i32 7]), .branch ["work", "leave"]]⟩

/-- A procedure with these two loops. -/
def loopMain : Procedure where
  name := "main"
  blocks := [loopEntry, loopWork, ⟨"leave", [.ret]⟩]

/-- The program of this procedure alone. -/
def loopUnit : Program where
  name := "sample"
  procedures := [loopMain]

theorem loopMain_routines : ∀ c ∈ loopMain.calls, ∀ r : Routine, c.target? ≠ some r.name := by
  have hroutines : ∀ r : Routine, ∀ c ∈ loopMain.calls, c.target? ≠ some r.name := by
    intro r
    cases r <;> decide
  exact fun c hc r => hroutines r c hc

/-- A path that runs through the second loop twice and not through the first counts everything. -/
theorem total_along_path_sample : ∃ q stats counted, run {} loopUnit = .ok (q, stats) ∧
    List.Forall₂ (fun b b' => q.block? ⟨"main", b.label⟩ = some b')
      [loopEntry, loopWork, loopWork, ⟨"leave", [.ret]⟩] counted ∧
    (fresh.execute 7 (fun _ => {}) (counted.flatMap Block.operations)).total = 7 := by
  obtain ⟨q, stats, hrun⟩ : ∃ q stats, run {} loopUnit = .ok (q, stats) := ⟨_, _, rfl⟩
  have hpath : loopMain.IsPath [loopEntry, loopWork, loopWork, ⟨"leave", [.ret]⟩] :=
    ⟨rfl, by decide, by decide⟩
  obtain ⟨counted, hfound, -, htotal⟩ := total_along_path hrun rfl (by decide) loopMain_routines
    hpath 7 fun _ => {}
  exact ⟨q, stats, counted, hrun, hfound, htotal.2 (by decide)⟩

/-- A path that comes back to the first block loses what was counted before. -/
theorem not_total_along_path :
    ¬∀ (settings : Settings) (p q : Program) (stats : InstrumentStats) (d : Procedure)
      (path counted : List Block) (pid : UInt32) (identity : Identity),
      run settings p = .ok (q, stats) → p.procedure? settings.entry = some d →
      (∀ d ∈ p.procedures, ∀ b ∈ d.blocks, b.operations.length < UInt32.size ∧
        (∀ c ∈ b.calls, ∀ r : Routine, c.target? ≠ some r.name) ∧
        ∀ op ∈ b.operations.dropLast, op.isTerminator = false) →
      d.IsPath path → path ≠ [] →
      List.Forall₂ (fun b b' => q.block? ⟨settings.entry, b.label⟩ = some b') path counted →
      (fresh.execute pid (fun _ => identity) (counted.flatMap Block.operations)).total =
        (path.map fun b => b.live.length).sum := by
  intro h
  obtain ⟨q, stats, hrun⟩ : ∃ q stats, run {} loopUnit = .ok (q, stats) := ⟨_, _, rfl⟩
  have hpath : loopMain.IsPath [loopEntry, loopEntry] := ⟨rfl, by decide, by decide⟩
  have hblocks : ∀ d ∈ loopUnit.procedures, ∀ b ∈ d.blocks, b.operations.length < UInt32.size ∧
      (∀ c ∈ b.calls, ∀ r : Routine, c.target? ≠ some r.name) ∧
      ∀ op ∈ b.operations.dropLast, op.isTerminator = false := by
    intro d hd b hb
    obtain rfl := List.mem_singleton.1 hd
    have hsmall : ∀ b ∈ loopMain.blocks, b.operations.length < UInt32.size ∧
        ∀ op ∈ b.operations.dropLast, op.isTerminator = false := by decide
    refine ⟨(hsmall b hb).1, fun c hc => ?_, (hsmall b hb).2⟩
    exact loopMain_routines c (List.mem_flatMap.2 ⟨b, hb, hc⟩)
  obtain ⟨counted, hfound, htotal⟩ := exists_counted_path hrun rfl (by decide) loopMain_routines
    hpath 7 fun _ => {}
  have hall := h {} loopUnit q stats loopMain _ counted 7 {} hrun rfl hblocks hpath (by decide)
    hfound
  rw [htotal [loopEntry] [] rfl (by decide)] at hall
  exact absurd hall (by decide)

end Instrumentation

end LeastPrivilege
