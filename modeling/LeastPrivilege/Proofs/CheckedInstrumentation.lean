import LeastPrivilege.Proofs.InsertedCalls

/-!
# A program is instrumented as a whole or not at all

Instrumenting in place changes a program only if all checks pass. When they do is said here in terms
of the program alone, and in particular which routines it has to leave room for: those that are
called around its special calls, not those that it calls itself.
-/

namespace LeastPrivilege

/-! ## When the checks pass -/

theorem Block.mem_calls {b : Block} {c : Call} :
    c ∈ b.calls ↔ ∃ op ∈ b.operations, op.call? = some c :=
  List.mem_filterMap

theorem Block.calls_of_isDead {b : Block} (h : BlockPlan.isDead b = true) : b.calls = [] := by
  rw [List.eq_nil_iff_forall_not_mem]
  intro c hc
  obtain ⟨op, hop, hcall⟩ := mem_calls.1 hc
  rw [← b.live_append_idle, live_of_isDead h, List.nil_append] at hop
  rw [call?_of_mem_idle hop] at hcall
  cases hcall

theorem SpecialCall.exists_classify_eq_ok_iff {settings : Settings} {site : BlockRef} {c : Call} :
    (∃ special, classify settings site c = .ok special) ↔
      (c.calls settings.removePrimitive = true → ∃ s, c.capabilities site = .ok s) := by
  rw [classify, Call.calls]
  cases c.target? with
  | none => simp
  | some target =>
    by_cases htarget : target = settings.removePrimitive
    · simp only [htarget, if_true, beq_self_eq_true, forall_const]
      constructor
      · rintro ⟨special, h⟩
        obtain ⟨s, hs, -⟩ := map_eq_ok.1 h
        exact ⟨s, hs⟩
      · rintro ⟨s, hs⟩
        exact ⟨some (.drop s), map_eq_ok.2 ⟨s, hs, rfl⟩⟩
    · have hplain : ∀ x : SpecialCall, ∃ special : Option SpecialCall,
          (Except.ok (some x) : Except Error (Option SpecialCall)) = .ok special :=
        fun x => ⟨some x, rfl⟩
      simp only [htarget, if_false, Option.some_beq_some, beq_iff_eq, false_imp_iff, iff_true]
      split
      · exact hplain _
      · split
        · exact hplain _
        · split
          · exact hplain _
          · exact ⟨none, rfl⟩

namespace BlockPlan

variable {settings : Settings} {site : BlockRef} {procedure : String} {b : Block}

theorem exists_findSpecials_eq_ok_iff {position : Nat} {ops : List Operation} :
    (∃ specials, findSpecials settings site position ops = .ok specials) ↔
      ∀ op ∈ ops, ∀ c, op.call? = some c →
        ∃ special, SpecialCall.classify settings site c = .ok special := by
  induction ops generalizing position with
  | nil => simp [findSpecials]
  | cons op ops ih =>
    rw [List.forall_mem_cons, ← @ih (position + 1), findSpecials]
    cases hcall : op.call? with
    | none =>
      constructor
      · rintro ⟨specials, h⟩
        obtain ⟨_, -, h⟩ := bind_eq_ok.1 h
        obtain ⟨rest, hrest, -⟩ := bind_eq_ok.1 h
        exact ⟨by simp, rest, hrest⟩
      · rintro ⟨-, rest, hrest⟩
        rw [hrest]
        exact ⟨rest, rfl⟩
    | some c =>
      constructor
      · rintro ⟨specials, h⟩
        obtain ⟨found, hfound, h⟩ := bind_eq_ok.1 h
        obtain ⟨rest, hrest, -⟩ := bind_eq_ok.1 h
        exact ⟨by simpa using ⟨found, hfound⟩, rest, hrest⟩
      · rintro ⟨hop, rest, hrest⟩
        obtain ⟨found, hfound⟩ := hop c rfl
        rw [hrest]
        simp only [hfound]
        cases found with
        | none => exact ⟨rest, rfl⟩
        | some special => exact ⟨(position, special) :: rest, rfl⟩

/-- A block can be planned just if it ends in a terminator and the operands of all drops can be
read. -/
theorem exists_ofBlock_eq_ok_iff : (∃ plan, ofBlock settings procedure b = .ok plan) ↔
    (∃ op, b.operations.getLast? = some op ∧ op.isTerminator = true) ∧
      ∀ c ∈ b.calls, c.calls settings.removePrimitive = true →
        ∃ s, c.capabilities ⟨procedure, b.label⟩ = .ok s := by
  have hspecials : (∃ specials, findSpecials settings ⟨procedure, b.label⟩ 0 b.operations =
      .ok specials) ↔ ∀ c ∈ b.calls, c.calls settings.removePrimitive = true →
        ∃ s, c.capabilities ⟨procedure, b.label⟩ = .ok s := by
    rw [exists_findSpecials_eq_ok_iff]
    constructor
    · intro h c hc
      obtain ⟨op, hop, hcall⟩ := Block.mem_calls.1 hc
      exact SpecialCall.exists_classify_eq_ok_iff.1 (h op hop c hcall)
    · intro h op hop c hcall
      exact SpecialCall.exists_classify_eq_ok_iff.2 (h c (Block.mem_calls.2 ⟨op, hop, hcall⟩))
  rw [← hspecials, ← Block.isNone_terminator?, ofBlock]
  cases b.terminator?.isNone with
  | true =>
    refine ⟨?_, fun h => absurd h.1 Bool.noConfusion⟩
    rintro ⟨plan, h⟩
    cases h
  | false =>
    cases hdead : isDead b with
    | true =>
      refine ⟨fun _ => ⟨rfl, hspecials.2 ?_⟩, fun _ => ⟨_, rfl⟩⟩
      simp [Block.calls_of_isDead hdead]
    | false =>
      constructor
      · rintro ⟨plan, h⟩
        obtain ⟨specials, hfound, -⟩ := bind_eq_ok.1 h
        exact ⟨rfl, specials, hfound⟩
      · rintro ⟨-, specials, hfound⟩
        rw [hfound]
        exact ⟨_, rfl⟩

end BlockPlan

/-! ## Routines that are needed -/

/-- The routines called in the windows of a block: those that its special calls ask for, and the one
that counts unless the last operation that is executed is a special call. -/
theorem BlockPlan.mem_routines_windowCalls {special? : Operation → Option SpecialCall}
    {n position : Nat} {ops : List Operation} {r : Routine} :
    r ∈ (windowCalls special? n position ops).map PlannedCall.routine ↔
      (∃ op ∈ ops, ∃ special, special? op = some special ∧ r ∈ special.routines) ∨
        r = .count ∧ ∃ op, ops.getLast? = some op ∧ special? op = none := by
  induction ops generalizing n position with
  | nil => simp [windowCalls]
  | cons op ops ih =>
    rw [windowCalls]
    cases hspecial : special? op with
    | some special =>
      have hlast : (∃ o, (op :: ops).getLast? = some o ∧ special? o = none) ↔
          ∃ o, ops.getLast? = some o ∧ special? o = none := by
        cases ops with
        | nil => simp [hspecial]
        | cons o ops => rw [List.getLast?_cons_cons]
      rw [List.map_append, List.mem_append, PlannedCall.map_routine_ofSpecial, ih, hlast,
        ← or_assoc]
      simp [hspecial]
    | none =>
      cases ops with
      | nil => simp [hspecial]
      | cons o ops =>
        simp only [List.cons_ne_nil, if_false]
        rw [ih, List.getLast?_cons_cons]
        simp [hspecial]

theorem BlockPlan.mem_routines_calls {settings : Settings} {procedure : String} {b : Block}
    {plan : BlockPlan} {r : Routine} (h : ofBlock settings procedure b = .ok plan) :
    r ∈ plan.calls.map PlannedCall.routine ↔
      (∃ op ∈ b.operations, ∃ special,
        op.special? settings ⟨procedure, b.label⟩ = some special ∧ r ∈ special.routines) ∨
      r = .count ∧ ∃ op, b.live.getLast? = some op ∧
        op.special? settings ⟨procedure, b.label⟩ = none := by
  rw [(ofBlock_eq_ok h).2, mem_routines_windowCalls]
  refine or_congr_left (exists_congr fun op => and_congr_left ?_)
  rintro ⟨special, hspecial, -⟩
  -- What is never executed is no call, so a special call is one of the operations executed.
  have hidle : op ∉ b.idle := by
    intro hidle
    rw [special?_of_mem_idle hidle] at hspecial
    cases hspecial
  rw [← b.live_append_idle, List.mem_append, or_iff_left hidle]

namespace Instrumentation

/-- A program needs a routine if what is put into it calls it or passes it on. Three routines are
needed by the hooks, the others for the special calls in its blocks, and one counts what is executed
at the end of a block after the last special call. -/
inductive Needed (settings : Settings) (p : Program) : Routine → Prop
  | hook {r : Routine} (hr : r ∈ [.start, .report, .atExit]) : Needed settings p r
  | special {d : Procedure} {b : Block} {op : Operation} {special : SpecialCall} {r : Routine}
      (hd : d ∈ p.definitions) (hb : b ∈ d.blocks) (hop : op ∈ b.operations)
      (hspecial : op.special? settings ⟨d.name, b.label⟩ = some special)
      (hr : r ∈ special.routines) : Needed settings p r
  | tail {d : Procedure} {b : Block} {op : Operation} (hd : d ∈ p.definitions) (hb : b ∈ d.blocks)
      (hlast : b.live.getLast? = some op)
      (hplain : op.special? settings ⟨d.name, b.label⟩ = none) : Needed settings p .count

open Rewriting

variable {settings : Settings} {p : Program} {plans : List ProcedurePlan} {r : Routine}

theorem mem_usedRoutines_iff_needed
    (hplans : p.procedures.mapM (ProcedurePlan.ofProcedure settings) = .ok plans) :
    r ∈ usedRoutines (plans.flatMap ProcedurePlan.blocks) ↔ Needed settings p r := by
  rw [mem_usedRoutines]
  constructor
  · rintro (hr | ⟨plan, hplan, c, hc, rfl⟩)
    · exact .hook hr
    · obtain ⟨d, hd, b, hb, hblock⟩ := (mem_blockPlans hplans).1 hplan
      have hbody := Program.mem_definitions_of_block hd hb
      rcases (BlockPlan.mem_routines_calls hblock).1 (List.mem_map_of_mem hc) with
        ⟨op, hop, special, hspecial, hr⟩ | ⟨hcount, op, hlast, hplain⟩
      · exact .special hbody hb hop hspecial hr
      · rw [hcount]
        exact .tail hbody hb hlast hplain
  · have hblock : ∀ d ∈ p.definitions, ∀ b ∈ d.blocks, (∀ plan,
        BlockPlan.ofBlock settings d.name b = .ok plan →
          r ∈ plan.calls.map PlannedCall.routine) →
        ∃ plan ∈ plans.flatMap ProcedurePlan.blocks, ∃ c ∈ plan.calls, c.routine = r := by
      intro d hd b hb hcalls
      obtain ⟨plan, hmem, hplan⟩ := exists_blockPlan hplans (Program.mem_definitions.1 hd).1 hb
      exact ⟨plan, hmem, List.mem_map.1 (hcalls plan hplan)⟩
    intro h
    cases h with
    | hook hr => exact Or.inl hr
    | special hd hb hop hspecial hr =>
      exact Or.inr (hblock _ hd _ hb fun plan hplan =>
        (BlockPlan.mem_routines_calls hplan).2 (Or.inl ⟨_, hop, _, hspecial, hr⟩))
    | tail hd hb hlast hplain =>
      exact Or.inr (hblock _ hd _ hb fun plan hplan =>
        (BlockPlan.mem_routines_calls hplan).2 (Or.inr ⟨rfl, _, hlast, hplain⟩))

theorem exists_plans_iff :
    (∃ plans, p.procedures.mapM (ProcedurePlan.ofProcedure settings) = .ok plans) ↔
      ∀ d ∈ p.definitions, ∀ b ∈ d.blocks,
        ∃ plan, BlockPlan.ofBlock settings d.name b = .ok plan := by
  rw [exists_mapM_eq_ok_iff]
  have hprocedure : ∀ d : Procedure, (∃ plan, ProcedurePlan.ofProcedure settings d = .ok plan) ↔
      ∀ b ∈ d.blocks, ∃ plan, BlockPlan.ofBlock settings d.name b = .ok plan := by
    intro d
    rw [← exists_mapM_eq_ok_iff]
    constructor
    · rintro ⟨plan, h⟩
      obtain ⟨blocks, hblocks, -⟩ := bind_eq_ok.1 h
      exact ⟨blocks, hblocks⟩
    · rintro ⟨blocks, hblocks⟩
      exact ⟨⟨d, blocks⟩, by rw [ProcedurePlan.ofProcedure, hblocks]; rfl⟩
  constructor
  · intro h d hd
    exact (hprocedure d).1 (h d (Program.mem_definitions.1 hd).1)
  · intro h d hd
    exact (hprocedure d).2 fun b hb => h d (Program.mem_definitions_of_block hd hb) b hb

theorem exists_entryBlock_iff (hcheck : p.check = .ok ()) :
    (∃ entry, entryBlock settings p = .ok entry) ↔
      ∃ d ∈ p.definitions, d.name = settings.entry := by
  simp only [entryBlock_eq_ok_iff hcheck]
  constructor
  · rintro ⟨entry, d, hd, hname, b, bs, hblocks, -⟩
    have hfirst : b ∈ d.blocks := by simp [hblocks]
    exact ⟨d, Program.mem_definitions_of_block hd hfirst, hname⟩
  · rintro ⟨d, hd, hname⟩
    obtain ⟨hd, hbody⟩ := Program.mem_definitions.1 hd
    cases hblocks : d.blocks with
    | nil => simp [Procedure.isDefinition, Procedure.isDeclaration, hblocks] at hbody
    | cons b bs => exact ⟨⟨d.name, b.label⟩, d, hd, hname, b, bs, hblocks, rfl⟩

theorem exists_run_eq_ok_iff : (∃ q stats, run settings p = .ok (q, stats)) ↔
    p.check = .ok () ∧ (∃ entry, entryBlock settings p = .ok entry) ∧
      (∃ s, LocalRequirements.raisedAnywhere settings p = .ok s) ∧
      (∃ plans, p.procedures.mapM (ProcedurePlan.ofProcedure settings) = .ok plans) ∧
      ∀ r, Needed settings p r → p.checkSignature r.name r.signature = .ok () := by
  rw [run_eq_staged]
  constructor
  · rintro ⟨q, stats, h⟩
    obtain ⟨_, hcheck, h⟩ := bind_eq_ok.1 h
    obtain ⟨entry, hentry, h⟩ := bind_eq_ok.1 h
    obtain ⟨s, hraised, h⟩ := bind_eq_ok.1 h
    obtain ⟨plans, hplans, h⟩ := bind_eq_ok.1 h
    obtain ⟨_, hchecked, -⟩ := bind_eq_ok.1 h
    refine ⟨hcheck, ⟨entry, hentry⟩, ⟨s, hraised⟩, ⟨plans, hplans⟩, fun r hr => ?_⟩
    exact forM_eq_ok_iff.1 hchecked r ((mem_usedRoutines_iff_needed hplans).2 hr)
  · rintro ⟨hcheck, ⟨entry, hentry⟩, ⟨s, hraised⟩, ⟨plans, hplans⟩, hneeded⟩
    have hchecked := forM_eq_ok_iff.2 fun r hr =>
      hneeded r ((mem_usedRoutines_iff_needed hplans).1 hr)
    exact ⟨_, _, bind_eq_ok.2 ⟨(), hcheck, bind_eq_ok.2 ⟨entry, hentry, bind_eq_ok.2 ⟨s, hraised,
      bind_eq_ok.2 ⟨plans, hplans, bind_eq_ok.2 ⟨(), hchecked, rfl⟩⟩⟩⟩⟩⟩

/-- Instrumenting succeeds just if names are used once, the entry has a body, every block ends in a
terminator, the operands of all calls that raise or give up capabilities can be read, and every
routine that is needed is missing or has its signature. The routines needed are those that the
operations put into the program call or pass on; what the program calls itself does not matter. A
run that fails leaves the program as it was. -/
theorem instrumented_or_untouched (settings : Settings) (p : Program) :
    ((∃ stats q, (rewrite settings).run p = .ok stats q) ↔
      p.check = .ok () ∧
      (∃ d ∈ p.definitions, d.name = settings.entry) ∧
      (∀ d ∈ p.definitions, ∀ b ∈ d.blocks,
        (∃ op, b.operations.getLast? = some op ∧ op.isTerminator = true) ∧
        ∀ c ∈ b.calls, c.target? = some settings.raisePrimitive ∨
            c.target? = some settings.removePrimitive →
          ∃ s, c.capabilities ⟨d.name, b.label⟩ = .ok s) ∧
      ∀ r, Needed settings p r → ∀ e ∈ p.procedures, e.name = r.name →
        e.signature = r.signature) ∧
    (∀ stats q, (rewrite settings).run p = .ok stats q →
      ∃ added declared, p.ExtendedBy added declared q ∧
        ∀ r, Needed settings p r ↔ ∃ ref, ∃ op ∈ added ref, op.RefersTo r.name) ∧
    ∀ error q, (rewrite settings).run p = .error error q → q = p := by
  refine ⟨?_, ?_, ?_⟩
  · simp only [rewrite_eq_ok_iff]
    rw [exists_comm, exists_run_eq_ok_iff]
    refine and_congr_right fun hcheck => ?_
    rw [exists_entryBlock_iff hcheck, LocalRequirements.exists_raisedAnywhere_eq_ok_iff,
      exists_plans_iff]
    simp only [BlockPlan.exists_ofBlock_eq_ok_iff, Program.checkSignature_eq_ok_iff hcheck,
      Call.calls, beq_iff_eq]
    refine and_congr_right fun _ => ?_
    constructor
    · rintro ⟨hraise, hplans, hneeded⟩
      refine ⟨fun d hd b hb => ⟨(hplans d hd b hb).1, fun c hc => ?_⟩, hneeded⟩
      rintro (htarget | htarget)
      · exact hraise d hd b hb c hc htarget
      · exact (hplans d hd b hb).2 c hc htarget
    · rintro ⟨hblocks, hneeded⟩
      refine ⟨fun d hd b hb c hc htarget => ?_, fun d hd b hb => ⟨?_, fun c hc htarget => ?_⟩,
        hneeded⟩
      · exact (hblocks d hd b hb).2 c hc (Or.inl htarget)
      · exact (hblocks d hd b hb).1
      · exact (hblocks d hd b hb).2 c hc (Or.inr htarget)
  · intro stats q h
    obtain ⟨plans, added, declared, hplans, hextended, hops, -, -⟩ :=
      exists_inserted (rewrite_eq_ok_iff.1 h)
    refine ⟨added, declared, hextended, fun r => ?_⟩
    rw [← mem_usedRoutines_iff_needed hplans,
      mem_usedRoutines_iff_refersTo hplans stats.initialSet]
    simp only [← hops]
    constructor
    · rintro ⟨op, ⟨ref, hop⟩, hrefers⟩
      exact ⟨ref, op, hop, hrefers⟩
    · rintro ⟨ref, op, hop, hrefers⟩
      exact ⟨op, ⟨ref, hop⟩, hrefers⟩
  · intro error q herror
    rw [rewrite_eq_run] at herror
    exact eq_of_allOrNothing_eq_error herror

/-- The sample, which forks, with another procedure under the name of the routine that announces
forks. -/
def takenUnit : Program where
  name := "taken"
  procedures := [sampleMain, .declare "forkHandler" { params := [.i32] }]

theorem instrumented_or_untouched_taken :
    Needed {} takenUnit .announceFork ∧
      ∃ error, (rewrite {}).run takenUnit = .error error takenUnit := by
  have hfork : Needed {} takenUnit .announceFork := by
    have hmain : sampleMain ∈ takenUnit.definitions := by decide
    obtain ⟨b, hb, hop, hspecial⟩ : ∃ b ∈ sampleMain.blocks,
        Operation.call (.direct "fork" []) ∈ b.operations ∧
          (Operation.call (.direct "fork" [])).special? {} ⟨sampleMain.name, b.label⟩ =
            some .duplicate := by decide
    exact .special hmain hb hop hspecial (by decide)
  obtain ⟨hok, -, huntouched⟩ := instrumented_or_untouched {} takenUnit
  refine ⟨hfork, ?_⟩
  cases hrun : (rewrite {}).run takenUnit with
  | ok stats q =>
    obtain ⟨-, -, -, hroutines⟩ := hok.1 ⟨stats, q, hrun⟩
    have hsignature := hroutines _ hfork (.declare "forkHandler" { params := [.i32] })
      (by decide) rfl
    cases hsignature
  | error error q => exact ⟨error, by rw [huntouched error q hrun]⟩

/-- A program that never forks, with a procedure of its own under the name of the routine that
announces forks, which it calls. -/
def ownUnit : Program where
  name := "own"
  procedures :=
    [{ name := "main"
       blocks := [⟨"entry", [.call (.direct "forkHandler" [.i32 3]), .ret]⟩] },
      .declare "forkHandler" { params := [.i32] }]

/-- A rewritten program may call a procedure that has the name of a routine and another signature,
as it did before. -/
theorem not_signatures_of_routines_called :
    ∃ stats q, (rewrite {}).run ownUnit = .ok stats q ∧
      ¬∀ r : Routine, q.RefersTo r.name → ∀ e ∈ ownUnit.procedures, e.name = r.name →
        e.signature = r.signature := by
  obtain ⟨q, stats, hrun, d, hd, b, hb, hop⟩ : ∃ q stats, (rewrite {}).run ownUnit = .ok stats q ∧
      ∃ d ∈ q.definitions, ∃ b ∈ d.blocks,
        Operation.call (.direct "forkHandler" [.i32 3]) ∈ b.operations :=
    ⟨_, _, rewrite_eq_ok_iff.2 rfl, by decide +kernel⟩
  refine ⟨stats, q, hrun, fun hsignatures => ?_⟩
  have hsignature := hsignatures .announceFork ⟨d, hd, b, hb, _, hop, _, rfl, Or.inl rfl⟩
    (.declare "forkHandler" { params := [.i32] }) (by decide) rfl
  cases hsignature

end Instrumentation

end LeastPrivilege
