import LeastPrivilege.Proofs.CheckedPlans
import LeastPrivilege.Proofs.Preservation

/-!
# Where drops are put

A block that ends in a terminator consists of its headers, a middle and the terminator. A drop at
the start goes between the first two of them and a drop at the end between the last two, whichever
of the two is decided first. The rest of the program stays as it is, and the counts account for
every entry of the plan.
-/

namespace LeastPrivilege

/-- A block cut into its headers, the operation that ends it, and what stands between. -/
structure Block.Parts (b : Block) (headers middle : List Operation) (last : Operation) : Prop where
  operations_eq : b.operations = headers ++ middle ++ [last]
  headers : ∀ op ∈ headers, op.isHeader = true
  middle : ∀ op, middle.head? = some op → op.isHeader = false
  last : last.isTerminator = true

namespace Block.Parts

variable {b : Block} {headers middle : List Operation} {last op : Operation}

theorem exists_of_terminator? (h : b.terminator? = some last) :
    ∃ headers middle, b.Parts headers middle last := by
  obtain ⟨hlast, hterminator⟩ := Option.filter_eq_some_iff.1 h
  have hsplit := b.headers_append
  have hheaders : ∀ op ∈ b.operations.takeWhile Operation.isHeader, op.isHeader = true :=
    List.all_eq_true.1 List.all_takeWhile
  rcases List.eq_nil_or_concat (b.operations.dropWhile Operation.isHeader) with
    hnil | ⟨ops, op, hops⟩
  · -- The last operation would be a header.
    rw [hnil, List.append_nil] at hsplit
    rw [hsplit] at hheaders
    have hheader := hheaders last (List.mem_of_getLast? hlast)
    rw [BlockPlan.isHeader_of_isTerminator hterminator] at hheader
    cases hheader
  · rw [List.concat_eq_append] at hops
    obtain rfl : op = last := by
      rw [← hsplit, hops, ← List.append_assoc, List.getLast?_concat] at hlast
      exact Option.some.inj hlast
    refine ⟨_, ops, ?_, hheaders, ?_, hterminator⟩
    · rw [List.append_assoc, ← hops, hsplit]
    · intro x hx
      have hhead : (b.operations.dropWhile Operation.isHeader).head? = some x := by
        rw [hops, List.head?_append, hx]
        rfl
      exact test_of_head?_dropWhile hhead

theorem terminator?_eq (h : b.Parts headers middle last) : b.terminator? = some last := by
  rw [terminator?, h.operations_eq, List.getLast?_concat]
  exact Option.filter_eq_some_iff.2 ⟨rfl, h.last⟩

theorem endsUnreachable_iff (h : b.Parts headers middle last) :
    b.endsUnreachable = true ↔ last = .unreachable := by
  rw [endsUnreachable, h.terminator?_eq, beq_iff_eq, Option.some.injEq]

theorem split_headers (h : b.Parts headers middle last) :
    b.operations.takeWhile Operation.isHeader = headers ∧
      b.operations.dropWhile Operation.isHeader = middle ++ [last] := by
  rw [h.operations_eq, List.append_assoc]
  refine takeWhile_dropWhile_append h.headers fun op hop => ?_
  cases middle with
  | nil =>
    obtain rfl := Option.some.inj hop
    exact BlockPlan.isHeader_of_isTerminator h.last
  | cons x middle => exact h.middle op hop

theorem headerCount_eq (h : b.Parts headers middle last) : b.headerCount = headers.length := by
  rw [headerCount, h.split_headers.1]

theorem insert_at_end (h : b.Parts headers middle last) (hop : op.isHeader = false) :
    Parts { b with operations := b.operations.insertIdx (b.operations.length - 1) op } headers
      (middle ++ [op]) last := by
  refine ⟨?_, h.headers, ?_, h.last⟩
  · have hlength : b.operations.length - 1 = (headers ++ middle).length := by
      simp [h.operations_eq]
    simp only [hlength]
    rw [h.operations_eq, insertIdx_length_append]
    simp
  · intro x hx
    cases middle with
    | nil =>
      obtain rfl := Option.some.inj hx
      exact hop
    | cons y middle => exact h.middle x hx

theorem insert_at_start (h : b.Parts headers middle last) (hop : op.isHeader = false) :
    Parts { b with operations := b.operations.insertIdx b.headerCount op } headers
      (op :: middle) last := by
  refine ⟨?_, h.headers, ?_, h.last⟩
  · simp only [h.headerCount_eq]
    rw [h.operations_eq, List.append_assoc, insertIdx_length_append]
    simp
  · intro x hx
    obtain rfl := Option.some.inj hx
    exact hop

end Block.Parts

/-! ## Reasons -/

namespace DropSkip

variable {d : DropInserter} {procedure : String} {s : CapabilitySet} {b b' : Block}

/-- The reasons in the order in which they count. -/
def order : List DropSkip :=
  [empty, signalHandler, unreachable, trap]

/-- A reason holds against a drop in a block: there is nothing to give up, the procedure is a signal
handler, the block ends where control never comes, or the first operation after its headers is a
call that stops the program. -/
def Holds (d : DropInserter) (procedure : String) (s : CapabilitySet) (b : Block) : DropSkip → Prop
  | empty => s = ∅
  | signalHandler => d.isHandler procedure = true
  | unreachable => b.operations.getLast? = some .unreachable
  | trap => ∃ args, (b.operations.dropWhile Operation.isHeader).head? =
      some (.call (.direct d.settings.trapIntrinsic args))

/-- What becomes of a drop: it is put in if no reason holds against it, and is otherwise left out
for the first that does. -/
def Outcome (d : DropInserter) (procedure : String) (s : CapabilitySet) (b : Block) :
    Option DropSkip → Prop
  | none => ∀ r, ¬Holds d procedure s b r
  | some r => Holds d procedure s b r ∧ ∀ r' ∈ order.takeWhile (· ≠ r), ¬Holds d procedure s b r'

theorem endsUnreachable_iff_holds :
    b.endsUnreachable = true ↔ unreachable.Holds d procedure s b := by
  rw [Block.endsUnreachable_iff, Holds, List.getLast?_eq_some_iff]

theorem isTrap_iff_holds : d.isTrap b = true ↔ trap.Holds d procedure s b := by
  rw [DropInserter.isTrap, ← List.head?_drop, b.drop_headerCount, Holds]
  cases (b.operations.dropWhile Operation.isHeader).head? with
  | none => simp
  | some op =>
    cases op with
    | call c =>
      obtain ⟨callee, args⟩ := c
      cases callee <;> simp [Operation.call?, Call.calls, Call.target?, Call.direct]
    | _ => simp [Operation.call?]

theorem Outcome.unique {o o' : Option DropSkip} (h : Outcome d procedure s b o)
    (h' : Outcome d procedure s b o') : o = o' := by
  rcases o with _ | (_ | _ | _ | _) <;> rcases o' with _ | (_ | _ | _ | _) <;>
    simp_all [Outcome, order]

theorem outcome_skip? (d : DropInserter) (procedure : String) (s : CapabilitySet) (b : Block) :
    Outcome d procedure s b (d.skip? procedure s b) := by
  rw [DropInserter.skip?]
  by_cases hempty : empty.Holds d procedure s b
  · rw [if_pos (show s = ∅ from hempty)]
    exact ⟨hempty, by simp [order]⟩
  rw [if_neg (show ¬s = ∅ from hempty)]
  by_cases hhandler : signalHandler.Holds d procedure s b
  · rw [if_pos (show d.isHandler procedure = true from hhandler)]
    exact ⟨hhandler, by simpa [order] using hempty⟩
  rw [if_neg (show ¬d.isHandler procedure = true from hhandler)]
  by_cases hend : unreachable.Holds d procedure s b
  · rw [if_pos (endsUnreachable_iff_holds.2 hend)]
    exact ⟨hend, by simpa [order] using ⟨hempty, hhandler⟩⟩
  rw [if_neg fun h => hend (endsUnreachable_iff_holds.1 h)]
  by_cases htrap : trap.Holds d procedure s b
  · rw [if_pos (isTrap_iff_holds.2 htrap)]
    exact ⟨htrap, by simpa [order] using ⟨hempty, hhandler, hend⟩⟩
  rw [if_neg fun h => htrap (isTrap_iff_holds.1 h)]
  intro r
  cases r <;> assumption

theorem skip?_eq_iff {o : Option DropSkip} :
    d.skip? procedure s b = o ↔ Outcome d procedure s b o :=
  ⟨fun h => h ▸ outcome_skip? d procedure s b, (outcome_skip? d procedure s b).unique⟩

instance (o : Option DropSkip) : Decidable (Outcome d procedure s b o) :=
  decidable_of_iff _ skip?_eq_iff

/-- Which reasons hold depends on how the block ends and on what comes after its headers. -/
theorem holds_congr (hlast : b'.operations.getLast? = b.operations.getLast?)
    (hfirst : trap.Holds d procedure s b' ↔ trap.Holds d procedure s b) (r : DropSkip) :
    r.Holds d procedure s b' ↔ r.Holds d procedure s b := by
  cases r with
  | empty => exact Iff.rfl
  | signalHandler => exact Iff.rfl
  | unreachable => rw [Holds, Holds, hlast]
  | trap => exact hfirst

theorem skip?_congr (h : ∀ r, Holds d procedure s b' r ↔ Holds d procedure s b r) :
    d.skip? procedure s b' = d.skip? procedure s b := by
  have houtcome := outcome_skip? d procedure s b
  rw [skip?_eq_iff]
  cases hskip : d.skip? procedure s b with
  | none =>
    rw [hskip] at houtcome
    exact fun r hr => houtcome r ((h r).1 hr)
  | some r =>
    rw [hskip] at houtcome
    exact ⟨(h r).2 houtcome.1, fun r' hr' hholds => houtcome.2 r' hr' ((h r').1 hholds)⟩

end DropSkip

/-- How many drops were left out for a reason. -/
def DropStats.skippedFor (stats : DropStats) : DropSkip → Nat
  | .empty => stats.skippedEmpty
  | .signalHandler => stats.skippedSignalHandler
  | .unreachable => stats.skippedUnreachable
  | .trap => stats.skippedTrap

/-! ## Blocks -/

namespace DropInserter

open DropSkip

variable {d : DropInserter} {plan : DropPlan} {ref : BlockRef} {b : Block}
  {headers middle : List Operation} {last : Operation} {s : CapabilitySet}

/-- The set of an entry whose drop is not left out of a block. -/
def kept? (d : DropInserter) (procedure : String) (b : Block) (s? : Option CapabilitySet) :
    Option CapabilitySet :=
  s?.filter fun s => d.skip? procedure s b = none

/-- What is given up at the end of a block. -/
def endDrop? (d : DropInserter) (plan : DropPlan) (ref : BlockRef) (b : Block) :
    Option CapabilitySet :=
  d.kept? ref.procedure b plan.atEnd[ref]?

/-- What is given up at the start of a block, where the drop is decided after that at its end. -/
def startDrop? (d : DropInserter) (plan : DropPlan) (ref : BlockRef) (b : Block) :
    Option CapabilitySet :=
  d.kept? ref.procedure (d.applyAtEnd plan ref b) plan.atStart[ref]?

/-- The operations for a drop, or none. -/
def drops (d : DropInserter) (s? : Option CapabilitySet) : List Operation :=
  (s?.map d.drop).toList

theorem isHeader_drop (d : DropInserter) (s : CapabilitySet) : (d.drop s).isHeader = false :=
  rfl

theorem kept?_eq_some_iff {s? : Option CapabilitySet} {procedure : String} :
    d.kept? procedure b s? = some s ↔ s? = some s ∧ Outcome d procedure s b none := by
  rw [kept?, Option.filter_eq_some_iff, decide_eq_true_eq, skip?_eq_iff]

theorem kept?_some (procedure : String) (s : CapabilitySet) (b : Block) :
    d.kept? procedure b (some s) = if d.skip? procedure s b = none then some s else none := by
  simp [kept?, Option.filter_some]

theorem parts_applyAtEnd (h : b.Parts headers middle last) (d : DropInserter) (plan : DropPlan)
    (ref : BlockRef) :
    (d.applyAtEnd plan ref b).Parts headers (middle ++ d.drops (d.endDrop? plan ref b)) last := by
  rw [applyAtEnd, endDrop?]
  cases plan.atEnd[ref]? with
  | none => simpa [drops, kept?] using h
  | some s =>
    simp only [kept?_some, insertAtEnd]
    cases d.skip? ref.procedure s b with
    | some reason => simpa [drops] using h
    | none => simpa [drops] using h.insert_at_end (d.isHeader_drop s)

/-- The drops that a plan asks for come behind the headers and before the end of the block. -/
theorem parts_applyPlan (h : b.Parts headers middle last) (d : DropInserter) (plan : DropPlan)
    (ref : BlockRef) :
    (d.applyPlan plan ref b).Parts headers (d.drops (d.startDrop? plan ref b) ++
      (middle ++ d.drops (d.endDrop? plan ref b))) last := by
  have hend := parts_applyAtEnd h d plan ref
  rw [applyPlan, startDrop?]
  cases plan.atStart[ref]? with
  | none => simpa [drops, kept?] using hend
  | some s =>
    simp only [kept?_some, insertAtStart]
    cases d.skip? ref.procedure s (d.applyAtEnd plan ref b) with
    | some reason => simpa [drops] using hend
    | none => simpa [drops] using hend.insert_at_start (d.isHeader_drop s)

/-- The drop at the end of a block does not matter to the reasons, unless giving capabilities up is
taken for stopping the program. -/
theorem holds_applyAtEnd (htrap : d.settings.trapIntrinsic ≠ d.settings.removePrimitive)
    (h : b.Parts headers middle last) (s : CapabilitySet) (r : DropSkip) :
    r.Holds d ref.procedure s (d.applyAtEnd plan ref b) ↔ r.Holds d ref.procedure s b := by
  have hend := parts_applyAtEnd h d plan ref
  refine holds_congr ?_ ?_ r
  · rw [hend.operations_eq, h.operations_eq, List.getLast?_concat, List.getLast?_concat]
  · rw [Holds, Holds, hend.split_headers.2, h.split_headers.2]
    cases middle with
    | cons op middle => exact Iff.rfl
    | nil =>
      -- Only a drop can have come to the front. Neither it nor the terminator stops the program.
      have hterminator : ∀ c, last ≠ .call c := by
        rintro c rfl
        exact absurd h.last (by simp [Operation.isTerminator])
      cases d.endDrop? plan ref b with
      | none => exact Iff.rfl
      | some s' =>
        simp [drops, drop, Call.ofCapabilities, Call.direct, htrap.symm, hterminator]

theorem startDrop?_eq (htrap : d.settings.trapIntrinsic ≠ d.settings.removePrimitive)
    (h : b.Parts headers middle last) (plan : DropPlan) (ref : BlockRef) :
    d.startDrop? plan ref b = d.kept? ref.procedure b plan.atStart[ref]? := by
  rw [startDrop?, kept?, kept?]
  congr 1
  funext s
  rw [skip?_congr (holds_applyAtEnd htrap h s)]

/-- What a table asks for in a block: the call for its entry unless a reason holds against it. -/
def Asks (d : DropInserter) (table : DropTable) (ref : BlockRef) (b : Block)
    (ops : List Operation) : Prop :=
  (∃ s, table[ref]? = some s ∧ (∀ r, ¬Holds d ref.procedure s b r) ∧
      ops = [.call (.ofCapabilities d.settings.removePrimitive s)]) ∨
    (∀ s, table[ref]? = some s → ∃ r, Holds d ref.procedure s b r) ∧ ops = []

theorem asks_drops (d : DropInserter) (table : DropTable) (ref : BlockRef) (b : Block) :
    d.Asks table ref b (d.drops (d.kept? ref.procedure b table[ref]?)) := by
  cases hkept : d.kept? ref.procedure b table[ref]? with
  | some s =>
    obtain ⟨hentry, hreasons⟩ := kept?_eq_some_iff.1 hkept
    exact Or.inl ⟨s, hentry, hreasons, rfl⟩
  | none =>
    refine Or.inr ⟨fun s hentry => ?_, rfl⟩
    by_contra hreasons
    rw [not_exists] at hreasons
    rw [kept?_eq_some_iff.2 ⟨hentry, hreasons⟩] at hkept
    cases hkept

/-- What becomes of a block: one that the plan does not name stays as it is, and any other gets what
the plan asks for behind its headers and before its end. -/
def Placed (d : DropInserter) (plan : DropPlan) (ref : BlockRef) (b b' : Block) : Prop :=
  (ref ∉ plan.atEnd ∧ ref ∉ plan.atStart ∧ b' = b) ∨
    ∃ headers middle last start finish, b.Parts headers middle last ∧
      d.Asks plan.atStart ref b start ∧ d.Asks plan.atEnd ref b finish ∧
      b'.label = b.label ∧ b'.operations = headers ++ start ++ middle ++ finish ++ [last]

theorem applyPlan_of_not_mem (hend : ref ∉ plan.atEnd) (hstart : ref ∉ plan.atStart) (b : Block) :
    d.applyPlan plan ref b = b := by
  rw [applyPlan, applyAtEnd, Std.ExtTreeMap.getElem?_eq_none hend,
    Std.ExtTreeMap.getElem?_eq_none hstart]

theorem placed_of_parts (htrap : d.settings.trapIntrinsic ≠ d.settings.removePrimitive)
    (h : b.Parts headers middle last) (plan : DropPlan) (ref : BlockRef) :
    d.Placed plan ref b (d.applyPlan plan ref b) := by
  have hparts := (parts_applyPlan h d plan ref).operations_eq
  rw [startDrop?_eq htrap h] at hparts
  refine Or.inr ⟨headers, middle, last, _, _, h, d.asks_drops plan.atStart ref b,
    d.asks_drops plan.atEnd ref b, (paddedTo_applyPlan plan ref b).label_eq, ?_⟩
  simp [hparts, endDrop?]

/-! ## Programs -/

variable {p p' : Program} {stats : DropStats}

theorem block?_of_run (h : d.run plan p = .ok (p', stats)) (hb : p.block? ref = some b) :
    p'.block? ref = some (d.applyPlan plan ref b) := by
  obtain ⟨_, _, -, -, -, -, rfl⟩ := run_eq_ok h
  rw [Program.block?_mapBlocks fun ref b => (paddedTo_applyPlan plan ref b).label_eq,
    Program.block?_declare hb, Option.map_some]

theorem findTarget_eq_ok (h : findTarget p ref = .ok b) :
    p.block? ref = some b ∧ ∃ headers middle last, b.Parts headers middle last := by
  obtain ⟨found, hfound, h⟩ := bind_eq_ok.1 h
  cases hlast : found.terminator? with
  | none =>
    rw [hlast] at h
    cases h
  | some last =>
    simp only [hlast] at h
    obtain rfl := Except.ok.inj h
    obtain ⟨headers, middle, hparts⟩ := Block.Parts.exists_of_terminator? hlast
    refine ⟨?_, headers, middle, last, hparts⟩
    rw [Program.findBlock] at hfound
    split at hfound
    · cases hfound
    · next e he =>
      split at hfound
      · cases hfound
      · next b hb =>
        obtain rfl := Except.ok.inj hfound
        rw [Program.block?, (Option.filter_eq_some_iff.1 he).1, Option.bind_some, hb]

theorem exists_parts_of_decisions {before : BlockRef → Block → Block} {table : DropTable}
    {found : List (Option DropSkip)} (h : d.decisions p before table = .ok found)
    (href : ref ∈ table) :
    ∃ b headers middle last, p.block? ref = some b ∧ b.Parts headers middle last := by
  obtain ⟨s, hs⟩ := Option.isSome_iff_exists.1 (Std.ExtTreeMap.mem_iff_isSome_getElem?.1 href)
  obtain ⟨_, -, hentry⟩ := exists_right_of_forall₂ (forall₂_of_mapM_eq_ok h)
    (Std.ExtTreeMap.mem_toList_iff_getElem?_eq_some.2 hs)
  obtain ⟨b, htarget, -⟩ := map_eq_ok.1 hentry
  obtain ⟨hb, headers, middle, last, hparts⟩ := findTarget_eq_ok htarget
  exact ⟨b, headers, middle, last, hb, hparts⟩

/-- Every block that the plan of a run names is there and ends in a terminator. -/
theorem exists_parts_of_run (h : d.run plan p = .ok (p', stats))
    (href : ref ∈ plan.atEnd ∨ ref ∈ plan.atStart) :
    ∃ b headers middle last, p.block? ref = some b ∧ b.Parts headers middle last := by
  obtain ⟨_, _, -, hend, hstart, -, -⟩ := run_eq_ok h
  rcases href with href | href
  · exact exists_parts_of_decisions hend href
  · exact exists_parts_of_decisions hstart href

/-- The block that an entry names is there, and the entry has an outcome in it. -/
def Decided (d : DropInserter) (p : Program) (entry : BlockRef × CapabilitySet)
    (o : Option DropSkip) : Prop :=
  ∃ b, p.block? entry.1 = some b ∧ Outcome d entry.1.procedure entry.2 b o

theorem decisions_eq_ok {before : BlockRef → Block → Block} {table : DropTable}
    {found : List (Option DropSkip)} (h : d.decisions p before table = .ok found)
    (hbefore : ∀ {b headers middle last}, Block.Parts b headers middle last → ∀ ref s r,
      Holds d ref.procedure s (before ref b) r ↔ Holds d ref.procedure s b r) :
    List.Forall₂ (d.Decided p) table.toList found := by
  refine (forall₂_of_mapM_eq_ok h).imp ?_
  rintro ⟨ref, s⟩ o hentry
  obtain ⟨b, htarget, rfl⟩ := map_eq_ok.1 hentry
  obtain ⟨hb, headers, middle, last, hparts⟩ := findTarget_eq_ok htarget
  rw [skip?_congr (hbefore hparts ref s)]
  exact ⟨b, hb, outcome_skip? ..⟩

/-- How many entries have an outcome in the blocks as they are. -/
def counted (d : DropInserter) (p : Program) (entries : List (BlockRef × CapabilitySet))
    (o : Option DropSkip) : Nat :=
  entries.countP fun (entry : BlockRef × CapabilitySet) =>
    decide (∃ b ∈ p.block? entry.1, Outcome d entry.1.procedure entry.2 b o)

theorem count_eq_counted {entries : List (BlockRef × CapabilitySet)}
    {found : List (Option DropSkip)} (h : List.Forall₂ (d.Decided p) entries found)
    (o : Option DropSkip) : found.count o = d.counted p entries o := by
  induction h with
  | nil => rfl
  | @cons entry o' entries found hentry _ ih =>
    obtain ⟨b, hb, houtcome⟩ := hentry
    have hcase : (o' == o) = decide (∃ b ∈ p.block? entry.1,
        Outcome d entry.1.procedure entry.2 b o) := by
      rw [Bool.eq_iff_iff, beq_iff_eq, decide_eq_true_eq]
      constructor
      · rintro rfl
        exact ⟨b, hb, houtcome⟩
      · rintro ⟨b', hb', houtcome'⟩
        obtain rfl := Option.some.inj (hb.symm.trans hb')
        exact houtcome.unique houtcome'
    rw [List.count_cons, ih, counted, counted, List.countP_cons, hcase]

/-- Every decision is counted once. -/
theorem inserted_add_skipped (atEnd atStart : List (Option DropSkip)) :
    (DropInserter.stats atEnd atStart).inserted + (DropInserter.stats atEnd atStart).skipped =
      atEnd.length + atStart.length := by
  have hall : ∀ decisions : List (Option DropSkip), decisions.count none +
      (decisions.count (some .signalHandler) + decisions.count (some .unreachable) +
        decisions.count (some .trap) + decisions.count (some .empty)) = decisions.length := by
    intro decisions
    induction decisions with
    | nil => rfl
    | cons decision decisions ih =>
      rcases decision with _ | (_ | _ | _ | _) <;> simp <;> omega
  have hend := hall atEnd
  have hstart := hall atStart
  simp only [DropStats.inserted, DropStats.skipped, DropInserter.stats, List.count_append]
  omega

theorem skippedFor_stats (atEnd atStart : List (Option DropSkip)) (r : DropSkip) :
    (DropInserter.stats atEnd atStart).skippedFor r = (atEnd ++ atStart).count (some r) := by
  cases r <;> rfl

/-- Inserting drops does just what the plan asks for, unless giving capabilities up is taken for
stopping the program: every block that the plan names is there and gets its calls, all else stays as
it is apart from a missing declaration, and every entry is counted under its outcome. -/
theorem run_carries_out_plan (htrap : d.settings.trapIntrinsic ≠ d.settings.removePrimitive)
    (hrun : (d.rewrite plan).run p = .ok stats p') :
    (∃ change : BlockRef → Block → Block,
      p' =
        { p with
          procedures := (p.mapBlocks change).procedures ++
            if (p.procedure? d.settings.removePrimitive).isSome then []
            else [.declare d.settings.removePrimitive
              { params := [.i32], ret := .i32, variadic := true }] } ∧
      (∀ e ∈ p.procedures, ∀ b ∈ e.blocks,
        d.Placed plan ⟨e.name, b.label⟩ b (change ⟨e.name, b.label⟩ b)) ∧
      ∀ ref, ref ∈ plan.atEnd ∨ ref ∈ plan.atStart → ∃ b, p.block? ref = some b ∧
        d.Placed plan ref b (change ref b) ∧ p'.block? ref = some (change ref b)) ∧
    stats.insertedAtEnd = d.counted p plan.atEnd.toList none ∧
    stats.insertedAtStart = d.counted p plan.atStart.toList none ∧
    (∀ r, stats.skippedFor r =
      d.counted p (plan.atEnd.toList ++ plan.atStart.toList) (some r)) ∧
    stats.inserted + stats.skipped = plan.atEnd.size + plan.atStart.size := by
  have h := rewrite_eq_ok_iff.1 hrun
  obtain ⟨atEnd, atStart, hcheck, hend, hstart, rfl, hp'⟩ := run_eq_ok h
  have hend' := decisions_eq_ok hend fun _ _ _ _ => Iff.rfl
  have hstart' := decisions_eq_ok hstart fun hparts ref s r => holds_applyAtEnd htrap hparts s r
  refine ⟨⟨d.applyPlan plan, ?_, ?_, ?_⟩, count_eq_counted hend' none,
    count_eq_counted hstart' none, ?_, ?_⟩
  · rw [hp', Program.mapBlocks_declare]
    rfl
  · intro e he b hb
    by_cases hplanned : ⟨e.name, b.label⟩ ∈ plan.atEnd ∨ ⟨e.name, b.label⟩ ∈ plan.atStart
    · obtain ⟨b', headers, middle, last, hb', hparts⟩ := exists_parts_of_run h hplanned
      obtain rfl := Option.some.inj ((Program.block?_of_mem hcheck he hb).symm.trans hb')
      exact placed_of_parts htrap hparts plan _
    · rw [not_or] at hplanned
      exact Or.inl ⟨hplanned.1, hplanned.2, applyPlan_of_not_mem hplanned.1 hplanned.2 b⟩
  · intro ref hplanned
    obtain ⟨b, headers, middle, last, hb, hparts⟩ := exists_parts_of_run h hplanned
    exact ⟨b, hb, placed_of_parts htrap hparts plan ref, block?_of_run h hb⟩
  · intro r
    rw [skippedFor_stats]
    exact count_eq_counted (List.rel_append hend' hstart') (some r)
  · rw [inserted_add_skipped, ← hend'.length_eq, ← hstart'.length_eq,
      Std.ExtTreeMap.length_toList, Std.ExtTreeMap.length_toList]

theorem run_carries_out_plan_sample :
    ({} : Settings).trapIntrinsic ≠ ({} : Settings).removePrimitive ∧
    (rewrite {} stopPlan).run stopUnit =
      .ok { insertedAtEnd := 1, insertedAtStart := 1, skippedTrap := 1 } stopDropped ∧
    (∃ b, stopUnit.block? ⟨"main", "entry"⟩ = some b ∧
      Placed {} stopPlan ⟨"main", "entry"⟩ b stopEntry) ∧
    1 = counted {} stopUnit (stopPlan.atEnd.toList ++ stopPlan.atStart.toList) (some .trap) ∧
    1 + 1 + 1 = stopPlan.atEnd.size + stopPlan.atStart.size := by
  have htrap : ({} : Settings).trapIntrinsic ≠ ({} : Settings).removePrimitive := by decide
  have hrun : (rewrite {} stopPlan).run stopUnit =
      .ok { insertedAtEnd := 1, insertedAtStart := 1, skippedTrap := 1 } stopDropped :=
    rewrite_eq_ok_iff.2 run_stop
  have hentry : ⟨"main", "entry"⟩ ∈ stopPlan.atStart := by decide +kernel
  obtain ⟨⟨change, -, -, hplanned⟩, -, -, hskipped, hall⟩ := run_carries_out_plan htrap hrun
  obtain ⟨b, hb, hplaced, hfound⟩ := hplanned ⟨"main", "entry"⟩ (Or.inr hentry)
  rw [← Option.some.inj hfound] at hplaced
  exact ⟨htrap, hrun, ⟨b, hb, hplaced⟩, hskipped .trap, hall⟩

end DropInserter

end LeastPrivilege
