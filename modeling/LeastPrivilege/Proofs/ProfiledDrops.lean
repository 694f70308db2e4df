import LeastPrivilege.Proofs.CapabilityOperands
import LeastPrivilege.Proofs.DropPlacement
import LeastPrivilege.Proofs.EntryPaths
import LeastPrivilege.Proofs.InstrumentedInPlace

/-!
# Drops are profiled

A drop that was inserted into a block is read back with its set when the program is instrumented. It
closes a window, so the call that counts the window and gives the set up comes directly before it,
and nothing that is put in elsewhere, be it for other windows or for the entry, comes between.
-/

namespace LeastPrivilege

namespace DropInserter

open BlockPlan PlannedCall Instrumentation

variable {d : DropInserter} {plan : DropPlan} {p dropped q : Program} {dropStats : DropStats}
  {stats : InstrumentStats} {ref : BlockRef} {b : Block} {settings : Settings}
  {procedure : String} {headers middle rest : List Operation} {last : Operation}

theorem special?_drop (d : DropInserter) (site : BlockRef) (s : CapabilitySet) :
    (d.drop s).special? d.settings site = some (.drop s) := by
  have hclassify : SpecialCall.classify d.settings site
      (.ofCapabilities d.settings.removePrimitive s) = .ok (some (.drop s)) := by
    show (if d.settings.removePrimitive = d.settings.removePrimitive then _ else _) = _
    rw [if_pos rfl, Call.capabilities_ofCapabilities]
    rfl
  show ((SpecialCall.classify d.settings site _).toOption).join = _
  rw [hclassify]
  rfl

/-! ## Counted blocks -/

/-- The operations for a drop that closes a window of `n` operations: the call that counts them and
the call that gives the set up, or nothing if there is no drop. -/
def profiled (d : DropInserter) (n : Nat) : Option CapabilitySet → List Operation
  | none => []
  | some s => [Routine.countDrop.invoke [countArg n, .i64 (.ofNat s.bits)],
      .call (.direct d.settings.removePrimitive
        (.i32 (.ofNat s.size) :: s.indices.map fun i => .i32 (.ofNat i)))]

theorem exists_weave_drops (d : DropInserter) (site : BlockRef) (n : Nat)
    (s? : Option CapabilitySet) (rest : List Operation) :
    ∃ m, weave (Operation.special? d.settings site) n (d.drops s? ++ rest) =
      d.profiled (n + 1) s? ++ weave (Operation.special? d.settings site) m rest := by
  cases s? with
  | none => exact ⟨n, rfl⟩
  | some s => exact ⟨0, weave_special (d.special?_drop site s) n rest⟩

/-- Where drops stand behind the headers and before the end, each is counted with a call of its own,
and the calls for the other operations stand apart. -/
theorem exists_profiled_weave (d : DropInserter) (site : BlockRef) (n : Nat)
    (start? finish? : Option CapabilitySet) (middle : List Operation) (last : Operation) :
    ∃ woven rest m k, Interspersed Operation.IsCounting middle woven ∧
      Interspersed Operation.IsCounting [last] rest ∧
      weave (Operation.special? d.settings site) n
          (d.drops start? ++ (middle ++ (d.drops finish? ++ [last]))) =
        d.profiled m start? ++ woven ++ d.profiled k finish? ++ rest := by
  have hne : d.drops finish? ++ [last] ≠ [] := by simp
  obtain ⟨m, hstart⟩ := d.exists_weave_drops site n start?
    (middle ++ (d.drops finish? ++ [last]))
  obtain ⟨woven, k, hwoven, hmiddle⟩ :=
    exists_weave_append (Operation.special? d.settings site) hne m middle
  obtain ⟨l, hfinish⟩ := d.exists_weave_drops site k finish? [last]
  refine ⟨woven, weave (Operation.special? d.settings site) l [last], n + 1, k + 1, hwoven,
    interspersed_weave l [last], ?_⟩
  rw [hstart, hmiddle, hfinish]
  simp only [List.append_assoc]

/-- A block that does not end unreachable is executed as a whole. -/
theorem operations_of_parts {plan : BlockPlan} (h : ofBlock settings procedure b = .ok plan)
    (hparts : b.Parts headers middle last) (hlast : last ≠ .unreachable) :
    plan.result.operations = headers ++ weave (Operation.special? settings ⟨procedure, b.label⟩)
      headers.length (middle ++ [last]) := by
  have hend : ¬b.endsUnreachable = true := fun hend => hlast (hparts.endsUnreachable_iff.1 hend)
  have hlive : b.live = b.operations := if_neg hend
  have hidle : b.idle = [] := by rw [Block.idle, hlive, List.drop_length]
  have hplain : ∀ op ∈ headers, op.special? settings ⟨procedure, b.label⟩ = none := fun op hop =>
    special?_of_isHeader (hparts.headers op hop)
  rw [operations_result h, hidle, List.append_nil, hlive, hparts.operations_eq, List.append_assoc,
    weave_append hplain (by simp), Nat.zero_add]

/-- The hooks come directly behind the headers of a counted block. -/
theorem operations_insertAfterHeaders {plan : BlockPlan}
    (h : ofBlock settings procedure b = .ok plan) (hparts : b.Parts headers middle last)
    (hops : plan.result.operations = headers ++ rest) (extra : List Operation) :
    (insertAfterHeaders extra plan.result).operations = headers ++ extra ++ rest := by
  obtain ⟨placed, hplaced, hcounting⟩ := (instrumented_result h).placed
  obtain ⟨htake, hdrop⟩ := Block.headers_of_placed (by simp) hplaced hcounting
  rw [hparts.split_headers.1] at htake hplaced
  have hrest : placed = rest := by
    rw [hops, List.append_nil] at hplaced
    exact (List.append_cancel_left hplaced).symm
  rw [insertAfterHeaders, Block.take_headerCount, Block.drop_headerCount, htake, hdrop, hrest,
    List.nil_append]

/-! ## Instrumented programs -/

/-- What becomes of a block: it is counted, and it may get the hooks. -/
def CountedBlock (settings : Settings) (s : CapabilitySet) (procedure : String) (b b' : Block) :
    Prop :=
  ∃ plan extra, ofBlock settings procedure b = .ok plan ∧ (extra = [] ∨ extra = hooks s) ∧
    b' = insertAfterHeaders extra plan.result

theorem insertAfterHeaders_nil (b : Block) : insertAfterHeaders [] b = b := by
  rw [insertAfterHeaders, List.append_nil, List.take_append_drop]

theorem exists_counted_block (h : Instrumentation.run settings p = .ok (q, stats))
    (hb : p.block? ref = some b) :
    ∃ b', q.block? ref = some b' ∧
      CountedBlock settings stats.initialSet ref.procedure b b' := by
  obtain ⟨_, hcheck, -⟩ := Instrumentation.run_eq_ok h
  obtain ⟨e, he, hfound⟩ := Option.bind_eq_some_iff.1 hb
  have hname : e.name = ref.procedure := by simpa using List.find?_some he
  have hlabels := (Program.check_eq_ok_iff.1 hcheck).2 e (List.mem_of_find?_eq_some he)
  obtain ⟨plan, hplan, hq⟩ := procedure?_of_run h he
  have hlabel : ∀ b b', CountedBlock settings stats.initialSet ref.procedure b b' →
      b'.label = b.label := by
    rintro b b' ⟨plan, extra, hplan, -, rfl⟩
    exact (instrumented_result hplan).label_eq
  rw [Program.block?, hq]
  refine exists_find?_of_forall₂ ?_ hlabel hfound
  by_cases hentry : ref.procedure = settings.entry
  · rw [if_pos hentry]
    refine (forall₂_entryBlock hlabels hplan).imp ?_
    rintro b b' ⟨plan, hplan, rfl⟩
    rw [hname] at hplan
    by_cases hhead : e.blocks.head? = some b
    · exact ⟨plan, hooks stats.initialSet, hplan, Or.inr rfl, by rw [if_pos hhead]⟩
    · exact ⟨plan, [], hplan, Or.inl rfl, by rw [if_neg hhead, insertAfterHeaders_nil]⟩
  · rw [if_neg hentry, ProcedurePlan.result, List.forall₂_map_right_iff]
    refine (ProcedurePlan.ofProcedure_eq_ok hplan).2.imp ?_
    intro b plan hplan
    rw [hname] at hplan
    exact ⟨plan, [], hplan, Or.inl rfl, (insertAfterHeaders_nil _).symm⟩

/-- A block that gets a drop ends in a terminator that control reaches. -/
theorem exists_parts_of_inserted (h : d.run plan p = .ok (dropped, dropStats))
    (hb : p.block? ref = some b)
    (hinserted : d.startDrop? plan ref b ≠ none ∨ d.endDrop? plan ref b ≠ none) :
    ∃ headers middle last, b.Parts headers middle last ∧ last ≠ .unreachable := by
  -- An entry that is kept comes from the plan, and no reason holds against it.
  have hkept : ∀ {table : DropTable} {target : Block},
      d.kept? ref.procedure target table[ref]? ≠ none →
        ref ∈ table ∧ target.operations.getLast? ≠ some .unreachable := by
    intro table target hne
    obtain ⟨s, hs⟩ := Option.ne_none_iff_exists'.1 hne
    obtain ⟨hentry, hreasons⟩ := kept?_eq_some_iff.1 hs
    exact ⟨Std.ExtTreeMap.mem_iff_isSome_getElem?.2 (by rw [hentry]; rfl), hreasons .unreachable⟩
  have hplanned : ref ∈ plan.atEnd ∨ ref ∈ plan.atStart := by
    rcases hinserted with hstart | hend
    · exact Or.inr (hkept hstart).1
    · exact Or.inl (hkept hend).1
  obtain ⟨b', headers, middle, last, hb', hparts⟩ := exists_parts_of_run h hplanned
  obtain rfl := Option.some.inj (hb.symm.trans hb')
  refine ⟨headers, middle, last, hparts, ?_⟩
  rintro rfl
  rcases hinserted with hstart | hend
  · apply (hkept hstart).2
    rw [(parts_applyAtEnd hparts d plan ref).operations_eq, List.getLast?_concat]
  · apply (hkept hend).2
    rw [hparts.operations_eq, List.getLast?_concat]

/-- Drops that were inserted are profiled when the program is instrumented: in the block as it is
then, each comes directly behind the call that counts its window and gives its set up. The drop at
the start comes behind the headers and the hooks, and that at the end before the end of the block.
The operands of a drop are the number of members and the indices in ascending order, from which the
set is read back. -/
theorem drops_are_profiled (hdrop : (d.rewrite plan).run p = .ok dropStats dropped)
    (hrun : (Instrumentation.rewrite d.settings).run dropped = .ok stats q)
    (hb : p.block? ref = some b)
    (hinserted : d.startDrop? plan ref b ≠ none ∨ d.endDrop? plan ref b ≠ none) :
    (∃ headers middle last extra woven rest m n b', b.Parts headers middle last ∧
      q.block? ref = some b' ∧
      b'.operations = headers ++ extra ++ d.profiled m (d.startDrop? plan ref b) ++ woven ++
        d.profiled n (d.endDrop? plan ref b) ++ rest ∧
      (extra = [] ∨ extra = hooks stats.initialSet) ∧
      Interspersed Operation.IsCounting middle woven ∧
      Interspersed Operation.IsCounting [last] rest) ∧
    ∀ s : CapabilitySet, s.indices.Pairwise (· < ·) ∧ s.indices.length = s.size ∧
      (∀ i, i ∈ s.indices ↔ ∃ c ∈ s, c.index = i) ∧
      (Call.ofCapabilities d.settings.removePrimitive s).capabilities ref = .ok s := by
  have hdropped := DropInserter.rewrite_eq_ok_iff.1 hdrop
  constructor
  · obtain ⟨headers, middle, last, hparts, hlast⟩ := exists_parts_of_inserted hdropped hb hinserted
    have hplaced := parts_applyPlan hparts d plan ref
    obtain ⟨b', hb', blockPlan, extra, hplan, hextra, rfl⟩ :=
      exists_counted_block (Instrumentation.rewrite_eq_ok_iff.1 hrun) (block?_of_run hdropped hb)
    have hops := operations_of_parts hplan hplaced hlast
    obtain ⟨woven, rest, m, n, hwoven, hrest, hweave⟩ := d.exists_profiled_weave
      ⟨ref.procedure, (d.applyPlan plan ref b).label⟩ headers.length (d.startDrop? plan ref b)
      (d.endDrop? plan ref b) middle last
    rw [List.append_assoc, List.append_assoc, hweave] at hops
    refine ⟨headers, middle, last, extra, woven, rest, m, n, _, hparts, hb', ?_, hextra, hwoven,
      hrest⟩
    rw [operations_insertAfterHeaders hplan hplaced hops extra]
    simp only [List.append_assoc]
  · intro s
    refine ⟨s.pairwise_indices, ?_, fun i => CapabilitySet.mem_indices, ?_⟩
    · rw [CapabilitySet.indices, List.length_map, CapabilitySet.size]
    · exact Call.capabilities_ofCapabilities _ s ref

/-- Both drops of a block are profiled, though nothing else stands between them and the block gets
the hooks. -/
theorem drops_are_profiled_sample :
    ∃ q stats, (DropInserter.rewrite {} stopPlan).run stopUnit =
        .ok { insertedAtEnd := 1, insertedAtStart := 1, skippedTrap := 1 } stopDropped ∧
      (Instrumentation.rewrite {}).run stopDropped = .ok stats q ∧
      ∃ before between after m n b', q.block? ⟨"main", "entry"⟩ = some b' ∧
        b'.operations = before ++ profiled {} m (some (.single .chown)) ++ between ++
          profiled {} n (some (.single .sysAdmin)) ++ after := by
  have hdrop : (DropInserter.rewrite {} stopPlan).run stopUnit =
      .ok { insertedAtEnd := 1, insertedAtStart := 1, skippedTrap := 1 } stopDropped :=
    DropInserter.rewrite_eq_ok_iff.2 run_stop
  have hstart : startDrop? {} stopPlan ⟨"main", "entry"⟩ ⟨"entry", [.phi, .branch ["stop"]]⟩ =
      some (.single .chown) := by decide +kernel
  have hend : endDrop? {} stopPlan ⟨"main", "entry"⟩ ⟨"entry", [.phi, .branch ["stop"]]⟩ =
      some (.single .sysAdmin) := by decide +kernel
  have hb : stopUnit.block? ⟨"main", "entry"⟩ = some ⟨"entry", [.phi, .branch ["stop"]]⟩ := rfl
  obtain ⟨q, stats, hrun⟩ : ∃ q stats,
      (Instrumentation.rewrite {}).run stopDropped = .ok stats q :=
    ⟨_, _, Instrumentation.rewrite_eq_ok_iff.2 rfl⟩
  obtain ⟨⟨_, _, _, _, _, _, m, n, b', -, hb', hops, -⟩, -⟩ :=
    drops_are_profiled hdrop hrun hb (Or.inl (by rw [hstart]; simp))
  rw [hstart, hend] at hops
  exact ⟨q, stats, hdrop, hrun, _, _, _, m, n, b', hb', hops⟩

end DropInserter

end LeastPrivilege
