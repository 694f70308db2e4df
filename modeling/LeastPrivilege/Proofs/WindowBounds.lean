import LeastPrivilege.Proofs.WindowCounts
import Mathlib.Data.Nat.PSub

/-!
# Windows stay in their block

The sizes of windows are differences of positions. None of them is negative: computing a plan with
differences that have no value below zero gives the same plan. Every window that is counted holds an
operation, and no call is put behind the operation that ends the block.
-/

namespace LeastPrivilege

/-- Nothing is put behind the last operation if every slot lies in front of it. -/
theorem Insertion.merge_concat {position : Nat} {queue : List Insertion} {ops : List Operation}
    (h : ∀ i ∈ queue, i.slot ≤ position + ops.length) (last : Operation) :
    merge position queue (ops ++ [last]) = merge position queue ops ++ [last] := by
  induction ops generalizing position queue with
  | nil =>
    have hmerge : merge position (queue ++ []) [last] = _ := merge_append h
    rw [List.append_nil, merge_nil] at hmerge
    exact hmerge
  | cons op ops ih =>
    have hrest : ∀ i ∈ queue.dropWhile (·.slot ≤ position), i.slot ≤ position + 1 + ops.length := by
      intro i hi
      have hslot := h i ((List.dropWhile_sublist _).subset hi)
      rw [List.length_cons] at hslot
      omega
    rw [List.cons_append, merge, merge, ih hrest, List.append_assoc, List.cons_append]

namespace BlockPlan

open PlannedCall

/-! ## Differences that may have no value -/

/-- The calls for the special calls of a block, and where the window after the last one starts. -/
def closeWindows (start : Nat) : List (Nat × SpecialCall) → Option (List PlannedCall × Nat)
  | [] => some ([], start)
  | (position, special) :: rest => do
    let earlier ← Nat.psub position start
    let later ← closeWindows (position + 1) rest
    return (ofSpecial position (earlier + 1) special ++ later.1, later.2)

/-- The slot where the last window is counted, and its size. The marker of an unreachable end is
left out of both. -/
def tailPlace (b : Block) (terminator tail : Nat) : Option (Nat × Nat) :=
  if b.endsUnreachable then do
    let slot ← Nat.psub terminator 1
    let n ← Nat.psub tail 1
    return (slot, n)
  else some (terminator, tail)

/-- The call for the window that is open at the end of a block. -/
def closeTail (b : Block) (terminator start : Nat) : Option (List PlannedCall) := do
  let tail ← Nat.psub b.operations.length start
  let place ← tailPlace b terminator tail
  return if 0 < place.2 then [⟨place.1, .count, [countArg place.2]⟩] else []

/-- The calls for a block that ends at a given position. -/
def closeAll (b : Block) (terminator : Nat) (specials : List (Nat × SpecialCall)) :
    Option (List PlannedCall) := do
  let closed ← closeWindows 0 specials
  let tail ← closeTail b terminator closed.2
  return closed.1 ++ tail

/-- The plan for a block, if no difference that is taken for it is negative. -/
def ofBlockChecked (settings : Settings) (procedure : String) (b : Block) :
    Except Error (Option BlockPlan) := do
  let some terminator := b.terminatorIndex? | throw (.missingTerminator procedure b.label)
  if b.endsUnreachable && terminator ≤ b.headerCount then return some { block := b }
  let specials ← findSpecials settings ⟨procedure, b.label⟩ 0 b.operations
  return (closeAll b terminator specials).map fun calls => { block := b, specials, calls }

variable {settings : Settings} {procedure : String} {site : BlockRef} {b : Block} {plan : BlockPlan}
  {specials : List (Nat × SpecialCall)} {start terminator k : Nat} {special : SpecialCall}
  {c : PlannedCall} {ops : List Operation} {last : Operation}

/-- Special calls one behind the other close windows of positive size. -/
theorem closeWindows_eq (hsorted : specials.Pairwise fun x y => x.1 < y.1)
    (hstart : ∀ x ∈ specials, start ≤ x.1) :
    closeWindows start specials = some (ofSpecials start specials,
      (specials.getLast?.map fun s => s.1 + 1).getD start) := by
  induction specials generalizing start with
  | nil => rfl
  | cons x rest ih =>
    obtain ⟨position, special⟩ := x
    obtain ⟨hlater, hrest⟩ := List.pairwise_cons.1 hsorted
    have hopen : Nat.psub position start = some (position - start) :=
      Nat.psub_eq_sub (hstart _ List.mem_cons_self)
    rw [closeWindows, hopen, ih hrest hlater, ofSpecials, List.getLast?_cons]
    cases rest.getLast? <;> rfl

/-- The tail is counted in front of the last operation that is executed, which there is. -/
theorem closeTail_eq (hlength : b.operations.length = terminator + 1) (hstart : start ≤ terminator)
    (hdead : ¬isDead b = true) : closeTail b terminator start =
      some (if start < executed b then
        [⟨executed b - 1, .count, [countArg (executed b - start)]⟩] else []) := by
  -- A marker that stands alone would make the block dead.
  have hmarker : b.endsUnreachable = true → 1 ≤ terminator := by
    intro hend
    by_contra hfirst
    refine hdead ?_
    rw [isDead, hend, Bool.true_and, decide_eq_true_eq]
    omega
  have htail : Nat.psub b.operations.length start = some (b.operations.length - start) :=
    Nat.psub_eq_sub (by omega)
  have hplace : tailPlace b terminator (b.operations.length - start) =
      some (executed b - 1, executed b - start) := by
    rw [tailPlace, executed, hlength]
    split
    · next hend =>
      rw [Nat.psub_eq_sub (hmarker hend), Nat.psub_eq_sub (by omega), Nat.add_sub_cancel,
        Nat.sub_right_comm, Nat.add_sub_cancel]
      rfl
    · rfl
  simp only [closeTail, htail, Option.bind_eq_bind, Option.bind_some, hplace, Nat.sub_pos_iff_lt,
    Option.pure_def]

/-- Were it not for the exception that dead blocks are, the last difference could be negative. -/
example : closeTail ⟨"dead", [.unreachable]⟩ 0 0 = none := by
  decide

/-! ## Positions of special calls -/

/-- A special call is a call, so it comes before the operation that ends the block. -/
theorem lt_of_mem_specialsFrom (hlast : last.isTerminator = true)
    (hk : (k, special) ∈ specialsFrom (Operation.special? settings site) 0 (ops ++ [last])) :
    k < ops.length := by
  have hnone : ∀ op ∈ [last], op.special? settings site = none := by
    simpa using special?_of_isTerminator hlast
  rw [specialsFrom_append hnone] at hk
  obtain ⟨i, op, hop, -, rfl⟩ := mem_specialsFrom.1 hk
  rw [Nat.zero_add]
  exact (List.getElem?_eq_some_iff.1 hop).1

theorem tailStart_eq (specials : List (Nat × SpecialCall)) :
    tailStart specials = (specials.getLast?.map fun s => s.1 + 1).getD 0 := by
  rw [tailStart]
  cases specials.getLast? <;> rfl

theorem tailStart_le (h : ∀ x ∈ specials, x.1 < terminator) : tailStart specials ≤ terminator := by
  rw [tailStart_eq]
  cases hlast : specials.getLast? with
  | none => exact Nat.zero_le terminator
  | some x => exact h x (List.mem_of_getLast? hlast)

/-- The special calls that are found in a block close their windows, and the tail is counted. -/
theorem closeAll_eq (h : findSpecials settings site 0 b.operations = .ok specials)
    (hops : b.operations = ops ++ [last]) (hlast : last.isTerminator = true)
    (hdead : ¬isDead b = true) :
    closeAll b ops.length specials = some (ofSpecials 0 specials ++ tailCalls b specials) := by
  have hspecials := eq_specialsFrom h
  have hsorted : specials.Pairwise fun x y => x.1 < y.1 := by
    rw [hspecials]
    exact pairwise_specialsFrom 0 b.operations
  have hbefore : ∀ x ∈ specials, x.1 < ops.length := by
    rw [hspecials, hops]
    exact fun x hx => lt_of_mem_specialsFrom hlast hx
  have hlength : b.operations.length = ops.length + 1 := by simp [hops]
  rw [closeAll, closeWindows_eq hsorted fun _ _ => Nat.zero_le _, ← tailStart_eq]
  simp only [Option.bind_eq_bind, Option.bind_some,
    closeTail_eq hlength (tailStart_le hbefore) hdead]
  rfl

/-- No difference that is taken for a block is negative. -/
theorem ofBlockChecked_eq (settings : Settings) (procedure : String) (b : Block) :
    ofBlockChecked settings procedure b = (ofBlock settings procedure b).map some := by
  rw [ofBlockChecked, ofBlock, Block.terminatorIndex?]
  cases hterminator : b.terminator? with
  | none => rfl
  | some last =>
    obtain ⟨hlast, hend⟩ := Option.filter_eq_some_iff.1 hterminator
    obtain ⟨ops, hops⟩ := List.getLast?_eq_some_iff.1 hlast
    have hlength : b.operations.length - 1 = ops.length := by simp [hops]
    have hstop : isDead b = (b.endsUnreachable && decide (ops.length ≤ b.headerCount)) := by
      rw [isDead, hlength]
    simp only [Option.map_some, hlength, ← hstop]
    by_cases hdead : isDead b = true
    · simp only [hdead]
      rfl
    · simp only [hdead]
      cases hfound : findSpecials settings ⟨procedure, b.label⟩ 0 b.operations with
      | error e => rfl
      | ok specials =>
        change Except.ok ((closeAll b ops.length specials).map _) = _
        rw [closeAll_eq hfound hops hend hdead]
        rfl

/-! ## Blocks with a plan -/

theorem mem_ofSpecials (h : c ∈ ofSpecials start specials) :
    ∃ k special n, (k, special) ∈ specials ∧ n ≤ k ∧ c ∈ ofSpecial k (n + 1) special := by
  induction specials generalizing start with
  | nil => cases h
  | cons x rest ih =>
    obtain ⟨position, special⟩ := x
    rw [ofSpecials] at h
    rcases List.mem_append.1 h with h | h
    · exact ⟨position, special, position - start, List.mem_cons_self, Nat.sub_le _ _, h⟩
    · obtain ⟨k, special', n, hk, hcall⟩ := ih h
      exact ⟨k, special', n, List.mem_cons_of_mem _ hk, hcall⟩

theorem mem_tailCalls (h : c ∈ tailCalls b specials) :
    ∃ n, n < executed b ∧ c = ⟨executed b - 1, .count, [countArg (n + 1)]⟩ := by
  rw [tailCalls] at h
  split at h
  · next hlt =>
    refine ⟨executed b - tailStart specials - 1, by omega, ?_⟩
    rw [List.mem_singleton.1 h, Nat.sub_add_cancel (by omega)]
  · cases h

/-- Of the calls for a special call, the one that counts passes the size of the window. -/
theorem count?_of_mem_ofSpecial {position n : Nat} (hn : n < UInt32.size)
    (hc : c ∈ ofSpecial position n special) (hcounting : c.isCounting = true) :
    c.operation.count? = some n := by
  cases special with
  | drop s =>
    obtain rfl := List.mem_singleton.1 hc
    exact count?_invoke (Or.inr (Or.inl rfl)) hn _
  | duplicate =>
    rcases List.mem_cons.1 hc with rfl | hc
    · exact count?_invoke (Or.inl rfl) hn _
    · obtain rfl := List.mem_singleton.1 hc
      cases hcounting
  | replace =>
    rcases List.mem_cons.1 hc with rfl | hc
    · exact count?_invoke (Or.inl rfl) hn _
    · obtain rfl := List.mem_singleton.1 hc
      cases hcounting
  | identityChange =>
    obtain rfl := List.mem_singleton.1 hc
    exact count?_invoke (Or.inr (Or.inr rfl)) hn _

/-- What is known of a call that is planned for a block whose last operation has position
`terminator`. -/
structure InBounds (terminator : Nat) (c : PlannedCall) : Prop where
  slot_le : c.slot ≤ terminator
  count_pos : terminator + 1 < UInt32.size → c.isCounting = true →
    ∃ n, c.operation.count? = some n ∧ 1 ≤ n

theorem inBounds_of_mem_calls (h : ofBlock settings procedure b = .ok plan)
    (hops : b.operations = ops ++ [last]) (hlast : last.isTerminator = true)
    (hc : c ∈ plan.calls) : InBounds ops.length c := by
  have hlength : b.operations.length = ops.length + 1 := by simp [hops]
  rcases ofBlock_cases h with ⟨-, rfl⟩ | ⟨-, specials, hfound, rfl⟩
  · cases hc
  rcases List.mem_append.1 hc with hc | hc
  · obtain ⟨k, special, n, hk, hn, hcall⟩ := mem_ofSpecials hc
    rw [eq_specialsFrom hfound, hops] at hk
    have hlt := lt_of_mem_specialsFrom hlast hk
    refine ⟨Nat.le_trans (slot_of_mem_ofSpecial hcall).2 hlt, fun hsize hcounting => ?_⟩
    exact ⟨n + 1, count?_of_mem_ofSpecial (by omega) hcall hcounting, Nat.le_add_left 1 n⟩
  · obtain ⟨n, hn, rfl⟩ := mem_tailCalls hc
    have hexecuted : executed b ≤ ops.length + 1 := by
      rw [executed, hlength]
      split <;> omega
    refine ⟨Nat.sub_le_of_le_add hexecuted, fun hsize _ => ?_⟩
    exact ⟨n + 1, count?_invoke (Or.inl rfl) (by omega) _, Nat.le_add_left 1 n⟩

/-- A plan that a block gets is the one that is computed without a negative difference. Every call
that counts passes a positive number. All slots lie in front of the operation that ends the block,
so that it stays the last: the calls are put into what comes before it. -/
theorem windows_stay_in_block (settings : Settings) (procedure : String) (b : Block)
    (plan : BlockPlan) (h : ofBlock settings procedure b = .ok plan) :
    ofBlockChecked settings procedure b = .ok (some plan) ∧
    (b.operations.length < UInt32.size → ∀ c ∈ plan.calls, c.isCounting = true →
      ∃ n, c.operation.count? = some n ∧ 1 ≤ n) ∧
    ∃ ops last, b.operations = ops ++ [last] ∧ last.isTerminator = true ∧
      b.terminatorIndex? = some ops.length ∧ (∀ c ∈ plan.calls, c.slot ≤ ops.length) ∧
      plan.result.operations =
        (Block.insertAll ⟨b.label, ops⟩ (plan.calls.map insertion)).operations ++ [last] := by
  obtain ⟨last, hgetLast, hlast⟩ := exists_terminator h
  obtain ⟨ops, hops⟩ := List.getLast?_eq_some_iff.1 hgetLast
  have hbounds : ∀ c ∈ plan.calls, InBounds ops.length c := fun c hc =>
    inBounds_of_mem_calls h hops hlast hc
  refine ⟨by rw [ofBlockChecked_eq, h]; rfl, fun hsize c hc => ?_, ops, last, hops, hlast, ?_,
    fun c hc => (hbounds c hc).slot_le, ?_⟩
  · rw [hops, List.length_append] at hsize
    exact (hbounds c hc).count_pos hsize
  · simp [Block.terminatorIndex?, Block.terminator?, hops, Option.filter_some, hlast]
  · have hslots : ∀ i ∈ (plan.calls.map insertion).mergeSort fun i j => i.slot ≤ j.slot,
        i.slot ≤ 0 + ops.length := by
      intro i hi
      obtain ⟨c, hc, rfl⟩ := List.mem_map.1 (List.mem_mergeSort.1 hi)
      rw [Nat.zero_add]
      exact (hbounds c hc).slot_le
    rw [result, (ofBlock_eq_ok h).1, Block.insertAll, hops]
    exact Insertion.merge_concat hslots last

/-- A block with an end in front, a header late, and a special call right before the marker of its
unreachable end. -/
def crowdedBlock : Block where
  label := "leave"
  operations := [.ret, .phi, .call (.direct "setuid" []), .unreachable]

/-- The three operations up to the special call are one window, which is counted between the call
and the marker. The tail is empty. -/
theorem windows_stay_in_block_crowded : ∃ plan, ofBlock {} "main" crowdedBlock = .ok plan ∧
    plan.calls = [⟨3, .countIdentity, [countArg 3]⟩] ∧
    ofBlockChecked {} "main" crowdedBlock = .ok (some plan) ∧
    crowdedBlock.operations.length < UInt32.size ∧
    (∃ n, (Routine.countIdentity.invoke [countArg 3]).count? = some n ∧ 1 ≤ n) ∧
    ∃ ops last, crowdedBlock.operations = ops ++ [last] ∧ 3 ≤ ops.length ∧
      plan.result.operations =
        (Block.insertAll ⟨"leave", ops⟩ (plan.calls.map insertion)).operations ++ [last] := by
  obtain ⟨plan, hplan, hcalls⟩ : ∃ plan, ofBlock {} "main" crowdedBlock = .ok plan ∧
      plan.calls = [⟨3, .countIdentity, [countArg 3]⟩] := ⟨_, rfl, by decide⟩
  have hsize : crowdedBlock.operations.length < UInt32.size := by decide
  have hmem : ⟨3, .countIdentity, [countArg 3]⟩ ∈ plan.calls := by simp [hcalls]
  obtain ⟨hchecked, hcounts, ops, last, hops, -, -, hslots, hresult⟩ :=
    windows_stay_in_block {} "main" crowdedBlock plan hplan
  exact ⟨plan, hplan, hcalls, hchecked, hsize, hcounts hsize _ hmem rfl, ops, last, hops,
    hslots _ hmem, hresult⟩

end BlockPlan

end LeastPrivilege
