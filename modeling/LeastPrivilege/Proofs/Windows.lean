import LeastPrivilege.Profile.Instrumentation
import LeastPrivilege.Proofs.Results
import Mathlib.Tactic.Common

/-!
# The windows of a block

The calls that are planned for a block are read off its operations one after the other, with the
number of operations in the window that is open. Merging them into the block puts each in place, so
the counted block can be read off in the same way.
-/

namespace LeastPrivilege

namespace Insertion

variable {position : Nat} {queue early : List Insertion} {op : Operation} {ops : List Operation}

@[simp] theorem merge_nil (position : Nat) (ops : List Operation) :
    merge position [] ops = ops := by
  induction ops generalizing position with
  | nil => rfl
  | cons op ops ih => simp [merge, ih]

theorem merge_append (h : ∀ i ∈ early, i.slot ≤ position) :
    merge position (early ++ queue) ops = early.map operation ++ merge position queue ops := by
  have hdue : ∀ i ∈ early, decide (i.slot ≤ position) = true := by
    intro i hi
    exact decide_eq_true (h i hi)
  cases ops with
  | nil => simp [merge]
  | cons op ops =>
    rw [merge, merge, List.takeWhile_append_of_pos hdue, List.dropWhile_append_of_pos hdue,
      List.map_append, List.append_assoc]

theorem merge_cons (h : ∀ i ∈ queue, position < i.slot) :
    merge position queue (op :: ops) = op :: merge (position + 1) queue ops := by
  cases queue with
  | nil => simp
  | cons i queue =>
    have hi : ¬ i.slot ≤ position := Nat.not_le.2 (h i List.mem_cons_self)
    simp [merge, hi]

end Insertion

/-- Insertions that are sorted are merged as they stand. -/
theorem Block.operations_insertAll {b : Block} {queue : List Insertion}
    (h : queue.Pairwise fun i j => i.slot ≤ j.slot) :
    (b.insertAll queue).operations = Insertion.merge 0 queue b.operations := by
  rw [insertAll, List.mergeSort_of_pairwise]
  simpa using h

/-- What kind of special call an operation is, if it is one. -/
def Operation.special? (settings : Settings) (site : BlockRef) (op : Operation) :
    Option SpecialCall :=
  op.call?.bind fun c => ((SpecialCall.classify settings site c).toOption).join

namespace Block

variable {b : Block}

/-- The operations that are executed when control runs through a block: not the marker of an
unreachable end, and nothing if only headers stand in front of the marker. -/
def live (b : Block) : List Operation :=
  if b.endsUnreachable then
    if b.operations.dropLast.all Operation.isHeader then [] else b.operations.dropLast
  else b.operations

/-- The operations that are never executed. -/
def idle (b : Block) : List Operation :=
  b.operations.drop b.live.length

theorem endsUnreachable_iff :
    b.endsUnreachable = true ↔ ∃ ops, b.operations = ops ++ [.unreachable] := by
  rw [endsUnreachable, beq_iff_eq, terminator?, Option.filter_eq_some_iff,
    List.getLast?_eq_some_iff]
  exact and_iff_left rfl

theorem live_append_idle (b : Block) : b.live ++ b.idle = b.operations := by
  have hlive : b.live <+: b.operations := by
    rw [live]
    split
    · split
      · exact List.nil_prefix
      · exact List.dropLast_prefix b.operations
    · exact List.prefix_refl b.operations
  obtain ⟨rest, hrest⟩ := hlive
  rw [idle, ← hrest, List.drop_left]

/-- Only headers and the marker of an unreachable end are never executed. -/
theorem call?_of_mem_idle {op : Operation} (h : op ∈ b.idle) : op.call? = none := by
  rw [idle, live] at h
  split at h
  · next hend =>
    obtain ⟨ops, hops⟩ := endsUnreachable_iff.1 hend
    rw [hops, List.dropLast_concat] at h
    split at h
    · next hheaders =>
      rw [List.length_nil, List.drop_zero] at h
      rcases List.mem_append.1 h with h | h
      · have hheader := List.all_eq_true.1 hheaders op h
        cases op <;> simp_all [Operation.isHeader, Operation.call?]
      · rw [List.mem_singleton.1 h]
        rfl
    · rw [List.drop_left, List.mem_singleton] at h
      rw [h]
      rfl
  · simp at h

/-- A block is dead if only headers stand in front of its unreachable end. -/
theorem isDead_iff : BlockPlan.isDead b = true ↔
    b.endsUnreachable = true ∧ b.operations.dropLast.all Operation.isHeader = true := by
  rw [BlockPlan.isDead, Bool.and_eq_true, decide_eq_true_eq, headerCount]
  refine and_congr_right fun hend => ?_
  obtain ⟨ops, hops⟩ := endsUnreachable_iff.1 hend
  rw [hops, List.dropLast_concat, List.length_append, List.length_singleton, Nat.add_sub_cancel]
  constructor
  · intro hlength
    -- There are as many leading headers as operations before the marker, so these are all headers.
    have hpre : ops <+: (ops ++ [Operation.unreachable]).takeWhile Operation.isHeader :=
      List.prefix_of_prefix_length_le (List.prefix_append ..) (List.takeWhile_prefix _) hlength
    refine List.all_eq_true.2 fun op hop => ?_
    exact List.all_eq_true.1 List.all_takeWhile op (hpre.subset hop)
  · intro hheaders
    rw [List.takeWhile_append_of_pos (List.all_eq_true.1 hheaders), List.length_append]
    omega

theorem live_of_isDead (h : BlockPlan.isDead b = true) : b.live = [] := by
  obtain ⟨hend, hheaders⟩ := isDead_iff.1 h
  rw [live, if_pos hend, if_pos hheaders]

theorem length_live (h : ¬ BlockPlan.isDead b = true) : b.live.length = BlockPlan.executed b := by
  rw [live, BlockPlan.executed]
  split
  · next hend =>
    have hheaders : ¬ b.operations.dropLast.all Operation.isHeader = true := fun hheaders =>
      h (isDead_iff.2 ⟨hend, hheaders⟩)
    rw [if_neg hheaders, List.length_dropLast]
  · rfl

end Block

namespace PlannedCall

variable {position n : Nat} {special : SpecialCall} {c : PlannedCall}

theorem slot_of_mem_ofSpecial (h : c ∈ ofSpecial position n special) :
    position ≤ c.slot ∧ c.slot ≤ position + 1 := by
  cases special <;> simp [ofSpecial] at h <;> grind

theorem pairwise_ofSpecial (position n : Nat) (special : SpecialCall) :
    (ofSpecial position n special).Pairwise fun c d => c.slot ≤ d.slot := by
  cases special <;> simp [ofSpecial]

end PlannedCall

namespace BlockPlan

open PlannedCall

/-- An operation that is a special call, with the calls for the window of `n` operations that it
closes. -/
def around (n : Nat) (op : Operation) : SpecialCall → List Operation
  | .drop s => [Routine.countDrop.invoke [countArg n, .i64 (.ofNat s.bits)], op]
  | .duplicate => [Routine.count.invoke [countArg n], Routine.announceFork.invoke [], op]
  | .replace => [Routine.count.invoke [countArg n], Routine.report.invoke [], op]
  | .identityChange => [op, Routine.countIdentity.invoke [countArg n]]

section Planning

variable (special? : Operation → Option SpecialCall)

/-- The special calls among operations, where the first one has a given position. -/
def specialsFrom (position : Nat) : List Operation → List (Nat × SpecialCall)
  | [] => []
  | op :: ops =>
    match special? op with
    | some special => (position, special) :: specialsFrom (position + 1) ops
    | none => specialsFrom (position + 1) ops

/-- The calls for the operations that are executed from a position on, when `n` operations before
them are yet to be counted. -/
def windowCalls (n position : Nat) : List Operation → List PlannedCall
  | [] => []
  | op :: ops =>
    match special? op with
    | some special => ofSpecial position (n + 1) special ++ windowCalls 0 (position + 1) ops
    | none =>
      if ops = [] then [⟨position, .count, [countArg (n + 1)]⟩]
      else windowCalls (n + 1) (position + 1) ops

/-- The operations that are executed with the calls in place, when `n` operations before them are
yet to be counted. -/
def weave (n : Nat) : List Operation → List Operation
  | [] => []
  | op :: ops =>
    match special? op with
    | some special => around (n + 1) op special ++ weave 0 ops
    | none =>
      if ops = [] then [Routine.count.invoke [countArg (n + 1)], op] else op :: weave (n + 1) ops

/-- The call for what is left after the last special call, where the first window starts at
`start`. -/
def tailFrom (executed start : Nat) (specials : List (Nat × SpecialCall)) : List PlannedCall :=
  let rest := (specials.getLast?.map fun s => s.1 + 1).getD start
  if rest < executed then [⟨executed - 1, .count, [countArg (executed - rest)]⟩] else []

end Planning

variable {special? : Operation → Option SpecialCall} {settings : Settings} {site : BlockRef}
  {specials : List (Nat × SpecialCall)} {c : PlannedCall} {op : Operation}
  {ops rest : List Operation} {n position start : Nat} {procedure : String} {b : Block}
  {plan : BlockPlan}

theorem tailCalls_eq_tailFrom (b : Block) (specials : List (Nat × SpecialCall)) :
    tailCalls b specials = tailFrom (executed b) 0 specials := by
  rw [tailCalls, tailFrom, tailStart]
  cases specials.getLast? <;> rfl

theorem tailFrom_cons (executed start position : Nat) (special : SpecialCall)
    (specials : List (Nat × SpecialCall)) :
    tailFrom executed start ((position, special) :: specials) =
      tailFrom executed (position + 1) specials := by
  rw [tailFrom, tailFrom, List.getLast?_cons]
  cases specials.getLast? <;> rfl

theorem findSpecials_cons (h : findSpecials settings site position (op :: ops) = .ok specials) :
    ∃ rest, findSpecials settings site (position + 1) ops = .ok rest ∧
      specials = match op.special? settings site with
        | some special => (position, special) :: rest
        | none => rest := by
  rw [findSpecials] at h
  rw [Operation.special?]
  cases hcall : op.call? with
  | none =>
    simp only [hcall] at h
    obtain ⟨_, hnone, h⟩ := bind_eq_ok.1 h
    obtain ⟨rest, hrest, h⟩ := bind_eq_ok.1 h
    cases hnone
    exact ⟨rest, hrest, (Except.ok.inj h).symm⟩
  | some c =>
    simp only [hcall] at h
    obtain ⟨found, hfound, h⟩ := bind_eq_ok.1 h
    obtain ⟨rest, hrest, h⟩ := bind_eq_ok.1 h
    refine ⟨rest, hrest, ?_⟩
    cases found <;> simpa [hfound, Except.toOption] using (Except.ok.inj h).symm

/-- A search that succeeds finds the operations that are special calls. -/
theorem eq_specialsFrom (h : findSpecials settings site position ops = .ok specials) :
    specials = specialsFrom (Operation.special? settings site) position ops := by
  induction ops generalizing position specials with
  | nil =>
    rw [findSpecials, Except.ok.injEq] at h
    exact h.symm
  | cons op ops ih =>
    obtain ⟨rest, hrest, rfl⟩ := findSpecials_cons h
    rw [specialsFrom, ← ih hrest]

/-- The calls of the windows, read off the operations. -/
theorem ofSpecials_append_tailFrom (hstart : start ≤ position)
    (hend : ops = [] → start = position) :
    ofSpecials start (specialsFrom special? position ops) ++
        tailFrom (position + ops.length) start (specialsFrom special? position ops) =
      windowCalls special? (position - start) position ops := by
  induction ops generalizing position start with
  | nil => simp [specialsFrom, ofSpecials, tailFrom, windowCalls, hend]
  | cons op ops ih =>
    have hlength : position + (op :: ops).length = position + 1 + ops.length := by
      rw [List.length_cons]
      omega
    have hopen : position + 1 - start = position - start + 1 := by omega
    rw [specialsFrom, windowCalls, hlength]
    cases special? op with
    | some special =>
      have hrest := ih (Nat.le_refl (position + 1)) fun _ => rfl
      rw [Nat.sub_self] at hrest
      simp only [ofSpecials, tailFrom_cons, List.append_assoc, hrest]
    | none =>
      by_cases hlast : ops = []
      · -- The last operation closes the window, so none is open when the operations end.
        have hlt : start < position + 1 := by omega
        simp [hlast, specialsFrom, ofSpecials, tailFrom, hlt, hopen]
      · simp only [if_neg hlast]
        rw [ih (by omega) fun h => absurd h hlast, hopen]

theorem le_slot_of_mem_windowCalls (h : c ∈ windowCalls special? n position ops) :
    position ≤ c.slot := by
  induction ops generalizing n position with
  | nil => simp [windowCalls] at h
  | cons op ops ih =>
    rw [windowCalls] at h
    cases hspecial : special? op with
    | some special =>
      rw [hspecial] at h
      rcases List.mem_append.1 h with h | h
      · exact (slot_of_mem_ofSpecial h).1
      · exact Nat.le_of_succ_le (ih h)
    | none =>
      simp only [hspecial] at h
      split at h
      · simp [List.mem_singleton.1 h]
      · exact Nat.le_of_succ_le (ih h)

theorem pairwise_windowCalls (n position : Nat) (ops : List Operation) :
    (windowCalls special? n position ops).Pairwise fun c d => c.slot ≤ d.slot := by
  induction ops generalizing n position with
  | nil => exact List.Pairwise.nil
  | cons op ops ih =>
    rw [windowCalls]
    cases special? op with
    | some special =>
      refine List.pairwise_append.2 ⟨pairwise_ofSpecial .., ih .., ?_⟩
      intro c hc d hd
      exact Nat.le_trans (slot_of_mem_ofSpecial hc).2 (le_slot_of_mem_windowCalls hd)
    | none =>
      simp only
      split
      · exact List.pairwise_singleton ..
      · exact ih ..

theorem map_operation (calls : List PlannedCall) :
    (calls.map insertion).map Insertion.operation = calls.map fun c => c.routine.invoke c.args := by
  rw [List.map_map]
  rfl

/-- Merging puts the calls of a special call around it. -/
theorem merge_ofSpecial {queue : List Insertion} (h : ∀ i ∈ queue, position < i.slot)
    (special : SpecialCall) :
    Insertion.merge position ((ofSpecial position n special).map insertion ++ queue) (op :: ops) =
      around n op special ++ Insertion.merge (position + 1) queue ops := by
  have hbefore : (∀ c ∈ ofSpecial position n special, c.slot = position) →
      Insertion.merge position ((ofSpecial position n special).map insertion ++ queue) (op :: ops) =
        (ofSpecial position n special).map (fun c => c.routine.invoke c.args) ++
          op :: Insertion.merge (position + 1) queue ops := by
    intro hslot
    have hdue : ∀ i ∈ (ofSpecial position n special).map insertion, i.slot ≤ position := by
      intro i hi
      obtain ⟨c, hc, rfl⟩ := List.mem_map.1 hi
      exact Nat.le_of_eq (hslot c hc)
    rw [Insertion.merge_append hdue, Insertion.merge_cons h, map_operation]
  cases special with
  | drop s => simpa [ofSpecial, around] using hbefore
  | duplicate => simpa [ofSpecial, around] using hbefore
  | replace => simpa [ofSpecial, around] using hbefore
  | identityChange =>
    -- The call comes after the operation, so it is due one position later.
    have hdue : ∀ i ∈ (ofSpecial position n .identityChange).map insertion,
        i.slot ≤ position + 1 := by
      simp [ofSpecial, insertion]
    have hwait : ∀ i ∈ (ofSpecial position n .identityChange).map insertion ++ queue,
        position < i.slot := by
      intro i hi
      rcases List.mem_append.1 hi with hi | hi
      · simp [List.mem_singleton.1 hi, insertion]
      · exact h i hi
    rw [Insertion.merge_cons hwait, Insertion.merge_append hdue, map_operation]
    rfl

/-- Merging puts the calls in place. What is never executed stays at the end. -/
theorem merge_windowCalls (n position : Nat) (ops rest : List Operation) :
    Insertion.merge position ((windowCalls special? n position ops).map insertion) (ops ++ rest) =
      weave special? n ops ++ rest := by
  induction ops generalizing n position with
  | nil => simp [windowCalls, weave]
  | cons op ops ih =>
    have hlater : ∀ m, ∀ i ∈ (windowCalls special? m (position + 1) ops).map insertion,
        position < i.slot := by
      intro m i hi
      obtain ⟨c, hc, rfl⟩ := List.mem_map.1 hi
      exact le_slot_of_mem_windowCalls hc
    rw [windowCalls, weave, List.cons_append]
    cases special? op with
    | some special =>
      simp only [List.map_append, List.append_assoc]
      rw [merge_ofSpecial (hlater 0), ih]
    | none =>
      by_cases hlast : ops = []
      · simp [hlast, Insertion.merge, insertion, operation, Routine.invoke]
      · simp only [if_neg hlast]
        rw [Insertion.merge_cons (hlater (n + 1)), ih]
        rfl

theorem specialsFrom_append (h : ∀ op ∈ rest, special? op = none) (position : Nat)
    (ops : List Operation) :
    specialsFrom special? position (ops ++ rest) = specialsFrom special? position ops := by
  induction ops generalizing position with
  | nil =>
    rw [List.nil_append, specialsFrom]
    induction rest generalizing position with
    | nil => rfl
    | cons op rest ih =>
      rw [specialsFrom, h op List.mem_cons_self]
      exact ih (fun op hop => h op (List.mem_cons_of_mem _ hop)) (position + 1)
  | cons op ops ih =>
    rw [List.cons_append, specialsFrom, specialsFrom, ih]

theorem special?_of_mem_idle (h : op ∈ b.idle) : op.special? settings site = none := by
  rw [Operation.special?, Block.call?_of_mem_idle h]
  rfl

/-- A plan is empty if no operation of the block is executed. Otherwise it is made for the special
calls that are found. -/
theorem ofBlock_cases (h : ofBlock settings procedure b = .ok plan) :
    isDead b = true ∧ plan = { block := b } ∨
      ¬isDead b = true ∧ ∃ specials,
        findSpecials settings ⟨procedure, b.label⟩ 0 b.operations = .ok specials ∧
        plan =
          { block := b, specials, calls := ofSpecials 0 specials ++ tailCalls b specials } := by
  rw [ofBlock] at h
  by_cases hterminator : b.terminator?.isNone
  · simp only [hterminator] at h
    obtain ⟨_, hthrow, -⟩ := bind_eq_ok.1 h
    cases hthrow
  by_cases hdead : isDead b = true
  · simp only [hterminator, hdead] at h
    cases h
    exact Or.inl ⟨hdead, rfl⟩
  · simp only [hterminator, hdead] at h
    obtain ⟨specials, hspecials, h⟩ := bind_eq_ok.1 h
    cases h
    exact Or.inr ⟨hdead, specials, hspecials, rfl⟩

/-- The special calls of a plan are those among the operations that are executed. -/
theorem specials_eq (h : ofBlock settings procedure b = .ok plan) :
    plan.specials = specialsFrom (Operation.special? settings ⟨procedure, b.label⟩) 0 b.live := by
  rcases ofBlock_cases h with ⟨hdead, rfl⟩ | ⟨-, specials, hspecials, rfl⟩
  · rw [Block.live_of_isDead hdead]
    rfl
  · have hfound := eq_specialsFrom hspecials
    rwa [← b.live_append_idle, specialsFrom_append fun op hop => special?_of_mem_idle hop] at hfound

/-- The calls that are planned for a block are those of its windows. -/
theorem ofBlock_eq_ok (h : ofBlock settings procedure b = .ok plan) :
    plan.block = b ∧
      plan.calls = windowCalls (Operation.special? settings ⟨procedure, b.label⟩) 0 0 b.live := by
  have hspecials := specials_eq h
  rcases ofBlock_cases h with ⟨hdead, rfl⟩ | ⟨hdead, specials, -, rfl⟩
  · simp [Block.live_of_isDead hdead, windowCalls]
  · refine ⟨rfl, ?_⟩
    simp only at hspecials
    rw [tailCalls_eq_tailFrom, ← Block.length_live hdead, hspecials]
    simpa using ofSpecials_append_tailFrom (Nat.le_refl 0) fun _ : b.live = [] => rfl

/-- A counted block is the block with the calls in place. -/
theorem operations_result (h : ofBlock settings procedure b = .ok plan) :
    plan.result.operations =
      weave (Operation.special? settings ⟨procedure, b.label⟩) 0 b.live ++ b.idle := by
  obtain ⟨hblock, hcalls⟩ := ofBlock_eq_ok h
  have hsorted : (plan.calls.map insertion).Pairwise fun i j => i.slot ≤ j.slot := by
    rw [hcalls]
    exact List.pairwise_map.2 (pairwise_windowCalls 0 0 b.live)
  rw [result, Block.operations_insertAll hsorted, hblock, hcalls, ← b.live_append_idle,
    merge_windowCalls]

end BlockPlan

end LeastPrivilege
